import Kascov.Lib.Saturate
import Kascov.Token.Soundness

/-!
# Recovery is a fixpoint that no order changes

`prove_recovered` applies one rule until nothing changes: a candidate spliced
into a program proven before, and gated by the hash of the output's own script,
proves that output.  More proven cells offer more programs to splice into, and
never fewer, and a commitment opens in one way unless two programs among those
recovery can form collide.  So the cells proven, with their states, are what the
rule derives, in whichever order the transactions, their witnesses, their outputs
and the candidates are tried.
-/

namespace Kascov

open Saturate

/-! ## The rule -/

section Rule

variable (blake2b : Bytes → Bytes) (s : Store) (tokenId : CovenantId) (cells : List TokenCell)

/-- A guess that proves an output: the splice of offered fields into a base hashes
to what the script commits to. -/
def Candidate (bases pushes : List Bytes) (n k : Nat) (spk : Bytes)
    (proof : TokenState × Bytes) : Prop :=
  ∃ base ∈ bases, ∃ owner ∈ ownerCands pushes n k, ∃ amount ∈ amountCands pushes n k,
    ∃ pair ∈ typeMinterDomain,
      proveOutputState blake2b base spk owner pair.1 amount pair.2 = some proof.1 ∧
        spliceTokenState base owner pair.1 amount pair.2 = some proof.2

/-- The proof of each cell. -/
def provenAt (cells : List TokenCell) (i : Nat) : Option (TokenState × Bytes) :=
  cells[i]?.bind (·.proven)

/-- `ins_of`, for one transaction. -/
def txIns (txid : TxId) : List Nat := indicesOf cells (·.spentTxid = some txid)

/-- The witnesses of a transaction. -/
def txSigs (txid : TxId) : List Bytes :=
  (txIns cells txid).filterMap (fun i ↦ cells[i]?.bind (·.spentSig)) ++
    foreignSigs s txid tokenId

/-- The programs a transaction can splice into, given what is proven. -/
def basesOf (proven : Nat → Option (TokenState × Bytes)) (indices : List Nat) : List Bytes :=
  byteSet ((indices.filterMap fun i ↦ (proven i).map (·.2)).filter fun program ↦
    (locateStateBlock program).isSome)

/-- The rule of recovery: a witness of the creating transaction, a program proven
for one of its own cells, and a guess that the output's script confirms. -/
def RecoveryRule (proven : Nat → Option (TokenState × Bytes)) (i : Nat)
    (proof : TokenState × Bytes) : Prop :=
  ∃ tx ∈ outsOf cells, ∃ sig ∈ txSigs s tokenId cells tx.1, ∃ k cell,
    (i, k) ∈ tx.2.zipIdx ∧ cells[i]? = some cell ∧
      Candidate blake2b (basesOf proven (txIns cells tx.1 ++ tx.2)) (argPushes sig) tx.2.length k
        cell.spkScript proof

/-- The programs recovery can form: the proven ones, and splices of them with what
the witnesses offer. -/
inductive Offered : Bytes → Prop
  | proven {cell : TokenCell} {st : TokenState} {program : Bytes} (mem : cell ∈ cells)
      (h : cell.proven = some (st, program)) : Offered program
  | spliced {base program sig : Bytes} {tx : TxId × List Nat} {k : Nat} {owner : Bytes32}
      {amount : Bytes8} {pair : UInt8 × UInt8} (start : Offered base) (created : tx ∈ outsOf cells)
      (witness : sig ∈ txSigs s tokenId cells tx.1) (output : k < tx.2.length)
      (offersOwner : owner ∈ ownerCands (argPushes sig) tx.2.length k)
      (offersAmount : amount ∈ amountCands (argPushes sig) tx.2.length k)
      (offersPair : pair ∈ typeMinterDomain)
      (splice : spliceTokenState base owner pair.1 amount pair.2 = some program) :
      Offered program

/-- No two programs that recovery can form have one hash. -/
def CollisionFree : Prop :=
  ∀ p q, Offered s tokenId cells p → Offered s tokenId cells q → blake2b p = blake2b q → p = q

end Rule

section Facts

variable {blake2b : Bytes → Bytes} {s : Store} {tokenId : CovenantId} {cells : List TokenCell}

theorem mem_byteSet {values : List Bytes} {b : Bytes} : b ∈ byteSet values ↔ b ∈ values := by
  rw [byteSet, List.mem_insertionSort, List.mem_dedup]

theorem mem_basesOf {proven : Nat → Option (TokenState × Bytes)} {indices : List Nat}
    {base : Bytes} :
    base ∈ basesOf proven indices ↔
      (∃ i ∈ indices, ∃ st, proven i = some (st, base)) ∧ (locateStateBlock base).isSome := by
  rw [basesOf, mem_byteSet, List.mem_filter, List.mem_filterMap]
  refine and_congr_left fun _ ↦ exists_congr fun i ↦ and_congr_right fun _ ↦ ?_
  rw [Option.map_eq_some_iff]
  constructor
  · rintro ⟨⟨st, program⟩, h, rfl⟩
    exact ⟨st, h⟩
  · rintro ⟨st, h⟩
    exact ⟨(st, base), h, rfl⟩

theorem Candidate.mono {bases bases' pushes : List Bytes} {n k : Nat} {spk : Bytes}
    {proof : TokenState × Bytes} (hsub : bases ⊆ bases')
    (h : Candidate blake2b bases pushes n k spk proof) :
    Candidate blake2b bases' pushes n k spk proof := by
  obtain ⟨base, hbase, h⟩ := h
  exact ⟨base, hsub hbase, h⟩

/-- A guess proves what a commitment opens to. -/
theorem Candidate.opens {bases pushes : List Bytes} {n k : Nat} {spk : Bytes} {st : TokenState}
    {program : Bytes} (h : Candidate blake2b bases pushes n k spk (st, program)) :
    p2shHash spk = some (blake2b program) ∧ ∃ guarded owner t amount m rest,
      program = frame guarded (blockBytes owner t amount m) rest ∧
        st = ⟨owner, t, amount.val, [m]⟩ := by
  obtain ⟨base, -, owner, -, amount, -, ⟨t, m⟩, -, hprove, hsplice⟩ := h
  obtain ⟨hhash, guarded, rest, hframe, hst⟩ := proveOutputState_opens hprove hsplice
  exact ⟨hhash, guarded, owner, t, amount, m, rest, hframe, hst⟩

/-- **More proven cells disable no guess.** -/
theorem recoveryRule_growing : Growing (RecoveryRule blake2b s tokenId cells) := by
  rintro proven proven' i proof hext ⟨tx, htx, sig, hsig, k, cell, hik, hcell, hcand⟩
  refine ⟨tx, htx, sig, hsig, k, cell, hik, hcell, hcand.mono fun base hbase ↦ ?_⟩
  obtain ⟨⟨j, hj, st, hproven⟩, hblock⟩ := mem_basesOf.mp hbase
  exact mem_basesOf.mpr ⟨⟨j, hj, st, hext j _ hproven⟩, hblock⟩

/-- What the rule derives is a program that recovery can form. -/
theorem offered_of_derives {i : Nat} {proof : TokenState × Bytes}
    (h : Derives (RecoveryRule blake2b s tokenId cells) (provenAt cells) i proof) :
    Offered s tokenId cells proof.2 := by
  induction h with
  | given h =>
      obtain ⟨cell, hcell, hproven⟩ := Option.bind_eq_some_iff.mp h
      exact .proven (List.mem_of_getElem? hcell) hproven
  | derived proven used unassigned hrule ih =>
      obtain ⟨tx, htx, sig, hsig, k, cell, hik, hcell, base, hbase, owner, howner, amount, hamount,
        pair, hpair, -, hsplice⟩ := hrule
      obtain ⟨⟨j, -, st, hproven⟩, -⟩ := mem_basesOf.mp hbase
      have hk : k < tx.2.length := by
        have := List.snd_lt_of_mem_zipIdx hik
        simpa using this
      exact .spliced (ih j _ hproven) htx hsig hk howner hamount hpair hsplice

/-- A program says its own state. -/
theorem state_unique {guarded guarded' : Bool} {owner owner' : Bytes32} {t t' : UInt8}
    {amount amount' : Bytes8} {m m' : UInt8} {rest rest' : Bytes}
    (h : frame guarded (blockBytes owner t amount m) rest =
      frame guarded' (blockBytes owner' t' amount' m') rest') :
    (⟨owner, t, amount.val, [m]⟩ : TokenState) = ⟨owner', t', amount'.val, [m']⟩ := by
  have hread := decodeStateBlock_frame guarded owner t amount m rest
  rw [h, decodeStateBlock_frame] at hread
  exact (Option.some.inj hread).symm

/-- **Without a collision, a cell can be proven in one way.** -/
theorem recoveryRule_singleValued (hfree : CollisionFree blake2b s tokenId cells) :
    SingleValued (RecoveryRule blake2b s tokenId cells) (provenAt cells) := by
  rintro i ⟨st, program⟩ ⟨st', program'⟩ h h'
  have hoffered := offered_of_derives h
  have hoffered' := offered_of_derives h'
  cases h with
  | given hgiven =>
      cases h' with
      | given hgiven' => exact Option.some.inj (hgiven.symm.trans hgiven')
      | derived _ _ unassigned _ => cases hgiven.symm.trans unassigned
  | derived _ _ unassigned hrule =>
      cases h' with
      | given hgiven' => cases hgiven'.symm.trans unassigned
      | derived _ _ _ hrule' =>
          obtain ⟨_, -, _, -, _, cell, -, hcell, hcand⟩ := hrule
          obtain ⟨_, -, _, -, _, cell', -, hcell', hcand'⟩ := hrule'
          obtain rfl := Option.some.inj (hcell.symm.trans hcell')
          obtain ⟨hhash, guarded, owner, t, amount, m, rest, rfl, rfl⟩ := hcand.opens
          obtain ⟨hhash', guarded', owner', t', amount', m', rest', rfl, rfl⟩ := hcand'.opens
          have heq := hfree _ _ hoffered hoffered' (Option.some.inj (hhash.symm.trans hhash'))
          exact Prod.ext (state_unique heq) heq

end Facts

/-! ## Recovery in any order -/

section Orders

variable (blake2b : Bytes → Bytes) (s : Store) (tokenId : CovenantId) (cells₀ : List TokenCell)

/-- The search for one output, whichever guess comes first. -/
inductive CellTurn (bases pushes : List Bytes) (n k : Nat) (cell : TokenCell) : TokenCell → Prop
  | kept (proven : cell.proven ≠ none) : CellTurn bases pushes n k cell cell
  | found {proof : TokenState × Bytes} (unproven : cell.proven = none)
      (guess : Candidate blake2b bases pushes n k cell.spkScript proof) :
      CellTurn bases pushes n k cell { cell with proven := some proof, unproven := none }
  | missed (unproven : cell.proven = none)
      (none : ∀ proof, ¬Candidate blake2b bases pushes n k cell.spkScript proof) :
      CellTurn bases pushes n k cell cell

/-- One output of a transaction, by its index and its place. -/
def OutTurn (bases pushes : List Bytes) (n : Nat) (out : Nat × Nat)
    (cells cells' : List TokenCell) : Prop :=
  ∃ cell cell', cells[out.1]? = some cell ∧ CellTurn blake2b bases pushes n out.2 cell cell' ∧
    cells' = cells.set out.1 cell'

/-- One witness of a transaction, its outputs in any order. -/
def SigTurn (bases : List Bytes) (outs : List Nat) (sig : Bytes) :
    List TokenCell → List TokenCell → Prop :=
  AnyOrder (OutTurn blake2b bases (argPushes sig) outs.length) outs.zipIdx

/-- One transaction, its witnesses in any order. -/
inductive TxTurn (tx : TxId × List Nat) (cells : List TokenCell) : List TokenCell → Prop
  | skipped (proven : ∀ i ∈ tx.2, provenAt cells i ≠ none) : TxTurn tx cells cells
  | stuck (bases : basesOf (provenAt cells) (txIns cells₀ tx.1 ++ tx.2) = []) :
      TxTurn tx cells cells
  | tried {cells' : List TokenCell}
      (witnesses : AnyOrder
        (SigTurn blake2b (basesOf (provenAt cells) (txIns cells₀ tx.1 ++ tx.2)) tx.2)
        (txSigs s tokenId cells₀ tx.1) cells cells') : TxTurn tx cells cells'

/-- One pass, the transactions in any order. -/
def PassTurn : List TokenCell → List TokenCell → Prop :=
  AnyOrder (TxTurn blake2b s tokenId cells₀) (outsOf cells₀)

/-- A run of the loop: passes, each in an order of its own, until one changes
nothing. -/
inductive RecoveryRun : List TokenCell → List TokenCell → Prop
  | done {cells : List TokenCell} (pass : PassTurn blake2b s tokenId cells₀ cells cells) :
      RecoveryRun cells cells
  | again {cells next final : List TokenCell} (pass : PassTurn blake2b s tokenId cells₀ cells next)
      (changed : next ≠ cells) (rest : RecoveryRun next final) : RecoveryRun cells final

end Orders

section Turns

variable {blake2b : Bytes → Bytes} {s : Store} {tokenId : CovenantId}
  {cells₀ cells cells' : List TokenCell}

/-! ### What a turn can do -/

theorem AllRecovered.getElem? (h : AllRecovered blake2b cells cells') {i : Nat}
    {cell' : TokenCell} (hcell : cells'[i]? = some cell') :
    ∃ cell, cells[i]? = some cell ∧ Recovered blake2b cell cell' := by
  induction h generalizing i with
  | nil => cases hcell
  | cons hhead _ ih =>
      cases i with
      | zero =>
          obtain rfl := Option.some.inj hcell
          exact ⟨_, rfl, hhead⟩
      | succ i => exact ih hcell

theorem AllRecovered.set {i : Nat} {cell cell' : TokenCell} (h : cells[i]? = some cell)
    (hrec : Recovered blake2b cell cell') :
    AllRecovered blake2b cells (cells.set i cell') := by
  induction cells generalizing i with
  | nil => cases h
  | cons c cells ih =>
      cases i with
      | zero =>
          obtain rfl := Option.some.inj h
          exact .cons hrec (AllRecovered.refl cells)
      | succ i => exact .cons .same (ih h)

theorem AllRecovered.antisymm (h : AllRecovered blake2b cells cells')
    (h' : AllRecovered blake2b cells' cells) : cells = cells' := by
  rcases h.count with heq | hlt
  · exact heq.symm
  · rcases h'.count with heq | hlt'
    · exact heq
    · exact absurd hlt (Nat.lt_asymm hlt')

/-- What is proven stays proven. -/
theorem AllRecovered.extends (h : AllRecovered blake2b cells cells') :
    Saturate.Extends (provenAt cells) (provenAt cells') := by
  intro i proof hproof
  induction h generalizing i with
  | nil => cases hproof
  | cons hhead _ ih =>
      cases i with
      | succ i => exact ih i hproof
      | zero =>
          cases hhead with
          | same => exact hproof
          | proved unproven _ => cases unproven.symm.trans hproof

/-- Recovery changes nothing but the proofs. -/
theorem AllRecovered.map_eq {α : Type} {f : TokenCell → α}
    (hf : ∀ cell proven unproven, f { cell with proven, unproven } = f cell)
    (h : AllRecovered blake2b cells cells') : cells'.map f = cells.map f := by
  induction h with
  | nil => rfl
  | cons hhead _ ih =>
      rw [List.map_cons, List.map_cons, ih]
      cases hhead with
      | same => rfl
      | proved _ _ => rw [hf]

theorem CellTurn.recovered {bases pushes : List Bytes} {n k : Nat} {cell cell' : TokenCell}
    (h : CellTurn blake2b bases pushes n k cell cell') : Recovered blake2b cell cell' := by
  cases h with
  | kept => exact .same
  | missed => exact .same
  | found unproven guess =>
      rename_i proof
      obtain ⟨st, program⟩ := proof
      obtain ⟨hhash, guarded, owner, t, amount, m, rest, rfl, rfl⟩ := guess.opens
      exact .proved unproven hhash

theorem OutTurn.recovered {bases pushes : List Bytes} {n : Nat} {out : Nat × Nat}
    (h : OutTurn blake2b bases pushes n out cells cells') : AllRecovered blake2b cells cells' := by
  obtain ⟨cell, cell', hcell, hturn, rfl⟩ := h
  exact AllRecovered.set hcell hturn.recovered

theorem SigTurn.recovered {bases : List Bytes} {outs : List Nat} {sig : Bytes}
    (h : SigTurn blake2b bases outs sig cells cells') : AllRecovered blake2b cells cells' :=
  AnyOrder.le AllRecovered.refl (fun _ _ _ ↦ AllRecovered.trans)
    (fun _ _ _ ↦ OutTurn.recovered) h

theorem TxTurn.recovered {tx : TxId × List Nat}
    (h : TxTurn blake2b s tokenId cells₀ tx cells cells') :
    AllRecovered blake2b cells cells' := by
  cases h with
  | skipped => exact AllRecovered.refl cells
  | stuck => exact AllRecovered.refl cells
  | tried witnesses =>
      exact witnesses.le AllRecovered.refl (fun _ _ _ ↦ AllRecovered.trans)
        fun _ _ _ ↦ SigTurn.recovered

theorem PassTurn.recovered (h : PassTurn blake2b s tokenId cells₀ cells cells') :
    AllRecovered blake2b cells cells' :=
  AnyOrder.le AllRecovered.refl (fun _ _ _ ↦ AllRecovered.trans)
    (fun _ _ _ ↦ TxTurn.recovered) h

/-! ### A pass that changes nothing has tried everything -/

theorem mem_outs {tx : TxId × List Nat} (htx : tx ∈ outsOf cells₀) {i : Nat} (hi : i ∈ tx.2) :
    i < cells₀.length := by
  rw [outsOf, List.mem_map] at htx
  obtain ⟨txid, -, rfl⟩ := htx
  exact List.mem_range.mp (List.mem_filter.mp hi).1

theorem fst_mem_of_mem_zipIdx {outs : List Nat} {out : Nat × Nat} (h : out ∈ outs.zipIdx) :
    out.1 ∈ outs := by
  rw [← List.zipIdx_map_fst 0 outs]
  exact List.mem_map_of_mem h

theorem OutTurn.closed {bases pushes : List Bytes} {n : Nat} {out : Nat × Nat}
    (h : OutTurn blake2b bases pushes n out cells cells) (hnone : provenAt cells out.1 = none)
    {cell : TokenCell} (hcell : cells[out.1]? = some cell) (proof : TokenState × Bytes) :
    ¬Candidate blake2b bases pushes n out.2 cell.spkScript proof := by
  obtain ⟨c, cell', hc, hturn, hset⟩ := h
  obtain rfl := Option.some.inj (hc.symm.trans hcell)
  have hproven : c.proven = none := by
    rw [provenAt, hcell] at hnone
    exact hnone
  cases hturn with
  | kept proven => exact absurd hproven proven
  | missed _ hmissed => exact hmissed proof
  | found unproven guess =>
      have hlt := (List.getElem?_eq_some_iff.mp hcell).1
      rw [hset, List.getElem?_set_self (by simpa using hlt)] at hcell
      rw [← Option.some.inj hcell] at hproven
      cases hproven

/-- **At a fixpoint no rule assigns.** -/
theorem PassTurn.closed (h : PassTurn blake2b s tokenId cells₀ cells cells)
    (hrec : AllRecovered blake2b cells₀ cells) (i : Nat) (proof : TokenState × Bytes)
    (hrule : RecoveryRule blake2b s tokenId cells₀ (provenAt cells) i proof) :
    provenAt cells i ≠ none := by
  intro hnone
  obtain ⟨tx, htx, sig, hsig, k, cell₀, hik, hcell₀, hcand⟩ := hrule
  have hi := fst_mem_of_mem_zipIdx hik
  have hturn := AnyOrder.fixed AllRecovered.refl (fun _ _ _ ↦ AllRecovered.trans)
    (fun _ _ ↦ AllRecovered.antisymm) (fun _ _ _ ↦ TxTurn.recovered) h tx htx
  cases hturn with
  | skipped proven => exact proven i hi hnone
  | stuck bases =>
      obtain ⟨base, hbase, -⟩ := hcand
      rw [bases] at hbase
      cases hbase
  | tried witnesses =>
      have hsigTurn := witnesses.fixed AllRecovered.refl (fun _ _ _ ↦ AllRecovered.trans)
        (fun _ _ ↦ AllRecovered.antisymm) (fun _ _ _ ↦ SigTurn.recovered) sig hsig
      have hout := AnyOrder.fixed AllRecovered.refl (fun _ _ _ ↦ AllRecovered.trans)
        (fun _ _ ↦ AllRecovered.antisymm) (fun _ _ _ ↦ OutTurn.recovered) hsigTurn (i, k) hik
      obtain ⟨cell, -, hcell, -⟩ := id hout
      have hscripts := congrArg (·[i]?) (hrec.map_eq (f := (·.spkScript)) fun _ _ _ ↦ rfl)
      simp only [List.getElem?_map] at hscripts
      rw [hcell, hcell₀] at hscripts
      have hscript : cell.spkScript = cell₀.spkScript := Option.some.inj hscripts
      rw [← hscript] at hcand
      exact hout.closed hnone hcell proof hcand

/-! ### Every proof is derived -/

/-- The states a run can be in: reached by recovery, with derived proofs only. -/
structure Justified (blake2b : Bytes → Bytes) (s : Store) (tokenId : CovenantId)
    (cells₀ cells : List TokenCell) : Prop where
  recovered : AllRecovered blake2b cells₀ cells
  derives : ∀ i proof, provenAt cells i = some proof →
    Derives (RecoveryRule blake2b s tokenId cells₀) (provenAt cells₀) i proof

theorem Justified.start (cells : List TokenCell) : Justified blake2b s tokenId cells cells :=
  ⟨AllRecovered.refl cells, fun _ _ h ↦ .given h⟩

/-- An output proven from an earlier snapshot of the proofs. -/
theorem Justified.outTurn {tx : TxId × List Nat} (htx : tx ∈ outsOf cells₀) {sig : Bytes}
    (hsig : sig ∈ txSigs s tokenId cells₀ tx.1) {snapshot : List TokenCell}
    (hsnapshot : Justified blake2b s tokenId cells₀ snapshot) {out : Nat × Nat}
    (hout : out ∈ tx.2.zipIdx) (hcells : Justified blake2b s tokenId cells₀ cells)
    (h : OutTurn blake2b (basesOf (provenAt snapshot) (txIns cells₀ tx.1 ++ tx.2))
      (argPushes sig) tx.2.length out cells cells') :
    Justified blake2b s tokenId cells₀ cells' := by
  refine ⟨hcells.recovered.trans h.recovered, fun i proof hproof ↦ ?_⟩
  obtain ⟨cell, cell', hcell, hturn, rfl⟩ := h
  have hlt := (List.getElem?_eq_some_iff.mp hcell).1
  by_cases hi : out.1 = i
  · subst hi
    rw [provenAt, List.getElem?_set_self hlt] at hproof
    cases hturn with
    | kept => exact hcells.derives _ _ (by rw [provenAt, hcell]; exact hproof)
    | missed => exact hcells.derives _ _ (by rw [provenAt, hcell]; exact hproof)
    | found unproven guess =>
        obtain rfl := Option.some.inj hproof
        obtain ⟨cell₀, hcell₀, hrec⟩ := hcells.recovered.getElem? hcell
        have hsame : cell₀ = cell := by
          cases hrec with
          | same => rfl
          | proved _ _ => cases unproven
        subst hsame
        refine .derived (provenAt snapshot) hsnapshot.derives ?_
          ⟨tx, htx, sig, hsig, out.2, cell₀, hout, hcell₀, guess⟩
        rw [provenAt, hcell₀]
        exact unproven
  · rw [provenAt, List.getElem?_set_ne hi] at hproof
    exact hcells.derives i proof hproof

theorem Justified.txTurn {tx : TxId × List Nat} (htx : tx ∈ outsOf cells₀)
    (hcells : Justified blake2b s tokenId cells₀ cells)
    (h : TxTurn blake2b s tokenId cells₀ tx cells cells') :
    Justified blake2b s tokenId cells₀ cells' := by
  cases h with
  | skipped => exact hcells
  | stuck => exact hcells
  | tried witnesses =>
      exact witnesses.preserves (fun sig hsig _ _ hm hturn ↦
        hturn.preserves (fun _ hout _ _ hn ↦ hcells.outTurn htx hsig hout hn) hm) hcells

theorem Justified.passTurn (hcells : Justified blake2b s tokenId cells₀ cells)
    (h : PassTurn blake2b s tokenId cells₀ cells cells') :
    Justified blake2b s tokenId cells₀ cells' :=
  AnyOrder.preserves h (fun _ htx _ _ hm ↦ hm.txTurn htx) hcells

/-- **A run ends saturated.** -/
theorem RecoveryRun.saturated {final : List TokenCell}
    (h : RecoveryRun blake2b s tokenId cells₀ cells final)
    (hcells : Justified blake2b s tokenId cells₀ cells) :
    AllRecovered blake2b cells₀ final ∧
      Saturated (RecoveryRule blake2b s tokenId cells₀) (provenAt cells₀) (provenAt final) := by
  induction h with
  | done pass =>
      exact ⟨hcells.recovered, hcells.recovered.extends, hcells.derives,
        pass.closed hcells.recovered⟩
  | again pass _ _ ih => exact ih (hcells.passTurn pass)

/-- The proofs determine the cells. -/
theorem AllRecovered.eq_of_provenAt {b c : List TokenCell} (hb : AllRecovered blake2b cells b)
    (hc : AllRecovered blake2b cells c) (h : provenAt b = provenAt c) : b = c := by
  induction hb generalizing c with
  | nil =>
      cases hc
      rfl
  | cons hhead _ ih =>
      cases hc with
      | cons hhead' htail' =>
          have hfirst := congrFun h 0
          have hrest := ih htail' (funext fun i ↦ congrFun h (i + 1))
          rw [hrest]
          refine congrArg (· :: _) ?_
          cases hhead with
          | same =>
              cases hhead' with
              | same => rfl
              | proved unproven _ => cases unproven.symm.trans hfirst
          | proved unproven _ =>
              cases hhead' with
              | same => cases unproven.symm.trans hfirst.symm
              | proved _ _ =>
                  have hproof : some _ = some _ := hfirst
                  rw [Option.some.inj hproof]

/-! ### The run of the code -/

theorem recoverState_candidate {bases pushes : List Bytes} {n k : Nat} {spk : Bytes}
    {proof : TokenState × Bytes} (h : recoverState blake2b bases (ownerCands pushes n k)
      (amountCands pushes n k) spk = some proof) :
    Candidate blake2b bases pushes n k spk proof := by
  obtain ⟨base, hbase, h⟩ := List.exists_of_findSome?_eq_some h
  obtain ⟨owner, howner, h⟩ := List.exists_of_findSome?_eq_some h
  obtain ⟨amount, hamount, h⟩ := List.exists_of_findSome?_eq_some h
  obtain ⟨pair, hpair, h⟩ := List.exists_of_findSome?_eq_some h
  obtain ⟨st, hprove, h⟩ := Option.bind_eq_some_iff.mp h
  obtain ⟨program, hsplice, rfl⟩ := Option.map_eq_some_iff.mp h
  exact ⟨base, hbase, owner, howner, amount, hamount, pair, hpair, hprove, hsplice⟩

theorem recoverState_missed {bases pushes : List Bytes} {n k : Nat} {spk : Bytes}
    (h : recoverState blake2b bases (ownerCands pushes n k) (amountCands pushes n k) spk = none)
    (proof : TokenState × Bytes) : ¬Candidate blake2b bases pushes n k spk proof := by
  rintro ⟨base, hbase, owner, howner, amount, hamount, pair, hpair, hprove, hsplice⟩
  have h := List.findSome?_eq_none_iff.mp h base hbase
  have h := List.findSome?_eq_none_iff.mp h owner howner
  have h := List.findSome?_eq_none_iff.mp h amount hamount
  have h := List.findSome?_eq_none_iff.mp h pair hpair
  rw [hprove, hsplice] at h
  cases h

theorem recoverCell_turn (bases pushes : List Bytes) (n k : Nat) (cell : TokenCell) :
    CellTurn blake2b bases pushes n k cell (recoverCell blake2b bases pushes n k cell) := by
  unfold recoverCell
  split
  · rename_i hproven
    exact .kept (Option.isSome_iff_ne_none.mp hproven)
  · rename_i hproven
    have hnone := Option.not_isSome_iff_eq_none.mp hproven
    split
    · rename_i proof hproof
      exact .found hnone (recoverState_candidate hproof)
    · rename_i hmissed
      exact .missed hnone (recoverState_missed hmissed)

theorem txIns_eq (h : AllRecovered blake2b cells₀ cells) (txid : TxId) :
    indicesOf cells (·.spentTxid = some txid) = txIns cells₀ txid := by
  have hspent := h.map_eq (f := (·.spentTxid)) fun _ _ _ ↦ rfl
  have hlen : cells.length = cells₀.length := by
    simpa using congrArg List.length hspent
  rw [txIns, indicesOf, indicesOf, hlen]
  refine List.filter_congr fun i _ ↦ ?_
  have hi := congrArg (·[i]?) hspent
  simp only [List.getElem?_map] at hi
  have hany : ∀ cells : List TokenCell, cells[i]?.any (fun cell ↦ cell.spentTxid = some txid) =
      (cells[i]?.map (·.spentTxid)).any fun spent ↦ spent = some txid := by
    intro cells
    cases cells[i]? <;> rfl
  rw [hany, hany, hi]

theorem txSigs_eq (h : AllRecovered blake2b cells₀ cells) (txid : TxId) :
    (txIns cells₀ txid).filterMap (fun i ↦ cells[i]?.bind (·.spentSig)) ++
        foreignSigs s txid tokenId = txSigs s tokenId cells₀ txid := by
  have hsig := h.map_eq (f := (·.spentSig)) fun _ _ _ ↦ rfl
  rw [txSigs]
  refine congrArg (· ++ _) (List.filterMap_congr fun i _ ↦ ?_)
  have hi := congrArg (·[i]?) hsig
  simp only [List.getElem?_map] at hi
  have hbind : ∀ cells : List TokenCell, cells[i]?.bind (·.spentSig) =
      (cells[i]?.map (·.spentSig)).bind id := by
    intro cells
    cases cells[i]? <;> rfl
  rw [hbind, hbind, hi]

theorem recoverSig_turn {bases : List Bytes} {tx : TxId × List Nat} (htx : tx ∈ outsOf cells₀)
    (h : AllRecovered blake2b cells₀ cells) (sig : Bytes) :
    SigTurn blake2b bases tx.2 sig cells (recoverSig blake2b bases tx.2 cells sig) := by
  refine AnyOrder.of_foldl (P := AllRecovered blake2b cells₀) _ (fun out hout m hm ↦ ?_) h
  have hlt : out.1 < m.length := by
    rw [← hm.length_eq]
    exact mem_outs htx (fst_mem_of_mem_zipIdx hout)
  have hmodify : m.modify out.1
      (recoverCell blake2b bases (argPushes sig) tx.2.length out.2) =
        m.set out.1 (recoverCell blake2b bases (argPushes sig) tx.2.length out.2
          (m.get ⟨out.1, hlt⟩)) :=
    List.modify_eq_set_get _ hlt
  have hturn : OutTurn blake2b bases (argPushes sig) tx.2.length out m _ :=
    ⟨m.get ⟨out.1, hlt⟩, _, List.getElem?_eq_getElem hlt, recoverCell_turn _ _ _ _ _, hmodify⟩
  exact ⟨hturn, hm.trans hturn.recovered⟩

theorem recoverTx_turn {tx : TxId × List Nat} (htx : tx ∈ outsOf cells₀)
    (h : AllRecovered blake2b cells₀ cells) :
    TxTurn blake2b s tokenId cells₀ tx cells (recoverTx blake2b s tokenId cells tx) := by
  unfold recoverTx
  split
  · rename_i hall
    refine .skipped fun i hi hnone ↦ ?_
    have hany := List.all_eq_true.mp hall i hi
    rw [provenAt] at hnone
    cases hcell : cells[i]? with
    | none =>
        rw [hcell] at hany
        cases hany
    | some cell =>
        rw [hcell] at hany hnone
        have hproven : cell.proven = none := hnone
        simp [hproven] at hany
  · dsimp only
    rw [txIns_eq h, txSigs_eq h]
    split
    · rename_i hempty
      exact .stuck (List.isEmpty_iff.mp hempty)
    · refine .tried (AnyOrder.of_foldl (P := AllRecovered blake2b cells₀) _ (fun sig _ m hm ↦ ?_) h)
      exact ⟨recoverSig_turn htx hm sig, hm.trans (SigTurn.recovered (recoverSig_turn htx hm sig))⟩

theorem recoverPass_turn (h : AllRecovered blake2b cells₀ cells) :
    PassTurn blake2b s tokenId cells₀ cells
      (recoverPass blake2b s tokenId (outsOf cells₀) cells) :=
  AnyOrder.of_foldl (P := AllRecovered blake2b cells₀) _ (fun _ htx _ hm ↦
    ⟨recoverTx_turn htx hm, hm.trans (TxTurn.recovered (recoverTx_turn htx hm))⟩) h

/-- With fuel for every cell a pass could prove, the loop is a run. -/
theorem recoverLoop_run (fuel : Nat) (h : AllRecovered blake2b cells₀ cells)
    (hfuel : cells.countP (·.proven.isNone) < fuel) :
    RecoveryRun blake2b s tokenId cells₀ cells
      (recoverLoop blake2b s tokenId (outsOf cells₀) fuel cells) := by
  induction fuel generalizing cells with
  | zero => exact absurd hfuel (Nat.not_lt_zero _)
  | succ fuel ih =>
      have hpass : PassTurn blake2b s tokenId cells₀ cells _ := recoverPass_turn h
      rw [recoverLoop]
      split
      · rename_i hfixed
        rw [hfixed] at hpass
        exact .done hpass
      · rename_i hchanged
        have hcount := hpass.recovered.count.resolve_left hchanged
        exact .again hpass hchanged (ih (h.trans hpass.recovered) (by omega))

end Turns

/-! ## The fixpoint -/

/-- What the verdicts of a token rest on: recovery ends, and no order of the
transactions, of their witnesses, of their outputs or of the guesses changes what
it proves. -/
structure OrderFree (blake2b : Bytes → Bytes) (s : Store) (tokenId : CovenantId)
    (cells : List TokenCell) : Prop where
  /-- The loop of the code comes to a pass that changes nothing, with any more fuel too. -/
  ends : ∀ fuel, cells.length < fuel →
    recoverLoop blake2b s tokenId (outsOf cells) fuel cells =
      proveRecovered blake2b s tokenId cells ∧
    RecoveryRun blake2b s tokenId cells cells
      (recoverLoop blake2b s tokenId (outsOf cells) fuel cells)
  /-- In any order, a pass that changes a cell leaves fewer to prove. -/
  bounded : ∀ a b, PassTurn blake2b s tokenId cells a b →
    b = a ∨ b.countP (·.proven.isNone) < a.countP (·.proven.isNone)
  /-- A cell is proven just when the rule derives a proof of it. -/
  derives : ∀ i proof, provenAt (proveRecovered blake2b s tokenId cells) i = some proof ↔
    Derives (RecoveryRule blake2b s tokenId cells) (provenAt cells) i proof
  /-- All runs end in the same cells. -/
  unique : ∀ final, RecoveryRun blake2b s tokenId cells cells final →
    final = proveRecovered blake2b s tokenId cells

/-- **Recovery is order free**, unless two programs it can form collide. -/
theorem proveRecovered_orderFree {blake2b : Bytes → Bytes} {s : Store} {tokenId : CovenantId}
    {cells : List TokenCell} (hfree : CollisionFree blake2b s tokenId cells) :
    OrderFree blake2b s tokenId cells := by
  have hrun : ∀ fuel, cells.length < fuel → RecoveryRun blake2b s tokenId cells cells
      (recoverLoop blake2b s tokenId (outsOf cells) fuel cells) :=
    fun fuel hfuel ↦ recoverLoop_run fuel (AllRecovered.refl cells)
      (List.countP_le_length.trans_lt hfuel)
  have hcode := (hrun _ (Nat.lt_succ_self _)).saturated (.start cells)
  have hunique : ∀ final, RecoveryRun blake2b s tokenId cells cells final →
      final = proveRecovered blake2b s tokenId cells := by
    intro final hfinal
    have hsaturated := hfinal.saturated (.start cells)
    exact hsaturated.1.eq_of_provenAt hcode.1
      (hsaturated.2.unique hcode.2 recoveryRule_growing (recoveryRule_singleValued hfree))
  exact
    { ends := fun fuel hfuel ↦ ⟨hunique _ (hrun fuel hfuel), hrun fuel hfuel⟩
      bounded := fun a b h ↦ h.recovered.count
      derives := hcode.2.eq_some_iff recoveryRule_growing (recoveryRule_singleValued hfree)
      unique := hunique }

/-! ## A cell recovered on a small chain -/

/-- A hash of 32 bytes that tells the programs below apart. -/
def tailHash (program : Bytes) : Bytes := (program.drop 14).take 32

def ownerOf (b : UInt8) : Bytes32 := ⟨List.replicate 32 b, List.length_replicate⟩

def amountOf (b : UInt8) : Bytes8 := ⟨b :: List.replicate 7 0, rfl⟩

/-- A token program without guards. -/
def unguarded (b t m : UInt8) : Bytes := frame false (blockBytes (ownerOf b) t (amountOf b) m) []

/-- A witness that pushes an owner and an amount. -/
def launchSig : Bytes := 0x20 :: (ownerOf 9).val ++ 0x08 :: (amountOf 9).val

/-- A proven genesis cell, and the output its spend creates. -/
def launchCells : List TokenCell :=
  [{ txid := ⟨1⟩, index := 0, spkVersion := 0, spkScript := unguarded 7 0 0,
     spentTxid := some ⟨2⟩, spentSig := some launchSig,
     proven := some (⟨ownerOf 7, 0, (amountOf 7).val, [0]⟩, unguarded 7 0 0), unproven := none },
   { txid := ⟨2⟩, index := 0, spkVersion := 0,
     spkScript := 0xaa :: 0x20 :: (tailHash (unguarded 9 2 1) ++ [0x87]),
     spentTxid := none, spentSig := none, proven := none, unproven := none }]

/-- No other covenant's cells. -/
def launchStore : Store := .fresh ⟨0⟩

/-- What recovery can form of them. -/
def launchPrograms : List Bytes :=
  unguarded 7 0 0 :: typeMinterDomain.map fun pair ↦ unguarded 9 pair.1 pair.2

theorem launch_reads :
    outsOf launchCells = [(⟨1⟩, [0]), (⟨2⟩, [1])] ∧
      txSigs launchStore ⟨0⟩ launchCells ⟨1⟩ = [] ∧
      txSigs launchStore ⟨0⟩ launchCells ⟨2⟩ = [launchSig] ∧
      ownerCands (argPushes launchSig) 1 0 = [ownerOf 9] ∧
      amountCands (argPushes launchSig) 1 0 = [amountOf 9] := by
  decide +kernel

theorem launch_splice {base program : Bytes} (hbase : base ∈ launchPrograms) {pair : UInt8 × UInt8}
    (hpair : pair ∈ typeMinterDomain)
    (h : spliceTokenState base (ownerOf 9) pair.1 (amountOf 9) pair.2 = some program) :
    program ∈ launchPrograms := by
  obtain ⟨b, t, m, rfl⟩ : ∃ b t m, base = unguarded b t m := by
    rcases List.mem_cons.mp hbase with rfl | hbase
    · exact ⟨7, 0, 0, rfl⟩
    · obtain ⟨pair, -, rfl⟩ := List.mem_map.mp hbase
      exact ⟨9, pair.1, pair.2, rfl⟩
  rw [unguarded, splice_frame] at h
  obtain rfl := Option.some.inj h
  exact List.mem_cons_of_mem _ (List.mem_map_of_mem hpair)

theorem offered_launch {program : Bytes} (h : Offered launchStore ⟨0⟩ launchCells program) :
    program ∈ launchPrograms := by
  obtain ⟨houts, hgenesis, hlaunch, howner, hamount⟩ := launch_reads
  induction h with
  | proven mem hproven =>
      rename_i cell st program
      have hall : ∀ cell ∈ launchCells, ∀ proof ∈ cell.proven, proof.2 ∈ launchPrograms := by
        decide +kernel
      exact hall cell mem (st, program) hproven
  | spliced _ created witness output offersOwner offersAmount offersPair splice ih =>
      rw [houts] at created
      rcases List.mem_cons.mp created with rfl | created
      · rw [hgenesis] at witness
        cases witness
      · obtain rfl := List.mem_singleton.mp created
        rw [hlaunch] at witness
        obtain rfl := List.mem_singleton.mp witness
        obtain rfl := Nat.lt_one_iff.mp output
        rw [List.length_singleton, howner] at offersOwner
        rw [List.length_singleton, hamount] at offersAmount
        obtain rfl := List.mem_singleton.mp offersOwner
        obtain rfl := List.mem_singleton.mp offersAmount
        exact launch_splice ih offersPair splice

theorem launch_collisionFree : CollisionFree tailHash launchStore ⟨0⟩ launchCells := by
  have hall : ∀ p ∈ launchPrograms, ∀ q ∈ launchPrograms, tailHash p = tailHash q → p = q := by
    decide +kernel
  exact fun p q hp hq ↦ hall p (offered_launch hp) q (offered_launch hq)

/-- Recovery proves the output, in any order. -/
theorem launchCells_orderFree :
    OrderFree tailHash launchStore ⟨0⟩ launchCells ∧
      (proveRecovered tailHash launchStore ⟨0⟩ launchCells).map (·.proven.map (·.2)) =
        [some (unguarded 7 0 0), some (unguarded 9 2 1)] :=
  ⟨proveRecovered_orderFree launch_collisionFree, by decide +kernel⟩

end Kascov
