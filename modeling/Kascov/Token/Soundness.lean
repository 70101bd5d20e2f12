import Kascov.Token.Proofs

/-!
# A proven state is the committed one

Every change a proof pass makes to a cell is one proof, gated by the hash of
the cell's own script.  So a proven program opens the commitment, and its state
is the one it decodes to; two runs that prove different states for one script
have found a collision.
-/

namespace Kascov

/-- A program with its state, as a cell's own script commits to it. -/
inductive Opens (registry : Registry) (blake2b : Bytes → Bytes) (cell : TokenCell) :
    TokenState → Bytes → Prop
  | bare {st : TokenState}
      (decodes : decodeTokenState registry cell.spkVersion cell.spkScript = some st) :
      Opens registry blake2b cell st cell.spkScript
  | committed {st : TokenState} {program : Bytes}
      (hidden : decodeTokenState registry cell.spkVersion cell.spkScript = none)
      (hash : p2shHash cell.spkScript = some (blake2b program))
      (decodes : decodeTokenState registry cell.spkVersion program = some st) :
      Opens registry blake2b cell st program

/-- What a cell is found out about is what its script commits to. -/
def TokenCell.Sound (registry : Registry) (blake2b : Bytes → Bytes) (cell : TokenCell) : Prop :=
  (∀ st program, cell.proven = some (st, program) → Opens registry blake2b cell st program) ∧
    (cell.proven = none → decodeTokenState registry cell.spkVersion cell.spkScript = none)

section Passes

variable {registry : Registry} {blake2b : Bytes → Bytes}

theorem TokenCell.sound_of_unproven {cell : TokenCell} (h : cell.proven = none)
    (hbare : decodeTokenState registry cell.spkVersion cell.spkScript = none) :
    cell.Sound registry blake2b := by
  refine ⟨fun st program hproven ↦ ?_, fun _ ↦ hbare⟩
  rw [h] at hproven
  cases hproven

theorem proveDirectCell_sound (cell : TokenCell) (h : cell.proven = none) :
    (proveDirectCell registry blake2b cell).Sound registry blake2b := by
  unfold proveDirectCell
  cases hbare : decodeTokenState registry cell.spkVersion cell.spkScript with
  | some st =>
      refine ⟨?_, fun hnone ↦ by cases hnone⟩
      intro st' program hproven
      obtain ⟨rfl, rfl⟩ := Prod.mk.inj (Option.some.inj hproven)
      exact .bare hbare
  | none =>
      dsimp only
      split
      · split
        · rename_i program hreveal
          split
          · rename_i st hdecodes
            refine ⟨?_, fun _ ↦ hbare⟩
            intro st' program' hproven
            obtain ⟨rfl, rfl⟩ := Prod.mk.inj (Option.some.inj hproven)
            exact .committed hbare (p2shReveal_opens hreveal) hdecodes
          · exact TokenCell.sound_of_unproven h hbare
        · exact TokenCell.sound_of_unproven h hbare
      · exact TokenCell.sound_of_unproven h hbare
      · exact TokenCell.sound_of_unproven h hbare

/-- What recovery can do to a cell: nothing, or prove it by a splice that hashes
to its commitment. -/
inductive Recovered (blake2b : Bytes → Bytes) (cell : TokenCell) : TokenCell → Prop
  | same : Recovered blake2b cell cell
  | proved {guarded : Bool} {owner : Bytes32} {t : UInt8} {amount : Bytes8} {m : UInt8}
      {rest : Bytes} (unproven : cell.proven = none)
      (hash : p2shHash cell.spkScript =
        some (blake2b (frame guarded (blockBytes owner t amount m) rest))) :
      Recovered blake2b cell
        { cell with
          proven := some (⟨owner, t, amount.val, [m]⟩,
            frame guarded (blockBytes owner t amount m) rest)
          unproven := none }

theorem Recovered.trans {a b c : TokenCell} (hab : Recovered blake2b a b)
    (hbc : Recovered blake2b b c) : Recovered blake2b a c := by
  cases hab with
  | same => exact hbc
  | proved unproven hash =>
      cases hbc with
      | same => exact .proved unproven hash
      | proved unproven' _ => cases unproven'

/-- A splice that is accepted opens the commitment. -/
theorem proveOutputState_opens {base spk program : Bytes} {owner : Bytes32} {t : UInt8}
    {amount : Bytes8} {m : UInt8} {st : TokenState}
    (hprove : proveOutputState blake2b base spk owner t amount m = some st)
    (hsplice : spliceTokenState base owner t amount m = some program) :
    p2shHash spk = some (blake2b program) ∧ ∃ guarded rest,
      program = frame guarded (blockBytes owner t amount m) rest ∧
        st = ⟨owner, t, amount.val, [m]⟩ := by
  obtain ⟨guarded, rest, hframe⟩ := splice_eq_frame hsplice
  unfold proveOutputState at hprove
  cases hhash : p2shHash spk with
  | none =>
      rw [hhash] at hprove
      cases hprove
  | some want =>
      rw [hhash, hsplice] at hprove
      dsimp only at hprove
      split at hprove
      · rename_i heq
        refine ⟨congrArg some heq.symm, guarded, rest, hframe, ?_⟩
        exact (Option.some.inj hprove).symm
      · cases hprove

/-- A state found by the search is proven by the hash. -/
theorem recoverState_some {bases : List Bytes} {owners : List Bytes32} {amounts : List Bytes8}
    {spk : Bytes} {st : TokenState} {program : Bytes}
    (h : recoverState blake2b bases owners amounts spk = some (st, program)) :
    p2shHash spk = some (blake2b program) ∧ ∃ guarded owner t amount m rest,
      program = frame guarded (blockBytes owner t amount m) rest ∧
        st = ⟨owner, t, amount.val, [m]⟩ := by
  obtain ⟨base, -, h⟩ := List.exists_of_findSome?_eq_some h
  obtain ⟨owner, -, h⟩ := List.exists_of_findSome?_eq_some h
  obtain ⟨amount, -, h⟩ := List.exists_of_findSome?_eq_some h
  obtain ⟨⟨t, m⟩, -, h⟩ := List.exists_of_findSome?_eq_some h
  obtain ⟨st', hprove, h⟩ := Option.bind_eq_some_iff.mp h
  obtain ⟨program', hsplice, hpair⟩ := Option.map_eq_some_iff.mp h
  obtain ⟨rfl, rfl⟩ := Prod.mk.inj hpair
  obtain ⟨hhash, guarded, rest, hframe, hst⟩ := proveOutputState_opens hprove hsplice
  exact ⟨hhash, guarded, owner, t, amount, m, rest, hframe, hst⟩

theorem recoverCell_recovered (bases pushes : List Bytes) (n k : Nat) (cell : TokenCell) :
    Recovered blake2b cell (recoverCell blake2b bases pushes n k cell) := by
  unfold recoverCell
  split
  · exact .same
  · rename_i hproven
    split
    · rename_i proof hproof
      obtain ⟨st, program⟩ := proof
      obtain ⟨hhash, guarded, owner, t, amount, m, rest, rfl, rfl⟩ := recoverState_some hproof
      exact .proved (Option.not_isSome_iff_eq_none.mp hproven) hhash
    · exact .same

/-- What recovery can do to the cells. -/
abbrev AllRecovered (blake2b : Bytes → Bytes) : List TokenCell → List TokenCell → Prop :=
  List.Forall₂ (Recovered blake2b)

theorem AllRecovered.refl (cells : List TokenCell) : AllRecovered blake2b cells cells := by
  induction cells with
  | nil => exact .nil
  | cons cell cells ih => exact .cons .same ih

theorem AllRecovered.trans {a b c : List TokenCell} (hab : AllRecovered blake2b a b)
    (hbc : AllRecovered blake2b b c) : AllRecovered blake2b a c := by
  induction hab generalizing c with
  | nil => exact hbc
  | cons h _ ih =>
      cases hbc with
      | cons h' hrest => exact .cons (h.trans h') (ih hrest)

/-- Steps that recover, in any number, recover. -/
theorem foldl_recovered {β : Type} {step : List TokenCell → β → List TokenCell}
    (h : ∀ cells b, AllRecovered blake2b cells (step cells b)) (bs : List β)
    (cells : List TokenCell) : AllRecovered blake2b cells (bs.foldl step cells) := by
  induction bs generalizing cells with
  | nil => exact AllRecovered.refl cells
  | cons b bs ih => exact AllRecovered.trans (h cells b) (ih _)

theorem modify_recovered {f : TokenCell → TokenCell} (h : ∀ cell, Recovered blake2b cell (f cell))
    (cells : List TokenCell) (i : Nat) : AllRecovered blake2b cells (cells.modify i f) := by
  induction cells generalizing i with
  | nil =>
      rw [List.modify_nil]
      exact .nil
  | cons cell cells ih =>
      cases i with
      | zero =>
          rw [List.modify_zero_cons]
          exact .cons (h cell) (AllRecovered.refl cells)
      | succ i =>
          rw [List.modify_succ_cons]
          exact .cons .same (ih i)

theorem recoverTx_recovered (s : Store) (tokenId : CovenantId) (cells : List TokenCell)
    (tx : TxId × List Nat) :
    AllRecovered blake2b cells (recoverTx blake2b s tokenId cells tx) := by
  unfold recoverTx
  split
  · exact AllRecovered.refl cells
  · dsimp only
    split
    · exact AllRecovered.refl cells
    · refine foldl_recovered (fun cells sig ↦ foldl_recovered (fun cells out ↦ ?_) _ _) _ _
      exact modify_recovered (recoverCell_recovered _ _ _ _) cells out.1

theorem recoverLoop_recovered (s : Store) (tokenId : CovenantId)
    (outs : List (TxId × List Nat)) (fuel : Nat) (cells : List TokenCell) :
    AllRecovered blake2b cells (recoverLoop blake2b s tokenId outs fuel cells) := by
  induction fuel generalizing cells with
  | zero => exact AllRecovered.refl cells
  | succ fuel ih =>
      rw [recoverLoop]
      split
      · exact AllRecovered.refl cells
      · exact AllRecovered.trans (foldl_recovered (recoverTx_recovered s tokenId) outs cells) (ih _)

/-! ## The loop ends at a fixpoint -/

/-- A pass that changes a cell proves one. -/
theorem AllRecovered.count {cells cells' : List TokenCell} (h : AllRecovered blake2b cells cells') :
    cells' = cells ∨
      cells'.countP (·.proven.isNone) < cells.countP (·.proven.isNone) := by
  have hle : ∀ {a b : List TokenCell}, AllRecovered blake2b a b →
      b.countP (·.proven.isNone) ≤ a.countP (·.proven.isNone) := by
    intro a b hab
    induction hab with
    | nil => exact le_rfl
    | cons h _ ih =>
        rw [List.countP_cons, List.countP_cons]
        cases h with
        | same => omega
        | proved unproven =>
            simp only [unproven, Option.isNone_some, Option.isNone_none]
            simp
            omega
  induction h with
  | nil => exact .inl rfl
  | cons hcell hrest ih =>
      have hrest' := hle hrest
      rw [List.countP_cons, List.countP_cons]
      cases hcell with
      | same =>
          rcases ih with heq | hlt
          · exact .inl (congrArg _ heq)
          · exact .inr (by omega)
      | proved unproven =>
          right
          simp only [unproven, Option.isNone_some, Option.isNone_none]
          simp
          omega

/-- The loop stops because a pass changes nothing: there is fuel for every cell
a pass could prove. -/
theorem recoverLoop_fixed (s : Store) (tokenId : CovenantId) (outs : List (TxId × List Nat))
    (fuel : Nat) (cells : List TokenCell) (h : cells.countP (·.proven.isNone) < fuel) :
    recoverPass blake2b s tokenId outs (recoverLoop blake2b s tokenId outs fuel cells) =
      recoverLoop blake2b s tokenId outs fuel cells := by
  induction fuel generalizing cells with
  | zero => exact absurd h (Nat.not_lt_zero _)
  | succ fuel ih =>
      rw [recoverLoop]
      by_cases hfixed : recoverPass blake2b s tokenId outs cells = cells
      · rw [if_pos hfixed, hfixed]
      · rw [if_neg hfixed]
        have hpass : AllRecovered blake2b cells (recoverPass blake2b s tokenId outs cells) :=
          foldl_recovered (recoverTx_recovered s tokenId) outs cells
        have hcount := hpass.count.resolve_left hfixed
        exact ih _ (by omega)

/-! ## What the passes leave behind is sound -/

theorem Recovered.sound (h : registry.TokensFramed) {cell cell' : TokenCell}
    (hrec : Recovered blake2b cell cell') (hsound : cell.Sound registry blake2b) :
    cell'.Sound registry blake2b := by
  cases hrec with
  | same => exact hsound
  | proved unproven hash =>
      refine ⟨?_, fun hnone ↦ by cases hnone⟩
      intro st program hproven
      obtain ⟨rfl, rfl⟩ := Prod.mk.inj (Option.some.inj hproven)
      exact .committed (hsound.2 unproven) hash (decodeTokenState_frame h _ _ _ _ _ _ _)

theorem AllRecovered.sound (h : registry.TokensFramed) {cells cells' : List TokenCell}
    (hrec : AllRecovered blake2b cells cells')
    (hsound : ∀ cell ∈ cells, cell.Sound registry blake2b) :
    ∀ cell ∈ cells', cell.Sound registry blake2b := by
  induction hrec with
  | nil => exact hsound
  | cons hcell _ ih =>
      obtain ⟨hhead, htail⟩ := List.forall_mem_cons.mp hsound
      exact List.forall_mem_cons.mpr ⟨hcell.sound h hhead, ih htail⟩

theorem proveDirect_sound (s : Store) (tokenId : CovenantId) :
    ∀ cell ∈ proveDirect registry blake2b (loadCells s tokenId),
      cell.Sound registry blake2b := by
  intro cell hcell
  obtain ⟨loaded, hloaded, rfl⟩ := List.mem_map.mp hcell
  obtain ⟨row, -, rfl⟩ := List.mem_map.mp hloaded
  exact proveDirectCell_sound row.toCell rfl

theorem provenCells_sound (h : registry.TokensFramed) (s : Store) (tokenId : CovenantId) :
    ∀ cell ∈ provenCells registry blake2b s tokenId, cell.Sound registry blake2b :=
  (recoverLoop_recovered s tokenId _ _ _).sound h (proveDirect_sound s tokenId)

/-- The first instruction of a script is its first byte. -/
theorem disassemble_head (opcode : UInt8) (rest : Bytes) :
    ∃ data tail, (disassemble (opcode :: rest)).1 = ⟨0, opcode, data⟩ :: tail := by
  rw [disassemble, List.length_cons, disassembleFrom]
  split
  · exact ⟨_, _, rfl⟩
  · split
    · exact ⟨_, _, rfl⟩
    · exact ⟨_, _, rfl⟩

/-- A script that is a state itself is no commitment. -/
theorem p2shHash_of_decodes (h : registry.TokensFramed) {version : Nat} {script : Bytes}
    {st : TokenState} (hdecodes : decodeTokenState registry version script = some st) :
    p2shHash script = none := by
  unfold p2shHash
  refine if_neg ?_
  rintro ⟨hlen, hfirst, -⟩
  unfold decodeTokenState at hdecodes
  dsimp only at hdecodes
  split at hdecodes
  · rename_i htemplate
    obtain ⟨sk, hmem, hname, hmatch⟩ := decode_template htemplate (by decide) (by decide)
      h.repeats
    obtain ⟨x, rest, rfl⟩ := List.exists_cons_of_length_pos (by omega : 0 < script.length)
    obtain rfl : x = 0xaa := Option.some.inj hfirst
    obtain ⟨data, tail, htail⟩ := disassemble_head 0xaa rest
    rw [htail, (h.skeletons sk hmem hname).no_match (by show (0xaa : UInt8) ≠ 0x6b; decide)]
      at hmatch
    cases hmatch
  · have hlocate : locateStateBlock script = none := by
      unfold locateStateBlock
      rw [if_neg (by omega), if_neg (by omega)]
    rw [decodeStateBlock, hlocate] at hdecodes
    cases hdecodes

/-- A proven program opens the commitment, or is the script. -/
theorem Opens.opens {cell : TokenCell} {st : TokenState} {program : Bytes}
    (h : Opens registry blake2b cell st program) :
    (p2shHash cell.spkScript = some (blake2b program) ∨ cell.spkScript = program) ∧
      decodeTokenState registry cell.spkVersion program = some st := by
  cases h with
  | bare decodes => exact ⟨.inr rfl, decodes⟩
  | committed _ hash decodes => exact ⟨.inl hash, decodes⟩

theorem Opens.commitsTo (h : registry.TokensFramed) {cell : TokenCell} {st : TokenState}
    {program : Bytes} (hopens : Opens registry blake2b cell st program) :
    commitsTo blake2b cell.spkScript program = true := by
  unfold Kascov.commitsTo
  cases hopens with
  | bare decodes =>
      rw [p2shHash_of_decodes h decodes]
      exact decide_eq_true rfl
  | committed _ hash _ =>
      rw [hash]
      exact decide_eq_true rfl

/-- Two proofs of one script agree, or give a collision. -/
theorem Opens.unique {cell cell' : TokenCell} (hversion : cell.spkVersion = cell'.spkVersion)
    (hscript : cell.spkScript = cell'.spkScript) {st st' : TokenState} {program program' : Bytes}
    (h : Opens registry blake2b cell st program)
    (h' : Opens registry blake2b cell' st' program') :
    (st = st' ∧ program = program') ∨
      (program ≠ program' ∧ blake2b program = blake2b program') := by
  cases h with
  | bare decodes =>
      rw [hversion, hscript] at decodes
      cases h' with
      | bare decodes' => exact .inl ⟨Option.some.inj (decodes.symm.trans decodes'), hscript⟩
      | committed hidden _ _ => cases hidden.symm.trans decodes
  | committed hidden hash decodes =>
      rw [hversion, hscript] at hidden
      cases h' with
      | bare decodes' => cases hidden.symm.trans decodes'
      | committed _ hash' decodes' =>
          rw [hscript] at hash
          by_cases heq : program = program'
          · subst heq
            rw [hversion] at decodes
            exact .inl ⟨Option.some.inj (decodes.symm.trans decodes'), rfl⟩
          · exact .inr ⟨heq, Option.some.inj (hash.symm.trans hash')⟩

end Passes

/-! ## The live cells that are served -/

/-- A cell as the token's accounting reads it: its state proven, an identifier
type of the four known, an amount that is a script number and not negative, and
a boolean minter byte. -/
def readCell (cell : TokenCell) : Option LiveTokenCell :=
  cell.proven.bind fun proof ↦
    if proof.1.identifierType ≤ 0x03 then
      proof.1.amountI64.bind fun amount ↦
        proof.1.isMinter.map fun minter ↦
          servedCell cell proof { amount, minter, ownerKey := proof.1.ownerKey }
    else none

/-- A live cell is served if it can be read, else counted. -/
theorem serveCell_eq {registry : Registry} {blake2b : Bytes → Bytes}
    (h : registry.TokensFramed) {cell : TokenCell} (hsound : cell.Sound registry blake2b)
    (hlive : cell.live = true) (acc : List LiveTokenCell × Nat) :
    serveCell blake2b acc cell =
      (acc.1 ++ (readCell cell).toList, acc.2 + if (readCell cell).isNone then 1 else 0) := by
  unfold serveCell readCell judge
  rw [hlive]
  cases hproven : cell.proven with
  | none => simp
  | some proof =>
      obtain ⟨st, program⟩ := proof
      have hcommits := (hsound.1 st program hproven).commitsTo h
      by_cases htype : st.identifierType ≤ 0x03
      · cases hamount : st.amountI64 with
        | none => simp [htype, UInt8.not_lt.mpr htype, hamount]
        | some amount =>
            cases hminter : st.isMinter with
            | none => simp [htype, UInt8.not_lt.mpr htype, hamount, hminter]
            | some minter => simp [htype, UInt8.not_lt.mpr htype, hamount, hminter, hcommits]
      · simp [htype, UInt8.not_le.mp htype]

/-- The cells served are the live ones that can be read, the rest are counted. -/
theorem foldl_serveCell {registry : Registry} {blake2b : Bytes → Bytes}
    (h : registry.TokensFramed) {cells : List TokenCell}
    (hsound : ∀ cell ∈ cells, cell.Sound registry blake2b) (acc : List LiveTokenCell × Nat) :
    cells.foldl (serveCell blake2b) acc =
      (acc.1 ++ (cells.filter (·.live)).filterMap readCell,
        acc.2 + (cells.filter (·.live)).countP fun cell ↦ (readCell cell).isNone) := by
  induction cells generalizing acc with
  | nil => simp
  | cons cell cells ih =>
      obtain ⟨hhead, htail⟩ := List.forall_mem_cons.mp hsound
      rw [List.foldl_cons, ih htail]
      by_cases hlive : cell.live = true
      · rw [serveCell_eq h hhead hlive, List.filter_cons_of_pos hlive, List.filterMap_cons,
          List.countP_cons]
        cases readCell cell with
        | none => simp [Nat.add_assoc, Nat.add_comm]
        | some served => simp
      · rw [List.filter_cons_of_neg hlive, serveCell, if_pos (by simpa using hlive)]

/-- What the proof passes promise, for a registry and a hash function. -/
structure ProofsSound (registry : Registry) (blake2b : Bytes → Bytes) : Prop where
  direct : ∀ s tokenId, ∀ cell ∈ proveDirect registry blake2b (loadCells s tokenId),
    ∀ st program, cell.proven = some (st, program) →
      (p2shHash cell.spkScript = some (blake2b program) ∨ cell.spkScript = program) ∧
        decodeTokenState registry cell.spkVersion program = some st
  recovered : ∀ s tokenId, ∀ cell ∈ provenCells registry blake2b s tokenId,
    ∀ st program, cell.proven = some (st, program) →
      (p2shHash cell.spkScript = some (blake2b program) ∨ cell.spkScript = program) ∧
        decodeTokenState registry cell.spkVersion program = some st
  unique : ∀ s tokenId s' tokenId', ∀ cell ∈ provenCells registry blake2b s tokenId,
    ∀ cell' ∈ provenCells registry blake2b s' tokenId', cell.spkVersion = cell'.spkVersion →
      cell.spkScript = cell'.spkScript → ∀ st program st' program',
        cell.proven = some (st, program) → cell'.proven = some (st', program') →
          (st = st' ∧ program = program') ∨
            (program ≠ program' ∧ blake2b program = blake2b program')
  ended : ∀ s tokenId, recoverPass blake2b s tokenId
    (outsOf (proveDirect registry blake2b (loadCells s tokenId)))
      (provenCells registry blake2b s tokenId) = provenCells registry blake2b s tokenId
  served : ∀ s tokenId, liveTokenCells registry blake2b s tokenId =
    (((provenCells registry blake2b s tokenId).filter (·.live)).filterMap readCell,
      ((provenCells registry blake2b s tokenId).filter (·.live)).countP
        fun cell ↦ (readCell cell).isNone)

/-- A proven program opens the commitment of its cell and decodes to the proven
state, two runs that disagree have found a collision, and the live cells served
are those whose proven state can be read. -/
theorem proofs_sound {registry : Registry} (h : registry.TokensFramed)
    (blake2b : Bytes → Bytes) : ProofsSound registry blake2b where
  direct s tokenId cell hcell st program hproven :=
    ((proveDirect_sound s tokenId cell hcell).1 st program hproven).opens
  recovered s tokenId cell hcell st program hproven :=
    ((provenCells_sound h s tokenId cell hcell).1 st program hproven).opens
  unique s tokenId s' tokenId' cell hcell cell' hcell' hversion hscript st program st' program'
      hproven hproven' :=
    Opens.unique hversion hscript ((provenCells_sound h s tokenId cell hcell).1 st program hproven)
      ((provenCells_sound h s' tokenId' cell' hcell').1 st' program' hproven')
  ended s tokenId :=
    recoverLoop_fixed s tokenId _ _ _ (Nat.lt_succ_of_le List.countP_le_length)
  served s tokenId := by
    rw [liveTokenCells, foldl_serveCell h (provenCells_sound h s tokenId), List.nil_append,
      Nat.zero_add]

/-- A token skeleton with nothing after the state block. -/
def sampleSkeleton : Skeleton :=
  { name := tokenTemplate
    items := [.op 0x6b, .slot "owner_identifier", .slot "identifier_type", .slot "amount",
      .slot "is_minter", .op 0x6c]
    paramOrder := ["owner_identifier", "identifier_type", "amount", "is_minter"] }

def sampleRegistry : Registry := ⟨[sampleSkeleton], []⟩

theorem sampleRegistry_framed : sampleRegistry.TokensFramed where
  skeletons := by
    intro sk hsk _
    obtain rfl := List.mem_singleton.mp hsk
    exact ⟨⟨_, rfl⟩, rfl⟩
  repeats := by
    intro sk hsk
    cases hsk

theorem sampleRegistry_proofs : ProofsSound sampleRegistry (fun b ↦ b.take 32) :=
  proofs_sound sampleRegistry_framed _

/-- A live cell whose script is a state itself, of identifier type nine. -/
def oddCell : UtxoRow :=
  { outpoint := ⟨⟨1⟩, 0⟩
    covenantId := ⟨9⟩
    value := 1000
    spkVersion := 0
    spkScript := blockBytes ⟨List.replicate 32 0x07, rfl⟩ 0x09 ⟨List.replicate 8 0x00, rfl⟩ 0x00
    createdBlock := ⟨1⟩
    createdDaa := 5
    spentBlock := none
    spentTxid := none
    spentSig := none
    spentBudget := none
    template := ""
    revealedTemplate := none
    kcc1TemplateHash := none
    spentInputIndex := none }

/-- The cell is live and proven, and counted as omitted. -/
theorem proven_cell_omitted :
    let s := { Store.fresh ⟨1⟩ with covenantUtxos := [oddCell] }
    (provenCells sampleRegistry (fun b ↦ b.take 32) s ⟨9⟩).map
        (fun cell ↦ (cell.live, cell.proven.isSome)) = [(true, true)] ∧
      liveTokenCells sampleRegistry (fun b ↦ b.take 32) s ⟨9⟩ = ([], 1) := by
  decide

end Kascov
