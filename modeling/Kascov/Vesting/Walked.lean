import Kascov.Vesting.Walk

/-!
# What a vesting walk lists

The walk is a path of cells, each created by the spend of the one before and shown
to carry the exact program of the schedule with a claim that never falls.  It ends
at a live cell, at a fully claimed one, at one whose spend is not recorded, or where
no continuation or more than one is shown; a table whose links close a cycle is
refused.
-/

namespace Kascov

open Follow

section Law

variable (tpl : VestingTemplate) (blake2b : Bytes → Bytes) (utxos : List UtxoRow)
  (schedule : VestingScheduleRow) (creator : Bytes32)

/-- The script commits to the program of the schedule with this claim. -/
def CommitsTo (spk : Bytes) (claimed : UInt64) : Prop :=
  p2shHash spk = some (blake2b (programForState tpl (scheduleState schedule creator claimed)))

/-- A cell of the spending transaction that is shown to carry the schedule on: its
claim is pushed by the witness of the spend, or its own spend reveals the program. -/
structure Continues (position : VestingPosition) (next : UtxoRow) (claimed : UInt64) : Prop where
  listed : next ∈ utxos
  created : position.cell.spentTxid = some next.outpoint.txid
  commits : CommitsTo tpl blake2b schedule creator next.spkScript claimed
  above : position.state.claimed ≤ claimed
  bounded : claimed ≤ schedule.total
  shown : (∃ witness, position.cell.spentSig = some witness ∧
      claimed ∈ claimedCandidates schedule.total witness) ∨
    ∃ sig, next.spentSig = some sig ∧ p2shReveal blake2b next.spkScript sig =
      some (programForState tpl (scheduleState schedule creator claimed))

/-- Where a walk may end. -/
def Stops (position : VestingPosition) : Prop :=
  position.cell.live = true ∨ position.state.claimed = schedule.total ∨
    position.cell.spentTxid = none ∨
      ¬∃! next, ∃ claimed, Continues tpl blake2b utxos schedule creator position next claimed

/-- The one continuation of a cell. -/
def LeadsTo (position next : VestingPosition) : Prop :=
  ¬position.cell.live = true ∧ position.state.claimed ≠ schedule.total ∧
    Continues tpl blake2b utxos schedule creator position next.cell next.state.claimed ∧
      ∀ other claimed, Continues tpl blake2b utxos schedule creator position other claimed →
        other = next.cell

/-- A path from the genesis cell. -/
structure VestingPath (path : List VestingPosition) : Prop where
  genesis : ∃ position, path.head? = some position ∧
    position.cell.outpoint = ⟨schedule.genesisTxid, schedule.genesisOutputIndex⟩ ∧
    position.state.claimed = 0 ∧ position.proof = .genesis
  follows : path.IsChain (LeadsTo tpl blake2b utxos schedule creator)
  commits : ∀ position ∈ path, position.cell ∈ utxos ∧
    position.state = scheduleState schedule creator position.state.claimed ∧
    CommitsTo tpl blake2b schedule creator position.cell.spkScript position.state.claimed ∧
    position.state.claimed ≤ schedule.total

/-- The rows of a path: each cell with its claim, and what it adds to the claim
before. -/
def rowsFrom : UInt64 → List VestingPosition → List VestingStateRow
  | _, [] => []
  | previous, position :: path =>
      { txid := position.cell.outpoint.txid
        outputIndex := position.cell.outpoint.index
        createdDaa := position.cell.createdDaa
        claimed := position.state.claimed
        claimedDelta := position.state.claimed - previous
        live := position.cell.live
        proof := position.proof } :: rowsFrom position.state.claimed path

/-- What the rows say about the claims. -/
structure ClaimsAddUp (rows : List VestingStateRow) : Prop where
  rising : rows.Pairwise fun a b ↦ a.claimed ≤ b.claimed
  total : ∀ row, rows.getLast? = some row →
    (rows.map (·.claimedDelta.toNat)).sum = row.claimed.toNat ∧ row.claimed ≤ schedule.total

/-- **The law of a vesting walk**: it terminates; what it lists is a path from the
genesis cell that ends where a walk may end; and the one error is a path whose next
cell it has listed before. -/
def VestingLaw (result : Option (Result (List VestingStateRow))) : Prop :=
  ∃ path, VestingPath tpl blake2b utxos schedule creator path ∧
    ∃ final, path.getLast? = some final ∧
      (result = some (.ok (rowsFrom 0 path)) ∧ ClaimsAddUp schedule (rowsFrom 0 path) ∧
          Stops tpl blake2b utxos schedule creator final ∨
        result = some (.error cycleError) ∧
          ∃ next, LeadsTo tpl blake2b utxos schedule creator final next ∧
            next.cell.outpoint ∈ path.map (·.cell.outpoint))

/-- A schedule as it is proven: the listed creator is a key, and the genesis cell
commits to the schedule with nothing claimed. -/
structure ProvenSchedule : Prop where
  listedKey : schedule.creatorPubkey = creator.val
  genesis : ∃ cell ∈ utxos,
    cell.outpoint = ⟨schedule.genesisTxid, schedule.genesisOutputIndex⟩ ∧
    proveGenesisLock tpl blake2b cell.spkScript creator schedule.total schedule.startScore
      schedule.durationScore = true

/-- No two claims of the schedule have programs with one hash. -/
def ClaimsDistinct : Prop :=
  Function.Injective fun claimed ↦
    blake2b (programForState tpl (scheduleState schedule creator claimed))

end Law

/-! ## One step -/

section Step

variable {tpl : VestingTemplate} {blake2b : Bytes → Bytes} {utxos : List UtxoRow}
  {schedule : VestingScheduleRow} {creator : Bytes32}

theorem CommitsTo.unique (hinj : ClaimsDistinct tpl blake2b schedule creator) {spk : Bytes}
    {c d : UInt64} (hc : CommitsTo tpl blake2b schedule creator spk c)
    (hd : CommitsTo tpl blake2b schedule creator spk d) : c = d :=
  hinj (Option.some.inj (hc.symm.trans hd))

theorem claimedCandidates_le {total c : UInt64} {witness : Bytes}
    (h : c ∈ claimedCandidates total witness) : c ≤ total := by
  rw [claimedCandidates, List.mem_insertionSort, List.mem_dedup, List.mem_cons] at h
  rcases h with rfl | h
  · exact UInt64.le_iff_toNat_le.mpr (Nat.zero_le _)
  · exact of_decide_eq_true (List.mem_filter.mp h).2

/-- **A witness recovers the claim it pushes, if the script commits to it.** -/
theorem recoverContinuationState_iff (hinj : ClaimsDistinct tpl blake2b schedule creator)
    {spk witness : Bytes} {st : VestingState} :
    recoverContinuationState tpl blake2b spk creator schedule.total schedule.startScore
        schedule.durationScore witness = some st ↔
      ∃ c ∈ claimedCandidates schedule.total witness, st = scheduleState schedule creator c ∧
        CommitsTo tpl blake2b schedule creator spk c := by
  have hstates : (claimedCandidates schedule.total witness).map (fun claimed ↦
      ({ creator, total := schedule.total, startScore := schedule.startScore,
         durationScore := schedule.durationScore, claimed } : VestingState)) =
      (claimedCandidates schedule.total witness).map (scheduleState schedule creator) := rfl
  have hnodup : ((claimedCandidates schedule.total witness).map
      (scheduleState schedule creator)).Nodup := by
    refine List.Nodup.map (fun c d h ↦ congrArg VestingState.claimed h) ?_
    rw [claimedCandidates, (List.perm_insertionSort _ _).nodup_iff]
    exact List.nodup_dedup _
  have hsingle : ∀ only, ((claimedCandidates schedule.total witness).map
      (scheduleState schedule creator)).filter (proveState tpl blake2b spk) = [only] ↔
      ∃ c ∈ claimedCandidates schedule.total witness, only = scheduleState schedule creator c ∧
        CommitsTo tpl blake2b schedule creator spk c := by
    intro only
    rw [Rows.filter_eq_singleton_iff hnodup]
    constructor
    · rintro ⟨⟨hmem, hproves⟩, -⟩
      obtain ⟨c, hc, rfl⟩ := List.mem_map.mp hmem
      exact ⟨c, hc, rfl, proveState_iff.mp hproves⟩
    · rintro ⟨c, hc, rfl, hcommits⟩
      refine ⟨⟨List.mem_map_of_mem hc, proveState_iff.mpr hcommits⟩, fun other hother hproves ↦ ?_⟩
      obtain ⟨d, -, rfl⟩ := List.mem_map.mp hother
      rw [CommitsTo.unique hinj (proveState_iff.mp hproves) hcommits]
  rw [recoverContinuationState, hstates]
  split
  · rename_i only heq
    rw [Option.some.injEq, ← hsingle st, heq, List.cons.injEq]
    exact (and_iff_left rfl).symm
  · rename_i hmany
    exact iff_of_false nofun fun h ↦ hmany st ((hsingle st).mpr h)

/-- A candidate that is matched is a continuation. -/
theorem continues_of_mem (hinj : ClaimsDistinct tpl blake2b schedule creator)
    {position next : VestingPosition} {nextTxid : TxId}
    (hspent : position.cell.spentTxid = some nextTxid)
    (h : next ∈ continuations tpl blake2b utxos schedule creator position nextTxid) :
    Continues tpl blake2b utxos schedule creator position next.cell next.state.claimed ∧
      next.state = scheduleState schedule creator next.state.claimed := by
  rw [continuations, List.mem_filterMap] at h
  obtain ⟨candidate, hcandidate, h⟩ := h
  obtain ⟨hlisted, htxid⟩ := List.mem_filter.mp hcandidate
  obtain ⟨⟨st, proof⟩, hfound, h⟩ := Option.bind_eq_some_iff.mp h
  split at h
  · rename_i hsame
    obtain rfl := Option.some.inj h
    obtain ⟨hcreator, htotal, hstart, hduration, habove⟩ := hsame
    have hstate : st = scheduleState schedule creator st.claimed := by
      obtain ⟨_, _, _, _, _⟩ := st
      dsimp only at hcreator htotal hstart hduration
      subst hcreator htotal hstart hduration
      rfl
    have hcreated : position.cell.spentTxid = some candidate.outpoint.txid := by
      rw [hspent, of_decide_eq_true htxid]
    refine ⟨?_, hstate⟩
    rcases Option.or_eq_some_iff.mp hfound with hwitness | ⟨-, hreveal⟩
    · obtain ⟨st', hst', hpair⟩ := Option.map_eq_some_iff.mp hwitness
      obtain ⟨rfl, rfl⟩ := Prod.mk.inj hpair
      obtain ⟨witness, hsig, hrecover⟩ := Option.bind_eq_some_iff.mp hst'
      obtain ⟨c, hc, rfl, hcommits⟩ := (recoverContinuationState_iff hinj).mp hrecover
      exact ⟨hlisted, hcreated, hcommits, habove, claimedCandidates_le hc,
        .inl ⟨witness, hsig, hc⟩⟩
    · obtain ⟨st', hst', hpair⟩ := Option.map_eq_some_iff.mp hreveal
      obtain ⟨rfl, rfl⟩ := Prod.mk.inj hpair
      obtain ⟨program, hprogram, hdecode⟩ := Option.bind_eq_some_iff.mp hst'
      obtain ⟨sig, hsig, hreveals⟩ := Option.bind_eq_some_iff.mp hprogram
      obtain ⟨hprogram, hle⟩ := programForState_of_decode hdecode
      rw [← hprogram, hstate] at hreveals
      refine ⟨hlisted, hcreated, p2shReveal_opens hreveals, habove, ?_, .inr ⟨sig, hsig, hreveals⟩⟩
      exact htotal ▸ hle
  · cases h

/-- A continuation is matched. -/
theorem mem_of_continues (hinj : ClaimsDistinct tpl blake2b schedule creator)
    (hduration : 0 < schedule.durationScore) {position : VestingPosition} {cell : UtxoRow}
    {claimed : UInt64} (h : Continues tpl blake2b utxos schedule creator position cell claimed)
    {nextTxid : TxId} (hspent : position.cell.spentTxid = some nextTxid) :
    ∃ proof, ⟨cell, scheduleState schedule creator claimed, proof⟩ ∈
      continuations tpl blake2b utxos schedule creator position nextTxid := by
  have htxid : cell.outpoint.txid = nextTxid := Option.some.inj (h.created.symm.trans hspent)
  have hfound : ∃ proof, candidateState tpl blake2b schedule creator position.cell.spentSig cell =
      some (scheduleState schedule creator claimed, proof) := by
    rw [candidateState]
    cases hrecovered : position.cell.spentSig.bind (recoverContinuationState tpl blake2b
        cell.spkScript creator schedule.total schedule.startScore schedule.durationScore) with
    | some st =>
        obtain ⟨witness, -, hrecover⟩ := Option.bind_eq_some_iff.mp hrecovered
        obtain ⟨c, -, rfl, hcommits⟩ := (recoverContinuationState_iff hinj).mp hrecover
        obtain rfl := CommitsTo.unique hinj hcommits h.commits
        exact ⟨_, rfl⟩
    | none =>
        rcases h.shown with ⟨witness, hsig, hc⟩ | ⟨sig, hsig, hreveal⟩
        · have hrecover := (recoverContinuationState_iff hinj).mpr
            ⟨claimed, hc, rfl, h.commits⟩
          rw [hsig, Option.bind_some, hrecover] at hrecovered
          cases hrecovered
        · have hdecode : decodeVestingState tpl
              (programForState tpl (scheduleState schedule creator claimed)) = some _ :=
            decode_programForState h.bounded hduration
          rw [hsig, Option.bind_some, hreveal, Option.bind_some, hdecode]
          exact ⟨_, rfl⟩
  obtain ⟨proof, hfound⟩ := hfound
  refine ⟨proof, List.mem_filterMap.mpr ⟨cell, List.mem_filter.mpr
    ⟨h.listed, decide_eq_true htxid⟩, ?_⟩⟩
  rw [hfound, Option.bind_some]
  exact if_pos ⟨rfl, rfl, rfl, rfl, h.above⟩

/-- Two matches of one cell are one. -/
theorem continuations_nodup (hpk : (utxos.map (·.outpoint)).Nodup) (position : VestingPosition)
    (nextTxid : TxId) :
    ((continuations tpl blake2b utxos schedule creator position nextTxid).map (·.cell)).Nodup := by
  have hutxos : (utxos.filter (·.outpoint.txid = nextTxid)).Nodup := (hpk.of_map).filter _
  have hsub : ((continuations tpl blake2b utxos schedule creator position nextTxid).map
      (·.cell)).Sublist ((utxos.filter (·.outpoint.txid = nextTxid)).map id) := by
    refine Rows.filterMap_map_sublist (fun candidate next h ↦ ?_) _
    obtain ⟨found, -, h⟩ := Option.bind_eq_some_iff.mp h
    split at h
    · rw [← Option.some.inj h]
      rfl
    · cases h
  rw [List.map_id] at hsub
  exact hutxos.sublist hsub

variable (tpl blake2b utxos schedule creator) in
/-- One turn of the loop, as a partial successor. -/
def nextPosition (position : VestingPosition) : Option VestingPosition :=
  if position.cell.live ∨ position.state.claimed = schedule.total then none
  else
    position.cell.spentTxid.bind fun nextTxid ↦
      match continuations tpl blake2b utxos schedule creator position nextTxid with
      | [next] => some next
      | _ => none

/-- **Where the loop goes on, there is one continuation.** -/
theorem leadsTo_of_next (hinj : ClaimsDistinct tpl blake2b schedule creator)
    (hduration : 0 < schedule.durationScore) {position next : VestingPosition}
    (h : nextPosition tpl blake2b utxos schedule creator position = some next) :
    LeadsTo tpl blake2b utxos schedule creator position next ∧
      next.state = scheduleState schedule creator next.state.claimed := by
  unfold nextPosition at h
  split at h
  · cases h
  · rename_i hgoes
    rw [not_or] at hgoes
    obtain ⟨nextTxid, hspent, h⟩ := Option.bind_eq_some_iff.mp h
    split at h
    · rename_i only honly
      obtain rfl := Option.some.inj h
      have hmem : only ∈ continuations tpl blake2b utxos schedule creator position nextTxid := by
        rw [honly]
        exact List.mem_singleton_self only
      obtain ⟨hcontinues, hstate⟩ := continues_of_mem hinj hspent hmem
      refine ⟨⟨hgoes.1, hgoes.2, hcontinues, fun other claimed hother ↦ ?_⟩, hstate⟩
      obtain ⟨proof, hproof⟩ := mem_of_continues hinj hduration hother hspent
      rw [honly, List.mem_singleton] at hproof
      exact congrArg VestingPosition.cell hproof
    · cases h

/-- **Where it does not, it may stop.** -/
theorem stops_of_next (hpk : (utxos.map (·.outpoint)).Nodup)
    (hinj : ClaimsDistinct tpl blake2b schedule creator)
    (hduration : 0 < schedule.durationScore) {position : VestingPosition}
    (h : nextPosition tpl blake2b utxos schedule creator position = none) :
    Stops tpl blake2b utxos schedule creator position := by
  unfold nextPosition at h
  split at h
  · rename_i hends
    rcases hends with hlive | hclaimed
    · exact .inl hlive
    · exact .inr (.inl hclaimed)
  · refine .inr (.inr ?_)
    cases hspent : position.cell.spentTxid with
    | none => exact .inl rfl
    | some nextTxid =>
        right
        rintro ⟨next, ⟨claimed, hnext⟩, hunique⟩
        rw [hspent, Option.bind_some] at h
        have hcells : ((continuations tpl blake2b utxos schedule creator position nextTxid).map
            (·.cell)).Nodup := continuations_nodup hpk position nextTxid
        have hall : ∀ q ∈ continuations tpl blake2b utxos schedule creator position nextTxid,
            q.cell = next := fun q hq ↦
          hunique q.cell ⟨_, (continues_of_mem hinj hspent hq).1⟩
        obtain ⟨proof, hmem⟩ := mem_of_continues hinj hduration hnext hspent
        revert h hcells hall hmem
        cases continuations tpl blake2b utxos schedule creator position nextTxid with
        | nil => intro _ _ _ hmem; cases hmem
        | cons a rest =>
            cases rest with
            | nil => intro h; cases h
            | cons b rest =>
                intro _ hcells hall _
                have ha := hall a List.mem_cons_self
                have hb := hall b (List.mem_cons_of_mem _ List.mem_cons_self)
                rw [List.map_cons, List.map_cons, ha, hb] at hcells
                exact (List.nodup_cons.mp hcells).1 List.mem_cons_self

/-! ## The loop -/

/-- **The loop lists the path it follows.** -/
theorem vestingLoop_eq (hinj : ClaimsDistinct tpl blake2b schedule creator)
    (hduration : 0 < schedule.durationScore) (fuel : Nat) (seen : List Outpoint)
    {previous : UInt64} {position : VestingPosition} (h : previous ≤ position.state.claimed) :
    vestingLoop tpl blake2b utxos schedule creator fuel seen previous position =
      (follow (·.cell.outpoint) (nextPosition tpl blake2b utxos schedule creator) fuel seen
        position).map fun walked ↦
          if walked.2 = true then .error cycleError else .ok (rowsFrom previous walked.1) := by
  induction fuel generalizing seen previous position with
  | zero => rfl
  | succ fuel ih =>
      rw [vestingLoop, follow]
      by_cases hseen : position.cell.outpoint ∈ seen
      · rw [if_pos hseen, if_pos hseen]
        rfl
      · rw [if_neg hseen, if_neg hseen, checkedSubU64, if_pos h]
        dsimp only
        by_cases hends : position.cell.live = true ∨ position.state.claimed = schedule.total
        · rw [if_pos hends, nextPosition, if_pos hends]
          rfl
        · rw [if_neg hends]
          cases hspent : position.cell.spentTxid with
          | none =>
              have hnext : nextPosition tpl blake2b utxos schedule creator position = none := by
                rw [nextPosition, if_neg hends, hspent]
                rfl
              rw [hnext]
              rfl
          | some nextTxid =>
              dsimp only
              split
              · rename_i next honly
                have hnext : nextPosition tpl blake2b utxos schedule creator position =
                    some next := by
                  rw [nextPosition, if_neg hends, hspent, Option.bind_some, honly]
                have habove := (leadsTo_of_next hinj hduration hnext).1.2.2.1.above
                rw [hnext, ih _ habove, Option.map_map, Option.map_map]
                refine congrArg (Option.map · _) (funext fun walked ↦ ?_)
                obtain ⟨rest, closed⟩ := walked
                cases closed with
                | true => rfl
                | false => rfl
              · rename_i hmany
                have hnext : nextPosition tpl blake2b utxos schedule creator position = none := by
                  rw [nextPosition, if_neg hends, hspent, Option.bind_some]
                  split
                  · rename_i next honly
                    exact absurd honly (hmany next)
                  · rfl
                rw [hnext]
                rfl

end Step

/-! ## The rows -/

theorem rowsFrom_claimed (previous : UInt64) (path : List VestingPosition) :
    (rowsFrom previous path).map (·.claimed) = path.map (·.state.claimed) := by
  induction path generalizing previous with
  | nil => rfl
  | cons position path ih => rw [rowsFrom, List.map_cons, List.map_cons, ih]

/-- The differences of rising claims add up to the last of them. -/
theorem sum_deltas {previous : UInt64} {path : List VestingPosition}
    (h : (previous :: path.map (·.state.claimed)).IsChain (· ≤ ·)) {row : VestingStateRow}
    (hlast : (rowsFrom previous path).getLast? = some row) :
    previous.toNat + ((rowsFrom previous path).map (·.claimedDelta.toNat)).sum =
      row.claimed.toNat := by
  induction path generalizing previous with
  | nil => cases hlast
  | cons position path ih =>
      rw [List.map_cons, List.isChain_cons_cons] at h
      have hle := UInt64.le_iff_toNat_le.mp h.1
      have hdelta := UInt64.toNat_sub_of_le _ _ h.1
      rw [rowsFrom, List.map_cons, List.sum_cons]
      cases path with
      | nil =>
          obtain rfl := Option.some.inj hlast
          rw [hdelta, rowsFrom, List.map_nil, List.sum_nil]
          show _ = position.state.claimed.toNat
          omega
      | cons next path =>
          have hrest := ih h.2 (by rwa [rowsFrom, rowsFrom, List.getLast?_cons_cons] at hlast)
          rw [hdelta]
          omega

/-- The rows of a path add up. -/
theorem VestingPath.claimsAddUp {tpl : VestingTemplate} {blake2b : Bytes → Bytes}
    {utxos : List UtxoRow} {schedule : VestingScheduleRow} {creator : Bytes32}
    {path : List VestingPosition} (h : VestingPath tpl blake2b utxos schedule creator path) :
    ClaimsAddUp schedule (rowsFrom 0 path) := by
  have hrising : (path.map (·.state.claimed)).IsChain (· ≤ ·) := by
    rw [List.isChain_map]
    exact h.follows.imp fun _ _ hleads ↦ hleads.2.2.1.above
  have hzero : ((0 : UInt64) :: path.map (·.state.claimed)).IsChain (· ≤ ·) := by
    cases path with
    | nil => exact .singleton 0
    | cons position path =>
        exact .cons_cons (UInt64.le_iff_toNat_le.mpr (Nat.zero_le _)) hrising
  refine ⟨?_, fun row hrow ↦ ⟨?_, ?_⟩⟩
  · have hpairwise := List.isChain_iff_pairwise.mp hrising
    rw [← rowsFrom_claimed 0, List.pairwise_map] at hpairwise
    exact hpairwise
  · have hsum := sum_deltas hzero hrow
    rwa [UInt64.toNat_zero, Nat.zero_add] at hsum
  · have hmem : row.claimed ∈ path.map (·.state.claimed) := by
      rw [← rowsFrom_claimed 0]
      exact List.mem_map_of_mem (List.mem_of_getLast? hrow)
    obtain ⟨position, hposition, heq⟩ := List.mem_map.mp hmem
    rw [← heq]
    exact (h.commits position hposition).2.2.2

/-! ## The walk -/

/-- What holds at the start of a chain and along its links holds on all of it. -/
theorem forall_of_isChain {α : Type} {R : α → α → Prop} {Q : α → Prop}
    (step : ∀ a b, R a b → Q a → Q b) {path : List α} (h : path.IsChain R) {start : α}
    (hhead : path.head? = some start) (hstart : Q start) : ∀ a ∈ path, Q a := by
  induction path generalizing start with
  | nil => exact fun a ha ↦ by cases ha
  | cons a path ih =>
      obtain rfl := Option.some.inj hhead
      refine List.forall_mem_cons.mpr ⟨hstart, ?_⟩
      cases path with
      | nil => exact fun a ha ↦ by cases ha
      | cons b path =>
          obtain ⟨hab, hrest⟩ := List.isChain_cons_cons.mp h
          exact ih hrest rfl (step a b hab hstart)

section Walk

variable {tpl : VestingTemplate} {blake2b : Bytes → Bytes} {s : Store}
  {schedule : VestingScheduleRow} {creator : Bytes32}

theorem utxos_nodup (hpk : (s.covenantUtxos.map (·.outpoint)).Nodup) (id : CovenantId) :
    ((s.utxos id false).map (·.outpoint)).Nodup := by
  rw [Store.utxos, ((List.perm_insertionSort _ _).map _).nodup_iff]
  exact hpk.sublist (List.filter_sublist.map _)

theorem proveState_of_genesis {spk : Bytes}
    (h : proveGenesisLock tpl blake2b spk creator schedule.total schedule.startScore
      schedule.durationScore = true) :
    0 < schedule.durationScore ∧
      proveState tpl blake2b spk (scheduleState schedule creator 0) = true := by
  unfold proveGenesisLock at h
  split at h
  · cases h
  · rename_i hne
    exact ⟨UInt64.pos_iff_ne_zero.mpr hne, h⟩

/-- **A vesting walk lists a path, or finds a cycle.**  The cells are those of the
table, whose outpoints are its primary key. -/
theorem vestingStates_law (hpk : (s.covenantUtxos.map (·.outpoint)).Nodup)
    (hproven : ProvenSchedule tpl blake2b (s.utxos schedule.lockCovenantId false) schedule creator)
    (hinj : ClaimsDistinct tpl blake2b schedule creator) :
    VestingLaw tpl blake2b (s.utxos schedule.lockCovenantId false) schedule creator
      (vestingStates tpl blake2b s schedule) := by
  have hpk := utxos_nodup hpk schedule.lockCovenantId
  obtain ⟨hkey, genesis, hgenesis, houtpoint, hlock⟩ := hproven
  obtain ⟨hduration, hproves⟩ := proveState_of_genesis hlock
  have hcreator : toBytes32 schedule.creatorPubkey = some creator := by
    rw [hkey, toBytes32, dif_pos creator.2]
  unfold vestingStates
  rw [hcreator]
  dsimp only
  cases hfind : (s.utxos schedule.lockCovenantId false).find? fun utxo ↦
      utxo.outpoint.txid = schedule.genesisTxid &&
        utxo.outpoint.index = schedule.genesisOutputIndex &&
        proveState tpl blake2b utxo.spkScript (scheduleState schedule creator 0) with
  | none =>
      have hnone := List.find?_eq_none.mp hfind genesis hgenesis
      simp [houtpoint, hproves] at hnone
  | some cell =>
      have hcell := List.mem_of_find?_eq_some hfind
      have hfound := List.find?_some hfind
      simp only [Bool.and_eq_true, decide_eq_true_eq] at hfound
      obtain ⟨⟨htxid, hindex⟩, hstate⟩ := hfound
      have hzero : (0 : UInt64) ≤
          (⟨cell, scheduleState schedule creator 0, .genesis⟩ : VestingPosition).state.claimed :=
        UInt64.le_refl 0
      dsimp only
      rw [vestingLoop_eq hinj hduration _ _ hzero]
      have hstep : ∀ a b : VestingPosition, a.cell ∈ s.utxos schedule.lockCovenantId false →
          nextPosition tpl blake2b (s.utxos schedule.lockCovenantId false) schedule creator a =
            some b → b.cell ∈ s.utxos schedule.lockCovenantId false :=
        fun a b _ h ↦ (leadsTo_of_next hinj hduration h).1.2.2.1.listed
      have hsome : (follow (fun a : VestingPosition ↦ a.cell.outpoint)
          (nextPosition tpl blake2b (s.utxos schedule.lockCovenantId false) schedule creator)
          ((s.utxos schedule.lockCovenantId false).length + 1) []
          ⟨cell, scheduleState schedule creator 0, .genesis⟩).isSome := by
        refine follow_isSome (P := fun a ↦ a.cell ∈ s.utxos schedule.lockCovenantId false)
          (fun a ha ↦ List.mem_map_of_mem (f := (·.outpoint)) ha) hstep hcell List.nodup_nil
          (List.nil_subset _) ?_
        rw [List.length_map, List.length_nil]
        omega
      obtain ⟨⟨path, closed⟩, hfollow⟩ := Option.isSome_iff_exists.mp hsome
      obtain ⟨hhead, hlinks, final, hfinal, hends⟩ := path_of_follow List.not_mem_nil hfollow
      have hpath : VestingPath tpl blake2b (s.utxos schedule.lockCovenantId false) schedule creator
          path := by
        refine ⟨⟨_, hhead, ?_, rfl, rfl⟩, hlinks.imp fun a b h ↦
          (leadsTo_of_next hinj hduration h).1, ?_⟩
        · rw [← htxid, ← hindex]
        · refine forall_of_isChain (fun a b h _ ↦ ?_) hlinks hhead
            ⟨hcell, rfl, proveState_iff.mp hstate, UInt64.le_iff_toNat_le.mpr (Nat.zero_le _)⟩
          obtain ⟨hleads, hsame⟩ := leadsTo_of_next hinj hduration h
          exact ⟨hleads.2.2.1.listed, hsame, hleads.2.2.1.commits, hleads.2.2.1.bounded⟩
      refine ⟨path, hpath, final, hfinal, ?_⟩
      rw [hfollow, Option.map_some]
      cases closed with
      | false =>
          exact .inl ⟨rfl, hpath.claimsAddUp, stops_of_next hpk hinj hduration hends⟩
      | true =>
          obtain ⟨next, hnext, hseen⟩ := hends
          rw [List.append_nil] at hseen
          exact .inr ⟨rfl, next, (leadsTo_of_next hinj hduration hnext).1, hseen⟩

end Walk

/-! ## Small tables -/

/-- A hash of 32 bytes that tells the claims of a program without a template apart. -/
def lastBytes (program : Bytes) : Bytes := program.drop 37

def bareTemplate : VestingTemplate := ⟨[], []⟩

theorem length_smallCreator : (List.replicate 32 (0x07 : UInt8)).length = 32 :=
  List.length_replicate

def smallCreator : Bytes32 := ⟨List.replicate 32 0x07, length_smallCreator⟩

/-- A lock of ten units whose genesis output is the first of transaction 1. -/
def smallSchedule : VestingScheduleRow where
  lockCovenantId := ⟨0⟩
  creatorPubkey := smallCreator.val
  total := 10
  startScore := 3
  durationScore := 4
  genesisTxid := ⟨1⟩
  genesisOutputIndex := 0

/-- The first output of a transaction, committing to a claim. -/
def lockCell (txid : TxId) (claimed : UInt64) (spent : Option TxId) (sig : Option Bytes) :
    UtxoRow where
  outpoint := ⟨txid, 0⟩
  covenantId := ⟨0⟩
  value := 0
  spkVersion := 0
  spkScript := 0xaa :: 0x20 :: (lastBytes
    (programForState bareTemplate (scheduleState smallSchedule smallCreator claimed)) ++ [0x87])
  createdBlock := ⟨0⟩
  createdDaa := 0
  spentBlock := spent.map fun txid ↦ ⟨txid.bytes⟩
  spentTxid := spent
  spentSig := sig
  spentBudget := none
  template := ""
  revealedTemplate := none
  kcc1TemplateHash := none
  spentInputIndex := none

def tableOf (cells : List UtxoRow) : Store := { Store.fresh ⟨0⟩ with covenantUtxos := cells }

theorem smallSchedule_distinct :
    ClaimsDistinct bareTemplate lastBytes smallSchedule smallCreator := by
  intro c d h
  have hsplit : ∀ c : UInt64, (lastBytes (programForState bareTemplate
      (scheduleState smallSchedule smallCreator c))).drop 24 = u64LeBytes c := by
    intro c
    rw [lastBytes, List.drop_drop]
    have hprogram : programForState bareTemplate (scheduleState smallSchedule smallCreator c) =
        (0x20 :: smallCreator.val ++ [(10 : UInt64), 3, 4].flatMap (fun v ↦ 0x08 :: u64LeBytes v) ++
          [0x08]) ++ u64LeBytes c := by
      simp [programForState, spliceState, scheduleState, smallSchedule, bareTemplate]
    rw [hprogram, List.drop_left' (by simp [smallCreator, u64LeBytes_length])]
  have hbytes := congrArg (List.drop 24) h
  dsimp only at hbytes
  rw [hsplit, hsplit] at hbytes
  rw [← u64OfLeBytes_leBytes c, hbytes, u64OfLeBytes_leBytes]

theorem smallSchedule_proven (cells : List UtxoRow) (spent : Option TxId) (sig : Option Bytes)
    (h : lockCell ⟨1⟩ 0 spent sig ∈ (tableOf cells).utxos ⟨0⟩ false) :
    ProvenSchedule bareTemplate lastBytes ((tableOf cells).utxos ⟨0⟩ false) smallSchedule
      smallCreator := by
  refine ⟨rfl, _, h, rfl, ?_⟩
  show proveGenesisLock bareTemplate lastBytes (lockCell ⟨1⟩ 0 none none).spkScript smallCreator
    10 3 4 = true
  decide +kernel

/-- Five units claimed by a witness that pushes the five. -/
def claimedCells : List UtxoRow :=
  [lockCell ⟨1⟩ 0 (some ⟨2⟩) (some [0x55]), lockCell ⟨2⟩ 5 none none]

/-- The walk over them lists both. -/
theorem claimedCells_walk :
    VestingLaw bareTemplate lastBytes ((tableOf claimedCells).utxos ⟨0⟩ false) smallSchedule
        smallCreator (vestingStates bareTemplate lastBytes (tableOf claimedCells) smallSchedule) ∧
      vestingStates bareTemplate lastBytes (tableOf claimedCells) smallSchedule =
        some (.ok [⟨⟨1⟩, 0, 0, 0, 0, false, .genesis⟩,
          ⟨⟨2⟩, 0, 0, 5, 5, true, .continuationWitness⟩]) :=
  ⟨vestingStates_law (by decide)
    (smallSchedule_proven claimedCells (some ⟨2⟩) (some [0x55]) (by decide +kernel))
    smallSchedule_distinct, by decide +kernel⟩

/-- Two cells that spend each other, nothing claimed. -/
def cyclicCells : List UtxoRow :=
  [lockCell ⟨1⟩ 0 (some ⟨2⟩) (some []), lockCell ⟨2⟩ 0 (some ⟨1⟩) (some [])]

/-- Five units claimed by a spend whose witness does not push the five. -/
def silentCells : List UtxoRow :=
  [lockCell ⟨1⟩ 0 (some ⟨2⟩) (some []), lockCell ⟨2⟩ 5 none none]

/-- A proven schedule whose walk is refused, and one whose walk ends at the spend of
a cell although just one cell of the spending transaction commits to the schedule,
with a greater claim. -/
theorem walk_refused_or_cut :
    (ProvenSchedule bareTemplate lastBytes ((tableOf cyclicCells).utxos ⟨0⟩ false) smallSchedule
        smallCreator ∧
      vestingStates bareTemplate lastBytes (tableOf cyclicCells) smallSchedule =
        some (.error cycleError)) ∧
    ProvenSchedule bareTemplate lastBytes ((tableOf silentCells).utxos ⟨0⟩ false) smallSchedule
        smallCreator ∧
      vestingStates bareTemplate lastBytes (tableOf silentCells) smallSchedule =
        some (.ok [⟨⟨1⟩, 0, 0, 0, 0, false, .genesis⟩]) ∧
      (((tableOf silentCells).utxos ⟨0⟩ false).filter fun cell ↦
        cell.outpoint.txid = ⟨2⟩) = [lockCell ⟨2⟩ 5 none none] ∧
      CommitsTo bareTemplate lastBytes smallSchedule smallCreator
        (lockCell ⟨2⟩ 5 none none).spkScript 5 :=
  ⟨⟨smallSchedule_proven cyclicCells (some ⟨2⟩) (some []) (by decide +kernel),
      by decide +kernel⟩,
    smallSchedule_proven silentCells (some ⟨2⟩) (some []) (by decide +kernel), by decide +kernel,
    by decide +kernel, by unfold CommitsTo; decide +kernel⟩

end Kascov
