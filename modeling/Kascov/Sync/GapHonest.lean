import Kascov.Lib.Linked
import Kascov.Lib.Runs
import Kascov.Sync.Merged

/-!
# Recovered windows are walked windows

The runs of `recover_gap` over one store, each ended where it may be and resumed
by a later run.  Beside the store a system keeps what the record of a window
speaks of: where the walk in progress started, the selected chain the last
answer came from, the batches captured, and the windows recorded.

A saved position is good for the window it was saved under.  As long as every
run that finds one asks for that window, a recorded window has been captured on
the whole selected chain above the start of its walk.
-/

namespace Kascov

open Fallible Linked

/-! ## Nodes -/

/-- The block tree, by the headers: the selected parent, the DAA score and the
blue score of a block. -/
structure BlockTree where
  parent : BlockHash → BlockHash
  daaOf : BlockHash → Nat
  blueOf : BlockHash → Nat

/-- A step of a selected chain: the blue score rises and the DAA score does not
fall. -/
structure BlockTree.Link (t : BlockTree) (x y : BlockHash) : Prop where
  parent : t.parent y = x
  blue : t.blueOf x < t.blueOf y
  daa : t.daaOf x ≤ t.daaOf y

theorem BlockTree.onePredecessor (t : BlockTree) : OnePredecessor t.Link :=
  fun _ _ _ h h' ↦ h.parent.symm.trans h'.parent

/-- A node, with the selected chain it answers from. -/
structure NodeView extends ChainSource where
  chain : List BlockHash

/-- What a node answers is its selected chain: a walk without removals starts on
it and returns what follows, nothing only at its end, and blocks carry the
scores of their headers. -/
structure NodeView.Truthful (t : BlockTree) (view : NodeView) : Prop where
  chain : view.chain.IsChain t.Link
  walk : ∀ c step, view.virtualChainFrom c = .ok step → step.removed = [] →
    ∃ pre post, view.chain = pre ++ c :: (step.added.map (·.acceptingBlock) ++ post) ∧
      (step.added = [] → post = [])
  header : ∀ hash block, view.blockWithTxs hash = .ok block → block.daaScore = t.daaOf hash

/-! ## The system -/

/-- A recorded window: where its walk started, and the selected chain it ended on. -/
structure GapRecord where
  lo : Nat
  hi : Nat
  anchor : BlockHash
  chain : List BlockHash

structure GapSystem where
  store : Store
  /-- The run in progress. -/
  walk : Option GapWalk := none
  /-- Where the walk in progress, or to be resumed, started. -/
  anchor : BlockHash := ⟨0⟩
  /-- The selected chain the last answer came from. -/
  chain : List BlockHash := []
  /-- The batches that capture walks classified. -/
  captured : List AcceptedBlockBatch := []
  /-- The windows recorded. -/
  records : List GapRecord := []

inductive GapOp where
  /-- A run begins; one in progress has died. -/
  | start (view : NodeView) (opts : GapRecoveryOptions)
  | step (view : NodeView)
  | interrupt

def GapOutcome.walk? : GapOutcome → Option GapWalk
  | .walking walk => some walk
  | _ => none

/-- The start of a run: it takes over a saved position, or starts anew. -/
def GapSystem.start (sys : GapSystem) (view : NodeView) (opts : GapRecoveryOptions) :
    GapSystem :=
  let begun := beginGap view.toChainSource opts sys.store
  { sys with
    store := begun.1
    walk := begun.2.walk?
    anchor :=
      match begun.2, sys.store.gapWalkCursor with
      | .walking walk, none => walk.cursor
      | _, _ => sys.anchor }

/-- The batch a step captures. -/
def capturedBatch (compute : ComputeCovenantId) (node : ChainSource) (s : Store)
    (walk : GapWalk) : Option AcceptedBlockBatch :=
  match walk.batch with
  | some (accepted :: _, _) =>
      match node.blockWithTxs accepted.acceptingBlock with
      | .ok accepting =>
          if walk.gapLo ≤ accepting.daaScore ∧ accepting.daaScore ≤ walk.gapHi then
            some (captureBlock compute node s accepted accepting)
          else none
      | .error _ => none
  | _ => none

/-- A step of the run in progress. -/
def GapSystem.step (compute : ComputeCovenantId) (dec : Decoders) (sys : GapSystem)
    (view : NodeView) : GapSystem :=
  match sys.walk with
  | none => sys
  | some walk =>
      let stepped := walkStep compute dec view.toChainSource sys.store walk
      let chain := if walk.batch = none then view.chain else sys.chain
      { store := stepped.1
        walk := stepped.2.walk?
        anchor := sys.anchor
        chain
        captured := sys.captured ++
          (capturedBatch compute view.toChainSource sys.store walk).toList
        records :=
          match stepped.2 with
          | .returned _ => sys.records ++ [⟨walk.gapLo, walk.gapHi, sys.anchor, chain⟩]
          | _ => sys.records }

def GapOp.commit (compute : ComputeCovenantId) (dec : Decoders) (sys : GapSystem) :
    GapOp → Result GapSystem
  | .start view opts => .ok (sys.start view opts)
  | .step view => .ok (sys.step compute dec view)
  | .interrupt => .ok { sys with walk := none }

/-- The system after a run of calls. -/
abbrev GapOp.run (compute : ComputeCovenantId) (dec : Decoders) (sys : GapSystem)
    (ops : List GapOp) : GapSystem :=
  Runs.run (GapOp.commit compute dec) sys ops

/-- The node that answers a call is truthful. -/
def GapOp.Truthful (t : BlockTree) : GapOp → Prop
  | .start view _ => view.Truthful t
  | .step view => view.Truthful t
  | .interrupt => True

/-- A run that finds a saved position asks for the window it was saved under. -/
def GapSystem.KeepsWindow (sys : GapSystem) : GapOp → Prop
  | .start _ opts => ∀ window, gapWindow sys.store opts = .ok window →
      window.alreadyRecovered = false → sys.store.gapWalkCursor = none ∨
        sys.store.gapRecoveryPending = some (window.lo, window.hi)
  | _ => True

/-! ## The law -/

/-- A capture walk classified the block, and the store holds what it found. -/
def CapturedIn (captured : List AcceptedBlockBatch) (s : Store) (b : BlockHash) : Prop :=
  ∃ batch ∈ captured, batch.acceptingBlock = b ∧ Held s batch

/-- What a window owes a block: its capture, if it lies in the window and above
the start of the walk. -/
def Owed (t : BlockTree) (anchor : BlockHash) (lo hi : Nat) (captured : List AcceptedBlockBatch)
    (s : Store) (b : BlockHash) : Prop :=
  t.blueOf anchor < t.blueOf b → lo ≤ t.daaOf b → t.daaOf b ≤ hi → CapturedIn captured s b

/-- Recorded windows are walked windows: each has been captured on the selected
chain above the start of its walk, what was captured merges again without
effect, and a run over a recorded window that names no anchor changes nothing. -/
structure GapHonest (t : BlockTree) (dec : Decoders) (sys : GapSystem) : Prop where
  recorded : sys.store.gapRecoveries.map (fun e ↦ (e.fromDaa, e.toDaa)) =
    sys.records.map fun r ↦ (r.lo, r.hi)
  captured : ∀ r ∈ sys.records, ∀ b ∈ r.chain, t.blueOf r.anchor < t.blueOf b →
    r.lo ≤ t.daaOf b → t.daaOf b ≤ r.hi → ∃ batch ∈ sys.captured, batch.acceptingBlock = b ∧
      Held sys.store batch ∧ mergeRecoveredBlock dec sys.store batch = (sys.store, {})
  rerun : ∀ e ∈ sys.store.gapRecoveries, ∀ (node : ChainSource) (opts : GapRecoveryOptions)
    (lo hi : Nat), opts.fromDaa = some lo → opts.toDaa = some hi → opts.anchorBlock = none →
      e.fromDaa ≤ lo → hi ≤ e.toDaa → (beginGap node opts sys.store).1 = sys.store

/-! ## What the steps do to the store -/

/-- The recovery's own columns stay. -/
structure SameGap (s s' : Store) : Prop where
  recoveries : s'.gapRecoveries = s.gapRecoveries
  pending : s'.gapRecoveryPending = s.gapRecoveryPending
  cursor : s'.gapWalkCursor = s.gapWalkCursor

theorem SameGap.trans {a b c : Store} (hab : SameGap a b) (hbc : SameGap b c) : SameGap a c :=
  ⟨hbc.recoveries.trans hab.recoveries, hbc.pending.trans hab.pending,
    hbc.cursor.trans hab.cursor⟩

theorem sameGap_mergeRecoveredBlock (dec : Decoders) (s : Store) (batch : AcceptedBlockBatch) :
    SameGap s (mergeRecoveredBlock dec s batch).1 := by
  refine Rows.foldl_keeps (P := fun acc : Store × MergeCounts ↦ SameGap s acc.1) ?_
    batch.events ⟨rfl, rfl, rfl⟩
  intro acc event h
  refine h.trans ?_
  unfold mergeEvent
  split <;> exact ⟨rfl, rfl, rfl⟩

theorem finalizeGapRecovery_recoveries (s : Store) (gapLo gapHi : Nat) (merged : MergeCounts) :
    (finalizeGapRecovery s gapLo gapHi merged).gapRecoveries.map
        (fun e ↦ (e.fromDaa, e.toDaa)) =
      s.gapRecoveries.map (fun e ↦ (e.fromDaa, e.toDaa)) ++ [(gapLo, gapHi)] := by
  have hrefresh : ((coveredCovenants s gapLo gapHi).foldl refreshCovenant s).gapRecoveries =
      s.gapRecoveries :=
    Rows.foldl_keeps (f := refreshCovenant) (P := fun s' ↦ s'.gapRecoveries = s.gapRecoveries)
      (fun _ _ h ↦ h) _ rfl
  rw [finalizeGapRecovery, hrefresh, List.map_append]
  rfl

/-- A merge, or the omission of one that would do nothing, makes the store hold a
capture. -/
theorem held_mergeUnlessEmpty {dec : Decoders} {s : Store} {batch : AcceptedBlockBatch}
    (h : SpendsKnown s batch) : Held (mergeUnlessEmpty dec s batch).1 batch := by
  unfold mergeUnlessEmpty
  split
  · rename_i hempty
    obtain ⟨hevents, hcreated, hspent⟩ := hempty
    refine ⟨?_, ?_, ?_⟩
    · rw [hevents]
      exact fun _ hmem ↦ absurd hmem List.not_mem_nil
    · rw [hcreated]
      exact fun _ hmem ↦ absurd hmem List.not_mem_nil
    · rw [hspent]
      exact fun _ hmem ↦ absurd hmem List.not_mem_nil
  · exact held_mergeRecoveredBlock h

theorem mergeUnlessEmpty_frame (dec : Decoders) (s : Store) (batch : AcceptedBlockBatch) :
    Grows s (mergeUnlessEmpty dec s batch).1 ∧ SameGap s (mergeUnlessEmpty dec s batch).1 := by
  unfold mergeUnlessEmpty
  split
  · exact ⟨.of_eq rfl rfl, rfl, rfl, rfl⟩
  · exact ⟨grows_mergeRecoveredBlock dec s batch, sameGap_mergeRecoveredBlock dec s batch⟩

/-! ## The invariant -/

section Owed

variable {t : BlockTree} {anchor : BlockHash} {lo hi : Nat}
  {captured captured' : List AcceptedBlockBatch} {s s' : Store}

theorem CapturedIn.mono {b : BlockHash} (h : CapturedIn captured s b)
    (hsub : captured ⊆ captured') (hgrows : Grows s s') : CapturedIn captured' s' b := by
  obtain ⟨batch, hbatch, hblock, hheld⟩ := h
  exact ⟨batch, hsub hbatch, hblock, hheld.mono hgrows⟩

theorem Owed.mono {b : BlockHash} (h : Owed t anchor lo hi captured s b)
    (hsub : captured ⊆ captured') (hgrows : Grows s s') : Owed t anchor lo hi captured' s' b :=
  fun hblue hlo hhi ↦ (h hblue hlo hhi).mono hsub hgrows

theorem owed_of_below {b : BlockHash} (h : t.daaOf b < lo) : Owed t anchor lo hi captured s b :=
  fun _ hlo _ ↦ absurd hlo (Nat.not_le.mpr h)

theorem owed_of_above {b : BlockHash} (h : hi < t.daaOf b) : Owed t anchor lo hi captured s b :=
  fun _ _ hhi ↦ absurd hhi (Nat.not_le.mpr h)

/-- A walk owes nothing at its start. -/
theorem visited_start : Visited t.Link (Owed t anchor lo hi captured s) anchor := by
  intro b hb hblue
  have hle : t.blueOf b ≤ t.blueOf anchor :=
    hb.rel (R := fun x y ↦ t.blueOf x ≤ t.blueOf y) (fun _ ↦ le_rfl) le_trans
      fun link ↦ link.blue.le
  exact absurd hblue (Nat.not_lt.mpr hle)

/-- The DAA score does not fall along a chain. -/
theorem daaOf_le_of_chain {c : BlockHash} {rest : List BlockHash}
    (h : (c :: rest).IsChain t.Link) {b : BlockHash} (hb : b ∈ rest) : t.daaOf c ≤ t.daaOf b :=
  (below_of_mem h hb).rel (R := fun x y ↦ t.daaOf x ≤ t.daaOf y) (fun _ ↦ le_rfl) le_trans
    fun link ↦ link.daa

end Owed

/-- What a walk in progress has done: everything below its position is settled,
and inside a batch the rest of the batch follows that position on the chain. -/
structure WalkInvariant (t : BlockTree) (sys : GapSystem) (walk : GapWalk) : Prop where
  pending : sys.store.gapRecoveryPending = some (walk.gapLo, walk.gapHi)
  stop : walk.gapHi ≤ walk.stopDaa
  between : walk.batch = none → Visited t.Link
    (Owed t sys.anchor walk.gapLo walk.gapHi sys.captured sys.store) walk.cursor
  inside : ∀ rest next, walk.batch = some (rest, next) → ∃ c pre post,
    Visited t.Link (Owed t sys.anchor walk.gapLo walk.gapHi sys.captured sys.store) c ∧
      sys.chain = pre ++ c :: (rest.map (·.acceptingBlock) ++ post) ∧
      sys.chain.IsChain t.Link ∧ (rest.map (·.acceptingBlock)).getLastD c = next

structure GapInvariant (t : BlockTree) (sys : GapSystem) : Prop where
  recorded : sys.store.gapRecoveries.map (fun e ↦ (e.fromDaa, e.toDaa)) =
    sys.records.map fun r ↦ (r.lo, r.hi)
  owed : ∀ r ∈ sys.records, ∀ b ∈ r.chain,
    Owed t r.anchor r.lo r.hi sys.captured sys.store b
  saved : ∀ c, sys.store.gapWalkCursor = some c → ∃ lo hi,
    sys.store.gapRecoveryPending = some (lo, hi) ∧
      Visited t.Link (Owed t sys.anchor lo hi sys.captured sys.store) c
  walking : ∀ walk, sys.walk = some walk → WalkInvariant t sys walk

/-- A start does not touch the events and the cells. -/
theorem beginGap_cases (node : ChainSource) (opts : GapRecoveryOptions) (s : Store) :
    ((beginGap node opts s).1 = s ∧ (beginGap node opts s).2.walk? = none) ∨
      ∃ window, gapWindow s opts = .ok window ∧ window.alreadyRecovered = false ∧
        (beginGap node opts s).1 =
          { s with gapRecoveryPending := some (window.lo, window.hi) } ∧
        ∀ walk, (beginGap node opts s).2 = .walking walk → walk.gapLo = window.lo ∧
          walk.gapHi = window.hi ∧ window.hi ≤ walk.stopDaa ∧ walk.batch = none ∧
          ∃ pruningPoint, walk.cursor = startCursor s opts pruningPoint := by
  unfold beginGap
  cases hwindow : gapWindow s opts with
  | error e => exact .inl ⟨rfl, rfl⟩
  | ok window =>
      dsimp only
      by_cases halready : window.alreadyRecovered = true
      · rw [if_pos halready]
        exact .inl ⟨rfl, rfl⟩
      · rw [if_neg halready]
        refine .inr ⟨window, rfl, Bool.eq_false_iff.mpr halready, ?_, ?_⟩
        · cases node.pruningPoint <;> rfl
        · intro walk hwalk
          cases hpruning : node.pruningPoint with
          | error e =>
              rw [hpruning] at hwalk
              cases hwalk
          | ok pruningPoint =>
              rw [hpruning] at hwalk
              obtain rfl := GapOutcome.walking.inj hwalk
              exact ⟨rfl, rfl, le_max_right _ _, rfl, pruningPoint, rfl⟩

theorem GapOutcome.walk?_eq_some {out : GapOutcome} {walk : GapWalk} :
    out.walk? = some walk ↔ out = .walking walk := by
  cases out with
  | walking w => exact ⟨fun h ↦ congrArg _ (Option.some.inj h), fun h ↦ congrArg walk? h⟩
  | returned report =>
      constructor
      · intro h
        cases h
      · intro h
        cases h
  | failed error =>
      constructor
      · intro h
        cases h
      · intro h
        cases h

/-- A walk that waits between batches. -/
theorem walkInvariant_between {t : BlockTree} {sys : GapSystem} {walk : GapWalk}
    (pending : sys.store.gapRecoveryPending = some (walk.gapLo, walk.gapHi))
    (stop : walk.gapHi ≤ walk.stopDaa) (batch : walk.batch = none)
    (visited : Visited t.Link
      (Owed t sys.anchor walk.gapLo walk.gapHi sys.captured sys.store) walk.cursor) :
    WalkInvariant t sys walk where
  pending := pending
  stop := stop
  between _ := visited
  inside rest next h := by
    rw [batch] at h
    cases h

theorem GapInvariant.start {t : BlockTree} {sys : GapSystem} (h : GapInvariant t sys)
    {view : NodeView} {opts : GapRecoveryOptions} (hkeeps : sys.KeepsWindow (.start view opts)) :
    GapInvariant t (sys.start view opts) := by
  have hstart : (sys.start view opts).store = (beginGap view.toChainSource opts sys.store).1 := rfl
  have hwalk : (sys.start view opts).walk =
      (beginGap view.toChainSource opts sys.store).2.walk? := rfl
  rcases beginGap_cases view.toChainSource opts sys.store with
    ⟨hstore, hnone⟩ | ⟨window, hwindow, hnew, hstore, hwalking⟩
  · have hanchor : (sys.start view opts).anchor = sys.anchor := by
      unfold GapSystem.start
      dsimp only
      split
      · rename_i walk hout _
        rw [hout] at hnone
        cases hnone
      · rfl
    rw [hstore] at hstart
    refine ⟨?_, ?_, ?_, ?_⟩
    · rw [hstart]
      exact h.recorded
    · rw [hstart]
      exact h.owed
    · rw [hstart, hanchor]
      exact h.saved
    · intro walk hsome
      rw [hwalk, hnone] at hsome
      cases hsome
  · rw [hstore] at hstart
    have hgrows : Grows sys.store (sys.start view opts).store := by
      rw [hstart]
      exact .of_eq rfl rfl
    have hcursor : (sys.start view opts).store.gapWalkCursor = sys.store.gapWalkCursor := by
      rw [hstart]
    have hpending : (sys.start view opts).store.gapRecoveryPending =
        some (window.lo, window.hi) := by
      rw [hstart]
    have hanchor : ∀ c, sys.store.gapWalkCursor = some c →
        (sys.start view opts).anchor = sys.anchor := by
      intro c hc
      unfold GapSystem.start
      dsimp only
      split
      · rename_i hnone
        rw [hc] at hnone
        cases hnone
      · rfl
    have hsaved : ∀ c, sys.store.gapWalkCursor = some c → Visited t.Link
        (Owed t (sys.start view opts).anchor window.lo window.hi sys.captured
          (sys.start view opts).store) c := by
      intro c hc
      obtain ⟨lo, hi, hwas, hvisited⟩ := h.saved c hc
      rcases hkeeps window hwindow hnew with hnone | hsame
      · rw [hnone] at hc
        cases hc
      · obtain ⟨rfl, rfl⟩ := Prod.mk.inj (Option.some.inj (hwas.symm.trans hsame))
        rw [hanchor c hc]
        exact hvisited.mono fun b hb ↦ hb.mono (List.Subset.refl _) hgrows
    refine ⟨?_, ?_, ?_, ?_⟩
    · rw [hstart]
      exact h.recorded
    · exact fun r hr b hb ↦ (h.owed r hr b hb).mono (List.Subset.refl _) hgrows
    · intro c hc
      rw [hcursor] at hc
      exact ⟨window.lo, window.hi, hpending, hsaved c hc⟩
    · intro walk hsome
      have hout := GapOutcome.walk?_eq_some.mp (hwalk.symm.trans hsome)
      obtain ⟨hlo, hhi, hstop, hbatch, pruningPoint, hposition⟩ := hwalking walk hout
      refine walkInvariant_between ?_ (hhi ▸ hstop) hbatch ?_
      · rw [hpending, hlo, hhi]
      · rw [hlo, hhi]
        cases hsavedCursor : sys.store.gapWalkCursor with
        | none =>
            have hfresh : (sys.start view opts).anchor = walk.cursor := by
              unfold GapSystem.start
              dsimp only
              rw [hout, hsavedCursor]
            rw [hfresh]
            exact visited_start
        | some c =>
            have hc : walk.cursor = c := by
              rw [hposition, startCursor, hsavedCursor, Option.getD_some]
            rw [hc]
            exact hsaved c hsavedCursor

/-! ## Steps of a walk -/

/-- What an answer of the node leads to. -/
theorem fetchBatch_cases (node : ChainSource) (s : Store) (walk : GapWalk) :
    (∃ e, fetchBatch node s walk = (s, .failed e)) ∨
      ∃ step, node.virtualChainFrom walk.cursor = .ok step ∧ step.removed = [] ∧
        (step.added = [] ∧ fetchBatch node s walk = finishGap s walk ∨
          ∃ last lastBlock, step.added.getLast? = some last ∧
            node.blockWithTxs last.acceptingBlock = .ok lastBlock ∧
            (lastBlock.daaScore < walk.gapLo ∧
                (∃ report, fetchBatch node s walk =
                  ({ s with gapWalkCursor := some last.acceptingBlock },
                    .walking { walk with cursor := last.acceptingBlock, report })) ∨
              fetchBatch node s walk =
                (s, .walking { walk with batch := some (step.added, last.acceptingBlock) }))) := by
  unfold fetchBatch
  cases hanswer : node.virtualChainFrom walk.cursor with
  | error e => exact .inl ⟨e, rfl⟩
  | ok step =>
      dsimp only
      by_cases hremoved : step.removed = []
      · rw [if_neg (not_not.mpr hremoved)]
        cases hlast : step.added.getLast? with
        | none => exact .inr ⟨step, rfl, hremoved, .inl ⟨List.getLast?_eq_none_iff.mp hlast, rfl⟩⟩
        | some last =>
            dsimp only
            cases hblock : node.blockWithTxs last.acceptingBlock with
            | error e => exact .inl ⟨e, rfl⟩
            | ok lastBlock =>
                dsimp only
                refine .inr ⟨step, rfl, hremoved, .inr ⟨last, lastBlock, hlast, hblock, ?_⟩⟩
                by_cases hbelow : lastBlock.daaScore < walk.gapLo
                · rw [if_pos hbelow]
                  exact .inl ⟨hbelow, _, rfl⟩
                · rw [if_neg hbelow]
                  exact .inr rfl
      · rw [if_pos hremoved]
        exact .inl ⟨_, rfl⟩

/-- What a chain block leads to. -/
theorem walkBlock_cases (compute : ComputeCovenantId) (dec : Decoders) (node : ChainSource)
    (s : Store) (walk : GapWalk) (accepted : AcceptedBlock) (rest : List AcceptedBlock)
    (nextCursor : BlockHash) :
    (∃ e, node.blockWithTxs accepted.acceptingBlock = .error e ∧
        walkBlock compute dec node s walk accepted rest nextCursor = (s, .failed e)) ∨
      ∃ accepting, node.blockWithTxs accepted.acceptingBlock = .ok accepting ∧
        (accepting.daaScore < walk.gapLo ∧
            (∃ report, walkBlock compute dec node s walk accepted rest nextCursor =
              (s, .walking { walk with batch := some (rest, nextCursor), report })) ∨
          walk.gapLo ≤ accepting.daaScore ∧ walk.stopDaa < accepting.daaScore ∧
            (∃ report, walkBlock compute dec node s walk accepted rest nextCursor =
              finishGap s { walk with batch := some (rest, nextCursor), report }) ∨
          walk.gapLo ≤ accepting.daaScore ∧
            (∃ merged report, walkBlock compute dec node s walk accepted rest nextCursor =
              ((mergeUnlessEmpty dec s
                  (gapBatch compute node walk.gapHi s accepted accepting)).1,
                .walking { walk with batch := some (rest, nextCursor), merged, report }))) := by
  unfold walkBlock
  cases hblock : node.blockWithTxs accepted.acceptingBlock with
  | error e => exact .inl ⟨e, rfl, rfl⟩
  | ok accepting =>
      refine .inr ⟨accepting, rfl, ?_⟩
      dsimp only
      by_cases hbelow : accepting.daaScore < walk.gapLo
      · rw [if_pos hbelow]
        exact .inl ⟨hbelow, _, rfl⟩
      · rw [if_neg hbelow]
        have hlo := Nat.not_lt.mp hbelow
        by_cases habove : walk.stopDaa < accepting.daaScore
        · rw [if_pos habove]
          exact .inr (.inl ⟨hlo, habove, _, rfl⟩)
        · rw [if_neg habove]
          exact .inr (.inr ⟨hlo, _, _, rfl⟩)

section Step

variable {t : BlockTree} {compute : ComputeCovenantId} {dec : Decoders} {sys : GapSystem}
  {view : NodeView} {walk : GapWalk}

theorem GapSystem.step_eq (hwalk : sys.walk = some walk) {s' : Store} {out : GapOutcome} :
    walkStep compute dec view.toChainSource sys.store walk = (s', out) →
      sys.step compute dec view =
      { store := s'
        walk := out.walk?
        anchor := sys.anchor
        chain := if walk.batch = none then view.chain else sys.chain
        captured := sys.captured ++
          (capturedBatch compute view.toChainSource sys.store walk).toList
        records :=
          match out with
          | .returned _ => sys.records ++ [⟨walk.gapLo, walk.gapHi, sys.anchor,
              if walk.batch = none then view.chain else sys.chain⟩]
          | _ => sys.records } := by
  intro h
  simp only [GapSystem.step, hwalk, h]

/-- A step that records no window. -/
theorem GapInvariant.advance (h : GapInvariant t sys) {sys' : GapSystem}
    (grows : Grows sys.store sys'.store) (captured : sys.captured ⊆ sys'.captured)
    (recoveries : sys'.store.gapRecoveries = sys.store.gapRecoveries)
    (records : sys'.records = sys.records)
    (saved : ∀ c, sys'.store.gapWalkCursor = some c → ∃ lo hi,
      sys'.store.gapRecoveryPending = some (lo, hi) ∧
        Visited t.Link (Owed t sys'.anchor lo hi sys'.captured sys'.store) c)
    (walking : ∀ walk, sys'.walk = some walk → WalkInvariant t sys' walk) :
    GapInvariant t sys' where
  recorded := by
    rw [recoveries, records]
    exact h.recorded
  owed r hr b hb := by
    rw [records] at hr
    exact (h.owed r hr b hb).mono captured grows
  saved := saved
  walking := walking

/-- The end of a walk that owes its chain nothing. -/
theorem GapInvariant.finish (h : GapInvariant t sys) {chain : List BlockHash}
    {merged : MergeCounts} {lo hi : Nat}
    (howed : ∀ b ∈ chain, Owed t sys.anchor lo hi sys.captured sys.store b) :
    GapInvariant t
      { store := finalizeGapRecovery sys.store lo hi merged
        walk := none
        anchor := sys.anchor
        chain
        captured := sys.captured
        records := sys.records ++ [⟨lo, hi, sys.anchor, chain⟩] } := by
  have hgrows := grows_finalizeGapRecovery sys.store lo hi merged
  refine ⟨?_, ?_, ?_, ?_⟩
  · rw [finalizeGapRecovery_recoveries, List.map_append, h.recorded]
    rfl
  · intro r hr b hb
    rcases List.mem_append.mp hr with hr | hr
    · exact (h.owed r hr b hb).mono (List.Subset.refl _) hgrows
    · obtain rfl := List.mem_singleton.mp hr
      exact (howed b hb).mono (List.Subset.refl _) hgrows
  · intro c hc
    cases hc
  · intro walk hwalk
    cases hwalk

/-- A run that fails leaves what it has done. -/
theorem GapInvariant.fail (h : GapInvariant t sys) {chain : List BlockHash} :
    GapInvariant t { sys with walk := none, chain } :=
  h.advance (.of_eq rfl rfl) (List.Subset.refl _) rfl rfl h.saved fun walk hwalk ↦ by cases hwalk

theorem capturedBatch_between {node : ChainSource} {s : Store} (h : walk.batch = none) :
    capturedBatch compute node s walk = none := by
  rw [capturedBatch, h]

theorem capturedBatch_inside (compute : ComputeCovenantId) {node : ChainSource} (s : Store)
    {accepted : AcceptedBlock} {rest : List AcceptedBlock} {next : BlockHash} {accepting : Block}
    (h : walk.batch = some (accepted :: rest, next))
    (hblock : node.blockWithTxs accepted.acceptingBlock = .ok accepting) :
    capturedBatch compute node s walk =
      if walk.gapLo ≤ accepting.daaScore ∧ accepting.daaScore ≤ walk.gapHi then
        some (captureBlock compute node s accepted accepting)
      else none := by
  simp only [capturedBatch, h, hblock]

/-- **A step between two batches.** -/
theorem GapInvariant.fetch (h : GapInvariant t sys) (hview : view.Truthful t)
    (hwalk : sys.walk = some walk) (hbatch : walk.batch = none) :
    GapInvariant t (sys.step compute dec view) := by
  have hinv := h.walking walk hwalk
  have hvisited := hinv.between hbatch
  have hstep : walkStep compute dec view.toChainSource sys.store walk =
      fetchBatch view.toChainSource sys.store walk := by
    rw [walkStep, hbatch]
  rcases fetchBatch_cases view.toChainSource sys.store walk with
    ⟨e, hfetch⟩ | ⟨step, hanswer, hremoved, hfetch⟩
  · rw [GapSystem.step_eq hwalk (hstep.trans hfetch), capturedBatch_between hbatch,
      Option.toList_none, List.append_nil]
    exact h.fail
  · obtain ⟨pre, post, hchain, hend⟩ := hview.walk _ _ hanswer hremoved
    have hview' := hview.chain
    rw [hchain] at hview'
    rcases hfetch with ⟨hadded, hfetch⟩ | ⟨last, lastBlock, hlast, hblock, hfetch⟩
    · -- the end of the chain
      rw [GapSystem.step_eq hwalk (hstep.trans hfetch), capturedBatch_between hbatch,
        Option.toList_none, List.append_nil, if_pos hbatch]
      refine h.finish fun b hb ↦ ?_
      rw [hend hadded, hadded] at hview' hchain
      rw [hchain] at hb
      exact hvisited.chain hview' (fun x hx ↦ by cases hx) b hb
    · have hpassed : (walk.cursor :: step.added.map (·.acceptingBlock)).IsChain t.Link := by
        have htail := hview'.right_of_append
        rw [← List.cons_append] at htail
        exact htail.left_of_append
      have hnext : (step.added.map (·.acceptingBlock)).getLastD walk.cursor =
          last.acceptingBlock := by
        rw [List.getLastD_eq_getLast?, List.getLast?_map, hlast]
        rfl
      rcases hfetch with ⟨hbelow, report, hfetch⟩ | hfetch
      · -- the whole answer lies below the window
        have howed : ∀ b ∈ step.added.map (·.acceptingBlock),
            Owed t sys.anchor walk.gapLo walk.gapHi sys.captured sys.store b := by
          intro b hb
          have hle := (below_getLastD hpassed (List.mem_cons_of_mem _ hb)).rel
            (R := fun x y ↦ t.daaOf x ≤ t.daaOf y) (fun _ ↦ le_rfl) le_trans fun link ↦ link.daa
          rw [hnext, ← hview.header _ _ hblock] at hle
          exact owed_of_below (hle.trans_lt hbelow)
        have hreached := hvisited.walk t.onePredecessor hpassed howed
        rw [hnext] at hreached
        have hgrows : Grows sys.store
            { sys.store with gapWalkCursor := some last.acceptingBlock } := .of_eq rfl rfl
        have hmoved := hreached.mono fun b hb ↦ hb.mono (List.Subset.refl sys.captured) hgrows
        rw [GapSystem.step_eq hwalk (hstep.trans hfetch), capturedBatch_between hbatch,
          Option.toList_none, List.append_nil]
        refine h.advance hgrows (List.Subset.refl _) rfl rfl ?_ ?_
        · intro c hc
          obtain rfl := Option.some.inj hc
          exact ⟨walk.gapLo, walk.gapHi, hinv.pending, hmoved⟩
        · intro walk' hwalk'
          obtain rfl := Option.some.inj hwalk'
          exact walkInvariant_between hinv.pending hinv.stop hbatch hmoved
      · -- the answer is walked block by block
        rw [GapSystem.step_eq hwalk (hstep.trans hfetch), capturedBatch_between hbatch,
          Option.toList_none, List.append_nil, if_pos hbatch]
        refine h.advance (.of_eq rfl rfl) (List.Subset.refl _) rfl rfl h.saved ?_
        intro walk' hwalk'
        obtain rfl := Option.some.inj hwalk'
        refine ⟨hinv.pending, hinv.stop, fun hnone ↦ (by cases hnone), fun rest next hsome ↦ ?_⟩
        obtain ⟨rfl, rfl⟩ := Prod.mk.inj (Option.some.inj hsome)
        exact ⟨walk.cursor, pre, post, hvisited, hchain, hview.chain, hnext⟩

/-- **The end of a batch.** -/
theorem GapInvariant.batchEnd (h : GapInvariant t sys) (hwalk : sys.walk = some walk)
    {next : BlockHash} (hbatch : walk.batch = some ([], next)) :
    GapInvariant t (sys.step compute dec view) := by
  have hinv := h.walking walk hwalk
  obtain ⟨c, pre, post, hvisited, -, -, hnext⟩ := hinv.inside [] next hbatch
  obtain rfl : c = next := hnext
  have hstep : walkStep compute dec view.toChainSource sys.store walk =
      ({ sys.store with gapWalkCursor := some c },
        .walking { walk with cursor := c, batch := none }) := by
    rw [walkStep, hbatch]
  have hcaptured : capturedBatch compute view.toChainSource sys.store walk = none := by
    rw [capturedBatch, hbatch]
  have hgrows : Grows sys.store { sys.store with gapWalkCursor := some c } := .of_eq rfl rfl
  have hmoved := hvisited.mono fun b hb ↦ hb.mono (List.Subset.refl sys.captured) hgrows
  rw [GapSystem.step_eq hwalk hstep, hcaptured, Option.toList_none, List.append_nil]
  refine h.advance hgrows (List.Subset.refl _) rfl rfl ?_ ?_
  · intro c' hc
    obtain rfl := Option.some.inj hc
    exact ⟨walk.gapLo, walk.gapHi, hinv.pending, hmoved⟩
  · intro walk' hwalk'
    obtain rfl := Option.some.inj hwalk'
    exact walkInvariant_between hinv.pending hinv.stop rfl hmoved

/-- **One chain block.** -/
theorem GapInvariant.block (h : GapInvariant t sys) (hview : view.Truthful t)
    (hwalk : sys.walk = some walk) {accepted : AcceptedBlock} {rest : List AcceptedBlock}
    {next : BlockHash} (hbatch : walk.batch = some (accepted :: rest, next)) :
    GapInvariant t (sys.step compute dec view) := by
  have hinv := h.walking walk hwalk
  obtain ⟨c, pre, post, hvisited, hchain, hlinked, hnext⟩ := hinv.inside _ next hbatch
  have htail := hlinked
  rw [hchain] at htail
  have htail := htail.right_of_append
  obtain ⟨hlink, hrest⟩ := List.isChain_cons_cons.mp htail
  have hinside : walk.batch ≠ none := by
    rw [hbatch]
    exact Option.some_ne_none _
  -- the walk stands at the block once it has settled it
  have hwalked : ∀ (sys' : GapSystem) (walk' : GapWalk), sys'.anchor = sys.anchor →
      sys'.chain = sys.chain → sys.captured ⊆ sys'.captured → Grows sys.store sys'.store →
      sys'.store.gapRecoveryPending = sys.store.gapRecoveryPending →
      walk'.gapLo = walk.gapLo → walk'.gapHi = walk.gapHi → walk'.stopDaa = walk.stopDaa →
      walk'.batch = some (rest, next) →
      Owed t sys.anchor walk.gapLo walk.gapHi sys'.captured sys'.store accepted.acceptingBlock →
      WalkInvariant t sys' walk' := by
    intro sys' walk' hanchor hsame hsub hgrows hpending hlo hhi hstop hbatch' howed
    refine ⟨?_, ?_, fun hnone ↦ ?_, fun rest' next' hsome ↦ ?_⟩
    · rw [hpending, hlo, hhi]
      exact hinv.pending
    · rw [hhi, hstop]
      exact hinv.stop
    · rw [hbatch'] at hnone
      cases hnone
    · obtain ⟨rfl, rfl⟩ := Prod.mk.inj (Option.some.inj (hbatch'.symm.trans hsome))
      rw [hanchor, hsame, hlo, hhi]
      refine ⟨accepted.acceptingBlock, pre ++ [c], post, ?_, ?_, hlinked, ?_⟩
      · exact (hvisited.mono fun b hb ↦ hb.mono hsub hgrows).next t.onePredecessor hlink howed
      · rw [hchain, List.append_assoc]
        rfl
      · rw [← hnext, List.map_cons, List.getLastD_cons]
  have hstep : walkStep compute dec view.toChainSource sys.store walk =
      walkBlock compute dec view.toChainSource sys.store walk accepted rest next := by
    rw [walkStep, hbatch]
  rcases walkBlock_cases compute dec view.toChainSource sys.store walk accepted rest next with
    ⟨e, hbody, hblock⟩ | ⟨accepting, hbody, ⟨hbelow, report, hblock⟩ |
      ⟨hlo, habove, report, hblock⟩ | ⟨hlo, merged, report, hblock⟩⟩
  · have hcaptured : capturedBatch compute view.toChainSource sys.store walk = none := by
      simp only [capturedBatch, hbatch, hbody]
    rw [GapSystem.step_eq hwalk (hstep.trans hblock), hcaptured, Option.toList_none,
      List.append_nil]
    exact h.fail
  · have hdaa := hview.header _ _ hbody
    have hcaptured := capturedBatch_inside compute sys.store hbatch hbody
    rw [if_neg fun hin ↦ absurd hin.1 (Nat.not_le.mpr hbelow)] at hcaptured
    rw [GapSystem.step_eq hwalk (hstep.trans hblock), hcaptured, Option.toList_none,
      List.append_nil, if_neg hinside]
    refine h.advance (.of_eq rfl rfl) (List.Subset.refl _) rfl rfl h.saved ?_
    intro walk' hwalk'
    obtain rfl := Option.some.inj hwalk'
    exact hwalked _ _ rfl rfl (List.Subset.refl _) (.of_eq rfl rfl) rfl rfl rfl rfl rfl
      (owed_of_below (hdaa ▸ hbelow))
  · have hdaa := hview.header _ _ hbody
    have hcaptured := capturedBatch_inside compute sys.store hbatch hbody
    have hhi := hinv.stop.trans_lt habove
    rw [if_neg fun hin ↦ absurd hin.2 (Nat.not_le.mpr hhi)] at hcaptured
    rw [GapSystem.step_eq hwalk (hstep.trans hblock), hcaptured, Option.toList_none,
      List.append_nil, if_neg hinside]
    refine h.finish fun b hb ↦ ?_
    rw [hchain] at hb hlinked
    refine hvisited.chain hlinked (fun x hx ↦ owed_of_above ?_) b hb
    rcases List.mem_cons.mp hx with rfl | hx
    · exact hdaa ▸ hhi
    · exact (hdaa ▸ hhi).trans_le (daaOf_le_of_chain hrest hx)
  · have hdaa := hview.header _ _ hbody
    have hcaptured := capturedBatch_inside compute sys.store hbatch hbody
    obtain ⟨hgrows, hsame⟩ := mergeUnlessEmpty_frame dec sys.store
      (gapBatch compute view.toChainSource walk.gapHi sys.store accepted accepting)
    rw [GapSystem.step_eq hwalk (hstep.trans hblock), if_neg hinside]
    have hsub : sys.captured ⊆ sys.captured ++
        (capturedBatch compute view.toChainSource sys.store walk).toList :=
      List.subset_append_left _ _
    refine h.advance hgrows hsub hsame.recoveries rfl ?_ ?_
    · intro c' hc
      obtain ⟨lo, hi, hpending, hsaved⟩ := h.saved c' (hsame.cursor ▸ hc)
      exact ⟨lo, hi, hsame.pending.trans hpending,
        hsaved.mono fun b hb ↦ hb.mono hsub hgrows⟩
    · intro walk' hwalk'
      obtain rfl := Option.some.inj hwalk'
      refine hwalked _ _ rfl rfl hsub hgrows hsame.pending rfl rfl rfl rfl ?_
      intro _ _ hhi
      rw [← hdaa] at hhi
      rw [if_pos ⟨hlo, hhi⟩] at hcaptured
      have hgap : gapBatch compute view.toChainSource walk.gapHi sys.store accepted accepting =
          captureBlock compute view.toChainSource sys.store accepted accepting := by
        rw [gapBatch, if_pos hhi]
      refine ⟨captureBlock compute view.toChainSource sys.store accepted accepting, ?_,
        captureBlock_acceptingBlock .., ?_⟩
      · rw [hcaptured]
        exact List.mem_append_right _ List.mem_cons_self
      · rw [hgap]
        exact held_mergeUnlessEmpty (captureBlock_spendsKnown _ _ _ _ _)

end Step

/-! ## The law over runs -/

theorem GapInvariant.step {t : BlockTree} {compute : ComputeCovenantId} {dec : Decoders}
    {sys : GapSystem} (h : GapInvariant t sys) {view : NodeView} (hview : view.Truthful t) :
    GapInvariant t (sys.step compute dec view) := by
  cases hwalk : sys.walk with
  | none =>
      rw [GapSystem.step, hwalk]
      exact h
  | some walk =>
      cases hbatch : walk.batch with
      | none => exact h.fetch hview hwalk hbatch
      | some batch =>
          obtain ⟨rest, next⟩ := batch
          cases rest with
          | nil => exact h.batchEnd hwalk hbatch
          | cons accepted rest => exact h.block hview hwalk hbatch

theorem gapInvariant_start {t : BlockTree} {s : Store} (hfresh : s.gapRecoveries = [])
    (hcursor : s.gapWalkCursor = none) : GapInvariant t { store := s } where
  recorded := by
    rw [hfresh]
    rfl
  owed _ hr := by cases hr
  saved c hc := by
    rw [hcursor] at hc
    cases hc
  walking _ hwalk := by cases hwalk

/-- A run over a recorded window stops before it writes anything. -/
theorem beginGap_recorded (node : ChainSource) {opts : GapRecoveryOptions} {s : Store}
    {e : GapRecoveryEntry} (he : e ∈ s.gapRecoveries) {lo hi : Nat} (hfrom : opts.fromDaa = some lo)
    (hto : opts.toDaa = some hi) (hanchor : opts.anchorBlock = none) (hlo : e.fromDaa ≤ lo)
    (hhi : hi ≤ e.toDaa) : (beginGap node opts s).1 = s := by
  have hany : s.recoveredWindows.any (fun r ↦ r.1 ≤ lo ∧ hi ≤ r.2) = true :=
    List.any_eq_true.mpr ⟨_, List.mem_reverse.mpr (List.mem_map_of_mem he),
      decide_eq_true ⟨hlo, hhi⟩⟩
  by_cases hbounds : lo < hi
  · have hwindow : gapWindow s opts = .ok ⟨lo, hi, true⟩ := by
      simp only [gapWindow, gapBounds, hfrom, hto, if_pos hbounds, Except.map, hanchor,
        Option.isNone_none, hany, Bool.and_self, Bool.or_true]
    simp only [beginGap, hwindow, if_true]
  · have hwindow : gapWindow s opts =
        .error (.invalid "gap bounds" "--from-daa must be below --to-daa") := by
      simp only [gapWindow, gapBounds, hfrom, hto, if_neg hbounds, Except.map]
    simp only [beginGap, hwindow]

theorem GapInvariant.gapHonest {t : BlockTree} {sys : GapSystem} (h : GapInvariant t sys)
    (dec : Decoders) : GapHonest t dec sys where
  recorded := h.recorded
  captured r hr b hb hblue hlo hhi := by
    obtain ⟨batch, hbatch, hblock, hheld⟩ := h.owed r hr b hb hblue hlo hhi
    exact ⟨batch, hbatch, hblock, hheld, hheld.merge_eq dec⟩
  rerun e he node _ _ _ hfrom hto hanchor hlo hhi :=
    beginGap_recorded node he hfrom hto hanchor hlo hhi

/-- **Recorded windows are walked windows**, in every run whose calls keep to the
window a position was saved under. -/
theorem gapHonest_run (compute : ComputeCovenantId) (dec : Decoders) (t : BlockTree) {s : Store}
    (hfresh : s.gapRecoveries = []) (hcursor : s.gapWalkCursor = none) {ops : List GapOp}
    (htruthful : ∀ op ∈ ops, op.Truthful t)
    (hkeeps : Runs.Guarded (GapOp.commit compute dec) GapSystem.KeepsWindow { store := s } ops) :
    GapHonest t dec (GapOp.run compute dec { store := s } ops) := by
  have hinv := Runs.run_invariant_of_guarded (GapInvariant t)
    (fun sys op ↦ op.Truthful t ∧ sys.KeepsWindow op) ?_ (gapInvariant_start hfresh hcursor)
    ((Runs.guarded_of_forall htruthful).and hkeeps)
  · exact hinv.gapHonest dec
  · intro sys op sys' h hop hcommit
    obtain ⟨htruthful, hkeeps⟩ := hop
    cases op with
    | start view opts =>
        obtain rfl := Except.ok.inj hcommit
        exact h.start hkeeps
    | step view =>
        obtain rfl := Except.ok.inj hcommit
        exact h.step htruthful
    | interrupt =>
        obtain rfl := Except.ok.inj hcommit
        exact h.fail

/-! ## A position resumed under other bounds -/

/-- Block `n` at DAA score `100 n`, on a chain. -/
def hundredTree : BlockTree where
  parent b := ⟨b.bytes - 1⟩
  daaOf b := 100 * b.bytes.toNat
  blueOf b := b.bytes.toNat

/-- A transaction that binds a cell to covenant 9. -/
def bindingTx : Transaction :=
  { txid := ⟨7⟩
    version := 0
    inputs := []
    outputs := [⟨1, 0, [], some ⟨⟨9⟩, 0⟩⟩]
    payload := [] }

/-- The node on the chain 0 .. 5.  It answers three blocks at a time, and block 2
accepted the transaction. -/
def hundredNode : NodeView where
  pruningPoint := .ok ⟨0⟩
  virtualChainFrom c :=
    if c = ⟨0⟩ then .ok ⟨[], [⟨⟨1⟩, []⟩, ⟨⟨2⟩, [⟨7⟩]⟩, ⟨⟨3⟩, []⟩]⟩
    else if c = ⟨3⟩ then .ok ⟨[], [⟨⟨4⟩, []⟩, ⟨⟨5⟩, []⟩]⟩
    else .error (.rpc "unavailable")
  blockWithTxs b := .ok
    { hash := b
      daaScore := 100 * b.bytes.toNat
      blueScore := b.bytes.toNat
      timestampMs := 0
      mergeset := []
      transactions := if b = ⟨2⟩ then [bindingTx] else [] }
  chain := [⟨0⟩, ⟨1⟩, ⟨2⟩, ⟨3⟩, ⟨4⟩, ⟨5⟩]

theorem hundredNode_truthful : hundredNode.Truthful hundredTree := by
  have hlink : ∀ x y : BlockHash, hundredTree.parent y = x → x.bytes.toNat < y.bytes.toNat →
      hundredTree.Link x y :=
    fun x y hparent hlt ↦ ⟨hparent, hlt, Nat.mul_le_mul_left 100 hlt.le⟩
  refine ⟨?_, ?_, ?_⟩
  · have h01 := hlink ⟨0⟩ ⟨1⟩ (by decide) (by decide)
    have h12 := hlink ⟨1⟩ ⟨2⟩ (by decide) (by decide)
    have h23 := hlink ⟨2⟩ ⟨3⟩ (by decide) (by decide)
    have h34 := hlink ⟨3⟩ ⟨4⟩ (by decide) (by decide)
    have h45 := hlink ⟨4⟩ ⟨5⟩ (by decide) (by decide)
    exact .cons_cons h01 (.cons_cons h12 (.cons_cons h23 (.cons_cons h34 (.cons_cons h45
      (.singleton _)))))
  · intro c step hanswer _
    simp only [hundredNode] at hanswer
    split at hanswer
    · rename_i hc
      obtain rfl := Except.ok.inj hanswer
      subst hc
      exact ⟨[], [⟨4⟩, ⟨5⟩], rfl, fun h ↦ by cases h⟩
    · split at hanswer
      · rename_i hc
        obtain rfl := Except.ok.inj hanswer
        subst hc
        exact ⟨[⟨0⟩, ⟨1⟩, ⟨2⟩], [], rfl, fun _ ↦ rfl⟩
      · cases hanswer
  · intro hash block hblock
    obtain rfl := Except.ok.inj hblock
    rfl

def boundedRun (lo hi : Nat) : GapRecoveryOptions := { fromDaa := some lo, toDaa := some hi }

/-- A run over [300, 400] is interrupted behind its first answer. -/
def interruptedRun : List GapOp :=
  .start hundredNode (boundedRun 300 400) :: List.replicate 5 (.step hundredNode) ++ [.interrupt]

/-- A later run takes over its position and ends. -/
def resumedRun (lo hi : Nat) : List GapOp :=
  interruptedRun ++ .start hundredNode (boundedRun lo hi) :: List.replicate 3 (.step hundredNode)

/-- A run over [100, 250] that names block 0, as far as block 2. -/
def anchoredRun : List GapOp :=
  .start hundredNode { boundedRun 100 250 with anchorBlock := some ⟨0⟩ } ::
    List.replicate 3 (.step hundredNode)

def noCompute : ComputeCovenantId := fun _ _ ↦ ⟨0⟩

theorem resumedRun_truthful (lo hi : Nat) : ∀ op ∈ resumedRun lo hi, op.Truthful hundredTree := by
  simp only [resumedRun, interruptedRun, List.replicate, List.cons_append, List.nil_append,
    List.forall_mem_cons]
  have h := hundredNode_truthful
  exact ⟨h, h, h, h, h, h, trivial, h, h, h, h, fun _ hop ↦ absurd hop List.not_mem_nil⟩

set_option maxRecDepth 4000 in
/-- The same bounds: the window is recorded, and was walked. -/
theorem resumedRun_gapHonest :
    (GapOp.run noCompute .blind { store := .fresh ⟨0⟩ } (resumedRun 300 400)).records.map
        (fun r ↦ (r.lo, r.hi)) = [(300, 400)] ∧
      GapHonest hundredTree .blind
        (GapOp.run noCompute .blind { store := .fresh ⟨0⟩ } (resumedRun 300 400)) := by
  refine ⟨by decide, gapHonest_run noCompute .blind hundredTree rfl rfl
    (resumedRun_truthful 300 400) ?_⟩
  refine ⟨?_, trivial, trivial, trivial, trivial, trivial, trivial, ?_, trivial, trivial, trivial,
    trivial⟩
  · exact fun _ _ _ ↦ .inl rfl
  · intro window hwindow _
    obtain rfl := Except.ok.inj hwindow
    exact .inr rfl

set_option maxRecDepth 4000 in
/-- Other bounds: [100, 250] is recorded with block 2 at DAA score 200, above the
start of the walk, never fetched; and a run that names the anchor finds its event. -/
theorem recorded_window_not_walked :
    (∀ op ∈ resumedRun 100 250, op.Truthful hundredTree) ∧
      (GapOp.run noCompute .blind { store := .fresh ⟨0⟩ }
          (resumedRun 100 250)).store.recoveredWindows = [(100, 250)] ∧
      (GapOp.run noCompute .blind { store := .fresh ⟨0⟩ }
          (resumedRun 100 250 ++ anchoredRun)).store.covenantEvents.map (·.acceptingBlock) =
        [⟨2⟩] ∧
      ¬GapHonest hundredTree .blind
        (GapOp.run noCompute .blind { store := .fresh ⟨0⟩ } (resumedRun 100 250)) := by
  refine ⟨resumedRun_truthful 100 250, by decide, by decide, fun h ↦ ?_⟩
  have hrecords :
      (GapOp.run noCompute .blind { store := .fresh ⟨0⟩ } (resumedRun 100 250)).records =
        [⟨100, 250, ⟨0⟩, hundredNode.chain⟩] := rfl
  have hcaptured : (GapOp.run noCompute .blind { store := .fresh ⟨0⟩ }
      (resumedRun 100 250)).captured.map (·.acceptingBlock) = [⟨3⟩] := by decide
  obtain ⟨batch, hbatch, hblock, -⟩ := h.captured ⟨100, 250, ⟨0⟩, hundredNode.chain⟩
    (by rw [hrecords]; exact List.mem_cons_self) ⟨2⟩ (by decide) (by decide) (by decide) (by decide)
  have hmem := List.mem_map_of_mem (f := (·.acceptingBlock)) hbatch
  rw [hcaptured, hblock] at hmem
  exact absurd hmem (by decide)

end Kascov
