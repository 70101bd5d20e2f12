import Kascov.Order.Follower

/-!
# Re-anchoring a stranded cursor

`re_anchor`: candidate anchors are taken from the event table, the first one the
node can walk from becomes the cursor, and the blocks above it that have events
are rolled back.  The node is a function from blocks to its answers: a block is
asked for at most once, so the function stands for any node, also one whose
answers change from call to call.
-/

namespace Kascov

open Fallible

/-- `RE_ANCHOR_DENSE_PROBES`. -/
def reAnchorDenseProbes : Nat := 8

/-- `RE_ANCHOR_SPREAD_PROBES`. -/
def reAnchorSpreadProbes : Nat := 16

/-- `WEDGE_LAG_DAA`. -/
def wedgeLagDaa : Nat := 18000

/-- Outcome of a `reAnchor` attempt. -/
inductive ReAnchor where
  | notWedged
  | anchored (block : BlockHash)
  | nothingWalkable
deriving DecidableEq, Repr

/-! ## Candidate anchors -/

/-- The blocks of the event table with their DAA scores, newest first. -/
def acceptingBlocks (events : List EventRow) : List (BlockHash × Nat) :=
  (events.map fun e ↦ (e.acceptingBlock, e.acceptingDaa)).dedup.insertionSort
    fun a b ↦ b.2 ≤ a.2

/-- `Store::recent_accepting_blocks`. -/
def recentAcceptingBlocks (s : Store) (limit : Nat) : List (BlockHash × Nat) :=
  (acceptingBlocks s.covenantEvents).take limit

/-- `Store::spread_accepting_blocks`. -/
def spreadAcceptingBlocks (s : Store) (samples : Nat) : List (BlockHash × Nat) :=
  match (s.covenantEvents.map (·.acceptingDaa)).min?,
      (s.covenantEvents.map (·.acceptingDaa)).max? with
  | some minDaa, some maxDaa =>
      (List.range samples).filterMap fun i ↦
        let target := maxDaa - (maxDaa - minDaa) * i / (max samples 2 - 1)
        (acceptingBlocks s.covenantEvents).find? (·.2 ≤ target)
  | _, _ => []

/-- `Store::accepting_blocks_above`. -/
def acceptingBlocksAbove (s : Store) (daa : Nat) : List BlockHash :=
  ((acceptingBlocks s.covenantEvents).filter (daa < ·.2)).map (·.1)

theorem mem_acceptingBlocks {events : List EventRow} {c : BlockHash × Nat} :
    c ∈ acceptingBlocks events ↔
      ∃ e ∈ events, e.acceptingBlock = c.1 ∧ e.acceptingDaa = c.2 := by
  rw [acceptingBlocks, List.mem_insertionSort, List.mem_dedup, List.mem_map]
  constructor
  · rintro ⟨e, he, rfl⟩
    exact ⟨e, he, rfl, rfl⟩
  · rintro ⟨e, he, hblock, hdaa⟩
    exact ⟨e, he, Prod.ext hblock hdaa⟩

theorem mem_acceptingBlocksAbove {s : Store} {daa : Nat} {b : BlockHash} :
    b ∈ acceptingBlocksAbove s daa ↔
      ∃ e ∈ s.covenantEvents, e.acceptingBlock = b ∧ daa < e.acceptingDaa := by
  rw [acceptingBlocksAbove, List.mem_map]
  constructor
  · rintro ⟨c, hc, rfl⟩
    obtain ⟨hmem, habove⟩ := List.mem_filter.mp hc
    obtain ⟨e, he, hblock, hdaa⟩ := mem_acceptingBlocks.mp hmem
    exact ⟨e, he, hblock, hdaa ▸ of_decide_eq_true habove⟩
  · rintro ⟨e, he, rfl, habove⟩
    exact ⟨(e.acceptingBlock, e.acceptingDaa), List.mem_filter.mpr
      ⟨mem_acceptingBlocks.mpr ⟨e, he, rfl, rfl⟩, decide_eq_true habove⟩, rfl⟩

/-! ## The probe -/

/-- Whether a walk that succeeded counts: an empty one does not while the store
lags far behind the tip. -/
def walkable (lagging : Bool) (step : ChainStep) : Bool :=
  !(lagging && step.removed.isEmpty && step.added.isEmpty)

/-- Whether the node can walk from a block. -/
def walksFrom (virtualChainFrom : BlockHash → Result ChainStep) (lagging : Bool)
    (block : BlockHash) : Bool :=
  match virtualChainFrom block with
  | .ok step => walkable lagging step
  | .error _ => false

/-- Whether the store is far behind the tip. -/
def Store.lagging (s : Store) : Bool :=
  match s.processedDaa, s.tip with
  | some processed, some tip => wedgeLagDaa < tip - processed
  | _, _ => false

/-- The loop over the candidates: the first one, not probed before and not the
cursor, that the node can walk from. -/
def probeAnchors (walks : BlockHash → Bool) (cursor : BlockHash) :
    List BlockHash → List (BlockHash × Nat) → Option (BlockHash × Nat)
  | _, [] => none
  | probed, (anchor, anchorDaa) :: rest =>
      if anchor = cursor ∨ anchor ∈ probed then probeAnchors walks cursor probed rest
      else if walks anchor then some (anchor, anchorDaa)
      else probeAnchors walks cursor (anchor :: probed) rest

/-- The candidates, the newest blocks first. -/
def anchorCandidates (s : Store) : List (BlockHash × Nat) :=
  recentAcceptingBlocks s reAnchorDenseProbes ++ spreadAcceptingBlocks s reAnchorSpreadProbes

/-- The rollback of a re-anchor, skipped when there is nothing to roll back. -/
def rollbackAbove (s : Store) (anchorDaa : Nat) : Result Store :=
  let above := acceptingBlocksAbove s anchorDaa
  if above = [] then .ok s else (rollbackRemovedBlocks s above).map (·.1)

/-- `re_anchor`. -/
def reAnchor (virtualChainFrom : BlockHash → Result ChainStep) (s : Store) :
    Result (Store × ReAnchor) :=
  match s.cursor with
  | none => .ok (s, .notWedged)
  | some cursor =>
      let walks := walksFrom virtualChainFrom s.lagging
      if walks cursor then .ok (s, .notWedged)
      else
        match probeAnchors walks cursor [] (anchorCandidates s) with
        | none => .ok (s, .nothingWalkable)
        | some (anchor, anchorDaa) =>
            (rollbackAbove s anchorDaa).map fun rolled ↦
              (rolled.checkpointCursor anchor anchorDaa, .anchored anchor)

theorem probeAnchors_mem {walks : BlockHash → Bool} {cursor : BlockHash}
    {probed : List BlockHash} {candidates : List (BlockHash × Nat)} {c : BlockHash × Nat}
    (h : probeAnchors walks cursor probed candidates = some c) : c ∈ candidates := by
  induction candidates generalizing probed with
  | nil => cases h
  | cons hd rest ih =>
      unfold probeAnchors at h
      split at h
      · exact List.mem_cons_of_mem _ (ih h)
      · split at h
        · rw [← Option.some.inj h]
          exact List.mem_cons_self
        · exact List.mem_cons_of_mem _ (ih h)

/-- A candidate is a block of the event table, with its recorded DAA score. -/
theorem anchorCandidates_recorded {s : Store} {c : BlockHash × Nat}
    (h : c ∈ anchorCandidates s) :
    ∃ e ∈ s.covenantEvents, e.acceptingBlock = c.1 ∧ e.acceptingDaa = c.2 := by
  rcases List.mem_append.mp h with h | h
  · exact mem_acceptingBlocks.mp (List.mem_of_mem_take h)
  · unfold spreadAcceptingBlocks at h
    split at h
    · obtain ⟨i, -, hfind⟩ := List.mem_filterMap.mp h
      exact mem_acceptingBlocks.mp (List.mem_of_find?_eq_some hfind)
    · cases h

/-- **Re-anchor, inverted.**  It changes nothing, or it rolls back the canonical
blocks that have events above the anchor's recorded DAA score. -/
theorem reAnchor_ok {virtualChainFrom : BlockHash → Result ChainStep} {s s' : Store}
    {out : ReAnchor} (h : reAnchor virtualChainFrom s = .ok (s', out)) :
    (s' = s ∧ (out = .notWedged ∨ out = .nothingWalkable)) ∨
      ∃ anchor daa rolled, out = .anchored anchor ∧
        (∃ e ∈ s.covenantEvents, e.acceptingBlock = anchor ∧ e.acceptingDaa = daa) ∧
        (rolled = s ∧ canonicalRemoved s (acceptingBlocksAbove s daa) = [] ∨
          rolled = rolledBackStore s (canonicalRemoved s (acceptingBlocksAbove s daa))) ∧
        s' = rolled.checkpointCursor anchor daa := by
  unfold reAnchor at h
  split at h
  · rw [Except.ok.injEq, Prod.mk.injEq] at h
    exact .inl ⟨h.1.symm, .inl h.2.symm⟩
  · dsimp only at h
    split at h
    · rw [Except.ok.injEq, Prod.mk.injEq] at h
      exact .inl ⟨h.1.symm, .inl h.2.symm⟩
    · split at h
      · rw [Except.ok.injEq, Prod.mk.injEq] at h
        exact .inl ⟨h.1.symm, .inr h.2.symm⟩
      · rename_i anchor anchorDaa hprobe
        obtain ⟨rolled, hrolled, h⟩ := map_eq_ok.mp h
        rw [Prod.mk.injEq] at h
        refine .inr ⟨anchor, anchorDaa, rolled, h.2.symm,
          anchorCandidates_recorded (probeAnchors_mem hprobe), ?_, h.1.symm⟩
        unfold rollbackAbove at hrolled
        dsimp only at hrolled
        split at hrolled
        · rename_i hnil
          rw [← Except.ok.inj hrolled, hnil]
          exact .inl ⟨rfl, rfl⟩
        · obtain ⟨c, hc⟩ := map_fst_eq_ok hrolled
          obtain ⟨-, ⟨hnil, rfl, -⟩ | ⟨-, rfl, -⟩⟩ := rollbackRemovedBlocks_ok hc
          · exact .inl ⟨rfl, hnil⟩
          · exact .inr rfl

end Kascov
