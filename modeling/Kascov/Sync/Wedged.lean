import Kascov.Sync.Anchored
import Kascov.Sync.Pass

/-!
# Recovery of a wedged cursor

`recover_wedged_cursor`: after failed or stalled passes the cursor is re-anchored,
or, as the last resort, restarted at the node's sink.  What the node holds and
which calls go through are apart: the node is a function from questions to true
answers, and each call of a recovery may fail on its own.
-/

namespace Kascov

/-! ## Calls that fail -/

/-- The calls of one recovery that fail, each with its error. -/
structure RecoveryFaults where
  /-- The walk a re-anchor asks for, by block. -/
  probe : BlockHash → Option Error := fun _ ↦ none
  dagInfo : Option Error := none
  cursorBlock : Option Error := none
  /-- The control walk from the sink. -/
  sinkWalk : Option Error := none

/-- What a call returns. -/
def reply {α : Type} (fault : Option Error) (truth : Result α) : Result α :=
  match fault with
  | some error => .error error
  | none => truth

@[simp] theorem reply_none {α : Type} (truth : Result α) : reply none truth = truth := rfl

theorem reply_eq_ok {α : Type} {fault : Option Error} {truth : Result α} {a : α} :
    reply fault truth = .ok a ↔ fault = none ∧ truth = .ok a := by
  cases fault with
  | none => simp
  | some error => simp [reply]

/-- The walks a re-anchor asks for. -/
def probes (node : PassSource) (faults : RecoveryFaults) (block : BlockHash) :
    Result ChainStep :=
  reply (faults.probe block) (node.virtualChainFrom block)

theorem walksFrom_probes {node : PassSource} {faults : RecoveryFaults} {lagging : Bool}
    {block : BlockHash} :
    walksFrom (probes node faults) lagging block = true ↔
      faults.probe block = none ∧ walksFrom node.virtualChainFrom lagging block = true := by
  unfold walksFrom probes
  cases hfault : faults.probe block with
  | none => simp
  | some error => simp [reply]

/-! ## The recovery -/

/-- How a recovery moved the cursor. -/
inductive CursorMove where
  | anchored (block : BlockHash)
  | reset (sink : BlockHash)
deriving DecidableEq, Repr

/-- `recover_wedged_cursor`.  The `true` it returns is a move here, and its `false`
is none. -/
def recoverWedgedCursor (node : PassSource) (faults : RecoveryFaults) (s : Store) :
    Store × Option CursorMove :=
  match reAnchor (probes node faults) s with
  | .ok (s', .notWedged) => (s', none)
  | .ok (s', .anchored anchor) => (s', some (.anchored anchor))
  | .ok (s', .nothingWalkable) =>
      match s'.cursor with
      | none => (s', none)
      | some cursor =>
          match reply faults.dagInfo node.dagInfo with
          | .error _ => (s', none)
          | .ok dag =>
              -- An error reply for the cursor's block reads as "the block is gone".
              if (reply faults.cursorBlock (node.blockWithTxs cursor)).isOk &&
                  !(reply faults.sinkWalk (node.virtualChainFrom dag.sink)).isOk then
                (s', none)
              else
                (s'.resetCursor dag.sink, some (.reset dag.sink))
  | .error _ => (s, none)

/-! ## The law and its condition -/

/-- The blocks a re-anchor may ask for: the cursor and the sampled blocks. -/
def Store.ProbedBlock (s : Store) (b : BlockHash) : Prop :=
  s.cursor = some b ∨ ∃ daa, (b, daa) ∈ anchorCandidates s

/-- The node can walk from the cursor or from a sampled block, and knows the
cursor's block. -/
def StillServed (node : PassSource) (s : Store) : Prop :=
  (∃ b, s.ProbedBlock b ∧ walksFrom node.virtualChainFrom s.lagging b = true) ∧
    ∃ cursor block, s.cursor = some cursor ∧ node.blockWithTxs cursor = .ok block

/-- No history is given up: the store is as it was, or its cursor is on an indexed
block that the node can walk from. -/
def HistoryKept (node : PassSource) (s s' : Store) : Option CursorMove → Prop
  | none => s' = s
  | some (.anchored anchor) =>
      s'.cursor = some anchor ∧ (∃ e ∈ s.covenantEvents, e.acceptingBlock = anchor) ∧
        walksFrom node.virtualChainFrom s.lagging anchor = true
  | some (.reset _) => False

/-- What keeps a recovery from the reset: there is no cursor, a walk that the node
can make goes through, the sink stays unknown, or the cursor's block is served and
the control walk from the sink is not. -/
def HoldsBack (node : PassSource) (faults : RecoveryFaults) (s : Store) : Prop :=
  s.cursor = none ∨
    (∃ b, s.ProbedBlock b ∧ faults.probe b = none ∧
      walksFrom node.virtualChainFrom s.lagging b = true) ∨
    (∀ dag, reply faults.dagInfo node.dagInfo ≠ .ok dag) ∨
    ∃ cursor dag, s.cursor = some cursor ∧ node.dagInfo = .ok dag ∧
      (reply faults.cursorBlock (node.blockWithTxs cursor)).isOk = true ∧
      (reply faults.sinkWalk (node.virtualChainFrom dag.sink)).isOk = false

/-! ## The loop over the candidates -/

theorem probeAnchors_walks {walks : BlockHash → Bool} {cursor : BlockHash}
    {probed : List BlockHash} {candidates : List (BlockHash × Nat)} {c : BlockHash × Nat}
    (h : probeAnchors walks cursor probed candidates = some c) : walks c.1 = true := by
  induction candidates generalizing probed with
  | nil => cases h
  | cons hd rest ih =>
      unfold probeAnchors at h
      split at h
      · exact ih h
      · split at h
        · rename_i hwalks
          rw [← Option.some.inj h]
          exact hwalks
        · exact ih h

/-- The loop runs to its end when no candidate answers: a candidate is skipped only
when it is the cursor or has been asked for before. -/
theorem probeAnchors_eq_none {walks : BlockHash → Bool} {cursor : BlockHash}
    {probed : List BlockHash} {candidates : List (BlockHash × Nat)}
    (hcursor : walks cursor = false) (hprobed : ∀ b ∈ probed, walks b = false) :
    probeAnchors walks cursor probed candidates = none ↔ ∀ c ∈ candidates, walks c.1 = false := by
  induction candidates generalizing probed with
  | nil => simp [probeAnchors]
  | cons hd rest ih =>
      obtain ⟨anchor, anchorDaa⟩ := hd
      rw [List.forall_mem_cons]
      unfold probeAnchors
      split
      · rename_i hskip
        have hfails : walks anchor = false := by
          rcases hskip with rfl | hmem
          · exact hcursor
          · exact hprobed anchor hmem
        rw [ih hprobed]
        exact ⟨fun h ↦ ⟨hfails, h⟩, fun h ↦ h.2⟩
      · split
        · rename_i hwalks
          simp [hwalks]
        · rename_i hfails
          rw [Bool.not_eq_true] at hfails
          rw [ih (List.forall_mem_cons.mpr ⟨hfails, hprobed⟩)]
          exact ⟨fun h ↦ ⟨hfails, h⟩, fun h ↦ h.2⟩

/-! ## What a re-anchor found -/

/-- A re-anchor that moved the cursor asked a walk of its block and was served. -/
theorem reAnchor_anchored {virtualChainFrom : BlockHash → Result ChainStep} {s s' : Store}
    {anchor : BlockHash} (h : reAnchor virtualChainFrom s = .ok (s', .anchored anchor)) :
    walksFrom virtualChainFrom s.lagging anchor = true := by
  unfold reAnchor at h
  split at h
  · cases h
  · dsimp only at h
    split at h
    · cases h
    · split at h
      · cases h
      · rename_i found foundDaa hprobe
        obtain ⟨rolled, -, h⟩ := Fallible.map_eq_ok.mp h
        rw [Prod.mk.injEq, ReAnchor.anchored.injEq] at h
        rw [← h.2]
        exact probeAnchors_walks hprobe

/-- Nothing is walkable when there is a cursor and no block asked for is served. -/
theorem reAnchor_nothingWalkable {virtualChainFrom : BlockHash → Result ChainStep}
    {s : Store} :
    (∃ s', reAnchor virtualChainFrom s = .ok (s', .nothingWalkable)) ↔
      s.cursor ≠ none ∧ ∀ b, s.ProbedBlock b → walksFrom virtualChainFrom s.lagging b = false := by
  cases hcursor : s.cursor with
  | none => simp [reAnchor, hcursor]
  | some cursor =>
      have hprobed : ∀ b, s.ProbedBlock b ↔ b = cursor ∨ ∃ daa, (b, daa) ∈ anchorCandidates s := by
        intro b
        rw [Store.ProbedBlock, hcursor, Option.some.injEq, eq_comm]
      simp only [hprobed, ne_eq, reduceCtorEq, not_false_eq_true, true_and]
      by_cases hwalks : walksFrom virtualChainFrom s.lagging cursor = true
      · have hnot : ∀ s', reAnchor virtualChainFrom s ≠ .ok (s', .nothingWalkable) := by
          intro s'
          simp [reAnchor, hcursor, hwalks]
        refine ⟨fun ⟨s', h⟩ ↦ absurd h (hnot s'), fun h ↦ ?_⟩
        rw [h cursor (.inl rfl)] at hwalks
        cases hwalks
      · rw [Bool.not_eq_true] at hwalks
        have hnone : (∃ s', reAnchor virtualChainFrom s = .ok (s', .nothingWalkable)) ↔
            probeAnchors (walksFrom virtualChainFrom s.lagging) cursor [] (anchorCandidates s) =
              none := by
          cases hprobe : probeAnchors (walksFrom virtualChainFrom s.lagging) cursor []
              (anchorCandidates s) with
          | none => simp [reAnchor, hcursor, hwalks, hprobe]
          | some found =>
              obtain ⟨anchor, daa⟩ := found
              simp [reAnchor, hcursor, hwalks, hprobe, Fallible.map_eq_ok]
        rw [hnone, probeAnchors_eq_none hwalks (by simp)]
        constructor
        · rintro h b (rfl | ⟨daa, hmem⟩)
          · exact hwalks
          · exact h (b, daa) hmem
        · intro h c hc
          exact h c.1 (.inr ⟨c.2, hc⟩)

/-! ## When history is kept -/

/-- Past a re-anchor that found nothing, the sink decides. -/
theorem recoverWedgedCursor_nothingWalkable {node : PassSource} {faults : RecoveryFaults}
    {s s' : Store} {cursor : BlockHash} (hcursor : s.cursor = some cursor)
    (h : reAnchor (probes node faults) s = .ok (s', .nothingWalkable)) :
    s' = s ∧ recoverWedgedCursor node faults s =
      match reply faults.dagInfo node.dagInfo with
      | .error _ => (s, none)
      | .ok dag =>
          if (reply faults.cursorBlock (node.blockWithTxs cursor)).isOk &&
              !(reply faults.sinkWalk (node.virtualChainFrom dag.sink)).isOk then
            (s, none)
          else
            (s.resetCursor dag.sink, some (.reset dag.sink)) := by
  have hs : s' = s := by
    rcases reAnchor_ok h with ⟨rfl, -⟩ | ⟨anchor, daa, rolled, hout, -⟩
    · rfl
    · cases hout
  subst hs
  refine ⟨rfl, ?_⟩
  unfold recoverWedgedCursor
  rw [h]
  simp only [hcursor]

/-- A recovery that does not restart the cursor leaves the store, or re-anchors it. -/
theorem recoverWedgedCursor_cases (node : PassSource) (faults : RecoveryFaults) (s : Store) :
    (recoverWedgedCursor node faults s).1 = s ∨
      (∃ s' out, reAnchor (probes node faults) s = .ok (s', out) ∧
        (recoverWedgedCursor node faults s).1 = s') ∨
      ∃ sink, recoverWedgedCursor node faults s = (s.resetCursor sink, some (.reset sink)) := by
  cases hre : reAnchor (probes node faults) s with
  | error e => exact .inl (by rw [recoverWedgedCursor, hre])
  | ok found =>
      obtain ⟨s', out⟩ := found
      cases out with
      | notWedged => exact .inr (.inl ⟨s', _, rfl, by rw [recoverWedgedCursor, hre]⟩)
      | anchored anchor => exact .inr (.inl ⟨s', _, rfl, by rw [recoverWedgedCursor, hre]⟩)
      | nothingWalkable =>
          obtain ⟨hcursor, -⟩ := reAnchor_nothingWalkable.mp ⟨s', hre⟩
          obtain ⟨cursor, hcursor⟩ := Option.ne_none_iff_exists'.mp hcursor
          obtain ⟨-, hrecover⟩ := recoverWedgedCursor_nothingWalkable hcursor hre
          rw [hrecover]
          split
          · exact .inl rfl
          · split
            · exact .inl rfl
            · exact .inr (.inr ⟨_, rfl⟩)

theorem HistoryKept.of_reAnchor {node : PassSource} {faults : RecoveryFaults} {s : Store}
    (h : ∀ s', reAnchor (probes node faults) s ≠ .ok (s', .nothingWalkable)) :
    HistoryKept node s (recoverWedgedCursor node faults s).1
      (recoverWedgedCursor node faults s).2 := by
  unfold recoverWedgedCursor
  split
  · rename_i s' hre
    rcases reAnchor_ok hre with ⟨rfl, -⟩ | ⟨anchor, daa, rolled, hout, -⟩
    · rfl
    · cases hout
  · rename_i s' anchor hre
    have hwalks := (walksFrom_probes.mp (reAnchor_anchored hre)).2
    rcases reAnchor_ok hre with ⟨-, hout | hout⟩ | ⟨found, daa, rolled, hout, hmem, -, rfl⟩
    · cases hout
    · cases hout
    · obtain rfl := ReAnchor.anchored.inj hout
      obtain ⟨e, he, hblock, -⟩ := hmem
      exact ⟨rfl, ⟨e, he, hblock⟩, hwalks⟩
  · rename_i s' hre
    exact absurd hre (h s')
  · rfl

/-- **Wedged cursors.**  A recovery gives no history up exactly when something holds
it back: whatever the node holds, and whichever of its calls fail. -/
theorem recoverWedgedCursor_keeps_iff (node : PassSource) (faults : RecoveryFaults) (s : Store) :
    HistoryKept node s (recoverWedgedCursor node faults s).1
        (recoverWedgedCursor node faults s).2 ↔
      HoldsBack node faults s := by
  by_cases hnothing : ∃ s', reAnchor (probes node faults) s = .ok (s', .nothingWalkable)
  · obtain ⟨hcursor, hfails⟩ := reAnchor_nothingWalkable.mp hnothing
    obtain ⟨cursor, hcursor⟩ := Option.ne_none_iff_exists'.mp hcursor
    obtain ⟨s', hre⟩ := hnothing
    obtain ⟨-, hrecover⟩ := recoverWedgedCursor_nothingWalkable hcursor hre
    have hunserved : ¬∃ b, s.ProbedBlock b ∧ faults.probe b = none ∧
        walksFrom node.virtualChainFrom s.lagging b = true := by
      rintro ⟨b, hb, hwalks⟩
      have := hfails b hb
      rw [walksFrom_probes.mpr hwalks] at this
      cases this
    rw [hrecover]
    cases hdag : reply faults.dagInfo node.dagInfo with
    | error e =>
        refine iff_of_true rfl (.inr (.inr (.inl fun dag hok ↦ ?_)))
        rw [hdag] at hok
        cases hok
    | ok dag =>
        dsimp only
        have hsink : node.dagInfo = .ok dag := (reply_eq_ok.mp hdag).2
        split
        · rename_i hback
          rw [Bool.and_eq_true, Bool.not_eq_true'] at hback
          exact iff_of_true rfl (.inr (.inr (.inr ⟨cursor, dag, hcursor, hsink, hback⟩)))
        · rename_i hreset
          refine iff_of_false id ?_
          rintro (hnone | hserved | hno | ⟨cursor', dag', hcursor', hsink', hblock, hwalk⟩)
          · rw [hcursor] at hnone
            cases hnone
          · exact hunserved hserved
          · exact hno dag hdag
          · rw [hcursor, Option.some.injEq] at hcursor'
            rw [hsink, Except.ok.injEq] at hsink'
            subst hcursor' hsink'
            rw [hblock, hwalk] at hreset
            exact hreset rfl
  · refine iff_of_true (.of_reAnchor fun s' hre ↦ hnothing ⟨s', hre⟩) ?_
    rw [reAnchor_nothingWalkable, not_and_or, not_not] at hnothing
    rcases hnothing with hnone | hserved
    · exact .inl hnone
    · push Not at hserved
      obtain ⟨b, hb, hwalks⟩ := hserved
      rw [ne_eq, Bool.not_eq_false, walksFrom_probes] at hwalks
      exact .inr (.inl ⟨b, hb, hwalks⟩)

/-! ## Walks that time out -/

def emptyBlock (hash : BlockHash) : Block :=
  { hash
    daaScore := 300
    blueScore := 300
    timestampMs := 0
    mergeset := []
    transactions := [] }

/-- A node that holds the chain over block 1 and block 3 up to its sink, block 9. -/
def soundNode : PassSource :=
  { pruningPoint := .ok ⟨0⟩
    virtualChainFrom := fun _ ↦ .ok { removed := [], added := [⟨⟨9⟩, []⟩] }
    blockWithTxs := fun block ↦ .ok (emptyBlock block)
    dagInfo := .ok { virtualDaaScore := 900, sink := ⟨9⟩ } }

/-- The walks and the lookup of the cursor's block time out; `dag_info` is served. -/
def heavyCallsTimeOut : RecoveryFaults :=
  { probe := fun _ ↦ some (.rpc "timed out")
    cursorBlock := some (.rpc "timed out")
    sinkWalk := some (.rpc "timed out") }

/-- Blocks 1 and 3 are followed, the node holds both, and the recovery restarts at
block 9, which is on no record: an error for the cursor's block reads as its absence,
and the control walk is not asked for. -/
theorem timeouts_forfeit_history :
    StillServed soundNode (SyncOp.run .blind (.fresh ⟨0⟩) followedRun) ∧
      (recoverWedgedCursor soundNode heavyCallsTimeOut
        (SyncOp.run .blind (.fresh ⟨0⟩) followedRun)).2 = some (.reset ⟨9⟩) ∧
      (recoverWedgedCursor soundNode heavyCallsTimeOut
        (SyncOp.run .blind (.fresh ⟨0⟩) followedRun)).1.cursor = some ⟨9⟩ ∧
      (∀ e ∈ (SyncOp.run .blind (.fresh ⟨0⟩) followedRun).covenantEvents,
        e.acceptingBlock ≠ ⟨9⟩) ∧
      ¬HistoryKept soundNode (SyncOp.run .blind (.fresh ⟨0⟩) followedRun)
        (recoverWedgedCursor soundNode heavyCallsTimeOut
          (SyncOp.run .blind (.fresh ⟨0⟩) followedRun)).1
        (recoverWedgedCursor soundNode heavyCallsTimeOut
          (SyncOp.run .blind (.fresh ⟨0⟩) followedRun)).2 := by
  have hmove : (recoverWedgedCursor soundNode heavyCallsTimeOut
      (SyncOp.run .blind (.fresh ⟨0⟩) followedRun)).2 = some (.reset ⟨9⟩) := by
    decide +kernel
  refine ⟨⟨⟨⟨3⟩, .inl (by decide +kernel), by decide +kernel⟩, ⟨3⟩, emptyBlock ⟨3⟩,
    by decide +kernel, rfl⟩, hmove, by decide +kernel, by decide +kernel, ?_⟩
  rw [hmove]
  exact id

end Kascov
