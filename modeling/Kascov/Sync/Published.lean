import Kascov.Feed.LiveFilter
import Kascov.Lib.Beside
import Kascov.Sync.Convergence
import Kascov.Sync.Wedged

/-!
# What the follower publishes

A pass hands the records of each commit to the caller of `sync_once`, once the commit is
there, and the follower publishes them.  A recovery of the cursor commits records too, which
nobody is handed.
-/

namespace Kascov

open Commits

/-- `SyncUpdate`. -/
inductive SyncUpdate where
  | progress (stats : SyncStats)
  | reorg (rolledBack : Nat)
  | committed (batch : CommittedBatch)
  | removed (batch : CommittedRemovalBatch)
deriving DecidableEq, Repr

/-- The records the follower publishes on an update. -/
def SyncUpdate.deliveries : SyncUpdate → List DeliveryRecord
  | progress _ => []
  | reorg _ => []
  | committed batch => batch.deliveries
  | removed batch => batch.deliveries

/-- A program over the store that calls `updates`. -/
abbrev Updating (α : Type) : Type := Prog (Store × List SyncUpdate) Error α

section Pass

variable (compute : ComputeCovenantId) (dec : Decoders) (node : PassSource)
variable (fromBlock : Option BlockHash) (decoder : ApplicationDecoder)

def updateCommitted (batch : CommittedBatch) : List SyncUpdate :=
  if batch.deliveries = [] then [] else [.committed batch]

def updateRemoved (batch : CommittedRemovalBatch) : List SyncUpdate :=
  if batch.deliveries = [] then [] else [.removed batch]

/-- The rollback of a pass. -/
def rollbackUpdating (removed : List BlockHash) : Updating Unit :=
  if removed = [] then pure ()
  else do
    let batch ← beside (commit (rollbackRemovedBlocks · removed))
    emit (updateRemoved batch)
    emit [.reorg removed.length]

/-- What the loop does with the batch of a block. -/
def settleUpdating (vars : PassVars) (batch : AcceptedBlockBatch) : Updating PassVars :=
  if batch.events ≠ [] then do
    let committed ← beside (applyBatch dec batch)
    emit (updateCommitted committed)
    return { vars with
      stats := { vars.stats with events := vars.stats.events + batch.events.length }
      sinceCheckpoint := 0 }
  else if checkpointEvery ≤ vars.sinceCheckpoint then do
    let _ ← beside (applyBatch dec batch)
    return { vars with sinceCheckpoint := 0 }
  else
    return vars

/-- One block of the loop. -/
def blockUpdating (vars : PassVars) (accepted : AcceptedBlock) : Updating PassVars := do
  let accepting ← beside (answer (node.blockWithTxs accepted.acceptingBlock))
  let unresolved := unresolvedCount node.toChainSource accepted accepting
  if 0 < unresolved then
    beside (answer (.error (.rpc s!"unresolved accepted tx bodies in chain block {accepted.acceptingBlock.bytes.toHex} ({unresolved} missing) — retrying the pass")))
  else
    let batch ← beside (read (preparedBatch compute node decoder accepted accepting))
    let vars ← settleUpdating dec { vars with
      stats := { vars.stats with chainBlocks := vars.stats.chainBlocks + 1 }
      sinceCheckpoint := vars.sinceCheckpoint + 1
      lastSeen := some accepted.acceptingBlock
      lastDaa := accepting.daaScore } batch
    emit (if vars.stats.chainBlocks % 100 = 0 then [.progress vars.stats] else [])
    return vars

/-- The loop over the added blocks. -/
def walkUpdating (step : ChainStep) : Updating PassVars :=
  step.added.foldlM (blockUpdating compute dec node decoder)
    { stats := { reorgedOut := step.removed.length } }

/-- `sync_once_measured_with_decoder`, with the updates it makes. -/
def syncOnceUpdating : Updating SyncStats := do
  let start ← beside (openPass dec node fromBlock)
  let step ← beside (answer (node.virtualChainFrom start))
  rollbackUpdating step.removed
  let vars ← walkUpdating compute dec node decoder step
  beside (closePass dec vars)

/-! ## Without its updates a pass is a pass -/

variable {compute dec node fromBlock decoder}

theorem rollbackUpdating_shadows (removed : List BlockHash) :
    Shadows (rollbackUpdating removed) (rollbackStep removed) := by
  unfold rollbackUpdating rollbackStep
  split
  · exact shadows_pure ()
  · exact (shadows_beside _).bind fun _ ↦ shadows_emit_bind _ (shadows_emit _)

theorem blockUpdating_shadows (vars : PassVars) (accepted : AcceptedBlock) :
    Shadows (blockUpdating compute dec node decoder vars accepted)
      (passBlock compute dec node decoder vars accepted) := by
  refine (shadows_beside _).bind fun accepting ↦ ?_
  dsimp only
  split
  · exact shadows_beside _
  · refine (shadows_beside _).bind fun batch ↦ Shadows.bind_emit ?_
    unfold settleUpdating
    split
    · exact (shadows_beside _).bind fun _ ↦ shadows_emit_bind _ (shadows_pure _)
    · split
      · exact (shadows_beside _).bind fun _ ↦ shadows_pure _
      · exact shadows_pure _

theorem walkUpdating_shadows (step : ChainStep) :
    Shadows (walkUpdating compute dec node decoder step)
      (walkAdded compute dec node decoder step) :=
  Shadows.foldlM blockUpdating_shadows _ _

/-- **Updates do not touch the pass.** -/
theorem syncOnceUpdating_shadows :
    Shadows (syncOnceUpdating compute dec node fromBlock decoder)
      (syncOnce compute dec node fromBlock decoder) :=
  (shadows_beside _).bind fun _ ↦ (shadows_beside _).bind fun step ↦
    (rollbackUpdating_shadows step.removed).bind fun _ ↦
      (walkUpdating_shadows step).bind fun _ ↦ shadows_beside _

end Pass

/-! ## The records of a commit -/

section Sources

variable {dec : Decoders} {s : Store} {block : AcceptedBlockBatch}

/-- The records an apply appends. -/
def newRecords (dec : Decoders) (s : Store) (block : AcceptedBlockBatch) : List DeliveryRecord :=
  (numberEvents dec block s.covenantEvents s.nextStreamSeq block.events).map
    (numberedRecord block s.streamEpoch)

theorem newRecords_nil (h : block.events = []) : newRecords dec s block = [] := by
  rw [newRecords, h]
  rfl

/-- An apply leaves the records of the other blocks. -/
theorem acceptedSources_applied_of_ne {b : BlockHash} (hb : block.acceptingBlock ≠ b) :
    (appliedStore dec s block).acceptedSources b = s.acceptedSources b := by
  have hfind : (appliedStore dec s block).canonicalBatches.find? (·.acceptingBlock = b) =
      s.canonicalBatches.find? (·.acceptingBlock = b) := by
    by_cases h0 : 0 < block.acceptingDaa
    · simp [appliedStore, h0, canonicalBatchRow, hb]
    · simp [appliedStore, h0]
  unfold Store.acceptedSources
  rw [hfind]
  split
  · rename_i row _
    change (s.deliveryLog ++ newRecords dec s block).filter _ = _
    have hnone : (newRecords dec s block).filter
        (Store.acceptedBetween b row.firstStreamSeq row.lastStreamSeq) = [] := by
      refine List.filter_eq_nil_iff.mpr fun r hr ↦ ?_
      obtain ⟨e, -, rfl⟩ := List.mem_map.mp hr
      unfold Store.acceptedBetween
      split
      · simp [numberedRecord, acceptedRecord, hb]
      · exact Bool.false_ne_true
    rw [List.filter_append, hnone, List.append_nil]
  · rfl

/-- The records of a block that was applied are those it appended. -/
theorem acceptedSources_applied (h : IndexedLog s s.nextStreamSeq)
    (hnew : s.isCanonical block.acceptingBlock = false)
    (hdaa : block.acceptingDaa = 0 → block.events = []) :
    (appliedStore dec s block).acceptedSources block.acceptingBlock = newRecords dec s block := by
  have hold : s.canonicalBatches.find? (·.acceptingBlock = block.acceptingBlock) = none := by
    refine List.find?_eq_none.mpr fun row hrow heq ↦ ?_
    rw [Store.isCanonical, List.any_eq_false] at hnew
    exact hnew row hrow heq
  by_cases h0 : 0 < block.acceptingDaa
  · have hfind : (appliedStore dec s block).canonicalBatches.find?
        (·.acceptingBlock = block.acceptingBlock) =
          some (canonicalBatchRow block s.nextStreamSeq) := by
      simp [appliedStore, h0, hold, canonicalBatchRow]
    unfold Store.acceptedSources
    rw [hfind]
    change (s.deliveryLog ++ newRecords dec s block).filter _ = _
    by_cases hevents : block.events = []
    · rw [newRecords_nil hevents, canonicalBatchRow, if_pos hevents]
      exact List.filter_eq_nil_iff.mpr fun r _ ↦ Bool.false_ne_true
    · rw [canonicalBatchRow, if_neg hevents, if_neg hevents, List.filter_append]
      have hbefore : s.deliveryLog.filter (Store.acceptedBetween block.acceptingBlock
          (some s.nextStreamSeq) (some (s.nextStreamSeq + block.events.length - 1))) = [] := by
        refine List.filter_eq_nil_iff.mpr fun r hr ↦ ?_
        have hlt := (h.numbered.bounds r hr).2
        rw [Store.acceptedBetween, decide_eq_true_eq]
        exact fun hle ↦ absurd hle.1 (Nat.not_le.mpr hlt)
      rw [hbefore, List.nil_append]
      refine List.filter_eq_self.mpr fun r hr ↦ ?_
      obtain ⟨hkind, -, hlow, hhigh⟩ := numberedRecord_seq hr
      obtain ⟨e, -, rfl⟩ := List.mem_map.mp hr
      rw [Store.acceptedBetween, decide_eq_true_eq]
      exact ⟨hlow, by omega, rfl, hkind⟩
  · have hevents := hdaa (Nat.eq_zero_of_not_pos h0)
    rw [newRecords_nil hevents]
    unfold Store.acceptedSources
    have hfind : (appliedStore dec s block).canonicalBatches.find?
        (·.acceptingBlock = block.acceptingBlock) = none := by
      simp only [appliedStore, if_neg h0]
      exact hold
    rw [hfind]

/-- A rollback leaves no record but those of blocks it left. -/
theorem acceptedSources_rolledBack (hashes : List BlockHash) (b : BlockHash) :
    (rolledBackStore s hashes).acceptedSources b =
      if b ∈ hashes then [] else s.acceptedSources b := by
  have hlog : (rolledBackStore s hashes).deliveryLog = s.deliveryLog ++
      removalsOf s.streamEpoch s.nextStreamSeq (hashes.flatMap s.acceptedSources) := rfl
  have hbatches : (rolledBackStore s hashes).canonicalBatches =
      s.canonicalBatches.filter (·.acceptingBlock ∉ hashes) := rfl
  have hfind : (rolledBackStore s hashes).canonicalBatches.find? (·.acceptingBlock = b) =
      if b ∈ hashes then none else s.canonicalBatches.find? (·.acceptingBlock = b) := by
    rw [hbatches, List.find?_filter]
    split
    · rename_i hb
      refine List.find?_eq_none.mpr fun row _ ↦ ?_
      simp only [decide_eq_true_eq, not_and]
      rintro hnot rfl
      exact hnot hb
    · rename_i hb
      congr 1
      funext row
      by_cases hrow : row.acceptingBlock = b
      · simp [hrow, hb]
      · simp [hrow]
  have happend : (rolledBackStore s hashes).acceptedSources b =
      Store.acceptedSources
        { s with canonicalBatches := (rolledBackStore s hashes).canonicalBatches } b := by
    have hkind : ∀ r ∈ removalsOf s.streamEpoch s.nextStreamSeq
        (hashes.flatMap s.acceptedSources), r.kind ≠ .accepted := fun r hr ↦ by
      rw [removalsOf_kind r hr]
      exact DeliveryKind.noConfusion
    exact (Store.acceptedSources_appendDeliveries
      { s with canonicalBatches := (rolledBackStore s hashes).canonicalBatches } hkind b)
  rw [happend, Store.acceptedSources, Store.acceptedSources, hfind]
  split_ifs
  · rfl
  · rfl

end Sources

/-! ## Where the records are -/

/-- The line of the cursor. -/
def ChainTree.lineOf (tree : ChainTree) (s : Store) : List BlockHash :=
  s.cursor.elim [] tree.lines.path

/-- The log is numbered, and the blocks that have events or records are on a line. -/
structure Placed (tree : ChainTree) (line : List BlockHash) (s : Store) : Prop where
  log : IndexedLog s s.nextStreamSeq
  chain : ChainInvariant s
  events : ∀ e ∈ s.covenantEvents,
    e.acceptingBlock ∈ line ∧ e.acceptingDaa = (tree.header e.acceptingBlock).daaScore
  sources : ∀ b, s.acceptedSources b ≠ [] → ∃ e ∈ s.covenantEvents, e.acceptingBlock = b

namespace Placed

variable {tree : ChainTree} {line line' : List BlockHash} {s s' : Store} {dec : Decoders}
  {batch : AcceptedBlockBatch} {c : CommittedBatch}

theorem fresh (tree : ChainTree) (epoch : StreamEpoch) : Placed tree [] (.fresh epoch) where
  log := .unwritten rfl rfl rfl
  chain := chainInvariant_fresh epoch
  events _ he := absurd he List.not_mem_nil
  sources _ hb := absurd rfl hb

theorem mono (h : Placed tree line s) (hsub : line ⊆ line') : Placed tree line' s where
  log := h.log
  chain := h.chain
  events e he := ⟨hsub (h.events e he).1, (h.events e he).2⟩
  sources := h.sources

theorem setTip (h : Placed tree line s) (daa : Nat) : Placed tree line (s.setTip daa) where
  log := h.log.congr rfl rfl rfl
  chain := ⟨h.chain.outpoints, h.chain.clean, h.chain.canonical, h.chain.counts⟩
  events := h.events
  sources := h.sources

theorem checkpointCursor (h : Placed tree line s) (b : BlockHash) (daa : Nat) :
    Placed tree line (s.checkpointCursor b daa) where
  log := h.log.congr rfl rfl rfl
  chain := ⟨h.chain.outpoints, h.chain.clean, h.chain.canonical, h.chain.counts⟩
  events := h.events
  sources := h.sources

theorem sources_nil (h : Placed tree line s) {b : BlockHash} (hb : b ∉ line) :
    s.acceptedSources b = [] := by
  by_contra hne
  obtain ⟨e, he, rfl⟩ := h.sources b hne
  exact hb (h.events e he).1

/-- A batch without events appends nothing. -/
theorem quiet (h : Placed tree line s) (hevents : batch.events = [])
    (happly : applyBatch dec batch s = (.ok c, s')) :
    Placed tree line s' ∧ s'.deliveryLog = s.deliveryLog ∧
      (s'.cursor = s.cursor ∨ s'.cursor = some batch.acceptingBlock) := by
  obtain ⟨hdaa, ⟨-, rfl⟩ | ⟨hnew, rfl⟩⟩ := applyBatch_ok happly
  · exact ⟨h, rfl, .inl rfl⟩
  · have hrows : (appliedStore dec s batch).covenantEvents = s.covenantEvents := by
      simp [appliedStore, hevents, numberEvents]
    have hlog : (appliedStore dec s batch).deliveryLog = s.deliveryLog := by
      simp [appliedStore, hevents, numberEvents]
    refine ⟨⟨h.log.applied dec hdaa, h.chain.applied hdaa, ?_, fun b hb ↦ ?_⟩, hlog, .inr rfl⟩
    · rw [hrows]
      exact h.events
    · rw [hrows]
      by_cases heq : batch.acceptingBlock = b
      · subst heq
        rw [acceptedSources_applied h.log hnew hdaa, newRecords_nil hevents] at hb
        exact absurd rfl hb
      · rw [acceptedSources_applied_of_ne heq] at hb
        exact h.sources b hb

/-- **A block is applied.**  What it appends is what it returns. -/
theorem applied (h : Placed tree line s) (hb : batch.acceptingBlock ∉ line)
    (hheader : batch.acceptingDaa = (tree.header batch.acceptingBlock).daaScore)
    (happly : applyBatch dec batch s = (.ok c, s')) :
    Placed tree (line ++ [batch.acceptingBlock]) s' ∧
      s'.deliveryLog = s.deliveryLog ++ c.deliveries ∧
      (s' = s ∨ s'.cursor = some batch.acceptingBlock) := by
  obtain ⟨hdeliveries, hdaa, hcases⟩ := applyAcceptedBlock_ok (commit_eq_ok.mp happly)
  change c.deliveries = s'.acceptedSources batch.acceptingBlock at hdeliveries
  have hmono := h.mono (List.subset_append_left line [batch.acceptingBlock])
  rcases hcases with ⟨-, rfl⟩ | ⟨hnew, rfl⟩
  · rw [hdeliveries, h.sources_nil hb, List.append_nil]
    exact ⟨hmono, rfl, .inl rfl⟩
  · rw [acceptedSources_applied h.log hnew hdaa] at hdeliveries
    have hrows : (appliedStore dec s batch).covenantEvents = s.covenantEvents ++
        (numberEvents dec batch s.covenantEvents s.nextStreamSeq batch.events).map
          (numberedRow dec batch) := rfl
    refine ⟨⟨h.log.applied dec hdaa, h.chain.applied hdaa, ?_, fun b hsources ↦ ?_⟩, ?_, .inr rfl⟩
    · intro e he
      rw [hrows] at he
      rcases List.mem_append.mp he with he | he
      · exact hmono.events e he
      · obtain ⟨x, -, rfl⟩ := List.mem_map.mp he
        exact ⟨List.mem_append_right _ (List.mem_singleton_self _), hheader⟩
    · rw [hrows]
      by_cases heq : batch.acceptingBlock = b
      · subst heq
        rw [acceptedSources_applied h.log hnew hdaa, newRecords, ne_eq, List.map_eq_nil_iff]
          at hsources
        obtain ⟨x, hx⟩ := List.exists_mem_of_ne_nil _ hsources
        exact ⟨_, List.mem_append_right _ (List.mem_map_of_mem hx), rfl⟩
      · rw [acceptedSources_applied_of_ne heq] at hsources
        obtain ⟨e, he, hblock⟩ := h.sources b hsources
        exact ⟨e, List.mem_append_left _ he, hblock⟩
    · rw [hdeliveries]
      rfl

/-- **Blocks are rolled back.** -/
theorem rolledBack (h : Placed tree line s) {hashes : List BlockHash}
    (hline : ∀ e ∈ s.covenantEvents, e.acceptingBlock ∉ hashes → e.acceptingBlock ∈ line') :
    Placed tree line' (rolledBackStore s hashes) where
  log := h.log.rolledBack hashes
  chain := h.chain.rolledBack hashes
  events e he := by
    obtain ⟨hold, hkeep⟩ := List.mem_filter.mp he
    exact ⟨hline e hold (of_decide_eq_true hkeep), (h.events e hold).2⟩
  sources b hb := by
    rw [acceptedSources_rolledBack] at hb
    split at hb
    · exact absurd rfl hb
    · rename_i hout
      obtain ⟨e, he, rfl⟩ := h.sources b hb
      exact ⟨e, List.mem_filter.mpr ⟨he, decide_eq_true hout⟩, rfl⟩

end Placed

/-! ## What a pass announces -/

section Echo

variable {compute : ComputeCovenantId} {dec : Decoders} {node : PassSource}
  {fromBlock : Option BlockHash} {decoder : ApplicationDecoder} {tree : ChainTree}
  {c tip b : BlockHash} {front rest : List BlockHash} {s : Store × List SyncUpdate}

/-- Where a pass leaves a store. -/
abbrev OnLine (tree : ChainTree) (s : Store) : Prop := Placed tree (tree.lineOf s) s

/-- The program announces the records it appends. -/
abbrev Announces {α : Type} (tree : ChainTree) (Q : α → Store → Prop) (y : Updating α)
    (s : Store × List SyncUpdate) : Prop :=
  Echo Store.deliveryLog SyncUpdate.deliveries Q (OnLine tree) y s

theorem updateCommitted_deliveries (batch : CommittedBatch) :
    (updateCommitted batch).flatMap SyncUpdate.deliveries = batch.deliveries := by
  unfold updateCommitted
  split
  · rename_i hnil
    exact hnil.symm
  · exact List.append_nil _

theorem updateRemoved_deliveries (batch : CommittedRemovalBatch) :
    (updateRemoved batch).flatMap SyncUpdate.deliveries = batch.deliveries := by
  unfold updateRemoved
  split
  · rename_i hnil
    exact hnil.symm
  · exact List.append_nil _

/-- A pass opens with the records on the line of the block it starts at. -/
theorem announces_openPass (h : OnLine tree s.1) :
    Announces tree (fun c s₁ ↦ Placed tree (tree.lines.path c) s₁ ∧ OnLine tree s₁)
      (beside (openPass dec node fromBlock)) s := by
  have hnoted : ∀ noted, (noted = s.1 ∨ ∃ daa, noted = s.1.setTip daa) →
      noted.deliveryLog = s.1.deliveryLog ∧ noted.cursor = s.1.cursor ∧
        Placed tree (tree.lineOf s.1) noted := by
    rintro noted (rfl | ⟨daa, rfl⟩)
    · exact ⟨rfl, rfl, h⟩
    · exact ⟨rfl, rfl, h.setTip daa⟩
  refine echo_beside (fun c s₁ hopen ↦ ?_) fun e s₁ hopen ↦ ?_
  · obtain ⟨noted, hnote, hstep⟩ := openPass_cases hopen
    obtain ⟨hlog, hcursor, hplaced⟩ := hnoted noted hnote
    rcases hstep with ⟨hc, rfl⟩ | ⟨hnone, batch, happly⟩
    · have hline : tree.lineOf s₁ = tree.lines.path c := by
        rw [ChainTree.lineOf, hcursor, hc]
        rfl
      rw [ChainTree.lineOf, ← hcursor] at hplaced
      exact ⟨hlog, hline ▸ hplaced, hplaced⟩
    · rw [ChainTree.lineOf, hnone] at hplaced
      obtain ⟨hquiet, hsame, -⟩ := hplaced.quiet rfl happly
      exact ⟨hsame.trans hlog, hquiet.mono (List.nil_subset _), hquiet.mono (List.nil_subset _)⟩
  · obtain ⟨-, hnote⟩ := openPass_error hopen
    obtain ⟨hlog, hcursor, hplaced⟩ := hnoted s₁ hnote
    refine ⟨hlog, ?_⟩
    rw [OnLine, ChainTree.lineOf, hcursor]
    exact hplaced

/-- The rollback leaves the records of the blocks that the lines share. -/
theorem announces_rollback (h : Placed tree (tree.lines.path c) s.1 ∧ OnLine tree s.1) :
    Announces tree (fun _ s₁ ↦ Placed tree (tree.lines.shared c tip) s₁ ∧ OnLine tree s₁)
      (rollbackUpdating (tree.chainStep c tip).removed) s := by
  obtain ⟨hplaced, hlaw⟩ := h
  have hcut : ∀ e ∈ s.1.covenantEvents, e.acceptingBlock ∉ canonicalRemoved s.1
      (tree.chainStep c tip).removed → e.acceptingBlock ∈ tree.lines.shared c tip := by
    intro e he hkeep
    have hon := (hplaced.events e he).1
    refine tree.lines.mem_shared.mpr ⟨hon, ?_⟩
    by_contra hoff
    refine hkeep (mem_canonicalRemoved.mpr ⟨List.mem_reverse.mpr ?_, hplaced.chain.canonical e he⟩)
    exact tree.lines.mem_apart.mpr ⟨hon, hoff⟩
  have hnone : canonicalRemoved s.1 (tree.chainStep c tip).removed = [] →
      Placed tree (tree.lines.shared c tip) s.1 := fun hnil ↦
    ⟨hplaced.log, hplaced.chain, fun e he ↦
      ⟨hcut e he (hnil ▸ List.not_mem_nil), (hplaced.events e he).2⟩, hplaced.sources⟩
  unfold rollbackUpdating
  split
  · rename_i hnil
    exact echo_pure ⟨hnone (by rw [hnil]; rfl), hlaw⟩
  · refine echo_commit_emit (Q := fun _ s₁ ↦ Placed tree (tree.lines.shared c tip) s₁ ∧
      OnLine tree s₁) (fun batch s₁ hroll ↦ ?_) (fun e s₁ hroll ↦ ?_) fun batch s₁ hpost ↦
        echo_emit rfl hpost
    · rw [updateRemoved_deliveries]
      obtain ⟨-, ⟨hnil, rfl, hdeliveries⟩ | ⟨-, rfl, hdeliveries⟩⟩ :=
        rollbackRemovedBlocks_ok (commit_eq_ok.mp hroll)
      · rw [hdeliveries, List.append_nil]
        exact ⟨rfl, hnone hnil, hlaw⟩
      · rw [hdeliveries]
        exact ⟨rfl, hplaced.rolledBack hcut, hlaw.rolledBack fun e he _ ↦ (hlaw.events e he).1⟩
    · obtain ⟨-, rfl⟩ := commit_eq_error.mp hroll
      exact ⟨rfl, hlaw⟩

/-- Where the walk is that has passed the blocks `front`. -/
structure Passed (tree : ChainTree) (c tip : BlockHash) (front : List BlockHash)
    (vars : PassVars) (s : Store) : Prop where
  placed : Placed tree (tree.lines.shared c tip ++ front) s
  law : OnLine tree s
  lastSeen : ∀ b, vars.lastSeen = some b → ∃ before, front = before ++ [b]

/-- One block more, and nothing to apply. -/
theorem Passed.skip {vars vars' : PassVars} {s : Store} (h : Passed tree c tip front vars s)
    (hseen : vars'.lastSeen = some b) : Passed tree c tip (front ++ [b]) vars' s where
  placed := h.placed.mono (by rw [← List.append_assoc]; exact List.subset_append_left _ _)
  law := h.law
  lastSeen x hx := ⟨front, by rw [Option.some.inj (hseen.symm.trans hx)]⟩

/-- The block has been applied. -/
theorem Passed.settled {vars vars' : PassVars} {s s' : Store}
    (h : Passed tree c tip front vars s) (hadded : tree.lines.apart c tip = front ++ b :: rest)
    (hplaced : Placed tree (tree.lines.shared c tip ++ (front ++ [b])) s')
    (hmoved : s' = s ∨ s'.cursor = some b) (hseen : vars'.lastSeen = some b) :
    Passed tree c tip (front ++ [b]) vars' s' where
  placed := hplaced
  law := by
    rcases hmoved with rfl | hcursor
    · exact h.law
    · rw [OnLine, ChainTree.lineOf, hcursor]
      change Placed tree (tree.lines.path b) s'
      rw [tree.lines.path_of_apart hadded]
      exact hplaced
  lastSeen x hx := ⟨front, by rw [Option.some.inj (hseen.symm.trans hx)]⟩

/-- A block of the walk is not among the blocks before it. -/
theorem not_mem_passed (hadded : tree.lines.apart c tip = front ++ b :: rest) :
    b ∉ tree.lines.shared c tip ++ front := by
  have hnodup := tree.lines.nodup b
  rw [tree.lines.path_of_apart hadded, ← List.append_assoc, List.nodup_append] at hnodup
  exact fun hmem ↦ hnodup.2.2 b hmem b List.mem_cons_self rfl

/-- What the loop does with a batch is announced. -/
theorem announces_settle {vars vars' : PassVars} {batch : AcceptedBlockBatch}
    (h : Passed tree c tip front vars s.1)
    (hadded : tree.lines.apart c tip = front ++ b :: rest) (hblock : batch.acceptingBlock = b)
    (hheader : batch.acceptingDaa = (tree.header b).daaScore) (hseen : vars'.lastSeen = some b) :
    Announces tree (Passed tree c tip (front ++ [b])) (settleUpdating dec vars' batch) s := by
  subst hblock
  unfold settleUpdating
  split
  · refine echo_commit_emit (Q := fun _ ↦ Passed tree c tip (front ++ [batch.acceptingBlock]) vars')
      (fun committed s₁ happly ↦ ?_) (fun e s₁ happly ↦ ?_) fun committed s₁ hpost ↦
        echo_pure ⟨hpost.placed, hpost.law, hpost.lastSeen⟩
    · obtain ⟨hplaced, hlog, hmoved⟩ :=
        h.placed.applied (not_mem_passed hadded) hheader happly
      rw [List.append_assoc] at hplaced
      rw [updateCommitted_deliveries]
      exact ⟨hlog, h.settled hadded hplaced hmoved hseen⟩
    · obtain ⟨-, rfl⟩ := commit_eq_error.mp happly
      exact ⟨rfl, h.law⟩
  · rename_i hevents
    rw [not_not] at hevents
    split
    · refine Echo.bind (Q := fun _ ↦ Passed tree c tip (front ++ [batch.acceptingBlock]) vars')
        (echo_beside (fun committed s₁ happly ↦ ?_) fun e s₁ happly ↦ ?_) fun committed s₁ hpost ↦
          echo_pure ⟨hpost.placed, hpost.law, hpost.lastSeen⟩
      · have hmoved := applyBatch_ok happly
        obtain ⟨hplaced, hlog, -⟩ := (h.skip hseen).placed.quiet hevents happly
        refine ⟨hlog, h.settled hadded hplaced ?_ hseen⟩
        rcases hmoved.2 with ⟨-, rfl⟩ | ⟨-, rfl⟩
        · exact .inl rfl
        · exact .inr rfl
      · obtain ⟨-, rfl⟩ := commit_eq_error.mp happly
        exact ⟨rfl, h.law⟩
    · exact echo_pure (h.skip hseen)

/-- **One block of the walk is announced.** -/
theorem announces_block (hnode : tree.Tells tip node) {vars : PassVars}
    (h : Passed tree c tip front vars s.1)
    (hadded : tree.lines.apart c tip = front ++ b :: rest) :
    Announces tree (Passed tree c tip (front ++ [b]))
      (blockUpdating compute dec node decoder vars (tree.accepted b)) s := by
  refine Echo.bind (Q := fun accepting s₁ ↦ accepting = tree.header b ∧
    Passed tree c tip front vars s₁)
      (echo_beside (fun accepting s₁ hserved ↦ ?_) fun e s₁ hfail ↦ ?_)
      fun accepting s₁ hpost ↦ ?_
  · obtain ⟨hblock, rfl⟩ := answer_eq_ok.mp hserved
    exact ⟨rfl, hnode.serves _ _ hblock, h⟩
  · obtain ⟨-, rfl⟩ := answer_eq_error.mp hfail
    exact ⟨rfl, h.law⟩
  · obtain ⟨rfl, hpassed⟩ := hpost
    dsimp only
    split
    · refine echo_beside (fun vars s₂ hok ↦ ?_) fun e s₂ hfail ↦ ?_
      · cases (answer_eq_ok.mp hok).1
      · obtain ⟨-, rfl⟩ := answer_eq_error.mp hfail
        exact ⟨rfl, hpassed.law⟩
    · refine Echo.bind (Q := fun batch s₂ ↦ batch.acceptingBlock = b ∧
        batch.acceptingDaa = (tree.header b).daaScore ∧ Passed tree c tip front vars s₂)
          (echo_beside (fun batch s₂ hread ↦ ?_) fun e s₂ hfail ↦ ?_) fun batch s₂ hpost ↦ ?_
      · obtain ⟨rfl, rfl⟩ := read_eq_ok.mp hread
        exact ⟨rfl, classify_acceptingBlock .., classify_acceptingDaa .., hpassed⟩
      · exact absurd hfail read_ne_error
      · obtain ⟨hblock, hheader, hpassed⟩ := hpost
        refine (announces_settle hpassed hadded hblock hheader rfl).bind fun vars' s₃ hpost ↦ ?_
        refine (echo_emit (Q := fun _ ↦ Passed tree c tip (front ++ [b]) vars') ?_ hpost).bind
          fun _ s₄ hpost ↦ echo_pure hpost
        split
        · rfl
        · rfl

theorem announces_walk (hnode : tree.Tells tip node)
    (h : Placed tree (tree.lines.shared c tip) s.1 ∧ OnLine tree s.1) :
    Announces tree (Passed tree c tip (tree.lines.apart c tip))
      (walkUpdating compute dec node decoder (tree.chainStep c tip)) s := by
  unfold walkUpdating ChainTree.chainStep
  rw [List.foldlM_map]
  refine Echo.foldlM (I := Passed tree c tip) (fun front b rest hadded vars s₁ hpassed ↦
    announces_block hnode hpassed hadded) ⟨?_, h.2, fun b hb ↦ nomatch hb⟩
  rw [List.append_nil]
  exact h.1

/-- The final checkpoint. -/
theorem announces_close {vars : PassVars}
    (h : Passed tree c tip (tree.lines.apart c tip) vars s.1) :
    Announces tree (fun _ ↦ OnLine tree) (beside (closePass dec vars)) s := by
  refine echo_beside (fun stats s₁ hclose ↦ ?_) fun e s₁ hclose ↦ ?_
  · rcases closePass_ok hclose with ⟨rfl, -⟩ | ⟨cursor, committed, hseen, -, happly⟩
    · exact ⟨rfl, h.law⟩
    · obtain ⟨before, hbefore⟩ := h.lastSeen cursor hseen
      obtain ⟨hplaced, hlog, -⟩ := h.placed.quiet rfl happly
      refine ⟨hlog, ?_⟩
      rcases (applyBatch_ok happly).2 with ⟨-, rfl⟩ | ⟨-, rfl⟩
      · exact h.law
      · change Placed tree (tree.lines.path cursor) _
        rw [tree.lines.path_of_apart hbefore, ← hbefore]
        exact hplaced
  · rw [closePass_error hclose]
    exact ⟨rfl, h.law⟩

variable (compute dec fromBlock decoder) in
/-- **A pass announces the records it appends**, whether it returns or fails. -/
theorem announces_syncOnce (hnode : tree.Tells tip node) (h : OnLine tree s.1) :
    Announces tree (fun _ ↦ OnLine tree)
      (syncOnceUpdating compute dec node fromBlock decoder) s := by
  refine (announces_openPass h).bind fun c s₁ hopened ↦ ?_
  refine Echo.bind (Q := fun step s₂ ↦ step = tree.chainStep c tip ∧
    Placed tree (tree.lines.path c) s₂ ∧ OnLine tree s₂)
      (echo_beside (fun step s₂ hstep ↦ ?_) fun e s₂ hfail ↦ ?_) fun step s₂ hpost ↦ ?_
  · obtain ⟨hwalk, rfl⟩ := answer_eq_ok.mp hstep
    exact ⟨rfl, hnode.walks _ _ hwalk, hopened⟩
  · obtain ⟨-, rfl⟩ := answer_eq_error.mp hfail
    exact ⟨rfl, hopened.2⟩
  · obtain ⟨rfl, hopened⟩ := hpost
    refine (announces_rollback hopened).bind fun _ s₃ hrolled ↦ ?_
    exact (announces_walk hnode hrolled).bind fun vars s₄ hwalked ↦ announces_close hwalked

end Echo

/-! ## The follower -/

/-- What the follower does with the chain in its store: passes, and recoveries of a wedged
cursor.  The token tables, the transaction indices and the subscriptions, which it writes as well,
are no part of the log. -/
inductive FollowerCall where
  | pass (call : PassCall)
  | recover (node : PassSource) (faults : RecoveryFaults)

/-- What comes of it for the streams: an update, which is published, or the records that a
recovery has committed. -/
inductive FollowerEvent where
  | update (update : SyncUpdate)
  | recovered (records : List DeliveryRecord)
deriving DecidableEq, Repr

/-- The records committed. -/
def FollowerEvent.records : FollowerEvent → List DeliveryRecord
  | update u => u.deliveries
  | recovered records => records

/-- The records published, one by one: those of updates. -/
def FollowerEvent.published : FollowerEvent → List DeliveryRecord
  | update u => u.deliveries
  | recovered _ => []

section Follower

variable (compute : ComputeCovenantId) (dec : Decoders)

/-- One call of `follow_forever`. -/
def FollowerCall.after (f : Store × List FollowerEvent) :
    FollowerCall → Store × List FollowerEvent
  | pass call =>
      let f' := (syncOnceUpdating compute dec call.node call.fromBlock call.decoder (f.1, [])).2
      (f'.1, f.2 ++ f'.2.map .update)
  | recover node faults =>
      let s := (recoverWedgedCursor node faults f.1).1
      (s, f.2 ++ [.recovered (s.deliveryLog.drop f.1.deliveryLog.length)])

/-- A run of the follower. -/
def followerRun (f : Store × List FollowerEvent) (calls : List FollowerCall) :
    Store × List FollowerEvent :=
  calls.foldl (FollowerCall.after compute dec) f

/-- The store after a call, whatever is announced. -/
def FollowerCall.store (s : Store) : FollowerCall → Store
  | pass call => (call.sync compute dec s).2
  | recover node faults => (recoverWedgedCursor node faults s).1

/-- A call restarts the cursor at the node's sink: the last resort of a recovery. -/
def FollowerCall.resets (s : Store) : FollowerCall → Bool
  | pass _ => false
  | recover node faults => (recoverWedgedCursor node faults s).2 matches some (.reset _)

/-- No call of a run restarts the cursor. -/
def unreset : Store → List FollowerCall → Bool
  | _, [] => true
  | s, call :: calls => !call.resets s && unreset (call.store compute dec s) calls

variable (tree : ChainTree)

/-- The node of a pass tells of the tree.  Of the node of a recovery nothing is assumed. -/
def FollowerCall.Tells : FollowerCall → Prop
  | pass call => tree.Tells call.tip call.node
  | recover _ _ => True

/-- DAA scores rise along every line. -/
def ChainTree.Rising : Prop :=
  ∀ tip, (tree.lines.path tip).Pairwise fun a b ↦
    (tree.header a).daaScore < (tree.header b).daaScore

variable {compute dec tree} {s s' : Store}

/-- A block that scores no more than another one of its line comes before it. -/
theorem ChainTree.Rising.mem_path (htree : tree.Rising) {a b tip : BlockHash}
    (ha : a ∈ tree.lines.path tip) (hb : b ∈ tree.lines.path tip)
    (hdaa : (tree.header b).daaScore ≤ (tree.header a).daaScore) : b ∈ tree.lines.path a := by
  have hself : b ∈ tree.lines.path b := by
    obtain ⟨front, hfront⟩ := tree.lines.ends b
    rw [hfront]
    exact List.mem_append_right _ (List.mem_singleton_self b)
  rcases List.prefix_or_prefix_of_prefix (tree.lines.begins a tip ha)
    (tree.lines.begins b tip hb) with hle | hle
  · obtain ⟨frontA, ha'⟩ := tree.lines.ends a
    obtain ⟨frontB, hb'⟩ := tree.lines.ends b
    obtain ⟨more, hmore⟩ := hle
    rcases List.eq_nil_or_concat more with rfl | ⟨rest, x, rfl⟩
    · rw [← hmore, List.append_nil] at hself
      exact hself
    · -- then `a` comes strictly before `b`, and scores less
      rw [List.concat_eq_append, hb', ← List.append_assoc] at hmore
      obtain ⟨hfront, hx⟩ := List.append_inj' hmore rfl
      have hrise := htree b
      rw [hb', ← hfront, ha', List.pairwise_append] at hrise
      have hlt := hrise.2.2 a (List.mem_append_left _
        (List.mem_append_right _ (List.mem_singleton_self a))) b (List.mem_singleton_self b)
      omega
  · exact hle.subset hself

/-- **A recovery keeps the records on the line of the cursor.** -/
theorem Placed.reAnchor (htree : tree.Rising) (h : OnLine tree s)
    {virtualChainFrom : BlockHash → Result ChainStep} {out : ReAnchor}
    (hok : Kascov.reAnchor virtualChainFrom s = .ok (s', out)) :
    OnLine tree s' ∧ s.deliveryLog <+: s'.deliveryLog := by
  rcases reAnchor_ok hok with ⟨rfl, -⟩ | ⟨anchor, daa, rolled, -, ⟨e, he, rfl, rfl⟩, hrolled, rfl⟩
  · exact ⟨h, List.prefix_refl _⟩
  · have honline : ∀ x ∈ s.covenantEvents, x.acceptingBlock ∉ canonicalRemoved s
        (acceptingBlocksAbove s e.acceptingDaa) →
          x.acceptingBlock ∈ tree.lines.path e.acceptingBlock := by
      intro x hx hkeep
      obtain ⟨hxline, hxdaa⟩ := h.events x hx
      obtain ⟨heline, hedaa⟩ := h.events e he
      have hlow : ¬e.acceptingDaa < x.acceptingDaa := fun habove ↦
        hkeep (mem_canonicalRemoved.mpr ⟨mem_acceptingBlocksAbove.mpr ⟨x, hx, rfl, habove⟩,
          h.chain.canonical x hx⟩)
      unfold ChainTree.lineOf at hxline heline
      cases hcursor : s.cursor with
      | none =>
          rw [hcursor] at hxline
          cases hxline
      | some c =>
          rw [hcursor] at hxline heline
          refine htree.mem_path heline hxline ?_
          rw [← hxdaa, ← hedaa]
          exact Nat.not_lt.mp hlow
    rcases hrolled with ⟨rfl, hnil⟩ | rfl
    · refine ⟨Placed.checkpointCursor ⟨h.log, h.chain, fun x hx ↦ ⟨?_, (h.events x hx).2⟩,
        h.sources⟩ _ _, List.prefix_refl _⟩
      exact honline x hx (hnil ▸ List.not_mem_nil)
    · exact ⟨(h.rolledBack honline).checkpointCursor _ _, List.prefix_append _ _⟩

/-- The same of a recovery that does not restart the cursor. -/
theorem Placed.recover (htree : tree.Rising) (h : OnLine tree s) {node : PassSource}
    {faults : RecoveryFaults}
    (hkept : (FollowerCall.recover node faults).resets s = false) :
    OnLine tree (recoverWedgedCursor node faults s).1 ∧
      s.deliveryLog <+: (recoverWedgedCursor node faults s).1.deliveryLog := by
  rcases recoverWedgedCursor_cases node faults s with hsame | ⟨s', out, hre, hs'⟩ | ⟨sink, hreset⟩
  · rw [hsame]
    exact ⟨h, List.prefix_refl _⟩
  · rw [hs']
    exact h.reAnchor htree hre
  · rw [FollowerCall.resets, hreset] at hkept
    cases hkept

variable (compute dec)

theorem FollowerCall.after_store (f : Store × List FollowerEvent) (call : FollowerCall) :
    (call.after compute dec f).1 = call.store compute dec f.1 := by
  cases call with
  | pass call => exact (syncOnceUpdating_shadows (f.1, [])).2
  | recover node faults => rfl

/-- One call appends to the log what it brings the streams. -/
theorem FollowerCall.after_law (htree : tree.Rising) {f : Store × List FollowerEvent}
    (h : OnLine tree f.1) {call : FollowerCall} (htells : call.Tells tree)
    (hkept : call.resets f.1 = false) :
    OnLine tree (call.after compute dec f).1 ∧
      ∃ more, (call.after compute dec f).2 = f.2 ++ more ∧
        (call.after compute dec f).1.deliveryLog =
          f.1.deliveryLog ++ more.flatMap FollowerEvent.records := by
  cases call with
  | pass call =>
      obtain ⟨more, hlog, hview, hpost⟩ := announces_syncOnce compute dec call.fromBlock
        call.decoder (s := (f.1, [])) htells h
      refine ⟨?_, more.map .update, ?_, ?_⟩
      · split at hpost
        · exact hpost
        · exact hpost
      · rw [FollowerCall.after, hlog]
        rfl
      · rw [List.flatMap_map]
        exact hview
  | recover node faults =>
      obtain ⟨hlaw, hbefore⟩ := h.recover htree hkept
      refine ⟨hlaw, _, rfl, ?_⟩
      rw [List.flatMap_singleton]
      exact (List.prefix_iff_eq_append.mp hbefore).symm

theorem followerRun_law (htree : tree.Rising) {f : Store × List FollowerEvent}
    (h : OnLine tree f.1) (hlog : f.1.deliveryLog = f.2.flatMap FollowerEvent.records)
    {calls : List FollowerCall} (htells : ∀ call ∈ calls, call.Tells tree)
    (hkept : unreset compute dec f.1 calls = true) :
    OnLine tree (followerRun compute dec f calls).1 ∧
      (followerRun compute dec f calls).1.deliveryLog =
        (followerRun compute dec f calls).2.flatMap FollowerEvent.records := by
  induction calls generalizing f with
  | nil => exact ⟨h, hlog⟩
  | cons call calls ih =>
      rw [unreset, Bool.and_eq_true, Bool.not_eq_true'] at hkept
      obtain ⟨hlaw, more, hevents, hmore⟩ :=
        FollowerCall.after_law compute dec htree h (htells call List.mem_cons_self) hkept.1
      refine ih hlaw ?_ (fun x hx ↦ htells x (List.mem_cons_of_mem _ hx)) ?_
      · rw [hmore, hevents, List.flatMap_append, hlog]
      · rw [FollowerCall.after_store]
        exact hkept.2

theorem followerRun_store (f : Store × List FollowerEvent) (calls : List FollowerCall) :
    (followerRun compute dec f calls).1 = calls.foldl (FollowerCall.store compute dec) f.1 := by
  induction calls generalizing f with
  | nil => rfl
  | cons call calls ih =>
      rw [List.foldl_cons, ← FollowerCall.after_store]
      exact ih _

theorem followerRun_epoch (f : Store × List FollowerEvent) (calls : List FollowerCall) :
    (followerRun compute dec f calls).1.streamEpoch = f.1.streamEpoch := by
  rw [followerRun_store]
  generalize f.1 = s
  induction calls generalizing s with
  | nil => rfl
  | cons call calls ih =>
      rw [List.foldl_cons, ih]
      cases call with
      | pass call =>
          exact keeps_syncOnce (P := fun s₁ ↦ s₁.streamEpoch = s.streamEpoch) (fun _ _ h ↦ h)
            (fun _ _ h _ ↦ h) (fun _ _ h ↦ h) s rfl
      | recover node faults =>
          rw [FollowerCall.store]
          rcases recoverWedgedCursor_cases node faults s with hsame | ⟨s', out, hre, hs'⟩ |
            ⟨sink, hreset⟩
          · rw [hsame]
          · rw [hs']
            rcases reAnchor_ok hre with ⟨rfl, -⟩ | ⟨_, _, _, -, -, ⟨rfl, -⟩ | rfl, rfl⟩
            · rfl
            · rfl
            · rfl
          · rw [hreset]
            rfl

theorem published_sublist (events : List FollowerEvent) :
    (events.flatMap FollowerEvent.published).Sublist (events.flatMap FollowerEvent.records) := by
  induction events with
  | nil => exact List.Sublist.slnil
  | cons event events ih =>
      rw [List.flatMap_cons, List.flatMap_cons]
      refine List.Sublist.append ?_ ih
      cases event with
      | update u => exact List.Sublist.refl _
      | recovered records => exact List.nil_sublist _

/-- **The follower publishes what it commits.**  However the passes of a run turn and fail, as
long as no recovery restarts the cursor, the log is what its updates carry and its recoveries
commit, in order.  No record is published twice, and what is stored does not depend on the
updates. -/
theorem followerRun_published (htree : tree.Rising) (epoch : StreamEpoch)
    {calls : List FollowerCall} (htells : ∀ call ∈ calls, call.Tells tree)
    (hkept : unreset compute dec (.fresh epoch) calls = true) :
    (followerRun compute dec (.fresh epoch, []) calls).1 =
        calls.foldl (FollowerCall.store compute dec) (.fresh epoch) ∧
      (followerRun compute dec (.fresh epoch, []) calls).1.deliveryLog =
        (followerRun compute dec (.fresh epoch, []) calls).2.flatMap FollowerEvent.records ∧
      ((followerRun compute dec (.fresh epoch, []) calls).2.flatMap
        FollowerEvent.published).Pairwise (·.cursor.seq < ·.cursor.seq) := by
  obtain ⟨hlaw, hlog⟩ := followerRun_law compute dec (f := (.fresh epoch, []))
    htree (Placed.fresh tree epoch) rfl htells hkept
  refine ⟨followerRun_store compute dec _ _, hlog, ?_⟩
  have hsublist := published_sublist (followerRun compute dec (.fresh epoch, []) calls).2
  rw [← hlog] at hsublist
  exact hlaw.log.numbered.increasing.sublist hsublist

end Follower

theorem sampleTree_rising : sampleTree.Rising :=
  sampleLine_cases _ (by decide) (by decide) (by decide) (by decide) fun b hb ↦ by
    change (sampleLine b).Pairwise _
    rw [hb]
    exact List.pairwise_singleton _ _

/-- A pass to block 2, two passes that meet the turn to block 12, the first of which fails, and
a recovery in between, whose calls fail but for that of the sink. -/
def sampleFollowing : List FollowerCall :=
  [.pass (sampleCall ⟨2⟩ []), .pass (sampleCall ⟨12⟩ [⟨12⟩]),
    .recover (sampleCall ⟨12⟩ []).node
      { probe := fun _ ↦ some (.rpc "stranded"), sinkWalk := some (.rpc "stranded") },
    .pass (sampleCall ⟨12⟩ [])]

theorem sampleFollowing_tells : ∀ call ∈ sampleFollowing, call.Tells sampleTree := by
  intro call hcall
  simp only [sampleFollowing, List.mem_cons, List.not_mem_nil, or_false] at hcall
  rcases hcall with rfl | rfl | rfl | rfl
  · exact sampleNode_tells _ _
  · exact sampleNode_tells _ _
  · trivial
  · exact sampleNode_tells _ _

theorem sampleFollowing_unreset :
    unreset sampleCodecs.compute .blind (.fresh ⟨0⟩) sampleFollowing = true := by decide +kernel

/-- The records of the log are those published: the turn has been announced once. -/
theorem sampleFollowing_published :
    (followerRun sampleCodecs.compute .blind (.fresh ⟨0⟩, []) sampleFollowing).1.deliveryLog =
        (followerRun sampleCodecs.compute .blind (.fresh ⟨0⟩, []) sampleFollowing).2.flatMap
          FollowerEvent.published ∧
      (followerRun sampleCodecs.compute .blind (.fresh ⟨0⟩, []) sampleFollowing).1.deliveryLog.map
        (·.kind) = [.accepted, .accepted, .removed, .accepted] := by
  have hrun := followerRun_published sampleCodecs.compute .blind sampleTree_rising ⟨0⟩
    sampleFollowing_tells sampleFollowing_unreset
  refine ⟨?_, by decide +kernel⟩
  rw [hrun.2.1]
  decide +kernel

/-- A recovery that restarts the cursor at the sink of a node that is behind: the pass after it
publishes the record of block 2 once more. -/
example :
    ((followerRun sampleCodecs.compute .blind (.fresh ⟨0⟩, [])
      [.pass (sampleCall ⟨2⟩ []),
        .recover (sampleNode ⟨1⟩ []) { probe := fun _ ↦ some (.rpc "timed out")
                                       cursorBlock := some (.rpc "timed out") },
        .pass (sampleCall ⟨2⟩ [])]).2.flatMap FollowerEvent.published).map (·.cursor.seq) =
      [1, 2, 2] := by
  decide +kernel

end Kascov
