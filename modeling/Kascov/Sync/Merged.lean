import Kascov.Order.Follower
import Kascov.Sync.Recover

/-!
# What a merge leaves in the store

A store holds a batch when its events are recorded, its cells exist, and the
cells it spends are spent.  A merge makes the store hold its batch, no later
merge or finalisation takes that away, and a batch that is held can be merged
again without effect.
-/

namespace Kascov

/-! ## Cells -/

/-- A cell of the outpoint exists. -/
def Taken (rows : List UtxoRow) (o : Outpoint) : Prop := ∃ row ∈ rows, row.outpoint = o

/-- A cell of the outpoint exists, and is spent. -/
structure Settled (rows : List UtxoRow) (o : Outpoint) : Prop where
  taken : Taken rows o
  spent : ∀ row ∈ rows, row.outpoint = o → row.spentBlock ≠ none

section Cells

variable (dec : Decoders) (block : AcceptedBlockBatch)

theorem mergeCreated_taken (acc : List UtxoRow × MergeCounts) (utxo : NewUtxo) {o : Outpoint}
    (h : Taken acc.1 o) : Taken (mergeCreated dec block acc utxo).1 o := by
  unfold mergeCreated
  split
  · exact h
  · obtain ⟨row, hrow, heq⟩ := h
    exact ⟨row, List.mem_append_left _ hrow, heq⟩

theorem mergeCreated_self (acc : List UtxoRow × MergeCounts) (utxo : NewUtxo) :
    Taken (mergeCreated dec block acc utxo).1 utxo.outpoint := by
  unfold mergeCreated
  split
  · rename_i hany
    obtain ⟨row, hrow, heq⟩ := List.any_eq_true.mp hany
    exact ⟨row, hrow, of_decide_eq_true heq⟩
  · exact ⟨createdRow dec block utxo, List.mem_append_right _ List.mem_cons_self, rfl⟩

theorem mergeCreated_settled (acc : List UtxoRow × MergeCounts) (utxo : NewUtxo) {o : Outpoint}
    (h : Settled acc.1 o) : Settled (mergeCreated dec block acc utxo).1 o := by
  refine ⟨mergeCreated_taken dec block acc utxo h.taken, ?_⟩
  unfold mergeCreated
  split
  · exact h.spent
  · rename_i hany
    intro row hrow heq
    rcases List.mem_append.mp hrow with hrow | hrow
    · exact h.spent row hrow heq
    · obtain ⟨old, hold, holdeq⟩ := h.taken
      refine absurd (List.any_eq_true.mpr ⟨old, hold, decide_eq_true ?_⟩) hany
      rw [holdeq, ← heq, List.mem_singleton.mp hrow]
      rfl

theorem mergeSpent_outpoint (acc : List UtxoRow × MergeCounts) (spent : SpentUtxo) :
    (mergeSpent dec block acc spent).1.map (·.outpoint) = acc.1.map (·.outpoint) := by
  rw [mergeSpent, List.map_map]
  refine List.map_congr_left fun row _ ↦ ?_
  rw [Function.comp_apply]
  split <;> rfl

theorem taken_iff {rows : List UtxoRow} {o : Outpoint} :
    Taken rows o ↔ o ∈ rows.map (·.outpoint) := by
  rw [List.mem_map]
  exact Iff.rfl

theorem mergeSpent_taken (acc : List UtxoRow × MergeCounts) (spent : SpentUtxo) {o : Outpoint} :
    Taken (mergeSpent dec block acc spent).1 o ↔ Taken acc.1 o := by
  rw [taken_iff, mergeSpent_outpoint, taken_iff]

theorem mergeSpent_settled (acc : List UtxoRow × MergeCounts) (spent : SpentUtxo) {o : Outpoint}
    (h : Settled acc.1 o) : Settled (mergeSpent dec block acc spent).1 o := by
  refine ⟨(mergeSpent_taken dec block acc spent).mpr h.taken, fun row hrow heq ↦ ?_⟩
  obtain ⟨old, hold, rfl⟩ := List.mem_map.mp hrow
  by_cases hlive : old.outpoint = spent.outpoint ∧ old.spentBlock = none
  · rw [if_pos hlive]
    exact Option.some_ne_none _
  · rw [if_neg hlive] at heq ⊢
    exact h.spent old hold heq

theorem mergeSpent_self (acc : List UtxoRow × MergeCounts) (spent : SpentUtxo)
    (h : Taken acc.1 spent.outpoint) :
    Settled (mergeSpent dec block acc spent).1 spent.outpoint := by
  refine ⟨(mergeSpent_taken dec block acc spent).mpr h, fun row hrow heq ↦ ?_⟩
  obtain ⟨old, hold, rfl⟩ := List.mem_map.mp hrow
  by_cases hlive : old.outpoint = spent.outpoint ∧ old.spentBlock = none
  · rw [if_pos hlive]
    exact Option.some_ne_none _
  · rw [if_neg hlive] at heq ⊢
    exact fun hnone ↦ hlive ⟨heq, hnone⟩

end Cells

/-! ## Stores that only grow -/

/-- The events recorded stay recorded, the cells stay, and the spent ones stay
spent. -/
structure Grows (s s' : Store) : Prop where
  events : ∀ event, recorded s.covenantEvents event = true →
    recorded s'.covenantEvents event = true
  taken : ∀ o, Taken s.covenantUtxos o → Taken s'.covenantUtxos o
  settled : ∀ o, Settled s.covenantUtxos o → Settled s'.covenantUtxos o

theorem Grows.trans {a b c : Store} (hab : Grows a b) (hbc : Grows b c) : Grows a c :=
  ⟨fun e h ↦ hbc.events e (hab.events e h), fun o h ↦ hbc.taken o (hab.taken o h),
    fun o h ↦ hbc.settled o (hab.settled o h)⟩

/-- The two tables are what counts. -/
theorem Grows.of_eq {s s' : Store} (hevents : s'.covenantEvents = s.covenantEvents)
    (hcells : s'.covenantUtxos = s.covenantUtxos) : Grows s s' :=
  ⟨fun _ h ↦ by rwa [hevents], fun _ h ↦ by rwa [hcells], fun _ h ↦ by rwa [hcells]⟩

theorem mergeEvent_utxos (dec : Decoders) (block : AcceptedBlockBatch)
    (acc : Store × MergeCounts) (event : NewEvent) :
    (mergeEvent dec block acc event).1.covenantUtxos = acc.1.covenantUtxos := by
  unfold mergeEvent
  split <;> rfl

theorem mergeEvent_recorded (dec : Decoders) (block : AcceptedBlockBatch)
    (acc : Store × MergeCounts) (event : NewEvent) {other : NewEvent}
    (h : recorded acc.1.covenantEvents other = true) :
    recorded (mergeEvent dec block acc event).1.covenantEvents other = true := by
  unfold mergeEvent
  split
  · exact h
  · obtain ⟨row, hrow, heq⟩ := List.any_eq_true.mp h
    exact List.any_eq_true.mpr ⟨row, List.mem_append_left _ hrow, heq⟩

theorem mergeEvent_self (dec : Decoders) (block : AcceptedBlockBatch)
    (acc : Store × MergeCounts) (event : NewEvent) :
    recorded (mergeEvent dec block acc event).1.covenantEvents event = true := by
  unfold mergeEvent
  split
  · assumption
  · exact List.any_eq_true.mpr ⟨_, List.mem_append_right _ List.mem_cons_self,
      decide_eq_true ⟨rfl, rfl⟩⟩

/-- The cells after a merge. -/
def mergedCells (dec : Decoders) (s : Store) (block : AcceptedBlockBatch) :
    List UtxoRow × MergeCounts :=
  block.spentUtxos.foldl (mergeSpent dec block)
    (block.createdUtxos.foldl (mergeCreated dec block) (s.covenantUtxos, {}))

theorem mergeRecoveredBlock_utxos (dec : Decoders) (s : Store) (block : AcceptedBlockBatch) :
    (mergeRecoveredBlock dec s block).1.covenantUtxos = (mergedCells dec s block).1 :=
  Rows.foldl_keeps (P := fun acc : Store × MergeCounts ↦
      acc.1.covenantUtxos = (mergedCells dec s block).1)
    (fun acc event h ↦ (mergeEvent_utxos dec block acc event).trans h) block.events rfl

theorem grows_mergeRecoveredBlock (dec : Decoders) (s : Store) (block : AcceptedBlockBatch) :
    Grows s (mergeRecoveredBlock dec s block).1 := by
  refine ⟨fun event h ↦ ?_, fun o h ↦ ?_, fun o h ↦ ?_⟩
  · exact Rows.foldl_keeps (P := fun acc : Store × MergeCounts ↦
        recorded acc.1.covenantEvents event = true)
      (fun acc other h ↦ mergeEvent_recorded dec block acc other h) block.events h
  · rw [mergeRecoveredBlock_utxos]
    refine Rows.foldl_keeps (P := fun acc : List UtxoRow × MergeCounts ↦ Taken acc.1 o)
      (fun acc spent h ↦ (mergeSpent_taken dec block acc spent).mpr h) _ ?_
    exact Rows.foldl_keeps (P := fun acc : List UtxoRow × MergeCounts ↦ Taken acc.1 o)
      (fun acc utxo h ↦ mergeCreated_taken dec block acc utxo h) _ h
  · rw [mergeRecoveredBlock_utxos]
    refine Rows.foldl_keeps (P := fun acc : List UtxoRow × MergeCounts ↦ Settled acc.1 o)
      (fun acc spent h ↦ mergeSpent_settled dec block acc spent h) _ ?_
    exact Rows.foldl_keeps (P := fun acc : List UtxoRow × MergeCounts ↦ Settled acc.1 o)
      (fun acc utxo h ↦ mergeCreated_settled dec block acc utxo h) _ h

/-- A renumbering keeps what is recorded. -/
theorem recorded_resequence {id : CovenantId} {rows : List EventRow} {event : NewEvent}
    (h : recorded rows event = true) : recorded (resequence id rows) event = true := by
  have hmap : ∀ {f : EventRow → EventRow} {rows : List EventRow},
      (∀ row, (f row).covenantId = row.covenantId ∧ (f row).txid = row.txid) →
      recorded rows event = true → recorded (rows.map f) event = true := by
    intro f rows hf h
    obtain ⟨row, hrow, heq⟩ := List.any_eq_true.mp h
    refine List.any_eq_true.mpr ⟨f row, List.mem_map_of_mem hrow, ?_⟩
    rw [(hf row).1, (hf row).2]
    exact heq
  unfold resequence
  dsimp only
  split
  · exact h
  · refine hmap (fun row ↦ by split <;> exact ⟨rfl, rfl⟩) ?_
    exact Rows.foldl_keeps (P := fun rows : List EventRow ↦ recorded rows event = true)
      (fun rows p h ↦ hmap (fun row ↦ by split <;> exact ⟨rfl, rfl⟩) h) _ h

theorem grows_finalizeGapRecovery (s : Store) (gapLo gapHi : Nat) (merged : MergeCounts) :
    Grows s (finalizeGapRecovery s gapLo gapHi merged) := by
  have hone : ∀ (s : Store) (id : CovenantId), Grows s (refreshCovenant s id) :=
    fun s id ↦ ⟨fun _ h ↦ recorded_resequence h, fun _ h ↦ h, fun _ h ↦ h⟩
  have hrefresh : Grows s ((coveredCovenants s gapLo gapHi).foldl refreshCovenant s) :=
    Rows.foldl_keeps (fun s' id h ↦ Grows.trans h (hone s' id)) _ (.of_eq rfl rfl)
  exact hrefresh.trans (.of_eq rfl rfl)

/-! ## Batches that are held -/

/-- The store holds what a batch contributes. -/
structure Held (s : Store) (batch : AcceptedBlockBatch) : Prop where
  events : ∀ event ∈ batch.events, recorded s.covenantEvents event = true
  created : ∀ utxo ∈ batch.createdUtxos, Taken s.covenantUtxos utxo.outpoint
  spent : ∀ spent ∈ batch.spentUtxos, Settled s.covenantUtxos spent.outpoint

theorem Held.mono {s s' : Store} {batch : AcceptedBlockBatch} (h : Held s batch)
    (hgrows : Grows s s') : Held s' batch :=
  ⟨fun event hevent ↦ hgrows.events event (h.events event hevent),
    fun utxo hutxo ↦ hgrows.taken _ (h.created utxo hutxo),
    fun spent hspent ↦ hgrows.settled _ (h.spent spent hspent)⟩

/-- The batch spends cells of the store or its own. -/
def SpendsKnown (s : Store) (batch : AcceptedBlockBatch) : Prop :=
  ∀ spent ∈ batch.spentUtxos, Taken s.covenantUtxos spent.outpoint ∨
    ∃ utxo ∈ batch.createdUtxos, utxo.outpoint = spent.outpoint

/-- A merge makes the store hold its batch. -/
theorem held_mergeRecoveredBlock {dec : Decoders} {s : Store} {batch : AcceptedBlockBatch}
    (h : SpendsKnown s batch) : Held (mergeRecoveredBlock dec s batch).1 batch := by
  have hcreated : ∀ utxo ∈ batch.createdUtxos,
      Taken (batch.createdUtxos.foldl (mergeCreated dec batch) (s.covenantUtxos, {})).1
        utxo.outpoint :=
    Rows.foldl_establishes
      (fun (utxo : NewUtxo) (acc : List UtxoRow × MergeCounts) ↦ Taken acc.1 utxo.outpoint)
      (mergeCreated_self dec batch)
      (fun acc _ other h ↦ mergeCreated_taken dec batch acc other h) _
  have hbefore : ∀ spent ∈ batch.spentUtxos,
      Taken (batch.createdUtxos.foldl (mergeCreated dec batch) (s.covenantUtxos, {})).1
        spent.outpoint := by
    intro spent hspent
    rcases h spent hspent with htaken | ⟨utxo, hutxo, heq⟩
    · exact Rows.foldl_keeps (P := fun acc : List UtxoRow × MergeCounts ↦
          Taken acc.1 spent.outpoint)
        (fun acc utxo h ↦ mergeCreated_taken dec batch acc utxo h) _ htaken
    · rw [← heq]
      exact hcreated utxo hutxo
  have hsettled : ∀ spent ∈ batch.spentUtxos,
      Taken (mergedCells dec s batch).1 spent.outpoint →
        Settled (mergedCells dec s batch).1 spent.outpoint :=
    Rows.foldl_establishes
      (fun (spent : SpentUtxo) (acc : List UtxoRow × MergeCounts) ↦
        Taken acc.1 spent.outpoint → Settled acc.1 spent.outpoint)
      (fun acc spent h ↦ mergeSpent_self dec batch acc spent
        ((mergeSpent_taken dec batch acc spent).mp h))
      (fun acc spent other h htaken ↦ mergeSpent_settled dec batch acc other
        (h ((mergeSpent_taken dec batch acc other).mp htaken))) _
  have hkeep : ∀ {o : Outpoint},
      Taken (batch.createdUtxos.foldl (mergeCreated dec batch) (s.covenantUtxos, {})).1 o →
        Taken (mergedCells dec s batch).1 o := by
    intro o htaken
    exact Rows.foldl_keeps (P := fun acc : List UtxoRow × MergeCounts ↦ Taken acc.1 o)
      (fun acc spent h ↦ (mergeSpent_taken dec batch acc spent).mpr h) _ htaken
  refine ⟨?_, fun utxo hutxo ↦ ?_, fun spent hspent ↦ ?_⟩
  · exact Rows.foldl_establishes
      (fun (event : NewEvent) (acc : Store × MergeCounts) ↦
        recorded acc.1.covenantEvents event = true)
      (mergeEvent_self dec batch)
      (fun acc _ other h ↦ mergeEvent_recorded dec batch acc other h) _
  · rw [mergeRecoveredBlock_utxos]
    exact hkeep (hcreated utxo hutxo)
  · rw [mergeRecoveredBlock_utxos]
    exact hsettled spent hspent (hkeep (hbefore spent hspent))

/-- **A batch that is held merges without effect.** -/
theorem Held.merge_eq (dec : Decoders) {s : Store} {batch : AcceptedBlockBatch}
    (h : Held s batch) : mergeRecoveredBlock dec s batch = (s, {}) := by
  have hcreated : batch.createdUtxos.foldl (mergeCreated dec batch) (s.covenantUtxos, {}) =
      (s.covenantUtxos, {}) := by
    refine Rows.foldl_fixed fun utxo hutxo ↦ ?_
    obtain ⟨row, hrow, heq⟩ := h.created utxo hutxo
    rw [mergeCreated, if_pos (List.any_eq_true.mpr ⟨row, hrow, decide_eq_true heq⟩)]
  have hspent : batch.spentUtxos.foldl (mergeSpent dec batch) (s.covenantUtxos, {}) =
      (s.covenantUtxos, {}) := by
    refine Rows.foldl_fixed fun spent hspent ↦ ?_
    have hnone : ∀ row ∈ s.covenantUtxos,
        ¬(row.outpoint = spent.outpoint ∧ row.spentBlock = none) :=
      fun row hrow hlive ↦ (h.spent spent hspent).spent row hrow hlive.1 hlive.2
    have hcount : s.covenantUtxos.countP (fun row ↦
        row.outpoint = spent.outpoint ∧ row.spentBlock = none) = 0 :=
      List.countP_eq_zero.mpr fun row hrow ↦ by simpa using hnone row hrow
    rw [mergeSpent, hcount, List.map_congr_left fun row hrow ↦ if_neg (hnone row hrow),
      List.map_id']
  have hevents : batch.events.foldl (mergeEvent dec batch) (s, {}) = (s, {}) := by
    refine Rows.foldl_fixed fun event hevent ↦ ?_
    rw [mergeEvent, if_pos (h.events event hevent)]
  simp only [mergeRecoveredBlock, hcreated, hspent]
  exact hevents

/-! ## Captures spend what is known -/

/-- The overlay of a block names cells the block creates, and every spend is of
such a cell or of one in the store. -/
structure Overlays (s : Store) (st : ClassifyState) : Prop where
  overlay : ∀ entry ∈ st.createdOverlay,
    ∃ utxo ∈ st.batch.createdUtxos, utxo.outpoint = entry.1
  spends : SpendsKnown s st.batch

theorem spentCell_known {s : Store} {overlay : List (Outpoint × CovenantId)} {o : Outpoint}
    {id : CovenantId} (h : spentCell s overlay o = some id) :
    Taken s.covenantUtxos o ∨ ∃ entry ∈ overlay, entry.1 = o := by
  unfold spentCell at h
  split at h
  · rename_i entry hentry
    have hkey := List.find?_some hentry
    exact .inr ⟨entry, List.mem_of_find?_eq_some hentry, of_decide_eq_true hkey⟩
  · obtain ⟨row, hrow, -⟩ := Option.map_eq_some_iff.mp h
    have hlive := List.find?_some hrow
    exact .inl ⟨row, List.mem_of_find?_eq_some hrow, (of_decide_eq_true hlive).1⟩

theorem Overlays.tx {compute : ComputeCovenantId} {s : Store} {decoder : ApplicationDecoder}
    {st : ClassifyState} (h : Overlays s st) (indexed : Nat × Transaction) :
    Overlays s (classifyTx compute s decoder st indexed) := by
  refine ⟨fun entry hentry ↦ ?_, fun spent hspent ↦ ?_⟩
  · rcases List.mem_append.mp hentry with hentry | hentry
    · obtain ⟨utxo, hutxo, rfl⟩ := List.mem_map.mp hentry
      exact ⟨utxo, List.mem_append_right _ (List.mem_reverse.mp hutxo), rfl⟩
    · obtain ⟨utxo, hutxo, heq⟩ := h.overlay entry hentry
      exact ⟨utxo, List.mem_append_left _ hutxo, heq⟩
  · rcases List.mem_append.mp hspent with hspent | hspent
    · rcases h.spends spent hspent with htaken | ⟨utxo, hutxo, heq⟩
      · exact .inl htaken
      · exact .inr ⟨utxo, List.mem_append_left _ hutxo, heq⟩
    · obtain ⟨pair, hpair, rfl⟩ := List.mem_map.mp hspent
      obtain ⟨input, -, hinput⟩ := List.mem_filterMap.mp hpair
      obtain ⟨id, hid, rfl⟩ := Option.map_eq_some_iff.mp hinput
      rcases spentCell_known hid with htaken | ⟨entry, hentry, heq⟩
      · exact .inl htaken
      · obtain ⟨utxo, hutxo, hkey⟩ := h.overlay entry hentry
        exact .inr ⟨utxo, List.mem_append_left _ hutxo, hkey.trans heq⟩

theorem captureBlock_spendsKnown (compute : ComputeCovenantId) (node : ChainSource) (s : Store)
    (accepted : AcceptedBlock) (accepting : Block) :
    SpendsKnown s (captureBlock compute node s accepted accepting) := by
  refine (Rows.foldl_keeps (P := Overlays s) (fun st indexed h ↦ h.tx indexed)
    (resolvedTxs node accepted accepting) ⟨?_, ?_⟩).spends
  · intro entry hentry
    cases hentry
  · intro spent hspent
    cases hspent

theorem captureBlock_acceptingBlock (compute : ComputeCovenantId) (node : ChainSource) (s : Store)
    (accepted : AcceptedBlock) (accepting : Block) :
    (captureBlock compute node s accepted accepting).acceptingBlock = accepted.acceptingBlock :=
  classify_acceptingBlock ..

end Kascov
