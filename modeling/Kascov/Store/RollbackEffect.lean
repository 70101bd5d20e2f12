import Kascov.Store.Effect

/-!
# What a rollback leaves behind

The closed form `rolledBackStore` of `Store::rollback_removed_blocks`: the
per-block loop is one filter and one map over each table, and the removal
writer appends one record for each accepted record of the removed blocks.
-/

namespace Kascov

open Fallible

/-! ## The removal records -/

namespace Store

/-- The log and its index with a run of records. -/
def appendDeliveries (s : Store) (records : List DeliveryRecord) : Store :=
  { s with
    deliveryLog := s.deliveryLog ++ records
    deliveryApplications := s.deliveryApplications ++ records.flatMap fun r ↦
      r.applications.map (applicationRow r.cursor.seq) }

theorem appendDeliveries_nil (s : Store) : s.appendDeliveries [] = s := by
  simp [appendDeliveries]

@[simp] theorem appendDeliveries_streamEpoch (s : Store) (records : List DeliveryRecord) :
    (s.appendDeliveries records).streamEpoch = s.streamEpoch := rfl

theorem appendDelivery_eq (s : Store) (r : DeliveryRecord) :
    s.appendDelivery r = s.appendDeliveries [r] := by
  simp [appendDelivery, appendDeliveries]

theorem appendDeliveries_append (s : Store) (xs ys : List DeliveryRecord) :
    (s.appendDeliveries xs).appendDeliveries ys = s.appendDeliveries (xs ++ ys) := by
  simp [appendDeliveries]

/-- Records that are not accepted ones leave a block's sources alone. -/
theorem acceptedSources_appendDeliveries (s : Store) {records : List DeliveryRecord}
    (h : ∀ r ∈ records, r.kind ≠ .accepted) (block : BlockHash) :
    (s.appendDeliveries records).acceptedSources block = s.acceptedSources block := by
  simp only [acceptedSources, appendDeliveries]
  cases s.canonicalBatches.find? (·.acceptingBlock = block) with
  | none => rfl
  | some row =>
      have hnil : records.filter
          (acceptedBetween block row.firstStreamSeq row.lastStreamSeq) = [] := by
        rw [List.filter_eq_nil_iff]
        intro r hr
        unfold acceptedBetween
        split
        · simp [h r hr]
        · simp
      simp [List.filter_append, hnil]

end Store

/-- The removal records of a run of sources, numbered on from `next`. -/
def removalsOf (epoch : StreamEpoch) (next : Nat) (sources : List DeliveryRecord) :
    List DeliveryRecord :=
  (sources.zipIdx next).map fun p ↦ removalOf epoch p.2 p.1

@[simp] theorem removalsOf_nil (epoch : StreamEpoch) (next : Nat) :
    removalsOf epoch next [] = [] := rfl

theorem removalsOf_append (epoch : StreamEpoch) (next : Nat) (xs ys : List DeliveryRecord) :
    removalsOf epoch next (xs ++ ys) =
      removalsOf epoch next xs ++ removalsOf epoch (next + xs.length) ys := by
  simp [removalsOf, List.zipIdx_append]

@[simp] theorem removalsOf_length (epoch : StreamEpoch) (next : Nat)
    (sources : List DeliveryRecord) :
    (removalsOf epoch next sources).length = sources.length := by
  simp [removalsOf]

theorem removalsOf_map_seq (epoch : StreamEpoch) (next : Nat)
    (sources : List DeliveryRecord) :
    (removalsOf epoch next sources).map (·.cursor.seq) =
      List.range' next sources.length := by
  simp [removalsOf, removalOf, Function.comp_def]

theorem mem_removalsOf {epoch : StreamEpoch} {next : Nat} {sources : List DeliveryRecord}
    {r : DeliveryRecord} (h : r ∈ removalsOf epoch next sources) :
    ∃ source ∈ sources, ∃ i, next ≤ i ∧ i < next + sources.length ∧
      r = removalOf epoch i source := by
  simp only [removalsOf, List.mem_map] at h
  obtain ⟨⟨source, i⟩, hp, rfl⟩ := h
  obtain ⟨hle, hlt, hget⟩ := List.mem_zipIdx hp
  exact ⟨source, hget ▸ List.getElem_mem _, i, hle, hlt, rfl⟩

theorem removalsOf_kind {epoch : StreamEpoch} {next : Nat} {sources : List DeliveryRecord} :
    ∀ r ∈ removalsOf epoch next sources, r.kind = .removed := by
  intro r hr
  obtain ⟨source, _, i, _, _, rfl⟩ := mem_removalsOf hr
  rfl

/-- The sources cancelled by the removals, in order. -/
theorem removalsOf_map_source (epoch : StreamEpoch) (next : Nat)
    (sources : List DeliveryRecord) :
    (removalsOf epoch next sources).map (·.sourceCursor) =
      sources.map fun r ↦ some r.cursor := by
  induction sources generalizing next with
  | nil => rfl
  | cons source rest ih =>
      have hcons : removalsOf epoch next (source :: rest) =
          removalOf epoch next source :: removalsOf epoch (next + 1) rest := by
        simp [removalsOf, List.zipIdx_cons]
      rw [hcons, List.map_cons, List.map_cons, ih]
      rfl

theorem appendRemoval_ok {acc acc' : Store × Nat × List DeliveryRecord}
    {source : DeliveryRecord} (h : appendRemoval acc source = .ok acc') :
    acc' = (acc.1.appendDeliveries (removalsOf acc.1.streamEpoch acc.2.1 [source]),
      acc.2.1 + 1, acc.2.2 ++ removalsOf acc.1.streamEpoch acc.2.1 [source]) := by
  obtain ⟨s, next, removals⟩ := acc
  simp only [appendRemoval] at h
  obtain ⟨s₁, h₁, h⟩ := bind_eq_ok.mp h
  obtain ⟨n, hn, h⟩ := bind_eq_ok.mp h
  rw [pure_eq_ok] at h
  rw [← h, insertDelivery_ok h₁, checkedNextStreamSeq_ok hn, Store.appendDelivery_eq]
  rfl

theorem foldlM_appendRemoval_ok {sources : List DeliveryRecord}
    {acc acc' : Store × Nat × List DeliveryRecord}
    (h : sources.foldlM appendRemoval acc = .ok acc') :
    acc' = (acc.1.appendDeliveries (removalsOf acc.1.streamEpoch acc.2.1 sources),
      acc.2.1 + sources.length,
      acc.2.2 ++ removalsOf acc.1.streamEpoch acc.2.1 sources) := by
  induction sources generalizing acc with
  | nil =>
      rw [List.foldlM_nil, pure_eq_ok] at h
      simp [← h, Store.appendDeliveries_nil]
  | cons source rest ih =>
      rw [List.foldlM_cons] at h
      obtain ⟨acc₁, h₁, h₂⟩ := bind_eq_ok.mp h
      rw [ih h₂, appendRemoval_ok h₁]
      have hsplit : removalsOf acc.1.streamEpoch acc.2.1 (source :: rest) =
          removalsOf acc.1.streamEpoch acc.2.1 [source] ++
            removalsOf acc.1.streamEpoch (acc.2.1 + 1) rest := by
        rw [← List.singleton_append, removalsOf_append]
        rfl
      rw [hsplit, Store.appendDeliveries_append]
      simp only [Store.appendDeliveries, List.append_assoc,
        List.length_cons, Prod.mk.injEq, true_and, and_true]
      omega

theorem appendRemovedDeliveries_ok {s s' : Store} {removed : List BlockHash}
    {deliveries : List DeliveryRecord}
    (h : appendRemovedDeliveries s removed = .ok (s', deliveries)) :
    deliveries = removalsOf s.streamEpoch s.nextStreamSeq (removed.flatMap s.acceptedSources) ∧
      s' = { s.appendDeliveries deliveries with
        nextStreamSeq := s.nextStreamSeq + (removed.flatMap s.acceptedSources).length } := by
  have hfold : ∀ (blocks : List BlockHash) (records : List DeliveryRecord) (next : Nat)
      (removals : List DeliveryRecord) (acc' : Store × Nat × List DeliveryRecord),
      (∀ r ∈ records, r.kind ≠ .accepted) →
      blocks.foldlM appendRemovedBlock (s.appendDeliveries records, next, removals) = .ok acc' →
      acc' = (s.appendDeliveries (records ++
          removalsOf s.streamEpoch next (blocks.flatMap s.acceptedSources)),
        next + (blocks.flatMap s.acceptedSources).length,
        removals ++ removalsOf s.streamEpoch next (blocks.flatMap s.acceptedSources)) := by
    intro blocks
    induction blocks with
    | nil =>
        intro records next removals acc' _ h
        rw [List.foldlM_nil, pure_eq_ok] at h
        simp [← h]
    | cons block rest ih =>
        intro records next removals acc' hrecords h
        rw [List.foldlM_cons] at h
        obtain ⟨acc₁, h₁, h₂⟩ := bind_eq_ok.mp h
        rw [appendRemovedBlock, Store.acceptedSources_appendDeliveries s hrecords] at h₁
        have hacc := foldlM_appendRemoval_ok h₁
        rw [Store.appendDeliveries_append, Store.appendDeliveries_streamEpoch] at hacc
        subst hacc
        have hrecords' : ∀ r ∈ records ++ removalsOf s.streamEpoch next
            (s.acceptedSources block), r.kind ≠ .accepted := by
          intro r hr
          rcases List.mem_append.mp hr with hr | hr
          · exact hrecords r hr
          · simp [removalsOf_kind r hr]
        rw [ih _ _ _ _ hrecords' h₂, List.flatMap_cons, removalsOf_append]
        simp [Nat.add_assoc]
  unfold appendRemovedDeliveries at h
  obtain ⟨⟨s₁, next, removals⟩, h₁, h⟩ := bind_eq_ok.mp h
  rw [pure_eq_ok, Prod.mk.injEq] at h
  obtain ⟨rfl, rfl⟩ := h
  have hacc := hfold removed [] s.nextStreamSeq [] _ (by simp)
    (by rw [Store.appendDeliveries_nil]; exact h₁)
  simp only [List.nil_append, Prod.mk.injEq] at hacc
  obtain ⟨rfl, rfl, rfl⟩ := hacc
  exact ⟨rfl, rfl⟩

/-! ## The block loop -/

/-- A cell after the spends of the removed blocks are undone. -/
def unspendRows (hashes : List BlockHash) (row : UtxoRow) : UtxoRow :=
  hashes.foldl (fun row hash ↦ unspendRow hash row) row

@[simp] theorem unspendRows_nil : unspendRows [] = id := rfl

@[simp] theorem unspendRow_createdBlock (hash : BlockHash) (row : UtxoRow) :
    (unspendRow hash row).createdBlock = row.createdBlock := by
  unfold unspendRow
  split <;> rfl

@[simp] theorem unspendRow_outpoint (hash : BlockHash) (row : UtxoRow) :
    (unspendRow hash row).outpoint = row.outpoint := by
  unfold unspendRow
  split <;> rfl

theorem unspendRow_of_ne {hash : BlockHash} {row : UtxoRow} (h : row.spentBlock ≠ some hash) :
    unspendRow hash row = row := by
  simp [unspendRow, h]

@[simp] theorem unspendRows_createdBlock (hashes : List BlockHash) (row : UtxoRow) :
    (unspendRows hashes row).createdBlock = row.createdBlock := by
  induction hashes generalizing row with
  | nil => rfl
  | cons hash rest ih => exact (ih (unspendRow hash row)).trans (by simp)

@[simp] theorem unspendRows_outpoint (hashes : List BlockHash) (row : UtxoRow) :
    (unspendRows hashes row).outpoint = row.outpoint := by
  induction hashes generalizing row with
  | nil => rfl
  | cons hash rest ih => exact (ih (unspendRow hash row)).trans (by simp)

/-- A cell no removed block spent stays as it is. -/
theorem unspendRows_of_notMem {hashes : List BlockHash} {row : UtxoRow}
    (h : ∀ hash ∈ hashes, row.spentBlock ≠ some hash) : unspendRows hashes row = row := by
  induction hashes with
  | nil => rfl
  | cons hash rest ih =>
      have hrow : unspendRow hash row = row := unspendRow_of_ne (h hash List.mem_cons_self)
      have hrest := ih fun x hx ↦ h x (List.mem_cons_of_mem _ hx)
      rw [unspendRows, List.foldl_cons, hrow]
      exact hrest

/-- A cell a removed block spent loses the spend columns that a rollback
resets. -/
theorem unspendRows_of_mem {hashes : List BlockHash} {row : UtxoRow} {hash : BlockHash}
    (hmem : hash ∈ hashes) (hspent : row.spentBlock = some hash) :
    unspendRows hashes row = unspendRow hash row := by
  induction hashes with
  | nil => cases hmem
  | cons x rest ih =>
      by_cases hx : x = hash
      · subst hx
        have hnone : (unspendRow x row).spentBlock = none := by simp [unspendRow, hspent]
        rw [unspendRows, List.foldl_cons]
        exact unspendRows_of_notMem fun y _ ↦ by simp [hnone]
      · have hne : row.spentBlock ≠ some x := by
          rw [hspent]
          exact fun heq ↦ hx (Option.some.inj heq).symm
        rcases List.mem_cons.mp hmem with rfl | hmem
        · exact absurd rfl hx
        · rw [unspendRows, List.foldl_cons, unspendRow_of_ne hne]
          exact ih hmem

/-- Like `unspendRows`, for an application output. -/
def unspendOutput (hashes : List BlockHash) (row : ApplicationOutputRow) :
    ApplicationOutputRow :=
  if row.spentBlock.any (· ∈ hashes) then { row with spentBlock := none } else row

@[simp] theorem unspendOutput_txid (hashes : List BlockHash) (row : ApplicationOutputRow) :
    (unspendOutput hashes row).txid = row.txid := by
  unfold unspendOutput
  split <;> rfl

@[simp] theorem unspendOutput_output (hashes : List BlockHash) (row : ApplicationOutputRow) :
    (unspendOutput hashes row).output = row.output := by
  unfold unspendOutput
  split <;> rfl

@[simp] theorem unspendOutput_createdBlock (hashes : List BlockHash)
    (row : ApplicationOutputRow) : (unspendOutput hashes row).createdBlock = row.createdBlock := by
  unfold unspendOutput
  split <;> rfl

/-- How many of the events are of covenant `id` in one of the removed blocks. -/
def removedCount (hashes : List BlockHash) (events : List EventRow) (id : CovenantId) : Nat :=
  events.countP fun event ↦ event.acceptingBlock ∈ hashes ∧ event.covenantId = id

theorem foldl_rollbackCells (hashes : List BlockHash) (rows : List UtxoRow) :
    hashes.foldl (fun rows hash ↦ rollbackCells hash rows) rows =
      (rows.map (unspendRows hashes)).filter (·.createdBlock ∉ hashes) := by
  have hfold := Rows.foldl_map_filter unspendRow (fun hash row ↦ row.createdBlock ≠ hash)
    (fun hash hash' row ↦ by simp) hashes rows
  exact hfold.trans (List.filter_congr fun row _ ↦ Rows.all_ne_eq_notMem _ _)

theorem removedCount_cons (hash : BlockHash) (rest : List BlockHash)
    (events : List EventRow) (id : CovenantId) :
    removedCount (hash :: rest) events id =
      (events.countP fun event ↦ event.acceptingBlock = hash && event.covenantId = id) +
        removedCount rest (events.filter (·.acceptingBlock ≠ hash)) id := by
  unfold removedCount
  induction events with
  | nil => rfl
  | cons event events ih =>
      rw [List.countP_cons, List.countP_cons, List.filter_cons, ih]
      by_cases hb : event.acceptingBlock = hash
      · by_cases hc : event.covenantId = id
        · simp [hb, hc]
          omega
        · simp [hb, hc]
      · simp [hb, List.countP_cons]
        omega

theorem foldl_rollbackBlock (hashes : List BlockHash) (s : Store) :
    hashes.foldl rollbackBlock s =
      { s with
        covenantUtxos :=
          (s.covenantUtxos.map (unspendRows hashes)).filter (·.createdBlock ∉ hashes)
        covenants := s.covenants.map fun row ↦
          { row with
            eventCount := row.eventCount -
              (removedCount hashes s.covenantEvents row.covenantId : Nat) }
        covenantEvents := s.covenantEvents.filter (·.acceptingBlock ∉ hashes)
        canonicalBatches := s.canonicalBatches.filter (·.acceptingBlock ∉ hashes) } := by
  induction hashes generalizing s with
  | nil => simp [removedCount, unspendRows_nil]
  | cons hash rest ih =>
      have hcells := foldl_rollbackCells (hash :: rest) s.covenantUtxos
      rw [List.foldl_cons, foldl_rollbackCells] at hcells
      rw [List.foldl_cons, ih]
      simp only [rollbackBlock, ← hcells]
      simp only [Store.mk.injEq, true_and, and_true]
      refine ⟨?_, Rows.filter_notMem_cons _ _ _ _, Rows.filter_notMem_cons _ _ _ _⟩
      simp only [decrementCovenants, List.map_map]
      refine List.map_congr_left fun row _ ↦ ?_
      simp only [Function.comp_apply, removedCount_cons]
      congr 1
      push_cast
      omega

theorem foldl_unspendOutput (hashes : List BlockHash) (row : ApplicationOutputRow) :
    hashes.foldl (fun row hash ↦
      if row.spentBlock = some hash then { row with spentBlock := none } else row) row =
      unspendOutput hashes row := by
  induction hashes generalizing row with
  | nil => cases hb : row.spentBlock <;> simp [unspendOutput, hb]
  | cons hash rest ih =>
      rw [List.foldl_cons, ih]
      cases hb : row.spentBlock with
      | none => simp [unspendOutput, hb]
      | some b =>
          by_cases hbh : b = hash <;> simp [unspendOutput, hb, hbh]

theorem foldl_rollbackOutputs (hashes : List BlockHash) (rows : List ApplicationOutputRow) :
    hashes.foldl (fun rows hash ↦
      (unspendApplicationOutputs hash rows).filter (·.createdBlock ≠ hash)) rows =
      (rows.map (unspendOutput hashes)).filter (·.createdBlock ∉ hashes) := by
  have hkeep : ∀ (hash hash' : BlockHash) (row : ApplicationOutputRow),
      decide ((if row.spentBlock = some hash' then { row with spentBlock := none }
        else row).createdBlock ≠ hash) = decide (row.createdBlock ≠ hash) := by
    intro hash hash' row
    split <;> rfl
  have hfold := Rows.foldl_map_filter
    (fun hash row ↦ if row.spentBlock = some hash then { row with spentBlock := none } else row)
    (fun hash row ↦ decide (row.createdBlock ≠ hash)) hkeep hashes rows
  simp only [foldl_unspendOutput] at hfold
  exact hfold.trans (List.filter_congr fun row _ ↦ Rows.all_ne_eq_notMem _ _)

theorem rollbackRemoved_eq (hashes : List BlockHash) (s : Store) :
    rollbackRemoved s hashes =
      { s with
        applicationOutputs :=
          (s.applicationOutputs.map (unspendOutput hashes)).filter (·.createdBlock ∉ hashes)
        applicationDecodeFailures :=
          s.applicationDecodeFailures.filter (·.acceptingBlock ∉ hashes)
        applicationEnvelopes :=
          s.applicationEnvelopes.filter (·.acceptingBlock ∉ hashes) } := by
  rw [rollbackRemoved, ← foldl_rollbackOutputs]
  induction hashes generalizing s with
  | nil => simp
  | cons hash rest ih =>
      rw [List.foldl_cons, ih]
      simp only [rollbackRemovedBlock, List.foldl_cons, Store.mk.injEq, true_and, and_true]
      exact ⟨Rows.filter_notMem_cons _ _ _ _, Rows.filter_notMem_cons _ _ _ _⟩

/-! ## A rolled back suffix -/

/-- The store a rollback of the canonical blocks `hashes` commits. -/
def rolledBackStore (s : Store) (hashes : List BlockHash) : Store :=
  let sources := hashes.flatMap s.acceptedSources
  let removals := removalsOf s.streamEpoch s.nextStreamSeq sources
  { s with
    covenants := (s.covenants.map fun row ↦
      { row with
        eventCount := row.eventCount -
          (removedCount hashes s.covenantEvents row.covenantId : Nat) }).filter
        (0 < ·.eventCount)
    covenantEvents := s.covenantEvents.filter (·.acceptingBlock ∉ hashes)
    covenantUtxos := (s.covenantUtxos.map (unspendRows hashes)).filter
      (·.createdBlock ∉ hashes)
    applicationEnvelopes := s.applicationEnvelopes.filter (·.acceptingBlock ∉ hashes)
    applicationOutputs := (s.applicationOutputs.map (unspendOutput hashes)).filter
      (·.createdBlock ∉ hashes)
    applicationDecodeFailures :=
      s.applicationDecodeFailures.filter (·.acceptingBlock ∉ hashes)
    deliveryLog := s.deliveryLog ++ removals
    deliveryApplications := s.deliveryApplications ++ removals.flatMap fun r ↦
      r.applications.map (applicationRow r.cursor.seq)
    canonicalBatches := s.canonicalBatches.filter (·.acceptingBlock ∉ hashes)
    optionalProjectionWork := enqueueAll s.optionalProjectionWork
      (removals.map fun r ↦ (r.cursor.seq, r.covenantId))
    reorgLog := s.reorgLog ++ [{ daa := s.processedDaa.getD 0, rolledBack := hashes.length }]
    nextStreamSeq := s.nextStreamSeq + sources.length }

theorem foldl_enqueue (s : Store) (deliveries : List DeliveryRecord) :
    deliveries.foldl (fun s delivery ↦ enqueue s delivery.cursor.seq [delivery.covenantId]) s =
      { s with
        optionalProjectionWork := enqueueAll s.optionalProjectionWork
          (deliveries.map fun r ↦ (r.cursor.seq, r.covenantId)) } := by
  induction deliveries generalizing s with
  | nil => rfl
  | cons r rest ih =>
      rw [List.foldl_cons, ih]
      simp [enqueue, enqueueAll]

theorem firstSeen_mem {seen removed : List BlockHash} {block : BlockHash} :
    block ∈ firstSeen seen removed ↔ block ∈ removed ∧ block ∉ seen := by
  induction removed generalizing seen with
  | nil => simp [firstSeen]
  | cons hd tl ih =>
      unfold firstSeen
      split
      · rename_i hmem
        rw [ih, List.mem_cons]
        constructor
        · exact fun h ↦ ⟨.inr h.1, h.2⟩
        · rintro ⟨rfl | h, hn⟩
          · exact absurd hmem hn
          · exact ⟨h, hn⟩
      · rename_i hmem
        rw [List.mem_cons, ih, List.mem_cons, List.mem_cons]
        by_cases hb : block = hd
        · subst hb
          simp [hmem]
        · simp [hb]

theorem firstSeen_nodup (seen removed : List BlockHash) : (firstSeen seen removed).Nodup := by
  induction removed generalizing seen with
  | nil => exact List.nodup_nil
  | cons hd tl ih =>
      unfold firstSeen
      split
      · exact ih seen
      · refine List.nodup_cons.mpr ⟨?_, ih _⟩
        intro h
        exact (firstSeen_mem.mp h).2 List.mem_cons_self

theorem mem_canonicalRemoved {s : Store} {removed : List BlockHash} {block : BlockHash} :
    block ∈ canonicalRemoved s removed ↔ block ∈ removed ∧ s.isCanonical block = true := by
  simp [canonicalRemoved, firstSeen_mem]

theorem canonicalRemoved_nodup (s : Store) (removed : List BlockHash) :
    (canonicalRemoved s removed).Nodup :=
  (firstSeen_nodup [] removed).filter _

/-- **Rollback, inverted.**  A rollback that returned either named no canonical
block and changed nothing, or committed `rolledBackStore` of those it named. -/
theorem rollbackRemovedBlocks_ok {s s' : Store} {removed : List BlockHash}
    {c : CommittedRemovalBatch} (h : rollbackRemovedBlocks s removed = .ok (s', c)) :
    c.removedBlocks = canonicalRemoved s removed ∧
    (canonicalRemoved s removed = [] ∧ s' = s ∧ c.deliveries = [] ∨
      canonicalRemoved s removed ≠ [] ∧
      s' = rolledBackStore s (canonicalRemoved s removed) ∧
      c.deliveries = removalsOf s.streamEpoch s.nextStreamSeq
        ((canonicalRemoved s removed).flatMap s.acceptedSources)) := by
  simp only [rollbackRemovedBlocks] at h
  split at h
  · rename_i hnil
    rw [Except.ok.injEq, Prod.mk.injEq] at h
    obtain ⟨rfl, rfl⟩ := h
    exact ⟨hnil.symm, .inl ⟨hnil, rfl, rfl⟩⟩
  · rename_i hne
    obtain ⟨⟨s₁, deliveries⟩, h₁, h⟩ := bind_eq_ok.mp h
    obtain ⟨hdel, hs₁⟩ := appendRemovedDeliveries_ok h₁
    rw [pure_eq_ok, Prod.mk.injEq] at h
    obtain ⟨rfl, rfl⟩ := h
    refine ⟨rfl, .inr ⟨hne, ?_, hdel⟩⟩
    simp only [foldl_enqueue, rollbackRemoved_eq, foldl_rollbackBlock]
    subst hdel hs₁
    rfl

end Kascov
