import Kascov.Lib.Rows
import Kascov.Ledger.Spec

/-!
# The batch of a block, in terms of its history

`classify` run over a block is a function of the history before the block and of
the covenants the store knows: `classify_eq`.  It needs that the store's lookup
of an input finds the cell the history created there.
-/

namespace Kascov

/-- What `classify` takes of a transaction: its index and its body. -/
def Accepted.indexed (a : Accepted) : Nat × Transaction := (a.index, a.tx)

/-! ## The parts of a batch -/

/-- The spends a transaction adds to the batch. -/
def spentOf (past : List Accepted) (a : Accepted) : List SpentUtxo :=
  a.tx.inputs.zipIdx.filterMap fun input ↦
    (cellAt past input.1.previousOutpoint).map fun _ ↦
      { outpoint := input.1.previousOutpoint
        spendingTxid := a.tx.txid
        sig := input.1.signatureScript
        budget := input.1.computeBudget
        inputIndex := input.2 }

/-- The event of a covenant at its place among those a transaction touches. -/
def newEvent (compute : ComputeCovenantId) (past : List Accepted) (a : Accepted)
    (seen : CovenantId → Bool) (touched : CovenantId × Nat) : NewEvent :=
  { covenantId := touched.1
    kind := kindWhen compute past a touched.1 (seen touched.1)
    txid := a.tx.txid
    txIndex := a.index
    eventIndex := touched.2
    payload := if a.tx.payload = [] then none else some a.tx.payload
    laneNamespace := laneNamespace a.tx.payload }

/-- The events a transaction adds to the batch. -/
def newEvents (compute : ComputeCovenantId) (past : List Accepted) (seen : CovenantId → Bool)
    (a : Accepted) : List NewEvent :=
  (touchedIds past a).zipIdx.map (newEvent compute past a seen)

/-- The covenants a block has touched. -/
def touchedBy (past block : List Accepted) : List CovenantId :=
  Past.flatMap touchedIds past block

/-- The covenants that count as seen at a place of the block: those the store
knows and those the block touched before. -/
def seenAt (s : Store) (past pre : List Accepted) (id : CovenantId) : Bool :=
  s.knownCovenant id || decide (id ∈ touchedBy past pre)

/-- The events of a block. -/
def blockEvents (compute : ComputeCovenantId) (s : Store) (past block : List Accepted) :
    List NewEvent :=
  Past.flatMap (fun pre a ↦ newEvents compute (past ++ pre) (seenAt s past pre) a) [] block

/-- The batch of a block. -/
def blockBatch (compute : ComputeCovenantId) (s : Store) (accepted : AcceptedBlock)
    (accepting : Block) (decoder : ApplicationDecoder) (past block : List Accepted) :
    AcceptedBlockBatch :=
  { acceptingBlock := accepted.acceptingBlock
    acceptingDaa := accepting.daaScore
    acceptingTimeMs := accepting.timestampMs
    acceptingBlueScore := accepting.blueScore
    events := blockEvents compute s past block
    createdUtxos := block.flatMap fun a ↦ createdCells a.tx
    spentUtxos := Past.flatMap spentOf past block
    transactions := block.map fun a ↦ .prepare a.tx decoder }

/-! ## Cells -/

/-- The cell a created output becomes. -/
def NewUtxo.cell (u : NewUtxo) (block : BlockHash) (daa : Nat) : Cell :=
  { outpoint := u.outpoint
    covenantId := u.covenantId
    value := u.value
    spkVersion := u.spkVersion
    spkScript := u.spkScript
    createdBlock := block
    createdDaa := daa }

theorem Accepted.cells_eq (a : Accepted) :
    a.cells = (createdCells a.tx).map (·.cell a.block a.daa) := by
  rw [Accepted.cells, createdCells, List.map_filterMap]
  refine List.filterMap_congr fun output _ ↦ ?_
  cases output.1.covenant with
  | none => rfl
  | some binding => rfl

theorem createdCells_keys (a : Accepted) :
    (createdCells a.tx).map (fun u ↦ (u.outpoint, u.covenantId)) =
      a.cells.map fun cell ↦ (cell.outpoint, cell.covenantId) := by
  rw [a.cells_eq, List.map_map]
  rfl

theorem createdCells_ids (a : Accepted) :
    (createdCells a.tx).map (·.covenantId) = a.cells.map (·.covenantId) := by
  rw [a.cells_eq, List.map_map]
  rfl

theorem cellsOf_append (past more : List Accepted) :
    cellsOf (past ++ more) = cellsOf past ++ cellsOf more :=
  List.flatMap_append

/-- Cells lie at distinct outpoints. -/
def CellsKeyed (history : List Accepted) : Prop :=
  ((cellsOf history).map (·.outpoint)).Nodup

theorem CellsKeyed.append_left {past more : List Accepted} (h : CellsKeyed (past ++ more)) :
    CellsKeyed past := by
  rw [CellsKeyed, cellsOf_append, List.map_append] at h
  exact (List.nodup_append.mp h).1

theorem cellAt_eq_some {past : List Accepted} (h : CellsKeyed past) {o : Outpoint}
    {id : CovenantId} :
    cellAt past o = some id ↔ ∃ cell ∈ cellsOf past, cell.outpoint = o ∧ cell.covenantId = id := by
  rw [cellAt, Option.map_eq_some_iff]
  constructor
  · rintro ⟨cell, hfind, hid⟩
    obtain ⟨hmem, ho⟩ := (Rows.find?_key_eq_some h).mp hfind
    exact ⟨cell, hmem, ho, hid⟩
  · rintro ⟨cell, hmem, ho, hid⟩
    exact ⟨cell, (Rows.find?_key_eq_some h).mpr ⟨hmem, ho⟩, hid⟩

theorem cellAt_eq_none {past : List Accepted} {o : Outpoint} :
    cellAt past o = none ↔ ∀ cell ∈ cellsOf past, cell.outpoint ≠ o := by
  simp [cellAt]

/-- The overlay after the transactions `pre` of the block. -/
def overlayOf (pre : List Accepted) : List (Outpoint × CovenantId) :=
  ((cellsOf pre).map fun cell ↦ (cell.outpoint, cell.covenantId)).reverse

/-- **The lookup of an input.** -/
theorem spentCell_eq {s : Store} {past pre : List Accepted} {o : Outpoint}
    (hkeyed : CellsKeyed (past ++ pre)) (hlive : s.liveCovenantUtxo o = cellAt past o) :
    spentCell s (overlayOf pre) o = cellAt (past ++ pre) o := by
  have hkeys : ((overlayOf pre).map (·.1)).Nodup := by
    rw [overlayOf, List.map_reverse, List.nodup_reverse, List.map_map]
    rw [CellsKeyed, cellsOf_append, List.map_append] at hkeyed
    exact (List.nodup_append.mp hkeyed).2.1
  unfold spentCell
  cases hfind : (overlayOf pre).find? (·.1 = o) with
  | some entry =>
      obtain ⟨hmem, rfl⟩ := (Rows.find?_key_eq_some hkeys).mp hfind
      obtain ⟨cell, hcell, rfl⟩ := List.mem_map.mp (List.mem_reverse.mp hmem)
      refine ((cellAt_eq_some hkeyed).mpr ⟨cell, ?_, rfl, rfl⟩).symm
      rw [cellsOf_append]
      exact List.mem_append_right _ hcell
  | none =>
      show s.liveCovenantUtxo o = _
      have hnone : (cellsOf pre).find? (·.outpoint = o) = none := by
        rw [List.find?_eq_none] at hfind ⊢
        intro cell hcell
        exact hfind _ (List.mem_reverse.mpr (List.mem_map_of_mem hcell))
      rw [hlive, cellAt, cellAt, cellsOf_append, List.find?_append, hnone, Option.or_none]

/-! ## What a transaction touches -/

theorem mem_spentIds {past : List Accepted} (h : CellsKeyed past) {a : Accepted}
    {id : CovenantId} : id ∈ a.inputs.filterMap (cellAt past) ↔ SpendsCell past a id := by
  rw [List.mem_filterMap, SpendsCell]
  constructor
  · rintro ⟨o, ho, hid⟩
    obtain ⟨cell, hcell, rfl, hcov⟩ := (cellAt_eq_some h).mp hid
    exact ⟨cell, hcell, hcov, ho⟩
  · rintro ⟨cell, hcell, hid, ho⟩
    exact ⟨cell.outpoint, ho, (cellAt_eq_some h).mpr ⟨cell, hcell, rfl, hid⟩⟩

theorem mem_touchedIds {past : List Accepted} (h : CellsKeyed past) {a : Accepted}
    {id : CovenantId} : id ∈ touchedIds past a ↔ SpendsCell past a id ∨ Creates a id := by
  rw [touchedIds, List.mem_insertionSort, List.mem_dedup, List.mem_append, mem_spentIds h]
  rfl

theorem touchedIds_nodup (past : List Accepted) (a : Accepted) : (touchedIds past a).Nodup :=
  (List.perm_insertionSort _ _).nodup_iff.mpr (List.nodup_dedup _)

section Transaction

variable {s : Store} {past : List Accepted} {overlay : List (Outpoint × CovenantId)}
  {a : Accepted}

theorem spentCells_ids (h : ∀ o ∈ a.inputs, spentCell s overlay o = cellAt past o) :
    (spentCells s overlay a.tx).map (·.1) = a.inputs.filterMap (cellAt past) := by
  rw [spentCells, List.map_filterMap, Accepted.inputs, List.filterMap_map]
  have hfst : a.tx.inputs = (a.tx.inputs.zipIdx).map (·.1) := (List.zipIdx_map_fst 0 _).symm
  conv_rhs => rw [hfst, List.filterMap_map]
  refine List.filterMap_congr fun input hinput ↦ ?_
  have hmem : input.1 ∈ a.tx.inputs := hfst ▸ List.mem_map_of_mem hinput
  rw [h _ (List.mem_map_of_mem hmem), Option.map_map]
  show Option.map id _ = _
  rw [Option.map_id]
  rfl

theorem spentCells_spends (h : ∀ o ∈ a.inputs, spentCell s overlay o = cellAt past o) :
    (spentCells s overlay a.tx).map (·.2) = spentOf past a := by
  rw [spentCells, List.map_filterMap, spentOf]
  refine List.filterMap_congr fun input hinput ↦ ?_
  have hmem : input.1 ∈ a.tx.inputs := by
    rw [← List.zipIdx_map_fst 0 a.tx.inputs]
    exact List.mem_map_of_mem hinput
  rw [h _ (List.mem_map_of_mem hmem), Option.map_map]
  rfl

/-- The counts a covenant has in `touched`. -/
def countsOf (spent created : List CovenantId) (id : CovenantId) : Nat × Nat :=
  ((spent.map (Touch.spent, ·) ++ created.map (Touch.created, ·)).filter (·.2 = id)).foldl
    (fun n t ↦ t.1.count n) (0, 0)

theorem countsOf_eq (spent created : List CovenantId) (id : CovenantId) :
    countsOf spent created id = (spent.count id, created.count id) := by
  have hspent : ∀ (ids : List CovenantId) (n : Nat × Nat),
      ((ids.map (Touch.spent, ·)).filter (·.2 = id)).foldl (fun n t ↦ t.1.count n) n =
        (n.1 + ids.count id, n.2) := by
    intro ids
    induction ids with
    | nil => exact fun _ ↦ rfl
    | cons x ids ih =>
        intro n
        by_cases hx : x = id
        · subst hx
          rw [List.map_cons, List.filter_cons_of_pos (by simp), List.foldl_cons, ih,
            List.count_cons_self]
          simp only [Touch.count]
          rw [Nat.add_right_comm, Nat.add_assoc]
        · rw [List.map_cons, List.filter_cons_of_neg (by simpa using hx), ih,
            List.count_cons_of_ne hx]
  have hcreated : ∀ (ids : List CovenantId) (n : Nat × Nat),
      ((ids.map (Touch.created, ·)).filter (·.2 = id)).foldl (fun n t ↦ t.1.count n) n =
        (n.1, n.2 + ids.count id) := by
    intro ids
    induction ids with
    | nil => exact fun _ ↦ rfl
    | cons x ids ih =>
        intro n
        by_cases hx : x = id
        · subst hx
          rw [List.map_cons, List.filter_cons_of_pos (by simp), List.foldl_cons, ih,
            List.count_cons_self]
          simp only [Touch.count]
          rw [Nat.add_right_comm, Nat.add_assoc]
        · rw [List.map_cons, List.filter_cons_of_neg (by simpa using hx), ih,
            List.count_cons_of_ne hx]
  rw [countsOf, List.filter_append, List.foldl_append, hspent, hcreated]
  simp

theorem covenantId_antisymm {a b : CovenantId} (hab : a ≤ b) (hba : b ≤ a) : a = b := by
  cases a
  cases b
  exact congrArg CovenantId.mk (BitVec.eq_of_toNat_eq (Nat.le_antisymm hab hba))

instance : Std.Total fun a b : CovenantId ↦ a ≤ b := ⟨fun _ _ ↦ Nat.le_total _ _⟩

instance : IsTrans CovenantId fun a b ↦ a ≤ b := ⟨fun _ _ _ hab hbc ↦ Nat.le_trans hab hbc⟩

/-- **The touched covenants in order, with their counts.** -/
theorem touchedCounts_sorted (spent created : List CovenantId) :
    (touchedCounts spent created).insertionSort (fun a b ↦ a.1 ≤ b.1) =
      ((spent ++ created).dedup.insertionSort (· ≤ ·)).map fun id ↦
        (id, spent.count id, created.count id) := by
  refine Entries.sort_eq_map (· ≤ ·) (fun _ _ ↦ covenantId_antisymm)
    (Entries.updateAll_keys_nodup _) (List.nodup_dedup _) fun e ↦ ?_
  have hids : (spent.map (Touch.spent, ·) ++ created.map (Touch.created, ·)).map (·.2) =
      spent ++ created := by
    simp [Function.comp_def]
  rw [touchedCounts, Entries.mem_updateAll, hids, List.mem_dedup]
  exact and_congr_right fun _ ↦ by rw [← countsOf_eq]; rfl

/-- The kind the code computes from the counts. -/
theorem eventKind_eq (compute : ComputeCovenantId) (hkeyed : CellsKeyed past)
    (known : List CovenantId) (id : CovenantId) :
    eventKind compute s known a.tx id
        ((a.inputs.filterMap (cellAt past)).count id, (a.cells.map (·.covenantId)).count id) =
      kindWhen compute past a id (s.knownCovenant id || decide (id ∈ known)) := by
  unfold eventKind kindWhen
  simp only [List.count_pos_iff, mem_spentIds hkeyed, isValidGenesis_iff]
  show (if SpendsCell past a id ∧ Creates a id then _ else _) = _
  by_cases hspends : SpendsCell past a id
  · by_cases hcreates : Creates a id
    · rw [if_pos ⟨hspends, hcreates⟩, if_pos hspends, if_pos hcreates]
    · rw [if_neg fun h ↦ hcreates h.2, if_pos hspends, if_pos hspends, if_neg hcreates]
  · rw [if_neg fun h ↦ hspends h.1, if_neg hspends, if_neg hspends]
    by_cases hknown : id ∈ known ∨ s.knownCovenant id = true
    · have hseen : (s.knownCovenant id || decide (id ∈ known)) = true := by
        simpa using hknown.symm
      rw [if_pos hknown, if_neg fun h ↦ Bool.false_ne_true (h.1.symm.trans hseen)]
    · have hseen : (s.knownCovenant id || decide (id ∈ known)) = false := by
        simpa [and_comm] using hknown
      rw [if_neg hknown]
      by_cases hgenesis : Creates a id ∧ Recomputes compute a.tx id
      · rw [if_pos hgenesis, if_pos ⟨hseen, hgenesis⟩]
      · rw [if_neg hgenesis, if_neg fun h ↦ hgenesis h.2]

/-- The loop over the touched covenants, in terms of the history. -/
theorem foldl_classifyTouched (compute : ComputeCovenantId) (hkeyed : CellsKeyed past)
    {ids : List CovenantId} (hids : ids.Nodup) (known : List CovenantId)
    (events : List NewEvent) (n : Nat) :
    ((ids.map fun id ↦ (id, (a.inputs.filterMap (cellAt past)).count id,
        (a.cells.map (·.covenantId)).count id)).zipIdx n).foldl
        (classifyTouched compute s a.tx a.index) (known, events) =
      (ids.reverse ++ known, events ++ (ids.zipIdx n).map
        (newEvent compute past a fun id ↦ s.knownCovenant id || decide (id ∈ known))) := by
  rw [foldl_classifyTouched_eq compute s a.tx a.index
    (fun id ↦ ((a.inputs.filterMap (cellAt past)).count id,
      (a.cells.map (·.covenantId)).count id)) hids]
  refine Prod.ext rfl (congrArg (events ++ ·) (List.map_congr_left fun touched _ ↦ ?_))
  unfold touchedEvent newEvent
  rw [eventKind_eq compute hkeyed]

end Transaction

/-! ## The whole block -/

/-- The state of the loop after the transactions `pre` of a block. -/
def classifiedState (compute : ComputeCovenantId) (s : Store) (accepted : AcceptedBlock)
    (accepting : Block) (decoder : ApplicationDecoder) (past pre : List Accepted) :
    ClassifyState :=
  { batch := blockBatch compute s accepted accepting decoder past pre
    createdOverlay := overlayOf pre
    knownOverlay := (touchedBy past pre).reverse }

/-- The store's lookup of an input finds the cell the history created there. -/
def LooksUp (s : Store) (past block : List Accepted) : Prop :=
  ∀ o ∈ inputsOf block, s.liveCovenantUtxo o = cellAt past o

theorem classifyTx_eq {compute : ComputeCovenantId} {s : Store} {accepted : AcceptedBlock}
    {accepting : Block} {decoder : ApplicationDecoder} {past pre : List Accepted}
    {a : Accepted} (hkeyed : CellsKeyed (past ++ pre))
    (hlive : ∀ o ∈ a.inputs, s.liveCovenantUtxo o = cellAt past o) :
    classifyTx compute s decoder
        (classifiedState compute s accepted accepting decoder past pre) a.indexed =
      classifiedState compute s accepted accepting decoder past (pre ++ [a]) := by
  have hspent : ∀ o ∈ a.inputs, spentCell s (overlayOf pre) o = cellAt (past ++ pre) o :=
    fun o ho ↦ spentCell_eq hkeyed (hlive o ho)
  have hseen : (fun id ↦ s.knownCovenant id || decide (id ∈ (touchedBy past pre).reverse)) =
      seenAt s past pre := by
    funext id
    simp [seenAt]
  have hfold := foldl_classifyTouched (s := s) (a := a) compute hkeyed
    (touchedIds_nodup (past ++ pre) a) (touchedBy past pre).reverse
    (blockEvents compute s past pre) 0
  simp only [classifyTx, classifiedState, Accepted.indexed, spentCells_ids hspent,
    spentCells_spends hspent, createdCells_ids, touchedCounts_sorted]
  rw [touchedIds, hseen] at hfold
  simp only [blockBatch, hfold]
  congr 1
  · congr 1
    · rw [blockEvents, blockEvents, Past.flatMap_concat]
      rfl
    · simp
    · rw [Past.flatMap_concat]
    · simp
  · rw [overlayOf, overlayOf, cellsOf_append, List.map_append, List.reverse_append,
      List.map_reverse, createdCells_keys]
    simp [cellsOf]
  · rw [touchedBy, touchedBy, Past.flatMap_concat, List.reverse_append]
    rfl

/-- **What `classify` prepares.** -/
theorem classify_eq {compute : ComputeCovenantId} {s : Store} {accepted : AcceptedBlock}
    {accepting : Block} {decoder : ApplicationDecoder} {past block : List Accepted}
    (hkeyed : CellsKeyed (past ++ block)) (hlive : LooksUp s past block) :
    classify compute s accepted accepting decoder (block.map (·.indexed)) =
      blockBatch compute s accepted accepting decoder past block := by
  suffices hfold : (block.map (·.indexed)).foldl (classifyTx compute s decoder)
      (classifiedState compute s accepted accepting decoder past []) =
        classifiedState compute s accepted accepting decoder past block by
    rw [classify]
    exact congrArg ClassifyState.batch hfold
  induction block using List.reverseRecOn with
  | nil => rfl
  | append_singleton pre a ih =>
      rw [← List.append_assoc] at hkeyed
      have hpre : LooksUp s past pre := by
        intro o ho
        refine hlive o ?_
        rw [inputsOf, List.flatMap_append]
        exact List.mem_append_left _ ho
      rw [List.map_append, List.foldl_append, ih hkeyed.append_left hpre]
      refine classifyTx_eq hkeyed.append_left fun o ho ↦ hlive o ?_
      rw [inputsOf, List.flatMap_append]
      exact List.mem_append_right _ (by simpa using ho)

end Kascov
