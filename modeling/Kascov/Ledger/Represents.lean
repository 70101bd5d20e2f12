import Kascov.Ledger.Classified
import Kascov.Store.Cells
import Kascov.Summary.Counts

/-!
# Stores that represent a history

A store represents a history when its cells are those the history created, each
with the block and the transaction that spent it, its events are those of the
ledger, and it knows the covenants the history created an output of.  Indexing
the next block keeps this: `Represents.index`.
-/

namespace Kascov

/-! ## Rows as facts -/

namespace UtxoRow

/-- The cell a row describes. -/
def cell (row : UtxoRow) : Cell :=
  { outpoint := row.outpoint
    covenantId := row.covenantId
    value := row.value
    spkVersion := row.spkVersion
    spkScript := row.spkScript
    createdBlock := row.createdBlock
    createdDaa := row.createdDaa }

/-- A row as a cell with its spend. -/
def settled (row : UtxoRow) : Cell × Option BlockHash × Option TxId :=
  (row.cell, row.spentBlock, row.spentTxid)

end UtxoRow

/-- What the ledger says of an event row. -/
def EventRow.fact (row : EventRow) : EventFact :=
  { covenantId := row.covenantId
    kind := row.kind
    txid := row.txid
    acceptingBlock := row.acceptingBlock
    acceptingDaa := row.acceptingDaa
    txIndex := row.txIndex }

/-- The transaction of the history that spends an outpoint. -/
def spenderOf (history : List Accepted) (o : Outpoint) : Option Accepted :=
  history.find? (o ∈ ·.inputs)

/-- A cell with its spend in the history. -/
def settle (history : List Accepted) (cell : Cell) : Cell × Option BlockHash × Option TxId :=
  (cell, (spenderOf history cell.outpoint).map (·.block),
    (spenderOf history cell.outpoint).map (·.tx.txid))

structure Represents (compute : ComputeCovenantId) (s : Store) (history : List Accepted) :
    Prop where
  cells : s.covenantUtxos.map (·.settled) = (cellsOf history).map (settle history)
  events : s.covenantEvents.map (·.fact) = ledgerEvents compute history
  known : ∀ id, s.knownCovenant id = true ↔ SeenBefore history id

/-! ## Valid histories -/

theorem spenderOf_eq_none {history : List Accepted} {o : Outpoint} :
    spenderOf history o = none ↔ o ∉ inputsOf history := by
  simp [spenderOf, inputsOf]

theorem spenderOf_append (past more : List Accepted) (o : Outpoint) :
    spenderOf (past ++ more) o = (spenderOf past o).or (spenderOf more o) :=
  List.find?_append

theorem Accepted.cells_txid {a : Accepted} {cell : Cell} (h : cell ∈ a.cells) :
    cell.outpoint.txid = a.tx.txid := by
  obtain ⟨output, -, h⟩ := List.mem_filterMap.mp h
  obtain ⟨binding, -, rfl⟩ := Option.map_eq_some_iff.mp h
  rfl

theorem Accepted.cells_nodup (a : Accepted) : (a.cells.map (·.outpoint)).Nodup := by
  have hindex : (a.tx.outputs.zipIdx.map (·.2)).Nodup := by
    rw [List.zipIdx_map_snd]
    exact List.nodup_range'
  refine List.pairwise_map.mpr (List.pairwise_filterMap.mpr
    ((List.pairwise_map.mp hindex).imp ?_))
  intro x y hne c hc d hd
  obtain ⟨b, -, rfl⟩ := Option.map_eq_some_iff.mp hc
  obtain ⟨b', -, rfl⟩ := Option.map_eq_some_iff.mp hd
  exact fun heq ↦ hne (congrArg Outpoint.index heq)

namespace ValidHistory

variable {past more : List Accepted}

theorem append_left (h : ValidHistory (past ++ more)) : ValidHistory past := by
  refine ⟨?_, ?_, fun a ha ↦ h.notOwn a (List.mem_append_left _ ha),
    (List.pairwise_append.mp h.notLater).1⟩
  · have := h.txids
    rw [List.map_append] at this
    exact (List.nodup_append.mp this).1
  · have := h.spentOnce
    rw [inputsOf, List.flatMap_append] at this
    exact (List.nodup_append.mp this).1

theorem cellsKeyed (h : ValidHistory past) : CellsKeyed past := by
  rw [CellsKeyed, cellsOf, List.map_flatMap, List.nodup_flatMap]
  refine ⟨fun a _ ↦ a.cells_nodup, (List.pairwise_map.mp h.txids).imp ?_⟩
  intro a b hne o ha hb
  obtain ⟨c, hc, rfl⟩ := List.mem_map.mp ha
  obtain ⟨d, hd, heq⟩ := List.mem_map.mp hb
  exact hne (by rw [← Accepted.cells_txid hc, ← Accepted.cells_txid hd, heq])

/-- An outpoint spent later is not spent before. -/
theorem notMem_inputs (h : ValidHistory (past ++ more)) {o : Outpoint}
    (ho : o ∈ inputsOf more) : o ∉ inputsOf past := by
  have := h.spentOnce
  rw [inputsOf, List.flatMap_append] at this
  exact fun hpast ↦ (List.nodup_append.mp this).2.2 o hpast o ho rfl

/-- A cell created later is not spent before. -/
theorem created_notMem_inputs (h : ValidHistory (past ++ more)) {cell : Cell}
    (hcell : cell ∈ cellsOf more) : cell.outpoint ∉ inputsOf past := by
  intro hspent
  obtain ⟨a, ha, hinput⟩ := List.mem_flatMap.mp hspent
  obtain ⟨b, hb, hcell⟩ := List.mem_flatMap.mp hcell
  exact (List.pairwise_append.mp h.notLater).2.2 a ha b hb _ hinput (Accepted.cells_txid hcell)

/-- A transaction spends only cells created before it. -/
theorem spent_before {pre rest : List Accepted} {a : Accepted}
    (h : ValidHistory (pre ++ a :: rest)) {cell : Cell}
    (hcell : cell ∈ cellsOf (pre ++ a :: rest)) (hspent : cell.outpoint ∈ a.inputs) :
    cell ∈ cellsOf pre := by
  rw [cellsOf_append] at hcell
  rcases List.mem_append.mp hcell with hcell | hcell
  · exact hcell
  · obtain ⟨b, hb, hcell⟩ := List.mem_flatMap.mp hcell
    have htxid := Accepted.cells_txid hcell
    rcases List.mem_cons.mp hb with rfl | hb
    · exact absurd htxid (h.notOwn b (by simp) _ hspent)
    · have hlater := (List.pairwise_append.mp h.notLater).2.1
      exact absurd htxid ((List.pairwise_cons.mp hlater).1 b hb _ hspent)

end ValidHistory

/-! ## What the store looks up -/

section Lookup

variable {compute : ComputeCovenantId} {s : Store} {past block : List Accepted}

theorem Represents.row_of_cell (h : Represents compute s past) {cell : Cell}
    (hcell : cell ∈ cellsOf past) :
    ∃ row ∈ s.covenantUtxos, row.settled = settle past cell := by
  have hmem : settle past cell ∈ s.covenantUtxos.map (·.settled) := by
    rw [h.cells]
    exact List.mem_map_of_mem hcell
  obtain ⟨row, hrow, heq⟩ := List.mem_map.mp hmem
  exact ⟨row, hrow, heq⟩

theorem Represents.cell_of_row (h : Represents compute s past) {row : UtxoRow}
    (hrow : row ∈ s.covenantUtxos) :
    row.cell ∈ cellsOf past ∧ row.settled = settle past row.cell := by
  have hmem : row.settled ∈ (cellsOf past).map (settle past) := by
    rw [← h.cells]
    exact List.mem_map_of_mem hrow
  obtain ⟨cell, hcell, heq⟩ := List.mem_map.mp hmem
  have hcell' : cell = row.cell := congrArg (·.1) heq
  exact ⟨hcell' ▸ hcell, by rw [← heq, hcell']⟩

theorem Represents.outpoints (h : Represents compute s past) :
    s.covenantUtxos.map (·.outpoint) = (cellsOf past).map (·.outpoint) := by
  have := congrArg (List.map (·.1.outpoint)) h.cells
  rw [List.map_map, List.map_map] at this
  exact this

/-- An input of the next block is looked up as the cell the history created. -/
theorem Represents.looksUp (h : Represents compute s past)
    (hvalid : ValidHistory (past ++ block)) : LooksUp s past block := by
  intro o ho
  have hkeyed := hvalid.append_left.cellsKeyed
  have hunspent : spenderOf past o = none := spenderOf_eq_none.mpr (hvalid.notMem_inputs ho)
  rw [Store.liveCovenantUtxo]
  refine Option.ext fun id ↦ ?_
  rw [cellAt_eq_some hkeyed, Option.map_eq_some_iff]
  constructor
  · rintro ⟨row, hfind, rfl⟩
    have hrow := List.mem_of_find?_eq_some hfind
    have hprop := List.find?_some hfind
    rw [decide_eq_true_eq] at hprop
    exact ⟨row.cell, (h.cell_of_row hrow).1, hprop.1, rfl⟩
  · rintro ⟨cell, hcell, rfl, rfl⟩
    obtain ⟨row, hrow, hsettled⟩ := h.row_of_cell hcell
    have hcellEq : row.cell = cell := congrArg (·.1) hsettled
    have hnone : row.spentBlock = none := by
      have := congrArg (·.2.1) hsettled
      rw [settle, hunspent] at this
      exact this
    have hrows : (s.covenantUtxos.map (·.outpoint)).Nodup := by
      rw [h.outpoints]
      exact hkeyed
    refine ⟨row, ?_, congrArg Cell.covenantId hcellEq⟩
    have houtpoint : row.outpoint = cell.outpoint := congrArg Cell.outpoint hcellEq
    refine Rows.find?_of_unique hrow (decide_eq_true ⟨houtpoint, hnone⟩) fun x hx hprop ↦ ?_
    rw [decide_eq_true_eq] at hprop
    exact List.inj_on_of_nodup_map hrows hx hrow (hprop.1.trans houtpoint.symm)

theorem Represents.seenAt_eq (h : Represents compute s past) {pre : List Accepted}
    (hkeyed : CellsKeyed (past ++ pre)) (id : CovenantId) :
    seenAt s past pre id = decide (SeenBefore (past ++ pre) id) := by
  rw [seenAt, Bool.eq_iff_iff, Bool.or_eq_true, h.known, decide_eq_true_eq, decide_eq_true_eq]
  rw [SeenBefore, SeenBefore, cellsOf_append, List.map_append, List.mem_append]
  constructor
  · rintro (hseen | htouched)
    · exact .inl hseen
    · obtain ⟨before, a, rest, rfl, hid⟩ := Past.mem_flatMap.mp htouched
      rw [← List.append_assoc] at hkeyed
      rcases (mem_touchedIds hkeyed.append_left).mp hid with ⟨cell, hcell, rfl, -⟩ | hcreates
      · rw [cellsOf_append] at hcell
        rcases List.mem_append.mp hcell with hcell | hcell
        · exact .inl (List.mem_map_of_mem hcell)
        · refine .inr (List.mem_map_of_mem ?_)
          rw [cellsOf_append]
          exact List.mem_append_left _ hcell
      · obtain ⟨cell, hcell, rfl⟩ := List.mem_map.mp hcreates
        refine .inr (List.mem_map_of_mem ?_)
        exact List.mem_flatMap.mpr ⟨a, by simp, hcell⟩
  · rintro (hseen | hcreated)
    · exact .inl hseen
    · obtain ⟨cell, hcell, rfl⟩ := List.mem_map.mp hcreated
      obtain ⟨a, ha, hmem⟩ := List.mem_flatMap.mp hcell
      obtain ⟨before, rest, rfl⟩ := List.append_of_mem ha
      rw [← List.append_assoc] at hkeyed
      refine .inr (Past.mem_flatMap.mpr ⟨before, a, rest, rfl, ?_⟩)
      exact (mem_touchedIds hkeyed.append_left).mpr (.inr (List.mem_map_of_mem hmem))

end Lookup

/-! ## The batch of the next block -/

section Batch

variable {compute : ComputeCovenantId} {s : Store} {past block : List Accepted}
  {accepted : AcceptedBlock} {accepting : Block} {decoder : ApplicationDecoder}

theorem createdUtxos_outpoints (block : List Accepted) :
    (block.flatMap fun a ↦ createdCells a.tx).map (·.outpoint) =
      (cellsOf block).map (·.outpoint) := by
  rw [cellsOf, List.map_flatMap, List.map_flatMap]
  refine List.flatMap_congr fun a _ ↦ ?_
  rw [a.cells_eq, List.map_map]
  rfl

theorem mem_spentOf {past : List Accepted} {a : Accepted} {spent : SpentUtxo}
    (h : spent ∈ spentOf past a) :
    spent.spendingTxid = a.tx.txid ∧ spent.outpoint ∈ a.inputs ∧
      ∃ id, cellAt past spent.outpoint = some id := by
  obtain ⟨input, hinput, h⟩ := List.mem_filterMap.mp h
  obtain ⟨id, hid, rfl⟩ := Option.map_eq_some_iff.mp h
  have hmem : input.1 ∈ a.tx.inputs := by
    rw [← List.zipIdx_map_fst 0 a.tx.inputs]
    exact List.mem_map_of_mem hinput
  exact ⟨rfl, List.mem_map_of_mem hmem, id, hid⟩

theorem spentOf_of_cell {past : List Accepted} {a : Accepted} {o : Outpoint} {id : CovenantId}
    (ho : o ∈ a.inputs) (hcell : cellAt past o = some id) :
    ∃ spent ∈ spentOf past a, spent.outpoint = o := by
  obtain ⟨input, hinput, rfl⟩ := List.mem_map.mp ho
  rw [← List.zipIdx_map_fst 0 a.tx.inputs] at hinput
  obtain ⟨indexed, hindexed, rfl⟩ := List.mem_map.mp hinput
  exact ⟨_, List.mem_filterMap.mpr ⟨indexed, hindexed, by rw [hcell]; rfl⟩, rfl⟩

theorem spentOf_sublist (past : List Accepted) (a : Accepted) :
    ((spentOf past a).map (·.outpoint)).Sublist a.inputs := by
  rw [Accepted.inputs, ← List.zipIdx_map_fst 0 a.tx.inputs, List.map_map, spentOf,
    List.map_filterMap]
  induction a.tx.inputs.zipIdx with
  | nil => exact .slnil
  | cons input rest ih =>
      rw [List.filterMap_cons]
      cases cellAt past input.1.previousOutpoint with
      | none => exact ih.cons _
      | some id => exact ih.cons_cons _

theorem spentUtxos_sublist (past block : List Accepted) :
    ((Past.flatMap spentOf past block).map (·.outpoint)).Sublist (inputsOf block) := by
  induction block generalizing past with
  | nil => exact .slnil
  | cons a rest ih =>
      rw [Past.flatMap_cons, List.map_append, inputsOf, List.flatMap_cons]
      exact (spentOf_sublist past a).append (ih _)

theorem Represents.spendsLive (h : Represents compute s past)
    (hvalid : ValidHistory (past ++ block)) :
    SpendsLive s.covenantUtxos
      (blockBatch compute s accepted accepting decoder past block) := by
  have hkeyed := hvalid.cellsKeyed
  rw [CellsKeyed, cellsOf_append, List.map_append] at hkeyed
  obtain ⟨-, hblock, hcross⟩ := List.nodup_append.mp hkeyed
  constructor
  · show ((block.flatMap fun a ↦ createdCells a.tx).map (·.outpoint)).Nodup
    rw [createdUtxos_outpoints]
    exact hblock
  · intro utxo hutxo row hrow heq
    have hcreated : utxo.outpoint ∈ (cellsOf block).map (·.outpoint) := by
      rw [← createdUtxos_outpoints]
      exact List.mem_map_of_mem hutxo
    have hold : row.outpoint ∈ (cellsOf past).map (·.outpoint) := by
      rw [← h.outpoints]
      exact List.mem_map_of_mem hrow
    exact hcross _ hold _ hcreated heq
  · refine List.Nodup.sublist (spentUtxos_sublist past block) ?_
    have hspent := hvalid.spentOnce
    rw [inputsOf, List.flatMap_append] at hspent
    exact (List.nodup_append.mp hspent).2.1
  · intro spent hspent
    obtain ⟨pre, a, rest, rfl, hmem⟩ := Past.mem_flatMap.mp hspent
    obtain ⟨-, hinput, id, hid⟩ := mem_spentOf hmem
    have hpre : CellsKeyed (past ++ pre) := by
      rw [← List.append_assoc] at hvalid
      exact hvalid.append_left.cellsKeyed
    obtain ⟨cell, hcell, houtpoint, -⟩ := (cellAt_eq_some hpre).mp hid
    rw [cellsOf_append] at hcell
    rcases List.mem_append.mp hcell with hcell | hcell
    · obtain ⟨row, hrow, hsettled⟩ := h.row_of_cell hcell
      have hunspent : spenderOf past cell.outpoint = none := by
        refine spenderOf_eq_none.mpr (hvalid.notMem_inputs ?_)
        rw [houtpoint]
        exact List.mem_flatMap.mpr ⟨a, by simp, hinput⟩
      refine .inl ⟨row, hrow, (congrArg (·.1.outpoint) hsettled).trans houtpoint, ?_⟩
      have hspentBlock := congrArg (·.2.1) hsettled
      rw [settle, hunspent] at hspentBlock
      exact hspentBlock
    · have hcreated : cell.outpoint ∈
          ((pre ++ a :: rest).flatMap fun a ↦ createdCells a.tx).map (·.outpoint) := by
        rw [createdUtxos_outpoints, cellsOf_append, List.map_append]
        exact List.mem_append_left _ (List.mem_map_of_mem hcell)
      obtain ⟨utxo, hutxo, heq⟩ := List.mem_map.mp hcreated
      exact .inr ⟨utxo, hutxo, heq.trans houtpoint⟩

/-- A row that agrees with the history before a block agrees with it after the
spends of the block. -/
theorem spendAll_settled {dec : Decoders} {row : UtxoRow}
    (hvalid : ValidHistory (past ++ block)) (hcell : row.cell ∈ cellsOf (past ++ block))
    (hrow : row.settled = settle past row.cell)
    (hblock : ∀ a ∈ block, a.block = accepted.acceptingBlock) :
    (spendAll dec (blockBatch compute s accepted accepting decoder past block) row).settled =
      settle (past ++ block) row.cell := by
  by_cases hspent : row.outpoint ∈ inputsOf block
  · obtain ⟨a, ha, hinput⟩ := List.mem_flatMap.mp hspent
    obtain ⟨pre, rest, rfl⟩ := List.append_of_mem ha
    have hassoc : past ++ (pre ++ a :: rest) = (past ++ pre) ++ a :: rest :=
      (List.append_assoc _ _ _).symm
    have hpast : spenderOf past row.outpoint = none :=
      spenderOf_eq_none.mpr (hvalid.notMem_inputs hspent)
    have hpre : spenderOf (past ++ pre) row.outpoint = none := by
      rw [hassoc] at hvalid
      refine spenderOf_eq_none.mpr (hvalid.notMem_inputs ?_)
      exact List.mem_flatMap.mpr ⟨a, List.mem_cons_self, hinput⟩
    have hspender : spenderOf (past ++ (pre ++ a :: rest)) row.outpoint = some a := by
      rw [hassoc, spenderOf_append, hpre, Option.none_or]
      exact List.find?_cons_of_pos (decide_eq_true hinput)
    have hbefore : row.cell ∈ cellsOf (past ++ pre) := by
      rw [hassoc] at hvalid hcell
      exact hvalid.spent_before hcell hinput
    have hkeyed : CellsKeyed (past ++ pre) := by
      rw [hassoc] at hvalid
      exact hvalid.append_left.cellsKeyed
    obtain ⟨spent, hmem, houtpoint⟩ := spentOf_of_cell hinput
      ((cellAt_eq_some hkeyed).mpr ⟨row.cell, hbefore, rfl, rfl⟩)
    have hnodup : ((Past.flatMap spentOf past (pre ++ a :: rest)).map (·.outpoint)).Nodup := by
      refine List.Nodup.sublist (spentUtxos_sublist past _) ?_
      have hspentOnce := hvalid.spentOnce
      rw [inputsOf, List.flatMap_append] at hspentOnce
      exact (List.nodup_append.mp hspentOnce).2.1
    rw [spendAll_of_mem hnodup (Past.mem_flatMap.mpr ⟨pre, a, rest, rfl, hmem⟩) houtpoint.symm]
    have htxid := (mem_spentOf hmem).1
    show (row.cell, some accepted.acceptingBlock, some spent.spendingTxid) = _
    rw [settle, show row.cell.outpoint = row.outpoint from rfl, hspender, htxid]
    show _ = (row.cell, some a.block, some a.tx.txid)
    rw [hblock a ha]
  · have hnone : spenderOf block row.outpoint = none := spenderOf_eq_none.mpr hspent
    rw [spendAll_of_notMem, hrow, settle, settle, spenderOf_append,
      show row.cell.outpoint = row.outpoint from rfl, hnone, Option.or_none]
    intro spent hmem heq
    exact hspent (heq ▸ (spentUtxos_sublist past block).subset (List.mem_map_of_mem hmem))

/-- The rows a block inserts, as cells. -/
theorem createdRow_cell {dec : Decoders}
    (hplaced : ∀ a ∈ block, a.block = accepted.acceptingBlock ∧ a.daa = accepting.daaScore) :
    ((blockBatch compute s accepted accepting decoder past block).createdUtxos.map
        (createdRow dec (blockBatch compute s accepted accepting decoder past block))).map
          (·.cell) = cellsOf block := by
  rw [List.map_map, cellsOf]
  show (block.flatMap fun a ↦ createdCells a.tx).map _ = _
  rw [List.map_flatMap]
  refine List.flatMap_congr fun a ha ↦ ?_
  rw [a.cells_eq]
  refine List.map_congr_left fun utxo _ ↦ ?_
  obtain ⟨hblock, hdaa⟩ := hplaced a ha
  rw [hblock, hdaa]
  rfl

/-- **The cells after the next block.** -/
theorem Represents.applyCells (h : Represents compute s past)
    (hvalid : ValidHistory (past ++ block)) {dec : Decoders}
    (hplaced : ∀ a ∈ block, a.block = accepted.acceptingBlock ∧ a.daa = accepting.daaScore) :
    (applyCells dec (blockBatch compute s accepted accepting decoder past block)
        s.covenantUtxos).map (·.settled) =
      (cellsOf (past ++ block)).map (settle (past ++ block)) := by
  have hblock : ∀ a ∈ block, a.block = accepted.acceptingBlock := fun a ha ↦ (hplaced a ha).1
  rw [h.spendsLive hvalid |>.applyCells_eq, List.map_append, cellsOf_append, List.map_append]
  refine congrArg₂ (· ++ ·) ?_ ?_
  · have hcells : s.covenantUtxos.map (·.cell) = cellsOf past := by
      have := congrArg (List.map (·.1)) h.cells
      rw [List.map_map, List.map_map] at this
      exact this.trans (List.map_id _)
    rw [← hcells, List.map_map, List.map_map]
    refine List.map_congr_left fun row hrow ↦ ?_
    obtain ⟨hcell, hsettled⟩ := h.cell_of_row hrow
    refine spendAll_settled hvalid ?_ hsettled hblock
    rw [cellsOf_append]
    exact List.mem_append_left _ hcell
  · let batch := blockBatch compute s accepted accepting decoder past block
    have hcells : (batch.createdUtxos.map (createdRow dec batch)).map (·.cell) =
        cellsOf block := createdRow_cell hplaced
    rw [← hcells]
    refine List.map_map.trans ((List.map_congr_left fun row hrow ↦ ?_).trans List.map_map.symm)
    have hcell : row.cell ∈ cellsOf block := by
      rw [← hcells]
      exact List.mem_map_of_mem hrow
    refine spendAll_settled hvalid ?_ ?_ hblock
    · rw [cellsOf_append]
      exact List.mem_append_right _ hcell
    · have hnone : spenderOf past row.cell.outpoint = none :=
        spenderOf_eq_none.mpr (hvalid.created_notMem_inputs hcell)
      obtain ⟨utxo, -, rfl⟩ := List.mem_map.mp hrow
      rw [settle, hnone]
      rfl

/-- What the ledger says of an event of a batch. -/
def NewEvent.fact (event : NewEvent) (block : AcceptedBlockBatch) : EventFact :=
  { covenantId := event.covenantId
    kind := event.kind
    txid := event.txid
    acceptingBlock := block.acceptingBlock
    acceptingDaa := block.acceptingDaa
    txIndex := some event.txIndex }

theorem numberedRows_fact (dec : Decoders) (block : AcceptedBlockBatch) (rows : List EventRow)
    (next : Nat) (events : List NewEvent) :
    ((numberEvents dec block rows next events).map (numberedRow dec block)).map (·.fact) =
      events.map (·.fact block) := by
  conv_rhs => rw [← numberEvents_map_event dec block rows next events]
  rw [List.map_map, List.map_map]
  rfl

/-- **The events of the next block.** -/
theorem Represents.blockEvents (h : Represents compute s past)
    (hvalid : ValidHistory (past ++ block))
    (hplaced : ∀ a ∈ block, a.block = accepted.acceptingBlock ∧ a.daa = accepting.daaScore) :
    (blockEvents compute s past block).map
        (·.fact (blockBatch compute s accepted accepting decoder past block)) =
      Past.flatMap (txEvents compute) past block := by
  have hshift := Past.flatMap_shift (txEvents compute) past [] block
  rw [List.append_nil] at hshift
  rw [hshift, Kascov.blockEvents, Past.map_flatMap_congr]
  intro pre a rest heq
  have ha : a ∈ block := heq ▸ (by simp)
  have hkeyed : CellsKeyed (past ++ pre) := by
    rw [heq, ← List.append_assoc] at hvalid
    exact hvalid.append_left.cellsKeyed
  rw [List.nil_append, newEvents, txEvents, List.map_map]
  conv_rhs => rw [← List.zipIdx_map_fst 0 (touchedIds (past ++ pre) a), List.map_map]
  refine List.map_congr_left fun touched _ ↦ ?_
  show EventFact.mk touched.1
    (kindWhen compute (past ++ pre) a touched.1 (seenAt s past pre touched.1)) a.tx.txid _ _ _ = _
  rw [h.seenAt_eq hkeyed]
  obtain ⟨hblock, hdaa⟩ := hplaced a ha
  show _ = EventFact.mk touched.1 _ a.tx.txid a.block a.daa _
  rw [hblock, hdaa]
  rfl

theorem blockEvents_ids (compute : ComputeCovenantId) (s : Store) (past block : List Accepted) :
    (blockEvents compute s past block).map (·.covenantId) = touchedBy past block := by
  have hshift := Past.flatMap_shift touchedIds past [] block
  rw [List.append_nil] at hshift
  rw [touchedBy, hshift, Kascov.blockEvents, Past.map_flatMap_congr]
  intro pre a rest _
  rw [List.nil_append, newEvents, List.map_map]
  exact List.zipIdx_map_fst 0 _

theorem knownCovenant_recordEvents (block : AcceptedBlockBatch) (events : List NewEvent)
    (rows : List CovenantRow) (id : CovenantId) :
    (∃ row ∈ events.foldl (recordEvent block) rows, row.covenantId = id) ↔
      (∃ row ∈ rows, row.covenantId = id) ∨ ∃ event ∈ events, event.covenantId = id := by
  induction events generalizing rows with
  | nil => simp
  | cons event rest ih =>
      have hstep : (∃ row ∈ recordEvent block rows event, row.covenantId = id) ↔
          (∃ row ∈ rows, row.covenantId = id) ∨ event.covenantId = id := by
        constructor
        · rintro ⟨row, hrow, rfl⟩
          rcases mem_recordEvent.mp hrow with ⟨hrow, -⟩ | ⟨old, hold, hid, rfl⟩ | ⟨-, rfl⟩
          · exact .inl ⟨row, hrow, rfl⟩
          · exact .inl ⟨old, hold, rfl⟩
          · exact .inr rfl
        · rintro (⟨row, hrow, rfl⟩ | rfl)
          · by_cases hid : row.covenantId = event.covenantId
            · exact ⟨_, mem_recordEvent.mpr (.inr (.inl ⟨row, hrow, hid, rfl⟩)), rfl⟩
            · exact ⟨row, mem_recordEvent.mpr (.inl ⟨hrow, hid⟩), rfl⟩
          · by_cases hold : ∃ old ∈ rows, old.covenantId = event.covenantId
            · obtain ⟨old, hold, hid⟩ := hold
              exact ⟨_, mem_recordEvent.mpr (.inr (.inl ⟨old, hold, hid, rfl⟩)), hid⟩
            · have hnone : ∀ old ∈ rows, old.covenantId ≠ event.covenantId :=
                fun old hmem hid ↦ hold ⟨old, hmem, hid⟩
              exact ⟨_, mem_recordEvent.mpr (.inr (.inr ⟨hnone, rfl⟩)), rfl⟩
      rw [List.foldl_cons, ih, hstep, List.exists_mem_cons_iff, or_assoc]

end Batch

end Kascov
