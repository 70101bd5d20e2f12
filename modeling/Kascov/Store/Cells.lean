import Kascov.Store.Effect

/-!
# The cell table under a well-formed block

A block that consensus accepted creates outpoints that did not exist and spends
each outpoint at most once.  Under these two facts the two loops over
`covenant_utxos` have a closed form: the created rows are appended, and each
row takes the one spend that names it.
-/

namespace Kascov

/-- A row after the spends of a block. -/
def spendAll (dec : Decoders) (block : AcceptedBlockBatch) (row : UtxoRow) : UtxoRow :=
  block.spentUtxos.foldl (fun row spent ↦
    if row.outpoint = spent.outpoint then spendRow dec block spent row else row) row

theorem foldl_markSpent (dec : Decoders) (block : AcceptedBlockBatch) (rows : List UtxoRow) :
    block.spentUtxos.foldl (markSpent dec block) rows = rows.map (spendAll dec block) :=
  Rows.foldl_map (fun (spent : SpentUtxo) (row : UtxoRow) ↦
    if row.outpoint = spent.outpoint then spendRow dec block spent row else row) _ _

section SpendRow

variable (dec : Decoders) (block : AcceptedBlockBatch) (spent : SpentUtxo) (row : UtxoRow)

@[simp] theorem spendRow_outpoint : (spendRow dec block spent row).outpoint = row.outpoint := rfl

@[simp] theorem spendRow_createdBlock :
    (spendRow dec block spent row).createdBlock = row.createdBlock := rfl

@[simp] theorem spendRow_covenantId :
    (spendRow dec block spent row).covenantId = row.covenantId := rfl

end SpendRow

/-- What no spend changes is the same after all of them. -/
theorem spendAll_frame {γ : Type} (dec : Decoders) (block : AcceptedBlockBatch)
    (proj : UtxoRow → γ) (h : ∀ spent row, proj (spendRow dec block spent row) = proj row)
    (row : UtxoRow) : proj (spendAll dec block row) = proj row := by
  unfold spendAll
  induction block.spentUtxos generalizing row with
  | nil => rfl
  | cons spent rest ih =>
      rw [List.foldl_cons, ih]
      split
      · exact h spent row
      · rfl

@[simp] theorem spendAll_outpoint (dec : Decoders) (block : AcceptedBlockBatch)
    (row : UtxoRow) : (spendAll dec block row).outpoint = row.outpoint :=
  spendAll_frame dec block (·.outpoint) (fun _ _ ↦ rfl) row

@[simp] theorem spendAll_createdBlock (dec : Decoders) (block : AcceptedBlockBatch)
    (row : UtxoRow) : (spendAll dec block row).createdBlock = row.createdBlock :=
  spendAll_frame dec block (·.createdBlock) (fun _ _ ↦ rfl) row

@[simp] theorem spendAll_covenantId (dec : Decoders) (block : AcceptedBlockBatch)
    (row : UtxoRow) : (spendAll dec block row).covenantId = row.covenantId :=
  spendAll_frame dec block (·.covenantId) (fun _ _ ↦ rfl) row

theorem foldl_spend_of_notMem (dec : Decoders) (block : AcceptedBlockBatch)
    {spents : List SpentUtxo} {row : UtxoRow}
    (h : ∀ spent ∈ spents, row.outpoint ≠ spent.outpoint) :
    spents.foldl (fun row spent ↦
      if row.outpoint = spent.outpoint then spendRow dec block spent row else row) row = row := by
  induction spents with
  | nil => rfl
  | cons spent rest ih =>
      rw [List.foldl_cons, if_neg (h spent List.mem_cons_self)]
      exact ih fun other hother ↦ h other (List.mem_cons_of_mem _ hother)

/-- A row no spend names stays. -/
theorem spendAll_of_notMem {dec : Decoders} {block : AcceptedBlockBatch} {row : UtxoRow}
    (h : ∀ spent ∈ block.spentUtxos, row.outpoint ≠ spent.outpoint) :
    spendAll dec block row = row :=
  foldl_spend_of_notMem dec block h

/-- A row one spend names takes it. -/
theorem spendAll_of_mem {dec : Decoders} {block : AcceptedBlockBatch} {row : UtxoRow}
    {spent : SpentUtxo} (hnodup : (block.spentUtxos.map (·.outpoint)).Nodup)
    (hmem : spent ∈ block.spentUtxos) (heq : row.outpoint = spent.outpoint) :
    spendAll dec block row = spendRow dec block spent row := by
  unfold spendAll
  generalize block.spentUtxos = spents at hnodup hmem
  induction spents with
  | nil => cases hmem
  | cons hd tl ih =>
      rw [List.map_cons, List.nodup_cons] at hnodup
      rcases List.mem_cons.mp hmem with rfl | hmem
      · rw [List.foldl_cons, if_pos heq]
        refine foldl_spend_of_notMem dec block fun other hother hne ↦ hnodup.1 ?_
        rw [spendRow_outpoint, heq] at hne
        exact hne ▸ List.mem_map_of_mem hother
      · have hne : row.outpoint ≠ hd.outpoint := by
          intro hne
          exact hnodup.1 (hne ▸ heq ▸ List.mem_map_of_mem hmem)
        rw [List.foldl_cons, if_neg hne]
        exact ih hnodup.2 hmem

/-! ## Well-formed blocks -/

/-- The block creates only new outpoints, each once, and spends only outpoints
that are live at that point or that it creates, each once. -/
structure SpendsLive (rows : List UtxoRow) (block : AcceptedBlockBatch) : Prop where
  createdOnce : (block.createdUtxos.map (·.outpoint)).Nodup
  createdNew : ∀ utxo ∈ block.createdUtxos, ∀ row ∈ rows, row.outpoint ≠ utxo.outpoint
  spentOnce : (block.spentUtxos.map (·.outpoint)).Nodup
  spentLive : ∀ spent ∈ block.spentUtxos,
    (∃ row ∈ rows, row.outpoint = spent.outpoint ∧ row.spentBlock = none) ∨
      ∃ utxo ∈ block.createdUtxos, utxo.outpoint = spent.outpoint

instance (rows : List UtxoRow) (block : AcceptedBlockBatch) :
    Decidable (SpendsLive rows block) :=
  decidable_of_iff
    ((block.createdUtxos.map (·.outpoint)).Nodup ∧
      (∀ utxo ∈ block.createdUtxos, ∀ row ∈ rows, row.outpoint ≠ utxo.outpoint) ∧
      (block.spentUtxos.map (·.outpoint)).Nodup ∧
      ∀ spent ∈ block.spentUtxos,
        (∃ row ∈ rows, row.outpoint = spent.outpoint ∧ row.spentBlock = none) ∨
          ∃ utxo ∈ block.createdUtxos, utxo.outpoint = spent.outpoint)
    ⟨fun ⟨a, b, c, d⟩ ↦ ⟨a, b, c, d⟩, fun ⟨a, b, c, d⟩ ↦ ⟨a, b, c, d⟩⟩

theorem foldl_insertCreated {dec : Decoders} {block : AcceptedBlockBatch}
    {utxos : List NewUtxo} {rows : List UtxoRow}
    (hnodup : (utxos.map (·.outpoint)).Nodup)
    (hnew : ∀ utxo ∈ utxos, ∀ row ∈ rows, row.outpoint ≠ utxo.outpoint) :
    utxos.foldl (insertCreated dec block) rows = rows ++ utxos.map (createdRow dec block) := by
  induction utxos generalizing rows with
  | nil => simp
  | cons utxo rest ih =>
      rw [List.map_cons, List.nodup_cons] at hnodup
      have hkeep : rows.filter (·.outpoint ≠ utxo.outpoint) = rows := by
        rw [List.filter_eq_self]
        intro row hrow
        simpa using hnew utxo List.mem_cons_self row hrow
      rw [List.foldl_cons, insertCreated, hkeep, ih hnodup.2]
      · simp
      · intro other hother row hrow
        rcases List.mem_append.mp hrow with hrow | hrow
        · exact hnew other (List.mem_cons_of_mem _ hother) row hrow
        · rw [List.mem_singleton.mp hrow]
          intro heq
          exact hnodup.1 (List.mem_map.mpr ⟨other, hother, heq.symm⟩)

/-- **The cell phase of a well-formed block.** -/
theorem SpendsLive.applyCells_eq {dec : Decoders} {block : AcceptedBlockBatch}
    {rows : List UtxoRow} (h : SpendsLive rows block) :
    applyCells dec block rows =
      rows.map (spendAll dec block) ++
        (block.createdUtxos.map (createdRow dec block)).map (spendAll dec block) := by
  rw [applyCells, foldl_insertCreated h.createdOnce h.createdNew, foldl_markSpent,
    List.map_append]

/-! ## Application outputs under the spends of a block -/

/-- The block spends the outpoint. -/
def Touches (block : AcceptedBlockBatch) (o : Outpoint) : Prop :=
  ∃ spent ∈ block.spentUtxos, o = spent.outpoint

instance (block : AcceptedBlockBatch) (o : Outpoint) : Decidable (Touches block o) :=
  inferInstanceAs (Decidable (∃ spent ∈ block.spentUtxos, o = spent.outpoint))

/-- An application output after the spends of a block. -/
def spendOutputs (block : AcceptedBlockBatch) (row : ApplicationOutputRow) :
    ApplicationOutputRow :=
  if row.spentBlock = none ∧ Touches block row.outpoint then
    { row with spentBlock := some block.acceptingBlock }
  else
    row

theorem foldl_spendApplicationOutput (block : AcceptedBlockBatch)
    (rows : List ApplicationOutputRow) :
    block.spentUtxos.foldl (spendApplicationOutput block.acceptingBlock) rows =
      rows.map (spendOutputs block) := by
  let step : SpentUtxo → ApplicationOutputRow → ApplicationOutputRow := fun spent row ↦
    if row.outpoint = spent.outpoint ∧ row.spentBlock = none then
      { row with spentBlock := some block.acceptingBlock }
    else
      row
  have hrow : ∀ (spents : List SpentUtxo) (row : ApplicationOutputRow),
      spents.foldl (fun row spent ↦ step spent row) row =
        if row.spentBlock = none ∧ ∃ spent ∈ spents, row.outpoint = spent.outpoint then
          { row with spentBlock := some block.acceptingBlock }
        else
          row := by
    intro spents
    induction spents with
    | nil => simp
    | cons spent rest ih =>
        intro row
        rw [List.foldl_cons, ih]
        by_cases hnone : row.spentBlock = none
        · by_cases heq : row.outpoint = spent.outpoint <;> simp [step, hnone, heq]
        · simp [step, hnone]
  refine (Rows.foldl_map step block.spentUtxos rows).trans ?_
  exact List.map_congr_left fun row _ ↦ hrow block.spentUtxos row

@[simp] theorem spendOutputs_createdBlock (block : AcceptedBlockBatch)
    (row : ApplicationOutputRow) :
    (spendOutputs block row).createdBlock = row.createdBlock := by
  unfold spendOutputs
  split <;> rfl

@[simp] theorem spendOutputs_outpoint (block : AcceptedBlockBatch)
    (row : ApplicationOutputRow) : (spendOutputs block row).outpoint = row.outpoint := by
  unfold spendOutputs
  split <;> rfl

@[simp] theorem spendOutputs_txid (block : AcceptedBlockBatch) (row : ApplicationOutputRow) :
    (spendOutputs block row).txid = row.txid := by
  unfold spendOutputs
  split <;> rfl

@[simp] theorem spendOutputs_output (block : AcceptedBlockBatch) (row : ApplicationOutputRow) :
    (spendOutputs block row).output = row.output := by
  unfold spendOutputs
  split <;> rfl

end Kascov
