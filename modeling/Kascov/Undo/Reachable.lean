import Kascov.Lib.Runs
import Kascov.Store.Cells
import Kascov.Summary.Counts

/-!
# Stores reached by applies and rollbacks

What every run of `apply_accepted_block` and `rollback_removed_blocks` from a
fresh index keeps: outpoints are unique, a live cell carries no spend columns a
rollback resets, every event lies in a canonical block, and the covenant rows
count the events.
-/

namespace Kascov

/-- A call of one of the two block writers. -/
inductive ChainOp where
  | apply (block : AcceptedBlockBatch)
  | rollback (removed : List BlockHash)

/-- The transaction a call runs. -/
def ChainOp.commit (dec : Decoders) (s : Store) : ChainOp → Result Store
  | .apply block => (applyAcceptedBlock dec s block).map (·.1)
  | .rollback removed => (rollbackRemovedBlocks s removed).map (·.1)

/-- The store after a run of calls, each of which may fail. -/
abbrev ChainOp.run (dec : Decoders) (s : Store) (ops : List ChainOp) : Store :=
  Runs.run (ChainOp.commit dec) s ops

/-- An unspent cell has none of the spend columns that a rollback resets. -/
def UtxoRow.Clean (row : UtxoRow) : Prop :=
  row.spentBlock = none → row.spentTxid = none ∧ row.spentSig = none ∧
    row.spentBudget = none ∧ row.revealedTemplate = none

/-- The invariant of the two block writers. -/
structure ChainInvariant (s : Store) : Prop where
  outpoints : (s.covenantUtxos.map (·.outpoint)).Nodup
  clean : ∀ row ∈ s.covenantUtxos, row.Clean
  canonical : ∀ e ∈ s.covenantEvents, s.isCanonical e.acceptingBlock = true
  counts : CountInvariant s.covenants s.covenantEvents

theorem chainInvariant_fresh (epoch : StreamEpoch) : ChainInvariant (.fresh epoch) :=
  ⟨by simp [Store.fresh], by simp [Store.fresh], by simp [Store.fresh], CountInvariant.nil⟩

/-! ## Apply -/

theorem insertCreated_outpoints {dec : Decoders} {block : AcceptedBlockBatch}
    {rows : List UtxoRow} {utxo : NewUtxo} (h : (rows.map (·.outpoint)).Nodup) :
    ((insertCreated dec block rows utxo).map (·.outpoint)).Nodup := by
  rw [insertCreated, List.map_append, List.nodup_append]
  refine ⟨h.sublist (List.filter_sublist.map _), by simp, ?_⟩
  intro a ha b hb heq
  obtain ⟨row, hrow, rfl⟩ := List.mem_map.mp ha
  have hne := of_decide_eq_true (List.mem_filter.mp hrow).2
  exact hne (heq.trans (List.mem_singleton.mp hb))

theorem foldl_insertCreated_invariant {dec : Decoders} {block : AcceptedBlockBatch}
    (P : List UtxoRow → Prop)
    (step : ∀ rows utxo, P rows → P (insertCreated dec block rows utxo))
    {rows : List UtxoRow} (utxos : List NewUtxo) (h : P rows) :
    P (utxos.foldl (insertCreated dec block) rows) := by
  induction utxos generalizing rows with
  | nil => exact h
  | cons utxo rest ih => exact ih (step rows utxo h)

/-- A cell after a spend is not live. -/
theorem spendAll_spent {dec : Decoders} {block : AcceptedBlockBatch} {row : UtxoRow}
    (h : ∃ spent ∈ block.spentUtxos, row.outpoint = spent.outpoint) :
    (spendAll dec block row).spentBlock = some block.acceptingBlock := by
  unfold spendAll
  have hkeep : ∀ (spents : List SpentUtxo) (row : UtxoRow),
      row.spentBlock = some block.acceptingBlock →
      (spents.foldl (fun row spent ↦ if row.outpoint = spent.outpoint then
        spendRow dec block spent row else row) row).spentBlock = some block.acceptingBlock := by
    intro spents
    induction spents with
    | nil => exact fun _ h ↦ h
    | cons spent rest ih =>
        intro row hrow
        rw [List.foldl_cons]
        split
        · exact ih _ rfl
        · exact ih _ hrow
  obtain ⟨spent, hmem, heq⟩ := h
  generalize block.spentUtxos = spents at hmem
  induction spents with
  | nil => cases hmem
  | cons hd tl ih =>
      rw [List.foldl_cons]
      rcases List.mem_cons.mp hmem with rfl | hmem
      · rw [if_pos heq]
        exact hkeep tl _ rfl
      · split
        · exact hkeep tl _ rfl
        · exact ih hmem

theorem spendAll_clean {dec : Decoders} {block : AcceptedBlockBatch} {row : UtxoRow}
    (h : row.Clean) : (spendAll dec block row).Clean := by
  by_cases hspent : ∃ spent ∈ block.spentUtxos, row.outpoint = spent.outpoint
  · intro hnone
    rw [spendAll_spent hspent] at hnone
    cases hnone
  · push Not at hspent
    rwa [spendAll_of_notMem hspent]

theorem applyCells_outpoints {dec : Decoders} {block : AcceptedBlockBatch}
    {rows : List UtxoRow} (h : (rows.map (·.outpoint)).Nodup) :
    ((applyCells dec block rows).map (·.outpoint)).Nodup := by
  rw [applyCells, foldl_markSpent, List.map_map]
  have hproj : ((·.outpoint) ∘ spendAll dec block) = fun row : UtxoRow ↦ row.outpoint := by
    funext row
    simp
  rw [hproj]
  exact foldl_insertCreated_invariant (fun rows ↦ (rows.map (·.outpoint)).Nodup)
    (fun _ _ hrows ↦ insertCreated_outpoints hrows) block.createdUtxos h

theorem applyCells_clean {dec : Decoders} {block : AcceptedBlockBatch}
    {rows : List UtxoRow} (h : ∀ row ∈ rows, row.Clean) :
    ∀ row ∈ applyCells dec block rows, row.Clean := by
  rw [applyCells, foldl_markSpent]
  intro row hrow
  obtain ⟨old, hold, rfl⟩ := List.mem_map.mp hrow
  refine spendAll_clean ?_
  refine foldl_insertCreated_invariant (fun rows ↦ ∀ row ∈ rows, row.Clean) ?_
    block.createdUtxos h old hold
  intro rows utxo hrows row hrow
  rcases List.mem_append.mp hrow with hrow | hrow
  · exact hrows row (List.mem_of_mem_filter hrow)
  · rw [List.mem_singleton.mp hrow]
    exact fun _ ↦ ⟨rfl, rfl, rfl, rfl⟩

theorem isCanonical_appliedStore {dec : Decoders} {s : Store} {block : AcceptedBlockBatch}
    (b : BlockHash) :
    (appliedStore dec s block).isCanonical b = true ↔
      s.isCanonical b = true ∨ (0 < block.acceptingDaa ∧ block.acceptingBlock = b) := by
  by_cases h0 : 0 < block.acceptingDaa <;>
    simp [Store.isCanonical, appliedStore, h0, canonicalBatchRow]

theorem ChainInvariant.applied {dec : Decoders} {s : Store} {block : AcceptedBlockBatch}
    (h : ChainInvariant s) (hdaa : block.acceptingDaa = 0 → block.events = []) :
    ChainInvariant (appliedStore dec s block) where
  outpoints := applyCells_outpoints h.outpoints
  clean := applyCells_clean h.clean
  canonical e he := by
    rw [isCanonical_appliedStore]
    rcases List.mem_append.mp he with he | he
    · exact .inl (h.canonical e he)
    · obtain ⟨x, hx, rfl⟩ := List.mem_map.mp he
      have hx' := List.mem_map_of_mem (f := (·.1)) hx
      rw [numberEvents_map_event] at hx'
      exact .inr ⟨Nat.pos_of_ne_zero fun h0 ↦ List.ne_nil_of_mem hx' (hdaa h0), rfl⟩
  counts := h.counts.numbered dec block _ _

/-! ## Rollback -/

theorem unspendRow_clean {hash : BlockHash} {row : UtxoRow} (h : row.Clean) :
    (unspendRow hash row).Clean := by
  unfold unspendRow
  split
  · exact fun _ ↦ ⟨rfl, rfl, rfl, rfl⟩
  · exact h

theorem unspendRows_clean {hashes : List BlockHash} {row : UtxoRow} (h : row.Clean) :
    (unspendRows hashes row).Clean := by
  induction hashes generalizing row with
  | nil => exact h
  | cons hash rest ih => exact ih (unspendRow_clean h)

theorem ChainInvariant.rolledBack {s : Store} (h : ChainInvariant s)
    (hashes : List BlockHash) : ChainInvariant (rolledBackStore s hashes) where
  outpoints := by
    refine List.Nodup.sublist (List.filter_sublist.map _) ?_
    rw [List.map_map]
    have hproj : ((·.outpoint) ∘ unspendRows hashes) = fun row : UtxoRow ↦ row.outpoint := by
      funext row
      simp
    rw [hproj]
    exact h.outpoints
  clean row hrow := by
    obtain ⟨old, hold, rfl⟩ := List.mem_map.mp (List.mem_of_mem_filter hrow)
    exact unspendRows_clean (h.clean old hold)
  canonical e he := by
    obtain ⟨he, hkeep⟩ := List.mem_filter.mp he
    have hcanonical := h.canonical e he
    simp only [Store.isCanonical, rolledBackStore, List.any_eq_true] at hcanonical ⊢
    obtain ⟨row, hrow, hblock⟩ := hcanonical
    have heq : row.acceptingBlock = e.acceptingBlock := of_decide_eq_true hblock
    exact ⟨row, List.mem_filter.mpr ⟨hrow, by rwa [heq]⟩, hblock⟩
  counts := h.counts.dropBlocks hashes

/-! ## Runs -/

theorem ChainInvariant.apply {dec : Decoders} {s s' : Store} {block : AcceptedBlockBatch}
    {c : CommittedBatch} (h : ChainInvariant s)
    (hok : applyAcceptedBlock dec s block = .ok (s', c)) : ChainInvariant s' := by
  obtain ⟨_, hdaa, ⟨_, rfl⟩ | ⟨_, rfl⟩⟩ := applyAcceptedBlock_ok hok
  · exact h
  · exact h.applied hdaa

theorem ChainInvariant.rollback {s s' : Store} {removed : List BlockHash}
    {c : CommittedRemovalBatch} (h : ChainInvariant s)
    (hok : rollbackRemovedBlocks s removed = .ok (s', c)) : ChainInvariant s' := by
  obtain ⟨_, ⟨_, rfl, _⟩ | ⟨_, rfl, _⟩⟩ := rollbackRemovedBlocks_ok hok
  · exact h
  · exact h.rolledBack _

theorem chainInvariant_run (dec : Decoders) (epoch : StreamEpoch) (ops : List ChainOp) :
    ChainInvariant (ChainOp.run dec (.fresh epoch) ops) := by
  refine Runs.run_invariant ChainInvariant ?_ ops (chainInvariant_fresh epoch)
  intro s op s' hs hok
  cases op with
  | apply block =>
      obtain ⟨c, hc⟩ := map_fst_eq_ok hok
      exact hs.apply hc
  | rollback removed =>
      obtain ⟨c, hc⟩ := map_fst_eq_ok hok
      exact hs.rollback hc

end Kascov
