import Kascov.Ledger.Refines
import Kascov.Undo.Reachable

/-!
# Blocks that touch nothing, and blocks undone

A block that touches no covenant leaves no trace in the ledger, so a store represents a
history with it or without it.  A rollback takes a store from a history back to a beginning
of it, when it removes every canonical block of what follows.
-/

namespace Kascov

/-! ## Blocks that touch no covenant -/

theorem ValidHistory.append_right {past more : List Accepted}
    (h : ValidHistory (past ++ more)) : ValidHistory more := by
  refine ⟨?_, ?_, fun a ha ↦ h.notOwn a (List.mem_append_right _ ha),
    (List.pairwise_append.mp h.notLater).2.1⟩
  · have htxids := h.txids
    rw [List.map_append] at htxids
    exact (List.nodup_append.mp htxids).2.1
  · have hspent := h.spentOnce
    rw [inputsOf, List.flatMap_append] at hspent
    exact (List.nodup_append.mp hspent).2.1

/-- The covenants two stretches touch. -/
theorem touchedBy_append (past block more : List Accepted) :
    touchedBy past (block ++ more) = touchedBy past block ++ touchedBy (past ++ block) more :=
  Past.flatMap_append _ _ _ _

theorem touchedBy_eq_nil {past block : List Accepted} :
    touchedBy past block = [] ↔
      ∀ pre a rest, block = pre ++ a :: rest → touchedIds (past ++ pre) a = [] := by
  rw [List.eq_nil_iff_forall_not_mem]
  constructor
  · intro h pre a rest heq
    refine List.eq_nil_iff_forall_not_mem.mpr fun id hid ↦ h id ?_
    exact Past.mem_flatMap.mpr ⟨pre, a, rest, heq, hid⟩
  · intro h id hid
    obtain ⟨pre, a, rest, heq, hid⟩ := Past.mem_flatMap.mp hid
    rw [h pre a rest heq] at hid
    cases hid

section Quiet

variable {past block : List Accepted}

/-- What touches nothing creates nothing. -/
theorem cellsOf_quiet (past : List Accepted) {block : List Accepted}
    (hkeyed : CellsKeyed (past ++ block)) (h : touchedBy past block = []) :
    cellsOf block = [] := by
  refine List.eq_nil_iff_forall_not_mem.mpr fun cell hcell ↦ ?_
  obtain ⟨a, ha, hmem⟩ := List.mem_flatMap.mp hcell
  obtain ⟨pre, rest, rfl⟩ := List.append_of_mem ha
  rw [← List.append_assoc] at hkeyed
  have htouched := (mem_touchedIds hkeyed.append_left).mpr (.inr (List.mem_map_of_mem hmem))
  rw [touchedBy_eq_nil.mp h pre a rest rfl] at htouched
  cases htouched

/-- What touches nothing spends no cell that was there before. -/
theorem spenderOf_quiet (hkeyed : CellsKeyed (past ++ block)) (h : touchedBy past block = [])
    {cell : Cell} (hcell : cell ∈ cellsOf past) : spenderOf block cell.outpoint = none := by
  refine spenderOf_eq_none.mpr fun hspent ↦ ?_
  obtain ⟨a, ha, hinput⟩ := List.mem_flatMap.mp hspent
  obtain ⟨pre, rest, rfl⟩ := List.append_of_mem ha
  rw [← List.append_assoc] at hkeyed
  have hbefore : cell ∈ cellsOf (past ++ pre) := by
    rw [cellsOf_append]
    exact List.mem_append_left _ hcell
  have htouched := (mem_touchedIds hkeyed.append_left).mpr (.inl ⟨cell, hbefore, rfl, hinput⟩)
  rw [touchedBy_eq_nil.mp h pre a rest rfl] at htouched
  cases htouched

theorem settle_quiet (hkeyed : CellsKeyed (past ++ block)) (h : touchedBy past block = [])
    {cell : Cell} (hcell : cell ∈ cellsOf past) :
    settle (past ++ block) cell = settle past cell := by
  rw [settle, settle, spenderOf_append, spenderOf_quiet hkeyed h hcell, Option.or_none]

/-- The events of a transaction are of the covenants it touches. -/
theorem txEvents_ids (compute : ComputeCovenantId) (past : List Accepted) (a : Accepted) :
    (txEvents compute past a).map (·.covenantId) = touchedIds past a := by
  rw [txEvents, List.map_map]
  exact List.map_id _

/-- The events of a stretch are of the covenants it touches. -/
theorem flatMap_txEvents_ids (compute : ComputeCovenantId) (past block : List Accepted) :
    (Past.flatMap (txEvents compute) past block).map (·.covenantId) = touchedBy past block :=
  Past.map_flatMap_congr fun pre a _ _ ↦ txEvents_ids compute (past ++ pre) a

/-- What touches nothing has no event. -/
theorem flatMap_txEvents_quiet (compute : ComputeCovenantId) (h : touchedBy past block = []) :
    Past.flatMap (txEvents compute) past block = [] := by
  rw [← flatMap_txEvents_ids compute] at h
  exact List.map_eq_nil_iff.mp h

/-- **What touches nothing is as good as absent.** -/
theorem represents_append_quiet (compute : ComputeCovenantId) (s : Store)
    (hkeyed : CellsKeyed (past ++ block)) (hquiet : touchedBy past block = []) :
    Represents compute s (past ++ block) ↔ Represents compute s past := by
  have hcells : cellsOf (past ++ block) = cellsOf past := by
    rw [cellsOf_append, cellsOf_quiet _ hkeyed hquiet, List.append_nil]
  have hsettled : (cellsOf (past ++ block)).map (settle (past ++ block)) =
      (cellsOf past).map (settle past) := by
    rw [hcells]
    exact List.map_congr_left fun cell hcell ↦ settle_quiet hkeyed hquiet hcell
  have hevents : ledgerEvents compute (past ++ block) = ledgerEvents compute past := by
    rw [ledgerEvents, ledgerEvents, Past.flatMap_append, List.nil_append,
      flatMap_txEvents_quiet compute hquiet, List.append_nil]
  have hseen : ∀ id, SeenBefore (past ++ block) id ↔ SeenBefore past id := by
    intro id
    rw [SeenBefore, SeenBefore, hcells]
  constructor
  · exact fun h ↦ ⟨h.cells.trans hsettled, h.events.trans hevents,
      fun id ↦ (h.known id).trans (hseen id)⟩
  · exact fun h ↦ ⟨h.cells.trans hsettled.symm, h.events.trans hevents.symm,
      fun id ↦ (h.known id).trans (hseen id).symm⟩

end Quiet

/-! ## Blocks undone -/

theorem represents_fresh (compute : ComputeCovenantId) (epoch : StreamEpoch) :
    Represents compute (.fresh epoch) [] :=
  ⟨rfl, rfl, fun id ↦ by simp [Store.knownCovenant, Store.fresh, SeenBefore, cellsOf]⟩

/-- A covenant is touched just when an output of it was created. -/
theorem mem_touchedBy {past : List Accepted} (hkeyed : CellsKeyed past) (id : CovenantId) :
    id ∈ touchedBy [] past ↔ SeenBefore past id := by
  have hseen := (represents_fresh (fun _ _ ↦ ⟨0⟩) ⟨0⟩).seenAt_eq hkeyed id
  rw [seenAt, Bool.eq_iff_iff, Bool.or_eq_true, decide_eq_true_eq, decide_eq_true_eq] at hseen
  rw [← List.nil_append past, ← hseen, List.nil_append]
  exact (or_iff_right fun h ↦ absurd h (by simp [Store.knownCovenant, Store.fresh])).symm

/-- A cell whose spend is undone. -/
def unsettle (hashes : List BlockHash) (t : Cell × Option BlockHash × Option TxId) :
    Cell × Option BlockHash × Option TxId :=
  if ∃ hash ∈ hashes, t.2.1 = some hash then (t.1, none, none) else t

theorem unspendRows_settled (hashes : List BlockHash) (row : UtxoRow) :
    (unspendRows hashes row).settled = unsettle hashes row.settled := by
  by_cases hspent : ∃ hash ∈ hashes, row.spentBlock = some hash
  · obtain ⟨hash, hmem, heq⟩ := hspent
    rw [unspendRows_of_mem hmem heq, unsettle, if_pos ⟨hash, hmem, heq⟩, unspendRow, if_pos heq]
    rfl
  · have hnone : ∀ hash ∈ hashes, row.spentBlock ≠ some hash :=
      fun hash hmem heq ↦ hspent ⟨hash, hmem, heq⟩
    rw [unspendRows_of_notMem hnone, unsettle]
    exact (if_neg hspent).symm

/-- The cells a rollback leaves. -/
theorem rolledBackStore_settled (s : Store) (hashes : List BlockHash) :
    (rolledBackStore s hashes).covenantUtxos.map (·.settled) =
      ((s.covenantUtxos.map (·.settled)).map (unsettle hashes)).filter
        (·.1.createdBlock ∉ hashes) := by
  have hsettled : (·.settled) ∘ unspendRows hashes = unsettle hashes ∘ (·.settled) :=
    funext fun row ↦ unspendRows_settled hashes row
  rw [List.map_map, ← hsettled, ← List.map_map, List.filter_map]
  rfl

theorem rolledBackStore_fact (s : Store) (hashes : List BlockHash) :
    (rolledBackStore s hashes).covenantEvents.map (·.fact) =
      (s.covenantEvents.map (·.fact)).filter (·.acceptingBlock ∉ hashes) := by
  rw [List.filter_map]
  rfl

section Undone

variable {compute : ComputeCovenantId} {s : Store} {past more : List Accepted}
variable {hashes : List BlockHash}

theorem Accepted.cells_createdBlock {a : Accepted} {cell : Cell} (h : cell ∈ a.cells) :
    cell.createdBlock = a.block := by
  obtain ⟨output, -, h⟩ := List.mem_filterMap.mp h
  obtain ⟨binding, -, rfl⟩ := Option.map_eq_some_iff.mp h
  rfl

/-- A transaction that touches a covenant is of a canonical block. -/
theorem Represents.isCanonical (h : Represents compute s past) (hinv : ChainInvariant s)
    {pre rest : List Accepted} {a : Accepted} (heq : past = pre ++ a :: rest) {id : CovenantId}
    (htouched : id ∈ touchedIds pre a) : s.isCanonical a.block = true := by
  rw [← txEvents_ids compute] at htouched
  obtain ⟨e, he, -⟩ := List.mem_map.mp htouched
  have hmem : e ∈ ledgerEvents compute past := Past.mem_flatMap.mpr ⟨pre, a, rest, heq, he⟩
  have hblock : e.acceptingBlock = a.block := by
    obtain ⟨_, -, rfl⟩ := List.mem_map.mp he
    rfl
  rw [← h.events] at hmem
  obtain ⟨row, hrow, rfl⟩ := List.mem_map.mp hmem
  exact hblock ▸ hinv.canonical row hrow

/-- What is of no canonical block touches nothing. -/
theorem Represents.touchedBy_eq_nil (h : Represents compute s (past ++ more))
    (hinv : ChainInvariant s) (hnone : ∀ a ∈ more, ¬s.isCanonical a.block = true) :
    touchedBy past more = [] := by
  refine Kascov.touchedBy_eq_nil.mpr fun pre a rest heq ↦ ?_
  refine List.eq_nil_iff_forall_not_mem.mpr fun id hid ↦ ?_
  refine hnone a (heq ▸ List.mem_append_right _ List.mem_cons_self) ?_
  have hsplit : past ++ more = (past ++ pre) ++ a :: rest := by
    rw [heq, List.append_assoc]
  exact h.isCanonical hinv hsplit hid

variable (h : Represents compute s (past ++ more)) (hvalid : ValidHistory (past ++ more))
  (hinv : ChainInvariant s) (hkeep : ∀ a ∈ past, a.block ∉ hashes)
  (hdrop : ∀ a ∈ more, s.isCanonical a.block = true → a.block ∈ hashes)

include h hinv hdrop

/-- What touches a covenant behind the beginning is undone. -/
theorem Represents.undone {pre rest : List Accepted} {a : Accepted}
    (heq : more = pre ++ a :: rest) {id : CovenantId}
    (htouched : id ∈ touchedIds (past ++ pre) a) : a.block ∈ hashes := by
  refine hdrop a (heq ▸ List.mem_append_right _ List.mem_cons_self) ?_
  have hsplit : past ++ more = (past ++ pre) ++ a :: rest := by
    rw [heq, List.append_assoc]
  exact h.isCanonical hinv hsplit htouched

include hvalid

theorem Represents.undone_created {cell : Cell} (hcell : cell ∈ cellsOf more) :
    cell.createdBlock ∈ hashes := by
  obtain ⟨a, ha, hmem⟩ := List.mem_flatMap.mp hcell
  have hblock : cell.createdBlock = a.block := Accepted.cells_createdBlock hmem
  obtain ⟨pre, rest, heq⟩ := List.append_of_mem ha
  have hkeyed := hvalid.cellsKeyed
  rw [heq, ← List.append_assoc] at hkeyed
  have htouched := (mem_touchedIds hkeyed.append_left).mpr (.inr (List.mem_map_of_mem hmem))
  exact hblock ▸ h.undone hinv hdrop heq htouched

theorem Represents.undone_spent {cell : Cell} (hcell : cell ∈ cellsOf past) {a : Accepted}
    (hspender : spenderOf more cell.outpoint = some a) : a.block ∈ hashes := by
  have ha := List.mem_of_find?_eq_some hspender
  have hinput : cell.outpoint ∈ a.inputs := by simpa using List.find?_some hspender
  obtain ⟨pre, rest, heq⟩ := List.append_of_mem ha
  have hkeyed := hvalid.cellsKeyed
  rw [heq, ← List.append_assoc] at hkeyed
  have hbefore : cell ∈ cellsOf (past ++ pre) := by
    rw [cellsOf_append]
    exact List.mem_append_left _ hcell
  have htouched := (mem_touchedIds hkeyed.append_left).mpr (.inl ⟨cell, hbefore, rfl, hinput⟩)
  exact h.undone hinv hdrop heq htouched

include hkeep

theorem Represents.unsettle_eq {cell : Cell} (hcell : cell ∈ cellsOf past) :
    unsettle hashes (settle (past ++ more) cell) = settle past cell := by
  rw [settle, settle, spenderOf_append]
  rcases hpast : spenderOf past cell.outpoint with _ | a
  · rw [Option.none_or]
    rcases hmore : spenderOf more cell.outpoint with _ | a
    · refine if_neg ?_
      rintro ⟨hash, -, hnone⟩
      cases hnone
    · exact if_pos ⟨a.block, h.undone_spent hvalid hinv hdrop hcell hmore, rfl⟩
  · refine if_neg ?_
    rintro ⟨hash, hmem, heq⟩
    have hblock : a.block = hash := Option.some.inj heq
    exact hkeep a (List.mem_of_find?_eq_some hpast) (hblock ▸ hmem)

/-- **A rollback leads back to the beginning of a history.** -/
theorem Represents.rolledBack : Represents compute (rolledBackStore s hashes) past := by
  have hcreatedIn : ∀ cell ∈ cellsOf past, cell.createdBlock ∉ hashes := by
    intro cell hcell
    obtain ⟨a, ha, hcell⟩ := List.mem_flatMap.mp hcell
    exact Accepted.cells_createdBlock hcell ▸ hkeep a ha
  have hevents : (rolledBackStore s hashes).covenantEvents.map (·.fact) =
      ledgerEvents compute past := by
    rw [rolledBackStore_fact, h.events, ledgerEvents, Past.flatMap_append, List.filter_append,
      List.filter_eq_self.mpr, List.filter_eq_nil_iff.mpr, List.append_nil]
    · rfl
    · intro e he
      obtain ⟨pre, a, rest, heq, he⟩ := Past.mem_flatMap.mp he
      obtain ⟨id, hid, rfl⟩ := List.mem_map.mp he
      rw [List.nil_append] at hid
      simpa using h.undone hinv hdrop heq hid
    · intro e he
      obtain ⟨pre, a, rest, heq, he⟩ := Past.mem_flatMap.mp he
      obtain ⟨id, -, rfl⟩ := List.mem_map.mp he
      exact decide_eq_true (hkeep a (heq ▸ List.mem_append_right _ List.mem_cons_self))
  refine ⟨?_, hevents, fun id ↦ ?_⟩
  · rw [rolledBackStore_settled, h.cells, List.map_map, cellsOf_append, List.map_append,
      List.filter_append, List.filter_eq_self.mpr, List.filter_eq_nil_iff.mpr, List.append_nil]
    · exact List.map_congr_left fun cell hcell ↦ h.unsettle_eq hvalid hinv hkeep hdrop hcell
    · intro t ht
      obtain ⟨cell, hcell, rfl⟩ := List.mem_map.mp ht
      have hcreated := h.undone_created hvalid hinv hdrop hcell
      have hfst : (unsettle hashes (settle (past ++ more) cell)).1 = cell := by
        unfold unsettle
        split <;> rfl
      rw [Function.comp_apply, hfst, decide_eq_true_eq, not_not]
      exact hcreated
    · intro t ht
      obtain ⟨cell, hcell, rfl⟩ := List.mem_map.mp ht
      rw [Function.comp_apply, h.unsettle_eq hvalid hinv hkeep hdrop hcell]
      exact decide_eq_true (hcreatedIn cell hcell)
  · rw [Store.knownCovenant, List.any_eq_true]
    simp only [decide_eq_true_eq]
    rw [(hinv.rolledBack hashes).counts.known_iff, ← mem_touchedBy hvalid.append_left.cellsKeyed,
      ← flatMap_txEvents_ids compute]
    change _ ↔ id ∈ (ledgerEvents compute past).map (·.covenantId)
    rw [← hevents, List.map_map, List.mem_map]
    rfl

end Undone

/-! ## A beginning that touches nothing -/

section Dropped

variable {extra : List Accepted}

theorem touchedIds_congr {past past' : List Accepted} (h : cellsOf past = cellsOf past')
    (a : Accepted) : touchedIds past a = touchedIds past' a := by
  have hcell : cellAt past = cellAt past' := by
    funext o
    rw [cellAt, cellAt, h]
  rw [touchedIds, touchedIds, hcell]

/-- The events of a transaction depend on the cells before it. -/
theorem txEvents_congr (compute : ComputeCovenantId) {past past' : List Accepted}
    (h : cellsOf past = cellsOf past') (a : Accepted) :
    txEvents compute past a = txEvents compute past' a := by
  have hspends : ∀ id, SpendsCell past a id ↔ SpendsCell past' a id := by
    intro id
    rw [SpendsCell, SpendsCell, h]
  have hseen : ∀ id, SeenBefore past id ↔ SeenBefore past' id := by
    intro id
    rw [SeenBefore, SeenBefore, h]
  have hkind : ∀ id, ledgerKind compute past a id = ledgerKind compute past' a id := by
    intro id
    rw [ledgerKind, ledgerKind, decide_eq_decide.mpr (hseen id), kindWhen, kindWhen]
    exact if_congr (hspends id) rfl rfl
  rw [txEvents, txEvents, touchedIds_congr h]
  refine List.map_congr_left fun id _ ↦ ?_
  rw [hkind]

/-- What a transaction touches, it touches behind a longer past. -/
theorem touchedIds_length_le {pre : List Accepted} (hkeyed : CellsKeyed (extra ++ pre))
    (a : Accepted) : (touchedIds pre a).length ≤ (touchedIds (extra ++ pre) a).length := by
  have hpre : CellsKeyed pre := by
    rw [CellsKeyed, cellsOf_append, List.map_append] at hkeyed
    exact (List.nodup_append.mp hkeyed).2.1
  refine ((touchedIds_nodup pre a).subperm fun id hid ↦ ?_).length_le
  rw [mem_touchedIds hpre] at hid
  rw [mem_touchedIds hkeyed]
  refine hid.imp_left ?_
  rintro ⟨cell, hcell, hspends⟩
  refine ⟨cell, ?_, hspends⟩
  rw [cellsOf_append]
  exact List.mem_append_right _ hcell

theorem touchedBy_length_le (extra past : List Accepted) {block : List Accepted}
    (hkeyed : CellsKeyed (extra ++ (past ++ block))) :
    (touchedBy past block).length ≤ (touchedBy (extra ++ past) block).length := by
  induction block generalizing past with
  | nil => exact Nat.le_refl 0
  | cons a rest ih =>
      have hpast : CellsKeyed (extra ++ past) := by
        rw [← List.append_assoc] at hkeyed
        exact hkeyed.append_left
      have hrest := ih (past ++ [a]) (by rw [List.append_assoc]; exact hkeyed)
      rw [touchedBy, touchedBy, Past.flatMap_cons, Past.flatMap_cons, List.length_append,
        List.length_append]
      rw [← List.append_assoc] at hrest
      exact Nat.add_le_add (touchedIds_length_le hpast a) hrest

variable {compute : ComputeCovenantId} {s s' : Store} {rest : List Accepted}

/-- The rows of two stores agree: the events with what the ledger says of them, and the
cells with their spends. -/
def SameRows (s s' : Store) : Prop :=
  (s.covenantEvents.map (·.fact)).Perm (s'.covenantEvents.map (·.fact)) ∧
    (s.covenantUtxos.map (·.settled)).Perm (s'.covenantUtxos.map (·.settled))

/-- **A longer history.**  Two stores of which one represents a longer history have the same
rows just when what it begins with touches nothing. -/
theorem sameRows_iff_quiet (h : Represents compute s (extra ++ rest))
    (h' : Represents compute s' rest) (hvalid : ValidHistory (extra ++ rest)) :
    SameRows s s' ↔ touchedBy [] extra = [] := by
  have hkeyed := hvalid.cellsKeyed
  constructor
  · rintro ⟨hevents, -⟩
    have hlength := (hevents.map (·.covenantId)).length_eq
    rw [h.events, h'.events, ledgerEvents, ledgerEvents, flatMap_txEvents_ids,
      flatMap_txEvents_ids, touchedBy_append, List.length_append, List.nil_append] at hlength
    have hle := touchedBy_length_le extra [] hkeyed
    rw [List.append_nil] at hle
    exact List.eq_nil_of_length_eq_zero (by omega)
  · intro hquiet
    have hnone : cellsOf extra = [] := cellsOf_quiet [] hkeyed.append_left hquiet
    have hcells : ∀ more, cellsOf (extra ++ more) = cellsOf more := by
      intro more
      rw [cellsOf_append, hnone, List.nil_append]
    constructor
    · have hshift := Past.flatMap_shift (txEvents compute) extra [] rest
      rw [List.append_nil] at hshift
      have hcongr : (fun pre a ↦ txEvents compute (extra ++ pre) a) = txEvents compute :=
        funext fun pre ↦ funext fun a ↦ txEvents_congr compute (hcells pre) a
      rw [h.events, h'.events, ledgerEvents, ledgerEvents, Past.flatMap_append, List.nil_append,
        flatMap_txEvents_quiet compute hquiet, List.nil_append, hshift, hcongr]
    · rw [h.cells, h'.cells, hcells]
      refine List.Perm.of_eq (List.map_congr_left fun cell hcell ↦ ?_)
      have hunspent : spenderOf extra cell.outpoint = none :=
        spenderOf_eq_none.mpr (hvalid.created_notMem_inputs hcell)
      rw [settle, settle, spenderOf_append, hunspent, Option.none_or]

end Dropped

end Kascov
