import Kascov.Lib.Renumber
import Kascov.Lib.Rows
import Kascov.Store.Recovery
import Mathlib.Data.List.Dedup

/-!
# What the finaliser does to a covenant

`finalize_gap_recovery` renumbers the events of each covenant of the window by
`(accepting_daa, seq)` and recomputes its summary row.  Both work on one covenant
at a time, so this file describes the event table covenant by covenant.
-/

namespace Kascov

/-- The events of one covenant. -/
def eventsOf (events : List EventRow) (id : CovenantId) : List EventRow :=
  events.filter (·.covenantId = id)

@[simp] theorem mem_eventsOf {events : List EventRow} {id : CovenantId} {row : EventRow} :
    row ∈ eventsOf events id ↔ row ∈ events ∧ row.covenantId = id := by
  simp [eventsOf]

theorem eventsOf_append (xs ys : List EventRow) (id : CovenantId) :
    eventsOf (xs ++ ys) id = eventsOf xs id ++ eventsOf ys id :=
  List.filter_append ..

theorem eventsOf_append_of_ne {rows : List EventRow} {row : EventRow} {id : CovenantId}
    (h : row.covenantId ≠ id) : eventsOf (rows ++ [row]) id = eventsOf rows id := by
  simp [eventsOf, List.filter_append, h]

theorem eventsOf_append_self {rows : List EventRow} {row : EventRow} {id : CovenantId}
    (h : row.covenantId = id) : eventsOf (rows ++ [row]) id = eventsOf rows id ++ [row] := by
  simp [eventsOf, List.filter_append, h]

/-- A row moved to another sequence. -/
def EventRow.withSeq (row : EventRow) (seq : Int) : EventRow :=
  { row with seq }

@[simp] theorem EventRow.withSeq_seq (row : EventRow) (k : Int) : (row.withSeq k).seq = k := rfl

@[simp] theorem EventRow.withSeq_covenantId (row : EventRow) (k : Int) :
    (row.withSeq k).covenantId = row.covenantId := rfl

@[simp] theorem EventRow.withSeq_self (row : EventRow) : row.withSeq row.seq = row := rfl

/-- The primary key `(covenant_id, seq)`, and what no writer goes below. -/
structure SeqKeyed (events : List EventRow) : Prop where
  nodup : ∀ id, ((eventsOf events id).map (·.seq)).Nodup
  nonneg : ∀ row ∈ events, 0 ≤ row.seq

/-! ## Renumbering one covenant -/

instance : Std.Total chronoLe where
  total a b := by
    unfold chronoLe
    omega

instance : IsTrans EventRow chronoLe where
  trans a b c hab hbc := by
    unfold chronoLe at *
    omega

/-- The rows of one covenant in chronological order. -/
def chronological (rows : List EventRow) : List EventRow :=
  rows.insertionSort chronoLe

/-- The position of a row of the covenant in chronological order. -/
def rankIn (rows : List EventRow) (row : EventRow) : Nat :=
  ((chronological rows).map (·.seq)).idxOf row.seq

/-- The rows of one covenant, each at its chronological position. -/
def renumbered (rows : List EventRow) : List EventRow :=
  rows.map fun row ↦ row.withSeq (rankIn rows row)

theorem chronologicalSeqs_eq (rows : List EventRow) (id : CovenantId) :
    chronologicalSeqs rows id = (chronological (eventsOf rows id)).map (·.seq) := rfl

theorem chronological_perm (rows : List EventRow) : (chronological rows).Perm rows :=
  List.perm_insertionSort chronoLe rows

theorem chronological_pairwise (rows : List EventRow) :
    (chronological rows).Pairwise chronoLe :=
  List.pairwise_insertionSort chronoLe rows

/-- The new sequences are exactly the first naturals. -/
theorem renumbered_seqs {rows : List EventRow} (h : (rows.map (·.seq)).Nodup) :
    ((renumbered rows).map (·.seq)).Perm ((List.range rows.length).map Int.ofNat) := by
  have hperm := (chronological_perm rows).map (·.seq)
  have hrange := Renumber.map_idxOf (hperm.nodup_iff.mpr h)
  rw [List.length_map, (chronological_perm rows).length_eq] at hrange
  have hmap : (renumbered rows).map (·.seq) = ((rows.map (·.seq)).map
      (((chronological rows).map (·.seq)).idxOf ·)).map Int.ofNat := by
    simp [renumbered, rankIn]
  rw [hmap, ← hrange]
  exact (hperm.symm.map _).map _

/-- A lower new sequence means earlier by `(accepting_daa, seq)`. -/
theorem chronoLe_of_rankIn_lt {rows : List EventRow} (h : (rows.map (·.seq)).Nodup)
    {a b : EventRow} (ha : a ∈ rows) (hb : b ∈ rows) (hlt : rankIn rows a < rankIn rows b) :
    chronoLe a b :=
  Renumber.rel_of_idxOf_lt (chronological_pairwise rows)
    (((chronological_perm rows).map _).nodup_iff.mpr h)
    ((chronological_perm rows).mem_iff.mpr ha) ((chronological_perm rows).mem_iff.mpr hb) hlt

/-- The parking loop, row by row. -/
theorem foldl_parkSeq (id : CovenantId) (moves : List (Int × Nat)) (rows : List EventRow) :
    moves.foldl (parkSeq id) rows = rows.map fun row ↦
      if row.covenantId = id then row.withSeq (Renumber.park moves row.seq) else row := by
  have hstep : ∀ row : EventRow, moves.foldl (fun (row : EventRow) p ↦
      if row.covenantId = id ∧ row.seq = p.1 then row.withSeq (-(p.2 : Int) - 1) else row) row =
      if row.covenantId = id then row.withSeq (Renumber.park moves row.seq) else row := by
    induction moves with
    | nil => intro row; simp [Renumber.park]
    | cons move rest ih =>
        intro row
        rw [List.foldl_cons, ih]
        by_cases hid : row.covenantId = id
        · by_cases hseq : row.seq = move.1
          · simp [hid, hseq, Renumber.park, EventRow.withSeq]
          · simp [hid, hseq, Renumber.park]
        · simp [hid]
  exact (Rows.foldl_map _ moves rows).trans (List.map_congr_left fun row _ ↦ hstep row)

/-- The renumbering of one covenant in the table. -/
theorem resequence_eq {rows : List EventRow} {id : CovenantId}
    (hnodup : ((eventsOf rows id).map (·.seq)).Nodup)
    (hnonneg : ∀ row ∈ eventsOf rows id, 0 ≤ row.seq) :
    resequence id rows = rows.map fun row ↦
      if row.covenantId = id then row.withSeq (rankIn (eventsOf rows id) row) else row := by
  have hperm := chronological_perm (eventsOf rows id)
  have hmem : ∀ row ∈ rows, row.covenantId = id → row.seq ∈ chronologicalSeqs rows id :=
    fun row hrow hid ↦
      List.mem_map_of_mem (hperm.mem_iff.mpr (mem_eventsOf.mpr ⟨hrow, hid⟩))
  have hrank : ∀ row, rankIn (eventsOf rows id) row =
      (chronologicalSeqs rows id).idxOf row.seq := fun _ ↦ rfl
  show (if inSequence (chronologicalSeqs rows id) then rows else _) = _
  by_cases hin : inSequence (chronologicalSeqs rows id) = true
  · -- already numbered `0, 1, …`: every row is at its position
    have hdense : ∀ move ∈ (chronologicalSeqs rows id).zipIdx, move.1 = (move.2 : Int) :=
      fun move hmove ↦ of_decide_eq_true (List.all_eq_true.mp hin move hmove)
    rw [if_pos hin]
    refine (List.map_id rows).symm.trans (List.map_congr_left fun row hrow ↦ ?_)
    by_cases hid : row.covenantId = id
    · rw [if_pos hid, hrank, Renumber.idxOf_of_dense hdense (hmem row hrow hid)]
      rfl
    · rw [if_neg hid]
      rfl
  · rw [if_neg hin, foldl_parkSeq, unparkSeqs, List.map_map]
    refine List.map_congr_left fun row hrow ↦ ?_
    by_cases hid : row.covenantId = id
    · have hkeys : ∀ k ∈ chronologicalSeqs rows id, 0 ≤ k := by
        intro k hk
        obtain ⟨r, hr, rfl⟩ := List.mem_map.mp hk
        exact hnonneg r (hperm.mem_iff.mp hr)
      have hseqs : (chronologicalSeqs rows id).Nodup :=
        (hperm.map EventRow.seq).nodup_iff.mpr hnodup
      have hpark := Renumber.park_zipIdx hseqs hkeys 0 (hmem row hrow hid)
      have hneg : Renumber.park (chronologicalSeqs rows id).zipIdx row.seq < 0 := by
        rw [hpark]
        omega
      have hflip : -Renumber.park (chronologicalSeqs rows id).zipIdx row.seq - 1 =
          (rankIn (eventsOf rows id) row : Int) := by
        rw [hpark, hrank]
        omega
      rw [Function.comp_apply, if_pos hid, if_pos hid, ← hflip]
      exact if_pos ⟨hid, hneg⟩
    · simp [hid]

theorem eventsOf_map {rows : List EventRow} {f : EventRow → EventRow} (id : CovenantId)
    (hf : ∀ row, (f row).covenantId = row.covenantId) :
    eventsOf (rows.map f) id = (eventsOf rows id).map f := by
  rw [eventsOf, List.filter_map]
  congr 1
  exact List.filter_congr fun row _ ↦ by simp [hf]

theorem eventsOf_resequence_self {rows : List EventRow} {id : CovenantId}
    (hnodup : ((eventsOf rows id).map (·.seq)).Nodup)
    (hnonneg : ∀ row ∈ eventsOf rows id, 0 ≤ row.seq) :
    eventsOf (resequence id rows) id = renumbered (eventsOf rows id) := by
  rw [resequence_eq hnodup hnonneg, eventsOf_map id (fun row ↦ by split <;> rfl)]
  refine List.map_congr_left fun row hrow ↦ ?_
  rw [if_pos (mem_eventsOf.mp hrow).2]

theorem eventsOf_resequence_of_ne {rows : List EventRow} {id other : CovenantId}
    (hne : other ≠ id) (hnodup : ((eventsOf rows id).map (·.seq)).Nodup)
    (hnonneg : ∀ row ∈ eventsOf rows id, 0 ≤ row.seq) :
    eventsOf (resequence id rows) other = eventsOf rows other := by
  rw [resequence_eq hnodup hnonneg, eventsOf_map other (fun row ↦ by split <;> rfl)]
  refine (List.map_congr_left fun row hrow ↦ ?_).trans (List.map_id _)
  rw [if_neg fun h ↦ hne ((mem_eventsOf.mp hrow).2.symm.trans h)]
  rfl

theorem renumbered_keyed {rows : List EventRow} (h : (rows.map (·.seq)).Nodup) :
    ((renumbered rows).map (·.seq)).Nodup := by
  refine (renumbered_seqs h).nodup_iff.mpr (List.nodup_range.map fun i j hij ↦ ?_)
  exact Int.ofNat.inj hij

theorem SeqKeyed.nonneg_of {events : List EventRow} (h : SeqKeyed events) {id : CovenantId} :
    ∀ row ∈ eventsOf events id, 0 ≤ row.seq := fun row hrow ↦
  h.nonneg row (mem_eventsOf.mp hrow).1

theorem SeqKeyed.resequence {events : List EventRow} (h : SeqKeyed events) (id : CovenantId) :
    SeqKeyed (resequence id events) := by
  constructor
  · intro other
    by_cases hid : other = id
    · subst hid
      rw [eventsOf_resequence_self (h.nodup other) h.nonneg_of]
      exact renumbered_keyed (h.nodup other)
    · rw [eventsOf_resequence_of_ne hid (h.nodup id) h.nonneg_of]
      exact h.nodup other
  · rw [resequence_eq (h.nodup id) h.nonneg_of]
    intro row hrow
    obtain ⟨old, hold, rfl⟩ := List.mem_map.mp hrow
    by_cases hid : old.covenantId = id
    · rw [if_pos hid]
      exact Int.natCast_nonneg _
    · rw [if_neg hid]
      exact h.nonneg old hold

/-! ## The refresh loop -/

/-- The refreshed columns read the events of the row's own covenant only. -/
theorem refreshRow_congr {e₁ e₂ : List EventRow} {row : CovenantRow}
    (h : eventsOf e₁ row.covenantId = eventsOf e₂ row.covenantId) :
    refreshRow e₁ row = refreshRow e₂ row := by
  have hcount : ∀ e : List EventRow, e.countP (fun r ↦ r.covenantId = row.covenantId) =
      (eventsOf e row.covenantId).length := fun e ↦ by
    rw [eventsOf, List.countP_eq_length_filter]
  have hlast : ∀ e : List EventRow, lastActivityOf e row.covenantId =
      (eventsOf e row.covenantId).foldl (fun m r ↦ max m r.acceptingDaa) 0 := fun _ ↦ rfl
  have hfirst : ∀ e : List EventRow, firstEvent e row.covenantId =
      (eventsOf e row.covenantId).find? (·.seq = 0) := fun e ↦ by
    rw [eventsOf, List.find?_filter, firstEvent]
    congr 1
    funext r
    simp
  simp only [refreshRow, hcount, hlast, hfirst, h]

@[simp] theorem refreshRow_covenantId (events : List EventRow) (row : CovenantRow) :
    (refreshRow events row).covenantId = row.covenantId := by
  simp only [refreshRow]
  cases firstEvent events row.covenantId with
  | none => rfl
  | some first =>
      by_cases hkind : first.kind = .genesis
      · simp [hkind]
      · simp [hkind]

/-- **The refresh loop, covenant by covenant.** -/
theorem foldl_refreshCovenant {s : Store} (h : SeqKeyed s.covenantEvents)
    {ids : List CovenantId} (hids : ids.Nodup) :
    (∀ id, eventsOf (ids.foldl refreshCovenant s).covenantEvents id =
      if id ∈ ids then renumbered (eventsOf s.covenantEvents id)
      else eventsOf s.covenantEvents id) ∧
    (ids.foldl refreshCovenant s).covenants = s.covenants.map fun row ↦
      if row.covenantId ∈ ids then
        refreshRow (ids.foldl refreshCovenant s).covenantEvents row
      else row := by
  induction ids generalizing s with
  | nil => simp
  | cons hd tl ih =>
      obtain ⟨hnotMem, htl⟩ := List.nodup_cons.mp hids
      have hkeyed : SeqKeyed (refreshCovenant s hd).covenantEvents := h.resequence hd
      obtain ⟨hevents, hrows⟩ := ih hkeyed htl
      have hself : eventsOf (refreshCovenant s hd).covenantEvents hd =
          renumbered (eventsOf s.covenantEvents hd) :=
        eventsOf_resequence_self (h.nodup hd) h.nonneg_of
      have hother : ∀ id, id ≠ hd → eventsOf (refreshCovenant s hd).covenantEvents id =
          eventsOf s.covenantEvents id := fun id hne ↦
        eventsOf_resequence_of_ne hne (h.nodup hd) h.nonneg_of
      rw [List.foldl_cons]
      constructor
      · intro id
        rw [hevents id]
        by_cases hid : id = hd
        · subst hid
          rw [if_neg hnotMem, if_pos List.mem_cons_self, hself]
        · simp only [hother id hid, List.mem_cons, hid, false_or]
      · rw [hrows]
        show ((s.covenants.map _).map _) = _
        rw [List.map_map]
        refine List.map_congr_left fun row _ ↦ ?_
        rw [Function.comp_apply]
        by_cases hid : row.covenantId = hd
        · have hcongr : refreshRow (resequence hd s.covenantEvents) row =
              refreshRow (tl.foldl refreshCovenant (refreshCovenant s hd)).covenantEvents row := by
            refine refreshRow_congr ?_
            rw [hevents, hid, if_neg hnotMem]
            rfl
          rw [if_pos hid, refreshRow_covenantId, hid, if_neg hnotMem, if_pos List.mem_cons_self]
          exact hcongr
        · simp [hid]

/-- **Finalize, covenant by covenant.** -/
theorem finalizeGapRecovery_events {s : Store} (h : SeqKeyed s.covenantEvents)
    (gapLo gapHi : Nat) (merged : MergeCounts) (id : CovenantId) :
    eventsOf (finalizeGapRecovery s gapLo gapHi merged).covenantEvents id =
      if id ∈ coveredCovenants s gapLo gapHi then renumbered (eventsOf s.covenantEvents id)
      else eventsOf s.covenantEvents id :=
  (foldl_refreshCovenant h (List.nodup_dedup _)).1 id

theorem finalizeGapRecovery_covenants {s : Store} (h : SeqKeyed s.covenantEvents)
    (gapLo gapHi : Nat) (merged : MergeCounts) :
    (finalizeGapRecovery s gapLo gapHi merged).covenants = s.covenants.map fun row ↦
      if row.covenantId ∈ coveredCovenants s gapLo gapHi then
        refreshRow (finalizeGapRecovery s gapLo gapHi merged).covenantEvents row
      else row :=
  (foldl_refreshCovenant h (List.nodup_dedup _)).2

theorem mem_coveredCovenants {s : Store} {gapLo gapHi : Nat} {id : CovenantId} :
    id ∈ coveredCovenants s gapLo gapHi ↔ ∃ row ∈ s.covenantEvents,
      row.covenantId = id ∧ gapLo ≤ row.acceptingDaa ∧ row.acceptingDaa ≤ gapHi := by
  simp only [coveredCovenants, List.mem_dedup, List.mem_map, List.mem_filter, decide_eq_true_eq]
  constructor
  · rintro ⟨row, ⟨hrow, hdaa⟩, rfl⟩
    exact ⟨row, hrow, rfl, hdaa⟩
  · rintro ⟨row, hrow, rfl, hdaa⟩
    exact ⟨row, ⟨hrow, hdaa⟩, rfl⟩

end Kascov
