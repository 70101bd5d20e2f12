import Kascov.History.EventKeys
import Kascov.Order.Resequence

/-!
# Dense sequences

The sequences of a covenant's events are `0, 1, …` without a hole.  Every writer
that appends at `COALESCE(MAX(seq), -1) + 1` keeps this, the renumbering
restores it from any distinct sequences, and a deletion keeps it exactly when it
takes the events from the end.
-/

namespace Kascov

/-- Every covenant's sequences are exactly `0 … n - 1`. -/
def Dense (events : List EventRow) : Prop :=
  ∀ id, ((eventsOf events id).map (·.seq)).Perm
    ((List.range (eventsOf events id).length).map Int.ofNat)

/-- A lower sequence within a covenant stands in `R`. -/
def SeqOrdered (R : EventRow → EventRow → Prop) (events : List EventRow) : Prop :=
  ∀ a ∈ events, ∀ b ∈ events, a.covenantId = b.covenantId → a.seq < b.seq → R a b

theorem Dense.nil : Dense [] := fun _ ↦ List.Perm.refl _

/-- The greatest sequence, folded over the first naturals. -/
theorem foldl_max_range (n : Nat) :
    ((List.range n).map Int.ofNat).foldl (fun (m k : Int) ↦ max m k) (-1) + 1 = n := by
  induction n with
  | zero => rfl
  | succ n ih =>
      rw [List.range_succ, List.map_append, List.foldl_append]
      show max _ (Int.ofNat n) + 1 = _
      simp only [Int.ofNat_eq_natCast] at *
      omega

theorem nextEventSeq_eq (events : List EventRow) (id : CovenantId) :
    nextEventSeq events id =
      ((eventsOf events id).map (·.seq)).foldl (fun m k ↦ max m k) (-1) + 1 := by
  rw [List.foldl_map]
  rfl

namespace Dense

variable {events : List EventRow}

/-- The next sequence of a covenant is the number of its events. -/
theorem nextEventSeq (h : Dense events) (id : CovenantId) :
    nextEventSeq events id = (eventsOf events id).length := by
  rw [nextEventSeq_eq, (h id).foldl_eq' (fun a _ b _ m ↦ by omega)]
  exact foldl_max_range _

theorem seqKeyed (h : Dense events) : SeqKeyed events := by
  constructor
  · intro id
    refine (h id).nodup_iff.mpr (List.nodup_range.map fun i j hij ↦ ?_)
    exact Int.ofNat.inj hij
  · intro row hrow
    have hmem : row.seq ∈ (eventsOf events row.covenantId).map (·.seq) :=
      List.mem_map_of_mem (mem_eventsOf.mpr ⟨hrow, rfl⟩)
    obtain ⟨n, _, hn⟩ := List.mem_map.mp ((h row.covenantId).mem_iff.mp hmem)
    rw [← hn]
    exact Int.natCast_nonneg n

/-- Appending at the next sequence. -/
theorem insert (h : Dense events) {row : EventRow}
    (hseq : row.seq = Kascov.nextEventSeq events row.covenantId) : Dense (events ++ [row]) := by
  intro id
  by_cases hid : row.covenantId = id
  · subst hid
    rw [eventsOf_append_self rfl, List.map_append, List.length_append]
    show List.Perm _ ((List.range (_ + 1)).map Int.ofNat)
    rw [List.range_succ, List.map_append]
    refine (h row.covenantId).append ?_
    show List.Perm [row.seq] _
    rw [hseq, h.nextEventSeq]
    exact List.Perm.refl _
  · rw [eventsOf_append_of_ne hid]
    exact h id

/-- Deleting, in each covenant, the events above the ones kept. -/
theorem filter (h : Dense events) (keep : EventRow → Bool)
    (hlast : ∀ a ∈ events, ∀ b ∈ events, a.covenantId = b.covenantId → keep a = true →
      keep b = false → a.seq < b.seq) : Dense (events.filter keep) := by
  intro id
  have hcomm : eventsOf (events.filter keep) id = (eventsOf events id).filter keep := by
    rw [eventsOf, eventsOf, List.filter_comm]
  have hsplit := ((eventsOf events id).filter_append_perm keep).map EventRow.seq
  rw [List.map_append] at hsplit
  have hprefix := Renumber.perm_range_of_lt (hsplit.trans (h id)) ?_
  · rwa [List.length_map, ← hcomm] at hprefix
  · intro k hk r hr
    obtain ⟨a, ha, rfl⟩ := List.mem_map.mp hk
    obtain ⟨b, hb, rfl⟩ := List.mem_map.mp hr
    obtain ⟨ha, hkeep⟩ := List.mem_filter.mp ha
    obtain ⟨hb, hdrop⟩ := List.mem_filter.mp hb
    obtain ⟨ha, hida⟩ := mem_eventsOf.mp ha
    obtain ⟨hb, hidb⟩ := mem_eventsOf.mp hb
    exact hlast a ha b hb (hida.trans hidb.symm) hkeep (by simpa using hdrop)

end Dense

/-! ## Distinct sequences -/

namespace SeqKeyed

variable {events : List EventRow}

theorem nil : SeqKeyed [] :=
  ⟨fun _ ↦ List.nodup_nil, fun _ h ↦ absurd h List.not_mem_nil⟩

theorem insert (h : SeqKeyed events) {row : EventRow}
    (hseq : row.seq = nextEventSeq events row.covenantId) : SeqKeyed (events ++ [row]) := by
  constructor
  · intro id
    by_cases hid : row.covenantId = id
    · subst hid
      rw [eventsOf_append_self rfl, List.map_append, List.nodup_append]
      refine ⟨h.nodup _, by simp, ?_⟩
      intro a ha b hb heq
      obtain ⟨old, hold, rfl⟩ := List.mem_map.mp ha
      obtain ⟨hold, hid⟩ := mem_eventsOf.mp hold
      have hlt := seq_lt_nextEventSeq hold
      rw [hid, ← hseq] at hlt
      rw [List.map_singleton, List.mem_singleton] at hb
      exact absurd (heq.trans hb) (ne_of_lt hlt)
    · rw [eventsOf_append_of_ne hid]
      exact h.nodup id
  · intro a ha
    rcases List.mem_append.mp ha with ha | ha
    · exact h.nonneg a ha
    · rw [List.mem_singleton.mp ha, hseq]
      exact nextEventSeq_nonneg _ _

theorem filter (h : SeqKeyed events) (keep : EventRow → Bool) :
    SeqKeyed (events.filter keep) := by
  constructor
  · intro id
    rw [eventsOf, List.filter_comm]
    exact (h.nodup id).sublist (List.filter_sublist.map _)
  · exact fun row hrow ↦ h.nonneg row (List.mem_of_mem_filter hrow)

/-- A row is determined by its covenant and sequence. -/
theorem eq_of_seq (h : SeqKeyed events) {a b : EventRow} (ha : a ∈ events) (hb : b ∈ events)
    (hid : a.covenantId = b.covenantId) (hseq : a.seq = b.seq) : a = b :=
  List.inj_on_of_nodup_map (h.nodup b.covenantId) (mem_eventsOf.mpr ⟨ha, hid⟩)
    (mem_eventsOf.mpr ⟨hb, rfl⟩) hseq

end SeqKeyed

/-- Appending a row that stands after every row of its covenant. -/
theorem SeqOrdered.insert {R : EventRow → EventRow → Prop} {events : List EventRow}
    {row : EventRow} (h : SeqOrdered R events)
    (hseq : row.seq = Kascov.nextEventSeq events row.covenantId)
    (hafter : ∀ a ∈ events, a.covenantId = row.covenantId → R a row) :
    SeqOrdered R (events ++ [row]) := by
  have hlt : ∀ a ∈ events, a.covenantId = row.covenantId → a.seq < row.seq := by
    intro a ha hid
    have hmax := seq_lt_nextEventSeq ha
    rwa [hid, ← hseq] at hmax
  intro a ha b hb hid hab
  rcases List.mem_append.mp ha with ha | ha
  · rcases List.mem_append.mp hb with hb | hb
    · exact h a ha b hb hid hab
    · rw [List.mem_singleton.mp hb] at hid ⊢
      exact hafter a ha hid
  · obtain rfl := List.mem_singleton.mp ha
    rcases List.mem_append.mp hb with hb | hb
    · exact absurd hab (lt_asymm (hlt b hb hid.symm))
    · obtain rfl := List.mem_singleton.mp hb
      exact absurd hab (lt_irrefl _)

end Kascov
