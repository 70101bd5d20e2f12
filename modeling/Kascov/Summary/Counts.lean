import Kascov.Store.RollbackEffect
import Mathlib.Data.List.Nodup

/-!
# Covenant rows and their event counts

The `covenants` table is kept in step with `covenant_events` by two writers: an
apply adds one for each event it inserts, a rollback subtracts what it deletes
and drops the rows that reach zero.  `CountInvariant` is what both preserve:
there is one row for each covenant that has an event, and it counts them.
-/

namespace Kascov

/-- A covenant row after one more event at `daa`. -/
def CovenantRow.bump (daa : Nat) (row : CovenantRow) : CovenantRow :=
  { row with eventCount := row.eventCount + 1, lastActivityDaa := daa }

/-- The rows after an event: the other covenants' rows, and the covenant's own
row, old or first, with one more event. -/
theorem mem_recordEvent {block : AcceptedBlockBatch} {rows : List CovenantRow}
    {event : NewEvent} {row : CovenantRow} :
    row ∈ recordEvent block rows event ↔
      (row ∈ rows ∧ row.covenantId ≠ event.covenantId) ∨
      (∃ old ∈ rows, old.covenantId = event.covenantId ∧
        row = old.bump block.acceptingDaa) ∨
      ((∀ old ∈ rows, old.covenantId ≠ event.covenantId) ∧
        row = (firstCovenantRow block event).bump block.acceptingDaa) := by
  have hbump : ∀ (xs : List CovenantRow), row ∈ bumpCovenant event.covenantId
      block.acceptingDaa xs ↔ (row ∈ xs ∧ row.covenantId ≠ event.covenantId) ∨
        ∃ old ∈ xs, old.covenantId = event.covenantId ∧ row = old.bump block.acceptingDaa := by
    intro xs
    simp only [bumpCovenant, List.mem_map]
    constructor
    · rintro ⟨old, hold, rfl⟩
      by_cases hid : old.covenantId = event.covenantId
      · exact .inr ⟨old, hold, hid, by simp [hid, CovenantRow.bump]⟩
      · exact .inl (by simpa [hid] using hold)
    · rintro (⟨hrow, hid⟩ | ⟨old, hold, hid, rfl⟩)
      · exact ⟨row, hrow, if_neg hid⟩
      · exact ⟨old, hold, by simp [hid, CovenantRow.bump]⟩
  rw [recordEvent, hbump]
  have hfirst : (firstCovenantRow block event).covenantId = event.covenantId := rfl
  unfold insertCovenant
  split
  · rename_i hany
    obtain ⟨old, hold, hid⟩ := List.any_eq_true.mp hany
    have hid : old.covenantId = event.covenantId := of_decide_eq_true hid
    constructor
    · rintro (h | h)
      · exact .inl h
      · exact .inr (.inl h)
    · rintro (h | h | ⟨hnone, -⟩)
      · exact .inl h
      · exact .inr h
      · exact absurd hid (hnone old hold)
  · rename_i hany
    have hnone : ∀ old ∈ rows, old.covenantId ≠ event.covenantId := by
      intro old hold hid
      exact hany (List.any_eq_true.mpr ⟨old, hold, decide_eq_true (hid.trans hfirst.symm)⟩)
    simp only [List.mem_append, List.mem_singleton]
    constructor
    · rintro (⟨hrow | rfl, hid⟩ | ⟨old, hold | rfl, hid, rfl⟩)
      · exact .inl ⟨hrow, hid⟩
      · exact absurd hfirst hid
      · exact absurd hid (hnone old hold)
      · exact .inr (.inr ⟨hnone, rfl⟩)
    · rintro (⟨hrow, hid⟩ | ⟨old, hold, hid, rfl⟩ | ⟨-, rfl⟩)
      · exact .inl ⟨.inl hrow, hid⟩
      · exact absurd hid (hnone old hold)
      · exact .inr ⟨_, .inr rfl, hfirst, rfl⟩

theorem insertCovenant_ids {rows : List CovenantRow} {row : CovenantRow}
    (h : (rows.map (·.covenantId)).Nodup) :
    ((insertCovenant row rows).map (·.covenantId)).Nodup := by
  unfold insertCovenant
  split
  · exact h
  · rename_i hany
    rw [List.map_append, List.nodup_append]
    refine ⟨h, by simp, ?_⟩
    intro a ha b hb heq
    obtain ⟨old, hold, rfl⟩ := List.mem_map.mp ha
    refine hany (List.any_eq_true.mpr ⟨old, hold, ?_⟩)
    simpa using heq.trans (List.mem_singleton.mp hb)

theorem recordEvent_ids {block : AcceptedBlockBatch} {rows : List CovenantRow}
    {event : NewEvent} (h : (rows.map (·.covenantId)).Nodup) :
    ((recordEvent block rows event).map (·.covenantId)).Nodup := by
  have hbump : ∀ (xs : List CovenantRow), (bumpCovenant event.covenantId
      block.acceptingDaa xs).map (·.covenantId) = xs.map (·.covenantId) := by
    intro xs
    rw [bumpCovenant, List.map_map]
    refine List.map_congr_left fun row _ ↦ ?_
    simp only [Function.comp_apply]
    split <;> rfl
  rw [recordEvent, hbump]
  exact insertCovenant_ids h

/-! ## The invariant -/

/-- How many events a covenant has. -/
def eventCountOf (events : List EventRow) (id : CovenantId) : Nat :=
  events.countP (·.covenantId = id)

/-- One row for each covenant with an event, counting its events. -/
structure CountInvariant (covenants : List CovenantRow) (events : List EventRow) : Prop where
  ids : (covenants.map (·.covenantId)).Nodup
  counts : ∀ row ∈ covenants, row.eventCount = (eventCountOf events row.covenantId : Nat)
  positive : ∀ row ∈ covenants, 0 < row.eventCount
  covered : ∀ e ∈ events, ∃ row ∈ covenants, row.covenantId = e.covenantId

theorem eventCountOf_pos {events : List EventRow} {id : CovenantId} :
    0 < eventCountOf events id ↔ ∃ e ∈ events, e.covenantId = id := by
  simp [eventCountOf, List.countP_pos_iff]

namespace CountInvariant

variable {covenants : List CovenantRow} {events : List EventRow}

theorem nil : CountInvariant [] [] :=
  ⟨by simp, by simp, by simp, by simp⟩

/-- The covenants with a row are the covenants with an event. -/
theorem known_iff (h : CountInvariant covenants events) (id : CovenantId) :
    (∃ row ∈ covenants, row.covenantId = id) ↔ ∃ e ∈ events, e.covenantId = id := by
  constructor
  · rintro ⟨row, hrow, rfl⟩
    have hpos := h.positive row hrow
    rw [h.counts row hrow] at hpos
    exact eventCountOf_pos.mp (by omega)
  · rintro ⟨e, he, rfl⟩
    exact h.covered e he

theorem recordEvent (h : CountInvariant covenants events) (block : AcceptedBlockBatch)
    (event : NewEvent) {row : EventRow} (hid : row.covenantId = event.covenantId) :
    CountInvariant (recordEvent block covenants event) (events ++ [row]) := by
  have hother : ∀ id, id ≠ event.covenantId →
      eventCountOf (events ++ [row]) id = eventCountOf events id := by
    intro id hne
    have hne' : row.covenantId ≠ id := fun heq ↦ hne (heq.symm.trans hid)
    simp [eventCountOf, List.countP_append, hne']
  have hself : eventCountOf (events ++ [row]) event.covenantId =
      eventCountOf events event.covenantId + 1 := by
    simp [eventCountOf, List.countP_append, hid]
  refine ⟨recordEvent_ids h.ids, ?_, ?_, ?_⟩
  · intro r hr
    rcases mem_recordEvent.mp hr with ⟨hr, hne⟩ | ⟨old, hold, hoid, rfl⟩ | ⟨hnone, rfl⟩
    · rw [h.counts r hr, hother _ hne]
    · have hcount := h.counts old hold
      change old.eventCount + 1 = (eventCountOf _ old.covenantId : Nat)
      rw [hoid] at hcount ⊢
      rw [hself, hcount]
      push_cast
      rfl
    · have hzero : eventCountOf events event.covenantId = 0 := by
        by_contra hpos
        obtain ⟨e, he, heid⟩ := eventCountOf_pos.mp (Nat.pos_of_ne_zero hpos)
        obtain ⟨old, hold, hoid⟩ := h.covered e he
        exact hnone old hold (hoid.trans heid)
      change (0 : Int) + 1 = (eventCountOf _ event.covenantId : Nat)
      rw [hself, hzero]
      rfl
  · intro r hr
    rcases mem_recordEvent.mp hr with ⟨hr, -⟩ | ⟨old, hold, -, rfl⟩ | ⟨-, rfl⟩
    · exact h.positive r hr
    · have := h.positive old hold
      change 0 < old.eventCount + 1
      omega
    · change (0 : Int) < 0 + 1
      omega
  · intro e he
    by_cases hne : e.covenantId = event.covenantId
    · by_cases hex : ∃ old ∈ covenants, old.covenantId = event.covenantId
      · obtain ⟨old, hold, hoid⟩ := hex
        exact ⟨_, mem_recordEvent.mpr (.inr (.inl ⟨old, hold, hoid, rfl⟩)),
          hoid.trans hne.symm⟩
      · push Not at hex
        exact ⟨_, mem_recordEvent.mpr (.inr (.inr ⟨hex, rfl⟩)), hne.symm⟩
    · rcases List.mem_append.mp he with he | he
      · obtain ⟨r, hr, hrid⟩ := h.covered e he
        exact ⟨r, mem_recordEvent.mpr (.inl ⟨hr, fun heq ↦ hne (hrid.symm.trans heq)⟩), hrid⟩
      · rw [List.mem_singleton.mp he] at hne
        exact absurd hid hne

/-- The event loop of an apply keeps the counts. -/
theorem numbered (h : CountInvariant covenants events) (dec : Decoders)
    (block : AcceptedBlockBatch) (next : Nat) (new : List NewEvent) :
    CountInvariant (new.foldl (Kascov.recordEvent block) covenants)
      (events ++ (numberEvents dec block events next new).map (numberedRow dec block)) := by
  induction new generalizing covenants events next with
  | nil => simpa [numberEvents] using h
  | cons event rest ih =>
      have hrow : (eventRow dec block event (nextEventSeq events event.covenantId)
          next).covenantId = event.covenantId := rfl
      have hstep := ih (h.recordEvent block event hrow) (next + 1)
      rw [List.append_assoc] at hstep
      exact hstep

theorem eventCountOf_filter (events : List EventRow) (hashes : List BlockHash)
    (id : CovenantId) :
    (eventCountOf (events.filter (·.acceptingBlock ∉ hashes)) id : Int) =
      eventCountOf events id - removedCount hashes events id := by
  unfold eventCountOf removedCount
  induction events with
  | nil => rfl
  | cons e events ih =>
      rw [List.filter_cons, List.countP_cons, List.countP_cons]
      by_cases hb : e.acceptingBlock ∈ hashes
      · by_cases hid : e.covenantId = id
        · simp only [hb, hid, not_true_eq_false, decide_false, decide_true, and_self, if_true,
            Bool.false_eq_true, if_false]
          push_cast
          omega
        · simp only [hb, hid, not_true_eq_false, decide_false, and_false, if_false,
            Bool.false_eq_true]
          push_cast
          omega
      · simp only [hb, not_false_eq_true, decide_true, false_and, decide_false, if_true,
          Bool.false_eq_true, if_false, List.countP_cons]
        push_cast
        omega

/-- Dropping the events of some blocks, with the counts, keeps the counts. -/
theorem dropBlocks (h : CountInvariant covenants events) (hashes : List BlockHash) :
    CountInvariant
      ((covenants.map fun row ↦
        { row with
          eventCount := row.eventCount - (removedCount hashes events row.covenantId : Nat) }).filter
        (0 < ·.eventCount))
      (events.filter (·.acceptingBlock ∉ hashes)) := by
  refine ⟨?_, ?_, ?_, ?_⟩
  · have hids := h.ids
    refine List.Nodup.sublist (List.filter_sublist.map _) ?_
    rw [List.map_map]
    exact hids
  · intro r hr
    obtain ⟨old, hold, rfl⟩ := List.mem_map.mp (List.mem_of_mem_filter hr)
    change old.eventCount - _ = (eventCountOf _ old.covenantId : Nat)
    rw [eventCountOf_filter, h.counts old hold]
  · intro r hr
    simpa using (List.mem_filter.mp hr).2
  · intro e he
    obtain ⟨old, hold, hoid⟩ := h.covered e (List.mem_of_mem_filter he)
    refine ⟨_, List.mem_filter.mpr ⟨List.mem_map_of_mem hold, ?_⟩, hoid⟩
    have hpos : 0 < eventCountOf (events.filter (·.acceptingBlock ∉ hashes)) old.covenantId :=
      eventCountOf_pos.mpr ⟨e, he, hoid.symm⟩
    have hfilter := eventCountOf_filter events hashes old.covenantId
    have hcount := h.counts old hold
    rw [decide_eq_true_eq]
    change 0 < old.eventCount - _
    omega

end CountInvariant

end Kascov
