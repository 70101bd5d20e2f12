import Kascov.Order.ChainOrder
import Kascov.Summary.Counts
import Mathlib.Data.List.MinMax

/-!
# Covenant rows that summarise their events

A row of `covenants` repeats what its events say: how many there are, the
greatest accepting DAA, and the genesis when the first of them is one.  An apply
in chain order and a finalised recovery keep all of it.  A rollback keeps the
count, and keeps the rest when it takes no covenant's first or newest event away
from under the events that stay: it never writes `last_activity_daa` back.
-/

namespace Kascov

open Fallible

/-- The genesis columns of a row say what the covenant's first event says. -/
def CovenantRow.Describes (row : CovenantRow) (first : EventRow) : Prop :=
  if first.kind = .genesis then
    row.genesisTxid = some first.txid ∧ row.genesisDaa = some first.acceptingDaa ∧
      row.lineageComplete = true
  else
    row.genesisTxid = none ∧ row.genesisDaa = none ∧ row.lineageComplete = false

/-- A row summarises the events of its covenant. -/
structure CovenantRow.Summarises (row : CovenantRow) (rows : List EventRow) : Prop where
  count : row.eventCount = rows.length
  positive : 0 < row.eventCount
  newest : ∃ e ∈ rows, e.acceptingDaa = row.lastActivityDaa
  latest : ∀ e ∈ rows, e.acceptingDaa ≤ row.lastActivityDaa
  lineage : ∀ first ∈ rows, (∀ e ∈ rows, first.seq ≤ e.seq) → row.Describes first

/-- The law of the covenant table: one row for each covenant with an event, and
every row summarises the events. -/
structure SummaryInvariant (covenants : List CovenantRow) (events : List EventRow) :
    Prop where
  ids : (covenants.map (·.covenantId)).Nodup
  summarises : ∀ row ∈ covenants, row.Summarises (eventsOf events row.covenantId)
  covered : ∀ e ∈ events, ∃ row ∈ covenants, row.covenantId = e.covenantId

theorem eventCountOf_eq (events : List EventRow) (id : CovenantId) :
    eventCountOf events id = (eventsOf events id).length := by
  rw [eventCountOf, eventsOf, List.countP_eq_length_filter]

namespace SummaryInvariant

variable {covenants : List CovenantRow} {events : List EventRow}

theorem nil : SummaryInvariant [] [] :=
  ⟨by simp, by simp, by simp⟩

theorem counts (h : SummaryInvariant covenants events) : CountInvariant covenants events where
  ids := h.ids
  counts row hrow := by
    rw [eventCountOf_eq]
    exact (h.summarises row hrow).count
  positive row hrow := (h.summarises row hrow).positive
  covered := h.covered

/-! ### Apply -/

/-- One event of an apply, at the next sequence and at a DAA not below the
covenant's recorded ones. -/
theorem recordEvent (h : SummaryInvariant covenants events) {block : AcceptedBlockBatch}
    {event : NewEvent} {row : EventRow} (hid : row.covenantId = event.covenantId)
    (hseq : row.seq = nextEventSeq events row.covenantId)
    (hdaa : row.acceptingDaa = block.acceptingDaa) (htxid : row.txid = event.txid)
    (hkind : row.kind = event.kind)
    (hle : ∀ e ∈ events, e.covenantId = event.covenantId →
      e.acceptingDaa ≤ block.acceptingDaa) :
    SummaryInvariant (recordEvent block covenants event) (events ++ [row]) := by
  have hcounts := h.counts.recordEvent block event hid
  refine ⟨hcounts.ids, ?_, hcounts.covered⟩
  intro r hr
  have hcount := hcounts.counts r hr
  have hpositive := hcounts.positive r hr
  rw [eventCountOf_eq] at hcount
  rcases mem_recordEvent.mp hr with ⟨hr, hne⟩ | ⟨old, hold, hoid, rfl⟩ | ⟨hnone, rfl⟩
  · -- another covenant
    rw [eventsOf_append_of_ne fun heq ↦ hne (heq.symm.trans hid)]
    exact h.summarises r hr
  · -- the covenant had events
    have hself : (old.bump block.acceptingDaa).covenantId = old.covenantId := rfl
    have hsummary := h.summarises old hold
    refine ⟨hcount, hpositive, ?_, ?_, ?_⟩
    · exact ⟨row, mem_eventsOf.mpr ⟨by simp, hid.trans hoid.symm⟩, hdaa⟩
    · intro e he
      obtain ⟨he, heid⟩ := mem_eventsOf.mp he
      rcases List.mem_append.mp he with he | he
      · exact hle e he (heid.trans hoid)
      · rw [List.mem_singleton.mp he]
        exact le_of_eq hdaa
    · intro first hfirst hlowest
      rw [hself] at hfirst hlowest
      obtain ⟨oldest, holdest, -⟩ := hsummary.newest
      obtain ⟨hmem, hfid⟩ := mem_eventsOf.mp hfirst
      have hkeep : ∀ e ∈ eventsOf events old.covenantId,
          e ∈ eventsOf (events ++ [row]) old.covenantId := by
        intro e he
        rw [eventsOf_append]
        exact List.mem_append_left _ he
      rcases List.mem_append.mp hmem with hmem | hmem
      · exact hsummary.lineage first (mem_eventsOf.mpr ⟨hmem, hfid⟩)
          fun e he ↦ hlowest e (hkeep e he)
      · -- the new row stands above the covenant's older events
        have hlow := hlowest oldest (hkeep oldest holdest)
        obtain ⟨hmem', hoid'⟩ := mem_eventsOf.mp holdest
        have hlt := seq_lt_nextEventSeq hmem'
        rw [hoid', hoid, ← hid, ← hseq, ← List.mem_singleton.mp hmem] at hlt
        exact absurd hlow (not_le.mpr hlt)
  · -- the first event of the covenant
    have hempty : eventsOf events event.covenantId = [] := by
      refine List.eq_nil_iff_forall_not_mem.mpr fun e he ↦ ?_
      obtain ⟨he, heid⟩ := mem_eventsOf.mp he
      obtain ⟨old, hold, hoid⟩ := h.covered e he
      exact hnone old hold (hoid.trans heid)
    have hrows : eventsOf (events ++ [row]) event.covenantId = [row] := by
      rw [eventsOf_append_self hid, hempty]
      rfl
    have hself : ((firstCovenantRow block event).bump block.acceptingDaa).covenantId =
      event.covenantId := rfl
    rw [hself, hrows] at hcount ⊢
    refine ⟨hcount, hpositive, ⟨row, List.mem_singleton.mpr rfl, hdaa⟩, ?_, ?_⟩
    · intro e he
      rw [List.mem_singleton.mp he]
      exact le_of_eq hdaa
    · intro first hfirst _
      rw [List.mem_singleton.mp hfirst, CovenantRow.Describes]
      by_cases hgenesis : event.kind = .genesis
      · simp [hkind, hgenesis, CovenantRow.bump, firstCovenantRow, htxid, hdaa]
      · simp [hkind, hgenesis, CovenantRow.bump, firstCovenantRow]

/-- The event loop of an apply. -/
theorem numbered (h : SummaryInvariant covenants events) (hkeyed : SeqKeyed events)
    (dec : Decoders) (block : AcceptedBlockBatch) (next : Nat) {new : List NewEvent}
    (hle : ∀ event ∈ new, ∀ e ∈ events, e.covenantId = event.covenantId →
      e.acceptingDaa ≤ block.acceptingDaa) :
    SummaryInvariant (new.foldl (Kascov.recordEvent block) covenants)
        (events ++ (numberEvents dec block events next new).map (numberedRow dec block)) ∧
      SeqKeyed
        (events ++ (numberEvents dec block events next new).map (numberedRow dec block)) := by
  induction new generalizing covenants events next with
  | nil => simpa [numberEvents] using And.intro h hkeyed
  | cons event rest ih =>
      let row := eventRow dec block event (nextEventSeq events event.covenantId) next
      have hrow : SummaryInvariant (Kascov.recordEvent block covenants event)
          (events ++ [row]) :=
        h.recordEvent rfl rfl rfl rfl rfl fun e he ↦ hle event List.mem_cons_self e he
      have hkeyed' : SeqKeyed (events ++ [row]) := hkeyed.insert rfl
      have hstep := ih hrow hkeyed' (next + 1) (by
        intro x hx e he hid
        rcases List.mem_append.mp he with he | he
        · exact hle x (List.mem_cons_of_mem _ hx) e he hid
        · rw [List.mem_singleton.mp he]
          exact le_refl _)
      rw [List.append_assoc] at hstep
      exact hstep

/-! ### Rollback -/

end SummaryInvariant

/-- The first event of its covenant in a table. -/
def IsFirst (events : List EventRow) (first : EventRow) : Prop :=
  first ∈ events ∧ ∀ e ∈ events, e.covenantId = first.covenantId → first.seq ≤ e.seq

instance (events : List EventRow) (first : EventRow) : Decidable (IsFirst events first) :=
  inferInstanceAs (Decidable (_ ∧ ∀ e ∈ events, _))

theorem exists_isFirst {events : List EventRow} {e : EventRow} (he : e ∈ events) :
    ∃ first, IsFirst events first ∧ first.covenantId = e.covenantId := by
  have hmem : e ∈ eventsOf events e.covenantId := mem_eventsOf.mpr ⟨he, rfl⟩
  cases hmin : (eventsOf events e.covenantId).argmin (·.seq) with
  | none =>
      rw [List.argmin_eq_none] at hmin
      rw [hmin] at hmem
      cases hmem
  | some first =>
      obtain ⟨hfirst, hid⟩ := mem_eventsOf.mp (List.argmin_mem hmin)
      refine ⟨first, ⟨hfirst, fun x hx hxid ↦ ?_⟩, hid⟩
      exact List.le_of_mem_argmin (mem_eventsOf.mpr ⟨hx, hxid.trans hid⟩) hmin

/-- A rollback that deletes the events of `hashes` takes from under the events
that stay neither the newest nor, where a genesis is at stake, the first. -/
structure KeepsEnds (events : List EventRow) (hashes : List BlockHash) : Prop where
  newest : ∀ e ∈ events, e.acceptingBlock ∉ hashes → ∀ x ∈ events,
    x.covenantId = e.covenantId → ∃ y ∈ events, y.acceptingBlock ∉ hashes ∧
      y.covenantId = e.covenantId ∧ x.acceptingDaa ≤ y.acceptingDaa
  first : ∀ x ∈ events, IsFirst events x →
    ∀ y ∈ events, IsFirst (events.filter (·.acceptingBlock ∉ hashes)) y →
      x.covenantId = y.covenantId → x = y ∨ x.kind ≠ .genesis ∧ y.kind ≠ .genesis

namespace SummaryInvariant

variable {covenants : List CovenantRow} {events : List EventRow}

theorem dropBlocks (h : SummaryInvariant covenants events) {hashes : List BlockHash}
    (hends : KeepsEnds events hashes) :
    SummaryInvariant
      ((covenants.map fun row ↦
        { row with
          eventCount := row.eventCount - (removedCount hashes events row.covenantId : Nat) }).filter
        (0 < ·.eventCount))
      (events.filter (·.acceptingBlock ∉ hashes)) := by
  have hcounts := h.counts.dropBlocks hashes
  refine ⟨hcounts.ids, ?_, hcounts.covered⟩
  intro r hr
  have hcount := hcounts.counts r hr
  have hpositive := hcounts.positive r hr
  rw [eventCountOf_eq] at hcount
  obtain ⟨old, hold, rfl⟩ := List.mem_map.mp (List.mem_of_mem_filter hr)
  have hsummary := h.summarises old hold
  have hkept : ∀ e, e ∈ eventsOf (events.filter (·.acceptingBlock ∉ hashes)) old.covenantId ↔
      (e ∈ events ∧ e.acceptingBlock ∉ hashes) ∧ e.covenantId = old.covenantId := by
    intro e
    simp
  refine ⟨hcount, hpositive, ?_, ?_, ?_⟩
  · -- some event stays, and with it one of the greatest DAA
    obtain ⟨e, he⟩ := List.exists_mem_of_length_pos
      (l := eventsOf (events.filter (·.acceptingBlock ∉ hashes)) old.covenantId)
      (by rw [hcount] at hpositive; exact Int.natCast_pos.mp hpositive)
    obtain ⟨⟨he, hek⟩, heid⟩ := (hkept e).mp he
    obtain ⟨top, htop, hmax⟩ := hsummary.newest
    obtain ⟨htop, htopid⟩ := mem_eventsOf.mp htop
    obtain ⟨y, hy, hyk, hyid, hle⟩ :=
      hends.newest e he hek top htop (htopid.trans heid.symm)
    have hyid' : y.covenantId = old.covenantId := hyid.trans heid
    refine ⟨y, (hkept y).mpr ⟨⟨hy, hyk⟩, hyid'⟩, le_antisymm ?_ ?_⟩
    · exact hsummary.latest y (mem_eventsOf.mpr ⟨hy, hyid'⟩)
    · exact hmax ▸ hle
  · intro e he
    obtain ⟨⟨he, -⟩, heid⟩ := (hkept e).mp he
    exact hsummary.latest e (mem_eventsOf.mpr ⟨he, heid⟩)
  · intro first hfirst hlowest
    obtain ⟨⟨hmem, hk⟩, hid⟩ := (hkept first).mp hfirst
    have hisFirst : IsFirst (events.filter (·.acceptingBlock ∉ hashes)) first := by
      refine ⟨by simpa using ⟨hmem, hk⟩, fun e he heid ↦ hlowest e ?_⟩
      exact mem_eventsOf.mpr ⟨he, heid.trans hid⟩
    obtain ⟨x, hx, hxid⟩ := exists_isFirst hmem
    have hdescribes : old.Describes x :=
      hsummary.lineage x (mem_eventsOf.mpr ⟨hx.1, hxid.trans hid⟩) fun e he ↦
        hx.2 e (mem_eventsOf.mp he).1 ((mem_eventsOf.mp he).2.trans (hxid.trans hid).symm)
    rcases hends.first x hx.1 hx first hmem hisFirst hxid with rfl | ⟨hxkind, hkind⟩
    · exact hdescribes
    · rw [CovenantRow.Describes, if_neg hxkind] at hdescribes
      rw [CovenantRow.Describes, if_neg hkind]
      exact hdescribes

/-! ### Recovery -/

/-- What the merges of a recovery keep: the rows of the covenants that will not
be refreshed still summarise their events. -/
structure Partial (refreshed : List CovenantId) (covenants : List CovenantRow)
    (events : List EventRow) : Prop where
  ids : (covenants.map (·.covenantId)).Nodup
  summarises : ∀ row ∈ covenants, row.covenantId ∉ refreshed →
    row.Summarises (eventsOf events row.covenantId)
  covered : ∀ e ∈ events, ∃ row ∈ covenants, row.covenantId = e.covenantId
  keyed : SeqKeyed events

theorem insertCovenant_mem {row r : CovenantRow} {rows : List CovenantRow}
    (h : r ∈ insertCovenant row rows) : r ∈ rows ∨ r = row := by
  unfold insertCovenant at h
  split at h
  · exact .inl h
  · rcases List.mem_append.mp h with h | h
    · exact .inl h
    · exact .inr (List.mem_singleton.mp h)

theorem mem_insertCovenant_of_mem {row r : CovenantRow} {rows : List CovenantRow}
    (h : r ∈ rows) : r ∈ insertCovenant row rows := by
  unfold insertCovenant
  split
  · exact h
  · exact List.mem_append_left _ h

theorem insertCovenant_covers (row : CovenantRow) (rows : List CovenantRow) :
    ∃ r ∈ insertCovenant row rows, r.covenantId = row.covenantId := by
  unfold insertCovenant
  split
  · rename_i hany
    obtain ⟨r, hr, hid⟩ := List.any_eq_true.mp hany
    exact ⟨r, hr, of_decide_eq_true hid⟩
  · exact ⟨row, by simp, rfl⟩

theorem Partial.insert {refreshed : List CovenantId} {dec : Decoders}
    {e : AcceptedBlockBatch × NewEvent} (h : Partial refreshed covenants events)
    (he : e.2.covenantId ∈ refreshed) :
    Partial refreshed (insertCovenant (bareCovenantRow e.2.covenantId) covenants)
      (events ++ [insertedRow dec events e]) := by
  refine ⟨insertCovenant_ids h.ids, ?_, ?_, h.keyed.insert rfl⟩
  · intro row hrow hnot
    have hne : row.covenantId ≠ e.2.covenantId := fun heq ↦ hnot (heq ▸ he)
    have hmem : row ∈ covenants :=
      (insertCovenant_mem hrow).resolve_right fun heq ↦ hne (by rw [heq]; rfl)
    rw [eventsOf_append_of_ne (fun heq ↦ hne heq.symm)]
    exact h.summarises row hmem hnot
  · intro x hx
    rcases List.mem_append.mp hx with hx | hx
    · obtain ⟨row, hrow, hid⟩ := h.covered x hx
      exact ⟨row, mem_insertCovenant_of_mem hrow, hid⟩
    · rw [List.mem_singleton.mp hx]
      exact insertCovenant_covers (bareCovenantRow e.2.covenantId) covenants

/-- The greatest DAA of the rows, when there is a row. -/
theorem foldl_max_daa (rows : List EventRow) (m : Nat) :
    (m ≤ rows.foldl (fun m row ↦ max m row.acceptingDaa) m ∧
      ∀ e ∈ rows, e.acceptingDaa ≤ rows.foldl (fun m row ↦ max m row.acceptingDaa) m) ∧
    (rows.foldl (fun m row ↦ max m row.acceptingDaa) m = m ∨
      ∃ e ∈ rows, e.acceptingDaa = rows.foldl (fun m row ↦ max m row.acceptingDaa) m) := by
  induction rows generalizing m with
  | nil => simp
  | cons hd tl ih =>
      obtain ⟨⟨hinit, htl⟩, hattained⟩ := ih (max m hd.acceptingDaa)
      rw [List.foldl_cons]
      refine ⟨⟨le_trans (le_max_left _ _) hinit, fun e he ↦ ?_⟩, ?_⟩
      · rcases List.mem_cons.mp he with rfl | he
        · exact le_trans (le_max_right _ _) hinit
        · exact htl e he
      · rcases hattained with heq | ⟨e, he, heq⟩
        · rcases max_choice m hd.acceptingDaa with hm | hm
          · exact .inl (heq.trans hm)
          · exact .inr ⟨hd, List.mem_cons_self, (heq.trans hm).symm⟩
        · exact .inr ⟨e, List.mem_cons_of_mem _ he, heq⟩

/-- The columns of a refreshed row. -/
theorem refreshRow_columns {row : CovenantRow} {first : EventRow}
    (h : firstEvent events row.covenantId = some first) :
    (refreshRow events row).eventCount = (eventsOf events row.covenantId).length ∧
      (refreshRow events row).lastActivityDaa = lastActivityOf events row.covenantId ∧
      (refreshRow events row).Describes first := by
  have hcount := eventCountOf_eq events row.covenantId
  rw [← hcount]
  simp only [refreshRow, h]
  by_cases hkind : first.kind = .genesis
  · rw [if_pos hkind]
    exact ⟨rfl, rfl, by rw [CovenantRow.Describes, if_pos hkind]; exact ⟨rfl, rfl, rfl⟩⟩
  · rw [if_neg hkind]
    exact ⟨rfl, rfl, by rw [CovenantRow.Describes, if_neg hkind]; exact ⟨rfl, rfl, rfl⟩⟩

/-- A refreshed row summarises a covenant numbered from zero. -/
theorem refreshRow_summarises {row : CovenantRow} (hkeyed : SeqKeyed events)
    (hzero : ∃ e ∈ eventsOf events row.covenantId, e.seq = 0) :
    (refreshRow events row).Summarises (eventsOf events row.covenantId) := by
  obtain ⟨zero, hzero, hseq⟩ := hzero
  obtain ⟨hmem, hid⟩ := mem_eventsOf.mp hzero
  cases hfirst : firstEvent events row.covenantId with
  | none =>
      have hnone := List.find?_eq_none.mp hfirst zero hmem
      simp [hid, hseq] at hnone
  | some first =>
      obtain ⟨hcount, hlast, hdescribes⟩ := refreshRow_columns hfirst
      have hprop := List.find?_some hfirst
      rw [decide_eq_true_eq] at hprop
      have hfirstMem := List.mem_of_find?_eq_some hfirst
      obtain ⟨⟨-, hmax⟩, hattained⟩ := foldl_max_daa (eventsOf events row.covenantId) 0
      refine ⟨hcount, ?_, ?_, ?_, ?_⟩
      · rw [hcount]
        exact Int.natCast_pos.mpr (List.length_pos_of_mem hzero)
      · rw [hlast]
        rcases hattained with heq | hattained
        · refine ⟨zero, hzero, le_antisymm (hmax zero hzero) ?_⟩
          exact le_of_eq_of_le heq (Nat.zero_le _)
        · exact hattained
      · intro e he
        rw [hlast]
        exact hmax e he
      · intro x hx hlowest
        obtain ⟨hx, hxid⟩ := mem_eventsOf.mp hx
        have hle := hlowest zero hzero
        have hge := hkeyed.nonneg x hx
        have hxzero : x.seq = first.seq := by omega
        rw [hkeyed.eq_of_seq hx hfirstMem (hxid.trans hprop.1.symm) hxzero]
        exact hdescribes

/-- The finaliser makes the refreshed rows summarise too. -/
theorem Partial.finalize {s : Store} {gapLo gapHi : Nat}
    (h : Partial (coveredCovenants s gapLo gapHi) s.covenants s.covenantEvents)
    (merged : MergeCounts) :
    SummaryInvariant (finalizeGapRecovery s gapLo gapHi merged).covenants
        (finalizeGapRecovery s gapLo gapHi merged).covenantEvents ∧
      SeqKeyed (finalizeGapRecovery s gapLo gapHi merged).covenantEvents := by
  have hevents := finalizeGapRecovery_events h.keyed gapLo gapHi merged
  have hrows := finalizeGapRecovery_covenants h.keyed gapLo gapHi merged
  generalize (finalizeGapRecovery s gapLo gapHi merged).covenantEvents = final at hevents hrows
  generalize (finalizeGapRecovery s gapLo gapHi merged).covenants = covenants at hrows
  subst hrows
  have hid : ∀ row : CovenantRow, (if row.covenantId ∈ coveredCovenants s gapLo gapHi then
      refreshRow final row else row).covenantId = row.covenantId := by
    intro row
    split
    · exact refreshRow_covenantId final row
    · rfl
  have hkeyed : SeqKeyed final := by
    constructor
    · intro id
      rw [hevents]
      split
      · exact renumbered_keyed (h.keyed.nodup id)
      · exact h.keyed.nodup id
    · intro e he
      have he' := mem_eventsOf.mpr ⟨he, Eq.refl e.covenantId⟩
      generalize e.covenantId = id at he'
      rw [hevents] at he'
      split at he'
      · obtain ⟨old, _, rfl⟩ := List.mem_map.mp he'
        exact Int.natCast_nonneg _
      · exact h.keyed.nonneg e (mem_eventsOf.mp he').1
  refine ⟨⟨?_, ?_, ?_⟩, hkeyed⟩
  · rw [List.map_map]
    have hproj : ((·.covenantId) ∘ fun row : CovenantRow ↦
        if row.covenantId ∈ coveredCovenants s gapLo gapHi then refreshRow final row else row) =
        fun row ↦ row.covenantId := funext hid
    rw [hproj]
    exact h.ids
  · intro r hr
    obtain ⟨row, hrow, rfl⟩ := List.mem_map.mp hr
    rw [hid]
    by_cases hcovered : row.covenantId ∈ coveredCovenants s gapLo gapHi
    · rw [if_pos hcovered]
      refine refreshRow_summarises hkeyed ?_
      -- a covered covenant has an event, and the renumbering starts at zero
      obtain ⟨e, he, heid, -⟩ := mem_coveredCovenants.mp hcovered
      have hpos : 0 < (eventsOf s.covenantEvents row.covenantId).length :=
        List.length_pos_of_mem (mem_eventsOf.mpr ⟨he, heid⟩)
      have hzero : (0 : Int) ∈ (renumbered (eventsOf s.covenantEvents row.covenantId)).map
          (·.seq) :=
        (renumbered_seqs (h.keyed.nodup _)).mem_iff.mpr
          (List.mem_map.mpr ⟨0, List.mem_range.mpr hpos, rfl⟩)
      rw [hevents, if_pos hcovered]
      exact List.mem_map.mp hzero
    · rw [if_neg hcovered]
      rw [hevents, if_neg hcovered]
      exact h.summarises row hrow hcovered
  · intro e he
    have he' := mem_eventsOf.mpr ⟨he, Eq.refl e.covenantId⟩
    have hcov : ∃ old ∈ s.covenantEvents, old.covenantId = e.covenantId := by
      rw [hevents] at he'
      split at he'
      · obtain ⟨old, hold, -⟩ := List.mem_map.mp he'
        exact ⟨old, (mem_eventsOf.mp hold).1, (mem_eventsOf.mp hold).2⟩
      · exact ⟨e, (mem_eventsOf.mp he').1, rfl⟩
    obtain ⟨old, hold, holdid⟩ := hcov
    obtain ⟨row, hrow, hrowid⟩ := h.covered old hold
    exact ⟨_, List.mem_map_of_mem hrow, (hid row).trans (hrowid.trans holdid)⟩

end SummaryInvariant

/-! ## Runs -/

/-- The condition on an operation under which the covenant rows go on
summarising their events. -/
def Follower.KeepsSummary (dec : Decoders) (w : Follower) : FollowerOp → Prop
  | .skip _ => True
  | .apply block => ∀ event ∈ block.events, ∀ e ∈ w.store.covenantEvents,
      e.covenantId = event.covenantId → e.acceptingDaa ≤ block.acceptingDaa
  | .rollback removed => KeepsEnds w.store.covenantEvents (canonicalRemoved w.store removed)
  | .recover gapLo gapHi blocks =>
      Inserts dec (fun _ e ↦ e.2.covenantId ∈
        coveredCovenants (mergeBlocks dec w.store blocks).1 gapLo gapHi)
        w.store.covenantEvents (recoveredEvents blocks)

/-- An apply in chain order meets the condition when the events lie on the chain. -/
theorem keepsSummary_of_extends {dec : Decoders} {w : Follower} {block : AcceptedBlockBatch}
    (hplaced : ∀ e ∈ w.store.covenantEvents, e.chainBlock ∈ w.chain)
    (hnew : Extends w.chain block.chainBlock) : w.KeepsSummary dec (.apply block) :=
  fun _ _ e he _ ↦ hnew.2 e.chainBlock (hplaced e he)

/-- The summaries and the key they rest on. -/
structure SummaryState (s : Store) : Prop where
  summary : SummaryInvariant s.covenants s.covenantEvents
  keyed : SeqKeyed s.covenantEvents

theorem SummaryState.fresh (epoch : StreamEpoch) : SummaryState (.fresh epoch) :=
  ⟨SummaryInvariant.nil, SeqKeyed.nil⟩

theorem SummaryState.commit {dec : Decoders} {w w' : Follower} {op : FollowerOp}
    (h : SummaryState w.store) (hkeeps : w.KeepsSummary dec op)
    (hok : op.commit dec w = .ok w') : SummaryState w'.store := by
  cases op with
  | skip block =>
      obtain rfl := Except.ok.inj hok
      exact h
  | apply block =>
      obtain ⟨⟨s', c⟩, hx, rfl⟩ := map_eq_ok.mp hok
      obtain ⟨_, _, ⟨_, rfl⟩ | ⟨_, rfl⟩⟩ := applyAcceptedBlock_ok hx
      · exact h
      · obtain ⟨hsummary, hkeyed⟩ := h.summary.numbered h.keyed dec block w.store.nextStreamSeq
          hkeeps
        exact ⟨hsummary, hkeyed⟩
  | rollback removed =>
      obtain ⟨⟨s', c⟩, hx, rfl⟩ := map_eq_ok.mp hok
      obtain ⟨_, ⟨_, rfl, _⟩ | ⟨_, rfl, _⟩⟩ := rollbackRemovedBlocks_ok hx
      · exact h
      · exact ⟨h.summary.dropBlocks hkeeps, h.keyed.filter _⟩
  | recover gapLo gapHi blocks =>
      obtain rfl := Except.ok.inj hok
      have hmerged := mergeBlocks_invariant
        (fun events covenants ↦ SummaryInvariant.Partial
          (coveredCovenants (mergeBlocks dec w.store blocks).1 gapLo gapHi) covenants events)
        (fun _ _ _ hrows _ hcovered ↦ hrows.insert hcovered) hkeeps
        ⟨h.summary.ids, fun row hrow _ ↦ h.summary.summarises row hrow, h.summary.covered,
          h.keyed⟩
      obtain ⟨hsummary, hkeyed⟩ := hmerged.finalize (mergeBlocks dec w.store blocks).2
      exact ⟨hsummary, hkeyed⟩

/-- **Every covenant row summarises its events**, in every state of a run whose
operations meet the condition. -/
theorem run_summaryInvariant (dec : Decoders) (epoch : StreamEpoch) (ops : List FollowerOp)
    (h : Runs.Guarded (FollowerOp.commit dec) (fun w op ↦ w.KeepsSummary dec op)
      (.fresh epoch) ops) :
    SummaryInvariant (FollowerOp.run dec (.fresh epoch) ops).store.covenants
      (FollowerOp.run dec (.fresh epoch) ops).store.covenantEvents :=
  (Runs.run_invariant_of_guarded (fun w ↦ SummaryState w.store) _
    (fun _ _ _ hw hop hok ↦ hw.commit hop hok) (SummaryState.fresh epoch) h).summary

/-- Covenant 9 is born in a skipped block and recovered behind a later event;
covenant 8 is born on top and lost again. -/
def summarisedRun : List FollowerOp :=
  [.skip ⟨⟨2⟩, 20⟩, .apply (eventBatch 3 30 9 .transition 5 5),
    .recover 15 25 [eventBatch 2 20 9 .genesis 2 0],
    .apply (eventBatch 4 40 8 .genesis 6 0), .rollback [⟨4⟩]]

theorem summarisedRun_summaryInvariant :
    SummaryInvariant (FollowerOp.run .blind (.fresh ⟨0⟩) summarisedRun).store.covenants
      (FollowerOp.run .blind (.fresh ⟨0⟩) summarisedRun).store.covenantEvents :=
  run_summaryInvariant .blind ⟨0⟩ summarisedRun
    ⟨trivial, show ∀ event ∈ _, _ by decide, show Inserts _ _ _ _ by decide,
      show ∀ event ∈ _, _ by decide,
      KeepsEnds.mk (show ∀ e ∈ _, _ by decide) (show ∀ e ∈ _, _ by decide), trivial⟩

/-- A block with a transition is applied and rolled back on top of the genesis. -/
def rolledBackRun : List FollowerOp :=
  [.apply (eventBatch 1 10 9 .genesis 1 0), .apply (eventBatch 2 20 9 .transition 2 0),
    .rollback [⟨2⟩]]

/-- The run follows the chain, yet the covenant's row keeps the DAA of the event
that is gone. -/
theorem rollback_keeps_last_activity :
    Runs.Guarded (FollowerOp.commit .blind) Follower.Follows (.fresh ⟨0⟩) rolledBackRun ∧
      (FollowerOp.run .blind (.fresh ⟨0⟩) rolledBackRun).store.covenants.map
        (·.lastActivityDaa) = [20] ∧
      (FollowerOp.run .blind (.fresh ⟨0⟩) rolledBackRun).store.covenantEvents.map
        (·.acceptingDaa) = [10] ∧
      ¬SummaryInvariant (FollowerOp.run .blind (.fresh ⟨0⟩) rolledBackRun).store.covenants
        (FollowerOp.run .blind (.fresh ⟨0⟩) rolledBackRun).store.covenantEvents := by
  refine ⟨⟨⟨by decide, by decide⟩, ⟨by decide, by decide⟩, ?_, trivial⟩, by decide, by decide, ?_⟩
  · exact ⟨[⟨⟨1⟩, 10⟩], [⟨⟨2⟩, 20⟩], rfl, fun _ ↦ Iff.rfl⟩
  · intro h
    have hstale : ∀ row ∈ (FollowerOp.run .blind (.fresh ⟨0⟩) rolledBackRun).store.covenants,
        ¬∃ e ∈ eventsOf (FollowerOp.run .blind (.fresh ⟨0⟩) rolledBackRun).store.covenantEvents
          row.covenantId, e.acceptingDaa = row.lastActivityDaa := by
      decide
    have hrow : ∃ row ∈ (FollowerOp.run .blind (.fresh ⟨0⟩) rolledBackRun).store.covenants,
        True := by decide
    obtain ⟨row, hrow, -⟩ := hrow
    exact hstale row hrow (h.summarises row hrow).newest

end Kascov
