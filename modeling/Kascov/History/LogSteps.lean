import Kascov.History.LogInvariant
import Kascov.Store.RepairEffect

/-!
# The writers keep the log invariant

One theorem for each writer: an applied block, a rollback, a backfilled event
and a repaired output.
-/

namespace Kascov

open CancelLog List

/-! ## Apply -/

theorem acceptedReading_cancels_accepted {r : DeliveryRecord} (h : r.kind = .accepted) :
    acceptedReading.cancels r = none := by
  simp [acceptedReading, h]

/-- Accepted records with sequences of their own extend the live list. -/
theorem liveAccepted_append {s : Store} {next : Nat} (h : LogInvariant s next)
    {new : List DeliveryRecord} (hkind : ∀ r ∈ new, r.kind = .accepted)
    (hseq : ∀ r ∈ new, next ≤ r.cursor.seq) :
    liveAccepted (s.deliveryLog ++ new) = liveAccepted s.deliveryLog ++ new := by
  unfold liveAccepted
  rw [live_append acceptedReading
    (fun r hr ↦ acceptedReading_cancels_accepted (hkind r hr))
    (fun r hr _ ↦ h.not_cancelled (hseq r hr))]
  congr 1
  rw [List.filter_eq_self]
  intro r hr
  simp [acceptedReading, hkind r hr]

/-- Records that are not removals cancel nothing. -/
theorem isCancelled_append {log new : List DeliveryRecord}
    (hkind : ∀ r ∈ new, r.kind ≠ .removed) (c : StreamCursor) :
    isCancelled (log ++ new) c = isCancelled log c := by
  have hnone : cancelled acceptedReading new c = false :=
    cancelled_eq_false acceptedReading (fun r hr ↦ by simp [acceptedReading, hkind r hr]) c
  simp [isCancelled, hnone]

theorem filter_removed_append {log new : List DeliveryRecord}
    (hkind : ∀ r ∈ new, r.kind ≠ .removed) :
    (log ++ new).filter (·.kind = .removed) = log.filter (·.kind = .removed) := by
  have hnil : new.filter (·.kind = .removed) = [] := by
    rw [List.filter_eq_nil_iff]
    intro r hr
    simpa using hkind r hr
  rw [List.filter_append, hnil, List.append_nil]

/-- The new records of an applied block. -/
theorem numberedRecord_seq {dec : Decoders} {block : AcceptedBlockBatch}
    {epoch : StreamEpoch} {rows : List EventRow} {next : Nat} {events : List NewEvent}
    {r : DeliveryRecord}
    (h : r ∈ (numberEvents dec block rows next events).map (numberedRecord block epoch)) :
    r.kind = .accepted ∧ r.cursor.epoch = epoch ∧ next ≤ r.cursor.seq ∧
      r.cursor.seq < next + events.length := by
  obtain ⟨e, he, rfl⟩ := List.mem_map.mp h
  have hmem : e.2.2 ∈ (numberEvents dec block rows next events).map (·.2.2) :=
    List.mem_map_of_mem he
  rw [numberEvents_map_next, List.mem_range'_1] at hmem
  exact ⟨rfl, rfl, hmem⟩

theorem LogInvariant.applied {dec : Decoders} {s : Store} {block : AcceptedBlockBatch}
    (h : LogInvariant s s.nextStreamSeq)
    (hnew : s.isCanonical block.acceptingBlock = false)
    (hdaa : block.acceptingDaa = 0 → block.events = []) :
    LogInvariant (appliedStore dec s block) (appliedStore dec s block).nextStreamSeq := by
  let es := numberEvents dec block s.covenantEvents s.nextStreamSeq block.events
  let new := es.map (numberedRecord block s.streamEpoch)
  have hnext : (appliedStore dec s block).nextStreamSeq =
      s.nextStreamSeq + block.events.length := by
    by_cases h0 : 0 < block.acceptingDaa
    · simp [appliedStore, h0]
    · simp [appliedStore, hdaa (by omega)]
  have hnewRecord : ∀ r ∈ new, r.kind = .accepted ∧ r.cursor.epoch = s.streamEpoch ∧
      s.nextStreamSeq ≤ r.cursor.seq ∧
      r.cursor.seq < s.nextStreamSeq + block.events.length :=
    fun r hr ↦ numberedRecord_seq hr
  have hnotRemoved : ∀ r ∈ new, r.kind ≠ .removed := by
    intro r hr hk
    rw [(hnewRecord r hr).1] at hk
    cases hk
  have hlive : liveAccepted (s.deliveryLog ++ new) = liveAccepted s.deliveryLog ++ new :=
    liveAccepted_append h (fun r hr ↦ (hnewRecord r hr).1) (fun r hr ↦ (hnewRecord r hr).2.2.1)
  have hrowBlock : ∀ row ∈ s.canonicalBatches, row.acceptingBlock ≠ block.acceptingBlock := by
    simpa [Store.isCanonical] using hnew
  have hbatchMem : ∀ row ∈ s.canonicalBatches,
      row ∈ (appliedStore dec s block).canonicalBatches := by
    intro row hrow
    by_cases h0 : 0 < block.acceptingDaa <;> simp [appliedStore, h0, hrow]
  rw [hnext]
  refine
    { pos := by have := h.pos; omega
      seqs := ?_
      epochs := ?_
      sources := ?_
      once := ?_
      announced := ?_
      keys := numberEvents_keys_nodup dec block block.events s.covenantEvents _ h.keys
      batches := ?_
      covered := ?_
      retired := ?_ }
  · change (s.deliveryLog ++ new).map (·.cursor.seq) = _
    rw [List.map_append, h.seqs, ← h.seqs_concat, List.map_map]
    congr 1
    exact numberEvents_map_next dec block _ _ _
  · intro r hr
    rcases List.mem_append.mp hr with hr | hr
    · exact h.epochs r hr
    · exact (hnewRecord r hr).2.1
  · intro r hr hk
    rcases List.mem_append.mp hr with hr | hr
    · obtain ⟨a, ha, hrest⟩ := h.sources r hr hk
      exact ⟨a, List.mem_append_left _ ha, hrest⟩
    · exact absurd hk (hnotRemoved r hr)
  · change (((s.deliveryLog ++ new).filter _).map _).Nodup
    rw [filter_removed_append hnotRemoved]
    exact h.once
  · change (liveAccepted (s.deliveryLog ++ new)).map _ ~
      stampedKeys (s.covenantEvents ++ es.map (numberedRow dec block))
    rw [hlive, List.map_append, stampedKeys, List.filterMap_append]
    refine h.announced.append (Perm.of_eq ?_)
    rw [List.filterMap_map, List.map_map, ← List.filterMap_eq_map]
    rfl
  · by_cases h0 : 0 < block.acceptingDaa
    · simp only [appliedStore, h0, if_true, List.map_append, List.map_cons, List.map_nil,
        canonicalBatchRow]
      refine List.nodup_append.mpr ⟨h.batches, by simp, ?_⟩
      intro a ha b hb heq
      obtain ⟨row, hrow, rfl⟩ := List.mem_map.mp ha
      rw [List.mem_singleton] at hb
      exact hrowBlock row hrow (heq.trans hb)
    · simpa [appliedStore, h0] using h.batches
  · intro e he n hn
    rcases List.mem_append.mp he with he | he
    · obtain ⟨row, hrow, hrest⟩ := h.covered e he n hn
      exact ⟨row, hbatchMem row hrow, hrest⟩
    · -- an event of the block itself: the batch spans exactly the new sequences
      obtain ⟨x, hx, rfl⟩ := List.mem_map.mp he
      have hxr := (hnewRecord _ (List.mem_map_of_mem hx)).2.2
      have hlen : 0 < block.events.length := by omega
      have hne : block.events ≠ [] := List.ne_nil_of_length_pos hlen
      have h0 : 0 < block.acceptingDaa := Nat.pos_of_ne_zero fun h0 ↦ hne (hdaa h0)
      have hseq : (numberedRecord block s.streamEpoch x).cursor.seq = n := Option.some.inj hn
      rw [hseq] at hxr
      refine ⟨canonicalBatchRow block s.nextStreamSeq, by simp [appliedStore, h0], rfl,
        s.nextStreamSeq, s.nextStreamSeq + block.events.length - 1, ?_, ?_, hxr.1, by omega⟩
      · simp [canonicalBatchRow, hne]
      · simp [canonicalBatchRow, hne]
  · intro a ha hk hc row hrow hblock first hfirst
    change isCancelled (s.deliveryLog ++ new) a.cursor = true at hc
    rw [isCancelled_append hnotRemoved] at hc
    have hlt := h.cancelled_lt hc
    have ha' : a ∈ s.deliveryLog := by
      rcases List.mem_append.mp ha with ha | ha
      · exact ha
      · have := (hnewRecord a ha).2.2.1
        omega
    have hrow' : row ∈ s.canonicalBatches ∨ row = canonicalBatchRow block s.nextStreamSeq := by
      by_cases h0 : 0 < block.acceptingDaa
      · simpa [appliedStore, h0] using hrow
      · exact .inl (by simpa [appliedStore, h0] using hrow)
    rcases hrow' with hrow' | rfl
    · exact h.retired a ha' hk hc row hrow' hblock first hfirst
    · simp only [canonicalBatchRow] at hfirst
      split at hfirst
      · cases hfirst
      · rw [← Option.some.inj hfirst]
        exact hlt

/-! ## Rollback -/

/-- **What a rollback finds.**  The records the removal writer reads for a block
are its live accepted records: bounded below, they miss the records of an
earlier life of the block; bounded by its own batch, they miss none of this
one. -/
theorem LogInvariant.mem_acceptedSources {s : Store} {next : Nat} (h : LogInvariant s next)
    {block : BlockHash} {r : DeliveryRecord} :
    r ∈ s.acceptedSources block ↔
      r ∈ liveAccepted s.deliveryLog ∧ r.acceptingBlock = block := by
  constructor
  · intro hr
    unfold Store.acceptedSources at hr
    split at hr
    · rename_i row hfind
      obtain ⟨hlog, hbetween⟩ := List.mem_filter.mp hr
      have hrow := List.mem_of_find?_eq_some hfind
      have hrowBlock : row.acceptingBlock = block := by simpa using List.find?_some hfind
      unfold Store.acceptedBetween at hbetween
      split at hbetween
      · rename_i first last hfirst hlast
        simp only [Bool.decide_and, Bool.and_eq_true, decide_eq_true_eq] at hbetween
        obtain ⟨hle, _, hblock, hkind⟩ := hbetween
        refine ⟨(mem_live acceptedReading).mpr ⟨hlog, by simp [acceptedReading, hkind], ?_⟩,
          hblock⟩
        by_contra hc
        have hlt := h.retired r hlog hkind (Bool.not_eq_false _ ▸ hc) row hrow
          (hrowBlock.trans hblock.symm) first hfirst
        omega
      · cases hbetween
    · cases hr
  · rintro ⟨hlive, rfl⟩
    obtain ⟨hlog, hadds, _⟩ := (mem_live acceptedReading).mp hlive
    have hkind : r.kind = .accepted := by simpa [acceptedReading] using hadds
    have hkey : r.eventKey ∈ stampedKeys s.covenantEvents :=
      h.announced.mem_iff.mp (List.mem_map_of_mem hlive)
    obtain ⟨e, he, hekey⟩ := List.mem_filterMap.mp hkey
    obtain ⟨n, hn, hnkey⟩ := Option.map_eq_some_iff.mp hekey
    simp only [DeliveryRecord.eventKey, EventKey.mk.injEq] at hnkey
    obtain ⟨_, _, hblock, rfl⟩ := hnkey
    obtain ⟨row, hrow, hrowBlock, first, last, hfirst, hlast, hle, hge⟩ :=
      h.covered e he _ hn
    rw [hblock] at hrowBlock
    have hfind := h.find_batch hrow
    rw [hrowBlock] at hfind
    simp only [Store.acceptedSources, hfind, List.mem_filter]
    exact ⟨hlog, by simp [Store.acceptedBetween, hfirst, hlast, hle, hge, hkind]⟩

theorem LogInvariant.acceptedSources_nodup {s : Store} {next : Nat} (h : LogInvariant s next)
    (block : BlockHash) : (s.acceptedSources block).Nodup := by
  unfold Store.acceptedSources
  split
  · exact h.log_nodup.filter _
  · exact List.nodup_nil

theorem LogInvariant.mem_sources {s : Store} {next : Nat} (h : LogInvariant s next)
    {hashes : List BlockHash} {r : DeliveryRecord} :
    r ∈ hashes.flatMap s.acceptedSources ↔
      r ∈ liveAccepted s.deliveryLog ∧ r.acceptingBlock ∈ hashes := by
  rw [List.mem_flatMap]
  constructor
  · rintro ⟨block, hblock, hr⟩
    obtain ⟨hlive, rfl⟩ := h.mem_acceptedSources.mp hr
    exact ⟨hlive, hblock⟩
  · rintro ⟨hlive, hblock⟩
    exact ⟨_, hblock, h.mem_acceptedSources.mpr ⟨hlive, rfl⟩⟩

theorem LogInvariant.sources_nodup {s : Store} {next : Nat} (h : LogInvariant s next)
    {hashes : List BlockHash} (hnodup : hashes.Nodup) :
    (hashes.flatMap s.acceptedSources).Nodup := by
  rw [List.nodup_flatMap]
  refine ⟨fun block _ ↦ h.acceptedSources_nodup block, hnodup.imp ?_⟩
  intro a b hab r hra hrb
  rw [h.mem_acceptedSources] at hra hrb
  exact hab (hra.2.symm.trans hrb.2)

/-- A cursor the removals cancel is a source's. -/
theorem cancelled_removalsOf {epoch : StreamEpoch} {next : Nat}
    {sources : List DeliveryRecord} {c : StreamCursor} :
    isCancelled (removalsOf epoch next sources) c = true ↔ ∃ r ∈ sources, r.cursor = c := by
  have hcancels : (removalsOf epoch next sources).map acceptedReading.cancels =
      sources.map fun r ↦ some r.cursor := by
    rw [← removalsOf_map_source epoch next sources]
    refine List.map_congr_left fun r hr ↦ ?_
    simp [acceptedReading, removalsOf_kind r hr]
  have hmem : isCancelled (removalsOf epoch next sources) c = true ↔
      some c ∈ (removalsOf epoch next sources).map acceptedReading.cancels := by
    rw [isCancelled, cancelled_eq_true, List.mem_map]
  rw [hmem, hcancels, List.mem_map]
  simp

/-- After a rollback the live records are those of the other blocks. -/
theorem LogInvariant.liveAccepted_rolledBack {s : Store} {next : Nat}
    (h : LogInvariant s next) (hashes : List BlockHash) :
    liveAccepted (s.deliveryLog ++
        removalsOf s.streamEpoch next (hashes.flatMap s.acceptedSources)) =
      (liveAccepted s.deliveryLog).filter (·.acceptingBlock ∉ hashes) := by
  unfold liveAccepted
  rw [live_append_cancels acceptedReading
    (fun r hr ↦ by simp [acceptedReading, removalsOf_kind r hr])]
  refine List.filter_congr fun a ha ↦ ?_
  have hiff : isCancelled (removalsOf s.streamEpoch next (hashes.flatMap s.acceptedSources))
      a.cursor = true ↔ a.acceptingBlock ∈ hashes := by
    rw [cancelled_removalsOf]
    constructor
    · rintro ⟨r, hr, hcursor⟩
      obtain ⟨hlive, hblock⟩ := h.mem_sources.mp hr
      have hra : r = a := h.eq_of_cursor ((mem_live acceptedReading).mp hlive).1
        ((mem_live acceptedReading).mp ha).1 hcursor
      exact hra ▸ hblock
    · intro hblock
      exact ⟨a, h.mem_sources.mpr ⟨ha, hblock⟩, rfl⟩
  change (!isCancelled _ a.cursor) = _
  by_cases hmem : a.acceptingBlock ∈ hashes
  · simp [hiff.mpr hmem, hmem]
  · have hfalse := Bool.eq_false_iff.mpr (mt hiff.mp hmem)
    simp [hfalse, hmem]

theorem stampedKeys_filter (events : List EventRow) (hashes : List BlockHash) :
    stampedKeys (events.filter (·.acceptingBlock ∉ hashes)) =
      (stampedKeys events).filter (·.acceptingBlock ∉ hashes) := by
  unfold stampedKeys
  rw [List.filterMap_filter, List.filter_filterMap]
  refine List.filterMap_congr fun e _ ↦ ?_
  cases hn : e.deliveryStreamSeq with
  | none => simp [EventRow.eventKey?, hn]
  | some n =>
      by_cases hmem : e.acceptingBlock ∈ hashes <;>
        simp [EventRow.eventKey?, hn, hmem, Option.filter]

theorem LogInvariant.rolledBack {s : Store} {hashes : List BlockHash}
    (h : LogInvariant s s.nextStreamSeq) (hnodup : hashes.Nodup) :
    LogInvariant (rolledBackStore s hashes) (rolledBackStore s hashes).nextStreamSeq := by
  let sources := hashes.flatMap s.acceptedSources
  let new := removalsOf s.streamEpoch s.nextStreamSeq sources
  have hsource : ∀ r ∈ sources, r ∈ s.deliveryLog ∧ r.kind = .accepted ∧
      isCancelled s.deliveryLog r.cursor = false := by
    intro r hr
    obtain ⟨hlog, hadds, hc⟩ := (mem_live acceptedReading).mp (h.mem_sources.mp hr).1
    exact ⟨hlog, by simpa [acceptedReading] using hadds, hc⟩
  have hnotAccepted : ∀ r ∈ new, r.kind ≠ .accepted := by
    intro r hr
    simp [removalsOf_kind r hr]
  have hfilterNew : new.filter (·.kind = .removed) = new := by
    rw [List.filter_eq_self]
    intro r hr
    simp [removalsOf_kind r hr]
  refine
    { pos := by have := h.pos; change 1 ≤ s.nextStreamSeq + sources.length; omega
      seqs := ?_
      epochs := ?_
      sources := ?_
      once := ?_
      announced := ?_
      keys := ?_
      batches := ?_
      covered := ?_
      retired := ?_ }
  · change (s.deliveryLog ++ new).map (·.cursor.seq) =
      List.range' 1 (s.nextStreamSeq + sources.length - 1)
    rw [List.map_append, h.seqs, ← h.seqs_concat, removalsOf_map_seq]
  · intro r hr
    rcases List.mem_append.mp hr with hr | hr
    · exact h.epochs r hr
    · obtain ⟨source, _, i, _, _, rfl⟩ := mem_removalsOf hr
      rfl
  · intro r hr hk
    rcases List.mem_append.mp hr with hr | hr
    · obtain ⟨a, ha, hrest⟩ := h.sources r hr hk
      exact ⟨a, List.mem_append_left _ ha, hrest⟩
    · obtain ⟨source, hmem, i, hle, _, rfl⟩ := mem_removalsOf hr
      obtain ⟨hlog, hkind, _⟩ := hsource source hmem
      exact ⟨source, List.mem_append_left _ hlog, hkind, rfl,
        lt_of_lt_of_le (h.seq_lt hlog) hle⟩
  · change (((s.deliveryLog ++ new).filter _).map _).Nodup
    rw [List.filter_append, hfilterNew, List.map_append, removalsOf_map_source]
    refine List.nodup_append.mpr ⟨h.once, ?_, ?_⟩
    · refine List.Nodup.map_on ?_ (h.sources_nodup hnodup)
      intro a ha b hb heq
      exact h.eq_of_cursor (hsource a ha).1 (hsource b hb).1 (Option.some.inj heq)
    · -- a source is live, so no older removal names it
      intro c hc c' hc' heq
      subst heq
      obtain ⟨r, hr, rfl⟩ := List.mem_map.mp hc
      obtain ⟨source, hmem, hcursor⟩ := List.mem_map.mp hc'
      obtain ⟨hrlog, hrkind⟩ := List.mem_filter.mp hr
      have hcancel : isCancelled s.deliveryLog source.cursor = true := by
        refine (cancelled_eq_true _).mpr ⟨r, hrlog, ?_⟩
        simpa [acceptedReading, of_decide_eq_true hrkind] using hcursor.symm
      rw [(hsource source hmem).2.2] at hcancel
      cases hcancel
  · change (liveAccepted (s.deliveryLog ++ new)).map _ ~
      stampedKeys (s.covenantEvents.filter (·.acceptingBlock ∉ hashes))
    rw [h.liveAccepted_rolledBack, stampedKeys_filter]
    have hfilter := h.announced.filter (fun k ↦ decide (k.acceptingBlock ∉ hashes))
    rwa [List.filter_map] at hfilter
  · exact h.keys.sublist ((List.filter_sublist).map _)
  · exact h.batches.sublist ((List.filter_sublist).map _)
  · intro e he n hn
    obtain ⟨he, hkeep⟩ := List.mem_filter.mp he
    obtain ⟨row, hrow, hblock, hcovers⟩ := h.covered e he n hn
    exact ⟨row, List.mem_filter.mpr ⟨hrow, by simpa [hblock] using hkeep⟩, hblock, hcovers⟩
  · intro a ha hk hc row hrow hblock first hfirst
    obtain ⟨hrow, hkeep⟩ := List.mem_filter.mp hrow
    have ha : a ∈ s.deliveryLog := by
      rcases List.mem_append.mp ha with ha | ha
      · exact ha
      · exact absurd hk (hnotAccepted a ha)
    have hc : isCancelled s.deliveryLog a.cursor = true ∨ isCancelled new a.cursor = true := by
      have hor : isCancelled (s.deliveryLog ++ new) a.cursor = true := hc
      rwa [isCancelled, cancelled_append, Bool.or_eq_true] at hor
    rcases hc with hc | hc
    · exact h.retired a ha hk hc row hrow hblock first hfirst
    · -- cancelled just now: the block of the record is no longer canonical
      obtain ⟨r, hr, hcursor⟩ := cancelled_removalsOf.mp hc
      have hra : r = a := h.eq_of_cursor (hsource r hr).1 ha hcursor
      have hmem := (h.mem_sources.mp hr).2
      rw [hra, ← hblock] at hmem
      simp [hmem] at hkeep

/-! ## Backfill -/

theorem LogInvariant.congr {s s' : Store} {next : Nat} (h : LogInvariant s next)
    (hlog : s'.deliveryLog = s.deliveryLog) (hepoch : s'.streamEpoch = s.streamEpoch)
    (hevents : s'.covenantEvents = s.covenantEvents)
    (hbatches : s'.canonicalBatches = s.canonicalBatches) : LogInvariant s' next where
  pos := h.pos
  seqs := by rw [hlog]; exact h.seqs
  epochs := by rw [hlog, hepoch]; exact h.epochs
  sources := by rw [hlog]; exact h.sources
  once := by rw [hlog]; exact h.once
  announced := by rw [hlog, hevents]; exact h.announced
  keys := by rw [hevents]; exact h.keys
  batches := by rw [hbatches]; exact h.batches
  covered := by rw [hevents, hbatches]; exact h.covered
  retired := by rw [hlog, hbatches]; exact h.retired

theorem stampEvent_of_notMem {next : Nat} {row : EventRow} {events : List EventRow}
    (h : row.key ∉ events.map (·.key)) : stampEvent next row events = events := by
  unfold stampEvent
  rw [List.map_congr_left, List.map_id]
  intro e he
  have hne : ¬(e.covenantId = row.covenantId ∧ e.seq = row.seq ∧ e.deliveryStreamSeq = none) := by
    rintro ⟨hid, hseq, -⟩
    exact h (List.mem_map.mpr ⟨e, he, by simp [EventRow.key, hid, hseq]⟩)
  rw [if_neg hne, id]

@[simp] theorem stampEvent_keys (next : Nat) (row : EventRow) (events : List EventRow) :
    (stampEvent next row events).map (·.key) = events.map (·.key) := by
  unfold stampEvent
  rw [List.map_map]
  refine List.map_congr_left fun e _ ↦ ?_
  simp only [Function.comp_apply]
  split <;> rfl

/-- Stamping an unstamped event adds its key to the stamped ones. -/
theorem stampedKeys_stampEvent {next : Nat} {row : EventRow} {events : List EventRow}
    (hkeys : (events.map (·.key)).Nodup) (hmem : row ∈ events)
    (hnone : row.deliveryStreamSeq = none) :
    stampedKeys (stampEvent next row events) ~
      ⟨row.covenantId, row.txid, row.acceptingBlock, next⟩ :: stampedKeys events := by
  induction events with
  | nil => cases hmem
  | cons e events ih =>
      rw [List.map_cons, List.nodup_cons] at hkeys
      have hcons : stampEvent next row (e :: events) =
          (if e.covenantId = row.covenantId ∧ e.seq = row.seq ∧ e.deliveryStreamSeq = none then
            { e with deliveryStreamSeq := some next } else e) :: stampEvent next row events := rfl
      rcases List.mem_cons.mp hmem with rfl | hmem
      · rw [hcons, stampEvent_of_notMem hkeys.1]
        simp [stampedKeys, EventRow.eventKey?, hnone]
      · have hne : ¬(e.covenantId = row.covenantId ∧ e.seq = row.seq ∧
            e.deliveryStreamSeq = none) := by
          rintro ⟨hid, hseq, -⟩
          exact hkeys.1 (List.mem_map.mpr ⟨row, hmem, by simp [EventRow.key, hid, hseq]⟩)
        rw [hcons, if_neg hne]
        cases he : e.deliveryStreamSeq with
        | none => simpa [stampedKeys, EventRow.eventKey?, he] using ih hkeys.2 hmem
        | some n =>
            have hswap := ((ih hkeys.2 hmem).cons
              ⟨e.covenantId, e.txid, e.acceptingBlock, n⟩).trans (Perm.swap _ _ _)
            simpa [stampedKeys, EventRow.eventKey?, he] using hswap

/-- A row after a stamping is an old row, or the stamped one. -/
theorem mem_stampEvent {next : Nat} {row e : EventRow} {events : List EventRow}
    (hkeys : (events.map (·.key)).Nodup) (hmem : row ∈ events)
    (h : e ∈ stampEvent next row events) :
    e ∈ events ∨ e = { row with deliveryStreamSeq := some next } := by
  obtain ⟨e₀, he₀, rfl⟩ := List.mem_map.mp h
  split
  · rename_i hkey
    have heq : e₀ = row :=
      List.inj_on_of_nodup_map hkeys he₀ hmem (by simp [EventRow.key, hkey.1, hkey.2.1])
    exact .inr (by rw [heq])
  · exact .inl he₀

/-- Rows other than the stamped one stay. -/
theorem mem_stampEvent_of_ne {next : Nat} {row e : EventRow} {events : List EventRow}
    (hmem : e ∈ events) (hne : e.key ≠ row.key) : e ∈ stampEvent next row events := by
  refine List.mem_map.mpr ⟨e, hmem, if_neg ?_⟩
  rintro ⟨hid, hseq, -⟩
  exact hne (by simp [EventRow.key, hid, hseq])

@[simp] theorem widenBatch_acceptingBlock (next : Nat) (row : CanonicalBatchRow) :
    (widenBatch next row).acceptingBlock = row.acceptingBlock := rfl

theorem widenBatch_covers (next : Nat) (row : CanonicalBatchRow) :
    (widenBatch next row).Covers next := by
  obtain ⟨block, daa, first, last⟩ := row
  cases first <;> cases last <;> simp only [widenBatch, CanonicalBatchRow.Covers]
  · exact ⟨next, next, rfl, rfl, le_refl _, le_refl _⟩
  · split
    · exact ⟨next, next, rfl, rfl, le_refl _, le_refl _⟩
    · exact ⟨next, _, rfl, rfl, le_refl _, by omega⟩
  · split
    · exact ⟨next, next, rfl, rfl, le_refl _, le_refl _⟩
    · exact ⟨_, next, rfl, rfl, by omega, le_refl _⟩
  · split <;> split
    · exact ⟨_, _, rfl, rfl, le_refl _, le_refl _⟩
    · exact ⟨_, _, rfl, rfl, le_refl _, by omega⟩
    · exact ⟨_, _, rfl, rfl, by omega, le_refl _⟩
    · exact ⟨_, _, rfl, rfl, by omega, by omega⟩

theorem CanonicalBatchRow.Covers.widenBatch {row : CanonicalBatchRow} {n : Nat}
    (h : row.Covers n) (next : Nat) : (widenBatch next row).Covers n := by
  obtain ⟨first, last, hfirst, hlast, hle, hge⟩ := h
  simp only [Kascov.widenBatch, CanonicalBatchRow.Covers, hfirst, hlast]
  split <;> split
  · exact ⟨_, _, rfl, rfl, by omega, by omega⟩
  · exact ⟨_, _, rfl, rfl, by omega, hge⟩
  · exact ⟨_, _, rfl, rfl, hle, by omega⟩
  · exact ⟨_, _, rfl, rfl, hle, hge⟩

/-- The lower bound a widening leaves is the old one, or the new sequence. -/
theorem widenBatch_first {next first : Nat} {row : CanonicalBatchRow}
    (h : (widenBatch next row).firstStreamSeq = some first) :
    row.firstStreamSeq = some first ∨ first = next := by
  simp only [widenBatch] at h
  split at h
  · exact .inr (Option.some.inj h).symm
  · rename_i old hold
    split at h
    · exact .inr (Option.some.inj h).symm
    · exact .inl (hold.trans h)

theorem mem_upsertBackfilledBatch {block : BlockHash} {daa next : Nat}
    {rows : List CanonicalBatchRow} {row : CanonicalBatchRow}
    (h : row ∈ upsertBackfilledBatch block daa next rows) :
    row ∈ rows ∨ (∃ old ∈ rows, row = widenBatch next old) ∨
      row = ⟨block, daa, some next, some next⟩ := by
  unfold upsertBackfilledBatch at h
  split at h
  · obtain ⟨old, hold, rfl⟩ := List.mem_map.mp h
    split
    · exact .inr (.inl ⟨old, hold, rfl⟩)
    · exact .inl hold
  · rcases List.mem_append.mp h with h | h
    · exact .inl h
    · exact .inr (.inr (List.mem_singleton.mp h))

/-- Every batch survives an upsert, with at least the bounds it had. -/
theorem upsertBackfilledBatch_of_mem {block : BlockHash} {daa next : Nat}
    {rows : List CanonicalBatchRow} {row : CanonicalBatchRow} (h : row ∈ rows) :
    ∃ row' ∈ upsertBackfilledBatch block daa next rows,
      row'.acceptingBlock = row.acceptingBlock ∧ ∀ n, row.Covers n → row'.Covers n := by
  unfold upsertBackfilledBatch
  split
  · by_cases hb : row.acceptingBlock = block
    · exact ⟨widenBatch next row, List.mem_map.mpr ⟨row, h, if_pos hb⟩, rfl,
        fun n hn ↦ hn.widenBatch next⟩
    · exact ⟨row, List.mem_map.mpr ⟨row, h, if_neg hb⟩, rfl, fun _ hn ↦ hn⟩
  · exact ⟨row, List.mem_append_left _ h, rfl, fun _ hn ↦ hn⟩

theorem upsertBackfilledBatch_covers (block : BlockHash) (daa next : Nat)
    (rows : List CanonicalBatchRow) :
    ∃ row ∈ upsertBackfilledBatch block daa next rows,
      row.acceptingBlock = block ∧ row.Covers next := by
  unfold upsertBackfilledBatch
  split
  · rename_i hany
    obtain ⟨row, hrow, hblock⟩ := List.any_eq_true.mp hany
    have hblock : row.acceptingBlock = block := by simpa using hblock
    exact ⟨widenBatch next row, List.mem_map.mpr ⟨row, hrow, if_pos hblock⟩, hblock,
      widenBatch_covers next row⟩
  · exact ⟨_, List.mem_append_right _ (List.mem_singleton.mpr rfl), rfl, next, next, rfl, rfl,
      le_refl _, le_refl _⟩

theorem upsertBackfilledBatch_nodup {block : BlockHash} {daa next : Nat}
    {rows : List CanonicalBatchRow} (h : (rows.map (·.acceptingBlock)).Nodup) :
    ((upsertBackfilledBatch block daa next rows).map (·.acceptingBlock)).Nodup := by
  unfold upsertBackfilledBatch
  split
  · rw [List.map_map]
    refine (List.map_congr_left fun row _ ↦ ?_) ▸ h
    simp only [Function.comp_apply]
    split <;> rfl
  · rename_i hany
    rw [List.map_append, List.nodup_append]
    refine ⟨h, by simp, ?_⟩
    intro a ha b hb heq
    obtain ⟨row, hrow, rfl⟩ := List.mem_map.mp ha
    have hb : b = block := List.mem_singleton.mp hb
    exact hany (List.any_eq_true.mpr ⟨row, hrow, by simpa using heq.trans hb⟩)

theorem LogInvariant.backfilledRow {s : Store} {next : Nat} {row : EventRow}
    (h : LogInvariant s next) (hmem : row ∈ s.covenantEvents)
    (hnone : row.deliveryStreamSeq = none) :
    LogInvariant (backfilledRow s next row) (next + 1) := by
  let record := backfillRecord s.streamEpoch next row
  have hnotRemoved : ∀ r ∈ [record], r.kind ≠ .removed := by simp [record, backfillRecord]
  have hlive : liveAccepted (s.deliveryLog ++ [record]) = liveAccepted s.deliveryLog ++ [record] :=
    liveAccepted_append h (by simp [record, backfillRecord]) (by simp [record, backfillRecord])
  have hlog : ∀ r ∈ s.deliveryLog ++ [record], r ∈ s.deliveryLog ∨ r = record := by simp
  refine
    { pos := by omega
      seqs := ?_
      epochs := ?_
      sources := ?_
      once := ?_
      announced := ?_
      keys := by
        change ((stampEvent next row s.covenantEvents).map _).Nodup
        rw [stampEvent_keys]
        exact h.keys
      batches := upsertBackfilledBatch_nodup h.batches
      covered := ?_
      retired := ?_ }
  · change (s.deliveryLog ++ [record]).map (·.cursor.seq) = _
    rw [List.map_append, h.seqs, ← h.seqs_concat]
    rfl
  · intro r hr
    rcases hlog r hr with hr | rfl
    · exact h.epochs r hr
    · rfl
  · intro r hr hk
    rcases hlog r hr with hr | rfl
    · obtain ⟨a, ha, hrest⟩ := h.sources r hr hk
      exact ⟨a, List.mem_append_left _ ha, hrest⟩
    · cases hk
  · change (((s.deliveryLog ++ [record]).filter _).map _).Nodup
    rw [filter_removed_append hnotRemoved]
    exact h.once
  · change (liveAccepted (s.deliveryLog ++ [record])).map _ ~
      stampedKeys (stampEvent next row s.covenantEvents)
    rw [hlive, List.map_append]
    refine ((h.announced.append_right _).trans ?_).trans
      (stampedKeys_stampEvent h.keys hmem hnone).symm
    exact perm_append_singleton _ _
  · intro e he n hn
    rcases mem_stampEvent h.keys hmem he with he | rfl
    · obtain ⟨batch, hbatch, hblock, hcovers⟩ := h.covered e he n hn
      obtain ⟨batch', hbatch', hblock', hcovers'⟩ := upsertBackfilledBatch_of_mem hbatch
      exact ⟨batch', hbatch', hblock'.trans hblock, hcovers' n hcovers⟩
    · obtain ⟨batch, hbatch, hblock, hcovers⟩ := upsertBackfilledBatch_covers
        row.acceptingBlock row.acceptingDaa next s.canonicalBatches
      exact ⟨batch, hbatch, hblock, Option.some.inj hn ▸ hcovers⟩
  · intro a ha hk hc batch hbatch hblock first hfirst
    change isCancelled (s.deliveryLog ++ [record]) a.cursor = true at hc
    rw [isCancelled_append hnotRemoved] at hc
    have hlt := h.cancelled_lt hc
    have ha' : a ∈ s.deliveryLog := by
      rcases hlog a ha with ha | rfl
      · exact ha
      · simp [record, backfillRecord] at hlt
    rcases mem_upsertBackfilledBatch hbatch with hbatch | ⟨old, hold, rfl⟩ | rfl
    · exact h.retired a ha' hk hc batch hbatch hblock first hfirst
    · rcases widenBatch_first hfirst with hfirst | rfl
      · exact h.retired a ha' hk hc old hold hblock first hfirst
      · exact hlt
    · rw [← Option.some.inj hfirst]
      exact hlt

theorem LogInvariant.backfill {s s' : Store} {batchSize : Nat}
    {p : DeliveryMigrationProgress} (h : LogInvariant s s.nextStreamSeq)
    (hok : backfillDeliveryBatch s batchSize = .ok (s', p)) :
    LogInvariant s' s'.nextStreamSeq := by
  rcases backfillDeliveryBatch_ok hok with rfl | ⟨s₁, next, _, _, _, hfold, rfl⟩
  · exact h
  · -- the rows still to come are unstamped events of the store, each once
    let P : List EventRow → Store × Nat → Prop := fun rows acc ↦
      LogInvariant acc.1 acc.2 ∧ (rows.map (·.key)).Nodup ∧
        ∀ row ∈ rows, row ∈ acc.1.covenantEvents ∧ row.deliveryStreamSeq = none
    have hstart : P (backfillRows s (clamp batchSize 1 10000)) (s, s.nextStreamSeq) := by
      refine ⟨h, ?_, fun row hrow ↦ mem_backfillRows hrow⟩
      refine List.Nodup.map_on ?_ (backfillRows_nodup _ (h.keys.of_map _))
      intro a ha b hb heq
      exact List.inj_on_of_nodup_map h.keys (mem_backfillRows ha).1 (mem_backfillRows hb).1 heq
    have hend : P [] (s₁, next) := by
      refine Fallible.foldlM_invariant_rest P ?_ hstart hfold
      intro row rows acc acc' hP hstep
      obtain ⟨hinv, hnodup, hrows⟩ := hP
      rw [List.map_cons, List.nodup_cons] at hnodup
      obtain ⟨hmem, hnone⟩ := hrows row List.mem_cons_self
      rw [backfillRow_ok hstep]
      refine ⟨hinv.backfilledRow hmem hnone, hnodup.2, fun other hother ↦ ?_⟩
      obtain ⟨hmem', hnone'⟩ := hrows other (List.mem_cons_of_mem _ hother)
      refine ⟨mem_stampEvent_of_ne hmem' fun heq ↦ hnodup.1 ?_, hnone'⟩
      exact heq ▸ List.mem_map_of_mem hother
    exact hend.1.congr rfl rfl rfl rfl

/-! ## Repair -/

/-- A record that is neither accepted nor a removal changes nothing the
invariant speaks of but the counter. -/
theorem LogInvariant.repairedOutput {s : Store} {next : Nat} (h : LogInvariant s next)
    (txid : TxId) (output : ApplicationOutput) (stored : UtxoRow) (event : EventRow) :
    LogInvariant (repairedOutput s next txid output stored event) (next + 1) := by
  let record := repairRecord s.streamEpoch next txid output event
  have hnotRemoved : ∀ r ∈ [record], r.kind ≠ .removed := by simp [record, repairRecord]
  have hlog : ∀ r ∈ s.deliveryLog ++ [record], r ∈ s.deliveryLog ∨ r = record := by simp
  have hlive : liveAccepted (s.deliveryLog ++ [record]) = liveAccepted s.deliveryLog := by
    unfold liveAccepted
    rw [live_append acceptedReading (by simp [acceptedReading, record, repairRecord])
      (by simp [acceptedReading, record, repairRecord])]
    simp [acceptedReading, record, repairRecord]
  refine
    { pos := by omega
      seqs := ?_
      epochs := ?_
      sources := ?_
      once := ?_
      announced := ?_
      keys := h.keys
      batches := h.batches
      covered := h.covered
      retired := ?_ }
  · change (s.deliveryLog ++ [record]).map (·.cursor.seq) = _
    rw [List.map_append, h.seqs, ← h.seqs_concat]
    rfl
  · intro r hr
    rcases hlog r hr with hr | rfl
    · exact h.epochs r hr
    · rfl
  · intro r hr hk
    rcases hlog r hr with hr | rfl
    · obtain ⟨a, ha, hrest⟩ := h.sources r hr hk
      exact ⟨a, List.mem_append_left _ ha, hrest⟩
    · cases hk
  · change (((s.deliveryLog ++ [record]).filter _).map _).Nodup
    rw [filter_removed_append hnotRemoved]
    exact h.once
  · change (liveAccepted (s.deliveryLog ++ [record])).map _ ~ _
    rw [hlive]
    exact h.announced
  · intro a ha hk hc
    change isCancelled (s.deliveryLog ++ [record]) a.cursor = true at hc
    rw [isCancelled_append hnotRemoved] at hc
    rcases hlog a ha with ha | rfl
    · exact h.retired a ha hk hc
    · cases hk

theorem LogInvariant.repair {s s' : Store} {decoder : ApplicationDecoder} {limit : Nat}
    {result : ApplicationRepairResult} (h : LogInvariant s s.nextStreamSeq)
    (hok : repairApplicationFailures s decoder limit = .ok (s', result)) :
    LogInvariant s' s'.nextStreamSeq := by
  obtain ⟨s₁, next, hinv, rfl⟩ := repair_invariant LogInvariant
    (fun s next transaction output stored event hs _ _ ↦
      hs.repairedOutput transaction.txid output stored event)
    (fun s next failures envelopes hs ↦ hs.congr rfl rfl rfl rfl) h hok
  exact hinv.congr rfl rfl rfl rfl

end Kascov
