import Kascov.Feed.PendingAgree
import Kascov.Feed.Poll

/-!
# The law of the pending feed

What holds of the feed after every section that changes it: its order lists the tracked
transactions, there are at most as many as it may hold, the events of each are numbered in
the order of their covenants, and a change of its rows shows in its revision.  Tracking
again what is tracked keeps the numbers only where the new events extend the old ones.
-/

namespace Kascov

/-! ## Events in their order -/

/-- The events in the order of their covenants, each numbered by its place. -/
structure InOrder (events : List PendingEvent) : Prop where
  sorted : events.Pairwise fun a b ↦ a.covenantId ≤ b.covenantId
  distinct : (events.map (·.covenantId)).Nodup
  places : events.map (·.ordinal) = List.range events.length

theorem InOrder.singleton {event : PendingEvent} (h : event.ordinal = 0) : InOrder [event] where
  sorted := List.pairwise_singleton _ _
  distinct := List.nodup_singleton _
  places := congrArg (fun n ↦ [n]) h

/-- The next event comes after all others. -/
theorem InOrder.append {events : List PendingEvent} (h : InOrder events) {event : PendingEvent}
    (hlast : ∀ e ∈ events, e.covenantId ≤ event.covenantId)
    (hnew : event.covenantId ∉ events.map (·.covenantId))
    (hplace : event.ordinal = events.length) : InOrder (events ++ [event]) where
  sorted := List.pairwise_append.mpr ⟨h.sorted, List.pairwise_singleton _ _, fun e he _ hx ↦
    List.mem_singleton.mp hx ▸ hlast e he⟩
  distinct := by
    rw [List.map_append, List.map_singleton]
    exact h.distinct.append (List.nodup_singleton _) (List.disjoint_singleton.mpr hnew)
  places := by
    rw [List.map_append, h.places, List.map_singleton, hplace, List.length_append,
      List.length_singleton, List.range_succ]

/-- What one turn of `insert_at` makes of the events of a tracked transaction. -/
def putNewEvent (events : List PendingEvent) (event : PendingEvent) : List PendingEvent :=
  if events.any fun e ↦ e.covenantId = event.covenantId ∧ e.kind = event.kind then events
  else putEvent events event

/-- An event whose covenant is there changes at most the kind of that one. -/
theorem putNewEvent_held {events : List PendingEvent} (h : InOrder events) {event : PendingEvent}
    (hheld : event.covenantId ∈ events.map (·.covenantId)) :
    InOrder (putNewEvent events event) ∧
      (putNewEvent events event).map (·.covenantId) = events.map (·.covenantId) := by
  rw [putNewEvent]
  split
  · exact ⟨h, rfl⟩
  · have hany : events.any (·.covenantId = event.covenantId) = true := by
      obtain ⟨e, he, hid⟩ := List.mem_map.mp hheld
      exact List.any_eq_true.mpr ⟨e, he, decide_eq_true hid⟩
    let update (e : PendingEvent) : PendingEvent :=
      if e.covenantId = event.covenantId then { e with kind := event.kind } else e
    have hid (e : PendingEvent) : (update e).covenantId = e.covenantId := by
      dsimp only [update]
      split <;> rfl
    have hordinal (e : PendingEvent) : (update e).ordinal = e.ordinal := by
      dsimp only [update]
      split <;> rfl
    have hsorted : (events.map update).Pairwise fun a b ↦ a.covenantId ≤ b.covenantId := by
      rw [List.pairwise_map]
      simpa only [hid] using h.sorted
    have hput : putEvent events event = events.map update := by
      rw [putEvent, if_pos hany]
      exact hsorted.insertionSort_eq
    have hids : (events.map update).map (·.covenantId) = events.map (·.covenantId) := by
      rw [List.map_map]
      exact List.map_congr_left fun e _ ↦ hid e
    rw [hput]
    refine ⟨⟨hsorted, hids ▸ h.distinct, ?_⟩, hids⟩
    rw [List.map_map, List.length_map, ← h.places]
    exact List.map_congr_left fun e _ ↦ hordinal e

/-- An event that comes after all others is put at the end. -/
theorem putNewEvent_next {events : List PendingEvent} (h : InOrder events) {event : PendingEvent}
    (hlast : ∀ e ∈ events, e.covenantId ≤ event.covenantId)
    (hnew : event.covenantId ∉ events.map (·.covenantId))
    (hplace : event.ordinal = events.length) :
    putNewEvent events event = events ++ [event] := by
  have hnone : events.any (·.covenantId = event.covenantId) = false := by
    rw [List.any_eq_false]
    intro e he heq
    exact hnew (List.mem_map.mpr ⟨e, he, of_decide_eq_true heq⟩)
  have hnot : (events.any fun e ↦ e.covenantId = event.covenantId ∧ e.kind = event.kind) =
      false := by
    rw [List.any_eq_false] at hnone ⊢
    exact fun e he heq ↦ hnone e he (decide_eq_true (of_decide_eq_true heq).1)
  rw [putNewEvent, hnot, if_neg Bool.false_ne_true, putEvent, hnone, if_neg Bool.false_ne_true]
  exact (h.append hlast hnew hplace).sorted.insertionSort_eq

/-- What one turn after the other makes of the events. -/
def mergeEvents (events more : List PendingEvent) : List PendingEvent :=
  more.foldl putNewEvent events

theorem mergeEvents_held {events more : List PendingEvent} (h : InOrder events)
    (hheld : ∀ e ∈ more, e.covenantId ∈ events.map (·.covenantId)) :
    InOrder (mergeEvents events more) ∧
      (mergeEvents events more).map (·.covenantId) = events.map (·.covenantId) := by
  induction more generalizing events with
  | nil => exact ⟨h, rfl⟩
  | cons event more ih =>
      obtain ⟨hfirst, hevents⟩ := List.forall_mem_cons.mp hheld
      obtain ⟨h', hids⟩ := putNewEvent_held h hfirst
      obtain ⟨hall, hids'⟩ := ih h' (hids ▸ hevents)
      exact ⟨hall, hids'.trans hids⟩

theorem InOrder.left {events more : List PendingEvent} (h : InOrder (events ++ more)) :
    InOrder events where
  sorted := (List.pairwise_append.mp h.sorted).1
  distinct := (List.map_append ▸ h.distinct).of_append_left
  places := by
    have hplaces := h.places
    rw [List.map_append, List.length_append, List.range_add] at hplaces
    exact List.append_inj_left hplaces (by rw [List.length_map, List.length_range])

/-- An order is one of covenants and places. -/
theorem InOrder.congr {events events' : List PendingEvent} (h : InOrder events)
    (hids : events'.map (·.covenantId) = events.map (·.covenantId))
    (hplaces : events'.map (·.ordinal) = events.map (·.ordinal)) : InOrder events' where
  sorted := by
    have hsorted := List.pairwise_map.mpr h.sorted
    rw [← hids] at hsorted
    exact List.pairwise_map.mp hsorted
  distinct := hids ▸ h.distinct
  places := by
    have hlen := congrArg List.length hids
    rw [List.length_map, List.length_map] at hlen
    rw [hplaces, h.places, hlen]

/-- Events that continue the order are put at the end. -/
theorem mergeEvents_next {events more : List PendingEvent} (h : InOrder (events ++ more)) :
    mergeEvents events more = events ++ more := by
  induction more generalizing events with
  | nil => exact (List.append_nil _).symm
  | cons event more ih =>
      rw [List.append_cons] at h
      have hfront := h.left
      obtain ⟨-, -, hlast⟩ := List.pairwise_append.mp hfront.sorted
      have hnew : event.covenantId ∉ events.map (·.covenantId) := by
        have hdistinct := hfront.distinct
        rw [List.map_append, List.nodup_append'] at hdistinct
        exact fun hmem ↦ hdistinct.2.2 hmem List.mem_cons_self
      have hplace : event.ordinal = events.length := by
        have hplaces := hfront.places
        rw [List.map_append, List.length_append, List.length_singleton, List.range_succ] at hplaces
        exact List.cons.inj (List.append_inj_right' hplaces rfl) |>.1
      rw [mergeEvents, List.foldl_cons, putNewEvent_next hfront.left
        (fun e he ↦ hlast e he event (List.mem_singleton_self _)) hnew hplace]
      exact (ih h).trans (List.append_cons ..).symm

theorem ordinalEvents_ids (events : List PendingTxEvent) :
    (ordinalEvents events).map (·.covenantId) =
      (events.map (·.covenantId)).insertionSort (· ≤ ·) := by
  rw [ordinalEvents, List.map_map, ← List.map_insertionSort (fun a b ↦ a.covenantId ≤ b.covenantId)
    (· ≤ ·) (·.covenantId) events fun _ _ _ _ ↦ Iff.rfl]
  conv_rhs => rw [← List.zipIdx_map_fst 0 (List.insertionSort _ events), List.map_map]
  rfl

theorem ordinalEvents_inOrder {events : List PendingTxEvent}
    (h : (events.map (·.covenantId)).Nodup) : InOrder (ordinalEvents events) where
  sorted := by
    have hsorted := List.pairwise_insertionSort (· ≤ ·) (events.map (·.covenantId))
    rw [← ordinalEvents_ids] at hsorted
    exact List.pairwise_map.mp hsorted
  distinct := by
    rw [ordinalEvents_ids]
    exact (List.perm_insertionSort _ _).nodup_iff.mpr h
  places := by
    rw [ordinalEvents, List.map_map, List.length_map, List.length_zipIdx]
    exact (List.zipIdx_map_snd 0 _).trans (List.range_eq_range' ..).symm

/-- The covenants found again extend those held: there is none beside them, or all are
there again and the others come after them. -/
def ExtendsIds (events : List PendingEvent) (ids : List CovenantId) : Prop :=
  (∀ id ∈ ids, id ∈ events.map (·.covenantId)) ∨
    (∀ e ∈ events, e.covenantId ∈ ids) ∧
      ∀ id ∈ ids, id ∉ events.map (·.covenantId) → ∀ e ∈ events, e.covenantId ≤ id

instance (events : List PendingEvent) (ids : List CovenantId) : Decidable (ExtendsIds events ids) :=
  inferInstanceAs (Decidable (_ ∨ _ ∧ _))

/-- Covenants that extend those held, in their order, are those held and then the others. -/
theorem sorted_eq_append {held ids : List CovenantId} (hheld : held.Pairwise (· ≤ ·))
    (hnodup : held.Nodup) (hids : ids.Nodup) (hsub : ∀ id ∈ held, id ∈ ids)
    (hafter : ∀ id ∈ ids, id ∉ held → ∀ old ∈ held, old ≤ id) :
    ids.insertionSort (· ≤ ·) =
      held ++ (ids.filter (· ∉ held)).insertionSort (· ≤ ·) := by
  have hmem (id : CovenantId) : id ∈ (ids.filter (· ∉ held)).insertionSort (· ≤ ·) ↔
      id ∈ ids ∧ id ∉ held := by
    rw [List.mem_insertionSort, List.mem_filter, decide_eq_true_iff]
  have hsorted : (held ++ (ids.filter (· ∉ held)).insertionSort (· ≤ ·)).Pairwise (· ≤ ·) :=
    List.pairwise_append.mpr ⟨hheld, List.pairwise_insertionSort _ _, fun old hold id hid ↦
      hafter id ((hmem id).mp hid).1 ((hmem id).mp hid).2 old hold⟩
  have hperm : (ids.insertionSort (· ≤ ·)).Perm
      (held ++ (ids.filter (· ∉ held)).insertionSort (· ≤ ·)) := by
    refine (List.perm_ext_iff_of_nodup ?_ ?_).mpr fun id ↦ ?_
    · exact (List.perm_insertionSort _ _).nodup_iff.mpr hids
    · refine hnodup.append ((List.perm_insertionSort _ _).nodup_iff.mpr (hids.filter _)) ?_
      exact fun id hid hid' ↦ ((hmem id).mp hid').2 hid
    · rw [List.mem_insertionSort, List.mem_append, hmem]
      by_cases hid : id ∈ held
      · exact iff_of_true (hsub id hid) (.inl hid)
      · exact ⟨fun h ↦ .inr ⟨h, hid⟩, fun h ↦ (h.resolve_left hid).1⟩
  exact hperm.eq_of_pairwise (fun _ _ _ _ ↦ covenantId_antisymm)
    (List.pairwise_insertionSort _ _) hsorted

/-- Covenants that extend those held keep the events in order. -/
theorem mergeEvents_inOrder {events : List PendingEvent} (h : InOrder events)
    {more : List PendingTxEvent} (hmore : (more.map (·.covenantId)).Nodup)
    (hextends : ExtendsIds events (more.map (·.covenantId))) :
    InOrder (mergeEvents events (ordinalEvents more)) := by
  have hmem (id : CovenantId) : id ∈ (ordinalEvents more).map (·.covenantId) ↔
      id ∈ more.map (·.covenantId) := by
    rw [ordinalEvents_ids, List.mem_insertionSort]
  rcases hextends with hheld | ⟨hsub, hafter⟩
  · refine (mergeEvents_held h fun e he ↦ hheld _ ?_).1
    exact (hmem _).mp (List.mem_map_of_mem he)
  · have hids := sorted_eq_append (List.pairwise_map.mpr h.sorted) h.distinct hmore
      (fun id hid ↦ by obtain ⟨e, he, rfl⟩ := List.mem_map.mp hid; exact hsub e he)
      fun id hid hnot old hold ↦ by
        obtain ⟨e, he, rfl⟩ := List.mem_map.mp hold
        exact hafter id hid hnot e he
    rw [← ordinalEvents_ids] at hids
    obtain ⟨front, back, heq, hfront, -⟩ := List.map_eq_append_iff.mp hids
    have hall := ordinalEvents_inOrder hmore
    rw [heq] at hall ⊢
    obtain ⟨hmerged, hmergedIds⟩ := mergeEvents_held h fun e he ↦
      hfront ▸ List.mem_map_of_mem (f := (·.covenantId)) he
    have hlen : (mergeEvents events front).length = front.length := by
      have hlen := congrArg List.length (hmergedIds.trans hfront.symm)
      rwa [List.length_map, List.length_map] at hlen
    have hcontinued : InOrder (mergeEvents events front ++ back) := by
      refine hall.congr ?_ ?_
      · rw [List.map_append, List.map_append, hmergedIds, hfront]
      · rw [List.map_append, List.map_append, hmerged.places, hall.left.places, hlen]
    rw [mergeEvents, List.foldl_append, ← mergeEvents, ← mergeEvents,
      mergeEvents_next hcontinued]
    exact hcontinued

/-! ## What a section does to the revision -/

/-- A feed as it was, or after at most so many changes. -/
def Moves (n : Nat) (feed out : PendingFeed) : Prop :=
  out = feed ∨ ∃ k, 0 < k ∧ k ≤ n ∧ out.revision = (feed.revision + k) % 2 ^ 64

namespace Moves

variable {m n : Nat} {feed mid out : PendingFeed}

theorem refl (n : Nat) (feed : PendingFeed) : Moves n feed feed := .inl rfl

theorem one (h : out.revision = (feed.revision + 1) % 2 ^ 64) : Moves 1 feed out :=
  .inr ⟨1, Nat.one_pos, Nat.le_refl 1, h⟩

theorem trans (h : Moves m feed mid) (h' : Moves n mid out) : Moves (m + n) feed out := by
  rcases h with rfl | ⟨k, hk, hkm, hmid⟩
  · rcases h' with rfl | ⟨k, hk, hkn, hout⟩
    · exact .inl rfl
    · exact .inr ⟨k, hk, Nat.le_add_left_of_le hkn, hout⟩
  · refine .inr ?_
    rcases h' with rfl | ⟨k', -, hkn, hout⟩
    · exact ⟨k, hk, Nat.le_add_right_of_le hkm, hmid⟩
    · refine ⟨k + k', Nat.add_pos_left hk k', Nat.add_le_add hkm hkn, ?_⟩
      rw [hout, hmid, Nat.mod_add_mod, Nat.add_assoc]

/-- A feed that is not as it was has a later revision, unless the counter wraps. -/
theorem lt (h : Moves n feed out) (hne : out ≠ feed) (hroom : feed.revision + n < 2 ^ 64) :
    feed.revision < out.revision := by
  rcases h with heq | ⟨k, hk, hkn, hout⟩
  · exact absurd heq hne
  · rw [hout, Nat.mod_eq_of_lt (by omega)]
    omega

end Moves

/-! ## The law of the feed -/

/-- The order lists the tracked transactions, and there is room for them. -/
structure Listed (feed : PendingFeed) : Prop where
  order_nodup : feed.order.Nodup
  mem_order : ∀ txid, txid ∈ feed.order ↔ txid ∈ feed.entries
  bounded : feed.entries.keys.length ≤ maxPending

structure PendingFeedLaw (feed : PendingFeed) : Prop extends Listed feed where
  inOrder : ∀ txid entry, feed.entries.lookup txid = some entry → InOrder entry.events

section Law

variable {feed out : PendingFeed}

/-- The rows of another feed, and its revision or not. -/
theorem Listed.congr (h : Listed feed) (hentries : out.entries = feed.entries)
    (horder : out.order = feed.order) : Listed out where
  order_nodup := horder ▸ h.order_nodup
  mem_order txid := by rw [horder, hentries, h.mem_order]
  bounded := hentries ▸ h.bounded

theorem PendingFeedLaw.congr (h : PendingFeedLaw feed) (hentries : out.entries = feed.entries)
    (horder : out.order = feed.order) : PendingFeedLaw out where
  toListed := h.toListed.congr hentries horder
  inOrder txid entry hentry := h.inOrder txid entry (hentries ▸ hentry)

theorem PendingFeedLaw.empty (revision : Nat) : PendingFeedLaw { revision } where
  order_nodup := List.nodup_nil
  mem_order txid := iff_of_false List.not_mem_nil (AList.notMem_empty txid)
  bounded := Nat.zero_le _
  inOrder _ _ h := absurd h (by simp)

theorem lookup_remove_ne (feed : PendingFeed) {txid t : TxId} (h : t ≠ txid) :
    (feed.remove txid).1.entries.lookup t = feed.entries.lookup t := by
  rw [PendingFeed.remove]
  split
  · exact AList.lookup_erase_ne h
  · rfl

theorem Listed.remove (h : Listed feed) (txid : TxId) : Listed (feed.remove txid).1 := by
  rw [PendingFeed.remove]
  split
  · constructor
    · exact h.order_nodup.filter _
    · intro t
      change t ∈ feed.order.filter (· ≠ txid) ↔ t ∈ feed.entries.erase txid
      rw [List.mem_filter, decide_eq_true_iff, AList.mem_erase, h.mem_order, and_comm]
    · refine Nat.le_trans ?_ h.bounded
      change (feed.entries.erase txid).keys.length ≤ _
      rw [AList.keys_erase]
      exact List.length_erase_le
  · exact h

theorem PendingFeedLaw.remove (h : PendingFeedLaw feed) (txid : TxId) :
    PendingFeedLaw (feed.remove txid).1 where
  toListed := h.toListed.remove txid
  inOrder t entry hentry := by
    by_cases ht : t = txid
    · subst ht
      rw [PendingFeed.remove] at hentry
      split at hentry
      · change (feed.entries.erase t).lookup t = some entry at hentry
        rw [AList.lookup_erase] at hentry
        cases hentry
      · exact h.inOrder t entry hentry
    · rw [lookup_remove_ne feed ht] at hentry
      exact h.inOrder t entry hentry

end Law

theorem remove_moves (feed : PendingFeed) (txid : TxId) : Moves 1 feed (feed.remove txid).1 := by
  rw [PendingFeed.remove]
  split
  · exact .one rfl
  · exact .refl 1 feed

/-! ## Tracking -/

/-- A feed in which the events of one tracked transaction are others. -/
structure Rewritten (feed out : PendingFeed) (txid : TxId) (events : List PendingEvent) :
    Prop where
  order : out.order = feed.order
  keys : ∀ t, t ∈ out.entries ↔ t ∈ feed.entries
  size : out.entries.keys.length = feed.entries.keys.length
  others : ∀ t, t ≠ txid → out.entries.lookup t = feed.entries.lookup t
  entry : ∃ entry, out.entries.lookup txid = some entry ∧ entry.events = events

/-- A feed with one more transaction. -/
structure Extended (feed out : PendingFeed) (txid : TxId) (events : List PendingEvent) :
    Prop where
  order : out.order = feed.order ++ [txid]
  keys : ∀ t, t ∈ out.entries ↔ t = txid ∨ t ∈ feed.entries
  size : out.entries.keys.length = feed.entries.keys.length + 1
  others : ∀ t, t ≠ txid → out.entries.lookup t = feed.entries.lookup t
  entry : ∃ entry, out.entries.lookup txid = some entry ∧ entry.events = events

section Tracking

variable {feed mid out : PendingFeed} {txid : TxId} {events events' : List PendingEvent}

theorem Rewritten.trans (h : Rewritten feed mid txid events)
    (h' : Rewritten mid out txid events') : Rewritten feed out txid events' where
  order := h'.order.trans h.order
  keys t := (h'.keys t).trans (h.keys t)
  size := h'.size.trans h.size
  others t ht := (h'.others t ht).trans (h.others t ht)
  entry := h'.entry

theorem Extended.trans (h : Extended feed mid txid events)
    (h' : Rewritten mid out txid events') : Extended feed out txid events' where
  order := h'.order.trans h.order
  keys t := (h'.keys t).trans (h.keys t)
  size := h'.size.trans h.size
  others t ht := (h'.others t ht).trans (h.others t ht)
  entry := h'.entry

theorem Listed.rewritten (h : Listed feed) (hout : Rewritten feed out txid events) :
    Listed out where
  order_nodup := hout.order ▸ h.order_nodup
  mem_order t := by rw [hout.order, hout.keys, h.mem_order]
  bounded := hout.size ▸ h.bounded

theorem Listed.extended (h : Listed feed) (hout : Extended feed out txid events)
    (hnew : txid ∉ feed.entries) (hroom : feed.entries.keys.length < maxPending) :
    Listed out where
  order_nodup := by
    rw [hout.order]
    refine h.order_nodup.append (List.nodup_singleton _) (List.disjoint_singleton.mpr ?_)
    exact fun hmem ↦ hnew ((h.mem_order txid).mp hmem)
  mem_order t := by
    rw [hout.order, hout.keys, List.mem_append, List.mem_singleton, h.mem_order, or_comm]
  bounded := hout.size ▸ hroom

/-- The entries are as they were, apart from one whose events are in order. -/
theorem inOrder_of_others
    (h : ∀ t entry, feed.entries.lookup t = some entry → InOrder entry.events)
    (others : ∀ t, t ≠ txid → out.entries.lookup t = feed.entries.lookup t)
    (hentry : ∃ entry, out.entries.lookup txid = some entry ∧ entry.events = events)
    (hevents : InOrder events) (t : TxId) (entry : PendingEntry)
    (ht : out.entries.lookup t = some entry) : InOrder entry.events := by
  by_cases heq : t = txid
  · obtain ⟨entry', hentry', rfl⟩ := hentry
    rw [heq, hentry'] at ht
    exact Option.some.inj ht ▸ hevents
  · exact h t entry ((others t heq).symm.trans ht)

variable {tx : Transaction} (application : ApplicationPreprocess) (atMs : Nat)

theorem insertAt_moves (feed : PendingFeed) (event : PendingEvent) :
    Moves 1 feed (feed.insertAt tx event application atMs).1 := by
  rw [PendingFeed.insertAt]
  split
  · split
    · exact .refl 1 feed
    · exact .one rfl
  · split
    · exact .refl 1 feed
    · exact .one rfl

/-- `insert_at` on a tracked transaction. -/
theorem insertAt_rewritten {entry : PendingEntry}
    (hentry : feed.entries.lookup tx.txid = some entry) (event : PendingEvent) :
    Rewritten feed (feed.insertAt tx event application atMs).1 tx.txid
      (putNewEvent entry.events event) := by
  have hmem : tx.txid ∈ feed.entries := AList.lookup_isSome.mp (by rw [hentry]; rfl)
  rw [PendingFeed.insertAt, hentry]
  dsimp only
  rw [putNewEvent]
  split
  · exact ⟨rfl, fun _ ↦ Iff.rfl, rfl, fun _ _ ↦ rfl, entry, hentry, rfl⟩
  · refine ⟨rfl, fun t ↦ ?_, ?_, fun t ht ↦ AList.lookup_insert_ne ht, _, AList.lookup_insert _,
      rfl⟩
    · rw [AList.mem_insert]
      exact or_iff_right_of_imp fun ht ↦ ht ▸ hmem
    · have hlen := List.length_erase_of_mem (AList.mem_keys.mp hmem)
      have hpos := List.length_pos_of_mem (AList.mem_keys.mp hmem)
      rw [AList.keys_insert, List.length_cons, hlen]
      exact Nat.sub_add_cancel hpos

/-- `insert_at` on a transaction that is not tracked. -/
theorem insertAt_extended (hnew : tx.txid ∉ feed.entries)
    (hroom : feed.entries.keys.length < maxPending) (event : PendingEvent) :
    Extended feed (feed.insertAt tx event application atMs).1 tx.txid [event] := by
  rw [PendingFeed.insertAt, AList.lookup_eq_none.mpr hnew]
  dsimp only
  rw [if_neg (Nat.not_le.mpr hroom)]
  refine ⟨rfl, fun t ↦ AList.mem_insert _, ?_, fun t ht ↦ AList.lookup_insert_ne ht, _,
    AList.lookup_insert _, rfl⟩
  rw [AList.keys_insert, List.length_cons, List.erase_of_not_mem (AList.mem_keys.not.mp hnew)]

/-- The loop of `track_pending_transaction_at`. -/
def insertEvents (feed : PendingFeed) (tx : Transaction) (application : ApplicationPreprocess)
    (atMs : Nat) (events : List PendingEvent) (r : PendingInsert) : PendingFeed × PendingInsert :=
  events.foldl (fun acc event ↦
    let out := acc.1.insertAt tx event application atMs
    (out.1, if out.2 = .added then .added else acc.2)) (feed, r)

theorem insertEvents_moves (feed : PendingFeed) (events : List PendingEvent) (r : PendingInsert) :
    Moves events.length feed (insertEvents feed tx application atMs events r).1 := by
  induction events generalizing feed r with
  | nil => exact .refl 0 feed
  | cons event events ih =>
      rw [List.length_cons, Nat.add_comm]
      exact (insertAt_moves application atMs feed event).trans (ih _ _)

theorem insertEvents_rewritten {entry : PendingEntry}
    (hentry : feed.entries.lookup tx.txid = some entry) (events : List PendingEvent)
    (r : PendingInsert) :
    Rewritten feed (insertEvents feed tx application atMs events r).1 tx.txid
      (mergeEvents entry.events events) := by
  induction events generalizing feed entry r with
  | nil => exact ⟨rfl, fun _ ↦ Iff.rfl, rfl, fun _ _ ↦ rfl, entry, hentry, rfl⟩
  | cons event events ih =>
      have hfirst := insertAt_rewritten application atMs hentry event
      obtain ⟨entry', hentry', hevents⟩ := hfirst.entry
      have hrest := ih hentry' (if (feed.insertAt tx event application atMs).2 = .added then .added
        else r)
      rw [hevents] at hrest
      exact hfirst.trans hrest

theorem insertEvents_extended (hnew : tx.txid ∉ feed.entries)
    (hroom : feed.entries.keys.length < maxPending) {events : List PendingEvent}
    (hne : events ≠ []) (r : PendingInsert) :
    Extended feed (insertEvents feed tx application atMs events r).1 tx.txid
      (mergeEvents [] events) := by
  obtain ⟨event, events, rfl⟩ := List.exists_cons_of_ne_nil hne
  have hfirst := insertAt_extended application atMs hnew hroom event
  obtain ⟨entry', hentry', hevents⟩ := hfirst.entry
  have hrest := insertEvents_rewritten application atMs hentry' events
    (if (feed.insertAt tx event application atMs).2 = .added then .added else r)
  rw [hevents] at hrest
  exact hfirst.trans hrest

theorem ordinalEvents_length (events : List PendingTxEvent) :
    (ordinalEvents events).length = events.length := by
  rw [ordinalEvents, List.length_map, List.length_zipIdx, List.length_insertionSort]

theorem track_moves (feed : PendingFeed) (events : List PendingTxEvent) :
    Moves events.length feed (trackPendingTransaction feed tx events application atMs).1 := by
  rw [trackPendingTransaction]
  split
  · exact .refl _ feed
  · exact ordinalEvents_length events ▸ insertEvents_moves application atMs feed _ _

/-- Tracking changes nothing where it is given nothing or there is no room; else the
transaction enters the feed, or its events are put together with those held. -/
theorem track_cases (feed : PendingFeed) (events : List PendingTxEvent) :
    let out := (trackPendingTransaction feed tx events application atMs).1
    (out = feed ∧ (events = [] ∨ ¬feed.Room tx.txid)) ∨
      (∃ entry, feed.entries.lookup tx.txid = some entry ∧
        Rewritten feed out tx.txid (mergeEvents entry.events (ordinalEvents events))) ∨
      tx.txid ∉ feed.entries ∧ feed.entries.keys.length < maxPending ∧
        Extended feed out tx.txid (mergeEvents [] (ordinalEvents events)) := by
  rw [trackPendingTransaction]
  split
  · rename_i hfull
    exact .inl ⟨rfl, .inr (not_or.mpr ⟨hfull.1, Nat.not_lt.mpr hfull.2⟩)⟩
  · rename_i hroom
    cases hentry : feed.entries.lookup tx.txid with
    | some entry =>
        exact .inr (.inl ⟨entry, rfl, insertEvents_rewritten application atMs hentry _ _⟩)
    | none =>
        have hnew := AList.lookup_eq_none.mp hentry
        have hlt : feed.entries.keys.length < maxPending :=
          Nat.not_le.mp fun hle ↦ hroom ⟨hnew, hle⟩
        by_cases hnil : ordinalEvents events = []
        · have hevents : events = [] := by
            rw [← List.length_eq_zero_iff, ← ordinalEvents_length, hnil, List.length_nil]
          exact .inl ⟨by rw [hnil]; rfl, .inl hevents⟩
        · exact .inr (.inr ⟨hnew, hlt, insertEvents_extended application atMs hnew hlt hnil _⟩)

theorem Listed.track (h : Listed feed) (events : List PendingTxEvent) :
    Listed (trackPendingTransaction feed tx events application atMs).1 := by
  obtain ⟨hout, -⟩ | ⟨_, -, hout⟩ | ⟨hnew, hlt, hout⟩ :=
    @track_cases tx application atMs feed events
  · rw [hout]
    exact h
  · exact h.rewritten hout
  · exact h.extended hout hnew hlt

/-- Tracking keeps the law where the events extend those held. -/
theorem PendingFeedLaw.track (h : PendingFeedLaw feed) {events : List PendingTxEvent}
    (hdistinct : (events.map (·.covenantId)).Nodup)
    (hextends : ExtendsIds (feed.eventsOf tx.txid) (events.map (·.covenantId))) :
    PendingFeedLaw (trackPendingTransaction feed tx events application atMs).1 where
  toListed := h.toListed.track application atMs events
  inOrder := by
    obtain ⟨hout, -⟩ | ⟨entry, hentry, hout⟩ | ⟨-, -, hout⟩ :=
      @track_cases tx application atMs feed events
    · rw [hout]
      exact h.inOrder
    · rw [PendingFeed.eventsOf, hentry] at hextends
      exact inOrder_of_others h.inOrder hout.others hout.entry
        (mergeEvents_inOrder (h.inOrder _ entry hentry) hdistinct hextends)
    · exact inOrder_of_others h.inOrder hout.others hout.entry
        (mergeEvents_inOrder ⟨List.Pairwise.nil, List.nodup_nil, rfl⟩ hdistinct
          (.inr ⟨by simp, by simp⟩))

end Tracking

/-! ## The sections -/

/-- At most so many changes, which keep the law. -/
structure Leaves (n : Nat) (feed out : PendingFeed) : Prop where
  moves : Moves n feed out
  listed : Listed feed → Listed out
  law : PendingFeedLaw feed → PendingFeedLaw out

namespace Leaves

variable {m n : Nat} {feed mid out : PendingFeed}

theorem refl (n : Nat) (feed : PendingFeed) : Leaves n feed feed := ⟨.refl n feed, id, id⟩

theorem trans (h : Leaves m feed mid) (h' : Leaves n mid out) : Leaves (m + n) feed out :=
  ⟨h.moves.trans h'.moves, h'.listed ∘ h.listed, h'.law ∘ h.law⟩

theorem remove (feed : PendingFeed) (txid : TxId) : Leaves 1 feed (feed.remove txid).1 :=
  ⟨remove_moves feed txid, fun h ↦ h.remove txid, fun h ↦ h.remove txid⟩

theorem setStatus (p : PolledFeed) (status : PendingFeedStatus) :
    Leaves 1 p.feed (p.setStatus status).feed := by
  rw [PolledFeed.setStatus]
  split
  · exact ⟨.one rfl, fun h ↦ h.congr rfl rfl, fun h ↦ h.congr rfl rfl⟩
  · exact .refl 1 p.feed

theorem markDisabled (p : PolledFeed) : Leaves 2 p.feed p.markDisabled.feed := by
  refine (Leaves.setStatus p .disabled).trans (n := 1) ?_
  rw [PolledFeed.markDisabled]
  dsimp only
  split
  · exact .refl 1 _
  · exact ⟨.one rfl, fun _ ↦ (PendingFeedLaw.empty 0).toListed.congr rfl rfl, fun _ ↦
      (PendingFeedLaw.empty 0).congr rfl rfl⟩

/-- A loop of sections. -/
theorem foldl {α : Type} (f : Sweep → α → Sweep)
    (step : ∀ s x, Leaves 1 s.polled.feed (f s x).polled.feed) (xs : List α) (s : Sweep) :
    Leaves xs.length s.polled.feed (xs.foldl f s).polled.feed := by
  induction xs generalizing s with
  | nil => exact .refl 0 _
  | cons x xs ih =>
      rw [List.length_cons, Nat.add_comm]
      exact (step s x).trans (ih (f s x))

theorem sweepTx (timers : PollTimers) (txs : List Transaction) (confirmed : TxId → Bool)
    (now : Nat) (s : Sweep) (txid : TxId) :
    Leaves 1 s.polled.feed (Kascov.sweepTx timers txs confirmed now s txid).polled.feed := by
  rw [Kascov.sweepTx]
  split
  · exact .refl 1 _
  · dsimp only
    split
    · exact .remove _ txid
    · split
      · exact .refl 1 _
      · split
        · exact .remove _ txid
        · split
          · exact .remove _ txid
          · split
            · exact .remove _ txid
            · exact .refl 1 _

end Leaves

/-- How often a step can change the revision. -/
def changes (p : Poller) : PollEvent → Nat
  | .classified result _ _ => (result.getD []).length
  | .swept _ => p.polled.feed.order.length
  | .accepted txids => txids.length
  | _ => 2

/-- What a classification finds of a tracked transaction extends what the feed holds of it. -/
def extendsHeld (p : Poller) : PollEvent → Bool
  | .classified (some events) _ _ =>
      match p.phase with
      | .polling poll =>
          poll.rest.head?.all fun tx ↦
            ExtendsIds (p.polled.feed.eventsOf tx.txid) (events.map (·.covenantId))
      | _ => true
  | _ => true

/-- The condition on a step: the revision does not wrap, and a tracked transaction is
classified again only with covenants that extend those held. -/
structure Orderly (p : Poller) (event : PollEvent) : Prop where
  room : p.polled.feed.revision + changes p event < 2 ^ 64
  again : extendsHeld p event = true

instance (p : Poller) (event : PollEvent) : Decidable (Orderly p event) :=
  decidable_of_iff (_ ∧ _) ⟨fun h ↦ ⟨h.1, h.2⟩, fun h ↦ ⟨h.room, h.again⟩⟩

theorem classifyNext_moves (p : PolledFeed) (poll : Poll) (tx : Transaction)
    (rest : List Transaction) (result : Option (List PendingTxEvent))
    (application : ApplicationPreprocess) (at_ : Nat) :
    Moves (result.getD []).length p.feed
      (classifyNext p poll tx rest result application at_).1.feed := by
  unfold classifyNext
  split
  · exact .refl _ _
  · exact .refl _ _
  · exact track_moves application poll.observedAtMs p.feed _

theorem Listed.classifyNext {p : PolledFeed} (h : Listed p.feed) (poll : Poll) (tx : Transaction)
    (rest : List Transaction) (result : Option (List PendingTxEvent))
    (application : ApplicationPreprocess) (at_ : Nat) :
    Listed (Kascov.classifyNext p poll tx rest result application at_).1.feed := by
  unfold Kascov.classifyNext
  split
  · exact h
  · exact h
  · exact h.track application poll.observedAtMs _

theorem PendingFeedLaw.classifyNext {p : PolledFeed} (h : PendingFeedLaw p.feed) (poll : Poll)
    {tx : Transaction} (rest : List Transaction) {result : Option (List PendingTxEvent)}
    (hdistinct : ((result.getD []).map (·.covenantId)).Nodup)
    (again : ∀ events, result = some events →
      ExtendsIds (p.feed.eventsOf tx.txid) (events.map (·.covenantId)))
    (application : ApplicationPreprocess) (at_ : Nat) :
    PendingFeedLaw (Kascov.classifyNext p poll tx rest result application at_).1.feed := by
  unfold Kascov.classifyNext
  split
  · exact h
  · exact h
  · rename_i events _
    exact h.track application poll.observedAtMs hdistinct (again events rfl)

/-- A step makes at most so many changes and keeps the list, and an orderly step keeps the
law. -/
theorem pollStep_keeps {timers : PollTimers} {p p' : Poller} {event : PollEvent}
    (h : pollStep timers p event = .ok p') :
    Moves (changes p event) p.polled.feed p'.polled.feed ∧
      (Listed p.polled.feed → Listed p'.polled.feed) ∧
      (Orderly p event → PendingFeedLaw p.polled.feed → PendingFeedLaw p'.polled.feed) := by
  have keeps {n : Nat} {feed out : PendingFeed} (h : Leaves n feed out) :
      Moves n feed out ∧ (Listed feed → Listed out) ∧
        (Orderly p event → PendingFeedLaw feed → PendingFeedLaw out) :=
    ⟨h.moves, h.listed, fun _ ↦ h.law⟩
  cases event with
  | killed =>
      rw [pollStep] at h
      split_ifs at h
      obtain rfl := Except.ok.inj h
      exact keeps (.markDisabled p.polled)
  | sessionFailed =>
      rw [pollStep] at h
      split at h
      · obtain rfl := Except.ok.inj h
        exact keeps ((Leaves.setStatus p.polled _).trans (.refl 1 _))
      · cases h
  | connected =>
      rw [pollStep] at h
      split at h
      · obtain rfl := Except.ok.inj h
        exact keeps (.refl 2 _)
      · cases h
  | fetchFailed unsupported =>
      rw [pollStep] at h
      split at h
      · split_ifs at h
        · obtain rfl := Except.ok.inj h
          exact keeps (.markDisabled p.polled)
        · obtain rfl := Except.ok.inj h
          exact keeps ((Leaves.setStatus p.polled _).trans (.refl 1 _))
      · cases h
  | fetched txs observedAtMs now liveAtMs =>
      rw [pollStep] at h
      split at h
      · obtain rfl := Except.ok.inj h
        exact keeps ((Leaves.setStatus { p.polled with lastPollMs := some liveAtMs } _).trans
          (.refl 1 _))
      · cases h
  | classified result application at_ =>
      rw [pollStep] at h
      split at h
      · rename_i poll hphase
        split at h
        · rename_i tx rest hrest
          split_ifs at h with hdistinct
          obtain rfl := Except.ok.inj h
          refine ⟨classifyNext_moves .., fun hlisted ↦ hlisted.classifyNext .., fun hok hlaw ↦
            hlaw.classifyNext poll rest hdistinct ?_ application at_⟩
          rintro events rfl
          have hagain := hok.again
          simp only [extendsHeld, hphase, hrest, List.head?_cons, Option.all_some] at hagain
          exact of_decide_eq_true hagain
        · cases h
      · cases h
  | swept confirmed =>
      rw [pollStep] at h
      split at h
      · split_ifs at h
        obtain rfl := Except.ok.inj h
        exact keeps (Leaves.foldl _ (Leaves.sweepTx timers _ confirmed _) p.polled.feed.order
          { polled := p.polled })
      · cases h
  | accepted txids =>
      obtain rfl := Except.ok.inj h
      exact keeps (Leaves.foldl (fun s txid ↦ s.resolve txid .accepted)
        (fun s txid ↦ .remove s.polled.feed txid) txids { polled := p.polled })

/-! ## Runs -/

/-- The rows change only with the feed. -/
theorem rowsAt_congr {feed out : PendingFeed} {generatedAtMs : Nat}
    (h : feed.rowsAt generatedAtMs ≠ out.rowsAt generatedAtMs) : out ≠ feed := by
  rintro rfl
  exact h rfl

theorem guarded_append {timers : PollTimers} {p : Poller} {before after : List PollEvent}
    (h : Runs.Guarded (pollStep timers) Orderly p (before ++ after)) :
    Runs.Guarded (pollStep timers) Orderly p before ∧
      Runs.Guarded (pollStep timers) Orderly (Runs.run (pollStep timers) p before) after := by
  induction before generalizing p with
  | nil => exact ⟨trivial, h⟩
  | cons event before ih => exact ⟨⟨h.1, (ih h.2).1⟩, (ih h.2).2⟩

/-- In a run of orderly steps every state has the law, and a step that changes the rows
raises the revision. -/
theorem pending_feed_law (timers : PollTimers) (run : List PollEvent)
    (h : Runs.Guarded (pollStep timers) Orderly {} run) :
    (∀ before after, run = before ++ after →
      PendingFeedLaw (Runs.run (pollStep timers) {} before).polled.feed) ∧
    ∀ before event after, run = before ++ event :: after → ∀ generatedAtMs,
      (Runs.run (pollStep timers) {} before).polled.feed.rowsAt generatedAtMs ≠
          (Runs.run (pollStep timers) {} (before ++ [event])).polled.feed.rowsAt generatedAtMs →
        (Runs.run (pollStep timers) {} before).polled.feed.revision <
          (Runs.run (pollStep timers) {} (before ++ [event])).polled.feed.revision := by
  constructor
  · rintro before after rfl
    exact Runs.run_invariant_of_guarded (fun p ↦ PendingFeedLaw p.polled.feed) Orderly
      (fun p event p' hp hok hstep ↦ (pollStep_keeps hstep).2.2 hok hp) (PendingFeedLaw.empty 0)
      (guarded_append h).1
  · rintro before event after rfl generatedAtMs hrows
    obtain ⟨hok, -⟩ := (guarded_append h).2
    rw [Runs.run_append] at hrows ⊢
    change _ < (Runs.attempt (pollStep timers) _ event).polled.feed.revision
    change _ ≠ (Runs.attempt (pollStep timers) _ event).polled.feed.rowsAt _ at hrows
    rw [Runs.attempt] at hrows ⊢
    split at hrows
    · rename_i p' hstep
      exact (pollStep_keeps hstep).1.lt (rowsAt_congr hrows) hok.room
    · exact absurd rfl hrows

/-- The child is tracked on a store, and found again after a reconnect, once its parent is
indexed. -/
def reconnectedRun (store : Store) : List PollEvent :=
  [.connected, .fetched [childTx] 0 0 0,
    .classified (some (classifyPending seedCompute store childTx)) {} 0,
    .swept fun _ ↦ false, .fetchFailed false, .connected, .fetched [childTx] 5 5 5,
    .classified (some (classifyPending seedCompute parentStore childTx)) {} 5]

theorem pending_feed_law_indexed :
    Runs.Guarded (pollStep {}) Orderly {} (reconnectedRun parentStore) ∧
      PendingFeedLaw (Runs.run (pollStep {}) {} (reconnectedRun parentStore)).polled.feed := by
  have hok : Runs.Guarded (pollStep {}) Orderly {} (reconnectedRun parentStore) := by
    decide +kernel
  exact ⟨hok, (pending_feed_law {} _ hok).1 _ [] (List.append_nil _).symm⟩

/-- Where the parent was not indexed at first, both events have the ordinal 0. -/
theorem readmitted_ordinals :
    let feed := (Runs.run (pollStep {}) {} (reconnectedRun (.fresh ⟨0⟩))).polled.feed
    feed.eventsOf childTx.txid = [⟨⟨1⟩, .burn, 0⟩, ⟨⟨9⟩, .transition, 0⟩] ∧
      ¬PendingFeedLaw feed := by
  intro feed
  have hevents : feed.eventsOf childTx.txid = [⟨⟨1⟩, .burn, 0⟩, ⟨⟨9⟩, .transition, 0⟩] := by
    decide +kernel
  refine ⟨hevents, fun hlaw ↦ ?_⟩
  rw [PendingFeed.eventsOf] at hevents
  cases hentry : feed.entries.lookup childTx.txid with
  | none => rw [hentry] at hevents; cases hevents
  | some entry =>
      rw [hentry] at hevents
      change entry.events = _ at hevents
      have hplaces := (hlaw.inOrder _ entry hentry).places
      rw [hevents] at hplaces
      cases hplaces

end Kascov
