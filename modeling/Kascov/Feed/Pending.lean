import Kascov.Sync.Classify
import Mathlib.Data.List.AList

/-!
# The pending feed

`classify_pending` and the feed of `pending.rs` that announces its events before
a transaction is accepted.  The feed numbers the events of a transaction in the
order of their covenants, as `classify` does, so that a client can join the two
by the pending id.
-/

namespace Kascov

/-! ## The classifier of a pending transaction -/

/-- A covenant event inferred from one mempool transaction. -/
structure PendingTxEvent where
  covenantId : CovenantId
  kind : EventKind
deriving DecidableEq, Repr

/-- The kind `classify_pending` computes. -/
def pendingKind (compute : ComputeCovenantId) (s : Store) (tx : Transaction) (id : CovenantId)
    (counts : Nat × Nat) : EventKind :=
  if 0 < counts.1 ∧ 0 < counts.2 then .transition
  else if 0 < counts.1 then .burn
  else if s.knownCovenant id then .transition
  else if isValidGenesis compute tx id then .genesis
  else .transition

/-- The covenants of the live cells among the inputs. -/
def liveInputs (s : Store) (tx : Transaction) : List CovenantId :=
  tx.inputs.filterMap fun input ↦ s.liveCovenantUtxo input.previousOutpoint

/-- The covenants the outputs are bound to. -/
def boundIds (tx : Transaction) : List CovenantId :=
  tx.outputs.filterMap fun output ↦ output.covenant.map (·.covenantId)

/-- `classify_pending`, in the order the covenants are touched first.  In the
source the order is that of a hash map; what follows holds for any. -/
def classifyPending (compute : ComputeCovenantId) (s : Store) (tx : Transaction) :
    List PendingTxEvent :=
  (touchedCounts (liveInputs s tx) (boundIds tx)).map fun entry ↦
    ⟨entry.1, pendingKind compute s tx entry.1 entry.2⟩

/-! ## The feed -/

/-- `MAX_PENDING`. -/
def maxPending : Nat := 512

/-- One covenant event touched by a pending transaction. -/
structure PendingEvent where
  covenantId : CovenantId
  kind : EventKind
  ordinal : Nat
deriving DecidableEq, Repr

/-- One pending transaction, less the instants its timers run from. -/
structure PendingEntry where
  events : List PendingEvent
  inputs : List Outpoint
  application : ApplicationPreprocess
  firstSeenMs : Nat
  /-- A covenant has one event. -/
  distinct : (events.map (·.covenantId)).Nodup

/-- The rows of the feed and its revision, less the health of its poller. -/
structure PendingFeed where
  entries : AList fun _ : TxId ↦ PendingEntry := ∅
  order : List TxId := []
  revision : Nat := 0

inductive PendingInsert where
  | added
  | alreadyTracked
  | overflow
deriving DecidableEq, Repr

/-- The events of an entry with one more, or with a new kind for the one of its
covenant, which keeps its ordinal. -/
def putEvent (events : List PendingEvent) (event : PendingEvent) : List PendingEvent :=
  (if events.any (·.covenantId = event.covenantId) then
    events.map fun existing ↦
      if existing.covenantId = event.covenantId then { existing with kind := event.kind }
      else existing
  else events ++ [event]).insertionSort fun a b ↦ a.covenantId ≤ b.covenantId

theorem putEvent_distinct {events : List PendingEvent}
    (h : (events.map (·.covenantId)).Nodup) (event : PendingEvent) :
    ((putEvent events event).map (·.covenantId)).Nodup := by
  refine ((List.perm_insertionSort _ _).map _).nodup_iff.mpr ?_
  split
  · rw [List.map_map]
    refine (List.map_congr_left fun existing _ ↦ ?_).symm ▸ h
    rw [Function.comp_apply]
    split <;> rfl
  · rename_i hnone
    rw [List.map_append, List.map_singleton]
    refine h.append (List.nodup_singleton _) (List.disjoint_singleton.mpr fun hmem ↦ hnone ?_)
    obtain ⟨existing, hexisting, heq⟩ := List.mem_map.mp hmem
    exact List.any_eq_true.mpr ⟨existing, hexisting, decide_eq_true heq⟩

/-- `PendingFeed::insert_at`. -/
def PendingFeed.insertAt (feed : PendingFeed) (tx : Transaction) (event : PendingEvent)
    (application : ApplicationPreprocess) (atMs : Nat) : PendingFeed × PendingInsert :=
  let revision := (feed.revision + 1) % 2 ^ 64
  match feed.entries.lookup tx.txid with
  | some entry =>
      if entry.events.any fun e ↦ e.covenantId = event.covenantId ∧ e.kind = event.kind then
        (feed, .alreadyTracked)
      else
        ({ feed with
            entries := feed.entries.insert tx.txid
              { entry with
                events := putEvent entry.events event
                distinct := putEvent_distinct entry.distinct event }
            revision }, .added)
  | none =>
      if maxPending ≤ feed.entries.keys.length then (feed, .overflow)
      else
        ({ entries := feed.entries.insert tx.txid
              { events := [event]
                inputs := tx.inputs.map (·.previousOutpoint)
                application
                firstSeenMs := atMs
                distinct := List.nodup_singleton _ }
           order := feed.order ++ [tx.txid]
           revision }, .added)

/-- The events of a transaction in the order of their covenants, with their
places in it. -/
def ordinalEvents (events : List PendingTxEvent) : List PendingEvent :=
  (events.insertionSort fun a b ↦ a.covenantId ≤ b.covenantId).zipIdx.map fun e ↦
    ⟨e.1.covenantId, e.1.kind, e.2⟩

/-- `track_pending_transaction_at`. -/
def trackPendingTransaction (feed : PendingFeed) (tx : Transaction)
    (events : List PendingTxEvent) (application : ApplicationPreprocess) (atMs : Nat) :
    PendingFeed × PendingInsert :=
  if tx.txid ∉ feed.entries ∧ maxPending ≤ feed.entries.keys.length then (feed, .overflow)
  else
    (ordinalEvents events).foldl (fun acc event ↦
      let out := acc.1.insertAt tx event application atMs
      (out.1, if out.2 = .added then .added else acc.2)) (feed, .alreadyTracked)

/-- The events the feed holds of a transaction. -/
def PendingFeed.eventsOf (feed : PendingFeed) (txid : TxId) : List PendingEvent :=
  ((feed.entries.lookup txid).map (·.events)).getD []

/-- `pending_events_json`, the covenant, the kind and the pending id of each. -/
def PendingFeed.announced (feed : PendingFeed) (txid : TxId) :
    List (CovenantId × EventKind × PendingEventId) :=
  (feed.eventsOf txid).map fun e ↦ (e.covenantId, e.kind, ⟨txid, e.covenantId, e.ordinal⟩)

/-! ## What tracking leaves in the feed -/

/-- The events an entry may hold beside one: those of its covenant have its
ordinal. -/
def AgreesOn (events : List PendingEvent) (event : PendingEvent) : Prop :=
  ∀ e ∈ events, e.covenantId = event.covenantId → e.ordinal = event.ordinal

theorem mem_putEvent {events : List PendingEvent} {event : PendingEvent}
    (h : AgreesOn events event) {x : PendingEvent} :
    x ∈ putEvent events event ↔
      (x ∈ events ∧ x.covenantId ≠ event.covenantId) ∨ x = event := by
  have hupdate : ∀ e ∈ events, e.covenantId = event.covenantId →
      { e with kind := event.kind } = event := by
    rintro ⟨id, kind, ordinal⟩ he heq
    obtain rfl : id = event.covenantId := heq
    obtain rfl : ordinal = event.ordinal := h _ he rfl
    rfl
  rw [putEvent, List.mem_insertionSort]
  split
  · rename_i hany
    obtain ⟨old, hold, heq⟩ := List.any_eq_true.mp hany
    rw [List.mem_map]
    constructor
    · rintro ⟨e, he, rfl⟩
      split
      · rename_i hid
        exact .inr (hupdate e he hid)
      · rename_i hid
        exact .inl ⟨he, hid⟩
    · rintro (⟨hx, hne⟩ | rfl)
      · exact ⟨x, hx, if_neg hne⟩
      · exact ⟨old, hold, by rw [if_pos (of_decide_eq_true heq)];
                             exact hupdate old hold (of_decide_eq_true heq)⟩
  · rename_i hnone
    have hother : x ∈ events → x.covenantId ≠ event.covenantId := fun hx heq ↦
      hnone (List.any_eq_true.mpr ⟨x, hx, decide_eq_true heq⟩)
    rw [List.mem_append, List.mem_singleton, and_iff_left_of_imp hother]

/-- The feed has room for a transaction. -/
def PendingFeed.Room (feed : PendingFeed) (txid : TxId) : Prop :=
  txid ∈ feed.entries ∨ feed.entries.keys.length < maxPending

section Tracking

variable {feed : PendingFeed} {tx : Transaction} (application : ApplicationPreprocess) (atMs : Nat)

theorem insertAt_spec {event : PendingEvent} (hroom : feed.Room tx.txid)
    (h : AgreesOn (feed.eventsOf tx.txid) event) :
    tx.txid ∈ (feed.insertAt tx event application atMs).1.entries ∧
      ∀ x, x ∈ (feed.insertAt tx event application atMs).1.eventsOf tx.txid ↔
        (x ∈ feed.eventsOf tx.txid ∧ x.covenantId ≠ event.covenantId) ∨ x = event := by
  unfold PendingFeed.insertAt
  dsimp only
  split
  · rename_i entry hentry
    have hevents : feed.eventsOf tx.txid = entry.events := by
      rw [PendingFeed.eventsOf, hentry]
      rfl
    rw [hevents] at h ⊢
    split
    · rename_i htracked
      obtain ⟨old, hold, heq⟩ := List.any_eq_true.mp htracked
      obtain ⟨hid, hkind⟩ := of_decide_eq_true heq
      obtain rfl : old = event := by
        have hordinal := h old hold hid
        cases old
        cases event
        simp_all
      refine ⟨AList.lookup_isSome.mp (by rw [hentry]; rfl), fun x ↦ ?_⟩
      rw [hevents]
      constructor
      · intro hx
        by_cases hxid : x.covenantId = old.covenantId
        · exact .inr (List.inj_on_of_nodup_map entry.distinct hx hold hxid)
        · exact .inl ⟨hx, hxid⟩
      · rintro (⟨hx, -⟩ | rfl)
        · exact hx
        · exact hold
    · refine ⟨(AList.mem_insert _).mpr (.inl rfl), fun x ↦ ?_⟩
      rw [PendingFeed.eventsOf, AList.lookup_insert]
      exact mem_putEvent h
  · rename_i hnone
    have hevents : feed.eventsOf tx.txid = [] := by
      rw [PendingFeed.eventsOf, hnone]
      rfl
    rw [if_neg]
    · refine ⟨(AList.mem_insert _).mpr (.inl rfl), fun x ↦ ?_⟩
      rw [PendingFeed.eventsOf, AList.lookup_insert, hevents]
      simp
    · refine fun hfull ↦ hroom.elim (AList.lookup_eq_none.mp hnone) (Nat.not_lt.mpr hfull)

/-- **What tracking leaves.**  A feed that agrees with the events it is given holds
them all, and what it held of other covenants. -/
theorem foldl_insertAt_spec {events : List PendingEvent}
    (hdistinct : (events.map (·.covenantId)).Nodup) (hroom : feed.Room tx.txid)
    (hagree : ∀ event ∈ events, AgreesOn (feed.eventsOf tx.txid) event) (r : PendingInsert)
    (x : PendingEvent) :
    x ∈ (events.foldl (fun acc event ↦
        let out := acc.1.insertAt tx event application atMs
        (out.1, if out.2 = .added then .added else acc.2)) (feed, r)).1.eventsOf tx.txid ↔
      (x ∈ feed.eventsOf tx.txid ∧ x.covenantId ∉ events.map (·.covenantId)) ∨ x ∈ events := by
  induction events generalizing feed r with
  | nil => simp
  | cons event events ih =>
      obtain ⟨hother, hdistinct⟩ := List.nodup_cons.mp hdistinct
      obtain ⟨hmem, hspec⟩ := insertAt_spec application atMs hroom
        (hagree event List.mem_cons_self)
      rw [List.foldl_cons, ih hdistinct (.inl hmem), hspec, List.map_cons, List.mem_cons,
        List.mem_cons]
      · constructor
        · rintro (⟨⟨hx, hne⟩ | rfl, hout⟩ | hx)
          · exact .inl ⟨hx, not_or.mpr ⟨hne, hout⟩⟩
          · exact .inr (.inl rfl)
          · exact .inr (.inr hx)
        · rintro (⟨hx, hout⟩ | rfl | hx)
          · exact .inl ⟨.inl ⟨hx, (not_or.mp hout).1⟩, (not_or.mp hout).2⟩
          · exact .inl ⟨.inr rfl, hother⟩
          · exact .inr hx
      · intro later hlater e he heq
        rcases (hspec e).mp he with ⟨hold, -⟩ | rfl
        · exact hagree later (List.mem_cons_of_mem _ hlater) e hold heq
        · exact absurd (List.mem_map.mpr ⟨later, hlater, heq.symm⟩) hother

end Tracking

end Kascov
