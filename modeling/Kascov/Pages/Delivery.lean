import Kascov.Lib.Walk
import Kascov.Store.Delivery

/-!
# Pages of the delivery log

`events_page_json` serves the delivery log: it validates the cursor, reads one
record more than the page, and says whether there are more.  The store caps a
page at `MAX_PUBLIC_DELIVERY_PAGE` records; the server's own ceiling on a page
is a setting.
-/

namespace Kascov

open Walk

/-- `DeliveryCursorPosition`. -/
inductive DeliveryCursorPosition where
  | valid
  | foreignEpoch
  | ahead
deriving DecidableEq

/-- `DeliveryStreamInfo`. -/
structure DeliveryStreamInfo where
  earliest : Option StreamCursor
  current : StreamCursor
  historyStartDaa : Nat
  orderComplete : Bool
deriving DecidableEq

/-- `DeliveryStreamInfo::classify`. -/
def DeliveryStreamInfo.classify (info : DeliveryStreamInfo) (cursor : StreamCursor) :
    DeliveryCursorPosition :=
  if cursor.epoch ≠ info.current.epoch then .foreignEpoch
  else if info.current.seq < cursor.seq then .ahead
  else .valid

/-- `Store::delivery_stream_info`. -/
def deliveryStreamInfo (s : Store) : Result DeliveryStreamInfo :=
  if s.nextStreamSeq = 0 then
    .error (.invalid "next stream sequence" (toString s.nextStreamSeq))
  else
    .ok { earliest := (s.deliveryLog.map (·.cursor.seq)).min?.map (⟨s.streamEpoch, ·⟩)
          current := ⟨s.streamEpoch, s.nextStreamSeq - 1⟩
          historyStartDaa := s.deliveryHistoryStartDaa
          orderComplete := s.deliveryHistoryOrderComplete }

structure EventsRequest where
  after : Option StreamCursor
  limit : Nat
  filter : DeliveryFilter
deriving DecidableEq

inductive EventsPageError where
  | foreignEpoch (info : DeliveryStreamInfo)
  | ahead (info : DeliveryStreamInfo)
  | store (error : Error)
deriving DecidableEq

/-- The body `events_page_json` serves. -/
structure EventsPage where
  after : StreamCursor
  next : StreamCursor
  hasMore : Bool
  earliest : Option StreamCursor
  current : StreamCursor
  historyStartDaa : Nat
  orderComplete : Bool
  events : List DeliveryRecord
deriving DecidableEq

/-- `EVENTS_DEFAULT_PAGE`. -/
def eventsDefaultPage : Nat := 200

/-- The `limit` of `parse_events_request`. -/
def parseEventsLimit (maxPage : Nat) : Option Nat → Nat
  | none => eventsDefaultPage
  | some value => clamp value 1 maxPage

/-- `events_page_json`, once the stream and the cursor are found good. -/
def eventsPageBody (s : Store) (request : EventsRequest) (info : DeliveryStreamInfo) :
    Except EventsPageError EventsPage :=
  let start := request.after.getD ⟨info.current.epoch, 0⟩
  match deliveryPageFiltered s (some start) (min (request.limit + 1) (2 ^ 64 - 1))
      request.filter with
  | .error e => .error (.store e)
  | .ok fetched =>
      let hasMore : Bool := decide (request.limit < fetched.length)
      let events := if hasMore then fetched.take request.limit else fetched
      let pageEnd := events.getLast?.elim start (·.cursor)
      let current := if info.current.seq < pageEnd.seq then pageEnd else info.current
      .ok { after := start
            next := if hasMore then pageEnd else current
            hasMore
            earliest := info.earliest
            current
            historyStartDaa := info.historyStartDaa
            orderComplete := info.orderComplete
            events }

/-- `events_page_json`. -/
def eventsPageJson (s : Store) (request : EventsRequest) :
    Except EventsPageError EventsPage :=
  match deliveryStreamInfo s with
  | .error e => .error (.store e)
  | .ok info =>
      match request.after.map info.classify with
      | some .foreignEpoch => .error (.foreignEpoch info)
      | some .ahead => .error (.ahead info)
      | _ => eventsPageBody s request info

/-- A reader's page: its records, and the cursor to go on from if there are
more.  `event_page_size` is the server's ceiling on a page. -/
def deliveryFeedPage (eventPageSize : Nat) (s : Store) (filter : DeliveryFilter)
    (after : Option StreamCursor) (size : Nat) :
    List DeliveryRecord × Option (Option StreamCursor) :=
  match eventsPageJson s ⟨after, parseEventsLimit eventPageSize (some size), filter⟩ with
  | .ok page => (page.events, if page.hasMore then some (some page.next) else none)
  | .error _ => ([], none)

/-- The records a filter selects, in stream order. -/
def selectedRecords (s : Store) (filter : DeliveryFilter) : List DeliveryRecord :=
  s.deliveryLog.filter fun r ↦ filter.selects s r

/-- The log in the form its writers keep it: numbered upwards from one, below
the next number, under the stream's epoch. -/
structure Numbered (s : Store) : Prop where
  next : 0 < s.nextStreamSeq
  increasing : s.deliveryLog.Pairwise (·.cursor.seq < ·.cursor.seq)
  epoch : ∀ r ∈ s.deliveryLog, r.cursor.epoch = s.streamEpoch
  bounds : ∀ r ∈ s.deliveryLog, 0 < r.cursor.seq ∧ r.cursor.seq < s.nextStreamSeq

theorem Numbered.of_seqs {s : Store} (hnext : 1 ≤ s.nextStreamSeq)
    (hseqs : s.deliveryLog.map (·.cursor.seq) = List.range' 1 (s.nextStreamSeq - 1))
    (hepoch : ∀ r ∈ s.deliveryLog, r.cursor.epoch = s.streamEpoch) : Numbered s where
  next := hnext
  increasing := by
    refine List.pairwise_map.mp ?_
    rw [hseqs]
    exact List.pairwise_lt_range'
  epoch := hepoch
  bounds := by
    intro r hr
    have hmem : r.cursor.seq ∈ s.deliveryLog.map (·.cursor.seq) := List.mem_map_of_mem hr
    rw [hseqs, List.mem_range'_1] at hmem
    omega

/-! ## A page is an over-fetch of the log, capped -/

/-- The stream order of cursors. -/
def streamBefore (k k' : StreamCursor) : Prop := k.seq < k'.seq

instance : DecidableRel streamBefore := fun _ _ ↦ inferInstanceAs (Decidable (_ < _))

theorem streamBefore_asymm (k k' : StreamCursor) : streamBefore k k' → ¬streamBefore k' k :=
  Nat.lt_asymm

/-- The records past a cursor, as the store selects them. -/
abbrev recordsPast (s : Store) (filter : DeliveryFilter) (c : Option StreamCursor) :
    List DeliveryRecord :=
  past DeliveryRecord.cursor streamBefore (selectedRecords s filter) c

/-- What the store serves from a cursor of its own epoch. -/
theorem deliveryPage_past {s : Store} (h : Numbered s) (filter : DeliveryFilter)
    {c : Option StreamCursor} (hc : ∀ k, c = some k → k.epoch = s.streamEpoch) (limit : Nat) :
    deliveryPageFiltered s (some (c.getD ⟨s.streamEpoch, 0⟩)) limit filter =
      .ok ((recordsPast s filter c).take (clamp limit 1 maxPublicDeliveryPage)) := by
  have hepoch : (c.getD ⟨s.streamEpoch, 0⟩).epoch = s.streamEpoch := by
    cases c with
    | none => rfl
    | some k => exact hc k rfl
  simp only [deliveryPageFiltered, deliveryPageFilteredWithCap, hepoch, ne_eq, not_true,
    if_false]
  congr 2
  rw [recordsPast, past, selectedRecords, List.filter_filter]
  refine List.filter_congr fun r hr ↦ ?_
  cases c with
  | none => simp [(h.bounds r hr).1]
  | some k => rfl

/-- A cursor a walk can hold is valid. -/
theorem classify_reached {s : Store} (h : Numbered s) {filter : DeliveryFilter}
    {k : StreamCursor}
    (hk : Reached DeliveryRecord.cursor (selectedRecords s filter) (some k)) :
    k.epoch = s.streamEpoch ∧ k.seq < s.nextStreamSeq := by
  rcases hk with hk | ⟨pre, rest, a, heq, hlast, ha⟩
  · cases hk
  · obtain rfl := Option.some.inj ha
    have hmem : a ∈ selectedRecords s filter := by
      rw [heq]
      exact List.mem_append_left _ (List.mem_of_getLast? hlast)
    have hlog := (List.mem_filter.mp hmem).1
    exact ⟨h.epoch a hlog, (h.bounds a hlog).2⟩

theorem deliveryStreamInfo_ok {s : Store} (h : Numbered s) :
    ∃ info, deliveryStreamInfo s = .ok info ∧
      info.current = ⟨s.streamEpoch, s.nextStreamSeq - 1⟩ := by
  rw [deliveryStreamInfo, if_neg h.next.ne']
  exact ⟨_, rfl, rfl⟩

/-- A cursor a walk can hold passes the checks of `events_page_json`. -/
theorem eventsPageJson_reached {s : Store} (h : Numbered s) {filter : DeliveryFilter}
    {c : Option StreamCursor}
    (hc : Reached DeliveryRecord.cursor (selectedRecords s filter) c) (limit : Nat) :
    ∃ info, info.current.epoch = s.streamEpoch ∧
      eventsPageJson s ⟨c, limit, filter⟩ = eventsPageBody s ⟨c, limit, filter⟩ info := by
  obtain ⟨info, hinfo, hcurrent⟩ := deliveryStreamInfo_ok h
  refine ⟨info, by rw [hcurrent], ?_⟩
  rw [eventsPageJson, hinfo]
  cases c with
  | none => rfl
  | some k =>
      obtain ⟨hepoch, hseq⟩ := classify_reached h hc
      have hvalid : info.classify k = .valid := by
        rw [DeliveryStreamInfo.classify, hcurrent, if_neg (not_not.mpr hepoch),
          if_neg (by dsimp only; omega)]
      simp only [Option.map_some, hvalid]

/-- What a reader's page holds, at a cursor a walk can hold. -/
theorem deliveryFeedPage_eq {s : Store} (h : Numbered s) {eventPageSize : Nat}
    (hsize : 1 ≤ eventPageSize) {filter : DeliveryFilter} {c : Option StreamCursor}
    (hc : Reached DeliveryRecord.cursor (selectedRecords s filter) c) (n : Nat) :
    deliveryFeedPage eventPageSize s filter c n =
      overFetch (fun k ↦ (recordsPast s filter c).take (clamp k 1 maxPublicDeliveryPage))
        (fun r ↦ some r.cursor) (clamp n 1 eventPageSize) := by
  have hone := clamp_pos n hsize
  obtain ⟨info, hinfo, hjson⟩ := eventsPageJson_reached h hc (clamp n 1 eventPageSize)
  have hepoch : ∀ k, c = some k → k.epoch = s.streamEpoch := by
    rintro k rfl
    exact (classify_reached h hc).1
  have hfetch : clamp (min (clamp n 1 eventPageSize + 1) (2 ^ 64 - 1)) 1 maxPublicDeliveryPage =
      clamp (clamp n 1 eventPageSize + 1) 1 maxPublicDeliveryPage := by
    unfold clamp maxPublicDeliveryPage
    omega
  simp only [deliveryFeedPage, parseEventsLimit, hjson, eventsPageBody, hinfo,
    deliveryPage_past h filter hepoch, hfetch, overFetch]
  generalize (recordsPast s filter c).take
    (clamp (clamp n 1 eventPageSize + 1) 1 maxPublicDeliveryPage) = fetched
  generalize clamp n 1 eventPageSize = limit at hone
  by_cases hmore : limit < fetched.length
  · -- the page is not empty, so it has a last record
    have hne : fetched.take limit ≠ [] := by
      rw [ne_eq, List.take_eq_nil_iff]
      rintro (hzero | hnil)
      · omega
      · rw [hnil] at hmore
        exact Nat.not_lt_zero _ hmore
    simp only [hmore, decide_true, if_true, List.getLast?_eq_some_getLast hne, Option.elim_some,
      Option.map_some]
  · simp only [hmore, decide_false, Bool.false_eq_true, if_false]

/-- The log is read to its end under a filter, whatever the sizes, exactly when
no page can hold more than the store's cap, or one page holds all. -/
theorem deliveryFeed_complete_iff {s : Store} (h : Numbered s) {eventPageSize : Nat}
    (hsize : 1 ≤ eventPageSize) (filter : DeliveryFilter) :
    Complete (deliveryFeedPage eventPageSize s filter) none (selectedRecords s filter) ↔
      eventPageSize < maxPublicDeliveryPage ∨
        (selectedRecords s filter).length ≤ maxPublicDeliveryPage := by
  constructor
  · intro hall
    by_contra hnot
    rw [not_or, not_lt, not_le] at hnot
    obtain ⟨fuel, hfuel⟩ := hall (fun _ ↦ maxPublicDeliveryPage) fun _ ↦ by decide
    cases fuel with
    | zero => cases hfuel
    | succ fuel =>
        -- the first page is as long as the cap, and says there is no more
        have hlimit : clamp maxPublicDeliveryPage 1 eventPageSize = maxPublicDeliveryPage := by
          unfold clamp maxPublicDeliveryPage
          have := hnot.1
          unfold maxPublicDeliveryPage at this
          omega
        have hcap : clamp (maxPublicDeliveryPage + 1) 1 maxPublicDeliveryPage =
            maxPublicDeliveryPage := by decide
        have hpage : deliveryFeedPage eventPageSize s filter none maxPublicDeliveryPage =
            ((selectedRecords s filter).take maxPublicDeliveryPage, none) := by
          rw [deliveryFeedPage_eq h hsize (.inl rfl), overFetch, hlimit, hcap,
            recordsPast, past_none, if_neg (by rw [List.length_take]; omega)]
        rw [walk_last (by rw [hpage]), hpage, Option.some.injEq] at hfuel
        have hlen := congrArg List.length hfuel
        rw [List.length_take] at hlen
        have hlong := hnot.2
        omega
  · intro hwhen
    have hkeyed : Complete (fun c n ↦ keyedPage DeliveryRecord.cursor streamBefore
        (selectedRecords s filter) c (clamp n 1 eventPageSize)) none (selectedRecords s filter) :=
      (keyedPage_complete streamBefore_asymm (h.increasing.filter _)).resize fun n _ ↦
        clamp_pos n hsize
    refine (complete_congr id (Reached DeliveryRecord.cursor (selectedRecords s filter)) ?_ ?_
      (.inl rfl) _).mpr hkeyed
    · intro c n hc _
      rw [id, deliveryFeedPage_eq h hsize hc, keyedPage, overFetch, overFetch, Option.map_id]
      have hle : (recordsPast s filter c).length ≤ (selectedRecords s filter).length :=
        List.length_filter_le _ _
      have hcap : (recordsPast s filter c).take
          (clamp (clamp n 1 eventPageSize + 1) 1 maxPublicDeliveryPage) =
          (recordsPast s filter c).take (clamp n 1 eventPageSize + 1) := by
        by_cases hshort : clamp n 1 eventPageSize + 1 ≤ maxPublicDeliveryPage
        · congr 1
          unfold clamp maxPublicDeliveryPage at *
          omega
        · have hfew : (selectedRecords s filter).length ≤ maxPublicDeliveryPage := by
            refine hwhen.resolve_left fun hsmall ↦ hshort ?_
            exact (clamp_le n eventPageSize).trans_lt hsmall
          have hclamp : clamp (clamp n 1 eventPageSize + 1) 1 maxPublicDeliveryPage =
              maxPublicDeliveryPage := by
            unfold clamp maxPublicDeliveryPage at *
            omega
          rw [hclamp, List.take_of_length_le (by omega), List.take_of_length_le (by omega)]
      rw [hcap]
      exact ⟨rfl, rfl⟩
    · exact fun c n c' hc _ hnext ↦
        (keyedPage_next streamBefore_asymm (h.increasing.filter _) hc hnext).1

end Kascov
