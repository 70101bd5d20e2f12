import Kascov.History.Faithful
import Kascov.Lib.Paging

/-!
# A client of the application feed

A client reads the delivery log filtered to one application, page by page from
its start, and keeps the outputs each record carries under the record's cursor:
an accepted or a repaired record brings its outputs, a removed record drops
those of the record its source cursor names.
-/

namespace Kascov

open CancelLog Fallible

/-- How a client reads the records of the feed. -/
def feedReading : Reading DeliveryRecord StreamCursor where
  id r := r.cursor
  adds r := r.kind ≠ .removed
  cancels r := if r.kind = .removed then r.sourceCursor else none

/-- The records whose outputs a client of the whole log holds. -/
def liveFeed (log : List DeliveryRecord) : List DeliveryRecord :=
  live feedReading log

/-- The outputs of one application that a record carries. -/
def outputsOf (application : String) (r : DeliveryRecord) : List Outpoint :=
  (r.applications.filter (·.applicationId = application)).map fun output ↦
    ⟨r.txid, output.outputIndex⟩

/-- The outputs a client holds after the records it read. -/
def clientOutputs (application : String) (records : List DeliveryRecord) : List Outpoint :=
  (replay feedReading (outputsOf application) records).map (·.2)

/-- A client's pages, each asked for from the last cursor of the one before. -/
def readFeed (s : Store) (filter : DeliveryFilter) (limit : Nat) :
    Nat → Option StreamCursor → Result (List DeliveryRecord)
  | 0, _ => .ok []
  | pages + 1, after => do
      let page ← deliveryPageFiltered s after limit filter
      match page.getLast? with
      | none => return []
      | some last => return page ++ (← readFeed s filter limit pages (some last.cursor))

/-- The filter of one application. -/
def applicationFilter (application : String) : DeliveryFilter :=
  { applicationId := some application }

/-- The transaction has an event that was delivered. -/
def Store.HasDelivered (s : Store) (txid : TxId) : Prop :=
  ∃ e ∈ s.covenantEvents, e.txid = txid ∧ e.deliveryStreamSeq.isSome

/-- The law of the feed: whatever its page size, a client that reads to the end
holds exactly the current outputs of the application whose transaction has a
delivered event. -/
def FeedLaw (s : Store) (application : String) : Prop :=
  ∀ limit, ∃ records,
    readFeed s (applicationFilter application) limit (s.deliveryLog.length + 1) none =
      .ok records ∧
    ∀ outpoint, outpoint ∈ clientOutputs application records ↔
      ∃ row ∈ s.applicationOutputs, row.outpoint = outpoint ∧
        row.output.applicationId = application ∧ s.HasDelivered row.txid

/-! ## The index of the log -/

/-- Where the side table holds the applications of the records and no two records
share a sequence, the rows under a record's sequence are those of its own. -/
theorem mem_applicationIndex {s : Store} (hseqs : (s.deliveryLog.map (·.cursor.seq)).Nodup)
    (hindex : s.deliveryApplications = s.deliveryLog.flatMap fun r ↦
      r.applications.map (applicationRow r.cursor.seq))
    {r : DeliveryRecord} (hr : r ∈ s.deliveryLog) (row : DeliveryApplicationRow) :
    row ∈ s.deliveryApplications ∧ row.streamSeq = r.cursor.seq ↔
      ∃ application ∈ r.applications, applicationRow r.cursor.seq application = row := by
  rw [hindex, List.mem_flatMap]
  constructor
  · rintro ⟨⟨r', hr', hrow⟩, hseq⟩
    obtain ⟨application, happlication, rfl⟩ := List.mem_map.mp hrow
    obtain rfl := List.inj_on_of_nodup_map hseqs hr' hr hseq
    exact ⟨application, happlication, rfl⟩
  · rintro ⟨application, happlication, rfl⟩
    exact ⟨⟨r, hr, List.mem_map_of_mem happlication⟩, rfl⟩

/-! ## Pages -/

section Pages

variable {s : Store} {filter : DeliveryFilter} {limit : Nat}

theorem deliveryPageFiltered_after {c : StreamCursor} (hepoch : c.epoch = s.streamEpoch) :
    deliveryPageFiltered s (some c) limit filter =
      .ok (((s.deliveryLog.filter (filter.selects s)).filter (c.seq < ·.cursor.seq)).take
        (clamp limit 1 maxPublicDeliveryPage)) := by
  rw [deliveryPageFiltered, deliveryPageFilteredWithCap, if_neg (not_not.mpr hepoch),
    List.filter_filter]

theorem deliveryPageFiltered_start :
    deliveryPageFiltered s none limit filter =
      .ok (((s.deliveryLog.filter (filter.selects s)).filter (0 < ·.cursor.seq)).take
        (clamp limit 1 maxPublicDeliveryPage)) := by
  rw [deliveryPageFiltered, deliveryPageFilteredWithCap, List.filter_filter]

/-- From any point of an ordered log, the pages give the rest. -/
theorem readFeed_rest (pre rest : List DeliveryRecord) (after : Option StreamCursor)
    (hlog : pre ++ rest = s.deliveryLog.filter (filter.selects s))
    (hsorted : (pre ++ rest).Pairwise (·.cursor.seq < ·.cursor.seq))
    (hepoch : ∀ r ∈ pre ++ rest, r.cursor.epoch = s.streamEpoch)
    (hpage : deliveryPageFiltered s after limit filter =
      .ok (rest.take (clamp limit 1 maxPublicDeliveryPage)))
    {pages : Nat} (hpages : rest.length < pages) :
    readFeed s filter limit pages after = .ok rest := by
  induction pages generalizing pre rest after with
  | zero => omega
  | succ pages ih =>
      have hsplit := List.take_append_drop (clamp limit 1 maxPublicDeliveryPage) rest
      rw [readFeed, hpage]
      show (match (rest.take (clamp limit 1 maxPublicDeliveryPage)).getLast? with
        | none => _
        | some last => _) = _
      cases hlast : (rest.take (clamp limit 1 maxPublicDeliveryPage)).getLast? with
      | none =>
          rw [List.getLast?_eq_none_iff, List.take_eq_nil_iff] at hlast
          rw [hlast.resolve_left (Nat.ne_of_gt (clamp_pos limit (by decide)))]
          rfl
      | some last =>
          have hmem : last ∈ pre ++ rest :=
            List.mem_append_right _ (List.mem_of_mem_take (List.mem_of_getLast? hlast))
          have hassoc : (pre ++ rest.take (clamp limit 1 maxPublicDeliveryPage)) ++
              rest.drop (clamp limit 1 maxPublicDeliveryPage) = pre ++ rest := by
            rw [List.append_assoc, hsplit]
          have habove := @Paging.filter_above_last _ (fun r : DeliveryRecord ↦ r.cursor.seq)
            (pre ++ rest.take (clamp limit 1 maxPublicDeliveryPage))
            (rest.drop (clamp limit 1 maxPublicDeliveryPage)) (by rwa [hassoc]) last
            (Paging.getLast?_append_take hlast)
          have hrest := ih (pre ++ rest.take (clamp limit 1 maxPublicDeliveryPage))
            (rest.drop (clamp limit 1 maxPublicDeliveryPage)) (some last.cursor)
            (hassoc.trans hlog) (by rwa [hassoc]) (by rwa [hassoc])
            (by rw [deliveryPageFiltered_after (hepoch last hmem), ← hlog, ← hassoc, habove])
            (by
              have hlen : 0 < rest.length := by
                cases rest with
                | nil => simp at hlast
                | cons r rest => simp
              have := clamp_pos limit (show 1 ≤ maxPublicDeliveryPage by decide)
              rw [List.length_drop]
              omega)
          show (readFeed s filter limit pages (some last.cursor) >>= fun more ↦
            pure (_ ++ more)) = _
          rw [hrest]
          exact congrArg Except.ok hsplit

/-- Reading to the end gives the whole filtered log. -/
theorem LogInvariant.readFeed {next : Nat} (h : LogInvariant s next) :
    readFeed s filter limit (s.deliveryLog.length + 1) none =
      .ok (s.deliveryLog.filter (filter.selects s)) := by
  have hsorted : s.deliveryLog.Pairwise (·.cursor.seq < ·.cursor.seq) := by
    rw [← List.pairwise_map (f := fun r : DeliveryRecord ↦ r.cursor.seq), h.seqs]
    exact List.pairwise_lt_range'
  have hpositive : ∀ r ∈ s.deliveryLog, 0 < r.cursor.seq := by
    intro r hr
    have hmem : r.cursor.seq ∈ s.deliveryLog.map (·.cursor.seq) := List.mem_map_of_mem hr
    rw [h.seqs, List.mem_range'_1] at hmem
    exact hmem.1
  refine readFeed_rest [] _ none rfl (hsorted.sublist List.filter_sublist) ?_ ?_ ?_
  · exact fun r hr ↦ h.epochs r (List.mem_of_mem_filter hr)
  · rw [deliveryPageFiltered_start, Paging.filter_above_start]
    exact fun r hr ↦ hpositive r (List.mem_of_mem_filter hr)
  · exact Nat.lt_succ_of_le (List.length_filter_le _ _)

end Pages

end Kascov
