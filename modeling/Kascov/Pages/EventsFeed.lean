import Kascov.Lib.Walk
import Kascov.Store.Tables
import Mathlib.Data.Prod.Lex

/-!
# The chain-wide event feed

`events_after` resumes at a DAA group and skips the rows of it that were read;
the cursor is computed from the rows of the page.
-/

namespace Kascov

open Walk

/-- The `seq` column is read as a `u64`: only the gap finaliser's own
transaction parks a row at a negative one. -/
structure FeedEventRow where
  covenantId : CovenantId
  seq : Int
  kind : EventKind
  txid : TxId
  acceptingDaa : Nat
  acceptingBlock : BlockHash
  txIndex : Option Nat
  payloadLen : Option Nat
deriving DecidableEq

/-- `map_row` of `events_after`. -/
def feedEventRow (row : EventRow) : FeedEventRow :=
  { covenantId := row.covenantId
    seq := row.seq
    kind := row.kind
    txid := row.txid
    acceptingDaa := row.acceptingDaa
    acceptingBlock := row.acceptingBlock
    txIndex := row.txIndex
    payloadLen := row.payload.map List.length }

namespace FeedEventRow

/-- `(tx_index IS NULL), tx_index, txid, covenant_id, seq`. -/
def groupKey (row : FeedEventRow) : Bool ×ₗ Nat ×ₗ Nat ×ₗ Nat ×ₗ Int :=
  toLex (row.txIndex.isNone, toLex (row.txIndex.getD 0,
    toLex (row.txid.bytes.toNat, toLex (row.covenantId.bytes.toNat, row.seq))))

/-- `accepting_daa, (tx_index IS NULL), tx_index, txid, covenant_id, seq`. -/
def feedKey (row : FeedEventRow) : Nat ×ₗ Bool ×ₗ Nat ×ₗ Nat ×ₗ Nat ×ₗ Int :=
  toLex (row.acceptingDaa, row.groupKey)

end FeedEventRow

/-- The columns the feed selects, over the whole table. -/
def feedEventRows (s : Store) : List FeedEventRow := s.covenantEvents.map feedEventRow

/-- `Store::events_after`. -/
def eventsAfter (s : Store) (afterDaa afterSeq limit : Nat) : List FeedEventRow :=
  let limit := min limit (2 ^ 63 - 1)
  let offset := min afterSeq (2 ^ 63 - 1)
  let rows := ((((feedEventRows s).filter (·.acceptingDaa = afterDaa)).insertionSort
    fun a b ↦ a.groupKey ≤ b.groupKey).drop offset).take limit
  let remaining := limit - rows.length
  if 0 < remaining then
    rows ++ (((feedEventRows s).filter (afterDaa < ·.acceptingDaa)).insertionSort
      fun a b ↦ a.feedKey ≤ b.feedKey).take remaining
  else
    rows

/-- The rows of a page, and the `(after_daa, after_seq)` cursor a reader computes
from them. -/
def eventsFeedPage (s : Store) (after : Nat × Nat) (page : Nat) :
    List FeedEventRow × Option (Nat × Nat) :=
  let rows := eventsAfter s after.1 after.2 page
  if rows.length < page then (rows, none)
  else (rows, rows.getLast?.map fun last ↦
    let inGroup := rows.countP fun e ↦ e.acceptingDaa = last.acceptingDaa
    (last.acceptingDaa, if last.acceptingDaa = after.1 then after.2 + inGroup else inGroup))

/-- The order one unbounded query returns. -/
def eventsFeed (s : Store) : List FeedEventRow :=
  (feedEventRows s).insertionSort fun a b ↦ a.feedKey ≤ b.feedKey

/-! ## The feed is sorted by its groups -/

theorem eventsFeed_sorted (s : Store) :
    (eventsFeed s).Pairwise fun a b ↦ a.acceptingDaa ≤ b.acceptingDaa := by
  have hsorted : (eventsFeed s).Pairwise fun a b ↦ a.feedKey ≤ b.feedKey := by
    refine pairwise_sorted ?_ ?_ _
    · exact fun a b ↦ le_total a.feedKey b.feedKey
    · exact fun a b c ↦ le_trans
  refine hsorted.imp fun {a b} h ↦ ?_
  rcases Prod.Lex.le_iff.mp h with h | ⟨h, -⟩
  · exact Nat.le_of_lt h
  · exact Nat.le_of_eq h

/-- The sort key tells the rows apart, as the primary key does. -/
theorem feedKey_inj {s : Store}
    (hkey : (s.covenantEvents.map fun row ↦ (row.covenantId, row.seq)).Nodup)
    {a b : FeedEventRow} (ha : a ∈ feedEventRows s) (hb : b ∈ feedEventRows s)
    (h : a.feedKey = b.feedKey) : a = b := by
  obtain ⟨ra, hra, rfl⟩ := List.mem_map.mp ha
  obtain ⟨rb, hrb, rfl⟩ := List.mem_map.mp hb
  have htail := congrArg (fun k ↦ ofLex (ofLex (ofLex (ofLex (ofLex k).2).2).2).2) h
  obtain ⟨hid, hseq⟩ := Prod.ext_iff.mp htail
  have hrow : ra = rb := by
    refine List.inj_on_of_nodup_map hkey hra hrb (Prod.ext ?_ hseq)
    exact congrArg CovenantId.mk (BitVec.eq_of_toNat_eq hid)
  rw [hrow]

theorem filter_eventsFeed {s : Store}
    (hkey : (s.covenantEvents.map fun row ↦ (row.covenantId, row.seq)).Nodup)
    (p : FeedEventRow → Bool) :
    ((feedEventRows s).filter p).insertionSort (fun a b ↦ a.feedKey ≤ b.feedKey) =
      (eventsFeed s).filter p :=
  filter_ordered FeedEventRow.feedKey (fun _ _ ↦ Iff.rfl)
    (fun _ ha _ hb ↦ feedKey_inj hkey ha hb) p

/-- Within one group the two queries sort alike. -/
theorem group_eventsFeed {s : Store}
    (hkey : (s.covenantEvents.map fun row ↦ (row.covenantId, row.seq)).Nodup) (daa : Nat) :
    ((feedEventRows s).filter (·.acceptingDaa = daa)).insertionSort
        (fun a b ↦ a.groupKey ≤ b.groupKey) =
      (eventsFeed s).filter (·.acceptingDaa = daa) := by
  suffices h : ∀ a ∈ (feedEventRows s).filter (·.acceptingDaa = daa),
      ∀ b ∈ (feedEventRows s).filter (·.acceptingDaa = daa),
        a.groupKey ≤ b.groupKey ↔ a.feedKey ≤ b.feedKey by
    have hmap := List.map_insertionSort (fun a b : FeedEventRow ↦ a.groupKey ≤ b.groupKey)
      (fun a b : FeedEventRow ↦ a.feedKey ≤ b.feedKey) id _ h
    rw [List.map_id, List.map_id, filter_eventsFeed hkey] at hmap
    exact hmap
  intro a ha b hb
  have hdaa : a.acceptingDaa = b.acceptingDaa :=
    (of_decide_eq_true (List.mem_filter.mp ha).2).trans
      (of_decide_eq_true (List.mem_filter.mp hb).2).symm
  rw [Prod.Lex.le_iff (x := a.feedKey)]
  constructor
  · exact fun h ↦ .inr ⟨hdaa, h⟩
  · rintro (h | ⟨-, h⟩)
    · exact absurd hdaa (Nat.ne_of_lt h)
    · exact h

/-! ## The page is a window of the feed -/

theorem eventsAfter_eq {s : Store}
    (hkey : (s.covenantEvents.map fun row ↦ (row.covenantId, row.seq)).Nodup)
    (hlen : s.covenantEvents.length < 2 ^ 63) {c : Nat × Nat}
    (hc : InGroup FeedEventRow.acceptingDaa (eventsFeed s) c) (n : Nat) :
    eventsAfter s c.1 c.2 n = (fromGroup FeedEventRow.acceptingDaa (eventsFeed s) c).take n := by
  have hfeed : (eventsFeed s).length = s.covenantEvents.length := by
    rw [eventsFeed, List.length_insertionSort, feedEventRows, List.length_map]
  have hoffset : min c.2 (2 ^ 63 - 1) = c.2 := by
    have hle := (hc : c.2 ≤ _).trans List.countP_le_length
    omega
  have hlimit : ∀ l : List FeedEventRow, l.length < 2 ^ 63 →
      l.take (min n (2 ^ 63 - 1)) = l.take n := by
    intro l hl
    rcases le_total n (2 ^ 63 - 1) with hn | hn
    · rw [min_eq_left hn]
    · rw [min_eq_right hn, List.take_of_length_le (by omega), List.take_of_length_le (by omega)]
  have hbound : (fromGroup FeedEventRow.acceptingDaa (eventsFeed s) c).length < 2 ^ 63 := by
    have hle := List.length_filter_le (fun a ↦ decide (c.1 ≤ a.acceptingDaa)) (eventsFeed s)
    rw [fromGroup, List.length_drop]
    omega
  rw [← hlimit _ hbound, fromGroup, filter_le_eq_append (eventsFeed_sorted s)]
  rw [InGroup, List.countP_eq_length_filter] at hc
  rw [List.drop_append_of_le_length hc, List.take_append]
  simp only [eventsAfter, hoffset, group_eventsFeed hkey, filter_eventsFeed hkey]
  split
  · rename_i hpos
    rw [List.length_take] at hpos ⊢
    congr 2
    omega
  · rename_i hzero
    rw [List.length_take] at hzero
    rw [show min n (2 ^ 63 - 1) -
      (((eventsFeed s).filter (·.acceptingDaa = c.1)).drop c.2).length = 0 by omega,
      List.take_zero, List.append_nil]

/-- The event feed is read to its end, in its order. -/
theorem eventsFeedPage_complete {s : Store}
    (hkey : (s.covenantEvents.map fun row ↦ (row.covenantId, row.seq)).Nodup)
    (hlen : s.covenantEvents.length < 2 ^ 63) :
    Complete (eventsFeedPage s) (0, 0) (eventsFeed s) := by
  have hsorted := eventsFeed_sorted s
  have hpage : ∀ c n, InGroup FeedEventRow.acceptingDaa (eventsFeed s) c →
      eventsFeedPage s c n = groupPage FeedEventRow.acceptingDaa (eventsFeed s) c n := by
    intro c n hc
    simp only [eventsFeedPage, groupPage, eventsAfter_eq hkey hlen hc]
    congr 4
    funext last
    split <;> simp only [Nat.zero_add]
  refine (complete_congr id (InGroup FeedEventRow.acceptingDaa (eventsFeed s)) ?_ ?_
    (Nat.zero_le _) _).mpr (groupPage_complete hsorted)
  · intro c n hc _
    rw [id, hpage c n hc, Option.map_id]
    exact ⟨rfl, rfl⟩
  · exact fun c n c' hc _ hnext ↦ (groupPage_next hsorted hc hnext).1

end Kascov
