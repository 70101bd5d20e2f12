import Kascov.Pages.Keyed
import Kascov.Pages.EventsFeed
import Kascov.Pages.Delivery
import Kascov.Pages.TokenEvents
import Kascov.History.LogInvariant

/-!
# The feeds are read to their ends

Following the cursors a feed returns reads every row once, in order, whatever
the sizes of the pages.  Four feeds keep this on every database.  A token's
event walk keeps it unless a classified event without its event row stands
before one that has it, and the delivery log unless the server serves larger
pages than the store does.
-/

namespace Kascov

open Walk

/-- The keys of the tables the feeds read, and the bounds of their `INTEGER`
columns. -/
structure Stored (db : Database) : Prop where
  covenants : (db.store.covenants.map (·.covenantId)).Nodup
  activity : ∀ c ∈ db.store.covenants, c.lastActivityDaa < 2 ^ 63
  events : (db.store.covenantEvents.map fun row ↦ (row.covenantId, row.seq)).Nodup
  rowids : db.store.covenantEvents.length < 2 ^ 63
  log : Numbered db.store
  balances : (db.derived.tokenBalances.map fun row ↦ (row.tokenId, row.owner)).Nodup
  tokenEvents : EventKeys db
  trades : (db.derived.tokenTrades.map fun tt ↦ (tt.tokenId, tt.seq)).Nodup
  tradeBounds : ∀ tt ∈ db.derived.tokenTrades, tt.acceptingDaa < 2 ^ 63 ∧ tt.seq < 2 ^ 63

/-- The log's own invariant numbers it as the pages need. -/
theorem LogInvariant.numbered {s : Store} (h : LogInvariant s s.nextStreamSeq) : Numbered s :=
  .of_seqs h.pos h.seqs h.epochs

/-- Every walk of every feed reads every matching row once, in the order of one
unbounded query, and ends. -/
structure FeedsComplete (eventPageSize : Nat) (db : Database) : Prop where
  covenants : Complete (fun after n ↦ gridPage db.store after (clamp n 1 maxPage)) none
    ((summaryRows db.store).insertionSort fun a b ↦ b.listKey ≤ a.listKey)
  events : Complete (eventsFeedPage db.store) (0, 0) (eventsFeed db.store)
  deliveries : ∀ filter, Complete (deliveryFeedPage eventPageSize db.store filter) none
    (selectedRecords db.store filter)
  holders : ∀ token, Complete (fun after n ↦ holdersPage db token after (clamp n 1 500)) none
    ((balancesOf db token).insertionSort fun a b ↦ a.holderKey ≤ b.holderKey)
  tokenEvents : ∀ token newestFirst, Complete
    (fun c n ↦ tokenEventsFeedPage db token newestFirst c (clamp n 1 pageMax)) none
      (tokenEventsFeed db token newestFirst)
  trades : ∀ token market side, Complete
    (fun before n ↦ tradesPage db token market side before (clamp n 1 1000)) none
      ((selectedTrades db token market side).insertionSort fun a b ↦ b.feedKey ≤ a.feedKey)

/-- The empty filter selects the whole log. -/
theorem selectedRecords_all (s : Store) : selectedRecords s {} = s.deliveryLog :=
  List.filter_eq_self.mpr fun _ _ ↦ rfl

/-- The feeds are complete exactly when no event walk meets a gap, and the log
fits the store's pages. -/
theorem feedsComplete_iff {eventPageSize : Nat} {db : Database} (h : Stored db)
    (hsize : 1 ≤ eventPageSize) :
    FeedsComplete eventPageSize db ↔
      (∀ token newestFirst, EventsGapFree db token newestFirst) ∧
        (eventPageSize < maxPublicDeliveryPage ∨
          db.store.deliveryLog.length ≤ maxPublicDeliveryPage) := by
  constructor
  · intro hall
    refine ⟨fun token newestFirst ↦ ?_, ?_⟩
    · exact (tokenEventsFeed_complete_iff h.tokenEvents token newestFirst).mp
        (hall.tokenEvents token newestFirst)
    · have hlog := (deliveryFeed_complete_iff h.log hsize {}).mp (hall.deliveries {})
      rwa [selectedRecords_all] at hlog
  · rintro ⟨hgap, hlog⟩
    constructor
    · exact gridPage_complete h.covenants h.activity
    · exact eventsFeedPage_complete h.events h.rowids
    · intro filter
      refine (deliveryFeed_complete_iff h.log hsize filter).mpr (hlog.imp_right fun hlen ↦ ?_)
      exact (List.length_filter_le _ _).trans hlen
    · exact holdersPage_complete h.balances
    · intro token newestFirst
      exact (tokenEventsFeed_complete_iff h.tokenEvents token newestFirst).mpr
        (hgap token newestFirst)
    · exact tradesPage_complete h.trades h.tradeBounds

/-! ## A walk that meets a gap -/

/-- A token's covenant. -/
def gapToken : CovenantId := ⟨7⟩

/-- An event of the token's covenant. -/
def gapEvent (seq : Nat) : EventRow :=
  { covenantId := gapToken
    seq
    kind := .transition
    txid := ⟨BitVec.ofNat 256 seq⟩
    acceptingBlock := ⟨BitVec.ofNat 256 seq⟩
    acceptingDaa := 100 + seq
    payload := none
    laneNamespace := none
    payloadTag := none
    inscriptionKind := none
    txIndex := some 0
    acceptingTimeMs := none
    acceptingBlueScore := none
    eventIndex := some 0
    deliveryStreamSeq := none }

/-- The classified delta of an event. -/
def gapDelta (seq : Nat) : TokenEvent :=
  { tokenId := gapToken
    covenantId := gapToken
    seq
    deltaIdx := 0
    kind := .transfer
    amount := some 1
    ownerFrom := none
    ownerTo := none
    acceptingDaa := 100 + seq
    txIndex := some 0 }

/-- Three events were classified, the last of them rolled back since, and the
projection has not run again. -/
def danglingBook : Database :=
  { store := { Store.fresh ⟨1⟩ with covenantEvents := [gapEvent 0, gapEvent 1] }
    derived := { tokenEvents := [gapDelta 0, gapDelta 1, gapDelta 2] } }

theorem danglingBook_stored : Stored danglingBook where
  covenants := by decide
  activity := by decide
  events := by decide
  rowids := by decide
  log := ⟨by decide, by decide, by decide, by decide⟩
  balances := by decide
  tokenEvents := ⟨by decide, by decide, by decide⟩
  trades := by decide
  tradeBounds := by decide

theorem danglingBook_feeds :
    FeedsComplete 1000 danglingBook ↔
      (∀ token newestFirst, EventsGapFree danglingBook token newestFirst) ∧
        (1000 < maxPublicDeliveryPage ∨
          danglingBook.store.deliveryLog.length ≤ maxPublicDeliveryPage) :=
  feedsComplete_iff danglingBook_stored (by decide)

/-- Newest first, one event a page, the walk ends after the second event and
never serves the first. -/
theorem dangling_walk_stops : ¬FeedsComplete 1000 danglingBook := by
  intro hall
  have hgap := (tokenEventsFeed_complete_iff danglingBook_stored.tokenEvents gapToken true).mp
    (hall.tokenEvents gapToken true)
  rw [EventsGapFree, if_pos rfl] at hgap
  rcases hgap [] 2 [1, 0] (by decide) (by decide) with h | ⟨-, h⟩
  · exact absurd (h 0 (by decide)) (by decide)
  · exact absurd (h 0 (by decide)) (by decide)

end Kascov
