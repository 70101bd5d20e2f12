import Kascov.Feed.Pending
import Kascov.Lib.Runs

/-!
# The poller of the mempool

`poll_mempool_forever` and the tasks beside it.  Each section that holds the lock of the
feed is one step, so a run is any interleaving of the sections of the poller with those of
the follower, which resolves what it has accepted.
-/

namespace Kascov

/-! ## The feed under its lock -/

inductive PendingFeedStatus where
  | starting
  | live
  | reconnecting
  | disabled
deriving DecidableEq, Repr

/-- The instants that the timers of an entry run from. -/
structure Instants where
  firstSeen : Nat := 0
  leavingSince : Option Nat := none
deriving DecidableEq, Repr

/-- `PendingFeed` with the health of its poller and the instants of its entries. -/
structure PolledFeed where
  feed : PendingFeed := {}
  status : PendingFeedStatus := .starting
  lastPollMs : Option Nat := none
  instants : TxId → Instants := fun _ ↦ {}

/-- `self.revision.wrapping_add(1)`. -/
def PendingFeed.bump (feed : PendingFeed) : PendingFeed :=
  { feed with revision := (feed.revision + 1) % 2 ^ 64 }

/-- `PendingFeed::remove`. -/
def PendingFeed.remove (feed : PendingFeed) (txid : TxId) : PendingFeed × Option PendingEntry :=
  match feed.entries.lookup txid with
  | some entry =>
      ({ feed with
          entries := feed.entries.erase txid
          order := feed.order.filter (· ≠ txid) }.bump, some entry)
  | none => (feed, none)

namespace PolledFeed

/-- `set_status`. -/
def setStatus (p : PolledFeed) (status : PendingFeedStatus) : PolledFeed :=
  if p.status ≠ status then { p with status, feed := p.feed.bump } else p

/-- `mark_live_at`. -/
def markLiveAt (p : PolledFeed) (atMs : Nat) : PolledFeed :=
  { p with lastPollMs := some atMs }.setStatus .live

/-- `mark_reconnecting`. -/
def markReconnecting (p : PolledFeed) : PolledFeed := p.setStatus .reconnecting

/-- `mark_disabled`. -/
def markDisabled (p : PolledFeed) : PolledFeed :=
  let p := p.setStatus .disabled
  if p.feed.entries.keys = [] then p
  else { p with feed := { p.feed with entries := ∅, order := [] }.bump }

end PolledFeed

/-! ## What is published -/

/-- A row of `snapshot_json_at`: the first event, the age, and the events with their ids. -/
structure PendingRow where
  covenantId : CovenantId
  txKind : EventKind
  txid : TxId
  ageMs : Nat
  events : List (CovenantId × EventKind × PendingEventId)
  application : ApplicationPreprocess

/-- `snapshot_json_at`, the rows. -/
def PendingFeed.rowsAt (feed : PendingFeed) (generatedAtMs : Nat) : List PendingRow :=
  feed.order.filterMap fun txid ↦ do
    let entry ← feed.entries.lookup txid
    let primary ← entry.events.head?
    pure
      { covenantId := primary.covenantId
        txKind := primary.kind
        txid
        ageMs := generatedAtMs - entry.firstSeenMs
        events := entry.events.map fun e ↦
          (e.covenantId, e.kind, ⟨txid, e.covenantId, e.ordinal⟩)
        application := entry.application }

/-! ## Resolving -/

inductive Resolution where
  | accepted
  | dropped
  | replaced (by_ : TxId)
deriving DecidableEq, Repr

/-- What a resolved row leaves to be announced. -/
structure Resolved where
  txid : TxId
  entry : PendingEntry
  resolution : Resolution
  revision : Nat

/-- A feed from which rows are taken, and what was taken. -/
structure Sweep where
  polled : PolledFeed
  resolved : List Resolved := []

/-- A row is taken out. -/
def Sweep.resolve (s : Sweep) (txid : TxId) (resolution : Resolution) : Sweep :=
  let (feed, removed) := s.polled.feed.remove txid
  { polled := { s.polled with feed }
    resolved := s.resolved ++
      (removed.map fun entry ↦ ⟨txid, entry, resolution, feed.revision⟩).toList }

/-- `resolve_accepted_pending`. -/
def resolveAcceptedPending (p : PolledFeed) (acceptedTxids : List TxId) : Sweep :=
  acceptedTxids.foldl (fun s txid ↦ s.resolve txid .accepted) { polled := p }

/-- `current_spenders`: the last of the pool that spends the outpoint. -/
def currentSpender (txs : List Transaction) (outpoint : Outpoint) : Option TxId :=
  ((txs.flatMap fun tx ↦ tx.inputs.map fun input ↦ (input.previousOutpoint, tx.txid)).reverse.find?
    (·.1 = outpoint)).map (·.2)

/-- `replacement_for`. -/
def replacementFor (txid : TxId) (entry : PendingEntry) (txs : List Transaction) : Option TxId :=
  (entry.inputs.filterMap (currentSpender txs)).find? (· ≠ txid)

/-- The tunables of the poller. -/
structure PollTimers where
  grace : Nat := 8000
  maxAge : Nat := 600000

/-- The turn of the loop over the tracked transactions.  The store says which it has
indexed. -/
def sweepTx (timers : PollTimers) (txs : List Transaction) (confirmed : TxId → Bool) (now : Nat)
    (s : Sweep) (txid : TxId) : Sweep :=
  match s.polled.feed.entries.lookup txid with
  | none => s
  | some entry =>
      let instants := s.polled.instants txid
      let leave (since : Option Nat) : Sweep :=
        { s with polled := { s.polled with
            instants := Function.update s.polled.instants txid
              { instants with leavingSince := since } } }
      if timers.maxAge ≤ now - instants.firstSeen then s.resolve txid .dropped
      else if txid ∈ txs.map (·.txid) then leave none
      else if confirmed txid then s.resolve txid .accepted
      else
        match replacementFor txid entry txs with
        | some replacement => s.resolve txid (.replaced replacement)
        | none =>
            let since := instants.leavingSince.getD now
            if timers.grace ≤ now - since then (leave (some since)).resolve txid .dropped
            else leave (some since)

/-- The loop over the tracked transactions. -/
def sweepTracked (timers : PollTimers) (txs : List Transaction) (confirmed : TxId → Bool)
    (now : Nat) (p : PolledFeed) : Sweep :=
  p.feed.order.foldl (sweepTx timers txs confirmed now) { polled := p }

/-! ## The poller -/

/-- A poll under way: the pool, and what of it is left to classify. -/
structure Poll where
  txs : List Transaction
  rest : List Transaction
  retryIds : List TxId := []
  observedAtMs : Nat
  now : Nat

/-- Where the poller is. -/
inductive PollPhase where
  | connecting
  | idle
  | polling (poll : Poll)
  | disabled

structure Poller where
  polled : PolledFeed := {}
  prevIds : List TxId := []
  phase : PollPhase := .connecting

/-- What happens next, with what the node, the store and the clocks answer. -/
inductive PollEvent where
  /-- The kill switch. -/
  | killed
  /-- The store does not open, or the node does not answer. -/
  | sessionFailed
  | connected
  | fetchFailed (unsupported : Bool)
  | fetched (txs : List Transaction) (observedAtMs now liveAtMs : Nat)
  /-- The next new transaction is classified, or the store fails. -/
  | classified (result : Option (List PendingTxEvent)) (application : ApplicationPreprocess)
      (at_ : Nat)
  /-- The tracked transactions are looked at, and the poll ends. -/
  | swept (confirmed : TxId → Bool)
  /-- The follower resolves what it has accepted. -/
  | accepted (txids : List TxId)

/-- `pending_ids_to_remember`. -/
def pendingIdsToRemember (current retry : List TxId) : List TxId := current.filter (· ∉ retry)

/-- A transaction that was classified enters the feed. -/
def admitEvents (p : PolledFeed) (tx : Transaction) (events : List PendingTxEvent)
    (application : ApplicationPreprocess) (atMs at_ : Nat) : PolledFeed × PendingInsert :=
  let (feed, result) := trackPendingTransaction p.feed tx events application atMs
  ({ p with
      feed
      instants := if tx.txid ∈ p.feed.entries then p.instants
        else Function.update p.instants tx.txid ⟨at_, none⟩ }, result)

/-- The turn of the loop over the new transactions.  A classification that fails and one
that finds no room are to be repeated. -/
def classifyNext (p : PolledFeed) (poll : Poll) (tx : Transaction) (rest : List Transaction)
    (result : Option (List PendingTxEvent)) (application : ApplicationPreprocess) (at_ : Nat) :
    PolledFeed × Poll :=
  match result with
  | none => (p, { poll with rest, retryIds := tx.txid :: poll.retryIds })
  | some [] => (p, { poll with rest })
  | some events =>
      let (p, admission) := admitEvents p tx events application poll.observedAtMs at_
      (p, { poll with
        rest
        retryIds := if admission = .overflow then tx.txid :: poll.retryIds else poll.retryIds })

/-- One step of the poller or of the follower.  What cannot happen where the poller is
changes nothing. -/
def pollStep (timers : PollTimers) (p : Poller) : PollEvent → Except Unit Poller
  | .killed =>
      if p.phase matches .connecting ∧ p.polled.status = .starting then
        pure { p with polled := p.polled.markDisabled, phase := .disabled }
      else throw ()
  | .sessionFailed =>
      match p.phase with
      | .connecting => pure { p with polled := p.polled.markReconnecting }
      | _ => throw ()
  | .connected =>
      match p.phase with
      | .connecting => pure { p with phase := .idle }
      | _ => throw ()
  | .fetchFailed unsupported =>
      match p.phase with
      | .idle =>
          if unsupported then
            pure { polled := p.polled.markDisabled, prevIds := [], phase := .disabled }
          else pure { polled := p.polled.markReconnecting, prevIds := [], phase := .connecting }
      | _ => throw ()
  | .fetched txs observedAtMs now liveAtMs =>
      match p.phase with
      | .idle =>
          pure { p with
            polled := p.polled.markLiveAt liveAtMs
            phase := .polling
              { txs, rest := txs.filter (·.txid ∉ p.prevIds), observedAtMs, now } }
      | _ => throw ()
  | .classified result application at_ =>
      match p.phase with
      | .polling poll =>
          match poll.rest with
          | tx :: rest =>
              -- the events are the entries of a map, so no covenant comes twice
              if ((result.getD []).map (·.covenantId)).Nodup then
                let (polled, poll) := classifyNext p.polled poll tx rest result application at_
                pure { p with polled, phase := .polling poll }
              else throw ()
          | [] => throw ()
      | _ => throw ()
  | .swept confirmed =>
      match p.phase with
      | .polling poll =>
          if poll.rest = [] then
            pure
              { polled := (sweepTracked timers poll.txs confirmed poll.now p.polled).polled
                prevIds := pendingIdsToRemember (poll.txs.map (·.txid)) poll.retryIds
                phase := .idle }
          else throw ()
      | _ => throw ()
  | .accepted txids => pure { p with polled := (resolveAcceptedPending p.polled txids).polled }

end Kascov
