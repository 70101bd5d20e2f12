import Kascov.Lib.Runs
import Kascov.Web.Pending

/-!
# The page beside the server

The pending transactions of a server, the stream that carries their changes in order, and
the page that asks for snapshots.  A change while the stream is down is not sent, and what
was on the way is lost; the page asks again when the stream is up.
-/

namespace Kascov

/-- A message of the stream. -/
inductive PendingMessage where
  | pending (row : PendingFrame)
  | resolved (row : PendingFrame)
deriving DecidableEq, Repr

namespace PendingMessage

def txid : PendingMessage → String
  | pending row | resolved row => row.txid

/-- The message announces its transaction. -/
def announces : PendingMessage → Bool
  | pending _ => true
  | resolved _ => false

end PendingMessage

/-- A request, with its snapshot once it is taken. -/
structure SnapshotRequest where
  ticket : Ticket
  snapshot : Option (List PendingFrame) := none
deriving DecidableEq, Repr

/-- The server, the stream and the page.  What was heard since the latest request, and
whether that was made on this stream and is answered, are kept beside it. -/
structure PendingPage where
  server : List String := []
  connected : Bool := false
  inFlight : List PendingMessage := []
  model : PendingModel := {}
  requests : List SnapshotRequest := []
  heard : List PendingMessage := []
  since : Nat := 0
  anchored : Bool := false
  answered : Bool := false

inductive PageEvent where
  /-- The server has a transaction, or an event more of it. -/
  | announce (row : PendingFrame)
  /-- The server resolves a transaction. -/
  | settle (row : PendingFrame)
  /-- The next message arrives. -/
  | deliver (now : Int)
  | request
  /-- The server answers a request with the rows it has. -/
  | serve (id : Nat) (rows : List PendingFrame)
  /-- The answer arrives. -/
  | respond (id : Nat) (now : Int)
  /-- No answer arrives. -/
  | giveUp (id : Nat)
  /-- A timer fires. -/
  | fire (timer : RowTimer)
  | disconnect
  | reconnect

namespace PendingPage

/-- The latest request waits for its answer. -/
def waiting (p : PendingPage) : Bool := p.requests.any (·.ticket.id = p.model.reconcileId)

/-- A message is sent where the stream is up. -/
def send (p : PendingPage) (message : PendingMessage) : PendingPage :=
  if p.connected then { p with inFlight := p.inFlight ++ [message] } else p

/-- The model takes a message. -/
def hear (o : PendingOptions) (m : PendingModel) (now : Int) : PendingMessage → PendingModel
  | .pending row => m.pending o row now
  | .resolved row => m.resolve o row

def step (o : PendingOptions) (p : PendingPage) : PageEvent → Except Unit PendingPage
  | .announce row =>
      if row.txid = "" then throw ()
      else pure ({ p with server := row.txid :: p.server }.send (.pending row))
  | .settle row =>
      if row.txid ∈ p.server then
        pure ({ p with server := p.server.filter (· ≠ row.txid) }.send (.resolved row))
      else throw ()
  | .deliver now =>
      match p.inFlight with
      | [] => throw ()
      | message :: inFlight =>
          pure { p with
            inFlight
            model := hear o p.model now message
            heard := p.heard ++ [message] }
  | .request =>
      let (model, ticket) := p.model.beginReconcile
      pure { p with
        model
        requests := p.requests ++ [⟨ticket, none⟩]
        heard := []
        since := ticket.version
        anchored := p.connected
        answered := false }
  | .serve id rows =>
      if (rows.map PendingFrame.txid).all (· ∈ p.server) ∧
          p.server.all (· ∈ rows.map PendingFrame.txid) then
        pure { p with requests := p.requests.map fun r ↦
          if r.ticket.id = id ∧ r.snapshot = none then { r with snapshot := some rows } else r }
      else throw ()
  | .respond id now =>
      match p.requests.find? fun r ↦ r.ticket.id = id ∧ r.snapshot ≠ none with
      | none => throw ()
      | some r =>
          pure { p with
            model := p.model.applySnapshot o r.ticket (r.snapshot.getD []) now
            requests := p.requests.filter (·.ticket.id ≠ id)
            answered := p.answered || id == p.model.reconcileId }
  | .giveUp id => pure { p with requests := p.requests.filter (·.ticket.id ≠ id) }
  | .fire timer =>
      if timer ∈ p.model.timers then pure { p with model := p.model.fire o timer } else throw ()
  | .disconnect => pure { p with connected := false, inFlight := [], anchored := false }
  | .reconnect => if p.connected then throw () else pure { p with connected := true }

/-- The page shows the transaction as pending. -/
def Shows (p : PendingPage) (txid : String) : Prop :=
  ∃ e, p.model.entries.get? txid = some e ∧ e.unresolved = true

instance (p : PendingPage) (txid : String) : Decidable (p.Shows txid) :=
  decidable_of_iff ((p.model.entries.get? txid).any (·.unresolved) = true) (Option.any_eq_true _ _)

/-- The stream is up, all messages have arrived, and the latest request was made on this
stream and is answered. -/
def quiet (p : PendingPage) : Bool :=
  p.connected && p.inFlight.isEmpty && p.anchored && p.answered

/-- The last message about a transaction. -/
def lastAbout (txid : String) (messages : List PendingMessage) : Option PendingMessage :=
  (messages.filter (·.txid = txid)).getLast?

/-! ## The condition -/

/-- A row whose loss is not missed: it is fading, and no answer that is on its way could bring it
back. -/
def spareRow (p : PendingPage) (e : RowEntry) : Bool :=
  !e.unresolved && (!p.waiting || e.version ≤ p.since)

/-- There is room for a row of the transaction, or the oldest other row is spare. -/
def roomForRow (o : PendingOptions) (p : PendingPage) (txid : String) : Bool :=
  (p.model.entries.erase txid).size < o.live ||
    (p.model.entries.erase txid).entries.head?.all fun e ↦ p.spareRow e.2

/-- There is room for a tombstone of the transaction, or the oldest is not needed by an answer
that is on its way. -/
def roomForTombstone (o : PendingOptions) (p : PendingPage) (txid : String) : Bool :=
  (p.model.tombstones.get? txid).isSome || p.model.tombstones.size < o.live || !p.waiting ||
    p.model.tombstones.entries.head?.all fun e ↦ e.2 ≤ p.since

/-- The transactions that have a row once a snapshot is taken over: those it names, less those
that were resolved since it was asked for, and those that were announced or resolved since. -/
def keptBy (p : PendingPage) (rows : List PendingFrame) : List String :=
  ((rows.map PendingFrame.txid).filter (fun txid ↦
      !(p.model.tombstones.get? txid).any (p.since < ·)) ++
    (p.model.entries.filter fun _ e ↦ p.since < e.version).entries.map Prod.fst).dedup

/-- The condition on a step. -/
def roomy (o : PendingOptions) (p : PendingPage) : PageEvent → Bool
  | .deliver _ =>
      match p.inFlight with
      | .pending row :: _ =>
          (p.model.entries.get? row.txid).any (·.unresolved) || p.roomForRow o row.txid
      | .resolved row :: _ =>
          (p.model.entries.get? row.txid).isSome || p.roomForTombstone o row.txid
      | [] => true
  | .respond id _ =>
      id ≠ p.model.reconcileId || p.requests.all fun r ↦ r.ticket.id ≠ id ||
        (p.keptBy (r.snapshot.getD [])).length ≤ o.live
  | .fire timer =>
      (p.model.entries.get? timer.txid).all fun e ↦ e.generation ≠ timer.generation ||
        p.roomForTombstone o timer.txid &&
          (!p.waiting || !p.anchored || p.since < e.version || timer.txid ∉ p.server ||
            p.inFlight.any (·.txid = timer.txid))
  | _ => true

end PendingPage

end Kascov
