import Kascov.Feed.LiveFilter
import Kascov.Lib.Told
import Kascov.Sync.Published

/-!
# A live stream

`stream.rs`: a client subscribes to the hub, reads where the log ends, is replayed the log
up to there page by page, and then follows what the hub sends.  The follower commits, and
the hub sends what was published, at any moment in between; a client that is cut off comes
back with the last id it received.
-/

namespace Kascov

/-- `DELIVERY_BUFFER`. -/
def deliveryBuffer : Nat := 1024

/-- `MAX_STREAM_EVENT_BYTES`. -/
def maxStreamEventBytes : Nat := 1024 * 1024

/-! ## Where a stream starts -/

/-- `StreamStart`. -/
inductive StreamStart where
  | ready (cursor : StreamCursor)
  | reset (reason : String) (current : StreamCursor)
deriving DecidableEq

/-- `select_stream_start`, for the cursors that the `Last-Event-ID` header and the `after`
parameter carry. -/
def selectStreamStart (lastEventId after : Option StreamCursor) (info : DeliveryStreamInfo) :
    StreamStart :=
  let cursor := (lastEventId.or after).getD info.current
  match info.classify cursor with
  | .valid =>
      if info.earliest.any fun earliest ↦ min (cursor.seq + 1) (2 ^ 64 - 1) < earliest.seq then
        .reset "history_unavailable" info.current
      else
        .ready cursor
  | .foreignEpoch => .reset "foreign_epoch" info.current
  | .ahead => .reset "ahead" info.current

/-! ## The loop of a stream -/

variable {π : Type}

/-- `StreamFrame`, with pending messages in `π`. -/
inductive StreamFrame (π : Type) where
  | delivery (record : DeliveryRecord)
  | checkpoint (cursor : StreamCursor)
  | pending (message : π)

namespace StreamFrame

/-- The id its event carries. -/
def id : StreamFrame π → Option StreamCursor
  | delivery record => some record.cursor
  | checkpoint cursor => some cursor
  | pending _ => none

def record : StreamFrame π → Option DeliveryRecord
  | delivery record => some record
  | checkpoint _ => none
  | pending _ => none

end StreamFrame

/-- A request for a stream, and what the server measures of its frames: the bytes of their
JSON, and whether a pending message matches a filter. -/
structure StreamRequest (π : Type) where
  after : Option StreamCursor
  filter : DeliveryFilter
  replayPageSize : Nat
  recordBytes : DeliveryRecord → Nat
  messageBytes : π → Nat
  pendingMatches : π → DeliveryFilter → Bool

/-- `ReplayState`. -/
structure ReplayState where
  cursor : StreamCursor
  through : StreamCursor
  lastEmitted : StreamCursor
deriving DecidableEq

/-- `DurableStreamState`, less its receivers. -/
structure DurableStreamState (π : Type) where
  replay : Option ReplayState
  discardThrough : StreamCursor
  queued : List (StreamFrame π) := []
  liveCheckpoint : Option StreamCursor := none
  liveCheckpointCount : Nat := 0

/-- What one turn of the loop of `next_stream_frame` comes to. -/
inductive StreamTurn (π : Type) where
  | yields (frame : StreamFrame π) (state : DurableStreamState π)
  | goes (state : DurableStreamState π)
  | ends

section Loop

variable (request : StreamRequest π)

/-- The state a stream opens in. -/
def openStream (after : StreamCursor) (info : DeliveryStreamInfo) : DurableStreamState π where
  replay := if after.seq < info.current.seq then some ⟨after, info.current, after⟩ else none
  discardThrough := info.current

/-- `replay_page`. -/
def replayPage (s : Store) (after through : StreamCursor) (pageSize : Nat) :
    Result (List DeliveryRecord) := do
  let page ← deliveryReplayPage s (some after) pageSize
  return page.filter (·.cursor.seq ≤ through.seq)

/-- One record of a page. -/
def queueReplayed (acc : StreamCursor × List (StreamFrame π)) (record : DeliveryRecord) :
    StreamCursor × List (StreamFrame π) :=
  if deliveryMatches record request.filter then (record.cursor, acc.2 ++ [.delivery record])
  else acc

/-- The replay of one page. -/
def replayTurn (s : Store) (state : DurableStreamState π) (replay : ReplayState) :
    StreamTurn π :=
  match replayPage s replay.cursor replay.through request.replayPageSize with
  | .error _ => .ends
  | .ok page =>
      match page.getLast? with
      | none => .ends
      | some last =>
          let scannedTo := last.cursor
          let (lastEmitted, queued) :=
            page.foldl (queueReplayed request) (replay.lastEmitted, state.queued)
          if request.filter ≠ {} ∧ lastEmitted.seq < scannedTo.seq then
            .goes { state with
              replay := some ⟨scannedTo, replay.through, scannedTo⟩
              queued := queued ++ [.checkpoint scannedTo] }
          else
            .goes { state with replay := some ⟨scannedTo, replay.through, lastEmitted⟩, queued }

/-- A turn of the loop up to its `select!`. -/
def streamTurn (s : Store) (state : DurableStreamState π) : StreamTurn π :=
  match state.queued with
  | frame :: rest => .yields frame { state with queued := rest }
  | [] =>
      match state.replay with
      | some replay =>
          if replay.cursor.seq < replay.through.seq then replayTurn request s state replay
          else .goes { state with replay := none }
      | none => .goes state

/-- Whether the loop is at its `select!`. -/
def DurableStreamState.waiting (state : DurableStreamState π) : Bool :=
  state.queued.isEmpty && state.replay.isNone

/-- The `select!` on a record of the hub. -/
def liveTurn (state : DurableStreamState π) (record : DeliveryRecord) : StreamTurn π :=
  if record.cursor.epoch = state.discardThrough.epoch ∧
      record.cursor.seq ≤ state.discardThrough.seq then
    .goes state
  else if deliveryMatches record request.filter then
    .yields (.delivery record) { state with liveCheckpoint := none, liveCheckpointCount := 0 }
  else if request.filter ≠ {} then
    let count := min (state.liveCheckpointCount + 1) (2 ^ 16 - 1)
    if request.replayPageSize % 2 ^ 16 ≤ count then
      .yields (.checkpoint record.cursor)
        { state with liveCheckpoint := none, liveCheckpointCount := 0 }
    else
      .goes { state with liveCheckpoint := some record.cursor, liveCheckpointCount := count }
  else
    .goes state

/-- The `select!` on a pending message. -/
def pendingTurn (state : DurableStreamState π) (message : π) : StreamTurn π :=
  if request.pendingMatches message request.filter then .yields (.pending message) state
  else .goes state

/-- The `select!` on the timer of a checkpoint, which runs when there is one. -/
def timerTurn (state : DurableStreamState π) : StreamTurn π :=
  match state.liveCheckpoint with
  | some cursor => .yields (.checkpoint cursor)
      { state with liveCheckpoint := none, liveCheckpointCount := 0 }
  | none => .goes state

/-- What becomes of a frame. -/
inductive FrameFate where
  | sent
  | skipped
  | closes
deriving DecidableEq

/-- `stream_frame_event`, as far as it decides whether an event is sent. -/
def streamFrameEvent : StreamFrame π → FrameFate
  | .delivery record =>
      if maxStreamEventBytes < request.recordBytes record then .closes else .sent
  | .checkpoint _ => .sent
  | .pending message =>
      if request.messageBytes message ≤ maxStreamEventBytes then .sent else .skipped

end Loop

/-! ## The connection -/

/-- The receiver of a connection, whether it has lagged, and the frames on their way to the
client. -/
structure Channel (π : Type) where
  rx : List DeliveryRecord := []
  lagged : Bool := false
  wire : List (StreamFrame π) := []

/-- A connection, with its stream once that is open. -/
structure Connection (π : Type) extends Channel π where
  stream : Option (DurableStreamState π) := none

namespace Connection

variable (request : StreamRequest π)

/-- A broadcast reaches the receiver, which loses the oldest record when it is full. -/
def offer (c : Connection π) (record : DeliveryRecord) : Connection π :=
  if c.rx.length < deliveryBuffer then { c with rx := c.rx ++ [record] }
  else { c with rx := c.rx.tail ++ [record], lagged := true }

/-- The connection after a turn; there is none when the stream has ended. -/
def settle (c : Connection π) : StreamTurn π → Option (Connection π)
  | .ends => none
  | .goes state => some { c with stream := some state }
  | .yields frame state =>
      match streamFrameEvent request frame with
      | .sent => some { c with stream := some state, wire := c.wire ++ [frame] }
      | .skipped => some { c with stream := some state }
      | .closes => none

/-- A turn of the loop. -/
def turn (s : Store) (c : Connection π) : Option (Connection π) :=
  match c.stream with
  | some state => c.settle request (streamTurn request s state)
  | none => some c

/-- The receiver is asked for its next record. -/
def recv (c : Connection π) : Option (Connection π) :=
  match c.stream with
  | some state =>
      if state.waiting then
        if c.lagged then none
        else
          match c.rx with
          | record :: rest => { c with rx := rest }.settle request (liveTurn request state record)
          | [] => some c
      else some c
  | none => some c

/-- Another event of the `select!`. -/
def select (c : Connection π) (turn : DurableStreamState π → StreamTurn π) :
    Option (Connection π) :=
  match c.stream with
  | some state => if state.waiting then c.settle request (turn state) else some c
  | none => some c

end Connection

/-! ## The system -/

/-- The follower's side: what has been committed, what is to come, and the records published
that the hub has not sent yet. -/
structure Publishing where
  epoch : StreamEpoch
  done : List FollowerEvent
  upcoming : List FollowerEvent
  unsent : List DeliveryRecord

/-- A store with this log. -/
def logStore (epoch : StreamEpoch) (log : List DeliveryRecord) : Store :=
  { Store.fresh epoch with deliveryLog := log, nextStreamSeq := log.length + 1 }

namespace Publishing

def log (p : Publishing) : List DeliveryRecord := p.done.flatMap FollowerEvent.records

def published (p : Publishing) : List DeliveryRecord := p.done.flatMap FollowerEvent.published

/-- What a reader finds in the store. -/
def store (p : Publishing) : Store := logStore p.epoch p.log

/-- The next commit. -/
def commit (p : Publishing) : Publishing :=
  match p.upcoming with
  | [] => p
  | event :: rest => { p with
      done := p.done ++ [event]
      upcoming := rest
      unsent := p.unsent ++ event.published }

end Publishing

/-- The client's side: what it has received.  `origin` is the cursor it started at when it had
no id yet, and `ranges` are the stretches of the log it asked for. -/
structure Reader (π : Type) where
  received : List (StreamFrame π) := []
  origin : Nat := 0
  ranges : List (Nat × Nat) := []

/-- The last id received, which a client that comes back sends as `Last-Event-ID`. -/
def Reader.lastEventId (r : Reader π) : Option StreamCursor :=
  (r.received.filterMap StreamFrame.id).getLast?

structure StreamWorld (π : Type) where
  hub : Publishing
  reader : Reader π := {}
  connection : Option (Connection π) := none

/-- What may happen next. -/
inductive StreamAction (π : Type) where
  | commit
  | send
  | subscribe
  | start
  | turn
  | recv
  | pending (message : π)
  | timer
  | arrive
  | drop

namespace StreamWorld

variable (request : StreamRequest π)

/-- The stream is opened, or there is nothing to open. -/
def start (w : StreamWorld π) (c : Connection π) : StreamWorld π :=
  match deliveryStreamInfo w.hub.store with
  | .error _ => { w with connection := none }
  | .ok info =>
      match selectStreamStart w.reader.lastEventId request.after info with
      | .reset _ _ => { w with connection := none }
      | .ready after => { w with
          connection := some { c with stream := some (openStream after info) }
          reader := { w.reader with
            origin := if w.reader.lastEventId.isSome then w.reader.origin else after.seq
            ranges := (after.seq, info.current.seq) :: w.reader.ranges } }

def step (w : StreamWorld π) : StreamAction π → StreamWorld π
  | .commit => { w with hub := w.hub.commit }
  | .send =>
      match w.hub.unsent with
      | [] => w
      | record :: rest => { w with
          hub := { w.hub with unsent := rest }
          connection := w.connection.map (·.offer record) }
  | .subscribe => { w with connection := w.connection.or (some {}) }
  | .start =>
      match w.connection with
      | some c => if c.stream.isNone then w.start request c else w
      | none => w
  | .turn => { w with connection := w.connection.bind (·.turn request w.hub.store) }
  | .recv => { w with connection := w.connection.bind (·.recv request) }
  | .pending message => { w with
      connection := w.connection.bind (·.select request (pendingTurn request · message)) }
  | .timer => { w with connection := w.connection.bind (·.select request timerTurn) }
  | .arrive =>
      match w.connection with
      | some c =>
          match c.wire with
          | [] => w
          | frame :: rest => { w with
              connection := some { c with wire := rest }
              reader := { w.reader with received := w.reader.received ++ [frame] } }
      | none => w
  | .drop => { w with connection := none }

def run (w : StreamWorld π) (actions : List (StreamAction π)) : StreamWorld π :=
  actions.foldl (step request) w

/-- Before anything has happened. -/
def init (epoch : StreamEpoch) (events : List FollowerEvent) : StreamWorld π where
  hub := ⟨epoch, [], events, []⟩

/-- A stream of a run of the follower. -/
def streamed (compute : ComputeCovenantId) (dec : Decoders) (epoch : StreamEpoch)
    (calls : List FollowerCall) (actions : List (StreamAction π)) : StreamWorld π :=
  (init epoch (followerRun compute dec (.fresh epoch, []) calls).2).run request actions

/-- Whether the client can learn of a record: it is published, or in a stretch asked for. -/
def shows (hub : Publishing) (reader : Reader π) (r : DeliveryRecord) : Bool :=
  r ∈ hub.published || reader.ranges.any fun range ↦ range.1 < r.cursor.seq ∧ r.cursor.seq ≤ range.2

end StreamWorld

end Kascov
