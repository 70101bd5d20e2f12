import Kascov.Lib.InsertionMap

/-!
# The pending transactions in the browser

`core/pending.js`: the model of the mempool that the page keeps.  Messages of the stream
change it one by one, a snapshot replaces it, and what changed after the snapshot was asked
for is kept.  A resolved row stays until its timer fires; what is resolved without a row
leaves a tombstone.
-/

namespace Kascov

/-! ## Frames -/

/-- The fields of an event, under either of their names. -/
structure FrameEvent where
  covenantId : Option String := none
  covenant_id : Option String := none
  txKind : Option String := none
  tx_kind : Option String := none
deriving DecidableEq, Repr

/-- A row of a snapshot or a message of the stream, with its own fields as an event. -/
structure PendingFrame where
  txid : String
  own : FrameEvent := {}
  events : List FrameEvent := []
  resolution : Option String := none
  ts : Option Int := none
  ageMs : Option Int := none
deriving DecidableEq, Repr

/-- A covenant event of a row. -/
structure RowEvent where
  covenantId : String
  txKind : String
deriving DecidableEq, Repr

/-- `a || b`, of texts. -/
def orText (a b : Option String) : Option String :=
  match a with
  | some "" => b
  | some s => some s
  | none => b

/-- The key under which events are the same. -/
def RowEvent.key (e : RowEvent) : String := e.covenantId ++ "\u0001" ++ e.txKind

/-- The first event of each key. -/
def firstOfEach (events : List RowEvent) : List RowEvent :=
  events.foldl (fun seen e ↦ if seen.any (·.key = e.key) then seen else seen ++ [e]) []

/-- `eventsFor`. -/
def eventsFor (row : PendingFrame) : List RowEvent :=
  let source := if row.events = [] then [row.own] else row.events
  firstOfEach (source.filterMap fun event ↦
    match orText event.covenantId event.covenant_id with
    | none | some "" => none
    | some covenantId =>
        some ⟨covenantId, (orText (orText event.txKind event.tx_kind) (some "pending")).getD ""⟩)

/-- `mergeEvents`. -/
def mergeRowEvents (left right : List RowEvent) : List RowEvent := firstOfEach (left ++ right)

/-! ## The model -/

/-- An entry of `entries`. -/
structure RowEntry where
  covenantIds : List String
  events : List RowEvent
  txKind : String
  resolution : Option String
  version : Nat
  generation : Nat
  enteredAt : Int
  timer : Nat
deriving DecidableEq, Repr

/-- The entry shows a pending transaction. -/
def RowEntry.unresolved (e : RowEntry) : Bool := e.resolution = none

/-- A timer that is running, with what its function closes over. -/
structure RowTimer where
  id : Nat
  txid : String
  generation : Nat
  delay : Nat
deriving DecidableEq, Repr

/-- The options of `createPendingModel`. -/
structure PendingOptions where
  rowCap : Option Nat := none
  liveCap : Option Nat := none
  confirmedMs : Option Nat := none
  droppedMs : Option Nat := none

/-- `Number(n) || d`. -/
def orNumber (n : Option Nat) (d : Nat) : Nat :=
  match n with
  | none | some 0 => d
  | some n => n

namespace PendingOptions

def rows (o : PendingOptions) : Nat := max 1 (orNumber o.rowCap 24)

def live (o : PendingOptions) : Nat := max o.rows (orNumber o.liveCap 128)

theorem live_pos (o : PendingOptions) : 0 < o.live :=
  Nat.lt_of_lt_of_le Nat.one_pos (Nat.le_trans (Nat.le_max_left _ _) (Nat.le_max_left _ _))

end PendingOptions

structure PendingModel where
  entries : InsertionMap String RowEntry := {}
  tombstones : InsertionMap String Nat := {}
  mutation : Nat := 0
  reconcileId : Nat := 0
  generation : Nat := 0
  timers : List RowTimer := []
  lastTimer : Nat := 0

/-- What `beginReconcile` gives. -/
structure Ticket where
  id : Nat
  version : Nat
deriving DecidableEq, Repr

namespace PendingModel

/-- `add`, with the time of the clock. -/
def add (m : PendingModel) (row : PendingFrame) (version : Nat) (now : Int) : PendingModel :=
  let events := eventsFor row
  { m with
    generation := m.generation + 1
    entries := m.entries.set row.txid
      { covenantIds := (events.map (·.covenantId)).eraseDups
        events
        txKind := (orText (orText row.own.tx_kind (events.head?.map (·.txKind)))
          (some "pending")).getD ""
        resolution := none
        version
        generation := m.generation + 1
        enteredAt := row.ts.getD now
        timer := 0 } }

/-- `trim`. -/
def trim (o : PendingOptions) (m : PendingModel) : PendingModel :=
  { m with entries := m.entries.trim o.live }

/-- `clearTimer`. -/
def clearTimer (m : PendingModel) (timer : Nat) : PendingModel :=
  { m with timers := m.timers.filter (·.id ≠ timer) }

/-- A tombstone, and the cap on them. -/
def bury (o : PendingOptions) (m : PendingModel) (txid : String) (version : Nat) : PendingModel :=
  { m with tombstones := (m.tombstones.set txid version).trim o.live }

/-- `beginReconcile`. -/
def beginReconcile (m : PendingModel) : PendingModel × Ticket :=
  ({ m with reconcileId := m.reconcileId + 1 }, ⟨m.reconcileId + 1, m.mutation⟩)

/-- The turn of `applySnapshot` at a row, with the rows that come next.  A row that changed
after the ticket is changed in its place as well. -/
def snapshotRow (ticket : Ticket) (now : Int) (acc : PendingModel × InsertionMap String RowEntry)
    (row : PendingFrame) : PendingModel × InsertionMap String RowEntry :=
  let (m, next) := acc
  if row.txid = "" then acc
  else if (m.tombstones.get? row.txid).any (ticket.version < ·) then acc
  else
    let events := eventsFor row
    let fresh : RowEntry :=
      { covenantIds := (events.map (·.covenantId)).eraseDups
        events
        txKind := (orText (orText row.own.tx_kind (events.head?.map (·.txKind)))
          (some "pending")).getD ""
        resolution := none
        version := ticket.version
        generation := m.generation + 1
        enteredAt := (row.ageMs.map fun age ↦ now - max 0 age).getD now
        timer := 0 }
    match (m.entries.get? row.txid).filter (ticket.version < ·.version) with
    | some current =>
        let events := mergeRowEvents events current.events
        let merged := { current with
          events, covenantIds := (events.map (·.covenantId)).eraseDups }
        ({ m with entries := m.entries.set row.txid merged }, next.set row.txid merged)
    | none => ({ m with generation := m.generation + 1 }, next.set row.txid fresh)

/-- The turn of the loop over the rows that were there. -/
def laterRow (ticket : Ticket) (seen : List String) (next : InsertionMap String RowEntry)
    (e : String × RowEntry) : InsertionMap String RowEntry :=
  if ticket.version < e.2.version ∧ e.1 ∉ seen then next.set e.1 e.2 else next

/-- `applySnapshot`. -/
def applySnapshot (o : PendingOptions) (m : PendingModel) (ticket : Ticket)
    (rows : List PendingFrame) (now : Int) : PendingModel :=
  if ticket.id ≠ m.reconcileId then m
  else
    let (m, next) := rows.foldl (snapshotRow ticket now) (m, {})
    trim o
      { m with
        entries := m.entries.entries.foldl (laterRow ticket (rows.map (·.txid))) next
        tombstones := m.tombstones.filter fun _ version ↦ ticket.version < version }

/-- `pending`. -/
def pending (o : PendingOptions) (m : PendingModel) (row : PendingFrame) (now : Int) :
    PendingModel :=
  if row.txid = "" then m
  else
    let m := { m with mutation := m.mutation + 1 }
    let another (m : PendingModel) : PendingModel :=
      trim o (add { m with
        entries := m.entries.erase row.txid
        tombstones := m.tombstones.erase row.txid } row m.mutation now)
    match m.entries.get? row.txid with
    | some prior =>
        if prior.unresolved then
          let events := mergeRowEvents prior.events (eventsFor row)
          { m with
            entries := m.entries.set row.txid
              { prior with
                events
                covenantIds := (events.map (·.covenantId)).eraseDups
                version := m.mutation }
            tombstones := m.tombstones.erase row.txid }
        else if prior.timer ≠ 0 then another (m.clearTimer prior.timer)
        else another m
    | none => another m

/-- `resolve`. -/
def resolve (o : PendingOptions) (m : PendingModel) (row : PendingFrame) : PendingModel :=
  if row.txid = "" then m
  else
    let m := { m with mutation := m.mutation + 1 }
    match m.entries.get? row.txid with
    | none => m.bury o row.txid m.mutation
    | some entry =>
        let resolution := (orText row.resolution (some "confirmed")).getD ""
        let delay := if resolution = "dropped" then orNumber o.droppedMs 700
          else orNumber o.confirmedMs 900
        let m := if entry.timer ≠ 0 then m.clearTimer entry.timer else m
        { m with
          entries := m.entries.set row.txid
            { entry with
              resolution := some resolution
              version := m.mutation
              timer := m.lastTimer + 1 }
          timers := m.timers ++ [⟨m.lastTimer + 1, row.txid, entry.generation, delay⟩]
          lastTimer := m.lastTimer + 1 }

/-- The function of a timer, which is no longer running. -/
def fire (o : PendingOptions) (m : PendingModel) (timer : RowTimer) : PendingModel :=
  let m := m.clearTimer timer.id
  match m.entries.get? timer.txid with
  | none => m
  | some current =>
      if current.generation ≠ timer.generation then m
      else
        bury o { m with
          entries := m.entries.erase timer.txid
          mutation := m.mutation + 1 } timer.txid (m.mutation + 1)

end PendingModel

end Kascov
