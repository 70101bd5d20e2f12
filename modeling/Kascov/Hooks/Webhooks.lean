import Kascov.Lib.InsertionMap
import Kascov.Preflight.Fields
import Kascov.Writer.Mutation

/-!
# Webhooks

A webhook subscription is a row that a handler has the canonical writer insert.  The delivery
loop posts every event to the rows that match it, counts the failures in a row, and has the
writer delete a row that failed too often; its owner deletes it with the secret that the
handler gave out.

The handlers, the loop and the writer run beside each other, and meet in the writer's channel.
-/

namespace Kascov

open Preflight (trimText)

/-! ## The table -/

/-- A row of `webhook_subscriptions`. -/
structure Subscription where
  id : Nat
  covenantId : Option Bytes
  kind : Option String
  url : String
  secret : Option String
  createdAt : Nat
deriving DecidableEq

/-- `webhook_subscriptions`, with the last id that was given out: the key is `AUTOINCREMENT`. -/
structure Subscriptions where
  rows : List Subscription
  seq : Nat
  increasing : rows.Pairwise (·.id < ·.id)
  bound : ∀ row ∈ rows, row.id ≤ seq

/-- The greatest rowid.  An insert behind it fails. -/
def maxRowid : Nat := 2 ^ 63 - 1

/-- What a caller-facing unsubscribe attempt did. -/
inductive UnsubscribeOutcome
  | deleted
  | notFound
  | wrongSecret
deriving DecidableEq, Repr

/-- What the store answers the handlers and the delivery loop. -/
inductive HookAnswer
  | added (id : Nat)
  | unsubscribed (outcome : UnsubscribeOutcome)
  | deleted (deleted : Bool)
  | failed
deriving DecidableEq, Repr

namespace Subscriptions

/-- `Store::add_subscription`. -/
def addSubscription (covenantId : Option Bytes) (kind : Option String) (url : String)
    (secret : Option String) (nowMs : Nat) (t : Subscriptions) : Subscriptions × HookAnswer :=
  if t.seq < maxRowid then
    ({ rows := t.rows ++ [⟨t.seq + 1, covenantId, kind, url, secret, nowMs⟩]
       seq := t.seq + 1
       increasing := List.pairwise_append.mpr ⟨t.increasing, List.pairwise_singleton _ _,
         fun row hrow new hnew ↦ by
           rw [List.mem_singleton.mp hnew]
           exact Nat.lt_succ_of_le (t.bound row hrow)⟩
       bound := fun row hrow ↦ by
         rcases List.mem_append.mp hrow with hrow | hrow
         · exact Nat.le_succ_of_le (t.bound row hrow)
         · rw [List.mem_singleton.mp hrow] },
      .added (t.seq + 1))
  else (t, .failed)

/-- `DELETE FROM webhook_subscriptions WHERE id = ?1`. -/
def delete (id : Nat) (t : Subscriptions) : Subscriptions where
  rows := t.rows.filter (·.id ≠ id)
  seq := t.seq
  increasing := t.increasing.sublist List.filter_sublist
  bound row hrow := t.bound row (List.mem_of_mem_filter hrow)

/-- `Store::delete_subscription`. -/
def deleteSubscription (id : Nat) (t : Subscriptions) : Subscriptions × HookAnswer :=
  (t.delete id, .deleted (t.rows.any (·.id = id)))

/-- `Store::delete_subscription_secured`. -/
def deleteSubscriptionSecured (id : Nat) (secret : Option String) (t : Subscriptions) :
    Subscriptions × HookAnswer :=
  match t.rows.find? (·.id = id) with
  | none => (t, .unsubscribed .notFound)
  | some row =>
      match row.secret with
      | some stored =>
          if secret ≠ some stored then (t, .unsubscribed .wrongSecret)
          else (t.delete id, .unsubscribed .deleted)
      | none => (t.delete id, .unsubscribed .deleted)

/-- `Store::subscriptions_matching`. -/
def subscriptionsMatching (covenantId : Bytes) (kind : String) (t : Subscriptions) :
    List Subscription :=
  t.rows.filter fun row ↦ (row.covenantId.isNone ∨ row.covenantId = some covenantId) ∧
    (row.kind.isNone ∨ row.kind = some kind)

end Subscriptions

/-! ## The handlers -/

/-- What is asked of the writer. -/
inductive HookRequest
  | subscribe (covenantId : Option Bytes) (kind : Option String) (url secret : String)
      (nowMs : Nat)
  | unsubscribe (id : Nat) (secret : Option String)
  | retire (id : Nat)
deriving DecidableEq

/-- The closure that is sent. -/
def HookRequest.operation : HookRequest → Subscriptions → Subscriptions × HookAnswer
  | .subscribe covenantId kind url secret nowMs, t =>
      t.addSubscription covenantId kind url (some secret) nowMs
  | .unsubscribe id secret, t => t.deleteSubscriptionSecured id secret
  | .retire id, t => t.deleteSubscription id

structure SubscribeReq where
  covenantId : Option String
  kind : Option String
  url : String

/-- What `subscribe_handler` refuses. -/
inductive SubscribeError
  | url
  | kind
  | covenantId
deriving DecidableEq, Repr

def SubscribeError.text : SubscribeError → String
  | .url => "a valid http(s) url is required"
  | .kind => "kind must be genesis, transition or burn (or omitted for all kinds)"
  | .covenantId => "covenant_id must be 64 hex characters (or omitted for all events)"

/-- The kinds that an event can have. -/
def hookKinds : List String := ["genesis", "transition", "burn"]

/-- `subscribe_handler`, up to the writer: the request, with a fresh secret. -/
def subscribeHandler (req : SubscribeReq) (secret : String) (nowMs : Nat) :
    Except SubscribeError HookRequest :=
  if 500 < req.url.utf8ByteSize ∨ ¬ "http".toList <+: req.url.toList then .error .url
  else if req.kind.any (· ∉ hookKinds) then .error .kind
  else match req.covenantId with
    | none => .ok (.subscribe none req.kind req.url secret nowMs)
    | some s =>
        match hexBytes (trimText s.toList) with
        | some bytes =>
            if bytes.length = 32 then .ok (.subscribe (some bytes) req.kind req.url secret nowMs)
            else .error .covenantId
        | none => .error .covenantId

/-! ## The delivery loop -/

/-- `WEBHOOK_MAX_FAILURES`. -/
def webhookMaxFailures : Nat := 10

/-- `deliver_webhook`: the target must be allowed, and one of three posts must succeed. -/
def deliverWebhook (allowed : Bool) (posts : List Bool) : Bool := allowed && (posts.take 3).any id

/-- The writer, the requests that its calls stand for, and `webhook_delivery_forever`: its
failure counts, the rows that are left of the event at hand, and the call it waits for.  Nothing
reads the deliveries. -/
structure HookWorld where
  writer : WriterWorld Subscriptions HookAnswer
  requests : List HookRequest
  failures : InsertionMap Nat Nat
  pending : List Subscription
  retiring : Option Nat
  deliveries : List (Nat × Bool)

/-- What the callers and the writer do on their own.  Nothing else writes the table. -/
def WriterAction.Internal {σ ρ : Type} : WriterAction σ ρ → Prop
  | .mutate _ | .pass _ => False
  | _ => True

inductive HookAction
  | subscribe (req : SubscribeReq) (secret : String) (nowMs : Nat)
  | unsubscribe (id : Nat) (secret : Option String)
  | event (covenantId : Bytes) (kind : String)
  | deliver (allowed : Bool) (posts : List Bool)
  | resume
  | writer (action : WriterAction Subscriptions HookAnswer) (internal : action.Internal)

namespace HookWorld

def start (capacity : Nat) (table : Subscriptions) : HookWorld :=
  ⟨.start capacity table, [], {}, [], none, []⟩

/-- A call of `mutate`. -/
def request (r : HookRequest) (w : HookWorld) : HookWorld :=
  { w with writer := w.writer.mutate r.operation, requests := w.requests ++ [r] }

/-- The loop takes an event and looks up who wants it. -/
def event (covenantId : Bytes) (kind : String) (w : HookWorld) : HookWorld :=
  match w.pending, w.retiring with
  | [], none =>
      { w with pending := w.writer.store.subscriptionsMatching covenantId kind }
  | _, _ => w

/-- The loop has posted to the next row. -/
def deliver (allowed : Bool) (posts : List Bool) (w : HookWorld) : HookWorld :=
  match w.pending, w.retiring with
  | row :: rest, none =>
      let delivered := deliverWebhook allowed posts
      let w := { w with pending := rest, deliveries := w.deliveries ++ [(row.id, delivered)] }
      if delivered then { w with failures := w.failures.erase row.id }
      else
        let n := (w.failures.get? row.id).getD 0 + 1
        if webhookMaxFailures ≤ n then
          { w with
            failures := w.failures.erase row.id
            retiring := some w.requests.length }.request (.retire row.id)
        else { w with failures := w.failures.set row.id n }
  | _, _ => w

/-- What a caller was told. -/
def Told (w : HookWorld) (i : Nat) (answer : HookAnswer) : Prop :=
  ∃ call, w.writer.calls[i]? = some call ∧ call.caller = .told (.ok answer)

/-- The loop goes on when its call is answered, however. -/
def resume (w : HookWorld) : HookWorld :=
  match w.retiring with
  | some i =>
      match w.writer.calls[i]? with
      | some ⟨_, _, _, .told _⟩ => { w with retiring := none }
      | _ => w
  | none => w

def step (w : HookWorld) : HookAction → HookWorld
  | .subscribe req secret nowMs =>
      match subscribeHandler req secret nowMs with
      | .ok r => w.request r
      | .error _ => w
  | .unsubscribe id secret => w.request (.unsubscribe id secret)
  | .event covenantId kind => w.event covenantId kind
  | .deliver allowed posts => w.deliver allowed posts
  | .resume => w.resume
  | .writer action _ => { w with writer := w.writer.step action }

def run (w : HookWorld) (actions : List HookAction) : HookWorld := actions.foldl step w

end HookWorld

end Kascov
