import Mathlib.Data.List.Basic

/-!
# The canonical writer

A network has one writer, the follower, which owns the store.  A handler that changes the store
sends it a mutation over a bounded channel and waits for the answer; what it waits for can be
too late, and then the two race over one atomic word.

The model is the interleaving of the callers of `WriterHandle::mutate`, their timers, and the
follower that receives and applies, over any store and any answer.
-/

namespace Kascov

variable {σ ρ : Type}

/-! ## A call of `mutate` -/

/-- The atomic word of a mutation: `MUTATION_QUEUED`, `MUTATION_RUNNING`, `MUTATION_CANCELED`. -/
inductive MutationState
  | queued
  | running
  | canceled
deriving DecidableEq, Repr

/-- The one-shot channel of a mutation, as its receiver finds it. -/
inductive Oneshot (ρ : Type)
  | empty
  | sent (result : ρ)
  | dropped
deriving DecidableEq, Repr

/-- What `mutate` fails with, an error of the operation aside. -/
inductive MutateError
  | full
  | closed
  | stopped
  | timedOut
deriving DecidableEq, Repr

def MutateError.text : MutateError → String
  | .full => "canonical writer unavailable: no available capacity"
  | .closed => "canonical writer unavailable: channel closed"
  | .stopped => "canonical writer stopped before mutation completed"
  | .timedOut => "canonical writer mutation timed out"

/-- Where a call stands: within its timeout, behind it and before the exchange, behind a lost
exchange, answered, or dropped together with the future it is part of. -/
inductive Caller (ρ : Type)
  | waiting
  | expired
  | awaiting
  | told (outcome : Except MutateError ρ)
  | gone
deriving DecidableEq

/-- A `WriterMutation`, with its caller. -/
structure WriterCall (σ ρ : Type) where
  operation : σ → σ × ρ
  state : MutationState
  result : Oneshot ρ
  caller : Caller ρ

namespace WriterCall

/-- `try_send` took the mutation. -/
def sent (operation : σ → σ × ρ) : WriterCall σ ρ := ⟨operation, .queued, .empty, .waiting⟩

/-- `try_send` gave it back. -/
def refused (operation : σ → σ × ρ) (error : MutateError) : WriterCall σ ρ :=
  ⟨operation, .queued, .dropped, .told (.error error)⟩

/-- The writer's exchange in `WriterMutation::apply`.  A mutation that lost it is dropped with
its end of the one-shot channel. -/
def claim (call : WriterCall σ ρ) : WriterCall σ ρ :=
  match call.state with
  | .queued => { call with state := .running }
  | .running | .canceled => { call with result := .dropped }

/-- The operation sends what it gives. -/
def send (result : ρ) (call : WriterCall σ ρ) : WriterCall σ ρ :=
  { call with result := .sent result }

def drop (call : WriterCall σ ρ) : WriterCall σ ρ := { call with result := .dropped }

/-- The caller looks into the one-shot channel. -/
def poll (call : WriterCall σ ρ) : WriterCall σ ρ :=
  match call.result with
  | .empty => call
  | .sent result => { call with caller := .told (.ok result) }
  | .dropped => { call with caller := .told (.error .stopped) }

/-- The caller is woken up for an answer. -/
def answer (call : WriterCall σ ρ) : WriterCall σ ρ :=
  match call.caller with
  | .waiting | .awaiting => call.poll
  | _ => call

/-- The caller is woken up by its timer.  `timeout` looks into the channel first. -/
def expire (call : WriterCall σ ρ) : WriterCall σ ρ :=
  match call.caller, call.result with
  | .waiting, .empty => { call with caller := .expired }
  | .waiting, _ => call.poll
  | _, _ => call

/-- The caller's exchange.  When it is lost, the writer has begun, and the caller waits on. -/
def cancel (call : WriterCall σ ρ) : WriterCall σ ρ :=
  match call.caller, call.state with
  | .expired, .queued => { call with state := .canceled, caller := .told (.error .timedOut) }
  | .expired, _ => { call with caller := .awaiting }
  | _, _ => call

/-- The caller's future is dropped where it waits. -/
def abandon (call : WriterCall σ ρ) : WriterCall σ ρ :=
  match call.caller with
  | .waiting | .awaiting => { call with caller := .gone }
  | _ => call

end WriterCall

/-! ## The writer -/

/-- What the writer ran on the store: work of its own, and operations. -/
inductive Ran (σ ρ : Type)
  | pass (work : σ → σ)
  | mutation (id : Nat) (operation : σ → σ × ρ)

def Ran.id? : Ran σ ρ → Option Nat
  | .pass _ => none
  | .mutation id _ => some id

def Ran.effect (s : σ) : Ran σ ρ → σ
  | .pass work => work s
  | .mutation _ operation => (operation s).1

/-- The store that a log leaves. -/
def replay (s : σ) (log : List (Ran σ ρ)) : σ := log.foldl Ran.effect s

/-- Between two awaits the writer has nothing, a mutation it received, or one it runs. -/
inductive WriterTurn
  | idle
  | holding (id : Nat)
  | running (id : Nat)
deriving DecidableEq, Repr

/-- The channel, the writer and its store, and all calls there have been.  A call's id is its
place among them.  Nothing reads the log. -/
structure WriterWorld (σ ρ : Type) where
  capacity : Nat
  store : σ
  calls : List (WriterCall σ ρ)
  queue : List Nat
  turn : WriterTurn
  closed : Bool
  log : List (Ran σ ρ)

/-- What may happen next. -/
inductive WriterAction (σ ρ : Type)
  | mutate (operation : σ → σ × ρ)
  | recv
  | claim
  | operate
  | pass (work : σ → σ)
  | answer (id : Nat)
  | expire (id : Nat)
  | cancel (id : Nat)
  | abandon (id : Nat)
  | close

namespace WriterWorld

/-- `writer_channel`. -/
def start (capacity : Nat) (store : σ) : WriterWorld σ ρ :=
  ⟨capacity, store, [], [], .idle, false, []⟩

/-- Calls are changed. -/
def update (ids : List Nat) (f : WriterCall σ ρ → WriterCall σ ρ) (w : WriterWorld σ ρ) :
    WriterWorld σ ρ :=
  { w with calls := w.calls.mapIdx fun i call ↦ if i ∈ ids then f call else call }

/-- `WriterHandle::mutate`, up to its first wait. -/
def mutate (operation : σ → σ × ρ) (w : WriterWorld σ ρ) : WriterWorld σ ρ :=
  if w.closed then
    { w with calls := w.calls ++ [.refused operation .closed] }
  else if w.capacity ≤ w.queue.length then
    { w with calls := w.calls ++ [.refused operation .full] }
  else
    { w with calls := w.calls ++ [.sent operation], queue := w.queue ++ [w.calls.length] }

/-- The writer receives the next mutation. -/
def recv (w : WriterWorld σ ρ) : WriterWorld σ ρ :=
  match w.turn, w.queue with
  | .idle, id :: rest => { w with turn := .holding id, queue := rest }
  | _, _ => w

/-- `WriterMutation::apply`, its exchange. -/
def claim (w : WriterWorld σ ρ) : WriterWorld σ ρ :=
  match w.turn with
  | .holding id =>
      let turn := match w.calls[id]? with
        | some call => if call.state = .queued then .running id else .idle
        | none => .idle
      { w with turn }.update [id] .claim
  | _ => w

/-- `WriterMutation::apply`, its operation. -/
def operate (w : WriterWorld σ ρ) : WriterWorld σ ρ :=
  match w.turn with
  | .running id =>
      match w.calls[id]? with
      | some call =>
          let ran : WriterWorld σ ρ := { w with
            store := (call.operation w.store).1
            turn := .idle
            log := w.log ++ [.mutation id call.operation] }
          ran.update [id] (.send (call.operation w.store).2)
      | none => w
  | _ => w

/-- Between mutations the writer works for itself. -/
def pass (work : σ → σ) (w : WriterWorld σ ρ) : WriterWorld σ ρ :=
  match w.turn with
  | .idle => { w with store := work w.store, log := w.log ++ [.pass work] }
  | _ => w

/-- The writer ends, and what is in the channel is dropped. -/
def close (w : WriterWorld σ ρ) : WriterWorld σ ρ :=
  match w.turn with
  | .idle => { w with closed := true, queue := [] }.update w.queue .drop
  | _ => w

def step (w : WriterWorld σ ρ) : WriterAction σ ρ → WriterWorld σ ρ
  | .mutate operation => w.mutate operation
  | .recv => w.recv
  | .claim => w.claim
  | .operate => w.operate
  | .pass work => w.pass work
  | .answer id => w.update [id] .answer
  | .expire id => w.update [id] .expire
  | .cancel id => w.update [id] .cancel
  | .abandon id => w.update [id] .abandon
  | .close => w.close

def run (w : WriterWorld σ ρ) (actions : List (WriterAction σ ρ)) : WriterWorld σ ρ :=
  actions.foldl step w

/-- The ids of the operations that ran, in order. -/
def ran (w : WriterWorld σ ρ) : List Nat := w.log.filterMap Ran.id?

end WriterWorld

end Kascov
