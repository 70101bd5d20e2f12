import Kascov.Lib.Fallible
import Kascov.Token.Tables
import Kascov.Store.Blocks

/-!
# The projection worker

`drain_optional_projection_chunk`: the queued covenants are taken in stream
order, and their tokens and minters are derived again.  `rederive_affected` is a
parameter; it writes the token and the market tables, so the drain keeps of its
result those tables and no others.
-/

namespace Kascov

open Fallible

/-- The database with the worker's cursor, `optional_projection_cursor`. -/
structure Projected where
  database : Database
  projectionCursor : Nat := 0
deriving DecidableEq

/-- A fresh index. -/
def Projected.fresh (epoch : StreamEpoch) : Projected :=
  { database := { store := .fresh epoch } }

/-- The database over another store. -/
def Projected.withStore (p : Projected) (s : Store) : Projected :=
  { p with database := { p.database with store := s } }

@[simp] theorem Projected.withStore_store (p : Projected) (s : Store) :
    (p.withStore s).database.store = s := rfl

@[simp] theorem Projected.withStore_derived (p : Projected) (s : Store) :
    (p.withStore s).database.derived = p.database.derived := rfl

/-- Whether a cell of the covenant was stamped with the template, or revealed
it. -/
def hasEvidence (template : String) (s : Store) (id : CovenantId) : Bool :=
  s.covenantUtxos.any fun row ↦
    row.covenantId = id ∧ (row.template = template ∨ row.revealedTemplate = some template)

/-- `has_token_evidence`. -/
def hasTokenEvidence : Store → CovenantId → Bool := hasEvidence "KCC20 token"

/-- `has_minter_evidence`. -/
def hasMinterEvidence : Store → CovenantId → Bool := hasEvidence "KCC20 minter"

/-- `is_token`. -/
def isToken (d : Derived) (id : CovenantId) : Bool := d.tokens.any (·.tokenId = id)

/-- `is_minter`. -/
def isMinter (d : Derived) (id : CovenantId) : Bool :=
  d.tokenMinters.any (·.minterCovenantId = id)

structure ProjectionStatus where
  cursor : StreamCursor
  highWater : StreamCursor
  lag : Nat
  queued : Nat
deriving DecidableEq, Repr

structure ProjectionDrain where
  processed : Nat
  deferred : Bool
  status : ProjectionStatus
deriving DecidableEq, Repr

/-- `optional_projection_status`. -/
def projectionStatus (p : Projected) : ProjectionStatus :=
  let s := p.database.store
  let highWater := s.nextStreamSeq - 1
  { cursor := ⟨s.streamEpoch, p.projectionCursor⟩
    highWater := ⟨s.streamEpoch, highWater⟩
    lag := highWater - p.projectionCursor
    queued := s.optionalProjectionWork.countP (p.projectionCursor < ·.deliveryStreamSeq) }

/-- The chunk of the queue a drain takes. -/
def projectionChunk (p : Projected) (limit : Nat) : List ProjectionWorkRow :=
  ((p.database.store.optionalProjectionWork.filter
      (p.projectionCursor < ·.deliveryStreamSeq)).insertionSort
    fun a b ↦ a.deliveryStreamSeq ≤ b.deliveryStreamSeq).take (clamp limit 1 256)

/-- The covenants of a chunk, as a sorted set. -/
def touchedCovenants (rows : List ProjectionWorkRow) : List CovenantId :=
  (rows.flatMap (·.covenantIds)).dedup.insertionSort (· ≤ ·)

/-- `rederive_affected`: the tables after the minters and the tokens given. -/
abbrev Rederive := Database → List CovenantId → List CovenantId → Result Derived

/-- `drain_optional_projection_chunk`. -/
def drainOptionalProjectionChunk (rederiveAffected : Rederive) (p : Projected)
    (acceptedPending : Bool) (limit : Nat) : Result (Projected × ProjectionDrain) :=
  if acceptedPending then
    .ok (p, { processed := 0, deferred := true, status := projectionStatus p })
  else
    let rows := projectionChunk p limit
    match rows.getLast? with
    | none => .ok (p, { processed := 0, deferred := false, status := projectionStatus p })
    | some last => do
        let db := p.database
        let touched := touchedCovenants rows
        let tokens := touched.filter fun id ↦
          hasTokenEvidence db.store id || isToken db.derived id
        let minters := touched.filter fun id ↦
          hasMinterEvidence db.store id || isMinter db.derived id
        let rederived ← rederiveAffected db minters tokens
        let p' : Projected :=
          { database :=
              { store :=
                  { db.store with
                    optionalProjectionWork := db.store.optionalProjectionWork.filter
                      (last.deliveryStreamSeq < ·.deliveryStreamSeq) }
                derived := { rederived with restingOrders := db.derived.restingOrders } }
            projectionCursor := last.deliveryStreamSeq }
        pure (p', { processed := rows.length, deferred := false, status := projectionStatus p' })

/-- A drain changes the queue, the cursor, and the token and market tables. -/
theorem drainOptionalProjectionChunk_ok {rederiveAffected : Rederive} {p p' : Projected}
    {acceptedPending : Bool} {limit : Nat} {d : ProjectionDrain}
    (h : drainOptionalProjectionChunk rederiveAffected p acceptedPending limit = .ok (p', d)) :
    p'.database.store.covenantUtxos = p.database.store.covenantUtxos ∧
      p'.database.store.covenantEvents = p.database.store.covenantEvents ∧
      p'.database.derived.restingOrders = p.database.derived.restingOrders := by
  unfold drainOptionalProjectionChunk at h
  split at h
  · rw [Except.ok.injEq, Prod.mk.injEq] at h
    obtain ⟨rfl, -⟩ := h
    exact ⟨rfl, rfl, rfl⟩
  · dsimp only at h
    split at h
    · rw [Except.ok.injEq, Prod.mk.injEq] at h
      obtain ⟨rfl, -⟩ := h
      exact ⟨rfl, rfl, rfl⟩
    · obtain ⟨rederived, -, h⟩ := bind_eq_ok.mp h
      rw [pure_eq_ok, Prod.mk.injEq] at h
      obtain ⟨rfl, -⟩ := h
      exact ⟨rfl, rfl, rfl⟩

end Kascov
