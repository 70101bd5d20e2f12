import Kascov.Decode.Registry
import Kascov.Orders.Program
import Kascov.Store.Blocks

/-!
# The resting order of a covenant

`derive_resting_order`: the row a covenant has by what its cells and its events
prove, and the write that leaves the table with it.  Cells of one age are
scanned in rowid order.
-/

namespace Kascov

variable (blake2b : Bytes → Bytes)

/-- The order program a spent cell revealed. -/
def revealedOrder (row : UtxoRow) : Option OrderParams :=
  (row.spentSig.bind (p2shReveal blake2b row.spkScript)).bind matchKcmOrder

/-- The cells scanned for the posted offer: the oldest eight with a reveal. -/
def scannedCells (s : Store) (id : CovenantId) : List UtxoRow :=
  ((s.covenantUtxos.filter fun row ↦ row.covenantId = id ∧ row.spentSig.isSome).insertionSort
    fun a b ↦ a.createdDaa ≤ b.createdDaa).take 8

/-- The posted offer, with the cell whose spend revealed it. -/
def postedOrder (s : Store) (id : CovenantId) : Option (OrderParams × UtxoRow) :=
  (scannedCells s id).findSome? fun row ↦
    (revealedOrder blake2b row).map fun order ↦ (order, row)

/-- Whether a live cell still commits to the order program. -/
def orderLive (s : Store) (id : CovenantId) (orderSpk : Bytes) : Bool :=
  s.covenantUtxos.any fun row ↦
    row.covenantId = id ∧ row.spentBlock = none ∧ row.spkScript = orderSpk

/-- `MAX(accepting_daa)` over the events of the transactions that spent the
cells of the covenant. -/
def resolvingDaa (s : Store) (id : CovenantId) : Option Nat :=
  ((s.covenantEvents.filter fun e ↦ e.covenantId = id ∧
    ∃ row ∈ s.covenantUtxos, row.covenantId = id ∧ row.spentTxid = some e.txid).map
      (·.acceptingDaa)).max?

/-- The row of an order in a state. -/
def orderRow (id : CovenantId) (order : OrderParams) (createdDaa : Nat) (state : OrderState)
    (resolvedDaa : Option Nat) : RestingOrder :=
  { covenantId := id
    tokenId := ⟨order.tokenCovenantId.hash⟩
    side := .sell
    priceNum := order.priceSompi
    priceDen := order.size
    amount := order.size
    maker := order.maker.hash
    expiryDaa := order.expiryDaa
    state
    createdDaa
    resolvedDaa }

/-- The row the derivation leaves for a covenant, if it leaves one. -/
def provenOrder (s : Store) (id : CovenantId) : Option RestingOrder :=
  (postedOrder blake2b s id).bind fun (order, row) ↦
    if orderLive s id row.spkScript then some (orderRow id order row.createdDaa .open none)
    else
      (resolvingDaa s id).map fun daa : Nat ↦
        orderRow id order row.createdDaa
          (if (daa : Int) ≤ order.expiryDaa then .filled else .cancelled) (some daa)

/-- `derive_resting_order`: a `DELETE`, or an `INSERT OR REPLACE`. -/
def deriveRestingOrder (db : Database) (id : CovenantId) : Database :=
  { db with
    derived :=
      { db.derived with
        restingOrders := db.derived.restingOrders.filter (·.covenantId ≠ id) ++
          (provenOrder blake2b db.store id).toList } }

/-- `order_covenants`, as an apply collects it: the covenants whose spend
revealed an order. -/
def orderCovenants (dec : Decoders) (s : Store) (block : AcceptedBlockBatch) : List CovenantId :=
  let rows := block.createdUtxos.foldl (insertCreated dec block) s.covenantUtxos
  block.spentUtxos.flatMap fun spent ↦
    (rows.filter fun row ↦ row.outpoint = spent.outpoint ∧
      ((p2shReveal blake2b row.spkScript spent.sig).bind matchKcmOrder).isSome).map (·.covenantId)

variable {blake2b}

theorem provenOrder_covenantId {s : Store} {id : CovenantId} {row : RestingOrder}
    (h : provenOrder blake2b s id = some row) : row.covenantId = id := by
  obtain ⟨⟨order, cell⟩, -, h⟩ := Option.bind_eq_some_iff.mp h
  dsimp only at h
  split at h
  · rw [← Option.some.inj h]
    rfl
  · obtain ⟨daa, -, rfl⟩ := Option.map_eq_some_iff.mp h
    rfl

/-- A covenant none of whose cells revealed an order has no row. -/
theorem provenOrder_none {s : Store}
    (h : ∀ row ∈ s.covenantUtxos, revealedOrder blake2b row = none) (id : CovenantId) :
    provenOrder blake2b s id = none := by
  have hposted : postedOrder blake2b s id = none := by
    refine List.findSome?_eq_none_iff.mpr fun row hrow ↦ ?_
    have hmem := List.mem_of_mem_filter
      ((List.mem_insertionSort _).mp (List.mem_of_mem_take hrow))
    rw [h row hmem, Option.map_none]
  rw [provenOrder, hposted, Option.bind_none]

end Kascov
