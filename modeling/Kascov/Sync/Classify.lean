import Kascov.Lib.Entries
import Kascov.Store.Tables

/-!
# Classification

`classify` of `sync.rs`: the covenant activity of the transactions one chain
block accepted.  It reads the store through two lookups, the live cell of an
outpoint and whether a covenant is known, and keeps an overlay of each for the
transactions of the block itself.
-/

namespace Kascov

/-- `node::compute_covenant_id`, the KIP-20 hash of an outpoint and the outputs
`(index, value, spk version, spk script)` bound to an id.  It lives in the
consensus crate, and the results below hold for every function in its place. -/
abbrev ComputeCovenantId := Outpoint → List (Nat × Nat × Nat × Bytes) → CovenantId

/-! ## The genesis proof -/

/-- The outputs of a transaction bound to an id, with their indices. -/
def boundOutputs (tx : Transaction) (id : CovenantId) : List (Nat × Output × CovenantBinding) :=
  tx.outputs.zipIdx.filterMap fun o => do
    let binding ← o.1.covenant
    if binding.covenantId = id then some (o.2, o.1, binding) else none

/-- The `fields` of the bound outputs. -/
def boundFields (tx : Transaction) (id : CovenantId) : List (Nat × Nat × Nat × Bytes) :=
  (boundOutputs tx id).map fun o => (o.1, o.2.1.value, o.2.1.spkVersion, o.2.1.spkScript)

/-- `is_valid_genesis`. -/
def isValidGenesis (compute : ComputeCovenantId) (tx : Transaction) (id : CovenantId) : Bool :=
  match boundOutputs tx id with
  | [] => false
  | first :: rest =>
      let auth := first.2.2.authorizingInput
      if (first :: rest).any (·.2.2.authorizingInput ≠ auth) then
        false
      else
        match tx.inputs[auth]? with
        | none => false
        | some input => compute input.previousOutpoint (boundFields tx id) = id

/-! ## One transaction -/

/-- The state of the loop over transactions.  An overlay is a hash map filled by
`insert`: the newest entry of a key is the one found. -/
structure ClassifyState where
  batch : AcceptedBlockBatch
  createdOverlay : List (Outpoint × CovenantId)
  knownOverlay : List CovenantId

/-- The cell an input spends: the overlay first, then the store. -/
def spentCell (s : Store) (overlay : List (Outpoint × CovenantId)) (o : Outpoint) :
    Option CovenantId :=
  match overlay.find? (·.1 = o) with
  | some entry => some entry.2
  | none => s.liveCovenantUtxo o

/-- The covenant cells among the inputs of a transaction, with the spends the
batch records. -/
def spentCells (s : Store) (overlay : List (Outpoint × CovenantId)) (tx : Transaction) :
    List (CovenantId × SpentUtxo) :=
  tx.inputs.zipIdx.filterMap fun input =>
    (spentCell s overlay input.1.previousOutpoint).map fun id =>
      (id, { outpoint := input.1.previousOutpoint
             spendingTxid := tx.txid
             sig := input.1.signatureScript
             budget := input.1.computeBudget
             inputIndex := input.2 })

/-- The covenant cells among the outputs of a transaction. -/
def createdCells (tx : Transaction) : List NewUtxo :=
  tx.outputs.zipIdx.filterMap fun output =>
    output.1.covenant.map fun binding =>
      { outpoint := ⟨tx.txid, output.2⟩
        covenantId := binding.covenantId
        value := output.1.value
        spkVersion := output.1.spkVersion
        spkScript := output.1.spkScript }

/-- What a loop over inputs or outputs does to `touched`. -/
inductive Touch where
  | spent
  | created
deriving DecidableEq, Repr

/-- `touched.entry(id).or_default().0 += 1`, or `.1 += 1`. -/
def Touch.count : Touch → Nat × Nat → Nat × Nat
  | .spent, n => (n.1 + 1, n.2)
  | .created, n => (n.1, n.2 + 1)

/-- `touched`: the covenants of a transaction with the numbers of their cells it
spends and creates. -/
def touchedCounts (spent created : List CovenantId) : List (CovenantId × Nat × Nat) :=
  Entries.updateAll (0, 0) (fun t => t.1.count) (fun t : Touch × CovenantId => t.2)
    (spent.map (Touch.spent, ·) ++ created.map (Touch.created, ·))

/-- The kind of an event. -/
def eventKind (compute : ComputeCovenantId) (s : Store) (known : List CovenantId)
    (tx : Transaction) (id : CovenantId) (counts : Nat × Nat) : EventKind :=
  if 0 < counts.1 ∧ 0 < counts.2 then
    .transition
  else if 0 < counts.1 then
    .burn
  else if id ∈ known ∨ s.knownCovenant id then
    -- an output claims an existing id without spending its cell: a transition
    -- rather than a second genesis
    .transition
  else if isValidGenesis compute tx id then
    .genesis
  else
    .transition

/-- One touched covenant of a transaction. -/
def classifyTouched (compute : ComputeCovenantId) (s : Store) (tx : Transaction) (txIndex : Nat)
    (acc : List CovenantId × List NewEvent) (entry : (CovenantId × Nat × Nat) × Nat) :
    List CovenantId × List NewEvent :=
  (entry.1.1 :: acc.1, acc.2 ++
    [{ covenantId := entry.1.1
       kind := eventKind compute s acc.1 tx entry.1.1 entry.1.2
       txid := tx.txid
       txIndex
       eventIndex := entry.2
       payload := if tx.payload = [] then none else some tx.payload
       laneNamespace := laneNamespace tx.payload }])

/-- One transaction of the loop, with its index in the accepted list. -/
def classifyTx (compute : ComputeCovenantId) (s : Store) (decoder : ApplicationDecoder)
    (st : ClassifyState) (indexed : Nat × Transaction) : ClassifyState :=
  let tx := indexed.2
  let spent := spentCells s st.createdOverlay tx
  let created := createdCells tx
  -- the touched covenants in the order of their ids
  let touched := (touchedCounts (spent.map (·.1)) (created.map (·.covenantId))).insertionSort
    fun a b => a.1 ≤ b.1
  let events := touched.zipIdx.foldl (classifyTouched compute s tx indexed.1)
    (st.knownOverlay, st.batch.events)
  { batch := { st.batch with
      transactions := st.batch.transactions ++ [.prepare tx decoder]
      spentUtxos := st.batch.spentUtxos ++ spent.map (·.2)
      createdUtxos := st.batch.createdUtxos ++ created
      events := events.2 }
    createdOverlay := created.reverse.map (fun u => (u.outpoint, u.covenantId)) ++
      st.createdOverlay
    knownOverlay := events.1 }

/-- `classify`. -/
def classify (compute : ComputeCovenantId) (s : Store) (accepted : AcceptedBlock)
    (accepting : Block) (decoder : ApplicationDecoder) (txs : List (Nat × Transaction)) :
    AcceptedBlockBatch :=
  (txs.foldl (classifyTx compute s decoder)
    { batch :=
        { acceptingBlock := accepted.acceptingBlock
          acceptingDaa := accepting.daaScore
          acceptingTimeMs := accepting.timestampMs
          acceptingBlueScore := accepting.blueScore }
      createdOverlay := []
      knownOverlay := [] }).batch

/-! ## The events of a transaction -/

/-- A covenant made known that is not the one at hand does not change its kind. -/
theorem eventKind_cons_of_ne (compute : ComputeCovenantId) (s : Store) {known : List CovenantId}
    {tx : Transaction} {id other : CovenantId} {counts : Nat × Nat} (h : id ≠ other) :
    eventKind compute s (other :: known) tx id counts =
      eventKind compute s known tx id counts := by
  unfold eventKind
  simp only [List.mem_cons, h, false_or]

/-- The event of a covenant at its place among those a transaction touches. -/
def touchedEvent (compute : ComputeCovenantId) (s : Store) (known : List CovenantId)
    (tx : Transaction) (txIndex : Nat) (counts : CovenantId → Nat × Nat)
    (touched : CovenantId × Nat) : NewEvent :=
  { covenantId := touched.1
    kind := eventKind compute s known tx touched.1 (counts touched.1)
    txid := tx.txid
    txIndex
    eventIndex := touched.2
    payload := if tx.payload = [] then none else some tx.payload
    laneNamespace := laneNamespace tx.payload }

/-- The loop over the touched covenants: their ids are distinct, so none is made
known by one before it. -/
theorem foldl_classifyTouched_eq (compute : ComputeCovenantId) (s : Store) (tx : Transaction)
    (txIndex : Nat) (counts : CovenantId → Nat × Nat) {ids : List CovenantId} (hids : ids.Nodup)
    (known : List CovenantId) (events : List NewEvent) (n : Nat) :
    ((ids.map fun id ↦ (id, counts id)).zipIdx n).foldl (classifyTouched compute s tx txIndex)
        (known, events) =
      (ids.reverse ++ known,
        events ++ (ids.zipIdx n).map (touchedEvent compute s known tx txIndex counts)) := by
  induction ids generalizing known events n with
  | nil => simp
  | cons id ids ih =>
      rw [List.nodup_cons] at hids
      rw [List.map_cons, List.zipIdx_cons, List.foldl_cons, classifyTouched, ih hids.2]
      refine Prod.ext (by simp) ?_
      rw [List.zipIdx_cons, List.map_cons, List.append_assoc]
      refine congrArg (events ++ ·) ?_
      rw [List.singleton_append]
      refine congrArg₂ List.cons rfl (List.map_congr_left fun touched htouched ↦ ?_)
      have hmem : touched.1 ∈ ids := by
        rw [← List.zipIdx_map_fst (n + 1) ids]
        exact List.mem_map_of_mem htouched
      have hne : touched.1 ≠ id := fun heq ↦ hids.1 (heq ▸ hmem)
      unfold touchedEvent
      rw [eventKind_cons_of_ne compute s hne]

section Header

variable (compute : ComputeCovenantId) (s : Store) (decoder : ApplicationDecoder)

/-- What the loop over transactions never writes: a field that one transaction
leaves alone is the same at its end. -/
theorem foldl_classifyTx_eq {α : Type} (field : AcceptedBlockBatch → α)
    (hfield : ∀ st tx, field (classifyTx compute s decoder st tx).batch = field st.batch)
    (txs : List (Nat × Transaction)) (st : ClassifyState) :
    field (txs.foldl (classifyTx compute s decoder) st).batch = field st.batch := by
  induction txs generalizing st with
  | nil => rfl
  | cons tx txs ih => exact (ih _).trans (hfield st tx)

theorem classify_acceptingBlock (accepted : AcceptedBlock) (accepting : Block)
    (txs : List (Nat × Transaction)) :
    (classify compute s accepted accepting decoder txs).acceptingBlock =
      accepted.acceptingBlock :=
  foldl_classifyTx_eq compute s decoder (·.acceptingBlock) (fun _ _ ↦ rfl) txs _

theorem classify_acceptingDaa (accepted : AcceptedBlock) (accepting : Block)
    (txs : List (Nat × Transaction)) :
    (classify compute s accepted accepting decoder txs).acceptingDaa = accepting.daaScore :=
  foldl_classifyTx_eq compute s decoder (·.acceptingDaa) (fun _ _ ↦ rfl) txs _

/-- A block's transactions are prepared whatever the store holds. -/
theorem classify_transactions (accepted : AcceptedBlock) (accepting : Block)
    (txs : List (Nat × Transaction)) :
    (classify compute s accepted accepting decoder txs).transactions =
      txs.map fun tx ↦ .prepare tx.2 decoder := by
  have hfold : ∀ st : ClassifyState,
      (txs.foldl (classifyTx compute s decoder) st).batch.transactions =
        st.batch.transactions ++ txs.map fun tx ↦ .prepare tx.2 decoder := by
    induction txs with
    | nil => exact fun _ ↦ (List.append_nil _).symm
    | cons tx txs ih =>
        intro st
        rw [List.foldl_cons, ih, classifyTx, List.map_cons, List.append_assoc]
        rfl
  exact hfold _

end Header

end Kascov
