import Kascov.Orders.Derive
import Kascov.Projection.Drain
import Kascov.Undo.Reachable

/-!
# The order table over a run

Neither an apply nor a rollback nor a drain calls `derive_resting_order`, so
the table of a fresh index stays empty.  It is the derived one as long as no
apply collects an order covenant, and from the first order on it is not.
-/

namespace Kascov

open Fallible

/-! ## Runs -/

/-- A call of a block writer or of the projection worker. -/
inductive ProjectionOp where
  | chain (op : ChainOp)
  | drain (acceptedPending : Bool) (limit : Nat)

/-- The transaction a call runs. -/
def ProjectionOp.commit (dec : Decoders) (rederiveAffected : Rederive) (p : Projected) :
    ProjectionOp → Result Projected
  | .chain op => (op.commit dec p.database.store).map p.withStore
  | .drain acceptedPending limit =>
      (drainOptionalProjectionChunk rederiveAffected p acceptedPending limit).map (·.1)

/-- The database after a run of calls, each of which may fail. -/
abbrev ProjectionOp.run (dec : Decoders) (rederiveAffected : Rederive) (p : Projected)
    (ops : List ProjectionOp) : Projected :=
  Runs.run (ProjectionOp.commit dec rederiveAffected) p ops

variable {blake2b : Bytes → Bytes}

/-- The order table is the derived one, and holds a row for just the covenants
of which some recorded spend proves an order. -/
structure OrdersCurrent (blake2b : Bytes → Bytes) (db : Database) : Prop where
  derived : ∀ row, row ∈ db.derived.restingOrders ↔
    provenOrder blake2b db.store row.covenantId = some row
  posted : ∀ id, (∃ row ∈ db.derived.restingOrders, row.covenantId = id) ↔
    ∃ cell ∈ db.store.covenantUtxos, cell.covenantId = id ∧
      (revealedOrder blake2b cell).isSome

/-- The call collects no order covenant: it is no apply of a new block, or no
spend of the block reveals an order. -/
def ProjectionOp.RevealsNoOrder (blake2b : Bytes → Bytes) (dec : Decoders) (p : Projected) :
    ProjectionOp → Prop
  | .chain (.apply block) => p.database.store.isCanonical block.acceptingBlock = false →
      orderCovenants blake2b dec p.database.store block = []
  | _ => True

/-! ## What the writers do to the reveals -/

/-- A cell after the spends of a block has the reveal it had, or one of them. -/
theorem revealedOrder_spendAll {dec : Decoders} {block : AcceptedBlockBatch} {row : UtxoRow}
    (hrow : revealedOrder blake2b row = none)
    (hspents : ∀ spent ∈ block.spentUtxos, row.outpoint = spent.outpoint →
      (p2shReveal blake2b row.spkScript spent.sig).bind matchKcmOrder = none) :
    revealedOrder blake2b (spendAll dec block row) = none := by
  unfold spendAll
  generalize block.spentUtxos = spents at hspents
  induction spents generalizing row with
  | nil => exact hrow
  | cons spent rest ih =>
      obtain ⟨hspent, hrest⟩ := List.forall_mem_cons.mp hspents
      rw [List.foldl_cons]
      split
      · rename_i heq
        exact ih (hspent heq) hrest
      · exact ih hrow hrest

theorem revealedOrder_insertCreated (dec : Decoders) (block : AcceptedBlockBatch)
    (rows : List UtxoRow) (utxo : NewUtxo)
    (h : ∀ row ∈ rows, revealedOrder blake2b row = none) :
    ∀ row ∈ insertCreated dec block rows utxo, revealedOrder blake2b row = none := by
  intro row hrow
  rcases List.mem_append.mp hrow with hrow | hrow
  · exact h row (List.mem_of_mem_filter hrow)
  · rw [List.mem_singleton.mp hrow]
    rfl

/-- An apply that collects no order covenant records no order. -/
theorem revealedOrder_applyCells {dec : Decoders} {s : Store} {block : AcceptedBlockBatch}
    (hrows : ∀ row ∈ s.covenantUtxos, revealedOrder blake2b row = none)
    (hnone : orderCovenants blake2b dec s block = []) :
    ∀ row ∈ applyCells dec block s.covenantUtxos, revealedOrder blake2b row = none := by
  intro row hrow
  rw [applyCells, foldl_markSpent] at hrow
  obtain ⟨old, hold, rfl⟩ := List.mem_map.mp hrow
  have hcreated := foldl_insertCreated_invariant
    (fun rows ↦ ∀ row ∈ rows, revealedOrder blake2b row = none)
    (revealedOrder_insertCreated dec block) block.createdUtxos hrows
  refine revealedOrder_spendAll (hcreated old hold) fun spent hspent heq ↦ ?_
  by_contra hsome
  have hmem : old.covenantId ∈ orderCovenants blake2b dec s block := by
    refine List.mem_flatMap.mpr ⟨spent, hspent, List.mem_map_of_mem ?_⟩
    exact List.mem_filter.mpr ⟨hold, decide_eq_true ⟨heq, Option.isSome_iff_ne_none.mpr hsome⟩⟩
  rw [hnone] at hmem
  cases hmem

/-- A rollback forgets reveals and records none. -/
theorem revealedOrder_unspendRows {hashes : List BlockHash} {row : UtxoRow}
    (h : revealedOrder blake2b row = none) :
    revealedOrder blake2b (unspendRows hashes row) = none := by
  induction hashes generalizing row with
  | nil => exact h
  | cons hash rest ih =>
      have hrow : revealedOrder blake2b (unspendRow hash row) = none := by
        unfold unspendRow
        split
        · rfl
        · exact h
      exact ih hrow

/-! ## The table of a run -/

/-- No call writes the table. -/
theorem ProjectionOp.commit_restingOrders {dec : Decoders} {rederiveAffected : Rederive}
    {p p' : Projected} {op : ProjectionOp} (h : op.commit dec rederiveAffected p = .ok p') :
    p'.database.derived.restingOrders = p.database.derived.restingOrders := by
  cases op with
  | chain op =>
      obtain ⟨s', -, rfl⟩ := map_eq_ok.mp h
      rfl
  | drain acceptedPending limit =>
      obtain ⟨d, hd⟩ := map_fst_eq_ok h
      exact (drainOptionalProjectionChunk_ok hd).2.2

/-- The table of a fresh index stays empty. -/
theorem restingOrders_run (dec : Decoders) (rederiveAffected : Rederive) (epoch : StreamEpoch)
    (ops : List ProjectionOp) :
    (ProjectionOp.run dec rederiveAffected (.fresh epoch) ops).database.derived.restingOrders =
      [] :=
  Runs.run_invariant (fun p : Projected ↦ p.database.derived.restingOrders = [])
    (fun _ _ _ hp hok ↦ (ProjectionOp.commit_restingOrders hok).trans hp) ops rfl

/-- A call that collects no order covenant records no order. -/
theorem ProjectionOp.commit_reveals {dec : Decoders} {rederiveAffected : Rederive}
    {p p' : Projected} {op : ProjectionOp}
    (hrows : ∀ row ∈ p.database.store.covenantUtxos, revealedOrder blake2b row = none)
    (hguard : op.RevealsNoOrder blake2b dec p) (h : op.commit dec rederiveAffected p = .ok p') :
    ∀ row ∈ p'.database.store.covenantUtxos, revealedOrder blake2b row = none := by
  cases op with
  | chain op =>
      obtain ⟨s', hs, rfl⟩ := map_eq_ok.mp h
      cases op with
      | apply block =>
          obtain ⟨c, hc⟩ := map_fst_eq_ok hs
          obtain ⟨-, -, ⟨-, rfl⟩ | ⟨hnew, rfl⟩⟩ := applyAcceptedBlock_ok hc
          · exact hrows
          · exact revealedOrder_applyCells hrows (hguard hnew)
      | rollback removed =>
          obtain ⟨c, hc⟩ := map_fst_eq_ok hs
          obtain ⟨-, ⟨-, rfl, -⟩ | ⟨-, rfl, -⟩⟩ := rollbackRemovedBlocks_ok hc
          · exact hrows
          · intro row hrow
            obtain ⟨old, hold, rfl⟩ := List.mem_map.mp (List.mem_of_mem_filter hrow)
            exact revealedOrder_unspendRows (hrows old hold)
  | drain acceptedPending limit =>
      obtain ⟨d, hd⟩ := map_fst_eq_ok h
      rw [(drainOptionalProjectionChunk_ok hd).1]
      exact hrows

/-- An empty table is current just as long as no recorded spend proves an order. -/
theorem ordersCurrent_iff {db : Database} (hempty : db.derived.restingOrders = []) :
    OrdersCurrent blake2b db ↔
      ∀ row ∈ db.store.covenantUtxos, revealedOrder blake2b row = none := by
  constructor
  · intro h cell hcell
    by_contra hsome
    obtain ⟨row, hrow, -⟩ := (h.posted cell.covenantId).mpr
      ⟨cell, hcell, rfl, Option.isSome_iff_ne_none.mpr hsome⟩
    rw [hempty] at hrow
    cases hrow
  · intro hrows
    refine ⟨fun row ↦ ?_, fun id ↦ ?_⟩
    · rw [hempty, provenOrder_none hrows]
      simp
    · rw [hempty]
      constructor
      · rintro ⟨row, hrow, -⟩
        cases hrow
      · rintro ⟨cell, hcell, -, hsome⟩
        rw [hrows cell hcell] at hsome
        cases hsome

/-- **The order table is current** in every state that a run from a fresh index
reaches without collecting an order covenant. -/
theorem ordersCurrent_run (blake2b : Bytes → Bytes) (dec : Decoders)
    (rederiveAffected : Rederive) (epoch : StreamEpoch) (ops : List ProjectionOp)
    (h : Runs.Guarded (ProjectionOp.commit dec rederiveAffected)
      (ProjectionOp.RevealsNoOrder blake2b dec) (.fresh epoch) ops) :
    OrdersCurrent blake2b
      (ProjectionOp.run dec rederiveAffected (.fresh epoch) ops).database := by
  refine (ordersCurrent_iff (restingOrders_run dec rederiveAffected epoch ops)).mpr ?_
  refine Runs.run_invariant_of_guarded
    (fun p : Projected ↦ ∀ row ∈ p.database.store.covenantUtxos, revealedOrder blake2b row = none)
    (ProjectionOp.RevealsNoOrder blake2b dec) ?_ ?_ h
  · exact fun _ _ _ hp hguard hok ↦ ProjectionOp.commit_reveals hp hguard hok
  · rintro row hrow
    cases hrow

/-! ## An order posted and revealed -/

/-- The hash of the pinned build. -/
def orderHash (program : Bytes) : Bytes :=
  if program = kcmOrderFixture then
    bigEndian 32 0x4ac91d120fc81787ed632117abb82e835577eea8bb36d0e2e62eb28572f1f5f6
  else List.replicate 32 0

/-- The commitment to the pinned build, and the script that reveals it. -/
def orderSpk : Bytes := 0xaa :: 0x20 :: (orderHash kcmOrderFixture ++ [0x87])

def orderSig : Bytes := 0x4d :: 0xb3 :: 0x11 :: kcmOrderFixture

theorem p2shReveal_order : p2shReveal orderHash orderSpk orderSig = some kcmOrderFixture := by
  have hhash : p2shHash orderSpk = some (orderHash kcmOrderFixture) := by
    rw [orderSpk, orderHash, if_pos rfl]
    rfl
  have hdisassemble : disassemble orderSig = ([⟨0, 0x4d, some kcmOrderFixture⟩], false) :=
    disassemble_pushData2 (kcmOrderFixture_length.trans rfl)
  rw [p2shReveal, hhash]
  simp [hdisassemble]

/-- A block with one event of covenant `12` and one cell of it. -/
def orderBatch (block : BitVec 256) (daa : Nat) (kind : EventKind) (spents : List SpentUtxo)
    (spk : Bytes) : AcceptedBlockBatch :=
  { acceptingBlock := ⟨block⟩
    acceptingDaa := daa
    events := [{ covenantId := ⟨12⟩, kind, txid := ⟨block⟩, txIndex := 0, eventIndex := 0,
                 payload := none, laneNamespace := none }]
    createdUtxos := [{ outpoint := ⟨⟨block⟩, 0⟩, covenantId := ⟨12⟩, value := 1000,
                       spkVersion := 0, spkScript := spk }]
    spentUtxos := spents }

/-- The order is posted, its cell is spent with its reveal, and the queue is
drained. -/
def orderRun (spk sig : Bytes) : List ProjectionOp :=
  [.chain (.apply (orderBatch 1 100 .genesis [] spk)),
    .chain (.apply (orderBatch 2 200 .transition [⟨⟨⟨1⟩, 0⟩, ⟨2⟩, sig, 0, 0⟩] spk)),
    .drain false 16]

def orderState (spk sig : Bytes) : Projected :=
  ProjectionOp.run .blind (fun db _ _ ↦ .ok db.derived) (.fresh ⟨0⟩) (orderRun spk sig)

set_option maxRecDepth 10000 in
theorem orderState_scanned (spk sig : Bytes) :
    ∃ row : UtxoRow, scannedCells (orderState spk sig).database.store ⟨12⟩ = [row] ∧
      row.spkScript = spk ∧ row.spentSig = some sig ∧ row.createdDaa = 100 := by
  exact ⟨_, rfl, rfl, rfl, rfl⟩

theorem orderState_live (spk sig : Bytes) :
    orderLive (orderState spk sig).database.store ⟨12⟩ spk = true := by
  refine List.any_eq_true.mpr ⟨_, List.mem_cons_of_mem _ List.mem_cons_self, ?_⟩
  exact decide_eq_true ⟨rfl, rfl, rfl⟩

theorem orderState_queue (spk sig : Bytes) :
    (orderState spk sig).database.store.optionalProjectionWork = [] := by
  rfl

/-- The derivation has a row for an order that was posted and revealed. -/
theorem provenOrder_orderState {blake2b : Bytes → Bytes} {spk sig program : Bytes}
    {order : OrderParams} (hreveal : p2shReveal blake2b spk sig = some program)
    (hmatch : matchKcmOrder program = some order) :
    provenOrder blake2b (orderState spk sig).database.store ⟨12⟩ =
      some (orderRow ⟨12⟩ order 100 .open none) := by
  obtain ⟨row, hscan, hspk, hsig, hdaa⟩ := orderState_scanned spk sig
  have hrevealed : revealedOrder blake2b row = some order := by
    rw [revealedOrder, hsig, hspk, Option.bind_some, hreveal, Option.bind_some, hmatch]
  have hposted : postedOrder blake2b (orderState spk sig).database.store ⟨12⟩ =
      some (order, row) := by
    rw [postedOrder, hscan, List.findSome?_cons, hrevealed]
    rfl
  rw [provenOrder, hposted, Option.bind_some]
  dsimp only
  rw [hspk, orderState_live, if_pos rfl, hdaa]

/-- The table on a run whose spend reveals nothing. -/
theorem ordersCurrent_orderState : OrdersCurrent orderHash (orderState [0x51] []).database :=
  ordersCurrent_run orderHash .blind (fun db _ _ ↦ .ok db.derived) ⟨0⟩ (orderRun [0x51] [])
    ⟨fun _ ↦ rfl, fun _ ↦ rfl, trivial, trivial⟩

/-- The order rests, and the drained table has no row of it. -/
theorem revealed_order_missing :
    (orderState orderSpk orderSig).database.store.optionalProjectionWork = [] ∧
      (orderState orderSpk orderSig).database.derived.restingOrders = [] ∧
      provenOrder orderHash (orderState orderSpk orderSig).database.store ⟨12⟩ =
        some (orderRow ⟨12⟩ fixtureOrder 100 .open none) ∧
      ¬OrdersCurrent orderHash (orderState orderSpk orderSig).database := by
  have hproven := provenOrder_orderState p2shReveal_order matchKcmOrder_fixture
  have hempty : (orderState orderSpk orderSig).database.derived.restingOrders = [] :=
    restingOrders_run _ _ _ _
  refine ⟨orderState_queue _ _, hempty, hproven, fun h ↦ ?_⟩
  have hmem := (h.derived (orderRow ⟨12⟩ fixtureOrder 100 .open none)).mpr hproven
  rw [hempty] at hmem
  cases hmem

end Kascov
