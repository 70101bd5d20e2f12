import Kascov.Token.State

/-!
# Proving the cells of a token

`tokens.rs`: a cell is proven by the program its spend reveals, by being its own
program, or by a state recovered from the witnesses of the transaction that
created it.  Recovery splices candidates into programs proven before, and runs
to a fixpoint.
-/

namespace Kascov

/-- `Cell` of the token derivation: a cell with what the proof passes found out about it. -/
structure TokenCell where
  txid : TxId
  index : Nat
  spkVersion : Nat
  spkScript : Bytes
  spentTxid : Option TxId
  spentSig : Option Bytes
  proven : Option (TokenState × Bytes)
  unproven : Option String
deriving DecidableEq

/-- `Cell::live`. -/
def TokenCell.live (cell : TokenCell) : Bool := cell.spentTxid.isNone

/-- `outpoint_str`. -/
def outpointStr (txid : TxId) (index : Nat) : String := txid.bytes.toHex ++ ":" ++ toString index

/-- `ORDER BY created_daa, txid, output_index`. -/
def UtxoRow.loadKey (row : UtxoRow) : Nat ×ₗ Nat ×ₗ Nat :=
  toLex (row.createdDaa, toLex (row.outpoint.txid.bytes.toNat, row.outpoint.index))

/-- A row as `load_cells` reads it. -/
def UtxoRow.toCell (row : UtxoRow) : TokenCell :=
  { txid := row.outpoint.txid
    index := row.outpoint.index
    spkVersion := row.spkVersion
    spkScript := row.spkScript
    spentTxid := row.spentTxid
    spentSig := row.spentSig
    proven := none
    unproven := none }

/-- `load_cells`. -/
def loadCells (s : Store) (tokenId : CovenantId) : List TokenCell :=
  ((s.covenantUtxos.filter (·.covenantId = tokenId)).insertionSort
    fun a b ↦ a.loadKey ≤ b.loadKey).map UtxoRow.toCell

/-! ## Reveals -/

section Passes

variable (registry : Registry) (blake2b : Bytes → Bytes)

/-- One turn of the loop of `prove_direct`. -/
def proveDirectCell (cell : TokenCell) : TokenCell :=
  match decodeTokenState registry cell.spkVersion cell.spkScript with
  | some st => { cell with proven := some (st, cell.spkScript) }
  | none =>
      match cell.spentTxid, cell.spentSig with
      | some _, some sig =>
          match p2shReveal blake2b cell.spkScript sig with
          | some program =>
              match decodeTokenState registry cell.spkVersion program with
              | some st => { cell with proven := some (st, program) }
              | none => { cell with
                  unproven := some ("reveal of " ++ outpointStr cell.txid cell.index ++
                    " is not a recognized KCC20 build") }
          | none => { cell with
              unproven := some ("spend of " ++ outpointStr cell.txid cell.index ++
                " does not reveal its committed program") }
      | some _, none => { cell with
          unproven := some ("reveal missing for spent output " ++
            outpointStr cell.txid cell.index) }
      | none, _ => cell

/-- `prove_direct`. -/
def proveDirect (cells : List TokenCell) : List TokenCell :=
  cells.map (proveDirectCell registry blake2b)

/-! ## Recovery -/

/-- `TYPE_MINTER_DOMAIN`. -/
def typeMinterDomain : List (UInt8 × UInt8) :=
  [(0x00, 0x00), (0x00, 0x01), (0x01, 0x00), (0x01, 0x01), (0x02, 0x00), (0x02, 0x01),
    (0x03, 0x00), (0x03, 0x01)]

/-- `FIELD_CANDIDATE_CAP`. -/
def fieldCandidateCap : Nat := 64

/-- `arg_pushes`. -/
def argPushes (sig : Bytes) : List Bytes :=
  (disassemble sig).1.filterMap fun inst ↦
    match inst.data with
    | some data => some data
    | none =>
        if inst.opcode = 0x00 then some []
        else if 0x51 ≤ inst.opcode ∧ inst.opcode ≤ 0x60 then some [inst.opcode - 0x50]
        else none

/-- A `BTreeSet` of byte strings. -/
def byteSet (values : List Bytes) : List Bytes :=
  values.dedup.insertionSort fun a b ↦ a.map UInt8.toNat ≤ b.map UInt8.toNat

/-- The owners a witness offers to the `k`th of `n` outputs. -/
def ownerCands (pushes : List Bytes) (n k : Nat) : List Bytes32 :=
  let soa := (pushes.filter (·.length = n * 32)).map fun ow ↦ (ow.drop (k * 32)).take 32
  let flat := (pushes.filter (·.length = 32)).take fieldCandidateCap
  (byteSet (soa ++ flat)).filterMap toBytes32

/-- An eight-byte candidate: a shorter push widened with zeros on the right. -/
def toBytes8 (am : Bytes) : Option Bytes8 :=
  let a := am ++ List.replicate (8 - am.length) 0x00
  if h : a.length = 8 then some ⟨a, h⟩ else none

/-- The amounts a witness offers to the `k`th of `n` outputs. -/
def amountCands (pushes : List Bytes) (n k : Nat) : List Bytes8 :=
  let soa := (pushes.filter (·.length = n * 8)).map fun am ↦ (am.drop (k * 8)).take 8
  let flat := (pushes.filter (·.length ≤ 8)).take fieldCandidateCap
  (byteSet ((soa ++ flat).filterMap fun am ↦ (toBytes8 am).map (·.val))).filterMap toBytes8

/-- The search of one output: the first candidate that proves it, with the
program it proves. -/
def recoverState (bases : List Bytes) (owners : List Bytes32) (amounts : List Bytes8)
    (spk : Bytes) : Option (TokenState × Bytes) :=
  bases.findSome? fun base ↦
    owners.findSome? fun owner ↦
      amounts.findSome? fun amount ↦
        typeMinterDomain.findSome? fun pair ↦
          (proveOutputState blake2b base spk owner pair.1 amount pair.2).bind fun st ↦
            (spliceTokenState base owner pair.1 amount pair.2).map fun program ↦ (st, program)

/-- One output of a transaction, from the pushes of one witness. -/
def recoverCell (bases pushes : List Bytes) (n k : Nat) (cell : TokenCell) : TokenCell :=
  if cell.proven.isSome then cell
  else
    match recoverState blake2b bases (ownerCands pushes n k) (amountCands pushes n k)
        cell.spkScript with
    | some proof => { cell with proven := some proof, unproven := none }
    | none => cell

/-- One witness of a transaction. -/
def recoverSig (bases : List Bytes) (outs : List Nat) (cells : List TokenCell) (sig : Bytes) :
    List TokenCell :=
  outs.zipIdx.foldl (fun cells out ↦
    cells.modify out.1 (recoverCell blake2b bases (argPushes sig) outs.length out.2)) cells

/-- `SELECT spent_sig FROM covenant_utxos WHERE spent_txid = ?1 AND covenant_id != ?2
AND spent_sig IS NOT NULL`. -/
def foreignSigs (s : Store) (txid : TxId) (tokenId : CovenantId) : List Bytes :=
  (s.covenantUtxos.filter fun row ↦
    row.spentTxid = some txid && row.covenantId ≠ tokenId).filterMap (·.spentSig)

/-- The indices of the cells that satisfy a condition. -/
def indicesOf (cells : List TokenCell) (p : TokenCell → Bool) : List Nat :=
  (List.range cells.length).filter fun i ↦ cells[i]?.any p

/-- `outs_of`: the creating transactions, with the indices of their cells. -/
def outsOf (cells : List TokenCell) : List (TxId × List Nat) :=
  ((cells.map (·.txid)).dedup.insertionSort fun a b ↦ a.bytes.toNat ≤ b.bytes.toNat).map
    fun txid ↦ (txid, indicesOf cells (·.txid = txid))

/-- The proven programs of a transaction's own inputs and outputs that carry a
state block. -/
def spliceBases (cells : List TokenCell) (indices : List Nat) : List Bytes :=
  byteSet ((indices.filterMap fun i ↦ (cells[i]?.bind (·.proven)).map (·.2)).filter
    fun program ↦ (locateStateBlock program).isSome)

/-- One transaction of a recovery pass. -/
def recoverTx (s : Store) (tokenId : CovenantId) (cells : List TokenCell) (tx : TxId × List Nat) :
    List TokenCell :=
  if tx.2.all fun i ↦ cells[i]?.any (·.proven.isSome) then cells
  else
    let ins := indicesOf cells (·.spentTxid = some tx.1)
    let bases := spliceBases cells (ins ++ tx.2)
    if bases.isEmpty then cells
    else
      (ins.filterMap (fun i ↦ cells[i]?.bind (·.spentSig)) ++ foreignSigs s tx.1 tokenId).foldl
        (recoverSig blake2b bases tx.2) cells

/-- One pass over the creating transactions. -/
def recoverPass (s : Store) (tokenId : CovenantId) (outs : List (TxId × List Nat))
    (cells : List TokenCell) : List TokenCell :=
  outs.foldl (recoverTx blake2b s tokenId) cells

/-- The loop of `prove_recovered`: it goes on as long as a pass proves a cell,
which is the one change a pass makes. -/
def recoverLoop (s : Store) (tokenId : CovenantId) (outs : List (TxId × List Nat)) :
    Nat → List TokenCell → List TokenCell
  | 0, cells => cells
  | fuel + 1, cells =>
      let next := recoverPass blake2b s tokenId outs cells
      if next = cells then cells else recoverLoop s tokenId outs fuel next

/-- `prove_recovered`.  Each pass but the last proves a cell. -/
def proveRecovered (s : Store) (tokenId : CovenantId) (cells : List TokenCell) : List TokenCell :=
  recoverLoop blake2b s tokenId (outsOf cells) (cells.length + 1) cells

/-- The cells after both passes. -/
def provenCells (s : Store) (tokenId : CovenantId) : List TokenCell :=
  proveRecovered blake2b s tokenId (proveDirect registry blake2b (loadCells s tokenId))

end Passes

/-! ## Judging and serving -/

structure Judged where
  amount : Int
  minter : Bool
  ownerKey : OwnerKey
deriving DecidableEq

/-- A byte as two hex digits. -/
def hexByte (b : UInt8) : String := (BitVec.ofNat 8 b.toNat).toHex

/-- `judge`. -/
def judge (cell : TokenCell) : Except String Judged :=
  match cell.proven with
  | none => .error (cell.unproven.getD
      (if cell.live then "live state unproven for " ++ outpointStr cell.txid cell.index
        else "state unproven for spent output " ++ outpointStr cell.txid cell.index))
  | some (st, _) =>
      if 0x03 < st.identifierType then
        .error ("unknown identifier type 0x" ++ hexByte st.identifierType ++ " on " ++
          outpointStr cell.txid cell.index)
      else
        match st.amountI64 with
        | none => .error ("amount out of script-int range on " ++
            outpointStr cell.txid cell.index)
        | some amount =>
            match st.isMinter with
            | none => .error ("non-boolean isMinter on " ++ outpointStr cell.txid cell.index)
            | some minter => .ok { amount, minter, ownerKey := st.ownerKey }

/-- `commits_to`. -/
def commitsTo (blake2b : Bytes → Bytes) (spk program : Bytes) : Bool :=
  match p2shHash spk with
  | some hash => blake2b program = hash
  | none => spk = program

structure LiveTokenCell where
  txid : TxId
  index : Nat
  owner : OwnerKey
  identifierType : UInt8
  amount : Int
  isMinter : Bool
  program : Bytes
  spkScript : Bytes
deriving DecidableEq

/-- The cell as it is served. -/
def servedCell (cell : TokenCell) (proof : TokenState × Bytes) (judged : Judged) : LiveTokenCell :=
  { txid := cell.txid
    index := cell.index
    owner := judged.ownerKey
    identifierType := proof.1.identifierType
    amount := judged.amount
    isMinter := judged.minter
    program := proof.2
    spkScript := cell.spkScript }

/-- One turn of the loop of `live_token_cells`. -/
def serveCell (blake2b : Bytes → Bytes) (acc : List LiveTokenCell × Nat) (cell : TokenCell) :
    List LiveTokenCell × Nat :=
  if !cell.live then acc
  else
    match cell.proven, judge cell with
    | some proof, .ok judged =>
        if !commitsTo blake2b cell.spkScript proof.2 then (acc.1, acc.2 + 1)
        else (acc.1 ++ [servedCell cell proof judged], acc.2)
    | _, _ => (acc.1, acc.2 + 1)

/-- `live_token_cells`. -/
def liveTokenCells (registry : Registry) (blake2b : Bytes → Bytes) (s : Store)
    (tokenId : CovenantId) : List LiveTokenCell × Nat :=
  (provenCells registry blake2b s tokenId).foldl (serveCell blake2b) ([], 0)

end Kascov
