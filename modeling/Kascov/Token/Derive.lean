import Kascov.Market.Derive
import Kascov.Projection.Drain
import Kascov.Token.Trade

/-!
# The derivation of a token

`derive_token`: a token's rows are computed from the covenant tables alone.  Its
cells are proven and judged, its events are walked in order with running totals, and
a supply is stamped only when the whole history is clean and the live cells add up
to it.  `derive_minter` and `rederive_affected` follow it.
-/

namespace Kascov

open Fallible

/-! ## The verdict -/

structure Verdict where
  invalid : Option String := none
  unvalidated : Option String := none
deriving DecidableEq

namespace Verdict

/-- The first reason stays. -/
def flagInvalid (v : Verdict) (reason : String) : Verdict :=
  { v with invalid := v.invalid.or (some reason) }

def flagUnvalidated (v : Verdict) (reason : String) : Verdict :=
  { v with unvalidated := v.unvalidated.or (some reason) }

def status (v : Verdict) : Validation :=
  if v.invalid.isSome then .invalid
  else if v.unvalidated.isSome then .unvalidated
  else .verified

def reason (v : Verdict) : Option String := v.invalid.or v.unvalidated

end Verdict

/-! ## The walk -/

/-- One delta row to be written to `token_events`. -/
structure Delta where
  amount : Option Int
  ownerFrom : Option OwnerKey
  ownerTo : Option OwnerKey
deriving DecidableEq

structure ClassifiedEvent where
  seq : Nat
  kind : TokenEventKind
  acceptingDaa : Nat
  txIndex : Option Nat
  deltas : List Delta
deriving DecidableEq

/-- The running state of the event loop. -/
structure TokenWalk where
  verdict : Verdict := {}
  allEventsClean : Bool := true
  supply : Int := 0
  minted : Int := 0
  burned : Int := 0
  classified : List ClassifiedEvent := []
  tradeRows : List TokenTrade := []
deriving DecidableEq

/-- `anchor`: a reason with the event it is about. -/
def anchor (seq : Nat) (e : EventRow) (detail : String) : String :=
  "seq " ++ toString seq ++ " (daa " ++ toString e.acceptingDaa ++ "): " ++ detail

namespace TokenWalk

/-- A classified event added to the walk. -/
def classify (w : TokenWalk) (seq : Nat) (e : EventRow) (kind : TokenEventKind)
    (deltas : List Delta) : TokenWalk :=
  { w with classified := w.classified ++
      [{ seq, kind, acceptingDaa := e.acceptingDaa, txIndex := e.txIndex, deltas }] }

/-- `unknown`: an event that cannot be classified. -/
def unknown (w : TokenWalk) (seq : Nat) (e : EventRow) (reason : String) : TokenWalk :=
  classify { w with
    verdict := w.verdict.flagUnvalidated (anchor seq e reason)
    allEventsClean := false } seq e .unknown [⟨none, none, none⟩]

end TokenWalk

/-- `single_in_owner`: the owner of all the inputs. -/
def singleInOwner (ins : List Judged) : Option OwnerKey :=
  match ownerSet ins with
  | [owner] => some owner
  | _ => none

/-- The deltas of a created state for each output. -/
def outputDeltas (ownerFrom : Option OwnerKey) (outs : List Judged) : List Delta :=
  outs.map fun s ↦ ⟨some s.amount, ownerFrom, some s.ownerKey⟩

/-- Outputs with no token input. -/
def classifyGenesis (w : TokenWalk) (seq : Nat) (e : EventRow) (outs : List Judged) :
    TokenWalk :=
  if e.kind ≠ .genesis then
    w.unknown seq e "token outputs created without token inputs outside genesis"
  else
    TokenWalk.classify { w with supply := w.supply + sumAmounts outs } seq e .genesis
      (outputDeltas none outs)

/-- Inputs with no token output. -/
def classifyTerminal (w : TokenWalk) (seq : Nat) (e : EventRow) (ins : List Judged) :
    TokenWalk :=
  let isum := sumAmounts ins
  let verdict :=
    if !ins.any (·.minter) && decide (0 < isum) then
      w.verdict.flagUnvalidated (anchor seq e
        "terminal burn without a minter input — shape unobserved on chain")
    else w.verdict
  TokenWalk.classify
    { w with verdict, burned := w.burned + isum, supply := w.supply - isum } seq e .burn
    (ins.map fun s ↦ ⟨some s.amount, some s.ownerKey, none⟩)

/-- The kind of a transaction with token inputs and outputs. -/
def moveKind (ins outs : List Judged) : TokenEventKind :=
  if sumAmounts ins < sumAmounts outs then .mint
  else if sumAmounts outs < sumAmounts ins then .burn
  else if 1 < ins.length then .merge
  else if 1 < outs.length then .split
  else .transfer

/-- The verdict of a transaction with token inputs and outputs: a minter state comes
from a minter state, and only a minter input lets the sums differ. -/
def moveVerdict (v : Verdict) (seq : Nat) (e : EventRow) (ins outs : List Judged) : Verdict :=
  let isum := sumAmounts ins
  let osum := sumAmounts outs
  let minterIn := ins.any (·.minter)
  let v :=
    if outs.any (·.minter) && !minterIn then
      v.flagInvalid (anchor seq e "minter state created without a minter input")
    else v
  if isum < osum then
    if !minterIn then
      v.flagInvalid (anchor seq e ("outputs sum " ++ toString osum ++ " > inputs " ++
        toString isum ++ " with no minter input"))
    else v
  else if osum < isum then
    if !minterIn then
      v.flagInvalid (anchor seq e ("outputs sum " ++ toString osum ++ " < inputs " ++
        toString isum ++ " with no minter input"))
    else v
  else v

/-- Token inputs and outputs. -/
def classifyMove (w : TokenWalk) (seq : Nat) (e : EventRow) (ins outs : List Judged) :
    TokenWalk :=
  let isum := sumAmounts ins
  let osum := sumAmounts outs
  -- The destroyed difference of a supply burn is an explicit delta.
  let destroyed : List Delta :=
    if osum < isum then [⟨Checked.narrow 63 (isum - osum), singleInOwner ins, none⟩] else []
  TokenWalk.classify
    { w with
      verdict := moveVerdict w.verdict seq e ins outs
      minted := if isum < osum then w.minted + (osum - isum) else w.minted
      burned := if osum < isum then w.burned + (isum - osum) else w.burned
      supply := w.supply + (osum - isum) } seq e (moveKind ins outs)
    (outputDeltas (singleInOwner ins) outs ++ destroyed)

/-- The classification of an event both of whose sides are judged. -/
def classifyStates (w : TokenWalk) (seq : Nat) (e : EventRow) (ins outs : List Judged) :
    TokenWalk :=
  if ins = [] then classifyGenesis w seq e outs
  else if outs = [] then classifyTerminal w seq e ins
  else classifyMove w seq e ins outs

/-- The token's cells that a transaction consumes. -/
def insOfTx (cells : List TokenCell) (txid : TxId) : List TokenCell :=
  cells.filter (·.spentTxid = some txid)

/-- The token's cells that a transaction creates. -/
def outsOfTx (cells : List TokenCell) (txid : TxId) : List TokenCell :=
  cells.filter (·.txid = txid)

/-- One turn of the event loop. -/
def walkEvent (s : Store) (tokenId : CovenantId) (cells : List TokenCell) (w : TokenWalk)
    (event : Nat × EventRow) : Result TokenWalk :=
  let (seq, e) := event
  let ins := insOfTx cells e.txid
  let outs := outsOfTx cells e.txid
  if ins = [] ∧ outs = [] then
    .ok (w.unknown seq e "no state cells recorded for this event's tx")
  else
    match ins.mapM judge, outs.mapM judge with
    | .ok inStates, .ok outStates => do
        let trade ← extractTradeCandidate s tokenId seq e inStates outStates
        let w := { w with tradeRows := w.tradeRows ++ trade.toList }
        return classifyStates w seq e inStates outStates
    | .error reason, _ => .ok (w.unknown seq e reason)
    | _, .error reason => .ok (w.unknown seq e reason)

/-- `r.get::<_, u64>(0)` of an `INTEGER` column. -/
def unsignedColumn (n : Int) : Result Nat :=
  if 0 ≤ n then .ok n.toNat else .error (.invalid "sqlite" "integral value out of range")

/-- The token's own events, in `seq` order. -/
def tokenEventRows (s : Store) (tokenId : CovenantId) : Result (List (Nat × EventRow)) :=
  ((s.covenantEvents.filter (·.covenantId = tokenId)).insertionSort
    fun a b ↦ a.seq ≤ b.seq).mapM fun e ↦ do
      let seq ← unsignedColumn e.seq
      return (seq, e)

/-! ## The frontier -/

/-- `ins_of`, its keys. -/
def spendingTxids (cells : List TokenCell) : List TxId :=
  (cells.filterMap (·.spentTxid)).dedup.insertionSort fun a b ↦ a.bytes.toNat ≤ b.bytes.toNat

/-- A transaction with state cells and no event. -/
def orphanTx (cells : List TokenCell) (events : List (Nat × EventRow)) : Option TxId :=
  ((outsOf cells).map (·.1) ++ spendingTxids cells).find? fun txid ↦
    !events.any (·.2.txid = txid)

/-- The judged live cells. -/
def liveStates (cells : List TokenCell) : List Judged :=
  (cells.filter (·.live)).filterMap fun cell ↦ (judge cell).toOption

/-- `unresolved_cells`. -/
def unresolvedCells (cells : List TokenCell) : Nat :=
  (cells.filter (·.live)).countP fun cell ↦ (judge cell).toOption.isNone

/-- `balances`: what each owner holds, and in how many cells. -/
def ownerBalances (states : List Judged) : List (OwnerKey × Int × Nat) :=
  (ownerSet states).map fun owner ↦
    (owner, heldBy states owner, states.countP (·.ownerKey = owner))

/-- The balances of the owners of some types. -/
def heldByTypes (balances : List (OwnerKey × Int × Nat)) (types : List UInt8) : Int :=
  ((balances.filter fun b ↦ b.1.identifierType ∈ types).map (·.2.1)).sum

/-- The state of the newest proven cell. -/
def newestFields (cells : List TokenCell) : Option TokenState :=
  (cells.filterMap (·.proven)).getLast?.map (·.1)

/-- What is published of the totals. -/
structure PublishedSums where
  supply : Option Int := none
  minted : Option Int := none
  burned : Option Int := none
  heldCovenant : Option Int := none
  heldWallet : Option Int := none
  heldScript : Option Int := none
deriving DecidableEq

/-- The sums gate: they are stamped only when the full history is provable and clean,
and the frontier equals the derived supply. -/
def publishSums (w : TokenWalk) (balances : List (OwnerKey × Int × Nat)) (unresolved : Nat) :
    Verdict × PublishedSums :=
  if w.allEventsClean && w.verdict.invalid.isNone && w.verdict.unvalidated.isNone then
    match Checked.narrow 63 w.supply, Checked.narrow 63 w.minted, Checked.narrow 63 w.burned with
    | some supply, some minted, some burned =>
        if 0 ≤ w.supply then
          let frontier := (balances.map (·.2.1)).sum
          if frontier = w.supply ∧ unresolved = 0 then
            let heldCovenant := heldByTypes balances [0x02]
            let heldWallet := heldByTypes balances [0x00, 0x03]
            let heldScript := heldByTypes balances [0x01]
            if heldCovenant + heldWallet + heldScript = frontier then
              (w.verdict,
                { supply := some supply
                  minted := some minted
                  burned := some burned
                  heldCovenant := Checked.narrow 63 heldCovenant
                  heldWallet := Checked.narrow 63 heldWallet
                  heldScript := Checked.narrow 63 heldScript })
            else
              (w.verdict,
                { supply := some supply, minted := some minted, burned := some burned })
          else
            (w.verdict.flagUnvalidated ("live frontier sums " ++ toString frontier ++
              " but event history derives supply " ++ toString w.supply), {})
        else (w.verdict.flagUnvalidated (outOfRange w), {})
    | _, _, _ => (w.verdict.flagUnvalidated (outOfRange w), {})
  else (w.verdict, {})
where
  /-- The reason for sums that no column holds. -/
  outOfRange (w : TokenWalk) : String :=
    "derived sums out of i64 range (supply " ++ toString w.supply ++ ", minted " ++
      toString w.minted ++ ", burned " ++ toString w.burned ++ ")"

/-! ## The market link -/

section Derivation

variable (registry : Registry) (blake2b : Bytes → Bytes) (builds : MarketBuilds)

/-- The market link: the only covenant that holds the token, or of several the only
one whose program matches an audited build. -/
def marketLink (s : Store) (d : Derived) (balances : List (OwnerKey × Int × Nat)) :
    Derived × Option CovenantId :=
  let covs := (balances.filter fun b ↦ b.1.isCovenant && b.2.1 ≠ 0).map (·.1.covenant)
  match covs with
  | [one] => (d, some one)
  | [] => (d, none)
  | many =>
      let d := rederiveMarketPrograms blake2b builds s d many
      let matched := many.filter fun id ↦ d.marketPrograms.any fun row ↦
        row.covenantId = id && matchedSkeletons.contains row.skeleton
      match matched with
      | [one] => (d, some one)
      | _ => (d, none)

/-! ## The writes -/

/-- `INSERT` under a unique key. -/
def insertRows {α κ : Type} [DecidableEq κ] (key : α → κ) (columns : String) (rows new : List α) :
    Result (List α) :=
  new.foldlM (fun rows row ↦
    if rows.any (key · = key row) then .error (uniqueViolation columns)
    else .ok (rows ++ [row])) rows

/-- `delete_token_rows`. -/
def deleteTokenRows (d : Derived) (tokenId : CovenantId) : Derived :=
  { d with
    tokens := d.tokens.filter (·.tokenId ≠ tokenId)
    tokenEvents := d.tokenEvents.filter (·.tokenId ≠ tokenId)
    tokenBalances := d.tokenBalances.filter (·.tokenId ≠ tokenId)
    tokenTrades := d.tokenTrades.filter (·.tokenId ≠ tokenId) }

/-- The clearing half of the rewrite. -/
def clearTokenRows (d : Derived) (tokenId : CovenantId) : Derived :=
  { d with
    tokenEvents := d.tokenEvents.filter (·.tokenId ≠ tokenId)
    tokenBalances := d.tokenBalances.filter (·.tokenId ≠ tokenId)
    tokenTrades := d.tokenTrades.filter (·.tokenId ≠ tokenId) }

/-- `INSERT OR REPLACE INTO tokens`. -/
def replaceToken (row : TokenRow) (rows : List TokenRow) : List TokenRow :=
  rows.filter (·.tokenId ≠ row.tokenId) ++ [row]

/-- The `token_events` rows of the classified events. -/
def tokenEventRowsOf (tokenId : CovenantId) (classified : List ClassifiedEvent) :
    List TokenEvent :=
  classified.flatMap fun ev ↦ ev.deltas.zipIdx.map fun (d, deltaIdx) ↦
    { tokenId
      covenantId := tokenId
      seq := ev.seq
      deltaIdx
      kind := ev.kind
      amount := d.amount
      ownerFrom := d.ownerFrom
      ownerTo := d.ownerTo
      acceptingDaa := ev.acceptingDaa
      txIndex := ev.txIndex }

/-- The `token_balances` rows: a balance no column holds is left out. -/
def balanceRows (tokenId : CovenantId) (balances : List (OwnerKey × Int × Nat)) :
    List TokenBalance :=
  balances.filterMap fun (owner, balance, cells) ↦
    (Checked.narrow 63 balance).map fun balance ↦ { tokenId, owner, balance, cells }

/-- The covenant gate: the verdict to start from, and the last activity. -/
def covenantGate (s : Store) (tokenId : CovenantId) : Verdict × Nat :=
  match s.covenants.find? (·.covenantId = tokenId) with
  | some row =>
      (if !row.lineageComplete || row.genesisTxid.isNone then
          ({} : Verdict).flagUnvalidated
            "incomplete lineage — covenant history predates indexing"
        else {}, row.lastActivityDaa)
  | none => (({} : Verdict).flagUnvalidated "covenant row missing", 0)

/-- The row of a token that is pinned by a minter and never revealed. -/
def pinnedRow (s : Store) (tokenId : CovenantId) : TokenRow :=
  { tokenId
    invalidReason := some "pinned by minter; no KCC20 token reveal decoded"
    lastActivityDaa := ((s.covenants.find? (·.covenantId = tokenId)).map
      (·.lastActivityDaa)).getD 0
    derivedAtDaa := s.processedDaa }

/-- The walk over the token's events, and the check for cells with no event. -/
def walkToken (s : Store) (tokenId : CovenantId) (cells : List TokenCell)
    (events : List (Nat × EventRow)) : Result TokenWalk := do
  let w ← events.foldlM (walkEvent s tokenId cells) { verdict := (covenantGate s tokenId).1 }
  return match orphanTx cells events with
    | none => w
    | some txid => { w with
        verdict := w.verdict.flagUnvalidated ("no event row for tx " ++ txid.bytes.toHex ++
          " despite state cells")
        allEventsClean := false }

/-- The row of a derived token. -/
def derivedRow (s : Store) (tokenId : CovenantId) (cells : List TokenCell) (w : TokenWalk)
    (market : Option CovenantId) : TokenRow :=
  let balances := ownerBalances (liveStates cells)
  let (verdict, sums) := publishSums w balances (unresolvedCells cells)
  { tokenId
    status := verdict.status
    invalidReason := verdict.reason
    supply := sums.supply
    minted := sums.minted
    burned := sums.burned
    holders := balances.length
    heldCovenant := sums.heldCovenant
    heldWallet := sums.heldWallet
    heldScript := sums.heldScript
    unresolvedCells := unresolvedCells cells
    lastActivityDaa := (covenantGate s tokenId).2
    fields := newestFields cells
    derivedAtDaa := s.processedDaa
    marketCovenantId := market
    trades := w.tradeRows.length
    coMovedTrades := w.tradeRows.countP (0 < ·.coCovenants)
    tradesMissingTime := w.tradeRows.countP (·.acceptingTimeMs.isNone) }

/-- `pinned_by_minter`. -/
def pinnedByMinter (d : Derived) (tokenId : CovenantId) : Bool :=
  d.tokenMinters.any (·.tokenId = tokenId)

/-- `derive_token`. -/
def deriveToken (s : Store) (d : Derived) (tokenId : CovenantId) : Result Derived :=
  if !hasTokenEvidence s tokenId && !pinnedByMinter d tokenId then
    .ok (deleteTokenRows d tokenId)
  else
    let d := clearTokenRows d tokenId
    if !hasTokenEvidence s tokenId then
      .ok { d with tokens := replaceToken (pinnedRow s tokenId) d.tokens }
    else do
      let cells := provenCells registry blake2b s tokenId
      let events ← tokenEventRows s tokenId
      let w ← walkToken s tokenId cells events
      let (d, market) := marketLink blake2b builds s d (ownerBalances (liveStates cells))
      let tokenTrades ← insertRows (fun t : TokenTrade ↦ (t.tokenId, t.seq))
        "token_trades.token_id, token_trades.seq" d.tokenTrades w.tradeRows
      let tokenEvents ← insertRows (fun e : TokenEvent ↦
          (e.tokenId, e.covenantId, e.seq, e.deltaIdx))
        "token_events.token_id, token_events.covenant_id, token_events.seq, token_events.delta_idx"
        d.tokenEvents (tokenEventRowsOf tokenId w.classified)
      return { d with
        tokens := replaceToken (derivedRow s tokenId cells w market) d.tokens
        tokenTrades
        tokenEvents
        tokenBalances := d.tokenBalances ++
          balanceRows tokenId (ownerBalances (liveStates cells)) }

/-! ## Minters -/

/-- `MINTER_TEMPLATE`. -/
def minterTemplate : String := "KCC20 minter"

/-- The minter program of a cell: the cell itself, or what its spend reveals. -/
def minterProgram (cell : TokenCell) : Option Bytes :=
  if (registry.decode cell.spkVersion cell.spkScript).template = some minterTemplate then
    some cell.spkScript
  else cell.spentSig.bind (p2shReveal blake2b cell.spkScript)

/-- The tokens a minter program pins. -/
def programPins (cell : TokenCell) (program : Bytes) : List CovenantId :=
  let d := registry.decode cell.spkVersion program
  if d.template = some minterTemplate then
    (d.fields.filter fun f ↦
      f.name = "kcc20_covenant_a" ∨ f.name = "kcc20_covenant_b").filterMap fun f ↦
        (toBytes32 f.value).map fun b ↦ ⟨b.hash⟩
  else []

/-- A `BTreeSet` of covenants. -/
def covenantSet (ids : List CovenantId) : List CovenantId := ids.dedup.insertionSort (· ≤ ·)

/-- `derive_minter`: the minter's links, and the tokens linked before or after. -/
def deriveMinter (s : Store) (d : Derived) (minterId : CovenantId) : Derived × List CovenantId :=
  let pins := covenantSet ((loadCells s minterId).flatMap fun cell ↦
    ((minterProgram registry blake2b cell).map (programPins registry cell)).getD [])
  let old := (d.tokenMinters.filter (·.minterCovenantId = minterId)).map (·.tokenId)
  ({ d with tokenMinters := d.tokenMinters.filter (·.minterCovenantId ≠ minterId) ++
      pins.map fun pin ↦ ⟨minterId, pin⟩ },
    covenantSet (pins ++ old))

/-- The minters of `rederive_affected`, with the tokens they govern. -/
def rederiveMinters (s : Store) (d : Derived) (minters tokens : List CovenantId) :
    Derived × List CovenantId :=
  minters.foldl (fun acc minter ↦
    let (d, affected) := deriveMinter registry blake2b s acc.1 minter
    (d, covenantSet (acc.2 ++ affected))) (d, covenantSet tokens)

/-- One token of `rederive_affected`, with the market it is linked to. -/
def rederiveToken (s : Store) (acc : Derived × List CovenantId) (token : CovenantId) :
    Result (Derived × List CovenantId) := do
  let d ← deriveToken registry blake2b builds s acc.1 token
  let market := (d.tokens.find? (·.tokenId = token)).bind (·.marketCovenantId)
  return (d, covenantSet (acc.2 ++ market.toList))

/-- `rederive_affected`. -/
def rederiveAffected (db : Database) (minters tokens : List CovenantId) : Result Derived := do
  let (d, todo) := rederiveMinters registry blake2b db.store db.derived minters tokens
  let (d, markets) ← todo.foldlM (rederiveToken registry blake2b builds db.store) (d, [])
  return rederiveMarketPrograms blake2b builds db.store d markets

end Derivation

end Kascov
