import Kascov.Store.Tables

/-!
# The token and market tables

What `derive_token`, `derive_minter`, `derive_market_program` and
`derive_resting_order` write.  An `INTEGER` column that a writer fills from an
`i64` is an `Int`, one it fills from a `u64` a `Nat`.  The two JSON columns
hold the values they serialise.
-/

namespace Kascov

/-- A 32-byte array. -/
abbrev Bytes32 := { b : Bytes // b.length = 32 }

/-- `try_into` a 32-byte array. -/
def toBytes32 (b : Bytes) : Option Bytes32 :=
  if h : b.length = 32 then some ⟨b, h⟩ else none

/-- The hash a 32-byte array spells. -/
def Bytes32.hash (b : Bytes32) : BitVec 256 :=
  .ofNat 256 (b.val.foldl (fun n x ↦ 2 ^ 8 * n + x.toNat) 0)

/-- `hex(identifier_type || owner_identifier)`, kept as its 33 bytes. -/
structure OwnerKey where
  identifierType : UInt8
  owner : Bytes32
deriving DecidableEq

namespace OwnerKey

/-- The 33 bytes the hex text spells. -/
def bytes (k : OwnerKey) : Bytes := k.identifierType :: k.owner.val

theorem bytes_injective : Function.Injective bytes := by
  rintro ⟨ta, oa⟩ ⟨tb, ob⟩ h
  obtain ⟨ht, ho⟩ := List.cons.inj h
  exact congrArg₂ mk ht (Subtype.ext ho)

/-- The order of the hex text. -/
instance : LinearOrder OwnerKey :=
  LinearOrder.lift' (fun k ↦ k.bytes.map UInt8.toNat) <|
    (List.map_injective_iff.mpr fun _ _ ↦ UInt8.toNat_inj.mp).comp bytes_injective

end OwnerKey

/-- `kcc20::TokenState`. -/
structure TokenState where
  owner : Bytes32
  identifierType : UInt8
  amountRaw : Bytes
  minterRaw : Bytes
deriving DecidableEq

/-- `tokens.status`. -/
inductive Validation where
  | verified
  | invalid
  | unvalidated
deriving DecidableEq, Repr

/-- A row of `tokens`, keyed by `token_id`. -/
structure TokenRow where
  tokenId : CovenantId
  status : Validation := .unvalidated
  invalidReason : Option String := none
  supply : Option Int := none
  minted : Option Int := none
  burned : Option Int := none
  holders : Nat := 0
  heldCovenant : Option Int := none
  heldWallet : Option Int := none
  heldScript : Option Int := none
  unresolvedCells : Nat := 0
  lastActivityDaa : Nat := 0
  fields : Option TokenState := none
  derivedAtDaa : Option Nat := none
  marketCovenantId : Option CovenantId := none
  trades : Int := 0
  coMovedTrades : Int := 0
  tradesMissingTime : Int := 0
deriving DecidableEq

/-- A row of `token_minters`. -/
structure TokenMinter where
  minterCovenantId : CovenantId
  tokenId : CovenantId
deriving DecidableEq

inductive TokenEventKind where
  | genesis
  | mint
  | transfer
  | split
  | merge
  | burn
  | unknown
deriving DecidableEq, Repr

/-- A row of `token_events`, keyed by `(token_id, covenant_id, seq, delta_idx)`. -/
structure TokenEvent where
  tokenId : CovenantId
  covenantId : CovenantId
  seq : Nat
  deltaIdx : Nat
  kind : TokenEventKind
  amount : Option Int
  ownerFrom : Option OwnerKey
  ownerTo : Option OwnerKey
  acceptingDaa : Nat
  txIndex : Option Nat
deriving DecidableEq

/-- `token_trades.side`, the taker's view. -/
inductive Side where
  | buy
  | sell
deriving DecidableEq, Repr

/-- A row of `token_trades`, keyed by `(token_id, seq)`. -/
structure TokenTrade where
  tokenId : CovenantId
  seq : Nat
  txid : TxId
  marketCovenantId : CovenantId
  side : Side
  baseAmount : Int
  quoteSompi : Int
  kasBeforeSompi : Int
  kasAfterSompi : Int
  baseBefore : Int
  baseAfter : Int
  coCovenants : Int
  counterparty : Option OwnerKey
  acceptingDaa : Nat
  acceptingBlueScore : Option Nat
  txIndex : Option Nat
  acceptingTimeMs : Option Int
deriving DecidableEq

/-- A row of `token_balances`, keyed by `(token_id, owner)`. -/
structure TokenBalance where
  tokenId : CovenantId
  owner : OwnerKey
  balance : Int
  cells : Nat
deriving DecidableEq

/-- A row of `market_programs`, keyed by `covenant_id`, less the columns that
no writer fills. -/
structure MarketProgram where
  covenantId : CovenantId
  programHash : BitVec 256
  skeleton : String
  vKasUnits : Int := 0
  tokenReserve : Option Int := none
  tokenCovenantId : Option CovenantId := none
  lpTokenCovenantId : Option CovenantId := none
  kasReserveSompi : Option Int := none
  shares : Option Int := none
  graduationKasSompi : Option Int := none
  creatorFeeOwner : Option (BitVec 256) := none
  invariantCheckedThroughSeq : Int := -1
  invariantTrades : Int := 0
  invariantOk : Bool := false
  exercisedTrades : Int := 0
  programLen : Option Nat := none
  programPushes : Option Nat := none
deriving DecidableEq

/-- `resting_orders.state`. -/
inductive OrderState where
  | «open»
  | filled
  | cancelled
deriving DecidableEq, Repr

/-- A row of `resting_orders`, keyed by `covenant_id`. -/
structure RestingOrder where
  covenantId : CovenantId
  tokenId : CovenantId
  side : Side
  priceNum : Int
  priceDen : Int
  amount : Int
  maker : BitVec 256
  expiryDaa : Int
  state : OrderState
  createdDaa : Nat
  resolvedDaa : Option Nat
deriving DecidableEq

/-- The tables derived from the covenant tables. -/
structure Derived where
  tokens : List TokenRow := []
  tokenMinters : List TokenMinter := []
  tokenEvents : List TokenEvent := []
  tokenTrades : List TokenTrade := []
  tokenBalances : List TokenBalance := []
  marketPrograms : List MarketProgram := []
  restingOrders : List RestingOrder := []
deriving DecidableEq

/-- The database the pages are served from. -/
structure Database where
  store : Store
  derived : Derived := {}
deriving DecidableEq

end Kascov
