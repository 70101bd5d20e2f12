import Kascov.Market.Summary

/-!
# The trade feeds and the derivation log

The feeds join `token_trades` with the verified tokens and with the programs
that license a price.  Both joined tables are keyed by the join column, so the
join keeps or drops a trade.  `finish_derivation_run` tallies the programs of
the markets the tokens are linked to.
-/

namespace Kascov

/-- The seven names the feeds bind: `skeletons[0]` to `skeletons[6]`. -/
def feedSkeletons : List String := matchedSkeletons.take 7

/-- `JOIN tokens tok ON … AND tok.status = 'verified'`. -/
def verifiedToken (db : Database) (id : CovenantId) : Bool :=
  db.derived.tokens.any fun tok ↦ tok.tokenId = id && tok.status = .verified

/-- The `ON` clause over one row of `market_programs`, its key apart. -/
def feedLicense (mp : MarketProgram) : Bool :=
  mp.invariantOk && feedSkeletons.contains mp.skeleton &&
    decide (minExercisedTrades ≤ mp.exercisedTrades)

/-- `JOIN market_programs mp ON mp.covenant_id = tt.market_covenant_id AND …`. -/
def licensedMarket (db : Database) (id : CovenantId) : Bool :=
  db.derived.marketPrograms.any fun mp ↦ mp.covenantId = id && feedLicense mp

/-- The join all three trade feeds select from. -/
def feedTrades (db : Database) : List TokenTrade :=
  db.derived.tokenTrades.filter fun tt ↦
    verifiedToken db tt.tokenId && licensedMarket db tt.marketCovenantId

/-- `token_trades_page_before`. -/
def tokenTradesPageBefore (db : Database) (id : CovenantId) (beforeSeq : Option Nat)
    (limit : Nat) : List TokenTrade :=
  let before := (beforeSeq.map (min · (2 ^ 63 - 1))).getD (2 ^ 63 - 1)
  (((feedTrades db).filter fun tt ↦ tt.tokenId = id && tt.seq < before).insertionSort
    fun a b ↦ b.seq ≤ a.seq).take (min limit (2 ^ 63 - 1))

/-- `token_trades_count`. -/
def tokenTradesCount (db : Database) (id : CovenantId) : Nat :=
  (feedTrades db).countP (·.tokenId = id)

/-- The sort key of the global feed, in descending order. -/
def TokenTrade.feedKey (tt : TokenTrade) : Nat ×ₗ Nat ×ₗ Nat :=
  toLex (tt.acceptingDaa, toLex (tt.tokenId.bytes.toNat, tt.seq))

/-- The cursor condition of the global feed. -/
def TokenTrade.before (tt : TokenTrade) (cursor : Nat × CovenantId × Nat) : Bool :=
  let daa := min cursor.1 (2 ^ 63 - 1)
  let seq := min cursor.2.2 (2 ^ 63 - 1)
  tt.acceptingDaa < daa ||
    (tt.acceptingDaa = daa && tt.tokenId.bytes.toNat < cursor.2.1.bytes.toNat) ||
    (tt.acceptingDaa = daa && tt.tokenId = cursor.2.1 && tt.seq < seq)

/-- `global_token_trades_page`. -/
def globalTokenTradesPage (db : Database) (tokenId marketId : Option CovenantId)
    (side : Option Side) (before : Option (Nat × CovenantId × Nat)) (limit : Nat) :
    List TokenTrade :=
  (((feedTrades db).filter fun tt ↦
      tokenId.all (tt.tokenId = ·) && marketId.all (tt.marketCovenantId = ·) &&
        side.all (tt.side = ·) && before.all tt.before).insertionSort
    fun a b ↦ b.feedKey ≤ a.feedKey).take (min limit (2 ^ 63 - 1))

/-! ## The derivation log -/

/-- The five names the tally binds: `allow[0]` to `allow[4]`. -/
def tallySkeletons : List String := matchedSkeletons.take 5

/-- The columns of `derivation_runs` that `finish_derivation_run` fills. -/
structure DerivationTally where
  outcome : String
  finishedMs : Nat
  tokensExamined : Nat
  tokensVerified : Nat
  tokensUnvalidated : Nat
  tokensInvalid : Nat
  tokensAdded : Nat
  tokensRemoved : Nat
  verdictsChanged : Nat
  marketsExamined : Nat
  marketsMatched : Nat
  marketsUnmatched : Nat
  marketsUnrevealed : Nat
  marketsInvariantFailed : Nat
  changes : List (CovenantId × Validation × Validation)
  error : Option String
deriving DecidableEq

/-- `SELECT DISTINCT market_covenant_id FROM tokens WHERE … IS NOT NULL`. -/
def linkedMarkets (db : Database) : List CovenantId :=
  (db.derived.tokens.filterMap (·.marketCovenantId)).dedup

/-- The program of a linked market: the `LEFT JOIN`. -/
def linkedProgram (db : Database) (id : CovenantId) : Option MarketProgram :=
  db.derived.marketPrograms.find? (·.covenantId = id)

/-- `finish_derivation_run`.  `before` maps each token of the start of the pass
to its verdict. -/
def finishDerivationRun (db : Database) (full : Bool) (examined : Nat)
    (before : List (CovenantId × Validation)) (error : Option String) (nowMs : Nat) :
    DerivationTally :=
  let tokens := db.derived.tokens
  let after := (tokens.map fun t ↦ (t.tokenId, t.status)).insertionSort fun a b ↦ a.1 ≤ b.1
  let was (id : CovenantId) : Option Validation := (before.find? (·.1 = id)).map (·.2)
  let changes := after.filterMap fun e ↦
    match was e.1 with
    | some v => if v ≠ e.2 then some (e.1, v, e.2) else none
    | none => none
  let markets := linkedMarkets db
  let listed (id : CovenantId) : Bool :=
    (linkedProgram db id).any (tallySkeletons.contains ·.skeleton)
  { outcome := if error.isSome then "degraded" else "ok"
    finishedMs := nowMs
    tokensExamined := examined
    tokensVerified := tokens.countP (·.status = .verified)
    tokensUnvalidated := tokens.countP (·.status = .unvalidated)
    tokensInvalid := tokens.countP (·.status = .invalid)
    tokensAdded := if full then after.countP (fun e ↦ (was e.1).isNone) else 0
    tokensRemoved := if full then before.countP (fun e ↦ !after.any (·.1 = e.1)) else 0
    verdictsChanged := if full then changes.length else 0
    marketsExamined := markets.length
    marketsMatched := markets.countP listed
    marketsUnmatched := markets.countP fun id ↦ (linkedProgram db id).isSome && !listed id
    marketsUnrevealed := markets.countP fun id ↦ (linkedProgram db id).isNone
    marketsInvariantFailed := markets.countP fun id ↦
      listed id && (linkedProgram db id).any (!·.invariantOk)
    changes := changes.take 64
    error }

end Kascov
