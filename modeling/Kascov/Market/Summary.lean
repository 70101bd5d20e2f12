import Kascov.Market.Curve

/-!
# The market summary of a token

`market_summary`: the gated figures a token page shows, computed when it is
served from the newest `scan` stored trades.
-/

namespace Kascov

/-- `MIN_PRICEABLE_QUOTE_SOMPI`. -/
def minPriceableQuoteSompi : Int := 100000000

/-- `WINDOW_SPAN_MS`. -/
def windowSpanMs : Int := 86400000

/-- `MarketProgramRow`, the columns `market_program_row` selects. -/
structure MarketProgramRow where
  covenantId : CovenantId
  programHash : BitVec 256
  skeleton : String
  vKasUnits : Int
  tokenReserve : Option Int
  graduationKasSompi : Option Int
  invariantOk : Bool
  exercisedTrades : Int
  shares : Option Int
  kasReserveSompi : Option Int
  tokenCovenantId : Option CovenantId
  lpTokenCovenantId : Option CovenantId
deriving DecidableEq

def MarketProgram.row (p : MarketProgram) : MarketProgramRow :=
  { covenantId := p.covenantId, programHash := p.programHash, skeleton := p.skeleton,
    vKasUnits := p.vKasUnits, tokenReserve := p.tokenReserve,
    graduationKasSompi := p.graduationKasSompi, invariantOk := p.invariantOk,
    exercisedTrades := p.exercisedTrades, shares := p.shares,
    kasReserveSompi := p.kasReserveSompi, tokenCovenantId := p.tokenCovenantId,
    lpTokenCovenantId := p.lpTokenCovenantId }

/-- `market_program_row`. -/
def marketProgramRow (db : Database) (covenantId : CovenantId) : Option MarketProgramRow :=
  (db.derived.marketPrograms.find? (·.covenantId = covenantId)).map MarketProgram.row

/-- `MarketSummary`.  `exitValueSompi` is served as its decimal text. -/
structure MarketSummary where
  phase : Option String := none
  gradProgressBps : Option Int := none
  unpricedReason : Option String := none
  lastQuoteSompi : Option Int := none
  lastBaseAmount : Option Int := none
  lastSide : Option Side := none
  lastDaa : Option Nat := none
  lastTimeMs : Option Int := none
  volume24hSompi : Option Int := none
  trades24h : Option Nat := none
  change24hBps : Option Int := none
  windowNote : Option String := none
  reserveSompi : Option Int := none
  reserveNote : Option String := none
  spotNumSompi : Option Int := none
  spotDen : Option Int := none
  exitValueSompi : Option Int := none
  lpOfPool : Option CovenantId := none
  poolShares : Option Int := none
  issuedShares : Option Int := none
  program : Option MarketProgramRow := none
deriving DecidableEq

/-! ## The trades it reads -/

/-- The stored trades of a token, newest first. -/
def tokenTradesDesc (db : Database) (id : CovenantId) : List TokenTrade :=
  (db.derived.tokenTrades.filter (·.tokenId = id)).insertionSort fun a b ↦ b.seq ≤ a.seq

/-- `token_trades_page`. -/
def tokenTradesPage (db : Database) (id : CovenantId) (limit : Nat) : List TokenTrade :=
  (tokenTradesDesc db id).take limit

/-- The filter of `market_summary`: same-tx clean, on this market, and inside
its price bracket. -/
def publishable (market : CovenantId) (prog : MarketProgramRow) (t : TokenTrade) : Bool :=
  t.coCovenants = 0 && t.marketCovenantId = market &&
    bracketHolds (prog.vKasUnits * kasQuantumSompi) t.kasBeforeSompi t.kasAfterSompi t.baseBefore
      t.baseAfter t.quoteSompi t.baseAmount (t.side = .buy) (feeModel prog.skeleton).1

/-- Whether a trade's time lies in the 24 hours that end at `tip`. -/
def inWindow (tip : Int) (t : TokenTrade) : Bool :=
  t.acceptingTimeMs.any fun ms ↦ tip - windowSpanMs ≤ ms ∧ ms ≤ tip

/-! ## The blocks of the summary -/

/-- A pool's share token is labelled, never priced. -/
def lpSummary (db : Database) (heldWallet heldScript : Option Int) (pool : CovenantId) :
    MarketSummary :=
  let out : MarketSummary :=
    { phase := some "lp shares"
      unpricedReason :=
        some "this token is a pool's LP share token; kascov does not price LP shares"
      lpOfPool := some pool }
  match marketProgramRow db pool with
  | some prog =>
    { out with
      poolShares := prog.shares
      issuedShares := some (heldWallet.getD 0 + heldScript.getD 0)
      program := some prog }
  | none => out

/-- The last price: the newest publishable trade that moved at least 1 KAS. -/
def lastPrice (scan : Nat) (trades : List TokenTrade) (out : MarketSummary) : MarketSummary :=
  match trades.find? (minPriceableQuoteSompi ≤ ·.quoteSompi) with
  | some last =>
    { out with
      lastQuoteSompi := some last.quoteSompi
      lastBaseAmount := some last.baseAmount
      lastSide := some last.side
      lastDaa := some last.acceptingDaa
      lastTimeMs := last.acceptingTimeMs }
  | none =>
    if out.unpricedReason = none then
      { out with
        unpricedReason :=
          some s!"no bracket-passing trade of at least 1 KAS in the newest {scan} scanned" }
    else out

/-- The price change between two trades, in basis points. -/
def changeBps (newest reference : TokenTrade) : Option Int := do
  let a ← Checked.mul 127 newest.quoteSompi reference.baseAmount
  let b ← Checked.mul 127 reference.quoteSompi newest.baseAmount
  let num ← Checked.sub 127 a b
  let scaled ← Checked.mul 127 num 10000
  let den ← Checked.mul 127 reference.quoteSompi newest.baseAmount
  Checked.narrow 63 (scaled.tdiv den)

/-- The 24-hour window over the scanned publishable trades. -/
def window24h (tradesMissingTime : Int) (tipAtMs : Option Int) (trades : List TokenTrade)
    (out : MarketSummary) : MarketSummary :=
  if 0 < tradesMissingTime then
    { out with windowNote := some "some of this token's trades predate timestamp capture" }
  else
    match tipAtMs with
    | none => out
    | some tip =>
      let inside := trades.filter (inWindow tip)
      let out :=
        if inside = [] then out
        else
          { out with
            volume24hSompi := Checked.narrow 63 (inside.map (·.quoteSompi)).sum
            trades24h := some inside.length }
      match trades.find? (minPriceableQuoteSompi ≤ ·.quoteSompi),
        trades.find? (fun t ↦ minPriceableQuoteSompi ≤ t.quoteSompi &&
          t.acceptingTimeMs.any (· < tip - windowSpanMs)) with
      | some newest, some reference => { out with change24hBps := changeBps newest reference }
      | _, _ => out

/-- Progress toward graduation, while bonding.  The quotient is cast to `i64`,
not converted: it wraps. -/
def gradProgress (prog : MarketProgramRow) (value : Int) : Option Int :=
  match prog.graduationKasSompi with
  | none => none
  | some grad =>
    if phaseForSkeleton prog.skeleton = "bonding" ∧ 0 < grad then
      (Checked.mul 127 value 10000).map fun n ↦ (n.tdiv grad).bmod (2 ^ 64)
    else none

/-- The reserve, when the market holds exactly one live cell and its program
names this token. -/
def reserve (db : Database) (tokenId market : CovenantId) (prog : MarketProgramRow)
    (out : MarketSummary) : MarketSummary :=
  let live := db.store.covenantUtxos.filter fun u ↦ u.covenantId = market && u.spentBlock = none
  let value : Int := ((live.map (·.value)).sum : Nat)
  let namesThisToken := (db.derived.marketPrograms.find? (·.covenantId = market)).any
    (·.tokenCovenantId = some tokenId)
  if live.length = 1 ∧ namesThisToken then
    { out with reserveSompi := some value, gradProgressBps := gradProgress prog value }
  else if live.length ≠ 1 then
    { out with reserveNote := some "the market covenant's KAS sits in more than one cell" }
  else
    { out with
      reserveNote :=
        some "the market program names a different token; its KAS is not attributable" }

/-- The spot pair and the exit value, when the newest trade's balance is what
the covenant holds. -/
def spotAndExit (v : Int) (trades : List TokenTrade) (heldCovenant heldWallet heldScript : Option Int)
    (out : MarketSummary) : MarketSummary :=
  match out.reserveSompi, trades.head?.map (·.baseAfter), heldCovenant with
  | some reserve, some tLive, some hc =>
    if tLive = hc ∧ 0 < tLive then
      { out with
        spotNumSompi := some (v + reserve)
        spotDen := some tLive
        exitValueSompi :=
          match heldWallet, heldScript with
          | some hw, some hs => do
            let num ← Checked.mul 127 (v + reserve) (hw + hs)
            let den ← Checked.add 127 tLive (hw + hs)
            some (min (num.tdiv den) reserve)
          | _, _ => none }
    else out
  | _, _, _ => out

/-! The later blocks leave the price and the window as they are. -/

section Frame

variable (db : Database) (tokenId market : CovenantId) (prog : MarketProgramRow)
variable (heldCovenant heldWallet heldScript : Option Int) (v : Int) (trades : List TokenTrade)
variable (out : MarketSummary)

theorem reserve_cases : ∃ r n g, reserve db tokenId market prog out =
    { out with reserveSompi := r, reserveNote := n, gradProgressBps := g } := by
  unfold reserve
  dsimp only
  split
  · exact ⟨_, _, _, rfl⟩
  · split
    · exact ⟨_, _, _, rfl⟩
    · exact ⟨_, _, _, rfl⟩

theorem spotAndExit_cases : ∃ n d e,
    spotAndExit v trades heldCovenant heldWallet heldScript out =
      { out with spotNumSompi := n, spotDen := d, exitValueSompi := e } := by
  unfold spotAndExit
  split
  · split
    · exact ⟨_, _, _, rfl⟩
    · exact ⟨_, _, _, rfl⟩
  · exact ⟨_, _, _, rfl⟩

@[simp] theorem lastQuoteSompi_reserve :
    (reserve db tokenId market prog out).lastQuoteSompi = out.lastQuoteSompi := by
  obtain ⟨r, n, g, h⟩ := reserve_cases db tokenId market prog out
  rw [h]

@[simp] theorem volume24hSompi_reserve :
    (reserve db tokenId market prog out).volume24hSompi = out.volume24hSompi := by
  obtain ⟨r, n, g, h⟩ := reserve_cases db tokenId market prog out
  rw [h]

@[simp] theorem trades24h_reserve :
    (reserve db tokenId market prog out).trades24h = out.trades24h := by
  obtain ⟨r, n, g, h⟩ := reserve_cases db tokenId market prog out
  rw [h]

@[simp] theorem lastQuoteSompi_spotAndExit :
    (spotAndExit v trades heldCovenant heldWallet heldScript out).lastQuoteSompi =
      out.lastQuoteSompi := by
  obtain ⟨n, d, e, h⟩ := spotAndExit_cases heldCovenant heldWallet heldScript v trades out
  rw [h]

@[simp] theorem volume24hSompi_spotAndExit :
    (spotAndExit v trades heldCovenant heldWallet heldScript out).volume24hSompi =
      out.volume24hSompi := by
  obtain ⟨n, d, e, h⟩ := spotAndExit_cases heldCovenant heldWallet heldScript v trades out
  rw [h]

@[simp] theorem trades24h_spotAndExit :
    (spotAndExit v trades heldCovenant heldWallet heldScript out).trades24h = out.trades24h := by
  obtain ⟨n, d, e, h⟩ := spotAndExit_cases heldCovenant heldWallet heldScript v trades out
  rw [h]

end Frame

/-- What follows once every gate is open. -/
def pricedSummary (db : Database) (tokenId market : CovenantId) (prog : MarketProgramRow)
    (heldCovenant heldWallet heldScript : Option Int) (tradesMissingTime : Int)
    (tipAtMs : Option Int) (scan : Nat) (out : MarketSummary) : MarketSummary :=
  let trades := (tokenTradesPage db tokenId scan).filter (publishable market prog)
  spotAndExit (prog.vKasUnits * kasQuantumSompi) trades heldCovenant heldWallet heldScript <|
    reserve db tokenId market prog <|
      window24h tradesMissingTime tipAtMs trades <| lastPrice scan trades out

/-- `market_summary`. -/
def marketSummary (db : Database) (tokenId : CovenantId) (marketCovenantId : Option CovenantId)
    (heldCovenant heldWallet heldScript : Option Int) (tradesMissingTime : Int)
    (tipAtMs : Option Int) (scan : Nat) : MarketSummary :=
  match db.derived.marketPrograms.find? (·.lpTokenCovenantId = some tokenId) with
  | some pool => lpSummary db heldWallet heldScript pool.covenantId
  | none =>
    match marketCovenantId with
    | none => { unpricedReason := some "no single covenant holds this token's inventory" }
    | some market =>
      match marketProgramRow db market with
      | none => { unpricedReason := some "the market covenant's program is not yet verified" }
      | some prog =>
        let out : MarketSummary :=
          { program := some prog, phase := some (phaseForSkeleton prog.skeleton) }
        if isMatchedSkeleton prog.skeleton = false then
          { out with
            unpricedReason :=
              some ("the covenant holding the inventory runs a program kascov does not recognise," ++
                "              so no exchange rate it produces can be verified") }
        else if prog.invariantOk = false then
          { out with
            unpricedReason :=
              some ("a recorded trade violates the program's own formula — " ++
                "nothing it produced is priced") }
        else if prog.exercisedTrades < minExercisedTrades then
          { out with
            unpricedReason :=
              some (s!"only {prog.exercisedTrades} trade(s) have exercised this program's " ++
                s!"constants; kascov prices after {minExercisedTrades}") }
        else
          pricedSummary db tokenId market prog heldCovenant heldWallet heldScript
            tradesMissingTime tipAtMs scan out

/-! ## When a summary is priced -/

/-- Every gate of `market_summary` is open for this market and its row. -/
structure Priced (db : Database) (tokenId : CovenantId) (marketCovenantId : Option CovenantId)
    (market : CovenantId) (prog : MarketProgramRow) : Prop where
  notLp : db.derived.marketPrograms.find? (·.lpTokenCovenantId = some tokenId) = none
  link : marketCovenantId = some market
  row : marketProgramRow db market = some prog
  matched : isMatchedSkeleton prog.skeleton = true
  invariantOk : prog.invariantOk = true
  exercised : minExercisedTrades ≤ prog.exercisedTrades

/-- A summary without a price and without a window. -/
structure MarketSummary.Unpriced (out : MarketSummary) : Prop where
  lastQuote : out.lastQuoteSompi = none
  volume : out.volume24hSompi = none
  trades : out.trades24h = none

section Gates

variable (db : Database) (tokenId : CovenantId) (marketCovenantId : Option CovenantId)
variable (heldCovenant heldWallet heldScript : Option Int) (missing : Int) (tip : Option Int)
variable (scan : Nat)

theorem marketSummary_of_priced {market : CovenantId} {prog : MarketProgramRow}
    {marketCovenantId : Option CovenantId} (h : Priced db tokenId marketCovenantId market prog) :
    marketSummary db tokenId marketCovenantId heldCovenant heldWallet heldScript missing tip scan =
      pricedSummary db tokenId market prog heldCovenant heldWallet heldScript missing tip scan
        { program := some prog, phase := some (phaseForSkeleton prog.skeleton) } := by
  obtain ⟨hlp, rfl, hrow, hmatched, hok, hex⟩ := h
  simp only [marketSummary, hlp, hrow]
  rw [if_neg (by simp [hmatched]), if_neg (by simp [hok]), if_neg (not_lt.mpr hex)]

theorem lpSummary_unpriced (pool : CovenantId) :
    (lpSummary db heldWallet heldScript pool).Unpriced := by
  unfold lpSummary
  dsimp only
  split
  · exact ⟨rfl, rfl, rfl⟩
  · exact ⟨rfl, rfl, rfl⟩

theorem marketSummary_unpriced
    (h : ∀ market prog, ¬Priced db tokenId marketCovenantId market prog) :
    (marketSummary db tokenId marketCovenantId heldCovenant heldWallet heldScript missing tip
      scan).Unpriced := by
  unfold marketSummary
  split
  next pool _ => exact lpSummary_unpriced _ _ _ _
  next hlp =>
    split
    next => exact ⟨rfl, rfl, rfl⟩
    next market =>
      split
      next => exact ⟨rfl, rfl, rfl⟩
      next prog hrow =>
        dsimp only
        split
        next => exact ⟨rfl, rfl, rfl⟩
        next hmatched =>
          split
          next => exact ⟨rfl, rfl, rfl⟩
          next hok =>
            split
            next => exact ⟨rfl, rfl, rfl⟩
            next hex =>
              exact absurd ⟨hlp, rfl, hrow, by simpa using hmatched, by simpa using hok,
                not_lt.mp hex⟩ (h market prog)

end Gates

end Kascov
