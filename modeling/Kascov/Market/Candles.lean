import Kascov.Lib.Groups
import Kascov.Market.Gate
import Mathlib.Algebra.Order.Field.Rat
import Mathlib.Tactic.NormNum

/-!
# Candles

`token_candles` restates the gates and the filter of the market summary, with a table of fees of
its own, and buckets the trades that pass.  A candle publishes prices as pairs and orders them by
cross-multiplication; here they are compared with the prices as rationals.
-/

namespace Kascov

/-- `CANDLE_TRADE_SCAN`. -/
def candleTradeScan : Nat := 20000

/-- `parse_bucket`. -/
def parseBucket (label : String) : Option Int :=
  if label = "1h" then some 3600000
  else if label = "4h" then some 14400000
  else if label = "1d" then some 86400000
  else none

/-- `candle_bracket_fee_bps`. -/
def candleBracketFeeBps (skeleton : String) : Option Int :=
  if skeleton ∈ ["KRON curve v1", "KRON curve v2", "curve tn-b"] then some 0
  else if skeleton ∈ ["KRON pool v1", "KRON pool v2", "KRON pool tn-a"] then some 20
  else none

/-- `candle_px`: the quote and the base. -/
def candlePx (tr : TokenTrade) : Int × Int := (tr.quoteSompi, tr.baseAmount)

/-- `candle_px_lt`.  A product of two `i64` fits an `i128`. -/
def candlePxLt (a b : Int × Int) : Bool := a.1 * b.2 < b.1 * a.2

/-! ## Buckets -/

structure CandleBucket where
  «open» : TokenTrade
  high : TokenTrade
  low : TokenTrade
  close : TokenTrade
  volume : Int
  count : Nat

/-- `or_insert`. -/
def CandleBucket.first (tr : TokenTrade) : CandleBucket where
  «open» := tr
  high := tr
  low := tr
  close := tr
  volume := tr.quoteSompi
  count := 1

/-- `and_modify`. -/
def CandleBucket.trade (b : CandleBucket) (tr : TokenTrade) : CandleBucket where
  «open» := b.open
  high := if candlePxLt (candlePx b.high) (candlePx tr) then tr else b.high
  low := if candlePxLt (candlePx tr) (candlePx b.low) then tr else b.low
  close := tr
  volume := b.volume + tr.quoteSompi
  count := b.count + 1

/-- The bucket of a trade: `ms.div_euclid(bucket_ms) * bucket_ms`. -/
def candleStart (bucketMs : Int) (tr : TokenTrade) : Option Int :=
  tr.acceptingTimeMs.map (· / bucketMs * bucketMs)

structure Candle where
  t : Int
  «open» : Int × Int
  high : Int × Int
  low : Int × Int
  close : Int × Int
  volumeSompi : Option Int
  trades : Nat
  firstTxid : TxId
  lastTxid : TxId
deriving DecidableEq

/-- The JSON of a bucket. -/
def CandleBucket.candle (t : Int) (b : CandleBucket) : Candle where
  t := t
  «open» := candlePx b.open
  high := candlePx b.high
  low := candlePx b.low
  close := candlePx b.close
  volumeSompi := Checked.narrow 63 b.volume
  trades := b.count
  firstTxid := b.open.txid
  lastTxid := b.close.txid

/-- The `BTreeMap` of the buckets. -/
def candleMap (bucketMs : Int) (trades : List TokenTrade) : Std.TreeMap Int CandleBucket :=
  trades.foldl (Groups.foldRow (candleStart bucketMs) .first .trade) ∅

/-- `candle_buckets`. -/
def candleBuckets (trades : List TokenTrade) (bucketMs : Int) : List Candle :=
  (candleMap bucketMs trades).toList.map fun (t, b) ↦ b.candle t

/-- The filter of `token_candles`. -/
def candlePublishable (v feeBps : Int) (market : CovenantId) (t : TokenTrade) : Bool :=
  t.coCovenants = 0 && t.marketCovenantId = market && minPriceableQuoteSompi ≤ t.quoteSompi &&
    bracketHolds v t.kasBeforeSompi t.kasAfterSompi t.baseBefore t.baseAfter t.quoteSompi
      t.baseAmount (t.side = .buy) feeBps

/-- `token_market_summary`, of a token's page. -/
def tokenMarketSummary (db : Database) (tipAtMs : Option Int) (row : TokenRow) : MarketSummary :=
  marketSummary db row.tokenId row.marketCovenantId row.heldCovenant row.heldWallet row.heldScript
    row.tradesMissingTime tipAtMs 1000

/-- `token_candles`: the series, or the reason why there is none. -/
def tokenCandles (db : Database) (tipAtMs : Option Int) (row : TokenRow) (bucketMs : Int) :
    List Candle × Option String :=
  let refuse (reason : String) : List Candle × Option String := ([], some reason)
  if row.status ≠ .verified then
    refuse "the token's derivation is not verified; kascov prices nothing it trades"
  else
    let summary := tokenMarketSummary db tipAtMs row
    if summary.lpOfPool.isSome then
      refuse "this token is a pool's LP share token; kascov does not price LP shares"
    else
      match row.marketCovenantId with
      | none => refuse "no single covenant holds this token's inventory"
      | some market =>
        match summary.program with
        | none => refuse "the market covenant's program is not yet verified"
        | some prog =>
          match candleBracketFeeBps prog.skeleton with
          | none =>
            refuse ("kascov has no audited fee model for the program holding this token's " ++
              "inventory; no trade of it can be admitted to a candle")
          | some feeBps =>
            if prog.invariantOk = false then
              refuse ("a recorded trade violates the program's own formula — " ++
                "nothing it produced is priced")
            else if prog.exercisedTrades < minExercisedTrades then
              refuse (s!"only {prog.exercisedTrades} trade(s) have exercised this program's " ++
                s!"constants; kascov prices after {minExercisedTrades}")
            else if 0 < row.tradesMissingTime then
              refuse (s!"{row.tradesMissingTime} trade(s) predate timestamp capture; " ++
                "a partial bucket would misstate its span")
            else
              let v := prog.vKasUnits * kasQuantumSompi
              let trades := (tokenTradesPage db row.tokenId candleTradeScan).insertionSort
                fun a b ↦ a.seq ≤ b.seq
              (candleBuckets (trades.filter (candlePublishable v feeBps market)) bucketMs, none)

/-! ## What a candle says -/

/-- The price that a pair stands for. -/
def pxRat (px : Int × Int) : ℚ := px.1 / px.2

/-- The trade lies in the bucket that starts at `start`. -/
def inBucket (bucketMs start : Int) (t : TokenTrade) : Bool :=
  t.acceptingTimeMs.any fun ms ↦ start ≤ ms ∧ ms < start + bucketMs

/-- What a candle states of the trades in its bucket: the price of the first and of the last one,
the highest and the lowest price, the sum of the quotes and the number. -/
structure Candle.Of (c : Candle) (inside : List TokenTrade) : Prop where
  opens : ∃ t ∈ inside, c.open = candlePx t ∧ c.firstTxid = t.txid ∧ ∀ t' ∈ inside, t.seq ≤ t'.seq
  closes : ∃ t ∈ inside, c.close = candlePx t ∧ c.lastTxid = t.txid ∧ ∀ t' ∈ inside, t'.seq ≤ t.seq
  high : ∃ t ∈ inside, c.high = candlePx t ∧ ∀ t' ∈ inside, pxRat (candlePx t') ≤ pxRat c.high
  low : ∃ t ∈ inside, c.low = candlePx t ∧ ∀ t' ∈ inside, pxRat c.low ≤ pxRat (candlePx t')
  volume : c.volumeSompi = Checked.narrow 63 (inside.map (·.quoteSompi)).sum
  count : c.trades = inside.length

/-- The trades that the summary's own filter admits, of at least 1 KAS, among the newest stored. -/
def admittedTrades (db : Database) (tokenId market : CovenantId) (prog : MarketProgramRow) :
    List TokenTrade :=
  (tokenTradesPage db tokenId candleTradeScan).filter fun t ↦
    publishable market prog t && minPriceableQuoteSompi ≤ t.quoteSompi

/-! ## The fold of a bucket -/

theorem candlePxLt_iff {a b : Int × Int} (ha : 0 < a.2) (hb : 0 < b.2) :
    candlePxLt a b = true ↔ pxRat a < pxRat b := by
  have ha' : (0 : ℚ) < a.2 := Int.cast_pos.mpr ha
  have hb' : (0 : ℚ) < b.2 := Int.cast_pos.mpr hb
  rw [candlePxLt, decide_eq_true_eq, pxRat, pxRat, div_lt_div_iff₀ ha' hb', ← Int.cast_mul,
    ← Int.cast_mul, Int.cast_lt]

/-- What a bucket has of the trades that were folded into it, the oldest first. -/
structure CandleBucket.Holds (b : CandleBucket) (trades : List TokenTrade) : Prop where
  opens : ∃ rest, trades = b.open :: rest
  closes : ∃ front, trades = front ++ [b.close]
  high : b.high ∈ trades ∧ ∀ t ∈ trades, pxRat (candlePx t) ≤ pxRat (candlePx b.high)
  low : b.low ∈ trades ∧ ∀ t ∈ trades, pxRat (candlePx b.low) ≤ pxRat (candlePx t)
  volume : b.volume = (trades.map (·.quoteSompi)).sum
  count : b.count = trades.length

theorem CandleBucket.holds_first (tr : TokenTrade) : (first tr).Holds [tr] where
  opens := ⟨[], rfl⟩
  closes := ⟨[], rfl⟩
  high := by simp [first]
  low := by simp [first]
  volume := by simp [first]
  count := rfl

/-- One more trade. -/
theorem CandleBucket.Holds.trade {b : CandleBucket} {trades : List TokenTrade} {tr : TokenTrade}
    (h : b.Holds trades) (hpos : ∀ t ∈ trades ++ [tr], 0 < t.baseAmount) :
    (b.trade tr).Holds (trades ++ [tr]) := by
  have htr : 0 < tr.baseAmount := hpos tr (by simp)
  have hhigh := candlePxLt_iff (a := candlePx b.high) (b := candlePx tr)
    (hpos _ (List.mem_append_left _ h.high.1)) htr
  have hlow := candlePxLt_iff (a := candlePx tr) (b := candlePx b.low) htr
    (hpos _ (List.mem_append_left _ h.low.1))
  refine ⟨?_, ⟨trades, rfl⟩, ?_, ?_, ?_, ?_⟩
  · obtain ⟨rest, hrest⟩ := h.opens
    exact ⟨rest ++ [tr], by rw [hrest]; rfl⟩
  · rw [CandleBucket.trade]
    by_cases hlt : candlePxLt (candlePx b.high) (candlePx tr) = true
    · -- the trade is the new high
      simp only [hlt, if_true]
      have hlt' := hhigh.mp hlt
      refine ⟨by simp, fun t ht ↦ ?_⟩
      rcases List.mem_append.mp ht with ht | ht
      · exact (h.high.2 t ht).trans hlt'.le
      · rw [List.mem_singleton.mp ht]
    · simp only [hlt, if_false, Bool.false_eq_true]
      refine ⟨List.mem_append_left _ h.high.1, fun t ht ↦ ?_⟩
      rcases List.mem_append.mp ht with ht | ht
      · exact h.high.2 t ht
      · rw [List.mem_singleton.mp ht]
        exact not_lt.mp fun hlt' ↦ hlt (hhigh.mpr hlt')
  · rw [CandleBucket.trade]
    by_cases hlt : candlePxLt (candlePx tr) (candlePx b.low) = true
    · -- the trade is the new low
      simp only [hlt, if_true]
      have hlt' := hlow.mp hlt
      refine ⟨by simp, fun t ht ↦ ?_⟩
      rcases List.mem_append.mp ht with ht | ht
      · exact hlt'.le.trans (h.low.2 t ht)
      · rw [List.mem_singleton.mp ht]
    · simp only [hlt, if_false, Bool.false_eq_true]
      refine ⟨List.mem_append_left _ h.low.1, fun t ht ↦ ?_⟩
      rcases List.mem_append.mp ht with ht | ht
      · exact h.low.2 t ht
      · rw [List.mem_singleton.mp ht]
        exact not_lt.mp fun hlt' ↦ hlt (hlow.mpr hlt')
  · simp [CandleBucket.trade, h.volume]
  · simp [CandleBucket.trade, h.count]

/-- A bucket holds the trades of its group. -/
theorem CandleBucket.holds_of_foldGroup {trades : List TokenTrade} {b : CandleBucket}
    (hpos : ∀ t ∈ trades, 0 < t.baseAmount)
    (h : Groups.foldGroup .first .trade trades = some b) : b.Holds trades := by
  induction trades using List.reverseRecOn generalizing b with
  | nil => cases h
  | append_singleton trades tr ih =>
      rw [Groups.foldGroup_append_singleton] at h
      obtain rfl := Option.some.inj h
      cases hfold : Groups.foldGroup CandleBucket.first CandleBucket.trade trades with
      | none =>
          cases trades with
          | nil => exact holds_first tr
          | cons t trades => cases hfold
      | some b =>
          have hb := ih (fun t ht ↦ hpos t (List.mem_append_left _ ht)) hfold
          exact hb.trade hpos

/-! ## The candles of a list of trades -/

section Buckets

variable {bucketMs : Int} {trades : List TokenTrade}

/-- The bucket that starts at `start`. -/
def bucketAt (bucketMs : Int) (trades : List TokenTrade) (start : Int) : Option CandleBucket :=
  Groups.foldGroup .first .trade (trades.filter (candleStart bucketMs · = some start))

theorem getElem?_candleMap (start : Int) :
    (candleMap bucketMs trades)[start]? = bucketAt bucketMs trades start :=
  Groups.getElem?_foldl_foldRow trades start

theorem mem_candleBuckets {c : Candle} : c ∈ candleBuckets trades bucketMs ↔
    ∃ b, bucketAt bucketMs trades c.t = some b ∧ c = b.candle c.t := by
  rw [candleBuckets, List.mem_map]
  constructor
  · rintro ⟨⟨t, b⟩, hmem, rfl⟩
    rw [Std.TreeMap.mem_toList_iff_getElem?_eq_some, getElem?_candleMap] at hmem
    exact ⟨b, hmem, rfl⟩
  · rintro ⟨b, hb, hc⟩
    refine ⟨(c.t, b), ?_, hc.symm⟩
    rw [Std.TreeMap.mem_toList_iff_getElem?_eq_some, getElem?_candleMap]
    exact hb

/-- Each candle starts behind the one before it. -/
theorem candleBuckets_ascending :
    ((candleBuckets trades bucketMs).map (·.t)).Pairwise (· < ·) := by
  rw [candleBuckets, List.map_map, List.pairwise_map]
  exact (Std.TreeMap.ordered_keys_toList (t := candleMap bucketMs trades)).imp
    fun h ↦ compare_lt_iff_lt.mp h

theorem candleStart_eq_some_iff (hb : 0 < bucketMs) {t : TokenTrade} {start : Int}
    (hstart : bucketMs ∣ start) :
    candleStart bucketMs t = some start ↔ inBucket bucketMs start t = true := by
  rw [candleStart, inBucket]
  cases t.acceptingTimeMs with
  | none => simp
  | some ms =>
      obtain ⟨n, rfl⟩ := hstart
      rw [Option.map_some, Option.some.injEq, Option.any_some, decide_eq_true_eq,
        mul_comm bucketMs n, mul_left_inj' hb.ne']
      exact Int.ediv_eq_iff_of_pos hb

theorem dvd_of_candleStart {t : TokenTrade} {start : Int}
    (h : candleStart bucketMs t = some start) : bucketMs ∣ start := by
  obtain ⟨ms, -, rfl⟩ := Option.map_eq_some_iff.mp h
  exact Int.dvd_mul_left _ _

/-- The trades of a bucket are those whose time lies in it. -/
theorem filter_candleStart (hb : 0 < bucketMs) {start : Int} {b : CandleBucket}
    (h : bucketAt bucketMs trades start = some b) :
    trades.filter (candleStart bucketMs · = some start) =
      trades.filter (inBucket bucketMs start) := by
  have hne : trades.filter (candleStart bucketMs · = some start) ≠ [] := by
    intro hnil
    rw [bucketAt, hnil] at h
    cases h
  obtain ⟨t, ht⟩ := List.exists_mem_of_ne_nil _ hne
  have hdvd := dvd_of_candleStart (of_decide_eq_true (List.mem_filter.mp ht).2)
  refine List.filter_congr fun t _ ↦ ?_
  rw [Bool.eq_iff_iff, decide_eq_true_eq]
  exact candleStart_eq_some_iff hb hdvd

/-- A bucket publishes what it holds. -/
theorem CandleBucket.Holds.candle_of {b : CandleBucket} {inside : List TokenTrade}
    (h : b.Holds inside) (hsorted : inside.Pairwise fun a b ↦ a.seq ≤ b.seq) (t : Int) :
    (b.candle t).Of inside where
  opens := by
    obtain ⟨rest, rfl⟩ := h.opens
    refine ⟨b.open, List.mem_cons_self, rfl, rfl, fun t' ht' ↦ ?_⟩
    rcases List.mem_cons.mp ht' with rfl | ht'
    · exact le_rfl
    · exact List.rel_of_pairwise_cons hsorted ht'
  closes := by
    obtain ⟨front, rfl⟩ := h.closes
    refine ⟨b.close, by simp, rfl, rfl, fun t' ht' ↦ ?_⟩
    rcases List.mem_append.mp ht' with ht' | ht'
    · exact (List.pairwise_append.mp hsorted).2.2 t' ht' b.close (List.mem_singleton_self _)
    · rw [List.mem_singleton.mp ht']
  high := ⟨b.high, h.high.1, rfl, h.high.2⟩
  low := ⟨b.low, h.low.1, rfl, h.low.2⟩
  volume := congrArg (Checked.narrow 63) h.volume
  count := h.count

theorem Candle.Of.perm {c : Candle} {inside inside' : List TokenTrade} (h : c.Of inside)
    (hperm : inside.Perm inside') : c.Of inside' := by
  have hmem : ∀ {t}, t ∈ inside' ↔ t ∈ inside := hperm.mem_iff.symm
  refine ⟨?_, ?_, ?_, ?_, ?_, ?_⟩
  · obtain ⟨t, ht, hpx, htxid, hfirst⟩ := h.opens
    exact ⟨t, hmem.mpr ht, hpx, htxid, fun t' ht' ↦ hfirst t' (hmem.mp ht')⟩
  · obtain ⟨t, ht, hpx, htxid, hlast⟩ := h.closes
    exact ⟨t, hmem.mpr ht, hpx, htxid, fun t' ht' ↦ hlast t' (hmem.mp ht')⟩
  · obtain ⟨t, ht, hpx, hmax⟩ := h.high
    exact ⟨t, hmem.mpr ht, hpx, fun t' ht' ↦ hmax t' (hmem.mp ht')⟩
  · obtain ⟨t, ht, hpx, hmin⟩ := h.low
    exact ⟨t, hmem.mpr ht, hpx, fun t' ht' ↦ hmin t' (hmem.mp ht')⟩
  · rw [h.volume, (hperm.map _).sum_eq]
  · rw [h.count, hperm.length_eq]

/-- The candles of trades in the order of their numbers. -/
theorem candle_of (hb : 0 < bucketMs) (hpos : ∀ t ∈ trades, 0 < t.baseAmount)
    (hsorted : trades.Pairwise fun a b ↦ a.seq ≤ b.seq) {c : Candle}
    (hc : c ∈ candleBuckets trades bucketMs) : c.Of (trades.filter (inBucket bucketMs c.t)) := by
  obtain ⟨b, hbucket, hcandle⟩ := mem_candleBuckets.mp hc
  have hgroup := filter_candleStart hb hbucket
  rw [bucketAt, hgroup] at hbucket
  have hinside : ∀ t ∈ trades.filter (inBucket bucketMs c.t), 0 < t.baseAmount := fun t ht ↦
    hpos t (List.mem_filter.mp ht).1
  have hholds := CandleBucket.holds_of_foldGroup hinside hbucket
  have hof := hholds.candle_of (hsorted.filter _) c.t
  rwa [← hcandle] at hof

/-- Each trade with a time has its candle. -/
theorem candle_of_trade {t : TokenTrade} (ht : t ∈ trades) (hb : 0 < bucketMs) {ms : Int}
    (hms : t.acceptingTimeMs = some ms) :
    ∃ c ∈ candleBuckets trades bucketMs, c.t ≤ ms ∧ ms < c.t + bucketMs := by
  have hstart : candleStart bucketMs t = some (ms / bucketMs * bucketMs) := by
    rw [candleStart, hms, Option.map_some]
  have hmem : t ∈ trades.filter (candleStart bucketMs · = some (ms / bucketMs * bucketMs)) :=
    List.mem_filter.mpr ⟨ht, decide_eq_true hstart⟩
  have hbucket : ∃ b, bucketAt bucketMs trades (ms / bucketMs * bucketMs) = some b := by
    rw [bucketAt]
    cases hgroup : trades.filter (candleStart bucketMs · = some (ms / bucketMs * bucketMs)) with
    | nil => exact absurd (hgroup ▸ hmem) List.not_mem_nil
    | cons a rest => exact ⟨_, rfl⟩
  obtain ⟨b, hb'⟩ := hbucket
  refine ⟨b.candle (ms / bucketMs * bucketMs), mem_candleBuckets.mpr ⟨b, hb', rfl⟩, ?_⟩
  exact Int.ediv_eq_iff_of_pos hb |>.mp rfl

end Buckets

/-! ## The gates -/

/-- The table of fees agrees with the one the summary reads, and is within its allowlist. -/
theorem candleBracketFeeBps_feeModel {skeleton : String} {feeBps : Int}
    (h : candleBracketFeeBps skeleton = some feeBps) :
    (feeModel skeleton).1 = feeBps ∧ isMatchedSkeleton skeleton = true := by
  rw [candleBracketFeeBps] at h
  split at h
  next hmem =>
    obtain rfl := Option.some.inj h
    simp only [List.mem_cons, List.not_mem_nil, or_false] at hmem
    rcases hmem with rfl | rfl | rfl
    all_goals decide
  next =>
    split at h
    next hmem =>
      obtain rfl := Option.some.inj h
      simp only [List.mem_cons, List.not_mem_nil, or_false] at hmem
      rcases hmem with rfl | rfl | rfl
      all_goals decide
    next => cases h

/-- The filter is the one of the summary, with a bound on the quote. -/
theorem candlePublishable_eq {prog : MarketProgramRow} {feeBps : Int}
    (h : candleBracketFeeBps prog.skeleton = some feeBps) (market : CovenantId) (t : TokenTrade) :
    candlePublishable (prog.vKasUnits * kasQuantumSompi) feeBps market t =
      (publishable market prog t && minPriceableQuoteSompi ≤ t.quoteSompi) := by
  rw [candlePublishable, publishable, (candleBracketFeeBps_feeModel h).1, Bool.and_assoc,
    Bool.and_assoc, Bool.and_assoc, Bool.and_comm (decide (minPriceableQuoteSompi ≤ t.quoteSompi))]
  simp only [Bool.and_assoc]

/-- A trade inside its bracket has a positive base. -/
theorem baseAmount_pos_of_publishable {market : CovenantId} {prog : MarketProgramRow}
    {t : TokenTrade} (h : publishable market prog t = true) : 0 < t.baseAmount := by
  rw [publishable, Bool.and_eq_true] at h
  have hholds := h.2
  by_contra hneg
  rw [bracketHolds, if_pos (.inl (not_lt.mp hneg))] at hholds
  cases hholds

/-- What the series reads of a summary, and the trade of its last price. -/
def MarketSummary.head (out : MarketSummary) :
    Option MarketProgramRow × Option CovenantId × Option Int × Option Int × Option Int :=
  (out.program, out.lpOfPool, out.lastQuoteSompi, out.lastBaseAmount, out.lastTimeMs)

section Head

variable (db : Database) (tokenId market : CovenantId) (prog : MarketProgramRow)
variable (heldCovenant heldWallet heldScript : Option Int) (missing : Int) (tip : Option Int)
variable (scan : Nat) (out : MarketSummary)

theorem head_window24h (trades : List TokenTrade) :
    (window24h missing tip trades out).head = out.head := by
  unfold window24h
  split
  · rfl
  · split
    · rfl
    · dsimp only
      split
      all_goals split
      all_goals rfl

theorem head_pricedSummary :
    (pricedSummary db tokenId market prog heldCovenant heldWallet heldScript missing tip scan
      out).head =
    (lastPrice scan
      ((tokenTradesPage db tokenId scan).filter (publishable market prog)) out).head := by
  unfold pricedSummary
  generalize (tokenTradesPage db tokenId scan).filter (publishable market prog) = trades
  have hwindow := head_window24h missing tip (lastPrice scan trades out) trades
  obtain ⟨r, n, g, hreserve⟩ := reserve_cases db tokenId market prog
    (window24h missing tip trades (lastPrice scan trades out))
  obtain ⟨n', d, e, hspot⟩ := spotAndExit_cases heldCovenant heldWallet heldScript
    (prog.vKasUnits * kasQuantumSompi) trades
    (reserve db tokenId market prog (window24h missing tip trades (lastPrice scan trades out)))
  rw [hspot, hreserve]
  exact hwindow

theorem lastPrice_program (trades : List TokenTrade) :
    (lastPrice scan trades out).program = out.program ∧
      (lastPrice scan trades out).lpOfPool = out.lpOfPool := by
  unfold lastPrice
  split
  · exact ⟨rfl, rfl⟩
  · split
    all_goals exact ⟨rfl, rfl⟩

/-- The summary of a token that is no pool's share names the program of its market. -/
theorem marketSummary_program
    (hlp : db.derived.marketPrograms.find? (·.lpTokenCovenantId = some tokenId) = none) :
    (marketSummary db tokenId (some market) heldCovenant heldWallet heldScript missing tip
        scan).program = marketProgramRow db market ∧
      (marketSummary db tokenId (some market) heldCovenant heldWallet heldScript missing tip
        scan).lpOfPool = none := by
  simp only [marketSummary, hlp]
  cases marketProgramRow db market with
  | none => exact ⟨rfl, rfl⟩
  | some prog =>
      dsimp only
      split
      · exact ⟨rfl, rfl⟩
      split
      · exact ⟨rfl, rfl⟩
      split
      · exact ⟨rfl, rfl⟩
      set out : MarketSummary :=
        { program := some prog, phase := some (phaseForSkeleton prog.skeleton) } with hout
      have hhead := head_pricedSummary db tokenId market prog heldCovenant heldWallet heldScript
        missing tip scan out
      have hlast := lastPrice_program scan out
        ((tokenTradesPage db tokenId scan).filter (publishable market prog))
      exact ⟨(congrArg (·.1) hhead).trans hlast.1, (congrArg (·.2.1) hhead).trans hlast.2⟩

/-- A pool's share is labelled as one. -/
theorem marketSummary_lp {pool : MarketProgram} (link : Option CovenantId)
    (hlp : db.derived.marketPrograms.find? (·.lpTokenCovenantId = some tokenId) = some pool) :
    (marketSummary db tokenId link heldCovenant heldWallet heldScript missing tip
      scan).lpOfPool.isSome = true := by
  simp only [marketSummary, hlp]
  unfold lpSummary
  dsimp only
  split
  all_goals rfl

end Head

/-- Every gate before the series is open. -/
structure CandlesOpen (db : Database) (row : TokenRow) (market : CovenantId)
    (prog : MarketProgramRow) : Prop where
  verified : row.status = .verified
  priced : Priced db row.tokenId row.marketCovenantId market prog
  fee : (candleBracketFeeBps prog.skeleton).isSome = true
  timed : row.tradesMissingTime ≤ 0

/-- The admitted trades, the oldest first. -/
def candleSeries (db : Database) (tokenId market : CovenantId) (prog : MarketProgramRow) :
    List TokenTrade :=
  ((tokenTradesPage db tokenId candleTradeScan).insertionSort fun a b ↦ a.seq ≤ b.seq).filter
    fun t ↦ publishable market prog t && minPriceableQuoteSompi ≤ t.quoteSompi

section Gates

variable {db : Database} {row : TokenRow} {market : CovenantId} {prog : MarketProgramRow}

theorem tokenCandles_open (tip : Option Int) (bucketMs : Int) (h : CandlesOpen db row market prog) :
    tokenCandles db tip row bucketMs =
      (candleBuckets (candleSeries db row.tokenId market prog) bucketMs, none) := by
  obtain ⟨hverified, ⟨hlp, hlink, hrow, -, hok, hex⟩, hfee, htimed⟩ := h
  obtain ⟨feeBps, hfee⟩ := Option.isSome_iff_exists.mp hfee
  have hsummary := marketSummary_program db row.tokenId market row.heldCovenant row.heldWallet
    row.heldScript row.tradesMissingTime tip 1000 hlp
  rw [hrow] at hsummary
  have hfilter : candlePublishable (prog.vKasUnits * kasQuantumSompi) feeBps market =
      fun t ↦ publishable market prog t && minPriceableQuoteSompi ≤ t.quoteSompi :=
    funext (candlePublishable_eq hfee market)
  unfold tokenCandles tokenMarketSummary
  simp only [hverified, hsummary.1, hsummary.2, hlink, hfee, hok, not_lt.mpr hex,
    not_lt.mpr htimed, hfilter, candleSeries, ne_eq, not_true_eq_false, if_false,
    Option.isSome_none, Bool.false_eq_true, Bool.true_eq_false]

theorem tokenCandles_closed (tip : Option Int) (bucketMs : Int)
    (h : ∀ market prog, ¬CandlesOpen db row market prog) :
    ∃ reason, tokenCandles db tip row bucketMs = ([], some reason) := by
  unfold tokenCandles
  dsimp only
  split
  · exact ⟨_, rfl⟩
  next hverified =>
    split
    · exact ⟨_, rfl⟩
    next hlp =>
      split
      · exact ⟨_, rfl⟩
      next market hlink =>
        split
        · exact ⟨_, rfl⟩
        next prog hprog =>
          split
          · exact ⟨_, rfl⟩
          next feeBps hfee =>
            split
            · exact ⟨_, rfl⟩
            next hok =>
              split
              · exact ⟨_, rfl⟩
              next hex =>
                split
                · exact ⟨_, rfl⟩
                next htimed =>
                  -- nothing is left that could be closed
                  have hnone : db.derived.marketPrograms.find?
                      (·.lpTokenCovenantId = some row.tokenId) = none := by
                    cases hfind : db.derived.marketPrograms.find?
                        (·.lpTokenCovenantId = some row.tokenId) with
                    | none => rfl
                    | some pool =>
                        exact absurd (marketSummary_lp db row.tokenId _ _ _ _ _ _ _ hfind) hlp
                  have hsummary := marketSummary_program db row.tokenId market row.heldCovenant
                    row.heldWallet row.heldScript row.tradesMissingTime tip 1000 hnone
                  rw [tokenMarketSummary, hlink, hsummary.1] at hprog
                  exact absurd ⟨not_not.mp hverified, ⟨hnone, hlink, hprog,
                    (candleBracketFeeBps_feeModel hfee).2, by simpa using hok, not_lt.mp hex⟩,
                    by rw [hfee]; rfl, not_lt.mp htimed⟩ (h market prog)

end Gates

/-! ## The law of the series -/

section Series

variable {db : Database} {row : TokenRow} {market : CovenantId} {prog : MarketProgramRow}

theorem candleSeries_perm :
    (candleSeries db row.tokenId market prog).Perm (admittedTrades db row.tokenId market prog) :=
  (List.perm_insertionSort _ _).filter _

theorem candleSeries_sorted :
    (candleSeries db row.tokenId market prog).Pairwise fun a b ↦ a.seq ≤ b.seq := by
  have htotal : Std.Total fun a b : TokenTrade ↦ a.seq ≤ b.seq := ⟨fun a b ↦ le_total a.seq b.seq⟩
  have htrans : IsTrans TokenTrade fun a b ↦ a.seq ≤ b.seq := ⟨fun _ _ _ ↦ le_trans⟩
  exact (List.pairwise_insertionSort _ _).filter _

theorem candleSeries_pos : ∀ t ∈ candleSeries db row.tokenId market prog, 0 < t.baseAmount := by
  intro t ht
  have hpub := (Bool.and_eq_true _ _ ▸ (List.mem_filter.mp ht).2).1
  exact baseAmount_pos_of_publishable hpub

/-- The trade of the summary's last price is admitted. -/
theorem lastPrice_admitted (tip : Option Int)
    (h : Priced db row.tokenId row.marketCovenantId market prog)
    {q b ms : Int} (hq : (tokenMarketSummary db tip row).lastQuoteSompi = some q)
    (hb : (tokenMarketSummary db tip row).lastBaseAmount = some b)
    (hms : (tokenMarketSummary db tip row).lastTimeMs = some ms) :
    ∃ t ∈ admittedTrades db row.tokenId market prog, candlePx t = (q, b) ∧
      t.acceptingTimeMs = some ms := by
  rw [tokenMarketSummary, marketSummary_of_priced _ _ _ _ _ _ _ _ h] at hq hb hms
  have hhead := head_pricedSummary db row.tokenId market prog row.heldCovenant row.heldWallet
    row.heldScript row.tradesMissingTime tip 1000
    { program := some prog, phase := some (phaseForSkeleton prog.skeleton) }
  replace hq := (congrArg (·.2.2.1) hhead).symm.trans hq
  replace hb := (congrArg (·.2.2.2.1) hhead).symm.trans hb
  replace hms := (congrArg (·.2.2.2.2) hhead).symm.trans hms
  unfold lastPrice at hq hb hms
  cases hfind : ((tokenTradesPage db row.tokenId 1000).filter (publishable market prog)).find?
      (minPriceableQuoteSompi ≤ ·.quoteSompi) with
  | none =>
      rw [hfind] at hq
      cases hq
  | some last =>
      rw [hfind] at hq hb hms
      obtain ⟨hscanned, hpub⟩ := List.mem_filter.mp (List.mem_of_find?_eq_some hfind)
      have hquote := List.find?_some hfind
      refine ⟨last, List.mem_filter.mpr ⟨?_, ?_⟩, ?_, hms⟩
      · have hle : 1000 ≤ candleTradeScan := by decide
        exact (List.take_sublist_take_left hle).subset hscanned
      · rw [Bool.and_eq_true]
        exact ⟨hpub, hquote⟩
      · rw [candlePx, Option.some.inj hq, Option.some.inj hb]

end Series

theorem parseBucket_pos {label : String} {bucketMs : Int} (h : parseBucket label = some bucketMs) :
    0 < bucketMs := by
  rw [parseBucket] at h
  split at h
  · obtain rfl := Option.some.inj h
    decide
  split at h
  · obtain rfl := Option.some.inj h
    decide
  split at h
  · obtain rfl := Option.some.inj h
    decide
  · cases h

/-- **A series states what the summary could price.**  It is served exactly when the gates are
open: the token is verified and no LP share, its market's program passes the gates of the
summary, the fee table knows it and no trade lacks a time; else there is a reason and no candle.
The candles of a series ascend, each states the figures of the trades in its bucket that pass the
summary's filter and move at least 1 KAS, each such trade with a time lies in one, and the
summary's last price, if there is one, lies between the low and the high of its candle. -/
theorem token_candles_exact (db : Database) (tip : Option Int) (row : TokenRow) {label : String}
    {bucketMs : Int} (h : parseBucket label = some bucketMs) :
    (∀ market prog, CandlesOpen db row market prog →
      ∃ candles, tokenCandles db tip row bucketMs = (candles, none) ∧
        (candles.map (·.t)).Pairwise (· < ·) ∧
        (∀ c ∈ candles, c.Of ((admittedTrades db row.tokenId market prog).filter
          (inBucket bucketMs c.t))) ∧
        (∀ t ∈ admittedTrades db row.tokenId market prog, ∀ ms, t.acceptingTimeMs = some ms →
          ∃ c ∈ candles, c.t ≤ ms ∧ ms < c.t + bucketMs) ∧
        ∀ q b ms, (tokenMarketSummary db tip row).lastQuoteSompi = some q →
          (tokenMarketSummary db tip row).lastBaseAmount = some b →
          (tokenMarketSummary db tip row).lastTimeMs = some ms →
          ∃ c ∈ candles, c.t ≤ ms ∧ ms < c.t + bucketMs ∧ pxRat c.low ≤ pxRat (q, b) ∧
            pxRat (q, b) ≤ pxRat c.high) ∧
    ((∀ market prog, ¬CandlesOpen db row market prog) →
      ∃ reason, tokenCandles db tip row bucketMs = ([], some reason)) := by
  refine ⟨fun market prog hopen ↦ ?_, tokenCandles_closed tip bucketMs⟩
  have hb := parseBucket_pos h
  have hperm : (candleSeries db row.tokenId market prog).Perm
      (admittedTrades db row.tokenId market prog) := candleSeries_perm
  have hof : ∀ c ∈ candleBuckets (candleSeries db row.tokenId market prog) bucketMs,
      c.Of ((admittedTrades db row.tokenId market prog).filter (inBucket bucketMs c.t)) :=
    fun c hc ↦ (candle_of hb candleSeries_pos candleSeries_sorted hc).perm (hperm.filter _)
  have hcover : ∀ t ∈ admittedTrades db row.tokenId market prog, ∀ ms,
      t.acceptingTimeMs = some ms →
        ∃ c ∈ candleBuckets (candleSeries db row.tokenId market prog) bucketMs,
          c.t ≤ ms ∧ ms < c.t + bucketMs :=
    fun t ht ms hms ↦ candle_of_trade (hperm.mem_iff.mpr ht) hb hms
  refine ⟨_, tokenCandles_open tip bucketMs hopen, candleBuckets_ascending, hof, hcover, ?_⟩
  intro q b ms hq hbase hms
  obtain ⟨t, ht, hpx, htime⟩ := lastPrice_admitted tip hopen.priced hq hbase hms
  obtain ⟨c, hc, hlo, hhi⟩ := hcover t ht ms htime
  have hinside : t ∈ (admittedTrades db row.tokenId market prog).filter
      (inBucket bucketMs c.t) := by
    refine List.mem_filter.mpr ⟨ht, ?_⟩
    rw [inBucket, htime]
    exact decide_eq_true ⟨hlo, hhi⟩
  obtain ⟨_, -, -, hlow⟩ := (hof c hc).low
  obtain ⟨_, -, -, hhigh⟩ := (hof c hc).high
  exact ⟨c, hc, hlo, hhi, hpx ▸ hlow t hinside, hpx ▸ hhigh t hinside⟩

/-- A program whose constants three trades have exercised. -/
def sampleCurve : MarketProgram where
  covenantId := ⟨7⟩
  programHash := 0
  skeleton := "KRON curve v1"
  vKasUnits := 0
  invariantOk := true
  exercisedTrades := 3

/-- A purchase that halves the inventory. -/
def sampleTrade : TokenTrade where
  tokenId := ⟨3⟩
  seq := 1
  txid := ⟨1⟩
  marketCovenantId := ⟨7⟩
  side := .buy
  baseAmount := 1000
  quoteSompi := 1000000000
  kasBeforeSompi := 1000000000
  kasAfterSompi := 2000000000
  baseBefore := 2000
  baseAfter := 1000
  coCovenants := 0
  counterparty := none
  acceptingDaa := 40
  acceptingBlueScore := none
  txIndex := none
  acceptingTimeMs := some 4000000

def sampleMarket : Database where
  store := Store.fresh ⟨0⟩
  derived := { marketPrograms := [sampleCurve], tokenTrades := [sampleTrade] }

/-- The purchase stands in the second hour. -/
theorem sampleMarket_candles : ∃ candles,
    tokenCandles sampleMarket none
        { tokenId := ⟨3⟩, status := .verified, marketCovenantId := some ⟨7⟩ } 3600000 =
      (candles, none) ∧ ∃ c ∈ candles, c.t ≤ 4000000 ∧ 4000000 < c.t + 3600000 := by
  obtain ⟨candles, hseries, -, -, hcover, -⟩ := (token_candles_exact sampleMarket none
    { tokenId := ⟨3⟩, status := .verified, marketCovenantId := some ⟨7⟩ }
    (rfl : parseBucket "1h" = some 3600000)).1 ⟨7⟩ sampleCurve.row
      ⟨rfl, ⟨by decide, rfl, by decide, by decide, rfl, by decide⟩, by decide, by decide⟩
  have hadmitted : sampleTrade ∈ admittedTrades sampleMarket ⟨3⟩ ⟨7⟩ sampleCurve.row := by
    decide +kernel
  exact ⟨candles, hseries, hcover sampleTrade hadmitted 4000000 rfl⟩

end Kascov
