import Kascov.Market.Feeds
import Kascov.Lib.Rows

/-!
# One publish gate

A row of `market_programs` prices a token in the summary, shows its trades in
the feeds and adds them to the counts on one and the same condition, for the
skeletons whose name the feeds bind.  The derivation log counts matches, not
licences: its tally does not read the replay's verdict.
-/

namespace Kascov

/-- The three gates of `market_summary`, over a row. -/
def publishLicense (mp : MarketProgram) : Bool :=
  isMatchedSkeleton mp.skeleton && mp.invariantOk &&
    decide (minExercisedTrades ≤ mp.exercisedTrades)

theorem feedSkeletons_subset {skeleton : String} (h : skeleton ∈ feedSkeletons) :
    skeleton ∈ matchedSkeletons :=
  List.mem_of_mem_take h

theorem tallySkeletons_subset {skeleton : String} (h : skeleton ∈ tallySkeletons) :
    skeleton ∈ matchedSkeletons :=
  List.mem_of_mem_take h

/-- Where the feed binds the name, its `ON` clause is the summary's gate. -/
theorem feedLicense_eq_publishLicense {mp : MarketProgram}
    (h : mp.skeleton ∈ feedSkeletons ∨ mp.skeleton ∉ matchedSkeletons) :
    feedLicense mp = publishLicense mp := by
  have hnames : feedSkeletons.contains mp.skeleton = isMatchedSkeleton mp.skeleton := by
    rw [Bool.eq_iff_iff, isMatchedSkeleton_iff, List.contains_iff_mem]
    constructor
    · exact feedSkeletons_subset
    · intro hm
      exact h.resolve_right (not_not_intro hm)
  rw [feedLicense, publishLicense, hnames, Bool.and_comm mp.invariantOk]

/-! ## The summary -/

@[simp] theorem lastQuoteSompi_window24h (missing : Int) (tip : Option Int)
    (trades : List TokenTrade) (out : MarketSummary) :
    (window24h missing tip trades out).lastQuoteSompi = out.lastQuoteSompi := by
  unfold window24h
  split
  · rfl
  · split
    · rfl
    · dsimp only
      split
      · split <;> rfl
      · split <;> rfl

theorem lastQuoteSompi_lastPrice (scan : Nat) (trades : List TokenTrade) (out : MarketSummary)
    (h : out.lastQuoteSompi = none) :
    (lastPrice scan trades out).lastQuoteSompi =
      (trades.find? (minPriceableQuoteSompi ≤ ·.quoteSompi)).map (·.quoteSompi) := by
  unfold lastPrice
  split
  next last hfind => rw [hfind]; rfl
  next hfind =>
    rw [hfind]
    split
    · exact h
    · exact h

/-- With unique keys the row found under a market is the row. -/
theorem marketProgramRow_of_mem {db : Database}
    (hkeys : (db.derived.marketPrograms.map (·.covenantId)).Nodup) {mp : MarketProgram}
    (hmp : mp ∈ db.derived.marketPrograms) : marketProgramRow db mp.covenantId = some mp.row := by
  rw [marketProgramRow, Rows.find?_key hkeys hmp]
  rfl

/-- The summary shows a last price exactly when the row is licensed, given a
scanned trade to show. -/
theorem marketSummary_priced_iff {db : Database}
    (hkeys : (db.derived.marketPrograms.map (·.covenantId)).Nodup) {mp : MarketProgram}
    (hmp : mp ∈ db.derived.marketPrograms) {tokenId : CovenantId}
    (hlp : ∀ p ∈ db.derived.marketPrograms, p.lpTokenCovenantId ≠ some tokenId)
    (heldCovenant heldWallet heldScript : Option Int) (missing : Int) (tip : Option Int)
    {scan : Nat} (htrade : ∃ t ∈ tokenTradesPage db tokenId scan,
      publishable mp.covenantId mp.row t = true ∧ minPriceableQuoteSompi ≤ t.quoteSompi) :
    (marketSummary db tokenId (some mp.covenantId) heldCovenant heldWallet heldScript missing tip
      scan).lastQuoteSompi.isSome = publishLicense mp := by
  have hrow := marketProgramRow_of_mem hkeys hmp
  by_cases h : Priced db tokenId (some mp.covenantId) mp.covenantId mp.row
  · have hlicense : publishLicense mp = true := by
      have hmatched : isMatchedSkeleton mp.skeleton = true := h.matched
      have hok : mp.invariantOk = true := h.invariantOk
      have hex : minExercisedTrades ≤ mp.exercisedTrades := h.exercised
      simp [publishLicense, hmatched, hok, hex]
    obtain ⟨t, ht, hpub, hquote⟩ := htrade
    rw [marketSummary_of_priced _ _ _ _ _ _ _ _ h, hlicense, pricedSummary]
    simp only [lastQuoteSompi_spotAndExit, lastQuoteSompi_reserve, lastQuoteSompi_window24h]
    rw [lastQuoteSompi_lastPrice _ _ _ rfl, Option.isSome_map]
    exact List.find?_isSome.mpr ⟨t, List.mem_filter.mpr ⟨ht, hpub⟩, decide_eq_true hquote⟩
  · have hclosed : ∀ market prog, ¬Priced db tokenId (some mp.covenantId) market prog := by
      intro market prog hp
      obtain rfl : mp.covenantId = market := Option.some.inj hp.link
      obtain rfl : mp.row = prog := Option.some.inj (hrow.symm.trans hp.row)
      exact h hp
    have hunpriced := marketSummary_unpriced db tokenId (some mp.covenantId) heldCovenant
      heldWallet heldScript missing tip scan hclosed
    rw [hunpriced.lastQuote, Option.isSome_none, eq_comm, ← Bool.not_eq_true]
    intro hlicense
    rw [publishLicense, Bool.and_eq_true, Bool.and_eq_true, decide_eq_true_eq] at hlicense
    exact h ⟨List.find?_eq_none.mpr fun p hp ↦ by simpa using hlp p hp, rfl, hrow,
      hlicense.1.1, hlicense.1.2, hlicense.2⟩

/-! ## The feeds -/

/-- With unique keys, the join on a market is the `ON` clause of its row. -/
theorem licensedMarket_of_mem {db : Database}
    (hkeys : (db.derived.marketPrograms.map (·.covenantId)).Nodup) {mp : MarketProgram}
    (hmp : mp ∈ db.derived.marketPrograms) :
    licensedMarket db mp.covenantId = feedLicense mp := by
  rw [Bool.eq_iff_iff, licensedMarket, List.any_eq_true]
  constructor
  · rintro ⟨p, hp, h⟩
    rw [Bool.and_eq_true, decide_eq_true_eq] at h
    obtain rfl := List.inj_on_of_nodup_map hkeys hp hmp h.1
    exact h.2
  · intro h
    exact ⟨mp, hmp, by simp [h]⟩

theorem mem_feedTrades {db : Database} {tt : TokenTrade} :
    tt ∈ feedTrades db ↔ tt ∈ db.derived.tokenTrades ∧ verifiedToken db tt.tokenId = true ∧
      licensedMarket db tt.marketCovenantId = true := by
  rw [feedTrades, List.mem_filter, Bool.and_eq_true]

/-- A page long enough holds the whole feed. -/
theorem mem_globalTokenTradesPage {db : Database} {limit : Nat}
    (hlimit : db.derived.tokenTrades.length ≤ limit)
    (hrows : db.derived.tokenTrades.length < 2 ^ 63) {tt : TokenTrade} :
    tt ∈ globalTokenTradesPage db none none none none limit ↔ tt ∈ feedTrades db := by
  have hlen : (feedTrades db).length ≤ min limit (2 ^ 63 - 1) :=
    le_trans (List.length_filter_le _ _) (le_min hlimit (Nat.le_pred_of_lt hrows))
  rw [globalTokenTradesPage, List.take_of_length_le, List.mem_insertionSort, List.mem_filter]
  · simp
  · rw [List.length_insertionSort]
    exact le_trans (List.length_filter_le _ _) hlen

/-- A page long enough holds the whole feed of a token. -/
theorem mem_tokenTradesPageBefore {db : Database} {limit : Nat}
    (hlimit : db.derived.tokenTrades.length ≤ limit)
    (hrows : db.derived.tokenTrades.length < 2 ^ 63) {tt : TokenTrade} (hseq : tt.seq < 2 ^ 63 - 1) :
    tt ∈ tokenTradesPageBefore db tt.tokenId none limit ↔ tt ∈ feedTrades db := by
  have hlen : (feedTrades db).length ≤ min limit (2 ^ 63 - 1) :=
    le_trans (List.length_filter_le _ _) (le_min hlimit (Nat.le_pred_of_lt hrows))
  rw [tokenTradesPageBefore, List.take_of_length_le, List.mem_insertionSort, List.mem_filter]
  · have hbound : (Option.map (min · (2 ^ 63 - 1)) (none : Option Nat)).getD (2 ^ 63 - 1) =
        2 ^ 63 - 1 := rfl
    rw [hbound, decide_eq_true rfl, decide_eq_true hseq]
    exact and_iff_left rfl
  · rw [List.length_insertionSort]
    exact le_trans (List.length_filter_le _ _) hlen

/-! ## One row's share of the counts -/

/-- The database without the trades of one market. -/
def Database.dropTrades (db : Database) (market : CovenantId) : Database :=
  { db with derived := { db.derived with
      tokenTrades := db.derived.tokenTrades.filter (·.marketCovenantId ≠ market) } }

/-- The database without the verification row of one market. -/
def Database.dropProgram (db : Database) (market : CovenantId) : Database :=
  { db with derived := { db.derived with
      marketPrograms := db.derived.marketPrograms.filter (·.covenantId ≠ market) } }

theorem feedTrades_dropTrades (db : Database) (market : CovenantId) :
    feedTrades (db.dropTrades market) =
      (feedTrades db).filter (·.marketCovenantId ≠ market) := by
  unfold feedTrades Database.dropTrades
  rw [List.filter_filter, List.filter_filter]
  exact List.filter_congr fun tt _ ↦ Bool.and_comm _ _

/-- A row adds its trades of verified tokens to the count exactly when the
`ON` clause holds of it. -/
theorem tokenTradesCount_eq_dropTrades {db : Database}
    (hkeys : (db.derived.marketPrograms.map (·.covenantId)).Nodup) {mp : MarketProgram}
    (hmp : mp ∈ db.derived.marketPrograms) (id : CovenantId) :
    tokenTradesCount db id = tokenTradesCount (db.dropTrades mp.covenantId) id +
      if feedLicense mp then db.derived.tokenTrades.countP fun tt ↦
        tt.tokenId = id && tt.marketCovenantId = mp.covenantId && verifiedToken db tt.tokenId
      else 0 := by
  have hsplit := List.countP_eq_countP_filter_add (feedTrades db)
    (fun tt ↦ decide (tt.tokenId = id)) fun tt ↦ decide (tt.marketCovenantId ≠ mp.covenantId)
  have hrest : ((feedTrades db).filter fun tt ↦
      !decide (tt.marketCovenantId ≠ mp.covenantId)).countP (fun tt ↦ decide (tt.tokenId = id)) =
      if feedLicense mp then db.derived.tokenTrades.countP fun tt ↦
        tt.tokenId = id && tt.marketCovenantId = mp.covenantId && verifiedToken db tt.tokenId
      else 0 := by
    rw [← licensedMarket_of_mem hkeys hmp, feedTrades, List.filter_filter, List.countP_filter]
    by_cases hl : licensedMarket db mp.covenantId = true
    · rw [if_pos hl]
      refine List.countP_congr fun tt _ ↦ ?_
      by_cases hm : tt.marketCovenantId = mp.covenantId
      · simp [hm, hl]
      · simp [hm]
    · rw [if_neg hl, List.countP_eq_zero]
      intro tt _ htt
      by_cases hm : tt.marketCovenantId = mp.covenantId
      · simp [hm, hl] at htt
      · simp [hm] at htt
  rw [tokenTradesCount, hsplit, hrest, tokenTradesCount, feedTrades_dropTrades]

theorem linkedProgram_dropProgram (db : Database) (market id : CovenantId) :
    linkedProgram (db.dropProgram market) id =
      if id = market then none else linkedProgram db id := by
  unfold linkedProgram Database.dropProgram
  by_cases h : id = market
  · subst h
    rw [if_pos rfl]
    refine List.find?_eq_none.mpr fun p hp ↦ ?_
    simpa using (List.mem_filter.mp hp).2
  · rw [if_neg h, List.find?_filter]
    congr 1
    funext p
    by_cases hp : p.covenantId = id
    · simp [hp, h]
    · simp [hp]

/-- A row is tallied as matched exactly when its market is linked and its
skeleton is one the tally binds; the verdict of the replay is not read. -/
theorem marketsMatched_eq_dropProgram {db : Database}
    (hkeys : (db.derived.marketPrograms.map (·.covenantId)).Nodup) {mp : MarketProgram}
    (hmp : mp ∈ db.derived.marketPrograms) (full : Bool) (examined : Nat)
    (before : List (CovenantId × Validation)) (error : Option String) (nowMs : Nat) :
    (finishDerivationRun db full examined before error nowMs).marketsMatched =
      (finishDerivationRun (db.dropProgram mp.covenantId) full examined before error
        nowMs).marketsMatched +
      if mp.covenantId ∈ linkedMarkets db ∧ tallySkeletons.contains mp.skeleton then 1 else 0 := by
  have hlinked : linkedProgram db mp.covenantId = some mp := Rows.find?_key hkeys hmp
  show (linkedMarkets db).countP (fun id ↦
      (linkedProgram db id).any (tallySkeletons.contains ·.skeleton)) =
    (linkedMarkets db).countP (fun id ↦
      (linkedProgram (db.dropProgram mp.covenantId) id).any
        (tallySkeletons.contains ·.skeleton)) + _
  have hnodup : (linkedMarkets db).Nodup := List.nodup_dedup _
  rw [Rows.countP_split hnodup _ mp.covenantId, hlinked]
  congr 1
  refine List.countP_congr fun id _ ↦ ?_
  rw [linkedProgram_dropProgram]
  by_cases h : id = mp.covenantId
  · simp [h]
  · simp [h]

/-- What one row of `market_programs` licenses, everywhere it is asked. -/
structure OneGate (db : Database) (mp : MarketProgram) : Prop where
  /-- A token linked to the market, with a trade to show, is priced. -/
  summary : ∀ tokenId heldCovenant heldWallet heldScript missing tip scan,
    (∀ p ∈ db.derived.marketPrograms, p.lpTokenCovenantId ≠ some tokenId) →
    (∃ t ∈ tokenTradesPage db tokenId scan,
      publishable mp.covenantId mp.row t = true ∧ minPriceableQuoteSompi ≤ t.quoteSompi) →
    (marketSummary db tokenId (some mp.covenantId) heldCovenant heldWallet heldScript missing tip
      scan).lastQuoteSompi.isSome = publishLicense mp
  /-- The share token of a pool is not priced, licence or no. -/
  shares : ∀ tokenId heldCovenant heldWallet heldScript missing tip scan,
    (∃ p ∈ db.derived.marketPrograms, p.lpTokenCovenantId = some tokenId) →
    (marketSummary db tokenId (some mp.covenantId) heldCovenant heldWallet heldScript missing tip
      scan).lastQuoteSompi = none
  /-- Its trades of verified tokens are in the global feed. -/
  globalFeed : ∀ tt ∈ db.derived.tokenTrades, tt.marketCovenantId = mp.covenantId →
    ∀ limit, db.derived.tokenTrades.length ≤ limit →
      (tt ∈ globalTokenTradesPage db none none none none limit ↔
        verifiedToken db tt.tokenId = true ∧ publishLicense mp = true)
  /-- They are in the feeds of their tokens. -/
  tokenFeed : ∀ tt ∈ db.derived.tokenTrades, tt.marketCovenantId = mp.covenantId →
    tt.seq < 2 ^ 63 - 1 → ∀ limit, db.derived.tokenTrades.length ≤ limit →
      (tt ∈ tokenTradesPageBefore db tt.tokenId none limit ↔
        verifiedToken db tt.tokenId = true ∧ publishLicense mp = true)
  /-- They are counted. -/
  count : ∀ id, tokenTradesCount db id = tokenTradesCount (db.dropTrades mp.covenantId) id +
    if publishLicense mp then db.derived.tokenTrades.countP fun tt ↦
      tt.tokenId = id && tt.marketCovenantId = mp.covenantId && verifiedToken db tt.tokenId
    else 0

/-- The tally of a derivation run counts a linked market whose program is a
matched build, licensed or not. -/
def TalliedByMatch (db : Database) (mp : MarketProgram) : Prop :=
  ∀ full examined before error nowMs,
    (finishDerivationRun db full examined before error nowMs).marketsMatched =
      (finishDerivationRun (db.dropProgram mp.covenantId) full examined before error
        nowMs).marketsMatched +
      if mp.covenantId ∈ linkedMarkets db ∧ isMatchedSkeleton mp.skeleton then 1 else 0

/-- The publish gate is one gate, for the names the feeds bind and for every
name that is on no list; the tally is the match alone. -/
theorem publish_gate_agrees (db : Database) (mp : MarketProgram)
    (hmp : mp ∈ db.derived.marketPrograms)
    (hkeys : (db.derived.marketPrograms.map (·.covenantId)).Nodup)
    (hrows : db.derived.tokenTrades.length < 2 ^ 63) :
    (mp.skeleton ∈ feedSkeletons ∨ mp.skeleton ∉ matchedSkeletons → OneGate db mp) ∧
      (mp.skeleton ∈ tallySkeletons ∨ mp.skeleton ∉ matchedSkeletons → TalliedByMatch db mp) := by
  constructor
  · intro hskel
    have hlicense := feedLicense_eq_publishLicense hskel
    have hmem : ∀ tt ∈ db.derived.tokenTrades, tt.marketCovenantId = mp.covenantId →
        (tt ∈ feedTrades db ↔
          verifiedToken db tt.tokenId = true ∧ publishLicense mp = true) := by
      intro tt htt hmarket
      rw [mem_feedTrades, hmarket, licensedMarket_of_mem hkeys hmp, hlicense]
      exact and_iff_right htt
    refine ⟨?_, ?_, ?_, ?_, ?_⟩
    · intro tokenId heldCovenant heldWallet heldScript missing tip scan hlp htrade
      exact marketSummary_priced_iff hkeys hmp hlp _ _ _ _ _ htrade
    · rintro tokenId heldCovenant heldWallet heldScript missing tip scan ⟨pool, hpool, hshares⟩
      have hnone : ∀ market prog, ¬Priced db tokenId (some mp.covenantId) market prog :=
        fun market prog hpriced ↦
          List.find?_eq_none.mp hpriced.notLp pool hpool (decide_eq_true hshares)
      exact (marketSummary_unpriced _ _ _ _ _ _ _ _ _ hnone).lastQuote
    · intro tt htt hmarket limit hlimit
      exact (mem_globalTokenTradesPage hlimit hrows).trans (hmem tt htt hmarket)
    · intro tt htt hmarket hseq limit hlimit
      exact (mem_tokenTradesPageBefore hlimit hrows hseq).trans (hmem tt htt hmarket)
    · intro id
      rw [tokenTradesCount_eq_dropTrades hkeys hmp, hlicense]
  · intro hskel full examined before error nowMs
    rw [marketsMatched_eq_dropProgram hkeys hmp]
    have hnames : tallySkeletons.contains mp.skeleton = isMatchedSkeleton mp.skeleton := by
      rw [Bool.eq_iff_iff, isMatchedSkeleton_iff, List.contains_iff_mem]
      exact ⟨tallySkeletons_subset, fun hm ↦ hskel.resolve_right (not_not_intro hm)⟩
    rw [hnames]

/-- A verified token, its curve and one trade, with what a replay stored. -/
def sampleBook (exercised : Int) : Database where
  store := .fresh ⟨0⟩
  derived :=
    { tokens := [{ tokenId := ⟨9⟩, status := .verified, marketCovenantId := some ⟨7⟩ }]
      tokenTrades :=
        [{ tokenId := ⟨9⟩, seq := 1, txid := ⟨1⟩, marketCovenantId := ⟨7⟩, side := .buy
           baseAmount := 500, quoteSompi := 6250000000000, kasBeforeSompi := 0
           kasAfterSompi := 6250000000000, baseBefore := 1000, baseAfter := 500
           coCovenants := 0, counterparty := none, acceptingDaa := 10
           acceptingBlueScore := none, txIndex := none, acceptingTimeMs := none }]
      marketPrograms :=
        [{ covenantId := ⟨7⟩, programHash := 0, skeleton := "KRON curve v1"
           vKasUnits := 6250000, tokenCovenantId := some ⟨9⟩, invariantOk := true
           exercisedTrades := exercised }] }

/-- The row of `sampleBook`. -/
def sampleProgram (exercised : Int) : MarketProgram :=
  { covenantId := ⟨7⟩, programHash := 0, skeleton := "KRON curve v1", vKasUnits := 6250000
    tokenCovenantId := some ⟨9⟩, invariantOk := true, exercisedTrades := exercised }

theorem sampleBook_oneGate :
    OneGate (sampleBook 3) (sampleProgram 3) ∧ TalliedByMatch (sampleBook 3) (sampleProgram 3) := by
  have h := publish_gate_agrees (sampleBook 3) (sampleProgram 3) (by decide) (by decide) (by decide)
  exact ⟨h.1 (.inl (by decide)), h.2 (.inl (by decide))⟩

/-- The book of a token that a pool's program names as its share token. -/
def sharesBook : Database :=
  let book := sampleBook 3
  { book with derived.marketPrograms := { sampleProgram 0 with
      covenantId := ⟨8⟩
      tokenCovenantId := none
      lpTokenCovenantId := some ⟨9⟩ } :: book.derived.marketPrograms }

/-- A curve with one replayed trade is counted as a match by the derivation log
while the summary and both feeds refuse it.  The trade of a licensed curve is in the
feed, and its token unpriced when it is a pool's share token. -/
theorem unlicensed_match_is_tallied :
    (marketSummary (sampleBook 1) ⟨9⟩ (some ⟨7⟩) none none none 0 none 32).lastQuoteSompi = none ∧
      globalTokenTradesPage (sampleBook 1) none none none none 100 = [] ∧
      tokenTradesCount (sampleBook 1) ⟨9⟩ = 0 ∧
      (finishDerivationRun (sampleBook 1) true 1 [] none 0).marketsMatched = 1 ∧
      (marketSummary sharesBook ⟨9⟩ (some ⟨7⟩) none none none 0 none 32).lastQuoteSompi = none ∧
      (globalTokenTradesPage sharesBook none none none none 100).map (·.tokenId) = [⟨9⟩] := by
  refine ⟨by decide, by decide, by decide, by decide, by decide, by decide⟩

end Kascov
