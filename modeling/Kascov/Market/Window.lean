import Kascov.Market.Gate

/-!
# The 24-hour window

The summary sums a window over the newest `scan` trades of the token.  The
figure it publishes is the window's own exactly when none of the trades it did
not scan lies inside.
-/

namespace Kascov

/-- Every publishable trade of a token, on the market it is linked to, whose
time lies in the 24 hours before the tip. -/
def windowTrades (db : Database) (tokenId : CovenantId) (market : CovenantId)
    (prog : MarketProgramRow) (tip : Int) : List TokenTrade :=
  db.derived.tokenTrades.filter fun t ↦
    t.tokenId = tokenId && publishable market prog t && inWindow tip t

/-- The two published figures are those of the whole window, and none is
published for a token with trades that carry no time. -/
structure WindowComplete (db : Database) (tokenId : CovenantId)
    (marketCovenantId : Option CovenantId) (missing : Int) (tip : Option Int)
    (out : MarketSummary) : Prop where
  volume : ∀ v, out.volume24hSompi = some v → ∃ market prog end',
    marketCovenantId = some market ∧ marketProgramRow db market = some prog ∧ tip = some end' ∧
      missing ≤ 0 ∧ v = ((windowTrades db tokenId market prog end').map (·.quoteSompi)).sum
  trades : ∀ n, out.trades24h = some n → ∃ market prog end',
    marketCovenantId = some market ∧ marketProgramRow db market = some prog ∧ tip = some end' ∧
      missing ≤ 0 ∧ n = (windowTrades db tokenId market prog end').length

/-- The trades beyond the newest `scan`. -/
def unscanned (db : Database) (tokenId : CovenantId) (scan : Nat) : List TokenTrade :=
  (tokenTradesDesc db tokenId).drop scan

/-- No trade beyond the scan lies in the window, if a window is published. -/
def ScanCovers (db : Database) (tokenId : CovenantId) (marketCovenantId : Option CovenantId)
    (missing : Int) (tip : Option Int) (scan : Nat) : Prop :=
  ∀ market prog end', Priced db tokenId marketCovenantId market prog → missing ≤ 0 →
    tip = some end' →
    (∃ t ∈ tokenTradesPage db tokenId scan,
      publishable market prog t = true ∧ inWindow end' t = true) →
    ∀ t ∈ unscanned db tokenId scan, publishable market prog t = true → inWindow end' t = false

section Window

variable {db : Database} {tokenId market : CovenantId} {prog : MarketProgramRow}

/-- The window of the stored trades is its scanned and its unscanned part. -/
theorem windowTrades_perm (end' : Int) (scan : Nat) :
    (windowTrades db tokenId market prog end').Perm
      (((tokenTradesPage db tokenId scan).filter (publishable market prog)).filter (inWindow end') ++
        ((unscanned db tokenId scan).filter (publishable market prog)).filter (inWindow end')) := by
  rw [← List.filter_append, ← List.filter_append, tokenTradesPage, unscanned,
    List.take_append_drop, List.filter_filter, tokenTradesDesc]
  have hsplit : windowTrades db tokenId market prog end' =
      (db.derived.tokenTrades.filter (·.tokenId = tokenId)).filter fun t ↦
        inWindow end' t && publishable market prog t := by
    rw [windowTrades, List.filter_filter]
    refine List.filter_congr fun t _ ↦ ?_
    rw [Bool.and_assoc, Bool.and_comm (publishable market prog t), Bool.and_comm]
  rw [hsplit]
  exact (List.perm_insertionSort _ _).symm.filter _

/-- A window is published over these trades. -/
structure Published (missing : Int) (tip : Option Int) (trades : List TokenTrade) (end' : Int) :
    Prop where
  timed : missing ≤ 0
  tip : tip = some end'
  inside : trades.filter (inWindow end') ≠ []

theorem window24h_published {missing : Int} {tip : Option Int} {trades : List TokenTrade}
    {end' : Int} (h : Published missing tip trades end') (out : MarketSummary) :
    (window24h missing tip trades out).volume24hSompi =
        Checked.narrow 63 ((trades.filter (inWindow end')).map (·.quoteSompi)).sum ∧
      (window24h missing tip trades out).trades24h =
        some (trades.filter (inWindow end')).length := by
  obtain ⟨htimed, rfl, hinside⟩ := h
  unfold window24h
  rw [if_neg (not_lt.mpr htimed)]
  simp only [hinside, if_false]
  split
  · exact ⟨rfl, rfl⟩
  · exact ⟨rfl, rfl⟩

theorem window24h_silent {missing : Int} {tip : Option Int} {trades : List TokenTrade}
    (h : ∀ end', ¬Published missing tip trades end') {out : MarketSummary}
    (hvolume : out.volume24hSompi = none) (htrades : out.trades24h = none) :
    (window24h missing tip trades out).volume24hSompi = none ∧
      (window24h missing tip trades out).trades24h = none := by
  unfold window24h
  by_cases hmissing : 0 < missing
  · rw [if_pos hmissing]
    exact ⟨hvolume, htrades⟩
  · rw [if_neg hmissing]
    cases tip with
    | none => exact ⟨hvolume, htrades⟩
    | some end' =>
        have hinside : trades.filter (inWindow end') = [] := by
          by_contra hne
          exact h end' ⟨not_lt.mp hmissing, rfl, hne⟩
        simp only [hinside, if_true]
        split
        · exact ⟨hvolume, htrades⟩
        · exact ⟨hvolume, htrades⟩

theorem lastPrice_window (scan : Nat) (trades : List TokenTrade) (out : MarketSummary) :
    (lastPrice scan trades out).volume24hSompi = out.volume24hSompi ∧
      (lastPrice scan trades out).trades24h = out.trades24h := by
  unfold lastPrice
  split
  · exact ⟨rfl, rfl⟩
  · split
    · exact ⟨rfl, rfl⟩
    · exact ⟨rfl, rfl⟩

/-- The publishable trades the summary scans. -/
def scanned (db : Database) (tokenId market : CovenantId) (prog : MarketProgramRow) (scan : Nat) :
    List TokenTrade :=
  (tokenTradesPage db tokenId scan).filter (publishable market prog)

theorem pricedSummary_window (heldCovenant heldWallet heldScript : Option Int) (missing : Int)
    (tip : Option Int) (scan : Nat) (out : MarketSummary) :
    let whole := pricedSummary db tokenId market prog heldCovenant heldWallet heldScript missing
      tip scan out
    let block := window24h missing tip (scanned db tokenId market prog scan)
      (lastPrice scan (scanned db tokenId market prog scan) out)
    whole.volume24hSompi = block.volume24hSompi ∧ whole.trades24h = block.trades24h := by
  simp [pricedSummary, scanned]

theorem windowTrades_length (end' : Int) (scan : Nat) :
    (windowTrades db tokenId market prog end').length =
      ((scanned db tokenId market prog scan).filter (inWindow end')).length +
        (((unscanned db tokenId scan).filter (publishable market prog)).filter
          (inWindow end')).length := by
  rw [(windowTrades_perm end' scan).length_eq, List.length_append, scanned]

/-- With nothing unscanned inside, the scanned part is the window. -/
theorem windowTrades_perm_scanned {end' : Int} {scan : Nat}
    (h : ∀ t ∈ unscanned db tokenId scan, publishable market prog t = true →
      inWindow end' t = false) :
    (windowTrades db tokenId market prog end').Perm
      ((scanned db tokenId market prog scan).filter (inWindow end')) := by
  have hrest : ((unscanned db tokenId scan).filter (publishable market prog)).filter
      (inWindow end') = [] := by
    refine List.filter_eq_nil_iff.mpr fun t ht ↦ ?_
    obtain ⟨hmem, hpub⟩ := List.mem_filter.mp ht
    rw [h t hmem hpub]
    exact Bool.false_ne_true
  refine (windowTrades_perm end' scan).trans ?_
  rw [hrest, List.append_nil]
  exact List.Perm.refl _

end Window

/-- What the summary publishes as the window of the last 24 hours is the whole
window exactly when no unscanned trade lies in it. -/
theorem windowComplete_iff_scanCovers (db : Database) (tokenId : CovenantId)
    (marketCovenantId : Option CovenantId) (heldCovenant heldWallet heldScript : Option Int)
    (missing : Int) (tip : Option Int) (scan : Nat) :
    WindowComplete db tokenId marketCovenantId missing tip
        (marketSummary db tokenId marketCovenantId heldCovenant heldWallet heldScript missing tip
          scan) ↔
      ScanCovers db tokenId marketCovenantId missing tip scan := by
  by_cases hpriced : ∃ market prog, Priced db tokenId marketCovenantId market prog
  · obtain ⟨market, prog, hp⟩ := hpriced
    have huniq : ∀ m p, Priced db tokenId marketCovenantId m p → m = market ∧ p = prog := by
      intro m p hmp
      obtain rfl : m = market := Option.some.inj (hmp.link.symm.trans hp.link)
      exact ⟨rfl, Option.some.inj (hmp.row.symm.trans hp.row)⟩
    rw [marketSummary_of_priced _ _ _ _ _ _ _ _ hp]
    obtain ⟨hvolume, htrades⟩ := pricedSummary_window heldCovenant heldWallet heldScript missing
      tip scan { program := some prog, phase := some (phaseForSkeleton prog.skeleton) }
    by_cases hpub : ∃ end', Published missing tip (scanned db tokenId market prog scan) end'
    · obtain ⟨end', hend⟩ := hpub
      obtain ⟨hv, ht⟩ := window24h_published hend (lastPrice scan
        (scanned db tokenId market prog scan)
        { program := some prog, phase := some (phaseForSkeleton prog.skeleton) })
      have hcovers : ScanCovers db tokenId marketCovenantId missing tip scan ↔
          ∀ t ∈ unscanned db tokenId scan, publishable market prog t = true →
            inWindow end' t = false := by
        constructor
        · intro h
          obtain ⟨t, htmem⟩ := List.exists_mem_of_ne_nil _ hend.inside
          obtain ⟨hscan, hin⟩ := List.mem_filter.mp htmem
          obtain ⟨hpage, hpubl⟩ := List.mem_filter.mp hscan
          exact h market prog end' hp hend.timed hend.tip ⟨t, hpage, hpubl, hin⟩
        · intro h m p e hmp _ htip _
          obtain ⟨rfl, rfl⟩ := huniq m p hmp
          obtain rfl : e = end' := Option.some.inj (htip.symm.trans hend.tip)
          exact h
      rw [hcovers]
      constructor
      · intro h t htmem htpub
        obtain ⟨m, p, e, hm, hrow, htip, -, hn⟩ := h.trades _ (htrades.trans ht)
        obtain rfl : m = market := Option.some.inj (hm.symm.trans hp.link)
        obtain rfl : p = prog := Option.some.inj (hrow.symm.trans hp.row)
        obtain rfl : e = end' := Option.some.inj (htip.symm.trans hend.tip)
        -- equal lengths leave nothing for the unscanned part
        rw [windowTrades_length e scan, left_eq_add, List.length_eq_zero_iff,
          List.filter_eq_nil_iff] at hn
        exact Bool.eq_false_iff.mpr (hn t (List.mem_filter.mpr ⟨htmem, htpub⟩))
      · intro h
        have hperm := windowTrades_perm_scanned h
        constructor
        · intro v hsome
          rw [hvolume, hv, Checked.narrow_eq_some] at hsome
          refine ⟨market, prog, end', hp.link, hp.row, hend.tip, hend.timed, ?_⟩
          rw [← hsome.2]
          exact ((hperm.map _).sum_eq).symm
        · intro n hsome
          rw [htrades, ht, Option.some.injEq] at hsome
          refine ⟨market, prog, end', hp.link, hp.row, hend.tip, hend.timed, ?_⟩
          rw [← hsome]
          exact hperm.length_eq.symm
    · obtain ⟨hv, ht⟩ := window24h_silent (not_exists.mp hpub)
        (lastPrice_window scan (scanned db tokenId market prog scan)
          { program := some prog, phase := some (phaseForSkeleton prog.skeleton) }).1
        (lastPrice_window scan (scanned db tokenId market prog scan)
          { program := some prog, phase := some (phaseForSkeleton prog.skeleton) }).2
      refine iff_of_true ⟨fun v h ↦ ?_, fun n h ↦ ?_⟩ ?_
      · rw [hvolume, hv] at h
        cases h
      · rw [htrades, ht] at h
        cases h
      · rintro m p e hmp hmissing htip ⟨t, hpage, hpubl, hin⟩
        obtain ⟨rfl, rfl⟩ := huniq m p hmp
        refine absurd ⟨e, hmissing, htip, ?_⟩ hpub
        exact List.ne_nil_of_mem (List.mem_filter.mpr ⟨List.mem_filter.mpr ⟨hpage, hpubl⟩, hin⟩)
  · have hclosed : ∀ m p, ¬Priced db tokenId marketCovenantId m p :=
      fun m p h ↦ hpriced ⟨m, p, h⟩
    have hun := marketSummary_unpriced db tokenId marketCovenantId heldCovenant heldWallet
      heldScript missing tip scan hclosed
    refine iff_of_true ⟨fun v h ↦ ?_, fun n h ↦ ?_⟩ fun m p _ hp ↦ absurd hp (hclosed m p)
    · rw [hun.volume] at h
      cases h
    · rw [hun.trades] at h
      cases h

/-- `sampleBook` with `n` trades, all at time 1000. -/
def busyBook (n : Nat) : Database :=
  { sampleBook 3 with derived := { (sampleBook 3).derived with
      tokenTrades := (List.range n).flatMap fun i ↦
        (sampleBook 3).derived.tokenTrades.map fun t ↦
          { t with seq := i, acceptingTimeMs := some 1000 } } }

/-- Three trades in the window, all scanned. -/
theorem busyBook_windowComplete :
    WindowComplete (busyBook 3) ⟨9⟩ (some ⟨7⟩) 0 (some 2000)
      (marketSummary (busyBook 3) ⟨9⟩ (some ⟨7⟩) none none none 0 (some 2000) 32) := by
  refine (windowComplete_iff_scanCovers _ _ _ _ _ _ _ _ _).mpr fun m p e _ _ _ _ t ht ↦ ?_
  have hnone : unscanned (busyBook 3) ⟨9⟩ 32 = [] := by decide
  rw [hnone] at ht
  cases ht

/-- The directory scans 32 trades: the 33rd of the last 24 hours is left out,
and both figures are published. -/
theorem busy_window_published_short :
    (marketSummary (busyBook 33) ⟨9⟩ (some ⟨7⟩) none none none 0 (some 2000) 32).trades24h =
        some 32 ∧
      (windowTrades (busyBook 33) ⟨9⟩ ⟨7⟩ (sampleProgram 3).row 2000).length = 33 ∧
      ¬WindowComplete (busyBook 33) ⟨9⟩ (some ⟨7⟩) 0 (some 2000)
        (marketSummary (busyBook 33) ⟨9⟩ (some ⟨7⟩) none none none 0 (some 2000) 32) := by
  have hshort : (marketSummary (busyBook 33) ⟨9⟩ (some ⟨7⟩) none none none 0 (some 2000)
      32).trades24h = some 32 := by decide
  have hall : (windowTrades (busyBook 33) ⟨9⟩ ⟨7⟩ (sampleProgram 3).row 2000).length = 33 := by
    decide
  have hrow : marketProgramRow (busyBook 33) ⟨7⟩ = some (sampleProgram 3).row := by decide
  refine ⟨hshort, hall, fun h ↦ ?_⟩
  obtain ⟨m, p, e, hm, hp, he, -, hn⟩ := h.trades 32 hshort
  obtain rfl : ⟨7⟩ = m := Option.some.inj hm
  obtain rfl : (sampleProgram 3).row = p := Option.some.inj (hrow.symm.trans hp)
  obtain rfl : 2000 = e := Option.some.inj he
  rw [hall] at hn
  cases hn

end Kascov
