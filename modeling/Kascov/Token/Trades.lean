import Kascov.Token.Derive
import Kascov.Token.Soundness

/-!
# The stored trades

What `derive_token` leaves in `token_trades`: the trades of the token's events, one
row for each and nothing else.  An event counts when every token cell of its
transaction is proven; the numbers of its row must fit the columns they go to.
-/

namespace Kascov

open Fallible

/-! ## One event -/

/-- The two sides of a transaction, judged. -/
structure JudgedSides (cells : List TokenCell) (txid : TxId) (ins outs : List Judged) : Prop where
  ins : (insOfTx cells txid).mapM judge = .ok ins
  outs : (outsOfTx cells txid).mapM judge = .ok outs

/-- The trade of an event of a token. -/
def TradeOf (s : Store) (tokenId : CovenantId) (cells : List TokenCell) (event : Nat × EventRow)
    (t : TokenTrade) : Prop :=
  ∃ ins outs, JudgedSides cells event.2.txid ins outs ∧
    ∃ market, Admitted s event.2.txid ins outs market ∧
      t = tradeRow s tokenId event.1 event.2 ins outs market

variable {s : Store} {tokenId : CovenantId} {cells : List TokenCell}

theorem TradeOf.key {event : Nat × EventRow} {t : TokenTrade}
    (h : TradeOf s tokenId cells event t) :
    t.tokenId = tokenId ∧ t.seq = event.1 ∧ t.txid = event.2.txid := by
  obtain ⟨ins, outs, -, market, -, rfl⟩ := h
  exact ⟨rfl, rfl, rfl⟩

@[simp] theorem TokenWalk.classify_tradeRows (w : TokenWalk) (seq : Nat) (e : EventRow)
    (kind : TokenEventKind) (deltas : List Delta) :
    (w.classify seq e kind deltas).tradeRows = w.tradeRows := rfl

@[simp] theorem TokenWalk.unknown_tradeRows (w : TokenWalk) (seq : Nat) (e : EventRow)
    (reason : String) : (w.unknown seq e reason).tradeRows = w.tradeRows := rfl

@[simp] theorem classifyStates_tradeRows (w : TokenWalk) (seq : Nat) (e : EventRow)
    (ins outs : List Judged) : (classifyStates w seq e ins outs).tradeRows = w.tradeRows := by
  unfold classifyStates
  split
  · unfold classifyGenesis
    split
    · rfl
    · rfl
  · split
    · rfl
    · rfl

/-- A turn of the loop adds the trade of its event, if it is one. -/
theorem walkEvent_trades {w w' : TokenWalk} {event : Nat × EventRow}
    (h : walkEvent s tokenId cells w event = .ok w') :
    ∃ trade : Option TokenTrade, w'.tradeRows = w.tradeRows ++ trade.toList ∧
      ∀ t, trade = some t ↔ TradeOf s tokenId cells event t := by
  obtain ⟨seq, e⟩ := event
  have hnone : (∀ ins outs, ¬JudgedSides cells e.txid ins outs) → ∀ t,
      (none : Option TokenTrade) = some t ↔ TradeOf s tokenId cells (seq, e) t := by
    intro hno t
    constructor
    · exact fun h ↦ absurd h (by simp)
    · rintro ⟨ins, outs, hsides, -⟩
      exact absurd hsides (hno ins outs)
  unfold walkEvent at h
  dsimp only at h
  split at h
  · rename_i hempty
    rw [← Except.ok.inj h]
    refine ⟨none, by simp, fun t ↦ ⟨fun h ↦ absurd h (by simp), ?_⟩⟩
    rintro ⟨ins, outs, hsides, market, hadm, -⟩
    dsimp only at hsides hadm
    have hins : ins = [] := by
      have := hsides.ins
      rw [hempty.1] at this
      exact (Except.ok.inj this).symm
    have houts : outs = [] := by
      have := hsides.outs
      rw [hempty.2] at this
      exact (Except.ok.inj this).symm
    exact absurd (by rw [hins, houts]; rfl) hadm.sole.moved
  · split at h
    · rename_i ins outs hins houts
      obtain ⟨trade, htrade, h⟩ := bind_eq_ok.mp h
      rw [pure_eq_ok] at h
      subst h
      refine ⟨trade, by simp, fun t ↦ ?_⟩
      constructor
      · rintro rfl
        obtain ⟨market, hadm, rfl⟩ := extractTradeCandidate_iff.mp htrade
        exact ⟨ins, outs, ⟨hins, houts⟩, market, hadm, rfl⟩
      · rintro ⟨ins', outs', hsides, market, hadm, rfl⟩
        obtain rfl : ins = ins' := Except.ok.inj (hins.symm.trans hsides.ins)
        obtain rfl : outs = outs' := Except.ok.inj (houts.symm.trans hsides.outs)
        exact Except.ok.inj (htrade.symm.trans
          (extractTradeCandidate_iff.mpr ⟨market, hadm, rfl⟩))
    · rename_i reason hins
      rw [← Except.ok.inj h]
      refine ⟨none, by simp, hnone fun ins outs hsides ↦ ?_⟩
      rw [hsides.ins] at hins
      cases hins
    · rename_i reason houts _
      rw [← Except.ok.inj h]
      refine ⟨none, by simp, hnone fun ins outs hsides ↦ ?_⟩
      rw [hsides.outs] at houts
      cases houts

/-- The walk's rows are the trades of its events. -/
theorem foldlM_walkEvent_trades {events : List (Nat × EventRow)} {w w' : TokenWalk}
    (h : events.foldlM (walkEvent s tokenId cells) w = .ok w') {t : TokenTrade} :
    t ∈ w'.tradeRows ↔
      t ∈ w.tradeRows ∨ ∃ event ∈ events, TradeOf s tokenId cells event t := by
  induction events generalizing w with
  | nil =>
      rw [List.foldlM_nil, pure_eq_ok] at h
      simp [h]
  | cons event rest ih =>
      rw [List.foldlM_cons, bind_eq_ok] at h
      obtain ⟨w₁, h₁, h⟩ := h
      obtain ⟨trade, hrows, htrade⟩ := walkEvent_trades h₁
      rw [ih h, hrows, List.mem_append, Option.mem_toList, htrade,
        List.exists_mem_cons_iff, or_assoc]

/-! ## The derivation -/

theorem walkToken_trades {events : List (Nat × EventRow)} {w : TokenWalk}
    (h : walkToken s tokenId cells events = .ok w) {t : TokenTrade} :
    t ∈ w.tradeRows ↔ ∃ event ∈ events, TradeOf s tokenId cells event t := by
  unfold walkToken at h
  obtain ⟨w₁, hfold, h⟩ := bind_eq_ok.mp h
  rw [pure_eq_ok] at h
  have hrows : w.tradeRows = w₁.tradeRows := by
    rw [← h]
    split
    · rfl
    · rfl
  rw [hrows, foldlM_walkEvent_trades hfold]
  simp

theorem tokenEventRow_ok {e : EventRow} {event : Nat × EventRow}
    (h : (unsignedColumn e.seq >>= fun seq ↦ pure (seq, e) : Result (Nat × EventRow)) = .ok event) :
    event = (e.seq.toNat, e) ∧ 0 ≤ e.seq := by
  obtain ⟨seq, hseq, h⟩ := bind_eq_ok.mp h
  rw [pure_eq_ok] at h
  unfold unsignedColumn at hseq
  split at hseq
  · rw [← h, ← Except.ok.inj hseq]
    exact ⟨rfl, by assumption⟩
  · cases hseq

/-- A token whose events were read has no parked event. -/
theorem tokenEventRows_nonneg {events : List (Nat × EventRow)}
    (h : tokenEventRows s tokenId = .ok events) {e : EventRow} (he : e ∈ s.covenantEvents)
    (hid : e.covenantId = tokenId) : 0 ≤ e.seq := by
  obtain ⟨event, hevent⟩ := mapM_ok_of_mem h
    ((List.mem_insertionSort _).mpr (List.mem_filter.mpr ⟨he, decide_eq_true hid⟩))
  exact (tokenEventRow_ok hevent).2

/-- The events of a token, each under its sequence. -/
theorem tokenEventRows_ok {events : List (Nat × EventRow)}
    (h : tokenEventRows s tokenId = .ok events) {event : Nat × EventRow} :
    event ∈ events ↔
      event.2 ∈ s.covenantEvents ∧ event.2.covenantId = tokenId ∧ event.2.seq = event.1 := by
  rw [mapM_eq_map (fun e event he ↦ (tokenEventRow_ok he).1) h, List.mem_map]
  constructor
  · rintro ⟨e, he, rfl⟩
    rw [List.mem_insertionSort, List.mem_filter, decide_eq_true_eq] at he
    exact ⟨he.1, he.2, (Int.toNat_of_nonneg (tokenEventRows_nonneg h he.1 he.2)).symm⟩
  · rintro ⟨he, hid, hseq⟩
    refine ⟨event.2, ?_, Prod.ext ?_ rfl⟩
    · exact (List.mem_insertionSort _).mpr (List.mem_filter.mpr ⟨he, decide_eq_true hid⟩)
    · show event.2.seq.toNat = event.1
      rw [hseq, Int.toNat_natCast]

/-- Rows inserted under a unique key are appended; each has a key of its own. -/
theorem insertRows_ok {α κ : Type} [DecidableEq κ] {key : α → κ} {columns : String}
    {rows new rows' : List α} (h : insertRows key columns rows new = .ok rows') :
    rows' = rows ++ new ∧ (new.map key).Nodup ∧ ∀ row ∈ rows, ∀ a ∈ new, key row ≠ key a := by
  unfold insertRows at h
  induction new generalizing rows with
  | nil =>
      rw [List.foldlM_nil, pure_eq_ok] at h
      exact ⟨by simp [h], List.nodup_nil, fun _ _ _ ha ↦ absurd ha List.not_mem_nil⟩
  | cons row rest ih =>
      rw [List.foldlM_cons, bind_eq_ok] at h
      obtain ⟨rows₁, h₁, h⟩ := h
      split at h₁
      · cases h₁
      · rename_i hany
        obtain rfl := Except.ok.inj h₁
        obtain ⟨hrows, hnodup, hfresh⟩ := ih h
        refine ⟨by simp [hrows], List.nodup_cons.mpr ⟨?_, hnodup⟩, ?_⟩
        · intro hmem
          obtain ⟨other, hother, heq⟩ := List.mem_map.mp hmem
          exact hfresh row (List.mem_append_right _ List.mem_cons_self) other hother heq.symm
        · intro old hold a ha
          rcases List.mem_cons.mp ha with rfl | ha
          · exact fun heq ↦ hany (List.any_eq_true.mpr ⟨old, hold, decide_eq_true heq⟩)
          · exact hfresh old (List.mem_append_left _ hold) a ha

variable {registry : Registry} {blake2b : Bytes → Bytes} {builds : MarketBuilds}
variable {d d' : Derived}

/-- Linking a market touches the market programs only. -/
theorem marketLink_frame (blake2b : Bytes → Bytes) (builds : MarketBuilds) (s : Store)
    (d : Derived) (balances : List (OwnerKey × Int × Nat)) :
    ∃ marketPrograms, (marketLink blake2b builds s d balances).1 = { d with marketPrograms } := by
  unfold marketLink
  dsimp only
  split
  · exact ⟨_, rfl⟩
  · exact ⟨_, rfl⟩
  · obtain ⟨programs, hprograms⟩ := rederiveMarketPrograms_frame blake2b builds s d
      ((balances.filter fun b ↦ b.1.isCovenant && b.2.1 ≠ 0).map (·.1.covenant))
    refine ⟨programs, ?_⟩
    split
    · exact hprograms
    · exact hprograms

/-- What a derivation does to a token with evidence. -/
theorem deriveToken_ok (hevidence : hasTokenEvidence s tokenId = true)
    (h : deriveToken registry blake2b builds s d tokenId = .ok d') :
    ∃ events w, tokenEventRows s tokenId = .ok events ∧
      walkToken s tokenId (provenCells registry blake2b s tokenId) events = .ok w ∧
      d'.tokenTrades = d.tokenTrades.filter (·.tokenId ≠ tokenId) ++ w.tradeRows ∧
      (w.tradeRows.map fun t ↦ (t.tokenId, t.seq)).Nodup ∧
      d'.tokens = replaceToken (derivedRow s tokenId (provenCells registry blake2b s tokenId) w
        (marketLink blake2b builds s (clearTokenRows d tokenId)
          (ownerBalances (liveStates (provenCells registry blake2b s tokenId)))).2) d.tokens ∧
      d'.tokenBalances = d.tokenBalances.filter (·.tokenId ≠ tokenId) ++
        balanceRows tokenId
          (ownerBalances (liveStates (provenCells registry blake2b s tokenId))) ∧
      d'.tokenEvents = d.tokenEvents.filter (·.tokenId ≠ tokenId) ++
        tokenEventRowsOf tokenId w.classified := by
  unfold deriveToken at h
  rw [hevidence] at h
  simp only [Bool.not_true, Bool.false_and, Bool.false_eq_true, if_false] at h
  obtain ⟨events, hevents, h⟩ := bind_eq_ok.mp h
  obtain ⟨w, hw, h⟩ := bind_eq_ok.mp h
  obtain ⟨programs, hlink⟩ := marketLink_frame blake2b builds s
    (clearTokenRows d tokenId)
    (ownerBalances (liveStates (provenCells registry blake2b s tokenId)))
  rcases hpair : marketLink blake2b builds s (clearTokenRows d tokenId)
    (ownerBalances (liveStates (provenCells registry blake2b s tokenId))) with ⟨d₁, market⟩
  rw [hpair] at h hlink
  dsimp only at h hlink
  subst hlink
  obtain ⟨trades, htrades, h⟩ := bind_eq_ok.mp h
  obtain ⟨eventRows, heventRows, h⟩ := bind_eq_ok.mp h
  rw [pure_eq_ok] at h
  subst h
  obtain ⟨hrows, hnodup, -⟩ := insertRows_ok htrades
  exact ⟨events, w, hevents, hw, hrows, hnodup, rfl, rfl, (insertRows_ok heventRows).1⟩

/-! ## The law of a row -/

/-- What a stored trade says of its transaction. -/
structure TradeLaw (s : Store) (ins outs : List Judged) (market : OwnerKey) (t : TokenTrade) :
    Prop where
  marketCovenant : t.marketCovenantId = market.covenant
  kasBefore : t.kasBeforeSompi = kasConsumed s t.txid market.covenant
  kasAfter : t.kasAfterSompi = kasCreated s t.txid market.covenant
  baseBefore : t.baseBefore = heldBy ins market
  baseAfter : t.baseAfter = heldBy outs market
  baseAmount : t.baseAmount = |t.baseAfter - t.baseBefore| ∧ 0 < t.baseAmount
  quoteSompi : t.quoteSompi = |t.kasAfterSompi - t.kasBeforeSompi| ∧ 0 < t.quoteSompi
  /-- The token leg and the KAS leg move in opposite directions. -/
  legs : t.kasBeforeSompi < t.kasAfterSompi ∧ t.baseAfter < t.baseBefore ∨
    t.kasAfterSompi < t.kasBeforeSompi ∧ t.baseBefore < t.baseAfter
  side : t.side = .buy ↔ t.baseAfter < t.baseBefore
  /-- The counterparty is the only owner, no covenant, that moved against the market. -/
  counterparty : ∀ owner, t.counterparty = some owner ↔
    Opposes ins outs market owner ∧ ∀ other, Opposes ins outs market other → other = owner

theorem tradeRow_law {seq : Nat} {e : EventRow} {ins outs : List Judged} {market : OwnerKey}
    (h : Admitted s e.txid ins outs market) :
    TradeLaw s ins outs market (tradeRow s tokenId seq e ins outs market) := by
  have hmoved : heldBy outs market - heldBy ins market ≠ 0 := h.sole.moved
  have hlegs := h.legs
  unfold LegsOppose at hlegs
  have hkas : (kasCreated s e.txid market.covenant : Int) -
      kasConsumed s e.txid market.covenant ≠ 0 := by omega
  refine ⟨rfl, rfl, rfl, rfl, rfl, ⟨rfl, abs_pos.mpr hmoved⟩, ⟨rfl, abs_pos.mpr hkas⟩,
    hlegs, ?_, fun owner ↦ counterpartyOf_eq_some h.sole.moved⟩
  unfold tradeRow
  dsimp only
  split
  · simp [*]
  · simp [*]

/-- A derivation without evidence leaves no trade of the token. -/
theorem deriveToken_trades_of_no_evidence (hevidence : hasTokenEvidence s tokenId = false)
    (h : deriveToken registry blake2b builds s d tokenId = .ok d') :
    d'.tokenTrades = d.tokenTrades.filter (·.tokenId ≠ tokenId) := by
  unfold deriveToken at h
  rw [hevidence] at h
  split at h
  · rw [← Except.ok.inj h]
    rfl
  · rw [Bool.not_false, if_pos rfl] at h
    rw [← Except.ok.inj h]
    rfl

/-- **Trade extraction.**  After a derivation, a stored trade of the token is the trade
of one of its events: exactly one covenant owner's holding moved, and the row obeys its
law.  Of a token with evidence, every event that is a trade has exactly one row. -/
theorem trades_extracted (h : deriveToken registry blake2b builds s d tokenId = .ok d') :
    (∀ t ∈ d'.tokenTrades, t.tokenId = tokenId →
      ∃ e ∈ s.covenantEvents, e.covenantId = tokenId ∧ e.seq = t.seq ∧ e.txid = t.txid ∧
        ∃ ins outs, JudgedSides (provenCells registry blake2b s tokenId) e.txid ins outs ∧
          ∃ market, SoleMover ins outs market ∧ TradeLaw s ins outs market t) ∧
    (hasTokenEvidence s tokenId = true → ∀ e ∈ s.covenantEvents, e.covenantId = tokenId →
      ∀ ins outs, JudgedSides (provenCells registry blake2b s tokenId) e.txid ins outs →
        ∀ market, Admitted s e.txid ins outs market →
          ∃! t, t ∈ d'.tokenTrades ∧ t.tokenId = tokenId ∧ t.seq = e.seq) := by
  cases hevidence : hasTokenEvidence s tokenId with
  | false =>
      refine ⟨fun t ht hid ↦ ?_, fun h ↦ absurd h Bool.false_ne_true⟩
      rw [deriveToken_trades_of_no_evidence hevidence h, List.mem_filter] at ht
      exact absurd hid (of_decide_eq_true ht.2)
  | true =>
      obtain ⟨events, w, hevents, hw, hrows, hnodup, -, -⟩ := deriveToken_ok hevidence h
      have hmem : ∀ t, t ∈ d'.tokenTrades ∧ t.tokenId = tokenId ↔ t ∈ w.tradeRows := by
        intro t
        rw [hrows, List.mem_append, List.mem_filter]
        constructor
        · rintro ⟨⟨-, hne⟩ | ht, hid⟩
          · exact absurd hid (of_decide_eq_true hne)
          · exact ht
        · intro ht
          obtain ⟨event, -, htrade⟩ := (walkToken_trades hw).mp ht
          exact ⟨.inr ht, htrade.key.1⟩
      refine ⟨fun t ht hid ↦ ?_, fun _ e he hid ins outs hsides market hadm ↦ ?_⟩
      · obtain ⟨event, hevent, htrade⟩ := (walkToken_trades hw).mp ((hmem t).mp ⟨ht, hid⟩)
        obtain ⟨he, heid, hseq⟩ := (tokenEventRows_ok hevents).mp hevent
        obtain ⟨ins, outs, hsides, market, hadm, rfl⟩ := htrade
        exact ⟨event.2, he, heid, hseq, rfl, ins, outs, hsides, market, hadm.sole,
          tradeRow_law hadm⟩
      · have hsigned : 0 ≤ e.seq := tokenEventRows_nonneg hevents he hid
        have hevent : (e.seq.toNat, e) ∈ events :=
          (tokenEventRows_ok hevents).mpr ⟨he, hid, (Int.toNat_of_nonneg hsigned).symm⟩
        have hrow : tradeRow s tokenId e.seq.toNat e ins outs market ∈ w.tradeRows :=
          (walkToken_trades hw).mpr ⟨_, hevent, ins, outs, hsides, market, hadm, rfl⟩
        refine ⟨_, ⟨((hmem _).mpr hrow).1, ((hmem _).mpr hrow).2,
          Int.toNat_of_nonneg hsigned⟩, ?_⟩
        rintro t ⟨ht, htid, hseq⟩
        refine List.inj_on_of_nodup_map hnodup ((hmem t).mp ⟨ht, htid⟩) hrow ?_
        refine Prod.ext htid ?_
        exact Int.natCast_inj.mp (hseq.trans (Int.toNat_of_nonneg hsigned).symm)

/-! ## A sale of two cells -/

def sampleOwner : Bytes32 := ⟨List.replicate 32 0x07, List.length_replicate⟩

/-- A token cell whose script is its state. -/
def stateCell (txid : TxId) (identifierType : UInt8) (amount : Bytes8) (spentTxid : Option TxId) :
    UtxoRow :=
  { oddCell with
    outpoint := ⟨txid, 0⟩
    spkScript := blockBytes sampleOwner identifierType amount 0x00
    spentTxid
    template := tokenTemplate }

/-- A market that two cells of one amount leave for a wallet, and that is paid for them. -/
def soldHistory (amount : Bytes8) : Store :=
  { Store.fresh ⟨1⟩ with
    covenantEvents :=
      [{ covenantId := ⟨9⟩
         seq := 0
         kind := .transition
         txid := ⟨5⟩
         acceptingBlock := ⟨1⟩
         acceptingDaa := 5
         payload := none
         laneNamespace := none
         payloadTag := none
         inscriptionKind := none
         txIndex := none
         acceptingTimeMs := none
         acceptingBlueScore := none
         eventIndex := none
         deliveryStreamSeq := none }]
    covenantUtxos :=
      [stateCell ⟨1⟩ 0x02 amount (some ⟨5⟩), stateCell ⟨2⟩ 0x02 amount (some ⟨5⟩),
        stateCell ⟨5⟩ 0x00 amount none,
        { oddCell with
          outpoint := ⟨⟨5⟩, 1⟩
          covenantId := (OwnerKey.mk 0x02 sampleOwner).covenant }] }

/-- The token of the history, derived. -/
def soldDerived (amount : Bytes8) : Result Derived :=
  deriveToken sampleRegistry (fun b ↦ b.take 32) ⟨[], [], [], [], [], [], [], []⟩
    (soldHistory amount) {} ⟨9⟩

/-- Two cells of 2^62 make a holding that no column holds: the sale has no row. -/
theorem trade_omitted :
    let market : OwnerKey := ⟨0x02, sampleOwner⟩
    let amount : Bytes8 := ⟨[0, 0, 0, 0, 0, 0, 0, 0x40], rfl⟩
    let s := soldHistory amount
    (soldDerived amount).map (·.tokenTrades) = .ok [] ∧
      ∃ e ∈ s.covenantEvents, e.covenantId = ⟨9⟩ ∧ ∃ ins outs,
        JudgedSides (provenCells sampleRegistry (fun b ↦ b.take 32) s ⟨9⟩) e.txid ins outs ∧
          SoleMover ins outs market ∧
          LegsOppose ins outs market (kasConsumed s e.txid market.covenant)
            (kasCreated s e.txid market.covenant) := by
  refine ⟨by decide +kernel, _, List.mem_cons_self, rfl,
    [⟨2 ^ 62, false, ⟨0x02, sampleOwner⟩⟩, ⟨2 ^ 62, false, ⟨0x02, sampleOwner⟩⟩],
    [⟨2 ^ 62, false, ⟨0x00, sampleOwner⟩⟩], ⟨by decide +kernel, by decide +kernel⟩, ?_, ?_⟩
  · have h : movers [⟨2 ^ 62, false, ⟨0x02, sampleOwner⟩⟩, ⟨2 ^ 62, false, ⟨0x02, sampleOwner⟩⟩]
        [⟨2 ^ 62, false, ⟨0x00, sampleOwner⟩⟩] = [(⟨0x02, sampleOwner⟩, -2 ^ 63)] := by
      decide +kernel
    exact (movers_eq_singleton_iff.mp h).1
  · unfold LegsOppose
    decide +kernel

/-- Two cells of five make a row. -/
theorem trades_extracted_sold :
    ∃ d, soldDerived ⟨[5, 0, 0, 0, 0, 0, 0, 0], rfl⟩ = .ok d ∧
      ∃! t, t ∈ d.tokenTrades ∧ t.tokenId = ⟨9⟩ ∧ (t.seq : Int) = 0 := by
  have hok : ((soldDerived ⟨[5, 0, 0, 0, 0, 0, 0, 0], rfl⟩).map fun _ ↦ ()) = .ok () := by
    decide +kernel
  cases hd : soldDerived ⟨[5, 0, 0, 0, 0, 0, 0, 0], rfl⟩ with
  | error e =>
      rw [hd] at hok
      cases hok
  | ok d =>
      refine ⟨d, rfl, (trades_extracted hd).2 (by decide +kernel) _ List.mem_cons_self rfl
        [⟨5, false, ⟨0x02, sampleOwner⟩⟩, ⟨5, false, ⟨0x02, sampleOwner⟩⟩]
        [⟨5, false, ⟨0x00, sampleOwner⟩⟩] ⟨by decide +kernel, by decide +kernel⟩
        ⟨0x02, sampleOwner⟩ ⟨?_, ?_, ?_⟩⟩
      · have h : movers [⟨5, false, ⟨0x02, sampleOwner⟩⟩, ⟨5, false, ⟨0x02, sampleOwner⟩⟩]
            [⟨5, false, ⟨0x00, sampleOwner⟩⟩] = [(⟨0x02, sampleOwner⟩, -10)] := by
          decide +kernel
        exact (movers_eq_singleton_iff.mp h).1
      · unfold LegsOppose
        decide +kernel
      · constructor
        all_goals decide +kernel

end Kascov
