import Kascov.Lib.Sums
import Kascov.Token.Trades

/-!
# The verdict of a token

A token is `verified` exactly when its supply is stamped.  Its books then balance: the
supply is what was created at the genesis, plus what was minted, less what was burned,
and the live cells hold it; and every transaction of its cells conserved the amount,
unless a minter authorised it or the genesis created it.
-/

namespace Kascov

open Fallible

/-! ## Judged amounts -/

/-- The largest amount a script number of eight bytes holds. -/
def maxAmount : Int := 2 ^ 63 - 1

/-- What `judge` lets through. -/
structure Judged.Bounded (j : Judged) : Prop where
  nonneg : 0 ≤ j.amount
  le : j.amount ≤ maxAmount
  known : j.ownerKey.identifierType ≤ 0x03

theorem TokenState.amountI64_bounds {st : TokenState} {amount : Int}
    (h : st.amountI64 = some amount) : 0 ≤ amount ∧ amount ≤ maxAmount := by
  unfold amountI64 at h
  split at h
  · dsimp only at h
    split at h
    · rename_i hlt
      obtain rfl := Option.some.inj h
      refine ⟨Int.natCast_nonneg _, ?_⟩
      unfold maxAmount
      omega
    · cases h
  · cases h

theorem judge_bounded {cell : TokenCell} {j : Judged} (h : judge cell = .ok j) : j.Bounded := by
  unfold judge at h
  split at h
  · cases h
  · rename_i st _ _
    split at h
    · cases h
    · rename_i htype
      split at h
      · cases h
      · rename_i amount hamount
        split at h
        · cases h
        · obtain rfl := Except.ok.inj h
          obtain ⟨hnonneg, hle⟩ := TokenState.amountI64_bounds hamount
          exact ⟨hnonneg, hle, UInt8.not_lt.mp htype⟩

theorem mapM_judge_bounded {cells : List TokenCell} {states : List Judged}
    (h : cells.mapM judge = .ok states) : ∀ j ∈ states, j.Bounded := by
  intro j hj
  obtain ⟨cell, -, hcell⟩ := mapM_mem h hj
  exact judge_bounded hcell

theorem liveStates_bounded (cells : List TokenCell) : ∀ j ∈ liveStates cells, j.Bounded := by
  intro j hj
  obtain ⟨cell, -, hcell⟩ := List.mem_filterMap.mp hj
  cases hjudge : judge cell with
  | error reason =>
      rw [hjudge] at hcell
      cases hcell
  | ok state =>
      rw [hjudge] at hcell
      obtain rfl := Option.some.inj hcell
      exact judge_bounded hjudge

theorem sumAmounts_nonneg {states : List Judged} (h : ∀ j ∈ states, j.Bounded) :
    0 ≤ sumAmounts states :=
  Sums.sum_nonneg fun j hj ↦ (h j hj).nonneg

theorem sumAmounts_le {states : List Judged} (h : ∀ j ∈ states, j.Bounded) :
    sumAmounts states ≤ states.length * maxAmount :=
  Sums.sum_le_length fun j hj ↦ (h j hj).le

theorem sumAmounts_sublist {part states : List Judged} (hpart : part.Sublist states)
    (h : ∀ j ∈ states, j.Bounded) : sumAmounts part ≤ sumAmounts states :=
  Sums.sum_le_of_sublist hpart fun j hj ↦ (h j hj).nonneg

/-! ## What a transaction books -/

/-- What a transaction books as burned. -/
def bookedBurn (ins outs : List Judged) : Int :=
  if ins = [] then 0
  else if outs = [] then sumAmounts ins
  else if sumAmounts outs < sumAmounts ins then sumAmounts ins - sumAmounts outs
  else 0

/-- What a transaction books as minted. -/
def bookedMint (ins outs : List Judged) : Int :=
  if ins = [] ∨ outs = [] then 0
  else if sumAmounts ins < sumAmounts outs then sumAmounts outs - sumAmounts ins
  else 0

/-- What a transaction books as created at the genesis. -/
def bookedGenesis (kind : EventKind) (ins outs : List Judged) : Int :=
  if ins = [] ∧ kind = .genesis then sumAmounts outs else 0

/-- The amounts that events classified as the genesis created. -/
def genesisBooked (classified : List ClassifiedEvent) : Int :=
  (classified.map fun ev ↦
    if ev.kind = .genesis then (ev.deltas.map fun d ↦ d.amount.getD 0).sum else 0).sum

theorem genesisBooked_append (classified : List ClassifiedEvent) (ev : ClassifiedEvent) :
    genesisBooked (classified ++ [ev]) = genesisBooked classified +
      if ev.kind = .genesis then (ev.deltas.map fun d ↦ d.amount.getD 0).sum else 0 := by
  simp [genesisBooked]

/-- How a turn of the loop changes the totals. -/
structure Books (w w' : TokenWalk) (g m b : Int) : Prop where
  genesis : genesisBooked w'.classified = genesisBooked w.classified + g
  minted : w'.minted = w.minted + m
  burned : w'.burned = w.burned + b
  supply : w'.supply = w.supply + g + m - b

theorem unknown_books (w : TokenWalk) (seq : Nat) (e : EventRow) (reason : String) :
    Books w (w.unknown seq e reason) 0 0 0 where
  genesis := by
    rw [TokenWalk.unknown, TokenWalk.classify, genesisBooked_append]
    rfl
  minted := (Int.add_zero _).symm
  burned := (Int.add_zero _).symm
  supply := by
    rw [Int.add_zero, Int.add_zero, Int.sub_zero]
    rfl

theorem outputDeltas_amounts (owner : Option OwnerKey) (outs : List Judged) :
    ((outputDeltas owner outs).map fun d ↦ d.amount.getD 0).sum = sumAmounts outs := by
  unfold outputDeltas sumAmounts
  rw [List.map_map]
  rfl

theorem classifyGenesis_books (w : TokenWalk) (seq : Nat) (e : EventRow) (outs : List Judged) :
    Books w (classifyGenesis w seq e outs) (bookedGenesis e.kind [] outs) 0 0 := by
  unfold classifyGenesis
  by_cases hkind : e.kind = .genesis
  · have hbooked : bookedGenesis e.kind [] outs = sumAmounts outs := if_pos ⟨rfl, hkind⟩
    rw [if_neg (not_not.mpr hkind), hbooked]
    refine ⟨?_, (Int.add_zero _).symm, (Int.add_zero _).symm, ?_⟩
    · rw [TokenWalk.classify, genesisBooked_append, if_pos rfl, outputDeltas_amounts]
    · show w.supply + sumAmounts outs = _
      omega
  · have hbooked : bookedGenesis e.kind [] outs = 0 := if_neg fun h ↦ hkind h.2
    rw [if_pos hkind, hbooked]
    exact unknown_books w seq e _

theorem classifyTerminal_books (w : TokenWalk) (seq : Nat) (e : EventRow) (ins : List Judged) :
    Books w (classifyTerminal w seq e ins) 0 0 (sumAmounts ins) where
  genesis := by
    rw [classifyTerminal, TokenWalk.classify, genesisBooked_append]
    rfl
  minted := (Int.add_zero _).symm
  burned := rfl
  supply := by
    show w.supply - sumAmounts ins = _
    omega

theorem moveKind_ne_genesis (ins outs : List Judged) : moveKind ins outs ≠ .genesis := by
  unfold moveKind
  repeat' split
  all_goals simp

theorem classifyMove_books (w : TokenWalk) (seq : Nat) (e : EventRow) {ins outs : List Judged}
    (hins : ins ≠ []) (houts : outs ≠ []) :
    Books w (classifyMove w seq e ins outs) 0 (bookedMint ins outs) (bookedBurn ins outs) := by
  have hmint : bookedMint ins outs =
      if sumAmounts ins < sumAmounts outs then sumAmounts outs - sumAmounts ins else 0 :=
    if_neg (not_or.mpr ⟨hins, houts⟩)
  have hburn : bookedBurn ins outs =
      if sumAmounts outs < sumAmounts ins then sumAmounts ins - sumAmounts outs else 0 := by
    rw [bookedBurn, if_neg hins, if_neg houts]
  rw [hmint, hburn]
  refine ⟨?_, ?_, ?_, ?_⟩
  · rw [classifyMove, TokenWalk.classify, genesisBooked_append, if_neg (moveKind_ne_genesis _ _)]
  · show (if _ then _ else _) = _
    split
    · rfl
    · exact (Int.add_zero _).symm
  · show (if _ then _ else _) = _
    split
    · rfl
    · exact (Int.add_zero _).symm
  · show w.supply + (sumAmounts outs - sumAmounts ins) = _
    split
    · rw [if_neg (by omega)]
      omega
    · split
      · omega
      · omega

theorem classifyStates_books (w : TokenWalk) (seq : Nat) (e : EventRow) (ins outs : List Judged) :
    Books w (classifyStates w seq e ins outs) (bookedGenesis e.kind ins outs)
      (bookedMint ins outs) (bookedBurn ins outs) := by
  unfold classifyStates
  by_cases hins : ins = []
  · subst hins
    exact classifyGenesis_books w seq e outs
  · have hgenesis : bookedGenesis e.kind ins outs = 0 := if_neg fun h ↦ hins h.1
    rw [if_neg hins, hgenesis]
    by_cases houts : outs = []
    · have hmint : bookedMint ins outs = 0 := if_pos (.inr houts)
      have hburn : bookedBurn ins outs = sumAmounts ins := by
        rw [bookedBurn, if_neg hins, if_pos houts]
      rw [if_pos houts, hmint, hburn]
      exact classifyTerminal_books w seq e ins
    · rw [if_neg houts]
      exact classifyMove_books w seq e hins houts

/-! ## Clean histories -/

namespace Verdict

/-- Nothing is flagged. -/
structure Clean (v : Verdict) : Prop where
  valid : v.invalid = none
  validated : v.unvalidated = none

theorem status_verified {v : Verdict} : v.status = .verified ↔ v.Clean := by
  unfold status
  constructor
  · intro h
    split at h
    · cases h
    · split at h
      · cases h
      · rename_i hinvalid hunvalidated
        exact ⟨Option.not_isSome_iff_eq_none.mp hinvalid,
          Option.not_isSome_iff_eq_none.mp hunvalidated⟩
  · rintro ⟨hvalid, hvalidated⟩
    rw [hvalid, hvalidated]
    rfl

theorem not_clean_flagInvalid (v : Verdict) (reason : String) : ¬(v.flagInvalid reason).Clean := by
  rintro ⟨hvalid, -⟩
  unfold flagInvalid at hvalid
  cases h : v.invalid with
  | none =>
      rw [h] at hvalid
      cases hvalid
  | some _ =>
      rw [h] at hvalid
      cases hvalid

theorem not_clean_flagUnvalidated (v : Verdict) (reason : String) :
    ¬(v.flagUnvalidated reason).Clean := by
  rintro ⟨-, hvalidated⟩
  unfold flagUnvalidated at hvalidated
  cases h : v.unvalidated with
  | none =>
      rw [h] at hvalidated
      cases hvalidated
  | some _ =>
      rw [h] at hvalidated
      cases hvalidated

end Verdict

/-- What a clean history allows a transaction. -/
structure Conserves (kind : EventKind) (ins outs : List Judged) : Prop where
  genesis : ins = [] → kind = .genesis
  amounts : ins ≠ [] → ins.any (·.minter) = false →
    sumAmounts outs = sumAmounts ins - bookedBurn ins outs
  unburned : ins ≠ [] → ins.any (·.minter) = false → bookedBurn ins outs = 0
  minters : ins ≠ [] → ins.any (·.minter) = false → outs.any (·.minter) = false

theorem moveVerdict_clean {v : Verdict} {seq : Nat} {e : EventRow} {ins outs : List Judged}
    (h : (moveVerdict v seq e ins outs).Clean) :
    v.Clean ∧ (ins.any (·.minter) = false →
      sumAmounts outs = sumAmounts ins ∧ outs.any (·.minter) = false) := by
  unfold moveVerdict at h
  cases hin : ins.any (·.minter) with
  | true =>
      simp only [hin, Bool.not_true, Bool.and_false, Bool.false_eq_true, if_false, ite_self] at h
      exact ⟨h, fun hfalse ↦ absurd hfalse (by decide)⟩
  | false =>
      simp only [hin, Bool.not_false, Bool.and_true, if_true] at h
      split at h
      · exact absurd h (Verdict.not_clean_flagInvalid _ _)
      · split at h
        · exact absurd h (Verdict.not_clean_flagInvalid _ _)
        · split at h
          · exact absurd h (Verdict.not_clean_flagInvalid _ _)
          · rename_i hout
            exact ⟨h, fun _ ↦ ⟨by omega, Bool.eq_false_iff.mpr hout⟩⟩

theorem classifyStates_clean {w : TokenWalk} {seq : Nat} {e : EventRow} {ins outs : List Judged}
    (hins : ∀ j ∈ ins, j.Bounded) (h : (classifyStates w seq e ins outs).verdict.Clean) :
    w.verdict.Clean ∧ Conserves e.kind ins outs := by
  unfold classifyStates at h
  by_cases hnone : ins = []
  · rw [if_pos hnone] at h
    unfold classifyGenesis at h
    split at h
    · exact absurd h (Verdict.not_clean_flagUnvalidated _ _)
    · rename_i hkind
      exact ⟨h, fun _ ↦ not_not.mp hkind, fun hne ↦ absurd hnone hne,
        fun hne ↦ absurd hnone hne, fun hne ↦ absurd hnone hne⟩
  · rw [if_neg hnone] at h
    by_cases hburnt : outs = []
    · rw [if_pos hburnt] at h
      have hburn : bookedBurn ins outs = sumAmounts ins := by
        rw [bookedBurn, if_neg hnone, if_pos hburnt]
      unfold classifyTerminal TokenWalk.classify at h
      dsimp only at h
      split at h
      · exact absurd h (Verdict.not_clean_flagUnvalidated _ _)
      · rename_i hflag
        have hzero : ins.any (·.minter) = false → sumAmounts ins = 0 := by
          intro hminter
          rw [hminter, Bool.not_false, Bool.true_and, decide_eq_true_eq] at hflag
          exact le_antisymm (not_lt.mp hflag) (sumAmounts_nonneg hins)
        refine ⟨h, fun hnil ↦ absurd hnil hnone, fun _ _ ↦ ?_, fun _ hminter ↦ ?_,
          fun _ _ ↦ ?_⟩
        · rw [hburn, hburnt, Int.sub_self]
          rfl
        · rw [hburn, hzero hminter]
        · rw [hburnt]
          rfl
    · rw [if_neg hburnt] at h
      obtain ⟨hclean, hmoved⟩ := moveVerdict_clean h
      have hburn : ins.any (·.minter) = false → bookedBurn ins outs = 0 := by
        intro hminter
        have hsum := (hmoved hminter).1
        rw [bookedBurn, if_neg hnone, if_neg hburnt, if_neg (by omega)]
      refine ⟨hclean, fun hnil ↦ absurd hnil hnone, fun _ hminter ↦ ?_,
        fun _ hminter ↦ hburn hminter, fun _ hminter ↦ (hmoved hminter).2⟩
      rw [hburn hminter, Int.sub_zero]
      exact (hmoved hminter).1

/-! ## The loop -/

section Loop

variable {s : Store} {tokenId : CovenantId} {cells : List TokenCell}

theorem JudgedSides.bounded {txid : TxId} {ins outs : List Judged}
    (h : JudgedSides cells txid ins outs) :
    (∀ j ∈ ins, j.Bounded) ∧ ∀ j ∈ outs, j.Bounded :=
  ⟨mapM_judge_bounded h.ins, mapM_judge_bounded h.outs⟩

/-- What a turn of the loop can do: give up on the event, or classify its states. -/
theorem walkEvent_cases {w w' : TokenWalk} {event : Nat × EventRow}
    (h : walkEvent s tokenId cells w event = .ok w') :
    (∃ reason, w' = w.unknown event.1 event.2 reason) ∨
      ∃ ins outs trades, JudgedSides cells event.2.txid ins outs ∧
        w' = classifyStates { w with tradeRows := w.tradeRows ++ trades } event.1 event.2
          ins outs := by
  unfold walkEvent at h
  dsimp only at h
  split at h
  · exact .inl ⟨_, (Except.ok.inj h).symm⟩
  · split at h
    · rename_i ins outs hins houts
      obtain ⟨trade, -, h⟩ := bind_eq_ok.mp h
      rw [pure_eq_ok] at h
      exact .inr ⟨ins, outs, _, ⟨hins, houts⟩, h.symm⟩
    · exact .inl ⟨_, (Except.ok.inj h).symm⟩
    · exact .inl ⟨_, (Except.ok.inj h).symm⟩

theorem not_clean_unknown (w : TokenWalk) (seq : Nat) (e : EventRow) (reason : String) :
    ¬(w.unknown seq e reason).verdict.Clean :=
  Verdict.not_clean_flagUnvalidated _ _

/-- An event that is classified without a flag is counted as clean. -/
theorem classifyStates_allEventsClean {w : TokenWalk} {seq : Nat} {e : EventRow}
    {ins outs : List Judged} (h : (classifyStates w seq e ins outs).verdict.Clean) :
    (classifyStates w seq e ins outs).allEventsClean = w.allEventsClean := by
  unfold classifyStates at h ⊢
  split
  · rename_i hins
    rw [if_pos hins] at h
    unfold classifyGenesis at h ⊢
    split
    · rename_i hkind
      rw [if_pos hkind] at h
      exact absurd h (not_clean_unknown _ _ _ _)
    · rfl
  · split
    · rfl
    · rfl

/-- What holds after the events that were walked. -/
structure WalkLaw (cells : List TokenCell) (done : List (Nat × EventRow)) (w : TokenWalk) :
    Prop where
  clean : w.verdict.Clean → w.allEventsClean = true
  conserves : w.verdict.Clean → ∀ event ∈ done, ∃ ins outs,
    JudgedSides cells event.2.txid ins outs ∧ Conserves event.2.kind ins outs
  supply : w.supply = genesisBooked w.classified + w.minted - w.burned

theorem WalkLaw.of_books {done : List (Nat × EventRow)} {w w' : TokenWalk} {g m b : Int}
    (hw : WalkLaw cells done w) (h : Books w w' g m b) :
    w'.supply = genesisBooked w'.classified + w'.minted - w'.burned := by
  have hsupply := hw.supply
  rw [h.supply, h.genesis, h.minted, h.burned]
  omega

theorem WalkLaw.step {done : List (Nat × EventRow)} {w w' : TokenWalk} {event : Nat × EventRow}
    (hw : WalkLaw cells done w) (h : walkEvent s tokenId cells w event = .ok w') :
    WalkLaw cells (done ++ [event]) w' := by
  obtain ⟨reason, rfl⟩ | ⟨ins, outs, trades, hsides, rfl⟩ := walkEvent_cases h
  · exact ⟨fun hclean ↦ absurd hclean (not_clean_unknown _ _ _ _),
      fun hclean ↦ absurd hclean (not_clean_unknown _ _ _ _),
      hw.of_books (unknown_books w _ _ reason)⟩
  · have hwalk : WalkLaw cells done { w with tradeRows := w.tradeRows ++ trades } :=
      ⟨hw.clean, hw.conserves, hw.supply⟩
    refine ⟨fun hclean ↦ ?_, fun hclean ↦ ?_, hwalk.of_books (classifyStates_books _ _ _ _ _)⟩
    · rw [classifyStates_allEventsClean hclean]
      exact hw.clean (classifyStates_clean hsides.bounded.1 hclean).1
    · obtain ⟨hbefore, hconserves⟩ := classifyStates_clean hsides.bounded.1 hclean
      intro other hother
      rcases List.mem_append.mp hother with hdone | hlast
      · exact hw.conserves hbefore other hdone
      · obtain rfl := List.mem_singleton.mp hlast
        exact ⟨ins, outs, hsides, hconserves⟩

theorem WalkLaw.run {events done : List (Nat × EventRow)} {w w' : TokenWalk}
    (hw : WalkLaw cells done w) (h : events.foldlM (walkEvent s tokenId cells) w = .ok w') :
    WalkLaw cells (done ++ events) w' := by
  induction events generalizing done w with
  | nil =>
      rw [List.foldlM_nil, pure_eq_ok] at h
      rwa [List.append_nil, ← h]
  | cons event rest ih =>
      rw [List.foldlM_cons, bind_eq_ok] at h
      obtain ⟨w₁, h₁, h⟩ := h
      rw [List.append_cons]
      exact ih (hw.step h₁) h

/-- The walk over a token's events, and what the last check adds. -/
theorem walkToken_law {events : List (Nat × EventRow)} {w : TokenWalk}
    (h : walkToken s tokenId cells events = .ok w) :
    WalkLaw cells events w ∧ (w.verdict.Clean → orphanTx cells events = none) := by
  unfold walkToken at h
  obtain ⟨w₁, hfold, h⟩ := bind_eq_ok.mp h
  rw [pure_eq_ok] at h
  have hstart : WalkLaw cells [] ({ verdict := (covenantGate s tokenId).1 } : TokenWalk) :=
    ⟨fun _ ↦ rfl, fun _ _ hmem ↦ absurd hmem List.not_mem_nil, rfl⟩
  have hlaw : WalkLaw cells events w₁ := hstart.run hfold
  cases horphan : orphanTx cells events with
  | none =>
      rw [horphan] at h
      exact ⟨h ▸ hlaw, fun _ ↦ rfl⟩
  | some txid =>
      rw [horphan] at h
      subst h
      exact ⟨⟨fun hclean ↦ absurd hclean (Verdict.not_clean_flagUnvalidated _ _),
        fun hclean ↦ absurd hclean (Verdict.not_clean_flagUnvalidated _ _), hlaw.supply⟩,
        fun hclean ↦ absurd hclean (Verdict.not_clean_flagUnvalidated _ _)⟩

/-- Past the last check, every transaction of the cells has an event. -/
theorem event_of_orphanTx {events : List (Nat × EventRow)} (h : orphanTx cells events = none)
    {txid : TxId} (hcells : insOfTx cells txid ≠ [] ∨ outsOfTx cells txid ≠ []) :
    ∃ event ∈ events, event.2.txid = txid := by
  have hmem : txid ∈ (outsOf cells).map (·.1) ++ spendingTxids cells := by
    rcases hcells with hins | houts
    · obtain ⟨cell, hcell⟩ := List.exists_mem_of_ne_nil _ hins
      obtain ⟨hcell, hspent⟩ := List.mem_filter.mp hcell
      apply List.mem_append_right
      unfold spendingTxids
      rw [List.mem_insertionSort, List.mem_dedup, List.mem_filterMap]
      exact ⟨cell, hcell, of_decide_eq_true hspent⟩
    · obtain ⟨cell, hcell⟩ := List.exists_mem_of_ne_nil _ houts
      obtain ⟨hcell, hcreated⟩ := List.mem_filter.mp hcell
      apply List.mem_append_left
      unfold outsOf
      rw [List.map_map, List.mem_map]
      refine ⟨txid, ?_, rfl⟩
      rw [List.mem_insertionSort, List.mem_dedup, List.mem_map]
      exact ⟨cell, hcell, of_decide_eq_true hcreated⟩
  have hseen := List.find?_eq_none.mp h txid hmem
  rw [Bool.not_eq_true, Bool.not_eq_false', List.any_eq_true] at hseen
  obtain ⟨event, hevent, heq⟩ := hseen
  exact ⟨event, hevent, of_decide_eq_true heq⟩

/-! ## The size of the totals -/

/-- The cell amounts that the loop adds up. -/
def readings (cells : List TokenCell) (events : List (Nat × EventRow)) : Nat :=
  (events.map fun event ↦
    (insOfTx cells event.2.txid).length + (outsOfTx cells event.2.txid).length).sum

/-- The totals stay below a bound. -/
structure TokenWalk.Within (w : TokenWalk) (B : Int) : Prop where
  supply : |w.supply| ≤ B
  minted : |w.minted| ≤ B
  burned : |w.burned| ≤ B

theorem Books.within {w w' : TokenWalk} {g m b B X : Int} (h : Books w w' g m b)
    (hw : w.Within B) (hm : |m| ≤ X) (hb : |b| ≤ X) (hs : |g + m - b| ≤ X) :
    w'.Within (B + X) := by
  have hsupply : w'.supply = w.supply + (g + m - b) := by
    rw [h.supply]
    omega
  refine ⟨?_, ?_, ?_⟩
  · rw [hsupply]
    exact (abs_add_le _ _).trans (add_le_add hw.supply hs)
  · rw [h.minted]
    exact (abs_add_le _ _).trans (add_le_add hw.minted hm)
  · rw [h.burned]
    exact (abs_add_le _ _).trans (add_le_add hw.burned hb)

/-- What a transaction books is no more than what its sides hold. -/
theorem booked_le (kind : EventKind) {ins outs : List Judged} (hins : ∀ j ∈ ins, j.Bounded)
    (houts : ∀ j ∈ outs, j.Bounded) :
    |bookedMint ins outs| ≤ sumAmounts ins + sumAmounts outs ∧
      |bookedBurn ins outs| ≤ sumAmounts ins + sumAmounts outs ∧
      |bookedGenesis kind ins outs + bookedMint ins outs - bookedBurn ins outs| ≤
        sumAmounts ins + sumAmounts outs := by
  have hin := sumAmounts_nonneg hins
  have hout := sumAmounts_nonneg houts
  have hburn : 0 ≤ bookedBurn ins outs ∧ bookedBurn ins outs ≤ sumAmounts ins := by
    unfold bookedBurn
    split
    · omega
    · split
      · omega
      · split
        · omega
        · omega
  have hmint : 0 ≤ bookedMint ins outs ∧ bookedMint ins outs ≤ sumAmounts outs := by
    unfold bookedMint
    split
    · omega
    · split
      · omega
      · omega
  have hgenesis : 0 ≤ bookedGenesis kind ins outs ∧
      bookedGenesis kind ins outs + bookedMint ins outs ≤ sumAmounts outs := by
    unfold bookedGenesis
    split
    · rename_i h
      have hzero : bookedMint ins outs = 0 := if_pos (.inl h.1)
      omega
    · omega
  refine ⟨abs_le.mpr ⟨?_, ?_⟩, abs_le.mpr ⟨?_, ?_⟩, abs_le.mpr ⟨?_, ?_⟩⟩
  all_goals omega

theorem JudgedSides.sums_le {txid : TxId} {ins outs : List Judged}
    (h : JudgedSides cells txid ins outs) :
    sumAmounts ins + sumAmounts outs ≤
      ((insOfTx cells txid).length + (outsOfTx cells txid).length : Nat) * maxAmount := by
  have hins := sumAmounts_le h.bounded.1
  have houts := sumAmounts_le h.bounded.2
  rw [mapM_length h.ins] at hins
  rw [mapM_length h.outs] at houts
  push_cast
  linarith

theorem maxAmount_nonneg : 0 ≤ maxAmount := by decide

theorem walkEvent_within {w w' : TokenWalk} {event : Nat × EventRow} {B : Int}
    (hw : w.Within B) (h : walkEvent s tokenId cells w event = .ok w') :
    w'.Within (B + ((insOfTx cells event.2.txid).length +
      (outsOfTx cells event.2.txid).length : Nat) * maxAmount) := by
  obtain ⟨reason, rfl⟩ | ⟨ins, outs, trades, hsides, rfl⟩ := walkEvent_cases h
  · have hzero : |(0 : Int)| ≤ ((insOfTx cells event.2.txid).length +
        (outsOfTx cells event.2.txid).length : Nat) * maxAmount := by
      rw [abs_zero]
      exact mul_nonneg (Int.natCast_nonneg _) maxAmount_nonneg
    exact (unknown_books w _ _ reason).within hw hzero hzero hzero
  · obtain ⟨hmint, hburn, hsupply⟩ :=
      booked_le event.2.kind hsides.bounded.1 hsides.bounded.2
    have hle := hsides.sums_le
    exact (classifyStates_books { w with tradeRows := w.tradeRows ++ trades } _ _ _ _).within
      ⟨hw.supply, hw.minted, hw.burned⟩ (hmint.trans hle) (hburn.trans hle) (hsupply.trans hle)

/-- The totals are bounded by what was read. -/
theorem foldlM_walkEvent_within {events : List (Nat × EventRow)} {w w' : TokenWalk} {B : Int}
    (hw : w.Within B) (h : events.foldlM (walkEvent s tokenId cells) w = .ok w') :
    w'.Within (B + readings cells events * maxAmount) := by
  induction events generalizing w B with
  | nil =>
      rw [List.foldlM_nil, pure_eq_ok] at h
      simpa [readings, ← h] using hw
  | cons event rest ih =>
      rw [List.foldlM_cons, bind_eq_ok] at h
      obtain ⟨w₁, h₁, h⟩ := h
      have hrest := ih (walkEvent_within hw h₁) h
      have hsplit : (readings cells (event :: rest) : Int) =
          ((insOfTx cells event.2.txid).length + (outsOfTx cells event.2.txid).length : Nat) +
            readings cells rest := by
        simp [readings]
      rw [hsplit, add_mul, ← add_assoc]
      exact hrest

end Loop

/-! ## The frontier -/

/-- The balances add up to the live states. -/
theorem ownerBalances_sum (states : List Judged) :
    ((ownerBalances states).map (·.2.1)).sum = sumAmounts states := by
  unfold ownerBalances
  rw [List.map_map]
  exact Sums.sum_groups (ownerSet_nodup states) (·.ownerKey) (·.amount)
    fun j hj ↦ mem_ownerSet.mpr ⟨j, hj, rfl⟩

theorem ownerBalances_nonneg {states : List Judged} (h : ∀ j ∈ states, j.Bounded) :
    ∀ b ∈ ownerBalances states, 0 ≤ b.2.1 ∧ b.1.identifierType ≤ 0x03 := by
  intro b hb
  obtain ⟨owner, howner, rfl⟩ := List.mem_map.mp hb
  obtain ⟨j, hj, rfl⟩ := mem_ownerSet.mp howner
  exact ⟨sumAmounts_nonneg fun j' hj' ↦ h j' (List.mem_of_mem_filter hj'), (h j hj).known⟩

/-- The three kinds of holders are all there are. -/
theorem heldByTypes_total {balances : List (OwnerKey × Int × Nat)}
    (h : ∀ b ∈ balances, 0 ≤ b.2.1 ∧ b.1.identifierType ≤ 0x03) :
    heldByTypes balances [0x02] + heldByTypes balances [0x00, 0x03] +
      heldByTypes balances [0x01] = (balances.map (·.2.1)).sum := by
  unfold heldByTypes
  apply Sums.sum_split
  intro b hb
  have htypes : b.1.identifierType = 0x00 ∨ b.1.identifierType = 0x01 ∨
      b.1.identifierType = 0x02 ∨ b.1.identifierType = 0x03 := by
    have hle := UInt8.le_iff_toNat_le.mp (h b hb).2
    rw [← UInt8.toNat_inj, ← UInt8.toNat_inj, ← UInt8.toNat_inj, ← UInt8.toNat_inj]
    have hthree : (0x03 : UInt8).toNat = 3 := rfl
    have htwo : (0x02 : UInt8).toNat = 2 := rfl
    have hone : (0x01 : UInt8).toNat = 1 := rfl
    have hzero : (0x00 : UInt8).toNat = 0 := rfl
    omega
  rcases htypes with ht | ht | ht | ht
  all_goals
    rw [ht]
    decide

theorem heldByTypes_bounds {balances : List (OwnerKey × Int × Nat)}
    (h : ∀ b ∈ balances, 0 ≤ b.2.1 ∧ b.1.identifierType ≤ 0x03) (types : List UInt8) :
    0 ≤ heldByTypes balances types ∧
      heldByTypes balances types ≤ (balances.map (·.2.1)).sum :=
  ⟨Sums.sum_nonneg fun b hb ↦ (h b (List.mem_of_mem_filter hb)).1,
    Sums.sum_le_of_sublist List.filter_sublist fun b hb ↦ (h b hb).1⟩

/-- The rows of balances that all fit keep every balance. -/
theorem balanceRows_sum (tokenId : CovenantId) {balances : List (OwnerKey × Int × Nat)}
    (h : ∀ b ∈ balances, Checked.InRange 63 b.2.1) :
    ((balanceRows tokenId balances).map (·.balance)).sum = (balances.map (·.2.1)).sum := by
  unfold balanceRows
  induction balances with
  | nil => rfl
  | cons b rest ih =>
      obtain ⟨hb, hrest⟩ := List.forall_mem_cons.mp h
      obtain ⟨owner, balance, n⟩ := b
      have hnarrow : Checked.narrow 63 balance = some balance := Checked.narrow_of_inRange hb
      rw [List.filterMap_cons]
      dsimp only
      rw [hnarrow, Option.map_some]
      dsimp only
      rw [List.map_cons, List.map_cons, List.sum_cons, List.sum_cons, ih hrest]

theorem balanceRows_tokenId {tokenId : CovenantId} {balances : List (OwnerKey × Int × Nat)}
    {row : TokenBalance} (h : row ∈ balanceRows tokenId balances) : row.tokenId = tokenId := by
  obtain ⟨b, -, hrow⟩ := List.mem_filterMap.mp h
  obtain ⟨balance, -, rfl⟩ := Option.map_eq_some_iff.mp hrow
  rfl

/-! ## The gate -/

/-- The gate stamps the totals of a clean walk whose live cells hold its supply, and
otherwise leaves no supply under no clean verdict. -/
theorem publishSums_cases {w : TokenWalk} {balances : List (OwnerKey × Int × Nat)}
    (unresolved : Nat) (hclean : w.verdict.Clean → w.allEventsClean = true)
    (hknown : ∀ b ∈ balances, 0 ≤ b.2.1 ∧ b.1.identifierType ≤ 0x03) :
    (w.verdict.Clean ∧ 0 ≤ w.supply ∧ w.supply < 2 ^ 63 ∧
        (balances.map (·.2.1)).sum = w.supply ∧ unresolved = 0 ∧
        publishSums w balances unresolved = (w.verdict,
          { supply := some w.supply
            minted := some w.minted
            burned := some w.burned
            heldCovenant := some (heldByTypes balances [0x02])
            heldWallet := some (heldByTypes balances [0x00, 0x03])
            heldScript := some (heldByTypes balances [0x01]) })) ∨
      (¬(publishSums w balances unresolved).1.Clean ∧
        (publishSums w balances unresolved).2.supply = none) := by
  unfold publishSums
  split
  · rename_i hgate
    simp only [Bool.and_eq_true, Option.isNone_iff_eq_none] at hgate
    split
    · rename_i supply minted burned hsupply hminted hburned
      obtain ⟨hrange, rfl⟩ := Checked.narrow_eq_some.mp hsupply
      obtain ⟨-, rfl⟩ := Checked.narrow_eq_some.mp hminted
      obtain ⟨-, rfl⟩ := Checked.narrow_eq_some.mp hburned
      split
      · rename_i hnonneg
        dsimp only
        split
        · rename_i hfrontier
          have hfits : ∀ types, Checked.narrow 63 (heldByTypes balances types) =
              some (heldByTypes balances types) := by
            intro types
            obtain ⟨hlow, hhigh⟩ := heldByTypes_bounds hknown types
            rw [hfrontier.1] at hhigh
            exact Checked.narrow_of_inRange
              (Checked.inRange_of_nonneg hlow (lt_of_le_of_lt hhigh hrange.2))
          rw [if_pos (heldByTypes_total hknown), hfits, hfits, hfits]
          exact .inl ⟨⟨hgate.1.2, hgate.2⟩, hnonneg, hrange.2, hfrontier.1, hfrontier.2, rfl⟩
        · exact .inr ⟨Verdict.not_clean_flagUnvalidated _ _, rfl⟩
      · exact .inr ⟨Verdict.not_clean_flagUnvalidated _ _, rfl⟩
    · exact .inr ⟨Verdict.not_clean_flagUnvalidated _ _, rfl⟩
  · rename_i hgate
    refine .inr ⟨fun h ↦ hgate ?_, rfl⟩
    rw [hclean h, h.valid, h.validated]
    rfl

/-! ## The row of a token -/

/-- What the token's genesis created, as its events are stored. -/
def genesisAmount (d : Derived) (tokenId : CovenantId) : Int :=
  ((d.tokenEvents.filter fun e ↦ e.tokenId = tokenId ∧ e.kind = .genesis).map
    fun e ↦ e.amount.getD 0).sum

/-- The sum of the token's balances. -/
def balanceSum (d : Derived) (tokenId : CovenantId) : Int :=
  ((d.tokenBalances.filter (·.tokenId = tokenId)).map (·.balance)).sum

/-- The books of a verified token. -/
structure BalancedBooks (s : Store) (d : Derived) (cells : List TokenCell) (row : TokenRow) :
    Prop where
  totals : ∃ supply minted burned, row.supply = some supply ∧ row.minted = some minted ∧
    row.burned = some burned ∧ supply = genesisAmount d row.tokenId + minted - burned
  balances : row.supply = some (balanceSum d row.tokenId)
  held : ∃ covenant wallet script, row.heldCovenant = some covenant ∧
    row.heldWallet = some wallet ∧ row.heldScript = some script ∧
    balanceSum d row.tokenId = covenant + wallet + script
  resolved : row.unresolvedCells = 0
  transactions : ∀ txid, insOfTx cells txid ≠ [] ∨ outsOfTx cells txid ≠ [] →
    ∃ ins outs, JudgedSides cells txid ins outs ∧
      ∃ e ∈ s.covenantEvents, e.covenantId = row.tokenId ∧ e.txid = txid ∧
        Conserves e.kind ins outs

/-- No sum of the pass leaves the range of an `i128`. -/
structure SumsFit (s : Store) (tokenId : CovenantId) (cells : List TokenCell)
    (events : List (Nat × EventRow)) : Prop where
  sides : ∀ event ∈ events, ∀ ins outs, JudgedSides cells event.2.txid ins outs →
    ∀ i o, i.Sublist ins → o.Sublist outs → Checked.InRange 127 (sumAmounts o - sumAmounts i)
  totals : ∀ done, done <+: events → ∀ w, done.foldlM (walkEvent s tokenId cells)
      { verdict := (covenantGate s tokenId).1 } = .ok w →
    Checked.InRange 127 w.supply ∧ Checked.InRange 127 w.minted ∧ Checked.InRange 127 w.burned
  frontier : ∀ part, part.Sublist (liveStates cells) → Checked.InRange 127 (sumAmounts part)
  /-- The values are read from a signed column. -/
  kas : (∀ row ∈ s.covenantUtxos, row.value < 2 ^ 63) → ∀ txid market,
    Checked.InRange 127 ((kasCreated s txid market : Int) - kasConsumed s txid market)

section Row

variable {registry : Registry} {blake2b : Bytes → Bytes} {builds : MarketBuilds}
variable {s : Store} {d d' : Derived} {tokenId : CovenantId}

/-- The stored genesis events add up to what the walk booked. -/
theorem genesisRows_sum (tokenId : CovenantId) (classified : List ClassifiedEvent) :
    (((tokenEventRowsOf tokenId classified).filter fun e ↦
      e.tokenId = tokenId ∧ e.kind = .genesis).map fun e ↦ e.amount.getD 0).sum =
        genesisBooked classified := by
  unfold tokenEventRowsOf genesisBooked
  induction classified with
  | nil => rfl
  | cons ev rest ih =>
      rw [List.flatMap_cons, List.filter_append, List.map_append, List.sum_append, ih,
        List.map_cons, List.sum_cons]
      congr 1
      rw [List.filter_map, List.map_map]
      by_cases hkind : ev.kind = .genesis
      · rw [if_pos hkind, List.filter_eq_self.mpr (by simp [hkind])]
        have hfst : (ev.deltas.zipIdx.map fun p ↦ p.1.amount.getD 0) =
            ev.deltas.map fun d ↦ d.amount.getD 0 := by
          conv_rhs => rw [← List.zipIdx_map_fst 0 ev.deltas, List.map_map]
          rfl
        exact congrArg List.sum hfst
      · rw [if_neg hkind, List.filter_eq_nil_iff.mpr (by simp [hkind])]
        rfl

theorem genesisAmount_derived {classified : List ClassifiedEvent} (hevents : d'.tokenEvents =
      d.tokenEvents.filter (·.tokenId ≠ tokenId) ++ tokenEventRowsOf tokenId classified) :
    genesisAmount d' tokenId = genesisBooked classified := by
  unfold genesisAmount
  rw [hevents, List.filter_append, List.filter_filter, List.filter_eq_nil_iff.mpr, List.nil_append,
    genesisRows_sum]
  intro e _
  simpa using fun h _ ↦ h

theorem balanceSum_derived {balances : List (OwnerKey × Int × Nat)}
    (hrows : d'.tokenBalances =
      d.tokenBalances.filter (·.tokenId ≠ tokenId) ++ balanceRows tokenId balances)
    (h : ∀ b ∈ balances, Checked.InRange 63 b.2.1) :
    balanceSum d' tokenId = (balances.map (·.2.1)).sum := by
  unfold balanceSum
  rw [hrows, List.filter_append, List.filter_filter, List.filter_eq_nil_iff.mpr (by simp),
    List.nil_append, List.filter_eq_self.mpr, balanceRows_sum tokenId h]
  intro row hrow
  exact decide_eq_true (balanceRows_tokenId hrow)

theorem mem_replaceToken {row new : TokenRow} {rows : List TokenRow}
    (h : row ∈ replaceToken new rows) (hid : row.tokenId = new.tokenId) : row = new := by
  rcases List.mem_append.mp h with hold | hnew
  · exact absurd hid (of_decide_eq_true (List.mem_filter.mp hold).2)
  · exact List.mem_singleton.mp hnew

theorem provenCells_length_le (registry : Registry) (blake2b : Bytes → Bytes) (s : Store)
    (tokenId : CovenantId) :
    (provenCells registry blake2b s tokenId).length ≤ s.covenantUtxos.length := by
  have hrecovered : (provenCells registry blake2b s tokenId).length =
      (proveDirect registry blake2b (loadCells s tokenId)).length :=
    (recoverLoop_recovered s tokenId _ _ _).length_eq.symm
  rw [hrecovered, proveDirect, loadCells, List.length_map, List.length_map,
    List.length_insertionSort]
  exact List.length_filter_le _ _

/-- Fewer than 2^64 amounts do not leave the range. -/
theorem inRange_of_readings {n : Nat} {x : Int} (hn : n ≤ 2 ^ 64) (hx : |x| ≤ n * maxAmount) :
    Checked.InRange 127 x := by
  apply Checked.inRange_of_abs_lt
  apply lt_of_le_of_lt hx
  have hle : (n : Int) * maxAmount ≤ 2 ^ 64 * maxAmount :=
    mul_le_mul_of_nonneg_right (by exact_mod_cast hn) maxAmount_nonneg
  exact lt_of_le_of_lt hle (by decide)

theorem kas_le (h : ∀ row ∈ s.covenantUtxos, row.value < 2 ^ 63) (p : UtxoRow → Bool) :
    (((s.covenantUtxos.filter p).map (·.value)).sum : Nat) ≤
      s.covenantUtxos.length * maxAmount := by
  have hbound : ((s.covenantUtxos.filter p).map fun row ↦ (row.value : Int)).sum ≤
      (s.covenantUtxos.filter p).length * maxAmount := by
    apply Sums.sum_le_length
    intro row hrow
    have hlt := h row (List.mem_of_mem_filter hrow)
    unfold maxAmount
    omega
  have hlen : ((s.covenantUtxos.filter p).length : Int) ≤ s.covenantUtxos.length := by
    exact_mod_cast List.length_filter_le _ _
  rw [Nat.cast_list_sum, List.map_map]
  exact hbound.trans (mul_le_mul_of_nonneg_right hlen maxAmount_nonneg)

theorem sums_fit (registry : Registry) (blake2b : Bytes → Bytes) {events : List (Nat × EventRow)}
    (h : readings (provenCells registry blake2b s tokenId) events + s.covenantUtxos.length ≤
      2 ^ 64) :
    SumsFit s tokenId (provenCells registry blake2b s tokenId) events where
  sides event hevent ins outs hsides i o hi ho := by
    have hread : (insOfTx (provenCells registry blake2b s tokenId) event.2.txid).length +
        (outsOfTx (provenCells registry blake2b s tokenId) event.2.txid).length ≤
          readings (provenCells registry blake2b s tokenId) events :=
      List.single_le_sum (fun _ _ ↦ Nat.zero_le _) _ (List.mem_map_of_mem hevent)
    have hle := hsides.sums_le
    have hi' := sumAmounts_sublist hi hsides.bounded.1
    have ho' := sumAmounts_sublist ho hsides.bounded.2
    have hi0 : 0 ≤ sumAmounts i :=
      sumAmounts_nonneg fun j hj ↦ hsides.bounded.1 j (hi.subset hj)
    have ho0 : 0 ≤ sumAmounts o :=
      sumAmounts_nonneg fun j hj ↦ hsides.bounded.2 j (ho.subset hj)
    apply inRange_of_readings (le_trans hread (by omega))
    exact abs_le.mpr ⟨by omega, by omega⟩
  totals done hdone w hw := by
    have hstart : ({ verdict := (covenantGate s tokenId).1 } : TokenWalk).Within 0 :=
      ⟨le_rfl, le_rfl, le_rfl⟩
    have hwithin := foldlM_walkEvent_within hstart hw
    rw [zero_add] at hwithin
    have hread : readings (provenCells registry blake2b s tokenId) done ≤
        readings (provenCells registry blake2b s tokenId) events :=
      (hdone.sublist.map _).sum_le_sum fun _ _ ↦ Nat.zero_le _
    have hn : readings (provenCells registry blake2b s tokenId) done ≤ 2 ^ 64 := by omega
    exact ⟨inRange_of_readings hn hwithin.supply, inRange_of_readings hn hwithin.minted,
      inRange_of_readings hn hwithin.burned⟩
  frontier part hpart := by
    have hbounded : ∀ j ∈ part, j.Bounded :=
      fun j hj ↦ liveStates_bounded _ j (hpart.subset hj)
    have hlive : (liveStates (provenCells registry blake2b s tokenId)).length ≤
        s.covenantUtxos.length :=
      (List.length_filterMap_le _ _).trans <| (List.length_filter_le _ _).trans <|
        provenCells_length_le registry blake2b s tokenId
    apply inRange_of_readings (le_trans (hpart.length_le.trans hlive) (by omega))
    rw [abs_of_nonneg (sumAmounts_nonneg hbounded)]
    exact sumAmounts_le hbounded
  kas hvalues txid market := by
    have hcreated := kas_le hvalues fun row ↦
      decide (row.outpoint.txid = txid ∧ row.covenantId = market)
    have hconsumed := kas_le hvalues fun row ↦
      decide (row.spentTxid = some txid ∧ row.covenantId = market)
    have hrows : s.covenantUtxos.length ≤ 2 ^ 64 := by omega
    apply inRange_of_readings hrows
    unfold kasCreated kasConsumed
    exact abs_le.mpr ⟨by omega, by omega⟩

/-- A row that carries the totals of a clean walk. -/
structure Stamped (cells : List TokenCell) (w : TokenWalk) (row : TokenRow) : Prop where
  clean : w.verdict.Clean
  frontier : sumAmounts (liveStates cells) = w.supply
  fits : w.supply < 2 ^ 63
  status : row.status = .verified
  supply : row.supply = some w.supply
  minted : row.minted = some w.minted
  burned : row.burned = some w.burned
  heldCovenant : row.heldCovenant = some (heldByTypes (ownerBalances (liveStates cells)) [0x02])
  heldWallet :
    row.heldWallet = some (heldByTypes (ownerBalances (liveStates cells)) [0x00, 0x03])
  heldScript : row.heldScript = some (heldByTypes (ownerBalances (liveStates cells)) [0x01])
  resolved : row.unresolvedCells = 0

theorem derivedRow_cases (s : Store) (tokenId : CovenantId) (cells : List TokenCell)
    {w : TokenWalk} (hclean : w.verdict.Clean → w.allEventsClean = true)
    (market : Option CovenantId) :
    Stamped cells w (derivedRow s tokenId cells w market) ∨
      ((derivedRow s tokenId cells w market).status ≠ .verified ∧
        (derivedRow s tokenId cells w market).supply = none) := by
  have hknown := ownerBalances_nonneg (liveStates_bounded cells)
  unfold derivedRow
  dsimp only
  obtain ⟨hclean, -, hlt, hfrontier, hresolved, hpublish⟩ | ⟨hflagged, hnone⟩ :=
    publishSums_cases (unresolvedCells cells) hclean hknown
  · left
    rw [ownerBalances_sum] at hfrontier
    rw [hpublish]
    exact ⟨hclean, hfrontier, hlt, Verdict.status_verified.mpr hclean, rfl, rfl, rfl, rfl, rfl,
      rfl, hresolved⟩
  · exact .inr ⟨fun hverified ↦ hflagged (Verdict.status_verified.mp hverified), hnone⟩

/-- The balances of a stamped row all fit their column. -/
theorem Stamped.balances_fit {cells : List TokenCell} {w : TokenWalk} {row : TokenRow}
    (h : Stamped cells w row) :
    ∀ b ∈ ownerBalances (liveStates cells), Checked.InRange 63 b.2.1 := by
  intro b hb
  have hknown := ownerBalances_nonneg (liveStates_bounded cells)
  have hle : b.2.1 ≤ ((ownerBalances (liveStates cells)).map fun b ↦ b.2.1).sum :=
    Sums.le_sum_of_mem (fun b hb ↦ (hknown b hb).1) hb
  rw [ownerBalances_sum, h.frontier] at hle
  exact Checked.inRange_of_nonneg (hknown b hb).1 (lt_of_le_of_lt hle h.fits)

/-- The row of a token with evidence. -/
theorem derivedRow_sound (hevidence : hasTokenEvidence s tokenId = true)
    (h : deriveToken registry blake2b builds s d tokenId = .ok d') {row : TokenRow}
    (hrow : row ∈ d'.tokens) (hid : row.tokenId = tokenId) :
    (row.status = .verified ↔ row.supply.isSome = true) ∧
      (row.status = .verified →
        BalancedBooks s d' (provenCells registry blake2b s tokenId) row) := by
  obtain ⟨events, w, hevents, hw, -, -, htokens, hbalances, heventRows⟩ :=
    deriveToken_ok hevidence h
  obtain ⟨hlaw, horphan⟩ := walkToken_law hw
  rw [htokens] at hrow
  have heq := mem_replaceToken hrow hid
  obtain hstamped | ⟨hstatus, hsupply⟩ :=
    derivedRow_cases s tokenId (provenCells registry blake2b s tokenId) hlaw.clean
      (marketLink blake2b builds s (clearTokenRows d tokenId)
        (ownerBalances (liveStates (provenCells registry blake2b s tokenId)))).2
  · rw [← heq] at hstamped
    have hsum : balanceSum d' row.tokenId = w.supply := by
      rw [hid, balanceSum_derived hbalances hstamped.balances_fit, ownerBalances_sum]
      exact hstamped.frontier
    refine ⟨iff_of_true hstamped.status (by rw [hstamped.supply]; rfl), fun _ ↦ ?_⟩
    refine ⟨?_, ?_, ?_, hstamped.resolved, ?_⟩
    · refine ⟨_, _, _, hstamped.supply, hstamped.minted, hstamped.burned, ?_⟩
      rw [hid, genesisAmount_derived heventRows]
      exact hlaw.supply
    · rw [hsum]
      exact hstamped.supply
    · refine ⟨_, _, _, hstamped.heldCovenant, hstamped.heldWallet, hstamped.heldScript, ?_⟩
      rw [heldByTypes_total (ownerBalances_nonneg (liveStates_bounded _)), ownerBalances_sum,
        hstamped.frontier, hsum]
    · intro txid hcells
      obtain ⟨event, hevent, htxid⟩ := event_of_orphanTx (horphan hstamped.clean) hcells
      obtain ⟨ins, outs, hsides, hconserves⟩ := hlaw.conserves hstamped.clean event hevent
      obtain ⟨he, heid, -⟩ := (tokenEventRows_ok hevents).mp hevent
      exact ⟨ins, outs, htxid ▸ hsides, event.2, he, heid.trans hid.symm, htxid, hconserves⟩
  · rw [← heq] at hstatus hsupply
    refine ⟨iff_of_false hstatus ?_, fun hverified ↦ absurd hverified hstatus⟩
    rw [hsupply]
    exact Bool.false_ne_true

/-- A token without evidence has the row of a pinned token, if any. -/
theorem pinnedRow_of_no_evidence (hevidence : hasTokenEvidence s tokenId = false)
    (h : deriveToken registry blake2b builds s d tokenId = .ok d') {row : TokenRow}
    (hrow : row ∈ d'.tokens) (hid : row.tokenId = tokenId) : row = pinnedRow s tokenId := by
  unfold deriveToken at h
  rw [hevidence] at h
  split at h
  · obtain rfl := Except.ok.inj h
    exact absurd hid (of_decide_eq_true (List.mem_filter.mp hrow).2)
  · rw [Bool.not_false, if_pos rfl] at h
    obtain rfl := Except.ok.inj h
    exact mem_replaceToken hrow hid

/-- What the row of a token promises. -/
structure VerdictLaw (registry : Registry) (blake2b : Bytes → Bytes) (s : Store) (d : Derived)
    (tokenId : CovenantId) : Prop where
  stamped : ∀ row ∈ d.tokens, row.tokenId = tokenId →
    (row.status = .verified ↔ row.supply.isSome = true)
  balanced : ∀ row ∈ d.tokens, row.tokenId = tokenId → row.status = .verified →
    BalancedBooks s d (provenCells registry blake2b s tokenId) row
  /-- Fewer than 2^64 numbers are added up. -/
  fits : ∀ events, tokenEventRows s tokenId = .ok events →
    readings (provenCells registry blake2b s tokenId) events + s.covenantUtxos.length ≤ 2 ^ 64 →
      SumsFit s tokenId (provenCells registry blake2b s tokenId) events

/-- **Verdict soundness.**  After a derivation the token is verified exactly when its
supply is stamped, and then its books balance; no sum of the pass wraps. -/
theorem verdict_sound (h : deriveToken registry blake2b builds s d tokenId = .ok d') :
    VerdictLaw registry blake2b s d' tokenId := by
  have hrow : ∀ row ∈ d'.tokens, row.tokenId = tokenId →
      (row.status = .verified ↔ row.supply.isSome = true) ∧ (row.status = .verified →
        BalancedBooks s d' (provenCells registry blake2b s tokenId) row) := by
    intro row hrow hid
    cases hevidence : hasTokenEvidence s tokenId with
    | true => exact derivedRow_sound hevidence h hrow hid
    | false =>
        rw [pinnedRow_of_no_evidence hevidence h hrow hid]
        have hstatus : (pinnedRow s tokenId).status ≠ .verified := by
          intro hverified
          cases hverified
        exact ⟨iff_of_false hstatus Bool.false_ne_true,
          fun hverified ↦ absurd hverified hstatus⟩
  exact ⟨fun row hmem hid ↦ (hrow row hmem hid).1, fun row hmem hid ↦ (hrow row hmem hid).2,
    fun _ _ hread ↦ sums_fit registry blake2b hread⟩

end Row

/-! ## A genesis -/

/-- A token of five, created at its genesis. -/
def genesisHistory : Store :=
  { Store.fresh ⟨1⟩ with
    covenants := [⟨⟨9⟩, some ⟨5⟩, some 5, true, 1, 5⟩]
    covenantEvents :=
      [{ covenantId := ⟨9⟩
         seq := 0
         kind := .genesis
         txid := ⟨5⟩
         acceptingBlock := ⟨1⟩
         acceptingDaa := 5
         payload := none
         laneNamespace := none
         payloadTag := none
         inscriptionKind := none
         txIndex := none
         acceptingTimeMs := none
         acceptingBlueScore := none
         eventIndex := none
         deliveryStreamSeq := none }]
    covenantUtxos := [stateCell ⟨5⟩ 0x00 ⟨[5, 0, 0, 0, 0, 0, 0, 0], rfl⟩ none] }

def genesisDerived : Result Derived :=
  deriveToken sampleRegistry (fun b ↦ b.take 32) ⟨[], [], [], [], [], [], [], []⟩
    genesisHistory {} ⟨9⟩

theorem verdict_sound_genesis : ∃ d, genesisDerived = .ok d ∧
    (d.tokens.map fun row ↦ (row.status, row.supply)) = [(.verified, some 5)] ∧
      VerdictLaw sampleRegistry (fun b ↦ b.take 32) genesisHistory d ⟨9⟩ := by
  have hrow : (genesisDerived.map fun d ↦ d.tokens.map fun row ↦ (row.status, row.supply)) =
      .ok [(.verified, some 5)] := by
    decide +kernel
  obtain ⟨d, hd, htokens⟩ := map_eq_ok.mp hrow
  exact ⟨d, hd, htokens, verdict_sound hd⟩

/-- The genesis of a verified token creates an amount that no input held. -/
theorem genesis_creates :
    (genesisDerived.map fun d ↦ d.tokens.map fun row ↦ (row.status, row.burned)) =
        .ok [(.verified, some 0)] ∧
      ∃ ins outs, JudgedSides (provenCells sampleRegistry (fun b ↦ b.take 32) genesisHistory ⟨9⟩)
          ⟨5⟩ ins outs ∧
        ins.any (·.minter) = false ∧
        sumAmounts outs ≠ sumAmounts ins - bookedBurn ins outs := by
  refine ⟨by decide +kernel, [], [⟨5, false, ⟨0x00, sampleOwner⟩⟩],
    ⟨by decide +kernel, by decide +kernel⟩, rfl, ?_⟩
  decide

end Kascov
