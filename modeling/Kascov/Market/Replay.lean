import Kascov.Market.Curve
import Mathlib.Algebra.Order.Field.Rat

/-!
# The replay gates in machine arithmetic

`bracket_holds` and `invariant_holds` mix checked products with plain `i128`
operations.  Here every plain operation is traced, and a run in which one
overflows has no result.  For inputs that come from `i64` columns every run has
one, and it is `true` just when the exact inequalities hold and no product
leaves the machine's range.
-/

namespace Kascov

/-! ## The operations, traced -/

/-- `bracket_holds`, operation by operation: `none` if an unchecked one
overflows. -/
def bracketHoldsI128 (v k0 k1 b0 b1 quote base : Int) (isBuy : Bool) (feeInBps : Int) :
    Option Bool :=
  if base ≤ 0 ∨ quote ≤ 0 ∨ b0 ≤ 0 ∨ b1 ≤ 0 then some false
  else do
    let fee ← Checked.mul 127 quote feeInBps
    let q ← Checked.add 127 kasQuantumSompi (fee.tdiv 10000)
    let lower ← Checked.add 127 v (if isBuy then k0 else k1)
    let loNum ← Checked.sub 127 lower q
    let loDen := if isBuy then b0 else b1
    let upper ← Checked.add 127 v (if isBuy then k1 else k0)
    let hiNum ← Checked.add 127 upper q
    let hiDen := if isBuy then b1 else b0
    match Checked.mul 127 loNum base, Checked.mul 127 quote loDen, Checked.mul 127 hiNum base with
    | some lo, some px, some hi =>
      if px < lo then some false
      else
        match Checked.mul 127 quote hiDen with
        | some pxHi => some (pxHi ≤ hi)
        | none => some false
    | _, _, _ => some false

/-- `invariant_holds`, operation by operation. -/
def invariantHoldsI128 (v k0 k1 b0 b1 quote feeInBps : Int) : Option Bool := do
  let held0 ← Checked.add 127 v k0
  let held1 ← Checked.add 127 v k1
  match Checked.mul 127 held0 b0, Checked.mul 127 held1 b1 with
  | some before, some after =>
    if after < before then some false
    else
      match Checked.sub 127 after before with
      | none => some false
      | some growth =>
        if feeInBps = 0 then
          match Checked.mul 127 growth 1000000, Checked.mul 127 before invariantMaxGrowthPpm with
          | some g, some cap => some (g ≤ cap)
          | _, _ => some false
        else do
          let fee ← Checked.mul 127 quote feeInBps
          let fee ← Checked.add 127 (fee.tdiv 10000) kasQuantumSompi
          match Checked.mul 127 fee (max b0 b1) with
          | some cap => some (growth ≤ cap)
          | none => some false
  | _, _ => some false

/-! ## No plain operation overflows -/

/-- The fee term of a quote. -/
theorem abs_fee_le {quote feeInBps : Int} (hquote : Checked.InRange 63 quote)
    (hfee : Checked.InRange 63 feeInBps) :
    |quote * feeInBps| ≤ 2 ^ 126 ∧ |(quote * feeInBps).tdiv 10000| ≤ 2 ^ 113 := by
  have hmul : |quote * feeInBps| ≤ 2 ^ 126 :=
    (Checked.abs_mul_le hquote.abs_le hfee.abs_le).trans (by norm_num)
  exact ⟨hmul, Checked.abs_tdiv_le (by norm_num) (hmul.trans (by norm_num))⟩

section Traced

variable {v k0 k1 b0 b1 quote base feeInBps : Int}

/-- Sums of a few small terms are in range. -/
theorem add_eq_some {a b A B : Int} (ha : |a| ≤ A) (hb : |b| ≤ B) (h : A + B < 2 ^ 127) :
    Checked.add 127 a b = some (a + b) :=
  Checked.narrow_of_inRange
    (Checked.inRange_of_abs_lt (((abs_add_le a b).trans (add_le_add ha hb)).trans_lt h))

theorem sub_eq_some {a b A B : Int} (ha : |a| ≤ A) (hb : |b| ≤ B) (h : A + B < 2 ^ 127) :
    Checked.sub 127 a b = some (a - b) :=
  Checked.narrow_of_inRange
    (Checked.inRange_of_abs_lt (((abs_sub a b).trans (add_le_add ha hb)).trans_lt h))

/-- What a run of `bracket_holds` does once its sums are formed. -/
theorem bracket_tail (lo px hi pxHi : Option Int) :
    (match lo, px, hi with
      | some lo, some px, some hi =>
        if px < lo then some false
        else
          match pxHi with
          | some pxHi => some (decide (pxHi ≤ hi))
          | none => some false
      | _, _, _ => some false) =
      some (match lo, px, hi with
        | some lo, some px, some hi =>
          if px < lo then false
          else
            match pxHi with
            | some pxHi => decide (pxHi ≤ hi)
            | none => false
        | _, _, _ => false) := by
  cases lo with
  | none => rfl
  | some lo =>
      cases px with
      | none => rfl
      | some px =>
          cases hi with
          | none => rfl
          | some hi =>
              dsimp only
              by_cases h : px < lo
              · rw [if_pos h, if_pos h]
              · rw [if_neg h, if_neg h]
                cases pxHi <;> rfl

theorem bracketHoldsI128_eq (isBuy : Bool) (hv : Checked.InRange 83 v)
    (hk0 : Checked.InRange 63 k0) (hk1 : Checked.InRange 63 k1)
    (hquote : Checked.InRange 63 quote) (hfee : Checked.InRange 63 feeInBps) :
    bracketHoldsI128 v k0 k1 b0 b1 quote base isBuy feeInBps =
      some (bracketHolds v k0 k1 b0 b1 quote base isBuy feeInBps) := by
  obtain ⟨hmul, hterm⟩ := abs_fee_le hquote hfee
  have hquantum : |kasQuantumSompi| ≤ 2 ^ 20 := by decide
  have hq : |kasQuantumSompi + (quote * feeInBps).tdiv 10000| ≤ 2 ^ 114 :=
    (abs_add_le _ _).trans ((add_le_add hquantum hterm).trans (by norm_num))
  have hheld : ∀ k, Checked.InRange 63 k → |v + k| ≤ 2 ^ 84 := fun k hk ↦
    (abs_add_le _ _).trans ((add_le_add hv.abs_le hk.abs_le).trans (by norm_num))
  have hside : ∀ {a b : Int}, Checked.InRange 63 a → Checked.InRange 63 b →
      Checked.InRange 63 (if isBuy then a else b) := by
    intro a b ha hb
    cases isBuy
    · exact hb
    · exact ha
  unfold bracketHoldsI128 bracketHolds
  by_cases hpos : base ≤ 0 ∨ quote ≤ 0 ∨ b0 ≤ 0 ∨ b1 ≤ 0
  · rw [if_pos hpos, if_pos hpos]
  · rw [if_neg hpos, if_neg hpos]
    have hlower := hside hk0 hk1
    have hupper := hside hk1 hk0
    rw [Checked.mul, Checked.narrow_of_inRange (Checked.inRange_of_abs_lt
      (hmul.trans_lt (by norm_num)))]
    simp only [Option.bind_eq_bind, Option.bind_some]
    rw [add_eq_some hquantum hterm (by norm_num)]
    simp only [Option.bind_some]
    rw [add_eq_some hv.abs_le hlower.abs_le (by norm_num)]
    simp only [Option.bind_some]
    rw [sub_eq_some (hheld _ hlower) hq (by norm_num)]
    simp only [Option.bind_some]
    rw [add_eq_some hv.abs_le hupper.abs_le (by norm_num)]
    simp only [Option.bind_some]
    rw [add_eq_some (hheld _ hupper) hq (by norm_num)]
    simp only [Option.bind_some]
    refine (bracket_tail _ _ _ _).trans ?_
    cases isBuy <;> rfl

/-- What a run of `invariant_holds` does once its sums are formed. -/
theorem invariantHoldsI128_eq (hv : Checked.InRange 83 v) (hk0 : Checked.InRange 63 k0)
    (hk1 : Checked.InRange 63 k1) (hquote : Checked.InRange 63 quote)
    (hfee : Checked.InRange 63 feeInBps) :
    invariantHoldsI128 v k0 k1 b0 b1 quote feeInBps =
      some (invariantHolds v k0 k1 b0 b1 quote feeInBps) := by
  obtain ⟨hmul, hterm⟩ := abs_fee_le hquote hfee
  have hquantum : |kasQuantumSompi| ≤ 2 ^ 20 := by decide
  unfold invariantHoldsI128 invariantHolds
  rw [add_eq_some hv.abs_le hk0.abs_le (by norm_num)]
  simp only [Option.bind_eq_bind, Option.bind_some]
  rw [add_eq_some hv.abs_le hk1.abs_le (by norm_num)]
  simp only [Option.bind_some]
  cases Checked.mul 127 (v + k0) b0 with
  | none => rfl
  | some before =>
      cases Checked.mul 127 (v + k1) b1 with
      | none => rfl
      | some after =>
          dsimp only
          by_cases hshrinks : after < before
          · rw [if_pos hshrinks, if_pos hshrinks]
          · rw [if_neg hshrinks, if_neg hshrinks]
            cases Checked.sub 127 after before with
            | none => rfl
            | some growth =>
                dsimp only
                by_cases hzero : feeInBps = 0
                · rw [if_pos hzero, if_pos hzero]
                  cases Checked.mul 127 growth 1000000 with
                  | none => rfl
                  | some g => cases Checked.mul 127 before invariantMaxGrowthPpm <;> rfl
                · rw [if_neg hzero, if_neg hzero]
                  have hproduct : Checked.mul 127 quote feeInBps = some (quote * feeInBps) :=
                    Checked.narrow_of_inRange
                      (Checked.inRange_of_abs_lt (hmul.trans_lt (by norm_num)))
                  rw [hproduct]
                  simp only [Option.bind_some]
                  rw [add_eq_some hterm hquantum (by norm_num)]
                  simp only [Option.bind_some]
                  cases Checked.mul 127 ((quote * feeInBps).tdiv 10000 + kasQuantumSompi)
                    (max b0 b1) <;> rfl

end Traced

/-! ## The exact inequalities -/

/-- The slack of the bracket: one quantum, and the fee the build declares. -/
def bracketSlack (quote feeInBps : Int) : Int :=
  kasQuantumSompi + (quote * feeInBps).tdiv 10000

/-- The executed price lies between the marginal prices on the two sides of the
trade, as rational numbers. -/
structure PriceInBracket (v kLo kHi bLo bHi quote base feeInBps : Int) : Prop where
  base_pos : 0 < base
  quote_pos : 0 < quote
  bLo_pos : 0 < bLo
  bHi_pos : 0 < bHi
  lower : ((v + kLo - bracketSlack quote feeInBps : Int) : ℚ) / bLo ≤ quote / base
  upper : (quote : ℚ) / base ≤ ((v + kHi + bracketSlack quote feeInBps : Int) : ℚ) / bHi

/-- The products of the bracket fit the machine's integers. -/
structure BracketFits (v kLo kHi bLo bHi quote base feeInBps : Int) : Prop where
  lo : Checked.InRange 127 ((v + kLo - bracketSlack quote feeInBps) * base)
  px : Checked.InRange 127 (quote * bLo)
  hi : Checked.InRange 127 ((v + kHi + bracketSlack quote feeInBps) * base)
  pxHi : Checked.InRange 127 (quote * bHi)

/-- The product of the reserves grows, within the cap of the build. -/
structure ProductKept (v k0 k1 b0 b1 quote feeInBps : Int) : Prop where
  grows : ((v + k0 : Int) : ℚ) * b0 ≤ ((v + k1 : Int) : ℚ) * b1
  capped : ((v + k1 : Int) : ℚ) * b1 - ((v + k0 : Int) : ℚ) * b0 ≤
    if feeInBps = 0 then ((v + k0 : Int) : ℚ) * b0 * (invariantMaxGrowthPpm / 1000000)
    else (bracketSlack quote feeInBps : ℚ) * max b0 b1

/-- The products of the replay fit. -/
structure ProductFits (v k0 k1 b0 b1 quote feeInBps : Int) : Prop where
  before : Checked.InRange 127 ((v + k0) * b0)
  after : Checked.InRange 127 ((v + k1) * b1)
  capped : if feeInBps = 0 then
      Checked.InRange 127 (((v + k1) * b1 - (v + k0) * b0) * 1000000) ∧
        Checked.InRange 127 ((v + k0) * b0 * invariantMaxGrowthPpm)
    else Checked.InRange 127 (bracketSlack quote feeInBps * max b0 b1)

/-- Fractions with positive denominators compare as their cross products. -/
theorem div_le_div_iff_int {a b c d : Int} (hb : 0 < b) (hd : 0 < d) :
    (a : ℚ) / b ≤ c / d ↔ a * d ≤ c * b := by
  rw [div_le_div_iff₀ (by exact_mod_cast hb) (by exact_mod_cast hd)]
  exact_mod_cast Iff.rfl

theorem checked_mul_none {a b : Int} (h : ¬Checked.InRange 127 (a * b)) :
    Checked.mul 127 a b = none :=
  if_neg h

theorem checked_mul_some {a b : Int} (h : Checked.InRange 127 (a * b)) :
    Checked.mul 127 a b = some (a * b) :=
  if_pos h

/-- A sell is judged as the buy back. -/
theorem bracketHolds_sell (v k0 k1 b0 b1 quote base feeInBps : Int) :
    bracketHolds v k0 k1 b0 b1 quote base false feeInBps =
      bracketHolds v k1 k0 b1 b0 quote base true feeInBps := by
  have hguard : (base ≤ 0 ∨ quote ≤ 0 ∨ b0 ≤ 0 ∨ b1 ≤ 0) ↔
      (base ≤ 0 ∨ quote ≤ 0 ∨ b1 ≤ 0 ∨ b0 ≤ 0) :=
    or_congr_right (or_congr_right or_comm)
  unfold bracketHolds
  rw [if_congr hguard rfl rfl]
  rfl

theorem bracketHolds_buy_exact (v k0 k1 b0 b1 quote base feeInBps : Int) :
    bracketHolds v k0 k1 b0 b1 quote base true feeInBps = true ↔
      BracketFits v k0 k1 b0 b1 quote base feeInBps ∧
        PriceInBracket v k0 k1 b0 b1 quote base feeInBps := by
  unfold bracketHolds
  by_cases hpos : base ≤ 0 ∨ quote ≤ 0 ∨ b0 ≤ 0 ∨ b1 ≤ 0
  · rw [if_pos hpos]
    refine ⟨(nomatch ·), ?_⟩
    rintro ⟨-, h⟩
    have h1 := h.base_pos
    have h2 := h.quote_pos
    have h3 := h.bLo_pos
    have h4 := h.bHi_pos
    omega
  · rw [if_neg hpos]
    obtain ⟨hbase, hquote, hb0, hb1⟩ : 0 < base ∧ 0 < quote ∧ 0 < b0 ∧ 0 < b1 := by omega
    simp only [if_true]
    rw [← bracketSlack]
    by_cases hlo : Checked.InRange 127 ((v + k0 - bracketSlack quote feeInBps) * base)
    · by_cases hpx : Checked.InRange 127 (quote * b0)
      · by_cases hhi : Checked.InRange 127 ((v + k1 + bracketSlack quote feeInBps) * base)
        · rw [checked_mul_some hlo, checked_mul_some hpx, checked_mul_some hhi]
          dsimp only
          by_cases hbelow : quote * b0 < (v + k0 - bracketSlack quote feeInBps) * base
          · rw [if_pos hbelow]
            refine ⟨(nomatch ·), ?_⟩
            rintro ⟨-, h⟩
            exact absurd ((div_le_div_iff_int hb0 hbase).mp h.lower) (not_le.mpr hbelow)
          · rw [if_neg hbelow]
            by_cases hpxHi : Checked.InRange 127 (quote * b1)
            · rw [checked_mul_some hpxHi, decide_eq_true_eq]
              constructor
              · intro h
                exact ⟨⟨hlo, hpx, hhi, hpxHi⟩, hbase, hquote, hb0, hb1,
                  (div_le_div_iff_int hb0 hbase).mpr (not_lt.mp hbelow),
                  (div_le_div_iff_int hbase hb1).mpr h⟩
              · rintro ⟨-, h⟩
                exact (div_le_div_iff_int hbase hb1).mp h.upper
            · rw [checked_mul_none hpxHi]
              exact ⟨(nomatch ·), fun h ↦ absurd h.1.pxHi hpxHi⟩
        · rw [checked_mul_none hhi, checked_mul_some hlo, checked_mul_some hpx]
          exact ⟨(nomatch ·), fun h ↦ absurd h.1.hi hhi⟩
      · rw [checked_mul_none hpx, checked_mul_some hlo]
        exact ⟨(nomatch ·), fun h ↦ absurd h.1.px hpx⟩
    · rw [checked_mul_none hlo]
      exact ⟨(nomatch ·), fun h ↦ absurd h.1.lo hlo⟩

/-- **The bracket is exact.** -/
theorem bracketHolds_iff (v k0 k1 b0 b1 quote base : Int) (isBuy : Bool) (feeInBps : Int) :
    bracketHolds v k0 k1 b0 b1 quote base isBuy feeInBps = true ↔
      BracketFits v (if isBuy then k0 else k1) (if isBuy then k1 else k0)
          (if isBuy then b0 else b1) (if isBuy then b1 else b0) quote base feeInBps ∧
        PriceInBracket v (if isBuy then k0 else k1) (if isBuy then k1 else k0)
          (if isBuy then b0 else b1) (if isBuy then b1 else b0) quote base feeInBps := by
  cases isBuy with
  | false =>
      rw [bracketHolds_sell]
      exact bracketHolds_buy_exact v k1 k0 b1 b0 quote base feeInBps
  | true => exact bracketHolds_buy_exact v k0 k1 b0 b1 quote base feeInBps

/-- What the cap on the growth comes to in integers. -/
theorem productKept_iff {v k0 k1 b0 b1 quote feeInBps : Int} :
    ProductKept v k0 k1 b0 b1 quote feeInBps ↔
      (v + k0) * b0 ≤ (v + k1) * b1 ∧
        if feeInBps = 0 then
          ((v + k1) * b1 - (v + k0) * b0) * 1000000 ≤ (v + k0) * b0 * invariantMaxGrowthPpm
        else (v + k1) * b1 - (v + k0) * b0 ≤ bracketSlack quote feeInBps * max b0 b1 := by
  have hgrows : ((v + k0 : Int) : ℚ) * b0 ≤ ((v + k1 : Int) : ℚ) * b1 ↔
      (v + k0) * b0 ≤ (v + k1) * b1 := by exact_mod_cast Iff.rfl
  have hppm : ((v + k1 : Int) : ℚ) * b1 - ((v + k0 : Int) : ℚ) * b0 ≤
      ((v + k0 : Int) : ℚ) * b0 * (invariantMaxGrowthPpm / 1000000) ↔
      ((v + k1) * b1 - (v + k0) * b0) * 1000000 ≤ (v + k0) * b0 * invariantMaxGrowthPpm := by
    rw [← mul_div_assoc, le_div_iff₀ (by norm_num)]
    exact_mod_cast Iff.rfl
  have hfee : ((v + k1 : Int) : ℚ) * b1 - ((v + k0 : Int) : ℚ) * b0 ≤
      (bracketSlack quote feeInBps : ℚ) * max b0 b1 ↔
      (v + k1) * b1 - (v + k0) * b0 ≤ bracketSlack quote feeInBps * max b0 b1 := by
    exact_mod_cast Iff.rfl
  constructor
  · rintro ⟨h, hcap⟩
    refine ⟨hgrows.mp h, ?_⟩
    by_cases hzero : feeInBps = 0
    · rw [if_pos hzero] at hcap ⊢
      exact hppm.mp hcap
    · rw [if_neg hzero] at hcap ⊢
      exact hfee.mp hcap
  · rintro ⟨h, hcap⟩
    refine ⟨hgrows.mpr h, ?_⟩
    by_cases hzero : feeInBps = 0
    · rw [if_pos hzero] at hcap ⊢
      exact hppm.mpr hcap
    · rw [if_neg hzero] at hcap ⊢
      exact hfee.mpr hcap

/-- **The replay is exact.** -/
theorem invariantHolds_iff (v k0 k1 b0 b1 quote feeInBps : Int) :
    invariantHolds v k0 k1 b0 b1 quote feeInBps = true ↔
      ProductFits v k0 k1 b0 b1 quote feeInBps ∧
        ProductKept v k0 k1 b0 b1 quote feeInBps := by
  rw [productKept_iff]
  unfold invariantHolds
  by_cases hbefore : Checked.InRange 127 ((v + k0) * b0)
  · by_cases hafter : Checked.InRange 127 ((v + k1) * b1)
    · rw [checked_mul_some hbefore, checked_mul_some hafter]
      dsimp only
      by_cases hshrinks : (v + k1) * b1 < (v + k0) * b0
      · rw [if_pos hshrinks]
        exact ⟨fun h ↦ absurd h Bool.false_ne_true, fun h ↦ absurd h.2.1 (not_le.mpr hshrinks)⟩
      · rw [if_neg hshrinks]
        have hgrows := not_lt.mp hshrinks
        by_cases hgrowth : Checked.InRange 127 ((v + k1) * b1 - (v + k0) * b0)
        · rw [Checked.sub, Checked.narrow_of_inRange hgrowth]
          dsimp only
          by_cases hzero : feeInBps = 0
          · rw [if_pos hzero, if_pos hzero]
            by_cases hg : Checked.InRange 127 (((v + k1) * b1 - (v + k0) * b0) * 1000000)
            · by_cases hcap : Checked.InRange 127 ((v + k0) * b0 * invariantMaxGrowthPpm)
              · rw [checked_mul_some hg, checked_mul_some hcap, decide_eq_true_eq]
                refine ⟨fun h ↦ ⟨⟨hbefore, hafter, ?_⟩, hgrows, h⟩, fun h ↦ h.2.2⟩
                rw [if_pos hzero]
                exact ⟨hg, hcap⟩
              · rw [checked_mul_none hcap, checked_mul_some hg]
                refine ⟨fun h ↦ absurd h Bool.false_ne_true, fun h ↦ ?_⟩
                have hfits := h.1.capped
                rw [if_pos hzero] at hfits
                exact absurd hfits.2 hcap
            · rw [checked_mul_none hg]
              refine ⟨fun h ↦ absurd h Bool.false_ne_true, fun h ↦ ?_⟩
              have hfits := h.1.capped
              rw [if_pos hzero] at hfits
              exact absurd hfits.1 hg
          · rw [if_neg hzero, if_neg hzero, add_comm, ← bracketSlack]
            by_cases hcap : Checked.InRange 127 (bracketSlack quote feeInBps * max b0 b1)
            · rw [checked_mul_some hcap, decide_eq_true_eq]
              refine ⟨fun h ↦ ⟨⟨hbefore, hafter, ?_⟩, hgrows, h⟩, fun h ↦ h.2.2⟩
              rw [if_neg hzero]
              exact hcap
            · rw [checked_mul_none hcap]
              refine ⟨fun h ↦ absurd h Bool.false_ne_true, fun h ↦ ?_⟩
              have hfits := h.1.capped
              rw [if_neg hzero] at hfits
              exact absurd hfits hcap
        · -- a growth out of range is above every cap that fits
          rw [Checked.sub, Checked.narrow, if_neg hgrowth]
          refine ⟨fun h ↦ absurd h Bool.false_ne_true, fun h ↦ absurd ?_ hgrowth⟩
          obtain ⟨hfits, -, hcap⟩ := h
          have hcapped := hfits.capped
          refine Checked.inRange_of_nonneg (sub_nonneg.mpr hgrows) ?_
          by_cases hzero : feeInBps = 0
          · rw [if_pos hzero] at hcapped
            have hlt := hcapped.1.2
            omega
          · rw [if_neg hzero] at hcapped hcap
            exact hcap.trans_lt hcapped.2
    · rw [checked_mul_none hafter]
      refine ⟨fun h ↦ absurd h ?_, fun h ↦ absurd h.1.after hafter⟩
      cases Checked.mul 127 (v + k0) b0 <;> exact Bool.false_ne_true
  · rw [checked_mul_none hbefore]
    exact ⟨fun h ↦ absurd h Bool.false_ne_true, fun h ↦ absurd h.1.before hbefore⟩

/-- **The replay gates in machine arithmetic.**  For inputs from `i64` columns, with
the virtual reserve scaled to sompi, no unchecked operation overflows, and a
gate passes just when its inequalities hold and its products fit. -/
theorem replay_gates_exact {v k0 k1 b0 b1 quote base feeInBps : Int} (isBuy : Bool)
    (hv : Checked.InRange 83 v) (hk0 : Checked.InRange 63 k0) (hk1 : Checked.InRange 63 k1)
    (hquote : Checked.InRange 63 quote) (hfee : Checked.InRange 63 feeInBps) :
    (∃ held, bracketHoldsI128 v k0 k1 b0 b1 quote base isBuy feeInBps = some held ∧
      (held = true ↔
        BracketFits v (if isBuy then k0 else k1) (if isBuy then k1 else k0)
            (if isBuy then b0 else b1) (if isBuy then b1 else b0) quote base feeInBps ∧
          PriceInBracket v (if isBuy then k0 else k1) (if isBuy then k1 else k0)
            (if isBuy then b0 else b1) (if isBuy then b1 else b0) quote base feeInBps)) ∧
      ∃ held, invariantHoldsI128 v k0 k1 b0 b1 quote feeInBps = some held ∧
        (held = true ↔ ProductFits v k0 k1 b0 b1 quote feeInBps ∧
          ProductKept v k0 k1 b0 b1 quote feeInBps) :=
  ⟨⟨_, bracketHoldsI128_eq isBuy hv hk0 hk1 hquote hfee, bracketHolds_iff ..⟩,
    _, invariantHoldsI128_eq hv hk0 hk1 hquote hfee, invariantHolds_iff ..⟩

/-- The first trade of the sample curve. -/
theorem replay_gates_exact_sample :
    (∃ held, bracketHoldsI128 6250000000000 0 6250000000000 1000 500 6250000000000 500 true 0 =
        some held ∧ (held = true ↔
          BracketFits 6250000000000 0 6250000000000 1000 500 6250000000000 500 0 ∧
            PriceInBracket 6250000000000 0 6250000000000 1000 500 6250000000000 500 0)) ∧
      ∃ held, invariantHoldsI128 6250000000000 0 6250000000000 1000 500 6250000000000 0 =
          some held ∧
        (held = true ↔ ProductFits 6250000000000 0 6250000000000 1000 500 6250000000000 0 ∧
          ProductKept 6250000000000 0 6250000000000 1000 500 6250000000000 0) :=
  replay_gates_exact true (by decide) (by decide) (by decide) (by decide) (by decide)

/-- A product that leaves `i128` fails the replay. -/
example : invariantHoldsI128 (2 ^ 82) 0 0 (2 ^ 62) (2 ^ 62) 1 0 = some false := by decide

end Kascov
