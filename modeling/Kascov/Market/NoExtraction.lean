import Kascov.Lib.Fallible
import Kascov.Market.Quote
import Mathlib.Order.Bounds.Basic

/-!
# What a quote may take

A quote takes the most that leaves the product of the two reserves as it was.  The product
is taken over the virtual reserve too, which the curve never holds, so the most a sell may
take can be more than the curve has; a sell that asks for no more than that is safe.  No
sequence of quotes shrinks the product, so none that returns to a token reserve has taken
KAS from the curve.
-/

namespace Kascov.Quote

open Fallible

/-! ## The laws -/

/-- `(V + k) * b`. -/
def product (s : CurveState) : Int := (vSompi + s.value) * s.reserve

/-- What a buy may take: what leaves the product and neither side of the curve empty. -/
def BuyAllowed (s : CurveState) (kasIn tokenOut : Int) : Prop :=
  product s ≤ product ⟨s.reserve - tokenOut, s.value + kasIn⟩ ∧ 0 < s.reserve - tokenOut ∧
    0 ≤ s.value + kasIn

/-- What a sell may take. -/
def SellAllowed (s : CurveState) (tokenIn kasOut : Int) : Prop :=
  product s ≤ product ⟨s.reserve + tokenIn, s.value - kasOut⟩ ∧ 0 < s.reserve + tokenIn ∧
    0 ≤ s.value - kasOut

/-- A quoted buy is safe, and no larger one is. -/
def BuyLaw (s : CurveState) (kasIn : Int) (q : BuyQuote) : Prop :=
  product s ≤ product ⟨q.newReserve, q.curveValueAfter⟩ ∧ 0 < q.newReserve ∧
    0 ≤ q.curveValueAfter ∧ IsGreatest {t | BuyAllowed s kasIn t} q.tokenOut

/-- A quoted sell is safe, and no larger one of whole steps is. -/
def SellLaw (s : CurveState) (tokenIn : Int) (q : SellQuote) : Prop :=
  product s ≤ product ⟨q.newReserve, q.curveValueAfter⟩ ∧ 0 < q.newReserve ∧
    0 ≤ q.curveValueAfter ∧ IsGreatest {m | scale ∣ m ∧ SellAllowed s tokenIn m} q.kasOut

/-- The curve holds what the sell takes. -/
def SellCovered (s : CurveState) (tokenIn : Int) : Prop :=
  (vSompi - scale + s.value % scale) * (s.reserve + tokenIn) < product s

instance (s : CurveState) (tokenIn : Int) : Decidable (SellCovered s tokenIn) :=
  inferInstanceAs (Decidable (_ < _))

inductive Trade where
  | buy (kasIn : Int)
  | sell (tokenIn : Int)
deriving DecidableEq

/-- The curve after a quoted trade. -/
def trade (s : CurveState) : Trade → Except String CurveState
  | .buy kasIn => (quoteBuy s kasIn).map fun q ↦ ⟨q.newReserve, q.curveValueAfter⟩
  | .sell tokenIn => (quoteSell s tokenIn).map fun q ↦ ⟨q.newReserve, q.curveValueAfter⟩

/-! ## One quote -/

/-- A ceiling is below what times the divisor covers the dividend. -/
theorem ceilDiv_le_iff {a b c : Int} (ha : 0 ≤ a) (hb : 0 < b) :
    ceilDiv a b ≤ c ↔ a ≤ c * b := by
  obtain ⟨hle, hlt⟩ := ceilDiv_spec ha hb
  constructor
  · intro h
    exact hle.trans (mul_le_mul_of_nonneg_right h hb.le)
  · intro h
    have hstep : ceilDiv a b * b < (c + 1) * b := by
      rw [add_mul, one_mul]
      omega
    exact Int.lt_add_one_iff.mp (lt_of_mul_lt_mul_right hstep hb.le)

/-- The floor to whole steps is the greatest number of whole steps. -/
theorem floor_scale {x m : Int} (hx : 0 ≤ x) (hm : scale ∣ m) :
    m ≤ x.tdiv scale * scale ↔ m ≤ x := by
  have hscale : scale = 1000000 := rfl
  obtain ⟨n, rfl⟩ := hm
  rw [Int.tdiv_eq_ediv_of_nonneg hx, hscale]
  omega

variable {s : CurveState}

theorem product_nonneg (hres : 0 < s.reserve) (hvalue : 0 < vSompi + s.value) : 0 ≤ product s :=
  (mul_pos hvalue hres).le

/-- A buy takes what leaves the product, and no more. -/
theorem buy_greatest {kasIn : Int} {q : BuyQuote} (hvalue : 0 < vSompi + s.value)
    (h : quoteBuy s kasIn = .ok q) (t : Int) :
    t ≤ q.tokenOut ↔ product s ≤ product ⟨s.reserve - t, s.value + kasIn⟩ := by
  obtain ⟨hkas, hres, hnew, hout, -, -⟩ := quoteBuy_ok h
  have hdiv := ceilDiv_le_iff (c := s.reserve - t) (product_nonneg hres hvalue)
    (by omega : 0 < vSompi + (s.value + kasIn))
  rw [product, ← hnew] at hdiv
  rw [hout, product, product, mul_comm _ (s.reserve - t), ← hdiv]
  omega

/-- A sell takes whole steps that leave the product, and no more of them. -/
theorem sell_greatest {tokenIn : Int} {q : SellQuote} (hvalue : 0 < vSompi + s.value)
    (h : quoteSell s tokenIn = .ok q) {m : Int} (hm : scale ∣ m) :
    m ≤ q.kasOut ↔ product s ≤ product ⟨s.reserve + tokenIn, s.value - m⟩ := by
  obtain ⟨htok, hres, hnew, hmax, hkas, -, -⟩ := quoteSell_ok h
  have hdiv := ceilDiv_le_iff (c := vSompi + (s.value - m)) (product_nonneg hres hvalue)
    (by omega : 0 < s.reserve + tokenIn)
  rw [hkas, floor_scale hmax.le hm, hnew]
  rw [product] at hdiv
  rw [product, product, ← hdiv]
  omega

theorem scale_dvd_kasOut {tokenIn : Int} {q : SellQuote} (h : quoteSell s tokenIn = .ok q) :
    scale ∣ q.kasOut := by
  obtain ⟨-, -, -, -, hkas, -, -⟩ := quoteSell_ok h
  rw [hkas]
  exact dvd_mul_left _ _

/-- No quote shrinks the product, and none empties the token side. -/
theorem trade_grows {t : Trade} {s' : CurveState} (hres : 0 < s.reserve)
    (hvalue : 0 < vSompi + s.value) (h : trade s t = .ok s') :
    product s ≤ product s' ∧ 0 < s'.reserve ∧ 0 < vSompi + s'.value := by
  have hpos : 0 < product s := mul_pos hvalue hres
  cases t with
  | buy kasIn =>
      obtain ⟨q, hq, rfl⟩ := map_eq_ok.mp h
      obtain ⟨hkas, -, hnew, hout, -, hafter⟩ := quoteBuy_ok hq
      have hgrow := (buy_greatest hvalue hq q.tokenOut).mp le_rfl
      have hkept : s.reserve - q.tokenOut = q.newReserve := by
        omega
      rw [hkept, ← hafter] at hgrow
      have hside : 0 < vSompi + q.curveValueAfter := by
        omega
      exact ⟨hgrow, pos_of_mul_pos_right (hpos.trans_le hgrow) hside.le, hside⟩
  | sell tokenIn =>
      obtain ⟨q, hq, rfl⟩ := map_eq_ok.mp h
      obtain ⟨htok, -, hnew, -, -, -, hafter⟩ := quoteSell_ok hq
      have hgrow := (sell_greatest hvalue hq (scale_dvd_kasOut hq)).mp le_rfl
      rw [← hnew, ← hafter] at hgrow
      have hside : 0 < q.newReserve := by
        omega
      exact ⟨hgrow, hside, pos_of_mul_pos_left (hpos.trans_le hgrow) hside.le⟩

/-- No sequence of quotes shrinks the product. -/
theorem trades_grow {trades : List Trade} {s' : CurveState} (hres : 0 < s.reserve)
    (hvalue : 0 < vSompi + s.value) (h : trades.foldlM trade s = .ok s') :
    product s ≤ product s' ∧ 0 < s'.reserve ∧ 0 < vSompi + s'.value := by
  refine foldlM_invariant (fun s' ↦ product s ≤ product s' ∧ 0 < s'.reserve ∧
    0 < vSompi + s'.value) ?_ ⟨le_rfl, hres, hvalue⟩ h
  rintro b t b' - ⟨hle, hb, hv⟩ hstep
  obtain ⟨hgrow, hb', hv'⟩ := trade_grows hb hv hstep
  exact ⟨hle.trans hgrow, hb', hv'⟩

/-! ## The law of the quotes -/

theorem buy_law {kasIn : Int} {q : BuyQuote} (hvalue : 0 ≤ s.value)
    (h : quoteBuy s kasIn = .ok q) : BuyLaw s kasIn q := by
  have hV : 0 < vSompi := by decide
  have hside : 0 < vSompi + s.value := by
    omega
  obtain ⟨hkas, hres, -, hout, -, hafter⟩ := quoteBuy_ok h
  have htrade : trade s (.buy kasIn) = .ok ⟨q.newReserve, q.curveValueAfter⟩ := by
    rw [trade, h]
    rfl
  obtain ⟨hgrow, hnew, -⟩ := trade_grows hres hside htrade
  have hkept : s.reserve - q.tokenOut = q.newReserve := by
    omega
  refine ⟨hgrow, hnew, by omega, ⟨(buy_greatest hside h q.tokenOut).mp le_rfl, ?_, by omega⟩, ?_⟩
  · rw [hkept]
    exact hnew
  · rintro t ⟨ht, -, -⟩
    exact (buy_greatest hside h t).mpr ht

/-- A sell is safe exactly when the curve holds what it takes. -/
theorem sell_law_iff {tokenIn : Int} {q : SellQuote} (hvalue : 0 ≤ s.value)
    (h : quoteSell s tokenIn = .ok q) : SellLaw s tokenIn q ↔ SellCovered s tokenIn := by
  have hV : 0 < vSompi := by decide
  have hside : 0 < vSompi + s.value := by
    omega
  obtain ⟨htok, hres, hnew, hmax, hkas, -, hafter⟩ := quoteSell_ok h
  have htrade : trade s (.sell tokenIn) = .ok ⟨q.newReserve, q.curveValueAfter⟩ := by
    rw [trade, h]
    rfl
  obtain ⟨hgrow, hnewPos, -⟩ := trade_grows hres hside htrade
  -- one step more than the curve holds in whole steps
  have hcovered : 0 ≤ q.curveValueAfter ↔ SellCovered s tokenIn := by
    have hscale : scale = 1000000 := rfl
    have hone := sell_greatest hside h (m := (s.value / scale + 1) * scale) (dvd_mul_left _ _)
    have hover : vSompi + (s.value - (s.value / scale + 1) * scale) =
        vSompi - scale + s.value % scale := by
      rw [hscale]
      omega
    have hproduct : product ⟨s.reserve + tokenIn, s.value - (s.value / scale + 1) * scale⟩ =
        (vSompi - scale + s.value % scale) * (s.reserve + tokenIn) := by
      rw [product, hover]
    rw [hproduct] at hone
    have hdvd := scale_dvd_kasOut h
    rw [SellCovered, ← not_le, ← hone, hafter]
    rw [hscale] at hdvd ⊢
    omega
  rw [← hcovered]
  constructor
  · exact fun hlaw ↦ hlaw.2.2.1
  · intro hafterNonneg
    refine ⟨hgrow, hnewPos, hafterNonneg, ⟨scale_dvd_kasOut h, ?_, by omega, by omega⟩, ?_⟩
    · exact (sell_greatest hside h (scale_dvd_kasOut h)).mp le_rfl
    · rintro m ⟨hm, hallowed, -, -⟩
      exact (sell_greatest hside h hm).mpr hallowed

/-- **Quotes are safe and optimal while the curve covers them.**  Every quoted buy is, a
quoted sell is exactly when it is covered, and no sequence of quotes that returns to its
token reserve has taken KAS from the curve. -/
theorem quotes_safe_iff_covered (s : CurveState) (hres : 0 < s.reserve) (hvalue : 0 ≤ s.value) :
    (∀ kasIn q, quoteBuy s kasIn = .ok q → BuyLaw s kasIn q) ∧
    (∀ tokenIn q, quoteSell s tokenIn = .ok q →
      (SellLaw s tokenIn q ↔ SellCovered s tokenIn)) ∧
    ∀ trades s', List.foldlM trade s trades = .ok s' → s'.reserve = s.reserve →
      s.value ≤ s'.value := by
  refine ⟨fun kasIn q h ↦ buy_law hvalue h, fun tokenIn q h ↦ sell_law_iff hvalue h, ?_⟩
  intro trades s' h hback
  have hV : 0 < vSompi := by decide
  obtain ⟨hgrow, -, -⟩ := trades_grow hres (by omega) h
  rw [product, product, hback] at hgrow
  have hle := le_of_mul_le_mul_right hgrow hres
  omega

/-- A curve of a thousand KAS sells tokens and takes them back. -/
theorem quotes_safe_thousand :
    (∃ q, quoteSell ⟨990176205, 163000000000⟩ 9823795 = .ok q ∧
      SellLaw ⟨990176205, 163000000000⟩ 9823795 q) ∧
    ∃ s', List.foldlM trade ⟨1000000000, 100000000000⟩ [.buy 63000000000, .sell 9823795] =
      .ok s' ∧ 100000000000 ≤ s'.value := by
  have hcovered : SellCovered ⟨990176205, 163000000000⟩ 9823795 := by decide +kernel
  have hsell := (quotes_safe_iff_covered ⟨990176205, 163000000000⟩ (by decide) (by decide)).2.1
  have hround := (quotes_safe_iff_covered ⟨1000000000, 100000000000⟩ (by decide) (by decide)).2.2
  have hback : List.foldlM trade ⟨1000000000, 100000000000⟩ [.buy 63000000000, .sell 9823795] =
      .ok ⟨1000000000, 100001000000⟩ := by
    rfl
  exact ⟨⟨_, rfl, (hsell _ _ rfl).mpr hcovered⟩, ⟨_, hback, hround _ _ hback rfl⟩⟩

/-- A tenth of the reserve again, sold to a curve of a hundred KAS, asks for more. -/
theorem uncovered_sell :
    ∃ q, quoteSell ⟨1000000000, 10000000000⟩ 100000000 = .ok q ∧ q.curveValueAfter < 0 ∧
      ¬SellLaw ⟨1000000000, 10000000000⟩ 100000000 q := by
  refine ⟨_, rfl, by decide +kernel, ?_⟩
  rintro ⟨-, -, hafter, -⟩
  exact absurd hafter (by decide +kernel)

end Kascov.Quote
