import Kascov.Market.Curve

/-!
# The browser's quotes

`curve.js` quotes trades on a "KRON curve v1" market in exact integers, and
`derive_market_program` replays the trades that were made.  A sell always
passes the replay.  A buy passes exactly when the residue its rounding leaves
in the product stays inside the fee the replay allows, which every reserve of
6240 tokens or more guarantees.
-/

namespace Kascov

namespace Quote

/-- `SCALE`. -/
def scale : Int := 1000000

/-- `V_KAS_UNITS`. -/
def vKasUnits : Int := 6250000

/-- `V_SOMPI`. -/
def vSompi : Int := vKasUnits * kasQuantumSompi

/-- `GRADUATION_KAS_SOMPI`. -/
def graduationKasSompi : Int := 25000000000000

/-- `FEE_DEV_FLOOR_SOMPI`. -/
def feeDevFloorSompi : Int := 20000000

structure FeeLegs where
  creator : Int
  platform : Int
  dev : Int
deriving DecidableEq

/-- `feeLegs`, of 25, 90 and 10 basis points. -/
def feeLegs (quote : Int) : FeeLegs :=
  let dev := (quote * 10).tdiv 10000
  { creator := (quote * 25).tdiv 10000
    platform := (quote * 90).tdiv 10000
    dev := if feeDevFloorSompi < dev then dev else feeDevFloorSompi }

/-- The curve as the page reads it. -/
structure CurveState where
  reserve : Int
  value : Int
deriving DecidableEq

structure BuyQuote where
  tokenOut : Int
  newReserve : Int
  curveValueAfter : Int
  fees : FeeLegs
deriving DecidableEq

structure SellQuote where
  kasOut : Int
  newReserve : Int
  curveValueAfter : Int
  fees : FeeLegs
deriving DecidableEq

/-- `ceilDiv`. -/
def ceilDiv (a b : Int) : Int := (a + b - 1).tdiv b

/-- `quoteBuy`. -/
def quoteBuy (state : CurveState) (kasIn : Int) : Except String BuyQuote :=
  let b0 := state.reserve
  let k0 := state.value
  if kasIn ≤ 0 then .error "curve: kasIn must be positive"
  else if kasIn.tmod scale ≠ 0 then .error "curve: kasIn must be a whole multiple of SCALE"
  else if b0 ≤ 0 then .error "curve: empty curve reserve"
  else
    let k1 := k0 + kasIn
    let b1 := ceilDiv ((vSompi + k0) * b0) (vSompi + k1)
    let tokenOut := b0 - b1
    if tokenOut ≤ 0 then .error "curve: kasIn too small to buy a whole token"
    else .ok { tokenOut, newReserve := b1, curveValueAfter := k1, fees := feeLegs kasIn }

/-- `quoteSell`. -/
def quoteSell (state : CurveState) (tokenIn : Int) : Except String SellQuote :=
  let b0 := state.reserve
  let k0 := state.value
  if tokenIn ≤ 0 then .error "curve: tokenIn must be positive"
  else if b0 ≤ 0 then .error "curve: empty curve reserve"
  else
    let b1 := b0 + tokenIn
    let k1min := ceilDiv ((vSompi + k0) * b0) b1 - vSompi
    let maxKasOut := k0 - k1min
    if maxKasOut ≤ 0 then .error "curve: tokenIn too small to release any KAS"
    else
      let kasOut := maxKasOut.tdiv scale * scale
      if kasOut ≤ 0 then .error "curve: proceeds below one SCALE step"
      else
        .ok { kasOut, newReserve := b1, curveValueAfter := k0 - kasOut, fees := feeLegs kasOut }

/-! ## What a quote says -/

/-- A ceiling overshoots by less than the divisor. -/
theorem ceilDiv_spec {a b : Int} (ha : 0 ≤ a) (hb : 0 < b) :
    a ≤ ceilDiv a b * b ∧ ceilDiv a b * b < a + b := by
  have hnum : 0 ≤ a + b - 1 := by omega
  rw [ceilDiv, Int.tdiv_eq_ediv_of_nonneg hnum]
  have hmod := Int.emod_nonneg (a + b - 1) hb.ne'
  have hlt := Int.emod_lt_of_pos (a + b - 1) hb
  have hdiv := Int.mul_ediv_add_emod (a + b - 1) b
  rw [mul_comm] at hdiv
  constructor
  · linarith
  · linarith

theorem quoteBuy_ok {state : CurveState} {kasIn : Int} {q : BuyQuote}
    (h : quoteBuy state kasIn = .ok q) :
    0 < kasIn ∧ 0 < state.reserve ∧
      q.newReserve = ceilDiv ((vSompi + state.value) * state.reserve)
        (vSompi + (state.value + kasIn)) ∧
      q.tokenOut = state.reserve - q.newReserve ∧ 0 < q.tokenOut ∧
      q.curveValueAfter = state.value + kasIn := by
  unfold quoteBuy at h
  dsimp only at h
  by_cases hpos : kasIn ≤ 0
  · rw [if_pos hpos] at h
    cases h
  · rw [if_neg hpos] at h
    by_cases hscale : kasIn.tmod scale ≠ 0
    · rw [if_pos hscale] at h
      cases h
    · rw [if_neg hscale] at h
      by_cases hres : state.reserve ≤ 0
      · rw [if_pos hres] at h
        cases h
      · rw [if_neg hres] at h
        by_cases hout : state.reserve - ceilDiv ((vSompi + state.value) * state.reserve)
            (vSompi + (state.value + kasIn)) ≤ 0
        · rw [if_pos hout] at h
          cases h
        · rw [if_neg hout] at h
          cases h
          exact ⟨not_le.mp hpos, not_le.mp hres, rfl, rfl, not_le.mp hout, rfl⟩

theorem quoteSell_ok {state : CurveState} {tokenIn : Int} {q : SellQuote}
    (h : quoteSell state tokenIn = .ok q) :
    0 < tokenIn ∧ 0 < state.reserve ∧ q.newReserve = state.reserve + tokenIn ∧
      0 < state.value - (ceilDiv ((vSompi + state.value) * state.reserve) q.newReserve - vSompi) ∧
      q.kasOut = (state.value - (ceilDiv ((vSompi + state.value) * state.reserve)
        q.newReserve - vSompi)).tdiv scale * scale ∧
      0 < q.kasOut ∧ q.curveValueAfter = state.value - q.kasOut := by
  unfold quoteSell at h
  dsimp only at h
  by_cases hpos : tokenIn ≤ 0
  · rw [if_pos hpos] at h
    cases h
  · rw [if_neg hpos] at h
    by_cases hres : state.reserve ≤ 0
    · rw [if_pos hres] at h
      cases h
    · rw [if_neg hres] at h
      by_cases hmax : state.value - (ceilDiv ((vSompi + state.value) * state.reserve)
          (state.reserve + tokenIn) - vSompi) ≤ 0
      · rw [if_pos hmax] at h
        cases h
      · rw [if_neg hmax] at h
        by_cases hout : (state.value - (ceilDiv ((vSompi + state.value) * state.reserve)
            (state.reserve + tokenIn) - vSompi)).tdiv scale * scale ≤ 0
        · rw [if_pos hout] at h
          cases h
        · rw [if_neg hout] at h
          cases h
          exact ⟨not_le.mp hpos, not_le.mp hres, rfl, not_le.mp hmax, rfl, not_le.mp hout, rfl⟩

/-! ## The replay of a quoted trade -/

/-- `extract_trade_candidate` keeps a trade only if its six figures fit the
`i64` columns they are stored in. -/
def Storable (k0 k1 b0 b1 quote base : Int) : Prop :=
  Checked.InRange 63 k0 ∧ Checked.InRange 63 k1 ∧ Checked.InRange 63 b0 ∧
    Checked.InRange 63 b1 ∧ Checked.InRange 63 quote ∧ Checked.InRange 63 base

/-- The bracket of the replay, with the fees of "KRON curve v1". -/
def replayBracket (k0 k1 b0 b1 quote base : Int) (isBuy : Bool) : Bool :=
  bracketHolds (vKasUnits * kasQuantumSompi) k0 k1 b0 b1 quote base isBuy
    (feeModel "KRON curve v1").1

/-- The invariant of the replay, with the fees of "KRON curve v1". -/
def replayInvariant (k0 k1 b0 b1 quote : Int) : Bool :=
  invariantHolds (vKasUnits * kasQuantumSompi) k0 k1 b0 b1 quote (feeModel "KRON curve v1").2

theorem feeModel_curve : feeModel "KRON curve v1" = (0, 125) := by decide

/-- The product cap of a trade of `quote` at reserve `b`. -/
def growthCap (quote b : Int) : Int := (quote * 125 / 10000 + kasQuantumSompi) * b

/-- What a buy's rounding leaves over: the remainder of the tokens it takes. -/
def residue (state : CurveState) (kasIn : Int) : Int :=
  kasIn * state.reserve % (vSompi + (state.value + kasIn))

/-- The tokens a buy takes: its exact share of the reserve, rounded down. -/
def tokensOut (state : CurveState) (kasIn : Int) : Int :=
  kasIn * state.reserve / (vSompi + (state.value + kasIn))

section Buy

variable {state : CurveState} {kasIn : Int} {q : BuyQuote}

/-- A quoted buy takes the quotient and leaves the remainder. -/
theorem quoteBuy_rounding (hvalue : 0 ≤ state.value) (h : quoteBuy state kasIn = .ok q) :
    q.tokenOut = tokensOut state kasIn ∧
      (vSompi + q.curveValueAfter) * q.newReserve - (vSompi + state.value) * state.reserve =
        residue state kasIn := by
  obtain ⟨hkas, hres, hnew, hout, -, hafter⟩ := quoteBuy_ok h
  have hV : 0 < vSompi := by decide
  have hD : 0 < vSompi + (state.value + kasIn) := by omega
  have ha : 0 ≤ (vSompi + state.value) * state.reserve := mul_nonneg (by omega) hres.le
  obtain ⟨hle, hlt⟩ := ceilDiv_spec ha hD
  rw [← hnew] at hle hlt
  -- the ceiling of the kept part is the floor of the part taken
  have hsum : kasIn * state.reserve = (vSompi + (state.value + kasIn)) * q.tokenOut +
      (q.newReserve * (vSompi + (state.value + kasIn)) -
        (vSompi + state.value) * state.reserve) := by
    rw [hout]
    ring
  have hdm : tokensOut state kasIn = q.tokenOut ∧ residue state kasIn =
      q.newReserve * (vSompi + (state.value + kasIn)) - (vSompi + state.value) * state.reserve := by
    unfold tokensOut residue
    rw [Int.ediv_emod_unique hD]
    exact ⟨by linarith, by linarith, by linarith⟩
  refine ⟨hdm.1.symm, ?_⟩
  rw [hdm.2, hafter, mul_comm q.newReserve]

theorem quoteBuy_bounds (hvalue : 0 ≤ state.value) (h : quoteBuy state kasIn = .ok q)
    (hnew : 0 < q.newReserve) (hafter : q.curveValueAfter ≤ graduationKasSompi) :
    0 < kasIn ∧ 0 < q.tokenOut ∧ q.newReserve ≤ state.reserve ∧ q.tokenOut ≤ state.reserve ∧
      q.curveValueAfter = state.value + kasIn ∧ kasIn ≤ graduationKasSompi ∧
      state.value ≤ graduationKasSompi := by
  obtain ⟨hkas, hres, -, hout, hpos, hk1⟩ := quoteBuy_ok h
  refine ⟨hkas, hpos, by omega, by omega, hk1, by omega, by omega⟩

/-- A buy's figures fit their columns exactly when its reserve does. -/
theorem quoteBuy_storable_iff (hvalue : 0 ≤ state.value) (h : quoteBuy state kasIn = .ok q)
    (hnew : 0 < q.newReserve) (hafter : q.curveValueAfter ≤ graduationKasSompi) :
    Storable state.value q.curveValueAfter state.reserve q.newReserve kasIn q.tokenOut ↔
      state.reserve < 2 ^ 63 := by
  obtain ⟨hkas, hpos, hle, hout, hk1, hkasG, hvalG⟩ := quoteBuy_bounds hvalue h hnew hafter
  have hG : graduationKasSompi < 2 ^ 63 := by decide
  constructor
  · intro hs
    exact hs.2.2.1.2
  · intro hlt
    refine ⟨?_, ?_, ?_, ?_, ?_, ?_⟩
    · exact Checked.inRange_of_nonneg hvalue (by omega)
    · exact Checked.inRange_of_nonneg (by omega) (by omega)
    · exact Checked.inRange_of_nonneg (by omega) hlt
    · exact Checked.inRange_of_nonneg hnew.le (by omega)
    · exact Checked.inRange_of_nonneg hkas.le (by omega)
    · exact Checked.inRange_of_nonneg hpos.le (by omega)

/-- An amount of KAS below `2 ^ 46` times a reserve below `2 ^ 63` fits. -/
theorem product_inRange {a b : Int} (ha : 0 ≤ a) (hA : a ≤ 2 ^ 46) (hb : 0 ≤ b)
    (hB : b ≤ 2 ^ 63) : Checked.InRange 127 (a * b) :=
  Checked.mul_inRange ha hb hA hB (by norm_num)

/-- The replay brackets a quoted buy exactly when its residue is within one
quantum and one quote of what it takes. -/
theorem quoteBuy_bracket_iff (hvalue : 0 ≤ state.value) (h : quoteBuy state kasIn = .ok q)
    (hnew : 0 < q.newReserve) (hafter : q.curveValueAfter ≤ graduationKasSompi)
    (hlt : state.reserve < 2 ^ 63) :
    replayBracket state.value q.curveValueAfter state.reserve q.newReserve kasIn q.tokenOut true =
        true ↔
      residue state kasIn ≤ (kasIn + kasQuantumSompi) * tokensOut state kasIn := by
  obtain ⟨hkas, hpos, hle, hout, hk1, hkasG, hvalG⟩ := quoteBuy_bounds hvalue h hnew hafter
  obtain ⟨htokens, hresidue⟩ := quoteBuy_rounding hvalue h
  have hV : vSompi = 6250000000000 := by decide
  have hQ : kasQuantumSompi = 1000000 := rfl
  have hG : graduationKasSompi = 25000000000000 := rfl
  have hbracket := bracketHolds_buy_iff vSompi state.value q.curveValueAfter state.reserve
    q.newReserve kasIn q.tokenOut hpos hkas (by omega) hnew
    (product_inRange (by omega) (by omega) hpos.le (by omega))
    (product_inRange hkas.le (by omega) (by omega) hlt.le)
    (product_inRange (by omega) (by omega) hpos.le (by omega))
    (product_inRange hkas.le (by omega) hnew.le (by omega))
  have hbase : q.tokenOut = state.reserve - q.newReserve := (quoteBuy_ok h).2.2.2.1
  rw [replayBracket, feeModel_curve]
  refine hbracket.trans ?_
  rw [← htokens, ← hresidue, hk1, hbase]
  have hnewk : 0 ≤ kasIn * q.newReserve := mul_nonneg hkas.le hnew.le
  constructor
  · rintro ⟨-, hhi⟩
    linarith
  · intro hr
    have hround := hresidue
    have hr0 : 0 ≤ residue state kasIn := Int.emod_nonneg _ (by omega)
    rw [hk1] at hround
    have hq : 0 ≤ (kasIn + kasQuantumSompi) * (state.reserve - q.newReserve) :=
      mul_nonneg (by omega) (by omega)
    constructor
    · linarith
    · linarith

/-- The replay accepts the product of a quoted buy exactly when its residue is
within the fee cap. -/
theorem quoteBuy_invariant_iff (hvalue : 0 ≤ state.value) (h : quoteBuy state kasIn = .ok q)
    (hnew : 0 < q.newReserve) (hafter : q.curveValueAfter ≤ graduationKasSompi)
    (hlt : state.reserve < 2 ^ 63) :
    replayInvariant state.value q.curveValueAfter state.reserve q.newReserve kasIn = true ↔
      residue state kasIn ≤ growthCap kasIn state.reserve := by
  obtain ⟨hkas, hpos, hle, hout, hk1, hkasG, hvalG⟩ := quoteBuy_bounds hvalue h hnew hafter
  obtain ⟨htokens, hresidue⟩ := quoteBuy_rounding hvalue h
  have hV : vSompi = 6250000000000 := by decide
  have hQ : kasQuantumSompi = 1000000 := rfl
  have hG : graduationKasSompi = 25000000000000 := rfl
  have hfee : (kasIn * 125).tdiv 10000 = kasIn * 125 / 10000 :=
    Int.tdiv_eq_ediv_of_nonneg (by omega)
  have hmax : max state.reserve q.newReserve = state.reserve := max_eq_left hle
  have hinvariant := invariantHolds_fee_iff vSompi state.value q.curveValueAfter state.reserve
    q.newReserve kasIn 125 (by decide) (product_inRange (by omega) (by omega) (by omega) hlt.le)
    (product_inRange (by omega) (by omega) hnew.le (by omega))
    (mul_nonneg (by omega) (by omega))
    (by
      rw [hfee, hmax]
      exact product_inRange (by omega) (by omega) (by omega) hlt.le)
  have hr0 : 0 ≤ residue state kasIn := Int.emod_nonneg _ (by omega)
  rw [replayInvariant, feeModel_curve]
  refine hinvariant.trans ?_
  rw [hfee, hmax, hresidue, growthCap]
  exact and_iff_right (by linarith)

/-- A reserve of 6240 tokens keeps every bracketed residue inside the cap. -/
theorem residue_le_growthCap (hvalue : 0 ≤ state.value) (hkas : 0 < kasIn)
    (hreserve : 6240 ≤ state.reserve)
    (hbracket : residue state kasIn ≤ (kasIn + kasQuantumSompi) * tokensOut state kasIn) :
    residue state kasIn ≤ growthCap kasIn state.reserve := by
  have hV : vSompi = 6250000000000 := by decide
  have hQ : kasQuantumSompi = 1000000 := rfl
  have hD : 0 < vSompi + (state.value + kasIn) := by omega
  have hsum : (vSompi + (state.value + kasIn)) * tokensOut state kasIn + residue state kasIn =
      kasIn * state.reserve := Int.mul_ediv_add_emod _ _
  have hr0 : 0 ≤ residue state kasIn := Int.emod_nonneg _ hD.ne'
  have hrlt : residue state kasIn < vSompi + (state.value + kasIn) := Int.emod_lt_of_pos _ hD
  by_contra hover
  rw [not_le, growthCap] at hover
  -- 80 caps exceed the quote times the reserve
  have hfee : kasIn ≤ 80 * (kasIn * 125 / 10000 + kasQuantumSompi) - kasQuantumSompi := by omega
  have hcap : (kasIn + kasQuantumSompi) * state.reserve ≤
      80 * ((kasIn * 125 / 10000 + kasQuantumSompi) * state.reserve) := by
    have := mul_le_mul_of_nonneg_right hfee (by omega : 0 ≤ state.reserve)
    linarith
  have hquote : 0 ≤ kasQuantumSompi * state.reserve := mul_nonneg (by omega) (by omega)
  -- so at most 78 tokens go out
  have hfew : tokensOut state kasIn < 79 := by
    by_contra hmany
    have hle : (vSompi + (state.value + kasIn)) * 79 ≤
        (vSompi + (state.value + kasIn)) * tokensOut state kasIn :=
      mul_le_mul_of_nonneg_left (not_lt.mp hmany) hD.le
    linarith
  have hsmall : (kasIn + kasQuantumSompi) * tokensOut state kasIn ≤
      (kasIn + kasQuantumSompi) * 78 :=
    mul_le_mul_of_nonneg_left (by omega) (by omega)
  have hlarge : (kasIn + kasQuantumSompi) * 6240 ≤ (kasIn + kasQuantumSompi) * state.reserve :=
    mul_le_mul_of_nonneg_left hreserve (by omega)
  linarith

end Buy

section Sell

variable {state : CurveState} {tokenIn : Int} {q : SellQuote}

/-- A quoted sell keeps at least the product, and less than one step of it. -/
theorem quoteSell_growth (hvalue : 0 ≤ state.value) (h : quoteSell state tokenIn = .ok q) :
    (vSompi + state.value) * state.reserve ≤ (vSompi + q.curveValueAfter) * q.newReserve ∧
      (vSompi + q.curveValueAfter) * q.newReserve - (vSompi + state.value) * state.reserve <
        scale * q.newReserve ∧ q.kasOut ≤ vSompi + state.value := by
  obtain ⟨htok, hres, hnew, hmax, hkas, hpos, hafter⟩ := quoteSell_ok h
  have hV : vSompi = 6250000000000 := by decide
  have hb1 : 0 < q.newReserve := by omega
  have ha : 0 ≤ (vSompi + state.value) * state.reserve := mul_nonneg (by omega) hres.le
  obtain ⟨hle, hlt⟩ := ceilDiv_spec ha hb1
  generalize ceilDiv ((vSompi + state.value) * state.reserve) q.newReserve = c at *
  have hc : 0 ≤ c := by
    by_contra hneg
    have hstep : c * q.newReserve ≤ -1 * q.newReserve :=
      mul_le_mul_of_nonneg_right (by omega) hb1.le
    linarith
  rw [Int.tdiv_eq_ediv_of_nonneg hmax.le] at hkas
  have hmod := Int.emod_nonneg (state.value - (c - vSompi)) (by decide : scale ≠ 0)
  have hmodlt := Int.emod_lt_of_pos (state.value - (c - vSompi)) (by decide : 0 < scale)
  have hdiv := Int.mul_ediv_add_emod (state.value - (c - vSompi)) scale
  rw [mul_comm, ← hkas] at hdiv
  -- the floor to a step leaves less than a step over the ceiling
  have hkept : c ≤ vSompi + q.curveValueAfter := by omega
  have hstep : vSompi + q.curveValueAfter ≤ c + (scale - 1) := by omega
  have hlow : c * q.newReserve ≤ (vSompi + q.curveValueAfter) * q.newReserve :=
    mul_le_mul_of_nonneg_right hkept hb1.le
  have hhigh : (vSompi + q.curveValueAfter) * q.newReserve ≤ (c + (scale - 1)) * q.newReserve :=
    mul_le_mul_of_nonneg_right hstep hb1.le
  refine ⟨by linarith, by linarith, by omega⟩

/-- A quoted sell passes the replay. -/
theorem quoteSell_invariant (hvalue : 0 ≤ state.value) (hvalG : state.value ≤ graduationKasSompi)
    (h : quoteSell state tokenIn = .ok q)
    (hstored : Storable state.value q.curveValueAfter state.reserve q.newReserve q.kasOut tokenIn) :
    replayInvariant state.value q.curveValueAfter state.reserve q.newReserve q.kasOut = true := by
  obtain ⟨hgrow, hstep, hkasle⟩ := quoteSell_growth hvalue h
  obtain ⟨htok, hres, hnew, -, -, hkas, hafter⟩ := quoteSell_ok h
  have hV : vSompi = 6250000000000 := by decide
  have hQ : kasQuantumSompi = 1000000 := rfl
  have hS : scale = 1000000 := rfl
  have hG : graduationKasSompi = 25000000000000 := rfl
  have hlt : q.newReserve < 2 ^ 63 := hstored.2.2.2.1.2
  have hfee : (q.kasOut * 125).tdiv 10000 = q.kasOut * 125 / 10000 :=
    Int.tdiv_eq_ediv_of_nonneg (by omega)
  have hmax : max state.reserve q.newReserve = q.newReserve := max_eq_right (by omega)
  have hfee0 : 0 ≤ q.kasOut * 125 / 10000 := by omega
  have hcap : (q.kasOut * 125 / 10000 + kasQuantumSompi) * q.newReserve =
      q.kasOut * 125 / 10000 * q.newReserve + kasQuantumSompi * q.newReserve := add_mul _ _ _
  have hfeepos : 0 ≤ q.kasOut * 125 / 10000 * q.newReserve := mul_nonneg hfee0 (by omega)
  rw [replayInvariant, feeModel_curve]
  refine (invariantHolds_fee_iff vSompi state.value q.curveValueAfter state.reserve q.newReserve
    q.kasOut 125 (by decide) (product_inRange (by omega) (by omega) (by omega) (by omega))
    (product_inRange (by omega) (by omega) (by omega) hlt.le) (mul_nonneg (by omega) (by omega))
    ?_).mpr ?_
  · rw [hfee, hmax]
    exact product_inRange (by omega) (by omega) (by omega) hlt.le
  · rw [hfee, hmax, hcap]
    refine ⟨hgrow, ?_⟩
    rw [hS] at hstep
    rw [hQ]
    linarith

end Sell

/-- The buys the replay cannot fail on: a reserve no column holds, a trade its
bracket sets aside, or a residue inside the fee cap. -/
def BuyInsideCap (state : CurveState) (kasIn : Int) : Prop :=
  2 ^ 63 ≤ state.reserve ∨
    (kasIn + kasQuantumSompi) * tokensOut state kasIn < residue state kasIn ∨
      residue state kasIn ≤ growthCap kasIn state.reserve

theorem buyInsideCap_of_reserve {state : CurveState} {kasIn : Int} (hvalue : 0 ≤ state.value)
    (hkas : 0 < kasIn) (hreserve : 6240 ≤ state.reserve) : BuyInsideCap state kasIn := by
  by_cases h : (kasIn + kasQuantumSompi) * tokensOut state kasIn < residue state kasIn
  · exact .inr (.inl h)
  · exact .inr (.inr (residue_le_growthCap hvalue hkas hreserve (not_lt.mp h)))

/-- A bracketed trade built from a quote never fails the replay, save for the
buys outside the cap; a sell never does. -/
theorem quoted_trade_replays (state : CurveState) (hvalue : 0 ≤ state.value)
    (hvalG : state.value ≤ graduationKasSompi) :
    (∀ kasIn q, quoteBuy state kasIn = .ok q → 0 < q.newReserve → 0 ≤ q.curveValueAfter →
      q.curveValueAfter ≤ graduationKasSompi →
      ((Storable state.value q.curveValueAfter state.reserve q.newReserve kasIn q.tokenOut →
        replayBracket state.value q.curveValueAfter state.reserve q.newReserve kasIn q.tokenOut
          true = true →
        replayInvariant state.value q.curveValueAfter state.reserve q.newReserve kasIn = true) ↔
        BuyInsideCap state kasIn)) ∧
    ∀ tokenIn q, quoteSell state tokenIn = .ok q → 0 < q.newReserve → 0 ≤ q.curveValueAfter →
      q.curveValueAfter ≤ graduationKasSompi →
      Storable state.value q.curveValueAfter state.reserve q.newReserve q.kasOut tokenIn →
      replayInvariant state.value q.curveValueAfter state.reserve q.newReserve q.kasOut = true := by
  constructor
  · intro kasIn q h hnew _ hafter
    rw [quoteBuy_storable_iff hvalue h hnew hafter]
    by_cases hlt : state.reserve < 2 ^ 63
    · rw [quoteBuy_bracket_iff hvalue h hnew hafter hlt,
        quoteBuy_invariant_iff hvalue h hnew hafter hlt]
      constructor
      · intro hreplay
        by_cases hout : (kasIn + kasQuantumSompi) * tokensOut state kasIn < residue state kasIn
        · exact .inr (.inl hout)
        · exact .inr (.inr (hreplay hlt (not_lt.mp hout)))
      · rintro (hbig | hout | hin) _ hbracket
        · exact absurd hlt (not_lt.mpr hbig)
        · exact absurd hbracket (not_le.mpr hout)
        · exact hin
    · exact iff_of_true (fun h' ↦ absurd h' hlt) (.inl (not_lt.mp hlt))
  · intro tokenIn q h _ _ _ hstored
    exact quoteSell_invariant hvalue hvalG h hstored

/-- Half of a fresh curve of a thousand million tokens, bought at once. -/
theorem fresh_curve_buy_replays :
    replayInvariant 0 6250000000000 1000000000 500000000 6250000000000 = true := by
  have hsafe : BuyInsideCap ⟨1000000000, 0⟩ 6250000000000 :=
    buyInsideCap_of_reserve (by decide) (by decide) (by decide)
  refine ((quoted_trade_replays ⟨1000000000, 0⟩ (by decide) (by decide)).1 6250000000000
    ⟨500000000, 500000000, 6250000000000, feeLegs 6250000000000⟩ rfl (by decide) (by decide)
    (by decide)).mpr hsafe ?_ (by decide)
  exact ⟨by decide, by decide, by decide, by decide, by decide, by decide⟩

/-- With two tokens left, half a curve's worth of KAS buys one of them, the
bracket accepts the trade, and the replay fails on it. -/
theorem quoted_buy_poisons :
    ∃ q, quoteBuy ⟨2, 0⟩ 9375000000000 = .ok q ∧ 0 < q.newReserve ∧ 0 ≤ q.curveValueAfter ∧
      q.curveValueAfter ≤ graduationKasSompi ∧
      Storable 0 q.curveValueAfter 2 q.newReserve 9375000000000 q.tokenOut ∧
      replayBracket 0 q.curveValueAfter 2 q.newReserve 9375000000000 q.tokenOut true = true ∧
      replayInvariant 0 q.curveValueAfter 2 q.newReserve 9375000000000 = false := by
  refine ⟨⟨1, 1, 9375000000000, feeLegs 9375000000000⟩, rfl, ?_⟩
  refine ⟨by decide, by decide, by decide, ?_, by decide, by decide⟩
  exact ⟨by decide, by decide, by decide, by decide, by decide, by decide⟩

end Quote

end Kascov
