import Kascov.Lib.Checked
import Kascov.Token.Tables

/-!
# Matched programs and the two replay gates

The allowlist of audited builds, what each build implies (its fees, its
phase), and the two integer gates of a trade: the price bracket, which decides
whether the trade is judged at all, and the constant-product replay, which
poisons the whole program when it fails.  `i128` products are checked.
-/

namespace Kascov

/-- `KAS_QUANTUM_SOMPI`: the curve moves KAS in multiples of 0.01 KAS. -/
def kasQuantumSompi : Int := 1000000

/-- `INVARIANT_MAX_GROWTH_PPM`. -/
def invariantMaxGrowthPpm : Int := 10

/-- `MIN_EXERCISED_TRADES`. -/
def minExercisedTrades : Int := 3

/-- `CURVE_FEE_GROWTH_BPS`. -/
def curveFeeGrowthBps : Int := 125

/-! ## The audited builds -/

/-- What a matched curve program states about itself. -/
structure CurveParams where
  tokenCovenantId : CovenantId
  vKasUnits : Int
  graduationKasSompi : Int
  creatorFeeOwner : BitVec 256
  tokenReserve : Int
deriving DecidableEq

/-- What a matched pool program states about itself. -/
structure PoolParams where
  tokenCovenantId : CovenantId
  kasReserveUnits : Int
  tokenReserve : Int
  shares : Int
  lpTokenCovenantId : CovenantId
  creator : BitVec 256
deriving DecidableEq

inductive PinParams where
  | curve (c : CurveParams)
  | pool (p : PoolParams)
deriving DecidableEq

/-- A single-deployment build, recognised by the hash of its whole program. -/
structure ExactPin where
  programHash : BitVec 256
  skeleton : String
  params : PinParams
  phase : String
  fees : Int × Int
deriving DecidableEq

/-- `EXACT_PINS` ships empty. -/
def exactPins : List ExactPin := []

/-- What the fee and phase tables read of a `SkeletonPin`. -/
structure SkeletonPin where
  name : String
  phase : String
  fees : Int × Int
deriving DecidableEq

def kronCurveV1Pin : SkeletonPin := ⟨"KRON curve v1", "bonding", (0, curveFeeGrowthBps)⟩

def kronCurveV2Pin : SkeletonPin := ⟨"KRON curve v2", "bonding", (0, curveFeeGrowthBps)⟩

def kcmCurveV1Pin : SkeletonPin := ⟨"curve tn-b", "bonding", (0, 125)⟩

/-- `SKELETON_PINS`. -/
def skeletonPins : List SkeletonPin := [kronCurveV1Pin, kronCurveV2Pin, kcmCurveV1Pin]

/-- `MATCHED_SKELETONS`. -/
def matchedSkeletons : List String :=
  ["KRON curve v1", "KRON pool v1", "KRON curve v2", "KRON pool v2", "KRON curve v3",
    "KRON pool v3", "KRON pool tn-a", "curve tn-b"]

/-- `is_matched_skeleton`. -/
def isMatchedSkeleton (skeleton : String) : Bool :=
  matchedSkeletons.contains skeleton || exactPins.any (·.skeleton = skeleton)

/-- `fee_model_in`: the fee the trader pays on the quote, and the fee the build
may keep inside its reserve. -/
def feeModelIn (pins : List ExactPin) (skeleton : String) : Int × Int :=
  match pins.find? (·.skeleton = skeleton) with
  | some pin => pin.fees
  | none =>
    match skeletonPins.find? (·.name = skeleton) with
    | some sk => sk.fees
    | none =>
      if skeleton ∈ ["KRON pool v1", "KRON pool v2", "KRON pool v3", "KRON pool tn-a"] then (20, 20)
      else if skeleton = "KRON curve v3" then (0, curveFeeGrowthBps)
      else (0, 0)

/-- `fee_model`. -/
def feeModel (skeleton : String) : Int × Int := feeModelIn exactPins skeleton

/-- `phase_for_skeleton_in`. -/
def phaseForSkeletonIn (pins : List ExactPin) (skeleton : String) : String :=
  match pins.find? (·.skeleton = skeleton) with
  | some pin => pin.phase
  | none =>
    match skeletonPins.find? (·.name = skeleton) with
    | some sk => sk.phase
    | none =>
      if skeleton ∈ ["KRON pool v1", "KRON pool v2", "KRON pool v3", "KRON pool tn-a"] then
        "graduated"
      else if skeleton = "KRON curve v3" then "bonding"
      else "unknown"

/-- `phase_for_skeleton`. -/
def phaseForSkeleton (skeleton : String) : String := phaseForSkeletonIn exactPins skeleton

/-- Every entry of the skeleton table is on the publish allowlist. -/
theorem skeletonPins_matched {sk : SkeletonPin} (h : sk ∈ skeletonPins) :
    isMatchedSkeleton sk.name = true := by
  simp only [skeletonPins, List.mem_cons, List.not_mem_nil, or_false] at h
  rcases h with rfl | rfl | rfl <;> decide

/-- The pin tier being empty, a matched skeleton is one of the list. -/
theorem isMatchedSkeleton_iff {skeleton : String} :
    isMatchedSkeleton skeleton = true ↔ skeleton ∈ matchedSkeletons := by
  simp [isMatchedSkeleton, exactPins]

/-! ## The two gates -/

/-- `bracket_holds`: the executed price lies between the marginal prices before
and after the trade, with one quantum and the declared fee as slack. -/
def bracketHolds (v k0 k1 b0 b1 quote base : Int) (isBuy : Bool) (feeInBps : Int) : Bool :=
  if base ≤ 0 ∨ quote ≤ 0 ∨ b0 ≤ 0 ∨ b1 ≤ 0 then false
  else
    let q := kasQuantumSompi + (quote * feeInBps).tdiv 10000
    let loNum := if isBuy then v + k0 - q else v + k1 - q
    let loDen := if isBuy then b0 else b1
    let hiNum := if isBuy then v + k1 + q else v + k0 + q
    let hiDen := if isBuy then b1 else b0
    match Checked.mul 127 loNum base, Checked.mul 127 quote loDen, Checked.mul 127 hiNum base with
    | some lo, some px, some hi =>
      if px < lo then false
      else
        match Checked.mul 127 quote hiDen with
        | some pxHi => pxHi ≤ hi
        | none => false
    | _, _, _ => false

/-- `invariant_holds`: the product may only grow, and only within its cap. -/
def invariantHolds (v k0 k1 b0 b1 quote feeInBps : Int) : Bool :=
  match Checked.mul 127 (v + k0) b0, Checked.mul 127 (v + k1) b1 with
  | some before, some after =>
    if after < before then false
    else
      match Checked.sub 127 after before with
      | none => false
      | some growth =>
        if feeInBps = 0 then
          match Checked.mul 127 growth 1000000, Checked.mul 127 before invariantMaxGrowthPpm with
          | some g, some cap => g ≤ cap
          | _, _ => false
        else
          match Checked.mul 127 ((quote * feeInBps).tdiv 10000 + kasQuantumSompi) (max b0 b1) with
          | some cap => growth ≤ cap
          | none => false
  | _, _ => false

/-- The bracket of a buy without a declared fee, where no product overflows. -/
theorem bracketHolds_buy_iff (v k0 k1 b0 b1 quote base : Int) (hbase : 0 < base)
    (hquote : 0 < quote) (hb0 : 0 < b0) (hb1 : 0 < b1)
    (hlo : Checked.InRange 127 ((v + k0 - kasQuantumSompi) * base))
    (hpx : Checked.InRange 127 (quote * b0))
    (hhi : Checked.InRange 127 ((v + k1 + kasQuantumSompi) * base))
    (hpxHi : Checked.InRange 127 (quote * b1)) :
    bracketHolds v k0 k1 b0 b1 quote base true 0 = true ↔
      (v + k0 - kasQuantumSompi) * base ≤ quote * b0 ∧
        quote * b1 ≤ (v + k1 + kasQuantumSompi) * base := by
  have hpos : ¬(base ≤ 0 ∨ quote ≤ 0 ∨ b0 ≤ 0 ∨ b1 ≤ 0) := by omega
  unfold bracketHolds
  rw [if_neg hpos]
  simp only [mul_zero, Int.zero_tdiv, add_zero, if_true, Checked.mul,
    Checked.narrow_of_inRange hlo, Checked.narrow_of_inRange hpx, Checked.narrow_of_inRange hhi,
    Checked.narrow_of_inRange hpxHi]
  by_cases h : quote * b0 < (v + k0 - kasQuantumSompi) * base
  · rw [if_pos h]
    exact ⟨(nomatch ·), fun hle ↦ absurd hle.1 (not_le.mpr h)⟩
  · rw [if_neg h, decide_eq_true_eq]
    exact ⟨fun hle ↦ ⟨not_lt.mp h, hle⟩, fun hle ↦ hle.2⟩

/-- The replay with a fee, where no product overflows. -/
theorem invariantHolds_fee_iff (v k0 k1 b0 b1 quote fee : Int) (hfee : fee ≠ 0)
    (hbefore : Checked.InRange 127 ((v + k0) * b0)) (hafter : Checked.InRange 127 ((v + k1) * b1))
    (hpos : 0 ≤ (v + k0) * b0)
    (hcap : Checked.InRange 127 (((quote * fee).tdiv 10000 + kasQuantumSompi) * max b0 b1)) :
    invariantHolds v k0 k1 b0 b1 quote fee = true ↔
      (v + k0) * b0 ≤ (v + k1) * b1 ∧ (v + k1) * b1 - (v + k0) * b0 ≤
        ((quote * fee).tdiv 10000 + kasQuantumSompi) * max b0 b1 := by
  unfold invariantHolds
  simp only [Checked.mul, Checked.sub, Checked.narrow_of_inRange hbefore,
    Checked.narrow_of_inRange hafter, Checked.narrow_of_inRange hcap, if_neg hfee]
  by_cases h : (v + k1) * b1 < (v + k0) * b0
  · rw [if_pos h]
    exact ⟨(nomatch ·), fun hle ↦ absurd hle.1 (not_le.mpr h)⟩
  · have hgrowth : Checked.InRange 127 ((v + k1) * b1 - (v + k0) * b0) :=
      Checked.inRange_of_nonneg (by omega) (lt_of_le_of_lt (by omega) hafter.2)
    rw [if_neg h, Checked.narrow_of_inRange hgrowth]
    show decide _ = true ↔ _
    rw [decide_eq_true_eq]
    exact ⟨fun hle ↦ ⟨not_lt.mp h, hle⟩, fun hle ↦ hle.2⟩

end Kascov
