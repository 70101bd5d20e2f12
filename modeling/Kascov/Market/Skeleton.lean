import Kascov.Market.Curve
import Kascov.Market.Push

/-!
# The curve and pool matchers

`match_skeleton` with its pins, the matcher of the third curve generation, which
is written out by hand, and `match_pool_build`.  The pinned programs are files
of up to 186 kB beside the source: they are parameters here, and every result
holds for all of them.
-/

namespace Kascov

/-! ## Pins -/

/-- A `SkeletonPin` with everything a match reads. -/
structure SkeletonBuild extends SkeletonPin where
  fixture : Bytes
  pushes : Nat
  slots : List Nat
  tokenCovenant : Nat
  tokenReserve : Nat
  creator : List Nat
  vkas : List Nat
  graduation : Nat
  selfLen : List Nat := []
  poolTpl : List Nat := []
  seed : List Nat := []
  positiveConstants : Bool := false

/-- `KRON_CURVE_V1_PIN`. -/
def kronCurveV1Build (fixture : Bytes) : SkeletonBuild where
  toSkeletonPin := kronCurveV1Pin
  fixture
  pushes := 2206
  slots :=
    [1, 2, 19, 81, 141, 143, 185, 187, 311, 313, 326, 328, 391, 457, 459, 579, 582, 595, 597, 665,
      724, 857, 859, 877, 878, 893, 1006, 1015, 1190, 1192, 1237, 1239, 2084, 2087, 2101, 2103,
      2167]
  tokenCovenant := 1
  tokenReserve := 2
  creator := [19, 81]
  vkas := [185, 187, 311, 313, 457, 459, 579, 582, 1237, 1239, 2084, 2087]
  graduation := 724

/-- `KRON_CURVE_V2_PIN`. -/
def kronCurveV2Build (fixture : Bytes) : SkeletonBuild where
  toSkeletonPin := kronCurveV2Pin
  fixture
  pushes := 2645
  slots :=
    [1, 2, 25, 88, 148, 150, 192, 194, 320, 322, 335, 337, 400, 466, 468, 590, 593, 606, 608, 676,
      735, 870, 872, 890, 891, 906, 1033, 1035, 1899, 1902, 1916, 1918, 2603]
  tokenCovenant := 1
  tokenReserve := 2
  creator := [25, 88, 400, 676, 2603]
  vkas := [192, 194, 320, 322, 466, 468, 590, 593, 1033, 1035, 1899, 1902]
  graduation := 735
  selfLen := [148, 150, 335, 337, 606, 608, 870, 872, 1916, 1918]
  poolTpl := [890, 906]

/-- `KCM_CURVE_V1_PIN`. -/
def kcmCurveV1Build (fixture : Bytes) : SkeletonBuild where
  toSkeletonPin := kcmCurveV1Pin
  fixture
  pushes := 1172
  slots :=
    [1, 2, 3, 10, 138, 140, 142, 144, 146, 148, 150, 151, 152, 167, 169, 349, 351, 356, 359, 362,
      473, 475, 477, 479, 481, 483, 485, 486, 487, 502, 504, 680, 683, 687, 690, 693, 814, 816,
      818, 820, 822, 824, 826, 827, 828, 831, 832, 833, 897, 900, 911, 917, 922, 954, 956, 958,
      959, 1073]
  tokenCovenant := 1
  tokenReserve := 2
  creator := [10, 911]
  vkas := [167, 169, 349, 351, 502, 504, 680, 683]
  graduation := 959
  seed := [954, 956, 958]
  positiveConstants := true

/-- The constants of the third generation, `CURVE3_*` and `IDX3_*`, as a pin. -/
def kronCurveV3Build (fixture : Bytes) : SkeletonBuild where
  name := "KRON curve v3"
  phase := "bonding"
  fees := (0, curveFeeGrowthBps)
  fixture
  pushes := 2654
  slots :=
    [1, 2, 25, 88, 148, 150, 192, 194, 320, 322, 335, 337, 403, 469, 471, 593, 596, 609, 611, 682,
      741, 876, 878, 896, 897, 912, 1042, 1044, 1908, 1911, 1925, 1927, 2612]
  tokenCovenant := 1
  tokenReserve := 2
  creator := [25, 88, 403, 682, 2612]
  vkas := [192, 194, 320, 322, 469, 471, 593, 596, 1042, 1044, 1908, 1911]
  graduation := 741
  selfLen := [148, 150, 335, 337, 609, 611, 876, 878, 1925, 1927]
  poolTpl := [896, 912]

/-! ## `match_skeleton` -/

/-- The data of a unit as a 32-byte array. -/
def unitBytes32 (cand : List PushUnit) (i : Nat) : Option Bytes32 :=
  cand[i]?.bind (toBytes32 ·.value)

/-- The data of a unit as a non-negative number. -/
def unitI64 (cand : List PushUnit) (i : Nat) : Option Int := cand[i]?.bind (leI64 ·.value)

/-- Every embedded template copy pushes what the first one does. -/
def templatesAgree (cand : List PushUnit) : List Nat → Bool
  | [] => true
  | first :: rest =>
      rest.all fun i ↦ cand[i]?.map (·.value) == cand[first]?.map (·.value)

/-- `match_skeleton`. -/
def matchSkeleton (pin : SkeletonBuild) (program : Bytes) : Option CurveParams :=
  let cand := pushUnits program
  if cand.length ≠ pin.pushes then none
  else if !lockstepMatches pin.fixture (pushUnits pin.fixture) program cand pin.slots then none
  else do
    let vKasUnits ← agreedI64 cand pin.vkas
    let creatorFeeOwner ← (agreedBytes cand pin.creator).bind toBytes32
    if pin.seed ≠ [] ∧ agreedI64 cand pin.seed = none then none
    else if pin.selfLen ≠ [] ∧ agreedI64 cand pin.selfLen ≠ some (program.length : Int) then none
    else if !templatesAgree cand pin.poolTpl then none
    else do
      let tokenCovenantId ← unitBytes32 cand pin.tokenCovenant
      let tokenReserve ← unitI64 cand pin.tokenReserve
      let graduationKasSompi ← unitI64 cand pin.graduation
      if pin.positiveConstants = true ∧
          (vKasUnits ≤ 0 ∨ tokenReserve < 0 ∨ graduationKasSompi ≤ 0) then none
      else
        some
          { tokenCovenantId := ⟨tokenCovenantId.hash⟩
            vKasUnits
            graduationKasSompi
            creatorFeeOwner := creatorFeeOwner.hash
            tokenReserve }

/-- `match_kron_curve`. -/
def matchKronCurve (fixture program : Bytes) : Option CurveParams :=
  matchSkeleton (kronCurveV1Build fixture) program

/-- `match_kron_curve_v2`. -/
def matchKronCurveV2 (fixture program : Bytes) : Option CurveParams :=
  matchSkeleton (kronCurveV2Build fixture) program

/-- `match_kcm_curve`. -/
def matchKcmCurve (fixture program : Bytes) : Option CurveParams :=
  matchSkeleton (kcmCurveV1Build fixture) program

/-! ## `match_kron_curve_v3` -/

/-- The loop of `match_kron_curve_v3`, which compares the values too. -/
def curve3From (fixture program : Bytes) (slots : List Nat) :
    Nat → Nat → Nat → List PushUnit → List PushUnit → Bool
  | i, fpos, cpos, f :: fs, c :: cs =>
      if byteRange fixture fpos f.start ≠ byteRange program cpos c.start then false
      else if i ∉ slots ∧ (f.value ≠ c.value ∨
          byteRange fixture f.start f.stop ≠ byteRange program c.start c.stop) then false
      else curve3From fixture program slots (i + 1) f.stop c.stop fs cs
  | _, fpos, cpos, [], _ => fixture.drop fpos == program.drop cpos
  | _, _, _, _ :: _, [] => false

/-- `match_kron_curve_v3`. -/
def matchKronCurveV3 (fixture program : Bytes) : Option CurveParams :=
  let cand := pushUnits program
  if cand.length ≠ 2654 then none
  else if !curve3From fixture program
      [1, 2, 25, 88, 148, 150, 192, 194, 320, 322, 335, 337, 403, 469, 471, 593, 596, 609, 611,
        682, 741, 876, 878, 896, 897, 912, 1042, 1044, 1908, 1911, 1925, 1927, 2612]
      0 0 0 ((pushUnits fixture).take 2654) cand then none
  else
    match groupValues (fun u ↦ leI64 u.value) cand
      [192, 194, 320, 322, 469, 471, 593, 596, 1042, 1044, 1908, 1911] with
    | [some vKasUnits] =>
        match groupValues (·.value) cand [25, 88, 403, 682, 2612] with
        | [creator] =>
            if groupValues (fun u ↦ leI64 u.value) cand
                [148, 150, 335, 337, 609, 611, 876, 878, 1925, 1927] ≠
              [some (program.length : Int)] then none
            else if cand[896]?.map (·.value) ≠ cand[912]?.map (·.value) then none
            else do
              let creatorFeeOwner ← toBytes32 creator
              let tokenCovenantId ← unitBytes32 cand 1
              let graduationKasSompi ← unitI64 cand 741
              let tokenReserve ← unitI64 cand 2
              some
                { tokenCovenantId := ⟨tokenCovenantId.hash⟩
                  vKasUnits
                  graduationKasSompi
                  creatorFeeOwner := creatorFeeOwner.hash
                  tokenReserve }
        | _ => none
    | _ => none

/-! ## `match_pool_build` -/

/-- `POOL_STATE_LEN`. -/
def poolStateLen : Nat := 94

/-- `match_pool_build`. -/
def matchPoolBuild (program poolFixture : Bytes) (creatorSlots : List Nat) : Option PoolParams :=
  if program.length ≠ poolStateLen + poolFixture.length ∨ program[0]? ≠ some 0x6b then none
  else if program[1]? ≠ some 0x08 ∨ program[10]? ≠ some 0x08 ∨ program[19]? ≠ some 0x20 ∨
      program[52]? ≠ some 0x08 ∨ program[61]? ≠ some 0x20 then none
  else do
    let kasReserveUnits ← leI64 (byteRange program 2 10)
    let tokenReserve ← leI64 (byteRange program 11 19)
    let tokenCovenantId ← toBytes32 (byteRange program 20 52)
    let shares ← leI64 (byteRange program 53 61)
    let lpTokenCovenantId ← toBytes32 (byteRange program 62 94)
    let tpl := program.drop poolStateLen
    let fixtureUnits := pushUnits poolFixture
    let candUnits := pushUnits tpl
    if candUnits.length ≠ fixtureUnits.length then none
    else if !lockstepMatches poolFixture fixtureUnits tpl candUnits creatorSlots then none
    else do
      let creator ← (agreedBytes candUnits creatorSlots).bind toBytes32
      some
        { tokenCovenantId := ⟨tokenCovenantId.hash⟩
          kasReserveUnits
          tokenReserve
          shares
          lpTokenCovenantId := ⟨lpTokenCovenantId.hash⟩
          creator := creator.hash }

/-- `match_kron_pool`. -/
def matchKronPool (fixture program : Bytes) : Option PoolParams :=
  matchPoolBuild program fixture [159, 345]

/-- `match_kron_pool_v2`. -/
def matchKronPoolV2 (fixture program : Bytes) : Option PoolParams :=
  matchPoolBuild program fixture [256, 546]

/-- `match_kron_pool_v3`. -/
def matchKronPoolV3 (fixture program : Bytes) : Option PoolParams :=
  matchPoolBuild program fixture [259, 552]

/-- `match_kron_pool_tn_a`. -/
def matchKronPoolTnA (fixture program : Bytes) : Option PoolParams :=
  matchPoolBuild program fixture [136, 148, 295, 307]

end Kascov
