import Kascov.Market.Push
import Kascov.Token.Tables

/-!
# Resting-order programs

`match_kcm_order`: the pinned build of a resting order, and the offer a program
of that build commits to.
-/

namespace Kascov

/-- `n` bytes of a number, the first byte first. -/
def bigEndian : Nat → Nat → Bytes
  | 0, _ => []
  | n + 1, v => UInt8.ofNat (v / 2 ^ (8 * n)) :: bigEndian n v

/-- `KCM_ORDER_FIXTURE`, the bytes of `kcm_order_v1.bin`. -/
def kcmOrderFixture : Bytes :=
  [
    0x6b0810270000000000006c76009c63757651a2780400ca9a3ba19a690480b2e60e51a20480b2e60e0700404c948b,
    0x3203a19a69b9cf76d2009c6951bf5151c900012e9302980a939451c900012e9302980a939400012e9302980a9393,
    0xbcaa02000001aa7e01207e7c7e01877e8820b225065f195d4a23294195d22d8ff0966670e412d431c1aacfbd2e9d,
    0x7dc642d60058cd5151c900012e9302980a939451c900012e9302980a93940093bc7e02980a58cd5151c900012e93,
    0x02980a93940093012e9351c900012e9302980a93940093012e9302980a93bc7e7eaa885151c900012e9302980a93,
    0x940051939351c900012e9302980a939400519393012093bc5151c900012e9302980a9394000122939351c900012e,
    0x9302980a939400012293935193bc5151c900012e9302980a9394000124939351c900012e9302980a939400012493,
    0x935893bc5151c900012e9302980a939400012d939351c900012e9302980a939400012d93935193bc51cf20666666,
    0x66666666666666666666666666666666666666666666666666666666668769537955798769527901028769785679,
    0x9c69769169206666666666666666666666666666666666666666666666666666666666666666d0519c697856799c,
    0x69b9be7600a2690480b2e60e7893760480b2e60ea26900c303000020201111111111111111111111111111111111,
    0x1111111111111111111111111111117e01ac7e876900c278a2697575757575757575516776519c63757651a27804,
    0x00ca9a3ba19a690400b6f21f51a269b5760400b6f21fa26976050088526a749f69b9bd08ffffffffffffffff8791,
    0x69b9cf76d2009c6951bf5151c900012e9302980a939451c900012e9302980a939400012e9302980a9393bcaa0200,
    0x0001aa7e01207e7c7e01877e8820b225065f195d4a23294195d22d8ff0966670e412d431c1aacfbd2e9d7dc642d6,
    0x0058cd5151c900012e9302980a939451c900012e9302980a93940093bc7e02980a58cd5151c900012e9302980a93,
    0x940093012e9351c900012e9302980a93940093012e9302980a93bc7e7eaa885151c900012e9302980a9394005193,
    0x9351c900012e9302980a939400519393012093bc5151c900012e9302980a9394000122939351c900012e9302980a,
    0x939400012293935193bc5151c900012e9302980a9394000124939351c900012e9302980a939400012493935893bc,
    0x5151c900012e9302980a939400012d939351c900012e9302980a939400012d93935193bc51cf2066666666666666,
    0x6666666666666666666666666666666666666666666666666687695379557987695279010287697857799c697691,
    0x69206666666666666666666666666666666666666666666666666666666666666666d0519c6900c3030000202011,
    0x111111111111111111111111111111111111111111111111111111111111117e01ac7e876900c2b9bea269206666,
    0x66666666666666666666666666666666666666666666666666666666666600d3c251bea2695a7920111111111111,
    0x11111111111111111111111111111111111111111111111111118769597901038769587952799c69577991692066,
    0x66666666666666666666666666666666666666666666666666666666666666d2519c694d980a5a79827c75012096,
    0x51a25b79827c7501209655a19a69b9cf76d07651a27854a19a6978d25d79827c750120969c6900005279009454a1,
    0x697653799f6376547978d155795279d1c902c60a940051939356795379d1c902c60a9400519393012093bc557952,
    0x79d156795379d1c902c60a94000122939357795479d1c902c60a9400012293935193bc56795379d157795479d1c9,
    0x02c60a94000124939358795579d1c902c60a9400012493935893bc57795479d158795579d1c902c60a9400012d93,
    0x9359795679d1c902c60a9400012d93935193bc5279010087635f795579014195760141937f5479ac696752790101,
    0x87635e79557951957651937fbf547902000001aa7e01207e7c7e01877e8769675279010287635e79557951957651,
    0x937fcf54798769675279010387635e79557951957651937fbf0300002055797e01ac7e8769675279010487635879,
    0x5579d176ba78bb58cd7e086b61736d6f6f6e317eaa5f795779014095760140937f785779d7697575670069686868,
    0x68687800a2695679527993577a7555795193577a757b757b757b757b757b75687653799f6376547978d155795279,
    0xd1c902c60a940051939356795379d1c902c60a9400519393012093bc55795279d156795379d1c902c60a94000122,
    0x939357795479d1c902c60a9400012293935193bc56795379d157795479d1c902c60a94000124939358795579d1c9,
    0x02c60a9400012493935893bc57795479d158795579d1c902c60a9400012d939359795679d1c902c60a9400012d93,
    0x935193bc5279010087635f795579014195760141937f5479ac69675279010187635e79557951957651937fbf5479,
    0x02000001aa7e01207e7c7e01877e8769675279010287635e79557951957651937fcf54798769675279010387635e,
    0x79557951957651937fbf0300002055797e01ac7e87696752790104876358795579d176ba78bb58cd7e086b61736d,
    0x6f6f6e317eaa5f795779014095760140937f785779d769757567006968686868687800a2695679527993577a7555,
    0x795193577a757b757b757b757b757b75687653799f6376547978d155795279d1c902c60a940051939356795379d1,
    0xc902c60a9400519393012093bc55795279d156795379d1c902c60a94000122939357795479d1c902c60a94000122,
    0x93935193bc56795379d157795479d1c902c60a94000124939358795579d1c902c60a9400012493935893bc577954,
    0x79d158795579d1c902c60a9400012d939359795679d1c902c60a9400012d93935193bc5279010087635f79557901,
    0x4195760141937f5479ac69675279010187635e79557951957651937fbf547902000001aa7e01207e7c7e01877e87,
    0x69675279010287635e79557951957651937fcf54798769675279010387635e79557951957651937fbf0300002055,
    0x797e01ac7e87696752790104876358795579d176ba78bb58cd7e086b61736d6f6f6e317eaa5f7957790140957601,
    0x40937f785779d769757567006968686868687800a2695679527993577a7555795193577a757b757b757b757b757b,
    0x75687653799f6376547978d155795279d1c902c60a940051939356795379d1c902c60a9400519393012093bc5579,
    0x5279d156795379d1c902c60a94000122939357795479d1c902c60a9400012293935193bc56795379d157795479d1,
    0xc902c60a94000124939358795579d1c902c60a9400012493935893bc57795479d158795579d1c902c60a9400012d,
    0x939359795679d1c902c60a9400012d93935193bc5279010087635f795579014195760141937f5479ac6967527901,
    0x0187635e79557951957651937fbf547902000001aa7e01207e7c7e01877e8769675279010287635e795579519576,
    0x51937fcf54798769675279010387635e79557951957651937fbf0300002055797e01ac7e87696752790104876358,
    0x795579d176ba78bb58cd7e086b61736d6f6f6e317eaa5f795779014095760140937f785779d76975756700696868,
    0x6868687800a2695679527993577a7555795193577a757b757b757b757b757b756800006079827c75012096009455,
    0xa16976011179827c750120969f63765f797858957658937f51a25f79527951957651937f01117953795895765893,
    0x7f009c9a9b695f797858957658937f0800008a5d78456301a16952796079527958957658937f93537a7501117952,
    0x79012095760120937f011179537951957651937f011179547958957658937f011179557951957651937f01205479,
    0x7e010154797e0108547958cd7e0101547951cd7e7e7e7eb976c97602988a937cbc7eaa02000001aa7e01207e7c7e,
    0x01877e5b795779d3c38855795193577a75777777777b756876011179827c750120969f63765f797858957658937f,
    0x51a25f79527951957651937f011179537958957658937f009c9a9b695f797858957658937f0800008a5d78456301,
    0xa16952796079527958957658937f93537a750111795279012095760120937f011179537951957651937f01117954,
    0x7958957658937f011179557951957651937f012054797e010154797e0108547958cd7e0101547951cd7e7e7e7eb9,
    0x76c97602988a937cbc7eaa02000001aa7e01207e7c7e01877e5b795779d3c38855795193577a75777777777b7568,
    0x76011179827c750120969f63765f797858957658937f51a25f79527951957651937f011179537958957658937f00,
    0x9c9a9b695f797858957658937f0800008a5d78456301a16952796079527958957658937f93537a75011179527901,
    0x2095760120937f011179537951957651937f011179547958957658937f011179557951957651937f012054797e01,
    0x0154797e0108547958cd7e0101547951cd7e7e7e7eb976c97602988a937cbc7eaa02000001aa7e01207e7c7e0187,
    0x7e5b795779d3c38855795193577a75777777777b756876011179827c750120969f63765f797858957658937f51a2,
    0x5f79527951957651937f011179537958957658937f009c9a9b695f797858957658937f0800008a5d78456301a169,
    0x52796079527958957658937f93537a750111795279012095760120937f011179537951957651937f011179547958,
    0x957658937f011179557951957651937f012054797e010154797e0108547958cd7e0101547951cd7e7e7e7eb976c9,
    0x7602988a937cbc7eaa02000001aa7e01207e7c7e01877e5b795779d3c38855795193577a75777777777b75687601,
    0x1179827c750120969f63765f797858957658937f51a25f79527951957651937f011179537958957658937f009c9a,
    0x9b695f797858957658937f0800008a5d78456301a16952796079527958957658937f93537a750111795279012095,
    0x760120937f011179537951957651937f011179547958957658937f011179557951957651937f012054797e010154,
    0x797e0108547958cd7e0101547951cd7e7e7e7eb976c97602988a937cbc7eaa02000001aa7e01207e7c7e01877e5b,
    0x795779d3c38855795193577a75777777777b756856799163537952799c6900011179827c75012096009455a16976,
    0x011279827c750120969f63765f797851957651937f91697651937b75776876011279827c750120969f63765f7978,
    0x51957651937f91697651937b75776876011279827c750120969f63765f797851957651937f91697651937b757768,
    0x76011279827c750120969f63765f797851957651937f91697651937b75776876011279827c750120969f63765f79,
    0x7851957651937f91697651937b757768756875757575757575757575757575757575755176827c75519602980a9c,
    0x6920b225065f195d4a23294195d22d8ff0966670e412d431c1aacfbd2e9d7dc642d600827c75519658cd007e5279,
    0x827c75519658cd53797e7eaa8801205c797e01015c797e01085c7958cd7e01015c7951cd7e7e7e7e007c7e787eaa,
    0x02000001aa7e01207e7c7e01877e2066666666666666666666666666666666666666666666666666666666666666,
    0x6600d3c388757575757575757575757575516776529c637578201111111111111111111111111111111111111111,
    0x111111111111111111111111ac69b9cf76d2009c6951bf5151c900012e9302980a939451c900012e9302980a9394,
    0x00012e9302980a9393bcaa02000001aa7e01207e7c7e01877e8820b225065f195d4a23294195d22d8ff0966670e4,
    0x12d431c1aacfbd2e9d7dc642d60058cd5151c900012e9302980a939451c900012e9302980a93940093bc7e02980a,
    0x58cd5151c900012e9302980a93940093012e9351c900012e9302980a93940093012e9302980a93bc7e7eaa885151,
    0xc900012e9302980a93940051939351c900012e9302980a939400519393012093bc5151c900012e9302980a939400,
    0x0122939351c900012e9302980a939400012293935193bc5151c900012e9302980a9394000124939351c900012e93,
    0x02980a939400012493935893bc5151c900012e9302980a939400012d939351c900012e9302980a939400012d9393,
    0x5193bc51cf2066666666666666666666666666666666666666666666666666666666666666668769537955798769,
    0x5279010287697856799c697691692066666666666666666666666666666666666666666666666666666666666666
    ].flatMap (bigEndian 46) ++
  bigEndian 23 0x66d0519c697856799c697575757575757551676a686868

/-- `KCM_ORDER_PUSHES`. -/
def kcmOrderPushes : Nat := 413

/-- `KCM_ORDER_SLOTS`. -/
def kcmOrderSlots : List Nat :=
  [0, 4, 6, 112, 118, 122, 123, 126, 133, 135, 242, 248, 252, 255, 259, 265, 294, 298, 403, 409]

/-- `KCM_ORD_SIZE`. -/
def kcmOrdSize : Nat := 0

/-- `KCM_ORD_PRICE`. -/
def kcmOrdPrice : List Nat := [4, 6, 122, 123]

/-- `KCM_ORD_MAKER`. -/
def kcmOrdMaker : List Nat := [126, 252, 259, 298]

/-- `KCM_ORD_EXPIRY`. -/
def kcmOrdExpiry : List Nat := [133, 135]

/-- `KCM_ORD_TOKEN`. -/
def kcmOrdToken : List Nat := [112, 118, 242, 248, 255, 265, 294, 403, 409]

structure OrderParams where
  tokenCovenantId : Bytes32
  maker : Bytes32
  priceSompi : Int
  size : Int
  expiryDaa : Int
deriving DecidableEq

/-- `match_kcm_order`. -/
def matchKcmOrder (program : Bytes) : Option OrderParams :=
  let cand := pushUnits program
  if cand.length ≠ kcmOrderPushes then none
  else if !lockstepMatches kcmOrderFixture (pushUnits kcmOrderFixture) program cand kcmOrderSlots
  then none
  else do
    let priceSompi ← agreedI64 cand kcmOrdPrice
    let expiryDaa ← agreedI64 cand kcmOrdExpiry
    let maker ← (agreedBytes cand kcmOrdMaker).bind toBytes32
    let tokenCovenantId ← (agreedBytes cand kcmOrdToken).bind toBytes32
    let size ← cand[kcmOrdSize]?.bind (leI64 ·.value)
    if priceSompi ≤ 0 ∨ size ≤ 0 ∨ expiryDaa ≤ 0 then none
    else some { tokenCovenantId, maker, priceSompi, size, expiryDaa }

/-- The offer the pinned build itself commits to. -/
def fixtureOrder : OrderParams where
  tokenCovenantId := ⟨List.replicate 32 0x66, rfl⟩
  maker := ⟨List.replicate 32 0x11, rfl⟩
  priceSompi := 250000000
  size := 10000
  expiryDaa := 536000000

theorem kcmOrderFixture_length : kcmOrderFixture.length = 4531 := by decide +kernel

theorem pushUnits_fixture_length : (pushUnits kcmOrderFixture).length = kcmOrderPushes := by
  decide +kernel

/-- The sites of each group agree in the pinned build. -/
theorem fixture_groups :
    agreedI64 (pushUnits kcmOrderFixture) kcmOrdPrice = some fixtureOrder.priceSompi ∧
      agreedI64 (pushUnits kcmOrderFixture) kcmOrdExpiry = some fixtureOrder.expiryDaa ∧
      (agreedBytes (pushUnits kcmOrderFixture) kcmOrdMaker).bind toBytes32 =
        some fixtureOrder.maker ∧
      (agreedBytes (pushUnits kcmOrderFixture) kcmOrdToken).bind toBytes32 =
        some fixtureOrder.tokenCovenantId ∧
      (pushUnits kcmOrderFixture)[kcmOrdSize]?.bind (leI64 ·.value) = some fixtureOrder.size := by
  decide +kernel

/-- The fixture is the build. -/
theorem matchKcmOrder_fixture : matchKcmOrder kcmOrderFixture = some fixtureOrder := by
  obtain ⟨hprice, hexpiry, hmaker, htoken, hsize⟩ := fixture_groups
  have hlockstep : lockstepMatches kcmOrderFixture (pushUnits kcmOrderFixture) kcmOrderFixture
      (pushUnits kcmOrderFixture) kcmOrderSlots = true := lockstepFrom_self _ _ _ _ _
  unfold matchKcmOrder
  dsimp only
  rw [if_neg (not_not.mpr pushUnits_fixture_length), hlockstep, Bool.not_true,
    if_neg Bool.false_ne_true, hprice, hexpiry, hmaker, htoken, hsize]
  rfl

end Kascov
