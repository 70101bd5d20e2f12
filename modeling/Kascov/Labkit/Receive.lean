import Kascov.Labkit.Spend
import Kascov.Lib.Fallible
import Kascov.Web.Form

/-!
# From the form to the spend

A Mecenas program that the form emits is decoded with the arguments of the form, and the
spend of `receive` that the lab builds pays what the contract's source asks.  It does so
exactly when the period fits `i64`, which the form does not check, and the funding coin leaves
room for the change.
-/

namespace Kascov.Labkit

open Consensus Sim LittleEndian ScriptNumber Fallible

/-! ## Script numbers -/

/-- The bytes that are or-ed in spell a number. -/
theorem orBytes_toNat {bytes : Bytes} {i : Nat} {v : UInt64} (hlen : i + bytes.length ≤ 8)
    (hv : v.toNat < 2 ^ (8 * i)) :
    (orBytes i v bytes).toNat = v.toNat + 2 ^ (8 * i) * value bytes := by
  induction bytes generalizing i v with
  | nil => rw [orBytes, value_nil, Nat.mul_zero, Nat.add_zero]
  | cons b bytes ih =>
      rw [List.length_cons] at hlen
      have hb := b.toNat_lt
      have hstep : 2 ^ (8 * (i + 1)) = 2 ^ (8 * i) * 2 ^ 8 := by rw [Nat.mul_succ, Nat.pow_add]
      have hbound : 2 ^ (8 * (i + 1)) ≤ 2 ^ 64 := Nat.pow_le_pow_right (by decide) (by omega)
      have hmul := Nat.mul_le_mul_left (2 ^ (8 * i)) (Nat.succ_le_of_lt hb)
      have hturn : (v ||| b.toUInt64 <<< UInt64.ofNat (8 * i)).toNat =
          v.toNat + 2 ^ (8 * i) * b.toNat := by
        rw [UInt64.toNat_or, UInt64.toNat_shiftLeft, UInt8.toNat_toUInt64, UInt64.toNat_ofNat',
          Nat.mod_eq_of_lt (by omega : 8 * i < 2 ^ 64), Nat.mod_eq_of_lt (by omega : 8 * i < 64),
          Nat.shiftLeft_eq, Nat.mul_comm, Nat.mod_eq_of_lt (by rw [Nat.mul_succ] at hmul; omega),
          Nat.or_comm, ← Nat.two_pow_add_eq_or_of_lt hv, Nat.add_comm]
      rw [orBytes, ih (by omega) (by rw [hturn]; rw [Nat.mul_succ] at hmul; omega), hturn,
        value_cons, hstep, Nat.mul_add, Nat.mul_assoc, Nat.add_assoc]

/-- A positive number is read back where `i64` holds it. -/
theorem snumToI64_encode {n : Nat} (hn : n ≠ 0) (h : n < 2 ^ 63) :
    snumToI64 (encode n) = .ok ⟨n, by omega, by omega⟩ := by
  have hlen : (encode n).length ≤ 8 := (@length_encode_le_iff n 7 hn).mpr h
  obtain ⟨head, last, hguarded, hlow, hvalue, -⟩ := guarded_digits hn
  rw [← encode_natCast] at hguarded
  have hread : (orBytes 0 0 (encode n)).toNat = n := by
    rw [orBytes_toNat (by omega) (by decide), hguarded, hvalue, UInt64.toNat_zero, Nat.zero_add]
    exact Nat.one_mul n
  have hsign : ¬(encode n).getLast?.getD 0 &&& 0x80 ≠ 0 := by
    rw [hguarded, getLast?_concat]
    exact of_decide_eq_false hlow
  have hfits : toI64 ((orBytes 0 0 (encode n)).toNat : Int) = some ⟨n, by omega, by omega⟩ := by
    simp only [hread]
    exact dif_pos (by omega)
  simp only [snumToI64]
  rw [if_neg (Nat.not_lt.mpr hlen), if_neg hsign, hfits]
  rfl

/-- A number that `i64` does not hold takes nine bytes at least. -/
theorem snumToI64_wide {n : Nat} (hn : n ≠ 0) (h : 2 ^ 63 ≤ n) (v : I64) :
    snumToI64 (encode n) ≠ .ok v := by
  have hlong : 8 < (encode n).length := by
    refine Nat.lt_of_not_le fun hle ↦ ?_
    have hlt : n < 2 ^ 63 := (@length_encode_le_iff n 7 hn).mp hle
    exact Nat.not_lt.mpr h hlt
  rw [snumToI64, if_pos hlong]
  exact nofun

/-! ## Amounts -/

section

variable {a b : UInt64}

theorem addU64_ok (h : a.toNat + b.toNat < 2 ^ 64) :
    ∃ c : UInt64, c.toNat = a.toNat + b.toNat ∧ addU64 a b = .ok c := by
  refine ⟨a + b, ?_, ?_⟩
  · rw [UInt64.toNat_add, Nat.mod_eq_of_lt h]
  · rw [addU64, if_pos h]
    rfl

theorem subU64_ok (h : b.toNat ≤ a.toNat) :
    ∃ c : UInt64, c.toNat = a.toNat - b.toNat ∧ subU64 a b = .ok c := by
  have hle : b ≤ a := UInt64.le_iff_toNat_le.mpr h
  refine ⟨a - b, UInt64.toNat_sub_of_le _ _ hle, ?_⟩
  rw [subU64, if_pos hle]
  rfl

theorem mulU64_ok (h : a.toNat * b.toNat < 2 ^ 64) :
    ∃ c : UInt64, c.toNat = a.toNat * b.toNat ∧ mulU64 a b = .ok c := by
  refine ⟨a * b, ?_, ?_⟩
  · rw [UInt64.toNat_mul, Nat.mod_eq_of_lt h]
  · rw [mulU64, if_pos h]
    rfl

end

/-- The fee of a compute budget. -/
def feeOf (computeBudget : UInt16) : Nat := 100 * (2 * computeBudget.toNat * 100 + 5000) + 200000

theorem feeOf_lt (computeBudget : UInt16) : feeOf computeBudget < 2 ^ 32 := by
  have hbudget := computeBudget.toNat_lt
  rw [feeOf]
  omega

/-- No step of the fee overflows. -/
theorem networkFee_ok (computeBudget : UInt16) :
    ∃ fee : UInt64, fee.toNat = feeOf computeBudget ∧ networkFee computeBudget = .ok fee := by
  have hbudget := computeBudget.toNat_lt
  have hwide : computeBudget.toUInt64.toNat = computeBudget.toNat := UInt16.toNat_toUInt64 _
  obtain ⟨both, hboth, h1⟩ := @mulU64_ok 2 computeBudget.toUInt64 (by
    rw [hwide, show (2 : UInt64).toNat = 2 from rfl]
    omega)
  rw [hwide, show (2 : UInt64).toNat = 2 from rfl] at hboth
  obtain ⟨grams, hgrams, h2⟩ := @mulU64_ok both 100 (by
    rw [hboth, show (100 : UInt64).toNat = 100 from rfl]
    omega)
  rw [hboth, show (100 : UInt64).toNat = 100 from rfl] at hgrams
  obtain ⟨mass, hmass, h3⟩ := @addU64_ok grams 5000 (by
    rw [hgrams, show (5000 : UInt64).toNat = 5000 from rfl]
    omega)
  rw [hgrams, show (5000 : UInt64).toNat = 5000 from rfl] at hmass
  obtain ⟨price, hprice, h4⟩ := @mulU64_ok 100 mass (by
    rw [hmass, show (100 : UInt64).toNat = 100 from rfl]
    omega)
  rw [hmass, show (100 : UInt64).toNat = 100 from rfl] at hprice
  obtain ⟨fee, hfee, h5⟩ := @addU64_ok price 200000 (by
    rw [hprice, show (200000 : UInt64).toNat = 200000 from rfl]
    omega)
  rw [hprice, show (200000 : UInt64).toNat = 200000 from rfl] at hfee
  have hrun : networkFee computeBudget = .ok fee := by
    simp only [networkFee, h1, h2, h3, h4, h5, bind, Except.bind]
  have hvalue : fee.toNat = feeOf computeBudget := by rw [hfee, feeOf]
  exact ⟨fee, hvalue, hrun⟩

section

variable {funding : SpendableUtxo} {fee : UInt64} (hfee : fee.toNat < 2 ^ 32)
  (hfloor : fee.toNat + 100000 < funding.entry.amount.toNat)

include hfee hfloor

/-- The funding coin lies above the floor. -/
theorem changeValue_eq :
    changeValue funding fee = (addU64 funding.entry.amount 1000).bind (subU64 · fee) := by
  have hbound : fee.toNat + (100000 : UInt64).toNat < 2 ^ 64 := by
    rw [show (100000 : UInt64).toNat = 100000 from rfl]
    omega
  obtain ⟨floor, hsum, hadd⟩ := addU64_ok hbound
  have hover : ¬funding.entry.amount ≤ floor := by
    rw [UInt64.le_iff_toNat_le, hsum, show (100000 : UInt64).toNat = 100000 from rfl]
    omega
  rw [changeValue, hadd]
  exact if_neg hover

/-- The change, where the sum that it is taken from does not overflow. -/
theorem changeValue_ok (hroom : funding.entry.amount.toNat + 1000 < 2 ^ 64) :
    ∃ value : UInt64, value.toNat = funding.entry.amount.toNat + 1000 - fee.toNat ∧
      changeValue funding fee = .ok value := by
  have hbound : funding.entry.amount.toNat + (1000 : UInt64).toNat < 2 ^ 64 := by
    rwa [show (1000 : UInt64).toNat = 1000 from rfl]
  obtain ⟨topped, htopped, hadd⟩ := addU64_ok hbound
  rw [show (1000 : UInt64).toNat = 1000 from rfl] at htopped
  have hle : fee.toNat ≤ topped.toNat := by omega
  obtain ⟨value, hvalue, hsub⟩ := subU64_ok hle
  rw [htopped] at hvalue
  refine ⟨value, hvalue, ?_⟩
  rw [changeValue_eq hfee hfloor, hadd]
  exact hsub

theorem changeValue_panics (hroom : ¬funding.entry.amount.toNat + 1000 < 2 ^ 64) :
    changeValue funding fee = .error .panicked := by
  rw [changeValue_eq hfee hfloor, addU64, show (1000 : UInt64).toNat = 1000 from rfl,
    if_neg hroom]
  rfl

end

/-! ## The source of the contract -/

/-- `ScriptPubKeyP2PK`. -/
def scriptPubKeyP2PK (pk : Bytes) : ScriptPublicKey := ⟨0, 0x20 :: pk ++ [0xac]⟩

/-- `receive` of the contract's source, for an active input. -/
def ReceiveHolds (recipient : Bytes) (pledge period : Int) (mtx : MutableTransaction)
    (active : Nat) : Prop :=
  ∃ input entry payout, mtx.tx.inputs[active]? = some input ∧ mtx.entries[active]? = some entry ∧
    mtx.tx.outputs[0]? = some payout ∧
    period ≤ input.sequence.toNat ∧ payout.scriptPublicKey = scriptPubKeyP2PK recipient ∧
    let minerFee : Int := 1000
    let currentValue : Int := entry.amount.toNat
    let changeValue := currentValue - pledge - minerFee
    if changeValue ≤ pledge + minerFee then (payout.value.toNat : Int) = currentValue - minerFee
    else (payout.value.toNat : Int) = pledge ∧
      ∃ change, mtx.tx.outputs[1]? = some change ∧
        change.scriptPublicKey = entry.scriptPublicKey ∧ (change.value.toNat : Int) = changeValue

/-- A spend of a state coin by `receive`, with what it leaves of a funding coin. -/
structure ReceiveSpend (recipient : Bytes) (pledge period : Nat) (state funding : SpendableUtxo)
    (computeBudget : UInt16) (mtx : MutableTransaction) : Prop where
  spends : mtx.tx.inputs.map (·.previousOutpoint) = [state.outpoint, funding.outpoint] ∧
    mtx.entries = [state.entry, funding.entry]
  /-- Input 0 states the period that was entered. -/
  ages : mtx.tx.inputs.map (·.sequence.toNat) = [period, 0]
  /-- The contract's own source is satisfied. -/
  holds : ReceiveHolds recipient pledge period mtx 0
  /-- The recipient is paid, and the covenant continues exactly where enough remains. -/
  pays : ∃ payout change, payout.scriptPublicKey = scriptPubKeyP2PK recipient ∧
    payout.covenant = none ∧ change.covenant = none ∧
    if state.entry.amount.toNat - pledge - 1000 ≤ pledge + 1000 then
      payout.value.toNat = state.entry.amount.toNat - 1000 ∧ mtx.tx.outputs = [payout, change]
    else payout.value.toNat = pledge ∧ ∃ rest, mtx.tx.outputs = [payout, rest, change] ∧
      rest.value.toNat = state.entry.amount.toNat - pledge - 1000 ∧
      rest.scriptPublicKey = state.entry.scriptPublicKey ∧
      rest.covenant = state.entry.covenantId.map (⟨0, ·⟩)
  /-- What goes in and does not come out is the network fee. -/
  balances : (mtx.entries.map (·.amount.toNat)).sum =
    (mtx.tx.outputs.map (·.value.toNat)).sum + feeOf computeBudget

/-! ## The build of `receive` -/

theorem asU64_natCast {n : Nat} (h : n < 2 ^ 64) : asU64 n = UInt64.ofNat n := by
  have hmod : ((n : Int) % 2 ^ 64).toNat = n := by omega
  rw [asU64, hmod]

/-- What the contract dictates: the recipient is paid, and what remains continues where it is
worth another turn. -/
def receiveOutputs (recipient : Bytes) (pledge : Nat) (entry : UtxoEntry) :
    List TransactionOutput :=
  let value := entry.amount.toNat
  if value - pledge - 1000 ≤ pledge + 1000 then
    [⟨.ofNat (value - 1000), scriptPubKeyP2PK recipient, none⟩]
  else
    [⟨.ofNat pledge, scriptPubKeyP2PK recipient, none⟩,
      ⟨.ofNat (value - pledge - 1000), entry.scriptPublicKey, entry.covenantId.map (⟨0, ·⟩)⟩]

theorem toNat_ofNat_of_lt {n : Nat} (h : n < 2 ^ 64) : (UInt64.ofNat n).toNat = n :=
  UInt64.toNat_ofNat_of_lt' h

theorem receiveOutputs_law {recipient : Bytes} {pledge : Nat} {entry : UtxoEntry}
    (hpledge : pledge < 2 ^ 63) (hvalue : 1000 < entry.amount.toNat) :
    ∃ payout, payout.scriptPublicKey = scriptPubKeyP2PK recipient ∧ payout.covenant = none ∧
      ((entry.amount.toNat - pledge - 1000 ≤ pledge + 1000 ∧
          payout.value.toNat = entry.amount.toNat - 1000 ∧
          receiveOutputs recipient pledge entry = [payout]) ∨
        (¬entry.amount.toNat - pledge - 1000 ≤ pledge + 1000 ∧ payout.value.toNat = pledge ∧
          ∃ rest, receiveOutputs recipient pledge entry = [payout, rest] ∧
            rest.value.toNat = entry.amount.toNat - pledge - 1000 ∧
            rest.scriptPublicKey = entry.scriptPublicKey ∧
            rest.covenant = entry.covenantId.map (⟨0, ·⟩))) := by
  have hamount := entry.amount.toNat_lt
  by_cases hend : entry.amount.toNat - pledge - 1000 ≤ pledge + 1000
  · refine ⟨⟨.ofNat (entry.amount.toNat - 1000), scriptPubKeyP2PK recipient, none⟩, rfl, rfl,
      .inl ⟨hend, ?_, ?_⟩⟩
    · exact toNat_ofNat_of_lt (by omega)
    · rw [receiveOutputs, if_pos hend]
  · refine ⟨⟨.ofNat pledge, scriptPubKeyP2PK recipient, none⟩, rfl, rfl, .inr ⟨hend, ?_,
      ⟨.ofNat (entry.amount.toNat - pledge - 1000), entry.scriptPublicKey,
        entry.covenantId.map (⟨0, ·⟩)⟩, ?_, ?_, rfl, rfl⟩⟩
    · exact toNat_ofNat_of_lt (by omega)
    · rw [receiveOutputs, if_neg hend]
    · exact toNat_ofNat_of_lt (by omega)

section

variable {crates : LabCrates} {keypair : Keypair} {recipient funder : Bytes32}
  {pledge period : Nat} {state funding : SpendableUtxo} {computeBudget : UInt16}

/-- An `i128` holds every step of the contract's sums. -/
theorem dictated_receive
    (hlock : crates.payToPubKeyScript recipient.val = scriptPubKeyP2PK recipient.val)
    (hpledge : 1 ≤ pledge) (hpledge' : pledge < 2 ^ 63) (hperiod : 1 ≤ period)
    (hperiod' : period < 2 ^ 63) (hvalue : 1000 < state.entry.amount.toNat) :
    dictated crates MECENAS (mecenasFields recipient funder (encode pledge) (encode period))
        state .mecenasReceive =
      .ok (.ofNat period, receiveOutputs recipient.val pledge state.entry) := by
  have hamount := state.entry.amount.toNat_lt
  have hrange : ∀ x : Int, -2 ^ 66 ≤ x → x ≤ 2 ^ 66 → Checked.InRange 127 x := by
    intro x hlow hhigh
    exact ⟨le_trans (by norm_num) hlow, lt_of_le_of_lt hhigh (by norm_num)⟩
  have hsane : ¬((pledge : Int) ≤ 0 ∨ (period : Int) < 0) := by omega
  have hrest : orPanic (Checked.sub 127 state.entry.amount.toNat pledge) =
      .ok ((state.entry.amount.toNat : Int) - pledge) := by
    rw [Checked.sub, Checked.narrow_of_inRange (hrange _ (by omega) (by omega))]
    rfl
  have hchange : orPanic (Checked.sub 127 ((state.entry.amount.toNat : Int) - pledge) 1000) =
      .ok ((state.entry.amount.toNat : Int) - pledge - 1000) := by
    rw [Checked.sub, Checked.narrow_of_inRange (hrange _ (by omega) (by omega))]
    rfl
  have hlimit : orPanic (Checked.add 127 pledge 1000) = .ok ((pledge : Int) + 1000) := by
    rw [Checked.add, Checked.narrow_of_inRange (hrange _ (by omega) (by omega))]
    rfl
  rw [dictated]
  refine bind_eq_ok.mpr ⟨recipient.val, rfl, ?_⟩
  refine bind_eq_ok.mpr ⟨encode pledge, rfl, ?_⟩
  refine bind_eq_ok.mpr ⟨_, snumToI64_encode (Nat.ne_of_gt hpledge) hpledge', ?_⟩
  refine bind_eq_ok.mpr ⟨encode period, rfl, ?_⟩
  refine bind_eq_ok.mpr ⟨_, snumToI64_encode (Nat.ne_of_gt hperiod) hperiod', ?_⟩
  rw [if_neg hsane]
  refine bind_eq_ok.mpr ⟨recipient.val, if_pos recipient.property, ?_⟩
  refine bind_eq_ok.mpr ⟨_, hrest, ?_⟩
  refine bind_eq_ok.mpr ⟨_, hchange, ?_⟩
  refine bind_eq_ok.mpr ⟨_, hlimit, ?_⟩
  dsimp only
  rw [hlock, asU64_natCast (by omega : period < 2 ^ 64), asU64_natCast (by omega : pledge < 2 ^ 64)]
  unfold receiveOutputs
  dsimp only
  split
  · rename_i hend
    have hthousand : (1000 : UInt64).toNat ≤ state.entry.amount.toNat := hvalue.le
    obtain ⟨value, hpaid, hsub⟩ := subU64_ok hthousand
    have heq : value = .ofNat (state.entry.amount.toNat - 1000) := by
      rw [← UInt64.ofNat_toNat (x := value), hpaid]
      rfl
    rw [if_pos (by omega), ← heq]
    exact bind_eq_ok.mpr ⟨value, hsub, rfl⟩
  · rename_i hmore
    have hcast : (state.entry.amount.toNat : Int) - pledge - 1000 =
        (state.entry.amount.toNat - pledge - 1000 : Nat) := by omega
    rw [if_neg (by omega), hcast, asU64_natCast (by omega)]
    rfl

/-- The spend that is built, with a change of some value. -/
def receiveMtx (crates : LabCrates) (keypair : Keypair) (recipient : Bytes) (pledge period : Nat)
    (program : Bytes) (state funding : SpendableUtxo) (computeBudget : UInt16)
    (change : UInt64) : MutableTransaction :=
  signedMtx crates keypair
    (unsignedMtx state funding computeBudget (.ofNat period)
      (receiveOutputs recipient pledge state.entry ++
        [⟨change, crates.payToPubKeyScript keypair.xonly.val, none⟩]))
    none ⟨0, selector_zero⟩ program

theorem receive_plan : constrainedPlan MECENAS "receive" =
    .ok (.mecenasReceive, ⟨0, selector_zero⟩, none) := by
  rfl

section

variable {program : Bytes} {fee change : UInt64}
  (hdecoded : (defaultRegistry crates.fixture).decode 0 program =
    ⟨some MECENAS, mecenasFields recipient funder (encode pledge) (encode period)⟩)
  (hfee : networkFee computeBudget = .ok fee)

include hdecoded hfee

/-- The coin of the program is spent, once the change is known. -/
theorem build_receive
    (hlock : crates.payToPubKeyScript recipient.val = scriptPubKeyP2PK recipient.val)
    (hpledge : 1 ≤ pledge) (hpledge' : pledge < 2 ^ 63) (hperiod : 1 ≤ period)
    (hperiod' : period < 2 ^ 63)
    (hspk : state.entry.scriptPublicKey = crates.payToScriptHashScript program)
    (hvalue : 1000 < state.entry.amount.toNat) (hchange : changeValue funding fee = .ok change) :
    buildConstrainedSpend crates keypair program "receive" state funding computeBudget =
      .ok (receiveMtx crates keypair recipient.val pledge period program state funding
        computeBudget change) := by
  have hstate : stateGate crates program state = .ok () := by
    have hover : ¬state.entry.amount ≤ 1000 := by
      rw [UInt64.le_iff_toNat_le]
      exact Nat.not_le.mpr hvalue
    rw [stateGate, if_neg (not_not.mpr hspk), if_neg hover]
  unfold buildConstrainedSpend
  dsimp only
  rw [hdecoded]
  refine bind_eq_ok.mpr ⟨MECENAS, rfl, ?_⟩
  refine bind_eq_ok.mpr ⟨_, receive_plan, ?_⟩
  refine bind_eq_ok.mpr ⟨(), rfl, ?_⟩
  refine bind_eq_ok.mpr ⟨(), hstate, ?_⟩
  refine bind_eq_ok.mpr ⟨fee, hfee, ?_⟩
  refine bind_eq_ok.mpr ⟨change, hchange, ?_⟩
  refine bind_eq_ok.mpr ⟨_, dictated_receive hlock hpledge hpledge' hperiod hperiod' hvalue, ?_⟩
  dsimp only
  rw [receiveMtx]
  rfl

omit hfee in
/-- A period that `i64` does not hold locks every coin of the program. -/
theorem build_receive_wide (hwide : 2 ^ 63 ≤ period) (mtx : MutableTransaction) :
    buildConstrainedSpend crates keypair program "receive" state funding computeBudget ≠
      .ok mtx := by
  intro h
  rw [buildConstrainedSpend, hdecoded] at h
  obtain ⟨template, htemplate, h⟩ := bind_eq_ok.mp h
  obtain rfl := Except.ok.inj htemplate
  obtain ⟨plan, hplan, h⟩ := bind_eq_ok.mp h
  rw [receive_plan] at hplan
  obtain rfl := Except.ok.inj hplan
  obtain ⟨_, _, h⟩ := bind_eq_ok.mp h
  obtain ⟨_, _, h⟩ := bind_eq_ok.mp h
  obtain ⟨_, _, h⟩ := bind_eq_ok.mp h
  obtain ⟨_, _, h⟩ := bind_eq_ok.mp h
  obtain ⟨outputs, houtputs, -⟩ := bind_eq_ok.mp h
  replace houtputs : dictated crates MECENAS
      (mecenasFields recipient funder (encode pledge) (encode period)) state .mecenasReceive =
        .ok outputs := houtputs
  rw [dictated] at houtputs
  obtain ⟨_, _, houtputs⟩ := bind_eq_ok.mp houtputs
  obtain ⟨_, _, houtputs⟩ := bind_eq_ok.mp houtputs
  obtain ⟨_, _, houtputs⟩ := bind_eq_ok.mp houtputs
  obtain ⟨bytes, hbytes, houtputs⟩ := bind_eq_ok.mp houtputs
  obtain ⟨v, hv, -⟩ := bind_eq_ok.mp houtputs
  obtain rfl : encode period = bytes := Except.ok.inj hbytes
  exact snumToI64_wide (by omega) hwide v hv

/-- Without a change nothing is built. -/
theorem build_receive_panics (hchange : changeValue funding fee = .error .panicked)
    (mtx : MutableTransaction) :
    buildConstrainedSpend crates keypair program "receive" state funding computeBudget ≠
      .ok mtx := by
  intro h
  rw [buildConstrainedSpend, hdecoded] at h
  obtain ⟨template, htemplate, h⟩ := bind_eq_ok.mp h
  obtain ⟨plan, -, h⟩ := bind_eq_ok.mp h
  obtain ⟨-, -, h⟩ := bind_eq_ok.mp h
  obtain ⟨-, -, h⟩ := bind_eq_ok.mp h
  obtain ⟨fee', hfee', h⟩ := bind_eq_ok.mp h
  obtain ⟨value, hvalue, -⟩ := bind_eq_ok.mp h
  rw [hfee] at hfee'
  obtain rfl := Except.ok.inj hfee'
  rw [hchange] at hvalue
  cases hvalue

end

theorem receiveMtx_outputs (program : Bytes) (change : UInt64) :
    (receiveMtx crates keypair recipient.val pledge period program state funding computeBudget
      change).tx.outputs = receiveOutputs recipient.val pledge state.entry ++
        [⟨change, crates.payToPubKeyScript keypair.xonly.val, none⟩] :=
  rfl

/-- What is built is a spend by `receive`. -/
theorem receiveMtx_spend {program : Bytes} {change : UInt64} (hpledge : pledge < 2 ^ 63)
    (hperiod : period < 2 ^ 63) (hvalue : 1000 < state.entry.amount.toNat)
    (hchange : change.toNat = funding.entry.amount.toNat + 1000 - feeOf computeBudget)
    (hfunded : feeOf computeBudget ≤ funding.entry.amount.toNat) :
    ReceiveSpend recipient.val pledge period state funding computeBudget
      (receiveMtx crates keypair recipient.val pledge period program state funding computeBudget
        change) := by
  have hage : (UInt64.ofNat period).toNat = period := toNat_ofNat_of_lt (by omega)
  obtain ⟨payout, hlock, hunbound, ⟨hend, hpaid, houts⟩ | ⟨hmore, hpaid, rest, houts, hrest, hspk,
    hbound⟩⟩ := @receiveOutputs_law recipient.val pledge state.entry hpledge hvalue
  · have hall : (receiveMtx crates keypair recipient.val pledge period program state funding
        computeBudget change).tx.outputs =
          [payout, ⟨change, crates.payToPubKeyScript keypair.xonly.val, none⟩] := by
      rw [receiveMtx_outputs, houts]
      rfl
    refine ⟨⟨rfl, rfl⟩, congrArg (fun n ↦ [n, 0]) hage, ?_, ?_, ?_⟩
    · refine ⟨_, state.entry, payout, rfl, rfl, by rw [hall]; rfl, ?_, hlock, ?_⟩
      · exact Int.ofNat_le.mpr hage.ge
      · dsimp only
        rw [if_pos (by omega), hpaid]
        omega
    · refine ⟨payout, ⟨change, crates.payToPubKeyScript keypair.xonly.val, none⟩, hlock, hunbound,
        rfl, ?_⟩
      rw [if_pos hend]
      exact ⟨hpaid, hall⟩
    · change state.entry.amount.toNat + (funding.entry.amount.toNat + 0) = _
      rw [hall]
      change _ = payout.value.toNat + (change.toNat + 0) + _
      omega
  · have hall : (receiveMtx crates keypair recipient.val pledge period program state funding
        computeBudget change).tx.outputs =
          [payout, rest, ⟨change, crates.payToPubKeyScript keypair.xonly.val, none⟩] := by
      rw [receiveMtx_outputs, houts]
      rfl
    refine ⟨⟨rfl, rfl⟩, congrArg (fun n ↦ [n, 0]) hage, ?_, ?_, ?_⟩
    · refine ⟨_, state.entry, payout, rfl, rfl, by rw [hall]; rfl, ?_, hlock, ?_⟩
      · exact Int.ofNat_le.mpr hage.ge
      · dsimp only
        rw [if_neg (by omega), hpaid]
        exact ⟨rfl, rest, by rw [hall]; rfl, hspk, by omega⟩
    · refine ⟨payout, ⟨change, crates.payToPubKeyScript keypair.xonly.val, none⟩, hlock, hunbound,
        rfl, ?_⟩
      rw [if_neg hmore]
      exact ⟨hpaid, rest, hall, hrest, hspk, hbound⟩
    · change state.entry.amount.toNat + (funding.entry.amount.toNat + 0) = _
      rw [hall]
      change _ = payout.value.toNat + (rest.value.toNat + (change.toNat + 0)) + _
      omega

end

/-! ## The law of the form -/

section

variable (crates : LabCrates) (keypair : Keypair) (recipient funder : Bytes32) (amount daa : Text)
  (pledge period : FieldValue) (funding : SpendableUtxo) (computeBudget : UInt16)

/-- What becomes of a Mecenas program that the form emitted from two texts and two keys. -/
structure Survives (program : Bytes) : Prop where
  /-- The registry names it with the fields that were entered. -/
  decoded : (defaultRegistry crates.fixture).decode 0 program =
    ⟨some MECENAS, mecenasFields recipient funder pledge.value period.value⟩
  /-- The lab reads the pledge and the period that the texts state. -/
  pledged : ∃ v : I64, snumToI64 pledge.value = .ok v ∧ v.val = statedSompi amount
  aged : ∃ v : I64, snumToI64 period.value = .ok v ∧ v.val = statedTicks daa
  /-- What the form shows of each field is accepted as the same bytes. -/
  shown : List.Forall₂
    (fun (p : FormParam) (f : Field) ↦ f.name = p.name ∧
      ∃ v, validateField p.kind (prefillFor p.kind (toHex f.value)) = .ok v ∧ v.value = f.value)
    mecenasDump.params (mecenasFields recipient funder pledge.value period.value)
  /-- Every coin of it that holds more than the contract's fee is spent by `receive`. -/
  spent : ∀ state : SpendableUtxo,
    state.entry.scriptPublicKey = crates.payToScriptHashScript program →
    1000 < state.entry.amount.toNat → ∃ mtx,
      buildConstrainedSpend crates keypair program "receive" state funding computeBudget =
        .ok mtx ∧
      ReceiveSpend recipient.val (statedSompi amount) (statedTicks daa) state funding
        computeBudget mtx

/-- The form's values are emitted as such a program. -/
def FormSurvives : Prop :=
  ∃ program, emitFromSkeleton MECENAS
      (mecenasArgs recipient funder pledge.value period.value) = some program ∧
    Survives crates keypair recipient funder amount daa pledge period funding computeBudget program

end

section

variable {amount daa : Text} {pledge period : FieldValue}

/-- A key that is shown is accepted again. -/
theorem shown_hex {kind : FieldKind} (hkind : kind = .pubkey ∨ kind = .hash32) (bytes : Bytes32) :
    ∃ v, validateField kind (prefillFor kind (toHex bytes.val)) = .ok v ∧
      v.value = bytes.val := by
  refine ⟨{ value := bytes.val, display := toHex bytes.val }, ?_, rfl⟩
  have hprefill : prefillFor kind (toHex bytes.val) = toHex bytes.val := by
    rcases hkind with rfl | rfl
    · rfl
    · rfl
  rw [hprefill]
  exact validateField_hex_text hkind bytes

theorem snumDecode_shown (n : Nat) :
    snumDecode ((parseHex (toHex (encode n))).getD []) = n := by
  rw [parseHex_toHex_getD, snumDecode_eq, decode_encode]

/-- Every field of the program is shown as a text that the form takes for the same bytes. -/
theorem shown_again (recipient funder : Bytes32)
    (hamount : validateField .amount amount = .ok pledge)
    (hdaa : validateField .daa daa = .ok period) :
    List.Forall₂
      (fun (p : FormParam) (f : Field) ↦ f.name = p.name ∧
        ∃ v, validateField p.kind (prefillFor p.kind (toHex f.value)) = .ok v ∧
          v.value = f.value)
      mecenasDump.params (mecenasFields recipient funder pledge.value period.value) := by
  obtain ⟨hpos, hlt, hpledge⟩ := validateField_amount hamount
  obtain ⟨hpos', hperiod⟩ := validateField_daa hdaa
  rw [snumEncode_eq] at hpledge hperiod
  refine .cons ⟨rfl, shown_hex (.inl rfl) recipient⟩ (.cons ⟨rfl, shown_hex (.inr rfl) funder⟩
    (.cons ⟨rfl, ?_⟩ (.cons ⟨rfl, ?_⟩ .nil)))
  · dsimp only [prefillFor]
    rw [hpledge, snumDecode_shown]
    exact ⟨_, validateField_amount_text hpos (by omega), snumEncode_eq _⟩
  · dsimp only [prefillFor]
    rw [hperiod, snumDecode_shown]
    exact ⟨_, validateField_daa_text hpos', snumEncode_eq _⟩

/-- **Parameters survive from the form to the spend** exactly when the period fits `i64` and
the change can be summed. -/
theorem form_survives_iff (crates : LabCrates)
    (hlock : ∀ pk : Bytes32, crates.payToPubKeyScript pk.val = scriptPubKeyP2PK pk.val)
    (keypair : Keypair) (recipient funder : Bytes32)
    (hamount : validateField .amount amount = .ok pledge)
    (hdaa : validateField .daa daa = .ok period) (funding : SpendableUtxo)
    (computeBudget : UInt16)
    (hfloor : feeOf computeBudget + 100000 < funding.entry.amount.toNat) :
    FormSurvives crates keypair recipient funder amount daa pledge period funding computeBudget ↔
      statedTicks daa < 2 ^ 63 ∧ funding.entry.amount.toNat + 1000 < 2 ^ 64 := by
  obtain ⟨hpos, hlt, hpledge⟩ := validateField_amount hamount
  obtain ⟨hpos', hperiod⟩ := validateField_daa hdaa
  rw [snumEncode_eq] at hpledge hperiod
  obtain ⟨fee, hfee, hfeeRun⟩ := networkFee_ok computeBudget
  have hsmall : fee.toNat < 2 ^ 32 := hfee ▸ feeOf_lt computeBudget
  rw [← hfee] at hfloor
  constructor
  · rintro ⟨program, -, hsurvives⟩
    constructor
    · -- a wider period is no script number of the lab
      by_contra hwide
      obtain ⟨v, hv, -⟩ := hsurvives.aged
      rw [hperiod] at hv
      exact snumToI64_wide (Nat.ne_of_gt hpos') (Nat.not_lt.mp hwide) v hv
    · by_contra hroom
      have hworth : 1000 < (2000 : UInt64).toNat := by decide
      obtain ⟨mtx, hmtx, -⟩ := hsurvives.spent
        ⟨fabricatedOutpoint, ⟨2000, crates.payToScriptHashScript program, 0, false, none⟩⟩ rfl
        hworth
      have hdecoded := hsurvives.decoded
      rw [hpledge, hperiod] at hdecoded
      exact build_receive_panics hdecoded hfeeRun (changeValue_panics hsmall hfloor hroom) mtx hmtx
  · rintro ⟨hfits, hroom⟩
    obtain ⟨program, hemit⟩ := mecenas_emits recipient funder pledge.value period.value
    have hfits32 : ∀ n : Nat, n ≠ 0 → n < 2 ^ 63 → Fits32 (encode n) := by
      intro n hn h
      have hlen : (encode n).length ≤ 8 := (@length_encode_le_iff n 7 hn).mpr h
      exact lt_of_le_of_lt hlen (by decide)
    have hdecoded := mecenas_decodes crates.fixture
      (hpledge ▸ hfits32 _ (Nat.ne_of_gt hpos) hlt)
      (hperiod ▸ hfits32 _ (Nat.ne_of_gt hpos') hfits) hemit
    refine ⟨program, hemit, hdecoded, ⟨_, hpledge ▸ snumToI64_encode (Nat.ne_of_gt hpos) hlt, rfl⟩,
      ⟨_, hperiod ▸ snumToI64_encode (Nat.ne_of_gt hpos') hfits, rfl⟩,
      shown_again recipient funder hamount hdaa, fun state hspk hvalue ↦ ?_⟩
    obtain ⟨change, hchange, hrun⟩ := changeValue_ok hsmall hfloor hroom
    rw [hpledge, hperiod] at hdecoded
    rw [hfee] at hchange
    exact ⟨_, build_receive hdecoded hfeeRun (hlock recipient) hpos hlt hpos' hfits hspk hvalue hrun,
      receiveMtx_spend hlt hfits hvalue hchange (by omega)⟩

end

/-! ## An instance -/

/-- Crates with the scripts of the chain and hashes of zeros. -/
def plainCrates : LabCrates where
  fixture _ := []
  blake2b32 _ := zeroHash
  payToScriptHashScript _ := ⟨0, 0xaa :: 0x20 :: zeroHash.val ++ [0x87]⟩
  payToPubKeyScript := scriptPubKeyP2PK
  schnorrSignatureHash _ _ := zeroHash

/-- A key whose signatures are zeros. -/
def plainKey : Keypair := ⟨zeroHash, fun _ ↦ ⟨List.replicate 64 0, List.length_replicate⟩⟩

/-- A coin that pays a fee. -/
def plainFunding : SpendableUtxo := ⟨fabricatedOutpoint, ⟨50000000, ⟨0, []⟩, 0, false, none⟩⟩

theorem form_survives_ticks :
    FormSurvives plainCrates plainKey zeroHash zeroHash "1.5".toList "1000".toList
      ⟨snumEncode 150000000, some 150000000, "1.5".toList⟩
      ⟨snumEncode 1000, none, "1000".toList⟩ plainFunding 60 :=
  (form_survives_iff plainCrates (fun _ ↦ rfl) plainKey zeroHash zeroHash (by decide +kernel)
    (by decide +kernel) plainFunding 60 (by decide +kernel)).mpr
      ⟨by decide +kernel, by decide +kernel⟩

/-- **A period that the form takes can lock the coin**: the text has no bound, and the lab reads
eight bytes. -/
theorem form_survives_unbounded :
    ∃ text pledge period, validateField .amount "1.5".toList = .ok pledge ∧
      validateField .daa text = .ok period ∧
      ¬FormSurvives plainCrates plainKey zeroHash zeroHash "1.5".toList text pledge period
        plainFunding 60 := by
  refine ⟨"9223372036854775808".toList, ⟨snumEncode 150000000, some 150000000, "1.5".toList⟩,
    ⟨snumEncode 9223372036854775808, none, "9223372036854775808".toList⟩, by decide +kernel,
    by decide +kernel, ?_⟩
  rintro ⟨program, -, hsurvives⟩
  obtain ⟨v, hv, -⟩ := hsurvives.aged
  rw [snumEncode_eq] at hv
  exact @snumToI64_wide 9223372036854775808 (by decide) (by decide) v hv

end Kascov.Labkit
