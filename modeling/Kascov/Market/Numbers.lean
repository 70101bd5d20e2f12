import Kascov.Kcc1.State
import Kascov.Market.Exact
import Kascov.Orders.Program

/-!
# Published constants and script numbers

A matcher reads an integer slot as a plain little-endian number.  A script
number keeps its sign in the top bit of its last byte, and an argument is spelled
with as few bytes as it needs, while a state field has a fixed width.  A
published constant is the script number of its push as long as that bit is
clear.
-/

namespace Kascov

/-! ## Script numbers -/

/-- The number the script engine reads of a byte string, whatever its width. -/
def scriptNumber (bytes : Bytes) : Int :=
  match bytes.getLast? with
  | none => 0
  | some last =>
      let magnitude : Int := scriptMagnitude bytes.dropLast last
      if last &&& 0x80 ≠ 0 then -magnitude else magnitude

/-- The sign bit of the last byte is set. -/
def signBit (bytes : Bytes) : Bool := bytes.getLast?.any (· &&& 0x80 ≠ 0)

theorem sign_clear_iff : ∀ b : UInt8, b &&& 0x80 = 0 ↔ b.toNat < 128 := by
  have h : ∀ x : BitVec 8, x &&& 0x80#8 = 0#8 ↔ x.toNat < 128 := by decide
  intro b
  exact Iff.trans ⟨fun e ↦ congrArg UInt8.toBitVec e, fun e ↦ UInt8.toBitVec_inj.mp e⟩
    (h b.toBitVec)

theorem magnitude_bits (b : UInt8) : (b &&& 0x7f).toNat = b.toNat % 128 := by
  rw [UInt8.toNat_and]
  exact Nat.and_two_pow_sub_one_eq_mod b.toNat 7

theorem leNat_append (head : Bytes) (last : UInt8) :
    leNat (head ++ [last]) = leNat head + 2 ^ (8 * head.length) * last.toNat := by
  induction head with
  | nil => simp [leNat]
  | cons b head ih =>
      have hstep : leNat (b :: head ++ [last]) = b.toNat + 2 ^ 8 * leNat (head ++ [last]) := rfl
      have hcons : leNat (b :: head) = b.toNat + 2 ^ 8 * leNat head := rfl
      rw [hstep, hcons, ih, List.length_cons, Nat.mul_succ, Nat.pow_add]
      ring

theorem leNat_lt (bytes : Bytes) : leNat bytes < 2 ^ (8 * bytes.length) := by
  induction bytes with
  | nil => exact Nat.one_pos
  | cons b bytes ih =>
      have hcons : leNat (b :: bytes) = b.toNat + 2 ^ 8 * leNat bytes := rfl
      have hb := b.toNat_lt
      rw [hcons, List.length_cons, Nat.mul_succ, Nat.pow_add]
      omega

/-- Without a sign bit a script number is the little-endian number. -/
theorem scriptMagnitude_eq {head : Bytes} {last : UInt8} (h : last.toNat < 128) :
    scriptMagnitude head last = leNat (head ++ [last]) := by
  rw [scriptMagnitude, magnitude_bits, Nat.mod_eq_of_lt h, leNat_append]

/-! ## What a match reads -/

/-- A push that is read as a constant: at most eight bytes, no sign in the eighth,
and the script number they spell where the sign bit is clear. -/
structure ReadNumber (bytes : Bytes) (n : Int) : Prop where
  nonempty : bytes ≠ []
  width : bytes.length ≤ 8
  unsigned : bytes.length = 8 → signBit bytes = false
  nonneg : 0 ≤ n
  number : signBit bytes = false → scriptNumber bytes = n
  minimal : signBit bytes = false → minimalNumber bytes = true → decodeArgInt bytes = some n

theorem readNumber_of_leI64 {bytes : Bytes} {n : Int} (h : leI64 bytes = some n) :
    ReadNumber bytes n := by
  unfold leI64 at h
  split at h
  · cases h
  · rename_i hwidth
    obtain ⟨hne, hle⟩ := not_or.mp hwidth
    have hle := Nat.not_lt.mp hle
    split at h
    · rename_i hlt
      obtain rfl := Option.some.inj h
      obtain ⟨head, last, rfl⟩ := List.eq_nil_or_concat bytes |>.resolve_left hne
      rw [List.concat_eq_append] at *
      have hlast : (head ++ [last]).getLast? = some last := List.getLast?_concat
      have hhead : (head ++ [last]).dropLast = head := List.dropLast_concat
      have hclear : signBit (head ++ [last]) = false ↔ last.toNat < 128 := by
        rw [signBit, hlast, ← sign_clear_iff]
        simp
      have hsign : last.toNat < 128 → ¬last &&& 0x80 ≠ 0 :=
        fun hl ↦ not_not.mpr ((sign_clear_iff last).mpr hl)
      refine ⟨hne, hle, fun height ↦ hclear.mpr ?_, Int.natCast_nonneg _, fun hs ↦ ?_,
        fun hs hmin ↦ ?_⟩
      · have hseven : head.length = 7 := by
          rw [List.length_append, List.length_singleton] at height
          omega
        rw [leNat_append, hseven] at hlt
        omega
      · rw [scriptNumber, hlast]
        dsimp only
        rw [if_neg (hsign (hclear.mp hs)), hhead, scriptMagnitude_eq (hclear.mp hs)]
      · rw [decodeArgInt, hlast]
        dsimp only
        rw [hmin, Bool.not_true, if_neg Bool.false_ne_true, if_neg (by omega), hhead,
          scriptMagnitude_eq (hclear.mp hs), if_pos hlt, if_neg (hsign (hclear.mp hs))]
    · cases h

/-- The sites of a program push the constants. -/
def NumbersRead (program : Bytes) (sites : List (Nat × Int)) : Prop :=
  ∀ site ∈ sites, ∃ u, (pushUnits program)[site.1]? = some u ∧ ReadNumber u.value site.2

/-- The integer constants a curve publishes, with their sites. -/
def curveSites (pin : SkeletonBuild) (params : CurveParams) : List (Nat × Int) :=
  pin.vkas.map (·, params.vKasUnits) ++
    [(pin.tokenReserve, params.tokenReserve), (pin.graduation, params.graduationKasSompi)]

/-- Those of a resting order. -/
def orderSites (order : OrderParams) : List (Nat × Int) :=
  kcmOrdPrice.map (·, order.priceSompi) ++ kcmOrdExpiry.map (·, order.expiryDaa) ++
    [(kcmOrdSize, order.size)]

theorem exists_readNumber {cand : List PushUnit} {i : Nat} {n : Int}
    (h : ∃ v, (cand.map (·.value))[i]? = some v ∧ leI64 v = some n) :
    ∃ u, cand[i]? = some u ∧ ReadNumber u.value n := by
  obtain ⟨u, hu, hn⟩ := (exists_unit (leI64 · = some n)).mpr h
  exact ⟨u, hu, readNumber_of_leI64 hn⟩

theorem matchSkeleton_numbersRead {pin : SkeletonBuild} (haudited : pin.Audited) {program : Bytes}
    {params : CurveParams} (h : matchSkeleton pin program = some params) :
    NumbersRead program (curveSites pin params) := by
  obtain ⟨values, hreplaces, hreads⟩ := (matchSkeleton_eq_some haudited).mp h
  obtain ⟨-, -, rfl⟩ := (replaces_iff haudited.gaps).mp hreplaces
  intro site hsite
  rcases List.mem_append.mp hsite with hsite | hsite
  · obtain ⟨i, hi, rfl⟩ := List.mem_map.mp hsite
    exact exists_readNumber (hreads.vkas.2 i hi)
  · rcases List.mem_cons.mp hsite with rfl | hsite
    · exact exists_readNumber hreads.tokenReserve
    · obtain rfl := List.mem_singleton.mp hsite
      exact exists_readNumber hreads.graduation

theorem matchKcmOrder_numbersRead {program : Bytes} {order : OrderParams}
    (h : matchKcmOrder program = some order) : NumbersRead program (orderSites order) := by
  have hguards : (pushUnits program).length = kcmOrderPushes ∧
      agreedI64 (pushUnits program) kcmOrdPrice = some order.priceSompi ∧
      agreedI64 (pushUnits program) kcmOrdExpiry = some order.expiryDaa ∧
      unitI64 (pushUnits program) kcmOrdSize = some order.size := by
    simp only [matchKcmOrder, Option.bind_eq_bind, Option.ite_none_left_eq_some,
      Option.bind_eq_some_iff, ne_eq, not_not, Option.some.injEq] at h
    obtain ⟨hlen, -, price, hprice, expiry, hexpiry, maker, -, token, -, size, hsize, -, rfl⟩ := h
    exact ⟨hlen, hprice, hexpiry, Option.bind_eq_some_iff.mpr hsize⟩
  obtain ⟨hlen, hprice, hexpiry, hsize⟩ := hguards
  have hsites : ∀ idx : List Nat, (∀ i ∈ idx, i < 413) →
      ∀ i ∈ idx, i < (pushUnits program).length := fun idx hidx i hi ↦ hlen ▸ hidx i hi
  have hprices := ((agreedI64_eq_some (hsites kcmOrdPrice (by decide))).mp hprice).2
  have hexpiries := ((agreedI64_eq_some (hsites kcmOrdExpiry (by decide))).mp hexpiry).2
  intro site hsite
  rcases List.mem_append.mp hsite with hsite | hsite
  · rcases List.mem_append.mp hsite with hsite | hsite
    · obtain ⟨i, hi, rfl⟩ := List.mem_map.mp hsite
      exact exists_readNumber (hprices i hi)
    · obtain ⟨i, hi, rfl⟩ := List.mem_map.mp hsite
      exact exists_readNumber (hexpiries i hi)
  · obtain rfl := List.mem_singleton.mp hsite
    exact exists_readNumber (unitI64_eq_some.mp hsize)

/-- **Published constants are the numbers of their pushes**, for every curve
generation and for resting orders. -/
theorem published_numbers_read {pin : SkeletonBuild} (haudited : pin.Audited) {fixture3 : Bytes}
    (haudited3 : (kronCurveV3Build fixture3).Audited) (program : Bytes) :
    (∀ params, matchSkeleton pin program = some params →
        NumbersRead program (curveSites pin params)) ∧
      (∀ params, matchKronCurveV3 fixture3 program = some params →
        NumbersRead program (curveSites (kronCurveV3Build fixture3) params)) ∧
      ∀ order, matchKcmOrder program = some order → NumbersRead program (orderSites order) := by
  refine ⟨fun params h ↦ matchSkeleton_numbersRead haudited h, fun params h ↦ ?_,
    fun order h ↦ matchKcmOrder_numbersRead h⟩
  have hpushes : (pushUnits fixture3).length = 2654 := haudited3.pushes
  rw [matchKronCurveV3_eq hpushes] at h
  exact matchSkeleton_numbersRead haudited3 h

theorem emptyPushes_audited :
    (kronCurveV3Build (flatten (List.replicate 2654 ⟨[], [0x00], []⟩) ++ [])).Audited where
  pushes := emptyPushes_length
  sites := by decide
  gaps := by
    refine plainGaps_flatten ?_ ?_ silent_nil
    · intro seg hseg b hb
      rw [(List.mem_replicate.mp hseg).2] at hb
      cases hb
    · intro seg hseg
      rw [(List.mem_replicate.mp hseg).2]
      exact .zero

/-- The offer of the pinned order. -/
theorem fixture_numbersRead : NumbersRead kcmOrderFixture (orderSites fixtureOrder) :=
  (published_numbers_read smallPin_audited emptyPushes_audited kcmOrderFixture).2.2 fixtureOrder
    matchKcmOrder_fixture

theorem fixture_size_push :
    (pushUnits kcmOrderFixture)[kcmOrdSize]?.map (·.value) =
      some [0x10, 0x27, 0x00, 0x00, 0x00, 0x00, 0x00, 0x00] := by decide +kernel

/-- The size of the pinned order is a state field of eight bytes: published as
10000, and no minimal script number. -/
theorem padded_size_published :
    matchKcmOrder kcmOrderFixture = some fixtureOrder ∧ fixtureOrder.size = 10000 ∧
      (pushUnits kcmOrderFixture)[kcmOrdSize]?.map (decodeArgInt ·.value) = some none := by
  refine ⟨matchKcmOrder_fixture, rfl, ?_⟩
  have h : (pushUnits kcmOrderFixture)[kcmOrdSize]?.map (decodeArgInt ·.value) =
      ((pushUnits kcmOrderFixture)[kcmOrdSize]?.map (·.value)).map decodeArgInt := by
    rw [Option.map_map]
    rfl
  rw [h, fixture_size_push]
  decide

end Kascov
