import Kascov.Lib.Fallible
import Kascov.Web.Hex
import Kascov.Web.Wallet

/-!
# The rail around signing

What the comparison of `signFunding` proves about the transaction that it compares, and
when the text that it returns is a text of that transaction.
-/

namespace Kascov

open Json

/-! ## The comparison is sameness -/

theorem deepEqualItems_iff (xs ys : List JsValue) : deepEqualItems xs ys = true ↔
    ∀ (i : Nat) x y, xs[i]? = some x → ys[i]? = some y → deepEqual x y = true := by
  induction xs generalizing ys with
  | nil => simp [deepEqualItems]
  | cons x xs ih =>
      cases ys with
      | nil => simp [deepEqualItems]
      | cons y ys =>
          rw [deepEqualItems, Bool.and_eq_true, ih]
          constructor
          · rintro ⟨hx, hxs⟩ (_ | i) a b ha hb
            · obtain rfl := Option.some.inj ha
              obtain rfl := Option.some.inj hb
              exact hx
            · exact hxs i a b ha hb
          · exact fun h ↦ ⟨h 0 x y rfl rfl, fun i ↦ h (i + 1)⟩

theorem deepEqualFields_iff (xs ys : List (String × JsValue)) :
    deepEqualFields xs ys = true ↔
      ∀ f ∈ xs, ∃ y, ys.lookup f.1 = some y ∧ deepEqual f.2 y = true := by
  induction xs with
  | nil => simp [deepEqualFields]
  | cons f xs ih =>
      obtain ⟨k, x⟩ := f
      rw [deepEqualFields, Bool.and_eq_true, ih, List.forall_mem_cons]
      refine and_congr_left fun _ ↦ ?_
      cases ys.lookup k <;> simp

/-- Objects of one size, the fields of the one among the fields of the other, have the same
keys. -/
theorem lookup_isSome_eq {xs ys : List (String × JsValue)} (hxs : (xs.map Prod.fst).Nodup)
    (hlen : xs.length = ys.length)
    (hsub : ∀ f ∈ xs, (ys.lookup f.1).isSome) (k : String) :
    (xs.lookup k).isSome = (ys.lookup k).isSome := by
  have hsubset : xs.map Prod.fst ⊆ ys.map Prod.fst := by
    intro j hj
    obtain ⟨f, hf, rfl⟩ := List.mem_map.mp hj
    exact lookup_isSome_iff.mp (hsub f hf)
  have hperm : (xs.map Prod.fst).Perm (ys.map Prod.fst) :=
    (hxs.subperm hsubset).perm_of_length_le (by simp [hlen])
  rw [Bool.eq_iff_iff, lookup_isSome_iff, lookup_isSome_iff]
  exact hperm.mem_iff

/-- Objects with the same keys have one size. -/
theorem length_eq_of_lookup_isSome {xs ys : List (String × JsValue)}
    (hxs : (xs.map Prod.fst).Nodup) (hys : (ys.map Prod.fst).Nodup)
    (h : ∀ k, (xs.lookup k).isSome = (ys.lookup k).isSome) : xs.length = ys.length := by
  have hperm : (xs.map Prod.fst).Perm (ys.map Prod.fst) := by
    rw [List.perm_ext_iff_of_nodup hxs hys]
    intro k
    rw [← lookup_isSome_iff, ← lookup_isSome_iff, h k]
  simpa using hperm.length_eq

/-- The comparison of two values is whether they are the same. -/
theorem deepEqual_iff (a b : JsValue) (ha : a.distinct = true) (hb : b.distinct = true) :
    deepEqual a b = true ↔ Same a b := by
  induction a using Json.ind generalizing b with
  | null =>
      constructor
      · intro h
        cases b <;> simp_all [deepEqual, Same.null]
      · rintro ⟨⟩
        rfl
  | bool x =>
      constructor
      · intro h
        cases b <;> simp_all [deepEqual, Same.bool]
      · rintro ⟨⟩
        simp [deepEqual]
  | num n =>
      constructor
      · intro h
        cases b <;> simp_all [deepEqual, Same.num]
      · rintro ⟨⟩
        simp [deepEqual]
  | str s =>
      constructor
      · intro h
        cases b <;> simp_all [deepEqual, Same.str]
      · rintro ⟨⟩
        simp [deepEqual]
  | arr xs ih =>
      rw [distinct_arr] at ha
      constructor
      · intro h
        obtain _ | _ | _ | _ | ys | _ := b <;> simp only [deepEqual, Bool.false_eq_true] at h
        rw [Bool.and_eq_true, beq_iff_eq, deepEqualItems_iff] at h
        refine .arr h.1 fun i x y hx hy ↦ ?_
        have hmx := List.mem_of_getElem? hx
        have hmy := List.mem_of_getElem? hy
        exact (ih x hmx y (ha x hmx) ((distinct_arr ys).mp hb y hmy)).mp (h.2 i x y hx hy)
      · rintro (_ | _ | _ | _ | ⟨hlen, each⟩ | _)
        rename_i ys
        rw [deepEqual, Bool.and_eq_true, beq_iff_eq, deepEqualItems_iff]
        refine ⟨hlen, fun i x y hx hy ↦ ?_⟩
        have hmx := List.mem_of_getElem? hx
        have hmy := List.mem_of_getElem? hy
        exact (ih x hmx y (ha x hmx) ((distinct_arr ys).mp hb y hmy)).mpr (each i x y hx hy)
  | obj xs ih =>
      obtain ⟨hkeys, hxs⟩ := (distinct_obj xs).mp ha
      constructor
      · intro h
        obtain _ | _ | _ | _ | _ | ys := b <;> simp only [deepEqual, Bool.false_eq_true] at h
        rw [Bool.and_eq_true, beq_iff_eq, deepEqualFields_iff] at h
        refine .obj (lookup_isSome_eq hkeys h.1 fun f hf ↦ ?_) fun k x y hx hy ↦ ?_
        · obtain ⟨y, hy, -⟩ := h.2 f hf
          rw [hy]
          rfl
        · have hmx := mem_of_lookup hx
          obtain ⟨y', hy', heq⟩ := h.2 _ hmx
          obtain rfl := Option.some.inj (hy'.symm.trans hy)
          exact (ih _ hmx y' (hxs _ hmx)
            (((distinct_obj ys).mp hb).2 _ (mem_of_lookup hy))).mp heq
      · rintro (_ | _ | _ | _ | _ | ⟨keys, each⟩)
        rename_i ys
        obtain ⟨hkeys', hys⟩ := (distinct_obj ys).mp hb
        rw [deepEqual, Bool.and_eq_true, beq_iff_eq, deepEqualFields_iff]
        refine ⟨length_eq_of_lookup_isSome hkeys hkeys' keys, fun f hf ↦ ?_⟩
        have hx := lookup_of_mem hkeys hf
        obtain ⟨y, hy⟩ := Option.isSome_iff_exists.mp ((keys f.1).symm.trans (by rw [hx]; rfl))
        exact ⟨y, hy, (ih f hf y (hxs f hf) (hys _ (mem_of_lookup hy))).mpr (each _ _ _ hx hy)⟩

/-! ## Fields apart from one -/

section Without

variable {fs gs : List (String × JsValue)} {key : String}

theorem distinct_filter (p : String × JsValue → Bool) (h : (obj fs).distinct = true) :
    (obj (fs.filter p)).distinct = true := by
  obtain ⟨hkeys, hfs⟩ := (distinct_obj fs).mp h
  refine (distinct_obj _).mpr ⟨hkeys.sublist (List.filter_sublist.map _), fun f hf ↦ ?_⟩
  exact hfs f (List.mem_of_mem_filter hf)

/-- The comparison of two objects without a field says nothing about that field and about
`__proto__`, and that all others are the same. -/
theorem deepEqual_without_iff (hfs : (obj fs).distinct = true) (hgs : (obj gs).distinct = true) :
    deepEqual (obj (fs.filter fun f ↦ f.1 ≠ key ∧ f.1 ≠ "__proto__"))
        (obj (gs.filter fun f ↦ f.1 ≠ key ∧ f.1 ≠ "__proto__")) = true ↔
      ∀ k, k ≠ key → k ≠ "__proto__" → SameField (fs.lookup k) (gs.lookup k) := by
  rw [deepEqual_iff _ _ (distinct_filter _ hfs) (distinct_filter _ hgs), same_obj_iff]
  refine forall_congr' fun k ↦ ?_
  rw [lookup_filter (fun j ↦ decide (j ≠ key ∧ j ≠ "__proto__")),
    lookup_filter (fun j ↦ decide (j ≠ key ∧ j ≠ "__proto__"))]
  by_cases hk : k ≠ key ∧ k ≠ "__proto__"
  · rw [if_pos (decide_eq_true hk), if_pos (decide_eq_true hk)]
    exact ⟨fun h _ _ ↦ h, fun h ↦ h hk.1 hk.2⟩
  · rw [if_neg (by simpa using hk), if_neg (by simpa using hk)]
    exact iff_of_true .none fun h h' ↦ absurd ⟨h, h'⟩ hk

end Without

/-! ## The signature of a funding input -/

/-- The text of one push of 65 bytes. -/
def SinglePush (sig : String) : Prop :=
  ∃ data : Bytes, data.length = 65 ∧ hexBytes sig.toList = some (0x41 :: data)

/-- A text of bytes is pairs of digits. -/
theorem hexBytes_eq_some_iff (n : Nat) (cs : Text) :
    (∃ data, data.length = n ∧ hexBytes cs = some data) ↔
      cs.length = 2 * n ∧ ∀ c ∈ cs, (hexValue c).isSome := by
  induction cs using hexBytes.induct generalizing n with
  | case1 =>
      constructor
      · rintro ⟨data, hlen, h⟩
        obtain rfl := Option.some.inj h
        exact ⟨by rw [← hlen]; rfl, by simp⟩
      · rintro ⟨hlen, -⟩
        exact ⟨[], by rw [List.length_nil] at hlen ⊢; omega, rfl⟩
  | case2 c =>
      simp only [hexBytes, reduceCtorEq, and_false, exists_false, List.length_singleton, false_iff]
      omega
  | case3 a b rest high low hlow hhigh ih =>
      simp only [hexBytes, hhigh, hlow, List.length_cons, List.forall_mem_cons, Option.isSome_some,
        true_and]
      cases n with
      | zero =>
          refine iff_of_false ?_ (by omega)
          rintro ⟨data, hlen, h⟩
          obtain ⟨tail, -, rfl⟩ := Option.map_eq_some_iff.mp h
          simp at hlen
      | succ n =>
          have hrest := ih n
          constructor
          · rintro ⟨data, hlen, h⟩
            obtain ⟨tail, htail, rfl⟩ := Option.map_eq_some_iff.mp h
            obtain ⟨h2, hall⟩ := hrest.mp ⟨tail, Nat.succ.inj hlen, htail⟩
            exact ⟨by omega, hall⟩
          · rintro ⟨hlen, hall⟩
            obtain ⟨tail, htail, h⟩ := hrest.mpr ⟨by omega, hall⟩
            exact ⟨_ :: tail, congrArg Nat.succ htail, Option.map_eq_some_iff.mpr ⟨tail, h, rfl⟩⟩
  | case4 a b rest h =>
      refine iff_of_false ?_ ?_
      · rintro ⟨data, -, hd⟩
        rw [hexBytes] at hd
        split at hd
        · next high low ha hb => exact h high low ha hb
        · cases hd
      · rintro ⟨-, hall⟩
        obtain ⟨high, ha⟩ := Option.isSome_iff_exists.mp (hall a (by simp))
        obtain ⟨low, hb⟩ := Option.isSome_iff_exists.mp (hall b (by simp))
        exact h high low ha hb

theorem toNat_toLower (c : Char) :
    c.toLower.toNat = if 65 ≤ c.toNat ∧ c.toNat ≤ 90 then c.toNat + 32 else c.toNat := by
  rw [Char.toLower]
  by_cases h : 65 ≤ c.toNat ∧ c.toNat ≤ 90
  · have h' : c.val ≥ 'A'.val ∧ c.val ≤ 'Z'.val := h
    rw [dif_pos h', if_pos h]
    show (c.val + 32).toNat = c.toNat + 32
    have hlt : c.toNat < 2 ^ 32 - 32 := by omega
    rw [UInt32.toNat_add]
    exact Nat.mod_eq_of_lt (by simpa using Nat.add_lt_of_lt_sub hlt)
  · have h' : ¬ (c.val ≥ 'A'.val ∧ c.val ≤ 'Z'.val) := h
    rw [dif_neg h', if_neg h]

theorem hexValue_eq (c : Char) : hexValue c =
    if 48 ≤ c.toNat ∧ c.toNat ≤ 57 then some (c.toNat - 48)
    else if 97 ≤ c.toNat ∧ c.toNat ≤ 102 then some (c.toNat - 87)
    else if 65 ≤ c.toNat ∧ c.toNat ≤ 70 then some (c.toNat - 55)
    else none := rfl

theorem isHex_toLower (c : Char) :
    (('0' ≤ c.toLower && c.toLower ≤ '9') || ('a' ≤ c.toLower && c.toLower ≤ 'f')) =
      (hexValue c).isSome := by
  have hchar : (('0' ≤ c.toLower && c.toLower ≤ '9') || ('a' ≤ c.toLower && c.toLower ≤ 'f')) =
      decide ((48 ≤ c.toLower.toNat ∧ c.toLower.toNat ≤ 57) ∨
        (97 ≤ c.toLower.toNat ∧ c.toLower.toNat ≤ 102)) := by
    simp [Bool.decide_or, Bool.decide_and, Char.le_def, UInt32.le_iff_toNat_le]
  rw [hchar, toNat_toLower, hexValue_eq]
  split_ifs <;> simp <;> omega

theorem toLower_eq_iff (c d : Char) (h : 48 ≤ d.toNat ∧ d.toNat ≤ 57) :
    c.toLower = d ↔ hexValue c = some (d.toNat - 48) := by
  rw [← Char.toNat_inj, toNat_toLower, hexValue_eq]
  split_ifs <;> simp <;> omega


theorem hexValue_lt {c : Char} {n : Nat} (h : hexValue c = some n) : n < 16 := by
  rw [hexValue_eq] at h
  split_ifs at h <;> simp at h <;> omega

/-- The first byte of a text is the one that its first two digits give. -/
theorem hexBytes_cons_iff (a b : Char) (rest : Text) (data : Bytes) :
    hexBytes (a :: b :: rest) = some (0x41 :: data) ↔
      a.toLower = '4' ∧ b.toLower = '1' ∧ hexBytes rest = some data := by
  rw [toLower_eq_iff a '4' (by decide), toLower_eq_iff b '1' (by decide), hexBytes]
  constructor
  · intro h
    split at h
    · next high low ha hb =>
        obtain ⟨tail, hrest, heq⟩ := Option.map_eq_some_iff.mp h
        obtain ⟨hbyte, rfl⟩ := List.cons.inj heq
        have hhigh := hexValue_lt ha
        have hlow := hexValue_lt hb
        have hnat : 16 * high + low = 65 := by
          have h' := congrArg UInt8.toNat hbyte
          rw [UInt8.toNat_ofNat'] at h'
          change _ = 65 at h'
          omega
        obtain rfl : high = 4 := by omega
        obtain rfl : low = 1 := by omega
        exact ⟨ha, hb, hrest⟩
    · cases h
  · rintro ⟨ha, hb, hrest⟩
    rw [ha, hb, hrest]
    rfl

theorem fundingSigRe_iff (sig : String) : fundingSigRe sig.toLower = true ↔ SinglePush sig := by
  rw [fundingSigRe, SinglePush, String.toLower, String.toList_map]
  obtain _ | ⟨a, _ | ⟨b, rest⟩⟩ := sig.toList
  · simp [hexBytes]
  · simp [hexBytes]
  · simp only [List.map_cons, hexBytes_cons_iff]
    split
    · next digits heq =>
        obtain ⟨ha, heq⟩ := List.cons.inj heq
        obtain ⟨hb, rfl⟩ := List.cons.inj heq
        have hall : (∀ x ∈ rest, (('0' ≤ x.toLower && x.toLower ≤ '9') ||
            ('a' ≤ x.toLower && x.toLower ≤ 'f')) = true) ↔
              ∀ x ∈ rest, (hexValue x).isSome :=
          forall₂_congr fun x _ ↦ by rw [isHex_toLower]
        rw [Bool.and_eq_true, beq_iff_eq, List.length_map, List.all_map, List.all_eq_true]
        simp only [Function.comp_apply, ha, hb, true_and, hall]
        exact (hexBytes_eq_some_iff 65 rest).symm
    · next h =>
        refine iff_of_false Bool.false_ne_true ?_
        rintro ⟨data, -, ha, hb, -⟩
        exact h _ (by rw [ha, hb])

/-! ## What the rail proves -/

/-- An input that differs from what it was in its signature script alone, which is a push of
65 bytes. -/
structure SignedInput (b a : JsValue) : Prop where
  objects : ∃ fs gs, b = obj fs ∧ a = obj gs
  others : ∀ k, k ≠ "signatureScript" → SameField (b.get k) (a.get k)
  signature : ∃ sig, a.get "signatureScript" = some (str sig) ∧ SinglePush sig

/-- The transaction as it was, apart from the signature scripts of the funding inputs. -/
structure Preserved (before after : JsValue) (fundingIndexes : List Int) : Prop where
  others : ∀ k, k ≠ "inputs" → SameField (before.get k) (after.get k)
  inputs : ∃ bs as, inputItems before = some bs ∧ inputItems after = some as ∧
    bs.length = as.length ∧ ∀ (i : Nat) b a, bs[i]? = some b → as[i]? = some a →
      if (i : Int) ∈ fundingIndexes then SignedInput b a else Same b a

/-- What the rail leaves open in a funding input. -/
structure CoveredInput (b a : JsValue) : Prop where
  object : ∃ fs, b = obj fs
  text : ∃ sig, a.get "signatureScript" = some (str sig)
  proto : SameField (b.get "__proto__") (a.get "__proto__")

/-- What the rail leaves open in a transaction. -/
structure Covered (before after : JsValue) (fundingIndexes : List Int) : Prop where
  proto : SameField (before.get "__proto__") (after.get "__proto__")
  inputs : ∀ bs as, inputItems before = some bs → inputItems after = some as →
    ∀ (i : Nat) b a, (i : Int) ∈ fundingIndexes → bs[i]? = some b → as[i]? = some a →
      CoveredInput b a

theorem exists_obj_of_get {v w : JsValue} {k : String} (h : v.get k = some w) :
    ∃ fs, v = obj fs := by
  cases v with
  | obj fs => exact ⟨fs, rfl⟩
  | _ => cases h

theorem distinct_of_get {v w : JsValue} {k : String} (hv : v.distinct = true)
    (h : v.get k = some w) : w.distinct = true := by
  obtain ⟨fs, rfl⟩ := exists_obj_of_get h
  exact ((distinct_obj fs).mp hv).2 _ (mem_of_lookup h)

theorem inputItems_eq_some_iff {v : JsValue} {xs : List JsValue} :
    inputItems v = some xs ↔ v.get "inputs" = some (arr xs) := by
  rw [inputItems, Option.bind_eq_some_iff]
  constructor
  · rintro ⟨w, hw, hxs⟩
    cases w with
    | arr ys => exact Option.some.inj hxs ▸ hw
    | _ => cases hxs
  · exact fun h ↦ ⟨_, h, rfl⟩

theorem distinct_of_inputItems {v x : JsValue} {xs : List JsValue} (hv : v.distinct = true)
    (h : inputItems v = some xs) (hx : x ∈ xs) : x.distinct = true :=
  (distinct_arr xs).mp (distinct_of_get hv (inputItems_eq_some_iff.mp h)) x hx

theorem signatureText_of_get {a : JsValue} {sig : String}
    (h : a.get "signatureScript" = some (str sig)) : signatureText a = .ok sig := by
  obtain ⟨gs, rfl⟩ := exists_obj_of_get h
  simp only [signatureText, h]
  by_cases hsig : sig = ""
  · subst hsig
    rfl
  · rw [falsy, beq_false_of_ne hsig]
    rfl

/-- The rail passes a funding input for a signed one exactly where it leaves nothing open. -/
theorem signedInput_iff {fundingIndexes : List Int} {i : Nat} {b a : JsValue}
    (hi : (i : Int) ∈ fundingIndexes) (hb : b.distinct = true) (ha : a.distinct = true)
    (h : assertInput fundingIndexes i b a = .ok ()) : SignedInput b a ↔ CoveredInput b a := by
  constructor
  · rintro ⟨⟨fs, gs, rfl, rfl⟩, others, sig, hsig, -⟩
    exact ⟨⟨fs, rfl⟩, ⟨sig, hsig⟩, others _ (by decide)⟩
  · rintro ⟨⟨fs, rfl⟩, ⟨sig, hsig⟩, proto⟩
    obtain ⟨gs, rfl⟩ := exists_obj_of_get hsig
    rw [assertInput, if_pos hi, signatureText_of_get hsig] at h
    obtain ⟨hsingle, heq⟩ : fundingSigRe sig.toLower = true ∧
        deepEqual (obj (fs.filter fun f ↦ f.1 ≠ "signatureScript" ∧ f.1 ≠ "__proto__"))
          (obj (gs.filter fun f ↦ f.1 ≠ "signatureScript" ∧ f.1 ≠ "__proto__")) = true := by
      change (if fundingSigRe sig.toLower = true then
        if deepEqual _ _ = true then Except.ok () else throw _ else throw _) = _ at h
      split_ifs at h with hsingle heq
      exact ⟨hsingle, heq⟩
    have hothers := (deepEqual_without_iff hb ha).mp heq
    refine ⟨⟨fs, gs, rfl, rfl⟩, fun k hk ↦ ?_, sig, hsig, (fundingSigRe_iff sig).mp hsingle⟩
    by_cases hproto : k = "__proto__"
    · exact hproto ▸ proto
    · exact hothers k hk hproto

/-- The rail passes any other input exactly where it is the same. -/
theorem assertInput_other_iff {fundingIndexes : List Int} {i : Nat} {b a : JsValue}
    (hi : (i : Int) ∉ fundingIndexes) (hb : b.distinct = true) (ha : a.distinct = true) :
    assertInput fundingIndexes i b a = .ok () ↔ Same b a := by
  rw [assertInput, if_neg hi, ← deepEqual_iff b a hb ha]
  split_ifs with h
  · exact iff_of_true rfl h
  · exact iff_of_false nofun h

/-- The loop passes inputs that each turn passes. -/
theorem assertInputs_ok {fundingIndexes : List Int} {i : Nat} {bs as : List JsValue}
    (h : assertInputs fundingIndexes i bs as = .ok ()) (j : Nat) (b a : JsValue)
    (hb : bs[j]? = some b) (ha : as[j]? = some a) :
    assertInput fundingIndexes (i + j) b a = .ok () := by
  induction bs generalizing i j as with
  | nil => cases hb
  | cons b' bs ih =>
      cases as with
      | nil => cases ha
      | cons a' as =>
          rw [assertInputs] at h
          obtain ⟨⟨⟩, hturn, hrest⟩ := Fallible.bind_eq_ok.mp h
          cases j with
          | zero =>
              obtain rfl := Option.some.inj hb
              obtain rfl := Option.some.inj ha
              exact hturn
          | succ j =>
              rw [Nat.add_succ, ← Nat.succ_add]
              exact ih hrest j hb ha

/-- What the rail has checked of the transactions that it passes. -/
structure Railed (before after : JsValue) (fundingIndexes : List Int)
    (bs as : List JsValue) : Prop where
  inputsBefore : inputItems before = some bs
  inputsAfter : inputItems after = some as
  length : bs.length = as.length
  others : ∀ k, k ≠ "inputs" → k ≠ "__proto__" → SameField (before.get k) (after.get k)
  inputs : ∀ (i : Nat) b a, bs[i]? = some b → as[i]? = some a →
    assertInput fundingIndexes i b a = .ok ()

theorem railed_of_ok {before after : JsValue} {fundingIndexes : List Int}
    (hb : before.distinct = true) (ha : after.distinct = true)
    (h : assertIntentPreserved before after fundingIndexes = .ok ()) :
    ∃ bs as, Railed before after fundingIndexes bs as := by
  rw [assertIntentPreserved] at h
  split at h
  · next bs as hbs has =>
      obtain ⟨fs, rfl⟩ := exists_obj_of_get (inputItems_eq_some_iff.mp hbs)
      obtain ⟨gs, rfl⟩ := exists_obj_of_get (inputItems_eq_some_iff.mp has)
      split_ifs at h with hlen
      change (if deepEqual _ _ = true then _ else throw _) = _ at h
      split_ifs at h with heq
      refine ⟨bs, as, hbs, has, not_ne_iff.mp hlen, (deepEqual_without_iff hb ha).mp heq, ?_⟩
      intro i b a hbi hai
      simpa using assertInputs_ok h i b a hbi hai
  · cases h

/-- The rail proves that the transaction is preserved exactly where it leaves nothing open. -/
theorem preserved_iff_covered {before after : JsValue} {fundingIndexes : List Int}
    (hb : before.distinct = true) (ha : after.distinct = true)
    (h : assertIntentPreserved before after fundingIndexes = .ok ()) :
    Preserved before after fundingIndexes ↔ Covered before after fundingIndexes := by
  obtain ⟨bs, as, hbs, has, hlen, others, turns⟩ := railed_of_ok hb ha h
  have hdistinct {i : Nat} {b a : JsValue} (hbi : bs[i]? = some b) (hai : as[i]? = some a) :
      b.distinct = true ∧ a.distinct = true :=
    ⟨distinct_of_inputItems hb hbs (List.mem_of_getElem? hbi),
      distinct_of_inputItems ha has (List.mem_of_getElem? hai)⟩
  constructor
  · rintro ⟨hothers, bs', as', hbs', has', -, inputs⟩
    refine ⟨hothers _ (by decide), fun bs'' as'' hbs'' has'' i b a hi hbi hai ↦ ?_⟩
    obtain rfl := Option.some.inj (hbs'.symm.trans hbs'')
    obtain rfl := Option.some.inj (has'.symm.trans has'')
    obtain rfl := Option.some.inj (hbs.symm.trans hbs')
    obtain rfl := Option.some.inj (has.symm.trans has')
    obtain ⟨hdb, hda⟩ := hdistinct hbi hai
    have hsigned := inputs i b a hbi hai
    rw [if_pos hi] at hsigned
    exact (signedInput_iff hi hdb hda (turns i b a hbi hai)).mp hsigned
  · rintro ⟨proto, inputs⟩
    refine ⟨fun k hk ↦ ?_, bs, as, hbs, has, hlen, fun i b a hbi hai ↦ ?_⟩
    · by_cases hproto : k = "__proto__"
      · exact hproto ▸ proto
      · exact others k hk hproto
    · obtain ⟨hdb, hda⟩ := hdistinct hbi hai
      have hturn := turns i b a hbi hai
      split_ifs with hi
      · exact (signedInput_iff hi hdb hda hturn).mpr (inputs bs as hbs has i b a hi hbi hai)
      · exact (assertInput_other_iff hi hdb hda).mp hturn

/-! ## What is returned -/

theorem distinct_of_unwrapTx {obj after : JsValue} (h : unwrapTx obj = .ok after)
    (hobj : obj.distinct = true) : after.distinct = true := by
  rw [unwrapTx] at h
  split_ifs at h with htx
  · obtain rfl := Except.ok.inj h
    exact hobj
  · split at h
    · next v hv =>
        obtain rfl := Except.ok.inj h
        obtain ⟨k, -, hk⟩ := List.mem_filterMap.mp (List.mem_of_find?_eq_some hv)
        exact distinct_of_get hobj hk
    · cases h

theorem unwrapTx_of_isSome {obj : JsValue} (h : (inputItems obj).isSome) :
    unwrapTx obj = .ok obj := if_pos h

section Sign

variable {parse : String → Option PlainData} {stringify : JsValue → String}
  {signPskt : String → List SignInput → Except String PlainData} {txJsonString s : String}
  {fundingIndexes : List Int}

theorem distinct_of_coerceSignedTx {returned after : JsValue}
    (h : coerceSignedTx parse returned = .ok after) (hd : returned.distinct = true) :
    after.distinct = true := by
  cases returned with
  | null => cases h
  | str text =>
      rw [coerceSignedTx] at h
      split_ifs at h with htext
      cases hobj : parse (jsTrim text) with
      | none => rw [hobj] at h; cases h
      | some obj =>
          rw [hobj] at h
          exact distinct_of_unwrapTx h obj.property
  | bool | num | arr | obj => exact distinct_of_unwrapTx h hd

/-- A run returns exactly where the rail passed what the wallet answered to the request. -/
theorem signFunding_eq_ok_iff : signFunding parse stringify signPskt txJsonString fundingIndexes =
    .ok s ↔ fundingIndexes.isEmpty = false ∧ ∃ (before returned : PlainData) (after : JsValue),
      parse txJsonString = some before ∧
      signPskt txJsonString (fundingIndexes.map fun index ↦ ⟨index, 1⟩) = .ok returned ∧
      coerceSignedTx parse returned = .ok after ∧
      assertIntentPreserved before after fundingIndexes = .ok () ∧
      s = match returned.val with
        | .str text => text
        | _ => stringify after := by
  rw [signFunding]
  constructor
  · intro h
    split_ifs at h with hempty
    · obtain ⟨⟨⟩, hthrow, -⟩ := Fallible.bind_eq_ok.mp h
      cases hthrow
    · refine ⟨Bool.eq_false_iff.mpr hempty, ?_⟩
      cases hbefore : parse txJsonString with
      | none => rw [hbefore] at h; cases h
      | some before =>
          rw [hbefore] at h
          obtain ⟨returned, hreturned, h⟩ := Fallible.bind_eq_ok.mp h
          obtain ⟨after, hafter, h⟩ := Fallible.bind_eq_ok.mp h
          obtain ⟨⟨⟩, hrail, h⟩ := Fallible.bind_eq_ok.mp h
          refine ⟨before, returned, after, rfl, hreturned, hafter, hrail, ?_⟩
          generalize returned.val = v at h ⊢
          cases v <;> exact (Except.ok.inj h).symm
  · rintro ⟨hempty, before, returned, after, hbefore, hreturned, hafter, hrail, rfl⟩
    rw [hempty, hbefore, hreturned]
    refine Fallible.bind_eq_ok.mpr ⟨returned, rfl, Fallible.bind_eq_ok.mpr ⟨after, hafter, ?_⟩⟩
    refine Fallible.bind_eq_ok.mpr ⟨(), hrail, ?_⟩
    generalize returned.val = v
    cases v <;> rfl

/-- The text reads as the transaction that was to be signed, with its funding inputs signed. -/
def KeepsIntent (parse : String → Option PlainData) (txJsonString : String)
    (fundingIndexes : List Int) (s : String) : Prop :=
  ∃ before after : PlainData, parse txJsonString = some before ∧ parse s = some after ∧
    Preserved before after fundingIndexes

/-- An answer in text reads as it stands, and as a transaction. -/
def Readable (parse : String → Option PlainData) (returned : JsValue) : Prop :=
  ∀ text, returned = str text → ∃ obj : PlainData, parse text = some obj ∧ (inputItems obj).isSome

/-- What is returned keeps the intent exactly where an answer in text is the text of a
transaction and the rail left nothing open. -/
theorem signFunding_keepsIntent_iff
    (hblank : ∀ text v, parse text = some v → parse (jsTrim text) = some v)
    {before returned after : PlainData} (hbefore : parse txJsonString = some before)
    (hreturned : signPskt txJsonString (fundingIndexes.map fun index ↦ ⟨index, 1⟩) =
      .ok returned)
    (hafter : coerceSignedTx parse returned = .ok after.val)
    (hserial : parse (stringify after) = some after)
    (h : signFunding parse stringify signPskt txJsonString fundingIndexes = .ok s) :
    KeepsIntent parse txJsonString fundingIndexes s ↔
      Readable parse returned ∧ Covered before after fundingIndexes := by
  obtain ⟨-, before', returned', after', hbefore', hreturned', hafter', hrail, rfl⟩ :=
    signFunding_eq_ok_iff.mp h
  obtain rfl := Option.some.inj (hbefore.symm.trans hbefore')
  obtain rfl := Except.ok.inj (hreturned.symm.trans hreturned')
  obtain rfl := Except.ok.inj (hafter.symm.trans hafter')
  rw [← preserved_iff_covered before.property after.property hrail]
  have hkeeps (text : String) : KeepsIntent parse txJsonString fundingIndexes text ↔
      ∃ v : PlainData, parse text = some v ∧ Preserved before v fundingIndexes := by
    constructor
    · rintro ⟨b, v, hb, hv, hpreserved⟩
      obtain rfl := Option.some.inj (hbefore.symm.trans hb)
      exact ⟨v, hv, hpreserved⟩
    · exact fun ⟨v, hv, hpreserved⟩ ↦ ⟨before, v, hbefore, hv, hpreserved⟩
  rw [hkeeps]
  obtain ⟨returned, hd⟩ := returned
  cases returned with
  | null => cases hafter
  | str text =>
      have hcoerce : ∀ v : PlainData, parse text = some v → (inputItems v).isSome → v = after := by
        intro v hv hin
        dsimp only at hafter
        rw [coerceSignedTx, hblank text v hv] at hafter
        split_ifs at hafter
        exact Subtype.ext (Except.ok.inj ((unwrapTx_of_isSome hin).symm.trans hafter))
      constructor
      · rintro ⟨v, hv, hpreserved⟩
        obtain ⟨bs, as, -, has, -⟩ := hpreserved.inputs
        have hin : (inputItems v.val).isSome := by rw [has]; rfl
        refine ⟨?_, hcoerce v hv hin ▸ hpreserved⟩
        rintro _ ⟨⟩
        exact ⟨v, hv, hin⟩
      · rintro ⟨hreadable, hpreserved⟩
        obtain ⟨v, hv, hin⟩ := hreadable text rfl
        exact ⟨v, hv, (hcoerce v hv hin).symm ▸ hpreserved⟩
  | bool | num | arr | obj =>
      constructor
      · rintro ⟨v, hv, hpreserved⟩
        obtain rfl := Option.some.inj (hserial.symm.trans hv)
        exact ⟨nofun, hpreserved⟩
      · exact fun h ↦ ⟨after, hserial, h.2⟩

end Sign

/-! ## An answer that wraps the transaction -/

/-- A text between braces has no blanks at its ends. -/
theorem jsTrim_eq_self {s : String} (hhead : s.toList.head? = some '\x7b')
    (hlast : s.toList.getLast? = some '\x7d') : jsTrim s = s := by
  have hkeep {cs : List Char} {c : Char} (hc : cs.head? = some c) (hb : jsBlank c = false) :
      cs.dropWhile jsBlank = cs := by
    obtain ⟨tail, rfl⟩ := List.head?_eq_some_iff.mp hc
    exact List.dropWhile_cons_of_neg (by simp [hb])
  rw [jsTrim, hkeep hhead (by decide), hkeep (List.head?_reverse.trans hlast) (by decide),
    List.reverse_reverse, String.ofList_toList]

/-- A signature script of 65 bytes. -/
@[irreducible] def oneSignature : String := String.ofList ('4' :: '1' :: List.replicate 130 '0')

theorem singlePush_of_digits {digits : List Char} (hlen : digits.length = 2 * 65)
    (hall : ∀ c ∈ digits, (hexValue c).isSome) :
    SinglePush (String.ofList ('4' :: '1' :: digits)) := by
  obtain ⟨data, hdlen, hdata⟩ := (hexBytes_eq_some_iff 65 digits).mpr ⟨hlen, hall⟩
  refine ⟨data, hdlen, ?_⟩
  rw [String.toList_ofList, hexBytes_cons_iff]
  exact ⟨by decide, by decide, hdata⟩

theorem singlePush_oneSignature : SinglePush oneSignature := by
  have hdigits : SinglePush (String.ofList ('4' :: '1' :: List.replicate 130 '0')) := by
    refine singlePush_of_digits (by rw [List.length_replicate]) fun c hc ↦ ?_
    rw [List.eq_of_mem_replicate hc]
    decide
  have heq : oneSignature = String.ofList ('4' :: '1' :: List.replicate 130 '0') := by
    unfold oneSignature
    rfl
  exact heq ▸ hdigits

theorem SinglePush.ne_empty {sig : String} (h : SinglePush sig) : sig ≠ "" := by
  rintro rfl
  obtain ⟨data, -, h⟩ := h
  rw [String.toList_empty, hexBytes] at h
  cases h

/-- A transaction of one input, with its signature script. -/
def oneInput (sig : String) : PlainData :=
  ⟨obj [("inputs", arr [obj [("signatureScript", str sig)]]), ("outputs", arr [])], rfl⟩

theorem oneInput_railed :
    assertIntentPreserved (oneInput "").val (oneInput oneSignature).val [0] = .ok () := by
  have hsig : signatureText (obj [("signatureScript", str oneSignature)]) = .ok oneSignature :=
    signatureText_of_get rfl
  have hturn : assertInput [0] 0 (obj [("signatureScript", str "")])
      (obj [("signatureScript", str oneSignature)]) = .ok () := by
    rw [assertInput, if_pos (by decide), hsig]
    refine Fallible.bind_eq_ok.mpr ⟨_, rfl, ?_⟩
    rw [if_pos ((fundingSigRe_iff _).mpr singlePush_oneSignature)]
    rfl
  refine Fallible.bind_eq_ok.mpr ⟨_, rfl, Fallible.bind_eq_ok.mpr ⟨_, rfl, ?_⟩⟩
  exact Fallible.bind_eq_ok.mpr ⟨(), hturn, rfl⟩

/-- The text of `oneInput`. -/
@[irreducible] def oneInputText (sig : String) : String :=
  "\x7b\"inputs\":[\x7b\"signatureScript\":\"" ++ sig ++ "\"\x7d],\"outputs\":[]\x7d"

/-- The text of an object around the signed transaction. -/
@[irreducible] def wrappedText : String :=
  "\x7b\"transaction\":" ++ oneInputText oneSignature ++ "\x7d"

theorem oneInputText_ne : oneInputText oneSignature ≠ oneInputText "" := by
  intro h
  exact singlePush_oneSignature.ne_empty (by simpa [oneInputText] using congrArg String.toList h)

theorem wrappedText_ne (sig : String) : wrappedText ≠ oneInputText sig := by
  intro h
  simpa [wrappedText, oneInputText] using congrArg String.toList h

/-- The parser, on the texts of the example. -/
def exampleParse (text : String) : Option PlainData :=
  if text = oneInputText "" then some (oneInput "")
  else if text = oneInputText oneSignature then some (oneInput oneSignature)
  else if text = wrappedText then some ⟨obj [("transaction", oneInput oneSignature)], rfl⟩
  else none

theorem exampleParse_signed :
    exampleParse (oneInputText oneSignature) = some (oneInput oneSignature) := by
  rw [exampleParse, if_neg oneInputText_ne, if_pos rfl]

theorem exampleParse_wrapped :
    exampleParse wrappedText = some ⟨obj [("transaction", oneInput oneSignature)], rfl⟩ := by
  rw [exampleParse, if_neg (wrappedText_ne ""), if_neg (wrappedText_ne oneSignature), if_pos rfl]

theorem jsTrim_wrappedText : jsTrim wrappedText = wrappedText :=
  jsTrim_eq_self (by simp [wrappedText, oneInputText]) 
    (by simp [wrappedText, oneInputText, List.getLast?_cons])

theorem exampleParse_jsTrim (text : String) (v : PlainData) (h : exampleParse text = some v) :
    exampleParse (jsTrim text) = some v := by
  have htrim (sig : String) : jsTrim (oneInputText sig) = oneInputText sig :=
    jsTrim_eq_self (by simp [oneInputText]) (by simp [oneInputText, List.getLast?_cons])
  by_cases h₁ : text = oneInputText ""
  · rw [h₁, htrim, ← h₁, h]
  · by_cases h₂ : text = oneInputText oneSignature
    · rw [h₂, htrim, ← h₂, h]
    · rw [exampleParse, if_neg h₁, if_neg h₂] at h
      split_ifs at h with h₃
      rw [h₃, jsTrim_wrappedText, exampleParse_wrapped]
      exact h

theorem signFunding_keepsIntent_object :
    KeepsIntent exampleParse (oneInputText "") [0] (oneInputText oneSignature) := by
  refine (@signFunding_keepsIntent_iff exampleParse (fun _ ↦ oneInputText oneSignature)
    (fun _ _ ↦ .ok (oneInput oneSignature)) (oneInputText "") (oneInputText oneSignature) [0]
    exampleParse_jsTrim _ _ _ (if_pos rfl) rfl rfl exampleParse_signed
    (signFunding_eq_ok_iff.mpr ⟨rfl, _, _, _, if_pos rfl, rfl, rfl, oneInput_railed, rfl⟩)).mpr
    ⟨nofun, .none, ?_⟩
  rintro _ _ ⟨⟩ ⟨⟩ (_ | i) b a - hb ha
  · obtain rfl := Option.some.inj hb
    obtain rfl := Option.some.inj ha
    exact ⟨⟨_, rfl⟩, ⟨_, rfl⟩, .none⟩
  · cases hb

/-- The rail looks into the wrapper; the text that is returned is the wrapper. -/
theorem wrapped_answer :
    signFunding exampleParse (fun _ ↦ "") (fun _ _ ↦ .ok ⟨str wrappedText, rfl⟩)
        (oneInputText "") [0] = .ok wrappedText ∧
      ¬ KeepsIntent exampleParse (oneInputText "") [0] wrappedText := by
  have hafter : coerceSignedTx exampleParse (str wrappedText) =
      .ok (oneInput oneSignature).val := by
    have hbrace : (jsTrim wrappedText).toList.head? = some '\x7b' := by
      rw [jsTrim_wrappedText]
      simp [wrappedText]
    rw [coerceSignedTx, if_neg (not_not_intro hbrace), jsTrim_wrappedText, exampleParse_wrapped]
    rfl
  refine ⟨signFunding_eq_ok_iff.mpr
    ⟨rfl, _, _, _, if_pos rfl, rfl, hafter, oneInput_railed, rfl⟩, ?_⟩
  rintro ⟨before, after, -, hafter, -, _, as, -, has, -⟩
  rw [exampleParse_wrapped] at hafter
  obtain rfl := Option.some.inj hafter
  cases has

end Kascov
