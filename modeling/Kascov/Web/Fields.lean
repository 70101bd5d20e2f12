import Kascov.Web.Generator

/-!
# The fields of the contract form

`gen.js`: what a form field accepts, the bytes it becomes in a program, and the text that
shows decoded bytes for editing.
-/

namespace Kascov

open LittleEndian ScriptNumber

/-- The kinds of fields. -/
inductive FieldKind
  | pubkey
  | hash32
  | amount
  | daa
deriving DecidableEq, Repr

/-- `trim()`. -/
def trim (t : Text) : Text := ((t.dropWhile isBlank).reverse.dropWhile isBlank).reverse

/-- A field that was accepted. -/
structure FieldValue where
  value : Bytes
  sompi : Option Int := none
  display : Text
deriving DecidableEq, Repr

/-- `BigInt`, of decimal digits. -/
def bigInt (digits : Text) : Nat := Nat.ofDigitChars 10 digits 0

/-- `/^[0-9a-f]{64}$/`. -/
def isCleanHex (s : Text) : Bool :=
  s.length = 64 && s.all fun c ↦ c.isDigit || ('a' ≤ c && c ≤ 'f')

/-- The text of 32 bytes, less a marker and blanks. -/
def cleanHex (t : Text) : Text :=
  let t :=
    match t with
    | '0' :: 'x' :: rest => rest
    | '0' :: 'X' :: rest => rest
    | t => t
  (t.filter fun c ↦ !isBlank c).map Char.toLower

/-- The digits before and behind the point of `/^\d+(\.\d{1,8})?$/`. -/
def amountParts (t : Text) : Option (Text × Text) :=
  let whole := t.takeWhile Char.isDigit
  if whole = [] then none
  else
    match t.dropWhile Char.isDigit with
    | [] => some (whole, [])
    | '.' :: frac =>
        if 1 ≤ frac.length ∧ frac.length ≤ 8 ∧ frac.all Char.isDigit then some (whole, frac)
        else none
    | _ => none

/-- `BigInt(whole) * 100000000n + BigInt((frac + '00000000').slice(0, 8))`. -/
def sompiOf (whole frac : Text) : Nat :=
  bigInt whole * 100000000 + bigInt ((frac ++ List.replicate 8 '0').take 8)

/-- `validateField`. -/
def validateField (kind : FieldKind) (text : Text) : Except String FieldValue :=
  let t := trim text
  match kind with
  | .pubkey | .hash32 =>
      let clean := cleanHex t
      if isCleanHex clean then .ok { value := (parseHex clean).getD [], display := clean }
      else .error "needs exactly 32 bytes (64 hex characters)"
  | .amount =>
      match amountParts t with
      | none => .error "amount in TKAS, up to 8 decimals"
      | some (whole, frac) =>
          let sompi := sompiOf whole frac
          if sompi < 1 then .error "must be at least 1 sompi"
          else if 9223372036854775807 < sompi then .error "too large"
          else .ok { value := snumEncode sompi, sompi := some sompi, display := t }
  | .daa =>
      if t = [] ∨ ¬t.all Char.isDigit then .error "whole number of DAA ticks"
      else
        let n := bigInt t
        if n < 1 then .error "must be ≥ 1"
        else .ok { value := snumEncode n, display := t }

/-- `toString()` of a `BigInt`. -/
def bigIntText (v : Int) : Text := (if v < 0 then ['-'] else []) ++ Nat.toDigits 10 v.natAbs

/-- `sompiToTkas`. -/
def sompiToTkas (sompi : Int) : Text :=
  let whole := bigIntText (sompi.tdiv 100000000)
  let digits := bigIntText (sompi.tmod 100000000)
  let padded := List.replicate (8 - digits.length) '0' ++ digits
  let frac := padded.rdropWhile (· = '0')
  if frac = [] then whole else whole ++ '.' :: frac

/-- `prefillFor`. -/
def prefillFor (kind : FieldKind) (hexValue : Text) : Text :=
  match kind with
  | .amount => sompiToTkas (snumDecode ((parseHex hexValue).getD []))
  | .daa => bigIntText (snumDecode ((parseHex hexValue).getD []))
  | .pubkey | .hash32 => hexValue

/-! ## Decimal text -/

/-- A text of digits and points has no blank to trim. -/
theorem trim_eq {t : Text} (h : ∀ c ∈ t, isBlank c = false) : trim t = t := by
  have hdrop : ∀ l : Text, (∀ c ∈ l, isBlank c = false) → l.dropWhile isBlank = l := by
    intro l hl
    cases l with
    | nil => rfl
    | cons c l => rw [List.dropWhile_cons, hl c List.mem_cons_self, if_neg Bool.false_ne_true]
  unfold trim
  rw [hdrop t h, hdrop t.reverse fun c hc ↦ h c (List.mem_reverse.mp hc), List.reverse_reverse]

theorem isDigit_toDigits (n : Nat) : ∀ c ∈ Nat.toDigits 10 n, c.isDigit = true :=
  fun _ hc ↦ Nat.isDigit_of_mem_toDigits (by decide) (by decide) hc

theorem isBlank_digit {c : Char} (h : c.isDigit = true) : isBlank c = false := by
  simp only [Char.isDigit, Bool.and_eq_true, decide_eq_true_eq, UInt32.le_iff_toNat_le] at h
  have hlow : 48 ≤ c.toNat := h.1
  have hhigh : c.toNat ≤ 57 := h.2
  have hall : ∀ n < 58, 48 ≤ n → isBlank (Char.ofNat n) = false := by decide +kernel
  have hofNat := hall c.toNat (by omega) hlow
  rwa [Char.ofNat_toNat] at hofNat

theorem bigInt_toDigits (n : Nat) : bigInt (Nat.toDigits 10 n) = n :=
  Nat.ofDigitChars_ten_toDigits

/-- The digits behind some others count less. -/
theorem bigInt_append (a b : Text) : bigInt (a ++ b) = bigInt a * 10 ^ b.length + bigInt b := by
  unfold bigInt
  rw [Nat.ofDigitChars_append, Nat.ofDigitChars_eq_ofDigitChars_zero, Nat.mul_comm]

theorem bigInt_zeros (n : Nat) : bigInt (List.replicate n '0') = 0 := by
  rw [bigInt, Nat.ofDigitChars_replicate_zero, Nat.mul_zero]

theorem bigIntText_natCast (n : Nat) : bigIntText n = Nat.toDigits 10 n := by
  rw [bigIntText, if_neg (not_lt.mpr (Int.natCast_nonneg n)), List.nil_append, Int.natAbs_natCast]

/-- The digits of an amount, as the number of sompi that they stand for. -/
theorem sompiOf_eq {whole frac : Text} (h : frac.length ≤ 8) :
    sompiOf whole frac = bigInt (whole ++ frac) * 10 ^ (8 - frac.length) := by
  have htake : (frac ++ List.replicate 8 '0').take 8 =
      frac ++ List.replicate (8 - frac.length) '0' := by
    rw [List.take_append, List.take_of_length_le h, List.take_replicate,
      Nat.min_eq_left (Nat.sub_le 8 _)]
  have hpow : 10 ^ frac.length * 10 ^ (8 - frac.length) = 100000000 := by
    rw [← Nat.pow_add, Nat.add_sub_cancel' h]
  rw [sompiOf, htake, bigInt_append, bigInt_append, bigInt_zeros, List.length_replicate,
    Nat.add_zero, Nat.add_mul, Nat.mul_assoc, hpow]

/-! ## What is shown is accepted -/

/-- A number of ticks that is shown is read back. -/
theorem validateField_daa_text {n : Nat} (hn : 1 ≤ n) :
    validateField .daa (bigIntText n) =
      .ok { value := snumEncode n, display := Nat.toDigits 10 n } := by
  have htrim : trim (bigIntText n) = Nat.toDigits 10 n := by
    rw [bigIntText_natCast]
    exact trim_eq fun c hc ↦ isBlank_digit (isDigit_toDigits n c hc)
  have hdigits : (Nat.toDigits 10 n).all Char.isDigit = true :=
    List.all_eq_true.mpr (isDigit_toDigits n)
  simp only [validateField, htrim]
  rw [if_neg (not_or.mpr ⟨Nat.toDigits_ne_nil, not_not.mpr hdigits⟩), bigInt_toDigits,
    if_neg (Nat.not_lt.mpr hn)]

theorem amountParts_whole {whole : Text} (hne : whole ≠ []) (hwhole : ∀ c ∈ whole, c.isDigit) :
    amountParts whole = some (whole, []) := by
  have htake : whole.takeWhile Char.isDigit = whole := List.takeWhile_eq_self_iff.mpr hwhole
  have hdrop : whole.dropWhile Char.isDigit = [] := List.dropWhile_eq_nil_iff.mpr hwhole
  simp only [amountParts, htake, hdrop, if_neg hne]

theorem amountParts_point {whole frac : Text} (hne : whole ≠ [])
    (hwhole : ∀ c ∈ whole, c.isDigit) (hpos : 1 ≤ frac.length) (hlen : frac.length ≤ 8)
    (hfrac : ∀ c ∈ frac, c.isDigit) :
    amountParts (whole ++ '.' :: frac) = some (whole, frac) := by
  have hpoint : ¬('.').isDigit = true := by decide
  have htake : (whole ++ '.' :: frac).takeWhile Char.isDigit = whole := by
    rw [List.takeWhile_append_of_pos hwhole, List.takeWhile_cons_of_neg hpoint, List.append_nil]
  have hdrop : (whole ++ '.' :: frac).dropWhile Char.isDigit = '.' :: frac := by
    rw [List.dropWhile_append_of_pos hwhole, List.dropWhile_cons_of_neg hpoint]
  have hall : 1 ≤ frac.length ∧ frac.length ≤ 8 ∧ frac.all Char.isDigit = true :=
    ⟨hpos, hlen, List.all_eq_true.mpr hfrac⟩
  simp only [amountParts, htake, hdrop, if_neg hne, if_pos hall]

/-- The digits behind the point, with the zeros that the text leaves out. -/
theorem padded_digits {n : Nat} (h : n < 10 ^ 8) :
    let padded := List.replicate (8 - (Nat.toDigits 10 n).length) '0' ++ Nat.toDigits 10 n
    padded.length = 8 ∧ bigInt padded = n ∧ ∀ c ∈ padded, c.isDigit = true := by
  have hlen : (Nat.toDigits 10 n).length ≤ 8 :=
    (Nat.length_toDigits_le_iff (by decide) (by decide)).mpr h
  refine ⟨?_, ?_, fun c hc ↦ ?_⟩
  · rw [List.length_append, List.length_replicate, Nat.sub_add_cancel hlen]
  · rw [bigInt_append, bigInt_zeros, Nat.zero_mul, Nat.zero_add, bigInt_toDigits]
  · rcases List.mem_append.mp hc with hc | hc
    · rw [List.eq_of_mem_replicate hc]
      rfl
    · exact isDigit_toDigits n c hc

/-- Zeros that end a text are put back by filling it up. -/
theorem rdropWhile_zeros (t : Text) :
    t.rdropWhile (· = '0') ++
      List.replicate (t.length - (t.rdropWhile (· = '0')).length) '0' = t := by
  have hsplit := @List.rdropWhile_append_rtakeWhile _ (fun c ↦ decide (c = '0')) t
  have hzeros : t.rtakeWhile (fun c ↦ decide (c = '0')) =
      List.replicate (t.rtakeWhile fun c ↦ decide (c = '0')).length '0' := by
    refine List.eq_replicate_iff.mpr ⟨rfl, fun c hc ↦ ?_⟩
    exact of_decide_eq_true (@List.mem_rtakeWhile_imp _ (fun c ↦ decide (c = '0')) t c hc)
  have hlen : t.length - (t.rdropWhile fun c ↦ decide (c = '0')).length =
      (t.rtakeWhile fun c ↦ decide (c = '0')).length := by
    have h := congrArg List.length hsplit
    rw [List.length_append] at h
    omega
  rw [hlen, ← hzeros]
  exact hsplit

/-- The text of an amount. -/
theorem amountParts_sompiToTkas (sompi : Nat) :
    ∃ whole frac, amountParts (sompiToTkas sompi) = some (whole, frac) ∧
      sompiOf whole frac = sompi ∧ ∀ c ∈ sompiToTkas sompi, isBlank c = false := by
  have hwhole : bigIntText ((sompi : Int).tdiv 100000000) =
      Nat.toDigits 10 (sompi / 100000000) := bigIntText_natCast (sompi / 100000000)
  have hrest : bigIntText ((sompi : Int).tmod 100000000) =
      Nat.toDigits 10 (sompi % 100000000) := bigIntText_natCast (sompi % 100000000)
  obtain ⟨hlen, hvalue, hdigit⟩ := @padded_digits (sompi % 100000000) (Nat.mod_lt _ (by decide))
  unfold sompiToTkas
  simp only [hwhole, hrest]
  generalize List.replicate (8 - (Nat.toDigits 10 (sompi % 100000000)).length) '0' ++
    Nat.toDigits 10 (sompi % 100000000) = padded at hlen hvalue hdigit ⊢
  have hfill := rdropWhile_zeros padded
  have hshort : (padded.rdropWhile (· = '0')).length ≤ 8 := by
    rw [← hlen]
    exact (List.rdropWhile_prefix _ _).length_le
  have hfrac : ∀ c ∈ padded.rdropWhile (· = '0'), c.isDigit = true :=
    fun c hc ↦ hdigit c ((List.rdropWhile_prefix _ _).subset hc)
  -- the zeros that are left out count as much as those that are filled in
  have hsompi : sompiOf (Nat.toDigits 10 (sompi / 100000000)) (padded.rdropWhile (· = '0')) =
      sompi := by
    rw [sompiOf_eq hshort, bigInt_append, bigInt_toDigits]
    have hscaled : bigInt (padded.rdropWhile (· = '0')) *
        10 ^ (8 - (padded.rdropWhile (· = '0')).length) = sompi % 100000000 := by
      rw [← hvalue]
      conv_rhs => rw [← hfill]
      rw [bigInt_append, bigInt_zeros, List.length_replicate, hlen, Nat.add_zero]
    have hpow : 10 ^ (padded.rdropWhile (· = '0')).length *
        10 ^ (8 - (padded.rdropWhile (· = '0')).length) = 100000000 := by
      rw [← Nat.pow_add, Nat.add_sub_cancel' hshort]
    rw [Nat.add_mul, hscaled, Nat.mul_assoc, hpow]
    exact Nat.div_add_mod' sompi 100000000
  have hdigits := isDigit_toDigits (sompi / 100000000)
  split
  · rename_i hnil
    rw [hnil] at hsompi
    exact ⟨_, _, amountParts_whole Nat.toDigits_ne_nil hdigits, hsompi,
      fun c hc ↦ isBlank_digit (hdigits c hc)⟩
  · rename_i hne
    refine ⟨_, _, amountParts_point Nat.toDigits_ne_nil hdigits (List.length_pos_iff.mpr hne)
      hshort hfrac, hsompi, fun c hc ↦ ?_⟩
    rcases List.mem_append.mp hc with hc | hc
    · exact isBlank_digit (hdigits c hc)
    · rcases List.mem_cons.mp hc with rfl | hc
      · rfl
      · exact isBlank_digit (hfrac c hc)

/-- An amount that is shown is read back. -/
theorem validateField_amount_text {sompi : Nat} (hpos : 1 ≤ sompi)
    (hle : sompi ≤ 9223372036854775807) :
    validateField .amount (sompiToTkas sompi) =
      .ok { value := snumEncode sompi, sompi := some sompi, display := sompiToTkas sompi } := by
  obtain ⟨whole, frac, hparts, hsompi, hblank⟩ := amountParts_sompiToTkas sompi
  simp only [validateField, trim_eq hblank, hparts, hsompi]
  rw [if_neg (Nat.not_lt.mpr hpos), if_neg (Nat.not_lt.mpr hle)]

theorem hexDigit_clean : ∀ n : Fin 16,
    ((hexDigit n).isDigit || ('a' ≤ hexDigit n && hexDigit n ≤ 'f')) = true := by
  decide +kernel

/-- The text of bytes is clean as it is written. -/
theorem cleanHex_toHex (bytes : Bytes) : cleanHex (toHex bytes) = toHex bytes := by
  have hplain : ∀ c ∈ toHex bytes, isBlank c = false ∧ c.toLower = c ∧ c ≠ 'x' :=
    fun c hc ↦ toHex_plain hc
  have hkeep : ∀ t : Text, (∀ c ∈ t, isBlank c = false ∧ c.toLower = c ∧ c ≠ 'x') →
      (t.filter fun c ↦ !isBlank c).map Char.toLower = t := by
    intro t ht
    have hfilter : t.filter (fun c ↦ !isBlank c) = t :=
      List.filter_eq_self.mpr fun c hc ↦ by rw [(ht c hc).1]; rfl
    rw [hfilter]
    exact (List.map_congr_left fun c hc ↦ (ht c hc).2.1).trans (List.map_id _)
  unfold cleanHex
  dsimp only
  split
  · rename_i rest heq
    exact absurd rfl (hplain 'x' (by simp [heq])).2.2
  · rename_i rest heq
    exact absurd (hplain 'X' (by simp [heq])).2.1 (by decide)
  · exact hkeep _ hplain

/-- A key or a hash that is shown is read back. -/
theorem validateField_hex_text {kind : FieldKind} (hkind : kind = .pubkey ∨ kind = .hash32)
    (bytes : Bytes32) :
    validateField kind (toHex bytes.val) = .ok { value := bytes.val, display := toHex bytes.val } := by
  have htrim : trim (toHex bytes.val) = toHex bytes.val := trim_eq fun c hc ↦ (toHex_plain hc).1
  have hclean : isCleanHex (toHex bytes.val) = true := by
    refine Bool.and_eq_true_iff.mpr ⟨decide_eq_true ?_, List.all_eq_true.mpr fun c hc ↦ ?_⟩
    · rw [length_toHex, bytes.property]
    · obtain ⟨b, -, hc⟩ := List.mem_flatMap.mp hc
      have hb := b.toNat_lt
      rcases List.mem_cons.mp hc with rfl | hc
      · exact hexDigit_clean ⟨b.toNat / 16, by omega⟩
      · rw [List.mem_singleton.mp hc]
        exact hexDigit_clean ⟨b.toNat % 16, Nat.mod_lt _ (by decide)⟩
  have hvalue : validateField kind (toHex bytes.val) =
      .ok { value := (parseHex (toHex bytes.val)).getD [], display := toHex bytes.val } := by
    rcases hkind with rfl | rfl
    · simp only [validateField, htrim, cleanHex_toHex, hclean, if_true]
    · simp only [validateField, htrim, cleanHex_toHex, hclean, if_true]
  rw [hvalue, parseHex_toHex_getD]

/-! ## What is accepted -/

/-- The sompi that a text states: its digits, scaled by those behind the point. -/
def statedSompi (text : Text) : Nat :=
  match amountParts (trim text) with
  | some (whole, frac) => bigInt (whole ++ frac) * 10 ^ (8 - frac.length)
  | none => 0

/-- The ticks that a text states. -/
def statedTicks (text : Text) : Nat := bigInt (trim text)

theorem amountParts_length {t whole frac : Text} (h : amountParts t = some (whole, frac)) :
    frac.length ≤ 8 := by
  unfold amountParts at h
  dsimp only at h
  split at h
  · cases h
  · split at h
    · obtain ⟨-, rfl⟩ := Prod.mk.inj (Option.some.inj h)
      exact Nat.zero_le 8
    · split at h
      · rename_i hfrac
        obtain ⟨-, rfl⟩ := Prod.mk.inj (Option.some.inj h)
        exact hfrac.2.1
      · cases h
    · cases h

/-- An accepted amount is the number of sompi that the text states, and `i64` holds it. -/
theorem validateField_amount {text : Text} {v : FieldValue}
    (h : validateField .amount text = .ok v) :
    1 ≤ statedSompi text ∧ statedSompi text < 2 ^ 63 ∧
      v.value = snumEncode (statedSompi text) := by
  simp only [validateField] at h
  cases hparts : amountParts (trim text) with
  | none =>
      rw [hparts] at h
      cases h
  | some parts =>
      obtain ⟨whole, frac⟩ := parts
      simp only [hparts] at h
      split at h
      · cases h
      · rename_i hpos
        split at h
        · cases h
        · rename_i hle
          obtain rfl := Except.ok.inj h
          have hstated : statedSompi text = sompiOf whole frac := by
            rw [statedSompi, hparts, sompiOf_eq (amountParts_length hparts)]
          rw [hstated]
          exact ⟨Nat.not_lt.mp hpos, by omega, rfl⟩

/-- An accepted number of ticks is the one that the text states: nothing bounds it. -/
theorem validateField_daa {text : Text} {v : FieldValue} (h : validateField .daa text = .ok v) :
    1 ≤ statedTicks text ∧ v.value = snumEncode (statedTicks text) := by
  simp only [validateField] at h
  split at h
  · cases h
  · split at h
    · cases h
    · rename_i hpos
      obtain rfl := Except.ok.inj h
      exact ⟨Nat.not_lt.mp hpos, rfl⟩

end Kascov
