import Kascov.Passport.Claim

/-!
# When the three canonical forms are one

The bot rebuilds every object before it writes it, and a JS object lists its index keys
first; the JS client sorts by units, the Python client by code points and raises on an
unpaired surrogate.  Two texts of one claim are the same exactly when no object of the
claim is written in two orders.
-/

namespace Kascov

open KeySort

/-! ## Tests of every part -/

section Every

variable {str str' : JsString → Bool} {keys keys' : List JsString → Bool}

theorem everyItem_iff (items : List Claim) :
    everyItem str keys items = true ↔ ∀ c ∈ items, c.every str keys = true := by
  induction items with
  | nil => simp [everyItem]
  | cons c items ih => simp [everyItem, ih]

theorem everyField_iff (fields : List (JsString × Claim)) :
    everyField str keys fields = true ↔ ∀ f ∈ fields, f.2.every str keys = true := by
  induction fields with
  | nil => simp [everyField]
  | cons f fields ih =>
      obtain ⟨k, c⟩ := f
      simp [everyField, ih]

@[simp] theorem every_arr (items : List Claim) :
    (Claim.arr items).every str keys = true ↔ ∀ c ∈ items, c.every str keys = true := by
  rw [Claim.every, everyItem_iff]

@[simp] theorem every_obj (fields : List (JsString × Claim)) :
    (Claim.obj fields).every str keys = true ↔
      keys (fields.map Prod.fst) = true ∧ ∀ f ∈ fields, f.2.every str keys = true := by
  rw [Claim.every, Bool.and_eq_true, everyField_iff]

/-- A part that passes two tests passes what follows from both. -/
theorem Claim.every_imp {str'' : JsString → Bool} {keys'' : List JsString → Bool} {c : Claim}
    (h : c.every str keys = true) (h' : c.every str' keys' = true)
    (hstr : ∀ s, str s = true → str' s = true → str'' s = true)
    (hkeys : ∀ ks, keys ks = true → keys' ks = true → keys'' ks = true) :
    c.every str'' keys'' = true := by
  induction c using Claim.ind with
  | null => rfl
  | bool b => rfl
  | num n => rfl
  | str s => exact hstr s h h'
  | arr items ih =>
      rw [every_arr] at h h' ⊢
      exact fun x hx ↦ ih x hx (h x hx) (h' x hx)
  | obj fields ih =>
      rw [every_obj] at h h' ⊢
      exact ⟨hkeys _ h.1 h'.1, fun f hf ↦ ih f hf (h.2 f hf) (h'.2 f hf)⟩

end Every

theorem items_eq_map (style : JsonStyle) (items : List Claim) :
    style.items items = items.map style.text := by
  induction items with
  | nil => rfl
  | cons c items ih => rw [JsonStyle.items, ih, List.map_cons]

theorem fields_eq_map (style : JsonStyle) (fields : List (JsString × Claim)) :
    style.fields fields = fields.map fun f ↦ (f.1, style.text f.2) := by
  induction fields with
  | nil => rfl
  | cons f fields ih =>
      obtain ⟨k, c⟩ := f
      rw [JsonStyle.fields, ih, List.map_cons]

theorem sortedItems_eq_map (items : List Claim) : sortedItems items = items.map sortedClaim := by
  induction items with
  | nil => rfl
  | cons c items ih => rw [sortedItems, ih, List.map_cons]

theorem sortedFields_eq_map (fields : List (JsString × Claim)) :
    sortedFields fields = fields.map fun f ↦ (f.1, sortedClaim f.2) := by
  induction fields with
  | nil => rfl
  | cons f fields ih =>
      obtain ⟨k, c⟩ := f
      rw [sortedFields, ih, List.map_cons]

/-! ## Strings -/

/-- The units of a code point, as numbers, are those it was read from. -/
theorem flatMap_utf16_codePoints (s : JsString) :
    (codePoints s).flatMap utf16 = s.map Fin.val := by
  induction s using codePoints.induct with
  | case1 high low rest h ih =>
      rw [codePoints, if_pos h, List.flatMap_cons, ih]
      simp only [isHighSurrogate, isLowSurrogate, Bool.and_eq_true, decide_eq_true_eq] at h
      have hhigh : 0xD800 + (0x10000 + (high.val - 0xD800) * 0x400 + (low.val - 0xDC00) - 0x10000) /
          0x400 = high.val := by omega
      have hlow : 0xDC00 + (0x10000 + (high.val - 0xD800) * 0x400 + (low.val - 0xDC00) - 0x10000) %
          0x400 = low.val := by omega
      rw [utf16, if_neg (by omega), hhigh, hlow]
      rfl
  | case2 high low rest h ih =>
      rw [codePoints, if_neg h, List.flatMap_cons, ih, utf16, if_pos high.isLt]
      rfl
  | case3 u =>
      rw [codePoints, List.flatMap_cons, utf16, if_pos u.isLt]
      rfl
  | case4 => rfl

theorem codePoints_injective {s t : JsString} (h : codePoints s = codePoints t) : s = t := by
  have hvals : s.map Fin.val = t.map Fin.val := by
    rw [← flatMap_utf16_codePoints, h, flatMap_utf16_codePoints]
  exact List.map_injective_iff.mpr Fin.val_injective hvals

theorem codePoints_lt (s : JsString) : ∀ p ∈ codePoints s, p < 0x110000 := by
  induction s using codePoints.induct with
  | case1 high low rest h ih =>
      rw [codePoints, if_pos h]
      simp only [isHighSurrogate, isLowSurrogate, Bool.and_eq_true, decide_eq_true_eq] at h
      exact List.forall_mem_cons.mpr ⟨by omega, ih⟩
  | case2 high low rest h ih =>
      rw [codePoints, if_neg h]
      exact List.forall_mem_cons.mpr ⟨by omega, ih⟩
  | case3 u =>
      rw [codePoints]
      exact List.forall_mem_cons.mpr ⟨by omega, fun p hp ↦ absurd hp List.not_mem_nil⟩
  | case4 => exact fun p hp ↦ absurd hp List.not_mem_nil

/-! ## Key orders -/

theorem unitsLe_order : KeyOrder unitsLe where
  total a b := by
    simp only [unitsLe, decide_eq_true_eq]
    exact le_total a b
  trans a b c := by
    simp only [unitsLe, decide_eq_true_eq]
    exact le_trans
  antisymm a b := by
    simp only [unitsLe, decide_eq_true_eq]
    exact le_antisymm

theorem pointsLe_order : KeyOrder pointsLe where
  total a b := by
    simp only [pointsLe, decide_eq_true_eq]
    exact le_total _ _
  trans a b c := by
    simp only [pointsLe, decide_eq_true_eq]
    exact le_trans
  antisymm a b := by
    simp only [pointsLe, decide_eq_true_eq]
    exact fun h h' ↦ codePoints_injective (le_antisymm h h')

theorem arrayIndex_injective {a b : JsString} {i : Nat} (ha : arrayIndex a = some i)
    (hb : arrayIndex b = some i) : a = b := by
  have hspelled : ∀ k, arrayIndex k = some i → k.map Fin.val = decimal i := by
    intro k hk
    unfold arrayIndex at hk
    split at hk
    · next h =>
        cases hk
        exact h.2.symm
    · cases hk
  have hvals := (hspelled a ha).trans (hspelled b hb).symm
  exact List.map_injective_iff.mpr Fin.val_injective hvals

theorem ownLe_order : KeyOrder ownLe where
  total a b := by
    unfold ownLe
    cases arrayIndex a with
    | none =>
        cases arrayIndex b with
        | none => exact unitsLe_order.total a b
        | some j => exact .inr rfl
    | some i =>
        cases arrayIndex b with
        | none => exact .inl rfl
        | some j => simpa using le_total i j
  trans a b c := by
    unfold ownLe
    cases arrayIndex a with
    | none =>
        cases arrayIndex b with
        | none =>
            cases arrayIndex c with
            | none => exact unitsLe_order.trans a b c
            | some k => exact fun _ h ↦ h
        | some j => exact fun h ↦ absurd h Bool.false_ne_true
    | some i =>
        cases arrayIndex b with
        | none =>
            cases arrayIndex c with
            | none => exact fun _ _ ↦ rfl
            | some k => exact fun _ h ↦ absurd h Bool.false_ne_true
        | some j =>
            cases arrayIndex c with
            | none => exact fun _ _ ↦ rfl
            | some k => simpa using fun h h' ↦ le_trans h h'
  antisymm a b := by
    unfold ownLe
    cases ha : arrayIndex a with
    | none =>
        cases hb : arrayIndex b with
        | none => exact unitsLe_order.antisymm a b
        | some j => exact fun h ↦ absurd h Bool.false_ne_true
    | some i =>
        cases hb : arrayIndex b with
        | none => exact fun _ h ↦ absurd h Bool.false_ne_true
        | some j =>
            simp only [decide_eq_true_eq]
            intro h h'
            cases le_antisymm h h'
            exact arrayIndex_injective ha hb

/-- A rebuilt object lists sorted keys in its own order. -/
theorem fromEntries_sortKeys {α : Type} {fields : List (JsString × α)}
    (hnodup : (fields.map Prod.fst).Nodup) :
    fromEntries (sortKeys unitsLe fields) = sortKeys ownLe fields := by
  apply ownLe_order.eq_sortKeys _ _ hnodup
  · unfold fromEntries
    refine ((List.perm_insertionSort _ _).append_right _).trans ?_
    have hnone : ((sortKeys unitsLe fields).filter fun f ↦ (arrayIndex f.1).isNone) =
        (sortKeys unitsLe fields).filter fun f ↦ !(arrayIndex f.1).isSome := by
      apply List.filter_congr
      intro f _
      cases arrayIndex f.1 with
      | none => rfl
      | some i => rfl
    rw [hnone]
    exact (List.filter_append_perm _ _).trans (sortKeys_perm unitsLe fields)
  · unfold fromEntries
    rw [List.pairwise_append]
    refine ⟨?_, ?_, ?_⟩
    · have hle : Std.Total fun f g : JsString × α ↦
          (arrayIndex f.1).getD 0 ≤ (arrayIndex g.1).getD 0 := ⟨fun _ _ ↦ le_total _ _⟩
      have htrans : IsTrans (JsString × α) fun f g ↦
          (arrayIndex f.1).getD 0 ≤ (arrayIndex g.1).getD 0 := ⟨fun _ _ _ ↦ le_trans⟩
      apply (List.pairwise_insertionSort (fun f g : JsString × α ↦
          (arrayIndex f.1).getD 0 ≤ (arrayIndex g.1).getD 0) _).imp_of_mem
      intro f g hf hg hfg
      have hf := (List.mem_filter.mp ((List.perm_insertionSort _ _).mem_iff.mp hf)).2
      have hg := (List.mem_filter.mp ((List.perm_insertionSort _ _).mem_iff.mp hg)).2
      obtain ⟨i, hi⟩ := Option.isSome_iff_exists.mp hf
      obtain ⟨j, hj⟩ := Option.isSome_iff_exists.mp hg
      rw [hi, hj] at hfg
      rw [ownLe, hi, hj]
      exact decide_eq_true hfg
    · apply ((unitsLe_order.pairwise_sortKeys fields).filter _).imp_of_mem
      intro f g hf hg hfg
      have hf := Option.isNone_iff_eq_none.mp (List.mem_filter.mp hf).2
      have hg := Option.isNone_iff_eq_none.mp (List.mem_filter.mp hg).2
      rw [ownLe, hf, hg]
      exact hfg
    · intro f hf g hg
      have hf := (List.mem_filter.mp ((List.perm_insertionSort _ _).mem_iff.mp hf)).2
      obtain ⟨i, hi⟩ := Option.isSome_iff_exists.mp hf
      have hg := Option.isNone_iff_eq_none.mp (List.mem_filter.mp hg).2
      rw [ownLe, hi, hg]

/-! ## The bot's text -/

/-- How the bot writes a claim in effect: sorted by the order of a rebuilt object. -/
def rebuiltStyle : JsonStyle := ⟨jsNumeral, jsEscape, sortKeys ownLe⟩

theorem canonicalClaim_eq {c : Claim} (h : c.distinct = true) :
    canonicalClaim c = rebuiltStyle.text c := by
  unfold canonicalClaim
  unfold Claim.distinct at h
  induction c using Claim.ind with
  | null => rfl
  | bool b => cases b <;> rfl
  | num n => rfl
  | str s => rfl
  | arr items ih =>
      rw [every_arr] at h
      have hitems : (items.map sortedClaim).map stringify.text = items.map rebuiltStyle.text := by
        rw [List.map_map]
        exact List.map_congr_left fun c hc ↦ ih c hc (h c hc)
      rw [sortedClaim, sortedItems_eq_map, JsonStyle.text, items_eq_map, hitems, JsonStyle.text,
        items_eq_map]
  | obj fields ih =>
      rw [every_obj, decide_eq_true_iff] at h
      have hnodup : ((fields.map fun f ↦ (f.1, sortedClaim f.2)).map Prod.fst).Nodup := by
        rw [List.map_map]
        exact h.1
      have hfields : (fields.map fun f ↦ (f.1, sortedClaim f.2)).map
          (fun f ↦ (f.1, stringify.text f.2)) =
          fields.map fun f ↦ (f.1, rebuiltStyle.text f.2) := by
        rw [List.map_map]
        exact List.map_congr_left fun f hf ↦ congrArg (Prod.mk f.1) (ih f hf (h.2 f hf))
      have horder : stringify.order
          ((sortKeys ownLe (fields.map fun f ↦ (f.1, sortedClaim f.2))).map
            fun f ↦ (f.1, stringify.text f.2)) =
          rebuiltStyle.order (fields.map fun f ↦ (f.1, rebuiltStyle.text f.2)) := by
        rw [← hfields]
        exact (sortKeys_map ownLe stringify.text _).symm
      rw [sortedClaim, sortedFields_eq_map, fromEntries_sortKeys hnodup, JsonStyle.text,
        fields_eq_map, horder, JsonStyle.text, fields_eq_map]
      rfl

/-! ## What a text is made of -/

theorem forall_mem_intercalate {q : Nat → Prop} (hq : q 44) (texts : List (List Nat)) :
    (∀ p ∈ List.intercalate [44] texts, q p) ↔ ∀ t ∈ texts, ∀ p ∈ t, q p := by
  induction texts with
  | nil => simp [List.intercalate_nil]
  | cons t texts ih =>
      cases texts with
      | nil => simp [List.intercalate_singleton]
      | cons u texts =>
          rw [List.intercalate_cons_cons, List.forall_mem_append, List.forall_mem_append, ih,
            List.forall_mem_cons (a := t)]
          simp [hq]

/-- A property that the signs and numbers of a text have holds of the text if it holds of
the strings as they are escaped. -/
theorem text_forall {style : JsonStyle} {q : Nat → Prop} [DecidablePred q]
    (hsigns : ∀ p, 34 ≤ p → p < 126 → q p) (hnumber : ∀ n, ∀ p ∈ style.number n, q p)
    (horder : ∀ fields, (style.order fields).Perm fields) (c : Claim) :
    (∀ p ∈ style.text c, q p) ↔
      c.every (fun s ↦ (style.quote s).all (q ·))
        (fun keys ↦ keys.all fun k ↦ (style.quote k).all (q ·)) = true := by
  have hsign : ∀ l : List Nat, (∀ p ∈ l, 34 ≤ p ∧ p < 126) → ∀ p ∈ l, q p :=
    fun l h p hp ↦ hsigns p (h p hp).1 (h p hp).2
  induction c using Claim.ind with
  | null => exact iff_of_true (hsign [110, 117, 108, 108] (by decide)) rfl
  | bool b =>
      cases b with
      | false => exact iff_of_true (hsign [102, 97, 108, 115, 101] (by decide)) rfl
      | true => exact iff_of_true (hsign [116, 114, 117, 101] (by decide)) rfl
  | num n => exact iff_of_true (hnumber n) rfl
  | str s =>
      rw [JsonStyle.text, Claim.every, List.all_eq_true]
      simp only [decide_eq_true_eq]
  | arr items ih =>
      rw [JsonStyle.text, items_eq_map, every_arr, List.forall_mem_cons, List.forall_mem_append,
        forall_mem_intercalate (hsigns 44 (by decide) (by decide)), List.forall_mem_singleton,
        List.forall_mem_map]
      constructor
      · exact fun h x hx ↦ (ih x hx).mp (h.2.1 x hx)
      · exact fun h ↦ ⟨hsigns 91 (by decide) (by decide), fun x hx ↦ (ih x hx).mpr (h x hx),
          hsigns 93 (by decide) (by decide)⟩
  | obj fields ih =>
      have hfields : (∀ t ∈ (style.order (style.fields fields)).map style.field, ∀ p ∈ t, q p) ↔
          ∀ f ∈ fields, (∀ p ∈ style.quote f.1, q p) ∧ ∀ p ∈ style.text f.2, q p := by
        rw [List.forall_mem_map]
        constructor
        · intro h f hf
          have hmem : (f.1, style.text f.2) ∈ style.order (style.fields fields) := by
            rw [(horder _).mem_iff, fields_eq_map]
            exact List.mem_map_of_mem hf
          have hfield := h _ hmem
          rw [JsonStyle.field, List.forall_mem_append, List.forall_mem_cons] at hfield
          exact ⟨hfield.1, hfield.2.2⟩
        · intro h g hg
          rw [(horder _).mem_iff, fields_eq_map] at hg
          obtain ⟨f, hf, rfl⟩ := List.mem_map.mp hg
          rw [JsonStyle.field, List.forall_mem_append, List.forall_mem_cons]
          exact ⟨(h f hf).1, hsigns 58 (by decide) (by decide), (h f hf).2⟩
      rw [JsonStyle.text, every_obj, List.forall_mem_cons, List.forall_mem_append,
        forall_mem_intercalate (hsigns 44 (by decide) (by decide)), List.forall_mem_singleton,
        hfields, List.all_eq_true, List.forall_mem_map]
      simp only [List.all_eq_true, decide_eq_true_eq]
      constructor
      · rintro ⟨-, h, -⟩
        exact ⟨fun f hf ↦ (h f hf).1, fun f hf ↦ (ih f hf).mp (h f hf).2⟩
      · rintro ⟨hkeys, hvalues⟩
        exact ⟨hsigns 123 (by decide) (by decide),
          fun f hf ↦ ⟨hkeys f hf, (ih f hf).mpr (hvalues f hf)⟩,
          hsigns 125 (by decide) (by decide)⟩

/-! ## Strings end where they close -/

theorem hexDigit_code : ∀ m n : Fin 16, (hexDigit m).toNat = (hexDigit n).toNat → m = n := by
  decide +kernel

theorem unicodeEscape_injective {p p' : Nat} (hp : p < 65536) (hp' : p' < 65536)
    (h : unicodeEscape p = unicodeEscape p') : p = p' := by
  have hcode : ∀ m n : Nat, m < 16 → n < 16 → (hexDigit m).toNat = (hexDigit n).toNat → m = n :=
    fun m n hm hn h ↦ congrArg Fin.val (hexDigit_code ⟨m, hm⟩ ⟨n, hn⟩ h)
  simp only [unicodeEscape, List.map_cons, List.map_nil, List.cons_append, List.nil_append,
    List.cons.injEq, true_and, and_true] at h
  obtain ⟨h3, h2, h1, h0⟩ := h
  have h3 := hcode _ _ (Nat.mod_lt _ (by decide)) (Nat.mod_lt _ (by decide)) h3
  have h2 := hcode _ _ (Nat.mod_lt _ (by decide)) (Nat.mod_lt _ (by decide)) h2
  have h1 := hcode _ _ (Nat.mod_lt _ (by decide)) (Nat.mod_lt _ (by decide)) h1
  have h0 := hcode _ _ (Nat.mod_lt _ (by decide)) (Nat.mod_lt _ (by decide)) h0
  omega

theorem shortEscape_cases {p letter : Nat} (h : shortEscape p = some letter) :
    letter ≠ 117 ∧ p = (if letter = 98 then 8 else if letter = 116 then 9 else
      if letter = 110 then 10 else if letter = 102 then 12 else if letter = 114 then 13 else
      letter) := by
  unfold shortEscape at h
  split at h
  all_goals cases h
  all_goals decide

/-- A code point is written by a letter, by its digits or by itself. -/
theorem jsEscape_cases (p : Nat) :
    (∃ letter, shortEscape p = some letter ∧ jsEscape p = [92, letter]) ∨
      (p < 65536 ∧ jsEscape p = unicodeEscape p) ∨
      (p ≠ 34 ∧ p ≠ 92 ∧ jsEscape p = [p]) := by
  unfold jsEscape pyEscape
  by_cases hs : isSurrogate p
  · rw [if_pos hs]
    simp only [isSurrogate, Bool.and_eq_true, decide_eq_true_eq] at hs
    exact .inr (.inl ⟨by omega, rfl⟩)
  · rw [if_neg hs]
    cases hshort : shortEscape p with
    | some letter => exact .inl ⟨letter, rfl, rfl⟩
    | none =>
        by_cases hp : p < 32
        · exact .inr (.inl ⟨by omega, if_pos hp⟩)
        · refine .inr (.inr ⟨?_, ?_, if_neg hp⟩)
          · rintro rfl
            cases hshort
          · rintro rfl
            cases hshort

/-- No escape is the front of another. -/
theorem jsEscape_front {p p' : Nat} {r r' : List Nat}
    (h : jsEscape p ++ r = jsEscape p' ++ r') : p = p' := by
  rcases jsEscape_cases p with ⟨l, hl, he⟩ | ⟨hp, he⟩ | ⟨-, hp, he⟩
  all_goals rcases jsEscape_cases p' with ⟨l', hl', he'⟩ | ⟨hp', he'⟩ | ⟨-, hp', he'⟩
  all_goals rw [he, he'] at h
  · cases h
    exact (shortEscape_cases hl).2.trans (shortEscape_cases hl').2.symm
  · cases h
    exact absurd rfl (shortEscape_cases hl).1
  · cases h
    exact absurd rfl hp'
  · cases h
    exact absurd rfl (shortEscape_cases hl').1
  · exact unicodeEscape_injective hp hp' (List.append_inj_left h rfl)
  · cases h
    exact absurd rfl hp'
  · cases h
    exact absurd rfl hp
  · cases h
    exact absurd rfl hp
  · cases h
    rfl

theorem jsEscape_ne_quote (p : Nat) (r r' : List Nat) : jsEscape p ++ r ≠ 34 :: r' := by
  intro h
  rcases jsEscape_cases p with ⟨l, -, he⟩ | ⟨-, he⟩ | ⟨hp, -, he⟩
  · rw [he] at h
    cases h
  · rw [he] at h
    cases h
  · rw [he] at h
    cases h
    exact hp rfl

/-- A quoted string is read back from the front of a text. -/
theorem quote_front {style : JsonStyle} (hstyle : style.escape = jsEscape) {s t : JsString}
    {r r' : List Nat} (h : style.quote s ++ r = style.quote t ++ r') : s = t ∧ r = r' := by
  have hpoints : ∀ (ps ps' : List Nat),
      ps.flatMap jsEscape ++ 34 :: r = ps'.flatMap jsEscape ++ 34 :: r' → ps = ps' ∧ r = r' := by
    intro ps
    induction ps with
    | nil =>
        intro ps' h
        cases ps' with
        | nil => exact ⟨rfl, (List.cons.inj h).2⟩
        | cons p' ps' =>
            rw [List.flatMap_cons, List.append_assoc] at h
            exact absurd h.symm (jsEscape_ne_quote p' _ _)
    | cons p ps ih =>
        intro ps' h
        cases ps' with
        | nil =>
            rw [List.flatMap_cons, List.append_assoc] at h
            exact absurd h (jsEscape_ne_quote p _ _)
        | cons p' ps' =>
            rw [List.flatMap_cons, List.flatMap_cons, List.append_assoc, List.append_assoc] at h
            have hp := jsEscape_front h
            subst hp
            obtain ⟨hps, hr⟩ := ih ps' (List.append_cancel_left h)
            exact ⟨congrArg (p :: ·) hps, hr⟩
  simp only [JsonStyle.quote, hstyle, List.cons_append, List.append_assoc, List.nil_append,
    List.cons.injEq, true_and] at h
  obtain ⟨hps, hr⟩ := hpoints _ _ h
  exact ⟨codePoints_injective hps, hr⟩

/-! ## Two texts of one claim -/

section Agree

variable {P Q : JsonStyle} {le le' : JsString → JsString → Bool}

/-- Fields written in two orders, with a text behind. -/
theorem fields_agree (hescape : P.escape = jsEscape) {fields : List (JsString × Claim)}
    (hnodup : (fields.map Prod.fst).Nodup) (hquote : ∀ f ∈ fields, P.quote f.1 = Q.quote f.1)
    (Good : Claim → Prop) (ih : ∀ f ∈ fields, ∀ r r',
      P.text f.2 ++ r = Q.text f.2 ++ r' → r = r' ∧ Good f.2) (xs ys : List (JsString × Claim))
    (hlen : xs.length = ys.length)
    (hxs : ∀ f ∈ xs, f ∈ fields) (hys : ∀ f ∈ ys, f ∈ fields) {r r' : List Nat}
    (h : List.intercalate [44] (xs.map fun f ↦ P.field (f.1, P.text f.2)) ++ 125 :: r =
      List.intercalate [44] (ys.map fun f ↦ Q.field (f.1, Q.text f.2)) ++ 125 :: r') :
    xs = ys ∧ r = r' ∧ ∀ f ∈ xs, Good f.2 := by
  have hfield : ∀ f ∈ fields, ∀ g ∈ fields, ∀ t t',
      P.field (f.1, P.text f.2) ++ t = Q.field (g.1, Q.text g.2) ++ t' →
        f = g ∧ t = t' ∧ Good f.2 := by
    intro f hf g hg t t' h
    rw [JsonStyle.field, JsonStyle.field, List.append_assoc, List.append_assoc,
      ← hquote g hg] at h
    obtain ⟨hkey, hrest⟩ := quote_front hescape h
    have hfg : f = g := List.inj_on_of_nodup_map hnodup hf hg hkey
    subst hfg
    exact ⟨rfl, ih f hf t t' (List.cons.inj hrest).2⟩
  induction xs generalizing ys with
  | nil =>
      rw [List.length_nil] at hlen
      rw [List.eq_nil_of_length_eq_zero hlen.symm] at h ⊢
      exact ⟨rfl, (List.cons.inj h).2, fun f hf ↦ absurd hf List.not_mem_nil⟩
  | cons f xs ihx =>
      cases ys with
      | nil => simp at hlen
      | cons g ys =>
          obtain ⟨hf, hxrest⟩ := List.forall_mem_cons.mp hxs
          obtain ⟨hg, hyrest⟩ := List.forall_mem_cons.mp hys
          rw [List.length_cons, List.length_cons, Nat.succ_inj] at hlen
          cases xs with
          | nil =>
              rw [List.length_nil] at hlen
              rw [List.eq_nil_of_length_eq_zero hlen.symm] at h ⊢
              simp only [List.map_cons, List.map_nil, List.intercalate_singleton] at h
              obtain ⟨rfl, hr, hgood⟩ := hfield f hf g hg _ _ h
              exact ⟨rfl, (List.cons.inj hr).2, List.forall_mem_singleton.mpr hgood⟩
          | cons f' xs =>
              cases ys with
              | nil => simp at hlen
              | cons g' ys =>
                  simp only [List.map_cons, List.intercalate_cons_cons, List.append_assoc] at h
                  obtain ⟨rfl, hr, hgood⟩ := hfield f hf g hg _ _ h
                  have hr : List.intercalate [44]
                      ((f' :: xs).map fun f ↦ P.field (f.1, P.text f.2)) ++ 125 :: r =
                      List.intercalate [44]
                      ((g' :: ys).map fun f ↦ Q.field (f.1, Q.text f.2)) ++ 125 :: r' :=
                    (List.cons.inj hr).2
                  obtain ⟨heq, hr, hrest⟩ := ihx (g' :: ys) hlen hxrest hyrest hr
                  exact ⟨congrArg (f :: ·) heq, hr, List.forall_mem_cons.mpr ⟨hgood, hrest⟩⟩

variable (hle : KeyOrder le) (hle' : KeyOrder le')
  (hP : P.order = sortKeys le) (hQ : Q.order = sortKeys le') (hnumber : P.number = Q.number)
include hle hle' hP hQ hnumber

/-- A claim has one text in two styles only if its keys are sorted alike throughout. -/
theorem agree_of_text (hescape : P.escape = jsEscape) {c : Claim} (hdistinct : c.distinct = true)
    (hsame : c.every (fun s ↦ P.quote s = Q.quote s)
      (fun ks ↦ ks.all fun k ↦ P.quote k = Q.quote k) = true) {r r' : List Nat}
    (h : P.text c ++ r = Q.text c ++ r') :
    r = r' ∧ c.every (fun _ ↦ true) (ordersAgree le le') = true := by
  unfold Claim.distinct at hdistinct
  induction c using Claim.ind generalizing r r' with
  | null => exact ⟨List.append_cancel_left h, rfl⟩
  | bool b => cases b <;> exact ⟨List.append_cancel_left h, rfl⟩
  | num n =>
      rw [JsonStyle.text, JsonStyle.text, hnumber] at h
      exact ⟨List.append_cancel_left h, rfl⟩
  | str s =>
      have hs : P.quote s = Q.quote s := of_decide_eq_true hsame
      rw [JsonStyle.text, JsonStyle.text, hs] at h
      exact ⟨List.append_cancel_left h, rfl⟩
  | arr items ih =>
      rw [every_arr] at hdistinct hsame ⊢
      rw [JsonStyle.text, JsonStyle.text, items_eq_map, items_eq_map] at h
      simp only [List.cons_append, List.append_assoc, List.nil_append, List.cons.injEq,
        true_and] at h
      induction items with
      | nil => exact ⟨(List.cons.inj h).2, fun c hc ↦ absurd hc List.not_mem_nil⟩
      | cons c items ihi =>
          obtain ⟨hc, hdistinct⟩ := List.forall_mem_cons.mp hdistinct
          obtain ⟨hcs, hsame⟩ := List.forall_mem_cons.mp hsame
          obtain ⟨ihc, ih⟩ := List.forall_mem_cons.mp ih
          cases items with
          | nil =>
              simp only [List.map_cons, List.map_nil, List.intercalate_singleton] at h
              obtain ⟨hrest, hgood⟩ := ihc hc hcs h
              exact ⟨(List.cons.inj hrest).2, List.forall_mem_singleton.mpr hgood⟩
          | cons c' items =>
              simp only [List.map_cons, List.intercalate_cons_cons, List.append_assoc] at h
              obtain ⟨hrest, hgood⟩ := ihc hc hcs h
              obtain ⟨hrest, hall⟩ := ihi ih hdistinct hsame (List.cons.inj hrest).2
              exact ⟨hrest, List.forall_mem_cons.mpr ⟨hgood, hall⟩⟩
  | obj fields ih =>
      rw [every_obj] at hdistinct hsame ⊢
      obtain ⟨hnodup, hdistinct⟩ := hdistinct
      obtain ⟨hkeys, hsame⟩ := hsame
      rw [decide_eq_true_iff] at hnodup
      have hquote : ∀ f ∈ fields, P.quote f.1 = Q.quote f.1 := by
        intro f hf
        exact of_decide_eq_true (List.all_eq_true.mp hkeys f.1 (List.mem_map_of_mem hf))
      rw [JsonStyle.text, JsonStyle.text, fields_eq_map, fields_eq_map, hP, hQ, sortKeys_map,
        sortKeys_map, List.map_map, List.map_map] at h
      simp only [List.cons_append, List.append_assoc, List.nil_append, List.cons.injEq,
        true_and] at h
      have hlen : (sortKeys le fields).length = (sortKeys le' fields).length :=
        ((sortKeys_perm le fields).trans (sortKeys_perm le' fields).symm).length_eq
      obtain ⟨hsorted, hrest, hgood⟩ := fields_agree hescape hnodup hquote
        (fun c ↦ c.every (fun _ ↦ true) (ordersAgree le le') = true)
        (fun f hf r r' h ↦ ih f hf (hdistinct f hf) (hsame f hf) h) _ _ hlen
        (fun f ↦ (sortKeys_perm le fields).mem_iff.mp)
        (fun f ↦ (sortKeys_perm le' fields).mem_iff.mp) h
      refine ⟨hrest, ?_, fun f hf ↦ hgood f ((sortKeys_perm le fields).mem_iff.mpr hf)⟩
      apply hle.ordersAgree_of_sort hle'
      rw [← sortKeys_keys, ← sortKeys_keys, hsorted]

/-- Keys sorted alike throughout make one text. -/
theorem text_eq_of_agree {c : Claim} (hdistinct : c.distinct = true)
    (hsame : c.every (fun s ↦ P.quote s = Q.quote s)
      (fun ks ↦ ks.all fun k ↦ P.quote k = Q.quote k) = true)
    (hagree : c.every (fun _ ↦ true) (ordersAgree le le') = true) :
    P.text c = Q.text c := by
  unfold Claim.distinct at hdistinct
  induction c using Claim.ind with
  | null => rfl
  | bool b => cases b <;> rfl
  | num n => exact congrFun hnumber n
  | str s => exact of_decide_eq_true hsame
  | arr items ih =>
      rw [every_arr] at hdistinct hsame hagree
      have hitems : items.map P.text = items.map Q.text :=
        List.map_congr_left fun c hc ↦ ih c hc (hdistinct c hc) (hsame c hc) (hagree c hc)
      rw [JsonStyle.text, JsonStyle.text, items_eq_map, items_eq_map, hitems]
  | obj fields ih =>
      rw [every_obj] at hdistinct hsame hagree
      obtain ⟨hnodup, hdistinct⟩ := hdistinct
      obtain ⟨hkeys, hsame⟩ := hsame
      obtain ⟨horder, hagree⟩ := hagree
      rw [decide_eq_true_iff] at hnodup
      have hfields : (sortKeys le' fields).map (P.field ∘ fun f ↦ (f.1, P.text f.2)) =
          (sortKeys le' fields).map (Q.field ∘ fun f ↦ (f.1, Q.text f.2)) := by
        apply List.map_congr_left
        intro f hf
        have hf := (sortKeys_perm le' fields).mem_iff.mp hf
        have hquote : P.quote f.1 = Q.quote f.1 :=
          of_decide_eq_true (List.all_eq_true.mp hkeys f.1 (List.mem_map_of_mem hf))
        have htext := ih f hf (hdistinct f hf) (hsame f hf) (hagree f hf)
        simp only [Function.comp_apply, JsonStyle.field, hquote, htext]
      rw [JsonStyle.text, JsonStyle.text, fields_eq_map, fields_eq_map, hP, hQ, sortKeys_map,
        sortKeys_map, List.map_map, List.map_map, hle.sortKeys_eq hle' hnodup horder, hfields]

end Agree

/-! ## Bytes -/

theorem toNat_ofNat {p : Nat} (h : scalar p = true) : (Char.ofNat p).toNat = p := by
  simp only [scalar, isSurrogate, Bool.and_eq_true, Bool.not_eq_true', Bool.and_eq_false_iff,
    decide_eq_true_eq, decide_eq_false_iff_not] at h
  have hvalid : p.isValidChar := by
    unfold Nat.isValidChar
    omega
  rw [Char.ofNat, dif_pos hvalid]
  rfl

theorem scalar_toNat (c : Char) : scalar c.toNat = true := by
  have hvalid : c.toNat.isValidChar := c.valid
  unfold Nat.isValidChar at hvalid
  simp only [scalar, isSurrogate, Bool.and_eq_true, Bool.not_eq_true', Bool.and_eq_false_iff,
    decide_eq_true_eq, decide_eq_false_iff_not]
  omega

theorem utf8_injective {t t' : Text} (h : utf8 t = utf8 t') : t = t' := by
  apply String.ofList_injective
  rw [← String.toByteArray_inj, String.toByteArray_ofList, String.toByteArray_ofList]
  unfold List.utf8Encode
  exact congrArg List.toByteArray h

/-- Texts of scalars are told apart by their bytes. -/
theorem map_ofNat_injective {t t' : List Nat} (ht : ∀ p ∈ t, scalar p = true)
    (ht' : ∀ p ∈ t', scalar p = true) (h : t.map Char.ofNat = t'.map Char.ofNat) : t = t' := by
  have hback : ∀ l : List Nat, (∀ p ∈ l, scalar p = true) →
      (l.map Char.ofNat).map Char.toNat = l := by
    intro l hl
    rw [List.map_map]
    exact (List.map_congr_left fun p hp ↦ toNat_ofNat (hl p hp)).trans (List.map_id _)
  rw [← hback t ht, h, hback t' ht']

theorem encodeJs_eq {t : List Nat} (ht : ∀ p ∈ t, scalar p = true) :
    encodeJs t = utf8 (t.map Char.ofNat) := by
  unfold encodeJs
  congr 1
  apply List.map_congr_left
  intro p hp
  have hscalar := ht p hp
  simp only [scalar, Bool.and_eq_true, Bool.not_eq_true'] at hscalar
  rw [hscalar.2]
  rfl

/-- The signs a number is written with. -/
def numberSign (p : Nat) : Bool :=
  (48 ≤ p && p < 58) || p ∈ [43, 45, 46, 101, 108, 110, 117]

theorem sign_digit {p : Nat} (hp : 48 ≤ p ∧ p ≤ 57) : numberSign p = true := by
  simp only [numberSign, Bool.or_eq_true, Bool.and_eq_true, decide_eq_true_eq]
  exact .inl ⟨hp.1, Nat.lt_succ_of_le hp.2⟩

theorem sign_digitPoints (m : Nat) : ∀ p ∈ digitPoints m, numberSign p = true :=
  fun _ hp ↦ sign_digit (digitPoints_bounds hp)

theorem sign_numberDigits (d : Nat) : ∀ p ∈ numberDigits d, numberSign p = true := by
  unfold numberDigits
  split
  · exact sign_digitPoints d
  · unfold exponentDigits
    rw [List.forall_mem_append, List.forall_mem_append]
    refine ⟨⟨fun p hp ↦ ?_, by decide⟩, sign_digitPoints _⟩
    rcases mem_pointed hp with rfl | hp
    · decide
    · exact sign_digit (significant_bounds hp)

theorem sign_jsNumber (n : Int) : ∀ p ∈ jsNumber n, numberSign p = true := by
  unfold jsNumber
  split
  · decide
  · rw [List.forall_mem_append]
    refine ⟨?_, sign_numberDigits _⟩
    split
    · decide
    · decide

/-- The signs of a number are scalars. -/
theorem scalar_jsNumeral (n : WholeNumber) (p : Nat) (hp : p ∈ jsNumeral n) : scalar p = true := by
  have hsign := sign_jsNumber n.value p hp
  have hlt : p < 118 := by
    simp only [numberSign, Bool.or_eq_true, Bool.and_eq_true, decide_eq_true_eq,
      List.mem_cons, List.not_mem_nil, or_false] at hsign
    omega
  have hall : ∀ x < 118, numberSign x = true → scalar x = true := by decide
  exact hall p hlt hsign

theorem scalar_unicodeEscape (p : Nat) : ∀ x ∈ unicodeEscape p, scalar x = true := by
  intro x hx
  rcases List.mem_append.mp hx with hx | hx
  · exact (by decide : ∀ x ∈ [92, 117], scalar x = true) x hx
  · obtain ⟨n, -, rfl⟩ := List.mem_map.mp hx
    exact scalar_toNat _

theorem scalar_shortEscape {p letter : Nat} (h : shortEscape p = some letter) :
    ∀ x ∈ [92, letter], scalar x = true := by
  unfold shortEscape at h
  split at h
  all_goals cases h
  all_goals decide

/-- A JS text has no surrogate. -/
theorem scalar_jsEscape {p : Nat} (hp : p < 0x110000) : ∀ x ∈ jsEscape p, scalar x = true := by
  unfold jsEscape
  by_cases hs : isSurrogate p
  · rw [if_pos hs]
    exact scalar_unicodeEscape p
  · rw [if_neg hs]
    unfold pyEscape
    cases hshort : shortEscape p with
    | some letter => exact scalar_shortEscape hshort
    | none =>
        dsimp only
        split
        · exact scalar_unicodeEscape p
        · rw [List.forall_mem_singleton]
          simpa [scalar, hs] using hp

/-- A Python text has the surrogates of its strings. -/
theorem scalar_pyEscape_iff {p : Nat} (hp : p < 0x110000) :
    (∀ x ∈ pyEscape p, scalar x = true) ↔ isSurrogate p = false := by
  unfold pyEscape
  cases hshort : shortEscape p with
  | some letter =>
      refine iff_of_true (scalar_shortEscape hshort) ?_
      unfold shortEscape at hshort
      split at hshort
      all_goals cases hshort
      all_goals rfl
  | none =>
      dsimp only
      split
      · next h =>
          refine iff_of_true (scalar_unicodeEscape p) ?_
          simp only [isSurrogate, Bool.and_eq_false_iff, decide_eq_false_iff_not]
          omega
      · rw [List.forall_mem_singleton]
        simp [scalar, hp]

theorem scalar_of_signs (p : Nat) (h : 34 ≤ p) (h' : p < 126) : scalar p = true := by
  simp only [scalar, isSurrogate, Bool.and_eq_true, Bool.not_eq_true', Bool.and_eq_false_iff,
    decide_eq_true_eq, decide_eq_false_iff_not]
  omega

/-- A quoted string is made of scalars if what is escaped is. -/
theorem quote_all_scalar {style : JsonStyle} {s : JsString} :
    (style.quote s).all scalar = true ↔
      ∀ p ∈ codePoints s, ∀ x ∈ style.escape p, scalar x = true := by
  rw [List.all_eq_true, JsonStyle.quote, List.forall_mem_cons, List.forall_mem_append,
    List.forall_mem_singleton]
  have hquote : scalar 34 = true := by decide
  simp only [hquote, true_and, and_true, List.mem_flatMap]
  constructor
  · exact fun h p hp x hx ↦ h x ⟨p, hp, hx⟩
  · rintro h x ⟨p, hp, hx⟩
    exact h p hp x hx

/-- Every JS text is made of scalars. -/
theorem scalar_jsText (style : JsonStyle) (hnumber : style.number = jsNumeral)
    (hescape : style.escape = jsEscape) (horder : ∀ fields, (style.order fields).Perm fields)
    (c : Claim) : ∀ p ∈ style.text c, scalar p = true := by
  have hquote : ∀ s, (style.quote s).all scalar = true := by
    intro s
    rw [quote_all_scalar, hescape]
    exact fun p hp ↦ scalar_jsEscape (codePoints_lt s p hp)
  rw [text_forall scalar_of_signs (hnumber ▸ scalar_jsNumeral) horder]
  induction c using Claim.ind with
  | null => rfl
  | bool b => rfl
  | num n => rfl
  | str s => simpa [Claim.every] using hquote s
  | arr items ih =>
      rw [every_arr]
      exact ih
  | obj fields ih =>
      rw [every_obj, List.all_eq_true]
      exact ⟨fun k _ ↦ by simpa using hquote k, ih⟩

/-! ## Read where it was published -/

/-- How Python writes a claim that was published: its numbers are as the bot wrote them. -/
def readStyle : JsonStyle := ⟨jsNumeral, pyEscape, sortKeys pointsLe⟩

theorem publishedItems_eq_map (items : List Claim) :
    publishedItems items = items.map Claim.published := by
  induction items with
  | nil => rfl
  | cons c items ih => rw [publishedItems, ih, List.map_cons]

theorem publishedFields_eq_map (fields : List (JsString × Claim)) :
    publishedFields fields = fields.map fun f ↦ (f.1, f.2.published) := by
  induction fields with
  | nil => rfl
  | cons f fields ih =>
      obtain ⟨k, c⟩ := f
      rw [publishedFields, ih, List.map_cons]

/-- A style writes a published claim as another one the claim itself, if it does so with
numbers. -/
theorem text_published {P Q : JsonStyle} (hescape : P.escape = Q.escape)
    (horder : P.order = Q.order) (hnumber : ∀ n, P.text (readNumber (jsNumeral n)) = Q.number n)
    (c : Claim) : P.text c.published = Q.text c := by
  have hquote : P.quote = Q.quote := by
    funext s
    rw [JsonStyle.quote, JsonStyle.quote, hescape]
  have hfield : P.field = Q.field := by
    funext f
    rw [JsonStyle.field, JsonStyle.field, hquote]
  induction c using Claim.ind with
  | null => rfl
  | bool b => cases b <;> rfl
  | num n => exact hnumber n
  | str s => exact congrFun hquote s
  | arr items ih =>
      have hitems : (items.map Claim.published).map P.text = items.map Q.text := by
        rw [List.map_map]
        exact List.map_congr_left ih
      rw [Claim.published, publishedItems_eq_map, JsonStyle.text, JsonStyle.text, items_eq_map,
        items_eq_map, hitems]
  | obj fields ih =>
      have hfields : (fields.map fun f ↦ (f.1, f.2.published)).map (fun f ↦ (f.1, P.text f.2)) =
          fields.map fun f ↦ (f.1, Q.text f.2) := by
        rw [List.map_map]
        exact List.map_congr_left fun f hf ↦ congrArg (Prod.mk f.1) (ih f hf)
      rw [Claim.published, publishedFields_eq_map, JsonStyle.text, JsonStyle.text, fields_eq_map,
        fields_eq_map, hfields, horder, hfield]

/-- A number is written again as it was. -/
theorem text_readNumber {P : JsonStyle} {n : WholeNumber}
    (h : overflows n.value = false → P.number (readNumeral (jsNumeral n)) = jsNumeral n) :
    P.text (readNumber (jsNumeral n)) = jsNumeral n := by
  unfold readNumber
  split
  · rename_i hnull
    exact hnull.symm
  · rename_i hnull
    refine h (Bool.eq_false_iff.mpr fun hover ↦ hnull ?_)
    rw [jsNumeral, jsNumber, if_pos hover]

theorem jsText_published (style : JsonStyle) (hnumber : style.number = jsNumeral) (c : Claim) :
    style.text c.published = style.text c := by
  refine text_published (P := style) (Q := style) rfl rfl (fun n ↦ ?_) c
  rw [hnumber]
  refine text_readNumber fun hfinite ↦ ?_
  rw [hnumber]
  exact jsNumber_readNumeral hfinite

theorem dumpsText_published (c : Claim) : canonicalDumps c.published = readStyle.text c := by
  refine text_published (P := dumpsStyle) (Q := readStyle) rfl rfl (fun n ↦ ?_) c
  exact text_readNumber pyNumber_readNumeral

theorem every_published {str : JsString → Bool} {keys : List JsString → Bool} (c : Claim) :
    c.published.every str keys = true ↔ c.every str keys = true := by
  induction c using Claim.ind with
  | null => rfl
  | bool b => rfl
  | num n =>
      refine iff_of_true ?_ rfl
      rw [Claim.published, readNumber]
      split
      · rfl
      · rfl
  | str s => rfl
  | arr items ih =>
      rw [Claim.published, publishedItems_eq_map, every_arr, every_arr, List.forall_mem_map]
      exact forall₂_congr ih
  | obj fields ih =>
      rw [Claim.published, publishedFields_eq_map, every_obj, every_obj, List.forall_mem_map,
        List.map_map]
      exact and_congr Iff.rfl (forall₂_congr ih)

theorem dumps_all_scalar (c : Claim) : (readStyle.text c).all scalar = true ↔
    c.every paired (fun keys ↦ keys.all paired) = true := by
  have hquote : ∀ s, (readStyle.quote s).all (fun p ↦ decide (scalar p = true)) = paired s := by
    intro s
    rw [Bool.eq_iff_iff]
    simp only [Bool.decide_eq_true]
    rw [show (readStyle.quote s).all (fun p ↦ scalar p) = (readStyle.quote s).all scalar from rfl,
      quote_all_scalar]
    unfold paired
    rw [Bool.not_eq_true', List.any_eq_false]
    constructor
    · exact fun h p hp ↦ by simpa using (scalar_pyEscape_iff (codePoints_lt s p hp)).mp (h p hp)
    · exact fun h p hp ↦ (scalar_pyEscape_iff (codePoints_lt s p hp)).mpr (by simpa using h p hp)
  rw [List.all_eq_true, text_forall scalar_of_signs scalar_jsNumeral (sortKeys_perm pointsLe)]
  simp only [hquote]

/-! ## The three forms -/

theorem quote_congr {P Q : JsonStyle} {s : JsString}
    (h : ∀ p ∈ codePoints s, P.escape p = Q.escape p) : P.quote s = Q.quote s := by
  rw [JsonStyle.quote, JsonStyle.quote, List.flatMap_congr h]

/-- Python writes a string without lone surrogates as the bot does. -/
theorem readStyle_quote {s : JsString} (h : paired s = true) :
    rebuiltStyle.quote s = readStyle.quote s := by
  apply quote_congr
  intro p hp
  rw [paired, Bool.not_eq_true', List.any_eq_false] at h
  exact if_neg (h p hp)

theorem scalar_canonicalJson (c : Claim) : ∀ p ∈ canonicalJson c, scalar p = true :=
  scalar_jsText canonicalStyle rfl rfl (sortKeys_perm unitsLe) c

theorem scalar_rebuilt (c : Claim) : ∀ p ∈ rebuiltStyle.text c, scalar p = true :=
  scalar_jsText rebuiltStyle rfl rfl (sortKeys_perm ownLe) c

theorem scalar_canonicalClaim {c : Claim} (hdistinct : c.distinct = true) :
    ∀ p ∈ canonicalClaim c, scalar p = true := by
  rw [canonicalClaim_eq hdistinct]
  exact scalar_rebuilt c

/-- The bot finds its own text again. -/
theorem botBytes_published {c : Claim} (hdistinct : c.distinct = true) :
    botBytes c.published = botBytes c := by
  have hagain : c.published.distinct = true := (every_published c).mpr hdistinct
  rw [botBytes, botBytes, canonicalClaim_eq hagain, canonicalClaim_eq hdistinct,
    jsText_published rebuiltStyle rfl]

/-- The two JS texts of a claim are one if a rebuilt object keeps the order it was sorted in. -/
theorem jsBytes_eq_botBytes {c : Claim} (hdistinct : c.distinct = true) :
    jsBytes c.published = botBytes c ↔
      c.every (fun _ ↦ true) (ordersAgree unitsLe ownLe) = true := by
  have hquote : ∀ s, canonicalStyle.quote s = rebuiltStyle.quote s := fun _ ↦ rfl
  have hsame : c.every (fun s ↦ canonicalStyle.quote s = rebuiltStyle.quote s)
      (fun ks ↦ ks.all fun k ↦ canonicalStyle.quote k = rebuiltStyle.quote k) = true :=
    Claim.every_imp hdistinct hdistinct (fun s _ _ ↦ decide_eq_true (hquote s))
      fun ks _ _ ↦ List.all_eq_true.mpr fun k _ ↦ decide_eq_true (hquote k)
  rw [jsBytes, botBytes, canonicalJson, jsText_published canonicalStyle rfl,
    canonicalClaim_eq hdistinct]
  constructor
  · intro h
    rw [encodeJs_eq (t := canonicalStyle.text c) (scalar_canonicalJson c),
      encodeJs_eq (scalar_rebuilt c)] at h
    have htext : canonicalStyle.text c = rebuiltStyle.text c :=
      map_ofNat_injective (scalar_canonicalJson c) (scalar_rebuilt c) (utf8_injective h)
    exact (agree_of_text (P := canonicalStyle) (Q := rebuiltStyle) unitsLe_order ownLe_order
      rfl rfl rfl rfl hdistinct hsame (congrArg (· ++ []) htext)).2
  · intro h
    rw [text_eq_of_agree (P := canonicalStyle) (Q := rebuiltStyle) unitsLe_order ownLe_order
      rfl rfl rfl hdistinct hsame h]

/-- The Python text of a published claim is the bot's if it can be encoded and the keys of
every object come in one order. -/
theorem pyBytes_eq_botBytes {c : Claim} (hdistinct : c.distinct = true) :
    pyBytes c.published = some (botBytes c) ↔
      c.every paired (fun ks ↦ ks.all paired && ordersAgree ownLe pointsLe ks) = true := by
  have hsame : c.every paired (fun ks ↦ ks.all paired) = true →
      c.every (fun s ↦ rebuiltStyle.quote s = readStyle.quote s)
        (fun ks ↦ ks.all fun k ↦ rebuiltStyle.quote k = readStyle.quote k) = true := by
    intro h
    refine Claim.every_imp h h (fun s hs _ ↦ decide_eq_true (readStyle_quote hs))
      fun ks hks _ ↦ List.all_eq_true.mpr fun k hk ↦ decide_eq_true (readStyle_quote ?_)
    exact List.all_eq_true.mp hks k hk
  rw [pyBytes, encodePy, botBytes, dumpsText_published, canonicalClaim_eq hdistinct,
    encodeJs_eq (scalar_rebuilt c)]
  constructor
  · intro h
    split at h
    · next hall =>
        have hpaired := (dumps_all_scalar c).mp hall
        have htext : rebuiltStyle.text c = readStyle.text c :=
          (map_ofNat_injective (List.all_eq_true.mp hall) (scalar_rebuilt c)
            (utf8_injective (Option.some.inj h))).symm
        have hagree := (agree_of_text (P := rebuiltStyle) (Q := readStyle) ownLe_order
          pointsLe_order rfl rfl rfl rfl hdistinct (hsame hpaired) (congrArg (· ++ []) htext)).2
        exact Claim.every_imp hpaired hagree (fun _ h _ ↦ h) fun ks hks h ↦
          Bool.and_eq_true_iff.mpr ⟨hks, h⟩
    · cases h
  · intro h
    have hpaired : c.every paired (fun ks ↦ ks.all paired) = true :=
      Claim.every_imp h h (fun _ h _ ↦ h) fun _ h _ ↦ (Bool.and_eq_true_iff.mp h).1
    have hagree : c.every (fun _ ↦ true) (ordersAgree ownLe pointsLe) = true :=
      Claim.every_imp h h (fun _ _ _ ↦ rfl) fun _ h _ ↦ (Bool.and_eq_true_iff.mp h).2
    rw [if_pos ((dumps_all_scalar c).mpr hpaired),
      text_eq_of_agree (P := rebuiltStyle) (Q := readStyle) ownLe_order pointsLe_order rfl rfl rfl
        hdistinct (hsame hpaired) hagree]

/-- The three forms of a published claim are one exactly if the claim is portable. -/
theorem forms_iff {c : Claim} (hdistinct : c.distinct = true) :
    (jsBytes c.published = botBytes c ∧ pyBytes c.published = some (botBytes c)) ↔
      c.portable = true := by
  rw [jsBytes_eq_botBytes hdistinct, pyBytes_eq_botBytes hdistinct]
  constructor
  · rintro ⟨hjs, hpy⟩
    refine Claim.every_imp hjs hpy (fun _ _ h ↦ h) ?_
    intro ks hown hpoints
    simp only [Bool.and_eq_true, ordersAgree_iff] at hown hpoints ⊢
    exact ⟨hpoints.1, hown, fun a ha b hb ↦ (hown a ha b hb).trans (hpoints.2 a ha b hb)⟩
  · intro hportable
    refine ⟨Claim.every_imp hportable hportable (fun _ _ _ ↦ rfl) ?_,
      Claim.every_imp hportable hportable (fun _ h _ ↦ h) ?_⟩
    · intro ks h _
      exact (Bool.and_eq_true_iff.mp (Bool.and_eq_true_iff.mp h).2).1
    · intro ks h _
      simp only [Bool.and_eq_true, ordersAgree_iff] at h ⊢
      exact ⟨h.1, fun a ha b hb ↦ (h.2.1 a ha b hb).symm.trans (h.2.2 a ha b hb)⟩

end Kascov
