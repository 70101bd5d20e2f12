import Kascov.Passport.Badge

/-!
# What a passport file proves

Whatever the order of its claims, a file has one root, and a path to that root starts at the
text of a published claim.  The three programs accept every published path exactly if every
claim has one canonical form.
-/

namespace Kascov

open PairedMerkle (walk nodeHash walkInputs rootInputs PairInput InTree)

/-! ## Digests -/

theorem Hex64.length (h : Hex64) : h.val.length = 64 := by
  have hhex := h.property
  simp only [isHex64, Bool.and_eq_true, decide_eq_true_eq] at hhex
  exact hhex.1

theorem Hex64.units (h : Hex64) : ∀ u ∈ h.val, isHexUnit u = true := by
  have hhex := h.property
  simp only [isHex64, Bool.and_eq_true, List.all_eq_true] at hhex
  exact hhex.2

/-- A digest is in lower case. -/
theorem lower_val (h : Hex64) : lower h.val = h.val := by
  refine (List.map_congr_left fun u hu ↦ ?_).trans (List.map_id _)
  have hunit := h.units u hu
  simp only [isHexUnit, Bool.or_eq_true, Bool.and_eq_true, decide_eq_true_eq] at hunit
  rw [if_neg (by omega)]
  rfl

theorem nibble_injective {u v : CodeUnit} (hu : isHexUnit u = true) (hv : isHexUnit v = true)
    (h : nibble u = nibble v) : u = v := by
  simp only [isHexUnit, Bool.or_eq_true, Bool.and_eq_true, decide_eq_true_eq] at hu hv
  unfold nibble at h
  apply Fin.ext
  split at h <;> split at h <;> omega

theorem nibble_lt {u : CodeUnit} (hu : isHexUnit u = true) : nibble u < 16 := by
  simp only [isHexUnit, Bool.or_eq_true, Bool.and_eq_true, decide_eq_true_eq] at hu
  unfold nibble
  split <;> omega

theorem unhex_append : ∀ (s t : JsString), s.length % 2 = 0 → unhex (s ++ t) = unhex s ++ unhex t
  | [], t, _ => rfl
  | [_], _, h => by simp at h
  | high :: low :: rest, t, h => by
      have hrest : rest.length % 2 = 0 := by
        simp only [List.length_cons] at h
        omega
      rw [List.cons_append, List.cons_append, unhex, unhex, unhex_append rest t hrest]
      rfl

theorem length_unhex : ∀ s : JsString, (unhex s).length = s.length / 2
  | [] => rfl
  | [_] => by simp [unhex]
  | high :: low :: rest => by
      rw [unhex, List.length_cons, length_unhex rest, List.length_cons, List.length_cons]
      omega

theorem unhex_injective : ∀ {s t : JsString}, (∀ u ∈ s, isHexUnit u = true) →
    (∀ u ∈ t, isHexUnit u = true) → s.length = t.length → s.length % 2 = 0 → unhex s = unhex t →
    s = t
  | [], [], _, _, _, _, _ => rfl
  | [], _ :: _, _, _, hlen, _, _ => by simp at hlen
  | _ :: _, [], _, _, hlen, _, _ => by simp at hlen
  | [_], _, _, _, _, heven, _ => by simp at heven
  | _ :: _ :: _, [_], _, _, hlen, _, _ => by simp at hlen
  | high :: low :: s, high' :: low' :: t, hs, ht, hlen, heven, h => by
      obtain ⟨hhigh, hs⟩ := List.forall_mem_cons.mp hs
      obtain ⟨hlow, hs⟩ := List.forall_mem_cons.mp hs
      obtain ⟨hhigh', ht⟩ := List.forall_mem_cons.mp ht
      obtain ⟨hlow', ht⟩ := List.forall_mem_cons.mp ht
      rw [unhex, unhex] at h
      obtain ⟨hbyte, hrest⟩ := List.cons.inj h
      have hbyte := congrArg UInt8.toNat hbyte
      have h1 := nibble_lt hhigh
      have h2 := nibble_lt hlow
      have h3 := nibble_lt hhigh'
      have h4 := nibble_lt hlow'
      rw [UInt8.toNat_ofNat', UInt8.toNat_ofNat'] at hbyte
      simp only [List.length_cons] at hlen heven
      rw [nibble_injective hhigh hhigh' (by omega), nibble_injective hlow hlow' (by omega),
        unhex_injective hs ht (by omega) (by omega) hrest]

theorem unhex_val_injective {a b : Hex64} (h : unhex a.val = unhex b.val) : a = b :=
  Subtype.ext (unhex_injective a.units b.units (a.length.trans b.length.symm)
    (by rw [a.length]) h)

/-- The bytes of a pair tell the pair. -/
theorem pairBytes_input : PairInput pairBytes where
  comm a b := by
    unfold pairBytes
    rcases lt_trichotomy a.val b.val with h | h | h
    · rw [if_pos h.le, if_neg (not_le.mpr h)]
    · rw [Subtype.ext h]
    · rw [if_neg (not_le.mpr h), if_pos h.le]
  inj a b c d h := by
    have hsplit : ∀ a b c d : Hex64, unhex a.val ++ unhex b.val = unhex c.val ++ unhex d.val →
        a = c ∧ b = d := by
      intro a b c d h
      have hlen : (unhex a.val).length = (unhex c.val).length := by
        rw [length_unhex, length_unhex, a.length, c.length]
      obtain ⟨hleft, hright⟩ := List.append_inj h hlen
      exact ⟨unhex_val_injective hleft, unhex_val_injective hright⟩
    unfold pairBytes at h
    by_cases hab : a.val ≤ b.val
    · rw [if_pos hab] at h
      by_cases hcd : c.val ≤ d.val
      · rw [if_pos hcd] at h
        exact .inl (hsplit a b c d h)
      · rw [if_neg hcd] at h
        exact .inr (hsplit a b d c h)
    · rw [if_neg hab] at h
      by_cases hcd : c.val ≤ d.val
      · rw [if_pos hcd] at h
        exact .inr (hsplit b a c d h).symm
      · rw [if_neg hcd] at h
        exact .inl (hsplit b a d c h).symm

/-- The JS client hashes the same bytes, joined before they are read. -/
theorem joinedBytes_eq (cur sib : Hex64) : joinedBytes cur sib = pairBytes cur sib := by
  unfold joinedBytes pairBytes
  exact unhex_append _ _ (by rw [Hex64.length])

/-- The bytes of a pair are sixty-four. -/
theorem length_pairBytes (a b : Hex64) : (pairBytes a b).length = 64 := by
  unfold pairBytes
  rw [List.length_append, length_unhex, length_unhex, Hex64.length, Hex64.length]

/-! ## The steps of a path -/

theorem walkSteps_eq (normal : JsString → JsString) (node : Hex64 → Hex64 → Hex64) (h : Hex64)
    (steps : List Claim) :
    walkSteps normal node h steps = (hexSteps normal steps).map (walk node h) := by
  induction steps generalizing h with
  | nil => rfl
  | cons step steps ih =>
      cases step with
      | str s =>
          rw [walkSteps, hexSteps]
          split
          · rw [ih, Option.map_map]
            rfl
          · rfl
      | null => rfl
      | bool b => rfl
      | num n => rfl
      | arr items => rfl
      | obj fields => rfl

/-- The steps of a published path are its digests. -/
theorem hexSteps_proof {normal : JsString → JsString} (hnormal : ∀ h : Hex64, normal h.val = h.val)
    (proof : List Hex64) :
    hexSteps normal (proof.map fun step ↦ .str step.val) = some proof := by
  induction proof with
  | nil => rfl
  | cons h proof ih =>
      have hstep : isHex64 (normal h.val) = true := by
        rw [hnormal]
        exact h.property
      have hval : (⟨normal h.val, hstep⟩ : Hex64) = h := Subtype.ext (hnormal h)
      rw [List.map_cons, hexSteps, dif_pos hstep, ih, hval]
      rfl

theorem Verifier.normal_val (v : Verifier) (h : Hex64) : v.normal h.val = h.val := by
  cases v with
  | bot => rfl
  | js => exact lower_val h
  | py => exact lower_val h

section Verified

variable (sha256 : Bytes → Hex64)

theorem nodeHash_joinedBytes : nodeHash sha256 joinedBytes = pairHash sha256 := by
  funext a b
  exact congrArg sha256 (joinedBytes_eq a b)

/-- A walk over steps reaches a text. -/
def Reaches (normal : JsString → JsString) (leaf : Hex64) (proof root : Claim) : Prop :=
  ∃ steps digests text, proof = .arr steps ∧ hexSteps normal steps = some digests ∧
    root = .str text ∧ (walk (pairHash sha256) leaf digests).val = normal text

theorem verifyProof_iff {claim proof root : Claim} :
    verifyProof sha256 claim proof root = true ↔
      Reaches sha256 id (claimLeaf sha256 claim) proof root := by
  unfold verifyProof
  constructor
  · intro h
    split at h
    · cases h
    · cases proof with
      | arr steps =>
          dsimp only at h
          rw [walkSteps_eq] at h
          cases hsteps : hexSteps id steps with
          | none =>
              rw [hsteps] at h
              cases h
          | some digests =>
              rw [hsteps] at h
              cases root with
              | str text => exact ⟨steps, digests, text, rfl, hsteps, rfl, of_decide_eq_true h⟩
              | null => cases h
              | bool b => cases h
              | num n => cases h
              | arr items => cases h
              | obj fields => cases h
      | null => cases h
      | bool b => cases h
      | num n => cases h
      | str s => cases h
      | obj fields => cases h
  · rintro ⟨steps, digests, text, rfl, hsteps, rfl, htext⟩
    have hne : text ≠ [] := by
      rintro rfl
      have hlen := (walk (pairHash sha256) (claimLeaf sha256 claim) digests).length
      rw [htext] at hlen
      cases hlen
    rw [if_neg (by simp [truthy, hne])]
    dsimp only
    rw [walkSteps_eq, hsteps]
    exact decide_eq_true htext

/-- The test of both clients, after they have hashed a claim. -/
theorem lowered_iff {leaf : Hex64} {steps : List Claim} {text : JsString} :
    (isHex64 (lower text) = true ∧
      (match walkSteps lower (pairHash sha256) leaf steps with
        | some cur => decide (cur.val = lower text)
        | none => false) = true) ↔ Reaches sha256 lower leaf (.arr steps) (.str text) := by
  rw [walkSteps_eq]
  constructor
  · rintro ⟨-, h⟩
    cases hsteps : hexSteps lower steps with
    | none =>
        rw [hsteps] at h
        cases h
    | some digests =>
        rw [hsteps] at h
        exact ⟨steps, digests, text, rfl, hsteps, rfl, of_decide_eq_true h⟩
  · rintro ⟨steps', digests, text', hproof, hsteps, hroot, htext⟩
    cases hproof
    cases hroot
    refine ⟨htext ▸ (walk (pairHash sha256) leaf digests).property, ?_⟩
    rw [hsteps]
    exact decide_eq_true htext

theorem not_reaches {normal : JsString → JsString} {leaf : Hex64} {proof root : Claim}
    (h : ∀ steps text, ¬(proof = .arr steps ∧ root = .str text)) :
    ¬Reaches sha256 normal leaf proof root := by
  rintro ⟨steps, digests, text, hproof, -, hroot, -⟩
  exact h steps text ⟨hproof, hroot⟩

theorem verifyBadge_iff {claim proof root : Claim} :
    verifyBadge sha256 claim proof root = true ↔
      Reaches sha256 lower (sha256 (jsBytes claim)) proof root := by
  unfold verifyBadge
  split
  · next steps text =>
      rw [← lowered_iff, nodeHash_joinedBytes]
      by_cases hhex : isHex64 (lower text) = true
      · rw [if_pos hhex]
        exact (and_iff_right hhex).symm
      · rw [if_neg hhex]
        exact iff_of_false Bool.false_ne_true fun h ↦ hhex h.1
  · next h =>
      exact iff_of_false Bool.false_ne_true (not_reaches sha256 fun steps text heq ↦
        h steps text heq.1 heq.2)

theorem verifyBadgePy_iff {claim proof root : Claim} :
    verifyBadgePy sha256 claim proof root = some true ↔
      ∃ bytes, pyBytes claim = some bytes ∧ Reaches sha256 lower (sha256 bytes) proof root := by
  unfold verifyBadgePy
  split
  · next steps text =>
      by_cases hhex : isHex64 (lower text) = true
      · rw [if_pos hhex, Option.map_eq_some_iff]
        constructor
        · rintro ⟨bytes, hbytes, h⟩
          exact ⟨bytes, hbytes, (lowered_iff sha256).mp ⟨hhex, h⟩⟩
        · rintro ⟨bytes, hbytes, h⟩
          exact ⟨bytes, hbytes, ((lowered_iff sha256).mpr h).2⟩
      · rw [if_neg hhex]
        refine iff_of_false (by decide) ?_
        rintro ⟨bytes, -, h⟩
        exact hhex ((lowered_iff sha256).mpr h).1
  · next h =>
      refine iff_of_false (by decide) ?_
      rintro ⟨bytes, -, hreaches⟩
      exact not_reaches sha256 (fun steps text heq ↦ h steps text heq.1 heq.2) hreaches

/-- A program accepts a path whose digests lead from the hash of its bytes to the root. -/
theorem Verifier.accepts_iff (v : Verifier) {claim proof root : Claim} :
    v.accepts sha256 claim proof root = true ↔
      ∃ bytes, v.form claim = some bytes ∧
        Reaches sha256 v.normal (sha256 bytes) proof root := by
  cases v with
  | bot =>
      refine (verifyProof_iff sha256).trans ⟨fun h ↦ ⟨_, rfl, h⟩, ?_⟩
      rintro ⟨bytes, hbytes, h⟩
      cases hbytes
      exact h
  | js =>
      refine (verifyBadge_iff sha256).trans ⟨fun h ↦ ⟨_, rfl, h⟩, ?_⟩
      rintro ⟨bytes, hbytes, h⟩
      cases hbytes
      exact h
  | py => exact decide_eq_true_iff.trans (verifyBadgePy_iff sha256)

/-! ## The file -/

theorem sortClaims_perm (claims : List Claim) : (sortClaims claims).Perm claims :=
  List.perm_insertionSort _ claims

/-- A published pair: its claim is one of the list, and its path leads to the root. -/
theorem mem_buildPassportFile {claims : List Claim} {entry : Claim × List Hex64}
    (h : entry ∈ (buildPassportFile sha256 claims).claims) :
    entry.1 ∈ claims ∧ (buildPassportFile sha256 claims).merkleRoot =
      some (walk (pairHash sha256) (claimLeaf sha256 entry.1) entry.2) := by
  obtain ⟨⟨c, i⟩, hci, rfl⟩ := List.mem_map.mp h
  have hget := List.mem_zipIdx_iff_getElem?.mp hci
  have hleaf : ((sortClaims claims).map (claimLeaf sha256))[i]? = some (claimLeaf sha256 c) := by
    rw [List.getElem?_map, hget]
    rfl
  exact ⟨(sortClaims_perm claims).mem_iff.mp (List.mem_of_getElem? hget),
    PairedMerkle.walk_proof (pairHash sha256)
      (fun a b ↦ congrArg sha256 (pairBytes_input.comm a b)) hleaf⟩

/-- Every claim is published with a path. -/
theorem exists_entry {claims : List Claim} {c : Claim} (hc : c ∈ claims) :
    ∃ proof, (c, proof) ∈ (buildPassportFile sha256 claims).claims := by
  obtain ⟨i, hi⟩ := List.mem_iff_getElem?.mp ((sortClaims_perm claims).mem_iff.mpr hc)
  have hentry : (c, i) ∈ (sortClaims claims).zipIdx := List.mem_zipIdx_iff_getElem?.mpr hi
  exact ⟨_, List.mem_map.mpr ⟨(c, i), hentry, rfl⟩⟩

/-- The units of a text of scalars tell the text. -/
theorem utf16_injective : ∀ {t t' : List Nat}, (∀ p ∈ t, scalar p = true) →
    (∀ p ∈ t', scalar p = true) → t.flatMap utf16 = t'.flatMap utf16 → t = t'
  | [], [], _, _, _ => rfl
  | [], p :: t', _, _, h => by
      rw [List.flatMap_cons, utf16] at h
      split at h <;> cases h
  | p :: t, [], _, _, h => by
      rw [List.flatMap_cons, utf16] at h
      split at h <;> cases h
  | p :: t, p' :: t', ht, ht', h => by
      obtain ⟨hp, ht⟩ := List.forall_mem_cons.mp ht
      obtain ⟨hp', ht'⟩ := List.forall_mem_cons.mp ht'
      simp only [scalar, isSurrogate, Bool.and_eq_true, Bool.not_eq_true',
        Bool.and_eq_false_iff, decide_eq_true_eq, decide_eq_false_iff_not] at hp hp'
      rw [List.flatMap_cons, List.flatMap_cons, utf16, utf16] at h
      have hboth : p = p' ∧ t.flatMap utf16 = t'.flatMap utf16 := by
        split at h
        · split at h
          · exact List.cons.inj h
          · exact absurd (List.cons.inj h).1 (by omega)
        · split at h
          · exact absurd (List.cons.inj h).1 (by omega)
          · simp only [List.cons_append, List.nil_append, List.cons.injEq] at h
            exact ⟨by omega, h.2.2⟩
      rw [hboth.1, utf16_injective ht ht' hboth.2]

theorem claimLeaf_eq_of_units {c c' : Claim} (hc : c.distinct = true) (hc' : c'.distinct = true)
    (h : textUnits c = textUnits c') : claimLeaf sha256 c = claimLeaf sha256 c' := by
  have htext := utf16_injective (scalar_canonicalClaim hc) (scalar_canonicalClaim hc') h
  unfold claimLeaf botBytes
  rw [htext]

theorem pairwise_sortClaims (claims : List Claim) :
    (sortClaims claims).Pairwise fun a b ↦ textUnits a ≤ textUnits b := by
  have htotal : Std.Total fun a b ↦ textUnits a ≤ textUnits b :=
    ⟨fun a b ↦ le_total (textUnits a) (textUnits b)⟩
  have htrans : IsTrans Claim fun a b ↦ textUnits a ≤ textUnits b := ⟨fun a b c ↦ le_trans⟩
  exact List.pairwise_insertionSort _ claims

/-- The leaves of a list of claims, sorted, do not depend on its order. -/
theorem leaves_perm {claims claims' : List Claim} (hperm : claims'.Perm claims)
    (hdistinct : ∀ c ∈ claims, c.distinct = true) :
    (sortClaims claims').map (claimLeaf sha256) = (sortClaims claims).map (claimLeaf sha256) := by
  have hsorted := ((sortClaims_perm claims').trans hperm).trans (sortClaims_perm claims).symm
  have hmem : ∀ c ∈ sortClaims claims, c.distinct = true :=
    fun c hc ↦ hdistinct c ((sortClaims_perm claims).mem_iff.mp hc)
  -- sorted texts are determined, and a text determines its leaf
  have htexts : (sortClaims claims').map textUnits = (sortClaims claims).map textUnits :=
    List.Perm.eq_of_pairwise (fun _ _ _ _ ↦ le_antisymm)
      (List.pairwise_map.mpr (pairwise_sortClaims claims'))
      (List.pairwise_map.mpr (pairwise_sortClaims claims)) (hsorted.map textUnits)
  have hlen := hsorted.length_eq
  apply List.ext_getElem
  · rw [List.length_map, List.length_map, hlen]
  · intro i hi hi'
    rw [List.length_map] at hi hi'
    rw [List.getElem_map, List.getElem_map]
    apply claimLeaf_eq_of_units sha256 (hmem _ (hsorted.mem_iff.mp (List.getElem_mem hi)))
      (hmem _ (List.getElem_mem hi'))
    have hi'' := List.getElem_of_eq htexts (by rwa [List.length_map] : i < _)
    rwa [List.getElem_map, List.getElem_map] at hi''

theorem merkleRoot_perm {claims claims' : List Claim} (hperm : claims'.Perm claims)
    (hdistinct : ∀ c ∈ claims, c.distinct = true) :
    (buildPassportFile sha256 claims').merkleRoot = (buildPassportFile sha256 claims).merkleRoot :=
  congrArg (merkleRoot sha256) (leaves_perm sha256 hperm hdistinct)

/-! ## The law of a file -/

/-- Everything that is hashed to build a file and to check its paths. -/
def passportInputs (claims : List Claim) : List Bytes :=
  let leaves := (sortClaims claims).map (claimLeaf sha256)
  claims.map botBytes ++ rootInputs sha256 pairBytes leaves.length leaves ++
    (buildPassportFile sha256 claims).claims.flatMap fun entry ↦
      [Verifier.bot, .js, .py].flatMap fun v ↦
        v.hashed sha256 entry.1.published (proofValue entry.2)

/-- Claims as JSON has them: no object has a key twice. -/
abbrev Claims := {claims : List Claim // ∀ c ∈ claims, c.distinct = true}

/-- What a file promises, as long as nothing but `seen` is hashed. -/
structure PassportLaw (seen : Set Bytes) (claims : Claims) : Prop where
  /-- The root does not depend on the order of the list. -/
  order : ∀ claims' : List Claim, claims'.Perm claims →
    (buildPassportFile sha256 claims').merkleRoot = (buildPassportFile sha256 claims).merkleRoot
  /-- Every published pair verifies in every program that reads it. -/
  verifies : ∀ entry ∈ (buildPassportFile sha256 claims).claims, ∀ v : Verifier,
    v.accepts sha256 entry.1.published (proofValue entry.2)
      (rootValue (buildPassportFile sha256 claims).merkleRoot) = true
  /-- The three canonical forms of a published claim are the bytes that the bot hashed. -/
  forms : ∀ c ∈ claims.val, botBytes c.published = botBytes c ∧ jsBytes c.published = botBytes c ∧
    pyBytes c.published = some (botBytes c)
  /-- What a program accepts has the form of a published claim, unless a text has the
  length of a pair. -/
  proves : ∀ (v : Verifier) (claim proof : Claim) (bytes : Bytes), v.form claim = some bytes →
    (∀ x ∈ v.hashed sha256 claim proof, x ∈ seen) → bytes.length ≠ 64 →
    (∀ c ∈ claims.val, (botBytes c).length ≠ 64) →
    v.accepts sha256 claim proof (rootValue (buildPassportFile sha256 claims).merkleRoot) = true →
    ∃ c ∈ claims.val, bytes = botBytes c

variable {sha256} {seen : Set Bytes}

theorem hashed_proof {v : Verifier} {c : Claim} {bytes : Bytes} (hform : v.form c = some bytes)
    {steps : List Claim} {digests : List Hex64} (hsteps : hexSteps v.normal steps = some digests) :
    v.hashed sha256 c (.arr steps) =
      bytes :: walkInputs sha256 pairBytes (sha256 bytes) digests := by
  unfold Verifier.hashed
  rw [hform]
  dsimp only
  rw [hsteps]

/-- An accepted path walks to the root. -/
theorem walk_of_accepts {v : Verifier} {claim proof : Claim} {root : Option Hex64}
    (h : v.accepts sha256 claim proof (rootValue root) = true) :
    ∃ bytes steps digests, v.form claim = some bytes ∧ proof = .arr steps ∧
      hexSteps v.normal steps = some digests ∧
      root = some (walk (pairHash sha256) (sha256 bytes) digests) := by
  obtain ⟨bytes, hform, steps, digests, text, hproof, hsteps, hroot, htext⟩ :=
    (v.accepts_iff sha256).mp h
  refine ⟨bytes, steps, digests, hform, hproof, hsteps, ?_⟩
  cases root with
  | none => cases hroot
  | some root =>
      cases hroot
      rw [v.normal_val] at htext
      exact congrArg some (Subtype.ext htext.symm)

/-- A published path is accepted for every claim that has the bytes of its own. -/
theorem accepts_of_form {v : Verifier} {claims : List Claim} {entry : Claim × List Hex64}
    (hentry : entry ∈ (buildPassportFile sha256 claims).claims) {claim : Claim}
    (hform : v.form claim = some (botBytes entry.1)) :
    v.accepts sha256 claim (proofValue entry.2)
      (rootValue (buildPassportFile sha256 claims).merkleRoot) = true := by
  obtain ⟨-, hroot⟩ := mem_buildPassportFile sha256 hentry
  rw [hroot]
  exact (v.accepts_iff sha256).mpr ⟨_, hform, _, entry.2, _, rfl, hexSteps_proof v.normal_val _,
    rfl, (v.normal_val _).symm⟩

section Free

variable (hfree : Set.InjOn sha256 seen)
include hfree

/-- A program that accepts a published path hashes the bytes that were published. -/
theorem form_of_accepts {v : Verifier} {claims : List Claim} {entry : Claim × List Hex64}
    (hentry : entry ∈ (buildPassportFile sha256 claims).claims) {claim : Claim}
    (hclaim : botBytes claim = botBytes entry.1)
    (hseen : ∀ v : Verifier, ∀ x ∈ v.hashed sha256 claim (proofValue entry.2), x ∈ seen)
    (h : v.accepts sha256 claim (proofValue entry.2)
      (rootValue (buildPassportFile sha256 claims).merkleRoot) = true) :
    v.form claim = some (botBytes entry.1) := by
  obtain ⟨-, hroot⟩ := mem_buildPassportFile sha256 hentry
  obtain ⟨bytes, steps, digests, hform, hproof, hsteps, hwalk⟩ := walk_of_accepts h
  cases hproof
  have hdigests : digests = entry.2 :=
    Option.some.inj (hsteps.symm.trans (hexSteps_proof v.normal_val entry.2))
  subst hdigests
  have hown := hseen v
  have hbot := hseen .bot
  rw [proofValue, hashed_proof hform hsteps] at hown
  rw [proofValue, hashed_proof (v := .bot) (congrArg some hclaim)
    (hexSteps_proof Verifier.bot.normal_val entry.2)] at hbot
  obtain ⟨hbytes, hown⟩ := List.forall_mem_cons.mp hown
  obtain ⟨hbytes', hbot⟩ := List.forall_mem_cons.mp hbot
  have heq := Option.some.inj (hwalk.symm.trans hroot)
  have hhash := PairedMerkle.walk_injective hfree pairBytes_input hown hbot heq
  rw [hform, hfree hbytes hbytes' hhash]

/-- What a program accepts against the root of a file has the bytes of one of its claims. -/
theorem published_of_accepts {v : Verifier} {claims : List Claim} {claim proof : Claim}
    {bytes : Bytes} (hform : v.form claim = some bytes)
    (hleaves : ∀ x ∈ claims.map botBytes, x ∈ seen)
    (hroot : ∀ x ∈ rootInputs sha256 pairBytes ((sortClaims claims).map (claimLeaf sha256)).length
      ((sortClaims claims).map (claimLeaf sha256)), x ∈ seen)
    (hseen : ∀ x ∈ v.hashed sha256 claim proof, x ∈ seen) (hlen : bytes.length ≠ 64)
    (hlens : ∀ c ∈ claims, (botBytes c).length ≠ 64)
    (h : v.accepts sha256 claim proof
      (rootValue (buildPassportFile sha256 claims).merkleRoot) = true) :
    ∃ c ∈ claims, bytes = botBytes c := by
  obtain ⟨bytes', steps, digests, hform', rfl, hsteps, hwalk⟩ := walk_of_accepts h
  have hbytes := Option.some.inj (hform'.symm.trans hform)
  subst hbytes
  rw [hashed_proof hform hsteps] at hseen
  obtain ⟨hin, hseen⟩ := List.forall_mem_cons.mp hseen
  have hpair : ∀ x : Bytes, x.length ≠ 64 → ∀ a b, x ≠ pairBytes a b := by
    rintro x hx a b rfl
    exact hx (length_pairBytes a b)
  have hinputs : ∀ x ∈ claims.map botBytes, x ∈ seen ∧ ∀ a b, x ≠ pairBytes a b := by
    intro x hx
    obtain ⟨c, hc, rfl⟩ := List.mem_map.mp hx
    exact ⟨hleaves _ hx, hpair _ (hlens c hc)⟩
  have htree : InTree sha256 pairBytes seen (claims.map botBytes)
      (walk (pairHash sha256) (sha256 bytes') digests) := by
    apply PairedMerkle.inTree_rootLoop hwalk _ hroot
    intro d hd
    obtain ⟨c, hc, rfl⟩ := List.mem_map.mp hd
    exact .leaf _ (List.mem_map_of_mem ((sortClaims_perm claims).mem_iff.mp hc))
  obtain ⟨c, hc, heq⟩ := List.mem_map.mp (PairedMerkle.mem_leaves_of_walk hfree pairBytes_input
    hinputs hin (hpair _ hlen) hseen htree rfl)
  exact ⟨c, hc, heq.symm⟩

end Free

end Verified

end Kascov
