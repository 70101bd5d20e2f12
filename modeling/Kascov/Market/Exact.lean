import Kascov.Market.Grammar
import Kascov.Market.Skeleton

/-!
# The matchers are exact

A program matches a pin just when it is the pinned program with complete pushes
in the place of the slots, and the pushes at the declared sites say what the pin
demands.  The matcher of the third generation is `match_skeleton` on its
constants, and a pool program is a state block before a template of its own
length.
-/

namespace Kascov

/-! ## Groups of sites -/

/-- A list whose values are one value. -/
theorem dedup_eq_singleton {α : Type} [DecidableEq α] {l : List α} {a : α} :
    l.dedup = [a] ↔ l ≠ [] ∧ ∀ x ∈ l, x = a := by
  constructor
  · intro h
    have hmem : ∀ x, x ∈ l ↔ x = a := fun x ↦ by rw [← List.mem_dedup, h, List.mem_singleton]
    refine ⟨?_, fun x hx ↦ (hmem x).mp hx⟩
    rintro rfl
    cases h
  · rintro ⟨hne, hall⟩
    obtain ⟨x, rest, rfl⟩ := List.exists_cons_of_ne_nil hne
    obtain ⟨rfl, hrest⟩ := List.forall_mem_cons.mp hall
    have heq : x :: rest = List.replicate (rest.length + 1) x :=
      List.eq_replicate_iff.mpr ⟨rfl, fun y hy ↦ hall y hy⟩
    rw [heq, List.replicate_dedup (Nat.succ_ne_zero _)]

section Groups

variable {α : Type} [DecidableEq α] {read : PushUnit → α} {cand : List PushUnit} {idx : List Nat}

theorem groupValues_eq_singleton {a : α} (hidx : ∀ i ∈ idx, i < cand.length) :
    groupValues read cand idx = [a] ↔
      idx ≠ [] ∧ ∀ i ∈ idx, ∃ u, cand[i]? = some u ∧ read u = a := by
  have hunit : ∀ i ∈ idx, ∃ u, cand[i]? = some u :=
    fun i hi ↦ ⟨cand.get ⟨i, hidx i hi⟩, List.getElem?_eq_getElem _⟩
  rw [groupValues, dedup_eq_singleton]
  refine and_congr ?_ ?_
  · cases idx with
    | nil => exact iff_of_false (fun h ↦ h rfl) fun h ↦ h rfl
    | cons i idx =>
        obtain ⟨u, hu⟩ := hunit i List.mem_cons_self
        rw [List.filterMap_cons, hu]
        exact ⟨fun _ ↦ List.cons_ne_nil _ _, fun _ ↦ List.cons_ne_nil _ _⟩
  · constructor
    · intro h i hi
      obtain ⟨u, hu⟩ := hunit i hi
      exact ⟨u, hu, h _ (List.mem_filterMap.mpr ⟨i, hi, by rw [hu]; rfl⟩)⟩
    · intro h x hx
      obtain ⟨i, hi, hread⟩ := List.mem_filterMap.mp hx
      obtain ⟨u, hu, rfl⟩ := h i hi
      rw [hu] at hread
      exact (Option.some.inj hread).symm

/-- What a site pushes, as a value of the program. -/
theorem exists_unit {i : Nat} (P : Bytes → Prop) :
    (∃ u, cand[i]? = some u ∧ P u.value) ↔ ∃ v, (cand.map (·.value))[i]? = some v ∧ P v := by
  rw [List.getElem?_map]
  constructor
  · rintro ⟨u, hu, h⟩
    exact ⟨u.value, by rw [hu]; rfl, h⟩
  · rintro ⟨v, hv, h⟩
    obtain ⟨u, hu, rfl⟩ := Option.map_eq_some_iff.mp hv
    exact ⟨u, hu, h⟩

theorem agreedI64_eq_group {v : Int} :
    agreedI64 cand idx = some v ↔ groupValues (fun u ↦ leI64 u.value) cand idx = [some v] := by
  unfold agreedI64
  split
  · rename_i w h
    rw [h, Option.some.injEq, List.cons.injEq, Option.some.injEq]
    exact (and_iff_left rfl).symm
  · rename_i h
    exact ⟨(nomatch ·), fun heq ↦ absurd heq (h v)⟩

theorem agreedBytes_eq_group {v : Bytes} :
    agreedBytes cand idx = some v ↔ groupValues (·.value) cand idx = [v] := by
  unfold agreedBytes
  split
  · rename_i w h
    rw [h, Option.some.injEq, List.cons.injEq]
    exact (and_iff_left rfl).symm
  · rename_i h
    exact ⟨(nomatch ·), fun heq ↦ absurd heq (h v)⟩

theorem agreedI64_eq_some {v : Int} (hidx : ∀ i ∈ idx, i < cand.length) :
    agreedI64 cand idx = some v ↔ idx ≠ [] ∧
      ∀ i ∈ idx, ∃ b, (cand.map (·.value))[i]? = some b ∧ leI64 b = some v := by
  rw [agreedI64_eq_group, groupValues_eq_singleton hidx]
  exact and_congr_right fun _ ↦ forall₂_congr fun i _ ↦ exists_unit (leI64 · = some v)

theorem agreedBytes_eq_some {v : Bytes} (hidx : ∀ i ∈ idx, i < cand.length) :
    agreedBytes cand idx = some v ↔ idx ≠ [] ∧
      ∀ i ∈ idx, (cand.map (·.value))[i]? = some v := by
  rw [agreedBytes_eq_group, groupValues_eq_singleton hidx]
  refine and_congr_right fun _ ↦ forall₂_congr fun i _ ↦ ?_
  refine (exists_unit (· = v)).trans ?_
  exact ⟨fun ⟨w, hw, heq⟩ ↦ heq ▸ hw, fun h ↦ ⟨v, h, rfl⟩⟩

end Groups

/-! ## Programs in the place of a fixture -/

/-- A push determines its value. -/
theorem IsPush.value_eq {push v w : Bytes} (hv : IsPush push v) (hw : IsPush push w) : v = w := by
  have h1 := @pushUnitsFrom_push push.length 0 0 push v hv [] (by simp)
  have h2 := @pushUnitsFrom_push push.length 0 0 push w hw [] (by simp)
  rw [h1] at h2
  exact (PushUnit.mk.inj (List.cons.inj h2).1).2.2

theorem Segmented.pushUnits {program : Bytes} {segs : List Segment} {tail : Bytes}
    (h : Segmented program segs tail) : pushUnits program = unitsOf 0 segs := by
  have hunits := h.units 0 program.length le_rfl
  rwa [Nat.zero_add] at hunits

theorem lockstepMatches_reading {fixture program ftail ctail : Bytes} {fs cs : List Segment}
    (hf : Segmented fixture fs ftail) (hc : Segmented program cs ctail) (slots : List Nat)
    (hlen : fs.length = cs.length) :
    lockstepMatches fixture (pushUnits fixture) program (pushUnits program) slots = true ↔
      SameOutside slots 0 fs cs ∧ ftail = ctail := by
  have h := lockstepFrom_iff slots (i := 0) hlen [] [] ftail ctail
  rw [List.nil_append, List.nil_append, ← hf.bytes, ← hc.bytes] at h
  rw [lockstepMatches, hf.pushUnits, hc.pushUnits]
  exact h

/-- A program reads in one way. -/
theorem Segmented.unique {program : Bytes} {fs cs : List Segment} {ftail ctail : Bytes}
    (hf : Segmented program fs ftail) (hc : Segmented program cs ctail) :
    fs = cs ∧ ftail = ctail := by
  have hunits := hf.pushUnits.symm.trans hc.pushUnits
  have hlen : fs.length = cs.length := by
    rw [← unitsOf_length 0 fs, hunits, unitsOf_length]
  have hself : lockstepMatches program (Kascov.pushUnits program) program
      (Kascov.pushUnits program) [] = true := lockstepFrom_self ..
  obtain ⟨hsame, htail⟩ := (lockstepMatches_reading hf hc [] hlen).mp hself
  refine ⟨?_, htail⟩
  have hall : ∀ {i : Nat} {fs cs : List Segment}, SameOutside [] i fs cs →
      (∀ seg ∈ fs, IsPush seg.push seg.value) → (∀ seg ∈ cs, IsPush seg.push seg.value) →
      fs = cs := by
    intro i fs
    induction fs generalizing i with
    | nil =>
        intro cs h _ _
        cases cs with
        | nil => rfl
        | cons c cs => cases h
    | cons f fs ih =>
        intro cs h hfp hcp
        cases cs with
        | nil => cases h
        | cons c cs =>
            obtain ⟨hgap, hpush, hrest⟩ := h
            obtain ⟨hf1, hfs⟩ := List.forall_mem_cons.mp hfp
            obtain ⟨hc1, hcs⟩ := List.forall_mem_cons.mp hcp
            have hpush := hpush.resolve_left List.not_mem_nil
            obtain ⟨fg, fp, fv⟩ := f
            obtain ⟨cg, cp, cv⟩ := c
            obtain rfl : fg = cg := hgap
            obtain rfl : fp = cp := hpush
            obtain rfl : fv = cv := hf1.value_eq hc1
            rw [ih hrest hfs hcs]
  exact hall hsame hf.push hc.push

/-- The program is the fixture with complete pushes in the place of the slots, and
pushes these values. -/
def Replaces (fixture : Bytes) (slots : List Nat) (program : Bytes) (values : List Bytes) : Prop :=
  ∃ fs cs tail, Segmented fixture fs tail ∧ program = flatten cs ++ tail ∧
    SameOutside slots 0 fs cs ∧ (∀ seg ∈ cs, IsPush seg.push seg.value) ∧
    values = cs.map (·.value)

/-- No length opcode stands in a gap of the fixture. -/
def PlainGaps (fixture : Bytes) : Prop :=
  ∃ segs tail, Segmented fixture segs tail ∧ ∀ seg ∈ segs, ∀ b ∈ seg.gap, PlainOpcode b

/-- **The lockstep walk accepts the replacements, and nothing else.** -/
theorem replaces_iff {fixture : Bytes} (hplain : PlainGaps fixture) {slots : List Nat}
    {program : Bytes} {values : List Bytes} :
    Replaces fixture slots program values ↔
      (pushUnits program).length = (pushUnits fixture).length ∧
        lockstepMatches fixture (pushUnits fixture) program (pushUnits program) slots = true ∧
        values = (pushUnits program).map (·.value) := by
  have hvalues : ∀ cs : List Segment, (unitsOf 0 cs).map (·.value) = cs.map (·.value) := by
    intro cs
    refine List.ext_getElem? fun i ↦ ?_
    rw [List.getElem?_map, unitsOf_getElem?]
  constructor
  · rintro ⟨fs, cs, tail, hf, rfl, hsame, hpush, rfl⟩
    obtain ⟨segs, tail', hf', hgap⟩ := hplain
    obtain ⟨rfl, rfl⟩ := hf.unique hf'
    have hcgap : ∀ seg ∈ cs, ∀ b ∈ seg.gap, PlainOpcode b := by
      intro seg hseg
      obtain ⟨f, hfmem, heq⟩ := hsame.gap_mem hseg
      rw [← heq]
      exact hgap f hfmem
    have hc : Segmented (flatten cs ++ tail) cs tail :=
      ⟨rfl, hpush, fun seg hseg b hb ↦ .inl (hcgap seg hseg b hb), hf.silent,
        fun i fuel hfuel ↦ pushUnitsFrom_flatten hcgap hpush hf.silent hfuel⟩
    refine ⟨?_, (lockstepMatches_reading hf hc slots hsame.length_eq).mpr ⟨hsame, rfl⟩, ?_⟩
    · rw [hc.pushUnits, hf.pushUnits, unitsOf_length, unitsOf_length, hsame.length_eq]
    · rw [hc.pushUnits, hvalues]
  · rintro ⟨hlen, hlock, rfl⟩
    obtain ⟨fs, ftail, hf, -⟩ := hplain
    obtain ⟨cs, ctail, hc⟩ := exists_segmented program
    have hlen' : fs.length = cs.length := by
      rw [hc.pushUnits, hf.pushUnits, unitsOf_length, unitsOf_length] at hlen
      exact hlen.symm
    obtain ⟨hsame, rfl⟩ := (lockstepMatches_reading hf hc slots hlen').mp hlock
    exact ⟨fs, cs, ftail, hf, hc.bytes, hsame, hc.push, by rw [hc.pushUnits, hvalues]⟩

/-! ## `match_skeleton` -/

/-- The sites a pin names. -/
def SkeletonBuild.sites (pin : SkeletonBuild) : List Nat :=
  pin.tokenCovenant :: pin.tokenReserve :: pin.graduation ::
    (pin.creator ++ pin.vkas ++ pin.selfLen ++ pin.poolTpl ++ pin.seed)

/-- What the source asserts of its pins: the fixture has the declared number of
pushes, and the sites are among them.  No length opcode stands in its gaps. -/
structure SkeletonBuild.Audited (pin : SkeletonBuild) : Prop where
  pushes : (pushUnits pin.fixture).length = pin.pushes
  sites : ∀ i ∈ pin.sites, i < pin.pushes
  gaps : PlainGaps pin.fixture

/-- What a pin demands of the values of a program, and reads from them. -/
structure SkeletonBuild.Reads (pin : SkeletonBuild) (length : Nat) (values : List Bytes)
    (params : CurveParams) : Prop where
  vkas : pin.vkas ≠ [] ∧
    ∀ i ∈ pin.vkas, ∃ v, values[i]? = some v ∧ leI64 v = some params.vKasUnits
  creator : pin.creator ≠ [] ∧ ∃ b : Bytes32, params.creatorFeeOwner = b.hash ∧
    ∀ i ∈ pin.creator, values[i]? = some b.val
  seed : ∃ n, ∀ i ∈ pin.seed, ∃ v, values[i]? = some v ∧ leI64 v = some n
  selfLen : ∀ i ∈ pin.selfLen, ∃ v, values[i]? = some v ∧ leI64 v = some (length : Int)
  poolTpl : ∀ i ∈ pin.poolTpl, ∀ j ∈ pin.poolTpl, values[i]? = values[j]?
  tokenCovenant : ∃ b : Bytes32, params.tokenCovenantId = ⟨b.hash⟩ ∧
    values[pin.tokenCovenant]? = some b.val
  tokenReserve : ∃ v, values[pin.tokenReserve]? = some v ∧ leI64 v = some params.tokenReserve
  graduation : ∃ v, values[pin.graduation]? = some v ∧
    leI64 v = some params.graduationKasSompi
  positive : pin.positiveConstants = true →
    0 < params.vKasUnits ∧ 0 ≤ params.tokenReserve ∧ 0 < params.graduationKasSompi

theorem toBytes32_eq_some {v : Bytes} {b : Bytes32} : toBytes32 v = some b ↔ v = b.val := by
  unfold toBytes32
  split
  · rw [Option.some.injEq, Subtype.ext_iff]
  · rename_i h
    refine ⟨(nomatch ·), ?_⟩
    rintro rfl
    exact absurd b.property h

section Units

variable {cand : List PushUnit} {i : Nat}

theorem unitBytes32_eq_some {b : Bytes32} :
    unitBytes32 cand i = some b ↔ (cand.map (·.value))[i]? = some b.val := by
  rw [unitBytes32, Option.bind_eq_some_iff, List.getElem?_map, Option.map_eq_some_iff]
  exact exists_congr fun u ↦ and_congr_right fun _ ↦ toBytes32_eq_some

theorem unitI64_eq_some {n : Int} :
    unitI64 cand i = some n ↔
      ∃ v, (cand.map (·.value))[i]? = some v ∧ leI64 v = some n := by
  rw [unitI64, Option.bind_eq_some_iff]
  exact exists_unit (leI64 · = some n)

theorem templatesAgree_iff {idx : List Nat} :
    templatesAgree cand idx = true ↔ ∀ i ∈ idx, ∀ j ∈ idx,
      (cand.map (·.value))[i]? = (cand.map (·.value))[j]? := by
  cases idx with
  | nil => exact iff_of_true rfl fun _ h ↦ by cases h
  | cons first rest =>
      have hfirst : templatesAgree cand (first :: rest) = true ↔ ∀ i ∈ first :: rest,
          (cand.map (·.value))[i]? = (cand.map (·.value))[first]? := by
        rw [templatesAgree, List.all_eq_true, List.forall_mem_cons]
        simp only [beq_iff_eq, List.getElem?_map, true_and]
      rw [hfirst]
      constructor
      · exact fun h i hi j hj ↦ (h i hi).trans (h j hj).symm
      · exact fun h i hi ↦ h i hi first List.mem_cons_self

end Units

/-- The guards of `match_skeleton` after the walk. -/
theorem agreed_seed {cand : List PushUnit} {idx : List Nat} (hidx : ∀ i ∈ idx, i < cand.length) :
    ¬(idx ≠ [] ∧ agreedI64 cand idx = none) ↔
      ∃ n, ∀ i ∈ idx, ∃ v, (cand.map (·.value))[i]? = some v ∧ leI64 v = some n := by
  by_cases hnil : idx = []
  · subst hnil
    exact iff_of_true (fun h ↦ h.1 rfl) ⟨0, fun _ h ↦ by cases h⟩
  · constructor
    · intro h
      obtain ⟨n, hn⟩ := Option.ne_none_iff_exists'.mp fun hnone ↦ h ⟨hnil, hnone⟩
      exact ⟨n, ((agreedI64_eq_some hidx).mp hn).2⟩
    · rintro ⟨n, hn⟩ ⟨-, hnone⟩
      rw [(agreedI64_eq_some hidx).mpr ⟨hnil, hn⟩] at hnone
      cases hnone

theorem agreed_selfLen {cand : List PushUnit} {idx : List Nat} {n : Int}
    (hidx : ∀ i ∈ idx, i < cand.length) :
    ¬(idx ≠ [] ∧ agreedI64 cand idx ≠ some n) ↔
      ∀ i ∈ idx, ∃ v, (cand.map (·.value))[i]? = some v ∧ leI64 v = some n := by
  by_cases hnil : idx = []
  · subst hnil
    exact iff_of_true (fun h ↦ h.1 rfl) fun _ h ↦ by cases h
  · rw [not_and, not_not]
    exact ⟨fun h ↦ ((agreedI64_eq_some hidx).mp (h hnil)).2,
      fun h _ ↦ (agreedI64_eq_some hidx).mpr ⟨hnil, h⟩⟩

/-- **`match_skeleton` is exact.** -/
theorem matchSkeleton_eq_some {pin : SkeletonBuild} (haudited : pin.Audited) {program : Bytes}
    {params : CurveParams} :
    matchSkeleton pin program = some params ↔
      ∃ values, Replaces pin.fixture pin.slots program values ∧
        pin.Reads program.length values params := by
  have hsites : ∀ idx : List Nat, (∀ i ∈ idx, i ∈ pin.sites) →
      (pushUnits program).length = pin.pushes → ∀ i ∈ idx, i < (pushUnits program).length :=
    fun idx hsub hlen i hi ↦ hlen ▸ haudited.sites i (hsub i hi)
  have hvkas := hsites pin.vkas fun i hi ↦ by simp [SkeletonBuild.sites, hi]
  have hcreator := hsites pin.creator fun i hi ↦ by simp [SkeletonBuild.sites, hi]
  have hseeds := hsites pin.seed fun i hi ↦ by simp [SkeletonBuild.sites, hi]
  have hselfLen := hsites pin.selfLen fun i hi ↦ by simp [SkeletonBuild.sites, hi]
  have hguards : matchSkeleton pin program = some params ↔
      (pushUnits program).length = pin.pushes ∧
        lockstepMatches pin.fixture (pushUnits pin.fixture) program (pushUnits program)
          pin.slots = true ∧
        ∃ v, agreedI64 (pushUnits program) pin.vkas = some v ∧
          ∃ c, (agreedBytes (pushUnits program) pin.creator).bind toBytes32 = some c ∧
            ¬(pin.seed ≠ [] ∧ agreedI64 (pushUnits program) pin.seed = none) ∧
            ¬(pin.selfLen ≠ [] ∧ agreedI64 (pushUnits program) pin.selfLen ≠
              some (program.length : Int)) ∧
            templatesAgree (pushUnits program) pin.poolTpl = true ∧
            ∃ t, unitBytes32 (pushUnits program) pin.tokenCovenant = some t ∧
              ∃ r, unitI64 (pushUnits program) pin.tokenReserve = some r ∧
                ∃ g, unitI64 (pushUnits program) pin.graduation = some g ∧
                  ¬(pin.positiveConstants = true ∧ (v ≤ 0 ∨ r < 0 ∨ g ≤ 0)) ∧
                  CurveParams.mk ⟨t.hash⟩ v g c.hash r = params := by
    simp only [matchSkeleton, Option.bind_eq_bind, Option.ite_none_left_eq_some,
      Option.bind_eq_some_iff, ne_eq, not_not, Bool.not_eq_true', Bool.not_eq_false,
      Option.some.injEq]
  rw [hguards]
  constructor
  · rintro ⟨hlen, hlock, v, hv, c, hc, hseed, hself, htpl, t, ht, r, hr, g, hg, hpos, rfl⟩
    obtain ⟨bytes, hbytes, hc⟩ := Option.bind_eq_some_iff.mp hc
    obtain rfl := toBytes32_eq_some.mp hc
    obtain ⟨hcne, hcall⟩ := (agreedBytes_eq_some (hcreator hlen)).mp hbytes
    refine ⟨(pushUnits program).map (·.value), (replaces_iff haudited.gaps).mpr
      ⟨hlen.trans haudited.pushes.symm, hlock, rfl⟩, ?_⟩
    exact
      { vkas := (agreedI64_eq_some (hvkas hlen)).mp hv
        creator := ⟨hcne, c, rfl, hcall⟩
        seed := (agreed_seed (hseeds hlen)).mp hseed
        selfLen := (agreed_selfLen (hselfLen hlen)).mp hself
        poolTpl := templatesAgree_iff.mp htpl
        tokenCovenant := ⟨t, rfl, unitBytes32_eq_some.mp ht⟩
        tokenReserve := unitI64_eq_some.mp hr
        graduation := unitI64_eq_some.mp hg
        positive := by
          intro hp
          rw [not_and, not_or, not_or] at hpos
          obtain ⟨h1, h2, h3⟩ := hpos hp
          exact ⟨not_le.mp h1, not_lt.mp h2, not_le.mp h3⟩ }
  · rintro ⟨values, hreplaces, hreads⟩
    obtain ⟨hcount, hlock, rfl⟩ := (replaces_iff haudited.gaps).mp hreplaces
    have hlen := hcount.trans haudited.pushes
    obtain ⟨hcne, c, hc, hcall⟩ := hreads.creator
    obtain ⟨t, ht, htoken⟩ := hreads.tokenCovenant
    refine ⟨hlen, hlock, params.vKasUnits, (agreedI64_eq_some (hvkas hlen)).mpr hreads.vkas, c,
      ?_, (agreed_seed (hseeds hlen)).mpr hreads.seed,
      (agreed_selfLen (hselfLen hlen)).mpr hreads.selfLen, templatesAgree_iff.mpr hreads.poolTpl,
      t, unitBytes32_eq_some.mpr htoken, params.tokenReserve,
      unitI64_eq_some.mpr hreads.tokenReserve, params.graduationKasSompi,
      unitI64_eq_some.mpr hreads.graduation, ?_, ?_⟩
    · rw [(agreedBytes_eq_some (hcreator hlen)).mpr ⟨hcne, hcall⟩]
      exact toBytes32_eq_some.mpr rfl
    · rintro ⟨hp, hbad⟩
      obtain ⟨h1, h2, h3⟩ := hreads.positive hp
      omega
    · rw [← ht, ← hc]

/-! ## The third generation -/

/-- The bytes of a unit are one complete push of its value. -/
theorem isPush_of_mem {segs : List Segment} (hpush : ∀ seg ∈ segs, IsPush seg.push seg.value)
    (pre tail : Bytes) {u : PushUnit} (hu : u ∈ unitsOf pre.length segs) :
    IsPush (byteRange (pre ++ (flatten segs ++ tail)) u.start u.stop) u.value := by
  induction segs generalizing pre with
  | nil => cases hu
  | cons seg segs ih =>
      obtain ⟨hp, hpush⟩ := List.forall_mem_cons.mp hpush
      rw [flatten_cons, List.append_assoc, List.append_assoc, ← List.append_assoc pre]
      rcases List.mem_cons.mp hu with rfl | hu
      · dsimp only
        rw [← List.length_append, byteRange_middle]
        exact hp
      · rw [← List.append_assoc]
        refine ih hpush (pre ++ seg.gap ++ seg.push) ?_
        rw [List.length_append, List.length_append]
        exact hu

theorem isPush_unit (program : Bytes) {u : PushUnit} (hu : u ∈ pushUnits program) :
    IsPush (byteRange program u.start u.stop) u.value := by
  obtain ⟨segs, tail, h⟩ := exists_segmented program
  rw [h.pushUnits] at hu
  have hp := isPush_of_mem h.push [] tail hu
  rwa [List.nil_append, ← h.bytes] at hp

/-- Equal bytes push equal values: the second comparison decides nothing. -/
theorem curve3From_eq {fixture program : Bytes} (slots : List Nat) {i fpos cpos : Nat}
    {fs cs : List PushUnit}
    (hfs : ∀ u ∈ fs, IsPush (byteRange fixture u.start u.stop) u.value)
    (hcs : ∀ u ∈ cs, IsPush (byteRange program u.start u.stop) u.value) :
    curve3From fixture program slots i fpos cpos fs cs =
      lockstepFrom fixture program slots i fpos cpos fs cs := by
  induction fs generalizing i fpos cpos cs with
  | nil => rw [curve3From, lockstepFrom]
  | cons f fs ih =>
      cases cs with
      | nil => rw [curve3From, lockstepFrom]
      | cons c cs =>
          obtain ⟨hf, hfs⟩ := List.forall_mem_cons.mp hfs
          obtain ⟨hc, hcs⟩ := List.forall_mem_cons.mp hcs
          rw [curve3From, lockstepFrom, ih hfs hcs]
          by_cases hgap : byteRange fixture fpos f.start = byteRange program cpos c.start
          · rw [if_neg (not_not.mpr hgap), beq_iff_eq.mpr hgap, Bool.true_and]
            by_cases hslot : i ∈ slots
            · rw [if_neg fun h ↦ h.1 hslot, List.contains_iff_mem.mpr hslot, Bool.true_or,
                Bool.true_and]
            · have hcontains : slots.contains i = false :=
                Bool.eq_false_iff.mpr fun h ↦ hslot (List.contains_iff_mem.mp h)
              rw [hcontains, Bool.false_or]
              by_cases hbytes : byteRange fixture f.start f.stop = byteRange program c.start c.stop
              · rw [hbytes] at hf
                rw [if_neg fun h ↦ h.2.elim (fun hne ↦ hne (hf.value_eq hc)) fun hne ↦ hne hbytes,
                  beq_iff_eq.mpr hbytes, Bool.true_and]
              · rw [if_pos ⟨hslot, .inr hbytes⟩, beq_eq_false_iff_ne.mpr hbytes, Bool.false_and]
          · rw [if_pos hgap, beq_eq_false_iff_ne.mpr hgap, Bool.false_and, Bool.false_and]

/-- What `match_skeleton` reads of a program that passed the walk. -/
theorem matchSkeleton_of_walk {pin : SkeletonBuild} {program : Bytes}
    (hlen : (pushUnits program).length = pin.pushes)
    (hlock : lockstepMatches pin.fixture (pushUnits pin.fixture) program (pushUnits program)
      pin.slots = true) :
    matchSkeleton pin program =
      (agreedI64 (pushUnits program) pin.vkas).bind fun vKasUnits ↦
        ((agreedBytes (pushUnits program) pin.creator).bind toBytes32).bind fun creatorFeeOwner ↦
          if pin.seed ≠ [] ∧ agreedI64 (pushUnits program) pin.seed = none then none
          else if pin.selfLen ≠ [] ∧
              agreedI64 (pushUnits program) pin.selfLen ≠ some (program.length : Int) then none
          else if !templatesAgree (pushUnits program) pin.poolTpl then none
          else
            (unitBytes32 (pushUnits program) pin.tokenCovenant).bind fun tokenCovenantId ↦
              (unitI64 (pushUnits program) pin.tokenReserve).bind fun tokenReserve ↦
                (unitI64 (pushUnits program) pin.graduation).bind fun graduationKasSompi ↦
                  if pin.positiveConstants = true ∧
                      (vKasUnits ≤ 0 ∨ tokenReserve < 0 ∨ graduationKasSompi ≤ 0) then none
                  else some ⟨⟨tokenCovenantId.hash⟩, vKasUnits, graduationKasSompi,
                    creatorFeeOwner.hash, tokenReserve⟩ := by
  have hwalked : ¬(!lockstepMatches pin.fixture (pushUnits pin.fixture) program
      (pushUnits program) pin.slots) = true := by
    rw [hlock]
    exact Bool.false_ne_true
  unfold matchSkeleton
  exact (if_neg (not_not.mpr hlen)).trans (if_neg hwalked)

/-- **The matcher of the third generation is `match_skeleton` on its constants.** -/
theorem matchKronCurveV3_eq {fixture : Bytes} (hpushes : (pushUnits fixture).length = 2654)
    (program : Bytes) :
    matchKronCurveV3 fixture program = matchSkeleton (kronCurveV3Build fixture) program := by
  have hwalk : ∀ slots, curve3From fixture program slots 0 0 0 ((pushUnits fixture).take 2654)
      (pushUnits program) = lockstepMatches fixture (pushUnits fixture) program
        (pushUnits program) slots := by
    intro slots
    rw [List.take_of_length_le hpushes.le]
    exact curve3From_eq slots (fun _ hu ↦ isPush_unit fixture hu) fun _ hu ↦ isPush_unit program hu
  have htpl : templatesAgree (pushUnits program) (kronCurveV3Build fixture).poolTpl = true ↔
      (pushUnits program)[896]?.map (·.value) = (pushUnits program)[912]?.map (·.value) := by
    simp only [kronCurveV3Build, templatesAgree, List.all_cons, List.all_nil, Bool.and_true,
      beq_iff_eq]
    exact eq_comm
  unfold matchKronCurveV3
  dsimp only
  rw [hwalk]
  by_cases hlen : (pushUnits program).length = 2654
  · rw [if_neg (not_not.mpr hlen)]
    by_cases hlock : lockstepMatches fixture (pushUnits fixture) program (pushUnits program)
        (kronCurveV3Build fixture).slots = true
    · have hwalked : ¬(!lockstepMatches fixture (pushUnits fixture) program (pushUnits program)
          (kronCurveV3Build fixture).slots) = true := by
        rw [hlock]
        exact Bool.false_ne_true
      have hself : groupValues (fun u ↦ leI64 u.value) (pushUnits program)
          (kronCurveV3Build fixture).selfLen = [some (program.length : Int)] ↔
          ¬((kronCurveV3Build fixture).selfLen ≠ [] ∧ agreedI64 (pushUnits program)
            (kronCurveV3Build fixture).selfLen ≠ some (program.length : Int)) := by
        rw [← agreedI64_eq_group, not_and, not_not]
        exact true_imp_iff.symm.trans
          (imp_congr_left (iff_of_true trivial (List.cons_ne_nil _ _)))
      rw [matchSkeleton_of_walk hlen hlock]
      refine (if_neg hwalked).trans ?_
      cases hv : agreedI64 (pushUnits program) (kronCurveV3Build fixture).vkas with
      | none =>
          split
          · rename_i v hgroup
            exact absurd (hv.symm.trans (agreedI64_eq_group.mpr hgroup)) (by simp)
          · rfl
      | some v =>
          have hvgroup := agreedI64_eq_group.mp hv
          dsimp only [kronCurveV3Build] at hvgroup
          rw [hvgroup, Option.bind_some]
          dsimp only
          cases hc : agreedBytes (pushUnits program) (kronCurveV3Build fixture).creator with
          | none =>
              split
              · rename_i creator hgroup
                exact absurd (hc.symm.trans (agreedBytes_eq_group.mpr hgroup)) (by simp)
              · rfl
          | some creator =>
              have hcgroup := agreedBytes_eq_group.mp hc
              dsimp only [kronCurveV3Build] at hcgroup
              rw [hcgroup, Option.bind_some]
              dsimp only
              -- the guards read the same sites, in another order than the constants
              have hseed : ¬((kronCurveV3Build fixture).seed ≠ [] ∧
                  agreedI64 (pushUnits program) (kronCurveV3Build fixture).seed = none) :=
                fun h ↦ h.1 rfl
              cases toBytes32 creator with
              | none =>
                  rw [Option.bind_none]
                  split
                  · rfl
                  · split <;> rfl
              | some c =>
                  rw [Option.bind_some, if_neg hseed]
                  by_cases hlengths : groupValues (fun u ↦ leI64 u.value) (pushUnits program)
                      (kronCurveV3Build fixture).selfLen = [some (program.length : Int)]
                  · rw [if_neg (hself.mp hlengths)]
                    refine (if_neg (not_not.mpr hlengths)).trans ?_
                    by_cases htemplates : templatesAgree (pushUnits program)
                        (kronCurveV3Build fixture).poolTpl = true
                    · rw [htemplates]
                      refine (if_neg (not_not.mpr (htpl.mp htemplates))).trans ?_
                      rw [Bool.not_true, if_neg Bool.false_ne_true]
                      dsimp only [kronCurveV3Build]
                      cases unitBytes32 (pushUnits program) 1 with
                      | none => rfl
                      | some t =>
                          cases unitI64 (pushUnits program) 741 with
                          | none => cases unitI64 (pushUnits program) 2 <;> rfl
                          | some g => cases unitI64 (pushUnits program) 2 <;> rfl
                    · rw [Bool.eq_false_iff.mpr htemplates]
                      exact if_pos fun h ↦ htemplates (htpl.mpr h)
                  · rw [if_pos (not_not.mp fun h ↦ hlengths (hself.mpr h))]
                    exact if_pos hlengths
    · have hwalked : (!lockstepMatches fixture (pushUnits fixture) program (pushUnits program)
          (kronCurveV3Build fixture).slots) = true := by
        rw [Bool.eq_false_iff.mpr hlock]
        rfl
      unfold matchSkeleton
      exact (if_pos hwalked).trans ((if_neg (not_not.mpr hlen)).trans (if_pos hwalked)).symm
  · rw [if_pos hlen, matchSkeleton]
    exact (if_pos hlen).symm

/-! ## Pools -/

/-- The fields of the 94-byte state block before a pool template. -/
structure PoolState where
  kasReserve : { b : Bytes // b.length = 8 }
  tokenReserve : { b : Bytes // b.length = 8 }
  tokenCovenantId : Bytes32
  shares : { b : Bytes // b.length = 8 }
  lpTokenCovenantId : Bytes32

/-- `0x6b | 08 k | 08 t | 20 cov | 08 shares | 20 lp`. -/
def PoolState.bytes (st : PoolState) : Bytes :=
  0x6b :: 0x08 :: (st.kasReserve.val ++ 0x08 :: (st.tokenReserve.val ++
    0x20 :: (st.tokenCovenantId.val ++ 0x08 :: (st.shares.val ++ 0x20 :: st.lpTokenCovenantId.val))))

theorem PoolState.bytes_length (st : PoolState) : st.bytes.length = poolStateLen := by
  simp only [PoolState.bytes, List.length_cons, List.length_append, st.kasReserve.property,
    st.tokenReserve.property, st.tokenCovenantId.property, st.shares.property,
    st.lpTokenCovenantId.property, poolStateLen]

section Ranges

variable {p : Bytes}

theorem drop_eq_byteRange {a b : Nat} (h : a ≤ b) : p.drop a = byteRange p a b ++ p.drop b := by
  rw [byteRange, List.drop_take]
  conv_lhs => rw [← List.take_append_drop (b - a) (p.drop a), List.drop_drop,
    Nat.add_sub_cancel' h]

theorem byteRange_length {a b : Nat} (h : b ≤ p.length) :
    (byteRange p a b).length = b - a := by
  rw [byteRange, List.length_drop, List.length_take_of_le h]

theorem drop_of_getElem? {a : Nat} {x : UInt8} (h : p[a]? = some x) :
    p.drop a = x :: p.drop (a + 1) := by
  rw [List.drop_eq_getElem?_toList_append, h]
  rfl

end Ranges

/-- The guards on the state block, and the ranges it is read from. -/
theorem poolState_iff {p : Bytes} (st : PoolState) :
    p = st.bytes ++ p.drop poolStateLen ↔
      p[0]? = some 0x6b ∧ p[1]? = some 0x08 ∧ p[10]? = some 0x08 ∧ p[19]? = some 0x20 ∧
        p[52]? = some 0x08 ∧ p[61]? = some 0x20 ∧ byteRange p 2 10 = st.kasReserve.val ∧
        byteRange p 11 19 = st.tokenReserve.val ∧ byteRange p 20 52 = st.tokenCovenantId.val ∧
        byteRange p 53 61 = st.shares.val ∧ byteRange p 62 94 = st.lpTokenCovenantId.val := by
  have hk := st.kasReserve.property
  have ht := st.tokenReserve.property
  have hc := st.tokenCovenantId.property
  have hs := st.shares.property
  have hl := st.lpTokenCovenantId.property
  constructor
  · intro h
    rw [h]
    generalize p.drop poolStateLen = tpl
    simp only [PoolState.bytes, List.cons_append, List.append_assoc]
    refine ⟨rfl, rfl, ?_, ?_, ?_, ?_, ?_, ?_, ?_, ?_, ?_⟩
    · simp [hk]
    · simp [List.getElem?_append, hk, ht]
    · simp [List.getElem?_append, hk, ht, hc]
    · simp [List.getElem?_append, hk, ht, hc, hs]
    · simp [byteRange, hk]
    · simp [byteRange, List.take_append, List.drop_append, List.take_of_length_le,
        List.drop_eq_nil_of_le, hk, ht]
    · simp [byteRange, List.take_append, List.drop_append, List.take_of_length_le,
        List.drop_eq_nil_of_le, hk, ht, hc]
    · simp [byteRange, List.take_append, List.drop_append, List.take_of_length_le,
        List.drop_eq_nil_of_le, hk, ht, hc, hs]
    · simp [byteRange, List.take_append, List.drop_append, List.take_of_length_le,
        List.drop_eq_nil_of_le, hk, ht, hc, hs, hl]
  · rintro ⟨h0, h1, h10, h19, h52, h61, hk', ht', hc', hs', hl'⟩
    have hstart : p = p.drop 0 := rfl
    rw [hstart, List.drop_zero]
    conv_lhs => rw [hstart, drop_of_getElem? h0, drop_of_getElem? h1,
      drop_eq_byteRange (show 2 ≤ 10 by decide), hk', drop_of_getElem? h10,
      drop_eq_byteRange (show 11 ≤ 19 by decide), ht', drop_of_getElem? h19,
      drop_eq_byteRange (show 20 ≤ 52 by decide), hc', drop_of_getElem? h52,
      drop_eq_byteRange (show 53 ≤ 61 by decide), hs', drop_of_getElem? h61,
      drop_eq_byteRange (show 62 ≤ 94 by decide), hl']
    simp only [PoolState.bytes, List.cons_append, List.append_assoc, poolStateLen]

/-- A pool program: a state block before the template with its creator slots
replaced by pushes of one value, at the length of the template. -/
structure PoolReads (program fixture : Bytes) (slots : List Nat) (params : PoolParams)
    (st : PoolState) (tpl : Bytes) (values : List Bytes) (creator : Bytes32) : Prop where
  bytes : program = st.bytes ++ tpl
  length : tpl.length = fixture.length
  replaces : Replaces fixture slots tpl values
  agree : slots ≠ [] ∧ ∀ i ∈ slots, values[i]? = some creator.val
  kasReserve : leI64 st.kasReserve.val = some params.kasReserveUnits
  tokenReserve : leI64 st.tokenReserve.val = some params.tokenReserve
  shares : leI64 st.shares.val = some params.shares
  tokenCovenantId : params.tokenCovenantId = ⟨st.tokenCovenantId.hash⟩
  lpTokenCovenantId : params.lpTokenCovenantId = ⟨st.lpTokenCovenantId.hash⟩
  creator_eq : params.creator = creator.hash

/-- **`match_pool_build` is exact.** -/
theorem matchPoolBuild_eq_some {fixture : Bytes} (hplain : PlainGaps fixture) {slots : List Nat}
    (hslots : ∀ i ∈ slots, i < (pushUnits fixture).length) {program : Bytes}
    {params : PoolParams} :
    matchPoolBuild program fixture slots = some params ↔
      ∃ st tpl values creator, PoolReads program fixture slots params st tpl values creator := by
  have hguards : matchPoolBuild program fixture slots = some params ↔
      (program.length = poolStateLen + fixture.length ∧ program[0]? = some 0x6b) ∧
      (program[1]? = some 0x08 ∧ program[10]? = some 0x08 ∧ program[19]? = some 0x20 ∧
        program[52]? = some 0x08 ∧ program[61]? = some 0x20) ∧
      ∃ k, leI64 (byteRange program 2 10) = some k ∧
        ∃ t, leI64 (byteRange program 11 19) = some t ∧
          ∃ c, toBytes32 (byteRange program 20 52) = some c ∧
            ∃ s, leI64 (byteRange program 53 61) = some s ∧
              ∃ l, toBytes32 (byteRange program 62 94) = some l ∧
                (pushUnits (program.drop poolStateLen)).length = (pushUnits fixture).length ∧
                lockstepMatches fixture (pushUnits fixture) (program.drop poolStateLen)
                  (pushUnits (program.drop poolStateLen)) slots = true ∧
                ∃ o, (agreedBytes (pushUnits (program.drop poolStateLen)) slots).bind toBytes32 =
                    some o ∧
                  PoolParams.mk ⟨c.hash⟩ k t s ⟨l.hash⟩ o.hash = params := by
    simp only [matchPoolBuild, Option.bind_eq_bind, Option.ite_none_left_eq_some,
      Option.bind_eq_some_iff, ne_eq, not_or, not_not, Bool.not_eq_true', Bool.not_eq_false,
      Option.some.injEq]
  rw [hguards]
  constructor
  · rintro ⟨⟨hlen, h0⟩, ⟨h1, h10, h19, h52, h61⟩, k, hk, t, ht, c, hc, s, hs, l, hl, hcount, hlock,
      o, ho, rfl⟩
    have hlong : 94 ≤ program.length := by
      rw [hlen, poolStateLen]
      omega
    have hrange : ∀ {a b : Nat}, b ≤ 94 → (byteRange program a b).length = b - a :=
      fun hb ↦ byteRange_length (hb.trans hlong)
    obtain ⟨bytes, hbytes, ho⟩ := Option.bind_eq_some_iff.mp ho
    obtain rfl := toBytes32_eq_some.mp ho
    have hcand : ∀ i ∈ slots, i < (pushUnits (program.drop poolStateLen)).length :=
      fun i hi ↦ hcount ▸ hslots i hi
    refine ⟨⟨⟨byteRange program 2 10, hrange (by decide)⟩, ⟨byteRange program 11 19,
      hrange (by decide)⟩, c, ⟨byteRange program 53 61, hrange (by decide)⟩, l⟩,
      program.drop poolStateLen, (pushUnits (program.drop poolStateLen)).map (·.value), o, ?_⟩
    exact
      { bytes := (poolState_iff _).mpr ⟨h0, h1, h10, h19, h52, h61, rfl, rfl,
          toBytes32_eq_some.mp hc, rfl, toBytes32_eq_some.mp hl⟩
        length := by
          rw [List.length_drop, hlen]
          omega
        replaces := (replaces_iff hplain).mpr ⟨hcount, hlock, rfl⟩
        agree := (agreedBytes_eq_some hcand).mp hbytes
        kasReserve := hk
        tokenReserve := ht
        shares := hs
        tokenCovenantId := rfl
        lpTokenCovenantId := rfl
        creator_eq := rfl }
  · rintro ⟨st, tpl, values, creator, h⟩
    have hdrop : program.drop poolStateLen = tpl := by
      rw [h.bytes, ← st.bytes_length, List.drop_left]
    have hstate := h.bytes
    rw [← hdrop] at hstate
    obtain ⟨h0, h1, h10, h19, h52, h61, hk, ht, hc, hs, hl⟩ := (poolState_iff st).mp hstate
    obtain ⟨hcount, hlock, hvalues⟩ := (replaces_iff hplain).mp h.replaces
    have hcand : ∀ i ∈ slots, i < (pushUnits tpl).length := fun i hi ↦ hcount ▸ hslots i hi
    have hagree := h.agree
    rw [hvalues] at hagree
    refine ⟨⟨?_, h0⟩, ⟨h1, h10, h19, h52, h61⟩, params.kasReserveUnits, ?_, params.tokenReserve,
      ?_, st.tokenCovenantId, toBytes32_eq_some.mpr hc, params.shares, ?_, st.lpTokenCovenantId,
      toBytes32_eq_some.mpr hl, ?_, ?_, creator, ?_, ?_⟩
    · rw [h.bytes, List.length_append, st.bytes_length, h.length]
    · rw [hk]
      exact h.kasReserve
    · rw [ht]
      exact h.tokenReserve
    · rw [hs]
      exact h.shares
    · rw [hdrop]
      exact hcount
    · rw [hdrop]
      exact hlock
    · rw [hdrop, (agreedBytes_eq_some hcand).mpr hagree]
      exact toBytes32_eq_some.mpr rfl
    · rw [← h.tokenCovenantId, ← h.lpTokenCovenantId, ← h.creator_eq]

/-! ## The law -/

/-- **The matchers accept the replacements, and nothing else.** -/
theorem matchers_exact {pin : SkeletonBuild} (haudited : pin.Audited) {fixture3 : Bytes}
    (hfixture3 : (pushUnits fixture3).length = 2654) {poolFixture : Bytes}
    (hplain : PlainGaps poolFixture) {slots : List Nat}
    (hslots : ∀ i ∈ slots, i < (pushUnits poolFixture).length) (program : Bytes) :
    (∀ params, matchSkeleton pin program = some params ↔
        ∃ values, Replaces pin.fixture pin.slots program values ∧
          pin.Reads program.length values params) ∧
      matchKronCurveV3 fixture3 program = matchSkeleton (kronCurveV3Build fixture3) program ∧
      ∀ params, matchPoolBuild program poolFixture slots = some params ↔
        ∃ st tpl values creator, PoolReads program poolFixture slots params st tpl values creator :=
  ⟨fun _ ↦ matchSkeleton_eq_some haudited, matchKronCurveV3_eq hfixture3 program,
    fun _ ↦ matchPoolBuild_eq_some hplain hslots⟩

/-! ## A small pin -/

theorem plainGaps_flatten {segs : List Segment} {tail : Bytes}
    (hgap : ∀ seg ∈ segs, ∀ b ∈ seg.gap, PlainOpcode b)
    (hpush : ∀ seg ∈ segs, IsPush seg.push seg.value) (htail : Silent tail) :
    PlainGaps (flatten segs ++ tail) :=
  ⟨segs, tail, ⟨rfl, hpush, fun seg hseg b hb ↦ .inl (hgap seg hseg b hb), htail,
    fun _ _ hfuel ↦ pushUnitsFrom_flatten hgap hpush htail hfuel⟩, hgap⟩

/-- A direct push of a value. -/
def directSegment (gap value : Bytes) : Segment := ⟨gap, UInt8.ofNat value.length :: value, value⟩

theorem directSegment_isPush (gap : Bytes) {value : Bytes} (h : 0 < value.length)
    (hle : value.length ≤ 75) :
    IsPush (directSegment gap value).push (directSegment gap value).value := by
  have hlen : (UInt8.ofNat value.length).toNat = value.length :=
    UInt8.toNat_ofNat_of_lt' (hle.trans_lt (by decide))
  refine .direct _ _ ⟨UInt8.le_iff_toNat_le.mpr ?_, UInt8.le_iff_toNat_le.mpr ?_⟩ hlen.symm
  · rw [hlen]
    exact h
  · rw [hlen]
    exact hle

/-- A token, a reserve, a creator, a virtual reserve and a graduation target. -/
def smallSegments : List Segment :=
  [directSegment [0x6b] (List.replicate 32 0x66), directSegment [] [0x05],
    directSegment [0x76] (List.replicate 32 0x11), directSegment [0x76] [0x07],
    directSegment [] [0x09]]

def smallPin : SkeletonBuild where
  name := "small"
  phase := "unknown"
  fees := (0, 0)
  fixture := flatten smallSegments ++ []
  pushes := 5
  slots := [0, 1, 2, 3, 4]
  tokenCovenant := 0
  tokenReserve := 1
  creator := [2]
  vkas := [3]
  graduation := 4

theorem smallSegments_plain : ∀ seg ∈ smallSegments, ∀ b ∈ seg.gap, PlainOpcode b := by
  decide +kernel

theorem smallSegments_isPush : ∀ seg ∈ smallSegments, IsPush seg.push seg.value := by
  simp only [smallSegments, List.forall_mem_cons]
  exact ⟨directSegment_isPush _ (by decide) (by decide),
    directSegment_isPush _ (by decide) (by decide), directSegment_isPush _ (by decide) (by decide),
    directSegment_isPush _ (by decide) (by decide), directSegment_isPush _ (by decide) (by decide),
    fun _ h ↦ by cases h⟩

theorem smallPin_audited : smallPin.Audited where
  pushes := by
    rw [smallPin, pushUnits_flatten smallSegments_plain smallSegments_isPush silent_nil,
      unitsOf_length]
    rfl
  sites := by decide
  gaps := plainGaps_flatten smallSegments_plain smallSegments_isPush silent_nil

/-- A template that pushes one creator. -/
def smallTemplate : List Segment := [directSegment [0x76] (List.replicate 32 0x11)]

theorem smallTemplate_plainGaps : PlainGaps (flatten smallTemplate ++ []) :=
  plainGaps_flatten (by decide +kernel)
    (List.forall_mem_singleton.mpr (directSegment_isPush _ (by decide) (by decide))) silent_nil

theorem smallTemplate_slots : ∀ i ∈ [0], i < (pushUnits (flatten smallTemplate ++ [])).length := by
  decide +kernel

/-- A program of as many empty pushes as the third generation has. -/
theorem emptyPushes_length :
    (pushUnits (flatten (List.replicate 2654 ⟨[], [0x00], []⟩) ++ [])).length = 2654 := by
  rw [pushUnits_flatten ?_ ?_ silent_nil, unitsOf_length, List.length_replicate]
  · intro seg hseg b hb
    rw [(List.mem_replicate.mp hseg).2] at hb
    cases hb
  · intro seg hseg
    rw [(List.mem_replicate.mp hseg).2]
    exact .zero

/-- The small pin matches itself. -/
theorem matchers_exact_small :
    (∀ params, matchSkeleton smallPin smallPin.fixture = some params ↔
        ∃ values, Replaces smallPin.fixture smallPin.slots smallPin.fixture values ∧
          smallPin.Reads smallPin.fixture.length values params) ∧
      (matchSkeleton smallPin smallPin.fixture).isSome = true :=
  ⟨(matchers_exact smallPin_audited emptyPushes_length smallTemplate_plainGaps
    smallTemplate_slots smallPin.fixture).1, by decide +kernel⟩

/-- The small program with an empty push for its graduation target. -/
def emptyGraduation : List Segment := smallSegments.take 4 ++ [⟨[], [0x00], []⟩]

/-- The template with its creator behind a length byte. -/
def longCreator : List Segment :=
  [⟨[0x76], 0x4c :: 32 :: List.replicate 32 0x22, List.replicate 32 0x22⟩]

def emptyState : PoolState where
  kasReserve := ⟨List.replicate 8 0, List.length_replicate⟩
  tokenReserve := ⟨List.replicate 8 0, List.length_replicate⟩
  tokenCovenantId := ⟨List.replicate 32 0x66, List.length_replicate⟩
  shares := ⟨List.replicate 8 0, List.length_replicate⟩
  lpTokenCovenantId := ⟨List.replicate 32 0x33, List.length_replicate⟩

/-- Replacing a slot is not enough: an empty push has no number to read, and a
creator that is spelled longer changes the length of a pool program. -/
theorem replacement_refused :
    (smallPin.Audited ∧
      Replaces smallPin.fixture smallPin.slots (flatten emptyGraduation)
        (emptyGraduation.map (·.value)) ∧
      (∀ group ∈ [smallPin.vkas, smallPin.creator, smallPin.seed, smallPin.poolTpl],
        ∀ i ∈ group, ∀ j ∈ group, (emptyGraduation.map (·.value))[i]? =
          (emptyGraduation.map (·.value))[j]?) ∧
      smallPin.selfLen = [] ∧
      matchSkeleton smallPin (flatten emptyGraduation) = none) ∧
    Replaces (flatten smallTemplate ++ []) [0] (flatten longCreator)
        [List.replicate 32 0x22] ∧
      matchPoolBuild (emptyState.bytes ++ flatten longCreator) (flatten smallTemplate ++ []) [0] =
        none := by
  refine ⟨⟨smallPin_audited, (replaces_iff smallPin_audited.gaps).mpr ?_, ?_, rfl, ?_⟩,
    (replaces_iff smallTemplate_plainGaps).mpr ?_, ?_⟩
  all_goals decide +kernel

end Kascov
