import Kascov.Market.Bench
import Kascov.Market.Exact

/-!
# When a proposed pin accepts its own family

The bench clusters programs by the digest of their joined gaps and compares
pushed values; the matcher compares every gap and every push in place.  The two
views of a family agree just when no digest collides, the gaps of all members are
cut at the same points, and a value all members push is spelled in as many bytes
by all of them.  The proposed role groups hold in every member regardless.
-/

namespace Kascov

/-! ## What the matcher compares -/

/-- The bytes between the pushes, one by one, with those after the last. -/
def gapsFrom (program : Bytes) : Nat → List PushUnit → List Bytes
  | prev, [] => [program.drop prev]
  | prev, u :: units => byteRange program prev u.start :: gapsFrom program u.stop units

def gaps (program : Bytes) : List Bytes := gapsFrom program 0 (pushUnits program)

/-- In how many bytes each push is spelled. -/
def pushWidths (program : Bytes) : List Nat := (pushUnits program).map fun u ↦ u.stop - u.start

theorem joinedGapsFrom_eq (program : Bytes) (prev : Nat) (units : List PushUnit) :
    joinedGapsFrom program prev units = (gapsFrom program prev units).flatten := by
  induction units generalizing prev with
  | nil => rw [joinedGapsFrom, gapsFrom, List.flatten_cons, List.flatten_nil, List.append_nil]
  | cons u units ih => rw [joinedGapsFrom, gapsFrom, List.flatten_cons, ih]

theorem gapsFrom_flatten (pre tail : Bytes) (segs : List Segment) :
    gapsFrom (pre ++ (flatten segs ++ tail)) pre.length (unitsOf pre.length segs) =
      segs.map (·.gap) ++ [tail] := by
  induction segs generalizing pre with
  | nil => rw [unitsOf, gapsFrom, flatten_nil, List.nil_append, List.drop_left]; rfl
  | cons seg segs ih =>
      have hrest : pre ++ (flatten (seg :: segs) ++ tail) =
          (pre ++ seg.gap ++ seg.push) ++ (flatten segs ++ tail) := by
        simp only [flatten_cons, List.append_assoc]
      have hpos : pre.length + seg.gap.length + seg.push.length =
          (pre ++ seg.gap ++ seg.push).length := by
        rw [List.length_append, List.length_append]
      have hgap : byteRange (pre ++ (flatten (seg :: segs) ++ tail)) pre.length
          (pre.length + seg.gap.length) = seg.gap := by
        rw [flatten_cons, List.append_assoc]
        exact byteRange_middle pre seg.gap _
      rw [unitsOf, gapsFrom, hgap]
      dsimp only
      rw [hrest, hpos, ih, List.map_cons, List.cons_append]

section Reading

variable {program : Bytes} {segs : List Segment} {tail : Bytes}

theorem Segmented.gaps (h : Segmented program segs tail) :
    gaps program = segs.map (·.gap) ++ [tail] := by
  have hgaps := gapsFrom_flatten [] tail segs
  rw [List.nil_append, ← h.bytes] at hgaps
  rw [Kascov.gaps, h.pushUnits]
  exact hgaps

theorem unitsOf_widths (pos : Nat) (segs : List Segment) :
    (unitsOf pos segs).map (fun u ↦ u.stop - u.start) = segs.map (·.push.length) := by
  induction segs generalizing pos with
  | nil => rfl
  | cons seg segs ih =>
      rw [unitsOf, List.map_cons, List.map_cons, ih, Nat.add_sub_cancel_left]

theorem Segmented.pushWidths (h : Segmented program segs tail) :
    pushWidths program = segs.map (·.push.length) := by
  rw [Kascov.pushWidths, h.pushUnits, unitsOf_widths]

theorem Segmented.length (h : Segmented program segs tail) :
    (Kascov.pushUnits program).length = segs.length := by
  rw [h.pushUnits, unitsOf_length]

theorem Segmented.pushedAt (h : Segmented program segs tail) (i : Nat) :
    pushedAt (Kascov.pushUnits program) i = ((segs.map (·.value))[i]?).getD [] := by
  rw [Kascov.pushedAt, h.pushUnits, unitsOf_getElem?]

end Reading

/-- The push of a value whose opcode and length take `k` bytes. -/
def spell (value : Bytes) : Nat → Bytes
  | 0 => [value.headD 0 + 0x50]
  | 1 => .ofNat value.length :: value
  | 2 => 0x4c :: .ofNat value.length :: value
  | 3 => 0x4d :: .ofNat value.length :: .ofNat (value.length / 2 ^ 8) :: value
  | _ => 0x4e :: .ofNat value.length :: .ofNat (value.length / 2 ^ 8) ::
      .ofNat (value.length / 2 ^ 16) :: .ofNat (value.length / 2 ^ 24) :: value

theorem ofNat_eq {n : Nat} {a : UInt8} (h : n % 2 ^ 8 = a.toNat) : UInt8.ofNat n = a :=
  UInt8.toNat_inj.mp (by rw [UInt8.toNat_ofNat', h])

theorem IsPush.eq_spell {p v : Bytes} (h : IsPush p v) : p = spell v (p.length - v.length) := by
  cases h with
  | zero => rfl
  | small op _ =>
      show [op] = [op - 0x50 + 0x50]
      rw [UInt8.sub_add_cancel]
  | direct op _ _ len =>
      have ho := op.toNat_lt
      rw [List.length_cons, Nat.add_sub_cancel_left, spell, ofNat_eq (a := op) (by omega)]
  | data1 n _ len =>
      have hn := n.toNat_lt
      have hk : (0x4c :: n :: v).length - v.length = 2 := by
        rw [List.length_cons, List.length_cons]
        omega
      rw [hk, spell, ofNat_eq (a := n) (by omega)]
  | data2 a b _ len =>
      have ha := a.toNat_lt
      have hb := b.toNat_lt
      have hk : (0x4d :: a :: b :: v).length - v.length = 3 := by
        simp only [List.length_cons]
        omega
      rw [hk, spell, ofNat_eq (a := a) (by omega), ofNat_eq (a := b) (by omega)]
  | data4 a b c d _ len =>
      have ha := a.toNat_lt
      have hb := b.toNat_lt
      have hc := c.toNat_lt
      have hd := d.toNat_lt
      have hk : (0x4e :: a :: b :: c :: d :: v).length - v.length = 5 := by
        simp only [List.length_cons]
        omega
      rw [hk, spell, ofNat_eq (a := a) (by omega), ofNat_eq (a := b) (by omega),
        ofNat_eq (a := c) (by omega), ofNat_eq (a := d) (by omega)] <;> nofun

/-- A value and the number of bytes that spell it determine the push. -/
theorem IsPush.eq_of_length {p q v : Bytes} (hp : IsPush p v) (hq : IsPush q v)
    (hlen : p.length = q.length) : p = q := by
  rw [hp.eq_spell, hq.eq_spell, hlen]

/-- The walk, without its order: the gaps are equal, and so is every push outside
the slots. -/
theorem sameOutside_iff {slots : List Nat} {i : Nat} {fs cs : List Segment} :
    SameOutside slots i fs cs ↔ fs.map (·.gap) = cs.map (·.gap) ∧
      ∀ j f c, fs[j]? = some f → cs[j]? = some c → i + j ∈ slots ∨ f.push = c.push := by
  induction fs generalizing i cs with
  | nil =>
      cases cs with
      | nil => exact iff_of_true trivial ⟨rfl, fun j f c hf ↦ nomatch hf⟩
      | cons c cs => exact iff_of_false id fun h ↦ nomatch h.1
  | cons f fs ih =>
      cases cs with
      | nil => exact iff_of_false id fun h ↦ nomatch h.1
      | cons c cs =>
          rw [SameOutside, ih, List.map_cons, List.map_cons, List.cons.injEq]
          constructor
          · rintro ⟨hgap, hpush, hgaps, hrest⟩
            refine ⟨⟨hgap, hgaps⟩, fun j f' c' hf hc ↦ ?_⟩
            cases j with
            | zero =>
                obtain rfl := Option.some.inj hf
                obtain rfl := Option.some.inj hc
                exact hpush
            | succ j =>
                rw [← Nat.add_assoc, Nat.add_right_comm]
                exact hrest j f' c' hf hc
          · rintro ⟨⟨hgap, hgaps⟩, hall⟩
            refine ⟨hgap, hall 0 f c rfl rfl, hgaps, fun j f' c' hf hc ↦ ?_⟩
            have h := hall (j + 1) f' c' hf hc
            rwa [← Nat.add_assoc, Nat.add_right_comm] at h

/-- **The matcher accepts when the gaps are equal and the pushes outside the slots
are spelled alike**, given that those push equal values. -/
theorem lockstepMatches_iff {f m : Bytes} {slots : List Nat}
    (hlen : (pushUnits f).length = (pushUnits m).length)
    (hval : ∀ i ∉ slots, pushedAt (pushUnits f) i = pushedAt (pushUnits m) i) :
    lockstepMatches f (pushUnits f) m (pushUnits m) slots = true ↔
      gaps f = gaps m ∧ ∀ i ∉ slots, (pushWidths f)[i]? = (pushWidths m)[i]? := by
  obtain ⟨fs, ftail, hf⟩ := exists_segmented f
  obtain ⟨cs, ctail, hc⟩ := exists_segmented m
  have hcount : fs.length = cs.length := by rw [← hf.length, hlen, hc.length]
  rw [lockstepMatches_reading hf hc slots hcount, sameOutside_iff, hf.gaps, hc.gaps,
    hf.pushWidths, hc.pushWidths, List.append_singleton_inj, and_right_comm]
  refine and_congr_right fun _ ↦ ?_
  simp only [Nat.zero_add]
  constructor
  · intro h i hi
    rw [List.getElem?_map, List.getElem?_map]
    by_cases hlt : i < fs.length
    · have hfi := List.getElem?_eq_getElem hlt
      have hci := List.getElem?_eq_getElem (hcount ▸ hlt)
      rw [hfi, hci, Option.map_some, Option.map_some, (h i _ _ hfi hci).resolve_left hi]
    · rw [List.getElem?_eq_none (Nat.le_of_not_lt hlt),
        List.getElem?_eq_none (hcount ▸ Nat.le_of_not_lt hlt)]
  · intro h j sf sc hfj hcj
    by_cases hj : j ∈ slots
    · exact .inl hj
    · have hwidth := h j hj
      have hvalue := hval j hj
      rw [List.getElem?_map, List.getElem?_map, hfj, hcj] at hwidth
      rw [hf.pushedAt, hc.pushedAt, List.getElem?_map, List.getElem?_map, hfj, hcj] at hvalue
      have hsc := hc.push sc (List.mem_of_getElem? hcj)
      rw [← show sf.value = sc.value from hvalue] at hsc
      exact .inr ((hf.push sf (List.mem_of_getElem? hfj)).eq_of_length hsc
        (Option.some.inj hwidth))

/-! ## A family cut alike -/

/-- All members push one value at `i`. -/
def Uniform (programs : List Bytes) (i : Nat) : Prop :=
  ∀ f ∈ programs, ∀ m ∈ programs, pushedAt (pushUnits f) i = pushedAt (pushUnits m) i

/-- No digest collision, gaps cut at the same points, and equal values spelled in
equally many bytes. -/
structure CutAlike (programs : List Bytes) : Prop where
  joined : ∀ f ∈ programs, ∀ m ∈ programs, (gaps f).flatten = (gaps m).flatten
  cuts : ∀ f ∈ programs, ∀ m ∈ programs,
    (gaps f).map List.length = (gaps m).map List.length
  spelled : ∀ i, Uniform programs i →
    ∀ f ∈ programs, ∀ m ∈ programs, (pushWidths f)[i]? = (pushWidths m)[i]?

theorem lt_of_mem_familySlots {n i : Nat} {memberUnits : List (List PushUnit)}
    (h : i ∈ familySlots n memberUnits) : i < n := by
  match memberUnits, h with
  | _ :: _ :: _, h => exact List.mem_range.mp (List.mem_filter.mp h).1

/-- **The slots are the pushes whose value differs.** -/
theorem mem_familySlots {programs : List Bytes} (h2 : 2 ≤ programs.length) {n i : Nat} :
    i ∈ familySlots n (programs.map pushUnits) ↔ i < n ∧ ¬Uniform programs i := by
  match programs, h2 with
  | first :: second :: rest, _ =>
    rw [List.map_cons, List.map_cons, familySlots, List.mem_filter, List.mem_range]
    refine and_congr_right fun _ ↦ ?_
    rw [← List.map_cons, List.any_map, List.any_eq_true]
    constructor
    · rintro ⟨m, hm, hne⟩ huniform
      exact of_decide_eq_true hne
        (huniform m (List.mem_cons_of_mem _ hm) first List.mem_cons_self)
    · intro hnot
      by_contra hnone
      have hfirst : ∀ m ∈ first :: second :: rest,
          pushedAt (pushUnits m) i = pushedAt (pushUnits first) i := by
        refine List.forall_mem_cons.mpr ⟨rfl, fun m hm ↦ ?_⟩
        by_contra hne
        exact hnone ⟨m, hm, decide_eq_true hne⟩
      exact hnot fun f hf m hm ↦ (hfirst f hf).trans (hfirst m hm).symm

/-- The matcher accepts every member, whichever is the fixture, just when the
family is cut alike. -/
theorem accepts_iff {programs : List Bytes} (h2 : 2 ≤ programs.length) {n : Nat}
    (hn : ∀ p ∈ programs, (pushUnits p).length = n) :
    (∀ f ∈ programs, ∀ m ∈ programs, lockstepMatches f (pushUnits f) m (pushUnits m)
        (familySlots n (programs.map pushUnits)) = true) ↔ CutAlike programs := by
  have hout : ∀ i, Uniform programs i → i ∉ familySlots n (programs.map pushUnits) :=
    fun i hi hslot ↦ ((mem_familySlots h2).mp hslot).2 hi
  have huniform : ∀ i, i ∉ familySlots n (programs.map pushUnits) → Uniform programs i := by
    intro i hi
    by_cases hlt : i < n
    · by_contra hnot
      exact hi ((mem_familySlots h2).mpr ⟨hlt, hnot⟩)
    · intro f hf m hm
      rw [pushedAt, pushedAt, List.getElem?_eq_none (hn f hf ▸ Nat.le_of_not_lt hlt),
        List.getElem?_eq_none (hn m hm ▸ Nat.le_of_not_lt hlt)]
  have hpair : ∀ f ∈ programs, ∀ m ∈ programs, _ ↔ _ := fun f hf m hm ↦
    lockstepMatches_iff ((hn f hf).trans (hn m hm).symm) fun i hi ↦ huniform i hi f hf m hm
  constructor
  · intro h
    have hgaps : ∀ f ∈ programs, ∀ m ∈ programs, gaps f = gaps m :=
      fun f hf m hm ↦ ((hpair f hf m hm).mp (h f hf m hm)).1
    refine ⟨fun f hf m hm ↦ ?_, fun f hf m hm ↦ ?_, fun i hi f hf m hm ↦ ?_⟩
    · rw [hgaps f hf m hm]
    · rw [hgaps f hf m hm]
    · exact ((hpair f hf m hm).mp (h f hf m hm)).2 i (hout i hi)
  · intro h f hf m hm
    refine (hpair f hf m hm).mpr ⟨?_, fun i hi ↦ h.spelled i (huniform i hi) f hf m hm⟩
    exact List.eq_iff_flatten_eq.mpr ⟨h.joined f hf m hm, h.cuts f hf m hm⟩

/-! ## Role groups -/

theorem getElem?_value {units : List PushUnit} {i : Nat} (h : i < units.length) :
    (units.map (·.value))[i]? = some (pushedAt units i) := by
  rw [pushedAt, List.getElem?_map, List.getElem?_eq_getElem h]
  rfl

section Groups

variable {slots : List Nat} {memberUnits : List (List PushUnit)} {e : Bytes × List Nat}

/-- A role group is repeated, consists of slots, and is one value in each member. -/
theorem of_mem_roleGroups (h : e ∈ roleGroups slots memberUnits) :
    (∀ sl ∈ e.2, sl ∈ slots) ∧ e.2 ≠ [] ∧
      ∀ u ∈ memberUnits, ∀ sl ∈ e.2, pushedAt u sl = pushedAt u (e.2.headD 0) := by
  obtain ⟨hmem, hrole⟩ := List.mem_filter.mp h
  obtain ⟨hsize, hcoherent⟩ := Bool.and_eq_true_iff.mp hrole
  rw [byValue, List.mem_insertionSort, Entries.mem_updateAll, foldl_snoc, List.nil_append] at hmem
  refine ⟨fun sl hsl ↦ ?_, ?_, fun u hu sl hsl ↦ ?_⟩
  · rw [hmem.2] at hsl
    exact (List.mem_filter.mp hsl).1
  · intro hnil
    rw [hnil] at hsize
    cases hsize
  · exact of_decide_eq_true (List.all_eq_true.mp (List.all_eq_true.mp hcoherent u hu) sl hsl)

variable {units : List PushUnit} {idx : List Nat}

theorem agreedBytes_of_forall (hne : idx ≠ []) (hidx : ∀ i ∈ idx, i < units.length) {v : Bytes}
    (h : ∀ i ∈ idx, pushedAt units i = v) : agreedBytes units idx = some v :=
  (agreedBytes_eq_some hidx).mpr
    ⟨hne, fun i hi ↦ by rw [getElem?_value (hidx i hi), h i hi]⟩

theorem agreedI64_of_forall (hne : idx ≠ []) (hidx : ∀ i ∈ idx, i < units.length) {v : Int}
    (h : ∀ i ∈ idx, leI64 (pushedAt units i) = some v) : agreedI64 units idx = some v :=
  (agreedI64_eq_some hidx).mpr
    ⟨hne, fun i hi ↦ ⟨_, getElem?_value (hidx i hi), h i hi⟩⟩

end Groups

/-- The groups of a proposal hold in a program under the matcher's own checks. -/
structure GroupsHold (pin : PinProposal) (program : Bytes) : Prop where
  creators : ∀ g ∈ pin.creatorLike,
    ∃ v, agreedBytes (pushUnits program) g = some v ∧ v.length = 32
  integers : ∀ g ∈ pin.i64Groups, ∃ v, agreedI64 (pushUnits program) g.slots = some v
  selfLen : pin.selfLen ≠ [] →
    agreedI64 (pushUnits program) pin.selfLen = some (program.length : Int)

/-- **Every proposed group holds in every member.** -/
theorem proposePin_groups {programs : List Bytes} {n : Nat}
    (hn : ∀ p ∈ programs, (pushUnits p).length = n) {slots : List Nat}
    (hslots : ∀ sl ∈ slots, sl < n) (best : Option ReplayTrial) (fixtureHash : Bytes)
    {m : Bytes} (hm : m ∈ programs) :
    GroupsHold (proposePin n slots (programs.map pushUnits) (programs.map List.length) best
      fixtureHash) m := by
  have hunits : pushUnits m ∈ programs.map pushUnits := List.mem_map_of_mem hm
  have hin : ∀ e ∈ roleGroups slots (programs.map pushUnits), ∀ i ∈ e.2,
      i < (pushUnits m).length :=
    fun e he i hi ↦ (hn m hm).symm ▸ hslots i ((of_mem_roleGroups he).1 i hi)
  refine ⟨fun g hg ↦ ?_, fun g hg ↦ ?_, fun hne ↦ ?_⟩
  · obtain ⟨e, he, rfl⟩ := List.mem_map.mp hg
    obtain ⟨hrole, hcreator⟩ := List.mem_filter.mp he
    obtain ⟨-, hne, hone⟩ := of_mem_roleGroups hrole
    refine ⟨_, agreedBytes_of_forall hne (hin e hrole) (hone _ hunits), ?_⟩
    exact of_decide_eq_true
      (List.all_eq_true.mp (Bool.and_eq_true_iff.mp hcreator).2 _ hunits)
  · obtain ⟨e, he, rfl⟩ := List.mem_map.mp hg
    obtain ⟨hrole, hi64⟩ := List.mem_filter.mp he
    obtain ⟨-, hne, hone⟩ := of_mem_roleGroups hrole
    obtain ⟨v, hv⟩ := Option.isSome_iff_exists.mp
      (List.all_eq_true.mp (Bool.and_eq_true_iff.mp hi64).2 _ hunits)
    exact ⟨v, agreedI64_of_forall hne (hin e hrole) fun i hi ↦ by rw [hone _ hunits i hi, hv]⟩
  · refine agreedI64_of_forall hne (fun i hi ↦ ?_) fun i hi ↦ ?_
    · rw [hn m hm]
      exact hslots i (List.mem_filter.mp hi).1
    · have hzip : (pushUnits m, m.length) ∈
          (programs.map pushUnits).zip (programs.map List.length) := by
        rw [List.zip_map', List.mem_map]
        exact ⟨m, hm, rfl⟩
      exact of_decide_eq_true (List.all_eq_true.mp (List.mem_filter.mp hi).2 _ hzip)

/-! ## The report -/

/-- The entry of a family is a pin its own programs satisfy: each of them, taken
as the fixture, accepts all of them, and the role groups hold in each. -/
structure Pinnable (fam : BenchFamily) (programs : List Bytes) : Prop where
  proposal : ∃ pin, fam.pinProposal = some pin ∧ pin.pushCount = fam.pushCount ∧
    fam.slotIndices.all (· = pin.slotIndices) = true ∧
    (∀ m ∈ programs, (pushUnits m).length = pin.pushCount) ∧
    (∀ f ∈ programs, ∀ m ∈ programs,
      lockstepMatches f (pushUnits f) m (pushUnits m) pin.slotIndices = true) ∧
    ∀ m ∈ programs, GroupsHold pin m

section Bench

variable {blake2b : Bytes → Bytes} {reveals : CovenantId → List (Bytes × Bytes)}
  {recorded : CovenantId → List TokenTrade} {unmatched : List CovenantId}

/-- **A reported family is pinnable just when it is cut alike**: no digest
collision, gaps cut at the same points, equal values spelled in equally many
bytes. -/
theorem pinnable_iff {e : (Nat × Bytes) × List Specimen}
    (he : e ∈ families blake2b (unmatched.filterMap (recoverSpecimen blake2b reveals recorded)))
    (h2 : 2 ≤ e.2.length) :
    benchFamily blake2b recorded e.1.1 e.2 ∈
        (runBench blake2b reveals recorded unmatched).families ∧
      (Pinnable (benchFamily blake2b recorded e.1.1 e.2) (e.2.map (·.program)) ↔
        CutAlike (e.2.map (·.program))) := by
  refine ⟨(runBench_families reveals recorded unmatched _).mpr ⟨e, he, rfl⟩, ?_⟩
  have hlen : 2 ≤ (e.2.map (·.program)).length := by
    rw [List.length_map]
    exact h2
  have hn : ∀ p ∈ e.2.map (·.program), (pushUnits p).length = e.1.1 :=
    List.forall_mem_map.mpr fun s hs ↦ pushes_of_mem he hs
  have hunits : e.2.map (pushUnits ·.program) = (e.2.map (·.program)).map pushUnits := by
    rw [List.map_map]
    rfl
  have hlens : e.2.map (·.program.length) = (e.2.map (·.program)).map List.length := by
    rw [List.map_map]
    rfl
  have hpin : (benchFamily blake2b recorded e.1.1 e.2).pinProposal = some _ := if_pos h2
  rw [hunits, hlens] at hpin
  constructor
  · rintro ⟨pin, hsome, -, -, -, haccepts, -⟩
    obtain rfl := Option.some.inj (hpin.symm.trans hsome)
    exact (accepts_iff hlen hn).mp haccepts
  · intro hcut
    refine ⟨_, hpin, rfl, ?_, hn, (accepts_iff hlen hn).mpr hcut, fun m hm ↦ ?_⟩
    · dsimp only [benchFamily]
      rw [hunits]
      split
      · exact decide_eq_true rfl
      · rfl
    · exact proposePin_groups hn (fun sl hsl ↦ lt_of_mem_familySlots hsl) _ _ hm

end Bench

/-! ## Families on a small chain -/

/-- A hash of 32 bytes, without collisions on short programs. -/
def padHash (program : Bytes) : Bytes := (program ++ List.replicate 32 0).take 32

/-- A spent cell that reveals a short program. -/
def revealOf (program : Bytes) : Bytes × Bytes :=
  (0xaa :: 0x20 :: (padHash program ++ [0x87]), .ofNat program.length :: program)

/-- One covenant for each program. -/
def covenantsOf (programs : List Bytes) : List CovenantId :=
  (List.range programs.length).map fun i ↦ ⟨.ofNat 256 i⟩

def revealsOf (programs : List Bytes) (cid : CovenantId) : List (Bytes × Bytes) :=
  (programs[cid.bytes.toNat]?.map revealOf).toList

/-- What the bench recovers of them. -/
def specimensOf (programs : List Bytes) : List Specimen :=
  (covenantsOf programs).filterMap (recoverSpecimen padHash (revealsOf programs) fun _ ↦ [])

/-- Two deployments that differ in one push. -/
def plainPair : List Bytes := [[0x51, 0xac], [0x52, 0xac]]

/-- A family cut alike. -/
theorem plainPair_pinnable :
    (((1, padHash [0xac]), specimensOf plainPair) ∈ families padHash (specimensOf plainPair) ∧
      2 ≤ (specimensOf plainPair).length) ∧
    (Pinnable (benchFamily padHash (fun _ ↦ []) 1 (specimensOf plainPair))
        ((specimensOf plainPair).map (·.program)) ↔
      CutAlike ((specimensOf plainPair).map (·.program))) :=
  ⟨by decide +kernel,
    (@pinnable_iff padHash (revealsOf plainPair) (fun _ ↦ []) (covenantsOf plainPair)
      ((1, padHash [0xac]), specimensOf plainPair) (by decide +kernel) (by decide +kernel)).2⟩

theorem not_pinnable {fam : BenchFamily} {programs : List Bytes} {f m : Bytes}
    (hf : f ∈ programs) (hm : m ∈ programs)
    (h : fam.pinProposal.all fun pin ↦
      !lockstepMatches f (pushUnits f) m (pushUnits m) pin.slotIndices) :
    ¬Pinnable fam programs := by
  rintro ⟨pin, hpin, -, -, -, haccepts, -⟩
  rw [hpin, Option.all_some, haccepts f hf m hm] at h
  cases h

/-- The same joined gaps cut at different points. -/
def shiftedPair : List Bytes := [[0x51, 0xac, 0x52, 0xad], [0xac, 0x51, 0x52, 0xad]]

/-- The same value pushed by a small number and by a byte. -/
def respelledPair : List Bytes := [[0x51], [0x01, 0x01]]

/-- Two families of two that the bench reports, each with a proposal that refuses
a member. -/
theorem families_not_pinnable :
    ((2, padHash [0xac, 0xad]), specimensOf shiftedPair) ∈
        families padHash (specimensOf shiftedPair) ∧
      (specimensOf shiftedPair).map (·.program) = shiftedPair ∧
      ¬Pinnable (benchFamily padHash (fun _ ↦ []) 2 (specimensOf shiftedPair)) shiftedPair ∧
    ((1, padHash []), specimensOf respelledPair) ∈
        families padHash (specimensOf respelledPair) ∧
      (specimensOf respelledPair).map (·.program) = respelledPair ∧
      ¬Pinnable (benchFamily padHash (fun _ ↦ []) 1 (specimensOf respelledPair))
        respelledPair := by
  refine ⟨by decide +kernel, by decide +kernel, ?_, by decide +kernel, by decide +kernel, ?_⟩
  · exact not_pinnable (f := [0x51, 0xac, 0x52, 0xad]) (m := [0xac, 0x51, 0x52, 0xad])
      (by decide) (by decide) (by decide +kernel)
  · exact not_pinnable (f := [0x51]) (m := [0x01, 0x01]) (by decide) (by decide)
      (by decide +kernel)

end Kascov
