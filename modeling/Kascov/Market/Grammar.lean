import Kascov.Market.Push

/-!
# Programs as gaps and pushes

`push_units` reads a program as a sequence of complete pushes with bytes between
them.  Here that sequence is a value of its own: a program is the concatenation
of its segments and a tail, and `push_units` returns the segments' positions.
-/

namespace Kascov

/-! ## Pushes -/

/-- One complete push, and the value it pushes. -/
inductive IsPush : Bytes → Bytes → Prop where
  | zero : IsPush [0x00] []
  | small (op : UInt8) (h : 0x51 ≤ op ∧ op ≤ 0x60) : IsPush [op] [op - 0x50]
  | direct (op : UInt8) (value : Bytes) (h : 0x01 ≤ op ∧ op ≤ 0x4b)
      (len : value.length = op.toNat) : IsPush (op :: value) value
  | data1 (n : UInt8) (value : Bytes) (len : value.length = n.toNat) :
      IsPush (0x4c :: n :: value) value
  | data2 (a b : UInt8) (value : Bytes) (len : value.length = a.toNat + 2 ^ 8 * b.toNat) :
      IsPush (0x4d :: a :: b :: value) value
  | data4 (a b c d : UInt8) (value : Bytes)
      (len : value.length =
        a.toNat + 2 ^ 8 * b.toNat + 2 ^ 16 * c.toNat + 2 ^ 24 * d.toNat) :
      IsPush (0x4e :: a :: b :: c :: d :: value) value

/-- An opcode that pushes nothing, wherever it stands. -/
def PlainOpcode (b : UInt8) : Prop := 0x4e < b ∧ ¬(0x51 ≤ b ∧ b ≤ 0x60)

instance (b : UInt8) : Decidable (PlainOpcode b) := inferInstanceAs (Decidable (_ ∧ _))

/-- The opcodes that spell a length. -/
def LengthOpcode (b : UInt8) : Prop := 0x4c ≤ b ∧ b ≤ 0x4e

instance (b : UInt8) : Decidable (LengthOpcode b) := inferInstanceAs (Decidable (_ ∧ _))

theorem ne_of_above {a b c : UInt8} (h : a < b) (hle : b ≤ c) : c ≠ a := by
  rintro rfl
  exact UInt8.lt_irrefl _ (UInt8.lt_of_lt_of_le h hle)

theorem ne_of_below {a b c : UInt8} (h : b < a) (hle : c ≤ b) : c ≠ a := by
  rintro rfl
  exact UInt8.lt_irrefl _ (UInt8.lt_of_le_of_lt hle h)

/-- A byte above the length opcodes spells no length. -/
theorem dataLength_above {b : UInt8} (h : 0x4e < b) (rest : Bytes) : dataLength b rest = none := by
  have h1 : ¬(0x01 ≤ b ∧ b ≤ 0x4b) :=
    fun hb ↦ UInt8.lt_irrefl _ (UInt8.lt_of_le_of_lt (UInt8.le_trans hb.2 (by decide)) h)
  have hne : ∀ c : UInt8, c ≤ 0x4e → b ≠ c := by
    rintro c hc rfl
    exact UInt8.lt_irrefl _ (UInt8.lt_of_le_of_lt hc h)
  unfold dataLength
  rw [if_neg h1, if_neg (hne 0x4c (by decide)), if_neg (hne 0x4d (by decide)),
    if_neg (hne 0x4e (by decide))]

theorem dataLength_plain {b : UInt8} (h : PlainOpcode b) (rest : Bytes) :
    dataLength b rest = none :=
  dataLength_above h.1 rest

/-- What a length stands for: the bytes that spell it, and as many as it says. -/
theorem dataLength_split {op : UInt8} {rest data : Bytes} {len : Nat}
    (h : dataLength op rest = some (len, data)) :
    ∃ spelled, rest = spelled ++ data ∧ spelled.length = lengthBytes op ∧
      ∀ value : Bytes, value.length = len → IsPush (op :: (spelled ++ value)) value := by
  unfold dataLength at h
  unfold lengthBytes
  split at h
  · rename_i hop
    obtain ⟨rfl, rfl⟩ := Prod.mk.inj (Option.some.inj h)
    refine ⟨[], rfl, ?_, fun value hvalue ↦ .direct op value hop hvalue⟩
    rw [if_neg (ne_of_below (by decide) hop.2), if_neg (ne_of_below (by decide) hop.2),
      if_neg (ne_of_below (by decide) hop.2)]
    rfl
  · split at h
    · rename_i hop
      subst hop
      split at h
      · rename_i n tail
        obtain ⟨rfl, rfl⟩ := Prod.mk.inj (Option.some.inj h)
        exact ⟨[n], rfl, rfl, fun value hvalue ↦ .data1 n value hvalue⟩
      · cases h
    · split at h
      · rename_i hop
        subst hop
        split at h
        · rename_i a b tail
          obtain ⟨rfl, rfl⟩ := Prod.mk.inj (Option.some.inj h)
          exact ⟨[a, b], rfl, rfl, fun value hvalue ↦ .data2 a b value hvalue⟩
        · cases h
      · split at h
        · rename_i hop
          subst hop
          split at h
          · rename_i a b c d tail
            obtain ⟨rfl, rfl⟩ := Prod.mk.inj (Option.some.inj h)
            exact ⟨[a, b, c, d], rfl, rfl, fun value hvalue ↦ .data4 a b c d value hvalue⟩
          · cases h
        · cases h

/-! ## One turn of the loop -/

section Turn

variable {n fuel i : Nat}

theorem pushUnitsFrom_skip {op : UInt8} {rest : Bytes} (hzero : op ≠ 0x00)
    (hsmall : ¬(0x51 ≤ op ∧ op ≤ 0x60)) (hdata : dataLength op rest = none) :
    pushUnitsFrom n (fuel + 1) i (op :: rest) = pushUnitsFrom n fuel (i + 1) rest := by
  rw [pushUnitsFrom, if_neg hzero, if_neg hsmall, hdata]

theorem pushUnitsFrom_plain {op : UInt8} {rest : Bytes} (h : PlainOpcode op) :
    pushUnitsFrom n (fuel + 1) i (op :: rest) = pushUnitsFrom n fuel (i + 1) rest := by
  refine pushUnitsFrom_skip ?_ h.2 (dataLength_plain h rest)
  rintro rfl
  exact absurd h.1 (by decide)

theorem not_small_of_dataLength {op : UInt8} {rest data : Bytes} {len : Nat}
    (h : dataLength op rest = some (len, data)) : op ≠ 0x00 ∧ ¬(0x51 ≤ op ∧ op ≤ 0x60) := by
  constructor
  · rintro rfl
    simp [dataLength] at h
  · intro hsmall
    rw [dataLength_above (UInt8.lt_of_lt_of_le (by decide) hsmall.1)] at h
    cases h

/-- A push of data that is all there. -/
theorem pushUnitsFrom_data {op : UInt8} (spelled : Bytes) {value more : Bytes}
    (h : dataLength op (spelled ++ (value ++ more)) = some (value.length, value ++ more))
    (hspelled : spelled.length = lengthBytes op)
    (hn : i + (op :: (spelled ++ value)).length ≤ n) :
    pushUnitsFrom n (fuel + 1) i (op :: (spelled ++ (value ++ more))) =
      ⟨i, i + (op :: (spelled ++ value)).length, value⟩ ::
        pushUnitsFrom n fuel (i + (op :: (spelled ++ value)).length) more := by
  obtain ⟨hzero, hsmall⟩ := not_small_of_dataLength h
  have hstop : i + 1 + lengthBytes op + value.length = i + (op :: (spelled ++ value)).length := by
    rw [List.length_cons, List.length_append, hspelled]
    omega
  rw [pushUnitsFrom, if_neg hzero, if_neg hsmall, h]
  dsimp only
  rw [hstop, if_neg (Nat.not_lt.mpr hn), List.take_left, List.drop_left]

/-- **One complete push is one unit.** -/
theorem pushUnitsFrom_push {push value : Bytes} (h : IsPush push value) (more : Bytes)
    (hn : i + push.length ≤ n) :
    pushUnitsFrom n (fuel + 1) i (push ++ more) =
      ⟨i, i + push.length, value⟩ :: pushUnitsFrom n fuel (i + push.length) more := by
  cases h with
  | zero => rfl
  | small op hop =>
      have hzero : op ≠ 0x00 := by
        rintro rfl
        exact absurd hop.1 (by decide)
      rw [List.singleton_append, pushUnitsFrom, if_neg hzero, if_pos hop]
      rfl
  | direct op value hop hlen =>
      refine pushUnitsFrom_data [] ?_ ?_ hn
      · unfold dataLength
        rw [if_pos hop, hlen]
        rfl
      · unfold lengthBytes
        rw [if_neg (ne_of_below (by decide) hop.2), if_neg (ne_of_below (by decide) hop.2),
          if_neg (ne_of_below (by decide) hop.2)]
        rfl
  | data1 m value hlen =>
      refine pushUnitsFrom_data [m] ?_ rfl hn
      rw [hlen]
      rfl
  | data2 a b value hlen =>
      refine pushUnitsFrom_data [a, b] ?_ rfl hn
      rw [hlen]
      rfl
  | data4 a b c d value hlen =>
      refine pushUnitsFrom_data [a, b, c, d] ?_ rfl hn
      rw [hlen]
      rfl

end Turn

/-! ## Segments -/

/-- A push with the bytes before it, and the value it pushes. -/
structure Segment where
  gap : Bytes
  push : Bytes
  value : Bytes
deriving DecidableEq, Repr

def Segment.bytes (seg : Segment) : Bytes := seg.gap ++ seg.push

/-- The bytes of a sequence of segments. -/
def flatten (segs : List Segment) : Bytes := segs.flatMap Segment.bytes

@[simp] theorem flatten_nil : flatten [] = [] := rfl

@[simp] theorem flatten_cons (seg : Segment) (segs : List Segment) :
    flatten (seg :: segs) = seg.gap ++ (seg.push ++ flatten segs) := by
  simp only [flatten, List.flatMap_cons, Segment.bytes, List.append_assoc]

/-- The units of a sequence of segments, from a position. -/
def unitsOf : Nat → List Segment → List PushUnit
  | _, [] => []
  | pos, seg :: segs =>
      ⟨pos + seg.gap.length, pos + seg.gap.length + seg.push.length, seg.value⟩ ::
        unitsOf (pos + seg.gap.length + seg.push.length) segs

@[simp] theorem unitsOf_length (pos : Nat) (segs : List Segment) :
    (unitsOf pos segs).length = segs.length := by
  induction segs generalizing pos with
  | nil => rfl
  | cons seg segs ih => rw [unitsOf, List.length_cons, List.length_cons, ih]

theorem unitsOf_getElem? (pos : Nat) (segs : List Segment) (i : Nat) :
    (unitsOf pos segs)[i]?.map (·.value) = (segs.map (·.value))[i]? := by
  induction segs generalizing pos i with
  | nil => rfl
  | cons seg segs ih =>
      cases i with
      | zero => rfl
      | succ i => exact ih _ i

/-- No unit is read of a tail. -/
def Silent (tail : Bytes) : Prop :=
  ∀ i fuel, tail.length ≤ fuel → pushUnitsFrom (i + tail.length) fuel i tail = []

theorem silent_nil : Silent [] := by
  intro i fuel _
  cases fuel <;> rfl

/-- A gap of plain opcodes is skipped. -/
theorem pushUnitsFrom_gap {n fuel i : Nat} {gap rest : Bytes} (h : ∀ b ∈ gap, PlainOpcode b) :
    pushUnitsFrom n (fuel + gap.length) i (gap ++ rest) =
      pushUnitsFrom n fuel (i + gap.length) rest := by
  induction gap generalizing i with
  | nil => rfl
  | cons b gap ih =>
      obtain ⟨hb, hgap⟩ := List.forall_mem_cons.mp h
      rw [List.length_cons, List.cons_append, ← Nat.add_assoc, pushUnitsFrom_plain hb, ih hgap,
        Nat.add_assoc, Nat.add_comm 1]

theorem IsPush.length_pos {push value : Bytes} (h : IsPush push value) : 0 < push.length := by
  cases h <;> exact Nat.succ_pos _

/-- **A program of plain gaps and complete pushes reads as its segments.** -/
theorem pushUnitsFrom_flatten {segs : List Segment} {tail : Bytes}
    (hgap : ∀ seg ∈ segs, ∀ b ∈ seg.gap, PlainOpcode b)
    (hpush : ∀ seg ∈ segs, IsPush seg.push seg.value) (htail : Silent tail) {i fuel : Nat}
    (hfuel : (flatten segs ++ tail).length ≤ fuel) :
    pushUnitsFrom (i + (flatten segs ++ tail).length) fuel i (flatten segs ++ tail) =
      unitsOf i segs := by
  induction segs generalizing i fuel with
  | nil => exact htail i fuel hfuel
  | cons seg segs ih =>
      obtain ⟨hg, hgap⟩ := List.forall_mem_cons.mp hgap
      obtain ⟨hp, hpush⟩ := List.forall_mem_cons.mp hpush
      have hpos := hp.length_pos
      have hbytes : flatten (seg :: segs) ++ tail =
          seg.gap ++ (seg.push ++ (flatten segs ++ tail)) := by
        rw [flatten_cons, List.append_assoc, List.append_assoc]
      have hlength : (flatten (seg :: segs) ++ tail).length =
          seg.gap.length + seg.push.length + (flatten segs ++ tail).length := by
        rw [hbytes, List.length_append, List.length_append, Nat.add_assoc]
      obtain ⟨rest, rfl⟩ : ∃ rest, fuel = rest + 1 + seg.gap.length :=
        ⟨fuel - 1 - seg.gap.length, by omega⟩
      rw [hlength] at hfuel ⊢
      rw [hbytes, pushUnitsFrom_gap hg, pushUnitsFrom_push hp _ (by omega), unitsOf]
      have hn : i + (seg.gap.length + seg.push.length + (flatten segs ++ tail).length) =
          i + seg.gap.length + seg.push.length + (flatten segs ++ tail).length := by omega
      rw [hn, ih hgap hpush (by omega)]

theorem pushUnits_flatten {segs : List Segment} {tail : Bytes}
    (hgap : ∀ seg ∈ segs, ∀ b ∈ seg.gap, PlainOpcode b)
    (hpush : ∀ seg ∈ segs, IsPush seg.push seg.value) (htail : Silent tail) :
    pushUnits (flatten segs ++ tail) = unitsOf 0 segs := by
  have h := pushUnitsFrom_flatten hgap hpush htail (i := 0) le_rfl
  rwa [Nat.zero_add] at h

/-- A program read as gaps and complete pushes. -/
structure Segmented (program : Bytes) (segs : List Segment) (tail : Bytes) : Prop where
  bytes : program = flatten segs ++ tail
  push : ∀ seg ∈ segs, IsPush seg.push seg.value
  gap : ∀ seg ∈ segs, ∀ b ∈ seg.gap, PlainOpcode b ∨ LengthOpcode b
  silent : Silent tail
  units : ∀ i fuel, program.length ≤ fuel →
    pushUnitsFrom (i + program.length) fuel i program = unitsOf i segs

/-- A byte that is read as no push is part of the gap before the next one. -/
theorem Segmented.skip {op : UInt8} {rest : Bytes} {segs : List Segment} {tail : Bytes}
    (h : Segmented rest segs tail) (hop : PlainOpcode op ∨ LengthOpcode op)
    (hskip : ∀ n fuel i, pushUnitsFrom n (fuel + 1) i (op :: rest) =
      pushUnitsFrom n fuel (i + 1) rest) :
    ∃ segs tail, Segmented (op :: rest) segs tail := by
  have hread : ∀ i fuel, (op :: rest).length ≤ fuel →
      pushUnitsFrom (i + (op :: rest).length) fuel i (op :: rest) = unitsOf (i + 1) segs := by
    intro i fuel hfuel
    rw [List.length_cons] at hfuel
    obtain ⟨fuel, rfl⟩ : ∃ f, fuel = f + 1 := ⟨fuel - 1, by omega⟩
    rw [hskip, List.length_cons, ← Nat.add_assoc, Nat.add_right_comm]
    exact h.units (i + 1) fuel (by omega)
  cases segs with
  | nil =>
      refine ⟨[], op :: rest, rfl, ?_, ?_, ?_, hread⟩
      · intro _ hseg
        cases hseg
      · intro _ hseg
        cases hseg
      · exact hread
  | cons seg segs =>
      obtain ⟨hp, hpush⟩ := List.forall_mem_cons.mp h.push
      obtain ⟨hg, hgap⟩ := List.forall_mem_cons.mp h.gap
      refine ⟨⟨op :: seg.gap, seg.push, seg.value⟩ :: segs, tail, ?_, ?_, ?_, h.silent, ?_⟩
      · rw [h.bytes, flatten_cons, flatten_cons, List.cons_append, List.cons_append]
      · exact List.forall_mem_cons.mpr ⟨hp, hpush⟩
      · exact List.forall_mem_cons.mpr ⟨List.forall_mem_cons.mpr ⟨hop, hg⟩, hgap⟩
      · intro i fuel hfuel
        rw [hread i fuel hfuel, unitsOf, unitsOf, List.length_cons]
        have hpos : i + 1 + seg.gap.length = i + (seg.gap.length + 1) := by omega
        rw [hpos]

/-- A complete push is a segment of its own. -/
theorem Segmented.push_cons {push value rest : Bytes} {segs : List Segment} {tail : Bytes}
    (h : Segmented rest segs tail) (hpush : IsPush push value) :
    Segmented (push ++ rest) (⟨[], push, value⟩ :: segs) tail := by
  refine ⟨?_, ?_, ?_, h.silent, ?_⟩
  · rw [h.bytes, flatten_cons, List.nil_append, List.append_assoc]
  · exact List.forall_mem_cons.mpr ⟨hpush, h.push⟩
  · exact List.forall_mem_cons.mpr ⟨fun b hb ↦ (by cases hb), h.gap⟩
  · intro i fuel hfuel
    have hpos := hpush.length_pos
    rw [List.length_append] at hfuel ⊢
    obtain ⟨fuel, rfl⟩ : ∃ f, fuel = f + 1 := ⟨fuel - 1, by omega⟩
    rw [pushUnitsFrom_push hpush rest (by omega), unitsOf, List.length_nil, Nat.add_zero,
      ← Nat.add_assoc, h.units (i + push.length) fuel (by omega)]

theorem plain_or_length {op : UInt8} {rest : Bytes} (hzero : op ≠ 0x00)
    (hsmall : ¬(0x51 ≤ op ∧ op ≤ 0x60)) (hdata : dataLength op rest = none) :
    PlainOpcode op ∨ LengthOpcode op := by
  by_cases habove : 0x4e < op
  · exact .inl ⟨habove, hsmall⟩
  · by_cases hlength : 0x4c ≤ op
    · exact .inr ⟨hlength, UInt8.not_lt.mp habove⟩
    · have hdirect : 0x01 ≤ op ∧ op ≤ 0x4b := by
        have hne : op.toNat ≠ 0 := fun h ↦ hzero (UInt8.toNat_inj.mp h)
        have hlt : op.toNat < 76 := UInt8.lt_iff_toNat_lt.mp (UInt8.not_le.mp hlength)
        exact ⟨UInt8.le_iff_toNat_le.mpr (Nat.one_le_iff_ne_zero.mpr hne),
          UInt8.le_iff_toNat_le.mpr (Nat.le_of_lt_succ hlt)⟩
      unfold dataLength at hdata
      rw [if_pos hdirect] at hdata
      cases hdata

/-- **Every program reads as gaps and complete pushes, one for each unit.** -/
theorem exists_segmented (program : Bytes) : ∃ segs tail, Segmented program segs tail := by
  induction hn : program.length using Nat.strong_induction_on generalizing program with
  | _ n ih =>
      subst hn
      cases program with
      | nil =>
          refine ⟨[], [], rfl, ?_, ?_, silent_nil, silent_nil⟩
          · intro _ hseg
            cases hseg
          · intro _ hseg
            cases hseg
      | cons op rest =>
          by_cases hzero : op = 0x00
          · subst hzero
            obtain ⟨segs, tail, h⟩ := ih rest.length (by simp) rest rfl
            exact ⟨_, tail, h.push_cons .zero⟩
          · by_cases hsmall : 0x51 ≤ op ∧ op ≤ 0x60
            · obtain ⟨segs, tail, h⟩ := ih rest.length (by simp) rest rfl
              exact ⟨_, tail, h.push_cons (.small op hsmall)⟩
            · cases hdata : dataLength op rest with
              | none =>
                  obtain ⟨segs, tail, h⟩ := ih rest.length (by simp) rest rfl
                  exact h.skip (plain_or_length hzero hsmall hdata)
                    fun n fuel i ↦ pushUnitsFrom_skip hzero hsmall hdata
              | some p =>
                  obtain ⟨len, data⟩ := p
                  obtain ⟨spelled, rfl, hspelled, hpush⟩ := dataLength_split hdata
                  by_cases hcut : data.length < len
                  · -- a push that is cut off ends the program
                    have hread : Silent (op :: (spelled ++ data)) := by
                      intro i fuel hfuel
                      rw [List.length_cons, List.length_append] at hfuel ⊢
                      obtain ⟨fuel, rfl⟩ : ∃ f, fuel = f + 1 := ⟨fuel - 1, by omega⟩
                      rw [pushUnitsFrom, if_neg hzero, if_neg hsmall, hdata]
                      dsimp only
                      rw [if_pos (by omega)]
                    refine ⟨[], _, rfl, ?_, ?_, hread, hread⟩
                    · intro _ hseg
                      cases hseg
                    · intro _ hseg
                      cases hseg
                  · obtain ⟨value, more, rfl, hlen⟩ : ∃ value more, data = value ++ more ∧
                        value.length = len :=
                      ⟨data.take len, data.drop len, (List.take_append_drop len data).symm,
                        List.length_take_of_le (Nat.not_lt.mp hcut)⟩
                    obtain ⟨segs, tail, h⟩ := ih more.length
                      (by simp only [List.length_cons, List.length_append]; omega) more rfl
                    have hread := h.push_cons (hpush value hlen)
                    rw [List.cons_append, List.append_assoc] at hread
                    exact ⟨_, tail, hread⟩

/-! ## The lockstep walk -/

/-- The segments of two programs are equal outside the slots, gaps included. -/
def SameOutside (slots : List Nat) : Nat → List Segment → List Segment → Prop
  | _, [], [] => True
  | i, f :: fs, c :: cs =>
      f.gap = c.gap ∧ (i ∈ slots ∨ f.push = c.push) ∧ SameOutside slots (i + 1) fs cs
  | _, _, _ => False

theorem SameOutside.length_eq {slots : List Nat} {i : Nat} {fs cs : List Segment}
    (h : SameOutside slots i fs cs) : fs.length = cs.length := by
  induction fs generalizing i cs with
  | nil =>
      cases cs with
      | nil => rfl
      | cons c cs => cases h
  | cons f fs ih =>
      cases cs with
      | nil => cases h
      | cons c cs => rw [List.length_cons, List.length_cons, ih h.2.2]

theorem SameOutside.gap_mem {slots : List Nat} {i : Nat} {fs cs : List Segment}
    (h : SameOutside slots i fs cs) {c : Segment} (hc : c ∈ cs) : ∃ f ∈ fs, f.gap = c.gap := by
  induction fs generalizing i cs with
  | nil =>
      cases cs with
      | nil => cases hc
      | cons c cs => cases h
  | cons f fs ih =>
      cases cs with
      | nil => cases h
      | cons c' cs =>
          rcases List.mem_cons.mp hc with rfl | hc
          · exact ⟨f, List.mem_cons_self, h.1⟩
          · obtain ⟨f', hf', heq⟩ := ih h.2.2 hc
            exact ⟨f', List.mem_cons_of_mem _ hf', heq⟩

/-- **The walk compares segment by segment.** -/
theorem lockstepFrom_iff (slots : List Nat) {i : Nat} {fs cs : List Segment}
    (hlen : fs.length = cs.length) (fpre cpre ftail ctail : Bytes) :
    lockstepFrom (fpre ++ (flatten fs ++ ftail)) (cpre ++ (flatten cs ++ ctail)) slots i
        fpre.length cpre.length (unitsOf fpre.length fs) (unitsOf cpre.length cs) = true ↔
      SameOutside slots i fs cs ∧ ftail = ctail := by
  induction fs generalizing i cs fpre cpre with
  | nil =>
      obtain rfl := List.length_eq_zero_iff.mp hlen.symm
      rw [unitsOf, unitsOf, lockstepFrom, flatten_nil, List.nil_append, List.nil_append,
        List.drop_left, List.drop_left, beq_iff_eq]
      exact (and_iff_right trivial).symm
  | cons f fs ih =>
      cases cs with
      | nil => cases hlen
      | cons c cs =>
          have hnext : ∀ (pre tail : Bytes) (seg : Segment) (segs : List Segment),
              pre ++ (flatten (seg :: segs) ++ tail) =
                (pre ++ seg.gap ++ seg.push) ++ (flatten segs ++ tail) := by
            intro pre tail seg segs
            simp only [flatten_cons, List.append_assoc]
          have hpos : ∀ (pre : Bytes) (seg : Segment),
              pre.length + seg.gap.length + seg.push.length =
                (pre ++ seg.gap ++ seg.push).length := by
            intro pre seg
            rw [List.length_append, List.length_append]
          have hgap : ∀ (pre tail : Bytes) (seg : Segment) (segs : List Segment),
              byteRange (pre ++ (flatten (seg :: segs) ++ tail)) pre.length
                (pre.length + seg.gap.length) = seg.gap := by
            intro pre tail seg segs
            rw [flatten_cons, List.append_assoc]
            exact byteRange_middle pre seg.gap _
          have hpush : ∀ (pre tail : Bytes) (seg : Segment) (segs : List Segment),
              byteRange (pre ++ (flatten (seg :: segs) ++ tail)) (pre.length + seg.gap.length)
                (pre.length + seg.gap.length + seg.push.length) = seg.push := by
            intro pre tail seg segs
            rw [flatten_cons, List.append_assoc, List.append_assoc, ← List.append_assoc pre,
              ← List.length_append]
            exact byteRange_middle (pre ++ seg.gap) seg.push _
          rw [unitsOf, unitsOf, lockstepFrom, Bool.and_eq_true, Bool.and_eq_true, Bool.or_eq_true,
            beq_iff_eq, beq_iff_eq, hgap, hgap, hpush, hpush, List.contains_iff_mem]
          dsimp only
          rw [hnext, hnext, hpos, hpos, ih (Nat.succ.inj hlen), SameOutside]
          tauto

end Kascov
