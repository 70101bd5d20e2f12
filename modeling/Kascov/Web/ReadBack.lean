import Kascov.Web.Args

/-!
# What reads back

The arguments that the check before signing reads as they were pushed: all but the byte
that has an opcode of its own, and those too long for a signed length.  A script whose last
push is cut off is refused, unless the push has no length at all or one that reads as
negative, from where the reader steps back.
-/

namespace Kascov

open LittleEndian ScriptNumber

/-! ## Arguments -/

/-- What the builder pushes: a number, an array in its shortest form, or raw data. -/
inductive PushArg where
  | number (n : Int)
  | bytes (b : Bytes)
  | data (b : Bytes)
deriving DecidableEq

namespace PushArg

def script : PushArg → Bytes
  | number n => pushNumber n
  | bytes b => pushBytesMinimal b
  | data b => pushData b

/-- The bytes it stands for. -/
def payload : PushArg → Bytes
  | number n => scriptNumBytes n
  | bytes b => b
  | data b => b

/-- An entry reads back as the argument. -/
def Reads (p : PushArg) (e : ScriptPush) : Prop :=
  match p with
  | number n => argToBigInt e = some n
  | bytes b => argToBytes e = some b
  | data b => argToBytes e = some b

/-- It is not the byte that has an opcode the reader does not know, and its length is a
positive signed number. -/
def Readable (p : PushArg) : Prop := p.payload.length < 2 ^ 31 ∧ p ≠ bytes [0x81]

instance (p : PushArg) : Decidable p.Readable := inferInstanceAs (Decidable (_ ∧ _))

end PushArg

/-- The script of the arguments reads back as the arguments. -/
def ReadsBack (ps : List PushArg) : Prop :=
  ∃ es, ParsesTo (ps.flatMap (·.script)) (.ok es) ∧ List.Forall₂ PushArg.Reads ps es

theorem pushData_item {b : Bytes} (h : b.length < 2 ^ 31) : ∃ item : ScriptItem,
    item.bytes = pushData b ∧ item.size < 2 ^ 31 ∧ argToBytes item.entry = some b ∧
      (b ≠ [] → item.entry = .data b) := by
  have hwide : ∀ (x : UInt8) (w : Nat), lengthWidth x = some w → ¬x ≤ 0x4b → b.length < 256 ^ w →
      ∃ item : ScriptItem, item.bytes = x :: (fixed w b.length ++ b) ∧ item.size < 2 ^ 31 ∧
        argToBytes item.entry = some b ∧ (b ≠ [] → item.entry = .data b) := by
    intro x w hw hx hlt
    have hwidth : lengthWidth x = some (fixed w b.length).length := by
      rw [length_fixed, hw]
    have hdeclared : b.length = declaredLength x (fixed w b.length) := by
      rw [declaredLength, if_neg hx, value_fixed hlt]
    exact ⟨.push x _ b hwidth hdeclared, rfl, h, rfl, fun _ ↦ rfl⟩
  unfold pushData
  by_cases hsmall : b.length < 0x4c
  · rw [if_pos hsmall]
    cases b with
    | nil => exact ⟨.op 0 rfl, rfl, by decide, rfl, fun hne ↦ absurd rfl hne⟩
    | cons y b =>
        have hnat : (UInt8.ofNat (y :: b).length).toNat = (y :: b).length :=
          UInt8.toNat_ofNat_of_lt' (hsmall.trans (by decide))
        have hone : 1 ≤ (y :: b).length := Nat.succ_pos _
        have hlow : 0x01 ≤ UInt8.ofNat (y :: b).length ∧ UInt8.ofNat (y :: b).length ≤ 0x4b := by
          rw [UInt8.le_iff_toNat_le, UInt8.le_iff_toNat_le, hnat]
          exact ⟨hone, Nat.le_of_lt_succ hsmall⟩
        have hwidth : lengthWidth (UInt8.ofNat (y :: b).length) = some ([] : Bytes).length := by
          rw [lengthWidth, if_pos hlow]
          rfl
        have hdeclared : (y :: b).length = declaredLength (UInt8.ofNat (y :: b).length) [] := by
          rw [declaredLength, if_pos hlow.2, hnat]
        exact ⟨.push _ [] (y :: b) hwidth hdeclared, rfl, h, rfl, fun _ ↦ rfl⟩
  · rw [if_neg hsmall]
    split
    · rename_i hlen
      exact hwide 0x4c 1 rfl (by decide) (by omega)
    · split
      · rename_i hlen
        exact hwide 0x4d 2 rfl (by decide) (by omega)
      · exact hwide 0x4e 4 rfl (by decide) (by omega)

theorem payload_pos {n : Int} (h : n ≠ 0) : scriptNumBytes n ≠ [] := by
  intro hnil
  have hback := decode_encode n
  rw [← scriptNumBytes_eq, hnil] at hback
  exact h hback.symm

/-- An argument of less than two gigabytes is one item, which reads back unless it is the
byte that has an opcode of its own. -/
theorem PushArg.exists_item {p : PushArg} (h : p.payload.length < 2 ^ 31) :
    ∃ item : ScriptItem, item.bytes = p.script ∧ item.size < 2 ^ 31 ∧
      (p.Reads item.entry ↔ p ≠ .bytes [0x81]) := by
  cases p with
  | number n =>
      have hne : PushArg.number n ≠ .bytes [0x81] := nofun
      rw [PushArg.script, pushNumber]
      by_cases hzero : n = 0
      · rw [if_pos hzero, hzero]
        exact ⟨.op 0 rfl, rfl, by decide, fun _ ↦ nofun, fun _ ↦ rfl⟩
      · rw [if_neg hzero]
        by_cases hsmall : 1 ≤ n ∧ n ≤ 16
        · rw [if_pos hsmall]
          obtain ⟨k, rfl⟩ : ∃ k : Fin 17, n = (k.val : Int) :=
            ⟨⟨n.toNat, by omega⟩, (Int.toNat_of_nonneg (by omega)).symm⟩
          have hk : ∀ k : Fin 17, 1 ≤ k.val → lengthWidth (UInt8.ofNat (0x50 + k.val)) = none ∧
              argToBigInt (.opcode (some (UInt8.ofNat (0x50 + k.val)))) = some (k.val : Int) := by
            decide +kernel
          obtain ⟨hplain, hreads⟩ := hk k (by omega)
          exact ⟨.op _ hplain, rfl, Nat.two_pow_pos 31, fun _ ↦ hne, fun _ ↦ hreads⟩
        · rw [if_neg hsmall]
          obtain ⟨item, hbytes, hsize, -, hentry⟩ := pushData_item h
          refine ⟨item, hbytes, hsize, fun _ ↦ hne, fun _ ↦ ?_⟩
          rw [PushArg.Reads, hentry (payload_pos hzero), argToBigInt_data, PushArg.payload,
            scriptNumBytes_eq, decode_encode]
  | data b =>
      obtain ⟨item, hbytes, hsize, hreads, -⟩ := pushData_item h
      exact ⟨item, hbytes, hsize, fun _ ↦ nofun, fun _ ↦ hreads⟩
  | bytes b =>
      rw [PushArg.script]
      unfold pushBytesMinimal
      have hdata : b ≠ [0x81] → ∃ item : ScriptItem, item.bytes = pushData b ∧
          item.size < 2 ^ 31 ∧
          ((PushArg.bytes b).Reads item.entry ↔ PushArg.bytes b ≠ .bytes [0x81]) := by
        intro hb
        obtain ⟨item, hbytes, hsize, hreads, -⟩ := pushData_item h
        exact ⟨item, hbytes, hsize, fun _ heq ↦ hb (PushArg.bytes.inj heq), fun _ ↦ hreads⟩
      split
      · exact ⟨.op 0 rfl, rfl, by decide, fun _ ↦ nofun, fun _ ↦ rfl⟩
      · rename_i x
        split
        · rename_i hx
          have hk : ∀ k : Fin 256, 1 ≤ UInt8.ofNat k.val ∧ UInt8.ofNat k.val ≤ 16 →
              lengthWidth (0x50 + UInt8.ofNat k.val) = none ∧
              argToBytes (.opcode (some (0x50 + UInt8.ofNat k.val))) = some [UInt8.ofNat k.val] ∧
              UInt8.ofNat k.val ≠ 0x81 := by
            decide +kernel
          have hxk := hk ⟨x.toNat, x.toNat_lt⟩
          rw [UInt8.ofNat_toNat] at hxk
          obtain ⟨hplain, hreads, hne⟩ := hxk hx
          refine ⟨.op _ hplain, rfl, Nat.two_pow_pos 31, fun _ heq ↦ hne ?_, fun _ ↦ hreads⟩
          exact List.singleton_inj.mp (PushArg.bytes.inj heq)
        · split
          · rename_i hx
            refine ⟨.op 0x4f rfl, rfl, by decide, nofun, fun hne ↦ absurd ?_ hne⟩
            rw [hx]
          · rename_i hx
            exact hdata fun heq ↦ hx (List.singleton_inj.mp heq)
      · rename_i hb
        exact hdata (hb 0x81)

/-! ## Arguments that are too long -/

theorem PushArg.script_of_long {p : PushArg} (h : 2 ^ 31 ≤ p.payload.length) :
    p.script = 0x4e :: (fixed 4 p.payload.length ++ p.payload) := by
  have hlong : ∀ b : Bytes, 2 ^ 31 ≤ b.length → pushData b = 0x4e :: (fixed 4 b.length ++ b) := by
    intro b hb
    rw [pushData, if_neg (by omega), if_neg (by omega), if_neg (by omega)]
  cases p with
  | number n =>
      have hbound : 2 ≤ (encode n).length → ¬(1 ≤ n ∧ n ≤ 16) ∨ (encode n).length ≤ 2 := by
        intro _
        by_cases hsmall : 1 ≤ n ∧ n ≤ 16
        · exact .inr (length_encode_le (n := 1) (by omega))
        · exact .inl hsmall
      have hlen : (encode n).length = (PushArg.number n).payload.length := by
        rw [PushArg.payload, scriptNumBytes_eq]
      have hzero : n ≠ 0 := by
        rintro rfl
        rw [encode_zero] at hlen
        rw [← hlen] at h
        exact absurd h (by decide)
      have hsmall := (hbound (by omega)).resolve_right (by omega)
      rw [PushArg.script, pushNumber, if_neg hzero, if_neg hsmall]
      exact hlong _ h
  | data b => exact hlong b h
  | bytes b =>
      rw [PushArg.script]
      unfold pushBytesMinimal
      split
      · exact absurd h (by decide)
      · rename_i x
        have hone : 2 ^ 31 ≤ 1 := h
        exact absurd hone (by decide)
      · exact hlong b h

theorem length_arraySlice_le {b : Bytes} {start stop : Int} (hstart : 0 ≤ start)
    (hstop : 0 ≤ stop) : (arraySlice b start stop).length ≤ (stop - start).toNat := by
  rw [arraySlice, List.length_drop, List.length_take, sliceIndex, sliceIndex,
    if_neg (not_lt.mpr hstop), if_neg (not_lt.mpr hstart)]
  omega

/-- A length that four bytes do not hold as a positive signed number: the reader steps
back, or takes too little. -/
theorem parsePush_long {p : PushArg} (h : 2 ^ 31 ≤ p.payload.length) (front rest : Bytes) :
    ∃ e next, parsePush (front ++ (p.script ++ rest)) front.length = .ok (e, some next) ∧
      (next < 0 ∨ ∃ d, e = .data d ∧ d.length + 2 ≤ p.payload.length) := by
  have hwidth : lengthWidth 0x4e = some (fixed 4 p.payload.length).length := by
    rw [length_fixed]
    rfl
  have hheader := @pushHeader_eq front _ (p.payload ++ rest) 0x4e hwidth
  have hvalue := value_lt (fixed 4 p.payload.length)
  have hexact : p.payload.length < 2 ^ 32 →
      value (fixed 4 p.payload.length) = p.payload.length :=
    fun hlt ↦ value_fixed hlt
  rw [length_fixed] at hheader hvalue
  rw [PushArg.script_of_long h, List.cons_append, List.append_assoc]
  unfold parsePush
  rw [byteAt_front]
  dsimp only
  rw [hheader, declaredLength, if_neg (by decide)]
  dsimp only
  have htotal : (front ++ 0x4e :: (fixed 4 p.payload.length ++ (p.payload ++ rest))).length =
      front.length + (1 + 4 + (p.payload.length + rest.length)) := by
    simp only [List.length_append, List.length_cons, length_fixed]
    omega
  generalize hs : front ++ 0x4e :: (fixed 4 p.payload.length ++ (p.payload ++ rest)) = s at *
  by_cases hsigned : value (fixed 4 p.payload.length) < 2 ^ 31
  · -- the length is that of a payload of four gigabytes or more, less its high bits
    rw [toInt32_of_lt hsigned, htotal, if_neg (by omega)]
    refine ⟨_, _, rfl, .inr ⟨_, rfl, ?_⟩⟩
    have hslice := @length_arraySlice_le s ((front.length + (1 + 4) : Nat) : Int)
      (((front.length + (1 + 4) : Nat) : Int) + value (fixed 4 p.payload.length))
      (by omega) (by omega)
    omega
  · have hneg : toInt32 (value (fixed 4 p.payload.length)) < 0 := by
      rw [toInt32_of_ge (Nat.not_lt.mp hsigned) hvalue]
      omega
    have htwo : 2 ≤ p.payload.length := le_trans (by decide) h
    clear hexact hvalue hsigned h
    generalize toInt32 (value (fixed 4 p.payload.length)) = len at *
    rw [htotal, if_neg (by omega)]
    by_cases hnext : ((front.length + (1 + 4) : Nat) : Int) + len < 0
    · exact ⟨_, _, rfl, .inl hnext⟩
    · refine ⟨_, _, rfl, .inr ⟨_, rfl, ?_⟩⟩
      have hslice := @length_arraySlice_le s ((front.length + (1 + 4) : Nat) : Int)
        (((front.length + (1 + 4) : Nat) : Int) + len) (by omega) (by omega)
      omega

/-- Less data is another number, or another array. -/
theorem PushArg.not_reads_short {p : PushArg} {d : Bytes} (h : d.length + 2 ≤ p.payload.length) :
    ¬p.Reads (.data d) := by
  have hdecode : (decode d).natAbs < 256 ^ d.length := by
    rcases List.eq_nil_or_concat d with rfl | ⟨head, last, rfl⟩
    · decide
    · rw [List.concat_eq_append, natAbs_decode_concat]
      have hlt := value_lt (head ++ [unsigned last])
      rwa [List.length_append, List.length_singleton] at hlt ⊢
  cases p with
  | number n =>
      intro hreads
      rw [PushArg.Reads, argToBigInt_data, Option.some.injEq] at hreads
      have hlen := length_encode_le hdecode
      rw [hreads, ← scriptNumBytes_eq] at hlen
      have hpayload : (scriptNumBytes n).length = (PushArg.number n).payload.length := rfl
      omega
  | bytes b =>
      intro hreads
      obtain rfl := Option.some.inj hreads
      exact absurd h (by simp [PushArg.payload])
  | data b =>
      intro hreads
      obtain rfl := Option.some.inj hreads
      exact absurd h (by simp [PushArg.payload])

theorem PushArg.not_reads_undefined (p : PushArg) : ¬p.Reads (.opcode none) := by
  cases p with
  | number n => nofun
  | bytes b => nofun
  | data b => nofun

/-! ## Reading back -/

theorem exists_items {ps : List PushArg} (h : ∀ p ∈ ps, p.Readable) :
    ∃ items : List ScriptItem, items.flatMap (·.bytes) = ps.flatMap (·.script) ∧
      (∀ item ∈ items, item.size < 2 ^ 31) ∧
      List.Forall₂ PushArg.Reads ps (items.map (·.entry)) := by
  induction ps with
  | nil => exact ⟨[], rfl, nofun, .nil⟩
  | cons p ps ih =>
      obtain ⟨hp, hps⟩ := List.forall_mem_cons.mp h
      obtain ⟨items, hbytes, hsize, hreads⟩ := ih hps
      obtain ⟨item, hb, hs, hr⟩ := PushArg.exists_item hp.1
      refine ⟨item :: items, ?_, List.forall_mem_cons.mpr ⟨hs, hsize⟩, .cons (hr.mpr hp.2) hreads⟩
      rw [List.flatMap_cons, List.flatMap_cons, hb, hbytes]

theorem readsBack_of_readable {ps : List PushArg} (h : ∀ p ∈ ps, p.Readable) : ReadsBack ps := by
  obtain ⟨items, hbytes, hsize, hreads⟩ := exists_items h
  refine ⟨_, ?_, hreads⟩
  have hend : ParsesFrom ([] ++ (items.flatMap ScriptItem.bytes ++ []))
      (some (([] ++ items.flatMap ScriptItem.bytes).length : Int)) (.ok []) := by
    refine parsesFrom_end ?_
    rw [List.append_nil]
    omega
  have hrun := parsesFrom_items hsize hend
  rw [List.nil_append, List.append_nil, hbytes] at hrun
  rw [← List.append_nil (items.map _)]
  exact hrun

/-- An argument that reads back where the reader stands leaves the reader after it. -/
theorem readable_of_turn {p : PushArg} {ps : List PushArg} {front : Bytes} {e : ScriptPush}
    {es : List ScriptPush}
    (h : ParsesFrom (front ++ (p.script ++ ps.flatMap (·.script))) (some (front.length : Int))
      (.ok (e :: es))) (hp : p.Reads e) (hps : List.Forall₂ PushArg.Reads ps es) :
    p.Readable ∧ ParsesFrom (front ++ (p.script ++ ps.flatMap (·.script)))
      (some ((front ++ p.script).length : Int)) (.ok es) := by
  by_cases hlen : p.payload.length < 2 ^ 31
  · obtain ⟨item, hbytes, hsize, hreads⟩ := PushArg.exists_item hlen
    have hpos : 0 < item.bytes.length := by
      cases item with
      | op x plain => exact Nat.zero_lt_one
      | push x field data width complete => exact Nat.succ_pos _
    have hturn := parsePush_item front (ps.flatMap (·.script)) hsize
    rw [hbytes] at hturn hpos
    have hin : (front.length : Int) < (front ++ (p.script ++ ps.flatMap (·.script))).length := by
      simp only [List.length_append]
      omega
    obtain ⟨e', next, es', hparse, hrest, heq⟩ := h.inv hin
    rw [hturn, Except.ok.injEq, Prod.mk.injEq] at hparse
    obtain ⟨rfl, rfl⟩ := hparse
    obtain ⟨rfl, rfl⟩ := List.cons.inj heq
    exact ⟨⟨hlen, hreads.mp hp⟩, hrest⟩
  · obtain ⟨e', next, hturn, hbad⟩ :=
      parsePush_long (Nat.not_lt.mp hlen) front (ps.flatMap (·.script))
    have hscript := PushArg.script_of_long (Nat.not_lt.mp hlen)
    have hin : (front.length : Int) < (front ++ (p.script ++ ps.flatMap (·.script))).length := by
      rw [hscript]
      simp only [List.length_append, List.length_cons]
      omega
    obtain ⟨e₁, next₁, es', hparse, hrest, heq⟩ := h.inv hin
    rw [hturn, Except.ok.injEq, Prod.mk.injEq] at hparse
    obtain ⟨rfl, rfl⟩ := hparse
    obtain ⟨rfl, rfl⟩ := List.cons.inj heq
    exfalso
    rcases hbad with hneg | ⟨d, rfl, hshort⟩
    · -- before the array there is only the undefined opcode
      have hundefined : parsePush (front ++ (p.script ++ ps.flatMap (·.script))) next =
          .ok (.opcode none, some (next + 1)) := by
        rw [parsePush, byteAt, if_neg (by omega)]
      obtain ⟨e₂, next₂, es₂, hparse₂, -, rfl⟩ := hrest.inv (by omega)
      rw [hundefined, Except.ok.injEq, Prod.mk.injEq] at hparse₂
      obtain ⟨rfl, -⟩ := hparse₂
      cases hps with
      | cons hp' _ => exact PushArg.not_reads_undefined _ hp'
    · exact PushArg.not_reads_short hshort hp

theorem readable_of_readsBack {ps : List PushArg} {front : Bytes} {es : List ScriptPush}
    (h : ParsesFrom (front ++ ps.flatMap (·.script)) (some (front.length : Int)) (.ok es))
    (hreads : List.Forall₂ PushArg.Reads ps es) : ∀ p ∈ ps, p.Readable := by
  induction hreads generalizing front with
  | nil => nofun
  | @cons p e ps es hp hps ih =>
      rw [List.flatMap_cons] at h
      obtain ⟨hreadable, hrest⟩ := readable_of_turn h hp hps
      rw [← List.append_assoc] at hrest
      exact List.forall_mem_cons.mpr ⟨hreadable, ih hrest⟩

/-- Arguments read back exactly when each of them is readable. -/
theorem readsBack_iff {ps : List PushArg} : ReadsBack ps ↔ ∀ p ∈ ps, p.Readable := by
  refine ⟨?_, readsBack_of_readable⟩
  rintro ⟨es, hparse, hreads⟩
  exact @readable_of_readsBack ps [] es hparse hreads

/-! ## A last push that is cut off -/

/-- A push whose length or data ends before it should. -/
inductive CutOff : Bytes → Prop where
  | length (x : UInt8) (field : Bytes) (w : Nat) (width : lengthWidth x = some w)
      (short : field.length < w) : CutOff (x :: field)
  | data (x : UInt8) (field data : Bytes) (width : lengthWidth x = some field.length)
      (short : data.length < declaredLength x field) : CutOff (x :: (field ++ data))

/-- The length it declares, if it has one, is a positive signed number. -/
def DeclaresPositive (tail : Bytes) : Prop :=
  ∀ x field data, tail = x :: (field ++ data) → lengthWidth x = some field.length →
    declaredLength x field < 2 ^ 31

theorem bitsAt_lt (b : Bytes) (i : Int) : bitsAt b i < 2 ^ 8 := by
  unfold bitsAt
  cases byteAt b i with
  | none => decide
  | some x => exact x.toNat_lt

/-- A length that is cut off reads as one that is not, of zeros, unless it has no byte at
all. -/
theorem pushHeader_short {front field : Bytes} {x : UInt8} {w : Nat}
    (width : lengthWidth x = some w) (short : field.length < w) (hne : x :: field ≠ [0x4c]) :
    ∃ len : Nat, pushHeader (front ++ x :: field) front.length x =
      some ((front.length : Int) + (1 + w : Nat), some (len : Int)) := by
  rcases lengthWidth_eq_some width with ⟨-, -, rfl⟩ | ⟨rfl, rfl⟩ | ⟨rfl, rfl⟩ | ⟨rfl, rfl⟩
  · exact absurd short (Nat.not_lt_zero _)
  · exact absurd (congrArg _ (List.length_eq_zero_iff.mp (Nat.lt_one_iff.mp short))) hne
  · have h₁ := bitsAt_lt (front ++ 0x4d :: field) (front.length + 1)
    have h₂ := bitsAt_lt (front ++ 0x4d :: field) (front.length + 2)
    have hlen := @toInt32_of_lt (bitsAt (front ++ 0x4d :: field) (front.length + 1) +
      2 ^ 8 * bitsAt (front ++ 0x4d :: field) (front.length + 2)) (by omega)
    apply Exists.intro
    rw [pushHeader, if_neg (by decide), if_neg (by decide), if_pos rfl, hlen]
    rfl
  · have h₁ := bitsAt_lt (front ++ 0x4e :: field) (front.length + 1)
    have h₂ := bitsAt_lt (front ++ 0x4e :: field) (front.length + 2)
    have h₃ := bitsAt_lt (front ++ 0x4e :: field) (front.length + 3)
    have h₄ : bitsAt (front ++ 0x4e :: field) (front.length + 4) = 0 := by
      rw [bitsAt, byteAt_next 4 (k := 3) rfl, List.getElem?_eq_none (by omega)]
      rfl
    have hlen := @toInt32_of_lt (bitsAt (front ++ 0x4e :: field) (front.length + 1) +
      2 ^ 8 * (bitsAt (front ++ 0x4e :: field) (front.length + 2) +
        2 ^ 8 * (bitsAt (front ++ 0x4e :: field) (front.length + 3) +
          2 ^ 8 * bitsAt (front ++ 0x4e :: field) (front.length + 4)))) (by omega)
    apply Exists.intro
    rw [pushHeader, if_neg (by decide), if_neg (by decide), if_neg (by decide), if_pos rfl, hlen]
    rfl

/-- The reader refuses a push that is cut off. -/
theorem parsePush_cutOff {front tail : Bytes} (hcut : CutOff tail) (hpos : DeclaresPositive tail)
    (hne : tail ≠ [0x4c]) : parsePush (front ++ tail) front.length =
      .error "curve: truncated push in signatureScript" := by
  cases hcut with
  | length x field w width short =>
      obtain ⟨len, hheader⟩ := @pushHeader_short front field x w width short hne
      unfold parsePush
      rw [byteAt_front]
      dsimp only
      rw [hheader]
      dsimp only
      rw [if_pos]
      rw [List.length_append, List.length_cons]
      omega
  | data x field data width short =>
      have hlt := hpos x field data rfl width
      unfold parsePush
      rw [byteAt_front]
      dsimp only
      rw [pushHeader_eq width, toInt32_of_lt hlt]
      dsimp only
      rw [if_pos]
      simp only [List.length_append, List.length_cons]
      omega

/-- The reader takes a push without any length for one of nothing, and ends. -/
theorem parsePush_bare (front : Bytes) :
    parsePush (front ++ [0x4c]) front.length = .ok (.data [], none) := by
  have hmissing : byteAt (front ++ [0x4c]) (front.length + 1) = none :=
    byteAt_next 1 (k := 0) rfl
  unfold parsePush
  rw [byteAt_front]
  dsimp only
  rw [pushHeader, if_neg (by decide), if_pos rfl, hmissing]
  rfl

theorem cutOff_refused_iff {items : List ScriptItem} {tail : Bytes}
    (hsize : ∀ item ∈ items, item.size < 2 ^ 31) (hcut : CutOff tail)
    (hpos : DeclaresPositive tail) :
    ParsesTo (items.flatMap (·.bytes) ++ tail)
      (.error "curve: truncated push in signatureScript") ↔ tail ≠ [0x4c] := by
  have htail : 0 < tail.length := by
    cases hcut with
    | length x field w width short => exact Nat.succ_pos _
    | data x field data width short => exact Nat.succ_pos _
  have hin : ((([] : Bytes) ++ items.flatMap (·.bytes)).length : Int) <
      (([] : Bytes) ++ (items.flatMap (·.bytes) ++ tail)).length := by
    simp only [List.length_append]
    omega
  constructor
  · rintro herror rfl
    have hturn := parsePush_bare (([] : Bytes) ++ items.flatMap (·.bytes))
    rw [List.append_assoc] at hturn
    have hend := parsesFrom_items hsize (parsesFrom_none.turn hin hturn)
    exact nomatch herror.unique hend
  · intro hne
    have hturn := @parsePush_cutOff ([] ++ items.flatMap (·.bytes)) tail hcut hpos hne
    rw [List.append_assoc] at hturn
    exact parsesFrom_items hsize (parsesFrom_error hin hturn)

/-! ## The continuation of a curve program -/

theorem isCurveProgram_iff {p : Bytes} :
    isCurveProgram p = true ↔ 45 ≤ p.length ∧ p.head? = some 0x6b := by
  rw [isCurveProgram, Bool.and_eq_true, decide_eq_true_iff, beq_iff_eq]
  rfl

/-- The continuation is the program with the reserve's eight bytes replaced, and reads as
the program with the reserve replaced. -/
theorem nextCurveProgram_law {program : BytesArg} {r : Int} {out : Text}
    (h : nextCurveProgram program r = some out) :
    ∃ p p' st, toBytes program = some p ∧ toBytes (.text out) = some p' ∧
      p'.length = p.length ∧ (∀ i, i < 37 ∨ 45 ≤ i → p'[i]? = p[i]?) ∧
      parseCurveState program = some st ∧
      ∃ reserve : Nat, (reserve : Int) = r ∧
        parseCurveState (.text out) = some { st with reserve } := by
  simp only [nextCurveProgram, Option.bind_eq_bind, Option.bind_eq_some_iff] at h
  obtain ⟨p, hp, h⟩ := h
  by_cases hprogram : isCurveProgram p = true
  · rw [if_pos hprogram, Option.bind_eq_some_iff] at h
    obtain ⟨x, hx, hout⟩ := h
    obtain ⟨hlen, hhead⟩ := isCurveProgram_iff.mp hprogram
    unfold u64LE at hx
    split at hx
    · rename_i hr
      obtain rfl := Option.some.inj hx
      have hsplit : p = p.take 37 ++ (p.drop 37).take 8 ++ p.drop 45 := by
        rw [List.append_assoc]
        conv_lhs => rw [← List.take_append_drop 37 p, ← List.take_append_drop 8 (p.drop 37)]
        rw [List.drop_drop]
      have hfront : (p.take 37).length = 37 := by
        rw [List.length_take]
        omega
      have hmid : ((p.drop 37).take 8).length = 8 := by
        rw [List.length_take, List.length_drop]
        omega
      have hover : overwrite p 37 (fixed 8 r.toNat) = p.take 37 ++ fixed 8 r.toNat ++ p.drop 45 :=
        overwrite_middle hsplit hfront.symm (by rw [length_fixed, hmid])
      generalize hp' : p.take 37 ++ fixed 8 r.toNat ++ p.drop 45 = p' at hover
      have hlen' : p'.length = p.length := by
        simp only [← hp', List.length_append, length_fixed, hfront, List.length_drop]
        omega
      have hsame : ∀ i, i < 37 ∨ 45 ≤ i → p'[i]? = p[i]? := by
        rintro i (hi | hi)
        · rw [← hp', List.append_assoc, List.getElem?_append_left (by omega),
            List.getElem?_take_of_lt hi]
        · have hskip : (p.take 37 ++ fixed 8 r.toNat).length = 45 := by
            rw [List.length_append, hfront, length_fixed]
          rw [← hp', List.getElem?_append_right (by omega), hskip, List.getElem?_drop]
          congr 1
          omega
      have hprogram' : isCurveProgram p' = true := by
        rw [isCurveProgram_iff, hlen', List.head?_eq_getElem?, hsame 0 (.inl (by decide)),
          ← List.head?_eq_getElem?]
        exact ⟨hlen, hhead⟩
      have hcovid : byteRange p' 4 36 = byteRange p 4 36 := by
        rw [byteRange, byteRange, ← hp', List.append_assoc,
          List.take_append_of_le_length (by omega), List.take_take]
        rfl
      have hread : readU64LE p 37 = some (value ((p.drop 37).take 8)) := by
        have hslice := slice_middle 37 hsplit hfront.symm
        rw [hmid] at hslice
        rw [readU64LE, hslice]
        rfl
      have hread' : readU64LE p' 37 = some r.toNat := by
        have hslice := slice_middle 37 hp'.symm hfront.symm
        rw [length_fixed] at hslice
        rw [readU64LE, hslice, Option.map_some, value_fixed]
        omega
      have hback : toBytes (.text out) = some p' := by
        rw [← Option.some.inj hout, ← hover]
        exact hexBytes_toHex _
      refine ⟨p, p', ⟨toHex (byteRange p 4 36), value ((p.drop 37).take 8), p[2]? ≠ some 0x00⟩,
        hp, hback, hlen', hsame, ?_, r.toNat, Int.toNat_of_nonneg hr.1, ?_⟩
      · simp only [parseCurveState, hp, Option.bind_eq_bind, Option.bind_some, hprogram, if_true,
          curveReserveOffset, hread]
        rfl
      · simp only [parseCurveState, hback, Option.bind_eq_bind, Option.bind_some, hprogram',
          if_true, curveReserveOffset, hread', hcovid, hsame 2 (.inl (by decide))]
        rfl
    · cases hx
  · rw [if_neg hprogram] at h
    cases h

theorem nextCurveProgram_isSome_iff {program : BytesArg} {r : Int} :
    (nextCurveProgram program r).isSome ↔
      ∃ p, toBytes program = some p ∧ isCurveProgram p = true ∧ 0 ≤ r ∧ r < 2 ^ 64 := by
  unfold nextCurveProgram
  cases hp : toBytes program with
  | none => simp
  | some p =>
      simp only [Option.bind_eq_bind, Option.bind_some, Option.some.injEq, exists_eq_left']
      by_cases hprogram : isCurveProgram p = true
      · rw [if_pos hprogram, u64LE]
        by_cases hr : 0 ≤ r ∧ r < 2 ^ 64
        · rw [if_pos hr]
          exact ⟨fun _ ↦ ⟨hprogram, hr⟩, fun _ ↦ rfl⟩
        · rw [if_neg hr]
          exact ⟨fun h ↦ absurd h Bool.false_ne_true, fun h ↦ absurd h.2 hr⟩
      · rw [if_neg hprogram]
        exact ⟨fun h ↦ absurd h Bool.false_ne_true, fun h ↦ absurd h.1 hprogram⟩

/-! ## The law of the arguments -/

/-- **What is pushed reads back.**  Arguments read back exactly when each is readable; the
continuation of a curve program differs from it in the reserve alone; and a script whose
last push is cut off, and that declares no length of two gigabytes, is refused exactly when
that push has a length at all. -/
theorem arguments_law (ps : List PushArg) (program : BytesArg) (r : Int)
    (items : List ScriptItem) (tail : Bytes) :
    (ReadsBack ps ↔ ∀ p ∈ ps, p.Readable) ∧
    ((nextCurveProgram program r).isSome ↔
      ∃ p, toBytes program = some p ∧ isCurveProgram p = true ∧ 0 ≤ r ∧ r < 2 ^ 64) ∧
    (∀ out, nextCurveProgram program r = some out →
      ∃ p p' st, toBytes program = some p ∧ toBytes (.text out) = some p' ∧
        p'.length = p.length ∧ (∀ i, i < 37 ∨ 45 ≤ i → p'[i]? = p[i]?) ∧
        parseCurveState program = some st ∧
        ∃ reserve : Nat, (reserve : Int) = r ∧
          parseCurveState (.text out) = some { st with reserve }) ∧
    ((∀ item ∈ items, item.size < 2 ^ 31) → CutOff tail → DeclaresPositive tail →
      (ParsesTo (items.flatMap (·.bytes) ++ tail)
        (.error "curve: truncated push in signatureScript") ↔ tail ≠ [0x4c])) :=
  ⟨readsBack_iff, nextCurveProgram_isSome_iff, fun _ h ↦ nextCurveProgram_law h,
    fun hsize hcut hpos ↦ cutOff_refused_iff hsize hcut hpos⟩

/-- A program of no token and the flag of a curve that is bonding. -/
def bareCurveProgram : Bytes := 0x6b :: List.replicate 44 0x00

theorem arguments_law_samples :
    ReadsBack [.number 300, .bytes [0x02], .data []] ∧
    (∃ out p', nextCurveProgram (.array bareCurveProgram) 7 = some out ∧
      toBytes (.text out) = some p' ∧ p'.length = 45) ∧
    ParsesTo [0x51, 0x02, 0xaa] (.error "curve: truncated push in signatureScript") := by
  obtain ⟨hreads, -, hnext, hcut⟩ := arguments_law [.number 300, .bytes [0x02], .data []]
    (.array bareCurveProgram) 7 [.op 0x51 rfl] [0x02, 0xaa]
  refine ⟨hreads.mpr (by decide), ?_, ?_⟩
  · obtain ⟨p, p', st, hp, hp', hlen, -⟩ := hnext _ rfl
    obtain rfl := Option.some.inj hp
    exact ⟨_, p', rfl, hp', hlen⟩
  · refine (hcut ?_ (.data 0x02 [] [0xaa] rfl (by decide)) ?_).mpr (by decide)
    · rintro item hitem
      obtain rfl := List.mem_singleton.mp hitem
      decide
    · rintro x field data htail hwidth
      obtain ⟨rfl, -⟩ := List.cons.inj htail
      exact (by decide : 2 < 2 ^ 31)

/-- The reader steps back onto the push it came from, for ever. -/
theorem parsePushes_loops (fuel : Nat) :
    parsePushes [0x4e, 0xfb, 0xff, 0xff, 0xff] fuel (some 0) = none := by
  induction fuel with
  | zero => rfl
  | succ fuel ih =>
      have hturn : parsePush [0x4e, 0xfb, 0xff, 0xff, 0xff] 0 = .ok (.data [], some 0) := by
        decide +kernel
      rw [parsePushes, if_pos (by decide), hturn]
      dsimp only
      rw [ih]
      rfl

/-- A lone `0x81` does not read back; a push without a length and one of a negative length
are cut off and not refused. -/
theorem unreadable_arguments :
    ¬ReadsBack [.bytes [0x81]] ∧
    (CutOff [0x4c] ∧ ParsesTo [0x4c] (.ok [.data []])) ∧
    (CutOff [0x4e, 0xff, 0xff, 0xff, 0xff] ∧
      ParsesTo [0x4e, 0xff, 0xff, 0xff, 0xff] (.ok [.data [], .opcode (some 0xff)])) ∧
    CutOff [0x4e, 0xfb, 0xff, 0xff, 0xff] ∧ ∀ r, ¬ParsesTo [0x4e, 0xfb, 0xff, 0xff, 0xff] r := by
  refine ⟨fun h ↦ ?_, ⟨.length 0x4c [] 1 rfl (by decide), 1, rfl⟩,
    ⟨.data 0x4e [0xff, 0xff, 0xff, 0xff] [] rfl (by decide), 2, by decide +kernel⟩,
    .data 0x4e [0xfb, 0xff, 0xff, 0xff] [] rfl (by decide), ?_⟩
  · exact absurd (readsBack_iff.mp h _ List.mem_cons_self) (by decide)
  · rintro r ⟨fuel, h⟩
    rw [parsePushes_loops] at h
    cases h

end Kascov
