import Kascov.Decode.Registry
import Kascov.Decode.Spans
import Kascov.Lib.PrefixCodec

/-!
# Canonical pushes

`encode_push` of the crate root and the two push forms of `kcc1.rs`: a payload is
pushed with the shortest length prefix, and in the minimal form the payloads that a
numeric opcode owns are pushed by that opcode.  The readers accept exactly what the
writers write.
-/

namespace Kascov

open PrefixCodec

/-! ## The writers -/

/-- The opcode and length bytes before a payload of a length; the four-byte form
keeps the low bytes only, as a `u32` does. -/
def lengthPrefix (n : Nat) : Bytes :=
  if n ≤ 75 then [UInt8.ofNat n]
  else if n ≤ 0xff then [0x4c, UInt8.ofNat n]
  else if n ≤ 0xffff then [0x4d, UInt8.ofNat n, UInt8.ofNat (n / 2 ^ 8)]
  else [0x4e, UInt8.ofNat n, UInt8.ofNat (n / 2 ^ 8), UInt8.ofNat (n / 2 ^ 16),
    UInt8.ofNat (n / 2 ^ 24)]

/-- The numeric opcode that owns a payload, in the minimal form. -/
def smallOpcode : Bytes → Option UInt8
  | [] => some 0x00
  | [v] => if v = 0x81 then some 0x4f else if 1 ≤ v ∧ v ≤ 16 then some (0x50 + v) else none
  | _ => none

/-- `encode_push`: `PushMinimal`. -/
def encodePush (value : Bytes) : Bytes :=
  match smallOpcode value with
  | some opcode => [opcode]
  | none => lengthPrefix value.length ++ value

/-- `push_explicit`: `PushExplicit`. -/
def pushExplicit (payload : Bytes) : Bytes :=
  if payload = [] then [0x00] else lengthPrefix payload.length ++ payload

/-! ## The readers -/

/-- The payload a length declares, and the bytes read up to its end. -/
def readPayload (opcode : UInt8) (rest : Bytes) : Option (Bytes × Nat) :=
  match dataLength opcode rest with
  | none => none
  | some (n, data) =>
      if n ≤ data.length then some (data.take n, 1 + (rest.length - data.length) + n) else none

/-- The least length that an opcode may carry in the explicit form. -/
def leastLength (opcode : UInt8) : Nat :=
  if opcode = 0x4c then 76 else if opcode = 0x4d then 0x100
  else if opcode = 0x4e then 0x10000 else 0

/-- `read_push_explicit`. -/
def readPushExplicit : Bytes → Option (Bytes × Nat)
  | [] => none
  | opcode :: rest =>
      if opcode = 0x00 then some ([], 1)
      else
        match dataLength opcode rest with
        | none => none
        | some (n, _) => if n < leastLength opcode then none else readPayload opcode rest

/-- The push that `read_push_minimal` finds, before its form is checked. -/
def readPushLoose : Bytes → Option (Bytes × Nat)
  | [] => none
  | opcode :: rest =>
      if opcode = 0x00 then some ([], 1)
      else if opcode = 0x4f then some ([0x81], 1)
      else if 0x51 ≤ opcode ∧ opcode ≤ 0x60 then some ([opcode - 0x50], 1)
      else readPayload opcode rest

/-- `read_push_minimal`. -/
def readPushMinimal (script : Bytes) : Option (Bytes × Nat) :=
  match readPushLoose script with
  | none => none
  | some (payload, consumed) =>
      if encodePush payload = script.take consumed then some (payload, consumed) else none

/-! ## Length prefixes -/

/-- A length that four bytes hold. -/
def Fits32 (payload : Bytes) : Prop := payload.length < 2 ^ 32

/-- A prefix is an opcode that declares the length, in the least form. -/
theorem lengthPrefix_declares {n : Nat} (hpos : 0 < n) (hn : n < 2 ^ 32) :
    ∃ opcode header, lengthPrefix n = opcode :: header ∧ Declares opcode header n ∧
      leastLength opcode ≤ n := by
  unfold lengthPrefix
  split
  · rename_i hle
    have hnat : (UInt8.ofNat n).toNat = n := by
      rw [UInt8.toNat_ofNat']
      omega
    have hop : 0x01 ≤ UInt8.ofNat n ∧ UInt8.ofNat n ≤ 0x4b := by
      rw [UInt8.le_iff_toNat_le, UInt8.le_iff_toNat_le, hnat]
      exact ⟨hpos, hle⟩
    refine ⟨UInt8.ofNat n, [], rfl, ?_, ?_⟩
    · have hdirect := Declares.direct hop
      rwa [hnat] at hdirect
    · have hne : ∀ m : UInt8, 75 < m.toNat → UInt8.ofNat n ≠ m := by
        rintro m hm rfl
        omega
      rw [leastLength, if_neg (hne 0x4c (by decide)), if_neg (hne 0x4d (by decide)),
        if_neg (hne 0x4e (by decide))]
      exact Nat.zero_le n
  · split
    · rename_i hgt hle
      refine ⟨0x4c, _, rfl, ?_, ?_⟩
      · have hdecl := Declares.pushData1 (UInt8.ofNat n)
        have hnat : (UInt8.ofNat n).toNat = n := by
          rw [UInt8.toNat_ofNat']
          omega
        rwa [hnat] at hdecl
      · exact Nat.lt_of_not_le hgt
    · split
      · rename_i hgt hle
        refine ⟨0x4d, _, rfl, ?_, Nat.lt_of_not_le hgt⟩
        have hdecl := Declares.pushData2 (UInt8.ofNat n) (UInt8.ofNat (n / 2 ^ 8))
        have hnat : (UInt8.ofNat n).toNat + 2 ^ 8 * (UInt8.ofNat (n / 2 ^ 8)).toNat = n := by
          rw [UInt8.toNat_ofNat', UInt8.toNat_ofNat']
          omega
        rwa [hnat] at hdecl
      · rename_i hgt
        refine ⟨0x4e, _, rfl, ?_, Nat.lt_of_not_le hgt⟩
        have hdecl := Declares.pushData4 (UInt8.ofNat n) (UInt8.ofNat (n / 2 ^ 8))
          (UInt8.ofNat (n / 2 ^ 16)) (UInt8.ofNat (n / 2 ^ 24))
        have hnat : (UInt8.ofNat n).toNat + 2 ^ 8 * (UInt8.ofNat (n / 2 ^ 8)).toNat +
            2 ^ 16 * (UInt8.ofNat (n / 2 ^ 16)).toNat +
            2 ^ 24 * (UInt8.ofNat (n / 2 ^ 24)).toNat = n := by
          rw [UInt8.toNat_ofNat', UInt8.toNat_ofNat', UInt8.toNat_ofNat', UInt8.toNat_ofNat']
          omega
        rwa [hnat] at hdecl

/-- The prefix of a length is the only declaration of it in the least form. -/
theorem Declares.eq_lengthPrefix {opcode : UInt8} {header : Bytes} {n : Nat}
    (h : Declares opcode header n) (hleast : leastLength opcode ≤ n) :
    opcode :: header = lengthPrefix n := by
  cases h with
  | direct hop =>
      have hle : opcode.toNat ≤ 75 := UInt8.le_iff_toNat_le.mp hop.2
      rw [lengthPrefix, if_pos hle, UInt8.ofNat_toNat]
  | pushData1 a =>
      have hge : 76 ≤ a.toNat := hleast
      have ha := a.toNat_lt
      rw [lengthPrefix, if_neg (by omega), if_pos (by omega), UInt8.ofNat_toNat]
  | pushData2 a b =>
      have hge : 0x100 ≤ a.toNat + 2 ^ 8 * b.toNat := hleast
      have ha := a.toNat_lt
      have hb := b.toNat_lt
      have hlow : UInt8.ofNat (a.toNat + 2 ^ 8 * b.toNat) = a := UInt8.toNat_inj.mp (by
        rw [UInt8.toNat_ofNat']
        omega)
      have hhigh : UInt8.ofNat ((a.toNat + 2 ^ 8 * b.toNat) / 2 ^ 8) = b :=
        UInt8.toNat_inj.mp (by
          rw [UInt8.toNat_ofNat']
          omega)
      rw [lengthPrefix, if_neg (by omega), if_neg (by omega), if_pos (by omega), hlow, hhigh]
  | pushData4 a b c d =>
      have hge : 0x10000 ≤ a.toNat + 2 ^ 8 * b.toNat + 2 ^ 16 * c.toNat + 2 ^ 24 * d.toNat :=
        hleast
      have ha := a.toNat_lt
      have hb := b.toNat_lt
      have hc := c.toNat_lt
      have hd := d.toNat_lt
      have h0 : UInt8.ofNat (a.toNat + 2 ^ 8 * b.toNat + 2 ^ 16 * c.toNat + 2 ^ 24 * d.toNat) =
          a := UInt8.toNat_inj.mp (by
        rw [UInt8.toNat_ofNat']
        omega)
      have h1 : UInt8.ofNat ((a.toNat + 2 ^ 8 * b.toNat + 2 ^ 16 * c.toNat +
          2 ^ 24 * d.toNat) / 2 ^ 8) = b := UInt8.toNat_inj.mp (by
        rw [UInt8.toNat_ofNat']
        omega)
      have h2 : UInt8.ofNat ((a.toNat + 2 ^ 8 * b.toNat + 2 ^ 16 * c.toNat +
          2 ^ 24 * d.toNat) / 2 ^ 16) = c := UInt8.toNat_inj.mp (by
        rw [UInt8.toNat_ofNat']
        omega)
      have h3 : UInt8.ofNat ((a.toNat + 2 ^ 8 * b.toNat + 2 ^ 16 * c.toNat +
          2 ^ 24 * d.toNat) / 2 ^ 24) = d := UInt8.toNat_inj.mp (by
        rw [UInt8.toNat_ofNat']
        omega)
      rw [lengthPrefix, if_neg (by omega), if_neg (by omega), if_neg (by omega), h0, h1, h2, h3]

theorem Declares.lt_two_pow {opcode : UInt8} {header : Bytes} {n : Nat}
    (h : Declares opcode header n) : n < 2 ^ 32 := by
  cases h with
  | direct hop =>
      have := opcode.toNat_lt
      omega
  | pushData1 a =>
      have := a.toNat_lt
      omega
  | pushData2 a b =>
      have := a.toNat_lt
      have := b.toNat_lt
      omega
  | pushData4 a b c d =>
      have := a.toNat_lt
      have := b.toNat_lt
      have := c.toNat_lt
      have := d.toNat_lt
      omega

theorem readPayload_eq_some {opcode : UInt8} {rest payload : Bytes} {consumed : Nat} :
    readPayload opcode rest = some (payload, consumed) ↔
      ∃ header tail, rest = header ++ (payload ++ tail) ∧
        Declares opcode header payload.length ∧
        consumed = 1 + header.length + payload.length := by
  constructor
  · intro h
    unfold readPayload at h
    split at h
    · cases h
    · rename_i n data hlen
      split at h
      · rename_i hfits
        obtain ⟨rfl, rfl⟩ := Prod.mk.inj (Option.some.inj h)
        obtain ⟨header, rfl, hdecl⟩ := dataLength_eq_some.mp hlen
        have htake : (data.take n).length = n := List.length_take_of_le hfits
        refine ⟨header, data.drop n, ?_, ?_, ?_⟩
        · rw [List.take_append_drop]
        · rwa [htake]
        · rw [htake, List.length_append]
          omega
      · cases h
  · rintro ⟨header, tail, rfl, hdecl, rfl⟩
    have hlen : dataLength opcode (header ++ (payload ++ tail)) =
        some (payload.length, payload ++ tail) :=
      dataLength_eq_some.mpr ⟨header, rfl, hdecl⟩
    unfold readPayload
    rw [hlen]
    dsimp only
    rw [if_pos (by rw [List.length_append]; omega), List.take_left, List.length_append,
      Nat.add_sub_cancel]

/-! ## The explicit form -/

/-- The explicit form of a payload that is not empty. -/
theorem pushExplicit_cons {payload : Bytes} (hne : payload ≠ []) (hfits : Fits32 payload) :
    ∃ opcode header, pushExplicit payload = opcode :: (header ++ payload) ∧
      Declares opcode header payload.length ∧ leastLength opcode ≤ payload.length := by
  obtain ⟨opcode, header, hpre, hdecl, hleast⟩ :=
    lengthPrefix_declares (List.length_pos_iff.mpr hne) hfits
  refine ⟨opcode, header, ?_, hdecl, hleast⟩
  rw [pushExplicit, if_neg hne, hpre, List.cons_append]

theorem readPushExplicit_cons {opcode : UInt8} {header payload : Bytes} (tail : Bytes)
    (hdecl : Declares opcode header payload.length)
    (hleast : leastLength opcode ≤ payload.length) :
    readPushExplicit (opcode :: (header ++ (payload ++ tail))) =
      some (payload, 1 + header.length + payload.length) := by
  have hlen : dataLength opcode (header ++ (payload ++ tail)) =
      some (payload.length, payload ++ tail) :=
    dataLength_eq_some.mpr ⟨header, rfl, hdecl⟩
  rw [readPushExplicit, if_neg hdecl.ne_zero, hlen]
  dsimp only
  rw [if_neg (Nat.not_lt.mpr hleast)]
  exact readPayload_eq_some.mpr ⟨header, tail, rfl, hdecl, rfl⟩

theorem readPushExplicit_eq_some {s payload : Bytes} {consumed : Nat}
    (h : readPushExplicit s = some (payload, consumed)) :
    (∃ rest, s = 0x00 :: rest ∧ payload = [] ∧ consumed = 1) ∨
      ∃ opcode header rest, s = opcode :: (header ++ (payload ++ rest)) ∧
        Declares opcode header payload.length ∧ leastLength opcode ≤ payload.length ∧
        consumed = 1 + header.length + payload.length := by
  cases s with
  | nil => cases h
  | cons opcode rest =>
      rw [readPushExplicit] at h
      split at h
      · rename_i hzero
        obtain ⟨rfl, rfl⟩ := Prod.mk.inj (Option.some.inj h)
        exact .inl ⟨rest, by rw [hzero], rfl, rfl⟩
      · split at h
        · cases h
        · rename_i n data hlen
          split at h
          · cases h
          · rename_i hleast
            obtain ⟨header, tail, rfl, hdecl, rfl⟩ := readPayload_eq_some.mp h
            rw [dataLength_eq_some.mpr ⟨header, rfl, hdecl⟩] at hlen
            obtain ⟨rfl, -⟩ := Prod.mk.inj (Option.some.inj hlen)
            exact .inr ⟨opcode, header, tail, rfl, hdecl, Nat.not_lt.mp hleast, rfl⟩

/-- `read_push_explicit` accepts what `push_explicit` writes, and nothing else. -/
theorem pushExplicit_exact : Exact pushExplicit readPushExplicit Fits32 where
  reads payload rest hfits := by
    by_cases hne : payload = []
    · subst hne
      rfl
    · obtain ⟨opcode, header, hpush, hdecl, hleast⟩ := pushExplicit_cons hne hfits
      rw [hpush, List.cons_append, List.append_assoc, readPushExplicit_cons rest hdecl hleast,
        List.length_cons, List.length_append]
      congr 2
      omega
  written s payload consumed h := by
    rcases readPushExplicit_eq_some h with ⟨rest, rfl, rfl, rfl⟩ |
        ⟨opcode, header, rest, rfl, hdecl, hleast, rfl⟩
    · exact ⟨Nat.two_pow_pos 32, rest, rfl, rfl⟩
    · have hne : payload ≠ [] := by
        rintro rfl
        have hpre := hdecl.eq_lengthPrefix hleast
        rw [List.length_nil] at hpre
        have hopcode : opcode = 0x00 := (List.cons.inj hpre).1
        exact hdecl.ne_zero hopcode
      refine ⟨hdecl.lt_two_pow, rest, ?_, ?_⟩
      · rw [pushExplicit, if_neg hne, ← hdecl.eq_lengthPrefix hleast, List.cons_append,
          List.cons_append, List.append_assoc]
      · rw [pushExplicit, if_neg hne, ← hdecl.eq_lengthPrefix hleast, List.cons_append,
          List.length_cons, List.length_append]
        omega
  nonempty payload := by
    by_cases hne : payload = []
    · rw [hne]
      decide
    · rw [pushExplicit, if_neg hne]
      intro hnil
      exact hne (List.append_eq_nil_iff.mp hnil).2

/-! ## The minimal form -/

/-- The payloads that a numeric opcode owns. -/
theorem smallOpcode_cases {value : Bytes} {opcode : UInt8} (h : smallOpcode value = some opcode) :
    value = [] ∧ opcode = 0x00 ∨ value = [0x81] ∧ opcode = 0x4f ∨
      ∃ v : UInt8, value = [v] ∧ opcode = 0x50 + v ∧ 0x51 ≤ opcode ∧ opcode ≤ 0x60 := by
  unfold smallOpcode at h
  split at h
  · exact .inl ⟨rfl, (Option.some.inj h).symm⟩
  · rename_i v
    split at h
    · rename_i hv
      exact .inr (.inl ⟨by rw [hv], (Option.some.inj h).symm⟩)
    · split at h
      · rename_i hv
        obtain rfl := Option.some.inj h
        have hlow : 1 ≤ v.toNat := UInt8.le_iff_toNat_le.mp hv.1
        have hhigh : v.toNat ≤ 16 := UInt8.le_iff_toNat_le.mp hv.2
        have hnat : (0x50 + v).toNat = 0x50 + v.toNat := by
          rw [UInt8.toNat_add]
          exact Nat.mod_eq_of_lt (by change 0x50 + v.toNat < 256; omega)
        refine .inr (.inr ⟨v, rfl, rfl, ?_⟩)
        rw [UInt8.le_iff_toNat_le, UInt8.le_iff_toNat_le, hnat]
        exact ⟨Nat.add_le_add_left hlow 0x50, Nat.add_le_add_left hhigh 0x50⟩
      · cases h
  · cases h

theorem ne_of_small {opcode m : UInt8} (hlow : 0x51 ≤ opcode) (hm : m < 0x51) : opcode ≠ m := by
  rintro rfl
  exact absurd hm (UInt8.not_lt.mpr hlow)

theorem readPushLoose_small {value : Bytes} {opcode : UInt8} (rest : Bytes)
    (h : smallOpcode value = some opcode) :
    readPushLoose (opcode :: rest) = some (value, 1) := by
  rcases smallOpcode_cases h with ⟨rfl, rfl⟩ | ⟨rfl, rfl⟩ | ⟨v, rfl, rfl, hrange⟩
  · rfl
  · rfl
  · rw [readPushLoose, if_neg (ne_of_small hrange.1 (by decide)),
      if_neg (ne_of_small hrange.1 (by decide)), if_pos hrange, UInt8.add_comm,
      UInt8.add_sub_cancel]

theorem readPushLoose_cons {opcode : UInt8} {header payload : Bytes} (tail : Bytes)
    (hdecl : Declares opcode header payload.length) :
    readPushLoose (opcode :: (header ++ (payload ++ tail))) =
      some (payload, 1 + header.length + payload.length) := by
  rw [readPushLoose, if_neg hdecl.ne_zero, if_neg hdecl.ne_negate, if_neg hdecl.not_small]
  exact readPayload_eq_some.mpr ⟨header, tail, rfl, hdecl, rfl⟩

/-- What the loose reader reads fits, and lies within the script. -/
theorem readPushLoose_bounds {s payload : Bytes} {consumed : Nat}
    (h : readPushLoose s = some (payload, consumed)) :
    Fits32 payload ∧ consumed ≤ s.length := by
  cases s with
  | nil => cases h
  | cons opcode rest =>
      have hone : ∀ value : Bytes, value.length ≤ 1 →
          Fits32 value ∧ 1 ≤ (opcode :: rest).length :=
        fun value hle ↦ ⟨Nat.lt_of_le_of_lt hle (by decide), Nat.succ_pos _⟩
      rw [readPushLoose] at h
      split at h
      · obtain ⟨rfl, rfl⟩ := Prod.mk.inj (Option.some.inj h)
        exact hone _ (Nat.zero_le 1)
      · split at h
        · obtain ⟨rfl, rfl⟩ := Prod.mk.inj (Option.some.inj h)
          exact hone _ le_rfl
        · split at h
          · obtain ⟨rfl, rfl⟩ := Prod.mk.inj (Option.some.inj h)
            exact hone _ le_rfl
          · obtain ⟨header, tail, rfl, hdecl, rfl⟩ := readPayload_eq_some.mp h
            refine ⟨hdecl.lt_two_pow, ?_⟩
            rw [List.length_cons, List.length_append, List.length_append]
            omega

theorem smallOpcode_nil_ne_none : smallOpcode [] ≠ none := nofun

/-- The minimal form of a payload that no numeric opcode owns. -/
theorem encodePush_cons {value : Bytes} (hsmall : smallOpcode value = none)
    (hfits : Fits32 value) : ∃ opcode header, lengthPrefix value.length = opcode :: header ∧
      encodePush value = opcode :: (header ++ value) ∧ Declares opcode header value.length := by
  have hne : value ≠ [] := by
    rintro rfl
    exact smallOpcode_nil_ne_none hsmall
  obtain ⟨opcode, header, hpre, hdecl, -⟩ :=
    lengthPrefix_declares (List.length_pos_iff.mpr hne) hfits
  refine ⟨opcode, header, hpre, ?_, hdecl⟩
  rw [encodePush, hsmall]
  dsimp only
  rw [hpre, List.cons_append]

theorem readPushLoose_encodePush {value : Bytes} (rest : Bytes) (hfits : Fits32 value) :
    readPushLoose (encodePush value ++ rest) = some (value, (encodePush value).length) := by
  cases hsmall : smallOpcode value with
  | some opcode =>
      rw [encodePush, hsmall]
      exact readPushLoose_small rest hsmall
  | none =>
      obtain ⟨opcode, header, -, hpush, hdecl⟩ := encodePush_cons hsmall hfits
      rw [hpush, List.cons_append, List.append_assoc, readPushLoose_cons rest hdecl,
        List.length_cons, List.length_append]
      congr 2
      omega

/-- `read_push_minimal` accepts what `encode_push` writes, and nothing else. -/
theorem encodePush_exact : Exact encodePush readPushMinimal Fits32 where
  reads value rest hfits := by
    rw [readPushMinimal, readPushLoose_encodePush rest hfits]
    dsimp only
    rw [List.take_left, if_pos rfl]
  written s value consumed h := by
    unfold readPushMinimal at h
    split at h
    · cases h
    · rename_i payload n hloose
      split at h
      · rename_i hform
        obtain ⟨rfl, rfl⟩ := Prod.mk.inj (Option.some.inj h)
        obtain ⟨hfits, hle⟩ := readPushLoose_bounds hloose
        refine ⟨hfits, s.drop n, ?_, ?_⟩
        · rw [hform, List.take_append_drop]
        · rw [hform, List.length_take_of_le hle]
      · cases h
  nonempty value := by
    rw [encodePush]
    split
    · exact List.cons_ne_nil _ _
    · rename_i hsmall
      intro hnil
      rw [(List.append_eq_nil_iff.mp hnil).2] at hsmall
      exact smallOpcode_nil_ne_none hsmall

/-! ## The instruction of a push -/

/-- The instruction that a minimal push is read as. -/
def pushedInst (offset : Nat) (value : Bytes) : Instruction :=
  match smallOpcode value with
  | some opcode => ⟨offset, opcode, none⟩
  | none => ⟨offset, (lengthPrefix value.length).headD 0, some value⟩

theorem dataLength_small {value : Bytes} {opcode : UInt8} (rest : Bytes)
    (h : smallOpcode value = some opcode) : dataLength opcode rest = none := by
  cases hlen : dataLength opcode rest with
  | none => rfl
  | some p =>
      exfalso
      obtain ⟨header, -, hdecl⟩ := dataLength_eq_some.mp hlen
      rcases smallOpcode_cases h with ⟨-, rfl⟩ | ⟨-, rfl⟩ | ⟨v, -, -, hrange⟩
      · exact hdecl.ne_zero rfl
      · exact hdecl.ne_negate rfl
      · exact hdecl.not_small hrange

/-- The disassembler reads a minimal push as its instruction. -/
theorem Reads.encodePush {offset : Nat} {value rest : Bytes} {insts : List Instruction}
    {truncated : Bool} (hfits : Fits32 value)
    (tail : Reads (offset + (encodePush value).length) rest insts truncated) :
    Reads offset (encodePush value ++ rest) (pushedInst offset value :: insts) truncated := by
  cases hsmall : smallOpcode value with
  | some opcode =>
      have hpush : Kascov.encodePush value = [opcode] := by rw [Kascov.encodePush, hsmall]
      rw [hpush] at tail ⊢
      rw [pushedInst, hsmall]
      exact .op (dataLength_small rest hsmall) tail
  | none =>
      obtain ⟨opcode, header, hpre, hpush, hdecl⟩ := encodePush_cons hsmall hfits
      have hend : offset + (1 + header.length + value.length) =
          offset + (opcode :: (header ++ value)).length := by
        rw [List.length_cons, List.length_append]
        omega
      rw [hpush, ← hend] at tail
      rw [hpush, pushedInst, hsmall, hpre, List.cons_append, List.append_assoc]
      exact .push hdecl tail

/-- The value of the instruction of a push. -/
theorem pushValue_pushedInst (offset : Nat) (value : Bytes) :
    pushValue (pushedInst offset value) = some value := by
  cases hsmall : smallOpcode value with
  | none =>
      rw [pushedInst, hsmall]
      rfl
  | some opcode =>
      rw [pushedInst, hsmall]
      rcases smallOpcode_cases hsmall with ⟨rfl, rfl⟩ | ⟨rfl, rfl⟩ | ⟨v, rfl, rfl, hrange⟩
      · rfl
      · rfl
      · simp only [pushValue]
        rw [if_neg (ne_of_small hrange.1 (by decide)), if_neg (ne_of_small hrange.1 (by decide)),
          if_pos hrange, UInt8.add_comm, UInt8.add_sub_cancel]

theorem isPush_pushedInst (offset : Nat) {value : Bytes} (hfits : Fits32 value) :
    isPush (pushedInst offset value) = true := by
  cases hsmall : smallOpcode value with
  | none =>
      obtain ⟨opcode, header, hpre, -, hdecl⟩ := encodePush_cons hsmall hfits
      have hle : opcode ≤ 0x4f :=
        UInt8.le_iff_toNat_le.mpr (hdecl.opcode_bounds.2.trans (by decide))
      rw [pushedInst, hsmall, hpre]
      simp [isPush, hle]
  | some opcode =>
      rw [pushedInst, hsmall]
      rcases smallOpcode_cases hsmall with ⟨rfl, rfl⟩ | ⟨rfl, rfl⟩ | ⟨v, rfl, rfl, hrange⟩
      · rfl
      · rfl
      · simp [isPush, hrange.1, hrange.2]

/-- The data of the instruction of a push: none where an opcode owns the value. -/
theorem pushedInst_data (offset : Nat) (value : Bytes) :
    (pushedInst offset value).data =
      if (smallOpcode value).isSome then none else some value := by
  rw [pushedInst]
  split
  · rename_i hsmall
    rw [hsmall]
    rfl
  · rename_i hsmall
    rw [hsmall]
    rfl

end Kascov
