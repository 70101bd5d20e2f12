import Kascov.Decode.Opcode
import Kascov.Lib.Tiling

/-!
# What a disassembly covers

The instructions of a script tile it: each spans the bytes from its offset to the
next, and the data it carries is the end of its span.  The flag says that the last
one declares more data than there is.
-/

namespace Kascov

open Tiling

/-! ## Declared lengths -/

/-- An opcode with the bytes that follow it declare a length of data. -/
inductive Declares : UInt8 → Bytes → Nat → Prop where
  | direct {opcode : UInt8} (h : 0x01 ≤ opcode ∧ opcode ≤ 0x4b) :
      Declares opcode [] opcode.toNat
  | pushData1 (a : UInt8) : Declares 0x4c [a] a.toNat
  | pushData2 (a b : UInt8) : Declares 0x4d [a, b] (a.toNat + 2 ^ 8 * b.toNat)
  | pushData4 (a b c d : UInt8) : Declares 0x4e [a, b, c, d]
      (a.toNat + 2 ^ 8 * b.toNat + 2 ^ 16 * c.toNat + 2 ^ 24 * d.toNat)

theorem dataLength_eq_some {opcode : UInt8} {rest data : Bytes} {len : Nat} :
    dataLength opcode rest = some (len, data) ↔
      ∃ header, rest = header ++ data ∧ Declares opcode header len := by
  constructor
  · intro h
    unfold dataLength at h
    split at h
    · rename_i hop
      obtain ⟨rfl, rfl⟩ := Prod.mk.inj (Option.some.inj h)
      exact ⟨[], rfl, .direct hop⟩
    · split at h
      · rename_i hop
        subst hop
        split at h
        · obtain ⟨rfl, rfl⟩ := Prod.mk.inj (Option.some.inj h)
          exact ⟨_, rfl, .pushData1 _⟩
        · cases h
      · split at h
        · rename_i hop
          subst hop
          split at h
          · obtain ⟨rfl, rfl⟩ := Prod.mk.inj (Option.some.inj h)
            exact ⟨_, rfl, .pushData2 _ _⟩
          · cases h
        · split at h
          · rename_i hop
            subst hop
            split at h
            · obtain ⟨rfl, rfl⟩ := Prod.mk.inj (Option.some.inj h)
              exact ⟨_, rfl, .pushData4 _ _ _ _⟩
            · cases h
          · cases h
  · rintro ⟨header, rfl, hdecl⟩
    cases hdecl with
    | direct hop =>
        unfold dataLength
        rw [if_pos hop, List.nil_append]
    | pushData1 a => rfl
    | pushData2 a b => rfl
    | pushData4 a b c d => rfl

/-- An opcode that declares nothing before some bytes declares nothing before none. -/
theorem dataLength_nil {opcode : UInt8} {rest : Bytes} (h : dataLength opcode rest = none) :
    dataLength opcode [] = none := by
  unfold dataLength at h ⊢
  split at h
  · cases h
  · rename_i hop
    rw [if_neg hop]
    split
    · rfl
    · split
      · rfl
      · split
        · rfl
        · rfl

theorem Declares.opcode_bounds {opcode : UInt8} {header : Bytes} {n : Nat}
    (h : Declares opcode header n) : 0x01 ≤ opcode.toNat ∧ opcode.toNat ≤ 0x4e := by
  cases h with
  | direct hop =>
      have hlow : 0x01 ≤ opcode.toNat := UInt8.le_iff_toNat_le.mp hop.1
      have hhigh : opcode.toNat ≤ 0x4b := UInt8.le_iff_toNat_le.mp hop.2
      omega
  | pushData1 a => decide
  | pushData2 a b => decide
  | pushData4 a b c d => decide

theorem Declares.ne_zero {opcode : UInt8} {header : Bytes} {n : Nat}
    (h : Declares opcode header n) : opcode ≠ 0x00 := by
  rintro rfl
  exact absurd h.opcode_bounds.1 (by decide)

theorem Declares.ne_negate {opcode : UInt8} {header : Bytes} {n : Nat}
    (h : Declares opcode header n) : opcode ≠ 0x4f := by
  rintro rfl
  exact absurd h.opcode_bounds.2 (by decide)

theorem Declares.not_small {opcode : UInt8} {header : Bytes} {n : Nat}
    (h : Declares opcode header n) : ¬(0x51 ≤ opcode ∧ opcode ≤ 0x60) := by
  rintro ⟨hlow, -⟩
  have hge : 0x51 ≤ opcode.toNat := UInt8.le_iff_toNat_le.mp hlow
  have := h.opcode_bounds.2
  omega

/-! ## The turns of the loop -/

/-- A run of the loop of `disassemble` from an offset, one constructor for each kind
of turn. -/
inductive Reads : Nat → Bytes → List Instruction → Bool → Prop where
  | done (offset : Nat) : Reads offset [] [] false
  | op {offset : Nat} {opcode : UInt8} {rest : Bytes} {insts : List Instruction}
      {truncated : Bool} (hlen : dataLength opcode rest = none)
      (tail : Reads (offset + 1) rest insts truncated) :
      Reads offset (opcode :: rest) (⟨offset, opcode, none⟩ :: insts) truncated
  | push {offset : Nat} {opcode : UInt8} {header data rest : Bytes}
      {insts : List Instruction} {truncated : Bool}
      (hlen : Declares opcode header data.length)
      (tail : Reads (offset + (1 + header.length + data.length)) rest insts truncated) :
      Reads offset (opcode :: (header ++ (data ++ rest)))
        (⟨offset, opcode, some data⟩ :: insts) truncated
  | cut {offset : Nat} {opcode : UInt8} {rest data : Bytes} {len : Nat}
      (hlen : dataLength opcode rest = some (len, data)) (hcut : data.length < len) :
      Reads offset (opcode :: rest) [⟨offset, opcode, none⟩] true

theorem disassembleFrom_reads (fuel : Nat) {offset : Nat} {script : Bytes}
    (h : script.length ≤ fuel) :
    Reads offset script (disassembleFrom fuel offset script).1
      (disassembleFrom fuel offset script).2 := by
  induction fuel generalizing offset script with
  | zero =>
      rw [List.length_eq_zero_iff.mp (Nat.le_zero.mp h)]
      exact .done offset
  | succ fuel ih =>
      cases script with
      | nil => exact .done offset
      | cons opcode rest =>
          rw [List.length_cons] at h
          unfold disassembleFrom
          cases hlen : dataLength opcode rest with
          | none => exact .op hlen (ih (by omega))
          | some p =>
              obtain ⟨len, data⟩ := p
              dsimp only
              split
              · rename_i hcut
                exact .cut hlen hcut
              · rename_i hfits
                obtain ⟨header, rfl, hdecl⟩ := dataLength_eq_some.mp hlen
                rw [List.length_append] at h
                have htake : (data.take len).length = len :=
                  List.length_take_of_le (not_lt.mp hfits)
                have hdata : data = data.take len ++ data.drop len :=
                  (List.take_append_drop len data).symm
                have hoff : offset + 1 + ((header ++ data).length - data.length) + len =
                    offset + (1 + header.length + (data.take len).length) := by
                  rw [List.length_append, htake]
                  omega
                have htail : Reads (offset + (1 + header.length + (data.take len).length))
                    (data.drop len) (disassembleFrom fuel
                      (offset + 1 + ((header ++ data).length - data.length) + len)
                      (data.drop len)).1
                    (disassembleFrom fuel
                      (offset + 1 + ((header ++ data).length - data.length) + len)
                      (data.drop len)).2 := by
                  rw [hoff]
                  exact ih (by rw [List.length_drop]; omega)
                have hpush := Reads.push (htake.symm ▸ hdecl) htail
                rwa [← hdata] at hpush

theorem disassemble_reads (script : Bytes) :
    Reads 0 script (disassemble script).1 (disassemble script).2 :=
  disassembleFrom_reads script.length le_rfl

/-- The loop does what a run of it does. -/
theorem Reads.disassembleFrom_eq {offset : Nat} {script : Bytes} {insts : List Instruction}
    {truncated : Bool} (h : Reads offset script insts truncated) :
    ∀ fuel, script.length ≤ fuel → disassembleFrom fuel offset script = (insts, truncated) := by
  induction h with
  | done offset =>
      intro fuel _
      cases fuel with
      | zero => rfl
      | succ fuel => rfl
  | op hlen _ ih =>
      intro fuel hfuel
      rw [List.length_cons] at hfuel
      obtain ⟨fuel, rfl⟩ := Nat.exists_eq_succ_of_ne_zero (by omega : fuel ≠ 0)
      rw [disassembleFrom_op hlen, ih fuel (by omega)]
  | @push offset opcode header data rest insts truncated hlen _ ih =>
      intro fuel hfuel
      simp only [List.length_cons, List.length_append] at hfuel
      obtain ⟨fuel, rfl⟩ := Nat.exists_eq_succ_of_ne_zero (by omega : fuel ≠ 0)
      have hnext : offset + 1 + ((header ++ (data ++ rest)).length - (data ++ rest).length) +
          data.length = offset + (1 + header.length + data.length) := by
        rw [List.length_append]
        omega
      rw [disassembleFrom, dataLength_eq_some.mpr ⟨header, rfl, hlen⟩]
      dsimp only
      rw [if_neg (by rw [List.length_append]; omega), hnext, List.take_left, List.drop_left,
        ih fuel (by omega)]
  | cut hlen hcut =>
      intro fuel hfuel
      rw [List.length_cons] at hfuel
      obtain ⟨fuel, rfl⟩ := Nat.exists_eq_succ_of_ne_zero (by omega : fuel ≠ 0)
      rw [disassembleFrom, hlen]
      dsimp only
      rw [if_pos hcut]

theorem Reads.disassemble_eq {script : Bytes} {insts : List Instruction} {truncated : Bool}
    (h : Reads 0 script insts truncated) : disassemble script = (insts, truncated) :=
  h.disassembleFrom_eq _ le_rfl

/-! ## Spans -/

/-- An instruction with the range of the bytes it spans. -/
structure InstructionSpan where
  inst : Instruction
  start : Nat
  stop : Nat
deriving DecidableEq, Repr

/-- Each instruction spans the bytes from its offset to the next, the last one those
to the end of the script. -/
def spans (length : Nat) : List Instruction → List InstructionSpan
  | [] => []
  | inst :: rest =>
      ⟨inst, inst.offset, (rest.head?.map (·.offset)).getD length⟩ :: spans length rest

/-- The spans of a script. -/
def scriptSpans (script : Bytes) : List InstructionSpan :=
  spans script.length (disassemble script).1

theorem spans_map_inst (length : Nat) (insts : List Instruction) :
    (spans length insts).map (·.inst) = insts := by
  induction insts with
  | nil => rfl
  | cons inst rest ih => rw [spans, List.map_cons, ih]

/-- A run starts at its offset. -/
theorem Reads.head_offset {offset : Nat} {script : Bytes} {insts : List Instruction}
    {truncated : Bool} (h : Reads offset script insts truncated) :
    (insts.head?.map (·.offset)).getD (offset + script.length) = offset := by
  cases h with
  | done => rfl
  | op => rfl
  | push => rfl
  | cut => rfl

theorem Reads.tiles {offset : Nat} {script : Bytes} {insts : List Instruction}
    {truncated : Bool} (h : Reads offset script insts truncated) :
    Tiles InstructionSpan.start InstructionSpan.stop (offset + script.length) offset
      (spans (offset + script.length) insts) := by
  induction h with
  | done => exact .nil
  | @op offset opcode rest insts truncated hlen tail ih =>
      have hnext := tail.head_offset
      have hend : offset + 1 + rest.length = offset + (opcode :: rest).length := by
        rw [List.length_cons]
        omega
      rw [hend] at hnext ih
      rw [spans, hnext]
      exact Tiles.cons (a := InstructionSpan.mk _ offset _) (Nat.lt_succ_self _) ih
  | @push offset opcode header data rest insts truncated hlen tail ih =>
      have hnext := tail.head_offset
      have hend : offset + (1 + header.length + data.length) + rest.length =
          offset + (opcode :: (header ++ (data ++ rest))).length := by
        simp only [List.length_cons, List.length_append]
        omega
      rw [hend] at hnext ih
      rw [spans, hnext]
      exact Tiles.cons (a := InstructionSpan.mk _ offset _) (by dsimp only; omega) ih
  | @cut offset opcode rest data len hlen hcut =>
      exact Tiles.cons (a := InstructionSpan.mk _ offset _) (by simp) .nil

/-! ## The law of a span -/

/-- The bytes of a span after its opcode. -/
def InstructionSpan.body (script : Bytes) (span : InstructionSpan) : Bytes :=
  byteRange script (span.start + 1) span.stop

/-- An instruction that declares more data than its span holds. -/
def Overruns (script : Bytes) (span : InstructionSpan) : Prop :=
  ∃ len data, dataLength span.inst.opcode (span.body script) = some (len, data) ∧
    data.length < len

/-- What the span of an instruction holds: the opcode, then what declares the length
of the data, then the data. -/
structure SpanLaw (script : Bytes) (span : InstructionSpan) : Prop where
  opcode : script[span.start]? = some span.inst.opcode
  data : ∀ data, span.inst.data = some data →
    ∃ header, span.body script = header ++ data ∧
      Declares span.inst.opcode header data.length
  bare : span.inst.data = none →
    dataLength span.inst.opcode (span.body script) = none ∨ Overruns script span

/-- The bytes after an opcode, up to a length. -/
theorem byteRange_append (pre bytes : Bytes) (opcode : UInt8) (n : Nat) :
    byteRange (pre ++ opcode :: bytes) (pre.length + 1) (pre.length + (1 + n)) =
      bytes.take n := by
  rw [byteRange, List.take_length_add_append, Nat.add_comm 1 n, List.take_succ_cons,
    List.drop_length_add_append, List.drop_succ_cons, List.drop_zero]

/-- The spans of a run, in a script that has it as its end. -/
theorem Reads.spanLaw {offset : Nat} {bytes : Bytes} {insts : List Instruction}
    {truncated : Bool} (h : Reads offset bytes insts truncated) {pre : Bytes}
    (hpre : pre.length = offset) :
    ∀ span ∈ spans (offset + bytes.length) insts, SpanLaw (pre ++ bytes) span := by
  induction h generalizing pre with
  | done => exact fun _ h ↦ absurd h List.not_mem_nil
  | @op offset opcode rest insts truncated hlen tail ih =>
      subst hpre
      have hend : pre.length + 1 + rest.length = pre.length + (opcode :: rest).length := by
        rw [List.length_cons]
        omega
      have htail := @ih (pre ++ [opcode]) (by rw [List.length_append]; rfl)
      have hnext := tail.head_offset
      rw [hend] at htail hnext
      rw [List.append_assoc, List.singleton_append] at htail
      rw [spans, hnext]
      refine List.forall_mem_cons.mpr ⟨⟨?_, ?_, fun _ ↦ .inl ?_⟩, htail⟩
      · simp
      · exact fun data hdata ↦ absurd hdata (by simp)
      · have hbody := byteRange_append pre rest opcode 0
        exact (congrArg (dataLength opcode) hbody).trans (dataLength_nil hlen)
  | @push offset opcode header data rest insts truncated hlen tail ih =>
      subst hpre
      have hend : pre.length + (1 + header.length + data.length) + rest.length =
          pre.length + (opcode :: (header ++ (data ++ rest))).length := by
        simp only [List.length_cons, List.length_append]
        omega
      have htail := @ih (pre ++ opcode :: (header ++ data)) (by
        simp only [List.length_cons, List.length_append]
        omega)
      have hnext := tail.head_offset
      rw [hend] at htail hnext
      rw [List.append_assoc, List.cons_append, List.append_assoc] at htail
      rw [spans, hnext]
      refine List.forall_mem_cons.mpr ⟨⟨?_, ?_, fun h ↦ absurd h (by simp)⟩, htail⟩
      · simp
      · intro d hd
        obtain rfl := Option.some.inj hd
        refine ⟨header, ?_, hlen⟩
        have hbody := byteRange_append pre (header ++ (data ++ rest)) opcode
          (header.length + data.length)
        rw [← List.append_assoc, ← List.length_append, List.take_left,
          List.length_append, ← Nat.add_assoc 1] at hbody
        rw [← List.append_assoc]
        exact hbody
  | @cut offset opcode rest data len hlen hcut =>
      subst hpre
      refine List.forall_mem_cons.mpr ⟨⟨?_, ?_, fun _ ↦ .inr ?_⟩,
        fun _ h ↦ absurd h List.not_mem_nil⟩
      · simp
      · exact fun data hdata ↦ absurd hdata (by simp)
      · have hbody := byteRange_append pre rest opcode rest.length
        rw [List.take_length, Nat.add_comm 1] at hbody
        exact ⟨len, data, (congrArg (dataLength opcode) hbody).trans hlen, hcut⟩

theorem Reads.nil {offset : Nat} {bytes : Bytes} {truncated : Bool}
    (h : Reads offset bytes [] truncated) : bytes = [] ∧ truncated = false := by
  cases h
  exact ⟨rfl, rfl⟩

/-- A span that carries its data, or declares none, does not overrun. -/
theorem not_overruns_of_data {script : Bytes} {span : InstructionSpan} {data : Bytes}
    (h : SpanLaw script span) (hdata : span.inst.data = some data) : ¬Overruns script span := by
  rintro ⟨len, rest, hlen, hlt⟩
  obtain ⟨header, hbody, hdecl⟩ := h.data data hdata
  rw [dataLength_eq_some.mpr ⟨header, hbody, hdecl⟩] at hlen
  obtain ⟨rfl, rfl⟩ := Prod.mk.inj (Option.some.inj hlen)
  exact lt_irrefl _ hlt

/-- A longer list of instructions has the last span of its tail. -/
theorem getLast?_spans_cons_cons (length : Nat) (inst next : Instruction)
    (rest : List Instruction) :
    (spans length (inst :: next :: rest)).getLast? =
      (spans length (next :: rest)).getLast? := by
  rw [spans, spans, List.getLast?_cons_cons]

/-- The flag is set when the last span overruns. -/
theorem Reads.flag {offset : Nat} {bytes : Bytes} {insts : List Instruction}
    {truncated : Bool} (h : Reads offset bytes insts truncated) {pre : Bytes}
    (hpre : pre.length = offset) :
    truncated = true ↔ ∃ span, (spans (offset + bytes.length) insts).getLast? = some span ∧
      Overruns (pre ++ bytes) span := by
  have hlaw := h.spanLaw hpre
  induction h generalizing pre with
  | done => simp [spans]
  | @op offset opcode rest insts truncated hlen tail ih =>
      subst hpre
      have hend : pre.length + 1 + rest.length = pre.length + (opcode :: rest).length := by
        rw [List.length_cons]
        omega
      have hpre : (pre ++ [opcode]).length = pre.length + 1 := List.length_append
      have htail := ih hpre (tail.spanLaw hpre)
      rw [hend, List.append_assoc, List.singleton_append] at htail
      cases insts with
      | nil =>
          obtain ⟨rfl, rfl⟩ := tail.nil
          constructor
          · exact fun h ↦ absurd h Bool.false_ne_true
          · rintro ⟨span, hspan, len, data, hover, -⟩
            obtain rfl := Option.some.inj hspan
            have hbody := byteRange_append pre [] opcode 0
            have hnone := (congrArg (dataLength opcode) hbody).trans hlen
            cases hnone.symm.trans hover
      | cons next insts =>
          rw [getLast?_spans_cons_cons]
          exact htail
  | @push offset opcode header data rest insts truncated hlen tail ih =>
      subst hpre
      have hend : pre.length + (1 + header.length + data.length) + rest.length =
          pre.length + (opcode :: (header ++ (data ++ rest))).length := by
        simp only [List.length_cons, List.length_append]
        omega
      have hpre : (pre ++ opcode :: (header ++ data)).length =
          pre.length + (1 + header.length + data.length) := by
        simp only [List.length_cons, List.length_append]
        omega
      have htail := ih hpre (tail.spanLaw hpre)
      rw [hend, List.append_assoc, List.cons_append, List.append_assoc] at htail
      cases insts with
      | nil =>
          obtain ⟨rfl, rfl⟩ := tail.nil
          constructor
          · exact fun h ↦ absurd h Bool.false_ne_true
          · rintro ⟨span, hspan, hover⟩
            obtain rfl := Option.some.inj hspan
            exact absurd hover (not_overruns_of_data (hlaw _ List.mem_cons_self) rfl)
      | cons next insts =>
          rw [getLast?_spans_cons_cons]
          exact htail
  | @cut offset opcode rest data len hlen hcut =>
      subst hpre
      have hbody := byteRange_append pre rest opcode rest.length
      rw [List.take_length, Nat.add_comm 1] at hbody
      refine ⟨fun _ ↦ ⟨_, rfl, len, data, ?_, hcut⟩, fun _ ↦ rfl⟩
      exact (congrArg (dataLength opcode) hbody).trans hlen

/-! ## The listing -/

/-- A listing loses nothing: its offsets start at zero and increase, its spans tile the
script, each holds what its instruction says, and the flag is exact. -/
structure Lossless (script : Bytes) (insts : List Instruction) (truncated : Bool) : Prop where
  tiles : Tiles InstructionSpan.start InstructionSpan.stop script.length 0
    (spans script.length insts)
  holds : ∀ span ∈ spans script.length insts, SpanLaw script span
  flag : truncated = true ↔ ∃ span, (spans script.length insts).getLast? = some span ∧
    Overruns script span

theorem disassemble_lossless (script : Bytes) :
    Lossless script (disassemble script).1 (disassemble script).2 := by
  have hreads := disassemble_reads script
  have htiles := hreads.tiles
  have hlaw := hreads.spanLaw List.length_nil
  have hflag := hreads.flag List.length_nil
  rw [Nat.zero_add] at htiles hlaw hflag
  exact ⟨htiles, hlaw, hflag⟩

end Kascov
