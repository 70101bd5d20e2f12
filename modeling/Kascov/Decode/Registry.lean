import Kascov.Decode.Disasm

/-!
# Skeletons and the registry

A skeleton is matched against the instructions of a script: fixed opcodes,
constant pushes, and slots that name the value pushed there.  The registry tries
its decoders in turn.  A skeleton of variable arity is kept as its name and its
matcher.
-/

namespace Kascov

structure Field where
  name : String
  value : Bytes
deriving DecidableEq, Repr

/-- What the registry makes of a script, less what only a display reads. -/
structure Decoded where
  template : Option String := none
  fields : List Field := []
deriving DecidableEq, Repr

inductive SkelItem where
  | op (opcode : UInt8)
  | constPush (value raw : Bytes)
  | slot (label : String)
deriving DecidableEq, Repr

structure Skeleton where
  name : String
  items : List SkelItem
  paramOrder : List String
deriving DecidableEq, Repr

structure RepeatSkeleton where
  name : String
  matchScript : List Instruction → Option (List Field)

/-- `push_value`. -/
def pushValue (inst : Instruction) : Option Bytes :=
  match inst.data with
  | some data => some data
  | none =>
      if inst.opcode = 0x00 then some []
      else if inst.opcode = 0x4f then some [0x81]
      else if 0x51 ≤ inst.opcode ∧ inst.opcode ≤ 0x60 then some [inst.opcode - 0x50]
      else none

/-- `is_push`: the opcodes of the group `Push`. -/
def isPush (inst : Instruction) : Bool :=
  inst.opcode ≤ 0x4f || (0x51 ≤ inst.opcode && inst.opcode ≤ 0x60)

/-- The values of the slots matched so far. -/
abbrev SlotValues := List (String × Bytes)

/-- `match_skel_item`: the values after the item, if it matches. -/
def matchSkelItem (item : SkelItem) (inst : Instruction) (values : SlotValues) :
    Option SlotValues :=
  match item with
  | .op opcode => if !isPush inst && inst.opcode == opcode then some values else none
  | .constPush value _ => if pushValue inst = some value then some values else none
  | .slot label =>
      match pushValue inst with
      | none => none
      | some v =>
          match values.find? (·.1 = label) with
          | some prev => if prev.2 = v then some values else none
          | none => some (values ++ [(label, v)])

/-- The loop of `match_script`. -/
def matchItems : List SkelItem → List Instruction → SlotValues → Option SlotValues
  | item :: items, inst :: insts, values =>
      (matchSkelItem item inst values).bind (matchItems items insts)
  | _, _, values => some values

/-- `fields_in_order`. -/
def fieldsInOrder (order : List String) (values : SlotValues) : List Field :=
  order.filterMap fun label ↦ (values.find? (·.1 = label)).map fun e ↦ ⟨label, e.2⟩

/-- `Skeleton::match_script`. -/
def Skeleton.matchScript (sk : Skeleton) (instructions : List Instruction) :
    Option (List Field) :=
  if instructions.length ≠ sk.items.length then none
  else (matchItems sk.items instructions []).map (fieldsInOrder sk.paramOrder)

/-- The registry: the skeletons of the template decoder, in order. -/
structure Registry where
  skeletons : List Skeleton
  repeats : List RepeatSkeleton

/-- `TemplateDecoder::decode`. -/
def templateDecode (registry : Registry) (script : Bytes) : Option Decoded :=
  let (instructions, truncated) := disassemble script
  if truncated then none
  else
    ((registry.skeletons.findSome? fun s ↦
        (s.matchScript instructions).map fun f ↦ (s.name, f)).or
      (registry.repeats.findSome? fun s ↦
        (s.matchScript instructions).map fun f ↦ (s.name, f))).map
      fun hit ↦ ⟨some hit.1, hit.2⟩

/-- `P2pkStateDecoder::decode`. -/
def p2pkDecode (script : Bytes) : Option Decoded :=
  if (script.length = 34 ∨ script.length = 35) ∧
      script[0]?.map UInt8.toNat = some (script.length - 2) ∧
      script[script.length - 1]? = some 0xac then
    some ⟨some "p2pk state", [⟨"owner_pubkey", (script.drop 1).dropLast⟩]⟩
  else none

/-- `p2sh_hash`. -/
def p2shHash (spk : Bytes) : Option Bytes :=
  if spk.length = 35 ∧ spk[0]? = some 0xaa ∧ spk[1]? = some 0x20 ∧ spk[34]? = some 0x87 then
    some ((spk.drop 2).take 32)
  else none

/-- `P2shCommitmentDecoder::decode`. -/
def p2shDecode (script : Bytes) : Option Decoded :=
  (p2shHash script).map fun hash ↦ ⟨some "p2sh commitment", [⟨"program_hash", hash⟩]⟩

/-- `Registry::decode`: no decoder reads the version. -/
def Registry.decode (registry : Registry) (_spkVersion : Nat) (script : Bytes) : Decoded :=
  (((templateDecode registry script).or (p2pkDecode script)).or (p2shDecode script)).getD {}

/-- `p2sh_reveal`, for a hash function. -/
def p2shReveal (blake2b : Bytes → Bytes) (spk sigScript : Bytes) : Option Bytes :=
  match p2shHash spk with
  | none => none
  | some hash =>
      let (instructions, truncated) := disassemble sigScript
      if truncated then none
      else
        match instructions.getLast?.bind (·.data) with
        | none => none
        | some redeem => if blake2b redeem = hash then some redeem else none

theorem p2shReveal_opens {blake2b : Bytes → Bytes} {spk sig program : Bytes}
    (h : p2shReveal blake2b spk sig = some program) :
    p2shHash spk = some (blake2b program) := by
  unfold p2shReveal at h
  cases hhash : p2shHash spk with
  | none =>
      rw [hhash] at h
      cases h
  | some hash =>
      simp only [hhash] at h
      split at h
      · cases h
      · split at h
        · cases h
        · split at h
          · rename_i heq
            rw [← Option.some.inj h, heq]
          · cases h

/-! ## The names the decoders give -/

/-- What is neither of the two fixed shapes was decoded by the template decoder. -/
theorem templateDecode_of_template {registry : Registry} {version : Nat} {script : Bytes}
    {name : String} (h : (registry.decode version script).template = some name)
    (hp2pk : name ≠ "p2pk state") (hp2sh : name ≠ "p2sh commitment") :
    templateDecode registry script = some (registry.decode version script) := by
  unfold Registry.decode at h ⊢
  cases htemplate : templateDecode registry script with
  | some d => rfl
  | none =>
      exfalso
      rw [htemplate, Option.none_or] at h
      cases hkey : p2pkDecode script with
      | some d =>
          rw [hkey, Option.some_or, Option.getD_some] at h
          unfold p2pkDecode at hkey
          split at hkey
          · rw [← Option.some.inj hkey] at h
            exact hp2pk (Option.some.inj h).symm
          · cases hkey
      | none =>
          rw [hkey, Option.none_or] at h
          unfold p2shDecode at h
          cases hhash : p2shHash script with
          | some hash =>
              rw [hhash] at h
              exact hp2sh (Option.some.inj h).symm
          | none =>
              rw [hhash] at h
              cases h

/-- What the template decoder decodes is a whole script that a skeleton matches. -/
theorem templateDecode_eq_some {registry : Registry} {script : Bytes} {d : Decoded}
    (h : templateDecode registry script = some d) :
    (disassemble script).2 = false ∧
      ((∃ sk ∈ registry.skeletons, d.template = some sk.name ∧
          sk.matchScript (disassemble script).1 = some d.fields) ∨
        ∃ s ∈ registry.repeats, d.template = some s.name) := by
  unfold templateDecode at h
  dsimp only at h
  split at h
  · cases h
  · rename_i hwhole
    obtain ⟨hit, hhit, rfl⟩ := Option.map_eq_some_iff.mp h
    refine ⟨Bool.eq_false_iff.mpr hwhole, ?_⟩
    rcases Option.or_eq_some_iff.mp hhit with hsome | ⟨-, hsome⟩
    · obtain ⟨sk, hmem, hsk⟩ := List.exists_of_findSome?_eq_some hsome
      obtain ⟨fields, hmatch, rfl⟩ := Option.map_eq_some_iff.mp hsk
      exact .inl ⟨sk, hmem, rfl, hmatch⟩
    · obtain ⟨s, hmem, hs⟩ := List.exists_of_findSome?_eq_some hsome
      obtain ⟨fields, -, rfl⟩ := Option.map_eq_some_iff.mp hs
      exact .inr ⟨s, hmem, rfl⟩

/-- A template comes from a skeleton, or is one of the two fixed shapes. -/
theorem decode_template {registry : Registry} {version : Nat} {script : Bytes} {name : String}
    (h : (registry.decode version script).template = some name)
    (hp2pk : name ≠ "p2pk state") (hp2sh : name ≠ "p2sh commitment")
    (hrepeat : ∀ s ∈ registry.repeats, s.name ≠ name) :
    ∃ sk ∈ registry.skeletons, sk.name = name ∧
      sk.matchScript (disassemble script).1 = some (registry.decode version script).fields := by
  have hdecode := templateDecode_of_template h hp2pk hp2sh
  rcases (templateDecode_eq_some hdecode).2 with ⟨sk, hmem, hname, hmatch⟩ | ⟨s, hmem, hname⟩
  · rw [h] at hname
    exact ⟨sk, hmem, (Option.some.inj hname).symm, hmatch⟩
  · rw [h] at hname
    exact absurd (Option.some.inj hname).symm (hrepeat s hmem)

end Kascov
