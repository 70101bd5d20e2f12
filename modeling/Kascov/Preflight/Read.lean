import Kascov.Lib.Logged
import Kascov.Preflight.Fields

/-!
# The parser, the log apart

A submitted field is what it reads as, in the first of its names and spellings that can be
read.  The parser gives these fields, whatever it logs; a transaction of too many inputs
or outputs leaves an error in the log.
-/

namespace Kascov.Preflight

open Logged

/-! ## What was submitted -/

/-- The first of several fields that can be read. -/
def submitted {α : Type} (obj : Object) (names : List String) (read : Value → Option α) :
    Option α := names.findSome? fun k ↦ (field obj k).1.bind read

/-- The fields of an object that may not be one. -/
def fieldsOf (v : Option Value) : Object := (v.bind asObject).getD []

theorem fieldsOf_some (v : Value) : fieldsOf (some v) = (asObject v).getD [] := rfl

/-- The items of an array that may not be one. -/
def itemsOf (obj : Object) (name : String) : List Value :=
  ((field obj name).1.bind Json.items?).getD []

/-- The script of a `scriptPublicKey`: a string, or a field of an object. -/
def scriptOf : Option Value → Option Bytes
  | some (.str s) => asHex (.str s)
  | some (.obj obj) => submitted obj ["script", "scriptPublicKey", "hex"] asHex
  | _ => none

/-- The version of a `scriptPublicKey` that is an object. -/
def scriptVersionOf (v : Option Value) : Option UInt64 := submitted (fieldsOf v) ["version"] asU64

/-- The utxo of an input. -/
def utxoOf (iobj : Object) : Object := (submitted iobj ["utxo", "utxoEntry"] asObject).getD []

theorem submitted_one {α : Type} {obj : Object} {name : String} {read : Value → Option α} :
    submitted obj [name] read = (field obj name).1.bind read := by
  rw [submitted, List.findSome?_singleton]

theorem field_nil (camel : String) : field [] camel = (none, false) := by
  rw [field]
  simp

theorem submitted_nil {α : Type} (names : List String) (read : Value → Option α) :
    submitted [] names read = none := by
  rw [submitted, List.findSome?_eq_none_iff]
  intro k _
  rw [field_nil]
  rfl

/-! ## The parser, the log apart -/

/-- `parse_spk`, less its log. -/
def readSpk (v : Option Value) : Option (UInt16 × Bytes) :=
  (scriptOf v).map fun script ↦ (((scriptVersionOf v).getD 0).toUInt16, script)

/-- An input, as it is read. -/
def readInput (iv : Value) : PInput :=
  let iobj := fieldsOf (some iv)
  let oobj := fieldsOf (field iobj "previousOutpoint").1
  let uobj := utxoOf iobj
  { outpointTxid := submitted oobj ["transactionId"] asHex32
    outpointIndex := ((submitted oobj ["index"] asU64).getD 0).toUInt32
    sequence := (submitted iobj ["sequence"] asU64).getD 0
    sigOpCount := submitted iobj ["sigOpCount"] asU64
    computeBudget := (iobj.lookup "computeBudget").bind asU64
    signatureScript := submitted iobj ["signatureScript"] asHex
    utxoAmount := submitted uobj ["amount", "value"] asU64
    utxoSpk := readSpk (field uobj "scriptPublicKey").1
    utxoCovenantId := submitted uobj ["covenantId"] asHex32 }

/-- An output, as it is read. -/
def readOutput (ov : Value) : POutput :=
  let oobj := fieldsOf (some ov)
  let cobj := fieldsOf (field oobj "covenant").1
  { value := submitted oobj ["value", "amount"] asU64
    spk := readSpk (field oobj "scriptPublicKey").1
    covenant := (submitted cobj ["covenantId", "id"] asHex32).map fun id ↦
      (id, ((submitted cobj ["authorizingInput"] asU64).getD 0).toUInt16) }

/-- A transaction, as it is read. -/
def readTx (obj : Object) : PTx :=
  { version := submitted obj ["version"] asU64
    inputs := ((itemsOf obj "inputs").take MAX_TX_IO).map readInput
    outputs := ((itemsOf obj "outputs").take MAX_TX_IO).map readOutput
    lockTime := (submitted obj ["lockTime"] asU64).getD 0
    payload := (submitted obj ["payload"] asHex).getD [] }

theorem gives_getField (obj : Object) (camel : String) (inputIndex : Option Nat) :
    Gives (getField obj camel inputIndex) (field obj camel).1 := by
  exact Gives.after (gives_pure _)

theorem gives_firstField {α : Type} (obj : Object) (inputIndex : Option Nat)
    (read : Value → Option α) (names : List String) :
    Gives (firstField obj inputIndex read names) (submitted obj names read) := by
  induction names with
  | nil => exact gives_pure none
  | cons k names ih =>
      rw [firstField, submitted, List.findSome?_cons]
      refine (gives_getField obj k inputIndex).bind ?_
      cases (field obj k).1.bind read with
      | some a => exact gives_pure _
      | none => exact ih

theorem gives_parseSpkOf (spk : Option Value) (inputIndex : Option Nat) :
    Gives (parseSpkOf spk inputIndex) (readSpk spk) := by
  match spk with
  | none => exact gives_pure none
  | some (.str _) => exact gives_pure _
  | some (.obj obj) =>
      refine Gives.after ((gives_getField obj "version" inputIndex).bind
        ((gives_firstField obj inputIndex asHex _).bind ?_))
      rw [readSpk, scriptVersionOf, submitted_one]
      exact gives_pure _
  | some .null => exact gives_pure none
  | some (.bool _) => exact gives_pure none
  | some (.num _) => exact gives_pure none
  | some (.arr _) => exact gives_pure none

theorem gives_parseOutpoint (outpoint : Option Value) (i : Nat) :
    Gives (parseOutpoint outpoint i)
      (submitted (fieldsOf outpoint) ["transactionId"] asHex32,
        ((submitted (fieldsOf outpoint) ["index"] asU64).getD 0).toUInt32) := by
  rw [parseOutpoint, fieldsOf]
  cases outpoint.bind asObject with
  | none =>
      rw [Option.getD_none, submitted_nil, submitted_nil]
      exact gives_pure _
  | some oobj =>
      rw [submitted_one, submitted_one]
      exact Gives.after ((gives_getField oobj _ _).bind ((gives_getField oobj _ _).bind
        (gives_pure _)))

theorem gives_parseBudget (iobj : Object) (i : Nat) :
    Gives (parseBudget iobj i) ((iobj.lookup "computeBudget").bind asU64) := by
  rw [parseBudget]
  cases iobj.lookup "computeBudget" with
  | none => exact Gives.after (gives_pure _)
  | some v => exact Gives.after (gives_pure _)

theorem gives_parseSignatureScript (iobj : Object) (i : Nat) :
    Gives (parseSignatureScript iobj i) (submitted iobj ["signatureScript"] asHex) := by
  rw [parseSignatureScript, submitted_one]
  refine (gives_getField iobj _ _).bind ?_
  match (field iobj "signatureScript").1 with
  | none => exact gives_pure _
  | some .null => exact gives_pure _
  | some (.bool _) => exact Gives.after (gives_pure _)
  | some (.num _) => exact Gives.after (gives_pure _)
  | some (.str _) => exact Gives.after (gives_pure _)
  | some (.arr _) => exact Gives.after (gives_pure _)
  | some (.obj _) => exact Gives.after (gives_pure _)

theorem gives_parseUtxo (iobj : Object) (i : Nat) :
    Gives (parseUtxo iobj i)
      (submitted (utxoOf iobj) ["amount", "value"] asU64,
        readSpk (field (utxoOf iobj) "scriptPublicKey").1,
        submitted (utxoOf iobj) ["covenantId"] asHex32) := by
  rw [parseUtxo, utxoOf]
  refine (gives_firstField iobj _ _ _).bind ?_
  cases submitted iobj ["utxo", "utxoEntry"] asObject with
  | none =>
      rw [Option.getD_none, submitted_nil, submitted_nil, field_nil]
      exact gives_pure _
  | some uobj =>
      rw [submitted_one]
      exact Gives.after ((gives_firstField uobj _ _ _).bind ((gives_getField uobj _ _).bind
        ((gives_parseSpkOf _ _).bind ((gives_getField uobj _ _).bind (gives_pure _)))))

theorem gives_parseInput (i : Nat) (iv : Value) : Gives (parseInput i iv) (readInput iv) := by
  rw [parseInput, readInput, fieldsOf_some]
  cases asObject iv with
  | none =>
      simp only [Option.getD_none, field_nil, submitted_nil, utxoOf, fieldsOf, Option.bind_none,
        List.lookup_nil]
      exact gives_pure _
  | some iobj =>
      refine Gives.after ((gives_getField iobj _ _).bind ((gives_parseOutpoint _ i).bind
        ((gives_getField iobj _ _).bind ((gives_getField iobj _ _).bind
          ((gives_parseBudget iobj i).bind ((gives_parseSignatureScript iobj i).bind
            ((gives_parseUtxo iobj i).bind ?_)))))))
      simp only [submitted_one, Option.getD_some]
      exact gives_pure _

theorem gives_parseCovenant (cov : Option Value) :
    Gives (parseCovenant cov)
      ((submitted (fieldsOf cov) ["covenantId", "id"] asHex32).map fun id ↦
        (id, ((submitted (fieldsOf cov) ["authorizingInput"] asU64).getD 0).toUInt16)) := by
  rw [parseCovenant, fieldsOf]
  cases cov.bind asObject with
  | none =>
      rw [Option.getD_none, submitted_nil]
      exact gives_pure _
  | some cobj =>
      rw [submitted_one]
      exact Gives.after ((gives_firstField cobj _ _ _).bind ((gives_getField cobj _ _).bind
        (gives_pure _)))

theorem gives_parseOutput (ov : Value) : Gives (parseOutput ov) (readOutput ov) := by
  rw [parseOutput, readOutput, fieldsOf_some]
  cases asObject ov with
  | none =>
      simp only [Option.getD_none, field_nil, submitted_nil, fieldsOf, Option.bind_none]
      exact gives_pure _
  | some oobj =>
      exact Gives.after ((gives_firstField oobj _ _ _).bind ((gives_getField oobj _ _).bind
        ((gives_parseSpkOf _ _).bind ((gives_getField oobj _ _).bind
          ((gives_parseCovenant _).bind (gives_pure _))))))

theorem gives_inputs (items : List Value) :
    Gives (items.zipIdx.mapM fun iv ↦ parseInput iv.2 iv.1) (items.map readInput) := by
  have h : items.map readInput = items.zipIdx.map fun iv ↦ readInput iv.1 := by
    conv_lhs => rw [← List.zipIdx_map_fst 0 items, List.map_map]
    rfl
  rw [h]
  exact gives_mapM _ fun iv _ ↦ gives_parseInput iv.2 iv.1

/-- **The parser reads the fields.** -/
theorem gives_parseObject (obj : Object) : Gives (parseObject obj) (readTx obj) := by
  refine Gives.after ((gives_getField obj _ _).bind ((gives_getField obj _ _).bind
    ((gives_getField obj _ _).bind ((gives_getField obj _ _).bind ((gives_getField obj _ _).bind
      ((gives_inputs _).bind ((gives_mapM _ fun ov _ ↦ gives_parseOutput ov).bind
        (Gives.after ?_))))))))
  rw [readTx, submitted_one, submitted_one, submitted_one]
  exact gives_pure _

/-- A transaction of more inputs or outputs than consensus allows has an error. -/
theorem ends_parseObject {obj : Object}
    (h : MAX_TX_IO < (itemsOf obj "inputs").length ∨ MAX_TX_IO < (itemsOf obj "outputs").length) :
    Ends (parseObject obj) fun log ↦ ∃ f ∈ log.findings, f.severity = .error := by
  refine Ends.after ((gives_getField obj _ _).ends ((gives_getField obj _ _).ends
    ((gives_getField obj _ _).ends ((gives_getField obj _ _).ends ((gives_getField obj _ _).ends
      ((gives_inputs _).ends ((gives_mapM _ fun ov _ ↦ gives_parseOutput ov).ends
        (Ends.pure_after (ends_modify fun log ↦ ?_) _))))))))
  rw [itemsOf, itemsOf] at h
  rw [if_pos ((Bool.or_eq_true _ _).mpr (h.imp decide_eq_true decide_eq_true))]
  exact ⟨_, List.mem_append_right _ (List.mem_singleton_self _), rfl⟩

end Kascov.Preflight
