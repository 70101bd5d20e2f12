import Kascov.Preflight.Read
import Kascov.Preflight.Run

/-!
# What `ready` says of a transaction

Where no check finds an error and a transaction was built, it carries the fields that were
submitted, as far as they can be read and fit, and the inputs that were executed passed.
-/

namespace Kascov.Preflight

open Consensus

/-! ## As submitted -/

/-- The script of a `scriptPublicKey`, and its version where that fits. -/
structure SpkAsSubmitted (v : Option Value) (spk : ScriptPublicKey) : Prop where
  script : scriptOf v = some spk.script
  version : ∀ n : UInt16, scriptVersionOf v = some n.toUInt64 → spk.version = n

/-- An input that was built carries the fields that were submitted, where they fit. -/
structure InputAsSubmitted (version : UInt16) (iv : Value) (input : TransactionInput) : Prop where
  txid : ∀ id, submitted (fieldsOf (field (fieldsOf (some iv)) "previousOutpoint").1)
    ["transactionId"] asHex32 = some id → input.previousOutpoint.transactionId = id
  index : ∀ n : UInt32, submitted (fieldsOf (field (fieldsOf (some iv)) "previousOutpoint").1)
    ["index"] asU64 = some n.toUInt64 → input.previousOutpoint.index = n
  sequence : ∀ n, submitted (fieldsOf (some iv)) ["sequence"] asU64 = some n → input.sequence = n
  signatureScript : ∀ script, submitted (fieldsOf (some iv)) ["signatureScript"] asHex =
    some script → input.signatureScript = script
  computeBudget : version = 1 → ∃ b : UInt16,
    ((fieldsOf (some iv)).lookup "computeBudget").bind asU64 = some b.toUInt64 ∧
      input.computeCommit = .computeBudget b
  sigOpCount : version = 0 → ∀ n, submitted (fieldsOf (some iv)) ["sigOpCount"] asU64 = some n →
    ∃ c : UInt8, n = c.toUInt64 ∧ input.computeCommit = .sigopCount c

/-- The entry that the utxo of an input makes. -/
structure EntryAsSubmitted (iv : Value) (entry : UtxoEntry) : Prop where
  amount : submitted (utxoOf (fieldsOf (some iv))) ["amount", "value"] asU64 = some entry.amount
  spk : SpkAsSubmitted (field (utxoOf (fieldsOf (some iv))) "scriptPublicKey").1
    entry.scriptPublicKey
  covenantId : submitted (utxoOf (fieldsOf (some iv))) ["covenantId"] asHex32 = entry.covenantId

/-- An output that was built carries a value and a script, and the covenant that was
submitted. -/
structure OutputAsSubmitted (ov : Value) (output : TransactionOutput) : Prop where
  value : submitted (fieldsOf (some ov)) ["value", "amount"] asU64 = some output.value
  positive : output.value ≠ 0
  spk : SpkAsSubmitted (field (fieldsOf (some ov)) "scriptPublicKey").1 output.scriptPublicKey
  nonempty : output.scriptPublicKey.script ≠ []
  covenant : submitted (fieldsOf (field (fieldsOf (some ov)) "covenant").1) ["covenantId", "id"]
    asHex32 = output.covenant.map (·.covenantId)
  authorizingInput : ∀ n : UInt16, ∀ binding ∈ output.covenant,
    submitted (fieldsOf (field (fieldsOf (some ov)) "covenant").1) ["authorizingInput"] asU64 =
      some n.toUInt64 → binding.authorizingInput = n

/-- An input with a witness and a utxo. -/
def witnessed (iv : Value) : Bool :=
  let utxo := utxoOf (fieldsOf (some iv))
  (submitted (fieldsOf (some iv)) ["signatureScript"] asHex).any (!·.isEmpty) &&
    (scriptOf (field utxo "scriptPublicKey").1).any (!·.isEmpty) &&
    (submitted utxo ["amount", "value"] asU64).isSome

/-- An input with a utxo. -/
def hasUtxo (iv : Value) : Bool :=
  let utxo := utxoOf (fieldsOf (some iv))
  (scriptOf (field utxo "scriptPublicKey").1).isSome &&
    (submitted utxo ["amount", "value"] asU64).isSome

/-- The inputs with a witness and a utxo, as far as they are executed. -/
def witnessedInputs (inputs : List Value) : List Nat :=
  ((inputs.zipIdx.filter (witnessed ·.1)).map Prod.snd).take EXEC_INPUT_CAP

/-- The transaction that was built and executed is the one that was submitted. -/
structure AsSubmitted (node : Node) (obj : Object) (tx : Consensus.Transaction) (report : Report) :
    Prop where
  version : (submitted obj ["version"] asU64).getD 1 = tx.version.toUInt64 ∧ tx.version ≤ 1
  lockTime : ∀ n, submitted obj ["lockTime"] asU64 = some n → tx.lockTime = n
  payload : ∀ bytes, submitted obj ["payload"] asHex = some bytes → tx.payload = bytes
  inputs : List.Forall₂ (InputAsSubmitted tx.version) (itemsOf obj "inputs") tx.inputs
  outputs : List.Forall₂ OutputAsSubmitted (itemsOf obj "outputs") tx.outputs
  some_io : tx.inputs ≠ [] ∧ tx.outputs ≠ []
  within : (itemsOf obj "inputs").length ≤ MAX_TX_IO ∧
    (itemsOf obj "outputs").length ≤ MAX_TX_IO
  executed : report.executed.map (·.inputIndex) = witnessedInputs (itemsOf obj "inputs")
  passed : ∀ exec ∈ report.executed, exec.pass = true
  /-- Where every input has a utxo, the scripts ran in the transaction. -/
  populated : (itemsOf obj "inputs").all hasUtxo = true → ∃ entries,
    List.Forall₂ EntryAsSubmitted (itemsOf obj "inputs") entries ∧
      report.executed =
        preflightExecute node ⟨tx, entries⟩ (witnessedInputs (itemsOf obj "inputs"))
  /-- Elsewhere each ran by itself. -/
  alone : (itemsOf obj "inputs").all hasUtxo = false → ∀ exec ∈ report.executed,
    ∃ iv entry script budget, (itemsOf obj "inputs")[exec.inputIndex]? = some iv ∧
      EntryAsSubmitted iv entry ∧
      submitted (fieldsOf (some iv)) ["signatureScript"] asHex = some script ∧
      (tx.version = 1 → ((fieldsOf (some iv)).lookup "computeBudget").bind asU64 =
        some (UInt16.toUInt64 budget)) ∧
      exec = preflightExecuteIsolated node exec.inputIndex entry.scriptPublicKey.version
        entry.scriptPublicKey.script script entry.amount budget entry.covenantId

/-! ## The fields that were read -/

theorem readSpk_asSubmitted {v : Option Value} {spk : UInt16 × Bytes} (h : readSpk v = some spk) :
    SpkAsSubmitted v ⟨spk.1, spk.2⟩ := by
  obtain ⟨script, hscript, rfl⟩ := Option.map_eq_some_iff.mp h
  refine ⟨hscript, fun n hn ↦ ?_⟩
  rw [hn, Option.getD_some]
  exact UInt16.toUInt16_toUInt64 n

theorem exists_uint16 {n : UInt64} (h : n ≤ 65535) : ∃ m : UInt16, n = m.toUInt64 := by
  refine ⟨n.toUInt16, UInt64.toNat_inj.mp ?_⟩
  have hn : n.toNat ≤ 65535 := h
  simp only [UInt16.toNat_toUInt64, UInt64.toNat_toUInt16]
  omega

theorem exists_uint8 {n : UInt64} (h : n ≤ 255) : ∃ m : UInt8, n = m.toUInt64 := by
  refine ⟨n.toUInt8, UInt64.toNat_inj.mp ?_⟩
  have hn : n.toNat ≤ 255 := h
  simp only [UInt8.toNat_toUInt64, UInt64.toNat_toUInt8]
  omega

theorem min_of_le {a b : UInt64} (h : a ≤ b) : min a b = a := if_pos h

theorem buildInput_asSubmitted {version : UInt16} (iv : Value)
    (hbudget : version = 1 → (readInput iv).computeBudget.any (· ≤ 65535) = true)
    (hsigops : version = 0 → ∀ n ∈ (readInput iv).sigOpCount, n ≤ 255) :
    InputAsSubmitted version iv (buildInput version (readInput iv)) where
  txid id hid := by
    change ((readInput iv).outpointTxid.getD zeroHash) = id
    rw [readInput, hid, Option.getD_some]
  index n hn := by
    change (readInput iv).outpointIndex = n
    rw [readInput, hn, Option.getD_some]
    exact UInt32.toUInt32_toUInt64 n
  sequence n hn := by
    change (readInput iv).sequence = n
    rw [readInput, hn, Option.getD_some]
  signatureScript script hscript := by
    change (readInput iv).signatureScript.getD [] = script
    rw [readInput, hscript, Option.getD_some]
  computeBudget hversion := by
    obtain ⟨n, hn, hle⟩ := Option.any_eq_true _ _ |>.mp (hbudget hversion)
    obtain ⟨b, rfl⟩ := exists_uint16 (of_decide_eq_true hle)
    refine ⟨b, hn, ?_⟩
    change (if 1 ≤ version then _ else _) = _
    rw [hversion, if_pos (by decide), hn, Option.getD_some, min_of_le (of_decide_eq_true hle),
      UInt16.toUInt16_toUInt64]
  sigOpCount hversion n hn := by
    have hle := hsigops hversion n hn
    obtain ⟨c, rfl⟩ := exists_uint8 hle
    refine ⟨c, rfl, ?_⟩
    have hcount : (readInput iv).sigOpCount = some c.toUInt64 := hn
    change (if 1 ≤ version then _ else _) = _
    rw [hversion, if_neg (by decide), hcount, Option.getD_some, min_of_le hle,
      UInt8.toUInt8_toUInt64]

theorem buildOutput_asSubmitted (ov : Value)
    (hvalue : (readOutput ov).value.any (· ≠ 0) = true)
    (hspk : (readOutput ov).spk.any (!·.2.isEmpty) = true) :
    OutputAsSubmitted ov (buildOutput (readOutput ov)) := by
  obtain ⟨n, hn, hpos⟩ := Option.any_eq_true _ _ |>.mp hvalue
  obtain ⟨spk, hspk, hne⟩ := Option.any_eq_true _ _ |>.mp hspk
  have hbuilt : (buildOutput (readOutput ov)).value = n := by
    rw [buildOutput, hn, Option.getD_some]
  have hscript : (buildOutput (readOutput ov)).scriptPublicKey = ⟨spk.1, spk.2⟩ := by
    rw [buildOutput, hspk]
    rfl
  refine ⟨hbuilt ▸ hn, hbuilt ▸ of_decide_eq_true hpos, hscript ▸ readSpk_asSubmitted hspk, ?_,
    ?_, ?_⟩
  · rw [hscript]
    rintro hnil
    rw [show spk.2 = [] from hnil] at hne
    cases hne
  · rw [buildOutput, readOutput]
    dsimp only
    rw [Option.map_map, Option.map_map]
    exact (congrFun Option.map_id _).symm
  · intro m binding hbinding hm
    rw [buildOutput, readOutput] at hbinding
    simp only [Option.map_map, Option.mem_def, Option.map_eq_some_iff] at hbinding
    obtain ⟨id, -, rfl⟩ := hbinding
    rw [Function.comp_apply, hm, Option.getD_some]
    exact UInt16.toUInt16_toUInt64 m

theorem entryOf_asSubmitted {iv : Value} (h : hasUtxo iv = true) :
    EntryAsSubmitted iv (entryOf (readInput iv)) := by
  rw [hasUtxo, Bool.and_eq_true] at h
  obtain ⟨hscript, hamount⟩ := h
  obtain ⟨amount, hamount⟩ := Option.isSome_iff_exists.mp hamount
  obtain ⟨script, hscript⟩ := Option.isSome_iff_exists.mp hscript
  refine ⟨?_, ?_, rfl⟩
  · rw [entryOf, readInput, hamount, Option.getD_some]
  · have hspk : ∃ spk, (readInput iv).utxoSpk = some spk := by
      rw [readInput, readSpk, hscript, Option.map_some]
      exact ⟨_, rfl⟩
    obtain ⟨spk, hspk⟩ := hspk
    rw [entryOf, hspk, Option.getD_some]
    exact readSpk_asSubmitted hspk

theorem readSpk_any (v : Option Value) :
    (readSpk v).any (!·.2.isEmpty) = (scriptOf v).any (!·.isEmpty) := by
  rw [readSpk, Option.any_map]

theorem executableInput_readInput (iv : Value) :
    executableInput (readInput iv) = witnessed iv := by
  rw [executableInput, witnessed, readInput, readSpk_any]

/-- What is executed is what was submitted with a witness and a utxo. -/
theorem executable_readTx {obj : Object} (h : (itemsOf obj "inputs").length ≤ MAX_TX_IO) :
    executable (readTx obj) = witnessedInputs (itemsOf obj "inputs") := by
  rw [executable, readTx, witnessedInputs, List.take_of_length_le h, List.zipIdx_map,
    List.filter_map, List.map_map]
  congr 2
  exact List.filter_congr fun iv _ ↦ executableInput_readInput iv.1

theorem populated_readInput (iv : Value) :
    ((readInput iv).utxoSpk.isSome && (readInput iv).utxoAmount.isSome) = hasUtxo iv := by
  rw [hasUtxo, readInput, readSpk, Option.isSome_map]

/-! ## No finding is an error -/

/-- The findings of a stage do not stop the transaction. -/
def Clean (findings : List Finding) : Prop := ∀ f ∈ findings, f.severity ≠ .error

theorem clean_outputFindings {i : Nat} {output : POutput} (h : Clean (outputFindings i output)) :
    output.value.any (· ≠ 0) = true ∧ output.spk.any (!·.2.isEmpty) = true := by
  rw [Clean, outputFindings] at h
  constructor
  · by_contra hvalue
    rw [if_neg hvalue] at h
    exact h _ (List.mem_append_left _ (List.mem_singleton_self _)) rfl
  · by_contra hspk
    rw [if_neg hspk] at h
    exact h _ (List.mem_append_right _ (List.mem_singleton_self _)) rfl

theorem clean_sigopFindings {i : Nat} {input : PInput} (h : Clean (sigopFindings i input)) :
    ∀ n ∈ input.sigOpCount, n ≤ 255 := by
  intro n hn
  by_contra hlarge
  have hfilter : input.sigOpCount.filter (255 < ·) = some n :=
    Option.filter_eq_some_iff.mpr ⟨hn, decide_eq_true (UInt64.not_le.mp hlarge)⟩
  rw [Clean, sigopFindings, hfilter] at h
  exact h _ (List.mem_append_right _ (List.mem_singleton_self _)) rfl

theorem clean_failedFindings {executed : List InputExec} (h : Clean (failedFindings executed)) :
    ∀ exec ∈ executed, exec.pass = true := by
  intro exec hexec
  by_contra hpass
  exact h _ (List.mem_filterMap.mpr ⟨exec, hexec, if_neg hpass⟩) rfl

/-- The verdict is `ready` only where no check found an error and a transaction was built. -/
theorem ready_cases {node : Node} {network : Network} {ptx : PTx} {log : ParseLog}
    (h : (check node network ptx log).verdict = .ready) :
    (∃ tx, builtTx ptx = some tx) ∧ Clean log.findings ∧
      Clean (inputFindings node ptx (ptx.version.getD 1)) ∧
      Clean (ptx.outputs.zipIdx.flatMap fun (output, i) ↦ outputFindings i output) ∧
      Clean (failedFindings (execution node ptx (builtTx ptx)).1) := by
  rw [check] at h
  dsimp only at h
  split at h
  · cases h
  rename_i hclean
  split at h
  · rename_i hmasses
    simp only [List.any_append, Bool.or_eq_true, not_or, List.any_eq_true, decide_eq_true_eq,
      not_exists, not_and] at hclean
    obtain ⟨⟨⟨⟨⟨⟨⟨hlog, -⟩, -⟩, -⟩, hinputs⟩, houtputs⟩, -⟩, hfailed⟩ := hclean
    refine ⟨?_, hlog, hinputs, houtputs, hfailed⟩
    cases htx : builtTx ptx with
    | some tx => exact ⟨tx, rfl⟩
    | none =>
        rw [htx] at hmasses
        cases hmasses
  · cases h

/-! ## The transaction that was executed -/

section Execution

variable {node : Node} {obj : Object} {tx : Consensus.Transaction}

theorem witnessedInputs_lt {items : List Value} {i : Nat} (h : i ∈ witnessedInputs items) :
    ∃ iv, items[i]? = some iv ∧ witnessed iv = true := by
  obtain ⟨⟨iv, j⟩, hmem, rfl⟩ := List.mem_map.mp (List.mem_of_mem_take h)
  obtain ⟨hmem, hwitnessed⟩ := List.mem_filter.mp hmem
  exact ⟨iv, List.mk_mem_zipIdx_iff_getElem?.mp hmem, hwitnessed⟩

theorem witnessed_hasUtxo {iv : Value} (h : witnessed iv = true) :
    hasUtxo iv = true ∧
      ∃ script, submitted (fieldsOf (some iv)) ["signatureScript"] asHex = some script := by
  rw [witnessed, Bool.and_eq_true, Bool.and_eq_true] at h
  obtain ⟨⟨hsig, hscript⟩, hamount⟩ := h
  obtain ⟨sig, hsig, -⟩ := Option.any_eq_true _ _ |>.mp hsig
  obtain ⟨script, hscript, -⟩ := Option.any_eq_true _ _ |>.mp hscript
  refine ⟨?_, sig, hsig⟩
  rw [hasUtxo, hscript, hamount]
  rfl

/-- The executions of inputs by their indices. -/
theorem map_inputIndex {α : Type} {inputs : List α} {g : Nat → α → InputExec}
    (hg : ∀ i x, (g i x).inputIndex = i) {indices : List Nat}
    (h : ∀ i ∈ indices, i < inputs.length) :
    (indices.filterMap fun i ↦ inputs[i]?.map (g i)).map (·.inputIndex) = indices := by
  induction indices with
  | nil => rfl
  | cons i indices ih =>
      obtain ⟨hi, hrest⟩ := List.forall_mem_cons.mp h
      rw [List.filterMap_cons, List.getElem?_eq_getElem hi, Option.map_some, List.map_cons, hg,
        ih hrest]

/-- The indices of what is executed are of inputs. -/
theorem witnessedInputs_length {items : List Value} :
    ∀ i ∈ witnessedInputs items, i < items.length := by
  intro i hi
  obtain ⟨iv, hiv, -⟩ := witnessedInputs_lt hi
  exact (List.getElem?_eq_some_iff.mp hiv).1

theorem allPopulated_readTx (hlength : (itemsOf obj "inputs").length ≤ MAX_TX_IO)
    (hinputs : (readTx obj).inputs ≠ []) :
    allPopulated (readTx obj) = (itemsOf obj "inputs").all hasUtxo := by
  have hnonempty : (!(readTx obj).inputs.isEmpty) = true := by simpa using hinputs
  rw [allPopulated, hnonempty, Bool.true_and, readTx, List.take_of_length_le hlength, List.all_map]
  exact congrArg _ (funext populated_readInput)

/-- Every input has a utxo: the scripts ran in the transaction. -/
theorem execution_populated (node : Node) (tx : Consensus.Transaction)
    (hlength : (itemsOf obj "inputs").length ≤ MAX_TX_IO)
    (hinputs : (readTx obj).inputs ≠ []) (hall : (itemsOf obj "inputs").all hasUtxo = true) :
    ∃ entries, List.Forall₂ EntryAsSubmitted (itemsOf obj "inputs") entries ∧
      (execution node (readTx obj) (some tx)).1 =
        preflightExecute node ⟨tx, entries⟩ (witnessedInputs (itemsOf obj "inputs")) := by
  refine ⟨(readTx obj).inputs.map entryOf, ?_, ?_⟩
  · rw [readTx, List.take_of_length_le hlength, List.map_map, List.forall₂_map_right_iff,
      List.forall₂_same]
    exact fun iv hiv ↦ entryOf_asSubmitted (List.all_eq_true.mp hall iv hiv)
  · rw [execution, executable_readTx hlength]
    split
    · rename_i hnone
      rw [hnone]
      rfl
    · rw [Option.filter_some, if_pos (allPopulated_readTx hlength hinputs ▸ hall)]

/-- Some input has no utxo: each ran by itself. -/
theorem execution_alone (hlength : (itemsOf obj "inputs").length ≤ MAX_TX_IO)
    (hinputs : (readTx obj).inputs ≠ []) (hall : (itemsOf obj "inputs").all hasUtxo = false) :
    (execution node (readTx obj) (some tx)).1 =
      (witnessedInputs (itemsOf obj "inputs")).filterMap fun i ↦
        (itemsOf obj "inputs")[i]?.map fun iv ↦ isolated node i (readInput iv)
          (min ((readInput iv).computeBudget.getD 0) 65535).toUInt16 := by
  rw [execution, executable_readTx hlength]
  split
  · rename_i hnone
    rw [hnone]
    rfl
  · have hnot : ¬ allPopulated (readTx obj) = true := by
      rw [allPopulated_readTx hlength hinputs, hall]
      exact Bool.false_ne_true
    rw [Option.filter_some, if_neg hnot]
    refine List.filterMap_congr fun i _ ↦ ?_
    rw [readTx, List.take_of_length_le hlength, List.getElem?_map, Option.map_map]
    rfl

end Execution

theorem builtTx_cases {ptx : PTx} {tx : Consensus.Transaction} (h : builtTx ptx = some tx) :
    (ptx.version.getD 1 = 0 ∨ ptx.version.getD 1 = 1 ∧ budgetsOk ptx = true) ∧
      ptx.inputs ≠ [] ∧ ptx.outputs ≠ [] ∧ tx = buildTx ptx (ptx.version.getD 1).toUInt16 := by
  rw [builtTx] at h
  split at h
  · rename_i hbuildable
    obtain ⟨hle, hinputs, houtputs, hbudgets⟩ := hbuildable
    refine ⟨?_, hinputs, houtputs, (Option.some.inj h).symm⟩
    by_cases hzero : ptx.version.getD 1 = 0
    · exact .inl hzero
    · refine .inr ⟨?_, hbudgets.resolve_left hzero⟩
      have hle : (ptx.version.getD 1).toNat ≤ 1 := hle
      have hne : (ptx.version.getD 1).toNat ≠ 0 := fun h0 ↦ hzero (UInt64.toNat_inj.mp h0)
      exact UInt64.toNat_inj.mp (Nat.le_antisymm hle (Nat.one_le_iff_ne_zero.mpr hne))
  · cases h

section Built

variable {node : Node} {network : Network} {obj : Object} {tx : Consensus.Transaction}

theorem inputs_asSubmitted (htx : builtTx (readTx obj) = some tx)
    (hlength : (itemsOf obj "inputs").length ≤ MAX_TX_IO)
    (hclean : Clean (inputFindings node (readTx obj) ((readTx obj).version.getD 1))) :
    List.Forall₂ (InputAsSubmitted tx.version) (itemsOf obj "inputs") tx.inputs := by
  obtain ⟨hversion, -, -, rfl⟩ := builtTx_cases htx
  have hread : (readTx obj).inputs = (itemsOf obj "inputs").map readInput := by
    rw [readTx, List.take_of_length_le hlength]
  rw [buildTx, hread, List.map_map, List.forall₂_map_right_iff, List.forall₂_same]
  intro iv hiv
  have hmem : readInput iv ∈ (readTx obj).inputs := hread ▸ List.mem_map_of_mem hiv
  refine buildInput_asSubmitted iv (fun hone ↦ ?_) fun hzero ↦ ?_
  · obtain h0 | ⟨-, hbudgets⟩ := hversion
    · rw [h0] at hone
      cases hone
    · exact List.all_eq_true.mp hbudgets _ hmem
  · obtain h0 | ⟨h1, -⟩ := hversion
    · obtain ⟨i, hi⟩ := List.mem_iff_getElem?.mp hmem
      refine clean_sigopFindings (i := i) fun f hf ↦ hclean f ?_
      rw [h0, inputFindings, if_neg (by decide), if_pos rfl]
      exact List.mem_flatMap.mpr ⟨_, List.mk_mem_zipIdx_iff_getElem?.mpr hi, hf⟩
    · rw [h1] at hzero
      cases hzero

theorem outputs_asSubmitted (htx : builtTx (readTx obj) = some tx)
    (hlength : (itemsOf obj "outputs").length ≤ MAX_TX_IO)
    (hclean : Clean ((readTx obj).outputs.zipIdx.flatMap fun (output, i) ↦
      outputFindings i output)) :
    List.Forall₂ OutputAsSubmitted (itemsOf obj "outputs") tx.outputs := by
  obtain ⟨-, -, -, rfl⟩ := builtTx_cases htx
  have hread : (readTx obj).outputs = (itemsOf obj "outputs").map readOutput := by
    rw [readTx, List.take_of_length_le hlength]
  rw [buildTx, hread, List.map_map, List.forall₂_map_right_iff, List.forall₂_same]
  intro ov hov
  have hmem : readOutput ov ∈ (readTx obj).outputs := hread ▸ List.mem_map_of_mem hov
  obtain ⟨i, hi⟩ := List.mem_iff_getElem?.mp hmem
  have houtput : Clean (outputFindings i (readOutput ov)) := fun f hf ↦
    hclean f (List.mem_flatMap.mpr ⟨_, List.mk_mem_zipIdx_iff_getElem?.mpr hi, hf⟩)
  exact buildOutput_asSubmitted ov (clean_outputFindings houtput).1 (clean_outputFindings houtput).2

/-- What was executed by itself carries the fields of its input. -/
theorem alone_asSubmitted (htx : builtTx (readTx obj) = some tx)
    (hlength : (itemsOf obj "inputs").length ≤ MAX_TX_IO) {exec : InputExec}
    (hexec : exec ∈ (witnessedInputs (itemsOf obj "inputs")).filterMap fun i ↦
      (itemsOf obj "inputs")[i]?.map fun iv ↦
        isolated node i (readInput iv) (min ((readInput iv).computeBudget.getD 0) 65535).toUInt16) :
    ∃ iv entry script budget, (itemsOf obj "inputs")[exec.inputIndex]? = some iv ∧
      EntryAsSubmitted iv entry ∧
      submitted (fieldsOf (some iv)) ["signatureScript"] asHex = some script ∧
      (tx.version = 1 → ((fieldsOf (some iv)).lookup "computeBudget").bind asU64 =
        some (UInt16.toUInt64 budget)) ∧
      exec = preflightExecuteIsolated node exec.inputIndex entry.scriptPublicKey.version
        entry.scriptPublicKey.script script entry.amount budget entry.covenantId := by
  obtain ⟨hversion, -, -, rfl⟩ := builtTx_cases htx
  obtain ⟨i, hi, hmap⟩ := List.mem_filterMap.mp hexec
  obtain ⟨iv, hiv, rfl⟩ := Option.map_eq_some_iff.mp hmap
  obtain ⟨iv', hiv', hwitnessed⟩ := witnessedInputs_lt hi
  rw [hiv] at hiv'
  cases hiv'
  obtain ⟨hutxo, script, hscript⟩ := witnessed_hasUtxo hwitnessed
  refine ⟨iv, entryOf (readInput iv), script,
    (min ((readInput iv).computeBudget.getD 0) 65535).toUInt16, hiv, entryOf_asSubmitted hutxo,
    hscript, fun hone ↦ ?_, ?_⟩
  · obtain h0 | ⟨-, hbudgets⟩ := hversion
    · rw [buildTx, h0] at hone
      cases hone
    · have hmem : readInput iv ∈ (readTx obj).inputs := by
        rw [readTx, List.take_of_length_le hlength]
        exact List.mem_map_of_mem (List.mem_of_getElem? hiv)
      obtain ⟨n, hn, hle⟩ := Option.any_eq_true _ _ |>.mp (List.all_eq_true.mp hbudgets _ hmem)
      obtain ⟨b, rfl⟩ := exists_uint16 (of_decide_eq_true hle)
      rw [hn, Option.getD_some, min_of_le (of_decide_eq_true hle), UInt16.toUInt16_toUInt64]
      exact hn
  · have hsig : (readInput iv).signatureScript = some script := hscript
    rw [isolated, hsig, Option.getD_some]
    rfl

theorem check_asSubmitted {log : ParseLog} (htx : builtTx (readTx obj) = some tx)
    (hin : (itemsOf obj "inputs").length ≤ MAX_TX_IO)
    (hout : (itemsOf obj "outputs").length ≤ MAX_TX_IO)
    (hinputs : Clean (inputFindings node (readTx obj) ((readTx obj).version.getD 1)))
    (houtputs : Clean ((readTx obj).outputs.zipIdx.flatMap fun (output, i) ↦
      outputFindings i output))
    (hfailed : Clean (failedFindings (execution node (readTx obj) (builtTx (readTx obj))).1)) :
    AsSubmitted node obj tx (check node network (readTx obj) log) := by
  have hexecuted : (check node network (readTx obj) log).executed =
      (execution node (readTx obj) (some tx)).1 := by rw [← htx]; rfl
  obtain ⟨hversion, hsome, hsome', heq⟩ := builtTx_cases htx
  have hitems : tx.inputs.length = (itemsOf obj "inputs").length :=
    (inputs_asSubmitted htx hin hinputs).length_eq.symm
  refine ⟨?_, fun n hn ↦ ?_, fun bytes hbytes ↦ ?_, inputs_asSubmitted htx hin hinputs,
    outputs_asSubmitted htx hout houtputs, ?_, ⟨hin, hout⟩, ?_, ?_, fun hall ↦ ?_,
    fun hall exec hexec ↦ ?_⟩
  · rw [heq, buildTx]
    change (readTx obj).version.getD 1 = _ ∧ _
    obtain h0 | ⟨h1, -⟩ := hversion
    · rw [h0]
      exact ⟨rfl, show (0 : UInt16) ≤ 1 by decide⟩
    · rw [h1]
      exact ⟨rfl, show (1 : UInt16) ≤ 1 by decide⟩
  · rw [heq, buildTx, readTx, hn, Option.getD_some]
  · rw [heq, buildTx, readTx, hbytes, Option.getD_some]
  · rw [heq, buildTx]
    exact ⟨fun h ↦ hsome (List.map_eq_nil_iff.mp h), fun h ↦ hsome' (List.map_eq_nil_iff.mp h)⟩
  · rw [hexecuted]
    cases hall : (itemsOf obj "inputs").all hasUtxo with
    | true =>
        obtain ⟨entries, -, hrun⟩ := execution_populated node tx hin hsome hall
        rw [hrun]
        exact map_inputIndex (fun _ _ ↦ rfl) fun i hi ↦ hitems ▸ witnessedInputs_length i hi
    | false =>
        rw [execution_alone hin hsome hall]
        exact map_inputIndex (fun _ _ ↦ rfl) witnessedInputs_length
  · rw [htx] at hfailed
    rw [hexecuted]
    exact clean_failedFindings hfailed
  · rw [hexecuted]
    exact execution_populated node tx hin hsome hall
  · rw [hexecuted, execution_alone hin hsome hall] at hexec
    exact alone_asSubmitted htx hin hexec

end Built

/-- **Ready as submitted.**  Where the verdict is `ready`, the transaction that was built has one
input and one output for each that was submitted, in their order, and carries every field that
can be read and that fits; the first inputs with a witness and a utxo were executed, in
the transaction where every input has a utxo, and passed. -/
theorem ready_as_submitted (node : Node) (body : String) (network : Network) (report : Report)
    (hrun : run node body network = .ok report) (hready : report.verdict = .ready) :
    ∃ root ptx log tx, node.fromStr body = .ok (.obj root) ∧
      parse node.fromStr body = .ok (ptx, log) ∧ builtTx ptx = some tx ∧
      AsSubmitted node (transactionObject root) tx report := by
  rw [run] at hrun
  cases hparse : parse node.fromStr body with
  | error e => rw [hparse] at hrun; cases hrun
  | ok parsed =>
      obtain ⟨ptx, log⟩ := parsed
      rw [hparse] at hrun
      cases hrun
      obtain ⟨⟨tx, htx⟩, hlog, hinputs, houtputs, hfailed⟩ := ready_cases hready
      -- the parser read the object of the transaction
      rw [parse] at hparse
      split at hparse
      · cases hparse
      rename_i value hbody
      split at hparse
      · cases hparse
      rename_i root hroot
      cases value with
      | obj fields =>
          cases hroot
          have hparsed := Except.ok.inj hparse
          have hread : readTx (transactionObject root) = ptx :=
            (gives_parseObject (transactionObject root) {}).symm.trans (congrArg Prod.fst hparsed)
          subst hread
          have hwithin : ¬( MAX_TX_IO < (itemsOf (transactionObject root) "inputs").length ∨
              MAX_TX_IO < (itemsOf (transactionObject root) "outputs").length) := by
            intro hmany
            obtain ⟨f, hf, herror⟩ := ends_parseObject hmany {}
            have hlogged : ((parseObject (transactionObject root)).run {}).2 = log :=
              congrArg Prod.snd hparsed
            exact hlog f (hlogged ▸ hf) herror
          rw [not_or, Nat.not_lt, Nat.not_lt] at hwithin
          exact ⟨root, _, log, tx, hbody, rfl, htx,
            check_asSubmitted htx hwithin.1 hwithin.2 hinputs houtputs hfailed⟩
      | _ => cases hroot

/-! ## Two bodies -/

/-- A node whose parser gives one body, and whose engine accepts the witness `OP_TRUE` of the
script `OP_VERIFY OP_TRUE` and no other. -/
def sampleNode (body : Value) : Node where
  fromStr _ := .ok body
  runEngineAt mtx i _ :=
    if mtx.tx.inputs[i]?.any (·.signatureScript = [0x51]) then ⟨true, "", 100⟩
    else ⟨false, "verification failed", 100⟩
  allowedScriptUnits
    | .computeBudget budget => 10000 * budget.toUInt64 + 9999
    | .sigopCount count => 100000 * count.toUInt64
  coveringScriptUnits used := if used < 655360000 then some (used / 10000).toUInt16 else none
  nonContextualMasses _ tx := (1000 * tx.inputs.length.toUInt64, 1000)
  storageMass _ _ _ := some 100
  blockMassLimits _ := ⟨500000, 500000, 500000⟩

def number (n : UInt64) : Value := .num (.unsigned n)

/-- An input with a witness and a utxo. -/
def sampleInput (witness : String) (more : Object) : Value :=
  .obj (more ++ [("computeBudget", number 1), ("signatureScript", .str witness),
    ("utxo", .obj [("amount", number 100000), ("scriptPublicKey", .str "6951")])])

/-- A transaction of one input, which is as it is submitted. -/
def plainBody : Value :=
  .obj [("version", number 1),
    ("inputs", .arr [sampleInput "51" [("sequence", .str "600")]]),
    ("outputs", .arr [.obj [("value", number 99000), ("scriptPublicKey", .str "51")]])]

theorem ready_as_submitted_plain :
    ∃ report, run (sampleNode plainBody) "" (.testnet 10) = .ok report ∧
      ∃ root ptx log tx, (sampleNode plainBody).fromStr "" = .ok (.obj root) ∧
        parse (sampleNode plainBody).fromStr "" = .ok (ptx, log) ∧ builtTx ptx = some tx ∧
        AsSubmitted (sampleNode plainBody) (transactionObject root) tx report := by
  have hverdict : (run (sampleNode plainBody) "" (.testnet 10)).toOption.map (·.verdict) =
      some .ready := by decide +kernel
  cases hrun : run (sampleNode plainBody) "" (.testnet 10) with
  | error e => rw [hrun] at hverdict; cases hverdict
  | ok report =>
      rw [hrun] at hverdict
      exact ⟨report, rfl, ready_as_submitted _ _ _ _ hrun (Option.some.inj hverdict)⟩

/-- Fields that cannot be read, a field that is not read, and one input with a witness more
than are executed. -/
def blessedBody : Value :=
  .obj [("version", number 1), ("gas", number 7), ("payload", .str "no hex"),
    ("inputs", .arr (sampleInput "51" [("sequence", .str "soon")] ::
      List.replicate 15 (sampleInput "51" []) ++ [sampleInput "00" []])),
    ("outputs", .arr [.obj [("value", number 99000), ("scriptPublicKey", .str "51")]])]

/-- What is `ready` is not the transaction that was submitted: a sequence and a payload are
replaced by their defaults, the gas is left out, and the input whose witness the engine rejects
is not executed. -/
theorem ready_not_as_submitted :
    let node := sampleNode blessedBody
    let tx := (parse node.fromStr "").toOption.bind (builtTx ·.1)
    (run node "" (.testnet 10)).toOption.map (·.verdict) = some .ready ∧
      tx.map (·.inputs.map (·.sequence)) = some (List.replicate 17 0) ∧
      tx.map (·.gas) = some 0 ∧ tx.map (·.payload) = some [] ∧
      (run node "" (.testnet 10)).toOption.map (·.executed.map (·.inputIndex)) =
        some (List.range 16) ∧
      tx.map (fun tx ↦ (node.runEngineAt ⟨tx, []⟩ 16 none).pass) = some false := by
  decide +kernel

end Kascov.Preflight
