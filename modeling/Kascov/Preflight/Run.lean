import Kascov.Decode.Registry
import Kascov.Preflight.Fields

/-!
# The checks and the verdict

The second half of `preflight.rs`, and what it calls of `kascov-sim`: the checks of each input
and output, the transaction that is built, its masses, and the execution of its scripts.
The script engine and the mass calculators are parameters.  What the source pushes to its
findings in turn are here the findings of each check.
-/

namespace Kascov.Preflight

open Consensus

def EXEC_INPUT_CAP : Nat := 16

inductive Network where
  | mainnet
  | testnet (suffix : Nat)
deriving DecidableEq, Repr

/-- `network.to_string()`. -/
def Network.text : Network → String
  | mainnet => "mainnet"
  | testnet suffix => s!"testnet-{suffix}"

/-- `MAINNET_PARAMS` and `TESTNET_PARAMS`. -/
inductive Params where
  | mainnet
  | testnet
deriving DecidableEq, Repr

/-- `params_for`. -/
def paramsFor : Network → Params
  | .mainnet => .mainnet
  | .testnet _ => .testnet

/-- The compute, transient and storage mass of a block. -/
structure MassLimits where
  compute : UInt64
  transient : UInt64
  storage : UInt64
deriving DecidableEq, Repr

/-- `UtxoCell`, from an entry or of its own plurality and amount. -/
inductive InputCell where
  | entry (e : UtxoEntry)
  | plain (plurality amount : UInt64)

/-- The outcome of a script: passed, the verdict, and the script units used. -/
structure EngineOutcome where
  pass : Bool
  verdict : String
  used : UInt64

/-- What the consensus crates give. -/
structure Node where
  /-- `serde_json::from_str`. -/
  fromStr : String → Except String Value
  /-- `run_engine_at`, at an input and with a limit of script units. -/
  runEngineAt : MutableTransaction → Nat → Option UInt64 → EngineOutcome
  allowedScriptUnits : ComputeCommit → UInt64
  /-- `checked_covering_script_units`. -/
  coveringScriptUnits : UInt64 → Option UInt16
  /-- `calc_non_contextual_masses`: compute and transient. -/
  nonContextualMasses : Params → Consensus.Transaction → UInt64 × UInt64
  /-- `calc_storage_mass`. -/
  storageMass : Params → List InputCell → List TransactionOutput → Option UInt64
  blockMassLimits : Params → MassLimits

/-! ## Execution -/

/-- `InputExec`. -/
structure InputExec where
  inputIndex : Nat
  pass : Bool
  verdict : String
  scriptUnitsUsed : UInt64
  allowance : UInt64
deriving DecidableEq, Repr

/-- `fabricated_replay_tx`. -/
def fabricatedReplayTx (spkVersion : UInt16) (spkScript sigScript : Bytes) (value : UInt64)
    (budget : UInt16) (covenantId : Option Bytes32) : MutableTransaction :=
  let stateSpk : ScriptPublicKey := ⟨spkVersion, spkScript⟩
  { tx :=
      { version := 1
        inputs := [⟨fabricatedOutpoint, sigScript, 0, .computeBudget budget⟩]
        outputs := [⟨if value < 1000 then 0 else value - 1000, stateSpk,
          covenantId.map fun id ↦ ⟨0, id⟩⟩]
        lockTime := 0
        subnetworkId := nativeSubnetwork
        gas := 0
        payload := [] }
    entries := [⟨value, stateSpk, 0, false, covenantId⟩] }

/-- `preflight_execute`; the indices are of inputs. -/
def preflightExecute (node : Node) (mtx : MutableTransaction) (indices : List Nat) :
    List InputExec :=
  indices.filterMap fun i ↦ mtx.tx.inputs[i]?.map fun input ↦
    let limit := node.allowedScriptUnits input.computeCommit
    let outcome := node.runEngineAt mtx i (some limit)
    ⟨i, outcome.pass, outcome.verdict, outcome.used, limit⟩

/-- `preflight_execute_isolated`. -/
def preflightExecuteIsolated (node : Node) (inputIndex : Nat) (spkVersion : UInt16)
    (spkScript sigScript : Bytes) (value : UInt64) (budget : UInt16)
    (covenantId : Option Bytes32) : InputExec :=
  let mtx := fabricatedReplayTx spkVersion spkScript sigScript value budget covenantId
  let limit := node.allowedScriptUnits (.computeBudget budget)
  let outcome := node.runEngineAt mtx 0 (some limit)
  ⟨inputIndex, outcome.pass, outcome.verdict, outcome.used, limit⟩

/-! ## The checks -/

/-- `covenant_looking`. -/
def covenantLooking (input : PInput) : Bool :=
  input.utxoSpk.any (fun spk ↦ (p2shHash spk.2).isSome) ||
    input.signatureScript.any (150 < ·.length)

def unknownFindings (unknown : List String) : List Finding :=
  if unknown = [] then []
  else
    let plural := if unknown.length = 1 then "" else "s"
    let shown := ", ".intercalate (unknown.take 5)
    let more := if 5 < unknown.length then ", …" else ""
    [{ severity := .info
       code := "unknown_fields"
       message := s!"{unknown.length} unrecognized field{plural} ignored ({shown}{more})" }]

def versionFindings (submitted : Option UInt64) : List Finding :=
  let version := submitted.getD 1
  (if submitted = none then
    [{ severity := .warn
       code := "version_missing"
       message := "no version field — assuming version 1 (Toccata); pre-Toccata transactions " ++
        "must say version 0"
       suggestion := some "set version: 1" }]
  else []) ++
  (if version ≤ 1 then []
  else
    [{ severity := .warn
       code := "version_unknown"
       message := s!"version {version} isn't a Kaspa transaction version this tool knows (0 = " ++
        "legacy, 1 = Toccata) — static checks were skipped" }])

def emptyFindings (ptx : PTx) : List Finding :=
  (if ptx.inputs = [] then
    [{ severity := .error
       code := "no_inputs"
       message := "the transaction has no inputs — nothing to spend" }]
  else []) ++
  (if ptx.outputs = [] then
    [{ severity := .error
       code := "no_outputs"
       message := "the transaction has no outputs — a valid transaction pays somewhere" }]
  else [])

/-- An input with a witness and a utxo. -/
def executableInput (input : PInput) : Bool :=
  input.signatureScript.any (!·.isEmpty) && input.utxoSpk.any (!·.2.isEmpty) &&
    input.utxoAmount.isSome

/-- `executable`. -/
def executable (ptx : PTx) : List Nat :=
  ((ptx.inputs.zipIdx.filter (executableInput ·.1)).map Prod.snd).take EXEC_INPUT_CAP

/-- `all_populated`. -/
def allPopulated (ptx : PTx) : Bool :=
  !ptx.inputs.isEmpty && ptx.inputs.all fun input ↦
    input.utxoSpk.isSome && input.utxoAmount.isSome

/-- The input replayed by itself. -/
def isolated (node : Node) (i : Nat) (input : PInput) (budget : UInt16) : InputExec :=
  let spk := input.utxoSpk.getD (0, [])
  preflightExecuteIsolated node i spk.1 spk.2 (input.signatureScript.getD [])
    (input.utxoAmount.getD 0) budget input.utxoCovenantId

/-- The finding of an input without a budget, or of budget zero. -/
def missingBudget (node : Node) (exec : Bool) (i : Nat) (input : PInput) : List Finding :=
  let measured := if exec then some (isolated node i input 65535) else none
  if measured.any fun probe ↦ probe.pass && probe.scriptUnitsUsed ≤ 9999 then []
  else
    let suggestion :=
      match measured.filter (·.pass) with
      | some probe => (node.coveringScriptUnits probe.scriptUnitsUsed).map fun b ↦
          s!"set computeBudget: {max b 1} — this witness measured {probe.scriptUnitsUsed} " ++
            "script units"
      | none =>
          if covenantLooking input then
            some ("set computeBudget: 20 (kascov-lab's default per input), or measure the exact " ++
              "need with a dry-run")
          else
            some ("set computeBudget: 10 — one Schnorr CheckSig costs exactly 100,000 script " ++
              "units (10 units)")
    if covenantLooking input then
      let commits := if input.computeBudget = none then "no" else "a zero"
      [{ severity := .error
         code := "budget_missing"
         message := s!"input {i} commits {commits} computeBudget — its effective allowance is " ++
          "the free 9,999 script units, and one Schnorr CheckSig alone costs 100,000 (the " ++
          "`used=100000, limit=9999` of rusty-kaspa#1073). The budget is committed by the " ++
          "spending input and covered by the signature hash — set it BEFORE signing; it can't " ++
          "be patched in afterwards."
         inputIndex := some i
         suggestion }]
    else
      [{ severity := .error
         code := "fee_input_budget_missing"
         message := s!"input {i} looks like the plain fee/change input — the one everybody " ++
          "forgets because it \"never needed anything\" pre-Toccata. EVERY input of a version-1 " ++
          "transaction commits its own budget, and this one's CheckSig needs ≥ 10."
         inputIndex := some i
         suggestion }]

/-- The turn of the loop over the inputs of version 1. -/
def budgetFindings (node : Node) (exec : Bool) (i : Nat) (input : PInput) : List Finding :=
  let budget := input.computeBudget
  let sigops := input.sigOpCount.any (0 < ·)
  match budget.filter (65535 < ·) with
  | some b =>
      [{ severity := .error
         code := "budget_overflow"
         message := s!"input {i}: computeBudget {b} doesn't fit the u16 wire field (max 65,535)"
         inputIndex := some i }]
  | none =>
      (if budget.isSome && sigops then
        [{ severity := .info
           code := "sigop_count_ignored"
           message := s!"input {i}: sigOpCount isn't part of the version-1 wire format — " ++
            "serializers drop it; the committed computeBudget is what counts"
           inputIndex := some i }]
      else []) ++
      (if budget.isNone && sigops then
        [{ severity := .error
           code := "sigop_count_on_v1"
           message := s!"input {i} still carries the v0 per-input sigOpCount — version-1 " ++
            "(Toccata) transactions replace it with a computeBudget: u16 commitment (1 budget " ++
            "unit = 100 grams = 10,000 script units). Without it the node grants only the free " ++
            "9,999 units."
           inputIndex := some i
           suggestion := some "replace sigOpCount with computeBudget (10 covers one CheckSig)" }]
      else if budget.isNone || budget = some 0 then missingBudget node exec i input
      else [])

/-- The turn of the loop over the inputs of version 0. -/
def sigopFindings (i : Nat) (input : PInput) : List Finding :=
  (if input.computeBudget.isSome then
    [{ severity := .warn
       code := "budget_on_v0"
       message := s!"input {i} sets computeBudget on a version-0 transaction — v0 inputs commit " ++
        "sigOpCount, so the field is ignored on the wire. Covenant (Toccata) features need " ++
        "version: 1."
       inputIndex := some i
       suggestion := some "set version: 1 to commit compute budgets" }]
  else []) ++
  (match input.sigOpCount.filter (255 < ·) with
  | some count =>
      [{ severity := .error
         code := "sigop_overflow"
         message := s!"input {i}: sigOpCount {count} doesn't fit the u8 wire field"
         inputIndex := some i }]
  | none => [])

/-- The findings of the inputs. -/
def inputFindings (node : Node) (ptx : PTx) (version : UInt64) : List Finding :=
  if version = 1 then
    ptx.inputs.zipIdx.flatMap fun (input, i) ↦ budgetFindings node (i ∈ executable ptx) i input
  else if version = 0 then ptx.inputs.zipIdx.flatMap fun (input, i) ↦ sigopFindings i input
  else []

/-- `budgets_ok`, of version 1. -/
def budgetsOk (ptx : PTx) : Bool := ptx.inputs.all (·.computeBudget.any (· ≤ 65535))

/-- The turn of the loop over the outputs. -/
def outputFindings (i : Nat) (output : POutput) : List Finding :=
  (if output.value.any (· ≠ 0) then []
  else
    [{ severity := .error
       code := "output_value_zero"
       message := s!"output {i} has no (or zero) value — Kaspa outputs must carry a positive " ++
        "amount (KIP-9 storage mass divides by it)" }]) ++
  (if output.spk.any (!·.2.isEmpty) then []
  else
    [{ severity := .error
       code := "output_spk_missing"
       message := s!"output {i} has no scriptPublicKey — nothing would be able to spend it, and " ++
        "the node rejects it" }])

/-- `outputs_ok`. -/
def outputsOk (ptx : PTx) : Bool :=
  ptx.outputs.all fun output ↦ output.value.any (· ≠ 0) && output.spk.any (!·.2.isEmpty)

/-! ## The transaction -/

def buildInput (version : UInt16) (i : PInput) : TransactionInput :=
  { previousOutpoint := ⟨i.outpointTxid.getD zeroHash, i.outpointIndex⟩
    signatureScript := i.signatureScript.getD []
    sequence := i.sequence
    computeCommit :=
      if 1 ≤ version then .computeBudget (min (i.computeBudget.getD 0) 65535).toUInt16
      else .sigopCount (min (i.sigOpCount.getD 1) 255).toUInt8 }

def buildOutput (o : POutput) : TransactionOutput :=
  { value := o.value.getD 1
    scriptPublicKey := (o.spk.map fun spk ↦ ⟨spk.1, spk.2⟩).getD ⟨0, []⟩
    covenant := o.covenant.map fun covenant ↦ ⟨covenant.2, covenant.1⟩ }

/-- `build_tx`. -/
def buildTx (ptx : PTx) (version : UInt16) : Consensus.Transaction :=
  { version
    inputs := ptx.inputs.map (buildInput version)
    outputs := ptx.outputs.map buildOutput
    lockTime := ptx.lockTime
    subnetworkId := nativeSubnetwork
    gas := 0
    payload := ptx.payload }

/-- `tx`, where it is `buildable`. -/
def builtTx (ptx : PTx) : Option Consensus.Transaction :=
  let version := ptx.version.getD 1
  if version ≤ 1 ∧ ptx.inputs ≠ [] ∧ ptx.outputs ≠ [] ∧ (version = 0 ∨ budgetsOk ptx) then
    some (buildTx ptx version.toUInt16)
  else none

/-! ## Masses -/

/-- What the report says of the masses. -/
structure Masses where
  compute : UInt64
  transient : UInt64
  storage : Option UInt64
  limit : MassLimits
deriving DecidableEq, Repr

/-- The cells that the inputs spend. -/
def inputCells (ptx : PTx) : List InputCell :=
  ptx.inputs.map fun i ↦
    match i.utxoSpk with
    | some (v, s) => .entry ⟨i.utxoAmount.getD 1, ⟨v, s⟩, 0, false, none⟩
    | none => .plain 1 (i.utxoAmount.getD 1)

/-- The storage mass, where every amount is known. -/
def storageOf (node : Node) (params : Params) (ptx : PTx) (tx : Consensus.Transaction) :
    Option (Option UInt64) :=
  if (ptx.inputs.all (·.utxoAmount.any (0 < ·))) && outputsOk ptx then
    some (node.storageMass params (inputCells ptx) tx.outputs)
  else none

/-- The masses that are over their limit. -/
def overLimit (limits : MassLimits) (compute transient : UInt64) (storage : Option UInt64) :
    List String :=
  (if limits.compute < compute then [s!"compute {compute} > {limits.compute}"] else []) ++
  (if limits.transient < transient then [s!"transient {transient} > {limits.transient}"]
    else []) ++
  (match storage.filter (limits.storage < ·) with
  | some mass => [s!"storage {mass} > {limits.storage}"]
  | none => [])

/-- The findings of the masses, the masses, and whether they are under their limits. -/
def massCheck (node : Node) (params : Params) (ptx : PTx) (tx : Consensus.Transaction) :
    List Finding × Masses × Bool :=
  let limits := node.blockMassLimits params
  let (compute, transient) := node.nonContextualMasses params tx
  let storage := storageOf node params ptx tx
  let exceeded := overLimit limits compute transient storage.join
  let overs := ", ".intercalate exceeded
  ((match storage with
    | some (some _) => []
    | some none =>
        [{ severity := .error
           code := "storage_mass_incomputable"
           message := "storage mass overflows — the outputs split the value too finely for the " ++
            "inputs (KIP-9); consolidate outputs or raise their amounts" }]
    | none =>
        if outputsOk ptx then
          [{ severity := .info
             code := "storage_mass_skipped"
             message := "storage mass wasn't checked — include each input's utxo amount to " ++
              "check the KIP-9 side too" }]
        else []) ++
    (if exceeded = [] then []
    else
      [{ severity := .error
         code := "mass_exceeds_limit"
         message := s!"mass exceeds the per-block ceiling ({overs}) — the transaction is " ++
          "un-spendable on-chain; no fee fixes it. Commit smaller budgets or split the " ++
          "transaction." }]),
    ⟨compute, transient, storage.join, limits⟩, exceeded = [])

/-- The estimate of the fee, which does not overflow. -/
def feeEstimate (compute : UInt64) : UInt64 :=
  .ofNat (min (min (100 * compute.toNat) (2 ^ 64 - 1) + 200000) (2 ^ 64 - 1))

/-! ## The report -/

inductive Verdict where
  | willFail
  | ready
  | incomplete
deriving DecidableEq, Repr

structure Report where
  network : String
  verdict : Verdict
  findings : List Finding
  masses : Option Masses
  feeEstimateSompi : Option UInt64
  executed : List InputExec
  executionNote : Option String

/-- The entry of an input with a utxo. -/
def entryOf (i : PInput) : UtxoEntry :=
  let spk := i.utxoSpk.getD (0, [])
  ⟨i.utxoAmount.getD 0, ⟨spk.1, spk.2⟩, 0, false, i.utxoCovenantId⟩

/-- The executions, and what they were made against. -/
def execution (node : Node) (ptx : PTx) (tx : Option Consensus.Transaction) :
    List InputExec × Option String :=
  if executable ptx = [] then ([], none)
  else
    match tx.filter fun _ ↦ allPopulated ptx with
    | some tx =>
        (preflightExecute node ⟨tx, ptx.inputs.map entryOf⟩ (executable ptx),
          some ("executed against the transaction as submitted — outputs, sequences and " ++
            "covenant bindings are the real ones, so signature and introspection checks are " ++
            "faithful"))
    | none =>
        ((executable ptx).filterMap fun i ↦ ptx.inputs[i]?.map fun input ↦
            isolated node i input (min (input.computeBudget.getD 0) 65535).toUInt16,
          some ("executed in an isolated per-input context (not every input carried a utxo, so " ++
            "the full transaction couldn't be populated) — signature and introspection checks " ++
            "may diverge from a real validation"))

/-- `str::contains`. -/
def containsText (s part : String) : Bool := s.toList.tails.any (part.toList.isPrefixOf ·)

def failedFindings (executed : List InputExec) : List Finding :=
  executed.filterMap fun exec ↦
    if exec.pass then none
    else
      some
        { severity := .error
          code := "input_script_failed"
          message :=
            s!"input {exec.inputIndex}: the script engine rejected the witness — {exec.verdict}"
          inputIndex := some exec.inputIndex
          suggestion := if containsText exec.verdict "script units exceeded" then
            some "raise this input's computeBudget to cover its measured script units" else none }

/-- The masses of the transaction that was built, or that there is none. -/
def massStage (node : Node) (network : Network) (ptx : PTx) (tx : Option Consensus.Transaction) :
    List Finding × Option (Masses × Bool) :=
  match tx with
  | some tx =>
      let (findings, masses) := massCheck node (paramsFor network) ptx tx
      (findings, some masses)
  | none =>
      (if ptx.version.getD 1 ≤ 1 ∧ ptx.inputs ≠ [] ∧ ptx.outputs ≠ [] then
        [{ severity := .info
           code := "mass_skipped"
           message := "consensus masses weren't computed — every input of a version-1 " ++
            "transaction must commit a computeBudget first (see the findings above)" }]
      else [], none)

/-- `run`, after the parser. -/
def check (node : Node) (network : Network) (ptx : PTx) (log : ParseLog) : Report :=
  let tx := builtTx ptx
  let (massFindings, masses) := massStage node network ptx tx
  let (executed, executionNote) := execution node ptx tx
  let findings := log.findings ++ unknownFindings log.unknown ++ versionFindings ptx.version ++
    emptyFindings ptx ++ inputFindings node ptx (ptx.version.getD 1) ++
    ptx.outputs.zipIdx.flatMap (fun (output, i) ↦ outputFindings i output) ++ massFindings ++
    failedFindings executed
  { network := network.text
    verdict :=
      if findings.any (·.severity = .error) then .willFail
      else if masses.any (·.2) then .ready
      else .incomplete
    findings
    masses := masses.map (·.1)
    feeEstimateSompi := masses.map fun m ↦ feeEstimate m.1.compute
    executed
    executionNote }

/-- `run`. -/
def run (node : Node) (body : String) (network : Network) : Except String Report :=
  match parse node.fromStr body with
  | .error e => .error e
  | .ok (ptx, log) => .ok (check node network ptx log)

end Kascov.Preflight
