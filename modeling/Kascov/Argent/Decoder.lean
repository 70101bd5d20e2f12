import Kascov.Argent.Manifest

/-!
# Decoding the declared outputs

A declaration is decoded by the one application the manifest approves under its id, and
comes out as an output or as a failure.  What it comes out as depends on that application
and on the transaction, and on nothing else the manifest holds.
-/

namespace Kascov.Argent

open Fallible

variable {A : Type}

/-! ## The decoder -/

structure RebuiltOutput where
  value : Nat
  spkVersion : Nat
  spkScript : Bytes
  covenant : Option CovenantBinding
deriving DecidableEq, Repr

/-- `ApprovedApplication::rebuild_output`: of an actor path, a state and an accepted output. -/
abbrev Rebuild (A : Type) :=
  ApprovedApplication A → String → String → Output → Except String RebuiltOutput

/-- `MAX_FAILURE_DETAIL_BYTES`. -/
def maxFailureDetailBytes : Nat := 512

/-- The whole characters that fit into so many bytes. -/
def charsWithin : Nat → List Char → List Char
  | _, [] => []
  | room, c :: cs =>
      if c.utf8Size ≤ room then c :: charsWithin (room - c.utf8Size) cs else []

/-- `failure`: the detail is cut at the last boundary of a character within the bound. -/
def failure (outputIndex : Option Nat) (applicationId : Option String)
    (artifactId : Option Bytes32) (code detail : String) : DecodeFailure where
  outputIndex
  applicationId
  artifactId := artifactId.map (·.hash)
  code
  detail :=
    if maxFailureDetailBytes < (utf8Bytes detail).length then
      String.ofList (charsWithin maxFailureDetailBytes detail.toList)
    else detail

/-- `failure`, of a declaration. -/
def OutputDeclaration.failure (d : OutputDeclaration) (code detail : String) : DecodeFailure :=
  Argent.failure (some d.outputIndex.toNat) (some d.applicationId) (some d.artifactId) code detail

/-- The output that a declaration comes out as. -/
def OutputDeclaration.output (d : OutputDeclaration) (covenantId : CovenantId) :
    ApplicationOutput where
  outputIndex := d.outputIndex.toNat
  covenantId
  applicationId := d.applicationId
  artifactId := d.artifactId.hash
  actorPath := d.actorPath
  stateJson := d.stateJson

/-- A declaration beyond the limits of its application. -/
def exceeds (limits : EnvelopeLimits) (tx : Transaction) (d : OutputDeclaration)
    (outputCount : Nat) : Bool :=
  limits.maxEnvelopeBytes < tx.payload.length ||
    limits.maxOutputDeclarations < outputCount ||
    limits.maxActorNameBytes < (utf8Bytes d.applicationId).length ||
    limits.maxActorNameBytes < (utf8Bytes d.actorPath).length ||
    limits.maxStateBytes < (utf8Bytes d.stateJson).length

/-- `ArgentDecoder::decode_output`, of what the manifest holds under the declared id. -/
def decodeOutput (rebuild : Rebuild A) (found : Option (ApprovedApplication A))
    (tx : Transaction) (d : OutputDeclaration) (outputCount : Nat) :
    Except DecodeFailure ApplicationOutput :=
  match found with
  | none =>
      .error (d.failure "application_not_approved"
        "application is absent from the approved manifest")
  | some application =>
      if !application.enabled then
        .error (d.failure "application_disabled" "application is disabled")
      else if application.artifactId ≠ d.artifactId then
        .error (d.failure "artifact_not_approved"
          "artifact ID does not match the approved artifact")
      else if exceeds application.limits tx d outputCount then
        .error (d.failure "application_limit"
          "declaration exceeds the approved application limits")
      else
        match tx.outputs[d.outputIndex.toNat]? with
        | none => .error (d.failure "output_index" "declared accepted output does not exist")
        | some accepted =>
            match accepted.covenant with
            | none =>
                .error (d.failure "output_covenant"
                  "declared accepted output has no covenant binding")
            | some covenant =>
                if tx.inputs.length ≤ covenant.authorizingInput then
                  .error (d.failure "output_covenant"
                    "covenant authorizing input does not exist")
                else
                  match rebuild application d.actorPath d.stateJson accepted with
                  | .error detail => .error (d.failure "artifact_rebuild" detail)
                  | .ok rebuilt =>
                      match rebuilt.covenant with
                      | none =>
                          .error (d.failure "artifact_rebuild"
                            "rebuilt output has no covenant binding")
                      | some rebuiltCovenant =>
                          if rebuilt.value ≠ accepted.value ∨
                              rebuilt.spkVersion ≠ accepted.spkVersion ∨
                              rebuilt.spkScript ≠ accepted.spkScript ∨
                              rebuiltCovenant.authorizingInput ≠ covenant.authorizingInput ∨
                              rebuiltCovenant.covenantId ≠ covenant.covenantId then
                            .error (d.failure "output_mismatch"
                              "rebuilt Argent output does not match the accepted output")
                          else .ok (d.output covenant.covenantId)

/-- The loop of `preprocess` over the declarations. -/
def decodeDeclarations (decode : OutputDeclaration → Except DecodeFailure ApplicationOutput) :
    List OutputDeclaration → List ApplicationOutput × List DecodeFailure
  | [] => ([], [])
  | d :: ds =>
      let (outputs, failures) := decodeDeclarations decode ds
      match decode d with
      | .ok output => (output :: outputs, failures)
      | .error failure => (outputs, failure :: failures)

/-- `ArgentDecoder::preprocess`. -/
def preprocess (rebuild : Rebuild A) (m : ApprovedManifest A) : ApplicationDecoder := fun tx ↦
  if !magic.isPrefixOf tx.payload then {}
  else
    match m.decodeLimits with
    | none =>
        { rawEnvelope := some tx.payload
          failures := [failure none none none "no_approved_application"
            "no enabled Argent application is approved"] }
    | some limits =>
        match decodeEnvelope tx.payload limits with
        | .error error =>
            { rawEnvelope := some tx.payload
              failures := [failure none none none "invalid_envelope" error.text] }
        | .ok envelope =>
            let (outputs, failures) := decodeDeclarations (fun d ↦
              decodeOutput rebuild (m.application d.applicationId) tx d envelope.outputs.length)
              envelope.outputs
            { rawEnvelope := some tx.payload
              applicationPayload := some envelope.applicationPayload, outputs, failures }

/-! ## One declaration -/

/-- What an output rests on: the application that the manifest approves under the declared
id, and an accepted output that it rebuilds. -/
def Decoded (rebuild : Rebuild A) (m : ApprovedManifest A) (tx : Transaction) (outputCount : Nat)
    (d : OutputDeclaration) (o : ApplicationOutput) : Prop :=
  ∃ a ∈ m.applications, a.id = d.applicationId ∧ a.enabled = true ∧
    a.artifactId = d.artifactId ∧ exceeds a.limits tx d outputCount = false ∧
    ∃ accepted covenant rebuilt, tx.outputs[d.outputIndex.toNat]? = some accepted ∧
      accepted.covenant = some covenant ∧ covenant.authorizingInput < tx.inputs.length ∧
      rebuild a d.actorPath d.stateJson accepted = .ok rebuilt ∧
      rebuilt.value = accepted.value ∧ rebuilt.spkVersion = accepted.spkVersion ∧
      rebuilt.spkScript = accepted.spkScript ∧ rebuilt.covenant = some covenant ∧
      o = d.output covenant.covenantId

variable {rebuild : Rebuild A} {m m' : ApprovedManifest A} {tx : Transaction}
  {d : OutputDeclaration} {outputCount : Nat}

theorem decodeOutput_ok {o : ApplicationOutput}
    (h : decodeOutput rebuild (m.application d.applicationId) tx d outputCount = .ok o) :
    Decoded rebuild m tx outputCount d o := by
  unfold decodeOutput at h
  cases hfound : m.application d.applicationId with
  | none =>
      rw [hfound] at h
      cases h
  | some a =>
      rw [hfound] at h
      have hmem := List.mem_of_find?_eq_some hfound
      have hid : a.id = d.applicationId := by
        simpa using List.find?_some hfound
      dsimp only at h
      split at h
      · cases h
      · rename_i henabled
        split at h
        · cases h
        · rename_i hartifact
          split at h
          · cases h
          · rename_i hlimits
            split at h
            · cases h
            · rename_i accepted haccepted
              split at h
              · cases h
              · rename_i covenant hcovenant
                split at h
                · cases h
                · rename_i hinput
                  split at h
                  · cases h
                  · rename_i rebuilt hrebuilt
                    split at h
                    · cases h
                    · rename_i rebuiltCovenant hrebuiltCovenant
                      split at h
                      · cases h
                      · rename_i hequal
                        simp only [not_or, not_not] at hequal
                        obtain ⟨hvalue, hversion, hscript, hauth, hcov⟩ := hequal
                        have hsame : rebuiltCovenant = covenant := by
                          obtain ⟨id, input⟩ := rebuiltCovenant
                          dsimp only at hauth hcov
                          rw [hauth, hcov]
                        exact ⟨a, hmem, hid, by simpa using henabled, by simpa using hartifact,
                          by simpa using hlimits, accepted, covenant, rebuilt, haccepted,
                          hcovenant, Nat.not_le.mp hinput, hrebuilt, hvalue, hversion, hscript,
                          hsame ▸ hrebuiltCovenant, (Except.ok.inj h).symm⟩

/-- A failure names what it is a failure of. -/
theorem decodeOutput_error {found : Option (ApprovedApplication A)} {f : DecodeFailure}
    (h : decodeOutput rebuild found tx d outputCount = .error f) :
    ∃ code detail, f = d.failure code detail := by
  unfold decodeOutput at h
  repeat' split at h
  all_goals first
    | exact ⟨_, _, (Except.error.inj h).symm⟩
    | cases h

/-! ## The loop -/

/-- A decoder whose results carry the index of the declaration. -/
structure Carries (decode : OutputDeclaration → Except DecodeFailure ApplicationOutput) :
    Prop where
  output : ∀ d o, decode d = .ok o → o.outputIndex = d.outputIndex.toNat
  failure : ∀ d f, decode d = .error f → f.outputIndex = some d.outputIndex.toNat

/-- The output a result is. -/
def outputOf : Except DecodeFailure ApplicationOutput → List ApplicationOutput
  | .ok o => [o]
  | .error _ => []

/-- The failure a result is. -/
def failureOf : Except DecodeFailure ApplicationOutput → List DecodeFailure
  | .ok _ => []
  | .error f => [f]

variable {decode : OutputDeclaration → Except DecodeFailure ApplicationOutput}

theorem decodeDeclarations_eq (ds : List OutputDeclaration) :
    decodeDeclarations decode ds =
      (ds.flatMap fun d ↦ outputOf (decode d), ds.flatMap fun d ↦ failureOf (decode d)) := by
  induction ds with
  | nil => rfl
  | cons d ds ih =>
      rw [decodeDeclarations, ih, List.flatMap_cons, List.flatMap_cons]
      dsimp only
      cases hd : decode d with
      | ok o => rfl
      | error f => rfl

theorem length_decodeDeclarations (ds : List OutputDeclaration) :
    (decodeDeclarations decode ds).1.length + (decodeDeclarations decode ds).2.length =
      ds.length := by
  induction ds with
  | nil => rfl
  | cons d ds ih =>
      rw [decodeDeclarations]
      dsimp only
      cases hd : decode d with
      | ok o =>
          dsimp only
          rw [List.length_cons, List.length_cons]
          omega
      | error f =>
          dsimp only
          rw [List.length_cons, List.length_cons]
          omega

theorem mem_decodeDeclarations {ds : List OutputDeclaration} {o : ApplicationOutput} :
    o ∈ (decodeDeclarations decode ds).1 ↔ ∃ d ∈ ds, decode d = .ok o := by
  rw [decodeDeclarations_eq, List.mem_flatMap]
  refine exists_congr fun d ↦ and_congr_right fun _ ↦ ?_
  cases decode d with
  | ok o' => rw [outputOf, List.mem_singleton, Except.ok.injEq, eq_comm]
  | error f => exact ⟨nofun, nofun⟩

/-- Outputs come in the order of their declarations. -/
theorem Carries.sublist (h : Carries decode) (ds : List OutputDeclaration) :
    ((decodeDeclarations decode ds).1.map (·.outputIndex)).Sublist
      (ds.map (·.outputIndex.toNat)) := by
  induction ds with
  | nil => exact .slnil
  | cons d ds ih =>
      rw [decodeDeclarations]
      dsimp only
      cases hd : decode d with
      | ok o =>
          dsimp only
          rw [List.map_cons, List.map_cons, h.output d o hd]
          exact ih.cons_cons _
      | error f => exact ih.cons _

/-- In a list of declarations of different outputs, what carries the index of one is the
result of that one. -/
theorem flatMap_filter_index {β : Type} {results : OutputDeclaration → List β}
    (carries : β → Nat → Bool)
    (hcarries : ∀ d, ∀ x ∈ results d, ∀ n, carries x n = true ↔ d.outputIndex.toNat = n)
    {ds : List OutputDeclaration} (hnodup : (ds.map (·.outputIndex)).Nodup)
    {d : OutputDeclaration} (hd : d ∈ ds) :
    (ds.flatMap results).filter (carries · d.outputIndex.toNat) = results d := by
  have hown : ∀ d', (results d').filter (carries · d.outputIndex.toNat) =
      if d'.outputIndex = d.outputIndex then results d' else [] := by
    intro d'
    by_cases hindex : d'.outputIndex = d.outputIndex
    · rw [if_pos hindex, List.filter_eq_self]
      exact fun x hx ↦ (hcarries d' x hx _).mpr (congrArg UInt16.toNat hindex)
    · rw [if_neg hindex, List.filter_eq_nil_iff]
      exact fun x hx hc ↦ hindex (UInt16.toNat_inj.mp ((hcarries d' x hx _).mp hc))
  have hnone : ∀ ds : List OutputDeclaration, d.outputIndex ∉ ds.map (·.outputIndex) →
      (ds.flatMap results).filter (carries · d.outputIndex.toNat) = [] := by
    intro ds hnot
    rw [List.filter_flatMap, List.flatMap_eq_nil_iff]
    intro d' hd'
    rw [hown, if_neg fun heq ↦ hnot (List.mem_map.mpr ⟨d', hd', heq⟩)]
  induction ds with
  | nil => cases hd
  | cons d' ds ih =>
      rw [List.map_cons, List.nodup_cons] at hnodup
      rw [List.flatMap_cons, List.filter_append, hown]
      rcases List.mem_cons.mp hd with rfl | hd
      · rw [if_pos rfl, hnone ds hnodup.1, List.append_nil]
      · have hne : d'.outputIndex ≠ d.outputIndex :=
          fun heq ↦ hnodup.1 (heq ▸ List.mem_map.mpr ⟨d, hd, rfl⟩)
        rw [if_neg hne, ih hnodup.2 hd, List.nil_append]

theorem Carries.outputs_at (h : Carries decode) {ds : List OutputDeclaration}
    (hnodup : (ds.map (·.outputIndex)).Nodup) {d : OutputDeclaration} (hd : d ∈ ds) :
    (decodeDeclarations decode ds).1.filter (·.outputIndex == d.outputIndex.toNat) =
      outputOf (decode d) := by
  rw [decodeDeclarations_eq]
  refine flatMap_filter_index (fun (o : ApplicationOutput) n ↦ o.outputIndex == n) ?_ hnodup hd
  intro d o ho n
  cases hdec : decode d with
  | error f =>
      rw [hdec] at ho
      cases ho
  | ok o' =>
      rw [hdec, outputOf, List.mem_singleton] at ho
      rw [ho, beq_iff_eq, h.output d o' hdec]

theorem Carries.failures_at (h : Carries decode) {ds : List OutputDeclaration}
    (hnodup : (ds.map (·.outputIndex)).Nodup) {d : OutputDeclaration} (hd : d ∈ ds) :
    (decodeDeclarations decode ds).2.filter (·.outputIndex == some d.outputIndex.toNat) =
      failureOf (decode d) := by
  rw [decodeDeclarations_eq]
  refine flatMap_filter_index (fun (f : DecodeFailure) n ↦ f.outputIndex == some n) ?_ hnodup hd
  intro d f hf n
  cases hdec : decode d with
  | ok o =>
      rw [hdec] at hf
      cases hf
  | error f' =>
      rw [hdec, failureOf, List.mem_singleton] at hf
      rw [hf, beq_iff_eq, h.failure d f' hdec, Option.some.injEq]

/-! ## A transaction -/

theorem carries_decodeOutput (rebuild : Rebuild A) (m : ApprovedManifest A) (tx : Transaction)
    (outputCount : Nat) :
    Carries fun d ↦ decodeOutput rebuild (m.application d.applicationId) tx d outputCount where
  output d o h := by
    obtain ⟨_, _, _, _, _, _, _, covenant, _, _, _, _, _, _, _, _, _, rfl⟩ := decodeOutput_ok h
    rfl
  failure d f h := by
    obtain ⟨code, detail, rfl⟩ := decodeOutput_error h
    rfl

theorem isPrefixOf_of_decoded {limits : EnvelopeLimits} {b : Bytes} {e : ArgiEnvelope}
    (h : decodeEnvelope b limits = .ok e) : magic.isPrefixOf b = true := by
  obtain ⟨-, rfl⟩ := decodeEnvelope_eq_ok.mp h
  rfl

/-- What a payload that decodes comes out as. -/
theorem preprocess_decoded {limits : EnvelopeLimits} {e : ArgiEnvelope}
    (hlimits : m.decodeLimits = some limits) (he : decodeEnvelope tx.payload limits = .ok e) :
    preprocess rebuild m tx =
      { rawEnvelope := some tx.payload
        applicationPayload := some e.applicationPayload
        outputs := (decodeDeclarations (fun d ↦ decodeOutput rebuild
          (m.application d.applicationId) tx d e.outputs.length) e.outputs).1
        failures := (decodeDeclarations (fun d ↦ decodeOutput rebuild
          (m.application d.applicationId) tx d e.outputs.length) e.outputs).2 } := by
  unfold preprocess
  rw [isPrefixOf_of_decoded he, hlimits]
  dsimp only
  rw [he]
  rfl

/-- Outputs come from payloads that decode. -/
theorem decoded_of_mem_outputs {o : ApplicationOutput}
    (h : o ∈ (preprocess rebuild m tx).outputs) :
    ∃ limits e, m.decodeLimits = some limits ∧ decodeEnvelope tx.payload limits = .ok e := by
  unfold preprocess at h
  split at h
  · cases h
  · split at h
    · cases h
    · rename_i limits hlimits
      split at h
      · cases h
      · rename_i e he
        exact ⟨limits, e, hlimits, he⟩

/-- **Decoding is sound, complete and monotone.**  An output rests on a declaration of the
payload and on the application approved for it, and no two are of one index.  A payload that
decodes leaves each declaration as the one output or the one failure of its index, and leaves
the same under every extension of the manifest that has not added the declared id. -/
theorem preprocess_law (rebuild : Rebuild A) (m : ApprovedManifest A) (tx : Transaction) :
    (∀ o ∈ (preprocess rebuild m tx).outputs, ∃ limits e, m.decodeLimits = some limits ∧
      decodeEnvelope tx.payload limits = .ok e ∧
      ∃ d ∈ e.outputs, Decoded rebuild m tx e.outputs.length d o) ∧
    ((preprocess rebuild m tx).outputs.map (·.outputIndex)).Nodup ∧
    ∀ limits e, m.decodeLimits = some limits → decodeEnvelope tx.payload limits = .ok e →
      (preprocess rebuild m tx).outputs.length + (preprocess rebuild m tx).failures.length =
        e.outputs.length ∧
      (∀ d ∈ e.outputs,
        ((preprocess rebuild m tx).outputs.filter (·.outputIndex == d.outputIndex.toNat)).length +
          ((preprocess rebuild m tx).failures.filter
            (·.outputIndex == some d.outputIndex.toNat)).length = 1) ∧
      ∀ m', m.Extends m' →
        (preprocess rebuild m' tx).applicationPayload =
          (preprocess rebuild m tx).applicationPayload ∧
        ∀ d ∈ e.outputs, (d.applicationId ∈ m'.applications.map (·.id) →
            d.applicationId ∈ m.applications.map (·.id)) →
          (preprocess rebuild m' tx).outputs.filter (·.outputIndex == d.outputIndex.toNat) =
            (preprocess rebuild m tx).outputs.filter (·.outputIndex == d.outputIndex.toNat) ∧
          (preprocess rebuild m' tx).failures.filter
              (·.outputIndex == some d.outputIndex.toNat) =
            (preprocess rebuild m tx).failures.filter
              (·.outputIndex == some d.outputIndex.toNat) := by
  refine ⟨fun o ho ↦ ?_, ?_, fun limits e hlimits he ↦ ⟨?_, fun d hd ↦ ?_, fun m' hm ↦ ?_⟩⟩
  · obtain ⟨limits, e, hlimits, he⟩ := decoded_of_mem_outputs ho
    rw [preprocess_decoded hlimits he] at ho
    obtain ⟨d, hd, hok⟩ := mem_decodeDeclarations.mp ho
    exact ⟨limits, e, hlimits, he, d, hd, decodeOutput_ok hok⟩
  · rcases List.eq_nil_or_concat (preprocess rebuild m tx).outputs with hnil | ⟨os, o, hos⟩
    · rw [hnil]
      exact List.nodup_nil
    · have ho : o ∈ (preprocess rebuild m tx).outputs := by
        rw [hos, List.concat_eq_append]
        exact List.mem_append_right os List.mem_cons_self
      obtain ⟨limits, e, hlimits, he⟩ := decoded_of_mem_outputs ho
      have hnodup := (decodeEnvelope_eq_ok.mp he).1.outputs.2
      rw [preprocess_decoded hlimits he]
      refine ((carries_decodeOutput rebuild m tx e.outputs.length).sublist e.outputs).nodup ?_
      have hmap : e.outputs.map (·.outputIndex.toNat) =
          (e.outputs.map (·.outputIndex)).map UInt16.toNat := by
        rw [List.map_map]
        rfl
      rw [hmap]
      exact hnodup.map fun a b h ↦ UInt16.toNat_inj.mp h
  · rw [preprocess_decoded hlimits he]
    exact length_decodeDeclarations e.outputs
  · have hnodup := (decodeEnvelope_eq_ok.mp he).1.outputs.2
    have hcarries := carries_decodeOutput rebuild m tx e.outputs.length
    rw [preprocess_decoded hlimits he]
    dsimp only
    rw [hcarries.outputs_at hnodup hd, hcarries.failures_at hnodup hd]
    cases decodeOutput rebuild (m.application d.applicationId) tx d e.outputs.length with
    | ok o => rfl
    | error f => rfl
  · obtain ⟨hencodable, hbytes⟩ := decodeEnvelope_eq_ok.mp he
    obtain ⟨limits', hlimits', hwithin⟩ := hm.decodeLimits hlimits
    have he' : decodeEnvelope tx.payload limits' = .ok e :=
      decodeEnvelope_eq_ok.mpr ⟨hencodable.mono hwithin, hbytes⟩
    rw [preprocess_decoded hlimits he, preprocess_decoded hlimits' he']
    refine ⟨rfl, fun d hd hid ↦ ?_⟩
    have hnodup := hencodable.outputs.2
    have hold := carries_decodeOutput rebuild m tx e.outputs.length
    have hnew := carries_decodeOutput rebuild m' tx e.outputs.length
    dsimp only
    rw [hold.outputs_at hnodup hd, hold.failures_at hnodup hd, hnew.outputs_at hnodup hd,
      hnew.failures_at hnodup hd, hm.application_eq hid]
    exact ⟨rfl, rfl⟩

/-- A manifest of applications that share one artifact. -/
def counterManifest (ids : List String) (h : ids.Nodup) : ApprovedManifest Unit where
  applications := ids.map fun id ↦
    { id, enabled := true, limits := ⟨1024, 4, 32, 128⟩
      artifactId := ⟨List.replicate 32 0x11, length_counterId⟩
      primary := (), dependencies := [] }
  rejections := []
  nodup := by
    rw [List.map_map]
    exact (List.map_id ids).symm ▸ h

/-- The file that lists them, and the artifact it names. -/
def counterFile (ids : List String) : ManifestFile where
  version := 1
  applications := ids.map fun id ↦
    { id, enabled := true, artifact := ⟨"counter.json", ""⟩, limits := ⟨1024, 4, 32, 128⟩ }

def counterSource : ArtifactSource Unit where
  loadArtifact _ := .ok ()
  bundle _ _ := .ok ()
  decodeId _ := .ok (List.replicate 32 0x11)

/-- A transaction that carries the counter's envelope. -/
def counterTransaction : Transaction where
  txid := ⟨1⟩
  version := 1
  inputs := [{ previousOutpoint := ⟨⟨0⟩, 0⟩, signatureScript := [], computeBudget := 0 }]
  outputs := List.replicate 4
    { value := 7, spkVersion := 0, spkScript := [0x51], covenant := some ⟨⟨9⟩, 0⟩ }
  payload := envelopeBytes counterEnvelope

/-- A runtime that rebuilds what was accepted. -/
def rebuildAccepted : Rebuild Unit := fun _ _ _ accepted ↦
  .ok { value := accepted.value, spkVersion := accepted.spkVersion
        spkScript := accepted.spkScript, covenant := accepted.covenant }

theorem preprocess_law_counter :
    let m := counterManifest ["counter"] (by decide)
    let m' := counterManifest ["other", "counter"] (by decide)
    ApprovedManifest.load counterSource (counterFile ["counter"]) = .ok m ∧
      ApprovedManifest.load counterSource (counterFile ["other", "counter"]) = .ok m' ∧
      (∃ o ∈ (preprocess rebuildAccepted m counterTransaction).outputs,
        ∃ d ∈ counterEnvelope.outputs, Decoded rebuildAccepted m counterTransaction 1 d o) ∧
      (preprocess rebuildAccepted m' counterTransaction).outputs.filter (·.outputIndex == 3) =
        (preprocess rebuildAccepted m counterTransaction).outputs.filter (·.outputIndex == 3) := by
  have hlimits : (counterManifest ["counter"] (by decide)).decodeLimits =
      some ⟨1024, 4, 32, 128⟩ := rfl
  have hdecode : decodeEnvelope counterTransaction.payload ⟨1024, 4, 32, 128⟩ =
      .ok counterEnvelope := rfl
  have hload : ApprovedManifest.load counterSource (counterFile ["counter"]) =
      .ok (counterManifest ["counter"] (by decide)) := rfl
  have hload' : ApprovedManifest.load counterSource (counterFile ["other", "counter"]) =
      .ok (counterManifest ["other", "counter"] (by decide)) := rfl
  have hextends := load_extends (by decide) hload hload'
  obtain ⟨hsound, -, hcomplete⟩ :=
    preprocess_law rebuildAccepted (counterManifest ["counter"] (by decide)) counterTransaction
  obtain ⟨-, -, hmono⟩ := hcomplete _ _ hlimits hdecode
  refine ⟨hload, hload', ?_,
    ((hmono _ hextends).2 _ List.mem_cons_self fun _ ↦ by decide +kernel).1⟩
  have hmem : ∃ o, o ∈ (preprocess rebuildAccepted
      (counterManifest ["counter"] (by decide)) counterTransaction).outputs := ⟨_, .head _⟩
  obtain ⟨o, ho⟩ := hmem
  obtain ⟨limits, e, hl, he, d, hd, hdec⟩ := hsound o ho
  obtain rfl := Option.some.inj (hlimits.symm.trans hl)
  obtain rfl := Except.ok.inj (hdecode.symm.trans he)
  exact ⟨o, ho, d, hd, hdec⟩

end Kascov.Argent
