import Kascov.Argent.Envelope

/-!
# The approved manifest

Which applications a node decodes, under which limits.  An id is in the manifest once, so
what else the manifest holds has no say in what is found under it.
-/

namespace Kascov.Argent

open Fallible

variable {A : Type}

/-! ## The manifest -/

structure ApprovedApplication (A : Type) where
  id : String
  enabled : Bool
  limits : EnvelopeLimits
  artifactId : Bytes32
  primary : A
  dependencies : List A

structure ManifestRejection where
  applicationId : String
  code : String
  detail : String
deriving DecidableEq, Repr

structure ApprovedManifest (A : Type) where
  applications : List (ApprovedApplication A)
  rejections : List ManifestRejection
  nodup : (applications.map (·.id)).Nodup

namespace ApprovedManifest

/-- `ApprovedManifest::application`. -/
def application (m : ApprovedManifest A) (id : String) : Option (ApprovedApplication A) :=
  m.applications.find? (·.id == id)

end ApprovedManifest

/-- The wider of two limits, field by field. -/
def EnvelopeLimits.max (a b : EnvelopeLimits) : EnvelopeLimits where
  maxEnvelopeBytes := Nat.max a.maxEnvelopeBytes b.maxEnvelopeBytes
  maxOutputDeclarations := Nat.max a.maxOutputDeclarations b.maxOutputDeclarations
  maxActorNameBytes := Nat.max a.maxActorNameBytes b.maxActorNameBytes
  maxStateBytes := Nat.max a.maxStateBytes b.maxStateBytes

/-- `ApprovedManifest::decode_limits`: the widest of the enabled applications. -/
def ApprovedManifest.decodeLimits (m : ApprovedManifest A) : Option EnvelopeLimits :=
  match (m.applications.filter (·.enabled)).map (·.limits) with
  | [] => none
  | limits :: rest => some (rest.foldl .max limits)

/-! ## Loading -/

structure ArtifactFile where
  path : String
  sha256 : String
deriving DecidableEq, Repr

structure ApplicationFile where
  id : String
  enabled : Bool
  artifact : ArtifactFile
  dependencies : List ArtifactFile := []
  limits : EnvelopeLimits
deriving DecidableEq, Repr

structure ManifestFile where
  version : Nat
  applications : List ApplicationFile
deriving DecidableEq, Repr

/-- What the loader asks of the artifact files and of the argent runtime: `load_artifact`,
that a bundle of the artifacts builds, and the bytes of an artifact's id. -/
structure ArtifactSource (A : Type) where
  loadArtifact : ArtifactFile → Except (String × String) A
  bundle : A → List A → Except String Unit
  decodeId : A → Except String Bytes

/-- `load_application`. -/
def loadApplication (source : ArtifactSource A) (entry : ApplicationFile) :
    Except (String × String) (ApprovedApplication A) :=
  if !entry.limits.valid then
    .error ("invalid_limits", "all four envelope limits must be positive")
  else do
    let primary ← source.loadArtifact entry.artifact
    let dependencies ← entry.dependencies.mapM source.loadArtifact
    (source.bundle primary dependencies).mapError ("artifact_bundle", ·)
    let bytes ← (source.decodeId primary).mapError ("artifact_id", ·)
    match toBytes32 bytes with
    | none => .error ("artifact_id", s!"artifact ID has {bytes.length} bytes")
    | some artifactId =>
        .ok { id := entry.id, enabled := entry.enabled, limits := entry.limits, artifactId,
              primary, dependencies }

/-- The loop of `ApprovedManifest::load`, which knows the ids it has seen. -/
def loadEntries (source : ArtifactSource A) :
    List ApplicationFile → List String → List (ApprovedApplication A) × List ManifestRejection
  | [], _ => ([], [])
  | entry :: entries, ids =>
      if entry.id = "" then
        let (applications, rejections) := loadEntries source entries ids
        (applications, { applicationId := entry.id, code := "invalid_application_id",
                         detail := "application ID is empty" } :: rejections)
      else if entry.id ∈ ids then
        let (applications, rejections) := loadEntries source entries ids
        (applications, { applicationId := entry.id, code := "duplicate_application_id",
                         detail := "duplicate application ID `" ++ entry.id ++ "`" } ::
          rejections)
      else
        let (applications, rejections) := loadEntries source entries (entry.id :: ids)
        match loadApplication source entry with
        | .ok application => (application :: applications, rejections)
        | .error (code, detail) =>
            (applications, { applicationId := entry.id, code, detail } :: rejections)

theorem loadApplication_id {source : ArtifactSource A} {entry : ApplicationFile}
    {a : ApprovedApplication A} (h : loadApplication source entry = .ok a) : a.id = entry.id := by
  unfold loadApplication at h
  split at h
  · cases h
  · simp only [bind_eq_ok] at h
    obtain ⟨primary, -, dependencies, -, -, -, bytes, -, h⟩ := h
    split at h
    · cases h
    · rw [← Except.ok.inj h]

/-- One application an id, and none of an id that was seen before. -/
theorem loadEntries_ids (source : ArtifactSource A) (entries : List ApplicationFile)
    (ids : List String) : ((loadEntries source entries ids).1.map (·.id)).Nodup ∧
      ∀ a ∈ (loadEntries source entries ids).1, a.id ∉ ids := by
  induction entries generalizing ids with
  | nil => exact ⟨List.nodup_nil, nofun⟩
  | cons entry entries ih =>
      rw [loadEntries]
      by_cases hempty : entry.id = ""
      · rw [if_pos hempty]
        exact ih ids
      · rw [if_neg hempty]
        by_cases hseen : entry.id ∈ ids
        · rw [if_pos hseen]
          exact ih ids
        · rw [if_neg hseen]
          obtain ⟨hnodup, hnew⟩ := ih (entry.id :: ids)
          have hold : ∀ a ∈ (loadEntries source entries (entry.id :: ids)).1, a.id ∉ ids :=
            fun a ha h ↦ hnew a ha (List.mem_cons_of_mem _ h)
          dsimp only
          cases hload : loadApplication source entry with
          | error e => exact ⟨hnodup, hold⟩
          | ok a =>
              have hid := loadApplication_id hload
              refine ⟨List.nodup_cons.mpr ⟨?_, hnodup⟩, List.forall_mem_cons.mpr ⟨?_, hold⟩⟩
              · intro hmem
                obtain ⟨b, hb, hba⟩ := List.mem_map.mp hmem
                exact hnew b hb (List.mem_cons.mpr (.inl (hba.trans hid)))
              · rwa [hid]

inductive ManifestError where
  | version (v : Nat)
deriving DecidableEq, Repr

/-- `ApprovedManifest::load`, of a file that was read and parsed. -/
def ApprovedManifest.load (source : ArtifactSource A) (file : ManifestFile) :
    Except ManifestError (ApprovedManifest A) :=
  if file.version ≠ 1 then .error (.version file.version)
  else
    .ok { applications := (loadEntries source file.applications []).1
          rejections := (loadEntries source file.applications []).2
          nodup := (loadEntries_ids source file.applications []).1 }

/-! ## Limits -/

/-- Limits no wider than others. -/
structure EnvelopeLimits.Within (a b : EnvelopeLimits) : Prop where
  envelope : a.maxEnvelopeBytes ≤ b.maxEnvelopeBytes
  declarations : a.maxOutputDeclarations ≤ b.maxOutputDeclarations
  names : a.maxActorNameBytes ≤ b.maxActorNameBytes
  states : a.maxStateBytes ≤ b.maxStateBytes

namespace EnvelopeLimits

variable {a b c : EnvelopeLimits}

theorem max_within : (a.max b).Within c ↔ a.Within c ∧ b.Within c := by
  constructor
  · rintro ⟨h₁, h₂, h₃, h₄⟩
    exact ⟨⟨(Nat.max_le.mp h₁).1, (Nat.max_le.mp h₂).1, (Nat.max_le.mp h₃).1, (Nat.max_le.mp h₄).1⟩,
      ⟨(Nat.max_le.mp h₁).2, (Nat.max_le.mp h₂).2, (Nat.max_le.mp h₃).2, (Nat.max_le.mp h₄).2⟩⟩
  · rintro ⟨⟨h₁, h₂, h₃, h₄⟩, k₁, k₂, k₃, k₄⟩
    exact ⟨Nat.max_le.mpr ⟨h₁, k₁⟩, Nat.max_le.mpr ⟨h₂, k₂⟩, Nat.max_le.mpr ⟨h₃, k₃⟩,
      Nat.max_le.mpr ⟨h₄, k₄⟩⟩

theorem foldl_max_within {rest : List EnvelopeLimits} :
    (rest.foldl .max a).Within c ↔ ∀ l ∈ a :: rest, l.Within c := by
  induction rest generalizing a with
  | nil => simp
  | cons l rest ih =>
      rw [List.foldl_cons, ih, List.forall_mem_cons, max_within, List.forall_mem_cons,
        List.forall_mem_cons, and_assoc]

theorem Within.refl (a : EnvelopeLimits) : a.Within a :=
  ⟨Nat.le_refl _, Nat.le_refl _, Nat.le_refl _, Nat.le_refl _⟩

end EnvelopeLimits

/-- The limits a manifest decodes under are the least that hold every enabled
application's. -/
theorem ApprovedManifest.decodeLimits_within {m : ApprovedManifest A} {limits c : EnvelopeLimits}
    (h : m.decodeLimits = some limits) :
    limits.Within c ↔ ∀ a ∈ m.applications, a.enabled → a.limits.Within c := by
  have hlists : ∀ l rest, (m.applications.filter (·.enabled)).map (·.limits) = l :: rest →
      ((∀ x ∈ l :: rest, x.Within c) ↔ ∀ a ∈ m.applications, a.enabled → a.limits.Within c) := by
    intro l rest hl
    rw [← hl, List.forall_mem_map]
    simp only [List.mem_filter, and_imp]
  unfold decodeLimits at h
  split at h
  · cases h
  · rename_i l rest hl
    rw [← Option.some.inj h, EnvelopeLimits.foldl_max_within, hlists l rest hl]

theorem ApprovedManifest.decodeLimits_isSome {m : ApprovedManifest A} :
    m.decodeLimits.isSome ↔ ∃ a ∈ m.applications, a.enabled = true := by
  unfold decodeLimits
  cases hl : (m.applications.filter (·.enabled)).map (·.limits) with
  | nil =>
      rw [List.map_eq_nil_iff, List.filter_eq_nil_iff] at hl
      simpa using hl
  | cons l rest =>
      have hne : m.applications.filter (·.enabled) ≠ [] := by
        rintro hnil
        rw [hnil] at hl
        cases hl
      obtain ⟨a, ha⟩ := List.exists_mem_of_ne_nil _ hne
      simpa using ⟨a, List.mem_filter.mp ha⟩

/-- Wider limits accept what narrower ones accept. -/
theorem Encodable.mono {a b : EnvelopeLimits} {e : ArgiEnvelope} (he : Encodable a e)
    (h : a.Within b) : Encodable b e where
  count := he.count.trans h.declarations
  countWidth := he.countWidth
  payloadWidth := he.payloadWidth
  outputs := ⟨fun d hd ↦
    let fits := (he.outputs.1 d hd).1
    ⟨{ fits with applicationId := fits.applicationId.trans h.names
                 actorPath := fits.actorPath.trans h.names
                 stateJson := fits.stateJson.trans h.states }, (he.outputs.1 d hd).2⟩,
    he.outputs.2⟩
  total := he.total.trans h.envelope

/-! ## Additions -/

/-- A manifest with further applications, of new ids. -/
def ApprovedManifest.Extends (m m' : ApprovedManifest A) : Prop :=
  m'.applications.filter (fun a ↦ a.id ∈ m.applications.map (·.id)) = m.applications

namespace ApprovedManifest

variable {m m' : ApprovedManifest A}

theorem Extends.mem (h : m.Extends m') {a : ApprovedApplication A} (ha : a ∈ m.applications) :
    a ∈ m'.applications := by
  rw [← h] at ha
  exact (List.mem_filter.mp ha).1

/-- An addition has no say in what is found under an id that is not its own. -/
theorem Extends.application_eq (h : m.Extends m') {id : String}
    (hid : id ∈ m'.applications.map (·.id) → id ∈ m.applications.map (·.id)) :
    m'.application id = m.application id := by
  unfold application
  by_cases hold : id ∈ m.applications.map (·.id)
  · rw [← h, List.find?_filter]
    refine congrArg (List.find? · m'.applications) (funext fun a ↦ ?_)
    by_cases ha : a.id = id
    · rw [ha]
      simp [hold]
    · simp [ha]
  · have hnone : ∀ l : List (ApprovedApplication A), id ∉ l.map (·.id) →
        l.find? (·.id == id) = none := by
      intro l hl
      rw [List.find?_eq_none]
      intro a ha hc
      exact hl (List.mem_map.mpr ⟨a, ha, beq_iff_eq.mp hc⟩)
    rw [hnone _ hold, hnone _ (mt hid hold)]

/-- Additions widen the limits. -/
theorem Extends.decodeLimits (h : m.Extends m') {limits : EnvelopeLimits}
    (hm : m.decodeLimits = some limits) :
    ∃ limits', m'.decodeLimits = some limits' ∧ limits.Within limits' := by
  obtain ⟨a, ha, henabled⟩ := decodeLimits_isSome.mp (Option.isSome_of_mem hm)
  obtain ⟨limits', hm'⟩ :=
    Option.isSome_iff_exists.mp (decodeLimits_isSome.mpr ⟨a, h.mem ha, henabled⟩)
  have hall := (decodeLimits_within (c := limits') hm').mp (.refl limits')
  exact ⟨limits', hm', (decodeLimits_within hm).mpr fun b hb ↦ hall b (h.mem hb)⟩

end ApprovedManifest

/-- The entries of some ids load as they do among others. -/
theorem loadEntries_filter (source : ArtifactSource A) (own : List String)
    (entries : List ApplicationFile) {ids ids' : List String}
    (hids : ∀ id ∈ own, id ∈ ids' ↔ id ∈ ids) :
    (loadEntries source entries ids').1.filter (·.id ∈ own) =
      (loadEntries source (entries.filter (·.id ∈ own)) ids).1 := by
  induction entries generalizing ids ids' with
  | nil => rfl
  | cons entry entries ih =>
      have hcons : ∀ id ∈ own, id ∈ entry.id :: ids' ↔ id ∈ entry.id :: ids := by
        intro id hid
        rw [List.mem_cons, List.mem_cons, hids id hid]
      by_cases hown : entry.id ∈ own
      · rw [List.filter_cons_of_pos (by simpa using hown), loadEntries, loadEntries]
        by_cases hempty : entry.id = ""
        · rw [if_pos hempty, if_pos hempty]
          exact ih hids
        · rw [if_neg hempty, if_neg hempty]
          by_cases hseen : entry.id ∈ ids
          · rw [if_pos hseen, if_pos ((hids _ hown).mpr hseen)]
            exact ih hids
          · rw [if_neg hseen, if_neg (mt (hids _ hown).mp hseen)]
            dsimp only
            cases hload : loadApplication source entry with
            | error e => exact ih hcons
            | ok a =>
                have ha : a.id ∈ own := loadApplication_id hload ▸ hown
                dsimp only
                rw [List.filter_cons_of_pos (by simpa using ha), ih hcons]
      · have hstay : ∀ id ∈ own, id ∈ entry.id :: ids' ↔ id ∈ ids := by
          intro id hid
          have hne : id ≠ entry.id := fun heq ↦ hown (heq ▸ hid)
          rw [List.mem_cons, or_iff_right hne, hids id hid]
        rw [List.filter_cons_of_neg (by simpa using hown), loadEntries]
        by_cases hempty : entry.id = ""
        · rw [if_pos hempty]
          exact ih hids
        · rw [if_neg hempty]
          by_cases hseen : entry.id ∈ ids'
          · rw [if_pos hseen]
            exact ih hids
          · rw [if_neg hseen]
            dsimp only
            cases hload : loadApplication source entry with
            | error e => exact ih hstay
            | ok a =>
                have ha : a.id ∉ own := by
                  rwa [loadApplication_id hload]
                dsimp only
                rw [List.filter_cons_of_neg (by simpa using ha), ih hstay]

/-- A file with further entries, of new ids, loads as an extension. -/
theorem load_extends {source : ArtifactSource A} {file file' : ManifestFile}
    {m m' : ApprovedManifest A}
    (hfile : file'.applications.filter (fun e ↦ e.id ∈ file.applications.map (·.id)) =
      file.applications)
    (h : ApprovedManifest.load source file = .ok m)
    (h' : ApprovedManifest.load source file' = .ok m') : m.Extends m' := by
  have happs : ∀ {f : ManifestFile} {m : ApprovedManifest A},
      ApprovedManifest.load source f = .ok m →
        m.applications = (loadEntries source f.applications []).1 := by
    intro f m hload
    unfold ApprovedManifest.load at hload
    split at hload
    · cases hload
    · rw [← Except.ok.inj hload]
  have hown := @loadEntries_filter A source (file.applications.map (·.id)) file'.applications
    [] [] fun _ _ ↦ Iff.rfl
  rw [hfile, ← happs h, ← happs h'] at hown
  have hsub : ∀ a ∈ m.applications, a.id ∈ file.applications.map (·.id) := by
    intro a ha
    rw [← hown] at ha
    simpa using (List.mem_filter.mp ha).2
  have hself : (m'.applications.filter (·.id ∈ file.applications.map (·.id))).filter
      (fun a ↦ a.id ∈ m.applications.map (·.id)) = m.applications := by
    rw [hown, List.filter_eq_self]
    intro a ha
    simpa using ⟨a, ha, rfl⟩
  rw [List.filter_filter] at hself
  refine (List.filter_congr fun a _ ↦ ?_).trans hself
  by_cases ha : a.id ∈ m.applications.map (·.id)
  · obtain ⟨b, hb, hba⟩ := List.mem_map.mp ha
    have hfileId := hsub b hb
    rw [hba] at hfileId
    rw [decide_eq_true ha, decide_eq_true hfileId, Bool.and_true]
  · rw [decide_eq_false ha, Bool.false_and]

end Kascov.Argent
