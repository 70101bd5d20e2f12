import Kascov.Kcc1.Invocation
import Kascov.Sim.Simulate

/-!
# What a simulation executes

A spend that is executed should reveal the program that the template emits with the signer's
field replaced, under the selector and the sequence of the entrypoint.  It does so exactly
when the program of the request is the emitted form of its fields, the committed hash does not
occur before its slot, and the entrypoint asks for no age.
-/

namespace Kascov.Sim

open Consensus Splice

/-! ## Pushes of a script -/

/-- A script is whole and pushes some values and nothing else. -/
def Pushes (script : Bytes) (values : List Bytes) : Prop :=
  (disassemble script).2 = false ∧ (disassemble script).1.map pushValue = values.map some

theorem pushes_flatMap {values : List Bytes} (hfits : ∀ a ∈ values, Fits32 a) :
    Pushes (values.flatMap encodePush) values := by
  obtain ⟨insts, hpushed, hreads⟩ := reads_flatMap_encodePush hfits 0
  have hwhole := hreads [] [] false (.done _)
  rw [List.append_nil, List.append_nil] at hwhole
  rw [Pushes, hwhole.disassemble_eq]
  exact ⟨rfl, hpushed⟩

/-- A value too long for a push is written behind a shorter length. -/
theorem encodePush_long {value : Bytes} (hlong : ¬Fits32 value) :
    ∃ header n, encodePush value = 0x4e :: (header ++ value) ∧ Declares 0x4e header n ∧
      n < value.length := by
  have hlen : 2 ^ 32 ≤ value.length := Nat.le_of_not_lt hlong
  have hsmall : smallOpcode value = none := by
    match value, hlen with
    | _ :: _ :: _, _ => rfl
  -- the four bytes of the length keep less than the length
  have hdecl := Declares.pushData4 (UInt8.ofNat value.length) (UInt8.ofNat (value.length / 2 ^ 8))
    (UInt8.ofNat (value.length / 2 ^ 16)) (UInt8.ofNat (value.length / 2 ^ 24))
  refine ⟨_, _, ?_, hdecl, hdecl.lt_two_pow.trans_le hlen⟩
  rw [encodePush, hsmall, lengthPrefix, if_neg (by omega), if_neg (by omega), if_neg (by omega)]
  rfl

/-- A value too long for a push is read as two instructions at least. -/
theorem reads_long {value : Bytes} (hlong : ¬Fits32 value) (offset : Nat) :
    ∃ insts truncated, Reads offset (encodePush value) insts truncated ∧ 2 ≤ insts.length := by
  obtain ⟨header, n, hpush, hdecl, hlt⟩ := encodePush_long hlong
  have htake : (value.take n).length = n := List.length_take_of_le hlt.le
  rw [← htake] at hdecl
  have htail := @disassembleFrom_reads (value.drop n).length
    (offset + (1 + header.length + (value.take n).length)) (value.drop n) le_rfl
  have hread := Reads.push hdecl htail
  rw [List.take_append_drop, ← hpush] at hread
  refine ⟨_, _, hread, Nat.succ_le_succ (List.length_pos_iff.mpr fun hnil ↦ ?_)⟩
  rw [hnil] at htail
  have hrest := congrArg List.length htail.nil.1
  rw [List.length_drop, List.length_nil] at hrest
  omega

/-- The pushes of a script that ends in a program, as a node reads them. -/
theorem pushes_last {values expected : List Bytes} {last program : Bytes}
    (hfits : ∀ a ∈ values, Fits32 a) (hlen : expected.length = values.length) :
    Pushes ((values ++ [last]).flatMap encodePush) (expected ++ [program]) ↔
      Fits32 last ∧ expected = values ∧ program = last := by
  have hall : Fits32 last → ∀ a ∈ values ++ [last], Fits32 a := by
    intro hlast a ha
    rcases List.mem_append.mp ha with ha | ha
    · exact hfits a ha
    · rwa [List.mem_singleton.mp ha]
  constructor
  · rintro ⟨-, hpushed⟩
    have hlast : Fits32 last := by
      by_contra hlong
      obtain ⟨insts, hvalues, hreads⟩ := reads_flatMap_encodePush hfits 0
      obtain ⟨tail, truncated, htail, htwo⟩ :=
        reads_long hlong (0 + (values.flatMap encodePush).length)
      have hwhole := hreads _ _ _ htail
      rw [← List.flatMap_singleton encodePush last, ← List.flatMap_append] at hwhole
      rw [hwhole.disassemble_eq] at hpushed
      have hcount := congrArg List.length hpushed
      have hinsts := congrArg List.length hvalues
      simp only [List.length_map, List.length_append, List.length_singleton] at hcount hinsts
      omega
    have hread := (pushes_flatMap (hall hlast)).2
    rw [hpushed] at hread
    have heq := List.map_injective_iff.mpr (Option.some_injective Bytes) hread
    obtain ⟨rfl, hprogram⟩ := List.append_inj heq hlen
    exact ⟨hlast, rfl, List.singleton_inj.mp hprogram⟩
  · rintro ⟨hlast, rfl, rfl⟩
    exact pushes_flatMap (hall hlast)

/-! ## Faithful simulations -/

/-- What is recognised in a request. -/
structure Recognised (crates : Crates) (req : SimRequest) where
  program : Bytes
  template : String
  fields : List Field
  selector : Option I64
  signer : String
  committed : Bytes
  hex : requestProgram req = some program
  decoded : (defaultRegistry crates.fixture).decode 0 program = ⟨some template, fields⟩
  supported : spec template req.entrypoint = some (selector, signer)
  signed : fieldNamed fields signer = some committed

/-- What the template of a name emits for some fields. -/
def emitTemplate (crates : Crates) (template : String) (fields : List Field) : Option Bytes :=
  (templateNamed (defaultRegistry crates.fixture) template).bind (·.emit (fieldArgs fields))

/-- Where the template of a name emits a field of 32 bytes. -/
def templateOffset (crates : Crates) (template : String) (fields : List Field) (label : String) :
    Option Nat :=
  (templateNamed (defaultRegistry crates.fixture) template).bind
    (·.slotOffset (fieldArgs fields) label)

section

variable {crates : Crates} (standIn other : Keypair) {req : SimRequest}

/-- A transaction spends and reveals the program with the stand-in signer, under the selector
and the age of the entrypoint. -/
def ReInstantiates (r : Recognised crates req) (mtx : MutableTransaction) : Prop :=
  ∃ program input sig,
    emitTemplate crates r.template (replaceField r.fields r.signer
      (crates.blake2b32 standIn.xonly.val).val) = some program ∧
    mtx.entries.map (·.scriptPublicKey) = [crates.payToScriptHashScript program] ∧
    mtx.tx.inputs = [input] ∧
    Pushes input.signatureScript
      (standIn.xonly.val :: sig :: ((r.selector.map snum).toList ++ [program])) ∧
    ageGate r.template req.entrypoint ≤ input.sequence

/-- A request is answered, and where the answer is ok, by such a transaction. -/
structure Faithful (r : Recognised crates req) : Prop where
  returns : ∃ result, simulate crates standIn other req = some result
  spends : ∀ result, simulate crates standIn other req = some result → result.ok = true →
    ∃ mtx, executed crates standIn other req = .ok (r.template, mtx) ∧
      result = simResult crates req r.template mtx ∧ ReInstantiates standIn r mtx

/-- A request is refused: the committed field is no hash, or the contract lacks the party that
is to be paid. -/
def Refused (r : Recognised crates req) : Prop :=
  r.committed.length ≠ 32 ∨
    ((req.recipient = "buyer" ∨ req.recipient = "seller") ∧
      fieldNamed r.fields req.recipient = none)

/-- A request that is re-targeted faithfully. -/
structure Retargets (r : Recognised crates req) : Prop where
  payee : req.recipient = "buyer" ∨ req.recipient = "seller" →
    ∀ key, fieldNamed r.fields req.recipient = some key → key.length = 32
  ungated : ageGate r.template req.entrypoint = 0
  fits : Fits32 r.program
  canonical : emitTemplate crates r.template r.fields = some r.program
  first : position r.committed r.program =
      templateOffset crates r.template r.fields r.signer ∨
    (crates.blake2b32 standIn.xonly.val).val = r.committed

end

/-! ## What the signers sign for -/

/-- The templates with the fields that their signers must match. -/
def signerFields : List (String × String) :=
  [("SilverScript · Escrow", "arbiter_hash"), ("SilverScript · Mecenas", "funder_hash"),
    ("SilverScript · LastWill", "cold_hash"), ("SilverScript · LastWill", "inheritor_hash")]

theorem spec_cases {template entrypoint signer : String} {selector : Option I64}
    (h : spec template entrypoint = some (selector, signer)) :
    (template, entrypoint, selector, signer) ∈
      [("SilverScript · Escrow", "spend", none, "arbiter_hash"),
        ("SilverScript · Mecenas", "reclaim", some ⟨1, by decide⟩, "funder_hash"),
        ("SilverScript · LastWill", "cold", some ⟨1, by decide⟩, "cold_hash"),
        ("SilverScript · LastWill", "inherit", some ⟨0, by decide⟩, "inheritor_hash")] := by
  simp only [List.mem_cons, Prod.mk.injEq, List.not_mem_nil, or_false]
  have hpair : ∀ {x : Option I64 × String}, some x = some (selector, signer) →
      selector = x.1 ∧ signer = x.2 := by
    intro x hx
    rw [Option.some.inj hx]
    exact ⟨rfl, rfl⟩
  unfold spec at h
  split at h
  · rename_i hcase
    exact .inl ⟨hcase.1, hcase.2, hpair h⟩
  · split at h
    · rename_i hcase
      exact .inr (.inl ⟨hcase.1, hcase.2, hpair h⟩)
    · split at h
      · rename_i hcase
        exact .inr (.inr (.inl ⟨hcase.1, hcase.2, hpair h⟩))
      · split at h
        · rename_i hcase
          exact .inr (.inr (.inr ⟨hcase.1, hcase.2, hpair h⟩))
        · cases h

theorem spec_mem {template entrypoint signer : String} {selector : Option I64}
    (h : spec template entrypoint = some (selector, signer)) :
    (template, signer) ∈ signerFields := by
  have hcases := spec_cases h
  simp only [List.mem_cons, Prod.mk.injEq, List.not_mem_nil, or_false] at hcases
  rcases hcases with ⟨rfl, -, -, rfl⟩ | ⟨rfl, -, -, rfl⟩ | ⟨rfl, -, -, rfl⟩ | ⟨rfl, -, -, rfl⟩
  · decide
  · decide
  · decide
  · decide

/-- The lab asks for the same selector and field, where it has the entrypoint. -/
theorem spec_agrees {template entrypoint signer : String} {selector : Option I64}
    (h : spec template entrypoint = some (selector, signer)) :
    (∃ msg, entrypointSpec template entrypoint = .error msg) ∨
      ∃ sequence, entrypointSpec template entrypoint = .ok (.pureSig selector signer sequence) := by
  have hcases := spec_cases h
  simp only [List.mem_cons, Prod.mk.injEq, List.not_mem_nil, or_false] at hcases
  rcases hcases with ⟨rfl, rfl, rfl, rfl⟩ | ⟨rfl, rfl, rfl, rfl⟩ | ⟨rfl, rfl, rfl, rfl⟩ |
    ⟨rfl, rfl, rfl, rfl⟩
  · exact .inl ⟨_, rfl⟩
  · exact .inr ⟨0, by simp [entrypointSpec]⟩
  · exact .inr ⟨0, by simp [entrypointSpec]⟩
  · exact .inr ⟨180, by simp [entrypointSpec]⟩

/-- Each signer's field has one slot, and what the examples emit has the shortest form. -/
theorem silverscript_slots : ∀ sk ∈ silverscriptSkeletons,
    (∀ l ∈ slotLabels sk.items, l ∈ sk.paramOrder) ∧ (∀ item ∈ sk.items, item.Minimal) ∧
      ∀ x ∈ signerFields, x.1 = sk.name → (slotLabels sk.items).count x.2 = 1 := by
  decide +kernel

theorem signerFields_names : ∀ x ∈ signerFields, x.1 ∈ silverscriptNames := by decide

namespace Recognised

variable {crates : Crates} {req : SimRequest} (r : Recognised crates req)

/-- The skeleton of what is recognised. -/
theorem exists_skeleton : ∃ sk, templateNamed (defaultRegistry crates.fixture) r.template =
    some sk ∧ sk.OneSlot r.signer ∧ (disassemble r.program).2 = false ∧
      sk.matchScript (disassemble r.program).1 = some r.fields := by
  have hmem := spec_mem r.supported
  have htemplate : ((defaultRegistry crates.fixture).decode 0 r.program).template =
      some r.template := by rw [r.decoded]
  obtain ⟨sk, hsk, hname, hnamed, hwhole, hmatch⟩ :=
    silverscript_recognised htemplate (signerFields_names _ hmem)
  rw [r.decoded] at hmatch
  obtain ⟨hlabels, hminimal, honce⟩ := silverscript_slots sk hsk
  exact ⟨sk, hnamed, ⟨honce _ hmem hname.symm, hlabels, hminimal⟩, hwhole, hmatch⟩

end Recognised

/-- Every request with a template and an entrypoint that are supported is recognised. -/
theorem exists_recognised {crates : Crates} {req : SimRequest} {program : Bytes}
    {template signer : String} {selector : Option I64} (hex : requestProgram req = some program)
    (htemplate : ((defaultRegistry crates.fixture).decode 0 program).template = some template)
    (hspec : spec template req.entrypoint = some (selector, signer)) :
    ∃ r : Recognised crates req, r.program = program := by
  have hmem := spec_mem hspec
  obtain ⟨sk, hsk, hname, -, -, hmatch⟩ :=
    silverscript_recognised htemplate (signerFields_names _ hmem)
  obtain ⟨hlabels, hminimal, honce⟩ := silverscript_slots sk hsk
  obtain ⟨committed, hsigned, -⟩ :=
    exists_fieldNamed ⟨honce _ hmem hname.symm, hlabels, hminimal⟩ hmatch
  exact ⟨⟨program, template, _, selector, signer, committed, hex, by rw [← htemplate], hspec,
    hsigned⟩, rfl⟩

/-! ## The run -/

section

variable {crates : Crates} (standIn other : Keypair) {req : SimRequest}

theorem orRefuse_bind {α β : Type} (a : α) (msg : String) (f : α → Except Halt β) :
    (orRefuse (some a) msg >>= f) = f a := rfl

/-- The run of a recognised request. -/
theorem executed_recognised (r : Recognised crates req) : executed crates standIn other req = (do
    let program2 ← orRefuse
      (spliceField r.program r.committed (crates.blake2b32 standIn.xonly.val))
      "couldn't re-instantiate the contract"
    let recipientPk ← recipientKey r.fields req.recipient standIn other
    let destSpk ← p2pkSpk crates recipientPk
    pure (r.template, signedSpend crates standIn req r.selector program2 destSpk)) := by
  rw [executed, r.hex, orRefuse_bind, buildSpend]
  dsimp only
  rw [r.decoded, orRefuse_bind, r.supported, orRefuse_bind]
  dsimp only
  rw [r.signed, orRefuse_bind]

/-- What is refused is answered. -/
theorem faithful_of_refused {r : Recognised crates req} {msg : String}
    (h : executed crates standIn other req = .error (.refused msg)) :
    Faithful standIn other r := by
  have hsim : simulate crates standIn other req = some (.err req.entrypoint msg) := by
    rw [simulate, h]
  refine ⟨⟨_, hsim⟩, fun result hresult hok ↦ ?_⟩
  rw [hsim] at hresult
  rw [← Option.some.inj hresult] at hok
  cases hok

/-- What panics is not answered. -/
theorem not_faithful_of_panicked {r : Recognised crates req}
    (h : executed crates standIn other req = .error .panicked) : ¬Faithful standIn other r := by
  rintro ⟨⟨result, hresult⟩, -⟩
  rw [simulate, h] at hresult
  cases hresult

/-- What is executed is answered, and judged by its transaction. -/
theorem faithful_of_executed {r : Recognised crates req} {mtx : MutableTransaction}
    (h : executed crates standIn other req = .ok (r.template, mtx)) :
    Faithful standIn other r ↔ ReInstantiates standIn r mtx := by
  have hsim : simulate crates standIn other req = some (simResult crates req r.template mtx) := by
    rw [simulate, h]
  constructor
  · rintro ⟨-, hspends⟩
    obtain ⟨mtx', hexecuted, -, hspend⟩ := hspends _ hsim rfl
    rw [h] at hexecuted
    rwa [(Prod.mk.inj (Except.ok.inj hexecuted)).2]
  · intro hspend
    refine ⟨⟨_, hsim⟩, fun result hresult _ ↦ ⟨mtx, h, ?_, hspend⟩⟩
    rw [hsim] at hresult
    exact (Option.some.inj hresult).symm

/-- What the selectors are pushed as is short. -/
theorem selector_fits (r : Recognised crates req) :
    ∀ a ∈ (r.selector.map snum).toList, Fits32 a := by
  have hcases := spec_cases r.supported
  simp only [List.mem_cons, Prod.mk.injEq, List.not_mem_nil, or_false] at hcases
  rcases hcases with ⟨-, -, h, -⟩ | ⟨-, -, h, -⟩ | ⟨-, -, h, -⟩ | ⟨-, -, h, -⟩
  · rw [h]
    exact fun _ ha ↦ absurd ha List.not_mem_nil
  · rw [h]
    unfold Fits32
    decide
  · rw [h]
    unfold Fits32
    decide
  · rw [h]
    unfold Fits32
    decide

/-- A spend of a program re-instantiates the contract exactly when the program is what the
template emits, it can be pushed, and no age is asked for. -/
theorem signedSpend_iff (r : Recognised crates req) (program : Bytes)
    (destSpk : ScriptPublicKey) :
    ReInstantiates standIn r (signedSpend crates standIn req r.selector program destSpk) ↔
      emitTemplate crates r.template (replaceField r.fields r.signer
        (crates.blake2b32 standIn.xonly.val).val) = some program ∧
      Fits32 program ∧ ageGate r.template req.entrypoint = 0 := by
  let sigArg := (standIn.signSchnorr (crates.schnorrSignatureHash
    (unsignedSpend crates req program destSpk))).val ++ [SIG_HASH_ALL]
  let values := standIn.xonly.val :: sigArg :: (r.selector.map snum).toList
  have hfits : ∀ a ∈ values, Fits32 a := by
    refine List.forall_mem_cons.mpr ⟨?_, List.forall_mem_cons.mpr ⟨?_, selector_fits r⟩⟩
    · rw [Fits32, standIn.xonly.2]
      decide
    · rw [Fits32, List.length_append, (standIn.signSchnorr _).2]
      decide
  constructor
  · rintro ⟨program', input, sig, hemit, -, hinputs, hpushes, hage⟩
    obtain rfl := List.singleton_inj.mp hinputs
    obtain ⟨hprogram, -, rfl⟩ := (@pushes_last values (standIn.xonly.val :: sig ::
      (r.selector.map snum).toList) program program' hfits rfl).mp hpushes
    exact ⟨hemit, hprogram, UInt64.le_zero_iff.mp hage⟩
  · rintro ⟨hemit, hprogram, hage⟩
    exact ⟨program, _, sigArg, hemit, rfl, rfl,
      (pushes_last hfits rfl).mpr ⟨hprogram, rfl, rfl⟩, hage ▸ UInt64.le_refl _⟩

/-- A payee of 32 bytes is paid. -/
theorem paid_of_length {α : Type} {key : Bytes} (f : ScriptPublicKey → α) (h : key.length = 32) :
    (do
      let recipientPk ← (.ok key : Except Halt Bytes)
      let destSpk ← p2pkSpk crates recipientPk
      pure (f destSpk)) = .ok (f (crates.payToPubKeyScript key)) := by
  change (addressNew key >>= _) >>= _ = _
  rw [addressNew, if_pos h]
  rfl

theorem panics_of_length {α : Type} {key : Bytes} (f : ScriptPublicKey → α)
    (h : key.length ≠ 32) :
    (do
      let recipientPk ← (.ok key : Except Halt Bytes)
      let destSpk ← p2pkSpk crates recipientPk
      pure (f destSpk)) = .error .panicked := by
  change (addressNew key >>= _) >>= _ = _
  rw [addressNew, if_neg h]
  rfl

/-- Who is paid: a party that the contract lacks or names, or a key of 32 bytes. -/
inductive PaidTo (fields : List Field) (recipient : String) : Except Halt Bytes → Prop where
  | missing (hparty : recipient = "buyer" ∨ recipient = "seller")
      (hnone : fieldNamed fields recipient = none) (msg : String) :
      PaidTo fields recipient (.error (.refused msg))
  | party (hparty : recipient = "buyer" ∨ recipient = "seller") {key : Bytes}
      (hsome : fieldNamed fields recipient = some key) : PaidTo fields recipient (.ok key)
  | fresh (hnot : ¬(recipient = "buyer" ∨ recipient = "seller")) {key : Bytes}
      (hlen : key.length = 32) : PaidTo fields recipient (.ok key)

theorem recipientKey_paidTo (fields : List Field) (recipient : String) :
    PaidTo fields recipient (recipientKey fields recipient standIn other) := by
  have hparty : ∀ msg, (recipient = "buyer" ∨ recipient = "seller") →
      PaidTo fields recipient (orRefuse (fieldNamed fields recipient) msg) := by
    intro msg hwho
    cases hfield : fieldNamed fields recipient with
    | none => exact .missing hwho hfield msg
    | some key => exact .party hwho hfield
  rw [recipientKey]
  split
  · rename_i hbuyer
    have hpaid := hparty "this contract has no buyer" (.inl hbuyer)
    rwa [hbuyer] at hpaid ⊢
  · rename_i hbuyer
    split
    · rename_i hseller
      have hpaid := hparty "this contract has no seller" (.inr hseller)
      rwa [hseller] at hpaid ⊢
    · rename_i hseller
      split
      · exact .fresh (not_or.mpr ⟨hbuyer, hseller⟩) other.xonly.2
      · exact .fresh (not_or.mpr ⟨hbuyer, hseller⟩) standIn.xonly.2

/-- What the first overwriting gives is what the template emits exactly under the conditions
on the program. -/
theorem retargets_iff (r : Recognised crates req) {program2 : Bytes}
    (hlen : r.committed.length = 32)
    (hsplice : splice r.committed (crates.blake2b32 standIn.xonly.val).val r.program =
      some program2)
    (hpayee : req.recipient = "buyer" ∨ req.recipient = "seller" →
      ∀ key, fieldNamed r.fields req.recipient = some key → key.length = 32) :
    (emitTemplate crates r.template (replaceField r.fields r.signer
        (crates.blake2b32 standIn.xonly.val).val) = some program2 ∧
      Fits32 program2 ∧ ageGate r.template req.entrypoint = 0) ↔ Retargets standIn r := by
  obtain ⟨sk, hnamed, hslot, hwhole, hmatch⟩ := r.exists_skeleton
  have hnew := (crates.blake2b32 standIn.xonly.val).2
  obtain ⟨program, hemit, hiff⟩ := splice_retargets hslot hmatch hwhole r.signed hlen hnew
  have hcanonical : emitTemplate crates r.template r.fields = sk.emit (fieldArgs r.fields) := by
    rw [emitTemplate, hnamed]
    rfl
  have hoffset : templateOffset crates r.template r.fields r.signer =
      sk.slotOffset (fieldArgs r.fields) r.signer := by
    rw [templateOffset, hnamed]
    rfl
  have hreplaced : emitTemplate crates r.template (replaceField r.fields r.signer
      (crates.blake2b32 standIn.xonly.val).val) = some program := by
    rw [emitTemplate, hnamed]
    exact hemit
  have hfits : Fits32 program2 ↔ Fits32 r.program := by
    rw [Fits32, Fits32, length_splice hsplice (hnew.trans hlen.symm)]
  rw [hreplaced, hfits]
  rw [hsplice, eq_comm, ← hcanonical, ← hoffset] at hiff
  constructor
  · rintro ⟨hprogram, hshort, hage⟩
    obtain ⟨hcanon, hfirst⟩ := hiff.mp hprogram
    exact ⟨hpayee, hage, hshort, hcanon, hfirst⟩
  · intro h
    exact ⟨hiff.mpr ⟨h.canonical, h.first⟩, h.fits, h.ungated⟩

/-- A request is simulated faithfully exactly when it is refused, or re-targeted so. -/
theorem simulate_faithful_iff (r : Recognised crates req) :
    Faithful standIn other r ↔ Refused r ∨ Retargets standIn r := by
  have hrun := executed_recognised standIn other r
  by_cases hlen : r.committed.length = 32
  · obtain ⟨sk, -, hslot, -, hmatch⟩ := r.exists_skeleton
    obtain ⟨pos, hpos⟩ := field_stands hslot hmatch r.signed hlen
    obtain ⟨program2, hprogram2⟩ :=
      @splice_isSome _ _ _ (crates.blake2b32 standIn.xonly.val).val _ _ hpos
    rw [spliceField, if_neg (not_not.mpr hlen), hprogram2, orRefuse_bind] at hrun
    have hpaid := recipientKey_paidTo standIn other r.fields req.recipient
    generalize recipientKey r.fields req.recipient standIn other = payee at hrun hpaid
    cases hpaid with
    | missing hparty hnone msg =>
        exact iff_of_true (faithful_of_refused standIn other hrun) (.inl (.inr ⟨hparty, hnone⟩))
    | @party hparty key hsome =>
        have hnot : ¬Refused r := by
          rintro (hne | ⟨-, hnone⟩)
          · exact hne hlen
          · rw [hnone] at hsome
            cases hsome
        rw [or_iff_right hnot]
        by_cases hkey : key.length = 32
        · rw [faithful_of_executed standIn other (hrun.trans (paid_of_length _ hkey)),
            signedSpend_iff]
          refine retargets_iff standIn r hlen hprogram2 fun _ k hk ↦ ?_
          rwa [← Option.some.inj (hsome.symm.trans hk)]
        · exact iff_of_false (not_faithful_of_panicked standIn other
            (hrun.trans (panics_of_length _ hkey))) fun h ↦ hkey (h.payee hparty key hsome)
    | fresh hnotParty hkey =>
        have hnot : ¬Refused r := by
          rintro (hne | ⟨hparty, -⟩)
          · exact hne hlen
          · exact hnotParty hparty
        rw [or_iff_right hnot, faithful_of_executed standIn other
          (hrun.trans (paid_of_length _ hkey)), signedSpend_iff]
        exact retargets_iff standIn r hlen hprogram2 fun hparty ↦ absurd hparty hnotParty
  · have hrefused : executed crates standIn other req =
        .error (.refused "couldn't re-instantiate the contract") := by
      rw [hrun, spliceField, if_pos hlen]
      rfl
    exact iff_of_true (faithful_of_refused standIn other hrefused) (.inl (.inl hlen))

end

/-! ## Requests -/

theorem hexDigit_plain : ∀ n : Fin 16,
    Preflight.isWhitespace (hexDigit n.val) = false ∧ hexDigit n.val ≠ 'x' := by
  decide +kernel

theorem mem_toHex {bytes : Bytes} {c : Char} (h : c ∈ toHex bytes) :
    ∃ n : Fin 16, c = hexDigit n.val := by
  obtain ⟨b, -, hc⟩ := List.mem_flatMap.mp h
  have hb := b.toNat_lt
  simp only [List.mem_cons, List.not_mem_nil, or_false] at hc
  rcases hc with rfl | rfl
  · exact ⟨⟨b.toNat / 16, by omega⟩, rfl⟩
  · exact ⟨⟨b.toNat % 16, by omega⟩, rfl⟩

/-- A program in hex is the program of its request. -/
theorem requestProgram_toHex {req : SimRequest} {program : Bytes}
    (h : req.programHex = String.ofList (toHex program)) (hne : program ≠ []) :
    requestProgram req = some program := by
  have hplain : ∀ s : Text, (∀ c ∈ s, Preflight.isWhitespace c = false) →
      s.dropWhile Preflight.isWhitespace = s := by
    intro s hs
    cases s with
    | nil => rfl
    | cons c s => exact List.dropWhile_cons_of_neg (by simp [hs c List.mem_cons_self])
  have htrim : Preflight.trimText (toHex program) = toHex program := by
    have hs : ∀ c ∈ toHex program, Preflight.isWhitespace c = false := by
      intro c hc
      obtain ⟨n, rfl⟩ := mem_toHex hc
      exact (hexDigit_plain n).1
    rw [Preflight.trimText, hplain _ hs, hplain _ fun c hc ↦ hs c (List.mem_reverse.mp hc),
      List.reverse_reverse]
  have hmarker : Preflight.trimMarker (toHex program) = toHex program := by
    cases program with
    | nil => exact absurd rfl hne
    | cons b program =>
        have hx : hexDigit (b.toNat % 16) ≠ 'x' :=
          (hexDigit_plain ⟨b.toNat % 16, Nat.mod_lt _ (by decide)⟩).2
        rw [toHex, List.flatMap_cons, List.cons_append, List.cons_append, Preflight.trimMarker]
        exact fun _ hmark ↦ hx (List.cons.inj (List.cons.inj hmark).2).1
  rw [requestProgram, h, String.toList_ofList, htrim, hmarker, hexBytes_toHex, Option.filter_some,
    if_pos (decide_eq_true hne)]

/-- A hash, as a digest of 32 bytes. -/
def sampleHash (n : Nat) : Bytes32 := ⟨hexRow 32 n, by rw [hexRow, List.length_map,
  List.length_range]⟩

def sampleKey (n : Nat) : Keypair where
  xonly := sampleHash n
  signSchnorr _ := ⟨List.replicate 64 0x5a, List.length_replicate⟩

/-- Crates that hash the stand-in key of the samples as it hashes. -/
def sampleCrates : Crates where
  fixture _ := []
  blake2b32 _ := sampleHash 0x9407263be9dc3c4b5b9afbd02ebb5d5cbda687dfb57c65c1816c8cdca9b677a0
  payToScriptHashScript program := ⟨0, 0xaa :: 0x20 :: program.take 32 ++ [0x87]⟩
  payToPubKeyScript key := ⟨0, 0x20 :: key ++ [0xac]⟩
  schnorrSignatureHash _ := sampleHash 7
  runEngine _ _ := (true, "the spend satisfies the contract — a node would accept it", [])

def sampleStandIn : Keypair :=
  sampleKey 0x79be667ef9dcbbac55a06295ce870b07029bfcdb2dce28d959f2815b16f81798

def escrowRequest : SimRequest where
  programHex := .ofList (toHex ESCROW_A)
  entrypoint := "spend"
  recipient := "buyer"

def escrowRecognised : Recognised sampleCrates escrowRequest where
  program := ESCROW_A
  template := "SilverScript · Escrow"
  fields := [⟨"arbiter_hash", SENT_C32⟩, ⟨"buyer", SENT_A32⟩, ⟨"seller", SENT_B32⟩]
  selector := none
  signer := "arbiter_hash"
  committed := SENT_C32
  hex := requestProgram_toHex rfl (by decide +kernel)
  decoded := by decide +kernel
  supported := by decide
  signed := by decide

theorem simulate_faithful_escrow : Faithful sampleStandIn (sampleKey 1) escrowRecognised :=
  (simulate_faithful_iff sampleStandIn (sampleKey 1) escrowRecognised).mpr
    (.inr
      { payee := fun _ key hkey ↦ by
          obtain rfl := Option.some.inj hkey
          rfl
        ungated := by decide
        fits := by
          unfold Fits32
          decide +kernel
        canonical := by decide +kernel
        first := .inl (by decide +kernel) })

/-! ### Requests that go wrong -/

def inheritRequest : SimRequest where
  programHex := .ofList (toHex LASTWILL_A)
  entrypoint := "inherit"

def inheritRecognised : Recognised sampleCrates inheritRequest where
  program := LASTWILL_A
  template := "SilverScript · LastWill"
  fields := [⟨"inheritor_hash", SENT_C32⟩, ⟨"cold_hash", SENT_D32⟩, ⟨"hot_hash", SENT_A32⟩]
  selector := some ⟨0, selector_zero⟩
  signer := "inheritor_hash"
  committed := SENT_C32
  hex := requestProgram_toHex rfl (by decide +kernel)
  decoded := by decide +kernel
  supported := by decide
  signed := by decide

/-- A last will whose inheritor holds the cold key as well. -/
def twinWill : Bytes := LASTWILL_A.map fun b ↦ if b = 0x44 then 0x33 else b

def twinRequest : SimRequest where
  programHex := .ofList (toHex twinWill)
  entrypoint := "cold"

def twinRecognised : Recognised sampleCrates twinRequest where
  program := twinWill
  template := "SilverScript · LastWill"
  fields := [⟨"inheritor_hash", SENT_C32⟩, ⟨"cold_hash", SENT_C32⟩, ⟨"hot_hash", SENT_A32⟩]
  selector := some ⟨1, selector_one⟩
  signer := "cold_hash"
  committed := SENT_C32
  hex := requestProgram_toHex rfl (by decide +kernel)
  decoded := by decide +kernel
  supported := by decide
  signed := by decide

/-- An escrow whose buyer is 33 bytes long. -/
def longBuyer : Bytes :=
  ESCROW_A.take 54 ++ 0x21 :: List.replicate 33 0x11 ++ ESCROW_A.drop 87

def longRequest : SimRequest where
  programHex := .ofList (toHex longBuyer)
  entrypoint := "spend"
  recipient := "buyer"

def longRecognised : Recognised sampleCrates longRequest where
  program := longBuyer
  template := "SilverScript · Escrow"
  fields := [⟨"arbiter_hash", SENT_C32⟩, ⟨"buyer", List.replicate 33 0x11⟩, ⟨"seller", SENT_B32⟩]
  selector := none
  signer := "arbiter_hash"
  committed := SENT_C32
  hex := requestProgram_toHex rfl (by decide +kernel)
  decoded := by decide +kernel
  supported := by decide
  signed := by decide

/-- The run of a request is the run of its program. -/
theorem executed_eq {crates : Crates} {standIn other : Keypair} {req : SimRequest}
    (r : Recognised crates req) : executed crates standIn other req =
      buildSpend crates standIn other req r.program := by
  rw [executed, r.hex]
  rfl

/-- What is seen of an executed spend is seen of one that re-instantiates the contract. -/
theorem Faithful.reInstantiates {crates : Crates} {standIn other : Keypair} {req : SimRequest}
    {r : Recognised crates req} (h : Faithful standIn other r) {β : Type}
    (see : MutableTransaction → β) (seen : β)
    (hseen : (buildSpend crates standIn other req r.program).toOption.map
      (fun x ↦ (x.1, see x.2)) = some (r.template, seen)) :
    ∃ mtx, see mtx = seen ∧ ReInstantiates standIn r mtx := by
  rw [← executed_eq] at hseen
  obtain ⟨⟨template, mtx⟩, hmtx, hpair⟩ := Option.map_eq_some_iff.mp hseen
  obtain ⟨rfl, rfl⟩ := Prod.mk.inj hpair
  refine ⟨mtx, rfl, (faithful_of_executed standIn other ?_).mp h⟩
  cases hrun : executed crates standIn other req with
  | error halt =>
      rw [hrun] at hmtx
      cases hmtx
  | ok x =>
      rw [hrun] at hmtx
      exact congrArg Except.ok (Option.some.inj hmtx)

/-- The spend of an inheritance has no age, a field that stands before the committed one is
replaced in its place, and a long key panics. -/
theorem simulate_not_faithful :
    ¬Faithful sampleStandIn (sampleKey 1) inheritRecognised ∧
      ¬Faithful sampleStandIn (sampleKey 1) twinRecognised ∧
        ¬Faithful sampleStandIn (sampleKey 1) longRecognised := by
  refine ⟨fun h ↦ ?_, fun h ↦ ?_, fun h ↦ ?_⟩
  · obtain ⟨mtx, hseen, -, input, -, -, -, hinputs, -, hage⟩ :=
      h.reInstantiates (fun mtx ↦ mtx.tx.inputs.map (·.sequence)) [0] (by decide +kernel)
    rw [hinputs] at hseen
    have hsequence : input.sequence = 0 := List.singleton_inj.mp hseen
    rw [hsequence] at hage
    exact absurd hage (by decide)
  · obtain ⟨mtx, hseen, program, input, sig, hemit, -, hinputs, hpushes, -⟩ :=
      h.reInstantiates (fun mtx ↦ mtx.tx.inputs.map fun input ↦ decide
        (((disassemble input.signatureScript).1.map pushValue).getLast? =
          some (emitTemplate sampleCrates twinRecognised.template
            (replaceField twinRecognised.fields twinRecognised.signer
              (sampleCrates.blake2b32 sampleStandIn.xonly.val).val))))
        [false] (by decide +kernel)
    rw [hinputs] at hseen
    refine of_decide_eq_false (List.singleton_inj.mp hseen) ?_
    rw [hpushes.2, hemit]
    rw [← List.cons_append, ← List.cons_append, ← List.singleton_append, List.map_append]
    exact List.getLast?_concat
  · have hpanic : executed sampleCrates sampleStandIn (sampleKey 1) longRequest =
        .error .panicked := by
      rw [executed_eq longRecognised]
      decide +kernel
    exact not_faithful_of_panicked _ _ hpanic h

end Kascov.Sim
