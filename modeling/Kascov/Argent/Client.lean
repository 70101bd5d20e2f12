import Kascov.Argent.Envelope
import Kascov.Passport.Claim

/-!
# The envelope as the JS client writes it

The client has an encoder of its own for the payloads that the decoder reads.  It is given
values that need not be bytes, integers or well-formed text; what it writes of them is what
the encoder of the indexer writes of the envelope that they mean.
-/

namespace Kascov

open LittleEndian Fallible

namespace Argent

namespace Js

/-! ## The values -/

/-- What stands where bytes are asked for.  The items of an array are integers. -/
inductive BytesValue where
  | uint8Array (b : Bytes)
  | array (items : List Int)
  | other
deriving DecidableEq

/-- What stands where an integer is asked for.  Values that are no integers are told apart by
a name. -/
inductive NumberValue where
  | integer (n : Int)
  | other (name : String)
deriving DecidableEq

/-- The texts are as the text encoder is given them, which makes a string of any value. -/
structure Output where
  outputIndex : NumberValue
  applicationId : JsString
  artifactId : BytesValue
  actorPath : JsString
  stateJson : JsString
deriving DecidableEq

/-- A field that is absent, or falsy, is `none`. -/
structure Envelope where
  applicationPayload : Option BytesValue
  outputs : Option (List Output)
deriving DecidableEq

inductive ArgiError where
  | notBytes (field : String)
  | u16
  | u32
  | outputCount
  | duplicateIndex
  | artifactLength
  | name
  | state
  | envelope
deriving DecidableEq, Repr

/-- The message of a `TypeError` or a `RangeError`. -/
def ArgiError.message : ArgiError → String
  | .notBytes field => field ++ " must be a Uint8Array"
  | .u16 => "ARGI u16 value is out of range"
  | .u32 => "ARGI u32 value is out of range"
  | .outputCount => "ARGI output count exceeds its limit"
  | .duplicateIndex => "duplicate ARGI output index"
  | .artifactLength => "artifactId must contain 32 bytes"
  | .name => "ARGI actor or application name exceeds its limit"
  | .state => "ARGI state exceeds its limit"
  | .envelope => "ARGI envelope exceeds its limit"

/-- `DEFAULT_ARGI_LIMITS`. -/
def defaultArgiLimits : EnvelopeLimits where
  maxEnvelopeBytes := 64 * 1024
  maxOutputDeclarations := 64
  maxActorNameBytes := 128
  maxStateBytes := 32 * 1024

/-! ## The encoder -/

/-- `bytes`.  `Uint8Array.from` keeps the low byte of an item. -/
def bytes (value : BytesValue) (field : String) : Except ArgiError Bytes :=
  match value with
  | .uint8Array b => .ok b
  | .array items => .ok (items.map fun n ↦ UInt8.ofNat (n % 256).toNat)
  | .other => .error (.notBytes field)

/-- The bytes of an integer in a range are pushed. -/
def putUint (limit : Nat) (error : ArgiError) (pushed : Nat → Bytes) (target : Bytes)
    (value : NumberValue) : Except ArgiError Bytes :=
  match value with
  | .integer n => if n < 0 ∨ limit < n then .error error else .ok (target ++ pushed n.toNat)
  | .other _ => .error error

/-- `putU16`. -/
def putU16 : Bytes → NumberValue → Except ArgiError Bytes :=
  putUint 0xffff .u16 fun n ↦ [.ofNat (n &&& 0xff), .ofNat (n >>> 8)]

/-- `putU32`. -/
def putU32 : Bytes → NumberValue → Except ArgiError Bytes :=
  putUint 0xffffffff .u32 fun n ↦ [.ofNat (n &&& 0xff), .ofNat ((n >>> 8) &&& 0xff),
    .ofNat ((n >>> 16) &&& 0xff), .ofNat (n >>> 24)]

/-- `putBytes16`. -/
def putBytes16 (target value : Bytes) : Except ArgiError Bytes := do
  let target ← putU16 target (.integer value.length)
  .ok (target ++ value)

/-- `putBytes32`.  The bytes are spread into one call, however many they are. -/
def putBytes32 (target value : Bytes) : Except ArgiError Bytes := do
  let target ← putU32 target (.integer value.length)
  .ok (target ++ value)

/-- `encoder.encode`. -/
def encode (s : JsString) : Bytes := encodeJs (codePoints s)

/-- The loop of `encodeArgiEnvelope` over the outputs. -/
def encodeOutputs (limits : EnvelopeLimits) :
    List Output → List NumberValue → Bytes → Except ArgiError Bytes
  | [], _, target => .ok target
  | output :: outputs, seen, target =>
      if output.outputIndex ∈ seen then .error .duplicateIndex
      else do
        let application := encode output.applicationId
        let actor := encode output.actorPath
        let state := encode output.stateJson
        let artifact ← bytes output.artifactId "artifactId"
        if artifact.length ≠ 32 then .error .artifactLength
        else if limits.maxActorNameBytes < application.length ∨
            limits.maxActorNameBytes < actor.length then .error .name
        else if limits.maxStateBytes < state.length then .error .state
        else
          let target ← putU16 target output.outputIndex
          let target ← putBytes16 target application
          let target ← putBytes16 (target ++ artifact) actor
          let target ← putBytes32 target state
          encodeOutputs limits outputs (output.outputIndex :: seen) target

/-- `encodeArgiEnvelope`. -/
def encodeArgiEnvelope (envelope : Envelope) (limits : EnvelopeLimits) :
    Except ArgiError Bytes := do
  let payload ← bytes (envelope.applicationPayload.getD (.uint8Array [])) "applicationPayload"
  let outputs := envelope.outputs.getD []
  if limits.maxOutputDeclarations < outputs.length ∨ 0xffff < outputs.length then
    .error .outputCount
  else
    let target ← putBytes32 [0x41, 0x52, 0x47, 0x49, 1, 0] payload
    let target ← putU16 target (.integer outputs.length)
    let target ← encodeOutputs limits outputs [] target
    if limits.maxEnvelopeBytes < target.length then .error .envelope else .ok target

/-! ## What the values mean -/

/-- The text that is sent of a string: an unpaired surrogate is replaced. -/
def sent (s : JsString) : String :=
  String.ofList ((codePoints s).map fun p ↦
    if isSurrogate p then Char.ofNat 0xFFFD else Char.ofNat p)

/-- The value of an index. -/
def index (i : UInt16) : NumberValue := .integer i.toNat

/-- An output and the declaration it is. -/
structure Output.Means (o : Output) (d : OutputDeclaration) : Prop where
  outputIndex : o.outputIndex = index d.outputIndex
  applicationId : sent o.applicationId = d.applicationId
  artifactId : bytes o.artifactId "artifactId" = .ok d.artifactId.val
  actorPath : sent o.actorPath = d.actorPath
  stateJson : sent o.stateJson = d.stateJson

/-- A client's envelope and the envelope it is. -/
structure Envelope.Means (c : Envelope) (e : ArgiEnvelope) : Prop where
  applicationPayload : bytes (c.applicationPayload.getD (.uint8Array [])) "applicationPayload" =
    .ok e.applicationPayload
  outputs : List.Forall₂ Output.Means (c.outputs.getD []) e.outputs

theorem index_injective : Function.Injective index := by
  intro i j h
  exact UInt16.toNat_inj.mp (Int.ofNat.inj (NumberValue.integer.inj h))

theorem Output.Means.unique {o : Output} {d d' : OutputDeclaration} (h : o.Means d)
    (h' : o.Means d') : d = d' := by
  obtain ⟨i, application, artifact, actor, state⟩ := d
  obtain ⟨i', application', artifact', actor', state'⟩ := d'
  obtain rfl : i = i' := index_injective (h.outputIndex.symm.trans h'.outputIndex)
  obtain rfl : application = application' := h.applicationId.symm.trans h'.applicationId
  obtain rfl : artifact = artifact' :=
    Subtype.ext (Except.ok.inj (h.artifactId.symm.trans h'.artifactId))
  obtain rfl : actor = actor' := h.actorPath.symm.trans h'.actorPath
  obtain rfl : state = state' := h.stateJson.symm.trans h'.stateJson
  rfl

theorem Envelope.Means.unique {c : Envelope} {e e' : ArgiEnvelope} (h : c.Means e)
    (h' : c.Means e') : e = e' := by
  obtain ⟨payload, outputs⟩ := e
  obtain ⟨payload', outputs'⟩ := e'
  obtain rfl : payload = payload' :=
    Except.ok.inj (h.applicationPayload.symm.trans h'.applicationPayload)
  have hunique : Relator.RightUnique Output.Means := fun _ _ _ hd hd' ↦ hd.unique hd'
  obtain rfl : outputs = outputs' := hunique.forall₂ h.outputs h'.outputs
  rfl

/-! ## Strings -/

theorem utf8Bytes_sent (s : JsString) : utf8Bytes (sent s) = encode s := by
  rw [sent, utf8Bytes, String.toByteArray_ofList, List.utf8Encode, List.data_toByteArray]
  rfl

theorem codePoints_cons {u : CodeUnit} {s : JsString} (h : isHighSurrogate u = false) :
    codePoints (u :: s) = u.val :: codePoints s := by
  cases s with
  | nil => rfl
  | cons low rest => rw [codePoints, h, Bool.false_and, if_neg Bool.false_ne_true]

/-- A text is read from its units. -/
theorem codePoints_jsUnits (t : Text) : codePoints (jsUnits t) = t.map Char.toNat := by
  induction t with
  | nil => rfl
  | cons c t ih =>
      have hvalid : c.toNat < 0xD800 ∨ 0xDFFF < c.toNat ∧ c.toNat < 0x110000 := c.valid
      have hunits : jsUnits (c :: t) =
          (utf16 c.toNat).map (Fin.ofNat 65536) ++ jsUnits t := List.flatMap_cons
      rw [hunits, utf16, List.map_cons, ← ih]
      by_cases hc : c.toNat < 0x10000
      · have hunit : (Fin.ofNat 65536 c.toNat).val = c.toNat := Nat.mod_eq_of_lt hc
        have hlow : isHighSurrogate (Fin.ofNat 65536 c.toNat).val = false := by
          rw [hunit, isHighSurrogate]
          grind
        rw [if_pos hc, List.map_singleton, List.singleton_append, codePoints_cons hlow, hunit]
      · have hhigh : (Fin.ofNat 65536 (0xD800 + (c.toNat - 0x10000) / 0x400)).val =
            0xD800 + (c.toNat - 0x10000) / 0x400 := Nat.mod_eq_of_lt (by omega)
        have hlow : (Fin.ofNat 65536 (0xDC00 + (c.toNat - 0x10000) % 0x400)).val =
            0xDC00 + (c.toNat - 0x10000) % 0x400 := Nat.mod_eq_of_lt (by omega)
        have hpair : (isHighSurrogate (0xD800 + (c.toNat - 0x10000) / 0x400) &&
            isLowSurrogate (0xDC00 + (c.toNat - 0x10000) % 0x400)) = true := by
          simp only [isHighSurrogate, isLowSurrogate, Bool.and_eq_true, decide_eq_true_eq]
          omega
        have hjoin : 0x10000 + (0xD800 + (c.toNat - 0x10000) / 0x400 - 0xD800) * 0x400 +
            (0xDC00 + (c.toNat - 0x10000) % 0x400 - 0xDC00) = c.toNat := by omega
        rw [if_neg hc, List.map_cons, List.map_singleton, List.cons_append, List.singleton_append,
          codePoints, hhigh, hlow, if_pos hpair, hjoin]

/-- Every text is sent by a string. -/
theorem sent_jsUnits (s : String) : sent (jsUnits s.toList) = s := by
  rw [sent, codePoints_jsUnits, List.map_map]
  have hchar : ∀ c : Char, (if isSurrogate c.toNat then Char.ofNat 0xFFFD
      else Char.ofNat c.toNat) = c := by
    intro c
    have hvalid : c.toNat < 0xD800 ∨ 0xDFFF < c.toNat ∧ c.toNat < 0x110000 := c.valid
    have hscalar : isSurrogate c.toNat = false := by
      rw [isSurrogate]
      grind
    rw [hscalar, if_neg Bool.false_ne_true, Char.ofNat_toNat]
  have hmap := (List.map_congr_left fun c (_ : c ∈ s.toList) ↦ hchar c).trans (List.map_id' _)
  exact (congrArg String.ofList hmap).trans String.ofList_toList

/-! ## The encoder -/

section Encoder

variable {error : ArgiError} {target v b : Bytes} {value : NumberValue}

theorem guarded_eq_ok {p : Prop} [Decidable p] {x : Except ArgiError Bytes} :
    (if p then .error error else x) = .ok b ↔ ¬p ∧ x = .ok b := by
  by_cases h : p
  · rw [if_pos h]
    exact ⟨nofun, fun hb ↦ absurd h hb.1⟩
  · rw [if_neg h]
    exact ⟨fun hb ↦ ⟨h, hb⟩, fun hb ↦ hb.2⟩

theorem putUint_eq_ok {limit width : Nat} {pushed : Nat → Bytes} (hlimit : limit + 1 = 256 ^ width)
    (hpushed : ∀ n, n < 256 ^ width → pushed n = fixed width n) :
    putUint limit error pushed target value = .ok b ↔
      ∃ n : Nat, n < 256 ^ width ∧ value = .integer n ∧ b = target ++ fixed width n := by
  cases value with
  | other name => exact ⟨nofun, fun ⟨_, _, h, _⟩ ↦ nomatch h⟩
  | integer n =>
      rw [putUint, guarded_eq_ok, Except.ok.injEq]
      constructor
      · rintro ⟨hrange, rfl⟩
        have hn : n.toNat < 256 ^ width := by omega
        refine ⟨n.toNat, hn, ?_, by rw [hpushed _ hn]⟩
        rw [Int.toNat_of_nonneg (by omega)]
      · rintro ⟨m, hm, hn, rfl⟩
        obtain rfl := NumberValue.integer.inj hn
        rw [Int.toNat_natCast, hpushed m hm]
        exact ⟨by omega, rfl⟩

theorem ofNat_and (n : Nat) : UInt8.ofNat (n &&& 0xff) = UInt8.ofNat n := by
  refine UInt8.toNat_inj.mp ?_
  rw [UInt8.toNat_ofNat', UInt8.toNat_ofNat', Nat.and_two_pow_sub_one_eq_mod n 8, Nat.mod_mod]

theorem putU16_iff : putU16 target value = .ok b ↔
    ∃ n : Nat, n < 256 ^ 2 ∧ value = .integer n ∧ b = target ++ fixed 2 n := by
  refine putUint_eq_ok (by norm_num) fun n hn ↦ ?_
  rw [ofNat_and, Nat.shiftRight_eq_div_pow, fixed, fixed, fixed]

theorem putU32_iff : putU32 target value = .ok b ↔
    ∃ n : Nat, n < 256 ^ 4 ∧ value = .integer n ∧ b = target ++ fixed 4 n := by
  refine putUint_eq_ok (by norm_num) fun n hn ↦ ?_
  simp only [ofNat_and, Nat.shiftRight_eq_div_pow, fixed, Nat.div_div_eq_div_mul, ← pow_add]

theorem putU16_eq_ok : putU16 target value = .ok b ↔
    ∃ i : UInt16, value = index i ∧ b = target ++ fixed 2 i.toNat := by
  rw [putU16_iff]
  constructor
  · rintro ⟨n, hn, rfl, rfl⟩
    have hi : (UInt16.ofNat n).toNat = n := UInt16.toNat_ofNat_of_lt' (by simpa using hn)
    exact ⟨.ofNat n, by rw [index, hi], by rw [hi]⟩
  · rintro ⟨i, rfl, rfl⟩
    exact ⟨i.toNat, i.toNat_lt, rfl, rfl⟩

/-- A length is put before the bytes. -/
theorem length_put {width : Nat} : (∃ put, (∃ n : Nat, n < 256 ^ width ∧
    NumberValue.integer v.length = .integer n ∧ put = target ++ fixed width n) ∧
      put ++ v = b) ↔ v.length < 256 ^ width ∧ b = target ++ prefixed width v := by
  rw [prefixed, ← List.append_assoc]
  constructor
  · rintro ⟨_, ⟨n, hn, hlen, rfl⟩, rfl⟩
    obtain rfl : v.length = n := Int.ofNat.inj (NumberValue.integer.inj hlen)
    exact ⟨hn, rfl⟩
  · rintro ⟨hlen, rfl⟩
    exact ⟨_, ⟨v.length, hlen, rfl, rfl⟩, rfl⟩

theorem putBytes16_eq_ok :
    putBytes16 target v = .ok b ↔ v.length < 256 ^ 2 ∧ b = target ++ prefixed 2 v := by
  rw [← length_put]
  simp only [putBytes16, bind_eq_ok, putU16_iff, Except.ok.injEq]

theorem putBytes32_eq_ok :
    putBytes32 target v = .ok b ↔ v.length < 256 ^ 4 ∧ b = target ++ prefixed 4 v := by
  rw [← length_put]
  simp only [putBytes32, bind_eq_ok, putU32_iff, Except.ok.injEq]

end Encoder

/-- The loop writes the declarations that the outputs are, if the decoder reads them. -/
theorem encodeOutputs_eq_ok {limits : EnvelopeLimits} {os : List Output} {seen : List UInt16}
    {start b : Bytes} : encodeOutputs limits os (seen.map index) start = .ok b ↔
      ∃ ds, List.Forall₂ Output.Means os ds ∧ Declarable limits seen ds ∧
        b = start ++ ds.flatMap declarationBytes := by
  induction os generalizing seen start with
  | nil =>
      rw [encodeOutputs, Except.ok.injEq]
      constructor
      · rintro rfl
        exact ⟨[], .nil, ⟨fun _ hd ↦ absurd hd List.not_mem_nil, List.nodup_nil⟩,
          (List.append_nil _).symm⟩
      · rintro ⟨_, ⟨⟩, -, rfl⟩
        exact (List.append_nil _).symm
  | cons o os ih =>
      simp only [encodeOutputs, guarded_eq_ok, bind_eq_ok, putU16_eq_ok, putBytes16_eq_ok,
        putBytes32_eq_ok, not_or, Nat.not_lt, not_not]
      constructor
      · rintro ⟨hseen, artifact, hart, hlen, ⟨hid, hactor⟩, hstate, _, ⟨i, hi, rfl⟩, _,
          ⟨hidW, rfl⟩, _, ⟨hactorW, rfl⟩, _, ⟨hstateW, rfl⟩, h⟩
        rw [hi, ← List.map_cons, ih] at h
        obtain ⟨ds, hds, hdecl, rfl⟩ := h
        rw [hi, List.mem_map_of_injective index_injective] at hseen
        rw [← utf8Bytes_sent] at hid hactor hstate hidW hactorW hstateW
        refine ⟨⟨i, sent o.applicationId, ⟨artifact, hlen⟩, sent o.actorPath, sent o.stateJson⟩ ::
          ds, .cons ⟨hi, rfl, hart, rfl, rfl⟩ hds,
          declarable_cons.mpr ⟨hseen, ⟨hid, hactor, hstate, hidW, hactorW, hstateW⟩, hdecl⟩, ?_⟩
        simp only [List.flatMap_cons, declarationBytes, utf8Bytes_sent, List.append_assoc]
      · rintro ⟨_, hall, hdecl, rfl⟩
        obtain ⟨d, ds, hd, hds, rfl⟩ := List.forall₂_cons_left_iff.mp hall
        rw [declarable_cons] at hdecl
        obtain ⟨hseen, hfits, hrest⟩ := hdecl
        have hid : encode o.applicationId = utf8Bytes d.applicationId := by
          rw [← utf8Bytes_sent, hd.applicationId]
        have hactor : encode o.actorPath = utf8Bytes d.actorPath := by
          rw [← utf8Bytes_sent, hd.actorPath]
        have hstate : encode o.stateJson = utf8Bytes d.stateJson := by
          rw [← utf8Bytes_sent, hd.stateJson]
        rw [hid, hactor, hstate, hd.outputIndex, List.mem_map_of_injective index_injective]
        refine ⟨hseen, _, hd.artifactId, d.artifactId.2, ⟨hfits.applicationId, hfits.actorPath⟩,
          hfits.stateJson, _, ⟨d.outputIndex, rfl, rfl⟩, _, ⟨hfits.applicationWidth, rfl⟩, _,
          ⟨hfits.actorWidth, rfl⟩, _, ⟨hfits.stateWidth, rfl⟩, ?_⟩
        rw [← List.map_cons, ih]
        refine ⟨ds, hds, hrest, ?_⟩
        simp only [List.flatMap_cons, declarationBytes, List.append_assoc]

/-! ## The two encoders -/

theorem encodeArgiEnvelope_eq_ok {c : Envelope} {limits : EnvelopeLimits} {b : Bytes} :
    encodeArgiEnvelope c limits = .ok b ↔
      ∃ e, c.Means e ∧ Encodable limits e ∧ b = envelopeBytes e := by
  have hbytes (payload : Bytes) (ds : List OutputDeclaration) :
      (([0x41, 0x52, 0x47, 0x49, 1, 0] ++ prefixed 4 payload) ++ fixed 2 ds.length) ++
        ds.flatMap declarationBytes = envelopeBytes ⟨payload, ds⟩ := by
    simp only [envelopeBytes, magic, version, List.append_assoc, List.cons_append,
      List.nil_append]
  simp only [encodeArgiEnvelope, guarded_eq_ok, bind_eq_ok, putU16_iff, putBytes32_eq_ok, not_or,
    Nat.not_lt, Except.ok.injEq]
  constructor
  · rintro ⟨payload, hpayload, ⟨hcount, hcountW⟩, _, ⟨hpayloadW, rfl⟩, _, ⟨n, hn, hlen, rfl⟩, _,
      hloop, htotal, rfl⟩
    obtain rfl : (c.outputs.getD []).length = n := Int.ofNat.inj (NumberValue.integer.inj hlen)
    rw [← List.map_nil (f := index), encodeOutputs_eq_ok] at hloop
    obtain ⟨ds, hds, hdecl, rfl⟩ := hloop
    rw [hds.length_eq] at hcount hn htotal ⊢
    rw [hbytes] at htotal ⊢
    exact ⟨⟨payload, ds⟩, ⟨hpayload, hds⟩, ⟨hcount, hn, hpayloadW, hdecl, htotal⟩, rfl⟩
  · rintro ⟨⟨payload, ds⟩, ⟨hpayload, hds⟩, ⟨hcount, hcountW, hpayloadW, hdecl, htotal⟩, rfl⟩
    have hlen := hds.length_eq
    refine ⟨payload, hpayload, ⟨hlen ▸ hcount, by rw [hlen]; exact Nat.le_of_lt_succ hcountW⟩, _,
      ⟨hpayloadW, rfl⟩, _, ⟨_, by rw [hlen]; exact hcountW, rfl, rfl⟩, _,
      encodeOutputs_eq_ok.mpr ⟨ds, hds, hdecl, rfl⟩, ?_⟩
    rw [hlen, hbytes]
    exact ⟨htotal, rfl⟩

/-- The values of an envelope. -/
def ofEnvelope (e : ArgiEnvelope) : Envelope where
  applicationPayload := some (.uint8Array e.applicationPayload)
  outputs := some (e.outputs.map fun d ↦
    { outputIndex := index d.outputIndex
      applicationId := jsUnits d.applicationId.toList
      artifactId := .uint8Array d.artifactId.val
      actorPath := jsUnits d.actorPath.toList
      stateJson := jsUnits d.stateJson.toList })

theorem ofEnvelope_means (e : ArgiEnvelope) : (ofEnvelope e).Means e where
  applicationPayload := rfl
  outputs := by
    rw [ofEnvelope, Option.getD_some, List.forall₂_map_left_iff, List.forall₂_same]
    exact fun d _ ↦ ⟨rfl, sent_jsUnits _, rfl, sent_jsUnits _, sent_jsUnits _⟩

/-- **The client writes what the decoder reads.**  Values that it accepts mean one envelope, and
every envelope is meant by some; of values that mean an envelope it writes what the encoder of the
indexer writes of it, and these bytes alone are decoded to it. -/
theorem encodeArgiEnvelope_exact (limits : EnvelopeLimits) :
    (∀ c b, encodeArgiEnvelope c limits = .ok b → ∃! e, c.Means e) ∧
    (∀ e, ∃ c : Envelope, c.Means e) ∧
    (∀ (c : Envelope) e, c.Means e → ∀ b,
      (encodeArgiEnvelope c limits = .ok b ↔ encodeEnvelope e limits = .ok b) ∧
      (encodeArgiEnvelope c limits = .ok b ↔ decodeEnvelope b limits = .ok e)) := by
  refine ⟨fun c b h ↦ ?_, fun e ↦ ⟨ofEnvelope e, ofEnvelope_means e⟩, fun c e hc b ↦ ?_⟩
  · obtain ⟨e, he, -⟩ := encodeArgiEnvelope_eq_ok.mp h
    exact ⟨e, he, fun e' he' ↦ he'.unique he⟩
  · have hwritten : encodeArgiEnvelope c limits = .ok b ↔
        Encodable limits e ∧ b = envelopeBytes e := by
      rw [encodeArgiEnvelope_eq_ok]
      constructor
      · rintro ⟨e', hc', he', rfl⟩
        rw [hc.unique hc']
        exact ⟨he', rfl⟩
      · rintro ⟨he, rfl⟩
        exact ⟨e, hc, he, rfl⟩
    exact ⟨hwritten.trans encodeEnvelope_eq_ok.symm, hwritten.trans decodeEnvelope_eq_ok.symm⟩

/-- The counter's envelope, its artifact an array and its payload one item past a byte. -/
def counterValues : Envelope where
  applicationPayload := some (.array [0x1aa, -69])
  outputs := some [
    { outputIndex := .integer 3
      applicationId := jsUnits "counter".toList
      artifactId := .array (List.replicate 32 0x11)
      actorPath := jsUnits "Counter".toList
      stateJson := jsUnits "\x7b\"count\":\x7b\"kind\":\"int\",\"value\":7\x7d\x7d".toList }]

theorem counterValues_means : counterValues.Means counterEnvelope where
  applicationPayload := rfl
  outputs := .cons ⟨rfl, sent_jsUnits _, rfl, sent_jsUnits _, sent_jsUnits _⟩ .nil

theorem counterValues_decoded : ∃ b, encodeArgiEnvelope counterValues defaultArgiLimits = .ok b ∧
    decodeEnvelope b defaultArgiLimits = .ok counterEnvelope := by
  have hexact := (encodeArgiEnvelope_exact defaultArgiLimits).2.2 _ _ counterValues_means
  have hencode : encodeEnvelope counterEnvelope defaultArgiLimits =
      .ok (envelopeBytes counterEnvelope) := rfl
  have hwritten := (hexact _).1.mpr hencode
  exact ⟨_, hwritten, (hexact _).2.mp hwritten⟩

end Js

end Argent

end Kascov
