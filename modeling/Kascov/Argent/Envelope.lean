import Kascov.Lib.Cursor
import Kascov.Lib.Fallible
import Kascov.Lib.LittleEndian
import Kascov.Token.Tables
import Kascov.Web.Hex

/-!
# The ARGI envelope

What a transaction's payload declares of its outputs.  The encoder writes and the decoder
reads in two separate passes over the same layout; both accept the same envelopes, those
that are `Encodable` under the limits, and both relate an envelope to the same bytes.
-/

namespace Kascov

open LittleEndian Fallible

/-! ## Texts as bytes -/

/-- `String::as_bytes`. -/
def utf8Bytes (s : String) : Bytes := s.toByteArray.data.toList

/-- `String::from_utf8`. -/
def fromUtf8 (b : Bytes) : Option String := String.fromUTF8? ⟨b.toArray⟩

theorem fromUtf8_eq_some {b : Bytes} {s : String} : fromUtf8 b = some s ↔ b = utf8Bytes s := by
  unfold fromUtf8 String.fromUTF8?
  constructor
  · intro h
    split at h
    · obtain rfl := Option.some.inj h
      rfl
    · cases h
  · rintro rfl
    have hbytes : (⟨(utf8Bytes s).toArray⟩ : ByteArray) = s.toByteArray := by
      rw [utf8Bytes, Array.toArray_toList]
    rw [dif_pos (by rw [hbytes]; exact s.isValidUTF8)]
    exact congrArg some (String.toByteArray_inj.mp hbytes)

namespace Argent

/-! ## The types -/

/-- `MAGIC`. -/
def magic : Bytes := [0x41, 0x52, 0x47, 0x49]

/-- `VERSION`. -/
def version : UInt8 := 1

structure EnvelopeLimits where
  maxEnvelopeBytes : Nat
  maxOutputDeclarations : Nat
  maxActorNameBytes : Nat
  maxStateBytes : Nat
deriving DecidableEq, Repr

/-- `EnvelopeLimits::valid`. -/
def EnvelopeLimits.valid (limits : EnvelopeLimits) : Bool :=
  0 < limits.maxEnvelopeBytes && 0 < limits.maxOutputDeclarations &&
    0 < limits.maxActorNameBytes && 0 < limits.maxStateBytes

structure OutputDeclaration where
  outputIndex : UInt16
  applicationId : String
  artifactId : Bytes32
  actorPath : String
  stateJson : String
deriving DecidableEq

structure ArgiEnvelope where
  applicationPayload : Bytes
  outputs : List OutputDeclaration
deriving DecidableEq

inductive EnvelopeError where
  | envelopeLimit (limit : Nat)
  | outputLimit (limit : Nat)
  | nameLimit (limit : Nat)
  | stateLimit (limit : Nat)
  | magic
  | version (v : UInt8)
  | unknownFlags (flags : UInt8)
  | truncated
  | utf8 (field : String)
  | duplicateOutputIndex (index : UInt16)
  | trailingBytes
  | lengthOverflow
deriving DecidableEq, Repr

/-- `EnvelopeError::to_string`. -/
def EnvelopeError.text : EnvelopeError → String
  | .envelopeLimit limit => s!"ARGI envelope exceeds {limit} bytes"
  | .outputLimit limit => s!"ARGI output count exceeds {limit}"
  | .nameLimit limit => s!"ARGI actor or application name exceeds {limit} bytes"
  | .stateLimit limit => s!"ARGI state exceeds {limit} bytes"
  | .magic => "invalid ARGI magic"
  | .version v => s!"unsupported ARGI version {v.toNat}"
  | .unknownFlags flags => "unknown ARGI flags 0x" ++ String.ofList (toHex [flags])
  | .truncated => "truncated ARGI envelope"
  | .utf8 field => s!"invalid UTF-8 in ARGI {field}"
  | .duplicateOutputIndex index => s!"duplicate ARGI output index {index.toNat}"
  | .trailingBytes => "ARGI envelope has trailing bytes"
  | .lengthOverflow => "ARGI field length cannot be encoded"

/-! ## The checks -/

/-- `check_output_count`. -/
def checkOutputCount (count : Nat) (limits : EnvelopeLimits) : Except EnvelopeError Unit :=
  if limits.maxOutputDeclarations < count then .error (.outputLimit limits.maxOutputDeclarations)
  else .ok ()

/-- `check_name`. -/
def checkName (len : Nat) (limits : EnvelopeLimits) : Except EnvelopeError Unit :=
  if limits.maxActorNameBytes < len then .error (.nameLimit limits.maxActorNameBytes)
  else .ok ()

/-- `check_state`. -/
def checkState (len : Nat) (limits : EnvelopeLimits) : Except EnvelopeError Unit :=
  if limits.maxStateBytes < len then .error (.stateLimit limits.maxStateBytes)
  else .ok ()

/-! ## The encoder -/

/-- A length of a given width, then the bytes. -/
def putBytes (width : Nat) (target value : Bytes) : Except EnvelopeError Bytes :=
  if value.length < 256 ^ width then .ok (target ++ (fixed width value.length ++ value))
  else .error .lengthOverflow

/-- `put_u16_bytes`. -/
def putU16Bytes : Bytes → Bytes → Except EnvelopeError Bytes := putBytes 2

/-- `put_u32_bytes`. -/
def putU32Bytes : Bytes → Bytes → Except EnvelopeError Bytes := putBytes 4

/-- The loop of `encode_envelope` over the outputs. -/
def encodeOutputs (limits : EnvelopeLimits) :
    List OutputDeclaration → List UInt16 → Bytes → Except EnvelopeError Bytes
  | [], _, bytes => .ok bytes
  | output :: outputs, seen, bytes =>
      if output.outputIndex ∈ seen then .error (.duplicateOutputIndex output.outputIndex)
      else do
        checkName (utf8Bytes output.applicationId).length limits
        checkName (utf8Bytes output.actorPath).length limits
        checkState (utf8Bytes output.stateJson).length limits
        let bytes ← putU16Bytes (bytes ++ fixed 2 output.outputIndex.toNat)
          (utf8Bytes output.applicationId)
        let bytes ← putU16Bytes (bytes ++ output.artifactId.val) (utf8Bytes output.actorPath)
        let bytes ← putU32Bytes bytes (utf8Bytes output.stateJson)
        encodeOutputs limits outputs (output.outputIndex :: seen) bytes

/-- `encode_envelope`. -/
def encodeEnvelope (envelope : ArgiEnvelope) (limits : EnvelopeLimits) :
    Except EnvelopeError Bytes := do
  checkOutputCount envelope.outputs.length limits
  let bytes ← putU32Bytes (magic ++ [version, 0]) envelope.applicationPayload
  if envelope.outputs.length < 256 ^ 2 then
    let bytes ← encodeOutputs limits envelope.outputs []
      (bytes ++ fixed 2 envelope.outputs.length)
    if limits.maxEnvelopeBytes < bytes.length then .error (.envelopeLimit limits.maxEnvelopeBytes)
    else .ok bytes
  else .error .lengthOverflow

/-! ## The decoder -/

/-- `Reader`. -/
abbrev Reader := Cursor UInt8

namespace Reader

/-- `Reader::take`.  The offset stays within the payload, so the sum that the source checks
overflows only where the payload ends before it. -/
def take (r : Reader) (len : Nat) : Except EnvelopeError (Bytes × Reader) :=
  match Cursor.take r len with
  | some read => .ok read
  | none => .error .truncated

/-- An integer of a given width. -/
def uint (r : Reader) (width : Nat) : Except EnvelopeError (Nat × Reader) := do
  let (bytes, r) ← take r width
  .ok (value bytes, r)

/-- `Reader::u8`. -/
def u8 (r : Reader) : Except EnvelopeError (UInt8 × Reader) := do
  let (n, r) ← uint r 1
  .ok (.ofNat n, r)

/-- `Reader::u16`. -/
def u16 (r : Reader) : Except EnvelopeError (UInt16 × Reader) := do
  let (n, r) ← uint r 2
  .ok (.ofNat n, r)

/-- A length of a given width, then as many bytes. -/
def bytesOf (r : Reader) (width : Nat) : Except EnvelopeError (Bytes × Reader) := do
  let (len, r) ← uint r width
  take r len

/-- `Reader::bytes_u32`.  A length of 32 bits is a `usize`. -/
def bytesU32 (r : Reader) : Except EnvelopeError (Bytes × Reader) := bytesOf r 4

/-- A text after its length. -/
def stringOf (r : Reader) (width : Nat) (field : String) :
    Except EnvelopeError (String × Reader) := do
  let (bytes, r) ← bytesOf r width
  match fromUtf8 bytes with
  | some s => .ok (s, r)
  | none => .error (.utf8 field)

/-- `Reader::string_u16`. -/
def stringU16 (r : Reader) (field : String) : Except EnvelopeError (String × Reader) :=
  stringOf r 2 field

/-- `Reader::string_u32`. -/
def stringU32 (r : Reader) (field : String) : Except EnvelopeError (String × Reader) :=
  stringOf r 4 field

end Reader

/-- `try_into` of the 32 bytes that were taken. -/
def takeArtifactId (r : Reader) : Except EnvelopeError (Bytes32 × Reader) := do
  let (bytes, r) ← r.take 32
  match toBytes32 bytes with
  | some id => .ok (id, r)
  | none => .error .truncated

/-- The loop of `decode_envelope` over the outputs. -/
def decodeOutputs (limits : EnvelopeLimits) :
    Nat → List UInt16 → Reader → Except EnvelopeError (List OutputDeclaration × Reader)
  | 0, _, r => .ok ([], r)
  | count + 1, seen, r => do
      let (outputIndex, r) ← Reader.u16 r
      if outputIndex ∈ seen then .error (.duplicateOutputIndex outputIndex)
      else
        let (applicationId, r) ← Reader.stringU16 r "application ID"
        checkName (utf8Bytes applicationId).length limits
        let (artifactId, r) ← takeArtifactId r
        let (actorPath, r) ← Reader.stringU16 r "actor path"
        checkName (utf8Bytes actorPath).length limits
        let (stateJson, r) ← Reader.stringU32 r "state JSON"
        checkState (utf8Bytes stateJson).length limits
        let (outputs, r) ← decodeOutputs limits count (outputIndex :: seen) r
        .ok ({ outputIndex, applicationId, artifactId, actorPath, stateJson } :: outputs, r)

/-- What `decode_envelope` reads before it asks whether anything is left. -/
def readEnvelope (limits : EnvelopeLimits) (r : Reader) :
    Except EnvelopeError (ArgiEnvelope × Reader) := do
  let (m, r) ← r.take 4
  if m ≠ magic then .error .magic
  else
    let (v, r) ← Reader.u8 r
    if v ≠ version then .error (.version v)
    else
      let (flags, r) ← Reader.u8 r
      if flags ≠ 0 then .error (.unknownFlags flags)
      else
        let (applicationPayload, r) ← Reader.bytesU32 r
        let (outputCount, r) ← Reader.u16 r
        checkOutputCount outputCount.toNat limits
        let (outputs, r) ← decodeOutputs limits outputCount.toNat [] r
        .ok ({ applicationPayload, outputs }, r)

/-- `decode_envelope`. -/
def decodeEnvelope (bytes : Bytes) (limits : EnvelopeLimits) :
    Except EnvelopeError ArgiEnvelope :=
  if limits.maxEnvelopeBytes < bytes.length then .error (.envelopeLimit limits.maxEnvelopeBytes)
  else do
    let (envelope, r) ← readEnvelope limits (Cursor.start bytes)
    if r.done then .ok envelope else .error .trailingBytes

/-! ## What is encodable -/

/-- A declaration inside the limits and the widths of its lengths. -/
structure Fits (limits : EnvelopeLimits) (d : OutputDeclaration) : Prop where
  applicationId : (utf8Bytes d.applicationId).length ≤ limits.maxActorNameBytes
  actorPath : (utf8Bytes d.actorPath).length ≤ limits.maxActorNameBytes
  stateJson : (utf8Bytes d.stateJson).length ≤ limits.maxStateBytes
  applicationWidth : (utf8Bytes d.applicationId).length < 256 ^ 2
  actorWidth : (utf8Bytes d.actorPath).length < 256 ^ 2
  stateWidth : (utf8Bytes d.stateJson).length < 256 ^ 4

/-- Declarations that can follow those of the given output indices. -/
def Declarable (limits : EnvelopeLimits) (seen : List UInt16) (ds : List OutputDeclaration) :
    Prop :=
  (∀ d ∈ ds, Fits limits d ∧ d.outputIndex ∉ seen) ∧ (ds.map (·.outputIndex)).Nodup

/-- Bytes after their length. -/
def prefixed (width : Nat) (b : Bytes) : Bytes := fixed width b.length ++ b

/-- The bytes of a declaration. -/
def declarationBytes (d : OutputDeclaration) : Bytes :=
  fixed 2 d.outputIndex.toNat ++ (prefixed 2 (utf8Bytes d.applicationId) ++
    (d.artifactId.val ++ (prefixed 2 (utf8Bytes d.actorPath) ++
      prefixed 4 (utf8Bytes d.stateJson))))

/-- The bytes of an envelope. -/
def envelopeBytes (e : ArgiEnvelope) : Bytes :=
  magic ++ ([version] ++ ([0] ++ (prefixed 4 e.applicationPayload ++
    (fixed 2 e.outputs.length ++ e.outputs.flatMap declarationBytes))))

/-- What the encoder accepts under the limits. -/
structure Encodable (limits : EnvelopeLimits) (e : ArgiEnvelope) : Prop where
  count : e.outputs.length ≤ limits.maxOutputDeclarations
  countWidth : e.outputs.length < 256 ^ 2
  payloadWidth : e.applicationPayload.length < 256 ^ 4
  outputs : Declarable limits [] e.outputs
  total : (envelopeBytes e).length ≤ limits.maxEnvelopeBytes

theorem declarable_cons {limits : EnvelopeLimits} {seen : List UInt16} {d : OutputDeclaration}
    {ds : List OutputDeclaration} : Declarable limits seen (d :: ds) ↔
      d.outputIndex ∉ seen ∧ Fits limits d ∧ Declarable limits (d.outputIndex :: seen) ds := by
  unfold Declarable
  rw [List.forall_mem_cons, List.map_cons, List.nodup_cons]
  simp only [List.mem_map, List.mem_cons, not_or, not_exists, not_and]
  constructor
  · rintro ⟨⟨⟨hfits, hseen⟩, hrest⟩, hnew, hnodup⟩
    exact ⟨hseen, hfits, fun x hx ↦ ⟨(hrest x hx).1, hnew x hx, (hrest x hx).2⟩, hnodup⟩
  · rintro ⟨hseen, hfits, hrest, hnodup⟩
    exact ⟨⟨⟨hfits, hseen⟩, fun x hx ↦ ⟨(hrest x hx).1, (hrest x hx).2.2⟩⟩,
      fun x hx ↦ (hrest x hx).2.1, hnodup⟩

/-! ## The checks and the encoder -/

theorem ok_unless {ε : Type} {p : Prop} [Decidable p] {e : ε} :
    (if p then .error e else .ok () : Except ε Unit) = .ok () ↔ ¬p := by
  by_cases h : p
  · simp [h]
  · simp [h]

theorem checkOutputCount_eq_ok {count : Nat} {limits : EnvelopeLimits} {u : Unit} :
    checkOutputCount count limits = .ok u ↔ count ≤ limits.maxOutputDeclarations :=
  ok_unless.trans Nat.not_lt

theorem checkName_eq_ok {len : Nat} {limits : EnvelopeLimits} {u : Unit} :
    checkName len limits = .ok u ↔ len ≤ limits.maxActorNameBytes :=
  ok_unless.trans Nat.not_lt

theorem checkState_eq_ok {len : Nat} {limits : EnvelopeLimits} {u : Unit} :
    checkState len limits = .ok u ↔ len ≤ limits.maxStateBytes :=
  ok_unless.trans Nat.not_lt

theorem putBytes_eq_ok {width : Nat} {target v b : Bytes} :
    putBytes width target v = .ok b ↔ v.length < 256 ^ width ∧ b = target ++ prefixed width v := by
  unfold putBytes
  split
  · rename_i h
    rw [Except.ok.injEq, eq_comm, prefixed]
    exact ⟨fun hb ↦ ⟨h, hb⟩, fun hb ↦ hb.2⟩
  · rename_i h
    exact ⟨nofun, fun hb ↦ absurd hb.1 h⟩

theorem putU16Bytes_eq_ok {target v b : Bytes} :
    putU16Bytes target v = .ok b ↔ v.length < 256 ^ 2 ∧ b = target ++ prefixed 2 v :=
  putBytes_eq_ok

theorem putU32Bytes_eq_ok {target v b : Bytes} :
    putU32Bytes target v = .ok b ↔ v.length < 256 ^ 4 ∧ b = target ++ prefixed 4 v :=
  putBytes_eq_ok

theorem encodeOutputs_eq_ok {limits : EnvelopeLimits} {ds : List OutputDeclaration}
    {seen : List UInt16} {start b : Bytes} : encodeOutputs limits ds seen start = .ok b ↔
      Declarable limits seen ds ∧ b = start ++ ds.flatMap declarationBytes := by
  induction ds generalizing seen start with
  | nil => simp [encodeOutputs, Declarable, eq_comm]
  | cons d ds ih =>
      rw [encodeOutputs, declarable_cons, List.flatMap_cons]
      by_cases hseen : d.outputIndex ∈ seen
      · rw [if_pos hseen]
        exact ⟨nofun, fun h ↦ absurd hseen h.1.1⟩
      · rw [if_neg hseen]
        simp only [bind_eq_ok, checkName_eq_ok, checkState_eq_ok, putU16Bytes_eq_ok,
          putU32Bytes_eq_ok, ih]
        constructor
        · rintro ⟨-, hid, -, hactor, -, hstate, _, ⟨hidW, rfl⟩, _, ⟨hactorW, rfl⟩, _,
            ⟨hstateW, rfl⟩, hrest, rfl⟩
          refine ⟨⟨hseen, ⟨hid, hactor, hstate, hidW, hactorW, hstateW⟩, hrest⟩, ?_⟩
          simp only [declarationBytes, List.append_assoc]
        · rintro ⟨⟨-, ⟨hid, hactor, hstate, hidW, hactorW, hstateW⟩, hrest⟩, rfl⟩
          refine ⟨(), hid, (), hactor, (), hstate, _, ⟨hidW, rfl⟩, _, ⟨hactorW, rfl⟩, _,
            ⟨hstateW, rfl⟩, hrest, ?_⟩
          simp only [declarationBytes, List.append_assoc]

/-- The encoder writes the bytes of what is encodable. -/
theorem encodeEnvelope_eq_ok {e : ArgiEnvelope} {limits : EnvelopeLimits} {b : Bytes} :
    encodeEnvelope e limits = .ok b ↔ Encodable limits e ∧ b = envelopeBytes e := by
  have hbytes : ((magic ++ [version, 0] ++ prefixed 4 e.applicationPayload) ++
      fixed 2 e.outputs.length) ++ e.outputs.flatMap declarationBytes = envelopeBytes e := by
    simp only [envelopeBytes, List.append_assoc, List.cons_append, List.nil_append]
  unfold encodeEnvelope
  simp only [bind_eq_ok, checkOutputCount_eq_ok, putU32Bytes_eq_ok]
  constructor
  · rintro ⟨-, hcount, _, ⟨hpayload, rfl⟩, h⟩
    by_cases hwidth : e.outputs.length < 256 ^ 2
    · rw [if_pos hwidth, bind_eq_ok] at h
      obtain ⟨_, hloop, h⟩ := h
      obtain ⟨houtputs, rfl⟩ := encodeOutputs_eq_ok.mp hloop
      rw [hbytes] at h
      by_cases htotal : limits.maxEnvelopeBytes < (envelopeBytes e).length
      · rw [if_pos htotal] at h
        cases h
      · rw [if_neg htotal, Except.ok.injEq] at h
        exact ⟨⟨hcount, hwidth, hpayload, houtputs, Nat.not_lt.mp htotal⟩, h.symm⟩
    · rw [if_neg hwidth] at h
      cases h
  · rintro ⟨⟨hcount, hwidth, hpayload, houtputs, htotal⟩, rfl⟩
    refine ⟨(), hcount, _, ⟨hpayload, rfl⟩, ?_⟩
    rw [if_pos hwidth, bind_eq_ok]
    refine ⟨_, encodeOutputs_eq_ok.mpr ⟨houtputs, rfl⟩, ?_⟩
    rw [hbytes, if_neg (Nat.not_lt.mpr htotal)]

/-! ## The decoder -/

namespace Reader

variable {r r' : Reader} {width : Nat} {b : Bytes} {s field : String}

theorem take_eq_ok {n : Nat} : take r n = .ok (b, r') ↔ b.length = n ∧ r.Reads b r' := by
  rw [← Cursor.take_eq_some, take]
  cases Cursor.take r n with
  | none => exact ⟨nofun, nofun⟩
  | some read => rw [Except.ok.injEq, Option.some.injEq]

theorem uint_eq_ok {n : Nat} :
    uint r width = .ok (n, r') ↔ n < 256 ^ width ∧ r.Reads (fixed width n) r' := by
  unfold uint
  simp only [bind_eq_ok, Prod.exists, take_eq_ok, Except.ok.injEq, Prod.mk.injEq]
  constructor
  · rintro ⟨b, _, ⟨rfl, hb⟩, rfl, rfl⟩
    rw [fixed_value]
    exact ⟨value_lt b, hb⟩
  · rintro ⟨hn, hb⟩
    exact ⟨_, _, ⟨length_fixed width n, hb⟩, value_fixed hn, rfl⟩

theorem u8_eq_ok {x : UInt8} : u8 r = .ok (x, r') ↔ r.Reads [x] r' := by
  have hfixed : fixed 1 x.toNat = [x] := by
    rw [fixed, UInt8.ofNat_toNat, fixed]
  unfold u8
  simp only [bind_eq_ok, Prod.exists, uint_eq_ok, Except.ok.injEq, Prod.mk.injEq]
  constructor
  · rintro ⟨n, _, ⟨-, hread⟩, rfl, rfl⟩
    exact hread
  · intro h
    exact ⟨x.toNat, r', ⟨x.toNat_lt, hfixed ▸ h⟩, UInt8.ofNat_toNat, rfl⟩

theorem u16_eq_ok {x : UInt16} : u16 r = .ok (x, r') ↔ r.Reads (fixed 2 x.toNat) r' := by
  unfold u16
  simp only [bind_eq_ok, Prod.exists, uint_eq_ok, Except.ok.injEq, Prod.mk.injEq]
  constructor
  · rintro ⟨n, _, ⟨hn, hread⟩, rfl, rfl⟩
    rwa [UInt16.toNat_ofNat_of_lt' (by simpa using hn)]
  · intro h
    exact ⟨x.toNat, r', ⟨x.toNat_lt, h⟩, UInt16.ofNat_toNat, rfl⟩

theorem bytesOf_eq_ok : bytesOf r width = .ok (b, r') ↔
    b.length < 256 ^ width ∧ r.Reads (prefixed width b) r' := by
  unfold bytesOf
  simp only [bind_eq_ok, Prod.exists, uint_eq_ok, take_eq_ok, prefixed, Cursor.reads_append]
  constructor
  · rintro ⟨_, m, ⟨hlen, hread⟩, rfl, hb⟩
    exact ⟨hlen, m, hread, hb⟩
  · rintro ⟨hlen, m, hread, hb⟩
    exact ⟨_, m, ⟨hlen, hread⟩, rfl, hb⟩

theorem stringOf_eq_ok : stringOf r width field = .ok (s, r') ↔
    (utf8Bytes s).length < 256 ^ width ∧ r.Reads (prefixed width (utf8Bytes s)) r' := by
  unfold stringOf
  simp only [bind_eq_ok, Prod.exists, bytesOf_eq_ok]
  constructor
  · rintro ⟨b, m, hread, h⟩
    cases htext : fromUtf8 b with
    | none =>
        rw [htext] at h
        cases h
    | some t =>
        rw [htext, Except.ok.injEq, Prod.mk.injEq] at h
        obtain ⟨rfl, rfl⟩ := h
        rwa [← fromUtf8_eq_some.mp htext]
  · intro h
    refine ⟨utf8Bytes s, r', h, ?_⟩
    rw [fromUtf8_eq_some.mpr rfl]

end Reader

theorem takeArtifactId_eq_ok {r r' : Reader} {id : Bytes32} :
    takeArtifactId r = .ok (id, r') ↔ r.Reads id.val r' := by
  unfold takeArtifactId
  simp only [bind_eq_ok, Prod.exists, Reader.take_eq_ok]
  constructor
  · rintro ⟨b, m, ⟨hlen, hread⟩, h⟩
    rw [toBytes32, dif_pos hlen, Except.ok.injEq, Prod.mk.injEq] at h
    obtain ⟨rfl, rfl⟩ := h
    exact hread
  · intro h
    refine ⟨id.val, r', ⟨id.2, h⟩, ?_⟩
    rw [toBytes32, dif_pos id.2]

theorem decodeOutputs_eq_ok {limits : EnvelopeLimits} {count : Nat} {seen : List UInt16}
    {r r' : Reader} {ds : List OutputDeclaration} :
    decodeOutputs limits count seen r = .ok (ds, r') ↔
      ds.length = count ∧ Declarable limits seen ds ∧ r.Reads (ds.flatMap declarationBytes) r' := by
  induction count generalizing seen r r' ds with
  | zero =>
      rw [decodeOutputs, Except.ok.injEq, Prod.mk.injEq, List.length_eq_zero_iff]
      constructor
      · rintro ⟨rfl, rfl⟩
        exact ⟨rfl, ⟨fun _ hd ↦ absurd hd List.not_mem_nil, List.nodup_nil⟩,
          Cursor.reads_nil.mpr rfl⟩
      · rintro ⟨rfl, -, hread⟩
        exact ⟨rfl, (Cursor.reads_nil.mp hread).symm⟩
  | succ count ih =>
      simp only [decodeOutputs, bind_eq_ok, Prod.exists, Reader.u16_eq_ok]
      constructor
      · rintro ⟨index, r₁, hindex, h⟩
        by_cases hseen : index ∈ seen
        · rw [if_pos hseen] at h
          cases h
        · simp only [if_neg hseen, bind_eq_ok, Prod.exists, Reader.stringU16, Reader.stringU32,
            Reader.stringOf_eq_ok, checkName_eq_ok, checkState_eq_ok, takeArtifactId_eq_ok, ih,
            Except.ok.injEq, Prod.mk.injEq] at h
          obtain ⟨id, r₂, ⟨hidW, hidR⟩, -, hid, artifact, r₃, hart, actor, r₄, ⟨hactorW, hactorR⟩,
            -, hactor, state, r₅, ⟨hstateW, hstateR⟩, -, hstate, ds', r₆, ⟨hlen, hrest, hloop⟩,
            rfl, rfl⟩ := h
          rw [declarable_cons, List.flatMap_cons, List.length_cons, hlen]
          refine ⟨rfl, ⟨hseen, ⟨hid, hactor, hstate, hidW, hactorW, hstateW⟩, hrest⟩, ?_⟩
          simp only [declarationBytes, Cursor.reads_append]
          exact ⟨r₅, ⟨r₁, hindex, r₂, hidR, r₃, hart, r₄, hactorR, hstateR⟩, hloop⟩
      · rintro ⟨hlen, hds, hread⟩
        obtain ⟨d, ds, rfl⟩ := List.exists_cons_of_length_eq_add_one hlen
        rw [declarable_cons] at hds
        obtain ⟨hseen, hfits, hrest⟩ := hds
        simp only [List.flatMap_cons, declarationBytes, Cursor.reads_append] at hread
        obtain ⟨r₅, ⟨r₁, hindex, r₂, hidR, r₃, hart, r₄, hactorR, hstateR⟩, hloop⟩ := hread
        refine ⟨d.outputIndex, r₁, hindex, ?_⟩
        simp only [if_neg hseen, bind_eq_ok, Prod.exists, Reader.stringU16, Reader.stringU32,
          Reader.stringOf_eq_ok, checkName_eq_ok, checkState_eq_ok, takeArtifactId_eq_ok, ih,
          Except.ok.injEq, Prod.mk.injEq]
        exact ⟨d.applicationId, r₂, ⟨hfits.applicationWidth, hidR⟩, (), hfits.applicationId,
          d.artifactId, r₃, hart, d.actorPath, r₄, ⟨hfits.actorWidth, hactorR⟩, (),
          hfits.actorPath, d.stateJson, r₅, ⟨hfits.stateWidth, hstateR⟩, (), hfits.stateJson, ds,
          r', ⟨Nat.succ.inj hlen, hrest, hloop⟩, rfl, rfl⟩

/-- What the decoder reads is the bytes of what it returns. -/
theorem readEnvelope_eq_ok {limits : EnvelopeLimits} {r r' : Reader} {e : ArgiEnvelope} :
    readEnvelope limits r = .ok (e, r') ↔
      e.outputs.length ≤ limits.maxOutputDeclarations ∧ e.outputs.length < 256 ^ 2 ∧
        e.applicationPayload.length < 256 ^ 4 ∧ Declarable limits [] e.outputs ∧
        r.Reads (envelopeBytes e) r' := by
  simp only [readEnvelope, bind_eq_ok, Prod.exists, Reader.take_eq_ok, envelopeBytes,
    Cursor.reads_append]
  constructor
  · rintro ⟨m, r₁, ⟨-, hmagic⟩, h⟩
    by_cases hm : m ≠ magic
    · rw [if_pos hm] at h
      cases h
    · simp only [if_neg hm, bind_eq_ok, Prod.exists, Reader.u8_eq_ok] at h
      obtain ⟨v, r₂, hversion, h⟩ := h
      by_cases hv : v ≠ version
      · rw [if_pos hv] at h
        cases h
      · simp only [if_neg hv, bind_eq_ok, Prod.exists, Reader.u8_eq_ok] at h
        obtain ⟨flags, r₃, hflags, h⟩ := h
        by_cases hf : flags ≠ 0
        · rw [if_pos hf] at h
          cases h
        · simp only [if_neg hf, bind_eq_ok, Prod.exists, Reader.bytesU32, Reader.bytesOf_eq_ok,
            Reader.u16_eq_ok, checkOutputCount_eq_ok, decodeOutputs_eq_ok, Except.ok.injEq,
            Prod.mk.injEq] at h
          obtain ⟨payload, r₄, ⟨hpayloadW, hpayload⟩, count, r₅, hcountR, -, hcount, ds, r₆,
            ⟨hlen, hds, hloop⟩, rfl, rfl⟩ := h
          rw [not_not] at hm hv hf
          subst hm hv hf
          dsimp only
          rw [hlen]
          exact ⟨hcount, count.toNat_lt, hpayloadW, hds, r₁, hmagic, r₂, hversion, r₃, hflags, r₄,
            hpayload, r₅, hcountR, hloop⟩
  · rintro ⟨hcount, hcountW, hpayloadW, hds, r₁, hmagic, r₂, hversion, r₃, hflags, r₄, hpayload,
      r₅, hcountR, hloop⟩
    have hcountNat : (UInt16.ofNat e.outputs.length).toNat = e.outputs.length :=
      UInt16.toNat_ofNat_of_lt' (by simpa using hcountW)
    refine ⟨magic, r₁, ⟨rfl, hmagic⟩, ?_⟩
    simp only [ne_eq, not_true_eq_false, if_false, bind_eq_ok, Prod.exists, Reader.u8_eq_ok]
    refine ⟨version, r₂, hversion, ?_⟩
    simp only [not_true_eq_false, if_false, bind_eq_ok, Prod.exists, Reader.u8_eq_ok]
    refine ⟨0, r₃, hflags, ?_⟩
    simp only [not_true_eq_false, if_false, bind_eq_ok, Prod.exists, Reader.bytesU32,
      Reader.bytesOf_eq_ok, Reader.u16_eq_ok, checkOutputCount_eq_ok, decodeOutputs_eq_ok,
      Except.ok.injEq, Prod.mk.injEq]
    refine ⟨e.applicationPayload, r₄, ⟨hpayloadW, hpayload⟩, .ofNat e.outputs.length, r₅, ?_, (),
      ?_, e.outputs, r', ⟨?_, hds, hloop⟩, rfl, rfl⟩
    · rwa [hcountNat]
    · rwa [hcountNat]
    · rw [hcountNat]

/-- The decoder accepts the bytes of what is encodable. -/
theorem decodeEnvelope_eq_ok {e : ArgiEnvelope} {limits : EnvelopeLimits} {b : Bytes} :
    decodeEnvelope b limits = .ok e ↔ Encodable limits e ∧ b = envelopeBytes e := by
  unfold decodeEnvelope
  constructor
  · intro h
    by_cases htotal : limits.maxEnvelopeBytes < b.length
    · rw [if_pos htotal] at h
      cases h
    · simp only [if_neg htotal, bind_eq_ok, Prod.exists] at h
      obtain ⟨e', r, hread, h⟩ := h
      by_cases hdone : r.done = true
      · rw [if_pos hdone, Except.ok.injEq] at h
        subst h
        obtain ⟨hcount, hcountW, hpayloadW, hds, hread⟩ := readEnvelope_eq_ok.mp hread
        have hb := Cursor.start_reads_done.mp ⟨r, hread, hdone⟩
        rw [← hb] at htotal
        exact ⟨⟨hcount, hcountW, hpayloadW, hds, Nat.not_lt.mp htotal⟩, hb.symm⟩
      · rw [if_neg hdone] at h
        cases h
  · rintro ⟨he, rfl⟩
    obtain ⟨r, hread, hdone⟩ := Cursor.start_reads_done.mpr (rfl : envelopeBytes e = _)
    simp only [if_neg (Nat.not_lt.mpr he.total), bind_eq_ok, Prod.exists]
    refine ⟨e, r, readEnvelope_eq_ok.mpr ⟨he.count, he.countWidth, he.payloadWidth, he.outputs,
      hread⟩, ?_⟩
    rw [if_pos hdone]

/-! ## The codec -/

/-- What is read of an encodable envelope, whatever follows it. -/
theorem Encodable.read {limits : EnvelopeLimits} {e : ArgiEnvelope} (he : Encodable limits e)
    {r r' : Reader} (h : r.Reads (envelopeBytes e) r') : readEnvelope limits r = .ok (e, r') :=
  readEnvelope_eq_ok.mpr ⟨he.count, he.countWidth, he.payloadWidth, he.outputs, h⟩

/-- No payload is the front of another. -/
theorem Encodable.front_eq {limits : EnvelopeLimits} {e e' : ArgiEnvelope}
    (he : Encodable limits e) (he' : Encodable limits e') {more : Bytes}
    (h : envelopeBytes e ++ more = envelopeBytes e') : more = [] := by
  obtain ⟨r, hread, hrest⟩ := Cursor.exists_reads (c := Cursor.start (envelopeBytes e')) h.symm
  obtain ⟨r', hread', hdone⟩ := Cursor.start_reads_done.mpr (rfl : envelopeBytes e' = _)
  have hsame := (he.read hread).symm.trans (he'.read hread')
  obtain ⟨-, rfl⟩ := Prod.mk.inj (Except.ok.inj hsame)
  exact hrest.symm.trans (Cursor.done_iff.mp hdone)

/-- **The two passes agree.**  What the encoder writes decodes to the envelope and is read to
its end; what the decoder accepts is what the encoder writes of the envelope it returns; and
nothing longer or shorter than an accepted payload is accepted. -/
theorem envelope_codec (limits : EnvelopeLimits) :
    (∀ e b, encodeEnvelope e limits = .ok b → decodeEnvelope b limits = .ok e ∧
      ∃ r, readEnvelope limits (Cursor.start b) = .ok (e, r) ∧ r.offset = b.length) ∧
    (∀ b e, decodeEnvelope b limits = .ok e → encodeEnvelope e limits = .ok b) ∧
    (∀ b, (∃ e, decodeEnvelope b limits = .ok e) ↔ ∃ e, encodeEnvelope e limits = .ok b) ∧
    ∀ b e, decodeEnvelope b limits = .ok e → ∀ more, more ≠ [] →
      (∀ e', decodeEnvelope (b ++ more) limits ≠ .ok e') ∧
        ∀ front e', front ++ more = b → decodeEnvelope front limits ≠ .ok e' := by
  have hback : ∀ b e, decodeEnvelope b limits = .ok e → encodeEnvelope e limits = .ok b :=
    fun b e h ↦ encodeEnvelope_eq_ok.mpr (decodeEnvelope_eq_ok.mp h)
  have hforth : ∀ e b, encodeEnvelope e limits = .ok b → decodeEnvelope b limits = .ok e :=
    fun e b h ↦ decodeEnvelope_eq_ok.mpr (encodeEnvelope_eq_ok.mp h)
  refine ⟨fun e b h ↦ ⟨hforth e b h, ?_⟩, hback, fun b ↦ ?_, fun b e h more hmore ↦ ⟨?_, ?_⟩⟩
  · obtain ⟨he, rfl⟩ := encodeEnvelope_eq_ok.mp h
    obtain ⟨r, hread, hdone⟩ := Cursor.start_reads_done.mpr (rfl : envelopeBytes e = _)
    refine ⟨r, he.read hread, ?_⟩
    rw [hread.offset_eq]
    exact Nat.zero_add _
  · exact ⟨fun ⟨e, h⟩ ↦ ⟨e, hback b e h⟩, fun ⟨e, h⟩ ↦ ⟨e, hforth e b h⟩⟩
  · intro e' h'
    obtain ⟨he, rfl⟩ := decodeEnvelope_eq_ok.mp h
    obtain ⟨he', hlong⟩ := decodeEnvelope_eq_ok.mp h'
    exact hmore (he.front_eq he' hlong)
  · rintro front e' rfl h'
    obtain ⟨he, hlong⟩ := decodeEnvelope_eq_ok.mp h
    obtain ⟨he', rfl⟩ := decodeEnvelope_eq_ok.mp h'
    exact hmore (he'.front_eq he hlong)

theorem length_counterId : (List.replicate 32 (0x11 : UInt8)).length = 32 :=
  List.length_replicate

/-- One declaration, of a counter's state. -/
def counterEnvelope : ArgiEnvelope where
  applicationPayload := [0xaa, 0xbb]
  outputs := [
    { outputIndex := 3
      applicationId := "counter"
      artifactId := ⟨List.replicate 32 0x11, length_counterId⟩
      actorPath := "Counter"
      stateJson := "\x7b\"count\":\x7b\"kind\":\"int\",\"value\":7\x7d\x7d" }]

theorem envelope_codec_counter : ∃ b limits, encodeEnvelope counterEnvelope limits = .ok b ∧
    decodeEnvelope b limits = .ok counterEnvelope ∧
    (∀ e, decodeEnvelope (b ++ [0]) limits ≠ .ok e) := by
  have hcodec := envelope_codec ⟨1024, 4, 32, 128⟩
  have hencode : encodeEnvelope counterEnvelope ⟨1024, 4, 32, 128⟩ =
      .ok (envelopeBytes counterEnvelope) := rfl
  have hdecode := (hcodec.1 _ _ hencode).1
  exact ⟨_, _, hcodec.2.1 _ _ hdecode, hdecode, (hcodec.2.2.2 _ _ hdecode [0] (by decide)).1⟩

end Argent

end Kascov
