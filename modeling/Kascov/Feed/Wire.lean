import Kascov.Feed.StreamLaw
import Kascov.Lib.LittleEndian
import Kascov.Passport.Claim
import Kascov.Preflight.Fields

/-!
# The Python client of a stream

`kascov.py` reads a stream line by line.  It gives an event out at the blank line behind it, keeps
the id of the last one it gave out, and comes back with that id when the response ends, wherever
it was cut.  A reset sends it to a snapshot, from whose cursor it reopens.
-/

namespace Kascov

/-! ## Cursors as text -/

/-- The sixteen bytes of an epoch. -/
def StreamEpoch.toBytes (e : StreamEpoch) : Bytes := (LittleEndian.fixed 16 e.bytes.toNat).reverse

/-- `Display` of an epoch. -/
def StreamEpoch.text (e : StreamEpoch) : Text := toHex e.toBytes

/-- `Display` of a cursor. -/
def StreamCursor.text (c : StreamCursor) : Text := c.epoch.text ++ ':' :: Nat.toDigits 10 c.seq

/-- `is_ascii_digit`, or one of `a` to `f`. -/
def epochDigit (c : Char) : Bool := ('0' ≤ c && c ≤ '9') || ('a' ≤ c && c ≤ 'f')

/-- `FromStr` of an epoch. -/
def parseEpoch (value : Text) : Option StreamEpoch :=
  if value.length = 32 ∧ value.all epochDigit then
    (hexBytes value).map fun bytes ↦ ⟨.ofNat 128 (LittleEndian.value bytes.reverse)⟩
  else none

/-- `FromStr` of a cursor. -/
def parseCursor (value : Text) : Option StreamCursor :=
  match value.dropWhile (· ≠ ':') with
  | ':' :: seq =>
      if ':' ∈ seq then none
      else do
        let epoch ← parseEpoch (value.takeWhile (· ≠ ':'))
        let seq ← Preflight.parseU64 seq
        return ⟨epoch, seq.toNat⟩
  | _ => none

theorem epochDigit_hexDigit {n : Nat} (h : n < 16) : epochDigit (hexDigit n) = true := by
  have hall : ∀ n : Fin 16, epochDigit (hexDigit n) = true := by decide
  exact hall ⟨n, h⟩

theorem epochDigit_of_mem_toHex {bytes : Bytes} {c : Char} (hc : c ∈ toHex bytes) :
    epochDigit c = true := by
  obtain ⟨b, -, hc⟩ := List.mem_flatMap.mp hc
  have hb := b.toNat_lt
  simp only [List.mem_cons, List.not_mem_nil, or_false] at hc
  rcases hc with rfl | rfl
  · exact epochDigit_hexDigit (by omega)
  · exact epochDigit_hexDigit (Nat.mod_lt _ (by decide))

theorem length_toBytes (e : StreamEpoch) : e.toBytes.length = 16 := by
  rw [StreamEpoch.toBytes, List.length_reverse, LittleEndian.length_fixed]

/-- An epoch reads back. -/
theorem parseEpoch_text (e : StreamEpoch) : parseEpoch e.text = some e := by
  have hlength : e.text.length = 32 := by
    rw [StreamEpoch.text, length_toHex, length_toBytes]
  have hdigits : e.text.all epochDigit = true :=
    List.all_eq_true.mpr fun c hc ↦ epochDigit_of_mem_toHex hc
  rw [parseEpoch, if_pos ⟨hlength, hdigits⟩, StreamEpoch.text, hexBytes_toHex, Option.map_some,
    StreamEpoch.toBytes, List.reverse_reverse, LittleEndian.value_fixed e.bytes.isLt,
    BitVec.ofNat_toNat, BitVec.setWidth_eq]

/-! ## Numbers as text -/

theorem digitsValue_eq {t : Text} (h : ∀ c ∈ t, c.isDigit = true) (n : Nat) :
    Preflight.digitsValue n t = some (Nat.ofDigitChars 10 t n) := by
  induction t generalizing n with
  | nil => rfl
  | cons c t ih =>
      rw [Preflight.digitsValue, if_pos (h c List.mem_cons_self), Nat.ofDigitChars_cons]
      exact ih (fun d hd ↦ h d (List.mem_cons_of_mem _ hd)) _

/-- A number reads back when it is a `u64`. -/
theorem parseU64_toDigits (n : Nat) :
    Preflight.parseU64 (Nat.toDigits 10 n) =
      if n < 2 ^ 64 then some (UInt64.ofNat n) else none := by
  have hdigits : ∀ c ∈ Nat.toDigits 10 n, c.isDigit = true := fun c hc ↦
    Nat.isDigit_of_mem_toDigits (by decide) (by decide) hc
  have hvalue : Preflight.digitsValue 0 (Nat.toDigits 10 n) = some n := by
    rw [digitsValue_eq hdigits, Nat.ofDigitChars_ten_toDigits]
  cases hcase : Nat.toDigits 10 n with
  | nil => exact absurd hcase Nat.toDigits_ne_nil
  | cons c rest =>
      have hplus : c ≠ '+' := by
        rintro rfl
        exact absurd (hdigits '+' (hcase ▸ List.mem_cons_self)) (by decide)
      rw [hcase] at hvalue
      unfold Preflight.parseU64
      split
      next heq =>
        split at heq
        next rest' hcons => exact absurd (List.cons.inj hcons).1 hplus
        next => cases heq
      next =>
        split
        next rest' hcons => exact absurd (List.cons.inj hcons).1 hplus
        next =>
          rw [hvalue, Option.filter_some]
          by_cases h : n < 2 ^ 64
          · rw [if_pos (decide_eq_true h), if_pos h]
            rfl
          · rw [if_neg (by rw [decide_eq_true_eq]; exact h), if_neg h]
            rfl

theorem colon_not_mem_text (e : StreamEpoch) : ∀ c ∈ e.text, c ≠ ':' := by
  rintro c hc rfl
  exact absurd (epochDigit_of_mem_toHex hc) (by decide)

/-- A cursor reads back when its number is a `u64`. -/
theorem parseCursor_text (c : StreamCursor) :
    parseCursor c.text = if c.seq < 2 ^ 64 then some c else none := by
  have hepoch : ∀ d ∈ c.epoch.text, decide (d ≠ ':') = true := fun d hd ↦
    decide_eq_true (colon_not_mem_text c.epoch d hd)
  have hseq : ':' ∉ Nat.toDigits 10 c.seq := fun hmem ↦
    absurd (Nat.isDigit_of_mem_toDigits (by decide) (by decide) hmem) (by decide)
  have hdrop : c.text.dropWhile (· ≠ ':') = ':' :: Nat.toDigits 10 c.seq := by
    rw [StreamCursor.text, List.dropWhile_append_of_pos hepoch, List.dropWhile_cons_of_neg]
    decide
  have htake : c.text.takeWhile (· ≠ ':') = c.epoch.text := by
    rw [StreamCursor.text, List.takeWhile_append_of_pos hepoch, List.takeWhile_cons_of_neg,
      List.append_nil]
    decide
  simp only [parseCursor, hdrop, htake]
  rw [if_neg hseq, parseEpoch_text, parseU64_toDigits]
  by_cases h : c.seq < 2 ^ 64
  · rw [if_pos h, if_pos h]
    change some (⟨c.epoch, (UInt64.ofNat c.seq).toNat⟩ : StreamCursor) = some c
    rw [UInt64.toNat_ofNat_of_lt' h]
  · rw [if_neg h, if_neg h]
    rfl

/-! ## The events of a response -/

variable {π δ : Type}

/-- What a stream's response is made of. -/
inductive StreamEvent (π : Type) where
  | ready (after current : StreamCursor)
  | frame (frame : StreamFrame π)
  | reset (reason : String) (current : StreamCursor)
  | keepAlive

/-- The id of an event. -/
def StreamEvent.id : StreamEvent π → Option StreamCursor
  | .frame f => f.id
  | _ => none

def StreamEvent.frame? : StreamEvent π → Option (StreamFrame π)
  | .frame f => some f
  | _ => none

/-- The `event` field of a record. -/
def kindName : DeliveryKind → String
  | .accepted => "accepted"
  | .removed => "removed"
  | .projectionRepaired => "projection_repaired"

/-- The `event` field, `message` where there is none. -/
def StreamEvent.name : StreamEvent π → String
  | .ready _ _ => "ready"
  | .frame (.delivery record) => kindName record.kind
  | .frame (.checkpoint _) => "checkpoint"
  | .frame (.pending _) => "message"
  | .reset _ _ => "reset"
  | .keepAlive => "message"

/-- The JSON of the events, and what `json.loads` makes of a text: a dictionary, or nothing of use.
A text is one line and an object. -/
structure FeedJson (π δ : Type) where
  text : StreamEvent π → Text
  loads : Text → Option δ
  dict : StreamEvent π → δ
  /-- `payload.get("snapshot")`, where it is a path. -/
  snapshot : δ → Option Text
  loads_text : ∀ e, loads (text e) = some (dict e)
  oneLine : ∀ e, '\n' ∉ text e
  opens : ∀ e, (text e).head? = some '\x7b'
  closes : ∀ e, (text e).getLast? = some '\x7d'
  reset : ∀ reason current, (snapshot (dict (.reset reason current))).isSome = true

/-- `bytes.decode("utf-8", "replace")`. -/
structure LossyUtf8 where
  decode : Bytes → Text
  decode_utf8 : ∀ t, decode (utf8 t) = t
  decode_ascii : ∀ b bytes, b.toNat < 128 →
    decode (b :: bytes) = Char.ofNat b.toNat :: decode bytes

/-- A field of an event. -/
def sseField (name : String) (value : Text) : Text := name.toList ++ ':' :: ' ' :: value

/-- The lines of an event: `stream_frame_event`, the `ready` and `reset` events, and what keeps a
connection alive. -/
def StreamEvent.lines (json : FeedJson π δ) (e : StreamEvent π) : List Text :=
  match e with
  | .ready _ _ => [sseField "retry" "1000".toList, sseField "event" e.name.toList,
      sseField "data" (json.text e)]
  | .frame (.delivery record) => [sseField "id" record.cursor.text, sseField "event" e.name.toList,
      sseField "data" (json.text e)]
  | .frame (.checkpoint cursor) => [sseField "id" cursor.text, sseField "event" e.name.toList,
      sseField "data" (json.text e)]
  | .frame (.pending _) => [sseField "data" (json.text e)]
  | .reset _ _ => [sseField "retry" "1000".toList, sseField "event" e.name.toList,
      sseField "data" (json.text e)]
  | .keepAlive => [sseField "" "ka".toList]

/-- The bytes of a line. -/
def lineBytes (line : Text) : Bytes := utf8 line ++ [10]

def StreamEvent.bytes (json : FeedJson π δ) (e : StreamEvent π) : Bytes :=
  (e.lines json).flatMap lineBytes ++ [10]

/-! ## The loop of the client -/

/-- `str.isspace`. -/
def isSpace (c : Char) : Bool :=
  Preflight.isWhitespace c || (0x1c ≤ c.toNat && c.toNat ≤ 0x1f)

/-- `strip`. -/
def strip (t : Text) : Text := (t.dropWhile isSpace).rdropWhile isSpace

/-- `rstrip("\r\n")`. -/
def chomp (t : Text) : Text := t.rdropWhile fun c ↦ c = '\r' || c = '\n'

/-- What the loop has at a blank line. -/
structure Dispatch where
  name : Text
  id : Option Text
  data : Text
deriving DecidableEq

/-- The bytes of the present line, and `event_name`, `event_id` and `data`. -/
structure LineState where
  buffer : Bytes := []
  name : Text := "message".toList
  id : Option Text := none
  data : List Text := []

namespace LineState

/-- A line, as the loop takes it. -/
def line (s : LineState) (line : Text) : LineState × Option Dispatch :=
  if line = [] then
    ({}, if s.data = [] then none else some ⟨s.name, s.id, ['\n'].intercalate s.data⟩)
  else if "event:".toList <+: line then ({ s with buffer := [], name := strip (line.drop 6) }, none)
  else if "id:".toList <+: line then
    ({ s with buffer := [], id := some (strip (line.drop 3)) }, none)
  else if "data:".toList <+: line then
    ({ s with buffer := [], data := s.data ++ [(line.drop 5).dropWhile isSpace] }, none)
  else ({ s with buffer := [] }, none)

variable (utf : LossyUtf8)

/-- The next byte of the response. -/
def feed (s : LineState) (b : UInt8) : LineState × Option Dispatch :=
  if b = 10 then s.line (chomp (utf.decode (s.buffer ++ [10])))
  else ({ s with buffer := s.buffer ++ [b] }, none)

/-- The response ends, and what is left of it is its last line. -/
def finish (s : LineState) : Option Dispatch :=
  if s.buffer = [] then none else (s.line (chomp (utf.decode s.buffer))).2

def feedAll (s : LineState) : Bytes → LineState × List Dispatch
  | [] => (s, [])
  | b :: bytes =>
      let (s, d) := s.feed utf b
      let (s, ds) := s.feedAll bytes
      (s, d.toList ++ ds)

end LineState

/-! ## The client -/

/-- What the generator yields: the payload, with `_event`, `_cursor` and the cursor of
`_snapshot`. -/
structure Yielded (δ : Type) where
  payload : δ
  event : Text
  cursor : Option Text
  snapshot : Option Text := none

/-- The generator of `stream`: the `after` of its url, `cursor`, what it has yielded, and the
response that it reads. -/
structure PyClient (δ : Type) where
  after : Option Text
  cursor : Option Text := none
  yielded : List (Yielded δ) := []
  reading : Option LineState := none
  raised : Bool := false

namespace PyClient

variable (json : FeedJson π δ) (utf : LossyUtf8)

/-- An exception. -/
def failed (c : PyClient δ) : PyClient δ := { c with reading := none, raised := true }

/-- The body of `if data:`.  A reset needs the `stream_cursor` of a snapshot. -/
def take (snapshot : Option Text) (c : PyClient δ) (d : Dispatch) : PyClient δ :=
  match json.loads d.data with
  | none => c
  | some payload =>
      if d.name = "reset".toList then
        match json.snapshot payload, snapshot with
        | some _, some after => { c with
            after := some after
            cursor := none
            yielded := c.yielded ++ [⟨payload, d.name, d.id, some after⟩]
            reading := none }
        | _, _ => c.failed
      else { c with
        cursor := d.id.or c.cursor
        yielded := c.yielded ++ [⟨payload, d.name, d.id, none⟩] }

/-- What a blank line, if it was one, leads to. -/
def taken (snapshot : Option Text) (c : PyClient δ) (d : Option Dispatch) : PyClient δ :=
  d.elim c (c.take json snapshot)

/-- The next byte. -/
def byte (snapshot : Option Text) (c : PyClient δ) (b : UInt8) : PyClient δ :=
  match c.reading with
  | some s => { c with reading := some (s.feed utf b).1 }.taken json snapshot (s.feed utf b).2
  | none => c

/-- The response has ended. -/
def finish (snapshot : Option Text) (c : PyClient δ) : PyClient δ :=
  match c.reading with
  | some s => { c with reading := none }.taken json snapshot (s.finish utf)
  | none => c

/-- The cursor of the request, as `select_stream_start` reads it: the header, or the parameter. -/
def startCursor (c : PyClient δ) : Option (Option StreamCursor) :=
  match c.cursor.or c.after with
  | some raw => (parseCursor (Preflight.trimText raw)).map some
  | none => some none

end PyClient

/-! ## A client and its worker -/

/-- The worker, whose connection has an empty wire as its frames are written at once, the bytes of
the response that the client has not read, and the client. -/
structure WireWorld (π δ : Type) where
  hub : Publishing
  server : Option (Connection π) := none
  unread : Bytes := []
  client : PyClient δ

/-- What may happen next.  A snapshot, where one is asked for, is some records old, or fails. -/
inductive WireAction (π : Type) where
  | commit
  | send
  | connect
  | start
  | turn
  | recv
  | pending (message : π)
  | timer
  | keepAlive
  | close
  | byte (age : Option Nat)
  | finish (age : Option Nat)
  | fail

namespace WireWorld

variable (request : StreamRequest π) (json : FeedJson π δ) (utf : LossyUtf8)

/-- The `stream_cursor` of a snapshot. -/
def snapshot (w : WireWorld π δ) (age : Option Nat) : Option Text :=
  age.map fun age ↦ (⟨w.hub.epoch, w.hub.log.length - age⟩ : StreamCursor).text

/-- The server's side after a turn: its frames are written. -/
def written (w : WireWorld π δ) : Option (Connection π) → WireWorld π δ
  | some c => { w with
      server := some { c with wire := [] }
      unread := w.unread ++ c.wire.flatMap fun f ↦ (StreamEvent.frame f).bytes json }
  | none => { w with server := none }

/-- The client after it has read; a response that it leaves is gone. -/
def read (w : WireWorld π δ) (unread : Bytes) (client : PyClient δ) : WireWorld π δ :=
  if client.reading.isSome then { w with unread, client }
  else { w with server := none, unread := [], client }

/-- The handler has subscribed, and reads where the log ends. -/
def start (w : WireWorld π δ) (c : Connection π) : WireWorld π δ :=
  match deliveryStreamInfo w.hub.store, w.client.startCursor with
  | .ok info, some cursor =>
      match selectStreamStart cursor none info with
      | .reset reason current => { w with
          server := none
          unread := w.unread ++ (StreamEvent.reset reason current).bytes json }
      | .ready after => { w with
          server := some { c with stream := some (openStream after info) }
          unread := w.unread ++ (StreamEvent.ready after info.current).bytes json }
  | _, _ => w.read [] w.client.failed

def step (w : WireWorld π δ) : WireAction π → WireWorld π δ
  | .commit => { w with hub := w.hub.commit }
  | .send =>
      match w.hub.unsent with
      | [] => w
      | record :: rest => { w with
          hub := { w.hub with unsent := rest }
          server := w.server.map (·.offer record) }
  | .connect =>
      if w.client.reading.isNone ∧ ¬ w.client.raised then { w with
        server := some {}
        unread := []
        client := { w.client with reading := some {} } }
      else w
  | .start =>
      match w.server with
      | some c => if c.stream.isNone then w.start json c else w
      | none => w
  | .turn => w.written json (w.server.bind (·.turn request w.hub.store))
  | .recv => w.written json (w.server.bind (·.recv request))
  | .pending message =>
      w.written json (w.server.bind (·.select request (pendingTurn request · message)))
  | .timer => w.written json (w.server.bind (·.select request timerTurn))
  | .keepAlive =>
      if w.client.reading.isSome then { w with
        unread := w.unread ++ (StreamEvent.keepAlive : StreamEvent π).bytes json }
      else w
  | .close => { w with server := none }
  | .byte age =>
      match w.unread with
      | b :: rest => w.read rest (w.client.byte json utf (w.snapshot age) b)
      | [] => w
  | .finish age => w.read [] (w.client.finish json utf (w.snapshot age))
  | .fail => w.read [] w.client.failed

def run (w : WireWorld π δ) (actions : List (WireAction π)) : WireWorld π δ :=
  actions.foldl (step request json utf) w

/-- Before anything has happened. -/
def init (epoch : StreamEpoch) (events : List FollowerEvent) (after : Option Text) :
    WireWorld π δ where
  hub := ⟨epoch, [], events, []⟩
  client := { after }

end WireWorld

/-! ## Lines and bytes -/

/-- A byte of a character is the character itself, or no ASCII. -/
theorem mem_utf8EncodeChar {c : Char} {b : UInt8} (h : b ∈ String.utf8EncodeChar c) :
    (c.toNat < 128 ∧ b = UInt8.ofNat c.toNat) ∨ 128 ≤ b.toNat := by
  unfold String.utf8EncodeChar at h
  dsimp only at h
  split at h
  next hsmall =>
    have hc : c.toNat ≤ 127 := hsmall
    exact .inl ⟨by omega, List.mem_singleton.mp h⟩
  next =>
    right
    split at h
    next =>
      simp only [List.mem_cons, List.not_mem_nil, or_false] at h
      rcases h with rfl | rfl
      all_goals
        rw [UInt8.toNat_ofNat']
        omega
    next =>
      split at h
      next =>
        simp only [List.mem_cons, List.not_mem_nil, or_false] at h
        rcases h with rfl | rfl | rfl
        all_goals
          rw [UInt8.toNat_ofNat']
          omega
      next =>
        simp only [List.mem_cons, List.not_mem_nil, or_false] at h
        rcases h with rfl | rfl | rfl | rfl
        all_goals
          rw [UInt8.toNat_ofNat']
          omega

theorem newline_not_mem_utf8 {t : Text} (h : '\n' ∉ t) : (10 : UInt8) ∉ utf8 t := by
  intro hb
  obtain ⟨c, hc, hb⟩ := List.mem_flatMap.mp hb
  rcases mem_utf8EncodeChar hb with ⟨hlt, h10⟩ | hge
  · have hnat : (10 : UInt8).toNat = c.toNat := by
      rw [h10, UInt8.toNat_ofNat_of_lt' (hlt.trans (by decide))]
    have hchar : c = '\n' := Char.ext (UInt32.toNat_inj.mp hnat.symm)
    exact h (hchar ▸ hc)
  · exact absurd hge (by decide)

theorem utf8_cons_ascii {c : Char} (hc : c.toNat < 128) (t : Text) :
    utf8 (c :: t) = UInt8.ofNat c.toNat :: utf8 t := by
  rw [utf8, List.flatMap_cons, ← utf8]
  unfold String.utf8EncodeChar
  dsimp only
  have hle : c.val.toNat ≤ 127 := Nat.le_of_lt_succ hc
  rw [if_pos hle]
  rfl

/-- A line of an event: no blank one, which starts with a letter or a colon. -/
structure EventLine (line : Text) : Prop where
  head : ∃ c rest, line = c :: rest ∧ c.toNat < 128 ∧ c ≠ '\r'
  newline : '\n' ∉ line
  last : ∀ c, line.getLast? = some c → c ≠ '\r'

namespace LineState

variable (utf : LossyUtf8) {s : LineState}

theorem feedAll_append (s : LineState) (a b : Bytes) :
    s.feedAll utf (a ++ b) =
      (((s.feedAll utf a).1.feedAll utf b).1,
        (s.feedAll utf a).2 ++ ((s.feedAll utf a).1.feedAll utf b).2) := by
  induction a generalizing s with
  | nil => rfl
  | cons x a ih => simp [feedAll, ih]

/-- Bytes within a line are kept. -/
theorem feedAll_within {bytes : Bytes} (h : (10 : UInt8) ∉ bytes) (s : LineState) :
    s.feedAll utf bytes = ({ s with buffer := s.buffer ++ bytes }, []) := by
  induction bytes generalizing s with
  | nil => simp [feedAll]
  | cons b bytes ih =>
      have hb : b ≠ 10 := fun hb ↦ h (hb ▸ List.mem_cons_self)
      have hrest := ih (fun hmem ↦ h (List.mem_cons_of_mem _ hmem))
        { s with buffer := s.buffer ++ [b] }
      rw [feedAll, feed, if_neg hb]
      simp only [hrest, List.append_assoc, List.singleton_append, Option.toList_none,
        List.append_nil]

theorem chomp_line {line : Text} (h : EventLine line) : chomp (line ++ ['\n']) = line := by
  rw [chomp, List.rdropWhile_concat_pos _ _ _ (by decide), List.rdropWhile_eq_self_iff]
  intro hne hlast
  have hmem := List.getLast_mem hne
  simp only [Bool.or_eq_true, decide_eq_true_eq] at hlast
  rcases hlast with hlast | hlast
  · exact h.last _ (List.getLast?_eq_some_getLast hne) hlast
  · exact h.newline (hlast ▸ hmem)

/-- A line that is no blank one dispatches nothing. -/
theorem line_ne_nil {line : Text} (h : line ≠ []) (s : LineState) :
    (s.line line).2 = none ∧ (s.line line).1.buffer = [] := by
  rw [LineState.line, if_neg h]
  split
  · exact ⟨rfl, rfl⟩
  split
  · exact ⟨rfl, rfl⟩
  split
  all_goals exact ⟨rfl, rfl⟩

/-- A whole line. -/
theorem feedAll_lineBytes {line : Text} (h : EventLine line) (hs : s.buffer = []) :
    s.feedAll utf (lineBytes line) = ((s.line line).1, []) := by
  have hne : line ≠ [] := by
    obtain ⟨c, rest, rfl, -⟩ := h.head
    exact List.cons_ne_nil _ _
  have hdecode : utf.decode (utf8 line ++ [10]) = line ++ ['\n'] := by
    have hutf : utf8 (line ++ ['\n']) = utf8 line ++ [10] := by
      rw [utf8, List.flatMap_append]
      rfl
    rw [← hutf, utf.decode_utf8]
  have hline : ({ s with buffer := s.buffer ++ utf8 line } : LineState).line line =
      s.line line := by
    unfold LineState.line
    rfl
  rw [lineBytes, feedAll_append, feedAll_within utf (newline_not_mem_utf8 h.newline)]
  simp only [feedAll, feed, if_true, hs, List.nil_append, hdecode, chomp_line h]
  rw [hs, List.nil_append] at hline
  rw [hline, (line_ne_nil hne s).1]
  rfl

/-- What is left of a line at the end dispatches nothing. -/
theorem finish_of_line {line : Text} (h : EventLine line) {rest : Bytes}
    (hrest : s.buffer ++ rest = utf8 line) : s.finish utf = none := by
  obtain ⟨c, line', rfl, hascii, hreturn⟩ := h.head
  have hnewline : c ≠ '\n' := fun hc ↦ h.newline (hc ▸ List.mem_cons_self)
  rw [finish]
  split
  · rfl
  next hbuffer =>
    obtain ⟨b, bytes, hcons⟩ := List.exists_cons_of_ne_nil hbuffer
    rw [utf8_cons_ascii hascii, hcons, List.cons_append] at hrest
    have hb : b = UInt8.ofNat c.toNat := (List.cons.inj hrest).1
    have hbc : b.toNat = c.toNat := by
      rw [hb, UInt8.toNat_ofNat_of_lt' (hascii.trans (by decide))]
    rw [hcons, utf.decode_ascii b bytes (hbc ▸ hascii), hbc, Char.ofNat_toNat]
    refine (line_ne_nil ?_ s).1
    rw [chomp, Ne, List.rdropWhile_eq_nil_iff]
    intro hall
    have hc := hall c List.mem_cons_self
    simp only [Bool.or_eq_true, decide_eq_true_eq] at hc
    exact hc.elim hreturn hnewline

/-- The lines of an event, one after the other. -/
theorem feedAll_lines {lines : List Text} (h : ∀ line ∈ lines, EventLine line)
    (hs : s.buffer = []) :
    s.feedAll utf (lines.flatMap lineBytes) =
      (lines.foldl (fun s line ↦ (s.line line).1) s, []) := by
  induction lines generalizing s with
  | nil => rfl
  | cons line lines ih =>
      have hline := h line List.mem_cons_self
      have hne : line ≠ [] := by
        obtain ⟨c, rest, rfl, -⟩ := hline.head
        exact List.cons_ne_nil _ _
      rw [List.flatMap_cons, feedAll_append, feedAll_lineBytes utf hline hs]
      dsimp only
      rw [ih (fun l hl ↦ h l (List.mem_cons_of_mem _ hl)) (line_ne_nil hne s).2]
      rfl

/-- Lines that are cut anywhere dispatch nothing, not even at the end of the response. -/
theorem feedAll_cut {lines : List Text} (h : ∀ line ∈ lines, EventLine line) (hs : s.buffer = [])
    {cut : Bytes} (hcut : cut <+: lines.flatMap lineBytes) :
    (s.feedAll utf cut).2 = [] ∧ (s.feedAll utf cut).1.finish utf = none := by
  induction lines generalizing s cut with
  | nil =>
      obtain rfl := List.prefix_nil.mp hcut
      exact ⟨rfl, if_pos hs⟩
  | cons line lines ih =>
      have hline := h line List.mem_cons_self
      have hne : line ≠ [] := by
        obtain ⟨c, rest, rfl, -⟩ := hline.head
        exact List.cons_ne_nil _ _
      rw [List.flatMap_cons] at hcut
      by_cases hlength : (lineBytes line).length ≤ cut.length
      · -- the whole line is there
        obtain ⟨cut, rfl⟩ := List.prefix_of_prefix_length_le (List.prefix_append _ _) hcut hlength
        rw [feedAll_append, feedAll_lineBytes utf hline hs]
        exact ih (fun l hl ↦ h l (List.mem_cons_of_mem _ hl)) (line_ne_nil hne s).2
          ((List.prefix_append_right_inj _).mp hcut)
      · have hwithin : cut <+: utf8 line := by
          refine List.prefix_of_prefix_length_le hcut ?_ ?_
          · rw [lineBytes, List.append_assoc]
            exact List.prefix_append _ _
          · rw [lineBytes, List.length_append, List.length_singleton] at hlength
            omega
        have hnewline : (10 : UInt8) ∉ cut := fun hmem ↦
          newline_not_mem_utf8 hline.newline (hwithin.subset hmem)
        obtain ⟨rest, hrest⟩ := hwithin
        rw [feedAll_within utf hnewline]
        have hbuffer : (s.buffer ++ cut) ++ rest = utf8 line := by
          rw [hs, List.nil_append]
          exact hrest
        exact ⟨rfl, finish_of_line utf hline hbuffer⟩

end LineState

/-! ## The lines of an event -/

/-- A value without a blank. -/
def Solid (v : Text) : Prop := ∀ c ∈ v, isSpace c = false

theorem strip_blank {v : Text} (h : Solid v) : strip (' ' :: v) = v := by
  have hdrop : (' ' :: v).dropWhile isSpace = v := by
    rw [List.dropWhile_cons_of_pos (by decide)]
    cases v with
    | nil => rfl
    | cons c v => exact List.dropWhile_cons_of_neg (by simp [h c List.mem_cons_self])
  rw [strip, hdrop, List.rdropWhile_eq_self_iff]
  intro hne
  simp [h _ (List.getLast_mem hne)]

theorem isSpace_of_bounds {c : Char} (h : 33 ≤ c.toNat) (h' : c.toNat ≤ 127) :
    isSpace c = false := by
  simp only [isSpace, Preflight.isWhitespace, Bool.or_eq_false_iff, Bool.and_eq_false_iff,
    decide_eq_false_iff_not]
  omega

theorem isSpace_of_epochDigit {c : Char} (h : epochDigit c = true) : isSpace c = false := by
  simp only [epochDigit, Bool.or_eq_true, Bool.and_eq_true, decide_eq_true_eq] at h
  rcases h with ⟨hlo, hhi⟩ | ⟨hlo, hhi⟩
  · exact isSpace_of_bounds (le_trans (by decide) hlo) (le_trans hhi (by decide))
  · exact isSpace_of_bounds (le_trans (by decide) hlo) (le_trans hhi (by decide))

theorem StreamCursor.solid_text (c : StreamCursor) : Solid c.text := by
  intro d hd
  rcases List.mem_append.mp hd with hd | hd
  · exact isSpace_of_epochDigit (epochDigit_of_mem_toHex hd)
  · rcases List.mem_cons.mp hd with rfl | hd
    · decide
    · have hdigit := Nat.isDigit_of_mem_toDigits (by decide) (by decide) hd
      refine isSpace_of_epochDigit ?_
      rw [Char.isDigit, Bool.and_eq_true, decide_eq_true_eq, decide_eq_true_eq] at hdigit
      rw [epochDigit, Bool.or_eq_true, Bool.and_eq_true]
      exact .inl ⟨decide_eq_true hdigit.1, decide_eq_true hdigit.2⟩

theorem StreamEvent.solid_name (e : StreamEvent π) : e.name.toList ≠ [] ∧ Solid e.name.toList := by
  have hname : e.name ∈ ["ready", "accepted", "removed", "projection_repaired", "checkpoint",
      "message", "reset"] := by
    cases e with
    | frame f =>
        cases f with
        | delivery record =>
            rw [StreamEvent.name]
            cases record.kind with
            | accepted => simp [kindName]
            | removed => simp [kindName]
            | projectionRepaired => simp [kindName]
        | checkpoint cursor => simp [StreamEvent.name]
        | pending message => simp [StreamEvent.name]
    | ready after current => simp [StreamEvent.name]
    | reset reason current => simp [StreamEvent.name]
    | keepAlive => simp [StreamEvent.name]
  generalize e.name = name at hname
  have hletters : name.toList ≠ [] ∧ ∀ c ∈ name.toList, 33 ≤ c.toNat ∧ c.toNat ≤ 127 := by
    simp only [List.mem_cons, List.not_mem_nil, or_false] at hname
    rcases hname with rfl | rfl | rfl | rfl | rfl | rfl | rfl
    all_goals simp
  exact ⟨hletters.1, fun c hc ↦ isSpace_of_bounds (hletters.2 c hc).1 (hletters.2 c hc).2⟩

/-- A field is a line. -/
theorem eventLine_field (name : String) {v : Text}
    (hname : name ∈ ["", "id", "event", "data", "retry"]) (hne : v ≠ []) (hv : '\n' ∉ v)
    (hlast : ∀ c, v.getLast? = some c → c ≠ '\r') : EventLine (sseField name v) := by
  simp only [List.mem_cons, List.not_mem_nil, or_false] at hname
  obtain ⟨d, v, rfl⟩ := List.exists_cons_of_ne_nil hne
  refine ⟨?_, ?_, ?_⟩
  · rcases hname with rfl | rfl | rfl | rfl | rfl
    all_goals exact ⟨_, _, rfl, by decide, by decide⟩
  · rw [sseField, List.mem_append, List.mem_cons, List.mem_cons]
    rintro (h | h | h | h)
    · rcases hname with rfl | rfl | rfl | rfl | rfl
      all_goals exact absurd h (by decide)
    · exact absurd h (by decide)
    · exact absurd h (by decide)
    · exact hv h
  · intro c hc
    rw [sseField, List.getLast?_append_of_ne_nil _ (List.cons_ne_nil _ _),
      List.getLast?_cons_cons, List.getLast?_cons_cons] at hc
    exact hlast c hc

theorem Solid.eventLine (name : String) {v : Text}
    (hname : name ∈ ["", "id", "event", "data", "retry"]) (hne : v ≠ []) (hv : Solid v) :
    EventLine (sseField name v) := by
  refine eventLine_field name hname hne (fun hmem ↦ ?_) ?_
  · exact absurd (hv _ hmem) (by decide)
  · rintro c hc rfl
    exact absurd (hv _ (List.mem_of_getLast? hc)) (by decide)

theorem FeedJson.eventLine (json : FeedJson π δ) (e : StreamEvent π) :
    EventLine (sseField "data" (json.text e)) := by
  refine eventLine_field "data" (by decide) (fun hnil ↦ ?_) (json.oneLine e) fun c hc ↦ ?_
  · have hopens := json.opens e
    rw [hnil] at hopens
    cases hopens
  · rw [json.closes e] at hc
    obtain rfl := Option.some.inj hc
    decide

theorem StreamCursor.text_ne_nil (c : StreamCursor) : c.text ≠ [] := by simp [StreamCursor.text]

variable (json : FeedJson π δ)

theorem StreamEvent.eventLine (e : StreamEvent π) : ∀ line ∈ e.lines json, EventLine line := by
  have hname := Solid.eventLine "event" (by decide) e.solid_name.1 e.solid_name.2
  have hdata := json.eventLine e
  have hid : ∀ c : StreamCursor, EventLine (sseField "id" c.text) := fun c ↦
    Solid.eventLine "id" (by decide) c.text_ne_nil c.solid_text
  have hretry : EventLine (sseField "retry" "1000".toList) := by
    refine Solid.eventLine "retry" (by decide) (by simp) fun c hc ↦ isSpace_of_bounds ?_ ?_
    all_goals
      simp at hc
      rcases hc with rfl | rfl
      all_goals decide
  intro line hline
  cases e with
  | frame f =>
      cases f with
      | delivery record =>
          simp only [StreamEvent.lines, List.mem_cons, List.not_mem_nil, or_false] at hline
          rcases hline with rfl | rfl | rfl
          · exact hid _
          · exact hname
          · exact hdata
      | checkpoint cursor =>
          simp only [StreamEvent.lines, List.mem_cons, List.not_mem_nil, or_false] at hline
          rcases hline with rfl | rfl | rfl
          · exact hid _
          · exact hname
          · exact hdata
      | pending message =>
          simp only [StreamEvent.lines, List.mem_cons, List.not_mem_nil, or_false] at hline
          exact hline ▸ hdata
  | ready after current =>
      simp only [StreamEvent.lines, List.mem_cons, List.not_mem_nil, or_false] at hline
      rcases hline with rfl | rfl | rfl
      · exact hretry
      · exact hname
      · exact hdata
  | reset reason current =>
      simp only [StreamEvent.lines, List.mem_cons, List.not_mem_nil, or_false] at hline
      rcases hline with rfl | rfl | rfl
      · exact hretry
      · exact hname
      · exact hdata
  | keepAlive =>
      simp only [StreamEvent.lines, List.mem_cons, List.not_mem_nil, or_false] at hline
      refine hline ▸ Solid.eventLine "" (by decide) (by simp) fun c hc ↦ isSpace_of_bounds ?_ ?_
      all_goals
        simp at hc
        rcases hc with rfl | rfl
        all_goals decide

/-! ## What the client reads of an event -/

namespace LineState

variable {s : LineState}

theorem line_id {v : Text} (h : Solid v) :
    (s.line (sseField "id" v)).1 = { s with buffer := [], id := some v } := by
  have hstrip := strip_blank h
  simp [LineState.line, sseField, hstrip]

theorem line_event {v : Text} (h : Solid v) :
    (s.line (sseField "event" v)).1 = { s with buffer := [], name := v } := by
  have hstrip := strip_blank h
  simp [LineState.line, sseField, hstrip]

theorem line_data {v : Text} (h : v.head? = some '\x7b') :
    (s.line (sseField "data" v)).1 = { s with buffer := [], data := s.data ++ [v] } := by
  obtain ⟨rest, rfl⟩ := List.head?_eq_some_iff.mp h
  have hdrop : (' ' :: '\x7b' :: rest).dropWhile isSpace = '\x7b' :: rest := by
    rw [List.dropWhile_cons_of_pos (by decide), List.dropWhile_cons_of_neg (by decide)]
  simp [LineState.line, sseField, hdrop]

theorem line_retry (v : Text) : (s.line (sseField "retry" v)).1 = { s with buffer := [] } := by
  simp [LineState.line, sseField]

theorem line_comment (v : Text) : (s.line (sseField "" v)).1 = { s with buffer := [] } := by
  simp [LineState.line, sseField]

end LineState

/-- What the loop has of an event at its blank line. -/
def StreamEvent.dispatch (json : FeedJson π δ) (e : StreamEvent π) : Option Dispatch :=
  match e with
  | .keepAlive => none
  | e => some ⟨e.name.toList, e.id.map StreamCursor.text, json.text e⟩

/-- The lines of an event leave its fields. -/
theorem foldl_lines (e : StreamEvent π) :
    (e.lines json).foldl (fun (s : LineState) line ↦ (s.line line).1) {} =
      ({ name := e.name.toList
         id := e.id.map StreamCursor.text
         data := if e.dispatch json = none then [] else [json.text e] } : LineState) := by
  have hname := e.solid_name.2
  have hopens := json.opens e
  cases e with
  | frame f =>
      cases f with
      | delivery record =>
          simp only [StreamEvent.lines, List.foldl_cons, List.foldl_nil,
            LineState.line_id record.cursor.solid_text, LineState.line_event hname,
            LineState.line_data hopens]
          rfl
      | checkpoint cursor =>
          simp only [StreamEvent.lines, List.foldl_cons, List.foldl_nil,
            LineState.line_id cursor.solid_text, LineState.line_event hname,
            LineState.line_data hopens]
          rfl
      | pending message =>
          simp only [StreamEvent.lines, List.foldl_cons, List.foldl_nil,
            LineState.line_data hopens]
          rfl
  | ready after current =>
      simp only [StreamEvent.lines, List.foldl_cons, List.foldl_nil, LineState.line_retry,
        LineState.line_event hname, LineState.line_data hopens]
      rfl
  | reset reason current =>
      simp only [StreamEvent.lines, List.foldl_cons, List.foldl_nil, LineState.line_retry,
        LineState.line_event hname, LineState.line_data hopens]
      rfl
  | keepAlive =>
      simp only [StreamEvent.lines, List.foldl_cons, List.foldl_nil, LineState.line_comment]
      rfl

variable (utf : LossyUtf8)

/-- The blank line. -/
theorem LineState.feed_blank {s : LineState} (hs : s.buffer = []) :
    s.feed utf 10 = s.line [] := by
  have hdecode : utf.decode [10] = ['\n'] := utf.decode_utf8 ['\n']
  rw [LineState.feed, if_pos rfl, hs, List.nil_append, hdecode]
  rfl

/-- A whole event. -/
theorem feedAll_bytes (e : StreamEvent π) :
    ({} : LineState).feedAll utf (e.bytes json) = ({}, (e.dispatch json).toList) := by
  rw [StreamEvent.bytes, LineState.feedAll_append,
    LineState.feedAll_lines utf (e.eventLine json) rfl, foldl_lines]
  dsimp only [LineState.feedAll]
  rw [LineState.feed_blank utf rfl]
  cases e with
  | frame f => simp [LineState.line, StreamEvent.dispatch]
  | ready after current => simp [LineState.line, StreamEvent.dispatch]
  | reset reason current => simp [LineState.line, StreamEvent.dispatch]
  | keepAlive => simp [LineState.line, StreamEvent.dispatch]

/-- An event that has not arrived whole gives nothing out, not even at the end. -/
theorem feedAll_cut_event (e : StreamEvent π) {cut : Bytes} (hcut : cut <+: e.bytes json)
    (hshort : cut.length < (e.bytes json).length) :
    (({} : LineState).feedAll utf cut).2 = [] ∧
      (({} : LineState).feedAll utf cut).1.finish utf = none := by
  refine LineState.feedAll_cut utf (e.eventLine json) rfl
    (List.prefix_of_prefix_length_le hcut ?_ ?_)
  · exact List.prefix_append _ _
  · rw [StreamEvent.bytes, List.length_append, List.length_singleton] at hshort
    omega

end Kascov
