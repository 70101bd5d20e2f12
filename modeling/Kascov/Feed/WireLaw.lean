import Kascov.Argent.Envelope
import Kascov.Feed.StreamResume
import Kascov.Feed.Wire

/-!
# What the Python client yields

Every step of a client and its worker is a step of a `StreamWorld`, in which frames travel as a
whole, or none of its steps: a frame arrives there with the last byte of its event here.  What the
client has yielded is what the reader of that world has received.
-/

namespace Kascov

open Told

variable {π δ : Type} (json : FeedJson π δ) (utf : LossyUtf8)

/-! ## A response that is read byte by byte -/

theorem StreamEvent.bytes_pos (e : StreamEvent π) : 0 < (e.bytes json).length := by
  rw [StreamEvent.bytes, List.length_append]
  exact Nat.lt_add_left _ (Nat.zero_lt_one)

/-- The events that a response still has.  The first of them may have been read in part. -/
def Unheard (s : LineState) (unread : Bytes) (events : List (StreamEvent π)) : Prop :=
  ∃ done, s = (({} : LineState).feedAll utf done).1 ∧
    done ++ unread = events.flatMap (StreamEvent.bytes json) ∧
    ∀ e rest, events = e :: rest → done.length < (e.bytes json).length

section Unheard

variable {json utf} {s : LineState} {unread : Bytes} {events : List (StreamEvent π)}

theorem unheard_nil : Unheard json utf {} [] [] := ⟨[], rfl, rfl, by rintro _ _ ⟨⟩⟩

theorem Unheard.append (h : Unheard json utf s unread events) (more : List (StreamEvent π)) :
    Unheard json utf s (unread ++ more.flatMap (StreamEvent.bytes json)) (events ++ more) := by
  obtain ⟨done, hs, hbytes, hwithin⟩ := h
  refine ⟨done, hs, by rw [← List.append_assoc, hbytes, List.flatMap_append], ?_⟩
  intro e rest hcons
  cases events with
  | nil =>
      obtain rfl : done = [] := (List.append_eq_nil_iff.mp hbytes).1
      exact e.bytes_pos json
  | cons e' events' => exact hwithin e events' (by rw [(List.cons.inj hcons).1])

theorem Unheard.concat (h : Unheard json utf s unread events) (e : StreamEvent π) :
    Unheard json utf s (unread ++ e.bytes json) (events ++ [e]) := by
  have happend := h.append [e]
  rw [List.flatMap_singleton] at happend
  exact happend

variable (utf) in
/-- What has been read of the first event has given nothing out. -/
theorem cut_of_unheard {done : Bytes} (hbytes : done ++ unread =
    events.flatMap (StreamEvent.bytes json)) (hwithin : ∀ e rest, events = e :: rest →
      done.length < (e.bytes json).length) :
    (({} : LineState).feedAll utf done).2 = [] ∧
      (({} : LineState).feedAll utf done).1.finish utf = none := by
  cases events with
  | nil =>
      obtain rfl : done = [] := (List.append_eq_nil_iff.mp hbytes).1
      exact ⟨rfl, rfl⟩
  | cons e events =>
      have hshort := hwithin e events rfl
      rw [List.flatMap_cons] at hbytes
      have hcut : done <+: e.bytes json :=
        List.prefix_of_prefix_length_le ⟨unread, hbytes⟩ (List.prefix_append _ _)
          (Nat.le_of_lt hshort)
      exact feedAll_cut_event json utf e hcut hshort

/-- The next byte is within an event, or ends it. -/
theorem Unheard.byte {b : UInt8} (h : Unheard json utf s (b :: unread) events) :
    (s.feed utf b).2 = none ∧ Unheard json utf (s.feed utf b).1 unread events ∨
      ∃ e rest, events = e :: rest ∧ s.feed utf b = ({}, e.dispatch json) ∧
        Unheard json utf {} unread rest := by
  obtain ⟨done, rfl, hbytes, hwithin⟩ := h
  have hcut := cut_of_unheard utf hbytes hwithin
  have hfeed : ({} : LineState).feedAll utf (done ++ [b]) =
      (((({} : LineState).feedAll utf done).1.feed utf b).1,
        ((({} : LineState).feedAll utf done).1.feed utf b).2.toList) := by
    rw [LineState.feedAll_append, hcut.1]
    simp [LineState.feedAll]
  have hbytes' : (done ++ [b]) ++ unread = events.flatMap (StreamEvent.bytes json) := by
    rw [List.append_assoc]
    exact hbytes
  cases events with
  | nil => exact absurd (List.append_eq_nil_iff.mp hbytes).2 (List.cons_ne_nil _ _)
  | cons e rest =>
      have hshort := hwithin e rest rfl
      by_cases hlast : (done ++ [b]).length < (e.bytes json).length
      · have hwithin' : ∀ e' rest', e :: rest = e' :: rest' →
            (done ++ [b]).length < (e'.bytes json).length := by
          intro e' rest' hcons
          rw [← (List.cons.inj hcons).1]
          exact hlast
        have hnone := (cut_of_unheard utf hbytes' hwithin').1
        rw [hfeed, Option.toList_eq_nil_iff] at hnone
        refine .inl ⟨hnone, done ++ [b], ?_, hbytes', hwithin'⟩
        rw [hfeed]
      · -- the event is whole
        have hlength : (done ++ [b]).length = (e.bytes json).length := by
          rw [List.length_append, List.length_singleton] at hlast ⊢
          omega
        rw [List.flatMap_cons] at hbytes'
        obtain ⟨hwhole, hrest⟩ := List.append_inj hbytes' hlength
        rw [hwhole, feedAll_bytes] at hfeed
        refine .inr ⟨e, rest, rfl, ?_, [], rfl, hrest, fun e' _ _ ↦ e'.bytes_pos json⟩
        refine Prod.ext (congrArg Prod.fst hfeed).symm ?_
        have hout := congrArg List.head? (congrArg Prod.snd hfeed)
        rw [Option.head?_toList, Option.head?_toList] at hout
        exact hout.symm

/-- The end of a response gives nothing out. -/
theorem Unheard.finish (h : Unheard json utf s unread events) : s.finish utf = none := by
  obtain ⟨done, rfl, hbytes, hwithin⟩ := h
  exact (cut_of_unheard utf hbytes hwithin).2

end Unheard

/-! ## What the generator yields of an event -/

/-- The dictionary of an event that is no reset. -/
def StreamEvent.yielded (e : StreamEvent π) : Yielded δ where
  payload := json.dict e
  event := e.name.toList
  cursor := e.id.map StreamCursor.text

/-- The dictionary of a reset. -/
def resetYielded (reason : String) (current snapshot : StreamCursor) : Yielded δ where
  payload := json.dict (.reset reason current)
  event := "reset".toList
  cursor := none
  snapshot := some snapshot.text

/-- An event that a consumer is told as it is. -/
def StreamEvent.Spoken : StreamEvent π → Prop
  | .ready _ _ => True
  | .frame _ => True
  | .reset _ _ => False
  | .keepAlive => False

theorem StreamEvent.Spoken.name_ne {e : StreamEvent π} (h : e.Spoken) :
    e.name.toList ≠ "reset".toList := by
  have hname : e.name ≠ "reset" := by
    cases e with
    | ready after current => simp [StreamEvent.name]
    | frame f =>
        cases f with
        | delivery record =>
            rw [StreamEvent.name]
            cases record.kind with
            | accepted => simp [kindName]
            | removed => simp [kindName]
            | projectionRepaired => simp [kindName]
        | checkpoint cursor => simp [StreamEvent.name]
        | pending message => simp [StreamEvent.name]
    | reset reason current => exact h.elim
    | keepAlive => exact h.elim
  exact fun heq ↦ hname (String.toList_inj.mp heq)

namespace PyClient

variable {json} {c : PyClient δ} {snapshot : Option Text}

theorem taken_spoken {e : StreamEvent π} (h : e.Spoken) :
    c.taken json snapshot (e.dispatch json) = { c with
      cursor := (e.id.map StreamCursor.text).or c.cursor
      yielded := c.yielded ++ [e.yielded json] } := by
  have hdispatch : e.dispatch json =
      some ⟨e.name.toList, e.id.map StreamCursor.text, json.text e⟩ := by
    cases e with
    | keepAlive => exact h.elim
    | ready after current => rfl
    | frame f => rfl
    | reset reason current => rfl
  rw [hdispatch, taken, Option.elim_some, take, json.loads_text]
  dsimp only
  rw [if_neg h.name_ne]
  rfl

theorem taken_reset (reason : String) (current : StreamCursor) :
    c.taken json snapshot ((StreamEvent.reset reason current : StreamEvent π).dispatch json) =
      match snapshot with
      | some after => { c with
          after := some after
          cursor := none
          yielded := c.yielded ++
            [⟨json.dict (.reset reason current), "reset".toList, none, some after⟩]
          reading := none }
      | none => c.failed := by
  obtain ⟨path, hpath⟩ := Option.isSome_iff_exists.mp (json.reset reason current)
  have hdispatch : (StreamEvent.reset reason current : StreamEvent π).dispatch json =
      some ⟨"reset".toList, none, json.text (.reset reason current)⟩ := rfl
  rw [hdispatch, taken, Option.elim_some, take, json.loads_text]
  dsimp only
  rw [if_pos rfl, hpath]
  cases snapshot with
  | none => rfl
  | some after => rfl

/-! ### Where it asks to start -/

theorem trimText_text (c : StreamCursor) : Preflight.trimText c.text = c.text := by
  have hdrop : ∀ v : Text, Solid v → v.dropWhile Preflight.isWhitespace = v := by
    intro v hv
    cases v with
    | nil => rfl
    | cons d v =>
        have hd := hv d List.mem_cons_self
        rw [isSpace, Bool.or_eq_false_iff] at hd
        exact List.dropWhile_cons_of_neg (by rw [hd.1]; decide)
  have hreverse : Solid c.text.reverse := fun d hd ↦ c.solid_text d (List.mem_reverse.mp hd)
  rw [Preflight.trimText, hdrop _ c.solid_text, hdrop _ hreverse, List.reverse_reverse]

/-- A client with an id starts behind it. -/
theorem startCursor_of_id {id : StreamCursor} (hid : c.cursor = some id.text)
    {start : Option StreamCursor} (h : c.startCursor = some start) : start = some id := by
  rw [startCursor, hid, Option.some_or] at h
  dsimp only at h
  rw [trimText_text, parseCursor_text] at h
  split at h
  · exact (Option.some.inj h).symm
  · cases h

/-- A client without one starts behind the cursor in its url. -/
theorem startCursor_of_none (hid : c.cursor = none) {start : Option StreamCursor}
    (h : c.startCursor = some start) :
    c.after = none ∧ start = none ∨
      ∃ raw cursor, c.after = some raw ∧ parseCursor (Preflight.trimText raw) = some cursor ∧
        start = some cursor := by
  rw [startCursor, hid, Option.none_or] at h
  cases hafter : c.after with
  | none =>
      rw [hafter] at h
      exact .inl ⟨rfl, (Option.some.inj h).symm⟩
  | some raw =>
      rw [hafter] at h
      obtain ⟨cursor, hcursor, rfl⟩ := Option.map_eq_some_iff.mp h
      exact .inr ⟨raw, cursor, rfl, hcursor, rfl⟩

end PyClient

/-! ## Turns of the worker -/

section Turns

variable (request : StreamRequest π)

/-- The connection with what has been sent before. -/
def Connection.behind (wire : List (StreamFrame π)) (c : Connection π) : Connection π :=
  { c with wire := wire ++ c.wire }

/-- A turn does not look at what is on its way, and leaves a connection alone that has not been
opened. -/
structure Blind (f : Connection π → Option (Connection π)) : Prop where
  behind : ∀ wire c, f (c.behind wire) = (f c).map (Connection.behind wire)
  closed : ∀ c, c.stream = none → f c = some c

theorem settle_behind (wire : List (StreamFrame π)) (c : Connection π) (turn : StreamTurn π) :
    (c.behind wire).settle request turn = (c.settle request turn).map (Connection.behind wire) := by
  cases turn with
  | ends => rfl
  | goes state => rfl
  | yields frame state =>
      rw [Connection.settle, Connection.settle]
      cases streamFrameEvent request frame with
      | sent =>
          exact congrArg (fun frames ↦
            some ({ c with stream := some state, wire := frames } : Connection π))
            (List.append_assoc wire c.wire [frame])
      | skipped => rfl
      | closes => rfl

theorem blind_turn (s : Store) : Blind fun c : Connection π ↦ c.turn request s where
  behind wire c := by
    obtain ⟨c, stream⟩ := c
    cases stream with
    | none => rfl
    | some state => exact settle_behind request wire ⟨c, some state⟩ _
  closed c h := by
    rw [Connection.turn, h]

theorem blind_recv : Blind fun c : Connection π ↦ c.recv request where
  behind wire c := by
    obtain ⟨⟨rx, lagged, sent⟩, stream⟩ := c
    cases stream with
    | none => rfl
    | some state =>
        simp only [Connection.recv, Connection.behind]
        by_cases hwaiting : state.waiting = true
        · rw [if_pos hwaiting, if_pos hwaiting]
          cases lagged with
          | true => rfl
          | false =>
              cases rx with
              | nil => rfl
              | cons record rest => exact settle_behind request wire ⟨⟨rest, false, sent⟩, _⟩ _
        · rw [if_neg hwaiting, if_neg hwaiting]
          rfl
  closed c h := by
    rw [Connection.recv, h]

theorem blind_select (turn : DurableStreamState π → StreamTurn π) :
    Blind fun c : Connection π ↦ c.select request turn where
  behind wire c := by
    obtain ⟨c, stream⟩ := c
    cases stream with
    | none => rfl
    | some state =>
        simp only [Connection.select, Connection.behind]
        by_cases hwaiting : state.waiting = true
        · rw [if_pos hwaiting, if_pos hwaiting]
          exact settle_behind request wire ⟨c, some state⟩ _
        · rw [if_neg hwaiting, if_neg hwaiting]
          rfl
  closed c h := by
    rw [Connection.select, h]

end Turns

/-! ## The client's world and the stream's -/

/-- Nothing has been told, and the worker has not taken the cursor of the url. -/
structure Idle (w : WireWorld π δ) (kept : List (Yielded δ)) (told unseen : List (StreamEvent π)) :
    Prop where
  first : kept = []
  silent : told = []
  quiet : ∀ e ∈ unseen, ¬e.Spoken
  server : ∀ c, w.server = some c → c.stream = none ∧ ∀ e ∈ unseen, e = .keepAlive

/-- The worker takes the cursor of the url. -/
structure Opened (w : WireWorld π δ) (a : StreamWorld π) (unseen : List (StreamEvent π)) :
    Prop where
  within : ∀ raw cursor, w.client.after = some raw →
    parseCursor (Preflight.trimText raw) = some cursor →
      cursor.epoch = w.hub.epoch ∧ cursor.seq ≤ w.hub.log.length ∧ a.reader.origin = cursor.seq
  plain : ∀ e ∈ unseen, e = .keepAlive ∨ e.Spoken

/-- The response that the client reads, and the connection in the stream's world. -/
def Joined (w : WireWorld π δ) (a : StreamWorld π) (unseen : List (StreamEvent π)) :
    Option LineState → Prop
  | none => w.server = none ∧ a.connection = none ∧ unseen = []
  | some s => Unheard json utf s w.unread unseen ∧ ∃ c, a.connection = some c ∧
      c.wire = unseen.filterMap StreamEvent.frame? ∧
      ∀ c', w.server = some c' → c'.wire = [] ∧ c = c'.behind c.wire

/-- What a client has yielded: the reset that it came back from, if any, and what it has been told
since then. -/
structure Shadow (filter : DeliveryFilter) (after : Option Text) (w : WireWorld π δ)
    (a : StreamWorld π) (kept : List (Yielded δ)) (told unseen : List (StreamEvent π)) : Prop where
  law : a.Law filter
  hub : a.hub = w.hub
  yielded : w.client.yielded = kept ++ told.map (StreamEvent.yielded json)
  spoken : ∀ e ∈ told, e.Spoken
  received : told.filterMap StreamEvent.frame? = a.reader.received
  cursor : w.client.cursor = a.reader.lastEventId.map StreamCursor.text
  base : kept = [] ∧ w.client.after = after ∨ ∃ reason current seq, seq ≤ w.hub.log.length ∧
    kept = [resetYielded json reason current ⟨w.hub.epoch, seq⟩] ∧
      w.client.after = some (⟨w.hub.epoch, seq⟩ : StreamCursor).text
  joined : Joined json utf w a unseen w.client.reading
  phase : Idle w kept told unseen ∨ Opened w a unseen

section Shadow

variable {json utf} {request : StreamRequest π} {after : Option Text} {w : WireWorld π δ}
  {a : StreamWorld π} {kept : List (Yielded δ)} {told unseen : List (StreamEvent π)}

theorem forall_mem_concat {P : StreamEvent π → Prop} {events : List (StreamEvent π)}
    {e : StreamEvent π} (h : ∀ e ∈ events, P e) (he : P e) : ∀ e' ∈ events ++ [e], P e' :=
  List.forall_mem_append.mpr ⟨h, List.forall_mem_singleton.mpr he⟩

/-- The response is gone. -/
theorem Shadow.closed (h : Shadow json utf request.filter after w a kept told unseen)
    {client : PyClient δ} (hreading : client.reading = none)
    (hyielded : client.yielded = w.client.yielded) (hcursor : client.cursor = w.client.cursor)
    (hafter : client.after = w.client.after) :
    Shadow json utf request.filter after { w with server := none, unread := [], client }
      { a with connection := none } kept told [] where
  law := h.law.step .drop
  hub := h.hub
  yielded := hyielded.trans h.yielded
  spoken := h.spoken
  received := h.received
  cursor := hcursor.trans h.cursor
  base := by
    dsimp only
    rw [hafter]
    exact h.base
  joined := by
    dsimp only
    rw [hreading]
    exact ⟨rfl, rfl, rfl⟩
  phase := by
    rcases h.phase with hidle | hopened
    · exact .inl ⟨hidle.first, hidle.silent, List.forall_mem_nil _, by rintro _ ⟨⟩⟩
    · refine .inr ⟨?_, List.forall_mem_nil _⟩
      dsimp only
      rw [hafter]
      exact hopened.within

theorem Shadow.commit (h : Shadow json utf request.filter after w a kept told unseen) :
    Shadow json utf request.filter after { w with hub := w.hub.commit }
      (a.step request .commit) kept told unseen := by
  have hlaw := h.law.hub
  rw [h.hub] at hlaw
  obtain ⟨-, hepoch, new, -, hlog, -⟩ := hlaw.commit
  have hlength : w.hub.log.length ≤ w.hub.commit.log.length := by
    rw [hlog, List.length_append]
    exact Nat.le_add_right _ _
  refine ⟨h.law.step .commit, congrArg Publishing.commit h.hub, h.yielded, h.spoken, h.received,
    h.cursor, ?_, h.joined, ?_⟩
  · rcases h.base with hbase | ⟨reason, current, seq, hseq, hkept, hafter⟩
    · exact .inl hbase
    · refine .inr ⟨reason, current, seq, hseq.trans hlength, ?_, ?_⟩
      · dsimp only
        rw [hepoch]
        exact hkept
      · dsimp only
        rw [hepoch]
        exact hafter
  · rcases h.phase with hidle | hopened
    · exact .inl ⟨hidle.first, hidle.silent, hidle.quiet, hidle.server⟩
    · refine .inr ⟨fun raw cursor hraw hcursor ↦ ?_, hopened.plain⟩
      obtain ⟨hown, hseq, horigin⟩ := hopened.within raw cursor hraw hcursor
      exact ⟨hown.trans hepoch.symm, hseq.trans hlength, horigin⟩

theorem offer_behind (c : Connection π) (wire : List (StreamFrame π)) (record : DeliveryRecord) :
    (c.behind wire).offer record = (c.offer record).behind wire := by
  by_cases hroom : c.rx.length < deliveryBuffer
  · have hroom' : (c.behind wire).rx.length < deliveryBuffer := hroom
    rw [Connection.offer, Connection.offer, if_pos hroom, if_pos hroom']
    rfl
  · have hroom' : ¬(c.behind wire).rx.length < deliveryBuffer := hroom
    rw [Connection.offer, Connection.offer, if_neg hroom, if_neg hroom']
    rfl

theorem Shadow.send (h : Shadow json utf request.filter after w a kept told unseen)
    {record : DeliveryRecord} {rest : List DeliveryRecord}
    (hunsent : w.hub.unsent = record :: rest) :
    Shadow json utf request.filter after { w with
        hub := { w.hub with unsent := rest }
        server := w.server.map (·.offer record) }
      (a.step request .send) kept told unseen := by
  have hlaw : (a.step request .send).Law request.filter := h.law.step .send
  have hstep : a.step request .send = { a with
      hub := { w.hub with unsent := rest }
      connection := a.connection.map (·.offer record) } := by
    rw [StreamWorld.step, h.hub, hunsent]
  rw [hstep] at hlaw ⊢
  refine ⟨hlaw, rfl, h.yielded, h.spoken, h.received, h.cursor, h.base, ?_, ?_⟩
  · have hjoined := h.joined
    dsimp only
    cases hreading : w.client.reading with
    | none =>
        rw [hreading] at hjoined
        obtain ⟨hserver, hconnection, hunseen⟩ := hjoined
        exact ⟨by rw [hserver, Option.map_none], by rw [hconnection, Option.map_none], hunseen⟩
    | some s =>
        rw [hreading] at hjoined
        obtain ⟨hunheard, c, hconnection, hwire, hserver⟩ := hjoined
        refine ⟨hunheard, c.offer record, by rw [hconnection, Option.map_some], ?_, ?_⟩
        · rw [offer_wire]
          exact hwire
        · intro c' hc'
          obtain ⟨c₀, hc₀, rfl⟩ := Option.map_eq_some_iff.mp hc'
          obtain ⟨hempty, hbehind⟩ := hserver c₀ hc₀
          rw [offer_wire, offer_wire, ← offer_behind, ← hbehind]
          exact ⟨hempty, rfl⟩
  · rcases h.phase with hidle | hopened
    · refine .inl ⟨hidle.first, hidle.silent, hidle.quiet, fun c' hc' ↦ ?_⟩
      obtain ⟨c₀, hc₀, rfl⟩ := Option.map_eq_some_iff.mp hc'
      rw [offer_stream]
      exact hidle.server c₀ hc₀
    · exact .inr ⟨hopened.within, hopened.plain⟩

/-- The client asks for the stream. -/
theorem Shadow.connect (h : Shadow json utf request.filter after w a kept told unseen)
    (hreading : w.client.reading = none) :
    Shadow json utf request.filter after { w with
        server := some {}
        unread := []
        client := { w.client with reading := some {} } }
      (a.step request .subscribe) kept told unseen := by
  have hjoined := h.joined
  rw [hreading] at hjoined
  obtain ⟨-, hconnection, rfl⟩ := hjoined
  have hsubscribed : (a.step request .subscribe).connection = some {} := by
    rw [StreamWorld.step, hconnection]
    rfl
  refine ⟨h.law.step .subscribe, h.hub, h.yielded, h.spoken, h.received, h.cursor, h.base,
    ⟨unheard_nil, {}, hsubscribed, rfl, fun c' hc' ↦ ?_⟩, ?_⟩
  · rw [← Option.some.inj hc']
    exact ⟨rfl, rfl⟩
  · rcases h.phase with hidle | hopened
    · refine .inl ⟨hidle.first, hidle.silent, List.forall_mem_nil _, fun c' hc' ↦ ?_⟩
      rw [← Option.some.inj hc']
      exact ⟨rfl, List.forall_mem_nil _⟩
    · exact .inr ⟨hopened.within, List.forall_mem_nil _⟩

/-- The worker is gone; what it has written may still be read. -/
theorem Shadow.close (h : Shadow json utf request.filter after w a kept told unseen) :
    Shadow json utf request.filter after { w with server := none } a kept told unseen := by
  refine ⟨h.law, h.hub, h.yielded, h.spoken, h.received, h.cursor, h.base, ?_, ?_⟩
  · have hjoined := h.joined
    dsimp only
    cases hreading : w.client.reading with
    | none =>
        rw [hreading] at hjoined
        exact ⟨rfl, hjoined.2⟩
    | some s =>
        rw [hreading] at hjoined
        obtain ⟨hunheard, c, hconnection, hwire, -⟩ := hjoined
        exact ⟨hunheard, c, hconnection, hwire, by rintro _ ⟨⟩⟩
  · rcases h.phase with hidle | hopened
    · exact .inl ⟨hidle.first, hidle.silent, hidle.quiet, by rintro _ ⟨⟩⟩
    · exact .inr ⟨hopened.within, hopened.plain⟩

/-- What has been written is read behind the rest. -/
theorem Shadow.keepAlive (h : Shadow json utf request.filter after w a kept told unseen)
    (hreading : w.client.reading.isSome = true) :
    Shadow json utf request.filter after { w with
        unread := w.unread ++ (StreamEvent.keepAlive : StreamEvent π).bytes json }
      a kept told (unseen ++ [.keepAlive]) := by
  refine ⟨h.law, h.hub, h.yielded, h.spoken, h.received, h.cursor, h.base, ?_, ?_⟩
  · have hjoined := h.joined
    obtain ⟨s, hs⟩ := Option.isSome_iff_exists.mp hreading
    dsimp only
    rw [hs] at hjoined ⊢
    obtain ⟨hunheard, c, hconnection, hwire, hserver⟩ := hjoined
    refine ⟨hunheard.concat .keepAlive, c, hconnection, ?_, hserver⟩
    rw [hwire, List.filterMap_append]
    exact (List.append_nil _).symm
  · rcases h.phase with hidle | hopened
    · refine .inl ⟨hidle.first, hidle.silent, forall_mem_concat hidle.quiet id, fun c hc ↦ ?_⟩
      obtain ⟨hclosed, hkeep⟩ := hidle.server c hc
      exact ⟨hclosed, forall_mem_concat hkeep rfl⟩
    · exact .inr ⟨hopened.within, forall_mem_concat hopened.plain (.inl rfl)⟩

/-- A turn of the worker.  Where it ends the stream, the frames on their way stay on it. -/
theorem Shadow.turned (h : Shadow json utf request.filter after w a kept told unseen)
    {f : Connection π → Option (Connection π)} (hf : Blind f)
    (hlaw : ({ a with connection := a.connection.bind f } : StreamWorld π).Law request.filter) :
    ∃ a' unseen', Shadow json utf request.filter after (w.written json (w.server.bind f)) a' kept
      told unseen' := by
  cases hserver : w.server with
  | none => exact ⟨a, unseen, h.close⟩
  | some c' =>
      rw [Option.bind_some]
      cases hturn : f c' with
      | none => exact ⟨a, unseen, h.close⟩
      | some c₁ =>
          have hjoined := h.joined
          cases hreading : w.client.reading with
          | none =>
              rw [hreading] at hjoined
              exact absurd (hserver.symm.trans hjoined.1) (Option.some_ne_none _)
          | some s =>
              rw [hreading] at hjoined
              obtain ⟨hunheard, c, hconnection, hwire, hlinked⟩ := hjoined
              obtain ⟨hempty, hbehind⟩ := hlinked c' hserver
              have hturned : f c = some (c₁.behind c.wire) := by
                rw [hbehind, hf.behind, hturn]
                rw [← hbehind, Option.map_some]
              rw [hconnection, Option.bind_some, hturned] at hlaw
              refine ⟨_, unseen ++ c₁.wire.map .frame, hlaw, h.hub, h.yielded, h.spoken, h.received,
                h.cursor, h.base, ?_, ?_⟩
              · dsimp only [WireWorld.written]
                rw [hreading]
                refine ⟨?_, _, rfl, ?_, fun c₂ hc₂ ↦ ?_⟩
                · have happend := hunheard.append (c₁.wire.map .frame)
                  rw [List.flatMap_map] at happend
                  exact happend
                · rw [List.filterMap_append, ← hwire, List.filterMap_map]
                  refine congrArg (c.wire ++ ·) ?_
                  exact (List.filterMap_some).symm
                · rw [← Option.some.inj hc₂]
                  refine ⟨rfl, ?_⟩
                  simp only [Connection.behind, List.append_nil]
              · rcases h.phase with hidle | hopened
                · obtain ⟨hclosed, hkeep⟩ := hidle.server c' hserver
                  obtain rfl : c' = c₁ := Option.some.inj ((hf.closed c' hclosed).symm.trans hturn)
                  rw [hempty, List.map_nil, List.append_nil]
                  refine .inl ⟨hidle.first, hidle.silent, hidle.quiet, fun c₂ hc₂ ↦ ?_⟩
                  rw [← Option.some.inj hc₂]
                  exact ⟨hclosed, hkeep⟩
                · refine .inr ⟨hopened.within, fun e he ↦ ?_⟩
                  rcases List.mem_append.mp he with he | he
                  · exact hopened.plain e he
                  · obtain ⟨frame, -, rfl⟩ := List.mem_map.mp he
                    exact .inr trivial

/-! ### A stream starts -/

theorem selectStreamStart_or (lastEventId after : Option StreamCursor) (info : DeliveryStreamInfo) :
    selectStreamStart lastEventId after info =
      selectStreamStart (lastEventId.or after) none info := by
  rw [selectStreamStart, selectStreamStart, Option.or_none]

theorem Shadow.id_within (h : Shadow json utf request.filter after w a kept told unseen)
    {id : StreamCursor} (hid : a.reader.lastEventId = some id) :
    id.epoch = w.hub.epoch ∧ id.seq ≤ w.hub.log.length := by
  have hheard := h.law.listening.received
  have hseq := Reader.reached_of_lastEventId hid ▸ hheard.le
  rw [h.hub] at hheard hseq
  exact ⟨hheard.epochs id (List.mem_of_getLast? hid), hseq⟩

/-- The worker reads the cursor that the client has. -/
theorem Shadow.start_eq (h : Shadow json utf request.filter after w a kept told unseen)
    {cursor : Option StreamCursor} (hstart : w.client.startCursor = some cursor) :
    a.reader.lastEventId.or cursor = cursor := by
  have hcursor := h.cursor
  cases hlast : a.reader.lastEventId with
  | none => exact Option.none_or
  | some id =>
      rw [hlast, Option.map_some] at hcursor
      rw [PyClient.startCursor_of_id hcursor hstart]
      rfl

/-- Once the worker takes the cursor of the url, it takes what the client starts at. -/
theorem Shadow.not_reset (h : Shadow json utf request.filter after w a kept told unseen)
    (hopened : Opened w a unseen) {cursor : Option StreamCursor}
    (hstart : w.client.startCursor = some cursor) {info : DeliveryStreamInfo}
    (hinfo : deliveryStreamInfo w.hub.store = .ok info) (reason : String) (current : StreamCursor) :
    selectStreamStart cursor none info ≠ .reset reason current := by
  have hlaw := h.law.hub
  rw [h.hub] at hlaw
  have hwithin : ∀ id : StreamCursor, id.epoch = w.hub.epoch → id.seq ≤ w.hub.log.length →
      selectStreamStart (some id) none info ≠ .reset reason current := by
    intro id hepoch hseq heq
    rw [StreamWorld.selectStreamStart_within hlaw hinfo hepoch hseq] at heq
    cases heq
  have hcursor := h.cursor
  cases hlast : a.reader.lastEventId with
  | some id =>
      rw [hlast, Option.map_some] at hcursor
      rw [PyClient.startCursor_of_id hcursor hstart]
      exact hwithin id (h.id_within hlast).1 (h.id_within hlast).2
  | none =>
      rw [hlast, Option.map_none] at hcursor
      rcases PyClient.startCursor_of_none hcursor hstart with ⟨-, rfl⟩ | ⟨raw, id, hraw, hid, rfl⟩
      · have hcurrent : info.current = ⟨w.hub.epoch, w.hub.log.length⟩ := by
          rw [← Except.ok.inj hinfo]
          rfl
        have hnow : selectStreamStart none none info =
            selectStreamStart (some info.current) none info := rfl
        rw [hnow]
        exact hwithin _ (by rw [hcurrent]) (by rw [hcurrent])
      · obtain ⟨hepoch, hseq, -⟩ := hopened.within raw id hraw hid
        exact hwithin id hepoch hseq

theorem read_gone {unread : Bytes} {client : PyClient δ} (h : client.reading = none) :
    w.read unread client = { w with server := none, unread := [], client } := by
  rw [WireWorld.read, h]
  rfl

theorem Shadow.failed (h : Shadow json utf request.filter after w a kept told unseen)
    (unread : Bytes) :
    Shadow json utf request.filter after (w.read unread w.client.failed)
      { a with connection := none } kept told [] := by
  rw [read_gone rfl]
  exact h.closed rfl rfl rfl rfl

/-- A cursor that the worker does not take is answered by a reset, and the response ends. -/
theorem Shadow.turnedAway (h : Shadow json utf request.filter after w a kept told unseen)
    (hidle : Idle w kept told unseen) (hreading : w.client.reading.isSome = true)
    (reason : String) (current : StreamCursor) :
    Shadow json utf request.filter after { w with
        server := none
        unread := w.unread ++ (StreamEvent.reset reason current).bytes json }
      a kept told (unseen ++ [.reset reason current]) := by
  refine ⟨h.law, h.hub, h.yielded, h.spoken, h.received, h.cursor, h.base, ?_, .inl
    ⟨hidle.first, hidle.silent, forall_mem_concat hidle.quiet id, by rintro _ ⟨⟩⟩⟩
  obtain ⟨s, hs⟩ := Option.isSome_iff_exists.mp hreading
  have hjoined := h.joined
  dsimp only
  rw [hs] at hjoined ⊢
  obtain ⟨hunheard, c, hconnection, hwire, -⟩ := hjoined
  refine ⟨hunheard.concat _, c, hconnection, ?_, by rintro _ ⟨⟩⟩
  rw [hwire, List.filterMap_append]
  exact (List.append_nil _).symm

/-- The stream opens where the client starts. -/
theorem Shadow.step_start (h : Shadow json utf request.filter after w a kept told unseen)
    {c : Connection π} (hconnection : a.connection = some c) (hclosed : c.stream = none)
    {cursor : Option StreamCursor} (hstart : w.client.startCursor = some cursor)
    {info : DeliveryStreamInfo} (hinfo : deliveryStreamInfo w.hub.store = .ok info)
    {start : StreamCursor} (hselect : selectStreamStart cursor none info = .ready start) :
    a.step { request with after := cursor } .start = { a with
      connection := some { c with stream := some (openStream start info) }
      reader := a.reader.started start info.current.seq } := by
  rw [StreamWorld.step, hconnection]
  dsimp only
  rw [if_pos (Option.isNone_iff_eq_none.mpr hclosed), StreamWorld.start, h.hub, hinfo]
  dsimp only
  rw [selectStreamStart_or, h.start_eq hstart, hselect]
  rfl

/-- The worker has taken the cursor of the url, now or when the client was first told. -/
theorem Shadow.within_started (h : Shadow json utf request.filter after w a kept told unseen)
    {cursor : Option StreamCursor} (hstart : w.client.startCursor = some cursor)
    {info : DeliveryStreamInfo} (hcurrent : info.current = ⟨w.hub.epoch, w.hub.log.length⟩)
    {start : StreamCursor} (hselect : selectStreamStart cursor none info = .ready start)
    {raw : Text} {id : StreamCursor} (hraw : w.client.after = some raw)
    (hid : parseCursor (Preflight.trimText raw) = some id) :
    id.epoch = w.hub.epoch ∧ id.seq ≤ w.hub.log.length ∧
      (a.reader.started start info.current.seq).origin = id.seq := by
  have hcursor := h.cursor
  cases hlast : a.reader.lastEventId with
  | some last =>
      -- what has an id has been told
      rcases h.phase with hidle | hopened
      · have hnone := h.received
        rw [hidle.silent] at hnone
        rw [Reader.lastEventId, ← hnone] at hlast
        cases hlast
      · have horigin := hopened.within raw id hraw hid
        rw [Reader.started, hlast]
        exact horigin
  | none =>
      rw [hlast, Option.map_none] at hcursor
      rcases PyClient.startCursor_of_none hcursor hstart with
        ⟨hnone, -⟩ | ⟨raw', id', hraw', hid', rfl⟩
      · exact absurd (hraw.symm.trans hnone) (Option.some_ne_none _)
      · obtain rfl : raw = raw' := Option.some.inj (hraw.symm.trans hraw')
        obtain rfl : id = id' := Option.some.inj (hid.symm.trans hid')
        obtain ⟨hsame, hepoch, hseq⟩ := selectStreamStart_ready hselect
        obtain rfl : start = id := hsame
        rw [hcurrent] at hepoch hseq
        rw [Reader.started, hlast]
        exact ⟨hepoch, hseq, rfl⟩

/-- What is asked for is opened, refused as no cursor, or reset. -/
theorem Shadow.start (h : Shadow json utf request.filter after w a kept told unseen)
    {c' : Connection π} (hserver : w.server = some c') (hclosed : c'.stream = none) :
    ∃ a' unseen', Shadow json utf request.filter after (w.start json c') a' kept told unseen' := by
  have hjoined := h.joined
  cases hreading : w.client.reading with
  | none =>
      rw [hreading] at hjoined
      exact absurd (hserver.symm.trans hjoined.1) (Option.some_ne_none _)
  | some s =>
      have hsome : w.client.reading.isSome = true := by rw [hreading]; rfl
      rw [hreading] at hjoined
      obtain ⟨hunheard, c, hconnection, hwire, hlinked⟩ := hjoined
      obtain ⟨hempty, hbehind⟩ := hlinked c' hserver
      obtain ⟨info, hinfo, hcurrent⟩ := deliveryStreamInfo_store w.hub
      rw [WireWorld.start, hinfo]
      cases hstart : w.client.startCursor with
      | none => exact ⟨_, _, h.failed []⟩
      | some cursor =>
          dsimp only
          cases hselect : selectStreamStart cursor none info with
          | reset reason current =>
              rcases h.phase with hidle | hopened
              · exact ⟨a, _, h.turnedAway hidle hsome reason current⟩
              · exact absurd hselect (h.not_reset hopened hstart hinfo reason current)
          | ready start =>
              have hsame : a.Law ({ request with after := cursor } : StreamRequest π).filter :=
                h.law
              have hlaw := hsame.step .start
              have hopen : c.stream = none := by
                rw [hbehind]
                exact hclosed
              rw [h.step_start hconnection hopen hstart hinfo hselect] at hlaw
              refine ⟨_, unseen ++ [.ready start info.current], hlaw, h.hub, h.yielded, h.spoken,
                h.received, h.cursor, h.base, ?_, .inr
                  ⟨fun raw id ↦ h.within_started hstart hcurrent hselect, ?_⟩⟩
              · dsimp only
                rw [hreading]
                refine ⟨hunheard.concat _, _, rfl, ?_, fun c₂ hc₂ ↦ ?_⟩
                · rw [List.filterMap_append]
                  exact hwire.trans (List.append_nil _).symm
                · rw [← Option.some.inj hc₂]
                  exact ⟨hempty, congrArg (fun c₀ : Connection π ↦
                    { c₀ with stream := some (openStream start info) }) hbehind⟩
              · refine forall_mem_concat ?_ (.inr trivial)
                rcases h.phase with hidle | hopened
                · exact fun e he ↦ .inl ((hidle.server c' hserver).2 e he)
                · exact hopened.plain

/-! ### The client reads -/

/-- A byte within an event, or the last of one that says nothing. -/
theorem Shadow.reads (h : Shadow json utf request.filter after w a kept told unseen)
    {rest : Bytes} {s : LineState} {events : List (StreamEvent π)}
    (hreading : w.client.reading.isSome = true) (hunheard : Unheard json utf s rest events)
    (hframes : events.filterMap StreamEvent.frame? = unseen.filterMap StreamEvent.frame?)
    (hevents : ∀ e ∈ events, e ∈ unseen) :
    Shadow json utf request.filter after { w with
      unread := rest
      client := { w.client with reading := some s } } a kept told events := by
  refine ⟨h.law, h.hub, h.yielded, h.spoken, h.received, h.cursor, h.base, ?_, ?_⟩
  · obtain ⟨s', hs'⟩ := Option.isSome_iff_exists.mp hreading
    have hjoined := h.joined
    rw [hs'] at hjoined
    obtain ⟨-, c, hconnection, hwire, hserver⟩ := hjoined
    exact ⟨hunheard, c, hconnection, hwire.trans hframes.symm, hserver⟩
  · rcases h.phase with hidle | hopened
    · refine .inl ⟨hidle.first, hidle.silent, fun e he ↦ hidle.quiet e (hevents e he), ?_⟩
      intro c hc
      exact ⟨(hidle.server c hc).1, fun e he ↦ (hidle.server c hc).2 e (hevents e he)⟩
    · exact .inr ⟨hopened.within, fun e he ↦ hopened.plain e (hevents e he)⟩

/-- What is told is told once the worker takes the cursor of the url. -/
theorem Shadow.opened_of_spoken (h : Shadow json utf request.filter after w a kept told unseen)
    {e : StreamEvent π} (he : e ∈ unseen) (hspoken : e.Spoken) : Opened w a unseen := by
  rcases h.phase with hidle | hopened
  · exact absurd hspoken (hidle.quiet e he)
  · exact hopened

/-- The last byte of a ready event. -/
theorem Shadow.ready {start current : StreamCursor} {events : List (StreamEvent π)} {rest : Bytes}
    (h : Shadow json utf request.filter after w a kept told (.ready start current :: events))
    (hreading : w.client.reading.isSome = true) (hunheard : Unheard json utf {} rest events) :
    Shadow json utf request.filter after { w with
        unread := rest
        client := { w.client with
          reading := some {}
          yielded := w.client.yielded ++ [(StreamEvent.ready start current).yielded json] } }
      a kept (told ++ [.ready start current]) events := by
  have hopened := h.opened_of_spoken List.mem_cons_self trivial
  have hread := h.reads hreading hunheard rfl fun e he ↦ List.mem_cons_of_mem _ he
  refine ⟨h.law, h.hub, ?_, ?_, ?_, h.cursor, h.base, hread.joined, .inr ⟨hopened.within, ?_⟩⟩
  · dsimp only
    rw [h.yielded, List.map_append, List.append_assoc]
    rfl
  · exact forall_mem_concat h.spoken trivial
  · rw [List.filterMap_append]
    exact (List.append_nil _).trans h.received
  · exact fun e he ↦ hopened.plain e (List.mem_cons_of_mem _ he)

theorem Reader.lastEventId_received (reader : Reader π) (f : StreamFrame π) :
    ({ reader with received := reader.received ++ [f] } : Reader π).lastEventId =
      f.id.or reader.lastEventId := by
  rw [Reader.lastEventId, List.filterMap_append]
  cases hid : f.id with
  | none =>
      rw [List.filterMap_cons_none hid, List.filterMap_nil, List.append_nil]
      rfl
  | some id =>
      rw [List.filterMap_cons_some hid, List.filterMap_nil, List.getLast?_concat]
      rfl

/-- The last byte of a frame's event. -/
theorem Shadow.arrive {f : StreamFrame π} {events : List (StreamEvent π)} {rest : Bytes}
    (h : Shadow json utf request.filter after w a kept told (.frame f :: events))
    (hreading : w.client.reading.isSome = true) (hunheard : Unheard json utf {} rest events) :
    Shadow json utf request.filter after { w with
        unread := rest
        client := { w.client with
          reading := some {}
          cursor := (f.id.map StreamCursor.text).or w.client.cursor
          yielded := w.client.yielded ++ [(StreamEvent.frame f).yielded json] } }
      (a.step request .arrive) kept (told ++ [.frame f]) events := by
  have hopened := h.opened_of_spoken List.mem_cons_self trivial
  have hlaw : (a.step request .arrive).Law request.filter := h.law.step .arrive
  obtain ⟨s', hs'⟩ := Option.isSome_iff_exists.mp hreading
  have hjoined := h.joined
  rw [hs'] at hjoined
  obtain ⟨-, c, hconnection, hwire, hserver⟩ := hjoined
  rw [List.filterMap_cons_some (rfl : (StreamEvent.frame f).frame? = some f)] at hwire
  have hstep : a.step request .arrive = { a with
      connection := some { c with wire := events.filterMap StreamEvent.frame? }
      reader := { a.reader with received := a.reader.received ++ [f] } } := by
    rw [StreamWorld.step, hconnection]
    dsimp only
    rw [hwire]
  rw [hstep] at hlaw ⊢
  refine ⟨hlaw, h.hub, ?_, ?_, ?_, ?_, h.base, ⟨hunheard, _, rfl, rfl, fun c' hc' ↦ ?_⟩,
    .inr ⟨hopened.within, ?_⟩⟩
  · dsimp only
    rw [h.yielded, List.map_append, List.append_assoc]
    rfl
  · exact forall_mem_concat h.spoken trivial
  · rw [List.filterMap_append, h.received]
    rfl
  · dsimp only
    rw [Reader.lastEventId_received, h.cursor]
    cases f.id with
    | none => rfl
    | some id => rfl
  · obtain ⟨hempty, hbehind⟩ := hserver c' hc'
    refine ⟨hempty, ?_⟩
    rw [Connection.behind, hempty, List.append_nil]
    exact congrArg (fun c₀ : Connection π ↦
      { c₀ with wire := events.filterMap StreamEvent.frame? }) hbehind
  · exact fun e he ↦ hopened.plain e (List.mem_cons_of_mem _ he)

/-- The last byte of a reset.  It is the first thing that the client yields. -/
theorem Shadow.reset {reason : String} {current : StreamCursor} {events : List (StreamEvent π)}
    (h : Shadow json utf request.filter after w a kept told (.reset reason current :: events))
    (age : Nat) :
    let snapshot : StreamCursor := ⟨w.hub.epoch, w.hub.log.length - age⟩
    Shadow json utf request.filter after { w with
        server := none
        unread := []
        client := { w.client with
          after := some snapshot.text
          cursor := none
          yielded := w.client.yielded ++ [resetYielded json reason current snapshot]
          reading := none } }
      { hub := w.hub, reader := { origin := snapshot.seq } }
      [resetYielded json reason current snapshot] [] [] := by
  intro snapshot
  have hidle : Idle w kept told (.reset reason current :: events) := by
    rcases h.phase with hidle | hopened
    · exact hidle
    · rcases hopened.plain _ List.mem_cons_self with heq | hspoken
      · cases heq
      · exact hspoken.elim
  have hseq : snapshot.seq ≤ w.hub.log.length := Nat.sub_le ..
  have hlaw := h.law.hub
  rw [h.hub] at hlaw
  refine ⟨⟨hlaw, List.forall_mem_nil _, ⟨tells_self _ _, hseq, List.forall_mem_nil _⟩⟩, rfl, ?_,
    List.forall_mem_nil _, rfl, rfl, .inr ⟨reason, current, snapshot.seq, hseq, rfl, rfl⟩,
    ⟨rfl, rfl, rfl⟩, .inr ⟨fun raw cursor hraw hcursor ↦ ?_, List.forall_mem_nil _⟩⟩
  · dsimp only
    rw [h.yielded, hidle.first, hidle.silent]
    rfl
  · rw [← Option.some.inj hraw, PyClient.trimText_text, parseCursor_text] at hcursor
    split at hcursor
    · rw [← Option.some.inj hcursor]
      exact ⟨rfl, hseq, rfl⟩
    · cases hcursor

/-- **The client reads a byte.** -/
theorem Shadow.byte (h : Shadow json utf request.filter after w a kept told unseen)
    {b : UInt8} {rest : Bytes} (hunread : w.unread = b :: rest) (age : Option Nat) :
    ∃ a' kept' told' unseen', Shadow json utf request.filter after
      (w.read rest (w.client.byte json utf (w.snapshot age) b)) a' kept' told' unseen' := by
  cases hreading : w.client.reading with
  | none =>
      have hbyte : w.client.byte json utf (w.snapshot age) b = w.client := by
        rw [PyClient.byte, hreading]
      rw [hbyte, read_gone hreading]
      exact ⟨_, _, _, _, h.closed hreading rfl rfl rfl⟩
  | some s =>
      have hsome : w.client.reading.isSome = true := by rw [hreading]; rfl
      have hbyte : w.client.byte json utf (w.snapshot age) b =
          PyClient.taken json (w.snapshot age)
            { w.client with reading := some (s.feed utf b).1 } (s.feed utf b).2 := by
        rw [PyClient.byte, hreading]
      have hjoined := h.joined
      rw [hreading] at hjoined
      obtain ⟨hunheard, -⟩ := hjoined
      rw [hunread] at hunheard
      rw [hbyte]
      rcases hunheard.byte with ⟨hnone, hrest⟩ | ⟨e, events, rfl, hfeed, hrest⟩
      · rw [hnone]
        exact ⟨a, kept, told, unseen, h.reads hsome hrest rfl fun e he ↦ he⟩
      · rw [hfeed]
        cases e with
        | keepAlive =>
            exact ⟨a, kept, told, events, h.reads hsome hrest rfl fun e he ↦
              List.mem_cons_of_mem _ he⟩
        | ready start current =>
            rw [PyClient.taken_spoken (e := .ready start current) trivial]
            exact ⟨a, kept, _, events, h.ready hsome hrest⟩
        | frame f =>
            rw [PyClient.taken_spoken (e := .frame f) trivial]
            exact ⟨_, kept, _, events, h.arrive hsome hrest⟩
        | reset reason current =>
            rw [PyClient.taken_reset]
            cases age with
            | none => exact ⟨_, kept, told, [], h.failed rest⟩
            | some age => exact ⟨_, _, [], [], h.reset age⟩

/-- The response ends. -/
theorem Shadow.finish (h : Shadow json utf request.filter after w a kept told unseen)
    (age : Option Nat) :
    Shadow json utf request.filter after
      (w.read [] (w.client.finish json utf (w.snapshot age))) { a with connection := none } kept
      told [] := by
  have hfinish : w.client.finish json utf (w.snapshot age) = { w.client with reading := none } := by
    have hjoined := h.joined
    cases hreading : w.client.reading with
    | none =>
        rw [PyClient.finish, hreading]
        dsimp only
        rw [← hreading]
    | some s =>
        rw [hreading] at hjoined
        rw [PyClient.finish, hreading]
        dsimp only
        rw [hjoined.1.finish]
        rfl
  rw [hfinish, read_gone rfl]
  exact h.closed rfl rfl rfl rfl

/-- **One step.** -/
theorem Shadow.step (h : Shadow json utf request.filter after w a kept told unseen)
    (action : WireAction π) :
    ∃ a' kept' told' unseen', Shadow json utf request.filter after
      (w.step request json utf action) a' kept' told' unseen' := by
  have hturned : ∀ {f : Connection π → Option (Connection π)}, Blind f →
      ({ a with connection := a.connection.bind f } : StreamWorld π).Law request.filter →
      ∃ a' kept' told' unseen', Shadow json utf request.filter after
        (w.written json (w.server.bind f)) a' kept' told' unseen' := by
    intro f hf hlaw
    obtain ⟨a', unseen', h'⟩ := h.turned hf hlaw
    exact ⟨a', kept, told, unseen', h'⟩
  cases action with
  | commit => exact ⟨_, _, _, _, h.commit⟩
  | send =>
      rw [WireWorld.step]
      cases hunsent : w.hub.unsent with
      | nil => exact ⟨_, _, _, _, h⟩
      | cons record rest => exact ⟨_, _, _, _, h.send hunsent⟩
  | connect =>
      rw [WireWorld.step]
      split
      next hconnect => exact ⟨_, _, _, _, h.connect (Option.isNone_iff_eq_none.mp hconnect.1)⟩
      next => exact ⟨_, _, _, _, h⟩
  | start =>
      rw [WireWorld.step]
      cases hserver : w.server with
      | none => exact ⟨_, _, _, _, h⟩
      | some c =>
          dsimp only
          split
          next hclosed =>
            obtain ⟨a', unseen', h'⟩ := h.start hserver (Option.isNone_iff_eq_none.mp hclosed)
            exact ⟨a', kept, told, unseen', h'⟩
          next => exact ⟨_, _, _, _, h⟩
  | turn =>
      have hturn := hturned (blind_turn request a.hub.store) (h.law.step .turn)
      rw [h.hub] at hturn
      exact hturn
  | recv => exact hturned (blind_recv request) (h.law.step .recv)
  | pending message =>
      exact hturned (blind_select request fun state ↦ pendingTurn request state message)
        (h.law.step (.pending message))
  | timer => exact hturned (blind_select request timerTurn) (h.law.step .timer)
  | keepAlive =>
      rw [WireWorld.step]
      split
      next hreading => exact ⟨_, _, _, _, h.keepAlive hreading⟩
      next => exact ⟨_, _, _, _, h⟩
  | close => exact ⟨_, _, _, _, h.close⟩
  | byte age =>
      rw [WireWorld.step]
      cases hunread : w.unread with
      | nil => exact ⟨_, _, _, _, h⟩
      | cons b rest => exact h.byte hunread age
  | finish age => exact ⟨_, _, _, _, h.finish age⟩
  | fail => exact ⟨_, _, _, _, h.failed []⟩

theorem Shadow.run (h : Shadow json utf request.filter after w a kept told unseen)
    (actions : List (WireAction π)) :
    ∃ a' kept' told' unseen', Shadow json utf request.filter after
      (w.run request json utf actions) a' kept' told' unseen' := by
  induction actions generalizing w a kept told unseen with
  | nil => exact ⟨a, kept, told, unseen, h⟩
  | cons action actions ih =>
      obtain ⟨a', kept', told', unseen', h'⟩ := h.step action
      exact ih h'

end Shadow

/-! ## What has been yielded -/

/-- The record that an event brings. -/
def StreamEvent.record (e : StreamEvent π) : Option DeliveryRecord :=
  e.frame?.bind StreamFrame.record

/-- The number that its id carries. -/
def StreamEvent.seq (e : StreamEvent π) : Option Nat := e.id.map (·.seq)

theorem records_of_frames (events : List (StreamEvent π)) :
    events.filterMap StreamEvent.record =
      (events.filterMap StreamEvent.frame?).filterMap StreamFrame.record := by
  rw [List.filterMap_filterMap]
  rfl

theorem ids_of_frames (events : List (StreamEvent π)) :
    events.filterMap StreamEvent.id =
      (events.filterMap StreamEvent.frame?).filterMap StreamFrame.id := by
  rw [List.filterMap_filterMap]
  refine congrArg (fun id ↦ events.filterMap id) (funext fun e ↦ ?_)
  cases e with
  | frame f => rfl
  | ready after current => rfl
  | reset reason current => rfl
  | keepAlive => rfl

theorem seqs_of_frames (events : List (StreamEvent π)) :
    events.filterMap StreamEvent.seq =
      (events.filterMap StreamEvent.frame?).filterMap StreamFrame.seq := by
  rw [seq_eq_map, ← ids_of_frames, List.map_filterMap]
  rfl

/-- What is heard holds what was published, and nothing that is not in the log. -/
theorem Heard.between {filter : DeliveryFilter} {hub : Publishing} {reader : Reader π} {b : Nat}
    {F : List (StreamFrame π)} (h : Heard filter hub reader b F) :
    (hub.published.filter fun r ↦
        reader.origin < r.cursor.seq ∧ r.cursor.seq ≤ b ∧ deliveryMatches r filter).Sublist
      (F.filterMap StreamFrame.record) ∧
    (F.filterMap StreamFrame.record).Sublist (hub.log.filter fun r ↦
      reader.origin < r.cursor.seq ∧ r.cursor.seq ≤ b ∧ deliveryMatches r filter) := by
  have hrecords : F.filterMap StreamFrame.record =
      (hub.log.filter (StreamWorld.shows hub reader)).filter fun r ↦
        reader.origin < r.cursor.seq ∧ r.cursor.seq ≤ b ∧ deliveryMatches r filter := by
    rw [h.tells.records, window, visible, List.filter_filter]
    refine List.filter_congr fun r _ ↦ ?_
    rw [Bool.eq_iff_iff]
    simp only [Bool.and_eq_true, decide_eq_true_eq]
    tauto
  have hshown : hub.published.filter (StreamWorld.shows hub reader) = hub.published := by
    refine List.filter_eq_self.mpr fun r hr ↦ ?_
    rw [StreamWorld.shows, Bool.or_eq_true]
    exact .inl (decide_eq_true hr)
  rw [hrecords]
  constructor
  · have hsublist := ((hub.published_subset).filter (StreamWorld.shows hub reader)).filter fun r ↦
      decide (reader.origin < r.cursor.seq ∧ r.cursor.seq ≤ b ∧ deliveryMatches r filter)
    rw [hshown] at hsublist
    exact hsublist
  · exact List.filter_sublist.filter _

section Follower

variable (request : StreamRequest π) (compute : ComputeCovenantId) (dec : Decoders)
  {tree : ChainTree}

/-- A client of a run of the follower. -/
def WireWorld.wired (epoch : StreamEpoch) (calls : List FollowerCall) (after : Option Text)
    (actions : List (WireAction π)) : WireWorld π δ :=
  (WireWorld.init epoch (followerRun compute dec (.fresh epoch, []) calls).2 after).run request json
    utf actions

theorem shadow_init (htree : tree.Rising) (epoch : StreamEpoch) {calls : List FollowerCall}
    (htells : ∀ call ∈ calls, call.Tells tree)
    (hkept : unreset compute dec (.fresh epoch) calls = true) (after : Option Text) :
    Shadow json utf request.filter after
      (WireWorld.init epoch (followerRun compute dec (.fresh epoch, []) calls).2 after)
      (StreamWorld.init epoch (followerRun compute dec (.fresh epoch, []) calls).2) [] [] [] where
  law := StreamWorld.law_init
    (StreamWorld.publishing_followerRun compute dec htree epoch htells hkept)
  hub := rfl
  yielded := rfl
  spoken := List.forall_mem_nil _
  received := rfl
  cursor := rfl
  base := .inl ⟨rfl, rfl⟩
  joined := ⟨rfl, rfl, rfl⟩
  phase := .inl ⟨rfl, rfl, List.forall_mem_nil _, by rintro _ ⟨⟩⟩

/-! ### The log -/

section Log

variable {json utf request} {w : WireWorld π δ}

theorem read_hub (unread : Bytes) (client : PyClient δ) : (w.read unread client).hub = w.hub := by
  rw [WireWorld.read]
  split
  · rfl
  · rfl

theorem written_hub (c : Option (Connection π)) : (w.written json c).hub = w.hub := by
  cases c with
  | none => rfl
  | some c => rfl

theorem start_hub (c : Connection π) : (w.start json c).hub = w.hub := by
  unfold WireWorld.start
  split
  · split
    · rfl
    · rfl
  · exact read_hub _ _

/-- The commits of a run are a beginning of the follower's. -/
theorem step_wired_events (action : WireAction π) :
    (w.step request json utf action).hub.done ++ (w.step request json utf action).hub.upcoming =
      w.hub.done ++ w.hub.upcoming := by
  have hsame : ∀ {w' : WireWorld π δ}, w'.hub = w.hub →
      w'.hub.done ++ w'.hub.upcoming = w.hub.done ++ w.hub.upcoming := fun h ↦ by rw [h]
  cases action with
  | commit =>
      change w.hub.commit.done ++ w.hub.commit.upcoming = _
      unfold Publishing.commit
      cases hupcoming : w.hub.upcoming with
      | nil =>
          dsimp only
          rw [hupcoming]
      | cons event rest =>
          dsimp only
          rw [List.append_assoc]
          rfl
  | send =>
      rw [WireWorld.step]
      cases w.hub.unsent with
      | nil => rfl
      | cons record rest => rfl
  | connect =>
      rw [WireWorld.step]
      split
      · rfl
      · rfl
  | start =>
      rw [WireWorld.step]
      cases w.server with
      | none => rfl
      | some c =>
          dsimp only
          split
          · exact hsame (start_hub c)
          · rfl
  | turn => exact hsame (written_hub _)
  | recv => exact hsame (written_hub _)
  | pending message => exact hsame (written_hub _)
  | timer => exact hsame (written_hub _)
  | keepAlive =>
      rw [WireWorld.step]
      split
      · rfl
      · rfl
  | close => rfl
  | byte age =>
      rw [WireWorld.step]
      cases w.unread with
      | nil => rfl
      | cons b rest => exact hsame (read_hub _ _)
  | finish age => exact hsame (read_hub _ _)
  | fail => exact hsame (read_hub _ _)

theorem run_wired_events (actions : List (WireAction π)) :
    (w.run request json utf actions).hub.done ++ (w.run request json utf actions).hub.upcoming =
      w.hub.done ++ w.hub.upcoming := by
  induction actions generalizing w with
  | nil => rfl
  | cons action actions ih => exact ih.trans (step_wired_events action)

end Log

theorem wired_log (htree : tree.Rising) (epoch : StreamEpoch) {calls : List FollowerCall}
    (htells : ∀ call ∈ calls, call.Tells tree)
    (hkept : unreset compute dec (.fresh epoch) calls = true) (after : Option Text)
    (actions : List (WireAction π)) :
    (WireWorld.wired json utf request compute dec epoch calls after actions).hub.log <+:
      (followerRun compute dec (.fresh epoch, []) calls).1.deliveryLog := by
  have hlog := (followerRun_law compute dec (f := (.fresh epoch, [])) htree
    (Placed.fresh tree epoch) rfl htells hkept).2
  have hevents :
      (WireWorld.wired json utf request compute dec epoch calls after actions).hub.done ++
        (WireWorld.wired json utf request compute dec epoch calls after actions).hub.upcoming =
          (followerRun compute dec (.fresh epoch, []) calls).2 := run_wired_events actions
  rw [hlog, ← hevents, List.flatMap_append]
  exact List.prefix_append _ _

/-- **The client yields what was published, wherever its responses are cut.**  In any order of
the commits of a follower that no recovery restarts, the hub's sends, the worker's turns and the
bytes read, with responses that end or break at any byte and any number of them: what the client has yielded is at most one reset,
which comes first, and then whole events.  Its cursor is the last id among them, the ids rise, and
up to each of them the events bring every record that was published behind the cursor it started
at and matches, and none that is not in the log, each once and in the log's order. -/
theorem WireWorld.yielded_exact (htree : tree.Rising) (epoch : StreamEpoch)
    {calls : List FollowerCall} (htells : ∀ call ∈ calls, call.Tells tree)
    (hkept : unreset compute dec (.fresh epoch) calls = true) (after : Option Text)
    (actions : List (WireAction π)) :
    let w := WireWorld.wired json utf request compute dec epoch calls after actions
    w.hub.log <+: (followerRun compute dec (.fresh epoch, []) calls).1.deliveryLog ∧
    ∃ kept told origin,
      w.client.yielded = kept ++ told.map (StreamEvent.yielded json) ∧
      (kept = [] ∧ w.client.after = after ∨ ∃ reason current seq, seq ≤ w.hub.log.length ∧
        kept = [resetYielded json reason current ⟨w.hub.epoch, seq⟩] ∧
          w.client.after = some (⟨w.hub.epoch, seq⟩ : StreamCursor).text) ∧
      (∀ e ∈ told, e.Spoken) ∧
      w.client.cursor = (told.filterMap StreamEvent.id).getLast?.map StreamCursor.text ∧
      (told.filterMap StreamEvent.seq).Pairwise (· < ·) ∧
      (∀ raw cursor, w.client.after = some raw →
        parseCursor (Preflight.trimText raw) = some cursor → origin = cursor.seq) ∧
      ∀ front, front <+: told →
        (w.hub.published.filter fun r ↦ origin < r.cursor.seq ∧
            r.cursor.seq ≤ lastId StreamEvent.seq origin front ∧
            deliveryMatches r request.filter).Sublist (front.filterMap StreamEvent.record) ∧
          (front.filterMap StreamEvent.record).Sublist (w.hub.log.filter fun r ↦
            origin < r.cursor.seq ∧ r.cursor.seq ≤ lastId StreamEvent.seq origin front ∧
              deliveryMatches r request.filter) := by
  intro w
  obtain ⟨a, kept, told, unseen, h⟩ :=
    (shadow_init json utf request compute dec htree epoch htells hkept after).run actions
  have hheard := h.law.listening.received
  rw [h.hub, ← h.received] at hheard
  refine ⟨wired_log json utf request compute dec htree epoch htells hkept after actions, kept, told, ?_⟩
  have hcursor : w.client.cursor =
      (told.filterMap StreamEvent.id).getLast?.map StreamCursor.text := by
    rw [ids_of_frames, h.received]
    exact h.cursor
  have hids : (told.filterMap StreamEvent.seq).Pairwise (· < ·) := by
    rw [seqs_of_frames]
    exact hheard.tells.ids
  rcases h.phase with hidle | hopened
  · -- nothing has been told, so any start will do
    refine ⟨((w.client.after.bind fun raw ↦ parseCursor (Preflight.trimText raw)).map
      StreamCursor.seq).getD 0, h.yielded, h.base, h.spoken, hcursor, hids, ?_, ?_⟩
    · intro raw cursor hraw hparsed
      rw [hraw, Option.bind_some, hparsed]
      rfl
    · intro front hfront
      rw [hidle.silent, List.prefix_nil] at hfront
      subst hfront
      refine ⟨?_, List.nil_sublist _⟩
      rw [List.filter_eq_nil_iff.mpr]
      · exact List.nil_sublist _
      · intro r _ hr
        obtain ⟨hlow, hhigh, -⟩ := of_decide_eq_true hr
        exact absurd hhigh (Nat.not_le.mpr hlow)
  · refine ⟨a.reader.origin, h.yielded, h.base, h.spoken, hcursor, hids,
      fun raw cursor hraw hparsed ↦ (hopened.within raw cursor hraw hparsed).2.2, ?_⟩
    rintro front ⟨back, rfl⟩
    rw [List.filterMap_append] at hheard
    have hbetween := hheard.front.between
    rw [← records_of_frames] at hbetween
    have hlast : lastId StreamEvent.seq a.reader.origin front =
        lastId StreamFrame.seq a.reader.origin (front.filterMap StreamEvent.frame?) := by
      rw [lastId, lastId, seqs_of_frames]
    rw [hlast]
    exact hbetween

end Follower

/-! ## A client of a sample run -/

/-- What stands before a cursor. -/
def sampleKey : Text := ['"', 'c', 'u', 'r', 's', 'o', 'r', '"', ':', '"']

/-- The JSON of an event, with its cursor only. -/
def sampleText (e : StreamEvent Unit) : Text :=
  '\x7b' :: (sampleKey ++ ((e.id.map StreamCursor.text).getD [] ++ ['"'])) ++ ['\x7d']

theorem sampleText_oneLine (e : StreamEvent Unit) : '\n' ∉ sampleText e := by
  have hid : '\n' ∉ (e.id.map StreamCursor.text).getD [] := by
    cases e.id with
    | none => exact List.not_mem_nil
    | some id => exact fun hmem ↦ absurd (id.solid_text _ hmem) (by decide)
  rw [sampleText, List.mem_append, List.mem_cons, List.mem_append, List.mem_append]
  rintro ((h | h | h | h) | h)
  · exact absurd h (by decide)
  · exact absurd h (by decide)
  · exact hid h
  · exact absurd h (by decide)
  · exact absurd h (by decide)

def sampleJson : FeedJson Unit Text where
  text := sampleText
  loads := some
  dict := sampleText
  snapshot _ := some ['/']
  loads_text _ := rfl
  oneLine := sampleText_oneLine
  opens _ := rfl
  closes _ := List.getLast?_concat ..
  reset _ _ := rfl

/-- A byte of an ASCII character is one, and the rest is UTF-8 or replaced. -/
def lossyDecode : Bytes → Text
  | [] => []
  | b :: bytes =>
      if b.toNat < 128 then Char.ofNat b.toNat :: lossyDecode bytes
      else
        match fromUtf8 (b :: bytes) with
        | some s => s.toList
        | none => Char.ofNat 0xfffd :: lossyDecode bytes

theorem fromUtf8_utf8 (t : Text) : fromUtf8 (utf8 t) = some (String.ofList t) := by
  refine fromUtf8_eq_some.mpr ?_
  rw [utf8, utf8Bytes, String.toByteArray_ofList, List.utf8Encode, List.data_toByteArray]

theorem lossyDecode_utf8 (t : Text) : lossyDecode (utf8 t) = t := by
  induction t with
  | nil => rfl
  | cons c t ih =>
      by_cases hc : c.toNat < 128
      · have hb : (UInt8.ofNat c.toNat).toNat = c.toNat :=
          UInt8.toNat_ofNat_of_lt' (hc.trans (by decide))
        rw [utf8_cons_ascii hc, lossyDecode, hb, if_pos hc, ih, Char.ofNat_toNat]
      · have hwhole := fromUtf8_utf8 (c :: t)
        have hbytes : utf8 (c :: t) = String.utf8EncodeChar c ++ utf8 t := List.flatMap_cons
        obtain ⟨b, bytes, hcons⟩ : ∃ b bytes, String.utf8EncodeChar c = b :: bytes :=
          List.exists_cons_of_ne_nil (by simp)
        have hb : ¬b.toNat < 128 := by
          rcases mem_utf8EncodeChar (hcons ▸ List.mem_cons_self : b ∈ String.utf8EncodeChar c) with
            ⟨hlt, -⟩ | hge
          · exact absurd hlt hc
          · exact Nat.not_lt.mpr hge
        rw [hbytes, hcons, List.cons_append] at hwhole ⊢
        rw [lossyDecode, if_neg hb, hwhole]
        exact String.toList_ofList

def sampleUtf : LossyUtf8 where
  decode := lossyDecode
  decode_utf8 := lossyDecode_utf8
  decode_ascii b bytes hb := by rw [lossyDecode, if_pos hb]

/-- The client is sent back to a snapshot from before two records.  It is replayed them, its
response ends within the second, and it comes back for that. -/
def sampleReading : List (WireAction Unit) :=
  List.flatten [[.commit, .commit, .connect, .start], List.replicate 100 (.byte (some 2)),
    [.connect, .start, .turn, .turn, .turn, .turn], List.replicate 250 (.byte none),
    [.finish none, .connect, .start, .turn, .turn, .turn], List.replicate 250 (.byte none)]

/-- A client that starts at a cursor of another worker. -/
def sampleClient : WireWorld Unit Text :=
  WireWorld.wired sampleJson sampleUtf StreamWorld.sampleRequest sampleCodecs.compute .blind ⟨0⟩
    sampleFollowing (some (⟨⟨1⟩, 0⟩ : StreamCursor).text) sampleReading

/-- It is sent back once, has its cursor at the second record, and has yielded both. -/
theorem sampleClient_yielded :
    ∃ kept, ∃ told : List (StreamEvent Unit),
      sampleClient.client.yielded = kept ++ told.map (StreamEvent.yielded sampleJson) ∧
      kept.length = 1 ∧ (∀ e ∈ told, e.Spoken) ∧
      (told.filterMap StreamEvent.id).getLast? = some ⟨⟨0⟩, 2⟩ ∧
      (told.filterMap StreamEvent.seq).Pairwise (· < ·) ∧
      (told.filterMap StreamEvent.record).map (·.cursor.seq) = [1, 2] := by
  obtain ⟨-, kept, told, origin, hyielded, hbase, hspoken, hcursor, hids, horigin, hrecords⟩ :=
    WireWorld.yielded_exact sampleJson sampleUtf StreamWorld.sampleRequest sampleCodecs.compute
      .blind sampleTree_rising ⟨0⟩ sampleFollowing_tells sampleFollowing_unreset
      (some (⟨⟨1⟩, 0⟩ : StreamCursor).text) sampleReading
  have hafter : sampleClient.client.after = some (⟨⟨0⟩, 0⟩ : StreamCursor).text := by
    decide +kernel
  have hlast : sampleClient.client.cursor = some (⟨⟨0⟩, 2⟩ : StreamCursor).text := by
    decide +kernel
  unfold sampleClient at hafter hlast ⊢
  have hone : kept.length = 1 := by
    rcases hbase with ⟨-, hsame⟩ | ⟨_, _, _, -, hreset, -⟩
    · exact absurd (hafter.symm.trans hsame) (by decide +kernel)
    · rw [hreset]
      rfl
  obtain rfl : origin = 0 := horigin _ ⟨⟨0⟩, 0⟩ hafter (by decide +kernel)
  have hid : (told.filterMap StreamEvent.id).getLast? = some ⟨⟨0⟩, 2⟩ := by
    rw [hlast] at hcursor
    obtain ⟨id, hid, htext⟩ := Option.map_eq_some_iff.mp hcursor.symm
    have hparsed := congrArg parseCursor htext
    rw [parseCursor_text, parseCursor_text, if_pos (by decide : 2 < 2 ^ 64)] at hparsed
    split at hparsed
    · rw [hid, Option.some.inj hparsed]
    · cases hparsed
  have hreached : lastId StreamEvent.seq 0 told = 2 := by
    rw [lastId, show told.filterMap StreamEvent.seq =
      (told.filterMap StreamEvent.id).map (·.seq) from (List.map_filterMap ..).symm,
      List.getLast?_map, hid]
    rfl
  obtain ⟨hlow, hhigh⟩ := hrecords told (List.prefix_refl _)
  rw [hreached] at hlow hhigh
  refine ⟨kept, told, hyielded, hone, hspoken, hid, hids, ?_⟩
  have hlow' := hlow.map fun r ↦ r.cursor.seq
  have hhigh' := hhigh.map fun r ↦ r.cursor.seq
  refine List.Sublist.antisymm (hhigh'.trans ?_) (List.Sublist.trans ?_ hlow')
  · decide +kernel
  · decide +kernel

end Kascov
