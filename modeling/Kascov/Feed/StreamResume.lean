import Kascov.Feed.StreamLaw

/-!
# A client that comes back catches up

Whatever has happened to its connection, a client that has an id comes back with it, is never
sent to a snapshot, and is told the rest of the log by turns of the stream alone.
-/

namespace Kascov

open Told

variable {π : Type}

/-! ## Turns lead on -/

/-- How far a replay still has to go. -/
def DurableStreamState.remaining (state : DurableStreamState π) : Nat :=
  match state.replay with
  | some replay => state.discardThrough.seq - replay.cursor.seq + 1
  | none => 0

/-- The records that match fit into an event. -/
def Fits (request : StreamRequest π) (hub : Publishing) : Prop :=
  ∀ r ∈ hub.log, deliveryMatches r request.filter = true →
    request.recordBytes r ≤ maxStreamEventBytes

section Turn

variable {request : StreamRequest π} {hub : Publishing} {reader : Reader π} {c : Channel π}
  {state : DurableStreamState π}

/-- A page of a replay that is not at its end has a record. -/
theorem replayPage_some (hlaw : hub.Law) {after through : StreamCursor}
    (hepoch : after.epoch = hub.epoch) (hbehind : after.seq < through.seq)
    (hthrough : through.seq ≤ hub.log.length) (n : Nat) :
    ∃ page last, replayPage hub.store after through n = .ok page ∧ page.getLast? = some last := by
  -- the next record of the log is within the page
  have hmem : after.seq + 1 ∈ hub.log.map seqOf := by
    rw [hlaw.log_seqs, List.mem_range'_1]
    omega
  obtain ⟨next, hnext, hseq⟩ := List.mem_map.mp hmem
  have hselected : next ∈ hub.log.filter (after.seq < seqOf ·) :=
    List.mem_filter.mpr ⟨hnext, decide_eq_true (by omega)⟩
  obtain ⟨first, rest, hcons⟩ := List.exists_cons_of_ne_nil (List.ne_nil_of_mem hselected)
  have hfirst : seqOf first ≤ through.seq := by
    have hordered : Ordered seqOf (first :: rest) :=
      hcons ▸ hlaw.log_ordered.sublist List.filter_sublist
    rw [hcons] at hselected
    rcases List.mem_cons.mp hselected with rfl | hrest
    · omega
    · have hlt := (List.pairwise_cons.mp hordered).1 next hrest
      omega
  have hpage : replayPage hub.store after through n = .ok (((hub.log.filter (after.seq <
      seqOf ·)).take (clamp n 1 maxDeliveryReplayPage)).filter (·.cursor.seq ≤ through.seq)) := by
    unfold replayPage deliveryReplayPage deliveryPageFilteredWithCap
    have hsame : ¬(after.epoch ≠ hub.store.streamEpoch) := not_not.mpr hepoch
    dsimp only
    rw [if_neg hsame]
    refine congrArg (fun ys : List DeliveryRecord ↦ Except.ok ((ys.take (clamp n 1
      maxDeliveryReplayPage)).filter (·.cursor.seq ≤ through.seq))) ?_
    exact List.filter_congr fun r _ ↦ Bool.and_true _
  obtain ⟨k, hk⟩ : ∃ k, clamp n 1 maxDeliveryReplayPage = k + 1 :=
    ⟨_, (Nat.sub_add_cancel (clamp_pos n (by decide))).symm⟩
  have hfirst' : (first :: rest.take k).filter (fun r ↦ decide (r.cursor.seq ≤ through.seq)) =
      first :: (rest.take k).filter fun r ↦ decide (r.cursor.seq ≤ through.seq) :=
    List.filter_cons_of_pos (decide_eq_true hfirst)
  rw [hcons, hk, List.take_succ_cons, hfirst'] at hpage
  exact ⟨_, _, hpage, List.getLast?_cons⟩

/-- What a stream queues or sends fits. -/
theorem Streaming.fits (h : Streaming request.filter hub reader c state) (hfits : Fits request hub)
    {r : DeliveryRecord} (hr : r ∈ (frames reader c state).filterMap StreamFrame.record) :
    request.recordBytes r ≤ maxStreamEventBytes := by
  have hheard : ∃ b, Heard request.filter hub reader b (frames reader c state) := by
    have hphase := h.phase
    split at hphase
    · exact ⟨_, hphase.heard⟩
    · obtain ⟨b, hfollowing⟩ := hphase
      exact ⟨b, hfollowing.heard⟩
  obtain ⟨b, hheard⟩ := hheard
  rw [hheard.tells.records] at hr
  obtain ⟨hwindow, hmatches⟩ := List.mem_filter.mp hr
  exact hfits r (List.mem_of_mem_filter (mem_window.mp hwindow).1) hmatches

/-- **A turn keeps the stream open**, and leads on unless the stream waits for the hub. -/
theorem turn_open (hlaw : hub.Law) (h : Streaming request.filter hub reader c state)
    (hfits : Fits request hub) :
    ∃ c' state', Connection.turn request hub.store ⟨c, some state⟩ = some ⟨c', some state'⟩ ∧
      (state.waiting = true ∧ c' = c ∧ state' = state ∨
        state'.remaining < state.remaining ∨
          state'.remaining = state.remaining ∧ state'.queued.length < state.queued.length) := by
  rw [Connection.turn]
  dsimp only
  unfold streamTurn
  cases hqueue : state.queued with
  | cons frame rest =>
      have hshorter : ({ state with queued := rest } : DurableStreamState π).remaining =
          state.remaining ∧ rest.length < (frame :: rest).length :=
        ⟨rfl, Nat.lt_succ_self _⟩
      rw [Connection.settle]
      dsimp only
      cases hfate : streamFrameEvent request frame with
      | sent => exact ⟨_, _, rfl, .inr (.inr hshorter)⟩
      | skipped => exact ⟨_, _, rfl, .inr (.inr hshorter)⟩
      | closes =>
          cases frame with
          | delivery r =>
              rw [streamFrameEvent] at hfate
              split at hfate
              · rename_i hover
                refine absurd (h.fits hfits (r := r) ?_) (Nat.not_le.mpr hover)
                rw [frames, hqueue]
                refine List.mem_filterMap.mpr ⟨.delivery r, ?_, rfl⟩
                exact List.mem_append_right _ (List.mem_append_right _ List.mem_cons_self)
              · cases hfate
          | checkpoint cursor => cases hfate
          | pending message =>
              rw [streamFrameEvent] at hfate
              split at hfate
              · cases hfate
              · cases hfate
  | nil =>
      dsimp only
      cases hreplay : state.replay with
      | none =>
          have hwaiting : state.waiting = true := by
            rw [DurableStreamState.waiting, hqueue, hreplay]
            rfl
          exact ⟨c, state, rfl, .inl ⟨hwaiting, rfl, rfl⟩⟩
      | some replay =>
          dsimp only
          have hphase := h.phase
          rw [hreplay] at hphase
          split
          · rename_i hbehind
            rw [hphase.through] at hbehind
            obtain ⟨page, last, hpage, hlast⟩ :=
              replayPage_some hlaw hphase.epoch hbehind h.through request.replayPageSize
            obtain ⟨⟨rest, hrest⟩, hbound⟩ := replayPage_ok hlaw hpage
            have hmem : last ∈ page := List.mem_of_getLast? hlast
            have hahead : replay.cursor.seq < seqOf last := by
              have hselected : last ∈ hub.log.filter (replay.cursor.seq < seqOf ·) :=
                hrest ▸ List.mem_append_left rest hmem
              exact of_decide_eq_true (List.mem_filter.mp hselected).2
            have hhigh : seqOf last ≤ state.discardThrough.seq := hbound last hmem
            have hless : state.discardThrough.seq - seqOf last + 1 <
                state.discardThrough.seq - replay.cursor.seq + 1 := by omega
            unfold replayTurn
            rw [hphase.through, hpage]
            dsimp only
            rw [hlast]
            dsimp only
            split
            · refine ⟨_, _, rfl, .inr (.inl ?_)⟩
              rw [DurableStreamState.remaining, DurableStreamState.remaining, hreplay]
              exact hless
            · refine ⟨_, _, rfl, .inr (.inl ?_)⟩
              rw [DurableStreamState.remaining, DurableStreamState.remaining, hreplay]
              exact hless
          · refine ⟨_, _, rfl, .inr (.inl ?_)⟩
            rw [DurableStreamState.remaining, DurableStreamState.remaining, hreplay]
            exact Nat.succ_pos _

end Turn

/-! ## Runs of one action -/

namespace StreamWorld

variable {request : StreamRequest π} {w : StreamWorld π}

theorem run_append (w : StreamWorld π) (first later : List (StreamAction π)) :
    w.run request (first ++ later) = (w.run request first).run request later :=
  List.foldl_append

theorem run_replicate_succ (w : StreamWorld π) (action : StreamAction π) (n : Nat) :
    w.run request (List.replicate (n + 1) action) =
      (w.step request action).run request (List.replicate n action) := rfl

theorem run_replicate_of_step {action : StreamAction π} (h : w.step request action = w) (n : Nat) :
    w.run request (List.replicate n action) = w := by
  induction n with
  | zero => rfl
  | succ n ih => rw [run_replicate_succ, h, ih]

/-- **Turns lead an open stream to where it waits for the hub**, and touch nothing else. -/
theorem turns_wait {w : StreamWorld π} (h : w.Law request.filter) (hfits : Fits request w.hub)
    {c : Channel π} {state : DurableStreamState π}
    (hconnection : w.connection = some ⟨c, some state⟩) :
    ∃ n c' state', state'.waiting = true ∧ ∀ turns, n ≤ turns →
      w.run request (List.replicate turns .turn) =
        { w with connection := some ⟨c', some state'⟩ } := by
  have hlistening := h.listening
  rw [hconnection] at hlistening
  obtain ⟨c', state', hturn, hnext⟩ := turn_open h.hub hlistening hfits
  have hstep : w.step request .turn = { w with connection := some ⟨c', some state'⟩ } := by
    rw [StreamWorld.step, hconnection]
    exact congrArg (fun connection ↦ { w with connection }) hturn
  have hlaw : StreamWorld.Law request.filter { w with connection := some ⟨c', some state'⟩ } :=
    hstep ▸ h.step .turn
  rcases hnext with ⟨hwaiting, rfl, rfl⟩ | hnext
  · refine ⟨0, c', state', hwaiting, fun turns _ ↦ ?_⟩
    rw [← hconnection] at hstep ⊢
    exact run_replicate_of_step hstep turns
  · obtain ⟨n, c'', state'', hwaiting, hturns⟩ := turns_wait hlaw hfits rfl
    refine ⟨n + 1, c'', state'', hwaiting, fun turns hn ↦ ?_⟩
    obtain ⟨turns, rfl⟩ : ∃ m, turns = m + 1 := ⟨turns - 1, by omega⟩
    rw [run_replicate_succ, hstep]
    exact hturns turns (Nat.le_of_succ_le_succ hn)
termination_by (state.remaining, state.queued.length)
decreasing_by
  rcases hnext with hless | ⟨heq, hless⟩
  · exact Prod.Lex.left _ _ hless
  · rw [heq]
    exact Prod.Lex.right _ hless

/-- Arrivals empty the wire. -/
theorem arrives_received {c : Channel π} {stream : Option (DurableStreamState π)}
    (hconnection : w.connection = some ⟨c, stream⟩) {n : Nat} (hn : c.wire.length ≤ n) :
    w.run request (List.replicate n .arrive) = { w with
      connection := some ⟨{ c with wire := [] }, stream⟩
      reader := { w.reader with received := w.reader.received ++ c.wire } } := by
  obtain ⟨rx, lagged, wire⟩ := c
  obtain ⟨hub, reader, connection⟩ := w
  obtain rfl : connection = some ⟨⟨rx, lagged, wire⟩, stream⟩ := hconnection
  induction n generalizing reader wire with
  | zero =>
      obtain rfl : wire = [] := List.length_eq_zero_iff.mp (Nat.le_zero.mp hn)
      dsimp only
      rw [List.append_nil]
      rfl
  | succ n ih =>
      cases wire with
      | nil =>
          dsimp only
          rw [List.append_nil]
          exact run_replicate_of_step rfl (n + 1)
      | cons frame rest =>
          rw [run_replicate_succ]
          refine (ih rest (Nat.le_of_succ_le_succ hn)
            { reader with received := reader.received ++ [frame] }).trans ?_
          dsimp only
          rw [List.append_assoc, List.singleton_append]

/-! ## Coming back -/

/-- What a client that has been cut off does. -/
def reconnect : List (StreamAction π) := [.drop, .subscribe, .start]

/-- Nothing is missing in front of the log. -/
theorem earliest_le {hub : Publishing} (hlaw : hub.Law) {info : DeliveryStreamInfo}
    (hinfo : deliveryStreamInfo hub.store = .ok info) {earliest : StreamCursor}
    (hearliest : info.earliest = some earliest) : earliest.seq ≤ 1 := by
  obtain rfl : _ = info := Except.ok.inj hinfo
  change ((hub.log.map seqOf).min?.map _) = _ at hearliest
  obtain ⟨least, hleast, rfl⟩ := Option.map_eq_some_iff.mp hearliest
  obtain ⟨hmem, hle⟩ := List.min?_eq_some_iff.mp hleast
  have hpos : 0 < hub.log.length := by
    rw [← List.length_map seqOf]
    exact List.length_pos_of_mem hmem
  refine hle 1 ?_
  rw [hlaw.log_seqs, List.mem_range'_1]
  omega

/-- A cursor within the log starts a stream. -/
theorem selectStreamStart_within {hub : Publishing} (hlaw : hub.Law) {info : DeliveryStreamInfo}
    (hinfo : deliveryStreamInfo hub.store = .ok info) {id : StreamCursor}
    (hepoch : id.epoch = hub.epoch) (hseq : id.seq ≤ hub.log.length) (after : Option StreamCursor) :
    selectStreamStart (some id) after info = .ready id := by
  have hcurrent : info.current = ⟨hub.epoch, hub.log.length⟩ := by
    rw [← Except.ok.inj hinfo]
    rfl
  have hvalid : info.classify id = .valid := by
    rw [DeliveryStreamInfo.classify, hcurrent, if_neg (not_not.mpr hepoch),
      if_neg (Nat.not_lt.mpr hseq)]
  have hkept : info.earliest.any (fun earliest ↦
      decide (min (id.seq + 1) (2 ^ 64 - 1) < earliest.seq)) = false := by
    cases hearliest : info.earliest with
    | none => rfl
    | some earliest =>
        have hle := earliest_le hlaw hinfo hearliest
        refine decide_eq_false ?_
        omega
  have hcursor : ((some id).or after).getD info.current = id := rfl
  rw [selectStreamStart, hcursor, hvalid]
  dsimp only
  rw [hkept]
  rfl

/-- **A client with an id is streamed to from there.** -/
theorem run_reconnect (h : w.Law request.filter) {id : StreamCursor}
    (hid : w.reader.lastEventId = some id) :
    ∃ info, info.current = ⟨w.hub.epoch, w.hub.log.length⟩ ∧ w.run request reconnect = { w with
      connection := some ⟨{}, some (openStream id info)⟩
      reader := w.reader.started id w.hub.log.length } := by
  have hheard := h.listening.received
  have hepoch : id.epoch = w.hub.epoch := hheard.epochs id (List.mem_of_getLast? hid)
  have hseq : id.seq ≤ w.hub.log.length := Reader.reached_of_lastEventId hid ▸ hheard.le
  obtain ⟨info, hinfo, hcurrent⟩ := deliveryStreamInfo_store w.hub
  refine ⟨info, hcurrent, ?_⟩
  have hstart : StreamWorld.start request { w with connection := some {} } {} = { w with
      connection := some ⟨{}, some (openStream id info)⟩
      reader := w.reader.started id w.hub.log.length } := by
    rw [StreamWorld.start]
    dsimp only
    rw [hinfo]
    dsimp only
    rw [hid, selectStreamStart_within h.hub hinfo hepoch hseq]
    dsimp only
    rw [hcurrent, Reader.started, hid]
  exact hstart

/-- A stream that waits has told all of the log that lay there when it was opened. -/
theorem waiting_heard {filter : DeliveryFilter} {hub : Publishing} {reader : Reader π}
    {c : Channel π} {state : DurableStreamState π} (h : Streaming filter hub reader c state)
    (hwaiting : state.waiting = true) {a : Nat} (hasked : (a, hub.log.length) ∈ reader.ranges) :
    Heard filter hub reader hub.log.length (reader.received ++ c.wire) := by
  rw [DurableStreamState.waiting, Bool.and_eq_true] at hwaiting
  have hempty : state.queued = [] := List.isEmpty_iff.mp hwaiting.1
  have hreplay : state.replay = none := Option.isNone_iff_eq_none.mp hwaiting.2
  have hphase := h.phase
  rw [hreplay] at hphase
  obtain ⟨b, hle, hheard, -⟩ := hphase
  have hlow : hub.log.length ≤ state.discardThrough.seq := h.ranges _ hasked
  obtain rfl : b = hub.log.length := by
    have hhigh := hheard.le
    omega
  rw [frames, hempty, List.append_nil] at hheard
  exact hheard

/-! ## The follower's streams -/

section Follower

variable (compute : ComputeCovenantId) (dec : Decoders) {tree : ChainTree}

/-- **A client that comes back catches up.**  Whatever the hub, the network, the client and a
follower that no recovery restarts have done, and in whatever order: a client that has an id and
comes back is answered with the stream from there, and, when the records that match fit into an
event, enough turns of it and enough arrivals bring it the whole rest of the log that matches,
whatever was published, without a commit or a send of the hub. -/
theorem resumed_complete (htree : tree.Rising) (epoch : StreamEpoch) {calls : List FollowerCall}
    (htells : ∀ call ∈ calls, call.Tells tree)
    (hkept : unreset compute dec (.fresh epoch) calls = true) (request : StreamRequest π)
    (actions : List (StreamAction π)) (id : StreamCursor)
    (hid : (streamed request compute dec epoch calls actions).reader.lastEventId = some id) :
    let w := streamed request compute dec epoch calls actions
    (∃ info, info.current = ⟨w.hub.epoch, w.hub.log.length⟩ ∧
      (streamed request compute dec epoch calls (actions ++ reconnect)).connection =
        some ⟨{}, some (openStream id info)⟩) ∧
    (Fits request w.hub → ∃ n, ∀ turns arrivals, n ≤ turns → n ≤ arrivals →
      let w' := streamed request compute dec epoch calls (actions ++ reconnect ++
        List.replicate turns .turn ++ List.replicate arrivals .arrive)
      w'.hub = w.hub ∧ w'.connection.isSome ∧
        w'.reader.received.filterMap StreamFrame.record =
          w.reader.received.filterMap StreamFrame.record ++ w.hub.log.filter fun r ↦
            id.seq < r.cursor.seq ∧ deliveryMatches r request.filter) := by
  intro w
  have hlaw : w.Law request.filter :=
    law_streamed compute dec htree epoch htells hkept request actions
  obtain ⟨info, hcurrent, hreconnect⟩ := run_reconnect hlaw hid
  refine ⟨⟨info, hcurrent, ?_⟩, fun hfits ↦ ?_⟩
  · change ((init epoch _ : StreamWorld π).run request _).connection = _
    rw [run_append]
    exact congrArg connection hreconnect
  have hopened : StreamWorld.Law request.filter (w.run request reconnect) := hlaw.run reconnect
  rw [hreconnect] at hopened
  obtain ⟨n, c, state, hwaiting, hturns⟩ := turns_wait hopened hfits rfl
  refine ⟨max n c.wire.length, fun turns arrivals hn harrivals ↦ ?_⟩
  intro w'
  have hw' : w' = { w with
      connection := some ⟨{ c with wire := [] }, some state⟩
      reader := { w.reader.started id w.hub.log.length with
        received := w.reader.received ++ c.wire } } := by
    change (init epoch _ : StreamWorld π).run request _ = _
    rw [run_append, run_append, run_append]
    change ((w.run request reconnect).run request _).run request _ = _
    rw [hreconnect, hturns turns ((Nat.le_max_left ..).trans hn)]
    exact arrives_received rfl ((Nat.le_max_right ..).trans harrivals)
  have hasked : (id.seq, w.hub.log.length) ∈ (w.reader.started id w.hub.log.length).ranges :=
    List.mem_cons_self
  -- what the client had, and what it has, are windows that end at its id and with the log
  have hreached := hlaw.listening.received
  have hbefore : Heard request.filter w.hub (w.reader.started id w.hub.log.length) id.seq
      w.reader.received := by
    refine (heard_started hreached ((congrArg (fun last ↦ (last.or none).getD id) hid).symm) ?_ _).2
    exact Reader.reached_of_lastEventId hid ▸ hreached.le
  have hafter : Heard request.filter w.hub (w.reader.started id w.hub.log.length)
      w.hub.log.length (w.reader.received ++ c.wire) := by
    have hstreaming := (hopened.run (List.replicate n .turn)).listening
    rw [hturns n (Nat.le_refl n)] at hstreaming
    exact waiting_heard hstreaming hwaiting hasked
  rw [hw']
  refine ⟨rfl, rfl, ?_⟩
  dsimp only
  rw [hafter.tells.records, hbefore.tells.records, ← window_append_window
    (visible_ordered hlaw.hub _) hbefore.tells.le hbefore.le, List.filter_append,
    window_visible_asked hasked (Nat.le_refl _) (Nat.le_refl _)]
  refine congrArg (List.append _) ?_
  rw [window, List.filter_filter]
  refine List.filter_congr fun r hr ↦ ?_
  have hbound := (hlaw.hub.bounds hr).2
  rw [Bool.eq_iff_iff]
  simp only [Bool.and_eq_true, decide_eq_true_eq]
  tauto

end Follower

/-- A client receives two records, and stays away for the others. -/
def sampleAway : List (StreamAction Unit) :=
  [.commit, .commit, .send, .send, .subscribe, .start, .turn, .turn, .turn, .arrive, .arrive,
    .drop, .commit, .commit, .commit, .commit, .commit]

theorem sampleAway_resumed :
    (∃ info, (streamed sampleRequest sampleCodecs.compute .blind ⟨0⟩ sampleFollowing
        (sampleAway ++ reconnect)).connection =
      some ⟨{}, some (openStream ⟨⟨0⟩, 2⟩ info)⟩) ∧
    ∃ n, ∀ turns arrivals, n ≤ turns → n ≤ arrivals →
      (streamed sampleRequest sampleCodecs.compute .blind ⟨0⟩ sampleFollowing (sampleAway ++
        reconnect ++ List.replicate turns .turn ++
          List.replicate arrivals .arrive)).reader.received.filterMap StreamFrame.record =
        (followerRun sampleCodecs.compute .blind (.fresh ⟨0⟩, [])
          sampleFollowing).1.deliveryLog := by
  obtain ⟨⟨info, -, hopened⟩, hcomplete⟩ := resumed_complete sampleCodecs.compute .blind
    sampleTree_rising ⟨0⟩ sampleFollowing_tells sampleFollowing_unreset sampleRequest sampleAway
    ⟨⟨0⟩, 2⟩ (by decide +kernel)
  obtain ⟨n, hresumed⟩ := hcomplete fun _ _ _ ↦ Nat.succ_le_succ (Nat.zero_le _)
  refine ⟨⟨info, hopened⟩, n, fun turns arrivals hturns harrivals ↦ ?_⟩
  rw [(hresumed turns arrivals hturns harrivals).2.2]
  decide +kernel

end StreamWorld

end Kascov
