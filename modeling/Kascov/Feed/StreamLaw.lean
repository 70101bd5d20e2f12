import Kascov.Feed.Stream

/-!
# No record is skipped, and none comes twice

Whatever the follower, the hub, the network and the client do, and in whatever order, the
client has received, at every id, the records up to that id that it can learn of and that
match its filter, each once and in stream order.
-/

namespace Kascov

open Told

/-- The number of a record. -/
abbrev seqOf (r : DeliveryRecord) : Nat := r.cursor.seq

/-! ## The hub -/

namespace Publishing

/-- The log is numbered from one, and the hub has sent what was published first. -/
structure Law (p : Publishing) : Prop where
  seqs : ((p.done ++ p.upcoming).flatMap FollowerEvent.records).map seqOf =
    List.range' 1 ((p.done ++ p.upcoming).flatMap FollowerEvent.records).length
  epochs : ∀ r ∈ (p.done ++ p.upcoming).flatMap FollowerEvent.records, r.cursor.epoch = p.epoch
  sent : ∃ sent, p.published = sent ++ p.unsent

variable {p : Publishing}

theorem Law.log_seqs (h : p.Law) : p.log.map seqOf = List.range' 1 p.log.length := by
  have hseqs := h.seqs
  rw [List.flatMap_append, List.map_append, List.length_append, ← List.range'_append_1] at hseqs
  exact (List.append_inj hseqs (by rw [List.length_map, List.length_range'])).1

theorem Law.log_ordered (h : p.Law) : Ordered seqOf p.log := by
  refine List.pairwise_map.mp ?_
  rw [h.log_seqs]
  exact List.pairwise_lt_range'

theorem Law.bounds (h : p.Law) {r : DeliveryRecord} (hr : r ∈ p.log) :
    1 ≤ seqOf r ∧ seqOf r ≤ p.log.length := by
  have hmem : seqOf r ∈ p.log.map seqOf := List.mem_map_of_mem hr
  rw [h.log_seqs, List.mem_range'_1] at hmem
  omega

theorem Law.epoch (h : p.Law) {r : DeliveryRecord} (hr : r ∈ p.log) : r.cursor.epoch = p.epoch :=
  h.epochs r (by rw [List.flatMap_append]; exact List.mem_append_left _ hr)

theorem published_subset (p : Publishing) : p.published.Sublist p.log := published_sublist p.done

theorem Law.published_ordered (h : p.Law) : Ordered seqOf p.published :=
  h.log_ordered.sublist p.published_subset

/-- A commit appends records behind the log. -/
theorem Law.commit (h : p.Law) :
    p.commit.Law ∧ p.commit.epoch = p.epoch ∧ ∃ new newly, p.commit.log = p.log ++ new ∧
      p.commit.published = p.published ++ newly ∧ p.commit.unsent = p.unsent ++ newly ∧
        newly.Sublist new ∧ ∀ r ∈ new, p.log.length < seqOf r := by
  obtain ⟨sent, hsent⟩ := h.sent
  unfold Publishing.commit
  cases hupcoming : p.upcoming with
  | nil =>
      refine ⟨h, rfl, [], [], (List.append_nil _).symm, (List.append_nil _).symm,
        (List.append_nil _).symm, List.Sublist.refl _, List.forall_mem_nil _⟩
  | cons event rest =>
      have hall : (p.done ++ [event]) ++ rest = p.done ++ p.upcoming := by
        rw [hupcoming, List.append_assoc]
        rfl
      have hlog : (p.done ++ [event]).flatMap FollowerEvent.records =
          p.log ++ event.records := by
        rw [List.flatMap_append, List.flatMap_singleton]
        rfl
      have hpublished : (p.done ++ [event]).flatMap FollowerEvent.published =
          p.published ++ event.published := by
        rw [List.flatMap_append, List.flatMap_singleton]
        rfl
      have hlaw : Law { p with
          done := p.done ++ [event]
          upcoming := rest
          unsent := p.unsent ++ event.published } := by
        refine ⟨?_, ?_, sent, ?_⟩
        · change (((p.done ++ [event]) ++ rest).flatMap _).map _ = _
          rw [hall]
          exact h.seqs
        · change ∀ r ∈ ((p.done ++ [event]) ++ rest).flatMap _, _
          rw [hall]
          exact h.epochs
        · change (p.done ++ [event]).flatMap _ = _
          rw [hpublished, hsent, List.append_assoc]
      refine ⟨hlaw, rfl, event.records, event.published, hlog, hpublished, rfl, ?_, fun r hr ↦ ?_⟩
      · have hone := published_sublist [event]
        rw [List.flatMap_singleton, List.flatMap_singleton] at hone
        exact hone
      · have hseqs := hlaw.log_seqs
        change ((p.done ++ [event]).flatMap _).map _ = List.range' 1 (List.length
          ((p.done ++ [event]).flatMap _)) at hseqs
        rw [hlog, List.map_append, List.length_append, ← List.range'_append_1] at hseqs
        have hnew := (List.append_inj hseqs (by rw [List.length_map, List.length_range'])).2
        have hmem : seqOf r ∈ event.records.map seqOf := List.mem_map_of_mem hr
        rw [hnew, List.mem_range'_1] at hmem
        omega

end Publishing

/-! ## What the client has been told -/

variable {π : Type}

/-- The number its event carries. -/
def StreamFrame.seq (f : StreamFrame π) : Option Nat := f.id.map (·.seq)

theorem StreamFrame.tagged (f : StreamFrame π) (r : DeliveryRecord) (h : f.record = some r) :
    f.seq = some (seqOf r) := by
  cases f with
  | delivery record => rw [← Option.some.inj h]; rfl
  | checkpoint cursor => cases h
  | pending message => cases h

/-- What the client can learn of. -/
def visible (hub : Publishing) (reader : Reader π) : List DeliveryRecord :=
  hub.log.filter (StreamWorld.shows hub reader)

/-- The frames tell the client what matches, up to `b`. -/
structure Heard (filter : DeliveryFilter) (hub : Publishing) (reader : Reader π) (b : Nat)
    (frames : List (StreamFrame π)) : Prop where
  tells : Tells seqOf StreamFrame.record StreamFrame.seq (deliveryMatches · filter)
    (visible hub reader) reader.origin b frames
  le : b ≤ hub.log.length
  epochs : ∀ c ∈ frames.filterMap StreamFrame.id, c.epoch = hub.epoch

section Heard

variable {filter : DeliveryFilter} {hub : Publishing} {reader : Reader π} {a b c : Nat}
  {F G : List (StreamFrame π)}

theorem visible_ordered (h : hub.Law) (reader : Reader π) : Ordered seqOf (visible hub reader) :=
  h.log_ordered.sublist List.filter_sublist

theorem Heard.front (h : Heard filter hub reader b (F ++ G)) :
    Heard filter hub reader (lastId StreamFrame.seq reader.origin F) F where
  tells := h.tells.front StreamFrame.tagged
  le := h.tells.lastId_front.2.trans h.le
  epochs c hc := h.epochs c (by rw [List.filterMap_append]; exact List.mem_append_left _ hc)

theorem seq_eq_map (F : List (StreamFrame π)) :
    F.filterMap StreamFrame.seq = (F.filterMap StreamFrame.id).map (·.seq) :=
  (List.map_filterMap ..).symm

/-- What is heard depends on what the frames carry only. -/
theorem Heard.of_eq (h : Heard filter hub reader b F)
    (hrecord : G.filterMap StreamFrame.record = F.filterMap StreamFrame.record)
    (hid : G.filterMap StreamFrame.id = F.filterMap StreamFrame.id) :
    Heard filter hub reader b G where
  tells := h.tells.of_eq hrecord (by rw [seq_eq_map, seq_eq_map, hid])
  le := h.le
  epochs := hid ▸ h.epochs

/-- The number reached may be told. -/
theorem Heard.checkpoint (h : Heard filter hub reader b F) {cursor : StreamCursor}
    (hepoch : cursor.epoch = hub.epoch) (hcursor : cursor.seq = b)
    (hlast : lastId StreamFrame.seq reader.origin F < b) :
    Heard filter hub reader b (F ++ [.checkpoint cursor]) where
  tells := h.tells.checkpoint rfl (congrArg some hcursor) hlast
  le := h.le
  epochs c hc := by
    rw [List.filterMap_append] at hc
    rcases List.mem_append.mp hc with hc | hc
    · exact h.epochs c hc
    · rw [List.mem_singleton.mp hc]
      exact hepoch

/-- Windows of the log keep what a client can learn of. -/
theorem window_visible_commit (h : hub.Law) (reader : Reader π) (hb : b ≤ hub.log.length) :
    window seqOf (visible hub.commit reader) a b = window seqOf (visible hub reader) a b := by
  obtain ⟨-, -, new, newly, hlog, hpublished, -, hsub, hnew⟩ := h.commit
  unfold visible
  rw [hlog, List.filter_append, window_append_of_lt fun r hr ↦
    Nat.lt_of_le_of_lt hb (hnew r (List.mem_of_mem_filter hr))]
  refine window_filter_congr fun r hr _ _ ↦ ?_
  have hnot : r ∉ newly := fun hmem ↦
    absurd (hnew r (hsub.subset hmem)) (Nat.not_lt.mpr (h.bounds hr).2)
  have hiff : r ∈ hub.commit.published ↔ r ∈ hub.published := by
    rw [hpublished, List.mem_append]
    exact or_iff_left hnot
  rw [StreamWorld.shows, StreamWorld.shows, decide_eq_decide.mpr hiff]

theorem Heard.commit (h : Heard filter hub reader b F) (hlaw : hub.Law) :
    Heard filter hub.commit reader b F := by
  obtain ⟨-, hepoch, new, newly, hlog, -⟩ := hlaw.commit
  refine ⟨h.tells.congr (window_visible_commit hlaw reader h.le), ?_, ?_⟩
  · rw [hlog, List.length_append]
    exact h.le.trans (Nat.le_add_right _ _)
  · rw [hepoch]
    exact h.epochs

end Heard

/-! ## The connection -/

section Connection

variable (filter : DeliveryFilter) (hub : Publishing) (reader : Reader π)

/-- The number the client has reached. -/
def Reader.reached : Nat := lastId StreamFrame.seq reader.origin reader.received

/-- A receiver that has not lagged holds what was published and sent behind something old. -/
def Holding (c : Channel π) (Old : List DeliveryRecord → Prop) : Prop :=
  c.lagged = false → ∃ old, hub.published = old ++ (c.rx ++ hub.unsent) ∧ Old old

/-- The records that the stream has passed reach up to `b`, which is the high water or the
last of them. -/
abbrev Awaiting (c : Channel π) (through b : Nat) : Prop :=
  Holding hub c fun old ↦ (∀ r ∈ old, seqOf r ≤ b) ∧ (b = through ∨ ∃ r ∈ old, seqOf r = b)

/-- All the frames of a connection. -/
def frames (c : Channel π) (state : DurableStreamState π) : List (StreamFrame π) :=
  reader.received ++ (c.wire ++ state.queued)

/-- A stream that replays. -/
structure Replaying (c : Channel π) (state : DurableStreamState π) (replay : ReplayState) :
    Prop where
  asked : ∃ a, (a, state.discardThrough.seq) ∈ reader.ranges ∧ a ≤ replay.cursor.seq
  le : replay.cursor.seq ≤ state.discardThrough.seq
  epoch : replay.cursor.epoch = hub.epoch
  through : replay.through = state.discardThrough
  heard : Heard filter hub reader replay.cursor.seq (frames reader c state)
  last : replay.lastEmitted.seq = lastId StreamFrame.seq reader.origin (frames reader c state)
  quiet : state.liveCheckpoint = none
  queued : Awaiting hub c state.discardThrough.seq state.discardThrough.seq

/-- A stream that follows the hub, and has passed on what it sent up to `b`. -/
structure Following (c : Channel π) (state : DurableStreamState π) (b : Nat) : Prop where
  le : state.discardThrough.seq ≤ b
  heard : Heard filter hub reader b (frames reader c state)
  checkpoint : ∀ cursor, state.liveCheckpoint = some cursor → cursor.seq = b ∧
    cursor.epoch = hub.epoch ∧ lastId StreamFrame.seq reader.origin (frames reader c state) < b
  queued : Awaiting hub c state.discardThrough.seq b

/-- A stream that is open. -/
structure Streaming (c : Channel π) (state : DurableStreamState π) : Prop where
  epoch : state.discardThrough.epoch = hub.epoch
  through : state.discardThrough.seq ≤ hub.log.length
  ranges : ∀ range ∈ reader.ranges, range.2 ≤ state.discardThrough.seq
  phase : match state.replay with
    | some replay => Replaying filter hub reader c state replay
    | none => ∃ b, Following filter hub reader c state b

/-- A connection whose stream is not open yet. -/
structure Subscribed (c : Channel π) : Prop where
  wire : c.wire = []
  heard : Heard filter hub reader reader.reached reader.received
  queued : Holding hub c fun _ ↦ True

/-- Where a connected client is. -/
def Linked (c : Channel π) : Option (DurableStreamState π) → Prop
  | none => Subscribed filter hub reader c
  | some state => Streaming filter hub reader c state

/-- Where the client is. -/
def Listening : Option (Connection π) → Prop
  | none => Heard filter hub reader reader.reached reader.received
  | some c => Linked filter hub reader c.toChannel c.stream

/-- What a turn may come to. -/
def Sound (c : Channel π) : StreamTurn π → Prop
  | .ends => True
  | .goes state => Streaming filter hub reader c state
  | .yields frame state => Streaming filter hub reader { c with wire := c.wire ++ [frame] } state

end Connection

section Turns

variable {request : StreamRequest π} {filter : DeliveryFilter} {hub : Publishing}
  {reader : Reader π} {c : Channel π} {state : DurableStreamState π} {b : Nat}

/-- What the client has received is told, whatever becomes of the connection. -/
theorem Streaming.received (h : Streaming filter hub reader c state) :
    Heard filter hub reader reader.reached reader.received := by
  have hphase := h.phase
  split at hphase
  · exact hphase.heard.front
  · obtain ⟨b, hfollowing⟩ := hphase
    exact hfollowing.heard.front

theorem Listening.received {connection : Option (Connection π)}
    (h : Listening filter hub reader connection) :
    Heard filter hub reader reader.reached reader.received := by
  cases connection with
  | none => exact h
  | some c =>
      obtain ⟨c, stream⟩ := c
      cases stream with
      | none => exact Subscribed.heard h
      | some state => exact Streaming.received h

/-- A stream is as far as the frames of its connection are. -/
theorem Streaming.of_frames {c' : Channel π} {state' : DurableStreamState π}
    (h : Streaming filter hub reader c state)
    (hid : (frames reader c' state').filterMap StreamFrame.id =
      (frames reader c state).filterMap StreamFrame.id)
    (hrecord : (frames reader c' state').filterMap StreamFrame.record =
      (frames reader c state).filterMap StreamFrame.record)
    (hrx : c'.rx = c.rx) (hlagged : c'.lagged = c.lagged) (hreplay : state'.replay = state.replay)
    (hdiscard : state'.discardThrough = state.discardThrough)
    (hcheckpoint : state'.liveCheckpoint = state.liveCheckpoint) :
    Streaming filter hub reader c' state' := by
  have hlast : lastId StreamFrame.seq reader.origin (frames reader c' state') =
      lastId StreamFrame.seq reader.origin (frames reader c state) := by
    unfold lastId
    rw [seq_eq_map, seq_eq_map, hid]
  have hqueued : ∀ b, Awaiting hub c state.discardThrough.seq b →
      Awaiting hub c' state'.discardThrough.seq b := by
    intro b hb
    unfold Awaiting Holding
    rw [hlagged, hrx, hdiscard]
    exact hb
  refine ⟨hdiscard ▸ h.epoch, hdiscard ▸ h.through, hdiscard ▸ h.ranges, ?_⟩
  have hphase := h.phase
  rw [hreplay]
  split
  · rename_i replay heq
    rw [heq] at hphase
    exact ⟨hdiscard ▸ hphase.asked, hdiscard ▸ hphase.le, hphase.epoch,
      hphase.through.trans hdiscard.symm, hphase.heard.of_eq hrecord hid,
      hphase.last.trans hlast.symm, hcheckpoint.trans hphase.quiet,
      hdiscard ▸ hqueued _ hphase.queued⟩
  · rename_i heq
    rw [heq] at hphase
    obtain ⟨b, hfollowing⟩ := hphase
    refine ⟨b, hdiscard ▸ hfollowing.le, hfollowing.heard.of_eq hrecord hid, ?_,
      hqueued b hfollowing.queued⟩
    rw [hcheckpoint, hlast]
    exact hfollowing.checkpoint

/-- A turn leads to where its frame has been sent, skipped or has closed the stream. -/
theorem listening_settle {c : Connection π} {turn : StreamTurn π}
    (h : Sound filter hub reader c.toChannel turn)
    (hreceived : Heard filter hub reader reader.reached reader.received) :
    Listening filter hub reader (c.settle request turn) := by
  cases turn with
  | ends => exact hreceived
  | goes state => exact h
  | yields frame state =>
      unfold Connection.settle
      dsimp only
      cases hfate : streamFrameEvent request frame with
      | sent => exact h
      | closes => exact hreceived
      | skipped =>
          cases frame with
          | delivery record =>
              rw [streamFrameEvent] at hfate
              split at hfate
              · cases hfate
              · cases hfate
          | checkpoint cursor => cases hfate
          | pending message =>
              have hframes : ∀ {β : Type} (f : StreamFrame π → Option β),
                  f (.pending message) = none →
                    (frames reader c.toChannel state).filterMap f =
                      (frames reader { c.toChannel with
                        wire := c.wire ++ [.pending message] } state).filterMap f := by
                intro β f hf
                simp only [frames, List.filterMap_append, List.filterMap_cons_none hf,
                  List.filterMap_nil, List.append_nil]
              exact Streaming.of_frames h (hframes _ rfl) (hframes _ rfl) rfl
                rfl rfl rfl rfl

/-! ### The replay -/

theorem deliveryMatches_all (r : DeliveryRecord) : deliveryMatches r {} = true := rfl

/-- A page begins what lies behind its cursor, and stays within the high water. -/
theorem replayPage_ok (hlaw : hub.Law) {after through : StreamCursor} {n : Nat}
    {page : List DeliveryRecord} (h : replayPage hub.store after through n = .ok page) :
    (∃ rest, hub.log.filter (after.seq < seqOf ·) = page ++ rest) ∧
      ∀ r ∈ page, seqOf r ≤ through.seq := by
  unfold replayPage deliveryReplayPage deliveryPageFilteredWithCap at h
  dsimp only at h
  split at h
  · cases h
  · obtain rfl := Except.ok.inj h
    have hselect : (hub.store.deliveryLog.filter fun r ↦
        after.seq < r.cursor.seq && DeliveryFilter.selects {} hub.store r) =
          hub.log.filter (after.seq < seqOf ·) := by
      refine List.filter_congr fun r _ ↦ ?_
      exact Bool.and_true _
    rw [hselect]
    have hordered : Ordered seqOf ((hub.log.filter (after.seq < seqOf ·)).take
        (clamp n 1 maxDeliveryReplayPage)) :=
      (hlaw.log_ordered.sublist List.filter_sublist).sublist (List.take_sublist _ _)
    obtain ⟨rest, hrest⟩ := (front_filter_le hordered through.seq).trans (List.take_prefix _ _)
    refine ⟨⟨rest, hrest.symm⟩, fun r hr ↦ ?_⟩
    exact of_decide_eq_true (List.mem_filter.mp hr).2

theorem foldl_queueReplayed (page : List DeliveryRecord)
    (acc : StreamCursor × List (StreamFrame π)) :
    page.foldl (queueReplayed request) acc =
      ((((page.filter (deliveryMatches · request.filter)).getLast?).map (·.cursor)).getD acc.1,
        acc.2 ++ (page.filter (deliveryMatches · request.filter)).map .delivery) := by
  induction page generalizing acc with
  | nil => exact Prod.ext rfl (List.append_nil _).symm
  | cons record page ih =>
      rw [List.foldl_cons, ih, queueReplayed]
      by_cases hm : deliveryMatches record request.filter = true
      · rw [if_pos hm, List.filter_cons_of_pos (p := (deliveryMatches · request.filter)) hm,
          List.map_cons, List.getLast?_cons, List.append_assoc]
        refine Prod.ext ?_ rfl
        cases (page.filter (deliveryMatches · request.filter)).getLast? with
        | none => rfl
        | some last => rfl
      · rw [if_neg hm, List.filter_cons_of_neg (p := (deliveryMatches · request.filter)) hm]

/-- In a stretch that was asked for the client can learn of everything. -/
theorem window_visible_asked {a high : Nat} (hasked : (a, high) ∈ reader.ranges) {low b : Nat}
    (hlow : a ≤ low) (hb : b ≤ high) :
    window seqOf (visible hub reader) low b = window seqOf hub.log low b := by
  have hall : window seqOf (visible hub reader) low b =
      window seqOf (hub.log.filter fun _ ↦ true) low b := by
    refine window_filter_congr fun r _ hra hrb ↦ ?_
    rw [StreamWorld.shows, Bool.or_eq_true_iff.mpr (.inr ?_)]
    exact List.any_eq_true.mpr ⟨_, hasked, decide_eq_true
      ⟨Nat.lt_of_le_of_lt hlow hra, Nat.le_trans hrb hb⟩⟩
  rw [hall, List.filter_true]

/-- **One page of the replay.** -/
theorem sound_replayTurn (hlaw : hub.Law) {replay : ReplayState}
    (hreplay : state.replay = some replay) (h : Streaming request.filter hub reader c state) :
    Sound request.filter hub reader c (replayTurn request hub.store state replay) := by
  have hphase := h.phase
  rw [hreplay] at hphase
  obtain ⟨⟨a, hasked, ha⟩, hle, hepoch, hthrough, hheard, hlast, hquiet, hqueued⟩ := hphase
  unfold replayTurn
  cases hpage : replayPage hub.store replay.cursor replay.through request.replayPageSize with
  | error e => trivial
  | ok page =>
      dsimp only
      cases hgetLast : page.getLast? with
      | none => trivial
      | some last =>
          dsimp only
          obtain ⟨⟨rest, hrest⟩, hbound⟩ := replayPage_ok hlaw hpage
          have hlastMem : last ∈ page := List.mem_of_getLast? hgetLast
          have hlastLog : last ∈ hub.log := List.mem_of_mem_filter
            (hrest ▸ List.mem_append_left rest hlastMem)
          have hahead : replay.cursor.seq < seqOf last := by
            have hmem : last ∈ hub.log.filter (replay.cursor.seq < seqOf ·) :=
              hrest ▸ List.mem_append_left rest hlastMem
            exact of_decide_eq_true (List.mem_filter.mp hmem).2
          have hafter : a ≤ seqOf last := Nat.le_trans ha (Nat.le_of_lt hahead)
          have hhigh : seqOf last ≤ state.discardThrough.seq := hthrough ▸ hbound last hlastMem
          have hwindow :
              window seqOf (visible hub reader) replay.cursor.seq (seqOf last) = page := by
            rw [window_visible_asked hasked ha hhigh]
            exact window_page hlaw.log_ordered hrest hgetLast
          -- the frames of the page
          let more : List (StreamFrame π) :=
            (page.filter (deliveryMatches · request.filter)).map .delivery
          have hrecords : more.filterMap StreamFrame.record =
              page.filter (deliveryMatches · request.filter) := by
            rw [List.filterMap_map]
            exact List.filterMap_some
          have hids : more.filterMap StreamFrame.id =
              (page.filter (deliveryMatches · request.filter)).map (·.cursor) := by
            rw [List.filterMap_map]
            exact congrFun List.filterMap_eq_map _
          have htells : Tells seqOf StreamFrame.record StreamFrame.seq
              (deliveryMatches · request.filter) (visible hub reader) replay.cursor.seq (seqOf last)
              more := by
            refine tells_records (Nat.le_of_lt hahead) (visible_ordered hlaw reader) ?_ ?_
            · rw [seq_eq_map, hids, hrecords, List.map_map]
              rfl
            · rw [hrecords, hwindow]
          have hheard' : Heard request.filter hub reader (seqOf last)
              (frames reader c { state with queued := state.queued ++ more }) := by
            have hframes : frames reader c { state with queued := state.queued ++ more } =
                frames reader c state ++ more := by
              simp only [frames, List.append_assoc]
            rw [hframes]
            refine ⟨hheard.tells.trans (visible_ordered hlaw reader) htells,
              (hlaw.bounds hlastLog).2, fun cursor hcursor ↦ ?_⟩
            rw [List.filterMap_append] at hcursor
            rcases List.mem_append.mp hcursor with hcursor | hcursor
            · exact hheard.epochs cursor hcursor
            · rw [hids] at hcursor
              obtain ⟨r, hr, rfl⟩ := List.mem_map.mp hcursor
              exact hlaw.epoch (List.mem_of_mem_filter
                (hrest ▸ List.mem_append_left rest (List.mem_of_mem_filter hr)))
          have hemitted : ((((page.filter (deliveryMatches · request.filter)).getLast?).map
              (·.cursor)).getD replay.lastEmitted).seq = lastId StreamFrame.seq reader.origin
                (frames reader c { state with queued := state.queued ++ more }) := by
            have hframes : frames reader c { state with queued := state.queued ++ more } =
                frames reader c state ++ more := by
              simp only [frames, List.append_assoc]
            rw [hframes, lastId_append, ← hlast, lastId, seq_eq_map, hids, List.map_map,
              List.getLast?_map]
            cases (page.filter (deliveryMatches · request.filter)).getLast? with
            | none => rfl
            | some r => rfl
          rw [foldl_queueReplayed]
          dsimp only
          split
          · rename_i hcheckpoint
            have hframes : frames reader c { state with
                queued := state.queued ++ more ++ [.checkpoint last.cursor] } =
                  frames reader c { state with queued := state.queued ++ more } ++
                    [.checkpoint last.cursor] := by
              simp only [frames, List.append_assoc]
            refine ⟨h.epoch, h.through, h.ranges, ⟨a, hasked, hafter⟩, hhigh,
              hlaw.epoch hlastLog, hthrough, ?_, ?_, hquiet, hqueued⟩
            · change Heard request.filter hub reader (seqOf last) (frames reader c { state with
                queued := state.queued ++ more ++ [.checkpoint last.cursor] })
              rw [hframes]
              exact hheard'.checkpoint (hlaw.epoch hlastLog) rfl (hemitted ▸ hcheckpoint.2)
            · change seqOf last = lastId StreamFrame.seq reader.origin (frames reader c { state with
                queued := state.queued ++ more ++ [.checkpoint last.cursor] })
              have hid : StreamFrame.seq (.checkpoint last.cursor : StreamFrame π) =
                  some (seqOf last) := rfl
              rw [hframes, lastId_append_singleton hid]
          · exact ⟨h.epoch, h.through, h.ranges, ⟨a, hasked, hafter⟩, hhigh,
              hlaw.epoch hlastLog, hthrough, hheard', hemitted, hquiet, hqueued⟩

/-- **A turn of the loop.** -/
theorem sound_streamTurn (hlaw : hub.Law) (h : Streaming request.filter hub reader c state) :
    Sound request.filter hub reader c (streamTurn request hub.store state) := by
  unfold streamTurn
  cases hqueue : state.queued with
  | cons frame rest =>
      have hframes : frames reader { c with wire := c.wire ++ [frame] }
          { state with queued := rest } = frames reader c state := by
        simp only [frames, hqueue, List.append_assoc, List.singleton_append]
      exact h.of_frames (by rw [hframes]) (by rw [hframes]) rfl rfl rfl rfl rfl
  | nil =>
      dsimp only
      cases hreplay : state.replay with
      | none => exact h
      | some replay =>
          dsimp only
          split
          · exact sound_replayTurn hlaw hreplay h
          · -- the replay has reached the high water, and the hub's records come next
            rename_i hdone
            have hphase := h.phase
            rw [hreplay] at hphase
            have heq : replay.cursor.seq = state.discardThrough.seq := by
              have hle := hphase.le
              rw [hphase.through] at hdone
              omega
            have hheard := hphase.heard
            rw [frames, hqueue, heq] at hheard
            refine ⟨h.epoch, h.through, h.ranges, state.discardThrough.seq, Nat.le_refl _,
              hheard, fun cursor hcursor ↦ ?_, hphase.queued⟩
            exact nomatch hphase.quiet.symm.trans hcursor

/-! ### The hub's records -/

/-- Behind the high water the next record that is published is all there is. -/
theorem window_visible_next (hlaw : hub.Law) {through : Nat}
    (hranges : ∀ range ∈ reader.ranges, range.2 ≤ through) (hb : through ≤ b)
    {old rest : List DeliveryRecord} {r : DeliveryRecord}
    (hpublished : hub.published = old ++ r :: rest) (hold : ∀ x ∈ old, seqOf x ≤ b)
    (hr : b < seqOf r) : window seqOf (visible hub reader) b (seqOf r) = [r] := by
  have hmem : r ∈ hub.published := by
    rw [hpublished]
    exact List.mem_append_right _ List.mem_cons_self
  refine window_next (visible_ordered hlaw reader) ?_ hr fun y hy hby ↦ ?_
  · refine List.mem_filter.mpr ⟨hub.published_subset.subset hmem, ?_⟩
    rw [StreamWorld.shows, decide_eq_true hmem, Bool.true_or]
  · obtain ⟨-, hshows⟩ := List.mem_filter.mp hy
    rw [StreamWorld.shows, Bool.or_eq_true_iff] at hshows
    rcases hshows with hshows | hshows
    · have hordered := hlaw.published_ordered
      have hy := of_decide_eq_true hshows
      rw [hpublished] at hordered hy
      rcases List.mem_append.mp hy with hy | hy
      · exact absurd hby (Nat.not_lt.mpr (hold y hy))
      · rcases List.mem_cons.mp hy with rfl | hy
        · exact Nat.le_refl _
        · exact Nat.le_of_lt ((List.pairwise_cons.mp (List.pairwise_append.mp hordered).2.1).1 y hy)
    · obtain ⟨range, hrange, hin⟩ := List.any_eq_true.mp hshows
      have hhigh := (of_decide_eq_true hin).2
      exact absurd hby (Nat.not_lt.mpr (hhigh.trans ((hranges range hrange).trans hb)))

/-- **A record of the hub.** -/
theorem sound_liveTurn (hlaw : hub.Law) {r : DeliveryRecord} {rest : List DeliveryRecord}
    (hrx : c.rx = r :: rest) (hlagged : c.lagged = false) (hwaiting : state.waiting = true)
    (h : Streaming request.filter hub reader c state) :
    Sound request.filter hub reader { c with rx := rest } (liveTurn request state r) := by
  rw [DurableStreamState.waiting, Bool.and_eq_true] at hwaiting
  have hempty : state.queued = [] := List.isEmpty_iff.mp hwaiting.1
  have hreplay : state.replay = none := Option.isNone_iff_eq_none.mp hwaiting.2
  have hphase := h.phase
  rw [hreplay] at hphase
  obtain ⟨b, hle, hheard, hcheckpoint, hqueued⟩ := hphase
  obtain ⟨old, hpublished, hold, hlast⟩ := hqueued hlagged
  rw [hrx, List.cons_append] at hpublished
  have hmem : r ∈ hub.published := by
    rw [hpublished]
    exact List.mem_append_right _ List.mem_cons_self
  have hlog : r ∈ hub.log := hub.published_subset.subset hmem
  have hshift : hub.published = (old ++ [r]) ++ (rest ++ hub.unsent) := by
    rw [hpublished, List.append_assoc]
    rfl
  unfold liveTurn
  split
  · -- the replay has passed it on
    rename_i hdiscard
    refine ⟨h.epoch, h.through, h.ranges, ?_⟩
    rw [hreplay]
    refine ⟨b, hle, hheard, hcheckpoint, fun _ ↦ ⟨old ++ [r], hshift, ?_, ?_⟩⟩
    · intro x hx
      rcases List.mem_append.mp hx with hx | hx
      · exact hold x hx
      · rw [List.mem_singleton.mp hx]
        exact hdiscard.2.trans hle
    · exact hlast.imp_right fun ⟨x, hx, hseq⟩ ↦ ⟨x, List.mem_append_left _ hx, hseq⟩
  · rename_i hdiscard
    have hbeyond : state.discardThrough.seq < seqOf r := by
      rw [not_and, hlaw.epoch hlog, h.epoch] at hdiscard
      exact Nat.not_le.mp (hdiscard rfl)
    have hr : b < seqOf r := by
      rcases hlast with rfl | ⟨x, hx, rfl⟩
      · exact hbeyond
      · have hordered := hlaw.published_ordered
        rw [hpublished] at hordered
        exact (List.pairwise_append.mp hordered).2.2 x hx r List.mem_cons_self
    have hwindow := window_visible_next hlaw h.ranges hle hpublished hold hr
    have hqueued' : Awaiting hub { c with rx := rest } state.discardThrough.seq (seqOf r) := by
      refine fun _ ↦ ⟨old ++ [r], hshift, fun x hx ↦ ?_, .inr ⟨r, List.mem_append_right _
        (List.mem_singleton_self r), rfl⟩⟩
      rcases List.mem_append.mp hx with hx | hx
      · exact (hold x hx).trans (Nat.le_of_lt hr)
      · rw [List.mem_singleton.mp hx]
    have hframes : ∀ frame : StreamFrame π, frames reader
        { c with rx := rest, wire := c.wire ++ [frame] } state =
          frames reader c state ++ [frame] := by
      intro frame
      simp only [frames, hempty, List.append_nil, List.append_assoc]
    have hbehind : lastId StreamFrame.seq reader.origin (frames reader c state) < seqOf r :=
      Nat.lt_of_le_of_lt hheard.tells.lastId_le.2 hr
    by_cases hm : deliveryMatches r request.filter = true
    · rw [if_pos hm]
      refine ⟨h.epoch, h.through, h.ranges, ?_⟩
      dsimp only
      rw [hreplay]
      refine ⟨seqOf r, hbeyond.le, ?_, fun _ hcursor ↦ (nomatch hcursor), hqueued'⟩
      change Heard request.filter hub reader (seqOf r)
        (frames reader { c with rx := rest, wire := c.wire ++ [.delivery r] } state)
      rw [hframes]
      refine ⟨hheard.tells.trans (visible_ordered hlaw reader) (tells_records hr.le
        (visible_ordered hlaw reader) rfl ?_), (hlaw.bounds hlog).2, fun cursor hcursor ↦ ?_⟩
      · rw [hwindow, List.filter_cons_of_pos (p := (deliveryMatches · request.filter)) hm]
        rfl
      · rw [List.filterMap_append] at hcursor
        rcases List.mem_append.mp hcursor with hcursor | hcursor
        · exact hheard.epochs cursor hcursor
        · rw [List.mem_singleton.mp hcursor]
          exact hlaw.epoch hlog
    · rw [if_neg hm]
      have hpassed : Heard request.filter hub reader (seqOf r) (frames reader c state) := by
        refine ⟨?_, (hlaw.bounds hlog).2, hheard.epochs⟩
        rw [← List.append_nil (frames reader c state)]
        refine hheard.tells.trans (visible_ordered hlaw reader) (tells_nil hr.le ?_)
        rw [hwindow, List.filter_cons_of_neg (p := (deliveryMatches · request.filter)) hm]
        rfl
      split
      · dsimp only
        split
        · refine ⟨h.epoch, h.through, h.ranges, ?_⟩
          dsimp only
          rw [hreplay]
          refine ⟨seqOf r, hbeyond.le, ?_, fun _ hcursor ↦ (nomatch hcursor), hqueued'⟩
          change Heard request.filter hub reader (seqOf r)
            (frames reader { c with rx := rest, wire := c.wire ++ [.checkpoint r.cursor] } state)
          rw [hframes]
          exact hpassed.checkpoint (hlaw.epoch hlog) rfl hbehind
        · refine ⟨h.epoch, h.through, h.ranges, ?_⟩
          dsimp only
          rw [hreplay]
          refine ⟨seqOf r, hbeyond.le, hpassed, fun cursor hcursor ↦ ?_, hqueued'⟩
          obtain rfl := Option.some.inj hcursor
          exact ⟨rfl, hlaw.epoch hlog, hbehind⟩
      · -- without a filter every record matches
        rename_i hfilter
        rw [not_not] at hfilter
        rw [hfilter] at hm
        exact absurd (deliveryMatches_all r) hm

/-- The checkpoint that waits is told. -/
theorem sound_timerTurn (hwaiting : state.waiting = true)
    (h : Streaming request.filter hub reader c state) :
    Sound request.filter hub reader c (timerTurn state) := by
  rw [DurableStreamState.waiting, Bool.and_eq_true] at hwaiting
  have hempty : state.queued = [] := List.isEmpty_iff.mp hwaiting.1
  have hreplay : state.replay = none := Option.isNone_iff_eq_none.mp hwaiting.2
  unfold timerTurn
  cases hwaits : state.liveCheckpoint with
  | none => exact h
  | some cursor =>
      have hphase := h.phase
      rw [hreplay] at hphase
      obtain ⟨b, hle, hheard, hcheckpoint, hqueued⟩ := hphase
      obtain ⟨hseq, hepoch, hlast⟩ := hcheckpoint cursor hwaits
      refine ⟨h.epoch, h.through, h.ranges, ?_⟩
      dsimp only
      rw [hreplay]
      refine ⟨b, hle, ?_, fun _ hcursor ↦ (nomatch hcursor), hqueued⟩
      have hframes : frames reader { c with wire := c.wire ++ [.checkpoint cursor] } state =
          frames reader c state ++ [.checkpoint cursor] := by
        simp only [frames, hempty, List.append_nil, List.append_assoc]
      change Heard request.filter hub reader b
        (frames reader { c with wire := c.wire ++ [.checkpoint cursor] } state)
      rw [hframes]
      exact hheard.checkpoint hepoch hseq hlast

theorem sound_pendingTurn (hwaiting : state.waiting = true) (message : π)
    (h : Streaming request.filter hub reader c state) :
    Sound request.filter hub reader c (pendingTurn request state message) := by
  rw [DurableStreamState.waiting, Bool.and_eq_true] at hwaiting
  have hempty : state.queued = [] := List.isEmpty_iff.mp hwaiting.1
  unfold pendingTurn
  split
  · have hframes : ∀ {β : Type} (f : StreamFrame π → Option β), f (.pending message) = none →
        (frames reader { c with wire := c.wire ++ [.pending message] } state).filterMap f =
          (frames reader c state).filterMap f := by
      intro β f hf
      simp only [frames, hempty, List.filterMap_append, List.filterMap_cons_none hf,
        List.filterMap_nil, List.append_nil]
    exact h.of_frames (hframes _ rfl) (hframes _ rfl) rfl rfl rfl rfl rfl
  · exact h

end Turns

/-! ## What goes on around the connection -/

section Around

variable {request : StreamRequest π} {filter : DeliveryFilter} {hub : Publishing}
  {reader : Reader π} {c : Channel π} {connection : Option (Connection π)}

theorem Holding.commit {Old : List DeliveryRecord → Prop} (h : Holding hub c Old) (hlaw : hub.Law) :
    Holding hub.commit c Old := by
  obtain ⟨-, -, new, newly, -, hpublished, hunsent, -⟩ := hlaw.commit
  intro hlagged
  obtain ⟨old, hold, hrest⟩ := h hlagged
  refine ⟨old, ?_, hrest⟩
  rw [hpublished, hunsent, hold, List.append_assoc, List.append_assoc]

theorem Listening.commit (h : Listening filter hub reader connection) (hlaw : hub.Law) :
    Listening filter hub.commit reader connection := by
  obtain ⟨-, hepoch, new, newly, hlog, -⟩ := hlaw.commit
  cases connection with
  | none => exact Heard.commit h hlaw
  | some c =>
      obtain ⟨c, stream⟩ := c
      cases stream with
      | none =>
          exact ⟨Subscribed.wire h, (Subscribed.heard h).commit hlaw,
            (Subscribed.queued h).commit hlaw⟩
      | some state =>
          obtain ⟨hstream, hthrough, hranges, hphase⟩ := h
          refine ⟨hstream.trans hepoch.symm, ?_, hranges, ?_⟩
          · rw [hlog, List.length_append]
            exact hthrough.trans (Nat.le_add_right _ _)
          · split at hphase
            · exact ⟨hphase.asked, hphase.le, hphase.epoch.trans hepoch.symm, hphase.through,
                hphase.heard.commit hlaw, hphase.last, hphase.quiet, hphase.queued.commit hlaw⟩
            · obtain ⟨b, hfollowing⟩ := hphase
              refine ⟨b, hfollowing.le, hfollowing.heard.commit hlaw, ?_,
                hfollowing.queued.commit hlaw⟩
              rw [hepoch]
              exact hfollowing.checkpoint

theorem Heard.sent {F : List (StreamFrame π)} {b : Nat} (h : Heard filter hub reader b F)
    (rest : List DeliveryRecord) : Heard filter { hub with unsent := rest } reader b F :=
  ⟨h.tells, h.le, h.epochs⟩

/-- A record that the hub sends moves to the receiver. -/
theorem Holding.sent {Old : List DeliveryRecord → Prop} {r : DeliveryRecord}
    {rest : List DeliveryRecord} {stream : Option (DurableStreamState π)} (h : Holding hub c Old)
    (hunsent : hub.unsent = r :: rest) :
    Holding { hub with unsent := rest } ((⟨c, stream⟩ : Connection π).offer r).toChannel Old := by
  intro hlagged
  unfold Connection.offer at hlagged ⊢
  split at hlagged
  · obtain ⟨old, hold, hrest⟩ := h hlagged
    refine ⟨old, ?_, hrest⟩
    rename_i hroom
    rw [if_pos hroom]
    refine hold.trans ?_
    rw [hunsent, List.append_assoc]
    rfl
  · cases hlagged

theorem offer_stream (c : Connection π) (r : DeliveryRecord) : (c.offer r).stream = c.stream := by
  unfold Connection.offer
  split
  · rfl
  · rfl

theorem offer_wire (c : Connection π) (r : DeliveryRecord) : (c.offer r).wire = c.wire := by
  unfold Connection.offer
  split
  · rfl
  · rfl

theorem Listening.sent {r : DeliveryRecord} {rest : List DeliveryRecord}
    (h : Listening filter hub reader connection) (hunsent : hub.unsent = r :: rest) :
    Listening filter { hub with unsent := rest } reader (connection.map (·.offer r)) := by
  cases connection with
  | none => exact Heard.sent h rest
  | some c =>
      obtain ⟨c, stream⟩ := c
      change Linked _ _ _ ((⟨c, stream⟩ : Connection π).offer r).toChannel
        ((⟨c, stream⟩ : Connection π).offer r).stream
      rw [offer_stream]
      cases stream with
      | none =>
          exact ⟨(offer_wire _ _).trans (Subscribed.wire h), (Subscribed.heard h).sent rest,
            (Subscribed.queued h).sent hunsent⟩
      | some state =>
          obtain ⟨hstream, hthrough, hranges, hphase⟩ := h
          have hframes : frames reader ((⟨c, some state⟩ : Connection π).offer r).toChannel state =
              frames reader c state := by
            rw [frames, offer_wire]
            rfl
          refine ⟨hstream, hthrough, hranges, ?_⟩
          split at hphase
          · refine ⟨hphase.asked, hphase.le, hphase.epoch, hphase.through, ?_, ?_, hphase.quiet,
              hphase.queued.sent hunsent⟩
            · rw [hframes]
              exact hphase.heard.sent rest
            · rw [hframes]
              exact hphase.last
          · obtain ⟨b, hfollowing⟩ := hphase
            refine ⟨b, hfollowing.le, ?_, ?_, hfollowing.queued.sent hunsent⟩
            · rw [hframes]
              exact hfollowing.heard.sent rest
            · rw [hframes]
              exact hfollowing.checkpoint

/-- A frame arrives. -/
theorem Listening.arrived {frame : StreamFrame π} {rest : List (StreamFrame π)}
    {stream : Option (DurableStreamState π)} (h : Listening filter hub reader (some ⟨c, stream⟩))
    (hwire : c.wire = frame :: rest) :
    Listening filter hub { reader with received := reader.received ++ [frame] }
      (some ⟨{ c with wire := rest }, stream⟩) := by
  cases stream with
  | none => exact nomatch hwire.symm.trans (Subscribed.wire h)
  | some state =>
      obtain ⟨hstream, hthrough, hranges, hphase⟩ := h
      have hframes : frames { reader with received := reader.received ++ [frame] }
          { c with wire := rest } state = frames reader c state := by
        simp only [frames, hwire, List.append_assoc, List.cons_append, List.nil_append]
      have hheard : ∀ {b : Nat}, Heard filter hub reader b (frames reader c state) →
          Heard filter hub { reader with received := reader.received ++ [frame] } b
            (frames { reader with received := reader.received ++ [frame] }
              { c with wire := rest } state) := fun h ↦ by
        rw [hframes]
        exact ⟨h.tells, h.le, h.epochs⟩
      refine ⟨hstream, hthrough, hranges, ?_⟩
      split at hphase
      · refine ⟨hphase.asked, hphase.le, hphase.epoch, hphase.through, hheard hphase.heard, ?_,
          hphase.quiet, hphase.queued⟩
        rw [hframes]
        exact hphase.last
      · obtain ⟨b, hfollowing⟩ := hphase
        refine ⟨b, hfollowing.le, hheard hfollowing.heard, ?_, hfollowing.queued⟩
        rw [hframes]
        exact hfollowing.checkpoint

/-! ### The start of a stream -/

theorem selectStreamStart_ready {lastEventId after : Option StreamCursor}
    {info : DeliveryStreamInfo} {cursor : StreamCursor}
    (h : selectStreamStart lastEventId after info = .ready cursor) :
    cursor = (lastEventId.or after).getD info.current ∧ cursor.epoch = info.current.epoch ∧
      cursor.seq ≤ info.current.seq := by
  unfold selectStreamStart at h
  dsimp only at h
  split at h
  · rename_i hvalid
    split at h
    · cases h
    · have hcursor := StreamStart.ready.inj h
      rw [hcursor] at hvalid
      unfold DeliveryStreamInfo.classify at hvalid
      split at hvalid
      · cases hvalid
      · rename_i hepoch
        split at hvalid
        · cases hvalid
        · rename_i hseq
          exact ⟨hcursor.symm, not_not.mp hepoch, Nat.not_lt.mp hseq⟩
  · cases h
  · cases h

theorem deliveryStreamInfo_store (hub : Publishing) :
    ∃ info, deliveryStreamInfo hub.store = .ok info ∧
      info.current = ⟨hub.epoch, hub.log.length⟩ := ⟨_, rfl, rfl⟩

/-- The client after a start. -/
def Reader.started (reader : Reader π) (after : StreamCursor) (through : Nat) : Reader π :=
  { reader with
    origin := if reader.lastEventId.isSome then reader.origin else after.seq
    ranges := (after.seq, through) :: reader.ranges }

theorem Reader.reached_of_lastEventId {id : StreamCursor} (h : reader.lastEventId = some id) :
    reader.reached = id.seq := by
  unfold Reader.lastEventId at h
  rw [Reader.reached, lastId, seq_eq_map, List.getLast?_map, h]
  rfl

/-- A client goes on from what it has reached. -/
theorem heard_started (hreached : Heard filter hub reader reader.reached reader.received)
    {lastAfter : Option StreamCursor} {current after : StreamCursor}
    (hafter : after = (reader.lastEventId.or lastAfter).getD current)
    (hlength : after.seq ≤ hub.log.length) (through : Nat) :
    lastId StreamFrame.seq (reader.started after through).origin reader.received = after.seq ∧
      Heard filter hub (reader.started after through) after.seq reader.received := by
  unfold Reader.started
  cases hlast : reader.lastEventId with
  | none =>
      have hids : reader.received.filterMap StreamFrame.id = [] :=
        List.getLast?_eq_none_iff.mp hlast
      have hseqs : reader.received.filterMap StreamFrame.seq = [] := by
        rw [seq_eq_map, hids]
        rfl
      have hrecords : reader.received.filterMap StreamFrame.record = [] := by
        refine List.eq_nil_iff_forall_not_mem.mpr fun r hr ↦ ?_
        have hmem := mem_ids_of_mem_records StreamFrame.tagged hr
        rw [hseqs] at hmem
        cases hmem
      refine ⟨lastId_of_none hseqs, tells_silent hrecords hseqs _ _, hlength, ?_⟩
      rw [hids]
      exact List.forall_mem_nil _
  | some id =>
      rw [hlast] at hafter
      obtain rfl : after = id := hafter
      have hreach := Reader.reached_of_lastEventId hlast
      refine ⟨hreach, ?_⟩
      rw [hreach] at hreached
      refine ⟨hreached.tells.congr (window_filter_congr fun r _ _ hr ↦ ?_), hreached.le,
        hreached.epochs⟩
      rw [StreamWorld.shows, StreamWorld.shows, List.any_cons]
      have hnot : decide (after.seq < r.cursor.seq ∧ r.cursor.seq ≤ through) = false :=
        decide_eq_false fun hin ↦ absurd hin.1 (Nat.not_lt.mpr hr)
      rw [hnot, Bool.false_or]

/-- **A stream opens.** -/
theorem streaming_started (hlaw : hub.Law)
    (hranges : ∀ range ∈ reader.ranges, range.2 ≤ hub.log.length)
    (hsubscribed : Subscribed filter hub reader c) {lastAfter : Option StreamCursor}
    {info : DeliveryStreamInfo} (hcurrent : info.current = ⟨hub.epoch, hub.log.length⟩)
    {after : StreamCursor}
    (hstart : selectStreamStart reader.lastEventId lastAfter info = .ready after) :
    Streaming filter hub (reader.started after info.current.seq) c (openStream after info) := by
  obtain ⟨hafter, hepoch, hseq⟩ := selectStreamStart_ready hstart
  rw [hcurrent] at hepoch hseq
  obtain ⟨hlast, hheard⟩ := heard_started hsubscribed.heard hafter hseq info.current.seq
  have hframes : frames (reader.started after info.current.seq) c (openStream after info) =
      reader.received := by
    rw [frames, hsubscribed.wire]
    exact List.append_nil _
  have hqueued : Awaiting hub c info.current.seq info.current.seq := fun hlagged ↦ by
    obtain ⟨old, hold, -⟩ := hsubscribed.queued hlagged
    refine ⟨old, hold, fun r hr ↦ ?_, .inl rfl⟩
    rw [hcurrent]
    refine (hlaw.bounds (hub.published_subset.subset ?_)).2
    rw [hold]
    exact List.mem_append_left _ hr
  refine ⟨by rw [openStream, hcurrent], by rw [openStream, hcurrent], ?_, ?_⟩
  · intro range hrange
    rcases List.mem_cons.mp hrange with rfl | hrange
    · exact Nat.le_refl _
    · rw [openStream, hcurrent]
      exact hranges range hrange
  · by_cases hbehind : after.seq < info.current.seq
    · rw [openStream, if_pos hbehind]
      refine ⟨⟨after.seq, List.mem_cons_self, Nat.le_refl _⟩, Nat.le_of_lt hbehind, hepoch, rfl,
        ?_, ?_, rfl, hqueued⟩
      · rw [openStream, if_pos hbehind] at hframes
        rw [hframes]
        exact hheard
      · rw [openStream, if_pos hbehind] at hframes
        rw [hframes]
        exact hlast.symm
    · have heq : after.seq = info.current.seq := by
        rw [hcurrent] at hbehind ⊢
        exact Nat.le_antisymm hseq (Nat.not_lt.mp hbehind)
      rw [openStream, if_neg hbehind]
      refine ⟨info.current.seq, Nat.le_refl _, ?_, fun _ hcursor ↦ (nomatch hcursor), hqueued⟩
      rw [openStream, if_neg hbehind] at hframes
      rw [heq] at hheard
      rw [hframes]
      exact hheard

end Around

/-! ## Runs -/

namespace StreamWorld

/-- What every step keeps. -/
structure Law (filter : DeliveryFilter) (w : StreamWorld π) : Prop where
  hub : w.hub.Law
  ranges : ∀ range ∈ w.reader.ranges, range.2 ≤ w.hub.log.length
  listening : Listening filter w.hub w.reader w.connection

variable {request : StreamRequest π} {w : StreamWorld π}

/-- A turn of an open stream leads the client on. -/
theorem listening_bind (h : Listening request.filter w.hub w.reader w.connection)
    {f : Connection π → Option (Connection π)}
    (hf : ∀ c, Listening request.filter w.hub w.reader (some c) →
      Listening request.filter w.hub w.reader (f c)) :
    Listening request.filter w.hub w.reader (w.connection.bind f) := by
  cases hconnection : w.connection with
  | none =>
      rw [hconnection] at h
      exact h
  | some c =>
      rw [hconnection] at h
      exact hf c h

theorem listening_select {turn : DurableStreamState π → StreamTurn π}
    (hturn : ∀ c state, state.waiting = true → Streaming request.filter w.hub w.reader c state →
      Sound request.filter w.hub w.reader c (turn state)) (c : Connection π)
    (h : Listening request.filter w.hub w.reader (some c)) :
    Listening request.filter w.hub w.reader (c.select request turn) := by
  obtain ⟨c, stream⟩ := c
  cases stream with
  | none => exact h
  | some state =>
      rw [Connection.select]
      dsimp only
      split
      · rename_i hwaiting
        exact listening_settle (hturn c state hwaiting h) h.received
      · exact h

/-- **One step.** -/
theorem Law.step (h : w.Law request.filter) (action : StreamAction π) :
    (w.step request action).Law request.filter := by
  obtain ⟨hlaw, hranges, hlistening⟩ := h
  cases action with
  | commit =>
      obtain ⟨hcommit, -, new, newly, hlog, -⟩ := hlaw.commit
      refine ⟨hcommit, fun range hrange ↦ ?_, hlistening.commit hlaw⟩
      change range.2 ≤ w.hub.commit.log.length
      rw [hlog, List.length_append]
      exact (hranges range hrange).trans (Nat.le_add_right _ _)
  | send =>
      rw [StreamWorld.step]
      cases hunsent : w.hub.unsent with
      | nil => exact ⟨hlaw, hranges, hlistening⟩
      | cons record rest =>
          refine ⟨⟨hlaw.seqs, hlaw.epochs, ?_⟩, hranges, hlistening.sent hunsent⟩
          obtain ⟨sent, hsent⟩ := hlaw.sent
          refine ⟨sent ++ [record], ?_⟩
          rw [hunsent] at hsent
          exact hsent.trans (List.append_cons ..)
  | subscribe =>
      refine ⟨hlaw, hranges, ?_⟩
      rw [StreamWorld.step]
      dsimp only
      cases hconnection : w.connection with
      | some c =>
          rw [hconnection] at hlistening
          exact hlistening
      | none =>
          rw [hconnection] at hlistening
          obtain ⟨sent, hsent⟩ := hlaw.sent
          exact Subscribed.mk rfl hlistening fun _ ↦ ⟨sent, hsent, trivial⟩
  | start =>
      rw [StreamWorld.step]
      split
      · rename_i c hconnection
        split
        · rename_i hclosed
          obtain ⟨c, stream⟩ := c
          obtain rfl : stream = none := Option.isNone_iff_eq_none.mp hclosed
          have hreceived := hlistening.received
          rw [hconnection] at hlistening
          obtain ⟨info, hinfo, hcurrent⟩ := deliveryStreamInfo_store w.hub
          rw [StreamWorld.start, hinfo]
          dsimp only
          cases hstart : selectStreamStart w.reader.lastEventId request.after info with
          | reset reason current => exact ⟨hlaw, hranges, hreceived⟩
          | ready after =>
              refine ⟨hlaw, fun range hrange ↦ ?_,
                streaming_started hlaw hranges hlistening hcurrent hstart⟩
              rcases List.mem_cons.mp hrange with rfl | hrange
              · rw [hcurrent]
              · exact hranges range hrange
        · exact ⟨hlaw, hranges, hlistening⟩
      · exact ⟨hlaw, hranges, hlistening⟩
  | turn =>
      refine ⟨hlaw, hranges, listening_bind hlistening fun c hc ↦ ?_⟩
      obtain ⟨c, stream⟩ := c
      cases stream with
      | none => exact hc
      | some state => exact listening_settle (sound_streamTurn hlaw hc) hc.received
  | recv =>
      refine ⟨hlaw, hranges, listening_bind hlistening fun c hc ↦ ?_⟩
      obtain ⟨c, stream⟩ := c
      cases stream with
      | none => exact hc
      | some state =>
          rw [Connection.recv]
          dsimp only
          split
          · rename_i hwaiting
            split
            · exact hc.received
            · rename_i hlagged
              split
              · rename_i record rest hrx
                have hkept : c.lagged = false := Bool.not_eq_true _ ▸ hlagged
                exact listening_settle (sound_liveTurn hlaw hrx hkept hwaiting hc) hc.received
              · exact hc
          · exact hc
  | pending message =>
      refine ⟨hlaw, hranges, listening_bind hlistening ?_⟩
      exact listening_select fun c state hwaiting ↦ sound_pendingTurn hwaiting message
  | timer =>
      refine ⟨hlaw, hranges, listening_bind hlistening ?_⟩
      exact listening_select fun c state hwaiting ↦ sound_timerTurn hwaiting
  | arrive =>
      rw [StreamWorld.step]
      split
      · rename_i c hconnection
        rw [hconnection] at hlistening
        split
        · exact ⟨hlaw, hranges, hconnection ▸ hlistening⟩
        · rename_i frame rest hwire
          exact ⟨hlaw, hranges, Listening.arrived hlistening hwire⟩
      · exact ⟨hlaw, hranges, hlistening⟩
  | drop => exact ⟨hlaw, hranges, hlistening.received⟩

theorem Law.run (h : w.Law request.filter) (actions : List (StreamAction π)) :
    (w.run request actions).Law request.filter := by
  induction actions generalizing w with
  | nil => exact h
  | cons action actions ih => exact ih (h.step action)

/-- The commits of a run are a beginning of the follower's. -/
theorem run_events (request : StreamRequest π) (w : StreamWorld π) (actions : List (StreamAction π)) :
    (w.run request actions).hub.done ++ (w.run request actions).hub.upcoming =
        w.hub.done ++ w.hub.upcoming ∧
      (w.run request actions).hub.epoch = w.hub.epoch := by
  induction actions generalizing w with
  | nil => exact ⟨rfl, rfl⟩
  | cons action actions ih =>
      have hstep : (w.step request action).hub.done ++ (w.step request action).hub.upcoming =
          w.hub.done ++ w.hub.upcoming ∧ (w.step request action).hub.epoch = w.hub.epoch := by
        cases action with
        | commit =>
            rw [StreamWorld.step]
            dsimp only
            unfold Publishing.commit
            split
            · exact ⟨rfl, rfl⟩
            · rename_i event rest hupcoming
              rw [hupcoming, List.append_assoc]
              exact ⟨rfl, rfl⟩
        | send =>
            rw [StreamWorld.step]
            split
            · exact ⟨rfl, rfl⟩
            · exact ⟨rfl, rfl⟩
        | start =>
            rw [StreamWorld.step]
            split
            · split
              · unfold StreamWorld.start
                split
                · exact ⟨rfl, rfl⟩
                · split
                  · exact ⟨rfl, rfl⟩
                  · exact ⟨rfl, rfl⟩
              · exact ⟨rfl, rfl⟩
            · exact ⟨rfl, rfl⟩
        | arrive =>
            rw [StreamWorld.step]
            split
            · split
              · exact ⟨rfl, rfl⟩
              · exact ⟨rfl, rfl⟩
            · exact ⟨rfl, rfl⟩
        | subscribe => exact ⟨rfl, rfl⟩
        | turn => exact ⟨rfl, rfl⟩
        | recv => exact ⟨rfl, rfl⟩
        | pending message => exact ⟨rfl, rfl⟩
        | timer => exact ⟨rfl, rfl⟩
        | drop => exact ⟨rfl, rfl⟩
      exact ⟨(ih _).1.trans hstep.1, (ih _).2.trans hstep.2⟩

/-! ## The follower's streams -/

section Follower

variable (compute : ComputeCovenantId) (dec : Decoders) {tree : ChainTree}

theorem law_init {filter : DeliveryFilter} {epoch : StreamEpoch} {events : List FollowerEvent}
    (hlaw : Publishing.Law ⟨epoch, [], events, []⟩) :
    (init epoch events : StreamWorld π).Law filter where
  hub := hlaw
  ranges := List.forall_mem_nil _
  listening := ⟨tells_self _ _, Nat.le_refl 0, List.forall_mem_nil _⟩

/-- The events of a run of the follower number the records. -/
theorem publishing_followerRun (htree : tree.Rising) (epoch : StreamEpoch)
    {calls : List FollowerCall} (htells : ∀ call ∈ calls, call.Tells tree)
    (hkept : unreset compute dec (.fresh epoch) calls = true) :
    Publishing.Law ⟨epoch, [], (followerRun compute dec (.fresh epoch, []) calls).2, []⟩ := by
  obtain ⟨hline, hlog⟩ := followerRun_law compute dec (f := (.fresh epoch, []))
    htree (Placed.fresh tree epoch) rfl htells hkept
  have hepoch := followerRun_epoch compute dec (.fresh epoch, []) calls
  refine ⟨?_, ?_, [], rfl⟩
  · rw [List.nil_append, ← hlog]
    have hseqs := hline.log.seqs
    have hlength := congrArg List.length hseqs
    rw [List.length_map, List.length_range'] at hlength
    rw [hlength]
    exact hseqs
  · rw [List.nil_append, ← hlog]
    intro r hr
    rw [hline.log.epochs r hr, hepoch]
    rfl

theorem law_streamed (htree : tree.Rising) (epoch : StreamEpoch) {calls : List FollowerCall}
    (htells : ∀ call ∈ calls, call.Tells tree)
    (hkept : unreset compute dec (.fresh epoch) calls = true) (request : StreamRequest π)
    (actions : List (StreamAction π)) :
    (streamed request compute dec epoch calls actions).Law request.filter :=
  (law_init (publishing_followerRun compute dec htree epoch htells hkept)).run actions

/-- What a stream finds in the log is the beginning of what the run leaves there. -/
theorem streamed_log (htree : tree.Rising) (epoch : StreamEpoch) {calls : List FollowerCall}
    (htells : ∀ call ∈ calls, call.Tells tree)
    (hkept : unreset compute dec (.fresh epoch) calls = true) (request : StreamRequest π)
    (actions : List (StreamAction π)) :
    (streamed request compute dec epoch calls actions).hub.log <+:
      (followerRun compute dec (.fresh epoch, []) calls).1.deliveryLog := by
  have hlog := (followerRun_law compute dec (f := (.fresh epoch, [])) htree
    (Placed.fresh tree epoch) rfl htells hkept).2
  have hevents := (run_events request (init epoch (followerRun compute dec
    (.fresh epoch, []) calls).2 : StreamWorld π) actions).1
  change _ = [] ++ (followerRun compute dec (.fresh epoch, []) calls).2 at hevents
  rw [List.nil_append] at hevents
  rw [hlog, ← hevents, List.flatMap_append]
  exact List.prefix_append _ _

/-- **A stream skips nothing and repeats nothing.**  In any order of the commits of a follower
that no recovery restarts, the hub's sends, the stream's turns and the network, and over any
number of connections: the ids a client has received rise, and at each of them it has received the records up to it that
match, that are behind the cursor it started at, and that were published or lay in a stretch it
asked for. -/
theorem received_exact (htree : tree.Rising) (epoch : StreamEpoch) {calls : List FollowerCall}
    (htells : ∀ call ∈ calls, call.Tells tree)
    (hkept : unreset compute dec (.fresh epoch) calls = true) (request : StreamRequest π)
    (actions : List (StreamAction π)) :
    let w := streamed request compute dec epoch calls actions
    w.hub.log <+: (followerRun compute dec (.fresh epoch, []) calls).1.deliveryLog ∧
      (w.reader.received.filterMap StreamFrame.seq).Pairwise (· < ·) ∧
      ∀ front, front <+: w.reader.received →
        front.filterMap StreamFrame.record = w.hub.log.filter fun r ↦
          w.reader.origin < r.cursor.seq ∧
            r.cursor.seq ≤ lastId StreamFrame.seq w.reader.origin front ∧
            deliveryMatches r request.filter ∧ shows w.hub w.reader r := by
  intro w
  have hlaw : w.Law request.filter :=
    law_streamed compute dec htree epoch htells hkept request actions
  have hheard := hlaw.listening.received
  refine ⟨streamed_log compute dec htree epoch htells hkept request actions, hheard.tells.ids,
    fun front hfront ↦ ?_⟩
  obtain ⟨rest, hrest⟩ := hfront
  rw [← hrest] at hheard
  rw [hheard.front.tells.records, window, visible, List.filter_filter, List.filter_filter]
  refine List.filter_congr fun r _ ↦ ?_
  rw [Bool.eq_iff_iff]
  simp only [Bool.and_eq_true, decide_eq_true_eq]
  tauto

end Follower

/-! ## A stream that meets a turn -/

/-- A request of one byte a record, from the beginning of the log. -/
def sampleRequest : StreamRequest Unit where
  after := some ⟨⟨0⟩, 0⟩
  filter := {}
  replayPageSize := 256
  recordBytes _ := 1
  messageBytes _ := 1
  pendingMatches _ _ := true

/-- Two records are replayed.  The removal is committed while the client is away: it goes on
where it was, is replayed the removal, passes over the hub's copy of it, and receives the rest
from the hub. -/
def sampleStreaming : List (StreamAction Unit) :=
  [.commit, .commit, .send, .send, .subscribe, .start, .turn, .turn, .turn, .arrive, .arrive,
    .drop, .subscribe, .commit, .start, .send, .turn, .turn, .turn, .recv, .commit, .commit,
    .commit, .commit, .send, .recv, .arrive, .arrive]

theorem sampleStreaming_received :
    (streamed sampleRequest sampleCodecs.compute .blind ⟨0⟩ sampleFollowing
        sampleStreaming).reader.received.filterMap StreamFrame.record =
      (followerRun sampleCodecs.compute .blind (.fresh ⟨0⟩, []) sampleFollowing).1.deliveryLog := by
  have hexact := received_exact sampleCodecs.compute .blind sampleTree_rising
    ⟨0⟩ sampleFollowing_tells sampleFollowing_unreset sampleRequest sampleStreaming
  rw [hexact.2.2 _ (List.prefix_refl _)]
  decide +kernel

end StreamWorld

end Kascov
