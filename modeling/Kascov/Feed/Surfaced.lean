import Kascov.Feed.PollLaw

/-!
# What the feed surfaces

A poll classifies the transactions that it does not remember.  It remembers those that a
poll of the same session classified without an error, and for which there was room if they
touch a covenant: a transaction that touches nothing yet is not looked at again.  What was
classified with covenants stays in the snapshot with all of them until a step takes it out.
-/

namespace Kascov

/-- The poller after a run. -/
def polledAfter (timers : PollTimers) (run : List PollEvent) : Poller :=
  Runs.run (pollStep timers) {} run

variable {timers : PollTimers}

theorem polledAfter_append (before after : List PollEvent) :
    polledAfter timers (before ++ after) =
      Runs.run (pollStep timers) (polledAfter timers before) after :=
  Runs.run_append _ before after

/-- The next new transaction is classified without an error, and there is room for it if it
touches a covenant. -/
structure ClassifiedAt (p : Poller) (event : PollEvent) (txid : TxId) : Prop where
  turn : ∃ events application at_ poll tx rest, event = .classified (some events) application at_ ∧
    p.phase = .polling poll ∧ poll.rest = tx :: rest ∧ tx.txid = txid ∧
    (events = [] ∨ p.polled.feed.Room txid)

/-- The session goes on. -/
def InSession (p : Poller) : PollEvent → Prop
  | .fetchFailed _ => p.phase ≠ .idle
  | _ => True

/-- The transaction was classified in the session. -/
def Attended (timers : PollTimers) (run : List PollEvent) (txid : TxId) : Prop :=
  ∃ before event after, run = before ++ event :: after ∧
    ClassifiedAt (polledAfter timers before) event txid ∧
    Runs.Guarded (pollStep timers) InSession (polledAfter timers (before ++ [event])) after

theorem guarded_snoc {ok : Poller → PollEvent → Prop} {p : Poller} {run : List PollEvent}
    {event : PollEvent} (h : Runs.Guarded (pollStep timers) ok p run)
    (hok : ok (Runs.run (pollStep timers) p run) event) :
    Runs.Guarded (pollStep timers) ok p (run ++ [event]) := by
  induction run generalizing p with
  | nil => exact ⟨hok, trivial⟩
  | cons first run ih => exact ⟨h.1, ih h.2 hok⟩

theorem Attended.snoc {run : List PollEvent} {txid : TxId} (h : Attended timers run txid)
    {event : PollEvent} (hok : InSession (polledAfter timers run) event) :
    Attended timers (run ++ [event]) txid := by
  obtain ⟨before, first, after, rfl, hturn, hsession⟩ := h
  refine ⟨before, first, after ++ [event], by simp, hturn, guarded_snoc hsession ?_⟩
  rw [← polledAfter_append, List.append_assoc, List.singleton_append]
  exact hok

theorem attended_of_turn {run : List PollEvent} {event : PollEvent} {txid : TxId}
    (h : ClassifiedAt (polledAfter timers run) event txid) :
    Attended timers (run ++ [event]) txid :=
  ⟨run, event, [], rfl, h, trivial⟩

/-- What is remembered was classified, and what a poll has passed is to be repeated or was
classified. -/
structure Remembering (timers : PollTimers) (run : List PollEvent) : Prop where
  prevIds : ∀ txid ∈ (polledAfter timers run).prevIds, Attended timers run txid
  poll : ∀ poll, (polledAfter timers run).phase = .polling poll → ∀ txid ∈ poll.txs.map (·.txid),
    txid ∈ poll.rest.map (·.txid) ∨ txid ∈ poll.retryIds ∨ Attended timers run txid

theorem insertEvents_ne_overflow {tx : Transaction} (application : ApplicationPreprocess)
    (atMs : Nat) (feed : PendingFeed) (events : List PendingEvent) {r : PendingInsert}
    (hr : r ≠ .overflow) :
    (insertEvents feed tx application atMs events r).2 ≠ .overflow := by
  induction events generalizing feed r with
  | nil => exact hr
  | cons event events ih =>
      refine ih _ ?_
      dsimp only
      split
      · exact nofun
      · exact hr

/-- Tracking overflows exactly where there is no room. -/
theorem track_overflow_iff {tx : Transaction} {feed : PendingFeed}
    {events : List PendingTxEvent} {application : ApplicationPreprocess} {atMs : Nat} :
    (trackPendingTransaction feed tx events application atMs).2 = .overflow ↔
      ¬feed.Room tx.txid := by
  rw [trackPendingTransaction, PendingFeed.Room, not_or, Nat.not_lt]
  split
  · exact iff_of_true rfl ‹_›
  · have hne : PendingInsert.alreadyTracked ≠ .overflow := by decide
    exact iff_of_false (insertEvents_ne_overflow application atMs feed _ hne) ‹_›

/-- The turn of a classification. -/
theorem remembering_classifyNext {run : List PollEvent} {poll : Poll} {tx : Transaction}
    {rest : List Transaction} {result : Option (List PendingTxEvent)}
    {application : ApplicationPreprocess} {at_ : Nat}
    (hphase : (polledAfter timers run).phase = .polling poll) (hrest : poll.rest = tx :: rest)
    (h : ∀ txid ∈ poll.txs.map (·.txid), txid ∈ poll.rest.map (·.txid) ∨
      txid ∈ poll.retryIds ∨ Attended timers (run ++ [.classified result application at_]) txid) :
    let poll' := (classifyNext (polledAfter timers run).polled poll tx rest result application
      at_).2
    ∀ txid ∈ poll'.txs.map (·.txid), txid ∈ poll'.rest.map (·.txid) ∨ txid ∈ poll'.retryIds ∨
      Attended timers (run ++ [.classified result application at_]) txid := by
  have turn {events : List PendingTxEvent} (hevents : result = some events)
      (hroom : events = [] ∨ (polledAfter timers run).polled.feed.Room tx.txid) :
      Attended timers (run ++ [.classified result application at_]) tx.txid :=
    attended_of_turn ⟨events, application, at_, poll, tx, rest, by rw [hevents], hphase, hrest,
      rfl, hroom⟩
  have split (txid : TxId) (htxid : txid ∈ poll.txs.map (·.txid)) :
      txid = tx.txid ∨ txid ∈ rest.map (·.txid) ∨ txid ∈ poll.retryIds ∨
        Attended timers (run ++ [.classified result application at_]) txid := by
    have hsplit := h txid htxid
    rw [hrest, List.map_cons, List.mem_cons, or_assoc] at hsplit
    exact hsplit
  unfold classifyNext
  split
  · intro poll' txid htxid
    rcases split txid htxid with rfl | hrest | hretry | hturn
    · exact .inr (.inl List.mem_cons_self)
    · exact .inl hrest
    · exact .inr (.inl (List.mem_cons_of_mem _ hretry))
    · exact .inr (.inr hturn)
  · intro poll' txid htxid
    rcases split txid htxid with rfl | hothers
    · exact .inr (.inr (turn rfl (.inl rfl)))
    · exact hothers
  · rename_i events _
    intro poll' txid htxid
    have hretryIds : poll'.retryIds =
        if (trackPendingTransaction (polledAfter timers run).polled.feed tx events application
          poll.observedAtMs).2 = .overflow then tx.txid :: poll.retryIds else poll.retryIds := rfl
    rw [hretryIds]
    split_ifs with hfull
    · rcases split txid htxid with rfl | hrest | hretry | hturn
      · exact .inr (.inl List.mem_cons_self)
      · exact .inl hrest
      · exact .inr (.inl (List.mem_cons_of_mem _ hretry))
      · exact .inr (.inr hturn)
    · rcases split txid htxid with rfl | hothers
      · exact .inr (.inr (turn rfl (.inr (not_not.mp (mt track_overflow_iff.mpr hfull)))))
      · exact hothers

/-- What is remembered through a step that keeps the session. -/
theorem Remembering.same {run : List PollEvent} {event : PollEvent} (h : Remembering timers run)
    (hok : InSession (polledAfter timers run) event)
    (hprev : (polledAfter timers (run ++ [event])).prevIds = (polledAfter timers run).prevIds)
    (hphase : (polledAfter timers (run ++ [event])).phase = (polledAfter timers run).phase) :
    Remembering timers (run ++ [event]) where
  prevIds txid htxid := (h.prevIds txid (hprev ▸ htxid)).snoc hok
  poll poll hpoll txid htxid :=
    (h.poll poll (hphase ▸ hpoll) txid htxid).imp_right (.imp_right fun hturn ↦ hturn.snoc hok)

theorem polledAfter_snoc (run : List PollEvent) (event : PollEvent) :
    polledAfter timers (run ++ [event]) =
      Runs.attempt (pollStep timers) (polledAfter timers run) event :=
  polledAfter_append run [event]

theorem Remembering.snoc {run : List PollEvent} (h : Remembering timers run)
    (event : PollEvent) : Remembering timers (run ++ [event]) := by
  have hafter := @polledAfter_snoc timers run event
  rw [Runs.attempt] at hafter
  cases hstep : pollStep timers (polledAfter timers run) event with
  | error e =>
      rw [hstep] at hafter
      refine h.same ?_ (by rw [hafter]) (by rw [hafter])
      cases event with
      | fetchFailed unsupported =>
          intro hidle
          rw [pollStep, hidle] at hstep
          dsimp only at hstep
          split at hstep <;> cases hstep
      | _ => trivial
  | ok p' =>
      rw [hstep] at hafter
      cases event with
      | killed =>
          rw [pollStep] at hstep
          split_ifs at hstep
          obtain rfl := Except.ok.inj hstep
          constructor
          · intro txid htxid
            rw [hafter] at htxid
            exact (h.prevIds txid htxid).snoc trivial
          · intro poll hpoll
            rw [hafter] at hpoll
            cases hpoll
      | sessionFailed =>
          rw [pollStep] at hstep
          split at hstep
          · obtain rfl := Except.ok.inj hstep
            exact h.same trivial (by rw [hafter]) (by rw [hafter])
          · cases hstep
      | connected =>
          rw [pollStep] at hstep
          split at hstep
          · obtain rfl := Except.ok.inj hstep
            constructor
            · intro txid htxid
              rw [hafter] at htxid
              exact (h.prevIds txid htxid).snoc trivial
            · intro poll hpoll
              rw [hafter] at hpoll
              cases hpoll
          · cases hstep
      | fetchFailed unsupported =>
          rw [pollStep] at hstep
          split at hstep
          · split_ifs at hstep
            all_goals
              obtain rfl := Except.ok.inj hstep
              constructor
              · intro txid htxid
                rw [hafter] at htxid
                cases htxid
              · intro poll hpoll
                rw [hafter] at hpoll
                cases hpoll
          · cases hstep
      | fetched txs observedAtMs now liveAtMs =>
          rw [pollStep] at hstep
          split at hstep
          · obtain rfl := Except.ok.inj hstep
            constructor
            · intro txid htxid
              rw [hafter] at htxid
              exact (h.prevIds txid htxid).snoc trivial
            · intro poll hpoll txid htxid
              rw [hafter] at hpoll
              obtain rfl := PollPhase.polling.inj hpoll
              by_cases hprev : txid ∈ (polledAfter timers run).prevIds
              · exact .inr (.inr ((h.prevIds txid hprev).snoc trivial))
              · obtain ⟨tx, htx, rfl⟩ := List.mem_map.mp htxid
                refine .inl (List.mem_map_of_mem (List.mem_filter.mpr ⟨htx, ?_⟩))
                exact decide_eq_true hprev
          · cases hstep
      | classified result application at_ =>
          rw [pollStep] at hstep
          split at hstep
          · rename_i poll hphase
            split at hstep
            · rename_i tx rest hrest
              split_ifs at hstep
              obtain rfl := Except.ok.inj hstep
              constructor
              · intro txid htxid
                rw [hafter] at htxid
                exact (h.prevIds txid htxid).snoc trivial
              · intro poll' hpoll
                rw [hafter] at hpoll
                obtain rfl := PollPhase.polling.inj hpoll
                exact remembering_classifyNext hphase hrest fun txid htxid ↦
                  (h.poll poll hphase txid htxid).imp_right
                    (.imp_right fun hturn ↦ hturn.snoc trivial)
            · cases hstep
          · cases hstep
      | swept confirmed =>
          rw [pollStep] at hstep
          split at hstep
          · rename_i poll hphase
            split_ifs at hstep with hrest
            obtain rfl := Except.ok.inj hstep
            constructor
            · intro txid htxid
              rw [hafter] at htxid
              obtain ⟨hpool, hretry⟩ := List.mem_filter.mp htxid
              obtain hmem | hmem | hturn := h.poll poll hphase txid hpool
              · rw [hrest] at hmem
                cases hmem
              · exact absurd hmem (of_decide_eq_true hretry)
              · exact hturn.snoc trivial
            · intro poll' hpoll
              rw [hafter] at hpoll
              cases hpoll
          · cases hstep
      | accepted txids =>
          obtain rfl := Except.ok.inj hstep
          exact h.same trivial (by rw [hafter]) (by rw [hafter])

theorem mem_putEvent_ids {events : List PendingEvent} {event : PendingEvent} {id : CovenantId} :
    id ∈ (putEvent events event).map (·.covenantId) ↔
      id ∈ events.map (·.covenantId) ∨ id = event.covenantId := by
  rw [putEvent, ((List.perm_insertionSort _ _).map _).mem_iff]
  split
  · rename_i hany
    obtain ⟨old, hold, heq⟩ := List.any_eq_true.mp hany
    have hids : (events.map fun existing ↦ if existing.covenantId = event.covenantId then
        { existing with kind := event.kind } else existing).map (·.covenantId) =
          events.map (·.covenantId) := by
      rw [List.map_map]
      refine List.map_congr_left fun existing _ ↦ ?_
      rw [Function.comp_apply]
      split <;> rfl
    rw [hids]
    refine (or_iff_left_of_imp ?_).symm
    rintro rfl
    exact List.mem_map.mpr ⟨old, hold, of_decide_eq_true heq⟩
  · rw [List.map_append, List.mem_append, List.map_singleton, List.mem_singleton]

theorem mem_mergeEvent_ids {events : List PendingEvent} {event : PendingEvent}
    {id : CovenantId} : id ∈ (putNewEvent events event).map (·.covenantId) ↔
      id ∈ events.map (·.covenantId) ∨ id = event.covenantId := by
  rw [putNewEvent]
  split
  · rename_i hany
    obtain ⟨old, hold, heq⟩ := List.any_eq_true.mp hany
    refine (or_iff_left_of_imp ?_).symm
    rintro rfl
    exact List.mem_map.mpr ⟨old, hold, (of_decide_eq_true heq).1⟩
  · exact mem_putEvent_ids

/-- What is merged is held beside what was. -/
theorem mem_mergeEvents_ids {events more : List PendingEvent} {id : CovenantId} :
    id ∈ (mergeEvents events more).map (·.covenantId) ↔
      id ∈ events.map (·.covenantId) ∨ id ∈ more.map (·.covenantId) := by
  induction more generalizing events with
  | nil => simp [mergeEvents]
  | cons event more ih =>
      rw [mergeEvents, List.foldl_cons, ← mergeEvents, ih, mem_mergeEvent_ids, List.map_cons,
        List.mem_cons, or_assoc]

/-- The feed holds the transaction, with these covenants among its events. -/
def Covers (feed : PendingFeed) (txid : TxId) (ids : List CovenantId) : Prop :=
  ∃ entry, feed.entries.lookup txid = some entry ∧
    ∀ id ∈ ids, id ∈ entry.events.map (·.covenantId)

/-- No step takes the transaction out: the polls find it in the pool and it is not too old,
it is not accepted, and the feed is not disabled. -/
def Stays (timers : PollTimers) (txid : TxId) (p : Poller) : PollEvent → Prop
  | .swept _ => ∀ poll, p.phase = .polling poll → txid ∈ poll.txs.map (·.txid) ∧
      poll.now - (p.polled.instants txid).firstSeen < timers.maxAge
  | .accepted txids => txid ∉ txids
  | .fetchFailed unsupported => unsupported = false
  | .killed => False
  | _ => True

section Covers

variable {feed out : PendingFeed} {txid : TxId} {ids : List CovenantId}

theorem Covers.congr (h : Covers feed txid ids)
    (hentry : out.entries.lookup txid = feed.entries.lookup txid) : Covers out txid ids := by
  obtain ⟨entry, hheld, hids⟩ := h
  exact ⟨entry, hentry.trans hheld, hids⟩

theorem Covers.setStatus {p : PolledFeed} (h : Covers p.feed txid ids)
    (status : PendingFeedStatus) : Covers (p.setStatus status).feed txid ids := by
  rw [PolledFeed.setStatus]
  split
  · exact h.congr rfl
  · exact h

/-- Tracking any transaction keeps what is held. -/
theorem Covers.track (h : Covers feed txid ids) (tx : Transaction) (events : List PendingTxEvent)
    (application : ApplicationPreprocess) (atMs : Nat) :
    Covers (trackPendingTransaction feed tx events application atMs).1 txid ids := by
  obtain ⟨held, hheld, hids⟩ := h
  obtain ⟨hout, -⟩ | ⟨entry, hentry, hout⟩ | ⟨hnew, -, hout⟩ :=
    @track_cases tx application atMs feed events
  · rw [hout]
    exact ⟨held, hheld, hids⟩
  · by_cases htx : txid = tx.txid
    · subst htx
      obtain rfl := Option.some.inj (hentry.symm.trans hheld)
      obtain ⟨entry', hentry', hevents⟩ := hout.entry
      refine ⟨entry', hentry', fun id hid ↦ ?_⟩
      rw [hevents, mem_mergeEvents_ids]
      exact .inl (hids id hid)
    · exact ⟨held, (hout.others txid htx).trans hheld, hids⟩
  · have htx : txid ≠ tx.txid := by
      rintro rfl
      rw [AList.lookup_eq_none.mpr hnew] at hheld
      cases hheld
    exact ⟨held, (hout.others txid htx).trans hheld, hids⟩

theorem Covers.classifyNext {p : PolledFeed} (h : Covers p.feed txid ids) (poll : Poll)
    (tx : Transaction) (rest : List Transaction) (result : Option (List PendingTxEvent))
    (application : ApplicationPreprocess) (at_ : Nat) :
    Covers (Kascov.classifyNext p poll tx rest result application at_).1.feed txid ids := by
  unfold Kascov.classifyNext
  split
  · exact h
  · exact h
  · exact h.track tx _ application poll.observedAtMs

end Covers

section Sweep

variable {txs : List Transaction} {confirmed : TxId → Bool} {now : Nat} {txid : TxId}
  {ids : List CovenantId}

/-- What the loop over the tracked transactions keeps of one. -/
structure Swept (s : Sweep) (txid : TxId) (ids : List CovenantId) (firstSeen : Nat) : Prop where
  covers : Covers s.polled.feed txid ids
  firstSeen : (s.polled.instants txid).firstSeen = firstSeen

theorem Swept.resolve {s : Sweep} {firstSeen : Nat} (h : Swept s txid ids firstSeen)
    {other : TxId} (hne : txid ≠ other) (resolution : Resolution) :
    Swept (s.resolve other resolution) txid ids firstSeen :=
  ⟨h.covers.congr (lookup_remove_ne _ hne), h.firstSeen⟩

theorem Swept.sweepTx {s : Sweep} {firstSeen : Nat} (h : Swept s txid ids firstSeen)
    (hpool : txid ∈ txs.map (·.txid)) (hage : now - firstSeen < timers.maxAge) (other : TxId) :
    Swept (Kascov.sweepTx timers txs confirmed now s other) txid ids firstSeen := by
  have hseen (since : Option Nat) : (Function.update s.polled.instants other
      { s.polled.instants other with leavingSince := since } txid).firstSeen = firstSeen := by
    by_cases hne : txid = other
    · subst hne
      rw [Function.update_self]
      exact h.firstSeen
    · rw [Function.update_of_ne hne]
      exact h.firstSeen
  rw [Kascov.sweepTx]
  by_cases hne : txid = other
  · subst hne
    split
    · exact h
    · dsimp only
      rw [if_neg (Nat.not_le.mpr (h.firstSeen ▸ hage)), if_pos hpool]
      exact ⟨h.covers, hseen none⟩
  · split
    · exact h
    · dsimp only
      split
      · exact h.resolve hne _
      · split
        · exact ⟨h.covers, hseen none⟩
        · split
          · exact h.resolve hne _
          · split
            · exact h.resolve hne _
            · have hleft (since : Nat) : Swept
                  { s with polled := { s.polled with
                      instants := Function.update s.polled.instants other
                        { s.polled.instants other with leavingSince := some since } } }
                  txid ids firstSeen := ⟨h.covers, hseen (some since)⟩
              split
              · exact (hleft _).resolve hne _
              · exact hleft _

theorem Swept.foldl {s : Sweep} {firstSeen : Nat} (h : Swept s txid ids firstSeen)
    (hpool : txid ∈ txs.map (·.txid)) (hage : now - firstSeen < timers.maxAge)
    (others : List TxId) :
    Swept (others.foldl (Kascov.sweepTx timers txs confirmed now) s) txid ids firstSeen := by
  induction others generalizing s with
  | nil => exact h
  | cons other others ih => exact ih (h.sweepTx hpool hage other)

theorem Covers.resolveAccepted {p : PolledFeed} (h : Covers p.feed txid ids) {txids : List TxId}
    (hnot : txid ∉ txids) : Covers (resolveAcceptedPending p txids).polled.feed txid ids := by
  have hloop (s : Sweep) (hs : Covers s.polled.feed txid ids) :
      Covers (txids.foldl (fun s txid ↦ s.resolve txid .accepted) s).polled.feed txid ids := by
    induction txids generalizing s with
    | nil => exact hs
    | cons other txids ih =>
        obtain ⟨hne, hnot⟩ := not_or.mp (mt List.mem_cons.mpr hnot)
        exact ih hnot _ (hs.congr (lookup_remove_ne _ hne))
  exact hloop _ h

end Sweep

/-- A step that takes the transaction out of nothing keeps what is held of it. -/
theorem Covers.step {p p' : Poller} {event : PollEvent} {txid : TxId} {ids : List CovenantId}
    (hstep : pollStep timers p event = .ok p') (hstay : Stays timers txid p event)
    (h : Covers p.polled.feed txid ids) : Covers p'.polled.feed txid ids := by
  cases event with
  | killed => exact hstay.elim
  | sessionFailed =>
      rw [pollStep] at hstep
      split at hstep
      · obtain rfl := Except.ok.inj hstep
        exact h.setStatus _
      · cases hstep
  | connected =>
      rw [pollStep] at hstep
      split at hstep
      · obtain rfl := Except.ok.inj hstep
        exact h
      · cases hstep
  | fetchFailed unsupported =>
      rw [pollStep, hstay] at hstep
      split at hstep
      · obtain rfl := Except.ok.inj hstep
        exact h.setStatus _
      · cases hstep
  | fetched txs observedAtMs now liveAtMs =>
      rw [pollStep] at hstep
      split at hstep
      · obtain rfl := Except.ok.inj hstep
        exact Covers.setStatus (p := { p.polled with lastPollMs := some liveAtMs }) h _
      · cases hstep
  | classified result application at_ =>
      rw [pollStep] at hstep
      split at hstep
      · split at hstep
        · split_ifs at hstep
          obtain rfl := Except.ok.inj hstep
          exact h.classifyNext ..
        · cases hstep
      · cases hstep
  | swept confirmed =>
      rw [pollStep] at hstep
      split at hstep
      · rename_i poll hphase
        split_ifs at hstep
        obtain rfl := Except.ok.inj hstep
        obtain ⟨hpool, hage⟩ := hstay poll hphase
        exact (Swept.foldl ⟨h, rfl⟩ hpool hage p.polled.feed.order).covers
      · cases hstep
  | accepted txids =>
      obtain rfl := Except.ok.inj hstep
      exact h.resolveAccepted hstay

/-- What is held stays through a run that takes the transaction out of nothing. -/
theorem Covers.run {p : Poller} {txid : TxId} {ids : List CovenantId} {run : List PollEvent}
    (h : Covers p.polled.feed txid ids)
    (hstay : Runs.Guarded (pollStep timers) (Stays timers txid) p run) :
    Covers (Runs.run (pollStep timers) p run).polled.feed txid ids :=
  Runs.run_invariant_of_guarded (fun p ↦ Covers p.polled.feed txid ids) (Stays timers txid)
    (fun _ _ _ hp hok hstep ↦ hp.step hstep hok) h hstay

/-- A held transaction with events has a row. -/
theorem Covers.row {feed : PendingFeed} {txid : TxId} {ids : List CovenantId}
    (hlisted : Listed feed) (h : Covers feed txid ids) (hne : ids ≠ []) (generatedAtMs : Nat) :
    ∃ row ∈ feed.rowsAt generatedAtMs, row.txid = txid ∧
      ∀ id ∈ ids, ∃ kind pid, (id, kind, pid) ∈ row.events := by
  obtain ⟨entry, hentry, hids⟩ := h
  have horder : txid ∈ feed.order :=
    (hlisted.mem_order txid).mpr (AList.lookup_isSome.mp (by rw [hentry]; rfl))
  obtain ⟨id, hid⟩ := List.exists_mem_of_ne_nil _ hne
  obtain ⟨first, events, hevents⟩ : ∃ first events, entry.events = first :: events := by
    refine List.exists_cons_of_ne_nil ?_
    rintro hnil
    have hmem := hids id hid
    rw [hnil] at hmem
    cases hmem
  let row : PendingRow :=
    { covenantId := first.covenantId
      txKind := first.kind
      txid
      ageMs := generatedAtMs - entry.firstSeenMs
      events := entry.events.map fun e ↦ (e.covenantId, e.kind, ⟨txid, e.covenantId, e.ordinal⟩)
      application := entry.application }
  refine ⟨row, List.mem_filterMap.mpr ⟨txid, horder, ?_⟩, rfl, fun id hid ↦ ?_⟩
  · have hhead : entry.events.head? = some first := by rw [hevents]; rfl
    rw [hentry]
    change (entry.events.head?.bind fun primary ↦ some _) = some row
    rw [hhead]
    rfl
  · obtain ⟨e, he, rfl⟩ := List.mem_map.mp (hids id hid)
    exact ⟨e.kind, ⟨txid, e.covenantId, e.ordinal⟩, List.mem_map.mpr ⟨e, he, rfl⟩⟩

/-! ## The two together -/

end Kascov
