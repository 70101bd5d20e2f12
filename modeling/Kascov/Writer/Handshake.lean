import Kascov.Writer.Mutation
import Mathlib.Order.Basic
import Mathlib.Tactic.Common

/-!
# The handshake of a mutation

However the callers, their timers and the writer interleave, the store is what the operations
make of it one after the other, an operation runs once at most, a caller that is told a result
was told that of its own operation, and a caller that is told a failure never has it run.
-/

namespace Kascov

variable {σ ρ : Type}

/-! ## What holds of a call -/

/-- The operation of a call ran on the store that there was then, and gave the result. -/
def Answered (s : σ) (log : List (Ran σ ρ)) (id : Nat) (operation : σ → σ × ρ) (result : ρ) :
    Prop :=
  ∃ before after, log = before ++ .mutation id operation :: after ∧
    (operation (replay s before)).2 = result

theorem replay_concat (s : σ) (log : List (Ran σ ρ)) (r : Ran σ ρ) :
    replay s (log ++ [r]) = r.effect (replay s log) := List.foldl_concat ..

theorem Answered.mono {s : σ} {log log' : List (Ran σ ρ)} {id : Nat} {operation : σ → σ × ρ} {r : ρ}
    (h : Answered s log id operation r) (hlog : log <+: log') : Answered s log' id operation r := by
  obtain ⟨before, after, rfl, hr⟩ := h
  obtain ⟨rest, rfl⟩ := hlog
  exact ⟨before, after ++ rest, by rw [List.append_assoc, List.cons_append], hr⟩

theorem Answered.mem {s : σ} {log : List (Ran σ ρ)} {id : Nat} {operation : σ → σ × ρ} {r : ρ}
    (h : Answered s log id operation r) : id ∈ log.filterMap Ran.id? := by
  obtain ⟨before, after, rfl, -⟩ := h
  refine List.mem_filterMap.mpr ⟨.mutation id operation, ?_, rfl⟩
  exact List.mem_append_right _ List.mem_cons_self

/-- The mutations that are in the writer's hands. -/
def WriterTurn.ids : WriterTurn → List Nat
  | .idle => []
  | .holding id | .running id => [id]

namespace WriterWorld

/-- Every mutation that was not dropped, in the order in which the channel took it. -/
def ids (w : WriterWorld σ ρ) : List Nat := w.ran ++ w.turn.ids ++ w.queue

/-- A call that awaits the writer. -/
def Awaits (w : WriterWorld σ ρ) (id : Nat) : Prop :=
  id ∈ w.queue ∨ w.turn = .holding id ∨ w.turn = .running id

/-- A call and its mutation agree on what happened. -/
structure CallLaw (s : σ) (w : WriterWorld σ ρ) (id : Nat) (call : WriterCall σ ρ) : Prop where
  running : call.state = .running ↔ id ∈ w.ran ∨ w.turn = .running id
  ran : id ∈ w.ran → ∃ r, call.result = .sent r
  sent : ∀ r, call.result = .sent r → Answered s w.log id call.operation r
  dropped : call.result = .dropped →
    call.state ≠ .running ∧ (w.closed ∨ ∃ e, call.caller = .told (.error e))
  empty : call.result = .empty ↔ w.Awaits id
  ok : ∀ r, call.caller = .told (.ok r) → call.result = .sent r
  failed : ∀ e, call.caller = .told (.error e) → call.state = .canceled ∨ call.result = .dropped
  canceled : call.state = .canceled → call.caller = .told (.error .timedOut)

/-- What holds of the writer in every state it can get into. -/
structure Lawful (s : σ) (w : WriterWorld σ ρ) : Prop where
  store : w.store = replay s w.log
  order : w.ids.Pairwise (· < ·)
  bound : ∀ id ∈ w.ids, id < w.calls.length
  calls : ∀ id call, w.calls[id]? = some call → w.CallLaw s id call

section Lemmas

variable {s : σ} {w w' : WriterWorld σ ρ} {id : Nat} {call : WriterCall σ ρ}

theorem getElem?_update (ids : List Nat) (f : WriterCall σ ρ → WriterCall σ ρ) :
    (w.update ids f).calls[id]? = (w.calls[id]?).map fun call ↦ if id ∈ ids then f call else call :=
  List.getElem?_mapIdx

theorem length_update (ids : List Nat) (f : WriterCall σ ρ → WriterCall σ ρ) :
    (w.update ids f).calls.length = w.calls.length := List.length_mapIdx

/-- What the writer has in hand or in its channel has not run. -/
theorem Lawful.not_mem_ran (h : w.Lawful s) (hid : id ∈ w.turn.ids ++ w.queue) : id ∉ w.ran := by
  have horder := h.order
  rw [ids, List.append_assoc] at horder
  exact fun hran ↦ Nat.lt_irrefl id ((List.pairwise_append.mp horder).2.2 id hran id hid)

/-- What is in the channel is not in hand. -/
theorem Lawful.not_mem_turn (h : w.Lawful s) (hid : id ∈ w.queue) : id ∉ w.turn.ids := fun hturn ↦
  Nat.lt_irrefl id ((List.pairwise_append.mp h.order).2.2 id (List.mem_append_right _ hturn) id hid)

theorem awaits_iff : w.Awaits id ↔ id ∈ w.queue ∨ id ∈ w.turn.ids := by
  refine or_congr_right ?_
  cases w.turn with
  | idle => simp [WriterTurn.ids]
  | holding i => simp [WriterTurn.ids, eq_comm]
  | running i => simp [WriterTurn.ids, eq_comm]

/-- A step that does not touch a call keeps its law. -/
theorem CallLaw.keep (h : w.CallLaw s id call) (hlog : w.log <+: w'.log)
    (hran : id ∈ w'.ran ↔ id ∈ w.ran) (hrunning : w'.turn = .running id ↔ w.turn = .running id)
    (hawaits : w'.Awaits id ↔ w.Awaits id) (hclosed : w.closed → w'.closed) :
    w'.CallLaw s id call where
  running := by rw [hran, hrunning]; exact h.running
  ran hmem := h.ran (hran.mp hmem)
  sent r hr := (h.sent r hr).mono hlog
  dropped hr := ⟨(h.dropped hr).1, (h.dropped hr).2.imp_left hclosed⟩
  empty := h.empty.trans hawaits.symm
  ok := h.ok
  failed := h.failed
  canceled := h.canceled

/-! ## The steps of a caller -/

/-- A caller is told what is in the channel. -/
theorem CallLaw.poll (h : w.CallLaw s id call) (hstate : call.state ≠ .canceled) :
    w.CallLaw s id call.poll := by
  unfold WriterCall.poll
  split
  next => exact h
  next r hr =>
      refine ⟨h.running, h.ran, h.sent, ?_, h.empty, ?_, ?_, fun hc ↦ absurd hc hstate⟩
      · intro hdropped
        rw [hr] at hdropped
        cases hdropped
      · intro r' htold
        cases htold
        exact hr
      · intro e htold
        cases htold
  next hr =>
      refine ⟨h.running, h.ran, h.sent, ?_, h.empty, ?_, ?_, fun hc ↦ absurd hc hstate⟩
      · exact fun _ ↦ ⟨(h.dropped hr).1, .inr ⟨_, rfl⟩⟩
      · intro r' htold
        cases htold
      · exact fun _ _ ↦ .inr hr

/-- A caller that has not been told did not cancel. -/
theorem CallLaw.state_ne (h : w.CallLaw s id call)
    (hcaller : call.caller ≠ .told (.error .timedOut)) : call.state ≠ .canceled :=
  fun hstate ↦ hcaller (h.canceled hstate)

/-- A caller that has not been told moves on. -/
theorem CallLaw.move (h : w.CallLaw s id call) {caller : Caller ρ}
    (hcaller : ∀ outcome, call.caller ≠ .told outcome)
    (hcaller' : ∀ outcome, caller ≠ .told outcome)
    (hresult : call.result = .dropped → w.closed) : w.CallLaw s id { call with caller } where
  running := h.running
  ran := h.ran
  sent := h.sent
  dropped hr := ⟨(h.dropped hr).1, .inl (hresult hr)⟩
  empty := h.empty
  ok _ htold := absurd htold (hcaller' _)
  failed _ htold := absurd htold (hcaller' _)
  canceled hstate := absurd (h.canceled hstate) (hcaller _)

/-- A caller that has not been told has its mutation dropped by the end of the writer only. -/
theorem CallLaw.closed (h : w.CallLaw s id call)
    (hcaller : ∀ outcome, call.caller ≠ .told outcome) (hresult : call.result = .dropped) :
    w.closed := by
  obtain hclosed | ⟨e, he⟩ := (h.dropped hresult).2
  · exact hclosed
  · exact absurd he (hcaller _)

theorem CallLaw.answer (h : w.CallLaw s id call) : w.CallLaw s id call.answer := by
  unfold WriterCall.answer
  split
  next hcaller => exact h.poll (h.state_ne fun htold ↦ by rw [hcaller] at htold; cases htold)
  next hcaller => exact h.poll (h.state_ne fun htold ↦ by rw [hcaller] at htold; cases htold)
  next => exact h

theorem CallLaw.expire (h : w.CallLaw s id call) : w.CallLaw s id call.expire := by
  unfold WriterCall.expire
  split
  next hcaller hresult =>
      refine h.move (fun _ htold ↦ ?_) (fun _ htold ↦ ?_) fun hr ↦ ?_
      · rw [hcaller] at htold
        cases htold
      · cases htold
      · rw [hresult] at hr
        cases hr
  next hcaller _ => exact h.poll (h.state_ne fun htold ↦ by rw [hcaller] at htold; cases htold)
  next => exact h

/-- **The caller's exchange.** -/
theorem CallLaw.cancel (h : w.CallLaw s id call) : w.CallLaw s id call.cancel := by
  unfold WriterCall.cancel
  split
  next hcaller hstate =>
      have hrunning : ¬ (id ∈ w.ran ∨ w.turn = .running id) := fun hrun ↦ by
        rw [← h.running, hstate] at hrun
        cases hrun
      refine ⟨⟨?_, fun hrun ↦ absurd hrun hrunning⟩, h.ran, h.sent, ?_, h.empty, ?_,
        fun _ _ ↦ .inl rfl, fun _ ↦ rfl⟩
      · intro hs
        cases hs
      · refine fun _ ↦ ⟨fun hs ↦ ?_, .inr ⟨_, rfl⟩⟩
        cases hs
      · intro r htold
        cases htold
  next hcaller _ =>
      have huntold : ∀ outcome, call.caller ≠ .told outcome := fun _ htold ↦ by
        rw [hcaller] at htold
        cases htold
      refine h.move huntold (fun _ htold ↦ ?_) (h.closed huntold)
      cases htold
  next => exact h

theorem CallLaw.abandon (h : w.CallLaw s id call) : w.CallLaw s id call.abandon := by
  unfold WriterCall.abandon
  split
  all_goals try exact h
  all_goals
    rename_i hcaller
    have huntold : ∀ outcome, call.caller ≠ .told outcome := fun _ htold ↦ by
      rw [hcaller] at htold
      cases htold
    refine h.move huntold (fun _ htold ↦ ?_) (h.closed huntold)
    cases htold

/-- A step of a caller keeps the law of the writer. -/
theorem Lawful.caller (h : w.Lawful s) (id : Nat) {f : WriterCall σ ρ → WriterCall σ ρ}
    (hf : ∀ call, w.CallLaw s id call → w.CallLaw s id (f call)) :
    (w.update [id] f).Lawful s where
  store := h.store
  order := h.order
  bound i hi := by rw [length_update]; exact h.bound i hi
  calls i call' hcall' := by
    rw [getElem?_update] at hcall'
    obtain ⟨call, hcall, rfl⟩ := Option.map_eq_some_iff.mp hcall'
    have hlaw := h.calls i call hcall
    have hlaw' : w.CallLaw s i (if i ∈ [id] then f call else call) := by
      split
      next hi =>
          obtain rfl := List.mem_singleton.mp hi
          exact hf call hlaw
      next => exact hlaw
    exact hlaw'.keep (List.prefix_refl _) Iff.rfl Iff.rfl Iff.rfl fun hw ↦ hw

/-! ## The steps of the writer -/

theorem lawful_start (capacity : Nat) (s : σ) : (start capacity s : WriterWorld σ ρ).Lawful s where
  store := rfl
  order := List.Pairwise.nil
  bound _ hi := absurd hi List.not_mem_nil
  calls id call hcall := by
    rw [start, List.getElem?_nil] at hcall
    cases hcall

/-- A call more. -/
theorem Lawful.push (h : w.Lawful s) {new : WriterCall σ ρ}
    (hcalls : w'.calls = w.calls ++ [new]) (hstore : w'.store = w.store) (hlog : w'.log = w.log)
    (hturn : w'.turn = w.turn) (hclosed : w'.closed = w.closed)
    (hqueue : w'.queue = w.queue ∨ w'.queue = w.queue ++ [w.calls.length])
    (hnew : w'.CallLaw s w.calls.length new) : w'.Lawful s := by
  have hran : w'.ran = w.ran := congrArg (List.filterMap Ran.id?) hlog
  have hids : w'.ids = w.ids ∨ w'.ids = w.ids ++ [w.calls.length] := by
    rw [ids, ids, hran, hturn]
    rcases hqueue with hqueue | hqueue
    · exact .inl (by rw [hqueue])
    · exact .inr (by rw [hqueue, List.append_assoc _ _ [w.calls.length]])
  have hlength : w'.calls.length = w.calls.length + 1 := by
    rw [hcalls, List.length_append, List.length_singleton]
  refine ⟨hstore.trans (h.store.trans (by rw [hlog])), ?_, fun i hi ↦ ?_, fun i call hcall ↦ ?_⟩
  · rcases hids with hids | hids
    · exact hids ▸ h.order
    · rw [hids, List.pairwise_append]
      refine ⟨h.order, List.pairwise_singleton _ _, fun i hi j hj ↦ ?_⟩
      exact List.mem_singleton.mp hj ▸ h.bound i hi
  · rw [hlength]
    rcases hids with hids | hids
    · exact Nat.lt_succ_of_lt (h.bound i (hids ▸ hi))
    · rw [hids, List.mem_append, List.mem_singleton] at hi
      rcases hi with hi | rfl
      · exact Nat.lt_succ_of_lt (h.bound i hi)
      · exact Nat.lt_succ_self _
  · rw [hcalls] at hcall
    rcases Nat.lt_or_ge i w.calls.length with hlt | hge
    · rw [List.getElem?_append_left hlt] at hcall
      refine (h.calls i call hcall).keep (hlog ▸ List.prefix_refl _) (by rw [hran])
        (by rw [hturn]) ?_ fun hw ↦ hclosed.trans hw
      rw [Awaits, Awaits, hturn]
      refine or_congr_left ?_
      rcases hqueue with hqueue | hqueue
      · rw [hqueue]
      · rw [hqueue, List.mem_append, List.mem_singleton]
        exact or_iff_left (Nat.ne_of_lt hlt)
    · obtain rfl : i = w.calls.length := by
        have hlt := (List.getElem?_eq_some_iff.mp hcall).1
        rw [List.length_append, List.length_singleton] at hlt
        exact Nat.le_antisymm (Nat.le_of_lt_succ hlt) hge
      rw [List.getElem?_concat_length] at hcall
      exact Option.some.inj hcall ▸ hnew

/-- A call that the channel took. -/
theorem CallLaw.sent_new (operation : σ → σ × ρ) (hran : id ∉ w.ran) (hturn : id ∉ w.turn.ids)
    (hqueue : id ∈ w.queue) : w.CallLaw s id (.sent operation) where
  running := by
    refine ⟨fun hs ↦ ?_, fun hrun ↦ absurd hrun (not_or.mpr ⟨hran, fun heq ↦ hturn ?_⟩)⟩
    · cases hs
    · rw [heq]
      exact List.mem_singleton_self _
  ran hmem := absurd hmem hran
  sent r hr := by cases hr
  dropped hr := by cases hr
  empty := ⟨fun _ ↦ .inl hqueue, fun _ ↦ rfl⟩
  ok r htold := by cases htold
  failed e htold := by cases htold
  canceled hs := by cases hs

/-- A call that the channel gave back. -/
theorem CallLaw.refused_new (operation : σ → σ × ρ) (e : MutateError) (hran : id ∉ w.ran)
    (hturn : id ∉ w.turn.ids) (hqueue : id ∉ w.queue) :
    w.CallLaw s id (.refused operation e) where
  running := by
    refine ⟨fun hs ↦ ?_, fun hrun ↦ absurd hrun (not_or.mpr ⟨hran, fun heq ↦ hturn ?_⟩)⟩
    · cases hs
    · rw [heq]
      exact List.mem_singleton_self _
  ran hmem := absurd hmem hran
  sent r hr := by cases hr
  dropped _ := by
    refine ⟨fun hs ↦ ?_, .inr ⟨e, rfl⟩⟩
    cases hs
  empty := by
    refine ⟨fun hr ↦ ?_, fun haw ↦ ?_⟩
    · cases hr
    · refine absurd (List.mem_append.mpr (awaits_iff.mp haw)) fun hmem ↦ ?_
      exact (List.mem_append.mp hmem).elim hqueue hturn
  ok r htold := by cases htold
  failed _ _ := .inr rfl
  canceled hs := by cases hs

theorem Lawful.mutate (h : w.Lawful s) (operation : σ → σ × ρ) : (w.mutate operation).Lawful s := by
  have hnew : w.calls.length ∉ w.ids := fun hi ↦ Nat.lt_irrefl _ (h.bound _ hi)
  rw [ids, List.mem_append, List.mem_append, not_or, not_or] at hnew
  obtain ⟨⟨hran, hturn⟩, hqueue⟩ := hnew
  have hrefused : ∀ e, ({ w with calls := w.calls ++ [.refused operation e] } :
      WriterWorld σ ρ).Lawful s := fun e ↦
    h.push rfl rfl rfl rfl rfl (.inl rfl) (.refused_new operation e hran hturn hqueue)
  unfold WriterWorld.mutate
  split
  · exact hrefused .closed
  split
  · exact hrefused .full
  · exact h.push rfl rfl rfl rfl rfl (.inr rfl)
      (.sent_new operation hran hturn (List.mem_append_right _ (List.mem_singleton_self _)))

theorem Lawful.recv (h : w.Lawful s) : w.recv.Lawful s := by
  unfold WriterWorld.recv
  split
  next id rest hturn hqueue =>
      have hids : w.ids = w.ran ++ id :: rest := by
        rw [ids, hturn, hqueue, WriterTurn.ids, List.append_nil]
      have hids' : ({ w with turn := .holding id, queue := rest } : WriterWorld σ ρ).ids = w.ids :=
        (List.append_assoc w.ran [id] rest).trans hids.symm
      refine ⟨h.store, hids' ▸ h.order, fun i hi ↦ h.bound i (hids' ▸ hi), fun i call hcall ↦ ?_⟩
      refine (h.calls i call hcall).keep (List.prefix_refl _) Iff.rfl ?_ ?_ fun hw ↦ hw
      · rw [hturn]
        refine ⟨fun heq ↦ ?_, fun heq ↦ ?_⟩
        · cases heq
        · cases heq
      · simp only [awaits_iff, hturn, hqueue, WriterTurn.ids, List.mem_cons, List.not_mem_nil,
          or_false]
        exact or_comm
  next => exact h

theorem Lawful.pass (h : w.Lawful s) (work : σ → σ) : (w.pass work).Lawful s := by
  unfold WriterWorld.pass
  split
  next hturn =>
      have hran : ({ w with store := work w.store, log := w.log ++ [.pass work] } :
          WriterWorld σ ρ).ran = w.ran := by
        rw [ran, List.filterMap_append]
        exact List.append_nil _
      have hids : ({ w with store := work w.store, log := w.log ++ [.pass work] } :
          WriterWorld σ ρ).ids = w.ids := congrArg (· ++ w.turn.ids ++ w.queue) hran
      refine ⟨?_, hids ▸ h.order, fun i hi ↦ h.bound i (hids ▸ hi), fun i call hcall ↦ ?_⟩
      · rw [replay_concat, ← h.store]
        rfl
      · exact (h.calls i call hcall).keep (List.prefix_append _ _) (by rw [hran]) Iff.rfl
          Iff.rfl fun hw ↦ hw
  next => exact h

/-- A step of the writer that changes calls. -/
theorem Lawful.change (h : w.Lawful s) {changed : List Nat} {f : WriterCall σ ρ → WriterCall σ ρ}
    (hcalls : w'.calls = w.calls) (hstore : w'.store = replay s w'.log) (hlog : w.log <+: w'.log)
    (hids : w'.ids.Sublist w.ids) (hclosed : w.closed → w'.closed)
    (hrest : ∀ i, i ∉ changed → (i ∈ w'.ran ↔ i ∈ w.ran) ∧
      (w'.turn = .running i ↔ w.turn = .running i) ∧ (w'.Awaits i ↔ w.Awaits i))
    (hchanged : ∀ i ∈ changed, ∀ call, w.calls[i]? = some call → w.CallLaw s i call →
      w'.CallLaw s i (f call)) : (w'.update changed f).Lawful s where
  store := hstore
  order := h.order.sublist hids
  bound i hi := by rw [length_update, hcalls]; exact h.bound i (hids.subset hi)
  calls i call' hcall' := by
    rw [getElem?_update, hcalls] at hcall'
    obtain ⟨call, hcall, rfl⟩ := Option.map_eq_some_iff.mp hcall'
    have hlaw := h.calls i call hcall
    have hlaw' : w'.CallLaw s i (if i ∈ changed then f call else call) := by
      split
      next hi => exact hchanged i hi call hcall hlaw
      next hi =>
          obtain ⟨hran, hrunning, hawaits⟩ := hrest i hi
          exact hlaw.keep hlog hran hrunning hawaits hclosed
    exact hlaw'.keep (List.prefix_refl _) Iff.rfl Iff.rfl Iff.rfl fun hw ↦ hw

/-- **The writer's exchange.** -/
theorem Lawful.claim (h : w.Lawful s) : w.claim.Lawful s := by
  unfold WriterWorld.claim
  split
  next id hturn =>
      have hmem : id ∈ w.turn.ids := by
        rw [hturn]
        exact List.mem_singleton_self _
      have hran : id ∉ w.ran := h.not_mem_ran (List.mem_append_left _ hmem)
      have hqueue : id ∉ w.queue := fun hi ↦ h.not_mem_turn hi hmem
      have hid : id ∈ w.ids := List.mem_append_left _ (List.mem_append_right _ hmem)
      obtain ⟨call, hcall⟩ : ∃ call, w.calls[id]? = some call :=
        ⟨_, List.getElem?_eq_getElem (h.bound id hid)⟩
      have hlaw := h.calls id call hcall
      have hempty : call.result = .empty := hlaw.empty.mpr (awaits_iff.mpr (.inr hmem))
      rw [hcall]
      dsimp only
      split
      next hqueued =>
          refine h.change rfl h.store (List.prefix_refl _) ?_ (fun hw ↦ hw) (fun i hi ↦ ?_) ?_
          · rw [ids, ids, hturn]
            exact List.Sublist.refl _
          · have hne : id ≠ i := fun heq ↦ hi (heq ▸ List.mem_singleton_self _)
            refine ⟨Iff.rfl, ?_, ?_⟩
            · simp [hturn, hne]
            · simp [awaits_iff, hturn, WriterTurn.ids]
          · intro i hi call' hcall' _
            obtain rfl := List.mem_singleton.mp hi
            obtain rfl := Option.some.inj (hcall.symm.trans hcall')
            have hclaim : call.claim = { call with state := .running } := by
              rw [WriterCall.claim, hqueued]
            rw [hclaim]
            refine ⟨⟨fun _ ↦ .inr rfl, fun _ ↦ rfl⟩, hlaw.ran, hlaw.sent, fun hr ↦ ?_,
              ⟨fun _ ↦ .inr (.inr rfl), fun _ ↦ hempty⟩, hlaw.ok, fun e he ↦ ?_, fun hs ↦ ?_⟩
            · cases hempty.symm.trans hr
            · rcases hlaw.failed e he with hs | hr
              · cases hqueued.symm.trans hs
              · cases hempty.symm.trans hr
            · cases hs
      next hstate =>
          have hcanceled : call.state = .canceled := by
            cases hs : call.state with
            | queued => exact absurd hs hstate
            | running =>
                rcases hlaw.running.mp hs with hi | hi
                · exact absurd hi hran
                · cases hturn.symm.trans hi
            | canceled => rfl
          refine h.change rfl h.store (List.prefix_refl _) ?_ (fun hw ↦ hw) (fun i hi ↦ ?_) ?_
          · rw [ids, ids, hturn]
            exact ((List.Sublist.refl _).append (List.nil_sublist _)).append (List.Sublist.refl _)
          · have hne : i ≠ id := fun heq ↦ hi (heq ▸ List.mem_singleton_self _)
            refine ⟨Iff.rfl, ?_, ?_⟩
            · simp [hturn]
            · simp [awaits_iff, hturn, WriterTurn.ids, hne]
          · intro i hi call' hcall' _
            obtain rfl := List.mem_singleton.mp hi
            obtain rfl := Option.some.inj (hcall.symm.trans hcall')
            have hclaim : call.claim = { call with result := .dropped } := by
              rw [WriterCall.claim, hcanceled]
            have htold := hlaw.canceled hcanceled
            rw [hclaim]
            refine ⟨⟨fun hs ↦ ?_, fun hrun ↦ ?_⟩, fun hi ↦ absurd hi hran, fun r hr ↦ ?_,
              fun _ ↦ ⟨fun hs ↦ ?_, .inr ⟨_, htold⟩⟩, ⟨fun hr ↦ ?_, fun haw ↦ ?_⟩, fun r hr ↦ ?_,
              fun _ _ ↦ .inr rfl, hlaw.canceled⟩
            · cases hcanceled.symm.trans hs
            · rcases hrun with hi | hi
              · exact absurd hi hran
              · cases hi
            · cases hr
            · cases hcanceled.symm.trans hs
            · cases hr
            · rcases haw with hi | hi | hi
              · exact absurd hi hqueue
              · cases hi
              · cases hi
            · cases htold.symm.trans hr
  next => exact h

/-- **The operation runs.** -/
theorem Lawful.operate (h : w.Lawful s) : w.operate.Lawful s := by
  unfold WriterWorld.operate
  split
  next id hturn =>
      split
      next call hcall =>
          have hmem : id ∈ w.turn.ids := by
            rw [hturn]
            exact List.mem_singleton_self _
          have hran : id ∉ w.ran := h.not_mem_ran (List.mem_append_left _ hmem)
          have hqueue : id ∉ w.queue := fun hi ↦ h.not_mem_turn hi hmem
          have hlaw := h.calls id call hcall
          have hrunning := hlaw.running.mpr (.inr hturn)
          have hempty : call.result = .empty := hlaw.empty.mpr (awaits_iff.mpr (.inr hmem))
          dsimp only
          have hran' : (w.log ++ [Ran.mutation id call.operation]).filterMap Ran.id? =
              w.ran ++ [id] := List.filterMap_append
          refine h.change rfl ?_ (List.prefix_append _ _) ?_ (fun hw ↦ hw) (fun i hi ↦ ?_) ?_
          · dsimp only
            rw [replay_concat, ← h.store]
            rfl
          · rw [ids, ids, ran, hran', hturn]
            dsimp only [WriterTurn.ids]
            rw [List.append_nil]
          · have hne : i ≠ id := fun heq ↦ hi (heq ▸ List.mem_singleton_self _)
            refine ⟨?_, ?_, ?_⟩
            · change i ∈ (w.log ++ [Ran.mutation id call.operation]).filterMap Ran.id? ↔ i ∈ w.ran
              rw [hran', List.mem_append, or_iff_left hi]
            · simp [hturn, Ne.symm hne]
            · simp [awaits_iff, hturn, WriterTurn.ids, hne]
          · intro i hi call' hcall' _
            obtain rfl := List.mem_singleton.mp hi
            obtain rfl := Option.some.inj (hcall.symm.trans hcall')
            have hmem' : i ∈ (w.log ++ [Ran.mutation i call.operation]).filterMap Ran.id? :=
              hran' ▸ List.mem_append_right _ (List.mem_singleton_self _)
            refine ⟨⟨fun _ ↦ .inl hmem', fun _ ↦ hrunning⟩, fun _ ↦ ⟨_, rfl⟩, fun r hr ↦ ?_,
              fun hr ↦ ?_, ⟨fun hr ↦ ?_, fun haw ↦ ?_⟩, fun r hr ↦ ?_, fun e he ↦ ?_,
              hlaw.canceled⟩
            · cases hr
              exact ⟨w.log, [], rfl, congrArg (fun x ↦ (call.operation x).2) h.store.symm⟩
            · cases hr
            · cases hr
            · rcases haw with hi | hi | hi
              · exact absurd hi hqueue
              · cases hi
              · cases hi
            · exact absurd (hlaw.sent r (hlaw.ok r hr)).mem hran
            · rcases hlaw.failed e he with hs | hr
              · cases hrunning.symm.trans hs
              · cases hempty.symm.trans hr
      next => exact h
  next => exact h

theorem Lawful.close (h : w.Lawful s) : w.close.Lawful s := by
  unfold WriterWorld.close
  split
  next hturn =>
      refine h.change rfl h.store (List.prefix_refl _) ?_ (fun _ ↦ rfl) (fun i hi ↦ ?_) ?_
      · rw [ids, ids]
        exact (List.Sublist.refl _).append (List.nil_sublist _)
      · refine ⟨Iff.rfl, Iff.rfl, ?_⟩
        simp [awaits_iff, hi]
      · intro i hi call hcall hlaw
        have hran : i ∉ w.ran := h.not_mem_ran (List.mem_append_right _ hi)
        have hempty : call.result = .empty := hlaw.empty.mpr (.inl hi)
        have hstate : call.state ≠ .running := fun hs ↦ by
          rcases hlaw.running.mp hs with hi | hi
          · exact hran hi
          · cases hturn.symm.trans hi
        refine ⟨hlaw.running, fun hi ↦ absurd hi hran, fun r hr ↦ ?_,
          fun _ ↦ ⟨hstate, .inl rfl⟩, ⟨fun hr ↦ ?_, fun haw ↦ ?_⟩, fun r hr ↦ ?_,
          fun _ _ ↦ .inr rfl, hlaw.canceled⟩
        · cases hr
        · cases hr
        · rw [awaits_iff, hturn] at haw
          rcases haw with hi | hi
          · cases hi
          · cases hi
        · cases hempty.symm.trans (hlaw.ok r hr)
  next => exact h

/-- **One step.** -/
theorem Lawful.step (h : w.Lawful s) (action : WriterAction σ ρ) : (w.step action).Lawful s := by
  cases action with
  | mutate operation => exact h.mutate operation
  | recv => exact h.recv
  | claim => exact h.claim
  | operate => exact h.operate
  | pass work => exact h.pass work
  | answer id => exact h.caller id fun _ hcall ↦ hcall.answer
  | expire id => exact h.caller id fun _ hcall ↦ hcall.expire
  | cancel id => exact h.caller id fun _ hcall ↦ hcall.cancel
  | abandon id => exact h.caller id fun _ hcall ↦ hcall.abandon
  | close => exact h.close

theorem Lawful.run (h : w.Lawful s) (actions : List (WriterAction σ ρ)) :
    (w.run actions).Lawful s := by
  induction actions generalizing w with
  | nil => exact h
  | cons action actions ih => exact ih (h.step action)

/-! ## What a caller was told stands -/

/-- A step of calls leaves what their callers were told. -/
def Settled (f : WriterCall σ ρ → WriterCall σ ρ) : Prop :=
  ∀ call outcome, call.caller = .told outcome → (f call).caller = .told outcome

theorem getElem?_told {changed : List Nat} {f : WriterCall σ ρ → WriterCall σ ρ} (hf : Settled f)
    {outcome : Except MutateError ρ} (hcall : w.calls[id]? = some call)
    (htold : call.caller = .told outcome) :
    ∃ call', (w.update changed f).calls[id]? = some call' ∧ call'.caller = .told outcome := by
  rw [getElem?_update, hcall]
  refine ⟨_, rfl, ?_⟩
  split
  · exact hf call outcome htold
  · exact htold

theorem told_step {outcome : Except MutateError ρ} (hcall : w.calls[id]? = some call)
    (htold : call.caller = .told outcome) (action : WriterAction σ ρ) :
    ∃ call', (w.step action).calls[id]? = some call' ∧ call'.caller = .told outcome := by
  have hlt := (List.getElem?_eq_some_iff.mp hcall).1
  cases action with
  | mutate operation =>
      refine ⟨call, ?_, htold⟩
      rw [step, mutate]
      split
      · exact (List.getElem?_append_left hlt).trans hcall
      split
      · exact (List.getElem?_append_left hlt).trans hcall
      · exact (List.getElem?_append_left hlt).trans hcall
  | recv =>
      refine ⟨call, ?_, htold⟩
      rw [step, recv]
      split
      · exact hcall
      · exact hcall
  | claim =>
      rw [step, claim]
      split
      · refine getElem?_told (fun call outcome htold ↦ ?_) hcall htold
        unfold WriterCall.claim
        split
        all_goals exact htold
      · exact ⟨call, hcall, htold⟩
  | operate =>
      rw [step, operate]
      split
      · split
        · refine getElem?_told ?_ hcall htold
          exact fun _ _ htold ↦ htold
        · exact ⟨call, hcall, htold⟩
      · exact ⟨call, hcall, htold⟩
  | pass work =>
      refine ⟨call, ?_, htold⟩
      rw [step, pass]
      split
      · exact hcall
      · exact hcall
  | answer i =>
      refine getElem?_told (fun call outcome htold ↦ ?_) hcall htold
      rw [WriterCall.answer, htold]
      exact htold
  | expire i =>
      refine getElem?_told (fun call outcome htold ↦ ?_) hcall htold
      rw [WriterCall.expire, htold]
      exact htold
  | cancel i =>
      refine getElem?_told (fun call outcome htold ↦ ?_) hcall htold
      rw [WriterCall.cancel, htold]
      exact htold
  | abandon i =>
      refine getElem?_told (fun call outcome htold ↦ ?_) hcall htold
      rw [WriterCall.abandon, htold]
      exact htold
  | close =>
      rw [step, close]
      split
      · refine getElem?_told ?_ hcall htold
        exact fun _ _ htold ↦ htold
      · exact ⟨call, hcall, htold⟩

theorem told_run {outcome : Except MutateError ρ} (hcall : w.calls[id]? = some call)
    (htold : call.caller = .told outcome) (actions : List (WriterAction σ ρ)) :
    ∃ call', (w.run actions).calls[id]? = some call' ∧ call'.caller = .told outcome := by
  induction actions generalizing w call with
  | nil => exact ⟨call, hcall, htold⟩
  | cons action actions ih =>
      obtain ⟨call', hcall', htold'⟩ := told_step hcall htold action
      exact ih hcall' htold'

/-- A mutation whose caller is told a failure has not run. -/
theorem CallLaw.not_mem_ran (h : w.CallLaw s id call) {e : MutateError}
    (htold : call.caller = .told (.error e)) : id ∉ w.ran := by
  intro hmem
  have hrunning := h.running.mpr (.inl hmem)
  rcases h.failed e htold with hs | hr
  · cases hs.symm.trans hrunning
  · exact (h.dropped hr).1 hrunning

/-! ## What the writer gets to -/

/-- The writer's own actions, for one mutation more and more. -/
def rounds (n : Nat) : List (WriterAction σ ρ) :=
  [.claim, .operate] ++ (List.replicate n [.recv, .claim, .operate]).flatten

/-- The writer has nothing to do. -/
def Quiet (w : WriterWorld σ ρ) : Prop := w.turn = .idle ∧ w.queue = []

theorem queue_claim : w.claim.queue = w.queue := by
  unfold claim
  split
  all_goals rfl

theorem queue_operate : w.operate.queue = w.queue := by
  unfold operate
  split
  · split
    all_goals rfl
  · rfl

theorem turn_claim (id : Nat) : w.claim.turn ≠ .holding id := by
  unfold claim
  split
  next i _ =>
      cases w.calls[i]? with
      | none => exact fun hturn ↦ by cases hturn
      | some call =>
          dsimp only [update]
          split
          · exact fun hturn ↦ by cases hturn
          · exact fun hturn ↦ by cases hturn
  next hturn => exact hturn id

theorem turn_operate (h : w.Lawful s) {id : Nat} (hturn : w.turn = .running id) :
    w.operate.turn = .idle := by
  have hid : id ∈ w.ids := by
    refine List.mem_append_left _ (List.mem_append_right _ ?_)
    rw [hturn]
    exact List.mem_singleton_self _
  rw [operate, hturn]
  dsimp only
  rw [List.getElem?_eq_getElem (h.bound id hid)]
  rfl

/-- What the writer has in hand it is done with in two steps. -/
theorem run_claim_operate (h : w.Lawful s) :
    (w.run [.claim, .operate]).turn = .idle ∧ (w.run [.claim, .operate]).queue = w.queue := by
  refine ⟨?_, queue_operate.trans queue_claim⟩
  change w.claim.operate.turn = .idle
  cases hturn : w.claim.turn with
  | idle =>
      rw [operate, hturn]
      exact hturn
  | holding id => exact absurd hturn (turn_claim id)
  | running id => exact turn_operate h.claim hturn

theorem run_append (actions actions' : List (WriterAction σ ρ)) :
    w.run (actions ++ actions') = (w.run actions).run actions' := List.foldl_append

theorem run_rounds (h : w.Lawful s) {n : Nat} (hn : w.queue.length ≤ n) :
    (w.run (rounds n)).Quiet := by
  have hidle : ∀ (m : Nat) (v : WriterWorld σ ρ), v.Lawful s → v.turn = .idle →
      v.queue.length ≤ m →
      (v.run (List.replicate m [.recv, .claim, .operate]).flatten).Quiet := by
    intro m
    induction m with
    | zero =>
        intro v _ hturn hlength
        exact ⟨hturn, List.eq_nil_of_length_eq_zero (Nat.le_zero.mp hlength)⟩
    | succ m ih =>
        intro v hv hturn hlength
        rw [List.replicate_succ, List.flatten_cons, run_append]
        have hdone := run_claim_operate hv.recv
        refine ih _ (hv.recv.run [.claim, .operate]) hdone.1 (hdone.2 ▸ ?_)
        rw [recv, hturn]
        cases hqueue : v.queue with
        | nil =>
            dsimp only
            rw [hqueue]
            exact Nat.zero_le m
        | cons id rest =>
            rw [hqueue] at hlength
            exact Nat.le_of_succ_le_succ hlength
  have hdone := run_claim_operate h
  rw [rounds, run_append]
  exact hidle n _ (h.run _) hdone.1 (hdone.2 ▸ hn)

/-- The actions that are the writer's alone. -/
def OfWriter (action : WriterAction σ ρ) : Prop :=
  action = .recv ∨ action = .claim ∨ action = .operate

theorem caller_update {changed : List Nat} {f : WriterCall σ ρ → WriterCall σ ρ}
    (hf : ∀ call, (f call).caller = call.caller) :
    ((w.update changed f).calls[id]?).map (·.caller) = (w.calls[id]?).map (·.caller) := by
  rw [getElem?_update, Option.map_map]
  congr 1
  funext call
  dsimp only [Function.comp_apply]
  split
  · exact hf call
  · rfl

/-- The writer's actions end neither the writer nor a wait. -/
theorem step_ofWriter (id : Nat) {action : WriterAction σ ρ} (haction : OfWriter action) :
    (w.step action).closed = w.closed ∧
      ((w.step action).calls[id]?).map (·.caller) = (w.calls[id]?).map (·.caller) := by
  rcases haction with rfl | rfl | rfl
  · rw [step, recv]
    split
    all_goals exact ⟨rfl, rfl⟩
  · rw [step, claim]
    split
    · refine ⟨rfl, caller_update fun call ↦ ?_⟩
      unfold WriterCall.claim
      split
      all_goals rfl
    · exact ⟨rfl, rfl⟩
  · rw [step, operate]
    split
    · split
      · exact ⟨rfl, caller_update fun _ ↦ rfl⟩
      · exact ⟨rfl, rfl⟩
    · exact ⟨rfl, rfl⟩

theorem run_ofWriter (id : Nat) {actions : List (WriterAction σ ρ)}
    (hactions : ∀ a ∈ actions, OfWriter a) :
    (w.run actions).closed = w.closed ∧
      ((w.run actions).calls[id]?).map (·.caller) = (w.calls[id]?).map (·.caller) := by
  induction actions generalizing w with
  | nil => exact ⟨rfl, rfl⟩
  | cons action actions ih =>
      have hrest := ih (w := w.step action) fun a ha ↦ hactions a (List.mem_cons_of_mem _ ha)
      have hstep := step_ofWriter (w := w) id (hactions action List.mem_cons_self)
      exact ⟨hrest.1.trans hstep.1, hrest.2.trans hstep.2⟩

theorem rounds_ofWriter (n : Nat) : ∀ a ∈ (rounds n : List (WriterAction σ ρ)), OfWriter a := by
  intro a ha
  simp only [rounds, List.mem_append, List.mem_flatten, List.mem_replicate, List.mem_cons,
    List.not_mem_nil, or_false] at ha
  obtain (rfl | rfl) | ⟨l, ⟨-, rfl⟩, ha⟩ := ha
  · exact .inr (.inl rfl)
  · exact .inr (.inr rfl)
  · simp only [List.mem_cons, List.not_mem_nil, or_false] at ha
    exact ha

/-- A call that the writer has been through is answered, refused or given up. -/
theorem Lawful.mem_ran (h : w.Lawful s) (hqueue : id ∉ w.queue) (hturn : id ∉ w.turn.ids)
    (hopen : ¬ w.closed) (hcall : w.calls[id]? = some call)
    (htold : ∀ e, call.caller ≠ .told (.error e)) : id ∈ w.ran := by
  have hlaw := h.calls id call hcall
  cases hresult : call.result with
  | empty => exact ((awaits_iff.mp (hlaw.empty.mp hresult)).elim hqueue hturn).elim
  | sent r => exact (hlaw.sent r hresult).mem
  | dropped =>
      obtain hclosed | ⟨e, he⟩ := (hlaw.dropped hresult).2
      · exact absurd hclosed hopen
      · exact absurd he (htold e)

/-! ## The place of a call -/

/-- The writer takes a mutation out of its channel. -/
def takes (w : WriterWorld σ ρ) : WriterAction σ ρ → Nat
  | .recv => if w.turn = .idle ∧ w.queue ≠ [] then 1 else 0
  | _ => 0

/-- The mutations that it takes in a run. -/
def taken : WriterWorld σ ρ → List (WriterAction σ ρ) → Nat
  | _, [] => 0
  | w, action :: actions => w.takes action + taken (w.step action) actions

theorem length_calls_step (action : WriterAction σ ρ) :
    w.calls.length ≤ (w.step action).calls.length := by
  cases action with
  | mutate operation =>
      rw [step, mutate]
      split_ifs
      all_goals
        rw [List.length_append]
        exact Nat.le_add_right _ _
  | recv =>
      rw [step, recv]
      split
      all_goals exact Nat.le_refl _
  | claim =>
      rw [step, claim]
      split
      · exact Nat.le_of_eq (length_update _ _).symm
      · exact Nat.le_refl _
  | operate =>
      rw [step, operate]
      split
      · split
        · exact Nat.le_of_eq (length_update _ _).symm
        · exact Nat.le_refl _
      · exact Nat.le_refl _
  | pass work =>
      rw [step, pass]
      split
      all_goals exact Nat.le_refl _
  | answer i => exact Nat.le_of_eq (length_update _ _).symm
  | expire i => exact Nat.le_of_eq (length_update _ _).symm
  | cancel i => exact Nat.le_of_eq (length_update _ _).symm
  | abandon i => exact Nat.le_of_eq (length_update _ _).symm
  | close =>
      rw [step, close]
      split
      · exact Nat.le_of_eq (length_update _ _).symm
      · exact Nat.le_refl _

theorem length_calls_run (actions : List (WriterAction σ ρ)) :
    w.calls.length ≤ (w.run actions).calls.length := by
  induction actions generalizing w with
  | nil => exact Nat.le_refl _
  | cons action actions ih => exact Nat.le_trans (length_calls_step action) ih

/-- A call that is in the channel after a step was there before it, so much further back as the
step took out. -/
theorem place_step (hid : id < w.calls.length) {action : WriterAction σ ρ} {place : Nat}
    (hplace : (w.step action).queue[place]? = some id) :
    w.queue[place + w.takes action]? = some id := by
  cases action with
  | mutate operation =>
      rw [step, mutate] at hplace
      split_ifs at hplace
      · exact hplace
      · exact hplace
      · rw [List.getElem?_append] at hplace
        split at hplace
        · exact hplace
        · obtain rfl := List.mem_singleton.mp (List.mem_of_getElem? hplace)
          exact absurd hid (Nat.lt_irrefl _)
  | recv =>
      rw [step, recv] at hplace
      split at hplace
      next id' rest hturn hqueue =>
          rw [takes, if_pos ⟨hturn, by rw [hqueue]; exact List.cons_ne_nil _ _⟩, hqueue]
          exact hplace
      next hnone =>
          have htakes : ¬(w.turn = .idle ∧ w.queue ≠ []) := by
            rintro ⟨hturn, hne⟩
            obtain ⟨id', rest, hqueue⟩ := List.exists_cons_of_ne_nil hne
            exact hnone id' rest hturn hqueue
          rw [takes, if_neg htakes]
          exact hplace
  | claim => rwa [step, queue_claim] at hplace
  | operate => rwa [step, queue_operate] at hplace
  | pass work =>
      rw [step, pass] at hplace
      split at hplace
      all_goals exact hplace
  | answer i => exact hplace
  | expire i => exact hplace
  | cancel i => exact hplace
  | abandon i => exact hplace
  | close =>
      rw [step, close] at hplace
      split at hplace
      · cases hplace
      · exact hplace

theorem place_run (hid : id < w.calls.length) {actions : List (WriterAction σ ρ)} {place : Nat}
    (hplace : (w.run actions).queue[place]? = some id) :
    w.queue[place + w.taken actions]? = some id := by
  induction actions generalizing w with
  | nil => exact hplace
  | cons action actions ih =>
      have hrest := ih (Nat.lt_of_lt_of_le hid (length_calls_step action)) hplace
      rw [taken, Nat.add_comm (w.takes action), ← Nat.add_assoc]
      exact place_step hid hrest

/-- The writer has been through the calls in front, and this one, once it took so many out. -/
theorem Lawful.not_mem_queue (h : w.Lawful s) {place : Nat} (hplace : w.queue[place]? = some id)
    {actions : List (WriterAction σ ρ)} (htaken : place < w.taken actions) :
    id ∉ (w.run actions).queue := by
  intro hmem
  obtain ⟨place', hplace'⟩ := List.mem_iff_getElem?.mp hmem
  have hid : id < w.calls.length :=
    h.bound id (List.mem_append_right _ (List.mem_of_getElem? hplace))
  have hnodup : w.queue.Nodup :=
    (List.pairwise_append.mp h.order).2.1.imp Nat.ne_of_lt
  have hlt := (List.getElem?_eq_some_iff.mp hplace).1
  have hsame := (List.getElem?_inj hlt hnodup).mp (hplace.trans (place_run hid hplace').symm)
  omega

/-- **The handshake of `mutate`.**  In every interleaving of callers, timers and the writer: the
store is what the writer ran, each operation once at most and in the order in which the channel
took them.  A caller that is told a result has had its operation run with it; one that is told
a failure never has it run, whatever comes.  While the writer goes on, every other one has it
run: the writer's own steps are enough for that, and whatever happens between them, a call with
`place` mutations in front of it is through once the writer took more than those. -/
theorem mutate_handshake (capacity : Nat) (s : σ) (actions : List (WriterAction σ ρ)) :
    let w := (start capacity s).run actions
    w.store = replay s w.log ∧ w.ran.Pairwise (· < ·) ∧
      ∀ id call, w.calls[id]? = some call →
        (∀ r, call.caller = .told (.ok r) → Answered s w.log id call.operation r) ∧
        (∀ e, call.caller = .told (.error e) → ∀ later, id ∉ (w.run later).ran) ∧
        (¬ w.closed → (∀ e, call.caller ≠ .told (.error e)) →
          ∀ n, w.queue.length ≤ n → id ∈ (w.run (rounds n)).ran) ∧
        (∀ place, w.queue[place]? = some id → ∀ later, place < w.taken later →
          ¬ (w.run later).closed → id ∉ (w.run later).turn.ids → id ∈ (w.run later).ran ∨
            ∃ call' e, (w.run later).calls[id]? = some call' ∧
              call'.caller = .told (.error e)) := by
  intro w
  have hw : w.Lawful s := (lawful_start capacity s).run actions
  have horder : w.ran.Pairwise (· < ·) :=
    hw.order.sublist ((List.sublist_append_left _ _).trans (List.sublist_append_left _ _))
  refine ⟨hw.store, horder, fun id call hcall ↦ ⟨fun r htold ↦ ?_, fun e htold later ↦ ?_, ?_,
    fun place hplace later htaken hopen hturn ↦ ?_⟩⟩
  · have hlaw := hw.calls id call hcall
    exact hlaw.sent r (hlaw.ok r htold)
  · obtain ⟨call', hcall', htold'⟩ := told_run hcall htold later
    exact ((hw.run later).calls id call' hcall').not_mem_ran htold'
  · intro hopen htold n hn
    obtain ⟨hclosed, hcaller⟩ := run_ofWriter (w := w) id (rounds_ofWriter n)
    rw [hcall] at hcaller
    obtain ⟨call', hcall', hsame⟩ := Option.map_eq_some_iff.mp hcaller
    have hquiet := run_rounds hw hn
    refine (hw.run (rounds n)).mem_ran (by rw [hquiet.2]; exact List.not_mem_nil)
      (by rw [hquiet.1]; exact List.not_mem_nil) (by rw [hclosed]; exact hopen) hcall' ?_
    exact fun e he ↦ htold e (hsame.symm.trans he)
  · have hid : id < (w.run later).calls.length :=
      Nat.lt_of_lt_of_le (List.getElem?_eq_some_iff.mp hcall).1 (length_calls_run later)
    by_cases htold : ∃ e, ((w.run later).calls.get ⟨id, hid⟩).caller = .told (.error e)
    · obtain ⟨e, he⟩ := htold
      exact .inr ⟨_, e, List.getElem?_eq_getElem hid, he⟩
    · exact .inl ((hw.run later).mem_ran (hw.not_mem_queue hplace htaken) hturn hopen
        (List.getElem?_eq_getElem hid) fun e he ↦ htold ⟨e, he⟩)

end Lemmas

end WriterWorld

end Kascov
