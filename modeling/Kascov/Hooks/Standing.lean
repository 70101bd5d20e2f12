import Kascov.Hooks.Webhooks
import Kascov.Writer.Handshake

/-!
# What removes a subscription

However the handlers, the delivery loop and the writer interleave: an id is given out once, and
a row stands as it was asked for until a request with its secret deletes it, or the loop does
after ten deliveries in a row that failed.
-/

namespace Kascov

/-! ## The table under requests -/

/-- The requests that delete a row. -/
def HookRequest.Removes (row : Subscription) : HookRequest → Prop
  | .subscribe .. => False
  | .unsubscribe id secret => id = row.id ∧ (row.secret = none ∨ secret = row.secret)
  | .retire id => id = row.id

/-- What a request that ran is in the writer's log. -/
def ranRequest (p : Nat × HookRequest) : Ran Subscriptions HookAnswer :=
  .mutation p.1 p.2.operation

section Table

variable {t : Subscriptions} {row : Subscription} {r : HookRequest}

theorem Subscriptions.mem_delete {id : Nat} :
    row ∈ (t.delete id).rows ↔ row ∈ t.rows ∧ row.id ≠ id := by
  rw [Subscriptions.delete, List.mem_filter, decide_eq_true_eq]

/-- An id is that of one row. -/
theorem Subscriptions.eq_of_id (t : Subscriptions) {row row' : Subscription} (hrow : row ∈ t.rows)
    (hrow' : row' ∈ t.rows) (hid : row.id = row'.id) : row = row' :=
  List.inj_on_of_nodup_map
    (List.pairwise_map.mpr (t.increasing.imp fun hlt ↦ Nat.ne_of_lt hlt)) hrow hrow' hid

/-- **A row stands until a request removes it.** -/
theorem HookRequest.keeps (hrow : row ∈ t.rows) (hr : ¬ r.Removes row) :
    row ∈ (r.operation t).1.rows := by
  cases r with
  | subscribe covenantId kind url secret nowMs =>
      rw [operation, Subscriptions.addSubscription]
      split
      · exact List.mem_append_left _ hrow
      · exact hrow
  | unsubscribe id secret =>
      rw [operation, Subscriptions.deleteSubscriptionSecured]
      split
      next => exact hrow
      next found hfound =>
          have hmem := List.mem_of_find?_eq_some hfound
          have hid : found.id = id := of_decide_eq_true
            (List.find?_some (p := fun row : Subscription ↦ decide (row.id = id)) hfound)
          -- a row of that id is the one that was found
          have hdeleted : found.secret = none ∨ secret = found.secret →
              row ∈ (t.delete id).rows := by
            intro hsecret
            refine Subscriptions.mem_delete.mpr ⟨hrow, fun heq ↦ hr ⟨heq.symm, ?_⟩⟩
            rw [t.eq_of_id hrow hmem (heq.trans hid.symm)]
            exact hsecret
          split
          next stored hstored =>
              split
              · exact hrow
              next hsame => exact hdeleted (.inr (by rw [hstored]; exact not_not.mp hsame))
          next hnone => exact hdeleted (.inl hnone)
  | retire id =>
      exact Subscriptions.mem_delete.mpr ⟨hrow, fun heq ↦ hr heq.symm⟩

theorem HookRequest.seq_le (r : HookRequest) (t : Subscriptions) :
    t.seq ≤ (r.operation t).1.seq := by
  cases r with
  | subscribe covenantId kind url secret nowMs =>
      rw [operation, Subscriptions.addSubscription]
      split
      · exact Nat.le_succ _
      · exact Nat.le_refl _
  | unsubscribe id secret =>
      rw [operation, Subscriptions.deleteSubscriptionSecured]
      split
      · exact Nat.le_refl _
      split
      · split
        · exact Nat.le_refl _
        · exact Nat.le_refl _
      · exact Nat.le_refl _
  | retire id => exact Nat.le_refl _

/-- An id that is given out is the next one, and its row is as asked for. -/
theorem HookRequest.added {id : Nat} (h : (r.operation t).2 = .added id) :
    ∃ covenantId kind url secret nowMs, r = .subscribe covenantId kind url secret nowMs ∧
      id = t.seq + 1 ∧ (r.operation t).1.seq = id ∧
      ⟨id, covenantId, kind, url, some secret, nowMs⟩ ∈ (r.operation t).1.rows := by
  cases r with
  | subscribe covenantId kind url secret nowMs =>
      refine ⟨covenantId, kind, url, secret, nowMs, rfl, ?_⟩
      rw [operation, Subscriptions.addSubscription] at h ⊢
      split at h
      next hlt =>
          cases h
          rw [if_pos hlt]
          exact ⟨rfl, rfl, List.mem_append_right _ (List.mem_singleton_self _)⟩
      next => cases h
  | unsubscribe id secret =>
      rw [operation, Subscriptions.deleteSubscriptionSecured] at h
      split at h
      · cases h
      split at h
      · split at h
        · cases h
        · cases h
      · cases h
  | retire id => cases h

theorem replay_append {σ ρ : Type} (s : σ) (log log' : List (Ran σ ρ)) :
    replay s (log ++ log') = replay (replay s log) log' := List.foldl_append

theorem replay_seq_le (t : Subscriptions) (ran : List (Nat × HookRequest)) :
    t.seq ≤ (replay t (ran.map ranRequest)).seq := by
  induction ran generalizing t with
  | nil => exact Nat.le_refl _
  | cons p ran ih => exact (p.2.seq_le t).trans (ih (p.2.operation t).1)

theorem replay_stands (hrow : row ∈ t.rows) (ran : List (Nat × HookRequest)) :
    row ∈ (replay t (ran.map ranRequest)).rows ∨ ∃ p ∈ ran, p.2.Removes row := by
  induction ran generalizing t with
  | nil => exact .inl hrow
  | cons p ran ih =>
      by_cases hp : p.2.Removes row
      · exact .inr ⟨p, List.mem_cons_self, hp⟩
      · rcases ih (HookRequest.keeps hrow hp) with h | ⟨q, hq, h⟩
        · exact .inl h
        · exact .inr ⟨q, List.mem_cons_of_mem _ hq, h⟩

end Table

/-! ## What the writer does to its calls -/

namespace WriterWorld

section Calls

variable {σ ρ : Type} {w : WriterWorld σ ρ}

theorem operations_update {changed : List Nat} {f : WriterCall σ ρ → WriterCall σ ρ}
    (hf : ∀ call, (f call).operation = call.operation) :
    (w.update changed f).calls.map (·.operation) = w.calls.map (·.operation) := by
  refine List.ext_getElem? fun i ↦ ?_
  rw [List.getElem?_map, List.getElem?_map, getElem?_update, Option.map_map]
  congr 1
  funext call
  dsimp only [Function.comp_apply]
  split
  · exact hf call
  · rfl

theorem operations_mutate (operation : σ → σ × ρ) :
    (w.mutate operation).calls.map (·.operation) = w.calls.map (·.operation) ++ [operation] := by
  unfold mutate
  split
  · exact List.map_append
  split
  · exact List.map_append
  · exact List.map_append

theorem log_mutate (operation : σ → σ × ρ) : (w.mutate operation).log = w.log := by
  unfold mutate
  split
  · rfl
  split
  · rfl
  · rfl

theorem operation_poll (call : WriterCall σ ρ) : call.poll.operation = call.operation := by
  unfold WriterCall.poll
  split
  all_goals rfl

/-- Whatever is done to the calls leaves their operations. -/
theorem operations_step {action : WriterAction σ ρ} (h : action.Internal) :
    (w.step action).calls.map (·.operation) = w.calls.map (·.operation) := by
  cases action with
  | mutate operation => cases h
  | pass work => cases h
  | recv =>
      rw [step, recv]
      split
      all_goals rfl
  | claim =>
      rw [step, claim]
      split
      · refine operations_update fun call ↦ ?_
        unfold WriterCall.claim
        split
        all_goals rfl
      · rfl
  | operate =>
      rw [step, operate]
      split
      · split
        · exact operations_update fun _ ↦ rfl
        · rfl
      · rfl
  | answer id =>
      refine operations_update fun call ↦ ?_
      unfold WriterCall.answer
      split
      · exact operation_poll call
      · exact operation_poll call
      · rfl
  | expire id =>
      refine operations_update fun call ↦ ?_
      unfold WriterCall.expire
      split
      · rfl
      · exact operation_poll call
      · rfl
  | cancel id =>
      refine operations_update fun call ↦ ?_
      unfold WriterCall.cancel
      split
      all_goals rfl
  | abandon id =>
      refine operations_update fun call ↦ ?_
      unfold WriterCall.abandon
      split
      all_goals rfl
  | close =>
      rw [step, close]
      split
      · exact operations_update fun _ ↦ rfl
      · rfl

/-- What is logged is the operation of a call. -/
theorem log_step {action : WriterAction σ ρ} (h : action.Internal) :
    (w.step action).log = w.log ∨ ∃ id call, w.calls[id]? = some call ∧
      (w.step action).log = w.log ++ [.mutation id call.operation] := by
  cases action with
  | mutate operation => cases h
  | pass work => cases h
  | recv =>
      rw [step, recv]
      split
      all_goals exact .inl rfl
  | claim =>
      rw [step, claim]
      split
      all_goals exact .inl rfl
  | operate =>
      rw [step, operate]
      split
      next id _ =>
          split
          next call hcall => exact .inr ⟨id, call, hcall, rfl⟩
          next => exact .inl rfl
      next => exact .inl rfl
  | answer id => exact .inl rfl
  | expire id => exact .inl rfl
  | cancel id => exact .inl rfl
  | abandon id => exact .inl rfl
  | close =>
      rw [step, close]
      split
      all_goals exact .inl rfl

end Calls

end WriterWorld

/-! ## What holds of the hooks -/

/-- The last deliveries to an id failed, so many. -/
def FailedLast (n id : Nat) (deliveries : List (Nat × Bool)) : Prop :=
  ∃ before, deliveries.filter (·.1 = id) = before ++ List.replicate n (id, false)

namespace HookWorld

/-- The writer, its requests and the loop agree. -/
structure Law (table : Subscriptions) (w : HookWorld) : Prop where
  lawful : w.writer.Lawful table
  requests : w.writer.calls.map (·.operation) = w.requests.map HookRequest.operation
  log : ∃ ran : List (Nat × HookRequest), w.writer.log = ran.map ranRequest ∧
    ∀ p ∈ ran, w.requests[p.1]? = some p.2
  failing : ∀ id n, w.failures.get? id = some n → FailedLast n id w.deliveries
  retired : ∀ id, .retire id ∈ w.requests →
    ∃ front, front <+: w.deliveries ∧ FailedLast webhookMaxFailures id front

section Lemmas

variable {table : Subscriptions} {w : HookWorld}

theorem failedLast_other {n id id' : Nat} {deliveries : List (Nat × Bool)} {delivered : Bool}
    (h : FailedLast n id deliveries) (hne : id' ≠ id) :
    FailedLast n id (deliveries ++ [(id', delivered)]) := by
  obtain ⟨before, hbefore⟩ := h
  refine ⟨before, ?_⟩
  rw [List.filter_append, hbefore, List.filter_cons_of_neg (by simpa using hne), List.filter_nil,
    List.append_nil]

theorem failedLast_more {n id : Nat} {deliveries : List (Nat × Bool)}
    (h : FailedLast n id deliveries) : FailedLast (n + 1) id (deliveries ++ [(id, false)]) := by
  obtain ⟨before, hbefore⟩ := h
  refine ⟨before, ?_⟩
  rw [List.filter_append, hbefore, List.replicate_succ', List.append_assoc]
  simp

theorem failedLast_le {m n id : Nat} {deliveries : List (Nat × Bool)}
    (h : FailedLast n id deliveries) (hle : m ≤ n) : FailedLast m id deliveries := by
  obtain ⟨before, hbefore⟩ := h
  refine ⟨before ++ List.replicate (n - m) (id, false), ?_⟩
  rw [hbefore, List.append_assoc, List.replicate_append_replicate, Nat.sub_add_cancel hle]

theorem failedLast_zero (id : Nat) (deliveries : List (Nat × Bool)) :
    FailedLast 0 id deliveries := ⟨_, (List.append_nil _).symm⟩

theorem law_start (capacity : Nat) (table : Subscriptions) : (start capacity table).Law table where
  lawful := WriterWorld.lawful_start capacity table
  requests := rfl
  log := ⟨[], rfl, List.forall_mem_nil _⟩
  failing id n h := by cases h
  retired id h := absurd h List.not_mem_nil

/-- What the writer's log has stays where the requests are kept. -/
theorem Law.request (h : w.Law table) (r : HookRequest)
    (hr : ∀ id, r = .retire id →
      ∃ front, front <+: w.deliveries ∧ FailedLast webhookMaxFailures id front) :
    (w.request r).Law table where
  lawful := h.lawful.mutate r.operation
  requests := by
    refine (WriterWorld.operations_mutate r.operation).trans ?_
    rw [h.requests, show (w.request r).requests = w.requests ++ [r] from rfl, List.map_append,
      List.map_singleton]
  log := by
    obtain ⟨ran, hlog, hran⟩ := h.log
    refine ⟨ran, (WriterWorld.log_mutate r.operation).trans hlog, fun p hp ↦ ?_⟩
    exact (List.getElem?_append_left (List.getElem?_eq_some_iff.mp (hran p hp)).1).trans (hran p hp)
  failing := h.failing
  retired id hmem := by
    rcases List.mem_append.mp hmem with hmem | hmem
    · exact h.retired id hmem
    · exact hr id (List.mem_singleton.mp hmem).symm

/-- The writer and the callers move. -/
theorem Law.writer (h : w.Law table) {action : WriterAction Subscriptions HookAnswer}
    (internal : action.Internal) : ({ w with writer := w.writer.step action } : HookWorld).Law table
    where
  lawful := h.lawful.step action
  requests := (WriterWorld.operations_step internal).trans h.requests
  log := by
    obtain ⟨ran, hlog, hran⟩ := h.log
    rcases WriterWorld.log_step (w := w.writer) internal with hsame | ⟨id, call, hcall, hmore⟩
    · exact ⟨ran, hsame.trans hlog, hran⟩
    · have hrequest : (w.requests.map HookRequest.operation)[id]? = some call.operation := by
        rw [← h.requests, List.getElem?_map, hcall]
        rfl
      rw [List.getElem?_map] at hrequest
      obtain ⟨r, hr, hoperation⟩ := Option.map_eq_some_iff.mp hrequest
      refine ⟨ran ++ [(id, r)], ?_, fun p hp ↦ ?_⟩
      · rw [hmore, hlog, List.map_append, ← hoperation]
        rfl
      · rcases List.mem_append.mp hp with hp | hp
        · exact hran p hp
        · exact List.mem_singleton.mp hp ▸ hr
  failing := h.failing
  retired := h.retired

/-- The loop moves without a delivery. -/
theorem Law.loop (h : w.Law table) (pending : List Subscription) (retiring : Option Nat) :
    ({ w with pending, retiring } : HookWorld).Law table := ⟨h.lawful, h.requests, h.log,
  h.failing, h.retired⟩

/-- **A delivery.**  The count of a row is that of its last failures. -/
theorem Law.deliver (h : w.Law table) (allowed : Bool) (posts : List Bool) :
    (w.deliver allowed posts).Law table := by
  unfold HookWorld.deliver
  split
  next row rest hpending hretiring =>
      dsimp only
      have hretired : ∀ delivered id, .retire id ∈ w.requests → ∃ front,
          front <+: w.deliveries ++ [(row.id, delivered)] ∧
            FailedLast webhookMaxFailures id front := by
        intro delivered id hmem
        obtain ⟨front, hfront, hfailed⟩ := h.retired id hmem
        exact ⟨front, hfront.trans (List.prefix_append _ _), hfailed⟩
      -- a count of another row is left alone
      have hother : ∀ delivered id n, id ≠ row.id → w.failures.get? id = some n →
          FailedLast n id (w.deliveries ++ [(row.id, delivered)]) := fun delivered id n hne hget ↦
        failedLast_other (h.failing id n hget) (Ne.symm hne)
      have hcount : FailedLast ((w.failures.get? row.id).getD 0 + 1) row.id
          (w.deliveries ++ [(row.id, false)]) := by
        refine failedLast_more ?_
        cases hget : w.failures.get? row.id with
        | none => exact failedLast_zero _ _
        | some n => exact h.failing row.id n hget
      have herased : ∀ delivered id n, (w.failures.erase row.id).get? id = some n →
          FailedLast n id (w.deliveries ++ [(row.id, delivered)]) := by
        intro delivered id n hget
        obtain ⟨hne, hget⟩ := InsertionMap.get?_of_erase hget
        exact hother delivered id n hne hget
      cases hdelivered : deliverWebhook allowed posts with
      | true =>
          exact ⟨h.lawful, h.requests, h.log, herased true, hretired true⟩
      | false =>
          rw [if_neg Bool.false_ne_true]
          split
          next hmax =>
              have herase : ({ w with
                  pending := rest
                  deliveries := w.deliveries ++ [(row.id, false)]
                  failures := w.failures.erase row.id
                  retiring := some w.requests.length } : HookWorld).Law table :=
                ⟨h.lawful, h.requests, h.log, herased false, hretired false⟩
              refine herase.request (.retire row.id) fun id hid ↦ ?_
              obtain rfl : row.id = id := HookRequest.retire.inj hid
              exact ⟨_, List.prefix_refl _, failedLast_le hcount hmax⟩
          next =>
              refine ⟨h.lawful, h.requests, h.log, fun id n hget ↦ ?_, hretired false⟩
              rcases InsertionMap.get?_of_set hget with ⟨rfl, rfl⟩ | ⟨hne, hget⟩
              · exact hcount
              · exact hother false id n hne hget
  next => exact h

/-- A handler asks for no retirement. -/
theorem subscribeHandler_ne {req : SubscribeReq} {secret : String} {nowMs : Nat} {r : HookRequest}
    (h : subscribeHandler req secret nowMs = .ok r) (id : Nat) : r ≠ .retire id := by
  unfold subscribeHandler at h
  split at h
  · cases h
  split at h
  · cases h
  split at h
  · cases h
    exact HookRequest.noConfusion
  split at h
  · split at h
    · cases h
      exact HookRequest.noConfusion
    · cases h
  · cases h

/-- **One step.** -/
theorem Law.step (h : w.Law table) (action : HookAction) : (w.step action).Law table := by
  cases action with
  | subscribe req secret nowMs =>
      rw [HookWorld.step]
      split
      next r hr => exact h.request r fun id hid ↦ absurd hid (subscribeHandler_ne hr id)
      next => exact h
  | unsubscribe id secret =>
      refine h.request _ fun id' hid ↦ ?_
      cases hid
  | event covenantId kind =>
      rw [HookWorld.step, event]
      split
      · exact h.loop _ w.retiring
      · exact h
  | deliver allowed posts => exact h.deliver allowed posts
  | resume =>
      rw [HookWorld.step, resume]
      split
      · split
        · exact h.loop w.pending none
        · exact h
      · exact h
  | writer action internal => exact h.writer internal

theorem Law.run (h : w.Law table) (actions : List HookAction) : (w.run actions).Law table := by
  induction actions generalizing w with
  | nil => exact h
  | cons action actions ih => exact ih (h.step action)

/-- A caller that was told an answer had its request run, with that answer. -/
theorem Law.told (h : w.Law table) {ran : List (Nat × HookRequest)}
    (hlog : w.writer.log = ran.map ranRequest) {i : Nat} {answer : HookAnswer}
    (htold : w.Told i answer) : ∃ r before after, ran = before ++ (i, r) :: after ∧
      (r.operation (replay table (before.map ranRequest))).2 = answer := by
  obtain ⟨call, hcall, htold⟩ := htold
  have hlaw := h.lawful.calls i call hcall
  obtain ⟨before, after, hsplit, hanswer⟩ := hlaw.sent answer (hlaw.ok answer htold)
  obtain ⟨front, back, rfl, rfl, hback⟩ := List.map_eq_append_iff.mp (hlog.symm.trans hsplit)
  obtain ⟨p, after', rfl, hp, rfl⟩ := List.map_eq_cons_iff.mp hback
  obtain ⟨rfl, hoperation⟩ := Ran.mutation.inj hp
  exact ⟨p.2, front, after', rfl, hoperation ▸ hanswer⟩

/-- An id that was given out is not given out again. -/
theorem not_added {id i : Nat} {r r' : HookRequest} {before mid : List (Nat × HookRequest)}
    (hadded : (r.operation (replay table (before.map ranRequest))).2 = .added id)
    (hadded' : (r'.operation
      (replay table ((before ++ (i, r) :: mid).map ranRequest))).2 = .added id) : False := by
  obtain ⟨_, _, _, _, _, -, -, hseq, -⟩ := HookRequest.added hadded
  obtain ⟨_, _, _, _, _, -, hnext, -, -⟩ := HookRequest.added hadded'
  rw [List.map_append, List.map_cons, replay_append] at hnext
  have hle := replay_seq_le (r.operation (replay table (before.map ranRequest))).1 mid
  rw [hseq] at hle
  have hlt : id < id := Nat.lt_of_le_of_lt hle (Nat.lt_of_lt_of_eq (Nat.lt_succ_self _) hnext.symm)
  exact Nat.lt_irrefl id hlt

/-- **A subscription stands.**  However the handlers, the delivery loop and the writer interleave:
an id that a handler was told is that of its own row, which nobody else is told; and the row is in
the table as it was asked for, unless a request that names it and has its secret ran, or the
delivery loop had it deleted, after ten deliveries to it that failed in a row. -/
theorem subscription_stands (capacity : Nat) (table : Subscriptions) (actions : List HookAction) :
    let w := (start capacity table).run actions
    (∀ i j id, w.Told i (.added id) → w.Told j (.added id) → i = j) ∧
      ∀ i id, w.Told i (.added id) → ∃ covenantId kind url secret nowMs,
        w.requests[i]? = some (.subscribe covenantId kind url secret nowMs) ∧
        (⟨id, covenantId, kind, url, some secret, nowMs⟩ ∈ w.writer.store.rows ∨
          (∃ j ∈ w.writer.ran, w.requests[j]? = some (.unsubscribe id (some secret))) ∨
          (∃ j ∈ w.writer.ran, w.requests[j]? = some (.retire id)) ∧
            ∃ front, front <+: w.deliveries ∧ FailedLast webhookMaxFailures id front) := by
  intro w
  have hw : w.Law table := (law_start capacity table).run actions
  obtain ⟨ran, hlog, hran⟩ := hw.log
  refine ⟨fun i j id hi hj ↦ ?_, fun i id hi ↦ ?_⟩
  · obtain ⟨r, before, after, hsplit, hadded⟩ := hw.told hlog hi
    obtain ⟨r', before', after', hsplit', hadded'⟩ := hw.told hlog hj
    obtain ⟨mid, hmid, hrest⟩ | ⟨mid, hmid, hrest⟩ :=
      List.append_eq_append_iff.mp (hsplit.symm.trans hsplit')
    · cases mid with
      | nil => exact (Prod.mk.inj (List.cons.inj hrest).1).1
      | cons p mid =>
          obtain ⟨rfl, -⟩ := List.cons.inj hrest
          rw [hmid] at hadded'
          exact (not_added hadded hadded').elim
    · cases mid with
      | nil => exact (Prod.mk.inj (List.cons.inj hrest).1).1.symm
      | cons p mid =>
          obtain ⟨rfl, -⟩ := List.cons.inj hrest
          rw [hmid] at hadded
          exact (not_added hadded' hadded).elim
  · obtain ⟨r, before, after, rfl, hadded⟩ := hw.told hlog hi
    obtain ⟨covenantId, kind, url, secret, nowMs, rfl, -, -, hrow⟩ := HookRequest.added hadded
    refine ⟨covenantId, kind, url, secret, nowMs,
      hran _ (List.mem_append_right _ List.mem_cons_self), ?_⟩
    have hstore : w.writer.store = replay ((HookRequest.subscribe covenantId kind url secret
        nowMs).operation (replay table (before.map ranRequest))).1 (after.map ranRequest) := by
      rw [hw.lawful.store, hlog, List.map_append, replay_append]
      rfl
    rw [hstore]
    refine (replay_stands hrow after).imp_right ?_
    rintro ⟨p, hp, hremoves⟩
    have hrequest := hran p (List.mem_append_right _ (List.mem_cons_of_mem _ hp))
    have hmem : p.1 ∈ w.writer.ran := by
      refine List.mem_filterMap.mpr ⟨ranRequest p, ?_, rfl⟩
      rw [hlog]
      exact List.mem_map_of_mem (List.mem_append_right _ (List.mem_cons_of_mem _ hp))
    cases hp2 : p.2 with
    | subscribe _ _ _ _ _ =>
        rw [hp2] at hremoves
        exact hremoves.elim
    | unsubscribe id' secret' =>
        rw [hp2] at hremoves hrequest
        obtain ⟨rfl, hnone | hsecret⟩ := hremoves
        · cases hnone
        · obtain rfl : secret' = some secret := hsecret
          exact .inl ⟨p.1, hmem, hrequest⟩
    | retire id' =>
        rw [hp2] at hremoves hrequest
        obtain rfl : id' = id := hremoves
        exact .inr ⟨⟨p.1, hmem, hrequest⟩, hw.retired id' (List.mem_of_getElem? hrequest)⟩

end Lemmas

end HookWorld

end Kascov
