import Kascov.Web.Reconcile
import Kascov.Web.TakeOver

/-!
# What the page has heard

What the page has heard of a transaction since it asked is what its model holds of it, and
what it has not heard of is in the snapshot as it is at the server.  Every step but an answer
keeps this; the answer, which puts the two together, is the next module's.
-/

namespace Kascov

namespace PendingPage

variable {o : PendingOptions} {p p' : PendingPage} {x : String}

/-! ## The last message about a transaction -/

section LastAbout

variable {message : PendingMessage} {messages : List PendingMessage}

@[simp] theorem lastAbout_nil : lastAbout x [] = none := rfl

theorem lastAbout_concat_self : lastAbout message.txid (messages ++ [message]) = some message := by
  rw [lastAbout, List.filter_append, List.filter_singleton, decide_eq_true rfl]
  exact List.getLast?_concat

theorem lastAbout_concat_ne (hx : x ≠ message.txid) :
    lastAbout x (messages ++ [message]) = lastAbout x messages := by
  rw [lastAbout, List.filter_append, List.filter_singleton,
    decide_eq_false fun h ↦ hx (Eq.symm h), cond_false, List.append_nil, lastAbout]

theorem lastAbout_cons_ne (hx : x ≠ message.txid) :
    lastAbout x (message :: messages) = lastAbout x messages := by
  rw [lastAbout, List.filter_cons_of_neg (by simpa using Ne.symm hx), lastAbout]

theorem lastAbout_cons_self :
    lastAbout message.txid (message :: messages) =
      (lastAbout message.txid messages).or (some message) := by
  rw [lastAbout, List.filter_cons_of_pos (by simp), lastAbout]
  cases hrest : messages.filter (·.txid = message.txid) with
  | nil => rfl
  | cons a rest => rw [List.getLast?_cons_cons, List.getLast?_cons, Option.some_or]

theorem lastAbout_eq_none_iff :
    lastAbout x messages = none ↔ messages.any (·.txid = x) = false := by
  rw [lastAbout, List.getLast?_eq_none_iff, List.filter_eq_nil_iff, List.any_eq_false]

end LastAbout

/-! ## The law of the page -/

/-- What the model holds of a transaction, by the last message about it since version `s`. -/
def Told (s : Nat) (m : PendingModel) (x : String) : Option PendingMessage → Prop
  | some (.pending _) => ∃ e, m.entries.get? x = some e ∧ e.unresolved = true ∧ s < e.version
  | some (.resolved _) =>
      (∃ e, m.entries.get? x = some e ∧ e.unresolved = false ∧ s < e.version) ∨
        m.entries.get? x = none ∧ m.Hidden s x
  | none => ¬ m.Later s x

/-- A version that an answer that is on its way does not need. -/
def Spare (p : PendingPage) (version : Nat) : Prop := p.waiting = true → version ≤ p.since

structure Law (o : PendingOptions) (p : PendingPage) : Prop where
  model : p.model.Law o
  since_le : p.since ≤ p.model.mutation
  named : "" ∉ p.server
  sent : ∀ message ∈ p.inFlight, message.txid ≠ ""
  down : p.connected = false → p.inFlight = [] ∧ p.anchored = false
  ids : ∀ r ∈ p.requests, r.ticket.id ≤ p.model.reconcileId
  latest : ∀ r ∈ p.requests, r.ticket.id = p.model.reconcileId → r.ticket.version = p.since
  /-- The last message on the way is about what the server has. -/
  flight : ∀ x, ∀ message ∈ lastAbout x p.inFlight, (message.announces = true ↔ x ∈ p.server)
  told : p.waiting = true → ∀ x, Told p.since p.model x (lastAbout x p.heard)
  truth : p.anchored = true → ∀ x, lastAbout x p.inFlight = none →
    ∀ message ∈ lastAbout x p.heard, (message.announces = true ↔ x ∈ p.server)
  /-- A tombstone that no message since the request explains hides nothing. -/
  hidden : p.anchored = true → p.waiting = true → ∀ x, lastAbout x p.inFlight = none →
    lastAbout x p.heard = none → p.model.Hidden p.since x → x ∉ p.server
  taken : p.anchored = true → ∀ r ∈ p.requests, r.ticket.id = p.model.reconcileId →
    ∀ rows ∈ r.snapshot, ∀ x, lastAbout x p.inFlight = none → lastAbout x p.heard = none →
      (x ∈ rows.map PendingFrame.txid ↔ x ∈ p.server)
  synced : p.anchored = true → p.answered = true → ∀ x, lastAbout x p.inFlight = none →
    (p.Shows x ↔ x ∈ p.server)

theorem Law.initial : Law o {} where
  model := .initial
  since_le := Nat.le_refl _
  named := List.not_mem_nil
  sent _ h := absurd h List.not_mem_nil
  down _ := ⟨rfl, rfl⟩
  ids _ h := absurd h List.not_mem_nil
  latest _ h := absurd h List.not_mem_nil
  flight _ _ h := by cases h
  told h := by cases h
  truth h := by cases h
  hidden h := by cases h
  taken h := by cases h
  synced h := by cases h

/-- Something is on its way, or nothing can be: the stream is up wherever it matters. -/
theorem Law.connected (h : Law o p) (hanchored : p.anchored = true) : p.connected = true := by
  cases hc : p.connected with
  | true => rfl
  | false => rw [(h.down hc).2] at hanchored; cases hanchored

/-! ## The other transactions of a message -/

section Keeps

variable {m' : PendingModel} {s : Nat} {last : Option PendingMessage}

theorem later_of_keeps (h : PendingModel.Keeps p.Spare x p.model m')
    (hlater : m'.Later s x) : p.model.Later s x := by
  obtain ⟨e, he, hs⟩ := hlater
  obtain hrow | ⟨hrow, -⟩ := h.row
  · exact ⟨e, hrow ▸ he, hs⟩
  · rw [hrow] at he
    cases he

theorem hidden_of_keeps (h : PendingModel.Keeps p.Spare x p.model m')
    (hhidden : m'.Hidden s x) : p.model.Hidden s x := by
  obtain ⟨v, hv, hs⟩ := hhidden
  obtain hstone | ⟨hstone, -⟩ := h.stone
  · exact ⟨v, hstone ▸ hv, hs⟩
  · rw [hstone] at hv
    cases hv

/-- A row that is needed is still there. -/
theorem row_of_keeps (h : PendingModel.Keeps p.Spare x p.model m') (hwaiting : p.waiting = true)
    {e : RowEntry} (he : p.model.entries.get? x = some e) (hs : p.since < e.version) :
    m'.entries.get? x = some e := by
  obtain hrow | ⟨-, e', he', -, hspare⟩ := h.row
  · exact hrow.trans he
  · rw [he] at he'
    cases he'
    exact absurd (hspare hwaiting) (Nat.not_le.mpr hs)

theorem Told.of_keeps (htold : Told p.since p.model x last) (hwaiting : p.waiting = true)
    (h : PendingModel.Keeps p.Spare x p.model m') : Told p.since m' x last := by
  match last, htold with
  | none, htold => exact fun hlater ↦ htold (later_of_keeps h hlater)
  | some (.pending _), ⟨e, he, hun, hs⟩ => exact ⟨e, row_of_keeps h hwaiting he hs, hun, hs⟩
  | some (.resolved _), .inl ⟨e, he, hun, hs⟩ =>
      exact .inl ⟨e, row_of_keeps h hwaiting he hs, hun, hs⟩
  | some (.resolved _), .inr ⟨hnone, v, hv, hs⟩ =>
      refine .inr ⟨?_, v, ?_, hs⟩
      · obtain hrow | ⟨hrow, -⟩ := h.row
        · exact hrow.trans hnone
        · exact hrow
      · obtain hstone | ⟨-, v', hv', hspare⟩ := h.stone
        · exact hstone.trans hv
        · rw [hv] at hv'
          cases hv'
          exact absurd (hspare hwaiting) (Nat.not_le.mpr hs)

theorem shows_of_keeps (h : PendingModel.Keeps p.Spare x p.model p'.model) :
    p'.Shows x ↔ p.Shows x := by
  rw [Shows, Shows]
  obtain hrow | ⟨hnone, e, he, hun, -⟩ := h.row
  · rw [hrow]
  · rw [hnone, he]
    constructor
    · rintro ⟨_, h, -⟩
      cases h
    · rintro ⟨_, h, hshown⟩
      cases h
      exact absurd (hun.symm.trans hshown) Bool.false_ne_true

end Keeps

/-! ## The steps -/

/-- A change at the server, of which the stream carries the message. -/
theorem Law.send (h : Law o p) (message : PendingMessage) {server : List String}
    (htxid : message.txid ≠ "") (hself : message.announces = true ↔ message.txid ∈ server)
    (hne : ∀ x, x ≠ message.txid → (x ∈ server ↔ x ∈ p.server)) :
    Law o ({ p with server }.send message) := by
  have hnamed : "" ∉ server := fun hmem ↦ h.named ((hne "" (Ne.symm htxid)).mp hmem)
  rw [PendingPage.send]
  dsimp only
  split
  · -- what is said of the last message is new for this transaction only
    have hnone {x : String} (hlast : lastAbout x (p.inFlight ++ [message]) = none) :
        lastAbout x p.inFlight = none ∧ (x ∈ server ↔ x ∈ p.server) := by
      by_cases hx : x = message.txid
      · rw [hx, lastAbout_concat_self] at hlast
        cases hlast
      · rw [lastAbout_concat_ne hx] at hlast
        exact ⟨hlast, hne x hx⟩
    refine ⟨h.model, h.since_le, hnamed, fun message' hmem ↦ ?_, fun hc ↦ ?_, h.ids, h.latest,
      fun x message' hlast ↦ ?_, h.told, fun ha x hlast ↦ ?_, fun ha hw x hlast hheard hhidden ↦ ?_,
      fun ha r hr hid rows hrows x hlast hheard ↦ ?_, fun ha hans x hlast ↦ ?_⟩
    · obtain hmem | hmem := List.mem_append.mp hmem
      · exact h.sent _ hmem
      · exact List.mem_singleton.mp hmem ▸ htxid
    · rename_i hup
      exact absurd (hup.symm.trans hc) Bool.false_ne_true.symm
    · by_cases hx : x = message.txid
      · rw [hx] at hlast ⊢
        rw [lastAbout_concat_self, Option.mem_some_iff] at hlast
        exact hlast ▸ hself
      · rw [lastAbout_concat_ne hx] at hlast
        exact (h.flight x message' hlast).trans (hne x hx).symm
    · obtain ⟨hold, hiff⟩ := hnone hlast
      exact fun message' hheard ↦ (h.truth ha x hold message' hheard).trans hiff.symm
    · obtain ⟨hold, hiff⟩ := hnone hlast
      exact fun hmem ↦ h.hidden ha hw x hold hheard hhidden (hiff.mp hmem)
    · obtain ⟨hold, hiff⟩ := hnone hlast
      exact (h.taken ha r hr hid rows hrows x hold hheard).trans hiff.symm
    · obtain ⟨hold, hiff⟩ := hnone hlast
      exact (h.synced ha hans x hold).trans hiff.symm
  · rename_i hdown
    have hdown : p.connected = false := (Bool.not_eq_true _).mp hdown
    obtain ⟨hflight, hanchored⟩ := h.down hdown
    have hne : ¬ p.anchored = true := by rw [hanchored]; exact Bool.false_ne_true
    refine ⟨h.model, h.since_le, hnamed, h.sent, h.down, h.ids, h.latest,
      fun x message' hlast ↦ ?_, h.told, fun ha ↦ absurd ha hne, fun ha ↦ absurd ha hne,
      fun ha ↦ absurd ha hne, fun ha ↦ absurd ha hne⟩
    dsimp only at hlast
    rw [hflight, lastAbout_nil] at hlast
    cases hlast

/-- A request hears nothing yet. -/
theorem Law.request (h : Law o p) {p' : PendingPage} (hstep : p.step o .request = .ok p') :
    Law o p' := by
  cases hstep
  have hlater (x : String) : ¬ p.model.Later p.model.mutation x := by
    rintro ⟨e, he, hlt⟩
    exact Nat.not_lt.mpr (h.model.rowVersion he) hlt
  refine ⟨h.model.beginReconcile, Nat.le_refl _, h.named, h.sent, fun hc ↦ ⟨(h.down hc).1, hc⟩,
    fun r hr ↦ ?_, fun r hr hid ↦ ?_, h.flight, fun _ x ↦ hlater x, fun _ x _ message hheard ↦ ?_,
    fun _ _ x _ _ ⟨v, hv, hlt⟩ ↦ ?_, fun _ r hr hid rows hrows ↦ ?_, fun _ hans ↦ ?_⟩
  · obtain hr | hr := List.mem_append.mp hr
    · exact Nat.le_succ_of_le (h.ids r hr)
    · exact Nat.le_of_eq (congrArg (·.ticket.id) (List.mem_singleton.mp hr))
  · obtain hr | hr := List.mem_append.mp hr
    · exact absurd hid (Nat.ne_of_lt (Nat.lt_succ_of_le (h.ids r hr)))
    · rw [List.mem_singleton.mp hr]
  · cases hheard
  · exact absurd hlt (Nat.not_lt.mpr (h.model.stoneVersion hv))
  · obtain hr | hr := List.mem_append.mp hr
    · exact absurd hid (Nat.ne_of_lt (Nat.lt_succ_of_le (h.ids r hr)))
    · rw [List.mem_singleton.mp hr] at hrows
      cases hrows
  · cases hans

/-- A snapshot is what the server has. -/
theorem Law.serve (h : Law o p) {id : Nat} {rows : List PendingFrame}
    (hrows : ∀ x, x ∈ rows.map PendingFrame.txid ↔ x ∈ p.server) :
    Law o { p with requests := p.requests.map fun r ↦
      if r.ticket.id = id ∧ r.snapshot = none then { r with snapshot := some rows } else r } := by
  have hticket (r : SnapshotRequest) : (if r.ticket.id = id ∧ r.snapshot = none then
      { r with snapshot := some rows } else r).ticket = r.ticket := by
    split
    · rfl
    · rfl
  have hwaiting : ({ p with requests := p.requests.map fun r ↦
      if r.ticket.id = id ∧ r.snapshot = none then { r with snapshot := some rows } else r } :
        PendingPage).waiting = p.waiting := by
    rw [waiting, waiting, List.any_map]
    refine congrArg (p.requests.any ·) (funext fun r ↦ ?_)
    rw [Function.comp_apply, hticket]
  refine ⟨h.model, h.since_le, h.named, h.sent, h.down, fun r hr ↦ ?_, fun r hr hid ↦ ?_, h.flight,
    fun hw ↦ h.told (hwaiting ▸ hw), h.truth, fun ha hw ↦ h.hidden ha (hwaiting ▸ hw),
    fun ha r hr hid rows' hrows' ↦ ?_, h.synced⟩
  · obtain ⟨r, hmem, rfl⟩ := List.mem_map.mp hr
    rw [hticket]
    exact h.ids r hmem
  · obtain ⟨r, hmem, rfl⟩ := List.mem_map.mp hr
    rw [hticket] at hid ⊢
    exact h.latest r hmem hid
  · obtain ⟨r, hmem, rfl⟩ := List.mem_map.mp hr
    rw [hticket] at hid
    split at hrows'
    · cases hrows'
      exact fun x _ _ ↦ hrows x
    · exact h.taken ha r hmem hid rows' hrows'

/-- A request that is done with. -/
theorem waiting_of_filter {id : Nat} (hw : ({ p with
    requests := p.requests.filter (·.ticket.id ≠ id) } : PendingPage).waiting = true) :
    p.waiting = true := by
  rw [waiting, List.any_eq_true] at hw ⊢
  obtain ⟨r, hr, hid⟩ := hw
  exact ⟨r, List.mem_of_mem_filter hr, hid⟩

theorem Law.giveUp (h : Law o p) (id : Nat) :
    Law o { p with requests := p.requests.filter (·.ticket.id ≠ id) } := by
  refine ⟨h.model, h.since_le, h.named, h.sent, h.down,
    fun r hr ↦ h.ids r (List.mem_of_mem_filter hr),
    fun r hr ↦ h.latest r (List.mem_of_mem_filter hr), h.flight,
    fun hw ↦ h.told (waiting_of_filter hw), h.truth, fun ha hw ↦ h.hidden ha (waiting_of_filter hw),
    fun ha r hr ↦ h.taken ha r (List.mem_of_mem_filter hr), h.synced⟩

theorem Law.disconnect (h : Law o p) :
    Law o { p with connected := false, inFlight := [], anchored := false } where
  model := h.model
  since_le := h.since_le
  named := h.named
  sent _ hmem := absurd hmem List.not_mem_nil
  down _ := ⟨rfl, rfl⟩
  ids := h.ids
  latest := h.latest
  flight _ _ hlast := by cases hlast
  told := h.told
  truth ha := by cases ha
  hidden ha := by cases ha
  taken ha := by cases ha
  synced ha := by cases ha

theorem Law.reconnect (h : Law o p) (hdown : p.connected = false) :
    Law o { p with connected := true } := by
  have hne : ¬ p.anchored = true := by rw [(h.down hdown).2]; exact Bool.false_ne_true
  exact ⟨h.model, h.since_le, h.named, h.sent, nofun, h.ids, h.latest, h.flight,
    h.told, fun ha ↦ absurd ha hne, fun ha ↦ absurd ha hne, fun ha ↦ absurd ha hne,
    fun ha ↦ absurd ha hne⟩

/-! ### A message arrives -/

/-- The condition, as what the model needs of its rows and its tombstones. -/
theorem roomForRow_spare {txid : String} (hroom : p.roomForRow o txid = true) :
    (p.model.entries.erase txid).size < o.live ∨
      ∀ e ∈ (p.model.entries.erase txid).entries.head?,
        e.2.unresolved = false ∧ p.Spare e.2.version := by
  rw [roomForRow, Bool.or_eq_true, decide_eq_true_iff] at hroom
  refine hroom.imp_right fun hall e he ↦ ?_
  rw [Option.mem_def] at he
  rw [he, Option.all_some, spareRow, Bool.and_eq_true, Bool.not_eq_true'] at hall
  refine ⟨hall.1, fun hwaiting ↦ ?_⟩
  simpa [hwaiting] using hall.2

theorem roomForTombstone_spare {txid : String} (hroom : p.roomForTombstone o txid = true) :
    (p.model.tombstones.get? txid).isSome = true ∨ p.model.tombstones.size < o.live ∨
      ∀ e ∈ p.model.tombstones.entries.head?, p.Spare e.2 := by
  rw [roomForTombstone, Bool.or_eq_true, Bool.or_eq_true, Bool.or_eq_true, decide_eq_true_iff,
    or_assoc, or_assoc] at hroom
  refine hroom.imp_right (Or.imp_right fun hspare e he hwaiting ↦ ?_)
  obtain hnot | hall := hspare
  · rw [hwaiting] at hnot
    cases hnot
  · rw [Option.mem_def] at he
    rw [he] at hall
    exact of_decide_eq_true hall

theorem hear_keeps (h : Law o p) {message : PendingMessage} {rest : List PendingMessage} {now : Int}
    (hflight : p.inFlight = message :: rest) (hroom : p.roomy o (.deliver now) = true)
    (hx : x ≠ message.txid) :
    PendingModel.Keeps p.Spare x p.model (hear o p.model now message) := by
  have htxid := h.sent message (hflight ▸ List.mem_cons_self)
  rw [roomy, hflight] at hroom
  cases message with
  | pending row =>
      rw [Bool.or_eq_true] at hroom
      exact PendingModel.pending_keeps h.model htxid hx (hroom.imp_right roomForRow_spare)
  | resolved row =>
      rw [Bool.or_eq_true] at hroom
      exact PendingModel.resolve_keeps h.model htxid hx (hroom.imp_right roomForTombstone_spare)

theorem Law.hear (h : Law o p) (now : Int) (message : PendingMessage) :
    (PendingPage.hear o p.model now message).Law o := by
  cases message with
  | pending row => exact h.model.pending
  | resolved row => exact h.model.resolve

theorem hear_reconcileId {m : PendingModel} {now : Int} {message : PendingMessage} :
    (hear o m now message).reconcileId = m.reconcileId := by
  cases message with
  | pending row => exact PendingModel.pending_reconcileId
  | resolved row => exact PendingModel.resolve_reconcileId

theorem hear_mutation {m : PendingModel} (now : Int) {message : PendingMessage}
    (htxid : message.txid ≠ "") : (hear o m now message).mutation = m.mutation + 1 := by
  cases message with
  | pending row => exact PendingModel.pending_mutation htxid
  | resolved row => exact PendingModel.resolve_mutation htxid

/-- What was heard last is what the model holds. -/
theorem told_hear (h : Law o p) {message : PendingMessage} (now : Int)
    (htxid : message.txid ≠ "") :
    Told p.since (hear o p.model now message) message.txid (some message) := by
  cases message with
  | pending row =>
      obtain ⟨e, he, hun, hversion⟩ := PendingModel.pending_self h.model now htxid
      exact ⟨e, he, hun, hversion ▸ Nat.lt_succ_of_le h.since_le⟩
  | resolved row =>
      obtain ⟨e, he, hun, hversion⟩ | ⟨hnone, hstone⟩ := PendingModel.resolve_self h.model htxid
      · exact .inl ⟨e, he, hun, hversion ▸ Nat.lt_succ_of_le h.since_le⟩
      · exact .inr ⟨hnone, _, hstone, Nat.lt_succ_of_le h.since_le⟩

/-- What the model holds is what the page shows. -/
theorem Told.shows_iff {message : PendingMessage} {s : Nat}
    (h : Told s p.model x (some message)) : p.Shows x ↔ message.announces = true := by
  match message, h with
  | .pending _, ⟨e, he, hun, _⟩ => exact iff_of_true ⟨e, he, hun⟩ rfl
  | .resolved _, .inl ⟨e, he, hun, _⟩ =>
      refine iff_of_false ?_ Bool.false_ne_true
      rintro ⟨e', he', hun'⟩
      rw [he] at he'
      cases he'
      exact Bool.false_ne_true (hun.symm.trans hun')
  | .resolved _, .inr ⟨hnone, _⟩ =>
      refine iff_of_false ?_ Bool.false_ne_true
      rintro ⟨e', he', -⟩
      rw [hnone] at he'
      cases he'

theorem Law.deliver (h : Law o p) {now : Int} (hroom : p.roomy o (.deliver now) = true)
    (hstep : p.step o (.deliver now) = .ok p') : Law o p' := by
  rw [step] at hstep
  split at hstep
  · cases hstep
  rename_i message rest hflight
  cases hstep
  have htxid := h.sent message (hflight ▸ List.mem_cons_self)
  have hself := h.flight message.txid
  rw [hflight, lastAbout_cons_self] at hself
  have hother {x : String} (hx : x ≠ message.txid) :
      lastAbout x p.inFlight = lastAbout x rest := by rw [hflight, lastAbout_cons_ne hx]
  have hkeeps {x : String} (hx : x ≠ message.txid) := hear_keeps h hflight hroom hx
  have htold := told_hear h now htxid
  refine ⟨h.hear now message, ?_, h.named, fun message' hmem ↦ ?_, fun hc ↦ ?_, fun r hr ↦ ?_,
    fun r hr hid ↦ ?_, fun x message' hlast ↦ ?_, fun hw x ↦ ?_, fun ha x hlast ↦ ?_,
    fun ha hw x hlast hheard hhidden ↦ ?_, fun ha r hr hid rows hrows x hlast hheard ↦ ?_,
    fun ha hans x hlast ↦ ?_⟩
  · exact Nat.le_trans h.since_le (hear_mutation (o := o) now htxid ▸ Nat.le_succ _)
  · exact h.sent _ (hflight ▸ List.mem_cons_of_mem _ hmem)
  · rw [(h.down hc).1] at hflight
    cases hflight
  · exact Nat.le_trans (h.ids r hr) (Nat.le_of_eq hear_reconcileId.symm)
  · exact h.latest r hr (hear_reconcileId ▸ hid)
  · by_cases hx : x = message.txid
    · subst hx
      exact hself message' (by rw [Option.mem_def.mp hlast, Option.some_or]; rfl)
    · exact h.flight x message' (hother hx ▸ hlast)
  · have hw : p.waiting = true := by
      rw [waiting] at hw ⊢
      exact hear_reconcileId (o := o) (m := p.model) ▸ hw
    by_cases hx : x = message.txid
    · subst hx
      dsimp only
      rw [lastAbout_concat_self]
      exact htold
    · dsimp only
      rw [lastAbout_concat_ne hx]
      exact (h.told hw x).of_keeps hw (hkeeps hx)
  · by_cases hx : x = message.txid
    · subst hx
      intro message' hheard
      dsimp only at hlast hheard
      rw [lastAbout_concat_self, Option.mem_some_iff] at hheard
      exact hheard ▸ hself message (by rw [hlast, Option.none_or]; rfl)
    · dsimp only
      rw [lastAbout_concat_ne hx]
      exact h.truth ha x ((hother hx).trans hlast)
  · have hw : p.waiting = true := by
      rw [waiting] at hw ⊢
      exact hear_reconcileId (o := o) (m := p.model) ▸ hw
    by_cases hx : x = message.txid
    · subst hx
      dsimp only at hheard
      rw [lastAbout_concat_self] at hheard
      cases hheard
    · dsimp only at hheard
      rw [lastAbout_concat_ne hx] at hheard
      exact h.hidden ha hw x ((hother hx).trans hlast) hheard (hidden_of_keeps (hkeeps hx) hhidden)
  · by_cases hx : x = message.txid
    · subst hx
      dsimp only at hheard
      rw [lastAbout_concat_self] at hheard
      cases hheard
    · dsimp only at hheard
      rw [lastAbout_concat_ne hx] at hheard
      exact h.taken ha r hr (hear_reconcileId ▸ hid) rows hrows x ((hother hx).trans hlast) hheard
  · by_cases hx : x = message.txid
    · subst hx
      dsimp only at hlast
      exact Iff.trans (Told.shows_iff htold) (hself message (by rw [hlast, Option.none_or]; rfl))
    · exact Iff.trans (shows_of_keeps (hkeeps hx)) (h.synced ha hans x ((hother hx).trans hlast))

/-! ### A timer fires -/

theorem Law.fire (h : Law o p) {t : RowTimer} (ht : t ∈ p.model.timers)
    (hroom : p.roomy o (.fire t) = true) : Law o { p with model := p.model.fire o t } := by
  have hid := PendingModel.fire_reconcileId (o := o) (m := p.model) t
  have hwaiting : ({ p with model := p.model.fire o t } : PendingPage).waiting = p.waiting := by
    rw [waiting, waiting, hid]
  rw [roomy] at hroom
  have hkeeps {x : String} (hx : x ≠ t.txid) :
      PendingModel.Keeps p.Spare x p.model (p.model.fire o t) := by
    refine PendingModel.fire_keeps h.model hx ?_
    cases hrow : p.model.entries.get? t.txid with
    | none => exact .inl rfl
    | some e =>
        rw [hrow, Option.all_some, Bool.or_eq_true, Bool.and_eq_true] at hroom
        exact hroom.imp_right fun hroom ↦ roomForTombstone_spare hroom.1
  -- a row that is taken was fading, and its tombstone hides what is not at the server
  have hself : PendingModel.Keeps p.Spare t.txid p.model (p.model.fire o t) ∨
      ∃ e, p.model.entries.get? t.txid = some e ∧ e.unresolved = false ∧
        (p.model.fire o t).entries.get? t.txid = none ∧
        (p.model.fire o t).tombstones.get? t.txid = some (p.model.mutation + 1) ∧
        (p.waiting = true → p.anchored = true → lastAbout t.txid p.inFlight = none →
          ¬ p.since < e.version → t.txid ∉ p.server) := by
    obtain ⟨-, heq⟩ | ⟨e, hrow, hgen, heq⟩ :=
      PendingModel.fire_cases (o := o) (m := p.model) t
    · rw [heq]
      exact .inl ⟨.inl rfl, .inl rfl⟩
    · refine .inr ⟨e, hrow, h.model.timed ht hrow hgen,
        by rw [heq]; exact InsertionMap.get?_erase_self,
        by rw [heq]; exact InsertionMap.get?_trim_set_self h.model.stoneRoom o.live_pos,
        fun hw ha hlast hold ↦ ?_⟩
      rw [hrow, Option.all_some, Bool.or_eq_true, Bool.and_eq_true] at hroom
      obtain ⟨-, hside⟩ := hroom.resolve_left (by simpa using hgen)
      rw [hw, ha, lastAbout_eq_none_iff.mp hlast, decide_eq_false hold] at hside
      simpa using hside
  refine ⟨h.model.fire t, Nat.le_trans h.since_le (PendingModel.fire_mutation t), h.named, h.sent,
    h.down, fun r hr ↦ Nat.le_trans (h.ids r hr) (Nat.le_of_eq hid.symm),
    fun r hr hlatest ↦ h.latest r hr (hlatest.trans hid), h.flight, fun hw x ↦ ?_, h.truth,
    fun ha hw x hlast hheard hhidden ↦ ?_,
    fun ha r hr hlatest ↦ h.taken ha r hr (hlatest.trans hid),
    fun ha hans x hlast ↦ ?_⟩
  · have hw := hwaiting ▸ hw
    have htold := h.told hw x
    by_cases hx : x = t.txid
    · subst hx
      obtain hkeeps | ⟨e, hrow, hun, hgone, hstone, -⟩ := hself
      · exact htold.of_keeps hw hkeeps
      · dsimp only
        match lastAbout t.txid p.heard, htold with
        | none, _ =>
            rintro ⟨e', he', -⟩
            rw [hgone] at he'
            cases he'
        | some (.pending _), ⟨e', he', hun', _⟩ =>
            rw [hrow] at he'
            cases he'
            exact absurd (hun.symm.trans hun') Bool.false_ne_true
        | some (.resolved _), _ =>
            exact .inr ⟨hgone, _, hstone, Nat.lt_succ_of_le h.since_le⟩
    · exact htold.of_keeps hw (hkeeps hx)
  · have hw := hwaiting ▸ hw
    by_cases hx : x = t.txid
    · subst hx
      obtain hkeeps | ⟨e, hrow, -, -, -, hserver⟩ := hself
      · exact h.hidden ha hw _ hlast hheard (hidden_of_keeps hkeeps hhidden)
      · refine hserver hw ha hlast fun hlt ↦ ?_
        have htold := h.told hw t.txid
        dsimp only at hheard
        rw [hheard] at htold
        exact htold ⟨e, hrow, hlt⟩
    · exact h.hidden ha hw x hlast hheard (hidden_of_keeps (hkeeps hx) hhidden)
  · by_cases hx : x = t.txid
    · subst hx
      obtain hkeeps | ⟨e, hrow, hun, hgone, -, -⟩ := hself
      · exact Iff.trans (shows_of_keeps hkeeps) (h.synced ha hans _ hlast)
      · refine Iff.trans (iff_of_false ?_ ?_) (h.synced ha hans _ hlast)
        · rintro ⟨e', he', -⟩
          rw [hgone] at he'
          cases he'
        · rintro ⟨e', he', hun'⟩
          rw [hrow] at he'
          cases he'
          exact absurd (hun.symm.trans hun') Bool.false_ne_true
    · exact Iff.trans (shows_of_keeps (hkeeps hx)) (h.synced ha hans x hlast)

end PendingPage

end Kascov
