import Kascov.Lib.Runs
import Kascov.Web.ReconcileLaw
import Mathlib.Data.List.Dedup
import Mathlib.Data.List.Perm.Basic

/-!
# The page agrees with the server

An answer leaves what the page was told of since it asked, and what the snapshot names of the
rest.  Where there is room for every step, the page shows what the server has as soon as no
message and no answer is on its way.
-/

namespace Kascov

namespace PendingPage

variable {o : PendingOptions} {p p' : PendingPage} {x : String}

/-! ## An answer arrives -/

section Respond

variable {ticket : Ticket} {rows : List PendingFrame} {now : Int}

/-- What is left is among what the answer leaves. -/
theorem size_takeOver_le (h : Law o p) (rows : List PendingFrame) (now : Int)
    (hversion : ticket.version = p.since) :
    (p.model.takeOver ticket rows now).entries.size ≤ (p.keptBy rows).length := by
  have hsub : (p.model.takeOver ticket rows now).entries.entries.map Prod.fst ⊆ p.keptBy rows := by
    intro x hx
    obtain ⟨⟨x, e'⟩, hmem, rfl⟩ := List.mem_map.mp hx
    have hout := PendingModel.takeOver_row h.model ticket rows now x
    rw [InsertionMap.get?_eq_some_iff.mpr hmem, hversion] at hout
    rw [keptBy, List.mem_dedup, List.mem_append]
    obtain ⟨e, he, hlt, -⟩ | ⟨⟨-, hnamed⟩, hhidden, -⟩ := hout
    · have hrow : (p.model.entries.filter fun _ e ↦ p.since < e.version).get? x = some e :=
        InsertionMap.get?_filter.mpr ⟨he, decide_eq_true hlt⟩
      exact .inr (List.mem_map.mpr ⟨_, InsertionMap.get?_eq_some_iff.mp hrow, rfl⟩)
    · refine .inl (List.mem_filter.mpr ⟨hnamed, ?_⟩)
      rw [Bool.not_eq_true', ← Bool.not_eq_true, PendingModel.hidden_iff]
      exact hhidden
  have hlength := (List.subperm_of_subset
    (p.model.takeOver ticket rows now).entries.distinct hsub).length_le
  rwa [List.length_map] at hlength

/-- The row of a transaction after an answer for which there is room. -/
theorem answer_row (h : Law o p) (hid : ticket.id = p.model.reconcileId)
    (hversion : ticket.version = p.since) (hroom : (p.keptBy rows).length ≤ o.live) (x : String) :
    PendingModel.Outcome p.model p.since (p.model.takeOver ticket rows now).generation
      (x ≠ "" ∧ x ∈ rows.map PendingFrame.txid) x
      ((p.model.applySnapshot o ticket rows now).entries.get? x) := by
  have hsize := Nat.le_trans (size_takeOver_le h rows now hversion) hroom
  rw [PendingModel.applySnapshot_of_eq hid, PendingModel.trim, InsertionMap.trim_eq_self _ hsize,
    ← hversion]
  exact PendingModel.takeOver_row h.model ticket rows now x

/-- After an answer the page shows what it was told since it asked, and what the snapshot
names of the rest. -/
theorem shows_answer {gen : Nat} {named : Prop}
    (hout : PendingModel.Outcome p.model p.since gen named x (p'.model.entries.get? x)) :
    ∀ {last}, Told p.since p.model x last → (p'.Shows x ↔
      last.elim (named ∧ ¬ p.model.Hidden p.since x) fun message ↦ message.announces = true)
  | some (.pending _), ⟨e, he, hun, hlt⟩ => by
      refine iff_of_true ?_ rfl
      cases hrow : p'.model.entries.get? x with
      | none => exact absurd ⟨e, he, hlt⟩ (hrow ▸ hout).1
      | some e' =>
          rw [hrow] at hout
          obtain ⟨e₀, he₀, -, hsame⟩ | ⟨-, -, hlater, -⟩ := hout
          · rw [he] at he₀
            cases he₀
            exact ⟨e', hrow, hsame.unresolved_eq.trans hun⟩
          · exact absurd ⟨e, he, hlt⟩ hlater
  | some (.resolved _), htold => by
      refine iff_of_false ?_ Bool.false_ne_true
      rintro ⟨e', hrow, hun'⟩
      rw [hrow] at hout
      obtain ⟨e₀, he₀, -, hsame⟩ | ⟨-, hhidden, hlater, -⟩ := hout
      · obtain ⟨e, he, hun, -⟩ | ⟨hnone, -⟩ := htold
        · rw [he] at he₀
          cases he₀
          exact Bool.false_ne_true (hun.symm.trans (hsame.unresolved_eq.symm.trans hun'))
        · rw [hnone] at he₀
          cases he₀
      · obtain ⟨e, he, -, hlt⟩ | ⟨-, hh⟩ := htold
        · exact hlater ⟨e, he, hlt⟩
        · exact hhidden hh
  | none, htold => by
      cases hrow : p'.model.entries.get? x with
      | none =>
          rw [hrow] at hout
          refine iff_of_false ?_ fun h ↦ hout.2.elim (fun hn ↦ hn h.1) h.2
          rintro ⟨e', he', -⟩
          rw [hrow] at he'
          cases he'
      | some e' =>
          rw [hrow] at hout
          obtain ⟨e₀, he₀, hlt, -⟩ | ⟨hnamed, hhidden, -, hfresh⟩ := hout
          · exact absurd ⟨e₀, he₀, hlt⟩ htold
          · exact iff_of_true ⟨e', hrow, hfresh.unresolved⟩ ⟨hnamed, hhidden⟩

/-- The request that is answered, and that there is room for the answer if it is the latest. -/
theorem respond_cases (h : Law o p) {id : Nat} (hroom : p.roomy o (.respond id now) = true)
    (hstep : p.step o (.respond id now) = .ok p') :
    ∃ r ∈ p.requests, ∃ rows ∈ r.snapshot, r.ticket.id = id ∧
      p' = { p with
        model := p.model.applySnapshot o r.ticket rows now
        requests := p.requests.filter (·.ticket.id ≠ id)
        answered := p.answered || id == p.model.reconcileId } ∧
      (id = p.model.reconcileId →
        r.ticket.version = p.since ∧ (p.keptBy rows).length ≤ o.live) := by
  rw [step] at hstep
  split at hstep
  · cases hstep
  rename_i r hfind
  cases hstep
  have hmem := List.mem_of_find?_eq_some hfind
  have hfound := List.find?_some hfind
  obtain ⟨hid, hsnapshot⟩ := of_decide_eq_true hfound
  obtain ⟨rows, hrows⟩ := Option.ne_none_iff_exists'.mp hsnapshot
  refine ⟨r, hmem, rows, hrows, hid, by rw [hrows]; rfl, fun hlatest ↦
    ⟨h.latest r hmem (hid.trans hlatest), ?_⟩⟩
  rw [roomy, Bool.or_eq_true, List.all_eq_true] at hroom
  have hlength := (hroom.resolve_left (by simpa using hlatest)) r hmem
  rw [hrows, Bool.or_eq_true, decide_eq_true_iff, decide_eq_true_iff] at hlength
  exact hlength.resolve_left (not_not.mpr hid)

theorem Law.respond (h : Law o p) {id : Nat} (hroom : p.roomy o (.respond id now) = true)
    (hstep : p.step o (.respond id now) = .ok p') : Law o p' := by
  obtain ⟨r, hmem, rows, hrows, hid, rfl, hlatest⟩ := respond_cases h hroom hstep
  by_cases hne : id = p.model.reconcileId
  · obtain ⟨hversion, hkept⟩ := hlatest hne
    have hsame : r.ticket.id = p.model.reconcileId := hid.trans hne
    have htaken := PendingModel.taken p.model r.ticket rows now
    have hmodel :
        (p.model.applySnapshot o r.ticket rows now).reconcileId = p.model.reconcileId := by
      rw [PendingModel.applySnapshot_of_eq hsame]
      exact htaken.reconcileId
    have hmutation : (p.model.applySnapshot o r.ticket rows now).mutation = p.model.mutation := by
      rw [PendingModel.applySnapshot_of_eq hsame]
      exact htaken.mutation
    -- no request is left that is the latest
    have hdone (r' : SnapshotRequest) (hr' : r' ∈ p.requests.filter (·.ticket.id ≠ id)) :
        ¬ r'.ticket.id = (p.model.applySnapshot o r.ticket rows now).reconcileId := by
      rw [hmodel, ← hne]
      exact of_decide_eq_true (List.mem_filter.mp hr').2
    refine ⟨h.model.applySnapshot (hversion ▸ h.since_le), hmutation ▸ h.since_le, h.named, h.sent,
      h.down, fun r' hr' ↦ hmodel ▸ h.ids r' (List.mem_of_mem_filter hr'),
      fun r' hr' hid' ↦ absurd hid' (hdone r' hr'), h.flight, fun hw ↦ ?_, h.truth, fun _ hw ↦ ?_,
      fun _ r' hr' hid' ↦ absurd hid' (hdone r' hr'), fun ha _ x hlast ↦ ?_⟩
    · obtain ⟨r', hr', hid'⟩ := List.any_eq_true.mp hw
      exact absurd (of_decide_eq_true hid') (hdone r' hr')
    · obtain ⟨r', hr', hid'⟩ := List.any_eq_true.mp hw
      exact absurd (of_decide_eq_true hid') (hdone r' hr')
    · have hw : p.waiting = true := List.any_eq_true.mpr ⟨r, hmem, decide_eq_true hsame⟩
      refine Iff.trans (shows_answer (answer_row h hsame hversion hkept x) (h.told hw x)) ?_
      cases hheard : lastAbout x p.heard with
      | some message => exact h.truth ha x hlast message hheard
      | none =>
          have hrow := h.taken ha r hmem hsame rows hrows x hlast hheard
          constructor
          · exact fun hshown ↦ hrow.mp hshown.1.2
          · intro hserver
            refine ⟨⟨?_, hrow.mpr hserver⟩,
              fun hhidden ↦ h.hidden ha hw x hlast hheard hhidden hserver⟩
            rintro rfl
            exact h.named hserver
  · rw [PendingModel.applySnapshot_of_ne fun hsame ↦ hne (hid.symm.trans hsame),
      beq_eq_false_iff_ne.mpr hne, Bool.or_false]
    exact h.giveUp id

end Respond

/-! ## Runs -/

/-- What one step preserves, where there is room for it. -/
theorem Law.step (h : Law o p) {e : PageEvent} (hroom : p.roomy o e = true)
    (hstep : p.step o e = .ok p') : Law o p' := by
  cases e with
  | announce row =>
      rw [PendingPage.step] at hstep
      split at hstep
      · cases hstep
      · rename_i htxid
        cases hstep
        refine h.send (.pending row) htxid ?_ fun x hx ↦ ?_
        · exact iff_of_true rfl List.mem_cons_self
        · rw [List.mem_cons]
          exact or_iff_right hx
  | settle row =>
      rw [PendingPage.step] at hstep
      split at hstep
      · rename_i hmem
        cases hstep
        refine h.send (.resolved row) ?_ ?_ fun x hx ↦ ?_
        · rintro heq
          exact h.named (heq ▸ hmem)
        · refine iff_of_false Bool.false_ne_true fun hmem' ↦ ?_
          exact of_decide_eq_true (List.mem_filter.mp hmem').2 rfl
        · rw [List.mem_filter, decide_eq_true_iff]
          exact and_iff_left hx
      · cases hstep
  | deliver now => exact h.deliver hroom hstep
  | request => exact h.request hstep
  | serve id rows =>
      rw [PendingPage.step] at hstep
      split at hstep
      · rename_i hrows
        cases hstep
        obtain ⟨hin, hall⟩ := hrows
        rw [List.all_eq_true] at hin hall
        exact h.serve fun x ↦ ⟨fun hx ↦ of_decide_eq_true (hin x hx),
          fun hx ↦ of_decide_eq_true (hall x hx)⟩
      · cases hstep
  | respond id now => exact h.respond hroom hstep
  | giveUp id =>
      cases hstep
      exact h.giveUp id
  | fire t =>
      rw [PendingPage.step] at hstep
      split at hstep
      · rename_i ht
        cases hstep
        exact h.fire ht hroom
      · cases hstep
  | disconnect =>
      cases hstep
      exact h.disconnect
  | reconnect =>
      rw [PendingPage.step] at hstep
      split at hstep
      · cases hstep
      · rename_i hdown
        cases hstep
        exact h.reconnect ((Bool.not_eq_true _).mp hdown)

/-- What a run preserves. -/
theorem law_of_run (o : PendingOptions) {events : List PageEvent}
    (hroom : Runs.Guarded (step o) (fun p e ↦ p.roomy o e = true) {} events) :
    Law o (Runs.run (step o) {} events) :=
  Runs.run_invariant_of_guarded (Law o) _ (fun _ _ _ h hroom hstep ↦ h.step hroom hstep)
    (.initial (o := o)) hroom

/-- **The page agrees with the server.**  In a run whose steps all have room, the page shows
exactly what the server has once everything that was sent has arrived and the latest request
is answered; an answer to the latest request leaves what was said last since it was made, and
no other answer changes a thing. -/
theorem pending_reconciles (o : PendingOptions) (events : List PageEvent)
    (hroom : Runs.Guarded (step o) (fun p e ↦ p.roomy o e = true) {} events) :
    let p := Runs.run (step o) {} events
    (p.quiet = true → ∀ x, p.Shows x ↔ x ∈ p.server) ∧
      ∀ id now p', p.roomy o (.respond id now) = true → p.step o (.respond id now) = .ok p' →
        (id = p.model.reconcileId → ∀ x, ∀ message ∈ lastAbout x p.heard,
          (p'.Shows x ↔ message.announces = true)) ∧
        (id ≠ p.model.reconcileId → p'.model = p.model) := by
  intro p
  have h : Law o p := law_of_run o hroom
  constructor
  · intro hquiet x
    simp only [quiet, Bool.and_eq_true] at hquiet
    obtain ⟨⟨⟨-, hflight⟩, hanchored⟩, hanswered⟩ := hquiet
    refine h.synced hanchored hanswered x ?_
    rw [List.isEmpty_iff.mp hflight, lastAbout_nil]
  · intro id now p' hroom hstep
    obtain ⟨r, hmem, rows, -, hid, rfl, hlatest⟩ := respond_cases h hroom hstep
    constructor
    · intro heq x message hheard
      obtain ⟨hversion, hkept⟩ := hlatest heq
      have hsame : r.ticket.id = p.model.reconcileId := hid.trans heq
      have htold := h.told (List.any_eq_true.mpr ⟨r, hmem, decide_eq_true hsame⟩) x
      rw [Option.mem_def.mp hheard] at htold
      exact shows_answer (answer_row h hsame hversion hkept x) htold
    · intro hne
      exact PendingModel.applySnapshot_of_ne fun hsame ↦ hne (hid.symm.trans hsame)

/-! ## Runs with room, and runs without -/

/-- A frame of a transaction. -/
def frame (txid : String) : PendingFrame := { txid }

/-- A transaction is announced and another is resolved while the first answer is on its way. -/
def ordinaryRun : List PageEvent :=
  [.announce (frame "a"), .reconnect, .request, .serve 1 [frame "a"], .announce (frame "b"),
    .deliver 0, .settle (frame "a"), .deliver 1, .respond 1 2]

/-- The page shows the one that is left. -/
theorem pending_reconciles_ordinary :
    let p := Runs.run (step {}) {} ordinaryRun
    ∀ x, p.Shows x ↔ x ∈ p.server :=
  (pending_reconciles {} ordinaryRun (by decide +kernel)).1 (by decide +kernel)

/-- There are at most as many pending transactions as there may be rows, and at most as many
were resolved since the latest request. -/
def withinCap (o : PendingOptions) (p : PendingPage) : Bool :=
  p.server.length ≤ o.live && (p.heard.filter (!·.announces)).length ≤ o.live

/-- Room for two rows. -/
def roomForTwo : PendingOptions := { rowCap := some 2, liveCap := some 2 }

/-- The tombstones of two rows that fade push out the one of what was resolved since the
request. -/
def buriedRun : List PageEvent :=
  [.reconnect, .announce (frame "a"), .deliver 0, .announce (frame "b"), .deliver 1,
    .settle (frame "a"), .deliver 2, .settle (frame "b"), .deliver 3, .disconnect,
    .announce (frame "x"), .reconnect, .request, .serve 1 [frame "x"], .settle (frame "x"),
    .deliver 4, .fire ⟨1, "a", 1, 900⟩, .fire ⟨2, "b", 2, 900⟩]

/-- A row that fades takes the room of one that is pending. -/
def crowdedRun : List PageEvent :=
  [.reconnect, .request, .serve 1 [], .respond 1 0, .announce (frame "a"), .deliver 1,
    .announce (frame "b"), .deliver 2, .settle (frame "b"), .deliver 3, .announce (frame "c"),
    .deliver 4, .fire ⟨1, "b", 2, 900⟩]

/-- A row fades away while the answer that announces its transaction again is on its way. -/
def fadingRun : List PageEvent :=
  [.reconnect, .announce (frame "a"), .deliver 0, .settle (frame "a"), .deliver 1, .disconnect,
    .announce (frame "a"), .reconnect, .request, .fire ⟨1, "a", 1, 900⟩, .serve 1 [frame "a"],
    .respond 1 2]

/-- The snapshot brings back what was resolved after its ticket, and the page does not show
what is pending: a row is gone, or a tombstone is there, for a transaction that faded. -/
theorem snapshot_resurrects :
    (Runs.Guarded (step roomForTwo) (fun p _ ↦ withinCap roomForTwo p = true) {} buriedRun ∧
      (lastAbout "x" (Runs.run (step roomForTwo) {} buriedRun).heard).any (!·.announces) = true ∧
      (Runs.run (step roomForTwo) {} (buriedRun ++ [.respond 1 5])).Shows "x") ∧
    (Runs.Guarded (step roomForTwo) (fun p _ ↦ withinCap roomForTwo p = true) {} crowdedRun ∧
      (Runs.run (step roomForTwo) {} crowdedRun).quiet = true ∧
      (Runs.run (step roomForTwo) {} crowdedRun).model.timers = [] ∧
      "a" ∈ (Runs.run (step roomForTwo) {} crowdedRun).server ∧
      ¬ (Runs.run (step roomForTwo) {} crowdedRun).Shows "a") ∧
    Runs.Guarded (step {}) (fun p _ ↦ withinCap {} p = true) {} fadingRun ∧
      (Runs.run (step {}) {} fadingRun).quiet = true ∧
      (Runs.run (step {}) {} fadingRun).model.timers = [] ∧
      "a" ∈ (Runs.run (step {}) {} fadingRun).server ∧
      ¬ (Runs.run (step {}) {} fadingRun).Shows "a" := by
  decide +kernel

end PendingPage

end Kascov
