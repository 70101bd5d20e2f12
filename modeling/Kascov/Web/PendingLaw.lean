import Kascov.Web.Pending

/-!
# What the pending model keeps

Versions and generations are not ahead of their counters, a transaction does not have a row
and a tombstone, and a timer that is running does not belong to a row that shows a pending
transaction.  Every operation keeps this, and what it does to a row or to a tombstone is said
once, for the transaction of its frame and for the others.
-/

namespace Kascov

namespace PendingModel

/-- The law of the model. -/
structure Law (o : PendingOptions) (m : PendingModel) : Prop where
  rowVersion : ∀ {x e}, m.entries.get? x = some e → e.version ≤ m.mutation
  stoneVersion : ∀ {x v}, m.tombstones.get? x = some v → v ≤ m.mutation
  rowGeneration : ∀ {x e}, m.entries.get? x = some e → e.generation ≤ m.generation
  timerGeneration : ∀ {t}, t ∈ m.timers → t.generation ≤ m.generation
  timed : ∀ {t e}, t ∈ m.timers → m.entries.get? t.txid = some e → e.generation = t.generation →
    e.unresolved = false
  apart : ∀ {x e}, m.entries.get? x = some e → m.tombstones.get? x = none
  named : m.entries.get? "" = none
  rowRoom : m.entries.size ≤ o.live
  stoneRoom : m.tombstones.size ≤ o.live

variable {o : PendingOptions} {m : PendingModel} {row : PendingFrame} {now : Int}

theorem Law.initial : Law o {} where
  rowVersion h := by cases h
  stoneVersion h := by cases h
  rowGeneration h := by cases h
  timerGeneration h := by cases h
  timed h := by cases h
  apart h := by cases h
  named := rfl
  rowRoom := Nat.zero_le _
  stoneRoom := Nat.zero_le _

/-! ## What the operations do -/

theorem clearTimer_timers (timer : Nat) : (m.clearTimer timer).timers ⊆ m.timers :=
  fun _ ht ↦ List.mem_of_mem_filter ht

/-- `pending` changes the row that shows the transaction, or puts a new one at the end. -/
theorem pending_cases (now : Int) (hx : row.txid ≠ "") :
    (∃ prior e, m.entries.get? row.txid = some prior ∧ prior.unresolved = true ∧
      e.unresolved = true ∧ e.version = m.mutation + 1 ∧ e.generation = prior.generation ∧
      m.pending o row now = { m with
        mutation := m.mutation + 1
        entries := m.entries.set row.txid e
        tombstones := m.tombstones.erase row.txid }) ∨
    ((m.entries.get? row.txid).any (·.unresolved) = false ∧ ∃ e timers, timers ⊆ m.timers ∧
      e.unresolved = true ∧ e.version = m.mutation + 1 ∧ e.generation = m.generation + 1 ∧
      m.pending o row now = { m with
        mutation := m.mutation + 1
        generation := m.generation + 1
        timers
        entries := ((m.entries.erase row.txid).set row.txid e).trim o.live
        tombstones := m.tombstones.erase row.txid }) := by
  cases hprior : m.entries.get? row.txid with
  | none =>
      have heq : m.pending o row now = trim o (add { m with
          mutation := m.mutation + 1
          entries := m.entries.erase row.txid
          tombstones := m.tombstones.erase row.txid } row (m.mutation + 1) now) := by
        simp only [pending, hx, hprior, if_false]
      refine .inr ⟨rfl, _, _, ?_, ?_, ?_, ?_, heq⟩
      exacts [fun _ ht ↦ ht, rfl, rfl, rfl]
  | some prior =>
      cases hshown : prior.unresolved with
      | true =>
          refine .inl ⟨prior, { prior with
            events := mergeRowEvents prior.events (eventsFor row)
            covenantIds := ((mergeRowEvents prior.events (eventsFor row)).map
              (·.covenantId)).eraseDups
            version := m.mutation + 1 }, rfl, hshown, hshown, rfl, rfl, ?_⟩
          simp only [pending, hx, hprior, hshown, if_false, if_true]
      | false =>
          have heq : m.pending o row now = trim o (add { m with
              mutation := m.mutation + 1
              timers := if prior.timer ≠ 0 then (m.clearTimer prior.timer).timers else m.timers
              entries := m.entries.erase row.txid
              tombstones := m.tombstones.erase row.txid } row (m.mutation + 1) now) := by
            simp only [pending, hx, hprior, hshown, if_false, Bool.false_eq_true]
            split
            · rfl
            · rfl
          refine .inr ⟨hshown, _, _, ?_, ?_, ?_, ?_, heq⟩
          · split
            · exact clearTimer_timers _
            · exact fun _ ht ↦ ht
          · rfl
          · rfl
          · rfl

/-- `resolve` leaves a tombstone, or makes the row fade. -/
theorem resolve_cases (hx : row.txid ≠ "") :
    (m.entries.get? row.txid = none ∧ m.resolve o row = { m with
      mutation := m.mutation + 1
      tombstones := (m.tombstones.set row.txid (m.mutation + 1)).trim o.live }) ∨
    ∃ prior e timers t, m.entries.get? row.txid = some prior ∧ timers ⊆ m.timers ∧
      t.txid = row.txid ∧ t.generation = prior.generation ∧
      e.unresolved = false ∧ e.version = m.mutation + 1 ∧ e.generation = prior.generation ∧
      m.resolve o row = { m with
        mutation := m.mutation + 1
        entries := m.entries.set row.txid e
        timers := timers ++ [t]
        lastTimer := m.lastTimer + 1 } := by
  cases hprior : m.entries.get? row.txid with
  | none =>
      refine .inl ⟨rfl, ?_⟩
      simp only [resolve, hx, hprior, if_false, bury]
  | some prior =>
      have heq : ∃ delay, m.resolve o row = { m with
          mutation := m.mutation + 1
          entries := m.entries.set row.txid { prior with
            resolution := some ((orText row.resolution (some "confirmed")).getD "")
            version := m.mutation + 1
            timer := m.lastTimer + 1 }
          timers := (if prior.timer ≠ 0 then (m.clearTimer prior.timer).timers else m.timers) ++
            [⟨m.lastTimer + 1, row.txid, prior.generation, delay⟩]
          lastTimer := m.lastTimer + 1 } := by
        simp only [resolve, hx, hprior, if_false]
        split
        · exact ⟨_, rfl⟩
        · exact ⟨_, rfl⟩
      obtain ⟨delay, heq⟩ := heq
      refine .inr ⟨prior, _, _, _, rfl, ?_, ?_, ?_, ?_, ?_, ?_, heq⟩
      · split
        · exact clearTimer_timers _
        · exact fun _ ht ↦ ht
      · rfl
      · rfl
      · rfl
      · rfl
      · rfl

/-- A timer takes the row it was set for, and leaves a tombstone. -/
theorem fire_cases (t : RowTimer) :
    ((m.entries.get? t.txid).all (·.generation ≠ t.generation) = true ∧
      m.fire o t = m.clearTimer t.id) ∨
    ∃ e, m.entries.get? t.txid = some e ∧ e.generation = t.generation ∧
      m.fire o t = { m.clearTimer t.id with
        entries := m.entries.erase t.txid
        mutation := m.mutation + 1
        tombstones := (m.tombstones.set t.txid (m.mutation + 1)).trim o.live } := by
  have hentries : (m.clearTimer t.id).entries = m.entries := rfl
  rw [fire, hentries]
  cases hrow : m.entries.get? t.txid with
  | none => exact .inl ⟨rfl, rfl⟩
  | some e =>
      by_cases hgen : e.generation = t.generation
      · refine .inr ⟨e, rfl, hgen, ?_⟩
        simp only [hgen, ne_eq, not_true_eq_false, if_false]
        rfl
      · refine .inl ⟨decide_eq_true hgen, ?_⟩
        simp only [ne_eq, hgen, not_false_eq_true, if_true]

/-! ## The law is kept -/

theorem Law.pending (h : Law o m) : Law o (m.pending o row now) := by
  by_cases hx : row.txid = ""
  · rw [PendingModel.pending, if_pos hx]
    exact h
  obtain ⟨prior, e, hprior, hshown, hun, hversion, hgen, heq⟩ |
    ⟨-, e, timers, htimers, hun, hversion, hgen, heq⟩ := pending_cases now hx
  · rw [heq]
    refine ⟨fun hrow ↦ ?_, fun hstone ↦ ?_, fun hrow ↦ ?_, h.timerGeneration,
      fun ht hrow hgen' ↦ ?_, fun hrow ↦ ?_, ?_, ?_, ?_⟩
    · obtain ⟨rfl, rfl⟩ | ⟨-, hrow⟩ := InsertionMap.get?_of_set hrow
      · exact Nat.le_of_eq hversion
      · exact Nat.le_succ_of_le (h.rowVersion hrow)
    · exact Nat.le_succ_of_le (h.stoneVersion (InsertionMap.get?_of_erase hstone).2)
    · obtain ⟨rfl, rfl⟩ | ⟨-, hrow⟩ := InsertionMap.get?_of_set hrow
      · exact hgen ▸ h.rowGeneration hprior
      · exact h.rowGeneration hrow
    · obtain ⟨hk, rfl⟩ | ⟨-, hrow⟩ := InsertionMap.get?_of_set hrow
      · have := h.timed ht (hk ▸ hprior) (hgen ▸ hgen')
        rw [hshown] at this
        cases this
      · exact h.timed ht hrow hgen'
    · obtain ⟨rfl, rfl⟩ | ⟨hne, hrow⟩ := InsertionMap.get?_of_set hrow
      · exact InsertionMap.get?_erase_self
      · exact (InsertionMap.get?_erase_ne hne).trans (h.apart hrow)
    · exact (InsertionMap.get?_set_ne (Ne.symm hx)).trans h.named
    · exact InsertionMap.size_set_of_get? hprior ▸ h.rowRoom
    · exact Nat.le_trans InsertionMap.size_erase_le h.stoneRoom
  · rw [heq]
    refine ⟨fun hrow ↦ ?_, fun hstone ↦ ?_, fun hrow ↦ ?_, fun ht ↦ ?_, fun ht hrow hgen' ↦ ?_,
      fun hrow ↦ ?_, ?_, InsertionMap.size_trim_le _, ?_⟩
    · obtain ⟨rfl, rfl⟩ | ⟨-, hrow⟩ := InsertionMap.get?_of_replace hrow
      · exact Nat.le_of_eq hversion
      · exact Nat.le_succ_of_le (h.rowVersion hrow)
    · exact Nat.le_succ_of_le (h.stoneVersion (InsertionMap.get?_of_erase hstone).2)
    · obtain ⟨rfl, rfl⟩ | ⟨-, hrow⟩ := InsertionMap.get?_of_replace hrow
      · exact Nat.le_of_eq hgen
      · exact Nat.le_succ_of_le (h.rowGeneration hrow)
    · exact Nat.le_succ_of_le (h.timerGeneration (htimers ht))
    · obtain ⟨-, rfl⟩ | ⟨-, hrow⟩ := InsertionMap.get?_of_replace hrow
      · -- a timer that is running was set for an earlier row
        have := h.timerGeneration (htimers ht)
        omega
      · exact h.timed (htimers ht) hrow hgen'
    · obtain ⟨rfl, rfl⟩ | ⟨hne, hrow⟩ := InsertionMap.get?_of_replace hrow
      · exact InsertionMap.get?_erase_self
      · exact (InsertionMap.get?_erase_ne hne).trans (h.apart hrow)
    · cases hrow : (((m.entries.erase row.txid).set row.txid e).trim o.live).get? "" with
      | none => rfl
      | some e' =>
          obtain ⟨hk, -⟩ | ⟨-, hrow⟩ := InsertionMap.get?_of_replace hrow
          · exact absurd hk.symm hx
          · exact absurd (h.named.symm.trans hrow) (by simp)
    · exact Nat.le_trans InsertionMap.size_erase_le h.stoneRoom

/-- A tombstone for what has no row. -/
theorem Law.bury (h : Law o m) {x : String} (hx : m.entries.get? x = none) :
    Law o { m with
      mutation := m.mutation + 1
      tombstones := (m.tombstones.set x (m.mutation + 1)).trim o.live } where
  rowVersion hrow := Nat.le_succ_of_le (h.rowVersion hrow)
  stoneVersion hstone := by
    obtain ⟨-, rfl⟩ | ⟨-, hstone⟩ := InsertionMap.get?_of_set (InsertionMap.get?_of_trim _ hstone)
    · exact Nat.le_refl _
    · exact Nat.le_succ_of_le (h.stoneVersion hstone)
  rowGeneration := h.rowGeneration
  timerGeneration := h.timerGeneration
  timed := h.timed
  apart {y e} hrow := by
    cases hstone : ((m.tombstones.set x (m.mutation + 1)).trim o.live).get? y with
    | none => rfl
    | some v =>
        obtain ⟨rfl, -⟩ | ⟨-, hstone⟩ :=
          InsertionMap.get?_of_set (InsertionMap.get?_of_trim _ hstone)
        · exact absurd (hx.symm.trans hrow) (by simp)
        · exact absurd ((h.apart hrow).symm.trans hstone) (by simp)
  named := h.named
  rowRoom := h.rowRoom
  stoneRoom := InsertionMap.size_trim_le _

theorem Law.resolve (h : Law o m) : Law o (m.resolve o row) := by
  by_cases hx : row.txid = ""
  · rw [PendingModel.resolve, if_pos hx]
    exact h
  obtain ⟨hnone, heq⟩ |
    ⟨prior, e, timers, t, hprior, htimers, htx, htgen, hun, hversion, hgen, heq⟩ :=
    resolve_cases (o := o) (m := m) hx
  · rw [heq]
    exact h.bury hnone
  · rw [heq]
    refine ⟨fun hrow ↦ ?_, fun hstone ↦ Nat.le_succ_of_le (h.stoneVersion hstone), fun hrow ↦ ?_,
      fun ht ↦ ?_, fun ht hrow hgen' ↦ ?_, fun hrow ↦ ?_, ?_, ?_, h.stoneRoom⟩
    · obtain ⟨rfl, rfl⟩ | ⟨-, hrow⟩ := InsertionMap.get?_of_set hrow
      · exact Nat.le_of_eq hversion
      · exact Nat.le_succ_of_le (h.rowVersion hrow)
    · obtain ⟨rfl, rfl⟩ | ⟨-, hrow⟩ := InsertionMap.get?_of_set hrow
      · exact hgen ▸ h.rowGeneration hprior
      · exact h.rowGeneration hrow
    · obtain ht | ht := List.mem_append.mp ht
      · exact h.timerGeneration (htimers ht)
      · rw [List.mem_singleton.mp ht, htgen]
        exact h.rowGeneration hprior
    · obtain ⟨-, rfl⟩ | ⟨hne, hrow⟩ := InsertionMap.get?_of_set hrow
      · exact hun
      · obtain ht | ht := List.mem_append.mp ht
        · exact h.timed (htimers ht) hrow hgen'
        · exact absurd (List.mem_singleton.mp ht ▸ htx) hne
    · obtain ⟨rfl, rfl⟩ | ⟨-, hrow⟩ := InsertionMap.get?_of_set hrow
      · exact h.apart hprior
      · exact h.apart hrow
    · exact (InsertionMap.get?_set_ne (Ne.symm hx)).trans h.named
    · exact InsertionMap.size_set_of_get? hprior ▸ h.rowRoom

theorem Law.clearTimer (h : Law o m) (timer : Nat) : Law o (m.clearTimer timer) where
  rowVersion := h.rowVersion
  stoneVersion := h.stoneVersion
  rowGeneration := h.rowGeneration
  timerGeneration ht := h.timerGeneration (clearTimer_timers timer ht)
  timed ht := h.timed (clearTimer_timers timer ht)
  apart := h.apart
  named := h.named
  rowRoom := h.rowRoom
  stoneRoom := h.stoneRoom

theorem Law.beginReconcile (h : Law o m) : Law o m.beginReconcile.1 := { h with }

/-- A row can go. -/
theorem Law.erase (h : Law o m) (x : String) :
    Law o { m with entries := m.entries.erase x } where
  rowVersion hrow := h.rowVersion (InsertionMap.get?_of_erase hrow).2
  stoneVersion := h.stoneVersion
  rowGeneration hrow := h.rowGeneration (InsertionMap.get?_of_erase hrow).2
  timerGeneration := h.timerGeneration
  timed ht hrow := h.timed ht (InsertionMap.get?_of_erase hrow).2
  apart hrow := h.apart (InsertionMap.get?_of_erase hrow).2
  named := by
    cases hrow : (m.entries.erase x).get? "" with
    | none => rfl
    | some e => exact absurd (h.named.symm.trans (InsertionMap.get?_of_erase hrow).2) (by simp)
  rowRoom := Nat.le_trans InsertionMap.size_erase_le h.rowRoom
  stoneRoom := h.stoneRoom

theorem Law.fire (h : Law o m) (t : RowTimer) : Law o (m.fire o t) := by
  obtain ⟨-, heq⟩ | ⟨e, -, -, heq⟩ := fire_cases (o := o) (m := m) t
  · rw [heq]
    exact h.clearTimer t.id
  · rw [heq]
    exact ((h.clearTimer t.id).erase t.txid).bury InsertionMap.get?_erase_self

/-! ## The transaction of a frame -/

theorem pending_mutation (hx : row.txid ≠ "") :
    (m.pending o row now).mutation = m.mutation + 1 := by
  obtain ⟨_, _, -, -, -, -, -, heq⟩ | ⟨-, _, _, -, -, -, -, heq⟩ :=
    pending_cases (o := o) (m := m) now hx
  · rw [heq]
  · rw [heq]

theorem pending_reconcileId : (m.pending o row now).reconcileId = m.reconcileId := by
  by_cases hx : row.txid = ""
  · rw [PendingModel.pending, if_pos hx]
  obtain ⟨_, _, -, -, -, -, -, heq⟩ | ⟨-, _, _, -, -, -, -, heq⟩ :=
    pending_cases (o := o) (m := m) now hx
  · rw [heq]
  · rw [heq]

/-- What is announced is shown. -/
theorem pending_self (h : Law o m) (now : Int) (hx : row.txid ≠ "") :
    ∃ e, (m.pending o row now).entries.get? row.txid = some e ∧ e.unresolved = true ∧
      e.version = m.mutation + 1 := by
  obtain ⟨_, e, -, -, hun, hversion, -, heq⟩ | ⟨-, e, _, -, hun, hversion, -, heq⟩ :=
    pending_cases (o := o) (m := m) now hx
  · exact ⟨e, by rw [heq]; exact InsertionMap.get?_set_self, hun, hversion⟩
  · refine ⟨e, ?_, hun, hversion⟩
    rw [heq]
    exact InsertionMap.get?_trim_set_self (Nat.le_trans InsertionMap.size_erase_le h.rowRoom)
      o.live_pos

theorem resolve_mutation (hx : row.txid ≠ "") : (m.resolve o row).mutation = m.mutation + 1 := by
  obtain ⟨-, heq⟩ | ⟨_, _, _, _, -, -, -, -, -, -, -, heq⟩ := resolve_cases (o := o) (m := m) hx
  · rw [heq]
  · rw [heq]

theorem resolve_reconcileId : (m.resolve o row).reconcileId = m.reconcileId := by
  by_cases hx : row.txid = ""
  · rw [PendingModel.resolve, if_pos hx]
  obtain ⟨-, heq⟩ | ⟨_, _, _, _, -, -, -, -, -, -, -, heq⟩ := resolve_cases (o := o) (m := m) hx
  · rw [heq]
  · rw [heq]

/-- What is resolved fades, or has a tombstone. -/
theorem resolve_self (h : Law o m) (hx : row.txid ≠ "") :
    (∃ e, (m.resolve o row).entries.get? row.txid = some e ∧ e.unresolved = false ∧
      e.version = m.mutation + 1) ∨
    (m.resolve o row).entries.get? row.txid = none ∧
      (m.resolve o row).tombstones.get? row.txid = some (m.mutation + 1) := by
  obtain ⟨hnone, heq⟩ | ⟨_, e, _, _, -, -, -, -, hun, hversion, -, heq⟩ :=
    resolve_cases (o := o) (m := m) hx
  · rw [heq]
    exact .inr ⟨hnone, InsertionMap.get?_trim_set_self h.stoneRoom o.live_pos⟩
  · exact .inl ⟨e, by rw [heq]; exact InsertionMap.get?_set_self, hun, hversion⟩

theorem fire_reconcileId (t : RowTimer) : (m.fire o t).reconcileId = m.reconcileId := by
  obtain ⟨-, heq⟩ | ⟨_, -, -, heq⟩ := fire_cases (o := o) (m := m) t
  · rw [heq]
    rfl
  · rw [heq]
    rfl

theorem fire_mutation (t : RowTimer) : m.mutation ≤ (m.fire o t).mutation := by
  obtain ⟨-, heq⟩ | ⟨_, -, -, heq⟩ := fire_cases (o := o) (m := m) t
  · rw [heq]
    exact Nat.le_refl _
  · rw [heq]
    exact Nat.le_succ _

/-! ## The other transactions -/

/-- The row and the tombstone of a transaction are as they were, or are gone and were
spare. -/
structure Keeps (spare : Nat → Prop) (x : String) (m m' : PendingModel) : Prop where
  row : m'.entries.get? x = m.entries.get? x ∨ m'.entries.get? x = none ∧
    ∃ e, m.entries.get? x = some e ∧ e.unresolved = false ∧ spare e.version
  stone : m'.tombstones.get? x = m.tombstones.get? x ∨ m'.tombstones.get? x = none ∧
    ∃ v, m.tombstones.get? x = some v ∧ spare v

variable {spare : Nat → Prop} {x : String}

theorem pending_keeps (h : Law o m) (hk : row.txid ≠ "") (hne : x ≠ row.txid)
    (hroom : (m.entries.get? row.txid).any (·.unresolved) = true ∨
      (m.entries.erase row.txid).size < o.live ∨
      ∀ e ∈ (m.entries.erase row.txid).entries.head?, e.2.unresolved = false ∧ spare e.2.version) :
    Keeps spare x m (m.pending o row now) := by
  obtain ⟨_, _, -, -, -, -, -, heq⟩ | ⟨hany, e, _, -, -, -, -, heq⟩ :=
    pending_cases (o := o) (m := m) now hk
  · rw [heq]
    exact ⟨.inl (InsertionMap.get?_set_ne hne), .inl (InsertionMap.get?_erase_ne hne)⟩
  · rw [heq]
    refine ⟨?_, .inl (InsertionMap.get?_erase_ne hne)⟩
    obtain hsame | ⟨hgone, -, hfull, e', hhead⟩ := InsertionMap.get?_trim_set_ne (v := e)
      (Nat.le_trans InsertionMap.size_erase_le h.rowRoom) hne
    · exact .inl (hsame.trans (InsertionMap.get?_erase_ne hne))
    · obtain hshown | hroom | hspare := hroom
      · exact absurd (hany.symm.trans hshown) Bool.false_ne_true
      · exact absurd hfull (Nat.ne_of_lt hroom)
      · have hrow : (m.entries.erase row.txid).get? x = some e' :=
          InsertionMap.get?_eq_some_iff.mpr (List.mem_of_head? hhead)
        exact .inr ⟨hgone, e', (InsertionMap.get?_of_erase hrow).2, hspare _ hhead⟩

/-- A tombstone at the end. -/
theorem bury_keeps (h : Law o m) {k : String} {v : Nat} (hne : x ≠ k)
    (hroom : (m.tombstones.get? k).isSome = true ∨ m.tombstones.size < o.live ∨
      ∀ e ∈ m.tombstones.entries.head?, spare e.2) :
    ((m.tombstones.set k v).trim o.live).get? x = m.tombstones.get? x ∨
      ((m.tombstones.set k v).trim o.live).get? x = none ∧
        ∃ w, m.tombstones.get? x = some w ∧ spare w := by
  obtain hsame | ⟨hgone, hnone, hfull, w, hhead⟩ :=
    InsertionMap.get?_trim_set_ne (v := v) h.stoneRoom hne
  · exact .inl hsame
  · obtain hsome | hroom | hspare := hroom
    · rw [hnone] at hsome
      cases hsome
    · exact absurd hfull (Nat.ne_of_lt hroom)
    · exact .inr ⟨hgone, w, InsertionMap.get?_eq_some_iff.mpr (List.mem_of_head? hhead),
        hspare _ hhead⟩

theorem resolve_keeps (h : Law o m) (hk : row.txid ≠ "") (hne : x ≠ row.txid)
    (hroom : (m.entries.get? row.txid).isSome = true ∨
      (m.tombstones.get? row.txid).isSome = true ∨ m.tombstones.size < o.live ∨
      ∀ e ∈ m.tombstones.entries.head?, spare e.2) :
    Keeps spare x m (m.resolve o row) := by
  obtain ⟨hnone, heq⟩ | ⟨_, _, _, _, -, -, -, -, -, -, -, heq⟩ :=
    resolve_cases (o := o) (m := m) hk
  · rw [heq]
    refine ⟨.inl rfl, bury_keeps h hne (hroom.resolve_left fun hsome ↦ ?_)⟩
    rw [hnone] at hsome
    cases hsome
  · rw [heq]
    exact ⟨.inl (InsertionMap.get?_set_ne hne), .inl rfl⟩

theorem fire_keeps (h : Law o m) {t : RowTimer} (hne : x ≠ t.txid)
    (hroom : (m.entries.get? t.txid).all (·.generation ≠ t.generation) = true ∨
      (m.tombstones.get? t.txid).isSome = true ∨ m.tombstones.size < o.live ∨
      ∀ e ∈ m.tombstones.entries.head?, spare e.2) :
    Keeps spare x m (m.fire o t) := by
  obtain ⟨-, heq⟩ | ⟨e, hrow, hgen, heq⟩ := fire_cases (o := o) (m := m) t
  · rw [heq]
    exact ⟨.inl rfl, .inl rfl⟩
  · rw [heq]
    refine ⟨.inl (InsertionMap.get?_erase_ne hne),
      bury_keeps h hne (hroom.resolve_left fun hall ↦ ?_)⟩
    rw [hrow, Option.all_some] at hall
    exact of_decide_eq_true hall hgen

end PendingModel

end Kascov
