import Kascov.Web.PendingLaw
import Mathlib.Data.List.Induction

/-!
# What a snapshot leaves

A transaction that changed after the ticket keeps its row, one that was resolved after it
stays hidden, and every other has a row exactly if the snapshot names it.
-/

namespace Kascov

/-- The rows differ in their events only. -/
structure RowEntry.Same (e e' : RowEntry) : Prop where
  resolution : e'.resolution = e.resolution
  version : e'.version = e.version
  generation : e'.generation = e.generation

namespace RowEntry.Same

variable {e e' e'' : RowEntry}

theorem refl (e : RowEntry) : e.Same e := ⟨rfl, rfl, rfl⟩

theorem trans (h : e.Same e') (h' : e'.Same e'') : e.Same e'' :=
  ⟨h'.resolution.trans h.resolution, h'.version.trans h.version, h'.generation.trans h.generation⟩

theorem unresolved_eq (h : e.Same e') : e'.unresolved = e.unresolved := by
  rw [unresolved, unresolved, h.resolution]

end RowEntry.Same

namespace PendingModel

/-- The model with the rows of a snapshot, before the cap. -/
def takeOver (m : PendingModel) (ticket : Ticket) (rows : List PendingFrame) (now : Int) :
    PendingModel :=
  let (m', next) := rows.foldl (snapshotRow ticket now) (m, {})
  { m' with
    entries := m'.entries.entries.foldl (laterRow ticket (rows.map (·.txid))) next
    tombstones := m'.tombstones.filter fun _ version ↦ ticket.version < version }

variable {o : PendingOptions} {m : PendingModel} {ticket : Ticket} {rows : List PendingFrame}
  {now : Int}

theorem applySnapshot_of_eq (h : ticket.id = m.reconcileId) :
    m.applySnapshot o ticket rows now = trim o (m.takeOver ticket rows now) :=
  if_neg (not_not.mpr h)

theorem applySnapshot_of_ne (h : ticket.id ≠ m.reconcileId) :
    m.applySnapshot o ticket rows now = m := if_pos h

/-- The transaction changed after version `s`. -/
def Later (m : PendingModel) (s : Nat) (x : String) : Prop :=
  ∃ e, m.entries.get? x = some e ∧ s < e.version

/-- The transaction was resolved after version `s` and has no row. -/
def Hidden (m : PendingModel) (s : Nat) (x : String) : Prop :=
  ∃ v, m.tombstones.get? x = some v ∧ s < v

theorem hidden_iff {s : Nat} {x : String} :
    (m.tombstones.get? x).any (s < ·) = true ↔ m.Hidden s x := by
  rw [Hidden, Option.any_eq_true]
  exact exists_congr fun v ↦ and_congr_right' decide_eq_true_iff

/-- A row that a snapshot brings. -/
structure Fresh (m : PendingModel) (s generation : Nat) (e : RowEntry) : Prop where
  unresolved : e.unresolved = true
  version : e.version = s
  new : m.generation < e.generation
  generation_le : e.generation ≤ generation

theorem Fresh.mono {s generation generation' : Nat} {e : RowEntry} (h : Fresh m s generation e)
    (hle : generation ≤ generation') : Fresh m s generation' e :=
  { h with generation_le := Nat.le_trans h.generation_le hle }

/-- What the next rows say of a transaction. -/
def Answer (m : PendingModel) (s generation : Nat) (named : Prop) (x : String) :
    Option RowEntry → Prop
  | some e' => named ∧ ¬ m.Hidden s x ∧
      ((∃ e, m.entries.get? x = some e ∧ s < e.version ∧ e.Same e') ∨
        ¬ m.Later s x ∧ Fresh m s generation e')
  | none => ¬ named ∨ m.Hidden s x

theorem Answer.congr {s generation generation' : Nat} {named named' : Prop} {x : String}
    {r : Option RowEntry} (h : Answer m s generation named x r) (hnamed : named ↔ named')
    (hle : generation ≤ generation') : Answer m s generation' named' x r := by
  cases r with
  | none => exact h.imp_left (not_congr hnamed).mp
  | some e' =>
      obtain ⟨hn, hhidden, hrow⟩ := h
      exact ⟨hnamed.mp hn, hhidden, hrow.imp_right fun hrow ↦ ⟨hrow.1, hrow.2.mono hle⟩⟩

/-- What the loop over the rows of a snapshot keeps. -/
structure Taken (m : PendingModel) (s : Nat) (rows : List PendingFrame)
    (acc : PendingModel × InsertionMap String RowEntry) : Prop where
  tombstones : acc.1.tombstones = m.tombstones
  mutation : acc.1.mutation = m.mutation
  reconcileId : acc.1.reconcileId = m.reconcileId
  timers : acc.1.timers = m.timers
  generation : m.generation ≤ acc.1.generation
  kept : ∀ x, Option.Rel RowEntry.Same (m.entries.get? x) (acc.1.entries.get? x)
  next : ∀ x, Answer m s acc.1.generation (x ≠ "" ∧ x ∈ rows.map PendingFrame.txid) x
    (acc.2.get? x)

theorem Taken.initial (m : PendingModel) (s : Nat) : Taken m s [] (m, {}) where
  tombstones := rfl
  mutation := rfl
  reconcileId := rfl
  timers := rfl
  generation := Nat.le_refl _
  kept x := by
    cases m.entries.get? x with
    | none => exact .none
    | some e => exact .some (.refl e)
  next _ := .inl fun h ↦ absurd h.2 (List.not_mem_nil)

/-- A row after the rows before it, for the other transactions. -/
theorem named_append_of_ne {x : String} {row : PendingFrame} (hx : x ≠ row.txid) :
    (x ≠ "" ∧ x ∈ rows.map PendingFrame.txid) ↔
      (x ≠ "" ∧ x ∈ (rows ++ [row]).map PendingFrame.txid) := by
  rw [List.map_append, List.mem_append, List.map_singleton, List.mem_singleton, or_iff_left hx]

theorem named_append_self {row : PendingFrame} (hx : row.txid ≠ "") :
    row.txid ≠ "" ∧ row.txid ∈ (rows ++ [row]).map PendingFrame.txid :=
  ⟨hx, by rw [List.map_append]; exact List.mem_append_right _ (List.mem_singleton_self _)⟩

theorem Taken.snoc {acc : PendingModel × InsertionMap String RowEntry} {row : PendingFrame}
    (h : Taken m ticket.version rows acc) :
    Taken m ticket.version (rows ++ [row]) (snapshotRow ticket now acc row) := by
  obtain ⟨m', next⟩ := acc
  obtain ⟨htomb, hmut, hid, htimers, hgen, hkept, hnext⟩ := h
  have hhidden {x} : m'.Hidden ticket.version x ↔ m.Hidden ticket.version x := by
    rw [Hidden, htomb, Hidden]
  by_cases hempty : row.txid = ""
  · rw [snapshotRow, if_pos hempty]
    refine ⟨htomb, hmut, hid, htimers, hgen, hkept, fun x ↦ (hnext x).congr ?_ (Nat.le_refl _)⟩
    by_cases hx : x = row.txid
    · rw [hx, hempty]
      exact iff_of_false (fun h ↦ h.1 rfl) (fun h ↦ h.1 rfl)
    · exact named_append_of_ne hx
  by_cases hstone : m'.Hidden ticket.version row.txid
  · rw [snapshotRow, if_neg hempty, if_pos (hidden_iff.mpr hstone)]
    refine ⟨htomb, hmut, hid, htimers, hgen, hkept, fun x ↦ ?_⟩
    by_cases hx : x = row.txid
    · subst hx
      have hself := hnext row.txid
      dsimp only at hself ⊢
      cases hrow : next.get? row.txid with
      | none => exact .inr (hhidden.mp hstone)
      | some e' =>
          rw [hrow] at hself
          exact absurd (hhidden.mp hstone) hself.2.1
    · exact (hnext x).congr (named_append_of_ne hx) (Nat.le_refl _)
  have hseen : ¬ m.Hidden ticket.version row.txid := fun h ↦ hstone (hhidden.mpr h)
  have hrel := hkept row.txid
  dsimp only at hrel
  rw [snapshotRow, if_neg hempty, if_neg fun h ↦ hstone (hidden_iff.mp h)]
  cases hcurrent : (m'.entries.get? row.txid).filter (ticket.version < ·.version) with
  | some current =>
      obtain ⟨hrow, hlater⟩ := Option.filter_eq_some_iff.mp hcurrent
      rw [hrow] at hrel
      obtain ⟨e, he, hsame⟩ : ∃ e, m.entries.get? row.txid = some e ∧ e.Same current := by
        cases hm : m.entries.get? row.txid with
        | none => rw [hm] at hrel; cases hrel
        | some e => rw [hm] at hrel; cases hrel with | some hsame => exact ⟨e, rfl, hsame⟩
      have hversion : ticket.version < e.version := hsame.version ▸ of_decide_eq_true hlater
      refine ⟨htomb, hmut, hid, htimers, hgen, fun x ↦ ?_, fun x ↦ ?_⟩
      · by_cases hx : x = row.txid
        · subst hx
          dsimp only
          rw [InsertionMap.get?_set_self, he]
          exact .some ⟨hsame.resolution, hsame.version, hsame.generation⟩
        · dsimp only
          rw [InsertionMap.get?_set_ne hx]
          exact hkept x
      · by_cases hx : x = row.txid
        · subst hx
          dsimp only
          rw [InsertionMap.get?_set_self]
          exact ⟨named_append_self hempty, hseen,
            .inl ⟨e, he, hversion, hsame.resolution, hsame.version, hsame.generation⟩⟩
        · dsimp only
          rw [InsertionMap.get?_set_ne hx]
          exact (hnext x).congr (named_append_of_ne hx) (Nat.le_refl _)
  | none =>
      have hlater : ¬ m.Later ticket.version row.txid := by
        rintro ⟨e, he, hversion⟩
        rw [he] at hrel
        cases hm' : m'.entries.get? row.txid with
        | none => rw [hm'] at hrel; cases hrel
        | some e' =>
            rw [hm'] at hrel hcurrent
            cases hrel with
            | some hsame =>
                rw [Option.filter_some,
                  if_pos (decide_eq_true (hsame.version ▸ hversion))] at hcurrent
                cases hcurrent
      refine ⟨htomb, hmut, hid, htimers, Nat.le_succ_of_le hgen, hkept, fun x ↦ ?_⟩
      by_cases hx : x = row.txid
      · subst hx
        dsimp only
        rw [InsertionMap.get?_set_self]
        exact ⟨named_append_self hempty, hseen,
          .inr ⟨hlater, rfl, rfl, Nat.lt_succ_of_le hgen, Nat.le_refl _⟩⟩
      · dsimp only
        rw [InsertionMap.get?_set_ne hx]
        exact (hnext x).congr (named_append_of_ne hx) (Nat.le_succ _)

theorem taken (m : PendingModel) (ticket : Ticket) (rows : List PendingFrame) (now : Int) :
    Taken m ticket.version rows (rows.foldl (snapshotRow ticket now) (m, {})) := by
  induction rows using List.reverseRecOn with
  | nil => exact .initial m _
  | append_singleton rows row ih =>
      rw [List.foldl_concat]
      exact ih.snoc

/-- The loop over the rows that were there. -/
theorem foldl_laterRow_get? {seen : List String} {x : String} (l : List (String × RowEntry))
    (next : InsertionMap String RowEntry) (hnodup : (l.map Prod.fst).Nodup) :
    (l.foldl (laterRow ticket seen) next).get? x =
      match (l.lookup x).filter fun e ↦ ticket.version < e.version ∧ x ∉ seen with
      | some e => some e
      | none => next.get? x := by
  induction l generalizing next with
  | nil => rfl
  | cons e l ih =>
      obtain ⟨hnew, hnodup⟩ := List.nodup_cons.mp hnodup
      rw [List.foldl_cons, ih _ hnodup]
      by_cases hx : x = e.1
      · have hrest : l.lookup x = none := by
          rw [List.lookup_eq_none_iff]
          intro e' he'
          have hne : x ≠ e'.1 := fun heq ↦ hnew (hx ▸ heq ▸ List.mem_map_of_mem he')
          simpa using hne
        rw [hrest, List.lookup_cons, beq_iff_eq.mpr hx, Option.filter_none, Option.filter_some]
        dsimp only
        rw [laterRow]
        by_cases hlater : ticket.version < e.2.version ∧ x ∉ seen
        · rw [if_pos (decide_eq_true hlater), if_pos (hx ▸ hlater), hx]
          exact InsertionMap.get?_set_self
        · rw [if_neg fun h ↦ hlater (of_decide_eq_true h), if_neg (hx ▸ hlater)]
      · have hne : (x == e.1) = false := beq_eq_false_iff_ne.mpr hx
        have hsame : (laterRow ticket seen next e).get? x = next.get? x := by
          rw [laterRow]
          split
          · exact InsertionMap.get?_set_ne hx
          · rfl
        rw [List.lookup_cons, hne, hsame]

/-- The row that a transaction has once the snapshot is taken over. -/
def Outcome (m : PendingModel) (s generation : Nat) (named : Prop) (x : String) :
    Option RowEntry → Prop
  | some e' => (∃ e, m.entries.get? x = some e ∧ s < e.version ∧ e.Same e') ∨
      (named ∧ ¬ m.Hidden s x ∧ ¬ m.Later s x ∧ Fresh m s generation e')
  | none => ¬ m.Later s x ∧ (¬ named ∨ m.Hidden s x)

theorem Taken.outcome {m' : PendingModel} {next : InsertionMap String RowEntry}
    (htaken : Taken m ticket.version rows (m', next)) (h : Law o m) (x : String) :
    Outcome m ticket.version m'.generation (x ≠ "" ∧ x ∈ rows.map PendingFrame.txid) x
      ((m'.entries.entries.foldl (laterRow ticket (rows.map (·.txid))) next).get? x) := by
  have hkept := htaken.kept x
  have hanswer := htaken.next x
  dsimp only at hkept hanswer ⊢
  rw [foldl_laterRow_get? _ _ m'.entries.distinct]
  cases hlater : (m'.entries.entries.lookup x).filter fun e ↦
      ticket.version < e.version ∧ x ∉ rows.map PendingFrame.txid with
  | some e' =>
      obtain ⟨hrow, hversion⟩ := Option.filter_eq_some_iff.mp hlater
      have hrow : m'.entries.get? x = some e' := hrow
      rw [hrow] at hkept
      cases hm : m.entries.get? x with
      | none => rw [hm] at hkept; cases hkept
      | some e =>
          rw [hm] at hkept
          cases hkept with
          | some hsame =>
              exact .inl ⟨e, hm, hsame.version ▸ (of_decide_eq_true hversion).1, hsame⟩
  | none =>
      -- what changed later and is not in the snapshot was found before
      have hnamed (hl : m.Later ticket.version x) : x ∈ rows.map PendingFrame.txid := by
        obtain ⟨e, he, hversion⟩ := hl
        rw [he] at hkept
        cases hm' : m'.entries.get? x with
        | none => rw [hm'] at hkept; cases hkept
        | some e' =>
            rw [hm'] at hkept
            cases hkept with
            | some hsame =>
                by_contra hnot
                have hlookup : m'.entries.entries.lookup x = some e' := hm'
                rw [hlookup, Option.filter_some,
                  if_pos (decide_eq_true ⟨hsame.version ▸ hversion, hnot⟩)] at hlater
                cases hlater
      dsimp only
      cases hnext : next.get? x with
      | some e' =>
          rw [hnext] at hanswer
          obtain ⟨hn, hhidden, hrow⟩ := hanswer
          exact hrow.imp_right fun hrow ↦ ⟨hn, hhidden, hrow⟩
      | none =>
          rw [hnext] at hanswer
          refine ⟨fun hl ↦ ?_, hanswer⟩
          obtain ⟨e, he, -⟩ := id hl
          obtain hnot | ⟨v, hstone, -⟩ := hanswer
          · refine hnot ⟨?_, hnamed hl⟩
            rintro rfl
            exact absurd he (by rw [h.named]; simp)
          · exact absurd ((h.apart he).symm.trans hstone) (by simp)

theorem takeOver_row (h : Law o m) (ticket : Ticket) (rows : List PendingFrame) (now : Int)
    (x : String) :
    Outcome m ticket.version (m.takeOver ticket rows now).generation
      (x ≠ "" ∧ x ∈ rows.map PendingFrame.txid) x
      ((m.takeOver ticket rows now).entries.get? x) :=
  (taken m ticket rows now).outcome h x

theorem takeOver_stone {x : String} {v : Nat} :
    (m.takeOver ticket rows now).tombstones.get? x = some v ↔
      m.tombstones.get? x = some v ∧ ticket.version < v := by
  rw [takeOver, InsertionMap.get?_filter, (taken m ticket rows now).tombstones, decide_eq_true_iff]

theorem Law.applySnapshot (h : Law o m) (hversion : ticket.version ≤ m.mutation) :
    Law o (m.applySnapshot o ticket rows now) := by
  by_cases hid : ticket.id = m.reconcileId
  · rw [applySnapshot_of_eq hid]
    have htaken := taken m ticket rows now
    have hrows {x e} (hrow : (trim o (m.takeOver ticket rows now)).entries.get? x = some e) :
        (∃ e₀, m.entries.get? x = some e₀ ∧ ticket.version < e₀.version ∧ e₀.Same e) ∨
          (x ≠ "" ∧ x ∈ rows.map PendingFrame.txid) ∧ ¬ m.Hidden ticket.version x ∧
            ¬ m.Later ticket.version x ∧
              Fresh m ticket.version (m.takeOver ticket rows now).generation e := by
      have hout := takeOver_row h ticket rows now x
      rw [InsertionMap.get?_of_trim _ hrow] at hout
      exact hout
    refine ⟨fun hrow ↦ ?_, fun hstone ↦ ?_, fun hrow ↦ ?_, fun ht ↦ ?_, fun ht hrow hgen ↦ ?_,
      fun hrow ↦ ?_, ?_, InsertionMap.size_trim_le _, ?_⟩
    · refine Nat.le_trans ?_ (Nat.le_of_eq htaken.mutation.symm)
      obtain ⟨e₀, he₀, -, hsame⟩ | ⟨-, -, -, hfresh⟩ := hrows hrow
      · exact hsame.version ▸ h.rowVersion he₀
      · exact hfresh.version ▸ hversion
    · exact htaken.mutation.symm ▸ h.stoneVersion (takeOver_stone.mp hstone).1
    · obtain ⟨e₀, he₀, -, hsame⟩ | ⟨-, -, -, hfresh⟩ := hrows hrow
      · exact hsame.generation ▸ Nat.le_trans (h.rowGeneration he₀) htaken.generation
      · exact hfresh.generation_le
    · exact Nat.le_trans (h.timerGeneration (htaken.timers ▸ ht)) htaken.generation
    · have ht := htaken.timers ▸ ht
      obtain ⟨e₀, he₀, -, hsame⟩ | ⟨-, -, -, hfresh⟩ := hrows hrow
      · exact hsame.unresolved_eq.trans (h.timed ht he₀ (hsame.generation ▸ hgen))
      · exact absurd (h.timerGeneration ht) (Nat.not_le.mpr (hgen ▸ hfresh.new))
    · cases hstone : (trim o (m.takeOver ticket rows now)).tombstones.get? _ with
      | none => rfl
      | some v =>
          obtain ⟨hstone, hv⟩ := takeOver_stone.mp hstone
          obtain ⟨e₀, he₀, -, -⟩ | ⟨-, hhidden, -⟩ := hrows hrow
          · exact absurd ((h.apart he₀).symm.trans hstone) (by simp)
          · exact absurd ⟨v, hstone, hv⟩ hhidden
    · cases hrow : (trim o (m.takeOver ticket rows now)).entries.get? "" with
      | none => rfl
      | some e =>
          obtain ⟨e₀, he₀, -, -⟩ | ⟨hnamed, -⟩ := hrows hrow
          · exact absurd (h.named.symm.trans he₀) (by simp)
          · exact absurd rfl hnamed.1
    · exact Nat.le_trans (List.length_filter_le _ _) (htaken.tombstones.symm ▸ h.stoneRoom)
  · rw [applySnapshot_of_ne hid]
    exact h

end PendingModel

end Kascov
