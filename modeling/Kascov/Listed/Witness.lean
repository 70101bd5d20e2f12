import Kascov.Lib.Past
import Kascov.Model.Types

/-!
# Witnessed logos

The re-check policy of `witness.rs`: what one check of a listed logo's source does to its
witness row, and what the caller stores.  A copy outlives its source, and new bytes at an
unchanged url wait for a second sighting.  A failure between the two sightings does not
make the first one forgotten.
-/

namespace Kascov.Witness

/-! ## One check -/

/-- A healthy source is re-checked this often. -/
def RECHECK_MS : Int := 24 * 60 * 60 * 1000

/-- First retry after a failure. -/
def BACKOFF_BASE_MS : Int := 60 * 60 * 1000

structure Thumb where
  bytes : Bytes
  contentType : String
  sourceSha256 : String
  thumbSha256 : String
deriving DecidableEq, Repr

/-- The states a row is written with. -/
inductive RowState where
  | witnessed
  | unavailable
  | notAnImage
  | delisted
deriving DecidableEq, Repr

/-- One witness row.  The times and counters are `i64`; the clock and the counts stay far
from its end. -/
structure WitnessRow where
  covenantId : String
  sourceUrl : String
  observedSha256 : Option String
  thumbSha256 : Option String
  contentType : Option String
  firstSeenMs : Option Int
  lastCheckedMs : Option Int
  lastChangeMs : Option Int
  changeCount : Nat
  failCount : Nat
  nextCheckMs : Int
  state : RowState
  pendingSha256 : Option String
deriving DecidableEq, Repr

/-- What one check of the source produced. -/
inductive Checked where
  | image (t : Thumb)
  | notAnImage
  | failed
deriving DecidableEq, Repr

/-- What the caller must persist after a check. -/
structure Effect where
  row : WitnessRow
  storeBlob : Option (String × String × Bytes)
  logChange : Option (String × String)
deriving DecidableEq, Repr

/-- The delay doubles with each failure.  It is called with `fails ≥ 1` only. -/
def backoff (fails : Nat) : Int :=
  min (BACKOFF_BASE_MS * 2 ^ (min fails 5 - 1)) RECHECK_MS

/-- The row that shows the image from now on. -/
def WitnessRow.showing (row : WitnessRow) (t : Thumb) (nowMs : Int) : WitnessRow :=
  { row with
    lastCheckedMs := some nowMs
    observedSha256 := some t.sourceSha256
    thumbSha256 := some t.thumbSha256
    contentType := some t.contentType
    failCount := 0
    pendingSha256 := none
    nextCheckMs := nowMs + RECHECK_MS }

/-- The row that shows what it did, a good check later. -/
def WitnessRow.holding (row : WitnessRow) (pending : Option String) (nowMs : Int) : WitnessRow :=
  { row with
    lastCheckedMs := some nowMs
    failCount := 0
    pendingSha256 := pending
    nextCheckMs := nowMs + RECHECK_MS }

/-- The row after a check that showed no image.  What is held stays held. -/
def WitnessRow.missing (row : WitnessRow) (state : RowState) (nowMs : Int) : WitnessRow :=
  { row with
    lastCheckedMs := some nowMs
    failCount := row.failCount + 1
    state := if row.observedSha256 = none then state else row.state
    nextCheckMs := nowMs + backoff (row.failCount + 1) }

def Thumb.blob (t : Thumb) : String × String × Bytes :=
  (t.thumbSha256, t.contentType, t.bytes)

/-- The branch of `apply_check` for an image. -/
def checkImage (row : WitnessRow) (t : Thumb) (nowMs : Int) (sourceReplaced : Bool) : Effect :=
  match row.observedSha256 with
  | none =>
      { row := { row.showing t nowMs with firstSeenMs := some nowMs, state := .witnessed }
        storeBlob := some t.blob
        logChange := none }
  | some seen =>
      if sourceReplaced then
        -- the publisher replaced the logo: adopted at once, a change only where it is one
        { row := { row.showing t nowMs with
            state := .witnessed
            changeCount := if seen = t.sourceSha256 then row.changeCount else row.changeCount + 1
            lastChangeMs := if seen = t.sourceSha256 then row.lastChangeMs else some nowMs }
          storeBlob := some t.blob
          logChange := if seen = t.sourceSha256 then none else some (seen, t.sourceSha256) }
      else if seen = t.sourceSha256 then
        { row := row.holding none nowMs, storeBlob := none, logChange := none }
      else if row.pendingSha256 = some t.sourceSha256 then
        -- taken for the second consecutive sighting
        { row := { row.showing t nowMs with
            changeCount := row.changeCount + 1, lastChangeMs := some nowMs }
          storeBlob := some t.blob
          logChange := some (seen, t.sourceSha256) }
      else
        { row := row.holding (some t.sourceSha256) nowMs, storeBlob := none, logChange := none }

/-- The whole re-check policy. -/
def applyCheck (row : WitnessRow) (outcome : Checked) (nowMs : Int) (sourceReplaced : Bool) :
    Effect :=
  match outcome with
  | .image t => checkImage row t nowMs sourceReplaced
  | .notAnImage => { row := row.missing .notAnImage nowMs, storeBlob := none, logChange := none }
  | .failed => { row := row.missing .unavailable nowMs, storeBlob := none, logChange := none }

/-! ## What a check can do -/

/-- The image is taken: it becomes the observed one, stored whole, and on the record where
another stood there. -/
structure Taken (row : WitnessRow) (t : Thumb) (nowMs : Int) (sourceReplaced : Bool)
    (e : Effect) : Prop where
  because : row.observedSha256 = none ∨ sourceReplaced = true ∨
    row.pendingSha256 = some t.sourceSha256
  observed : e.row.observedSha256 = some t.sourceSha256
  thumb : e.row.thumbSha256 = some t.thumbSha256
  contentType : e.row.contentType = some t.contentType
  pending : e.row.pendingSha256 = none
  stored : e.storeBlob = some t.blob
  counted : e.row.changeCount = row.changeCount + e.logChange.toList.length
  state : e.row.state = .witnessed ∨ e.row.state = row.state ∧ row.observedSha256 ≠ none
  next : e.row.nextCheckMs = nowMs + RECHECK_MS

/-- The image is not taken: at most it is held. -/
structure Held (row : WitnessRow) (t : Thumb) (nowMs : Int) (e : Effect) : Prop where
  sighted : row.observedSha256 ≠ none
  because : row.observedSha256 = some t.sourceSha256 ∨
    row.pendingSha256 ≠ some t.sourceSha256
  observed : e.row.observedSha256 = row.observedSha256
  thumb : e.row.thumbSha256 = row.thumbSha256
  contentType : e.row.contentType = row.contentType
  pending : e.row.pendingSha256 =
    if row.observedSha256 = some t.sourceSha256 then none else some t.sourceSha256
  stored : e.storeBlob = none
  unlogged : e.logChange = none
  count : e.row.changeCount = row.changeCount
  state : e.row.state = row.state
  next : e.row.nextCheckMs = nowMs + RECHECK_MS

/-- Nothing was seen: the row waits, and keeps what it has. -/
structure Missed (row : WitnessRow) (nowMs : Int) (e : Effect) : Prop where
  observed : e.row.observedSha256 = row.observedSha256
  thumb : e.row.thumbSha256 = row.thumbSha256
  contentType : e.row.contentType = row.contentType
  pending : e.row.pendingSha256 = row.pendingSha256
  stored : e.storeBlob = none
  unlogged : e.logChange = none
  count : e.row.changeCount = row.changeCount
  state : row.observedSha256 ≠ none → e.row.state = row.state
  unwitnessed : row.observedSha256 = none → e.row.state ≠ .witnessed
  fails : e.row.failCount = row.failCount + 1
  next : e.row.nextCheckMs = nowMs + backoff (row.failCount + 1)

theorem applyCheck_image (row : WitnessRow) (t : Thumb) (nowMs : Int) (sourceReplaced : Bool) :
    Taken row t nowMs sourceReplaced (applyCheck row (.image t) nowMs sourceReplaced) ∨
      sourceReplaced = false ∧
        Held row t nowMs (applyCheck row (.image t) nowMs sourceReplaced) := by
  rw [applyCheck]
  cases hobserved : row.observedSha256 with
  | none =>
      left
      simp only [checkImage, hobserved]
      exact ⟨.inl hobserved, rfl, rfl, rfl, rfl, rfl, rfl, .inl rfl, rfl⟩
  | some seen =>
      have hsighted : row.observedSha256 ≠ none := by simp [hobserved]
      simp only [checkImage, hobserved]
      split
      · next hreplaced =>
          refine .inl ⟨.inr (.inl hreplaced), rfl, rfl, rfl, rfl, rfl, ?_, .inl rfl, rfl⟩
          by_cases hseen : seen = t.sourceSha256
          · simp [hseen]
          · simp [hseen]
      · next hreplaced =>
          split
          · next hseen =>
              have hsame := hobserved.trans (congrArg some hseen)
              exact .inr ⟨Bool.eq_false_of_not_eq_true hreplaced, hsighted, .inl hsame, rfl, rfl,
                rfl, (if_pos hsame).symm, rfl, rfl, rfl, rfl, rfl⟩
          · next hseen =>
              have hne : row.observedSha256 ≠ some t.sourceSha256 := by
                rw [hobserved]
                exact fun heq ↦ hseen (Option.some.inj heq)
              split
              · next hpending =>
                  exact .inl ⟨.inr (.inr hpending), rfl, rfl, rfl, rfl, rfl, rfl,
                    .inr ⟨rfl, hsighted⟩, rfl⟩
              · next hpending =>
                  exact .inr ⟨Bool.eq_false_of_not_eq_true hreplaced, hsighted, .inr hpending, rfl,
                    rfl, rfl, (if_neg hne).symm, rfl, rfl, rfl, rfl, rfl⟩

/-- The outcomes that show no image. -/
def Checked.Fails : Checked → Prop
  | .image _ => False
  | .notAnImage | .failed => True

instance : DecidablePred Checked.Fails
  | .image _ => inferInstanceAs (Decidable False)
  | .notAnImage | .failed => inferInstanceAs (Decidable True)

theorem Checked.not_fails_iff {outcome : Checked} : ¬ outcome.Fails ↔ ∃ t, outcome = .image t := by
  cases outcome <;> simp [Checked.Fails]

theorem applyCheck_fails {outcome : Checked} (h : outcome.Fails) (row : WitnessRow) (nowMs : Int)
    (sourceReplaced : Bool) : Missed row nowMs (applyCheck row outcome nowMs sourceReplaced) := by
  cases outcome with
  | image t => exact h.elim
  | notAnImage =>
      exact ⟨rfl, rfl, rfl, rfl, rfl, rfl, rfl, fun hs ↦ if_neg hs,
        fun hn ↦ by simp [applyCheck, WitnessRow.missing, hn], rfl, rfl⟩
  | failed =>
      exact ⟨rfl, rfl, rfl, rfl, rfl, rfl, rfl, fun hs ↦ if_neg hs,
        fun hn ↦ by simp [applyCheck, WitnessRow.missing, hn], rfl, rfl⟩

/-! ## The delay -/

theorem backoff_le (fails : Nat) : backoff fails ≤ RECHECK_MS := min_le_right _ _

theorem backoff_mono {m n : Nat} (h : m ≤ n) : backoff m ≤ backoff n := by
  refine min_le_min ?_ le_rfl
  refine mul_le_mul_of_nonneg_left ?_ (by decide)
  exact pow_le_pow_right₀ (by decide) (Nat.sub_le_sub_right (min_le_min h le_rfl) 1)

/-! ## A run of checks -/

/-- The arguments of one call of `apply_check`. -/
structure Check where
  outcome : Checked
  nowMs : Int
  sourceReplaced : Bool
deriving DecidableEq, Repr

/-- What the caller has stored: the row, the blobs in the order they came, and the change
log. -/
structure Watch where
  row : WitnessRow
  blobs : List (String × String × Bytes)
  log : List (String × String)
deriving DecidableEq, Repr

def Watch.check (w : Watch) (c : Check) : Watch :=
  let e := applyCheck w.row c.outcome c.nowMs c.sourceReplaced
  { row := e.row
    blobs := w.blobs ++ e.storeBlob.toList
    log := w.log ++ e.logChange.toList }

/-- The row of a covenant listed for the first time. -/
def fresh (covenantId sourceUrl : String) : WitnessRow where
  covenantId := covenantId
  sourceUrl := sourceUrl
  observedSha256 := none
  thumbSha256 := none
  contentType := none
  firstSeenMs := none
  lastCheckedMs := none
  lastChangeMs := none
  changeCount := 0
  failCount := 0
  nextCheckMs := 0
  state := .unavailable
  pendingSha256 := none

variable (row : WitnessRow)

/-- The checks of a run, one after the other, on a row nothing was stored for. -/
def watch (checks : List Check) : Watch :=
  checks.foldl Watch.check { row, blobs := [], log := [] }

@[simp] theorem watch_nil : watch row [] = { row, blobs := [], log := [] } := rfl

theorem watch_concat (done : List Check) (c : Check) :
    watch row (done ++ [c]) = (watch row done).check c := List.foldl_concat ..

/-! ## The law of a run -/

/-- The observed hash, the thumbnail and the blob stored last are those of one image the
run has seen, or there is none yet. -/
def OneImage (seen : List Check) (w : Watch) : Prop :=
  (w.row.observedSha256 = none ∧ w.row.thumbSha256 = none ∧ w.row.contentType = none ∧
    w.blobs = []) ∨
  ∃ c ∈ seen, ∃ t, c.outcome = .image t ∧ w.row.observedSha256 = some t.sourceSha256 ∧
    w.row.thumbSha256 = some t.thumbSha256 ∧ w.row.contentType = some t.contentType ∧
    w.blobs.getLast? = some t.blob

/-- The check may change what is observed to its image: no image came before, the source was
replaced, or the check just before saw the same image. -/
def Check.MayAdopt (done : List Check) (c : Check) (t : Thumb) : Prop :=
  (∀ b ∈ done, b.outcome.Fails) ∨ c.sourceReplaced = true ∨
    ∃ prev seen, done.getLast? = some prev ∧ prev.outcome = .image seen ∧
      seen.sourceSha256 = t.sourceSha256

/-- What holds of one check of a run, the checks before it being `done`. -/
structure Lawful (done : List Check) (c : Check) : Prop where
  stays : (watch row done).row.state = .witnessed →
    (watch row (done ++ [c])).row.state = .witnessed
  adopts : (watch row (done ++ [c])).row.observedSha256 ≠ (watch row done).row.observedSha256 →
    ∃ t, c.outcome = .image t ∧
      (watch row (done ++ [c])).row.observedSha256 = some t.sourceSha256 ∧ c.MayAdopt done t
  oneImage : OneImage (done ++ [c]) (watch row (done ++ [c]))
  counted : (watch row (done ++ [c])).row.changeCount = (watch row (done ++ [c])).log.length
  recheck : (watch row (done ++ [c])).row.nextCheckMs - c.nowMs ≤ RECHECK_MS
  backsOff : ∀ prev, done.getLast? = some prev → prev.outcome.Fails → c.outcome.Fails →
    (watch row done).row.nextCheckMs - prev.nowMs ≤
      (watch row (done ++ [c])).row.nextCheckMs - c.nowMs

/-- The check takes a failure for a sighting: the hash of its image is held, and the check
just before saw no image. -/
def Stale (done : List Check) (c : Check) : Prop :=
  c.sourceReplaced = false ∧
    (∃ t, c.outcome = .image t ∧ (watch row done).row.pendingSha256 = some t.sourceSha256) ∧
    ∃ prev, done.getLast? = some prev ∧ prev.outcome.Fails

/-- What is known of the row after the checks of a run. -/
structure Standing (done : List Check) (w : Watch) : Prop where
  oneImage : OneImage done w
  counted : w.row.changeCount = w.log.length
  sighted : w.row.observedSha256 ≠ none ∨
    (∀ b ∈ done, b.outcome.Fails) ∧ w.row.state ≠ .witnessed ∧ w.row.pendingSha256 = none
  shown : w.row.observedSha256 = none ∨ ∃ b ∈ done, ¬ b.outcome.Fails
  pending : ∀ h, w.row.pendingSha256 = some h → w.row.observedSha256 ≠ some h ∧
    ∃ prev, done.getLast? = some prev ∧ ∀ t, prev.outcome = .image t → t.sourceSha256 = h
  delay : ∀ prev, done.getLast? = some prev → prev.outcome.Fails →
    w.row.nextCheckMs = prev.nowMs + backoff w.row.failCount

theorem standing_nil (covenantId sourceUrl : String) :
    Standing [] (watch (fresh covenantId sourceUrl) []) where
  oneImage := .inl ⟨rfl, rfl, rfl, rfl⟩
  counted := rfl
  sighted := .inr ⟨List.forall_mem_nil _, nofun, rfl⟩
  shown := .inl rfl
  pending := fun _ hpending ↦ nomatch hpending
  delay := fun _ hprev ↦ nomatch hprev

variable {row} {done : List Check} {w : Watch} {c : Check}

theorem Standing.taken (h : Standing done w) {t : Thumb} (hc : c.outcome = .image t)
    (he : Taken w.row t c.nowMs c.sourceReplaced
      (applyCheck w.row c.outcome c.nowMs c.sourceReplaced)) :
    Standing (done ++ [c]) (w.check c) where
  oneImage := by
    refine .inr ⟨c, by simp, t, hc, he.observed, he.thumb, he.contentType, ?_⟩
    simp [Watch.check, he.stored]
  counted := by
    simp only [Watch.check, he.counted, h.counted, List.length_append]
  sighted := .inl (by simp [Watch.check, he.observed])
  shown := .inr ⟨c, by simp, by simp [hc, Checked.Fails]⟩
  pending := fun p hp ↦ by
    rw [Watch.check, he.pending] at hp
    cases hp
  delay := fun prev hprev hfails ↦ by
    obtain rfl : c = prev := by simpa using hprev
    rw [hc] at hfails
    exact hfails.elim

theorem Standing.held (h : Standing done w) {t : Thumb} (hc : c.outcome = .image t)
    (he : Held w.row t c.nowMs (applyCheck w.row c.outcome c.nowMs c.sourceReplaced)) :
    Standing (done ++ [c]) (w.check c) where
  oneImage := by
    obtain ⟨hnone, -⟩ | ⟨b, hb, seen, hseen⟩ := h.oneImage
    · exact absurd hnone he.sighted
    · refine .inr ⟨b, by simp [hb], seen, ?_⟩
      simpa [Watch.check, he.observed, he.thumb, he.contentType, he.stored] using hseen
  counted := by
    simp [Watch.check, he.count, he.unlogged, h.counted]
  sighted := .inl (by simpa [Watch.check, he.observed] using he.sighted)
  shown := .inr ⟨c, by simp, by simp [hc, Checked.Fails]⟩
  pending := fun p hp ↦ by
    rw [Watch.check, he.pending] at hp
    split at hp
    · cases hp
    · next hne =>
        obtain rfl := Option.some.inj hp
        refine ⟨by simpa [Watch.check, he.observed] using hne, c, by simp, fun seen hseen ↦ ?_⟩
        rw [hc] at hseen
        rw [Checked.image.inj hseen]
  delay := fun prev hprev hfails ↦ by
    obtain rfl : c = prev := by simpa using hprev
    rw [hc] at hfails
    exact hfails.elim

theorem Standing.missed (h : Standing done w) (hc : c.outcome.Fails)
    (he : Missed w.row c.nowMs (applyCheck w.row c.outcome c.nowMs c.sourceReplaced)) :
    Standing (done ++ [c]) (w.check c) where
  oneImage := by
    obtain hnone | ⟨b, hb, seen, hseen⟩ := h.oneImage
    · left
      simpa [Watch.check, he.observed, he.thumb, he.contentType, he.stored] using hnone
    · refine .inr ⟨b, by simp [hb], seen, ?_⟩
      simpa [Watch.check, he.observed, he.thumb, he.contentType, he.stored] using hseen
  counted := by
    simp [Watch.check, he.count, he.unlogged, h.counted]
  sighted := by
    by_cases hnone : w.row.observedSha256 = none
    · obtain hs | ⟨hall, -, hp⟩ := h.sighted
      · exact absurd hnone hs
      · refine .inr ⟨?_, he.unwitnessed hnone, he.pending.trans hp⟩
        exact List.forall_mem_append.mpr ⟨hall, by simpa using hc⟩
    · exact .inl (by simpa [Watch.check, he.observed] using hnone)
  shown := by
    obtain hnone | ⟨b, hb, hf⟩ := h.shown
    · exact .inl (he.observed.trans hnone)
    · exact .inr ⟨b, by simp [hb], hf⟩
  pending := fun p hp ↦ by
    rw [Watch.check, he.pending] at hp
    refine ⟨by simpa [Watch.check, he.observed] using (h.pending p hp).1, c, by simp, ?_⟩
    intro t ht
    rw [ht] at hc
    exact hc.elim
  delay := fun prev hprev _ ↦ by
    obtain rfl : c = prev := by simpa using hprev
    rw [Watch.check, he.next, he.fails]

/-- One check keeps what is known of the row. -/
theorem Standing.check (h : Standing done w) (c : Check) : Standing (done ++ [c]) (w.check c) := by
  by_cases hc : c.outcome.Fails
  · exact h.missed hc (applyCheck_fails hc ..)
  · obtain ⟨t, ht⟩ := Checked.not_fails_iff.mp hc
    obtain he | ⟨-, he⟩ := applyCheck_image w.row t c.nowMs c.sourceReplaced
    · exact h.taken ht (ht ▸ he)
    · exact h.held ht (ht ▸ he)

/-- What is known of the row after every run. -/
theorem standing_watch (covenantId sourceUrl : String) (checks : List Check) :
    Standing checks (watch (fresh covenantId sourceUrl) checks) := by
  induction checks using List.reverseRecOn with
  | nil => exact standing_nil covenantId sourceUrl
  | append_singleton done c ih =>
      rw [watch_concat]
      exact ih.check c

/-! ## Where it holds -/

/-- A check that takes no failure for a sighting is lawful. -/
theorem Standing.lawful (h : Standing done (watch row done)) (hfresh : ¬ Stale row done c) :
    Lawful row done c := by
  have hnext := h.check c
  rw [← watch_concat] at hnext
  by_cases hc : c.outcome.Fails
  · have he := applyCheck_fails hc (watch row done).row c.nowMs c.sourceReplaced
    refine ⟨fun hs ↦ ?_, fun hne ↦ ?_, hnext.oneImage, hnext.counted, ?_, fun prev hprev hf _ ↦ ?_⟩
    · rw [watch_concat, Watch.check, ← hs]
      refine he.state fun hnone ↦ ?_
      obtain hsighted | ⟨-, hstate, -⟩ := h.sighted
      · exact hsighted hnone
      · exact hstate hs
    · rw [watch_concat, Watch.check] at hne
      exact absurd he.observed hne
    · rw [watch_concat, Watch.check, he.next, add_sub_cancel_left]
      exact backoff_le _
    · rw [h.delay prev hprev hf, watch_concat, Watch.check, he.next, add_sub_cancel_left,
        add_sub_cancel_left]
      exact backoff_mono (Nat.le_succ _)
  · obtain ⟨t, ht⟩ := Checked.not_fails_iff.mp hc
    have hbacks : ∀ prev, done.getLast? = some prev → prev.outcome.Fails → c.outcome.Fails →
        (watch row done).row.nextCheckMs - prev.nowMs ≤
          (watch row (done ++ [c])).row.nextCheckMs - c.nowMs := fun _ _ _ hf ↦ absurd hf hc
    obtain he | ⟨hrepl, he⟩ := applyCheck_image (watch row done).row t c.nowMs c.sourceReplaced
    · rw [← ht] at he
      refine ⟨fun hs ↦ ?_, fun _ ↦ ⟨t, ht, ?_, ?_⟩, hnext.oneImage, hnext.counted, ?_, hbacks⟩
      · rw [watch_concat, Watch.check]
        obtain hw | ⟨hsame, -⟩ := he.state
        · exact hw
        · exact hsame.trans hs
      · rw [watch_concat, Watch.check, he.observed]
      · obtain hnone | hrepl | hpending := he.because
        · obtain hsighted | ⟨hall, -⟩ := h.sighted
          · exact absurd hnone hsighted
          · exact .inl hall
        · exact .inr (.inl hrepl)
        · -- the held hash is the one the check just before saw, or that check failed
          obtain ⟨-, prev, hprev, hsaw⟩ := h.pending _ hpending
          by_cases hf : prev.outcome.Fails
          · refine .inr (.inl ?_)
            by_contra hrepl
            exact hfresh ⟨Bool.eq_false_of_not_eq_true hrepl, ⟨t, ht, hpending⟩, prev, hprev, hf⟩
          · obtain ⟨seen, hseen⟩ := Checked.not_fails_iff.mp hf
            exact .inr (.inr ⟨prev, seen, hprev, hseen, hsaw seen hseen⟩)
      · rw [watch_concat, Watch.check, he.next, add_sub_cancel_left]
    · rw [← ht] at he
      refine ⟨fun hs ↦ ?_, fun hne ↦ ?_, hnext.oneImage, hnext.counted, ?_, hbacks⟩
      · rw [watch_concat, Watch.check, he.state, hs]
      · rw [watch_concat, Watch.check] at hne
        exact absurd he.observed hne
      · rw [watch_concat, Watch.check, he.next, add_sub_cancel_left]

/-- A check that takes a failure for a sighting adopts what it may not. -/
theorem Standing.not_lawful (h : Standing done (watch row done)) (hstale : Stale row done c) :
    ¬ Lawful row done c := by
  intro hlaw
  obtain ⟨hrepl, ⟨t, ht, hpending⟩, prev, hprev, hfails⟩ := hstale
  have hne := (h.pending _ hpending).1
  obtain he | ⟨-, he⟩ := applyCheck_image (watch row done).row t c.nowMs c.sourceReplaced
  · rw [← ht] at he
    have hobserved : (watch row (done ++ [c])).row.observedSha256 = some t.sourceSha256 := by
      rw [watch_concat, Watch.check, he.observed]
    obtain ⟨t', ht', -, hmay⟩ := hlaw.adopts (hobserved ▸ hne.symm)
    obtain hall | hrepl' | ⟨b, seen, hb, hseen, -⟩ := hmay
    · obtain hnone | ⟨b, hb, hf⟩ := h.shown
      · obtain hsighted | ⟨-, -, hnil⟩ := h.sighted
        · exact hsighted hnone
        · rw [hnil] at hpending
          cases hpending
      · exact hf (hall b hb)
    · rw [hrepl] at hrepl'
      cases hrepl'
    · obtain rfl : prev = b := Option.some.inj (hprev.symm.trans hb)
      rw [hseen] at hfails
      exact hfails
  · rw [← ht] at he
    obtain hobs | hpend := he.because
    · exact hne hobs
    · exact hpend hpending

/-- **Adoption needs two consecutive sightings, but for a failure in between.**  Every check
of a run on a fresh row is lawful if and only if none takes a failure for a sighting. -/
theorem lawful_iff (covenantId sourceUrl : String) (checks : List Check) :
    Past.Forall (Lawful (fresh covenantId sourceUrl)) [] checks ↔
      Past.Forall (fun done c ↦ ¬ Stale (fresh covenantId sourceUrl) done c) [] checks :=
  Past.forall_congr fun done _ ↦
    have h := standing_watch covenantId sourceUrl done
    ⟨fun hlaw hstale ↦ h.not_lawful hstale hlaw, h.lawful⟩

def sampleThumb (tag : String) : Thumb where
  bytes := [0]
  contentType := "image/png"
  sourceSha256 := tag
  thumbSha256 := "thumb of " ++ tag

/-- Two sightings of the second image, twenty four hours and a failure apart. -/
def failedBetween : List Check :=
  [⟨.image (sampleThumb "a"), 0, false⟩, ⟨.image (sampleThumb "b"), RECHECK_MS, false⟩,
    ⟨.failed, 2 * RECHECK_MS, false⟩, ⟨.image (sampleThumb "b"), 3 * RECHECK_MS, false⟩]

theorem failedBetween_not_lawful :
    ¬ Past.Forall (Lawful (fresh "c0" "https://x/l.png")) [] failedBetween := by
  intro h
  obtain ⟨-, -, -, hlast, -⟩ := h
  obtain ⟨t, -, -, hall | hreplaced | ⟨prev, seen, hprev, hseen, -⟩⟩ := hlast.adopts (by decide)
  · exact hall ⟨.image (sampleThumb "a"), 0, false⟩ List.mem_cons_self
  · cases hreplaced
  · obtain rfl := Option.some.inj hprev
    cases hseen

end Kascov.Witness
