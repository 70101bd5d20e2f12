import Kascov.History.LogSteps
import Kascov.Lib.Runs
import Kascov.Lib.Walk
import Kascov.Lib.Worklist

/-!
# The backfill can be cut anywhere

A database from before the log is migrated by calls of `backfill_delivery_batch`,
which a restart may come between: it reopens the tables as they are.  The events
still unstamped, in the order of the query, are a worklist.  Stamping the first of
them leaves the rest in their order, so the batches write what one call without a
bound on its batch writes.
-/

namespace Kascov

open List Worklist

/-! ## The work left -/

/-- The unstamped events, in the order of the log to come. -/
def pendingRows (s : Store) : List EventRow :=
  (s.covenantEvents.filter (·.deliveryStreamSeq = none)).insertionSort
    fun a b ↦ backfillKey a ≤ backfillKey b

/-- One event is backfilled, and the next sequence is the one after. -/
def backfillStep (s : Store) (row : EventRow) : Store :=
  { backfilledRow s s.nextStreamSeq row with nextStreamSeq := s.nextStreamSeq + 1 }

/-- A batch of at most `n` events. -/
abbrev backfillSteps (n : Nat) (s : Store) : Store := drain pendingRows backfillStep n s

theorem mem_pendingRows {s : Store} {row : EventRow} :
    row ∈ pendingRows s ↔ row ∈ s.covenantEvents ∧ row.deliveryStreamSeq = none := by
  rw [pendingRows, mem_insertionSort, mem_filter, decide_eq_true_eq]

theorem pendingRows_eq_nil {s : Store} :
    pendingRows s = [] ↔ ∀ e ∈ s.covenantEvents, e.deliveryStreamSeq ≠ none := by
  rw [eq_nil_iff_forall_not_mem]
  simp only [mem_pendingRows, not_and, ne_eq]

theorem countP_unstamped (s : Store) :
    s.covenantEvents.countP (·.deliveryStreamSeq = none) = (pendingRows s).length := by
  rw [countP_eq_length_filter, pendingRows, length_insertionSort]

/-- The order of the log tells the events apart: its last columns are their key. -/
theorem key_eq_of_backfillKey {a b : EventRow} (h : backfillKey a = backfillKey b) :
    a.key = b.key := by
  simp only [backfillKey, cons.injEq, Nat.cast_inj, and_true] at h
  obtain ⟨-, -, -, hid, hseq⟩ := h
  have hcovenant : a.covenantId = b.covenantId := congrArg CovenantId.mk (BitVec.eq_of_toNat_eq hid)
  rw [EventRow.key, EventRow.key, hcovenant, hseq]

theorem backfillKey_antisymm {rows : List EventRow} (h : (rows.map (·.key)).Nodup) :
    ∀ a ∈ rows, ∀ b ∈ rows, backfillKey a ≤ backfillKey b → backfillKey b ≤ backfillKey a →
      a = b :=
  fun _ ha _ hb hab hba ↦
    inj_on_of_nodup_map h ha hb (key_eq_of_backfillKey (le_antisymm hab hba))

/-- The work left is in strict order. -/
theorem pendingRows_pairwise {s : Store} (h : (s.covenantEvents.map (·.key)).Nodup) :
    (pendingRows s).Pairwise (backfillKey · < backfillKey ·) := by
  have hsorted : (pendingRows s).Pairwise (backfillKey · ≤ backfillKey ·) :=
    Walk.pairwise_sorted (fun a b ↦ le_total (backfillKey a) (backfillKey b))
      (fun a b c ↦ le_trans (b := backfillKey b)) _
  have hnodup : (pendingRows s).Nodup :=
    (perm_insertionSort _ _).nodup_iff.mpr (h.of_map.filter _)
  refine (hsorted.and hnodup).imp_of_mem fun ha hb hab ↦ lt_of_le_of_ne hab.1 fun heq ↦ hab.2 ?_
  exact backfillKey_antisymm h _ (mem_pendingRows.mp ha).1 _ (mem_pendingRows.mp hb).1 heq.le heq.ge

/-- A stamping takes one event off the unstamped ones, and leaves the others as
they are. -/
theorem stampEvent_unstamped {next : Nat} {row : EventRow} (events : List EventRow) :
    (stampEvent next row events).filter (·.deliveryStreamSeq = none) =
      (events.filter (·.deliveryStreamSeq = none)).filter (·.key ≠ row.key) := by
  induction events with
  | nil => rfl
  | cons e events ih =>
      have hcons : stampEvent next row (e :: events) =
          (if e.covenantId = row.covenantId ∧ e.seq = row.seq ∧ e.deliveryStreamSeq = none then
            { e with deliveryStreamSeq := some next } else e) :: stampEvent next row events := rfl
      have hkey : e.key = row.key ↔ e.covenantId = row.covenantId ∧ e.seq = row.seq := by
        rw [EventRow.key, EventRow.key, Prod.mk.injEq]
      rw [hcons]
      cases hstamp : e.deliveryStreamSeq with
      | some n => simpa [hstamp] using ih
      | none =>
          by_cases he : e.key = row.key
          · have hrow := hkey.mp he
            simpa [hstamp, he, hrow.1, hrow.2] using ih
          · have hrow : ¬(e.covenantId = row.covenantId ∧ e.seq = row.seq) := mt hkey.mpr he
            simpa [hstamp, he, hrow] using ih

/-- Stamping the first event leaves the rest, in their order. -/
theorem pendingRows_backfillStep {s : Store} (h : (s.covenantEvents.map (·.key)).Nodup)
    {row : EventRow} {rest : List EventRow} (hrows : pendingRows s = row :: rest) :
    pendingRows (backfillStep s row) = rest := by
  have hanti : ∀ a ∈ s.covenantEvents.filter (·.deliveryStreamSeq = none),
      ∀ b ∈ s.covenantEvents.filter (·.deliveryStreamSeq = none),
      backfillKey a ≤ backfillKey b → backfillKey b ≤ backfillKey a → a = b :=
    fun a ha b hb ↦ backfillKey_antisymm h a (mem_filter.mp ha).1 b (mem_filter.mp hb).1
  have hstep : pendingRows (backfillStep s row) = (pendingRows s).filter (·.key ≠ row.key) := by
    change ((stampEvent _ row s.covenantEvents).filter _).insertionSort _ = _
    rw [stampEvent_unstamped]
    exact Walk.filter_sorted (fun a b ↦ le_total (backfillKey a) (backfillKey b))
      (fun a b c ↦ le_trans (b := backfillKey b)) hanti _
  have hkeys : ((pendingRows s).map (·.key)).Nodup := by
    refine ((perm_insertionSort _ _).map _).nodup_iff.mpr ?_
    exact h.sublist ((filter_sublist (l := s.covenantEvents)).map _)
  rw [hrows, map_cons, nodup_cons] at hkeys
  rw [hstep, hrows, filter_cons_of_neg (by simp), filter_eq_self]
  intro e he
  refine decide_eq_true fun heq ↦ hkeys.1 ?_
  exact heq ▸ mem_map_of_mem he

/-! ## The states of a backfill -/

/-- The log is in order, and there are sequences left for every event to stamp. -/
structure Resumable (s : Store) : Prop where
  log : LogInvariant s s.nextStreamSeq
  room : s.nextStreamSeq + (pendingRows s).length < 2 ^ 64

theorem resumable_consumes : Consumes Resumable pendingRows backfillStep where
  keeps s row rest hs hrows := by
    have hmem := mem_pendingRows.mp (hrows ▸ mem_cons_self : row ∈ pendingRows s)
    have hroom := hs.room
    rw [hrows, length_cons] at hroom
    refine ⟨(hs.log.backfilledRow hmem.1 hmem.2).congr rfl rfl rfl rfl, ?_⟩
    rw [pendingRows_backfillStep hs.log.keys hrows]
    change s.nextStreamSeq + 1 + rest.length < 2 ^ 64
    omega
  takes s row rest hs hrows := pendingRows_backfillStep hs.log.keys hrows

/-- What a batch leaves. -/
theorem pendingRows_backfillSteps {s : Store} (hs : Resumable s) (n : Nat) :
    pendingRows (backfillSteps n s) = (pendingRows s).drop n :=
  resumable_consumes.pending_drain hs n

/-- A batch goes on where the one before it stopped. -/
theorem backfillSteps_add {s : Store} (hs : Resumable s) (m n : Nat) :
    backfillSteps n (backfillSteps m s) = backfillSteps (m + n) s :=
  resumable_consumes.drain_drain hs m n

/-! ## A call -/

/-- A row is written when its sequence is new and one is left after it. -/
theorem backfillRow_eq_ok {s : Store} {next : Nat} (hnext : next + 1 < 2 ^ 64)
    (hnew : ∀ r ∈ s.deliveryLog, r.cursor.seq < next) (row : EventRow) :
    backfillRow (s, next) row = .ok (backfilledRow s next row, next + 1) := by
  have hfresh : ¬(s.deliveryLog.any fun r ↦
      decide (r.cursor.seq = (backfillRecord s.streamEpoch next row).cursor.seq)) = true := by
    rw [any_eq_true]
    rintro ⟨r, hr, heq⟩
    exact (hnew r hr).ne (of_decide_eq_true heq)
  have hinsert : insertDelivery s (backfillRecord s.streamEpoch next row) =
      .ok (s.appendDelivery (backfillRecord s.streamEpoch next row)) := by
    rw [insertDelivery, if_neg hfresh]
    simp [backfillRecord, Store.appendDelivery, pure, Except.pure, bind, Except.bind]
  simp only [backfillRow, hinsert, checkedNextStreamSeq, if_pos hnext]
  rfl

/-- The loop of a call takes the steps, and keeps the next sequence apart. -/
theorem foldlM_backfillRow {rows : List EventRow} {s : Store} {next : Nat}
    (hroom : next + rows.length < 2 ^ 64) (hnew : ∀ r ∈ s.deliveryLog, r.cursor.seq < next) :
    ∃ t, rows.foldlM backfillRow (s, next) = .ok (t, next + rows.length) ∧
      { t with nextStreamSeq := next + rows.length } =
        rows.foldl backfillStep { s with nextStreamSeq := next } := by
  induction rows generalizing s next with
  | nil => exact ⟨s, rfl, rfl⟩
  | cons row rows ih =>
      rw [length_cons] at hroom
      have hnew' : ∀ r ∈ (backfilledRow s next row).deliveryLog, r.cursor.seq < next + 1 := by
        intro r hr
        rcases mem_append.mp hr with hr | hr
        · exact (hnew r hr).trans (Nat.lt_succ_self next)
        · rw [mem_singleton.mp hr]
          exact Nat.lt_succ_self next
      obtain ⟨t, hfold, hsteps⟩ := ih (by omega) hnew'
      refine ⟨t, ?_, ?_⟩
      · rw [foldlM_cons, backfillRow_eq_ok (by omega) hnew, length_cons, ← Nat.add_assoc,
          Nat.add_right_comm, ← hfold]
        rfl
      · rw [length_cons, ← Nat.add_assoc, Nat.add_right_comm, hsteps]
        rfl

/-- The end of a call: the flags are set when no event is left. -/
def closeBackfill (s : Store) (migrated : Nat) : Store × DeliveryMigrationProgress :=
  let remaining : Nat := s.covenantEvents.countP (·.deliveryStreamSeq = none)
  let historyStartDaa := minEventDaa s.covenantEvents
  let orderComplete := remaining == 0 && eventsOrderComplete s.covenantEvents
  (if remaining = 0 then
      { s with
        deliveryBackfillComplete := true
        deliveryHistoryStartDaa := historyStartDaa
        deliveryHistoryOrderComplete := orderComplete }
    else
      s,
    { migrated, remaining, complete := remaining = 0, historyStartDaa, orderComplete })

/-- The transaction of a call over the rows it has selected. -/
def backfillSelected (s : Store) (rows : List EventRow) :
    Result (Store × DeliveryMigrationProgress) := do
  let (s, next) ← rows.foldlM backfillRow (s, s.nextStreamSeq)
  return closeBackfill { s with nextStreamSeq := next } rows.length

/-- What a call reports once the backfill is complete. -/
def completeProgress (s : Store) : DeliveryMigrationProgress :=
  { migrated := 0
    remaining := 0
    complete := true
    historyStartDaa := s.deliveryHistoryStartDaa
    orderComplete := s.deliveryHistoryOrderComplete }

/-- A call of `backfill_delivery_batch` without the bound on its batch. -/
def backfillUnbounded (s : Store) : Result (Store × DeliveryMigrationProgress) :=
  if s.deliveryBackfillComplete then .ok (s, completeProgress s)
  else backfillSelected s (pendingRows s)

theorem backfillDeliveryBatch_eq (s : Store) (batchSize : Nat) :
    backfillDeliveryBatch s batchSize =
      if s.deliveryBackfillComplete then .ok (s, completeProgress s)
      else backfillSelected s ((pendingRows s).take (clamp batchSize 1 10000)) := rfl

/-- The flags a call sets. -/
def Store.withHistory (s : Store) (complete : Bool) (startDaa : Nat) (order : Bool) : Store :=
  { s with
    deliveryBackfillComplete := complete
    deliveryHistoryStartDaa := startDaa
    deliveryHistoryOrderComplete := order }

@[simp] theorem pendingRows_withHistory (s : Store) (complete : Bool) (startDaa : Nat)
    (order : Bool) : pendingRows (s.withHistory complete startDaa order) = pendingRows s := rfl

/-- The steps of a batch do not look at the flags. -/
theorem backfillSteps_withHistory (s : Store) (complete : Bool) (startDaa : Nat) (order : Bool)
    (n : Nat) : backfillSteps n (s.withHistory complete startDaa order) =
      (backfillSteps n s).withHistory complete startDaa order := by
  have hfold : ∀ (rows : List EventRow) (s : Store),
      rows.foldl backfillStep (s.withHistory complete startDaa order) =
        (rows.foldl backfillStep s).withHistory complete startDaa order := by
    intro rows
    induction rows with
    | nil => exact fun _ ↦ rfl
    | cons row rows ih => exact fun s ↦ ih (backfillStep s row)
  exact hfold _ s

theorem closeBackfill_complete (s : Store) (migrated : Nat) :
    (closeBackfill s migrated).2.complete = true ↔ pendingRows s = [] := by
  rw [closeBackfill, decide_eq_true_eq, countP_unstamped, length_eq_zero_iff]

/-- The end of a call touches the flags only, and they say that it is the end. -/
theorem closeBackfill_store (s : Store) (migrated : Nat) :
    ∃ startDaa order, (closeBackfill s migrated).1 =
      s.withHistory (s.deliveryBackfillComplete || (pendingRows s).isEmpty) startDaa order := by
  by_cases hnil : pendingRows s = []
  · have hcount : s.covenantEvents.countP (·.deliveryStreamSeq = none) = 0 := by
      rw [countP_unstamped, hnil, length_nil]
    refine ⟨minEventDaa s.covenantEvents, eventsOrderComplete s.covenantEvents, ?_⟩
    rw [closeBackfill, hnil, hcount, isEmpty_nil, Bool.or_true]
    rfl
  · have hcount : s.covenantEvents.countP (·.deliveryStreamSeq = none) ≠ 0 := by
      rw [countP_unstamped, ne_eq, length_eq_zero_iff]
      exact hnil
    refine ⟨s.deliveryHistoryStartDaa, s.deliveryHistoryOrderComplete, ?_⟩
    rw [isEmpty_eq_false_iff.mpr hnil, Bool.or_false]
    simp only [closeBackfill, if_neg hcount]
    rfl

/-- A call takes a batch of steps; it reports completion, and sets the flag, exactly
when they leave nothing. -/
theorem backfillSelected_take {s : Store} (h : Resumable s) (n : Nat) :
    ∃ p startDaa order, backfillSelected s ((pendingRows s).take n) =
        .ok ((backfillSteps n s).withHistory ((backfillSteps n s).deliveryBackfillComplete ||
          (pendingRows (backfillSteps n s)).isEmpty) startDaa order, p) ∧
      (p.complete = true ↔ pendingRows (backfillSteps n s) = []) := by
  have hroom : s.nextStreamSeq + ((pendingRows s).take n).length < 2 ^ 64 := by
    have := h.room
    rw [length_take]
    omega
  obtain ⟨t, hfold, hsteps⟩ := foldlM_backfillRow hroom fun r hr ↦ h.log.seq_lt hr
  have hcall : backfillSelected s ((pendingRows s).take n) =
      .ok (closeBackfill (backfillSteps n s) ((pendingRows s).take n).length) := by
    rw [backfillSelected, hfold]
    change Except.ok (closeBackfill _ _) = _
    rw [hsteps]
    rfl
  obtain ⟨startDaa, order, hclose⟩ := closeBackfill_store (backfillSteps n s)
    ((pendingRows s).take n).length
  refine ⟨_, startDaa, order, ?_, closeBackfill_complete (backfillSteps n s)
    ((pendingRows s).take n).length⟩
  rw [hcall, ← hclose]

/-! ## Runs of calls -/

theorem Resumable.withHistory {s : Store} (h : Resumable s) (complete : Bool) (startDaa : Nat)
    (order : Bool) : Resumable (s.withHistory complete startDaa order) :=
  ⟨h.log.congr rfl rfl rfl rfl, h.room⟩

/-- Where a number of calls has got to: a batch of the events is backfilled, at least
one for each call or all of them, and all of them once the flag is set. -/
def BackfillReached (s t : Store) (calls : Nat) : Prop :=
  ∃ k complete startDaa order, t = (backfillSteps k s).withHistory complete startDaa order ∧
    (complete = true → (pendingRows s).length ≤ k) ∧ min calls (pendingRows s).length ≤ k

/-- The next call is served, goes on from there, and reports completion exactly when
it leaves nothing. -/
theorem BackfillReached.next {s t : Store} {calls : Nat} (hs : Resumable s)
    (h : BackfillReached s t calls) (batchSize : Nat) :
    ∃ t' p, backfillDeliveryBatch t batchSize = .ok (t', p) ∧
      BackfillReached s t' (calls + 1) ∧ (p.complete = true ↔ pendingRows t' = []) := by
  obtain ⟨k, complete, startDaa, order, ht, hcomplete, hcalls⟩ := h
  have hpending : pendingRows t = (pendingRows s).drop k := by
    rw [ht, pendingRows_withHistory, pendingRows_backfillSteps hs]
  have hflag : t.deliveryBackfillComplete = complete := by
    rw [ht]
    rfl
  rw [backfillDeliveryBatch_eq, hflag]
  cases complete with
  | true =>
      have hall := hcomplete rfl
      refine ⟨t, completeProgress t, rfl, ⟨k, true, startDaa, order, ht, hcomplete, ?_⟩, ?_⟩
      · exact (min_le_right _ _).trans hall
      · rw [hpending, drop_eq_nil_of_le hall]
        exact iff_of_true rfl rfl
  | false =>
      have hpos := clamp_pos batchSize (m := 10000) (by decide)
      generalize clamp batchSize 1 10000 = n at hpos
      have hopen : Resumable t :=
        ht ▸ (resumable_consumes.good_drain hs k).withHistory false startDaa order
      have hsteps : backfillSteps n t =
          (backfillSteps (k + n) s).withHistory false startDaa order := by
        rw [ht, backfillSteps_withHistory, backfillSteps_add hs]
      obtain ⟨p, startDaa', order', hcall, hreport⟩ := backfillSelected_take hopen n
      rw [hsteps] at hcall hreport
      refine ⟨_, p, hcall, ⟨k + n, _, startDaa', order', rfl, ?_, ?_⟩, hreport⟩
      · intro hdone
        have hempty : (pendingRows (backfillSteps (k + n) s)).isEmpty = true := hdone
        rwa [List.isEmpty_iff, pendingRows_backfillSteps hs, drop_eq_nil_iff] at hempty
      · omega

/-- The store after calls of `backfill_delivery_batch` with these batch sizes.  A
restart between two of them reopens the same tables. -/
abbrev backfillRun (s : Store) (sizes : List Nat) : Store :=
  Runs.run (fun s batchSize ↦ (backfillDeliveryBatch s batchSize).map (·.1)) s sizes

theorem backfillRun_reached {s t : Store} (hs : Resumable s) {calls : Nat}
    (h : BackfillReached s t calls) (sizes : List Nat) :
    BackfillReached s (backfillRun t sizes) (calls + sizes.length) := by
  induction sizes generalizing t calls with
  | nil => exact h
  | cons batchSize sizes ih =>
      obtain ⟨t', p, hcall, hreached, -⟩ := h.next hs batchSize
      have hattempt : Runs.attempt (fun s batchSize ↦ (backfillDeliveryBatch s batchSize).map (·.1))
          t batchSize = t' := by
        simp only [Runs.attempt, hcall]
        rfl
      rw [backfillRun, Runs.run_cons, hattempt, length_cons, Nat.add_comm sizes.length,
        ← Nat.add_assoc]
      exact ih hreached

/-- The records of the steps, in the order of the rows. -/
theorem foldl_backfillStep_log (rows : List EventRow) (s : Store) :
    (rows.foldl backfillStep s).deliveryLog = s.deliveryLog ++
      (rows.zipIdx s.nextStreamSeq).map fun p ↦ backfillRecord s.streamEpoch p.2 p.1 := by
  induction rows generalizing s with
  | nil => simp
  | cons row rows ih =>
      rw [foldl_cons, ih, zipIdx_cons, map_cons]
      change (s.deliveryLog ++ [backfillRecord s.streamEpoch s.nextStreamSeq row]) ++ _ = _
      rw [append_assoc, singleton_append]
      rfl

/-! ## The law -/

/-- A database from before the log: nothing is logged or stamped, and the backfill is
due.  The rowids of a table bound the number of its rows. -/
structure Legacy (s : Store) : Prop extends Unlogged s where
  due : s.deliveryBackfillComplete = false
  rowids : s.covenantEvents.length < 2 ^ 63

/-- What any run of calls owes to a database from before the log. -/
structure RestartSafe (s : Store) (sizes : List Nat) : Prop where
  /-- A further call is served, and reports completion exactly when it leaves no
  event unstamped. -/
  reports : ∀ batchSize, ∃ t p, backfillDeliveryBatch (backfillRun s sizes) batchSize = .ok (t, p) ∧
    (p.complete = true ↔ ∀ e ∈ t.covenantEvents, e.deliveryStreamSeq ≠ none)
  /-- Each event has one accepted record in the log to come, in the order of the
  query, and the run has written an initial part of it. -/
  written : ∃ rows, rows ~ s.covenantEvents ∧
    rows.Pairwise (backfillKey · < backfillKey ·) ∧
    (backfillRun s sizes).deliveryLog <+:
      (rows.zipIdx 1).map (fun p ↦ backfillRecord s.streamEpoch p.2 p.1) ∧
    ((∀ e ∈ (backfillRun s sizes).covenantEvents, e.deliveryStreamSeq ≠ none) →
      (backfillRun s sizes).deliveryLog =
        (rows.zipIdx 1).map fun p ↦ backfillRecord s.streamEpoch p.2 p.1)
  /-- When no event is left, the tables are those of one call without a bound. -/
  final : (∀ e ∈ (backfillRun s sizes).covenantEvents, e.deliveryStreamSeq ≠ none) →
    ∃ t p, backfillUnbounded s = .ok (t, p) ∧ p.complete = true ∧
      (backfillRun s sizes).deliveryLog = t.deliveryLog ∧
      (backfillRun s sizes).canonicalBatches = t.canonicalBatches ∧
      (backfillRun s sizes).covenantEvents = t.covenantEvents
  /-- As many calls as there are events leave none. -/
  ends : s.covenantEvents.length ≤ sizes.length →
    ∀ e ∈ (backfillRun s sizes).covenantEvents, e.deliveryStreamSeq ≠ none

theorem Legacy.pendingRows_perm {s : Store} (h : Legacy s) :
    pendingRows s ~ s.covenantEvents := by
  rw [pendingRows, filter_eq_self.mpr fun e he ↦ decide_eq_true (h.unstamped e he)]
  exact perm_insertionSort _ _

theorem Legacy.resumable {s : Store} (h : Legacy s) : Resumable s := by
  refine ⟨h.logInvariant, ?_⟩
  have hrows := h.rowids
  rw [h.next, h.pendingRows_perm.length_eq]
  omega

/-- **The backfill is restart-safe**, for every database from before the log, every
number of calls and every size of their batches. -/
theorem backfill_restartSafe (s : Store) (h : Legacy s) (sizes : List Nat) :
    RestartSafe s sizes := by
  have hs := h.resumable
  have hstart : BackfillReached s s 0 :=
    ⟨0, s.deliveryBackfillComplete, s.deliveryHistoryStartDaa, s.deliveryHistoryOrderComplete, rfl,
      fun hdone ↦ absurd hdone (by simp [h.due]), Nat.min_le_left _ _⟩
  have hreached := backfillRun_reached hs hstart sizes
  rw [Nat.zero_add] at hreached
  have hnext := hreached.next hs
  obtain ⟨k, complete, startDaa, order, hrun, -, hcalls⟩ := hreached
  have hpending : pendingRows (backfillRun s sizes) = (pendingRows s).drop k := by
    rw [hrun, pendingRows_withHistory, pendingRows_backfillSteps hs]
  have hall : (∀ e ∈ (backfillRun s sizes).covenantEvents, e.deliveryStreamSeq ≠ none) →
      backfillRun s sizes = (backfillSteps (pendingRows s).length s).withHistory complete startDaa
        order := by
    intro hdone
    rw [← pendingRows_eq_nil, hpending, drop_eq_nil_iff] at hdone
    rw [hrun, backfillSteps, drain_of_le hdone, backfillSteps, drain_of_le le_rfl]
  have hlog : ∀ n, (backfillSteps n s).deliveryLog = (((pendingRows s).take n).zipIdx 1).map
      fun p ↦ backfillRecord s.streamEpoch p.2 p.1 := by
    intro n
    rw [backfillSteps, drain, foldl_backfillStep_log, h.log, h.next, nil_append]
  constructor
  · intro batchSize
    obtain ⟨t, p, hcall, -, hreport⟩ := hnext batchSize
    exact ⟨t, p, hcall, hreport.trans pendingRows_eq_nil⟩
  · refine ⟨pendingRows s, h.pendingRows_perm, pendingRows_pairwise h.keys, ?_, fun hdone ↦ ?_⟩
    · rw [hrun]
      change (backfillSteps k s).deliveryLog <+: _
      rw [hlog k]
      refine IsPrefix.map _ ?_
      conv_rhs => rw [← take_append_drop k (pendingRows s), zipIdx_append]
      exact prefix_append _ _
    · rw [hall hdone]
      change (backfillSteps (pendingRows s).length s).deliveryLog = _
      rw [hlog, take_length]
  · intro hdone
    obtain ⟨p, startDaa', order', hcall, hreport⟩ :=
      backfillSelected_take hs (pendingRows s).length
    rw [take_length] at hcall
    refine ⟨_, p, (if_neg (by simp [h.due])).trans hcall, ?_, ?_, ?_, ?_⟩
    · rw [hreport, pendingRows_backfillSteps hs, drop_length]
    all_goals
      rw [hall hdone]
      rfl
  · intro hmany
    rw [← pendingRows_eq_nil, hpending, drop_eq_nil_iff]
    rw [← h.pendingRows_perm.length_eq] at hmany
    omega

/-- An event of block 1 from before the log, of a covenant's own genesis. -/
def legacyEvent (covenant : BitVec 256) (txIndex blueScore : Option Nat) : EventRow :=
  { covenantId := ⟨covenant⟩
    seq := 0
    kind := .genesis
    txid := ⟨covenant⟩
    acceptingBlock := ⟨1⟩
    acceptingDaa := 100
    payload := none
    laneNamespace := none
    payloadTag := none
    inscriptionKind := none
    txIndex
    acceptingTimeMs := none
    acceptingBlueScore := blueScore
    eventIndex := none
    deliveryStreamSeq := none }

/-- Three events of one block, one of them without its blue score and one without
its place in the block. -/
def legacyStore : Store :=
  { Store.fresh ⟨0⟩ with
    covenantEvents := [legacyEvent 3 (some 1) (some 5), legacyEvent 4 none (some 5),
      legacyEvent 5 (some 0) none]
    deliveryBackfillComplete := false
    deliveryHistoryOrderComplete := false }

/-- Three calls cut the block in three; the events without a value come first. -/
theorem legacyStore_restartSafe :
    RestartSafe legacyStore [1, 0, 1] ∧
      (backfillRun legacyStore [1, 0, 1]).deliveryLog.map (·.covenantId) = [⟨5⟩, ⟨4⟩, ⟨3⟩] :=
  ⟨backfill_restartSafe legacyStore
    { log := rfl
      batches := rfl
      next := rfl
      unstamped := by decide
      keys := by decide
      due := rfl
      rowids := by decide } [1, 0, 1], by decide +kernel⟩

end Kascov
