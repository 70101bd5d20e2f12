import Kascov.History.EventKeys
import Kascov.Lib.CancelLog
import Kascov.Store.RollbackEffect

/-!
# The invariant of the delivery log

The delivery log is an append-only log with cancellation: an accepted record
adds an event, a removed record cancels the accepted record its source cursor
names.  `LogInvariant` says what the four writers keep between them, at a
stream counter `next` that is ahead of the stored one inside a transaction.

Two of its fields carry the argument.  `covered`: a stamped event lies within
the bounds of its block's canonical batch, so a rollback finds the record of
every event it deletes.  `retired`: a cancelled record of a block that became
canonical again lies below the new bounds, so no later rollback cancels it
twice.
-/

namespace Kascov

open CancelLog List

/-- How the accepted and the removed records of the log are read. -/
def acceptedReading : Reading DeliveryRecord StreamCursor where
  id r := r.cursor
  adds r := r.kind = .accepted
  cancels r := if r.kind = .removed then r.sourceCursor else none

/-- The accepted records that no removed record names. -/
def liveAccepted (log : List DeliveryRecord) : List DeliveryRecord :=
  live acceptedReading log

/-- Does some removed record name this cursor? -/
def isCancelled (log : List DeliveryRecord) (c : StreamCursor) : Bool :=
  cancelled acceptedReading log c

/-- What ties a record to an event: covenant, transaction, accepting block and
stream sequence. -/
structure EventKey where
  covenantId : CovenantId
  txid : TxId
  acceptingBlock : BlockHash
  streamSeq : Nat
deriving DecidableEq, Repr

/-- The key of a record. -/
def DeliveryRecord.eventKey (r : DeliveryRecord) : EventKey :=
  ⟨r.covenantId, r.txid, r.acceptingBlock, r.cursor.seq⟩

/-- The key of an event that carries a delivery sequence. -/
def EventRow.eventKey? (row : EventRow) : Option EventKey :=
  row.deliveryStreamSeq.map fun seq => ⟨row.covenantId, row.txid, row.acceptingBlock, seq⟩

/-- The keys of the events that carry a delivery sequence. -/
def stampedKeys (events : List EventRow) : List EventKey :=
  events.filterMap EventRow.eventKey?

/-- The stream sequence `n` lies within the bounds of the batch. -/
def CanonicalBatchRow.Covers (row : CanonicalBatchRow) (n : Nat) : Prop :=
  ∃ first last, row.firstStreamSeq = some first ∧ row.lastStreamSeq = some last ∧
    first ≤ n ∧ n ≤ last

/-- What holds of the log and the events it announces, with `next` the next
sequence to hand out. -/
structure LogInvariant (s : Store) (next : Nat) : Prop where
  pos : 1 ≤ next
  seqs : s.deliveryLog.map (·.cursor.seq) = List.range' 1 (next - 1)
  epochs : ∀ r ∈ s.deliveryLog, r.cursor.epoch = s.streamEpoch
  sources : ∀ r ∈ s.deliveryLog, r.kind = .removed → ∃ a ∈ s.deliveryLog,
    a.kind = .accepted ∧ r.sourceCursor = some a.cursor ∧ a.cursor.seq < r.cursor.seq
  once : ((s.deliveryLog.filter (·.kind = .removed)).map (·.sourceCursor)).Nodup
  announced : (liveAccepted s.deliveryLog).map (·.eventKey) ~ stampedKeys s.covenantEvents
  keys : (s.covenantEvents.map (·.key)).Nodup
  batches : (s.canonicalBatches.map (·.acceptingBlock)).Nodup
  covered : ∀ e ∈ s.covenantEvents, ∀ n, e.deliveryStreamSeq = some n →
    ∃ row ∈ s.canonicalBatches, row.acceptingBlock = e.acceptingBlock ∧ row.Covers n
  retired : ∀ a ∈ s.deliveryLog, a.kind = .accepted →
    isCancelled s.deliveryLog a.cursor = true →
    ∀ row ∈ s.canonicalBatches, row.acceptingBlock = a.acceptingBlock →
    ∀ first, row.firstStreamSeq = some first → a.cursor.seq < first

/-- A store whose log has not been written yet: a fresh index, or an index from
before the log with its events still unstamped. -/
structure Unlogged (s : Store) : Prop where
  log : s.deliveryLog = []
  batches : s.canonicalBatches = []
  next : s.nextStreamSeq = 1
  unstamped : ∀ e ∈ s.covenantEvents, e.deliveryStreamSeq = none
  keys : (s.covenantEvents.map (·.key)).Nodup

theorem unlogged_fresh (epoch : StreamEpoch) : Unlogged (Store.fresh epoch) :=
  ⟨rfl, rfl, rfl, by simp [Store.fresh], by simp [Store.fresh]⟩

theorem stampedKeys_eq_nil {events : List EventRow}
    (h : ∀ e ∈ events, e.deliveryStreamSeq = none) : stampedKeys events = [] := by
  rw [stampedKeys, List.filterMap_eq_nil_iff]
  intro e he
  simp [EventRow.eventKey?, h e he]

theorem Unlogged.logInvariant {s : Store} (h : Unlogged s) :
    LogInvariant s s.nextStreamSeq where
  pos := by rw [h.next]
  seqs := by simp [h.log, h.next]
  epochs := by simp [h.log]
  sources := by simp [h.log]
  once := by simp [h.log]
  announced := by simp [h.log, liveAccepted, stampedKeys_eq_nil h.unstamped]
  keys := h.keys
  batches := by simp [h.batches]
  covered e he n hn := by simp [h.unstamped e he] at hn
  retired := by simp [h.log]

/-! ## Reading the invariant -/

namespace LogInvariant

variable {s : Store} {next : Nat}

theorem seq_lt (h : LogInvariant s next) {r : DeliveryRecord} (hr : r ∈ s.deliveryLog) :
    r.cursor.seq < next := by
  have hmem : r.cursor.seq ∈ s.deliveryLog.map (·.cursor.seq) := List.mem_map_of_mem hr
  rw [h.seqs, List.mem_range'_1] at hmem
  have := h.pos
  omega

theorem seqs_nodup (h : LogInvariant s next) : (s.deliveryLog.map (·.cursor.seq)).Nodup := by
  rw [h.seqs]
  exact List.nodup_range'

/-- Two records with one cursor are one record. -/
theorem eq_of_cursor (h : LogInvariant s next) {r r' : DeliveryRecord}
    (hr : r ∈ s.deliveryLog) (hr' : r' ∈ s.deliveryLog) (heq : r.cursor = r'.cursor) :
    r = r' :=
  List.inj_on_of_nodup_map h.seqs_nodup hr hr' (congrArg StreamCursor.seq heq)

theorem log_nodup (h : LogInvariant s next) : s.deliveryLog.Nodup :=
  h.seqs_nodup.of_map _

/-- A cursor some record cancels is below the counter. -/
theorem cancelled_lt (h : LogInvariant s next) {c : StreamCursor}
    (hc : isCancelled s.deliveryLog c = true) : c.seq < next := by
  obtain ⟨r, hr, hcancel⟩ := (cancelled_eq_true _).mp hc
  simp only [acceptedReading] at hcancel
  split at hcancel
  · rename_i hkind
    obtain ⟨a, ha, _, hsource, _⟩ := h.sources r hr hkind
    rw [hsource, Option.some.injEq] at hcancel
    exact hcancel ▸ h.seq_lt ha
  · cases hcancel

theorem not_cancelled (h : LogInvariant s next) {c : StreamCursor} (hc : next ≤ c.seq) :
    isCancelled s.deliveryLog c = false := by
  by_contra hne
  have := h.cancelled_lt (Bool.not_eq_false _ ▸ hne)
  omega

/-- The log is in the order of its sequences. -/
theorem seqs_concat (h : LogInvariant s next) (n : Nat) :
    List.range' 1 (next - 1) ++ List.range' next n = List.range' 1 (next + n - 1) := by
  have hpos := h.pos
  have hsplit : next + n - 1 = (next - 1) + n := by omega
  rw [hsplit, ← List.range'_append_1]
  congr 2
  omega

/-- The canonical batch of a block, found by the writers' query. -/
theorem find_batch (h : LogInvariant s next) {row : CanonicalBatchRow}
    (hrow : row ∈ s.canonicalBatches) :
    s.canonicalBatches.find? (·.acceptingBlock = row.acceptingBlock) = some row := by
  cases hfind : s.canonicalBatches.find? (·.acceptingBlock = row.acceptingBlock) with
  | none =>
      rw [List.find?_eq_none] at hfind
      exact absurd (by simp) (hfind row hrow)
  | some row' =>
      have hblock : row'.acceptingBlock = row.acceptingBlock := by
        simpa using List.find?_some hfind
      rw [List.inj_on_of_nodup_map h.batches (List.mem_of_find?_eq_some hfind) hrow hblock]

end LogInvariant

end Kascov
