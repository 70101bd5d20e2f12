import Kascov.Feed.Client
import Kascov.Store.Cells

/-!
# The outputs the log carries

Between them the live records of the log carry exactly the application outputs
whose transaction has an event.  This file states that invariant, with what the
induction needs besides, and the condition under which each writer keeps it.

A repaired record is never cancelled, so its outputs must never go: a rollback
keeps the invariant when it removes no block that a repaired record names.
-/

namespace Kascov

open CancelLog List

/-! ## Live records -/

theorem mem_liveFeed {log : List DeliveryRecord} {r : DeliveryRecord} :
    r ∈ liveFeed log ↔
      r ∈ log ∧ r.kind ≠ .removed ∧ isCancelled log r.cursor = false := by
  rw [liveFeed, mem_live]
  simp only [feedReading, decide_eq_true_eq]
  exact Iff.rfl

theorem mem_liveAccepted {log : List DeliveryRecord} {r : DeliveryRecord} :
    r ∈ liveAccepted log ↔
      r ∈ log ∧ r.kind = .accepted ∧ isCancelled log r.cursor = false := by
  rw [liveAccepted, mem_live]
  simp only [acceptedReading, decide_eq_true_eq]
  exact Iff.rfl

/-- Records that cancel nothing and carry sequences of their own join the live
ones. -/
theorem mem_liveFeed_append {s : Store} {next : Nat} (h : LogInvariant s next)
    {new : List DeliveryRecord} (hkind : ∀ r ∈ new, r.kind ≠ .removed)
    (hseq : ∀ r ∈ new, next ≤ r.cursor.seq) {r : DeliveryRecord} :
    r ∈ liveFeed (s.deliveryLog ++ new) ↔ r ∈ liveFeed s.deliveryLog ∨ r ∈ new := by
  rw [mem_liveFeed, mem_liveFeed, isCancelled_append hkind, List.mem_append]
  constructor
  · rintro ⟨hr | hr, hk, hc⟩
    · exact .inl ⟨hr, hk, hc⟩
    · exact .inr hr
  · rintro (⟨hr, hk, hc⟩ | hr)
    · exact ⟨.inl hr, hk, hc⟩
    · exact ⟨.inr hr, hkind r hr, h.not_cancelled (hseq r hr)⟩

/-- A rollback takes the accepted records of the removed blocks off the live
ones, and no others. -/
theorem LogInvariant.mem_liveFeed_rolledBack {s : Store} {next : Nat}
    (h : LogInvariant s next) (hashes : List BlockHash) {r : DeliveryRecord} :
    r ∈ liveFeed (s.deliveryLog ++
        removalsOf s.streamEpoch next (hashes.flatMap s.acceptedSources)) ↔
      r ∈ liveFeed s.deliveryLog ∧ ¬(r.kind = .accepted ∧ r.acceptingBlock ∈ hashes) := by
  have hnew : ∀ x ∈ removalsOf s.streamEpoch next (hashes.flatMap s.acceptedSources),
      feedReading.adds x = false := fun x hx ↦ by
    simp [feedReading, removalsOf_kind x hx]
  rw [liveFeed, live_append_cancels feedReading hnew, List.mem_filter]
  refine and_congr_right fun hlive ↦ ?_
  obtain ⟨hr, hk, hc⟩ := mem_liveFeed.mp hlive
  rw [Bool.not_eq_true', ← Bool.not_eq_true, not_iff_not]
  constructor
  · intro hcancelled
    obtain ⟨source, hsource, hcursor⟩ := cancelled_removalsOf.mp hcancelled
    obtain ⟨hsource, hblock⟩ := h.mem_sources.mp hsource
    obtain ⟨hmem, haccepted, -⟩ := mem_liveAccepted.mp hsource
    rw [← h.eq_of_cursor hmem hr hcursor]
    exact ⟨haccepted, hblock⟩
  · rintro ⟨haccepted, hblock⟩
    refine cancelled_removalsOf.mpr ⟨r, ?_, rfl⟩
    exact h.mem_sources.mpr ⟨mem_liveAccepted.mpr ⟨hr, haccepted, hc⟩, hblock⟩

/-! ## The invariant -/

/-- The log carries the outputs, and each transaction's rows lie in one block. -/
structure FeedInvariant (s : Store) (next : Nat) : Prop where
  log : LogInvariant s next
  index : s.deliveryApplications = s.deliveryLog.flatMap fun r ↦
    r.applications.map (applicationRow r.cursor.seq)
  copies : ∀ r ∈ s.deliveryLog, r.kind = .removed → ∀ a ∈ s.deliveryLog,
    r.sourceCursor = some a.cursor → r.applications = a.applications ∧ r.txid = a.txid
  stamped : ∀ e ∈ s.covenantEvents, e.deliveryStreamSeq.isSome
  carried : ∀ r ∈ liveFeed s.deliveryLog, ∀ output ∈ r.applications,
    ∃ row ∈ s.applicationOutputs, row.txid = r.txid ∧ row.output = output
  announced : ∀ r ∈ liveFeed s.deliveryLog, ∃ e ∈ s.covenantEvents,
    e.txid = r.txid ∧ e.acceptingBlock = r.acceptingBlock
  rows : ∀ row ∈ s.applicationOutputs, ∀ e ∈ s.covenantEvents, e.txid = row.txid →
    e.acceptingBlock = row.createdBlock ∧
      ∃ r ∈ liveFeed s.deliveryLog, r.txid = row.txid ∧ row.output ∈ r.applications
  cells : ∀ cell ∈ s.covenantUtxos, ∀ e ∈ s.covenantEvents,
    e.txid = cell.outpoint.txid → e.acceptingBlock = cell.createdBlock
  backfilled : s.deliveryBackfillComplete = true

theorem feedInvariant_fresh (epoch : StreamEpoch) :
    FeedInvariant (.fresh epoch) (Store.fresh epoch).nextStreamSeq where
  log := (unlogged_fresh epoch).logInvariant
  index := rfl
  copies := by simp [Store.fresh]
  stamped := by simp [Store.fresh]
  carried := by simp [Store.fresh, liveFeed]
  announced := by simp [Store.fresh, liveFeed]
  rows := by simp [Store.fresh]
  cells := by simp [Store.fresh]
  backfilled := rfl

/-! ## The conditions -/

/-- The transactions a batch accepts. -/
def AcceptedBlockBatch.txids (block : AcceptedBlockBatch) : List TxId :=
  block.events.map (·.txid) ++ block.createdUtxos.map (·.outpoint.txid) ++
    block.transactions.map (·.txid)

/-- The transactions a store has rows of. -/
def Store.txids (s : Store) : List TxId :=
  s.covenantEvents.map (·.txid) ++ s.covenantUtxos.map (·.outpoint.txid) ++
    s.applicationOutputs.map (·.txid)

/-- When the records of a new batch carry its outputs: its transactions are
distinct and new to the store, and in a transaction with an event every decoded
output is of a covenant with an event there. -/
structure CarriesOutputs (s : Store) (block : AcceptedBlockBatch) : Prop where
  fresh : ∀ txid ∈ block.txids, txid ∉ s.txids
  distinct : (block.transactions.map (·.txid)).Nodup
  covered : ∀ accepted ∈ block.transactions, ∀ output ∈ accepted.application.outputs,
    ∀ event ∈ block.events, event.txid = accepted.txid →
      ∃ own ∈ block.events, own.txid = accepted.txid ∧ own.covenantId = output.covenantId

/-- The condition on a call under which the feed keeps its law. -/
def Store.KeepsFeed (s : Store) : LogOp → Prop
  | .apply block => s.isCanonical block.acceptingBlock = false → CarriesOutputs s block
  | .rollback removed => ∀ r ∈ s.deliveryLog, r.kind = .projectionRepaired →
      r.acceptingBlock ∉ canonicalRemoved s removed
  | .backfill _ => True
  | .repair _ _ => True

/-! ## Apply -/

section Apply

variable {dec : Decoders} {s : Store} {block : AcceptedBlockBatch}

/-- The rows of a transaction of the batch are not in the store. -/
theorem CarriesOutputs.not_recorded (h : CarriesOutputs s block) {txid : TxId}
    (htxid : txid ∈ block.txids) :
    (∀ e ∈ s.covenantEvents, e.txid ≠ txid) ∧
      (∀ cell ∈ s.covenantUtxos, cell.outpoint.txid ≠ txid) ∧
      ∀ row ∈ s.applicationOutputs, row.txid ≠ txid := by
  have hfresh := h.fresh txid htxid
  simp only [Store.txids, List.mem_append, List.mem_map, not_or, not_exists, not_and] at hfresh
  exact ⟨hfresh.1.1, hfresh.1.2, hfresh.2⟩

theorem mem_txids_of_event {event : NewEvent} (h : event ∈ block.events) :
    event.txid ∈ block.txids :=
  List.mem_append_left _ (List.mem_append_left _ (List.mem_map_of_mem h))

theorem mem_txids_of_transaction {accepted : AcceptedTransaction}
    (h : accepted ∈ block.transactions) : accepted.txid ∈ block.txids :=
  List.mem_append_right _ (List.mem_map_of_mem h)

theorem mem_txids_of_created {utxo : NewUtxo} (h : utxo ∈ block.createdUtxos) :
    utxo.outpoint.txid ∈ block.txids :=
  List.mem_append_left _ (List.mem_append_right _ (List.mem_map_of_mem h))

/-- The outputs found for a transaction are those of a transaction of the batch
with that id. -/
theorem mem_applicationOutputsByTx {transactions : List AcceptedTransaction} {txid : TxId}
    {output : ApplicationOutput} (h : output ∈ applicationOutputsByTx transactions txid) :
    ∃ accepted ∈ transactions, accepted.txid = txid ∧ output ∈ accepted.application.outputs := by
  unfold applicationOutputsByTx at h
  cases hfind : transactions.find? (·.txid = txid) with
  | none =>
      rw [hfind] at h
      cases h
  | some accepted =>
      rw [hfind] at h
      exact ⟨accepted, List.mem_of_find?_eq_some hfind, by simpa using List.find?_some hfind, h⟩

theorem applicationOutputsByTx_of_mem {transactions : List AcceptedTransaction}
    (hdistinct : (transactions.map (·.txid)).Nodup) {accepted : AcceptedTransaction}
    (h : accepted ∈ transactions) :
    applicationOutputsByTx transactions accepted.txid = accepted.application.outputs := by
  unfold applicationOutputsByTx
  cases hfind : transactions.find? (·.txid = accepted.txid) with
  | none => exact absurd (decide_eq_true rfl) (List.find?_eq_none.mp hfind accepted h)
  | some found =>
      have htxid : found.txid = accepted.txid := by simpa using List.find?_some hfind
      rw [List.inj_on_of_nodup_map hdistinct (List.mem_of_find?_eq_some hfind) h htxid]
      rfl

/-- The output rows after an apply: the old and the new ones, some now spent. -/
theorem mem_appliedOutputs {row : ApplicationOutputRow} :
    row ∈ (appliedStore dec s block).applicationOutputs ↔
      ∃ old ∈ s.applicationOutputs ++ newApplicationOutputs block,
        spendOutputs block old = row := by
  have heq : (appliedStore dec s block).applicationOutputs =
      (s.applicationOutputs ++ newApplicationOutputs block).map (spendOutputs block) :=
    foldl_spendApplicationOutput block _
  rw [heq, List.mem_map]

theorem mem_newApplicationOutputs {row : ApplicationOutputRow} :
    row ∈ newApplicationOutputs block ↔ ∃ accepted ∈ block.transactions,
      ∃ output ∈ accepted.application.outputs,
        applicationOutputRow block accepted.txid output = row := by
  simp [newApplicationOutputs]

/-- The cells after an apply: old ones, and new ones of the batch's
transactions. -/
theorem mem_applyCells {rows : List UtxoRow} {cell : UtxoRow}
    (h : cell ∈ applyCells dec block rows) :
    (∃ old ∈ rows, old.outpoint = cell.outpoint ∧ old.createdBlock = cell.createdBlock) ∨
      (cell.createdBlock = block.acceptingBlock ∧
        ∃ utxo ∈ block.createdUtxos, utxo.outpoint = cell.outpoint) := by
  rw [applyCells, foldl_markSpent] at h
  obtain ⟨old, hold, rfl⟩ := List.mem_map.mp h
  have hinsert : ∀ (utxos : List NewUtxo) (rows : List UtxoRow),
      old ∈ utxos.foldl (insertCreated dec block) rows →
      old ∈ rows ∨ ∃ utxo ∈ utxos, createdRow dec block utxo = old := by
    intro utxos
    induction utxos with
    | nil => exact fun rows h ↦ .inl h
    | cons utxo rest ih =>
        intro rows h
        rcases ih _ h with h | ⟨u, hu, heq⟩
        · rcases List.mem_append.mp h with h | h
          · exact .inl (List.mem_of_mem_filter h)
          · exact .inr ⟨utxo, List.mem_cons_self, (List.mem_singleton.mp h).symm⟩
        · exact .inr ⟨u, List.mem_cons_of_mem _ hu, heq⟩
  rcases hinsert _ _ hold with hold | ⟨utxo, hutxo, rfl⟩
  · exact .inl ⟨old, hold, by simp, by simp⟩
  · exact .inr ⟨by simp; rfl, utxo, hutxo, by simp; rfl⟩

theorem FeedInvariant.applied (h : FeedInvariant s s.nextStreamSeq)
    (hcarries : CarriesOutputs s block)
    (hnew : s.isCanonical block.acceptingBlock = false)
    (hdaa : block.acceptingDaa = 0 → block.events = []) :
    FeedInvariant (appliedStore dec s block) (appliedStore dec s block).nextStreamSeq := by
  let es := numberEvents dec block s.covenantEvents s.nextStreamSeq block.events
  let new := es.map (numberedRecord block s.streamEpoch)
  have hevent : ∀ x ∈ es, x.1 ∈ block.events := by
    intro x hx
    rw [← numberEvents_map_event dec block s.covenantEvents s.nextStreamSeq block.events]
    exact List.mem_map_of_mem hx
  have hlisted : ∀ event ∈ block.events, ∃ x ∈ es, x.1 = event := by
    intro event hmem
    rw [← numberEvents_map_event dec block s.covenantEvents s.nextStreamSeq block.events] at hmem
    exact List.mem_map.mp hmem
  have hkind : ∀ r ∈ new, r.kind ≠ .removed := by
    intro r hr
    obtain ⟨x, _, rfl⟩ := List.mem_map.mp hr
    exact fun hk ↦ by cases hk
  have hlive : ∀ {r}, r ∈ liveFeed (s.deliveryLog ++ new) ↔
      r ∈ liveFeed s.deliveryLog ∨ r ∈ new :=
    mem_liveFeed_append h.log hkind fun r hr ↦ (numberedRecord_seq hr).2.2.1
  have hevents : ∀ e ∈ (appliedStore dec s block).covenantEvents, e ∈ s.covenantEvents ∨
      ∃ x ∈ es, numberedRow dec block x = e := fun e he ↦
    (List.mem_append.mp he).imp_right List.mem_map.mp
  refine
    { log := h.log.applied hnew hdaa
      index := ?_
      copies := ?_
      stamped := ?_
      carried := ?_
      announced := ?_
      rows := ?_
      cells := ?_
      backfilled := h.backfilled }
  · show s.deliveryApplications ++ _ = (s.deliveryLog ++ new).flatMap _
    rw [List.flatMap_append, h.index, List.flatMap_map]
    rfl
  · intro r hr hremoved a ha hsource
    have hr' : r ∈ s.deliveryLog := (List.mem_append.mp hr).resolve_right fun hnew ↦
      hkind r hnew hremoved
    obtain ⟨a', ha', _, hsource', _⟩ := h.log.sources r hr' hremoved
    rw [hsource, Option.some.injEq] at hsource'
    have haold : a ∈ s.deliveryLog := by
      refine (List.mem_append.mp ha).resolve_right fun hnew ↦ ?_
      have hlt := h.log.seq_lt ha'
      rw [← hsource'] at hlt
      exact absurd hlt (not_lt.mpr (numberedRecord_seq hnew).2.2.1)
    exact h.copies r hr' hremoved a haold hsource
  · intro e he
    rcases hevents e he with he | ⟨x, _, rfl⟩
    · exact h.stamped e he
    · rfl
  · -- a record's outputs are rows: of its own transaction in the batch, or old ones
    intro r hr output houtput
    rcases hlive.mp hr with hr | hr
    · obtain ⟨row, hrow, htxid, hout⟩ := h.carried r hr output houtput
      refine ⟨spendOutputs block row, ?_, by simpa using htxid, by simpa using hout⟩
      exact mem_appliedOutputs.mpr ⟨row, List.mem_append_left _ hrow, rfl⟩
    · obtain ⟨x, _, rfl⟩ := List.mem_map.mp hr
      obtain ⟨accepted, haccepted, htxid, hout⟩ :=
        mem_applicationOutputsByTx (List.mem_of_mem_filter houtput)
      refine ⟨spendOutputs block (applicationOutputRow block accepted.txid output), ?_,
        (spendOutputs_txid ..).trans htxid, spendOutputs_output ..⟩
      exact mem_appliedOutputs.mpr ⟨_, List.mem_append_right _
        (mem_newApplicationOutputs.mpr ⟨accepted, haccepted, output, hout, rfl⟩), rfl⟩
  · intro r hr
    rcases hlive.mp hr with hr | hr
    · obtain ⟨e, he, htxid, hblock⟩ := h.announced r hr
      exact ⟨e, List.mem_append_left _ he, htxid, hblock⟩
    · obtain ⟨x, hx, rfl⟩ := List.mem_map.mp hr
      exact ⟨_, List.mem_append_right _ (List.mem_map_of_mem hx), rfl, rfl⟩
  · intro row hrow e he htxid
    obtain ⟨old, hold, rfl⟩ := mem_appliedOutputs.mp hrow
    rw [spendOutputs_txid] at htxid ⊢
    rw [spendOutputs_createdBlock, spendOutputs_output]
    rcases List.mem_append.mp hold with hold | hold
    · -- an old row: the batch has no event in its transaction
      rcases hevents e he with he | ⟨x, hx, rfl⟩
      · obtain ⟨hblock, r, hr, hrest⟩ := h.rows old hold e he htxid
        exact ⟨hblock, r, hlive.mpr (.inl hr), hrest⟩
      · have hnone := (hcarries.not_recorded (mem_txids_of_event (hevent x hx))).2.2 old hold
        exact absurd htxid.symm hnone
    · -- a new row: its transaction's events are all in the batch
      obtain ⟨accepted, haccepted, output, houtput, rfl⟩ := mem_newApplicationOutputs.mp hold
      rcases hevents e he with he | ⟨x, hx, rfl⟩
      · have hnone := (hcarries.not_recorded (mem_txids_of_transaction haccepted)).1 e he
        exact absurd htxid hnone
      · obtain ⟨own, hown, hownTx, hownId⟩ :=
          hcarries.covered accepted haccepted output houtput x.1 (hevent x hx) htxid
        obtain ⟨y, hy, rfl⟩ := hlisted own hown
        refine ⟨rfl, numberedRecord block s.streamEpoch y,
          hlive.mpr (.inr (List.mem_map_of_mem hy)), hownTx, List.mem_filter.mpr ⟨?_, ?_⟩⟩
        · rw [hownTx, applicationOutputsByTx_of_mem hcarries.distinct haccepted]
          exact houtput
        · exact decide_eq_true hownId.symm
  · intro cell hcell e he htxid
    rcases mem_applyCells hcell with ⟨old, hold, ho, hb⟩ | ⟨hb, utxo, hutxo, ho⟩
    · rcases hevents e he with he | ⟨x, hx, rfl⟩
      · rw [← hb]
        exact h.cells old hold e he (by rw [htxid, ho])
      · have hnone := (hcarries.not_recorded (mem_txids_of_event (hevent x hx))).2.1 old hold
        rw [ho] at hnone
        exact absurd htxid.symm hnone
    · rcases hevents e he with he | ⟨x, hx, rfl⟩
      · have hnone := (hcarries.not_recorded (mem_txids_of_created hutxo)).1 e he
        rw [ho] at hnone
        exact absurd htxid hnone
      · exact hb.symm

end Apply

/-! ## Rollback -/

theorem FeedInvariant.rolledBack {s : Store} {hashes : List BlockHash}
    (h : FeedInvariant s s.nextStreamSeq) (hnodup : hashes.Nodup)
    (hrepaired : ∀ r ∈ s.deliveryLog, r.kind = .projectionRepaired → r.acceptingBlock ∉ hashes) :
    FeedInvariant (rolledBackStore s hashes) (rolledBackStore s hashes).nextStreamSeq := by
  let sources := hashes.flatMap s.acceptedSources
  let new := removalsOf s.streamEpoch s.nextStreamSeq sources
  have hlive : ∀ {r}, r ∈ liveFeed (s.deliveryLog ++ new) ↔ r ∈ liveFeed s.deliveryLog ∧
      ¬(r.kind = .accepted ∧ r.acceptingBlock ∈ hashes) :=
    h.log.mem_liveFeed_rolledBack hashes
  -- a record that stays live is of a block that stays
  have hstay : ∀ {r}, r ∈ liveFeed (s.deliveryLog ++ new) →
      r ∈ liveFeed s.deliveryLog ∧ r.acceptingBlock ∉ hashes := by
    intro r hr
    obtain ⟨hr, hnot⟩ := hlive.mp hr
    obtain ⟨hmem, hkind, -⟩ := mem_liveFeed.mp hr
    refine ⟨hr, fun hblock ↦ ?_⟩
    cases hk : r.kind with
    | accepted => exact hnot ⟨hk, hblock⟩
    | removed => exact hkind hk
    | projectionRepaired => exact hrepaired r hmem hk hblock
  have hevents : ∀ {e}, e ∈ (rolledBackStore s hashes).covenantEvents ↔
      e ∈ s.covenantEvents ∧ e.acceptingBlock ∉ hashes := by
    intro e
    rw [rolledBackStore, List.mem_filter, decide_eq_true_eq]
  have houtputs : ∀ {row}, row ∈ (rolledBackStore s hashes).applicationOutputs ↔
      (∃ old ∈ s.applicationOutputs, unspendOutput hashes old = row) ∧
        row.createdBlock ∉ hashes := by
    intro row
    rw [rolledBackStore, List.mem_filter, List.mem_map, decide_eq_true_eq]
  refine
    { log := h.log.rolledBack hnodup
      index := ?_
      copies := ?_
      stamped := fun e he ↦ h.stamped e (hevents.mp he).1
      carried := ?_
      announced := ?_
      rows := ?_
      cells := ?_
      backfilled := h.backfilled }
  · show s.deliveryApplications ++ _ = (s.deliveryLog ++ new).flatMap _
    rw [List.flatMap_append, h.index]
  · intro r hr hremoved a ha hsource
    have haold : ∀ c : StreamCursor, c.seq < s.nextStreamSeq → c = a.cursor →
        a ∈ s.deliveryLog := by
      intro c hlt hc
      refine (List.mem_append.mp ha).resolve_right fun hnew ↦ ?_
      obtain ⟨source, _, i, hle, _, rfl⟩ := mem_removalsOf hnew
      rw [hc] at hlt
      exact absurd hlt (not_lt.mpr hle)
    rcases List.mem_append.mp hr with hr | hr
    · obtain ⟨a', ha', _, hsource', _⟩ := h.log.sources r hr hremoved
      rw [hsource, Option.some.injEq] at hsource'
      exact h.copies r hr hremoved a
        (haold a'.cursor (h.log.seq_lt ha') hsource'.symm) hsource
    · -- a new removal copies its source
      obtain ⟨source, hsrc, i, _, _, rfl⟩ := mem_removalsOf hr
      obtain ⟨hlog, -, -⟩ := mem_liveAccepted.mp (h.log.mem_sources.mp hsrc).1
      have hcursor : source.cursor = a.cursor := Option.some.inj hsource
      have hmem := haold source.cursor (h.log.seq_lt hlog) hcursor
      rw [← h.log.eq_of_cursor hlog hmem hcursor]
      exact ⟨rfl, rfl⟩
  · intro r hr output houtput
    obtain ⟨hr, hblock⟩ := hstay hr
    obtain ⟨row, hrow, htxid, hout⟩ := h.carried r hr output houtput
    obtain ⟨e, he, hetx, heblock⟩ := h.announced r hr
    have hcreated := (h.rows row hrow e he (hetx.trans htxid.symm)).1
    refine ⟨unspendOutput hashes row, houtputs.mpr ⟨⟨row, hrow, rfl⟩, ?_⟩, by simpa using htxid,
      by simpa using hout⟩
    rwa [unspendOutput_createdBlock, ← hcreated, heblock]
  · intro r hr
    obtain ⟨hr, hblock⟩ := hstay hr
    obtain ⟨e, he, hetx, heblock⟩ := h.announced r hr
    exact ⟨e, hevents.mpr ⟨he, by rwa [heblock]⟩, hetx, heblock⟩
  · intro row hrow e he htxid
    obtain ⟨⟨old, hold, rfl⟩, hcreated⟩ := houtputs.mp hrow
    obtain ⟨he, heblock⟩ := hevents.mp he
    rw [unspendOutput_txid] at htxid ⊢
    rw [unspendOutput_createdBlock, unspendOutput_output]
    obtain ⟨hblock, r, hr, hrtx, hout⟩ := h.rows old hold e he htxid
    -- the record that carries the row is of the row's block
    obtain ⟨e', he', hetx', heblock'⟩ := h.announced r hr
    have hcreated' := (h.rows old hold e' he' (hetx'.trans hrtx)).1
    refine ⟨hblock, r, hlive.mpr ⟨hr, ?_⟩, hrtx, hout⟩
    rintro ⟨-, hgone⟩
    rw [← heblock', hcreated', ← hblock] at hgone
    exact heblock hgone
  · intro cell hcell e he htxid
    obtain ⟨old, hold, rfl⟩ := List.mem_map.mp (List.mem_of_mem_filter hcell)
    rw [unspendRows_outpoint] at htxid
    rw [unspendRows_createdBlock]
    exact h.cells old hold e (hevents.mp he).1 htxid

/-! ## Repair -/

/-- The event a repaired output is reported under. -/
theorem repairEvent_mem {s : Store} {txid : TxId} {id : CovenantId} {event : EventRow}
    (h : repairEvent s txid id = some event) : event ∈ s.covenantEvents ∧ event.txid = txid := by
  have hchoice := Rows.foldl_choice_mem (by
    intro best row c hc
    cases best with
    | none => exact .inr (Option.some.inj hc).symm
    | some b =>
        by_cases hlt : b.seq < row.seq
        · simp only [hlt, if_true] at hc
          exact .inr (Option.some.inj hc).symm
        · simp only [hlt, if_false] at hc
          exact .inl hc) h
  rcases hchoice with h | h
  · cases h
  · obtain ⟨hmem, hkey⟩ := List.mem_filter.mp h
    exact ⟨hmem, (of_decide_eq_true hkey).1⟩

/-- What a repaired output was checked against. -/
theorem repairTarget_some {s : Store} {transaction : Transaction} {output : ApplicationOutput}
    {stored : UtxoRow} {event : EventRow}
    (h : repairTarget s transaction output = some (stored, event)) :
    stored ∈ s.covenantUtxos ∧ stored.outpoint.txid = transaction.txid ∧
      event ∈ s.covenantEvents ∧ event.txid = transaction.txid := by
  unfold repairTarget at h
  simp only [Option.bind_eq_bind, Option.bind_eq_some_iff, Option.pure_def] at h
  obtain ⟨accepted, _, binding, _, h⟩ := h
  split at h
  · cases h
  · obtain ⟨cell, hcell, h⟩ := Option.bind_eq_some_iff.mp h
    split at h
    · cases h
    · obtain ⟨e, he, h⟩ := Option.bind_eq_some_iff.mp h
      rw [Option.some.injEq, Prod.mk.injEq] at h
      obtain ⟨rfl, rfl⟩ := h
      have houtpoint : cell.outpoint = ⟨transaction.txid, output.outputIndex⟩ := by
        simpa using List.find?_some hcell
      obtain ⟨hmem, htxid⟩ := repairEvent_mem he
      exact ⟨List.mem_of_find?_eq_some hcell, by rw [houtpoint], hmem, htxid⟩

theorem FeedInvariant.repairedOutput {s : Store} {next : Nat} {transaction : Transaction}
    {output : ApplicationOutput} {stored : UtxoRow} {event : EventRow}
    (h : FeedInvariant s next)
    (htarget : repairTarget s transaction output = some (stored, event)) :
    FeedInvariant (repairedOutput s next transaction.txid output stored event) (next + 1) := by
  obtain ⟨hstored, hcellTx, hevent, heventTx⟩ := repairTarget_some htarget
  let record := repairRecord s.streamEpoch next transaction.txid output event
  have hkind : ∀ r ∈ [record], r.kind ≠ .removed := by
    intro r hr hk
    rw [List.mem_singleton.mp hr] at hk
    cases hk
  have hseq : ∀ r ∈ [record], next ≤ r.cursor.seq := by
    intro r hr
    rw [List.mem_singleton.mp hr]
    exact le_refl _
  have hlive : ∀ {r}, r ∈ liveFeed (s.deliveryLog ++ [record]) ↔
      r ∈ liveFeed s.deliveryLog ∨ r = record := by
    intro r
    rw [mem_liveFeed_append h.log hkind hseq, List.mem_singleton]
  have houtputs : ∀ row ∈ (Kascov.repairedOutput s next transaction.txid output stored
      event).applicationOutputs, row ∈ s.applicationOutputs ∨
        row = repairedRow transaction.txid output stored := fun row hrow ↦
    (List.mem_append.mp hrow).imp_right List.mem_singleton.mp
  refine
    { log := h.log.repairedOutput transaction.txid output stored event
      index := ?_
      copies := ?_
      stamped := h.stamped
      carried := ?_
      announced := ?_
      rows := ?_
      cells := h.cells
      backfilled := h.backfilled }
  · show s.deliveryApplications ++ _ = (s.deliveryLog ++ [record]).flatMap _
    rw [List.flatMap_append, h.index]
    simp [record]
  · intro r hr hremoved a ha hsource
    have hr' : r ∈ s.deliveryLog := (List.mem_append.mp hr).resolve_right fun hnew ↦
      hkind r hnew hremoved
    obtain ⟨a', ha', _, hsource', _⟩ := h.log.sources r hr' hremoved
    rw [hsource, Option.some.injEq] at hsource'
    refine h.copies r hr' hremoved a ((List.mem_append.mp ha).resolve_right fun hnew ↦ ?_) hsource
    have hlt := h.log.seq_lt ha'
    rw [← hsource'] at hlt
    exact absurd hlt (not_lt.mpr (hseq a hnew))
  · intro r hr out hout
    rcases hlive.mp hr with hr | rfl
    · obtain ⟨row, hrow, hrest⟩ := h.carried r hr out hout
      exact ⟨row, List.mem_append_left _ hrow, hrest⟩
    · rw [List.mem_singleton.mp hout]
      exact ⟨_, List.mem_append_right _ (List.mem_singleton.mpr rfl), rfl, rfl⟩
  · intro r hr
    rcases hlive.mp hr with hr | rfl
    · exact h.announced r hr
    · exact ⟨event, hevent, heventTx, rfl⟩
  · intro row hrow e he htxid
    rcases houtputs row hrow with hrow | rfl
    · obtain ⟨hblock, r, hr, hrest⟩ := h.rows row hrow e he htxid
      exact ⟨hblock, r, hlive.mpr (.inl hr), hrest⟩
    · -- the repaired row lies in its cell's block, and so do the events
      refine ⟨h.cells stored hstored e he (htxid.trans hcellTx.symm), record,
        hlive.mpr (.inr rfl), rfl, List.mem_singleton.mpr rfl⟩

/-- The invariant looks at the log, its index, the events, the cells and the
outputs. -/
theorem FeedInvariant.congr {s s' : Store} {next : Nat} (h : FeedInvariant s next)
    (hlog : s'.deliveryLog = s.deliveryLog) (hepoch : s'.streamEpoch = s.streamEpoch)
    (hindex : s'.deliveryApplications = s.deliveryApplications)
    (hevents : s'.covenantEvents = s.covenantEvents)
    (hbatches : s'.canonicalBatches = s.canonicalBatches)
    (houtputs : s'.applicationOutputs = s.applicationOutputs)
    (hcells : s'.covenantUtxos = s.covenantUtxos)
    (hflag : s'.deliveryBackfillComplete = s.deliveryBackfillComplete) :
    FeedInvariant s' next where
  log := h.log.congr hlog hepoch hevents hbatches
  index := by rw [hindex, hlog]; exact h.index
  copies := by rw [hlog]; exact h.copies
  stamped := by rw [hevents]; exact h.stamped
  carried := by rw [hlog, houtputs]; exact h.carried
  announced := by rw [hlog, hevents]; exact h.announced
  rows := by rw [hlog, hevents, houtputs]; exact h.rows
  cells := by rw [hevents, hcells]; exact h.cells
  backfilled := by rw [hflag]; exact h.backfilled

/-! ## Runs -/

theorem FeedInvariant.commit {dec : Decoders} {s s' : Store} {op : LogOp}
    (h : FeedInvariant s s.nextStreamSeq) (hkeeps : s.KeepsFeed op)
    (hok : op.commit dec s = .ok s') : FeedInvariant s' s'.nextStreamSeq := by
  cases op with
  | apply block =>
      obtain ⟨c, hc⟩ := map_fst_eq_ok hok
      obtain ⟨_, hdaa, ⟨_, rfl⟩ | ⟨hnew, rfl⟩⟩ := applyAcceptedBlock_ok hc
      · exact h
      · exact h.applied (hkeeps hnew) hnew hdaa
  | rollback removed =>
      obtain ⟨c, hc⟩ := map_fst_eq_ok hok
      obtain ⟨_, ⟨_, rfl, _⟩ | ⟨_, rfl, _⟩⟩ := rollbackRemovedBlocks_ok hc
      · exact h
      · exact h.rolledBack (canonicalRemoved_nodup s removed) hkeeps
  | backfill batchSize =>
      -- an index that was never a legacy one has nothing to backfill
      obtain ⟨p, hp⟩ := map_fst_eq_ok hok
      rw [backfillDeliveryBatch, if_pos h.backfilled, Except.ok.injEq, Prod.mk.injEq] at hp
      rw [← hp.1]
      exact h
  | repair decoder limit =>
      obtain ⟨result, hr⟩ := map_fst_eq_ok hok
      obtain ⟨s₁, next, hinv, rfl⟩ := repair_invariant FeedInvariant
        (fun _ _ _ _ _ _ hs htarget _ ↦ hs.repairedOutput htarget)
        (fun _ _ _ _ hs ↦ hs.congr rfl rfl rfl rfl rfl rfl rfl rfl) h hr
      exact hinv.congr rfl rfl rfl rfl rfl rfl rfl rfl

end Kascov
