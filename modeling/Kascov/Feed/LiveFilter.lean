import Kascov.Feed.Law
import Kascov.Pages.Delivery
import Kascov.Sync.Anchored

/-!
# The live filter and the filter of the pages

`stream.rs` tests a record's own list of applications, `delivery_page_filtered` the
side table that was filled when the record was written.  The two agree as long as
the side table is the log's own lists, row by row, and every writer of the log keeps
it so: an applied block, a removal that copies the list of its source, a repair, and
a backfilled record, which has none.
-/

namespace Kascov

open Walk

/-- `delivery_matches`. -/
def deliveryMatches (record : DeliveryRecord) (filter : DeliveryFilter) : Bool :=
  if filter.covenantId.any (record.covenantId ≠ ·) then false
  else if filter.applicationId.isNone && filter.artifactId.isNone && filter.actorPath.isNone then
    true
  else
    record.applications.any fun application ↦
      filter.applicationId.all (application.applicationId = ·) &&
        filter.artifactId.all (application.artifactId = ·) &&
        filter.actorPath.all (application.actorPath = ·)

/-! ## Every writer of the store -/

/-- A call that writes the store: of the log's writers or of the follower's. -/
inductive StreamOp where
  | log (op : LogOp)
  | sync (op : SyncOp)

/-- The transaction a call runs. -/
def StreamOp.commit (dec : Decoders) (s : Store) : StreamOp → Result Store
  | .log op => op.commit dec s
  | .sync op => op.commit dec s

/-- The store after a run of calls, each of which may fail. -/
abbrev StreamOp.run (dec : Decoders) (s : Store) (ops : List StreamOp) : Store :=
  Runs.run (StreamOp.commit dec) s ops

/-! ## The index of the log -/

/-- The log is numbered from one under the stream's epoch, and the side table holds
the applications of its records. -/
structure IndexedLog (s : Store) (next : Nat) : Prop where
  pos : 1 ≤ next
  seqs : s.deliveryLog.map (·.cursor.seq) = List.range' 1 (next - 1)
  epochs : ∀ r ∈ s.deliveryLog, r.cursor.epoch = s.streamEpoch
  index : s.deliveryApplications = s.deliveryLog.flatMap fun r ↦
    r.applications.map (applicationRow r.cursor.seq)

namespace IndexedLog

variable {s s' : Store} {next : Nat}

/-- The tables of a store the log has not been written in. -/
theorem unwritten (hlog : s.deliveryLog = []) (hindex : s.deliveryApplications = [])
    (hnext : s.nextStreamSeq = 1) : IndexedLog s s.nextStreamSeq where
  pos := by rw [hnext]
  seqs := by rw [hlog, hnext]; rfl
  epochs := by rw [hlog]; exact List.forall_mem_nil _
  index := by rw [hlog, hindex]; rfl

theorem congr (h : IndexedLog s next) (hlog : s'.deliveryLog = s.deliveryLog)
    (hindex : s'.deliveryApplications = s.deliveryApplications)
    (hepoch : s'.streamEpoch = s.streamEpoch) : IndexedLog s' next where
  pos := h.pos
  seqs := by rw [hlog]; exact h.seqs
  epochs := by rw [hlog, hepoch]; exact h.epochs
  index := by rw [hlog, hindex]; exact h.index

/-- What a writer adds: records numbered on, with the rows of their applications. -/
theorem append (h : IndexedLog s next) (records : List DeliveryRecord)
    (hseqs : records.map (·.cursor.seq) = List.range' next records.length)
    (hepochs : ∀ r ∈ records, r.cursor.epoch = s.streamEpoch)
    (hlog : s'.deliveryLog = s.deliveryLog ++ records)
    (hindex : s'.deliveryApplications = s.deliveryApplications ++ records.flatMap fun r ↦
      r.applications.map (applicationRow r.cursor.seq))
    (hepoch : s'.streamEpoch = s.streamEpoch) : IndexedLog s' (next + records.length) where
  pos := h.pos.trans (Nat.le_add_right _ _)
  seqs := by
    have hpos := h.pos
    have hnext : next = 1 + (next - 1) := by omega
    rw [hlog, List.map_append, h.seqs, hseqs, Nat.sub_add_comm hpos, ← List.range'_append_1,
      ← hnext]
  epochs := by
    rw [hlog, hepoch, List.forall_mem_append]
    exact ⟨h.epochs, hepochs⟩
  index := by rw [hindex, hlog, h.index, List.flatMap_append]

/-- One record more. -/
theorem appendDelivery (h : IndexedLog s next) (record : DeliveryRecord)
    (hcursor : record.cursor = ⟨s.streamEpoch, next⟩) :
    IndexedLog (s.appendDelivery record) (next + 1) := by
  refine h.append [record] ?_ ?_ rfl ?_ rfl
  · rw [List.map_singleton, hcursor]
    rfl
  · rw [List.forall_mem_singleton, hcursor]
  · rw [List.flatMap_singleton]
    rfl

/-! ### The writers -/

theorem applied (h : IndexedLog s s.nextStreamSeq) (dec : Decoders) {block : AcceptedBlockBatch}
    (hdaa : block.acceptingDaa = 0 → block.events = []) :
    IndexedLog (appliedStore dec s block) (appliedStore dec s block).nextStreamSeq := by
  let es := numberEvents dec block s.covenantEvents s.nextStreamSeq block.events
  have hseqs : (es.map (numberedRecord block s.streamEpoch)).map (·.cursor.seq) =
      List.range' s.nextStreamSeq block.events.length := by
    rw [List.map_map, ← numberEvents_map_next dec block s.covenantEvents]
    rfl
  have hlen : (es.map (numberedRecord block s.streamEpoch)).length = block.events.length := by
    have := congrArg List.length hseqs
    rwa [List.length_map, List.length_range'] at this
  have hnext : (appliedStore dec s block).nextStreamSeq =
      s.nextStreamSeq + (es.map (numberedRecord block s.streamEpoch)).length := by
    rw [hlen]
    by_cases h0 : 0 < block.acceptingDaa
    · simp [appliedStore, h0]
    · simp [appliedStore, hdaa (by omega)]
  rw [hnext]
  refine h.append _ ?_ ?_ rfl ?_ rfl
  · rw [hlen]
    exact hseqs
  · exact fun r hr ↦ (numberedRecord_seq hr).2.1
  · rw [List.flatMap_map]
    rfl

theorem rolledBack (h : IndexedLog s s.nextStreamSeq) (hashes : List BlockHash) :
    IndexedLog (rolledBackStore s hashes) (rolledBackStore s hashes).nextStreamSeq := by
  have hlen := removalsOf_length s.streamEpoch s.nextStreamSeq (hashes.flatMap s.acceptedSources)
  change IndexedLog _ (s.nextStreamSeq + (hashes.flatMap s.acceptedSources).length)
  rw [← hlen]
  refine h.append _ ?_ ?_ rfl rfl rfl
  · rw [removalsOf_map_seq, hlen]
  · intro r hr
    obtain ⟨source, -, i, -, -, rfl⟩ := mem_removalsOf hr
    rfl

theorem backfill (h : IndexedLog s s.nextStreamSeq) {batchSize : Nat}
    {p : DeliveryMigrationProgress} (hok : backfillDeliveryBatch s batchSize = .ok (s', p)) :
    IndexedLog s' s'.nextStreamSeq := by
  rcases backfillDeliveryBatch_ok hok with rfl | ⟨s₁, next, _, _, _, hfold, rfl⟩
  · exact h
  · have hend : IndexedLog s₁ next := by
      refine Fallible.foldlM_invariant (fun acc ↦ IndexedLog acc.1 acc.2) ?_ h hfold
      intro acc row acc' _ hacc hstep
      rw [backfillRow_ok hstep]
      exact (hacc.appendDelivery (backfillRecord acc.1.streamEpoch acc.2 row) rfl).congr
        rfl rfl rfl
    exact hend.congr rfl rfl rfl

theorem repair (h : IndexedLog s s.nextStreamSeq) {decoder : ApplicationDecoder} {limit : Nat}
    {result : ApplicationRepairResult}
    (hok : repairApplicationFailures s decoder limit = .ok (s', result)) :
    IndexedLog s' s'.nextStreamSeq := by
  obtain ⟨s₁, next, hend, rfl⟩ := repair_invariant (fun s next ↦ IndexedLog s next)
    (fun s₁ next transaction output stored event hs _ _ ↦
      (hs.appendDelivery (repairRecord s₁.streamEpoch next transaction.txid output event)
        rfl).congr rfl rfl rfl)
    (fun _ _ _ _ hs ↦ hs.congr rfl rfl rfl) h hok
  exact hend.congr rfl rfl rfl

/-- A recovery writes neither the log nor its index. -/
theorem recover (h : IndexedLog s s.nextStreamSeq) (dec : Decoders) (gapLo gapHi : Nat)
    (blocks : List AcceptedBlockBatch) :
    IndexedLog (recoverBlocks dec s gapLo gapHi blocks)
      (recoverBlocks dec s gapLo gapHi blocks).nextStreamSeq := by
  have hmerge : ∀ s : Store, IndexedLog s s.nextStreamSeq → ∀ block,
      IndexedLog (mergeRecoveredBlock dec s block).1
        (mergeRecoveredBlock dec s block).1.nextStreamSeq := by
    intro s hs block
    refine Rows.foldl_keeps (P := fun acc : Store × MergeCounts ↦
      IndexedLog acc.1 acc.1.nextStreamSeq) (fun acc event hacc ↦ ?_) block.events
        (hs.congr rfl rfl rfl)
    unfold mergeEvent
    split
    · exact hacc
    · exact hacc.congr rfl rfl rfl
  have hmerged : IndexedLog (mergeBlocks dec s blocks).1
      (mergeBlocks dec s blocks).1.nextStreamSeq := by
    unfold mergeBlocks
    refine Rows.foldl_keeps (P := fun acc : Store × MergeCounts ↦
      IndexedLog acc.1 acc.1.nextStreamSeq) ?_ blocks h
    exact fun acc block hacc ↦ hmerge acc.1 hacc block
  have hrefreshed := Rows.foldl_keeps (P := fun s : Store ↦ IndexedLog s s.nextStreamSeq)
    (f := refreshCovenant) (fun s id hs ↦ hs.congr rfl rfl rfl)
    (coveredCovenants (mergeBlocks dec s blocks).1 gapLo gapHi) hmerged
  exact hrefreshed.congr rfl rfl rfl

theorem logged (h : IndexedLog s s.nextStreamSeq) {dec : Decoders} (op : LogOp)
    (hok : op.commit dec s = .ok s') : IndexedLog s' s'.nextStreamSeq := by
  cases op with
  | apply block =>
      obtain ⟨c, hc⟩ := map_fst_eq_ok hok
      obtain ⟨_, hdaa, ⟨_, rfl⟩ | ⟨_, rfl⟩⟩ := applyAcceptedBlock_ok hc
      · exact h
      · exact h.applied dec hdaa
  | rollback removed =>
      obtain ⟨c, hc⟩ := map_fst_eq_ok hok
      obtain ⟨_, ⟨_, rfl, _⟩ | ⟨_, rfl, _⟩⟩ := rollbackRemovedBlocks_ok hc
      · exact h
      · exact h.rolledBack _
  | backfill batchSize =>
      obtain ⟨p, hp⟩ := map_fst_eq_ok hok
      exact h.backfill hp
  | repair decoder limit =>
      obtain ⟨result, hr⟩ := map_fst_eq_ok hok
      exact h.repair hr

theorem commit (h : IndexedLog s s.nextStreamSeq) {dec : Decoders} {op : StreamOp}
    (hok : op.commit dec s = .ok s') : IndexedLog s' s'.nextStreamSeq := by
  cases op with
  | log op => exact h.logged op hok
  | sync op =>
      cases op with
      | setTip daa =>
          rw [← Except.ok.inj hok]
          exact h.congr rfl rfl rfl
      | apply block => exact h.logged (.apply block) hok
      | rollback removed => exact @logged s s' h dec (.rollback removed) hok
      | recover gapLo gapHi blocks =>
          rw [← Except.ok.inj hok]
          exact h.recover dec gapLo gapHi blocks
      | reAnchor virtualChainFrom =>
          obtain ⟨out, hre⟩ := map_fst_eq_ok hok
          rcases reAnchor_ok hre with ⟨rfl, -⟩ | ⟨anchor, daa, rolled, -, -, hrolled, rfl⟩
          · exact h
          · rcases hrolled with ⟨rfl, -⟩ | rfl
            · exact h.congr rfl rfl rfl
            · exact (h.rolledBack _).congr rfl rfl rfl

/-! ### Reading it -/

theorem numbered (h : IndexedLog s s.nextStreamSeq) : Numbered s :=
  .of_seqs h.pos h.seqs h.epochs

/-- The rows under a record's sequence are those of its own applications. -/
theorem mem_index (h : IndexedLog s next) {r : DeliveryRecord} (hr : r ∈ s.deliveryLog)
    {row : DeliveryApplicationRow} :
    row ∈ s.deliveryApplications ∧ row.streamSeq = r.cursor.seq ↔
      ∃ application ∈ r.applications, applicationRow r.cursor.seq application = row :=
  mem_applicationIndex (by rw [h.seqs]; exact List.nodup_range') h.index hr row

/-- The two filters agree on every record of the log: one application has to satisfy
all the given conditions together on either side. -/
theorem selects_eq (h : IndexedLog s next) {r : DeliveryRecord} (hr : r ∈ s.deliveryLog)
    (filter : DeliveryFilter) : filter.selects s r = deliveryMatches r filter := by
  have hnullOr : ∀ {α : Type} [DecidableEq α] (wanted : Option α) (value : α),
      nullOr wanted value = wanted.all (value = ·) := by
    intro α _ wanted value
    cases wanted <;> rfl
  have hany : (s.deliveryApplications.any fun row ↦
        row.streamSeq = r.cursor.seq && nullOr filter.applicationId row.applicationId &&
          nullOr filter.artifactId row.artifactId && nullOr filter.actorPath row.actorPath) =
      r.applications.any fun application ↦
        filter.applicationId.all (application.applicationId = ·) &&
          filter.artifactId.all (application.artifactId = ·) &&
          filter.actorPath.all (application.actorPath = ·) := by
    rw [Bool.eq_iff_iff, List.any_eq_true, List.any_eq_true]
    simp only [hnullOr, Bool.and_eq_true, decide_eq_true_eq]
    constructor
    · rintro ⟨row, hrow, ⟨⟨hseq, happ⟩, hartifact⟩, hactor⟩
      obtain ⟨application, hmem, rfl⟩ := (h.mem_index hr).mp ⟨hrow, hseq⟩
      exact ⟨application, hmem, ⟨happ, hartifact⟩, hactor⟩
    · rintro ⟨application, hmem, ⟨happ, hartifact⟩, hactor⟩
      obtain ⟨hrow, hseq⟩ := (h.mem_index hr).mpr ⟨application, hmem, rfl⟩
      exact ⟨_, hrow, ⟨⟨hseq, happ⟩, hartifact⟩, hactor⟩
  rw [DeliveryFilter.selects, deliveryMatches, hany]
  generalize (filter.applicationId.isNone && filter.artifactId.isNone &&
    filter.actorPath.isNone) = unconditioned
  generalize r.applications.any _ = carried
  cases filter.covenantId with
  | none => cases unconditioned <;> rfl
  | some id =>
      by_cases hcovenant : r.covenantId = id
      · cases unconditioned <;> simp [nullOr, hcovenant]
      · simp [nullOr, hcovenant]

end IndexedLog

/-! ## All the pages -/

/-- A reader's page, and where it goes on: after the last record, until a page is
empty. -/
def filteredPage (s : Store) (filter : DeliveryFilter) (after : Option StreamCursor)
    (limit : Nat) : List DeliveryRecord × Option (Option StreamCursor) :=
  match deliveryPageFiltered s after limit filter with
  | .ok records => (records, records.getLast?.map fun r ↦ some r.cursor)
  | .error _ => ([], none)

/-- Without a cursor a page starts before the first record. -/
theorem deliveryPageFiltered_none (s : Store) (limit : Nat) (filter : DeliveryFilter) :
    deliveryPageFiltered s none limit filter =
      deliveryPageFiltered s (some ⟨s.streamEpoch, 0⟩) limit filter := by
  rw [deliveryPageFiltered_start, deliveryPageFiltered_after rfl]

theorem filteredPage_eq {s : Store} (h : Numbered s) {filter : DeliveryFilter}
    {c : Option StreamCursor}
    (hc : Reached DeliveryRecord.cursor (selectedRecords s filter) c) (limit : Nat) :
    filteredPage s filter c limit =
      drainPage DeliveryRecord.cursor streamBefore (selectedRecords s filter) c
        (clamp limit 1 maxPublicDeliveryPage) := by
  have hepoch : ∀ k, c = some k → k.epoch = s.streamEpoch := by
    rintro k rfl
    exact (classify_reached h hc).1
  have hpage : deliveryPageFiltered s c limit filter =
      .ok ((recordsPast s filter c).take (clamp limit 1 maxPublicDeliveryPage)) := by
    rw [← deliveryPage_past h filter hepoch limit]
    cases c with
    | none => exact deliveryPageFiltered_none s limit filter
    | some k => rfl
  rw [filteredPage, hpage]
  rfl

/-- The store clamps a limit, so the reader may as well have asked for that. -/
theorem filteredPage_clamp (s : Store) (filter : DeliveryFilter) (c : Option StreamCursor)
    (limit : Nat) :
    filteredPage s filter c (clamp limit 1 maxPublicDeliveryPage) =
      filteredPage s filter c limit := by
  have hclamp : clamp (clamp limit 1 maxPublicDeliveryPage) 1 maxPublicDeliveryPage =
      clamp limit 1 maxPublicDeliveryPage := by
    unfold clamp maxPublicDeliveryPage
    omega
  simp only [filteredPage, deliveryPageFiltered, deliveryPageFilteredWithCap, hclamp]

/-- Whatever limits the reader asks for, the pages hold what the filter selects. -/
theorem filteredPage_complete {s : Store} (h : Numbered s) (filter : DeliveryFilter)
    (limits : Nat → Nat) :
    ∃ fuel, walk (filteredPage s filter) fuel limits none = some (selectedRecords s filter) := by
  have hordered : (selectedRecords s filter).Pairwise fun a b ↦ streamBefore a.cursor b.cursor :=
    h.increasing.filter _
  have hpages : Complete (filteredPage s filter) none (selectedRecords s filter) := by
    refine (complete_congr id (Reached DeliveryRecord.cursor (selectedRecords s filter)) ?_ ?_
      (.inl rfl) _).mpr ((drainPage_complete streamBefore_asymm hordered).resize
        fun n _ ↦ clamp_pos n (m := maxPublicDeliveryPage) (by decide))
    · intro c n hc _
      rw [id, filteredPage_eq h hc, Option.map_id]
      exact ⟨rfl, rfl⟩
    · exact fun c n c' hc _ hnext ↦ (drainPage_next streamBefore_asymm hordered hc hnext).1
  obtain ⟨fuel, hfuel⟩ := hpages (fun i ↦ clamp (limits i) 1 maxPublicDeliveryPage)
    fun i ↦ clamp_pos _ (by decide)
  refine ⟨fuel, ?_⟩
  rw [← hfuel, ← walk_resize fun n ↦ clamp n 1 maxPublicDeliveryPage]
  simp only [filteredPage_clamp]

/-- **The live filter is the filter of the pages.**  After any run of the calls that
write the store, from tables the log has not been written in, the pages of a filter
hold the records the live filter accepts, in stream order. -/
theorem run_liveFilter (dec : Decoders) (s : Store) (hlog : s.deliveryLog = [])
    (hindex : s.deliveryApplications = []) (hnext : s.nextStreamSeq = 1)
    (ops : List StreamOp) (filter : DeliveryFilter) (limits : Nat → Nat) :
    ∃ fuel, walk (filteredPage (StreamOp.run dec s ops) filter) fuel limits none =
      some ((StreamOp.run dec s ops).deliveryLog.filter (deliveryMatches · filter)) := by
  have hrun : IndexedLog (StreamOp.run dec s ops) (StreamOp.run dec s ops).nextStreamSeq :=
    Runs.run_invariant (fun s ↦ IndexedLog s s.nextStreamSeq) (fun _ _ _ hs hok ↦ hs.commit hok)
      ops (.unwritten hlog hindex hnext)
  obtain ⟨fuel, hfuel⟩ := filteredPage_complete hrun.numbered filter limits
  refine ⟨fuel, hfuel.trans (congrArg some ?_)⟩
  exact List.filter_congr fun r hr ↦ hrun.selects_eq hr filter

/-- A repaired record, an accepted one and its removal carry the application; the
record of the failed decoding does not. -/
theorem repairedRun_liveFilter :
    ∃ fuel records, walk (filteredPage
        (StreamOp.run .blind (.fresh ⟨0⟩) (repairedRun.map .log)) (applicationFilter "app"))
        fuel (fun _ ↦ 1) none = some records ∧
      records.map (·.kind) = [.projectionRepaired, .accepted, .removed] := by
  obtain ⟨fuel, hfuel⟩ := run_liveFilter .blind (.fresh ⟨0⟩) rfl rfl rfl
    (repairedRun.map .log) (applicationFilter "app") fun _ ↦ 1
  exact ⟨fuel, _, hfuel, by decide +kernel⟩

end Kascov
