import Kascov.Feed.Pending
import Kascov.Ledger.Classified
import Kascov.Store.Effect

/-!
# Pending and accepted agree

The pending classifier reads the store alone; the accepted one also keeps what
the block did before.  On a transaction that spends nothing its block created
they touch the same covenants in the same order, so the pending ids agree.  The
kinds differ just where the block had touched a covenant that the transaction
starts.
-/

namespace Kascov

/-! ## The accepted classifier, one transaction of a block -/

section Accepted

variable {compute : ComputeCovenantId} {s : Store} {decoder : ApplicationDecoder}

/-- The touched covenants in their order. -/
def touchedOrder (spent created : List CovenantId) : List CovenantId :=
  (spent ++ created).dedup.insertionSort (· ≤ ·)

theorem touchedOrder_nodup (spent created : List CovenantId) :
    (touchedOrder spent created).Nodup :=
  (List.perm_insertionSort _ _).nodup_iff.mpr (List.nodup_dedup _)

theorem mem_touchedOrder {spent created : List CovenantId} {id : CovenantId} :
    id ∈ touchedOrder spent created ↔ id ∈ spent ∨ id ∈ created := by
  rw [touchedOrder, List.mem_insertionSort, List.mem_dedup, List.mem_append]

/-- A `filterMap` that does not read the indices. -/
theorem filterMap_zipIdx_fst {α β : Type} (f : α → Option β) (xs : List α) :
    xs.zipIdx.filterMap (fun x ↦ f x.1) = xs.filterMap f := by
  conv_rhs => rw [← List.zipIdx_map_fst 0 xs, List.filterMap_map]
  rfl

theorem createdCells_boundIds (tx : Transaction) :
    (createdCells tx).map (·.covenantId) = boundIds tx := by
  rw [createdCells, List.map_filterMap]
  refine (List.filterMap_congr fun output _ ↦ ?_).trans
    (filterMap_zipIdx_fst (fun output : Output ↦ output.covenant.map (·.covenantId)) tx.outputs)
  rw [Option.map_map]
  rfl

/-- Inputs that the block did not create are looked up in the store. -/
theorem spentCells_liveInputs {overlay : List (Outpoint × CovenantId)} {tx : Transaction}
    (h : ∀ input ∈ tx.inputs, ∀ entry ∈ overlay, entry.1 ≠ input.previousOutpoint) :
    (spentCells s overlay tx).map (·.1) = liveInputs s tx := by
  rw [spentCells, List.map_filterMap]
  refine (List.filterMap_congr fun input hinput ↦ ?_).trans
    (filterMap_zipIdx_fst (fun input ↦ s.liveCovenantUtxo input.previousOutpoint) tx.inputs)
  have hmem : input.1 ∈ tx.inputs := by
    rw [← List.zipIdx_map_fst 0 tx.inputs]
    exact List.mem_map_of_mem hinput
  have hnone : overlay.find? (·.1 = input.1.previousOutpoint) = none :=
    List.find?_eq_none.mpr fun entry hentry heq ↦
      h input.1 hmem entry hentry (of_decide_eq_true heq)
  rw [Option.map_map, spentCell, hnone]
  exact Option.map_id'

variable (compute s decoder) in
/-- What one transaction adds to the events and the known covenants. -/
theorem classifyTx_touched (st : ClassifyState) (i : Nat) (tx : Transaction) :
    let spent := (spentCells s st.createdOverlay tx).map (·.1)
    let ids := touchedOrder spent (boundIds tx)
    (classifyTx compute s decoder st (i, tx)).knownOverlay = ids.reverse ++ st.knownOverlay ∧
      (classifyTx compute s decoder st (i, tx)).batch.events = st.batch.events ++
        ids.zipIdx.map (touchedEvent compute s st.knownOverlay tx i fun id ↦
          (spent.count id, (boundIds tx).count id)) := by
  dsimp only [classifyTx]
  rw [touchedCounts_sorted, createdCells_boundIds]
  have hfold := foldl_classifyTouched_eq compute s tx i
    (fun id ↦ (((spentCells s st.createdOverlay tx).map (·.1)).count id, (boundIds tx).count id))
    (touchedOrder_nodup ((spentCells s st.createdOverlay tx).map (·.1)) (boundIds tx))
    st.knownOverlay st.batch.events 0
  exact ⟨congrArg Prod.fst hfold, congrArg Prod.snd hfold⟩

/-- What the overlays of the loop hold. -/
structure Overlaid (st : ClassifyState) : Prop where
  created : st.createdOverlay =
    st.batch.createdUtxos.reverse.map fun u ↦ (u.outpoint, u.covenantId)
  known : st.knownOverlay = (st.batch.events.map (·.covenantId)).reverse

theorem Overlaid.classifyTx {st : ClassifyState} (h : Overlaid st) (indexed : Nat × Transaction) :
    Overlaid (Kascov.classifyTx compute s decoder st indexed) where
  created := by
    change _ ++ st.createdOverlay = _
    rw [h.created, ← List.map_append, ← List.reverse_append]
    rfl
  known := by
    obtain ⟨hknown, hevents⟩ := classifyTx_touched compute s decoder st indexed.1 indexed.2
    rw [hknown, hevents, h.known, List.map_append, List.reverse_append, List.map_map]
    refine congrArg (fun ids : List CovenantId ↦ ids.reverse ++ _) ?_
    exact (List.zipIdx_map_fst 0 _).symm

theorem Overlaid.foldl {st : ClassifyState} (h : Overlaid st) (txs : List (Nat × Transaction)) :
    Overlaid (txs.foldl (Kascov.classifyTx compute s decoder) st) := by
  induction txs generalizing st with
  | nil => exact h
  | cons tx txs ih => exact ih (h.classifyTx tx)

variable (compute s decoder) in
/-- A transaction's events carry its index. -/
theorem events_foldl (txs : List (Nat × Transaction)) (st : ClassifyState) :
    ∃ more, (txs.foldl (classifyTx compute s decoder) st).batch.events = st.batch.events ++ more ∧
      ∀ e ∈ more, e.txIndex ∈ txs.map (·.1) := by
  induction txs generalizing st with
  | nil => exact ⟨[], (List.append_nil _).symm, fun _ he ↦ absurd he List.not_mem_nil⟩
  | cons tx txs ih =>
      obtain ⟨more, hmore, hindex⟩ := ih (classifyTx compute s decoder st tx)
      obtain ⟨-, hevents⟩ := classifyTx_touched compute s decoder st tx.1 tx.2
      refine ⟨_, by rw [List.foldl_cons, hmore, hevents, List.append_assoc], fun e he ↦ ?_⟩
      rcases List.mem_append.mp he with he | he
      · obtain ⟨touched, -, rfl⟩ := List.mem_map.mp he
        exact List.mem_cons_self
      · exact List.mem_cons_of_mem _ (hindex e he)

end Accepted

/-! ## The two orders and the two kinds -/

section Agreement

variable {compute : ComputeCovenantId} {s : Store} {tx : Transaction}

variable (s tx) in
/-- The covenants a transaction touches on a store, in their order. -/
def pendingOrder : List CovenantId :=
  touchedOrder (liveInputs s tx) (boundIds tx)

variable (s tx) in
/-- How many cells of a covenant it spends, and how many it creates. -/
def pendingCounts (id : CovenantId) : Nat × Nat :=
  ((liveInputs s tx).count id, (boundIds tx).count id)

variable (compute s tx) in
/-- The transaction starts a covenant, as far as the store can tell. -/
def Starts (id : CovenantId) : Prop :=
  isValidGenesis compute tx id = true ∧ s.knownCovenant id = false ∧ id ∉ liveInputs s tx

theorem Starts.bound {id : CovenantId} (h : Starts compute s tx id) : id ∈ boundIds tx := by
  have hne : boundOutputs tx id ≠ [] := by
    intro hnil
    have hvalid := h.1
    rw [isValidGenesis, hnil] at hvalid
    cases hvalid
  obtain ⟨o, ho⟩ := List.exists_mem_of_ne_nil _ hne
  obtain ⟨output, houtput, hbind⟩ := List.mem_filterMap.mp ho
  obtain ⟨binding, hbinding, hif⟩ := Option.bind_eq_some_iff.mp hbind
  have hid : binding.covenantId = id := by
    by_contra hne
    rw [if_neg hne] at hif
    cases hif
  have hmem : output.1 ∈ tx.outputs := by
    rw [← List.zipIdx_map_fst 0 tx.outputs]
    exact List.mem_map_of_mem houtput
  exact List.mem_filterMap.mpr ⟨output.1, hmem, by rw [hbinding, ← hid]; rfl⟩

/-- The kind of a covenant the transaction starts: genesis to the pending
classifier, and a transition to the other once the covenant is known. -/
theorem Starts.kinds {id : CovenantId} (h : Starts compute s tx id) {known : List CovenantId}
    (hknown : id ∈ known) :
    pendingKind compute s tx id (pendingCounts s tx id) = .genesis ∧
      eventKind compute s known tx id (pendingCounts s tx id) = .transition := by
  obtain ⟨hvalid, hnew, hunspent⟩ := h
  have hspent : ¬0 < (pendingCounts s tx id).1 := fun hpos ↦
    hunspent (List.count_pos_iff.mp hpos)
  constructor
  · rw [pendingKind, if_neg fun hboth ↦ hspent hboth.1, if_neg hspent, hnew,
      if_neg Bool.false_ne_true, if_pos hvalid]
  · rw [eventKind, if_neg fun hboth ↦ hspent hboth.1, if_neg hspent, if_pos (.inl hknown)]

/-- Elsewhere the two kinds agree. -/
theorem eventKind_eq_pendingKind {known : List CovenantId} {id : CovenantId}
    (h : id ∈ known → ¬Starts compute s tx id) :
    eventKind compute s known tx id (pendingCounts s tx id) =
      pendingKind compute s tx id (pendingCounts s tx id) := by
  unfold eventKind pendingKind
  by_cases hboth : 0 < (pendingCounts s tx id).1 ∧ 0 < (pendingCounts s tx id).2
  · rw [if_pos hboth, if_pos hboth]
  · rw [if_neg hboth, if_neg hboth]
    by_cases hspent : 0 < (pendingCounts s tx id).1
    · rw [if_pos hspent, if_pos hspent]
    · rw [if_neg hspent, if_neg hspent]
      by_cases hold : s.knownCovenant id = true
      · rw [if_pos (.inr hold), if_pos hold]
      · rw [if_neg hold]
        by_cases hknown : id ∈ known
        · rw [if_pos (.inl hknown), if_neg]
          exact fun hvalid ↦ h hknown ⟨hvalid, Bool.eq_false_iff.mpr hold, fun hmem ↦
            hspent (List.count_pos_iff.mpr hmem)⟩
        · rw [if_neg (not_or.mpr ⟨hknown, hold⟩)]

variable (compute s tx) in
/-- The events of the pending classifier, in the order of their covenants. -/
theorem classifyPending_perm :
    (classifyPending compute s tx).Perm ((pendingOrder s tx).map fun id ↦
      ⟨id, pendingKind compute s tx id (pendingCounts s tx id)⟩) := by
  have hperm := (List.perm_insertionSort (fun a b : CovenantId × Nat × Nat ↦ a.1 ≤ b.1)
    (touchedCounts (liveInputs s tx) (boundIds tx))).symm.map fun entry ↦
      (⟨entry.1, pendingKind compute s tx entry.1 entry.2⟩ : PendingTxEvent)
  rw [touchedCounts_sorted, List.map_map] at hperm
  exact hperm

/-- The feed's events, whatever order they came in. -/
theorem ordinalEvents_eq {events : List PendingTxEvent}
    (h : events.Perm (classifyPending compute s tx)) :
    ordinalEvents events = (pendingOrder s tx).zipIdx.map fun t ↦
      ⟨t.1, pendingKind compute s tx t.1 (pendingCounts s tx t.1), t.2⟩ := by
  have hpending := h.trans (classifyPending_perm compute s tx)
  have hsorted : events.insertionSort (fun a b ↦ a.covenantId ≤ b.covenantId) =
      (pendingOrder s tx).map fun id ↦
        ⟨id, pendingKind compute s tx id (pendingCounts s tx id)⟩ := by
    refine ((List.perm_insertionSort _ _).trans hpending).eq_of_pairwise ?_
      (List.pairwise_insertionSort _ _) ?_
    · intro a b ha hb hab hba
      have hmem := hpending.mem_iff.mp ((List.mem_insertionSort _).mp ha)
      obtain ⟨ida, -, rfl⟩ := List.mem_map.mp hmem
      obtain ⟨idb, -, rfl⟩ := List.mem_map.mp hb
      obtain rfl : ida = idb := covenantId_antisymm hab hba
      rfl
    · exact List.pairwise_map.mpr (List.pairwise_insertionSort (· ≤ ·) _)
  rw [ordinalEvents, hsorted, List.zipIdx_map, List.map_map]
  rfl

variable {decoder : ApplicationDecoder} {accepted : AcceptedBlock} {accepting : Block}

/-- The events of one transaction of a block, when the block creates none of its
inputs. -/
theorem classify_events_at {before after : List (Nat × Transaction)} {i : Nat}
    (hindex : ((before ++ (i, tx) :: after).map (·.1)).Nodup)
    (hinputs : ∀ u ∈ (classify compute s accepted accepting decoder before).createdUtxos,
      ∀ input ∈ tx.inputs, u.outpoint ≠ input.previousOutpoint) :
    (classify compute s accepted accepting decoder (before ++ (i, tx) :: after)).events.filter
        (·.txIndex = i) =
      (pendingOrder s tx).zipIdx.map (touchedEvent compute s
        ((classify compute s accepted accepting decoder before).events.map (·.covenantId)).reverse
        tx i (pendingCounts s tx)) := by
  let init : ClassifyState :=
    { batch :=
        { acceptingBlock := accepted.acceptingBlock
          acceptingDaa := accepting.daaScore
          acceptingTimeMs := accepting.timestampMs
          acceptingBlueScore := accepting.blueScore }
      createdOverlay := []
      knownOverlay := [] }
  let st := before.foldl (classifyTx compute s decoder) init
  have hst : Overlaid st := Overlaid.foldl ⟨rfl, rfl⟩ before
  have hlive : (spentCells s st.createdOverlay tx).map (·.1) = liveInputs s tx := by
    refine spentCells_liveInputs fun input hinput entry hentry ↦ ?_
    rw [hst.created] at hentry
    obtain ⟨u, hu, rfl⟩ := List.mem_map.mp hentry
    exact hinputs u (List.mem_reverse.mp hu) input hinput
  obtain ⟨early, hearly, hearlyIndex⟩ := events_foldl compute s decoder before init
  obtain ⟨late, hlate, hlateIndex⟩ := events_foldl compute s decoder after
    (classifyTx compute s decoder st (i, tx))
  obtain ⟨-, hevents⟩ := classifyTx_touched compute s decoder st i tx
  rw [hlive] at hevents
  have hall : (classify compute s accepted accepting decoder (before ++ (i, tx) :: after)).events =
      st.batch.events ++ ((pendingOrder s tx).zipIdx.map
        (touchedEvent compute s st.knownOverlay tx i (pendingCounts s tx)) ++ late) := by
    rw [classify, List.foldl_append, List.foldl_cons]
    exact hlate.trans (by rw [hevents, List.append_assoc]; rfl)
  rw [List.map_append, List.map_cons, List.nodup_middle, List.nodup_cons, List.mem_append,
    not_or] at hindex
  rw [hall, List.filter_append, List.filter_append, hst.known, List.filter_eq_nil_iff.mpr,
    List.filter_eq_self.mpr, List.filter_eq_nil_iff.mpr, List.nil_append, List.append_nil]
  · rfl
  · exact fun e he heq ↦ hindex.1.2 (of_decide_eq_true heq ▸ hlateIndex e he)
  · intro e he
    obtain ⟨touched, -, rfl⟩ := List.mem_map.mp he
    exact decide_eq_true rfl
  · intro e he heq
    have hmem : e ∈ early := by
      have hstart : st.batch.events = early := hearly
      exact hstart ▸ he
    exact hindex.1.1 (of_decide_eq_true heq ▸ hearlyIndex e hmem)

/-- An element of a list without duplicates has one place. -/
theorem zipIdx_place {α : Type} {xs : List α} (h : xs.Nodup) {x : α} {m n : Nat}
    (hm : (x, m) ∈ xs.zipIdx) (hn : (x, n) ∈ xs.zipIdx) : m = n := by
  have hxm := List.mem_zipIdx_iff_getElem?.mp hm
  have hxn := List.mem_zipIdx_iff_getElem?.mp hn
  obtain ⟨hlt, -⟩ := List.getElem?_eq_some_iff.mp hxm
  exact (List.getElem?_inj hlt h).mp (hxm.trans hxn.symm)

/-- The announced events of a transaction that the feed holds under no other
ordinals. -/
theorem mem_announced {events : List PendingTxEvent}
    (hevents : events.Perm (classifyPending compute s tx)) {feed feed' : PendingFeed}
    {application : ApplicationPreprocess} {atMs : Nat} {r : PendingInsert}
    (htrack : trackPendingTransaction feed tx events application atMs = (feed', r))
    (hr : r ≠ .overflow)
    (hfeed : ∀ e ∈ feed.eventsOf tx.txid, (e.covenantId, e.ordinal) ∈ (pendingOrder s tx).zipIdx)
    {id : CovenantId} {kind : EventKind} {pid : PendingEventId} :
    (id, kind, pid) ∈ feed'.announced tx.txid ↔
      ∃ n, (id, n) ∈ (pendingOrder s tx).zipIdx ∧
        kind = pendingKind compute s tx id (pendingCounts s tx id) ∧ pid = ⟨tx.txid, id, n⟩ := by
  have hnodup : (pendingOrder s tx).Nodup := touchedOrder_nodup _ _
  have hids : (ordinalEvents events).map (·.covenantId) = pendingOrder s tx := by
    rw [ordinalEvents_eq hevents, List.map_map]
    exact List.zipIdx_map_fst 0 _
  have hordinal : ∀ e ∈ ordinalEvents events,
      (e.covenantId, e.ordinal) ∈ (pendingOrder s tx).zipIdx := by
    intro e he
    rw [ordinalEvents_eq hevents] at he
    obtain ⟨t, ht, rfl⟩ := List.mem_map.mp he
    exact ht
  unfold trackPendingTransaction at htrack
  split at htrack
  · exact absurd (Prod.mk.inj htrack).2.symm hr
  · rename_i hfull
    have hroom : feed.Room tx.txid := by
      by_cases hmem : tx.txid ∈ feed.entries
      · exact .inl hmem
      · exact .inr (Nat.not_le.mp fun hle ↦ hfull ⟨hmem, hle⟩)
    have hheld : ∀ x, x ∈ feed'.eventsOf tx.txid ↔ x ∈ ordinalEvents events := by
      intro x
      have hspec := foldl_insertAt_spec application atMs (hids.symm ▸ hnodup) hroom
        (fun event hevent e he heq ↦ zipIdx_place hnodup (heq ▸ hfeed e he) (hordinal event hevent))
        .alreadyTracked x
      rw [htrack, hids] at hspec
      refine hspec.trans (or_iff_right fun hold ↦ hold.2 ?_)
      rw [← List.zipIdx_map_fst 0 (pendingOrder s tx)]
      exact List.mem_map_of_mem (hfeed x hold.1)
    rw [PendingFeed.announced, List.mem_map]
    constructor
    · rintro ⟨e, he, heq⟩
      rw [hheld, ordinalEvents_eq hevents] at he
      obtain ⟨t, ht, rfl⟩ := List.mem_map.mp he
      obtain ⟨rfl, rfl, rfl⟩ : t.1 = id ∧ _ = kind ∧ _ = pid := by
        rw [Prod.mk.injEq, Prod.mk.injEq] at heq
        exact heq
      exact ⟨t.2, ht, rfl, rfl⟩
    · rintro ⟨n, hn, rfl, rfl⟩
      refine ⟨⟨id, pendingKind compute s tx id (pendingCounts s tx id), n⟩, ?_, rfl⟩
      rw [hheld, ordinalEvents_eq hevents]
      exact List.mem_map.mpr ⟨(id, n), hn, rfl⟩

/-- The records that an application appends, one for each event of its batch. -/
theorem appended_records {dec : Decoders} {s₁ s' : Store} {batch : AcceptedBlockBatch}
    {c : CommittedBatch} (h : applyAcceptedBlock dec s₁ batch = .ok (s', c))
    (hnew : s₁.isCanonical batch.acceptingBlock = false) :
    ∃ new, s'.deliveryLog = s₁.deliveryLog ++ new ∧ ∀ i id pid,
      (∃ record ∈ new, record.txIndex = some i ∧ record.covenantId = id ∧
          record.pendingId = some pid) ↔
        ∃ e ∈ batch.events, e.txIndex = i ∧ e.covenantId = id ∧
          pid = ⟨e.txid, e.covenantId, e.eventIndex⟩ := by
  obtain ⟨-, -, ⟨hc, -⟩ | ⟨-, rfl⟩⟩ := applyAcceptedBlock_ok h
  · exact absurd hc (Bool.eq_false_iff.mp hnew)
  · refine ⟨_, rfl, fun i id pid ↦ ?_⟩
    constructor
    · rintro ⟨record, hrecord, hindex, hid, hpid⟩
      obtain ⟨e, he, rfl⟩ := List.mem_map.mp hrecord
      have hevent := List.mem_map_of_mem (f := (·.1)) he
      rw [numberEvents_map_event] at hevent
      exact ⟨e.1, hevent, Option.some.inj hindex, hid, (Option.some.inj hpid).symm⟩
    · rintro ⟨e, he, rfl, rfl, rfl⟩
      rw [← numberEvents_map_event dec batch s₁.covenantEvents s₁.nextStreamSeq batch.events] at he
      obtain ⟨numbered, hnumbered, rfl⟩ := List.mem_map.mp he
      exact ⟨_, List.mem_map_of_mem hnumbered, rfl, rfl, rfl⟩

/-- **The two classifiers agree.**  A transaction none of whose inputs its block
creates touches the same covenants for both, under the same pending ids.  The
kinds agree as well unless a transaction before it in the block had touched a
covenant that it starts. -/
theorem pending_agrees {before after : List (Nat × Transaction)} {i : Nat}
    (hindex : ((before ++ (i, tx) :: after).map (·.1)).Nodup)
    (hinputs : ∀ u ∈ (classify compute s accepted accepting decoder before).createdUtxos,
      ∀ input ∈ tx.inputs, u.outpoint ≠ input.previousOutpoint)
    {events : List PendingTxEvent} (hevents : events.Perm (classifyPending compute s tx))
    {feed feed' : PendingFeed} {application : ApplicationPreprocess} {atMs : Nat}
    {r : PendingInsert}
    (htrack : trackPendingTransaction feed tx events application atMs = (feed', r))
    (hr : r ≠ .overflow)
    (hfeed : ∀ e ∈ feed.eventsOf tx.txid, (e.covenantId, e.ordinal) ∈ (pendingOrder s tx).zipIdx)
    {dec : Decoders} {s₁ s' : Store} {c : CommittedBatch}
    (happly : applyAcceptedBlock dec s₁
      (classify compute s accepted accepting decoder (before ++ (i, tx) :: after)) = .ok (s', c))
    (hnew : s₁.isCanonical accepted.acceptingBlock = false) :
    (∀ id, (∃ kind, ⟨id, kind⟩ ∈ events) ↔
      ∃ e ∈ (classify compute s accepted accepting decoder (before ++ (i, tx) :: after)).events,
        e.txIndex = i ∧ e.covenantId = id) ∧
    ((∀ id kind, ⟨id, kind⟩ ∈ events ↔
        ∃ e ∈ (classify compute s accepted accepting decoder (before ++ (i, tx) :: after)).events,
          e.txIndex = i ∧ e.covenantId = id ∧ e.kind = kind) ↔
      ∀ e ∈ (classify compute s accepted accepting decoder before).events,
        ¬Starts compute s tx e.covenantId) ∧
    ∃ new, s'.deliveryLog = s₁.deliveryLog ++ new ∧
      ∀ id kind pid, (id, kind, pid) ∈ feed'.announced tx.txid ↔
        ⟨id, kind⟩ ∈ events ∧ ∃ record ∈ new, record.txIndex = some i ∧
          record.covenantId = id ∧ record.pendingId = some pid := by
  have hat := classify_events_at hindex hinputs
  have hmem : ∀ e, (e ∈ (classify compute s accepted accepting decoder
      (before ++ (i, tx) :: after)).events ∧ e.txIndex = i) ↔
      ∃ t ∈ (pendingOrder s tx).zipIdx, touchedEvent compute s
        ((classify compute s accepted accepting decoder before).events.map
          (·.covenantId)).reverse tx i (pendingCounts s tx) t = e := by
    intro e
    rw [← List.mem_map, ← hat, List.mem_filter, decide_eq_true_eq]
  have hpending : ∀ id kind, (⟨id, kind⟩ : PendingTxEvent) ∈ events ↔
      id ∈ pendingOrder s tx ∧ kind = pendingKind compute s tx id (pendingCounts s tx id) := by
    intro id kind
    rw [(hevents.trans (classifyPending_perm compute s tx)).mem_iff, List.mem_map]
    constructor
    · rintro ⟨id', hid', heq⟩
      obtain ⟨rfl, rfl⟩ := PendingTxEvent.mk.inj heq
      exact ⟨hid', rfl⟩
    · rintro ⟨hid, rfl⟩
      exact ⟨id, hid, rfl⟩
  have hplace : ∀ id, id ∈ pendingOrder s tx ↔ ∃ n, (id, n) ∈ (pendingOrder s tx).zipIdx := by
    intro id
    conv_lhs => rw [← List.zipIdx_map_fst 0 (pendingOrder s tx), List.mem_map]
    exact ⟨fun ⟨t, ht, heq⟩ ↦ ⟨t.2, heq ▸ ht⟩, fun ⟨n, hn⟩ ↦ ⟨(id, n), hn, rfl⟩⟩
  refine ⟨fun id ↦ ?_, ?_, ?_⟩
  · constructor
    · rintro ⟨kind, hkind⟩
      obtain ⟨n, hn⟩ := (hplace id).mp ((hpending id kind).mp hkind).1
      obtain ⟨he, hi⟩ := (hmem _).mpr ⟨(id, n), hn, rfl⟩
      exact ⟨_, he, hi, rfl⟩
    · rintro ⟨e, he, hi, rfl⟩
      obtain ⟨t, ht, rfl⟩ := (hmem e).mp ⟨he, hi⟩
      exact ⟨_, (hpending _ _).mpr ⟨(hplace _).mpr ⟨t.2, ht⟩, rfl⟩⟩
  · constructor
    · intro hkinds early hearly hstarts
      have hknown : early.covenantId ∈ ((classify compute s accepted accepting decoder
          before).events.map (·.covenantId)).reverse :=
        List.mem_reverse.mpr (List.mem_map_of_mem hearly)
      obtain ⟨hgenesis, htransition⟩ := hstarts.kinds hknown
      have htouched : early.covenantId ∈ pendingOrder s tx :=
        mem_touchedOrder.mpr (.inr hstarts.bound)
      obtain ⟨e, he, hi, hid, hkind⟩ :=
        (hkinds _ _).mp ((hpending _ _).mpr ⟨htouched, rfl⟩)
      obtain ⟨t, ht, rfl⟩ := (hmem e).mp ⟨he, hi⟩
      have hid' : t.1 = early.covenantId := hid
      have hkind' : eventKind compute s _ tx t.1 (pendingCounts s tx t.1) = _ := hkind
      rw [hid', htransition, hgenesis] at hkind'
      cases hkind'
    · intro hstarts id kind
      have hkinds : eventKind compute s ((classify compute s accepted accepting decoder
            before).events.map (·.covenantId)).reverse tx id (pendingCounts s tx id) =
          pendingKind compute s tx id (pendingCounts s tx id) := by
        refine eventKind_eq_pendingKind fun hknown ↦ ?_
        obtain ⟨early, hearly, rfl⟩ := List.mem_map.mp (List.mem_reverse.mp hknown)
        exact hstarts early hearly
      constructor
      · intro hkind
        obtain ⟨hid, rfl⟩ := (hpending id kind).mp hkind
        obtain ⟨n, hn⟩ := (hplace id).mp hid
        obtain ⟨he, hi⟩ := (hmem _).mpr ⟨(id, n), hn, rfl⟩
        exact ⟨_, he, hi, rfl, hkinds⟩
      · rintro ⟨e, he, hi, rfl, rfl⟩
        obtain ⟨t, ht, rfl⟩ := (hmem e).mp ⟨he, hi⟩
        exact (hpending _ _).mpr ⟨(hplace _).mpr ⟨t.2, ht⟩, hkinds⟩
  · obtain ⟨new, hlog, hrecords⟩ := appended_records happly
      ((congrArg s₁.isCanonical (classify_acceptingBlock ..)).trans hnew)
    refine ⟨new, hlog, fun id kind pid ↦ ?_⟩
    rw [mem_announced hevents htrack hr hfeed, hpending, hrecords]
    constructor
    · rintro ⟨n, hn, rfl, rfl⟩
      obtain ⟨he, hi⟩ := (hmem _).mpr ⟨(id, n), hn, rfl⟩
      exact ⟨⟨(hplace id).mpr ⟨n, hn⟩, rfl⟩, _, he, hi, rfl, rfl⟩
    · rintro ⟨⟨-, rfl⟩, e, he, hi, rfl, rfl⟩
      obtain ⟨t, ht, rfl⟩ := (hmem e).mp ⟨he, hi⟩
      exact ⟨t.2, ht, rfl, rfl⟩

end Agreement

/-! ## Samples -/

/-- A hash that gives covenant 9 to one outpoint. -/
def seedCompute : ComputeCovenantId := fun o _ ↦ if o = ⟨⟨5⟩, 0⟩ then ⟨9⟩ else ⟨0⟩

/-- A transaction that binds an output to covenant 9. -/
def bindingNine (txid : TxId) (spends : List Outpoint) : Transaction :=
  { txid
    version := 0
    inputs := spends.map fun o ↦
      { previousOutpoint := o, signatureScript := [], computeBudget := 0 }
    outputs := [{ value := 1000, spkVersion := 0, spkScript := [], covenant := some ⟨⟨9⟩, 0⟩ }]
    payload := [] }

/-- The transaction that starts the covenant, and one that claims it without a
proof. -/
def startTx : Transaction := bindingNine ⟨2⟩ [⟨⟨5⟩, 0⟩]
def frontRunTx : Transaction := bindingNine ⟨1⟩ []

/-- The batch of a block over the given transactions, at DAA score 100. -/
def sampleBatch (s : Store) (txs : List (Nat × Transaction)) : AcceptedBlockBatch :=
  classify seedCompute s ⟨⟨1⟩, txs.map (·.2.txid)⟩
    { hash := ⟨1⟩
      daaScore := 100
      blueScore := 0
      timestampMs := 0
      mergeset := []
      transactions := txs.map (·.2) } noApplicationDecoder txs

/-- The feed after it tracked a transaction classified on a store. -/
def tracked (feed : PendingFeed) (s : Store) (tx : Transaction) : PendingFeed :=
  (trackPendingTransaction feed tx (classifyPending seedCompute s tx) {} 0).1

/-- A transaction that spends a cell of covenant 1 and binds an output to
covenant 9. -/
def childTx : Transaction := bindingNine ⟨3⟩ [⟨⟨6⟩, 0⟩]

/-- The index once the transaction that creates the cell is accepted. -/
def parentStore : Store :=
  appliedStore .blind (.fresh ⟨0⟩)
    { acceptingBlock := ⟨7⟩
      acceptingDaa := 50
      events := [
        { covenantId := ⟨1⟩
          kind := .transition
          txid := ⟨6⟩
          txIndex := 0
          eventIndex := 0
          payload := none
          laneNamespace := none }]
      createdUtxos := [
        { outpoint := ⟨⟨6⟩, 0⟩
          covenantId := ⟨1⟩
          value := 1000
          spkVersion := 0
          spkScript := [] }] }

/-- Between the start of covenant 9 and another transaction of that covenant, the child has the
announced kinds and pending ids on both covenants it touches. -/
theorem pending_agrees_child :
    ∃ s' c, applyAcceptedBlock .blind parentStore
        (sampleBatch parentStore [(0, startTx), (1, childTx), (4, frontRunTx)]) = .ok (s', c) ∧
      pendingOrder parentStore childTx = [⟨1⟩, ⟨9⟩] ∧
      (∀ id kind, ⟨id, kind⟩ ∈ classifyPending seedCompute parentStore childTx ↔
        ∃ e ∈ (sampleBatch parentStore
            [(0, startTx), (1, childTx), (4, frontRunTx)]).events,
          e.txIndex = 1 ∧ e.covenantId = id ∧ e.kind = kind) ∧
      ∃ new, s'.deliveryLog = parentStore.deliveryLog ++ new ∧
        ∀ id kind pid, (id, kind, pid) ∈ (tracked {} parentStore childTx).announced ⟨3⟩ ↔
          ⟨id, kind⟩ ∈ classifyPending seedCompute parentStore childTx ∧
            ∃ record ∈ new, record.txIndex = some 1 ∧
              record.covenantId = id ∧ record.pendingId = some pid := by
  have hok : (applyAcceptedBlock .blind parentStore
      (sampleBatch parentStore [(0, startTx), (1, childTx), (4, frontRunTx)])).isOk = true := by
    decide +kernel
  rcases happly : applyAcceptedBlock .blind parentStore
      (sampleBatch parentStore [(0, startTx), (1, childTx), (4, frontRunTx)]) with e | ⟨s', c⟩
  · rw [happly] at hok
    cases hok
  · have hindex : ((([(0, startTx)] ++ (1, childTx) :: [(4, frontRunTx)]) :
        List (Nat × Transaction)).map (·.1)).Nodup := by decide
    have hinputs : ∀ u ∈ (sampleBatch parentStore [(0, startTx)]).createdUtxos,
        ∀ input ∈ childTx.inputs, u.outpoint ≠ input.previousOutpoint := by decide +kernel
    have htrack : trackPendingTransaction {} childTx
        (classifyPending seedCompute parentStore childTx) {} 0 =
          (tracked {} parentStore childTx, .added) := by
      have hadded : (trackPendingTransaction {} childTx
          (classifyPending seedCompute parentStore childTx) {} 0).2 = .added := by decide +kernel
      rw [← hadded]
      rfl
    have hempty : ({} : PendingFeed).eventsOf childTx.txid = [] := by decide +kernel
    have hstarts : ∀ e ∈ (sampleBatch parentStore [(0, startTx)]).events,
        ¬Starts seedCompute parentStore childTx e.covenantId := by
      rintro e he ⟨hproof, -, -⟩
      revert hproof e
      decide +kernel
    obtain ⟨-, hkinds, hnew⟩ := pending_agrees hindex hinputs (List.Perm.refl _) htrack (nomatch ·)
      (fun e he ↦ absurd (hempty ▸ he) List.not_mem_nil) happly (by decide +kernel)
    exact ⟨s', c, rfl, by decide +kernel, hkinds.mpr hstarts, hnew⟩

/-- Behind a false claim in its block, the transaction is a transition where the
feed announced a genesis.  And a feed that held a transaction before the cell it
spends was indexed keeps the old ordinal: covenant 9 is announced under 0, and
delivered under 1. -/
theorem pending_disagrees :
    (classifyPending seedCompute (.fresh ⟨0⟩) startTx = [⟨⟨9⟩, .genesis⟩] ∧
      (sampleBatch (.fresh ⟨0⟩) [(0, frontRunTx)]).createdUtxos.map (·.outpoint) =
        [⟨⟨1⟩, 0⟩] ∧
      (sampleBatch (.fresh ⟨0⟩) [(0, frontRunTx), (1, startTx)]).events.map
          (fun e ↦ (e.txIndex, e.covenantId, e.kind)) =
        [(0, ⟨9⟩, .transition), (1, ⟨9⟩, .transition)]) ∧
    (tracked (tracked {} (.fresh ⟨0⟩) childTx) parentStore childTx).announced ⟨3⟩ =
        [(⟨1⟩, .burn, ⟨⟨3⟩, ⟨1⟩, 0⟩), (⟨9⟩, .transition, ⟨⟨3⟩, ⟨9⟩, 0⟩)] ∧
      (sampleBatch parentStore [(0, childTx)]).events.map
          (fun e ↦ (e.covenantId, e.eventIndex)) = [(⟨1⟩, 0), (⟨9⟩, 1)] := by
  refine ⟨⟨?_, ?_, ?_⟩, ?_, ?_⟩
  all_goals decide +kernel

end Kascov
