import Kascov.Order.ChainOrder
import Kascov.Sync.ReAnchor
import Kascov.Undo.Reachable

/-!
# What a re-anchor leaves

A re-anchor lists the blocks to roll back from the event table, and the rollback
keeps of them those that `canonical_batches` holds.  It leaves nothing above the
anchor just when the blocks above it on record are in both tables: a merged block
is in the first only, a checkpoint without events in the second only.
-/

namespace Kascov

open Fallible

/-! ## Runs -/

/-- A call that writes an index: the steps of a sync pass, a recovery that ran to
its end, and a re-anchor. -/
inductive SyncOp where
  | setTip (daa : Nat)
  | apply (block : AcceptedBlockBatch)
  | rollback (removed : List BlockHash)
  | recover (gapLo gapHi : Nat) (blocks : List AcceptedBlockBatch)
  | reAnchor (virtualChainFrom : BlockHash → Result ChainStep)

/-- The transactions a call runs. -/
def SyncOp.commit (dec : Decoders) (s : Store) : SyncOp → Result Store
  | .setTip daa => .ok (s.setTip daa)
  | .apply block => (applyAcceptedBlock dec s block).map (·.1)
  | .rollback removed => (rollbackRemovedBlocks s removed).map (·.1)
  | .recover gapLo gapHi blocks => .ok (recoverBlocks dec s gapLo gapHi blocks)
  | .reAnchor virtualChainFrom => (Kascov.reAnchor virtualChainFrom s).map (·.1)

/-- The store after a run of calls, each of which may fail. -/
abbrev SyncOp.run (dec : Decoders) (s : Store) (ops : List SyncOp) : Store :=
  Runs.run (SyncOp.commit dec) s ops

variable (daaOf : BlockHash → Nat)

/-- Batches with events carry the DAA score of their block's header; the batch
that starts a fresh index carries none, and no events. -/
def SyncOp.Headed : SyncOp → Prop
  | .apply block => block.events = [] ∨ block.acceptingDaa = daaOf block.acceptingBlock
  | .recover _ _ blocks => ∀ block ∈ blocks, block.acceptingDaa = daaOf block.acceptingBlock
  | _ => True

/-- Every event carries the DAA score of its block's header. -/
def HeadedEvents (events : List EventRow) : Prop :=
  ∀ e ∈ events, e.acceptingDaa = daaOf e.acceptingBlock

/-- No row of the store belongs to a block above a DAA score. -/
structure CleanAbove (daa : Nat) (s : Store) : Prop where
  events : ∀ e ∈ s.covenantEvents, daaOf e.acceptingBlock ≤ daa
  created : ∀ c ∈ s.covenantUtxos, daaOf c.createdBlock ≤ daa
  spent : ∀ c ∈ s.covenantUtxos, ∀ b, c.spentBlock = some b → daaOf b ≤ daa
  batches : ∀ r ∈ s.canonicalBatches, daaOf r.acceptingBlock ≤ daa

/-- A block with an event on record, and canonical. -/
def Store.Indexed (s : Store) (b : BlockHash) : Prop :=
  s.isCanonical b = true ∧ ∃ e ∈ s.covenantEvents, e.acceptingBlock = b

/-- What is on record above a DAA score belongs to indexed blocks: every event
is of a canonical block, every canonical block has events, and a cell is created
by an indexed block or, where its creation stands, spent by one. -/
structure IndexedAbove (daa : Nat) (s : Store) : Prop where
  events : ∀ e ∈ s.covenantEvents, daa < daaOf e.acceptingBlock →
    s.isCanonical e.acceptingBlock = true
  batches : ∀ r ∈ s.canonicalBatches, daa < daaOf r.acceptingBlock →
    ∃ e ∈ s.covenantEvents, e.acceptingBlock = r.acceptingBlock
  created : ∀ c ∈ s.covenantUtxos, daa < daaOf c.createdBlock → s.Indexed c.createdBlock
  spent : ∀ c ∈ s.covenantUtxos, daaOf c.createdBlock ≤ daa → ∀ b, c.spentBlock = some b →
    daa < daaOf b → s.Indexed b

/-- The event a batch asks for, as the event table records it. -/
def NewEvent.recordedAs (event : NewEvent) : CovenantId × EventKind × TxId × Option Nat :=
  (event.covenantId, event.kind, event.txid, some event.txIndex)

def EventRow.recorded (row : EventRow) : CovenantId × EventKind × TxId × Option Nat :=
  (row.covenantId, row.kind, row.txid, row.txIndex)

/-- The rows of one block, as `recorded`. -/
def recordedOf (b : BlockHash) (s : Store) : List (CovenantId × EventKind × TxId × Option Nat) :=
  (s.covenantEvents.filter (·.acceptingBlock = b)).map EventRow.recorded

/-- One call of a pass. -/
abbrev passStep (dec : Decoders) (s : Store) (block : AcceptedBlockBatch) : Result Store :=
  (applyAcceptedBlock dec s block).map (·.1)

/-- A sync pass over new blocks above a DAA score inserts the events of each,
once. -/
def PassInsertsOnce (dec : Decoders) (daa : Nat) (s : Store) : Prop :=
  ∀ (blocks : List AcceptedBlockBatch) (s' : Store),
    (blocks.map (·.acceptingBlock)).Nodup →
    (∀ block ∈ blocks, daa < daaOf block.acceptingBlock) →
    blocks.foldlM (passStep dec) s = .ok s' →
    ∀ block ∈ blocks, recordedOf block.acceptingBlock s' = block.events.map NewEvent.recordedAs

/-- What a re-anchor promises of its outcome. -/
def ReAnchored (dec : Decoders) (s s' : Store) : ReAnchor → Prop
  | .anchored anchor =>
      CleanAbove daaOf (daaOf anchor) s' ∧ s'.cursor = some anchor ∧
        s'.processedDaa = some (daaOf anchor) ∧ PassInsertsOnce daaOf dec (daaOf anchor) s'
  | _ => s' = s

variable {daaOf}

/-! ## Events carry the scores of their blocks -/

theorem resequence_chainBlock {id : CovenantId} {rows : List EventRow} {e : EventRow}
    (he : e ∈ resequence id rows) : ∃ old ∈ rows, e.chainBlock = old.chainBlock := by
  have hpark : ∀ (moves : List (Int × Nat)) (rows : List EventRow),
      ∀ e ∈ moves.foldl (parkSeq id) rows, ∃ old ∈ rows, e.chainBlock = old.chainBlock := by
    intro moves
    induction moves with
    | nil => exact fun _ e he ↦ ⟨e, he, rfl⟩
    | cons move moves ih =>
        intro rows e he
        obtain ⟨parked, hparked, heq⟩ := ih _ e he
        obtain ⟨old, hold, rfl⟩ := List.mem_map.mp hparked
        refine ⟨old, hold, heq.trans ?_⟩
        split <;> rfl
  unfold resequence at he
  dsimp only at he
  split at he
  · exact ⟨e, he, rfl⟩
  · obtain ⟨parked, hparked, rfl⟩ := List.mem_map.mp he
    obtain ⟨old, hold, heq⟩ := hpark _ _ parked hparked
    refine ⟨old, hold, Eq.trans ?_ heq⟩
    split <;> rfl

theorem HeadedEvents.of_chainBlock {rows rows' : List EventRow} (h : HeadedEvents daaOf rows)
    (hrows : ∀ e ∈ rows', ∃ old ∈ rows, e.chainBlock = old.chainBlock) :
    HeadedEvents daaOf rows' := by
  intro e he
  obtain ⟨old, hold, heq⟩ := hrows e he
  obtain ⟨hhash, hdaa⟩ := ChainBlock.mk.inj heq
  rw [hdaa, hhash]
  exact h old hold

theorem HeadedEvents.finalize {s : Store} (h : HeadedEvents daaOf s.covenantEvents)
    (gapLo gapHi : Nat) (merged : MergeCounts) :
    HeadedEvents daaOf (finalizeGapRecovery s gapLo gapHi merged).covenantEvents := by
  have hfold : ∀ (ids : List CovenantId) (s : Store), HeadedEvents daaOf s.covenantEvents →
      HeadedEvents daaOf (ids.foldl refreshCovenant s).covenantEvents := by
    intro ids
    induction ids with
    | nil => exact fun _ h ↦ h
    | cons id ids ih =>
        exact fun s h ↦ ih _ (h.of_chainBlock fun e he ↦ resequence_chainBlock he)
  exact hfold _ s h

/-- What every event asked for satisfies, every insert does. -/
theorem inserts_of_mem {dec : Decoders} {Q : AcceptedBlockBatch × NewEvent → Prop}
    {rows : List EventRow} {es : List (AcceptedBlockBatch × NewEvent)} (h : ∀ e ∈ es, Q e) :
    Inserts dec (fun _ e ↦ Q e) rows es := by
  induction es generalizing rows with
  | nil => trivial
  | cons e es ih =>
      obtain ⟨he, hes⟩ := List.forall_mem_cons.mp h
      exact ⟨fun _ ↦ he, ih hes⟩

theorem HeadedEvents.append {rows more : List EventRow} (h : HeadedEvents daaOf rows)
    (hmore : HeadedEvents daaOf more) : HeadedEvents daaOf (rows ++ more) := by
  intro e he
  rcases List.mem_append.mp he with he | he
  · exact h e he
  · exact hmore e he

theorem HeadedEvents.recover {dec : Decoders} {s : Store} {blocks : List AcceptedBlockBatch}
    (h : HeadedEvents daaOf s.covenantEvents)
    (hblocks : ∀ block ∈ blocks, block.acceptingDaa = daaOf block.acceptingBlock)
    (gapLo gapHi : Nat) :
    HeadedEvents daaOf (recoverBlocks dec s gapLo gapHi blocks).covenantEvents := by
  refine HeadedEvents.finalize ?_ _ _ _
  refine mergeBlocks_invariant (fun rows _ ↦ HeadedEvents daaOf rows) ?_
    (inserts_of_mem fun e he ↦ hblocks e.1 (mem_recoveredEvents he)) h
  intro rows _ e hrows _ hheaded
  refine hrows.append fun row hrow ↦ ?_
  rw [List.mem_singleton.mp hrow]
  exact hheaded

theorem HeadedEvents.applied {dec : Decoders} {s : Store} {block : AcceptedBlockBatch}
    (h : HeadedEvents daaOf s.covenantEvents)
    (hblock : block.events = [] ∨ block.acceptingDaa = daaOf block.acceptingBlock) :
    HeadedEvents daaOf (appliedStore dec s block).covenantEvents := by
  refine h.append fun row hrow ↦ ?_
  obtain ⟨x, hx, rfl⟩ := List.mem_map.mp hrow
  rcases hblock with hnil | hdaa
  · rw [hnil] at hx
    cases hx
  · exact hdaa

theorem HeadedEvents.commit {dec : Decoders} {s s' : Store} {op : SyncOp}
    (h : HeadedEvents daaOf s.covenantEvents) (hop : op.Headed daaOf)
    (hok : op.commit dec s = .ok s') : HeadedEvents daaOf s'.covenantEvents := by
  have hfilter : ∀ hashes, HeadedEvents daaOf (rolledBackStore s hashes).covenantEvents :=
    fun hashes e he ↦ h e (List.mem_of_mem_filter he)
  cases op with
  | setTip daa =>
      obtain rfl := Except.ok.inj hok
      exact h
  | apply block =>
      obtain ⟨c, hc⟩ := map_fst_eq_ok hok
      obtain ⟨-, -, ⟨-, rfl⟩ | ⟨-, rfl⟩⟩ := applyAcceptedBlock_ok hc
      · exact h
      · exact h.applied hop
  | rollback removed =>
      obtain ⟨c, hc⟩ := map_fst_eq_ok hok
      obtain ⟨-, ⟨-, rfl, -⟩ | ⟨-, rfl, -⟩⟩ := rollbackRemovedBlocks_ok hc
      · exact h
      · exact hfilter _
  | recover gapLo gapHi blocks =>
      obtain rfl := Except.ok.inj hok
      exact h.recover hop gapLo gapHi
  | reAnchor virtualChainFrom =>
      obtain ⟨out, hout⟩ := map_fst_eq_ok hok
      obtain ⟨rfl, -⟩ | ⟨anchor, daa, rolled, -, -, hrolled, rfl⟩ := reAnchor_ok hout
      · exact h
      · rcases hrolled with ⟨rfl, -⟩ | rfl
        · exact h
        · exact hfilter _

theorem headedEvents_run (dec : Decoders) (epoch : StreamEpoch) {ops : List SyncOp}
    (h : ∀ op ∈ ops, op.Headed daaOf) :
    HeadedEvents daaOf (SyncOp.run dec (.fresh epoch) ops).covenantEvents := by
  refine Runs.run_invariant_of_guarded (fun s ↦ HeadedEvents daaOf s.covenantEvents)
    (fun _ op ↦ SyncOp.Headed daaOf op) (fun _ _ _ hs hop hok ↦ hs.commit hop hok) ?_
    (Runs.guarded_of_forall h)
  intro e he
  cases he

/-! ## The rows a re-anchor leaves -/

/-- The blocks a re-anchor rolls back are the indexed ones above its anchor. -/
theorem mem_rolled {s : Store} {daa : Nat} (h : HeadedEvents daaOf s.covenantEvents)
    {b : BlockHash} :
    b ∈ canonicalRemoved s (acceptingBlocksAbove s daa) ↔ daa < daaOf b ∧ s.Indexed b := by
  rw [mem_canonicalRemoved, mem_acceptingBlocksAbove]
  constructor
  · rintro ⟨⟨e, he, rfl, habove⟩, hcanonical⟩
    rw [h e he] at habove
    exact ⟨habove, hcanonical, e, he, rfl⟩
  · rintro ⟨habove, hcanonical, e, he, rfl⟩
    rw [← h e he] at habove
    exact ⟨⟨e, he, rfl, habove⟩, hcanonical⟩

/-- The block that spends a cell after a rollback is the one that spent it
before, if it stays. -/
theorem unspendRows_spentBlock {hashes : List BlockHash} {c : UtxoRow} {b : BlockHash} :
    (unspendRows hashes c).spentBlock = some b ↔ c.spentBlock = some b ∧ b ∉ hashes := by
  by_cases hgone : ∃ hash ∈ hashes, c.spentBlock = some hash
  · obtain ⟨hash, hmem, hspent⟩ := hgone
    rw [unspendRows_of_mem hmem hspent, unspendRow, if_pos hspent]
    constructor
    · intro h
      cases h
    · rintro ⟨hb, hnot⟩
      rw [hspent] at hb
      exact absurd (Option.some.inj hb ▸ hmem) hnot
  · push Not at hgone
    rw [unspendRows_of_notMem hgone]
    exact ⟨fun h ↦ ⟨h, fun hmem ↦ hgone b hmem h⟩, fun h ↦ h.1⟩

/-- **A rollback of the indexed blocks above a score is clean** just when what is
on record above the score belongs to indexed blocks. -/
theorem cleanAbove_rolledBack {s : Store} {daa : Nat} {hashes : List BlockHash}
    (hmem : ∀ b, b ∈ hashes ↔ daa < daaOf b ∧ s.Indexed b) :
    CleanAbove daaOf daa (rolledBackStore s hashes) ↔ IndexedAbove daaOf daa s := by
  constructor
  · intro h
    refine ⟨fun e he habove ↦ ?_, fun r hr habove ↦ ?_, fun c hc habove ↦ ?_,
      fun c hc hcreated b hb habove ↦ ?_⟩
    · by_contra hnot
      have hkept : e.acceptingBlock ∉ hashes := fun hgone ↦ hnot ((hmem _).mp hgone).2.1
      exact absurd (h.events e (List.mem_filter.mpr ⟨he, decide_eq_true hkept⟩))
        (Nat.not_le.mpr habove)
    · by_contra hnot
      have hkept : r.acceptingBlock ∉ hashes := fun hgone ↦ hnot ((hmem _).mp hgone).2.2
      exact absurd (h.batches r (List.mem_filter.mpr ⟨hr, decide_eq_true hkept⟩))
        (Nat.not_le.mpr habove)
    · by_contra hnot
      have hkept : (unspendRows hashes c).createdBlock ∉ hashes := by
        rw [unspendRows_createdBlock]
        exact fun hgone ↦ hnot ((hmem _).mp hgone).2
      have hle := h.created _
        (List.mem_filter.mpr ⟨List.mem_map_of_mem hc, decide_eq_true hkept⟩)
      rw [unspendRows_createdBlock] at hle
      exact absurd hle (Nat.not_le.mpr habove)
    · by_contra hnot
      have hkept : (unspendRows hashes c).createdBlock ∉ hashes := by
        rw [unspendRows_createdBlock]
        exact fun hgone ↦ absurd ((hmem _).mp hgone).1 (Nat.not_lt.mpr hcreated)
      have hspent : (unspendRows hashes c).spentBlock = some b :=
        unspendRows_spentBlock.mpr ⟨hb, fun hgone ↦ hnot ((hmem _).mp hgone).2⟩
      exact absurd (h.spent _
        (List.mem_filter.mpr ⟨List.mem_map_of_mem hc, decide_eq_true hkept⟩) b hspent)
        (Nat.not_le.mpr habove)
  · intro h
    refine ⟨fun e he ↦ ?_, fun c hc ↦ ?_, fun c hc b hb ↦ ?_, fun r hr ↦ ?_⟩
    · obtain ⟨he, hkept⟩ := List.mem_filter.mp he
      by_contra habove
      have habove := Nat.not_le.mp habove
      exact of_decide_eq_true hkept ((hmem _).mpr ⟨habove, h.events e he habove, e, he, rfl⟩)
    · obtain ⟨hc, hkept⟩ := List.mem_filter.mp hc
      obtain ⟨old, hold, rfl⟩ := List.mem_map.mp hc
      have hkept := of_decide_eq_true hkept
      rw [unspendRows_createdBlock] at hkept ⊢
      by_contra habove
      have habove := Nat.not_le.mp habove
      exact hkept ((hmem _).mpr ⟨habove, h.created old hold habove⟩)
    · obtain ⟨hc, hkept⟩ := List.mem_filter.mp hc
      obtain ⟨old, hold, rfl⟩ := List.mem_map.mp hc
      have hkept := of_decide_eq_true hkept
      rw [unspendRows_createdBlock] at hkept
      obtain ⟨hspent, hstays⟩ := unspendRows_spentBlock.mp hb
      have hcreated : daaOf old.createdBlock ≤ daa := by
        by_contra habove
        have habove := Nat.not_le.mp habove
        exact hkept ((hmem _).mpr ⟨habove, h.created old hold habove⟩)
      by_contra habove
      have habove := Nat.not_le.mp habove
      exact hstays ((hmem _).mpr ⟨habove, h.spent old hold hcreated b hspent habove⟩)
    · obtain ⟨hr, hkept⟩ := List.mem_filter.mp hr
      by_contra habove
      have habove := Nat.not_le.mp habove
      have hcanonical : s.isCanonical r.acceptingBlock = true :=
        List.any_eq_true.mpr ⟨r, hr, decide_eq_true rfl⟩
      exact of_decide_eq_true hkept
        ((hmem _).mpr ⟨habove, hcanonical, h.batches r hr habove⟩)

/-- A store with nothing indexed above a score, as a rollback of nothing. -/
theorem cleanAbove_rolledBack_nil {s : Store} {daa : Nat} :
    CleanAbove daaOf daa (rolledBackStore s []) ↔ CleanAbove daaOf daa s := by
  constructor
  · rintro ⟨hevents, hcreated, hspent, hbatches⟩
    simp only [rolledBackStore, unspendRows_nil, List.map_id, List.not_mem_nil, not_false_eq_true,
      decide_true, List.filter_true] at hevents hcreated hspent hbatches
    exact ⟨hevents, hcreated, hspent, hbatches⟩
  · intro h
    refine ⟨fun e he ↦ h.events e (List.mem_of_mem_filter he), fun c hc ↦ ?_, fun c hc ↦ ?_,
      fun r hr ↦ h.batches r (List.mem_of_mem_filter hr)⟩
    · obtain ⟨old, hold, rfl⟩ := List.mem_map.mp (List.mem_of_mem_filter hc)
      exact h.created old hold
    · obtain ⟨old, hold, rfl⟩ := List.mem_map.mp (List.mem_of_mem_filter hc)
      exact h.spent old hold

theorem cleanAbove_checkpoint {s : Store} {anchor : BlockHash} {daa score : Nat} :
    CleanAbove daaOf daa (s.checkpointCursor anchor score) ↔ CleanAbove daaOf daa s :=
  ⟨fun h ↦ ⟨h.events, h.created, h.spent, h.batches⟩,
    fun h ↦ ⟨h.events, h.created, h.spent, h.batches⟩⟩

/-! ## The pass after it -/

theorem recordedOf_applied (dec : Decoders) (s : Store) (block : AcceptedBlockBatch)
    (b : BlockHash) :
    recordedOf b (appliedStore dec s block) =
      recordedOf b s ++ if block.acceptingBlock = b then block.events.map NewEvent.recordedAs
        else [] := by
  have hrows : ∀ x, (numberedRow dec block x).acceptingBlock = block.acceptingBlock := fun _ ↦ rfl
  simp only [recordedOf, appliedStore, List.filter_append, List.map_append]
  congr 1
  split
  · rename_i heq
    rw [List.filter_eq_self.mpr, List.map_map]
    · conv_rhs => rw [← numberEvents_map_event dec block s.covenantEvents s.nextStreamSeq
        block.events, List.map_map]
      rfl
    · intro row hrow
      obtain ⟨x, -, rfl⟩ := List.mem_map.mp hrow
      exact decide_eq_true ((hrows x).trans heq)
  · rename_i hne
    rw [List.filter_eq_nil_iff.mpr, List.map_nil]
    intro row hrow
    obtain ⟨x, -, rfl⟩ := List.mem_map.mp hrow
    rw [decide_eq_true_eq, hrows x]
    exact hne

/-- A pass leaves the rows of other blocks. -/
theorem recordedOf_pass {dec : Decoders} {blocks : List AcceptedBlockBatch} {s s' : Store}
    {b : BlockHash} (hb : b ∉ blocks.map (·.acceptingBlock))
    (h : blocks.foldlM (passStep dec) s = .ok s') : recordedOf b s' = recordedOf b s := by
  refine foldlM_invariant (fun s' ↦ recordedOf b s' = recordedOf b s) ?_ rfl h
  intro s₁ block s₂ hblock hs₁ hstep
  obtain ⟨c, hc⟩ := map_fst_eq_ok hstep
  obtain ⟨-, -, ⟨-, rfl⟩ | ⟨-, rfl⟩⟩ := applyAcceptedBlock_ok hc
  · exact hs₁
  · have hne : block.acceptingBlock ≠ b := by
      rintro rfl
      exact hb (List.mem_map_of_mem hblock)
    rw [recordedOf_applied, if_neg hne, List.append_nil, hs₁]

/-- A pass over blocks that are not on record inserts the events of each. -/
theorem pass_recorded {dec : Decoders} {blocks : List AcceptedBlockBatch} {s s' : Store}
    (hnodup : (blocks.map (·.acceptingBlock)).Nodup)
    (hnew : ∀ block ∈ blocks, s.isCanonical block.acceptingBlock = false ∧
      recordedOf block.acceptingBlock s = [])
    (h : blocks.foldlM (passStep dec) s = .ok s') :
    ∀ block ∈ blocks, recordedOf block.acceptingBlock s' =
      block.events.map NewEvent.recordedAs := by
  induction blocks generalizing s with
  | nil => exact fun _ hblock ↦ absurd hblock (by simp)
  | cons hd tl ih =>
      obtain ⟨hhd, htl⟩ := List.nodup_cons.mp hnodup
      obtain ⟨⟨hcanonical, hnone⟩, hrest⟩ := List.forall_mem_cons.mp hnew
      rw [List.foldlM_cons] at h
      obtain ⟨s₁, hstep, h⟩ := bind_eq_ok.mp h
      obtain ⟨c, hc⟩ := map_fst_eq_ok hstep
      obtain ⟨-, -, ⟨hyes, -⟩ | ⟨-, rfl⟩⟩ := applyAcceptedBlock_ok hc
      · rw [hcanonical] at hyes
        cases hyes
      · refine List.forall_mem_cons.mpr ⟨?_, ih htl ?_ h⟩
        · rw [recordedOf_pass hhd h, recordedOf_applied, if_pos rfl, hnone, List.nil_append]
        · intro block hblock
          have hne : hd.acceptingBlock ≠ block.acceptingBlock :=
            fun heq ↦ hhd (List.mem_map.mpr ⟨block, hblock, heq.symm⟩)
          obtain ⟨hcanonical', hnone'⟩ := hrest block hblock
          refine ⟨Bool.eq_false_iff.mpr fun hyes ↦ ?_, ?_⟩
          · rcases (isCanonical_appliedStore _).mp hyes with hyes | ⟨-, heq⟩
            · rw [hcanonical'] at hyes
              cases hyes
            · exact hne heq
          · rw [recordedOf_applied, if_neg hne, hnone', List.append_nil]

theorem CleanAbove.passInsertsOnce {dec : Decoders} {daa : Nat} {s : Store}
    (h : CleanAbove daaOf daa s) : PassInsertsOnce daaOf dec daa s := by
  intro blocks s' hnodup habove hpass
  refine pass_recorded hnodup (fun block hblock ↦ ⟨?_, ?_⟩) hpass
  · rw [Bool.eq_false_iff]
    intro hyes
    obtain ⟨r, hr, heq⟩ := List.any_eq_true.mp hyes
    have hle := h.batches r hr
    rw [of_decide_eq_true heq] at hle
    exact absurd hle (Nat.not_le.mpr (habove block hblock))
  · rw [recordedOf, List.filter_eq_nil_iff.mpr, List.map_nil]
    intro e he heq
    have hle := h.events e he
    rw [of_decide_eq_true heq] at hle
    exact absurd hle (Nat.not_le.mpr (habove block hblock))

/-! ## The law -/

/-- **A re-anchor leaves a clean prefix** just when what is on record above its
anchor belongs to indexed blocks; and without an anchor it changes nothing. -/
theorem reAnchored_iff (dec : Decoders) (epoch : StreamEpoch) {ops : List SyncOp}
    (hops : ∀ op ∈ ops, op.Headed daaOf) (virtualChainFrom : BlockHash → Result ChainStep)
    {s' : Store} {out : ReAnchor}
    (h : reAnchor virtualChainFrom (SyncOp.run dec (.fresh epoch) ops) = .ok (s', out)) :
    ReAnchored daaOf dec (SyncOp.run dec (.fresh epoch) ops) s' out ↔
      ∀ anchor, out = .anchored anchor →
        IndexedAbove daaOf (daaOf anchor) (SyncOp.run dec (.fresh epoch) ops) := by
  have hheaded := headedEvents_run dec epoch hops
  generalize SyncOp.run dec (.fresh epoch) ops = s at h hheaded
  obtain ⟨rfl, rfl | rfl⟩ | ⟨anchor, daa, rolled, rfl, ⟨e, he, rfl, rfl⟩, hrolled, rfl⟩ :=
    reAnchor_ok h
  · exact ⟨fun _ anchor hout ↦ (by cases hout), fun _ ↦ rfl⟩
  · exact ⟨fun _ anchor hout ↦ (by cases hout), fun _ ↦ rfl⟩
  · rw [hheaded e he] at hrolled ⊢
    have hclean : CleanAbove daaOf (daaOf e.acceptingBlock)
        (rolled.checkpointCursor e.acceptingBlock (daaOf e.acceptingBlock)) ↔
        IndexedAbove daaOf (daaOf e.acceptingBlock) s := by
      rw [cleanAbove_checkpoint, ← cleanAbove_rolledBack fun b ↦ mem_rolled hheaded]
      rcases hrolled with ⟨rfl, hnil⟩ | rfl
      · rw [hnil, cleanAbove_rolledBack_nil]
      · exact Iff.rfl
    constructor
    · rintro ⟨hafter, -⟩ anchor hout
      rw [← ReAnchor.anchored.inj hout]
      exact hclean.mp hafter
    · intro hindexed
      have hafter := hclean.mpr (hindexed _ rfl)
      exact ⟨hafter, rfl, rfl, hafter.passInsertsOnce⟩

/-! ## A stranded cursor -/

/-- A node that walks from block 1 only. -/
def strandedNode (block : BlockHash) : Result ChainStep :=
  if block = ⟨1⟩ then .ok { removed := [], added := [⟨⟨2⟩, []⟩] }
  else .error (.rpc "cannot find the block")

/-- Block 1 and block 3 are followed. -/
def followedRun : List SyncOp :=
  [.apply (eventBatch 1 100 9 .genesis 1 0), .apply (eventBatch 3 300 9 .transition 3 0)]

/-- Block 3 is abandoned, and nothing above block 1 is left. -/
theorem followedRun_reAnchored :
    ∃ s', reAnchor strandedNode (SyncOp.run .blind (.fresh ⟨0⟩) followedRun) =
        .ok (s', .anchored ⟨1⟩) ∧
      ReAnchored (fun b ↦ 100 * b.bytes.toNat) .blind
        (SyncOp.run .blind (.fresh ⟨0⟩) followedRun) s' (.anchored ⟨1⟩) := by
  have hheaded : ∀ op ∈ followedRun, op.Headed fun b ↦ 100 * b.bytes.toNat := by
    simp only [followedRun, List.forall_mem_cons]
    exact ⟨.inr rfl, .inr rfl, fun _ h ↦ absurd h (by simp)⟩
  refine ⟨_, rfl, (reAnchored_iff .blind ⟨0⟩ hheaded strandedNode rfl).mpr ?_⟩
  intro anchor hanchor
  obtain rfl := ReAnchor.anchored.inj hanchor
  refine ⟨by decide, by decide, ?_, ?_⟩
  · intro c hc
    cases hc
  · intro c hc
    cases hc

/-- Block 2 is merged behind them, and block 4 is a checkpoint without events. -/
def strandedRun : List SyncOp :=
  followedRun ++ [.recover 100 300 [eventBatch 2 200 9 .transition 2 0],
    .apply { acceptingBlock := ⟨4⟩, acceptingDaa := 400 }]

/-- The re-anchor to block 1 leaves the event of block 2 and the canonical row of
block 4, and the next pass records the event of block 2 again. -/
theorem merged_block_survives :
    (∀ op ∈ strandedRun, op.Headed fun b ↦ 100 * b.bytes.toNat) ∧
      ∃ s', reAnchor strandedNode (SyncOp.run .blind (.fresh ⟨0⟩) strandedRun) =
          .ok (s', .anchored ⟨1⟩) ∧
        (∃ e ∈ s'.covenantEvents, e.acceptingBlock = ⟨2⟩ ∧ e.acceptingDaa = 200) ∧
        (∃ r ∈ s'.canonicalBatches, r.acceptingBlock = ⟨4⟩ ∧ r.acceptingDaa = 400) ∧
        (∃ s'', [eventBatch 2 200 9 .transition 2 0].foldlM (passStep .blind) s' = .ok s'' ∧
          (recordedOf ⟨2⟩ s'').length = 2) ∧
        ¬ReAnchored (fun b ↦ 100 * b.bytes.toNat) .blind
          (SyncOp.run .blind (.fresh ⟨0⟩) strandedRun) s' (.anchored ⟨1⟩) := by
  constructor
  · simp only [strandedRun, followedRun, List.cons_append, List.nil_append, List.forall_mem_cons]
    exact ⟨.inr rfl, .inr rfl, fun b hb ↦ by rw [List.mem_singleton.mp hb]; rfl, .inl rfl,
      fun _ h ↦ absurd h (by simp)⟩
  · refine ⟨_, rfl, by decide, by decide, ⟨_, rfl, by decide⟩, fun h ↦ ?_⟩
    exact absurd h.1.events (by decide)

end Kascov
