import Kascov.Lib.Runs
import Kascov.Order.Dense
import Kascov.Store.RollbackEffect

/-!
# Stores that follow a chain

A store together with the selected chain it has followed: blocks are applied as
the chain grows, a reorganisation rolls back a suffix of it, blocks may pass
unindexed, and a recovery merges blocks of the chain behind those already
indexed and then finalises.
-/

namespace Kascov

/-- A block of the selected chain, with the DAA score of its header. -/
structure ChainBlock where
  hash : BlockHash
  daa : Nat
deriving DecidableEq, Repr

/-- The chain block a batch was prepared for. -/
def AcceptedBlockBatch.chainBlock (block : AcceptedBlockBatch) : ChainBlock :=
  { hash := block.acceptingBlock, daa := block.acceptingDaa }

/-- The chain block of an event. -/
def EventRow.chainBlock (row : EventRow) : ChainBlock :=
  { hash := row.acceptingBlock, daa := row.acceptingDaa }

/-- The merges of one recovery, as `recover_gap` issues them. -/
def mergeBlocks (dec : Decoders) (s : Store) (blocks : List AcceptedBlockBatch) :
    Store × MergeCounts :=
  blocks.foldl (fun acc block ↦
    let merged := mergeRecoveredBlock dec acc.1 block
    (merged.1, acc.2.add merged.2)) (s, {})

/-- `merge_recovered_block` for each block, then `finalize_gap_recovery`. -/
def recoverBlocks (dec : Decoders) (s : Store) (gapLo gapHi : Nat)
    (blocks : List AcceptedBlockBatch) : Store :=
  let merged := mergeBlocks dec s blocks
  finalizeGapRecovery merged.1 gapLo gapHi merged.2

/-- An index and the chain it has followed. -/
structure Follower where
  store : Store
  chain : List ChainBlock

/-- A fresh index at the start of a chain. -/
def Follower.fresh (epoch : StreamEpoch) : Follower :=
  { store := .fresh epoch, chain := [] }

inductive FollowerOp where
  /-- The chain grows by a block that is not indexed. -/
  | skip (block : ChainBlock)
  | apply (block : AcceptedBlockBatch)
  | rollback (removed : List BlockHash)
  | recover (gapLo gapHi : Nat) (blocks : List AcceptedBlockBatch)

/-- The transaction an operation runs, with its effect on the chain. -/
def FollowerOp.commit (dec : Decoders) (w : Follower) : FollowerOp → Result Follower
  | .skip block => .ok { w with chain := w.chain ++ [block] }
  | .apply block => (applyAcceptedBlock dec w.store block).map fun applied ↦
      { store := applied.1, chain := w.chain ++ [block.chainBlock] }
  | .rollback removed => (rollbackRemovedBlocks w.store removed).map fun rolled ↦
      { store := rolled.1, chain := w.chain.filter (·.hash ∉ removed) }
  | .recover gapLo gapHi blocks =>
      .ok { w with store := recoverBlocks dec w.store gapLo gapHi blocks }

/-- The follower after a run of operations, each of which may fail. -/
abbrev FollowerOp.run (dec : Decoders) (w : Follower) (ops : List FollowerOp) : Follower :=
  Runs.run (FollowerOp.commit dec) w ops

/-! ## Chain order -/

/-- A new block on top of the chain: its hash is new and the DAA score does not
decrease along the selected chain. -/
def Extends (chain : List ChainBlock) (block : ChainBlock) : Prop :=
  (∀ b ∈ chain, b.hash ≠ block.hash) ∧ ∀ b ∈ chain, b.daa ≤ block.daa

instance (chain : List ChainBlock) (block : ChainBlock) : Decidable (Extends chain block) :=
  inferInstanceAs (Decidable (_ ∧ _))

/-- The events of a batch come in the order of their transactions, one for a
covenant and transaction, as `classify` emits them. -/
def InTxOrder (events : List NewEvent) : Prop :=
  events.Pairwise fun a b ↦ a.covenantId = b.covenantId → a.txIndex < b.txIndex

instance (events : List NewEvent) : Decidable (InTxOrder events) :=
  inferInstanceAs (Decidable (List.Pairwise _ _))

/-- The removed hashes are a suffix of the chain. -/
def RemovesSuffix (chain : List ChainBlock) (removed : List BlockHash) : Prop :=
  ∃ keep gone, chain = keep ++ gone ∧ ∀ hash, hash ∈ removed ↔ hash ∈ gone.map (·.hash)

/-- The operations a follower performs: blocks are applied in chain order, a
rollback removes a suffix of the chain, and a recovery merges blocks of the
chain. -/
def Follower.Follows (w : Follower) : FollowerOp → Prop
  | .skip block => Extends w.chain block
  | .apply block => Extends w.chain block.chainBlock ∧ InTxOrder block.events
  | .rollback removed => RemovesSuffix w.chain removed
  | .recover _ _ blocks => ∀ block ∈ blocks, block.chainBlock ∈ w.chain

/-- The chain of a follower. -/
structure ChainWF (chain : List ChainBlock) : Prop where
  hashes : (chain.map (·.hash)).Nodup
  scores : chain.Pairwise (·.daa ≤ ·.daa)

namespace ChainWF

variable {chain : List ChainBlock}

theorem nil : ChainWF [] := ⟨List.nodup_nil, List.Pairwise.nil⟩

theorem extend {block : ChainBlock} (h : ChainWF chain) (hnew : Extends chain block) :
    ChainWF (chain ++ [block]) := by
  constructor
  · rw [List.map_append, List.nodup_append]
    refine ⟨h.hashes, by simp, ?_⟩
    intro a ha b hb heq
    obtain ⟨c, hc, rfl⟩ := List.mem_map.mp ha
    exact hnew.1 c hc (heq.trans (List.mem_singleton.mp hb))
  · refine List.pairwise_append.mpr ⟨h.scores, by simp, ?_⟩
    intro a ha b hb
    rw [List.mem_singleton.mp hb]
    exact hnew.2 a ha

theorem append_left {keep gone : List ChainBlock} (h : ChainWF (keep ++ gone)) :
    ChainWF keep := by
  constructor
  · have hnodup := h.hashes
    rw [List.map_append] at hnodup
    exact (List.nodup_append.mp hnodup).1
  · exact (List.pairwise_append.mp h.scores).1

/-- Rolling a suffix back leaves the prefix. -/
theorem filter_suffix {keep gone : List ChainBlock} {removed : List BlockHash}
    (h : ChainWF (keep ++ gone)) (hgone : ∀ hash, hash ∈ removed ↔ hash ∈ gone.map (·.hash)) :
    (keep ++ gone).filter (·.hash ∉ removed) = keep := by
  have hnodup := h.hashes
  rw [List.map_append, List.nodup_append] at hnodup
  rw [List.filter_append, List.filter_eq_self.mpr, List.filter_eq_nil_iff.mpr, List.append_nil]
  · intro b hb
    simpa using (hgone b.hash).mpr (List.mem_map_of_mem hb)
  · intro b hb
    rw [decide_eq_true_eq, hgone]
    exact fun hmem ↦ hnodup.2.2 _ (List.mem_map_of_mem hb) _ hmem rfl

/-- A hash determines its block on the chain. -/
theorem eq_of_hash {a b : ChainBlock} (h : ChainWF chain) (ha : a ∈ chain) (hb : b ∈ chain)
    (heq : a.hash = b.hash) : a = b :=
  List.inj_on_of_nodup_map h.hashes ha hb heq

end ChainWF

/-! ## The merges of a recovery -/

/-- The events of the merged blocks, in the order they are merged. -/
def recoveredEvents (blocks : List AcceptedBlockBatch) : List (AcceptedBlockBatch × NewEvent) :=
  blocks.flatMap fun block ↦ block.events.map (block, ·)

/-- The row a recovered event is inserted as. -/
def insertedRow (dec : Decoders) (rows : List EventRow)
    (e : AcceptedBlockBatch × NewEvent) : EventRow :=
  recoveredRow dec e.1 e.2 (nextEventSeq rows e.2.covenantId)

/-- The event table after one recovered event. -/
def mergeRow (dec : Decoders) (rows : List EventRow) (e : AcceptedBlockBatch × NewEvent) :
    List EventRow :=
  if recorded rows e.2 then rows else rows ++ [insertedRow dec rows e]

/-- The covenant table after one recovered event. -/
def mergeCovenant (rows : List EventRow) (covenants : List CovenantRow)
    (e : AcceptedBlockBatch × NewEvent) : List CovenantRow :=
  if recorded rows e.2 then covenants
  else insertCovenant (bareCovenantRow e.2.covenantId) covenants

/-- Every event not recorded yet is inserted into a table that allows it. -/
def Inserts (dec : Decoders) (ok : List EventRow → AcceptedBlockBatch × NewEvent → Prop) :
    List EventRow → List (AcceptedBlockBatch × NewEvent) → Prop
  | _, [] => True
  | rows, e :: rest =>
      (recorded rows e.2 = false → ok rows e) ∧ Inserts dec ok (mergeRow dec rows e) rest

instance Inserts.decidable (dec : Decoders)
    (ok : List EventRow → AcceptedBlockBatch × NewEvent → Prop) [∀ rows e, Decidable (ok rows e)]
    (rows : List EventRow) :
    (es : List (AcceptedBlockBatch × NewEvent)) → Decidable (Inserts dec ok rows es)
  | [] => .isTrue trivial
  | e :: rest =>
      let _ := Inserts.decidable dec ok (mergeRow dec rows e) rest
      inferInstanceAs (Decidable (_ ∧ _))

theorem Inserts.and_of_mem {dec : Decoders}
    {ok : List EventRow → AcceptedBlockBatch × NewEvent → Prop}
    {Q : AcceptedBlockBatch × NewEvent → Prop} {rows : List EventRow}
    {es : List (AcceptedBlockBatch × NewEvent)} (h : Inserts dec ok rows es)
    (hQ : ∀ e ∈ es, Q e) : Inserts dec (fun rows e ↦ ok rows e ∧ Q e) rows es := by
  induction es generalizing rows with
  | nil => trivial
  | cons e rest ih =>
      exact ⟨fun hrec ↦ ⟨h.1 hrec, hQ e List.mem_cons_self⟩,
        ih h.2 fun x hx ↦ hQ x (List.mem_cons_of_mem _ hx)⟩

theorem mem_recoveredEvents {blocks : List AcceptedBlockBatch}
    {e : AcceptedBlockBatch × NewEvent} (h : e ∈ recoveredEvents blocks) : e.1 ∈ blocks := by
  obtain ⟨block, hblock, he⟩ := List.mem_flatMap.mp h
  obtain ⟨event, _, rfl⟩ := List.mem_map.mp he
  exact hblock

theorem mergeEvent_tables (dec : Decoders) (block : AcceptedBlockBatch)
    (acc : Store × MergeCounts) (event : NewEvent) :
    (mergeEvent dec block acc event).1.covenantEvents =
        mergeRow dec acc.1.covenantEvents (block, event) ∧
      (mergeEvent dec block acc event).1.covenants =
        mergeCovenant acc.1.covenantEvents acc.1.covenants (block, event) := by
  unfold mergeEvent mergeRow mergeCovenant
  by_cases h : recorded acc.1.covenantEvents event = true
  · rw [if_pos h, if_pos h, if_pos h]
    exact ⟨rfl, rfl⟩
  · rw [if_neg h, if_neg h, if_neg h]
    exact ⟨rfl, rfl⟩

section Merge

variable {dec : Decoders} {ok : List EventRow → AcceptedBlockBatch × NewEvent → Prop}
  (P : List EventRow → List CovenantRow → Prop)
  (step : ∀ rows covenants e, P rows covenants → recorded rows e.2 = false → ok rows e →
    P (rows ++ [insertedRow dec rows e])
      (insertCovenant (bareCovenantRow e.2.covenantId) covenants))

include step

theorem foldl_mergeEvent_invariant {block : AcceptedBlockBatch} {events : List NewEvent}
    {rest : List (AcceptedBlockBatch × NewEvent)} (acc : Store × MergeCounts)
    (h : Inserts dec ok acc.1.covenantEvents (events.map (block, ·) ++ rest))
    (hP : P acc.1.covenantEvents acc.1.covenants) :
    Inserts dec ok (events.foldl (mergeEvent dec block) acc).1.covenantEvents rest ∧
      P (events.foldl (mergeEvent dec block) acc).1.covenantEvents
        (events.foldl (mergeEvent dec block) acc).1.covenants := by
  induction events generalizing acc with
  | nil => exact ⟨h, hP⟩
  | cons event events ih =>
      obtain ⟨hok, hrest⟩ := h
      obtain ⟨hevents, hcovenants⟩ := mergeEvent_tables dec block acc event
      refine ih _ (by rw [hevents]; exact hrest) ?_
      rw [hevents, hcovenants, mergeRow, mergeCovenant]
      by_cases hrec : recorded acc.1.covenantEvents event = true
      · rw [if_pos hrec, if_pos hrec]
        exact hP
      · rw [if_neg hrec, if_neg hrec]
        exact step _ _ _ hP (Bool.eq_false_iff.mpr hrec) (hok (Bool.eq_false_iff.mpr hrec))

/-- **Invariants of the merges of a recovery.** -/
theorem mergeBlocks_invariant {s : Store} {blocks : List AcceptedBlockBatch}
    (h : Inserts dec ok s.covenantEvents (recoveredEvents blocks))
    (hP : P s.covenantEvents s.covenants) :
    P (mergeBlocks dec s blocks).1.covenantEvents (mergeBlocks dec s blocks).1.covenants := by
  unfold mergeBlocks
  generalize ({} : MergeCounts) = counts
  induction blocks generalizing s counts with
  | nil => exact hP
  | cons block blocks ih =>
      rw [recoveredEvents, List.flatMap_cons] at h
      let cells := block.spentUtxos.foldl (mergeSpent dec block)
        (block.createdUtxos.foldl (mergeCreated dec block) (s.covenantUtxos, {}))
      obtain ⟨hrest, hP'⟩ := foldl_mergeEvent_invariant P step
        ({ s with covenantUtxos := cells.1 }, cells.2) h hP
      exact ih hrest hP' _

end Merge

end Kascov
