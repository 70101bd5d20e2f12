import Kascov.History.Faithful
import Kascov.Undo.Law

/-!
# The rollback law

`restored_iff_reversible`: from every store reached by applies and rollbacks,
applying new blocks and rolling their hashes back in any order restores the
store exactly when the blocks are `Reversible` on it.  The failing case is
concrete: one block creates a cell, the next spends it and is rolled back, and
the live cell keeps the input index of a spend that is no longer there.
-/

namespace Kascov

/-! ## The tables after the rollback -/

section Tables

variable {dec : Decoders} {s s₁ s₂ : Store} {blocks : List AcceptedBlockBatch}
  {removed : List BlockHash} {c : CommittedRemovalBatch}

/-- The tables a rollback leaves, whether or not it found a canonical block. -/
theorem rollback_tables (h : rollbackRemovedBlocks s₁ removed = .ok (s₂, c)) :
    s₂.covenantEvents =
        s₁.covenantEvents.filter (·.acceptingBlock ∉ canonicalRemoved s₁ removed) ∧
      s₂.covenantUtxos = (s₁.covenantUtxos.map
        (unspendRows (canonicalRemoved s₁ removed))).filter
          (·.createdBlock ∉ canonicalRemoved s₁ removed) ∧
      s₂.applicationEnvelopes = s₁.applicationEnvelopes.filter
        (·.acceptingBlock ∉ canonicalRemoved s₁ removed) ∧
      s₂.applicationOutputs = (s₁.applicationOutputs.map
        (unspendOutput (canonicalRemoved s₁ removed))).filter
          (·.createdBlock ∉ canonicalRemoved s₁ removed) ∧
      s₂.applicationDecodeFailures = s₁.applicationDecodeFailures.filter
        (·.acceptingBlock ∉ canonicalRemoved s₁ removed) := by
  obtain ⟨_, ⟨hnil, rfl, _⟩ | ⟨_, rfl, _⟩⟩ := rollbackRemovedBlocks_ok h
  · have hout : unspendOutput [] = id := by
      funext row
      exact unspendOutput_eq_self_iff.mpr (by simp)
    simp [hnil, hout]
  · exact ⟨rfl, rfl, rfl, rfl, rfl⟩

theorem AppliedAll.table_restored_iff {α : Type} {hashes : List BlockHash} (T : Store → List α)
    (f : AcceptedBlockBatch → α → α) (u : α → α) (tag : α → BlockHash)
    (Idle : AcceptedBlockBatch → Prop)
    (hf : ∀ block a, tag (f block a) = tag a) (hu : ∀ a, tag (u a) = tag a)
    (hstep : ∀ s block, SpendsLive s.covenantUtxos block →
      ∃ new, T (appliedStore dec s block) = (T s).map (f block) ++ new ∧
        (∀ a ∈ new, tag a = block.acceptingBlock) ∧ (new = [] ↔ Idle block))
    (h : AppliedAll dec s blocks s₁)
    (hT : T s₂ = ((T s₁).map u).filter fun a ↦ tag a ∉ hashes) :
    T s₂ = T s ↔
      (∀ a ∈ T s, tag a ∉ hashes ∧ u (blocks.foldl (fun a block ↦ f block a) a) = a) ∧
      ∀ block ∈ blocks, block.acceptingBlock ∉ hashes → Idle block := by
  obtain ⟨new, hnew, hidle⟩ := h.grow T f tag Idle hf hstep
  have hfold : ∀ (bs : List AcceptedBlockBatch) a,
      tag (bs.foldl (fun a block ↦ f block a) a) = tag a := by
    intro bs
    induction bs with
    | nil => exact fun _ ↦ rfl
    | cons b bs ih => exact fun a ↦ (ih (f b a)).trans (hf b a)
  rw [hT, hnew, List.map_append, List.map_map,
    Rows.filter_map_append_eq_self (fun a ↦ by simp [hu, hfold])]
  refine and_congr (forall₂_congr fun a _ ↦ by simp) ?_
  have hmap : (∀ a ∈ new.map u, decide (tag a ∉ hashes) = false) ↔
      ∀ a ∈ new, decide (tag a ∉ hashes) = false := by
    simp [hu]
  rw [hmap, hidle fun b ↦ decide (b ∉ hashes)]
  simp

theorem step_events (s : Store) (block : AcceptedBlockBatch)
    (_ : SpendsLive s.covenantUtxos block) :
    ∃ new, (appliedStore dec s block).covenantEvents = s.covenantEvents.map id ++ new ∧
      (∀ e ∈ new, e.acceptingBlock = block.acceptingBlock) ∧
      (new = [] ↔ block.events = []) := by
  refine ⟨_, by rw [List.map_id]; rfl, ?_, ?_⟩
  · intro e he
    obtain ⟨x, _, rfl⟩ := List.mem_map.mp he
    rfl
  · rw [List.map_eq_nil_iff, ← List.map_eq_nil_iff (f := (·.1)), numberEvents_map_event]

theorem step_cells (s : Store) (block : AcceptedBlockBatch)
    (h : SpendsLive s.covenantUtxos block) :
    ∃ new, (appliedStore dec s block).covenantUtxos =
        s.covenantUtxos.map (spendAll dec block) ++ new ∧
      (∀ row ∈ new, row.createdBlock = block.acceptingBlock) ∧
      (new = [] ↔ block.createdUtxos = []) := by
  refine ⟨_, h.applyCells_eq, ?_, by simp⟩
  intro row hrow
  obtain ⟨old, hold, rfl⟩ := List.mem_map.mp hrow
  obtain ⟨utxo, _, rfl⟩ := List.mem_map.mp hold
  rw [spendAll_createdBlock]
  rfl

theorem step_envelopes (s : Store) (block : AcceptedBlockBatch)
    (_ : SpendsLive s.covenantUtxos block) :
    ∃ new, (appliedStore dec s block).applicationEnvelopes =
        s.applicationEnvelopes.map id ++ new ∧
      (∀ row ∈ new, row.acceptingBlock = block.acceptingBlock) ∧
      (new = [] ↔ newEnvelopes block = []) := by
  refine ⟨newEnvelopes block, by rw [List.map_id]; rfl, ?_, Iff.rfl⟩
  intro row hrow
  obtain ⟨accepted, _, hrow⟩ := List.mem_filterMap.mp hrow
  obtain ⟨raw, _, rfl⟩ := Option.map_eq_some_iff.mp hrow
  rfl

theorem step_outputs (s : Store) (block : AcceptedBlockBatch)
    (_ : SpendsLive s.covenantUtxos block) :
    ∃ new, (appliedStore dec s block).applicationOutputs =
        s.applicationOutputs.map (spendOutputs block) ++ new ∧
      (∀ row ∈ new, row.createdBlock = block.acceptingBlock) ∧
      (new = [] ↔ newApplicationOutputs block = []) := by
  refine ⟨(newApplicationOutputs block).map (spendOutputs block), ?_, ?_, by simp⟩
  · rw [← List.map_append]
    exact foldl_spendApplicationOutput block _
  · intro row hrow
    obtain ⟨old, hold, rfl⟩ := List.mem_map.mp hrow
    obtain ⟨accepted, _, hout⟩ := List.mem_flatMap.mp hold
    obtain ⟨output, _, rfl⟩ := List.mem_map.mp hout
    rw [spendOutputs_createdBlock]
    rfl

theorem step_failures (s : Store) (block : AcceptedBlockBatch)
    (_ : SpendsLive s.covenantUtxos block) :
    ∃ new, (appliedStore dec s block).applicationDecodeFailures =
        s.applicationDecodeFailures.map id ++ new ∧
      (∀ row ∈ new, row.acceptingBlock = block.acceptingBlock) ∧
      (new = [] ↔ newFailures block.transactions = []) := by
  refine ⟨_, by rw [List.map_id]; rfl, ?_, by simp [newFailureRows]⟩
  intro row hrow
  obtain ⟨x, _, rfl⟩ := List.mem_map.mp hrow
  rfl

theorem AppliedAll.events_of_scoreless (h : AppliedAll dec s blocks s₁) :
    ∀ block ∈ blocks, block.acceptingDaa = 0 → block.events = [] := by
  induction h with
  | nil => simp
  | cons hnew _ hok _ ih =>
      rw [List.forall_mem_cons]
      exact ⟨(AppliedAll.step_eq hnew hok).2, ih⟩

theorem AppliedAll.spentOnce (h : AppliedAll dec s blocks s₁) :
    ∀ block ∈ blocks, (block.spentUtxos.map (·.outpoint)).Nodup := by
  induction h with
  | nil => simp
  | cons _ hlive _ _ ih =>
      rw [List.forall_mem_cons]
      exact ⟨hlive.spentOnce, ih⟩

/-- The hashes a rollback of the blocks acts on: those with a DAA score. -/
theorem AppliedAll.mem_canonicalRemoved (h : AppliedAll dec s blocks s₁)
    (hremoved : removed.Perm (blocks.map (·.acceptingBlock))) (b : BlockHash) :
    b ∈ canonicalRemoved s₁ removed ↔ Rolled blocks b := by
  rw [Kascov.mem_canonicalRemoved, hremoved.mem_iff, h.isCanonical_iff, List.mem_map]
  constructor
  · rintro ⟨⟨block, hblock, rfl⟩, hc | hr⟩
    · rw [h.not_canonical block hblock] at hc
      cases hc
    · exact hr
  · intro hr
    obtain ⟨block, hblock, _, heq⟩ := id hr
    exact ⟨⟨block, hblock, heq⟩, .inr hr⟩

theorem rolled_iff (hblocks : (blocks.map (·.acceptingBlock)).Nodup)
    {block : AcceptedBlockBatch} (hblock : block ∈ blocks) :
    Rolled blocks block.acceptingBlock ↔ 0 < block.acceptingDaa := by
  constructor
  · rintro ⟨other, hother, hdaa, heq⟩
    rwa [List.inj_on_of_nodup_map hblocks hother hblock heq] at hdaa
  · exact fun hdaa ↦ ⟨block, hblock, hdaa, rfl⟩

end Tables

/-! ## The law -/

/-- **Rollback undoes apply, exactly on reversible blocks.** -/
theorem restored_iff_reversible (dec : Decoders) (epoch : StreamEpoch) (ops : List ChainOp)
    {blocks : List AcceptedBlockBatch} {removed : List BlockHash} {s₁ s₂ : Store}
    {c : CommittedRemovalBatch} (hblocks : (blocks.map (·.acceptingBlock)).Nodup)
    (happlied : AppliedAll dec (ChainOp.run dec (.fresh epoch) ops) blocks s₁)
    (hremoved : removed.Perm (blocks.map (·.acceptingBlock)))
    (hrollback : rollbackRemovedBlocks s₁ removed = .ok (s₂, c)) :
    Restored (ChainOp.run dec (.fresh epoch) ops) s₂ ↔
      Reversible dec (ChainOp.run dec (.fresh epoch) ops) blocks := by
  have hs := chainInvariant_run dec epoch ops
  generalize ChainOp.run dec (.fresh epoch) ops = s at hs happlied ⊢
  have hs₂ : ChainInvariant s₂ := (happlied.chainInvariant hs).rollback hrollback
  have hpair := happlied.touches_disjoint hs
  have hmem := happlied.mem_canonicalRemoved hremoved
  obtain ⟨hevents, hcells, henvelopes, houtputs, hfailures⟩ := rollback_tables hrollback
  -- each table on its own
  have ievents := happlied.table_restored_iff (·.covenantEvents) (fun _ e ↦ e) id
    (·.acceptingBlock) (·.events = []) (fun _ _ ↦ rfl) (fun _ ↦ rfl)
    (fun s b h ↦ by simpa using step_events s b h) (by rw [List.map_id]; exact hevents)
  have icells := happlied.table_restored_iff (·.covenantUtxos) (spendAll dec) _
    (·.createdBlock) (·.createdUtxos = []) (spendAll_createdBlock dec)
    (unspendRows_createdBlock _) step_cells hcells
  have ienvelopes := happlied.table_restored_iff (·.applicationEnvelopes) (fun _ r ↦ r) id
    (·.acceptingBlock) (newEnvelopes · = []) (fun _ _ ↦ rfl) (fun _ ↦ rfl)
    (fun s b h ↦ by simpa using step_envelopes s b h) (by rw [List.map_id]; exact henvelopes)
  have ioutputs := happlied.table_restored_iff (·.applicationOutputs) spendOutputs _
    (·.createdBlock) (newApplicationOutputs · = []) spendOutputs_createdBlock
    (unspendOutput_createdBlock _) step_outputs houtputs
  have ifailures := happlied.table_restored_iff (·.applicationDecodeFailures) (fun _ r ↦ r) id
    (·.acceptingBlock) (newFailures ·.transactions = []) (fun _ _ ↦ rfl) (fun _ ↦ rfl)
    (fun s b h ↦ by simpa using step_failures s b h) (by rw [List.map_id]; exact hfailures)
  have hscoreless : ∀ block ∈ blocks, (block.acceptingBlock ∉ canonicalRemoved s₁ removed ↔
      block.acceptingDaa = 0) := by
    intro block hblock
    rw [hmem, rolled_iff hblocks hblock]
    omega
  have irow : ∀ row ∈ s.covenantUtxos,
      (unspendRows (canonicalRemoved s₁ removed) (spendChain dec blocks row) = row ↔ _) :=
    fun row hrow ↦ cell_restored_iff (hs.clean row hrow) hpair happlied.spentOnce
      (happlied.not_touched_of_spent hs hrow)
  -- events and covenant ids always come back
  have hevents' : s₂.covenantEvents = s.covenantEvents := by
    refine ievents.mpr ⟨fun e he ↦ ⟨?_, ?_⟩, fun block hblock hnot ↦ ?_⟩
    · rw [hmem]
      rintro ⟨block, hblock, _, heq⟩
      have hc := hs.canonical e he
      rw [← heq, happlied.not_canonical block hblock] at hc
      cases hc
    · generalize blocks = bs
      induction bs with
      | nil => rfl
      | cons b bs ih => exact ih
    · exact happlied.events_of_scoreless block hblock ((hscoreless block hblock).mp hnot)
  have hcovenants : ∀ id, s₂.knownCovenant id = s.knownCovenant id := by
    intro id
    have hiff : ∀ t : Store, t.knownCovenant id = true ↔
        ∃ row ∈ t.covenants, row.covenantId = id := by
      intro t
      simp [Store.knownCovenant]
    rw [Bool.eq_iff_iff, hiff, hiff, hs₂.counts.known_iff, hs.counts.known_iff, hevents']
  have hid : ∀ {β : Type} (b : β), id (blocks.foldl (fun a _ ↦ a) b) = b := by
    intro β b
    generalize blocks = bs
    induction bs with
    | nil => rfl
    | cons x xs ih => exact ih
  constructor
  · intro h
    obtain ⟨hcellRows, hcellIdle⟩ := icells.mp h.utxos
    obtain ⟨henvRows, henvIdle⟩ := ienvelopes.mp h.envelopes
    obtain ⟨houtRows, houtIdle⟩ := ioutputs.mp h.outputs
    obtain ⟨hfailRows, hfailIdle⟩ := ifailures.mp h.failures
    refine
      { cells := fun row hrow ↦ ⟨(hmem _).not.mp (hcellRows row hrow).1, fun b hb ↦
          (hmem b).not.mp (((irow row hrow).mp (hcellRows row hrow).2).1 b hb)⟩
        envelopes := fun row hrow ↦ (hmem _).not.mp (henvRows row hrow).1
        outputs := fun row hrow ↦ ⟨(hmem _).not.mp (houtRows row hrow).1, fun b hb ↦
          (hmem b).not.mp (((output_restored_iff hpair).mp (houtRows row hrow).2).1 b hb)⟩
        failures := fun row hrow ↦ (hmem _).not.mp (hfailRows row hrow).1
        scoreless := ?_
        respent := fun block hblock spent hspent row hrow heq ↦
          (((irow row hrow).mp (hcellRows row hrow).2).2 block hblock spent hspent heq).2 }
    intro block hblock hdaa
    have hnot := (hscoreless block hblock).mpr hdaa
    refine ⟨⟨hcellIdle block hblock hnot, henvIdle block hblock hnot,
      houtIdle block hblock hnot, hfailIdle block hblock hnot⟩, ?_, ?_⟩
    · rintro row hrow ⟨spent, hspent, heq⟩
      exact hnot
        (((irow row hrow).mp (hcellRows row hrow).2).2 block hblock spent hspent heq).1
    · intro row hrow hnone ht
      exact hnot
        (((output_restored_iff hpair).mp (houtRows row hrow).2).2 block hblock hnone ht)
  · intro h
    have hnotRolled : ∀ block ∈ blocks,
        block.acceptingBlock ∉ canonicalRemoved s₁ removed → WritesNothing block :=
      fun block hblock hnot ↦
        (h.scoreless block hblock ((hscoreless block hblock).mp hnot)).1
    refine ⟨hcovenants, hevents', ?_, ?_, ?_, ?_⟩
    · refine icells.mpr ⟨fun row hrow ↦ ⟨(hmem _).not.mpr (h.cells row hrow).1, ?_⟩,
        fun block hblock hnot ↦ (hnotRolled block hblock hnot).cells⟩
      refine (irow row hrow).mpr ⟨fun b hb ↦ (hmem b).not.mpr ((h.cells row hrow).2 b hb), ?_⟩
      intro block hblock spent hspent heq
      refine ⟨?_, h.respent block hblock spent hspent row hrow heq⟩
      by_contra hnot
      exact (h.scoreless block hblock ((hscoreless block hblock).mp hnot)).2.1 row hrow
        ⟨spent, hspent, heq⟩
    · exact ienvelopes.mpr ⟨fun row hrow ↦ ⟨(hmem _).not.mpr (h.envelopes row hrow), hid row⟩,
        fun block hblock hnot ↦ (hnotRolled block hblock hnot).envelopes⟩
    · refine ioutputs.mpr ⟨fun row hrow ↦ ⟨(hmem _).not.mpr (h.outputs row hrow).1, ?_⟩,
        fun block hblock hnot ↦ (hnotRolled block hblock hnot).outputs⟩
      refine (output_restored_iff hpair).mpr
        ⟨fun b hb ↦ (hmem b).not.mpr ((h.outputs row hrow).2 b hb), ?_⟩
      intro block hblock hnone ht
      by_contra hnot
      exact (h.scoreless block hblock ((hscoreless block hblock).mp hnot)).2.2 row hrow hnone ht
    · exact ifailures.mpr ⟨fun row hrow ↦ ⟨(hmem _).not.mpr (h.failures row hrow), hid row⟩,
        fun block hblock hnot ↦ (hnotRolled block hblock hnot).failures⟩

/-- A block whose one transaction creates a cell. -/
def cellBatch : AcceptedBlockBatch :=
  { genesisBatch 1 7 100 with
    createdUtxos := [{ outpoint := ⟨⟨7⟩, 0⟩
                       covenantId := ⟨7⟩
                       value := 50
                       spkVersion := 0
                       spkScript := [] }] }

/-- A block whose one transaction spends that cell at input 3. -/
def spendBatch : AcceptedBlockBatch :=
  { acceptingBlock := ⟨2⟩
    acceptingDaa := 200
    events := [{ covenantId := ⟨7⟩
                 kind := .burn
                 txid := ⟨8⟩
                 txIndex := 0
                 eventIndex := 0
                 payload := none
                 laneNamespace := none }]
    spentUtxos := [{ outpoint := ⟨⟨7⟩, 0⟩
                     spendingTxid := ⟨8⟩
                     sig := []
                     budget := 0
                     inputIndex := 3 }] }

/-- The rolled back spend leaves its input index on the cell it no longer
spends. -/
theorem rollback_keeps_spent_input_index :
    ∃ s₁ s₂ c,
      AppliedAll .blind (ChainOp.run .blind (.fresh ⟨0⟩) [.apply cellBatch]) [spendBatch] s₁ ∧
      rollbackRemovedBlocks s₁ [spendBatch.acceptingBlock] = .ok (s₂, c) ∧
      ¬Restored (ChainOp.run .blind (.fresh ⟨0⟩) [.apply cellBatch]) s₂ := by
  refine ⟨_, _, _, .cons (by decide) (by decide) rfl (.nil _), rfl, fun h ↦ ?_⟩
  have hutxos := h.utxos
  revert hutxos
  decide

/-- A block the index holds before those, with a cell of its own. -/
def earlierBatch : AcceptedBlockBatch :=
  { genesisBatch 5 9 50 with
    createdUtxos := [{ outpoint := ⟨⟨9⟩, 0⟩
                       covenantId := ⟨9⟩
                       value := 70
                       spkVersion := 0
                       spkScript := [] }] }

theorem spendBatch_reversible :
    Reversible .blind (ChainOp.run .blind (.fresh ⟨0⟩) [.apply earlierBatch])
      [cellBatch, spendBatch] where
  cells := by simp only [Rolled]; decide
  envelopes := by simp only [Rolled]; decide
  outputs := by simp only [Rolled]; decide
  failures := by simp only [Rolled]; decide
  scoreless block hblock hdaa := by
    obtain rfl | rfl : block = cellBatch ∨ block = spendBatch := by simpa using hblock
    all_goals cases hdaa
  respent := by decide

/-- The law at a cell that one block creates and the next one spends: undone behind an earlier
block, the two leave it as it was. -/
theorem spendBatch_restored :
    ∃ s₁ s₂ c,
      AppliedAll .blind (ChainOp.run .blind (.fresh ⟨0⟩) [.apply earlierBatch])
        [cellBatch, spendBatch] s₁ ∧
      rollbackRemovedBlocks s₁ [spendBatch.acceptingBlock, cellBatch.acceptingBlock] =
        .ok (s₂, c) ∧
      s₁.covenantUtxos.length = 2 ∧
      Restored (ChainOp.run .blind (.fresh ⟨0⟩) [.apply earlierBatch]) s₂ := by
  have happlied : AppliedAll .blind (ChainOp.run .blind (.fresh ⟨0⟩) [.apply earlierBatch])
      [cellBatch, spendBatch] _ :=
    .cons (by decide) (by decide) rfl (.cons (by decide) (by decide) rfl (.nil _))
  exact ⟨_, _, _, happlied, rfl, by decide,
    (restored_iff_reversible .blind ⟨0⟩ [.apply earlierBatch] (by decide) happlied
      (.swap _ _ _) rfl).mpr spendBatch_reversible⟩

end Kascov
