import Kascov.Undo.Reachable

/-!
# When a rollback undoes the applies

Applying a list of new blocks and rolling them back restores the covenant ids,
the events, the cells and the application tables exactly under `Reversible`,
and only then.  Three things go wrong without it.

* A block without a DAA score never becomes canonical, so a rollback passes over
  whatever it wrote.
* A row written for a block of the same hash by such a scoreless batch goes with
  the rollback.
* A rollback resets four of the six spend columns: `spent_input_index` and
  `kcc1_template_hash` keep what the undone spend wrote.
-/

namespace Kascov

/-- The blocks are applied one after the other, each new, and each creating only
new outpoints and spending only live ones. -/
inductive AppliedAll (dec : Decoders) : Store → List AcceptedBlockBatch → Store → Prop
  | nil (s : Store) : AppliedAll dec s [] s
  | cons {s s₁ s₂ : Store} {block : AcceptedBlockBatch} {blocks : List AcceptedBlockBatch}
      {c : CommittedBatch} (hnew : s.isCanonical block.acceptingBlock = false)
      (hlive : SpendsLive s.covenantUtxos block)
      (hok : applyAcceptedBlock dec s block = .ok (s₁, c))
      (hrest : AppliedAll dec s₁ blocks s₂) : AppliedAll dec s (block :: blocks) s₂

/-- What the law compares: the covenants that have a row, and every column of
the events, the cells and the application tables. -/
structure Restored (s s' : Store) : Prop where
  covenants : ∀ id, s'.knownCovenant id = s.knownCovenant id
  events : s'.covenantEvents = s.covenantEvents
  utxos : s'.covenantUtxos = s.covenantUtxos
  envelopes : s'.applicationEnvelopes = s.applicationEnvelopes
  outputs : s'.applicationOutputs = s.applicationOutputs
  failures : s'.applicationDecodeFailures = s.applicationDecodeFailures

/-- The hash is that of a block that becomes canonical: one with a DAA score. -/
def Rolled (blocks : List AcceptedBlockBatch) (b : BlockHash) : Prop :=
  ∃ block ∈ blocks, 0 < block.acceptingDaa ∧ block.acceptingBlock = b

/-- The batch writes no row. -/
structure WritesNothing (block : AcceptedBlockBatch) : Prop where
  cells : block.createdUtxos = []
  envelopes : newEnvelopes block = []
  outputs : newApplicationOutputs block = []
  failures : newFailures block.transactions = []

/-- The KCC-1 hash the spend of a row reveals. -/
def revealedKcc1Hash (dec : Decoders) (row : UtxoRow) (spent : SpentUtxo) : Bytes :=
  ((dec.p2shReveal row.spkScript spent.sig).bind dec.kcc1TemplateHash).getD []

/-- When the blocks can be undone on the store: no row of it names one of them,
the scoreless ones among them write nothing to it, and each spend of a cell of
it writes the input index and the KCC-1 hash that the row holds already. -/
structure Reversible (dec : Decoders) (s : Store) (blocks : List AcceptedBlockBatch) :
    Prop where
  cells : ∀ row ∈ s.covenantUtxos, ¬Rolled blocks row.createdBlock ∧
    ∀ b, row.spentBlock = some b → ¬Rolled blocks b
  envelopes : ∀ row ∈ s.applicationEnvelopes, ¬Rolled blocks row.acceptingBlock
  outputs : ∀ row ∈ s.applicationOutputs, ¬Rolled blocks row.createdBlock ∧
    ∀ b, row.spentBlock = some b → ¬Rolled blocks b
  failures : ∀ row ∈ s.applicationDecodeFailures, ¬Rolled blocks row.acceptingBlock
  scoreless : ∀ block ∈ blocks, block.acceptingDaa = 0 → WritesNothing block ∧
    (∀ row ∈ s.covenantUtxos, ¬Touches block row.outpoint) ∧
    ∀ row ∈ s.applicationOutputs, row.spentBlock = none → ¬Touches block row.outpoint
  respent : ∀ block ∈ blocks, ∀ spent ∈ block.spentUtxos, ∀ row ∈ s.covenantUtxos,
    row.outpoint = spent.outpoint → row.spentInputIndex = some spent.inputIndex ∧
      row.kcc1TemplateHash = some (revealedKcc1Hash dec row spent)

/-! ## A run of applies -/

namespace AppliedAll

variable {dec : Decoders} {s s' : Store} {blocks : List AcceptedBlockBatch}

theorem chainInvariant (h : AppliedAll dec s blocks s') (hs : ChainInvariant s) :
    ChainInvariant s' := by
  induction h with
  | nil => exact hs
  | cons _ _ hok _ ih => exact ih (hs.apply hok)

/-- One apply of the run. -/
theorem step_eq {s₁ : Store} {block : AcceptedBlockBatch} {c : CommittedBatch}
    (hnew : s.isCanonical block.acceptingBlock = false)
    (hok : applyAcceptedBlock dec s block = .ok (s₁, c)) :
    s₁ = appliedStore dec s block ∧ (block.acceptingDaa = 0 → block.events = []) := by
  obtain ⟨_, hdaa, ⟨hc, _⟩ | ⟨_, rfl⟩⟩ := applyAcceptedBlock_ok hok
  · rw [hnew] at hc
    cases hc
  · exact ⟨rfl, hdaa⟩

/-- What a block wrote to a cell stays in the table. -/
theorem mem_applied {block : AcceptedBlockBatch} (hlive : SpendsLive s.covenantUtxos block)
    {row : UtxoRow} (hrow : row ∈ s.covenantUtxos) :
    spendAll dec block row ∈ (appliedStore dec s block).covenantUtxos := by
  change _ ∈ applyCells dec block s.covenantUtxos
  rw [hlive.applyCells_eq]
  exact List.mem_append_left _ (List.mem_map_of_mem hrow)

/-- A spent cell is not spent again. -/
theorem not_touched_of_spent (h : AppliedAll dec s blocks s') (hs : ChainInvariant s)
    {row : UtxoRow} (hrow : row ∈ s.covenantUtxos) (hspent : row.spentBlock ≠ none) :
    ∀ block ∈ blocks, ¬Touches block row.outpoint := by
  induction h generalizing row with
  | nil => simp
  | @cons s s₁ s₂ block blocks c hnew hlive hok hrest ih =>
      have hhead : ¬Touches block row.outpoint := by
        rintro ⟨spent, hmem, heq⟩
        rcases hlive.spentLive spent hmem with ⟨row', hrow', ho, hnone⟩ | ⟨utxo, hutxo, ho⟩
        · have : row' = row :=
            List.inj_on_of_nodup_map hs.outpoints hrow' hrow (ho.trans heq.symm)
          exact hspent (this ▸ hnone)
        · exact hlive.createdNew utxo hutxo row hrow (heq.trans ho.symm)
      intro b hb
      rcases List.mem_cons.mp hb with rfl | hb
      · exact hhead
      · have hstay : spendAll dec block row = row :=
          spendAll_of_notMem fun spent hmem heq ↦ hhead ⟨spent, hmem, heq⟩
        have hmem : spendAll dec block row ∈ (appliedStore dec s block).covenantUtxos :=
          mem_applied hlive hrow
        rw [hstay, ← (step_eq hnew hok).1] at hmem
        exact ih (hs.apply hok) hmem hspent b hb

/-- No outpoint is spent by two of the blocks. -/
theorem touches_disjoint (h : AppliedAll dec s blocks s') (hs : ChainInvariant s) :
    blocks.Pairwise fun b b' ↦ ∀ o, Touches b o → ¬Touches b' o := by
  induction h with
  | nil => exact List.Pairwise.nil
  | @cons s s₁ s₂ block blocks c hnew hlive hok hrest ih =>
      refine List.pairwise_cons.mpr ⟨?_, ih (hs.apply hok)⟩
      rintro b hb o ⟨spent, hmem, rfl⟩
      -- after the block the cell is in the table, spent
      have hcell : ∃ row ∈ s₁.covenantUtxos, row.outpoint = spent.outpoint ∧
          row.spentBlock ≠ none := by
        have hafter : ∀ row : UtxoRow, row.outpoint = spent.outpoint →
            (spendAll dec block row).spentBlock ≠ none := by
          intro row heq
          rw [spendAll_spent ⟨spent, hmem, heq⟩]
          exact Option.some_ne_none _
        have hs₁ : s₁.covenantUtxos = applyCells dec block s.covenantUtxos := by
          rw [(step_eq hnew hok).1]
          rfl
        rw [hs₁, hlive.applyCells_eq]
        rcases hlive.spentLive spent hmem with ⟨row, hrow, ho, _⟩ | ⟨utxo, hutxo, ho⟩
        · exact ⟨spendAll dec block row, List.mem_append_left _ (List.mem_map_of_mem hrow),
            by simpa using ho, hafter row ho⟩
        · refine ⟨spendAll dec block (createdRow dec block utxo), List.mem_append_right _
            (List.mem_map_of_mem (List.mem_map_of_mem hutxo)),
            (spendAll_outpoint _ _ _).trans ho, ?_⟩
          exact hafter (createdRow dec block utxo) ho
      obtain ⟨row, hrow, ho, hspent⟩ := hcell
      rw [← ho]
      exact hrest.not_touched_of_spent (hs.apply hok) hrow hspent b hb

/-- A table that each apply updates row by row and appends to. -/
theorem grow {α : Type} (T : Store → List α) (f : AcceptedBlockBatch → α → α)
    (tag : α → BlockHash) (Idle : AcceptedBlockBatch → Prop)
    (hf : ∀ block a, tag (f block a) = tag a)
    (hstep : ∀ s block, SpendsLive s.covenantUtxos block →
      ∃ new, T (appliedStore dec s block) = (T s).map (f block) ++ new ∧
        (∀ a ∈ new, tag a = block.acceptingBlock) ∧ (new = [] ↔ Idle block))
    (h : AppliedAll dec s blocks s') :
    ∃ new, T s' = (T s).map (fun a ↦ blocks.foldl (fun a block ↦ f block a) a) ++ new ∧
      ∀ p : BlockHash → Bool, (∀ a ∈ new, p (tag a) = false) ↔
        ∀ block ∈ blocks, p block.acceptingBlock = true → Idle block := by
  induction h with
  | nil => exact ⟨[], by simp, by simp⟩
  | @cons s s₁ s₂ block blocks c hnew hlive hok hrest ih =>
      obtain ⟨new₁, hT₁, htag₁, hidle₁⟩ := hstep s block hlive
      obtain ⟨new₂, hT₂, hnew₂⟩ := ih
      have hfold : ∀ a, tag (blocks.foldl (fun a block ↦ f block a) a) = tag a := by
        intro a
        generalize blocks = bs
        induction bs generalizing a with
        | nil => rfl
        | cons b bs ihb => rw [List.foldl_cons, ihb, hf]
      refine ⟨new₁.map (fun a ↦ blocks.foldl (fun a block ↦ f block a) a) ++ new₂, ?_, ?_⟩
      · rw [hT₂, (step_eq hnew hok).1, hT₁]
        simp [Function.comp_def]
      · intro p
        rw [List.forall_mem_append, hnew₂ p, List.forall_mem_cons]
        refine and_congr_left fun _ ↦ ?_
        rw [← hidle₁]
        constructor
        · intro hall hp
          by_contra hne
          obtain ⟨a, ha⟩ := List.exists_mem_of_ne_nil _ hne
          have hfalse := hall _ (List.mem_map_of_mem ha)
          rw [hfold, htag₁ a ha, hp] at hfalse
          cases hfalse
        · intro hnil b hb
          obtain ⟨a, ha, rfl⟩ := List.mem_map.mp hb
          rw [hfold, htag₁ a ha]
          by_contra hp
          rw [hnil (by simpa using hp)] at ha
          cases ha

/-- The blocks that are canonical afterwards. -/
theorem isCanonical_iff (h : AppliedAll dec s blocks s') (b : BlockHash) :
    s'.isCanonical b = true ↔ s.isCanonical b = true ∨ Rolled blocks b := by
  induction h with
  | nil => simp [Rolled]
  | cons hnew _ hok _ ih =>
      rw [ih, (step_eq hnew hok).1, isCanonical_appliedStore]
      simp [Rolled, or_assoc]

/-- None of the blocks was canonical before. -/
theorem not_canonical (h : AppliedAll dec s blocks s') :
    ∀ block ∈ blocks, s.isCanonical block.acceptingBlock = false := by
  induction h with
  | nil => simp
  | cons hnew _ hok _ ih =>
      intro b hb
      rcases List.mem_cons.mp hb with rfl | hb
      · exact hnew
      · have hb' := ih b hb
        rw [(step_eq hnew hok).1] at hb'
        by_contra hc
        rw [Bool.not_eq_false] at hc
        rw [(isCanonical_appliedStore _).mpr (.inl hc)] at hb'
        cases hb'

end AppliedAll

/-! ## One row -/

section Row

variable {dec : Decoders} {blocks : List AcceptedBlockBatch} {hashes : List BlockHash}

/-- A cell after the spends of all the blocks. -/
def spendChain (dec : Decoders) (blocks : List AcceptedBlockBatch) (row : UtxoRow) : UtxoRow :=
  blocks.foldl (fun row block ↦ spendAll dec block row) row

theorem spendChain_of_notTouched {row : UtxoRow}
    (h : ∀ block ∈ blocks, ¬Touches block row.outpoint) :
    spendChain dec blocks row = row :=
  Rows.foldl_eq_self (fun block row ↦ spendAll dec block row)
    (fun block row ↦ Touches block row.outpoint)
    (fun _ _ hidle ↦ spendAll_of_notMem fun spent hmem heq ↦ hidle ⟨spent, hmem, heq⟩) h

theorem spendChain_of_spent
    (hpair : blocks.Pairwise fun b b' ↦ ∀ o, Touches b o → ¬Touches b' o)
    {block : AcceptedBlockBatch} (hblock : block ∈ blocks)
    (hnodup : (block.spentUtxos.map (·.outpoint)).Nodup) {spent : SpentUtxo}
    (hspent : spent ∈ block.spentUtxos) {row : UtxoRow} (heq : row.outpoint = spent.outpoint) :
    spendChain dec blocks row = spendRow dec block spent row := by
  have hfold := Rows.foldl_eq_of_touch (fun block row ↦ spendAll dec block row)
    (fun block row ↦ Touches block row.outpoint)
    (fun _ _ hidle ↦ spendAll_of_notMem fun spent hmem heq ↦ hidle ⟨spent, hmem, heq⟩)
    (fun _ _ _ ↦ by rw [spendAll_outpoint]) (hpair.imp fun h (row : UtxoRow) ↦ h row.outpoint)
    hblock (a := row) ⟨spent, hspent, heq⟩
  exact hfold.trans (spendAll_of_mem hnodup hspent heq)

/-- Undoing one spend of a clean live cell leaves the two columns the spend
wrote and the rollback does not reset. -/
theorem unspendRows_spendRow_iff {block : AcceptedBlockBatch} {spent : SpentUtxo}
    {row : UtxoRow} (hlive : row.spentBlock = none) (hclean : row.Clean) :
    unspendRows hashes (spendRow dec block spent row) = row ↔
      block.acceptingBlock ∈ hashes ∧ row.spentInputIndex = some spent.inputIndex ∧
        row.kcc1TemplateHash = some (revealedKcc1Hash dec row spent) := by
  by_cases hmem : block.acceptingBlock ∈ hashes
  · have hundo : unspendRows hashes (spendRow dec block spent row) =
        { row with
          kcc1TemplateHash := some (revealedKcc1Hash dec row spent)
          spentInputIndex := some spent.inputIndex } := by
      rw [unspendRows_of_mem hmem rfl]
      obtain ⟨htxid, hsig, hbudget, hrevealed⟩ := hclean hlive
      simp [unspendRow, spendRow, revealedKcc1Hash, hlive, htxid, hsig, hbudget, hrevealed]
    rw [hundo]
    constructor
    · intro heq
      exact ⟨hmem, (congrArg UtxoRow.spentInputIndex heq).symm,
        (congrArg UtxoRow.kcc1TemplateHash heq).symm⟩
    · rintro ⟨_, hindex, hhash⟩
      rw [← hindex, ← hhash]
  · have hkeep : unspendRows hashes (spendRow dec block spent row) =
        spendRow dec block spent row := by
      refine unspendRows_of_notMem fun hash hhash heq ↦ hmem ?_
      exact (Option.some.inj heq) ▸ hhash
    rw [hkeep]
    constructor
    · intro heq
      have hnone := congrArg UtxoRow.spentBlock heq
      rw [hlive] at hnone
      cases hnone
    · exact fun h ↦ absurd h.1 hmem

/-- When the rollback of the blocks gives a cell back as it was. -/
theorem cell_restored_iff {row : UtxoRow} (hclean : row.Clean)
    (hpair : blocks.Pairwise fun b b' ↦ ∀ o, Touches b o → ¬Touches b' o)
    (honce : ∀ block ∈ blocks, (block.spentUtxos.map (·.outpoint)).Nodup)
    (hspent : row.spentBlock ≠ none → ∀ block ∈ blocks, ¬Touches block row.outpoint) :
    unspendRows hashes (spendChain dec blocks row) = row ↔
      (∀ b, row.spentBlock = some b → b ∉ hashes) ∧
      ∀ block ∈ blocks, ∀ spent ∈ block.spentUtxos, row.outpoint = spent.outpoint →
        block.acceptingBlock ∈ hashes ∧ row.spentInputIndex = some spent.inputIndex ∧
          row.kcc1TemplateHash = some (revealedKcc1Hash dec row spent) := by
  by_cases htouched : ∃ block ∈ blocks, Touches block row.outpoint
  · obtain ⟨block, hblock, spent, hmem, heq⟩ := htouched
    have hlive : row.spentBlock = none := by
      by_contra hne
      exact hspent hne block hblock ⟨spent, hmem, heq⟩
    constructor
    · intro h
      have hnotSpent : ∀ b, row.spentBlock = some b → b ∉ hashes := by
        intro b hb
        rw [hlive] at hb
        cases hb
      refine ⟨hnotSpent, ?_⟩
      intro block' hblock' spent' hmem' heq'
      rw [spendChain_of_spent hpair hblock' (honce block' hblock') hmem' heq'] at h
      exact (unspendRows_spendRow_iff hlive hclean).mp h
    · rintro ⟨-, h⟩
      rw [spendChain_of_spent hpair hblock (honce block hblock) hmem heq]
      exact (unspendRows_spendRow_iff hlive hclean).mpr (h block hblock spent hmem heq)
  · push Not at htouched
    rw [spendChain_of_notTouched htouched]
    constructor
    · intro h
      refine ⟨fun b hb hmem ↦ ?_, fun block hblock spent hmem heq ↦
        absurd ⟨spent, hmem, heq⟩ (htouched block hblock)⟩
      rw [unspendRows_of_mem hmem hb] at h
      have hnone := congrArg UtxoRow.spentBlock h
      rw [hb, unspendRow, if_pos hb] at hnone
      cases hnone
    · rintro ⟨h, -⟩
      exact unspendRows_of_notMem fun b hb heq ↦ h b heq hb

/-- An application output after the spends of all the blocks. -/
def spendOutputsChain (blocks : List AcceptedBlockBatch) (row : ApplicationOutputRow) :
    ApplicationOutputRow :=
  blocks.foldl (fun row block ↦ spendOutputs block row) row

theorem unspendOutput_eq_self_iff {row : ApplicationOutputRow} :
    unspendOutput hashes row = row ↔ ∀ b, row.spentBlock = some b → b ∉ hashes := by
  cases hb : row.spentBlock with
  | none => simp [unspendOutput, hb]
  | some b =>
      by_cases hmem : b ∈ hashes
      · have hne : unspendOutput hashes row ≠ row := by
          intro heq
          have hnone := congrArg ApplicationOutputRow.spentBlock heq
          simp [unspendOutput, hb, hmem] at hnone
        simp [hne, hmem]
      · simp [unspendOutput, hb, hmem]

/-- When the rollback of the blocks gives an application output back as it
was. -/
theorem output_restored_iff {row : ApplicationOutputRow}
    (hpair : blocks.Pairwise fun b b' ↦ ∀ o, Touches b o → ¬Touches b' o) :
    unspendOutput hashes (spendOutputsChain blocks row) = row ↔
      (∀ b, row.spentBlock = some b → b ∉ hashes) ∧
      ∀ block ∈ blocks, row.spentBlock = none → Touches block row.outpoint →
        block.acceptingBlock ∈ hashes := by
  have hidle : ∀ (block : AcceptedBlockBatch) (row : ApplicationOutputRow),
      ¬Touches block row.outpoint → spendOutputs block row = row := by
    intro block row h
    exact if_neg fun hand ↦ h hand.2
  by_cases htouched : ∃ block ∈ blocks, Touches block row.outpoint
  · obtain ⟨block, hblock, ht⟩ := htouched
    have hchain : spendOutputsChain blocks row = spendOutputs block row :=
      Rows.foldl_eq_of_touch (fun block row ↦ spendOutputs block row)
        (fun block row ↦ Touches block row.outpoint) hidle
        (fun _ _ _ ↦ by rw [spendOutputs_outpoint])
        (hpair.imp fun h (row : ApplicationOutputRow) ↦ h row.outpoint) hblock ht
    have hunique : ∀ block' ∈ blocks, Touches block' row.outpoint → block' = block := by
      intro block' hblock' ht'
      by_contra hne
      have hdis := List.Pairwise.forall_of_forall_of_flip
        (R := fun b b' ↦ b ≠ b' → ¬(Touches b row.outpoint ∧ Touches b' row.outpoint))
        (fun _ _ h ↦ absurd rfl h) (hpair.imp fun h _ hand ↦ h _ hand.1 hand.2)
        (hpair.imp fun h _ hand ↦ h _ hand.2 hand.1)
      exact hdis hblock' hblock hne ⟨ht', ht⟩
    rw [hchain]
    by_cases hnone : row.spentBlock = none
    · have hspend : spendOutputs block row =
          { row with spentBlock := some block.acceptingBlock } := if_pos ⟨hnone, ht⟩
      rw [hspend]
      constructor
      · intro h
        have hnotSpent : ∀ b, row.spentBlock = some b → b ∉ hashes := by
          intro b hb
          rw [hnone] at hb
          cases hb
        refine ⟨hnotSpent, ?_⟩
        intro block' hblock' _ ht'
        rw [hunique block' hblock' ht']
        by_contra hmem
        have hsome := congrArg ApplicationOutputRow.spentBlock h
        simp [unspendOutput, hmem, hnone] at hsome
      · rintro ⟨-, h⟩
        have hmem := h block hblock hnone ht
        obtain ⟨txid, output, createdBlock, createdDaa, spentBlock⟩ := row
        simp only at hnone
        simp [unspendOutput, hmem, hnone]
    · have hkeep : spendOutputs block row = row := if_neg fun hand ↦ hnone hand.1
      rw [hkeep, unspendOutput_eq_self_iff]
      exact ⟨fun h ↦ ⟨h, fun _ _ hn ↦ absurd hn hnone⟩, fun h ↦ h.1⟩
  · push Not at htouched
    have hchain : spendOutputsChain blocks row = row :=
      Rows.foldl_eq_self (fun block row ↦ spendOutputs block row)
        (fun block row ↦ Touches block row.outpoint) hidle htouched
    rw [hchain, unspendOutput_eq_self_iff]
    exact ⟨fun h ↦ ⟨h, fun block hblock _ ht ↦ absurd ht (htouched block hblock)⟩, fun h ↦ h.1⟩

end Row

end Kascov
