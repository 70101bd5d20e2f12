import Kascov.Ledger.Represents

/-!
# Classification refines the ledger

Every sequence of blocks indexed from an empty store, block after block through
`classify` and `apply_accepted_block`, leaves the cells and the events of the
abstract ledger.  The kinds are those of the ledger with one provision: an
output of a covenant that an earlier transaction already created an output of is
never a genesis, even when the id recomputes.  Where consensus has checked every
binding and ids do not collide this never happens.
-/

namespace Kascov

open Fallible

/-! ## Indexing a sequence of blocks -/

/-- A block of the sequence: its acceptance data, its header, and the
transactions it accepted in order. -/
structure LedgerBlock where
  accepted : AcceptedBlock
  accepting : Block
  transactions : List Transaction
deriving DecidableEq

namespace LedgerBlock

/-- The transactions of the block at their places. -/
def placed (b : LedgerBlock) : List Accepted :=
  b.transactions.zipIdx.map fun tx ↦
    { block := b.accepted.acceptingBlock
      daa := b.accepting.daaScore
      index := tx.2
      tx := tx.1 }

theorem placed_at {b : LedgerBlock} {a : Accepted} (h : a ∈ b.placed) :
    a.block = b.accepted.acceptingBlock ∧ a.daa = b.accepting.daaScore := by
  obtain ⟨tx, -, rfl⟩ := List.mem_map.mp h
  exact ⟨rfl, rfl⟩

end LedgerBlock

/-- The history of a sequence of blocks. -/
def historyOf (blocks : List LedgerBlock) : List Accepted :=
  blocks.flatMap (·.placed)

/-- The codecs and the classifier's parameters. -/
structure Codecs where
  compute : ComputeCovenantId
  dec : Decoders
  decoder : ApplicationDecoder

/-- `classify`, then `apply_accepted_block`. -/
def indexBlock (c : Codecs) (s : Store) (b : LedgerBlock) : Result Store :=
  (applyAcceptedBlock c.dec s
    (classify c.compute s b.accepted b.accepting c.decoder
      (b.placed.map (·.indexed)))).map (·.1)

/-- The blocks one after another. -/
def indexBlocks (c : Codecs) (s : Store) (blocks : List LedgerBlock) : Result Store :=
  blocks.foldlM (indexBlock c) s

/-! ## One block -/

theorem Represents.index {c : Codecs} {s s' : Store} {past : List Accepted} {b : LedgerBlock}
    (h : Represents c.compute s past) (hvalid : ValidHistory (past ++ b.placed))
    (hnew : s.isCanonical b.accepted.acceptingBlock = false)
    (hindex : indexBlock c s b = .ok s') : Represents c.compute s' (past ++ b.placed) := by
  have hkeyed := hvalid.cellsKeyed
  rw [indexBlock, classify_eq hkeyed (h.looksUp hvalid)] at hindex
  obtain ⟨committed, happly⟩ := map_fst_eq_ok hindex
  obtain ⟨-, -, ⟨hcanonical, -⟩ | ⟨-, rfl⟩⟩ := applyAcceptedBlock_ok happly
  · exact absurd (hnew.symm.trans hcanonical) Bool.false_ne_true
  · constructor
    · exact h.applyCells hvalid fun a ↦ LedgerBlock.placed_at
    · show (s.covenantEvents ++ _).map (·.fact) = _
      rw [List.map_append, h.events, numberedRows_fact, ledgerEvents, ledgerEvents,
        Past.flatMap_append, List.nil_append]
      exact congrArg (_ ++ ·) (h.blockEvents hvalid fun a ↦ LedgerBlock.placed_at)
    · intro id
      rw [← decide_eq_true_iff (p := SeenBefore _ _), ← h.seenAt_eq hkeyed, seenAt,
        Bool.or_eq_true, decide_eq_true_eq, ← blockEvents_ids c.compute s, List.mem_map]
      simp only [Store.knownCovenant, List.any_eq_true, decide_eq_true_eq]
      exact knownCovenant_recordEvents _ _ _ id

/-- The canonical blocks of a store are among these. -/
def CanonicalIn (s : Store) (hashes : List BlockHash) : Prop :=
  ∀ hash, s.isCanonical hash = true → hash ∈ hashes

theorem CanonicalIn.index {c : Codecs} {s s' : Store} {hashes : List BlockHash} {b : LedgerBlock}
    (h : CanonicalIn s hashes) (hindex : indexBlock c s b = .ok s') :
    CanonicalIn s' (hashes ++ [b.accepted.acceptingBlock]) := by
  obtain ⟨committed, happly⟩ := map_fst_eq_ok hindex
  intro hash hcanonical
  obtain ⟨-, -, ⟨-, rfl⟩ | ⟨-, rfl⟩⟩ := applyAcceptedBlock_ok happly
  · exact List.mem_append_left _ (h hash hcanonical)
  · rw [Store.isCanonical, List.any_eq_true] at hcanonical
    obtain ⟨row, hrow, hblock⟩ := hcanonical
    simp only [appliedStore] at hrow
    have hmem : row ∈ s.canonicalBatches ∨ row.acceptingBlock = b.accepted.acceptingBlock := by
      split at hrow
      · rcases List.mem_append.mp hrow with hrow | hrow
        · exact .inl hrow
        · rw [List.mem_singleton.mp hrow]
          exact .inr (classify_acceptingBlock ..)
      · exact .inl hrow
    rcases hmem with hmem | heq
    · exact List.mem_append_left _ (h hash (List.any_eq_true.mpr ⟨row, hmem, hblock⟩))
    · rw [← of_decide_eq_true hblock, heq]
      exact List.mem_append_right _ List.mem_cons_self

/-- **Indexing a sequence of blocks.** -/
theorem indexBlocks_represents {c : Codecs} {epoch : StreamEpoch} {blocks : List LedgerBlock}
    {s : Store} (hvalid : ValidHistory (historyOf blocks))
    (hhashes : (blocks.map (·.accepted.acceptingBlock)).Nodup)
    (h : indexBlocks c (.fresh epoch) blocks = .ok s) :
    Represents c.compute s (historyOf blocks) ∧
      CanonicalIn s (blocks.map (·.accepted.acceptingBlock)) := by
  induction blocks using List.reverseRecOn generalizing s with
  | nil =>
      rw [indexBlocks, List.foldlM_nil, pure_eq_ok] at h
      subst h
      refine ⟨⟨rfl, rfl, fun id ↦ ?_⟩, fun hash hcanonical ↦ ?_⟩
      · simp [Store.knownCovenant, Store.fresh, SeenBefore, historyOf, cellsOf]
      · simp [Store.isCanonical, Store.fresh] at hcanonical
  | append_singleton blocks b ih =>
      rw [indexBlocks, List.foldlM_append, bind_eq_ok] at h
      obtain ⟨s₁, h₁, h₂⟩ := h
      rw [List.foldlM_cons, bind_eq_ok] at h₂
      obtain ⟨s₂, h₂, h₃⟩ := h₂
      rw [List.foldlM_nil, pure_eq_ok] at h₃
      subst h₃
      have hhistory : historyOf (blocks ++ [b]) = historyOf blocks ++ b.placed := by
        simp [historyOf]
      rw [hhistory] at hvalid ⊢
      rw [List.map_append, List.nodup_append] at hhashes
      obtain ⟨hrep, hcanonical⟩ := ih hvalid.append_left hhashes.1 h₁
      refine ⟨hrep.index hvalid ?_ h₂, ?_⟩
      · rw [Bool.eq_false_iff]
        intro hold
        exact hhashes.2.2 _ (hcanonical _ hold) _ (by simp) rfl
      · rw [List.map_append]
        exact hcanonical.index h₂

/-! ## The ledger's laws -/

/-- The transaction creates outputs of the covenant, spends no cell of it, and
the id recomputes. -/
def ProvesGenesis (compute : ComputeCovenantId) (past : List Accepted) (a : Accepted)
    (id : CovenantId) : Prop :=
  Creates a id ∧ ¬SpendsCell past a id ∧ Recomputes compute a.tx id

/-- It does, and no earlier transaction created an output of the covenant. -/
def FirstGenesis (compute : ComputeCovenantId) (past : List Accepted) (a : Accepted)
    (id : CovenantId) : Prop :=
  ProvesGenesis compute past a id ∧ ¬SeenBefore past id

/-- The transaction spends a cell of the covenant and no output carries it. -/
def Burns (past : List Accepted) (a : Accepted) (id : CovenantId) : Prop :=
  SpendsCell past a id ∧ ¬Creates a id

/-- What the row of a touched covenant says. -/
structure RecordsEvent (isGenesis : List Accepted → Accepted → CovenantId → Prop)
    (past : List Accepted) (a : Accepted) (id : CovenantId) (row : EventRow) : Prop where
  block : row.acceptingBlock = a.block
  daa : row.acceptingDaa = a.daa
  txIndex : row.txIndex = some a.index
  genesis : row.kind = .genesis ↔ isGenesis past a id
  burn : row.kind = .burn ↔ Burns past a id
  transition : row.kind = .transition ↔ ¬isGenesis past a id ∧ ¬Burns past a id

/-- The tables are the ledger of the history: the live cells, one event for each
transaction and covenant it touches, and no other event. -/
structure RefinesLedger (isGenesis : List Accepted → Accepted → CovenantId → Prop) (s : Store)
    (history : List Accepted) : Prop where
  live : (s.covenantUtxos.filter (·.spentBlock = none)).map (·.cell) = liveCells history
  once : ∀ past a rest id, history = past ++ a :: rest → SpendsCell past a id ∨ Creates a id →
    ∃ row, s.covenantEvents.filter (fun e ↦ e.txid = a.tx.txid ∧ e.covenantId = id) = [row] ∧
      RecordsEvent isGenesis past a id row
  only : ∀ row ∈ s.covenantEvents, ∃ past a rest, history = past ++ a :: rest ∧
    row.txid = a.tx.txid ∧ (SpendsCell past a row.covenantId ∨ Creates a row.covenantId)

/-- What consensus checks of bindings where it enforces KIP-20, `before` being
the covenants older than the history: an output of a covenant continues a cell
of it or proves its genesis, and no id is proved twice. -/
structure Kip20 (compute : ComputeCovenantId) (before : List CovenantId)
    (history : List Accepted) : Prop where
  bound : Past.Forall (fun past a ↦ ∀ id ∈ a.cells.map (·.covenantId),
    SpendsCell past a id ∨ id ∈ before ∨ Creates a id ∧ Recomputes compute a.tx id) [] history
  fresh : ∀ a ∈ history, ∀ id ∈ a.cells.map (·.covenantId),
    Creates a id ∧ Recomputes compute a.tx id → id ∉ before
  unique : history.Pairwise fun a b ↦ ∀ id ∈ a.cells.map (·.covenantId),
    Creates a id ∧ Recomputes compute a.tx id → ¬(Creates b id ∧ Recomputes compute b.tx id)

instance (compute : ComputeCovenantId) (before : List CovenantId) (history : List Accepted) :
    Decidable (Kip20 compute before history) :=
  decidable_of_iff (_ ∧ _ ∧ _) ⟨fun ⟨a, b, c⟩ ↦ ⟨a, b, c⟩, fun ⟨a, b, c⟩ ↦ ⟨a, b, c⟩⟩

/-! ## Kinds -/

section Kinds

variable {compute : ComputeCovenantId} {past : List Accepted} {a : Accepted} {id : CovenantId}

theorem ledgerKind_genesis :
    ledgerKind compute past a id = .genesis ↔ FirstGenesis compute past a id := by
  unfold ledgerKind kindWhen
  simp only [FirstGenesis, ProvesGenesis, decide_eq_false_iff_not]
  by_cases hspends : SpendsCell past a id
  · rw [if_pos hspends]
    refine ⟨fun h ↦ ?_, fun h ↦ absurd hspends h.1.2.1⟩
    split at h
    all_goals cases h
  · rw [if_neg hspends]
    by_cases hgenesis : ¬SeenBefore past id ∧ Creates a id ∧ Recomputes compute a.tx id
    · rw [if_pos hgenesis]
      exact ⟨fun _ ↦ ⟨⟨hgenesis.2.1, hspends, hgenesis.2.2⟩, hgenesis.1⟩, fun _ ↦ rfl⟩
    · rw [if_neg hgenesis]
      exact ⟨(nomatch ·), fun h ↦ absurd ⟨h.2, h.1.1, h.1.2.2⟩ hgenesis⟩

theorem ledgerKind_burn : ledgerKind compute past a id = .burn ↔ Burns past a id := by
  unfold ledgerKind kindWhen Burns
  by_cases hspends : SpendsCell past a id
  · rw [if_pos hspends]
    by_cases hcreates : Creates a id
    · rw [if_pos hcreates]
      exact ⟨(nomatch ·), fun h ↦ absurd hcreates h.2⟩
    · rw [if_neg hcreates]
      exact ⟨fun _ ↦ ⟨hspends, hcreates⟩, fun _ ↦ rfl⟩
  · rw [if_neg hspends]
    refine ⟨fun h ↦ ?_, fun h ↦ absurd h.1 hspends⟩
    split at h
    all_goals cases h

theorem ledgerKind_transition : ledgerKind compute past a id = .transition ↔
    ¬FirstGenesis compute past a id ∧ ¬Burns past a id := by
  rw [← ledgerKind_genesis, ← ledgerKind_burn]
  cases ledgerKind compute past a id <;> simp

/-- Where bindings are checked, an id that recomputes was not seen before. -/
theorem Kip20.firstGenesis_iff {before : List CovenantId} {rest : List Accepted}
    (h : Kip20 compute before (past ++ a :: rest)) (hkeyed : CellsKeyed past) :
    FirstGenesis compute past a id ↔ ProvesGenesis compute past a id := by
  refine ⟨fun hfirst ↦ hfirst.1, fun hgenesis ↦ ⟨hgenesis, fun hseen ↦ ?_⟩⟩
  obtain ⟨hcreates, -, hrecomputes⟩ := hgenesis
  have hfresh := h.fresh a (by simp) id hcreates ⟨hcreates, hrecomputes⟩
  -- the first transaction that created an output of the covenant proved it too
  have hproved : ∀ pre post, past = pre ++ post → SeenBefore pre id →
      ∃ b ∈ past, Creates b id ∧ Recomputes compute b.tx id := by
    intro pre
    induction pre using List.reverseRecOn with
    | nil => exact fun _ _ hnil ↦ by simp [SeenBefore, cellsOf] at hnil
    | append_singleton pre b ih =>
        rintro post rfl hpre
        by_cases hearlier : SeenBefore pre id
        · exact ih ([b] ++ post) (by simp) hearlier
        · rw [SeenBefore, cellsOf_append, List.map_append, List.mem_append] at hpre
          have hb : Creates b id := by
            have hcells : cellsOf [b] = b.cells := List.append_nil _
            show id ∈ b.cells.map (·.covenantId)
            rw [← hcells]
            exact hpre.resolve_left hearlier
          have hbound := h.bound
          rw [show pre ++ [b] ++ post ++ a :: rest = pre ++ b :: (post ++ a :: rest) by simp]
            at hbound
          rcases hbound.at id hb with ⟨cell, hcell, hid, -⟩ | hold | hproves
          · exact absurd (List.mem_map.mpr ⟨cell, hcell, hid⟩) hearlier
          · exact absurd hold hfresh
          · exact ⟨b, by simp, hproves⟩
  obtain ⟨b, hb, hproves⟩ := hproved past [] (by simp) hseen
  exact (List.pairwise_append.mp h.unique).2.2 b hb a List.mem_cons_self id hproves.1 hproves
    ⟨hcreates, hrecomputes⟩

end Kinds

/-! ## The refinement -/

section Refinement

variable {compute : ComputeCovenantId} {s : Store} {history : List Accepted}

theorem Represents.live (h : Represents compute s history) :
    (s.covenantUtxos.filter (·.spentBlock = none)).map (·.cell) = liveCells history := by
  have hrows : (s.covenantUtxos.filter (·.spentBlock = none)).map (·.cell) =
      ((s.covenantUtxos.map (·.settled)).filter (·.2.1 = none)).map (·.1) := by
    rw [List.filter_map, List.map_map]
    rfl
  have hcells : (fun cell ↦ decide ((settle history cell).2.1 = none)) =
      fun cell : Cell ↦ decide (cell.outpoint ∉ inputsOf history) := by
    funext cell
    rw [decide_eq_decide, ← spenderOf_eq_none, settle, Option.map_eq_none_iff]
  rw [hrows, h.cells, List.filter_map, List.map_map, liveCells, ← hcells]
  exact List.map_id _

/-- The events of one transaction and covenant in the ledger. -/
theorem ledgerEvents_filter (compute : ComputeCovenantId) {past rest : List Accepted}
    {a : Accepted} {id : CovenantId}
    (hvalid : ValidHistory (past ++ a :: rest)) (htouched : id ∈ touchedIds past a) :
    (ledgerEvents compute (past ++ a :: rest)).filter
        (fun e ↦ e.txid = a.tx.txid ∧ e.covenantId = id) =
      [{ covenantId := id
         kind := ledgerKind compute past a id
         txid := a.tx.txid
         acceptingBlock := a.block
         acceptingDaa := a.daa
         txIndex := some a.index }] := by
  have htxids := hvalid.txids
  rw [List.map_append, List.map_cons, List.nodup_append, List.nodup_cons] at htxids
  obtain ⟨-, ⟨hrest, -⟩, hpast⟩ := htxids
  have hother : ∀ {before xs : List Accepted}, (∀ b ∈ xs, b.tx.txid ≠ a.tx.txid) →
      (Past.flatMap (txEvents compute) before xs).filter
        (fun e ↦ e.txid = a.tx.txid ∧ e.covenantId = id) = [] := by
    intro before xs hne
    rw [List.filter_eq_nil_iff]
    intro e he
    obtain ⟨pre, b, post, rfl, hevent⟩ := Past.mem_flatMap.mp he
    obtain ⟨x, -, rfl⟩ := List.mem_map.mp hevent
    simpa using fun heq ↦ absurd heq (hne b (by simp))
  rw [ledgerEvents, Past.flatMap_append, Past.flatMap_cons, List.filter_append,
    List.filter_append, hother, hother, List.nil_append, List.append_nil, txEvents,
    List.filter_map]
  · have hids : (touchedIds past a).filter (· = id) = [id] := by
      rw [List.filter_eq, List.count_eq_one_of_mem (touchedIds_nodup past a) htouched]
      rfl
    rw [List.nil_append]
    refine (congrArg (List.map _) ?_).trans (congrArg _ hids)
    refine List.filter_congr fun x _ ↦ ?_
    simp
  · exact fun b hb heq ↦ hrest (heq ▸ List.mem_map_of_mem hb)
  · exact fun b hb heq ↦ hpast _ (List.mem_map_of_mem hb) _ List.mem_cons_self heq

/-- A store that represents a history refines its ledger. -/
theorem Represents.refines (h : Represents compute s history) (hvalid : ValidHistory history)
    {isGenesis : List Accepted → Accepted → CovenantId → Prop}
    (hgenesis : ∀ past a rest id, history = past ++ a :: rest →
      (FirstGenesis compute past a id ↔ isGenesis past a id)) :
    RefinesLedger isGenesis s history := by
  refine ⟨h.live, ?_, ?_⟩
  · rintro past a rest id rfl htouched
    have hfilter := ledgerEvents_filter compute hvalid
      ((mem_touchedIds hvalid.append_left.cellsKeyed).mpr htouched)
    rw [← h.events, List.filter_map, List.map_eq_singleton_iff] at hfilter
    obtain ⟨row, hrow, hfact⟩ := hfilter
    have hkind : row.kind = ledgerKind compute past a id := congrArg EventFact.kind hfact
    refine ⟨row, hrow, congrArg EventFact.acceptingBlock hfact,
      congrArg EventFact.acceptingDaa hfact, congrArg EventFact.txIndex hfact, ?_, ?_, ?_⟩
    · rw [hkind, ledgerKind_genesis, hgenesis past a rest id rfl]
    · rw [hkind, ledgerKind_burn]
    · rw [hkind, ledgerKind_transition, hgenesis past a rest id rfl]
  · intro row hrow
    have hfact : row.fact ∈ ledgerEvents compute history := by
      rw [← h.events]
      exact List.mem_map_of_mem hrow
    obtain ⟨past, a, rest, rfl, hevent⟩ := Past.mem_flatMap.mp hfact
    rw [List.nil_append] at hevent
    obtain ⟨id, hid, hrowFact⟩ := List.mem_map.mp hevent
    have hcovenant : id = row.covenantId := congrArg EventFact.covenantId hrowFact
    refine ⟨past, a, rest, rfl, (congrArg EventFact.txid hrowFact).symm, ?_⟩
    rw [← hcovenant]
    exact (mem_touchedIds hvalid.append_left.cellsKeyed).mp hid

end Refinement

/-- **Classification refines the ledger.**  The genesis of a covenant is its
first output, when the id recomputes; where KIP-20 is enforced, every output
whose id recomputes without a cell of it being spent. -/
theorem indexBlocks_refinesLedger (c : Codecs) (epoch : StreamEpoch) (blocks : List LedgerBlock)
    (s : Store) (hvalid : ValidHistory (historyOf blocks))
    (hhashes : (blocks.map (·.accepted.acceptingBlock)).Nodup)
    (h : indexBlocks c (.fresh epoch) blocks = .ok s) :
    RefinesLedger (FirstGenesis c.compute) s (historyOf blocks) ∧
      ∀ before, Kip20 c.compute before (historyOf blocks) →
        RefinesLedger (ProvesGenesis c.compute) s (historyOf blocks) := by
  have hrep := (indexBlocks_represents hvalid hhashes h).1
  refine ⟨hrep.refines hvalid fun _ _ _ _ _ ↦ Iff.rfl, fun before hkip ↦ ?_⟩
  refine hrep.refines hvalid fun past a rest id heq ↦ ?_
  rw [heq] at hkip hvalid
  exact hkip.firstGenesis_iff hvalid.append_left.cellsKeyed

/-! ## Concrete chains -/

/-- A stand-in for the KIP-20 hash that tells outpoints apart. -/
def sampleCodecs : Codecs where
  compute o fields := ⟨o.txid.bytes + BitVec.ofNat 256 (o.index + fields.length)⟩
  dec := .blind
  decoder := noApplicationDecoder

def sampleInput (txid index : Nat) : Input :=
  { previousOutpoint := ⟨⟨BitVec.ofNat 256 txid⟩, index⟩
    signatureScript := []
    computeBudget := 0 }

/-- An output bound to an id by an authorising input. -/
def sampleOutput (id auth : Nat) : Output :=
  { value := 1
    spkVersion := 0
    spkScript := []
    covenant := some ⟨⟨BitVec.ofNat 256 id⟩, auth⟩ }

def sampleTx (txid : Nat) (inputs : List Input) (outputs : List Output) : Transaction :=
  { txid := ⟨BitVec.ofNat 256 txid⟩, version := 1, inputs, outputs, payload := [] }

def ledgerBlock (hash daa : Nat) (transactions : List Transaction) : LedgerBlock :=
  { accepted := ⟨⟨BitVec.ofNat 256 hash⟩, transactions.map (·.txid)⟩
    accepting :=
      { hash := ⟨BitVec.ofNat 256 hash⟩
        daaScore := daa
        blueScore := 0
        timestampMs := 0
        mergeset := []
        transactions }
    transactions }

/-- Covenant 2 is born and moved in one block; the next block burns both its
cells in a transaction that founds covenant 6. -/
def sampleChain : List LedgerBlock :=
  [ledgerBlock 1 10
    [sampleTx 10 [sampleInput 1 0] [sampleOutput 2 0],
      sampleTx 11 [sampleInput 10 0] [sampleOutput 2 0, sampleOutput 2 0]],
   ledgerBlock 2 11
    [sampleTx 12 [sampleInput 11 0, sampleInput 11 1, sampleInput 5 0] [sampleOutput 6 2]]]

/-- The first block binds an output to covenant 6 falsely, the second founds
it. -/
def falseBindingChain : List LedgerBlock :=
  [ledgerBlock 1 10 [sampleTx 10 [sampleInput 1 0] [sampleOutput 6 0]],
   ledgerBlock 2 11 [sampleTx 11 [sampleInput 5 0] [sampleOutput 6 0]]]

theorem sampleChain_refinesLedger :
    ∃ s, indexBlocks sampleCodecs (.fresh ⟨0⟩) sampleChain = .ok s ∧
      RefinesLedger (FirstGenesis sampleCodecs.compute) s (historyOf sampleChain) ∧
      RefinesLedger (ProvesGenesis sampleCodecs.compute) s (historyOf sampleChain) := by
  have hok : (indexBlocks sampleCodecs (.fresh ⟨0⟩) sampleChain).isOk = true := by decide
  cases h : indexBlocks sampleCodecs (.fresh ⟨0⟩) sampleChain with
  | error e =>
      rw [h] at hok
      cases hok
  | ok s =>
      obtain ⟨hfirst, hkip⟩ := indexBlocks_refinesLedger sampleCodecs ⟨0⟩ sampleChain s
        (by decide) (by decide) h
      exact ⟨s, rfl, hfirst, hkip [] (by decide)⟩

/-- An output whose id recomputes, of a covenant that an earlier output claimed
falsely, is recorded as a transition. -/
theorem claimed_genesis_is_transition :
    ¬∀ (c : Codecs) (epoch : StreamEpoch) (blocks : List LedgerBlock) (s : Store),
      ValidHistory (historyOf blocks) → (blocks.map (·.accepted.acceptingBlock)).Nodup →
      indexBlocks c (.fresh epoch) blocks = .ok s →
      RefinesLedger (ProvesGenesis c.compute) s (historyOf blocks) := by
  intro hall
  have hkinds : (indexBlocks sampleCodecs (.fresh ⟨0⟩) falseBindingChain).map
      (·.covenantEvents.map (·.kind)) = .ok [.transition, .transition] := by decide
  obtain ⟨s, hs, hkinds⟩ := map_eq_ok.mp hkinds
  obtain ⟨past, a, hsplit⟩ : ∃ past a, historyOf falseBindingChain = past ++ [a] :=
    ⟨_, _, rfl⟩
  have hlast : a = (historyOf falseBindingChain).getLast (by decide) := by
    simp [hsplit]
  have hpast : past = (historyOf falseBindingChain).dropLast := by
    simp [hsplit]
  have hgenesis : Creates a ⟨6⟩ ∧ Recomputes sampleCodecs.compute a.tx ⟨6⟩ := by
    rw [hlast]
    decide
  have hspends : ¬SpendsCell past a ⟨6⟩ := by
    rw [hlast, hpast]
    decide
  obtain ⟨row, hrow, hevent⟩ := (hall sampleCodecs ⟨0⟩ falseBindingChain s (by decide)
    (by decide) hs).once past a [] ⟨6⟩ hsplit (.inr hgenesis.1)
  have hmem : row ∈ [row] := List.mem_cons_self
  rw [← hrow, List.mem_filter] at hmem
  have hkind : row.kind ∈ [EventKind.transition, .transition] :=
    hkinds ▸ List.mem_map_of_mem hmem.1
  rw [hevent.genesis.mpr ⟨hgenesis.1, hspends, hgenesis.2⟩] at hkind
  exact absurd hkind (by decide)

end Kascov
