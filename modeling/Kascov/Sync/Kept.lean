import Kascov.Sync.Progress

/-!
# What a pass keeps of application data

The batch of a block carries what the decoder made of its transactions, and is
applied when the block has events or is the five hundredth since the last one
applied.  The final checkpoint is built afresh and carries nothing.  So a block's
data is kept just when its own batch was applied, or there was none to keep.
-/

namespace Kascov

open Commits

/-- Rows of the three application tables. -/
@[ext]
structure ApplicationRows where
  envelopes : List EnvelopeRow
  outputs : List ApplicationOutputRow
  failures : List DecodeFailureRow
deriving DecidableEq, Repr

/-- The rows of one block, less the later spends of its outputs and the numbers of
its failures. -/
def Store.applicationRows (s : Store) (b : BlockHash) : ApplicationRows where
  envelopes := s.applicationEnvelopes.filter (·.acceptingBlock = b)
  outputs := (s.applicationOutputs.filter (·.createdBlock = b)).map fun row ↦
    { row with spentBlock := none }
  failures := (s.applicationDecodeFailures.filter (·.acceptingBlock = b)).map fun row ↦
    { row with id := 0 }

/-- The rows that keep what a batch carries. -/
def batchRows (batch : AcceptedBlockBatch) : ApplicationRows where
  envelopes := newEnvelopes batch
  outputs := newApplicationOutputs batch
  failures := (newFailures batch.transactions).map fun f ↦ decodeFailureRow batch f.1 f.2 0

/-- What the decoder makes of the accepted transactions of a block. -/
def decodedRows (node : PassSource) (decoder : ApplicationDecoder) (accepted : AcceptedBlock)
    (accepting : Block) : ApplicationRows :=
  batchRows
    { acceptingBlock := accepted.acceptingBlock
      acceptingDaa := accepting.daaScore
      transactions := (resolvedTxs node.toChainSource accepted accepting).map fun tx ↦
        .prepare tx.2 decoder }

namespace ApplicationRows

def empty : ApplicationRows := ⟨[], [], []⟩

def append (r r' : ApplicationRows) : ApplicationRows where
  envelopes := r.envelopes ++ r'.envelopes
  outputs := r.outputs ++ r'.outputs
  failures := r.failures ++ r'.failures

theorem append_eq_right {r r' : ApplicationRows} : r.append r' = r' ↔ r = empty := by
  rw [ApplicationRows.ext_iff, ApplicationRows.ext_iff]
  exact and_congr List.append_left_eq_self
    (and_congr List.append_left_eq_self List.append_left_eq_self)

theorem append_empty (r : ApplicationRows) : r.append empty = r := by
  ext1
  · exact List.append_nil _
  · exact List.append_nil _
  · exact List.append_nil _

end ApplicationRows

/-! ## One application -/

theorem filter_eq_self_or_nil {α : Type} {key : α → BlockHash} {xs : List α} {b c : BlockHash}
    (h : ∀ x ∈ xs, key x = c) :
    xs.filter (fun x ↦ key x = b) = if c = b then xs else [] := by
  split
  · rename_i heq
    exact List.filter_eq_self.mpr fun x hx ↦ decide_eq_true ((h x hx).trans heq)
  · rename_i hne
    exact List.filter_eq_nil_iff.mpr fun x hx heq ↦
      hne ((h x hx).symm.trans (of_decide_eq_true heq))

theorem newEnvelopes_block {batch : AcceptedBlockBatch} {row : EnvelopeRow}
    (h : row ∈ newEnvelopes batch) : row.acceptingBlock = batch.acceptingBlock := by
  obtain ⟨accepted, -, hrow⟩ := List.mem_filterMap.mp h
  obtain ⟨raw, -, rfl⟩ := Option.map_eq_some_iff.mp hrow
  rfl

theorem newApplicationOutputs_block {batch : AcceptedBlockBatch} {row : ApplicationOutputRow}
    (h : row ∈ newApplicationOutputs batch) :
    row.createdBlock = batch.acceptingBlock ∧ row.spentBlock = none := by
  obtain ⟨accepted, -, hrow⟩ := List.mem_flatMap.mp h
  obtain ⟨output, -, rfl⟩ := List.mem_map.mp hrow
  exact ⟨rfl, rfl⟩

theorem newFailureRows_unnumbered (batch : AcceptedBlockBatch) (last : Nat)
    (failures : List (TxId × DecodeFailure)) :
    (newFailureRows batch last failures).map (fun row ↦ { row with id := 0 }) =
      failures.map fun f ↦ decodeFailureRow batch f.1 f.2 0 := by
  rw [newFailureRows, List.map_map]
  conv_rhs => rw [← List.zipIdx_map_fst (last + 1) failures, List.map_map]
  rfl

theorem newFailureRows_block {batch : AcceptedBlockBatch} {last : Nat}
    {failures : List (TxId × DecodeFailure)} {row : DecodeFailureRow}
    (h : row ∈ newFailureRows batch last failures) :
    row.acceptingBlock = batch.acceptingBlock := by
  obtain ⟨f, -, rfl⟩ := List.mem_map.mp h
  rfl

/-- The spends of a block leave the outputs of a block as they are, less who
spent them. -/
theorem filter_spendOutputs (batch : AcceptedBlockBatch) (rows : List ApplicationOutputRow)
    (b : BlockHash) :
    ((rows.map (spendOutputs batch)).filter (·.createdBlock = b)).map
        (fun row ↦ { row with spentBlock := none }) =
      (rows.filter (·.createdBlock = b)).map fun row ↦ { row with spentBlock := none } := by
  rw [List.filter_map, List.map_map]
  have hkey : ((fun row : ApplicationOutputRow ↦ decide (row.createdBlock = b)) ∘
      spendOutputs batch) = fun row ↦ decide (row.createdBlock = b) := by
    funext row
    rw [Function.comp_apply, spendOutputs_createdBlock]
  rw [hkey]
  refine List.map_congr_left fun row _ ↦ ?_
  rw [Function.comp_apply, spendOutputs]
  split <;> rfl

/-- The rows of a block after an application: those of its batch are added, and
those of other blocks are as they were. -/
theorem applicationRows_appliedStore (dec : Decoders) (s : Store) (batch : AcceptedBlockBatch)
    (b : BlockHash) :
    (appliedStore dec s batch).applicationRows b =
      if batch.acceptingBlock = b then (s.applicationRows b).append (batchRows batch)
      else s.applicationRows b := by
  have henv : (newEnvelopes batch).filter (·.acceptingBlock = b) =
      if batch.acceptingBlock = b then newEnvelopes batch else [] :=
    filter_eq_self_or_nil fun row ↦ newEnvelopes_block
  have hout : (newApplicationOutputs batch).filter (·.createdBlock = b) =
      if batch.acceptingBlock = b then newApplicationOutputs batch else [] :=
    filter_eq_self_or_nil fun row hrow ↦ (newApplicationOutputs_block hrow).1
  have hfail : (newFailureRows batch s.lastDecodeFailureId
        (newFailures batch.transactions)).filter (·.acceptingBlock = b) =
      if batch.acceptingBlock = b then
        newFailureRows batch s.lastDecodeFailureId (newFailures batch.transactions)
      else [] :=
    filter_eq_self_or_nil fun row ↦ newFailureRows_block
  have hunspent : (newApplicationOutputs batch).map (fun row ↦ { row with spentBlock := none }) =
      newApplicationOutputs batch := by
    conv_rhs => rw [← List.map_id (newApplicationOutputs batch)]
    refine List.map_congr_left fun row hrow ↦ ?_
    rw [← (newApplicationOutputs_block hrow).2]
    rfl
  rw [Store.applicationRows, appliedStore]
  dsimp only
  rw [foldl_spendApplicationOutput, filter_spendOutputs, List.filter_append, henv,
    List.filter_append, hout, List.filter_append, hfail, List.map_append, List.map_append]
  split
  · rw [hunspent, newFailureRows_unnumbered]
    rfl
  · rw [List.append_nil, List.map_nil, List.append_nil, List.map_nil, List.append_nil]
    rfl

theorem batchRows_checkpoint (cursor : BlockHash) (daa : Nat) :
    batchRows (checkpointBatch cursor daa) = .empty := rfl

/-- A prepared batch carries what the decoder makes of its block. -/
theorem batchRows_preparedBatch (compute : ComputeCovenantId) (node : PassSource)
    (decoder : ApplicationDecoder) (accepted : AcceptedBlock) (accepting : Block) (s : Store) :
    batchRows (preparedBatch compute node decoder accepted accepting s) =
      decodedRows node decoder accepted accepting := by
  have hheader : ∀ batch batch' : AcceptedBlockBatch,
      batch.acceptingBlock = batch'.acceptingBlock → batch.acceptingDaa = batch'.acceptingDaa →
      batch.transactions = batch'.transactions → batchRows batch = batchRows batch' := by
    intro batch batch' hblock hdaa htransactions
    unfold batchRows newEnvelopes newApplicationOutputs envelopeRow applicationOutputRow
      decodeFailureRow
    rw [hblock, hdaa, htransactions]
  exact hheader _ _ (classify_acceptingBlock ..) (classify_acceptingDaa ..)
    (classify_transactions ..)

/-! ## A pass -/

/-- When no body is missing, the transactions of a block are the accepted ones, in
their order. -/
theorem resolvedTxs_txids {node : ChainSource} {accepted : AcceptedBlock} {accepting : Block}
    (h : unresolvedCount node accepted accepting = 0) :
    (resolvedTxs node accepted accepting).map (·.2.txid) = accepted.acceptedTxIds := by
  have hbody : ∀ entry ∈ accepted.acceptedTxIds.zipIdx,
      ((bodyOf node accepting entry.1).map fun tx ↦ (entry.2, tx)).map (·.2.txid) =
        some entry.1 := by
    intro entry hentry
    have hmem := List.fst_mem_of_mem_zipIdx hentry
    have hsome := List.countP_eq_zero.mp h entry.1 (List.mem_dedup.mpr hmem)
    obtain ⟨tx, htx⟩ := Option.ne_none_iff_exists'.mp (mt Option.isNone_iff_eq_none.mpr hsome)
    have htxid : tx.txid = entry.1 := by
      rw [bodyOf] at htx
      simpa using List.find?_some htx
    rw [htx, Option.map_some, Option.map_some, htxid]
  rw [resolvedTxs, List.map_filterMap]
  calc accepted.acceptedTxIds.zipIdx.filterMap _
      = accepted.acceptedTxIds.zipIdx.filterMap fun entry ↦ some entry.1 :=
        List.filterMap_congr hbody
    _ = accepted.acceptedTxIds.zipIdx.map Prod.fst :=
        congrFun (List.filterMap_eq_map (f := Prod.fst)) _
    _ = accepted.acceptedTxIds := List.zipIdx_map_fst 0 _

section Trace

variable {compute : ComputeCovenantId} {dec : Decoders} {node : PassSource}
variable {fromBlock : Option BlockHash} {decoder : ApplicationDecoder}

/-- One block of the loop writes its own data, when its batch is due and it is
not canonical. -/
theorem applicationRows_passBlock {vars vars' : PassVars} {accepted : AcceptedBlock}
    {s s' : Store} (h : passBlock compute dec node decoder vars accepted s = (.ok vars', s')) :
    ∃ accepting, node.blockWithTxs accepted.acceptingBlock = .ok accepting ∧
      ∀ b, s'.applicationRows b =
        if accepted.acceptingBlock = b ∧ s.isCanonical b = false ∧
            Due vars (preparedBatch compute node decoder accepted accepting s) then
          (s.applicationRows b).append (decodedRows node decoder accepted accepting)
        else s.applicationRows b := by
  obtain ⟨accepting, hblock, -, -, -, hstep⟩ := passBlock_ok h
  refine ⟨accepting, hblock, fun b ↦ ?_⟩
  rcases hstep with ⟨hdue, -, c, happly⟩ | ⟨hdue, -, rfl⟩
  · obtain ⟨-, ⟨hc, rfl⟩ | ⟨hnew, rfl⟩⟩ := applyBatch_ok happly
    · rw [if_neg]
      rintro ⟨rfl, hnew, -⟩
      rw [preparedBatch, classify_acceptingBlock] at hc
      exact absurd hc (Bool.eq_false_iff.mp hnew)
    · rw [applicationRows_appliedStore, batchRows_preparedBatch]
      rw [preparedBatch, classify_acceptingBlock] at hnew ⊢
      refine if_congr ⟨?_, And.left⟩ rfl rfl
      rintro rfl
      exact ⟨rfl, hnew, hdue⟩
  · rw [if_neg fun hcond ↦ hdue hcond.2.2]

/-- The final checkpoint writes none. -/
theorem applicationRows_closePass {vars : PassVars} {stats : SyncStats} {s s' : Store}
    (h : closePass dec vars s = (.ok stats, s')) (b : BlockHash) :
    s'.applicationRows b = s.applicationRows b := by
  rcases closePass_ok h with ⟨rfl, -⟩ | ⟨cursor, c, -, -, happly⟩
  · rfl
  · obtain ⟨-, ⟨-, rfl⟩ | ⟨-, rfl⟩⟩ := applyBatch_ok happly
    · rfl
    · rw [applicationRows_appliedStore, batchRows_checkpoint, ApplicationRows.append_empty,
        ite_self]

namespace PassTrace

variable {s s' : Store} {stats : SyncStats}

/-- The variables and the store in which the loop, past the blocks `front`, takes
the next one. -/
def Meets (trace : PassTrace compute dec node fromBlock decoder s stats s')
    (front : List AcceptedBlock) (vars : PassVars) (σ : Store) : Prop :=
  walkAdded compute dec node decoder { trace.step with added := front } trace.rolled = (.ok vars, σ)

/-- A block's rows are exactly what the decoder makes of its transactions. -/
def KeepsData (_ : PassTrace compute dec node fromBlock decoder s stats s')
    (a : AcceptedBlock) : Prop :=
  ∃ header, node.blockWithTxs a.acceptingBlock = .ok header ∧
    s'.applicationRows a.acceptingBlock = decodedRows node decoder a header

/-- Where the loop takes a block, one of two: the block is new, its batch is due,
and the store has no rows of it; or its batch is not applied, and what rows the
store has of it are what the decoder makes of it. -/
def DataDue (trace : PassTrace compute dec node fromBlock decoder s stats s')
    (front : List AcceptedBlock) (a : AcceptedBlock) : Prop :=
  ∃ vars σ header, trace.Meets front vars σ ∧ node.blockWithTxs a.acceptingBlock = .ok header ∧
    if trace.rolled.isCanonical a.acceptingBlock = false ∧
        Due vars (preparedBatch compute node decoder a header σ) then
      trace.rolled.applicationRows a.acceptingBlock = .empty
    else
      trace.rolled.applicationRows a.acceptingBlock = decodedRows node decoder a header

theorem applicationRows_other (trace : PassTrace compute dec node fromBlock decoder s stats s')
    {b : BlockHash} (hb : ∀ a ∈ trace.step.added, a.acceptingBlock ≠ b) :
    s'.applicationRows b = trace.rolled.applicationRows b := by
  rw [applicationRows_closePass trace.closes]
  refine foldlM_frame (·.applicationRows b) (fun a ha vars σ vars' σ' h ↦ ?_) trace.walks
  obtain ⟨accepting, -, hrows⟩ := applicationRows_passBlock h
  rw [hrows, if_neg fun hcond ↦ hb a ha hcond.1]

/-- Every walked block was served, and the body of each transaction it accepted
with it. -/
theorem bodies_resolved (trace : PassTrace compute dec node fromBlock decoder s stats s')
    {a : AcceptedBlock} (ha : a ∈ trace.step.added) :
    ∃ header, node.blockWithTxs a.acceptingBlock = .ok header ∧
      (resolvedTxs node.toChainSource a header).map (·.2.txid) = a.acceptedTxIds := by
  obtain ⟨front, rest, hadded⟩ := List.append_of_mem ha
  have hwalks := trace.walks
  rw [walkAdded, hadded] at hwalks
  obtain ⟨vars, σ, -, hwalks⟩ := foldlM_append_eq_ok.mp hwalks
  obtain ⟨vars', σ', hstep, -⟩ := foldlM_cons_eq_ok.mp hwalks
  obtain ⟨header, hheader, hresolved, -⟩ := passBlock_ok hstep
  exact ⟨header, hheader, resolvedTxs_txids hresolved⟩

/-- The rows of a block that the walk lists once, after the pass. -/
theorem applicationRows_walked (trace : PassTrace compute dec node fromBlock decoder s stats s')
    {front rest : List AcceptedBlock} {a : AcceptedBlock}
    (hadded : trace.step.added = front ++ a :: rest)
    (honce : ∀ a' ∈ front ++ rest, a'.acceptingBlock ≠ a.acceptingBlock) :
    ∃ vars σ header, trace.Meets front vars σ ∧
      node.blockWithTxs a.acceptingBlock = .ok header ∧
      s'.applicationRows a.acceptingBlock =
        if trace.rolled.isCanonical a.acceptingBlock = false ∧
            Due vars (preparedBatch compute node decoder a header σ) then
          (trace.rolled.applicationRows a.acceptingBlock).append (decodedRows node decoder a header)
        else trace.rolled.applicationRows a.acceptingBlock := by
  have hwalks := trace.walks
  rw [walkAdded, hadded] at hwalks
  obtain ⟨vars, σ, vars', σ', hfront, hstep, hbefore, hafter⟩ :=
    foldlM_view (·.applicationRows a.acceptingBlock) (fun a' ha' v σ v' σ' h ↦ by
      obtain ⟨accepting, -, hrows⟩ := applicationRows_passBlock h
      rw [hrows, if_neg fun hcond ↦ honce a' ha' hcond.1]) hwalks
  obtain ⟨header, hheader, hrows⟩ := applicationRows_passBlock hstep
  have hcanonical := isCanonical_walk
    (fun a' ha' ↦ honce a' (List.mem_append_left _ ha')) hfront
  refine ⟨vars, σ, header, hfront, hheader, ?_⟩
  rw [applicationRows_closePass trace.closes, hafter, hrows, hbefore, hcanonical]
  exact if_congr (and_iff_right rfl) rfl rfl

end PassTrace

/-- **Application data is kept just where it is due.**  A pass that returned had
every accepted transaction.  Over distinct blocks, every walked block's rows are
exactly what the decoder makes of them if and only if its data was due where the
loop took it, and the rows of the other blocks are as the rollback left them. -/
theorem applicationKept_iff {s s' : Store} {stats : SyncStats}
    (h : syncOnce compute dec node fromBlock decoder s = (.ok stats, s')) :
    ∃ trace : PassTrace compute dec node fromBlock decoder s stats s',
      (∀ a ∈ trace.step.added, ∃ header, node.blockWithTxs a.acceptingBlock = .ok header ∧
        (resolvedTxs node.toChainSource a header).map (·.2.txid) = a.acceptedTxIds) ∧
      ((trace.step.added.map (·.acceptingBlock)).Nodup →
        ((∀ a ∈ trace.step.added, trace.KeepsData a) ↔
          ∀ front a rest, trace.step.added = front ++ a :: rest → trace.DataDue front a) ∧
        ∀ b, (∀ a ∈ trace.step.added, a.acceptingBlock ≠ b) →
          s'.applicationRows b = trace.rolled.applicationRows b) := by
  obtain ⟨trace⟩ := syncOnce_ok h
  refine ⟨trace, fun a ↦ trace.bodies_resolved, fun hnodup ↦
    ⟨?_, fun b ↦ trace.applicationRows_other⟩⟩
  have honce : ∀ {front a rest}, trace.step.added = front ++ a :: rest →
      ∀ a' ∈ front ++ rest, a'.acceptingBlock ≠ a.acceptingBlock := by
    intro front a rest hadded a' ha' heq
    rw [hadded, List.map_append, List.map_cons, List.nodup_middle, ← List.map_append] at hnodup
    exact (List.nodup_cons.mp hnodup).1 (heq ▸ List.mem_map_of_mem ha')
  have hiff : ∀ {front a rest}, trace.step.added = front ++ a :: rest →
      (trace.KeepsData a ↔ trace.DataDue front a) := by
    intro front a rest hadded
    obtain ⟨vars, σ, header, hmeets, hheader, hrows⟩ :=
      trace.applicationRows_walked hadded (honce hadded)
    constructor
    · rintro ⟨header', hheader', hkept⟩
      obtain rfl := Except.ok.inj (hheader.symm.trans hheader')
      refine ⟨vars, σ, header, hmeets, hheader, ?_⟩
      rw [hrows] at hkept
      split
      · rename_i hcond
        rw [if_pos hcond] at hkept
        exact ApplicationRows.append_eq_right.mp hkept
      · rename_i hcond
        rwa [if_neg hcond] at hkept
    · rintro ⟨vars', σ', header', hmeets', hheader', hdue⟩
      obtain rfl := Except.ok.inj (hheader.symm.trans hheader')
      obtain ⟨hvars, rfl⟩ := Prod.mk.inj (hmeets.symm.trans hmeets')
      obtain rfl := Except.ok.inj hvars
      refine ⟨header, hheader, ?_⟩
      rw [hrows]
      split
      · rename_i hcond
        rw [if_pos hcond] at hdue
        exact ApplicationRows.append_eq_right.mpr hdue
      · rename_i hcond
        rwa [if_neg hcond] at hdue
  constructor
  · exact fun hkept front a rest hadded ↦ (hiff hadded).mp
      (hkept a (hadded ▸ List.mem_append_right _ List.mem_cons_self))
  · intro hdue a ha
    obtain ⟨front, rest, hadded⟩ := List.append_of_mem ha
    exact (hiff hadded).mpr (hdue front a rest hadded)

end Trace

/-- `ArgentDecoder` under a manifest that approves no application. -/
def unapprovedDecoder : ApplicationDecoder := fun tx ↦
  if tx.payload.take 4 = [0x41, 0x52, 0x47, 0x49] then
    { rawEnvelope := some tx.payload
      failures := [
        { outputIndex := none
          applicationId := none
          artifactId := none
          code := "no_approved_application"
          detail := "no enabled Argent application is approved" }] }
  else {}

/-- Two transactions with an envelope; the first one also binds an output. -/
def envelopeTx (bound : Bool) : Transaction :=
  { claimTx with
    txid := if bound then ⟨7⟩ else ⟨8⟩
    outputs := if bound then claimTx.outputs else []
    payload := [0x41, 0x52, 0x47, 0x49] }

/-- A block with DAA score `100 n`: block 1 holds the first transaction, block 4
the second. -/
def envelopeBlock (b : BlockHash) : Block :=
  { hash := b
    daaScore := 100 * b.bytes.toNat
    blueScore := 0
    timestampMs := 0
    mergeset := []
    transactions :=
      if b = ⟨1⟩ then [envelopeTx true] else if b = ⟨4⟩ then [envelopeTx false] else [] }

def envelopeNode (added : List AcceptedBlock) : PassSource where
  pruningPoint := .ok ⟨0⟩
  virtualChainFrom _ := .ok { removed := [], added }
  blockWithTxs b := .ok (envelopeBlock b)
  dagInfo := .ok ⟨500, ⟨4⟩⟩

/-- A pass over the given blocks, on a fresh index. -/
def envelopePass (added : List AcceptedBlock) : Except Error SyncStats × Store :=
  syncOnce nothingComputed .blind (envelopeNode added) (some ⟨0⟩) unapprovedDecoder (.fresh ⟨0⟩)

/-- A pass over block 1 keeps its envelope and its failure. -/
theorem envelopePass_kept :
    (envelopePass [⟨⟨1⟩, [⟨7⟩]⟩]).2.applicationRows ⟨1⟩ =
        decodedRows (envelopeNode [⟨⟨1⟩, [⟨7⟩]⟩]) unapprovedDecoder ⟨⟨1⟩, [⟨7⟩]⟩
          (envelopeBlock ⟨1⟩) ∧
      ∃ trace : PassTrace nothingComputed .blind (envelopeNode [⟨⟨1⟩, [⟨7⟩]⟩]) (some ⟨0⟩)
          unapprovedDecoder (.fresh ⟨0⟩) { chainBlocks := 1, events := 1 }
          (envelopePass [⟨⟨1⟩, [⟨7⟩]⟩]).2,
        (∀ a ∈ trace.step.added, ∃ header,
          (envelopeNode [⟨⟨1⟩, [⟨7⟩]⟩]).blockWithTxs a.acceptingBlock = .ok header ∧
          (resolvedTxs (envelopeNode [⟨⟨1⟩, [⟨7⟩]⟩]).toChainSource a header).map (·.2.txid) =
            a.acceptedTxIds) ∧
        ((trace.step.added.map (·.acceptingBlock)).Nodup →
          ((∀ a ∈ trace.step.added, trace.KeepsData a) ↔
            ∀ front a rest, trace.step.added = front ++ a :: rest → trace.DataDue front a) ∧
          ∀ b, (∀ a ∈ trace.step.added, a.acceptingBlock ≠ b) →
            (envelopePass [⟨⟨1⟩, [⟨7⟩]⟩]).2.applicationRows b =
              trace.rolled.applicationRows b) := by
  have hok : (envelopePass [⟨⟨1⟩, [⟨7⟩]⟩]).1 = .ok { chainBlocks := 1, events := 1 } := by
    decide +kernel
  have hpass : envelopePass [⟨⟨1⟩, [⟨7⟩]⟩] =
      (.ok { chainBlocks := 1, events := 1 }, (envelopePass [⟨⟨1⟩, [⟨7⟩]⟩]).2) := by
    rw [← hok]
  exact ⟨by decide +kernel, applicationKept_iff hpass⟩

/-- A pass over blocks 1 and 4 returns, and keeps nothing of block 4, which has no
events and is not the five hundredth. -/
theorem envelope_dropped :
    (envelopePass [⟨⟨1⟩, [⟨7⟩]⟩, ⟨⟨4⟩, [⟨8⟩]⟩]).1 = .ok { chainBlocks := 2, events := 1 } ∧
      (decodedRows (envelopeNode [⟨⟨1⟩, [⟨7⟩]⟩, ⟨⟨4⟩, [⟨8⟩]⟩]) unapprovedDecoder ⟨⟨4⟩, [⟨8⟩]⟩
          (envelopeBlock ⟨4⟩)).envelopes.map (·.txid) = [⟨8⟩] ∧
      (envelopePass [⟨⟨1⟩, [⟨7⟩]⟩, ⟨⟨4⟩, [⟨8⟩]⟩]).2.applicationRows ⟨4⟩ = .empty ∧
      (envelopePass [⟨⟨1⟩, [⟨7⟩]⟩, ⟨⟨4⟩, [⟨8⟩]⟩]).2.applicationRows ⟨4⟩ ≠
        decodedRows (envelopeNode [⟨⟨1⟩, [⟨7⟩]⟩, ⟨⟨4⟩, [⟨8⟩]⟩]) unapprovedDecoder ⟨⟨4⟩, [⟨8⟩]⟩
          (envelopeBlock ⟨4⟩) := by
  refine ⟨?_, ?_, ?_, ?_⟩
  all_goals decide +kernel

end Kascov
