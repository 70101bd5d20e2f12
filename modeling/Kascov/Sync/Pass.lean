import Kascov.Lib.Commits
import Kascov.Sync.ReAnchor
import Kascov.Sync.Recover
import Kascov.Undo.Reachable

/-!
# The sync pass

`sync_once_measured_with_decoder`: a pass notes the tip, starts a fresh index if
there is no cursor, rolls back what the node removed, and walks what it added.
Every write is a transaction of its own, so a pass that fails leaves what it
committed before.  The updates a pass emits are left out.
-/

namespace Kascov

open Commits

/-- `CHECKPOINT_EVERY`. -/
def checkpointEvery : Nat := 500

/-- `dag_info`, what a pass reads of it. -/
structure DagInfo where
  virtualDaaScore : Nat
  sink : BlockHash
deriving DecidableEq, Repr

/-- The calls of `ChainSource` that a pass makes. -/
structure PassSource extends ChainSource where
  dagInfo : Result DagInfo

structure SyncStats where
  chainBlocks : Nat := 0
  events : Nat := 0
  reorgedOut : Nat := 0
deriving DecidableEq, Repr

/-- The variables of the loop over the added blocks. -/
structure PassVars where
  stats : SyncStats
  sinceCheckpoint : Nat := 0
  lastSeen : Option BlockHash := none
  lastDaa : Nat := 0
deriving DecidableEq, Repr

section Pass

variable (compute : ComputeCovenantId) (dec : Decoders) (node : PassSource)
variable (fromBlock : Option BlockHash) (decoder : ApplicationDecoder)

/-- One call of `apply_accepted_block`. -/
def applyBatch (batch : AcceptedBlockBatch) : Prog Store Error CommittedBatch :=
  commit (applyAcceptedBlock dec · batch)

/-- The tip is noted when the node tells it. -/
def noteTip : Prog Store Error Unit :=
  match node.dagInfo with
  | .ok dag => commit fun s ↦ .ok (s.setTip dag.virtualDaaScore, ())
  | .error _ => pure ()

/-- Where a fresh index starts: the caller's block, else the sink. -/
def freshStart : Prog Store Error BlockHash :=
  match fromBlock with
  | some start => pure start
  | none => answer (node.dagInfo.map (·.sink))

/-- The opening of a pass, which returns the block to walk from: the cursor, or
the start of a fresh index. -/
def openPass : Prog Store Error BlockHash := do
  noteTip node
  match ← read Store.cursor with
  | some cursor => return cursor
  | none =>
      let start ← freshStart node fromBlock
      let _ ← applyBatch dec (.empty start)
      return start

/-- The rollback of a pass. -/
def rollbackStep (removed : List BlockHash) : Prog Store Error Unit :=
  if removed = [] then pure ()
  else do
    let _ ← commit (rollbackRemovedBlocks · removed)
    return ()

/-- The batch of a block, as `classify` prepares it on a store. -/
def preparedBatch (accepted : AcceptedBlock) (accepting : Block) (s : Store) : AcceptedBlockBatch :=
  classify compute s accepted accepting decoder
    (resolvedTxs node.toChainSource accepted accepting)

/-- One block of the loop. -/
def passBlock (vars : PassVars) (accepted : AcceptedBlock) : Prog Store Error PassVars := do
  let accepting ← answer (node.blockWithTxs accepted.acceptingBlock)
  let unresolved := unresolvedCount node.toChainSource accepted accepting
  if 0 < unresolved then
    answer (.error (.rpc s!"unresolved accepted tx bodies in chain block {accepted.acceptingBlock.bytes.toHex} ({unresolved} missing) — retrying the pass"))
  else
    let batch ← read (preparedBatch compute node decoder accepted accepting)
    let vars := { vars with
      stats := { vars.stats with chainBlocks := vars.stats.chainBlocks + 1 }
      sinceCheckpoint := vars.sinceCheckpoint + 1
      lastSeen := some accepted.acceptingBlock
      lastDaa := accepting.daaScore }
    if batch.events ≠ [] then
      let _ ← applyBatch dec batch
      return { vars with
        stats := { vars.stats with events := vars.stats.events + batch.events.length }
        sinceCheckpoint := 0 }
    else if checkpointEvery ≤ vars.sinceCheckpoint then
      let _ ← applyBatch dec batch
      return { vars with sinceCheckpoint := 0 }
    else
      return vars

/-- The final checkpoint. -/
def checkpointBatch (cursor : BlockHash) (daa : Nat) : AcceptedBlockBatch :=
  { AcceptedBlockBatch.empty cursor with acceptingDaa := daa }

/-- The end of a pass. -/
def closePass (vars : PassVars) : Prog Store Error SyncStats :=
  match if 0 < vars.sinceCheckpoint then vars.lastSeen else none with
  | some cursor => do
      let _ ← applyBatch dec (checkpointBatch cursor vars.lastDaa)
      return vars.stats
  | none => pure vars.stats

/-- The loop over the added blocks. -/
def walkAdded (step : ChainStep) : Prog Store Error PassVars :=
  step.added.foldlM (passBlock compute dec node decoder)
    { stats := { reorgedOut := step.removed.length } }

/-- `sync_once_measured_with_decoder`. -/
def syncOnce : Prog Store Error SyncStats := do
  let start ← openPass dec node fromBlock
  let step ← answer (node.virtualChainFrom start)
  rollbackStep step.removed
  let vars ← walkAdded compute dec node decoder step
  closePass dec vars

/-! ## The stages of a pass that returned -/

/-- What a pass that returned went through, from the store it met to the one it
left. -/
structure PassTrace (s : Store) (stats : SyncStats) (s' : Store) where
  start : BlockHash
  step : ChainStep
  opened : Store
  rolled : Store
  walked : Store
  vars : PassVars
  opens : openPass dec node fromBlock s = (.ok start, opened)
  answers : node.virtualChainFrom start = .ok step
  rolls : rollbackStep step.removed opened = (.ok (), rolled)
  walks : walkAdded compute dec node decoder step rolled = (.ok vars, walked)
  closes : closePass dec vars walked = (.ok stats, s')

variable {compute dec node fromBlock decoder}

theorem syncOnce_ok {s s' : Store} {stats : SyncStats}
    (h : syncOnce compute dec node fromBlock decoder s = (.ok stats, s')) :
    Nonempty (PassTrace compute dec node fromBlock decoder s stats s') := by
  unfold syncOnce at h
  obtain ⟨start, opened, hopen, h⟩ := bind_eq_ok.mp h
  obtain ⟨step, s₁, hanswer, h⟩ := bind_eq_ok.mp h
  obtain ⟨hstep, rfl⟩ := answer_eq_ok.mp hanswer
  obtain ⟨_, rolled, hroll, h⟩ := bind_eq_ok.mp h
  obtain ⟨vars, walked, hwalk, hclose⟩ := bind_eq_ok.mp h
  exact ⟨⟨start, step, opened, rolled, walked, vars, hopen, hstep, hroll, hwalk, hclose⟩⟩

/-! ## What each stage does -/

theorem applyBatch_ok {batch : AcceptedBlockBatch} {c : CommittedBatch} {s s' : Store}
    (h : applyBatch dec batch s = (.ok c, s')) :
    (batch.acceptingDaa = 0 → batch.events = []) ∧
      (s.isCanonical batch.acceptingBlock = true ∧ s' = s ∨
        s.isCanonical batch.acceptingBlock = false ∧ s' = appliedStore dec s batch) :=
  (applyAcceptedBlock_ok (commit_eq_ok.mp h)).2

/-- Whether the loop applies the batch of a block. -/
def Due (vars : PassVars) (batch : AcceptedBlockBatch) : Prop :=
  batch.events ≠ [] ∨ checkpointEvery ≤ vars.sinceCheckpoint + 1

instance (vars : PassVars) (batch : AcceptedBlockBatch) : Decidable (Due vars batch) :=
  inferInstanceAs (Decidable (_ ∨ _))

/-- **One block, inverted.**  Its bodies are all there, and its batch is applied
when it is due; else the store is as it was. -/
theorem passBlock_ok {vars vars' : PassVars} {accepted : AcceptedBlock} {s s' : Store}
    (h : passBlock compute dec node decoder vars accepted s = (.ok vars', s')) :
    ∃ accepting, node.blockWithTxs accepted.acceptingBlock = .ok accepting ∧
      unresolvedCount node.toChainSource accepted accepting = 0 ∧
      vars'.lastSeen = some accepted.acceptingBlock ∧ vars'.lastDaa = accepting.daaScore ∧
      (Due vars (preparedBatch compute node decoder accepted accepting s) ∧
          vars'.sinceCheckpoint = 0 ∧
          (∃ c, applyBatch dec (preparedBatch compute node decoder accepted accepting s) s =
            (.ok c, s')) ∨
        ¬ Due vars (preparedBatch compute node decoder accepted accepting s) ∧
          vars'.sinceCheckpoint = vars.sinceCheckpoint + 1 ∧ s' = s) := by
  unfold passBlock at h
  obtain ⟨accepting, s₁, hanswer, h⟩ := bind_eq_ok.mp h
  obtain ⟨hblock, rfl⟩ := answer_eq_ok.mp hanswer
  refine ⟨accepting, hblock, ?_⟩
  dsimp only at h
  split at h
  · cases (answer_eq_ok.mp h).1
  · rename_i hresolved
    refine ⟨Nat.eq_zero_of_not_pos hresolved, ?_⟩
    obtain ⟨batch, s₁, hread, h⟩ := bind_eq_ok.mp h
    obtain ⟨rfl, rfl⟩ := read_eq_ok.mp hread
    split at h
    · rename_i hevents
      obtain ⟨c, s₁, happly, h⟩ := bind_eq_ok.mp h
      obtain ⟨rfl, rfl⟩ := pure_eq_ok.mp h
      exact ⟨rfl, rfl, .inl ⟨.inl hevents, rfl, c, happly⟩⟩
    · rename_i hevents
      split at h
      · rename_i hevery
        obtain ⟨c, s₁, happly, h⟩ := bind_eq_ok.mp h
        obtain ⟨rfl, rfl⟩ := pure_eq_ok.mp h
        exact ⟨rfl, rfl, .inl ⟨.inr hevery, rfl, c, happly⟩⟩
      · rename_i hevery
        obtain ⟨rfl, rfl⟩ := pure_eq_ok.mp h
        exact ⟨rfl, rfl, .inr ⟨fun hdue ↦ hdue.elim hevents hevery, rfl, rfl⟩⟩

theorem closePass_ok {vars : PassVars} {stats : SyncStats} {s s' : Store}
    (h : closePass dec vars s = (.ok stats, s')) :
    s' = s ∧ (vars.sinceCheckpoint = 0 ∨ vars.lastSeen = none) ∨
      ∃ cursor c, vars.lastSeen = some cursor ∧ 0 < vars.sinceCheckpoint ∧
        applyBatch dec (checkpointBatch cursor vars.lastDaa) s = (.ok c, s') := by
  unfold closePass at h
  by_cases hsince : 0 < vars.sinceCheckpoint
  · rw [if_pos hsince] at h
    cases hseen : vars.lastSeen with
    | some cursor =>
        rw [hseen] at h
        obtain ⟨c, s₁, happly, h⟩ := bind_eq_ok.mp h
        obtain ⟨-, rfl⟩ := pure_eq_ok.mp h
        exact .inr ⟨cursor, c, rfl, hsince, happly⟩
    | none =>
        rw [hseen] at h
        exact .inl ⟨(pure_eq_ok.mp h).2.symm, .inr rfl⟩
  · rw [if_neg hsince] at h
    exact .inl ⟨(pure_eq_ok.mp h).2.symm, .inl (Nat.eq_zero_of_not_pos hsince)⟩

/-! ## Stages that fail -/

/-- A block that fails the pass leaves the store. -/
theorem passBlock_error {vars : PassVars} {accepted : AcceptedBlock} {e : Error} {s s' : Store}
    (h : passBlock compute dec node decoder vars accepted s = (.error e, s')) : s' = s := by
  unfold passBlock at h
  obtain h | ⟨accepting, s₁, hanswer, h⟩ := bind_eq_error.mp h
  · exact (answer_eq_error.mp h).2.symm
  · obtain ⟨-, rfl⟩ := answer_eq_ok.mp hanswer
    dsimp only at h
    split at h
    · exact (answer_eq_error.mp h).2.symm
    · obtain h | ⟨batch, s₁, hread, h⟩ := bind_eq_error.mp h
      · exact absurd h read_ne_error
      · obtain ⟨-, rfl⟩ := read_eq_ok.mp hread
        have happly : ∀ {f : CommittedBatch → Prog Store Error PassVars},
            (∀ c s₁, f c s₁ ≠ (.error e, s')) →
            (applyBatch dec batch >>= f) s = (.error e, s') → s' = s := by
          intro f hf h
          obtain h | ⟨c, s₁, -, h⟩ := bind_eq_error.mp h
          · exact (commit_eq_error.mp h).2.symm
          · exact absurd h (hf c s₁)
        split at h
        · exact happly (fun _ _ ↦ pure_ne_error) h
        · split at h
          · exact happly (fun _ _ ↦ pure_ne_error) h
          · exact absurd h pure_ne_error

theorem closePass_error {vars : PassVars} {e : Error} {s s' : Store}
    (h : closePass dec vars s = (.error e, s')) : s' = s := by
  unfold closePass at h
  cases hlast : if 0 < vars.sinceCheckpoint then vars.lastSeen else none with
  | some cursor =>
      rw [hlast] at h
      obtain h | ⟨c, s₁, -, h⟩ := bind_eq_error.mp h
      · exact (commit_eq_error.mp h).2.symm
      · exact absurd h pure_ne_error
  | none =>
      rw [hlast] at h
      exact absurd h pure_ne_error

theorem rollbackStep_error {removed : List BlockHash} {e : Error} {s s' : Store}
    (h : rollbackStep removed s = (.error e, s')) : s' = s := by
  unfold rollbackStep at h
  split at h
  · exact absurd h pure_ne_error
  · obtain h | ⟨c, s₁, -, h⟩ := bind_eq_error.mp h
    · exact (commit_eq_error.mp h).2.symm
    · exact absurd h pure_ne_error

/-! ## What every stage keeps -/

variable {P : Store → Prop}

theorem keeps_applyBatch {batch : AcceptedBlockBatch}
    (h : ∀ s, P s → s.isCanonical batch.acceptingBlock = false →
      (batch.acceptingDaa = 0 → batch.events = []) → P (appliedStore dec s batch)) :
    Keeps P (applyBatch dec batch) := by
  refine Keeps.commit fun s s' c hs happly ↦ ?_
  obtain ⟨-, hdaa, ⟨-, rfl⟩ | ⟨hnew, rfl⟩⟩ := applyAcceptedBlock_ok happly
  · exact hs
  · exact h s hs hnew hdaa

theorem keeps_passBlock {accepted : AcceptedBlock} (vars : PassVars)
    (h : ∀ s batch, batch.acceptingBlock = accepted.acceptingBlock → P s →
      s.isCanonical batch.acceptingBlock = false →
      (batch.acceptingDaa = 0 → batch.events = []) → P (appliedStore dec s batch)) :
    Keeps P (passBlock compute dec node decoder vars accepted) := by
  refine Keeps.bind (.answer _) fun accepting ↦ ?_
  dsimp only
  split
  · exact .answer _
  · refine Keeps.read_bind fun s hs ↦ ?_
    have happly :
        Keeps P (applyBatch dec (preparedBatch compute node decoder accepted accepting s)) :=
      keeps_applyBatch fun s₁ ↦ h s₁ _ (classify_acceptingBlock ..)
    split
    · exact happly.bind (fun _ ↦ .pure _) s hs
    · split
      · exact happly.bind (fun _ ↦ .pure _) s hs
      · exact Keeps.pure _ s hs

theorem keeps_closePass {vars : PassVars}
    (h : ∀ s batch, some batch.acceptingBlock = vars.lastSeen → P s →
      s.isCanonical batch.acceptingBlock = false →
      (batch.acceptingDaa = 0 → batch.events = []) → P (appliedStore dec s batch)) :
    Keeps P (closePass dec vars) := by
  unfold closePass
  split
  · rename_i cursor hcursor
    have hseen : some cursor = vars.lastSeen := by
      split at hcursor
      · exact hcursor.symm
      · cases hcursor
    refine (keeps_applyBatch fun s ↦ ?_).bind fun _ ↦ .pure _
    exact h s (checkpointBatch cursor vars.lastDaa) hseen
  · exact .pure _

theorem keeps_openPass (htip : ∀ s daa, P s → P (s.setTip daa))
    (h : ∀ s start, P s → P (appliedStore dec s (.empty start))) :
    Keeps P (openPass dec node fromBlock) := by
  have hnote : Keeps P (noteTip node) := by
    unfold noteTip
    split
    · refine Keeps.commit fun s s' u hs hcommit ↦ ?_
      obtain ⟨rfl, -⟩ := Prod.mk.inj (Except.ok.inj hcommit)
      exact htip s _ hs
    · exact .pure _
  refine hnote.bind fun _ ↦ (Keeps.read _).bind fun cursor ↦ ?_
  split
  · exact .pure _
  · have hfresh : Keeps P (freshStart node fromBlock) := by
      unfold freshStart
      split
      · exact .pure _
      · exact .answer _
    refine hfresh.bind fun start ↦ ?_
    exact (keeps_applyBatch fun s hs _ _ ↦ h s start hs).bind fun _ ↦ .pure _

theorem keeps_rollbackStep {removed : List BlockHash}
    (h : ∀ s, P s → P (rolledBackStore s (canonicalRemoved s removed))) :
    Keeps P (rollbackStep removed) := by
  unfold rollbackStep
  split
  · exact .pure _
  · refine (Keeps.commit fun s s' c hs hroll ↦ ?_).bind fun _ ↦ .pure _
    obtain ⟨-, ⟨-, rfl, -⟩ | ⟨-, rfl, -⟩⟩ := rollbackRemovedBlocks_ok hroll
    · exact hs
    · exact h s hs

/-- **Invariants of passes.**  What a tip, an applied batch and a rollback keep,
every pass keeps, whether it returns or fails. -/
theorem keeps_syncOnce (htip : ∀ s daa, P s → P (s.setTip daa))
    (happly : ∀ s batch, P s → (batch.acceptingDaa = 0 → batch.events = []) →
      P (appliedStore dec s batch))
    (hroll : ∀ s removed, P s → P (rolledBackStore s (canonicalRemoved s removed))) :
    Keeps P (syncOnce compute dec node fromBlock decoder) := by
  refine (keeps_openPass htip fun s start hs ↦ happly s _ hs fun _ ↦ rfl).bind fun start ↦ ?_
  refine (Keeps.answer _).bind fun step ↦ ?_
  refine (keeps_rollbackStep fun s ↦ hroll s _).bind fun _ ↦ ?_
  refine Keeps.bind ?_ fun vars ↦ keeps_closePass fun s batch _ hs _ ↦ happly s batch hs
  exact Keeps.foldlM (fun accepted _ vars ↦
    keeps_passBlock vars fun s batch _ hs _ ↦ happly s batch hs) _

end Pass

end Kascov
