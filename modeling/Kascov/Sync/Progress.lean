import Kascov.Sync.Pass

/-!
# Cursor progress

A pass that returns ends with one application of a batch for the last block it
walked: the block's own when that is due, else the final checkpoint.  An
application moves the cursor unless the block is already canonical, so a walk
that ends at a block the store holds as canonical leaves the cursor behind.  A
re-anchor makes such stores: it rolls back blocks that have events and no others.
-/

namespace Kascov

open Commits

/-! ## Runs of passes -/

/-- A call that a follower makes on its index. -/
inductive PassOp where
  | pass (node : PassSource) (fromBlock : Option BlockHash) (decoder : ApplicationDecoder)
  | reAnchor (virtualChainFrom : BlockHash → Result ChainStep)

/-- The store a call leaves, also when it fails. -/
def PassOp.after (compute : ComputeCovenantId) (dec : Decoders) (s : Store) : PassOp → Store
  | .pass node fromBlock decoder => (syncOnce compute dec node fromBlock decoder s).2
  | .reAnchor virtualChainFrom =>
      match Kascov.reAnchor virtualChainFrom s with
      | .ok (s', _) => s'
      | .error _ => s

/-- The store after a run of calls. -/
abbrev PassOp.run (compute : ComputeCovenantId) (dec : Decoders) (s : Store)
    (ops : List PassOp) : Store :=
  ops.foldl (PassOp.after compute dec) s

/-- The stored cursor is a block, and the progress mark its DAA score. -/
def Store.At (s : Store) (b : BlockHash) (daa : Nat) : Prop :=
  s.cursor = some b ∧ s.processedDaa = some daa

/-- The DAA scores a store keeps are of blocks above genesis. -/
structure Marked (s : Store) : Prop where
  events : ∀ e ∈ s.covenantEvents, 0 < e.acceptingDaa
  processed : s.processedDaa ≠ some 0

theorem Marked.fresh (epoch : StreamEpoch) : Marked (Store.fresh epoch) where
  events := fun _ he ↦ absurd he List.not_mem_nil
  processed := (nomatch ·)

theorem Marked.applied {dec : Decoders} {s : Store} {batch : AcceptedBlockBatch} (h : Marked s)
    (hdaa : batch.acceptingDaa = 0 → batch.events = []) : Marked (appliedStore dec s batch) where
  events e he := by
    rcases List.mem_append.mp he with he | he
    · exact h.events e he
    · obtain ⟨x, hx, rfl⟩ := List.mem_map.mp he
      have hevent := List.mem_map_of_mem (f := (·.1)) hx
      rw [numberEvents_map_event] at hevent
      exact Nat.pos_of_ne_zero fun h0 ↦ List.ne_nil_of_mem hevent (hdaa h0)
  processed := by
    change (if 0 < batch.acceptingDaa then some batch.acceptingDaa else s.processedDaa) ≠ some 0
    split
    · rename_i hpos
      exact fun h0 ↦ absurd (Option.some.inj h0) (Nat.pos_iff_ne_zero.mp hpos)
    · exact h.processed

theorem Marked.rolledBack {s : Store} (h : Marked s) (hashes : List BlockHash) :
    Marked (rolledBackStore s hashes) where
  events e he := h.events e (List.mem_of_mem_filter he)
  processed := h.processed

theorem Marked.reAnchored {virtualChainFrom : BlockHash → Result ChainStep} {s s' : Store}
    {out : ReAnchor} (h : Marked s) (hok : reAnchor virtualChainFrom s = .ok (s', out)) :
    Marked s' := by
  rcases reAnchor_ok hok with ⟨rfl, -⟩ | ⟨anchor, daa, rolled, -, ⟨e, he, -, rfl⟩, hrolled, rfl⟩
  · exact h
  · refine ⟨fun e' he' ↦ ?_, fun h0 ↦ ?_⟩
    · rcases hrolled with ⟨rfl, -⟩ | rfl
      · exact h.events e' he'
      · exact (h.rolledBack _).events e' he'
    · exact absurd (Option.some.inj h0) (Nat.pos_iff_ne_zero.mp (h.events e he))

theorem Marked.run (compute : ComputeCovenantId) (dec : Decoders) {s : Store} (h : Marked s)
    (ops : List PassOp) : Marked (PassOp.run compute dec s ops) := by
  induction ops generalizing s with
  | nil => exact h
  | cons op ops ih =>
      refine ih ?_
      cases op with
      | pass node fromBlock decoder =>
          exact keeps_syncOnce (fun s daa hs ↦ ⟨hs.events, hs.processed⟩)
            (fun s batch hs hdaa ↦ hs.applied hdaa) (fun s removed hs ↦ hs.rolledBack _) s h
      | reAnchor virtualChainFrom =>
          rcases hok : reAnchor virtualChainFrom s with e | ⟨s', out⟩
          · simpa only [PassOp.after, hok] using h
          · simpa only [PassOp.after, hok] using h.reAnchored hok

/-! ## The last block of a walk -/

section Trace

variable {compute : ComputeCovenantId} {dec : Decoders} {node : PassSource}
variable {fromBlock : Option BlockHash} {decoder : ApplicationDecoder}

theorem isCanonical_rolledBackStore {s : Store} {hashes : List BlockHash} (b : BlockHash) :
    (rolledBackStore s hashes).isCanonical b = true ↔ s.isCanonical b = true ∧ b ∉ hashes := by
  unfold Store.isCanonical
  rw [List.any_eq_true, List.any_eq_true]
  constructor
  · rintro ⟨r, hr, heq⟩
    obtain ⟨hmem, hout⟩ := List.mem_filter.mp hr
    exact ⟨⟨r, hmem, heq⟩, of_decide_eq_true heq ▸ of_decide_eq_true hout⟩
  · rintro ⟨⟨r, hr, heq⟩, hout⟩
    exact ⟨r, List.mem_filter.mpr ⟨hr, decide_eq_true (of_decide_eq_true heq ▸ hout)⟩, heq⟩

theorem rollbackStep_ok {removed : List BlockHash} {s s' : Store}
    (h : rollbackStep removed s = (.ok (), s')) :
    s'.cursor = s.cursor ∧
      ∀ b, s'.isCanonical b = true ↔ s.isCanonical b = true ∧ b ∉ removed := by
  unfold rollbackStep at h
  split at h
  · rename_i hnil
    obtain ⟨-, rfl⟩ := pure_eq_ok.mp h
    exact ⟨rfl, fun b ↦ by simp [hnil]⟩
  · obtain ⟨c, s₁, hroll, h⟩ := bind_eq_ok.mp h
    obtain ⟨-, rfl⟩ := pure_eq_ok.mp h
    obtain ⟨-, ⟨hnil, rfl, -⟩ | ⟨-, rfl, -⟩⟩ := rollbackRemovedBlocks_ok (commit_eq_ok.mp hroll)
    · refine ⟨rfl, fun b ↦ ⟨fun hc ↦ ⟨hc, fun hb ↦ ?_⟩, And.left⟩⟩
      exact List.ne_nil_of_mem (mem_canonicalRemoved.mpr ⟨hb, hc⟩) hnil
    · refine ⟨rfl, fun b ↦ ?_⟩
      rw [isCanonical_rolledBackStore, mem_canonicalRemoved]
      exact ⟨fun h ↦ ⟨h.1, fun hb ↦ h.2 ⟨hb, h.1⟩⟩, fun h ↦ ⟨h.1, fun hb ↦ h.2 hb.1⟩⟩

theorem openPass_ok {s s' : Store} {start : BlockHash}
    (h : openPass dec node fromBlock s = (.ok start, s')) :
    (∀ b, s'.cursor = some b → b = start) ∧
      ∀ b, s'.isCanonical b = true ↔ s.isCanonical b = true := by
  have hkeep : ∀ b c,
      Keeps (fun s : Store ↦ s.isCanonical b = c) (openPass dec node fromBlock) := by
    refine fun b c ↦ keeps_openPass (fun s daa hs ↦ hs) fun s start hs ↦ ?_
    rw [← hs, Bool.eq_iff_iff, isCanonical_appliedStore]
    exact or_iff_left fun hpos ↦ absurd hpos.1 (Nat.lt_irrefl 0)
  refine ⟨?_, fun b ↦ by rw [(hkeep b (s.isCanonical b)).of_ok rfl h]⟩
  unfold openPass at h
  obtain ⟨_, s₁, -, h⟩ := bind_eq_ok.mp h
  obtain ⟨cursor, s₂, hread, h⟩ := bind_eq_ok.mp h
  obtain ⟨hcursor, rfl⟩ := read_eq_ok.mp hread
  split at h
  · obtain ⟨rfl, rfl⟩ := pure_eq_ok.mp h
    exact fun b hb ↦ (Option.some.inj (hcursor.symm.trans hb)).symm
  · obtain ⟨start', s₃, hstart, h⟩ := bind_eq_ok.mp h
    obtain ⟨c, s₄, happly, h⟩ := bind_eq_ok.mp h
    obtain ⟨rfl, rfl⟩ := pure_eq_ok.mp h
    have hs₃ : s₃.cursor = none := by
      unfold freshStart at hstart
      split at hstart
      · rw [← (pure_eq_ok.mp hstart).2]
        exact hcursor
      · rw [← (answer_eq_ok.mp hstart).2]
        exact hcursor
    obtain ⟨-, ⟨-, rfl⟩ | ⟨-, rfl⟩⟩ := applyBatch_ok happly
    · exact fun b hb ↦ nomatch hs₃.symm.trans hb
    · exact fun b hb ↦ (Option.some.inj hb).symm

/-- **The last application.**  A walk that ends at a block applies a batch of that
block last, with the DAA score of its header. -/
theorem lastBatch_applied {vars vars' : PassVars} {last : AcceptedBlock} {σ walked s' : Store}
    {stats : SyncStats}
    (hlast : passBlock compute dec node decoder vars last σ = (.ok vars', walked))
    (hclose : closePass dec vars' walked = (.ok stats, s')) :
    ∃ header batch c, node.blockWithTxs last.acceptingBlock = .ok header ∧
      batch.acceptingBlock = last.acceptingBlock ∧ batch.acceptingDaa = header.daaScore ∧
      applyBatch dec batch σ = (.ok c, s') := by
  obtain ⟨header, hheader, -, hseen, hdaa, hstep⟩ := passBlock_ok hlast
  rcases hstep with ⟨-, hsince, c, happly⟩ | ⟨-, hsince, rfl⟩
  · rcases closePass_ok hclose with ⟨rfl, -⟩ | ⟨cursor, c', -, hpos, -⟩
    · exact ⟨header, _, c, hheader, classify_acceptingBlock .., classify_acceptingDaa .., happly⟩
    · exact absurd hsince (Nat.pos_iff_ne_zero.mp hpos)
  · rcases closePass_ok hclose with ⟨-, h0 | hnone⟩ | ⟨cursor, c, hcursor, -, happly⟩
    · exact absurd h0 (hsince ▸ Nat.succ_ne_zero _)
    · exact nomatch hseen.symm.trans hnone
    · obtain rfl := Option.some.inj (hseen.symm.trans hcursor)
      exact ⟨header, _, c, hheader, rfl, hdaa, happly⟩

/-- What a walk over other blocks leaves of a block's canonical row. -/
theorem isCanonical_walk {front : List AcceptedBlock} {b : BlockHash}
    (hb : ∀ a ∈ front, a.acceptingBlock ≠ b) {vars vars' : PassVars} {s s' : Store}
    (h : front.foldlM (passBlock compute dec node decoder) vars s = (.ok vars', s')) :
    s'.isCanonical b = s.isCanonical b := by
  refine (Keeps.foldlM (P := fun s₁ ↦ s₁.isCanonical b = s.isCanonical b) (fun a ha v ↦ ?_)
    vars).of_ok rfl h
  refine keeps_passBlock v fun s₁ batch hbatch hs _ _ ↦ ?_
  rw [← hs, Bool.eq_iff_iff, isCanonical_appliedStore]
  exact or_iff_left fun heq ↦ hb a ha (hbatch ▸ heq.2)

/-- A walk leaves the cursor at a block it walked, or where it was. -/
theorem cursor_walk {front : List AcceptedBlock} {vars vars' : PassVars} {s s' : Store}
    (h : front.foldlM (passBlock compute dec node decoder) vars s = (.ok vars', s')) :
    s'.cursor = s.cursor ∨ ∃ a ∈ front, s'.cursor = some a.acceptingBlock := by
  refine (Keeps.foldlM (P := fun s₁ ↦ s₁.cursor = s.cursor ∨
    ∃ a ∈ front, s₁.cursor = some a.acceptingBlock) (fun a ha v ↦ ?_) vars).of_ok (.inl rfl) h
  exact keeps_passBlock v fun s₁ batch hbatch _ _ _ ↦ .inr ⟨a, ha, by rw [← hbatch]; rfl⟩

end Trace

/-! ## Progress -/

/-- What a pass asks of the block its walk ends at: it has a DAA score, and the
store does not hold it as canonical once the removed blocks are rolled back. -/
def EndsAhead (s : Store) (removed : List BlockHash) (last : AcceptedBlock) (header : Block) :
    Prop :=
  0 < header.daaScore ∧ (s.isCanonical last.acceptingBlock = true → last.acceptingBlock ∈ removed)

/-- **Cursor progress.**  After any run, a pass that returned is at the last block
of its walk if that block is ahead of the store and the walk lists it once.  On a
walk along a chain it is there only then. -/
theorem cursorProgress_iff {compute : ComputeCovenantId} {dec : Decoders} {epoch : StreamEpoch}
    (ops : List PassOp) {node : PassSource} {fromBlock : Option BlockHash}
    {decoder : ApplicationDecoder} {stats : SyncStats} {s' : Store}
    (h : syncOnce compute dec node fromBlock decoder
      (PassOp.run compute dec (Store.fresh epoch) ops) = (.ok stats, s')) :
    ∃ trace : PassTrace compute dec node fromBlock decoder
        (PassOp.run compute dec (Store.fresh epoch) ops) stats s',
      ∀ front last, trace.step.added = front ++ [last] →
        ∃ header, node.blockWithTxs last.acceptingBlock = .ok header ∧
          (EndsAhead (PassOp.run compute dec (Store.fresh epoch) ops) trace.step.removed last
              header →
            (∀ a ∈ front, a.acceptingBlock ≠ last.acceptingBlock) →
            s'.At last.acceptingBlock header.daaScore) ∧
          ((trace.start :: trace.step.added.map (·.acceptingBlock)).Nodup →
            (s'.At last.acceptingBlock header.daaScore ↔
              EndsAhead (PassOp.run compute dec (Store.fresh epoch) ops) trace.step.removed last
                header)) := by
  have hmarked := (Marked.fresh epoch).run compute dec ops
  generalize PassOp.run compute dec (Store.fresh epoch) ops = s at h hmarked ⊢
  obtain ⟨trace⟩ := syncOnce_ok h
  refine ⟨trace, fun front last hadded ↦ ?_⟩
  have hwalks := trace.walks
  rw [walkAdded, hadded] at hwalks
  obtain ⟨vars, σ, hfront, hwalks⟩ := foldlM_append_eq_ok.mp hwalks
  obtain ⟨vars', walked, hlast, hnil⟩ := foldlM_cons_eq_ok.mp hwalks
  obtain ⟨rfl, rfl⟩ := foldlM_nil_eq_ok.mp hnil
  obtain ⟨header, batch, c, hheader, hblock, hdaa, happly⟩ := lastBatch_applied hlast trace.closes
  obtain ⟨hopenCursor, hopenCanonical⟩ := openPass_ok trace.opens
  obtain ⟨hrollCursor, hrollCanonical⟩ := rollbackStep_ok trace.rolls
  have hcanonical : (∀ a ∈ front, a.acceptingBlock ≠ last.acceptingBlock) →
      (σ.isCanonical last.acceptingBlock = true ↔
        s.isCanonical last.acceptingBlock = true ∧ last.acceptingBlock ∉ trace.step.removed) := by
    intro hfresh
    rw [isCanonical_walk hfresh hfront, hrollCanonical, hopenCanonical]
  have hσ : Marked σ := by
    have hopened := (keeps_openPass (fun s daa hs ↦ ⟨hs.events, hs.processed⟩)
      fun s start hs ↦ hs.applied fun _ ↦ rfl).of_ok hmarked trace.opens
    have hrolled := (keeps_rollbackStep fun s hs ↦ hs.rolledBack _).of_ok hopened trace.rolls
    exact (Keeps.foldlM (fun a _ v ↦ keeps_passBlock v fun s batch _ hs _ hdaa ↦
      hs.applied hdaa) _).of_ok hrolled hfront
  have hahead : (∀ a ∈ front, a.acceptingBlock ≠ last.acceptingBlock) →
      EndsAhead s trace.step.removed last header → s'.At last.acceptingBlock header.daaScore := by
    rintro hfresh ⟨hpos, hnew⟩
    obtain ⟨-, ⟨hc, -⟩ | ⟨-, rfl⟩⟩ := applyBatch_ok happly
    · rw [hblock, hcanonical hfresh] at hc
      exact absurd (hnew hc.1) hc.2
    · refine ⟨congrArg some hblock, ?_⟩
      change (if 0 < batch.acceptingDaa then some batch.acceptingDaa else σ.processedDaa) = _
      rw [hdaa, if_pos hpos]
  refine ⟨header, hheader, fun hend hfresh ↦ hahead hfresh hend, fun hchain ↦ ⟨fun hat ↦ ?_, ?_⟩⟩
  all_goals
    rw [hadded, List.map_append, List.nodup_cons] at hchain
    have hfresh : ∀ a ∈ front, a.acceptingBlock ≠ last.acceptingBlock := fun a ha heq ↦
      (List.nodup_append.mp hchain.2).2.2 _ (List.mem_map_of_mem ha) _ List.mem_cons_self heq
  · obtain ⟨hevents, ⟨-, heq⟩ | ⟨hnew, heq⟩⟩ := applyBatch_ok happly
    · -- the store was left alone: its cursor is at another block
      have hcursor : σ.cursor = some last.acceptingBlock := heq ▸ hat.1
      rcases cursor_walk hfront with hsame | ⟨a, ha, heq⟩
      · rw [hsame, hrollCursor] at hcursor
        refine absurd ?_ hchain.1
        rw [← hopenCursor _ hcursor]
        exact List.mem_append_right _ List.mem_cons_self
      · exact absurd (Option.some.inj (heq.symm.trans hcursor)) (hfresh a ha)
    · refine ⟨Nat.pos_of_ne_zero fun h0 ↦ ?_, fun hc ↦ ?_⟩
      · -- a score of zero is not recorded
        have hprocessed : (appliedStore dec σ batch).processedDaa ≠ some 0 :=
          (hσ.applied hevents).processed
        rw [← heq] at hprocessed
        exact hprocessed (h0 ▸ hat.2)
      · by_contra hremoved
        rw [hblock] at hnew
        exact absurd ((hcanonical hfresh).mpr ⟨hc, hremoved⟩) (Bool.eq_false_iff.mp hnew)
  · exact hahead hfresh

/-- A transaction that binds an output to a covenant. -/
def claimTx : Transaction :=
  { txid := ⟨7⟩
    version := 0
    inputs := []
    outputs := [{ value := 1000, spkVersion := 0, spkScript := [], covenant := some ⟨⟨9⟩, 0⟩ }]
    payload := [] }

/-- A node whose block `n` has DAA score `100 n`, and whose block 1 holds the
transaction. -/
def followedNode (step : ChainStep) : PassSource where
  pruningPoint := .ok ⟨0⟩
  virtualChainFrom _ := .ok step
  blockWithTxs b := .ok
    { hash := b
      daaScore := 100 * b.bytes.toNat
      blueScore := 0
      timestampMs := 0
      mergeset := []
      transactions := if b = ⟨1⟩ then [claimTx] else [] }
  dagInfo := .ok ⟨500, ⟨4⟩⟩

def nothingComputed : ComputeCovenantId := fun _ _ ↦ ⟨0⟩

/-- The answer to a first pass: block 1 with an event, block 4 with none. -/
def firstStep : ChainStep := { removed := [], added := [⟨⟨1⟩, [⟨7⟩]⟩, ⟨⟨4⟩, []⟩] }

/-- The first pass, on a fresh index. -/
def firstPass : Except Error SyncStats × Store :=
  syncOnce nothingComputed .blind (followedNode firstStep) (some ⟨0⟩) noApplicationDecoder
    (PassOp.run nothingComputed .blind (.fresh ⟨0⟩) [])

/-- It ends at block 4. -/
theorem firstPass_progress :
    firstPass.1 = .ok { chainBlocks := 2, events := 1 } ∧ firstPass.2.At ⟨4⟩ 400 := by
  have hok : firstPass.1 = .ok { chainBlocks := 2, events := 1 } := by decide +kernel
  refine ⟨hok, ?_⟩
  have hpass : firstPass = (.ok { chainBlocks := 2, events := 1 }, firstPass.2) := by
    rw [← hok]
  obtain ⟨trace, htrace⟩ := cursorProgress_iff [] hpass
  have hstep : firstStep = trace.step := Except.ok.inj trace.answers
  have hadded : trace.step.added = [⟨⟨1⟩, [⟨7⟩]⟩] ++ [⟨⟨4⟩, []⟩] := by rw [← hstep]; rfl
  obtain ⟨header, hheader, hahead, -⟩ := htrace _ _ hadded
  obtain rfl := Except.ok.inj hheader
  exact hahead ⟨by decide, fun hc ↦ absurd hc (by decide)⟩ (by decide)

/-- The node drops one call, and the index re-anchors to block 1. -/
def droppedCall (b : BlockHash) : Result ChainStep :=
  if b = ⟨4⟩ then .error (.rpc "connection lost") else .ok { removed := [], added := [⟨⟨4⟩, []⟩] }

def reAnchoredRun : List PassOp :=
  [.pass (followedNode firstStep) (some ⟨0⟩) noApplicationDecoder, .reAnchor droppedCall]

/-- The next pass walks from block 1 to block 4. -/
def nextPass : Except Error SyncStats × Store :=
  syncOnce nothingComputed .blind (followedNode { removed := [], added := [⟨⟨4⟩, []⟩] }) none
    noApplicationDecoder (PassOp.run nothingComputed .blind (.fresh ⟨0⟩) reAnchoredRun)

/-- It returns, and leaves the cursor and the progress mark at block 1. -/
theorem cursor_left_behind :
    nextPass.1 = .ok { chainBlocks := 1 } ∧ nextPass.2.cursor = some ⟨1⟩ ∧
      nextPass.2.processedDaa = some 100 ∧ ¬nextPass.2.At ⟨4⟩ 400 := by
  have hcursor : nextPass.2.cursor = some ⟨1⟩ := by decide +kernel
  refine ⟨by decide +kernel, hcursor, by decide +kernel, fun h ↦ ?_⟩
  exact absurd (h.1.symm.trans hcursor) (by decide)

end Kascov
