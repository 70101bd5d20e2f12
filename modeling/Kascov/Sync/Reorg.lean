import Kascov.Ledger.Undone
import Kascov.Lib.Forks
import Kascov.Sync.Kept

/-!
# Passes over a chain that changes

The blocks a node tells of form a tree, and the chain it has selected is the line of one of
them, which may be another at every call.  What a store indexes is a stretch of the line of
its cursor: `Indexed`.  Each stage of a pass leads from one such stretch to another, also
when the pass fails there.
-/

namespace Kascov

open Commits

/-- What a node tells of the blocks, whichever chain it has selected. -/
structure ChainTree where
  lines : Lineage BlockHash
  header : BlockHash → Block
  acceptedTxIds : BlockHash → List TxId
  body : TxId → Transaction

namespace ChainTree

variable (tree : ChainTree)

def accepted (b : BlockHash) : AcceptedBlock := ⟨b, tree.acceptedTxIds b⟩

def ledgerBlock (b : BlockHash) : LedgerBlock where
  accepted := tree.accepted b
  accepting := tree.header b
  transactions := (tree.acceptedTxIds b).map tree.body

/-- What the blocks of a stretch accepted. -/
def history (blocks : List BlockHash) : List Accepted :=
  historyOf (blocks.map tree.ledgerBlock)

/-- `virtual_chain_from` at a node whose chain ends at `tip`: the blocks from `c` down to the
fork, and those from the fork to the tip. -/
def chainStep (c tip : BlockHash) : ChainStep where
  removed := (tree.lines.apart tip c).reverse
  added := (tree.lines.apart c tip).map tree.accepted

/-- Transactions with one id have one body, and consensus allows the history of every line. -/
structure Consistent : Prop where
  bodies : ∀ b, ∀ tx ∈ (tree.header b).transactions, tree.body tx.txid = tx
  valid : ∀ tip, ValidHistory (tree.history (tree.lines.path tip))

/-- The node answers from the line of `tip`, when it answers. -/
structure Tells (tip : BlockHash) (node : PassSource) : Prop where
  walks : ∀ c step, node.virtualChainFrom c = .ok step → step = tree.chainStep c tip
  serves : ∀ b block, node.blockWithTxs b = .ok block → block = tree.header b

@[simp] theorem history_append (xs ys : List BlockHash) :
    tree.history (xs ++ ys) = tree.history xs ++ tree.history ys := by
  simp [history, historyOf]

@[simp] theorem history_singleton (b : BlockHash) :
    tree.history [b] = (tree.ledgerBlock b).placed := by
  simp [history, historyOf]

variable {tree}

theorem block_of_history {blocks : List BlockHash} {a : Accepted} (h : a ∈ tree.history blocks) :
    a.block ∈ blocks := by
  obtain ⟨block, hblock, ha⟩ := List.mem_flatMap.mp h
  obtain ⟨b, hb, rfl⟩ := List.mem_map.mp hblock
  exact (LedgerBlock.placed_at ha).1 ▸ hb

theorem Consistent.valid_of_line {base more : List BlockHash} {t : BlockHash}
    (h : tree.Consistent) (hline : base ++ more <+: tree.lines.path t) :
    ValidHistory (tree.history more) := by
  obtain ⟨rest, hrest⟩ := hline
  have hvalid := h.valid t
  rw [← hrest, history_append, history_append] at hvalid
  exact hvalid.append_left.append_right

/-- When no body is missing, they are those of the tree. -/
theorem resolvedTxs_eq (h : tree.Consistent) {tip b : BlockHash} {node : PassSource}
    (hnode : tree.Tells tip node)
    (hresolved : unresolvedCount node.toChainSource (tree.accepted b) (tree.header b) = 0) :
    resolvedTxs node.toChainSource (tree.accepted b) (tree.header b) =
      (tree.ledgerBlock b).placed.map (·.indexed) := by
  have hheld : ∀ tx ∈ heldTransactions node.toChainSource (tree.header b),
      tree.body tx.txid = tx := by
    intro tx htx
    rcases List.mem_append.mp htx with htx | htx
    · exact h.bodies b tx htx
    · obtain ⟨hash, -, htx⟩ := List.mem_flatMap.mp htx
      split at htx
      · rename_i block hblock
        exact h.bodies hash tx (hnode.serves hash block hblock ▸ htx)
      · cases htx
  have hbody : ∀ entry ∈ (tree.acceptedTxIds b).zipIdx,
      (bodyOf node.toChainSource (tree.header b) entry.1).map (fun tx ↦ (entry.2, tx)) =
        some (entry.2, tree.body entry.1) := by
    intro entry hentry
    have hmem := List.fst_mem_of_mem_zipIdx hentry
    have hsome := List.countP_eq_zero.mp hresolved entry.1 (List.mem_dedup.mpr hmem)
    obtain ⟨tx, htx⟩ := Option.ne_none_iff_exists'.mp (mt Option.isNone_iff_eq_none.mpr hsome)
    have htxid : tx.txid = entry.1 := by
      rw [bodyOf] at htx
      simpa using List.find?_some htx
    rw [htx, Option.map_some, ← htxid, hheld tx (List.mem_of_find?_eq_some htx)]
  calc resolvedTxs node.toChainSource (tree.accepted b) (tree.header b)
      = (tree.acceptedTxIds b).zipIdx.filterMap fun entry ↦
          some (entry.2, tree.body entry.1) := List.filterMap_congr hbody
    _ = (tree.acceptedTxIds b).zipIdx.map fun entry ↦ (entry.2, tree.body entry.1) :=
        congrFun List.filterMap_eq_map _
    _ = (tree.ledgerBlock b).placed.map (·.indexed) := by
        rw [LedgerBlock.placed, ledgerBlock, List.zipIdx_map, List.map_map, List.map_map]
        rfl

end ChainTree

/-! ## What a store has indexed -/

/-- The store has indexed a stretch of blocks. -/
structure Indexed (tree : ChainTree) (compute : ComputeCovenantId) (held : List BlockHash)
    (s : Store) : Prop where
  rows : Represents compute s (tree.history held)
  canonical : CanonicalIn s held
  chain : ChainInvariant s

namespace Indexed

variable {tree : ChainTree} {compute : ComputeCovenantId} {held more : List BlockHash}
  {s s' : Store}

theorem fresh (epoch : StreamEpoch) : Indexed tree compute [] (.fresh epoch) where
  rows := represents_fresh compute epoch
  canonical hash hcanonical := by simp [Store.isCanonical, Store.fresh] at hcanonical
  chain := chainInvariant_fresh epoch

theorem setTip (h : Indexed tree compute held s) (daa : Nat) :
    Indexed tree compute held (s.setTip daa) where
  rows := ⟨h.rows.cells, h.rows.events, h.rows.known⟩
  canonical := h.canonical
  chain := ⟨h.chain.outpoints, h.chain.clean, h.chain.canonical, h.chain.counts⟩

/-- Blocks that touch nothing may be counted in. -/
theorem quiet (h : Indexed tree compute held s)
    (hvalid : ValidHistory (tree.history (held ++ more)))
    (hquiet : touchedBy (tree.history held) (tree.history more) = []) :
    Indexed tree compute (held ++ more) s where
  rows := by
    rw [tree.history_append] at hvalid ⊢
    exact (represents_append_quiet compute s hvalid.cellsKeyed hquiet).mpr h.rows
  canonical := fun hash hcanonical ↦ List.mem_append_left _ (h.canonical hash hcanonical)
  chain := h.chain

/-- A batch without events of a block that is counted in. -/
theorem checkpoint (h : Indexed tree compute held s) (dec : Decoders) {b : BlockHash} (daa : Nat)
    (hb : 0 < daa → b ∈ held) :
    Indexed tree compute held (appliedStore dec s (checkpointBatch b daa)) where
  rows := by
    refine ⟨h.rows.cells, ?_, h.rows.known⟩
    change (s.covenantEvents ++ []).map _ = _
    rw [List.append_nil, h.rows.events]
  canonical := fun hash hcanonical ↦ by
    rcases (isCanonical_appliedStore hash).mp hcanonical with hold | ⟨hpos, rfl⟩
    · exact h.canonical hash hold
    · exact hb hpos
  chain := h.chain.applied fun _ ↦ rfl

/-- **The next block is applied.** -/
theorem apply {b : BlockHash} (h : Indexed tree compute held s)
    (hvalid : ValidHistory (tree.history (held ++ [b]))) (hnew : b ∉ held) {dec : Decoders}
    {decoder : ApplicationDecoder} {c : CommittedBatch}
    (happly : applyBatch dec (classify compute s (tree.accepted b) (tree.header b) decoder
      ((tree.ledgerBlock b).placed.map (·.indexed))) s = (.ok c, s')) :
    Indexed tree compute (held ++ [b]) s' ∧ s'.cursor = some b := by
  have hfresh : s.isCanonical b = false := Bool.eq_false_iff.mpr fun hold ↦
    hnew (h.canonical b hold)
  rw [tree.history_append, tree.history_singleton] at hvalid
  have hindex : indexBlock ⟨compute, dec, decoder⟩ s (tree.ledgerBlock b) = .ok s' := by
    rw [indexBlock]
    exact Fallible.map_eq_ok.mpr ⟨_, commit_eq_ok.mp happly, rfl⟩
  have hrows := h.rows.index (c := ⟨compute, dec, decoder⟩) hvalid hfresh hindex
  have hcanonical := h.canonical.index hindex
  obtain ⟨hdaa, ⟨hold, -⟩ | ⟨-, rfl⟩⟩ := applyBatch_ok happly
  · rw [classify_acceptingBlock] at hold
    exact absurd (hfresh.symm.trans hold) Bool.false_ne_true
  · refine ⟨⟨?_, hcanonical, h.chain.applied hdaa⟩, congrArg some (classify_acceptingBlock ..)⟩
    rw [tree.history_append, tree.history_singleton]
    exact hrows

/-- A block that has no event touches nothing. -/
theorem quiet_of_events {b : BlockHash} (h : Indexed tree compute held s)
    (hvalid : ValidHistory (tree.history (held ++ [b]))) {decoder : ApplicationDecoder}
    (hevents : (classify compute s (tree.accepted b) (tree.header b) decoder
      ((tree.ledgerBlock b).placed.map (·.indexed))).events = []) :
    touchedBy (tree.history held) (tree.history [b]) = [] := by
  rw [tree.history_append, tree.history_singleton] at hvalid
  rw [classify_eq hvalid.cellsKeyed (h.rows.looksUp hvalid)] at hevents
  rw [tree.history_singleton, ← blockEvents_ids compute s]
  exact List.map_eq_nil_iff.mpr hevents

/-- **A rollback leads back to a beginning of the stretch.** -/
theorem rollback {kept rest removed : List BlockHash}
    (h : Indexed tree compute (kept ++ rest) s)
    (hvalid : ValidHistory (tree.history (kept ++ rest)))
    (hkept : ∀ b ∈ kept, b ∉ removed) (hrest : ∀ b ∈ rest, b ∈ removed)
    (hroll : rollbackStep removed s = (.ok (), s')) : Indexed tree compute kept s' := by
  have hback : ∀ hash, s'.isCanonical hash = true → hash ∈ kept := by
    intro hash hcanonical
    obtain ⟨hold, hnot⟩ := ((rollbackStep_ok hroll).2 hash).mp hcanonical
    rcases List.mem_append.mp (h.canonical hash hold) with hmem | hmem
    · exact hmem
    · exact absurd (hrest hash hmem) hnot
  have hrows := h.rows
  rw [tree.history_append] at hvalid hrows
  -- nothing of the rest is canonical: it was as good as absent
  have hnothing : (∀ b ∈ rest, ¬s.isCanonical b = true) →
      Represents compute s (tree.history kept) := fun hnone ↦
    (represents_append_quiet compute s hvalid.cellsKeyed (hrows.touchedBy_eq_nil h.chain
      fun a ha ↦ hnone _ (ChainTree.block_of_history ha))).mp hrows
  unfold rollbackStep at hroll
  split at hroll
  · rename_i hnil
    obtain ⟨-, rfl⟩ := pure_eq_ok.mp hroll
    refine ⟨hnothing fun b hb ↦ ?_, hback, h.chain⟩
    exact absurd (hrest b hb) (hnil ▸ List.not_mem_nil)
  · obtain ⟨c, s₁, hcommit, hpure⟩ := bind_eq_ok.mp hroll
    obtain ⟨-, rfl⟩ := pure_eq_ok.mp hpure
    obtain ⟨-, ⟨hnil, rfl, -⟩ | ⟨-, rfl, -⟩⟩ := rollbackRemovedBlocks_ok (commit_eq_ok.mp hcommit)
    · refine ⟨hnothing fun b hb hcanonical ↦ ?_, hback, h.chain⟩
      exact List.ne_nil_of_mem (mem_canonicalRemoved.mpr ⟨hrest b hb, hcanonical⟩) hnil
    · refine ⟨?_, hback, h.chain.rolledBack _⟩
      refine hrows.rolledBack hvalid h.chain (fun a ha hmem ↦ ?_) fun a ha hcanonical ↦ ?_
      · exact hkept _ (ChainTree.block_of_history ha) (mem_canonicalRemoved.mp hmem).1
      · exact mem_canonicalRemoved.mpr ⟨hrest _ (ChainTree.block_of_history ha), hcanonical⟩

end Indexed

/-! ## The walk -/

/-- The store has indexed a stretch of the line of its cursor, behind `base`. -/
structure Stretch (tree : ChainTree) (compute : ComputeCovenantId) (base held : List BlockHash)
    (s : Store) : Prop where
  indexed : Indexed tree compute held s
  cursor : ∃ c, s.cursor = some c ∧ base ++ held <+: tree.lines.path c

/-- Where a walk is that has passed the blocks `front`: the store has indexed some of them,
and the others touch nothing. -/
structure Walking (tree : ChainTree) (compute : ComputeCovenantId)
    (base kept front : List BlockHash) (vars : PassVars) (s : Store) : Prop where
  stretch : ∃ done pending, front = done ++ pending ∧
    Stretch tree compute base (kept ++ done) s ∧
    touchedBy (tree.history (kept ++ done)) (tree.history pending) = []
  lastSeen : ∀ b, vars.lastSeen = some b → ∃ before, front = before ++ [b]

section Walk

variable {tree : ChainTree} {compute : ComputeCovenantId} {dec : Decoders} {node : PassSource}
  {decoder : ApplicationDecoder} {base kept front rest : List BlockHash} {c tip b : BlockHash}
  {vars vars' : PassVars} {s s' : Store}

theorem Walking.start (h : Stretch tree compute base kept s) (hvars : vars.lastSeen = none) :
    Walking tree compute base kept [] vars s := by
  refine ⟨⟨[], [], rfl, ?_, rfl⟩, fun b hb ↦ nomatch hvars.symm.trans hb⟩
  rw [List.append_nil]
  exact h

/-- All the blocks passed may be counted in. -/
theorem Walking.indexed (h : Walking tree compute base kept front vars s)
    (hvalid : ValidHistory (tree.history (kept ++ front))) :
    Indexed tree compute (kept ++ front) s := by
  obtain ⟨done, pending, rfl, hstretch, hquiet⟩ := h.stretch
  rw [← List.append_assoc] at hvalid ⊢
  exact hstretch.indexed.quiet hvalid hquiet

variable (htree : tree.Consistent) (hfork : base ++ kept = tree.lines.shared c tip)

include hfork

theorem path_of_walked (hadded : tree.lines.apart c tip = front ++ b :: rest) :
    tree.lines.path b = base ++ (kept ++ (front ++ [b])) := by
  rw [tree.lines.path_of_apart hadded, ← hfork, List.append_assoc]

include htree

/-- **One block of the walk.** -/
theorem Walking.step (hnode : tree.Tells tip node)
    (hadded : tree.lines.apart c tip = front ++ b :: rest)
    (h : Walking tree compute base kept front vars s)
    (hpass : passBlock compute dec node decoder vars (tree.accepted b) s = (.ok vars', s')) :
    Walking tree compute base kept (front ++ [b]) vars' s' := by
  have hpath := path_of_walked hfork hadded
  have hline : base ++ (kept ++ (front ++ [b])) <+: tree.lines.path b := by rw [hpath]
  have hvalid := htree.valid_of_line hline
  rw [← List.append_assoc] at hvalid
  have hbefore : ValidHistory (tree.history (kept ++ front)) := by
    rw [tree.history_append] at hvalid
    exact hvalid.append_left
  have hindexed := h.indexed hbefore
  obtain ⟨accepting, hserved, hresolved, hseen, -, hstep⟩ := passBlock_ok hpass
  obtain rfl : accepting = tree.header b := hnode.serves _ _ hserved
  change vars'.lastSeen = some b at hseen
  have hlast : ∀ x, vars'.lastSeen = some x → ∃ before, front ++ [b] = before ++ [x] :=
    fun x hx ↦ ⟨front, by rw [Option.some.inj (hseen.symm.trans hx)]⟩
  have hprepared : preparedBatch compute node decoder (tree.accepted b) (tree.header b) s =
      classify compute s (tree.accepted b) (tree.header b) decoder
        ((tree.ledgerBlock b).placed.map (·.indexed)) := by
    rw [preparedBatch, ChainTree.resolvedTxs_eq htree hnode hresolved]
  rcases hstep with ⟨-, -, committed, happly⟩ | ⟨hdue, -, rfl⟩
  · have hnew : b ∉ kept ++ front := by
      have hnodup := tree.lines.nodup b
      rw [hpath, ← List.append_assoc kept, ← List.append_assoc, List.nodup_append] at hnodup
      exact fun hmem ↦ hnodup.2.2 b (List.mem_append_right _ hmem) b List.mem_cons_self rfl
    rw [hprepared] at happly
    obtain ⟨happlied, hcursor⟩ := hindexed.apply hvalid hnew happly
    rw [List.append_assoc] at happlied
    refine ⟨⟨front ++ [b], [], (List.append_nil _).symm, ⟨happlied, b, hcursor, hline⟩, rfl⟩,
      hlast⟩
  · rw [hprepared] at hdue
    have hevents : (classify compute s' (tree.accepted b) (tree.header b) decoder
        ((tree.ledgerBlock b).placed.map (·.indexed))).events = [] := by
      by_contra hne
      exact hdue (.inl hne)
    have hquietBlock := hindexed.quiet_of_events hvalid hevents
    obtain ⟨done, pending, rfl, hstretch, hquiet⟩ := h.stretch
    refine ⟨⟨done, pending ++ [b], List.append_assoc _ _ _, hstretch, ?_⟩, hlast⟩
    rw [tree.history_append pending, touchedBy_append, hquiet, List.nil_append,
      ← tree.history_append, List.append_assoc]
    exact hquietBlock

/-- **The walk over the added blocks.** -/
theorem Walking.run (hnode : tree.Tells tip node) (hadded : tree.lines.apart c tip = front ++ rest)
    (h : Walking tree compute base kept front vars s)
    (hwalk : (rest.map tree.accepted).foldlM (passBlock compute dec node decoder) vars s =
      (.ok vars', s')) :
    Walking tree compute base kept (front ++ rest) vars' s' := by
  induction rest generalizing front vars s with
  | nil =>
      obtain ⟨rfl, rfl⟩ := foldlM_nil_eq_ok.mp hwalk
      rw [List.append_nil]
      exact h
  | cons b rest ih =>
      obtain ⟨vars₁, s₁, hpass, hwalk⟩ := foldlM_cons_eq_ok.mp hwalk
      have hstep := h.step htree hfork hnode hadded hpass
      rw [List.append_cons] at hadded ⊢
      exact ih hadded hstep hwalk

/-- A walk that fails leaves a stretch too. -/
theorem Walking.run_error (hnode : tree.Tells tip node)
    (hadded : tree.lines.apart c tip = front ++ rest)
    (h : Walking tree compute base kept front vars s) {e : Error}
    (hwalk : (rest.map tree.accepted).foldlM (passBlock compute dec node decoder) vars s =
      (.error e, s')) :
    ∃ held, Stretch tree compute base held s' := by
  induction rest generalizing front vars s with
  | nil => exact absurd hwalk pure_ne_error
  | cons b rest ih =>
      rw [List.map_cons, List.foldlM_cons] at hwalk
      obtain hpass | ⟨vars₁, s₁, hpass, hwalk⟩ := bind_eq_error.mp hwalk
      · obtain rfl := passBlock_error hpass
        obtain ⟨done, -, -, hstretch, -⟩ := h.stretch
        exact ⟨_, hstretch⟩
      · have hstep := h.step htree hfork hnode hadded hpass
        rw [List.append_cons] at hadded
        exact ih hadded hstep hwalk

/-- **The end of a pass.**  The store has indexed all of the line behind the base. -/
theorem Walking.close (h : Walking tree compute base kept (tree.lines.apart c tip) vars s)
    {stats : SyncStats} (hclose : closePass dec vars s = (.ok stats, s')) :
    Indexed tree compute (kept ++ tree.lines.apart c tip) s' ∧
      ∃ held, Stretch tree compute base held s' := by
  have hline : base ++ (kept ++ tree.lines.apart c tip) <+: tree.lines.path tip := by
    rw [← List.append_assoc, hfork, tree.lines.shared_append_apart']
  have hindexed := h.indexed (htree.valid_of_line hline)
  obtain ⟨done, pending, -, hstretch, -⟩ := h.stretch
  rcases closePass_ok hclose with ⟨rfl, -⟩ | ⟨last, committed, hseen, -, happly⟩
  · exact ⟨hindexed, _, hstretch⟩
  · obtain ⟨-, ⟨-, rfl⟩ | ⟨-, rfl⟩⟩ := applyBatch_ok happly
    · exact ⟨hindexed, _, hstretch⟩
    · obtain ⟨before, hbefore⟩ := h.lastSeen last hseen
      have hmem : last ∈ kept ++ tree.lines.apart c tip := by
        rw [hbefore, ← List.append_assoc]
        exact List.mem_append_right _ List.mem_cons_self
      have happlied := hindexed.checkpoint dec vars.lastDaa fun _ ↦ hmem
      refine ⟨happlied, _, happlied, last, rfl, ?_⟩
      rw [path_of_walked hfork hbefore, hbefore]

end Walk

end Kascov
