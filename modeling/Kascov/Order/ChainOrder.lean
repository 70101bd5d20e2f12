import Kascov.Order.Follower

/-!
# Sequence order is chain order

The sequences of a covenant are dense and follow the chain: accepting DAA, then
the block's place on the chain, then the transaction index within the block.
The applies and the rollbacks of a follower keep this; a recovery keeps it when
what it inserts stands after the recorded events of the same DAA, and a rollback
when it finds every removed block with events among the canonical ones.

Both conditions are needed.  The finaliser breaks a tie of the DAA by the
provisional sequence, so an event found late in a block already indexed is
numbered after it, whatever its transaction index; and a merged block never
becomes canonical, so a rollback that removes it leaves its events.
-/

namespace Kascov

open Fallible

/-- The place of a block on the chain. -/
def placeOf (chain : List ChainBlock) (hash : BlockHash) : Nat :=
  (chain.map (·.hash)).idxOf hash

/-- The chain order of two events. -/
def ChainBefore (chain : List ChainBlock) (a b : EventRow) : Prop :=
  a.acceptingDaa < b.acceptingDaa ∨ a.acceptingDaa = b.acceptingDaa ∧
    (placeOf chain a.acceptingBlock < placeOf chain b.acceptingBlock ∨
      a.acceptingBlock = b.acceptingBlock ∧ a.txIndex.getD 0 < b.txIndex.getD 0)

instance (chain : List ChainBlock) (a b : EventRow) : Decidable (ChainBefore chain a b) :=
  inferInstanceAs (Decidable (_ ∨ _ ∧ (_ ∨ _ ∧ _)))

/-- The law of `seq`: dense in each covenant, and in chain order. -/
structure Sequenced (chain : List ChainBlock) (events : List EventRow) : Prop where
  dense : Dense events
  order : ∀ a ∈ events, ∀ b ∈ events, a.covenantId = b.covenantId →
    (a.seq < b.seq ↔ ChainBefore chain a b)

theorem ChainBefore.asymm {chain : List ChainBlock} {a b : EventRow}
    (hab : ChainBefore chain a b) : ¬ChainBefore chain b a := by
  rintro (hba | ⟨hdaa, hba⟩)
  · rcases hab with hab | ⟨hab, -⟩
    all_goals omega
  · rcases hab with hab | ⟨-, hab | ⟨hblock, hab⟩⟩
    · omega
    · rcases hba with hba | ⟨hblock, -⟩
      · exact lt_asymm hab hba
      · rw [hblock] at hab
        exact lt_irrefl _ hab
    · rcases hba with hba | ⟨-, hba⟩
      · rw [hblock] at hba
        exact lt_irrefl _ hba
      · exact lt_asymm hab hba

/-- It is enough that a lower sequence stands before. -/
theorem sequenced_of_seqOrdered {chain : List ChainBlock} {events : List EventRow}
    (hdense : Dense events) (h : SeqOrdered (ChainBefore chain) events) :
    Sequenced chain events := by
  refine ⟨hdense, fun a ha b hb hid ↦ ⟨h a ha b hb hid, fun hab ↦ ?_⟩⟩
  rcases lt_trichotomy a.seq b.seq with hlt | heq | hgt
  · exact hlt
  · rw [hdense.seqKeyed.eq_of_seq ha hb hid heq] at hab
    exact absurd hab hab.asymm
  · exact absurd (h b hb a ha hid.symm hgt) hab.asymm

theorem Sequenced.seqOrdered {chain : List ChainBlock} {events : List EventRow}
    (h : Sequenced chain events) : SeqOrdered (ChainBefore chain) events :=
  fun a ha b hb hid ↦ (h.order a ha b hb hid).mp

/-! ## Growing and shrinking the chain -/

theorem placeOf_append {chain more : List ChainBlock} {block : ChainBlock}
    (h : block ∈ chain) : placeOf (chain ++ more) block.hash = placeOf chain block.hash := by
  rw [placeOf, List.map_append, List.idxOf_append_of_mem (List.mem_map_of_mem h)]
  rfl

theorem placeOf_lt {chain more : List ChainBlock} {a b : ChainBlock}
    (h : ChainWF (chain ++ more)) (ha : a ∈ chain) (hb : b ∈ more) :
    placeOf (chain ++ more) a.hash < placeOf (chain ++ more) b.hash := by
  have hnotMem : b.hash ∉ chain.map (·.hash) := by
    intro hmem
    have hnodup := h.hashes
    rw [List.map_append, List.nodup_append] at hnodup
    exact hnodup.2.2 _ hmem _ (List.mem_map_of_mem hb) rfl
  have hlt : (chain.map (·.hash)).idxOf a.hash < (chain.map (·.hash)).length :=
    List.idxOf_lt_length_iff.mpr (List.mem_map_of_mem ha)
  rw [placeOf_append ha]
  show _ < ((chain ++ more).map (·.hash)).idxOf b.hash
  rw [List.map_append, List.idxOf_append_of_notMem hnotMem]
  exact lt_of_lt_of_le hlt (Nat.le_add_right _ _)

/-- The order of two events of the chain is not moved by blocks on top. -/
theorem chainBefore_append {chain more : List ChainBlock} {a b : EventRow}
    (ha : a.chainBlock ∈ chain) (hb : b.chainBlock ∈ chain) :
    ChainBefore (chain ++ more) a b ↔ ChainBefore chain a b := by
  have hpa : placeOf (chain ++ more) a.acceptingBlock = placeOf chain a.acceptingBlock :=
    placeOf_append ha
  have hpb : placeOf (chain ++ more) b.acceptingBlock = placeOf chain b.acceptingBlock :=
    placeOf_append hb
  rw [ChainBefore, ChainBefore, hpa, hpb]

/-- Events of a block further down stand before events of a block on top. -/
theorem chainBefore_of_mem {chain more : List ChainBlock} {a b : EventRow}
    (h : ChainWF (chain ++ more)) (ha : a.chainBlock ∈ chain) (hb : b.chainBlock ∈ more) :
    ChainBefore (chain ++ more) a b := by
  have hscore : a.acceptingDaa ≤ b.acceptingDaa :=
    (List.pairwise_append.mp h.scores).2.2 _ ha _ hb
  rcases lt_or_eq_of_le hscore with hlt | heq
  · exact .inl hlt
  · exact .inr ⟨heq, .inl (placeOf_lt h ha hb)⟩

theorem Sequenced.append {chain : List ChainBlock} {events : List EventRow}
    (more : List ChainBlock) (hplaced : ∀ e ∈ events, e.chainBlock ∈ chain) :
    Sequenced (chain ++ more) events ↔ Sequenced chain events := by
  constructor
  · intro h
    refine ⟨h.dense, fun a ha b hb hid ↦ (h.order a ha b hb hid).trans ?_⟩
    exact chainBefore_append (hplaced a ha) (hplaced b hb)
  · intro h
    refine ⟨h.dense, fun a ha b hb hid ↦ (h.order a ha b hb hid).trans ?_⟩
    exact (chainBefore_append (hplaced a ha) (hplaced b hb)).symm

/-! ## The invariant and the conditions -/

/-- What the operations keep: the events lie on the chain, in order. -/
structure OrderInvariant (w : Follower) : Prop where
  chain : ChainWF w.chain
  placed : ∀ e ∈ w.store.covenantEvents, e.chainBlock ∈ w.chain
  sequenced : Sequenced w.chain w.store.covenantEvents

/-- When a recovered event can be numbered: it stands after the recorded events
of its covenant that have its DAA, and after all of them when the covenant has
no event in the window and so is not renumbered. -/
def FitsIn (dec : Decoders) (chain : List ChainBlock) (covered : List CovenantId)
    (rows : List EventRow) (e : AcceptedBlockBatch × NewEvent) : Prop :=
  ∀ row ∈ rows, row.covenantId = e.2.covenantId →
    row.acceptingDaa = e.1.acceptingDaa ∨ e.2.covenantId ∉ covered →
      ChainBefore chain row (insertedRow dec rows e)

instance (dec : Decoders) (chain : List ChainBlock) (covered : List CovenantId)
    (rows : List EventRow) (e : AcceptedBlockBatch × NewEvent) :
    Decidable (FitsIn dec chain covered rows e) :=
  inferInstanceAs (Decidable (∀ row ∈ rows, _))

/-- The condition on an operation under which it keeps the sequences in order. -/
def Follower.KeepsOrder (dec : Decoders) (w : Follower) : FollowerOp → Prop
  | .skip _ => True
  | .apply _ => True
  | .rollback removed => ∀ e ∈ w.store.covenantEvents, e.acceptingBlock ∈ removed →
      w.store.isCanonical e.acceptingBlock = true
  | .recover gapLo gapHi blocks =>
      Inserts dec (FitsIn dec w.chain
        (coveredCovenants (mergeBlocks dec w.store blocks).1 gapLo gapHi))
        w.store.covenantEvents (recoveredEvents blocks)

namespace OrderInvariant

variable {dec : Decoders} {w : Follower}

theorem fresh (epoch : StreamEpoch) : OrderInvariant (.fresh epoch) where
  chain := ChainWF.nil
  placed := by simp [Follower.fresh, Store.fresh]
  sequenced := ⟨Dense.nil, by simp [Follower.fresh, Store.fresh]⟩

theorem skip {block : ChainBlock} (h : OrderInvariant w) (hnew : Extends w.chain block) :
    OrderInvariant { w with chain := w.chain ++ [block] } where
  chain := h.chain.extend hnew
  placed e he := List.mem_append_left _ (h.placed e he)
  sequenced := (Sequenced.append _ h.placed).mpr h.sequenced

/-! ### Apply -/

/-- The event loop of an apply, one appended row at a time. -/
theorem numbered {R : EventRow → EventRow → Prop} (dec : Decoders)
    (block : AcceptedBlockBatch) {events : List NewEvent} {rows : List EventRow} (next : Nat)
    (hdense : Dense rows) (horder : SeqOrdered R rows)
    (hrows : ∀ a ∈ rows, ∀ event ∈ events, a.covenantId = event.covenantId →
      ∀ seq next, R a (eventRow dec block event seq next))
    (hevents : events.Pairwise fun x y ↦ x.covenantId = y.covenantId →
      ∀ seq next seq' next', R (eventRow dec block x seq next) (eventRow dec block y seq' next')) :
    Dense (rows ++ (numberEvents dec block rows next events).map (numberedRow dec block)) ∧
      SeqOrdered R
        (rows ++ (numberEvents dec block rows next events).map (numberedRow dec block)) := by
  induction events generalizing rows next with
  | nil => simpa [numberEvents] using And.intro hdense horder
  | cons event rest ih =>
      obtain ⟨hhead, htail⟩ := List.pairwise_cons.mp hevents
      let row := eventRow dec block event (nextEventSeq rows event.covenantId) next
      have hdense' : Dense (rows ++ [row]) := hdense.insert rfl
      have hstep := ih (next + 1) hdense'
        (horder.insert rfl fun a ha hid ↦ hrows a ha event List.mem_cons_self hid _ _)
        (by
          intro a ha e he hid seq next'
          rcases List.mem_append.mp ha with ha | ha
          · exact hrows a ha e (List.mem_cons_of_mem _ he) hid seq next'
          · rw [List.mem_singleton.mp ha] at hid ⊢
            exact hhead e he hid _ _ _ _)
        htail
      rw [List.append_assoc] at hstep
      exact hstep

theorem apply {block : AcceptedBlockBatch} {s' : Store} {c : CommittedBatch}
    (h : OrderInvariant w) (hnew : Extends w.chain block.chainBlock)
    (htx : InTxOrder block.events)
    (hok : applyAcceptedBlock dec w.store block = .ok (s', c)) :
    OrderInvariant { store := s', chain := w.chain ++ [block.chainBlock] } := by
  obtain ⟨_, _, ⟨_, rfl⟩ | ⟨_, rfl⟩⟩ := applyAcceptedBlock_ok hok
  · exact h.skip hnew
  · have hwf := h.chain.extend hnew
    have hold := (Sequenced.append [block.chainBlock] h.placed).mpr h.sequenced
    obtain ⟨hdense, horder⟩ := numbered dec block w.store.nextStreamSeq hold.dense hold.seqOrdered
      (fun a ha event _ _ seq next ↦
        chainBefore_of_mem hwf (h.placed a ha) (List.mem_singleton.mpr rfl))
      (htx.imp fun hxy hid seq next seq' next' ↦ .inr ⟨rfl, .inr ⟨rfl, hxy hid⟩⟩)
    refine ⟨hwf, ?_, sequenced_of_seqOrdered hdense horder⟩
    intro e he
    rcases List.mem_append.mp he with he | he
    · exact List.mem_append_left _ (h.placed e he)
    · obtain ⟨x, _, rfl⟩ := List.mem_map.mp he
      exact List.mem_append_right _ (List.mem_singleton.mpr rfl)

/-! ### Rollback -/

/-- Deleting the events of a suffix of the chain. -/
theorem dropSuffix {keep gone : List ChainBlock} {removed : List BlockHash}
    {events : List EventRow} (hwf : ChainWF (keep ++ gone))
    (hgone : ∀ hash, hash ∈ removed ↔ hash ∈ gone.map (·.hash))
    (hplaced : ∀ e ∈ events, e.chainBlock ∈ keep ++ gone)
    (hseq : Sequenced (keep ++ gone) events) :
    (∀ e ∈ events.filter (·.acceptingBlock ∉ removed), e.chainBlock ∈ keep) ∧
      Sequenced keep (events.filter (·.acceptingBlock ∉ removed)) := by
  have hkeep : ∀ e ∈ events, e.acceptingBlock ∉ removed → e.chainBlock ∈ keep := by
    intro e he hnot
    refine (List.mem_append.mp (hplaced e he)).resolve_right fun hmem ↦ hnot ?_
    exact (hgone _).mpr (List.mem_map_of_mem hmem)
  have hdrop : ∀ e ∈ events, e.acceptingBlock ∈ removed → e.chainBlock ∈ gone := by
    intro e he hmem
    obtain ⟨b, hb, hhash⟩ := List.mem_map.mp ((hgone _).mp hmem)
    have heq : b = e.chainBlock :=
      hwf.eq_of_hash (List.mem_append_right _ hb) (hplaced e he) hhash
    rwa [← heq]
  have hfilter : ∀ e ∈ events.filter (·.acceptingBlock ∉ removed),
      e ∈ events ∧ e.acceptingBlock ∉ removed := fun e he ↦ by simpa using he
  have hmem : ∀ e ∈ events.filter (·.acceptingBlock ∉ removed), e.chainBlock ∈ keep :=
    fun e he ↦ hkeep e (hfilter e he).1 (hfilter e he).2
  refine ⟨hmem, (Sequenced.append gone hmem).mp (sequenced_of_seqOrdered ?_ ?_)⟩
  · refine hseq.dense.filter _ fun a ha b hb hid hka hkb ↦ ?_
    refine (hseq.order a ha b hb hid).mpr (chainBefore_of_mem hwf ?_ ?_)
    · exact hkeep a ha (by simpa using hka)
    · exact hdrop b hb (by simpa using hkb)
  · exact fun a ha b hb ↦ hseq.seqOrdered a (hfilter a ha).1 b (hfilter b hb).1

theorem rollback {removed : List BlockHash} {s' : Store} {c : CommittedRemovalBatch}
    (h : OrderInvariant w) (hsuffix : RemovesSuffix w.chain removed)
    (hcanonical : ∀ e ∈ w.store.covenantEvents, e.acceptingBlock ∈ removed →
      w.store.isCanonical e.acceptingBlock = true)
    (hok : rollbackRemovedBlocks w.store removed = .ok (s', c)) :
    OrderInvariant { store := s', chain := w.chain.filter (·.hash ∉ removed) } := by
  obtain ⟨keep, gone, hchain, hgone⟩ := hsuffix
  have hwf := h.chain
  have hplaced := h.placed
  have hsequenced := h.sequenced
  rw [hchain] at hwf hplaced hsequenced
  -- the rollback deletes the events of every removed block
  have hevents : s'.covenantEvents =
      w.store.covenantEvents.filter (·.acceptingBlock ∉ removed) := by
    obtain ⟨_, ⟨hnil, rfl, _⟩ | ⟨_, rfl, _⟩⟩ := rollbackRemovedBlocks_ok hok
    · symm
      refine List.filter_eq_self.mpr fun e he ↦ ?_
      rw [decide_eq_true_eq]
      intro hmem
      have hcan := mem_canonicalRemoved.mpr ⟨hmem, hcanonical e he hmem⟩
      rw [hnil] at hcan
      cases hcan
    · refine List.filter_congr fun e he ↦ ?_
      rw [decide_eq_decide, not_iff_not, mem_canonicalRemoved]
      exact ⟨And.left, fun hmem ↦ ⟨hmem, hcanonical e he hmem⟩⟩
  obtain ⟨hkept, hdropped⟩ := dropSuffix hwf hgone hplaced hsequenced
  constructor
  · rw [hchain, hwf.filter_suffix hgone]
    exact hwf.append_left
  · rw [hchain, hwf.filter_suffix hgone]
    show ∀ e ∈ s'.covenantEvents, _
    rw [hevents]
    exact hkept
  · rw [hchain, hwf.filter_suffix hgone]
    show Sequenced keep s'.covenantEvents
    rw [hevents]
    exact hdropped

/-! ### Recovery -/

/-- What the merges of a recovery keep: provisional sequences, in chain order
where the renumbering will not look at the DAA. -/
structure Provisional (chain : List ChainBlock) (covered : List CovenantId)
    (events : List EventRow) : Prop where
  dense : Dense events
  order : SeqOrdered (fun a b ↦ a.acceptingDaa = b.acceptingDaa ∨ b.covenantId ∉ covered →
    ChainBefore chain a b) events

theorem Provisional.insert {chain : List ChainBlock} {covered : List CovenantId}
    {events : List EventRow} {e : AcceptedBlockBatch × NewEvent}
    (h : Provisional chain covered events) (hfits : FitsIn dec chain covered events e) :
    Provisional chain covered (events ++ [insertedRow dec events e]) :=
  ⟨h.dense.insert rfl, h.order.insert rfl hfits⟩

/-- The renumbering turns provisional sequences into chain order. -/
theorem Provisional.finalize {s : Store} {chain : List ChainBlock} {gapLo gapHi : Nat}
    (h : Provisional chain (coveredCovenants s gapLo gapHi) s.covenantEvents)
    (merged : MergeCounts) :
    Sequenced chain (finalizeGapRecovery s gapLo gapHi merged).covenantEvents := by
  have hevents := finalizeGapRecovery_events h.dense.seqKeyed gapLo gapHi merged
  generalize (finalizeGapRecovery s gapLo gapHi merged).covenantEvents = final at hevents
  refine sequenced_of_seqOrdered ?_ ?_
  · intro id
    rw [hevents id]
    by_cases hid : id ∈ coveredCovenants s gapLo gapHi
    · rw [if_pos hid]
      have hperm := renumbered_seqs (h.dense.seqKeyed.nodup id)
      rwa [renumbered, List.length_map] at *
    · rw [if_neg hid]
      exact h.dense id
  · intro a ha b hb hid hlt
    have ha' : a ∈ eventsOf final b.covenantId := mem_eventsOf.mpr ⟨ha, hid⟩
    have hb' : b ∈ eventsOf final b.covenantId := mem_eventsOf.mpr ⟨hb, rfl⟩
    generalize b.covenantId = id at ha' hb'
    rw [hevents] at ha' hb'
    by_cases hcovered : id ∈ coveredCovenants s gapLo gapHi
    · rw [if_pos hcovered] at ha' hb'
      obtain ⟨x, hx, rfl⟩ := List.mem_map.mp ha'
      obtain ⟨y, hy, rfl⟩ := List.mem_map.mp hb'
      have hrank : rankIn (eventsOf s.covenantEvents id) x <
          rankIn (eventsOf s.covenantEvents id) y := Int.ofNat_lt.mp hlt
      have hle := chronoLe_of_rankIn_lt (h.dense.seqKeyed.nodup id) hx hy hrank
      obtain ⟨hx, hidx⟩ := mem_eventsOf.mp hx
      obtain ⟨hy, hidy⟩ := mem_eventsOf.mp hy
      rcases hle with hdaa | ⟨hdaa, hseq⟩
      · exact .inl hdaa
      · -- a tie of the DAA is broken by the provisional sequence
        have hne : x.seq ≠ y.seq := by
          intro heq
          rw [h.dense.seqKeyed.eq_of_seq hx hy (hidx.trans hidy.symm) heq] at hrank
          exact lt_irrefl _ hrank
        exact h.order x hx y hy (hidx.trans hidy.symm) (lt_of_le_of_ne hseq hne) (.inl hdaa)
    · rw [if_neg hcovered] at ha' hb'
      obtain ⟨ha, hida⟩ := mem_eventsOf.mp ha'
      obtain ⟨hb, hidb⟩ := mem_eventsOf.mp hb'
      exact h.order a ha b hb (hida.trans hidb.symm) hlt (.inr (by rwa [hidb]))

theorem mem_finalize_chainBlock {s : Store} {gapLo gapHi : Nat} {merged : MergeCounts}
    (h : SeqKeyed s.covenantEvents) {e : EventRow}
    (he : e ∈ (finalizeGapRecovery s gapLo gapHi merged).covenantEvents) :
    ∃ old ∈ s.covenantEvents, e.chainBlock = old.chainBlock := by
  have he' := mem_eventsOf.mpr ⟨he, Eq.refl e.covenantId⟩
  generalize e.covenantId = id at he'
  rw [finalizeGapRecovery_events h] at he'
  split at he'
  · obtain ⟨old, hold, rfl⟩ := List.mem_map.mp he'
    exact ⟨old, (mem_eventsOf.mp hold).1, rfl⟩
  · exact ⟨e, (mem_eventsOf.mp he').1, rfl⟩

theorem recover {gapLo gapHi : Nat} {blocks : List AcceptedBlockBatch}
    (h : OrderInvariant w) (hblocks : ∀ block ∈ blocks, block.chainBlock ∈ w.chain)
    (hfits : Inserts dec (FitsIn dec w.chain
        (coveredCovenants (mergeBlocks dec w.store blocks).1 gapLo gapHi))
        w.store.covenantEvents (recoveredEvents blocks)) :
    OrderInvariant { w with store := recoverBlocks dec w.store gapLo gapHi blocks } := by
  have hmem : ∀ e ∈ recoveredEvents blocks, e.1.chainBlock ∈ w.chain :=
    fun e he ↦ hblocks e.1 (mem_recoveredEvents he)
  have hmerged := mergeBlocks_invariant
    (fun rows _ ↦ Provisional w.chain
      (coveredCovenants (mergeBlocks dec w.store blocks).1 gapLo gapHi) rows ∧
      ∀ row ∈ rows, row.chainBlock ∈ w.chain)
    (fun rows _ e hrows _ hok ↦ ⟨hrows.1.insert hok.1, fun row hrow ↦ by
      rcases List.mem_append.mp hrow with hrow | hrow
      · exact hrows.2 row hrow
      · rw [List.mem_singleton.mp hrow]
        exact hok.2⟩)
    (hfits.and_of_mem hmem)
    ⟨⟨h.sequenced.dense, fun a ha b hb hid hlt _ ↦ h.sequenced.seqOrdered a ha b hb hid hlt⟩,
      h.placed⟩
  refine ⟨h.chain, ?_, hmerged.1.finalize _⟩
  intro e he
  obtain ⟨old, hold, heq⟩ := mem_finalize_chainBlock hmerged.1.dense.seqKeyed he
  rw [heq]
  exact hmerged.2 old hold

end OrderInvariant

/-! ## Runs -/

theorem OrderInvariant.commit {dec : Decoders} {w w' : Follower} {op : FollowerOp}
    (h : OrderInvariant w) (hfollows : w.Follows op) (hkeeps : w.KeepsOrder dec op)
    (hok : op.commit dec w = .ok w') : OrderInvariant w' := by
  cases op with
  | skip block =>
      obtain rfl := Except.ok.inj hok
      exact h.skip hfollows
  | apply block =>
      obtain ⟨applied, hx, rfl⟩ := map_eq_ok.mp hok
      exact h.apply hfollows.1 hfollows.2 hx
  | rollback removed =>
      obtain ⟨rolled, hx, rfl⟩ := map_eq_ok.mp hok
      exact h.rollback hfollows hkeeps hx
  | recover gapLo gapHi blocks =>
      obtain rfl := Except.ok.inj hok
      exact h.recover hfollows hkeeps

/-- **Sequence order is chain order**, in every state of a run whose operations
follow the chain and keep the order. -/
theorem run_sequenced (dec : Decoders) (epoch : StreamEpoch) (ops : List FollowerOp)
    (h : Runs.Guarded (FollowerOp.commit dec)
      (fun w op ↦ w.Follows op ∧ w.KeepsOrder dec op) (.fresh epoch) ops) :
    Sequenced (FollowerOp.run dec (.fresh epoch) ops).chain
      (FollowerOp.run dec (.fresh epoch) ops).store.covenantEvents :=
  (Runs.run_invariant_of_guarded OrderInvariant _
    (fun _ _ _ hw hop hok ↦ hw.commit hop.1 hop.2 hok) (OrderInvariant.fresh epoch) h).sequenced

/-! ## A window recovered well, and one recovered late -/

/-- A block with one event. -/
def eventBatch (block : BitVec 256) (daa : Nat) (covenant : BitVec 256) (kind : EventKind)
    (tx : BitVec 256) (txIndex : Nat) : AcceptedBlockBatch :=
  { acceptingBlock := ⟨block⟩
    acceptingDaa := daa
    events := [{ covenantId := ⟨covenant⟩
                 kind
                 txid := ⟨tx⟩
                 txIndex
                 eventIndex := 0
                 payload := none
                 laneNamespace := none }] }

/-- Block 2 is skipped and recovered behind block 3, and block 3 is rolled back. -/
def healedRun : List FollowerOp :=
  [.apply (eventBatch 1 10 9 .genesis 1 0), .skip ⟨⟨2⟩, 20⟩,
    .apply (eventBatch 3 30 9 .transition 5 5),
    .recover 15 25 [eventBatch 2 20 9 .transition 2 0], .rollback [⟨3⟩]]

theorem healedRun_sequenced :
    Sequenced (FollowerOp.run .blind (.fresh ⟨0⟩) healedRun).chain
      (FollowerOp.run .blind (.fresh ⟨0⟩) healedRun).store.covenantEvents :=
  run_sequenced .blind ⟨0⟩ healedRun
    ⟨⟨⟨by decide, by decide⟩, trivial⟩,
      ⟨show Extends _ _ by decide, trivial⟩,
      ⟨⟨by decide, by decide⟩, trivial⟩,
      ⟨show ∀ block ∈ _, _ by decide, show Inserts _ _ _ _ by decide⟩,
      ⟨⟨[⟨⟨1⟩, 10⟩, ⟨⟨2⟩, 20⟩], [⟨⟨3⟩, 30⟩], rfl, fun _ ↦ Iff.rfl⟩, show ∀ e ∈ _, _ by decide⟩,
      trivial⟩

/-- The recovery also meets a burn of block 3 that the follower could not see,
of a transaction before the one it recorded. -/
def lateBurnRun : List FollowerOp :=
  [.apply (eventBatch 1 10 9 .genesis 1 0), .skip ⟨⟨2⟩, 20⟩,
    .apply (eventBatch 3 30 9 .transition 5 5),
    .recover 15 25 [eventBatch 2 20 9 .transition 2 0, eventBatch 3 30 9 .burn 3 2]]

/-- The run follows the chain, yet of two events of one block the later
transaction has the lower sequence. -/
theorem late_burn_out_of_order :
    Runs.Guarded (FollowerOp.commit .blind) Follower.Follows (.fresh ⟨0⟩) lateBurnRun ∧
      ∃ a ∈ (FollowerOp.run .blind (.fresh ⟨0⟩) lateBurnRun).store.covenantEvents,
        ∃ b ∈ (FollowerOp.run .blind (.fresh ⟨0⟩) lateBurnRun).store.covenantEvents,
          a.covenantId = b.covenantId ∧ a.acceptingBlock = b.acceptingBlock ∧
            a.txIndex = some 2 ∧ b.txIndex = some 5 ∧ b.seq < a.seq ∧
            ¬Sequenced (FollowerOp.run .blind (.fresh ⟨0⟩) lateBurnRun).chain
              (FollowerOp.run .blind (.fresh ⟨0⟩) lateBurnRun).store.covenantEvents := by
  refine ⟨⟨⟨by decide, by decide⟩, show Extends _ _ by decide, ⟨by decide, by decide⟩,
    show ∀ block ∈ _, _ by decide, trivial⟩, ?_⟩
  have hpair : ∃ a ∈ (FollowerOp.run .blind (.fresh ⟨0⟩) lateBurnRun).store.covenantEvents,
      ∃ b ∈ (FollowerOp.run .blind (.fresh ⟨0⟩) lateBurnRun).store.covenantEvents,
        a.covenantId = b.covenantId ∧ a.acceptingBlock = b.acceptingBlock ∧
          a.txIndex = some 2 ∧ b.txIndex = some 5 ∧ b.seq < a.seq ∧
          ChainBefore (FollowerOp.run .blind (.fresh ⟨0⟩) lateBurnRun).chain a b := by
    decide
  obtain ⟨a, ha, b, hb, hid, hblock, hta, htb, hlt, hbefore⟩ := hpair
  refine ⟨a, ha, b, hb, hid, hblock, hta, htb, hlt, fun hseq ↦ ?_⟩
  exact lt_asymm hlt ((hseq.order a ha b hb hid).mpr hbefore)

end Kascov
