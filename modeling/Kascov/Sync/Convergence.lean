import Kascov.Sync.Reorg

/-!
# Reorg convergence

Passes follow a chain that may turn to another line between any two calls, and any of them
may fail at a fetch after it has rolled blocks back.  Where every block still wanted is still
recorded, the rows after a pass that returns are those of a fresh index of the same chain,
as far as the chain never left the line the index was started on.
-/

namespace Kascov

open Commits

/-- A call of `sync_once`, with the tip of the chain the node has selected. -/
structure PassCall where
  tip : BlockHash
  node : PassSource
  fromBlock : Option BlockHash
  decoder : ApplicationDecoder

/-- An index that passes have followed: the store, the block it was started at, and the tips
of the chains it has turned to. -/
structure Followed where
  store : Store
  start : Option BlockHash
  tips : List BlockHash

section Run

variable (compute : ComputeCovenantId) (dec : Decoders)

namespace PassCall

/-- The pass. -/
def sync (call : PassCall) : Prog Store Error SyncStats :=
  syncOnce compute dec call.node call.fromBlock call.decoder

/-- The pass up to its walk. -/
def turn (call : PassCall) : Prog Store Error BlockHash := do
  let c ← openPass dec call.node call.fromBlock
  let step ← answer (call.node.virtualChainFrom c)
  rollbackStep step.removed
  return c

/-- The rest of the pass, from the block it started at. -/
def follow (call : PassCall) (step : ChainStep) : Prog Store Error SyncStats := do
  let vars ← walkAdded compute dec call.node call.decoder step
  closePass dec vars

end PassCall

namespace Followed

def fresh (epoch : StreamEpoch) : Followed := ⟨.fresh epoch, none, []⟩

/-- A call, whether it returns or fails. -/
def after (f : Followed) (call : PassCall) : Followed where
  store := (call.sync compute dec f.store).2
  start := f.start.or (openPass dec call.node call.fromBlock f.store).1.toOption
  tips := if (call.turn dec f.store).1.isOk then call.tip :: f.tips else f.tips

def run (f : Followed) (calls : List PassCall) : Followed :=
  calls.foldl (after compute dec) f

variable (tree : ChainTree)

/-- What lies behind the index: the line of its start, as far as every chain it turned to
had it. -/
def base (f : Followed) : List BlockHash :=
  match f.start with
  | none => []
  | some start => (tree.lines.path start).filter fun b ↦ f.tips.all (b ∈ tree.lines.path ·)

/-- The blocks of the line of the start that a chain left out and the present one has. -/
def lost (f : Followed) (tip : BlockHash) : List BlockHash :=
  match f.start with
  | none => []
  | some start => (tree.lines.shared start tip).filter (· ∉ f.base tree)

/-- **The condition on a call.**  When the node answers, every block that the line of the
cursor shares with its chain, behind the base, and that touches a covenant is recorded. -/
def Recorded (f : Followed) (call : PassCall) : Prop :=
  ∀ c ∈ f.store.cursor, (call.node.virtualChainFrom c).isOk = true →
    Past.Forall (fun past b ↦
        touchedBy (tree.history past) (tree.history [b]) ≠ [] → f.store.isCanonical b = true)
      [] ((tree.lines.shared c call.tip).filter (· ∉ f.base tree))

/-- Every call of a run meets the condition. -/
def RecordedRun (f : Followed) : List PassCall → Prop
  | [] => True
  | call :: calls => f.Recorded tree call ∧ RecordedRun (f.after compute dec call) calls

instance (f : Followed) (call : PassCall) : Decidable (f.Recorded tree call) :=
  inferInstanceAs (Decidable (∀ c ∈ f.store.cursor, _))

instance RecordedRun.decidable (f : Followed) :
    (calls : List PassCall) → Decidable (RecordedRun compute dec tree f calls)
  | [] => .isTrue trivial
  | call :: calls =>
      let _ := RecordedRun.decidable (f.after compute dec call) calls
      inferInstanceAs (Decidable (_ ∧ _))

/-- What every call keeps. -/
def Law (f : Followed) : Prop :=
  f.start = none ∧ f.tips = [] ∧ f.store.cursor = none ∧ Indexed tree compute [] f.store ∨
    ∃ start held, f.start = some start ∧ Stretch tree compute (f.base tree) held f.store

end Followed

end Run

/-! ## The stages of a call -/

section Stages

variable {compute : ComputeCovenantId} {dec : Decoders} {tree : ChainTree} {node : PassSource}
  {fromBlock : Option BlockHash} {f : Followed} {call : PassCall} {c : BlockHash}
  {held : List BlockHash} {s s' : Store}

theorem noteTip_ok {u : Unit} (h : noteTip node s = (.ok u, s')) :
    s' = s ∨ ∃ daa, s' = s.setTip daa := by
  unfold noteTip at h
  cases hdag : node.dagInfo with
  | ok dag =>
      rw [hdag] at h
      obtain ⟨rfl, -⟩ := Prod.mk.inj (Except.ok.inj (commit_eq_ok.mp h))
      exact .inr ⟨_, rfl⟩
  | error e =>
      rw [hdag] at h
      exact .inl (pure_eq_ok.mp h).2.symm

theorem noteTip_ne_error {e : Error} : noteTip node s ≠ (.error e, s') := by
  intro h
  unfold noteTip at h
  cases hdag : node.dagInfo with
  | ok dag =>
      rw [hdag] at h
      cases (commit_eq_error.mp h).1
  | error e =>
      rw [hdag] at h
      exact pure_ne_error h

theorem freshStart_ok (h : freshStart node fromBlock s = (.ok c, s')) : s' = s := by
  unfold freshStart at h
  split at h
  · exact (pure_eq_ok.mp h).2.symm
  · exact (answer_eq_ok.mp h).2.symm

theorem freshStart_error {e : Error} (h : freshStart node fromBlock s = (.error e, s')) :
    s' = s := by
  unfold freshStart at h
  split at h
  · exact absurd h pure_ne_error
  · exact (answer_eq_error.mp h).2.symm

/-- What an opening that returned did: it went on from the cursor, or started an index. -/
theorem openPass_cases (h : openPass dec node fromBlock s = (.ok c, s')) :
    ∃ noted, (noted = s ∨ ∃ daa, noted = s.setTip daa) ∧
      (s.cursor = some c ∧ s' = noted ∨
        s.cursor = none ∧ ∃ batch, applyBatch dec (.empty c) noted = (.ok batch, s')) := by
  unfold openPass at h
  obtain ⟨_, noted, hnote, h⟩ := bind_eq_ok.mp h
  have hnoted := noteTip_ok hnote
  have hcursor : noted.cursor = s.cursor := by
    rcases hnoted with rfl | ⟨daa, rfl⟩
    · rfl
    · rfl
  refine ⟨noted, hnoted, ?_⟩
  obtain ⟨cursor, s₁, hread, h⟩ := bind_eq_ok.mp h
  obtain ⟨heq, rfl⟩ := read_eq_ok.mp hread
  rw [← hcursor, heq]
  cases cursor with
  | some cursor =>
      obtain ⟨rfl, rfl⟩ := pure_eq_ok.mp h
      exact .inl ⟨rfl, rfl⟩
  | none =>
      obtain ⟨start, s₁, hstart, h⟩ := bind_eq_ok.mp h
      obtain ⟨batch, s₂, happly, h⟩ := bind_eq_ok.mp h
      obtain ⟨rfl, rfl⟩ := pure_eq_ok.mp h
      exact .inr ⟨rfl, batch, freshStart_ok hstart ▸ happly⟩

/-- An opening that failed started no index. -/
theorem openPass_error {e : Error} (h : openPass dec node fromBlock s = (.error e, s')) :
    s.cursor = none ∧ (s' = s ∨ ∃ daa, s' = s.setTip daa) := by
  unfold openPass at h
  obtain h | ⟨_, noted, hnote, h⟩ := bind_eq_error.mp h
  · exact absurd h noteTip_ne_error
  · have hnoted := noteTip_ok hnote
    have hcursor : noted.cursor = s.cursor := by
      rcases hnoted with rfl | ⟨daa, rfl⟩
      · rfl
      · rfl
    obtain h | ⟨cursor, s₁, hread, h⟩ := bind_eq_error.mp h
    · exact absurd h read_ne_error
    · obtain ⟨heq, rfl⟩ := read_eq_ok.mp hread
      rw [← hcursor, heq]
      cases cursor with
      | some cursor => exact absurd h pure_ne_error
      | none =>
          refine ⟨rfl, ?_⟩
          obtain h | ⟨start, s₁, hstart, h⟩ := bind_eq_error.mp h
          · exact freshStart_error h ▸ hnoted
          · obtain h | ⟨batch, s₂, -, h⟩ := bind_eq_error.mp h
            · exact (commit_eq_error.mp h).2 ▸ freshStart_ok hstart ▸ hnoted
            · exact absurd h pure_ne_error

theorem Indexed.noted {noted : Store} (h : Indexed tree compute held s)
    (hnoted : noted = s ∨ ∃ daa, noted = s.setTip daa) : Indexed tree compute held noted := by
  rcases hnoted with rfl | ⟨daa, rfl⟩
  · exact h
  · exact h.setTip daa

/-- The line of its start lies behind an index that never turned. -/
theorem Followed.base_started (tree : ChainTree) (s : Store) (start : BlockHash) :
    base tree ⟨s, some start, []⟩ = tree.lines.path start :=
  List.filter_eq_self.mpr fun _ _ ↦ rfl

/-- What lies behind the index after a turn to another chain. -/
theorem Followed.base_cons (tree : ChainTree) (s : Store) (start : Option BlockHash)
    (tips : List BlockHash) (tip : BlockHash) :
    base tree ⟨s, start, tip :: tips⟩ =
      (base tree ⟨s, start, tips⟩).filter (· ∈ tree.lines.path tip) := by
  cases start with
  | none => rfl
  | some start =>
      change (tree.lines.path start).filter _ = ((tree.lines.path start).filter _).filter _
      rw [List.filter_filter]
      rfl

/-- **The opening of a call.**  It returns the cursor, which is the start of a fresh index. -/
theorem Followed.Law.opened (h : f.Law compute tree)
    (hopen : openPass dec node fromBlock f.store = (.ok c, s)) :
    s.cursor = some c ∧ (∃ start, f.start.or (some c) = some start) ∧
      (f.store.cursor = some c ∧ f.start.or (some c) = f.start ∨
        base tree { f with start := f.start.or (some c) } = tree.lines.path c) ∧
      ∃ held, Stretch tree compute
        (base tree { f with start := f.start.or (some c) }) held s := by
  obtain ⟨noted, hnoted, hstep⟩ := openPass_cases hopen
  rcases h with ⟨hstart, htips, hnone, hindexed⟩ | ⟨start, held, hstart, hstretch⟩
  · rcases hstep with ⟨hcursor, -⟩ | ⟨-, batch, happly⟩
    · exact nomatch hnone.symm.trans hcursor
    · -- a fresh index: the whole line of the start lies behind it
      have hempty := hindexed.noted hnoted
      obtain ⟨-, ⟨hold, -⟩ | ⟨-, rfl⟩⟩ := applyBatch_ok happly
      · exact absurd (hempty.canonical _ hold) List.not_mem_nil
      · have happlied := hempty.checkpoint dec (b := c) 0 fun h0 ↦ absurd h0 (Nat.lt_irrefl 0)
        have hbase : base tree { f with start := f.start.or (some c) } = tree.lines.path c := by
          rw [hstart, htips]
          exact base_started tree f.store c
        refine ⟨rfl, ⟨c, by rw [hstart]; rfl⟩, .inr hbase, [], happlied, c, rfl, ?_⟩
        rw [hbase, List.append_nil]
  · obtain ⟨c', hcursor, hline⟩ := hstretch.cursor
    rcases hstep with ⟨hc, rfl⟩ | ⟨hnone, -⟩
    · obtain rfl := Option.some.inj (hcursor.symm.trans hc)
      have hnotedCursor : s.cursor = some c' := by
        rcases hnoted with rfl | ⟨daa, rfl⟩
        · exact hcursor
        · exact hcursor
      have hsame : f.start.or (some c') = f.start := by rw [hstart]; rfl
      refine ⟨hnotedCursor, ⟨start, by rw [hstart]; rfl⟩, .inl ⟨hc, hsame⟩, held,
        hstretch.indexed.noted hnoted, c', hnotedCursor, ?_⟩
      rw [hsame]
      exact hline
    · exact nomatch hnone.symm.trans hcursor

/-- A stretch that each block leaves untouched is untouched. -/
theorem touchedBy_blocks {tree : ChainTree} {past blocks : List BlockHash}
    (h : ∀ pre b rest, blocks = pre ++ b :: rest →
      touchedBy (tree.history (past ++ pre)) (tree.history [b]) = []) :
    touchedBy (tree.history past) (tree.history blocks) = [] := by
  induction blocks using List.reverseRecOn with
  | nil => rfl
  | append_singleton blocks b ih =>
      rw [tree.history_append, touchedBy_append, ← tree.history_append, h blocks b [] rfl,
        List.append_nil]
      exact ih fun pre x rest heq ↦ h pre x (rest ++ [b]) (by rw [heq]; simp)

/-- **The rollback of a call.**  What is left is all that the line of the cursor shares with
the chain behind the base, when what was wanted of it was recorded. -/
theorem Stretch.turned {base : List BlockHash} {tip : BlockHash} (htree : tree.Consistent)
    (h : Stretch tree compute base held s) (hcursor : s.cursor = some c)
    (hrecorded : Past.Forall (fun past b ↦
        touchedBy (tree.history past) (tree.history [b]) ≠ [] → s.isCanonical b = true)
      [] ((tree.lines.shared c tip).filter (· ∉ base)))
    (hroll : rollbackStep (tree.chainStep c tip).removed s = (.ok (), s')) :
    ∃ kept, base.filter (· ∈ tree.lines.path tip) ++ kept = tree.lines.shared c tip ∧
      s'.cursor = some c ∧
      Stretch tree compute (base.filter (· ∈ tree.lines.path tip)) kept s' := by
  obtain ⟨c', hc', hline⟩ := h.cursor
  obtain rfl := Option.some.inj (hcursor.symm.trans hc')
  obtain ⟨kept, hkept, hcut⟩ := tree.lines.cut hline tip
  have hshared : tree.lines.shared c tip <+: tree.lines.path c :=
    ⟨_, tree.lines.shared_append_apart c tip⟩
  have hcursor' : s'.cursor = some c := (rollbackStep_ok hroll).1.trans hcursor
  have hremoved : ∀ b, b ∈ (tree.chainStep c tip).removed ↔
      b ∈ tree.lines.path c ∧ b ∉ tree.lines.path tip := by
    intro b
    rw [ChainTree.chainStep, List.mem_reverse, tree.lines.mem_apart]
  have hheld : ∀ b ∈ held, b ∈ tree.lines.path c :=
    fun b hb ↦ hline.subset (List.mem_append_right _ hb)
  have hvalid := htree.valid_of_line hline
  suffices hindexed : Indexed tree compute kept s' from
    ⟨kept, hkept, hcursor', hindexed, c, hcursor', hkept ▸ hshared⟩
  rcases hcut with ⟨rest, rfl, hrest⟩ | ⟨gap, rfl, hon⟩
  · refine h.indexed.rollback hvalid (fun b hb hmem ↦ ?_) (fun b hb ↦ ?_) hroll
    · have hmemShared : b ∈ tree.lines.shared c tip := hkept ▸ List.mem_append_right _ hb
      exact ((hremoved b).mp hmem).2 (tree.lines.mem_shared.mp hmemShared).2
    · exact (hremoved b).mpr ⟨hheld b (List.mem_append_right _ hb), hrest b hb⟩
  · -- what is wanted beyond the stretch is not recorded, so it touches nothing
    have hrolled : Indexed tree compute held s' := by
      rw [← List.append_nil held] at h hvalid
      refine h.indexed.rollback hvalid (fun b hb hmem ↦ ?_) (fun b hb ↦ nomatch hb) hroll
      exact ((hremoved b).mp hmem).2 (hon b hb)
    have hnodup : (tree.lines.shared c tip).Nodup := (tree.lines.nodup c).filter _
    have hwanted : (tree.lines.shared c tip).filter (· ∉ base) = held ++ gap := by
      rw [← hkept] at hnodup ⊢
      rw [List.filter_append, List.filter_eq_nil_iff.mpr, List.nil_append,
        List.filter_eq_self.mpr]
      · intro b hb
        rw [decide_eq_true_eq]
        intro hbase
        have hpath : b ∈ tree.lines.path tip := by
          have hmem : b ∈ tree.lines.shared c tip := hkept ▸ List.mem_append_right _ hb
          exact (tree.lines.mem_shared.mp hmem).2
        exact (List.nodup_append.mp hnodup).2.2 b
          (List.mem_filter.mpr ⟨hbase, decide_eq_true hpath⟩) b hb rfl
      · intro b hb
        rw [decide_eq_true_eq, not_not]
        exact List.mem_of_mem_filter hb
    rw [hwanted] at hrecorded
    refine hrolled.quiet (htree.valid_of_line (hkept ▸ hshared)) (touchedBy_blocks ?_)
    rintro pre b rest rfl
    by_contra htouched
    rw [← List.append_assoc] at hrecorded
    have hcanonical := h.indexed.canonical b (hrecorded.at htouched)
    rw [← hkept] at hnodup
    have hall := (List.nodup_append.mp hnodup).2.1
    rw [List.nodup_append] at hall
    exact hall.2.2 b hcanonical b (List.mem_append_right _ List.mem_cons_self) rfl

/-- **The walk and the end of a call.** -/
theorem Stretch.followed {base kept : List BlockHash} (htree : tree.Consistent)
    (htells : tree.Tells call.tip call.node) (hfork : base ++ kept = tree.lines.shared c call.tip)
    (h : Stretch tree compute base kept s) {result : Except Error SyncStats}
    (hfollow : call.follow compute dec (tree.chainStep c call.tip) s = (result, s')) :
    (∃ held, Stretch tree compute base held s') ∧ ∀ stats, result = .ok stats →
      Indexed tree compute (kept ++ tree.lines.apart c call.tip) s' := by
  have hstart : Walking tree compute base kept []
      { stats := { reorgedOut := (tree.chainStep c call.tip).removed.length } } s :=
    .start h rfl
  rcases result with e | stats
  · refine ⟨?_, fun stats hok ↦ nomatch hok⟩
    obtain hwalk | ⟨vars, s₁, hwalk, hclose⟩ := bind_eq_error.mp hfollow
    · exact hstart.run_error htree hfork htells rfl hwalk
    · obtain rfl := closePass_error hclose
      obtain ⟨done, -, -, hstretch, -⟩ := (hstart.run htree hfork htells rfl hwalk).stretch
      exact ⟨_, hstretch⟩
  · obtain ⟨vars, s₁, hwalk, hclose⟩ := bind_eq_ok.mp hfollow
    obtain ⟨hindexed, hstretch⟩ :=
      (hstart.run htree hfork htells rfl hwalk).close htree hfork hclose
    exact ⟨hstretch, fun _ _ ↦ hindexed⟩

/-- **One call.**  It keeps the law, and when it returns the store has indexed all of the
chain behind the base. -/
theorem Followed.Law.after (htree : tree.Consistent) (htells : tree.Tells call.tip call.node)
    (h : f.Law compute tree) (hrecorded : f.Recorded tree call) :
    (f.after compute dec call).Law compute tree ∧
      ∀ stats, (call.sync compute dec f.store).1 = .ok stats →
        (∃ start, (f.after compute dec call).start = some start) ∧
        call.tip ∈ (f.after compute dec call).tips ∧
        ∃ indexed, (f.after compute dec call).base tree ++ indexed = tree.lines.path call.tip ∧
          Indexed tree compute indexed (f.after compute dec call).store := by
  have hsync : call.sync compute dec = openPass dec call.node call.fromBlock >>= fun c ↦
      answer (call.node.virtualChainFrom c) >>= fun step ↦
        rollbackStep step.removed >>= fun _ ↦ call.follow compute dec step := rfl
  have hturn : call.turn dec = openPass dec call.node call.fromBlock >>= fun c ↦
      answer (call.node.virtualChainFrom c) >>= fun step ↦
        rollbackStep step.removed >>= fun _ ↦ pure c := rfl
  unfold Followed.after
  rcases hopen : openPass dec call.node call.fromBlock f.store with ⟨e | c, s₁⟩
  · -- no index was started
    rw [hsync, hturn, bind_of_error hopen, bind_of_error hopen]
    obtain ⟨hnone, hs₁⟩ := openPass_error hopen
    refine ⟨.inl ?_, fun stats hok ↦ nomatch hok⟩
    rcases h with ⟨hstart, htips, -, hindexed⟩ | ⟨_, _, -, hstretch⟩
    · refine ⟨by rw [hstart]; rfl, htips, ?_, hindexed.noted hs₁⟩
      rcases hs₁ with rfl | ⟨daa, rfl⟩
      · exact hnone
      · exact hnone
    · obtain ⟨c, hcursor, -⟩ := hstretch.cursor
      exact nomatch hnone.symm.trans hcursor
  · obtain ⟨hcursor, ⟨start, hstart⟩, hold, held, hstretch⟩ := h.opened hopen
    rw [hsync, hturn, bind_of_ok hopen, bind_of_ok hopen]
    rcases hanswer : call.node.virtualChainFrom c with e | step
    · exact ⟨.inr ⟨start, held, hstart, hstretch⟩, fun stats hok ↦ nomatch hok⟩
    · obtain rfl := htells.walks c step hanswer
      have hread : ∀ {α : Type} (k : ChainStep → Prog Store Error α),
          (answer (.ok (tree.chainStep c call.tip)) >>= k) s₁ =
            k (tree.chainStep c call.tip) s₁ := fun k ↦ bind_of_ok rfl
      rw [hread, hread]
      rcases hroll : rollbackStep (tree.chainStep c call.tip).removed s₁ with ⟨e | u, s₂⟩
      · obtain rfl := rollbackStep_error hroll
        rw [bind_of_error hroll, bind_of_error hroll]
        exact ⟨.inr ⟨start, held, hstart, hstretch⟩, fun stats hok ↦ nomatch hok⟩
      · rw [bind_of_ok hroll, bind_of_ok hroll]
        have hwanted : Past.Forall (fun past b ↦
            touchedBy (tree.history past) (tree.history [b]) ≠ [] → s₁.isCanonical b = true) []
            ((tree.lines.shared c call.tip).filter
              (· ∉ Followed.base tree { f with start := f.start.or (some c) })) := by
          rcases hold with ⟨hf, hsame⟩ | hbase
          · have hcall := hrecorded c hf (by rw [hanswer]; rfl)
            simp only [(openPass_ok hopen).2]
            rw [hsame]
            exact hcall
          · rw [hbase, List.filter_eq_nil_iff.mpr]
            · exact trivial
            · intro b hb
              rw [decide_eq_true_eq, not_not]
              exact (tree.lines.mem_shared.mp hb).1
        obtain ⟨kept, hfork, -, hturned⟩ := hstretch.turned htree hcursor hwanted hroll
        rcases hfollow : call.follow compute dec (tree.chainStep c call.tip) s₂ with ⟨result, s₃⟩
        obtain ⟨⟨held', hstretch'⟩, hok⟩ := hturned.followed htree htells hfork hfollow
        have hbase := Followed.base_cons tree s₃ (f.start.or (some c)) f.tips call.tip
        refine ⟨.inr ⟨start, held', hstart, ?_⟩, fun stats hstats ↦
          ⟨⟨start, hstart⟩, List.mem_cons_self, _, ?_, hok stats hstats⟩⟩
        · change Stretch tree compute
            (Followed.base tree ⟨s₃, f.start.or (some c), call.tip :: f.tips⟩) held' s₃
          rw [hbase]
          exact hstretch'
        · change Followed.base tree ⟨s₃, f.start.or (some c), call.tip :: f.tips⟩ ++ _ = _
          rw [hbase, ← List.append_assoc]
          exact (congrArg (· ++ _) hfork).trans (tree.lines.shared_append_apart' c call.tip)

end Stages

/-! ## Runs -/

section Runs

variable {compute : ComputeCovenantId} {dec : Decoders} {tree : ChainTree}

theorem Followed.law_fresh (epoch : StreamEpoch) : (Followed.fresh epoch).Law compute tree :=
  .inl ⟨rfl, rfl, rfl, .fresh epoch⟩

theorem Followed.Law.run (htree : tree.Consistent) {f : Followed} {calls : List PassCall}
    (h : f.Law compute tree) (htells : ∀ call ∈ calls, tree.Tells call.tip call.node)
    (hrecorded : f.RecordedRun compute dec tree calls) :
    (f.run compute dec calls).Law compute tree := by
  induction calls generalizing f with
  | nil => exact h
  | cons call calls ih =>
      have hcall : (f.after compute dec call).Law compute tree :=
        (h.after htree (htells call List.mem_cons_self) hrecorded.1).1
      exact ih hcall (fun x hx ↦ htells x (List.mem_cons_of_mem _ hx)) hrecorded.2

theorem Followed.recordedRun_append {f : Followed} {calls more : List PassCall} :
    f.RecordedRun compute dec tree (calls ++ more) ↔
      f.RecordedRun compute dec tree calls ∧
        (f.run compute dec calls).RecordedRun compute dec tree more := by
  induction calls generalizing f with
  | nil => exact (and_iff_right trivial).symm
  | cons call calls ih =>
      rw [List.cons_append, RecordedRun, RecordedRun, ih, and_assoc]
      rfl

/-- **After a pass that returns.**  The store has indexed the chain behind the base. -/
theorem Followed.indexed_of_run (htree : tree.Consistent) (epoch : StreamEpoch)
    {calls : List PassCall} {call : PassCall}
    (htells : ∀ x ∈ calls ++ [call], tree.Tells x.tip x.node)
    (hrecorded : (Followed.fresh epoch).RecordedRun compute dec tree (calls ++ [call]))
    {stats : SyncStats}
    (hok : (call.sync compute dec ((Followed.fresh epoch).run compute dec calls).store).1 =
      .ok stats) :
    (∃ start, ((Followed.fresh epoch).run compute dec (calls ++ [call])).start = some start) ∧
    call.tip ∈ ((Followed.fresh epoch).run compute dec (calls ++ [call])).tips ∧
    ∃ indexed, ((Followed.fresh epoch).run compute dec (calls ++ [call])).base tree ++ indexed =
        tree.lines.path call.tip ∧
      Indexed tree compute indexed
        ((Followed.fresh epoch).run compute dec (calls ++ [call])).store := by
  obtain ⟨hcalls, hcall⟩ := recordedRun_append.mp hrecorded
  have hfresh : (Followed.fresh epoch).Law compute tree := law_fresh epoch
  have hlaw := hfresh.run htree (fun x hx ↦ htells x (List.mem_append_left _ hx)) hcalls
  have hafter := (hlaw.after htree (htells call (List.mem_append_right _ List.mem_cons_self))
    hcall.1).2 stats hok
  rw [run, List.foldl_append]
  exact hafter

/-- What lies behind an index, and what a chain left out, are what the line of the start
shares with the present chain. -/
theorem Followed.base_append_lost {f : Followed} {start tip : BlockHash}
    (hstart : f.start = some start) (htip : tip ∈ f.tips) :
    f.base tree ++ f.lost tree tip = tree.lines.shared start tip := by
  let p : BlockHash → Bool := fun b ↦ f.tips.all (b ∈ tree.lines.path ·)
  have hdown : ∀ x y, x ∈ tree.lines.path y → p y = true → p x = true := by
    intro x y hxy hy
    refine List.all_eq_true.mpr fun t ht ↦ decide_eq_true ?_
    exact tree.lines.mem_trans hxy (of_decide_eq_true (List.all_eq_true.mp hy t ht))
  have hbase : f.base tree = (tree.lines.shared start tip).filter p := by
    rw [base, hstart, Lineage.shared, List.filter_filter]
    refine List.filter_congr fun b _ ↦ ?_
    rw [Bool.eq_iff_iff, Bool.and_eq_true]
    exact ⟨fun hb ↦ ⟨hb, List.all_eq_true.mp hb tip htip⟩, And.left⟩
  have hlost : f.lost tree tip = (tree.lines.shared start tip).filter fun b ↦ !p b := by
    rw [lost, hstart]
    refine List.filter_congr fun b hb ↦ ?_
    rw [hbase, Bool.eq_iff_iff, decide_eq_true_eq, List.mem_filter, Bool.not_eq_true',
      ← Bool.not_eq_true, not_and]
    exact ⟨fun h ↦ h hb, fun h _ ↦ h⟩
  rw [hbase, hlost]
  refine Lineage.filter_append_others ?_
  exact ((tree.lines.pairwise_path start).sublist List.filter_sublist).imp fun hxy ↦ hdown _ _ hxy

/-- **Reorg convergence.**  A pass of a run returns, and so does one pass of a fresh index
that starts at the same block, with the node's chain at the same tip.  Where every call met
the condition, the rows agree just when no chain left out a block of the start's line that
the present chain has again and that touches a covenant. -/
theorem convergence_iff (htree : tree.Consistent) (epoch epoch' : StreamEpoch)
    (calls : List PassCall) (call again : PassCall)
    (htells : ∀ x ∈ calls ++ [call], tree.Tells x.tip x.node)
    (hrecorded : (Followed.fresh epoch).RecordedRun compute dec tree (calls ++ [call]))
    (hagain : tree.Tells again.tip again.node) (htip : again.tip = call.tip)
    (hstart : ((Followed.fresh epoch').run compute dec [again]).start =
      ((Followed.fresh epoch).run compute dec (calls ++ [call])).start)
    {stats stats' : SyncStats}
    (hok : (call.sync compute dec ((Followed.fresh epoch).run compute dec calls).store).1 =
      .ok stats)
    (hok' : (again.sync compute dec (.fresh epoch')).1 = .ok stats') :
    SameRows ((Followed.fresh epoch).run compute dec (calls ++ [call])).store
        ((Followed.fresh epoch').run compute dec [again]).store ↔
      touchedBy [] (tree.history
        (((Followed.fresh epoch).run compute dec (calls ++ [call])).lost tree call.tip)) = [] := by
  obtain ⟨⟨start, hs⟩, hmem, indexed, hline, hindexed⟩ :=
    Followed.indexed_of_run htree epoch htells hrecorded hok
  have hone : (Followed.fresh epoch').RecordedRun compute dec tree ([] ++ [again]) := by
    refine ⟨fun c hc ↦ ?_, trivial⟩
    cases hc
  obtain ⟨-, hmem', indexed', hline', hindexed'⟩ := Followed.indexed_of_run htree epoch'
    (fun x hx ↦ by rw [List.mem_singleton.mp hx]; exact hagain) hone hok'
  rw [List.nil_append] at hline' hindexed' hmem'
  -- the fresh index holds what comes behind the fork of the start's line
  have hbase' : ((Followed.fresh epoch').run compute dec [again]).base tree =
      tree.lines.shared start call.tip := by
    have hturned : ((Followed.fresh epoch').run compute dec [again]).tips =
        if (again.turn dec (.fresh epoch')).1.isOk then [again.tip] else [] := rfl
    have htips : ((Followed.fresh epoch').run compute dec [again]).tips = [call.tip] := by
      by_cases hturn : (again.turn dec (.fresh epoch')).1.isOk = true
      · rw [hturned, if_pos hturn, htip]
      · rw [hturned, if_neg hturn] at hmem'
        cases hmem'
    rw [Followed.base, hstart, hs, htips]
    refine List.filter_congr fun b _ ↦ ?_
    exact Bool.and_true _
  have hsplit : indexed = ((Followed.fresh epoch).run compute dec (calls ++ [call])).lost tree
      call.tip ++ indexed' := by
    rw [hbase', ← Followed.base_append_lost hs hmem, htip, ← hline, List.append_assoc] at hline'
    exact (List.append_cancel_left hline').symm
  have hrows := hindexed.rows
  rw [hsplit, tree.history_append] at hrows
  have hprefix : ((Followed.fresh epoch).run compute dec (calls ++ [call])).base tree ++ indexed <+:
      tree.lines.path call.tip := by rw [hline]
  have hvalid := htree.valid_of_line hprefix
  rw [hsplit, tree.history_append] at hvalid
  exact sameRows_iff_quiet hrows hindexed'.rows hvalid

end Runs

/-! ## A chain that turns -/

/-- Blocks 1, 2 and 3 follow block 0, and block 12 is another one behind block 1. -/
def sampleLine (b : BlockHash) : List BlockHash :=
  if b = ⟨1⟩ then [⟨0⟩, ⟨1⟩]
  else if b = ⟨2⟩ then [⟨0⟩, ⟨1⟩, ⟨2⟩]
  else if b = ⟨3⟩ then [⟨0⟩, ⟨1⟩, ⟨2⟩, ⟨3⟩]
  else if b = ⟨12⟩ then [⟨0⟩, ⟨1⟩, ⟨12⟩]
  else [b]

theorem sampleLine_cases (P : BlockHash → Prop) (h1 : P ⟨1⟩) (h2 : P ⟨2⟩) (h3 : P ⟨3⟩)
    (h12 : P ⟨12⟩) (hother : ∀ b, sampleLine b = [b] → P b) (b : BlockHash) : P b := by
  by_cases hb1 : b = ⟨1⟩
  · exact hb1 ▸ h1
  · by_cases hb2 : b = ⟨2⟩
    · exact hb2 ▸ h2
    · by_cases hb3 : b = ⟨3⟩
      · exact hb3 ▸ h3
      · by_cases hb12 : b = ⟨12⟩
        · exact hb12 ▸ h12
        · refine hother b ?_
          rw [sampleLine, if_neg hb1, if_neg hb2, if_neg hb3, if_neg hb12]

theorem sampleLine_begins : ∀ b, ∀ a ∈ sampleLine b, sampleLine a <+: sampleLine b :=
  sampleLine_cases _ (by decide) (by decide) (by decide) (by decide) fun b hb a ha ↦ by
    rw [hb] at ha
    rw [List.mem_singleton.mp ha]

def sampleLines : Lineage BlockHash where
  path := sampleLine
  ends := sampleLine_cases _ ⟨[⟨0⟩], by decide⟩ ⟨[⟨0⟩, ⟨1⟩], by decide⟩
    ⟨[⟨0⟩, ⟨1⟩, ⟨2⟩], by decide⟩ ⟨[⟨0⟩, ⟨1⟩], by decide⟩ fun b hb ↦ ⟨[], hb⟩
  begins a b := sampleLine_begins b a
  nodup := sampleLine_cases _ (by decide) (by decide) (by decide) (by decide) fun b hb ↦ by
    rw [hb]
    exact List.nodup_singleton b

/-- Covenant 2 is born in block 1, and moved in block 2 or in block 12. -/
def sampleBody (txid : TxId) : Transaction :=
  if txid = ⟨10⟩ then sampleTx 10 [sampleInput 1 0] [sampleOutput 2 0]
  else if txid = ⟨11⟩ then sampleTx 11 [sampleInput 10 0] [sampleOutput 2 0]
  else if txid = ⟨13⟩ then sampleTx 13 [sampleInput 10 0] [sampleOutput 2 0, sampleOutput 2 0]
  else { txid, version := 1, inputs := [], outputs := [], payload := [] }

def sampleAccepted (b : BlockHash) : List TxId :=
  if b = ⟨1⟩ then [⟨10⟩] else if b = ⟨2⟩ then [⟨11⟩] else if b = ⟨12⟩ then [⟨13⟩] else []

def sampleTree : ChainTree where
  lines := sampleLines
  header b :=
    { hash := b
      daaScore := 100 + b.bytes.toNat
      blueScore := 0
      timestampMs := 0
      mergeset := []
      transactions := (sampleAccepted b).map sampleBody }
  acceptedTxIds := sampleAccepted
  body := sampleBody

theorem sampleTree_consistent : sampleTree.Consistent where
  bodies b tx htx := by
    obtain ⟨txid, -, rfl⟩ := List.mem_map.mp htx
    have hid : (sampleBody txid).txid = txid := by
      unfold sampleBody
      split
      · rename_i h
        exact h.symm
      · split
        · rename_i h
          exact h.symm
        · split
          · rename_i h
            exact h.symm
          · rfl
    exact congrArg sampleBody hid
  valid := sampleLine_cases _ (by decide +kernel) (by decide +kernel) (by decide +kernel)
    (by decide +kernel) fun b hb ↦ by
      have hnone : sampleAccepted b = [] := by
        unfold sampleAccepted
        split_ifs with h1 h2 h12
        · exact absurd (h1 ▸ hb) (by decide)
        · exact absurd (h2 ▸ hb) (by decide)
        · exact absurd (h12 ▸ hb) (by decide)
        · rfl
      have hempty : sampleTree.history (sampleTree.lines.path b) = [] := by
        change sampleTree.history (sampleLine b) = []
        rw [hb, ChainTree.history_singleton]
        change (((sampleAccepted b).map sampleBody).zipIdx).map _ = []
        rw [hnone]
        rfl
      rw [hempty]
      decide

/-- A node whose chain ends at `tip` and that cannot serve some blocks. -/
def sampleNode (tip : BlockHash) (missing : List BlockHash) : PassSource where
  pruningPoint := .ok ⟨0⟩
  virtualChainFrom c := .ok (sampleTree.chainStep c tip)
  blockWithTxs b := if b ∈ missing then .error (.rpc "not found") else .ok (sampleTree.header b)
  dagInfo := .ok ⟨500, tip⟩

theorem sampleNode_tells (tip : BlockHash) (missing : List BlockHash) :
    sampleTree.Tells tip (sampleNode tip missing) where
  walks c step h := (Except.ok.inj h).symm
  serves b block h := by
    change (if b ∈ missing then _ else _) = _ at h
    split at h
    · cases h
    · exact (Except.ok.inj h).symm

def sampleCall (tip : BlockHash) (missing : List BlockHash) : PassCall where
  tip
  node := sampleNode tip missing
  fromBlock := some ⟨0⟩
  decoder := noApplicationDecoder

theorem sampleCalls_tell {calls : List PassCall}
    (h : ∀ call ∈ calls, ∃ tip missing, call = sampleCall tip missing) :
    ∀ call ∈ calls, sampleTree.Tells call.tip call.node := by
  intro call hcall
  obtain ⟨tip, missing, rfl⟩ := h call hcall
  exact sampleNode_tells tip missing

/-- A pass to block 2; the chain turns to block 12, which the node cannot serve. -/
def sampleCalls : List PassCall := [sampleCall ⟨2⟩ [], sampleCall ⟨12⟩ [⟨12⟩]]

/-- The index the calls followed, after one more pass to a tip. -/
def followedTo (tip : BlockHash) : Followed :=
  (Followed.fresh ⟨0⟩).run sampleCodecs.compute .blind (sampleCalls ++ [sampleCall tip []])

/-- A fresh index after one pass to a tip. -/
def startedTo (tip : BlockHash) : Followed :=
  (Followed.fresh ⟨1⟩).run sampleCodecs.compute .blind [sampleCall tip []]

/-- The turn is taken up, and the rows are those of a fresh index. -/
theorem followedTo_converges : SameRows (followedTo ⟨12⟩).store (startedTo ⟨12⟩).store := by
  have hok : ((sampleCall ⟨12⟩ []).sync sampleCodecs.compute .blind
      ((Followed.fresh ⟨0⟩).run sampleCodecs.compute .blind sampleCalls).store).1 =
        .ok { chainBlocks := 1, events := 1, reorgedOut := 1 } := by decide +kernel
  have hok' : ((sampleCall ⟨12⟩ []).sync sampleCodecs.compute .blind (.fresh ⟨1⟩)).1 =
      .ok { chainBlocks := 2, events := 2 } := by decide +kernel
  have hcalls : ∀ call ∈ sampleCalls ++ [sampleCall ⟨12⟩ []],
      ∃ tip missing, call = sampleCall tip missing := by
    intro call hcall
    rcases List.mem_append.mp hcall with hcall | hcall
    · rcases List.mem_cons.mp hcall with rfl | hcall
      · exact ⟨_, _, rfl⟩
      · exact ⟨_, _, List.mem_singleton.mp hcall⟩
    · exact ⟨_, _, List.mem_singleton.mp hcall⟩
  exact (convergence_iff sampleTree_consistent ⟨0⟩ ⟨1⟩ sampleCalls (sampleCall ⟨12⟩ [])
    (sampleCall ⟨12⟩ []) (sampleCalls_tell hcalls) (by decide +kernel) (sampleNode_tells _ _) rfl
    (by decide +kernel) hok hok').mpr (by decide +kernel)

/-- The chain turns back to block 3 instead.  The pass returns, and the rows of block 2, which
the turn undid, are not there. -/
example :
    ((sampleCall ⟨3⟩ []).sync sampleCodecs.compute .blind
        ((Followed.fresh ⟨0⟩).run sampleCodecs.compute .blind sampleCalls).store).1 =
      .ok { chainBlocks := 1 } ∧
    ¬SameRows (followedTo ⟨3⟩).store (startedTo ⟨3⟩).store := by
  refine ⟨by decide +kernel, fun h ↦ ?_⟩
  have hlength := h.1.length_eq
  rw [List.length_map, List.length_map] at hlength
  exact absurd hlength (by decide +kernel)

end Kascov
