import Kascov.History.TxIndex

/-!
# The backfill ends, and misses nothing it can reach

A run visits the blocks of the chain one after the other.  However often it is cut off and
taken up again, the blocks up to the recorded one have been visited, so a run that gets to
its end has visited every block between the pruning point and the sync cursor.  It takes a
node that does not answer for a block it cannot walk from as if that were the tip.
-/

namespace Kascov.TxIndex

/-! ## Stamping -/

/-- The row with the place of its transaction in the accepted list of its block, where the
block is one of those visited and the row has none yet. -/
def stampedAt (accepted : BlockHash → List TxId) (visited : List BlockHash) (e : EventRow) :
    EventRow :=
  if e.txIndex = none ∧ e.acceptingBlock ∈ visited ∧ e.txid ∈ accepted e.acceptingBlock then
    { e with txIndex := some ((accepted e.acceptingBlock).idxOf e.txid) }
  else e

variable {accepted : BlockHash → List TxId} {visited : List BlockHash}

theorem stampedAt_nil (e : EventRow) : stampedAt accepted [] e = e := by
  simp [stampedAt]

@[simp] theorem stampedAt_acceptingBlock (e : EventRow) :
    (stampedAt accepted visited e).acceptingBlock = e.acceptingBlock := by
  rw [stampedAt]
  split <;> rfl

@[simp] theorem stampedAt_txid (e : EventRow) :
    (stampedAt accepted visited e).txid = e.txid := by
  rw [stampedAt]
  split <;> rfl

/-- A row that has its place keeps it. -/
theorem stampedAt_of_ne_none {e : EventRow} (h : e.txIndex ≠ none) :
    stampedAt accepted visited e = e := if_neg fun hs ↦ h hs.1

/-- What the updates for one block make of a row. -/
def stampRow (block : BlockHash) (txs : List (TxId × Nat)) (e : EventRow) : EventRow :=
  txs.foldl (fun e tx ↦ if matchesTx block tx.1 e then { e with txIndex := some tx.2 } else e) e

theorem foldl_updateTx (block : BlockHash) (txs : List (TxId × Nat))
    (s : List EventRow × Nat) :
    (txs.foldl (updateTx block) s).1 = s.1.map (stampRow block txs) := by
  induction txs generalizing s with
  | nil => exact (List.map_id _).symm
  | cons tx txs ih =>
      rw [List.foldl_cons, ih, updateTx, List.map_map]
      rfl

theorem stampRow_zipIdx (block : BlockHash) (txids : List TxId) (k : Nat) (e : EventRow) :
    stampRow block (txids.zipIdx k) e =
      if e.txIndex = none ∧ e.acceptingBlock = block ∧ e.txid ∈ txids then
        { e with txIndex := some (k + txids.idxOf e.txid) }
      else e := by
  induction txids generalizing k e with
  | nil => simp [stampRow]
  | cons txid txids ih =>
      rw [List.zipIdx_cons, stampRow, List.foldl_cons, ← stampRow, ih]
      by_cases hnone : e.txIndex = none
      · by_cases hblock : e.acceptingBlock = block
        · by_cases htxid : e.txid = txid
          · simp [matchesTx, hnone, hblock, htxid]
          · have hne : ¬ txid = e.txid := fun h ↦ htxid h.symm
            simp [matchesTx, hnone, hblock, htxid, hne, Nat.add_assoc, Nat.add_comm 1]
        · simp [matchesTx, hblock]
      · simp [matchesTx, hnone]

theorem stampBlock_eq (s : List EventRow × Nat) (a : AcceptedBlock) :
    (stampBlock s (positions a)).1 = s.1.map fun e ↦
      if e.txIndex = none ∧ e.acceptingBlock = a.acceptingBlock ∧ e.txid ∈ a.acceptedTxIds then
        { e with txIndex := some (a.acceptedTxIds.idxOf e.txid) }
      else e := by
  rw [stampBlock]
  split
  · rw [foldl_updateTx]
    refine List.map_congr_left fun e _ ↦ ?_
    rw [positions, stampRow_zipIdx, Nat.zero_add]
  · next hnone =>
      rw [List.any_eq_true] at hnone
      refine (List.map_id _).symm.trans (List.map_congr_left fun e he ↦ (if_neg fun h ↦ ?_).symm)
      exact hnone ⟨e, he, by simp [positions, h.1, h.2.1]⟩

/-- One more block is stamped. -/
theorem stampedAt_concat {a : AcceptedBlock} (h : a.acceptedTxIds = accepted a.acceptingBlock)
    (e : EventRow) :
    (if (stampedAt accepted visited e).txIndex = none ∧
        (stampedAt accepted visited e).acceptingBlock = a.acceptingBlock ∧
        (stampedAt accepted visited e).txid ∈ a.acceptedTxIds then
      { stampedAt accepted visited e with
        txIndex := some (a.acceptedTxIds.idxOf (stampedAt accepted visited e).txid) }
    else stampedAt accepted visited e) = stampedAt accepted (visited ++ [a.acceptingBlock]) e := by
  by_cases hnone : e.txIndex = none
  · by_cases hblock : e.acceptingBlock = a.acceptingBlock
    · by_cases htxid : e.txid ∈ accepted a.acceptingBlock
      · by_cases hvisited : a.acceptingBlock ∈ visited
        · simp [stampedAt, hnone, hblock, htxid, hvisited]
        · simp [stampedAt, hnone, hblock, htxid, hvisited, h]
      · simp [stampedAt, hnone, hblock, htxid, h]
    · rw [if_neg fun hs ↦ hblock (by simpa using hs.2.1)]
      simp [stampedAt, hblock]
  · simp [stampedAt_of_ne_none hnone, hnone]

/-- The stamping of a response stamps its blocks. -/
theorem stampTxIndices_eq {rows : List EventRow} {batch : List AcceptedBlock}
    (h : ∀ a ∈ batch, a.acceptedTxIds = accepted a.acceptingBlock) :
    (stampTxIndices (rows.map (stampedAt accepted visited)) (batch.map positions)).1 =
      rows.map (stampedAt accepted (visited ++ batch.map (·.acceptingBlock))) := by
  suffices hfold : ∀ s : List EventRow × Nat, s.1 = rows.map (stampedAt accepted visited) →
      ((batch.map positions).foldl stampBlock s).1 =
        rows.map (stampedAt accepted (visited ++ batch.map (·.acceptingBlock))) from
    hfold _ rfl
  induction batch generalizing visited with
  | nil =>
      intro s hs
      rw [List.map_nil, List.map_nil, List.append_nil]
      exact hs
  | cons a batch ih =>
      intro s hs
      obtain ⟨ha, hbatch⟩ := List.forall_mem_cons.mp h
      rw [List.map_cons, List.foldl_cons, List.map_cons, List.append_cons]
      refine ih hbatch _ ?_
      rw [stampBlock_eq, hs, List.map_map]
      exact List.map_congr_left fun e _ ↦ stampedAt_concat ha e

/-! ## What a node serves -/

/-- The tip and the pruning point of a node, as a run meets them. -/
structure View where
  tip : BlockHash
  pruning : BlockHash

variable (chains : Lineage BlockHash) (accepted : BlockHash → List TxId)

/-- The response goes on from a block: it adds some of what comes after it, each with its
accepted list, and nothing only at the tip. -/
structure LeadsOn (v : View) (base : BlockHash) (added : List AcceptedBlock) : Prop where
  next : added.map (·.acceptingBlock) <+: chains.after base v.tip
  lists : ∀ a ∈ added, a.acceptedTxIds = accepted a.acceptingBlock
  last : added = [] → chains.after base v.tip = []

/-- The node serves the accepted lists: it knows its pruning point, and answers for every
block of its chain from there on. -/
structure Serves (v : View) (node : TimedSource) : Prop where
  pruned : v.pruning ∈ chains.path v.tip
  dag : ∀ n, node.pruningPoint n = .ok v.pruning
  walks : ∀ n c, c ∈ chains.path v.tip → v.pruning ∈ chains.path c →
    ∃ response, node.virtualChainFrom n c = .ok response ∧
      LeadsOn chains accepted v c response.added

/-- The node does not pretend: a block it cannot walk from is refused, or answered from an
ancestor that the chain has not pruned. -/
def Candid (v : View) (node : TimedSource) : Prop :=
  ∀ n c response, node.virtualChainFrom n c = .ok response →
    c ∈ chains.path v.tip ∧ v.pruning ∈ chains.path c ∨
    ∃ f, f ∈ chains.path c ∧ f ∈ chains.path v.tip ∧ v.pruning ∈ chains.path f ∧
      LeadsOn chains accepted v f response.added

/-- The block is one the walk can reach: after the pruning point, and not after the sync
cursor. -/
def Reachable (v : View) (stop : Option BlockHash) (b : BlockHash) : Prop :=
  b ∈ chains.path v.tip ∧ b ∉ chains.path v.pruning ∧
    ∃ cursor, stop = some cursor ∧ (cursor ∈ chains.path v.tip → b ∈ chains.path cursor)

/-! ## One run -/

section Run

variable {chains accepted} {v : View} {node : TimedSource}
variable (rows : List EventRow) (before : List BlockHash)

/-- Every block on the line of `c` after the pruning point was visited. -/
def Covered (chains : Lineage BlockHash) (pruning : BlockHash) (visited : List BlockHash)
    (c : BlockHash) : Prop :=
  ∀ b ∈ chains.path c, b ∉ chains.path pruning → b ∈ visited

theorem Covered.mono {pruning c : BlockHash} {visited more : List BlockHash}
    (h : Covered chains pruning visited c) (hsub : visited ⊆ more) :
    Covered chains pruning more c :=
  fun b hb hnew ↦ hsub (h b hb hnew)

theorem Covered.of_mem {pruning c f : BlockHash} {visited : List BlockHash}
    (h : Covered chains pruning visited c) (hf : f ∈ chains.path c) :
    Covered chains pruning visited f :=
  fun b hb hnew ↦ h b (chains.mem_trans hb hf) hnew

/-- The walk has got to `c`, and has visited what comes after its start, up to there. -/
structure Reached (chains : Lineage BlockHash) (v : View) (before visited : List BlockHash)
    (c : BlockHash) : Prop where
  tip : c ∈ chains.path v.tip
  kept : v.pruning ∈ chains.path c
  walked : ∃ f, Covered chains v.pruning before f ∧ chains.path c = chains.path f ++ visited

theorem Reached.covered {visited : List BlockHash} {c : BlockHash}
    (h : Reached chains v before visited c) :
    Covered chains v.pruning (before ++ visited) c := by
  obtain ⟨f, hf, hpath⟩ := h.walked
  intro b hb hnew
  rw [hpath, List.mem_append] at hb
  rw [List.mem_append]
  exact hb.imp_left fun hb ↦ hf b hb hnew

theorem Reached.nodup {visited : List BlockHash} {c : BlockHash}
    (h : Reached chains v before visited c) : visited.Nodup := by
  obtain ⟨f, -, hpath⟩ := h.walked
  have hnodup := chains.nodup c
  rw [hpath] at hnodup
  exact hnodup.of_append_right

/-- Every block the walk can reach was visited. -/
def Complete (chains : Lineage BlockHash) (v : View) (stop : Option BlockHash)
    (visited : List BlockHash) : Prop :=
  ∀ b, Reachable chains v stop b → b ∈ visited

/-- What holds of where a run is. -/
def PhaseLaw (chains : Lineage BlockHash) (v : View) (before : List BlockHash) (b : Backfill) :
    Prop :=
  match b.phase with
  | .walking c => b.visited = [] ∧ Covered chains v.pruning before c ∨
      Reached chains v before b.visited c
  | .recording last reachedStop => Reached chains v before b.visited last ∧ b.visited ≠ [] ∧
      (reachedStop = true → b.stop = some last)
  | .closing | .returned (.ok _) => Complete chains v b.stop (before ++ b.visited)
  | .returned (.error _) => False

/-- What holds of a run after any of its steps. -/
structure RunLaw (chains : Lineage BlockHash) (accepted : BlockHash → List TxId) (v : View)
    (rows : List EventRow) (before : List BlockHash) (b : Backfill) : Prop where
  events : b.store.covenantEvents = rows.map (stampedAt accepted (before ++ b.visited))
  cursor : b.store.cursor = b.stop
  nodup : b.visited.Nodup
  phase : PhaseLaw chains v before b
  mark : ∀ c, b.store.txIndexBackfilledTo = some (.block c) →
    Covered chains v.pruning (before ++ b.visited) c
  done : b.store.txIndexBackfilledTo = some .done → ∃ n, b.phase = .returned (.ok n)

theorem takeThrough_prefix (stop : Option BlockHash) (added : List AcceptedBlock) :
    (takeThrough stop added).1 <+: added := by
  induction added with
  | nil => exact List.prefix_refl _
  | cons a rest ih =>
      rw [takeThrough]
      split
      · exact List.prefix_append [a] rest
      · exact (List.prefix_cons_inj a).mpr ih

theorem takeThrough_reached {stop : Option BlockHash} {added : List AcceptedBlock}
    (h : (takeThrough stop added).2 = true) :
    ∃ last, (takeThrough stop added).1.getLast? = some last ∧ stop = some last.acceptingBlock := by
  induction added with
  | nil => cases h
  | cons a rest ih =>
      rw [takeThrough] at h ⊢
      split at h
      · next hstop =>
          rw [if_pos hstop]
          exact ⟨a, rfl, hstop.symm⟩
      · next hstop =>
          rw [if_neg hstop]
          obtain ⟨last, hlast, heq⟩ := ih h
          exact ⟨last, by rw [List.getLast?_cons, hlast]; rfl, heq⟩

theorem takeThrough_cons_ne_nil (stop : Option BlockHash) (a : AcceptedBlock)
    (rest : List AcceptedBlock) : (takeThrough stop (a :: rest)).1 ≠ [] := by
  rw [takeThrough]
  split <;> simp

/-- A call of a run on a node that serves and does not pretend: the response goes on from
the cursor where the node can walk from it, and else from an ancestor or from the pruning
point. -/
theorem walkFrom_spec (hserves : Serves chains accepted v node)
    (hcandid : Candid chains accepted v node) (n : Nat) (c : BlockHash) :
    ∃ response calls f, walkFrom node n c = (.ok response, calls) ∧ f ∈ chains.path v.tip ∧
      v.pruning ∈ chains.path f ∧ LeadsOn chains accepted v f response.added ∧
      (f ∈ chains.path c ∨ f = v.pruning) ∧
      (c ∈ chains.path v.tip → v.pruning ∈ chains.path c → f = c) := by
  by_cases hwalks : c ∈ chains.path v.tip ∧ v.pruning ∈ chains.path c
  · obtain ⟨response, hresponse, hleads⟩ := hserves.walks n c hwalks.1 hwalks.2
    exact ⟨response, n + 1, c, by rw [walkFrom, hresponse], hwalks.1, hwalks.2, hleads,
      .inl (chains.mem_self c), fun _ _ ↦ rfl⟩
  · cases hanswer : node.virtualChainFrom n c with
    | ok response =>
        obtain hin | ⟨f, hfc, hft, hpf, hleads⟩ := hcandid n c response hanswer
        · exact absurd hin hwalks
        · exact ⟨response, n + 1, f, by rw [walkFrom, hanswer], hft, hpf, hleads, .inl hfc,
            fun ht hp ↦ absurd ⟨ht, hp⟩ hwalks⟩
    | error e =>
        have hself := chains.mem_self v.pruning
        obtain ⟨response, hresponse, hleads⟩ := hserves.walks (n + 2) v.pruning hserves.pruned hself
        have hne : c ≠ v.pruning := by
          rintro rfl
          exact hwalks ⟨hserves.pruned, hself⟩
        refine ⟨response, n + 3, v.pruning, ?_, hserves.pruned, hself, hleads, .inr rfl,
          fun ht hp ↦ absurd ⟨ht, hp⟩ hwalks⟩
        rw [walkFrom, hanswer]
        simp only [hserves.dag, if_neg hne, hresponse]

/-- Where a response goes on from, the walk has covered what comes before. -/
theorem walked_of_phase {b : Backfill} {c f : BlockHash} (hphase : b.phase = .walking c)
    (h : PhaseLaw chains v before b) (hf : f ∈ chains.path c ∨ f = v.pruning)
    (hsame : c ∈ chains.path v.tip → v.pruning ∈ chains.path c → f = c) :
    ∃ f', Covered chains v.pruning before f' ∧ chains.path f = chains.path f' ++ b.visited := by
  rw [PhaseLaw, hphase] at h
  obtain ⟨hnil, hcovered⟩ | hreached := h
  · refine ⟨f, ?_, by rw [hnil, List.append_nil]⟩
    obtain hf | rfl := hf
    · exact hcovered.of_mem hf
    · exact fun b hb hnew ↦ absurd hb hnew
  · rw [hsame hreached.tip hreached.kept]
    exact hreached.walked

/-- How many steps a run has before it at most. -/
def rank (chains : Lineage BlockHash) (v : View) (b : Backfill) : Nat :=
  match b.phase with
  | .walking c =>
      if b.visited = [] then 2 * (chains.path v.tip).length + 3
      else 2 * (chains.after c v.tip).length + 2
  | .recording last _ => 2 * (chains.after last v.tip).length + 3
  | .closing => 1
  | .returned _ => 0

/-- A response that adds blocks keeps the law, and leaves less to do. -/
theorem RunLaw.stampResponse {b : Backfill} {c f : BlockHash}
    (h : RunLaw chains accepted v rows before b) (hphase : b.phase = .walking c)
    (hft : f ∈ chains.path v.tip) (hpf : v.pruning ∈ chains.path f) {a : AcceptedBlock}
    {rest : List AcceptedBlock} (hleads : LeadsOn chains accepted v f (a :: rest))
    (hf : f ∈ chains.path c ∨ f = v.pruning)
    (hsame : c ∈ chains.path v.tip → v.pruning ∈ chains.path c → f = c) (calls : Nat) :
    RunLaw chains accepted v rows before (b.stampResponse calls a rest) ∧
      rank chains v (b.stampResponse calls a rest) < rank chains v b := by
  obtain ⟨f', hcovered, hpath⟩ := walked_of_phase before hphase h.phase hf hsame
  generalize hbatch : takeThrough b.stop (a :: rest) = batch
  have hne : batch.1 ≠ [] := hbatch ▸ takeThrough_cons_ne_nil b.stop a rest
  have hpre : batch.1 <+: a :: rest := hbatch ▸ takeThrough_prefix b.stop (a :: rest)
  obtain ⟨front, last, hlast⟩ := (List.eq_nil_or_concat' batch.1).resolve_left hne
  have hblocks : batch.1.map (·.acceptingBlock) =
      front.map (·.acceptingBlock) ++ [last.acceptingBlock] := by
    rw [hlast, List.map_append, List.map_singleton]
  have hwalk : batch.1.map (·.acceptingBlock) <+: chains.after f v.tip :=
    (hpre.map _).trans hleads.next
  rw [hblocks] at hwalk
  obtain ⟨htip, hline⟩ := chains.path_of_walk hft hwalk
  have hreached : Reached chains v before (b.visited ++ batch.1.map (·.acceptingBlock))
      last.acceptingBlock := by
    refine ⟨htip, ?_, f', hcovered, ?_⟩
    · rw [hline]
      exact List.mem_append_left _ hpf
    · rw [hline, hpath, hblocks, List.append_assoc]
  have hshorter : (chains.after last.acceptingBlock v.tip).length <
      (chains.after f v.tip).length := by
    rw [← chains.after_of_walk hft hwalk, List.length_append, List.length_append,
      List.length_singleton]
    omega
  have hdef : b.stampResponse calls a rest =
      { b with
        store := { b.store with
          covenantEvents :=
            (stampTxIndices b.store.covenantEvents (batch.1.map positions)).1 }
        phase := .recording last.acceptingBlock batch.2
        stamped := b.stamped +
          (stampTxIndices b.store.covenantEvents (batch.1.map positions)).2
        calls
        visited := b.visited ++ batch.1.map (·.acceptingBlock) } := by
    rw [Backfill.stampResponse, hbatch]
    simp only [hlast, List.getLastD_concat]
  rw [hdef]
  refine ⟨⟨?_, h.cursor, hreached.nodup, ⟨hreached, ?_, ?_⟩, fun c' hc' ↦ ?_, fun hd ↦ ?_⟩, ?_⟩
  · have hlists : ∀ x ∈ batch.1, x.acceptedTxIds = accepted x.acceptingBlock :=
      fun x hx ↦ hleads.lists x (hpre.subset hx)
    rw [h.events, ← List.append_assoc]
    exact stampTxIndices_eq hlists
  · simp [hne]
  · intro hstop
    obtain ⟨last', hlast', heq⟩ := takeThrough_reached (hbatch.symm ▸ hstop)
    rw [hbatch, hlast, List.getLast?_concat] at hlast'
    rw [heq, Option.some.inj hlast']
  · rw [← List.append_assoc]
    exact (h.mark c' hc').mono (List.subset_append_left _ _)
  · obtain ⟨n, hn⟩ := h.done hd
    rw [hphase] at hn
    cases hn
  · have hle : (chains.after f v.tip).length ≤ (chains.path v.tip).length := by
      rw [← chains.path_append_after hft, List.length_append]
      exact Nat.le_add_left _ _
    rw [rank, rank, hphase]
    dsimp only
    split
    · omega
    · next hvisited =>
        have hc := h.phase
        rw [PhaseLaw, hphase] at hc
        have hreached' := hc.resolve_left fun hnil ↦ hvisited hnil.1
        rw [← hsame hreached'.tip hreached'.kept]
        omega

/-- One step of a run keeps the law, and leaves less to do unless the run is over. -/
theorem RunLaw.step (hserves : Serves chains accepted v node)
    (hcandid : Candid chains accepted v node) {b : Backfill}
    (h : RunLaw chains accepted v rows before b) :
    RunLaw chains accepted v rows before (b.step node) ∧
      (rank chains v (b.step node) < rank chains v b ∨ ∃ n, b.phase = .returned (.ok n)) := by
  have hlaw := h.phase
  cases hphase : b.phase with
  | walking c =>
      obtain ⟨response, calls, f, hcall, hft, hpf, hleads, hf, hsame⟩ :=
        walkFrom_spec hserves hcandid b.calls c
      cases hadded : response.added with
      | nil =>
          have hstep : b.step node = { b with phase := .closing, calls } := by
            simp only [Backfill.step, hphase, hcall, hadded]
          obtain ⟨f', hcovered, hpath⟩ := walked_of_phase before hphase hlaw hf hsame
          have hall : chains.path f = chains.path v.tip := by
            rw [← chains.path_append_after hft, hleads.last hadded, List.append_nil]
          rw [hstep]
          refine ⟨⟨h.events, h.cursor, h.nodup, ?_, h.mark, fun hd ↦ ?_⟩, .inl ?_⟩
          · rintro x ⟨hx, hnew, -⟩
            rw [← hall, hpath, List.mem_append] at hx
            rw [List.mem_append]
            exact hx.imp_left fun hx ↦ hcovered x hx hnew
          · obtain ⟨n, hn⟩ := h.done hd
            rw [hphase] at hn
            cases hn
          · rw [rank, rank, hphase]
            dsimp only
            split <;> omega
      | cons a rest =>
          have hstep : b.step node = b.stampResponse calls a rest := by
            simp only [Backfill.step, hphase, hcall, hadded]
          rw [hadded] at hleads
          obtain ⟨hkept, hless⟩ := h.stampResponse rows before hphase hft hpf hleads hf hsame calls
          rw [hstep]
          exact ⟨hkept, .inl hless⟩
  | recording last reachedStop =>
      rw [PhaseLaw, hphase] at hlaw
      obtain ⟨hreached, hne, hstop⟩ := hlaw
      have hstep : b.step node = { b with
          store := { b.store with txIndexBackfilledTo := some (.block last) }
          phase := if reachedStop then .closing else .walking last } := by
        simp only [Backfill.step, hphase]
      have hcovered := hreached.covered
      rw [hstep]
      refine ⟨⟨h.events, h.cursor, h.nodup, ?_, fun c hc ↦ ?_, nofun⟩, .inl ?_⟩
      · cases reachedStop with
        | false => exact .inr hreached
        | true =>
            rintro x ⟨-, hnew, cursor, hcursor, hx⟩
            obtain rfl := Option.some.inj ((hstop rfl).symm.trans hcursor)
            exact hcovered x (hx hreached.tip) hnew
      · obtain rfl := Mark.block.inj (Option.some.inj hc)
        exact hcovered
      · rw [rank, rank, hphase]
        cases reachedStop with
        | false =>
            simp only [Bool.false_eq_true, if_false, if_neg hne]
            omega
        | true =>
            simp only [if_true]
            omega
  | closing =>
      rw [PhaseLaw, hphase] at hlaw
      have hstep : b.step node = { b with
          store := { b.store with txIndexBackfilledTo := some .done }
          phase := .returned (.ok b.stamped) } := by
        simp only [Backfill.step, hphase]
      rw [hstep]
      refine ⟨⟨h.events, h.cursor, h.nodup, hlaw, nofun, fun _ ↦ ⟨b.stamped, rfl⟩⟩, .inl ?_⟩
      rw [rank, rank, hphase]
      exact Nat.zero_lt_one
  | returned r =>
      have hstep : b.step node = b := by simp only [Backfill.step, hphase]
      rw [hstep]
      refine ⟨h, .inr ?_⟩
      cases r with
      | ok n => exact ⟨n, rfl⟩
      | error e =>
          rw [PhaseLaw, hphase] at hlaw
          exact hlaw.elim

/-- What a store keeps of the runs before: the rows of the blocks visited are stamped, and
all blocks up to the recorded one were visited. -/
structure StoreLaw (chains : Lineage BlockHash) (accepted : BlockHash → List TxId)
    (pruning : BlockHash) (rows : List EventRow) (before : List BlockHash) (s : IndexStore) :
    Prop where
  events : s.covenantEvents = rows.map (stampedAt accepted before)
  mark : ∀ c, s.txIndexBackfilledTo = some (.block c) → Covered chains pruning before c

variable {rows before}

theorem StoreLaw.start (hserves : Serves chains accepted v node) {s : IndexStore}
    (h : StoreLaw chains accepted v.pruning rows before s)
    (hopen : s.txIndexBackfilledTo ≠ some .done) :
    RunLaw chains accepted v rows before (start node s) := by
  have hevents : s.covenantEvents = rows.map (stampedAt accepted (before ++ [])) := by
    rw [List.append_nil]
    exact h.events
  have hmark : ∀ c, s.txIndexBackfilledTo = some (.block c) →
      Covered chains v.pruning (before ++ []) c := by
    rw [List.append_nil]
    exact h.mark
  rw [TxIndex.start]
  simp only [if_neg hopen, hserves.dag]
  split
  · next hnone =>
      refine ⟨hevents, rfl, List.nodup_nil, ?_, hmark, fun hd ↦ absurd hd hopen⟩
      rintro x ⟨-, -, cursor, hcursor, -⟩
      rw [hnone] at hcursor
      cases hcursor
  · cases hresume : s.resume with
    | some c =>
        refine ⟨hevents, rfl, List.nodup_nil, .inl ⟨rfl, ?_⟩, hmark, fun hd ↦ absurd hd hopen⟩
        refine h.mark c ?_
        rw [IndexStore.resume] at hresume
        split at hresume
        · next hblock => rw [hblock, Option.some.inj hresume]
        · cases hresume
    | none =>
        exact ⟨hevents, rfl, List.nodup_nil, .inl ⟨rfl, fun b hb hnew ↦ absurd hb hnew⟩, hmark,
          fun hd ↦ absurd hd hopen⟩

/-- The law holds after every step of a run. -/
theorem RunLaw.steps (hserves : Serves chains accepted v node)
    (hcandid : Candid chains accepted v node) {b : Backfill}
    (h : RunLaw chains accepted v rows before b) (steps : Nat) :
    RunLaw chains accepted v rows before ((Backfill.step node)^[steps] b) := by
  induction steps generalizing b with
  | zero => exact h
  | succ steps ih => exact ih (h.step rows before hserves hcandid).1

/-- A run that is over stays so. -/
theorem step_returned {b : Backfill} {r : Result Nat} (h : b.phase = .returned r) (steps : Nat) :
    (Backfill.step node)^[steps] b = b := by
  induction steps with
  | zero => rfl
  | succ steps ih =>
      have hstep : b.step node = b := by simp only [Backfill.step, h]
      rw [Function.iterate_succ_apply, hstep, ih]

/-- A run ends. -/
theorem RunLaw.ends (hserves : Serves chains accepted v node)
    (hcandid : Candid chains accepted v node) {b : Backfill}
    (h : RunLaw chains accepted v rows before b) :
    ∃ steps n, ((Backfill.step node)^[steps] b).phase = .returned (.ok n) := by
  induction hrank : rank chains v b using Nat.strong_induction_on generalizing b with
  | _ k ih =>
      obtain ⟨hnext, hless | ⟨n, hn⟩⟩ := h.step rows before hserves hcandid
      · obtain ⟨steps, n, hend⟩ := ih _ (hrank ▸ hless) hnext rfl
        exact ⟨steps + 1, n, hend⟩
      · exact ⟨0, n, hn⟩

theorem step_stop (b : Backfill) : (b.step node).stop = b.stop := by
  unfold Backfill.step
  split
  · split
    · rfl
    · split <;> rfl
  · rfl
  · rfl
  · rfl

theorem steps_stop (b : Backfill) (steps : Nat) :
    ((Backfill.step node)^[steps] b).stop = b.stop := by
  induction steps generalizing b with
  | zero => rfl
  | succ steps ih => rw [Function.iterate_succ_apply, ih, step_stop]

theorem start_stop (s : IndexStore) : (start node s).stop = s.cursor := by
  rw [start]
  dsimp only
  split_ifs
  · rfl
  · rfl
  · split
    · rfl
    · split <;> rfl

end Run

/-! ## Rows that have their place -/

/-- The rows are the same, but for some that had no place. -/
def KeepsPlaces (rows rows' : List EventRow) : Prop :=
  ∃ g : EventRow → EventRow, rows' = rows.map g ∧ ∀ e, e.txIndex ≠ none → g e = e

theorem KeepsPlaces.refl (rows : List EventRow) : KeepsPlaces rows rows :=
  ⟨id, (List.map_id _).symm, fun _ _ ↦ rfl⟩

theorem KeepsPlaces.trans {rows rows' rows'' : List EventRow} (h : KeepsPlaces rows rows')
    (h' : KeepsPlaces rows' rows'') : KeepsPlaces rows rows'' := by
  obtain ⟨g, rfl, hg⟩ := h
  obtain ⟨g', rfl, hg'⟩ := h'
  refine ⟨g' ∘ g, List.map_map .., fun e he ↦ ?_⟩
  rw [Function.comp_apply, hg e he, hg' e he]

theorem stampTxIndices_keeps (rows : List EventRow) (batch : List AcceptedBlock) :
    KeepsPlaces rows (stampTxIndices rows (batch.map positions)).1 := by
  suffices hfold : ∀ s : List EventRow × Nat,
      KeepsPlaces s.1 ((batch.map positions).foldl stampBlock s).1 from hfold (rows, 0)
  induction batch with
  | nil => exact fun s ↦ .refl s.1
  | cons a batch ih =>
      intro s
      rw [List.map_cons, List.foldl_cons]
      refine KeepsPlaces.trans ?_ (ih _)
      rw [stampBlock_eq]
      exact ⟨_, rfl, fun e he ↦ if_neg fun hs ↦ he hs.1⟩

/-- No step changes a row that has its place, whatever the node answers. -/
theorem step_keeps (node : TimedSource) (b : Backfill) :
    KeepsPlaces b.store.covenantEvents (b.step node).store.covenantEvents := by
  unfold Backfill.step
  split
  · split
    · exact .refl _
    · split
      · exact .refl _
      · exact stampTxIndices_keeps _ _
  · exact .refl _
  · exact .refl _
  · exact .refl _

theorem steps_keep (node : TimedSource) (b : Backfill) (steps : Nat) :
    KeepsPlaces b.store.covenantEvents
      ((Backfill.step node)^[steps] b).store.covenantEvents := by
  induction steps generalizing b with
  | zero => exact .refl _
  | succ steps ih => exact (step_keeps node b).trans (ih _)

theorem start_store (node : TimedSource) (s : IndexStore) : (start node s).store = s := by
  rw [start]
  dsimp only
  split_ifs
  · rfl
  · rfl
  · split
    · rfl
    · split <;> rfl

/-! ## Runs that are cut off and taken up again -/

/-- A run on a node, cut off after some steps. -/
structure Session where
  node : TimedSource
  view : View
  steps : Nat

/-- The store a session leaves. -/
def Session.cut (s : IndexStore) (σ : Session) : IndexStore := (runFor σ.node s σ.steps).store

/-- The store after sessions that were each cut off. -/
def resumed (s : IndexStore) (sessions : List Session) : IndexStore := sessions.foldl Session.cut s

variable {chains accepted}

theorem Covered.advance {p p' c : BlockHash} {visited : List BlockHash}
    (h : Covered chains p visited c) (hp : p ∈ chains.path p') : Covered chains p' visited c :=
  fun b hb hnew ↦ h b hb fun hold ↦ hnew (chains.mem_trans hold hp)

theorem StoreLaw.advance {p p' : BlockHash} {rows : List EventRow} {before : List BlockHash}
    {s : IndexStore} (h : StoreLaw chains accepted p rows before s) (hp : p ∈ chains.path p') :
    StoreLaw chains accepted p' rows before s :=
  ⟨h.events, fun c hc ↦ (h.mark c hc).advance hp⟩

/-- A backfill that is done has nothing left to do. -/
theorem resumed_of_done {s : IndexStore} (h : s.txIndexBackfilledTo = some .done)
    (sessions : List Session) : resumed s sessions = s := by
  induction sessions with
  | nil => rfl
  | cons σ sessions ih =>
      have hphase : (start σ.node s).phase = .returned (.ok 0) := by
        rw [start]
        simp only [if_pos h]
      have hcut : σ.cut s = s := by
        rw [Session.cut, runFor, step_returned hphase, start_store]
      rw [resumed, List.foldl_cons, hcut]
      exact ih

/-- The sessions are on nodes that serve and do not pretend, each no further back than the
one before. -/
structure Honest (chains : Lineage BlockHash) (accepted : BlockHash → List TxId)
    (sessions : List Session) : Prop where
  serves : ∀ σ ∈ sessions, Serves chains accepted σ.view σ.node
  candid : ∀ σ ∈ sessions, Candid chains accepted σ.view σ.node
  advance : sessions.Pairwise fun σ τ ↦ σ.view.pruning ∈ chains.path τ.view.pruning

theorem Honest.tail {σ : Session} {sessions : List Session}
    (h : Honest chains accepted (σ :: sessions)) : Honest chains accepted sessions where
  serves := (List.forall_mem_cons.mp h.serves).2
  candid := (List.forall_mem_cons.mp h.candid).2
  advance := h.advance.of_cons

/-- What the sessions leave is what the next one can go on from. -/
theorem storeLaw_resumed {sessions : List Session} {last : Session}
    (hhonest : Honest chains accepted (sessions ++ [last])) {p : BlockHash}
    (hp : ∀ σ ∈ sessions ++ [last], p ∈ chains.path σ.view.pruning) {rows : List EventRow}
    {before : List BlockHash} {s : IndexStore} (h : StoreLaw chains accepted p rows before s)
    (hopen : (resumed s sessions).txIndexBackfilledTo ≠ some .done) :
    (resumed s sessions).cursor = s.cursor ∧
      ∃ visited, StoreLaw chains accepted last.view.pruning rows visited (resumed s sessions) := by
  induction sessions generalizing p before s with
  | nil => exact ⟨rfl, before, h.advance (hp last (List.mem_singleton_self last))⟩
  | cons σ sessions ih =>
      have hmark : s.txIndexBackfilledTo ≠ some .done := by
        intro hdone
        rw [resumed_of_done hdone] at hopen
        exact hopen hdone
      have hstart := (h.advance (hp σ List.mem_cons_self)).start
        (hhonest.serves σ List.mem_cons_self) hmark
      have hrun := hstart.steps (hhonest.serves σ List.mem_cons_self)
        (hhonest.candid σ List.mem_cons_self) σ.steps
      have hcursor : (Session.cut s σ).cursor = s.cursor := by
        rw [Session.cut, runFor, hrun.cursor, steps_stop, start_stop]
      have hlater : ∀ τ ∈ sessions ++ [last], σ.view.pruning ∈ chains.path τ.view.pruning :=
        (List.pairwise_cons.mp hhonest.advance).1
      rw [resumed, List.foldl_cons] at hopen ⊢
      obtain ⟨hsame, visited, hlaw⟩ := ih hhonest.tail hlater ⟨hrun.events, hrun.mark⟩ hopen
      exact ⟨hsame.trans hcursor, visited, hlaw⟩

/-- The law of the backfill: it never changes a row that has its place, visits no block
twice in a run, and its run comes to an end, with the place of its transaction in every row
of a block it can reach. -/
structure BackfillLaw (chains : Lineage BlockHash) (accepted : BlockHash → List TxId)
    (s : IndexStore) (sessions : List Session) (last : Session) : Prop where
  untouched : ∀ steps, KeepsPlaces s.covenantEvents
    (runFor last.node (resumed s sessions) steps).store.covenantEvents
  settled : ∀ steps more, KeepsPlaces
    (runFor last.node (resumed s sessions) steps).store.covenantEvents
    (runFor last.node (resumed s sessions) (steps + more)).store.covenantEvents
  once : ∀ steps, (runFor last.node (resumed s sessions) steps).visited.Nodup
  ends : ∃ steps n visited, ∀ more,
    (runFor last.node (resumed s sessions) (steps + more)).phase = .returned (.ok n) ∧
    (runFor last.node (resumed s sessions) (steps + more)).store.covenantEvents =
      s.covenantEvents.map (stampedAt accepted visited) ∧
    ∀ b, Reachable chains last.view s.cursor b → b ∈ visited

theorem resumed_keeps (s : IndexStore) (sessions : List Session) :
    KeepsPlaces s.covenantEvents (resumed s sessions).covenantEvents := by
  induction sessions generalizing s with
  | nil => exact .refl _
  | cons σ sessions ih =>
      have hcut := steps_keep σ.node (start σ.node s) σ.steps
      rw [start_store] at hcut
      exact hcut.trans (ih _)

theorem runFor_add (node : TimedSource) (s : IndexStore) (steps more : Nat) :
    runFor node s (steps + more) = (Backfill.step node)^[more] (runFor node s steps) := by
  rw [runFor, Nat.add_comm, Function.iterate_add_apply, runFor]

/-- **The backfill ends, and misses nothing it can reach.**  A backfill that was begun on a
store without a record of one, and was cut off any number of times, keeps its law on nodes
that serve the accepted lists and do not pretend. -/
theorem backfillLaw_of_candid {s : IndexStore} {sessions : List Session} {last : Session}
    (hnew : s.txIndexBackfilledTo = none)
    (hhonest : Honest chains accepted (sessions ++ [last]))
    (hopen : (resumed s sessions).txIndexBackfilledTo ≠ some .done) :
    BackfillLaw chains accepted s sessions last := by
  have hlast : last ∈ sessions ++ [last] := by simp
  have hfresh (p : BlockHash) : StoreLaw chains accepted p s.covenantEvents [] s := by
    refine ⟨?_, fun c hc ↦ ?_⟩
    · conv_lhs => rw [← List.map_id s.covenantEvents]
      exact List.map_congr_left fun e _ ↦ (stampedAt_nil e).symm
    · rw [hnew] at hc
      cases hc
  obtain ⟨hcursor, visited, hlaw⟩ : (resumed s sessions).cursor = s.cursor ∧ ∃ visited,
      StoreLaw chains accepted last.view.pruning s.covenantEvents visited
        (resumed s sessions) := by
    cases hsessions : sessions ++ [last] with
    | nil => simp at hsessions
    | cons σ rest =>
        have hadvance := hhonest.advance
        rw [hsessions] at hadvance
        refine storeLaw_resumed hhonest (p := σ.view.pruning) (fun τ hτ ↦ ?_) (hfresh _) hopen
        rw [hsessions] at hτ
        obtain rfl | hτ := List.mem_cons.mp hτ
        · exact chains.mem_self _
        · exact (List.pairwise_cons.mp hadvance).1 τ hτ
  have hserves := hhonest.serves last hlast
  have hcandid := hhonest.candid last hlast
  have hstart := hlaw.start hserves hopen
  refine ⟨fun steps ↦ ?_, fun steps more ↦ ?_, fun steps ↦ ?_, ?_⟩
  · have hrun := steps_keep last.node (start last.node (resumed s sessions)) steps
    rw [start_store] at hrun
    exact (resumed_keeps s sessions).trans hrun
  · rw [runFor_add]
    exact steps_keep last.node _ more
  · exact (hstart.steps hserves hcandid steps).nodup
  · obtain ⟨steps, n, hend⟩ := hstart.ends hserves hcandid
    have hrun := hstart.steps hserves hcandid steps
    have hcomplete := hrun.phase
    rw [PhaseLaw, hend, steps_stop, start_stop, hcursor] at hcomplete
    refine ⟨steps, n, visited ++ (runFor last.node (resumed s sessions) steps).visited,
      fun more ↦ ?_⟩
    rw [runFor_add, runFor, step_returned hend]
    exact ⟨hend, hrun.events, hcomplete⟩

/-! ## A stale resume point -/

def sampleHash (i : Nat) : BlockHash := ⟨BitVec.ofNat 256 i⟩

theorem toNat_sampleHash {i : Nat} (h : i < 2 ^ 256) : (sampleHash i).bytes.toNat = i := by
  rw [sampleHash, BitVec.toNat_ofNat, Nat.mod_eq_of_lt h]

theorem mem_range_hash {b : BlockHash} {n : Nat} (hn : n ≤ 2 ^ 256) :
    b ∈ (List.range n).map sampleHash ↔ b.bytes.toNat < n := by
  rw [List.mem_map]
  constructor
  · rintro ⟨i, hi, rfl⟩
    rw [List.mem_range] at hi
    rwa [toNat_sampleHash (hi.trans_le hn)]
  · intro hb
    exact ⟨b.bytes.toNat, List.mem_range.mpr hb, by rw [sampleHash, BitVec.ofNat_toNat]; simp⟩

/-- The blocks in one line, by their numbers. -/
def sampleChains : Lineage BlockHash where
  path b := (List.range (b.bytes.toNat + 1)).map sampleHash
  ends b := by
    refine ⟨(List.range b.bytes.toNat).map sampleHash, ?_⟩
    rw [List.range_succ, List.map_append, List.map_singleton, sampleHash, BitVec.ofNat_toNat]
    simp
  begins a b h := by
    rw [mem_range_hash b.bytes.isLt] at h
    obtain ⟨k, hk⟩ := Nat.exists_eq_add_of_le (Nat.lt_succ_iff.mp h)
    rw [hk, Nat.add_right_comm]
    refine List.IsPrefix.map sampleHash ⟨_, List.range_add.symm⟩
  nodup b := by
    refine List.nodup_range.map_on fun i hi j hj heq ↦ ?_
    rw [List.mem_range] at hi hj
    have hlt := b.bytes.isLt
    rw [← toNat_sampleHash (by omega : i < 2 ^ 256), heq, toNat_sampleHash (by omega)]

theorem mem_samplePath {a b : BlockHash} :
    a ∈ sampleChains.path b ↔ a.bytes.toNat ≤ b.bytes.toNat := by
  rw [sampleChains, mem_range_hash b.bytes.isLt, Nat.lt_succ_iff]

/-- Each block accepted one transaction. -/
def sampleAccepted (b : BlockHash) : List TxId := [⟨b.bytes⟩]

def sampleBlock (b : BlockHash) : AcceptedBlock := ⟨b, sampleAccepted b⟩

/-- A node that answers a block at a time, and this for what it cannot walk from. -/
def sampleNode (v : View) (stale : Result ChainStep) : TimedSource where
  pruningPoint _ := .ok v.pruning
  virtualChainFrom _ c :=
    if v.pruning.bytes.toNat ≤ c.bytes.toNat ∧ c.bytes.toNat ≤ v.tip.bytes.toNat then
      .ok ⟨[], if c.bytes.toNat < v.tip.bytes.toNat then
        [sampleBlock (sampleHash (c.bytes.toNat + 1))] else []⟩
    else stale

theorem serves_sampleNode {v : View} (hv : v.pruning.bytes.toNat ≤ v.tip.bytes.toNat)
    (stale : Result ChainStep) : Serves sampleChains sampleAccepted v (sampleNode v stale) where
  pruned := mem_samplePath.mpr hv
  dag _ := rfl
  walks n c hc hp := by
    rw [mem_samplePath] at hc hp
    have hafter : sampleChains.after c v.tip =
        ((List.range (v.tip.bytes.toNat + 1)).drop (c.bytes.toNat + 1)).map sampleHash := by
      rw [Lineage.after, sampleChains]
      simp only [List.length_map, List.length_range, List.map_drop]
    refine ⟨_, if_pos ⟨hp, hc⟩, ?_⟩
    by_cases hlt : c.bytes.toNat < v.tip.bytes.toNat
    · simp only [if_pos hlt]
      refine ⟨?_, ?_, fun h ↦ absurd h (List.cons_ne_nil _ _)⟩
      · rw [hafter, List.drop_eq_getElem_cons (by simpa using hlt)]
        simp [sampleBlock]
      · rintro a ha
        rw [List.mem_singleton.mp ha]
        rfl
    · simp only [if_neg hlt]
      refine ⟨List.nil_prefix, List.forall_mem_nil _, fun _ ↦ ?_⟩
      rw [hafter, List.drop_eq_nil_of_le (by simp; omega), List.map_nil]

def sampleRow : EventRow where
  covenantId := ⟨0⟩
  seq := 0
  kind := .genesis
  txid := ⟨3⟩
  acceptingBlock := sampleHash 3
  acceptingDaa := 3
  payload := none
  laneNamespace := none
  payloadTag := none
  inscriptionKind := none
  txIndex := none
  acceptingTimeMs := none
  acceptingBlueScore := none
  eventIndex := none
  deliveryStreamSeq := none

/-- An old row of the last block. -/
def sampleStore : IndexStore where
  covenantEvents := [sampleRow]
  cursor := some (sampleHash 3)
  txIndexBackfilledTo := none

/-- A session from the first block on, cut off when the second is recorded. -/
def firstSession : Session where
  node := sampleNode ⟨sampleHash 3, sampleHash 0⟩ (.error (.rpc "unknown block"))
  view := ⟨sampleHash 3, sampleHash 0⟩
  steps := 2

/-- A later session on a node that has pruned the recorded block. -/
def laterSession (stale : Result ChainStep) : Session where
  node := sampleNode ⟨sampleHash 3, sampleHash 2⟩ stale
  view := ⟨sampleHash 3, sampleHash 2⟩
  steps := 0

theorem candid_sampleNode (v : View) (e : Error) :
    Candid sampleChains sampleAccepted v (sampleNode v (.error e)) := by
  rintro n c response h
  left
  rw [mem_samplePath, mem_samplePath]
  by_cases hwalks : v.pruning.bytes.toNat ≤ c.bytes.toNat ∧ c.bytes.toNat ≤ v.tip.bytes.toNat
  · exact ⟨hwalks.2, hwalks.1⟩
  · have hstale : (sampleNode v (.error e)).virtualChainFrom n c = .error e := if_neg hwalks
    rw [hstale] at h
    cases h

/-- The node refuses the recorded block, and the run starts over at the pruning point. -/
theorem backfillLaw_sample : BackfillLaw sampleChains sampleAccepted sampleStore [firstSession]
    (laterSession (.error (.rpc "unknown block"))) := by
  refine backfillLaw_of_candid rfl ⟨?_, ?_, ?_⟩ (by decide +kernel)
  · rintro σ hσ
    obtain rfl | hσ := List.mem_cons.mp hσ
    · exact serves_sampleNode (by decide) _
    · rw [List.mem_singleton.mp hσ]
      exact serves_sampleNode (by decide) _
  · rintro σ hσ
    obtain rfl | hσ := List.mem_cons.mp hσ
    · exact candid_sampleNode _ _
    · rw [List.mem_singleton.mp hσ]
      exact candid_sampleNode _ _
  · refine List.pairwise_cons.mpr ⟨fun τ hτ ↦ ?_, List.pairwise_singleton _ _⟩
    rw [List.mem_singleton.mp hτ]
    exact mem_samplePath.mpr (by decide)

/-- The node answers for the recorded block as if it were the tip, and the backfill is done
with the row unstamped. -/
theorem backfill_missed :
    Serves sampleChains sampleAccepted firstSession.view firstSession.node ∧
    Serves sampleChains sampleAccepted (laterSession (.ok ⟨[], []⟩)).view
      (laterSession (.ok ⟨[], []⟩)).node ∧
    ¬ BackfillLaw sampleChains sampleAccepted sampleStore [firstSession]
      (laterSession (.ok ⟨[], []⟩)) := by
  refine ⟨serves_sampleNode (by decide) _, serves_sampleNode (by decide) _, fun h ↦ ?_⟩
  obtain ⟨steps, n, visited, hend⟩ := h.ends
  have hover : runFor (laterSession (.ok ⟨[], []⟩)).node (resumed sampleStore [firstSession]) 2 =
      { store := { sampleStore with txIndexBackfilledTo := some .done }
        stop := some (sampleHash 3)
        phase := .returned (.ok 0)
        stamped := 0
        calls := 1
        visited := [] } := by
    decide +kernel
  obtain ⟨-, hevents, hvisited⟩ := hend 2
  rw [Nat.add_comm, runFor_add, hover, step_returned rfl] at hevents
  have hreach : sampleHash 3 ∈ visited := by
    refine hvisited _ ⟨mem_samplePath.mpr (by decide), fun hold ↦ ?_, _, rfl, fun _ ↦
      sampleChains.mem_self _⟩
    exact absurd (mem_samplePath.mp hold) (by decide)
  have hrow := List.singleton_inj.mp hevents
  rw [stampedAt, if_pos ⟨rfl, hreach, by decide⟩] at hrow
  exact absurd (congrArg EventRow.txIndex hrow) nofun

end Kascov.TxIndex
