import Kascov.Lib.Consecutive
import Kascov.Lib.Groups
import Kascov.Lib.UnionFind
import Kascov.Store.Tables
import Mathlib.Data.List.Sort

/-!
# Families of covenants

`build_families` clusters the covenants that moved together into applications, by union and
find over the transactions that touched more than one covenant.
-/

namespace Kascov

open Groups Consecutive UnionFind Relation

/-! ## The rows -/

/-- The rows of `Store::multi_covenant_txs`: the events of a transaction that touched more
than one covenant, in the order of the transactions. -/
def multiCovenantRows (s : Store) : List (TxId × CovenantId) :=
  ((s.covenantEvents.filter fun e ↦
      1 < distinct (·.covenantId) (s.covenantEvents.filter (·.txid = e.txid))).map
    fun e ↦ (e.txid, e.covenantId)).insertionSort fun r r' ↦ r.1.bytes.toNat ≤ r'.1.bytes.toNat

/-- `Store::multi_covenant_txs`. -/
def multiCovenantTxs (s : Store) : List (TxId × List CovenantId) := groupRows (multiCovenantRows s)

/-! ## The families -/

/-- The order in which a hash map gives out what it has. -/
structure HashOrder where
  arrange : {α : Type} → List α → List α
  perm : ∀ {α : Type} (xs : List α), (arrange xs).Perm xs

structure FamilyMember where
  covenantId : CovenantId
  template : Option String
  sharedTxs : Nat
deriving DecidableEq

structure Family where
  size : Nat
  members : List FamilyMember
deriving DecidableEq

def Family.ids (f : Family) : List CovenantId := f.members.map (·.covenantId)

/-- The pointers of the covenants, and the number of transactions each has been seen in. -/
abbrev Clustering := InsertionMap CovenantId CovenantId × InsertionMap CovenantId Nat

/-- A covenant of a transaction is counted, and is its own root when it is new. -/
def countMember (acc : Clustering) (c : CovenantId) : Clustering :=
  (if (acc.1.get? c).isNone then acc.1.set c c else acc.1,
    acc.2.set c ((acc.2.get? c).getD 0 + 1))

/-- All covenants of a transaction are united with the first. -/
def uniteTx (acc : Clustering) (tx : TxId × List CovenantId) : Option Clustering :=
  let acc := tx.2.foldl countMember acc
  match tx.2 with
  | [] => some acc
  | first :: rest => (rest.foldlM (fun parent c ↦ union parent first c) acc.1).map (·, acc.2)

/-- What is shown of a cluster. -/
def familyOf (templates : List (CovenantId × String)) (sharedTxs : InsertionMap CovenantId Nat)
    (covs : List CovenantId) : Family where
  size := covs.length
  members := (covs.insertionSort (· ≤ ·)).map fun c ↦
    ⟨c, templates.lookup c, (sharedTxs.get? c).getD 0⟩

/-- The clusters of more than one covenant, as `build_families` and `build_galaxy_fmt` gather
them, and the counts. -/
def clustersOf (order : HashOrder) (s : Store) :
    Option (List (List CovenantId) × InsertionMap CovenantId Nat) := do
  let (parent, sharedTxs) ← (multiCovenantTxs s).foldlM uniteTx ({}, {})
  let clusters ← gather parent (order.arrange (keys parent))
  return ((order.arrange (clusters.entries.map Prod.snd)).filter (2 ≤ ·.length), sharedTxs)

/-- The families of `build_families`. -/
def buildFamilies (order : HashOrder) (s : Store) (templates : List (CovenantId × String)) :
    Option (List Family) :=
  (clustersOf order s).map fun (clusters, sharedTxs) ↦
    (clusters.map (familyOf templates sharedTxs)).insertionSort fun f f' ↦ f'.size ≤ f.size

/-- The least id of a cluster. -/
def leastId (covs : List CovenantId) : Nat := ((covs.map (·.bytes.toNat)).min?).getD 0

/-- The order of the clusters of a galaxy: the biggest first, then by the least member. -/
def GalaxyBefore (covs covs' : List CovenantId) : Prop :=
  covs'.length < covs.length ∨ covs.length = covs'.length ∧ leastId covs ≤ leastId covs'

instance : DecidableRel GalaxyBefore := fun covs covs' ↦
  inferInstanceAs (Decidable (covs'.length < covs.length ∨
    covs.length = covs'.length ∧ leastId covs ≤ leastId covs'))

/-- `cluster_list` of `build_galaxy_fmt`, from which the apps and the nodes are laid out. -/
def galaxyClusters (order : HashOrder) (s : Store) : Option (List (List CovenantId)) :=
  (clustersOf order s).map fun (clusters, _) ↦
    (clusters.insertionSort GalaxyBefore).map (·.insertionSort (· ≤ ·))

/-! ## What moved together -/

/-- A transaction touched a covenant. -/
def Touched (s : Store) (t : TxId) (c : CovenantId) : Prop :=
  ∃ e ∈ s.covenantEvents, e.txid = t ∧ e.covenantId = c

/-- A transaction touched both covenants. -/
def MovedTogether (s : Store) (a b : CovenantId) : Prop := ∃ t, Touched s t a ∧ Touched s t b

/-- The transactions that touched a covenant and another one. -/
def sharedTxIds (s : Store) (c : CovenantId) : List TxId :=
  ((s.covenantEvents.filter fun e ↦ e.covenantId = c ∧
    1 < distinct (·.covenantId) (s.covenantEvents.filter (·.txid = e.txid))).map (·.txid)).dedup

section Rows

variable {s : Store} {t : TxId} {c : CovenantId}

/-- A count of distinct keys passes one just when two of them differ. -/
theorem one_lt_distinct {α κ : Type} [DecidableEq κ] {key : α → κ} {rows : List α} :
    1 < distinct key rows ↔ ∃ a ∈ rows, ∃ b ∈ rows, key a ≠ key b := by
  rw [distinct]
  constructor
  · intro h
    rcases hkeys : (rows.map key).dedup with _ | ⟨x, _ | ⟨y, rest⟩⟩
    · rw [hkeys] at h
      exact absurd h (Nat.not_lt_zero 1)
    · rw [hkeys] at h
      exact absurd h (Nat.lt_irrefl 1)
    · have hne : x ≠ y := by
        have hnodup := List.nodup_dedup (rows.map key)
        rw [hkeys] at hnodup
        exact fun heq ↦ (List.nodup_cons.mp hnodup).1 (heq ▸ List.mem_cons_self)
      have hx : x ∈ rows.map key := List.mem_dedup.mp (hkeys ▸ List.mem_cons_self)
      have hy : y ∈ rows.map key :=
        List.mem_dedup.mp (hkeys ▸ List.mem_cons_of_mem _ List.mem_cons_self)
      obtain ⟨a, ha, rfl⟩ := List.mem_map.mp hx
      obtain ⟨b, hb, rfl⟩ := List.mem_map.mp hy
      exact ⟨a, ha, b, hb, hne⟩
  · rintro ⟨a, ha, b, hb, hne⟩
    have hsub : [key a, key b] ⊆ (rows.map key).dedup := by
      intro k hk
      rw [List.mem_dedup]
      rcases List.mem_cons.mp hk with rfl | hk
      · exact List.mem_map_of_mem ha
      · exact List.mem_singleton.mp hk ▸ List.mem_map_of_mem hb
    have hnodup : [key a, key b].Nodup :=
      List.nodup_cons.mpr ⟨fun hk ↦ hne (List.mem_singleton.mp hk), List.nodup_singleton _⟩
    exact (hnodup.subperm hsub).length_le

/-- The transaction of an event touched another covenant besides. -/
theorem one_lt_touched (h : Touched s t c) :
    1 < distinct (·.covenantId) (s.covenantEvents.filter (·.txid = t)) ↔
      ∃ d, d ≠ c ∧ Touched s t d := by
  rw [one_lt_distinct]
  constructor
  · rintro ⟨a, ha, b, hb, hne⟩
    obtain ⟨ha, hat⟩ := List.mem_filter.mp ha
    obtain ⟨hb, hbt⟩ := List.mem_filter.mp hb
    by_cases hac : a.covenantId = c
    · exact ⟨b.covenantId, fun hbc ↦ hne (hac.trans hbc.symm), b, hb, of_decide_eq_true hbt, rfl⟩
    · exact ⟨a.covenantId, hac, a, ha, of_decide_eq_true hat, rfl⟩
  · rintro ⟨d, hd, e', he', ht', rfl⟩
    obtain ⟨e, he, ht, rfl⟩ := h
    exact ⟨e', List.mem_filter.mpr ⟨he', decide_eq_true ht'⟩, e,
      List.mem_filter.mpr ⟨he, decide_eq_true ht⟩, hd⟩

theorem mem_multiCovenantRows :
    (t, c) ∈ multiCovenantRows s ↔ Touched s t c ∧ ∃ d, d ≠ c ∧ Touched s t d := by
  rw [multiCovenantRows, List.mem_insertionSort, List.mem_map]
  constructor
  · rintro ⟨e, he, heq⟩
    obtain ⟨rfl, rfl⟩ := Prod.mk.inj heq
    obtain ⟨he, hcount⟩ := List.mem_filter.mp he
    have htouched : Touched s e.txid e.covenantId := ⟨e, he, rfl, rfl⟩
    exact ⟨htouched, (one_lt_touched htouched).mp (of_decide_eq_true hcount)⟩
  · rintro ⟨htouched, hother⟩
    have hcount := (one_lt_touched htouched).mpr hother
    obtain ⟨e, he, rfl, rfl⟩ := htouched
    exact ⟨e, List.mem_filter.mpr ⟨he, decide_eq_true hcount⟩, rfl⟩

theorem mem_sharedTxIds : t ∈ sharedTxIds s c ↔ (t, c) ∈ multiCovenantRows s := by
  rw [sharedTxIds, List.mem_dedup, List.mem_map, mem_multiCovenantRows]
  constructor
  · rintro ⟨e, hmem, rfl⟩
    obtain ⟨he, hkept⟩ := List.mem_filter.mp hmem
    have hcount := of_decide_eq_true hkept
    have htouched : Touched s e.txid c := ⟨e, he, rfl, hcount.1⟩
    exact ⟨htouched, (one_lt_touched htouched).mp hcount.2⟩
  · rintro ⟨htouched, hother⟩
    have hcount := (one_lt_touched htouched).mpr hother
    obtain ⟨e, he, rfl, rfl⟩ := htouched
    exact ⟨e, List.mem_filter.mpr ⟨he, decide_eq_true ⟨rfl, hcount⟩⟩, rfl⟩

theorem multiCovenantTxs_grouped (s : Store) :
    Grouped (fun t : TxId ↦ t.bytes.toNat) (multiCovenantRows s) (multiCovenantTxs s) := by
  refine groupRows_spec (fun _ _ h ↦ congrArg TxId.mk (BitVec.eq_of_toNat_eq h)) ?_
  exact List.pairwise_insertionSort (fun r r' : TxId × CovenantId ↦
    r.1.bytes.toNat ≤ r'.1.bytes.toNat) _

/-- The transactions of a covenant are counted once. -/
theorem countP_multiCovenantTxs (s : Store) (c : CovenantId) :
    (multiCovenantTxs s).countP (c ∈ ·.2) = (sharedTxIds s c).length := by
  have hgrouped := multiCovenantTxs_grouped s
  have hnodup : (((multiCovenantTxs s).filter (c ∈ ·.2)).map Prod.fst).Nodup :=
    hgrouped.keys_nodup.sublist (List.filter_sublist.map _)
  rw [List.countP_eq_length_filter, ← List.length_map Prod.fst]
  refine ((List.perm_ext_iff_of_nodup hnodup (List.nodup_dedup _)).mpr fun t ↦ ?_).length_eq
  change _ ↔ t ∈ sharedTxIds s c
  rw [mem_sharedTxIds, ← hgrouped.mem, List.mem_map]
  constructor
  · rintro ⟨g, hg, rfl⟩
    obtain ⟨hg, hc⟩ := List.mem_filter.mp hg
    exact ⟨g, hg, rfl, of_decide_eq_true hc⟩
  · rintro ⟨g, hg, rfl, hc⟩
    exact ⟨g, List.mem_filter.mpr ⟨hg, decide_eq_true hc⟩, rfl⟩

end Rows

/-! ## The clustering -/

/-- The pairs that a transaction connects. -/
def txPairs (tx : TxId × List CovenantId) : List (CovenantId × CovenantId) :=
  match tx.2 with
  | [] => []
  | first :: rest => rest.map (first, ·)

/-- The pointers of a clustering are well formed. -/
structure WellPointed (acc : Clustering) : Prop where
  forest : Forest acc.1
  nodup : (keys acc.1).Nodup

/-- The transactions seen so far are clustered. -/
structure Clustered (seen : List (TxId × List CovenantId)) (acc : Clustering) : Prop where
  pointed : WellPointed acc
  mem : ∀ c, c ∈ keys acc.1 ↔ ∃ tx ∈ seen, c ∈ tx.2
  together : ∀ a b, Together (up acc.1) a b ↔ EqvGen (Listed (seen.flatMap txPairs)) a b
  shared : ∀ c, (acc.2.get? c).getD 0 = seen.countP (c ∈ ·.2)

section Clustering

variable {seen : List (TxId × List CovenantId)} {acc : Clustering}

/-- Covenants have been counted. -/
structure CountedIn (covs : List CovenantId) (acc acc' : Clustering) : Prop where
  pointed : WellPointed acc'
  mem : ∀ c, c ∈ keys acc'.1 ↔ c ∈ keys acc.1 ∨ c ∈ covs
  together : ∀ a b, Together (up acc'.1) a b ↔ Together (up acc.1) a b
  shared : ∀ c, (acc'.2.get? c).getD 0 = (acc.2.get? c).getD 0 + covs.count c

theorem countMember_spec (h : WellPointed acc) (c : CovenantId) :
    CountedIn [c] acc (countMember acc c) := by
  have hshared : ∀ d, ((acc.2.set c ((acc.2.get? c).getD 0 + 1)).get? d).getD 0 =
      (acc.2.get? d).getD 0 + [c].count d := by
    intro d
    by_cases hd : d = c
    · subst hd
      rw [InsertionMap.get?_set_self, List.count_singleton_self]
      rfl
    · rw [InsertionMap.get?_set_ne hd, List.count_eq_zero_of_not_mem fun hmem ↦
        hd (List.mem_singleton.mp hmem)]
      rfl
  cases hget : acc.1.get? c with
  | some p =>
      have hkey : c ∈ keys acc.1 := List.mem_map_of_mem (InsertionMap.get?_eq_some_iff.mp hget)
      have hsame : (countMember acc c).1 = acc.1 := by
        rw [countMember, hget]
        rfl
      refine ⟨⟨hsame ▸ h.forest, hsame ▸ h.nodup⟩, fun d ↦ ?_, fun a b ↦ by rw [hsame], hshared⟩
      rw [hsame, List.mem_singleton]
      exact ⟨.inl, fun hd ↦ hd.elim (fun hd ↦ hd) fun heq ↦ heq ▸ hkey⟩
  | none =>
      have hnew : c ∉ keys acc.1 := InsertionMap.get?_eq_none_iff.mp hget
      obtain ⟨hforest, hkeys, htogether⟩ := h.forest.insert hnew
      have hset : (countMember acc c).1 = acc.1.set c c := by
        rw [countMember, hget]
        rfl
      rw [← hset] at hforest hkeys htogether
      refine ⟨⟨hforest, ?_⟩, fun d ↦ ?_, htogether, hshared⟩
      · rw [hkeys]
        exact h.nodup.append (List.nodup_singleton c) (List.disjoint_singleton.mpr hnew)
      · rw [hkeys, List.mem_append]

theorem CountedIn.trans {covs covs' : List CovenantId} {acc' acc'' : Clustering}
    (h : CountedIn covs acc acc') (h' : CountedIn covs' acc' acc'') :
    CountedIn (covs ++ covs') acc acc'' where
  pointed := h'.pointed
  mem c := by rw [h'.mem, h.mem, List.mem_append, or_assoc]
  together a b := (h'.together a b).trans (h.together a b)
  shared c := by rw [h'.shared, h.shared, List.count_append, Nat.add_assoc]

/-- The covenants of a transaction are counted. -/
theorem foldl_countMember (h : WellPointed acc) (covs : List CovenantId) :
    CountedIn covs acc (covs.foldl countMember acc) := by
  induction covs generalizing acc with
  | nil =>
      refine ⟨h, fun c ↦ ?_, fun a b ↦ Iff.rfl, fun c ↦ rfl⟩
      exact (or_iff_left List.not_mem_nil).symm
  | cons c covs ih =>
      have hc := countMember_spec h c
      exact hc.trans (ih hc.pointed)

/-- The others of a transaction are united with the first. -/
theorem foldlM_union {m : InsertionMap CovenantId CovenantId} {first : CovenantId}
    {rest : List CovenantId} {pairs : List (CovenantId × CovenantId)} (hforest : Forest m)
    (hfirst : first ∈ keys m) (hrest : ∀ c ∈ rest, c ∈ keys m)
    (h : ∀ a b, Together (up m) a b ↔ EqvGen (Listed pairs) a b) :
    ∃ m', rest.foldlM (fun parent c ↦ union parent first c) m = some m' ∧ keys m' = keys m ∧
      Forest m' ∧ ∀ a b, Together (up m') a b ↔
        EqvGen (Listed (pairs ++ rest.map (first, ·))) a b := by
  induction rest generalizing m pairs with
  | nil => exact ⟨m, rfl, rfl, hforest, by rw [List.map_nil, List.append_nil]; exact h⟩
  | cons c rest ih =>
      obtain ⟨m₁, hunion, hkeys, hforest₁, hjoins⟩ :=
        union_spec hforest hfirst (hrest c List.mem_cons_self)
      have h₁ : ∀ a b, Together (up m₁) a b ↔ EqvGen (Listed (pairs ++ [(first, c)])) a b := by
        intro a b
        rw [hjoins, eqvGen_concat]
        simp only [Joins, h]
      obtain ⟨m₂, hfold, hkeys₂, hforest₂, h₂⟩ := ih hforest₁ (hkeys ▸ hfirst)
        (fun d hd ↦ hkeys ▸ hrest d (List.mem_cons_of_mem _ hd)) h₁
      refine ⟨m₂, ?_, hkeys₂.trans hkeys, hforest₂, fun a b ↦ ?_⟩
      · rw [List.foldlM_cons, hunion]
        exact hfold
      · rw [h₂, List.map_cons, List.append_assoc]
        rfl

/-- **One transaction.** -/
theorem Clustered.step (h : Clustered seen acc) {tx : TxId × List CovenantId}
    (hnodup : tx.2.Nodup) :
    ∃ acc', uniteTx acc tx = some acc' ∧ Clustered (seen ++ [tx]) acc' := by
  have hcounted := foldl_countMember h.pointed tx.2
  have hmem : ∀ c, c ∈ keys (tx.2.foldl countMember acc).1 ↔ ∃ t ∈ seen ++ [tx], c ∈ t.2 := by
    intro c
    rw [hcounted.mem, h.mem]
    constructor
    · rintro (⟨t, ht, hc⟩ | hc)
      · exact ⟨t, List.mem_append_left _ ht, hc⟩
      · exact ⟨tx, List.mem_append_right _ (List.mem_singleton_self _), hc⟩
    · rintro ⟨t, ht, hc⟩
      rcases List.mem_append.mp ht with ht | ht
      · exact .inl ⟨t, ht, hc⟩
      · exact .inr (List.mem_singleton.mp ht ▸ hc)
  have hshared : ∀ c, ((tx.2.foldl countMember acc).2.get? c).getD 0 =
      (seen ++ [tx]).countP (c ∈ ·.2) := by
    intro c
    rw [hcounted.shared, h.shared, List.countP_append, List.countP_singleton]
    refine congrArg (Nat.add _) ?_
    by_cases hc : c ∈ tx.2
    · rw [List.count_eq_one_of_mem hnodup hc, if_pos (decide_eq_true hc)]
    · rw [List.count_eq_zero_of_not_mem hc, if_neg (by rw [decide_eq_true_eq]; exact hc)]
  have htogether : ∀ a b, Together (up (tx.2.foldl countMember acc).1) a b ↔
      EqvGen (Listed (seen.flatMap txPairs)) a b := fun a b ↦
    (hcounted.together a b).trans (h.together a b)
  unfold uniteTx
  cases hcovs : tx.2 with
  | nil =>
      rw [hcovs] at hcounted hmem hshared htogether
      refine ⟨_, rfl, hcounted.pointed, hmem, fun a b ↦ ?_, hshared⟩
      have hpairs : txPairs tx = [] := by rw [txPairs, hcovs]
      rw [List.flatMap_append, List.flatMap_singleton, hpairs, List.append_nil]
      exact htogether a b
  | cons first rest =>
      have hin : ∀ c ∈ first :: rest, c ∈ keys (tx.2.foldl countMember acc).1 := fun c hc ↦
        (hcounted.mem c).mpr (.inr (hcovs ▸ hc))
      obtain ⟨m, hfold, hkeys, hforest, hunited⟩ := foldlM_union hcounted.pointed.forest
        (hin first List.mem_cons_self) (fun c hc ↦ hin c (List.mem_cons_of_mem _ hc)) htogether
      rw [hcovs] at hfold hkeys hcounted hmem hshared
      refine ⟨(m, _), congrArg (Option.map _) hfold, ⟨hforest, hkeys ▸ hcounted.pointed.nodup⟩,
        fun c ↦ ?_, fun a b ↦ ?_, hshared⟩
      · rw [hkeys]
        exact hmem c
      · have hpairs : txPairs tx = rest.map (first, ·) := by rw [txPairs, hcovs]
        rw [List.flatMap_append, List.flatMap_singleton, hpairs]
        exact hunited a b

theorem Clustered.run (h : Clustered seen acc) {txs : List (TxId × List CovenantId)}
    (hnodup : ∀ tx ∈ txs, tx.2.Nodup) :
    ∃ acc', txs.foldlM uniteTx acc = some acc' ∧ Clustered (seen ++ txs) acc' := by
  induction txs generalizing seen acc with
  | nil => exact ⟨acc, rfl, by rw [List.append_nil]; exact h⟩
  | cons tx txs ih =>
      obtain ⟨acc₁, hstep, h₁⟩ := h.step (hnodup tx List.mem_cons_self)
      obtain ⟨acc₂, hrest, h₂⟩ := ih h₁ fun t ht ↦ hnodup t (List.mem_cons_of_mem _ ht)
      refine ⟨acc₂, ?_, by rw [List.append_cons]; exact h₂⟩
      rw [List.foldlM_cons, hstep]
      exact hrest

theorem clustered_empty : Clustered [] ({}, {}) where
  pointed := ⟨forest_empty, List.nodup_nil⟩
  mem c := ⟨fun hc ↦ absurd hc List.not_mem_nil, fun ⟨_, ht, _⟩ ↦ absurd ht List.not_mem_nil⟩
  together a b := by
    constructor
    · rintro ⟨r, ha, hb⟩
      rw [rootOf_self_iff rfl] at ha hb
      exact ha ▸ hb ▸ .refl _
    · intro h
      have hequiv : Equivalence (Together (up ({} : InsertionMap CovenantId CovenantId))) :=
        forest_empty.rooted.together
      induction h with
      | rel x y hmem => exact absurd hmem List.not_mem_nil
      | refl x => exact hequiv.refl x
      | symm x y _ ih => exact hequiv.symm ih
      | trans x y z _ _ ihxy ihyz => exact hequiv.trans ihxy ihyz
  shared c := rfl

end Clustering

/-- What the pairs of the transactions connect is what moved together. -/
theorem eqvGen_txPairs (s : Store) :
    EqvGen (Listed ((multiCovenantTxs s).flatMap txPairs)) = EqvGen (MovedTogether s) := by
  have hgrouped := multiCovenantTxs_grouped s
  refine le_antisymm (EqvGen.mono fun a b hab ↦ ?_) (EqvGen.eqvGen_le fun a b hab ↦ ?_)
  · obtain ⟨tx, htx, hpair⟩ := List.mem_flatMap.mp hab
    have htouched : ∀ c ∈ tx.2, Touched s tx.1 c := fun c hc ↦
      (mem_multiCovenantRows.mp ((hgrouped.mem tx.1 c).mp ⟨tx, htx, rfl, hc⟩)).1
    unfold txPairs at hpair
    split at hpair
    · cases hpair
    · rename_i first rest hcovs
      obtain ⟨c, hc, heq⟩ := List.mem_map.mp hpair
      obtain ⟨rfl, rfl⟩ := Prod.mk.inj heq
      refine ⟨tx.1, htouched _ (hcovs ▸ List.mem_cons_self), htouched _ ?_⟩
      exact hcovs ▸ List.mem_cons_of_mem _ hc
  · by_cases hne : a = b
    · exact hne ▸ .refl a
    obtain ⟨t, ha, hb⟩ := hab
    obtain ⟨g, hg, hgt, hga⟩ := (hgrouped.mem t a).mpr
      (mem_multiCovenantRows.mpr ⟨ha, b, fun heq ↦ hne heq.symm, hb⟩)
    obtain ⟨g', hg', hgt', hgb⟩ := (hgrouped.mem t b).mpr
      (mem_multiCovenantRows.mpr ⟨hb, a, hne, ha⟩)
    -- a transaction has one group
    obtain rfl : g = g' :=
      List.inj_on_of_nodup_map hgrouped.keys_nodup hg hg' (hgt.trans hgt'.symm)
    cases hcovs : g.2 with
    | nil => exact absurd hcovs (hgrouped.nonempty g hg)
    | cons first rest =>
        have hfirst : ∀ c ∈ g.2,
            EqvGen (Listed ((multiCovenantTxs s).flatMap txPairs)) first c := by
          intro c hc
          rw [hcovs] at hc
          rcases List.mem_cons.mp hc with rfl | hc
          · exact .refl c
          · refine .rel _ _ (List.mem_flatMap.mpr ⟨g, hg, ?_⟩)
            rw [txPairs, hcovs]
            exact List.mem_map_of_mem hc
        exact .trans _ _ _ (.symm _ _ (hfirst a hga)) (hfirst b hgb)

/-! ## The families -/

theorem ids_familyOf (templates : List (CovenantId × String))
    (sharedTxs : InsertionMap CovenantId Nat) (covs : List CovenantId) :
    (familyOf templates sharedTxs covs).ids = covs.insertionSort (· ≤ ·) := by
  rw [Family.ids, familyOf, List.map_map]
  exact List.map_id _

/-- The clusters of a store: what moved together, each covenant once. -/
structure Classes (s : Store) (clusters : List (List CovenantId)) : Prop where
  nodup : ∀ covs ∈ clusters, covs.Nodup
  two : ∀ covs ∈ clusters, 2 ≤ covs.length
  disjoint : clusters.Pairwise List.Disjoint
  connected : ∀ a b, a ≠ b → ((∃ covs ∈ clusters, a ∈ covs ∧ b ∈ covs) ↔
    EqvGen (MovedTogether s) a b)

/-- **The clustering ends, with the classes.** -/
theorem clustersOf_spec (order : HashOrder) (s : Store) :
    ∃ clusters sharedTxs, clustersOf order s = some (clusters, sharedTxs) ∧
      Classes s clusters ∧ ∀ c, (sharedTxs.get? c).getD 0 = (sharedTxIds s c).length := by
  obtain ⟨acc, hfold, hclustered⟩ := clustered_empty.run (multiCovenantTxs_grouped s).nodup
  rw [List.nil_append] at hclustered
  obtain ⟨hforest, hnodup⟩ := hclustered.pointed
  obtain ⟨gathered, hgather, hgathered⟩ :=
    gather_spec hforest.rooted ((order.perm (keys acc.1)).nodup_iff.mpr hnodup)
  have hclusters : clustersOf order s =
      some ((order.arrange (gathered.entries.map Prod.snd)).filter (2 ≤ ·.length), acc.2) := by
    rw [clustersOf, hfold]
    dsimp only [Option.bind_eq_bind, Option.bind_some]
    rw [hgather]
    rfl
  refine ⟨_, _, hclusters, ?_, fun c ↦ (hclustered.shared c).trans (countP_multiCovenantTxs s c)⟩
  have hmem : ∀ covs, covs ∈ (order.arrange (gathered.entries.map Prod.snd)).filter
      (2 ≤ ·.length) ↔ (∃ r, (r, covs) ∈ gathered.entries) ∧ 2 ≤ covs.length := by
    intro covs
    rw [List.mem_filter, (order.perm _).mem_iff, decide_eq_true_eq, List.mem_map]
    refine and_congr_left' ⟨?_, fun ⟨r, hr⟩ ↦ ⟨(r, covs), hr, rfl⟩⟩
    rintro ⟨⟨r, covs⟩, hentry, rfl⟩
    exact ⟨r, hentry⟩
  refine ⟨fun covs hcovs ↦ ?_, fun covs hcovs ↦ ((hmem covs).mp hcovs).2, ?_, fun a b hne ↦ ?_⟩
  · obtain ⟨⟨r, hentry⟩, -⟩ := (hmem covs).mp hcovs
    exact (hgathered.of_entry hentry).1
  · exact List.Pairwise.sublist List.filter_sublist
      (((order.perm _).pairwise_iff List.Disjoint.symm).mpr hgathered.disjoint)
  · rw [← eqvGen_txPairs, ← hclustered.together]
    constructor
    · rintro ⟨covs, hcovs, ha, hb⟩
      obtain ⟨⟨r, hentry⟩, -⟩ := (hmem covs).mp hcovs
      have hclass := (hgathered.of_entry hentry).2
      exact ⟨r, ((hclass a).mp ha).2, ((hclass b).mp hb).2⟩
    · rintro ⟨r, ha, hb⟩
      have hput : ∀ c, c ∈ keys acc.1 → RootOf (up acc.1) c r → c ∈ (gathered.get? r).getD [] :=
        fun c hc hr ↦ (hgathered.mem r c).mpr ⟨(order.perm _).mem_iff.mpr hc, hr⟩
      have hina := hput a (hforest.mem_keys hne ha hb) ha
      have hinb := hput b (hforest.mem_keys (Ne.symm hne) hb ha) hb
      cases hget : gathered.get? r with
      | none =>
          rw [hget] at hina
          cases hina
      | some covs =>
          rw [hget] at hina hinb
          refine ⟨covs, (hmem covs).mpr ⟨⟨r, InsertionMap.get?_eq_some_iff.mp hget⟩, ?_⟩, hina,
            hinb⟩
          have hsub : [a, b] ⊆ covs := List.cons_subset.mpr ⟨hina, List.cons_subset.mpr
            ⟨hinb, List.nil_subset _⟩⟩
          have htwo : [a, b].Nodup := List.nodup_cons.mpr
            ⟨fun hmem ↦ hne (List.mem_singleton.mp hmem), List.nodup_singleton _⟩
          exact (htwo.subperm hsub).length_le

/-- **The families are the connected components** of the covenants that moved together: whatever
the order in which the hash maps give out their entries, the clustering ends, two covenants
share a family just when transactions connect them, no covenant is shown twice, and each is
shown with the number of transactions it shared. -/
theorem buildFamilies_components (order : HashOrder) (s : Store)
    (templates : List (CovenantId × String)) :
    ∃ families, buildFamilies order s templates = some families ∧
      (∀ a b, a ≠ b → ((∃ f ∈ families, a ∈ f.ids ∧ b ∈ f.ids) ↔
        EqvGen (MovedTogether s) a b)) ∧
      (families.flatMap Family.ids).Nodup ∧
      families.Pairwise (fun f f' ↦ f'.size ≤ f.size) ∧
      ∀ f ∈ families, 2 ≤ f.size ∧ f.size = f.members.length ∧ f.ids.Pairwise (· ≤ ·) ∧
        ∀ m ∈ f.members, m.template = templates.lookup m.covenantId ∧
          m.sharedTxs = (sharedTxIds s m.covenantId).length := by
  obtain ⟨clusters, sharedTxs, hclusters, hclasses, hshared⟩ := clustersOf_spec order s
  have hfamilies : buildFamilies order s templates =
      some ((clusters.map (familyOf templates sharedTxs)).insertionSort
        fun f f' ↦ f'.size ≤ f.size) := congrArg (Option.map _) hclusters
  have hshown : ∀ f, f ∈ (clusters.map (familyOf templates sharedTxs)).insertionSort
      (fun f f' ↦ f'.size ≤ f.size) ↔ ∃ covs ∈ clusters, familyOf templates sharedTxs covs = f := by
    intro f
    rw [List.mem_insertionSort, List.mem_map]
  refine ⟨_, hfamilies, fun a b hne ↦ ?_, ?_, ?_, fun f hf ↦ ?_⟩
  · rw [← hclasses.connected a b hne]
    constructor
    · rintro ⟨f, hf, ha, hb⟩
      obtain ⟨covs, hcovs, rfl⟩ := (hshown f).mp hf
      rw [ids_familyOf, List.mem_insertionSort] at ha hb
      exact ⟨covs, hcovs, ha, hb⟩
    · rintro ⟨covs, hcovs, ha, hb⟩
      refine ⟨_, (hshown _).mpr ⟨covs, hcovs, rfl⟩, ?_⟩
      rw [ids_familyOf, List.mem_insertionSort, List.mem_insertionSort]
      exact ⟨ha, hb⟩
  · have hflat := ((List.perm_insertionSort (fun f f' : Family ↦ f'.size ≤ f.size)
      (clusters.map (familyOf templates sharedTxs))).flatMap_right Family.ids)
    rw [hflat.nodup_iff, List.flatMap_map, List.nodup_flatMap]
    refine ⟨fun covs hcovs ↦ ?_, hclasses.disjoint.imp ?_⟩
    · rw [ids_familyOf, (List.perm_insertionSort _ _).nodup_iff]
      exact hclasses.nodup covs hcovs
    · intro covs covs' hdisjoint c hc hc'
      dsimp only at hc hc'
      rw [ids_familyOf, List.mem_insertionSort] at hc hc'
      exact hdisjoint hc hc'
  · exact List.pairwise_insertionSort (fun f f' : Family ↦ f'.size ≤ f.size) _
  · obtain ⟨covs, hcovs, rfl⟩ := (hshown f).mp hf
    refine ⟨hclasses.two covs hcovs, ?_, ?_, fun m hm ↦ ?_⟩
    · rw [familyOf, List.length_map, List.length_insertionSort]
    · rw [ids_familyOf]
      exact List.pairwise_insertionSort
        (fun a b : CovenantId ↦ a.bytes.toNat ≤ b.bytes.toNat) covs
    · obtain ⟨c, -, rfl⟩ := List.mem_map.mp hm
      exact ⟨rfl, hshared c⟩

/-! ## The galaxy -/

section Galaxy

variable {s : Store} {clusters clusters' : List (List CovenantId)}

/-- Clusters that share a covenant are one. -/
theorem Classes.eq_of_mem (h : Classes s clusters) {covs covs' : List CovenantId}
    (hcovs : covs ∈ clusters) (hcovs' : covs' ∈ clusters) {c : CovenantId} (hc : c ∈ covs)
    (hc' : c ∈ covs') : covs = covs' := by
  by_contra hne
  have hdisjoint : Std.Symm (fun xs ys : List CovenantId ↦ xs.Disjoint ys) :=
    ⟨fun _ _ hxy ↦ hxy.symm⟩
  exact (h.disjoint.forall hcovs hcovs' hne) hc hc'

/-- Clusters of two clusterings that share a covenant have the same ones. -/
theorem Classes.subset (h : Classes s clusters) (h' : Classes s clusters')
    {covs covs' : List CovenantId} (hcovs : covs ∈ clusters) (hcovs' : covs' ∈ clusters')
    {c : CovenantId} (hc : c ∈ covs) (hc' : c ∈ covs') : covs ⊆ covs' := by
  intro d hd
  by_cases hne : c = d
  · exact hne ▸ hc'
  · obtain ⟨other, hother, hco, hdo⟩ :=
      (h'.connected c d hne).mpr ((h.connected c d hne).mp ⟨covs, hcovs, hc, hd⟩)
    exact h'.eq_of_mem hother hcovs' hco hc' ▸ hdo

theorem sorted_ids (covs : List CovenantId) :
    (covs.insertionSort (· ≤ ·)).Pairwise fun a b ↦ a.bytes.toNat ≤ b.bytes.toNat :=
  List.pairwise_insertionSort (fun a b : CovenantId ↦ a.bytes.toNat ≤ b.bytes.toNat) covs

/-- Lists of the same ids are sorted into one. -/
theorem insertionSort_ids_congr {covs covs' : List CovenantId} (h : covs.Perm covs') :
    covs.insertionSort (· ≤ ·) = covs'.insertionSort (· ≤ ·) := by
  refine (((List.perm_insertionSort _ covs).trans h).trans
    (List.perm_insertionSort _ covs').symm).eq_of_pairwise (fun a b _ _ hab hba ↦ ?_)
      (sorted_ids covs) (sorted_ids covs')
  exact congrArg CovenantId.mk (BitVec.eq_of_toNat_eq (Nat.le_antisymm hab hba))

/-- Every cluster is one of the other clustering, but for the order. -/
theorem Classes.covered (h : Classes s clusters) (h' : Classes s clusters')
    {covs : List CovenantId} (hcovs : covs ∈ clusters) :
    ∃ covs' ∈ clusters', covs.insertionSort (· ≤ ·) = covs'.insertionSort (· ≤ ·) := by
  have htwo := h.two covs hcovs
  have hnodup := h.nodup covs hcovs
  rcases covs with _ | ⟨a, _ | ⟨b, rest⟩⟩
  · exact absurd htwo (Nat.not_succ_le_zero 1)
  · exact absurd htwo (Nat.not_succ_le_self 1)
  · have hne : a ≠ b := fun heq ↦ (List.nodup_cons.mp hnodup).1 (heq ▸ List.mem_cons_self)
    have hb : b ∈ a :: b :: rest := List.mem_cons_of_mem _ List.mem_cons_self
    obtain ⟨covs', hcovs', ha', hb'⟩ := (h'.connected a b hne).mpr
      ((h.connected a b hne).mp ⟨_, hcovs, List.mem_cons_self, hb⟩)
    refine ⟨covs', hcovs', insertionSort_ids_congr ?_⟩
    refine (List.perm_ext_iff_of_nodup hnodup (h'.nodup covs' hcovs')).mpr fun c ↦ ⟨?_, ?_⟩
    · exact fun hc ↦ h.subset h' hcovs hcovs' List.mem_cons_self ha' hc
    · exact fun hc ↦ h'.subset h hcovs' hcovs ha' List.mem_cons_self hc

theorem Classes.sorted_nodup (h : Classes s clusters) :
    (clusters.map (·.insertionSort (· ≤ ·))).Nodup := by
  refine List.pairwise_map.mpr (h.disjoint.imp_of_mem fun {covs covs'} hcovs _ hdisjoint heq ↦ ?_)
  obtain ⟨c, hc⟩ := List.exists_mem_of_length_pos
    (Nat.lt_of_lt_of_le Nat.zero_lt_two (h.two covs hcovs))
  refine hdisjoint hc ((List.mem_insertionSort (· ≤ ·)).mp ?_)
  rw [← heq, List.mem_insertionSort]
  exact hc

/-- **A store has one clustering**, but for the order. -/
theorem Classes.perm (h : Classes s clusters) (h' : Classes s clusters') :
    (clusters.map (·.insertionSort (· ≤ ·))).Perm (clusters'.map (·.insertionSort (· ≤ ·))) := by
  refine (List.perm_ext_iff_of_nodup h.sorted_nodup h'.sorted_nodup).mpr fun sorted ↦ ⟨?_, ?_⟩
  · intro hsorted
    obtain ⟨covs, hcovs, rfl⟩ := List.mem_map.mp hsorted
    obtain ⟨covs', hcovs', heq⟩ := h.covered h' hcovs
    exact List.mem_map.mpr ⟨covs', hcovs', heq.symm⟩
  · intro hsorted
    obtain ⟨covs, hcovs, rfl⟩ := List.mem_map.mp hsorted
    obtain ⟨covs', hcovs', heq⟩ := h'.covered h hcovs
    exact List.mem_map.mpr ⟨covs', hcovs', heq.symm⟩

instance : Std.Total GalaxyBefore := ⟨fun covs covs' ↦ by unfold GalaxyBefore; omega⟩

instance : IsTrans (List CovenantId) GalaxyBefore :=
  ⟨fun covs covs' covs'' h h' ↦ by unfold GalaxyBefore at *; omega⟩

/-- The least id is one of a cluster's. -/
theorem leastId_mem {covs : List CovenantId} (h : covs ≠ []) :
    ∃ c ∈ covs, c.bytes.toNat = leastId covs := by
  have hmin := List.min?_eq_some_min (l := covs.map (·.bytes.toNat)) (List.map_eq_nil_iff.not.mpr h)
  obtain ⟨c, hc, heq⟩ := List.mem_map.mp (List.min?_mem hmin)
  refine ⟨c, hc, ?_⟩
  rw [leastId, hmin]
  exact heq

theorem leastId_le {covs : List CovenantId} {c : CovenantId} (h : c ∈ covs) :
    leastId covs ≤ c.bytes.toNat := by
  have hmem : c.bytes.toNat ∈ covs.map (·.bytes.toNat) := List.mem_map_of_mem h
  have hmin := List.min?_eq_some_min (l := covs.map (·.bytes.toNat)) (List.ne_nil_of_mem hmem)
  rw [leastId, hmin]
  exact (List.min?_eq_some_iff.mp hmin).2 _ hmem

theorem leastId_insertionSort (covs : List CovenantId) :
    leastId (covs.insertionSort (· ≤ ·)) = leastId covs := by
  rcases eq_or_ne covs [] with rfl | hne
  · rfl
  have hmem : ∀ c, c ∈ covs.insertionSort (· ≤ ·) ↔ c ∈ covs :=
    fun c ↦ List.mem_insertionSort (· ≤ ·)
  have hne' : covs.insertionSort (· ≤ ·) ≠ [] := by
    obtain ⟨c, hc⟩ := List.exists_mem_of_ne_nil covs hne
    exact List.ne_nil_of_mem ((hmem c).mpr hc)
  obtain ⟨c, hc, hleast⟩ := leastId_mem hne
  obtain ⟨c', hc', hleast'⟩ := leastId_mem hne'
  refine Nat.le_antisymm ?_ ?_
  · exact hleast ▸ leastId_le ((hmem c).mpr hc)
  · exact hleast' ▸ leastId_le ((hmem c').mp hc')

/-- The order of a galaxy leaves no two clusters to be told apart. -/
theorem Classes.antisymm (h : Classes s clusters) {covs covs' : List CovenantId}
    (hcovs : covs ∈ clusters) (hcovs' : covs' ∈ clusters) (hbefore : GalaxyBefore covs covs')
    (hbefore' : GalaxyBefore covs' covs) : covs = covs' := by
  have hleast : leastId covs = leastId covs' := by
    rcases hbefore with hlt | ⟨heq, hle⟩
    · rcases hbefore' with hlt' | ⟨heq', -⟩
      · exact absurd hlt (Nat.lt_asymm hlt')
      · exact absurd hlt (heq' ▸ Nat.lt_irrefl _)
    · rcases hbefore' with hlt' | ⟨-, hle'⟩
      · exact absurd hlt' (heq ▸ Nat.lt_irrefl _)
      · exact Nat.le_antisymm hle hle'
  have hne : ∀ xs ∈ clusters, xs ≠ [] := fun xs hxs ↦
    List.ne_nil_of_length_pos (Nat.lt_of_lt_of_le Nat.zero_lt_two (h.two xs hxs))
  obtain ⟨c, hc, hcleast⟩ := leastId_mem (hne covs hcovs)
  obtain ⟨c', hc', hcleast'⟩ := leastId_mem (hne covs' hcovs')
  obtain rfl : c = c' := congrArg CovenantId.mk
    (BitVec.eq_of_toNat_eq (hcleast.trans (hleast.trans hcleast'.symm)))
  exact h.eq_of_mem hcovs hcovs' hc hc'

/-- The order of two clusters does not look at how their ids stand. -/
theorem galaxyBefore_insertionSort {covs covs' : List CovenantId} :
    GalaxyBefore (covs.insertionSort (· ≤ ·)) (covs'.insertionSort (· ≤ ·)) ↔
      GalaxyBefore covs covs' := by
  rw [GalaxyBefore, GalaxyBefore, List.length_insertionSort, List.length_insertionSort,
    leastId_insertionSort, leastId_insertionSort]

/-- A sorted galaxy is as the order says. -/
theorem pairwise_galaxy (clusters : List (List CovenantId)) :
    ((clusters.insertionSort GalaxyBefore).map (·.insertionSort (· ≤ ·))).Pairwise
      GalaxyBefore := by
  refine List.pairwise_map.mpr ((List.pairwise_insertionSort GalaxyBefore clusters).imp ?_)
  exact galaxyBefore_insertionSort.mpr

/-- **The galaxy has one layout.**  The clusters that the apps and the nodes are laid out from are
the families, and neither they nor their order depends on the order of the hash maps. -/
theorem galaxyClusters_order (order order' : HashOrder) (s : Store)
    (templates : List (CovenantId × String)) :
    ∃ clusters families, galaxyClusters order s = some clusters ∧
      galaxyClusters order' s = some clusters ∧
      buildFamilies order' s templates = some families ∧
      clusters.Perm (families.map Family.ids) ∧ clusters.Pairwise GalaxyBefore := by
  obtain ⟨clusters, shared, hclusters, hclasses, -⟩ := clustersOf_spec order s
  obtain ⟨clusters', shared', hclusters', hclasses', -⟩ := clustersOf_spec order' s
  let laid (covss : List (List CovenantId)) : List (List CovenantId) :=
    (covss.insertionSort GalaxyBefore).map (·.insertionSort (· ≤ ·))
  have hlaid : ∀ covss, (laid covss).Perm (covss.map (·.insertionSort (· ≤ ·))) := fun covss ↦
    (List.perm_insertionSort GalaxyBefore covss).map _
  have hperm := (hlaid clusters).trans ((hclasses.perm hclasses').trans (hlaid clusters').symm)
  have hsame : laid clusters = laid clusters' := by
    refine hperm.eq_of_pairwise (fun xs ys hxs hys hbefore hbefore' ↦ ?_)
      (pairwise_galaxy clusters) (pairwise_galaxy clusters')
    obtain ⟨covs, hcovs, rfl⟩ := List.mem_map.mp hxs
    obtain ⟨covs', hcovs', rfl⟩ := List.mem_map.mp (hperm.mem_iff.mpr hys)
    rw [List.mem_insertionSort] at hcovs hcovs'
    rw [hclasses.antisymm hcovs hcovs' (galaxyBefore_insertionSort.mp hbefore)
      (galaxyBefore_insertionSort.mp hbefore')]
  refine ⟨_, _, congrArg (Option.map _) hclusters,
    (congrArg (Option.map _) hclusters').trans (congrArg some hsame.symm),
    congrArg (Option.map _) hclusters', ?_, pairwise_galaxy clusters⟩
  have hids : (clusters'.map (familyOf templates shared')).map Family.ids =
      clusters'.map (·.insertionSort (· ≤ ·)) := by
    rw [List.map_map]
    exact List.map_congr_left fun covs _ ↦ ids_familyOf templates shared' covs
  refine ((hlaid clusters).trans (hclasses.perm hclasses')).trans ?_
  rw [← hids]
  exact ((List.perm_insertionSort _ _).map _).symm

end Galaxy

end Kascov
