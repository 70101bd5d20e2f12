import Kascov.Lib.Walk
import Kascov.Store.Delivery
import Kascov.Token.Tables

/-!
# Pages of a token's classified events

A page counts distinct event sequences of `token_events`, and joins each
selected row with its event.  The handler asks for one sequence more than the
page, drops it again if it came, and then sends a next cursor.
-/

namespace Kascov

open Walk

/-- `TokenEventRow`: a classified delta with the event it belongs to. -/
structure TokenEventRow where
  seq : Nat
  deltaIdx : Nat
  kind : TokenEventKind
  amount : Option Int
  ownerFrom : Option OwnerKey
  ownerTo : Option OwnerKey
  acceptingDaa : Nat
  txIndex : Option Nat
  txid : TxId
  eventKind : EventKind
deriving DecidableEq

/-- One row of `JOIN covenant_events ce ON ce.covenant_id = e.covenant_id AND
ce.seq = e.seq`. -/
def joinedRow (e : TokenEvent) (ce : EventRow) : TokenEventRow :=
  { seq := e.seq
    deltaIdx := e.deltaIdx
    kind := e.kind
    amount := e.amount
    ownerFrom := e.ownerFrom
    ownerTo := e.ownerTo
    acceptingDaa := e.acceptingDaa
    txIndex := e.txIndex
    txid := ce.txid
    eventKind := ce.kind }

/-- The rows a classified delta joins into. -/
def joinedRows (db : Database) (e : TokenEvent) : List TokenEventRow :=
  (db.store.covenantEvents.filter fun ce ↦
    ce.covenantId = e.covenantId && ce.seq = (e.seq : Int)).map (joinedRow e)

/-- `WHERE e.token_id = ?1`. -/
def tokenEventsOf (db : Database) (id : CovenantId) : List TokenEvent :=
  db.derived.tokenEvents.filter (·.tokenId = id)

section Direction

variable (le : Nat → Nat → Prop) [DecidableRel le]

/-- `ORDER BY e.seq, e.delta_idx`, both in the one direction. -/
def deltaOrder (a b : TokenEvent) : Prop :=
  a.seq ≠ b.seq ∧ le a.seq b.seq ∨ a.seq = b.seq ∧ le a.deltaIdx b.deltaIdx

instance : DecidableRel (deltaOrder le) := fun _ _ ↦
  inferInstanceAs (Decidable (_ ∧ _ ∨ _ ∧ _))

/-- The page both queries select: the first `limit` distinct sequences within
the bound, and every row of theirs. -/
def tokenEventsWindow (db : Database) (id : CovenantId) (within : Nat → Bool) (limit : Nat) :
    List TokenEventRow :=
  let page := ((((tokenEventsOf db id).filter (within ·.seq)).map (·.seq)).dedup.insertionSort
    le).take (min limit (2 ^ 63 - 1))
  (((tokenEventsOf db id).filter (page.contains ·.seq)).insertionSort (deltaOrder le)).flatMap
    (joinedRows db)

end Direction

/-- `token_events_page`. -/
def tokenEventsPage (db : Database) (id : CovenantId) (afterSeq : Option Nat) (limit : Nat) :
    List TokenEventRow :=
  let after : Int := (afterSeq.map fun s ↦ Int.ofNat (min s (2 ^ 63 - 1))).getD (-1)
  tokenEventsWindow (· ≤ ·) db id (fun seq ↦ after < seq) limit

/-- `token_events_page_before`. -/
def tokenEventsPageBefore (db : Database) (id : CovenantId) (beforeSeq : Option Nat)
    (limit : Nat) : List TokenEventRow :=
  let before := (beforeSeq.map (min · (2 ^ 63 - 1))).getD (2 ^ 63 - 1)
  tokenEventsWindow (· ≥ ·) db id (· < before) limit

/-- One turn of the loop of `trim_complete_event_page`. -/
def pushSequence (sequences : List Nat) (row : TokenEventRow) : List Nat :=
  if sequences.getLast? = some row.seq then sequences else sequences ++ [row.seq]

/-- `trim_complete_event_page`. -/
def trimCompleteEventPage (rows : List TokenEventRow) (eventLimit : Nat) :
    List TokenEventRow × Option Nat :=
  let sequences := rows.foldl pushSequence []
  if sequences.length ≤ eventLimit then (rows, none)
  else
    let kept := rows.filter fun row ↦ sequences.getLast? ≠ some row.seq
    (kept, kept.getLast?.map (·.seq))

/-- `PAGE_MAX`. -/
def pageMax : Nat := 1000

/-- The rows and the continuation of the token events handler, for a token it
finds. -/
def tokenEventsFeedPage (db : Database) (id : CovenantId) (newestFirst : Bool)
    (cursor : Option Nat) (limit : Nat) : List TokenEventRow × Option (Option Nat) :=
  let rows := if newestFirst then tokenEventsPageBefore db id cursor (limit + 1)
    else tokenEventsPage db id cursor (limit + 1)
  let page := trimCompleteEventPage rows limit
  (page.1, page.2.map some)

/-- The rows one unbounded query returns. -/
def tokenEventsFeed (db : Database) (id : CovenantId) (newestFirst : Bool) :
    List TokenEventRow :=
  let events := if newestFirst then (tokenEventsOf db id).insertionSort (deltaOrder (· ≥ ·))
    else (tokenEventsOf db id).insertionSort (deltaOrder (· ≤ ·))
  events.flatMap (joinedRows db)

/-! ## Trimming a page -/

theorem foldl_pushSequence_same {acc : List Nat} {q : Nat} {rows : List TokenEventRow}
    (h : ∀ row ∈ rows, row.seq = q) : rows.foldl pushSequence (acc ++ [q]) = acc ++ [q] := by
  induction rows with
  | nil => rfl
  | cons row rows ih =>
      have hrow : pushSequence (acc ++ [q]) row = acc ++ [q] := by
        rw [pushSequence, List.getLast?_concat, h row List.mem_cons_self, if_pos rfl]
      rw [List.foldl_cons, hrow, ih fun r hr ↦ h r (List.mem_cons_of_mem _ hr)]

/-- The sequences of a page are the items of its window that have rows. -/
theorem foldl_pushSequence {rowsOf : Nat → List TokenEventRow}
    (hseq : ∀ q, ∀ row ∈ rowsOf q, row.seq = q) {items : List Nat} (hnodup : items.Nodup)
    {acc : List Nat} (hacc : ∀ q ∈ items, acc.getLast? ≠ some q) :
    (items.flatMap rowsOf).foldl pushSequence acc = acc ++ filled rowsOf items := by
  induction items generalizing acc with
  | nil => rw [List.flatMap_nil, List.foldl_nil, filled, List.filter_nil, List.append_nil]
  | cons q items ih =>
      obtain ⟨hq, hnodup⟩ := List.nodup_cons.mp hnodup
      have htail : ∀ x ∈ items, acc.getLast? ≠ some x :=
        fun x hx ↦ hacc x (List.mem_cons_of_mem _ hx)
      rw [List.flatMap_cons, List.foldl_append, filled]
      cases hrows : rowsOf q with
      | nil =>
          rw [List.foldl_nil, List.filter_cons_of_neg (by simp [hrows])]
          exact ih hnodup htail
      | cons row rows =>
          have hsame := hseq q
          rw [hrows] at hsame
          have hpush : pushSequence acc row = acc ++ [q] := by
            rw [pushSequence, hsame row List.mem_cons_self, if_neg (hacc q List.mem_cons_self)]
          rw [List.foldl_cons, hpush,
            foldl_pushSequence_same fun r hr ↦ hsame r (List.mem_cons_of_mem _ hr),
            List.filter_cons_of_pos (by simp [hrows])]
          have hlast : ∀ x ∈ items, (acc ++ [q]).getLast? ≠ some x := by
            rintro x hx heq
            rw [List.getLast?_concat] at heq
            exact hq (Option.some.inj heq ▸ hx)
          rw [ih hnodup hlast, filled, List.append_assoc]
          rfl

/-- A full window is trimmed to its items but the last, and the cursor is the
last item kept. -/
theorem trim_full {rowsOf : Nat → List TokenEventRow}
    (hseq : ∀ q, ∀ row ∈ rowsOf q, row.seq = q) {init : List Nat} {q : Nat}
    (hnodup : (init ++ [q]).Nodup) (hfull : filled rowsOf (init ++ [q]) = init ++ [q])
    {n : Nat} (hn : init.length = n) :
    trimCompleteEventPage ((init ++ [q]).flatMap rowsOf) n =
      (init.flatMap rowsOf, init.getLast?) := by
  have hsequences : ((init ++ [q]).flatMap rowsOf).foldl pushSequence [] = init ++ [q] := by
    rw [foldl_pushSequence hseq hnodup (by simp), hfull, List.nil_append]
  have hfilled : ∀ x ∈ init ++ [q], rowsOf x ≠ [] := by
    intro x hx hnil
    have hx' := (List.mem_filter.mp (hfull.symm ▸ hx : x ∈ filled rowsOf (init ++ [q]))).2
    rw [hnil] at hx'
    cases hx'
  have hkept : ((init ++ [q]).flatMap rowsOf).filter
      (fun row ↦ (init ++ [q]).getLast? ≠ some row.seq) = init.flatMap rowsOf := by
    have hq : q ∉ init := fun hmem ↦
      (List.nodup_append.mp hnodup).2.2 q hmem q (by simp) rfl
    rw [List.getLast?_concat, List.flatMap_append, List.filter_append,
      List.filter_eq_self.mpr, List.filter_eq_nil_iff.mpr, List.append_nil]
    · intro row hrow
      rw [List.flatMap_singleton] at hrow
      simp [hseq q row hrow]
    · intro row hrow
      obtain ⟨x, hx, hrow⟩ := List.mem_flatMap.mp hrow
      have hne : q ≠ row.seq := by
        rw [hseq x row hrow]
        rintro rfl
        exact hq hx
      simpa using hne
  have hlast : (init.flatMap rowsOf).getLast?.map (·.seq) = init.getLast? := by
    rcases List.eq_nil_or_concat init with rfl | ⟨init', x, rfl⟩
    · rfl
    · have hx := hfilled x (by simp)
      rw [List.concat_eq_append, List.flatMap_append, List.flatMap_singleton,
        List.getLast?_concat, List.getLast?_append, List.getLast?_eq_some_getLast hx,
        Option.some_or, Option.map_some, hseq x _ (List.getLast_mem hx)]
  simp only [trimCompleteEventPage, hsequences]
  rw [if_neg (by rw [List.length_append]; simp [hn]), hkept, hlast]

/-! ## A page is a window of the index of sequences -/

/-- What the two directions have in common. -/
structure Directed (le : Nat → Nat → Prop) : Prop where
  total : ∀ a b, le a b ∨ le b a
  trans : ∀ a b c, le a b → le b c → le a c
  antisymm : ∀ a b, le a b → le b a → a = b

theorem directed_le : Directed (· ≤ ·) := ⟨le_total, fun _ _ _ ↦ le_trans, fun _ _ ↦ le_antisymm⟩

theorem directed_ge : Directed (· ≥ ·) :=
  ⟨fun a b ↦ le_total b a, fun _ _ _ hab hbc ↦ le_trans hbc hab,
    fun _ _ hab hba ↦ le_antisymm hba hab⟩

/-- The strict part of a direction. -/
def strictly (le : Nat → Nat → Prop) (a b : Nat) : Prop := le a b ∧ a ≠ b

section Windows

variable {le : Nat → Nat → Prop}

theorem strictly_asymm (hle : Directed le) (a b : Nat) : strictly le a b → ¬strictly le b a :=
  fun h h' ↦ h.2 (hle.antisymm a b h.1 h'.1)

theorem deltaOrder_total (hle : Directed le) (a b : TokenEvent) :
    deltaOrder le a b ∨ deltaOrder le b a := by
  by_cases hseq : a.seq = b.seq
  · exact (hle.total a.deltaIdx b.deltaIdx).imp (fun h ↦ .inr ⟨hseq, h⟩)
      fun h ↦ .inr ⟨hseq.symm, h⟩
  · exact (hle.total a.seq b.seq).imp (fun h ↦ .inl ⟨hseq, h⟩) fun h ↦ .inl ⟨Ne.symm hseq, h⟩

theorem deltaOrder_trans (hle : Directed le) (a b c : TokenEvent) :
    deltaOrder le a b → deltaOrder le b c → deltaOrder le a c := by
  rintro (⟨hab, h⟩ | ⟨hab, h⟩) (⟨hbc, h'⟩ | ⟨hbc, h'⟩)
  · refine .inl ⟨fun hac ↦ hab (hle.antisymm _ _ h (hac ▸ h')), hle.trans _ _ _ h h'⟩
  · exact .inl ⟨hbc ▸ hab, hbc ▸ h⟩
  · exact .inl ⟨hab ▸ hbc, hab ▸ h'⟩
  · exact .inr ⟨hab.trans hbc, hle.trans _ _ _ h h'⟩

theorem deltaOrder_antisymm (hle : Directed le) {a b : TokenEvent} (hab : deltaOrder le a b)
    (hba : deltaOrder le b a) : a.seq = b.seq ∧ a.deltaIdx = b.deltaIdx := by
  rcases hab with ⟨hne, h⟩ | ⟨heq, h⟩ <;> rcases hba with ⟨hne', h'⟩ | ⟨heq', h'⟩
  · exact absurd (hle.antisymm _ _ h h') hne
  · exact absurd heq'.symm hne
  · exact absurd heq.symm hne'
  · exact ⟨heq, hle.antisymm _ _ h h'⟩

variable [DecidableRel le]

instance : DecidableRel (strictly le) := fun _ _ ↦ inferInstanceAs (Decidable (_ ∧ _))

variable (le) in
/-- The distinct sequences of a token's deltas, in walk order. -/
def eventIndex (db : Database) (id : CovenantId) : List Nat :=
  ((tokenEventsOf db id).map (·.seq)).dedup.insertionSort le

variable (le) in
/-- The rows of one sequence. -/
def deltasOf (db : Database) (id : CovenantId) (seq : Nat) : List TokenEventRow :=
  (((tokenEventsOf db id).filter (·.seq = seq)).insertionSort (deltaOrder le)).flatMap
    (joinedRows db)

theorem eventIndex_sorted (hle : Directed le) (db : Database) (id : CovenantId) :
    (eventIndex le db id).Pairwise (strictly le) := by
  have hne : (eventIndex le db id).Pairwise (· ≠ ·) :=
    (List.perm_insertionSort _ _).nodup_iff.mpr (List.nodup_dedup _)
  exact (pairwise_sorted hle.total hle.trans _).and hne

/-- The sequences a page selects. -/
theorem page_sequences (hle : Directed le) (db : Database) (id : CovenantId)
    (within : Nat → Bool) :
    (((tokenEventsOf db id).filter (within ·.seq)).map (·.seq)).dedup.insertionSort le =
      (eventIndex le db id).filter within := by
  rw [eventIndex, ← filter_sorted hle.total hle.trans fun _ _ _ _ ↦ hle.antisymm _ _]
  have hperm : (((tokenEventsOf db id).filter (within ·.seq)).map (·.seq)).dedup.Perm
      (((tokenEventsOf db id).map (·.seq)).dedup.filter within) := by
    refine (List.perm_ext_iff_of_nodup (List.nodup_dedup _)
      ((List.nodup_dedup _).filter _)).mpr fun q ↦ ?_
    simp only [List.mem_dedup, List.mem_map, List.mem_filter]
    constructor
    · rintro ⟨e, ⟨he, hw⟩, rfl⟩
      exact ⟨⟨e, he, rfl⟩, hw⟩
    · rintro ⟨⟨e, he, rfl⟩, hw⟩
      exact ⟨e, ⟨he, hw⟩, rfl⟩
  refine ((List.perm_insertionSort _ _).trans
    (hperm.trans (List.perm_insertionSort _ _).symm)).eq_of_pairwise
      (fun _ _ _ _ ↦ hle.antisymm _ _) ?_ ?_
  · exact pairwise_sorted hle.total hle.trans _
  · exact pairwise_sorted hle.total hle.trans _

/-- Selecting the rows of some sequences is selecting them sequence by sequence. -/
theorem filter_contains_perm {rows : List TokenEvent} {page : List Nat} (hnodup : page.Nodup) :
    (rows.filter (page.contains ·.seq)).Perm
      (page.flatMap fun q ↦ rows.filter (·.seq = q)) := by
  induction page with
  | nil => simp
  | cons q page ih =>
      obtain ⟨hq, hnodup⟩ := List.nodup_cons.mp hnodup
      have hsplit := (List.filter_append_perm (fun e : TokenEvent ↦ decide (e.seq = q))
        (rows.filter ((q :: page).contains ·.seq))).symm
      rw [List.filter_filter, List.filter_filter] at hsplit
      have hhere : rows.filter (fun e ↦ decide (e.seq = q) && (q :: page).contains e.seq) =
          rows.filter (·.seq = q) :=
        List.filter_congr fun e _ ↦ by
          by_cases he : e.seq = q
          · simp [he]
          · simp [he]
      have hthere : rows.filter (fun e ↦ !decide (e.seq = q) && (q :: page).contains e.seq) =
          rows.filter (page.contains ·.seq) :=
        List.filter_congr fun e _ ↦ by
          by_cases he : e.seq = q
          · simp [he, hq]
          · simp [he]
      rw [hhere, hthere] at hsplit
      exact hsplit.trans ((ih hnodup).append_left _)

/-- Sorting the rows of some sequences is sorting them sequence by sequence. -/
theorem sorted_groups (hle : Directed le) {rows : List TokenEvent} {page : List Nat}
    (hpage : page.Pairwise (strictly le))
    (hkey : ∀ a ∈ rows, ∀ b ∈ rows, a.seq = b.seq → a.deltaIdx = b.deltaIdx → a = b) :
    (rows.filter (page.contains ·.seq)).insertionSort (deltaOrder le) =
      page.flatMap fun q ↦ (rows.filter (·.seq = q)).insertionSort (deltaOrder le) := by
  have hperm : ((rows.filter (page.contains ·.seq)).insertionSort (deltaOrder le)).Perm
      (page.flatMap fun q ↦ (rows.filter (·.seq = q)).insertionSort (deltaOrder le)) :=
    (List.perm_insertionSort _ _).trans <|
      (filter_contains_perm (hpage.imp fun h ↦ h.2)).trans <|
        List.Perm.flatMap_left page fun q _ ↦ (List.perm_insertionSort _ _).symm
  have hseq : ∀ {q} {e : TokenEvent},
      e ∈ (rows.filter (·.seq = q)).insertionSort (deltaOrder le) → e.seq = q := fun he ↦
    of_decide_eq_true (List.mem_filter.mp ((List.mem_insertionSort _).mp he)).2
  refine hperm.eq_of_pairwise (fun a b ha hb hab hba ↦ ?_)
    (pairwise_sorted (deltaOrder_total hle) (deltaOrder_trans hle) _) ?_
  · have hrow : ∀ {e}, e ∈ (rows.filter (page.contains ·.seq)).insertionSort (deltaOrder le) →
        e ∈ rows := fun he ↦ (List.mem_filter.mp ((List.mem_insertionSort _).mp he)).1
    obtain ⟨hs, hd⟩ := deltaOrder_antisymm hle hab hba
    exact hkey a (hrow ha) b (hrow (hperm.mem_iff.mpr hb)) hs hd
  · refine List.pairwise_flatMap.mpr
      ⟨fun q _ ↦ pairwise_sorted (deltaOrder_total hle) (deltaOrder_trans hle) _,
        hpage.imp fun {p q} h a ha b hb ↦ .inl ?_⟩
    rw [hseq ha, hseq hb]
    exact ⟨h.2, h.1⟩

/-- The key of `token_events`, with the `covenant_id` its only writer gives it. -/
structure EventKeys (db : Database) : Prop where
  keys : (db.derived.tokenEvents.map fun e ↦ (e.tokenId, e.covenantId, e.seq, e.deltaIdx)).Nodup
  own : ∀ e ∈ db.derived.tokenEvents, e.covenantId = e.tokenId
  bound : ∀ e ∈ db.derived.tokenEvents, e.seq < 2 ^ 63 - 1

omit [DecidableRel le] in
theorem EventKeys.delta_inj {db : Database} (h : EventKeys db) (id : CovenantId) :
    ∀ a ∈ tokenEventsOf db id, ∀ b ∈ tokenEventsOf db id, a.seq = b.seq →
      a.deltaIdx = b.deltaIdx → a = b := by
  intro a ha b hb hseq hdelta
  obtain ⟨ha, hta⟩ := List.mem_filter.mp ha
  obtain ⟨hb, htb⟩ := List.mem_filter.mp hb
  have htoken := (of_decide_eq_true hta).trans (of_decide_eq_true htb).symm
  refine List.inj_on_of_nodup_map h.keys ha hb ?_
  rw [Prod.mk.injEq, Prod.mk.injEq, Prod.mk.injEq, h.own a ha, h.own b hb]
  exact ⟨htoken, htoken, hseq, hdelta⟩

theorem mem_eventIndex {db : Database} {id : CovenantId} {q : Nat} :
    q ∈ eventIndex le db id ↔ ∃ e ∈ tokenEventsOf db id, e.seq = q := by
  rw [eventIndex, List.mem_insertionSort, List.mem_dedup, List.mem_map]

theorem EventKeys.index_bound {db : Database} (h : EventKeys db) {id : CovenantId} {q : Nat}
    (hq : q ∈ eventIndex le db id) : q < 2 ^ 63 - 1 := by
  obtain ⟨e, he, rfl⟩ := mem_eventIndex.mp hq
  exact h.bound e (List.mem_filter.mp he).1

theorem deltasOf_seq {db : Database} {id : CovenantId} (q : Nat) :
    ∀ row ∈ deltasOf le db id q, row.seq = q := by
  intro row hrow
  obtain ⟨e, he, hrow⟩ := List.mem_flatMap.mp hrow
  obtain ⟨ce, -, rfl⟩ := List.mem_map.mp hrow
  exact of_decide_eq_true (List.mem_filter.mp ((List.mem_insertionSort _).mp he)).2

/-- A page holds the rows of its window of the index. -/
theorem tokenEventsWindow_eq (hle : Directed le) {db : Database} (h : EventKeys db)
    (id : CovenantId) (within : Nat → Bool) (limit : Nat) :
    tokenEventsWindow le db id within limit =
      (((eventIndex le db id).filter within).take (min limit (2 ^ 63 - 1))).flatMap
        (deltasOf le db id) := by
  have hsorted : (((eventIndex le db id).filter within).take
      (min limit (2 ^ 63 - 1))).Pairwise (strictly le) :=
    ((eventIndex_sorted hle db id).filter _).take
  simp only [tokenEventsWindow]
  rw [page_sequences hle, sorted_groups hle hsorted (h.delta_inj id), List.flatMap_assoc]
  rfl

variable (le) in
/-- The trimmed page of a window of the index. -/
def trimmedWindow (db : Database) (token : CovenantId) (c : Option Nat) (n : Nat) :
    List TokenEventRow × Option (Option Nat) :=
  let page := trimCompleteEventPage (((past id (strictly le) (eventIndex le db token) c).take
    (n + 1)).flatMap (deltasOf le db token)) n
  (page.1, page.2.map some)

/-- From a cursor a walk can hold, a trimmed page is a page of the index. -/
theorem trimmedWindow_eq (hle : Directed le) {db : Database} {token : CovenantId}
    {c : Option Nat} (hc : Reached id (eventIndex le db token) c) {n : Nat} (hn : 1 ≤ n) :
    windowPage (deltasOf le db token) (past id (strictly le) (eventIndex le db token) c) n =
        ((trimmedWindow le db token c n).1,
          (trimmedWindow le db token c n).2.map
            (past id (strictly le) (eventIndex le db token))) ∧
      ∀ c', (trimmedWindow le db token c n).2 = some c' →
        Reached id (eventIndex le db token) c' := by
  have hsorted := eventIndex_sorted hle db token
  have hnext : ∀ c', (keyedPage id (strictly le) (eventIndex le db token) c n).2 = some c' →
      Reached id (eventIndex le db token) c' ∧
        past id (strictly le) (eventIndex le db token) c ≠ [] ∧
          past id (strictly le) (eventIndex le db token) c' =
            (past id (strictly le) (eventIndex le db token) c).drop n :=
    fun _ ↦ keyedPage_next (strictly_asymm hle) hsorted hc
  have hitems : (past id (strictly le) (eventIndex le db token) c).Nodup :=
    (hsorted.filter _).imp fun h ↦ h.2
  simp only [keyedPage_eq] at hnext
  unfold trimmedWindow windowPage
  dsimp only
  generalize past id (strictly le) (eventIndex le db token) c = items at hnext hitems
  by_cases hwindow : (filled (deltasOf le db token) (items.take (n + 1))).length ≤ n
  · have htrim : trimCompleteEventPage ((items.take (n + 1)).flatMap (deltasOf le db token)) n =
        ((items.take (n + 1)).flatMap (deltasOf le db token), none) := by
      simp only [trimCompleteEventPage]
      rw [foldl_pushSequence deltasOf_seq (hitems.sublist (List.take_sublist _ _)) (by simp),
        List.nil_append, if_pos hwindow]
    rw [htrim, if_pos hwindow]
    exact ⟨rfl, fun c' h ↦ by cases h⟩
  · -- every item of the window has rows, and the window has one item to spare
    have hlen := filled_length_le (deltasOf le db token) (items.take (n + 1))
    have htake : (items.take (n + 1)).length = n + 1 :=
      le_antisymm (List.length_take_le _ _) (by omega)
    have hlong : n < items.length := by
      rw [List.length_take] at htake
      omega
    have hfull : filled (deltasOf le db token) (items.take (n + 1)) = items.take (n + 1) := by
      refine List.filter_sublist.eq_of_length ?_
      show (filled (deltasOf le db token) (items.take (n + 1))).length = _
      omega
    have hsplit : items.take (n + 1) = items.take n ++ [items[n]] :=
      List.take_succ_eq_append_getElem hlong
    have htrim : trimCompleteEventPage ((items.take (n + 1)).flatMap (deltasOf le db token)) n =
        ((items.take n).flatMap (deltasOf le db token), (items.take n).getLast?) := by
      rw [hsplit] at hfull ⊢
      exact trim_full deltasOf_seq (hsplit ▸ hitems.sublist (List.take_sublist _ _)) hfull
        (by rw [List.length_take]; omega)
    have hne : items.take n ≠ [] := by
      rw [ne_eq, List.take_eq_nil_iff]
      rintro (hzero | hnil)
      · omega
      · rw [hnil] at hlong
        exact Nat.not_lt_zero _ hlong
    rw [htrim, if_neg hwindow, List.getLast?_eq_some_getLast hne]
    obtain ⟨hreached, -, hdrop⟩ := hnext (some ((items.take n).getLast hne)) (by
      rw [if_neg (by omega), List.getLast?_eq_some_getLast hne]
      rfl)
    refine ⟨?_, fun c' h ↦ ?_⟩
    · simp only [Option.map_some, hdrop]
    · obtain rfl := Option.some.inj h
      exact hreached

/-- A token's events are read to their end in a direction, whatever the sizes,
exactly when the index of their sequences has no gap in that direction. -/
theorem trimmedWindow_complete_iff (hle : Directed le) {db : Database} (token : CovenantId) :
    Complete (fun c n ↦ trimmedWindow le db token c (clamp n 1 pageMax)) none
        ((eventIndex le db token).flatMap (deltasOf le db token)) ↔
      GapFree (deltasOf le db token) (eventIndex le db token) := by
  have hpos : ∀ n, 1 ≤ n → 1 ≤ clamp n 1 pageMax := fun n _ ↦ clamp_pos n (by decide)
  rw [← windowPage_resize_complete_iff hpos (by decide)]
  suffices hcongr : Complete
      (fun items n ↦ windowPage (deltasOf le db token) items (clamp n 1 pageMax))
        (past id (strictly le) (eventIndex le db token) none)
          ((eventIndex le db token).flatMap (deltasOf le db token)) ↔
      Complete (fun c n ↦ trimmedWindow le db token c (clamp n 1 pageMax)) none
        ((eventIndex le db token).flatMap (deltasOf le db token)) by
    rw [past_none] at hcongr
    exact hcongr.symm
  refine complete_congr _ (Reached id (eventIndex le db token)) ?_ ?_ (.inl rfl) _
  · intro c n hc hn
    rw [(trimmedWindow_eq hle hc (hpos n hn)).1]
    exact ⟨rfl, rfl⟩
  · intro c n c' hc hn hnext
    exact (trimmedWindow_eq hle hc (hpos n hn)).2 c' hnext

/-- The rows of the index are those of the unbounded query. -/
theorem eventIndex_flatMap (hle : Directed le) {db : Database} (h : EventKeys db)
    (token : CovenantId) :
    (eventIndex le db token).flatMap (deltasOf le db token) =
      ((tokenEventsOf db token).insertionSort (deltaOrder le)).flatMap (joinedRows db) := by
  have hall : (tokenEventsOf db token).filter ((eventIndex le db token).contains ·.seq) =
      tokenEventsOf db token :=
    List.filter_eq_self.mpr fun e he ↦
      List.contains_iff_mem.mpr (mem_eventIndex.mpr ⟨e, he, rfl⟩)
  have hgroups := sorted_groups hle (eventIndex_sorted hle db token) (h.delta_inj token)
  rw [hall] at hgroups
  rw [hgroups, List.flatMap_assoc]
  rfl

/-- A page of the table is a page of the index, where its bound selects what
lies past the cursor. -/
theorem window_eq_past (hle : Directed le) {db : Database} (h : EventKeys db)
    {token : CovenantId} {c : Option Nat} {within : Nat → Bool}
    (hwithin : ∀ q ∈ eventIndex le db token,
      within q = c.all fun k ↦ decide (strictly le k q)) {n : Nat} (hn : n ≤ pageMax) :
    tokenEventsWindow le db token within (n + 1) =
      ((past id (strictly le) (eventIndex le db token) c).take (n + 1)).flatMap
        (deltasOf le db token) := by
  have hpast : (eventIndex le db token).filter within =
      past id (strictly le) (eventIndex le db token) c := List.filter_congr hwithin
  have hlimit : min (n + 1) (2 ^ 63 - 1) = n + 1 := by
    unfold pageMax at hn
    omega
  rw [tokenEventsWindow_eq hle h, hlimit, hpast]

theorem Reached.mem_index {db : Database} {token : CovenantId} {k : Nat}
    (hk : Reached id (eventIndex le db token) (some k)) : k ∈ eventIndex le db token := by
  rcases hk with hk | ⟨pre, rest, a, heq, hlast, ha⟩
  · cases hk
  · obtain rfl := Option.some.inj ha
    rw [heq]
    exact List.mem_append_left _ (List.mem_of_getLast? hlast)

end Windows

/-- Newest first, a reader's page is a trimmed page of the index. -/
theorem feedPage_newestFirst {db : Database} (h : EventKeys db) {token : CovenantId}
    {c : Option Nat} (hc : Reached id (eventIndex (· ≥ ·) db token) c) {n : Nat}
    (hn : n ≤ pageMax) :
    tokenEventsFeedPage db token true c n = trimmedWindow (· ≥ ·) db token c n := by
  have hpage : tokenEventsPageBefore db token c (n + 1) =
      ((past id (strictly (· ≥ ·)) (eventIndex (· ≥ ·) db token) c).take (n + 1)).flatMap
        (deltasOf (· ≥ ·) db token) := by
    rw [tokenEventsPageBefore]
    refine window_eq_past directed_ge h (fun q hq ↦ ?_) hn
    have hbound := h.index_bound hq
    cases c with
    | none =>
        rw [Option.map_none, Option.getD_none, Option.all_none, decide_eq_true_eq]
        exact hbound
    | some k =>
        have hk := h.index_bound (Reached.mem_index hc)
        rw [Option.map_some, Option.getD_some, Option.all_some, decide_eq_decide, strictly]
        omega
  simp only [tokenEventsFeedPage, trimmedWindow, if_true, hpage]

/-- Oldest first likewise. -/
theorem feedPage_oldestFirst {db : Database} (h : EventKeys db) {token : CovenantId}
    {c : Option Nat} (hc : Reached id (eventIndex (· ≤ ·) db token) c) {n : Nat}
    (hn : n ≤ pageMax) :
    tokenEventsFeedPage db token false c n = trimmedWindow (· ≤ ·) db token c n := by
  have hpage : tokenEventsPage db token c (n + 1) =
      ((past id (strictly (· ≤ ·)) (eventIndex (· ≤ ·) db token) c).take (n + 1)).flatMap
        (deltasOf (· ≤ ·) db token) := by
    rw [tokenEventsPage]
    refine window_eq_past directed_le h (fun q hq ↦ ?_) hn
    cases c with
    | none =>
        rw [Option.map_none, Option.getD_none, Option.all_none, decide_eq_true_eq]
        omega
    | some k =>
        have hk := h.index_bound (Reached.mem_index hc)
        rw [Option.map_some, Option.getD_some, Option.all_some, decide_eq_decide, strictly,
          Int.ofNat_eq_natCast]
        omega
  simp only [tokenEventsFeedPage, trimmedWindow, if_false, hpage, Bool.false_eq_true]

/-- Does a token's event walk in a direction meet no gap? -/
def EventsGapFree (db : Database) (token : CovenantId) (newestFirst : Bool) : Prop :=
  if newestFirst then GapFree (deltasOf (· ≥ ·) db token) (eventIndex (· ≥ ·) db token)
  else GapFree (deltasOf (· ≤ ·) db token) (eventIndex (· ≤ ·) db token)

/-- A token's events are read to their end in a direction, whatever the sizes,
exactly when the walk meets no gap. -/
theorem tokenEventsFeed_complete_iff {db : Database} (h : EventKeys db) (token : CovenantId)
    (newestFirst : Bool) :
    Complete (fun c n ↦ tokenEventsFeedPage db token newestFirst c (clamp n 1 pageMax)) none
        (tokenEventsFeed db token newestFirst) ↔
      EventsGapFree db token newestFirst := by
  have hmax : ∀ n, clamp n 1 pageMax ≤ pageMax := fun n ↦ clamp_le n pageMax
  have hpos : ∀ n, 1 ≤ clamp n 1 pageMax := fun n ↦ clamp_pos n (by decide)
  cases newestFirst with
  | true =>
      rw [EventsGapFree, if_pos rfl, ← trimmedWindow_complete_iff directed_ge,
        eventIndex_flatMap directed_ge h]
      refine complete_congr id (Reached id (eventIndex (· ≥ ·) db token)) ?_ ?_ (.inl rfl) _
      · intro c n hc _
        rw [id, feedPage_newestFirst h hc (hmax n), Option.map_id]
        exact ⟨rfl, rfl⟩
      · exact fun c n c' hc _ ↦ (trimmedWindow_eq directed_ge hc (hpos n)).2 c'
  | false =>
      rw [EventsGapFree, if_neg Bool.false_ne_true, ← trimmedWindow_complete_iff directed_le,
        eventIndex_flatMap directed_le h]
      refine complete_congr id (Reached id (eventIndex (· ≤ ·) db token)) ?_ ?_ (.inl rfl) _
      · intro c n hc _
        rw [id, feedPage_oldestFirst h hc (hmax n), Option.map_id]
        exact ⟨rfl, rfl⟩
      · exact fun c n c' hc _ ↦ (trimmedWindow_eq directed_le hc (hpos n)).2 c'

end Kascov
