import Kascov.Lib.Walk
import Kascov.Market.Feeds
import Kascov.Store.Delivery

/-!
# The keyed pages

Three feeds are read by a key of the last row served: the covenant list
(`list_page` behind the grid), the holders of a token (`token_balances_page`)
and the trades of all tokens (`global_token_trades_page`).  Each handler reads
one row more than the page it serves, and sends a next cursor if that row came.
-/

namespace Kascov

open Walk

/-! ## The covenant list -/

structure CovenantSummary where
  covenantId : CovenantId
  genesisTxid : Option TxId
  genesisDaa : Option Nat
  lineageComplete : Bool
  eventCount : Int
  lastActivityDaa : Nat
  liveUtxos : Nat
  liveValue : Nat
  bornValue : Nat
  template : Option String
deriving DecidableEq

/-- `x LIKE 'p2%'`, which ignores the case of the letter. -/
def likeP2 (template : String) : Bool :=
  template.startsWith "p2" || template.startsWith "P2"

/-- `MAX(..)` over a text column. -/
def maxText (texts : List String) : Option String :=
  texts.foldl (fun m t ↦ some (m.elim t fun m ↦ if m < t then t else m)) none

/-- The `CASE` of the first template subselect. -/
def UtxoRow.specificTemplate (u : UtxoRow) : Option String :=
  match u.revealedTemplate with
  | some t => if t ≠ "" ∧ ¬likeP2 t then some t
      else if ¬likeP2 u.template then some u.template else none
  | none => if ¬likeP2 u.template then some u.template else none

/-- `COALESCE(NULLIF(u.revealed_template, ''), u.template)`. -/
def UtxoRow.anyTemplate (u : UtxoRow) : String :=
  match u.revealedTemplate with
  | some t => if t = "" then u.template else t
  | none => u.template

/-- One row of `SUMMARY_SELECT`. -/
def covenantSummary (s : Store) (c : CovenantRow) : CovenantSummary :=
  let cells := s.covenantUtxos.filter (·.covenantId = c.covenantId)
  let live := cells.filter (·.spentBlock.isNone)
  let born := cells.filter fun u ↦ c.genesisDaa = some u.createdDaa
  let stamped := cells.filter fun u ↦ u.template ≠ "" || u.revealedTemplate.any (· ≠ "")
  { covenantId := c.covenantId
    genesisTxid := c.genesisTxid
    genesisDaa := c.genesisDaa
    lineageComplete := c.lineageComplete
    eventCount := c.eventCount
    lastActivityDaa := c.lastActivityDaa
    liveUtxos := live.length
    liveValue := (live.map (·.value)).sum
    bornValue := (born.map (·.value)).sum
    template := (maxText (stamped.filterMap (·.specificTemplate))).or
      (maxText (stamped.map (·.anyTemplate))) }

/-- `(last_activity_daa, covenant_id)`. -/
def CovenantSummary.cursor (c : CovenantSummary) : Nat × CovenantId :=
  (c.lastActivityDaa, c.covenantId)

/-- `c.last_activity_daa < ?1 OR (c.last_activity_daa = ?1 AND c.covenant_id < ?2)`. -/
def listedAfter (after key : Nat × CovenantId) : Prop :=
  key.1 < min after.1 (2 ^ 63 - 1) ∨
    key.1 = min after.1 (2 ^ 63 - 1) ∧ key.2.bytes.toNat < after.2.bytes.toNat

instance : DecidableRel listedAfter := fun _ _ ↦ inferInstanceAs (Decidable (_ ∨ _ ∧ _))

/-- The sort key of the list, in descending order. -/
def CovenantSummary.listKey (c : CovenantSummary) : Nat ×ₗ Nat :=
  toLex (c.lastActivityDaa, c.covenantId.bytes.toNat)

/-- The rows of `SUMMARY_SELECT`. -/
def summaryRows (s : Store) : List CovenantSummary := s.covenants.map (covenantSummary s)

/-- `Store::list_page`. -/
def listPage (s : Store) (after : Option (Nat × CovenantId)) (limit : Nat) :
    List CovenantSummary :=
  ((past CovenantSummary.cursor listedAfter (summaryRows s) after).insertionSort
    fun a b ↦ b.listKey ≤ a.listKey).take (min limit (2 ^ 63 - 1))

/-- `MAX_PAGE`. -/
def maxPage : Nat := 20000

/-- The rows and the continuation of `build_grid_snapshot`, at a page size. -/
def gridPage (s : Store) (after : Option (Nat × CovenantId)) (page : Nat) :
    List CovenantSummary × Option (Option (Nat × CovenantId)) :=
  overFetch (listPage s after) (fun last ↦ some last.cursor) page

/-! ## The holders of a token -/

/-- `(balance, owner)`. -/
def TokenBalance.cursor (row : TokenBalance) : Int × OwnerKey := (row.balance, row.owner)

/-- `balance < ?2 OR (balance = ?2 AND owner > ?3)`. -/
def heldAfter (after key : Int × OwnerKey) : Prop :=
  key.1 < after.1 ∨ key.1 = after.1 ∧ after.2 < key.2

instance : DecidableRel heldAfter := fun _ _ ↦ inferInstanceAs (Decidable (_ ∨ _ ∧ _))

/-- The sort key of the holders: the greatest balance first, then by owner. -/
def TokenBalance.holderKey (row : TokenBalance) : Intᵒᵈ ×ₗ OwnerKey :=
  toLex (OrderDual.toDual row.balance, row.owner)

/-- The balances of one token. -/
def balancesOf (db : Database) (id : CovenantId) : List TokenBalance :=
  db.derived.tokenBalances.filter (·.tokenId = id)

/-- `Store::token_balances_page`. -/
def tokenBalancesPage (db : Database) (id : CovenantId) (after : Option (Int × OwnerKey))
    (limit : Nat) : List TokenBalance :=
  ((past TokenBalance.cursor heldAfter (balancesOf db id) after).insertionSort
    fun a b ↦ a.holderKey ≤ b.holderKey).take (min limit (2 ^ 63 - 1))

/-- The rows and the continuation of `token_holders_handler`, for a token it
finds. -/
def holdersPage (db : Database) (id : CovenantId) (after : Option (Int × OwnerKey))
    (limit : Nat) : List TokenBalance × Option (Option (Int × OwnerKey)) :=
  overFetch (tokenBalancesPage db id after) (fun last ↦ some last.cursor) limit

/-! ## The trades of all tokens -/

/-- `(accepting_daa, token_id, seq)`. -/
def TokenTrade.cursor (tt : TokenTrade) : Nat × CovenantId × Nat :=
  (tt.acceptingDaa, tt.tokenId, tt.seq)

/-- The rows and the continuation of `trades_handler`. -/
def tradesPage (db : Database) (tokenId marketId : Option CovenantId) (side : Option Side)
    (before : Option (Nat × CovenantId × Nat)) (limit : Nat) :
    List TokenTrade × Option (Option (Nat × CovenantId × Nat)) :=
  overFetch (globalTokenTradesPage db tokenId marketId side before)
    (fun last ↦ some last.cursor) limit

/-- The trades the filters of the global feed select. -/
def selectedTrades (db : Database) (tokenId marketId : Option CovenantId)
    (side : Option Side) : List TokenTrade :=
  (feedTrades db).filter fun tt ↦
    tokenId.all (tt.tokenId = ·) && marketId.all (tt.marketCovenantId = ·) &&
      side.all (tt.side = ·)

/-! ## Each is read to its end -/

/-- The rows of an ordered feed past a cursor, up to a size within `1 … most`, with a
`LIMIT` of at most `i64::MAX`. -/
def limitedPage {α κ : Type} (key : α → κ) (r : κ → κ → Prop) [DecidableRel r]
    (le : α → α → Prop) [DecidableRel le] (most : Nat) (rows : List α) (c : Option κ) (n : Nat) :
    List α × Option (Option κ) :=
  overFetch (fun k ↦ ((past key r rows c).insertionSort le).take (min k (2 ^ 63 - 1)))
    (fun a ↦ some (key a)) (clamp n 1 most)

/-- The `LIMIT` takes nothing away, whatever the size asked for, and the feed is read
to its end. -/
theorem limitedPage_complete {α κ ω : Type} {key : α → κ} {r : κ → κ → Prop} [DecidableRel r]
    {le : α → α → Prop} [DecidableRel le] [LinearOrder ω] {most : Nat} (hmost : 1 ≤ most)
    (hlimit : most < 2 ^ 63 - 1) {rows : List α} (k : α → ω) (hle : ∀ a b, le a b ↔ k a ≤ k b)
    (hasymm : ∀ k k', r k k' → ¬r k' k) (hnodup : rows.Nodup)
    (hinj : ∀ a ∈ rows, ∀ b ∈ rows, k a = k b → a = b)
    (hstrict : ∀ a ∈ rows, ∀ b ∈ rows, k a < k b → r (key a) (key b)) :
    Complete (limitedPage key r le most rows) none (rows.insertionSort le) := by
  have hpage : limitedPage key r le most rows = fun c n ↦
      overFetch ((past key r rows c).insertionSort le).take (fun a ↦ some (key a))
        (clamp n 1 most) := by
    funext c n
    have hn := clamp_le n most
    simp only [limitedPage, overFetch, min_eq_left (by omega : clamp n 1 most + 1 ≤ 2 ^ 63 - 1)]
  rw [hpage]
  exact Complete.resize (orderedPage_complete k hle hasymm hnodup hinj hstrict)
    fun n _ ↦ clamp_pos n hmost

theorem CovenantId.toNat_inj {a b : CovenantId} (h : a.bytes.toNat = b.bytes.toNat) : a = b := by
  cases a
  cases b
  exact congrArg mk (BitVec.eq_of_toNat_eq h)

theorem listedAfter_asymm (k k' : Nat × CovenantId) : listedAfter k k' → ¬listedAfter k' k := by
  unfold listedAfter
  omega

theorem heldAfter_asymm (k k' : Int × OwnerKey) : heldAfter k k' → ¬heldAfter k' k := by
  rintro (h | ⟨he, h⟩) (h' | ⟨he', h'⟩)
  · omega
  · omega
  · omega
  · exact lt_asymm h h'

/-- The covenant list is read to its end, in its order. -/
theorem gridPage_complete {s : Store} (hkey : (s.covenants.map (·.covenantId)).Nodup)
    (hdaa : ∀ c ∈ s.covenants, c.lastActivityDaa < 2 ^ 63) :
    Complete (fun after n ↦ gridPage s after (clamp n 1 maxPage)) none
      ((summaryRows s).insertionSort fun a b ↦ b.listKey ≤ a.listKey) := by
  have hids : ((summaryRows s).map (·.covenantId)).Nodup := by
    rw [summaryRows, List.map_map]
    exact hkey
  refine limitedPage_complete (by decide) (by decide)
    (fun c : CovenantSummary ↦ OrderDual.toDual c.listKey) (fun _ _ ↦ Iff.rfl) listedAfter_asymm
    (List.Nodup.of_map _ hids) ?_ ?_
  · intro a ha b hb heq
    have hpair := congrArg ofLex (OrderDual.toDual_inj.mp heq)
    exact List.inj_on_of_nodup_map hids ha hb (CovenantId.toNat_inj (congrArg Prod.snd hpair))
  · intro a ha b hb hlt
    have hsmall : a.lastActivityDaa < 2 ^ 63 := by
      obtain ⟨row, hrow, rfl⟩ := List.mem_map.mp ha
      exact hdaa row hrow
    have hmin : min a.lastActivityDaa (2 ^ 63 - 1) = a.lastActivityDaa := min_eq_left (by omega)
    show listedAfter (a.lastActivityDaa, a.covenantId) (b.lastActivityDaa, b.covenantId)
    rw [listedAfter, hmin]
    exact Prod.Lex.lt_iff.mp (OrderDual.toDual_lt_toDual.mp hlt)

/-- The holders of a token are read to their end, in their order. -/
theorem holdersPage_complete {db : Database}
    (hkey : (db.derived.tokenBalances.map fun row ↦ (row.tokenId, row.owner)).Nodup)
    (id : CovenantId) :
    Complete (fun after n ↦ holdersPage db id after (clamp n 1 500)) none
      ((balancesOf db id).insertionSort fun a b ↦ a.holderKey ≤ b.holderKey) := by
  refine limitedPage_complete (by decide) (by decide) TokenBalance.holderKey (fun _ _ ↦ Iff.rfl)
    heldAfter_asymm ((List.Nodup.of_map _ hkey).filter _) ?_ ?_
  · intro a ha b hb heq
    obtain ⟨ha, hta⟩ := List.mem_filter.mp ha
    obtain ⟨hb, htb⟩ := List.mem_filter.mp hb
    refine List.inj_on_of_nodup_map hkey ha hb (Prod.ext ?_ ?_)
    · exact (of_decide_eq_true hta).trans (of_decide_eq_true htb).symm
    · exact congrArg (fun k ↦ (ofLex k).2) heq
  · intro a _ b _ hlt
    rcases Prod.Lex.lt_iff.mp hlt with h | ⟨he, h⟩
    · exact .inl (OrderDual.toDual_lt_toDual.mp h)
    · exact .inr ⟨(OrderDual.toDual_inj.mp he).symm, h⟩

/-- The cursor condition of the global feed, as a relation on cursors. -/
def tradedBefore (before key : Nat × CovenantId × Nat) : Prop :=
  key.1 < min before.1 (2 ^ 63 - 1) ∨
    key.1 = min before.1 (2 ^ 63 - 1) ∧ key.2.1.bytes.toNat < before.2.1.bytes.toNat ∨
    key.1 = min before.1 (2 ^ 63 - 1) ∧ key.2.1 = before.2.1 ∧
      key.2.2 < min before.2.2 (2 ^ 63 - 1)

instance : DecidableRel tradedBefore := fun _ _ ↦
  inferInstanceAs (Decidable (_ ∨ _ ∧ _ ∨ _ ∧ _ ∧ _))

theorem TokenTrade.before_eq (tt : TokenTrade) (c : Nat × CovenantId × Nat) :
    tt.before c = decide (tradedBefore c tt.cursor) := by
  rw [Bool.eq_iff_iff, decide_eq_true_eq, TokenTrade.before, tradedBefore]
  simp only [TokenTrade.cursor, Bool.or_eq_true, Bool.and_eq_true, decide_eq_true_eq, and_assoc,
    or_assoc]

theorem tradedBefore_asymm (k k' : Nat × CovenantId × Nat) :
    tradedBefore k k' → ¬tradedBefore k' k := by
  rintro (h | ⟨he, h⟩ | ⟨he, ht, h⟩) (h' | ⟨he', h'⟩ | ⟨he', ht', h'⟩) <;>
    first | omega | (rw [ht] at h'; omega) | (rw [ht'] at h; omega)

/-- The trades are read to their end, in their order, under every filter. -/
theorem tradesPage_complete {db : Database}
    (hkey : (db.derived.tokenTrades.map fun tt ↦ (tt.tokenId, tt.seq)).Nodup)
    (hsmall : ∀ tt ∈ db.derived.tokenTrades, tt.acceptingDaa < 2 ^ 63 ∧ tt.seq < 2 ^ 63)
    (tokenId marketId : Option CovenantId) (side : Option Side) :
    Complete (fun before n ↦ tradesPage db tokenId marketId side before (clamp n 1 1000)) none
      ((selectedTrades db tokenId marketId side).insertionSort
        fun a b ↦ b.feedKey ≤ a.feedKey) := by
  have hmem : ∀ {tt}, tt ∈ selectedTrades db tokenId marketId side →
      tt ∈ db.derived.tokenTrades := fun h ↦
    (List.mem_filter.mp (List.mem_filter.mp h).1).1
  have hpage : (fun before n ↦ tradesPage db tokenId marketId side before (clamp n 1 1000)) =
      limitedPage TokenTrade.cursor tradedBefore (fun a b ↦ b.feedKey ≤ a.feedKey) 1000
        (selectedTrades db tokenId marketId side) := by
    funext before n
    have hpast : past TokenTrade.cursor tradedBefore
        (selectedTrades db tokenId marketId side) before = (feedTrades db).filter fun tt ↦
          tokenId.all (tt.tokenId = ·) && marketId.all (tt.marketCovenantId = ·) &&
            side.all (tt.side = ·) && before.all tt.before := by
      rw [past, selectedTrades, List.filter_filter]
      refine List.filter_congr fun tt _ ↦ ?_
      rw [Bool.and_comm]
      cases before with
      | none => rfl
      | some c => rw [Option.all_some, Option.all_some, TokenTrade.before_eq]
    rw [limitedPage, hpast]
    rfl
  rw [hpage]
  refine limitedPage_complete (by decide) (by decide)
    (fun tt : TokenTrade ↦ OrderDual.toDual tt.feedKey) (fun _ _ ↦ Iff.rfl) tradedBefore_asymm
    ?_ ?_ ?_
  · exact ((List.Nodup.of_map _ hkey).filter _).filter _
  · intro a ha b hb heq
    have hpair := congrArg (fun k ↦ (ofLex (ofLex k).2)) (OrderDual.toDual_inj.mp heq)
    obtain ⟨htoken, hseq⟩ := Prod.ext_iff.mp hpair
    exact List.inj_on_of_nodup_map hkey (hmem ha) (hmem hb)
      (Prod.ext (CovenantId.toNat_inj htoken) hseq)
  · intro a ha b hb hlt
    obtain ⟨hdaa, hseq⟩ := hsmall a (hmem ha)
    have hmin : min a.acceptingDaa (2 ^ 63 - 1) = a.acceptingDaa := min_eq_left (by omega)
    have hmin' : min a.seq (2 ^ 63 - 1) = a.seq := min_eq_left (by omega)
    show tradedBefore (a.acceptingDaa, a.tokenId, a.seq) (b.acceptingDaa, b.tokenId, b.seq)
    rw [tradedBefore, hmin, hmin']
    rcases Prod.Lex.lt_iff.mp (OrderDual.toDual_lt_toDual.mp hlt) with h | ⟨he, h⟩
    · exact .inl h
    · rcases Prod.Lex.lt_iff.mp h with h | ⟨ht, h⟩
      · exact .inr (.inl ⟨he, h⟩)
      · exact .inr (.inr ⟨he, CovenantId.toNat_inj ht, h⟩)

end Kascov
