import Kascov.Lib.Checked
import Kascov.Lib.Fallible
import Kascov.Lib.Rows
import Kascov.Token.Proofs

/-!
# The trade of a transaction

`extract_trade_candidate`: a transaction whose token cells are all proven is a
trade when exactly one covenant owner ends with more or fewer tokens than it began
with, and its own KAS moved the other way.  `Admitted` says so, and
`extractTradeCandidate_iff` that the code finds the trades and nothing else.
-/

namespace Kascov

open Fallible

/-! ## Net deltas -/

/-- The sum of amounts. -/
def sumAmounts (states : List Judged) : Int := (states.map (·.amount)).sum

/-- What an owner holds among some states. -/
def heldBy (states : List Judged) (owner : OwnerKey) : Int :=
  sumAmounts (states.filter (·.ownerKey = owner))

/-- The net token delta of an owner across a transaction. -/
def netDelta (ins outs : List Judged) (owner : OwnerKey) : Int :=
  heldBy outs owner - heldBy ins owner

/-- A `BTreeSet` of owner keys. -/
def ownerSet (states : List Judged) : List OwnerKey :=
  ((states.map (·.ownerKey)).dedup).insertionSort (· ≤ ·)

/-- `delta`, in the order of its keys. -/
def deltaMap (ins outs : List Judged) : List (OwnerKey × Int) :=
  (ownerSet (outs ++ ins)).map fun owner ↦ (owner, netDelta ins outs owner)

/-- `k.starts_with("02")`: a covenant owner. -/
def OwnerKey.isCovenant (owner : OwnerKey) : Bool := owner.identifierType = 0x02

/-- `movers`: the covenant owners with a nonzero net delta. -/
def movers (ins outs : List Judged) : List (OwnerKey × Int) :=
  (deltaMap ins outs).filter fun d ↦ d.1.isCovenant && d.2 ≠ 0

/-- The other owners whose net delta opposes the market's. -/
def takers (ins outs : List Judged) (dTok : Int) : List (OwnerKey × Int) :=
  (deltaMap ins outs).filter fun d ↦
    !d.1.isCovenant && d.2 ≠ 0 && (decide (0 < d.2) != decide (0 < dTok))

/-- The covenant an owner key of type 0x02 names. -/
def OwnerKey.covenant (owner : OwnerKey) : CovenantId := ⟨owner.owner.hash⟩

/-! ## The KAS leg -/

/-- `K0`: the market's KAS that the transaction consumes. -/
def kasConsumed (s : Store) (txid : TxId) (market : CovenantId) : Nat :=
  ((s.covenantUtxos.filter fun row ↦
    row.spentTxid = some txid ∧ row.covenantId = market).map (·.value)).sum

/-- `K1`: the market's KAS that the transaction creates again. -/
def kasCreated (s : Store) (txid : TxId) (market : CovenantId) : Nat :=
  ((s.covenantUtxos.filter fun row ↦
    row.outpoint.txid = txid ∧ row.covenantId = market).map (·.value)).sum

/-- `SUM` over an `INTEGER` column. -/
def sqlSum (n : Nat) : Result Nat :=
  if n < 2 ^ 63 then .ok n else .error (.invalid "sqlite" "integer overflow")

/-- The other covenants with an event in the transaction. -/
def coCovenants (s : Store) (txid : TxId) (tokenId market : CovenantId) : Nat :=
  ((s.covenantEvents.filter fun e ↦
    e.txid = txid ∧ e.covenantId ≠ tokenId ∧ e.covenantId ≠ market).map
      (·.covenantId)).dedup.length

/-! ## The candidate -/

/-- The counterparty: the one other owner on the opposite side, if it is one. -/
def counterpartyOf (ins outs : List Judged) (dTok : Int) : Option OwnerKey :=
  match takers ins outs dTok with
  | [one] => some one.1
  | _ => none

/-- `extract_trade_candidate`, for the event `e` that is stored under `seq`. -/
def extractTradeCandidate (s : Store) (tokenId : CovenantId) (seq : Nat) (e : EventRow)
    (ins outs : List Judged) : Result (Option TokenTrade) :=
  match movers ins outs with
  | [(marketKey, dTok)] => do
      let market := marketKey.covenant
      let k0 ← sqlSum (kasConsumed s e.txid market)
      let k1 := kasCreated s e.txid market
      let dKas : Int := k1 - k0
      -- Opposite directions or it is not a trade.
      if dKas = 0 ∨ decide (0 < dKas) = decide (0 < dTok) then
        return none
      else
        match Checked.narrow 63 |dKas|, Checked.narrow 63 |dTok|, Checked.narrow 63 (k0 : Int),
            Checked.narrow 63 (k1 : Int), Checked.narrow 63 (heldBy ins marketKey),
            Checked.narrow 63 (heldBy outs marketKey) with
        | some quoteSompi, some baseAmount, some kasBefore, some kasAfter, some baseBefore,
            some baseAfter =>
            return some
              { tokenId
                seq
                txid := e.txid
                marketCovenantId := market
                side := if 0 < dKas then .buy else .sell
                baseAmount
                quoteSompi
                kasBeforeSompi := kasBefore
                kasAfterSompi := kasAfter
                baseBefore
                baseAfter
                coCovenants := coCovenants s e.txid tokenId market
                counterparty := counterpartyOf ins outs dTok
                acceptingDaa := e.acceptingDaa
                acceptingBlueScore := e.acceptingBlueScore
                txIndex := e.txIndex
                acceptingTimeMs := e.acceptingTimeMs.map Int.ofNat }
        | _, _, _, _, _, _ => return none
  | _ => return none

/-! ## The law -/

/-- The only covenant owner whose holding changes. -/
structure SoleMover (ins outs : List Judged) (market : OwnerKey) : Prop where
  covenant : market.isCovenant = true
  moved : netDelta ins outs market ≠ 0
  sole : ∀ owner : OwnerKey, owner.isCovenant = true → netDelta ins outs owner ≠ 0 →
    owner = market

/-- An owner that is no covenant, and whose holding moves against the market's. -/
def Opposes (ins outs : List Judged) (market owner : OwnerKey) : Prop :=
  owner.isCovenant = false ∧
    (0 < netDelta ins outs owner ∧ netDelta ins outs market < 0 ∨
      netDelta ins outs owner < 0 ∧ 0 < netDelta ins outs market)

/-- The two legs of a market move in opposite directions. -/
def LegsOppose (ins outs : List Judged) (market : OwnerKey) (kasBefore kasAfter : Int) : Prop :=
  kasBefore < kasAfter ∧ heldBy outs market < heldBy ins market ∨
    kasAfter < kasBefore ∧ heldBy ins market < heldBy outs market

/-- Everything the row stores fits an `i64`. -/
structure FitsI64 (ins outs : List Judged) (market : OwnerKey) (kasBefore kasAfter : Int) :
    Prop where
  kasBefore : Checked.InRange 63 kasBefore
  kasAfter : Checked.InRange 63 kasAfter
  baseBefore : Checked.InRange 63 (heldBy ins market)
  baseAfter : Checked.InRange 63 (heldBy outs market)
  baseAmount : Checked.InRange 63 |netDelta ins outs market|

/-- A transaction is a trade in a market. -/
structure Admitted (s : Store) (txid : TxId) (ins outs : List Judged) (market : OwnerKey) :
    Prop where
  sole : SoleMover ins outs market
  legs : LegsOppose ins outs market (kasConsumed s txid market.covenant)
    (kasCreated s txid market.covenant)
  fits : FitsI64 ins outs market (kasConsumed s txid market.covenant)
    (kasCreated s txid market.covenant)

/-- The row of a trade. -/
def tradeRow (s : Store) (tokenId : CovenantId) (seq : Nat) (e : EventRow)
    (ins outs : List Judged) (market : OwnerKey) : TokenTrade :=
  { tokenId
    seq
    txid := e.txid
    marketCovenantId := market.covenant
    side := if heldBy outs market < heldBy ins market then .buy else .sell
    baseAmount := |heldBy outs market - heldBy ins market|
    quoteSompi :=
      |(kasCreated s e.txid market.covenant : Int) - kasConsumed s e.txid market.covenant|
    kasBeforeSompi := kasConsumed s e.txid market.covenant
    kasAfterSompi := kasCreated s e.txid market.covenant
    baseBefore := heldBy ins market
    baseAfter := heldBy outs market
    coCovenants := coCovenants s e.txid tokenId market.covenant
    counterparty := counterpartyOf ins outs (netDelta ins outs market)
    acceptingDaa := e.acceptingDaa
    acceptingBlueScore := e.acceptingBlueScore
    txIndex := e.txIndex
    acceptingTimeMs := e.acceptingTimeMs.map Int.ofNat }

section Law

variable {ins outs : List Judged}

theorem mem_ownerSet {states : List Judged} {owner : OwnerKey} :
    owner ∈ ownerSet states ↔ ∃ state ∈ states, state.ownerKey = owner := by
  simp [ownerSet]

theorem ownerSet_nodup (states : List Judged) : (ownerSet states).Nodup := by
  rw [ownerSet, (List.perm_insertionSort _ _).nodup_iff]
  exact List.nodup_dedup _

theorem heldBy_eq_zero {states : List Judged} {owner : OwnerKey}
    (h : ∀ state ∈ states, state.ownerKey ≠ owner) : heldBy states owner = 0 := by
  rw [heldBy, List.filter_eq_nil_iff.mpr fun state hstate ↦ by simpa using h state hstate]
  rfl

/-- An owner whose holding changes has a cell on one side. -/
theorem mem_ownerSet_of_moved {owner : OwnerKey} (h : netDelta ins outs owner ≠ 0) :
    owner ∈ ownerSet (outs ++ ins) := by
  by_contra hnot
  have hnone : ∀ state ∈ outs ++ ins, state.ownerKey ≠ owner := fun state hstate heq ↦
    hnot (mem_ownerSet.mpr ⟨state, hstate, heq⟩)
  refine h ?_
  rw [netDelta, heldBy_eq_zero fun state hstate ↦ hnone state (List.mem_append_left _ hstate),
    heldBy_eq_zero fun state hstate ↦ hnone state (List.mem_append_right _ hstate), Int.sub_zero]

theorem mem_deltaMap {d : OwnerKey × Int} :
    d ∈ deltaMap ins outs ↔ d.1 ∈ ownerSet (outs ++ ins) ∧ d.2 = netDelta ins outs d.1 := by
  obtain ⟨owner, delta⟩ := d
  simp only [deltaMap, List.mem_map, Prod.mk.injEq]
  constructor
  · rintro ⟨_, hmem, rfl, rfl⟩
    exact ⟨hmem, rfl⟩
  · rintro ⟨hmem, rfl⟩
    exact ⟨owner, hmem, rfl, rfl⟩

theorem deltaMap_nodup (ins outs : List Judged) : (deltaMap ins outs).Nodup :=
  (ownerSet_nodup _).map fun _ _ h ↦ congrArg Prod.fst h

/-- `movers` has one entry when there is a sole mover, and then it is that one. -/
theorem movers_eq_singleton_iff {market : OwnerKey} {dTok : Int} :
    movers ins outs = [(market, dTok)] ↔
      SoleMover ins outs market ∧ dTok = netDelta ins outs market := by
  rw [movers, Rows.filter_eq_singleton_iff (deltaMap_nodup ins outs)]
  constructor
  · rintro ⟨⟨hmem, hp⟩, hsole⟩
    obtain ⟨-, heq⟩ := mem_deltaMap.mp hmem
    dsimp only at heq hp
    rw [Bool.and_eq_true, decide_eq_true_eq, heq] at hp
    refine ⟨⟨hp.1, hp.2, fun owner hcov hmoved ↦ ?_⟩, heq⟩
    have hentry := hsole (owner, netDelta ins outs owner)
      (mem_deltaMap.mpr ⟨mem_ownerSet_of_moved hmoved, rfl⟩) (by simp [hcov, hmoved])
    exact congrArg Prod.fst hentry
  · rintro ⟨hsole, rfl⟩
    refine ⟨⟨mem_deltaMap.mpr ⟨mem_ownerSet_of_moved hsole.moved, rfl⟩, ?_⟩, ?_⟩
    · simp [hsole.covenant, hsole.moved]
    · rintro ⟨owner, delta⟩ hmem hp
      obtain ⟨-, heq⟩ := mem_deltaMap.mp hmem
      dsimp only at heq hp
      rw [Bool.and_eq_true, decide_eq_true_eq, heq] at hp
      obtain rfl := hsole.sole owner hp.1 hp.2
      exact Prod.ext rfl heq

theorem taker_iff {market : OwnerKey} (hmoved : netDelta ins outs market ≠ 0)
    {owner : OwnerKey} :
    (!owner.isCovenant && decide (netDelta ins outs owner ≠ 0) &&
        (decide (0 < netDelta ins outs owner) != decide (0 < netDelta ins outs market))) = true ↔
      Opposes ins outs market owner := by
  unfold Opposes
  simp only [Bool.and_eq_true, Bool.not_eq_true', decide_eq_true_eq, bne_iff_ne, ne_eq,
    decide_eq_decide]
  constructor
  · rintro ⟨⟨hcov, hne⟩, hsign⟩
    exact ⟨hcov, by omega⟩
  · rintro ⟨hcov, hsign⟩
    exact ⟨⟨hcov, by omega⟩, by omega⟩

/-- The counterparty is named when it is the only one of its side. -/
theorem counterpartyOf_eq_some {market : OwnerKey} (hmoved : netDelta ins outs market ≠ 0)
    {owner : OwnerKey} :
    counterpartyOf ins outs (netDelta ins outs market) = some owner ↔
      Opposes ins outs market owner ∧
        ∀ other, Opposes ins outs market other → other = owner := by
  have hne : ∀ other, Opposes ins outs market other → netDelta ins outs other ≠ 0 := by
    rintro other ⟨-, hsign⟩
    omega
  have htakers : ∀ one, takers ins outs (netDelta ins outs market) = [one] ↔
      (one ∈ deltaMap ins outs ∧ Opposes ins outs market one.1) ∧
        ∀ x ∈ deltaMap ins outs, Opposes ins outs market x.1 → x = one := by
    intro one
    rw [takers, Rows.filter_eq_singleton_iff (deltaMap_nodup ins outs)]
    have hp : ∀ x ∈ deltaMap ins outs, ((!x.1.isCovenant && decide (x.2 ≠ 0) &&
        (decide (0 < x.2) != decide (0 < netDelta ins outs market))) = true ↔
        Opposes ins outs market x.1) := by
      intro x hx
      rw [(mem_deltaMap.mp hx).2]
      exact taker_iff hmoved
    constructor
    · rintro ⟨⟨hmem, hone⟩, hsole⟩
      exact ⟨⟨hmem, (hp one hmem).mp hone⟩, fun x hx hopp ↦ hsole x hx ((hp x hx).mpr hopp)⟩
    · rintro ⟨⟨hmem, hone⟩, hsole⟩
      exact ⟨⟨hmem, (hp one hmem).mpr hone⟩, fun x hx hpx ↦ hsole x hx ((hp x hx).mp hpx)⟩
  constructor
  · intro h
    unfold counterpartyOf at h
    split at h
    · rename_i one hlist
      obtain ⟨⟨hmem, hone⟩, hsole⟩ := (htakers one).mp hlist
      obtain rfl := Option.some.inj h
      refine ⟨hone, fun other hother ↦ ?_⟩
      exact congrArg Prod.fst (hsole (other, netDelta ins outs other)
        (mem_deltaMap.mpr ⟨mem_ownerSet_of_moved (hne other hother), rfl⟩) hother)
    · cases h
  · rintro ⟨hopp, hsole⟩
    have hlist : takers ins outs (netDelta ins outs market) =
        [(owner, netDelta ins outs owner)] := by
      refine (htakers _).mpr ⟨⟨mem_deltaMap.mpr
        ⟨mem_ownerSet_of_moved (hne owner hopp), rfl⟩, hopp⟩, ?_⟩
      rintro ⟨other, delta⟩ hx hother
      obtain rfl := hsole other hother
      exact Prod.ext rfl (mem_deltaMap.mp hx).2
    rw [counterpartyOf, hlist]

/-- A quote that differs between two fitting reserves fits. -/
theorem inRange_abs_sub {a b : Nat} (ha : Checked.InRange 63 (a : Int))
    (hb : Checked.InRange 63 (b : Int)) : Checked.InRange 63 |(a : Int) - b| := by
  obtain ⟨-, ha⟩ := ha
  obtain ⟨-, hb⟩ := hb
  refine Checked.inRange_of_nonneg (abs_nonneg _) (abs_lt.mpr ⟨?_, ?_⟩)
  · omega
  · omega

variable {s : Store} {tokenId : CovenantId} {seq : Nat} {e : EventRow}

/-- The code's test of direction, as the law puts it. -/
theorem legsOppose_iff {market : OwnerKey} {k0 k1 : Int}
    (hmoved : netDelta ins outs market ≠ 0) :
    LegsOppose ins outs market k0 k1 ↔
      ¬(k1 - k0 = 0 ∨ decide (0 < k1 - k0) = decide (0 < netDelta ins outs market)) := by
  unfold LegsOppose
  rw [decide_eq_decide]
  unfold netDelta at hmoved ⊢
  omega

/-- **The trades, and nothing else.** -/
theorem extractTradeCandidate_iff {t : TokenTrade} :
    extractTradeCandidate s tokenId seq e ins outs = .ok (some t) ↔
      ∃ market, Admitted s e.txid ins outs market ∧
        t = tradeRow s tokenId seq e ins outs market := by
  constructor
  · intro h
    unfold extractTradeCandidate at h
    split at h
    · rename_i market dTok hmovers
      obtain ⟨hsole, rfl⟩ := movers_eq_singleton_iff.mp hmovers
      obtain ⟨k0, hk0, h⟩ := bind_eq_ok.mp h
      obtain rfl : kasConsumed s e.txid market.covenant = k0 := by
        unfold sqlSum at hk0
        split at hk0
        · exact Except.ok.inj hk0
        · cases hk0
      dsimp only at h
      split at h
      · cases pure_eq_ok.mp h
      · rename_i hlegs
        have hopp := (legsOppose_iff hsole.moved).mpr hlegs
        split at h
        · rename_i hquote hbase hkas0 hkas1 hb0 hb1
          obtain ⟨-, rfl⟩ := Checked.narrow_eq_some.mp hquote
          obtain ⟨hfits, rfl⟩ := Checked.narrow_eq_some.mp hbase
          obtain ⟨hfits₀, rfl⟩ := Checked.narrow_eq_some.mp hkas0
          obtain ⟨hfits₁, rfl⟩ := Checked.narrow_eq_some.mp hkas1
          obtain ⟨hfitb₀, rfl⟩ := Checked.narrow_eq_some.mp hb0
          obtain ⟨hfitb₁, rfl⟩ := Checked.narrow_eq_some.mp hb1
          refine ⟨market, ⟨hsole, hopp, hfits₀, hfits₁, hfitb₀, hfitb₁, hfits⟩, ?_⟩
          rw [← Option.some.inj (pure_eq_ok.mp h), tradeRow]
          have hside : (0 : Int) < (kasCreated s e.txid market.covenant : Int) -
              kasConsumed s e.txid market.covenant ↔
              heldBy outs market < heldBy ins market := by
            unfold LegsOppose at hopp
            omega
          simp only [hside, netDelta]
        · cases pure_eq_ok.mp h
    · cases pure_eq_ok.mp h
  · rintro ⟨market, ⟨hsole, hlegs, hfits⟩, rfl⟩
    unfold extractTradeCandidate
    rw [movers_eq_singleton_iff.mpr ⟨hsole, rfl⟩]
    dsimp only
    have hk0 : sqlSum (kasConsumed s e.txid market.covenant) =
        .ok (kasConsumed s e.txid market.covenant) := by
      rw [sqlSum, if_pos (by exact_mod_cast hfits.kasBefore.2)]
    rw [bind_eq_ok]
    refine ⟨_, hk0, ?_⟩
    rw [if_neg ((legsOppose_iff hsole.moved).mp hlegs)]
    rw [Checked.narrow_of_inRange (inRange_abs_sub hfits.kasAfter hfits.kasBefore),
      Checked.narrow_of_inRange hfits.baseAmount, Checked.narrow_of_inRange hfits.kasBefore,
      Checked.narrow_of_inRange hfits.kasAfter, Checked.narrow_of_inRange hfits.baseBefore,
      Checked.narrow_of_inRange hfits.baseAfter]
    dsimp only
    rw [pure_eq_ok, tradeRow]
    have hside : (0 : Int) < (kasCreated s e.txid market.covenant : Int) -
        kasConsumed s e.txid market.covenant ↔ heldBy outs market < heldBy ins market := by
      unfold LegsOppose at hlegs
      omega
    simp only [hside, netDelta]

end Law

end Kascov
