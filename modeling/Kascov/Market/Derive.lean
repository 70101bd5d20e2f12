import Kascov.Decode.Registry
import Kascov.Market.Skeleton
import Kascov.Lib.Checked

/-!
# The program row of a market covenant

`derive_market_program`: the newest proven reveal of the covenant's program is
matched against the audited builds, and the trades of the token it names are
replayed against its constants.  Reveals of one age are scanned in rowid order.
-/

namespace Kascov

/-- The pinned programs of the audited builds, which are files beside the source. -/
structure MarketBuilds where
  kronCurveV1 : Bytes
  kronCurveV2 : Bytes
  kcmCurveV1 : Bytes
  kronCurveV3 : Bytes
  kronPoolV1 : Bytes
  kronPoolTnA : Bytes
  kronPoolV2 : Bytes
  kronPoolV3 : Bytes

/-- `Matched`: what the derivation keeps of a matched program. -/
structure Matched where
  skeleton : String
  tokenCovenantId : CovenantId
  vKasUnits : Int
  tokenReserve : Int
  graduationKasSompi : Option Int
  creator : BitVec 256
  kasReserveSompi : Option Int
  lpTokenCovenantId : Option CovenantId
  shares : Option Int
deriving DecidableEq

/-- A matched curve. -/
def CurveParams.matched (skeleton : String) (c : CurveParams) : Matched :=
  { skeleton
    tokenCovenantId := c.tokenCovenantId
    vKasUnits := c.vKasUnits
    tokenReserve := c.tokenReserve
    graduationKasSompi := some c.graduationKasSompi
    creator := c.creatorFeeOwner
    kasReserveSompi := none
    lpTokenCovenantId := none
    shares := none }

/-- A matched pool: the same formula with no virtual reserve. -/
def PoolParams.matched (skeleton : String) (p : PoolParams) : Matched :=
  { skeleton
    tokenCovenantId := p.tokenCovenantId
    vKasUnits := 0
    tokenReserve := p.tokenReserve
    graduationKasSompi := none
    creator := p.creator
    kasReserveSompi := Checked.mul 63 p.kasReserveUnits 1000000
    lpTokenCovenantId := some p.lpTokenCovenantId
    shares := some p.shares }

/-- `exact_pin`. -/
def exactPin (pins : List ExactPin) (programHash : BitVec 256) : Option ExactPin :=
  pins.find? (·.programHash = programHash)

/-- The chain of matchers: exact pins, then the skeleton table, then the builds that
are matched by hand. -/
def matchProgram (builds : MarketBuilds) (programHash : BitVec 256) (program : Bytes) :
    Option Matched :=
  ((exactPin exactPins programHash).map fun pin ↦
    match pin.params with
    | .curve c => c.matched pin.skeleton
    | .pool p => p.matched pin.skeleton)
  |>.or (([kronCurveV1Build builds.kronCurveV1, kronCurveV2Build builds.kronCurveV2,
      kcmCurveV1Build builds.kcmCurveV1] : List SkeletonBuild).findSome? fun sk ↦
    (matchSkeleton sk program).map (·.matched sk.name))
  |>.or ((matchKronCurveV3 builds.kronCurveV3 program).map (·.matched "KRON curve v3"))
  |>.or ((matchKronPool builds.kronPoolV1 program).map (·.matched "KRON pool v1"))
  |>.or ((matchKronPoolTnA builds.kronPoolTnA program).map (·.matched "KRON pool tn-a"))
  |>.or ((matchKronPoolV2 builds.kronPoolV2 program).map (·.matched "KRON pool v2"))
  |>.or ((matchKronPoolV3 builds.kronPoolV3 program).map (·.matched "KRON pool v3"))

/-! ## The replay -/

/-- The counters of the replay loop. -/
structure MarketReplay where
  exercised : Int := 0
  ok : Bool := true
  checkedThrough : Int := -1
deriving DecidableEq, Repr

/-- The replay loop of `derive_market_program`: an off-curve trade is passed over, a
broken invariant ends the loop. -/
def replayMarket (v bracketFeeBps growthFeeBps : Int) : List TokenTrade → MarketReplay →
    MarketReplay
  | [], r => r
  | t :: rest, r =>
      let r := { r with checkedThrough := t.seq }
      if 0 < t.coCovenants then replayMarket v bracketFeeBps growthFeeBps rest r
      else if !bracketHolds v t.kasBeforeSompi t.kasAfterSompi t.baseBefore t.baseAfter
          t.quoteSompi t.baseAmount (t.side = .buy) bracketFeeBps then
        replayMarket v bracketFeeBps growthFeeBps rest r
      else if !invariantHolds v t.kasBeforeSompi t.kasAfterSompi t.baseBefore t.baseAfter
          t.quoteSompi growthFeeBps then
        { r with ok := false }
      else
        replayMarket v bracketFeeBps growthFeeBps rest { r with exercised := r.exercised + 1 }

/-- The trades the replay reads: those of the token the program names, in this market. -/
def marketTrades (d : Derived) (tokenId marketId : CovenantId) : List TokenTrade :=
  (d.tokenTrades.filter fun t ↦ t.tokenId = tokenId ∧ t.marketCovenantId = marketId).insertionSort
    fun a b ↦ a.seq ≤ b.seq

/-! ## The derivation -/

/-- `unmatched_tag`. -/
def unmatchedTag : String := "unmatched:9"

section Derivation

variable (blake2b : Bytes → Bytes)

/-- `blake2b_256`, as the hash column holds it. -/
def programHashOf (program : Bytes) : BitVec 256 :=
  .ofNat 256 ((blake2b program).foldl (fun n x ↦ 2 ^ 8 * n + x.toNat) 0)

/-- The newest proven reveal among the eight youngest cells with a spend script. -/
def revealedProgram (s : Store) (id : CovenantId) : Option Bytes :=
  (((s.covenantUtxos.filter fun row ↦ row.covenantId = id ∧ row.spentSig.isSome).insertionSort
      fun a b ↦ b.createdDaa ≤ a.createdDaa).take 8).findSome? fun row ↦
    row.spentSig.bind (p2shReveal blake2b row.spkScript)

/-- The row of a program no matcher knows: its hash and its shape. -/
def unmatchedRow (id : CovenantId) (program : Bytes) : MarketProgram :=
  { covenantId := id
    programHash := programHashOf blake2b program
    skeleton := unmatchedTag
    programLen := some program.length
    programPushes := some (pushUnits program).length }

/-- The row of a matched program, after its replay. -/
def matchedRow (id : CovenantId) (program : Bytes) (p : Matched) (r : MarketReplay) :
    MarketProgram :=
  { covenantId := id
    programHash := programHashOf blake2b program
    skeleton := p.skeleton
    vKasUnits := p.vKasUnits
    tokenReserve := some p.tokenReserve
    tokenCovenantId := some p.tokenCovenantId
    graduationKasSompi := p.graduationKasSompi
    creatorFeeOwner := some p.creator
    kasReserveSompi := p.kasReserveSompi
    lpTokenCovenantId := p.lpTokenCovenantId
    shares := p.shares
    invariantCheckedThroughSeq := r.checkedThrough
    invariantTrades := r.exercised
    invariantOk := r.ok
    exercisedTrades := r.exercised
    programLen := some program.length
    programPushes := some (pushUnits program).length }

/-- The replay of a matched program. -/
def replayOf (d : Derived) (id : CovenantId) (p : Matched) : MarketReplay :=
  let (bracketFeeBps, growthFeeBps) := feeModel p.skeleton
  replayMarket (p.vKasUnits * kasQuantumSompi) bracketFeeBps growthFeeBps
    (marketTrades d p.tokenCovenantId id) {}

/-- The row a revealed program is written as. -/
def marketProgramOf (builds : MarketBuilds) (d : Derived) (id : CovenantId) (program : Bytes) :
    MarketProgram :=
  match matchProgram builds (programHashOf blake2b program) program with
  | none => unmatchedRow blake2b id program
  | some p => matchedRow blake2b id program p (replayOf d id p)

/-- `INSERT OR REPLACE INTO market_programs`. -/
def replaceMarketProgram (row : MarketProgram) (rows : List MarketProgram) : List MarketProgram :=
  rows.filter (·.covenantId ≠ row.covenantId) ++ [row]

/-- The skip gate: these exact bytes were given up on, and their shape is recorded. -/
def gaveUpOn (d : Derived) (id : CovenantId) (program : Bytes) : Bool :=
  d.marketPrograms.any fun row ↦ row.covenantId = id &&
    row.programHash = programHashOf blake2b program && row.skeleton = unmatchedTag &&
    row.programLen.isSome

/-- `derive_market_program`. -/
def deriveMarketProgram (builds : MarketBuilds) (s : Store) (d : Derived) (id : CovenantId) :
    Derived :=
  match revealedProgram blake2b s id with
  -- Nothing proof-grade: the table is left as it is.
  | none => d
  | some program =>
      if gaveUpOn blake2b d id program then d
      else
        { d with
          marketPrograms :=
            replaceMarketProgram (marketProgramOf blake2b builds d id program) d.marketPrograms }

/-- `rederive_market_programs`. -/
def rederiveMarketPrograms (builds : MarketBuilds) (s : Store) (d : Derived)
    (covenants : List CovenantId) : Derived :=
  covenants.foldl (deriveMarketProgram blake2b builds s) d

/-- Deriving a program touches its table only. -/
theorem deriveMarketProgram_frame (builds : MarketBuilds) (s : Store) (d : Derived)
    (id : CovenantId) :
    ∃ marketPrograms, deriveMarketProgram blake2b builds s d id = { d with marketPrograms } := by
  unfold deriveMarketProgram
  split
  · exact ⟨_, rfl⟩
  · split
    · exact ⟨_, rfl⟩
    · exact ⟨_, rfl⟩

theorem rederiveMarketPrograms_frame (builds : MarketBuilds) (s : Store) (d : Derived)
    (covenants : List CovenantId) :
    ∃ marketPrograms, rederiveMarketPrograms blake2b builds s d covenants =
      { d with marketPrograms } := by
  induction covenants generalizing d with
  | nil => exact ⟨_, rfl⟩
  | cons id rest ih =>
      obtain ⟨first, hfirst⟩ := deriveMarketProgram_frame blake2b builds s d id
      obtain ⟨last, hlast⟩ := ih (deriveMarketProgram blake2b builds s d id)
      refine ⟨last, ?_⟩
      rw [rederiveMarketPrograms, List.foldl_cons]
      rw [rederiveMarketPrograms] at hlast
      rw [hlast, hfirst]

end Derivation

end Kascov
