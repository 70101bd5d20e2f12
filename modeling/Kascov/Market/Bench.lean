import Kascov.Decode.Registry
import Kascov.Lib.Entries
import Kascov.Market.Curve
import Kascov.Market.Push

/-!
# The audit bench

`run_bench`: the programs no matcher knows are recovered from their own spends,
clustered by push count and by a digest of the bytes between the pushes, and
each cluster is diffed push by push into a proposed pin.  The database is given
by what the queries return: the unmatched covenants, the spent cells of one, and
the recorded trades of one.
-/

namespace Kascov

/-- `Specimen`: one recovered, hash-proven program. -/
structure Specimen where
  covenantId : CovenantId
  program : Bytes
  trades : Nat
deriving DecidableEq

/-! ## Recovery -/

/-- The second step of `run_bench`, for one covenant: the first of its spent
cells that reveals a program. -/
def recoverSpecimen (blake2b : Bytes → Bytes) (reveals : CovenantId → List (Bytes × Bytes))
    (recorded : CovenantId → List TokenTrade) (cid : CovenantId) : Option Specimen :=
  ((reveals cid).findSome? fun row ↦ p2shReveal blake2b row.1 row.2).map fun program ↦
    ⟨cid, program, (recorded cid).length⟩

/-! ## Families -/

/-- The bytes between the pushes, from position `prev` on, joined. -/
def joinedGapsFrom (program : Bytes) : Nat → List PushUnit → Bytes
  | prev, [] => program.drop prev
  | prev, u :: units => byteRange program prev u.start ++ joinedGapsFrom program u.stop units

/-- `gap_digest`. -/
def gapDigest (blake2b : Bytes → Bytes) (program : Bytes) (units : List PushUnit) : Bytes :=
  blake2b (joinedGapsFrom program 0 units)

/-- What a family is keyed by. -/
def familyKey (blake2b : Bytes → Bytes) (s : Specimen) : Nat × Bytes :=
  ((pushUnits s.program).length, gapDigest blake2b s.program (pushUnits s.program))

/-- The order of the keys of a `BTreeMap`. -/
def FamilyKeyLe (a b : Nat × Bytes) : Prop := a.1 < b.1 ∨ a.1 = b.1 ∧ a.2 ≤ b.2

instance (a b : Nat × Bytes) : Decidable (FamilyKeyLe a b) := inferInstanceAs (Decidable (_ ∨ _))

/-- The clusters of `run_bench`, in the order of their keys. -/
def families (blake2b : Bytes → Bytes) (specimens : List Specimen) :
    List ((Nat × Bytes) × List Specimen) :=
  (Entries.updateAll [] (fun s members ↦ members ++ [s]) (familyKey blake2b)
    specimens).insertionSort fun a b ↦ FamilyKeyLe a.1 b.1

/-- The value of push `i`. -/
def pushedAt (units : List PushUnit) (i : Nat) : Bytes := (units[i]?.map (·.value)).getD []

/-- The pushes whose value differs anywhere across a family.  One member means
no diff is possible. -/
def familySlots (pushes : Nat) : List (List PushUnit) → List Nat
  | first :: second :: rest =>
      (List.range pushes).filter fun p ↦
        (second :: rest).any fun u ↦ pushedAt u p ≠ pushedAt first p
  | _ => []

/-! ## The constant trial -/

/-- `FEE_TRIALS`: the fee of the bracket, the fee of the growth, and a label. -/
def feeTrials : List (Int × Int × String) :=
  [(0, 0, "no fee"), (0, 125, "curve 125bps growth"), (20, 20, "pool 20bps")]

/-- The counters of `replay_into`. -/
structure ReplayCounts where
  clean : Nat := 0
  off : Nat := 0
  invBad : Nat := 0
deriving DecidableEq, Repr

/-- `replay_into`, for the recorded trades of one covenant. -/
def replayInto (v bracketFee growthFee : Int) (rows : List TokenTrade) (counts : ReplayCounts) :
    ReplayCounts :=
  rows.foldl
    (fun counts t ↦
      if 0 < t.coCovenants then counts
      else if bracketHolds v t.kasBeforeSompi t.kasAfterSompi t.baseBefore t.baseAfter t.quoteSompi
          t.baseAmount (t.side = .buy) bracketFee = false then
        { counts with off := counts.off + 1 }
      else if invariantHolds v t.kasBeforeSompi t.kasAfterSompi t.baseBefore t.baseAfter
          t.quoteSompi growthFee = false then
        { counts with invBad := counts.invBad + 1 }
      else { counts with clean := counts.clean + 1 })
    counts

/-- The trial that explains the most trades. -/
structure ReplayTrial where
  vSlot : Option Nat
  feeModel : String
  tradesClean : Nat
  tradesOffCurve : Nat
deriving DecidableEq, Repr

/-- The slots that decode small on every member, and before them the zero. -/
def vCandidates (slots : List Nat) (memberUnits : List (List PushUnit)) : List (Option Nat) :=
  none :: (slots.filter fun sl ↦ memberUnits.all fun u ↦
    (leI64 (pushedAt u sl)).any fun v ↦ 1 ≤ v ∧ v ≤ 1000000000000).map some

/-- The counters of one trial over a family. -/
def trialCounts (recorded : CovenantId → List TokenTrade) (members : List Specimen)
    (vc : Option Nat) (bracketFee growthFee : Int) : ReplayCounts :=
  members.foldl
    (fun counts s ↦
      let v := match vc with
        | none => 0
        | some sl => (leI64 (pushedAt (pushUnits s.program) sl)).getD 0 * kasQuantumSompi
      replayInto v bracketFee growthFee (recorded s.covenantId) counts)
    {}

/-- The fifth step of `run_bench`: among the trials without an invariant break,
the first with the most clean trades. -/
def bestTrial (recorded : CovenantId → List TokenTrade) (members : List Specimen)
    (slots : List Nat) : Option ReplayTrial :=
  ((vCandidates slots (members.map (pushUnits ·.program))).flatMap fun vc ↦
      feeTrials.map (Prod.mk vc)).foldl
    (fun best trial ↦
      let counts := trialCounts recorded members trial.1 trial.2.1 trial.2.2.1
      if counts.invBad = 0 ∧ best.all (·.tradesClean < counts.clean) then
        some ⟨trial.1, trial.2.2.2, counts.clean, counts.off⟩
      else best)
    none

/-! ## The proposal -/

/-- One element of `i64_groups`. -/
structure I64Group where
  slots : List Nat
  sampleValue : Option Int
deriving DecidableEq, Repr

/-- What `propose_pin` returns. -/
structure PinProposal where
  pushCount : Nat
  slotIndices : List Nat
  creatorLike : List (List Nat)
  i64Groups : List I64Group
  selfLen : List Nat
  vSlot : Option Nat
  feeModelTrial : Option String
  fixtureHash : Bytes
deriving DecidableEq

/-- The slots grouped by the value they carry in the first member. -/
def byValue (slots : List Nat) (first : List PushUnit) : List (Bytes × List Nat) :=
  (Entries.updateAll [] (fun sl group ↦ group ++ [sl]) (pushedAt first) slots).insertionSort
    fun a b ↦ a.1 ≤ b.1

/-- Every member carries one value at all sites of a group. -/
def coherent (memberUnits : List (List PushUnit)) (group : List Nat) : Bool :=
  memberUnits.all fun u ↦ group.all fun sl ↦ pushedAt u sl = pushedAt u (group.headD 0)

/-- The groups that are repeated and stay equal in every member. -/
def roleGroups (slots : List Nat) (memberUnits : List (List PushUnit)) :
    List (Bytes × List Nat) :=
  (byValue slots (memberUnits.headD [])).filter fun e ↦
    2 ≤ e.2.length && coherent memberUnits e.2

/-- The group repeats a 32-byte value. -/
def isCreatorLike (memberUnits : List (List PushUnit)) (e : Bytes × List Nat) : Bool :=
  e.1.length = 32 && memberUnits.all fun u ↦ (pushedAt u (e.2.headD 0)).length = 32

/-- `propose_pin`. -/
def proposePin (pushes : Nat) (slots : List Nat) (memberUnits : List (List PushUnit))
    (memberLens : List Nat) (best : Option ReplayTrial) (fixtureHash : Bytes) : PinProposal where
  pushCount := pushes
  slotIndices := slots
  creatorLike :=
    ((roleGroups slots memberUnits).filter (isCreatorLike memberUnits)).map (·.2)
  i64Groups :=
    ((roleGroups slots memberUnits).filter fun e ↦ !isCreatorLike memberUnits e &&
      memberUnits.all fun u ↦ (leI64 (pushedAt u (e.2.headD 0))).isSome).map fun e ↦
        ⟨e.2, leI64 e.1⟩
  selfLen := slots.filter fun sl ↦
    (memberUnits.zip memberLens).all fun m ↦ leI64 (pushedAt m.1 sl) = some (m.2 : Int)
  vSlot := best.bind (·.vSlot)
  feeModelTrial := best.map (·.feeModel)
  fixtureHash

/-! ## The report -/

/-- One element of the report's `families`. -/
structure BenchFamily where
  pushCount : Nat
  programLens : List Nat
  instances : Nat
  trades : Nat
  slots : Nat
  slotIndices : Option (List Nat)
  sampleCovenant : Option CovenantId
  sampleProgramHash : Bytes
  poolShaped : Bool
  replayTrial : Option ReplayTrial
  pinProposal : Option PinProposal
  note : String
deriving DecidableEq

/-- The fourth step of `run_bench`, for one family. -/
def benchFamily (blake2b : Bytes → Bytes) (recorded : CovenantId → List TokenTrade) (pushes : Nat)
    (members : List Specimen) : BenchFamily :=
  let memberUnits := members.map (pushUnits ·.program)
  let slots := familySlots pushes memberUnits
  let best := bestTrial recorded members slots
  let sample := (members.head?.map (·.program)).getD []
  { pushCount := pushes
    programLens := ((members.map (·.program.length)).insertionSort (· ≤ ·)).dedup
    instances := members.length
    trades := (members.map (·.trades)).sum
    slots := slots.length
    slotIndices := if slots.length ≤ 64 then some slots else none
    sampleCovenant := members.head?.map (·.covenantId)
    sampleProgramHash := blake2b sample
    poolShaped := sample.head? = some 0x6b
    replayTrial := best
    pinProposal :=
      if 2 ≤ members.length then
        some (proposePin pushes slots memberUnits (members.map (·.program.length)) best
          (blake2b sample))
      else none
    note :=
      if members.length < 2 then
        "single deployment: slots cannot be derived; only an exact-hash pin would cover it"
      else "byte-identical outside the slots; a fixture + these slots is a pinnable skeleton" }

/-- What `run_bench` returns. -/
structure BenchReport where
  unmatchedCovenants : Nat
  recovered : Nat
  unrecoverable : Nat
  families : List BenchFamily

/-- `run_bench`. -/
def runBench (blake2b : Bytes → Bytes) (reveals : CovenantId → List (Bytes × Bytes))
    (recorded : CovenantId → List TokenTrade) (unmatched : List CovenantId) : BenchReport :=
  let specimens := unmatched.filterMap (recoverSpecimen blake2b reveals recorded)
  { unmatchedCovenants := unmatched.length
    recovered := specimens.length
    unrecoverable := unmatched.length - specimens.length
    families := ((families blake2b specimens).map fun e ↦
      benchFamily blake2b recorded e.1.1 e.2).insertionSort fun a b ↦ b.trades ≤ a.trades }

/-! ## What a family is -/

section Families

variable {blake2b : Bytes → Bytes} {specimens : List Specimen} {e : (Nat × Bytes) × List Specimen}

theorem foldl_snoc {α : Type} (xs acc : List α) :
    xs.foldl (fun acc x ↦ acc ++ [x]) acc = acc ++ xs := by
  induction xs generalizing acc with
  | nil => rw [List.foldl_nil, List.append_nil]
  | cons x xs ih => rw [List.foldl_cons, ih, List.append_assoc, List.singleton_append]

/-- A family is the specimens of one key. -/
theorem mem_families :
    e ∈ families blake2b specimens ↔
      e.1 ∈ specimens.map (familyKey blake2b) ∧
        e.2 = specimens.filter (familyKey blake2b · = e.1) := by
  rw [families, List.mem_insertionSort, Entries.mem_updateAll, foldl_snoc, List.nil_append]

theorem familyKey_of_mem (he : e ∈ families blake2b specimens) {s : Specimen} (hs : s ∈ e.2) :
    familyKey blake2b s = e.1 := by
  rw [(mem_families.mp he).2, List.mem_filter] at hs
  exact of_decide_eq_true hs.2

/-- Every member has as many pushes as the family reports. -/
theorem pushes_of_mem (he : e ∈ families blake2b specimens) {s : Specimen} (hs : s ∈ e.2) :
    (pushUnits s.program).length = e.1.1 :=
  congrArg Prod.fst (familyKey_of_mem he hs)

/-- **The report lists the families, one entry for each.** -/
theorem runBench_families (reveals : CovenantId → List (Bytes × Bytes))
    (recorded : CovenantId → List TokenTrade) (unmatched : List CovenantId) (fam : BenchFamily) :
    fam ∈ (runBench blake2b reveals recorded unmatched).families ↔
      ∃ e ∈ families blake2b (unmatched.filterMap (recoverSpecimen blake2b reveals recorded)),
        benchFamily blake2b recorded e.1.1 e.2 = fam := by
  rw [runBench, List.mem_insertionSort, List.mem_map]

end Families

end Kascov
