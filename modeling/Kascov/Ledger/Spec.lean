import Mathlib.Data.List.Dedup
import Kascov.Lib.Past
import Kascov.Sync.Classify

/-!
# The abstract covenant ledger

What an index of the chain is for: the accepted transactions in order create
covenant-bound outputs (cells) and spend them, and each covenant a transaction
touches has one event.  Nothing here looks at a table of the store.
-/

namespace Kascov

/-- A transaction at its place among the accepted ones. -/
structure Accepted where
  block : BlockHash
  daa : Nat
  index : Nat
  tx : Transaction
deriving DecidableEq

/-- A covenant-bound output at the block that created it. -/
structure Cell where
  outpoint : Outpoint
  covenantId : CovenantId
  value : Nat
  spkVersion : Nat
  spkScript : Bytes
  createdBlock : BlockHash
  createdDaa : Nat
deriving DecidableEq

/-- What the ledger says of an event. -/
structure EventFact where
  covenantId : CovenantId
  kind : EventKind
  txid : TxId
  acceptingBlock : BlockHash
  acceptingDaa : Nat
  txIndex : Option Nat
deriving DecidableEq

namespace Accepted

/-- The cells a transaction creates. -/
def cells (a : Accepted) : List Cell :=
  a.tx.outputs.zipIdx.filterMap fun output ↦
    output.1.covenant.map fun binding ↦
      { outpoint := ⟨a.tx.txid, output.2⟩
        covenantId := binding.covenantId
        value := output.1.value
        spkVersion := output.1.spkVersion
        spkScript := output.1.spkScript
        createdBlock := a.block
        createdDaa := a.daa }

/-- The outpoints a transaction spends. -/
def inputs (a : Accepted) : List Outpoint :=
  a.tx.inputs.map (·.previousOutpoint)

end Accepted

/-- The cells a history created. -/
def cellsOf (past : List Accepted) : List Cell :=
  past.flatMap (·.cells)

/-- The outpoints a history spent. -/
def inputsOf (past : List Accepted) : List Outpoint :=
  past.flatMap (·.inputs)

/-- The cells created and not yet spent. -/
def liveCells (past : List Accepted) : List Cell :=
  (cellsOf past).filter (·.outpoint ∉ inputsOf past)

/-! ## What a transaction touches -/

/-- The transaction creates an output of the covenant. -/
def Creates (a : Accepted) (id : CovenantId) : Prop :=
  id ∈ a.cells.map (·.covenantId)

/-- The transaction spends a cell of the covenant. -/
def SpendsCell (past : List Accepted) (a : Accepted) (id : CovenantId) : Prop :=
  ∃ cell ∈ cellsOf past, cell.covenantId = id ∧ cell.outpoint ∈ a.inputs

/-- The covenant id recomputes from the authorising input, the same for all
outputs bound to it, and these outputs. -/
def Recomputes (compute : ComputeCovenantId) (tx : Transaction) (id : CovenantId) : Prop :=
  ∃ auth input, (∀ o ∈ boundOutputs tx id, o.2.2.authorizingInput = auth) ∧
    tx.inputs[auth]? = some input ∧
    compute input.previousOutpoint (boundFields tx id) = id

/-- An earlier transaction created an output of the covenant. -/
def SeenBefore (past : List Accepted) (id : CovenantId) : Prop :=
  id ∈ (cellsOf past).map (·.covenantId)

instance (a : Accepted) (id : CovenantId) : Decidable (Creates a id) :=
  inferInstanceAs (Decidable (_ ∈ _))

instance (past : List Accepted) (a : Accepted) (id : CovenantId) :
    Decidable (SpendsCell past a id) :=
  inferInstanceAs (Decidable (∃ cell ∈ cellsOf past, _))

instance (past : List Accepted) (id : CovenantId) : Decidable (SeenBefore past id) :=
  inferInstanceAs (Decidable (_ ∈ _))

theorem boundOutputs_ne_nil {a : Accepted} {id : CovenantId} :
    boundOutputs a.tx id ≠ [] ↔ Creates a id := by
  rw [Creates, List.mem_map]
  constructor
  · intro hne
    obtain ⟨bound, hbound⟩ := List.exists_mem_of_ne_nil _ hne
    obtain ⟨output, houtput, hbound⟩ := List.mem_filterMap.mp hbound
    obtain ⟨binding, hbinding, hbound⟩ := Option.bind_eq_some_iff.mp hbound
    by_cases hid : binding.covenantId = id
    · exact ⟨_, List.mem_filterMap.mpr ⟨output, houtput, by rw [hbinding]; rfl⟩, hid⟩
    · rw [if_neg hid] at hbound
      cases hbound
  · rintro ⟨cell, hcell, rfl⟩
    obtain ⟨output, houtput, hcell⟩ := List.mem_filterMap.mp hcell
    obtain ⟨binding, hbinding, rfl⟩ := Option.map_eq_some_iff.mp hcell
    have hbound : (output.2, output.1, binding) ∈ boundOutputs a.tx binding.covenantId := by
      refine List.mem_filterMap.mpr ⟨output, houtput, ?_⟩
      rw [hbinding]
      exact if_pos rfl
    exact List.ne_nil_of_mem hbound

/-- The check of the code is the proof of genesis. -/
theorem isValidGenesis_iff {compute : ComputeCovenantId} {a : Accepted} {id : CovenantId} :
    isValidGenesis compute a.tx id = true ↔ Creates a id ∧ Recomputes compute a.tx id := by
  rw [← boundOutputs_ne_nil, isValidGenesis, Recomputes]
  cases hbound : boundOutputs a.tx id with
  | nil => simp
  | cons first rest =>
      show (if _ then _ else _) = true ↔ _
      by_cases hany : (first :: rest).any
          (fun o ↦ decide (o.2.2.authorizingInput ≠ first.2.2.authorizingInput)) = true
      · rw [if_pos hany]
        obtain ⟨o, ho, hne⟩ := List.any_eq_true.mp hany
        refine ⟨fun h ↦ (Bool.false_ne_true h).elim, ?_⟩
        rintro ⟨-, auth, input, hall, -⟩
        have heq : o.2.2.authorizingInput = first.2.2.authorizingInput :=
          (hall o ho).trans (hall first List.mem_cons_self).symm
        exact absurd heq (of_decide_eq_true hne)
      · rw [if_neg hany]
        have hall : ∀ o ∈ first :: rest,
            o.2.2.authorizingInput = first.2.2.authorizingInput := by
          intro o ho
          by_contra hne
          exact hany (List.any_eq_true.mpr ⟨o, ho, decide_eq_true hne⟩)
        constructor
        · intro h
          cases hinput : a.tx.inputs[first.2.2.authorizingInput]? with
          | none =>
              rw [hinput] at h
              cases h
          | some input =>
              rw [hinput] at h
              exact ⟨List.cons_ne_nil _ _, _, input, hall, hinput, of_decide_eq_true h⟩
        · rintro ⟨-, auth, input, hauth, hinput, hcompute⟩
          rw [hauth first List.mem_cons_self, hinput]
          exact decide_eq_true hcompute

instance (compute : ComputeCovenantId) (a : Accepted) (id : CovenantId) :
    Decidable (Creates a id ∧ Recomputes compute a.tx id) :=
  decidable_of_iff _ isValidGenesis_iff

/-! ## Events -/

/-- The kind of a transaction's event of a covenant it touches, when the covenant
counts as seen before or not. -/
def kindWhen (compute : ComputeCovenantId) (past : List Accepted) (a : Accepted)
    (id : CovenantId) (seen : Bool) : EventKind :=
  if SpendsCell past a id then
    if Creates a id then .transition else .burn
  else if seen = false ∧ Creates a id ∧ Recomputes compute a.tx id then
    .genesis
  else
    .transition

/-- The kind of a transaction's event of a covenant it touches. -/
def ledgerKind (compute : ComputeCovenantId) (past : List Accepted) (a : Accepted)
    (id : CovenantId) : EventKind :=
  kindWhen compute past a id (SeenBefore past id)

/-- The cell of the history an outpoint names. -/
def cellAt (past : List Accepted) (o : Outpoint) : Option CovenantId :=
  ((cellsOf past).find? (·.outpoint = o)).map (·.covenantId)

/-- The covenants a transaction touches, in the order of their ids. -/
def touchedIds (past : List Accepted) (a : Accepted) : List CovenantId :=
  (a.inputs.filterMap (cellAt past) ++ a.cells.map (·.covenantId)).dedup.insertionSort (· ≤ ·)

/-- The events of a transaction. -/
def txEvents (compute : ComputeCovenantId) (past : List Accepted) (a : Accepted) :
    List EventFact :=
  (touchedIds past a).map fun id ↦
    { covenantId := id
      kind := ledgerKind compute past a id
      txid := a.tx.txid
      acceptingBlock := a.block
      acceptingDaa := a.daa
      txIndex := some a.index }

/-- The events of a history. -/
def ledgerEvents (compute : ComputeCovenantId) (history : List Accepted) : List EventFact :=
  Past.flatMap (txEvents compute) [] history

/-! ## Histories consensus allows -/

/-- Transaction ids are unique, an outpoint is spent once, and a transaction
spends outputs that exist: neither its own nor those of a later transaction. -/
structure ValidHistory (history : List Accepted) : Prop where
  txids : (history.map (·.tx.txid)).Nodup
  spentOnce : (inputsOf history).Nodup
  notOwn : ∀ a ∈ history, ∀ o ∈ a.inputs, o.txid ≠ a.tx.txid
  notLater : history.Pairwise fun a b ↦ ∀ o ∈ a.inputs, o.txid ≠ b.tx.txid

instance (history : List Accepted) : Decidable (ValidHistory history) :=
  decidable_of_iff
    ((history.map (·.tx.txid)).Nodup ∧ (inputsOf history).Nodup ∧
      (∀ a ∈ history, ∀ o ∈ a.inputs, o.txid ≠ a.tx.txid) ∧
      history.Pairwise fun a b ↦ ∀ o ∈ a.inputs, o.txid ≠ b.tx.txid)
    ⟨fun ⟨a, b, c, d⟩ ↦ ⟨a, b, c, d⟩, fun ⟨a, b, c, d⟩ ↦ ⟨a, b, c, d⟩⟩

end Kascov
