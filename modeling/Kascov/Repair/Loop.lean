import Mathlib.Data.List.Forall2
import Kascov.Store.RepairEffect

/-!
# What one repair call does

A repair call works on a batch: the first envelopes, in the order of their DAA,
that still have an unrepaired failure.  For each it decodes the stored transaction
again, inserts the outputs it may insert, marks the failures these settle, and sets
the envelope's status.  `RepairEffect` says what is left of the tables in terms of
the store the call found.
-/

namespace Kascov

open Fallible

/-! ## The queue and the decoder's answers -/

/-- The candidate query without its `LIMIT`. -/
def repairQueue (s : Store) : List (TxId × Transaction) :=
  ((s.applicationEnvelopes.filter fun envelope =>
      s.applicationDecodeFailures.any fun failure =>
        failure.txid = envelope.txid && failure.unrepaired).insertionSort
      fun a b => [(a.acceptingDaa : Nat), a.txid.bytes.toNat] ≤
        [b.acceptingDaa, b.txid.bytes.toNat]).filterMap fun envelope =>
      envelope.transactionJson.map fun transaction => (envelope.txid, transaction)

/-- The failure's transaction, when an envelope keeps it. -/
def Queued (s : Store) (candidate : TxId × Transaction) : Prop :=
  ∃ envelope ∈ s.applicationEnvelopes, envelope.txid = candidate.1 ∧
    envelope.transactionJson = some candidate.2 ∧
    ∃ row ∈ s.applicationDecodeFailures, row.txid = candidate.1 ∧ row.unrepaired = true

theorem mem_repairQueue {s : Store} {candidate : TxId × Transaction} :
    candidate ∈ repairQueue s ↔ Queued s candidate := by
  simp only [repairQueue, List.mem_filterMap, List.mem_insertionSort, List.mem_filter,
    List.any_eq_true, Bool.and_eq_true, decide_eq_true_eq, Option.map_eq_some_iff]
  constructor
  · rintro ⟨envelope, ⟨henv, row, hrow, htxid, hopen⟩, transaction, hjson, rfl⟩
    exact ⟨envelope, henv, rfl, hjson, row, hrow, htxid, hopen⟩
  · rintro ⟨envelope, henv, htxid, hjson, row, hrow, hrowtx, hopen⟩
    refine ⟨envelope, ⟨henv, row, hrow, hrowtx.trans htxid.symm, hopen⟩, candidate.2, hjson, ?_⟩
    rw [htxid]

theorem repairCandidates_eq (s : Store) (limit : Nat) :
    repairCandidates s limit = (repairQueue s).take (clamp limit 1 10000) := rfl

/-- Each envelope is queued once. -/
theorem repairCandidates_nodup {s : Store} (limit : Nat)
    (h : (s.applicationEnvelopes.map (·.txid)).Nodup) :
    ((repairCandidates s limit).map (·.1)).Nodup := by
  rw [repairCandidates_eq, List.map_take]
  refine List.Nodup.sublist (List.take_sublist _ _) ?_
  have hkey : ∀ (envelope : EnvelopeRow) (candidate : TxId × Transaction),
      envelope.transactionJson.map (fun transaction => (envelope.txid, transaction)) =
        some candidate → candidate.1 = envelope.txid := by
    intro envelope candidate h
    obtain ⟨transaction, -, rfl⟩ := Option.map_eq_some_iff.mp h
    rfl
  refine List.Nodup.sublist (Rows.filterMap_map_sublist hkey _) ?_
  rw [((List.perm_insertionSort _ _).map _).nodup_iff]
  exact h.sublist (List.filter_sublist.map _)

/-- The decoder decodes a failure: it gives an output at the failure's index, or
finds no failure in the transaction at all. -/
def Decodes (application : ApplicationPreprocess) (row : DecodeFailureRow) : Prop :=
  application.failures = [] ∨
    ∃ output ∈ application.outputs, row.failure.outputIndex = some output.outputIndex

instance (application : ApplicationPreprocess) (row : DecodeFailureRow) :
    Decidable (Decodes application row) :=
  inferInstanceAs (Decidable (_ ∨ _))

/-- A decoded output that repair may insert: bound in its transaction, agreeing with
the stored cell, reported under a stored event, and not projected yet. -/
def Insertable (s : Store) (transaction : Transaction) (output : ApplicationOutput) : Prop :=
  repairTarget s transaction output ≠ none ∧
    ∀ row ∈ s.applicationOutputs, row.outpoint ≠ ⟨transaction.txid, output.outputIndex⟩

instance (s : Store) (transaction : Transaction) (output : ApplicationOutput) :
    Decidable (Insertable s transaction output) :=
  inferInstanceAs (Decidable (_ ∧ _))

/-- A failure that the repair of its transaction settles. -/
def Settles (s : Store) (transaction : Transaction) (application : ApplicationPreprocess)
    (row : DecodeFailureRow) : Prop :=
  ∃ output ∈ application.outputs, Insertable s transaction output ∧
    (application.failures = [] ∨ row.failure.outputIndex = some output.outputIndex)

instance (s : Store) (transaction : Transaction) (application : ApplicationPreprocess)
    (row : DecodeFailureRow) : Decidable (Settles s transaction application row) :=
  inferInstanceAs (Decidable (∃ output ∈ application.outputs, _))

theorem Settles.decodes {s : Store} {transaction : Transaction}
    {application : ApplicationPreprocess} {row : DecodeFailureRow}
    (h : Settles s transaction application row) : Decodes application row := by
  obtain ⟨output, houtput, -, hempty | hindex⟩ := h
  · exact .inl hempty
  · exact .inr ⟨output, houtput, hindex⟩

/-! ## One output -/

/-- A repair either passes an output over, or inserts one it may insert. -/
theorem repairOutput_cases {transaction : Transaction} {r r' : RepairState}
    {output : ApplicationOutput} (h : repairOutput transaction r output = .ok r') :
    (r' = r ∧ ¬Insertable r.store transaction output) ∨ ∃ stored event,
      repairTarget r.store transaction output = some (stored, event) ∧
      Insertable r.store transaction output ∧
      r'.store = repairedOutput r.store r.next transaction.txid output stored event ∧
      r'.repairedSequences = r.repairedSequences ++ [r.next] ∧
      r'.result.outputsRepaired = r.result.outputsRepaired + 1 ∧
      r'.result.deliveriesAppended = r.result.deliveriesAppended + 1 := by
  unfold repairOutput at h
  cases htarget : repairTarget r.store transaction output with
  | none =>
      simp only [htarget] at h
      exact .inl ⟨(Except.ok.inj h).symm, fun hins ↦ hins.1 htarget⟩
  | some target =>
      obtain ⟨stored, event⟩ := target
      simp only [htarget] at h
      split at h
      · rename_i hany
        obtain ⟨row, hrow, heq⟩ := List.any_eq_true.mp hany
        exact .inl ⟨(Except.ok.inj h).symm, fun hins ↦ hins.2 row hrow (of_decide_eq_true heq)⟩
      · rename_i hany
        obtain ⟨s₁, h₁, h⟩ := bind_eq_ok.mp h
        obtain ⟨n, hn, h⟩ := bind_eq_ok.mp h
        rw [pure_eq_ok] at h
        subst h
        refine .inr ⟨stored, event, rfl, ⟨by simp [htarget], ?_⟩, ?_, rfl, rfl, rfl⟩
        · intro row hrow heq
          exact hany (List.any_eq_true.mpr ⟨row, hrow, decide_eq_true heq⟩)
        · rw [insertDelivery_ok h₁]
          rfl

/-- What a repaired output is inserted as lies in no outpoint but its own. -/
@[simp] theorem repairedRow_outpoint (txid : TxId) (output : ApplicationOutput)
    (stored : UtxoRow) :
    (repairedRow txid output stored).outpoint = ⟨txid, output.outputIndex⟩ := rfl

/-! ## Failures across a repair -/

/-- A failure row across a repair: left as it is, or marked for a reason. -/
def Marks (reason : DecodeFailureRow → Prop) (row row' : DecodeFailureRow) : Prop :=
  row' = row ∨ row.unrepaired = true ∧ reason row ∧
    ∃ seq, row' = { row with repairedStreamSeq := some seq }

theorem Marks.txid {reason : DecodeFailureRow → Prop} {row row' : DecodeFailureRow}
    (h : Marks reason row row') : row'.txid = row.txid := by
  obtain rfl | ⟨-, -, seq, rfl⟩ := h
  · rfl
  · rfl

theorem Marks.eq_of_unrepaired {reason : DecodeFailureRow → Prop} {row row' : DecodeFailureRow}
    (h : Marks reason row row') (hopen : row'.unrepaired = true) : row' = row := by
  obtain rfl | ⟨-, -, seq, rfl⟩ := h
  · rfl
  · cases hopen

/-- An `UPDATE` of marks, over a table that is itself the outcome of marks. -/
theorem forall₂_markRepaired {reason : DecodeFailureRow → Prop} {seq : Nat}
    {select : DecodeFailureRow → Bool} {base rows : List DecodeFailureRow}
    (h : List.Forall₂ (Marks reason) base rows)
    (hreason : ∀ row, row.unrepaired = true → select row = true → reason row) :
    List.Forall₂ (Marks reason) base (markRepaired seq select rows) := by
  unfold markRepaired
  rw [List.forall₂_map_right_iff]
  refine h.imp fun row row' hmarks ↦ ?_
  split
  · rename_i hselect
    rw [Bool.and_eq_true] at hselect
    obtain rfl := hmarks.eq_of_unrepaired hselect.2
    exact .inr ⟨hselect.2, hreason row' hselect.2 hselect.1, seq, rfl⟩
  · exact hmarks

/-- What is unrepaired afterwards was there and unrepaired before. -/
theorem mem_of_forall₂_marks {reason : DecodeFailureRow → Prop}
    {rows rows' : List DecodeFailureRow} (h : List.Forall₂ (Marks reason) rows rows')
    {row : DecodeFailureRow} (hrow : row ∈ rows') (hopen : row.unrepaired = true) :
    row ∈ rows := by
  induction h with
  | nil => cases hrow
  | cons hmarks _ ih =>
      rcases List.mem_cons.mp hrow with rfl | hrow
      · rw [hmarks.eq_of_unrepaired hopen]
        exact List.mem_cons_self
      · exact List.mem_cons_of_mem _ (ih hrow)

/-- A failure no reason applies to stays. -/
theorem mem_of_not_reason {reason : DecodeFailureRow → Prop}
    {rows rows' : List DecodeFailureRow} (h : List.Forall₂ (Marks reason) rows rows')
    {row : DecodeFailureRow} (hrow : row ∈ rows) (hreason : ¬reason row) : row ∈ rows' := by
  induction h with
  | nil => cases hrow
  | cons hmarks _ ih =>
      rcases List.mem_cons.mp hrow with rfl | hrow
      · obtain rfl | ⟨-, hyes, -⟩ := hmarks
        · exact List.mem_cons_self
        · exact absurd hyes hreason
      · exact List.mem_cons_of_mem _ (ih hrow)

theorem not_unrepaired_of_marked {seq : Nat} {select : DecodeFailureRow → Bool}
    {rows : List DecodeFailureRow} {row : DecodeFailureRow}
    (hrow : row ∈ markRepaired seq select rows) (hselect : select row = true) :
    row.unrepaired = false := by
  obtain ⟨old, -, rfl⟩ := List.mem_map.mp hrow
  by_cases hold : (select old && old.unrepaired) = true
  · rw [if_pos hold]
    rfl
  · rw [if_neg hold] at hselect ⊢
    simpa [hselect] using hold

/-! ## One transaction -/

variable {s : Store} {decoded : List (Transaction × ApplicationPreprocess)}

/-- A row that a repair inserted: an output of a decoding of the batch. -/
def InsertedBy (s : Store) (decoded : List (Transaction × ApplicationPreprocess))
    (row : ApplicationOutputRow) : Prop :=
  ∃ d ∈ decoded, ∃ output ∈ d.2.outputs, Insertable s d.1 output ∧
    ∃ stored event, repairTarget s d.1 output = some (stored, event) ∧
      row = repairedRow d.1.txid output stored

/-- A failure that the repair of a transaction of the batch settles. -/
def SettledBy (s : Store) (decoded : List (Transaction × ApplicationPreprocess))
    (row : DecodeFailureRow) : Prop :=
  ∃ d ∈ decoded, row.txid = d.1.txid ∧ Settles s d.1 d.2 row

/-- The repair loops against the store they started from. -/
structure LoopInvariant (s : Store) (decoded : List (Transaction × ApplicationPreprocess))
    (r : RepairState) : Prop where
  cells : r.store.covenantUtxos = s.covenantUtxos
  events : r.store.covenantEvents = s.covenantEvents
  outputs : ∃ new, r.store.applicationOutputs = s.applicationOutputs ++ new ∧
    (new.map (·.outpoint)).Nodup ∧ (∀ row ∈ new, InsertedBy s decoded row) ∧
    r.result.outputsRepaired = new.length ∧ r.result.deliveriesAppended = new.length
  failures : List.Forall₂ (Marks (SettledBy s decoded)) s.applicationDecodeFailures
    r.store.applicationDecodeFailures

theorem LoopInvariant.start (s : Store) (decoded : List (Transaction × ApplicationPreprocess))
    {r : RepairState} (hstore : r.store = s) (houtputs : r.result.outputsRepaired = 0)
    (hdeliveries : r.result.deliveriesAppended = 0) : LoopInvariant s decoded r where
  cells := by rw [hstore]
  events := by rw [hstore]
  outputs := ⟨[], by rw [hstore, List.append_nil], List.nodup_nil,
    fun _ h ↦ absurd h List.not_mem_nil, houtputs, hdeliveries⟩
  failures := by
    rw [hstore]
    exact List.forall₂_same.mpr fun row _ ↦ .inl rfl

variable {r r' : RepairState} {d : Transaction × ApplicationPreprocess}

theorem LoopInvariant.repairTarget_eq (h : LoopInvariant s decoded r) (transaction : Transaction)
    (output : ApplicationOutput) :
    repairTarget r.store transaction output = repairTarget s transaction output := by
  unfold repairTarget repairEvent
  rw [h.cells, h.events]

/-- What may be inserted half way could be inserted at the start. -/
theorem LoopInvariant.insertable (h : LoopInvariant s decoded r) {transaction : Transaction}
    {output : ApplicationOutput} (hins : Insertable r.store transaction output) :
    Insertable s transaction output := by
  obtain ⟨new, hnew, -⟩ := h.outputs
  refine ⟨h.repairTarget_eq transaction output ▸ hins.1, fun row hrow ↦ hins.2 row ?_⟩
  rw [hnew]
  exact List.mem_append_left _ hrow

theorem LoopInvariant.repairOutput {output : ApplicationOutput} (h : LoopInvariant s decoded r)
    (hd : d ∈ decoded) (houtput : output ∈ d.2.outputs)
    (hok : Kascov.repairOutput d.1 r output = .ok r') : LoopInvariant s decoded r' := by
  rcases repairOutput_cases hok with
    ⟨rfl, -⟩ | ⟨stored, event, htarget, hins, hstore, -, hrepaired, happended⟩
  · exact h
  · have hstart := h.insertable hins
    obtain ⟨new, hnew, hnodup, hinserted, hn, hm⟩ := h.outputs
    refine ⟨by rw [hstore]; exact h.cells, by rw [hstore]; exact h.events,
      ⟨new ++ [repairedRow d.1.txid output stored], ?_, ?_, ?_, ?_, ?_⟩, ?_⟩
    · rw [hstore, ← List.append_assoc, ← hnew]
      rfl
    · rw [List.map_append, List.nodup_append]
      refine ⟨hnodup, by simp, ?_⟩
      intro a ha b hb
      obtain ⟨row, hrow, rfl⟩ := List.mem_map.mp ha
      obtain rfl := List.mem_singleton.mp hb
      refine hins.2 row ?_
      rw [hnew]
      exact List.mem_append_right _ hrow
    · intro row hrow
      rcases List.mem_append.mp hrow with hrow | hrow
      · exact hinserted row hrow
      · obtain rfl := List.mem_singleton.mp hrow
        exact ⟨d, hd, output, houtput, hstart, stored, event,
          h.repairTarget_eq d.1 output ▸ htarget, rfl⟩
    · rw [hrepaired, hn, List.length_append, List.length_singleton]
    · rw [happended, hm, List.length_append, List.length_singleton]
    · rw [hstore]
      refine forall₂_markRepaired h.failures fun row _ hselect ↦ ?_
      rw [Bool.and_eq_true, decide_eq_true_eq, decide_eq_true_eq] at hselect
      exact ⟨d, hd, hselect.1, output, houtput, hstart, .inr hselect.2⟩

/-- The status an envelope gets when its transaction is repaired. -/
def setStatus (d : Transaction × ApplicationPreprocess) (envelope : EnvelopeRow) : EnvelopeRow :=
  if envelope.txid = d.1.txid then
    { envelope with status := envelopeStatus d.2 }
  else
    envelope

theorem finishRepair_envelopes (d : Transaction × ApplicationPreprocess) (r : RepairState) :
    (finishRepair d.1 d.2 r).store.applicationEnvelopes =
      r.store.applicationEnvelopes.map (setStatus d) := by
  unfold finishRepair
  simp only
  split
  · rfl
  · rfl

theorem finishRepair_result (d : Transaction × ApplicationPreprocess) (r : RepairState) :
    (finishRepair d.1 d.2 r).result.outputsRepaired = r.result.outputsRepaired ∧
      (finishRepair d.1 d.2 r).result.deliveriesAppended = r.result.deliveriesAppended := by
  unfold finishRepair
  simp only
  split
  · exact ⟨rfl, rfl⟩
  · exact ⟨rfl, rfl⟩

/-- The close of a transaction marks all its failures when the decoding found none and
an output was repaired, and marks nothing otherwise. -/
theorem finishRepair_failures (d : Transaction × ApplicationPreprocess) (r : RepairState) :
    (d.2.failures = [] ∧ (∃ seq rest, r.repairedSequences = seq :: rest ∧
      (finishRepair d.1 d.2 r).store.applicationDecodeFailures =
        markRepaired seq (fun row ↦ row.txid = d.1.txid) r.store.applicationDecodeFailures)) ∨
    ((d.2.failures ≠ [] ∨ r.repairedSequences = []) ∧
      (finishRepair d.1 d.2 r).store.applicationDecodeFailures =
        r.store.applicationDecodeFailures) := by
  unfold finishRepair
  cases hfailures : d.2.failures with
  | nil =>
      cases hseqs : r.repairedSequences with
      | nil => exact .inr ⟨.inr rfl, rfl⟩
      | cons seq rest => exact .inl ⟨rfl, seq, rest, rfl, rfl⟩
  | cons failure rest => exact .inr ⟨.inl (List.cons_ne_nil _ _), rfl⟩

/-- The outputs of one transaction, against the state its turn started in. -/
structure TurnInvariant (s : Store) (start : RepairState) (d : Transaction × ApplicationPreprocess)
    (rest : List ApplicationOutput) (r : RepairState) : Prop where
  envelopes : r.store.applicationEnvelopes = start.store.applicationEnvelopes
  grown : ∃ new, r.store.applicationOutputs = start.store.applicationOutputs ++ new ∧
    new.length = r.repairedSequences.length ∧ ∀ row ∈ new, row.txid = d.1.txid
  present : ∀ output ∈ d.2.outputs, output ∈ rest ∨
    (repairTarget r.store d.1 output ≠ none →
      ∃ row ∈ r.store.applicationOutputs, row.outpoint = ⟨d.1.txid, output.outputIndex⟩)
  reason : r.repairedSequences ≠ [] → ∃ output ∈ d.2.outputs, Insertable s d.1 output

theorem TurnInvariant.repairOutput {start : RepairState} {output : ApplicationOutput}
    {rest : List ApplicationOutput} (h : TurnInvariant s start d (output :: rest) r)
    (hloop : LoopInvariant s decoded r) (houtput : output ∈ d.2.outputs)
    (hok : Kascov.repairOutput d.1 r output = .ok r') : TurnInvariant s start d rest r' := by
  rcases repairOutput_cases hok with
    ⟨rfl, hpass⟩ | ⟨stored, event, -, hins, hstore, hseqs, -, -⟩
  · refine ⟨h.envelopes, h.grown, fun o ho ↦ ?_, h.reason⟩
    rcases h.present o ho with hrest | hpresent
    · rcases List.mem_cons.mp hrest with rfl | hrest
      · refine .inr fun htarget ↦ ?_
        by_contra hnone
        push Not at hnone
        exact hpass ⟨htarget, hnone⟩
      · exact .inl hrest
    · exact .inr hpresent
  · obtain ⟨new, hnew, hlen, htxid⟩ := h.grown
    refine ⟨by rw [hstore]; exact h.envelopes,
      ⟨new ++ [repairedRow d.1.txid output stored], ?_, ?_, ?_⟩, fun o ho ↦ ?_, fun _ ↦ ?_⟩
    · rw [hstore, ← List.append_assoc, ← hnew]
      rfl
    · rw [hseqs, List.length_append, List.length_append, hlen]
      rfl
    · intro row hrow
      rcases List.mem_append.mp hrow with hrow | hrow
      · exact htxid row hrow
      · rw [List.mem_singleton.mp hrow]
        rfl
    · have hkeep : ∀ row ∈ r.store.applicationOutputs, row ∈ r'.store.applicationOutputs := by
        intro row hrow
        rw [hstore]
        exact List.mem_append_left _ hrow
      have hhere : repairedRow d.1.txid output stored ∈ r'.store.applicationOutputs := by
        rw [hstore]
        exact List.mem_append_right _ List.mem_cons_self
      have hsame : repairTarget r'.store d.1 o = repairTarget r.store d.1 o := by
        rw [hstore]
        rfl
      rcases h.present o ho with hrest | hpresent
      · rcases List.mem_cons.mp hrest with rfl | hrest
        · exact .inr fun _ ↦ ⟨_, hhere, rfl⟩
        · exact .inl hrest
      · refine .inr fun htarget ↦ ?_
        obtain ⟨row, hrow, heq⟩ := hpresent (hsame ▸ htarget)
        exact ⟨row, hkeep row hrow, heq⟩
    · exact ⟨output, houtput, hloop.insertable hins⟩

/-- **The repair of one transaction**, in a batch that had not come to its outputs yet. -/
theorem repairTransaction_effect {start r' : RepairState} (hloop : LoopInvariant s decoded start)
    (hd : d ∈ decoded)
    (huntouched : ∀ row ∈ start.store.applicationOutputs, row.txid = d.1.txid →
      row ∈ s.applicationOutputs)
    (hok : repairTransaction start d = .ok r') :
    LoopInvariant s decoded r' ∧
    r'.store.applicationEnvelopes = start.store.applicationEnvelopes.map (setStatus d) ∧
    (∃ new, r'.store.applicationOutputs = start.store.applicationOutputs ++ new ∧
      ∀ row ∈ new, row.txid = d.1.txid) ∧
    (∀ output ∈ d.2.outputs, Insertable s d.1 output →
      ∃ row ∈ r'.store.applicationOutputs, row.outpoint = ⟨d.1.txid, output.outputIndex⟩) ∧
    (d.2.failures = [] → (∃ output ∈ d.2.outputs, Insertable s d.1 output) →
      ∀ row ∈ r'.store.applicationDecodeFailures, row.txid = d.1.txid →
        row.unrepaired = false) := by
  unfold repairTransaction at hok
  obtain ⟨r, hfold, hok⟩ := bind_eq_ok.mp hok
  rw [pure_eq_ok] at hok
  subst hok
  obtain ⟨hr, hturn, -⟩ : LoopInvariant s decoded r ∧ TurnInvariant s start d [] r ∧
      ∀ output ∈ ([] : List ApplicationOutput), output ∈ d.2.outputs := by
    refine foldlM_invariant_rest (fun rest r ↦ LoopInvariant s decoded r ∧
      TurnInvariant s start d rest r ∧ ∀ output ∈ rest, output ∈ d.2.outputs) ?_ ?_ hfold
    · rintro output rest r r' ⟨hr, hturn, hrest⟩ hstep
      have houtput := hrest output List.mem_cons_self
      exact ⟨hr.repairOutput hd houtput hstep, hturn.repairOutput hr houtput hstep,
        fun o ho ↦ hrest o (List.mem_cons_of_mem _ ho)⟩
    · exact ⟨⟨hloop.cells, hloop.events, hloop.outputs, hloop.failures⟩,
        ⟨rfl, ⟨[], (List.append_nil _).symm, rfl, fun _ h ↦ absurd h List.not_mem_nil⟩,
          fun o ho ↦ .inl ho, fun h ↦ absurd rfl h⟩, fun o ho ↦ ho⟩
  obtain ⟨failures, envelopes, -, hframe⟩ := finishRepair_frame d.1 d.2 r
  have hcells : (finishRepair d.1 d.2 r).store.covenantUtxos = r.store.covenantUtxos := by
    rw [hframe]
  have hevents : (finishRepair d.1 d.2 r).store.covenantEvents = r.store.covenantEvents := by
    rw [hframe]
  have houtputs : (finishRepair d.1 d.2 r).store.applicationOutputs =
      r.store.applicationOutputs := by
    rw [hframe]
  obtain ⟨new, hnew, hlen, htxid⟩ := hturn.grown
  have hpresent : ∀ output ∈ d.2.outputs, Insertable s d.1 output →
      ∃ row ∈ r.store.applicationOutputs, row.outpoint = ⟨d.1.txid, output.outputIndex⟩ := by
    intro output ho hins
    rcases hturn.present output ho with hnil | hpresent
    · cases hnil
    · exact hpresent (hr.repairTarget_eq d.1 output ▸ hins.1)
  -- An output inserted in this turn leaves a sequence to mark the failures with.
  have hseqs : (∃ output ∈ d.2.outputs, Insertable s d.1 output) → r.repairedSequences ≠ [] := by
    rintro ⟨output, ho, hins⟩ hnil
    rw [hnil, List.length_nil, List.length_eq_zero_iff] at hlen
    obtain ⟨row, hrow, heq⟩ := hpresent output ho hins
    rw [hnew, hlen, List.append_nil] at hrow
    exact hins.2 row (huntouched row hrow (congrArg Outpoint.txid heq)) heq
  refine ⟨⟨hcells.trans hr.cells, hevents.trans hr.events, ?_, ?_⟩, ?_, ?_, ?_, ?_⟩
  · rw [houtputs, (finishRepair_result d r).1, (finishRepair_result d r).2]
    exact hr.outputs
  · rcases finishRepair_failures d r with ⟨hempty, seq, rest, hseq, heq⟩ | ⟨-, heq⟩
    · rw [heq]
      refine forall₂_markRepaired hr.failures fun row _ hselect ↦ ?_
      obtain ⟨output, ho, hins⟩ := hturn.reason (by rw [hseq]; exact List.cons_ne_nil _ _)
      exact ⟨d, hd, of_decide_eq_true hselect, output, ho, hins, .inl hempty⟩
    · rw [heq]
      exact hr.failures
  · rw [finishRepair_envelopes, hturn.envelopes]
  · rw [houtputs]
    exact ⟨new, hnew, htxid⟩
  · rw [houtputs]
    exact hpresent
  · intro hempty hins row hrow hrowtx
    rcases finishRepair_failures d r with ⟨-, seq, rest, hseq, heq⟩ | ⟨hne | hnil, -⟩
    · rw [heq] at hrow
      exact not_unrepaired_of_marked hrow (decide_eq_true hrowtx)
    · exact absurd hempty hne
    · exact absurd hnil (hseqs hins)

/-! ## The batch -/

/-- What the repair of a transaction leaves for good. -/
structure Repaired (s : Store) (d : Transaction × ApplicationPreprocess) (s' : Store) : Prop where
  present : ∀ output ∈ d.2.outputs, Insertable s d.1 output →
    ∃ row ∈ s'.applicationOutputs, row.outpoint = ⟨d.1.txid, output.outputIndex⟩
  cleared : d.2.failures = [] → (∃ output ∈ d.2.outputs, Insertable s d.1 output) →
    ∀ row ∈ s'.applicationDecodeFailures, row.txid = d.1.txid → row.unrepaired = false

/-- The batch half way: `done` is repaired, `rest` is not come to. -/
structure BatchInvariant (s : Store) (decoded rest : List (Transaction × ApplicationPreprocess))
    (r : RepairState) : Prop where
  loop : LoopInvariant s decoded r
  distinct : (rest.map (·.1.txid)).Nodup
  untouched : ∀ d ∈ rest, ∀ row ∈ r.store.applicationOutputs, row.txid = d.1.txid →
    row ∈ s.applicationOutputs
  split : ∃ done, done ++ rest = decoded ∧ (∀ d ∈ done, Repaired s d r.store) ∧
    r.store.applicationEnvelopes = s.applicationEnvelopes.map fun envelope ↦
      done.foldl (fun envelope d ↦ setStatus d envelope) envelope

/-- A failure that stays unrepaired through a turn was unrepaired before it. -/
theorem repairTransaction_unrepaired (hok : repairTransaction r d = .ok r')
    {row : DecodeFailureRow} (hrow : row ∈ r'.store.applicationDecodeFailures)
    (hopen : row.unrepaired = true) : row ∈ r.store.applicationDecodeFailures := by
  unfold repairTransaction at hok
  obtain ⟨r₁, hfold, hok⟩ := bind_eq_ok.mp hok
  rw [pure_eq_ok] at hok
  subst hok
  have hmarks : ∀ rows : List DecodeFailureRow,
      List.Forall₂ (Marks fun _ ↦ True) rows rows := fun rows ↦
    List.forall₂_same.mpr fun row _ ↦ .inl rfl
  have hmid : row ∈ r₁.store.applicationDecodeFailures := by
    rcases finishRepair_failures d r₁ with ⟨-, seq, rest, -, heq⟩ | ⟨-, heq⟩
    · rw [heq] at hrow
      exact mem_of_forall₂_marks
        (forall₂_markRepaired (hmarks _) fun _ _ _ ↦ trivial) hrow hopen
    · rwa [heq] at hrow
  revert hmid
  have hstart : (fun a : RepairState ↦ row ∈ a.store.applicationDecodeFailures →
      row ∈ r.store.applicationDecodeFailures) { r with repairedSequences := [] } := id
  refine foldlM_invariant (fun a : RepairState ↦ row ∈ a.store.applicationDecodeFailures →
    row ∈ r.store.applicationDecodeFailures) ?_ hstart hfold
  intro a output b _ ha hb hmem
  rcases repairOutput_cases hb with ⟨rfl, -⟩ | ⟨stored, event, -, -, hstore, -⟩
  · exact ha hmem
  · rw [hstore] at hmem
    exact ha (mem_of_forall₂_marks
      (forall₂_markRepaired (hmarks _) fun _ _ _ ↦ trivial) hmem hopen)

theorem BatchInvariant.step {rest : List (Transaction × ApplicationPreprocess)}
    (h : BatchInvariant s decoded (d :: rest) r) (hok : repairTransaction r d = .ok r') :
    BatchInvariant s decoded rest r' := by
  obtain ⟨done, hsplit, hdone, henvelopes⟩ := h.split
  have hd : d ∈ decoded := by
    rw [← hsplit]
    exact List.mem_append_right _ List.mem_cons_self
  have hdistinct := List.nodup_cons.mp h.distinct
  obtain ⟨hloop, henv, ⟨new, hnew, htxid⟩, hpresent, hcleared⟩ :=
    repairTransaction_effect h.loop hd (h.untouched d List.mem_cons_self) hok
  refine ⟨hloop, hdistinct.2, ?_, done ++ [d], ?_, ?_, ?_⟩
  · intro d' hd' row hrow heq
    rw [hnew] at hrow
    rcases List.mem_append.mp hrow with hrow | hrow
    · exact h.untouched d' (List.mem_cons_of_mem _ hd') row hrow heq
    · have hsame : d'.1.txid = d.1.txid := heq.symm.trans (htxid row hrow)
      exact absurd (List.mem_map.mpr ⟨d', hd', hsame⟩) hdistinct.1
  · rw [List.append_assoc, List.singleton_append, hsplit]
  · intro d' hd'
    rcases List.mem_append.mp hd' with hd' | hd'
    · refine ⟨fun output ho hins ↦ ?_, fun hempty hins row hrow heq ↦ ?_⟩
      · obtain ⟨row, hrow, heq⟩ := (hdone d' hd').present output ho hins
        exact ⟨row, by rw [hnew]; exact List.mem_append_left _ hrow, heq⟩
      · by_contra hopen
        rw [Bool.not_eq_false] at hopen
        have hbefore := (hdone d' hd').cleared hempty hins row
          (repairTransaction_unrepaired hok hrow hopen) heq
        rw [hopen] at hbefore
        cases hbefore
    · rw [List.mem_singleton.mp hd']
      exact ⟨hpresent, hcleared⟩
  · rw [henv, henvelopes, List.map_map]
    refine List.map_congr_left fun envelope _ ↦ ?_
    rw [List.foldl_append]
    rfl

/-- The decodings of a call's batch. -/
def decodedBatch (s : Store) (decoder : ApplicationDecoder) (limit : Nat) :
    List (Transaction × ApplicationPreprocess) :=
  (repairCandidates s limit).map fun candidate ↦ (candidate.2, decoder candidate.2)

/-- A batch repairs a transaction once. -/
theorem decodedBatch_nodup (decoder : ApplicationDecoder) {limit : Nat}
    (hkeys : ∀ candidate ∈ repairCandidates s limit, candidate.2.txid = candidate.1)
    (hunique : (s.applicationEnvelopes.map (·.txid)).Nodup) :
    ((decodedBatch s decoder limit).map (·.1.txid)).Nodup := by
  have heq : (decodedBatch s decoder limit).map (·.1.txid) =
      (repairCandidates s limit).map (·.1) := by
    rw [decodedBatch, List.map_map]
    exact List.map_congr_left fun candidate hc ↦ hkeys candidate hc
  rw [heq]
  exact repairCandidates_nodup limit hunique

/-- What a repair call that returned did. -/
structure RepairEffect (s : Store) (decoder : ApplicationDecoder) (limit : Nat) (s' : Store)
    (result : ApplicationRepairResult) : Prop where
  keys : ∀ candidate ∈ repairCandidates s limit, candidate.2.txid = candidate.1
  outputs : ∃ new, s'.applicationOutputs = s.applicationOutputs ++ new ∧
    (new.map (·.outpoint)).Nodup ∧ (∀ row ∈ new, InsertedBy s (decodedBatch s decoder limit) row) ∧
    result.outputsRepaired = new.length ∧ result.deliveriesAppended = new.length
  failures : List.Forall₂ (Marks (SettledBy s (decodedBatch s decoder limit)))
    s.applicationDecodeFailures s'.applicationDecodeFailures
  repaired : ∀ d ∈ decodedBatch s decoder limit, Repaired s d s'
  envelopes : s'.applicationEnvelopes = s.applicationEnvelopes.map fun envelope ↦
    (decodedBatch s decoder limit).foldl (fun envelope d ↦ setStatus d envelope) envelope

theorem decodeCandidate_ok {decoder : ApplicationDecoder} {candidate : TxId × Transaction}
    {d : Transaction × ApplicationPreprocess} (h : decodeCandidate decoder candidate = .ok d) :
    candidate.2.txid = candidate.1 ∧ d = (candidate.2, decoder candidate.2) := by
  unfold decodeCandidate at h
  split at h
  · cases h
  · rename_i heq
    exact ⟨not_not.mp heq, (Except.ok.inj h).symm⟩

/-- **Repair, inverted.** -/
theorem repair_effect {s' : Store} {decoder : ApplicationDecoder} {limit : Nat}
    {result : ApplicationRepairResult}
    (hunique : (s.applicationEnvelopes.map (·.txid)).Nodup)
    (h : repairApplicationFailures s decoder limit = .ok (s', result)) :
    RepairEffect s decoder limit s' result := by
  unfold repairApplicationFailures at h
  obtain ⟨decoded, hdecoded, h⟩ := bind_eq_ok.mp h
  obtain ⟨r, hloop, h⟩ := bind_eq_ok.mp h
  rw [pure_eq_ok, Prod.mk.injEq] at h
  obtain ⟨rfl, rfl⟩ := h
  have hkeys : ∀ candidate ∈ repairCandidates s limit, candidate.2.txid = candidate.1 := by
    intro candidate hc
    obtain ⟨d, hd⟩ := mapM_ok_of_mem hdecoded hc
    exact (decodeCandidate_ok hd).1
  obtain rfl : decoded = decodedBatch s decoder limit :=
    mapM_eq_map (fun candidate d hd ↦ (decodeCandidate_ok hd).2) hdecoded
  have hdistinct := decodedBatch_nodup decoder hkeys hunique
  have hbatch : BatchInvariant s (decodedBatch s decoder limit) [] r := by
    refine foldlM_invariant_rest (BatchInvariant s (decodedBatch s decoder limit))
      (fun d rest r r' hr hstep ↦ hr.step hstep) ?_ hloop
    exact ⟨.start s _ rfl rfl rfl, hdistinct, fun _ _ row hrow _ ↦ hrow, [], rfl,
      fun _ h ↦ absurd h List.not_mem_nil, (List.map_id' _).symm⟩
  obtain ⟨done, hsplit, hdone, henvelopes⟩ := hbatch.split
  rw [List.append_nil] at hsplit
  subst hsplit
  exact ⟨hkeys, hbatch.loop.outputs, hbatch.loop.failures,
    fun d hd ↦ ⟨(hdone d hd).present, (hdone d hd).cleared⟩, henvelopes⟩

end Kascov
