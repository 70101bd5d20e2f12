import Kascov.Feed.Carried

/-!
# The application feed law

`run_feedLaw`: over a run whose calls meet the condition, a client of any
application holds exactly its current outputs.  Without the condition it need
not: a rollback cancels the accepted records of the removed blocks and no other
records, so an output repaired into a removed block stays with the client for
ever.
-/

namespace Kascov

open CancelLog

variable {s : Store} {next : Nat}

/-- The feed of an application is the records that carry an output of it. -/
theorem FeedInvariant.selects_iff (h : FeedInvariant s next) (application : String)
    {r : DeliveryRecord} (hr : r ∈ s.deliveryLog) :
    (applicationFilter application).selects s r = true ↔
      ∃ output ∈ r.applications, output.applicationId = application := by
  have hselects : (applicationFilter application).selects s r = true ↔
      ∃ row ∈ s.deliveryApplications, row.streamSeq = r.cursor.seq ∧
        row.applicationId = application := by
    simp only [DeliveryFilter.selects, applicationFilter, nullOr, Bool.true_and,
      Option.isNone_some, Option.isNone_none, Bool.false_or, Bool.and_true, List.any_eq_true,
      Bool.and_eq_true, decide_eq_true_eq]
  rw [hselects]
  have hindex := mem_applicationIndex h.log.seqs_nodup h.index hr
  constructor
  · rintro ⟨row, hrow, hseq, happ⟩
    obtain ⟨output, houtput, rfl⟩ := (hindex row).mp ⟨hrow, hseq⟩
    exact ⟨output, houtput, happ⟩
  · rintro ⟨output, houtput, happ⟩
    obtain ⟨hrow, hseq⟩ := (hindex _).mpr ⟨output, houtput, rfl⟩
    exact ⟨_, hrow, hseq, happ⟩

/-- In any part of the log kept in order, a record is cancelled after it. -/
theorem LogInvariant.feed_ordered (h : LogInvariant s next) {records : List DeliveryRecord}
    (hsub : List.Sublist records s.deliveryLog) : Ordered feedReading records := by
  intro pre e post heq hadds
  have hkind : e.kind ≠ .removed := by simpa [feedReading] using hadds
  have hsorted : s.deliveryLog.Pairwise fun a b ↦ a.cursor.seq < b.cursor.seq := by
    rw [← List.pairwise_map (f := fun r : DeliveryRecord ↦ r.cursor.seq), h.seqs]
    exact List.pairwise_lt_range'
  have hrecords := hsorted.sublist hsub
  rw [heq] at hrecords
  by_contra hcancelled
  rw [Bool.not_eq_false, cancelled_eq_true] at hcancelled
  obtain ⟨x, hx, hcancels⟩ := hcancelled
  have hremoved : x.kind = .removed := by
    by_contra hne
    simp [feedReading, hne] at hcancels
  have hsource : x.sourceCursor = some e.cursor := by
    simpa [feedReading, hremoved] using hcancels
  have hpre : x ∈ pre := by
    refine (List.mem_append.mp hx).resolve_right fun hxe ↦ ?_
    rw [List.mem_singleton.mp hxe] at hremoved
    exact hkind hremoved
  have hxlog : x ∈ s.deliveryLog := hsub.subset (heq ▸ List.mem_append_left _ hpre)
  obtain ⟨a, _, _, hsource', hlt⟩ := h.sources x hxlog hremoved
  rw [hsource, Option.some.injEq] at hsource'
  have hgt := (List.pairwise_append.mp hrecords).2.2 x hpre e List.mem_cons_self
  rw [hsource'] at hgt
  exact absurd hgt (lt_asymm hlt)

/-- What a client of the feed holds: the outputs of the live records. -/
theorem FeedInvariant.mem_clientOutputs (h : FeedInvariant s next) (application : String)
    {outpoint : Outpoint} :
    outpoint ∈ clientOutputs application
        (s.deliveryLog.filter ((applicationFilter application).selects s)) ↔
      ∃ r ∈ liveFeed s.deliveryLog, outpoint ∈ outputsOf application r := by
  have hcarries : ∀ r : DeliveryRecord, outpoint ∈ outputsOf application r →
      ∃ output ∈ r.applications, output.applicationId = application := by
    intro r hmem
    obtain ⟨output, houtput, -⟩ := List.mem_map.mp hmem
    obtain ⟨houtput, happ⟩ := List.mem_filter.mp houtput
    exact ⟨output, houtput, of_decide_eq_true happ⟩
  have hmem : outpoint ∈ clientOutputs application
        (s.deliveryLog.filter ((applicationFilter application).selects s)) ↔
      ∃ r ∈ live feedReading
          (s.deliveryLog.filter ((applicationFilter application).selects s)),
        outpoint ∈ outputsOf application r := by
    rw [clientOutputs, replay_eq_live _ _ (h.log.feed_ordered List.filter_sublist)]
    simp
  rw [hmem]
  refine exists_congr fun r ↦ and_congr_left fun hout ↦ ?_
  rw [mem_live, liveFeed, mem_live, List.mem_filter]
  constructor
  · rintro ⟨⟨hr, -⟩, hadds, hcancelled⟩
    refine ⟨hr, hadds, ?_⟩
    by_contra hne
    rw [Bool.not_eq_false, cancelled_eq_true] at hne
    obtain ⟨x, hx, hcancels⟩ := hne
    -- the removal carries what its source carries, so the feed has it too
    have hremoved : x.kind = .removed := by
      by_contra hk
      simp [feedReading, hk] at hcancels
    have hsource : x.sourceCursor = some r.cursor := by
      simpa [feedReading, hremoved] using hcancels
    obtain ⟨happs, -⟩ := h.copies x hx hremoved r hr hsource
    have hsel := (h.selects_iff application hx).mpr (happs ▸ hcarries r hout)
    have hfiltered := (cancelled_eq_true feedReading).mpr
      ⟨x, List.mem_filter.mpr ⟨hx, hsel⟩, hcancels⟩
    rw [hcancelled] at hfiltered
    cases hfiltered
  · rintro ⟨hr, hadds, hcancelled⟩
    refine ⟨⟨hr, (h.selects_iff application hr).mpr (hcarries r hout)⟩, hadds, ?_⟩
    by_contra hne
    rw [Bool.not_eq_false, cancelled_eq_true] at hne
    obtain ⟨x, hx, hcancels⟩ := hne
    have hall := (cancelled_eq_true feedReading).mpr
      ⟨x, List.mem_of_mem_filter hx, hcancels⟩
    rw [hcancelled] at hall
    cases hall

theorem FeedInvariant.feedLaw (h : FeedInvariant s next) (application : String) :
    FeedLaw s application := by
  intro limit
  refine ⟨_, h.log.readFeed, fun outpoint ↦ ?_⟩
  rw [h.mem_clientOutputs]
  constructor
  · rintro ⟨r, hr, hout⟩
    obtain ⟨output, houtput, rfl⟩ := List.mem_map.mp hout
    obtain ⟨houtput, happ⟩ := List.mem_filter.mp houtput
    obtain ⟨row, hrow, htxid, hrowOut⟩ := h.carried r hr output houtput
    obtain ⟨e, he, hetx, -⟩ := h.announced r hr
    refine ⟨row, hrow, ?_, ?_, e, he, hetx.trans htxid.symm, h.stamped e he⟩
    · rw [ApplicationOutputRow.outpoint, htxid, hrowOut]
    · rw [hrowOut]
      exact of_decide_eq_true happ
  · rintro ⟨row, hrow, rfl, happ, e, he, hetx, -⟩
    obtain ⟨-, r, hr, hrtx, hout⟩ := h.rows row hrow e he hetx
    refine ⟨r, hr, List.mem_map.mpr ⟨row.output, ?_, ?_⟩⟩
    · exact List.mem_filter.mpr ⟨hout, decide_eq_true happ⟩
    · rw [hrtx]
      rfl

/-- **The application feed law**, after every run of the writers whose calls
meet the condition. -/
theorem run_feedLaw (dec : Decoders) (epoch : StreamEpoch) (ops : List LogOp)
    (h : Runs.Guarded (LogOp.commit dec) Store.KeepsFeed (.fresh epoch) ops)
    (application : String) : FeedLaw (LogOp.run dec (.fresh epoch) ops) application :=
  (Runs.run_invariant_of_guarded (fun s ↦ FeedInvariant s s.nextStreamSeq) _
    (fun _ _ _ hs hkeeps hok ↦ hs.commit hkeeps hok) (feedInvariant_fresh epoch) h).feedLaw
      application

/-! ## A repaired output -/

/-- An output of application `app` in output 0. -/
def appOutput : ApplicationOutput :=
  { outputIndex := 0
    covenantId := ⟨9⟩
    applicationId := "app"
    artifactId := 0
    actorPath := ""
    stateJson := "" }

/-- A transaction that creates one cell of covenant 9. -/
def appTransaction (tx : BitVec 256) : Transaction :=
  { txid := ⟨tx⟩
    version := 1
    inputs := []
    outputs := [{ value := 100, spkVersion := 0, spkScript := [], covenant := some ⟨⟨9⟩, 0⟩ }]
    payload := [] }

/-- A block that accepts it, with what the decoder made of it. -/
def appBatch (block tx : BitVec 256) (daa : Nat) (application : ApplicationPreprocess) :
    AcceptedBlockBatch :=
  { acceptingBlock := ⟨block⟩
    acceptingDaa := daa
    events := [{ covenantId := ⟨9⟩
                 kind := .transition
                 txid := ⟨tx⟩
                 txIndex := 0
                 eventIndex := 0
                 payload := none
                 laneNamespace := none }]
    createdUtxos := [{ outpoint := ⟨⟨tx⟩, 0⟩
                       covenantId := ⟨9⟩
                       value := 100
                       spkVersion := 0
                       spkScript := [] }]
    transactions := [{ txid := ⟨tx⟩, transaction := appTransaction tx, application }] }

/-- A decoding that failed on output 0. -/
def failedDecoding : ApplicationPreprocess :=
  { rawEnvelope := some []
    failures := [{ outputIndex := some 0
                   applicationId := some "app"
                   artifactId := none
                   code := "unknown_artifact"
                   detail := "" }] }

/-- A block whose decoding failed, its repair once the decoder knows it, and a
block on top that is lost again. -/
def repairedRun : List LogOp :=
  [.apply (appBatch 1 7 10 failedDecoding), .repair (fun _ ↦ { outputs := [appOutput] }) 100,
    .apply (appBatch 2 8 11 { outputs := [appOutput] }), .rollback [⟨2⟩]]

theorem repairedRun_feedLaw :
    FeedLaw (LogOp.run .blind (.fresh ⟨0⟩) repairedRun) "app" :=
  run_feedLaw .blind ⟨0⟩ repairedRun
    ⟨fun _ ↦ CarriesOutputs.mk (by decide) (by decide) (by decide), trivial,
      fun _ ↦ CarriesOutputs.mk (by decide) (by decide) (by decide),
      show ∀ r ∈ _, _ by decide, trivial⟩ "app"

/-- A repaired block that is lost itself. -/
def lostRepairRun : List LogOp :=
  [.apply (appBatch 1 7 10 failedDecoding), .repair (fun _ ↦ { outputs := [appOutput] }) 100,
    .rollback [⟨1⟩]]

/-- The repaired block is rolled back: the row is gone, and the client keeps the
output. -/
theorem rollback_keeps_repaired_output :
    (LogOp.run .blind (.fresh ⟨0⟩) lostRepairRun).applicationOutputs = [] ∧
      (readFeed (LogOp.run .blind (.fresh ⟨0⟩) lostRepairRun)
        (applicationFilter "app") 100 10 none).map (clientOutputs "app") = .ok [⟨⟨7⟩, 0⟩] ∧
      ¬FeedLaw (LogOp.run .blind (.fresh ⟨0⟩) lostRepairRun) "app" := by
  have hrows : (LogOp.run .blind (.fresh ⟨0⟩)
      lostRepairRun).applicationOutputs = [] := by decide
  refine ⟨hrows, by decide, fun hlaw ↦ ?_⟩
  obtain ⟨records, hread, hclient⟩ := hlaw 100
  have hoffers : (readFeed (LogOp.run .blind (.fresh ⟨0⟩) lostRepairRun)
      (applicationFilter "app") 100 ((LogOp.run .blind (.fresh ⟨0⟩)
        lostRepairRun).deliveryLog.length + 1) none).map
      (clientOutputs "app") = .ok [⟨⟨7⟩, 0⟩] := by decide
  rw [hread] at hoffers
  have hheld : clientOutputs "app" records = [⟨⟨7⟩, 0⟩] := Except.ok.inj hoffers
  obtain ⟨row, hrow, -⟩ := (hclient ⟨⟨7⟩, 0⟩).mp (by rw [hheld]; exact List.mem_cons_self)
  rw [hrows] at hrow
  cases hrow

end Kascov
