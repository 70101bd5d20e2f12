import Kascov.Lib.Groups
import Kascov.Pages.Keyed

/-!
# The template a covenant is shown under

Three queries pick one name out of the cells of a covenant: `SUMMARY_SELECT`
for a row of the list, `covenant_templates` for all covenants at once, and
`template_stats`, which counts under the name it picked.  A cell carries the
name of its state script and the name of the program its spend revealed; either
can be missing, empty, or the generic shape of a commitment.
-/

namespace Kascov

open Groups

/-- The columns of `covenant_utxos` these queries read.  `template` is `NULL`
until the cell was decoded. -/
structure TemplateCell where
  covenantId : CovenantId
  value : Nat
  createdDaa : Nat
  spentBlock : Option BlockHash
  template : Option String
  revealedTemplate : Option String
deriving DecidableEq

/-- The two tables, with the primary key of the covenants. -/
structure SummaryTables where
  covenants : List CovenantRow
  cells : List TemplateCell
  key : (covenants.map (·.covenantId)).Nodup

/-- `(template IS NOT NULL AND template <> '') OR (revealed_template IS NOT NULL
AND revealed_template <> '')`. -/
def TemplateCell.stamped (u : TemplateCell) : Bool :=
  u.template.any (· ≠ "") || u.revealedTemplate.any (· ≠ "")

/-- The `CASE`: the name revealed, unless it is empty or generic, else the name of the
state script, unless that one is generic. -/
def TemplateCell.specific (u : TemplateCell) : Option String :=
  if u.revealedTemplate.any fun t ↦ t ≠ "" && !likeP2 t then u.revealedTemplate
  else u.template.filter (!likeP2 ·)

/-- `COALESCE(NULLIF(revealed_template, ''), template)`. -/
def TemplateCell.anyTemplate (u : TemplateCell) : Option String :=
  (u.revealedTemplate.filter (· ≠ "")).or u.template

/-- `SUM` over an integer column, which fails past the 64-bit range. -/
def sumColumn (values : List Nat) : Option Nat :=
  if values.sum < 2 ^ 63 then some values.sum else none

/-- `COALESCE` of the two maxima. -/
def pickTemplate (stamped : List TemplateCell) : Option String :=
  (maxText (stamped.filterMap (·.specific))).or (maxText (stamped.filterMap (·.anyTemplate)))

/-- One row of `SUMMARY_SELECT`, or the error of a sum. -/
def summarySelect (db : SummaryTables) (c : CovenantRow) : Option CovenantSummary := do
  let cells := db.cells.filter (·.covenantId = c.covenantId)
  let live := cells.filter (·.spentBlock.isNone)
  let liveValue ← sumColumn (live.map (·.value))
  let bornValue ← sumColumn ((cells.filter (c.genesisDaa = some ·.createdDaa)).map (·.value))
  pure
    { covenantId := c.covenantId
      genesisTxid := c.genesisTxid
      genesisDaa := c.genesisDaa
      lineageComplete := c.lineageComplete
      eventCount := c.eventCount
      lastActivityDaa := c.lastActivityDaa
      liveUtxos := live.length
      liveValue
      bornValue
      template := pickTemplate (cells.filter (·.stamped)) }

/-- `Store::covenant_templates`. -/
def covenantTemplates (db : SummaryTables) : List (CovenantId × String) :=
  (groupBy (·.covenantId) (db.cells.filter (·.stamped))).filterMap fun g ↦
    (pickTemplate g.2).map (g.1, ·)

/-- `c.covenant_id = u.covenant_id AND u.created_daa = c.genesis_daa`. -/
def TemplateCell.bornWith (u : TemplateCell) (c : CovenantRow) : Bool :=
  c.covenantId = u.covenantId && c.genesisDaa = some u.createdDaa

/-- `Store::born_values`. -/
def bornValues (db : SummaryTables) : Option (List (CovenantId × Nat)) :=
  (groupBy (·.covenantId) (joined TemplateCell.bornWith db.cells db.covenants)).mapM fun g ↦
    (sumColumn (g.2.map (·.value))).map (g.1, ·)

structure TemplateStat where
  template : Option String
  liveStates : Nat
  liveValue : Nat
  everSeen : Nat
  covenants : Nat
deriving DecidableEq

/-- The common table `resolved` of `template_stats`. -/
def resolvedTemplates (db : SummaryTables) : List (CovenantId × Option String) :=
  (groupBy (·.covenantId) (db.cells.filter (·.stamped))).map fun g ↦ (g.1, pickTemplate g.2)

/-- Every cell with the name of its covenant: the rows of the `LEFT JOIN`. -/
def resolvedCells (db : SummaryTables) : List (TemplateCell × Option String) :=
  (leftJoined (·.covenantId) db.cells (resolvedTemplates db)).map fun r ↦ (r.1, r.2.join)

/-- The row of `template_stats` for one group. -/
def templateStat (g : Option String × List (TemplateCell × Option String)) :
    Option TemplateStat := do
  let tpl := g.1.getD ""
  let liveValue ← sumColumn (g.2.map fun r ↦ if r.1.spentBlock.isNone then r.1.value else 0)
  pure
    { template := if tpl = "" then none else some tpl
      liveStates := (g.2.map fun r ↦ if r.1.spentBlock.isNone then 1 else 0).sum
      liveValue
      everSeen := g.2.length
      covenants := distinct (·.1.covenantId) g.2 }

/-- `Store::template_stats`.  `GROUP BY tpl` reads the column of `resolved`, so that an
empty name and no name are two groups; `ORDER BY` reads the column of the result. -/
def templateStats (db : SummaryTables) : Option (List TemplateStat) :=
  ((groupBy (·.2) (resolvedCells db)).mapM templateStat).map fun stats ↦
    stats.insertionSort fun a b ↦ b.everSeen < a.everSeen ∨
      b.everSeen = a.everSeen ∧ a.template.getD "" ≤ b.template.getD ""

/-- The names recognised on a cell. -/
def TemplateCell.names (u : TemplateCell) : List String :=
  (u.template.toList ++ u.revealedTemplate.toList).filter (· ≠ "")

/-- The names recognised on any cell of a covenant. -/
def recognised (db : SummaryTables) (id : CovenantId) : List String :=
  (db.cells.filter (·.covenantId = id)).flatMap (·.names)

/-- Whether some cell of the covenant was decoded to no template and revealed a
generic program. -/
def emptyBesideGeneric (db : SummaryTables) (id : CovenantId) : Bool :=
  db.cells.any fun u ↦ u.covenantId = id && u.template = some "" &&
    u.revealedTemplate.any fun t ↦ t ≠ "" && likeP2 t

/-! ## The greatest text -/

theorem maxText_concat (texts : List String) (t : String) :
    maxText (texts ++ [t]) = some ((maxText texts).elim t fun m ↦ if m < t then t else m) := by
  unfold maxText
  rw [List.foldl_append]
  rfl

theorem maxText_eq_none {texts : List String} : maxText texts = none ↔ texts = [] := by
  cases texts using List.reverseRecOn with
  | nil => exact iff_of_true rfl rfl
  | append_singleton texts t =>
      rw [maxText_concat]
      simp

/-- The maximum is one of the texts. -/
theorem mem_of_maxText {texts : List String} {m : String} (h : maxText texts = some m) :
    m ∈ texts := by
  induction texts using List.reverseRecOn generalizing m with
  | nil => cases h
  | append_singleton texts t ih =>
      rw [maxText_concat] at h
      rw [List.mem_append, List.mem_singleton]
      cases hm : maxText texts with
      | none =>
          rw [hm] at h
          exact .inr (Option.some.inj h).symm
      | some m' =>
          rw [hm] at h
          simp only [Option.elim_some, Option.some.injEq] at h
          split at h
          · exact .inr h.symm
          · exact .inl (h ▸ ih hm)

/-- No text is past the maximum. -/
theorem le_maxText {texts : List String} {m t : String} (h : maxText texts = some m)
    (ht : t ∈ texts) : t ≤ m := by
  induction texts using List.reverseRecOn generalizing m with
  | nil => cases h
  | append_singleton texts last ih =>
      rw [maxText_concat] at h
      rw [List.mem_append, List.mem_singleton] at ht
      cases hm : maxText texts with
      | none =>
          rw [hm] at h
          rw [maxText_eq_none.mp hm] at ht
          cases ht with
          | inl ht => exact absurd ht List.not_mem_nil
          | inr ht => exact (ht.trans (Option.some.inj h)).le
      | some m' =>
          rw [hm] at h
          simp only [Option.elim_some, Option.some.injEq] at h
          have hle : m' ≤ m ∧ last ≤ m := by
            split at h
            · next hlt => exact ⟨h ▸ hlt.le, h.le⟩
            · next hlt => exact ⟨h.le, h ▸ not_lt.mp hlt⟩
          cases ht with
          | inl ht => exact (ih hm ht).trans hle.1
          | inr ht => exact ht ▸ hle.2

/-! ## The name of one cell -/

@[simp] theorem likeP2_empty : likeP2 "" = false := by decide

theorem TemplateCell.mem_names {u : TemplateCell} {t : String} :
    t ∈ u.names ↔ (u.template = some t ∨ u.revealedTemplate = some t) ∧ t ≠ "" := by
  unfold names
  simp only [List.mem_filter, List.mem_append, Option.mem_toList,
    decide_eq_true_eq]

theorem TemplateCell.stamped_iff {u : TemplateCell} : u.stamped = true ↔ ∃ t, t ∈ u.names := by
  unfold stamped
  rw [Bool.or_eq_true, Option.any_eq_true, Option.any_eq_true]
  simp only [decide_eq_true_eq, mem_names]
  constructor
  · rintro (⟨t, ht, hne⟩ | ⟨t, ht, hne⟩)
    · exact ⟨t, .inl ht, hne⟩
    · exact ⟨t, .inr ht, hne⟩
  · rintro ⟨t, ht | ht, hne⟩
    · exact .inl ⟨t, ht, hne⟩
    · exact .inr ⟨t, ht, hne⟩

/-- A name that is not generic is preferred. -/
theorem TemplateCell.specific_of_names {u : TemplateCell}
    (h : ∃ t ∈ u.names, likeP2 t = false) : ∃ t ∈ u.names, likeP2 t = false ∧
      u.specific = some t := by
  simp only [mem_names] at h ⊢
  unfold specific
  by_cases hr : u.revealedTemplate.any fun t ↦ t ≠ "" && !likeP2 t
  · rw [if_pos hr]
    obtain ⟨t, ht, hp⟩ := (Option.any_eq_true _ _).mp hr
    simp only [ne_eq, Bool.and_eq_true, decide_eq_true_eq, Bool.not_eq_true'] at hp
    exact ⟨t, ⟨.inr ht, hp.1⟩, hp.2, ht⟩
  · rw [if_neg hr]
    obtain ⟨t, ⟨ht | ht, hne⟩, hlike⟩ := h
    · exact ⟨t, ⟨.inl ht, hne⟩, hlike, by simp [ht, hlike]⟩
    · exact absurd ((Option.any_eq_true _ _).mpr ⟨t, ht, by simp [hne, hlike]⟩) hr

/-- The name preferred is one of the cell's, not a generic one: or it is empty, because
the generic reveal was passed over for a state script of no template. -/
theorem TemplateCell.specific_cases {u : TemplateCell} {t : String} (hu : u.stamped = true)
    (h : u.specific = some t) : t ∈ u.names ∧ likeP2 t = false ∨
      t = "" ∧ u.template = some "" ∧ u.revealedTemplate.any fun t ↦ t ≠ "" && likeP2 t := by
  rw [mem_names]
  unfold specific at h
  by_cases hr : u.revealedTemplate.any fun t ↦ t ≠ "" && !likeP2 t
  · rw [if_pos hr] at h
    rw [h, Option.any_some] at hr
    simp only [ne_eq, Bool.and_eq_true, decide_eq_true_eq, Bool.not_eq_true'] at hr
    exact .inl ⟨⟨.inr h, hr.1⟩, hr.2⟩
  · rw [if_neg hr, Option.filter_eq_some_iff] at h
    obtain ⟨ht, hlike⟩ := h
    by_cases hne : t = ""
    · subst hne
      refine .inr ⟨rfl, ht, ?_⟩
      unfold stamped at hu
      rw [ht] at hu
      cases hrev : u.revealedTemplate with
      | none => simp [hrev] at hu
      | some r =>
          simp only [hrev, Option.any_some] at hu hr ⊢
          simp_all
    · exact .inl ⟨⟨.inl ht, hne⟩, by simpa using hlike⟩

/-- A stamped cell has a name for the second maximum. -/
theorem TemplateCell.anyTemplate_mem {u : TemplateCell} {t : String} (hu : u.stamped = true)
    (h : u.anyTemplate = some t) : t ∈ u.names := by
  rw [mem_names]
  unfold anyTemplate at h
  rcases Option.or_eq_some_iff.mp h with hr | ⟨hr, ht⟩
  · obtain ⟨hr, hne⟩ := Option.filter_eq_some_iff.mp hr
    exact ⟨.inr hr, by simpa using hne⟩
  · refine ⟨.inl ht, ?_⟩
    rintro rfl
    unfold stamped at hu
    cases hrev : u.revealedTemplate with
    | none => simp [ht, hrev] at hu
    | some r => simp_all

theorem TemplateCell.anyTemplate_isSome {u : TemplateCell} (hu : u.stamped = true) :
    u.anyTemplate ≠ none := by
  intro h
  obtain ⟨hr, ht⟩ := Option.or_eq_none_iff.mp h
  unfold stamped at hu
  rw [ht] at hu
  cases hrev : u.revealedTemplate with
  | none => simp [hrev] at hu
  | some r => simp_all

/-! ## The name of a covenant -/

theorem eq_empty_of_le {t : String} (h : t ≤ "") : t = "" := by
  by_contra hne
  apply absurd h
  rw [not_le, String.lt_iff_toList_lt]
  have hlist : t.toList ≠ [] := by simpa using hne
  obtain ⟨c, cs, hcs⟩ := List.exists_cons_of_ne_nil hlist
  rw [hcs]
  exact List.Lex.nil

/-- With a name that is not generic on some cell, such a name is picked. -/
theorem pickTemplate_specific {cells : List TemplateCell} (hcells : ∀ u ∈ cells, u.stamped = true)
    (h : ∃ u ∈ cells, ∃ t ∈ u.names, likeP2 t = false) :
    ∃ u ∈ cells, ∃ t ∈ u.names, likeP2 t = false ∧ pickTemplate cells = some t := by
  obtain ⟨u, hu, hnames⟩ := h
  obtain ⟨t, ht, -, hspecific⟩ := TemplateCell.specific_of_names hnames
  have hmem : t ∈ cells.filterMap (·.specific) := List.mem_filterMap.mpr ⟨u, hu, hspecific⟩
  unfold pickTemplate
  cases hmax : maxText (cells.filterMap (·.specific)) with
  | none =>
      rw [maxText_eq_none.mp hmax] at hmem
      exact absurd hmem List.not_mem_nil
  | some m =>
      obtain ⟨v, hv, hm⟩ := List.mem_filterMap.mp (mem_of_maxText hmax)
      rcases TemplateCell.specific_cases (hcells v hv) hm with ⟨hnames, hlike⟩ | ⟨rfl, -, -⟩
      · exact ⟨v, hv, m, hnames, hlike, rfl⟩
      · -- the empty text is past no name
        exact absurd (eq_empty_of_le (le_maxText hmax hmem)) (TemplateCell.mem_names.mp ht).2

/-- Without a cell that sets no template beside a generic reveal, the name picked is one
of the names recognised. -/
theorem pickTemplate_recognised {cells : List TemplateCell}
    (hcells : ∀ u ∈ cells, u.stamped = true) (hne : cells ≠ [])
    (hbeside : ∀ u ∈ cells, ¬(u.template = some "" ∧
      u.revealedTemplate.any fun t ↦ t ≠ "" && likeP2 t)) :
    ∃ u ∈ cells, ∃ t ∈ u.names, pickTemplate cells = some t := by
  unfold pickTemplate
  cases hmax : maxText (cells.filterMap (·.specific)) with
  | some m =>
      obtain ⟨v, hv, hm⟩ := List.mem_filterMap.mp (mem_of_maxText hmax)
      rcases TemplateCell.specific_cases (hcells v hv) hm with ⟨hnames, -⟩ | ⟨-, hempty⟩
      · exact ⟨v, hv, m, hnames, rfl⟩
      · exact absurd hempty (hbeside v hv)
  | none =>
      obtain ⟨u, hu⟩ := List.exists_mem_of_ne_nil _ hne
      have hsome := TemplateCell.anyTemplate_isSome (hcells u hu)
      obtain ⟨t, ht⟩ := Option.ne_none_iff_exists'.mp hsome
      cases hany : maxText (cells.filterMap (·.anyTemplate)) with
      | none =>
          have hmem := List.mem_filterMap.mpr ⟨u, hu, ht⟩
          rw [maxText_eq_none.mp hany] at hmem
          exact absurd hmem List.not_mem_nil
      | some m =>
          obtain ⟨v, hv, hm⟩ := List.mem_filterMap.mp (mem_of_maxText hany)
          exact ⟨v, hv, m, TemplateCell.anyTemplate_mem (hcells v hv) hm, rfl⟩

/-- The stamped cells of a covenant, whose name is picked. -/
def stampedCells (db : SummaryTables) (id : CovenantId) : List TemplateCell :=
  (db.cells.filter (·.covenantId = id)).filter (·.stamped)

theorem stampedCells_eq (db : SummaryTables) (id : CovenantId) :
    stampedCells db id = (db.cells.filter (·.stamped)).filter (·.covenantId = id) :=
  List.filter_comm _ _ _

theorem mem_stampedCells {db : SummaryTables} {id : CovenantId} {u : TemplateCell} :
    u ∈ stampedCells db id ↔ (u ∈ db.cells ∧ u.covenantId = id) ∧ u.stamped = true := by
  unfold stampedCells
  simp only [List.mem_filter, decide_eq_true_eq]

theorem mem_recognised {db : SummaryTables} {id : CovenantId} {t : String} :
    t ∈ recognised db id ↔ ∃ u ∈ stampedCells db id, t ∈ u.names := by
  unfold recognised
  simp only [List.mem_flatMap, List.mem_filter, decide_eq_true_eq, mem_stampedCells,
    TemplateCell.stamped_iff]
  constructor
  · rintro ⟨u, hu, ht⟩
    exact ⟨u, ⟨hu, t, ht⟩, ht⟩
  · rintro ⟨u, ⟨hu, -⟩, ht⟩
    exact ⟨u, hu, ht⟩

/-- The template of a summary row. -/
theorem summarySelect_template {db : SummaryTables} {c : CovenantRow} {row : CovenantSummary}
    (h : summarySelect db c = some row) :
    row.template = pickTemplate (stampedCells db c.covenantId) := by
  unfold summarySelect at h
  obtain ⟨live, -, h⟩ := Option.bind_eq_some_iff.mp h
  obtain ⟨born, -, h⟩ := Option.bind_eq_some_iff.mp h
  cases h
  rfl

theorem summarySelect_bornValue {db : SummaryTables} {c : CovenantRow} {row : CovenantSummary}
    (h : summarySelect db c = some row) :
    sumColumn (((db.cells.filter (·.covenantId = c.covenantId)).filter
      (c.genesisDaa = some ·.createdDaa)).map (·.value)) = some row.bornValue := by
  unfold summarySelect at h
  obtain ⟨live, -, h⟩ := Option.bind_eq_some_iff.mp h
  obtain ⟨born, hborn, h⟩ := Option.bind_eq_some_iff.mp h
  cases h
  exact hborn

/-- `covenant_templates` picks over the same cells. -/
theorem covenantTemplates_lookup (db : SummaryTables) (id : CovenantId) :
    (covenantTemplates db).lookup id = pickTemplate (stampedCells db id) := by
  unfold covenantTemplates
  rw [lookup_groupBy rfl, stampedCells_eq]

/-! ## The born value -/

/-- At most one covenant row matches a cell. -/
theorem bornWith_unique (db : SummaryTables) (u : TemplateCell) :
    (db.covenants.filter u.bornWith).length ≤ 1 := by
  have hsub : ((db.covenants.filter u.bornWith).map (·.covenantId)).Sublist
      (db.covenants.map (·.covenantId)) := List.filter_sublist.map _
  have hnodup := db.key.sublist hsub
  have hall : ∀ id ∈ (db.covenants.filter u.bornWith).map (·.covenantId),
      id = u.covenantId := by
    intro id hid
    obtain ⟨c, hc, rfl⟩ := List.mem_map.mp hid
    have hon := (List.mem_filter.mp hc).2
    simp only [TemplateCell.bornWith, Bool.and_eq_true, decide_eq_true_eq] at hon
    exact hon.1
  rw [← List.length_map (·.covenantId)]
  exact List.nodup_iff_count_le_one.mp hnodup u.covenantId |>.trans' (by
    rw [List.count_eq_length.mpr]
    intro b hb
    exact (hall b hb).symm)

/-- The born cells of a covenant of the table. -/
theorem joined_filter {db : SummaryTables} {c : CovenantRow} (hc : c ∈ db.covenants) :
    (joined TemplateCell.bornWith db.cells db.covenants).filter (·.covenantId = c.covenantId) =
      (db.cells.filter (·.covenantId = c.covenantId)).filter
        (c.genesisDaa = some ·.createdDaa) := by
  rw [joined_eq_filter fun u _ ↦ bornWith_unique db u, List.filter_filter, List.filter_filter]
  apply List.filter_congr
  intro u _
  by_cases hid : u.covenantId = c.covenantId
  · have hany : (db.covenants.any u.bornWith) = decide (c.genesisDaa = some u.createdDaa) := by
      rw [Bool.eq_iff_iff, List.any_eq_true, decide_eq_true_eq]
      simp only [TemplateCell.bornWith, Bool.and_eq_true, decide_eq_true_eq]
      constructor
      · rintro ⟨c', hc', hid', hdaa⟩
        have heq : c' = c := List.inj_on_of_nodup_map db.key hc' hc (hid'.trans hid)
        exact heq ▸ hdaa
      · exact fun hdaa ↦ ⟨c, hc, hid.symm, hdaa⟩
    rw [hany, hid]
    simp
  · simp [hid]

theorem bornValues_lookup {db : SummaryTables} {c : CovenantRow} {row : CovenantSummary}
    {born : List (CovenantId × Nat)} (hc : c ∈ db.covenants)
    (hrow : summarySelect db c = some row) (hborn : bornValues db = some born) :
    row.bornValue = (born.lookup c.covenantId).getD 0 := by
  have hsum := summarySelect_bornValue hrow
  unfold bornValues at hborn
  rw [lookup_groupByM (f := fun cells ↦ sumColumn (cells.map TemplateCell.value)) hborn,
    joined_filter hc]
  by_cases hmem : c.covenantId ∈
      (joined TemplateCell.bornWith db.cells db.covenants).map (·.covenantId)
  · rw [if_pos hmem, hsum]
    rfl
  · -- a covenant with no cell born has no row, and the sum over none is zero
    have hnil := filter_eq_nil_of_key fun h ↦ hmem (List.mem_dedup.mp h)
    rw [joined_filter hc] at hnil
    rw [hnil] at hsum
    rw [if_neg hmem]
    exact (Option.some.inj hsum).symm

/-! ## The breakdown -/

/-- Every cell is counted under the name its covenant is shown with. -/
theorem resolvedCells_eq (db : SummaryTables) :
    resolvedCells db =
      db.cells.map fun u ↦ (u, (covenantTemplates db).lookup u.covenantId) := by
  have hkeys : ((resolvedTemplates db).map Prod.fst).Nodup := by
    unfold resolvedTemplates
    rw [List.map_map]
    exact groupBy_keys_nodup TemplateCell.covenantId _
  have hlookup : ∀ id, ((resolvedTemplates db).lookup id).join =
      (covenantTemplates db).lookup id := by
    intro id
    unfold resolvedTemplates
    rw [covenantTemplates_lookup, lookup_groupBy_map, stampedCells_eq]
    by_cases hid : id ∈ (db.cells.filter (·.stamped)).map (·.covenantId)
    · rw [if_pos hid]
      rfl
    · have hnil := filter_eq_nil_of_key fun h ↦ hid (List.mem_dedup.mp h)
      rw [if_neg hid, hnil]
      rfl
  unfold resolvedCells
  rw [leftJoined_eq hkeys, List.map_map]
  apply List.map_congr_left
  intro u _
  exact congrArg (Prod.mk u) (hlookup u.covenantId)

/-- The groups of the breakdown, each with the row it gives. -/
theorem templateStats_groups {db : SummaryTables} {stats : List TemplateStat}
    (h : templateStats db = some stats) :
    ∃ rows, (groupBy (·.2) (resolvedCells db)).mapM templateStat = some rows ∧
      stats.Perm rows := by
  unfold templateStats at h
  obtain ⟨rows, hrows, rfl⟩ := Option.map_eq_some_iff.mp h
  exact ⟨rows, hrows, List.perm_insertionSort _ rows⟩

theorem templateStat_covenants {g : Option String × List (TemplateCell × Option String)}
    {stat : TemplateStat} (h : templateStat g = some stat) :
    stat.covenants = distinct (·.1.covenantId) g.2 := by
  unfold templateStat at h
  obtain ⟨live, -, h⟩ := Option.bind_eq_some_iff.mp h
  cases h
  rfl

theorem templateStat_template {g : Option String × List (TemplateCell × Option String)}
    {stat : TemplateStat} {t : String} (h : templateStat g = some stat)
    (ht : stat.template = some t) : g.1 = some t := by
  unfold templateStat at h
  obtain ⟨live, -, h⟩ := Option.bind_eq_some_iff.mp h
  cases h
  simp only at ht
  split at ht
  · cases ht
  · next hne =>
      cases hg : g.1 with
      | none => simp [hg] at hne
      | some name => simpa [hg] using ht

theorem mapM_map_eq {α β γ : Type} {f : α → Option β} {column : β → γ} {value : α → γ}
    (hf : ∀ a b, f a = some b → column b = value a) {rows : List α} {out : List β}
    (h : rows.mapM f = some out) : out.map column = rows.map value := by
  induction rows generalizing out with
  | nil =>
      rw [List.mapM_nil, Option.pure_def, Option.some.injEq] at h
      rw [← h]
      rfl
  | cons a rows ih =>
      rw [List.mapM_cons] at h
      obtain ⟨b, hb, h⟩ := Option.bind_eq_some_iff.mp h
      obtain ⟨bs, hbs, h⟩ := Option.bind_eq_some_iff.mp h
      cases h
      rw [List.map_cons, List.map_cons, hf a b hb, ih hbs]

/-- Every covenant with a cell is counted once. -/
theorem templateStats_counted {db : SummaryTables} {stats : List TemplateStat}
    (h : templateStats db = some stats) :
    (stats.map (·.covenants)).sum = distinct (·.covenantId) db.cells := by
  obtain ⟨rows, hrows, hperm⟩ := templateStats_groups h
  rw [(hperm.map _).sum_eq, mapM_map_eq (fun _ _ ↦ templateStat_covenants) hrows,
    sum_distinct fun id ↦ (covenantTemplates db).lookup id]
  · unfold distinct
    rw [resolvedCells_eq, List.map_map]
    rfl
  · intro r hr
    rw [resolvedCells_eq] at hr
    obtain ⟨u, -, rfl⟩ := List.mem_map.mp hr
    rfl

/-- Under a name, the covenants shown with that name. -/
theorem templateStats_named {db : SummaryTables} {stats : List TemplateStat}
    (h : templateStats db = some stats) {stat : TemplateStat} (hstat : stat ∈ stats) {t : String}
    (ht : stat.template = some t) :
    stat.covenants = distinct (·.covenantId)
      (db.cells.filter fun u ↦ (covenantTemplates db).lookup u.covenantId = some t) := by
  obtain ⟨rows, hrows, hperm⟩ := templateStats_groups h
  rw [mapM_eq_filterMap hrows] at hperm
  obtain ⟨g, hg, hgstat⟩ := List.mem_filterMap.mp (hperm.mem_iff.mp hstat)
  have hkey := templateStat_template hgstat ht
  rw [templateStat_covenants hgstat, (mem_groupBy.mp hg).2, hkey, resolvedCells_eq]
  unfold distinct
  rw [List.filter_map, List.map_map]
  rfl

/-! ## The queries agree -/

/-- What the three queries say of one database.  `shown` is the law of the name of a
summary row. -/
structure TemplatesAgree (shown : SummaryTables → CovenantId → Option String → Prop)
    (db : SummaryTables) : Prop where
  template : ∀ c ∈ db.covenants, ∀ row, summarySelect db c = some row →
    row.template = (covenantTemplates db).lookup c.covenantId
  born : ∀ c ∈ db.covenants, ∀ row, summarySelect db c = some row →
    ∀ born, bornValues db = some born →
      row.bornValue = (born.lookup c.covenantId).getD 0
  shown : ∀ c ∈ db.covenants, ∀ row, summarySelect db c = some row →
    shown db c.covenantId row.template
  counted : ∀ stats, templateStats db = some stats →
    (stats.map (·.covenants)).sum = distinct (·.covenantId) db.cells
  named : ∀ stats, templateStats db = some stats → ∀ stat ∈ stats, ∀ t, stat.template = some t →
    stat.covenants = distinct (·.covenantId)
      (db.cells.filter fun u ↦ (covenantTemplates db).lookup u.covenantId = some t)

/-- With any name recognised, the name shown is neither empty nor generic. -/
def NeverGeneric (db : SummaryTables) (id : CovenantId) (template : Option String) : Prop :=
  recognised db id ≠ [] → ∃ t, template = some t ∧ t ≠ "" ∧ likeP2 t = false

/-- With a name that is not generic, such a name is shown.  With generic names only, one
of them is shown, short of a cell of no template that revealed a generic program. -/
structure MostSpecific (db : SummaryTables) (id : CovenantId) (template : Option String) :
    Prop where
  specific : (∃ t ∈ recognised db id, likeP2 t = false) →
    ∃ t ∈ recognised db id, likeP2 t = false ∧ t ≠ "" ∧ template = some t
  generic : recognised db id ≠ [] → emptyBesideGeneric db id = false →
    ∃ t ∈ recognised db id, t ≠ "" ∧ template = some t

theorem ne_empty_of_recognised {db : SummaryTables} {id : CovenantId} {t : String}
    (h : t ∈ recognised db id) : t ≠ "" := by
  obtain ⟨u, -, ht⟩ := mem_recognised.mp h
  exact (TemplateCell.mem_names.mp ht).2

theorem mostSpecific (db : SummaryTables) (id : CovenantId) :
    MostSpecific db id (pickTemplate (stampedCells db id)) := by
  have hstamped : ∀ u ∈ stampedCells db id, u.stamped = true :=
    fun u hu ↦ (mem_stampedCells.mp hu).2
  constructor
  · rintro ⟨t, ht, hlike⟩
    obtain ⟨u, hu, ht⟩ := mem_recognised.mp ht
    obtain ⟨v, hv, m, hm, hlike, hpick⟩ :=
      pickTemplate_specific hstamped ⟨u, hu, t, ht, hlike⟩
    have hmem := mem_recognised.mpr ⟨v, hv, hm⟩
    exact ⟨m, hmem, hlike, ne_empty_of_recognised hmem, hpick⟩
  · intro hne hbeside
    obtain ⟨t, ht⟩ := List.exists_mem_of_ne_nil _ hne
    obtain ⟨u, hu, -⟩ := mem_recognised.mp ht
    unfold emptyBesideGeneric at hbeside
    rw [List.any_eq_false] at hbeside
    have hcells : ∀ u ∈ stampedCells db id, ¬(u.template = some "" ∧
        u.revealedTemplate.any fun t ↦ t ≠ "" && likeP2 t) := by
      rintro v hv ⟨hempty, hrevealed⟩
      obtain ⟨⟨hv, hid⟩, -⟩ := mem_stampedCells.mp hv
      apply hbeside v hv
      simp only [Bool.and_eq_true, decide_eq_true_eq]
      exact ⟨⟨hid, hempty⟩, hrevealed⟩
    obtain ⟨v, hv, m, hm, hpick⟩ :=
      pickTemplate_recognised hstamped (List.ne_nil_of_mem hu) hcells
    have hmem := mem_recognised.mpr ⟨v, hv, hm⟩
    exact ⟨m, hmem, ne_empty_of_recognised hmem, hpick⟩

/-- The list, the standalone queries and the breakdown agree, on every database. -/
theorem templates_agree (db : SummaryTables) : TemplatesAgree MostSpecific db where
  template c _ row hrow := by
    rw [summarySelect_template hrow, covenantTemplates_lookup]
  born c hc row hrow born hborn := bornValues_lookup hc hrow hborn
  shown c _ row hrow := by
    rw [summarySelect_template hrow]
    exact mostSpecific db c.covenantId
  counted _ := templateStats_counted
  named _ h _ hstat _ := templateStats_named h hstat

/-- One covenant whose only cell pays to a public key. -/
def ownedTables : SummaryTables where
  covenants := [⟨⟨7⟩, none, some 3, true, 1, 3⟩]
  cells := [⟨⟨7⟩, 5, 3, none, some "p2pk state", none⟩]
  key := by decide

/-- Its name is generic, and shown for want of another. -/
theorem generic_shown : ¬∀ db, TemplatesAgree NeverGeneric db := by
  intro h
  have hrow : (summarySelect ownedTables ⟨⟨7⟩, none, some 3, true, 1, 3⟩).map (·.template) =
      some (some "p2pk state") := by decide +kernel
  obtain ⟨row, hrow, htemplate⟩ := Option.map_eq_some_iff.mp hrow
  obtain ⟨t, ht, -, hlike⟩ := (h ownedTables).shown _ (List.mem_singleton.mpr rfl) row hrow
    (by decide +kernel)
  rw [htemplate] at ht
  cases ht
  exact absurd hlike (by decide +kernel)

/-! ## The tables of the store -/

/-- The columns of a row the queries read. -/
def UtxoRow.templateCell (u : UtxoRow) : TemplateCell where
  covenantId := u.covenantId
  value := u.value
  createdDaa := u.createdDaa
  spentBlock := u.spentBlock
  template := some u.template
  revealedTemplate := u.revealedTemplate

/-- A store whose cells have all been decoded. -/
def Store.summaryTables (s : Store) (h : (s.covenants.map (·.covenantId)).Nodup) :
    SummaryTables where
  covenants := s.covenants
  cells := s.covenantUtxos.map UtxoRow.templateCell
  key := h

@[simp] theorem templateCell_specific (u : UtxoRow) :
    u.templateCell.specific = u.specificTemplate := by
  unfold TemplateCell.specific UtxoRow.specificTemplate UtxoRow.templateCell
  have hfilter : (some u.template).filter (!likeP2 ·) =
      if ¬likeP2 u.template then some u.template else none := by
    cases hlike : likeP2 u.template with
    | false => simp [hlike]
    | true => simp [hlike]
  simp only [hfilter]
  cases u.revealedTemplate with
  | none => rfl
  | some t => simp only [Option.any_some, Bool.and_eq_true, decide_eq_true_eq,
      Bool.not_eq_true', Bool.not_eq_true]

@[simp] theorem templateCell_anyTemplate (u : UtxoRow) :
    u.templateCell.anyTemplate = some u.anyTemplate := by
  unfold TemplateCell.anyTemplate UtxoRow.anyTemplate UtxoRow.templateCell
  cases u.revealedTemplate with
  | none => rfl
  | some t =>
      by_cases h : t = ""
      · simp [h, Option.filter]
      · simp [h, Option.filter]

/-- The rows of the list are those of its query, while no sum fails. -/
theorem summarySelect_summaryTables (s : Store) (h : (s.covenants.map (·.covenantId)).Nodup)
    (c : CovenantRow) (hlive : (covenantSummary s c).liveValue < 2 ^ 63)
    (hborn : (covenantSummary s c).bornValue < 2 ^ 63) :
    summarySelect (s.summaryTables h) c = some (covenantSummary s c) := by
  have hcells : (s.summaryTables h).cells.filter (·.covenantId = c.covenantId) =
      (s.covenantUtxos.filter (·.covenantId = c.covenantId)).map UtxoRow.templateCell :=
    List.filter_map ..
  unfold summarySelect
  rw [hcells]
  generalize hown : s.covenantUtxos.filter (·.covenantId = c.covenantId) = cells
  unfold covenantSummary at hlive hborn ⊢
  simp only [hown] at hlive hborn ⊢
  have hvalues : ∀ p : TemplateCell → Bool,
      ((cells.map UtxoRow.templateCell).filter p).map (·.value) =
        (cells.filter (p ∘ UtxoRow.templateCell)).map (·.value) := by
    intro p
    rw [List.filter_map, List.map_map]
    rfl
  have hpick : pickTemplate ((cells.map UtxoRow.templateCell).filter (·.stamped)) =
      (maxText ((cells.filter (·.templateCell.stamped)).filterMap (·.specificTemplate))).or
        (maxText ((cells.filter (·.templateCell.stamped)).map (·.anyTemplate))) := by
    unfold pickTemplate
    rw [List.filter_map, List.filterMap_map, List.filterMap_map]
    simp only [Function.comp_def, templateCell_specific, templateCell_anyTemplate,
      List.filterMap_eq_map']
  have hlength : ((cells.map UtxoRow.templateCell).filter (·.spentBlock.isNone)).length =
      (cells.filter (·.spentBlock.isNone)).length := by
    rw [List.filter_map, List.length_map]
    rfl
  have hsumLive : sumColumn ((cells.filter (·.spentBlock.isNone)).map (·.value)) = some _ :=
    if_pos hlive
  have hsumBorn : sumColumn ((cells.filter fun u ↦ c.genesisDaa = some u.createdDaa).map
    (·.value)) = some _ := if_pos hborn
  have hliveCells : cells.filter ((·.spentBlock.isNone) ∘ UtxoRow.templateCell) =
      cells.filter (·.spentBlock.isNone) := rfl
  have hbornCells : cells.filter ((fun u ↦ decide (c.genesisDaa = some u.createdDaa)) ∘
    UtxoRow.templateCell) = cells.filter fun u ↦ c.genesisDaa = some u.createdDaa := rfl
  rw [hvalues, hvalues, hpick, hlength, hliveCells, hbornCells, hsumLive, hsumBorn]
  rfl

end Kascov
