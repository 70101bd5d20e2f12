import Kascov.Lib.StableSort
import Kascov.Web.Grid

/-!
# The index is the one a rebuild gives

Whatever pages the worker serves, from whatever state of its database, the index that was
extended page by page is the one that `buildIndex` makes of all rows; and while the database
stands still, the pages bring the whole list.
-/

namespace Kascov

open StableSort Walk

/-! ## Names -/

/-- The marks in a name. -/
def dashes (name : Text) : Nat := name.count '-'

theorem words_plain : ∀ w ∈ adjectives ++ colors ++ animals, dashes w.toList = 0 := by
  decide

theorem wordOf_mem {words : List String} (h : 0 < words.length) (id : CovenantId) (i : Nat) :
    ∃ w ∈ words, wordOf words id i = w.toList := by
  have hlt : (idByte id i * 256 + idByte id (i + 1)) % words.length < words.length :=
    Nat.mod_lt _ h
  refine ⟨_, List.getElem_mem hlt, ?_⟩
  rw [wordOf, List.getD_eq_getElem _ _ hlt]

theorem dashes_friendlyName (id : CovenantId) : dashes (friendlyName id) = 2 := by
  have hadjectives : 0 < adjectives.length := by decide
  have hcolors : 0 < colors.length := by decide
  have hanimals : 0 < animals.length := by decide
  obtain ⟨a, ha, haeq⟩ := wordOf_mem hadjectives id 0
  obtain ⟨c, hc, hceq⟩ := wordOf_mem hcolors id 2
  obtain ⟨n, hn, hneq⟩ := wordOf_mem hanimals id 4
  have hplain := words_plain
  have ha0 := hplain a (List.mem_append_left _ (List.mem_append_left _ ha))
  have hc0 := hplain c (List.mem_append_left _ (List.mem_append_right _ hc))
  have hn0 := hplain n (List.mem_append_right _ hn)
  rw [friendlyName, haeq, hceq, hneq]
  simp only [dashes, List.count_append, List.count_cons_self] at ha0 hc0 hn0 ⊢
  rw [ha0, hc0, hn0]

/-- **A suffixed name is nobody's friendly name.** -/
theorem suffixedName_ne (id id' : CovenantId) : suffixedName id ≠ friendlyName id' := by
  intro h
  have hdashes := congrArg dashes h
  rw [dashes_friendlyName, suffixedName] at hdashes
  have htwo := dashes_friendlyName id
  simp only [dashes, List.count_append, List.count_cons_self] at htwo hdashes
  omega

/-- The name of a coin among rows. -/
def fullName (rows : List GridRow) (c : GridRow) : Text :=
  if 1 < (rows.map fun r ↦ friendlyName r.covenantId).count (friendlyName c.covenantId) then
    suffixedName c.covenantId
  else friendlyName c.covenantId

section Names

variable {clock : GridClock} {rows : List GridRow} {c : GridRow}

theorem countNames_append (rows more : List GridRow) :
    countNames (rows ++ more) = more.foldl countName (countNames rows) := List.foldl_append

/-- The counts count. -/
theorem get?_countNames (rows : List GridRow) (n : Text) :
    ((countNames rows).get? n).getD 0 = (rows.map fun r ↦ friendlyName r.covenantId).count n := by
  induction rows using List.reverseRecOn with
  | nil => rfl
  | append_singleton rows c ih =>
      rw [countNames_append, List.foldl_cons, List.foldl_nil, countName, List.map_append,
        List.count_append, List.map_singleton]
      by_cases hn : n = friendlyName c.covenantId
      · subst hn
        rw [InsertionMap.get?_set_self, List.count_singleton_self, ← ih]
        rfl
      · rw [InsertionMap.get?_set_ne hn, ih, List.count_eq_zero_of_not_mem fun hmem ↦
          hn (List.mem_singleton.mp hmem)]
        rfl

/-- The objects that a rebuild makes. -/
def builtEntries (clock : GridClock) (rows : List GridRow) : List IndexEntry :=
  rows.map fun c ↦ indexEntry clock c (fullName rows c)

/-- The order of a rebuild. -/
def builtCovs (clock : GridClock) (rows : List GridRow) : List Nat :=
  (List.range rows.length).insertionSort (LaterFirst (builtEntries clock rows))

theorem buildIndex_eq (clock : GridClock) (rows : List GridRow) : buildIndex clock rows =
    ⟨builtEntries clock rows, builtCovs clock rows,
      (builtCovs clock rows).foldl (putId (builtEntries clock rows)) {}, countNames rows⟩ := by
  have hentries : (buildIndex clock rows).entries = builtEntries clock rows := by
    refine List.map_congr_left fun c _ ↦ ?_
    dsimp only
    rw [get?_countNames, fullName]
  unfold buildIndex at hentries ⊢
  dsimp only at hentries ⊢
  rw [hentries, builtCovs, builtEntries, List.length_map]

theorem getElem?_builtEntries (i : Nat) :
    (builtEntries clock rows)[i]? = rows[i]?.map fun c ↦ indexEntry clock c (fullName rows c) :=
  List.getElem?_map

/-- An element that is counted once stands at one place. -/
theorem index_of_count_le_one {α : Type} [BEq α] [LawfulBEq α] {l : List α} {a : α} {i j : Nat}
    (hi : l[i]? = some a) (hj : l[j]? = some a) (h : l.count a ≤ 1) : i = j := by
  induction l generalizing i j with
  | nil =>
      rw [List.getElem?_nil] at hi
      cases hi
  | cons x l ih =>
      -- the head and a later one would be two
      have htwo : ∀ k : Nat, (x :: l)[0]? = some a → l[k]? = some a → False := by
        intro k hzero hk
        obtain rfl : x = a := Option.some.inj hzero
        rw [List.count_cons_self] at h
        have hpos := List.count_pos_iff.mpr (List.mem_of_getElem? hk)
        omega
      cases i with
      | zero =>
          cases j with
          | zero => rfl
          | succ j => exact (htwo j hi hj).elim
      | succ i =>
          cases j with
          | zero => exact (htwo i hj hi).elim
          | succ j =>
              exact congrArg Nat.succ (ih hi hj ((List.count_le_count_cons ..).trans h))

/-- A coin keeps its name when one with another friendly name comes. -/
theorem fullName_other {c d : GridRow} (h : friendlyName d.covenantId ≠ friendlyName c.covenantId) :
    fullName (rows ++ [d]) c = fullName rows c := by
  rw [fullName, fullName, List.map_append, List.count_append, List.map_singleton,
    List.count_eq_zero_of_not_mem fun hmem ↦ h (List.mem_singleton.mp hmem).symm]
  rfl

/-- A coin has a suffix when one with its friendly name comes. -/
theorem fullName_same {c d : GridRow} (hc : c ∈ rows)
    (h : friendlyName d.covenantId = friendlyName c.covenantId) :
    fullName (rows ++ [d]) c = suffixedName c.covenantId := by
  have hpos : 0 < (rows.map fun r ↦ friendlyName r.covenantId).count (friendlyName c.covenantId) :=
    List.count_pos_iff.mpr (List.mem_map_of_mem hc)
  rw [fullName, List.map_append, List.count_append, List.map_singleton, h,
    List.count_singleton_self, if_pos (Nat.succ_lt_succ hpos)]

/-- The name of the coin that comes. -/
theorem fullName_last (rows : List GridRow) (d : GridRow) : fullName (rows ++ [d]) d =
    if 0 < (rows.map fun r ↦ friendlyName r.covenantId).count (friendlyName d.covenantId) then
      suffixedName d.covenantId else friendlyName d.covenantId := by
  rw [fullName, List.map_append, List.count_append, List.map_singleton, List.count_singleton_self]
  exact if_congr Nat.succ_lt_succ_iff rfl rfl

/-- A coin whose name is a friendly name has it as its own. -/
theorem friendlyName_of_fullName {id : CovenantId} (h : fullName rows c = friendlyName id) :
    friendlyName c.covenantId = friendlyName id := by
  unfold fullName at h
  split at h
  · exact absurd h (suffixedName_ne _ _)
  · exact h

theorem builtEntries_concat (clock : GridClock) (rows : List GridRow) (d : GridRow) :
    builtEntries clock (rows ++ [d]) =
      (rows.map fun c ↦ indexEntry clock c (fullName (rows ++ [d]) c)) ++
        [indexEntry clock d (fullName (rows ++ [d]) d)] := List.map_append

/-- What the search of `appendToIndex` looks at. -/
theorem any_builtEntries {i : Nat} {base : Text} :
    ((builtEntries clock rows)[i]?).any (·.name = base) = true ↔
      ∃ c, rows[i]? = some c ∧ fullName rows c = base := by
  rw [getElem?_builtEntries, Option.any_map]
  cases rows[i]? with
  | none => simp
  | some c => simp [indexEntry]

/-- A row that has the friendly name of another that is counted once is that row. -/
theorem index_of_friendlyName {id : CovenantId} {c c' : GridRow} {i j : Nat}
    (hone : (rows.map fun r ↦ friendlyName r.covenantId).count (friendlyName id) = 1)
    (hi : rows[i]? = some c) (hj : rows[j]? = some c')
    (hc : friendlyName c.covenantId = friendlyName id)
    (hc' : friendlyName c'.covenantId = friendlyName id) : i = j := by
  have hmap : ∀ (k : Nat) (r : GridRow), rows[k]? = some r →
      friendlyName r.covenantId = friendlyName id →
      (rows.map fun r ↦ friendlyName r.covenantId)[k]? = some (friendlyName id) := by
    intro k r hk hr
    rw [List.getElem?_map, hk]
    exact congrArg some hr
  exact index_of_count_le_one (hmap i c hi hc) (hmap j c' hj hc') (Nat.le_of_eq hone)

/-- **The objects after a row are those of a rebuild.**  The first coin with its friendly name gets
none, the second gives the first one its suffix too. -/
theorem appendRow_entries {index : GridIndex} (hentries : index.entries = builtEntries clock rows)
    (hcounts : index.nameCounts = countNames rows) (hcovs : ∀ i, i ∈ index.covs ↔ i < rows.length)
    (d : GridRow) : (appendRow clock index d).entries = builtEntries clock (rows ++ [d]) := by
  have hcount := get?_countNames rows (friendlyName d.covenantId)
  rw [builtEntries_concat, fullName_last]
  unfold appendRow
  dsimp only
  rw [hcounts, hcount]
  set k := (rows.map fun r ↦ friendlyName r.covenantId).count (friendlyName d.covenantId) with hk
  refine congrArg₂ (· ++ ·) ?_ ?_
  · split
    next htwo =>
        have hone : k = 1 := Nat.succ.inj htwo
        have hshort : ∀ c, friendlyName c.covenantId = friendlyName d.covenantId →
            fullName rows c = friendlyName d.covenantId := by
          intro c hc
          rw [fullName, hc, ← hk, hone]
          rfl
        rw [hentries]
        split
        next i hfind =>
            have hfound := List.find?_some hfind
            obtain ⟨prev, hprev, hname⟩ := any_builtEntries.mp hfound
            have hbase := friendlyName_of_fullName hname
            refine List.ext_getElem? fun j ↦ ?_
            rw [List.getElem?_modify, getElem?_builtEntries, List.getElem?_map]
            cases hj : rows[j]? with
            | none => rfl
            | some c =>
                have hc : c ∈ rows := List.mem_of_getElem? hj
                by_cases hij : i = j
                · subst hij
                  obtain rfl : c = prev := Option.some.inj (hj.symm.trans hprev)
                  simp only [Option.map_eq_map, Option.map_some, if_pos]
                  rw [fullName_same hc hbase.symm]
                  rfl
                · have hother : friendlyName d.covenantId ≠ friendlyName c.covenantId :=
                    fun heq ↦ hij (index_of_friendlyName hone hprev hj hbase heq.symm)
                  simp only [Option.map_eq_map, Option.map_some, if_neg hij]
                  rw [fullName_other hother]
        next hnone =>
            have hpos : friendlyName d.covenantId ∈ rows.map fun r ↦ friendlyName r.covenantId :=
              List.count_pos_iff.mp (by omega)
            obtain ⟨c, hc, hbase⟩ := List.mem_map.mp hpos
            obtain ⟨i, hi⟩ := List.getElem?_of_mem hc
            have hany : ((builtEntries clock rows)[i]?).any
                (·.name = friendlyName d.covenantId) = true :=
              any_builtEntries.mpr ⟨c, hi, hshort c hbase⟩
            exact absurd hany (List.find?_eq_none.mp hnone i
              ((hcovs i).mpr (List.getElem?_eq_some_iff.mp hi).1))
    next htwo =>
        rw [hentries]
        refine List.map_congr_left fun c hc ↦ ?_
        by_cases hbase : friendlyName d.covenantId = friendlyName c.covenantId
        · have hpos : 0 < k := by
            rw [hk, hbase]
            exact List.count_pos_iff.mpr (List.mem_map_of_mem hc)
          rw [fullName_same hc hbase, fullName, ← hbase, ← hk, if_pos (by omega)]
        · rw [fullName_other hbase]
  · rw [if_congr (Nat.succ_lt_succ_iff (a := 0) (b := k)) rfl rfl]

end Names

/-! ## The views -/

/-- An index over rows, but for the order of its list. -/
structure Merged (clock : GridClock) (rows : List GridRow) (index : GridIndex) : Prop where
  entries : index.entries = builtEntries clock rows
  covs : index.covs.Perm (List.range rows.length)
  byId : ∀ id i, index.byId.get? id = some i ↔ ∃ c, rows[i]? = some c ∧ c.covenantId = id
  nameCounts : index.nameCounts = countNames rows

/-- Rows with their ids, each once. -/
def DistinctRows (rows : List GridRow) : Prop := (rows.map (·.covenantId)).Nodup

section Views

variable {clock : GridClock} {rows : List GridRow} {index : GridIndex}

theorem DistinctRows.index_eq (h : DistinctRows rows) {i j : Nat} {c c' : GridRow}
    (hi : rows[i]? = some c) (hj : rows[j]? = some c') (hid : c.covenantId = c'.covenantId) :
    i = j := by
  have hmap : ∀ (k : Nat) (r : GridRow), rows[k]? = some r →
      (rows.map (·.covenantId))[k]? = some r.covenantId := by
    intro k r hk
    rw [List.getElem?_map, hk]
    rfl
  have hlt := (List.getElem?_eq_some_iff.mp (hmap i c hi)).1
  exact (List.getElem?_inj hlt h).mp (by rw [hmap i c hi, hmap j c' hj, hid])

/-- The list of ids, over some of the objects. -/
theorem get?_foldl_putId (hrows : DistinctRows rows) {refs : List Nat}
    (hrefs : ∀ i ∈ refs, i < rows.length) (id : CovenantId) (i : Nat) :
    (refs.foldl (putId (builtEntries clock rows)) {}).get? id = some i ↔
      i ∈ refs ∧ ∃ c, rows[i]? = some c ∧ c.covenantId = id := by
  induction refs using List.reverseRecOn generalizing id i with
  | nil =>
      refine ⟨fun h ↦ ?_, fun h ↦ absurd h.1 List.not_mem_nil⟩
      cases h
  | append_singleton refs j ih =>
      have hj := hrefs j (List.mem_append_right _ (List.mem_singleton_self j))
      have ih := ih fun i hi ↦ hrefs i (List.mem_append_left _ hi)
      have hget : rows[j]? = some rows[j] := List.getElem?_eq_getElem hj
      rw [List.foldl_append, List.foldl_cons, List.foldl_nil, putId, getElem?_builtEntries, hget]
      dsimp only [Option.map_some]
      by_cases hid : id = (rows[j]).covenantId
      · subst hid
        rw [show (indexEntry clock rows[j] (fullName rows rows[j])).c = rows[j] from rfl,
          InsertionMap.get?_set_self]
        constructor
        · intro h
          obtain rfl := Option.some.inj h
          exact ⟨List.mem_append_right _ (List.mem_singleton_self _), _, hget, rfl⟩
        · rintro ⟨-, c, hc, heq⟩
          exact congrArg some (hrows.index_eq hget hc heq.symm)
      · rw [show (indexEntry clock rows[j] (fullName rows rows[j])).c = rows[j] from rfl,
          InsertionMap.get?_set_ne hid, ih, List.mem_append]
        refine and_congr_left ?_
        rintro ⟨c, hc, heq⟩
        refine ⟨.inl, fun h ↦ h.resolve_right fun hlast ↦ hid ?_⟩
        obtain rfl := List.mem_singleton.mp hlast
        obtain rfl := Option.some.inj (hget.symm.trans hc)
        exact heq.symm

theorem builtCovs_perm (clock : GridClock) (rows : List GridRow) :
    (builtCovs clock rows).Perm (List.range rows.length) := List.perm_insertionSort _ _

theorem merged_buildIndex (clock : GridClock) (hrows : DistinctRows rows) :
    Merged clock rows (buildIndex clock rows) := by
  rw [buildIndex_eq]
  have hmem : ∀ i, i ∈ builtCovs clock rows ↔ i < rows.length := fun i ↦
    (builtCovs_perm clock rows).mem_iff.trans List.mem_range
  refine ⟨rfl, builtCovs_perm clock rows, fun id i ↦ ?_, rfl⟩
  dsimp only
  rw [get?_foldl_putId hrows (fun i hi ↦ (hmem i).mp hi), hmem]
  refine and_iff_right_of_imp ?_
  rintro ⟨c, hc, -⟩
  exact (List.getElem?_eq_some_iff.mp hc).1

/-- **A row more.** -/
theorem Merged.concat (h : Merged clock rows index) {d : GridRow}
    (hrows : DistinctRows (rows ++ [d])) : Merged clock (rows ++ [d]) (appendRow clock index d) ∧
      (appendRow clock index d).covs = index.covs ++ [rows.length] := by
  have hentries := appendRow_entries h.entries h.nameCounts
    (fun i ↦ h.covs.mem_iff.trans List.mem_range) d
  -- the object that is added is the last
  have hlast : (appendRow clock index d).covs = index.covs ++ [rows.length] ∧
      (appendRow clock index d).byId = index.byId.set d.covenantId rows.length := by
    have hlength := congrArg List.length hentries
    rw [builtEntries, List.length_map, List.length_append, List.length_singleton] at hlength
    unfold appendRow at hlength ⊢
    dsimp only at hlength ⊢
    rw [List.length_append, List.length_singleton] at hlength
    rw [Nat.succ.inj hlength]
    exact ⟨rfl, rfl⟩
  refine ⟨⟨hentries, ?_, fun id i ↦ ?_, ?_⟩, hlast.1⟩
  · rw [hlast.1, List.length_append, List.length_singleton, List.range_succ]
    exact h.covs.append_right _
  · rw [hlast.2]
    have hd : (rows ++ [d])[rows.length]? = some d := List.getElem?_concat_length
    by_cases hid : id = d.covenantId
    · subst hid
      rw [InsertionMap.get?_set_self]
      constructor
      · intro hi
        obtain rfl := Option.some.inj hi
        exact ⟨d, hd, rfl⟩
      · rintro ⟨c, hc, heq⟩
        exact congrArg some (hrows.index_eq hd hc heq.symm)
    · rw [InsertionMap.get?_set_ne hid, h.byId]
      constructor
      · rintro ⟨c, hc, heq⟩
        exact ⟨c, (List.getElem?_append_left (List.getElem?_eq_some_iff.mp hc).1).trans hc, heq⟩
      · rintro ⟨c, hc, heq⟩
        rcases Nat.lt_or_ge i rows.length with hlt | hge
        · exact ⟨c, (List.getElem?_append_left hlt).symm.trans hc, heq⟩
        · have hlt := (List.getElem?_eq_some_iff.mp hc).1
          rw [List.length_append, List.length_singleton] at hlt
          obtain rfl : i = rows.length := Nat.le_antisymm (Nat.le_of_lt_succ hlt) hge
          obtain rfl := Option.some.inj (hd.symm.trans hc)
          exact absurd heq.symm hid
  · rw [countNames_append, ← h.nameCounts]
    rfl

/-- The rows of a page, one after the other. -/
theorem Merged.extend (h : Merged clock rows index) {more : List GridRow}
    (hrows : DistinctRows (rows ++ more)) :
    Merged clock (rows ++ more) (more.foldl (appendRow clock) index) ∧
      (more.foldl (appendRow clock) index).covs =
        index.covs ++ List.range' rows.length more.length := by
  induction more generalizing rows index with
  | nil =>
      rw [List.append_nil, List.foldl_nil]
      exact ⟨h, (List.append_nil _).symm⟩
  | cons d more ih =>
      rw [List.append_cons] at hrows ⊢
      have hone : DistinctRows (rows ++ [d]) :=
        hrows.sublist ((List.sublist_append_left _ _).map _)
      obtain ⟨hmerged, hcovs⟩ := h.concat hone
      obtain ⟨hmerged', hcovs'⟩ := ih hmerged hrows
      refine ⟨hmerged', hcovs'.trans ?_⟩
      rw [hcovs, List.length_append, List.length_singleton, List.length_cons, List.range'_succ,
        List.append_assoc]
      rfl

/-! ## The order -/

/-- The index of a rebuild, but for the objects' counter. -/
structure GridIndexed (clock : GridClock) (rows : List GridRow) (index : GridIndex) : Prop extends
    Merged clock rows index where
  sorted : index.covs = builtCovs clock rows

/-- Rows as the worker serves them. -/
def LatestFirst (rows : List GridRow) : Prop :=
  rows.Pairwise fun c c' ↦ c'.lastActivityDaa ≤ c.lastActivityDaa

instance (entries : List IndexEntry) : Std.Total (LaterFirst entries) :=
  ⟨fun i j ↦ Nat.le_total (activityAt entries j) (activityAt entries i)⟩

instance (entries : List IndexEntry) : IsTrans Nat (LaterFirst entries) :=
  ⟨fun _ _ _ hij hjk ↦ Nat.le_trans hjk hij⟩

theorem activityAt_builtEntries (rows : List GridRow) (i : Nat) :
    activityAt (builtEntries clock rows) i = (rows[i]?.map (·.lastActivityDaa)).getD 0 := by
  rw [activityAt, getElem?_builtEntries, Option.map_map]
  rfl

theorem gridIndexed_buildIndex (clock : GridClock) (hrows : DistinctRows rows) :
    GridIndexed clock rows (buildIndex clock rows) :=
  ⟨merged_buildIndex clock hrows, by rw [buildIndex_eq]⟩

/-- More rows behind do not change the order of those before. -/
theorem builtCovs_append (clock : GridClock) (rows more : List GridRow) : builtCovs clock rows =
    (List.range rows.length).insertionSort (LaterFirst (builtEntries clock (rows ++ more))) := by
  refine insertionSort_congr fun i hi j hj ↦ ?_
  rw [LaterFirst, LaterFirst, activityAt_builtEntries, activityAt_builtEntries,
    activityAt_builtEntries, activityAt_builtEntries,
    List.getElem?_append_left (List.mem_range.mp hi),
    List.getElem?_append_left (List.mem_range.mp hj)]

/-- The refs of a page, in the order of the page. -/
theorem pairwise_page (clock : GridClock) (rows : List GridRow) {more : List GridRow}
    (hmore : LatestFirst more) : (List.range' rows.length more.length).Pairwise
      (LaterFirst (builtEntries clock (rows ++ more))) := by
  have hactivity : ∀ (i : Nat) (hi : i < more.length),
      activityAt (builtEntries clock (rows ++ more)) (rows.length + i) =
        (more[i]).lastActivityDaa := by
    intro i hi
    rw [activityAt_builtEntries, List.getElem?_append_right (Nat.le_add_right _ _),
      Nat.add_sub_cancel_left, List.getElem?_eq_getElem hi]
    rfl
  rw [List.range'_eq_map_range, List.pairwise_map]
  refine List.pairwise_lt_range.imp_of_mem fun {i j} hi hj hij ↦ ?_
  have hi := List.mem_range.mp hi
  have hj := List.mem_range.mp hj
  rw [LaterFirst, hactivity i hi, hactivity j hj]
  exact List.pairwise_iff_getElem.mp hmore i j hi hj hij

/-- Where the boundary is in order, so is the whole. -/
theorem pairwise_boundary {rows more : List GridRow} (hmore : LatestFirst more)
    (hboundary : 0 < rows.length → more ≠ [] → LaterFirst (builtEntries clock (rows ++ more))
      ((builtCovs clock rows).getD (rows.length - 1) 0) rows.length) :
    (builtCovs clock rows ++ List.range' rows.length more.length).Pairwise
      (LaterFirst (builtEntries clock (rows ++ more))) := by
  have hpage := pairwise_page clock rows hmore
  have hfront : (builtCovs clock rows).Pairwise
      (LaterFirst (builtEntries clock (rows ++ more))) := by
    rw [builtCovs_append clock rows more]
    exact List.pairwise_insertionSort _ _
  have hlength : (builtCovs clock rows).length = rows.length :=
    (builtCovs_perm clock rows).length_eq.trans List.length_range
  refine List.pairwise_append.mpr ⟨hfront, hpage, fun i hi j hj ↦ ?_⟩
  obtain ⟨a, ha, rfl⟩ := List.getElem_of_mem hi
  obtain ⟨b, hb, rfl⟩ := List.getElem_of_mem hj
  rw [List.length_range'] at hb
  -- through the last before the boundary and the first behind it
  have hpos : 0 < rows.length := by omega
  have hlast : rows.length - 1 < (builtCovs clock rows).length := by omega
  have hcross := hboundary hpos (List.ne_nil_of_length_pos (by omega))
  rw [List.getD_eq_getElem _ _ hlast] at hcross
  have hbefore : LaterFirst (builtEntries clock (rows ++ more)) ((builtCovs clock rows)[a])
      ((builtCovs clock rows)[rows.length - 1]) := by
    rcases Nat.lt_or_ge a (rows.length - 1) with hlt | hge
    · exact List.pairwise_iff_getElem.mp hfront a _ ha hlast hlt
    · obtain rfl : a = rows.length - 1 := by omega
      exact Nat.le_refl _
  have hbehind : LaterFirst (builtEntries clock (rows ++ more)) rows.length
      ((List.range' rows.length more.length)[b]) := by
    rcases Nat.eq_zero_or_pos b with rfl | hb0
    · rw [List.getElem_range']
      exact Nat.le_refl _
    · have hfirst := List.pairwise_iff_getElem.mp hpage 0 b
        (by rw [List.length_range']; omega) (by rw [List.length_range']; exact hb) hb0
      rw [List.getElem_range'] at hfirst
      exact hfirst
  exact Nat.le_trans hbehind (Nat.le_trans hcross hbefore)

/-- **A page more.**  Where the boundary is in order the page stays behind, and where it is not
one sort puts the whole in order. -/
theorem GridIndexed.append (h : GridIndexed clock rows index) {more : List GridRow}
    (hrows : DistinctRows (rows ++ more)) (hmore : LatestFirst more) :
    GridIndexed clock (rows ++ more) (appendToIndex clock index more) := by
  obtain ⟨hmerged, hcovs⟩ := h.extend hrows
  rw [h.sorted] at hcovs
  unfold appendToIndex
  dsimp only
  set merged := more.foldl (appendRow clock) index with hdef
  have hwhole : builtCovs clock (rows ++ more) = (List.range rows.length ++
      List.range' rows.length more.length).insertionSort
        (LaterFirst (builtEntries clock (rows ++ more))) := by
    rw [builtCovs, List.length_append, List.range_add, ← List.range'_eq_map_range]
  split
  next hguard =>
      refine ⟨⟨hmerged.entries, ?_, hmerged.byId, hmerged.nameCounts⟩, ?_⟩
      · exact (List.perm_insertionSort _ _).trans hmerged.covs
      · dsimp only
        rw [hcovs, hmerged.entries, builtCovs_append clock rows more, insertionSort_append, hwhole]
  next hguard =>
      refine ⟨hmerged, ?_⟩
      have hlength : (builtCovs clock rows).length = rows.length :=
        (builtCovs_perm clock rows).length_eq.trans List.length_range
      have hat : merged.covs.length - more.length = rows.length := by
        rw [hcovs, List.length_append, List.length_range', hlength, Nat.add_sub_cancel]
      rw [hwhole, insertionSort_append_eq, ← builtCovs_append, hcovs]
      rw [← builtCovs_append]
      refine pairwise_boundary hmore fun hpos hne ↦ ?_
      rw [hat, hmerged.entries] at hguard
      have hbound := Nat.le_of_not_lt fun hlt ↦ hguard ⟨hpos, hne, hlt⟩
      have hlast : rows.length - 1 < (builtCovs clock rows).length := by omega
      have hsome : 0 < more.length := List.length_pos_iff.mpr hne
      have hfirst : merged.covs.getD rows.length 0 = rows.length := by
        rw [hcovs, List.getD_append_right _ _ _ _ (Nat.le_of_eq hlength), hlength, Nat.sub_self,
          List.getD_eq_getElem _ _ (by rw [List.length_range']; exact hsome), List.getElem_range']
        rfl
      rw [hfirst, hcovs, List.getD_append _ _ _ _ hlast] at hbound
      exact hbound

/-- The index that a rebuild gives: the same objects in the same order, found by the same ids. -/
structure SameIndex (index built : GridIndex) : Prop where
  entries : index.entries = built.entries
  covs : index.covs = built.covs
  byId : ∀ id, index.byId.get? id = built.byId.get? id
  nameCounts : index.nameCounts = built.nameCounts

theorem GridIndexed.same (h : GridIndexed clock rows index) (hrows : DistinctRows rows) :
    SameIndex index (buildIndex clock rows) := by
  have hbuilt := gridIndexed_buildIndex clock hrows
  refine ⟨h.entries.trans hbuilt.entries.symm, h.sorted.trans hbuilt.sorted.symm, fun id ↦ ?_,
    h.nameCounts.trans hbuilt.nameCounts.symm⟩
  refine Option.ext fun i ↦ ?_
  rw [h.byId, hbuilt.byId]

end Views

/-! ## The pages of the worker -/

/-- What the worker serves is in order, and has every row once. -/
theorem fetchGridPage_rows (served : ServedStore) (clock : GridClock)
    (after : Option (Nat × CovenantId)) (limit : Nat) :
    DistinctRows (fetchGridPage served clock after limit).covenants ∧
      LatestFirst (fetchGridPage served clock after limit).covenants := by
  have hrows : (gridPage served.store after (clamp limit 1 maxPage)).1.Sublist
      ((past CovenantSummary.cursor listedAfter (summaryRows served.store) after).insertionSort
        fun a b ↦ b.listKey ≤ a.listKey) := by
    rw [gridPage, overFetch]
    split
    · exact (List.take_sublist _ _).trans (List.take_sublist _ _)
    · exact List.take_sublist _ _
  have hids : ((summaryRows served.store).map (·.covenantId)).Nodup := by
    rw [summaryRows, List.map_map]
    exact served.keys
  constructor
  · rw [DistinctRows, fetchGridPage, List.map_map]
    refine (((List.perm_insertionSort _ _).map _).nodup_iff.mpr ?_).sublist (hrows.map _)
    exact hids.sublist (List.filter_sublist.map _)
  · refine List.pairwise_map.mpr (List.Pairwise.sublist hrows ?_)
    refine List.Pairwise.imp ?_
      (List.pairwise_insertionSort (fun a b : CovenantSummary ↦ b.listKey ≤ a.listKey) _)
    intro a b hab
    rcases Prod.Lex.le_iff.mp hab with hlt | ⟨heq, -⟩
    · exact Nat.le_of_lt hlt
    · exact Nat.le_of_eq heq

/-- A first page that is not the last is full, and the cursor is that of one of its rows. -/
theorem fetchGridPage_full {served : ServedStore} (clock : GridClock)
    (h : gridPageSize < served.store.covenants.length) :
    (fetchGridPage served clock none gridPageSize).covenants.length = gridPageSize ∧
      (∀ c ∈ (fetchGridPage served clock none gridPageSize).covenants,
        ∃ row ∈ summaryRows served.store, gridRow row = c) ∧
      ∃ last ∈ summaryRows served.store,
        (fetchGridPage served clock none gridPageSize).next = some last.cursor := by
  set rows := listPage served.store none (gridPageSize + 1) with hrows
  have hmem : ∀ c ∈ rows.take gridPageSize, c ∈ summaryRows served.store := by
    intro c hc
    have hlist := List.mem_of_mem_take (List.mem_of_mem_take hc)
    exact (List.mem_filter.mp ((List.perm_insertionSort _ _).mem_iff.mp hlist)).1
  have hlength : rows.length = gridPageSize + 1 := by
    have hpast : past CovenantSummary.cursor listedAfter (summaryRows served.store) none =
        summaryRows served.store := List.filter_eq_self.mpr fun _ _ ↦ rfl
    have hlimit : min (gridPageSize + 1) (2 ^ 63 - 1) = gridPageSize + 1 := by decide
    rw [hrows, listPage, hpast, List.length_take, List.length_insertionSort, summaryRows,
      List.length_map, hlimit]
    exact Nat.min_eq_left h
  have htake : (rows.take gridPageSize).length = gridPageSize := by
    rw [List.length_take, hlength]
    exact Nat.min_eq_left (Nat.le_succ _)
  have hpage : gridPage served.store none (clamp gridPageSize 1 maxPage) =
      (rows.take gridPageSize, (rows.take gridPageSize).getLast?.map fun last ↦
        some last.cursor) := by
    have hclamp : clamp gridPageSize 1 maxPage = gridPageSize := by decide
    rw [hclamp, gridPage, overFetch, ← hrows, if_pos (hlength ▸ Nat.lt_succ_self _)]
  have hne : rows.take gridPageSize ≠ [] := fun hnil ↦ by
    rw [hnil] at htake
    cases htake
  rw [fetchGridPage, hpage]
  refine ⟨(List.length_map _).trans htake, fun c hc ↦ ?_, _, hmem _ (List.getLast_mem hne), ?_⟩
  · obtain ⟨row, hrow, hc⟩ := List.mem_map.mp hc
    exact ⟨row, hmem row hrow, hc⟩
  · dsimp only
    rw [List.getLast?_eq_some_getLast hne]
    rfl

/-- What holds of an entry. -/
structure GridEntry.Law (e : GridEntry) : Prop where
  distinct : DistinctRows e.covenants
  indexed : GridIndexed e.clock e.covenants e.index

section Entry

variable {e : GridEntry}

theorem GridAnswer.law_entry {answer : GridAnswer} (h : DistinctRows answer.covenants) :
    answer.entry.Law := ⟨h, gridIndexed_buildIndex answer.clock h⟩

/-- The rows that are new. -/
theorem GridEntry.Law.fresh_iff (h : e.Law) (c : GridRow) :
    (e.index.byId.get? c.covenantId).isNone ↔ c.covenantId ∉ e.covenants.map (·.covenantId) := by
  rw [Option.isNone_iff_eq_none, Option.eq_none_iff_forall_ne_some]
  constructor
  · intro hnone hmem
    obtain ⟨d, hd, hid⟩ := List.mem_map.mp hmem
    obtain ⟨i, hi⟩ := List.getElem?_of_mem hd
    exact hnone i ((h.indexed.byId _ i).mpr ⟨d, hi, hid⟩)
  · intro hmem i hi
    obtain ⟨d, hd, hid⟩ := (h.indexed.byId _ i).mp hi
    exact hmem (List.mem_map.mpr ⟨d, List.mem_of_getElem? hd, hid⟩)

/-- **An answer is merged.** -/
theorem GridEntry.Law.merge (h : e.Law) {answer : GridAnswer}
    (hrows : DistinctRows answer.covenants) (horder : LatestFirst answer.covenants) :
    (e.merge answer).Law := by
  have hdistinct : DistinctRows (e.covenants ++ answer.covenants.filter fun c ↦
      (e.index.byId.get? c.covenantId).isNone) := by
    rw [DistinctRows, List.map_append]
    refine h.distinct.append (hrows.sublist (List.filter_sublist.map _)) ?_
    intro id hid hfresh
    obtain ⟨c, hc, rfl⟩ := List.mem_map.mp hfresh
    exact (h.fresh_iff c).mp (List.mem_filter.mp hc).2 hid
  exact ⟨hdistinct, h.indexed.append hdistinct (horder.sublist List.filter_sublist)⟩

/-- **One step.** -/
theorem gridStep_law {s : GridState} (h : ∀ e ∈ s.entry, e.Law) (action : GridAction) :
    ∀ e ∈ (gridStep s action).entry, e.Law := by
  intro e he
  cases action with
  | load =>
      rw [gridStep] at he
      split at he
      · exact h e he
      · exact h e he
  | loaded served clock =>
      rw [gridStep] at he
      split at he
      · obtain rfl := Option.some.inj he
        exact GridAnswer.law_entry (fetchGridPage_rows served clock none gridPageSize).1
      · exact h e he
  | unloaded => exact h e he
  | more =>
      obtain ⟨e', he', rfl⟩ := Option.map_eq_some_iff.mp he
      have hlaw := h e' he'
      split
      · exact ⟨hlaw.distinct, hlaw.indexed⟩
      · exact hlaw
  | arrive served clock =>
      obtain ⟨e', he', rfl⟩ := Option.map_eq_some_iff.mp he
      have hlaw := h e' he'
      split
      · obtain ⟨hrows, horder⟩ := fetchGridPage_rows served clock e'.next gridPageSize
        exact hlaw.merge hrows horder
      · exact hlaw
  | fail =>
      obtain ⟨e', he', rfl⟩ := Option.map_eq_some_iff.mp he
      have hlaw := h e' he'
      exact ⟨hlaw.distinct, hlaw.indexed⟩
  | refresh =>
      rw [gridStep] at he
      split at he
      · exact h e he
      · exact h e he
  | refreshed served clock =>
      rw [gridStep] at he
      split at he
      · dsimp only at he
        split at he
        · exact h e he
        · obtain rfl := Option.some.inj he
          exact GridAnswer.law_entry (fetchGridPage_rows served clock none _).1
      · exact h e he
  | unrefreshed => exact h e he
  | retry => cases he

theorem gridRun_law {s : GridState} (h : ∀ e ∈ s.entry, e.Law) (actions : List GridAction) :
    ∀ e ∈ (gridRun s actions).entry, e.Law := by
  induction actions generalizing s with
  | nil => exact h
  | cons action actions ih => exact ih (gridStep_law h action)

/-- Nothing is loaded at first. -/
theorem gridRun_law_start (actions : List GridAction) : ∀ e ∈ (gridRun {} actions).entry, e.Law :=
  gridRun_law (fun _ he ↦ by cases he) actions

end Entry

/-! ## The whole list -/

/-- More is asked for and answered, again and again. -/
def moreRounds (served : ServedStore) (clock : GridClock) (n : Nat) : List GridAction :=
  (List.replicate n [.more, .arrive served clock]).flatten

/-- The list that the worker pages through. -/
def wholeGrid (served : ServedStore) : List GridRow :=
  ((summaryRows served.store).insertionSort fun a b ↦ b.listKey ≤ a.listKey).map gridRow

theorem distinct_wholeGrid (served : ServedStore) : DistinctRows (wholeGrid served) := by
  rw [DistinctRows, wholeGrid, List.map_map]
  refine ((List.perm_insertionSort _ _).map _).nodup_iff.mpr ?_
  have hids : ((summaryRows served.store).map (·.covenantId)).Nodup := by
    rw [summaryRows, List.map_map]
    exact served.keys
  exact hids

section Whole

variable {served : ServedStore} {clock : GridClock} {s : GridState} {e : GridEntry}

theorem gridRun_append (s : GridState) (actions actions' : List GridAction) :
    gridRun s (actions ++ actions') = gridRun (gridRun s actions) actions' :=
  List.foldl_append

/-- An entry that has everything stays as it is. -/
theorem gridRun_rounds_last (hnext : e.next = none) (hidle : e.loadingMore = false) (n : Nat) :
    gridRun { s with entry := some e } (moreRounds served clock n) =
      { s with entry := some e } := by
  induction n with
  | zero => rfl
  | succ n ih =>
      have hround : gridRun { s with entry := some e } [.more, .arrive served clock] =
          { s with entry := some e } := by
        simp [gridRun, gridStep, hnext, hidle]
      rw [moreRounds, List.replicate_succ, List.flatten_cons, gridRun_append, hround]
      exact ih

/-- One round merges the answer. -/
theorem gridRun_round {c : Nat × CovenantId} (hnext : e.next = some c)
    (hidle : e.loadingMore = false) :
    gridRun { s with entry := some e } [.more, .arrive served clock] =
      { s with entry := some (e.merge (fetchGridPage served clock (some c) gridPageSize)) } := by
  simp [gridRun, gridStep, hnext, hidle, GridEntry.merge]

/-- The rows of an answer that are new to the entry are all merged. -/
theorem merge_covenants (h : e.Law) {answer : GridAnswer}
    (hrows : DistinctRows (e.covenants ++ answer.covenants)) :
    (e.merge answer).covenants = e.covenants ++ answer.covenants := by
  refine congrArg (e.covenants ++ ·) (List.filter_eq_self.mpr fun c hc ↦ ?_)
  rw [h.fresh_iff]
  rw [DistinctRows, List.map_append] at hrows
  exact fun hmem ↦ List.disjoint_of_nodup_append hrows hmem (List.mem_map_of_mem hc)

/-- A cursor that the worker sends is that of a row. -/
theorem gridPage_next {after : Option (Nat × CovenantId)} {n : Nat}
    {next : Option (Nat × CovenantId)} (h : (gridPage served.store after n).2 = some next) :
    ∃ c, next = some c := by
  rw [gridPage, overFetch] at h
  split at h
  · obtain ⟨last, -, rfl⟩ := Option.map_eq_some_iff.mp h
    exact ⟨_, rfl⟩
  · cases h

/-- **The walk of the browser.** -/
theorem gridRun_walk {fuel : Nat} {c : Nat × CovenantId} {rest : List CovenantSummary} (h : e.Law)
    (hnext : e.next = some c) (hidle : e.loadingMore = false)
    (hwalk : walk (fun after n ↦ gridPage served.store after (clamp n 1 maxPage)) fuel
      (fun _ ↦ gridPageSize) (some c) = some rest)
    (hrows : DistinctRows (e.covenants ++ rest.map gridRow)) (n : Nat) (hn : fuel ≤ n) :
    ∃ e', gridRun { s with entry := some e } (moreRounds served clock n) =
        { s with entry := some e' } ∧
      e'.next = none ∧ e'.covenants = e.covenants ++ rest.map gridRow := by
  induction fuel generalizing e c rest n with
  | zero => cases hwalk
  | succ fuel ih =>
      obtain ⟨n, rfl⟩ := Nat.exists_eq_succ_of_ne_zero (Nat.ne_zero_of_lt hn)
      have hle : fuel ≤ n := Nat.le_of_succ_le_succ hn
      set answer := fetchGridPage served clock (some c) gridPageSize with hanswer
      obtain ⟨hdistinct, horder⟩ := fetchGridPage_rows served clock (some c) gridPageSize
      have hmerged := h.merge hdistinct horder
      have hround : gridRun { s with entry := some e } (moreRounds served clock (n + 1)) =
          gridRun { s with entry := some (e.merge answer) } (moreRounds served clock n) := by
        rw [moreRounds, List.replicate_succ, List.flatten_cons, gridRun_append,
          gridRun_round hnext hidle]
        rfl
      rw [hround]
      cases hpage : (gridPage served.store (some c) (clamp gridPageSize 1 maxPage)).2 with
      | none =>
          rw [walk_last hpage] at hwalk
          obtain rfl := Option.some.inj hwalk
          have hnone : (e.merge answer).next = none := congrArg (·.bind id) hpage
          exact ⟨_, gridRun_rounds_last hnone rfl n, hnone, merge_covenants h hrows⟩
      | some next =>
          rw [walk_step hpage] at hwalk
          obtain ⟨later, hlater, rfl⟩ := Option.map_eq_some_iff.mp hwalk
          obtain ⟨c', rfl⟩ := gridPage_next hpage
          rw [List.map_append, ← List.append_assoc] at hrows ⊢
          have hfront : DistinctRows (e.covenants ++ answer.covenants) :=
            hrows.sublist ((List.sublist_append_left _ _).map _)
          have hcovenants := merge_covenants h hfront
          have hsome : (e.merge answer).next = some c' := congrArg (·.bind id) hpage
          obtain ⟨e', hrun, hlast, hwhole⟩ := ih hmerged hsome rfl hlater
            (by rw [hcovenants]; exact hrows) n hle
          refine ⟨e', hrun, hlast, ?_⟩
          rw [hwhole, hcovenants]
          rfl

end Whole

/-- **The pages bring the whole list.**  While the worker's database stands still, asking for more
often enough leaves an entry without a next cursor that has every row of the list, each once and
in its order, under the index of a rebuild. -/
theorem grid_complete (served : ServedStore) (clock : GridClock) :
    ∃ least, ∀ n, least ≤ n → ∃ e,
      (gridRun {} (.load :: .loaded served clock :: moreRounds served clock n)).entry = some e ∧
        e.next = none ∧ e.covenants = wholeGrid served ∧
        SameIndex e.index (buildIndex e.clock e.covenants) := by
  have hactivity : ∀ c ∈ served.store.covenants, c.lastActivityDaa < 2 ^ 63 := fun c hc ↦
    (served.activity c hc).trans (by decide)
  obtain ⟨fuel, hwalk⟩ := gridPage_complete served.keys hactivity
    (fun _ ↦ gridPageSize) fun _ ↦ by decide
  have hwhole := distinct_wholeGrid served
  refine ⟨fuel, fun n hn ↦ ?_⟩
  suffices h : ∃ e, gridRun { entry := some (fetchGridPage served clock none gridPageSize).entry }
      (moreRounds served clock n) = { entry := some e } ∧ e.next = none ∧
        e.covenants = wholeGrid served by
    obtain ⟨e, hrun, hnext, hcovenants⟩ := h
    have hentry : (gridRun {} (.load :: .loaded served clock :: moreRounds served clock n)).entry =
        some e := congrArg GridState.entry hrun
    have hlaw := gridRun_law_start _ e hentry
    exact ⟨e, hentry, hnext, hcovenants, hlaw.indexed.same hlaw.distinct⟩
  obtain ⟨hdistinct, -⟩ := fetchGridPage_rows served clock none gridPageSize
  have hlaw := GridAnswer.law_entry hdistinct
  cases fuel with
  | zero => cases hwalk
  | succ fuel =>
      cases hpage : (gridPage served.store none (clamp gridPageSize 1 maxPage)).2 with
      | none =>
          rw [walk_last hpage] at hwalk
          have hnone : (fetchGridPage served clock none gridPageSize).entry.next = none :=
            congrArg (·.bind id) hpage
          refine ⟨_, gridRun_rounds_last (s := {}) hnone rfl n, hnone, ?_⟩
          exact congrArg (List.map gridRow) (Option.some.inj hwalk)
      | some next =>
          rw [walk_step hpage] at hwalk
          obtain ⟨later, hlater, hsplit⟩ := Option.map_eq_some_iff.mp hwalk
          obtain ⟨c, rfl⟩ := gridPage_next hpage
          have hsome : (fetchGridPage served clock none gridPageSize).entry.next = some c :=
            congrArg (·.bind id) hpage
          have hrows : (fetchGridPage served clock none gridPageSize).entry.covenants ++
              later.map gridRow = wholeGrid served := by
            rw [wholeGrid, ← hsplit, List.map_append]
            rfl
          obtain ⟨e, hrun, hnext, hcovenants⟩ := gridRun_walk (s := {}) hlaw hsome rfl hlater
            (hrows ▸ hwhole) n (Nat.le_of_succ_le hn)
          exact ⟨e, hrun, hnext, hcovenants.trans hrows⟩

/-- **The index is the one of a rebuild.**  Whatever is asked for, answered, failed and dropped, in
whatever order and from whatever states of the worker's database, the index of the entry is the
one that `buildIndex` makes of the rows it has. -/
theorem grid_index_exact (actions : List GridAction) {e : GridEntry}
    (h : (gridRun {} actions).entry = some e) :
    SameIndex e.index (buildIndex e.clock e.covenants) := by
  have hlaw := gridRun_law_start actions e h
  exact hlaw.indexed.same hlaw.distinct

/-- A coin without events but its own birth. -/
def sampleBirth (id : CovenantId) (daa : Nat) : CovenantRow where
  covenantId := id
  genesisTxid := none
  genesisDaa := some daa
  lineageComplete := true
  eventCount := 1
  lastActivityDaa := daa

/-- Two coins of one name. -/
def sampleServed : ServedStore where
  store := { Store.fresh ⟨0⟩ with covenants := [sampleBirth ⟨1⟩ 5, sampleBirth ⟨2⟩ 7] }
  keys := by decide
  activity := by decide

/-- The coins from the hundredth on. -/
def crowd (n : Nat) : List CovenantRow :=
  (List.range n).map fun i ↦ sampleBirth ⟨BitVec.ofNat 256 (100 + i)⟩ (100 + i)

theorem crowd_bounds {n : Nat} (hn : n < 2 ^ 32) {c : CovenantRow} (hc : c ∈ crowd n) :
    100 ≤ c.lastActivityDaa ∧ c.lastActivityDaa < 2 ^ 53 ∧
      c.covenantId.bytes.toNat = c.lastActivityDaa := by
  obtain ⟨i, hi, rfl⟩ := List.mem_map.mp hc
  rw [List.mem_range] at hi
  have hlt : 100 + i < 2 ^ 53 := by omega
  exact ⟨Nat.le_add_right _ _, hlt, Nat.mod_eq_of_lt (hlt.trans (by decide))⟩

/-- A database of enough coins for two pages. -/
def crowdServed (n : Nat) (hn : n < 2 ^ 32) : ServedStore where
  store := { Store.fresh ⟨0⟩ with covenants := crowd n }
  keys := by
    have hdaa : (crowd n).map (·.lastActivityDaa) = (List.range n).map (100 + ·) := List.map_map
    have hids : ((crowd n).map (·.covenantId)).map (·.bytes.toNat) =
        (crowd n).map (·.lastActivityDaa) := by
      rw [List.map_map]
      exact List.map_congr_left fun c hc ↦ (crowd_bounds hn hc).2.2
    refine List.Nodup.of_map (·.bytes.toNat) ?_
    rw [hids, hdaa]
    exact List.nodup_range.map fun i j h ↦ Nat.add_left_cancel h
  activity := fun c hc ↦ (crowd_bounds hn hc).2.1

/-- Every coin of the crowd is later than the two, and has a greater id. -/
theorem crowdServed_rows {n : Nat} {hn : n < 2 ^ 32} {c : CovenantSummary}
    (hc : c ∈ summaryRows (crowdServed n hn).store) :
    100 ≤ c.lastActivityDaa ∧ 100 ≤ c.covenantId.bytes.toNat := by
  obtain ⟨row, hrow, rfl⟩ := List.mem_map.mp hc
  obtain ⟨hlate, -, hid⟩ := crowd_bounds hn hrow
  exact ⟨hlate, hlate.trans hid.ge⟩

/-- Behind any later coin, both coins come. -/
theorem sampleServed_page (clock : GridClock) {after : Nat × CovenantId} (h : 100 ≤ after.1) :
    (fetchGridPage sampleServed clock (some after) gridPageSize).covenants =
      (fetchGridPage sampleServed clock none gridPageSize).covenants := by
  have hpast : past CovenantSummary.cursor listedAfter (summaryRows sampleServed.store)
      (some after) =
      past CovenantSummary.cursor listedAfter (summaryRows sampleServed.store) none := by
    refine List.filter_congr fun c hc ↦ decide_eq_true (.inl ?_)
    have hearly : ∀ c ∈ summaryRows sampleServed.store, c.lastActivityDaa < 100 := by decide
    exact Nat.lt_of_lt_of_le (hearly c hc) (Nat.le_min.mpr ⟨h, by decide⟩)
  have hlist : listPage sampleServed.store (some after) = listPage sampleServed.store none := by
    funext n
    rw [listPage, listPage, hpast]
  rw [fetchGridPage, fetchGridPage, gridPage, gridPage, hlist]

/-- A first page, a refresh that fails, and meanwhile more rows, from a database that has
changed. -/
def sampleGrid (served : ServedStore) : List GridAction :=
  [.load, .loaded served ⟨0, 0, 1⟩, .refresh, .more, .arrive sampleServed ⟨9, 900, 2⟩,
    .unrefreshed]

/-- Two coins are merged behind a full page. -/
theorem sampleGrid_merge {n : Nat} (hn : n < 2 ^ 32) (h : gridPageSize < n) :
    ∃ e, (gridRun {} (sampleGrid (crowdServed n hn))).entry = some e ∧
      e.covenants.length = gridPageSize + 2 ∧
      (e.covenants.map (·.covenantId)).drop gridPageSize = [⟨2⟩, ⟨1⟩] := by
  have hlong : gridPageSize < (crowdServed n hn).store.covenants.length :=
    h.trans_eq ((List.length_map _).trans List.length_range).symm
  obtain ⟨hlength, hrows, last, hlast, hnext⟩ := fetchGridPage_full ⟨0, 0, 1⟩ hlong
  obtain ⟨hdistinct, -⟩ := fetchGridPage_rows (crowdServed n hn) ⟨0, 0, 1⟩ none gridPageSize
  set answer := fetchGridPage (crowdServed n hn) ⟨0, 0, 1⟩ none gridPageSize with hanswer
  set page := fetchGridPage sampleServed ⟨9, 900, 2⟩ (some last.cursor) gridPageSize with hpage
  have hround : gridRun
      { entry := some answer.entry, refreshing := some (gridRefresh (some answer.entry)) }
      [.more, .arrive sampleServed ⟨9, 900, 2⟩] =
      { entry := some (answer.entry.merge page)
        refreshing := some (gridRefresh (some answer.entry)) } :=
    gridRun_round (s := { refreshing := some (gridRefresh (some answer.entry)) }) hnext rfl
  have hrun : (gridRun {} (sampleGrid (crowdServed n hn))).entry =
      some (answer.entry.merge page) := congrArg GridState.entry hround
  have hids : page.covenants.map (·.covenantId) = [⟨2⟩, ⟨1⟩] := by
    rw [hpage, sampleServed_page _ (crowdServed_rows hlast).1]
    decide +kernel
  have hboth : DistinctRows (answer.entry.covenants ++ page.covenants) := by
    rw [DistinctRows, List.map_append, hids]
    refine List.Nodup.append hdistinct (by decide) fun id hid hmem ↦ ?_
    obtain ⟨c, hc, rfl⟩ := List.mem_map.mp hid
    obtain ⟨row, hrow, rfl⟩ := hrows c hc
    have hsmall : ∀ id ∈ [(⟨2⟩ : CovenantId), ⟨1⟩], id.bytes.toNat < 100 := by decide
    exact absurd (crowdServed_rows hrow).2 (Nat.not_le.mpr (hsmall _ hmem))
  have hcovenants := merge_covenants (GridAnswer.law_entry hdistinct) hboth
  refine ⟨_, hrun, ?_, ?_⟩
  · have htwo : page.covenants.length = 2 := by simpa using congrArg List.length hids
    rw [hcovenants, List.length_append, htwo]
    exact congrArg (· + 2) hlength
  · rw [hcovenants, List.map_append, hids]
    exact List.drop_left' ((List.length_map _).trans hlength)

/-- A page merged behind another, under the index of a rebuild. -/
theorem sampleGrid_exact : ∃ e,
    (gridRun {} (sampleGrid (crowdServed 2001 (by decide)))).entry = some e ∧
      e.covenants.length = gridPageSize + 2 ∧
      (e.covenants.map (·.covenantId)).drop gridPageSize = [⟨2⟩, ⟨1⟩] ∧
      SameIndex e.index (buildIndex e.clock e.covenants) := by
  obtain ⟨e, hrun, hlength, hids⟩ := sampleGrid_merge (n := 2001) (by decide) (by decide)
  exact ⟨e, hrun, hlength, hids, grid_index_exact _ hrun⟩

end Kascov
