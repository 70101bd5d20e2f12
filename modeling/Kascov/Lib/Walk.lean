import Mathlib.Tactic.Common
import Mathlib.Data.List.Sort
import Mathlib.Data.Prod.Lex

/-!
# Walking a feed by the cursors it returns

A feed answers a cursor and a page size with rows and, unless the walk ends
there, a next cursor.  A reader chooses a size for each page and follows the
cursors.  The walk is complete when, whatever the sizes, it ends and has read
every row of the feed once, in order.
-/

universe u v w

namespace Walk

variable {σ : Type u} {τ : Type v} {α : Type w}

/-- Following the returned cursors for at most `fuel` pages; `none` if the walk
has not ended by then. -/
def walk (page : σ → Nat → List α × Option σ) : Nat → (Nat → Nat) → σ → Option (List α)
  | 0, _, _ => none
  | fuel + 1, sizes, c =>
      match (page c (sizes 0)).2 with
      | none => some (page c (sizes 0)).1
      | some next =>
          (walk page fuel (fun i ↦ sizes (i + 1)) next).map ((page c (sizes 0)).1 ++ ·)

/-- Whatever the sizes of its pages, the walk from `start` reads `rows` and
ends. -/
def Complete (page : σ → Nat → List α × Option σ) (start : σ) (rows : List α) : Prop :=
  ∀ sizes : Nat → Nat, (∀ i, 1 ≤ sizes i) → ∃ fuel, walk page fuel sizes start = some rows

section Steps

variable {page : σ → Nat → List α × Option σ} {sizes : Nat → Nat} {c : σ}

theorem walk_last {fuel : Nat} (h : (page c (sizes 0)).2 = none) :
    walk page (fuel + 1) sizes c = some (page c (sizes 0)).1 := by
  simp only [walk, h]

theorem walk_step {fuel : Nat} {next : σ} (h : (page c (sizes 0)).2 = some next) :
    walk page (fuel + 1) sizes c =
      (walk page fuel (fun i ↦ sizes (i + 1)) next).map ((page c (sizes 0)).1 ++ ·) := by
  simp only [walk, h]

/-- Two feeds that answer alike, wherever a walk of the one can get, are walked
alike. -/
theorem walk_congr {page' : τ → Nat → List α × Option τ} (f : σ → τ) (good : σ → Prop)
    (h : ∀ c n, good c → 1 ≤ n → (page' (f c) n).1 = (page c n).1 ∧
      (page' (f c) n).2 = (page c n).2.map f)
    (hgood : ∀ c n c', good c → 1 ≤ n → (page c n).2 = some c' → good c')
    (hc : good c) (hsizes : ∀ i, 1 ≤ sizes i) (fuel : Nat) :
    walk page' fuel sizes (f c) = walk page fuel sizes c := by
  induction fuel generalizing sizes c with
  | zero => rfl
  | succ fuel ih =>
      obtain ⟨hrows, hcursor⟩ := h c (sizes 0) hc (hsizes 0)
      cases hnext : (page c (sizes 0)).2 with
      | none =>
          rw [hnext, Option.map_none] at hcursor
          rw [walk_last hnext, walk_last hcursor, hrows]
      | some next =>
          rw [hnext, Option.map_some] at hcursor
          rw [walk_step hnext, walk_step hcursor, hrows,
            ih (hgood c _ next hc (hsizes 0) hnext) fun i ↦ hsizes (i + 1)]

end Steps

/-- What each page owes to the rows still to come. -/
structure Law (page : σ → Nat → List α × Option σ) (rest : σ → List α) (c : σ) (n : Nat) :
    Prop where
  rows : (page c n).1 = (rest c).take n
  last : (page c n).2 = none → (rest c).drop n = []
  next : ∀ c', (page c n).2 = some c' → rest c ≠ [] ∧ rest c' = (rest c).drop n

/-- A feed whose pages keep the law, wherever a walk can get, is read to its
end. -/
theorem complete_of_law (page : σ → Nat → List α × Option σ) (rest : σ → List α)
    (good : σ → Prop) (hlaw : ∀ c n, good c → 1 ≤ n → Law page rest c n)
    (hgood : ∀ c n c', good c → 1 ≤ n → (page c n).2 = some c' → good c') {start : σ}
    (hstart : good start) : Complete page start (rest start) := by
  suffices h : ∀ k c sizes, good c → (∀ i, 1 ≤ sizes i) → (rest c).length ≤ k →
      walk page (k + 1) sizes c = some (rest c) by
    exact fun sizes hsizes ↦ ⟨_, h _ start sizes hstart hsizes le_rfl⟩
  intro k
  induction k with
  | zero =>
      intro c sizes hc hsizes hlen
      have hnil : rest c = [] := List.length_eq_zero_iff.mp (by omega)
      have law := hlaw c (sizes 0) hc (hsizes 0)
      cases hnext : (page c (sizes 0)).2 with
      | none => rw [walk_last hnext, law.rows, hnil, List.take_nil]
      | some next => exact absurd hnil (law.next next hnext).1
  | succ k ih =>
      intro c sizes hc hsizes hlen
      have law := hlaw c (sizes 0) hc (hsizes 0)
      cases hnext : (page c (sizes 0)).2 with
      | none =>
          have hall := List.take_append_drop (sizes 0) (rest c)
          rw [law.last hnext, List.append_nil] at hall
          rw [walk_last hnext, law.rows, hall]
      | some next =>
          obtain ⟨hne, hdrop⟩ := law.next next hnext
          have hshort : (rest next).length ≤ k := by
            have hpos := List.length_pos_iff.mpr hne
            have hone := hsizes 0
            rw [hdrop, List.length_drop]
            omega
          rw [walk_step hnext, ih next _ (hgood c _ next hc (hsizes 0) hnext)
            (fun i ↦ hsizes (i + 1)) hshort, hdrop, law.rows]
          exact congrArg some (List.take_append_drop _ _)

/-- A feed that adjusts the sizes it is asked for is walked like the feed at
the adjusted sizes. -/
theorem walk_resize {page : σ → Nat → List α × Option σ} (f : Nat → Nat) (fuel : Nat)
    (sizes : Nat → Nat) (c : σ) :
    walk (fun c n ↦ page c (f n)) fuel sizes c = walk page fuel (fun i ↦ f (sizes i)) c := by
  induction fuel generalizing sizes c with
  | zero => rfl
  | succ fuel ih => simp only [walk, ih]

theorem Complete.resize {page : σ → Nat → List α × Option σ} {start : σ} {rows : List α}
    (h : Complete page start rows) {f : Nat → Nat} (hf : ∀ n, 1 ≤ n → 1 ≤ f n) :
    Complete (fun c n ↦ page c (f n)) start rows := by
  intro sizes hsizes
  obtain ⟨fuel, hfuel⟩ := h (fun i ↦ f (sizes i)) fun i ↦ hf _ (hsizes i)
  exact ⟨fuel, (walk_resize f fuel sizes start).trans hfuel⟩

theorem complete_congr {page : σ → Nat → List α × Option σ}
    {page' : τ → Nat → List α × Option τ} (f : σ → τ) (good : σ → Prop) {start : σ}
    (h : ∀ c n, good c → 1 ≤ n → (page' (f c) n).1 = (page c n).1 ∧
      (page' (f c) n).2 = (page c n).2.map f)
    (hgood : ∀ c n c', good c → 1 ≤ n → (page c n).2 = some c' → good c')
    (hstart : good start) (rows : List α) :
    Complete page' (f start) rows ↔ Complete page start rows := by
  refine forall₂_congr fun sizes hsizes ↦ exists_congr fun fuel ↦ ?_
  rw [walk_congr f good h hgood hstart hsizes fuel]

/-! ## Feeds with a key -/

/-- A page that reads one row more than asked for, to see whether the walk goes
on; the next cursor is that of the last row served. -/
def overFetch (fetch : Nat → List α) (cursor : α → σ) (n : Nat) : List α × Option σ :=
  if n < (fetch (n + 1)).length then
    ((fetch (n + 1)).take n, ((fetch (n + 1)).take n).getLast?.map cursor)
  else (fetch (n + 1), none)

section Keyed

variable {κ : Type v} (key : α → κ) (r : κ → κ → Prop) [DecidableRel r]

/-- The rows past a cursor. -/
def past (rows : List α) (c : Option κ) : List α :=
  rows.filter fun a ↦ c.all fun k ↦ decide (r k (key a))

/-- The page of an ordered feed. -/
def keyedPage (rows : List α) (c : Option κ) (n : Nat) : List α × Option (Option κ) :=
  overFetch (past key r rows c).take (fun a ↦ some (key a)) n

/-- A cursor a walk can hold: none, or the key of a row it has read. -/
def Reached (rows : List α) (c : Option κ) : Prop :=
  c = none ∨ ∃ pre rest a, rows = pre ++ rest ∧ pre.getLast? = some a ∧ c = some (key a)

variable {key r}

/-- Past the last of an initial segment lies the rest. -/
theorem past_last (key : α → κ) (r : κ → κ → Prop) [DecidableRel r] {pre rest : List α}
    (hasymm : ∀ k k', r k k' → ¬r k' k)
    (h : (pre ++ rest).Pairwise fun a b ↦ r (key a) (key b)) {a : α}
    (hlast : pre.getLast? = some a) : past key r (pre ++ rest) (some (key a)) = rest := by
  obtain ⟨init, rfl⟩ := List.getLast?_eq_some_iff.mp hlast
  obtain ⟨hpre, -, hcross⟩ := List.pairwise_append.mp h
  rw [past, List.filter_append, List.filter_eq_nil_iff.mpr, List.nil_append,
    List.filter_eq_self.mpr]
  · exact fun x hx ↦ decide_eq_true (hcross a (by simp) x hx)
  · intro x hx hr
    have hax : r (key a) (key x) := of_decide_eq_true hr
    rcases List.mem_append.mp hx with hx | hx
    · exact hasymm _ _ hax ((List.pairwise_append.mp hpre).2.2 x hx a (by simp))
    · rw [List.mem_singleton.mp hx] at hax
      exact hasymm _ _ hax hax

theorem past_none (rows : List α) : past key r rows none = rows :=
  List.filter_eq_self.mpr fun _ _ ↦ rfl

/-- What a reached cursor has left behind. -/
theorem Reached.split {rows : List α} (hasymm : ∀ k k', r k k' → ¬r k' k)
    (h : rows.Pairwise fun a b ↦ r (key a) (key b)) {c : Option κ} (hc : Reached key rows c) :
    ∃ pre, rows = pre ++ past key r rows c := by
  rcases hc with rfl | ⟨pre, rest, a, rfl, hlast, rfl⟩
  · exact ⟨[], by rw [past_none, List.nil_append]⟩
  · exact ⟨pre, by rw [past_last key r hasymm h hlast]⟩

theorem keyedPage_eq (rows : List α) (c : Option κ) (n : Nat) :
    keyedPage key r rows c n =
      if (past key r rows c).length ≤ n then (past key r rows c, none)
      else ((past key r rows c).take n,
        ((past key r rows c).take n).getLast?.map fun a ↦ some (key a)) := by
  rw [keyedPage, overFetch, List.length_take]
  by_cases hlen : (past key r rows c).length ≤ n
  · rw [if_pos hlen, if_neg (by omega), List.take_of_length_le (by omega)]
  · rw [if_neg hlen, if_pos (by omega), List.take_take, min_eq_left (Nat.le_succ n)]

/-- Past the last row of what is served from a reached cursor lies the rest. -/
theorem Reached.next {rows : List α} (hasymm : ∀ k k', r k k' → ¬r k' k)
    (h : rows.Pairwise fun a b ↦ r (key a) (key b)) {c : Option κ} {n : Nat}
    (hc : Reached key rows c) {a : α} (hlast : ((past key r rows c).take n).getLast? = some a) :
    Reached key rows (some (key a)) ∧ past key r rows c ≠ [] ∧
      past key r rows (some (key a)) = (past key r rows c).drop n := by
  obtain ⟨pre, hpre⟩ := hc.split hasymm h
  have hsplit : rows = (pre ++ (past key r rows c).take n) ++ (past key r rows c).drop n := by
    rw [List.append_assoc, List.take_append_drop]
    exact hpre
  have hlast' : (pre ++ (past key r rows c).take n).getLast? = some a := by
    rw [List.getLast?_append, hlast]
    rfl
  refine ⟨.inr ⟨_, _, a, hsplit, hlast', rfl⟩, ?_, ?_⟩
  · intro hnil
    rw [hnil, List.take_nil] at hlast
    cases hlast
  · have hpast := past_last key r hasymm (hsplit ▸ h) hlast'
    rwa [← hsplit] at hpast

/-- The next cursor is past exactly the rows served. -/
theorem keyedPage_next {rows : List α} (hasymm : ∀ k k', r k k' → ¬r k' k)
    (h : rows.Pairwise fun a b ↦ r (key a) (key b)) {c c' : Option κ} {n : Nat}
    (hc : Reached key rows c) (hnext : (keyedPage key r rows c n).2 = some c') :
    Reached key rows c' ∧ past key r rows c ≠ [] ∧
      past key r rows c' = (past key r rows c).drop n := by
  rw [keyedPage_eq] at hnext
  by_cases hlen : (past key r rows c).length ≤ n
  · rw [if_pos hlen] at hnext
    cases hnext
  · rw [if_neg hlen, Option.map_eq_some_iff] at hnext
    obtain ⟨a, hlast, rfl⟩ := hnext
    exact hc.next hasymm h hlast

/-- An ordered feed is read to its end. -/
theorem keyedPage_complete {rows : List α} (hasymm : ∀ k k', r k k' → ¬r k' k)
    (h : rows.Pairwise fun a b ↦ r (key a) (key b)) :
    Complete (keyedPage key r rows) none rows := by
  suffices hall : Complete (keyedPage key r rows) none (past key r rows none) by
    rwa [past_none] at hall
  refine complete_of_law (keyedPage key r rows) (past key r rows) (Reached key rows) ?_ ?_
    (.inl rfl)
  · intro c n hc hn
    constructor
    · rw [keyedPage_eq]
      by_cases hlen : (past key r rows c).length ≤ n
      · rw [if_pos hlen, List.take_of_length_le hlen]
      · rw [if_neg hlen]
    · intro hnone
      rw [keyedPage_eq] at hnone
      by_cases hlen : (past key r rows c).length ≤ n
      · exact List.drop_eq_nil_of_le hlen
      · rw [if_neg hlen, Option.map_eq_none_iff, List.getLast?_eq_none_iff,
          List.take_eq_nil_iff] at hnone
        rcases hnone with hzero | hnil
        · omega
        · rw [hnil, List.drop_nil]
    · exact fun c' hnext ↦ (keyedPage_next hasymm h hc hnext).2
  · exact fun c n c' hc _ hnext ↦ (keyedPage_next hasymm h hc hnext).1

/-- The page of a reader that goes on until a page is empty; the next cursor is
that of the last row served. -/
def drainPage (key : α → κ) (r : κ → κ → Prop) [DecidableRel r] (rows : List α)
    (c : Option κ) (n : Nat) : List α × Option (Option κ) :=
  ((past key r rows c).take n, ((past key r rows c).take n).getLast?.map fun a ↦ some (key a))

theorem drainPage_next {rows : List α} (hasymm : ∀ k k', r k k' → ¬r k' k)
    (h : rows.Pairwise fun a b ↦ r (key a) (key b)) {c c' : Option κ} {n : Nat}
    (hc : Reached key rows c) (hnext : (drainPage key r rows c n).2 = some c') :
    Reached key rows c' ∧ past key r rows c ≠ [] ∧
      past key r rows c' = (past key r rows c).drop n := by
  obtain ⟨a, hlast, rfl⟩ := Option.map_eq_some_iff.mp hnext
  exact hc.next hasymm h hlast

/-- An ordered feed is read to its end by a reader that stops at an empty page. -/
theorem drainPage_complete {rows : List α} (hasymm : ∀ k k', r k k' → ¬r k' k)
    (h : rows.Pairwise fun a b ↦ r (key a) (key b)) :
    Complete (drainPage key r rows) none rows := by
  suffices hall : Complete (drainPage key r rows) none (past key r rows none) by
    rwa [past_none] at hall
  refine complete_of_law (drainPage key r rows) (past key r rows) (Reached key rows) ?_ ?_
    (.inl rfl)
  · intro c n hc hn
    refine ⟨rfl, fun hnone ↦ ?_, fun c' hnext ↦ (drainPage_next hasymm h hc hnext).2⟩
    rw [drainPage, Option.map_eq_none_iff, List.getLast?_eq_none_iff,
      List.take_eq_nil_iff] at hnone
    rcases hnone with hzero | hnil
    · omega
    · rw [hnil, List.drop_nil]
  · exact fun c n c' hc _ hnext ↦ (drainPage_next hasymm h hc hnext).1

/-! ### Sorting at each page

The pages of a table are selected and then sorted, page by page; the feed is
the whole table, sorted. -/

variable {le : α → α → Prop} [DecidableRel le]

theorem pairwise_sorted (htotal : ∀ a b, le a b ∨ le b a)
    (htrans : ∀ a b c, le a b → le b c → le a c) (rows : List α) :
    (rows.insertionSort le).Pairwise le :=
  have : Std.Total le := ⟨htotal⟩
  have : IsTrans α le := ⟨htrans⟩
  List.pairwise_insertionSort le rows

/-- Sorting and selecting commute where the order tells the rows apart. -/
theorem filter_sorted (htotal : ∀ a b, le a b ∨ le b a)
    (htrans : ∀ a b c, le a b → le b c → le a c) {rows : List α}
    (hanti : ∀ a ∈ rows, ∀ b ∈ rows, le a b → le b a → a = b) (p : α → Bool) :
    (rows.filter p).insertionSort le = (rows.insertionSort le).filter p := by
  have hperm := (List.perm_insertionSort le (rows.filter p)).trans
    ((List.perm_insertionSort le rows).symm.filter p)
  refine hperm.eq_of_pairwise (fun a b ha hb hab hba ↦ ?_)
    (pairwise_sorted htotal htrans _) ((pairwise_sorted htotal htrans _).filter p)
  have ha' := (List.mem_filter.mp ((List.mem_insertionSort le).mp ha)).1
  have hb' := (List.mem_insertionSort le).mp (List.mem_filter.mp hb).1
  exact hanti a ha' b hb' hab hba

/-- A table whose pages are sorted by an order that its key refines is read to
its end. -/
theorem sortedPage_complete {rows : List α} (htotal : ∀ a b, le a b ∨ le b a)
    (htrans : ∀ a b c, le a b → le b c → le a c) (hasymm : ∀ k k', r k k' → ¬r k' k)
    (hnodup : rows.Nodup)
    (hstrict : ∀ a ∈ rows, ∀ b ∈ rows, a ≠ b → le a b → r (key a) (key b)) :
    Complete (fun c ↦ overFetch ((past key r rows c).insertionSort le).take
      fun a ↦ some (key a)) none (rows.insertionSort le) := by
  have hanti : ∀ a ∈ rows, ∀ b ∈ rows, le a b → le b a → a = b := by
    intro a ha b hb hab hba
    by_contra hne
    exact hasymm _ _ (hstrict a ha b hb hne hab) (hstrict b hb a ha (Ne.symm hne) hba)
  have hpage : ∀ c, (past key r rows c).insertionSort le = past key r (rows.insertionSort le) c :=
    fun c ↦ filter_sorted htotal htrans hanti _
  simp only [hpage]
  refine keyedPage_complete hasymm ?_
  have hmem : ∀ {a}, a ∈ rows.insertionSort le → a ∈ rows := (List.mem_insertionSort le).mp
  have hne : (rows.insertionSort le).Pairwise (· ≠ ·) :=
    (List.perm_insertionSort le rows).nodup_iff.mpr hnodup
  exact ((pairwise_sorted htotal htrans rows).and hne).imp_of_mem fun ha hb h ↦
    hstrict _ (hmem ha) _ (hmem hb) h.2 h.1

theorem filter_ordered {ω : Type*} [LinearOrder ω] (k : α → ω)
    (hle : ∀ a b, le a b ↔ k a ≤ k b) {rows : List α}
    (hinj : ∀ a ∈ rows, ∀ b ∈ rows, k a = k b → a = b) (p : α → Bool) :
    (rows.filter p).insertionSort le = (rows.insertionSort le).filter p := by
  refine filter_sorted ?_ ?_ ?_ p
  · intro a b
    rw [hle, hle]
    exact le_total (k a) (k b)
  · intro a b c hab hbc
    rw [hle] at hab hbc ⊢
    exact hab.trans hbc
  · intro a ha b hb hab hba
    exact hinj a ha b hb (le_antisymm ((hle a b).mp hab) ((hle b a).mp hba))

/-- The same, sorted by values of a linear order that tell the rows apart. -/
theorem orderedPage_complete {ω : Type*} [LinearOrder ω] {rows : List α} (k : α → ω)
    (hle : ∀ a b, le a b ↔ k a ≤ k b) (hasymm : ∀ k k', r k k' → ¬r k' k)
    (hnodup : rows.Nodup) (hinj : ∀ a ∈ rows, ∀ b ∈ rows, k a = k b → a = b)
    (hstrict : ∀ a ∈ rows, ∀ b ∈ rows, k a < k b → r (key a) (key b)) :
    Complete (fun c ↦ overFetch ((past key r rows c).insertionSort le).take
      fun a ↦ some (key a)) none (rows.insertionSort le) := by
  refine sortedPage_complete ?_ ?_ hasymm hnodup ?_
  · intro a b
    rw [hle, hle]
    exact le_total (k a) (k b)
  · intro a b c hab hbc
    rw [hle] at hab hbc ⊢
    exact hab.trans hbc
  · intro a ha b hb hne hab
    refine hstrict a ha b hb (lt_of_le_of_ne ((hle a b).mp hab) fun heq ↦ hne ?_)
    exact hinj a ha b hb heq

end Keyed

/-! ## Feeds whose cursor counts into a group

The rows are sorted by a number; a cursor is a number and how many rows of that
number are behind. -/

section Groups

variable (f : α → Nat)

/-- The rows a group cursor has before it. -/
def fromGroup (rows : List α) (c : Nat × Nat) : List α :=
  (rows.filter fun a ↦ c.1 ≤ f a).drop c.2

variable {f}

/-- Past the last row of an initial segment, counted into its group, lies the
rest. -/
theorem fromGroup_last {pre rest : List α} (h : (pre ++ rest).Pairwise fun a b ↦ f a ≤ f b)
    {a : α} (hlast : pre.getLast? = some a) :
    fromGroup f (pre ++ rest) (f a, pre.countP fun b ↦ f b = f a) = rest := by
  obtain ⟨init, rfl⟩ := List.getLast?_eq_some_iff.mp hlast
  obtain ⟨hpre, -, hcross⟩ := List.pairwise_append.mp h
  have hbelow : ∀ b ∈ init ++ [a], f b ≤ f a := by
    intro b hb
    rcases List.mem_append.mp hb with hb | hb
    · exact (List.pairwise_append.mp hpre).2.2 b hb a (by simp)
    · rw [List.mem_singleton.mp hb]
  have hgroup : (init ++ [a]).filter (fun b ↦ f a ≤ f b) =
      (init ++ [a]).filter fun b ↦ f b = f a :=
    List.filter_congr fun b hb ↦ by
      have hle := hbelow b hb
      exact decide_eq_decide.mpr ⟨fun hge ↦ le_antisymm hle hge, fun heq ↦ heq.ge⟩
  have hrest : rest.filter (fun b ↦ f a ≤ f b) = rest :=
    List.filter_eq_self.mpr fun b hb ↦ decide_eq_true (hcross a (by simp) b hb)
  rw [fromGroup, List.filter_append, hgroup, hrest, List.countP_eq_length_filter]
  exact List.drop_left

/-- In sorted rows a group stands before all that is above it. -/
theorem filter_le_eq_append {rows : List α} (h : rows.Pairwise fun a b ↦ f a ≤ f b) (d : Nat) :
    rows.filter (fun a ↦ d ≤ f a) =
      rows.filter (fun a ↦ f a = d) ++ rows.filter fun a ↦ d < f a := by
  induction rows with
  | nil => rfl
  | cons a rows ih =>
      obtain ⟨ha, hrows⟩ := List.pairwise_cons.mp h
      rcases lt_trichotomy (f a) d with hlt | heq | hgt
      · rw [List.filter_cons_of_neg (by simpa using hlt),
          List.filter_cons_of_neg (by simpa using hlt.ne),
          List.filter_cons_of_neg (by simpa using hlt.le), ih hrows]
      · rw [List.filter_cons_of_pos (by simpa using heq.ge),
          List.filter_cons_of_pos (by simpa using heq),
          List.filter_cons_of_neg (by simpa using heq.le), ih hrows, List.cons_append]
      · have hempty : (a :: rows).filter (fun b ↦ f b = d) = [] := by
          refine List.filter_eq_nil_iff.mpr fun b hb ↦ ?_
          rcases List.mem_cons.mp hb with rfl | hb
          · simpa using hgt.ne'
          · simpa using (lt_of_lt_of_le hgt (ha b hb)).ne'
        rw [hempty, List.nil_append]
        refine List.filter_congr fun b hb ↦ ?_
        rcases List.mem_cons.mp hb with rfl | hb
        · exact decide_eq_decide.mpr ⟨fun _ ↦ hgt, fun _ ↦ hgt.le⟩
        · have hb' := lt_of_lt_of_le hgt (ha b hb)
          exact decide_eq_decide.mpr ⟨fun _ ↦ hb', fun _ ↦ hb'.le⟩

variable (f) in
/-- The page of a feed whose cursor counts into a group: the walk ends at the
first page that is not full. -/
def groupPage (rows : List α) (c : Nat × Nat) (n : Nat) : List α × Option (Nat × Nat) :=
  let page := (fromGroup f rows c).take n
  if page.length < n then (page, none)
  else (page, page.getLast?.map fun a ↦
    (f a, (if f a = c.1 then c.2 else 0) + page.countP fun b ↦ f b = f a))

variable (f) in
/-- A group cursor a walk can hold: its group has the rows it counts. -/
def InGroup (rows : List α) (c : Nat × Nat) : Prop := c.2 ≤ rows.countP fun a ↦ f a = c.1

/-- The rows a group cursor counts are the first of its group. -/
theorem InGroup.take_eq {rows : List α} (h : rows.Pairwise fun a b ↦ f a ≤ f b)
    {c : Nat × Nat} (hc : InGroup f rows c) :
    (rows.filter fun a ↦ c.1 ≤ f a).take c.2 =
      (rows.filter fun a ↦ f a = c.1).take c.2 := by
  rw [InGroup, List.countP_eq_length_filter] at hc
  rw [filter_le_eq_append h, List.take_append_of_le_length hc]

/-- The next cursor has exactly the rows served behind it. -/
theorem groupPage_next {rows : List α} (h : rows.Pairwise fun a b ↦ f a ≤ f b)
    {c c' : Nat × Nat} {n : Nat} (hc : InGroup f rows c)
    (hnext : (groupPage f rows c n).2 = some c') :
    InGroup f rows c' ∧ fromGroup f rows c ≠ [] ∧
      fromGroup f rows c' = (fromGroup f rows c).drop n := by
  unfold groupPage at hnext
  dsimp only at hnext
  by_cases hshort : ((fromGroup f rows c).take n).length < n
  · rw [if_pos hshort] at hnext
    cases hnext
  rw [if_neg hshort, Option.map_eq_some_iff] at hnext
  obtain ⟨a, hlast, rfl⟩ := hnext
  have hmem : a ∈ rows ∧ c.1 ≤ f a := by
    have ha := List.mem_of_mem_drop (List.mem_of_mem_take (List.mem_of_getLast? hlast))
    simpa using List.mem_filter.mp ha
  -- the rows behind the next cursor: those counted before, and the page
  have hcount : ((rows.filter fun a ↦ c.1 ≤ f a).take c.2).countP (fun b ↦ f b = f a) =
      if f a = c.1 then c.2 else 0 := by
    have hgroup : ∀ b ∈ (rows.filter fun a ↦ f a = c.1).take c.2, f b = c.1 := by
      intro b hb
      simpa using (List.mem_filter.mp (List.mem_of_mem_take hb)).2
    rw [hc.take_eq h]
    by_cases heq : f a = c.1
    · have hlen : ((rows.filter fun a ↦ f a = c.1).take c.2).length = c.2 := by
        rw [List.length_take, ← List.countP_eq_length_filter]
        exact min_eq_left hc
      rw [if_pos heq, List.countP_eq_length.mpr, hlen]
      exact fun b hb ↦ decide_eq_true ((hgroup b hb).trans heq.symm)
    · rw [if_neg heq, List.countP_eq_zero]
      intro b hb
      have hb' := hgroup b hb
      simp only [decide_eq_true_eq]
      omega
  have hsplit : rows.filter (fun a ↦ c.1 ≤ f a) =
      ((rows.filter fun a ↦ c.1 ≤ f a).take c.2 ++ (fromGroup f rows c).take n) ++
        (fromGroup f rows c).drop n := by
    rw [List.append_assoc, List.take_append_drop]
    exact (List.take_append_drop _ _).symm
  have hpast := fromGroup_last (hsplit ▸ h.filter _) (a := a) (by
    rw [List.getLast?_append, hlast]
    rfl)
  rw [← hsplit, List.countP_append, hcount, fromGroup, List.filter_filter] at hpast
  have hboth : rows.filter (fun b ↦ decide (f a ≤ f b) && decide (c.1 ≤ f b)) =
      rows.filter fun b ↦ f a ≤ f b :=
    List.filter_congr fun b _ ↦ by
      have hle := hmem.2
      by_cases hb : f a ≤ f b
      · simp [hb, hle.trans hb]
      · simp [hb]
  refine ⟨?_, ?_, ?_⟩
  · rw [InGroup, ← hcount, ← List.countP_append]
    have hsub : ((rows.filter fun a ↦ c.1 ≤ f a).take c.2 ++
        (fromGroup f rows c).take n).Sublist (rows.filter fun a ↦ c.1 ≤ f a) := by
      conv_rhs => rw [hsplit]
      exact List.sublist_append_left _ _
    exact (hsub.trans List.filter_sublist).countP_le
  · intro hnil
    rw [hnil, List.take_nil] at hlast
    cases hlast
  · rwa [hboth] at hpast

/-- A feed sorted into groups is read to its end. -/
theorem groupPage_complete {rows : List α} (h : rows.Pairwise fun a b ↦ f a ≤ f b) :
    Complete (groupPage f rows) (0, 0) rows := by
  have hstart : fromGroup f rows (0, 0) = rows := by
    rw [fromGroup, List.drop_zero]
    exact List.filter_eq_self.mpr fun _ _ ↦ decide_eq_true (Nat.zero_le _)
  suffices hall : Complete (groupPage f rows) (0, 0) (fromGroup f rows (0, 0)) by
    rwa [hstart] at hall
  refine complete_of_law (groupPage f rows) (fromGroup f rows) (InGroup f rows) ?_ ?_
    (Nat.zero_le _)
  · intro c n hc hn
    constructor
    · unfold groupPage
      dsimp only
      split <;> rfl
    · intro hnone
      unfold groupPage at hnone
      dsimp only at hnone
      by_cases hshort : ((fromGroup f rows c).take n).length < n
      · rw [List.length_take] at hshort
        exact List.drop_eq_nil_of_le (by omega)
      · rw [if_neg hshort, Option.map_eq_none_iff, List.getLast?_eq_none_iff] at hnone
        rw [hnone, List.length_nil] at hshort
        omega
    · exact fun c' hnext ↦ (groupPage_next h hc hnext).2
  · exact fun c n c' hc _ hnext ↦ (groupPage_next h hc hnext).1

end Groups

/-! ## Feeds whose pages are windows of a longer index

An index of items is paged, and some items have no rows.  A window of one item
more than asked for is read; the walk goes on only if more items with rows came
than were asked for. -/

section Windows

variable {ι : Type u} (rowsOf : ι → List α)

/-- The items of a window that have rows. -/
def filled (items : List ι) : List ι := items.filter fun i ↦ !(rowsOf i).isEmpty

/-- The page of an index from where the walk is in it. -/
def windowPage (items : List ι) (n : Nat) : List α × Option (List ι) :=
  if (filled rowsOf (items.take (n + 1))).length ≤ n then
    ((items.take (n + 1)).flatMap rowsOf, none)
  else ((items.take n).flatMap rowsOf, some (items.drop n))

/-- No item without rows stands before one that has some; save that the very
first may, if only the second has some. -/
def GapFree (items : List ι) : Prop :=
  ∀ pre i post, items = pre ++ i :: post → rowsOf i = [] →
    (∀ x ∈ post, rowsOf x = []) ∨ pre = [] ∧ ∀ x ∈ post.tail, rowsOf x = []

variable {rowsOf}

theorem filled_length_le (rowsOf : ι → List α) (items : List ι) :
    (filled rowsOf items).length ≤ items.length :=
  List.length_filter_le _ _

/-- A window that is not filled has an item without rows. -/
theorem exists_empty_of_filled (rowsOf : ι → List α) {items : List ι}
    (h : (filled rowsOf items).length < items.length) : ∃ i ∈ items, rowsOf i = [] := by
  by_contra hall
  have hself : filled rowsOf items = items := by
    refine List.filter_eq_self.mpr fun i hi ↦ ?_
    have hne : rowsOf i ≠ [] := fun he ↦ hall ⟨i, hi, he⟩
    simpa using hne
  rw [hself] at h
  exact lt_irrefl _ h

theorem flatMap_eq_nil {items : List ι} :
    items.flatMap rowsOf = [] ↔ ∀ x ∈ items, rowsOf x = [] := by
  rw [List.flatMap_eq_nil_iff]

/-- What follows the first page of a gap-free index is gap free, and has rows
only if the walk goes on. -/
theorem GapFree.drop {items : List ι} (h : GapFree rowsOf items) {n : Nat} (hn : 1 ≤ n) :
    GapFree rowsOf (items.drop n) := by
  intro pre i post heq hi
  have hwhole : items = (items.take n ++ pre) ++ i :: post := by
    rw [List.append_assoc, ← heq, List.take_append_drop]
  rcases h _ i post hwhole hi with hpost | ⟨hnil, -⟩
  · exact .inl hpost
  · exfalso
    have hlen : items.drop n ≠ [] := by
      rw [heq]
      simp
    rw [List.append_eq_nil_iff, List.take_eq_nil_iff] at hnil
    rcases hnil.1 with hzero | hempty
    · omega
    · rw [hempty, List.drop_nil] at hlen
      exact hlen rfl

/-- Where the window of a gap-free index is not filled, nothing follows it. -/
theorem GapFree.rest_empty {items : List ι} (h : GapFree rowsOf items) {n : Nat} (hn : 1 ≤ n)
    (hwindow : (filled rowsOf (items.take (n + 1))).length ≤ n) :
    ∀ x ∈ items.drop (n + 1), rowsOf x = [] := by
  by_cases hshort : items.length ≤ n
  · rw [List.drop_eq_nil_of_le (by omega)]
    intro x hx
    cases hx
  · have hlen : (items.take (n + 1)).length = n + 1 := by
      rw [List.length_take]
      omega
    obtain ⟨i, hi, hempty⟩ := exists_empty_of_filled rowsOf
      (by omega : (filled rowsOf (items.take (n + 1))).length < (items.take (n + 1)).length)
    obtain ⟨pre, mid, hsplit⟩ := List.append_of_mem hi
    have hwhole : items = pre ++ i :: (mid ++ items.drop (n + 1)) := by
      rw [← List.cons_append, ← List.append_assoc, ← hsplit, List.take_append_drop]
    rcases h pre i _ hwhole hempty with hpost | ⟨rfl, hpost⟩
    · exact fun x hx ↦ hpost x (List.mem_append_right _ hx)
    · -- the window has a second item, so the tail covers what follows it
      intro x hx
      refine hpost x ?_
      cases mid with
      | nil =>
          rw [hsplit] at hlen
          simp at hlen
          omega
      | cons m mid => exact List.mem_append_right _ hx

theorem windowPage_complete_of_gapFree {items : List ι} (h : GapFree rowsOf items) :
    Complete (windowPage rowsOf) items (items.flatMap rowsOf) := by
  suffices hk : ∀ k items sizes, GapFree rowsOf items → (∀ i, 1 ≤ sizes i) → items.length ≤ k →
      walk (windowPage rowsOf) (k + 1) sizes items = some (items.flatMap rowsOf) by
    exact fun sizes hsizes ↦ ⟨_, hk _ items sizes h hsizes le_rfl⟩
  intro k
  induction k with
  | zero =>
      intro items sizes _ hsizes hlen
      rw [List.length_eq_zero_iff.mp (by omega : items.length = 0)]
      rw [walk_last]
      · simp [windowPage, filled]
      · simp [windowPage, filled]
  | succ k ih =>
      intro items sizes hfree hsizes hlen
      by_cases hwindow : (filled rowsOf (items.take (sizes 0 + 1))).length ≤ sizes 0
      · have hrest := flatMap_eq_nil.mpr (hfree.rest_empty (hsizes 0) hwindow)
        rw [walk_last (by rw [windowPage, if_pos hwindow]), windowPage, if_pos hwindow]
        conv_rhs => rw [← List.take_append_drop (sizes 0 + 1) items, List.flatMap_append, hrest]
        rw [List.append_nil]
      · have hlong : sizes 0 < items.length := by
          have hle := filled_length_le rowsOf (items.take (sizes 0 + 1))
          rw [List.length_take] at hle
          omega
        have hone := hsizes 0
        rw [walk_step (by rw [windowPage, if_neg hwindow]), windowPage, if_neg hwindow,
          ih (items.drop (sizes 0)) _ (hfree.drop hone) (fun i ↦ hsizes (i + 1))
            (by rw [List.length_drop]; omega)]
        show some ((items.take (sizes 0)).flatMap rowsOf ++
          (items.drop (sizes 0)).flatMap rowsOf) = _
        rw [← List.flatMap_append, List.take_append_drop]

/-- A walk by single items finds every gap. -/
theorem gapFree_of_walk_ones {items : List ι} {fuel : Nat}
    (h : walk (windowPage rowsOf) fuel (fun _ ↦ 1) items = some (items.flatMap rowsOf)) :
    GapFree rowsOf items := by
  induction items generalizing fuel with
  | nil =>
      intro pre i post heq
      simp at heq
  | cons x items ih =>
      cases fuel with
      | zero => cases h
      | succ fuel =>
          cases items with
          | nil =>
              intro pre i post heq _
              left
              have hpost : post = [] := by
                have hlen := congrArg List.length heq
                rw [List.length_append, List.length_cons, List.length_cons,
                  List.length_nil] at hlen
                exact List.length_eq_zero_iff.mp (by omega)
              rw [hpost]
              intro y hy
              cases hy
          | cons y items =>
              by_cases hboth : rowsOf x ≠ [] ∧ rowsOf y ≠ []
              · have hpage : windowPage rowsOf (x :: y :: items) 1 =
                    (rowsOf x, some (y :: items)) := by
                  simp [windowPage, filled, hboth.1, hboth.2]
                rw [walk_step (by rw [hpage]), hpage, Option.map_eq_some_iff] at h
                obtain ⟨tail, htail, hrows⟩ := h
                rw [List.flatMap_cons] at hrows
                rw [List.append_cancel_left hrows] at htail
                have hfree := ih htail
                intro pre i post heq hi
                cases pre with
                | nil =>
                    obtain ⟨rfl, -⟩ := List.cons.inj heq
                    exact absurd hi hboth.1
                | cons p pre =>
                    obtain ⟨-, heq⟩ := List.cons.inj heq
                    rcases hfree pre i post heq hi with hpost | ⟨rfl, -⟩
                    · exact .inl hpost
                    · obtain ⟨rfl, -⟩ := List.cons.inj heq
                      exact absurd hi hboth.2
              · have hlen : (filled rowsOf [x, y]).length ≤ 1 := by
                  by_cases hx : rowsOf x = []
                  · rw [filled, List.filter_cons_of_neg (by simp [hx])]
                    exact List.length_filter_le _ [y]
                  · have hy : rowsOf y = [] := by
                      by_contra hy
                      exact hboth ⟨hx, hy⟩
                    simp [filled, hx, hy]
                have hpage : windowPage rowsOf (x :: y :: items) 1 =
                    ([x, y].flatMap rowsOf, none) := by
                  rw [windowPage]
                  exact if_pos hlen
                rw [walk_last (by rw [hpage]), hpage, Option.some.injEq] at h
                have hrest : items.flatMap rowsOf = [] := by
                  have hsplit : (x :: y :: items).flatMap rowsOf =
                      [x, y].flatMap rowsOf ++ items.flatMap rowsOf := by
                    rw [← List.flatMap_append]
                    rfl
                  rw [hsplit] at h
                  exact List.self_eq_append_right.mp h
                have hempty := flatMap_eq_nil.mp hrest
                intro pre i post heq _
                match pre, heq with
                | [], heq =>
                    obtain ⟨-, rfl⟩ := List.cons.inj heq
                    exact .inr ⟨rfl, hempty⟩
                | [_], heq =>
                    obtain ⟨-, heq⟩ := List.cons.inj heq
                    obtain ⟨-, rfl⟩ := List.cons.inj heq
                    exact .inl hempty
                | _ :: _ :: pre, heq =>
                    obtain ⟨-, heq⟩ := List.cons.inj heq
                    obtain ⟨-, rfl⟩ := List.cons.inj heq
                    refine .inl fun z hz ↦ hempty z ?_
                    exact List.mem_append_right _ (List.mem_cons_of_mem _ hz)

/-- A windowed index is read to its end, whatever the sizes, exactly when it has no gap: also
by a feed that adjusts the sizes it is asked for, where it serves a single item on demand. -/
theorem windowPage_resize_complete_iff {items : List ι} {f : Nat → Nat}
    (hf : ∀ n, 1 ≤ n → 1 ≤ f n) (hone : f 1 = 1) :
    Complete (fun items n ↦ windowPage rowsOf items (f n)) items (items.flatMap rowsOf) ↔
      GapFree rowsOf items := by
  constructor
  · intro h
    obtain ⟨fuel, hfuel⟩ := h (fun _ ↦ 1) fun _ ↦ le_rfl
    rw [walk_resize f fuel (fun _ ↦ 1) items, hone] at hfuel
    exact gapFree_of_walk_ones hfuel
  · exact fun h ↦ (windowPage_complete_of_gapFree h).resize hf

end Windows

end Walk
