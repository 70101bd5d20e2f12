import Kascov.Store.Effect
import Mathlib.Data.List.Perm.Basic
import Mathlib.Data.List.Nodup

/-!
# Sequence numbers of a covenant's events

`COALESCE(MAX(seq), -1) + 1` is above every sequence of the covenant, so an
inserted event never meets the primary key `(covenant_id, seq)`.
-/

namespace Kascov

/-- The primary key of `covenant_events`. -/
def EventRow.key (row : EventRow) : CovenantId × Int := (row.covenantId, row.seq)

theorem le_foldl_max_seq (rows : List EventRow) (m : Int) :
    m ≤ rows.foldl (fun m row ↦ max m row.seq) m ∧
      ∀ row ∈ rows, row.seq ≤ rows.foldl (fun m row ↦ max m row.seq) m := by
  induction rows generalizing m with
  | nil => simp
  | cons hd tl ih =>
      obtain ⟨hinit, htl⟩ := ih (max m hd.seq)
      rw [List.foldl_cons]
      refine ⟨le_trans (le_max_left _ _) hinit, fun row hrow ↦ ?_⟩
      rcases List.mem_cons.mp hrow with rfl | hrow
      · exact le_trans (le_max_right _ _) hinit
      · exact htl row hrow

theorem seq_lt_nextEventSeq {rows : List EventRow} {row : EventRow} (h : row ∈ rows) :
    row.seq < nextEventSeq rows row.covenantId := by
  have hmem : row ∈ rows.filter (·.covenantId = row.covenantId) := by simp [h]
  have hle := (le_foldl_max_seq (rows.filter (·.covenantId = row.covenantId)) (-1)).2 row hmem
  unfold nextEventSeq
  omega

theorem nextEventSeq_nonneg (rows : List EventRow) (id : CovenantId) :
    0 ≤ nextEventSeq rows id := by
  have hle := (le_foldl_max_seq (rows.filter (·.covenantId = id)) (-1)).1
  unfold nextEventSeq
  omega

theorem numberEvents_keys_nodup (dec : Decoders) (block : AcceptedBlockBatch)
    (events : List NewEvent) (rows : List EventRow) (next : Nat)
    (h : (rows.map (·.key)).Nodup) :
    ((rows ++ (numberEvents dec block rows next events).map (numberedRow dec block)).map
      (·.key)).Nodup := by
  induction events generalizing rows next with
  | nil => simpa [numberEvents] using h
  | cons event rest ih =>
      let row := eventRow dec block event (nextEventSeq rows event.covenantId) next
      have hrow : ((rows ++ [row]).map (·.key)).Nodup := by
        rw [List.map_append, List.nodup_append]
        refine ⟨h, by simp, ?_⟩
        intro a ha b hb heq
        subst heq
        obtain ⟨old, hold, rfl⟩ := List.mem_map.mp ha
        simp only [List.map_cons, List.map_nil, List.mem_singleton, EventRow.key, row,
          eventRow, Prod.mk.injEq] at hb
        obtain ⟨hid, hseq⟩ := hb
        have hlt := seq_lt_nextEventSeq hold
        rw [hid] at hlt
        omega
      have hsplit : rows ++ (numberEvents dec block rows next (event :: rest)).map
          (numberedRow dec block) =
          (rows ++ [row]) ++ (numberEvents dec block (rows ++ [row]) (next + 1) rest).map
            (numberedRow dec block) := by
        simp [numberEvents, numberedRow, row]
      rw [hsplit]
      exact ih (rows ++ [row]) (next + 1) hrow

end Kascov
