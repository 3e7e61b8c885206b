import Mathlib.Data.List.Enum
import Mathlib.Data.List.Nodup
import Mathlib.Logic.Function.Basic

/-! Cells that are stored into one after the other. -/

namespace NativeLib.Collections

variable {ι α : Type}

/-- The stores of a row, one for each of its places. -/
def rowStores (place : ℕ → ι) (row : List α) (k : ℕ) : List (ι × α) :=
  (row.zipIdx k).map fun x => (place x.2, x.1)

theorem rowStores_append (place : ℕ → ι) (row row' : List α) (k : ℕ) :
    rowStores place (row ++ row') k =
      rowStores place row k ++ rowStores place row' (k + row.length) := by
  rw [rowStores, List.zipIdx_append, List.map_append]
  rfl

theorem map_fst_rowStores (place : ℕ → ι) (row : List α) :
    (rowStores place row 0).map Prod.fst = (List.range row.length).map place := by
  rw [rowStores, List.map_map, List.range_eq_range', ← List.zipIdx_map_snd 0 row, List.map_map]
  rfl

variable [DecidableEq ι] {stores : List (ι × α)} {place : ℕ → ι} {row : List α} {i : ι} {a : α}

/-- The cells after the stores. -/
def stored (cells : ι → α) (stores : List (ι × α)) : ι → α :=
  stores.foldl (fun cells store => Function.update cells store.1 store.2) cells

theorem stored_of_notMem (cells : ι → α) (h : i ∉ stores.map Prod.fst) :
    stored cells stores i = cells i := by
  induction stores generalizing cells with
  | nil => rfl
  | cons store stores ih =>
    rw [List.map_cons, List.mem_cons, not_or] at h
    exact (ih _ h.2).trans (Function.update_of_ne h.1 _ _)

/-- A cell that is stored into only once. -/
theorem stored_of_mem (cells : ι → α) (hnodup : (stores.map Prod.fst).Nodup)
    (h : (i, a) ∈ stores) : stored cells stores i = a := by
  induction stores generalizing cells with
  | nil => exact absurd h List.not_mem_nil
  | cons store stores ih =>
    rw [List.map_cons, List.nodup_cons] at hnodup
    rcases List.mem_cons.mp h with rfl | h
    · exact (stored_of_notMem _ hnodup.1).trans (Function.update_self _ _ _)
    · exact ih _ hnodup.2 h

/-- Once each place has been stored into, in whatever order, the row can be read. -/
theorem map_stored (hplace : Function.Injective place)
    (h : stores.Perm (rowStores place row 0)) (cells : ι → α) :
    (List.range row.length).map (fun k => stored cells stores (place k)) = row := by
  have hkeys : (stores.map Prod.fst).Nodup := by
    rw [(h.map Prod.fst).nodup_iff, map_fst_rowStores]
    exact List.nodup_range.map hplace
  apply List.ext_getElem
  · rw [List.length_map, List.length_range]
  · intro k _ hk
    rw [List.getElem_map, List.getElem_range]
    refine stored_of_mem cells hkeys (h.mem_iff.mpr ?_)
    exact List.mem_map.mpr ⟨(row[k], k), List.mk_mem_zipIdx_iff_getElem?.mpr
      (List.getElem?_eq_getElem hk), rfl⟩

end NativeLib.Collections
