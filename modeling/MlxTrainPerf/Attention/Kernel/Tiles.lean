import MlxTrainPerf.Attention.Kernel.Source
/-!
# Tiles cover their blocks

The lanes hold each element of an 8x8 matrix once, so a block visits each of
its 32x32 pairs once. What a query-major body keeps then follows from which
key blocks it walks.
-/
open Loops Simdgroup

namespace MlxTrainPerf.Attention.Kernel

/-! ## Elements of a block -/

theorem blockCells_lt {cell : ℕ × ℕ} (h : cell ∈ blockCells) : cell.1 < 32 ∧ cell.2 < 32 := by
  simp only [blockCells, List.mem_flatMap, List.mem_map, List.mem_range] at h
  obtain ⟨rt, hrt, ct, hct, c, hc, rfl⟩ := h
  have := fragmentCells_lt c hc
  constructor <;> dsimp only <;> omega

/-- A block holds each of its elements once. -/
theorem count_blockCells (i j : ℕ) : blockCells.count (i, j) = if i < 32 ∧ j < 32 then 1 else 0 := by
  have htile : ∀ rt ct, (i, j) ∈ (fragmentCells.map fun cell => (8 * rt + cell.1, 8 * ct + cell.2)) →
      rt = i / 8 ∧ ct = j / 8 := by
    intro rt ct hmem
    obtain ⟨c, hc, heq⟩ := List.mem_map.1 hmem
    have := fragmentCells_lt c hc
    simp only [Prod.mk.injEq] at heq
    omega
  unfold blockCells
  rw [count_flatMap_of_unique (i / 8) List.nodup_range, count_flatMap_of_unique (j / 8) List.nodup_range,
    count_map_shift, count_fragmentCells]
  · simp only [List.mem_range]
    split_ifs <;> omega
  · exact fun ct _ hmem => (htile _ ct hmem).2
  · intro rt _ hmem
    obtain ⟨ct, -, hmem⟩ := List.mem_flatMap.1 hmem
    exact (htile rt ct hmem).1

/-! ## Query-major bodies -/

section QueryMajor
variable {f : Flags} {segId segStart : ℕ → ℤ} {n rowBase kb0 r0 r1 block row kk : ℕ}

theorem count_keptInBlock : (keptInBlock f segId n rowBase kb0).count (row, kk) =
    if (rowBase ≤ row ∧ row < rowBase + 32) ∧ (kb0 ≤ kk ∧ kk < kb0 + 32) ∧ kk < n ∧ keepRow f segId n row kk then 1
    else 0 := by
  unfold keptInBlock keepInBlock
  rw [count_filter_ite, count_map_shift, count_blockCells]
  by_cases hkeep : keepRow f segId n row kk = true
  · simp only [hkeep, Bool.and_true, decide_eq_true_eq, and_true]
    split_ifs <;> omega
  · rw [if_neg (by simp [hkeep]), if_neg (fun h => hkeep h.2.2.2)]

/-- A query block keeps each key once: the keys from its lower bound on that the
predicate keeps, when the upper bound cuts none of them off. -/
theorem count_queryBlockKept
    (hlimit : row < r0 + block * 32 + 32 → kk < n → keepRow f segId n row kk → kk < kvLimit f n (r0 + block * 32)) :
    (queryBlockKept f segId segStart n r0 r1 block).count (row, kk) =
      if (r0 + block * 32 ≤ row ∧ row < r0 + block * 32 + 32 ∧ row - r0 < r1 - r0) ∧
        kvLo f segStart n (r0 + block * 32) ≤ kk ∧ kk < n ∧ keepRow f segId n row kk then 1 else 0 := by
  have hstep : (0 : ℕ) < 32 := by decide
  unfold queryBlockKept kvBlocks
  generalize kvLo f segStart n (r0 + block * 32) = lo
  rw [count_flatMap_of_unique (lo + (kk - lo) / 32 * 32) (nodup_steps hstep)]
  · rw [count_filter_ite, count_keptInBlock]
    by_cases hkeep : kk < n ∧ keepRow f segId n row kk = true
    · have hlim := fun h => hlimit h hkeep.1 hkeep.2
      have hmem := @mem_steps 32 lo (kvLimit f n (r0 + block * 32)) (lo + (kk - lo) / 32 * 32) hstep
      simp only [hkeep, and_true, hmem, decide_eq_true_eq, Nat.add_sub_cancel_left, Nat.dvd_mul_left]
      split_ifs <;> omega
    · have hnot : ∀ {A B : Prop}, ¬(A ∧ B ∧ kk < n ∧ keepRow f segId n row kk = true) := fun h => hkeep h.2.2
      rw [if_neg hnot, if_neg hnot, ite_self, ite_self]
  · intro b hb hmem
    have hpos := List.count_pos_iff.2 (List.mem_filter.1 hmem).1
    rw [count_keptInBlock] at hpos
    split at hpos
    · next h => exact eq_of_block hstep hb h.2.1.1 h.2.1.2
    · exact absurd hpos (lt_irrefl 0)

/-- The first row of the query block that holds `row` in the dispatch from `r0`. -/
def firstRow (r0 row : ℕ) : ℕ := r0 + (row - r0) / 32 * 32

theorem firstRow_le {r0 row : ℕ} (h : r0 ≤ row) : firstRow r0 row ≤ row ∧ row < firstRow r0 row + 32 := by
  unfold firstRow
  omega

/-- A launch keeps, in the one query block that holds a row, each key once. -/
theorem count_queryMajorKept {ranges : List (ℕ × ℕ)} {r : ℕ × ℕ} (hranges : Tiles 0 n ranges) (hr : r ∈ ranges)
    (hlo : r.1 ≤ row) (hhi : row < r.2)
    (hlimit : ∀ rowBase, row < rowBase + 32 → kk < n → keepRow f segId n row kk → kk < kvLimit f n rowBase) :
    (queryMajorKept f segId segStart n ranges).count (row, kk) =
      if kvLo f segStart n (firstRow r.1 row) ≤ kk ∧ kk < n ∧ keepRow f segId n row kk then 1 else 0 := by
  have hin : ∀ (r' : ℕ × ℕ) block, (row, kk) ∈ queryBlockKept f segId segStart n r'.1 r'.2 block →
      r'.1 + block * 32 ≤ row ∧ row < r'.1 + block * 32 + 32 ∧ row - r'.1 < r'.2 - r'.1 := by
    intro r' block hmem
    have hpos := List.count_pos_iff.2 hmem
    rw [count_queryBlockKept (hlimit _)] at hpos
    split at hpos
    · next h => exact h.1
    · exact absurd hpos (lt_irrefl 0)
  unfold queryMajorKept
  rw [count_flatMap_of_unique r hranges.nodup, if_pos hr,
    count_flatMap_of_unique ((row - r.1) / 32) List.nodup_range, count_queryBlockKept (hlimit _)]
  · have hblock : (row - r.1) / 32 ∈ List.range ((r.2 - r.1 + 31) / 32) := by
      rw [List.mem_range]
      omega
    rw [if_pos hblock]
    exact if_congr (and_iff_right (by omega)) rfl rfl
  · intro block _ hmem
    have := hin r block hmem
    omega
  · intro r' hr' hmem
    obtain ⟨block, -, hmem⟩ := List.mem_flatMap.1 hmem
    have := hin r' block hmem
    exact hranges.unique hr' hr (by omega) (by omega) hlo hhi

end QueryMajor

end MlxTrainPerf.Attention.Kernel
