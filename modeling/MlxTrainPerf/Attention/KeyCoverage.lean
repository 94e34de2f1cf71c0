import MlxTrainPerf.Data.PackedRow
import MlxTrainPerf.Attention.Kernel.Tiles
/-!
# The packed early start skips nothing

A packed query block starts its key loop at the segment start of its first row.
On a row of the packer that is at or before every key any of its rows keeps, so
the forward, the dQ kernel and `segment_allowed` keep the same pairs.
-/
open Loops

namespace MlxTrainPerf.Attention.Kernel

open Packing

/-! ## The packed predicate -/

section Predicate
variable {segId : ℕ → ℤ} {n row kk : ℕ}

/-- On a stored row the predicate is `segment_allowed`. -/
theorem keepRow_packed (hrow : row < n) : keepRow packedFlags segId n row kk = segmentAllowed segId row kk := by
  have hclamp : min row (n - 1) = row := by omega
  rw [Bool.eq_iff_iff]
  simp only [keepRow, packedFlags, causalKeep, sameSegment, segmentAllowed, hclamp, Bool.not_true, Bool.false_eq_true,
    if_false, Bool.false_or, Bool.and_eq_true, decide_eq_true_eq, beq_iff_eq]
  exact ⟨fun h => ⟨h.2.symm, h.1⟩, fun h => ⟨h.2, h.1.symm⟩⟩

/-- Causal keys lie below the key loop's upper bound. -/
theorem kept_lt_kvLimit {f : Flags} (hcausal : f.causal = true) (hflip : f.flipCausal = false) {rowBase : ℕ}
    (hrow : row < rowBase + 32) (hkk : kk < n) (hkeep : keepRow f segId n row kk = true) :
    kk < kvLimit f n rowBase := by
  have hle : kk ≤ row := by
    simp only [keepRow, causalKeep, hcausal, hflip, Bool.not_true, Bool.false_eq_true, if_false,
      Bool.and_eq_true] at hkeep
    split at hkeep
    · exact (of_decide_eq_true hkeep.1).le
    · exact of_decide_eq_true hkeep.1
  unfold kvLimit
  rw [if_pos hcausal]
  omega

theorem kvLo_packed (segStart : ℕ → ℤ) (n rowBase : ℕ) :
    kvLo packedFlags segStart n rowBase = toUInt (segStart (min rowBase (n - 1))) / 32 * 32 := rfl

theorem segmentAllowed_iff : segmentAllowed segId row kk = true ↔ segId row = segId kk ∧ kk ≤ row := by
  simp only [segmentAllowed, Bool.and_eq_true, decide_eq_true_eq]

/-- A packed launch keeps what `segment_allowed` keeps, above the row's early start. -/
theorem count_packed {segStart : ℕ → ℤ} {ranges : List (ℕ × ℕ)} {r : ℕ × ℕ} (hranges : Tiles 0 n ranges)
    (hr : r ∈ ranges) (hlo : r.1 ≤ row) (hhi : row < r.2) :
    (queryMajorKept packedFlags segId segStart n ranges).count (row, kk) =
      if kvLo packedFlags segStart n (firstRow r.1 row) ≤ kk ∧ segmentAllowed segId row kk then 1 else 0 := by
  have hrow : row < n := hhi.trans_le (hranges.bounds hr).2.2
  rw [count_queryMajorKept hranges hr hlo hhi fun _ => kept_lt_kvLimit rfl rfl, keepRow_packed hrow]
  refine if_congr (and_congr_right fun _ => and_iff_right_of_imp fun h => ?_) rfl rfl
  exact (segmentAllowed_iff.1 h).2.trans_lt hrow

end Predicate

/-! ## Rows of the packer -/

section Packer
variable {entries : List Entry} {packLen row kk p : ℕ}

theorem ptr_segId (hp : p < packLen) : ptr (layout entries packLen).segId p = owner entries p := by
  simp only [ptr, layout, getD_range_map, if_pos hp]

theorem ptr_segStart (hp : p < packLen) : ptr (layout entries packLen).segStart p = startOf entries (owner entries p) := by
  simp only [ptr, layout, getD_range_map, if_pos hp]

/-- The early start of the block at `rowBase` is at or before every key that a
row from `rowBase` on keeps. -/
theorem kvLo_le_kept {rowBase : ℕ} (hint : packLen < 2 ^ 31) (hrow : row < packLen) (hbase : rowBase ≤ row)
    (hkept : segmentAllowed (ptr (layout entries packLen).segId) row kk = true) :
    kvLo packedFlags (ptr (layout entries packLen).segStart) packLen rowBase ≤ kk := by
  obtain ⟨hseg, hle⟩ := segmentAllowed_iff.1 hkept
  rw [ptr_segId hrow, ptr_segId (hle.trans_lt hrow)] at hseg
  have hseg : owner entries row = owner entries kk := by exact_mod_cast hseg
  have hbaseIn : rowBase < packLen := hbase.trans_lt hrow
  have hclamp : min rowBase (packLen - 1) = rowBase := by omega
  -- The block's first row lies in the row's segment or an earlier one.
  have hstart : startOf entries (owner entries rowBase) ≤ kk :=
    calc startOf entries (owner entries rowBase) ≤ startOf entries (owner entries row) :=
          startOf_mono entries (owner_mono hbase)
      _ = startOf entries (owner entries kk) := by rw [hseg]
      _ ≤ kk := startOf_owner_le entries kk
  have hsmall := startOf_owner_le entries rowBase
  have hint32 : IsInt32 (startOf entries (owner entries rowBase)) := ⟨by omega, by omega⟩
  rw [kvLo_packed, hclamp, ptr_segStart hbaseIn, toUInt_of_nonneg hint32 (by omega), Int.toNat_natCast]
  exact (Nat.div_mul_le_self _ 32).trans hstart

/-- On a row of the packer, every launch keeps what `segment_allowed` keeps. -/
theorem count_packed_layout {ranges : List (ℕ × ℕ)} (hint : packLen < 2 ^ 31) (hranges : Tiles 0 packLen ranges)
    (hrow : row < packLen) :
    (queryMajorKept packedFlags (ptr (layout entries packLen).segId) (ptr (layout entries packLen).segStart) packLen
      ranges).count (row, kk) = if segmentAllowed (ptr (layout entries packLen).segId) row kk then 1 else 0 := by
  obtain ⟨r, hr, hlo, hhi⟩ := hranges.exists_mem (Nat.zero_le row) hrow
  rw [count_packed hranges hr hlo hhi]
  refine if_congr (and_iff_right_of_imp fun h => ?_) rfl rfl
  exact kvLo_le_kept hint hrow (firstRow_le hlo).1 h

end Packer

/-- On every row `build_row` lays out, and for every cut of the query rows, the
packed forward and dQ kernels keep exactly the pairs of `segment_allowed`, each
once. The iterator stores the row as int32, so it is shorter than `2 ^ 31`. -/
theorem packed_key_coverage (entries : List Entry) (packLen : ℕ) (hfit : used entries ≤ packLen + 1)
    (hint : packLen < 2 ^ 31) :
    ∃ r, buildRow entries packLen = .ok r ∧ ∀ ranges, Tiles 0 packLen ranges → ∀ row key, row < packLen →
      (fwdMmaKept packedFlags (ptr r.segId) (ptr r.segStart) packLen ranges).count (row, key) =
          (if segmentAllowed (ptr r.segId) row key then 1 else 0) ∧
        (bwdDqMmaKept packedFlags (ptr r.segId) (ptr r.segStart) packLen ranges).count (row, key) =
          (if segmentAllowed (ptr r.segId) row key then 1 else 0) := by
  refine ⟨_, buildRow_eq hfit, fun ranges hranges row key hrow => ?_⟩
  exact ⟨count_packed_layout hint hranges hrow, count_packed_layout hint hranges hrow⟩

theorem packed_key_coverage_pair :
    ∃ r, buildRow [⟨[5, 6], 0⟩, ⟨[7], 0⟩] 4 = .ok r ∧
      (fwdMmaKept packedFlags (ptr r.segId) (ptr r.segStart) 4 [(0, 4)]).count (3, 2) =
        if segmentAllowed (ptr r.segId) 3 2 then 1 else 0 := by
  obtain ⟨r, hr, hall⟩ := packed_key_coverage [⟨[5, 6], 0⟩, ⟨[7], 0⟩] 4 (by decide) (by decide)
  exact ⟨r, hr, (hall [(0, 4)] (by decide) 3 2 (by decide)).1⟩

end MlxTrainPerf.Attention.Kernel
