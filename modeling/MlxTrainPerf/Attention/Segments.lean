import MlxTrainPerf.Data.Packing
/-!
# Packed masks

`attention/segments.py` and the launcher's check on a mask's two buffers. The
kernels read the buffers as `int` and, in two places, as `uint`: `toUInt` is
that conversion, and it moves every negative value past all the others.
-/
open PyList

namespace MlxTrainPerf.Attention

open Packing (PackingError)

/-- `AttentionInputError`, with its text. -/
structure AttentionInputError where
  msg : String
deriving DecidableEq, Repr

def IsInt32 (x : ℤ) : Prop := -2 ^ 31 ≤ x ∧ x < 2 ^ 31

/-- `int` to `uint`. -/
def toUInt (x : ℤ) : ℕ := (x % 2 ^ 32).toNat

/-- A `(B, N)` array of dtype int32, row by row. -/
structure Int32Array where
  b : ℕ
  n : ℕ
  rows : List (List ℤ)
  row_count : rows.length = b
  row_length : ∀ row ∈ rows, row.length = n
  int32 : ∀ row ∈ rows, ∀ x ∈ row, IsInt32 x

/-- A device pointer to a row. -/
def ptr (row : List ℤ) (i : ℕ) : ℤ := row.getD i 0

/-! ## `PackedMask` -/

structure PackedMask where
  segId : Int32Array
  segStart : Int32Array

def PackedMask.validateMsg (name : String) : String :=
  s!"PackedMask.{name} must be non-decreasing along each row: the packed kernels' block-skip bounds " ++
    "(forward/dQ kv_lo, dK/dV segment-end break) assume contiguous ascending segments"

def PackedMask.validate (mask : PackedMask) : Except PackingError Unit :=
  if !mask.segId.rows.all nonDecreasing then .error ⟨validateMsg "seg_id"⟩
  else if !mask.segStart.rows.all nonDecreasing then .error ⟨validateMsg "seg_start"⟩
  else .ok ()

/-- `segment_allowed`, for one row of `seg_id`: key `j` is visible to query `i`. -/
def segmentAllowed (segId : ℕ → ℤ) (i j : ℕ) : Bool := decide (segId i = segId j) && decide (j ≤ i)

/-! ## `_validate_segments` -/

def shapeMsg (name : String) (b n : ℕ) (a : Int32Array) : String :=
  s!"{name} must be (B={b}, N={n}); got ({a.b}, {a.n})"

/-- The dtype check is the type of the arrays. -/
def validateSegments (segId segStart : Option Int32Array) (b n : ℕ) (causal : Bool) :
    Except AttentionInputError Bool :=
  match segId, segStart with
  | none, none => .ok false
  | some id, some start =>
    if !causal then .error ⟨"segments (packed attention) require causal=True"⟩
    else if ¬(id.b = b ∧ id.n = n) then .error ⟨shapeMsg "seg_id" b n id⟩
    else if ¬(start.b = b ∧ start.n = n) then .error ⟨shapeMsg "seg_start" b n start⟩
    else .ok true
  | _, _ => .error ⟨"seg_id and seg_start must be provided together (both or neither)"⟩

/-! ## Sorted rows -/

section Rows
variable {row : List ℤ} {v : ℤ} {i j : ℕ}

theorem toUInt_of_nonneg {x : ℤ} (h : IsInt32 x) (hx : 0 ≤ x) : toUInt x = x.toNat := by
  unfold IsInt32 at h
  unfold toUInt
  rw [Int.emod_eq_of_lt hx (by omega)]

/-- A negative value reads as one past every value that is not. -/
theorem toUInt_of_neg {x : ℤ} (h : IsInt32 x) (hx : x < 0) : (toUInt x : ℤ) = x + 2 ^ 32 := by
  unfold IsInt32 at h
  unfold toUInt
  omega

theorem ptr_int32 (h : ∀ x ∈ row, IsInt32 x) (i : ℕ) : IsInt32 (ptr row i) := by
  unfold ptr
  rcases Nat.lt_or_ge i row.length with hi | hi
  · rw [List.getD_eq_getElem _ _ hi]
    exact h _ (List.getElem_mem hi)
  · rw [List.getD_eq_default _ _ hi]
    exact ⟨by norm_num, by norm_num⟩

theorem ptr_mono (h : row.Pairwise (· ≤ ·)) (hij : i ≤ j) (hj : j < row.length) : ptr row i ≤ ptr row j := by
  unfold ptr
  rw [List.getD_eq_getElem _ _ (hij.trans_lt hj), List.getD_eq_getElem _ _ hj]
  rcases hij.lt_or_eq with hlt | rfl
  · exact List.pairwise_iff_getElem.1 h i j _ hj hlt
  · exact le_refl _

theorem ptr_idxOf (h : v ∈ row) : ptr row (row.idxOf v) = v := by
  have hlt : row.idxOf v < row.length := List.idxOf_lt_length_iff.2 h
  unfold ptr
  rw [List.getD_eq_getElem _ _ hlt, List.getElem_idxOf]

/-- Nothing before the first position of `v` carries `v` or more. -/
theorem idxOf_le_of_le (hsorted : row.Pairwise (· ≤ ·)) (hv : v ∈ row) (h : v ≤ ptr row i) : row.idxOf v ≤ i := by
  by_contra hlt
  have hlt := not_le.1 hlt
  have hin : row.idxOf v < row.length := List.idxOf_lt_length_iff.2 hv
  have hle : ptr row i ≤ v := by
    have := ptr_mono hsorted hlt.le hin
    rwa [ptr_idxOf hv] at this
  have heq : ptr row i = v := le_antisymm hle h
  unfold ptr at heq
  rw [List.getD_eq_getElem _ _ (hlt.trans hin)] at heq
  have hfirst : (row[i] == v) = false := List.not_of_lt_findIdx hlt
  rw [heq, beq_self_eq_true] at hfirst
  cases hfirst

end Rows

end MlxTrainPerf.Attention
