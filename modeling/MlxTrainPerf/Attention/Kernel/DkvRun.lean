import MlxTrainPerf.Attention.Kernel.Tiles
/-!
# What a dK/dV launch accumulates

The events of a launch, brought down to the accumulate steps of each key block
(`accumulates_bwdDkvMma`) and to the count of each (q-head, query, key).
-/
open Loops

namespace MlxTrainPerf.Attention.Kernel

theorem groupSize_pos (heads : Heads) : 0 < heads.groupSize :=
  Nat.div_pos (Nat.le_of_dvd heads.hq_pos heads.hkv_dvd) heads.hkv_pos

theorem nodup_group (heads : Heads) : heads.group.Nodup := List.nodup_range'

theorem group_nonempty (heads : Heads) : ∃ h, h ∈ heads.group := by
  refine ⟨heads.kvh * heads.groupSize, ?_⟩
  have := groupSize_pos heads
  rw [Heads.group, List.mem_range'_1]
  omega

section Run
variable {f : Flags} {segId : ℕ → ℤ} {n qLo qHi keyBase kblock qb0 h i j : ℕ} {heads : Heads} {blocks : List ℕ}

/-! ## Steps of a run -/

/-- The pairs a block of queries keeps for a block of keys. -/
def dkvKept (f : Flags) (segId : ℕ → ℤ) (n qHi keyBase qb0 : ℕ) : List (ℕ × ℕ) :=
  (dkvCells keyBase qb0).filter fun p => keepInRange f segId n qHi p.1 p.2

/-- The accumulate steps of one query block. -/
def dkvOps (f : Flags) (segId : ℕ → ℤ) (n : ℕ) (heads : Heads) (qHi keyBase qb0 : ℕ) : List DkvOp :=
  heads.group.map fun h => ⟨qb0, h, dkvKept f segId n qHi keyBase qb0⟩

theorem accumulates_append (a b : List DkvEvent) : accumulates (a ++ b) = accumulates a ++ accumulates b :=
  List.flatMap_append

theorem accumulates_flatMap {α : Type} (l : List α) (g : α → List DkvEvent) :
    accumulates (l.flatMap g) = l.flatMap fun x => accumulates (g x) := List.flatMap_assoc

theorem accumulates_single (op : DkvOp) : accumulates [.accumulate op] = [op] := rfl

theorem accumulates_elementReads : accumulates (elementReads f n qHi i j) = [] := by
  unfold elementReads
  split <;> rfl

theorem accumulates_dkvBody :
    accumulates (dkvBody f segId n heads qHi keyBase qb0) = dkvOps f segId n heads qHi keyBase qb0 := by
  unfold dkvBody dkvOps
  rw [accumulates_flatMap, List.map_eq_flatMap]
  apply List.flatMap_congr
  intro h _
  have hreads : ((dkvCells keyBase qb0).flatMap fun p => accumulates (elementReads f n qHi p.1 p.2)) = [] :=
    List.flatMap_eq_nil_iff.2 fun p _ => accumulates_elementReads
  rw [accumulates_append, accumulates_flatMap, hreads, List.nil_append, accumulates_single]
  rfl

/-- The query-block loop runs up to its first break. -/
theorem accumulates_queryLoop : accumulates (queryLoop f segId n heads qHi keyBase blocks) =
    (blocks.takeWhile fun b => !segBreaks f segId n keyBase b).flatMap (dkvOps f segId n heads qHi keyBase) := by
  induction blocks with
  | nil => rfl
  | cons b blocks ih =>
    have hread : accumulates (if bounded f then [DkvEvent.readSeg b] else []) = [] := by split <;> rfl
    rw [queryLoop, accumulates_append, hread, List.nil_append, List.takeWhile_cons]
    cases segBreaks f segId n keyBase b with
    | true => rfl
    | false =>
      simp only [Bool.false_eq_true, if_false, Bool.not_false, if_true, List.flatMap_cons]
      rw [accumulates_append, accumulates_dkvBody, ih]

/-- The accumulate steps of a key block in one dispatch. -/
theorem accumulates_bwdDkvMma : accumulates (bwdDkvMma f segId n heads qLo qHi kblock) =
    ((steps 32 (qStart f qLo (kblock * 32)) qHi).takeWhile fun b => !segBreaks f segId n (kblock * 32) b).flatMap
      (dkvOps f segId n heads qHi (kblock * 32)) := by
  have hread : accumulates (if bounded f then [DkvEvent.readSeg (ownerIndex f n (kblock * 32))] else []) = [] := by
    split <;> rfl
  unfold bwdDkvMma
  dsimp only
  rw [accumulates_append, hread, List.nil_append, accumulates_queryLoop]

/-! ## Counting pairs -/

theorem count_dkvKept : (dkvKept f segId n qHi keyBase qb0).count (i, j) =
    if (qb0 ≤ i ∧ i < qb0 + 32) ∧ (keyBase ≤ j ∧ j < keyBase + 32) ∧ i < qHi ∧ keepKey f segId n i j then 1 else 0 := by
  have hswap : dkvCells keyBase qb0 = (blockCells.map fun cell => (keyBase + cell.1, qb0 + cell.2)).map Prod.swap := by
    rw [List.map_map]
    rfl
  have hcount : (dkvCells keyBase qb0).count (i, j) =
      (blockCells.map fun cell => (keyBase + cell.1, qb0 + cell.2)).count (j, i) := by
    rw [hswap]
    exact List.count_map_of_injective _ _ Prod.swap_injective (j, i)
  unfold dkvKept keepInRange
  rw [count_filter_ite, hcount, count_map_shift, count_blockCells]
  by_cases hkeep : keepKey f segId n i j = true
  · simp only [hkeep, Bool.and_true, decide_eq_true_eq, and_true]
    split_ifs <;> omega
  · rw [if_neg (by simp [hkeep]), if_neg (fun h => hkeep h.2.2.2)]

theorem accumulatedPairs_flatMap {α : Type} (l : List α) (g : α → List DkvOp) :
    accumulatedPairs n (l.flatMap g) = l.flatMap fun x => accumulatedPairs n (g x) := List.flatMap_assoc

/-- Each q-head of the group gets the block's stored pairs. -/
theorem count_dkvOps : (accumulatedPairs n (dkvOps f segId n heads qHi keyBase qb0)).count (h, i, j) =
    if h ∈ heads.group ∧ j < n then (dkvKept f segId n qHi keyBase qb0).count (i, j) else 0 := by
  have hflat : accumulatedPairs n (dkvOps f segId n heads qHi keyBase qb0) = heads.group.flatMap fun h =>
      ((dkvKept f segId n qHi keyBase qb0).filter fun p => decide (p.2 < n)).map fun p => (h, p.1, p.2) := by
    unfold accumulatedPairs dkvOps
    rw [List.flatMap_map]
  have hinj : Function.Injective fun p : ℕ × ℕ => (h, p.1, p.2) := by
    rintro ⟨a, b⟩ ⟨a', b'⟩ heq
    simpa using heq
  rw [hflat, count_flatMap_of_unique h (nodup_group heads)]
  · have hmap := List.count_map_of_injective ((dkvKept f segId n qHi keyBase qb0).filter fun p => decide (p.2 < n))
      (fun p : ℕ × ℕ => (h, p.1, p.2)) hinj (i, j)
    rw [hmap, count_filter_ite, ite_and]
    simp only [decide_eq_true_eq]
  · intro h' _ hmem
    obtain ⟨p, -, heq⟩ := List.mem_map.1 hmem
    exact congrArg Prod.fst heq

end Run

end MlxTrainPerf.Attention.Kernel
