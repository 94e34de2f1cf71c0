import MlxTrainPerf.Lib.Loops
/-!
# Python lists

`range` with and without a step, item assignment with its `IndexError`, slice assignment, and numpy's
`diff` along a row. A loop that writes one value over a range of indices is
`fill`; inside the list it replaces exactly that range (`fill_eq`).
-/
namespace PyList

variable {α : Type}

/-- An index outside the list. -/
inductive IndexError
  | outOfRange
deriving DecidableEq, Repr

/-- The `ValueError` of `range()`. -/
inductive RangeError
  | zeroStep
deriving DecidableEq, Repr

/-- `range(lo, hi)`. -/
def pyRange (lo hi : ℤ) : List ℤ := (List.range (hi - lo).toNat).map fun k : ℕ => lo + k

/-- `range(lo, hi, step)`. -/
def pyRangeStep (lo hi step : ℤ) : Except RangeError (List ℤ) :=
  if step = 0 then .error .zeroStep
  else if 0 < step then .ok ((List.range ((hi - lo + step - 1) / step).toNat).map fun k : ℕ => lo + step * k)
  else .ok ((List.range ((lo - hi - step - 1) / -step).toNat).map fun k : ℕ => lo + step * k)

/-- `xs[pos] = x`. A negative index counts from the end. -/
def setItem (xs : List α) (pos : ℤ) (x : α) : Except IndexError (List α) :=
  if 0 ≤ pos ∧ pos < xs.length then .ok (xs.set pos.toNat x)
  else if -(xs.length : ℤ) ≤ pos ∧ pos < 0 then .ok (xs.set (pos + xs.length).toNat x)
  else .error .outOfRange

/-- `for pos in range(lo, hi): xs[pos] = x`. -/
def fill (xs : List α) (lo hi : ℤ) (x : α) : Except IndexError (List α) :=
  (pyRange lo hi).foldlM (fun ys pos => setItem ys pos x) xs

/-- `xs[a:b] = ys`, for `a` and `b` not negative. -/
def setSlice (xs : List α) (a b : ℕ) (ys : List α) : List α := xs.take a ++ ys ++ xs.drop (max a b)

/-- `np.diff` along one row. -/
def diff (xs : List ℤ) : List ℤ := List.zipWith (fun x y => y - x) xs xs.tail

/-- `bool(np.all(np.diff(row) >= 0))`. -/
def nonDecreasing (xs : List ℤ) : Bool := (diff xs).all fun d => decide (0 ≤ d)

/-! ## Stepping over a range -/

@[simp] theorem pyRangeStep_zero (lo hi : ℤ) : pyRangeStep lo hi 0 = .error .zeroStep := if_pos rfl

/-- A negative step does not go up. -/
theorem pyRangeStep_neg {lo hi step : ℤ} (hstep : step < 0) (h : lo ≤ hi) : pyRangeStep lo hi step = .ok [] := by
  have hle : (lo - hi - step - 1) / -step ≤ 0 := by
    have hlt : (lo - hi - step - 1) / -step < 1 := Int.ediv_lt_of_lt_mul (by omega) (by omega)
    omega
  unfold pyRangeStep
  rw [if_neg (by omega), if_neg (by omega), Int.toNat_eq_zero.2 hle]
  rfl

/-- A positive step takes the values of the strided loop. -/
theorem pyRangeStep_nat {lo hi s : ℕ} (hs : 0 < s) (h : lo ≤ hi) :
    pyRangeStep lo hi s = .ok ((Loops.steps s lo hi).map fun x : ℕ => (x : ℤ)) := by
  have htrips : (((hi : ℤ) - lo + s - 1) / s).toNat = (hi - lo + s - 1) / s := by
    have hcast : (hi : ℤ) - lo + s - 1 = ((hi - lo + s - 1 : ℕ) : ℤ) := by omega
    rw [hcast, ← Int.natCast_div, Int.toNat_natCast]
  unfold pyRangeStep Loops.steps
  rw [if_neg (by omega), if_pos (by omega), htrips, List.map_map]
  refine congrArg _ (List.map_congr_left fun k _ => ?_)
  simp

/-! ## Filling a range -/

theorem pyRange_eq_nil {lo hi : ℤ} (h : hi ≤ lo) : pyRange lo hi = [] := by
  simp [pyRange, Int.toNat_eq_zero.2 (show hi - lo ≤ 0 by omega)]

theorem pyRange_eq_cons {lo hi : ℤ} (h : lo < hi) : pyRange lo hi = lo :: pyRange (lo + 1) hi := by
  obtain ⟨m, hm⟩ : ∃ m : ℕ, (hi - lo).toNat = m + 1 := ⟨(hi - lo).toNat - 1, by omega⟩
  have hm' : (hi - (lo + 1)).toNat = m := by omega
  simp only [pyRange, hm, hm', List.range_succ_eq_map, List.map_cons, List.map_map, Nat.cast_zero, add_zero]
  congr 1
  apply List.map_congr_left
  intro k _
  simp only [Function.comp_apply, Nat.cast_succ]
  omega

theorem setItem_nat {xs : List α} {a : ℕ} (h : a < xs.length) (x : α) : setItem xs a x = .ok (xs.set a x) := by
  rw [setItem, if_pos ⟨by omega, by omega⟩, Int.toNat_natCast]

@[simp] theorem fill_empty {lo hi : ℤ} (xs : List α) (x : α) (h : hi ≤ lo) : fill xs lo hi x = .ok xs := by
  rw [fill, pyRange_eq_nil h]
  rfl

/-- Writing `x` over `[a, a + k)` where the list holds `k` entries after its
first `a` replaces exactly those. -/
theorem fill_append (pre : List α) (old post : List α) (x : α) :
    fill (pre ++ old ++ post) pre.length (pre.length + old.length : ℕ) x =
      .ok (pre ++ List.replicate old.length x ++ post) := by
  induction old generalizing pre with
  | nil => simp
  | cons y ys ih =>
    have hstep := ih (pre ++ [x])
    have hset : setItem (pre ++ y :: ys ++ post) (pre.length : ℤ) x = .ok (pre ++ [x] ++ ys ++ post) := by
      rw [setItem_nat (by simp)]
      simp
    rw [fill, pyRange_eq_cons (by simp), List.foldlM_cons, hset]
    rw [fill] at hstep
    simp only [List.length_append, List.length_cons, List.length_nil, Nat.zero_add, Nat.cast_add, Nat.cast_one,
      List.replicate_succ, List.append_assoc, List.cons_append, List.nil_append] at hstep ⊢
    rw [← hstep, add_assoc, add_comm (ys.length : ℤ) 1]
    rfl

/-- A fill inside the list replaces exactly its range. -/
theorem fill_eq {xs : List α} {a b : ℕ} (hab : a ≤ b) (hb : b ≤ xs.length) (x : α) :
    fill xs a b x = .ok (xs.take a ++ List.replicate (b - a) x ++ xs.drop b) := by
  have hsplit : xs = xs.take a ++ (xs.drop a).take (b - a) ++ xs.drop b := by
    have : xs.drop b = (xs.drop a).drop (b - a) := by
      rw [List.drop_drop]
      congr 1
      omega
    rw [this, List.append_assoc, List.take_append_drop, List.take_append_drop]
  have hlen : (xs.take a).length = a := by simp; omega
  have hlen' : ((xs.drop a).take (b - a)).length = b - a := by simp; omega
  have h := fill_append (xs.take a) ((xs.drop a).take (b - a)) (xs.drop b) x
  rw [← hsplit, hlen, hlen', show a + (b - a) = b by omega] at h
  exact h

/-! ## Lists given by position -/

theorem getD_modify (l : List α) (f : α → α) {i j : ℕ} (hj : j < l.length) (d : α) :
    (l.modify i f).getD j d = if i = j then f (l.getD j d) else l.getD j d := by
  rw [List.getD_eq_getElem?_getD, List.getElem?_modify, List.getD_eq_getElem?_getD, List.getElem?_eq_getElem hj]
  split <;> rfl

/-- A fill inside a list given by position changes the positions it covers. -/
theorem fill_range_map {n : ℕ} {lo hi : ℤ} (hlo : 0 ≤ lo) (hhi : hi ≤ n) (f : ℕ → α) (x : α) :
    fill ((List.range n).map f) lo hi x =
      .ok ((List.range n).map fun p : ℕ => if lo ≤ p ∧ (p : ℤ) < hi then x else f p) := by
  rcases le_or_gt hi lo with h | h
  · rw [fill_empty _ _ h]
    refine congrArg _ (List.map_congr_left fun p _ => ?_)
    rw [if_neg (by omega)]
  · obtain ⟨a, rfl⟩ := Int.eq_ofNat_of_zero_le hlo
    obtain ⟨b, rfl⟩ := Int.eq_ofNat_of_zero_le (hlo.trans h.le)
    rw [fill_eq (by omega) (by simpa using hhi)]
    refine congrArg _ (List.ext_getElem (by simp; omega) fun p hp _ => ?_)
    simp only [List.getElem_append, List.getElem_take, List.getElem_map, List.getElem_range, List.getElem_replicate,
      List.getElem_drop, List.length_append, List.length_take, List.length_map, List.length_range,
      List.length_replicate]
    split
    · split
      · rw [if_neg (by omega)]
      · rw [if_pos (by omega)]
    · rw [if_neg (by omega)]
      congr 1
      omega

/-- A slice assignment that keeps the length changes the positions it covers. -/
theorem setSlice_range_map {n a : ℕ} {ys : List α} (h : a + ys.length ≤ n) (f : ℕ → α) (d : α) :
    setSlice ((List.range n).map f) a (a + ys.length) ys =
      (List.range n).map fun p => if a ≤ p ∧ p < a + ys.length then ys.getD (p - a) d else f p := by
  apply List.ext_getElem (by simp [setSlice]; omega)
  intro p hp _
  simp only [setSlice, List.getElem_append, List.getElem_take, List.getElem_map, List.getElem_range,
    List.getElem_drop, List.length_append, List.length_take, List.length_map, List.length_range]
  split
  · split
    · rw [if_neg (by omega)]
    · rw [if_pos (by omega), List.getD_eq_getElem _ _ (by omega)]
      congr 1
      omega
  · rw [if_neg (by omega)]
    congr 1
    omega

/-- The positions of `[0, n)` that lie in `[a, b)`. -/
theorem filter_range (n a b : ℕ) :
    (List.range n).filter (fun p => a ≤ p ∧ p < b) = (List.range (min b n - a)).map (a + ·) := by
  induction n with
  | zero => simp
  | succ n ih =>
    rw [List.range_succ, List.filter_append, ih]
    by_cases h : a ≤ n ∧ n < b
    · rw [show min b (n + 1) - a = (min b n - a) + 1 by omega, List.range_succ, List.map_append]
      simp [h]
      omega
    · rw [show min b (n + 1) - a = min b n - a by omega]
      simp [h]

/-- Where `x` first stands in a list given by position. -/
theorem idxOf_range_map [DecidableEq α] {n a : ℕ} {f : ℕ → α} {x : α} (ha : a ≤ n) (heq : a < n → f a = x)
    (hne : ∀ p < a, f p ≠ x) : ((List.range n).map f).idxOf x = a := by
  rcases Nat.lt_or_ge a n with hlt | hge
  · rw [List.idxOf, List.findIdx_eq (by simpa using hlt)]
    refine ⟨by simp [heq hlt], fun p hp => ?_⟩
    simpa using hne p hp
  · obtain rfl : a = n := by omega
    rw [List.idxOf_eq_length (by simpa using hne)]
    simp

/-! ## Non-decreasing rows -/

theorem nonDecreasing_iff_isChain {xs : List ℤ} : nonDecreasing xs = true ↔ xs.IsChain (· ≤ ·) := by
  induction xs with
  | nil => simp [nonDecreasing, diff]
  | cons x ys ih =>
    cases ys with
    | nil => simp [nonDecreasing, diff]
    | cons y zs =>
      simp only [nonDecreasing, diff, List.tail_cons, List.zipWith_cons_cons, List.all_cons, Bool.and_eq_true,
        decide_eq_true_eq, List.isChain_cons_cons] at ih ⊢
      rw [ih]
      exact and_congr_left fun _ => by omega

/-- The `np.diff` check accepts exactly the sorted rows. -/
theorem nonDecreasing_iff {xs : List ℤ} : nonDecreasing xs = true ↔ xs.Pairwise (· ≤ ·) :=
  nonDecreasing_iff_isChain.trans List.isChain_iff_pairwise

end PyList
