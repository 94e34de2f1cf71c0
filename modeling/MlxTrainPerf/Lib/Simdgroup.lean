import MlxTrainPerf.Lib.XReal
import MlxTrainPerf.Lib.Loops
/-!
# Simdgroup matrices

An 8x8 matrix is held by the 32 lanes of a simdgroup, two elements a lane, both
in row `fm` and from column `fn` on. What the lanes hold and the matrix are two
readings of one thing: `laneOf` finds the lane of an element.
-/
open Loops XReal

namespace Simdgroup

/-! ## Lanes -/

/-- The 8x8 matrix row a lane's two elements lie in. -/
def fm (lane : ℕ) : ℕ := 4 * ((lane >>> 4) &&& 1) + 2 * ((lane >>> 2) &&& 1) + ((lane >>> 1) &&& 1)

/-- The 8x8 matrix column of a lane's first element. -/
def fn (lane : ℕ) : ℕ := 4 * ((lane >>> 3) &&& 1) + 2 * (lane &&& 1)

/-- The elements of an 8x8 matrix, lane by lane. -/
def fragmentCells : List (ℕ × ℕ) :=
  (List.range 32).flatMap fun lane => [(fm lane, fn lane), (fm lane, fn lane + 1)]

/-- The lane that holds element `(i, j)`, as its element `j % 2`. -/
def laneOf (i j : ℕ) : ℕ := 16 * (i / 4) + 8 * (j / 4) + 4 * (i / 2 % 2) + 2 * (i % 2) + j / 2 % 2

theorem fragmentCells_lt : ∀ cell ∈ fragmentCells, cell.1 < 8 ∧ cell.2 < 8 := by decide

theorem count_fragmentCells (a b : ℕ) : fragmentCells.count (a, b) = if a < 8 ∧ b < 8 then 1 else 0 := by
  split
  · next h =>
    have hall : ∀ a < 8, ∀ b < 8, fragmentCells.count (a, b) = 1 := by decide
    exact hall a h.1 b h.2
  · next h => exact List.count_eq_zero.2 fun hmem => h (fragmentCells_lt _ hmem)

theorem fm_lt_eight (lane : ℕ) : fm lane < 8 := by
  unfold fm
  simp only [Nat.and_one_is_mod]
  omega

theorem fm_lt {lane : ℕ} (_ : lane < 32) : fm lane < 8 := fm_lt_eight lane

theorem fn_lt {lane : ℕ} (h : lane < 32) : fn lane + 1 < 8 ∧ 2 ∣ fn lane := by
  have hall : ∀ lane < 32, fn lane + 1 < 8 ∧ 2 ∣ fn lane := by decide
  exact hall lane h

theorem laneOf_spec {i j : ℕ} (hi : i < 8) (hj : j < 8) :
    laneOf i j < 32 ∧ fm (laneOf i j) = i ∧ fn (laneOf i j) + j % 2 = j := by
  have hall : ∀ i < 8, ∀ j < 8, laneOf i j < 32 ∧ fm (laneOf i j) = i ∧ fn (laneOf i j) + j % 2 = j := by decide
  exact hall i hi j hj

/-- The columns a lane holds of an 8x32 strip of four matrices. -/
def laneCols (lane : ℕ) : List ℕ := (List.range 4).flatMap fun ct => [8 * ct + fn lane, 8 * ct + fn lane + 1]

/-- The lanes that `simd_shuffle_xor` by 8 and then by 1 brings together. -/
def shuffleLanes (lane : ℕ) : List ℕ := [lane, lane ^^^ 8, lane ^^^ 1, lane ^^^ 1 ^^^ 8]

/-- They share a row, -/
theorem fm_shuffleLanes {lane : ℕ} (h : lane < 32) : ∀ lane' ∈ shuffleLanes lane, lane' < 32 ∧ fm lane' = fm lane := by
  have hall : ∀ lane < 32, ∀ lane' ∈ shuffleLanes lane, lane' < 32 ∧ fm lane' = fm lane := by decide
  exact hall lane h

/-- and hold each of its columns once. -/
theorem perm_shuffleLanes {lane : ℕ} (h : lane < 32) :
    List.Perm ((shuffleLanes lane).flatMap laneCols) (List.range 32) := by
  have hall : ∀ lane < 32, List.Perm ((shuffleLanes lane).flatMap laneCols) (List.range 32) := by decide
  exact hall lane h

/-! ## Matrices -/

/-- `thread_elements()` of the lanes: lane and element. -/
abbrev Frag : Type := ℕ → ℕ → XReal

/-- The element `(i, j)` of the matrix the lanes hold. -/
def Frag.get (a : Frag) (i j : ℕ) : XReal := a (laneOf i j) (j % 2)

/-- Lanes that hold `f` at their places hold the matrix `f`. -/
theorem Frag.get_eq {a : Frag} {f : ℕ → ℕ → XReal} {i j : ℕ} (ha : ∀ lane e, a lane e = f (fm lane) (fn lane + e))
    (hi : i < 8) (hj : j < 8) : a.get i j = f i j := by
  obtain ⟨-, hfm, hfn⟩ := laneOf_spec hi hj
  unfold Frag.get
  rw [ha, hfm, hfn]

/-- `make_filled_simdgroup_matrix`. -/
def filled (x : XReal) : Frag := fun _ _ => x

/-- `simdgroup_multiply_accumulate(.., a, b, c)`. -/
noncomputable def multiplyAccumulate (a b c : Frag) : Frag :=
  fun lane e => c lane e + ∑ k ∈ Finset.range 8, a.get (fm lane) k * b.get k (fn lane + e)

/-- `x = op(x, simd_shuffle_xor(x, 8)); x = op(x, simd_shuffle_xor(x, 1));` -/
def reduceRow (op : XReal → XReal → XReal) (x : ℕ → XReal) : ℕ → XReal :=
  let x := fun lane => op (x lane) (x (lane ^^^ 8))
  fun lane => op (x lane) (x (lane ^^^ 1))

section Lanes
variable {lane e : ℕ}

/-- A reduction over the lanes of a row runs over the row's columns, for any
reading `g` of columns that the operation joins. -/
theorem reduceRow_eq {op : XReal → XReal → XReal} {x : ℕ → XReal} {g : List ℕ → XReal}
    (hop : ∀ a b, op (g a) (g b) = g (a ++ b)) (hperm : ∀ a b, List.Perm a b → g a = g b) (h : lane < 32)
    (hx : ∀ lane' ∈ shuffleLanes lane, x lane' = g (laneCols lane')) : reduceRow op x lane = g (List.range 32) := by
  rw [← hperm _ _ (perm_shuffleLanes h)]
  unfold reduceRow
  dsimp only
  rw [hx lane (by simp [shuffleLanes]), hx (lane ^^^ 8) (by simp [shuffleLanes]), hx (lane ^^^ 1) (by simp [shuffleLanes]),
    hx (lane ^^^ 1 ^^^ 8) (by simp [shuffleLanes]), hop, hop, hop]
  simp only [shuffleLanes, List.flatMap_cons, List.flatMap_nil, List.append_nil, List.append_assoc]

theorem multiplyAccumulate_real {a b c : Frag} {f g : ℕ → ℝ} {z : ℝ} (ha : ∀ k < 8, a.get (fm lane) k = real (f k))
    (hb : ∀ k < 8, b.get k (fn lane + e) = real (g k)) (hc : c lane e = real z) :
    multiplyAccumulate a b c lane e = real (z + ∑ k ∈ Finset.range 8, f k * g k) := by
  have hsum : ∑ k ∈ Finset.range 8, a.get (fm lane) k * b.get k (fn lane + e) =
      real (∑ k ∈ Finset.range 8, f k * g k) := by
    apply sum_real
    intro k hk
    have hk := Finset.mem_range.1 hk
    rw [ha k hk, hb k hk, real_mul_real]
  unfold multiplyAccumulate
  rw [hsum, hc, real_add_real]

/-- A chain of multiply-accumulates. -/
theorem foldl_multiplyAccumulate_real {ι : Type} (l : List ι) {a b : ι → Frag} {f g : ι → ℕ → ℝ}
    (ha : ∀ t ∈ l, ∀ k < 8, (a t).get (fm lane) k = real (f t k))
    (hb : ∀ t ∈ l, ∀ k < 8, (b t).get k (fn lane + e) = real (g t k)) {c : Frag} {z : ℝ} (hc : c lane e = real z) :
    l.foldl (fun c t => multiplyAccumulate (a t) (b t) c) c lane e =
      real (z + (l.map fun t => ∑ k ∈ Finset.range 8, f t k * g t k).sum) := by
  induction l generalizing c z with
  | nil => rw [List.foldl_nil, List.map_nil, List.sum_nil, add_zero, hc]
  | cons t l ih =>
    have hstep := multiplyAccumulate_real (ha t List.mem_cons_self) (hb t List.mem_cons_self) hc
    rw [List.foldl_cons, ih (fun t' ht' => ha t' (List.mem_cons_of_mem _ ht'))
      (fun t' ht' => hb t' (List.mem_cons_of_mem _ ht')) hstep, List.map_cons, List.sum_cons, add_assoc]

/-- Eight columns at a time. -/
theorem sum_range_eight (f : ℕ → ℝ) (m : ℕ) :
    ((List.range m).map fun t => ∑ k ∈ Finset.range 8, f (8 * t + k)).sum = ∑ c ∈ Finset.range (8 * m), f c := by
  induction m with
  | zero => rfl
  | succ m ih =>
    rw [List.range_succ, List.map_append, List.sum_append, ih, List.map_singleton, List.sum_singleton, Nat.mul_succ,
      Finset.sum_range_add]

theorem sum_steps_eight (f : ℕ → ℝ) {d : ℕ} (hd : 8 ∣ d) :
    ((steps 8 0 d).map fun d0 => ∑ k ∈ Finset.range 8, f (d0 + k)).sum = ∑ c ∈ Finset.range d, f c := by
  obtain ⟨m, rfl⟩ := hd
  have htrips : (8 * m - 0 + 8 - 1) / 8 = m := by omega
  rw [← sum_range_eight, steps, htrips, List.map_map]
  refine congrArg List.sum (List.map_congr_left fun t _ => Finset.sum_congr rfl fun k _ => ?_)
  dsimp only
  rw [Nat.zero_add]

end Lanes

end Simdgroup
