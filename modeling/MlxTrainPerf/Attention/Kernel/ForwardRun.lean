import MlxTrainPerf.Lib.OnlineSoftmax
import MlxTrainPerf.Attention.ReferenceReal
import MlxTrainPerf.Attention.Kernel.Forward
/-!
# The forward's running softmax

`RowHolds`: after any set of keys, every lane of a stored row holds the row's
running maximum and normalizer, and its elements of `C_o` hold the running sums
of V. A key block adds the keys it keeps (`step_holds`), and a slab pass ends
with the keys from the block's lower bound on (`slabPass_holds`).
-/
open Loops Simdgroup XReal OnlineSoftmax

namespace MlxTrainPerf.Attention.Kernel

namespace Fwd

section Tiles
variable {src : FwdSource} {x : FwdArgs} {b h rowBase slab0 kb0 rt ct dt d0 lane e i j : ℕ}

/-! ## Fragments -/

theorem qFrag_get (hi : i < 8) (hj : j < 8) :
    (qFrag x b h rowBase d0 rt).get i j = real (x.q b h (min (rowBase + i + 8 * rt) (x.s.n - 1)) (d0 + j)) :=
  @Frag.get_eq (qFrag x b h rowBase d0 rt) (fun i j => real (x.q b h (min (rowBase + i + 8 * rt) (x.s.n - 1)) (d0 + j)))
    i j (fun _ _ => by simp only [qFrag, add_assoc]) hi hj

theorem kFrag_get (hi : i < 8) (hj : j < 8) : (kFrag x b h kb0 d0 ct).get i j =
    real (kvGather x.s x.k b h (clampKey x kb0 (kb0 + (8 * ct + j))) (d0 + i)) :=
  @Frag.get_eq (kFrag x b h kb0 d0 ct)
    (fun i j => real (kvGather x.s x.k b h (clampKey x kb0 (kb0 + (8 * ct + j))) (d0 + i)))
    i j (fun _ _ => by simp only [kFrag, add_assoc]) hi hj

theorem vFrag_get (hi : i < 8) (hj : j < 8) : (vFrag x b h slab0 kb0 ct dt).get i j =
    real (kvGather x.s x.v b h (clampKey x kb0 (kb0 + (8 * ct + i))) (slab0 + 8 * dt + j)) :=
  @Frag.get_eq (vFrag x b h slab0 kb0 ct dt)
    (fun i j => real (kvGather x.s x.v b h (clampKey x kb0 (kb0 + (8 * ct + i))) (slab0 + 8 * dt + j)))
    i j (fun _ _ => by simp only [vFrag, add_assoc]) hi hj

end Tiles

/-! ## One row -/

/-- A row that is stored: row `i` of row tile `rt` of the block at `rowBase`. -/
structure StoredRow (src : FwdSource) (x : FwdArgs) (rowBase rt i : ℕ) : Prop where
  headDim : src.headDim = x.s.d
  row_lt : rowBase + 8 * rt + i < x.s.n

/-- The scores of a row. -/
noncomputable def rowScore (x : FwdArgs) (b h row : ℕ) : ℕ → ℝ := Oracle.score x.s x.q x.k x.scale b h row

/-- The keys a block keeps for a row. -/
def blockKeys (src : FwdSource) (x : FwdArgs) (b kb0 row : ℕ) : Finset ℕ :=
  (Finset.Ico kb0 (kb0 + 32)).filter fun kk => keepInBlock src.flags (x.segId b) x.s.n kb0 row kk = true

section Row
variable {src : FwdSource} {x : FwdArgs} {b h rowBase slab0 kb0 rt ct dt lane e i : ℕ} {regs : Regs} {S : Finset ℕ}

theorem scoreTile_eq (hrow : StoredRow src x rowBase rt i) (hlane : lane < 32) (hi : fm lane = i) (he : e < 2) :
    scoreTile src x b h rowBase kb0 rt ct lane e =
      real (rowScore x b h (rowBase + 8 * rt + i) (clampKey x kb0 (kb0 + (8 * ct + (fn lane + e))))) := by
  have hfm := fm_lt hlane
  obtain ⟨hfn, -⟩ := fn_lt hlane
  have hclamp : min (rowBase + i + 8 * rt) (x.s.n - 1) = rowBase + 8 * rt + i := by
    have := hrow.row_lt
    omega
  have hdvd : 8 ∣ src.headDim := src.eight_dvd.trans src.dSlab_dvd
  have hdot := foldl_multiplyAccumulate_real (steps 8 0 src.headDim)
    (fun d0 _ k hk => @qFrag_get x b h rowBase rt d0 (fm lane) k hfm hk)
    (fun d0 _ k hk => @kFrag_get x b h kb0 ct d0 k (fn lane + e) hk (by omega))
    (show filled 0 lane e = real 0 from rfl)
  unfold scoreTile
  rw [hdot, hi, hclamp, zero_add, sum_steps_eight (fun c => x.q b h (rowBase + 8 * rt + i) c *
    kvGather x.s x.k b h (clampKey x kb0 (kb0 + (8 * ct + (fn lane + e)))) c) hdvd, real_mul_real, hrow.headDim]
  rfl

theorem keepAt_eq (hi : fm lane = i) : keepAt src x b rowBase kb0 rt ct lane e =
    keepInBlock src.flags (x.segId b) x.s.n kb0 (rowBase + 8 * rt + i) (kb0 + (8 * ct + (fn lane + e))) := by
  have hkey : kb0 + 8 * ct + fn lane + e = kb0 + (8 * ct + (fn lane + e)) := by omega
  unfold keepAt
  rw [hi, hkey]

/-- A kept key is not clamped. -/
theorem clampKey_of_keep {row kk : ℕ} (hkeep : keepInBlock src.flags (x.segId b) x.s.n kb0 row kk = true) :
    clampKey x kb0 kk = kk := by
  have hlt : kk < min (kb0 + 32) x.s.n := by
    simp only [keepInBlock, Bool.and_eq_true, decide_eq_true_eq] at hkeep
    exact hkeep.1
  unfold clampKey
  omega

/-! ## The block's maximum -/

/-- The kept keys among some columns of the block. -/
def keptCols (src : FwdSource) (x : FwdArgs) (b kb0 row : ℕ) (cols : List ℕ) : Finset ℕ :=
  ((cols.map (kb0 + ·)).filter (keepInBlock src.flags (x.segId b) x.s.n kb0 row)).toFinset

theorem keptCols_append {row : ℕ} (a c : List ℕ) :
    keptCols src x b kb0 row (a ++ c) = keptCols src x b kb0 row a ∪ keptCols src x b kb0 row c := by
  unfold keptCols
  rw [List.map_append, List.filter_append, List.toFinset_append]

theorem keptCols_range {row : ℕ} : keptCols src x b kb0 row (List.range 32) = blockKeys src x b kb0 row := by
  ext kk
  simp only [keptCols, blockKeys, List.mem_toFinset, List.mem_filter, List.mem_map, List.mem_range, Finset.mem_filter,
    Finset.mem_Ico]
  refine and_congr_left fun _ => ⟨?_, ?_⟩
  · rintro ⟨c, hc, rfl⟩
    omega
  · rintro ⟨h1, h2⟩
    exact ⟨kk - kb0, by omega, by omega⟩

theorem laneMax_eq (hrow : StoredRow src x rowBase rt i) (hlane : lane < 32) (hi : fm lane = i) :
    laneMax src x b h rowBase kb0 rt lane =
      peak (keptCols src x b kb0 (rowBase + 8 * rt + i) (laneCols lane)) (rowScore x b h (rowBase + 8 * rt + i)) := by
  let row := rowBase + 8 * rt + i
  let take := fun (m : XReal) kk =>
    if keepInBlock src.flags (x.segId b) x.s.n kb0 row kk then m.max (real (rowScore x b h row kk)) else m
  have hat : ∀ bm ct e, e < 2 → (if keepAt src x b rowBase kb0 rt ct lane e then
      XReal.max bm (scoreTile src x b h rowBase kb0 rt ct lane e) else bm) = take bm (kb0 + (8 * ct + (fn lane + e))) := by
    intro bm ct e he
    dsimp only [take]
    rw [keepAt_eq hi]
    split
    · next hkeep => rw [scoreTile_eq hrow hlane hi he, clampKey_of_keep hkeep]
    · rfl
  have hfold : laneMax src x b h rowBase kb0 rt lane = ((laneCols lane).map (kb0 + ·)).foldl take negInf := by
    unfold laneMax laneCols
    rw [List.map_flatMap, List.foldl_flatMap]
    apply List.foldl_ext _ _ _
    intro bm ct _
    dsimp only
    rw [hat bm ct 0 (by decide), hat _ ct 1 (by decide)]
    rfl
  rw [hfold, ← @peak_empty _ (rowScore x b h row), foldl_max_peak, Finset.empty_union]
  rfl

/-- Every lane of the row gets the maximum over the block. -/
theorem rowMax_eq (hrow : StoredRow src x rowBase rt i) (hlane : lane < 32) (hi : fm lane = i) :
    reduceRow XReal.max (laneMax src x b h rowBase kb0 rt) lane =
      peak (blockKeys src x b kb0 (rowBase + 8 * rt + i)) (rowScore x b h (rowBase + 8 * rt + i)) := by
  rw [← keptCols_range]
  refine @reduceRow_eq lane XReal.max _ (fun cols => peak (keptCols src x b kb0 (rowBase + 8 * rt + i) cols)
    (rowScore x b h (rowBase + 8 * rt + i))) ?_ ?_ hlane fun lane' hmem => ?_
  · intro a c
    rw [peak_union, keptCols_append]
  · intro a c hperm
    have hkept : keptCols src x b kb0 (rowBase + 8 * rt + i) a = keptCols src x b kb0 (rowBase + 8 * rt + i) c :=
      List.toFinset_eq_of_perm _ _ ((hperm.map _).filter _)
    rw [hkept]
  · obtain ⟨hlane', hfm⟩ := fm_shuffleLanes hlane lane' hmem
    exact laneMax_eq hrow hlane' (hfm.trans hi)

/-! ## One key block -/

/-- What the lanes of a row hold once the keys `S` are in. -/
structure RowHolds (src : FwdSource) (x : FwdArgs) (b h slab0 rt i row : ℕ) (S : Finset ℕ) (regs : Regs) : Prop where
  m : ∀ lane < 32, fm lane = i → regs.m lane rt = peak S (rowScore x b h row)
  l : ∀ lane < 32, fm lane = i → regs.l lane rt = real (total S (rowScore x b h row) fun _ => 1)
  cO : ∀ lane < 32, fm lane = i → ∀ dt, ∀ e < 2, regs.cO rt dt lane e =
    real (total S (rowScore x b h row) fun kk => kvGather x.s x.v b h kk (slab0 + 8 * dt + (fn lane + e)))

theorem init_holds (src : FwdSource) (x : FwdArgs) (b h slab0 rt i row : ℕ) :
    RowHolds src x b h slab0 rt i row ∅ init where
  m := fun _ _ _ => rfl
  l := fun _ _ _ => rfl
  cO := fun _ _ _ _ _ _ => rfl

/-- The probability of a key of the block, shifted by the new maximum. -/
noncomputable def blockProb (src : FwdSource) (x : FwdArgs) (b h kb0 row : ℕ) (S : Finset ℕ) (kk : ℕ) : ℝ :=
  if keepInBlock src.flags (x.segId b) x.s.n kb0 row kk then
    Real.exp (rowScore x b h row kk - shift (S ∪ blockKeys src x b kb0 row) (rowScore x b h row))
  else 0

/-- A sum over the block's columns is a sum over the keys it keeps. -/
theorem sum_blockProb {row : ℕ} (w w' : ℕ → ℝ)
    (hw : ∀ kk, keepInBlock src.flags (x.segId b) x.s.n kb0 row kk = true → w kk = w' kk) :
    ∑ c ∈ Finset.range 32, blockProb src x b h kb0 row S (kb0 + c) * w (kb0 + c) =
      ∑ kk ∈ blockKeys src x b kb0 row,
        Real.exp (rowScore x b h row kk - shift (S ∪ blockKeys src x b kb0 row) (rowScore x b h row)) * w' kk := by
  have hshift := @Finset.sum_Ico_eq_sum_range ℝ _ (fun kk => blockProb src x b h kb0 row S kk * w kk) kb0 (kb0 + 32)
  rw [Nat.add_sub_cancel_left] at hshift
  rw [← hshift]
  unfold blockKeys
  rw [Finset.sum_filter]
  apply Finset.sum_congr rfl
  intro kk _
  unfold blockProb
  split
  · next hkeep =>
    rw [hw kk hkeep]
    rfl
  · rw [zero_mul]

section Step
variable (hrow : StoredRow src x rowBase rt i) (hheld : RowHolds src x b h slab0 rt i (rowBase + 8 * rt + i) S regs)
include hrow hheld

theorem mNew_eq (hlane : lane < 32) (hi : fm lane = i) : mNew src x b h rowBase kb0 regs lane rt =
    peak (S ∪ blockKeys src x b kb0 (rowBase + 8 * rt + i)) (rowScore x b h (rowBase + 8 * rt + i)) := by
  unfold mNew
  rw [hheld.m lane hlane hi, rowMax_eq hrow hlane hi, peak_union]

theorem alpha_eq (hlane : lane < 32) (hi : fm lane = i) : alpha src x b h rowBase kb0 regs lane rt =
    factor src.flags.packed (peak S (rowScore x b h (rowBase + 8 * rt + i)))
      (peak (S ∪ blockKeys src x b kb0 (rowBase + 8 * rt + i)) (rowScore x b h (rowBase + 8 * rt + i))) := by
  unfold alpha
  rw [mNew_eq hrow hheld hlane hi, hheld.m lane hlane hi]
  rfl

theorem pTile_eq (hlane : lane < 32) (hi : fm lane = i) (he : e < 2) :
    pTile src x b h rowBase kb0 regs rt ct lane e =
      real (blockProb src x b h kb0 (rowBase + 8 * rt + i) S (kb0 + (8 * ct + (fn lane + e)))) := by
  unfold pTile blockProb
  rw [keepAt_eq hi]
  split
  · next hkeep =>
    have hmem : kb0 + (8 * ct + (fn lane + e)) ∈ blockKeys src x b kb0 (rowBase + 8 * rt + i) := by
      refine Finset.mem_filter.2 ⟨Finset.mem_Ico.2 ?_, hkeep⟩
      simp only [keepInBlock, Bool.and_eq_true, decide_eq_true_eq] at hkeep
      omega
    rw [scoreTile_eq hrow hlane hi he, clampKey_of_keep hkeep, mNew_eq hrow hheld hlane hi,
      peak_of_nonempty ⟨_, Finset.mem_union_right S hmem⟩, real_sub_real, exp_real]
  · rfl

theorem laneSum_eq (hlane : lane < 32) (hi : fm lane = i) : laneSum src x b h rowBase kb0 regs rt lane =
    ((laneCols lane).map fun c => real (blockProb src x b h kb0 (rowBase + 8 * rt + i) S (kb0 + c))).sum := by
  have hp := fun ct e he => @pTile_eq src x b h rowBase slab0 kb0 rt ct lane e i regs S hrow hheld hlane hi he
  unfold laneSum laneCols
  simp only [hp _ 0 (by decide), hp _ 1 (by decide), List.map_flatMap, List.map_cons, List.map_nil, Nat.add_zero]
  simp only [List.range_succ, List.range_zero, List.nil_append, List.cons_append, List.foldl_cons, List.foldl_nil,
    List.flatMap_cons, List.flatMap_nil, List.append_nil, List.sum_cons, List.sum_nil, add_zero, zero_add, add_assoc]

/-- Every lane of the row gets the block's sum. -/
theorem rowSum_eq (hlane : lane < 32) (hi : fm lane = i) :
    reduceRow (· + ·) (laneSum src x b h rowBase kb0 regs rt) lane =
      real (∑ kk ∈ blockKeys src x b kb0 (rowBase + 8 * rt + i), Real.exp (rowScore x b h (rowBase + 8 * rt + i) kk -
        shift (S ∪ blockKeys src x b kb0 (rowBase + 8 * rt + i)) (rowScore x b h (rowBase + 8 * rt + i))) * 1) := by
  let g := fun cols : List ℕ =>
    (cols.map fun c => real (blockProb src x b h kb0 (rowBase + 8 * rt + i) S (kb0 + c))).sum
  have hreduce : reduceRow (· + ·) (laneSum src x b h rowBase kb0 regs rt) lane = g (List.range 32) := by
    refine @reduceRow_eq lane _ _ g ?_ ?_ hlane fun lane' hmem => ?_
    · intro a c
      dsimp only [g]
      rw [List.map_append, List.sum_append]
    · exact fun a c hperm => (hperm.map _).sum_eq
    · obtain ⟨hlane', hfm⟩ := fm_shuffleLanes hlane lane' hmem
      exact laneSum_eq hrow hheld hlane' (hfm.trans hi)
  have hsum : g (List.range 32) =
      ∑ c ∈ Finset.range 32, real (blockProb src x b h kb0 (rowBase + 8 * rt + i) S (kb0 + c)) := rfl
  rw [hreduce, hsum, sum_real fun _ _ => rfl, ← sum_blockProb (fun _ => 1) (fun _ => 1) fun _ _ => rfl]
  simp only [mul_one]

/-- A key block adds the keys it keeps. The causal body needs one of them by
then, the packed body does not. -/
theorem step_holds (hdisj : Disjoint S (blockKeys src x b kb0 (rowBase + 8 * rt + i)))
    (hne : src.flags.packed = true ∨ (S ∪ blockKeys src x b kb0 (rowBase + 8 * rt + i)).Nonempty) :
    RowHolds src x b h slab0 rt i (rowBase + 8 * rt + i) (S ∪ blockKeys src x b kb0 (rowBase + 8 * rt + i))
      (step src x b h rowBase slab0 kb0 regs) := by
  obtain ⟨a, hfactor, htotal⟩ := @total_union _ _ _ (rowScore x b h (rowBase + 8 * rt + i)) _ src.flags.packed hdisj hne
  refine ⟨fun lane hlane hi => mNew_eq hrow hheld hlane hi, ?_, ?_⟩
  · intro lane hlane hi
    dsimp only [step]
    rw [hheld.l lane hlane hi, alpha_eq hrow hheld hlane hi, hfactor, rowSum_eq hrow hheld hlane hi, real_mul_real,
      real_add_real, htotal]
  · intro lane hlane hi dt e he
    obtain ⟨hfn, -⟩ := fn_lt hlane
    have hfm : fm lane < 8 := fm_lt hlane
    let value := fun kk => kvGather x.s x.v b h kk (slab0 + 8 * dt + (fn lane + e))
    -- The fragments of P and of V, at this lane's row and column.
    have hp : ∀ ct ∈ List.range 4, ∀ k < 8, (pTile src x b h rowBase kb0 regs rt ct).get (fm lane) k =
        real (blockProb src x b h kb0 (rowBase + 8 * rt + i) S (kb0 + (8 * ct + k))) := by
      intro ct _ k hk
      obtain ⟨hlane', hfm', hfn'⟩ := laneOf_spec hfm hk
      unfold Frag.get
      rw [pTile_eq hrow hheld hlane' (hfm'.trans hi) (Nat.mod_lt k (by decide)), hfn']
    have hv : ∀ ct ∈ List.range 4, ∀ k < 8, (vFrag x b h slab0 kb0 ct dt).get k (fn lane + e) =
        real (value (clampKey x kb0 (kb0 + (8 * ct + k)))) := fun ct _ k hk => vFrag_get hk (by omega)
    have hz : (fun lane e => regs.cO rt dt lane e * alpha src x b h rowBase kb0 regs lane rt : Frag) lane e =
        real (total S (rowScore x b h (rowBase + 8 * rt + i)) value * a) := by
      dsimp only
      rw [hheld.cO lane hlane hi dt e he, alpha_eq hrow hheld hlane hi, hfactor, real_mul_real]
    have hsum := sum_range_eight (fun c => blockProb src x b h kb0 (rowBase + 8 * rt + i) S (kb0 + c) *
      value (clampKey x kb0 (kb0 + c))) 4
    dsimp only [step]
    rw [foldl_multiplyAccumulate_real (List.range 4) hp hv hz, hsum, ← htotal,
      ← @sum_blockProb src x b h kb0 S _ (fun kk => value (clampKey x kb0 kk)) value fun kk hkeep => by
        rw [clampKey_of_keep hkeep]]

end Step

end Row

/-! ## A slab pass -/

/-- The keys a row keeps from `lo` on. -/
def keptFrom (src : FwdSource) (x : FwdArgs) (b row lo : ℕ) : Finset ℕ :=
  (Finset.Ico lo x.s.n).filter fun kk => keepRow src.flags (x.segId b) x.s.n row kk = true

section Pass
variable {src : FwdSource} {x : FwdArgs} {b h rowBase slab0 rt i lo hi row : ℕ} {regs : Regs} {S : Finset ℕ}

theorem mem_blockKeys {kk : ℕ} : kk ∈ blockKeys src x b lo row ↔
    (lo ≤ kk ∧ kk < lo + 32) ∧ kk < x.s.n ∧ keepRow src.flags (x.segId b) x.s.n row kk = true := by
  simp only [blockKeys, keepInBlock, Finset.mem_filter, Finset.mem_Ico, Bool.and_eq_true, decide_eq_true_eq, lt_min_iff]
  tauto

theorem mem_keptFrom {kk : ℕ} : kk ∈ keptFrom src x b row lo ↔
    (lo ≤ kk ∧ kk < x.s.n) ∧ keepRow src.flags (x.segId b) x.s.n row kk = true := by
  unfold keptFrom
  rw [Finset.mem_filter, Finset.mem_Ico]

theorem keptFrom_step : keptFrom src x b row lo = blockKeys src x b lo row ∪ keptFrom src x b row (lo + 32) := by
  ext kk
  rw [Finset.mem_union, mem_blockKeys, mem_keptFrom, mem_keptFrom]
  constructor
  · rintro ⟨⟨hlo, hn⟩, hkeep⟩
    rcases Nat.lt_or_ge kk (lo + 32) with hin | hpast
    · exact Or.inl ⟨⟨hlo, hin⟩, hn, hkeep⟩
    · exact Or.inr ⟨⟨hpast, hn⟩, hkeep⟩
  · rintro (⟨⟨hlo, -⟩, hn, hkeep⟩ | ⟨⟨hlo, hn⟩, hkeep⟩)
    · exact ⟨⟨hlo, hn⟩, hkeep⟩
    · exact ⟨⟨by omega, hn⟩, hkeep⟩

/-- The key loop from `lo` on adds the keys kept from there. -/
theorem foldl_step_holds (hrow : StoredRow src x rowBase rt i)
    (hlimit : ∀ kk < x.s.n, keepRow src.flags (x.segId b) x.s.n (rowBase + 8 * rt + i) kk = true → kk < hi)
    (hheld : RowHolds src x b h slab0 rt i (rowBase + 8 * rt + i) S regs) (hS : ∀ kk ∈ S, kk < lo)
    (hne : src.flags.packed = true ∨ (S ∪ blockKeys src x b lo (rowBase + 8 * rt + i)).Nonempty) :
    RowHolds src x b h slab0 rt i (rowBase + 8 * rt + i) (S ∪ keptFrom src x b (rowBase + 8 * rt + i) lo)
      ((steps 32 lo hi).foldl (fun regs kb0 => step src x b h rowBase slab0 kb0 regs) regs) := by
  -- At `kb0` the keys before it are in, and with those kept from it on they are all there will be.
  let P := fun kb0 regs => ∃ T, RowHolds src x b h slab0 rt i (rowBase + 8 * rt + i) T regs ∧ (∀ kk ∈ T, kk < kb0) ∧
    (src.flags.packed = true ∨ (T ∪ blockKeys src x b kb0 (rowBase + 8 * rt + i)).Nonempty) ∧
    T ∪ keptFrom src x b (rowBase + 8 * rt + i) kb0 = S ∪ keptFrom src x b (rowBase + 8 * rt + i) lo
  have hstep : ∀ kb0 regs, kb0 < hi → P kb0 regs → P (kb0 + 32) (step src x b h rowBase slab0 kb0 regs) := by
    rintro kb0 regs - ⟨T, hheld, hT, hne, hall⟩
    have hdisj : Disjoint T (blockKeys src x b kb0 (rowBase + 8 * rt + i)) := by
      apply Finset.disjoint_left.2
      intro kk hkk hmem
      exact absurd (hT kk hkk) (not_lt.2 (mem_blockKeys.1 hmem).1.1)
    refine ⟨_, step_holds hrow hheld hdisj hne, ?_, hne.imp_right fun h => h.mono Finset.subset_union_left, ?_⟩
    · intro kk hmem
      rcases Finset.mem_union.1 hmem with hmem | hmem
      · exact (hT kk hmem).trans_le (Nat.le_add_right kb0 32)
      · exact (mem_blockKeys.1 hmem).1.2
    · rw [← hall, Finset.union_assoc, ← keptFrom_step]
  obtain ⟨kb0, hdone, T, hend, -, -, hall⟩ := foldl_steps_inv (P := P) (by decide) ⟨S, hheld, hS, hne, rfl⟩ hstep
  have hnone : keptFrom src x b (rowBase + 8 * rt + i) kb0 = ∅ := by
    apply Finset.eq_empty_of_forall_notMem
    intro kk hmem
    obtain ⟨⟨hlo, hn⟩, hkeep⟩ := mem_keptFrom.1 hmem
    exact absurd (hlimit kk hn hkeep) (not_lt.2 (hdone.trans hlo))
  rw [← hall, hnone, Finset.union_empty]
  exact hend

/-- A slab pass ends with the keys kept from the block's lower bound on. -/
theorem slabPass_holds (hrow : StoredRow src x rowBase rt i)
    (hlimit : ∀ kk < x.s.n, keepRow src.flags (x.segId b) x.s.n (rowBase + 8 * rt + i) kk = true →
      kk < kvLimit src.flags x.s.n rowBase)
    (hne : src.flags.packed = true ∨
      (blockKeys src x b (kvLo src.flags (x.segStart b) x.s.n rowBase) (rowBase + 8 * rt + i)).Nonempty) :
    RowHolds src x b h slab0 rt i (rowBase + 8 * rt + i)
      (keptFrom src x b (rowBase + 8 * rt + i) (kvLo src.flags (x.segStart b) x.s.n rowBase))
      (slabPass src x b h rowBase slab0) := by
  have hall := foldl_step_holds hrow hlimit (init_holds src x b h slab0 rt i (rowBase + 8 * rt + i))
    (fun kk hkk => absurd hkk (Finset.notMem_empty kk)) (by rwa [Finset.empty_union])
  rwa [Finset.empty_union] at hall

end Pass
end Fwd

end MlxTrainPerf.Attention.Kernel
