import MlxTrainPerf.Attention.KeyCoverage
import MlxTrainPerf.Attention.ReferenceReal
/-!
# Packed segments do not see each other

A mask isolates a run of positions when a pair with one end in the run is kept
only if both ends are in it and in causal order. Two passes that isolate runs of
one length, on inputs equal there, have equal outputs and gradients there: every
sum over the positions is a sum over the run.
-/
open XReal

namespace MlxTrainPerf.Attention

open Launch (Shape)
open Packing

/-! ## Runs of positions -/

/-- `q`, `k`, `v` and the cotangent `dO`. -/
structure Inputs where
  q : Tensor ℝ
  k : Tensor ℝ
  v : Tensor ℝ
  dO : Tensor ℝ

/-- The rows from `t` on. -/
def Inputs.slice (t : ℕ) (x : Inputs) : Inputs where
  q := fun b h i c => x.q b h (t + i) c
  k := fun b h i c => x.k b h (t + i) c
  v := fun b h i c => x.v b h (t + i) c
  dO := fun b h i c => x.dO b h (t + i) c

/-- The shape with `n` rows. -/
def withN (s : Shape) (n : ℕ) : Shape := { s with n }

/-- Where a run of positions starts: position `t` of batch row `b`. -/
structure Run where
  b : ℕ
  t : ℕ

/-- Two arrays agree on two runs of `len` positions. -/
def SameRun {α : Type} (heads d len : ℕ) (x x' : Tensor α) (r r' : Run) : Prop :=
  ∀ h < heads, ∀ i < len, ∀ c < d, x r.b h (r.t + i) c = x' r'.b h (r'.t + i) c

structure SameInputs (s : Shape) (len : ℕ) (x x' : Inputs) (r r' : Run) : Prop where
  q : SameRun s.hq s.d len x.q x'.q r r'
  k : SameRun s.hkv s.d len x.k x'.k r r'
  v : SameRun s.hkv s.d len x.v x'.v r r'
  dO : SameRun s.hq s.d len x.dO x'.dO r r'

structure SameResults (s : Shape) (len : ℕ) (res res' : Pass) (r r' : Run) : Prop where
  o : SameRun s.hq s.d len res.o res'.o r r'
  dQ : SameRun s.hq s.d len res.grads.dQ res'.grads.dQ r r'
  dK : SameRun s.hkv s.d len res.grads.dK res'.grads.dK r r'
  dV : SameRun s.hkv s.d len res.grads.dV res'.grads.dV r r'

/-- The mask keeps a pair that touches the run only inside it, in causal order. -/
structure Isolates (keep : ℕ → ℕ → ℕ → Bool) (n len : ℕ) (r : Run) : Prop where
  inside : r.t + len ≤ n
  keep_iff : ∀ i < n, ∀ j < n, (r.t ≤ i ∧ i < r.t + len) ∨ (r.t ≤ j ∧ j < r.t + len) →
    (keep r.b i j = true ↔ (r.t ≤ i ∧ i < r.t + len) ∧ (r.t ≤ j ∧ j < r.t + len) ∧ j ≤ i)

/-- Sums over positions agree when only the runs contribute, and equally. -/
theorem sum_run {n n' len t t' : ℕ} {f f' : ℕ → ℝ} (hn : t + len ≤ n) (hn' : t' + len ≤ n')
    (hout : ∀ j < n, ¬(t ≤ j ∧ j < t + len) → f j = 0) (hout' : ∀ j < n', ¬(t' ≤ j ∧ j < t' + len) → f' j = 0)
    (heq : ∀ j < len, f (t + j) = f' (t' + j)) : ∑ j ∈ Finset.range n, f j = ∑ j ∈ Finset.range n', f' j := by
  have hrun : ∀ {n t : ℕ} {f : ℕ → ℝ}, t + len ≤ n → (∀ j < n, ¬(t ≤ j ∧ j < t + len) → f j = 0) →
      ∑ j ∈ Finset.range n, f j = ∑ j ∈ Finset.range len, f (t + j) := by
    intro n t f hn hout
    have hsub : Finset.Ico t (t + len) ⊆ Finset.range n := by
      intro j hj
      exact Finset.mem_range.2 ((Finset.mem_Ico.1 hj).2.trans_le hn)
    rw [← Finset.sum_subset hsub fun j hj hnot => hout j (Finset.mem_range.1 hj) fun h => hnot (Finset.mem_Ico.2 h),
      Finset.sum_Ico_eq_sum_range, Nat.add_sub_cancel_left]
  rw [hrun hn hout, hrun hn' hout']
  exact Finset.sum_congr rfl fun j hj => heq j (Finset.mem_range.1 hj)

/-! ## Two passes on equal runs -/

section Twins
variable {s : Shape} {n n' len h i j c : ℕ} {x x' : Inputs} {r r' : Run} {scale : ℝ} {keep keep' : ℕ → ℕ → ℕ → Bool}

/-- Two passes over equal inputs on isolated runs. -/
structure Twins (s : Shape) (n n' len : ℕ) (x x' : Inputs) (r r' : Run) (keep keep' : ℕ → ℕ → ℕ → Bool) : Prop where
  group : s.hkv ∣ s.hq
  same : SameInputs s len x x' r r'
  left : Isolates keep n len r
  right : Isolates keep' n' len r'

theorem kvHead_lt (hgroup : s.hkv ∣ s.hq) (hh : h < s.hq) : kvHeadFor h (groupSize s) < s.hkv := by
  unfold kvHeadFor groupSize
  apply Nat.div_lt_of_lt_mul
  rwa [Nat.div_mul_cancel hgroup]

theorem dot_run {y y' z z' : Tensor ℝ} (hgroup : s.hkv ∣ s.hq) (hy : SameRun s.hq s.d len y y' r r')
    (hz : SameRun s.hkv s.d len z z' r r') (hh : h < s.hq) (hi : i < len) (hj : j < len) :
    Oracle.dot (withN s n) y z r.b h (r.t + i) (r.t + j) = Oracle.dot (withN s n') y' z' r'.b h (r'.t + i) (r'.t + j) := by
  apply Finset.sum_congr rfl
  intro c hc
  have hc := Finset.mem_range.1 hc
  exact congrArg₂ (· * ·) (hy h hh i hi c hc) (hz _ (kvHead_lt hgroup hh) j hj c hc)

/-- A query of the run gives nothing to a key outside it, and the other way round. -/
theorem prob_outside (hiso : Isolates keep n len r) (hi : i < n) (hj : j < n)
    (hcross : ¬((r.t ≤ i ∧ i < r.t + len) ↔ (r.t ≤ j ∧ j < r.t + len))) :
    Oracle.prob (withN s n) x.q x.k scale keep r.b h i j = 0 := by
  refine if_neg fun hkeep => hcross ?_
  have hor : (r.t ≤ i ∧ i < r.t + len) ∨ (r.t ≤ j ∧ j < r.t + len) := by
    by_contra hnone
    rw [not_or] at hnone
    exact hcross ⟨fun h => absurd h hnone.1, fun h => absurd h hnone.2⟩
  obtain ⟨hin, hin', -⟩ := (hiso.keep_iff i hi j hj hor).1 hkeep
  exact ⟨fun _ => hin', fun _ => hin⟩

namespace Twins

theorem inside (tw : Twins s n n' len x x' r r' keep keep') (hi : i < len) : r.t + i < n ∧ r'.t + i < n' :=
  ⟨(Nat.add_lt_add_left hi _).trans_le tw.left.inside, (Nat.add_lt_add_left hi _).trans_le tw.right.inside⟩

theorem keep_eq (tw : Twins s n n' len x x' r r' keep keep') (hi : i < len) (hj : j < len) :
    keep r.b (r.t + i) (r.t + j) = keep' r'.b (r'.t + i) (r'.t + j) := by
  rw [Bool.eq_iff_iff, tw.left.keep_iff _ (tw.inside hi).1 _ (tw.inside hj).1 (Or.inl (by omega)),
    tw.right.keep_iff _ (tw.inside hi).2 _ (tw.inside hj).2 (Or.inl (by omega))]
  omega

theorem score (tw : Twins s n n' len x x' r r' keep keep') (hh : h < s.hq) (hi : i < len) (hj : j < len) :
    Oracle.score (withN s n) x.q x.k scale r.b h (r.t + i) (r.t + j) =
      Oracle.score (withN s n') x'.q x'.k scale r'.b h (r'.t + i) (r'.t + j) :=
  congrArg (· * scale) (dot_run tw.group tw.same.q tw.same.k hh hi hj)

/-- The kept exponentials of a query of the run sum to the same. -/
theorem sum_exp (tw : Twins s n n' len x x' r r' keep keep') (hh : h < s.hq) (hi : i < len) :
    ∑ j ∈ Oracle.keys (withN s n) keep r.b (r.t + i),
        Real.exp (Oracle.score (withN s n) x.q x.k scale r.b h (r.t + i) j) =
      ∑ j ∈ Oracle.keys (withN s n') keep' r'.b (r'.t + i),
        Real.exp (Oracle.score (withN s n') x'.q x'.k scale r'.b h (r'.t + i) j) := by
  obtain ⟨hin, hin'⟩ := tw.inside hi
  have hrun : r.t ≤ r.t + i ∧ r.t + i < r.t + len := ⟨Nat.le_add_right _ _, Nat.add_lt_add_left hi _⟩
  have hrun' : r'.t ≤ r'.t + i ∧ r'.t + i < r'.t + len := ⟨Nat.le_add_right _ _, Nat.add_lt_add_left hi _⟩
  unfold Oracle.keys
  rw [Finset.sum_filter, Finset.sum_filter]
  refine sum_run tw.left.inside tw.right.inside ?_ ?_ fun j hj => ?_
  · exact fun j hj hout => if_neg fun hkeep => hout ((tw.left.keep_iff _ hin j hj (Or.inl hrun)).1 hkeep).2.1
  · exact fun j hj hout => if_neg fun hkeep => hout ((tw.right.keep_iff _ hin' j hj (Or.inl hrun')).1 hkeep).2.1
  · rw [tw.keep_eq hi hj, tw.score hh hi hj]

theorem lse (tw : Twins s n n' len x x' r r' keep keep') (hh : h < s.hq) (hi : i < len) :
    Oracle.lse (withN s n) x.q x.k scale keep r.b h (r.t + i) =
      Oracle.lse (withN s n') x'.q x'.k scale keep' r'.b h (r'.t + i) := congrArg Real.log (tw.sum_exp hh hi)

theorem prob (tw : Twins s n n' len x x' r r' keep keep') (hh : h < s.hq) (hi : i < len) (hj : j < len) :
    Oracle.prob (withN s n) x.q x.k scale keep r.b h (r.t + i) (r.t + j) =
      Oracle.prob (withN s n') x'.q x'.k scale keep' r'.b h (r'.t + i) (r'.t + j) := by
  unfold Oracle.prob
  rw [tw.keep_eq hi hj, tw.score hh hi hj, tw.lse hh hi]

/-- A query of the run sums over the run. -/
theorem sum_keys {w : ℕ → ℝ} {w' : ℕ → ℝ} (tw : Twins s n n' len x x' r r' keep keep') (hh : h < s.hq) (hi : i < len)
    (hw : ∀ j < len, w (r.t + j) = w' (r'.t + j)) :
    ∑ j ∈ Finset.range n, Oracle.prob (withN s n) x.q x.k scale keep r.b h (r.t + i) j * w j =
      ∑ j ∈ Finset.range n', Oracle.prob (withN s n') x'.q x'.k scale keep' r'.b h (r'.t + i) j * w' j := by
  obtain ⟨hin, hin'⟩ := tw.inside hi
  refine sum_run tw.left.inside tw.right.inside ?_ ?_ fun j hj => ?_
  · intro j hj hout
    rw [prob_outside tw.left hin hj fun hiff => hout (hiff.1 (by omega)), zero_mul]
  · intro j hj hout
    rw [prob_outside tw.right hin' hj fun hiff => hout (hiff.1 (by omega)), zero_mul]
  · rw [tw.prob hh hi hj, hw j hj]

/-- A key of the run collects over the run. -/
theorem sum_queries {w : ℕ → ℝ} {w' : ℕ → ℝ} (tw : Twins s n n' len x x' r r' keep keep') (hh : h < s.hq) (hj : j < len)
    (hw : ∀ i < len, w (r.t + i) = w' (r'.t + i)) :
    ∑ i ∈ Finset.range n, Oracle.prob (withN s n) x.q x.k scale keep r.b h i (r.t + j) * w i =
      ∑ i ∈ Finset.range n', Oracle.prob (withN s n') x'.q x'.k scale keep' r'.b h i (r'.t + j) * w' i := by
  obtain ⟨hin, hin'⟩ := tw.inside hj
  refine sum_run tw.left.inside tw.right.inside ?_ ?_ fun i hi => ?_
  · intro i hi hout
    rw [prob_outside tw.left hi hin fun hiff => hout (hiff.2 (by omega)), zero_mul]
  · intro i hi hout
    rw [prob_outside tw.right hi hin' fun hiff => hout (hiff.2 (by omega)), zero_mul]
  · rw [tw.prob hh hi hj, hw i hi]

theorem out (tw : Twins s n n' len x x' r r' keep keep') (hh : h < s.hq) (hi : i < len) (hc : c < s.d) :
    Oracle.out (withN s n) x.q x.k x.v scale keep r.b h (r.t + i) c =
      Oracle.out (withN s n') x'.q x'.k x'.v scale keep' r'.b h (r'.t + i) c :=
  tw.sum_keys hh hi fun j hj => tw.same.v _ (kvHead_lt tw.group hh) j hj c hc

theorem rowDot (tw : Twins s n n' len x x' r r' keep keep') (hh : h < s.hq) (hi : i < len) :
    Oracle.rowDot (withN s n) x.q x.k x.v x.dO scale keep r.b h (r.t + i) =
      Oracle.rowDot (withN s n') x'.q x'.k x'.v x'.dO scale keep' r'.b h (r'.t + i) := by
  apply Finset.sum_congr rfl
  intro c hc
  have hc := Finset.mem_range.1 hc
  rw [tw.same.dO h hh i hi c hc, tw.out hh hi hc]

/-- `dP - D` on the run. -/
theorem dotSub (tw : Twins s n n' len x x' r r' keep keep') (hh : h < s.hq) (hi : i < len) (hj : j < len) :
    Oracle.dot (withN s n) x.dO x.v r.b h (r.t + i) (r.t + j) -
        Oracle.rowDot (withN s n) x.q x.k x.v x.dO scale keep r.b h (r.t + i) =
      Oracle.dot (withN s n') x'.dO x'.v r'.b h (r'.t + i) (r'.t + j) -
        Oracle.rowDot (withN s n') x'.q x'.k x'.v x'.dO scale keep' r'.b h (r'.t + i) := by
  rw [dot_run tw.group tw.same.dO tw.same.v hh hi hj, tw.rowDot hh hi]

theorem gradQ (tw : Twins s n n' len x x' r r' keep keep') (hh : h < s.hq) (hi : i < len) (hc : c < s.d) :
    Oracle.gradQ (withN s n) x.q x.k x.v x.dO scale keep r.b h (r.t + i) c =
      Oracle.gradQ (withN s n') x'.q x'.k x'.v x'.dO scale keep' r'.b h (r'.t + i) c := by
  unfold Oracle.gradQ Oracle.dScore
  simp only [mul_assoc]
  refine congrArg (scale * ·) (tw.sum_keys hh hi fun j hj => ?_)
  rw [tw.dotSub hh hi hj]
  exact congrArg _ (tw.same.k _ (kvHead_lt tw.group hh) j hj c hc)

/-- The q-heads of a kv head are heads. -/
theorem groupHead_lt {kvh g : ℕ} (hgroup : s.hkv ∣ s.hq) (hkvh : kvh < s.hkv) (hg : g < groupSize s) :
    kvh * groupSize s + g < s.hq := by
  have hle : (kvh + 1) * groupSize s ≤ s.hkv * groupSize s := Nat.mul_le_mul_right _ hkvh
  have hall : s.hkv * groupSize s = s.hq := Nat.mul_div_cancel' hgroup
  rw [Nat.succ_mul] at hle
  omega

theorem overGroup {kvh : ℕ} {y y' : ℕ → ℝ} (hgroup : s.hkv ∣ s.hq) (hkvh : kvh < s.hkv) (hy : ∀ h < s.hq, y h = y' h) :
    Oracle.overGroup (withN s n) y kvh = Oracle.overGroup (withN s n') y' kvh :=
  Finset.sum_congr rfl fun _ hg => hy _ (groupHead_lt hgroup hkvh (Finset.mem_range.1 hg))

theorem gradK {kvh : ℕ} (tw : Twins s n n' len x x' r r' keep keep') (hkvh : kvh < s.hkv) (hj : j < len) (hc : c < s.d) :
    Oracle.gradK (withN s n) x.q x.k x.v x.dO scale keep r.b kvh (r.t + j) c =
      Oracle.gradK (withN s n') x'.q x'.k x'.v x'.dO scale keep' r'.b kvh (r'.t + j) c := by
  refine overGroup tw.group hkvh fun h hh => congrArg (scale * ·) ?_
  unfold Oracle.dScore
  simp only [mul_assoc]
  apply tw.sum_queries hh hj
  intro i hi
  rw [tw.dotSub hh hi hj, tw.same.q h hh i hi c hc]

theorem gradV {kvh : ℕ} (tw : Twins s n n' len x x' r r' keep keep') (hkvh : kvh < s.hkv) (hj : j < len) (hc : c < s.d) :
    Oracle.gradV (withN s n) x.q x.k x.dO scale keep r.b kvh (r.t + j) c =
      Oracle.gradV (withN s n') x'.q x'.k x'.dO scale keep' r'.b kvh (r'.t + j) c :=
  overGroup tw.group hkvh fun h hh => tw.sum_queries hh hj fun i hi => tw.same.dO h hh i hi c hc

end Twins
end Twins

/-! ## Passes -/

/-- The oracles' forward and backward over `n` rows return `res`. -/
def Returns (s : Shape) (n : ℕ) (x : Inputs) (scale : ℝ) (segments : Option (ℕ → ℕ → ℤ)) (res : Pass) : Prop :=
  mathAttention (withN s n) x.q x.k x.v scale true segments = .ok res.o ∧
    referencePass (withN s n) x.q x.k x.v x.dO scale true segments = .ok res

theorem returns_same {s : Shape} {n n' len : ℕ} {x x' : Inputs} {r r' : Run} {segments segments' : Option (ℕ → ℕ → ℤ)}
    (scale : ℝ) (tw : Twins s n n' len x x' r r' (keeps true segments) (keeps true segments')) :
    ∃ res res', Returns s n x scale segments res ∧ Returns s n' x' scale segments' res' ∧
      SameResults s len res res' r r' := by
  have hne : ∀ segments n, ∀ b, ∀ i < (withN s n).n, (Oracle.keys (withN s n) (keeps true segments) b i).Nonempty :=
    fun segments n b i hi => ⟨i, Oracle.mem_keys.2 ⟨hi, keeps_self true segments b i⟩⟩
  obtain ⟨res, hpass, hmath, ho, hdQ, hdK, hdV⟩ := @referencePass_real (withN s n) x.q x.k x.v x.dO scale true segments
    tw.group (fun _ => rfl) (hne segments n)
  obtain ⟨res', hpass', hmath', ho', hdQ', hdK', hdV'⟩ := @referencePass_real (withN s n') x'.q x'.k x'.v x'.dO scale true
    segments' tw.group (fun _ => rfl) (hne segments' n')
  refine ⟨res, res', ⟨hmath, hpass⟩, ⟨hmath', hpass'⟩, ?_, ?_, ?_, ?_⟩
  · intro h hh i hi c hc
    obtain ⟨hin, hin'⟩ := tw.inside hi
    rw [ho _ _ _ _ hin, ho' _ _ _ _ hin', tw.out hh hi hc]
  · intro h hh i hi c hc
    obtain ⟨hin, hin'⟩ := tw.inside hi
    rw [hdQ _ _ _ _ hin, hdQ' _ _ _ _ hin', tw.gradQ hh hi hc]
  · intro h hh i hi c hc
    rw [hdK, hdK', tw.gradK hh hi hc]
  · intro h hh i hi c hc
    rw [hdV, hdV', tw.gradV hh hi hc]

/-! ## Segments -/

/-- The positions of segment `seg` are the `len` from `t` on. -/
structure SegmentAt (segId : ℕ → ℤ) (n : ℕ) (seg : ℤ) (t len : ℕ) : Prop where
  inside : t + len ≤ n
  mem_iff : ∀ p < n, segId p = seg ↔ t ≤ p ∧ p < t + len

section Segments
variable {n len t b : ℕ} {seg : ℤ}

/-- `segment_allowed` isolates a segment. -/
theorem SegmentAt.isolates {segId : ℕ → ℕ → ℤ} (hseg : SegmentAt (segId b) n seg t len) :
    Isolates (keeps true (some segId)) n len ⟨b, t⟩ where
  inside := hseg.inside
  keep_iff := by
    intro i hi j hj hor
    have hkeep : keeps true (some segId) b i j = true ↔ segId b i = segId b j ∧ j ≤ i := Kernel.segmentAllowed_iff
    rw [hkeep, ← hseg.mem_iff i hi, ← hseg.mem_iff j hj]
    rw [← hseg.mem_iff i hi, ← hseg.mem_iff j hj] at hor
    constructor
    · rintro ⟨heq, hle⟩
      rcases hor with hs | hs
      · exact ⟨hs, heq ▸ hs, hle⟩
      · exact ⟨heq ▸ hs, hs, hle⟩
    · rintro ⟨hi, hj, hle⟩
      exact ⟨hi.trans hj.symm, hle⟩

/-- The plain triangle isolates all its positions. -/
theorem isolates_causal (len b : ℕ) : Isolates (keeps true none) len len ⟨b, 0⟩ where
  inside := (Nat.zero_add len).le
  keep_iff := by
    intro i hi j hj _
    simp only [keeps, Bool.not_true, Bool.false_or, decide_eq_true_eq]
    omega

/-- Every position of a row of the packer lies in a segment that is a run. -/
theorem segmentAt_layout {entries : List Entry} {packLen p : ℕ} (hp : p < packLen) :
    ∃ t len, SegmentAt (ptr (layout entries packLen).segId) packLen (ptr (layout entries packLen).segId p) t len := by
  have hmem : ∀ t stop, t ≤ stop → stop ≤ packLen →
      (∀ p' < packLen, owner entries p' = owner entries p ↔ t ≤ p' ∧ p' < stop) →
      SegmentAt (ptr (layout entries packLen).segId) packLen (ptr (layout entries packLen).segId p) t (stop - t) := by
    intro t stop hle hstop hall
    refine ⟨by omega, fun p' hp' => ?_⟩
    rw [Kernel.ptr_segId hp, Kernel.ptr_segId hp', Nat.cast_inj, hall p' hp']
    omega
  have hstart := startOf_owner_le entries p
  rcases Nat.lt_or_ge (owner entries p) entries.length with hs | hs
  · have hend := lt_startOf_owner hs
    refine ⟨_, _, hmem (startOf entries (owner entries p)) (min (startOf entries (owner entries p + 1)) packLen)
      (by omega) (min_le_right _ _) fun p' hp' => ?_⟩
    rw [owner_eq_iff hs]
    omega
  · have hlast : owner entries p = entries.length := le_antisymm owner_le hs
    rw [hlast, startOf_length] at hstart
    refine ⟨_, _, hmem (used entries) packLen (by omega) (le_refl _) fun p' hp' => ?_⟩
    rw [hlast, owner_eq_length_iff]
    omega

end Segments

theorem sameRun_slice {α : Type} (heads d len b t : ℕ) (x : Tensor α) :
    SameRun heads d len x (fun b h i c => x b h (t + i) c) ⟨b, t⟩ ⟨b, 0⟩ := by
  intro h _ i _ c _
  dsimp only
  rw [Nat.zero_add]

/-- On a segment of a packed row, the oracles return what they return on the
segment's slices alone, whatever the rest of the batch holds: two rows equal on a
segment get equal outputs and gradients there. -/
theorem packing_isolation (entries : List Entry) (packLen : ℕ) (hfit : used entries ≤ packLen + 1) :
    ∃ row, buildRow entries packLen = .ok row ∧
      (∀ p < packLen, ∃ t len, SegmentAt (ptr row.segId) packLen (ptr row.segId p) t len) ∧
      ∀ (s : Shape) (segId : ℕ → ℕ → ℤ) (b : ℕ) (x : Inputs) (scale : ℝ) (seg : ℤ) (t len : ℕ), s.hkv ∣ s.hq →
        segId b = ptr row.segId → SegmentAt (ptr row.segId) packLen seg t len →
        ∃ full alone, Returns s packLen x scale (some segId) full ∧ Returns s len (x.slice t) scale none alone ∧
          SameResults s len full alone ⟨b, t⟩ ⟨b, 0⟩ ∧
          ∀ (packLen' : ℕ) (segId' : ℕ → ℕ → ℤ) (b' : ℕ) (x' : Inputs) (seg' : ℤ) (t' : ℕ),
            SegmentAt (segId' b') packLen' seg' t' len → SameInputs s len x x' ⟨b, t⟩ ⟨b', t'⟩ →
              ∃ full', Returns s packLen' x' scale (some segId') full' ∧
                SameResults s len full full' ⟨b, t⟩ ⟨b', t'⟩ := by
  refine ⟨_, buildRow_eq hfit, fun p hp => segmentAt_layout hp, ?_⟩
  intro s segId b x scale seg t len hgroup hrow hseg
  rw [← hrow] at hseg
  have hslice : SameInputs s len x (x.slice t) ⟨b, t⟩ ⟨b, 0⟩ :=
    ⟨sameRun_slice _ _ _ _ _ x.q, sameRun_slice _ _ _ _ _ x.k, sameRun_slice _ _ _ _ _ x.v, sameRun_slice _ _ _ _ _ x.dO⟩
  obtain ⟨full, alone, hfull, halone, hsame⟩ := returns_same scale
    ⟨hgroup, hslice, hseg.isolates, isolates_causal len b⟩
  refine ⟨full, alone, hfull, halone, hsame, ?_⟩
  intro packLen' segId' b' x' seg' t' hseg' hinputs
  obtain ⟨full₁, full', hfull₁, hfull', hsame'⟩ := returns_same scale
    ⟨hgroup, hinputs, hseg.isolates, hseg'.isolates⟩
  -- One pass has one result.
  obtain rfl : full₁ = full := Except.ok.inj (hfull₁.2.symm.trans hfull.2)
  exact ⟨full', hfull', hsame'⟩

/-- The inputs that are 1 everywhere. -/
noncomputable def ones : Inputs := ⟨fun _ _ _ _ => 1, fun _ _ _ _ => 1, fun _ _ _ _ => 1, fun _ _ _ _ => 1⟩

theorem packing_isolation_pair : ∃ row full alone, buildRow [⟨[5, 6], 0⟩, ⟨[7], 0⟩] 4 = .ok row ∧
    Returns ⟨4, 1, 1, 2, 1⟩ 4 ones 1 (some fun _ => ptr row.segId) full ∧
    Returns ⟨4, 1, 1, 2, 1⟩ 3 (ones.slice 0) 1 none alone ∧
    SameResults ⟨4, 1, 1, 2, 1⟩ 3 full alone ⟨0, 0⟩ ⟨0, 0⟩ := by
  obtain ⟨row, hrow, -, hall⟩ := packing_isolation [⟨[5, 6], 0⟩, ⟨[7], 0⟩] 4 (by decide)
  have hlayout : row = layout [⟨[5, 6], 0⟩, ⟨[7], 0⟩] 4 := Except.ok.inj (hrow.symm.trans (buildRow_eq (by decide)))
  have hseg : SegmentAt (ptr row.segId) 4 0 0 3 := by
    rw [hlayout]
    exact ⟨by decide, by decide⟩
  obtain ⟨full, alone, hfull, halone, hsame, -⟩ :=
    hall ⟨4, 1, 1, 2, 1⟩ (fun _ => ptr row.segId) 0 ones 1 0 0 3 (by decide) rfl hseg
  exact ⟨row, full, alone, hrow, hfull, halone, hsame⟩

end MlxTrainPerf.Attention
