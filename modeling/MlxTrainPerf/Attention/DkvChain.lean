import MlxTrainPerf.Attention.LaunchPlan
import MlxTrainPerf.Attention.DkvCoverage
/-!
# Chaining the dK/dV dispatches

Each dispatch seeds its key blocks from the buffers the last one stored. A plan
cut on 32-row boundaries gives every key block the accumulate steps of a single
dispatch, in the same order, so the carried values agree for any accumulator.
-/
open Loops

namespace MlxTrainPerf.Attention.Kernel

/-! ## Buffers -/

section Chain
variable {α : Type} (acc : DkvOp → ℕ → α → α) (f : Flags) (segId : ℕ → ℤ) (n : ℕ) (heads : Heads)

/-- The accumulator of `key` after the steps `ops`, from its seed. -/
def runOps (ops : List DkvOp) (key : ℕ) (seed : α) : α := ops.foldl (fun x op => acc op key x) seed

/-- The buffer one dispatch stores: every key from its seed, over-hang keys not at all. -/
def dispatchBwdDkvRange (r : ℕ × ℕ) (buf : ℕ → α) (key : ℕ) : α :=
  if key < n then
    runOps acc (accumulates (bwdDkvMma f segId n heads r.1 r.2 (key / 32))) key (buf (min key (n - 1)))
  else buf key

/-- `for q_lo, q_hi in ranges: dk, dv = _dispatch_bwd_dkv_range(.., dk, dv, ..)`. -/
def chainBwdDkv (ranges : List (ℕ × ℕ)) (buf : ℕ → α) : ℕ → α :=
  ranges.foldl (fun buf r => dispatchBwdDkvRange acc f segId n heads r buf) buf

/-- The steps a key block takes over a whole chain. -/
def chainOps (ranges : List (ℕ × ℕ)) (kblock : ℕ) : List DkvOp :=
  ranges.flatMap fun r => accumulates (bwdDkvMma f segId n heads r.1 r.2 kblock)

variable {acc f segId n heads}

theorem runOps_append (a b : List DkvOp) (key : ℕ) (seed : α) :
    runOps acc (a ++ b) key seed = runOps acc b key (runOps acc a key seed) := List.foldl_append

/-- A chain carries each key through its block's steps, in order. -/
theorem chainBwdDkv_eq (ranges : List (ℕ × ℕ)) {buf : ℕ → α} {key : ℕ} (hkey : key < n) :
    chainBwdDkv acc f segId n heads ranges buf key =
      runOps acc (chainOps f segId n heads ranges (key / 32)) key (buf key) := by
  have hclamp : min key (n - 1) = key := by omega
  induction ranges generalizing buf with
  | nil => rfl
  | cons r ranges ih =>
    have hstep : chainBwdDkv acc f segId n heads (r :: ranges) buf =
        chainBwdDkv acc f segId n heads ranges (dispatchBwdDkvRange acc f segId n heads r buf) := rfl
    rw [hstep, ih, dispatchBwdDkvRange, if_pos hkey, hclamp, ← runOps_append]
    rfl

end Chain

/-! ## The steps of a chain -/

/-- After the cut at `c` the key block is left at once, if a block before it broke. -/
def CutBreaks (f : Flags) (segId : ℕ → ℤ) (n kblock c : ℕ) : Prop :=
  ∀ b, 32 ∣ b → kblock * 32 ≤ b → b < c → segBreaks f segId n (kblock * 32) b = true →
    segBreaks f segId n (kblock * 32) c = true

/-- The steps of a key block that walks `blocks` up to its first break. -/
def runBlocks (f : Flags) (segId : ℕ → ℤ) (n : ℕ) (heads : Heads) (kblock : ℕ) (blocks : List ℕ) : List DkvOp :=
  (blocks.takeWhile fun b => !segBreaks f segId n (kblock * 32) b).flatMap (dkvOps f segId n heads n (kblock * 32))

section Steps
variable {f : Flags} {segId : ℕ → ℤ} {n qLo qHi kblock qb0 a b c : ℕ} {heads : Heads} {ranges : List (ℕ × ℕ)}

/-- A whole query block keeps the same pairs in its dispatch as in a single one. -/
theorem dkvOps_full (hblock : qb0 + 32 ≤ qHi) (hhi : qHi ≤ n) :
    dkvOps f segId n heads qHi (kblock * 32) qb0 = dkvOps f segId n heads n (kblock * 32) qb0 := by
  have hkept : dkvKept f segId n qHi (kblock * 32) qb0 = dkvKept f segId n n (kblock * 32) qb0 := by
    unfold dkvKept
    apply List.filter_congr
    intro p hp
    obtain ⟨cell, hcell, rfl⟩ := List.mem_map.1 hp
    have hlt := (blockCells_lt hcell).2
    unfold keepInRange
    rw [decide_eq_true (show qb0 + cell.2 < qHi by omega), decide_eq_true (show qb0 + cell.2 < n by omega)]
  unfold dkvOps
  rw [hkept]

theorem qStart_dvd (h : 32 ∣ qLo) : 32 ∣ qStart f qLo (kblock * 32) := by
  unfold qStart
  split
  · rcases max_choice qLo (kblock * 32) with hm | hm <;> rw [hm]
    · exact h
    · exact Nat.dvd_mul_left 32 kblock
  · exact h

/-- The query blocks of an aligned range are the multiples of 32 in it. -/
theorem mem_qSteps (h : 32 ∣ qLo) :
    b ∈ steps 32 (qStart f qLo (kblock * 32)) qHi ↔ qStart f qLo (kblock * 32) ≤ b ∧ b < qHi ∧ 32 ∣ b := by
  have hd := @qStart_dvd f qLo kblock h
  rw [mem_steps (by decide)]
  refine and_congr_right fun hle => and_congr_right fun _ => ⟨fun hb => ?_, fun hb => Nat.dvd_sub hb hd⟩
  rw [← Nat.sub_add_cancel hle]
  exact hb.add hd

/-- One dispatch of an aligned plan keeps whole query blocks. -/
theorem accumulates_aligned (hlo : 32 ∣ qLo) (hcut : qHi < n → 32 ∣ qHi) (hhi : qHi ≤ n) :
    accumulates (bwdDkvMma f segId n heads qLo qHi kblock) =
      runBlocks f segId n heads kblock (steps 32 (qStart f qLo (kblock * 32)) qHi) := by
  rw [accumulates_bwdDkvMma]
  apply List.flatMap_congr
  intro b hb
  obtain ⟨-, hlt, hd⟩ := (mem_qSteps hlo).1 ((List.takeWhile_sublist _).subset hb)
  rcases hhi.lt_or_eq with hcut' | rfl
  · have := hcut hcut'
    exact dkvOps_full (by omega) hhi
  · rfl

/-- A range that ends before a key block takes it through no step. -/
theorem accumulates_before (hcausal : f.causal = true) (h : qHi ≤ kblock * 32) :
    accumulates (bwdDkvMma f segId n heads qLo qHi kblock) = [] := by
  have hempty : qHi ≤ qStart f qLo (kblock * 32) := by
    unfold qStart
    rw [if_pos hcausal]
    exact h.trans (le_max_right _ _)
  rw [accumulates_bwdDkvMma, steps_eq_nil hempty]
  rfl

theorem runBlocks_append {xs ys : List ℕ} (h : ∀ x ∈ xs, segBreaks f segId n (kblock * 32) x = true →
    ∀ y ∈ ys.head?, segBreaks f segId n (kblock * 32) y = true) :
    runBlocks f segId n heads kblock (xs ++ ys) =
      runBlocks f segId n heads kblock xs ++ runBlocks f segId n heads kblock ys := by
  unfold runBlocks
  rw [takeWhile_append_of_stop, List.flatMap_append]
  intro x hx hbreak y hy
  rw [Bool.not_eq_false'] at hbreak ⊢
  exact h x hx hbreak y hy

/-- A break bounds the segments of a causal body only. -/
theorem causal_of_segBreaks (hvalid : validatePredicateFlags f = .ok ()) (h : segBreaks f segId n (kblock * 32) b = true) :
    f.causal = true := by
  by_contra hcausal
  have hpacked : f.packed = true := by
    simp only [segBreaks, bounded, Bool.and_eq_true] at h
    exact h.1.1
  have hcausal := Bool.eq_false_of_not_eq_true hcausal
  unfold validatePredicateFlags at hvalid
  rw [hcausal, hpacked] at hvalid
  revert hvalid
  cases f.flipCausal <;> cases f.dropDiagonal <;> simp

/-- A key block that starts after the cut at `c` does not see it. -/
theorem qStart_of_past (hle : qLo ≤ c) (h : c < qStart f qLo (kblock * 32)) :
    qStart f c (kblock * 32) = qStart f qLo (kblock * 32) := by
  unfold qStart at h ⊢
  split
  · next hcausal =>
    rw [if_pos hcausal] at h
    omega
  · next hcausal =>
    rw [if_neg hcausal] at h
    omega

theorem qStart_of_reached (h : qStart f qLo (kblock * 32) ≤ c) : qStart f c (kblock * 32) = c := by
  unfold qStart at h ⊢
  split
  · next hcausal =>
    rw [if_pos hcausal] at h
    omega
  · rfl

/-- The steps up to an aligned cut and from it are the steps across it, when the
cut breaks with the blocks before it. -/
theorem runBlocks_cut (hvalid : validatePredicateFlags f = .ok ()) (ha : 32 ∣ qLo) (hd : 32 ∣ c) (hle : qLo ≤ c) (hcut : c < n)
    (hbreaks : CutBreaks f segId n kblock c) :
    runBlocks f segId n heads kblock (steps 32 (qStart f qLo (kblock * 32)) c) ++
        runBlocks f segId n heads kblock (steps 32 (qStart f c (kblock * 32)) n) =
      runBlocks f segId n heads kblock (steps 32 (qStart f qLo (kblock * 32)) n) := by
  rcases Nat.lt_or_ge c (qStart f qLo (kblock * 32)) with hpast | hin
  · rw [steps_eq_nil hpast.le, qStart_of_past hle hpast]
    rfl
  · rw [qStart_of_reached hin, steps_append (by decide) hin hcut.le (Nat.dvd_sub hd (qStart_dvd ha)), runBlocks_append]
    intro x hx hbreak y hy
    obtain ⟨hstart, hlt, hdx⟩ := (mem_qSteps ha).1 hx
    have hkey : kblock * 32 ≤ x := by
      unfold qStart at hstart
      rw [if_pos (causal_of_segBreaks hvalid hbreak)] at hstart
      exact (le_max_right _ _).trans hstart
    rw [steps_eq_cons (by decide) hcut] at hy
    obtain rfl : c = y := Option.some.inj hy
    exact hbreaks x hdx hkey hlt hbreak

/-- An aligned plan whose cuts break with the blocks before them takes every key
block through the steps of a single dispatch. -/
theorem chainOps_eq (hvalid : validatePredicateFlags f = .ok ()) (hranges : Tiles a n ranges) (ha : 32 ∣ a)
    (haligned : ∀ r ∈ ranges, r.2 < n → 32 ∣ r.2) (hcuts : ∀ r ∈ ranges, CutBreaks f segId n kblock r.1) :
    chainOps f segId n heads ranges kblock =
      runBlocks f segId n heads kblock (steps 32 (qStart f a (kblock * 32)) n) := by
  induction ranges generalizing a with
  | nil =>
    obtain rfl : a = n := hranges
    have hempty : a ≤ qStart f a (kblock * 32) := by
      unfold qStart
      split
      · exact le_max_left _ _
      · exact le_refl a
    rw [steps_eq_nil hempty]
    rfl
  | cons r ranges ih =>
    obtain ⟨rfl, hlt, hrest⟩ := hranges
    have hhead := @accumulates_aligned f segId n r.1 r.2 kblock heads ha (haligned r List.mem_cons_self) hrest.le
    have hcons : chainOps f segId n heads (r :: ranges) kblock =
        accumulates (bwdDkvMma f segId n heads r.1 r.2 kblock) ++ chainOps f segId n heads ranges kblock := rfl
    rw [hcons, hhead]
    cases ranges with
    | nil =>
      have hend : r.2 = n := hrest
      rw [hend]
      exact List.append_nil _
    | cons q ranges =>
      have hq : r.2 = q.1 := hrest.1.symm
      have hcut : r.2 < n := by
        have hle := hrest.2.2.le
        have hlt := hrest.2.1
        omega
      have hd := haligned r List.mem_cons_self hcut
      have hbreaks : CutBreaks f segId n kblock r.2 := by
        rw [hq]
        exact hcuts q (List.mem_cons_of_mem _ List.mem_cons_self)
      rw [ih hrest hd (fun q hq => haligned q (List.mem_cons_of_mem _ hq)) fun q hq => hcuts q (List.mem_cons_of_mem _ hq)]
      exact runBlocks_cut hvalid ha hd hlt.le hcut hbreaks

/-- Where a cut does not break after a block that did, the chain takes a step
there that a single dispatch skips. -/
theorem cutBreaks_of_chainOps (hvalid : validatePredicateFlags f = .ok ()) (hranges : Tiles 0 n ranges)
    (haligned : ∀ r ∈ ranges, 32 ∣ r.1) (hends : ∀ r ∈ ranges, r.2 < n → 32 ∣ r.2)
    (hops : chainOps f segId n heads ranges kblock = accumulates (bwdDkvMma f segId n heads 0 n kblock)) :
    ∀ r ∈ ranges, CutBreaks f segId n kblock r.1 := by
  intro r hr b hd hkey hlt hbreak
  by_contra hcut
  have hcausal := causal_of_segBreaks hvalid hbreak
  obtain ⟨-, hpos, hend⟩ := hranges.bounds hr
  obtain ⟨h, hh⟩ := group_nonempty heads
  have hstart : qStart f r.1 (kblock * 32) = r.1 := by
    unfold qStart
    rw [if_pos hcausal]
    omega
  -- The chain's step at the cut.
  have hchain : (⟨r.1, h, dkvKept f segId n n (kblock * 32) r.1⟩ : DkvOp) ∈ chainOps f segId n heads ranges kblock := by
    refine List.mem_flatMap.2 ⟨r, hr, ?_⟩
    rw [accumulates_aligned (haligned r hr) (hends r hr) hend, hstart, steps_eq_cons (by decide) hpos, runBlocks,
      List.takeWhile_cons_of_pos (by rw [Bool.eq_false_of_not_eq_true hcut]; rfl), List.flatMap_cons]
    exact List.mem_append_left _ (List.mem_map.2 ⟨h, hh, rfl⟩)
  -- A single dispatch has left the key block by then.
  rw [hops, accumulates_aligned (Nat.dvd_zero 32) (fun h => absurd h (lt_irrefl n)) (le_refl n), runBlocks] at hchain
  obtain ⟨c, hc, hmem⟩ := List.mem_flatMap.1 hchain
  obtain ⟨_, -, hop⟩ := List.mem_map.1 hmem
  obtain rfl : c = r.1 := congrArg DkvOp.qb0 hop
  have hb : b ∈ steps 32 (qStart f 0 (kblock * 32)) n := by
    refine (mem_qSteps (Nat.dvd_zero 32)).2 ⟨?_, by omega, hd⟩
    unfold qStart
    rw [if_pos hcausal]
    omega
  have hgo := all_of_mem_takeWhile sorted_steps hc hb hlt
  rw [hbreak] at hgo
  cases hgo

end Steps

/-! ## Cuts and the signs of the ids -/

section Cuts
variable {n qb0 c kblock : ℕ} {f : Flags} {row : IdRow n}

/-- The cut at `c` is sound for a key block: a query block before it with a
negative id, where the cut's id is not negative, was not past the owner's id, or
the cut is past it too. -/
def CutSound (f : Flags) (row : IdRow n) (c kblock : ℕ) : Prop :=
  bounded f = true → ∀ b, 32 ∣ b → kblock * 32 ≤ b → b < c → row.get b < 0 → 0 ≤ row.get c →
    (0 ≤ row.get (ownerIndex f n (kblock * 32)) → row.get (ownerIndex f n (kblock * 32)) < row.get c) ∧
      (row.get (ownerIndex f n (kblock * 32)) < 0 → row.get b ≤ row.get (ownerIndex f n (kblock * 32)))

theorem segBreaks_iff : segBreaks f row.get n (kblock * 32) qb0 = true ↔
    bounded f = true ∧ toUInt (row.get (ownerIndex f n (kblock * 32))) < toUInt (row.get qb0) := by
  simp only [segBreaks, Bool.and_eq_true, decide_eq_true_eq]

/-- Ids of one sign keep their order as `uint`. -/
theorem toUInt_mono {x y : ℤ} (hx : IsInt32 x) (hy : IsInt32 y) (hle : x ≤ y) (hsign : x < 0 → y < 0) :
    toUInt x ≤ toUInt y := by
  rcases lt_or_ge x 0 with hx0 | hx0
  · have hux := toUInt_of_neg hx hx0
    have huy := toUInt_of_neg hy (hsign hx0)
    omega
  · have hux := toUInt_of_nonneg hx hx0
    have huy := toUInt_of_nonneg hy (hx0.trans hle)
    omega

theorem toUInt_lt_iff_of_neg {x y : ℤ} (hx : IsInt32 x) (hy : IsInt32 y) (hx0 : x < 0) (hy0 : y < 0) :
    toUInt x < toUInt y ↔ x < y := by
  have hux := toUInt_of_neg hx hx0
  have huy := toUInt_of_neg hy hy0
  omega

theorem toUInt_lt_iff_of_nonneg {x y : ℤ} (hx : IsInt32 x) (hy : IsInt32 y) (hx0 : 0 ≤ x) (hy0 : 0 ≤ y) :
    toUInt x < toUInt y ↔ x < y := by
  have hux := toUInt_of_nonneg hx hx0
  have huy := toUInt_of_nonneg hy hy0
  omega

theorem cutBreaks_iff (hc : c < n) : CutBreaks f row.get n kblock c ↔ CutSound f row c kblock := by
  have howner := row.get_int32 (ownerIndex f n (kblock * 32))
  have hcut := row.get_int32 c
  constructor
  · intro hbreaks hbounded b hd hkey hlt hb0 hc0
    have hb := row.get_int32 b
    have hkept := fun h => (segBreaks_iff.1 (hbreaks b hd hkey hlt (segBreaks_iff.2 ⟨hbounded, h⟩))).2
    refine ⟨fun ho0 => ?_, fun ho0 => ?_⟩
    · exact (toUInt_lt_iff_of_nonneg howner hcut ho0 hc0).1 (hkept (toUInt_lt_of_signs hb howner hb0 ho0))
    · by_contra hpast
      have hlost := hkept ((toUInt_lt_iff_of_neg howner hb ho0 hb0).2 (not_le.1 hpast))
      exact absurd hlost (toUInt_lt_of_signs howner hcut ho0 hc0).le.not_gt
  · intro hsound b hd hkey hlt hbreak
    obtain ⟨hbounded, hpast⟩ := segBreaks_iff.1 hbreak
    have hb := row.get_int32 b
    refine segBreaks_iff.2 ⟨hbounded, ?_⟩
    by_cases hsigns : row.get b < 0 ∧ 0 ≤ row.get c
    · obtain ⟨hb0, hc0⟩ := hsigns
      obtain ⟨hnonneg, hneg⟩ := hsound hbounded b hd hkey hlt hb0 hc0
      rcases lt_or_ge (row.get (ownerIndex f n (kblock * 32))) 0 with ho0 | ho0
      · exact absurd ((toUInt_lt_iff_of_neg howner hb ho0 hb0).1 hpast) (hneg ho0).not_gt
      · exact (toUInt_lt_iff_of_nonneg howner hcut ho0 hc0).2 (hnonneg ho0)
    · have hsign : row.get b < 0 → row.get c < 0 := fun hb0 => not_le.1 fun hc0 => hsigns ⟨hb0, hc0⟩
      exact hpast.trans_le (toUInt_mono hb hcut (row.get_mono hlt.le hc) hsign)

/-- The packer's ids are not negative, and every cut is sound for them. -/
theorem cutSound_of_nonneg (hids : ∀ i < n, 0 ≤ row.get i) (hc : c < n) : CutSound f row c kblock :=
  fun _ b _ _ hlt hb0 => absurd hb0 (not_lt.2 (hids b (hlt.trans hc)))

end Cuts

/-! ## The planned chain -/

/-- A chain of dispatches agrees with a single one. -/
structure Chained (f : Flags) {n : ℕ} (row : IdRow n) (heads : Heads) (ranges : List (ℕ × ℕ)) : Prop where
  /-- Each key block takes the same steps, in the same order. -/
  steps : ∀ kblock, chainOps f row.get n heads ranges kblock = accumulates (bwdDkvMma f row.get n heads 0 n kblock)
  /-- Every accumulator ends on the same values. -/
  values : ∀ (α : Type) (acc : DkvOp → ℕ → α → α) (buf : ℕ → α), ∀ key < n,
    chainBwdDkv acc f row.get n heads ranges buf key = chainBwdDkv acc f row.get n heads [(0, n)] buf key
  /-- A key block that starts after a range keeps its carried values. -/
  passes : ∀ r ∈ ranges, ∀ (α : Type) (acc : DkvOp → ℕ → α → α) (buf : ℕ → α) (key : ℕ),
    f.causal = true → key < n → r.2 ≤ key / 32 * 32 → dispatchBwdDkvRange acc f row.get n heads r buf key = buf key

theorem chained_of_steps {f : Flags} {n : ℕ} {row : IdRow n} {heads : Heads} {ranges : List (ℕ × ℕ)}
    (hsteps : ∀ kblock,
      chainOps f row.get n heads ranges kblock = accumulates (bwdDkvMma f row.get n heads 0 n kblock)) :
    Chained f row heads ranges where
  steps := hsteps
  values := by
    intro α acc buf key hkey
    rw [chainBwdDkv_eq ranges hkey, chainBwdDkv_eq [(0, n)] hkey, hsteps]
    congr 1
    exact (List.append_nil _).symm
  passes := by
    intro r _ α acc buf key hcausal hkey hbefore
    have hclamp : min key (n - 1) = key := by omega
    rw [dispatchBwdDkvRange, if_pos hkey, accumulates_before hcausal hbefore, hclamp]
    rfl

/-- The ranges of an aligned plan start on blocks, as they end on them. -/
theorem starts_dvd {a n : ℕ} {ranges : List (ℕ × ℕ)} (hranges : Tiles a n ranges) (ha : 32 ∣ a)
    (hends : ∀ r ∈ ranges, r.2 < n → 32 ∣ r.2) : ∀ r ∈ ranges, 32 ∣ r.1 := by
  induction ranges generalizing a with
  | nil => exact fun r hr => absurd hr List.not_mem_nil
  | cons q ranges ih =>
    obtain ⟨rfl, hlt, hrest⟩ := hranges
    intro r hr
    rcases List.mem_cons.1 hr with rfl | hin
    · exact ha
    · have hq : q.2 < n := by
        have := hrest.bounds hin
        omega
      exact ih hrest (hends q List.mem_cons_self hq) (fun r hr => hends r (List.mem_cons_of_mem _ hr)) r hin

/-- A planned chain agrees with a single dispatch exactly when every cut is
sound for every key block. -/
theorem chained_iff_cutSound (s : Launch.Shape) (rate : ℚ) (f : Flags) (row : IdRow s.n) (heads : Heads)
    (ranges : List (ℕ × ℕ)) (hdims : 0 < s.d ∧ 0 < s.b ∧ 0 < s.hq) (hrate : 0 < rate)
    (hvalid : validatePredicateFlags f = .ok ())
    (hplan : Launch.planDkvDispatches s rate f.causal 32 = .ok ranges) :
    Chained f row heads ranges ↔ ∀ r ∈ ranges, ∀ kblock, CutSound f row r.1 kblock := by
  have hcost : 0 < 4 * s.d * s.b * s.hq := by
    obtain ⟨hd, hb, hq⟩ := hdims
    positivity
  have hsafe := Launch.planBudgetedRanges_safe hcost hrate (by decide) hplan
  have hstarts := starts_dvd hsafe.tiles (Nat.dvd_zero 32) hsafe.aligned
  have hcut : ∀ r ∈ ranges, r.1 < s.n := fun r hr => (hsafe.tiles.bounds hr).2.1.trans_le (hsafe.tiles.bounds hr).2.2
  constructor
  · intro hchained r hr kblock
    rw [← cutBreaks_iff (hcut r hr)]
    exact cutBreaks_of_chainOps hvalid hsafe.tiles hstarts hsafe.aligned (hchained.steps kblock) r hr
  · intro hsound
    apply chained_of_steps
    intro kblock
    rw [chainOps_eq hvalid hsafe.tiles (Nat.dvd_zero 32) hsafe.aligned fun r hr =>
      (cutBreaks_iff (hcut r hr)).2 (hsound r hr kblock)]
    exact (accumulates_aligned (Nat.dvd_zero 32) (fun h => absurd h (lt_irrefl s.n)) (le_refl s.n)).symm

/-- A batch whose causal plan is one block of queries at a time. -/
def twoBlocks : Launch.Shape := ⟨64, 64, 128, 32, 32⟩

theorem planDkvDispatches_twoBlocks :
    Launch.planDkvDispatches twoBlocks (1600 * 2 ^ 21) true 32 = .ok [(0, 32), (32, 64)] := by
  unfold Launch.planDkvDispatches
  refine Launch.planBudgetedRanges_halves (by decide) (by norm_num) (by decide) rfl ?_ ?_
  · decide
  · have hfirst : Nat.sqrt 12801 = 113 := (Nat.eq_sqrt.2 (by decide)).symm
    have hsecond : Nat.sqrt 17025 = 130 := (Nat.eq_sqrt.2 (by decide)).symm
    have htwo : Int.toNat 12801 = 12801 ∧ Int.toNat 17025 = 17025 := ⟨rfl, rfl⟩
    rintro r0 (rfl | rfl) <;>
      norm_num [twoBlocks, Launch.roundToBlock, Launch.closedForm, Launch.causalRoot, Launch.maxDispatchSeconds, htwo,
        hfirst, hsecond]

def zeros : IdRow 64 := ⟨List.replicate 64 0, rfl, by unfold IsInt32; decide, by decide⟩

theorem chained_zeros : Chained packedFlags zeros oneHead [(0, 32), (32, 64)] := by
  refine (chained_iff_cutSound twoBlocks (1600 * 2 ^ 21) packedFlags zeros oneHead _ (by decide) (by norm_num) rfl
    planDkvDispatches_twoBlocks).2 fun r hr kblock => ?_
  fin_cases hr <;> exact cutSound_of_nonneg (by decide) (by decide)

/-- A negative id at row 0 and zeros after it. -/
def oneNegative : IdRow 64 := ⟨-1 :: List.replicate 63 0, rfl, by unfold IsInt32; decide, by decide⟩

/-- A single dispatch leaves key block 0 at once, and the second range of the
plan walks it. -/
theorem not_chained_oneNegative : Launch.planDkvDispatches twoBlocks (1600 * 2 ^ 21) true 32 = .ok [(0, 32), (32, 64)] ∧
    ¬Chained packedFlags oneNegative oneHead [(0, 32), (32, 64)] := by
  refine ⟨planDkvDispatches_twoBlocks, fun hchained => ?_⟩
  have hbreak := cutBreaks_of_chainOps rfl (by decide) (by decide) (by decide) (hchained.steps 0) (32, 64) (by decide)
    0 (Nat.dvd_zero 32) (Nat.zero_le _) (by decide) (by decide)
  revert hbreak
  decide

end MlxTrainPerf.Attention.Kernel
