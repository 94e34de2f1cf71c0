import MlxTrainPerf.Attention.Launch
/-!
# What a plan guarantees

The closed form is the exact answer to the budget (`le_closedForm_iff`), so the
belt loop never fires and cuts stay on block boundaries. The planner's running
counters are those of the open command buffer (`Tracks`), turn by turn.
-/
open Loops

namespace MlxTrainPerf.Launch

/-! ## Costs -/

section Costs
variable {p : Pass} {r0 w : ℕ}

theorem two_causalPairs (r0 w : ℕ) : 2 * causalPairs r0 (r0 + w) = w * (w + (2 * r0 + 1)) := by
  have hrows : r0 + w - r0 = w := Nat.add_sub_cancel_left r0 w
  have heven : 2 ∣ w * (r0 + (r0 + w) + 1) := by
    have : w * (r0 + (r0 + w) + 1) = w * (w + 1) + 2 * (w * r0) := by ring
    rw [this]
    exact (Nat.even_mul_succ_self w).two_dvd.add (Nat.dvd_mul_right 2 _)
  unfold causalPairs
  rw [hrows, Nat.mul_div_cancel' heven]
  ring

theorem seconds_le_iff (hrate : 0 < p.rate) {budgetS : ℚ} :
    seconds p r0 (r0 + w) ≤ budgetS ↔ (rangeMacs p r0 (r0 + w) : ℚ) ≤ budgetS * p.rate := div_le_iff₀ hrate

end Costs

/-! ## The closed form -/

theorem le_causalRoot_iff {k a : ℕ} {bp : ℚ} (hbp : 0 ≤ bp) :
    k ≤ causalRoot a bp ↔ (k : ℚ) * (k + a) ≤ 2 * bp := by
  have hfloor : ∀ m : ℕ, m ≤ Nat.sqrt ⌊(a * a + 8 * bp : ℚ)⌋.toNat ↔ (m : ℚ) * m ≤ a * a + 8 * bp := by
    intro m
    rw [Nat.le_sqrt, Int.le_toNat (Int.floor_nonneg.2 (by positivity)), Int.le_floor]
    push_cast
    rfl
  have ha : a ≤ Nat.sqrt ⌊(a * a + 8 * bp : ℚ)⌋.toNat := (hfloor a).2 (by linarith)
  unfold causalRoot
  have hk : k ≤ (Nat.sqrt ⌊(a * a + 8 * bp : ℚ)⌋.toNat - a) / 2 ↔
      2 * k + a ≤ Nat.sqrt ⌊(a * a + 8 * bp : ℚ)⌋.toNat := by omega
  rw [hk, hfloor]
  push_cast
  constructor
  · intro h
    linarith
  · intro h
    linarith

/-- `causalRoot` is the truncated root the source computes. -/
theorem causalRoot_eq_floor (a : ℕ) {bp : ℚ} (hbp : 0 ≤ bp) :
    (causalRoot a bp : ℤ) = ⌊(Real.sqrt (a * a + 8 * (bp : ℝ)) - a) / 2⌋ := by
  have hbp' : (0 : ℝ) ≤ (bp : ℝ) := by exact_mod_cast hbp
  have hnonneg : (0 : ℝ) ≤ a * a + 8 * (bp : ℝ) := add_nonneg (mul_self_nonneg _) (by linarith)
  have hk : ∀ k : ℕ, k ≤ causalRoot a bp ↔ (k : ℝ) ≤ (Real.sqrt (a * a + 8 * (bp : ℝ)) - a) / 2 := by
    intro k
    have hsq : (k : ℝ) ≤ (Real.sqrt (a * a + 8 * (bp : ℝ)) - a) / 2 ↔
        (2 * k + a : ℝ) ≤ Real.sqrt (a * a + 8 * (bp : ℝ)) := by
      constructor <;> intro h <;> linarith
    rw [le_causalRoot_iff hbp, hsq, Real.le_sqrt (by positivity) hnonneg]
    have hcast : ((k : ℚ) * (k + a) ≤ 2 * bp) ↔ ((k : ℝ) * (k + a) ≤ 2 * (bp : ℝ)) := by exact_mod_cast Iff.rfl
    rw [hcast]
    constructor <;> intro h <;> nlinarith
  symm
  rw [Int.floor_eq_iff]
  refine ⟨by exact_mod_cast (hk _).1 le_rfl, ?_⟩
  have hsucc := mt (hk (causalRoot a bp + 1)).2 (by omega)
  push_cast at hsucc ⊢
  exact not_le.1 hsucc

/-- The closed form is exactly the widest width within the MAC budget. -/
theorem le_closedForm_iff {p : Pass} {r0 k : ℕ} {budgetMacs : ℚ} (hcost : 0 < p.pairCost) (hn : 0 < p.n)
    (hbudget : 0 ≤ budgetMacs) : k ≤ closedForm p r0 budgetMacs ↔ (rangeMacs p r0 (r0 + k) : ℚ) ≤ budgetMacs := by
  have hcost' : (0 : ℚ) < p.pairCost := by exact_mod_cast hcost
  unfold closedForm rangeMacs
  split
  · have hpairs : ((2 * causalPairs r0 (r0 + k) : ℕ) : ℚ) = k * (k + (2 * r0 + 1 : ℕ)) := by
      rw [two_causalPairs]
      push_cast
      rfl
    rw [le_causalRoot_iff (by positivity), ← hpairs, ← mul_div_assoc, le_div_iff₀ hcost']
    push_cast
    constructor <;> intro h <;> linarith
  · rw [Int.le_toNat (Int.floor_nonneg.2 (by positivity)), Int.le_floor, le_div_iff₀ (by positivity),
      Nat.add_sub_cancel_left]
    push_cast
    rw [mul_assoc]

/-! ## The widest range -/

section Widest
variable {p : Pass} {r0 blockAlign w : ℕ} {budgetS : ℚ}

theorem roundToBlock_le : roundToBlock p r0 blockAlign w ≤ min w (p.n - r0) := by
  unfold roundToBlock
  dsimp only
  split
  · exact Nat.div_mul_le_self _ _
  · exact le_refl _

theorem roundToBlock_aligned (halign : 1 ≤ blockAlign) :
    blockAlign ∣ roundToBlock p r0 blockAlign w ∨ roundToBlock p r0 blockAlign w = p.n - r0 := by
  unfold roundToBlock
  dsimp only
  split
  · exact Or.inl (Nat.dvd_mul_left _ _)
  · next h =>
    rcases Nat.lt_or_ge (min w (p.n - r0)) (p.n - r0) with hlt | hge
    · obtain rfl : blockAlign = 1 := by omega
      exact Or.inl (one_dvd _)
    · exact Or.inr (by omega)

/-- A candidate within the budget goes through the belt loop unchanged. -/
theorem beltLoop_eq (h : seconds p r0 (r0 + w) ≤ budgetS) : beltLoop p r0 budgetS blockAlign w = w := by
  unfold beltLoop
  rw [if_neg fun hbad => not_lt.2 h hbad.2]

/-- What `_widest_within` returns: a range inside `[r0, n)` that fits the
budget and ends on a block boundary or at `n`. -/
structure FitsBudget (p : Pass) (r0 blockAlign : ℕ) (budgetS : ℚ) (w : ℕ) : Prop where
  inside : w ≤ p.n - r0
  within : 0 < w → seconds p r0 (r0 + w) ≤ budgetS
  aligned : blockAlign ∣ w ∨ w = p.n - r0

/-- The closed form is exact, so the belt loop has nothing to repair. -/
theorem widestWithin_eq (hcost : 0 < p.pairCost) (hrate : 0 < p.rate) (hr0 : r0 < p.n) (hbudget : 0 < budgetS) :
    widestWithin p r0 budgetS blockAlign = roundToBlock p r0 blockAlign (closedForm p r0 (budgetS * p.rate)) := by
  have hpos : 0 < budgetS * p.rate := mul_pos hbudget hrate
  have hle := @roundToBlock_le p r0 blockAlign (closedForm p r0 (budgetS * p.rate))
  unfold widestWithin
  dsimp only
  rw [if_neg (not_le.2 hpos), beltLoop_eq]
  rw [seconds_le_iff hrate]
  exact (le_closedForm_iff hcost (by omega) hpos.le).1 (by omega)

theorem widestWithin_fits (hcost : 0 < p.pairCost) (hrate : 0 < p.rate) (halign : 1 ≤ blockAlign) (hr0 : r0 < p.n) :
    FitsBudget p r0 blockAlign budgetS (widestWithin p r0 budgetS blockAlign) := by
  rcases le_or_gt budgetS 0 with hbudget | hbudget
  · have hzero : widestWithin p r0 budgetS blockAlign = 0 :=
      if_pos (mul_nonpos_of_nonpos_of_nonneg hbudget hrate.le)
    rw [hzero]
    exact ⟨Nat.zero_le _, fun h => absurd h (lt_irrefl 0), Or.inl (Nat.dvd_zero _)⟩
  · have hle := @roundToBlock_le p r0 blockAlign (closedForm p r0 (budgetS * p.rate))
    rw [widestWithin_eq hcost hrate hr0 hbudget]
    refine ⟨by omega, fun _ => ?_, roundToBlock_aligned halign⟩
    rw [seconds_le_iff hrate]
    exact (le_closedForm_iff hcost (by omega) (mul_pos hbudget hrate).le).1 (by omega)

end Widest

/-! ## Command buffers -/

/-- Total projected time of a buffer. -/
def bufferSeconds (p : Pass) (held : List (ℕ × ℕ)) : ℚ := (held.map fun r => seconds p r.1 r.2).sum

/-- The planner's counters are those of the open buffer `held`, which has not
committed and is within budget. -/
structure Tracks (p : Pass) (c : Credit) (buf : Buf) (held : List (ℕ × ℕ)) : Prop where
  ops : buf.ops = held.length
  elems : held ≠ [] → buf.elems = c.liveInputElems + (held.map fun r => c.output r.1 r.2).sum
  time : buf.time = bufferSeconds p held
  within : bufferSeconds p held ≤ maxDispatchSeconds

section Buffers
variable {p : Pass} {c : Credit} {buf : Buf} {held : List (ℕ × ℕ)} {r0 r1 : ℕ}

theorem empty_tracks : Tracks p c .empty [] := by
  constructor <;> simp [Buf.empty, bufferSeconds, maxDispatchSeconds]

theorem bufferSeconds_append (held : List (ℕ × ℕ)) (r0 r1 : ℕ) :
    bufferSeconds p (held ++ [(r0, r1)]) = bufferSeconds p held + seconds p r0 r1 := by
  simp [bufferSeconds]

theorem add_tracks (h : Tracks p c buf held) (hin : seconds p r0 r1 ≤ maxDispatchSeconds - buf.time) :
    Tracks p c (buf.add p c r0 r1) (held ++ [(r0, r1)]) := by
  constructor
  · simp [Buf.add, h.ops]
  · intro _
    simp only [Buf.add, h.ops, List.map_append, List.sum_append, List.map_cons, List.map_nil, List.sum_singleton]
    cases held with
    | nil => simp
    | cons r rs =>
      rw [if_neg (by simp), h.elems (by simp)]
      omega
  · rw [bufferSeconds_append, ← h.time]
    rfl
  · have := h.time
    rw [bufferSeconds_append]
    linarith

/-- The planner resets exactly when the buffer commits. -/
theorem settle_eq (h : Tracks p c buf held) (hne : held ≠ []) :
    buf.settle = if commits c held then .empty else buf := by
  unfold Buf.settle commits
  rw [h.elems hne, h.ops]
  simp only [Bool.or_eq_true, decide_eq_true_eq]

/-- When the caller's tensors alone reach the threshold, every dispatch commits. -/
theorem settle_of_live (h : packCommitElems ≤ c.liveInputElems) :
    (Buf.empty.add p c r0 r1).settle = .empty := by
  unfold Buf.settle
  rw [if_pos]
  simp only [Buf.add, Buf.empty, if_true]
  omega

theorem held_within (h : Tracks p c buf held) : ∀ b ∈ buffersFrom c held [], bufferSeconds p b ≤ maxDispatchSeconds := by
  intro b hb
  unfold buffersFrom at hb
  split at hb
  · cases hb
  · obtain rfl := List.mem_singleton.1 hb
    exact h.within

end Buffers

/-! ## Plans -/

/-- What a plan of the rows `[r0, n)` guarantees, when its first buffer already
holds `held`. -/
structure SafePlan (p : Pass) (c : Credit) (blockAlign r0 : ℕ) (held ranges : List (ℕ × ℕ)) : Prop where
  tiles : Tiles r0 p.n ranges
  aligned : ∀ r ∈ ranges, r.2 < p.n → blockAlign ∣ r.2
  within : ∀ b ∈ buffersFrom c held ranges, bufferSeconds p b ≤ maxDispatchSeconds

section Plan
variable {p : Pass} {c : Credit} {blockAlign : ℕ}

theorem planLoop_done {r0 : ℕ} {buf : Buf} (hr0 : p.n ≤ r0) : planLoop p c blockAlign r0 buf = .ok [] := by
  rw [planLoop, if_neg (not_lt.2 hr0)]

theorem planLoop_step {r0 w : ℕ} {buf : Buf} {rest : List (ℕ × ℕ)} (hr0 : r0 < p.n)
    (hw : widestWithin p r0 (maxDispatchSeconds - buf.time) blockAlign = w) (hpos : 0 < w)
    (hrest : planLoop p c blockAlign (r0 + w) (buf.add p c r0 (r0 + w)).settle = .ok rest) :
    planLoop p c blockAlign r0 buf = .ok ((r0, r0 + w) :: rest) := by
  subst hw
  rw [planLoop, if_pos hr0]
  dsimp only
  rw [if_neg hpos.ne', hrest]
  rfl

theorem planLoop_ok {r0 : ℕ} {buf : Buf} {ranges : List (ℕ × ℕ)} (hr0 : r0 < p.n)
    (h : planLoop p c blockAlign r0 buf = .ok ranges) :
    ∃ w rest, w = widestWithin p r0 (maxDispatchSeconds - buf.time) blockAlign ∧ 0 < w ∧
      planLoop p c blockAlign (r0 + w) (buf.add p c r0 (r0 + w)).settle = .ok rest ∧ ranges = (r0, r0 + w) :: rest := by
  rw [planLoop, if_pos hr0] at h
  dsimp only at h
  split at h
  · cases h
  · next hw =>
    cases hrest : planLoop p c blockAlign (r0 + widestWithin p r0 (maxDispatchSeconds - buf.time) blockAlign)
        (buf.add p c r0 (r0 + widestWithin p r0 (maxDispatchSeconds - buf.time) blockAlign)).settle with
    | error e =>
      rw [hrest] at h
      cases h
    | ok rest =>
      rw [hrest] at h
      cases h
      exact ⟨_, rest, rfl, Nat.pos_of_ne_zero hw, hrest, rfl⟩

/-- Every plan the loop returns is safe, from any row on a block boundary and
any counters that track the open buffer. -/
theorem planLoop_safe (hcost : 0 < p.pairCost) (hrate : 0 < p.rate) (halign : 1 ≤ blockAlign) :
    ∀ m r0 buf held ranges, p.n - r0 = m → r0 ≤ p.n → (blockAlign ∣ r0 ∨ r0 = p.n) → Tracks p c buf held →
      planLoop p c blockAlign r0 buf = .ok ranges → SafePlan p c blockAlign r0 held ranges := by
  intro m
  induction m using Nat.strong_induction_on with
  | _ m ih =>
    intro r0 buf held ranges hm hle hcut htrack h
    rcases hle.lt_or_eq with hlt | rfl
    · obtain ⟨w, rest, hw, hpos, hrest, rfl⟩ := planLoop_ok hlt h
      have hfit : FitsBudget p r0 blockAlign (maxDispatchSeconds - buf.time) w := by
        rw [hw]
        exact widestWithin_fits hcost hrate halign hlt
      have hadd := add_tracks htrack (hfit.within hpos)
      have hin := hfit.inside
      have hcut' : blockAlign ∣ r0 + w ∨ r0 + w = p.n := by
        rcases hfit.aligned with hd | hend
        · exact hcut.imp (fun hr => hr.add hd) fun hr => by omega
        · exact Or.inr (by omega)
      have hne : held ++ [(r0, r0 + w)] ≠ [] := by simp
      -- After the dispatch the buffer either commits and a fresh one opens, or stays open.
      have hsettle : ∃ held', Tracks p c (buf.add p c r0 (r0 + w)).settle held' ∧
          ((∀ b ∈ buffersFrom c held' rest, bufferSeconds p b ≤ maxDispatchSeconds) →
            ∀ b ∈ buffersFrom c held ((r0, r0 + w) :: rest), bufferSeconds p b ≤ maxDispatchSeconds) := by
        rw [settle_eq hadd hne, buffersFrom]
        split
        · refine ⟨[], empty_tracks, fun hrest' b hb => ?_⟩
          rcases List.mem_cons.1 hb with rfl | hb
          · exact hadd.within
          · exact hrest' b hb
        · exact ⟨_, hadd, fun hrest' => hrest'⟩
      obtain ⟨held', htrack', hbuffers⟩ := hsettle
      have hsafe := ih (p.n - (r0 + w)) (by omega) (r0 + w) _ held' rest rfl (by omega) hcut' htrack' hrest
      refine ⟨⟨rfl, Nat.lt_add_of_pos_right hpos, hsafe.tiles⟩, ?_, hbuffers hsafe.within⟩
      intro r hr hend
      rcases List.mem_cons.1 hr with rfl | hr
      · exact hcut'.resolve_right hend.ne
      · exact hsafe.aligned r hr hend
    · rw [planLoop_done (le_refl _)] at h
      cases h
      refine ⟨rfl, ?_, held_within htrack⟩
      intro r hr
      cases hr

theorem planBudgetedRanges_safe (hcost : 0 < p.pairCost) (hrate : 0 < p.rate) (halign : 1 ≤ blockAlign)
    {ranges : List (ℕ × ℕ)} (h : planBudgetedRanges p c blockAlign = .ok ranges) :
    SafePlan p c blockAlign 0 [] ranges :=
  planLoop_safe hcost hrate halign _ 0 .empty [] ranges rfl (Nat.zero_le _) (Or.inl (Nat.dvd_zero _)) empty_tracks h

end Plan

/-- A pass cut in two, each half in a command buffer of its own. -/
theorem planBudgetedRanges_halves {p : Pass} {c : Credit} {blockAlign w : ℕ} (hcost : 0 < p.pairCost)
    (hrate : 0 < p.rate) (hw : 0 < w) (hn : p.n = w + w) (hlive : packCommitElems ≤ c.liveInputElems)
    (hround : ∀ r0, r0 = 0 ∨ r0 = w → roundToBlock p r0 blockAlign (closedForm p r0 (maxDispatchSeconds * p.rate)) = w) :
    planBudgetedRanges p c blockAlign = .ok [(0, w), (w, w + w)] := by
  have hwidest : ∀ r0, r0 = 0 ∨ r0 = w → widestWithin p r0 (maxDispatchSeconds - Buf.empty.time) blockAlign = w := by
    intro r0 hr0
    rw [show maxDispatchSeconds - Buf.empty.time = maxDispatchSeconds from sub_zero _,
      widestWithin_eq hcost hrate (by omega) (by norm_num [maxDispatchSeconds]), hround r0 hr0]
  have hsettle := fun r0 r1 => @settle_of_live p c r0 r1 hlive
  unfold planBudgetedRanges
  have hlast : planLoop p c blockAlign w .empty = .ok [(w, w + w)] := by
    apply planLoop_step (by omega) (hwidest w (Or.inr rfl)) hw
    rw [hsettle]
    exact planLoop_done (by omega)
  have hfirst := @planLoop_step p c blockAlign 0 w .empty [(w, w + w)] (by omega) (hwidest 0 (Or.inl rfl)) hw
  rw [hsettle, Nat.zero_add] at hfirst
  exact hfirst hlast

/-- A returned plan tiles the rows in order, cuts on block boundaries, and keeps
every command buffer within the dispatch budget. -/
theorem plan_budgeted_ranges_safe (p : Pass) (c : Credit) (blockAlign : ℕ) (hcost : 0 < p.pairCost)
    (hrate : 0 < p.rate) (halign : 1 ≤ blockAlign) (ranges : List (ℕ × ℕ))
    (h : planBudgetedRanges p c blockAlign = .ok ranges) :
    Tiles 0 p.n ranges ∧ (∀ r ∈ ranges, r.2 < p.n → blockAlign ∣ r.2) ∧
      ∀ buf ∈ commandBuffers c ranges, (buf.map fun r => seconds p r.1 r.2).sum ≤ maxDispatchSeconds := by
  have hsafe := planBudgetedRanges_safe hcost hrate halign h
  exact ⟨hsafe.tiles, hsafe.aligned, hsafe.within⟩

theorem plan_budgeted_ranges_safe_halves :
    Tiles 0 4 [(0, 2), (2, 4)] ∧ (∀ r ∈ [(0, 2), (2, 4)], r.2 < 4 → 2 ∣ r.2) ∧
      ∀ buf ∈ commandBuffers ⟨packCommitElems, none⟩ [(0, 2), (2, 4)],
        (buf.map fun r => seconds ⟨4, 1, 16, false⟩ r.1 r.2).sum ≤ maxDispatchSeconds :=
  plan_budgeted_ranges_safe ⟨4, 1, 16, false⟩ ⟨packCommitElems, none⟩ 2 (by decide) (by norm_num) (by decide) _ <|
    planBudgetedRanges_halves (by decide) (by norm_num) (by decide) rfl (le_refl _) fun r0 hr0 => by
      rcases hr0 with rfl | rfl <;> norm_num [roundToBlock, closedForm, maxDispatchSeconds] <;> rfl

end MlxTrainPerf.Launch
