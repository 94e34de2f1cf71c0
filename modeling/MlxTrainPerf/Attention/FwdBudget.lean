import MlxTrainPerf.Attention.LaunchPlan
import MlxTrainPerf.Lib.Budget
/-!
# When the forward is refused

The planner takes the widest range each time, so each of its command buffers holds one
dispatch: after the widest range the next row no longer fits. It finds a plan exactly
when some tiling commits by its elements alone and either fills every buffer, as the
planner does, or is indifferent to where the rows are cut (`ElementTiling`).
-/
open Loops

namespace MlxTrainPerf.Launch

/-! ## `plan_fwd_dispatches` -/

/-- The refusal, or Python's own error on a pass without work. -/
inductive FwdPlanError
  | budget (e : LaunchBudgetError)
  | zeroDivision
deriving DecidableEq, Repr

/-- 2·D MACs for each pair, over every batch and query head. -/
def fwdPass (s : Shape) (rate : ℚ) (causal : Bool) : Pass := ⟨s.n, 2 * s.d * s.b * s.hq, rate, causal⟩

/-- q, k and v, and the O/L chunk of each range. -/
def fwdCredit (s : Shape) : Credit :=
  ⟨s.b * s.hq * s.n * s.d + 2 * s.b * s.hkv * s.n * s.d, some fun r0 r1 => s.b * s.hq * (r1 - r0) * (s.d + 1)⟩

/-- `plan_fwd_dispatches`. Its first range divides by the rate or by the cost of a row. -/
def planFwdDispatches (s : Shape) (rate : ℚ) (causal : Bool) : Except FwdPlanError (List (ℕ × ℕ)) :=
  if 0 < s.n ∧ (rate = 0 ∨ 0 < rate ∧ (fwdPass s rate causal).pairCost = 0) then .error .zeroDivision
  else (planBudgetedRanges (fwdPass s rate causal) (fwdCredit s) 1).mapError .budget

/-- `check_fwd_budget`. -/
def checkFwdBudget (s : Shape) (rate : ℚ) (causal : Bool) : Except FwdPlanError Unit :=
  (planFwdDispatches s rate causal).map fun _ => ()

/-! ## Spans of rows -/

section Spans
variable {p : Pass} {c : Credit} {a b e k w : ℕ} {rs : List (ℕ × ℕ)}

theorem causalPairs_add (hab : a ≤ b) (hbe : b ≤ e) : causalPairs a b + causalPairs b e = causalPairs a e := by
  obtain ⟨w, rfl⟩ := Nat.exists_eq_add_of_le hab
  obtain ⟨v, rfl⟩ := Nat.exists_eq_add_of_le hbe
  have h₁ := two_causalPairs a w
  have h₂ := two_causalPairs (a + w) v
  have h₃ := two_causalPairs a (w + v)
  rw [← Nat.add_assoc] at h₃
  nlinarith

theorem rangeMacs_add (hab : a ≤ b) (hbe : b ≤ e) : rangeMacs p a b + rangeMacs p b e = rangeMacs p a e := by
  unfold rangeMacs
  split
  · rw [← Nat.add_mul, causalPairs_add hab hbe]
  · rw [← Nat.add_mul, ← Nat.add_mul]
    congr 2
    omega

theorem seconds_add (hab : a ≤ b) (hbe : b ≤ e) : seconds p a b + seconds p b e = seconds p a e := by
  unfold seconds
  rw [← add_div, ← Nat.cast_add, rangeMacs_add hab hbe]

theorem seconds_self : seconds p a a = 0 := by
  have h := @seconds_add p a a a le_rfl le_rfl
  linarith

theorem seconds_nonneg (hrate : 0 < p.rate) : 0 ≤ seconds p a b := div_nonneg (Nat.cast_nonneg _) hrate.le

theorem seconds_le_of_inside (hrate : 0 < p.rate) {a' b' : ℕ} (ha : a' ≤ a) (hab : a ≤ b) (hb : b ≤ b') :
    seconds p a b ≤ seconds p a' b' := by
  have h₁ := @seconds_add p a' a b ha hab
  have h₂ := @seconds_add p a' b b' (ha.trans hab) hb
  have h₃ := @seconds_nonneg p a' a hrate
  have h₄ := @seconds_nonneg p b b' hrate
  linarith

/-- The same rows further down cost no less; without a mask they cost the same. -/
theorem seconds_shift_le (hrate : 0 < p.rate) (h : p.causal = false ∨ a ≤ b) :
    seconds p a (a + w) ≤ seconds p b (b + w) := by
  refine div_le_div_of_nonneg_right (Nat.cast_le.2 ?_) hrate.le
  unfold rangeMacs
  split
  · next hcausal =>
    have hab := h.resolve_left (by simp [hcausal])
    refine Nat.mul_le_mul_right _ ?_
    have h₁ := two_causalPairs a w
    have h₂ := two_causalPairs b w
    have hmul : w * (w + (2 * a + 1)) ≤ w * (w + (2 * b + 1)) := Nat.mul_le_mul_left _ (by omega)
    omega
  · rw [Nat.add_sub_cancel_left, Nat.add_sub_cancel_left]

/-- The projected time of a buffer is that of the rows it spans. -/
theorem bufferSeconds_tiles (h : Tiles a b rs) : bufferSeconds p rs = seconds p a b := by
  induction rs generalizing a with
  | nil =>
    obtain rfl : a = b := h
    exact seconds_self.symm
  | cons r rs ih =>
    obtain ⟨rfl, hlt, htail⟩ := h
    rw [← seconds_add hlt.le htail.le, ← ih htail]
    rfl

/-- Elements a buffer holding these dispatches counts. -/
def bufferElems (c : Credit) (held : List (ℕ × ℕ)) : ℕ := c.liveInputElems + (held.map fun r => c.output r.1 r.2).sum

theorem commits_of_elems (h : packCommitElems ≤ bufferElems c rs) : commits c rs = true :=
  Bool.or_eq_true_iff.2 (.inl (decide_eq_true h))

theorem bufferElems_tiles (hout : ∀ r0 r1, c.output r0 r1 = k * (r1 - r0)) (h : Tiles a b rs) :
    bufferElems c rs = c.liveInputElems + k * (b - a) := by
  unfold bufferElems
  congr 1
  induction rs generalizing a with
  | nil =>
    obtain rfl : a = b := h
    simp
  | cons r rs ih =>
    obtain ⟨rfl, hlt, htail⟩ := h
    have hle := htail.le
    rw [List.map_cons, List.sum_cons, ih htail, hout, ← Nat.mul_add]
    congr 1
    omega

end Spans

/-! ## The widest range -/

section Widest
variable {p : Pass} {c : Credit} {r0 w : ℕ}

/-- The widest range that fits an empty buffer. -/
def widest (p : Pass) (r0 : ℕ) : ℕ := widestWithin p r0 maxDispatchSeconds 1

theorem le_widest_iff (hcost : 0 < p.pairCost) (hrate : 0 < p.rate) (hr0 : r0 < p.n) :
    w ≤ widest p r0 ↔ w ≤ p.n - r0 ∧ seconds p r0 (r0 + w) ≤ maxDispatchSeconds := by
  have hbudget : (0 : ℚ) < maxDispatchSeconds := by norm_num [maxDispatchSeconds]
  have hround : ∀ w, roundToBlock p r0 1 w = min w (p.n - r0) := fun w => if_neg fun h => absurd h.2 (lt_irrefl 1)
  rw [widest, widestWithin_eq hcost hrate hr0 hbudget, hround, le_min_iff, seconds_le_iff hrate,
    le_closedForm_iff hcost (by omega) (mul_pos hbudget hrate).le, and_comm]

theorem widest_le (hcost : 0 < p.pairCost) (hrate : 0 < p.rate) (hr0 : r0 < p.n) : widest p r0 ≤ p.n - r0 :=
  ((le_widest_iff hcost hrate hr0).1 le_rfl).1

/-- A width that fits, while the next does not. -/
theorem widest_eq (hcost : 0 < p.pairCost) (hrate : 0 < p.rate) (hr0 : r0 < p.n) (hin : w ≤ p.n - r0)
    (hfit : seconds p r0 (r0 + w) ≤ maxDispatchSeconds)
    (hnext : r0 + w = p.n ∨ maxDispatchSeconds < seconds p r0 (r0 + (w + 1))) : widest p r0 = w := by
  refine le_antisymm (Nat.le_of_lt_succ ?_) ((le_widest_iff hcost hrate hr0).2 ⟨hin, hfit⟩)
  by_contra hlt
  have hwider := (le_widest_iff hcost hrate hr0).1 (Nat.le_of_not_lt hlt)
  rcases hnext with hend | hover
  · omega
  · exact absurd hwider.2 (not_le.2 hover)

/-- Behind a widest range nothing more fits the buffer. -/
theorem widestWithin_rest (hcost : 0 < p.pairCost) (hrate : 0 < p.rate) (hend : r0 + widest p r0 < p.n) :
    widestWithin p (r0 + widest p r0) (maxDispatchSeconds - seconds p r0 (r0 + widest p r0)) 1 = 0 := by
  by_contra hpos
  have hfit := (@widestWithin_fits p (r0 + widest p r0) 1 (maxDispatchSeconds - seconds p r0 (r0 + widest p r0))
    hcost hrate le_rfl hend).within (Nat.pos_of_ne_zero hpos)
  have hrow := @seconds_le_of_inside p (r0 + widest p r0) (r0 + widest p r0 + 1) hrate (r0 + widest p r0) _ le_rfl
    (Nat.le_succ _) (Nat.add_le_add_left (Nat.pos_of_ne_zero hpos) _)
  have hsum := @seconds_add p r0 (r0 + widest p r0) (r0 + widest p r0 + 1) (Nat.le_add_right _ _) (Nat.le_succ _)
  have hwider : widest p r0 + 1 ≤ widest p r0 := by
    rw [le_widest_iff hcost hrate (by omega), ← Nat.add_assoc]
    exact ⟨by omega, by linarith⟩
  omega

/-! ## What the planner's loop returns -/

/-- One widest range after another up to `n`, all but the last committing by their elements. -/
def WidestChain (p : Pass) (c : Credit) : ℕ → List (ℕ × ℕ) → Prop
  | r0, [] => r0 = p.n
  | r0, r :: rest => r.1 = r0 ∧ r0 < p.n ∧ r.2 = r0 + widest p r0 ∧ 0 < widest p r0 ∧
      (rest = [] ∨ packCommitElems ≤ bufferElems c [r]) ∧ WidestChain p c r.2 rest

theorem settle_single (r0 r1 : ℕ) : (Buf.empty.add p c r0 r1).settle =
    if packCommitElems ≤ bufferElems c [(r0, r1)] then .empty else ⟨bufferElems c [(r0, r1)], 1, seconds p r0 r1⟩ := by
  have hops : ¬ packCommitOps ≤ 0 + 1 := by decide
  simp only [Buf.settle, Buf.add, Buf.empty, bufferElems, List.map_cons, List.map_nil, List.sum_cons, List.sum_nil,
    if_true, zero_add, add_zero, hops, or_false]

/-- A widest range that does not reach `n` commits, and the chain goes on behind it. -/
theorem WidestChain.next {ranges : List (ℕ × ℕ)} (h : WidestChain p c r0 ranges) (hr0 : r0 < p.n) (hw : widest p r0 = w)
    (hend : r0 + w < p.n) : packCommitElems ≤ bufferElems c [(r0, r0 + w)] ∧
      ∃ rest, ranges = (r0, r0 + w) :: rest ∧ WidestChain p c (r0 + w) rest := by
  cases ranges with
  | nil => exact absurd (show r0 = p.n from h) hr0.ne
  | cons r rest =>
    obtain ⟨hfst, -, hsnd, -, hcommit, hrest⟩ := h
    rw [hw] at hsnd
    obtain ⟨a, b⟩ := r
    obtain rfl : a = r0 := hfst
    obtain rfl : b = a + w := hsnd
    refine ⟨hcommit.resolve_left ?_, rest, rfl, hrest⟩
    rintro rfl
    exact hend.ne hrest

/-- A chain, from the widths of its ranges. -/
theorem WidestChain.cons (hcost : 0 < p.pairCost) (hrate : 0 < p.rate) (w : ℕ) {rest : List (ℕ × ℕ)}
    (h : r0 < p.n ∧ 0 < w ∧ w ≤ p.n - r0 ∧ seconds p r0 (r0 + w) ≤ maxDispatchSeconds ∧
      (r0 + w = p.n ∨ maxDispatchSeconds < seconds p r0 (r0 + (w + 1))) ∧
      (rest = [] ∨ packCommitElems ≤ bufferElems c [(r0, r0 + w)]))
    (hrest : WidestChain p c (r0 + w) rest) : WidestChain p c r0 ((r0, r0 + w) :: rest) := by
  obtain ⟨hlt, hpos, hin, hfit, hnext, hcommit⟩ := h
  have hw := widest_eq hcost hrate hlt hin hfit hnext
  exact ⟨rfl, hlt, by rw [hw], by rwa [hw], hcommit, hrest⟩

theorem planLoop_chain (hcost : 0 < p.pairCost) (hrate : 0 < p.rate) :
    ∀ m r0 ranges, p.n - r0 = m → r0 ≤ p.n → planLoop p c 1 r0 .empty = .ok ranges → WidestChain p c r0 ranges := by
  intro m
  induction m using Nat.strong_induction_on with
  | _ m ih =>
    intro r0 ranges hm hle h
    rcases hle.lt_or_eq with hlt | heq
    · obtain ⟨w, rest, hw, hpos, hrest, rfl⟩ := planLoop_ok hlt h
      rw [show maxDispatchSeconds - Buf.empty.time = maxDispatchSeconds from sub_zero _] at hw
      obtain rfl : w = widest p r0 := hw
      have hin := widest_le hcost hrate hlt
      refine ⟨rfl, hlt, rfl, hpos, ?_⟩
      rw [settle_single] at hrest
      by_cases hcommit : packCommitElems ≤ bufferElems c [(r0, r0 + widest p r0)]
      · rw [if_pos hcommit] at hrest
        exact ⟨.inr hcommit, ih (p.n - (r0 + widest p r0)) (by omega) _ rest rfl (by omega) hrest⟩
      · rw [if_neg hcommit] at hrest
        rcases Nat.lt_or_ge (r0 + widest p r0) p.n with hend | hend
        · -- The buffer stays open, and the next row does not fit it.
          obtain ⟨v, _, hv, hvpos, -⟩ := planLoop_ok hend hrest
          rw [widestWithin_rest hcost hrate hend] at hv
          omega
        · rw [planLoop_done hend] at hrest
          obtain rfl := Except.ok.inj hrest
          exact ⟨.inl rfl, show r0 + widest p r0 = p.n by omega⟩
    · rw [planLoop_done heq.ge] at h
      obtain rfl := Except.ok.inj h
      exact heq

theorem WidestChain.planLoop {ranges : List (ℕ × ℕ)} (h : WidestChain p c r0 ranges) :
    planLoop p c 1 r0 .empty = .ok ranges := by
  induction ranges generalizing r0 with
  | nil => exact planLoop_done (show r0 = p.n from h).ge
  | cons r rest ih =>
    obtain ⟨hfst, hlt, hsnd, hpos, hcommit, hrest⟩ := h
    obtain ⟨a, b⟩ := r
    obtain rfl : a = r0 := hfst
    obtain rfl : b = a + widest p a := hsnd
    refine planLoop_step hlt ?_ hpos ?_
    · rw [show maxDispatchSeconds - Buf.empty.time = maxDispatchSeconds from sub_zero _]
      rfl
    · rw [settle_single]
      split
      · exact ih hrest
      · next hopen =>
        obtain rfl := hcommit.resolve_right hopen
        exact planLoop_done (show a + widest p a = p.n from hrest).ge

theorem planBudgetedRanges_iff (hcost : 0 < p.pairCost) (hrate : 0 < p.rate) {ranges : List (ℕ × ℕ)} :
    planBudgetedRanges p c 1 = .ok ranges ↔ WidestChain p c 0 ranges :=
  ⟨planLoop_chain hcost hrate _ 0 ranges rfl (Nat.zero_le _), WidestChain.planLoop⟩

/-- There is a chain from every row when each widest range either reaches `n` or commits. -/
theorem exists_widestChain (hcost : 0 < p.pairCost) (hrate : 0 < p.rate)
    (h : ∀ r < p.n, 0 < widest p r ∧ (r + widest p r < p.n → packCommitElems ≤ bufferElems c [(r, r + widest p r)])) :
    ∀ m r0, p.n - r0 = m → r0 ≤ p.n → ∃ ranges, WidestChain p c r0 ranges := by
  intro m
  induction m using Nat.strong_induction_on with
  | _ m ih =>
    intro r0 hm hle
    rcases hle.lt_or_eq with hlt | heq
    · obtain ⟨hpos, hcommit⟩ := h r0 hlt
      have hin := widest_le hcost hrate hlt
      rcases Nat.lt_or_ge (r0 + widest p r0) p.n with hend | hend
      · obtain ⟨rest, hrest⟩ := ih (p.n - (r0 + widest p r0)) (by omega) _ rfl hend.le
        exact ⟨(r0, r0 + widest p r0) :: rest, rfl, hlt, rfl, hpos, .inr (hcommit hend), hrest⟩
      · exact ⟨[(r0, r0 + widest p r0)], rfl, hlt, rfl, hpos, .inl rfl, show r0 + widest p r0 = p.n by omega⟩
    · exact ⟨[], heq⟩

/-- One buffer that commits by its elements is enough, when it costs as much anywhere or ends the pass: the
widest range from another row is as wide, or reaches `n`. -/
theorem exists_widestChain_of_block {k s e : ℕ} (hcost : 0 < p.pairCost) (hrate : 0 < p.rate)
    (hout : ∀ r0 r1, c.output r0 r1 = k * (r1 - r0)) (hse : s < e) (hen : e ≤ p.n)
    (hfit : seconds p s e ≤ maxDispatchSeconds) (hcommit : packCommitElems ≤ c.liveInputElems + k * (e - s))
    (hlast : p.causal = false ∨ e = p.n) : ∃ ranges, WidestChain p c 0 ranges := by
  refine exists_widestChain hcost hrate (fun r hr => ?_) _ 0 rfl (Nat.zero_le _)
  have hwide : min (e - s) (p.n - r) ≤ widest p r := by
    rw [le_widest_iff hcost hrate hr]
    refine ⟨min_le_right _ _, le_trans ?_ hfit⟩
    by_cases hrs : p.causal = false ∨ r ≤ s
    · have hshift := @seconds_shift_le p r s (min (e - s) (p.n - r)) hrate hrs
      exact hshift.trans (seconds_le_of_inside hrate le_rfl (Nat.le_add_right _ _) (by omega))
    · obtain ⟨hcausal, hsr⟩ := not_or.1 hrs
      obtain rfl := hlast.resolve_left hcausal
      exact seconds_le_of_inside hrate (by omega) (Nat.le_add_right _ _) (by omega)
  refine ⟨by omega, fun hend => ?_⟩
  have hle : e - s ≤ widest p r := by omega
  have hmul : k * (e - s) ≤ k * widest p r := Nat.mul_le_mul_left k hle
  simp only [bufferElems, List.map_cons, List.map_nil, List.sum_cons, List.sum_nil, hout, Nat.add_sub_cancel_left]
  omega

end Widest

/-! ## The buffers of a tiling -/

/-- Buffers one after another over the rows `[a, b)`. -/
def SpansRows : ℕ → ℕ → List (List (ℕ × ℕ)) → Prop
  | a, b, [] => a = b
  | a, b, buf :: bufs => ∃ e, a < e ∧ Tiles a e buf ∧ SpansRows e b bufs

/-- The buffer's next row would not fit it. -/
def Full (p : Pass) (buf : List (ℕ × ℕ)) : Prop :=
  ∀ r ∈ buf.getLast?, maxDispatchSeconds < bufferSeconds p buf + seconds p r.2 (r.2 + 1)

section Buffers
variable {p : Pass} {c : Credit} {a b e k : ℕ} {buf ranges held : List (ℕ × ℕ)} {bufs : List (List (ℕ × ℕ))}

namespace SpansRows

theorem le (h : SpansRows a b bufs) : a ≤ b := by
  induction bufs generalizing a with
  | nil => exact h.le
  | cons buf bufs ih =>
    obtain ⟨e, hlt, -, hrest⟩ := h
    exact hlt.le.trans (ih hrest)

theorem lt_of_ne_nil (h : SpansRows a b bufs) (hne : bufs ≠ []) : a < b := by
  cases bufs with
  | nil => exact absurd rfl hne
  | cons buf bufs =>
    obtain ⟨e, hlt, -, hrest⟩ := h
    exact hlt.trans_le hrest.le

/-- The rows of one buffer. -/
theorem mem (h : SpansRows a b bufs) (hbuf : buf ∈ bufs) : ∃ s e, a ≤ s ∧ s < e ∧ e ≤ b ∧ Tiles s e buf := by
  induction bufs generalizing a with
  | nil => cases hbuf
  | cons q bufs ih =>
    obtain ⟨e, hlt, hq, hrest⟩ := h
    rcases List.mem_cons.1 hbuf with rfl | hbuf
    · exact ⟨a, e, le_rfl, hlt, hrest.le, hq⟩
    · obtain ⟨s, e', hs, hrow⟩ := ih hrest hbuf
      exact ⟨s, e', hlt.le.trans hs, hrow⟩

/-- The last buffer reaches the last row. -/
theorem getLast (h : SpansRows a b bufs) (hne : bufs ≠ []) :
    ∃ buf s, bufs.getLast? = some buf ∧ s < b ∧ Tiles s b buf := by
  induction bufs generalizing a with
  | nil => exact absurd rfl hne
  | cons q bufs ih =>
    obtain ⟨e, hlt, hq, hrest⟩ := h
    cases bufs with
    | nil =>
      obtain rfl : e = b := hrest
      exact ⟨q, a, rfl, hlt, hq⟩
    | cons q' bufs =>
      rw [List.getLast?_cons_cons]
      exact ih hrest (by simp)

end SpansRows

/-- Whatever the buffers commit on, they follow one another. -/
theorem buffersFrom_spans (hheld : Tiles a e held) (h : Tiles e b ranges) :
    SpansRows a b (buffersFrom c held ranges) := by
  induction ranges generalizing a e held with
  | nil =>
    obtain rfl : e = b := h
    rw [buffersFrom]
    split
    · next hnil =>
      subst hnil
      exact hheld
    · next hne => exact ⟨e, hheld.lt_of_ne_nil hne, hheld, rfl⟩
  | cons r rest ih =>
    obtain ⟨rfl, hlt, hrest⟩ := h
    have hsnoc : Tiles a r.2 (held ++ [r]) := hheld.append ⟨rfl, hlt, rfl⟩
    rw [buffersFrom]
    split
    · exact ⟨r.2, hsnoc.lt_of_ne_nil (by simp), hsnoc, ih rfl hrest⟩
    · exact ih hsnoc hrest

/-- Full buffers that commit by their elements are the planner's own. -/
theorem exists_widestChain_of_full (hcost : 0 < p.pairCost) (hrate : 0 < p.rate)
    (hout : ∀ r0 r1, c.output r0 r1 = k * (r1 - r0)) (h : SpansRows a p.n bufs)
    (hwithin : ∀ buf ∈ bufs, bufferSeconds p buf ≤ maxDispatchSeconds)
    (hcommit : ∀ buf ∈ bufs.dropLast, packCommitElems ≤ bufferElems c buf) (hfull : ∀ buf ∈ bufs.dropLast, Full p buf) :
    ∃ ranges, WidestChain p c a ranges := by
  induction bufs generalizing a with
  | nil => exact ⟨[], h⟩
  | cons buf bufs ih =>
    obtain ⟨e, hlt, hbuf, hrest⟩ := h
    have htime := hwithin buf List.mem_cons_self
    rw [bufferSeconds_tiles hbuf] at htime
    have hen := hrest.le
    have hwide : e - a ≤ widest p a := by
      rw [le_widest_iff hcost hrate (by omega), Nat.add_sub_cancel' hlt.le]
      exact ⟨by omega, htime⟩
    cases bufs with
    | nil =>
      obtain rfl : e = p.n := hrest
      have hin := widest_le hcost hrate hlt
      exact ⟨[(a, p.n)], rfl, hlt, show p.n = a + widest p a by omega, by omega, .inl rfl, rfl⟩
    | cons buf' bufs =>
      rw [List.dropLast_cons_of_ne_nil (by simp), List.forall_mem_cons] at hcommit hfull
      obtain ⟨ranges, hranges⟩ := ih hrest (fun b hb => hwithin b (List.mem_cons_of_mem _ hb)) hcommit.2 hfull.2
      have hend : e < p.n := hrest.lt_of_ne_nil (by simp)
      obtain ⟨r, hr, hsnd⟩ := hbuf.getLast_snd (by
        rintro rfl
        exact hlt.ne hbuf)
      have hover := hfull.1 r hr
      rw [hsnd, bufferSeconds_tiles hbuf, seconds_add hlt.le (Nat.le_succ e)] at hover
      have hnarrow : ¬ e - a + 1 ≤ widest p a := by
        rw [le_widest_iff hcost hrate (by omega), show a + (e - a + 1) = e + 1 by omega]
        exact fun hle => absurd hle.2 (not_le.2 hover)
      have hwidth : e = a + widest p a := by omega
      refine ⟨(a, e) :: ranges, rfl, by omega, hwidth, by omega, .inr ?_, hranges⟩
      have helems := hcommit.1
      rw [bufferElems_tiles hout hbuf] at helems
      rwa [bufferElems_tiles hout (.single hlt)]

end Buffers

/-! ## The tilings that count -/

/-- A tiling within the budget whose buffers commit by their elements, not by their number of dispatches; and,
where later rows cost more, either no buffer but the last has room for its next row, or the last commits too. -/
structure ElementTiling (p : Pass) (c : Credit) (ranges : List (ℕ × ℕ)) : Prop where
  tiles : Tiles 0 p.n ranges
  within : ∀ buf ∈ commandBuffers c ranges, bufferSeconds p buf ≤ maxDispatchSeconds
  committed : ∀ buf ∈ (commandBuffers c ranges).dropLast, packCommitElems ≤ bufferElems c buf
  causal_tail : p.causal = true → (∀ buf ∈ (commandBuffers c ranges).dropLast, Full p buf) ∨
    ∀ buf ∈ (commandBuffers c ranges).getLast?, packCommitElems ≤ bufferElems c buf

section Exact
variable {p : Pass} {c : Credit} {k r0 : ℕ} {ranges : List (ℕ × ℕ)}

theorem WidestChain.tiles (h : WidestChain p c r0 ranges) : Tiles r0 p.n ranges := by
  induction ranges generalizing r0 with
  | nil => exact h
  | cons r rest ih =>
    obtain ⟨hfst, -, hsnd, hpos, -, hrest⟩ := h
    exact ⟨hfst, by omega, ih hrest⟩

/-- Every dispatch of the planner has a buffer of its own. -/
theorem WidestChain.commandBuffers (h : WidestChain p c r0 ranges) :
    commandBuffers c ranges = ranges.map fun r => [r] := by
  unfold Launch.commandBuffers
  induction ranges generalizing r0 with
  | nil => rfl
  | cons r rest ih =>
    obtain ⟨-, -, -, -, hcommit, hrest⟩ := h
    rw [buffersFrom, List.nil_append, List.map_cons]
    split
    · rw [ih hrest]
    · next hopen =>
      obtain rfl := hcommit.resolve_right fun hle => hopen (commits_of_elems hle)
      rfl

theorem WidestChain.dropLast (hcost : 0 < p.pairCost) (hrate : 0 < p.rate) (h : WidestChain p c r0 ranges) :
    ∀ r ∈ ranges.dropLast, packCommitElems ≤ bufferElems c [r] ∧ Full p [r] := by
  induction ranges generalizing r0 with
  | nil => simp
  | cons r rest ih =>
    obtain ⟨hfst, hlt, hsnd, hpos, hcommit, hrest⟩ := h
    cases rest with
    | nil => simp
    | cons r' rest =>
      rw [List.dropLast_cons_of_ne_nil (by simp), List.forall_mem_cons]
      refine ⟨⟨hcommit.resolve_left (by simp), ?_⟩, ih hrest⟩
      have hend : r.2 < p.n := hrest.2.1
      obtain ⟨a, b⟩ := r
      obtain rfl : a = r0 := hfst
      obtain rfl : b = a + widest p a := hsnd
      intro q hq
      obtain rfl : (a, a + widest p a) = q := by simpa using hq
      rw [bufferSeconds_tiles (.single (by omega)), seconds_add (Nat.le_add_right _ _) (Nat.le_succ _)]
      by_contra hle
      have hwider : widest p a + 1 ≤ widest p a := by
        rw [le_widest_iff hcost hrate hlt, ← Nat.add_assoc]
        exact ⟨by omega, not_lt.1 hle⟩
      omega

theorem WidestChain.within (hcost : 0 < p.pairCost) (hrate : 0 < p.rate) (h : WidestChain p c r0 ranges) :
    ∀ r ∈ ranges, seconds p r.1 r.2 ≤ maxDispatchSeconds := by
  induction ranges generalizing r0 with
  | nil => simp
  | cons r rest ih =>
    obtain ⟨hfst, hlt, hsnd, -, -, hrest⟩ := h
    refine List.forall_mem_cons.2 ⟨?_, ih hrest⟩
    rw [hfst, hsnd]
    exact ((le_widest_iff hcost hrate hlt).1 le_rfl).2

/-- The planner's own plan is such a tiling. -/
theorem WidestChain.elementTiling (hcost : 0 < p.pairCost) (hrate : 0 < p.rate) (h : WidestChain p c 0 ranges) :
    ElementTiling p c ranges := by
  have hlast := h.dropLast hcost hrate
  constructor
  · exact h.tiles
  · rw [h.commandBuffers, List.forall_mem_map]
    intro r hr
    simpa [bufferSeconds] using h.within hcost hrate r hr
  · rw [h.commandBuffers, ← List.map_dropLast, List.forall_mem_map]
    exact fun r hr => (hlast r hr).1
  · intro _
    rw [h.commandBuffers, ← List.map_dropLast, List.forall_mem_map]
    exact .inl fun r hr => (hlast r hr).2

/-- Any such tiling makes the planner return. -/
theorem ElementTiling.exists_chain (hcost : 0 < p.pairCost) (hrate : 0 < p.rate)
    (hout : ∀ r0 r1, c.output r0 r1 = k * (r1 - r0)) (h : ElementTiling p c ranges) :
    ∃ ranges', WidestChain p c 0 ranges' := by
  have hspan : SpansRows 0 p.n (commandBuffers c ranges) := buffersFrom_spans rfl h.tiles
  have hfullCase := fun hfull => exists_widestChain_of_full hcost hrate hout hspan h.within h.committed hfull
  -- The row count of a buffer that commits, for the two cases that use one.
  have hblock : ∀ buf s e, Tiles s e buf → s < e → e ≤ p.n → buf ∈ commandBuffers c ranges →
      packCommitElems ≤ bufferElems c buf → (p.causal = false ∨ e = p.n) → ∃ ranges', WidestChain p c 0 ranges' := by
    intro buf s e hbuf hse hen hmem hcommit hlast
    have htime := h.within buf hmem
    rw [bufferSeconds_tiles hbuf] at htime
    rw [bufferElems_tiles hout hbuf] at hcommit
    exact exists_widestChain_of_block hcost hrate hout hse hen htime hcommit hlast
  cases hcausal : p.causal with
  | false =>
    by_cases hone : (commandBuffers c ranges).dropLast = []
    · exact hfullCase (by rw [hone]; simp)
    · obtain ⟨buf, hmem⟩ := List.exists_mem_of_ne_nil _ hone
      obtain ⟨s, e, -, hse, hen, hbuf⟩ := hspan.mem (List.mem_of_mem_dropLast hmem)
      exact hblock buf s e hbuf hse hen (List.mem_of_mem_dropLast hmem) (h.committed buf hmem) (.inl hcausal)
  | true =>
    rcases h.causal_tail hcausal with hfull | htail
    · exact hfullCase hfull
    · by_cases hnone : commandBuffers c ranges = []
      · exact hfullCase (by rw [hnone]; simp)
      · obtain ⟨buf, s, hget, hse, hbuf⟩ := hspan.getLast hnone
        exact hblock buf s p.n hbuf hse le_rfl (List.mem_of_getLast? hget) (htail buf hget) (.inr rfl)

/-- A pass that fits one buffer whole. -/
theorem elementTiling_single (hn : 0 < p.n) (h : seconds p 0 p.n ≤ maxDispatchSeconds) :
    ElementTiling p c [(0, p.n)] := by
  have hbuffers : commandBuffers c [(0, p.n)] = [[(0, p.n)]] := by
    rw [commandBuffers, buffersFrom, List.nil_append]
    split <;> rfl
  refine ⟨.single hn, ?_, ?_, fun _ => .inl ?_⟩ <;> rw [hbuffers] <;> simp [bufferSeconds, h]

/-- A pass without rows. -/
theorem elementTiling_nil (hn : p.n = 0) : ElementTiling p c [] := by
  refine ⟨hn.symm, ?_, ?_, fun _ => .inl ?_⟩ <;> simp [commandBuffers, buffersFrom]

end Exact

/-! ## The forward -/

section Forward
variable {s : Shape} {rate : ℚ} {causal : Bool} {ranges : List (ℕ × ℕ)}

theorem fwdCredit_output (r0 r1 : ℕ) : (fwdCredit s).output r0 r1 = s.b * s.hq * (s.d + 1) * (r1 - r0) :=
  Nat.mul_right_comm _ _ _

theorem planFwdDispatches_of_cost (hrate : 0 < rate) (hcost : 0 < (fwdPass s rate causal).pairCost) :
    planFwdDispatches s rate causal =
      (planBudgetedRanges (fwdPass s rate causal) (fwdCredit s) 1).mapError .budget := by
  rw [planFwdDispatches, if_neg]
  rintro ⟨-, hzero | ⟨-, hzero⟩⟩
  · exact hrate.ne' hzero
  · exact hcost.ne' hzero

theorem planFwdDispatches_ok_iff (hrate : 0 < rate) (hcost : 0 < (fwdPass s rate causal).pairCost) :
    planFwdDispatches s rate causal = .ok ranges ↔ WidestChain (fwdPass s rate causal) (fwdCredit s) 0 ranges := by
  rw [planFwdDispatches_of_cost hrate hcost, Budget.mapError_eq_ok, planBudgetedRanges_iff hcost hrate]

theorem planFwdDispatches_no_rows (hn : s.n = 0) : planFwdDispatches s rate causal = .ok [] := by
  rw [planFwdDispatches, if_neg (by omega), planBudgetedRanges,
    planLoop_done (show (fwdPass s rate causal).n ≤ 0 from hn.le)]
  rfl

theorem planFwdDispatches_no_work (hn : 0 < s.n) (hrate : 0 < rate) (hcost : (fwdPass s rate causal).pairCost = 0) :
    planFwdDispatches s rate causal = .error .zeroDivision :=
  if_pos ⟨hn, .inr ⟨hrate, hcost⟩⟩

theorem elementTiling_degenerate (h : s.n = 0 ∨ (fwdPass s rate causal).pairCost = 0) :
    ∃ ranges, ElementTiling (fwdPass s rate causal) (fwdCredit s) ranges := by
  rcases Nat.eq_zero_or_pos s.n with hn | hn
  · exact ⟨[], elementTiling_nil hn⟩
  · refine ⟨_, elementTiling_single hn ?_⟩
    have hmacs : rangeMacs (fwdPass s rate causal) 0 (fwdPass s rate causal).n = 0 := by
      unfold rangeMacs
      rw [h.resolve_left hn.ne', Nat.mul_zero, Nat.mul_zero, ite_self]
    rw [seconds, hmacs, Nat.cast_zero, zero_div]
    norm_num [maxDispatchSeconds]

/-- The planner returns exactly when there is a tiling of the kind it looks for, or nothing to divide by. -/
theorem planFwdDispatches_returns_iff (hrate : 0 < rate) (hcost : 0 < (fwdPass s rate causal).pairCost) :
    (∃ ranges, planFwdDispatches s rate causal = .ok ranges) ↔
      ∃ ranges, ElementTiling (fwdPass s rate causal) (fwdCredit s) ranges := by
  simp only [planFwdDispatches_ok_iff hrate hcost]
  constructor
  · rintro ⟨ranges, h⟩
    exact ⟨ranges, h.elementTiling hcost hrate⟩
  · rintro ⟨ranges, h⟩
    exact h.exists_chain hcost hrate fwdCredit_output

end Forward

/-- `check_fwd_budget` raises `LaunchBudgetError` exactly when no such tiling exists. -/
theorem check_fwd_budget_raises_iff (s : Shape) (rate : ℚ) (causal : Bool) (hrate : 0 < rate) :
    (∃ e, checkFwdBudget s rate causal = .error (.budget e)) ↔
      ¬ ∃ ranges, ElementTiling (fwdPass s rate causal) (fwdCredit s) ranges := by
  unfold checkFwdBudget
  by_cases hdegenerate : s.n = 0 ∨ (fwdPass s rate causal).pairCost = 0
  · refine iff_of_false ?_ (not_not.2 (elementTiling_degenerate hdegenerate))
    rintro ⟨e, he⟩
    rcases Nat.eq_zero_or_pos s.n with hn | hn
    · rw [planFwdDispatches_no_rows hn] at he
      cases he
    · rw [planFwdDispatches_no_work hn hrate (hdegenerate.resolve_left hn.ne')] at he
      cases he
  · have hcost := Nat.pos_of_ne_zero (not_or.1 hdegenerate).2
    rw [← planFwdDispatches_returns_iff hrate hcost, planFwdDispatches_of_cost hrate hcost]
    cases planBudgetedRanges (fwdPass s rate causal) (fwdCredit s) 1 with
    | error e => exact iff_of_true ⟨e, rfl⟩ (fun ⟨_, h⟩ => nomatch h)
    | ok ranges => exact iff_of_false (fun ⟨_, h⟩ => nomatch h) (not_not.2 ⟨ranges, rfl⟩)

/-- Two rows in one buffer. -/
theorem check_fwd_budget_raises_iff_small :
    ∃ ranges, ElementTiling (fwdPass ⟨2, 1, 1, 1, 1⟩ 100 false) (fwdCredit ⟨2, 1, 1, 1, 1⟩) ranges := by
  have hchain : WidestChain (fwdPass ⟨2, 1, 1, 1, 1⟩ 100 false) (fwdCredit ⟨2, 1, 1, 1, 1⟩) 0 [(0, 2)] :=
    .cons (by decide) (by decide) 2 (by decide +kernel) rfl
  by_contra hnone
  obtain ⟨e, he⟩ := (check_fwd_budget_raises_iff ⟨2, 1, 1, 1, 1⟩ 100 false (by decide)).2 hnone
  rw [checkFwdBudget, (planFwdDispatches_ok_iff (by decide) (by decide)).2 hchain] at he
  cases he

/-- A tiling of any kind that keeps every command buffer within the budget. -/
def Plannable (p : Pass) (c : Credit) : Prop :=
  ∃ ranges, Tiles 0 p.n ranges ∧ ∀ buf ∈ commandBuffers c ranges, bufferSeconds p buf ≤ maxDispatchSeconds

section Refused
variable {s : Shape} {rate : ℚ} {causal : Bool}

theorem planFwdDispatches_of_not_chain (hrate : 0 < rate) (hcost : 0 < (fwdPass s rate causal).pairCost)
    (h : ∀ ranges, ¬ WidestChain (fwdPass s rate causal) (fwdCredit s) 0 ranges) :
    ∃ e, planFwdDispatches s rate causal = .error (.budget e) := by
  rw [planFwdDispatches_of_cost hrate hcost]
  cases hranges : planBudgetedRanges (fwdPass s rate causal) (fwdCredit s) 1 with
  | error e => exact ⟨e, rfl⟩
  | ok ranges => exact absurd ((planBudgetedRanges_iff hcost hrate).1 hranges) (h ranges)

theorem checkFwdBudget_of_plan (h : ∃ e, planFwdDispatches s rate causal = .error (.budget e)) :
    ∃ e, checkFwdBudget s rate causal = .error (.budget e) := by
  obtain ⟨e, he⟩ := h
  exact ⟨e, by rw [checkFwdBudget, he]; rfl⟩

end Refused

/-- 51 rows use the whole budget in one dispatch, which does not commit. -/
theorem no_chain_rows : ∀ ranges,
    ¬ WidestChain (fwdPass ⟨52, 1, 1, 1, 1⟩ 10608 false) (fwdCredit ⟨52, 1, 1, 1, 1⟩) 0 ranges := by
  intro ranges h
  have hwidest : widest (fwdPass ⟨52, 1, 1, 1, 1⟩ 10608 false) 0 = 51 :=
    widest_eq (by decide) (by decide) (by decide) (by decide) (by decide +kernel) (.inr (by decide +kernel))
  obtain ⟨hcommit, -⟩ := h.next (by decide) hwidest (by decide)
  exact absurd hcommit (by decide)

/-- The second range takes three rows, and its buffer stays just under the threshold. -/
theorem no_chain_thirteen : ∀ ranges,
    ¬ WidestChain (fwdPass ⟨13, 128, 560, 32, 8⟩ 412876800 true) (fwdCredit ⟨13, 128, 560, 32, 8⟩) 0 ranges := by
  intro ranges h
  have hfirst : widest (fwdPass ⟨13, 128, 560, 32, 8⟩ 412876800 true) 0 = 9 :=
    widest_eq (by decide) (by decide) (by decide) (by decide) (by decide +kernel) (.inr (by decide +kernel))
  have hsecond : widest (fwdPass ⟨13, 128, 560, 32, 8⟩ 412876800 true) 9 = 3 :=
    widest_eq (by decide) (by decide) (by decide) (by decide) (by decide +kernel) (.inr (by decide +kernel))
  obtain ⟨-, rest, -, hrest⟩ := h.next (by decide) hfirst (by decide)
  obtain ⟨hcommit, -⟩ := hrest.next (by decide) hsecond (by decide)
  exact absurd hcommit (by decide)

/-- Two passes the check refuses and some tiling serves: one packs 51 one-row dispatches into a buffer, the other
ends its second buffer a row later than the widest ranges do. -/
theorem checkFwdBudget_incomplete :
    ((∃ e, checkFwdBudget ⟨52, 1, 1, 1, 1⟩ 10608 false = .error (.budget e)) ∧
      Plannable (fwdPass ⟨52, 1, 1, 1, 1⟩ 10608 false) (fwdCredit ⟨52, 1, 1, 1, 1⟩)) ∧
    (∃ e, checkFwdBudget ⟨13, 128, 560, 32, 8⟩ 412876800 true = .error (.budget e)) ∧
      Plannable (fwdPass ⟨13, 128, 560, 32, 8⟩ 412876800 true) (fwdCredit ⟨13, 128, 560, 32, 8⟩) := by
  refine ⟨⟨checkFwdBudget_of_plan (planFwdDispatches_of_not_chain (by decide) (by decide) no_chain_rows), ?_⟩,
    checkFwdBudget_of_plan (planFwdDispatches_of_not_chain (by decide) (by decide) no_chain_thirteen), ?_⟩
  · exact ⟨(List.range 52).map fun i => (i, i + 1), by decide +kernel, by decide +kernel⟩
  · exact ⟨[(0, 8), (8, 12), (12, 13)], by decide, by decide +kernel⟩

/-! ## A faster rate -/

section Faster
variable {s : Shape} {r₁ r₂ : ℚ} {causal : Bool}

theorem bufferSeconds_faster (h₁ : 0 < r₁) (h : r₁ ≤ r₂) (held : List (ℕ × ℕ)) :
    bufferSeconds (fwdPass s r₂ causal) held ≤ bufferSeconds (fwdPass s r₁ causal) held := by
  unfold bufferSeconds
  refine List.sum_le_sum fun r _ => ?_
  exact div_le_div_of_nonneg_left (Nat.cast_nonneg _) h₁ h

end Faster

/-- A plan stays within the budget at a faster rate. There the planner also returns one when the pass is not
causal, when the plan is a single dispatch, or when its last dispatch reaches the commit threshold too. -/
theorem plan_fwd_dispatches_faster (s : Shape) (r₁ r₂ : ℚ) (causal : Bool) (ranges : List (ℕ × ℕ)) (h₁ : 0 < r₁)
    (h : r₁ ≤ r₂) (hplan : planFwdDispatches s r₁ causal = .ok ranges) :
    (∀ buf ∈ commandBuffers (fwdCredit s) ranges, bufferSeconds (fwdPass s r₂ causal) buf ≤ maxDispatchSeconds) ∧
      ((causal = false ∨ ranges.length ≤ 1 ∨ ∀ r ∈ ranges.getLast?, packCommitElems ≤ bufferElems (fwdCredit s) [r]) →
        ∃ ranges', planFwdDispatches s r₂ causal = .ok ranges') := by
  have h₂ := h₁.trans_le h
  rcases Nat.eq_zero_or_pos s.n with hn | hn
  · obtain rfl := Except.ok.inj (hplan.symm.trans (planFwdDispatches_no_rows hn))
    exact ⟨by simp [commandBuffers, buffersFrom], fun _ => ⟨[], planFwdDispatches_no_rows hn⟩⟩
  rcases Nat.eq_zero_or_pos (fwdPass s r₁ causal).pairCost with hcost | hcost
  · rw [planFwdDispatches_no_work hn h₁ hcost] at hplan
    cases hplan
  · have hchain := (planFwdDispatches_ok_iff h₁ hcost).1 hplan
    have htiling := hchain.elementTiling hcost h₁
    have hwithin : ∀ buf ∈ commandBuffers (fwdCredit s) ranges,
        bufferSeconds (fwdPass s r₂ causal) buf ≤ maxDispatchSeconds :=
      fun buf hbuf => (bufferSeconds_faster h₁ h buf).trans (htiling.within buf hbuf)
    refine ⟨hwithin, fun hcase => ?_⟩
    rw [planFwdDispatches_returns_iff h₂ hcost]
    refine ⟨ranges, htiling.tiles, hwithin, htiling.committed, fun hcausal => ?_⟩
    rw [hchain.commandBuffers]
    rcases hcase with hplain | hone | hlast
    · exact absurd hcausal (by simp [fwdPass, hplain])
    · refine .inl ?_
      have hnone : (ranges.map fun r => [r]).dropLast = [] := by
        rw [← List.length_eq_zero_iff, List.length_dropLast, List.length_map]
        omega
      rw [hnone]
      simp
    · refine .inr ?_
      rw [List.getLast?_map]
      rintro buf hbuf
      obtain ⟨r, hr, rfl⟩ := Option.map_eq_some_iff.1 hbuf
      exact hlast r hr

/-- Every dispatch of this plan commits, the last one included. -/
theorem plan_fwd_dispatches_faster_tail :
    ∃ ranges, planFwdDispatches ⟨16, 128, 560, 32, 8⟩ 412876800 true = .ok ranges := by
  have hslow : planFwdDispatches ⟨16, 128, 560, 32, 8⟩ 385351680 true = .ok [(0, 8), (8, 12), (12, 15), (15, 16)] := by
    rw [planFwdDispatches_ok_iff (by decide) (by decide)]
    exact .cons (by decide) (by decide) 8 (by decide +kernel) (.cons (by decide) (by decide) 4 (by decide +kernel)
      (.cons (by decide) (by decide) 3 (by decide +kernel) (.cons (by decide) (by decide) 1 (by decide +kernel) rfl)))
  exact (plan_fwd_dispatches_faster ⟨16, 128, 560, 32, 8⟩ 385351680 412876800 true _ (by decide) (by decide) hslow).2
    (.inr (.inr (by decide)))

/-- The plan of a slower machine cuts at 8 and 12; the faster one cuts at 9, and its second range no longer
commits. -/
theorem planFwdDispatches_not_monotone :
    planFwdDispatches ⟨13, 128, 560, 32, 8⟩ 385351680 true = .ok [(0, 8), (8, 12), (12, 13)] ∧
      ∃ e, planFwdDispatches ⟨13, 128, 560, 32, 8⟩ 412876800 true = .error (.budget e) := by
  refine ⟨?_, planFwdDispatches_of_not_chain (by decide) (by decide) no_chain_thirteen⟩
  rw [planFwdDispatches_ok_iff (by decide) (by decide)]
  exact .cons (by decide) (by decide) 8 (by decide +kernel) (.cons (by decide) (by decide) 4 (by decide +kernel)
    (.cons (by decide) (by decide) 1 (by decide +kernel) rfl))

end MlxTrainPerf.Launch
