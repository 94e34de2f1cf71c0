import MlxTrainPerf.Lib.Rounding
import MlxTrainPerf.Lib.Budget
/-!
# Phase-structured peak estimates

`memfit/model.py`. Phases and terms are the source's ordered dicts, so a term is
evaluated once, in order, and its own exception propagates. What the proofs use of
it: when every term grows, so does the peak.
-/
open Budget

namespace MlxTrainPerf.Memfit

/-- What a term returns: `int | float`. -/
inductive Number
  | int (n : ℤ)
  | float (a : ℚ)

namespace Number

def val : Number → ℚ
  | int n => n
  | float a => a

/-- `float(value)`. -/
def toFloat (R : Rounding) : Number → ℚ
  | int n => R.ofInt n
  | float a => a

end Number

/-- `MemfitInputError`, with its text or with what the text prints, `DoesNotFitError`,
and a term's own exception. -/
inductive MemfitError (ε : Type)
  | input (msg : String)
  | duplicatePhases (names : List String)
  | badTerm (phase term : String) (value : Number)
  | badOverhead (frac : ℚ)
  | doesNotFit (msg : String)
  | raised (e : ε)

variable {ε P : Type}

structure Phase (ε P : Type) where
  name : String
  terms : List (String × (P → Except ε Number))

/-- At least one phase, unique names, and an overhead that is not negative. -/
structure MemoryModel (ε P : Type) where
  phases : List (Phase ε P)
  overheadFrac : ℚ
  nonempty : phases ≠ []
  unique : (phases.map Phase.name).Nodup
  overhead_nonneg : 0 ≤ overheadFrac

structure PeakEstimate where
  peakBytes : ℤ
  peakPhase : String
  phaseTotals : List (String × ℤ)
  components : List (String × List (String × ℤ))

/-- The names that come up more than once, sorted. -/
def dupes (names : List String) : List String :=
  (names.filter fun n => 1 < names.count n).dedup.mergeSort fun a b => decide (a ≤ b)

/-- `MemoryModel(...)`. -/
def MemoryModel.mk? (phases : List (Phase ε P)) (overheadFrac : ℚ) : Except (MemfitError ε) (MemoryModel ε P) :=
  if hne : phases = [] then .error (.input "a MemoryModel needs at least one phase")
  else if hdup : (phases.map Phase.name).Nodup then
    if hfrac : 0 ≤ overheadFrac then .ok ⟨phases, overheadFrac, hne, hdup, hfrac⟩ else .error (.badOverhead overheadFrac)
  else .error (.duplicatePhases (dupes (phases.map Phase.name)))

/-- `_term_bytes`. -/
def termBytes (R : Rounding) (phase term : String) (value : Number) : Except (MemfitError ε) ℤ :=
  if value.val < 0 then .error (.badTerm phase term value) else .ok (Rounding.trunc (value.toFloat R))

/-- The terms of one phase, in order. -/
def evalTerms (R : Rounding) (phase : String) (params : P) :
    List (String × (P → Except ε Number)) → Except (MemfitError ε) (List (String × ℤ))
  | [] => .ok []
  | (name, term) :: rest => do
    let value ← (term params).mapError MemfitError.raised
    let bytes ← termBytes R phase name value
    let values ← evalTerms R phase params rest
    return (name, bytes) :: values

/-- `int(sum(values) * (1 + overhead_frac))`. -/
def phaseTotal (R : Rounding) (overheadFrac : ℚ) (values : List (String × ℤ)) : ℤ :=
  Rounding.trunc (R.mul (R.ofInt (values.map Prod.snd).sum) (R.add (R.ofInt 1) overheadFrac))

/-- Every phase's terms, in order. -/
def evalPhases (R : Rounding) (params : P) :
    List (Phase ε P) → Except (MemfitError ε) (List (String × List (String × ℤ)))
  | [] => .ok []
  | phase :: rest => do
    let values ← evalTerms R phase.name params phase.terms
    let components ← evalPhases R params rest
    return (phase.name, values) :: components

/-- `max(totals, key=totals.__getitem__)`: the first one on a tie. -/
def peakPhase (totals : List (String × ℤ)) : String × ℤ :=
  totals.tail.foldl (fun best t => if best.2 < t.2 then t else best) (totals.headD ("", 0))

def estimate (R : Rounding) (model : MemoryModel ε P) (params : P) : Except (MemfitError ε) PeakEstimate := do
  let components ← evalPhases R params model.phases
  let totals := components.map fun c => (c.1, phaseTotal R model.overheadFrac c.2)
  return ⟨(peakPhase totals).2, (peakPhase totals).1, totals, components⟩

/-- `peak(v)` of the bisection. -/
def peakAt (R : Rounding) (model : MemoryModel ε P) (vary : ℤ → Except (MemfitError ε) P) (v : ℤ) :
    Except (MemfitError ε) ℤ := do
  let params ← vary v
  return (← estimate R model params).peakBytes

def boundsMsg (lo hi : ℤ) : String := s!"need 0 <= lo <= hi (got lo={lo}, hi={hi})"

def nonMonotoneMsg (lo hi loPeak hiPeak : ℤ) : String :=
  s!"non-monotone model: predicted peak falls from {loPeak} at {lo} to " ++
    s!"{hiPeak} at {hi}; bisection needs a peak that never decreases"

def nothingFitsMsg (lo hi budgetBytes loPeak : ℤ) : String :=
  s!"nothing in [{lo}, {hi}] fits budget_bytes={budgetBytes} " ++ s!"(predicted peak at {lo} is {loPeak} bytes)"

/-- `max_int_within_budget`. -/
def maxIntWithinBudget (R : Rounding) (model : MemoryModel ε P) (vary : ℤ → Except (MemfitError ε) P)
    (lo hi budgetBytes : ℤ) : Except (MemfitError ε) ℤ := do
  if lo < 0 ∨ lo > hi then .error (.input (boundsMsg lo hi))
  else
    let loPeak ← peakAt R model vary lo
    let hiPeak ← peakAt R model vary hi
    if hiPeak < loPeak then .error (.input (nonMonotoneMsg lo hi loPeak hiPeak))
    else if loPeak > budgetBytes then .error (.doesNotFit (nothingFitsMsg lo hi budgetBytes loPeak))
    else if hiPeak ≤ budgetBytes then .ok hi
    else bisect (fun mid => (peakAt R model vary mid).map fun p => decide (p ≤ budgetBytes)) lo hi

theorem MemoryModel.phases_of_mk? {phases : List (Phase ε P)} {frac : ℚ} {model : MemoryModel ε P}
    (h : MemoryModel.mk? phases frac = .ok model) : model.phases = phases := by
  unfold MemoryModel.mk? at h
  split_ifs at h
  obtain rfl := Except.ok.inj h
  rfl

/-! ## The peak grows with its terms -/

/-- Two readings of one set of names, the second no less anywhere. -/
def Dominates (xs ys : List (String × ℤ)) : Prop := List.Forall₂ (fun x y => x.2 ≤ y.2) xs ys

/-- A term that returns bytes at the first parameters returns no fewer at the second. -/
def TermGrows (p p' : P) (term : P → Except ε Number) : Prop :=
  ∀ x, term p = .ok x → 0 ≤ x.val → ∃ y, term p' = .ok y ∧ 0 ≤ y.val ∧ ∀ R, x.toFloat R ≤ y.toFloat R

section Grows
variable {R : Rounding} {p p' : P} {phase : String} {frac : ℚ}

theorem termBytes_eq_ok {term : String} {x : Number} {n : ℤ} :
    termBytes (ε := ε) R phase term x = .ok n ↔ 0 ≤ x.val ∧ Rounding.trunc (x.toFloat R) = n := by
  unfold termBytes
  split
  · next hneg => simp [hneg]
  · next hpos => simp [not_lt.1 hpos]

theorem evalTerms_grows {terms : List (String × (P → Except ε Number))} {xs : List (String × ℤ)}
    (hterms : ∀ t ∈ terms, TermGrows p p' t.2) (h : evalTerms R phase p terms = .ok xs) :
    ∃ ys, evalTerms R phase p' terms = .ok ys ∧ Dominates xs ys := by
  induction terms generalizing xs with
  | nil =>
    obtain rfl := Except.ok.inj h
    exact ⟨[], rfl, .nil⟩
  | cons t rest ih =>
    simp only [evalTerms, bind_eq_ok, mapError_eq_ok, termBytes_eq_ok] at h ⊢
    obtain ⟨x, hx, n, ⟨hval, rfl⟩, values, hvalues, hxs⟩ := h
    obtain rfl := Except.ok.inj hxs
    obtain ⟨y, hy, hval', hle⟩ := hterms t (by simp) x hx hval
    obtain ⟨values', hvalues', hdom⟩ := ih (fun u hu => hterms u (by simp [hu])) hvalues
    exact ⟨_, ⟨y, hy, _, ⟨hval', rfl⟩, values', hvalues', rfl⟩, .cons (Rounding.trunc_mono (hle R)) hdom⟩

theorem phaseTotal_mono {xs ys : List (String × ℤ)} (hfrac : 0 ≤ frac) (h : Dominates xs ys) :
    phaseTotal R frac xs ≤ phaseTotal R frac ys := by
  have hsum : (xs.map Prod.snd).sum ≤ (ys.map Prod.snd).sum := by
    induction h with
    | nil => exact le_rfl
    | cons hle _ ih =>
      simp only [List.map_cons, List.sum_cons]
      exact add_le_add hle ih
  have hmargin : 0 ≤ R.add (R.ofInt 1) frac := Rounding.add_nonneg (Rounding.ofInt_nonneg zero_le_one) hfrac
  exact Rounding.trunc_mono (R.mono (mul_le_mul_of_nonneg_right (Rounding.ofInt_mono hsum) hmargin))

/-- Phase by phase, the totals of the second parameters are no less. -/
theorem evalPhases_grows {phases : List (Phase ε P)} {xs : List (String × List (String × ℤ))}
    (hfrac : 0 ≤ frac) (hterms : ∀ ph ∈ phases, ∀ t ∈ ph.terms, TermGrows p p' t.2)
    (h : evalPhases R p phases = .ok xs) :
    ∃ ys, evalPhases R p' phases = .ok ys ∧ Dominates (xs.map fun c => (c.1, phaseTotal R frac c.2))
      (ys.map fun c => (c.1, phaseTotal R frac c.2)) := by
  induction phases generalizing xs with
  | nil =>
    obtain rfl := Except.ok.inj h
    exact ⟨[], rfl, .nil⟩
  | cons ph rest ih =>
    simp only [evalPhases, bind_eq_ok] at h ⊢
    obtain ⟨values, hvalues, components, hcomponents, hxs⟩ := h
    obtain rfl := Except.ok.inj hxs
    obtain ⟨values', hvalues', hdom⟩ := evalTerms_grows (hterms ph (by simp)) hvalues
    obtain ⟨components', hcomponents', hrest⟩ := ih (fun u hu => hterms u (by simp [hu])) hcomponents
    exact ⟨_, ⟨values', hvalues', components', hcomponents', rfl⟩, .cons (phaseTotal_mono hfrac hdom) hrest⟩

/-- The peak phase's total is the largest one. -/
theorem peakPhase_snd (totals : List (String × ℤ)) :
    (peakPhase totals).2 = (totals.tail.map Prod.snd).foldl max (totals.headD ("", 0)).2 := by
  unfold peakPhase
  generalize totals.headD ("", 0) = best
  induction totals.tail generalizing best with
  | nil => rfl
  | cons t rest ih =>
    simp only [List.foldl_cons, List.map_cons]
    rw [ih]
    split
    · next hlt => rw [max_eq_right hlt.le]
    · next hle => rw [max_eq_left (not_lt.1 hle)]

theorem foldl_max_mono {xs ys : List (String × ℤ)} {m n : ℤ} (h : Dominates xs ys) (hmn : m ≤ n) :
    (xs.map Prod.snd).foldl max m ≤ (ys.map Prod.snd).foldl max n := by
  induction h generalizing m n with
  | nil => exact hmn
  | cons hle _ ih => exact ih (max_le_max hmn hle)

theorem peakPhase_mono {xs ys : List (String × ℤ)} (h : Dominates xs ys) : (peakPhase xs).2 ≤ (peakPhase ys).2 := by
  rw [peakPhase_snd, peakPhase_snd]
  cases h with
  | nil => exact le_rfl
  | cons hle hrest => exact foldl_max_mono hrest hle

/-- When every term grows, the estimate does. -/
theorem estimate_grows {model : MemoryModel ε P} {est : PeakEstimate}
    (hterms : ∀ ph ∈ model.phases, ∀ t ∈ ph.terms, TermGrows p p' t.2) (h : estimate R model p = .ok est) :
    ∃ est', estimate R model p' = .ok est' ∧ est.peakBytes ≤ est'.peakBytes := by
  simp only [estimate, bind_eq_ok] at h ⊢
  obtain ⟨components, hcomponents, hest⟩ := h
  obtain rfl := Except.ok.inj hest
  obtain ⟨components', hcomponents', hdom⟩ := evalPhases_grows model.overhead_nonneg hterms hcomponents
  exact ⟨_, ⟨components', hcomponents', rfl⟩, peakPhase_mono hdom⟩

end Grows

/-! ## When an estimate returns -/

/-- A term that returns bytes. -/
def TermReturns (p : P) (term : P → Except ε Number) : Prop := ∃ x, term p = .ok x ∧ 0 ≤ x.val

section Returns
variable {R : Rounding} {p : P} {phase : String}

theorem evalTerms_returns_iff {terms : List (String × (P → Except ε Number))} :
    (∃ xs, evalTerms R phase p terms = .ok xs) ↔ ∀ t ∈ terms, TermReturns p t.2 := by
  induction terms with
  | nil => exact iff_of_true ⟨[], rfl⟩ (List.forall_mem_nil _)
  | cons t rest ih =>
    simp only [List.forall_mem_cons, ← ih, evalTerms, bind_eq_ok, mapError_eq_ok, termBytes_eq_ok]
    constructor
    · rintro ⟨xs, x, hx, n, ⟨hval, -⟩, values, hvalues, -⟩
      exact ⟨⟨x, hx, hval⟩, values, hvalues⟩
    · rintro ⟨⟨x, hx, hval⟩, values, hvalues⟩
      exact ⟨_, x, hx, _, ⟨hval, rfl⟩, values, hvalues, rfl⟩

theorem evalPhases_returns_iff {phases : List (Phase ε P)} :
    (∃ xs, evalPhases R p phases = .ok xs) ↔ ∀ ph ∈ phases, ∀ t ∈ ph.terms, TermReturns p t.2 := by
  induction phases with
  | nil => exact iff_of_true ⟨[], rfl⟩ (List.forall_mem_nil _)
  | cons ph rest ih =>
    rw [List.forall_mem_cons, ← ih, ← @evalTerms_returns_iff _ _ R p ph.name]
    simp only [evalPhases, bind_eq_ok]
    constructor
    · rintro ⟨xs, values, hvalues, components, hcomponents, -⟩
      exact ⟨⟨values, hvalues⟩, components, hcomponents⟩
    · rintro ⟨⟨values, hvalues⟩, components, hcomponents⟩
      exact ⟨_, values, hvalues, components, hcomponents, rfl⟩

/-- An estimate returns exactly when every term does. -/
theorem estimate_returns_iff {model : MemoryModel ε P} :
    (∃ est, estimate R model p = .ok est) ↔ ∀ ph ∈ model.phases, ∀ t ∈ ph.terms, TermReturns p t.2 := by
  rw [← evalPhases_returns_iff (R := R)]
  simp only [estimate, bind_eq_ok]
  constructor
  · rintro ⟨est, components, hcomponents, -⟩
    exact ⟨components, hcomponents⟩
  · rintro ⟨components, hcomponents⟩
    exact ⟨_, components, hcomponents, rfl⟩

end Returns

/-! ## The search -/

section Search
variable {R : Rounding} {model : MemoryModel ε P} {vary : ℤ → Except (MemfitError ε) P} {cost : ℤ → ℤ}
  {lo hi budgetBytes : ℤ}

/-- The search between endpoints that rise, whatever the peak does in between. -/
theorem maxIntWithinBudget_run (hlo : 0 ≤ lo) (hle : lo ≤ hi)
    (hpeak : ∀ v ∈ Set.Icc lo hi, peakAt R model vary v = .ok (cost v)) (hrise : cost lo ≤ cost hi) :
    (budgetBytes < cost lo ∧ maxIntWithinBudget R model vary lo hi budgetBytes =
        .error (.doesNotFit (nothingFitsMsg lo hi budgetBytes (cost lo)))) ∨
      cost lo ≤ budgetBytes ∧ ∃ v, maxIntWithinBudget R model vary lo hi budgetBytes = .ok v ∧
        v ∈ allowed cost lo hi budgetBytes ∧ (v = hi ∨ budgetBytes < cost (v + 1)) ∧ (cost hi ≤ budgetBytes → v = hi) := by
  have hmemlo : lo ∈ Set.Icc lo hi := ⟨le_rfl, hle⟩
  have hmemhi : hi ∈ Set.Icc lo hi := ⟨hle, le_rfl⟩
  have hbounds : ¬ (lo < 0 ∨ lo > hi) := by omega
  simp only [maxIntWithinBudget, if_neg hbounds, hpeak lo hmemlo, hpeak hi hmemhi, bind, Except.bind,
    if_neg (not_lt.2 hrise)]
  by_cases hfit : cost lo > budgetBytes
  · exact .inl ⟨hfit, if_pos hfit⟩
  · refine .inr ⟨not_lt.1 hfit, ?_⟩
    rw [if_neg hfit]
    by_cases htop : cost hi ≤ budgetBytes
    · rw [if_pos htop]
      exact ⟨hi, rfl, ⟨hmemhi, htop⟩, .inl rfl, fun _ => rfl⟩
    · rw [if_neg htop]
      have hlt : lo < hi := hle.lt_of_ne fun heq => htop (heq ▸ not_lt.1 hfit)
      have hprobe : ∀ v, lo ≤ v → v ≤ hi → (peakAt R model vary v).map (fun p => decide (p ≤ budgetBytes)) =
          .ok (decide (cost v ≤ budgetBytes)) := by
        intro v h₁ h₂
        rw [hpeak v ⟨h₁, h₂⟩]
        rfl
      obtain ⟨v, hv, h₁, h₂, hfits, hnext⟩ := bisect_ok hlt fun v h₁ h₂ => ⟨_, hprobe v h₁.le h₂.le⟩
      refine ⟨v, hv, ⟨⟨h₁, h₂.le⟩, ?_⟩, .inr ?_, fun h => absurd h htop⟩
      · rcases hfits with rfl | hfits
        · exact not_lt.1 hfit
        · simpa [hprobe v h₁ h₂.le] using hfits
      · rcases hnext with rfl | hnext
        · exact not_le.1 htop
        · simpa [hprobe (v + 1) (by omega) (by omega)] using hnext

/-- With a peak that never falls, the search returns the largest value that fits; it
reports that nothing fits when the lowest value does not. -/
theorem maxIntWithinBudget_eq (hlo : 0 ≤ lo) (hle : lo ≤ hi)
    (hpeak : ∀ v ∈ Set.Icc lo hi, peakAt R model vary v = .ok (cost v)) (hmono : MonotoneOn cost (Set.Icc lo hi)) :
    (budgetBytes < cost lo ∧ maxIntWithinBudget R model vary lo hi budgetBytes =
        .error (.doesNotFit (nothingFitsMsg lo hi budgetBytes (cost lo)))) ∨
      cost lo ≤ budgetBytes ∧ ∃ v, maxIntWithinBudget R model vary lo hi budgetBytes = .ok v ∧
        IsGreatest (allowed cost lo hi budgetBytes) v := by
  rcases maxIntWithinBudget_run hlo hle hpeak (hmono ⟨le_rfl, hle⟩ ⟨hle, le_rfl⟩ hle) with
    hover | ⟨hfit, v, hv, hmem, hnext, -⟩
  · exact .inl hover
  · exact .inr ⟨hfit, v, hv, isGreatest_of_bracket hmono hmem hnext⟩

/-- Bounds out of order, or a peak that falls from one end to the other. -/
theorem maxIntWithinBudget_refused (h : lo < 0 ∨ hi < lo ∨ cost hi < cost lo)
    (hpeak : ∀ v ∈ Set.Icc lo hi, peakAt R model vary v = .ok (cost v)) :
    ∃ msg, maxIntWithinBudget R model vary lo hi budgetBytes = .error (.input msg) := by
  unfold maxIntWithinBudget
  by_cases hbounds : lo < 0 ∨ lo > hi
  · exact ⟨_, if_pos hbounds⟩
  · have hfall : cost hi < cost lo := by omega
    have hle : lo ≤ hi := by omega
    simp only [if_neg hbounds, hpeak lo ⟨le_rfl, hle⟩, hpeak hi ⟨hle, le_rfl⟩, bind, Except.bind, if_pos hfall]
    exact ⟨_, rfl⟩

end Search

/-- The two errors the search raises itself. -/
def RaisesInputError {α : Type} (x : Except (MemfitError ε) α) : Prop := ∃ msg, x = .error (.input msg)

def RaisesDoesNotFitError {α : Type} (x : Except (MemfitError ε) α) : Prop := ∃ msg, x = .error (.doesNotFit msg)

/-- The search, for any peak that returns between the bounds. -/
theorem max_int_within_budget_correct (R : Rounding) (model : MemoryModel ε P) (vary : ℤ → Except (MemfitError ε) P)
    (cost : ℤ → ℤ) (lo hi budgetBytes : ℤ) (hpeak : ∀ v ∈ Set.Icc lo hi, peakAt R model vary v = .ok (cost v)) :
    let search := maxIntWithinBudget R model vary lo hi budgetBytes
    (RaisesInputError search ↔ lo < 0 ∨ hi < lo ∨ cost hi < cost lo) ∧
      (¬ RaisesInputError search → (RaisesDoesNotFitError search ↔ budgetBytes < cost lo) ∧
        (¬ RaisesDoesNotFitError search → ∃ v, search = .ok v ∧ lo ≤ v ∧ v ≤ hi ∧ cost v ≤ budgetBytes ∧
          (v = hi ∨ budgetBytes < cost (v + 1)) ∧ (cost hi ≤ budgetBytes → v = hi) ∧
          (MonotoneOn cost (Set.Icc lo hi) → IsGreatest {s | s ∈ Set.Icc lo hi ∧ cost s ≤ budgetBytes} v))) := by
  intro search
  by_cases hbad : lo < 0 ∨ hi < lo ∨ cost hi < cost lo
  · have hraise : RaisesInputError search := maxIntWithinBudget_refused hbad hpeak
    exact ⟨iff_of_true hraise hbad, fun h => absurd hraise h⟩
  · obtain ⟨hlo, hle, hrise⟩ : 0 ≤ lo ∧ lo ≤ hi ∧ cost lo ≤ cost hi := by omega
    rcases @maxIntWithinBudget_run _ _ R model vary cost lo hi budgetBytes hlo hle hpeak hrise with
      ⟨hover, hrun⟩ | ⟨hfit, v, hrun, hmem, hnext, htop⟩
    · refine ⟨iff_of_false (fun ⟨msg, h⟩ => ?_) hbad, fun _ => ⟨iff_of_true ⟨_, hrun⟩ hover, fun h => absurd ⟨_, hrun⟩ h⟩⟩
      exact nomatch hrun.symm.trans h
    · refine ⟨iff_of_false (fun ⟨msg, h⟩ => nomatch hrun.symm.trans h) hbad, fun _ => ⟨?_, fun _ => ?_⟩⟩
      · exact iff_of_false (fun ⟨msg, h⟩ => nomatch hrun.symm.trans h) (not_lt.2 hfit)
      · exact ⟨v, hrun, hmem.1.1, hmem.1.2, hmem.2, hnext, htop, fun hmono => isGreatest_of_bracket hmono hmem hnext⟩

/-- One phase with one term, which rises and falls: 3, 9, 4, 6. -/
def zigzag : MemoryModel Empty ℤ where
  phases := [⟨"p", [("t", fun v => .ok (.int ([3, 9, 4, 6].getD v.toNat 0)))]⟩]
  overheadFrac := 0
  nonempty := by decide
  unique := by decide
  overhead_nonneg := le_rfl

/-- The bisection misses 2, which fits. -/
theorem max_int_within_budget_correct_zigzag :
    ∃ v, maxIntWithinBudget .exact zigzag .ok 0 3 5 = .ok v ∧ 0 ≤ v ∧ v ≤ 3 ∧ [3, 9, 4, 6].getD v.toNat 0 ≤ (5 : ℤ) := by
  have hpeak : ∀ v ∈ Set.Icc (0 : ℤ) 3, peakAt .exact zigzag .ok v = .ok ([3, 9, 4, 6].getD v.toNat 0) := by
    rintro v ⟨h₁, h₂⟩
    interval_cases v <;> exact eq_ok_of_toOption (by decide +kernel)
  obtain ⟨hinput, hrest⟩ := max_int_within_budget_correct .exact zigzag .ok (fun v => [3, 9, 4, 6].getD v.toNat 0) 0 3 5 hpeak
  obtain ⟨hover, hfound⟩ := hrest (hinput.not.2 (by decide))
  obtain ⟨v, hv, h₁, h₂, hfit, -⟩ := hfound (hover.not.2 (by decide))
  exact ⟨v, hv, h₁, h₂, hfit⟩

end MlxTrainPerf.Memfit
