import Mathlib.Data.List.Basic
import Mathlib.Data.Option.Basic
/-!
# Runs of a step function

A step function says what an action makes of a state, where it is possible. Two
threads are one step function: a run is any order of their actions.
-/

namespace Runs

variable {σ α : Type} {step : σ → α → Option σ} {good : σ → α → Bool} {s s' : σ} {acts : List α}

/-- The state after the actions, when each is possible. -/
def run (step : σ → α → Option σ) (s : σ) : List α → Option σ
  | [] => some s
  | a :: acts => (step s a).bind fun s' => run step s' acts

/-- Is every action of the run a good one, in the state it meets? -/
def along (step : σ → α → Option σ) (good : σ → α → Bool) (s : σ) : List α → Bool
  | [] => true
  | a :: acts => good s a && ((step s a).all fun s' => along step good s' acts)

theorem run_cons {a : α} (h : run step s (a :: acts) = some s') : ∃ s₁, step s a = some s₁ ∧ run step s₁ acts = some s' :=
  Option.bind_eq_some_iff.1 h

theorem along_cons {a : α} {s₁ : σ} (h : step s a = some s₁) :
    along step good s (a :: acts) = (good s a && along step good s₁ acts) := by
  rw [along, h, Option.all_some]

/-- What every step keeps, a run keeps. -/
theorem run_invariant {Inv : σ → Prop} (hstep : ∀ s a s', Inv s → step s a = some s' → Inv s') (hs : Inv s)
    (h : run step s acts = some s') : Inv s' := by
  induction acts generalizing s with
  | nil =>
    obtain rfl := Option.some.inj h
    exact hs
  | cons a acts ih =>
    obtain ⟨s₁, hs₁, hrun⟩ := run_cons h
    exact ih (hstep s a s₁ hs hs₁) hrun

/-- Good steps keep the invariant, and the first other step leads where no step leads
out again. -/
theorem invariant_or_doomed {Inv Doomed : σ → Prop} (hgood : ∀ s a s', Inv s → good s a = true → step s a = some s' → Inv s')
    (hbad : ∀ s a s', Inv s → good s a = false → step s a = some s' → Doomed s')
    (hdoomed : ∀ s a s', Doomed s → step s a = some s' → Doomed s') (hs : Inv s) (h : run step s acts = some s') :
    along step good s acts = true ∧ Inv s' ∨ along step good s acts = false ∧ Doomed s' := by
  induction acts generalizing s with
  | nil =>
    obtain rfl := Option.some.inj h
    exact .inl ⟨rfl, hs⟩
  | cons a acts ih =>
    obtain ⟨s₁, hs₁, hrun⟩ := run_cons h
    rw [along_cons hs₁]
    cases hg : good s a with
    | true => exact ih (hgood s a s₁ hs hg hs₁) hrun
    | false => exact .inr ⟨rfl, run_invariant hdoomed (hbad s a s₁ hs hg hs₁) hrun⟩

/-- What every good step keeps, a run of good steps keeps. -/
theorem run_invariant_along {Inv : σ → Prop} (hgood : ∀ s a s', Inv s → good s a = true → step s a = some s' → Inv s')
    (hs : Inv s) (h : run step s acts = some s') (halong : along step good s acts = true) : Inv s' := by
  have hor : along step good s acts = true ∧ Inv s' ∨ along step good s acts = false ∧ True :=
    invariant_or_doomed hgood (fun _ _ _ _ _ _ => trivial) (fun _ _ _ _ _ => trivial) hs h
  rcases hor with ⟨-, hinv⟩ | ⟨hbad, -⟩
  · exact hinv
  · rw [hbad] at halong
    cases halong

end Runs
