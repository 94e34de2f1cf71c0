import Mathlib
/-!
# Largest value within a budget

A cost that may fail, the bisection that looks for the largest value it allows,
and what that value says about every other one when the cost never falls.
-/
namespace Budget

variable {ε : Type}

theorem bind_eq_ok {α β : Type} {x : Except ε α} {f : α → Except ε β} {b : β} :
    (x >>= f) = .ok b ↔ ∃ a, x = .ok a ∧ f a = .ok b := by
  cases x with
  | error e => simp [bind, Except.bind]
  | ok a => simp [bind, Except.bind]

theorem bind_eq_error {α β : Type} {x : Except ε α} {f : α → Except ε β} {e : ε} :
    (x >>= f) = .error e ↔ x = .error e ∨ ∃ a, x = .ok a ∧ f a = .error e := by
  cases x with
  | error e' => simp [bind, Except.bind]
  | ok a => simp [bind, Except.bind]

theorem mapError_eq_ok {ε' α : Type} {x : Except ε α} {f : ε → ε'} {a : α} : x.mapError f = .ok a ↔ x = .ok a := by
  cases x with
  | error e => simp [Except.mapError]
  | ok b => simp [Except.mapError]

theorem eq_ok_of_toOption {α : Type} {x : Except ε α} {a : α} (h : x.toOption = some a) : x = .ok a := by
  cases x with
  | error e => cases h
  | ok b => exact congrArg _ (Option.some.inj h)

theorem mapM_eq_ok {α β : Type} {f : α → Except ε β} {xs : List α} {ys : List β} :
    xs.mapM f = .ok ys ↔ List.Forall₂ (fun x y => f x = .ok y) xs ys := by
  induction xs generalizing ys with
  | nil =>
    rw [List.mapM_nil, List.forall₂_nil_left_iff]
    exact ⟨fun h => (Except.ok.inj h).symm, fun h => by rw [h]; rfl⟩
  | cons x xs ih =>
    rw [List.mapM_cons, List.forall₂_cons_left_iff]
    simp only [bind_eq_ok]
    constructor
    · rintro ⟨y, hy, ys', hys', hret⟩
      exact ⟨y, ys', hy, ih.1 hys', (Except.ok.inj hret).symm⟩
    · rintro ⟨y, ys', hy, hys', rfl⟩
      exact ⟨y, hy, ys', ih.2 hys', rfl⟩

theorem mapM_eq_map {α β : Type} {f : α → Except ε β} {g : α → β} {xs : List α} (h : ∀ x ∈ xs, f x = .ok (g x)) :
    xs.mapM f = .ok (xs.map g) := by
  rw [mapM_eq_ok, List.forall₂_map_right_iff, List.forall₂_same]
  exact h

theorem forall₂_exists {α β : Type} {R : α → β → Prop} {xs : List α} {ys : List β} (h : List.Forall₂ R xs ys) :
    ∀ x ∈ xs, ∃ y ∈ ys, R x y := by
  induction h with
  | nil => simp
  | cons hxy _ ih =>
    rw [List.forall_mem_cons]
    exact ⟨⟨_, List.mem_cons_self, hxy⟩, fun x hx => (ih x hx).imp fun y hy => ⟨List.mem_cons_of_mem _ hy.1, hy.2⟩⟩

theorem forM_eq_ok {α : Type} {f : α → Except ε Unit} {xs : List α} : xs.forM f = .ok () ↔ ∀ x ∈ xs, f x = .ok () := by
  induction xs with
  | nil => exact ⟨fun _ => List.forall_mem_nil _, fun _ => rfl⟩
  | cons x xs ih =>
    change (f x >>= fun _ => xs.forM f) = .ok () ↔ _
    rw [bind_eq_ok, List.forall_mem_cons, ← ih]
    exact ⟨fun ⟨_, hx, hxs⟩ => ⟨hx, hxs⟩, fun ⟨hx, hxs⟩ => ⟨(), hx, hxs⟩⟩

/-- Whatever the first cost is, the second is no less. -/
def Grows (x y : Except ε ℤ) : Prop := ∀ a, x = .ok a → ∃ b, y = .ok b ∧ a ≤ b

theorem Grows.refl (x : Except ε ℤ) : Grows x x := fun a ha => ⟨a, ha, le_rfl⟩

theorem Grows.of_le {a b : ℤ} (h : a ≤ b) : Grows (.ok a : Except ε ℤ) (.ok b) := by
  intro n hn
  obtain rfl := Except.ok.inj hn
  exact ⟨b, rfl, h⟩

/-- Bisection between a value that fits and one that does not. -/
def bisect (fits : ℤ → Except ε Bool) (fit miss : ℤ) : Except ε ℤ :=
  if miss - fit > 1 then
    match fits ((fit + miss) / 2) with
    | .error e => .error e
    | .ok true => bisect fits ((fit + miss) / 2) miss
    | .ok false => bisect fits fit ((fit + miss) / 2)
  else .ok fit
termination_by (miss - fit).toNat
decreasing_by all_goals omega

/-- What bisection returns fits, and the next value does not. -/
theorem bisect_ok {fits : ℤ → Except ε Bool} {fit miss : ℤ} (hlt : fit < miss)
    (hok : ∀ v, fit < v → v < miss → ∃ r, fits v = .ok r) :
    ∃ v, bisect fits fit miss = .ok v ∧ fit ≤ v ∧ v < miss ∧ (v = fit ∨ fits v = .ok true) ∧
      (v + 1 = miss ∨ fits (v + 1) = .ok false) := by
  fun_induction bisect fits fit miss with
  | case1 fit miss hgap e herr =>
    obtain ⟨r, hr⟩ := hok ((fit + miss) / 2) (by omega) (by omega)
    rw [hr] at herr
    cases herr
  | case2 fit miss hgap htrue ih =>
    obtain ⟨v, hv, hlo, hhi, hfit, hmiss⟩ := ih (by omega) fun v h₁ h₂ => hok v (by omega) h₂
    refine ⟨v, hv, by omega, hhi, .inr ?_, hmiss⟩
    rcases hfit with rfl | hfit
    · exact htrue
    · exact hfit
  | case3 fit miss hgap hfalse ih =>
    obtain ⟨v, hv, hlo, hhi, hfit, hmiss⟩ := ih (by omega) fun v h₁ h₂ => hok v h₁ (by omega)
    refine ⟨v, hv, hlo, by omega, hfit, .inr ?_⟩
    rcases hmiss with hmiss | hmiss
    · rw [hmiss]
      exact hfalse
    · exact hmiss
  | case4 fit miss hgap => exact ⟨fit, rfl, le_refl fit, hlt, .inl rfl, .inl (by omega)⟩

/-- The values between two bounds that a budget allows. -/
def allowed (cost : ℤ → ℤ) (lo hi budget : ℤ) : Set ℤ := {v | v ∈ Set.Icc lo hi ∧ cost v ≤ budget}

section Threshold
variable {cost : ℤ → ℤ} {lo hi budget v s : ℤ}

/-- A value that fits while the next does not is the largest. -/
theorem isGreatest_of_bracket (hmono : MonotoneOn cost (Set.Icc lo hi)) (hv : v ∈ allowed cost lo hi budget)
    (hnext : v = hi ∨ budget < cost (v + 1)) : IsGreatest (allowed cost lo hi budget) v := by
  refine ⟨hv, fun s ⟨hs, hfit⟩ => ?_⟩
  rcases hnext with rfl | hnext
  · exact hs.2
  · by_contra hlt
    have hle : v + 1 ≤ s := not_le.1 hlt
    have hmem : v + 1 ∈ Set.Icc lo hi := ⟨hv.1.1.trans (Int.le_add_one le_rfl), hle.trans hs.2⟩
    exact absurd ((hmono hmem hs hle).trans hfit) (not_le.2 hnext)

/-- Below the largest value that fits, everything fits, and nothing above it does. -/
theorem le_iff_of_isGreatest (hmono : MonotoneOn cost (Set.Icc lo hi)) (hv : IsGreatest (allowed cost lo hi budget) v)
    (hs : s ∈ Set.Icc lo hi) : s ≤ v ↔ cost s ≤ budget := by
  constructor
  · intro hle
    exact (hmono hs hv.1.1 hle).trans hv.1.2
  · intro hfit
    exact hv.2 ⟨hs, hfit⟩

end Threshold
end Budget
