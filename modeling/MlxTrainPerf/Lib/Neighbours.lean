import Mathlib
/-!
# Bins of which no two neighbours fit one

A list of loads, each positive, any two neighbours together above the capacity. There
are fewer of them than two to every bin that their sum needs.
-/

namespace Neighbours

variable {cap q : ℕ} {loads : List ℕ}

/-- Two by two, the loads pass the capacity. -/
theorem half_length_mul_le (hpos : ∀ x ∈ loads, 0 < x) (hchain : loads.IsChain fun x y => cap < x + y) :
    loads.length / 2 * (cap + 1) + loads.length % 2 ≤ loads.sum := by
  induction loads using List.twoStepInduction with
  | nil => simp
  | singleton x =>
    have hx := hpos x (List.mem_singleton_self x)
    simp only [List.length_singleton, List.sum_singleton]
    omega
  | cons_cons x y rest ih =>
    obtain ⟨hxy, htail⟩ := List.isChain_cons_cons.1 hchain
    have hrest := ih (fun z hz => hpos z (List.mem_cons_of_mem _ (List.mem_cons_of_mem _ hz))) htail.tail
    have hlength : (x :: y :: rest).length / 2 = rest.length / 2 + 1 ∧ (x :: y :: rest).length % 2 = rest.length % 2 := by
      rw [List.length_cons, List.length_cons]
      omega
    rw [hlength.1, hlength.2, Nat.succ_mul, List.sum_cons, List.sum_cons]
    omega

/-- The loads number less than twice the bins their sum fits in. -/
theorem length_le (hpos : ∀ x ∈ loads, 0 < x) (hchain : loads.IsChain fun x y => cap < x + y) (hsum : loads.sum ≤ q * cap) :
    loads.length ≤ 2 * q - 1 := by
  have hhalf := (half_length_mul_le hpos hchain).trans hsum
  by_contra hmany
  have hq : q ≤ loads.length / 2 := by omega
  have hmul : q * (cap + 1) ≤ loads.length / 2 * (cap + 1) := Nat.mul_le_mul_right _ hq
  rw [Nat.mul_succ] at hmul
  -- Then no bin is needed, and there is no load.
  obtain rfl : q = 0 := by omega
  have hzero : loads.length / 2 * (cap + 1) = 0 := by omega
  rcases Nat.mul_eq_zero.1 hzero with h | h
  · omega
  · omega

end Neighbours
