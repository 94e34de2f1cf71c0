import Mathlib
/-!
# The nearest bucket

A table keyed by sizes, read at a size it may not hold: the entry whose key is
nearest on a log scale, the lower one on a tie. Logarithms are compared through
the ratios they are taken of.
-/
namespace Buckets

/-- `(abs(log2 n - log2 b), b)`, the first before its logarithm. -/
def logKey (n b : ℕ) : ℚ ×ₗ ℕ := toLex ((max n b : ℕ) / (min n b : ℕ), b)

section Nearest
variable {α : Type} {n : ℕ} {first e : ℕ × α} {rest : List (ℕ × α)}

/-- The entry of a table nearest to `n`. -/
def nearest (n : ℕ) (first : ℕ × α) (rest : List (ℕ × α)) : ℕ × α :=
  rest.foldl (fun best e => if logKey n e.1 < logKey n best.1 then e else best) first

theorem nearest_cons : nearest n first (e :: rest) =
    nearest n (if logKey n e.1 < logKey n first.1 then e else first) rest := rfl

theorem nearest_mem : nearest n first rest ∈ first :: rest := by
  induction rest generalizing first with
  | nil => exact List.mem_cons_self
  | cons e rest ih =>
    rw [nearest_cons]
    split
    · exact List.mem_cons_of_mem _ ih
    · rcases List.mem_cons.1 (@ih first) with heq | hrest
      · rw [heq]
        exact List.mem_cons_self
      · exact List.mem_cons_of_mem _ (List.mem_cons_of_mem _ hrest)

end Nearest

/-- Past the smallest, the sizes that round up to one power of two are within a factor of two. -/
theorem near_of_pow_eq {k n n' : ℕ} (h : 2 ^ max k (n - 1).size = 2 ^ max k (n' - 1).size) (hn : 2 ^ k < n) :
    n < 2 * n' ∧ n' < 2 * n := by
  have hsize : max k (n - 1).size = max k (n' - 1).size := Nat.pow_right_injective le_rfl h
  have hbig : k < (n - 1).size := Nat.lt_size.2 (by omega)
  have hsame : (n' - 1).size = (n - 1).size := by omega
  have hlow : 2 ^ ((n - 1).size - 1) ≤ n - 1 := Nat.lt_size.1 (by omega)
  have hlow' : 2 ^ ((n - 1).size - 1) ≤ n' - 1 := Nat.lt_size.1 (by omega)
  have hhigh : n - 1 < 2 ^ (n - 1).size := Nat.lt_size_self (n - 1)
  have hhigh' : n' - 1 < 2 ^ (n - 1).size := hsame ▸ Nat.lt_size_self (n' - 1)
  have hdouble : 2 ^ (n - 1).size = 2 * 2 ^ ((n - 1).size - 1) := by
    rw [← pow_succ']
    congr 1
    omega
  omega

end Buckets
