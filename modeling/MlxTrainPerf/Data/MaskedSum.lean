import MlxTrainPerf.Lib.Loops
import MlxTrainPerf.Data.Supervision
/-!
# Sums over supervised positions

A masked sum over a row is a sum over sequences: of a packed row over its entries,
of a stock row over its one, each over the steps it supervises.
-/
open Loops PyList

namespace MlxTrainPerf.Packing

section Sums
variable {M : Type} [AddCommMonoid M]

/-- A sum over the supervised steps of an entry. -/
def overSteps (e : Entry) (f : ℕ → M) : M := ∑ k ∈ Finset.range e.tokens.length, if supervised e k then f k else 0

variable {entries : List Entry} {e : Entry} {L s k : ℕ} {f g : ℕ → M}

theorem overSteps_congr (h : ∀ k < e.tokens.length, supervised e k = true → f k = g k) : overSteps e f = overSteps e g := by
  apply Finset.sum_congr rfl
  intro k hk
  split
  · next hsup => exact h k (Finset.mem_range.1 hk) hsup
  · rfl

/-! ## A packed row -/

theorem supervisedAt_startOf (hs : s < entries.length) (hk : k ≤ (entryAt entries s).tokens.length) :
    supervisedAt entries (startOf entries s + k) = supervised (entryAt entries s) k := by
  have hown : owner entries (startOf entries s + k) = s := by
    rw [owner_eq_iff hs, startOf_succ hs]
    omega
  rw [supervisedAt, hown, Nat.add_sub_cancel_left]

theorem supervised_length : supervised e e.tokens.length = false := by
  unfold supervised
  apply decide_eq_false
  omega

/-- The first `s` segments. -/
theorem sum_startOf (hs : s ≤ entries.length) :
    ∑ p ∈ Finset.range (startOf entries s), (if supervisedAt entries p then f p else 0) =
      ∑ t ∈ Finset.range s, overSteps (entryAt entries t) fun k => f (startOf entries t + k) := by
  induction s with
  | zero => rw [startOf_zero, Finset.sum_range_zero, Finset.sum_range_zero]
  | succ s ih =>
    have hlt : s < entries.length := hs
    rw [Finset.sum_range_succ, ← ih hlt.le, startOf_succ hlt, Finset.sum_range_add, Finset.sum_range_succ,
      supervisedAt_startOf hlt (le_refl _), supervised_length, if_neg Bool.false_ne_true, add_zero]
    congr 1
    apply Finset.sum_congr rfl
    intro k hk
    rw [supervisedAt_startOf hlt (Finset.mem_range.1 hk).le]

theorem supervisedAt_tail {p : ℕ} (hp : used entries ≤ p) : supervisedAt entries p = false := by
  have hlast := owner_eq_length_iff.2 hp
  have htail : entryAt entries entries.length = ⟨[], 0⟩ := List.getD_eq_default _ _ (le_refl _)
  rw [supervisedAt, hlast, htail]
  unfold supervised
  apply decide_eq_false
  simp

/-- The last slot of a row that is full to the end is a pad. -/
theorem supervisedAt_last {p : ℕ} (hp : p + 1 = used entries) : supervisedAt entries p = false := by
  obtain ⟨n, hn⟩ : ∃ n, entries.length = n + 1 := by
    apply Nat.exists_eq_succ_of_ne_zero
    intro hzero
    rw [List.length_eq_zero_iff] at hzero
    subst hzero
    cases hp
  have hlt : n < entries.length := by omega
  have hend : startOf entries n + ((entryAt entries n).tokens.length + 1) = used entries := by
    rw [← startOf_succ hlt, ← hn, startOf_length]
  obtain rfl : p = startOf entries n + (entryAt entries n).tokens.length := by omega
  rw [supervisedAt_startOf hlt (le_refl _), supervised_length]

/-- A masked sum over a packed row is a sum over its entries. -/
theorem sum_packedRow (hfit : used entries ≤ L + 1) :
    ∑ p ∈ Finset.range L, (if supervisedAt entries p then f p else 0) =
      ∑ s ∈ Finset.range entries.length, overSteps (entryAt entries s) fun k => f (startOf entries s + k) := by
  rw [← sum_startOf (le_refl _), startOf_length]
  have hshort : ∀ n, min L (used entries) ≤ n → n ≤ max L (used entries) →
      ∑ p ∈ Finset.range n, (if supervisedAt entries p then f p else 0) =
        ∑ p ∈ Finset.range (min L (used entries)), if supervisedAt entries p then f p else 0 := by
    intro n hmin hmax
    symm
    apply Finset.sum_subset (Finset.range_mono hmin)
    intro p hp hout
    have hp := Finset.mem_range.1 hp
    have hout := Nat.le_of_not_lt fun h => hout (Finset.mem_range.2 h)
    -- Past the row's end only the last pad can be left, past the entries only the tail.
    have hunsup : supervisedAt entries p = false := by
      rcases Nat.lt_or_ge p (used entries) with hlt | hge
      · exact supervisedAt_last (by omega)
      · exact supervisedAt_tail hge
    rw [hunsup, if_neg Bool.false_ne_true]
  rw [hshort L (min_le_left _ _) (le_max_left _ _), hshort _ (min_le_right _ _) (le_max_right _ _)]

/-! ## A stock row -/

/-- Position `k` of a stock row of `e`, whose `lengths` are `(offset, length)`. -/
def stockMask (e : Entry) (L k : ℕ) : Bool := decide (e.offset ≤ k + 1 ∧ (k + 1 : ℤ) ≤ (min e.tokens.length L : ℕ))

/-- The entry of a stock row: its tokens up to `max_seq_length`. -/
def cutTo (L : ℕ) (e : Entry) : Entry := { e with tokens := e.tokens.take L }

/-- The row keeps a target for every step it supervises. -/
def Targeted (L : ℕ) (e : Entry) : Prop := e.tokens.length < L ∨ (L : ℤ) < e.offset

theorem stockMask_eq (e : Entry) (L k : ℕ) : stockMask e L k = supervised (cutTo L e) k := by
  have hlength : (cutTo L e).tokens.length = min L e.tokens.length := List.length_take
  have hoffset : (cutTo L e).offset = e.offset := rfl
  unfold stockMask supervised
  rw [hlength, hoffset]
  apply decide_eq_decide.2
  omega

theorem cutTo_length : (cutTo L e).tokens.length = min L e.tokens.length := List.length_take

/-- A supervised step of a stock row of `w` columns has its target in the row. -/
theorem lt_width_of_supervised {w : ℕ} (htargeted : Targeted L e) (hw : stockWidth e.tokens.length L ≤ w)
    (hk : supervised (cutTo L e) k = true) : k < w - 1 := by
  have hk := of_decide_eq_true hk
  have hoffset : (cutTo L e).offset = e.offset := rfl
  rw [cutTo_length, hoffset] at hk
  have hwidth : k + 1 < stockWidth e.tokens.length L := by
    apply (lt_stockWidth_iff (by omega)).2
    rcases htargeted with h | h
    · omega
    · omega
  omega

/-- A masked sum over the inputs of a stock row. -/
theorem sum_stockRow {w : ℕ} (htargeted : Targeted L e) (hw : stockWidth e.tokens.length L ≤ w) :
    ∑ k ∈ Finset.range (w - 1), (if stockMask e L k then f k else 0) = overSteps (cutTo L e) f := by
  unfold overSteps
  simp only [stockMask_eq]
  rw [← Finset.sum_filter, ← Finset.sum_filter]
  apply Finset.sum_congr _ fun _ _ => rfl
  apply Finset.ext
  intro k
  rw [Finset.mem_filter, Finset.mem_filter, Finset.mem_range, Finset.mem_range]
  constructor
  · rintro ⟨-, hk⟩
    exact ⟨(of_decide_eq_true hk).2, hk⟩
  · rintro ⟨-, hk⟩
    exact ⟨lt_width_of_supervised htargeted hw hk, hk⟩

theorem stockWidth_mono {n n' : ℕ} (h : n ≤ n') : stockWidth n L ≤ stockWidth n' L := by
  unfold stockWidth stockPadTo
  omega

end Sums

end MlxTrainPerf.Packing
