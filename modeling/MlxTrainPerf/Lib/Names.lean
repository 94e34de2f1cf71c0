import Mathlib.Data.List.TakeWhile
/-!
# Names built from parts

A name that starts with one of a set of stems, no stem the start of another, starts with
that one only; a decimal numeral that no digit follows can be read back off a name.
-/

namespace Names

variable {ι : Type} {stem : ι → String}

/-- No stem is the start of another. -/
def PrefixFree (stem : ι → String) : Prop := ∀ i j, (stem i).toList <+: (stem j).toList → i = j

/-- A name has one stem, and one rest. -/
theorem stem_append_inj (hfree : PrefixFree stem) {i j : ι} {s t : String} (h : stem i ++ s = stem j ++ t) : i = j ∧ s = t := by
  have hlist : (stem i).toList ++ s.toList = (stem j).toList ++ t.toList := by
    rw [← String.toList_append, ← String.toList_append, h]
  have hij : i = j := by
    have hi : (stem i).toList <+: (stem j).toList ++ t.toList := hlist ▸ List.prefix_append _ _
    have hj : (stem j).toList <+: (stem j).toList ++ t.toList := List.prefix_append _ _
    rcases List.prefix_or_prefix_of_prefix hi hj with hpre | hpre
    · exact hfree i j hpre
    · exact (hfree j i hpre).symm
  subst hij
  exact ⟨rfl, String.toList_inj.1 (List.append_cancel_left hlist)⟩

theorem append_cancel {s t u : String} (h : s ++ t = s ++ u) : t = u := by
  have hlist : s.toList ++ t.toList = s.toList ++ u.toList := by
    rw [← String.toList_append, ← String.toList_append, h]
  exact String.toList_inj.1 (List.append_cancel_left hlist)

/-- No digit comes first. -/
def Ends (s : String) : Prop := ∀ c ∈ s.toList.head?, ¬c.isDigit

/-- The digits at the start of a name are its numeral. -/
theorem takeWhile_numeral (n : ℕ) {s : String} (hs : Ends s) : ((toString n).toList ++ s.toList).takeWhile Char.isDigit =
    Nat.toDigits 10 n := by
  have hdigits : ∀ c ∈ Nat.toDigits 10 n, c.isDigit := fun c hc => Nat.isDigit_of_mem_toDigits (by decide) (by decide) hc
  rw [Nat.toString_eq_ofList_toDigits, String.toList_ofList, List.takeWhile_append_of_pos hdigits]
  cases hlist : s.toList with
  | nil => exact List.append_nil _
  | cons c cs =>
    have hc : ¬c.isDigit := hs c (by rw [hlist]; rfl)
    rw [List.takeWhile_cons_of_neg hc, List.append_nil]

/-- A numeral and what follows it, read back. -/
theorem numeral_append_inj {n m : ℕ} {s t : String} (hs : Ends s) (ht : Ends t) (h : toString n ++ s = toString m ++ t) :
    n = m ∧ s = t := by
  have hlist : (toString n).toList ++ s.toList = (toString m).toList ++ t.toList := by
    rw [← String.toList_append, ← String.toList_append, h]
  have hdigits : Nat.toDigits 10 n = Nat.toDigits 10 m := by
    rw [← takeWhile_numeral n hs, hlist, takeWhile_numeral m ht]
  have hnm : n = m := by
    rw [← @Nat.ofDigitChars_ten_toDigits n, hdigits, Nat.ofDigitChars_ten_toDigits]
  subst hnm
  exact ⟨rfl, String.toList_inj.1 (List.append_cancel_left hlist)⟩

end Names
