import Mathlib.Data.List.Perm.Basic
import Mathlib.Data.List.Induction
/-!
# Groups and their pairs

A list grouped by a key, in the order the keys first appear, and the pairs of a list.
The pairs inside the groups are the pairs of the list whose keys agree
(`pairs_of_groups`).
-/

namespace Groups

variable {α β κ : Type}

/-- Every element with every one after it. -/
def pairsOf : List α → List (α × α)
  | [] => []
  | a :: rest => rest.map (fun b => (a, b)) ++ pairsOf rest

section Insert
variable [DecidableEq κ]

/-- `groups[k].append(a)`. -/
def insertGroup (k : κ) (a : α) : List (κ × List α) → List (κ × List α)
  | [] => [(k, [a])]
  | g :: gs => if g.1 = k then (g.1, g.2 ++ [a]) :: gs else g :: insertGroup k a gs

/-- The groups of a list. -/
def groupBy (key : α → κ) (l : List α) : List (κ × List α) := l.foldl (fun gs a => insertGroup (key a) a gs) []

/-- The members of a group. -/
def groupOf (k : κ) : List (κ × List α) → List α
  | [] => []
  | g :: gs => if g.1 = k then g.2 else groupOf k gs

end Insert

/-! ## Pairs -/

theorem pairsOf_map (f : α → β) (l : List α) : pairsOf (l.map f) = (pairsOf l).map (Prod.map f f) := by
  induction l with
  | nil => rfl
  | cons a l ih =>
    simp only [List.map_cons, pairsOf, List.map_append, List.map_map, ih]
    rfl

theorem mem_of_mem_pairsOf {l : List α} {p : α × α} (h : p ∈ pairsOf l) : p.1 ∈ l ∧ p.2 ∈ l := by
  induction l with
  | nil => cases h
  | cons a l ih =>
    rcases List.mem_append.1 h with h | h
    · obtain ⟨b, hb, rfl⟩ := List.mem_map.1 h
      exact ⟨List.mem_cons_self, List.mem_cons_of_mem _ hb⟩
    · exact ⟨List.mem_cons_of_mem _ (ih h).1, List.mem_cons_of_mem _ (ih h).2⟩

/-- A last element makes a pair with each before it. -/
theorem pairsOf_snoc (l : List α) (a : α) : (pairsOf (l ++ [a])).Perm (pairsOf l ++ l.map fun b => (b, a)) := by
  induction l with
  | nil => exact .refl _
  | cons b l ih =>
    simp only [List.cons_append, pairsOf, List.map_append, List.map_cons, List.map_nil, List.append_assoc]
    refine List.Perm.append_left _ ?_
    refine ((List.Perm.cons (b, a) ih).trans ?_)
    exact List.perm_middle.symm

/-! ## Groups -/

section Group
variable [DecidableEq κ] {k k' : κ} {a : α} {gs : List (κ × List α)}

theorem groupOf_insertGroup :
    groupOf k' (insertGroup k a gs) = if k = k' then groupOf k gs ++ [a] else groupOf k' gs := by
  induction gs with
  | nil =>
    simp only [insertGroup, groupOf]
    split_ifs <;> rfl
  | cons g gs ih =>
    rw [insertGroup]
    by_cases hg : g.1 = k
    · subst hg
      by_cases hk : g.1 = k'
      · simp [groupOf, hk]
      · simp [groupOf, hk]
    · rw [if_neg hg]
      simp only [groupOf, ih, if_neg hg]
      by_cases hk : g.1 = k'
      · have hne : k ≠ k' := fun h => hg (hk.trans h.symm)
        simp [hk, hne]
      · simp [hk]

/-- A group holds the elements of its key, in order. -/
theorem groupOf_groupBy (key : α → κ) (l : List α) : groupOf k (groupBy key l) = l.filter fun a => key a = k := by
  induction l using List.reverseRecOn with
  | nil => rfl
  | append_singleton l a ih =>
    have hstep : groupBy key (l ++ [a]) = insertGroup (key a) a (groupBy key l) := by simp [groupBy]
    rw [hstep, groupOf_insertGroup, List.filter_append]
    by_cases hk : key a = k
    · subst hk
      simp [ih]
    · simp [hk, ih]

theorem pairs_insertGroup : ((insertGroup k a gs).flatMap fun g => pairsOf g.2).Perm
    ((gs.flatMap fun g => pairsOf g.2) ++ (groupOf k gs).map fun b => (b, a)) := by
  induction gs with
  | nil => exact .refl _
  | cons g gs ih =>
    rw [insertGroup]
    by_cases hg : g.1 = k
    · rw [if_pos hg]
      simp only [List.flatMap_cons, groupOf, if_pos hg]
      refine ((pairsOf_snoc g.2 a).append_right _).trans ?_
      rw [List.append_assoc, List.append_assoc]
      exact List.perm_append_comm.append_left _
    · rw [if_neg hg]
      simp only [List.flatMap_cons, groupOf, if_neg hg, List.append_assoc]
      exact ih.append_left _

/-- The pairs inside the groups are the pairs of the list with equal keys. -/
theorem pairs_of_groups (key : α → κ) (l : List α) :
    ((groupBy key l).flatMap fun g => pairsOf g.2).Perm ((pairsOf l).filter fun p => key p.1 = key p.2) := by
  induction l using List.reverseRecOn with
  | nil => exact .refl _
  | append_singleton l a ih =>
    have hstep : groupBy key (l ++ [a]) = insertGroup (key a) a (groupBy key l) := by simp [groupBy]
    rw [hstep]
    refine pairs_insertGroup.trans ?_
    rw [groupOf_groupBy]
    have hnew : ((l.filter fun b => key b = key a).map fun b => (b, a)) =
        (l.map fun b => (b, a)).filter fun p => key p.1 = key p.2 := by
      rw [List.filter_map]
      rfl
    rw [hnew]
    refine (ih.append_right _).trans ?_
    rw [← List.filter_append]
    exact (pairsOf_snoc l a).symm.filter _

end Group

end Groups
