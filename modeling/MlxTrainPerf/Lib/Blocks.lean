import Mathlib.Data.List.Basic
import Mathlib.Data.List.Infix
/-!
# Headed blocks without lengths

A stream puts blocks one after the other, each behind its head and with nothing between
them. The heads are known, the bodies are not. A stream can be cut up in one way only when
every head has one place in the two bodies around it (`weave_unique_iff`).
-/
namespace Blocks

variable {α : Type}

/-- The stream of heads and bodies. -/
def weave (blocks : List (List α × List α)) : List α := blocks.flatMap fun b => b.1 ++ b.2

@[simp] theorem weave_nil : weave ([] : List (List α × List α)) = [] := rfl

@[simp] theorem weave_cons (b : List α × List α) (blocks : List (List α × List α)) :
    weave (b :: blocks) = b.1 ++ b.2 ++ weave blocks := rfl

theorem weave_append (blocks blocks' : List (List α × List α)) :
    weave (blocks ++ blocks') = weave blocks ++ weave blocks' :=
  List.flatMap_append

/-- Between the two bodies, the second head is where it is and nowhere else. -/
def Framed (a b : List α × List α) : Prop := ∀ u v, a.2 ++ b.1 ++ b.2 = u ++ b.1 ++ v → u = a.2

/-- What a stream starts with, and has again behind `s`, starts `s` with itself behind. -/
theorem append_eq_of_shift {s n t t' : List α} (h : s ++ (n ++ t) = n ++ t') : ∃ v, s ++ n = n ++ v := by
  have hlong : s ++ n <+: n ++ t' := by
    rw [← h, ← List.append_assoc]
    exact List.prefix_append _ _
  have hprefix : n <+: s ++ n := List.prefix_of_prefix_length_le (List.prefix_append n t') hlong (by simp)
  obtain ⟨v, hv⟩ := hprefix
  exact ⟨v, hv.symm⟩

/-- So its own block cannot hold it further in. -/
theorem Framed.eq_nil {a b : List α × List α} {s v : List α} (h : Framed a b) (hs : b.1 ++ b.2 = s ++ b.1 ++ v) :
    s = [] := by
  have hu : a.2 ++ s = a.2 := by
    refine h (a.2 ++ s) v ?_
    rw [List.append_assoc, hs]
    simp only [List.append_assoc]
  exact List.append_right_eq_self.1 hu

/-- Two ways to cut the same stream, the second of them `s` later at the first head: that head
comes again within its own block, or a later head is not framed. -/
theorem late {b : List α × List α} {blocks blocks' : List (List α × List α)} {c' s : List α}
    (hheads : blocks'.map Prod.fst = blocks.map Prod.fst) (hs : s ≠ [])
    (h : weave (b :: blocks) = s ++ weave ((b.1, c') :: blocks')) :
    (∃ v, b.1 ++ b.2 = s ++ b.1 ++ v) ∨ ¬ (b :: blocks).IsChain Framed := by
  induction blocks generalizing b blocks' c' s with
  | nil =>
    obtain rfl : blocks' = [] := List.map_eq_nil_iff.1 hheads
    simp only [weave_cons, weave_nil, List.append_nil] at h
    exact .inl ⟨c', by rw [h, List.append_assoc]⟩
  | cons d blocks ih =>
    cases blocks' with
    | nil => cases hheads
    | cons d' blocks' =>
      obtain ⟨hd, hheads⟩ := List.cons.inj hheads
      have hcut : b.1 ++ b.2 ++ weave (d :: blocks) = s ++ (b.1 ++ c') ++ weave (d' :: blocks') :=
        h.trans (List.append_assoc _ _ _).symm
      rcases List.append_eq_append_iff.1 hcut with ⟨t, ht, hrest⟩ | ⟨t, ht, -⟩
      · by_cases hnil : t = []
        · rw [hnil, List.append_nil] at ht
          exact .inl ⟨c', by rw [← ht, List.append_assoc]⟩
        · -- the next head is late as well
          right
          rw [List.isChain_cons_cons]
          rintro ⟨hframed, hchain⟩
          have hrest' : weave (d :: blocks) = t ++ weave ((d.1, d'.2) :: blocks') := by rw [hrest, ← hd]
          rcases ih hheads hnil hrest' with ⟨v, hv⟩ | hno
          · exact hnil (hframed.eq_nil hv)
          · exact hno hchain
      · exact .inl ⟨c' ++ t, by rw [ht]; simp only [List.append_assoc]⟩

/-- Framed heads leave one way to cut the stream. -/
theorem eq_of_weave_eq {blocks blocks' : List (List α × List α)} (hchain : blocks.IsChain Framed)
    (hheads : blocks'.map Prod.fst = blocks.map Prod.fst) (h : weave blocks' = weave blocks) : blocks' = blocks := by
  induction blocks generalizing blocks' with
  | nil => exact List.map_eq_nil_iff.1 hheads
  | cons b blocks ih =>
    cases blocks' with
    | nil => cases hheads
    | cons b' blocks' =>
      obtain ⟨hb, hheads⟩ := List.cons.inj hheads
      rw [weave_cons, weave_cons, hb, List.append_assoc, List.append_assoc, List.append_cancel_left_eq] at h
      -- The first bodies end together, or the second block begins too early or too late.
      have hbodies : b'.2 = b.2 := by
        cases blocks with
        | nil =>
          obtain rfl : blocks' = [] := List.map_eq_nil_iff.1 hheads
          simpa using h
        | cons d blocks =>
          cases blocks' with
          | nil => cases hheads
          | cons d' blocks' =>
            obtain ⟨hd, hheads⟩ := List.cons.inj hheads
            obtain ⟨hframed, hchain⟩ := List.isChain_cons_cons.1 hchain
            rcases List.append_eq_append_iff.1 h with ⟨s, hs, hrest⟩ | ⟨s, hs, hrest⟩
            · rw [weave_cons, weave_cons, hd, List.append_assoc, List.append_assoc] at hrest
              obtain ⟨v, hv⟩ := append_eq_of_shift hrest.symm
              refine hframed b'.2 (v ++ d.2) ?_
              rw [hs, List.append_assoc b'.2, hv]
              simp only [List.append_assoc]
            · have hrest' : weave (d :: blocks) = s ++ weave ((d.1, d'.2) :: blocks') := by rw [hrest, ← hd]
              by_cases hnil : s = []
              · rw [hs, hnil, List.append_nil]
              · rcases late hheads hnil hrest' with ⟨v, hv⟩ | hno
                · exact absurd (hframed.eq_nil hv) hnil
                · exact absurd hchain hno
      rw [hbodies, List.append_cancel_left_eq] at h
      rw [ih hchain.of_cons hheads h, Prod.ext hb hbodies]

/-- A head with a second place can be taken there. -/
theorem exists_weave_eq {blocks : List (List α × List α)} (h : ¬ blocks.IsChain Framed) :
    ∃ blocks', blocks'.map Prod.fst = blocks.map Prod.fst ∧ blocks' ≠ blocks ∧ weave blocks' = weave blocks := by
  induction blocks with
  | nil => exact absurd .nil h
  | cons b blocks ih =>
    cases blocks with
    | nil => exact absurd (.singleton b) h
    | cons d blocks =>
      rw [List.isChain_cons_cons, not_and_or] at h
      rcases h with hframed | hchain
      · simp only [Framed, not_forall] at hframed
        obtain ⟨u, v, huv, hne⟩ := hframed
        refine ⟨(b.1, u) :: (d.1, v) :: blocks, rfl, fun heq => hne ?_, ?_⟩
        · exact congrArg Prod.snd (List.cons.inj heq).1
        · rw [List.append_assoc, List.append_assoc] at huv
          simp only [weave_cons, List.append_assoc]
          rw [← List.append_assoc d.1 v, ← List.append_assoc u, ← huv]
          simp only [List.append_assoc]
      · obtain ⟨blocks', hheads, hne, hweave⟩ := ih hchain
        refine ⟨b :: blocks', congrArg (b.1 :: ·) hheads, fun heq => hne (List.cons.inj heq).2, ?_⟩
        rw [weave_cons, hweave, ← weave_cons]

/-- Other bodies behind the same heads give another stream, whatever they are, exactly when
every head is framed. -/
theorem weave_unique_iff {blocks : List (List α × List α)} :
    (∀ blocks', blocks'.map Prod.fst = blocks.map Prod.fst → blocks' ≠ blocks → weave blocks' ≠ weave blocks) ↔
      blocks.IsChain Framed := by
  constructor
  · intro h
    by_contra hchain
    obtain ⟨blocks', hheads, hne, hweave⟩ := exists_weave_eq hchain
    exact h blocks' hheads hne hweave
  · exact fun hchain blocks' hheads hne hweave => hne (eq_of_weave_eq hchain hheads hweave)

/-- One other body always gives another stream. -/
theorem weave_ne_of_body {before after : List (List α × List α)} {n c c' : List α} (h : c' ≠ c) :
    weave (before ++ (n, c') :: after) ≠ weave (before ++ (n, c) :: after) := by
  simp [weave_append, h]

end Blocks
