import MlxTrainPerf.Lib.JsonText
/-!
# Markdown tables

The lines of a text, the cells of a table line, and what a text must be free of to stand
in a cell: line ends, and bars with no backslash before them (`cells_tableLine_iff`,
`lines_join`).
-/
open PyStr PyJson

namespace Markdown

/-! ## Lines and cells -/

/-- The lines of a text; `\n`, `\r` and `\r\n` end one. -/
def lines (text : PyStr) : List PyStr := (universalNewlines text).splitOn 10

/-- `"\n".join(ls)`. -/
def join (ls : List PyStr) : PyStr := List.intercalate [10] ls

/-- The pieces between the bars, but for bars after a backslash. -/
def splitBars (escaped : Bool) : PyStr → List PyStr
  | [] => [[]]
  | c :: rest =>
    if c = 124 ∧ escaped = false then [] :: splitBars false rest
    else (splitBars (c == 92) rest).modifyHead (c :: ·)

/-- The cells of a table line: what is before the first bar and after the last one is none. -/
def cells (line : PyStr) : List PyStr := (splitBars false line).tail.dropLast

/-- `"| " + " | ".join(cs) + " |"`. -/
def tableLine (cs : List PyStr) : PyStr := lit "| " ++ List.intercalate (lit " | ") cs ++ lit " |"

/-- Is there a bar with no backslash before it? -/
def hasBar (escaped : Bool) : PyStr → Bool
  | [] => false
  | c :: rest => (c == 124 && !escaped) || hasBar (c == 92) rest

/-- No line end. -/
def oneLine (s : PyStr) : Bool := s.all fun c => c != 10 && c != 13

/-! ## Bars -/

section Bars
variable {escaped : Bool} {s t : PyStr} {c : CodePoint} {cs : List PyStr}

theorem splitBars_ne_nil (escaped : Bool) (s : PyStr) : splitBars escaped s ≠ [] := by
  cases s with
  | nil => simp [splitBars]
  | cons c rest =>
    rw [splitBars]
    split
    · simp
    · simp [splitBars_ne_nil _ rest]

theorem length_splitBars_pos (escaped : Bool) (s : PyStr) : 1 ≤ (splitBars escaped s).length :=
  List.length_pos_iff.2 (splitBars_ne_nil escaped s)

/-- One piece is left exactly when there is no bar to split at. -/
theorem length_splitBars_eq_one : (splitBars escaped s).length = 1 ↔ hasBar escaped s = false := by
  induction s generalizing escaped with
  | nil => simp [splitBars, hasBar]
  | cons c rest ih =>
    rw [splitBars, hasBar]
    split
    · next hbar =>
      obtain ⟨rfl, rfl⟩ := hbar
      have hpos := length_splitBars_pos false rest
      simp only [List.length_cons, beq_self_eq_true, Bool.not_false, Bool.and_self, Bool.true_or, Bool.true_eq_false,
        iff_false]
      omega
    · next hbar =>
      have hno : (c == 124 && !escaped) = false := by
        rw [Bool.eq_false_iff]
        simpa using hbar
      rw [List.length_modifyHead, hno, Bool.false_or]
      exact ih

/-- A bar after a space ends the piece. -/
theorem splitBars_space_bar (escaped : Bool) (s t : PyStr) :
    splitBars escaped (s ++ 32 :: 124 :: t) = splitBars escaped (s ++ [32]) ++ splitBars false t := by
  induction s generalizing escaped with
  | nil => simp [splitBars]
  | cons c s ih =>
    simp only [List.cons_append, splitBars]
    split
    · rw [ih, List.cons_append]
    · rw [ih]
      cases hpieces : splitBars (c == 92) (s ++ [32]) with
      | nil => exact absurd hpieces (splitBars_ne_nil _ _)
      | cons p ps => rfl

theorem hasBar_append_space : hasBar escaped (s ++ [32]) = hasBar escaped s := by
  induction s generalizing escaped with
  | nil => simp [hasBar]
  | cons c s ih => rw [List.cons_append, hasBar, hasBar, ih]

theorem tableLine_eq (c : PyStr) (cs : List PyStr) :
    tableLine (c :: cs) = 124 :: (c :: cs).flatMap fun c => 32 :: c ++ [32, 124] := by
  have hjoin : ∀ (c : PyStr) (cs : List PyStr), lit " " ++ List.intercalate (lit " | ") (c :: cs) ++ lit " |" =
      (c :: cs).flatMap fun c => 32 :: c ++ [32, 124] := by
    intro c cs
    induction cs generalizing c with
    | nil => simp [lit]
    | cons d cs ih =>
      rw [List.flatMap_cons, ← ih d]
      simp [List.intercalate, List.intersperse, lit]
  exact congrArg (124 :: ·) (hjoin c cs)

theorem splitBars_flatMap (cs : List PyStr) : splitBars false (cs.flatMap fun c => 32 :: c ++ [32, 124]) =
    (cs.flatMap fun c => splitBars false (32 :: c ++ [32])) ++ [[]] := by
  induction cs with
  | nil => rfl
  | cons c cs ih =>
    have hbar := splitBars_space_bar false (32 :: c) (cs.flatMap fun c => 32 :: c ++ [32, 124])
    rw [List.flatMap_cons, List.flatMap_cons, List.append_assoc, List.append_assoc, ← ih]
    exact hbar

theorem cells_tableLine (c : PyStr) (cs : List PyStr) :
    cells (tableLine (c :: cs)) = (c :: cs).flatMap fun c => splitBars false (32 :: c ++ [32]) := by
  rw [cells, tableLine_eq, splitBars, if_pos ⟨rfl, rfl⟩, List.tail_cons, splitBars_flatMap, List.dropLast_concat]

/-- A line has as many cells as were put into it exactly when none of them holds a bar. -/
theorem length_cells_iff (hcs : cs ≠ []) : (cells (tableLine cs)).length = cs.length ↔ ∀ c ∈ cs, hasBar false c = false := by
  obtain ⟨d, ds, rfl⟩ := List.exists_cons_of_ne_nil hcs
  have hpad : ∀ c : PyStr, hasBar false (32 :: c ++ [32]) = hasBar false c := by
    intro c
    rw [List.cons_append, hasBar, hasBar_append_space]
    rfl
  have hcount : ∀ cs : List PyStr, ((cs.flatMap fun c => splitBars false (32 :: c ++ [32])).length = cs.length ↔
      ∀ c ∈ cs, hasBar false c = false) ∧ cs.length ≤ (cs.flatMap fun c => splitBars false (32 :: c ++ [32])).length := by
    intro cs
    induction cs with
    | nil => simp
    | cons c cs ih =>
      obtain ⟨hiff, hle⟩ := ih
      have hpos := length_splitBars_pos false (32 :: c ++ [32])
      have hone : (splitBars false (32 :: c ++ [32])).length = 1 ↔ hasBar false (32 :: c ++ [32]) = false :=
        length_splitBars_eq_one
      rw [hpad] at hone
      rw [List.flatMap_cons, List.length_append, List.length_cons, List.forall_mem_cons, ← hiff, ← hone]
      omega
  rw [cells_tableLine]
  exact (hcount (d :: ds)).1

end Bars

/-! ## Line ends -/

section Lines
variable {s l : PyStr} {ls : List PyStr}

theorem oneLine_iff : oneLine s = true ↔ 10 ∉ s ∧ 13 ∉ s := by
  simp only [oneLine, List.all_eq_true, Bool.and_eq_true, bne_iff_ne]
  constructor
  · exact fun h => ⟨fun hmem => (h 10 hmem).1 rfl, fun hmem => (h 13 hmem).2 rfl⟩
  · rintro ⟨h₁₀, h₁₃⟩ c hc
    exact ⟨fun h => h₁₀ (h ▸ hc), fun h => h₁₃ (h ▸ hc)⟩

theorem universalNewlines_cons {c : CodePoint} (h : c.val ≠ 13) (s : PyStr) :
    universalNewlines (c :: s) = c :: universalNewlines s := by
  rw [universalNewlines.eq_def]
  exact if_neg h

theorem not_mem_universalNewlines (s : PyStr) : 13 ∉ universalNewlines s := by
  fun_induction universalNewlines s with
  | case1 => simp
  | case2 c hc => simp
  | case3 c hc d rest hd ih => simpa using ih
  | case4 c hc d rest hd ih => simpa using ih
  | case5 c rest hc ih => exact List.not_mem_cons_of_ne_of_not_mem (fun h => hc (congrArg Fin.val h.symm)) ih

theorem universalNewlines_of_not_mem (h : 13 ∉ s) : universalNewlines s = s := by
  induction s with
  | nil => rfl
  | cons c s ih =>
    rw [List.mem_cons, not_or] at h
    obtain ⟨hc, hs⟩ := h
    rw [universalNewlines_cons fun hval => hc (Fin.ext hval).symm, ih hs]

theorem mem_splitOn {x : CodePoint} (h : l ∈ s.splitOn x) : x ∉ l ∧ l ⊆ s := by
  induction s generalizing l with
  | nil =>
    rw [List.splitOn_nil, List.mem_singleton] at h
    subst h
    simp
  | cons c s ih =>
    rw [List.splitOn_cons_eq_if_modifyHead] at h
    split at h
    · rcases List.mem_cons.1 h with rfl | h
      · simp
      · exact ⟨(ih h).1, List.subset_cons_of_subset c (ih h).2⟩
    · next hc =>
      cases hpieces : s.splitOn x with
      | nil => exact absurd hpieces (List.splitOn_ne_nil _ _)
      | cons p ps =>
        rw [hpieces] at h ih
        rcases List.mem_cons.1 h with rfl | h
        · obtain ⟨hx, hsub⟩ := ih List.mem_cons_self
          exact ⟨List.not_mem_cons_of_ne_of_not_mem (fun h => hc (by rw [h]; exact beq_self_eq_true _)) hx,
            List.cons_subset_cons c hsub⟩
        · obtain ⟨hx, hsub⟩ := ih (List.mem_cons_of_mem p h)
          exact ⟨hx, List.subset_cons_of_subset c hsub⟩

/-- No line of a text holds a line end. -/
theorem oneLine_of_mem_lines (h : l ∈ lines s) : oneLine l = true := by
  obtain ⟨h₁₀, hsub⟩ := mem_splitOn h
  exact oneLine_iff.2 ⟨h₁₀, fun hmem => not_mem_universalNewlines s (hsub hmem)⟩

theorem mem_join {c : CodePoint} (h : c ∈ join ls) : c = 10 ∨ ∃ l ∈ ls, c ∈ l := by
  induction ls with
  | nil => cases h
  | cons l ls ih =>
    cases ls with
    | nil =>
      rw [join, List.intercalate_singleton] at h
      exact .inr ⟨l, List.mem_cons_self, h⟩
    | cons l' ls =>
      rw [join, List.intercalate_cons_cons, List.append_assoc, List.mem_append, List.mem_append] at h
      rcases h with h | h | h
      · exact .inr ⟨l, List.mem_cons_self, h⟩
      · exact .inl (List.mem_singleton.1 h)
      · exact (ih h).imp_right fun ⟨k, hk, hc⟩ => ⟨k, List.mem_cons_of_mem l hk, hc⟩

/-- Lines that are joined are split again. -/
theorem lines_join (hne : ls ≠ []) (h : ∀ l ∈ ls, oneLine l = true) : lines (join ls) = ls := by
  have hreturn : 13 ∉ join ls := by
    intro hmem
    rcases mem_join hmem with hc | ⟨l, hl, hc⟩
    · exact absurd hc (by decide)
    · exact (oneLine_iff.1 (h l hl)).2 hc
  rw [lines, universalNewlines_of_not_mem hreturn]
  exact List.splitOn_intercalate 10 (fun l hl => (oneLine_iff.1 (h l hl)).1) hne

/-- A table line ends nowhere inside exactly when none of its cells does. -/
theorem oneLine_tableLine {cs : List PyStr} (hcs : cs ≠ []) :
    oneLine (tableLine cs) = true ↔ ∀ c ∈ cs, oneLine c = true := by
  obtain ⟨d, ds, rfl⟩ := List.exists_cons_of_ne_nil hcs
  have hpad : ∀ c : PyStr, oneLine (32 :: c ++ [32, 124]) = oneLine c := by
    intro c
    simp [oneLine]
  have hall : ∀ cs : List PyStr, oneLine (cs.flatMap fun c => 32 :: c ++ [32, 124]) = cs.all oneLine := by
    intro cs
    rw [oneLine, List.all_flatMap]
    exact List.all_congr rfl fun c => hpad c
  rw [tableLine_eq]
  change oneLine ((d :: ds).flatMap fun c => 32 :: c ++ [32, 124]) = true ↔ _
  rw [hall, List.all_eq_true]

end Lines

end Markdown
