import Mathlib
/-!
# Python strings and their JSON escapes

A Python string is a list of code points, lone surrogates included. `json.dumps`
escapes what is not ASCII as UTF-16 units, and `json.loads` reads a high unit and a
low one next to each other as one character. So a string comes back unless it holds
such a pair as two code points (`unescape_escape`, `merge_eq_iff`).
-/
namespace PyStr

abbrev CodePoint : Type := Fin 0x110000

end PyStr

/-- A Python string. -/
abbrev PyStr : Type := List PyStr.CodePoint

namespace PyStr

-- Named, since literals and membership tests of every later module use them.
instance codePoint_neZero : NeZero 0x110000 := ⟨by decide⟩

instance pyStr_lawfulBEq : LawfulBEq PyStr := inferInstance

/-- A literal. -/
def lit (s : String) : PyStr := s.toList.map fun c => Fin.ofNat _ c.toNat

/-- A UTF-16 unit, as `\uXXXX`. -/
abbrev Unit16 : Type := Fin 0x10000

instance unit16_neZero : NeZero 0x10000 := ⟨by decide⟩

def isHigh (n : ℕ) : Bool := decide (0xD800 ≤ n ∧ n < 0xDC00)

def isLow (n : ℕ) : Bool := decide (0xDC00 ≤ n ∧ n < 0xE000)

/-- The character of a surrogate pair. -/
def combine (h l : ℕ) : CodePoint := Fin.ofNat _ (0x10000 + (h - 0xD800) * 0x400 + (l - 0xDC00))

def escapeChar (c : CodePoint) : List Unit16 :=
  if c.val < 0x10000 then [Fin.ofNat _ c.val]
  else [Fin.ofNat _ (0xD800 + (c.val - 0x10000) / 0x400), Fin.ofNat _ (0xDC00 + (c.val - 0x10000) % 0x400)]

/-- The units of a string. -/
def escape (s : PyStr) : List Unit16 := s.flatMap escapeChar

/-- What `json.loads` reads from units. -/
def unescape : List Unit16 → PyStr
  | h :: l :: rest =>
    if isHigh h && isLow l then combine h l :: unescape rest else Fin.ofNat _ h.val :: unescape (l :: rest)
  | [u] => [Fin.ofNat _ u.val]
  | [] => []

/-- Every high surrogate joined with a low one that follows it. -/
def merge : PyStr → PyStr
  | h :: l :: rest =>
    if isHigh h && isLow l then combine h l :: merge rest else h :: merge (l :: rest)
  | [c] => [c]
  | [] => []

/-- No high surrogate is followed by a low one. -/
def whole : PyStr → Bool
  | h :: l :: rest => !(isHigh h && isLow l) && whole (l :: rest)
  | _ => true

/-! ## One hop -/

section Hop
variable {h l : ℕ} {c : CodePoint} {s : PyStr}

theorem combine_val (hh : isHigh h = true) (hl : isLow l = true) :
    (combine h l).val = 0x10000 + (h - 0xD800) * 0x400 + (l - 0xDC00) := by
  simp only [isHigh, isLow, decide_eq_true_eq] at hh hl
  exact Nat.mod_eq_of_lt (by omega)

theorem isLow_combine (hh : isHigh h = true) (hl : isLow l = true) : isLow (combine h l) = false := by
  rw [combine_val hh hl]
  simp only [isLow, decide_eq_false_iff_not]
  omega

theorem isHigh_combine (hh : isHigh h = true) (hl : isLow l = true) : isHigh (combine h l) = false := by
  rw [combine_val hh hl]
  simp only [isHigh, decide_eq_false_iff_not]
  omega

theorem lt_of_isHigh (hc : isHigh c = true) : c.val < 0x10000 := by
  simp only [isHigh, decide_eq_true_eq] at hc
  omega

theorem lt_of_isLow (hc : isLow c = true) : c.val < 0x10000 := by
  simp only [isLow, decide_eq_true_eq] at hc
  omega

theorem escapeChar_bmp (hc : c.val < 0x10000) : escapeChar c = [⟨c.val, hc⟩] := by
  rw [escapeChar, if_pos hc]
  exact congrArg (fun u => [u]) (Fin.ext (Nat.mod_eq_of_lt hc))

/-- The first unit is low when the code point is. -/
theorem escapeChar_eq_cons (c : CodePoint) : ∃ u us, escapeChar c = u :: us ∧ isLow u = isLow c := by
  have hlt := c.isLt
  by_cases hbmp : c.val < 0x10000
  · exact ⟨_, [], escapeChar_bmp hbmp, rfl⟩
  · refine ⟨_, _, by rw [escapeChar, if_neg hbmp], ?_⟩
    have hunit : 0xD800 + (c.val - 0x10000) / 0x400 < 0x10000 := by omega
    rw [Fin.val_ofNat, Nat.mod_eq_of_lt hunit]
    simp only [isLow, decide_eq_decide]
    omega

theorem unescape_cons {u : Unit16} (hu : isHigh u = false) (us : List Unit16) :
    unescape (u :: us) = Fin.ofNat _ u.val :: unescape us := by
  cases us with
  | nil => rfl
  | cons v us => simp [unescape, hu]

/-- What is not a high surrogate comes back as itself. -/
theorem unescape_escapeChar (hc : isHigh c = false) (us : List Unit16) :
    unescape (escapeChar c ++ us) = c :: unescape us := by
  have hlt := c.isLt
  by_cases hbmp : c.val < 0x10000
  · rw [escapeChar_bmp hbmp, List.singleton_append, unescape_cons hc]
    exact congrArg (fun d => d :: unescape us) (Fin.ext (Nat.mod_eq_of_lt hlt))
  · have hhi : (0xD800 + (c.val - 0x10000) / 0x400) % 0x10000 = 0xD800 + (c.val - 0x10000) / 0x400 := Nat.mod_eq_of_lt (by omega)
    have hlo : (0xDC00 + (c.val - 0x10000) % 0x400) % 0x10000 = 0xDC00 + (c.val - 0x10000) % 0x400 := Nat.mod_eq_of_lt (by omega)
    have hhigh : isHigh (0xD800 + (c.val - 0x10000) / 0x400) = true := by
      simp only [isHigh, decide_eq_true_eq]
      omega
    have hlow : isLow (0xDC00 + (c.val - 0x10000) % 0x400) = true := by
      simp only [isLow, decide_eq_true_eq]
      omega
    have hback : combine (0xD800 + (c.val - 0x10000) / 0x400) (0xDC00 + (c.val - 0x10000) % 0x400) = c := by
      refine Fin.ext ?_
      rw [combine_val hhigh hlow]
      omega
    simp only [escapeChar, if_neg hbmp, List.cons_append, List.nil_append, unescape, Fin.val_ofNat, hhi, hlo, hhigh, hlow,
      Bool.and_self, if_true, hback]

/-- Through the escapes a string loses its split pairs. -/
theorem unescape_escape (s : PyStr) : unescape (escape s) = merge s := by
  unfold escape
  fun_induction merge s with
  | case1 h l rest hpair ih =>
    obtain ⟨hh, hl⟩ := Bool.and_eq_true_iff.1 hpair
    simp only [List.flatMap_cons, escapeChar_bmp (lt_of_isHigh hh), escapeChar_bmp (lt_of_isLow hl), List.singleton_append]
    simp only [unescape, hpair, if_true, ih]
  | case2 h l rest hpair ih =>
    by_cases hh : isHigh h = true
    · -- The unit after a high surrogate is not low, whatever the next character is.
      obtain ⟨u, us, hu, hlow⟩ := escapeChar_eq_cons l
      have hl : isLow l = false := by simpa [hh] using hpair
      simp only [List.flatMap_cons, hu, List.cons_append] at ih ⊢
      rw [escapeChar_bmp (lt_of_isHigh hh), List.singleton_append]
      simp only [unescape, hlow, hl, Bool.and_false, Bool.false_eq_true, if_false, ih]
      exact congrArg (fun d => d :: merge (l :: rest)) (Fin.ext (Nat.mod_eq_of_lt h.isLt))
    · rw [List.flatMap_cons, unescape_escapeChar (Bool.eq_false_iff.2 hh), ih]
  | case3 c =>
    by_cases hh : isHigh c = true
    · simp only [List.flatMap_cons, List.flatMap_nil, escapeChar_bmp (lt_of_isHigh hh), List.append_nil, unescape]
      exact congrArg (fun d => [d]) (Fin.ext (Nat.mod_eq_of_lt c.isLt))
    · rw [List.flatMap_cons, List.flatMap_nil, unescape_escapeChar (Bool.eq_false_iff.2 hh)]
      rfl
  | case4 => rfl

/-! ## Whole strings -/

theorem length_merge_le (s : PyStr) : (merge s).length ≤ s.length := by
  fun_induction merge s with
  | case1 h l rest hpair ih =>
    simp only [List.length_cons]
    omega
  | case2 h l rest hpair ih =>
    simp only [List.length_cons] at ih ⊢
    omega
  | case3 => exact le_rfl
  | case4 => exact le_rfl

/-- A string survives exactly when it has no split pair. -/
theorem merge_eq_iff (s : PyStr) : merge s = s ↔ whole s = true := by
  fun_induction merge s with
  | case1 h l rest hpair ih =>
    have hne : combine h l :: merge rest ≠ h :: l :: rest := fun heq => by
      have hlen := length_merge_le rest
      have hcount := congrArg List.length heq
      simp only [List.length_cons] at hcount
      omega
    exact iff_of_false hne (by simp [whole, hpair])
  | case2 h l rest hpair ih =>
    simp only [List.cons.injEq, true_and, ih, whole, Bool.and_eq_true, Bool.not_eq_true', Bool.eq_false_iff.2 hpair]
  | case3 => simp [whole]
  | case4 => simp [whole]

theorem whole_cons (h : isHigh c = false ∨ ∀ d ∈ s.head?, isLow d = false) (hs : whole s = true) : whole (c :: s) = true := by
  cases s with
  | nil => rfl
  | cons d s =>
    rcases h with h | h
    · simp [whole, h, hs]
    · simp [whole, h d rfl, hs]

theorem isLow_head_merge {l : CodePoint} (hl : isLow l = false) (s : PyStr) :
    ∀ d ∈ (merge (l :: s)).head?, isLow d = false := by
  cases s with
  | nil => simpa [merge] using hl
  | cons r s =>
    by_cases hpair : (isHigh l && isLow r) = true
    · obtain ⟨hh, hr⟩ := Bool.and_eq_true_iff.1 hpair
      simp [merge, hh, hr, isLow_combine hh hr]
    · simp [merge, hpair, hl]

/-- Merging leaves nothing to merge. -/
theorem whole_merge (s : PyStr) : whole (merge s) = true := by
  fun_induction merge s with
  | case1 h l rest hpair ih =>
    obtain ⟨hh, hl⟩ := Bool.and_eq_true_iff.1 hpair
    exact whole_cons (.inl (isHigh_combine hh hl)) ih
  | case2 h l rest hpair ih =>
    by_cases hh : isHigh h = true
    · have hl : isLow l = false := by simpa [hh] using hpair
      exact whole_cons (.inr (isLow_head_merge hl rest)) ih
    · exact whole_cons (.inl (Bool.eq_false_iff.2 hh)) ih
  | case3 => rfl
  | case4 => rfl

theorem merge_merge (s : PyStr) : merge (merge s) = merge s := (merge_eq_iff _).2 (whole_merge s)

/-! ## Plain strings -/

/-- No surrogate, and nothing that needs one. -/
def plain (s : PyStr) : Bool := s.all fun c => decide (c.val < 0xD800)

theorem merge_of_plain (h : plain s = true) : merge s = s := by
  refine (merge_eq_iff s).2 ?_
  induction s with
  | nil => rfl
  | cons c s ih =>
    simp only [plain, List.all_cons, Bool.and_eq_true, decide_eq_true_eq] at h
    have hc : isHigh c = false := by
      simp only [isHigh, decide_eq_false_iff_not]
      omega
    exact whole_cons (.inl hc) (ih h.2)

/-- Merging makes no plain string out of another one. -/
theorem merge_eq_self_of_plain (h : plain (merge s) = true) : merge s = s := by
  fun_induction merge s with
  | case1 h' l rest hpair ih =>
    obtain ⟨hh, hl⟩ := Bool.and_eq_true_iff.1 hpair
    simp only [plain, List.all_cons, Bool.and_eq_true, decide_eq_true_eq, combine_val hh hl] at h
    omega
  | case2 c d rest hpair ih =>
    simp only [plain, List.all_cons, Bool.and_eq_true] at h
    rw [ih h.2]
  | case3 => rfl
  | case4 => rfl

end Hop
end PyStr
