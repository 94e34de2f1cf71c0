import MlxTrainPerf.Data.PackIndices
/-!
# What a packed row looks like

The layout said position by position: `owner` is the segment a position lies in
and `startOf` where a segment starts. `buildRow` writes exactly this layout
(`buildRow_eq`), without an index out of range, and everything else about a row
is read off the layout.
-/
open PyList

namespace MlxTrainPerf.Packing

/-! ## Segments -/

/-- Slots an entry takes in the row: its tokens and its own pad slot. -/
def slots (e : Entry) : ℕ := e.tokens.length + 1

/-- Where segment `s` starts. -/
def startOf (entries : List Entry) (s : ℕ) : ℕ := ((entries.take s).map slots).sum

/-- Slots all entries take together. -/
def used (entries : List Entry) : ℕ := (entries.map slots).sum

/-- The segment position `p` lies in; past the last entry, the tail segment. -/
def owner : List Entry → ℕ → ℕ
  | [], _ => 0
  | e :: entries, p => if p < slots e then 0 else owner entries (p - slots e) + 1

/-- The entry of segment `s`; the tail segment has no tokens. -/
def entryAt (entries : List Entry) (s : ℕ) : Entry := entries.getD s ⟨[], 0⟩

section Segments
variable {entries : List Entry} {e : Entry} {s t p : ℕ}

@[simp] theorem startOf_zero : startOf entries 0 = 0 := by simp [startOf]

@[simp] theorem startOf_length : startOf entries entries.length = used entries := by simp [startOf, used]

theorem startOf_cons_succ : startOf (e :: entries) (s + 1) = slots e + startOf entries s := by simp [startOf]

theorem startOf_succ (h : s < entries.length) :
    startOf entries (s + 1) = startOf entries s + ((entryAt entries s).tokens.length + 1) := by
  unfold startOf entryAt
  rw [List.take_succ_eq_append_getElem h, List.map_append, List.sum_append, List.getD_eq_getElem _ _ h]
  simp [slots]

theorem startOf_mono (entries : List Entry) {s t : ℕ} (h : s ≤ t) : startOf entries s ≤ startOf entries t := by
  have hsub : ((entries.take s).map slots).Sublist ((entries.take t).map slots) :=
    (List.take_sublist_take_left h).map _
  exact hsub.sum_le_sum fun _ _ => Nat.zero_le _

theorem startOf_lt (h : s < t) (ht : t ≤ entries.length) : startOf entries s < startOf entries t := by
  have hsucc := startOf_succ (show s < entries.length by omega)
  have := startOf_mono entries (show s + 1 ≤ t by omega)
  omega

theorem startOf_le_used (h : s ≤ entries.length) : startOf entries s ≤ used entries :=
  by
  rw [← startOf_length]
  exact startOf_mono entries h

theorem owner_le : owner entries p ≤ entries.length := by
  induction entries generalizing p with
  | nil => exact Nat.le_refl 0
  | cons e entries ih =>
    rw [owner]
    split
    · exact Nat.zero_le _
    · exact Nat.succ_le_succ ih

theorem startOf_owner_le (entries : List Entry) (p : ℕ) : startOf entries (owner entries p) ≤ p := by
  induction entries generalizing p with
  | nil => simp [startOf]
  | cons e entries ih =>
    rw [owner]
    split
    · simp
    · have := ih (p - slots e)
      rw [startOf_cons_succ]
      omega

theorem lt_startOf_owner (h : owner entries p < entries.length) : p < startOf entries (owner entries p + 1) := by
  induction entries generalizing p with
  | nil => cases h
  | cons e entries ih =>
    rw [owner] at h ⊢
    split at h
    · next hp =>
      rw [if_pos hp, startOf_cons_succ]
      omega
    · next hp =>
      have hrest : p - slots e < startOf entries (owner entries (p - slots e) + 1) := ih (by simpa using h)
      rw [if_neg hp, startOf_cons_succ]
      omega

/-- A position lies in segment `s` exactly between its start and the next. -/
theorem owner_eq_iff (h : s < entries.length) :
    owner entries p = s ↔ startOf entries s ≤ p ∧ p < startOf entries (s + 1) := by
  constructor
  · rintro rfl
    exact ⟨startOf_owner_le entries p, lt_startOf_owner h⟩
  · rintro ⟨h1, h2⟩
    rcases lt_trichotomy (owner entries p) s with hlt | heq | hgt
    · have := lt_startOf_owner (hlt.trans h)
      have := startOf_mono entries (show owner entries p + 1 ≤ s from hlt)
      omega
    · exact heq
    · have := startOf_owner_le entries p
      have := startOf_mono entries (show s + 1 ≤ owner entries p from hgt)
      omega

theorem owner_eq_length_iff : owner entries p = entries.length ↔ used entries ≤ p := by
  constructor
  · intro h
    rw [← startOf_length, ← h]
    exact startOf_owner_le entries p
  · intro h
    refine le_antisymm owner_le (Nat.le_of_not_lt fun hlt => ?_)
    have := lt_startOf_owner hlt
    have : startOf entries (owner entries p + 1) ≤ used entries := startOf_le_used hlt
    omega

theorem owner_startOf (h : s < entries.length) : owner entries (startOf entries s) = s :=
  (owner_eq_iff h).2 ⟨le_refl _, startOf_lt (Nat.lt_succ_self s) h⟩

theorem owner_mono {q : ℕ} (h : p ≤ q) : owner entries p ≤ owner entries q := by
  by_contra hlt
  have : q < startOf entries (owner entries q + 1) := lt_startOf_owner ((not_le.1 hlt).trans_le owner_le)
  have := startOf_owner_le entries p
  have := startOf_mono entries (show owner entries q + 1 ≤ owner entries p from not_le.1 hlt)
  omega

end Segments

/-! ## The layout -/

/-- The token at row position `p`; pad slots hold 0. -/
def tokenAt (entries : List Entry) (p : ℕ) : ℤ :=
  (entryAt entries (owner entries p)).tokens.getD (p - startOf entries (owner entries p)) 0

/-- Is step `k` of an entry supervised? -/
def supervised (e : Entry) (k : ℕ) : Bool := decide (max e.offset 1 ≤ k + 1 ∧ k + 1 ≤ e.tokens.length)

/-- Is input position `p` supervised? -/
def supervisedAt (entries : List Entry) (p : ℕ) : Bool :=
  supervised (entryAt entries (owner entries p)) (p - startOf entries (owner entries p))

/-- The row `build_row` lays out. -/
def layout (entries : List Entry) (packLen : ℕ) : Row where
  row := (List.range (packLen + 1)).map (tokenAt entries)
  segId := (List.range packLen).map fun p => (owner entries p : ℤ)
  segStart := (List.range packLen).map fun p => (startOf entries (owner entries p) : ℤ)
  lossMask := (List.range packLen).map (supervisedAt entries)

/-- The lists after the first `s` entries: laid out up to the cursor, blank after. -/
def partialLayout (entries : List Entry) (packLen s : ℕ) : Row where
  row := (List.range (packLen + 1)).map fun p => if p < startOf entries s then tokenAt entries p else 0
  segId := (List.range packLen).map fun p => if p < startOf entries s then (owner entries p : ℤ) else 0
  segStart := (List.range packLen).map fun p =>
    if p < startOf entries s then (startOf entries (owner entries p) : ℤ) else 0
  lossMask := (List.range packLen).map fun p => if p < startOf entries s then supervisedAt entries p else false

section Loop
variable {entries : List Entry} {packLen s : ℕ}

theorem blankRow_eq : blankRow packLen = partialLayout entries packLen 0 := by
  simp [blankRow, partialLayout]

/-- The tokens of entry `s` fill its segment but for the pad slot, which stays 0. -/
theorem setSlice_row (hfit : used entries ≤ packLen + 1) (hs : s < entries.length) :
    setSlice (partialLayout entries packLen s).row (startOf entries s)
      (startOf entries s + (entryAt entries s).tokens.length) (entryAt entries s).tokens =
        (partialLayout entries packLen (s + 1)).row := by
  have hnext := startOf_succ hs
  have hle : startOf entries (s + 1) ≤ packLen + 1 := (startOf_le_used hs).trans hfit
  unfold partialLayout
  rw [setSlice_range_map (by omega) _ 0]
  apply List.map_congr_left
  intro p _
  by_cases hp : startOf entries s ≤ p ∧ p < startOf entries (s + 1)
  · rw [if_neg (show ¬p < startOf entries s by omega), if_pos hp.2, tokenAt, (owner_eq_iff hs).2 hp]
    split
    · rfl
    · rw [List.getD_eq_default _ _ (by omega)]
  · rw [if_neg (by omega)]
    exact if_congr (by omega) rfl rfl

/-- The slots of segment `s` get one value; the last slot of a full row is clipped off. -/
theorem fill_segment (hfit : used entries ≤ packLen + 1) (hs : s < entries.length) (f : ℕ → ℤ) (x : ℤ)
    (hf : ∀ p, owner entries p = s → f p = x) :
    fill ((List.range packLen).map fun p => if p < startOf entries s then f p else 0) (startOf entries s)
      (min ((startOf entries s + (entryAt entries s).tokens.length : ℕ) : ℤ) (packLen - 1) + 1) x =
        .ok ((List.range packLen).map fun p => if p < startOf entries (s + 1) then f p else 0) := by
  have hnext := startOf_succ hs
  have hle : startOf entries (s + 1) ≤ packLen + 1 := (startOf_le_used hs).trans hfit
  rw [fill_range_map (by omega) (by omega)]
  refine congrArg _ (List.map_congr_left fun p hp => ?_)
  have hp := List.mem_range.1 hp
  split
  · rw [if_pos (by omega), hf p ((owner_eq_iff hs).2 (by omega))]
  · exact if_congr (by omega) rfl rfl

/-- The supervised slots of segment `s` are marked. -/
theorem fill_lossMask (hfit : used entries ≤ packLen + 1) (hs : s < entries.length) :
    fill (partialLayout entries packLen s).lossMask
      (startOf entries s + max (entryAt entries s).offset 1 - 1)
      ((startOf entries s + (entryAt entries s).tokens.length : ℤ) - 1 + 1) true =
        .ok (partialLayout entries packLen (s + 1)).lossMask := by
  have hnext := startOf_succ hs
  have hle : startOf entries (s + 1) ≤ packLen + 1 := (startOf_le_used hs).trans hfit
  unfold partialLayout
  rw [fill_range_map (by omega) (by omega)]
  refine congrArg _ (List.map_congr_left fun p hp => ?_)
  by_cases hp : startOf entries s ≤ p ∧ p < startOf entries (s + 1)
  · rw [if_neg (show ¬p < startOf entries s by omega), if_pos hp.2, supervisedAt, (owner_eq_iff hs).2 hp, supervised]
    split
    · rw [decide_eq_true (by omega)]
    · rw [decide_eq_false (by omega)]
  · rw [if_neg (by omega)]
    exact if_congr (by omega) rfl rfl

/-- One turn lays out one more segment. -/
theorem rowStep_eq (hfit : used entries ≤ packLen + 1) (hs : s < entries.length) :
    rowStep packLen ⟨partialLayout entries packLen s, s, startOf entries s⟩ (entryAt entries s) =
      .ok ⟨partialLayout entries packLen (s + 1), s + 1, startOf entries (s + 1)⟩ := by
  have hid := fill_segment hfit hs (fun p => (owner entries p : ℤ)) s fun p hp => by rw [hp]
  have hstart := fill_segment hfit hs (fun p => (startOf entries (owner entries p) : ℤ)) (startOf entries s)
    fun p hp => by rw [hp]
  unfold rowStep
  simp only [setSlice_row hfit hs, fill_lossMask hfit hs]
  simp only [partialLayout] at hid hstart ⊢
  rw [hid, hstart]
  simp only [bind, Except.bind, pure, Except.pure, startOf_succ hs]
  rfl

/-- The loop over the entries from `s` on. -/
theorem foldlM_rowStep (hfit : used entries ≤ packLen + 1) :
    ∀ k s, s + k = entries.length →
      (entries.drop s).foldlM (rowStep packLen) ⟨partialLayout entries packLen s, s, startOf entries s⟩ =
        .ok ⟨partialLayout entries packLen entries.length, entries.length, used entries⟩ := by
  intro k
  induction k with
  | zero =>
    intro s hs
    obtain rfl : s = entries.length := by omega
    rw [List.drop_length, startOf_length]
    rfl
  | succ k ih =>
    intro s hs
    have hlt : s < entries.length := by omega
    have hstep := rowStep_eq hfit hlt
    rw [entryAt, List.getD_eq_getElem _ _ hlt] at hstep
    rw [List.drop_eq_getElem_cons hlt, List.foldlM_cons, hstep]
    exact ih (s + 1) (by omega)

/-- Entries that fit are laid out without an index out of range. -/
theorem buildRow_eq (hfit : used entries ≤ packLen + 1) : buildRow entries packLen = .ok (layout entries packLen) := by
  have hloop := foldlM_rowStep hfit entries.length 0 (Nat.zero_add _)
  rw [List.drop_zero, startOf_zero, ← blankRow_eq] at hloop
  have htail : ∀ (f : ℕ → ℤ) (x : ℤ), (∀ p, owner entries p = entries.length → f p = x) →
      fill ((List.range packLen).map fun p => if p < startOf entries entries.length then f p else 0) (used entries)
        packLen x = .ok ((List.range packLen).map f) := by
    intro f x hf
    rw [fill_range_map (by omega) (le_refl _), startOf_length]
    refine congrArg _ (List.map_congr_left fun p hp => ?_)
    have hp := List.mem_range.1 hp
    split
    · exact (hf p (owner_eq_length_iff.2 (by omega))).symm
    · rw [if_pos (by omega)]
  have hid := htail (fun p => (owner entries p : ℤ)) entries.length fun p hp => by rw [hp]
  have hstart := htail (fun p => (startOf entries (owner entries p) : ℤ)) (used entries) fun p hp => by
    rw [hp, startOf_length]
  unfold buildRow
  rw [hloop]
  simp only [bind, Except.bind, partialLayout]
  rw [hid, hstart]
  simp only [pure, Except.pure, layout, startOf_length]
  congr 2
  · apply List.map_congr_left
    intro p _
    split
    · rfl
    · rw [tokenAt, owner_eq_length_iff.2 (by omega)]
      simp [entryAt]
  · apply List.map_congr_left
    intro p _
    split
    · rfl
    · rw [supervisedAt, owner_eq_length_iff.2 (by omega)]
      simp [entryAt, supervised]

end Loop

end MlxTrainPerf.Packing
