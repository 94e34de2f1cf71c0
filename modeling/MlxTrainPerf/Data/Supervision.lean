import MlxTrainPerf.Data.PackedRow
/-!
# Packed and stock supervision

The stock path pads one sequence to mlx-lm's width and masks its targets by
`lengths`. The packed path marks the same steps, except that a sequence that
fills `max_seq_length` keeps its pad slot as one more target
(`supervisesSame_iff`).
-/
open PyList

namespace MlxTrainPerf.Packing

/-! ## The stock path -/

/-- mlx-lm pads a batch to `1 + 32 * ceil(widest / 32)`. -/
def stockPadTo : ℕ := 32

/-- The width of a stock batch. -/
def stockWidth (widest maxSeqLength : ℕ) : ℕ :=
  min (1 + stockPadTo * ((widest + stockPadTo - 1) / stockPadTo)) maxSeqLength

/-- The stock row of a sequence: its tokens up to `max_seq_length`, zeros after. -/
def stockRow (tokens : List ℤ) (maxSeqLength : ℕ) : List ℤ :=
  setSlice (List.replicate (stockWidth tokens.length maxSeqLength) 0) 0 (min tokens.length maxSeqLength)
    (tokens.take maxSeqLength)

/-- `lengths`, as `(offset, length)`. -/
def stockLengths (e : Entry) (maxSeqLength : ℕ) : ℤ × ℤ := (e.offset, min e.tokens.length maxSeqLength)

/-- `mask = (steps >= lengths[:, 0:1]) & (steps <= lengths[:, 1:])`, steps from 1. -/
def lossFnMask (targets : List ℤ) (lengths : ℤ × ℤ) : List Bool :=
  (List.range targets.length).map fun k : ℕ => decide (lengths.1 ≤ k + 1 ∧ (k + 1 : ℤ) ≤ lengths.2)

/-- The input positions `make_loss_fn` supervises, with their targets. -/
def stockSupervised (e : Entry) (maxSeqLength : ℕ) : List (ℕ × ℤ) :=
  let targets := (stockRow e.tokens maxSeqLength).tail
  let mask := lossFnMask targets (stockLengths e maxSeqLength)
  ((List.range targets.length).filter fun k => mask.getD k false).map fun k => (k, targets.getD k 0)

/-! ## The packed path -/

/-- The positions of segment `s` a row supervises, counted from the segment's
start, with their targets. -/
def packedSupervised (r : Row) (s : ℕ) : List (ℕ × ℤ) :=
  ((List.range r.lossMask.length).filter fun p =>
      decide (r.segId.getD p 0 = (s : ℤ)) && r.lossMask.getD p false).map fun p =>
    (p - (r.segStart.getD p 0).toNat, r.row.tail.getD p 0)

/-- Segment `s` of the packed row and the stock row of the same item supervise
the same targets. -/
def SupervisesSame (entries : List Entry) (maxSeqLength s : ℕ) : Prop :=
  ∃ r, buildRow (truncateItems entries maxSeqLength) maxSeqLength = .ok r ∧
    (packedSupervised r s).toFinset = (stockSupervised (entryAt entries s) maxSeqLength).toFinset

/-! ## What each supervises -/

/-- The target of step `k`: the sequence's own next token, or a 0 after its end. -/
def targetAt (tokens : List ℤ) (maxSeqLength k : ℕ) : ℤ := (tokens.take maxSeqLength).getD (k + 1) 0

section Pairs
variable {entries : List Entry} {e : Entry} {L s : ℕ} {x : ℕ × ℤ}

theorem min_le_stockWidth (n : ℕ) : min n L ≤ stockWidth n L := by
  unfold stockWidth stockPadTo
  omega

theorem stockRow_eq (tokens : List ℤ) :
    stockRow tokens L = (List.range (stockWidth tokens.length L)).map fun p => (tokens.take L).getD p 0 := by
  have hwidth := @min_le_stockWidth L tokens.length
  have hblank : List.replicate (stockWidth tokens.length L) (0 : ℤ) =
      (List.range (stockWidth tokens.length L)).map fun _ => 0 := by simp
  have hfits : 0 + (tokens.take L).length ≤ stockWidth tokens.length L := by
    rw [Nat.zero_add, List.length_take, Nat.min_comm]
    exact hwidth
  have hset := setSlice_range_map hfits (fun _ => 0) 0
  rw [Nat.zero_add, List.length_take, Nat.min_comm] at hset
  unfold stockRow
  rw [hblank, hset]
  apply List.map_congr_left
  intro p _
  split
  · rfl
  · rw [List.getD_eq_default _ _ (by simp; omega)]

/-- The stock path supervises the steps its row still has a target for. -/
theorem mem_stockSupervised : x ∈ stockSupervised e L ↔
    ∃ k, x = (k, targetAt e.tokens L k) ∧ max e.offset 1 ≤ k + 1 ∧ k + 1 ≤ min e.tokens.length L ∧
      k + 1 < stockWidth e.tokens.length L := by
  have htail : (stockRow e.tokens L).tail.length = stockWidth e.tokens.length L - 1 := by simp [stockRow_eq]
  have hget : ∀ k < stockWidth e.tokens.length L - 1,
      (stockRow e.tokens L).tail.getD k 0 = targetAt e.tokens L k := by
    intro k hk
    rw [List.getD_eq_getElem _ _ (by omega), List.getElem_tail]
    simp only [stockRow_eq, List.getElem_map, List.getElem_range, targetAt]
  simp only [stockSupervised, lossFnMask, List.mem_map, List.mem_filter, List.mem_range, htail,
    getD_range_map]
  constructor
  · rintro ⟨k, ⟨hk, hmask⟩, rfl⟩
    rw [if_pos hk] at hmask
    have hmask := of_decide_eq_true hmask
    simp only [stockLengths] at hmask
    exact ⟨k, by rw [hget k hk], by omega, by omega, by omega⟩
  · rintro ⟨k, rfl, h1, h2, h3⟩
    refine ⟨k, ⟨by omega, ?_⟩, by rw [hget k (by omega)]⟩
    rw [if_pos (by omega)]
    refine decide_eq_true ?_
    simp only [stockLengths]
    omega

/-- The packed path supervises every step of the truncated sequence. -/
theorem mem_packedSupervised (hfit : used entries ≤ L + 1) (hs : s < entries.length) :
    x ∈ packedSupervised (layout entries L) s ↔
      ∃ k, x = (k, (entryAt entries s).tokens.getD (k + 1) 0) ∧ max (entryAt entries s).offset 1 ≤ k + 1 ∧
        k + 1 ≤ (entryAt entries s).tokens.length := by
  have hnext := startOf_succ hs
  have hle : startOf entries (s + 1) ≤ used entries := startOf_le_used hs
  have htail : ∀ p < L, (layout entries L).row.tail.getD p 0 = tokenAt entries (p + 1) := by
    intro p hp
    rw [List.getD_eq_getElem _ _ (by simpa [layout] using hp), List.getElem_tail]
    simp only [layout, List.getElem_map, List.getElem_range]
  have hlen : (layout entries L).lossMask.length = L := by simp [layout]
  simp only [packedSupervised, List.mem_map, List.mem_filter, List.mem_range, hlen, Bool.and_eq_true,
    decide_eq_true_eq]
  constructor
  · rintro ⟨p, ⟨hp, hid, hmask⟩, rfl⟩
    obtain rfl : owner entries p = s := by
      simp only [layout, getD_range_map, if_pos hp] at hid
      exact_mod_cast hid
    have hstart := startOf_owner_le entries p
    obtain ⟨k, hk⟩ : ∃ k, p = startOf entries (owner entries p) + k := ⟨_, (Nat.add_sub_of_le hstart).symm⟩
    have hklt : k ≤ (entryAt entries (owner entries p)).tokens.length := by
      have := lt_startOf_owner hs
      omega
    have hsup := (layout_supervised_iff hfit hs hklt).1 (by rw [← hk]; exact hmask)
    refine ⟨k, ?_, hsup⟩
    rw [htail p hp, ← tokenAt_eq hs (by omega)]
    simp only [layout, getD_range_map, if_pos hp, Int.toNat_natCast]
    rw [show p - startOf entries (owner entries p) = k by omega,
      show startOf entries (owner entries p) + (k + 1) = p + 1 by omega]
  · rintro ⟨k, rfl, hsup⟩
    have hp : startOf entries s + k < L := by omega
    have hown : owner entries (startOf entries s + k) = s := (owner_eq_iff hs).2 (by omega)
    refine ⟨startOf entries s + k, ⟨hp, ?_, (layout_supervised_iff hfit hs (by omega)).2 hsup⟩, ?_⟩
    · simp only [layout, getD_range_map, if_pos hp, hown]
    · rw [htail _ hp, Nat.add_assoc, tokenAt_eq hs (by omega)]
      simp only [layout, getD_range_map, if_pos hp, hown, Int.toNat_natCast, Nat.add_sub_cancel_left]

end Pairs

/-! ## Where they agree -/

theorem entryAt_truncateItems (items : List Entry) (L s : ℕ) :
    entryAt (truncateItems items L) s =
      { tokens := (entryAt items s).tokens.take L, offset := (entryAt items s).offset } := by
  simp only [entryAt, truncateItems, List.getD_eq_getElem?_getD, List.getElem?_map]
  cases items[s]? <;> simp

theorem lt_stockWidth_iff {n L k : ℕ} (hk : k < min n L) : k + 1 < stockWidth n L ↔ k + 1 < L := by
  unfold stockWidth stockPadTo
  omega

/-- Segment `s` supervises what the stock row does when no supervised step is
the last one of a full row. -/
theorem supervisesSame_iff_steps {entries : List Entry} {L s : ℕ}
    (hfit : used (truncateItems entries L) ≤ L + 1) (hs : s < entries.length) :
    SupervisesSame entries L s ↔
      ∀ k : ℕ, max (entryAt entries s).offset 1 ≤ k + 1 → k < min (entryAt entries s).tokens.length L → k + 1 < L := by
  have hs' : s < (truncateItems entries L).length := by simpa [truncateItems] using hs
  have hpacked := fun x => @mem_packedSupervised _ _ _ x hfit hs'
  simp only [entryAt_truncateItems, List.length_take] at hpacked
  unfold SupervisesSame
  rw [buildRow_eq hfit]
  constructor
  · rintro ⟨r, hr, heq⟩ k hoff hk
    cases hr
    have hmem := (hpacked _).2 ⟨k, rfl, hoff, by omega⟩
    rw [← List.mem_toFinset, heq, List.mem_toFinset, mem_stockSupervised] at hmem
    obtain ⟨k', hkk, -, -, hlt⟩ := hmem
    obtain rfl : k = k' := congrArg Prod.fst hkk
    exact (lt_stockWidth_iff hk).1 hlt
  · intro h
    refine ⟨_, rfl, Finset.ext fun x => ?_⟩
    rw [List.mem_toFinset, List.mem_toFinset, hpacked, mem_stockSupervised]
    refine exists_congr fun k => and_congr_right fun _ => and_congr_right fun hoff => ?_
    constructor
    · intro hk
      exact ⟨by omega, (lt_stockWidth_iff (by omega)).2 (h k hoff (by omega))⟩
    · rintro ⟨hk, -⟩
      omega

/-- Both paths supervise the same targets exactly when the sequence leaves its
pad slot inside the stock row, or its prompt leaves nothing to supervise. -/
theorem supervisesSame_iff (entries : List Entry) (L s : ℕ) (hL : 1 ≤ L)
    (hfit : used (truncateItems entries L) ≤ L + 1) (hs : s < entries.length) :
    SupervisesSame entries L s ↔
      (entryAt entries s).tokens.length < L ∨ (L : ℤ) < (entryAt entries s).offset := by
  rw [supervisesSame_iff_steps hfit hs]
  constructor
  · intro h
    by_contra hfull
    have := h (L - 1) (by omega) (by omega)
    omega
  · intro h k hoff hk
    omega

theorem supervisesSame_iff_short : SupervisesSame [⟨[5, 6], 1⟩, ⟨[7], 0⟩] 4 1 := by
  rw [supervisesSame_iff [⟨[5, 6], 1⟩, ⟨[7], 0⟩] 4 1 (by decide) (by decide) (by decide)]
  exact Or.inl (by decide)

/-- A sequence of one token at `max_seq_length` 1 is supervised by its pad slot
when packed, and not at all in its stock row. -/
theorem not_supervisesSame_full : ¬SupervisesSame [⟨[5], 0⟩] 1 0 := by
  rintro ⟨r, hr, heq⟩
  cases hr
  revert heq
  decide

end MlxTrainPerf.Packing
