import Mathlib
/-!
# Seeded segment layouts

`segment_lengths` and `segment_ids` of `scripts/bench_attention_marginal.py`. The generator
is whatever `randint` may return, and its ranges never come out empty: what a draw leaves
is nothing, or a segment at least (`segmentLoop_ok`).
-/
namespace MlxTrainPerf.Bench

/-! ## `segment_lengths` -/

/-- `SEG_MIN`. -/
def segMin : ℤ := 256

/-- `SEG_MAX`. -/
def segMax : ℤ := 2048

/-- The `ValueError`s of `segment_lengths`: its own, and the one of `randint`. -/
inductive LayoutError
  | value (msg : String)
  | emptyRange (a b : ℤ)
deriving DecidableEq, Repr

/-- `random.Random(seed)`: the `k`th draw from `[a, b]` lies there. -/
structure Rng where
  draw : ℕ → ℤ → ℤ → ℤ
  in_range : ∀ k a b, a ≤ b → a ≤ draw k a b ∧ draw k a b ≤ b

/-- `rng.randint(a, b)`, the `k`th call. -/
def Rng.randint (rng : Rng) (k : ℕ) (a b : ℤ) : Except LayoutError ℤ :=
  if a ≤ b then .ok (rng.draw k a b) else .error (.emptyRange a b)

/-- The loop, behind `k` segments. Without a positive `lo` it need not end, so it has fuel. -/
def segmentLoop (rng : Rng) (lo hi : ℤ) : ℕ → ℕ → ℤ → Option (Except LayoutError (List ℤ))
  | 0, _, _ => none
  | fuel + 1, k, remaining =>
    if remaining ≤ 0 then some (.ok [])
    else if remaining ≤ hi ∧ remaining < 2 * lo then some (.ok [remaining])
    else
      match rng.randint k lo (min hi (remaining - lo)) with
      | .error e => some (.error e)
      | .ok length => (segmentLoop rng lo hi fuel (k + 1) (remaining - length)).map fun r => r.map (length :: ·)

def segmentLengths (rng : Rng) (n lo hi : ℤ) (fuel : ℕ) : Option (Except LayoutError (List ℤ)) :=
  if hi < 2 * lo - 1 then some (.error (.value s!"need hi >= 2 * lo - 1 to fill any n >= lo; got lo={lo} hi={hi}"))
  else if n < lo then some (.error (.value s!"n={n} is below the shortest segment length {lo}"))
  else segmentLoop rng lo hi fuel 0 n

/-! ## `segment_ids` -/

/-- The loop from segment `sid` on, which starts at `start`. -/
def segmentIdsFrom : ℕ → ℤ → List ℤ → List ℕ × List ℤ
  | _, _, [] => ([], [])
  | sid, start, length :: lengths =>
    let rest := segmentIdsFrom (sid + 1) (start + length) lengths
    (List.replicate length.toNat sid ++ rest.1, List.replicate length.toNat start ++ rest.2)

def segmentIds (lengths : List ℤ) : List ℕ × List ℤ := segmentIdsFrom 0 0 lengths

/-! ## Every draw leaves a segment, or nothing -/

section Loop
variable {rng : Rng} {n lo hi remaining : ℤ} {fuel k : ℕ}

/-- What the loop asks for, and what is left: a range that is not empty, and behind any of
its draws another segment at least. -/
theorem randint_ok (hlo : 1 ≤ lo) (hhi : 2 * lo - 1 ≤ hi) (hsplit : ¬(remaining ≤ hi ∧ remaining < 2 * lo))
    (k : ℕ) : ∃ length, rng.randint k lo (min hi (remaining - lo)) = .ok length ∧ lo ≤ length ∧ length ≤ hi ∧
      lo ≤ remaining - length := by
  have hrange : lo ≤ min hi (remaining - lo) := by omega
  obtain ⟨hlow, hhigh⟩ := rng.in_range k lo _ hrange
  exact ⟨rng.draw k lo (min hi (remaining - lo)), if_pos hrange, hlow, by omega, by omega⟩

theorem segmentLoop_ok (hlo : 1 ≤ lo) (hhi : 2 * lo - 1 ≤ hi) (hrem : lo ≤ remaining) (k : ℕ) :
    ∃ lengths, (∀ fuel : ℕ, remaining < fuel → segmentLoop rng lo hi fuel k remaining = some (.ok lengths)) ∧
      (∀ l ∈ lengths, lo ≤ l ∧ l ≤ hi) ∧ lengths.sum = remaining := by
  induction hsize : remaining.toNat using Nat.strong_induction_on generalizing remaining k with
  | _ size ih =>
    by_cases hlast : remaining ≤ hi ∧ remaining < 2 * lo
    · refine ⟨[remaining], fun fuel hfuel => ?_, by simpa using ⟨hrem, hlast.1⟩, List.sum_singleton⟩
      cases fuel with
      | zero => omega
      | succ fuel => rw [segmentLoop, if_neg (by omega), if_pos hlast]
    · obtain ⟨length, hdraw, hlow, hhigh, hleft⟩ := @randint_ok rng lo hi remaining hlo hhi hlast k
      obtain ⟨lengths, hloop, hrange, hsum⟩ := ih (remaining - length).toNat (by omega) hleft (k + 1) rfl
      refine ⟨length :: lengths, fun fuel hfuel => ?_, ?_, ?_⟩
      · cases fuel with
        | zero => omega
        | succ fuel =>
          rw [segmentLoop, if_neg (by omega), if_neg hlast, hdraw]
          dsimp only
          rw [hloop fuel (by omega)]
          rfl
      · intro l hl
        rcases List.mem_cons.1 hl with rfl | hl
        · exact ⟨hlow, hhigh⟩
        · exact hrange l hl
      · rw [List.sum_cons, hsum]
        omega

end Loop

/-! ## Ids and starts -/

section Ids
variable {lengths : List ℤ}

/-- `ids` counts segments from `sid` on without a gap, each one in one piece, and `starts`
is where its segment begins, `start` being the first. -/
structure Labels (sid : ℕ) (start : ℤ) (ids : List ℕ) (starts : List ℤ) : Prop where
  sorted : ids.Pairwise (· ≤ ·)
  from_sid : ∀ s ∈ ids, sid ≤ s
  gapless : ∀ s ∈ ids, ∀ t, sid ≤ t → t ≤ s → t ∈ ids
  starts_eq : starts = ids.map fun s => start + (ids.idxOf s : ℤ)

theorem labels_nil (sid : ℕ) (start : ℤ) : Labels sid start [] [] :=
  ⟨.nil, nofun, nofun, rfl⟩

/-- A segment in front of the others. -/
theorem Labels.cons {sid m : ℕ} {start : ℤ} {ids : List ℕ} {starts : List ℤ} (hm : 0 < m)
    (h : Labels (sid + 1) (start + m) ids starts) :
    Labels sid start (List.replicate m sid ++ ids) (List.replicate m start ++ starts) where
  sorted := by
    refine List.pairwise_append.2 ⟨List.pairwise_replicate.2 (.inr le_rfl), h.sorted, fun a ha b hb => ?_⟩
    rw [List.eq_of_mem_replicate ha]
    exact Nat.le_of_succ_le (h.from_sid b hb)
  from_sid s hs := by
    rcases List.mem_append.1 hs with hs | hs
    · exact (List.eq_of_mem_replicate hs).ge
    · exact Nat.le_of_succ_le (h.from_sid s hs)
  gapless s hs t hle ht := by
    rcases Nat.eq_or_lt_of_le hle with rfl | hlt
    · exact List.mem_append_left _ (List.mem_replicate.2 ⟨hm.ne', rfl⟩)
    · rcases List.mem_append.1 hs with hs | hs
      · rw [List.eq_of_mem_replicate hs] at ht
        omega
      · exact List.mem_append_right _ (h.gapless s hs t hlt ht)
  starts_eq := by
    have hfirst : (List.replicate m sid ++ ids).idxOf sid = 0 := by
      obtain ⟨m, rfl⟩ := Nat.exists_eq_succ_of_ne_zero hm.ne'
      rw [List.replicate_succ, List.cons_append, List.idxOf_cons_self]
    have hrest : ∀ s ∈ ids, (List.replicate m sid ++ ids).idxOf s = m + ids.idxOf s := by
      intro s hs
      have hne : s ∉ List.replicate m sid := by
        intro hmem
        have := h.from_sid s hs
        rw [List.eq_of_mem_replicate hmem] at this
        omega
      rw [List.idxOf_append_of_notMem hne, List.length_replicate]
    rw [List.map_append, List.map_replicate, hfirst, Nat.cast_zero, add_zero, h.starts_eq]
    refine congrArg (_ ++ ·) (List.map_congr_left fun s hs => ?_)
    rw [hrest s hs, Nat.cast_add, add_assoc]

theorem segmentIdsFrom_labels (sid : ℕ) (start : ℤ) (h : ∀ l ∈ lengths, 1 ≤ l) :
    Labels sid start (segmentIdsFrom sid start lengths).1 (segmentIdsFrom sid start lengths).2 := by
  induction lengths generalizing sid start with
  | nil => exact labels_nil sid start
  | cons length lengths ih =>
    have hpos := h length List.mem_cons_self
    have hcast : (length.toNat : ℤ) = length := Int.toNat_of_nonneg (by omega)
    have hrest := ih (sid + 1) (start + length) fun l hl => h l (List.mem_cons_of_mem _ hl)
    rw [← hcast] at hrest
    have hcons := Labels.cons (by omega) hrest
    rw [hcast] at hcons
    exact hcons

theorem segmentIdsFrom_length (sid : ℕ) (start : ℤ) (h : ∀ l ∈ lengths, 1 ≤ l) :
    ((segmentIdsFrom sid start lengths).1.length : ℤ) = lengths.sum ∧
      ((segmentIdsFrom sid start lengths).2.length : ℤ) = lengths.sum := by
  induction lengths generalizing sid start with
  | nil => exact ⟨rfl, rfl⟩
  | cons length lengths ih =>
    have hpos := h length List.mem_cons_self
    obtain ⟨hids, hstarts⟩ := ih (sid + 1) (start + length) fun l hl => h l (List.mem_cons_of_mem _ hl)
    rw [segmentIdsFrom, List.sum_cons]
    dsimp only
    rw [List.length_append, List.length_append, List.length_replicate, List.length_replicate]
    omega

/-- Each segment has as many ids as its length, and no other segment has one. -/
theorem segmentIdsFrom_count (sid : ℕ) (start : ℤ) (h : ∀ l ∈ lengths, 1 ≤ l) (s : ℕ) :
    ((segmentIdsFrom sid start lengths).1.count (sid + s) : ℤ) = lengths.getD s 0 := by
  induction lengths generalizing sid start s with
  | nil => simp [segmentIdsFrom]
  | cons length lengths ih =>
    have hpos := h length List.mem_cons_self
    have hrest := fun l hl => h l (List.mem_cons_of_mem _ hl)
    rw [segmentIdsFrom]
    dsimp only
    rw [List.count_append, List.count_replicate]
    cases s with
    | zero =>
      have hnone : (segmentIdsFrom (sid + 1) (start + length) lengths).1.count sid = 0 := by
        rw [List.count_eq_zero]
        intro hmem
        have hle := (segmentIdsFrom_labels (sid + 1) (start + length) hrest).from_sid sid hmem
        omega
      rw [add_zero, hnone, if_pos (beq_self_eq_true sid), add_zero, List.getD_cons_zero]
      exact Int.toNat_of_nonneg (by omega)
    | succ s =>
      have hne : ¬(sid == sid + (s + 1)) = true := by simp
      rw [if_neg hne, zero_add, List.getD_cons_succ, ← ih (sid + 1) (start + length) hrest s, Nat.add_right_comm, Nat.add_assoc]

/-- `seg_id` and `seg_start` of `n` tokens in segments of these lengths. -/
structure IsLayout (n : ℤ) (lengths : List ℤ) (ids : List ℕ) (starts : List ℤ) : Prop where
  ids_length : (ids.length : ℤ) = n
  starts_length : (starts.length : ℤ) = n
  sized : ∀ s, (ids.count s : ℤ) = lengths.getD s 0
  sorted : ids.Pairwise (· ≤ ·)
  gapless : ∀ s ∈ ids, ∀ t ≤ s, t ∈ ids
  starts_first : starts = ids.map fun s => (ids.idxOf s : ℤ)

theorem segmentIds_isLayout (h : ∀ l ∈ lengths, 1 ≤ l) :
    IsLayout lengths.sum lengths (segmentIds lengths).1 (segmentIds lengths).2 := by
  obtain ⟨hids, hstarts⟩ := segmentIdsFrom_length 0 0 h
  obtain ⟨hsorted, -, hgapless, heq⟩ := segmentIdsFrom_labels 0 0 h
  refine ⟨hids, hstarts, fun s => ?_, hsorted, fun s hs t ht => hgapless s hs t (Nat.zero_le t) ht, heq.trans ?_⟩
  · have hcount := segmentIdsFrom_count 0 0 h s
    rwa [zero_add] at hcount
  · simp only [zero_add]
    rfl

/-- A seeded layout fills its tokens exactly, in segments of the range, and its arrays
name each token's segment and where it starts. -/
theorem segment_layout_exact (rng : Rng) (n lo hi : ℤ) (hlo : 1 ≤ lo) (hhi : 2 * lo - 1 ≤ hi) (hn : lo ≤ n) :
    ∃ lengths, (∀ fuel : ℕ, n < fuel → segmentLengths rng n lo hi fuel = some (.ok lengths)) ∧
      (∀ l ∈ lengths, lo ≤ l ∧ l ≤ hi) ∧ lengths.sum = n ∧
      IsLayout n lengths (segmentIds lengths).1 (segmentIds lengths).2 := by
  obtain ⟨lengths, hloop, hrange, hsum⟩ := @segmentLoop_ok rng lo hi n hlo hhi hn 0
  refine ⟨lengths, fun fuel hfuel => ?_, hrange, hsum, ?_⟩
  · rw [segmentLengths, if_neg (by omega), if_neg (by omega)]
    exact hloop fuel hfuel
  · rw [← hsum]
    exact segmentIds_isLayout fun l hl => hlo.trans (hrange l hl).1

/-- Draws that are always the shortest. -/
def shortest : Rng := ⟨fun _ a _ => a, fun _ _ _ h => ⟨le_rfl, h⟩⟩

/-- With the default range: the last segment takes what cannot be split. -/
theorem segment_layout_exact_shortest :
    segmentLengths shortest 1000 segMin segMax 1001 = some (.ok [256, 256, 488]) ∧
    ∃ lengths, (∀ fuel : ℕ, 1000 < (fuel : ℤ) → segmentLengths shortest 1000 segMin segMax fuel = some (.ok lengths)) ∧
      (∀ l ∈ lengths, segMin ≤ l ∧ l ≤ segMax) ∧ lengths.sum = 1000 ∧
      IsLayout 1000 lengths (segmentIds lengths).1 (segmentIds lengths).2 :=
  ⟨by rfl, segment_layout_exact shortest 1000 segMin segMax (by decide) (by decide) (by decide)⟩

end Ids

end MlxTrainPerf.Bench
