import MlxTrainPerf.Attention.FlashForward
/-!
# Masks that `validate()` accepts

`validate()` checks that ids and starts are sorted, not that the starts are
those of the ids' segments. The packed forward agrees with `segment_allowed`
exactly when no dispatched block starts its key loop past the first position of
its first row's segment.
-/
open Loops PyList Simdgroup XReal OnlineSoftmax

namespace MlxTrainPerf.Attention

/-- Row `i` of an array. -/
def Int32Array.row (a : Int32Array) (i : ℕ) : List ℤ := a.rows.getD i []

/-- The buffers of a packed launch under a mask. -/
def maskedArgs (s : Launch.Shape) (q k v : Tensor ℝ) (scale : ℝ) (mask : PackedMask) : Kernel.FwdArgs where
  s := s
  q := q
  k := k
  v := v
  scale := scale
  segId := fun b => ptr (mask.segId.row b)
  segStart := fun b => ptr (mask.segStart.row b)

namespace Kernel

section Mask
variable {mask : PackedMask} {s : Launch.Shape} {b : ℕ}

theorem validateSegments_ok {id start : Int32Array} {n : ℕ}
    (h : validateSegments (some id) (some start) b n true = .ok true) :
    (id.b = b ∧ id.n = n) ∧ start.b = b ∧ start.n = n := by
  unfold validateSegments at h
  dsimp only at h
  rw [if_neg (by decide)] at h
  by_cases hid : id.b = b ∧ id.n = n
  · rw [if_neg (not_not.2 hid)] at h
    by_cases hstart : start.b = b ∧ start.n = n
    · exact ⟨hid, hstart⟩
    · rw [if_pos hstart] at h
      cases h
  · rw [if_pos hid] at h
    cases h

theorem row_mem {a : Int32Array} (hb : b < a.b) : a.row b ∈ a.rows := by
  have hlt : b < a.rows.length := a.row_count.symm ▸ hb
  unfold Int32Array.row
  rw [List.getD_eq_getElem _ _ hlt]
  exact List.getElem_mem hlt

/-- The ids of an accepted mask are sorted. -/
theorem sorted_of_validate (hvalid : mask.validate = .ok ()) {row : List ℤ} (hrow : row ∈ mask.segId.rows) :
    row.Pairwise (· ≤ ·) := by
  unfold PackedMask.validate at hvalid
  split at hvalid
  · cases hvalid
  · next hall =>
    rw [Bool.not_eq_true', Bool.not_eq_false] at hall
    exact nonDecreasing_iff.1 (List.all_eq_true.1 hall row hrow)

end Mask

/-! ## Safety of a packed launch -/

/-- A packed launch keeps for every row the keys of `segment_allowed`, and
divides by no normalizer that is not positive. -/
structure ForwardSafe (src : FwdSource) (x : FwdArgs) (b h : ℕ) (ranges : List (ℕ × ℕ)) : Prop where
  keeps : ∀ row key, row < x.s.n → (fwdMmaKept src.flags (x.segId b) (x.segStart b) x.s.n ranges).count (row, key) =
    if segmentAllowed (x.segId b) row key then 1 else 0
  positive : ∀ r ∈ ranges, ∀ block slab0 rt lane, rt < 4 → lane < 32 → block * 32 + 8 * rt + fm lane < r.2 - r.1 →
    ∃ l, 0 < l ∧ (Fwd.slabPass src x b h (r.1 + block * 32) slab0).l lane rt = real l

/-- The start of the block at row `f`, read as `uint` and rounded down to a key
block, is at or before the first position of the row's segment. -/
def StartSound (ids starts : List ℤ) (f : ℕ) : Prop := toUInt (ptr starts f) / 32 * 32 ≤ ids.idxOf (ptr ids f)

section Safe
variable {ids starts : List ℤ} {n f row kk : ℕ}

theorem ptr_mem (hf : f < ids.length) : ptr ids f ∈ ids := by
  unfold ptr
  rw [List.getD_eq_getElem _ _ hf]
  exact List.getElem_mem hf

theorem idxOf_ptr_le (hsorted : ids.Pairwise (· ≤ ·)) (hf : f < ids.length) : ids.idxOf (ptr ids f) ≤ f :=
  idxOf_le_of_le hsorted (ptr_mem hf) (le_refl _)

/-- A start that is where the row's segment begins is sound. -/
theorem startSound_of_eq (hlen : ids.length < 2 ^ 31) (hstart : ptr starts f = ids.idxOf (ptr ids f)) :
    StartSound ids starts f := by
  have hle : ids.idxOf (ptr ids f) ≤ ids.length := List.idxOf_le_length
  have hint : IsInt32 (ids.idxOf (ptr ids f)) := ⟨by omega, by omega⟩
  unfold StartSound
  rw [hstart, toUInt_of_nonneg hint (Int.natCast_nonneg _), Int.toNat_natCast]
  exact Nat.div_mul_le_self _ 32

/-- The keys a row of a sound block keeps are not skipped. -/
theorem StartSound.le_kept (hsound : StartSound ids starts f) (hsorted : ids.Pairwise (· ≤ ·)) (hlen : ids.length = n)
    (hf : f ≤ row) (hrow : row < n) (hkept : segmentAllowed (ptr ids) row kk = true) :
    kvLo packedFlags (ptr starts) n f ≤ kk := by
  have hclamp : min f (n - 1) = f := by omega
  have hfirst : ids.idxOf (ptr ids f) ≤ kk := by
    obtain ⟨hseg, -⟩ := segmentAllowed_iff.1 hkept
    apply idxOf_le_of_le hsorted (ptr_mem (by omega))
    rw [← hseg]
    exact ptr_mono hsorted hf (by omega)
  rw [kvLo_packed, hclamp]
  exact hsound.trans hfirst

end Safe

section Launch
variable {src : FwdSource} {x : FwdArgs} {b h : ℕ} {ids starts : List ℤ} {ranges : List (ℕ × ℕ)}

/-- The first row of a dispatched block keeps the first position of its segment. -/
theorem startSound_of_safe (hflags : src.flags = packedFlags) (hid : x.segId b = ptr ids)
    (hstart : x.segStart b = ptr starts) (hsorted : ids.Pairwise (· ≤ ·)) (hlen : ids.length = x.s.n) (hranges : Tiles 0 x.s.n ranges)
    (hsafe : ForwardSafe src x b h ranges) {r : ℕ × ℕ} (hr : r ∈ ranges) {block : ℕ} (hblock : r.1 + block * 32 < r.2) :
    StartSound ids starts (r.1 + block * 32) := by
  have hf : r.1 + block * 32 < x.s.n := hblock.trans_le (hranges.bounds hr).2.2
  have hclamp : min (r.1 + block * 32) (x.s.n - 1) = r.1 + block * 32 := by omega
  have hfirst : firstRow r.1 (r.1 + block * 32) = r.1 + block * 32 := by
    unfold firstRow
    omega
  have hallowed : segmentAllowed (ptr ids) (r.1 + block * 32) (ids.idxOf (ptr ids (r.1 + block * 32))) = true :=
    segmentAllowed_iff.2 ⟨(ptr_idxOf (ptr_mem (by omega))).symm, idxOf_ptr_le hsorted (by omega)⟩
  have hcount := hsafe.keeps _ (ids.idxOf (ptr ids (r.1 + block * 32))) hf
  rw [hflags, hid, hstart, if_pos hallowed, fwdMmaKept, count_packed hranges hr (Nat.le_add_right _ _) hblock, hfirst,
    kvLo_packed, hclamp] at hcount
  by_contra hunsound
  rw [if_neg fun hall => hunsound hall.1] at hcount
  cases hcount

theorem safe_of_startSound (hflags : src.flags = packedFlags) (hd : src.headDim = x.s.d) (hid : x.segId b = ptr ids)
    (hstart : x.segStart b = ptr starts) (hsorted : ids.Pairwise (· ≤ ·)) (hlen : ids.length = x.s.n)
    (hranges : Tiles 0 x.s.n ranges)
    (hsound : ∀ r ∈ ranges, ∀ block, r.1 + block * 32 < r.2 → StartSound ids starts (r.1 + block * 32)) :
    ForwardSafe src x b h ranges where
  keeps := by
    intro row key hrow
    obtain ⟨r, hr, hlo, hhi⟩ := hranges.exists_mem (Nat.zero_le row) hrow
    have hblock := hsound r hr ((row - r.1) / 32) (by omega)
    rw [hflags, hid, hstart, fwdMmaKept, count_packed hranges hr hlo hhi]
    refine if_congr (and_iff_right_of_imp fun hallowed => ?_) rfl rfl
    exact hblock.le_kept hsorted hlen (firstRow_le hlo).1 hrow hallowed
  positive := by
    intro r hr block slab0 rt lane hrt hlane hlt
    have hend := (hranges.bounds hr).2.2
    have hfm := fm_lt hlane
    have hrow : r.1 + block * 32 + 8 * rt + fm lane < x.s.n := by omega
    have hlimit : ∀ kk < x.s.n, keepRow src.flags (x.segId b) x.s.n (r.1 + block * 32 + 8 * rt + fm lane) kk = true →
        kk < kvLimit src.flags x.s.n (r.1 + block * 32) := by
      rw [hflags]
      exact fun kk hkk hkeep => kept_lt_kvLimit rfl rfl (by omega) hkk hkeep
    have hpacked : src.flags.packed = true := by
      rw [hflags]
      rfl
    have hheld := @Fwd.slabPass_holds src x b h _ slab0 rt _ ⟨hd, hrow⟩ hlimit (Or.inl hpacked)
    -- Every row keeps itself.
    have hself : segmentAllowed (ptr ids) (r.1 + block * 32 + 8 * rt + fm lane) (r.1 + block * 32 + 8 * rt + fm lane) =
        true := segmentAllowed_iff.2 ⟨rfl, le_refl _⟩
    have hlo := (hsound r hr block (by omega)).le_kept hsorted hlen (by omega) hrow hself
    have hmem : r.1 + block * 32 + 8 * rt + fm lane ∈ Fwd.keptFrom src x b (r.1 + block * 32 + 8 * rt + fm lane)
        (kvLo src.flags (x.segStart b) x.s.n (r.1 + block * 32)) := by
      rw [Fwd.mem_keptFrom, hflags, hid, hstart, keepRow_packed hrow]
      exact ⟨⟨hlo, hrow⟩, hself⟩
    exact ⟨_, total_pos ⟨_, hmem⟩, hheld.l lane hlane rfl⟩

end Launch

/-- Under a mask that `validate()` and the launcher accept, the packed forward is
safe exactly when every dispatched block's start is sound. -/
theorem forwardSafe_iff (src : FwdSource) (s : Launch.Shape) (q k v : Tensor ℝ) (scale : ℝ) (mask : PackedMask)
    (hvalid : mask.validate = .ok ())
    (hsegments : validateSegments (some mask.segId) (some mask.segStart) s.b s.n true = .ok true)
    (hflags : src.flags = packedFlags) (hd : src.headDim = s.d) (b h : ℕ) (hb : b < s.b) (ranges : List (ℕ × ℕ))
    (hranges : Tiles 0 s.n ranges) :
    ForwardSafe src (maskedArgs s q k v scale mask) b h ranges ↔
      ∀ r ∈ ranges, ∀ block, r.1 + block * 32 < r.2 →
        StartSound (mask.segId.row b) (mask.segStart.row b) (r.1 + block * 32) := by
  obtain ⟨⟨hidB, hidN⟩, -, -⟩ := validateSegments_ok hsegments
  have hmem : mask.segId.row b ∈ mask.segId.rows := row_mem (hidB.symm ▸ hb)
  have hsorted := sorted_of_validate hvalid hmem
  have hlen : (mask.segId.row b).length = s.n := (mask.segId.row_length _ hmem).trans hidN
  constructor
  · exact fun hsafe r hr block => startSound_of_safe hflags rfl rfl hsorted hlen hranges hsafe hr
  · exact safe_of_startSound hflags hd rfl rfl hsorted hlen hranges

/-- A packed body of one 8-column slab. -/
def packedEight : FwdSource := { causalEight with flags := packedFlags, flags_valid := rfl }

/-- One position in segment 0, whose start is said to be `start`. -/
def oneStart (start : ℤ) (h : IsInt32 start) : PackedMask where
  segId := ⟨1, 1, [[0]], rfl, by decide, by unfold IsInt32; decide⟩
  segStart := ⟨1, 1, [[start]], rfl, by simp, by simpa using h⟩

/-- One row of ones under that mask. -/
noncomputable def oneRow (start : ℤ) (h : IsInt32 start) : FwdArgs :=
  maskedArgs ⟨1, 8, 1, 1, 1⟩ (fun _ _ _ _ => 1) (fun _ _ _ _ => 1) (fun _ _ _ _ => 1) 1 (oneStart start h)

theorem forwardSafe_iff_zero : ForwardSafe packedEight (oneRow 0 (by unfold IsInt32; decide)) 0 0 [(0, 1)] := by
  refine (forwardSafe_iff packedEight ⟨1, 8, 1, 1, 1⟩ _ _ _ 1 (oneStart 0 (by unfold IsInt32; decide)) rfl rfl rfl rfl 0 0
    (by decide) [(0, 1)] (by decide)).2 fun r hr block hblock => ?_
  obtain rfl : r = (0, 1) := List.mem_singleton.1 hr
  obtain rfl : block = 0 := by omega
  exact startSound_of_eq (by decide) (by decide)

/-- A start of 32 is accepted, and the row keeps no key at all: its normalizer is 0. -/
theorem not_forwardSafe_start : (oneStart 32 (by unfold IsInt32; decide)).validate = .ok () ∧
    validateSegments (some (oneStart 32 (by unfold IsInt32; decide)).segId)
      (some (oneStart 32 (by unfold IsInt32; decide)).segStart) 1 1 true = .ok true ∧
    ¬ForwardSafe packedEight (oneRow 32 (by unfold IsInt32; decide)) 0 0 [(0, 1)] ∧
    (Fwd.slabPass packedEight (oneRow 32 (by unfold IsInt32; decide)) 0 0 0 0).l 0 0 = real 0 := by
  refine ⟨rfl, rfl, fun hsafe => ?_, rfl⟩
  have hcount := hsafe.keeps 0 0 (by decide)
  revert hcount
  decide

end Kernel

end MlxTrainPerf.Attention
