import MlxTrainPerf.Data.BuildRow
/-!
# What a packed row promises

`PackedRow` is the boundary algebra of `build_row` said about its output alone:
what each segment decodes to, how the segment arrays are related, and which
positions are supervised by which target. Every row the packer lays out keeps
it, and the pack-time check on a batch of such rows never fires.
-/
open PyList

namespace MlxTrainPerf.Packing

/-- The tokens a row holds at the positions of segment `s`. -/
def segTokens (r : Row) (s : ℕ) : List ℤ :=
  ((r.row.zip r.segId).filter fun slot => decide (slot.2 = (s : ℤ))).map Prod.fst

structure PackedRow (entries : List Entry) (packLen : ℕ) (r : Row) : Prop where
  row_length : r.row.length = packLen + 1
  input_lengths : r.segId.length = packLen ∧ r.segStart.length = packLen ∧ r.lossMask.length = packLen
  /-- A segment holds its entry's tokens, then at most its own pad slot. -/
  decodes : ∀ s < entries.length,
    (entryAt entries s).tokens <+: segTokens r s ∧ segTokens r s <+: (entryAt entries s).tokens ++ [0]
  ids_sorted : r.segId.Pairwise (· ≤ ·)
  ids_gapless : ∀ i ∈ r.segId, 0 ≤ i ∧ ∀ j, 0 ≤ j → j ≤ i → j ∈ r.segId
  start_first : ∀ p < packLen, r.segStart.getD p 0 = r.segId.idxOf (r.segId.getD p 0)
  entry_start : ∀ s < entries.length, r.segId.idxOf (s : ℤ) = startOf entries s
  supervised_iff : ∀ s < entries.length, ∀ k ≤ (entryAt entries s).tokens.length,
    r.lossMask.getD (startOf entries s + k) false = true ↔
      max (entryAt entries s).offset 1 ≤ k + 1 ∧ k + 1 ≤ (entryAt entries s).tokens.length
  supervised_only : ∀ p, r.lossMask.getD p false = true →
    ∃ s < entries.length, ∃ k < (entryAt entries s).tokens.length, p = startOf entries s + k
  /-- The target is the entry's own next token or its own pad slot, which come
  before the next entry's start. -/
  target : ∀ s < entries.length, ∀ k < (entryAt entries s).tokens.length,
    r.row[startOf entries s + k + 1]? = ((entryAt entries s).tokens ++ [0])[k + 1]? ∧
      startOf entries s + k + 1 < startOf entries (s + 1)

section Layout
variable {entries : List Entry} {packLen s p : ℕ}

theorem getD_range_map {α : Type} (f : ℕ → α) (n : ℕ) (d : α) :
    ((List.range n).map f).getD p d = if p < n then f p else d := by
  split
  · next h => rw [List.getD_eq_getElem _ _ (by simpa using h)]; simp
  · next h => rw [List.getD_eq_default _ _ (by simpa using h)]

theorem owner_eq_of_le (hs : s ≤ entries.length) (h : startOf entries s ≤ p) (hp : owner entries p ≤ s) :
    owner entries p = s := by
  refine le_antisymm hp (Nat.le_of_not_lt fun hlt => ?_)
  have := lt_startOf_owner (hlt.trans_le hs)
  have := startOf_mono entries (show owner entries p + 1 ≤ s from hlt)
  omega

theorem owner_startOf_owner : owner entries (startOf entries (owner entries p)) = owner entries p :=
  owner_eq_of_le owner_le (le_refl _) (owner_mono (startOf_owner_le entries p))

theorem idxOf_segId (hs : s ≤ entries.length) (hle : startOf entries s ≤ packLen)
    (hown : startOf entries s < packLen → owner entries (startOf entries s) = s) :
    (layout entries packLen).segId.idxOf (s : ℤ) = startOf entries s := by
  refine idxOf_range_map hle (fun h => by rw [hown h]) fun p hp heq => ?_
  obtain rfl : owner entries p = s := by exact_mod_cast heq
  have := startOf_owner_le entries p
  omega

theorem tokenAt_eq {k : ℕ} (hs : s < entries.length) (hk : k ≤ (entryAt entries s).tokens.length) :
    tokenAt entries (startOf entries s + k) = (entryAt entries s).tokens.getD k 0 := by
  have hown : owner entries (startOf entries s + k) = s := by
    rw [owner_eq_iff hs, startOf_succ hs]
    omega
  rw [tokenAt, hown, Nat.add_sub_cancel_left]

/-- A segment's positions hold its tokens and pad slot, as far as the row goes. -/
theorem segTokens_layout (hs : s < entries.length) :
    segTokens (layout entries packLen) s =
      ((entryAt entries s).tokens ++ [0]).take (packLen - startOf entries s) := by
  have hzip : (layout entries packLen).row.zip (layout entries packLen).segId =
      (List.range packLen).map fun p => (tokenAt entries p, (owner entries p : ℤ)) := by
    apply List.ext_getElem (by simp [layout])
    intro p hp _
    simp [layout]
  have hin : ((fun slot : ℤ × ℤ => decide (slot.2 = (s : ℤ))) ∘ fun p => (tokenAt entries p, (owner entries p : ℤ))) =
      fun p => decide (startOf entries s ≤ p ∧ p < startOf entries (s + 1)) := by
    funext p
    simp only [Function.comp_apply, Nat.cast_inj, owner_eq_iff hs]
  have hnext := startOf_succ hs
  unfold segTokens
  rw [hzip, List.filter_map, hin, filter_range, List.map_map, List.map_map]
  apply List.ext_getElem (by simp; omega)
  intro k hk _
  simp only [List.length_map, List.length_range] at hk
  simp only [List.getElem_map, List.getElem_range, Function.comp_apply, List.getElem_take]
  rw [tokenAt_eq hs (by omega), List.getElem_append]
  split
  · next h => rw [List.getD_eq_getElem _ _ h]
  · next h => rw [List.getD_eq_default _ _ (by omega)]; simp

theorem layout_decodes (hfit : used entries ≤ packLen + 1) (hs : s < entries.length) :
    (entryAt entries s).tokens <+: segTokens (layout entries packLen) s ∧
      segTokens (layout entries packLen) s <+: (entryAt entries s).tokens ++ [0] := by
  have hnext := startOf_succ hs
  have hle : startOf entries (s + 1) ≤ used entries := startOf_le_used hs
  rw [segTokens_layout hs]
  refine ⟨?_, List.take_prefix _ _⟩
  rw [List.prefix_take_iff]
  exact ⟨List.prefix_append _ _, by omega⟩

theorem layout_gapless : ∀ i ∈ (layout entries packLen).segId, 0 ≤ i ∧ ∀ j, 0 ≤ j → j ≤ i →
    j ∈ (layout entries packLen).segId := by
  simp only [layout, List.mem_map, List.mem_range]
  rintro i ⟨p, hp, rfl⟩
  refine ⟨by omega, fun j hj hji => ?_⟩
  obtain ⟨s, rfl⟩ := Int.eq_ofNat_of_zero_le hj
  have hs : s ≤ owner entries p := by exact_mod_cast hji
  have hmono := startOf_mono entries hs
  have hstart := startOf_owner_le entries p
  -- The first position of segment `s` is at or before `p`.
  refine ⟨startOf entries s, by omega, ?_⟩
  rcases hs.lt_or_eq with hlt | rfl
  · rw [owner_startOf (hlt.trans_le owner_le)]
  · rw [owner_startOf_owner]

theorem layout_start_first (hp : p < packLen) : (layout entries packLen).segStart.getD p 0 =
    (layout entries packLen).segId.idxOf ((layout entries packLen).segId.getD p 0) := by
  have hstart := startOf_owner_le entries p
  have hid : (layout entries packLen).segId.getD p 0 = (owner entries p : ℤ) := by
    simp only [layout, getD_range_map, if_pos hp]
  rw [hid, idxOf_segId owner_le (by omega) fun _ => owner_startOf_owner]
  simp only [layout, getD_range_map, if_pos hp]

theorem layout_supervised_iff (hfit : used entries ≤ packLen + 1) (hs : s < entries.length) {k : ℕ}
    (hk : k ≤ (entryAt entries s).tokens.length) :
    (layout entries packLen).lossMask.getD (startOf entries s + k) false = true ↔
      max (entryAt entries s).offset 1 ≤ k + 1 ∧ k + 1 ≤ (entryAt entries s).tokens.length := by
  have hnext := startOf_succ hs
  have hle : startOf entries (s + 1) ≤ used entries := startOf_le_used hs
  have hown : owner entries (startOf entries s + k) = s := by
    rw [owner_eq_iff hs]
    omega
  simp only [layout, getD_range_map, supervisedAt, hown, Nat.add_sub_cancel_left, supervised]
  split
  · exact decide_eq_true_iff
  · exact iff_of_false Bool.false_ne_true (by omega)

theorem layout_supervised_only (h : (layout entries packLen).lossMask.getD p false = true) :
    ∃ s < entries.length, ∃ k < (entryAt entries s).tokens.length, p = startOf entries s + k := by
  simp only [layout, getD_range_map] at h
  split at h
  · have hsup := of_decide_eq_true h
    have hlt : owner entries p < entries.length := by
      apply lt_of_le_of_ne owner_le
      intro htail
      rw [htail] at hsup
      simp [entryAt] at hsup
    have := startOf_owner_le entries p
    exact ⟨owner entries p, hlt, p - startOf entries (owner entries p), by omega, by omega⟩
  · cases h

theorem layout_target (hfit : used entries ≤ packLen + 1) (hs : s < entries.length) {k : ℕ}
    (hk : k < (entryAt entries s).tokens.length) :
    (layout entries packLen).row[startOf entries s + k + 1]? = ((entryAt entries s).tokens ++ [0])[k + 1]? ∧
      startOf entries s + k + 1 < startOf entries (s + 1) := by
  have hnext := startOf_succ hs
  have hle : startOf entries (s + 1) ≤ used entries := startOf_le_used hs
  refine ⟨?_, by omega⟩
  simp only [layout]
  rw [List.getElem?_map, List.getElem?_range (by omega), Option.map_some, Nat.add_assoc, tokenAt_eq hs hk,
    List.getElem?_append]
  split
  · next h => rw [List.getD_eq_getElem _ _ h, List.getElem?_eq_getElem h]
  · next h =>
    have hend : k + 1 = (entryAt entries s).tokens.length := by omega
    rw [List.getD_eq_default _ _ hend.ge, hend]
    simp

/-- Every row laid out from entries that fit keeps the boundary algebra. -/
theorem layout_packedRow (hfit : used entries ≤ packLen + 1) : PackedRow entries packLen (layout entries packLen) where
  row_length := by simp [layout]
  input_lengths := by simp [layout]
  decodes _ hs := layout_decodes hfit hs
  ids_sorted := by
    simp only [layout, List.pairwise_map]
    exact List.pairwise_lt_range.imp fun {p q} h => by exact_mod_cast owner_mono h.le
  ids_gapless := layout_gapless
  start_first _ hp := layout_start_first hp
  entry_start s hs := by
    have hnext := startOf_succ hs
    have hle : startOf entries (s + 1) ≤ used entries := startOf_le_used hs
    exact idxOf_segId hs.le (by omega) fun _ => owner_startOf hs
  supervised_iff _ hs _ hk := layout_supervised_iff hfit hs hk
  supervised_only _ h := layout_supervised_only h
  target _ hs _ hk := layout_target hfit hs hk

theorem starts_sorted : (layout entries packLen).segStart.Pairwise (· ≤ ·) := by
  simp only [layout, List.pairwise_map]
  exact List.pairwise_lt_range.imp fun {p q} h => by exact_mod_cast startOf_mono entries (owner_mono h.le)

end Layout

/-! ## Rows of the iterator -/

theorem assertPackTimeMonotone_ok {sid sst : List (List ℤ)} (hid : ∀ row ∈ sid, row.Pairwise (· ≤ ·))
    (hst : ∀ row ∈ sst, row.Pairwise (· ≤ ·)) : assertPackTimeMonotone sid sst = .ok () := by
  have hid' : sid.all nonDecreasing = true := List.all_eq_true.2 fun row h => nonDecreasing_iff.2 (hid row h)
  have hst' : sst.all nonDecreasing = true := List.all_eq_true.2 fun row h => nonDecreasing_iff.2 (hst row h)
  unfold assertPackTimeMonotone
  rw [hid', hst']
  rfl

theorem truncated_length {items : List Entry} {maxSeqLength i : ℕ} :
    (entryAt (truncateItems items maxSeqLength) i).tokens.length ≤ maxSeqLength := by
  unfold entryAt truncateItems
  rcases Nat.lt_or_ge i items.length with h | h
  · rw [List.getD_eq_getElem _ _ (by simpa using h)]
    simp
  · rw [List.getD_eq_default _ _ (by simpa using h)]
    exact Nat.zero_le _

/-- What the packer charges for a pack of truncated items is what the row takes. -/
theorem used_entriesOf (items : List Entry) (maxSeqLength : ℕ) (pack : List ℕ) :
    used (entriesOf (truncateItems items maxSeqLength) pack) =
      packCost (lengthsOf (truncateItems items maxSeqLength)) maxSeqLength pack := by
  unfold used packCost entriesOf
  rw [List.map_map]
  refine congrArg _ (List.map_congr_left fun i _ => ?_)
  have hlen : (lengthsOf (truncateItems items maxSeqLength)).getD i 0 =
      (entryAt (truncateItems items maxSeqLength) i).tokens.length := by
    simp only [lengthsOf, entryAt, List.getD_eq_getElem?_getD, List.getElem?_map]
    cases (truncateItems items maxSeqLength)[i]? <;> rfl
  rw [cost, hlen, min_eq_left truncated_length]
  rfl

theorem packIndices_fits {shuffle : Shuffle} {lengths : List ℕ} {packLen : ℕ} {seed : ℤ} {epoch : ℕ}
    {packs : List (List ℕ)} (h : packIndices shuffle lengths packLen seed epoch = .ok packs) :
    ∀ pack ∈ packs, packCost lengths packLen pack ≤ packLen + 1 := by
  obtain ⟨-, -, rfl⟩ := of_packIndices h
  exact fun pack hp => (mem_packs (packRun_inv _ _ _) hp).2

/-- Every pack of truncated items fits its row. -/
theorem used_of_packIndices {shuffle : Shuffle} {items : List Entry} {packLen : ℕ} {seed : ℤ} {epoch : ℕ}
    {packs : List (List ℕ)}
    (h : packIndices shuffle (lengthsOf (truncateItems items packLen)) packLen seed epoch = .ok packs) :
    ∀ pack ∈ packs, used (entriesOf (truncateItems items packLen) pack) ≤ packLen + 1 := by
  intro pack hp
  rw [used_entriesOf]
  exact packIndices_fits h pack hp

theorem batchRows_eq {items : List Entry} {maxSeqLength : ℕ} {batch : List (List ℕ)}
    (h : ∀ pack ∈ batch, used (entriesOf items pack) ≤ maxSeqLength + 1) :
    batchRows items maxSeqLength batch = .ok (batch.map fun pack => layout (entriesOf items pack) maxSeqLength) := by
  unfold batchRows
  induction batch with
  | nil => rfl
  | cons pack batch ih =>
    rw [List.mapM_cons, buildRow_eq (h pack List.mem_cons_self), ih fun q hq => h q (List.mem_cons_of_mem _ hq)]
    rfl

/-- The pack-time check passes on any batch of rows laid out from entries that fit. -/
theorem assertPackTimeMonotone_layouts {items : List Entry} {maxSeqLength : ℕ} {batch : List (List ℕ)}
    (h : ∀ pack ∈ batch, used (entriesOf items pack) ≤ maxSeqLength + 1) :
    assertPackTimeMonotone ((batch.map fun pack => layout (entriesOf items pack) maxSeqLength).map Row.segId)
      ((batch.map fun pack => layout (entriesOf items pack) maxSeqLength).map Row.segStart) = .ok () := by
  apply assertPackTimeMonotone_ok
  · simp only [List.map_map, List.mem_map, Function.comp_apply]
    rintro row ⟨pack, hp, rfl⟩
    exact (layout_packedRow (h pack hp)).ids_sorted
  · simp only [List.map_map, List.mem_map, Function.comp_apply]
    rintro row ⟨pack, -, rfl⟩
    exact starts_sorted

/-- Any batch of packs the packer returned is laid out as promised, and passes
the pack-time check. -/
theorem build_row_faithful (shuffle : Shuffle) (items : List Entry) (packLen : ℕ) (seed : ℤ) (epoch : ℕ)
    (packs batch : List (List ℕ))
    (hpacks : packIndices shuffle (lengthsOf (truncateItems items packLen)) packLen seed epoch = .ok packs)
    (hbatch : ∀ pack ∈ batch, pack ∈ packs) :
    ∃ rows, batchRows (truncateItems items packLen) packLen batch = .ok rows ∧
      List.Forall₂ (fun pack r => PackedRow (entriesOf (truncateItems items packLen) pack) packLen r) batch rows ∧
      assertPackTimeMonotone (rows.map Row.segId) (rows.map Row.segStart) = .ok () := by
  have hfit : ∀ pack ∈ batch, used (entriesOf (truncateItems items packLen) pack) ≤ packLen + 1 :=
    fun pack hp => used_of_packIndices hpacks pack (hbatch pack hp)
  refine ⟨_, batchRows_eq hfit, ?_, assertPackTimeMonotone_layouts hfit⟩
  rw [List.forall₂_map_right_iff, List.forall₂_same]
  exact fun pack hp => layout_packedRow (hfit pack hp)

theorem build_row_faithful_small :
    let items : List Entry := [⟨[5, 6, 7], 2⟩, ⟨[8], 0⟩]
    ∃ rows, batchRows (truncateItems items 5) 5 [[0, 1]] = .ok rows ∧
      assertPackTimeMonotone (rows.map Row.segId) (rows.map Row.segStart) = .ok () := by
  obtain ⟨rows, h, -, ha⟩ := build_row_faithful (fun _ _ order => order) [⟨[5, 6, 7], 2⟩, ⟨[8], 0⟩] 5 0 0 [[0, 1]]
    [[0, 1]] (by decide) (by decide)
  exact ⟨rows, h, ha⟩

end MlxTrainPerf.Packing
