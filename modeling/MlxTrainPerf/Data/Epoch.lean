import MlxTrainPerf.Data.PackedRow
import MlxTrainPerf.Lib.Budget
/-!
# An epoch, and what is reported about it

`packed_iterate_batches` packs the truncated items and lays out the batches;
`packed_batching_stats` packs the raw lengths and only counts. A sequence costs
the same before and after truncation (`cost_truncated`), so both scan the same
packs, and the statistics are those of the epoch's own rows.
-/
open PyList

namespace MlxTrainPerf.Packing

/-! ## `packed_iterate_batches` -/

/-- `dataset[j]`: a `(tokens, offset)` tuple, or bare tokens. -/
inductive DatasetItem
  | pair (tokens : List ℤ) (offset : ℤ)
  | bare (tokens : List ℤ)
deriving DecidableEq, Repr

def DatasetItem.entry : DatasetItem → Entry
  | .pair tokens offset => ⟨tokens, offset⟩
  | .bare tokens => ⟨tokens, 0⟩

/-- `items`, before the truncation. -/
def itemsOf (dataset : List DatasetItem) : List Entry := dataset.map DatasetItem.entry

/-- What can stop the iterator. -/
inductive EpochError
  | packing (e : PackingError)
  | index (e : IndexError)
  | zeroDivision
deriving DecidableEq, Repr

/-- One yielded batch: its four arrays, row by row. -/
structure Batch where
  batch : List (List ℤ)
  segId : List (List ℤ)
  segStart : List (List ℤ)
  lossMask : List (List Bool)
deriving DecidableEq, Repr

def Batch.ofRows (rows : List Row) : Batch :=
  ⟨rows.map Row.row, rows.map Row.segId, rows.map Row.segStart, rows.map Row.lossMask⟩

/-- The two refusals ahead of the packing: a distributed group, and more positions than the model has. -/
def fence (commGroupSize maxPositionEmbeddings : Option ℕ) (maxSeqLength : ℕ) : Except PackingError Unit :=
  if commGroupSize.any (1 < ·) then
    .error ⟨"packed_iterate_batches does not support distributed packing " ++
      s!"(comm_group.size()={commGroupSize.getD 0}); pack on a single worker"⟩
  else if maxPositionEmbeddings.any (· < maxSeqLength) then
    .error ⟨s!"max_seq_length={maxSeqLength} exceeds max_position_embeddings={maxPositionEmbeddings.getD 0}"⟩
  else .ok ()

/-- One turn of `for b in range(num_batches)`, at its packs. -/
def batchOf (items : List Entry) (maxSeqLength : ℕ) (batchPacks : List (List ℕ)) : Except EpochError Batch := do
  let rows ← (batchRows items maxSeqLength batchPacks).mapError .index
  (assertPackTimeMonotone (rows.map Row.segId) (rows.map Row.segStart)).mapError .packing
  return .ofRows rows

/-- `packs[b * batch_size : (b + 1) * batch_size]`. -/
def batchPacks (packs : List (List ℕ)) (batchSize b : ℕ) : List (List ℕ) :=
  (packs.take ((b + 1) * batchSize)).drop (b * batchSize)

/-- One turn of the `while`, on the truncated items: the batches of an epoch. -/
def epochBatches (shuffle : Shuffle) (items : List Entry) (batchSize maxSeqLength : ℕ) (baseSeed : ℤ) (epoch : ℕ) :
    Except EpochError (List Batch) := do
  let packs ← (packIndices shuffle (lengthsOf items) maxSeqLength baseSeed epoch).mapError .packing
  if batchSize = 0 then .error .zeroDivision
  else if packs.length / batchSize = 0 then
    .error (.packing ⟨s!"packed dataset produced {packs.length} pack(s) at pack_len={maxSeqLength}, fewer than " ++
      s!"batch_size={batchSize}; reduce batch_size or add more data"⟩)
  else
    (List.range (packs.length / batchSize)).mapM fun b => batchOf items maxSeqLength (batchPacks packs batchSize b)

/-- The batches of one epoch of `packed_iterate_batches`; with `loop=False` it is epoch 0 alone. -/
def packedIterateBatches (shuffle : Shuffle) (dataset : List DatasetItem) (batchSize maxSeqLength : ℕ) (seed : Option ℤ)
    (commGroupSize maxPositionEmbeddings : Option ℕ) (epoch : ℕ) : Except EpochError (List Batch) := do
  (fence commGroupSize maxPositionEmbeddings maxSeqLength).mapError .packing
  epochBatches shuffle (truncateItems (itemsOf dataset) maxSeqLength) batchSize maxSeqLength (seed.getD 0) epoch

/-! ## `packed_batching_stats` -/

structure PackedBatchingStats where
  numBatches : ℕ
  realTokensTotal : ℕ
  meanRealTokensPerStep : ℚ
  meanSamplesPerStep : ℚ
  utilization : ℚ
  separatorFraction : ℚ
  tailPadFraction : ℚ
deriving DecidableEq, Repr

/-- `packs[: num_batches * batch_size]`. -/
def consumed (packs : List (List ℕ)) (batchSize : ℕ) : List (List ℕ) :=
  packs.take (packs.length / batchSize * batchSize)

/-- `sum(min(lengths[i], pack_len) for pack in packs for i in pack)`. -/
def realTokens (lengths : List ℕ) (packLen : ℕ) (packs : List (List ℕ)) : ℕ :=
  (packs.flatten.map fun i => min (lengths.getD i 0) packLen).sum

/-- `sum(len(pack) for pack in packs)`. -/
def samples (packs : List (List ℕ)) : ℕ := (packs.map List.length).sum

/-- `total / num_batches if num_batches else 0.0`. -/
def perStep (total numBatches : ℕ) : ℚ := if numBatches = 0 then 0 else total / numBatches

def packedBatchingStats (shuffle : Shuffle) (lengths : List ℕ) (packLen batchSize : ℕ) (seed : ℤ) (epoch : ℕ) :
    Except PackingError PackedBatchingStats :=
  if batchSize < 1 then .error ⟨s!"batch_size must be >= 1; got {batchSize}"⟩
  else do
    let packs ← packIndices shuffle lengths packLen seed epoch
    let numBatches := packs.length / batchSize
    let realConsumed := realTokens lengths packLen (consumed packs batchSize)
    let samplesConsumed := samples (consumed packs batchSize)
    let stats ← packStats packs lengths packLen
    return {
      numBatches := numBatches
      realTokensTotal := realConsumed
      meanRealTokensPerStep := perStep realConsumed numBatches
      meanSamplesPerStep := perStep samplesConsumed numBatches
      utilization := stats.utilization
      separatorFraction := stats.separatorFraction
      tailPadFraction := stats.tailPadFraction }

/-! ## Truncation does not move a pack boundary -/

section Truncated
variable (items : List Entry) (packLen : ℕ)

theorem lengthsOf_truncateItems : lengthsOf (truncateItems items packLen) = (lengthsOf items).map (min · packLen) := by
  simp only [lengthsOf, truncateItems, List.map_map]
  refine List.map_congr_left fun e _ => ?_
  simp only [Function.comp_apply, List.length_take, min_comm]

theorem getD_lengthsOf_truncateItems (i : ℕ) :
    (lengthsOf (truncateItems items packLen)).getD i 0 = min ((lengthsOf items).getD i 0) packLen := by
  rw [lengthsOf_truncateItems, List.getD_eq_getElem?_getD, List.getElem?_map, List.getD_eq_getElem?_getD]
  cases (lengthsOf items)[i]? with
  | none => exact (min_eq_left (Nat.zero_le packLen)).symm
  | some n => rfl

/-- A sequence costs the same before and after the truncation. -/
theorem cost_truncated : cost (lengthsOf (truncateItems items packLen)) packLen = cost (lengthsOf items) packLen := by
  funext i
  rw [cost, cost, getD_lengthsOf_truncateItems items packLen, min_assoc, min_self]

theorem packRun_truncated (order : List ℕ) :
    packRun (lengthsOf (truncateItems items packLen)) packLen order = packRun (lengthsOf items) packLen order := by
  have hstep : packStep (lengthsOf (truncateItems items packLen)) packLen = packStep (lengthsOf items) packLen := by
    funext p i
    rw [packStep, packStep, cost_truncated]
  rw [packRun, packRun, hstep]

theorem any_empty_truncated {packLen : ℕ} (hlen : 1 ≤ packLen) :
    (lengthsOf (truncateItems items packLen)).any (· < 1) = (lengthsOf items).any (· < 1) := by
  rw [lengthsOf_truncateItems, List.any_map]
  refine congrArg _ (funext fun n => ?_)
  simp only [Function.comp_apply, decide_eq_decide]
  omega

/-- The packer sees no truncation. -/
theorem packIndices_truncated (shuffle : Shuffle) (seed : ℤ) (epoch : ℕ) :
    packIndices shuffle (lengthsOf (truncateItems items packLen)) packLen seed epoch =
      packIndices shuffle (lengthsOf items) packLen seed epoch := by
  have hlength : (lengthsOf (truncateItems items packLen)).length = (lengthsOf items).length := by
    rw [lengthsOf_truncateItems, List.length_map]
  have hnil : lengthsOf (truncateItems items packLen) = [] ↔ lengthsOf items = [] := by
    rw [← List.length_eq_zero_iff, hlength, List.length_eq_zero_iff]
  unfold packIndices
  by_cases hlen : packLen < 1
  · rw [if_pos hlen, if_pos hlen]
  · simp only [hlen, hnil, any_empty_truncated items (Nat.le_of_not_lt hlen), packRun_truncated, hlength]

end Truncated

/-! ## The groups of an epoch -/

section Groups
variable (packs : List (List ℕ)) (batchSize : ℕ)

/-- The groups side by side are a prefix of the packs. -/
theorem flatten_batchPacks (n : ℕ) :
    ((List.range n).map (batchPacks packs batchSize)).flatten = packs.take (n * batchSize) := by
  induction n with
  | zero => simp
  | succ n ih =>
    rw [List.range_succ, List.map_append, List.flatten_append, ih]
    simp only [List.map_cons, List.map_nil, List.flatten_cons, List.flatten_nil, List.append_nil, batchPacks]
    have hle : n * batchSize ≤ (n + 1) * batchSize := Nat.mul_le_mul_right _ (Nat.le_succ n)
    rw [← min_eq_left hle, ← List.take_take, min_eq_left hle, List.take_append_drop]

/-- The packs left over are the last `packs % batch_size`. -/
theorem consumed_append_rtake :
    consumed packs batchSize ++ packs.rtake (packs.length % batchSize) = packs := by
  have hsplit := Nat.div_add_mod packs.length batchSize
  have hsub : packs.length - packs.length % batchSize = packs.length / batchSize * batchSize := by
    rw [Nat.mul_comm]
    omega
  rw [consumed, List.rtake, hsub, List.take_append_drop]

variable {packs batchSize}

theorem mem_of_mem_batchPacks {b : ℕ} {pack : List ℕ} (h : pack ∈ batchPacks packs batchSize b) : pack ∈ packs :=
  List.mem_of_mem_take (List.mem_of_mem_drop h)

/-- Every group of an epoch is full. -/
theorem length_batchPacks {b : ℕ} (hb : b < packs.length / batchSize) :
    (batchPacks packs batchSize b).length = batchSize := by
  have hle : (b + 1) * batchSize ≤ packs.length :=
    (Nat.mul_le_mul_right _ hb).trans (Nat.div_mul_le_self _ _)
  rw [batchPacks, List.length_drop, List.length_take, min_eq_left hle, Nat.succ_mul]
  exact Nat.add_sub_cancel_left _ _

end Groups

/-! ## The batches of an epoch -/

/-- The row of a pack. -/
def rowOf (items : List Entry) (packLen : ℕ) (pack : List ℕ) : Row := layout (entriesOf items pack) packLen

section Batches
variable {items : List Entry} {packLen batchSize epoch : ℕ} {seed : ℤ} {shuffle : Shuffle} {packs : List (List ℕ)}

theorem batchOf_eq {batch : List (List ℕ)} (h : ∀ pack ∈ batch, used (entriesOf items pack) ≤ packLen + 1) :
    batchOf items packLen batch = .ok (.ofRows (batch.map (rowOf items packLen))) := by
  have hcheck : assertPackTimeMonotone ((batch.map (rowOf items packLen)).map Row.segId)
      ((batch.map (rowOf items packLen)).map Row.segStart) = .ok () := assertPackTimeMonotone_layouts h
  have hrows : batchRows items packLen batch = .ok (batch.map (rowOf items packLen)) := batchRows_eq h
  rw [batchOf, hrows]
  change (assertPackTimeMonotone _ _).mapError EpochError.packing >>= _ = _
  rw [hcheck]
  rfl

/-- An epoch over packs the packer returned, when there is a full batch. -/
theorem epochBatches_eq (hbatch : 1 ≤ batchSize)
    (hpacks : packIndices shuffle (lengthsOf items) packLen seed epoch = .ok packs)
    (hfit : ∀ pack ∈ packs, used (entriesOf items pack) ≤ packLen + 1) (hfull : packs.length / batchSize ≠ 0) :
    epochBatches shuffle items batchSize packLen seed epoch =
      .ok ((List.range (packs.length / batchSize)).map fun b =>
        .ofRows ((batchPacks packs batchSize b).map (rowOf items packLen))) := by
  have hrun : ((List.range (packs.length / batchSize)).mapM fun b =>
      batchOf items packLen (batchPacks packs batchSize b)) = .ok ((List.range (packs.length / batchSize)).map fun b =>
        .ofRows ((batchPacks packs batchSize b).map (rowOf items packLen))) :=
    Budget.mapM_eq_map fun b _ => batchOf_eq fun pack hp => hfit pack (mem_of_mem_batchPacks hp)
  rw [epochBatches, hpacks, ← hrun]
  change (if batchSize = 0 then _ else if packs.length / batchSize = 0 then _ else _) = _
  rw [if_neg (Nat.one_le_iff_ne_zero.1 hbatch), if_neg hfull]

/-- Fewer packs than a batch. -/
theorem epochBatches_short (hbatch : 1 ≤ batchSize)
    (hpacks : packIndices shuffle (lengthsOf items) packLen seed epoch = .ok packs)
    (hshort : packs.length / batchSize = 0) :
    ∃ e, epochBatches shuffle items batchSize packLen seed epoch = .error (.packing e) := by
  rw [epochBatches, hpacks]
  change ∃ e, (if batchSize = 0 then _ else if packs.length / batchSize = 0 then _ else _) = _
  rw [if_neg (Nat.one_le_iff_ne_zero.1 hbatch), if_pos hshort]
  exact ⟨_, rfl⟩

end Batches

/-! ## What the epoch and the statistics agree on -/

/-- The fixed shapes of a yielded batch. -/
structure Batch.Shaped (b : Batch) (batchSize packLen : ℕ) : Prop where
  batch : b.batch.length = batchSize ∧ ∀ row ∈ b.batch, row.length = packLen + 1
  segId : b.segId.length = batchSize ∧ ∀ row ∈ b.segId, row.length = packLen
  segStart : b.segStart.length = batchSize ∧ ∀ row ∈ b.segStart, row.length = packLen
  lossMask : b.lossMask.length = batchSize ∧ ∀ row ∈ b.lossMask, row.length = packLen

theorem shaped_ofRows {rows : List Row} {batchSize packLen : ℕ} (hlen : rows.length = batchSize)
    (h : ∀ r ∈ rows, ∃ entries, PackedRow entries packLen r) : (Batch.ofRows rows).Shaped batchSize packLen := by
  constructor <;> refine ⟨(List.length_map _).trans hlen, ?_⟩ <;>
    simp only [Batch.ofRows, List.mem_map, forall_exists_index, and_imp, forall_apply_eq_imp_iff₂]
  · exact fun r hr => (h r hr).elim fun _ hrow => hrow.row_length
  · exact fun r hr => (h r hr).elim fun _ hrow => hrow.input_lengths.1
  · exact fun r hr => (h r hr).elim fun _ hrow => hrow.input_lengths.2.1
  · exact fun r hr => (h r hr).elim fun _ hrow => hrow.input_lengths.2.2

/-- Tokens and sequences laid out over the rows of `packs`. -/
def laidTokens (items : List Entry) (packs : List (List ℕ)) : ℕ :=
  (packs.map fun pack => ((entriesOf items pack).map fun e => e.tokens.length).sum).sum

def laidSamples (items : List Entry) (packs : List (List ℕ)) : ℕ :=
  (packs.map fun pack => (entriesOf items pack).length).sum

/-- The batches of an epoch over `items`, beside the statistics `s`. -/
structure EpochAgrees (items : List Entry) (packLen batchSize : ℕ) (packs : List (List ℕ)) (batches : List Batch)
    (s : PackedBatchingStats) : Prop where
  count : batches.length = s.numBatches
  shaped : ∀ b ∈ batches, b.Shaped batchSize packLen
  /-- The yielded rows, in order, are those of the consumed packs. -/
  rows : ∃ rows : List (List Row), batches = rows.map Batch.ofRows ∧
    List.Forall₂ (fun pack r => PackedRow (entriesOf (truncateItems items packLen) pack) packLen r)
      (consumed packs batchSize) rows.flatten
  once : (consumed packs batchSize).flatten.Nodup
  in_dataset : ∀ i ∈ (consumed packs batchSize).flatten, i < items.length
  /-- What is left out is what the trailing packs hold. -/
  left_out : ∀ i < items.length,
    i ∉ (consumed packs batchSize).flatten ↔ i ∈ (packs.rtake (packs.length % batchSize)).flatten
  tokens : s.realTokensTotal = laidTokens (truncateItems items packLen) (consumed packs batchSize) ∧
    s.meanRealTokensPerStep * s.numBatches = s.realTokensTotal
  samples : s.meanSamplesPerStep * s.numBatches =
    (laidSamples (truncateItems items packLen) (consumed packs batchSize) : ℕ)

section Agreement
variable {items : List Entry} {packLen batchSize epoch : ℕ} {seed : ℤ} {shuffle : Shuffle} {packs : List (List ℕ)}

theorem laidTokens_truncated :
    laidTokens (truncateItems items packLen) packs = realTokens (lengthsOf items) packLen packs := by
  have hentry : ∀ i, ((truncateItems items packLen).getD i ⟨[], 0⟩).tokens.length =
      min ((lengthsOf items).getD i 0) packLen := by
    intro i
    rw [← getD_lengthsOf_truncateItems, lengthsOf]
    simp only [List.getD_eq_getElem?_getD, List.getElem?_map]
    cases (truncateItems items packLen)[i]? <;> rfl
  unfold laidTokens realTokens
  induction packs with
  | nil => rfl
  | cons pack packs ih =>
    rw [List.map_cons, List.sum_cons, ih, List.flatten_cons, List.map_append, List.sum_append, entriesOf, List.map_map]
    simp only [Function.comp_def, hentry]

theorem laidSamples_eq : laidSamples items packs = samples packs := by
  unfold laidSamples samples entriesOf
  simp only [List.length_map]

theorem perStep_mul (total : ℕ) {n : ℕ} (hn : n ≠ 0) : perStep total n * n = total := by
  rw [perStep, if_neg hn]
  exact div_mul_cancel₀ _ (Nat.cast_ne_zero.2 hn)

theorem packs_perm {lengths : List ℕ} (h : packIndices shuffle lengths packLen seed epoch = .ok packs)
    (hshuffle : (shuffle seed epoch (List.range lengths.length)).Perm (List.range lengths.length)) :
    packs.flatten.Perm (List.range lengths.length) := by
  obtain ⟨-, -, rfl⟩ := of_packIndices h
  exact (packRun_inv _ _ _).placed.trans hshuffle

/-- The statistics of packs the packer returned. -/
theorem packedBatchingStats_eq {lengths : List ℕ} (hbatch : 1 ≤ batchSize)
    (h : packIndices shuffle lengths packLen seed epoch = .ok packs)
    (hshuffle : (shuffle seed epoch (List.range lengths.length)).Perm (List.range lengths.length)) :
    ∃ s, packedBatchingStats shuffle lengths packLen batchSize seed epoch = .ok s ∧
      s.numBatches = packs.length / batchSize ∧
      s.realTokensTotal = realTokens lengths packLen (consumed packs batchSize) ∧
      s.meanRealTokensPerStep = perStep s.realTokensTotal s.numBatches ∧
      s.meanSamplesPerStep = perStep (samples (consumed packs batchSize)) s.numBatches := by
  obtain ⟨hlen, hne, -⟩ := of_packIndices h
  have hpacks : packs ≠ [] := by
    rintro rfl
    have hlength := (packs_perm h hshuffle).length_eq
    rw [List.length_range] at hlength
    exact hne (List.length_eq_zero_iff.1 hlength.symm)
  have hstats : packStats packs lengths packLen =
      .ok (statsOf (counts packs lengths packLen) (packs.length * packLen)) := by
    rw [packStats, if_neg (Nat.not_lt.2 hlen), if_neg hpacks]
  rw [packedBatchingStats, if_neg (Nat.not_lt.2 hbatch), h]
  change ∃ s, (packStats packs lengths packLen >>= _) = _ ∧ _
  rw [hstats]
  exact ⟨_, rfl, rfl, rfl, rfl, rfl⟩

theorem packedBatchingStats_error {lengths : List ℕ} {e : PackingError} (hbatch : 1 ≤ batchSize)
    (h : packIndices shuffle lengths packLen seed epoch = .error e) :
    packedBatchingStats shuffle lengths packLen batchSize seed epoch = .error e := by
  rw [packedBatchingStats, if_neg (Nat.not_lt.2 hbatch), h]
  rfl

/-- The rows of an epoch, batch after batch, are those of the consumed packs. -/
theorem flatten_rows (items : List Entry) (packLen : ℕ) (packs : List (List ℕ)) (batchSize : ℕ) :
    ((List.range (packs.length / batchSize)).map fun b =>
      (batchPacks packs batchSize b).map (rowOf items packLen)).flatten =
        (consumed packs batchSize).map (rowOf items packLen) := by
  rw [consumed, ← flatten_batchPacks packs batchSize, List.map_flatten, List.map_map]
  rfl

/-- The consumed packs and the trailing ones share no index and miss none. -/
theorem consumed_partition {n : ℕ} (batchSize : ℕ) (h : packs.flatten.Perm (List.range n)) :
    (consumed packs batchSize).flatten.Nodup ∧ (∀ i ∈ (consumed packs batchSize).flatten, i < n) ∧
      ∀ i < n, i ∉ (consumed packs batchSize).flatten ↔ i ∈ (packs.rtake (packs.length % batchSize)).flatten := by
  rw [← consumed_append_rtake packs batchSize, List.flatten_append] at h
  have hnodup := h.nodup_iff.2 List.nodup_range
  rw [List.nodup_append'] at hnodup
  refine ⟨hnodup.1, fun i hi => List.mem_range.1 (h.subset (List.mem_append_left _ hi)), fun i hi => ?_⟩
  have hmem := List.mem_append.1 (h.mem_iff.2 (List.mem_range.2 hi))
  exact ⟨hmem.resolve_left, fun htail hin => hnodup.2.2 hin htail⟩

/-- An epoch with a full batch agrees with its statistics. -/
theorem epochAgrees {s : PackedBatchingStats} (hbatch : 1 ≤ batchSize)
    (h : packIndices shuffle (lengthsOf items) packLen seed epoch = .ok packs)
    (hshuffle : (shuffle seed epoch (List.range (lengthsOf items).length)).Perm (List.range (lengthsOf items).length))
    (hs : packedBatchingStats shuffle (lengthsOf items) packLen batchSize seed epoch = .ok s)
    (hfull : packs.length / batchSize ≠ 0) :
    ∃ batches, epochBatches shuffle (truncateItems items packLen) batchSize packLen seed epoch = .ok batches ∧
      EpochAgrees items packLen batchSize packs batches s := by
  have htrunc := (packIndices_truncated items packLen shuffle seed epoch).trans h
  have hused := used_of_packIndices htrunc
  have hrow : ∀ pack ∈ packs,
      PackedRow (entriesOf (truncateItems items packLen) pack) packLen
        (rowOf (truncateItems items packLen) packLen pack) :=
    fun pack hp => layout_packedRow (hused pack hp)
  obtain ⟨s', hs', hnum, hreal, hmean, hsamples⟩ := packedBatchingStats_eq hbatch h hshuffle
  obtain rfl : s = s' := Except.ok.inj (hs.symm.trans hs')
  obtain ⟨honce, hin, hout⟩ := consumed_partition batchSize (packs_perm h hshuffle)
  have hlength : (lengthsOf items).length = items.length := List.length_map _
  rw [hlength] at hin hout
  refine ⟨_, epochBatches_eq hbatch htrunc hused hfull, ?_⟩
  constructor
  · rw [List.length_map, List.length_range, hnum]
  · intro b hb
    obtain ⟨k, hk, rfl⟩ := List.mem_map.1 hb
    apply shaped_ofRows
    · rw [List.length_map, length_batchPacks (List.mem_range.1 hk)]
    · intro r hr
      obtain ⟨pack, hp, rfl⟩ := List.mem_map.1 hr
      exact ⟨_, hrow pack (mem_of_mem_batchPacks hp)⟩
  · refine ⟨(List.range (packs.length / batchSize)).map fun b =>
      (batchPacks packs batchSize b).map (rowOf (truncateItems items packLen) packLen), ?_, ?_⟩
    · rw [List.map_map]
      rfl
    · rw [flatten_rows, List.forall₂_map_right_iff, List.forall₂_same]
      exact fun pack hp => hrow pack (List.mem_of_mem_take hp)
  · exact honce
  · exact hin
  · exact hout
  · refine ⟨by rw [hreal, laidTokens_truncated], ?_⟩
    rw [hmean, perStep_mul _ (hnum ▸ hfull)]
  · rw [hsamples, perStep_mul _ (hnum ▸ hfull), laidSamples_eq]

end Agreement

/-- The epoch raises `PackingError` exactly when the statistics raise or report no batch, and otherwise
yields what they report. -/
theorem packed_iterate_batches_matches_stats (shuffle : Shuffle) (dataset : List DatasetItem) (packLen batchSize : ℕ)
    (seed : Option ℤ) (commGroupSize maxPositionEmbeddings : Option ℕ) (epoch : ℕ) (hbatch : 1 ≤ batchSize)
    (hfence : fence commGroupSize maxPositionEmbeddings packLen = .ok ())
    (hshuffle : (shuffle (seed.getD 0) epoch (List.range dataset.length)).Perm (List.range dataset.length)) :
    let epochRun :=
      packedIterateBatches shuffle dataset batchSize packLen seed commGroupSize maxPositionEmbeddings epoch
    let stats := packedBatchingStats shuffle (lengthsOf (itemsOf dataset)) packLen batchSize (seed.getD 0) epoch
    ((∃ e, epochRun = .error (.packing e)) ↔ (∃ e, stats = .error e) ∨ ∃ s, stats = .ok s ∧ s.numBatches = 0) ∧
      ∀ s, stats = .ok s → s.numBatches ≠ 0 → ∃ packs batches,
        packIndices shuffle (lengthsOf (itemsOf dataset)) packLen (seed.getD 0) epoch = .ok packs ∧
        epochRun = .ok batches ∧ EpochAgrees (itemsOf dataset) packLen batchSize packs batches s := by
  intro epochRun stats
  have hlength : (lengthsOf (itemsOf dataset)).length = dataset.length :=
    (List.length_map _).trans (List.length_map _)
  rw [← hlength] at hshuffle
  have hrun : epochRun =
      epochBatches shuffle (truncateItems (itemsOf dataset) packLen) batchSize packLen (seed.getD 0) epoch := by
    change (fence commGroupSize maxPositionEmbeddings packLen).mapError EpochError.packing >>= _ = _
    rw [hfence]
    rfl
  have htrunc := packIndices_truncated (itemsOf dataset) packLen shuffle (seed.getD 0) epoch
  rw [hrun]
  cases hpacks : packIndices shuffle (lengthsOf (itemsOf dataset)) packLen (seed.getD 0) epoch with
  | error e =>
    -- Both scans refuse the dataset for the same reason.
    have hstats : stats = .error e := packedBatchingStats_error hbatch hpacks
    rw [hstats]
    refine ⟨iff_of_true ⟨e, ?_⟩ (.inl ⟨e, rfl⟩), fun s hs => nomatch hs⟩
    rw [epochBatches, htrunc, hpacks]
    rfl
  | ok packs =>
    obtain ⟨s, hs, hnum, -⟩ := packedBatchingStats_eq hbatch hpacks hshuffle
    have hstats : stats = .ok s := hs
    rw [hstats]
    by_cases hfull : packs.length / batchSize = 0
    · refine ⟨iff_of_true (epochBatches_short hbatch (htrunc.trans hpacks) hfull) (.inr ⟨s, rfl, hnum.trans hfull⟩), ?_⟩
      rintro s' hs' hne
      obtain rfl := Except.ok.inj hs'
      exact absurd (hnum.trans hfull) hne
    · obtain ⟨batches, hbatches, hagree⟩ := epochAgrees hbatch hpacks hshuffle hs hfull
      constructor
      · refine iff_of_false ?_ ?_
        · rintro ⟨e, he⟩
          exact nomatch hbatches.symm.trans he
        · rintro (⟨e, he⟩ | ⟨s', hs', hzero⟩)
          · cases he
          · obtain rfl := Except.ok.inj hs'
            exact hfull (hnum.symm.trans hzero)
      · rintro s' hs' -
        obtain rfl := Except.ok.inj hs'
        exact ⟨packs, batches, rfl, hbatches, hagree⟩

/-- Four items, the longest truncated, one row a batch: `random.Random("0:0")` visits them as 2, 3, 1, 0. -/
theorem packed_iterate_batches_matches_stats_four :
    let shuffle : Shuffle := fun _ _ order => if order = [0, 1, 2, 3] then [2, 3, 1, 0] else order
    let dataset : List DatasetItem := [.pair [5, 6, 7] 2, .bare [8, 9, 4, 3, 2, 1], .bare [8], .pair [4, 4] 1]
    ∃ s packs batches, packedBatchingStats shuffle [3, 6, 1, 2] 4 1 0 0 = .ok s ∧ s.numBatches = 3 ∧
      s.realTokensTotal = 10 ∧ packedIterateBatches shuffle dataset 1 4 none (some 1) none 0 = .ok batches ∧
      EpochAgrees (itemsOf dataset) 4 1 packs batches s := by
  obtain ⟨-, hagree⟩ := packed_iterate_batches_matches_stats
    (fun _ _ order => if order = [0, 1, 2, 3] then [2, 3, 1, 0] else order)
    [.pair [5, 6, 7] 2, .bare [8, 9, 4, 3, 2, 1], .bare [8], .pair [4, 4] 1] 4 1 none (some 1) none 0 (by decide) rfl
    (by decide)
  obtain ⟨packs, batches, -, hbatches, hs⟩ := hagree _ rfl (by decide)
  exact ⟨_, packs, batches, rfl, by decide, by decide, hbatches, hs⟩

end MlxTrainPerf.Packing
