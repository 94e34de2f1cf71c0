import MlxTrainPerf.Adapters.PackedLoss
/-!
# Packed training

The closures over a dataset: the batches of an epoch of the packed iterator, and the
stock batches of the same sequences. Packing changes neither the loss of a step nor its
token count.
-/
open Loops XReal PyList

namespace MlxTrainPerf.Adapters

open Attention Packing
open MlxTrainPerf.Core

/-! ## A model and a dataset -/

/-- What a model needs of a dataset: rotations that turn by distance, packed words that are `uint32`, and a vocabulary
that holds every token and the pad. -/
structure LmModel.Reads (m : LmModel) (items : List Entry) : Prop where
  relative : m.Relative
  words : ∀ split, splitModel m = .ok split → ∀ head, split.head = .quantized head → ∀ r w, head.wQ r w < 2 ^ 32
  pad : ∀ split, splitModel m = .ok split → 0 < split.head.v
  ids : ∀ split, splitModel m = .ok split → ∀ e ∈ items, ∀ t ∈ e.tokens, 0 ≤ t ∧ t < split.head.v

section Dataset
variable {dev : AttentionDevice} {mems : ℕ → Memory} {m : LmModel} {items es : List Entry} {batch : List (List ℕ)} {L : ℕ}

/-- A slot of a row is a token, or a pad. -/
theorem LmModel.Reads.getD_id {split : SplitHead} (h : m.Reads items) (hsplit : splitModel m = .ok split) {tokens : List ℤ}
    (htokens : ∀ t ∈ tokens, 0 ≤ t ∧ t < split.head.v) (k : ℕ) : 0 ≤ tokens.getD k 0 ∧ tokens.getD k 0 < split.head.v := by
  rcases Nat.lt_or_ge k tokens.length with hk | hk
  · rw [List.getD_eq_getElem _ _ hk]
    exact htokens _ (List.getElem_mem hk)
  · rw [List.getD_eq_default _ _ hk]
    exact ⟨le_refl 0, by exact_mod_cast h.pad split hsplit⟩

theorem LmModel.Reads.cut {split : SplitHead} (h : m.Reads items) (hsplit : splitModel m = .ok split) (i : ℕ) :
    ∀ t ∈ (cutTo L (entryAt items i)).tokens, 0 ≤ t ∧ t < split.head.v := by
  intro t ht
  have ht : t ∈ (entryAt items i).tokens := List.mem_of_mem_take ht
  unfold entryAt at ht
  rcases Nat.lt_or_ge i items.length with hi | hi
  · rw [List.getD_eq_getElem _ _ hi] at ht
    exact h.ids split hsplit _ (List.getElem_mem hi) t ht
  · rw [List.getD_eq_default _ _ hi] at ht
    cases ht

/-- The rows of these packs. -/
def packGroups (items : List Entry) (L : ℕ) (batch : List (List ℕ)) : List (List Entry) :=
  batch.map (entriesOf (truncateItems items L))

/-- The sequences of these packs, as the trainer reads them. -/
def sequencesOf (items : List Entry) (L : ℕ) (batch : List (List ℕ)) : List Entry :=
  batch.flatten.map fun i => cutTo L (entryAt items i)

theorem entriesOf_truncated (pack : List ℕ) :
    entriesOf (truncateItems items L) pack = pack.map fun i => cutTo L (entryAt items i) := by
  unfold entriesOf
  apply List.map_congr_left
  intro i _
  exact entryAt_truncateItems items L i

theorem flatten_packGroups : (packGroups items L batch).flatten = sequencesOf items L batch := by
  unfold packGroups sequencesOf
  rw [List.map_flatten]
  apply congrArg
  apply List.map_congr_left
  intro pack _
  exact entriesOf_truncated pack

/-- A segment of a row is a sequence of the dataset, or the tail. -/
theorem entryAt_rowEntries (b s : ℕ) : entryAt (rowEntries (packGroups items L batch) b) s = ⟨[], 0⟩ ∨
    ∃ i, entryAt (rowEntries (packGroups items L batch) b) s = cutTo L (entryAt items i) := by
  have hrow : rowEntries (packGroups items L batch) b = (batch.getD b []).map fun i => cutTo L (entryAt items i) := by
    rw [← entriesOf_truncated]
    unfold rowEntries packGroups
    rw [List.getD_eq_getElem?_getD, List.getElem?_map, List.getD_eq_getElem?_getD]
    cases batch[b]? with
    | none => rfl
    | some pack => rfl
  rw [hrow]
  unfold entryAt
  rw [List.getD_eq_getElem?_getD, List.getElem?_map]
  cases (batch.getD b [])[s]? with
  | none => exact Or.inl rfl
  | some i => exact Or.inr ⟨i, rfl⟩

theorem packedStep_fits (hreads : m.Reads items) (hne : batch ≠ []) :
    (packedStep dev mems m (layoutBatch (packGroups items L batch) L)).Fits where
  words := hreads.words
  targets := by
    intro split hsplit row hrow
    have hgroups : packGroups items L batch ≠ [] := by
      unfold packGroups
      rwa [ne_eq, List.map_eq_nil_iff]
    have hb : (packedStep dev mems m (layoutBatch (packGroups items L batch) L)).b = (packGroups items L batch).length :=
      layoutBatch_length
    have hn : (packedStep dev mems m (layoutBatch (packGroups items L batch) L)).n = L := inputWidth_layoutBatch hgroups
    rw [hb, hn] at hrow
    have hL : 0 < L := by
      apply Nat.pos_of_ne_zero
      rintro rfl
      exact absurd hrow (by simp)
    have hrow : row / L < (packGroups items L batch).length := Nat.div_lt_of_lt_mul (by rwa [Nat.mul_comm] at hrow)
    have hcol : row % L < L := Nat.mod_lt _ hL
    have hlist : (layoutBatch (packGroups items L batch) L).batch.getD (row / L) [] =
        (layout (rowEntries (packGroups items L batch) (row / L)) L).row := getD_layouts Row.row hrow
    -- Target `k` of a row is slot `k + 1`: a token of the sequence that owns it, or a zero behind the last one.
    have hslot : (packedStep dev mems m (layoutBatch (packGroups items L batch) L)).targets (row / L) (row % L) =
        tokenAt (rowEntries (packGroups items L batch) (row / L)) (row % L + 1) := by
      unfold packedStep arrayOf ptr
      dsimp only
      rw [hlist]
      unfold layout
      dsimp only
      rw [getD_range_map, if_pos (by omega)]
    rw [hn, hslot]
    apply hreads.getD_id hsplit
    rcases @entryAt_rowEntries items batch L (row / L)
        (owner (rowEntries (packGroups items L batch) (row / L)) (row % L + 1)) with hentry | ⟨i, hentry⟩
    · rw [hentry]
      exact fun t ht => absurd ht List.not_mem_nil
    · rw [hentry]
      exact hreads.cut hsplit i

theorem stockStep_fits {layers : List Layer} (hreads : m.Reads items) (hne : es ≠ [])
    (hes : ∀ e ∈ es, ∃ i, e = entryAt items i) :
    (stockStep dev mems m layers (stockRows es L) (es.map (stockLengths · L))).Fits where
  words := hreads.words
  targets := by
    intro split hsplit row hrow
    have hb : (stockStep dev mems m layers (stockRows es L) (es.map (stockLengths · L))).b = es.length := List.length_map _
    have hn : (stockStep dev mems m layers (stockRows es L) (es.map (stockLengths · L))).n = stockWidth (widest es) L - 1 :=
      inputWidth_stockRows hne
    rw [hb, hn] at hrow
    have hwidth : 0 < stockWidth (widest es) L - 1 := by
      apply Nat.pos_of_ne_zero
      intro hzero
      rw [hzero, Nat.mul_zero] at hrow
      cases hrow
    have hrow : row / (stockWidth (widest es) L - 1) < es.length :=
      Nat.div_lt_of_lt_mul (by rwa [Nat.mul_comm] at hrow)
    have hcol : row % (stockWidth (widest es) L - 1) < stockWidth (widest es) L - 1 := Nat.mod_lt _ hwidth
    have hslot := @arrayOf_stockRows es L _ (row % (stockWidth (widest es) L - 1) + 1) hrow (by omega)
    unfold stockStep at hn ⊢
    dsimp only at hn ⊢
    rw [hn, hslot]
    apply hreads.getD_id hsplit
    have hmem : entryAt es (row / (stockWidth (widest es) L - 1)) ∈ es := by
      unfold entryAt
      rw [List.getD_eq_getElem _ _ hrow]
      exact List.getElem_mem hrow
    obtain ⟨i, hi⟩ := hes _ hmem
    rw [hi]
    exact hreads.cut hsplit i

/-- What the packer lays out fits. -/
theorem packGroups_fit {shuffle : Shuffle} {seed : ℤ} {epoch : ℕ} {packs : List (List ℕ)}
    (hpacks : packIndices shuffle (lengthsOf items) L seed epoch = .ok packs) (hbatch : ∀ pack ∈ batch, pack ∈ packs) :
    ∀ entries ∈ packGroups items L batch, used entries ≤ L + 1 := by
  intro entries hentries
  obtain ⟨pack, hpack, rfl⟩ := List.mem_map.1 hentries
  exact used_of_packIndices ((packIndices_truncated items L shuffle seed epoch).trans hpacks) pack (hbatch pack hpack)

/-- A call of the packed closure on packs the packer made. -/
theorem packedStep_sequences {dequantize : Dequantize} {out : LossOut} {shuffle : Shuffle} {seed : ℤ} {epoch : ℕ}
    {packs : List (List ℕ)} (hreads : m.Reads items) (hL : L < 2 ^ 31)
    (hpacks : packIndices shuffle (lengthsOf items) L seed epoch = .ok packs) (hne : batch ≠ [])
    (hbatch : ∀ pack ∈ batch, pack ∈ packs)
    (h : (packedStep dev mems m (layoutBatch (packGroups items L batch) L)).IsLoss dequantize out) :
    ∃ split layers, splitModel m = .ok split ∧ m.layers = layers.map .wrapped ∧
      out = meanLoss (tokenLoss dequantize split.head m.width (m.trunk layers)) (sequencesOf items L batch) := by
  have hgroups : packGroups items L batch ≠ [] := by
    unfold packGroups
    rwa [ne_eq, List.map_eq_nil_iff]
  obtain ⟨split, layers, hsplit, hlayers, hout⟩ := packedStep_isLoss hreads.relative hL hgroups (packGroups_fit hpacks hbatch) h
  rw [flatten_packGroups] at hout
  exact ⟨split, layers, hsplit, hlayers, hout⟩

end Dataset

/-- A batch of an epoch, by its packs. -/
theorem epoch_packs {shuffle : Shuffle} {dataset : List DatasetItem} {batchSize L epoch : ℕ} {seed : Option ℤ}
    {commGroupSize maxPositionEmbeddings : Option ℕ} {batches : List Batch}
    (h : packedIterateBatches shuffle dataset batchSize L seed commGroupSize maxPositionEmbeddings epoch = .ok batches) :
    ∃ packs, packIndices shuffle (lengthsOf (itemsOf dataset)) L (seed.getD 0) epoch = .ok packs ∧
      ∀ x ∈ batches, ∃ batch, batch ≠ [] ∧ (∀ pack ∈ batch, pack ∈ packs) ∧
        x = layoutBatch (packGroups (itemsOf dataset) L batch) L := by
  obtain ⟨-, -, hepoch⟩ := Budget.bind_eq_ok.1 h
  have hpacks : ∃ packs, packIndices shuffle (lengthsOf (truncateItems (itemsOf dataset) L)) L (seed.getD 0) epoch = .ok packs := by
    obtain ⟨packs, hpacks, -⟩ := Budget.bind_eq_ok.1 hepoch
    exact ⟨packs, Budget.mapError_eq_ok.1 hpacks⟩
  obtain ⟨packs, hpacks⟩ := hpacks
  refine ⟨packs, (packIndices_truncated _ L shuffle _ epoch).symm.trans hpacks, ?_⟩
  -- What was yielded was a full batch.
  have hbatch : 1 ≤ batchSize := by
    apply Nat.one_le_iff_ne_zero.2
    rintro rfl
    unfold epochBatches at hepoch
    rw [hpacks] at hepoch
    cases hepoch
  have hfull : packs.length / batchSize ≠ 0 := by
    intro hshort
    obtain ⟨e, he⟩ := epochBatches_short hbatch hpacks hshort
    cases he.symm.trans hepoch
  rw [epochBatches_eq hbatch hpacks (used_of_packIndices hpacks) hfull] at hepoch
  obtain rfl := Except.ok.inj hepoch
  intro x hx
  obtain ⟨b, hb, rfl⟩ := List.mem_map.1 hx
  refine ⟨batchPacks packs batchSize b, ?_, fun pack hpack => mem_of_mem_batchPacks hpack, ?_⟩
  · intro hnil
    have hlength := length_batchPacks (List.mem_range.1 hb)
    rw [hnil, List.length_nil] at hlength
    omega
  · unfold layoutBatch packGroups
    rw [List.map_map]
    rfl

/-- A call of the packed closure: the model of its step, the buffers of its launches, and a batch. -/
structure PackedCall where
  model : LmModel
  mems : ℕ → Memory
  batch : Batch

/-- Training on the packed batches of an epoch: whatever was resolved before, and however the model changes from step to
step, each loss that comes back is the mean, over the supervised steps of the sequences in its batch's packs, of what the
model of that step loses on each sequence alone. -/
theorem packed_epoch_losses (dequantize : Dequantize) (haffine : Affine dequantize) (dev : Device) (impl : Impl)
    (allowUnverified : Bool) (resolved : Option ResolvedImpl) (attn : AttentionDevice) (shuffle : Shuffle)
    (dataset : List DatasetItem) (batchSize L : ℕ) (hL : L < 2 ^ 31) (seed : Option ℤ)
    (commGroupSize maxPositionEmbeddings : Option ℕ) (epoch : ℕ) (batches : List Batch)
    (hepoch : packedIterateBatches shuffle dataset batchSize L seed commGroupSize maxPositionEmbeddings epoch = .ok batches)
    (calls : List PackedCall) (hcalls : ∀ c ∈ calls, c.batch ∈ batches ∧ c.model.Reads (itemsOf dataset)) :
    ∃ packs, packIndices shuffle (lengthsOf (itemsOf dataset)) L (seed.getD 0) epoch = .ok packs ∧
      List.Forall₂ (fun c result => ∀ out, result = .ok out → ∃ batch split layers, (∀ pack ∈ batch, pack ∈ packs) ∧
          c.batch = layoutBatch (packGroups (itemsOf dataset) L batch) L ∧
          splitModel c.model = .ok split ∧ c.model.layers = layers.map .wrapped ∧
          out = meanLoss (tokenLoss dequantize split.head c.model.width (c.model.trunk layers))
            (sequencesOf (itemsOf dataset) L batch))
        calls (runLossFn dequantize dev impl allowUnverified resolved
          (calls.map fun c => packedStep attn c.mems c.model c.batch)) := by
  obtain ⟨packs, hpacks, hbatches⟩ := epoch_packs hepoch
  refine ⟨packs, hpacks, ?_⟩
  have hfits : ∀ s ∈ calls.map fun c => packedStep attn c.mems c.model c.batch, s.Fits := by
    intro s hs
    obtain ⟨c, hc, rfl⟩ := List.mem_map.1 hs
    obtain ⟨hmem, hreads⟩ := hcalls c hc
    obtain ⟨batch, hne, -, hbatch⟩ := hbatches c.batch hmem
    rw [hbatch]
    exact packedStep_fits hreads hne
  have hrun := List.forall₂_map_left_iff.1 (@runLossFn_isLoss dequantize dev impl allowUnverified resolved haffine _ hfits)
  -- Call by call: what it lost, beside the packs of its own batch.
  rw [List.forall₂_iff_get] at hrun ⊢
  refine ⟨hrun.1, fun k hk hk' out hout => ?_⟩
  have hloss := hrun.2 k hk hk' out hout
  obtain ⟨hmem, hreads⟩ := hcalls (calls.get ⟨k, hk⟩) (List.get_mem _ _)
  obtain ⟨batch, hne, hsub, hbatch⟩ := hbatches _ hmem
  rw [hbatch] at hloss
  obtain ⟨split, layers, hsplit, hlayers, hmean⟩ := packedStep_sequences hreads hL hpacks hne hsub hloss
  exact ⟨batch, split, layers, hsub, hbatch, hsplit, hlayers, hmean⟩

/-- A packed batch and a stock batch of the same sequences, in whatever order, have one loss and one token count, where both
calls return and no sequence that fills `max_seq_length` is supervised to its end: not the implementation, the device, nor
the other sequences of a row make a difference. -/
theorem packed_loss_eq_stock (dequantize : Dequantize) (haffine : Affine dequantize) (dev dev' : Device) (impl impl' : Impl)
    (allow allow' : Bool) (resolved resolved' : Option ResolvedImpl) (attn attn' : AttentionDevice) (mems mems' : ℕ → Memory)
    (m : LmModel) (layers : List Layer) (hlayers : m.layers = layers.map .wrapped) (items : List Entry) (hreads : m.Reads items)
    (shuffle : Shuffle) (L : ℕ) (hL : L < 2 ^ 31) (seed : ℤ) (epoch : ℕ) (packs batch : List (List ℕ))
    (hpacks : packIndices shuffle (lengthsOf items) L seed epoch = .ok packs) (hbatch : ∀ pack ∈ batch, pack ∈ packs)
    (x : Batch) (hx : batchOf (truncateItems items L) L batch = .ok x) (es : List Entry) (hne : es ≠ [])
    (hes : es.Perm (batch.flatten.map (entryAt items))) (htargeted : ∀ e ∈ es, Targeted L e)
    (out out' : LossOut)
    (hpacked : (lossStep dequantize dev impl allow resolved (packedStep attn mems m x)).1 = .ok out)
    (hstock : (lossStep dequantize dev' impl' allow' resolved'
      (stockStep attn' mems' m layers (stockRows es L) (es.map (stockLengths · L)))).1 = .ok out') : out = out' := by
  have hbatchNe : batch ≠ [] := by
    rintro rfl
    exact hne (List.perm_nil.1 hes)
  have hmem : ∀ e ∈ es, ∃ i, e = entryAt items i := by
    intro e he
    obtain ⟨i, -, hi⟩ := List.mem_map.1 (hes.subset he)
    exact ⟨i, hi.symm⟩
  obtain rfl : layoutBatch (packGroups items L batch) L = x := by
    rw [batchOf_eq fun pack hpack => packGroups_fit hpacks hbatch _ (List.mem_map_of_mem hpack)] at hx
    rw [← Except.ok.inj hx]
    unfold layoutBatch packGroups
    rw [List.map_map]
    rfl
  obtain ⟨split, layers', hsplit, hlayers', rfl⟩ := packedStep_sequences hreads hL hpacks hbatchNe hbatch
    (lossStep_isLoss haffine (packedStep_fits hreads hbatchNe) hpacked)
  obtain ⟨split', hsplit', rfl⟩ := stockStep_isLoss hreads.relative hlayers hne htargeted
    (lossStep_isLoss haffine (stockStep_fits hreads hne hmem) hstock)
  obtain rfl := Except.ok.inj (hsplit.symm.trans hsplit')
  have hsame : layers' = layers := by
    have hmaps := hlayers'.symm.trans hlayers
    exact List.map_injective_iff.2 (fun l l' h => LayerModule.wrapped.inj h) hmaps
  rw [hsame]
  -- Two means over the same sequences, in two orders.
  apply meanLoss_perm
  have hcut := (hes.map (cutTo L)).symm
  rw [List.map_map] at hcut
  exact hcut

/-! ## Two short sequences -/

noncomputable section

/-- The plane turned by `i` radians. -/
def turn (i : ℕ) (x : Vec) : Vec := fun c =>
  if c = 0 then Real.cos i * x 0 - Real.sin i * x 1 else Real.sin i * x 0 + Real.cos i * x 1

/-- One head of two columns, turned by position. -/
def turningHead : AttentionModule := ⟨id, id, id, id, none, turn, 1, 1, 2, 1, .float32⟩

def turningLayer : Layer := ⟨id, turningHead, .reference, fun h a c => h c + a c⟩

/-- One layer, a vocabulary of two. -/
def turningModel : LmModel where
  moduleName := "mlx_lm.models.llama"
  embedTokens := fun t _ => t
  layers := [.wrapped turningLayer]
  norm := id
  width := 2
  dtype := .float32
  tied := false
  embedding := .other "Embedding"
  lmHead := .linear ⟨2, 2, .float32, fun r k => r + k, Kernel.oneRow.v_int32⟩ true
  languageModel := none

end

def shortItems : List Entry := [⟨[0, 1], 0⟩, ⟨[1], 0⟩]

theorem turn_zero (i : ℕ) (x : Vec) : turn i x 0 = Real.cos i * x 0 - Real.sin i * x 1 := if_pos rfl

theorem turn_one (i : ℕ) (x : Vec) : turn i x 1 = Real.sin i * x 0 + Real.cos i * x 1 := if_neg one_ne_zero

theorem turningHead_relative : turningHead.Relative := by
  intro a i j x y
  have hd : turningHead.headDim = 2 := rfl
  have hturn : turningHead.rope = turn := rfl
  rw [hd, hturn, Finset.sum_range_succ, Finset.sum_range_one, Finset.sum_range_succ, Finset.sum_range_one]
  simp only [turn_zero, turn_one, Nat.cast_add, Real.cos_add, Real.sin_add]
  -- Turning both by `a` leaves the product as it is.
  linear_combination
    ((Real.cos i * x 0 - Real.sin i * x 1) * (Real.cos j * y 0 - Real.sin j * y 1) +
      (Real.sin i * x 0 + Real.cos i * x 1) * (Real.sin j * y 0 + Real.cos j * y 1)) * Real.sin_sq_add_cos_sq a

theorem turningModel_reads : turningModel.Reads shortItems where
  relative := by
    intro l hl
    obtain rfl := LayerModule.wrapped.inj (List.mem_singleton.1 hl)
    exact turningHead_relative
  words := by
    intro split hsplit head hhead
    obtain rfl := Except.ok.inj hsplit
    cases hhead
  pad := by
    intro split hsplit
    obtain rfl := Except.ok.inj hsplit
    exact Nat.zero_lt_two
  ids := by
    intro split hsplit
    obtain rfl := Except.ok.inj hsplit
    show ∀ e ∈ shortItems, ∀ t ∈ e.tokens, 0 ≤ t ∧ t < 2
    decide

/-- The model's walk returns under any mask that is accepted. -/
theorem turningModel_hidden {dev : AttentionDevice} {mems : ℕ → Memory} {b n : ℕ} {mask : Mask}
    {segments : Option SegBuffers} (inputs : ℕ → ℕ → ℤ) (hmask : resolveMask mask = .ok segments) (hb : ¬b < 1) :
    ∃ y, (turningModel.trunk [turningLayer]).hidden dev mems b n mask inputs = .ok y := by
  have hshapes : validateShapes [b, 1, n, 2] [b, 1, n, 2] [b, 1, n, 2] = .ok (turningHead.shape b n) := by
    refine Budget.bind_eq_ok.2 ⟨_, rfl, Budget.bind_eq_ok.2 ⟨_, rfl, Budget.bind_eq_ok.2 ⟨_, rfl, ?_⟩⟩⟩
    dsimp only
    rw [if_neg hb]
    simp [AttentionModule.shape, turningHead]
  obtain ⟨y, hy⟩ := @wrapperCall_reference dev (mems 0) turningHead b n (fun b i => turningLayer.inputNorm
    (turningModel.embedTokens (inputs b i))) mask segments hmask hshapes
  exact ⟨_, Budget.bind_eq_ok.2 ⟨_, Budget.bind_eq_ok.2 ⟨_, Budget.bind_eq_ok.2 ⟨y, hy, rfl⟩, rfl⟩, rfl⟩⟩

/-- A naive call of a closure returns when its inputs are accepted. -/
theorem lossStep_naive {dev : Device} {s : Step} {split : SplitHead} {hidden : Rows} (hsplit : splitModel s.model = .ok split)
    (hhidden : s.hidden = .ok hidden) (hrows : s.b * s.n ≠ 0)
    (hcheck : checkCall (s.lossCall split.head hidden .naive) = .ok ()) :
    ∃ out, lossStep affineRow dev .naive false none s = (.ok out, some .naive) := by
  have honce : resolveOnce dev .naive false split.head s.model.dtype (s.b * s.n) none = .ok .naive := by
    unfold resolveOnce resolveImpl
    dsimp only
    rw [if_neg hrows]
    rfl
  obtain ⟨value, hvalue⟩ : ∃ value, lossOn affineRow dev false (s.lossCall split.head hidden .naive) = .ok value :=
    ⟨_, Budget.bind_eq_ok.2 ⟨(), hcheck, rfl⟩⟩
  refine ⟨s.masked fun row => (nllOf value).getD row nan, ?_⟩
  unfold lossStep
  rw [hsplit, hhidden]
  dsimp only
  rw [honce]
  dsimp only [implOf]
  rw [hvalue]
  rfl

/-- Both sequences in one row. -/
def shortBatch : Batch := ⟨[[0, 1, 0, 1, 0, 0]], [[0, 0, 0, 1, 1]], [[0, 0, 0, 3, 3]], [[true, true, false, true, false]]⟩

theorem packed_short_ok (mems : ℕ → Memory) :
    ∃ out, lossStep affineRow fastDevice .naive false none (packedStep fastMetal mems turningModel shortBatch) =
      (.ok out, some .naive) := by
  obtain ⟨y, hy⟩ := @turningModel_hidden fastMetal mems 1 5 (.packed ⟨arrayOf shortBatch.segId, arrayOf shortBatch.segStart⟩)
    _ (arrayOf shortBatch.batch) rfl (by decide)
  have hhidden : (packedStep fastMetal mems turningModel shortBatch).hidden = .ok y := by
    have hfamily : ¬turningModel.moduleName = Recurrent.qwen35Module := by decide
    unfold packedStep packedHidden
    dsimp only
    rw [if_neg hfamily]
    exact Budget.bind_eq_ok.2 ⟨[turningLayer], rfl, Budget.mapError_eq_ok.2 hy⟩
  exact lossStep_naive rfl hhidden (show 1 * 5 ≠ 0 by decide) rfl

theorem stock_short_ok (mems : ℕ → Memory) :
    ∃ out, lossStep affineRow fastDevice .naive false none (stockStep fastMetal mems turningModel [turningLayer]
      (stockRows shortItems.reverse 5) (shortItems.reverse.map (stockLengths · 5))) = (.ok out, some .naive) := by
  obtain ⟨y, hy⟩ := @turningModel_hidden fastMetal mems 2 4 (.str "causal") _ (arrayOf (stockRows shortItems.reverse 5)) rfl
    (by decide)
  have hhidden : (stockStep fastMetal mems turningModel [turningLayer] (stockRows shortItems.reverse 5)
      (shortItems.reverse.map (stockLengths · 5))).hidden = .ok y :=
    congrArg (Except.mapError AdapterError.attention) hy
  exact lossStep_naive rfl hhidden (show 2 * 4 ≠ 0 by decide) rfl

/-- The two in one row, and in two rows the other way round. -/
theorem packed_loss_eq_stock_short : ∃ out,
    (lossStep affineRow fastDevice .naive false none (packedStep fastMetal (fun _ => nanMemory) turningModel shortBatch)).1 =
      .ok out ∧
    (lossStep affineRow fastDevice .naive false none (stockStep fastMetal (fun _ => nanMemory) turningModel [turningLayer]
      (stockRows shortItems.reverse 5) (shortItems.reverse.map (stockLengths · 5)))).1 = .ok out := by
  obtain ⟨out, hout⟩ := packed_short_ok fun _ => nanMemory
  obtain ⟨out', hout'⟩ := stock_short_ok fun _ => nanMemory
  obtain rfl := packed_loss_eq_stock affineRow (fun _ _ _ _ => rfl) fastDevice fastDevice .naive .naive false false none none
    fastMetal fastMetal (fun _ => nanMemory) (fun _ => nanMemory) turningModel [turningLayer] rfl shortItems turningModel_reads
    (fun _ _ order => order) 5 (by decide) 0 0 [[0, 1]] [[0, 1]] (by decide) (by decide) shortBatch (by decide)
    shortItems.reverse (by decide) (by decide) (by unfold Targeted; decide) out out' (congrArg Prod.fst hout)
    (congrArg Prod.fst hout')
  exact ⟨out, congrArg Prod.fst hout, congrArg Prod.fst hout'⟩

/-- An epoch of the one batch. -/
theorem packed_epoch_losses_short : ∃ out,
    runLossFn affineRow fastDevice .naive false none [packedStep fastMetal (fun _ => nanMemory) turningModel shortBatch] =
      [.ok out] ∧
    ∃ batch split layers, splitModel turningModel = .ok split ∧ turningModel.layers = layers.map .wrapped ∧
      out = meanLoss (tokenLoss affineRow split.head 2 (turningModel.trunk layers)) (sequencesOf shortItems 5 batch) := by
  obtain ⟨out, hout⟩ := packed_short_ok fun _ => nanMemory
  have hrun : runLossFn affineRow fastDevice .naive false none
      [packedStep fastMetal (fun _ => nanMemory) turningModel shortBatch] = [.ok out] := by
    unfold runLossFn
    rw [hout]
    rfl
  obtain ⟨packs, -, hlosses⟩ := packed_epoch_losses affineRow (fun _ _ _ _ => rfl) fastDevice .naive false none fastMetal
    (fun _ _ order => order) [.bare [0, 1], .bare [1]] 1 5 (by decide) none none none 0 [shortBatch] (by decide)
    [⟨turningModel, fun _ => nanMemory, shortBatch⟩] fun c hc => by
      obtain rfl := List.mem_singleton.1 hc
      exact ⟨List.mem_singleton_self _, turningModel_reads⟩
  rw [List.map_singleton, hrun] at hlosses
  obtain ⟨batch, split, layers, -, -, hsplit, hlayers, hmean⟩ := (List.forall₂_cons.1 hlosses).1 out rfl
  exact ⟨out, hrun, batch, split, layers, hsplit, hlayers, hmean⟩

end MlxTrainPerf.Adapters
