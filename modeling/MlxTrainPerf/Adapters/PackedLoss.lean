import MlxTrainPerf.Data.MaskedSum
import MlxTrainPerf.Data.Epoch
import MlxTrainPerf.Adapters.LossFn
/-!
# The packed loss

What `make_packed_loss_fn` and `make_loss_fn` compute of the batches they get. A
sequence in a packed row sees itself alone, and so does a sequence in a stock row of
its own: either loss is the mean, over the supervised steps of the batch's sequences,
of what each sequence loses by itself.
-/
open Loops XReal PyList

namespace MlxTrainPerf.Adapters

open Attention Packing
open MlxTrainPerf.Core

/-! ## The calls -/

/-- A `(B, L)` array, from its rows. -/
def arrayOf (rows : List (List ℤ)) (b i : ℕ) : ℤ := ptr (rows.getD b []) i

/-- `targets.shape[1]`, of a batch. -/
def inputWidth (rows : List (List ℤ)) : ℕ := (rows.headD []).length - 1

/-- The inner model, once its layers are wrapped. -/
def LmModel.trunk (m : LmModel) (layers : List Layer) : Trunk := ⟨m.embedTokens, layers, m.norm⟩

noncomputable section

/-- `pm = PackedMask(..)` and the walk. -/
def packedHidden (dev : AttentionDevice) (mems : ℕ → Memory) (m : LmModel) (x : Batch) : Except AdapterError Rows :=
  if m.moduleName = Recurrent.qwen35Module then .error .attribute
  else do
    let layers ← wrappedLayers .stock m.layers
    ((m.trunk layers).hidden dev mems x.batch.length (inputWidth x.batch) (.packed ⟨arrayOf x.segId, arrayOf x.segStart⟩)
      (arrayOf x.batch)).mapError .attention

/-- A call of the packed closure. -/
def packedStep (dev : AttentionDevice) (mems : ℕ → Memory) (m : LmModel) (x : Batch) : Step where
  model := m
  b := x.batch.length
  n := inputWidth x.batch
  hidden := packedHidden dev mems m x
  targets := fun b i => arrayOf x.batch b (i + 1)
  mask := fun b i => (x.lossMask.getD b []).getD i false

/-- The mask an mlx-lm model hands its layers. -/
def modelMask (n : ℕ) : Mask := if n = 1 then .none else .str "causal"

/-- A call of the stock closure, with a model whose layers are these, all wrapped. -/
def stockStep (dev : AttentionDevice) (mems : ℕ → Memory) (m : LmModel) (layers : List Layer) (rows : List (List ℤ))
    (lengths : List (ℤ × ℤ)) : Step where
  model := m
  b := rows.length
  n := inputWidth rows
  hidden := ((m.trunk layers).hidden dev mems rows.length (inputWidth rows) (modelMask (inputWidth rows)) (arrayOf rows)).mapError
    .attention
  targets := fun b i => arrayOf rows b (i + 1)
  mask := fun b i => decide ((lengths.getD b (0, 0)).1 ≤ i + 1 ∧ (i + 1 : ℤ) ≤ (lengths.getD b (0, 0)).2)

/-! ## What a sequence loses -/

/-- A row's loss, of its hidden state and its target. -/
def headNll (dequantize : Dequantize) (head : HeadRef) (width : ℕ) (x : Vec) (target : ℤ) : ℝ :=
  let c : LossCall := ⟨⟨[1, width], .float32, fun _ => x⟩, head, ⟨[1], .int32, fun _ => target⟩, .naive, none, .none, false⟩
  (c.args dequantize).nll 0

/-- What a sequence loses at step `k`, with the model to itself. -/
def tokenLoss (dequantize : Dequantize) (head : HeadRef) (width : ℕ) (t : Trunk) (tokens : List ℤ) (k : ℕ) : ℝ :=
  headNll dequantize head width (t.alone (fun i => tokens.getD i 0) k) (tokens.getD (k + 1) 0)

/-- Supervised steps of these sequences. -/
def stepCount (es : List Entry) : ℕ := (es.map fun e => overSteps e fun _ => 1).sum

/-- The mean over the supervised steps of these sequences. -/
def meanLoss (loss : List ℤ → ℕ → ℝ) (es : List Entry) : LossOut where
  loss := real (es.map fun e => overSteps e (loss e.tokens)).sum * (real (stepCount es)).recip
  ntoks := stepCount es

end

/-- Every rotation of the model turns by distance. -/
def LmModel.Relative (m : LmModel) : Prop := ∀ l, .wrapped l ∈ m.layers → l.selfAttn.Relative

theorem meanLoss_perm {loss : List ℤ → ℕ → ℝ} {es es' : List Entry} (h : es.Perm es') : meanLoss loss es = meanLoss loss es' := by
  unfold meanLoss stepCount
  rw [(h.map _).sum_eq, (h.map fun e => overSteps e fun _ => 1).sum_eq]

/-! ## A masked mean, row by row -/

section Masked
variable {M : Type} [AddCommMonoid M]

/-- A sum over the positions that the mask of a call keeps. -/
def Step.over (s : Step) (f : ℕ → ℕ → M) : M :=
  ∑ b ∈ Finset.range s.b, ∑ i ∈ Finset.range s.n, if s.mask b i then f b i else 0

theorem ntoks_eq (s : Step) : s.ntoks = s.over fun _ _ => 1 := by
  unfold Step.ntoks
  rw [length_filter_range]
  exact sum_range_mul s.b s.n fun b i => if s.mask b i then 1 else 0

theorem masked_eq (s : Step) (f : ℕ → ℕ → ℝ) : s.masked (fun row => real (f (row / s.n) (row % s.n))) =
    ⟨real (s.over f) * (real s.ntoks).recip, s.ntoks⟩ := by
  have hterm : ∀ row ∈ Finset.range (s.b * s.n),
      real (f (row / s.n) (row % s.n)) * real (if s.maskAt row then 1 else 0) =
        real (if s.mask (row / s.n) (row % s.n) then f (row / s.n) (row % s.n) else 0) := by
    intro row _
    unfold Step.maskAt
    rw [real_mul_real]
    split
    · rw [mul_one]
    · rw [mul_zero]
  unfold Step.masked
  rw [sum_real hterm, sum_range_mul s.b s.n fun b i => if s.mask b i then f b i else 0]
  rfl

end Masked

/-- A call whose masked sums are sums over sequences gives their mean. -/
theorem masked_meanLoss {s : Step} {f : ℕ → ℕ → ℝ} {loss : List ℤ → ℕ → ℝ} {es : List Entry}
    (hsum : s.over f = (es.map fun e => overSteps e (loss e.tokens)).sum) (hcount : (s.over fun _ _ => 1) = stepCount es) :
    s.masked (fun row => real (f (row / s.n) (row % s.n))) = meanLoss loss es := by
  rw [masked_eq, ntoks_eq, hsum, hcount]
  rfl

/-! ## A batch of packed rows -/

/-- The entries of row `b`. -/
def rowEntries (groups : List (List Entry)) (b : ℕ) : List Entry := groups.getD b []

/-- The batch of the rows laid out from these entries. -/
def layoutBatch (groups : List (List Entry)) (L : ℕ) : Batch := .ofRows (groups.map fun es => layout es L)

section Packed
variable {dev : AttentionDevice} {mems : ℕ → Memory} {m : LmModel} {groups : List (List Entry)} {L b s k : ℕ}

theorem getD_layouts {α : Type} (field : Row → List α) (hb : b < groups.length) :
    ((groups.map fun es => layout es L).map field).getD b [] = field (layout (rowEntries groups b) L) := by
  unfold rowEntries
  rw [List.map_map, List.getD_eq_getElem _ _ (by rwa [List.length_map]), List.getElem_map, List.getD_eq_getElem _ _ hb]
  rfl

theorem used_rowEntries (hfit : ∀ es ∈ groups, used es ≤ L + 1) (hb : b < groups.length) :
    used (rowEntries groups b) ≤ L + 1 := by
  apply hfit
  unfold rowEntries
  rw [List.getD_eq_getElem _ _ hb]
  exact List.getElem_mem hb

theorem layoutBatch_length : (layoutBatch groups L).batch.length = groups.length := by
  unfold layoutBatch Batch.ofRows
  rw [List.length_map, List.length_map]

theorem inputWidth_layoutBatch (hne : groups ≠ []) : inputWidth (layoutBatch groups L).batch = L := by
  obtain ⟨es, rest, rfl⟩ := List.exists_cons_of_ne_nil hne
  have hlength : (layout es L).row.length = L + 1 := by
    unfold layout
    rw [List.length_map, List.length_range]
  unfold inputWidth layoutBatch Batch.ofRows
  rw [List.map_cons, List.map_cons, List.headD_cons, hlength, Nat.add_sub_cancel]

/-- A segment and its place in the row. -/
theorem startOf_le_width {es : List Entry} (hfit : used es ≤ L + 1) (hs : s < es.length) :
    startOf es s + (entryAt es s).tokens.length ≤ L := by
  have hnext := startOf_succ hs
  have hle : startOf es (s + 1) ≤ used es := startOf_le_used hs
  omega

/-- What row `b` holds at step `k` of its segment `s`. -/
theorem arrayOf_layoutBatch (hb : b < groups.length) (hfit : used (rowEntries groups b) ≤ L + 1)
    (hs : s < (rowEntries groups b).length) (hk : k ≤ (entryAt (rowEntries groups b) s).tokens.length) :
    arrayOf (layoutBatch groups L).batch b (startOf (rowEntries groups b) s + k) =
      (entryAt (rowEntries groups b) s).tokens.getD k 0 := by
  have hwidth := startOf_le_width hfit hs
  have hrow : (layoutBatch groups L).batch.getD b [] = (layout (rowEntries groups b) L).row := getD_layouts Row.row hb
  unfold arrayOf ptr
  rw [hrow, ← tokenAt_eq hs hk]
  unfold layout
  dsimp only
  rw [getD_range_map, if_pos (by omega)]

theorem mask_layoutBatch (hb : b < groups.length) {p : ℕ} (hp : p < L) :
    (packedStep dev mems m (layoutBatch groups L)).mask b p = supervisedAt (rowEntries groups b) p := by
  have hrow : (layoutBatch groups L).lossMask.getD b [] = (layout (rowEntries groups b) L).lossMask :=
    getD_layouts Row.lossMask hb
  unfold packedStep
  dsimp only
  rw [hrow]
  unfold layout
  dsimp only
  rw [getD_range_map, if_pos hp]

/-- A masked sum over a packed batch is a sum over its sequences. -/
theorem over_packed {M : Type} [AddCommMonoid M] {f : ℕ → ℕ → M} {g : List ℤ → ℕ → M} (hne : groups ≠ [])
    (hfit : ∀ es ∈ groups, used es ≤ L + 1)
    (hf : ∀ b < groups.length, ∀ s < (rowEntries groups b).length, ∀ k < (entryAt (rowEntries groups b) s).tokens.length,
      f b (startOf (rowEntries groups b) s + k) = g (entryAt (rowEntries groups b) s).tokens k) :
    (packedStep dev mems m (layoutBatch groups L)).over f = (groups.flatten.map fun e => overSteps e (g e.tokens)).sum := by
  have hrow : ∀ b ∈ Finset.range groups.length,
      ∑ p ∈ Finset.range L, (if (packedStep dev mems m (layoutBatch groups L)).mask b p then f b p else 0) =
        ((rowEntries groups b).map fun e => overSteps e (g e.tokens)).sum := by
    intro b hb
    have hb := Finset.mem_range.1 hb
    have hused := used_rowEntries hfit hb
    calc ∑ p ∈ Finset.range L, (if (packedStep dev mems m (layoutBatch groups L)).mask b p then f b p else 0)
      _ = ∑ p ∈ Finset.range L, if supervisedAt (rowEntries groups b) p then f b p else 0 := by
        apply Finset.sum_congr rfl
        intro p hp
        rw [mask_layoutBatch hb (Finset.mem_range.1 hp)]
      _ = ∑ s ∈ Finset.range (rowEntries groups b).length, overSteps (entryAt (rowEntries groups b) s) fun k =>
          f b (startOf (rowEntries groups b) s + k) := sum_packedRow hused
      _ = ∑ s ∈ Finset.range (rowEntries groups b).length, overSteps (entryAt (rowEntries groups b) s)
          (g (entryAt (rowEntries groups b) s).tokens) := by
        apply Finset.sum_congr rfl
        intro s hs
        exact overSteps_congr fun k hk _ => hf b hb s (Finset.mem_range.1 hs) k hk
      _ = ((rowEntries groups b).map fun e => overSteps e (g e.tokens)).sum :=
        sum_range_getD _ _ fun e => overSteps e (g e.tokens)
  unfold Step.over packedStep
  dsimp only
  rw [layoutBatch_length, inputWidth_layoutBatch hne]
  calc _ = ∑ b ∈ Finset.range groups.length, ((rowEntries groups b).map fun e => overSteps e (g e.tokens)).sum :=
        Finset.sum_congr rfl hrow
    _ = (groups.map fun es => (es.map fun e => overSteps e (g e.tokens)).sum).sum :=
      sum_range_getD groups [] fun es => (es.map fun e => overSteps e (g e.tokens)).sum
    _ = _ := by
      rw [List.map_flatten, List.sum_flatten, List.map_map]
      rfl

/-- The positions of segment `s` of a row. -/
theorem segmentAt_entry {es : List Entry} (hfit : used es ≤ L + 1) (hs : s < es.length) :
    SegmentAt (ptr (layout es L).segId) L s (startOf es s) (min (startOf es (s + 1)) L - startOf es s) where
  inside := by
    have := startOf_le_width hfit hs
    omega
  mem_iff := by
    intro p hp
    have := startOf_le_width hfit hs
    rw [Kernel.ptr_segId hp, Nat.cast_inj, owner_eq_iff hs]
    omega

/-- The mask of a packed batch keeps the tokens of a segment to themselves. -/
theorem isolating_packed (hL : L < 2 ^ 31) (hfit : ∀ es ∈ groups, used es ≤ L + 1) (hb : b < groups.length)
    (hs : s < (rowEntries groups b).length) :
    Isolating (.packed ⟨arrayOf (layoutBatch groups L).segId, arrayOf (layoutBatch groups L).segStart⟩) groups.length L
      (entryAt (rowEntries groups b) s).tokens.length ⟨b, startOf (rowEntries groups b) s⟩ where
  row := hb
  mask := by
    have hused : ∀ b < groups.length, used (rowEntries groups b) ≤ L + 1 := fun b hb => used_rowEntries hfit hb
    have hids : ∀ b < groups.length, arrayOf (layoutBatch groups L).segId b = ptr (layout (rowEntries groups b) L).segId := by
      intro b hb
      exact congrArg ptr (getD_layouts Row.segId hb)
    have hstarts : ∀ b < groups.length,
        arrayOf (layoutBatch groups L).segStart b = ptr (layout (rowEntries groups b) L).segStart := by
      intro b hb
      exact congrArg ptr (getD_layouts Row.segStart hb)
    refine ⟨_, rfl, ?_, ?_⟩
    · intro module segments hsegments b hb
      obtain rfl := Option.some.inj hsegments
      exact ⟨rowEntries groups b, _, hused b hb, hL, buildRow_eq (hused b hb), hids b hb, hstarts b hb⟩
    · have hseg := segmentAt_entry (hused b hb) hs
      have hnext := startOf_succ hs
      have hwidth := startOf_le_width (hused b hb) hs
      rw [← hids b hb] at hseg
      exact hseg.attends (by omega)

/-- Layers that are all wrapped. -/
theorem wrappedLayers_ok {refuse : ℕ → String → AdapterError} {modules : List LayerModule} {layers : List Layer}
    (h : wrappedLayers refuse modules = .ok layers) : modules = layers.map .wrapped := by
  have hall := Budget.mapM_eq_ok.1 h
  rw [← List.zipIdx_map_fst 0 modules]
  clear h
  generalize modules.zipIdx = indexed at hall
  induction hall with
  | nil => rfl
  | @cons lk l indexed layers hfirst hrest ih =>
    rw [List.map_cons, List.map_cons, ih]
    obtain ⟨module, k⟩ := lk
    cases module with
    | wrapped l' =>
      obtain rfl := Except.ok.inj hfirst
      rfl
    | stock typeName => cases hfirst

theorem wrappedLayers_wrapped (refuse : ℕ → String → AdapterError) (layers : List Layer) :
    wrappedLayers refuse (layers.map .wrapped) = .ok layers := by
  have hall : ∀ f : LayerModule × ℕ → Except AdapterError Layer, (∀ l k, f (.wrapped l, k) = .ok l) →
      ∀ k, List.Forall₂ (fun lk l => f lk = .ok l) ((layers.map .wrapped).zipIdx k) layers := by
    intro f hf
    induction layers with
    | nil => exact fun _ => .nil
    | cons l layers ih => exact fun k => .cons (hf l k) (ih (k + 1))
  exact Budget.mapM_eq_ok.2 (hall _ (fun _ _ => rfl) 0)

/-- With the model it was built with, a packed closure fails in a wrapped attention or in the loss, if it does. -/
theorem packedStep_built {dequantize : Dequantize} {lossDev : Core.Device} {impl : Impl} {allowUnverified : Bool}
    {resolved : Option ResolvedImpl} {x : Batch} {e : AdapterError} (h : checkPackedModel m = .ok ())
    (herror : (lossStep dequantize lossDev impl allowUnverified resolved (packedStep dev mems m x)).1 = .error e) :
    (∃ a, e = .attention a) ∨ ∃ l, e = .loss l := by
  unfold checkPackedModel at h
  split at h
  · cases h
  · next hmodule =>
    obtain ⟨_, hmodel, h⟩ := Budget.bind_eq_ok.1 h
    obtain ⟨layers, hlayers, -⟩ := Budget.bind_eq_ok.1 h
    rcases lossStep_built hmodel herror with hhidden | hloss
    · change packedHidden dev mems m x = .error e at hhidden
      unfold packedHidden at hhidden
      rw [if_neg hmodule, wrappedLayers_ok hlayers, wrappedLayers_wrapped] at hhidden
      change ((m.trunk layers).hidden dev mems _ _ _ _).mapError AdapterError.attention = .error e at hhidden
      cases hwalk : (m.trunk layers).hidden dev mems x.batch.length (inputWidth x.batch)
          (.packed ⟨arrayOf x.segId, arrayOf x.segStart⟩) (arrayOf x.batch) with
      | error a =>
        rw [hwalk] at hhidden
        exact .inl ⟨a, (Except.error.inj hhidden).symm⟩
      | ok y =>
        rw [hwalk] at hhidden
        cases hhidden
    · exact .inr hloss

/-- The hidden states of a packed batch are those of its sequences alone. -/
theorem packedHidden_alone {y : Rows} (hrope : m.Relative) (hL : L < 2 ^ 31) (hne : groups ≠ [])
    (hfit : ∀ es ∈ groups, used es ≤ L + 1) (h : packedHidden dev mems m (layoutBatch groups L) = .ok y) :
    ∃ layers, m.layers = layers.map .wrapped ∧ ∀ b < groups.length, ∀ s < (rowEntries groups b).length,
      HoldsAt (entryAt (rowEntries groups b) s).tokens.length y ⟨b, startOf (rowEntries groups b) s⟩
        ((m.trunk layers).alone fun i => (entryAt (rowEntries groups b) s).tokens.getD i 0) := by
  unfold packedHidden at h
  split at h
  · cases h
  · obtain ⟨layers, hlayers, hhidden⟩ := Budget.bind_eq_ok.1 h
    have hwrapped := wrappedLayers_ok hlayers
    refine ⟨layers, hwrapped, ?_⟩
    intro b hb s hs
    have hused := used_rowEntries hfit hb
    rw [layoutBatch_length, inputWidth_layoutBatch hne] at hhidden
    apply Trunk.hidden_alone ?_ (isolating_packed hL hfit hb hs) ?_ (Budget.mapError_eq_ok.1 hhidden)
    · intro l hl
      apply hrope
      rw [hwrapped]
      exact List.mem_map_of_mem hl
    · intro i hi
      exact arrayOf_layoutBatch hb hused hs hi.le

/-- The packed closure's loss is the mean of what the sequences lose alone. -/
theorem packedStep_isLoss {dequantize : Dequantize} {out : LossOut} (hrope : m.Relative) (hL : L < 2 ^ 31) (hne : groups ≠ [])
    (hfit : ∀ es ∈ groups, used es ≤ L + 1) (h : (packedStep dev mems m (layoutBatch groups L)).IsLoss dequantize out) :
    ∃ split layers, splitModel m = .ok split ∧ m.layers = layers.map .wrapped ∧
      out = meanLoss (tokenLoss dequantize split.head m.width (m.trunk layers)) groups.flatten := by
  obtain ⟨split, hidden, hsplit, hhidden, rfl⟩ := h
  obtain ⟨layers, hlayers, halone⟩ := packedHidden_alone hrope hL hne hfit hhidden
  refine ⟨split, layers, hsplit, hlayers, ?_⟩
  apply masked_meanLoss (f := fun b i => headNll dequantize split.head m.width (hidden b i)
    ((packedStep dev mems m (layoutBatch groups L)).targets b i)) (over_packed hne hfit ?_)
    (over_packed (g := fun _ _ => 1) hne hfit fun _ _ _ _ _ _ => rfl)
  intro b hb s hs k hk
  have hused := used_rowEntries hfit hb
  unfold tokenLoss
  rw [← halone b hb s hs k hk]
  apply congrArg (headNll dequantize split.head m.width _)
  exact arrayOf_layoutBatch hb hused hs hk

end Packed

/-! ## A batch of stock rows -/

/-- `max(lengths)`. -/
def widest (es : List Entry) : ℕ := (lengthsOf es).foldl max 0

/-- The row of a sequence in a batch of `width` columns: its tokens up to `max_seq_length`, zeros after. -/
def paddedRow (width L : ℕ) (e : Entry) : List ℤ :=
  setSlice (List.replicate width 0) 0 (min e.tokens.length L) (e.tokens.take L)

/-- The batch that mlx-lm makes of these items. -/
def stockRows (es : List Entry) (L : ℕ) : List (List ℤ) := es.map (paddedRow (stockWidth (widest es) L) L)

section Stock
variable {dev : AttentionDevice} {mems : ℕ → Memory} {m : LmModel} {layers : List Layer} {es : List Entry} {e : Entry}
  {L b k : ℕ}

theorem le_widest (he : e ∈ es) : e.tokens.length ≤ widest es := by
  apply @foldl_rel_of_mem ℕ ℕ (· ≤ ·) _ max _ id
  · exact fun m _ => le_max_left m _
  · exact le_refl
  · exact fun m _ => le_max_right m _
  · exact List.mem_map_of_mem he

theorem stockWidth_le (he : e ∈ es) : stockWidth e.tokens.length L ≤ stockWidth (widest es) L := stockWidth_mono (le_widest he)

theorem paddedRow_eq {width : ℕ} (hw : min e.tokens.length L ≤ width) :
    paddedRow width L e = (List.range width).map fun p => (cutTo L e).tokens.getD p 0 := by
  have hblank : List.replicate width (0 : ℤ) = (List.range width).map fun _ => 0 := by simp
  have hlength : (e.tokens.take L).length = min e.tokens.length L := by rw [List.length_take, Nat.min_comm]
  have hset := setSlice_range_map (show 0 + (e.tokens.take L).length ≤ width by omega) (fun _ => (0 : ℤ)) 0
  rw [Nat.zero_add, hlength] at hset
  unfold paddedRow
  rw [hblank, hset]
  apply List.map_congr_left
  intro p _
  unfold cutTo
  dsimp only
  split
  · rfl
  · rw [List.getD_eq_default _ _ (by omega)]

theorem length_paddedRow {width : ℕ} (hw : min e.tokens.length L ≤ width) : (paddedRow width L e).length = width := by
  rw [paddedRow_eq hw, List.length_map, List.length_range]

theorem min_le_width (he : e ∈ es) : min e.tokens.length L ≤ stockWidth (widest es) L :=
  (min_le_stockWidth e.tokens.length).trans (stockWidth_le he)

theorem inputWidth_stockRows (hne : es ≠ []) : inputWidth (stockRows es L) = stockWidth (widest es) L - 1 := by
  obtain ⟨e, rest, rfl⟩ := List.exists_cons_of_ne_nil hne
  unfold inputWidth stockRows
  rw [List.map_cons, List.headD_cons, length_paddedRow (min_le_width List.mem_cons_self)]

/-- What row `b` holds. -/
theorem arrayOf_stockRows (hb : b < es.length) (hk : k < stockWidth (widest es) L) :
    arrayOf (stockRows es L) b k = (cutTo L (entryAt es b)).tokens.getD k 0 := by
  have hmem : entryAt es b ∈ es := by
    unfold entryAt
    rw [List.getD_eq_getElem _ _ hb]
    exact List.getElem_mem hb
  have hrow : (stockRows es L).getD b [] = paddedRow (stockWidth (widest es) L) L (entryAt es b) := by
    unfold stockRows entryAt
    rw [List.getD_eq_getElem _ _ (by rwa [List.length_map]), List.getElem_map, List.getD_eq_getElem _ _ hb]
  unfold arrayOf ptr
  rw [hrow, paddedRow_eq (min_le_width hmem), getD_range_map, if_pos hk]

/-- A masked sum over a stock batch is a sum over its sequences. -/
theorem over_stock {M : Type} [AddCommMonoid M] {f : ℕ → ℕ → M} {g : List ℤ → ℕ → M} (hne : es ≠ [])
    (htargeted : ∀ e ∈ es, Targeted L e)
    (hf : ∀ b < es.length, ∀ k < (cutTo L (entryAt es b)).tokens.length, k < stockWidth (widest es) L - 1 →
      f b k = g (cutTo L (entryAt es b)).tokens k) :
    (stockStep dev mems m layers (stockRows es L) (es.map (stockLengths · L))).over f =
      ((es.map (cutTo L)).map fun e => overSteps e (g e.tokens)).sum := by
  have hrow : ∀ b ∈ Finset.range es.length,
      ∑ k ∈ Finset.range (stockWidth (widest es) L - 1),
        (if (stockStep dev mems m layers (stockRows es L) (es.map (stockLengths · L))).mask b k then f b k else 0) =
        overSteps (cutTo L (entryAt es b)) (g (cutTo L (entryAt es b)).tokens) := by
    intro b hb
    have hb := Finset.mem_range.1 hb
    have hmem : entryAt es b ∈ es := by
      unfold entryAt
      rw [List.getD_eq_getElem _ _ hb]
      exact List.getElem_mem hb
    have hmask : ∀ k, (stockStep dev mems m layers (stockRows es L) (es.map (stockLengths · L))).mask b k =
        stockMask (entryAt es b) L k := by
      intro k
      have hlengths : (es.map (stockLengths · L)).getD b (0, 0) = stockLengths (entryAt es b) L := by
        unfold entryAt
        rw [List.getD_eq_getElem _ _ (by rwa [List.length_map]), List.getElem_map, List.getD_eq_getElem _ _ hb]
      unfold stockStep
      dsimp only
      rw [hlengths]
      unfold stockLengths stockMask
      apply decide_eq_decide.2
      rw [Nat.cast_min]
    simp only [hmask]
    rw [sum_stockRow (htargeted _ hmem) (stockWidth_le hmem)]
    exact overSteps_congr fun k hk hsup => hf b hb k hk (lt_width_of_supervised (htargeted _ hmem) (stockWidth_le hmem) hsup)
  have hrows : (stockRows es L).length = es.length := List.length_map _
  unfold Step.over
  have hb : (stockStep dev mems m layers (stockRows es L) (es.map (stockLengths · L))).b = es.length := hrows
  have hn : (stockStep dev mems m layers (stockRows es L) (es.map (stockLengths · L))).n = stockWidth (widest es) L - 1 :=
    inputWidth_stockRows hne
  rw [hb, hn, Finset.sum_congr rfl hrow, List.map_map]
  exact sum_range_getD es ⟨[], 0⟩ fun e => overSteps (cutTo L e) (g (cutTo L e).tokens)

/-- The first positions of a stock row see themselves. -/
theorem isolating_stock {n len : ℕ} (hb : b < es.length) (hlen : len ≤ n) : Isolating (modelMask n) es.length n len ⟨b, 0⟩ where
  row := hb
  mask := by
    refine ⟨none, ?_, ?_, attends_causal b hlen⟩
    · unfold modelMask
      split
      · rfl
      · rfl
    · intro module segments hsegments
      cases hsegments

/-- The stock closure's loss is the mean of what the sequences lose alone. -/
theorem stockStep_isLoss {dequantize : Dequantize} {out : LossOut} (hrope : m.Relative)
    (hlayers : m.layers = layers.map .wrapped) (hne : es ≠ []) (htargeted : ∀ e ∈ es, Targeted L e)
    (h : (stockStep dev mems m layers (stockRows es L) (es.map (stockLengths · L))).IsLoss dequantize out) :
    ∃ split, splitModel m = .ok split ∧
      out = meanLoss (tokenLoss dequantize split.head m.width (m.trunk layers)) (es.map (cutTo L)) := by
  obtain ⟨split, hidden, hsplit, hhidden, rfl⟩ := h
  refine ⟨split, hsplit, ?_⟩
  apply masked_meanLoss (f := fun b i => headNll dequantize split.head m.width (hidden b i)
    ((stockStep dev mems m layers (stockRows es L) (es.map (stockLengths · L))).targets b i)) (over_stock hne htargeted ?_)
    (over_stock (g := fun _ _ => 1) hne htargeted fun _ _ _ _ _ => rfl)
  intro b hb k hk hwidth
  have hrows : (stockRows es L).length = es.length := List.length_map _
  have htrunk := Budget.mapError_eq_ok.1 hhidden
  rw [hrows, inputWidth_stockRows hne] at htrunk
  have halone := @Trunk.hidden_alone dev es.length _ (k + 1) _ ⟨b, 0⟩ (m.trunk layers) mems _
    (fun i => (cutTo L (entryAt es b)).tokens.getD i 0) hidden (fun l hl => hrope l (hlayers ▸ List.mem_map_of_mem hl))
    (isolating_stock hb hwidth) (fun i hi => ?_) htrunk k (Nat.lt_succ_self k)
  · unfold tokenLoss
    dsimp only at halone
    rw [Nat.zero_add] at halone
    rw [← halone]
    apply congrArg (headNll dequantize split.head m.width _)
    exact arrayOf_stockRows hb (by omega)
  · dsimp only
    rw [Nat.zero_add]
    exact arrayOf_stockRows hb (by omega)

end Stock

end MlxTrainPerf.Adapters
