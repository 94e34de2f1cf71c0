import MlxTrainPerf.Attention.Wrapper
/-!
# The trunk of a wrapped model

`embed_tokens`, the layers, `norm`: the walk `make_packed_loss_fn` takes itself, with a
`PackedMask`, and the model's own call takes with the `"causal"` mask. A layer is
mlx-lm's block: it normalises, attends, and what follows acts on each position alone.
A sequence on a run that the mask isolates leaves the walk as it leaves the model alone.
-/
open XReal

namespace MlxTrainPerf.Adapters

open Attention

/-- A decoder layer whose `self_attn` is a `FlashAttentionWrapper` with this `impl`. -/
structure Layer where
  inputNorm : Vec → Vec
  selfAttn : AttentionModule
  impl : AttentionImpl
  finish : Vec → Vec → Vec

/-- The inner model. -/
structure Trunk where
  embedTokens : ℤ → Vec
  layers : List Layer
  norm : Vec → Vec

noncomputable section

/-- `layer(h, mask, None)`. -/
def layerCall (dev : AttentionDevice) (mem : Memory) (l : Layer) (b n : ℕ) (mask : Mask) (h : Rows) :
    Except AttentionError Rows := do
  let attended ← wrapperCall dev mem l.impl l.selfAttn b n (fun b i => l.inputNorm (h b i)) mask false
  return fun b i => l.finish (h b i) (attended b i)

/-- `for layer in inner.layers: h = layer(h, mask, None)`; the fresh buffers of layer `k` hold `mems k`. -/
def walkLayers (dev : AttentionDevice) (mems : ℕ → Memory) (layers : List Layer) (b n : ℕ) (mask : Mask) (h : Rows) :
    Except AttentionError Rows :=
  layers.zipIdx.foldlM (fun h lk => layerCall dev (mems lk.2) lk.1 b n mask h) h

/-- The hidden states of `b` rows of `n` tokens. -/
def Trunk.hidden (t : Trunk) (dev : AttentionDevice) (mems : ℕ → Memory) (b n : ℕ) (mask : Mask) (inputs : ℕ → ℕ → ℤ) :
    Except AttentionError Rows := do
  let h ← walkLayers dev mems t.layers b n mask fun b i => t.embedTokens (inputs b i)
  return fun b i => t.norm (h b i)

/-! ## One sequence -/

/-- A layer over one sequence. -/
def Layer.alone (l : Layer) (h : ℕ → Vec) (i : ℕ) : Vec := l.finish (h i) (l.selfAttn.alone (fun i => l.inputNorm (h i)) i)

/-- The hidden states of one sequence. -/
def Trunk.alone (t : Trunk) (tokens : ℕ → ℤ) (i : ℕ) : Vec :=
  t.norm (t.layers.foldl (fun h l => l.alone h) (fun i => t.embedTokens (tokens i)) i)

end

/-- Every rotation of the model turns by distance. -/
def Trunk.Relative (t : Trunk) : Prop := ∀ l ∈ t.layers, l.selfAttn.Relative

/-- A mask that is accepted, lays its segments out as the packer does, and keeps the queries of a run to the run. -/
structure Isolating (mask : Mask) (b n len : ℕ) (r : Run) : Prop where
  row : r.b < b
  mask : ∃ segments, resolveMask mask = .ok segments ∧ (∀ m : AttentionModule, LaidOut (m.shape b n) segments) ∧
    Attends (keeps true (idsOf segments)) n len r

section Run
variable {dev : AttentionDevice} {b n len : ℕ} {mask : Mask} {r : Run}

theorem layerCall_alone {mem : Memory} {l : Layer} {x y : Rows} {z : ℕ → Vec} (hrope : l.selfAttn.Relative)
    (hisolating : Isolating mask b n len r) (hx : HoldsAt len x r z) (h : layerCall dev mem l b n mask x = .ok y) :
    HoldsAt len y r (l.alone z) := by
  obtain ⟨attended, hattended, hy⟩ := Budget.bind_eq_ok.1 h
  obtain rfl := Except.ok.inj hy
  obtain ⟨segments, hmask, hlaid, hattends⟩ := hisolating.mask
  have hnormed : HoldsAt len (fun b i => l.inputNorm (x b i)) r fun i => l.inputNorm (z i) := by
    intro i hi
    exact congrArg l.inputNorm (hx i hi)
  have hrun := wrapperCall_alone hrope hisolating.row hmask (hlaid _) hattends hnormed hattended
  intro i hi
  exact congrArg₂ l.finish (hx i hi) (hrun i hi)

/-- The walk, over layers from whatever place in the model. -/
theorem foldlM_layers_alone {mems : ℕ → Memory} {layers : List Layer} {k : ℕ} {x y : Rows} {z : ℕ → Vec}
    (hrope : ∀ l ∈ layers, l.selfAttn.Relative) (hisolating : Isolating mask b n len r) (hx : HoldsAt len x r z)
    (h : (layers.zipIdx k).foldlM (fun h lk => layerCall dev (mems lk.2) lk.1 b n mask h) x = .ok y) :
    HoldsAt len y r (layers.foldl (fun h l => l.alone h) z) := by
  induction layers generalizing k x z with
  | nil =>
    obtain rfl := Except.ok.inj h
    exact hx
  | cons l layers ih =>
    rw [List.zipIdx_cons, List.foldlM_cons] at h
    obtain ⟨x', hx', hrest⟩ := Budget.bind_eq_ok.1 h
    obtain ⟨hfirst, hlater⟩ := List.forall_mem_cons.1 hrope
    exact ih hlater (layerCall_alone hfirst hisolating hx hx') hrest

/-- On an isolated run the hidden states are those of the tokens alone, wherever the run stands and on whatever device. -/
theorem Trunk.hidden_alone {t : Trunk} {mems : ℕ → Memory} {inputs : ℕ → ℕ → ℤ} {tokens : ℕ → ℤ} {y : Rows}
    (hrope : t.Relative) (hisolating : Isolating mask b n len r) (htokens : ∀ i < len, inputs r.b (r.t + i) = tokens i)
    (h : t.hidden dev mems b n mask inputs = .ok y) : HoldsAt len y r (t.alone tokens) := by
  obtain ⟨x, hx, hy⟩ := Budget.bind_eq_ok.1 h
  obtain rfl := Except.ok.inj hy
  have hembedded : HoldsAt len (fun b i => t.embedTokens (inputs b i)) r fun i => t.embedTokens (tokens i) := by
    intro i hi
    exact congrArg t.embedTokens (htokens i hi)
  have hrun := foldlM_layers_alone hrope hisolating hembedded hx
  intro i hi
  exact congrArg t.norm (hrun i hi)

end Run

end MlxTrainPerf.Adapters
