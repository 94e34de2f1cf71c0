import Mathlib.Analysis.SpecialFunctions.Sigmoid
import MlxTrainPerf.Core.Loss
import MlxTrainPerf.Lib.Budget
import MlxTrainPerf.Recurrent.Clamped
/-!
# The training proxy's forward

`GatedDeltaTrainingProxy.__call__`: it projects, mixes each position with the few before it,
splits the features into queries, keys and values, runs the recurrence and norms its outputs.
The projections, the convolution, the norm and the sequential rule are other modules; each
acts on one position, or on a window that ends at it. A position sees the kept positions of
its own row up to it, so neither padding behind it nor the rest of the batch matters.
-/
open Finset

namespace MlxTrainPerf.Recurrent

open MlxTrainPerf.Core (Dtype)

/-- The features of one position. -/
abbrev Vec : Type := ℕ → ℝ

/-- The submodules, arrays and numbers that a proxy carries over. `conv1d` gives one position from the `conv_kernel_size`
positions that end at it, and `norm` acts on the features of one head. As mlx-lm builds them, `in_proj_qkv` gives the
queries and keys of `num_k_heads` heads and then the values of `num_v_heads`. -/
structure DeltaNet where
  inProjQkv : Vec → Vec
  inProjZ : Vec → Vec
  inProjB : Vec → Vec
  inProjA : Vec → Vec
  conv1d : (ℕ → Vec) → Vec
  norm : Vec → Vec → Vec
  outProj : Vec → Vec
  aLog : Vec
  dtBias : Vec
  aLogDtype : Dtype
  numVHeads : ℕ
  numKHeads : ℕ
  headKDim : ℕ
  headVDim : ℕ
  convKernelSize : ℕ
  shardingGroup : Option ℕ

/-- A call: `(B, S, width)` inputs, a `(B, S)` mask, and whether it comes with a cache. -/
structure DeltaCall where
  B : ℕ
  S : ℕ
  inputs : ℕ → ℕ → Vec
  mask : Option (ℕ → ℕ → Bool)
  cached : Bool

/-- Is the position kept? -/
def DeltaCall.keeps (c : DeltaCall) (b t : ℕ) : Bool := (c.mask.map fun m => m b t).getD true

/-! ## Errors -/

/-- `UnsupportedRecurrentError`, or what the recurrence raises. -/
inductive ForwardError
  | unsupported (msg : String)
  | op (e : RecurrentError)
deriving DecidableEq, Repr

def shardedMsg : String :=
  "this layer's GatedDeltaNet has a distributed sharding_group set (likely from calling Model.shard() after " ++
    "enable_gated_delta_training); the training proxy does not wrap the distributed sum_gradients/all_sum calls the stock " ++
    "forward applies around a sharded layer"

def aLogMsg (dtype : Dtype) : String :=
  s!"A_log was cast to {dtype.str}: model.set_dtype(...) cannot cast this checkpoint safely at any call order -- its " ++
    "predicate is keyed on dtype alone and never sees qwen3_5's own path-keyed cast_predicate, so it downcasts A_log along " ++
    "with every other floating parameter regardless of when it runs. Cast with mlx.utils.tree_map_with_path against " ++
    "model.cast_predicate instead -- see the README's \"Casting a 4-bit checkpoint\" section"

def deltaCacheMsg : String := "GatedDeltaTrainingProxy is a training-only path; a cache is not supported"

noncomputable section

/-! ## `_pre_norm` -/

/-- `nn.silu`. -/
def silu (x : ℝ) : ℝ := x * Real.sigmoid x

/-- `nn.softplus`. -/
def softplus (x : ℝ) : ℝ := Real.log (1 + Real.exp x)

/-- The `eps` of the norms. -/
def rmsEps : ℚ := 1 / 10 ^ 6

/-- `mx.fast.rms_norm(x, None, 1e-6)`, over `n` features. -/
def rmsNorm (n : ℕ) (x : Vec) : Vec := fun i => x i / Real.sqrt ((∑ j ∈ range n, x j ^ 2) / n + rmsEps)

/-- The recurrence, as either op. -/
abbrev DeltaOp : Type := DeltaArgs → Except RecurrentError ((ℕ → ℕ → ℕ → ℕ → ℝ) × (ℕ → ℕ → ℕ → ℕ → ℝ))

/-- The first `n` features of an array. -/
def features (n : ℕ) (f : Vec) : Vec := fun j => if j < n then f j else 0

namespace DeltaNet
variable (net : DeltaNet) (c : DeltaCall)

/-- `key_dim`. -/
def keyDim : ℕ := net.numKHeads * net.headKDim

/-- `inv_scale`. -/
def invScale : ℝ := 1 / Real.sqrt net.headKDim

/-- `g`, of one position. -/
def gate (x : Vec) (h : ℕ) : ℝ := Real.exp (-Real.exp (net.aLog h) * softplus (net.inProjA x h + net.dtBias h))

/-- `qkv`, where the mask keeps it. -/
def qkv (b t : ℕ) : Vec := if c.keeps b t then net.inProjQkv (c.inputs b t) else 0

/-- `mx.concatenate([conv_state, qkv], axis=1)`. -/
def convInput (b j : ℕ) : Vec := if j < net.convKernelSize - 1 then 0 else net.qkv c b (j - (net.convKernelSize - 1))

/-- `conv_out`. -/
def convOut (b s : ℕ) : Vec := fun j =>
  silu (net.conv1d (fun w => if w < net.convKernelSize then net.convInput c b (s + w) else 0) j)

/-- What the recurrence is called with. -/
def deltaArgs : DeltaArgs where
  B := c.B
  T := c.S
  Hk := net.numKHeads
  Dk := net.headKDim
  Hv := net.numVHeads
  Dv := net.headVDim
  gNdim := 3
  q := fun b s h d => net.invScale ^ 2 * rmsNorm net.headKDim (fun d => net.convOut c b s (h * net.headKDim + d)) d
  k := fun b s h d => net.invScale * rmsNorm net.headKDim (fun d => net.convOut c b s (net.keyDim + h * net.headKDim + d)) d
  v := fun b s h d => net.convOut c b s (2 * net.keyDim + h * net.headVDim + d)
  g := fun b s h => net.gate (c.inputs b s) h
  beta := fun b s h => Real.sigmoid (net.inProjB (c.inputs b s) h)
  state := some fun _ _ _ _ => 0
  mask := c.mask

/-- `_pre_norm`. -/
def preNorm (op : DeltaOp) : Except ForwardError ((ℕ → ℕ → ℕ → ℕ → ℝ) × (ℕ → ℕ → ℕ → ℕ → ℝ)) :=
  if net.shardingGroup.isSome then .error (.unsupported shardedMsg)
  else if net.aLogDtype ≠ .float32 then .error (.op (.input (aLogMsg net.aLogDtype)))
  else if net.headKDim = 0 then .error (.op .zeroDivision)
  else (op (net.deltaArgs c)).mapError .op

/-! ## `__call__` -/

/-- `z`, of one position. -/
def z (x : Vec) (h : ℕ) : Vec := features net.headVDim fun d => net.inProjZ x (h * net.headVDim + d)

/-- `out.reshape(B, S, -1)`, of one position. -/
def merge (out : ℕ → Vec) : Vec :=
  features (net.numVHeads * net.headVDim) fun j => out (j / net.headVDim) (j % net.headVDim)

/-- What becomes of the recurrence's output at one position. -/
def finish (x : Vec) (y : ℕ → Vec) : Vec := net.outProj (net.merge fun h => net.norm (features net.headVDim (y h)) (net.z x h))

/-- `__call__`. -/
def call (op : DeltaOp) : Except ForwardError (ℕ → ℕ → Vec) :=
  if c.cached then .error (.op (.input deltaCacheMsg))
  else do
    let (out, _) ← net.preNorm c op
    return fun b s => net.finish (c.inputs b s) (out b s)

end DeltaNet

/-- `self._op`. -/
inductive DeltaImpl
  | chunked
  | sequential
deriving DecidableEq, Repr

/-- The op of a proxy, where `sequential` is mlx-lm's `gated_delta_ops`. -/
def DeltaImpl.op (sequential : DeltaOp) : DeltaImpl → DeltaOp
  | .chunked => fun x => chunkedGatedDelta x none
  | .sequential => sequential

end

/-- At its kept steps, an op gives the outputs of the recurrence, with the gates read through `gate`. -/
def RunsGated (gate : ℝ → ℝ) (op : DeltaOp) : Prop := ∀ x y state, op x = .ok (y, state) →
  ∀ b < x.B, ∀ hv < x.Hv, ∀ c < x.Dv, ∀ t < x.T, x.keeps b t = true → y b t hv c = (x.gated gate).seqY b hv t c

theorem runsGated_chunked : RunsGated clamp fun x => chunkedGatedDelta x none :=
  fun _ _ _ h b hb hv hhv c hc t ht _ => (chunkedGatedDelta_rows h b hb hv hhv c hc).2 t ht

/-! ## What a position sees -/

/-- Two rows read the same up to position `s`. -/
def SameUpTo (c : DeltaCall) (b : ℕ) (c' : DeltaCall) (b' s : ℕ) : Prop :=
  ∀ t ≤ s, c.inputs b t = c'.inputs b' t ∧ c.keeps b t = c'.keeps b' t

section Sees
variable {net : DeltaNet} {c c' : DeltaCall} {b b' s t : ℕ}

theorem qkv_congr (h : SameUpTo c b c' b' s) (ht : t ≤ s) : net.qkv c b t = net.qkv c' b' t := by
  unfold DeltaNet.qkv
  rw [(h t ht).1, (h t ht).2]

/-- The window of a position ends at it. -/
theorem convOut_congr (h : SameUpTo c b c' b' s) (ht : t ≤ s) : net.convOut c b t = net.convOut c' b' t := by
  -- The window reaches back from `t`; before the first position it holds zeros.
  have hwindow : (fun w => if w < net.convKernelSize then net.convInput c b (t + w) else 0) =
      fun w => if w < net.convKernelSize then net.convInput c' b' (t + w) else 0 := by
    funext w
    split_ifs with hw
    · unfold DeltaNet.convInput
      split_ifs
      · rfl
      · exact qkv_congr h (by omega)
    · rfl
  unfold DeltaNet.convOut
  rw [hwindow]

/-- So the steps of a head are the same up to it. -/
theorem sameStep (h : SameUpTo c b c' b' s) (ht : t ≤ s) (gate gate' : ℝ → ℝ) (hv : ℕ)
    (hgate : c.keeps b t = true → gate (net.gate (c.inputs b t) hv) = gate' (net.gate (c.inputs b t) hv)) :
    SameStep ((net.deltaArgs c).gated gate) b hv ((net.deltaArgs c').gated gate') b' hv t := by
  have hconv := @convOut_congr net c c' b b' s t h ht
  obtain ⟨hinputs, hkeeps⟩ := h t ht
  refine ⟨hkeeps, ?_, ?_, fun hkeep => ?_, ?_⟩
  · unfold DeltaArgs.gated DeltaNet.deltaArgs
    dsimp only
    rw [hconv]
    rfl
  · unfold DeltaArgs.gated DeltaNet.deltaArgs
    dsimp only
    rw [hconv]
  · have hread := hgate hkeep
    rw [hinputs] at hread
    show gate (net.gate (c.inputs b t) hv) = gate' (net.gate (c'.inputs b' t) hv)
    rw [hinputs, hread]
  · show Real.sigmoid (net.inProjB (c.inputs b t) hv) = Real.sigmoid (net.inProjB (c'.inputs b' t) hv)
    rw [hinputs]

/-- And so is its output there. -/
theorem seqY_congr (h : SameUpTo c b c' b' s) (gate gate' : ℝ → ℝ) (hv : ℕ)
    (hgate : ∀ t ≤ s, c.keeps b t = true → gate (net.gate (c.inputs b t) hv) = gate' (net.gate (c.inputs b t) hv)) (j : ℕ) :
    ((net.deltaArgs c).gated gate).seqY b hv s j = ((net.deltaArgs c').gated gate').seqY b' hv s j := by
  -- The state has read the steps up to `s`, and the query is that step's own.
  have hstate : ((net.deltaArgs c).gated gate).seqState b hv (s + 1) = ((net.deltaArgs c').gated gate').seqState b' hv (s + 1) :=
    seqState_congr rfl rfl fun t ht => sameStep h (Nat.lt_succ_iff.1 ht) gate gate' hv (hgate t (Nat.lt_succ_iff.1 ht))
  have hq : ((net.deltaArgs c).gated gate).q b s = ((net.deltaArgs c').gated gate').q b' s := by
    unfold DeltaArgs.gated DeltaNet.deltaArgs
    dsimp only
    rw [@convOut_congr net c c' b b' s s h le_rfl]
  unfold DeltaArgs.seqY
  rw [hstate, hq]
  rfl

theorem features_congr {n : ℕ} {f f' : Vec} (h : ∀ j < n, f j = f' j) : features n f = features n f' := by
  funext j
  unfold features
  split_ifs with hj
  · exact h j hj
  · rfl

/-- A position's outputs are read at the heads and features there are. -/
theorem finish_congr {x : Vec} {y y' : ℕ → Vec} (hy : ∀ h < net.numVHeads, ∀ j < net.headVDim, y h j = y' h j) :
    net.finish x y = net.finish x y' := by
  refine congrArg net.outProj (features_congr fun j hj => ?_)
  have hhead : features net.headVDim (y (j / net.headVDim)) = features net.headVDim (y' (j / net.headVDim)) :=
    features_congr (hy (j / net.headVDim) (Nat.div_lt_of_lt_mul (by rwa [mul_comm])))
  dsimp only
  rw [hhead]

/-- What a call that is not refused gives at a kept position. -/
theorem call_position {gate : ℝ → ℝ} {op : DeltaOp} {out : ℕ → ℕ → Vec} (hop : RunsGated gate op)
    (h : net.call c op = .ok out) (hb : b < c.B) (hs : s < c.S) (hkeep : c.keeps b s = true) :
    out b s = net.finish (c.inputs b s) fun hv j => ((net.deltaArgs c).gated gate).seqY b hv s j := by
  unfold DeltaNet.call at h
  split_ifs at h
  obtain ⟨⟨y, state⟩, hpre, h⟩ := Budget.bind_eq_ok.1 h
  obtain rfl := Except.ok.inj h
  unfold DeltaNet.preNorm at hpre
  split_ifs at hpre
  have hrun := hop _ _ _ (Budget.mapError_eq_ok.1 hpre) b hb
  exact finish_congr fun hv hhv j hj => hrun hv hhv j hj s hs hkeep

end Sees

/-- Two calls of one layer, with either implementation, whose rows read the same up to a kept position give it the same
output: neither what is behind it, nor the other rows, nor the batch size make a difference; nor does the implementation,
where the gates of the row up to there are `1e-12` at least. -/
theorem gated_delta_calls_agree (net : DeltaNet) (sequential : DeltaOp) (hsequential : RunsGated id sequential)
    (impl impl' : DeltaImpl) (c c' : DeltaCall) (out out' : ℕ → ℕ → Vec) (h : net.call c (impl.op sequential) = .ok out)
    (h' : net.call c' (impl'.op sequential) = .ok out') (b b' s : ℕ) (hb : b < c.B) (hb' : b' < c'.B) (hs : s < c.S)
    (hs' : s < c'.S) (hkeep : c.keeps b s = true) (hsame : SameUpTo c b c' b' s)
    (hgates : impl = impl' ∨ ∀ t ≤ s, c.keeps b t = true → ∀ hv < net.numVHeads, gateFloor ≤ net.gate (c.inputs b t) hv) :
    out b s = out' b' s := by
  have hruns : ∀ impl : DeltaImpl, RunsGated (match impl with | .chunked => clamp | .sequential => id) (impl.op sequential) := by
    rintro (_ | _)
    · exact runsGated_chunked
    · exact hsequential
  have hkeep' : c'.keeps b' s = true := (hsame s le_rfl).2 ▸ hkeep
  rw [call_position (hruns impl) h hb hs hkeep, call_position (hruns impl') h' hb' hs' hkeep', (hsame s le_rfl).1]
  -- Both outputs are the recurrence's, on lifted gates or on the gates as they are, which agree on this row.
  refine finish_congr fun hv hhv j _ => seqY_congr hsame _ _ hv ?_ j
  intro t ht hkeeps
  obtain rfl | hgates := hgates
  · rfl
  · have hclamp := clamp_of_le (hgates t ht hkeeps hv hhv)
    cases impl <;> cases impl' <;> first | rfl | exact hclamp | exact hclamp.symm

/-- The sequential rule, as the recurrence. -/
noncomputable def stepByStep : DeltaOp := fun x =>
  .ok (fun b t hv c => x.seqY b hv t c, fun b hv c d => x.seqState b hv x.T c d)

theorem runsGated_stepByStep : RunsGated id stepByStep := by
  intro x y state h b _ hv _ c _ t _ _
  obtain ⟨rfl, -⟩ := Prod.mk.inj (Except.ok.inj h)
  rfl

/-- One head of one feature, whose gates are a half. -/
noncomputable def halfGates : DeltaNet where
  inProjQkv := id
  inProjZ := id
  inProjB := id
  inProjA := fun _ => 0
  conv1d := fun window => window 1
  norm := fun y _ => y
  outProj := id
  aLog := 0
  dtBias := 0
  aLogDtype := .float32
  numVHeads := 1
  numKHeads := 1
  headKDim := 1
  headVDim := 1
  convKernelSize := 2
  shardingGroup := none

theorem halfGates_gate (x : Vec) (h : ℕ) : gateFloor ≤ halfGates.gate x h := by
  have hhalf : halfGates.gate x h = 1 / 2 := by
    simp [DeltaNet.gate, halfGates, softplus, one_add_one_eq_two, Real.exp_neg, Real.exp_log]
  rw [hhalf]
  unfold gateFloor
  norm_num

/-- One position alone, and the same one in a batch of two, with a position behind it. -/
def onePosition : DeltaCall := ⟨1, 1, fun _ _ _ => 1, none, false⟩

def paddedBatch : DeltaCall := ⟨2, 2, fun _ t _ => if t = 0 then 1 else 7, none, false⟩

theorem gated_delta_calls_agree_halfGates : ∃ out out',
    halfGates.call onePosition (DeltaImpl.chunked.op stepByStep) = .ok out ∧
    halfGates.call paddedBatch (DeltaImpl.sequential.op stepByStep) = .ok out' ∧ out 0 0 = out' 1 0 := by
  obtain ⟨r, hr⟩ := @chunkedGatedDelta_returns (halfGates.deltaArgs onePosition) rfl Nat.one_pos (one_dvd 1) le_rfl none
  have hout : halfGates.call onePosition (DeltaImpl.chunked.op stepByStep) =
      .ok fun b s => halfGates.finish (onePosition.inputs b s) (r.1 b s) := by
    have hpre : halfGates.preNorm onePosition (DeltaImpl.chunked.op stepByStep) = .ok r :=
      congrArg (Except.mapError ForwardError.op) hr
    exact Budget.bind_eq_ok.2 ⟨r, hpre, rfl⟩
  refine ⟨_, _, hout, rfl, ?_⟩
  refine gated_delta_calls_agree halfGates stepByStep runsGated_stepByStep .chunked .sequential onePosition paddedBatch _ _ hout
    rfl 0 1 0 Nat.one_pos Nat.one_lt_two Nat.one_pos Nat.two_pos rfl ?_ (.inr fun t _ _ hv _ => halfGates_gate _ hv)
  intro t ht
  obtain rfl := Nat.le_zero.1 ht
  exact ⟨rfl, rfl⟩

end MlxTrainPerf.Recurrent
