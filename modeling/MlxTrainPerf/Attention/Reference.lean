import MlxTrainPerf.Lib.XReal
import MlxTrainPerf.Attention.Launch
import MlxTrainPerf.Attention.Segments
/-!
# The attention oracles

`attention/reference.py`, and the hand-written backward of `attention/api.py`,
over exact reals. An array is a function of its indices; `Shape` says which of
them are in range. The casts between dtypes are the identity.
-/
open XReal

namespace MlxTrainPerf.Attention

open Launch (Shape)

/-- What the oracles raise, with its text. -/
inductive OracleError
  | value (msg : String)
  | assertion (msg : String)
deriving DecidableEq, Repr

/-- A `(B, H, N, D)` array. -/
abbrev Tensor (α : Type) : Type := ℕ → ℕ → ℕ → ℕ → α

/-- A `(B, H, N)` array. -/
abbrev RowTensor (α : Type) : Type := ℕ → ℕ → ℕ → α

def kvHeadFor (qHead groupSize : ℕ) : ℕ := qHead / groupSize

def groupSize (s : Shape) : ℕ := s.hq / s.hkv

/-- `_kv_gather`: K or V per q-head. -/
def kvGather {α : Type} (s : Shape) (x : Tensor α) : Tensor α := fun b h i c => x b (kvHeadFor h (groupSize s)) i c

noncomputable section

/-- `x @ y.swapaxes(-1, -2)`. -/
def dotRows (s : Shape) (x y : Tensor ℝ) : Tensor XReal :=
  fun b h i j => ∑ c ∈ Finset.range s.d, real (x b h i c) * real (y b h j c)

/-- `mx.triu(neg_inf, k=1)`. -/
def triuBias (i j : ℕ) : XReal := if i < j then negInf else 0

/-- `mx.where(segment_allowed(seg_id), scores, -mx.inf)`. -/
def whereAllowed (segId : ℕ → ℕ → ℤ) (scores : Tensor XReal) : Tensor XReal :=
  fun b h i j => if segmentAllowed (segId b) i j then scores b h i j else negInf

/-! ## `reference.py` -/

/-- `_masked_scaled_scores`: the scores, and V gathered per q-head. -/
def maskedScaledScores (s : Shape) (q k v : Tensor ℝ) (scale : ℝ) (causal : Bool)
    (segments : Option (ℕ → ℕ → ℤ)) : Except OracleError (Tensor XReal × Tensor ℝ) :=
  if s.hq % s.hkv ≠ 0 then .error (.value s!"Hq={s.hq} must be a multiple of Hkv={s.hkv} for GQA grouping")
  else
    let kG := kvGather s k
    let vG := kvGather s v
    let scores : Tensor XReal := fun b h i j => dotRows s q kG b h i j * real scale
    match segments with
    | some segId =>
      if causal then .ok (whereAllowed segId scores, vG) else .error (.assertion "segments requires causal=True")
    | none => if causal then .ok (fun b h i j => scores b h i j + triuBias i j, vG) else .ok (scores, vG)

/-- `mx.logsumexp(scores, axis=-1)`. -/
def logsumexp (s : Shape) (scores : Tensor XReal) : RowTensor XReal :=
  fun b h i => (∑ j ∈ Finset.range s.n, (scores b h i j).exp).log

/-- `mx.exp(scores - lse[..., None])`. -/
def expSub (scores : Tensor XReal) (lse : RowTensor XReal) : Tensor XReal :=
  fun b h i j => (scores b h i j - lse b h i).exp

/-- `_attention_core`: `O` and `L`. -/
def attentionCore (s : Shape) (q k v : Tensor ℝ) (scale : ℝ) (causal : Bool) (segments : Option (ℕ → ℕ → ℤ)) :
    Except OracleError (Tensor XReal × RowTensor XReal) := do
  let (scores, vG) ← maskedScaledScores s q k v scale causal segments
  let lse := logsumexp s scores
  let probs := expSub scores lse
  return (fun b h i c => ∑ j ∈ Finset.range s.n, probs b h i j * real (vG b h j c), lse)

def mathAttention (s : Shape) (q k v : Tensor ℝ) (scale : ℝ) (causal : Bool) (segments : Option (ℕ → ℕ → ℤ)) :
    Except OracleError (Tensor XReal) := do
  let (o, _) ← attentionCore s q k v scale causal segments
  return o

/-! ## `_flash_attention_backward` -/

/-- `_bwd_D`. -/
def bwdD (s : Shape) (dO : Tensor ℝ) (o : Tensor XReal) : RowTensor XReal :=
  fun b h i => ∑ c ∈ Finset.range s.d, real (dO b h i c) * o b h i c

structure Grads where
  dQ : Tensor XReal
  dK : Tensor XReal
  dV : Tensor XReal

/-- `x.reshape(b, hkv, group_size, n, d).sum(axis=2)`. -/
def sumGroup (s : Shape) (x : Tensor XReal) : Tensor XReal :=
  fun b kvh i c => ∑ g ∈ Finset.range (groupSize s), x b (kvh * groupSize s + g) i c

/-- `S`, masked as in the forward. -/
def backwardScores (s : Shape) (q k : Tensor ℝ) (scale : ℝ) (causal : Bool) (segments : Option (ℕ → ℕ → ℤ)) :
    Except OracleError (Tensor XReal) := do
  let kG := kvGather s k
  let scores : Tensor XReal := fun b h i j => dotRows s q kG b h i j * real scale
  let scores ← match segments with
    | some segId =>
      if causal then .ok (whereAllowed segId scores) else .error (.assertion "segments requires causal=True")
    | none => .ok scores
  return (if causal then fun b h i j => scores b h i j + triuBias i j else scores)

def flashAttentionBackward (s : Shape) (q k v : Tensor ℝ) (o : Tensor XReal) (lse : RowTensor XReal) (dO : Tensor ℝ)
    (scale : ℝ) (causal : Bool) (segments : Option (ℕ → ℕ → ℤ)) : Except OracleError Grads := do
  let kG := kvGather s k
  let vG := kvGather s v
  let d := bwdD s dO o
  let scores ← backwardScores s q k scale causal segments
  let p := expSub scores lse
  let dP := dotRows s dO vG
  let dS : Tensor XReal := fun b h i j => p b h i j * (dP b h i j - d b h i)
  let dQ : Tensor XReal := fun b h i c => real scale * ∑ j ∈ Finset.range s.n, dS b h i j * real (kG b h j c)
  let dVPerHead : Tensor XReal := fun b h j c => ∑ i ∈ Finset.range s.n, p b h i j * real (dO b h i c)
  let dKPerHead : Tensor XReal := fun b h j c => real scale * ∑ i ∈ Finset.range s.n, dS b h i j * real (q b h i c)
  return { dQ, dK := sumGroup s dKPerHead, dV := sumGroup s dVPerHead }

/-- What a forward pass and its vjp return. -/
structure Pass where
  o : Tensor XReal
  grads : Grads

/-- `_core` and `_core_vjp` on the reference path: the backward reads the
forward's own outputs. -/
def referencePass (s : Shape) (q k v dO : Tensor ℝ) (scale : ℝ) (causal : Bool) (segments : Option (ℕ → ℕ → ℤ)) :
    Except OracleError Pass := do
  let (o, lse) ← attentionCore s q k v scale causal segments
  let grads ← flashAttentionBackward s q k v o lse dO scale causal segments
  return { o, grads }

end

end MlxTrainPerf.Attention
