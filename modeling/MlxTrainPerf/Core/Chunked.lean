import MlxTrainPerf.Core.Vocab
/-!
# The chunked linear cross-entropy

`core/chunked.py` and `core/naive.py` over exact reals. A chunk of the logits is
a function of the row and of the column inside the chunk; casts between dtypes
are the identity.
-/
open PyList XReal

namespace MlxTrainPerf.Core

/-- The `ValueError`s of the chunk loops: `range()` by 0, and `mx.concatenate` of
nothing. -/
inductive ChunkError
  | zeroStep
  | emptyConcatenate
deriving DecidableEq, Repr

/-- `for v0 in range(0, v, chunk_size)`. -/
def chunks (v : ℕ) (chunkSize : ℤ) : Except ChunkError (List (ℕ × ℕ)) :=
  (vocabTiles v chunkSize).mapError fun _ => .zeroStep

noncomputable section

/-- `MatmulChunk`: `(v0, v1)` to the logits of the rows in those columns. -/
abbrev MatmulChunk : Type := ℕ → ℕ → ℕ → ℕ → XReal

/-- `WChunk`: `(v0, v1)` to the weights of those columns. -/
abbrev WChunk : Type := ℕ → ℕ → ℕ → ℕ → XReal

/-- `mx.logsumexp(logits, axis=-1)`, over `m` columns. -/
def logsumexpRow (m : ℕ) (logits : ℕ → XReal) : XReal := (∑ j ∈ Finset.range m, (logits j).exp).log

/-- `idx = mx.clip(targets - v0, 0, v1 - v0 - 1)`. -/
def clipTarget (t : ℤ) (v0 v1 : ℕ) : ℕ := (min (max (t - v0) 0) ((v1 : ℤ) - v0 - 1)).toNat

/-- One chunk of `streamed_lse_and_target`, for one row. -/
def streamStep (mm : MatmulChunk) (targets : ℕ → ℤ) (i : ℕ) (state : XReal × XReal) (r : ℕ × ℕ) : XReal × XReal :=
  let logits := mm r.1 r.2 i
  let lse := state.1.logaddexp (logsumexpRow (r.2 - r.1) logits)
  let inChunk := decide ((r.1 : ℤ) ≤ targets i) && decide (targets i < r.2)
  let got := logits (clipTarget (targets i) r.1 r.2)
  (lse, if inChunk then got else state.2)

/-- `streamed_lse_and_target`, row by row. -/
def streamedLseAndTarget (mm : MatmulChunk) (targets : ℕ → ℤ) (v : ℕ) (chunkSize : ℤ) :
    Except ChunkError (ℕ → XReal × XReal) := do
  let rs ← chunks v chunkSize
  return fun i => rs.foldl (streamStep mm targets i) (negInf, 0)

/-- `g32`: the coefficient of row `i` and the chunk's column `j`. -/
def chunkGrad (mm : MatmulChunk) (targets : ℕ → ℤ) (lse cotangent : ℕ → XReal) (r : ℕ × ℕ) (i j : ℕ) : XReal :=
  let p := (mm r.1 r.2 i j - lse i).exp
  let onehot : XReal := if ((r.1 + j : ℕ) : ℤ) = targets i then real 1 else 0
  (p - onehot) * cotangent i

/-- `g.T @ hidden` of one chunk, a row of `d_w` for each of its columns. -/
def chunkDw (n : ℕ) (hidden : ℕ → ℕ → XReal) (g : ℕ → ℕ → XReal) (m : ℕ) : List (ℕ → XReal) :=
  (List.range m).map fun j k => ∑ i ∈ Finset.range n, g i j * hidden i k

/-- `chunked_backward`: `d_hidden`, and `d_w` of a trainable head. -/
def chunkedBackward (n : ℕ) (hidden : ℕ → ℕ → XReal) (mm : MatmulChunk) (wChunk : WChunk) (targets : ℕ → ℤ)
    (lse cotangent : ℕ → XReal) (v : ℕ) (chunkSize : ℤ) (headTrainable : Bool) :
    Except ChunkError ((ℕ → ℕ → XReal) × Option (List (ℕ → XReal))) := do
  let rs ← chunks v chunkSize
  let g := chunkGrad mm targets lse cotangent
  let dHidden := fun i k => rs.foldl
    (fun acc r => acc + ∑ j ∈ Finset.range (r.2 - r.1), g r i j * wChunk r.1 r.2 j k) (0 : XReal)
  if headTrainable then
    if rs = [] then .error .emptyConcatenate
    else return (dHidden, some (rs.flatMap fun r => chunkDw n hidden (g r) (r.2 - r.1)))
  else return (dHidden, none)

/-! ## The dense head -/

/-- `(hidden @ w[v0:v1].T).astype(mx.float32)`. -/
def denseMatmul (x : DenseArgs) : MatmulChunk :=
  fun v0 _ i j => ∑ k ∈ Finset.range x.d, real (x.hidden i k) * real (x.w (v0 + j) k)

/-- `lambda a, b: w[a:b]`. -/
def denseChunk (x : DenseArgs) : WChunk := fun v0 _ j k => real (x.w (v0 + j) k)

/-- `lse - tgt`: the loss of each row. -/
def chunkedCe (mm : MatmulChunk) (targets : ℕ → ℤ) (v : ℕ) (chunkSize : ℤ) : Except ChunkError (ℕ → XReal) := do
  let rows ← streamedLseAndTarget mm targets v chunkSize
  return fun i => (rows i).1 - (rows i).2

/-- `dense_ce`. -/
def denseCe (x : DenseArgs) (chunkSize : ℤ) : Except ChunkError (ℕ → XReal) :=
  chunkedCe (denseMatmul x) x.targets x.v chunkSize

/-- `naive_linear_ce`. -/
def naiveLinearCe (x : DenseArgs) (i : ℕ) : XReal :=
  let logits := denseMatmul x 0 x.v i
  logsumexpRow x.v logits - logits (x.target i)

end

end MlxTrainPerf.Core
