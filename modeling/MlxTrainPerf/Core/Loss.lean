import MlxTrainPerf.Core.Chunked
/-!
# `linear_cross_entropy`

`core/loss.py`: the checks on the inputs, the choice of an implementation, the
reduction. What mlx computes from a quantized row, and the kernel's losses
(which hang on rates it measures), are parameters.
-/
open XReal

namespace MlxTrainPerf.Core

/-- mlx's dtypes. -/
inductive Dtype
  | bool | uint8 | uint16 | uint32 | uint64 | int8 | int16 | int32 | int64 | float16 | bfloat16 | float32 | float64
  | complex64
deriving DecidableEq, Repr

/-- `mx.issubdtype(dtype, mx.integer)`. -/
def Dtype.isInteger : Dtype → Bool
  | uint8 | uint16 | uint32 | uint64 | int8 | int16 | int32 | int64 => true
  | _ => false

/-- `str(dtype)`. -/
def Dtype.str : Dtype → String
  | bool => "mlx.core.bool"
  | uint8 => "mlx.core.uint8"
  | uint16 => "mlx.core.uint16"
  | uint32 => "mlx.core.uint32"
  | uint64 => "mlx.core.uint64"
  | int8 => "mlx.core.int8"
  | int16 => "mlx.core.int16"
  | int32 => "mlx.core.int32"
  | int64 => "mlx.core.int64"
  | float16 => "mlx.core.float16"
  | bfloat16 => "mlx.core.bfloat16"
  | float32 => "mlx.core.float32"
  | float64 => "mlx.core.float64"
  | complex64 => "mlx.core.complex64"

/-- A Python tuple's text. -/
def tupleStr : List ℕ → String
  | [a] => s!"({a},)"
  | xs => "(" ++ ", ".intercalate (xs.map toString) ++ ")"

/-- What `linear_cross_entropy` raises. -/
inductive LossError
  | lossInput (msg : String)
  | zeroDivision
  | chunk (e : ChunkError)
  | kernel (msg : String)
deriving DecidableEq, Repr

/-! ## Arguments -/

/-- The hidden states, by row-major row and column. -/
structure HiddenArray where
  shape : List ℕ
  dtype : Dtype
  data : ℕ → ℕ → ℝ

/-- The targets, in row-major order. -/
structure TargetArray where
  shape : List ℕ
  dtype : Dtype
  data : ℕ → ℤ

/-- A `(V, D)` weight. -/
structure DenseHead where
  v : ℕ
  d : ℕ
  dtype : Dtype
  weight : ℕ → ℕ → ℝ
  v_int32 : v < 2 ^ 31

/-- A `(V, words)` packed weight, and the scales and biases of its groups. -/
structure QuantizedHead where
  v : ℕ
  words : ℕ
  wQ : ℕ → ℕ → ℕ
  scales : ℕ → ℕ → ℝ
  biases : ℕ → ℕ → ℝ
  groupSize : ℤ
  bits : ℤ
  v_int32 : v < 2 ^ 31

inductive HeadRef
  | dense (head : DenseHead)
  | quantized (head : QuantizedHead)

inductive Impl
  | auto
  | kernel
  | chunked
  | naive
  | other (name : String)
deriving DecidableEq, Repr

inductive Reduction
  | none
  | mean
  | sum
  | other (name : String)
deriving DecidableEq, Repr

structure LossCall where
  hidden : HiddenArray
  head : HeadRef
  targets : TargetArray
  impl : Impl
  chunkSize : Option ℤ
  reduction : Reduction
  validateTargets : Bool

/-- `_KERNEL_TILE`. -/
def kernelTile : ℤ := 8192

/-- `hidden.shape[:-1]`. -/
def LossCall.leading (c : LossCall) : List ℕ := c.hidden.shape.dropLast

/-- The rows once flattened. -/
def LossCall.rows (c : LossCall) : ℕ := c.leading.prod

/-- `hidden.shape[-1]`. -/
def LossCall.d (c : LossCall) : ℕ := c.hidden.shape.getLastD 0

def HeadRef.v : HeadRef → ℕ
  | dense head => head.v
  | quantized head => head.v

/-! ## Checks -/

/-- `_quantized_head_d`. -/
def quantizedHeadD (head : QuantizedHead) : Except LossError ℤ :=
  if head.bits = 0 then .error .zeroDivision else .ok (head.words * Int.fdiv 32 head.bits)

def ndimMsg (shape : List ℕ) : String := s!"hidden must be 2D (N,D) or 3D (B,S,D), got shape {tupleStr shape}"

def noRowMsg (leading : List ℕ) : String := s!"hidden must have at least one row, got leading dims {tupleStr leading}"

def targetShapeMsg (shape leading : List ℕ) : String :=
  s!"targets shape {tupleStr shape} must match hidden's leading dims {tupleStr leading}"

def targetDtypeMsg (dtype : Dtype) : String := s!"targets must be an integer dtype, got {dtype.str}"

def weightDimMsg (lastDim d : ℕ) : String := s!"head.weight's last dim ({lastDim}) must match hidden's D ({d})"

def weightDtypeMsg (hidden weight : Dtype) : String :=
  s!"hidden dtype {hidden.str} must match dense head weight dtype {weight.str}"

def quantizedDimMsg (headD : ℤ) (d : ℕ) : String :=
  s!"quantized head implies D={headD} (from w_q shape and bits), which does not match hidden's D={d}"

def targetRangeMsg (v : ℕ) (tmin tmax : ℤ) : String :=
  s!"targets must satisfy 0 <= t < V={v}; got range [{tmin}, {tmax}]"

/-- The head's part of `_validate_inputs`. -/
def validateHead (c : LossCall) : Except LossError Unit :=
  match c.head with
  | .dense head =>
    if head.d ≠ c.d then .error (.lossInput (weightDimMsg head.d c.d))
    else if c.hidden.dtype ≠ head.dtype then .error (.lossInput (weightDtypeMsg c.hidden.dtype head.dtype))
    else .ok ()
  | .quantized head =>
    match quantizedHeadD head with
    | .error e => .error e
    | .ok headD => if headD ≠ c.d then .error (.lossInput (quantizedDimMsg headD c.d)) else .ok ()

/-- `mx.min(targets)` and `mx.max(targets)`. -/
def targetMin (c : LossCall) : ℤ := (List.range c.rows).foldl (fun m i => min m (c.targets.data i)) (c.targets.data 0)

def targetMax (c : LossCall) : ℤ := (List.range c.rows).foldl (fun m i => max m (c.targets.data i)) (c.targets.data 0)

/-- The targets' part of `_validate_inputs`. -/
def validateTargetRange (c : LossCall) : Except LossError Unit :=
  if c.validateTargets = true ∧ (targetMin c < 0 ∨ (c.head.v : ℤ) ≤ targetMax c) then
    .error (.lossInput (targetRangeMsg c.head.v (targetMin c) (targetMax c)))
  else .ok ()

/-- `_validate_inputs`. -/
def validateInputs (c : LossCall) : Except LossError Unit := do
  if ¬(c.hidden.shape.length = 2 ∨ c.hidden.shape.length = 3) then .error (.lossInput (ndimMsg c.hidden.shape))
  else if c.rows = 0 then .error (.lossInput (noRowMsg c.leading))
  else if c.targets.shape ≠ c.leading then .error (.lossInput (targetShapeMsg c.targets.shape c.leading))
  else if c.targets.dtype.isInteger = false then .error (.lossInput (targetDtypeMsg c.targets.dtype))
  else
    validateHead c
    validateTargetRange c

def reductionMsg (name : String) : String := s!"unknown reduction '{name}'; expected 'none', 'mean', or 'sum'"

def checkReduction : Reduction → Except LossError Unit
  | .other name => .error (.lossInput (reductionMsg name))
  | _ => .ok ()

/-- What the entry point checks before it computes anything. -/
def checkCall (c : LossCall) : Except LossError Unit := do
  checkReduction c.reduction
  validateInputs c

/-! ## Losses -/

/-- The loss: of each row, in the targets' shape, or one number. -/
inductive LossValue
  | rows (shape : List ℕ) (nll : List XReal)
  | scalar (x : XReal)

noncomputable section

/-- `_reduce`. -/
def reduceLoss (c : LossCall) (nll : ℕ → XReal) : LossValue :=
  let total := ∑ i ∈ Finset.range c.rows, nll i
  match c.reduction with
  | .none => .rows c.leading ((List.range c.rows).map nll)
  | .mean => .scalar (total * real (1 / c.rows))
  | _ => .scalar total

/-- `mx.dequantize`, row by row: the words, scales and biases of a row, the group
size and the bits give the row's columns. -/
abbrev Dequantize : Type := (ℕ → ℕ) → (ℕ → ℝ) → (ℕ → ℝ) → ℤ → ℤ → ℕ → ℝ

/-- The weights of a quantized head. -/
def QuantizedHead.row (dequantize : Dequantize) (head : QuantizedHead) (c : ℕ) : ℕ → ℝ :=
  dequantize (head.wQ c) (head.scales c) (head.biases c) head.groupSize head.bits

/-- The flattened call: its rows, and the weights as numbers. -/
def LossCall.args (dequantize : Dequantize) (c : LossCall) : DenseArgs where
  n := c.rows
  d := c.d
  v := c.head.v
  hidden := c.hidden.data
  w := match c.head with
    | .dense head => head.weight
    | .quantized head => head.row dequantize
  targets := c.targets.data
  v_int32 := match c.head with
    | .dense head => head.v_int32
    | .quantized head => head.v_int32

/-- `_naive_nll`. -/
def naiveNll (dequantize : Dequantize) (c : LossCall) (i : ℕ) : XReal := naiveLinearCe (c.args dequantize) i

/-- `mx.quantized_matmul` of the head's rows `[v0, v1)`: the product with what they
dequantize to. -/
def quantizedMatmul (dequantize : Dequantize) (c : LossCall) (head : QuantizedHead) : MatmulChunk :=
  fun v0 _ i j => ∑ k ∈ Finset.range c.d, real (c.hidden.data i k) * real (head.row dequantize (v0 + j) k)

/-- `quant_ce`. -/
def quantCe (dequantize : Dequantize) (c : LossCall) (head : QuantizedHead) (chunkSize : ℤ) :
    Except ChunkError (ℕ → XReal) := chunkedCe (quantizedMatmul dequantize c head) c.targets.data head.v chunkSize

/-- `_chunked_nll`. -/
def chunkedNll (dequantize : Dequantize) (c : LossCall) (chunkSize : ℤ) : Except LossError (ℕ → XReal) :=
  match c.head with
  | .dense _ => (denseCe (c.args dequantize) chunkSize).mapError .chunk
  | .quantized head => (quantCe dequantize c head chunkSize).mapError .chunk

def implMsg (name : String) : String := s!"unknown impl '{name}'; expected one of 'auto', 'kernel', 'chunked', 'naive'"

/-- `linear_cross_entropy`; `kernel` is what the kernel's branch gives the call. -/
def linearCrossEntropy (dequantize : Dequantize) (kernel : LossCall → Except LossError (ℕ → XReal)) (c : LossCall) :
    Except LossError LossValue := do
  checkCall c
  let nll ← match c.impl with
    | .naive => .ok (naiveNll dequantize c)
    | .chunked => chunkedNll dequantize c (c.chunkSize.getD kernelTile)
    | .auto | .kernel => kernel c
    | .other name => .error (.lossInput (implMsg name))
  return reduceLoss c nll

end

end MlxTrainPerf.Core
