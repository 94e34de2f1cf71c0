import MlxTrainPerf.Lib.Buckets
import MlxTrainPerf.Core.Loss
/-!
# Which implementation a call gets

`resolve_impl` and what it asks: the kernel's supported heads and dtypes, the
verified mlx versions, and the row tiles measured nearest to the call's rows.
-/
open Buckets

namespace MlxTrainPerf.Core

/-! ## `select_variant` -/

/-- The first entry of `MEASURED`, and the others: the row tiles of each bucket. -/
def measuredFirst : ℕ × ℤ := (512, 2)

def measuredRest : List (ℕ × ℤ) := [(2048, 2), (8192, 4)]

structure VariantChoice where
  rowTiles : ℤ
  provisional : Bool
  bucket : ℕ
deriving DecidableEq, Repr

def selectVariant (n : ℕ) : VariantChoice :=
  let best := nearest n measuredFirst measuredRest
  { rowTiles := best.2
    provisional := !(decide (best.1 ≤ n) && decide (n < 2 * best.1))
    bucket := best.1 }

/-- The row tiles are ones the builders accept. -/
theorem selectVariant_rowTiles (n : ℕ) : (selectVariant n).rowTiles = 2 ∨ (selectVariant n).rowTiles = 4 := by
  have hmeasured : ∀ e ∈ measuredFirst :: measuredRest, e.2 = 2 ∨ e.2 = 4 := by decide
  exact hmeasured _ nearest_mem

/-! ## `check_mlx_verified` -/

/-- `VERIFIED_MLX_VERSIONS`. -/
def verifiedMlxVersions : List String := ["0.31.2", "0.32.0"]

def unverifiedMsg (version : String) : String :=
  s!"mlx {version} is not kernel-verified (verified: ['0.31.2', '0.32.0']). Pass allow_unverified_mlx=True to " ++
    "proceed at your own risk (run the parity suite first: pytest --run-metal), or use impl='chunked'."

def checkMlxVerified (version : String) (allowUnverified : Bool) : Except LossError Unit :=
  if version ∈ verifiedMlxVersions ∨ allowUnverified = true then .ok () else .error (.kernel (unverifiedMsg version))

/-! ## `_require_kernel_supported` -/

/-- `_KERNEL_DTYPES`. -/
def kernelDtypes : List Dtype := [.float32, .bfloat16]

def dtypeMsg (dtype : Dtype) : String :=
  s!"kernel impl only supports fp32/bf16 hidden dtype (got {dtype.str}); use impl='chunked' for other dtypes."

def bitsMsg (bits : ℤ) : String :=
  s!"kernel impl only supports 4-bit quantized heads (got bits={bits}); use impl='chunked' for other bit widths."

def groupSizeMsg (groupSize : ℤ) : String :=
  s!"kernel impl only supports group_size=64 quantized heads (got group_size={groupSize}); " ++
    "use impl='chunked' for other group sizes."

def hiddenDimMsg (d : ℤ) : String :=
  s!"kernel impl requires the quantized head's hidden dim to be a multiple of 64 (got d={d}); use impl='chunked'."

def requireKernelSupported (head : HeadRef) (dtype : Dtype) : Except LossError Unit :=
  if dtype ∉ kernelDtypes then .error (.kernel (dtypeMsg dtype))
  else match head with
    | .dense _ => .ok ()
    | .quantized head =>
      if head.bits ≠ 4 then .error (.kernel (bitsMsg head.bits))
      else if head.groupSize ≠ 64 then .error (.kernel (groupSizeMsg head.groupSize))
      else do
        let d ← quantizedHeadD head
        if d % 64 ≠ 0 then .error (.kernel (hiddenDimMsg d)) else .ok ()

/-! ## `resolve_impl` -/

/-- `Resolution.impl`. -/
inductive ResolvedImpl
  | kernel
  | chunked
  | naive
deriving DecidableEq, Repr

structure Resolution where
  impl : ResolvedImpl
  rowTiles : Option ℤ
  provisional : Bool
  reason : String
deriving DecidableEq, Repr

def rowCountMsg (n : ℕ) : String := s!"n must be positive (hidden's row count); got n={n}"

/-- Why the kernel has the row tiles it has. -/
def variantReason (n : ℕ) (variant : VariantChoice) : String :=
  s!"kernel row_tiles={variant.rowTiles} selected for n={n} (bucket {variant.bucket})" ++
    if variant.provisional then " — nearest-measured bucket, provisional" else ""

/-- What `auto` and `kernel` both resolve to: the kernel, or an error. -/
def resolveKernel (version : String) (head : HeadRef) (dtype : Dtype) (n : ℕ) (allowUnverified : Bool) :
    Except LossError Resolution := do
  requireKernelSupported head dtype
  checkMlxVerified version allowUnverified
  let variant := selectVariant n
  return ⟨.kernel, some variant.rowTiles, variant.provisional, variantReason n variant⟩

def resolveImpl (version : String) (head : HeadRef) (dtype : Dtype) (n : ℕ) (impl : Impl) (allowUnverified : Bool) :
    Except LossError Resolution :=
  if n = 0 then .error (.lossInput (rowCountMsg n))
  else match impl with
    | .chunked => .ok ⟨.chunked, none, false, "explicit impl='chunked' opt-in"⟩
    | .naive => .ok ⟨.naive, none, false, "explicit impl='naive' opt-in"⟩
    | .auto | .kernel => resolveKernel version head dtype n allowUnverified
    | .other name => .error (.lossInput (implMsg name))

end MlxTrainPerf.Core
