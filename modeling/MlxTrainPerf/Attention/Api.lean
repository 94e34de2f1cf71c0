import MlxTrainPerf.Attention.KernelPass
import MlxTrainPerf.Core.Resolve
/-!
# `flash_attention`

The public call: the checks on its shapes, which implementation it gets, and on
the kernel path the tiles its shape selects and the rates they are calibrated at.
What calibration measures is a parameter. A call that resolves to the kernel is
refused for a launch budget, or returns what the reference returns.
-/
open XReal Buckets

namespace MlxTrainPerf.Attention

open Launch (Shape LaunchBudgetError)
open MlxTrainPerf.Core (Dtype tupleStr kernelDtypes verifiedMlxVersions unverifiedMsg)
open Kernel

/-- What `flash_attention` raises. -/
inductive AttentionError
  | input (msg : String)
  | unsupported (msg : String)
  | unverified (msg : String)
  | value (msg : String)
  | zeroDivision
  | kernel (e : KernelError)
  | oracle (e : OracleError)
deriving DecidableEq, Repr

/-! ## `_validate_shapes` -/

def rankMsg (name : String) (shape : List ℕ) : String := s!"{name} must be 4-D (B, H, N, D); got shape {tupleStr shape}"

def rank4 (name : String) : List ℕ → Except AttentionError (ℕ × ℕ × ℕ × ℕ)
  | [b, h, n, d] => .ok (b, h, n, d)
  | shape => .error (.input (rankMsg name shape))

def groupingMsg (hq hkv : ℕ) : String := s!"Hq={hq} must be a multiple of Hkv={hkv} for GQA grouping"

def validateShapes (qShape kShape vShape : List ℕ) : Except AttentionError Shape := do
  let (bQ, hq, nQ, dQ) ← rank4 "q" qShape
  let (bK, hkv, nK, dK) ← rank4 "k" kShape
  let (bV, hv, nV, dV) ← rank4 "v" vShape
  if bQ < 1 then .error (.input s!"batch must be >= 1; got {bQ}")
  else if ¬(bQ = bK ∧ bK = bV) then .error (.input s!"batch mismatch: q={bQ}, k={bK}, v={bV}")
  else if hkv ≠ hv then .error (.input s!"k/v head-count mismatch: k has {hkv} heads, v has {hv}")
  else if hkv = 0 then .error .zeroDivision
  else if hq % hkv ≠ 0 then .error (.input (groupingMsg hq hkv))
  else if ¬(nQ = nK ∧ nK = nV) then .error (.input s!"sequence length mismatch: q={nQ}, k={nK}, v={nV}")
  else if ¬(dQ = dK ∧ dK = dV) then .error (.input s!"head_dim mismatch: q={dQ}, k={dK}, v={dV}")
  else .ok ⟨nQ, dQ, bQ, hq, hkv⟩

/-! ## Calls -/

inductive AttentionImpl
  | auto
  | kernel
  | reference
  | other (name : String)
deriving DecidableEq, Repr

structure AttentionCall where
  qShape : List ℕ
  kShape : List ℕ
  vShape : List ℕ
  dtype : Dtype
  q : Tensor ℝ
  k : Tensor ℝ
  v : Tensor ℝ
  scale : ℝ
  causal : Bool
  impl : AttentionImpl
  segments : Option SegBuffers

/-- What a call finds on its machine: Metal, the installed mlx, and what the three
calibrations give a shape (the text of a `ValueError` where one raises). -/
structure AttentionDevice where
  metal : Bool
  mlxVersion : String
  fwdRate : Shape → Bool → Dtype → TileShape → Except String ℚ
  dqRate : Shape → Bool → Dtype → TileShape → Except String ℚ
  dkvRate : Shape → Bool → Dtype → TileShape → Except String ℚ

/-! ## `resolve_attention_impl` -/

inductive ResolvedAttention
  | kernel
  | reference
deriving DecidableEq, Repr

def segmentsCausalMsg : String :=
  "segments (packed attention) require causal=True (got causal=False); packing composes on top of the causal triangle."

def attentionImplMsg (name : String) : String := s!"unknown impl '{name}'; expected one of 'auto', 'kernel', 'reference'"

def attentionDtypeMsg (dtype : Dtype) : String := s!"kernel impl only supports fp32/bf16 (got {dtype.str}); use impl='reference'."

def attentionHeadDimMsg (headDim : ℕ) : String :=
  s!"kernel impl only supports head_dim in (64, 96, 128) (got {headDim}); use impl='reference'."

def attentionCausalMsg : String := "kernel impl only supports causal=True (got causal=False); use impl='reference'."

def metalMsg : String := "kernel impl requires Metal (no GPU device available); use impl='reference'."

/-- What `auto` and `kernel` both resolve to: the kernel, or an error. -/
def requireKernel (dev : AttentionDevice) (c : AttentionCall) (s : Shape) : Except AttentionError Unit :=
  if c.dtype ∉ kernelDtypes then .error (.unsupported (attentionDtypeMsg c.dtype))
  else if s.d ∉ kernelHeadDims then .error (.unsupported (attentionHeadDimMsg s.d))
  else if c.causal = false then .error (.unsupported attentionCausalMsg)
  else if dev.metal = false then .error (.unsupported metalMsg)
  else if dev.mlxVersion ∉ verifiedMlxVersions then .error (.unverified (unverifiedMsg dev.mlxVersion))
  else .ok ()

/-- The shape of a call, and its implementation. -/
def resolveAttentionImpl (dev : AttentionDevice) (c : AttentionCall) : Except AttentionError (Shape × ResolvedAttention) := do
  let s ← validateShapes c.qShape c.kShape c.vShape
  if c.segments.isSome = true ∧ c.causal = false then .error (.unsupported segmentsCausalMsg)
  else match c.impl with
    | .reference => .ok (s, .reference)
    | .other name => .error (.input (attentionImplMsg name))
    | .auto | .kernel => (requireKernel dev c s).map fun _ => (s, .kernel)

/-! ## Tiles -/

/-- A ladder: by head dim, the first measured bucket and the others, each with its
winner. -/
abbrev Ladder : Type := List (ℕ × (ℕ × TileShape) × List (ℕ × TileShape))

/-- `MEASURED`, and alike `DQ_MEASURED` and `DKV_MEASURED`. -/
def slab128 : Ladder := [(128, (8192, ⟨.mma, some 128⟩), [])]

def fwdMeasured : Ladder := slab128

def dqMeasured : Ladder := slab128

def dkvMeasured : Ladder := slab128

/-- `_UNMEASURED_HEAD_DIM_CHOICE`. -/
def unmeasuredChoice : TileShape := ⟨.mma, none⟩

structure TileChoice extends TileShape where
  provisional : Bool
deriving DecidableEq, Repr

/-- `math.log2(0)`. -/
def mathDomain : AttentionError := .value "math domain error"

/-- `_select_from_measured`. -/
def selectFromMeasured (measured : Ladder) (n headDim : ℕ) : Except AttentionError TileChoice :=
  match measured.lookup headDim with
  | none => .ok ⟨unmeasuredChoice, true⟩
  | some (first, rest) =>
    if n = 0 then .error mathDomain
    else
      let best := nearest n first rest
      .ok ⟨best.2, !(decide (best.1 ≤ n) && decide (n < 2 * best.1))⟩

def selectFwdTile (n headDim : ℕ) : Except AttentionError TileChoice :=
  if headDim ∉ kernelHeadDims then .error (.value (headDimMsg headDim)) else selectFromMeasured fwdMeasured n headDim

def selectBwdTiles (n headDim : ℕ) : Except AttentionError (TileChoice × TileChoice) :=
  if headDim ∉ kernelHeadDims then .error (.value (headDimMsg headDim))
  else do
    let dq ← selectFromMeasured dqMeasured n headDim
    let dkv ← selectFromMeasured dkvMeasured n headDim
    return (dq, dkv)

/-! ## Rates -/

/-- `_n_bucket`. -/
def nBucket (n : ℕ) : ℕ := 2 ^ max 9 (Nat.size (n - 1))

def pyBool (b : Bool) : String := if b then "True" else "False"

def prewarmMsg (s : Shape) (packed : Bool) : String :=
  let packedArg := if packed then "packed=True, " else ""
  s!"flash-attention rate calibration host-synced on a traced array for shape (batch={s.b}, n-bucket={nBucket s.n}, " ++
    s!"packed={pyBool packed}) inside a compiled trace. Pre-warm the caches BEFORE compiling: " ++
    s!"enable_flash_attention(model, {packedArg}seq_len={s.n}, batch_size={s.b})."

/-- A calibration that evaluated a traced array is told so; any other `ValueError` passes. -/
def rateError (s : Shape) (packed : Bool) (msg : String) : AttentionError :=
  if msg.contains "function transformations" then .unsupported (prewarmMsg s packed) else .value msg

/-- The tiles and rates of a kernel call. -/
def resolveTiles (dev : AttentionDevice) (c : AttentionCall) (s : Shape) : Except AttentionError Resolved := do
  let packed := c.segments.isSome
  let tile ← selectFwdTile s.n s.d
  let (dqTile, dkvTile) ← selectBwdTiles s.n s.d
  let rate ← (dev.fwdRate s packed c.dtype tile.toTileShape).mapError (rateError s packed)
  let dqRate ← (dev.dqRate s packed c.dtype dqTile.toTileShape).mapError (rateError s packed)
  let dkvRate ← (dev.dkvRate s packed c.dtype dkvTile.toTileShape).mapError (rateError s packed)
  return ⟨tile.toTileShape, some rate, dqTile.toTileShape, some dqRate, dkvTile.toTileShape, some dkvRate⟩

/-- What a call runs: its shape, and the tiles and rates of the kernels, or none for the reference. -/
def resolveCall (dev : AttentionDevice) (c : AttentionCall) : Except AttentionError (Shape × Option Resolved) := do
  let (s, resolved) ← resolveAttentionImpl dev c
  match resolved with
  | .reference => .ok (s, none)
  | .kernel => (resolveTiles dev c s).map fun res => (s, some res)

noncomputable section

/-- The forward of `_core`. -/
def coreForward (c : AttentionCall) (mem : Memory) (s : Shape) : Option Resolved → Except AttentionError (Tensor XReal)
  | some res => ((launchFwd res.tile res.rate c.segments (argsOf s c.q c.k c.v c.scale c.segments) mem).map
      Prod.fst).mapError .kernel
  | none => ((attentionCore s c.q c.k c.v c.scale c.causal (idsOf c.segments)).map Prod.fst).mapError .oracle

/-- `_core` and `_core_vjp`. -/
def corePass (c : AttentionCall) (dO : Tensor ℝ) (mem : Memory) (s : Shape) : Option Resolved → Except AttentionError Pass
  | some res => (kernelPass s res c.q c.k c.v dO c.scale c.segments mem).mapError .kernel
  | none => (referencePass s c.q c.k c.v dO c.scale c.causal (idsOf c.segments)).mapError .oracle

/-- `flash_attention`. -/
def flashAttention (dev : AttentionDevice) (mem : Memory) (c : AttentionCall) : Except AttentionError (Tensor XReal) := do
  let (s, res) ← resolveCall dev c
  coreForward c mem s res

/-- `flash_attention`, and its vjp at a cotangent. -/
def flashPass (dev : AttentionDevice) (mem : Memory) (c : AttentionCall) (dO : Tensor ℝ) : Except AttentionError Pass := do
  let (s, res) ← resolveCall dev c
  corePass c dO mem s res

end

/-! ## The tiles a shape selects -/

section Tiles
variable {n headDim : ℕ} {segs : Option SegBuffers}

/-- The shipped tile of a head dim. -/
def shippedTile (headDim : ℕ) : TileShape := ⟨.mma, if headDim = 128 then some 128 else none⟩

theorem selectFromMeasured_ok {tile : TileChoice} (hd : headDim ∈ kernelHeadDims)
    (h : selectFromMeasured slab128 n headDim = .ok tile) : tile.toTileShape = shippedTile headDim := by
  have hdims : headDim = 64 ∨ headDim = 96 ∨ headDim = 128 := by simpa [kernelHeadDims] using hd
  rcases hdims with rfl | rfl | rfl
  · obtain rfl := Except.ok.inj h
    rfl
  · obtain rfl := Except.ok.inj h
    rfl
  · unfold selectFromMeasured at h
    have hlookup : slab128.lookup 128 = some ((8192, ⟨.mma, some 128⟩), []) := rfl
    rw [hlookup] at h
    dsimp only at h
    split at h
    · cases h
    · obtain rfl := Except.ok.inj h
      rfl

theorem selectFwdTile_ok {tile : TileChoice} (h : selectFwdTile n headDim = .ok tile) :
    headDim ∈ kernelHeadDims ∧ tile.toTileShape = shippedTile headDim := by
  unfold selectFwdTile at h
  split at h
  · cases h
  · next hd => exact ⟨not_not.1 hd, selectFromMeasured_ok (not_not.1 hd) h⟩

theorem selectBwdTiles_ok {tiles : TileChoice × TileChoice} (h : selectBwdTiles n headDim = .ok tiles) :
    tiles.1.toTileShape = shippedTile headDim ∧ tiles.2.toTileShape = shippedTile headDim := by
  unfold selectBwdTiles at h
  split at h
  · cases h
  · next hd =>
    obtain ⟨dq, hdq, h⟩ := Budget.bind_eq_ok.1 h
    obtain ⟨dkv, hdkv, h⟩ := Budget.bind_eq_ok.1 h
    obtain rfl := Except.ok.inj h
    exact ⟨selectFromMeasured_ok (not_not.1 hd) hdq, selectFromMeasured_ok (not_not.1 hd) hdkv⟩

/-- The three builders take the shipped tile of every head dim. -/
theorem shippedTile_builds (hd : headDim ∈ kernelHeadDims) (segs : Option SegBuffers) :
    (∃ body, buildKernel buildFwdMmaSource headDim (shippedFlags segs) (shippedTile headDim) = .ok body) ∧
    (∃ body, buildKernel buildBwdDqMmaSource headDim (shippedFlags segs) (shippedTile headDim) = .ok body) ∧
    ∃ body, buildKernel buildBwdDkvMmaSource headDim (shippedFlags segs) (shippedTile headDim) = .ok body := by
  have hdims : headDim = 64 ∨ headDim = 96 ∨ headDim = 128 := by simpa [kernelHeadDims] using hd
  rcases segs with _ | m
  · rcases hdims with rfl | rfl | rfl
    · exact ⟨⟨_, rfl⟩, ⟨_, rfl⟩, _, rfl⟩
    · exact ⟨⟨_, rfl⟩, ⟨_, rfl⟩, _, rfl⟩
    · exact ⟨⟨_, rfl⟩, ⟨_, rfl⟩, _, rfl⟩
  · rcases hdims with rfl | rfl | rfl
    · exact ⟨⟨_, rfl⟩, ⟨_, rfl⟩, _, rfl⟩
    · exact ⟨⟨_, rfl⟩, ⟨_, rfl⟩, _, rfl⟩
    · exact ⟨⟨_, rfl⟩, ⟨_, rfl⟩, _, rfl⟩

end Tiles

/-! ## What a kernel call is refused for -/

/-- Refused for a launch budget, or not at all. -/
def Budgeted {α : Type} (x : Except KernelError α) : Prop := (∃ e, x = .error (.plan (.budget e))) ∨ ∃ a, x = .ok a

section Budgeted
variable {α β : Type} {s : Shape} {segs : Option SegBuffers} {tile : TileShape} {rate : ℚ} {mem : Memory}

theorem Budgeted.bind {x : Except KernelError α} {f : α → Except KernelError β} (hx : Budgeted x) (hf : ∀ a, Budgeted (f a)) :
    Budgeted (x >>= f) := by
  obtain ⟨e, rfl⟩ | ⟨a, rfl⟩ := hx
  · exact Or.inl ⟨e, rfl⟩
  · exact hf a

theorem Budgeted.ok (a : α) : Budgeted (.ok a) := Or.inr ⟨a, rfl⟩

/-- Planning at a positive rate a row that costs something. -/
theorem rangesOf_budgeted {n pairCost : ℕ} {plan : ℚ → Except LaunchBudgetError (List (ℕ × ℕ))} (hrate : 0 < rate)
    (hcost : 0 < pairCost) : Budgeted (rangesOf n (fun rate => planFrom n pairCost rate (plan rate)) (some rate)) := by
  have hdivides : ¬(0 < n ∧ (rate = 0 ∨ 0 < rate ∧ pairCost = 0)) := by
    rintro ⟨-, hzero | ⟨-, hzero⟩⟩
    · exact hrate.ne' hzero
    · exact hcost.ne' hzero
  unfold rangesOf planFrom
  dsimp only
  rw [if_neg hdivides]
  cases plan rate with
  | error e => exact Or.inl ⟨e, rfl⟩
  | ok ranges => exact Budgeted.ok ranges

theorem built_budgeted {x : Except ValueError Body} {f : Body → Except KernelError α} (hx : ∃ body, x = .ok body)
    (hf : ∀ body, Budgeted (f body)) : Budgeted (x.mapError .value >>= f) := by
  obtain ⟨body, rfl⟩ := hx
  exact hf body

/-- No head dim, tile or flag that a call can reach is refused by a builder. -/
theorem kernelPass_budgeted {res : Resolved} {q k v dO : Tensor ℝ} {scale : ℝ} {rate dqRate dkvRate : ℚ}
    (hd : s.d ∈ kernelHeadDims) (hcost : 0 < s.d * s.b * s.hq)
    (hres : res = ⟨shippedTile s.d, some rate, shippedTile s.d, some dqRate, shippedTile s.d, some dkvRate⟩)
    (hrate : 0 < rate) (hdq : 0 < dqRate) (hdkv : 0 < dkvRate) : Budgeted (kernelPass s res q k v dO scale segs mem) := by
  obtain ⟨hfwdBuilds, hdqBuilds, hdkvBuilds⟩ := shippedTile_builds hd segs
  have hpair : ∀ m, 0 < m → 0 < m * s.d * s.b * s.hq := by
    intro m hm
    rw [mul_assoc m, mul_assoc m]
    exact Nat.mul_pos hm hcost
  subst hres
  unfold kernelPass launchFwd launchDq launchDkv
  refine Budgeted.bind ?_ fun out => Budgeted.bind ?_ fun dQ => Budgeted.bind ?_ fun _ => Budgeted.ok _
  · exact (rangesOf_budgeted hrate (hpair 2 (by decide))).bind fun _ => built_budgeted hfwdBuilds fun _ => Budgeted.ok _
  · exact (rangesOf_budgeted hdq (hpair 3 (by decide))).bind fun _ => built_budgeted hdqBuilds fun _ => Budgeted.ok _
  · exact (rangesOf_budgeted hdkv (hpair 4 (by decide))).bind fun _ => built_budgeted hdkvBuilds fun _ => Budgeted.ok _

end Budgeted

/-! ## A call -/

/-- Every rate a device calibrates is positive. -/
structure AttentionDevice.Calibrates (dev : AttentionDevice) : Prop where
  fwd : ∀ s packed dtype tile rate, dev.fwdRate s packed dtype tile = .ok rate → 0 < rate
  dq : ∀ s packed dtype tile rate, dev.dqRate s packed dtype tile = .ok rate → 0 < rate
  dkv : ∀ s packed dtype tile rate, dev.dkvRate s packed dtype tile = .ok rate → 0 < rate

section Call
variable {dev : AttentionDevice} {c : AttentionCall} {s : Shape}

/-- The shapes and the mask of a call are accepted. -/
structure Accepted (c : AttentionCall) (s : Shape) : Prop where
  shapes : validateShapes c.qShape c.kShape c.vShape = .ok s
  segments : c.segments.isSome = true → c.causal = true

theorem validateShapes_ok {qShape kShape vShape : List ℕ} (h : validateShapes qShape kShape vShape = .ok s) :
    1 ≤ s.b ∧ 1 ≤ s.hkv ∧ s.hkv ∣ s.hq := by
  obtain ⟨⟨bQ, hq, nQ, dQ⟩, -, h⟩ := Budget.bind_eq_ok.1 h
  obtain ⟨⟨bK, hkv, nK, dK⟩, -, h⟩ := Budget.bind_eq_ok.1 h
  obtain ⟨⟨bV, hv, nV, dV⟩, -, h⟩ := Budget.bind_eq_ok.1 h
  dsimp only at h
  split_ifs at h with hb _ _ hzero hgroup
  obtain rfl := Except.ok.inj h
  exact ⟨not_lt.1 hb, Nat.pos_of_ne_zero hzero, Nat.dvd_of_mod_eq_zero (not_not.1 hgroup)⟩

theorem validateShapes_heads {b hq hkv n d : ℕ} (h : validateShapes [b, hq, n, d] [b, hkv, n, d] [b, hkv, n, d] = .ok s) :
    s = ⟨n, d, b, hq, hkv⟩ := by
  unfold validateShapes rank4 at h
  dsimp only [bind, Except.bind] at h
  split_ifs at h
  exact (Except.ok.inj h).symm

theorem resolveAttentionImpl_ok {resolved : ResolvedAttention} (h : resolveAttentionImpl dev c = .ok (s, resolved)) :
    Accepted c s ∧ (resolved = .kernel → s.d ∈ kernelHeadDims ∧ c.causal = true) := by
  obtain ⟨s', hshapes, h⟩ := Budget.bind_eq_ok.1 h
  split at h
  · cases h
  · next hsegs =>
    have hcausal : c.segments.isSome = true → c.causal = true := by
      intro hsome
      by_contra hfalse
      exact hsegs ⟨hsome, Bool.eq_false_iff.2 hfalse⟩
    split at h
    · obtain ⟨rfl, rfl⟩ := Prod.mk.inj (Except.ok.inj h)
      exact ⟨⟨hshapes, hcausal⟩, fun hkernel => by cases hkernel⟩
    · cases h
    all_goals
      cases hrequire : requireKernel dev c s' with
      | error e =>
        rw [hrequire] at h
        cases h
      | ok u =>
        rw [hrequire] at h
        obtain ⟨rfl, rfl⟩ := Prod.mk.inj (Except.ok.inj h)
        unfold requireKernel at hrequire
        split_ifs at hrequire with _ hd hc
        exact ⟨⟨hshapes, hcausal⟩, fun _ => ⟨hd, Bool.eq_true_of_not_eq_false hc⟩⟩

/-- The tiles and rates a kernel call can be resolved to: its rates are positive. -/
def Shipped (s : Shape) (res : Resolved) : Prop := ∃ rate dqRate dkvRate, (0 < rate ∧ 0 < dqRate ∧ 0 < dkvRate) ∧
  res = ⟨shippedTile s.d, some rate, shippedTile s.d, some dqRate, shippedTile s.d, some dkvRate⟩

theorem resolveTiles_ok {res : Resolved} (hcalibrates : dev.Calibrates) (h : resolveTiles dev c s = .ok res) :
    Shipped s res := by
  obtain ⟨tile, htile, h⟩ := Budget.bind_eq_ok.1 h
  obtain ⟨⟨dqTile, dkvTile⟩, htiles, h⟩ := Budget.bind_eq_ok.1 h
  obtain ⟨rate, hrate, h⟩ := Budget.bind_eq_ok.1 h
  obtain ⟨dqRate, hdq, h⟩ := Budget.bind_eq_ok.1 h
  obtain ⟨dkvRate, hdkv, h⟩ := Budget.bind_eq_ok.1 h
  obtain rfl := Except.ok.inj h
  obtain ⟨hdqTile, hdkvTile⟩ := selectBwdTiles_ok htiles
  refine ⟨rate, dqRate, dkvRate, ⟨?_, ?_, ?_⟩, ?_⟩
  · exact hcalibrates.fwd _ _ _ _ _ (Budget.mapError_eq_ok.1 hrate)
  · exact hcalibrates.dq _ _ _ _ _ (Budget.mapError_eq_ok.1 hdq)
  · exact hcalibrates.dkv _ _ _ _ _ (Budget.mapError_eq_ok.1 hdkv)
  · rw [(selectFwdTile_ok htile).2, hdqTile, hdkvTile]

/-- What a call that is resolved has passed, and what its implementation adds. -/
theorem resolveCall_accepted {res : Option Resolved} (h : resolveCall dev c = .ok (s, res)) :
    Accepted c s ∧ (res = none ∨ s.d ∈ kernelHeadDims ∧ c.causal = true ∧ ∃ tiles, resolveTiles dev c s = .ok tiles ∧
      res = some tiles) := by
  obtain ⟨⟨s', resolved⟩, hresolved, h⟩ := Budget.bind_eq_ok.1 h
  obtain ⟨haccepted, hkernel⟩ := resolveAttentionImpl_ok hresolved
  cases resolved with
  | reference =>
    obtain ⟨rfl, rfl⟩ := Prod.mk.inj (Except.ok.inj h)
    exact ⟨haccepted, Or.inl rfl⟩
  | kernel =>
    cases htiles : resolveTiles dev c s' with
    | error e =>
      dsimp only at h
      rw [htiles] at h
      cases h
    | ok tiles =>
      dsimp only at h
      rw [htiles] at h
      obtain ⟨rfl, rfl⟩ := Prod.mk.inj (Except.ok.inj h)
      exact ⟨haccepted, Or.inr ⟨(hkernel rfl).1, (hkernel rfl).2, tiles, htiles, rfl⟩⟩

/-- A pass holds the oracle's values at every entry. -/
structure IsOracle (c : AttentionCall) (dO : Tensor ℝ) (s : Shape) (r : Pass) : Prop where
  rows : ∀ b < s.b, ∀ h < s.hq, ∀ i < s.n, ∀ col < s.d,
    r.o b h i col = real (Oracle.out s c.q c.k c.v c.scale (keeps c.causal (idsOf c.segments)) b h i col) ∧
      r.grads.dQ b h i col = real (Oracle.gradQ s c.q c.k c.v dO c.scale (keeps c.causal (idsOf c.segments)) b h i col)
  keys : ∀ b < s.b, ∀ kvh < s.hkv, ∀ j < s.n, ∀ col < s.d,
    r.grads.dK b kvh j col = real (Oracle.gradK s c.q c.k c.v dO c.scale (keeps c.causal (idsOf c.segments)) b kvh j col) ∧
      r.grads.dV b kvh j col = real (Oracle.gradV s c.q c.k dO c.scale (keeps c.causal (idsOf c.segments)) b kvh j col)

theorem idsOf_causal (haccepted : Accepted c s) : (idsOf c.segments).isSome = true → c.causal = true := by
  intro hsome
  apply haccepted.segments
  rwa [idsOf, Option.isSome_map] at hsome

/-- The reference returns the oracle's values. -/
theorem corePass_none (dO : Tensor ℝ) (mem : Memory) (haccepted : Accepted c s) :
    ∃ r, corePass c dO mem s none = .ok r ∧ IsOracle c dO s r := by
  obtain ⟨r, hpass, -, ho, hdQ, hdK, hdV⟩ := @referencePass_real s c.q c.k c.v dO c.scale c.causal (idsOf c.segments)
    (validateShapes_ok haccepted.shapes).2.2 (idsOf_causal haccepted)
    fun b i hi => ⟨i, Oracle.mem_keys.2 ⟨hi, keeps_self _ _ b i⟩⟩
  refine ⟨r, Budget.mapError_eq_ok.2 hpass, ?_, ?_⟩
  · exact fun b _ h _ i hi col _ => ⟨ho b h i col hi, hdQ b h i col hi⟩
  · exact fun b _ kvh _ j _ col _ => ⟨hdK b kvh j col, hdV b kvh j col⟩

/-- A kernel pass that is not refused holds the oracle's values. -/
theorem corePass_some {dO : Tensor ℝ} {mem : Memory} {res : Resolved} {r : Pass} (haccepted : Accepted c s)
    (hcausal : c.causal = true) (hlaid : LaidOut s c.segments) (h : corePass c dO mem s (some res) = .ok r) :
    IsOracle c dO s r := by
  obtain ⟨hrows, hkeys⟩ := kernelPass_real (validateShapes_ok haccepted.shapes).2.2 hlaid (Budget.mapError_eq_ok.1 h)
  rw [← hcausal] at hrows hkeys
  exact ⟨hrows, hkeys⟩

/-- The forward's values, on either path. -/
theorem coreForward_real {mem : Memory} {res : Option Resolved} {o : Tensor XReal} (haccepted : Accepted c s)
    (hcausal : c.causal = true) (hlaid : LaidOut s c.segments) (h : coreForward c mem s res = .ok o) {b head i col : ℕ}
    (hb : b < s.b) (hi : i < s.n) (hcol : col < s.d) :
    o b head i col = real (Oracle.out s c.q c.k c.v c.scale (keeps true (idsOf c.segments)) b head i col) := by
  cases res with
  | none =>
    obtain ⟨o', lse, hcore, hrows⟩ := @attentionCore_real s c.q c.k c.v c.scale c.causal (idsOf c.segments)
      (validateShapes_ok haccepted.shapes).2.2 (idsOf_causal haccepted)
    have hout := Budget.mapError_eq_ok.1 h
    rw [hcore] at hout
    obtain rfl := Except.ok.inj hout
    rw [← hcausal]
    exact (hrows b head i ⟨i, Oracle.mem_keys.2 ⟨hi, keeps_self _ _ b i⟩⟩).1 col
  | some res =>
    have hout := Budget.mapError_eq_ok.1 h
    cases hfwd : launchFwd res.tile res.rate c.segments (argsOf s c.q c.k c.v c.scale c.segments) mem with
    | error e =>
      rw [hfwd] at hout
      cases hout
    | ok out =>
      rw [hfwd] at hout
      obtain rfl := Except.ok.inj hout
      exact (launchFwd_real hlaid hb hi hfwd).1 col hcol

/-- Two passes that hold the oracle's values hold the same. -/
theorem IsOracle.same {dO : Tensor ℝ} {r r' : Pass} (hr : IsOracle c dO s r) (hr' : IsOracle c dO s r') :
    entries s s.hq r.o = entries s s.hq r'.o ∧ gradEntries s r.grads = gradEntries s r'.grads := by
  constructor
  · funext p
    exact (hr.rows p.1 p.1.2 p.2.1 p.2.1.2 p.2.2.1 p.2.2.1.2 p.2.2.2 p.2.2.2.2).1.trans
      (hr'.rows p.1 p.1.2 p.2.1 p.2.1.2 p.2.2.1 p.2.2.1.2 p.2.2.2 p.2.2.2.2).1.symm
  · funext p
    rcases p with p | p | p
    · exact (hr.rows p.1 p.1.2 p.2.1 p.2.1.2 p.2.2.1 p.2.2.1.2 p.2.2.2 p.2.2.2.2).2.trans
        (hr'.rows p.1 p.1.2 p.2.1 p.2.1.2 p.2.2.1 p.2.2.1.2 p.2.2.2 p.2.2.2.2).2.symm
    · exact (hr.keys p.1 p.1.2 p.2.1 p.2.1.2 p.2.2.1 p.2.2.1.2 p.2.2.2 p.2.2.2.2).1.trans
        (hr'.keys p.1 p.1.2 p.2.1 p.2.1.2 p.2.2.1 p.2.2.1.2 p.2.2.2 p.2.2.2.2).1.symm
    · exact (hr.keys p.1 p.1.2 p.2.1 p.2.1.2 p.2.2.1 p.2.2.1.2 p.2.2.2 p.2.2.2.2).2.trans
        (hr'.keys p.1 p.1.2 p.2.1 p.2.1.2 p.2.2.1 p.2.2.1.2 p.2.2.2 p.2.2.2.2).2.symm

/-- The call on the reference. -/
def AttentionCall.onReference (c : AttentionCall) : AttentionCall := { c with impl := .reference }

/-- The reference takes every call whose shapes and mask are accepted. -/
theorem flashPass_onReference (dO : Tensor ℝ) (mem : Memory) (haccepted : Accepted c s) :
    ∃ ref, flashPass dev mem c.onReference dO = .ok ref ∧ IsOracle c dO s ref := by
  obtain ⟨ref, href, ⟨hrows, hkeys⟩⟩ := @corePass_none c.onReference s dO mem ⟨haccepted.shapes, haccepted.segments⟩
  have himpl : resolveAttentionImpl dev c.onReference = .ok (s, .reference) := by
    refine Budget.bind_eq_ok.2 ⟨s, haccepted.shapes, ?_⟩
    rw [if_neg fun h => by cases (haccepted.segments h.1).symm.trans h.2]
    rfl
  have hresolve : resolveCall dev c.onReference = .ok (s, none) := Budget.bind_eq_ok.2 ⟨_, himpl, rfl⟩
  exact ⟨ref, Budget.bind_eq_ok.2 ⟨_, hresolve, href⟩, hrows, hkeys⟩

/-- What is resolved runs to the reference's values, or is refused for a launch budget. -/
theorem corePass_agrees {dev' : AttentionDevice} {mem mem' : Memory} {dO : Tensor ℝ} {res : Option Resolved}
    (haccepted : Accepted c s) (hheads : 1 ≤ s.hq) (hlaid : LaidOut s c.segments)
    (hres : ∀ tiles, res = some tiles → s.d ∈ kernelHeadDims ∧ c.causal = true ∧ Shipped s tiles) :
    (∃ e, corePass c dO mem s res = .error (.kernel (.plan (.budget e)))) ∨
    ∃ r ref, corePass c dO mem s res = .ok r ∧ flashPass dev' mem' c.onReference dO = .ok ref ∧
      entries s s.hq r.o = entries s s.hq ref.o ∧ gradEntries s r.grads = gradEntries s ref.grads := by
  obtain ⟨ref, href, horacle⟩ := @flashPass_onReference dev' c s dO mem' haccepted
  cases res with
  | none =>
    obtain ⟨r, hr, hrOracle⟩ := corePass_none dO mem haccepted
    exact Or.inr ⟨r, ref, hr, href, hrOracle.same horacle⟩
  | some tiles =>
    obtain ⟨hd, hcausal, rate, dqRate, dkvRate, ⟨hrate, hdq, hdkv⟩, rfl⟩ := hres tiles rfl
    have hcost : 0 < s.d * s.b * s.hq := by
      have hb := (validateShapes_ok haccepted.shapes).1
      have hdpos := kernelHeadDims_pos s.d hd
      positivity
    obtain ⟨e, he⟩ | ⟨r, hr⟩ := @kernelPass_budgeted s c.segments mem _ c.q c.k c.v dO c.scale _ _ _ hd hcost rfl
      hrate hdq hdkv
    · exact Or.inl ⟨e, congrArg (Except.mapError AttentionError.kernel) he⟩
    · have hok := congrArg (Except.mapError AttentionError.kernel) hr
      exact Or.inr ⟨r, ref, hok, href, (corePass_some haccepted hcausal hlaid hok).same horacle⟩

end Call

/-- Every call is refused by a check, refused for a launch budget, or returns what the reference returns on the
same arrays: output and gradients, entry by entry. -/
theorem flash_attention_agrees (dev dev' : AttentionDevice) (hcalibrates : dev.Calibrates) (mem mem' : Memory)
    (c : AttentionCall) (dO : Tensor ℝ) (s : Shape) (hshapes : validateShapes c.qShape c.kShape c.vShape = .ok s)
    (hheads : 1 ≤ s.hq) (hlaid : LaidOut s c.segments) :
    (∃ e, resolveCall dev c = .error e ∧ flashPass dev mem c dO = .error e) ∨
    (∃ e, flashPass dev mem c dO = .error (.kernel (.plan (.budget e)))) ∨
    ∃ r ref, flashPass dev mem c dO = .ok r ∧ flashPass dev' mem' c.onReference dO = .ok ref ∧
      entries s s.hq r.o = entries s s.hq ref.o ∧ gradEntries s r.grads = gradEntries s ref.grads := by
  cases hcall : resolveCall dev c with
  | error e =>
    refine Or.inl ⟨e, rfl, ?_⟩
    unfold flashPass
    rw [hcall]
    rfl
  | ok resolved =>
    obtain ⟨s', res⟩ := resolved
    obtain ⟨haccepted, hres⟩ := resolveCall_accepted hcall
    obtain rfl : s' = s := Except.ok.inj (haccepted.shapes.symm.trans hshapes)
    have hpass : flashPass dev mem c dO = corePass c dO mem s' res := by
      unfold flashPass
      rw [hcall]
      rfl
    right
    rw [hpass]
    refine corePass_agrees haccepted hheads hlaid ?_
    rintro tiles rfl
    obtain hnone | ⟨hd, hcausal, tiles', htiles, hsome⟩ := hres
    · cases hnone
    · obtain rfl := Option.some.inj hsome
      exact ⟨hd, hcausal, resolveTiles_ok hcalibrates htiles⟩

/-- A machine with Metal, where every kernel does 10^12 MACs a second. -/
def fastMetal : AttentionDevice :=
  ⟨true, "0.32.0", fun _ _ _ _ => .ok (10 ^ 12), fun _ _ _ _ => .ok (10 ^ 12), fun _ _ _ _ => .ok (10 ^ 12)⟩

/-- `twoHeads`, on whatever implementation there is. -/
noncomputable def autoCall : AttentionCall where
  qShape := [1, 2, 2, 64]
  kShape := [1, 1, 2, 64]
  vShape := [1, 1, 2, 64]
  dtype := .float32
  q := fun _ _ _ _ => 1
  k := fun _ _ _ _ => 1
  v := fun _ _ _ _ => 1
  scale := 1
  causal := true
  impl := .auto
  segments := none

theorem fastMetal_calibrates : fastMetal.Calibrates := by
  have hpos : ∀ rate : ℚ, (.ok (10 ^ 12) : Except String ℚ) = .ok rate → 0 < rate := by
    intro rate h
    obtain rfl := Except.ok.inj h
    norm_num
  exact ⟨fun _ _ _ _ => hpos, fun _ _ _ _ => hpos, fun _ _ _ _ => hpos⟩

/-- The tiles and rates of `autoCall`. -/
def autoResolved : Resolved :=
  ⟨⟨.mma, none⟩, some (10 ^ 12), ⟨.mma, none⟩, some (10 ^ 12), ⟨.mma, none⟩, some (10 ^ 12)⟩

theorem autoCall_resolved : resolveCall fastMetal autoCall = .ok (twoHeads, some autoResolved) := rfl

/-- On two rows each launch is one range, where its rate lets it be. -/
theorem twoHeads_pass {rate dqRate dkvRate : ℚ} {q k v dO : Tensor ℝ} {scale : ℝ} {mem : Memory}
    (hfwd : rangesOf 2 (fun rate => Launch.planFwdDispatches twoHeads rate true) (some rate) = .ok [(0, 2)])
    (hdq : rangesOf 2 (fun rate => planFrom 2 (3 * 64 * 1 * 2) rate (planDqDispatches twoHeads rate true)) (some dqRate) =
      .ok [(0, 2)])
    (hdkv : rangesOf 2 (fun rate => planFrom 2 (4 * 64 * 1 * 2) rate (Launch.planDkvDispatches twoHeads rate true 32))
      (some dkvRate) = .ok [(0, 2)]) :
    ∃ r, kernelPass twoHeads ⟨⟨.mma, none⟩, some rate, ⟨.mma, none⟩, some dqRate, ⟨.mma, none⟩, some dkvRate⟩ q k v dO scale
      none mem = .ok r := by
  obtain ⟨⟨fwd, hfwdBuild⟩, ⟨dq, hdqBuild⟩, dkv, hdkvBuild⟩ := shippedTile_builds (show 64 ∈ kernelHeadDims by decide) none
  have hlaunch : ∀ {α : Type} {body : Body} {x : Except ValueError Body} {f : Body → Except KernelError α} {y : α},
      x = .ok body → f body = .ok y → (x.mapError .value >>= f) = .ok y :=
    fun hbody hy => Budget.bind_eq_ok.2 ⟨_, Budget.mapError_eq_ok.2 hbody, hy⟩
  exact ⟨_, Budget.bind_eq_ok.2 ⟨_, Budget.bind_eq_ok.2 ⟨_, hfwd, hlaunch hfwdBuild rfl⟩, Budget.bind_eq_ok.2 ⟨_,
    Budget.bind_eq_ok.2 ⟨_, hdq, hlaunch hdqBuild rfl⟩, Budget.bind_eq_ok.2 ⟨_,
      Budget.bind_eq_ok.2 ⟨_, hdkv, hlaunch hdkvBuild rfl⟩, rfl⟩⟩⟩⟩

theorem autoCall_pass (dO : Tensor ℝ) : ∃ r, flashPass fastMetal nanMemory autoCall dO = .ok r := by
  obtain ⟨r, hr⟩ := @twoHeads_pass (10 ^ 12) (10 ^ 12) (10 ^ 12) autoCall.q autoCall.k autoCall.v dO 1 nanMemory
    (by decide +kernel) (by decide +kernel) (by decide +kernel)
  refine ⟨r, Budget.bind_eq_ok.2 ⟨_, autoCall_resolved, ?_⟩⟩
  exact congrArg (Except.mapError AttentionError.kernel) hr

/-- The kernel and the reference, on the call's two rows. -/
theorem flash_attention_agrees_autoCall : ∃ r ref, flashPass fastMetal nanMemory autoCall (fun _ _ _ _ => 1) = .ok r ∧
    flashPass fastMetal nanMemory autoCall.onReference (fun _ _ _ _ => 1) = .ok ref ∧
    entries twoHeads 2 r.o = entries twoHeads 2 ref.o ∧ gradEntries twoHeads r.grads = gradEntries twoHeads ref.grads := by
  obtain ⟨r, hr⟩ := autoCall_pass fun _ _ _ _ => 1
  obtain ⟨e, -, he⟩ | ⟨e, he⟩ | hsame := flash_attention_agrees fastMetal fastMetal fastMetal_calibrates nanMemory nanMemory
    autoCall (fun _ _ _ _ => 1) twoHeads rfl (by decide) (fun _ h => nomatch h)
  · cases hr.symm.trans he
  · cases hr.symm.trans he
  · exact hsame

end MlxTrainPerf.Attention
