import MlxTrainPerf.Core.Resolve
import MlxTrainPerf.Core.ChunkedGradient
import MlxTrainPerf.Core.Kernel.Quant
import MlxTrainPerf.Attention.Launch
import MlxTrainPerf.Lib.JsonText
/-!
# The loss on the kernel

`_kernel_nll_dense` and `_kernel_nll_quantized`: the forward launch gives each
row's logsumexp and target logit, the loss is their difference, and the backward
runs the chunk loop on the saved logsumexps. Whatever implementation a call asks
for, it gets the same loss or an error.
-/
open Loops XReal OnlineSoftmax Vjp

namespace MlxTrainPerf.Core

open Kernel (LaunchError QuantError QuantArgs Hoist)

/-! ## What a launch raises -/

/-- `f"{q:.0f}"`. -/
def wholeText (q : ℚ) : String := toString (PyJson.roundHalfEven q)

/-- The text of `LaunchBudgetError`. -/
def budgetMsg (perDispatch total rate : ℚ) : String :=
  s!"projected {Launch.fixed 2 perDispatch} s/dispatch, {wholeText total} s total at {wholeText (rate / 10 ^ 9)} G MAC/s " ++
    "(budget 1.0 s / 60.0 s). Reduce tile/shape, or pass a measured rate."

def launchError : LaunchError → LossError
  | .budget perDispatch total rate => .kernel (budgetMsg perDispatch total rate)
  | .zeroDivision => .zeroDivision
  | .value msg => .kernel msg

def quantError : QuantError → LossError
  | .unsupportedHead msg => .kernel msg
  | .launch e => launchError e

/-! ## The kernel's losses -/

/-- What a call finds on its machine: the installed mlx, the calibrated rates by row
tiles, and what the launches' buffers and registers hold at first. -/
structure Device where
  mlxVersion : String
  rate : ℤ → ℚ
  rateQuantized : ℤ → ℚ
  mem : ℕ × ℕ → ℕ → XReal × XReal
  hoist : ℕ × ℕ → ℕ → Hoist

noncomputable section

/-- A quantized head as `forward_quantized` reads it. -/
def LossCall.quantArgs (c : LossCall) (head : QuantizedHead) : QuantArgs where
  n := c.rows
  d := c.d
  v := head.v
  hidden := c.hidden.data
  wQ := fun r w => BitVec.ofNat 32 (head.wQ r w)
  scales := head.scales
  biases := head.biases
  groupSize := head.groupSize
  bits := head.bits
  targets := c.targets.data
  v_int32 := head.v_int32

/-- A dense head as `forward` reads it. -/
def LossCall.denseArgs (c : LossCall) (head : DenseHead) : DenseArgs where
  n := c.rows
  d := c.d
  v := head.v
  hidden := c.hidden.data
  w := head.weight
  targets := c.targets.data
  v_int32 := head.v_int32

/-- `lse` and `tgt` of a call. -/
def kernelOutputs (dev : Device) (c : LossCall) (rowTiles : ℤ) : Except LossError (List XReal × List XReal) :=
  match c.head with
  | .dense head =>
    (Kernel.forward (c.denseArgs head) rowTiles kernelTile (some (dev.rate rowTiles)) dev.mem).mapError launchError
  | .quantized head =>
    (Kernel.forwardQuantized (c.quantArgs head) rowTiles kernelTile (some (dev.rateQuantized rowTiles)) dev.mem
      dev.hoist).mapError quantError

/-- `lse - tgt`. -/
def rowLoss (out : List XReal × List XReal) (i : ℕ) : XReal := out.1.getD i nan - out.2.getD i nan

/-- The kernel's branch of `linear_cross_entropy`. -/
def kernelNll (dev : Device) (allowUnverified : Bool) (c : LossCall) : Except LossError (ℕ → XReal) := do
  let res ← resolveKernel dev.mlxVersion c.head c.hidden.dtype c.rows allowUnverified
  let out ← kernelOutputs dev c (res.rowTiles.getD 2)
  return rowLoss out

/-- `linear_cross_entropy` on a device. -/
def lossOn (dequantize : Dequantize) (dev : Device) (allowUnverified : Bool) (c : LossCall) : Except LossError LossValue :=
  linearCrossEntropy dequantize (kernelNll dev allowUnverified) c

/-! ## The kernel's backwards -/

/-- The chunk loop of `_ce_vjp` and `_ce_frozen_vjp`, from the saved `lse`; a
quantized head is frozen. -/
def kernelVjp (dequantize : Dequantize) (c : LossCall) (trainable : Bool) (lse : List XReal) (cotangent : ℕ → ℝ) :
    Except ChunkError ((ℕ → ℕ → XReal) × Option (List (ℕ → XReal))) :=
  let hidden := fun i k => real (c.hidden.data i k)
  let saved := fun i => lse.getD i nan
  let ct := fun i => real (cotangent i)
  match c.head with
  | .dense head =>
    chunkedBackward c.rows hidden (denseMatmul (c.denseArgs head)) (denseChunk (c.denseArgs head)) c.targets.data saved
      ct head.v kernelTile trainable
  | .quantized head =>
    chunkedBackward c.rows hidden (quantizedMatmul dequantize c head) (fun v0 _ j k => real (head.row dequantize (v0 + j) k))
      c.targets.data saved ct head.v kernelTile false

end

/-! ## The forward -/

/-- A row-tile count that is accepted is positive. -/
theorem checkRowTiles_pos {rowTiles : ℤ} {rt : ℕ} (h : Kernel.checkRowTiles rowTiles = .ok rt) : 0 < rt := by
  unfold Kernel.checkRowTiles at h
  split at h
  · cases h
  · split at h
    · next hrt =>
      obtain rfl := Except.ok.inj h
      omega
    · cases h

/-- A launch is refused for its budget, or for its row tiles. -/
theorem forward_runs {x : DenseArgs} {rowTiles tile : ℤ} {rate : Option ℚ} {mem : ℕ × ℕ → ℕ → XReal × XReal}
    (hrt : rowTiles = 2 ∨ rowTiles = 4) (htile : 1 ≤ tile) (hrate : Kernel.checkRate x.n x.d x.v tile rate = .ok ()) :
    ∃ out, Kernel.forward x rowTiles tile rate mem = .ok out := by
  obtain ⟨rt, -, hrt⟩ := Kernel.checkRowTiles_ok hrt
  obtain ⟨tiles, -, htiles⟩ := Kernel.launchTiles_ok x.v htile
  unfold Kernel.forward
  rw [hrate, hrt, htiles]
  exact ⟨_, rfl⟩

/-- What a forward that is not refused returns. -/
theorem forward_ok {x : DenseArgs} {rowTiles tile : ℤ} {rate : Option ℚ} {mem : ℕ × ℕ → ℕ → XReal × XReal}
    {out : List XReal × List XReal} (hrange : x.InRange) (htile : 1 ≤ tile)
    (h : Kernel.forward x rowTiles tile rate mem = .ok out) :
    out = ((List.range x.n).map fun i => real (logSumExp (Finset.range x.v) (x.logit i)),
      (List.range x.n).map fun i => real (x.logit i (x.target i))) := by
  obtain ⟨-, -, h⟩ := Budget.bind_eq_ok.1 h
  obtain ⟨rt, hrt, h⟩ := Budget.bind_eq_ok.1 h
  obtain ⟨tiles, hok, h⟩ := Budget.bind_eq_ok.1 h
  obtain rfl := (Except.ok.inj h).symm
  obtain ⟨tiles', htiles, hok'⟩ := Kernel.launchTiles_ok x.v htile
  obtain rfl : tiles = tiles' := Except.ok.inj (hok.symm.trans hok')
  have hrows := @Kernel.foldl_forwardTile x rt 0 x.v tiles (fun _ => (negInf, 0)) hrange (checkRowTiles_pos hrt) htiles mem
    fun i _ => rowState_zero.symm
  refine congrArg₂ Prod.mk (List.map_congr_left fun i hi => ?_) (List.map_congr_left fun i hi => ?_)
  · rw [hrows i (List.mem_range.1 hi), Kernel.rowState_all hrange (List.mem_range.1 hi)]
  · rw [hrows i (List.mem_range.1 hi), Kernel.rowState_all hrange (List.mem_range.1 hi)]

/-- `mx.dequantize` of 4-bit words in groups of 64, as mlx documents it. -/
def Affine (dequantize : Dequantize) : Prop := ∀ words scales biases k, dequantize words scales biases 64 4 k =
  scales (k / 64) * ((words (k / 8) / 16 ^ (k % 8) % 16 : ℕ) : ℝ) + biases (k / 64)

/-- Packed words are `uint32`. -/
def LossCall.Words (c : LossCall) : Prop := ∀ head, c.head = .quantized head → ∀ r w, head.wQ r w < 2 ^ 32

section Rows
variable {dequantize : Dequantize} {dev : Device} {allowUnverified : Bool} {c : LossCall}

/-- Where the kernel takes a quantized head, the words stand for what mlx dequantizes. -/
theorem quantArgs_dequantized {head : QuantizedHead} (haffine : Affine dequantize) (hwords : ∀ r w, head.wQ r w < 2 ^ 32)
    (hbits : head.bits = 4) (hgroup : head.groupSize = 64) : (c.quantArgs head).dequantized = head.row dequantize := by
  funext r k
  unfold QuantizedHead.row
  rw [hbits, hgroup, haffine]
  unfold QuantArgs.dequantized LossCall.quantArgs
  dsimp only
  rw [BitVec.toNat_ofNat, Nat.mod_eq_of_lt (hwords _ _)]

/-- The kernel's outputs are the rows' logsumexps and target logits. -/
theorem kernelOutputs_ok {rowTiles : ℤ} {out : List XReal × List XReal} (haffine : Affine dequantize) (hwords : c.Words)
    (hrange : (c.args dequantize).InRange) (h : kernelOutputs dev c rowTiles = .ok out) :
    out = ((List.range c.rows).map fun i => real (logSumExp (Finset.range c.head.v) ((c.args dequantize).logit i)),
      (List.range c.rows).map fun i => real ((c.args dequantize).logit i ((c.args dequantize).target i))) := by
  obtain ⟨hidden, head, targets, impl, size, reduction, validate⟩ := c
  cases head with
  | dense head => exact forward_ok hrange (by decide) (Budget.mapError_eq_ok.1 h)
  | quantized head =>
    have hquant := Budget.mapError_eq_ok.1 h
    unfold Kernel.forwardQuantized at hquant
    split at hquant
    · cases hquant
    · next hconfig =>
      rw [not_or, not_not, not_not] at hconfig
      split at hquant
      · cases hquant
      · have hforward := Budget.mapError_eq_ok.1 hquant
        rw [Kernel.launchQuantized_eq, quantArgs_dequantized haffine (hwords head rfl) hconfig.1 hconfig.2] at hforward
        exact forward_ok hrange (by decide) hforward

theorem getD_rows {α : Type} {n i : ℕ} (hi : i < n) (f : ℕ → α) {default : α} :
    ((List.range n).map f).getD i default = f i := by
  rw [List.getD_eq_getElem _ _ (by simpa using hi), List.getElem_map, List.getElem_range]

theorem rowLoss_eq {n i : ℕ} (hi : i < n) (y z : ℕ → ℝ) :
    rowLoss ((List.range n).map fun i => real (y i), (List.range n).map fun i => real (z i)) i = real (y i - z i) := by
  unfold rowLoss
  rw [getD_rows hi, getD_rows hi, real_sub_real]

/-- The kernel's loss of a row. -/
theorem kernelNll_ok {nll : ℕ → XReal} (haffine : Affine dequantize) (hwords : c.Words)
    (hrange : (c.args dequantize).InRange) (h : kernelNll dev allowUnverified c = .ok nll) :
    ∀ i < c.rows, nll i = real ((c.args dequantize).nll i) := by
  obtain ⟨res, -, h⟩ := Budget.bind_eq_ok.1 h
  obtain ⟨out, hout, h⟩ := Budget.bind_eq_ok.1 h
  obtain rfl := (Except.ok.inj h).symm
  intro i hi
  rw [kernelOutputs_ok haffine hwords hrange hout]
  exact rowLoss_eq hi _ _

/-- `naive_linear_ce`. -/
theorem naiveLinearCe_eq {x : DenseArgs} (hrange : x.InRange) {i : ℕ} (hi : i < x.n) :
    naiveLinearCe x i = real (x.nll i) := by
  have htarget := hrange.target_lt hi
  have hlse := @logsumexpRow_eq x 0 x.v i
  rw [Nat.sub_zero, ← Finset.range_eq_Ico, lseOf_of_nonempty ⟨_, Finset.mem_range.2 htarget⟩] at hlse
  unfold naiveLinearCe
  dsimp only
  rw [hlse, denseMatmul_eq, Nat.zero_add, real_sub_real]
  rfl

/-- A call that is checked has its targets in range, or was told not to look. -/
theorem inRange_of_check (hcheck : checkCall c = .ok ()) (hvalidate : c.validateTargets = true) :
    (c.args dequantize).InRange := by
  have hvalid : validateTargetRange c = .ok () := by
    unfold checkCall validateInputs at hcheck
    obtain ⟨-, -, hcheck⟩ := Budget.bind_eq_ok.1 hcheck
    split_ifs at hcheck
    obtain ⟨-, -, hcheck⟩ := Budget.bind_eq_ok.1 hcheck
    exact hcheck
  have hbounds : ¬(targetMin c < 0 ∨ (c.head.v : ℤ) ≤ targetMax c) := by
    intro hbad
    unfold validateTargetRange at hvalid
    rw [if_pos ⟨hvalidate, hbad⟩] at hvalid
    cases hvalid
  rw [not_or, not_lt, not_le] at hbounds
  intro i hi
  have hmem : i ∈ List.range c.rows := List.mem_range.2 hi
  have hmin : targetMin c ≤ c.targets.data i := @foldl_rel_of_mem ℕ ℤ (· ≥ ·) _ (fun m i => min m (c.targets.data i)) _
    c.targets.data (fun m i => min_le_left m _) le_refl (fun m i => min_le_right m _) _ i hmem
  have hmax : c.targets.data i ≤ targetMax c := @foldl_rel_of_mem ℕ ℤ (· ≤ ·) _ (fun m i => max m (c.targets.data i)) _
    c.targets.data (fun m i => le_max_left m _) le_refl (fun m i => le_max_right m _) _ i hmem
  exact ⟨hbounds.1.trans hmin, hmax.trans_lt hbounds.2⟩

/-- What a call that returns has returned: the reduction of the rows' losses. -/
theorem lossOn_ok {loss : LossValue} (haffine : Affine dequantize) (hwords : c.Words)
    (hrange : c.validateTargets = false → (c.args dequantize).InRange)
    (hsize : c.impl = .chunked → 0 ≤ c.chunkSize.getD kernelTile) (h : lossOn dequantize dev allowUnverified c = .ok loss) :
    loss = reduceLoss c fun i => real ((c.args dequantize).nll i) := by
  obtain ⟨⟨⟩, hcheck, h⟩ := Budget.bind_eq_ok.1 h
  have hrange : (c.args dequantize).InRange := by
    cases hvalidate : c.validateTargets with
    | false => exact hrange hvalidate
    | true => exact inRange_of_check hcheck hvalidate
  -- Each branch gives the rows their losses; the reduction reads nothing else.
  have hbranch : ∀ {out : Except LossError (ℕ → XReal)},
      (∀ nll, out = .ok nll → ∀ i < c.rows, nll i = real ((c.args dequantize).nll i)) →
      (out >>= fun nll => Except.ok (reduceLoss c nll)) = .ok loss →
      loss = reduceLoss c fun i => real ((c.args dequantize).nll i) := by
    intro out hout hbind
    obtain ⟨nll, hnll, hreduce⟩ := Budget.bind_eq_ok.1 hbind
    obtain rfl := Except.ok.inj hreduce
    exact reduceLoss_congr (hout nll hnll)
  dsimp only at h
  split at h
  · refine hbranch (fun nll hnll i hi => ?_) h
    obtain rfl := Except.ok.inj hnll
    exact naiveLinearCe_eq hrange hi
  · next himpl =>
    refine hbranch (fun nll hnll => ?_) h
    rw [chunkedNll_eq] at hnll
    have hdense := Budget.mapError_eq_ok.1 hnll
    rcases (hsize himpl).eq_or_lt with hzero | hpos
    · rw [← hzero] at hdense
      cases hdense
    · obtain ⟨nll', hok, hrows⟩ := denseCe_pos hrange hpos
      obtain rfl := Except.ok.inj (hok.symm.trans hdense)
      exact hrows
  · exact hbranch (fun nll hnll => kernelNll_ok haffine hwords hrange hnll) h
  · exact hbranch (fun nll hnll => kernelNll_ok haffine hwords hrange hnll) h
  · cases h

end Rows

/-- Calls that differ in the implementation, the chunk size and the device they run on return one loss, where they return. -/
theorem impls_agree (dequantize : Dequantize) (haffine : Affine dequantize) (dev dev' : Device) (allow allow' : Bool)
    (c : LossCall) (hwords : c.Words) (hrange : c.validateTargets = false → (c.args dequantize).InRange) (impl' : Impl)
    (size' : Option ℤ) (hsize : c.impl = .chunked → 0 ≤ c.chunkSize.getD kernelTile)
    (hsize' : impl' = .chunked → 0 ≤ size'.getD kernelTile) (loss loss' : LossValue)
    (h : lossOn dequantize dev allow c = .ok loss)
    (h' : lossOn dequantize dev' allow' { c with impl := impl', chunkSize := size' } = .ok loss') :
    loss = loss' ∧ loss = reduceLoss c fun i => real ((c.args dequantize).nll i) := by
  have hloss := lossOn_ok haffine hwords hrange hsize h
  refine ⟨?_, hloss⟩
  rw [hloss, @lossOn_ok dequantize dev' allow' { c with impl := impl', chunkSize := size' } loss' haffine hwords hrange
    hsize' h']
  rfl

/-- 4-bit words in groups of 64. -/
def affineRow : Dequantize := fun words scales biases _ _ k =>
  scales (k / 64) * ((words (k / 8) / 16 ^ (k % 8) % 16 : ℕ) : ℝ) + biases (k / 64)

/-- A device that does 10^12 MACs a second. -/
def fastDevice : Device where
  mlxVersion := "0.32.0"
  rate := fun _ => 10 ^ 12
  rateQuantized := fun _ => 10 ^ 12
  mem := fun _ _ => (nan, nan)
  hoist := fun _ _ _ _ _ => (nan, nan)

/-- The small call, on the kernel. -/
def kernelCall : LossCall := { smallCall 2 with impl := .kernel }

theorem kernelCall_outputs {rowTiles : ℤ} (hrt : rowTiles = 2 ∨ rowTiles = 4) :
    ∃ out, kernelOutputs fastDevice kernelCall rowTiles = .ok out := by
  have hrate : Kernel.checkRate 1 1 2 kernelTile (some (10 ^ 12)) = .ok () := by decide +kernel
  obtain ⟨out, hout⟩ := @forward_runs (kernelCall.denseArgs ⟨2, 1, .float32, fun _ _ => 1, Kernel.oneRow.v_int32⟩)
    rowTiles kernelTile (some (10 ^ 12)) (fun _ _ => (nan, nan)) hrt (by decide) hrate
  exact ⟨out, Budget.mapError_eq_ok.2 hout⟩

theorem kernelCall_ok : ∃ loss, lossOn affineRow fastDevice false kernelCall = .ok loss := by
  obtain ⟨out, hout⟩ := kernelCall_outputs (selectVariant_rowTiles 1)
  have hkernel : kernelNll fastDevice false kernelCall = .ok (rowLoss out) :=
    Budget.bind_eq_ok.2 ⟨_, rfl, Budget.bind_eq_ok.2 ⟨out, hout, rfl⟩⟩
  exact ⟨_, Budget.bind_eq_ok.2 ⟨(), rfl, Budget.bind_eq_ok.2 ⟨_, hkernel, rfl⟩⟩⟩

theorem smallCall_ok : ∃ loss, lossOn affineRow fastDevice false (smallCall 2) = .ok loss := by
  obtain ⟨nll, hnll, -⟩ := denseCe_pos (smallCall_inRange affineRow 2) (show (1 : ℤ) ≤ 2 by decide)
  refine ⟨reduceLoss (smallCall 2) nll, ?_⟩
  unfold lossOn
  rw [linearCrossEntropy_chunked rfl (smallCall_check 2), chunkedNll_eq]
  exact congrArg _ (Budget.mapError_eq_ok.2 hnll)

/-- The kernel and the chunk loop, on the small call. -/
theorem impls_agree_smallCall : ∃ loss, lossOn affineRow fastDevice false kernelCall = .ok loss ∧
    lossOn affineRow fastDevice false (smallCall 2) = .ok loss := by
  obtain ⟨loss, hloss⟩ := kernelCall_ok
  obtain ⟨loss', hloss'⟩ := smallCall_ok
  obtain ⟨rfl, -⟩ := impls_agree affineRow (fun _ _ _ _ => rfl) fastDevice fastDevice false false kernelCall
    (fun _ h => by cases h) (fun h => by cases h) .chunked (some 2) (fun h => by cases h) (fun _ => by decide) loss loss'
    hloss hloss'
  exact ⟨loss, hloss, hloss'⟩

end MlxTrainPerf.Core
