import MlxTrainPerf.Core.KernelLoss
import MlxTrainPerf.Core.Kernel.Calibrate
import MlxTrainPerf.Lib.Memo
/-!
# The rate cache of the fused loss

`calibrated_rate` and `calibrated_rate_quantized` measure a rate once a key and keep it in
one dictionary, which every loss call of the process shares. A key holds neither the
columns nor the hidden dim, and the rows by their bucket only. Whatever calls came before,
a launch is sized by what was measured on its own kernel, and no key is measured twice.
-/
open XReal

namespace MlxTrainPerf.Core

open Kernel (Hoist TileRampSafe tileSeconds)

/-! ## The cache -/

/-- The kernel a rate is for, as a key says it. -/
inductive RatedHead
  | dense
  | quantized
deriving DecidableEq, Repr

/-- The arguments of a rate function. -/
structure RateArgs where
  head : RatedHead
  rowTiles : ℤ
  dtype : Dtype
  n : ℕ
  d : ℕ
  v : ℕ
deriving DecidableEq, Repr

structure RateKey where
  head : RatedHead
  rowTiles : ℤ
  dtype : Dtype
  nBucket : ℕ
deriving DecidableEq, Repr

/-- `_n_bucket`. -/
def nBucket (n : ℕ) : ℕ := 2 ^ max 9 (Nat.size (n - 1))

/-- `key`. -/
def RateArgs.key (a : RateArgs) : RateKey := ⟨a.head, a.rowTiles, a.dtype, nBucket a.n⟩

/-- The machine: the installed mlx, and what each probe of a calibration takes, which may depend on every calibration begun
before it. A probe does not raise here, so every calibration ends. -/
structure Gpu where
  mlxVersion : String
  clock : List RateArgs → RateArgs → List ℕ → ℚ

/-- The `_RATE_CACHE` of a process. -/
abbrev RateTable : Type := Memo.Table RateKey ℚ RateArgs

abbrev RateProg : Type → Type := Memo.Prog RateTable LossError

/-- A calibration at the arguments. -/
def RateArgs.calibration (a : RateArgs) (measure : List ℕ → ℚ) : Kernel.TileCalibration :=
  Kernel.calibrate measure a.n a.d a.v (Kernel.startTile a.n a.d a.v) 3

/-- `SAFETY_FACTOR * calibrate(..)`. -/
def measureRate (gpu : Gpu) (before : List RateArgs) (a : RateArgs) : Except LossError ℚ :=
  match (a.calibration (gpu.clock before a)).rate with
  | none => .error .zeroDivision
  | some rawRate => .ok (Kernel.safetyFactor * rawRate)

/-- Both rate functions, by their arguments. -/
def rateFor (gpu : Gpu) (a : RateArgs) : RateProg ℚ := Memo.fetch RateArgs.key (measureRate gpu) a

def calibratedRate (gpu : Gpu) (rowTiles : ℤ) (dtype : Dtype) (n d v : ℕ) : RateProg ℚ :=
  rateFor gpu ⟨.dense, rowTiles, dtype, n, d, v⟩

def calibratedRateQuantized (gpu : Gpu) (rowTiles : ℤ) (dtype : Dtype) (n d v : ℕ) : RateProg ℚ :=
  rateFor gpu ⟨.quantized, rowTiles, dtype, n, d, v⟩

/-! ## `linear_cross_entropy` through the cache -/

/-- What becomes of a call: what its caller allows, and what the buffers and registers of its launches hold at first. -/
structure LossStep where
  call : LossCall
  allowUnverified : Bool
  mem : ℕ × ℕ → ℕ → XReal × XReal
  hoist : ℕ × ℕ → ℕ → Hoist

/-- The rate a kernel call asks for. -/
def rateOf (gpu : Gpu) (c : LossCall) (rowTiles : ℤ) : RateProg ℚ :=
  match c.head with
  | .dense head => calibratedRate gpu rowTiles c.hidden.dtype c.rows c.d head.v
  | .quantized head => calibratedRateQuantized gpu rowTiles c.hidden.dtype c.rows c.d head.v

/-- The machine, where the rate is this one. -/
def Gpu.rated (gpu : Gpu) (s : LossStep) (rate : ℚ) : Device := ⟨gpu.mlxVersion, fun _ => rate, fun _ => rate, s.mem, s.hoist⟩

noncomputable section

/-- The kernel's branch. -/
def kernelNllCached (gpu : Gpu) (s : LossStep) : RateProg (ℕ → XReal) := do
  let res ← resolveKernel gpu.mlxVersion s.call.head s.call.hidden.dtype s.call.rows s.allowUnverified
  let rowTiles := res.rowTiles.getD 2
  let rate ← rateOf gpu s.call rowTiles
  let out ← kernelOutputs (gpu.rated s rate) s.call rowTiles
  return rowLoss out

/-- `linear_cross_entropy`. -/
def lossCached (dequantize : Dequantize) (gpu : Gpu) (s : LossStep) : RateProg LossValue := do
  checkCall s.call
  let nll ← match s.call.impl with
    | .naive => pure (naiveNll dequantize s.call)
    | .chunked => (chunkedNll dequantize s.call (s.call.chunkSize.getD kernelTile) : Except LossError (ℕ → XReal))
    | .auto | .kernel => kernelNllCached gpu s
    | .other name => throw (.lossInput (implMsg name))
  return reduceLoss s.call nll

end

/-! ## What a calibration gives -/

section Rates
variable {gpu : Gpu} {before : List RateArgs} {a : RateArgs} {rate : ℚ}

/-- Work to time. -/
structure RateArgs.Works (a : RateArgs) : Prop where
  n : 1 ≤ a.n
  d : 1 ≤ a.d
  v : 1 ≤ a.v

theorem RateArgs.Works.safe (h : a.Works) (measure : List ℕ → ℚ) :
    TileRampSafe measure a.n a.d a.v 3 (a.calibration measure) := Kernel.ramp_safe h.v

theorem measureRate_ok (h : measureRate gpu before a = .ok rate) :
    ∃ rawRate, (a.calibration (gpu.clock before a)).rate = some rawRate ∧ rate = Kernel.safetyFactor * rawRate := by
  unfold measureRate at h
  split at h
  · cases h
  · next rawRate hraw => exact ⟨rawRate, hraw, (Except.ok.inj h).symm⟩

/-- A calibration that has work to time gives a rate. -/
theorem measureRate_gives (gpu : Gpu) (before : List RateArgs) (h : a.Works) : ∃ rate, measureRate gpu before a = .ok rate := by
  obtain ⟨rawRate, hraw⟩ := Option.isSome_iff_exists.1 ((h.safe (gpu.clock before a)).returns h.n h.d)
  unfold measureRate
  rw [hraw]
  exact ⟨_, rfl⟩

theorem measureRate_pos (h : a.Works) (hrate : measureRate gpu before a = .ok rate) : 0 < rate := by
  obtain ⟨rawRate, hraw, rfl⟩ := measureRate_ok hrate
  have hsafe := h.safe (gpu.clock before a)
  obtain ⟨launched, hprobes, hrated⟩ := hsafe.rated rawRate hraw
  have htile := (hsafe.bounded (a.calibration (gpu.clock before a)).tile (by simp [hprobes])).1
  have hpos : 0 < rawRate := by
    rw [hrated]
    exact Kernel.tileRate_pos h.n h.d htile _
  have hhalf : 0 < Kernel.safetyFactor := by norm_num [Kernel.safetyFactor]
  positivity

end Rates

/-! ## A call through the cache -/

section Cached
variable {gpu : Gpu} {s : LossStep} {t t' : RateTable} {rowTiles : ℤ} {rate : ℚ}

/-- What a call passes to its rate function. -/
def rateArgs (c : LossCall) (rowTiles : ℤ) : RateArgs where
  head := match c.head with
    | .dense _ => .dense
    | .quantized _ => .quantized
  rowTiles := rowTiles
  dtype := c.hidden.dtype
  n := c.rows
  d := c.d
  v := c.head.v

theorem rateOf_eq (gpu : Gpu) (c : LossCall) (rowTiles : ℤ) : rateOf gpu c rowTiles = rateFor gpu (rateArgs c rowTiles) := by
  obtain ⟨hidden, head, targets, impl, size, reduction, validate⟩ := c
  cases head with
  | dense head => rfl
  | quantized head => rfl

/-- A call has columns, and a hidden dim. -/
def LossCall.HasColumns (c : LossCall) : Prop := 1 ≤ c.d ∧ 1 ≤ c.head.v

theorem rateArgs_works {c : LossCall} (hcheck : checkCall c = .ok ()) (hcolumns : c.HasColumns) (rowTiles : ℤ) :
    (rateArgs c rowTiles).Works := ⟨rows_pos_of_check hcheck, hcolumns.1, hcolumns.2⟩

/-- The rates of a process that had work to time. -/
abbrev SoundRates (gpu : Gpu) (t : RateTable) : Prop := Memo.Sound RateArgs.key (measureRate gpu) RateArgs.Works t

abbrev RateClient {α : Type} (gpu : Gpu) (p : RateProg α) : Prop :=
  Memo.Client RateArgs.key (measureRate gpu) RateArgs.Works p

theorem kernelNllCached_client (hcheck : checkCall s.call = .ok ()) (hcolumns : s.call.HasColumns) :
    RateClient gpu (kernelNllCached gpu s) := by
  unfold kernelNllCached
  refine .lift_bind fun res _ => ?_
  dsimp only
  rw [rateOf_eq]
  exact .bind (.fetch (rateArgs_works hcheck hcolumns _)) fun rate => .lift_bind fun out _ => .pure _

/-- A call, whatever it gives, asks for a rate of its own at most. -/
theorem lossCached_client {dequantize : Dequantize} (hcolumns : s.call.HasColumns) :
    RateClient gpu (lossCached dequantize gpu s) := by
  unfold lossCached
  refine .lift_bind fun u hcheck => ?_
  obtain ⟨⟩ := u
  have hkernel := @kernelNllCached_client gpu s hcheck hcolumns
  cases s.call.impl with
  | auto => exact .bind hkernel fun _ => .pure _
  | kernel => exact .bind hkernel fun _ => .pure _
  | chunked => exact .lift_bind fun _ _ => .pure _
  | naive => exact .lift _
  | other name => exact .lift (.error _)

/-- A kernel launch that returned was within its budgets, at the rate of its call. -/
theorem kernelOutputs_budget {out : List XReal × List XReal} {c : LossCall}
    (h : kernelOutputs (gpu.rated s rate) c rowTiles = .ok out) :
    Kernel.checkBudget c.rows c.d c.head.v kernelTile rate = .ok () := by
  obtain ⟨hidden, head, targets, impl, size, reduction, validate⟩ := c
  cases head with
  | dense head => exact (Budget.bind_eq_ok.1 (Budget.mapError_eq_ok.1 h)).choose_spec.1
  | quantized head =>
    have hquant := Budget.mapError_eq_ok.1 h
    unfold Kernel.forwardQuantized at hquant
    split_ifs at hquant
    exact (Budget.bind_eq_ok.1 (Budget.mapError_eq_ok.1 hquant)).choose_spec.1

/-- The budgets, dispatch by dispatch. -/
theorem within_budgets {n d v : ℕ} (hpos : 0 < rate) (h : Kernel.checkBudget n d v kernelTile rate = .ok ()) :
    (∃ tiles, vocabTiles v kernelTile = .ok tiles ∧
      ∀ r ∈ tiles, tileSeconds n d rate (r.2 - r.1) ≤ Kernel.maxDispatchSeconds) ∧
    tileSeconds n d rate v ≤ Kernel.maxTotalSeconds := by
  unfold Kernel.checkBudget at h
  rw [if_neg hpos.ne'] at h
  dsimp only at h
  split_ifs at h with hbudget
  rw [not_or, not_lt, not_lt] at hbudget
  refine ⟨⟨_, vocabTiles_eq v (show 0 < 8192 by decide), ?_⟩, ?_⟩
  · intro r hr
    obtain ⟨v0, -, rfl⟩ := List.mem_map.1 hr
    refine le_trans ?_ hbudget.1
    unfold tileSeconds kernelTile
    have hwidth : n * (min (v0 + 8192) v - v0) * d ≤ n * 8192 * d := by
      gcongr
      omega
    have hwidth : ((n * (min (v0 + 8192) v - v0) * d : ℕ) : ℚ) ≤ n * 8192 * d := by exact_mod_cast hwidth
    push_cast at hwidth ⊢
    gcongr
  · refine le_trans (le_of_eq ?_) hbudget.2
    unfold tileSeconds
    push_cast
    rfl

/-- A kernel call that returns: its rate, and the launch at that rate. -/
theorem lossCached_kernel {dequantize : Dequantize} {loss : LossValue} (himpl : s.call.impl = .auto ∨ s.call.impl = .kernel)
    (h : lossCached dequantize gpu s t = (.ok loss, t')) : ∃ rate out, checkCall s.call = .ok () ∧
      rateFor gpu (rateArgs s.call (selectVariant s.call.rows).rowTiles) t = (.ok rate, t') ∧
      kernelOutputs (gpu.rated s rate) s.call (selectVariant s.call.rows).rowTiles = .ok out ∧
      lossOn dequantize (gpu.rated s rate) s.allowUnverified s.call = .ok loss := by
  obtain ⟨⟨⟩, hcheck, h₁⟩ := Memo.lift_bind_eq_ok h
  have hkernel : (kernelNllCached gpu s >>= fun nll => Pure.pure (reduceLoss s.call nll)) t = (.ok loss, t') := by
    rcases himpl with himpl | himpl <;>
    · rw [himpl] at h₁
      exact h₁
  obtain ⟨nll, t₁, hnll, h₂⟩ := Memo.bind_eq_ok hkernel
  obtain ⟨hloss, rfl⟩ := Prod.mk.inj h₂
  obtain rfl := Except.ok.inj hloss
  obtain ⟨res, hres, h₃⟩ := Memo.lift_bind_eq_ok hnll
  obtain ⟨rate, t₂, hrate, h₄⟩ := Memo.bind_eq_ok h₃
  obtain ⟨out, hout, h₅⟩ := Memo.lift_bind_eq_ok h₄
  obtain ⟨hrow, rfl⟩ := Prod.mk.inj h₅
  obtain rfl := Except.ok.inj hrow
  have htiles : res.rowTiles.getD 2 = (selectVariant s.call.rows).rowTiles := by
    obtain ⟨-, -, hres⟩ := Budget.bind_eq_ok.1 hres
    obtain ⟨-, -, hres⟩ := Budget.bind_eq_ok.1 hres
    obtain rfl := Except.ok.inj hres
    rfl
  refine ⟨rate, out, hcheck, ?_, htiles ▸ hout, ?_⟩
  · rwa [← rateOf_eq, ← htiles]
  · have hbranch : kernelNll (gpu.rated s rate) s.allowUnverified s.call = .ok (rowLoss out) :=
      Budget.bind_eq_ok.2 ⟨res, hres, Budget.bind_eq_ok.2 ⟨out, hout, rfl⟩⟩
    refine Budget.bind_eq_ok.2 ⟨(), hcheck, ?_⟩
    rcases himpl with himpl | himpl <;>
    · rw [himpl]
      exact Budget.bind_eq_ok.2 ⟨_, hbranch, rfl⟩

end Cached

/-! ## Runs of calls -/

/-- The cache after a run of calls from the start of the process, whatever each gave. -/
noncomputable def ratesAfter (dequantize : Dequantize) (gpu : Gpu) (steps : List LossStep) : RateTable :=
  Memo.after .empty (steps.map (lossCached dequantize gpu))

theorem ratesAfter_fetched {dequantize : Dequantize} {gpu : Gpu} {steps : List LossStep}
    (hsteps : ∀ step ∈ steps, step.call.HasColumns) :
    Memo.Fetched RateArgs.key (measureRate gpu) RateArgs.Works .empty (ratesAfter dequantize gpu steps) := by
  refine Memo.after_fetched ?_ .empty
  intro p hp
  obtain ⟨step, hstep, rfl⟩ := List.mem_map.1 hp
  exact lossCached_client (hsteps step hstep)

/-- After any calls, a kernel call that returns gives its own losses, from a launch that half of what a safe calibration
measured puts within a second a dispatch and a minute in all: measured on the same kernel, with its row tiles and dtype,
and at a row count within a factor of two of the call's or, like it, of at most 512. -/
theorem loss_run_launches_measured (dequantize : Dequantize) (haffine : Affine dequantize) (gpu : Gpu) (steps : List LossStep)
    (hsteps : ∀ step ∈ steps, step.call.HasColumns) (s : LossStep) (hcolumns : s.call.HasColumns) (hwords : s.call.Words)
    (hrange : s.call.validateTargets = false → (s.call.args dequantize).InRange)
    (himpl : s.call.impl = .auto ∨ s.call.impl = .kernel) (loss : LossValue)
    (h : (lossCached dequantize gpu s (ratesAfter dequantize gpu steps)).1 = .ok loss) :
    loss = reduceLoss s.call (fun i => real ((s.call.args dequantize).nll i)) ∧
    ∃ rate before a rawRate, before ++ [a] <+: (lossCached dequantize gpu s (ratesAfter dequantize gpu steps)).2.begun ∧
      a.key = (rateArgs s.call (selectVariant s.call.rows).rowTiles).key ∧
      (512 < s.call.rows → s.call.rows < 2 * a.n ∧ a.n < 2 * s.call.rows) ∧
      (a.calibration (gpu.clock before a)).rate = some rawRate ∧ rate = Kernel.safetyFactor * rawRate ∧
      TileRampSafe (gpu.clock before a) a.n a.d a.v 3 (a.calibration (gpu.clock before a)) ∧
      (∃ tiles, vocabTiles s.call.head.v kernelTile = .ok tiles ∧
        ∀ r ∈ tiles, tileSeconds s.call.rows s.call.d rate (r.2 - r.1) ≤ Kernel.maxDispatchSeconds) ∧
      tileSeconds s.call.rows s.call.d rate s.call.head.v ≤ Kernel.maxTotalSeconds := by
  have hsound : SoundRates gpu (lossCached dequantize gpu s (ratesAfter dequantize gpu steps)).2 :=
    ((ratesAfter_fetched hsteps).trans (lossCached_client hcolumns _)).sound Memo.Sound.empty
  obtain ⟨rate, out, -, hrate, hout, hlossOn⟩ := lossCached_kernel himpl (Prod.ext h rfl)
  have hsize : s.call.impl = .chunked → 0 ≤ s.call.chunkSize.getD kernelTile := by
    intro hchunked
    rw [hchunked] at himpl
    rcases himpl with himpl | himpl <;> cases himpl
  refine ⟨lossOn_ok haffine hwords hrange hsize hlossOn, ?_⟩
  obtain ⟨before, a, hpre, hkey, hmeasured⟩ := hsound.computed _ _ (Memo.fetch_held hrate)
  have hworks : a.Works := hsound.good a (hpre.subset (List.mem_append_right _ (List.mem_singleton_self a)))
  obtain ⟨rawRate, hraw, heq⟩ := measureRate_ok hmeasured
  obtain ⟨hdispatches, htotal⟩ := within_budgets (measureRate_pos hworks hmeasured) (kernelOutputs_budget hout)
  refine ⟨rate, before, a, rawRate, hpre, hkey, ?_, hraw, heq, hworks.safe _, hdispatches, htotal⟩
  intro hlong
  exact Buckets.near_of_pow_eq (congrArg RateKey.nBucket hkey).symm hlong

/-- A machine where every probe takes a millisecond. -/
def steadyGpu : Gpu := ⟨"0.32.0", fun _ _ _ => 1 / 1000⟩

noncomputable def kernelStep : LossStep := ⟨kernelCall, false, fun _ _ => (nan, nan), fun _ _ _ _ _ => (nan, nan)⟩

/-- What `kernelCall` passes to its rate function. -/
def kernelArgs : RateArgs := ⟨.dense, 2, .float32, 1, 1, 2⟩

/-- The table it leaves. -/
def kernelTable : RateTable := ⟨[(kernelArgs.key, 16000)], [kernelArgs]⟩

theorem kernelStep_args : rateArgs kernelStep.call (selectVariant kernelStep.call.rows).rowTiles = kernelArgs := by
  have htiles : (selectVariant 1).rowTiles = 2 := by decide +kernel
  exact congrArg (rateArgs kernelStep.call) htiles

theorem kernelStep_ok {t t' : RateTable} (hrate : rateFor steadyGpu kernelArgs t = (.ok 16000, t')) :
    ∃ loss, lossCached affineRow steadyGpu kernelStep t = (.ok loss, t') := by
  have hbudget : Kernel.checkRate 1 1 2 kernelTile (some 16000) = .ok () := by decide +kernel
  obtain ⟨out, hout⟩ := @forward_runs (kernelCall.denseArgs ⟨2, 1, .float32, fun _ _ => 1, Kernel.oneRow.v_int32⟩)
    (selectVariant 1).rowTiles kernelTile (some 16000) (fun _ _ => (nan, nan)) (selectVariant_rowTiles 1) (by decide) hbudget
  rw [← kernelStep_args] at hrate
  have hnll : kernelNllCached steadyGpu kernelStep t = (.ok (rowLoss out), t') := by
    refine (Memo.lift_bind_ok rfl).trans ((Memo.bind_ok hrate).trans ?_)
    have hout : kernelOutputs (steadyGpu.rated kernelStep 16000) kernelStep.call (selectVariant 1).rowTiles = .ok out :=
      Budget.mapError_eq_ok.2 hout
    exact Memo.lift_bind_ok hout
  exact ⟨reduceLoss kernelCall (rowLoss out), Memo.bind_ok hnll⟩

theorem kernelStep_first : ∃ loss, lossCached affineRow steadyGpu kernelStep .empty = (.ok loss, kernelTable) := by
  refine kernelStep_ok (Memo.fetch_miss_ok rfl ?_)
  decide +kernel

theorem ratesAfter_kernelStep : ratesAfter affineRow steadyGpu [kernelStep] = kernelTable := by
  obtain ⟨loss, hloss⟩ := kernelStep_first
  exact congrArg Prod.snd hloss

theorem kernelStep_works : ∀ step ∈ [kernelStep], step.call.HasColumns := by
  intro step hstep
  obtain rfl := List.mem_singleton.1 hstep
  exact ⟨le_refl 1, one_le_two⟩

/-- A second call, sized by what the first measured. -/
theorem loss_run_launches_measured_twice : ∃ loss before a rawRate,
    (lossCached affineRow steadyGpu kernelStep (ratesAfter affineRow steadyGpu [kernelStep])).1 = .ok loss ∧
    before ++ [a] <+: kernelTable.begun ∧ a.key = kernelArgs.key ∧
    (a.calibration (steadyGpu.clock before a)).rate = some rawRate := by
  have hhit : rateFor steadyGpu kernelArgs kernelTable = (.ok 16000, kernelTable) := Memo.fetch_hit rfl
  obtain ⟨loss, hloss⟩ := kernelStep_ok hhit
  rw [← ratesAfter_kernelStep] at hloss
  obtain ⟨-, rate, before, a, rawRate, hbegun, hkey, -, hraw, -⟩ := loss_run_launches_measured affineRow (fun _ _ _ _ => rfl)
    steadyGpu [kernelStep] kernelStep_works kernelStep ⟨le_refl 1, one_le_two⟩ (fun _ h => by cases h) (fun h => by cases h)
    (.inr rfl) loss (congrArg Prod.fst hloss)
  rw [hloss, ratesAfter_kernelStep] at hbegun
  rw [kernelStep_args] at hkey
  exact ⟨loss, before, a, rawRate, congrArg Prod.fst hloss, hbegun, hkey, hraw⟩

/-- A process measures a kernel, with its row tiles, its dtype and its bucket of rows, at most once. -/
theorem loss_run_measures_once (dequantize : Dequantize) (gpu : Gpu) (steps : List LossStep)
    (hsteps : ∀ step ∈ steps, step.call.HasColumns) : ((ratesAfter dequantize gpu steps).begun.map RateArgs.key).Nodup := by
  have hfetched := @ratesAfter_fetched dequantize gpu steps hsteps
  have hsound : SoundRates gpu _ := hfetched.sound Memo.Sound.empty
  refine (hfetched.once Memo.Once.empty).nodup ?_
  intro before a ha
  exact measureRate_gives gpu before (hsound.good a ha)

/-- Two calls, one measurement. -/
theorem loss_run_measures_once_twice :
    ((ratesAfter affineRow steadyGpu [kernelStep, kernelStep]).begun.map RateArgs.key).Nodup := by
  refine loss_run_measures_once affineRow steadyGpu [kernelStep, kernelStep] ?_
  intro step hstep
  exact kernelStep_works step (by simpa using hstep)

end MlxTrainPerf.Core
