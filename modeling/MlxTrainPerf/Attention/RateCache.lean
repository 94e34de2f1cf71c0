import MlxTrainPerf.Attention.Api
import MlxTrainPerf.Attention.Calibrate
import MlxTrainPerf.Lib.Memo
/-!
# The rate caches

`calibrated_fwd_rate`, `calibrated_bwd_dq_rate` and `calibrated_bwd_dkv_rate` measure a
rate once a key and keep it in three dictionaries of their module, which every call of the
process shares. A key holds a bucket of lengths, so a call may be sized by what another
call measured. Whatever calls came before, the rates of a call are positive and were
measured on its own kernels, and the call returns what the reference returns.
-/
open XReal

namespace MlxTrainPerf.Attention

open Launch (Shape Seconds calibrateFwd fwdMacsPerRow startProbeN derated RampSafe)
open MlxTrainPerf.Core (Dtype kernelDtypes)
open Kernel

/-! ## The caches -/

/-- The kernel a rate is for; each has its own dictionary. -/
inductive RatedKernel
  | fwd
  | bwdDq
  | bwdDkv
deriving DecidableEq, Repr

/-- `_bwd_dq_macs_per_row`. -/
def bwdDqMacsPerRow (d b hq n : ℕ) : ℕ := 3 * d * n * b * hq

/-- `_bwd_dkv_macs_per_row`. -/
def bwdDkvMacsPerRow (d b hq n : ℕ) : ℕ := 4 * d * n * b * hq

def RatedKernel.macsPerRow : RatedKernel → ℕ → ℕ → ℕ → ℕ → ℕ
  | fwd => fwdMacsPerRow
  | bwdDq => bwdDqMacsPerRow
  | bwdDkv => bwdDkvMacsPerRow

/-- The arguments of a rate function. -/
structure RateArgs where
  kernel : RatedKernel
  headDim : ℕ
  dtype : Dtype
  b : ℕ
  hq : ℕ
  hkv : ℕ
  n : ℕ
  causal : Bool
  tile : TileShape
  packed : Bool
deriving DecidableEq, Repr

/-- A key, and the dictionary it is a key of. -/
structure RateKey where
  kernel : RatedKernel
  headDim : ℕ
  dtype : Dtype
  causal : Bool
  b : ℕ
  hq : ℕ
  nBucket : ℕ
  variant : Variant
  dSlab : Option ℤ
  packed : Bool
deriving DecidableEq, Repr

/-- `key`: the kv heads are not part of it, and the length is by its bucket. -/
def RateArgs.key (a : RateArgs) : RateKey where
  kernel := a.kernel
  headDim := a.headDim
  dtype := a.dtype
  causal := a.causal
  b := a.b
  hq := a.hq
  nBucket := Attention.nBucket a.n
  variant := a.tile.variant
  dSlab := a.tile.dSlab
  packed := a.packed

/-- The machine: what each probe of a calibration takes, and the text of the `ValueError` it raises if it does. Both may
depend on every calibration begun before it. -/
structure Gpu where
  metal : Bool
  mlxVersion : String
  clock : List RateArgs → RateArgs → List (ℕ × ℕ) → Seconds
  raises : List RateArgs → RateArgs → Option String

/-- What a rate function raises. -/
inductive RateError
  | value (msg : String)
  | zeroDivision
deriving DecidableEq, Repr

/-- The `_FWD_RATE_CACHE`, `_BWD_DQ_RATE_CACHE` and `_BWD_DKV_RATE_CACHE` of a process. -/
abbrev RateTable : Type := Memo.Table RateKey ℚ RateArgs

abbrev RateProg : Type → Type → Type := Memo.Prog RateTable

/-- The cost of a row over `n` keys. -/
def RateArgs.macsPerRow (a : RateArgs) (n : ℕ) : ℕ := a.kernel.macsPerRow a.headDim a.b a.hq n

/-- A calibration at the arguments. -/
def RateArgs.calibration (a : RateArgs) (clock : List (ℕ × ℕ) → Seconds) : Launch.Calibration :=
  calibrateFwd clock a.macsPerRow a.n a.causal (startProbeN a.n) 3

/-- `SAFETY_FACTOR * raw_rate`. -/
def measureRate (gpu : Gpu) (before : List RateArgs) (a : RateArgs) : Except RateError ℚ :=
  match gpu.raises before a with
  | some msg => .error (.value msg)
  | none =>
    match (a.calibration (gpu.clock before a)).rate with
    | none => .error .zeroDivision
    | some rawRate => .ok (derated rawRate)

/-- The three rate functions, by their kernel. -/
def calibratedRate (gpu : Gpu) (a : RateArgs) : RateProg RateError ℚ := Memo.fetch RateArgs.key (measureRate gpu) a

/-- What a call passes to the rate function of a kernel. -/
def rateArgs (kernel : RatedKernel) (c : AttentionCall) (s : Shape) (tile : TileShape) : RateArgs :=
  ⟨kernel, s.d, c.dtype, s.b, s.hq, s.hkv, s.n, c.causal, tile, c.segments.isSome⟩

def calibratedFwdRate (gpu : Gpu) (c : AttentionCall) (s : Shape) (tile : TileShape) : RateProg RateError ℚ :=
  calibratedRate gpu (rateArgs .fwd c s tile)

def calibratedBwdDqRate (gpu : Gpu) (c : AttentionCall) (s : Shape) (tile : TileShape) : RateProg RateError ℚ :=
  calibratedRate gpu (rateArgs .bwdDq c s tile)

def calibratedBwdDkvRate (gpu : Gpu) (c : AttentionCall) (s : Shape) (tile : TileShape) : RateProg RateError ℚ :=
  calibratedRate gpu (rateArgs .bwdDkv c s tile)

/-! ## `flash_attention` through the caches -/

/-- Only a `ValueError` is looked at. -/
def cachedRateError (s : Shape) (packed : Bool) : RateError → AttentionError
  | .value msg => rateError s packed msg
  | .zeroDivision => .zeroDivision

/-- The machine, where the three rates are these. -/
def Gpu.rated (gpu : Gpu) (fwd dq dkv : Except String ℚ) : AttentionDevice :=
  ⟨gpu.metal, gpu.mlxVersion, fun _ _ _ _ => fwd, fun _ _ _ _ => dq, fun _ _ _ _ => dkv⟩

/-- The tiles and rates of a kernel call. -/
def resolveTilesCached (gpu : Gpu) (c : AttentionCall) (s : Shape) : RateProg AttentionError Resolved := do
  let tile ← selectFwdTile s.n s.d
  let (dqTile, dkvTile) ← selectBwdTiles s.n s.d
  let onError := cachedRateError s c.segments.isSome
  let rate ← ExceptT.adapt onError (calibratedFwdRate gpu c s tile.toTileShape)
  let dqRate ← ExceptT.adapt onError (calibratedBwdDqRate gpu c s dqTile.toTileShape)
  let dkvRate ← ExceptT.adapt onError (calibratedBwdDkvRate gpu c s dkvTile.toTileShape)
  return ⟨tile.toTileShape, some rate, dqTile.toTileShape, some dqRate, dkvTile.toTileShape, some dkvRate⟩

/-- What a call runs. The checks come first, and look at no rate. -/
def resolveCallCached (gpu : Gpu) (c : AttentionCall) : RateProg AttentionError (Shape × Option Resolved) := do
  let (s, resolved) ← resolveAttentionImpl (gpu.rated (.ok 0) (.ok 0) (.ok 0)) c
  match resolved with
  | .reference => return (s, none)
  | .kernel =>
    let res ← resolveTilesCached gpu c s
    return (s, some res)

noncomputable section

/-- `flash_attention`. -/
def flashAttentionCached (gpu : Gpu) (mem : Memory) (c : AttentionCall) : RateProg AttentionError (Tensor XReal) := do
  let (s, res) ← resolveCallCached gpu c
  coreForward c mem s res

/-- `flash_attention`, and its vjp at a cotangent. -/
def flashPassCached (gpu : Gpu) (mem : Memory) (c : AttentionCall) (dO : Tensor ℝ) : RateProg AttentionError Pass := do
  let (s, res) ← resolveCallCached gpu c
  corePass c dO mem s res

end

/-! ## What a calibration gives -/

section Rates
variable {gpu : Gpu} {t t' : RateTable} {before : List RateArgs} {a : RateArgs} {rate : ℚ}

/-- Every length that was rated is that of a call with rows. -/
abbrev SoundRates (gpu : Gpu) (t : RateTable) : Prop := Memo.Sound RateArgs.key (measureRate gpu) (fun a => 1 ≤ a.n) t

/-- A dispatch that does some work. -/
structure RateKey.Works (k : RateKey) : Prop where
  headDim : 0 < k.headDim
  b : 0 < k.b
  hq : 0 < k.hq

theorem macsPerRow_pos (hworks : a.key.Works) {n : ℕ} (hn : 1 ≤ n) : 0 < a.macsPerRow n := by
  obtain ⟨hd, hb, hq⟩ := hworks
  replace hd : 0 < a.headDim := hd
  replace hb : 0 < a.b := hb
  replace hq : 0 < a.hq := hq
  unfold RateArgs.macsPerRow RatedKernel.macsPerRow
  cases a.kernel with
  | fwd =>
    unfold fwdMacsPerRow
    positivity
  | bwdDq =>
    unfold bwdDqMacsPerRow
    positivity
  | bwdDkv =>
    unfold bwdDkvMacsPerRow
    positivity

theorem calibration_safe (clock : List (ℕ × ℕ) → Seconds) (hn : 1 ≤ a.n) :
    RampSafe clock a.macsPerRow a.n a.causal Launch.canarySlack 3 (a.calibration clock) := Launch.calibrateFwd_safe hn

theorem measureRate_ok (h : measureRate gpu before a = .ok rate) :
    ∃ rawRate, (a.calibration (gpu.clock before a)).rate = some rawRate ∧ rate = derated rawRate := by
  unfold measureRate at h
  split at h
  · cases h
  · split at h
    · cases h
    · next rawRate hraw => exact ⟨rawRate, hraw, (Except.ok.inj h).symm⟩

/-- What was credited took some time. -/
theorem measureRate_pos (hn : 1 ≤ a.n) (hworks : a.key.Works) (h : measureRate gpu before a = .ok rate) : 0 < rate := by
  obtain ⟨rawRate, hraw, rfl⟩ := measureRate_ok h
  have hsafe := calibration_safe (gpu.clock before a) hn
  obtain ⟨launched, rows, hprobes, hrate, -⟩ := hsafe.rated rawRate hraw
  obtain ⟨hrows, hle, -⟩ := hsafe.bounded (rows, a.n) (by simp [hprobes])
  refine Launch.derated_pos ?_
  rw [hrate]
  exact Launch.measuredRate_ge (macsPerRow_pos hworks le_rfl) hrows hle (Launch.medianOf_lt _ _)

/-- No calibration of a dispatch that does some work divides by zero. -/
theorem measureRate_ne_zeroDivision (hn : 1 ≤ a.n) (hworks : a.key.Works) : measureRate gpu before a ≠ .error .zeroDivision := by
  unfold measureRate
  split
  · exact fun h => nomatch h
  · obtain ⟨rawRate, hraw⟩ := Option.isSome_iff_exists.1
      ((calibration_safe (gpu.clock before a) hn).returns (macsPerRow_pos hworks le_rfl) (macsPerRow_pos hworks hn))
    rw [hraw]
    exact fun h => nomatch h

/-- A rate, as a calibration left it: half of what it measured, on the kernel and at the shape of the key. -/
structure FromCalibration (gpu : Gpu) (t : RateTable) (key : RateKey) (before : List RateArgs) (a : RateArgs) (rate : ℚ) :
    Prop where
  begun : before ++ [a] <+: t.begun
  key : a.key = key
  rows : 1 ≤ a.n
  measured : measureRate gpu before a = .ok rate

/-- What is held was calibrated, at a key that is its own. -/
theorem SoundRates.held (hsound : SoundRates gpu t) {key : RateKey} (h : t.entries.lookup key = some rate) :
    ∃ before a, FromCalibration gpu t key before a rate := by
  obtain ⟨before, b, hpre, hkey, hrate⟩ := hsound.computed key rate h
  refine ⟨before, b, hpre, hkey, ?_, hrate⟩
  exact hsound.good b (hpre.subset (List.mem_append_right _ (List.mem_singleton_self b)))

theorem FromCalibration.pos {key : RateKey} (h : FromCalibration gpu t key before a rate) (hworks : key.Works) : 0 < rate :=
  measureRate_pos h.rows (h.key ▸ hworks) h.measured

theorem calibratedRate_pos (hsound : SoundRates gpu t) (hn : 1 ≤ a.n) (hworks : a.key.Works)
    (h : calibratedRate gpu a t = (.ok rate, t')) : 0 < rate := by
  have hsound' : SoundRates gpu (calibratedRate gpu a t).2 := hsound.fetch hn
  rw [h] at hsound'
  obtain ⟨before, b, hfrom⟩ := hsound'.held (Memo.fetch_held h)
  exact hfrom.pos hworks

theorem calibratedRate_ne_zeroDivision (hn : 1 ≤ a.n) (hworks : a.key.Works) :
    (calibratedRate gpu a t).1 ≠ .error .zeroDivision := by
  unfold calibratedRate
  rcases Memo.fetch_cases RateArgs.key (measureRate gpu) a t with ⟨v, -, h⟩ | ⟨v, -, -, h⟩ | ⟨e, -, he, h⟩
  · rw [h]
    exact fun h => nomatch h
  · rw [h]
    exact fun h => nomatch h
  · rw [h]
    rintro heq
    obtain rfl := Except.error.inj heq
    exact measureRate_ne_zeroDivision hn hworks he

end Rates

/-! ## Lengths of a bucket -/

/-- Past the smallest bucket, the lengths of one are within a factor of two. -/
theorem nBucket_near {n n' : ℕ} (h : nBucket n = nBucket n') (hn : 512 < n) : n < 2 * n' ∧ n' < 2 * n :=
  Buckets.near_of_pow_eq h hn

/-! ## A call is that of a device -/

/-- The text of what a rate function raised. -/
def rateText : Except RateError ℚ → Except String ℚ
  | .ok rate => .ok rate
  | .error (.value msg) => .error msg
  | .error .zeroDivision => .error ""

/-- The device a call finds: each rate function is called on the table the one before it left. -/
def Gpu.deviceAt (gpu : Gpu) (c : AttentionCall) (s : Shape) (t : RateTable) : AttentionDevice :=
  let tile := shippedTile s.d
  let fwd := calibratedFwdRate gpu c s tile t
  let dq := calibratedBwdDqRate gpu c s tile fwd.2
  let dkv := calibratedBwdDkvRate gpu c s tile dq.2
  gpu.rated (rateText fwd.1) (rateText dq.1) (rateText dkv.1)

section Device
variable {gpu : Gpu} {c : AttentionCall} {s : Shape} {t t' : RateTable} {kernel : RatedKernel} {tile : TileShape}

theorem rateText_eq_ok {x : Except RateError ℚ} {rate : ℚ} (h : rateText x = .ok rate) : x = .ok rate := by
  unfold rateText at h
  split at h
  · rw [Except.ok.inj h]
  · cases h
  · cases h

/-- One rate function of the cached call, beside its device's. -/
theorem rate_bind {α : Type} {p : RateProg RateError ℚ} {f : ℚ → RateProg AttentionError α} {g : ℚ → Except AttentionError α}
    {packed : Bool} {x : Except String ℚ} (hx : x = rateText (p t).1) (hzero : (p t).1 ≠ .error .zeroDivision)
    (hnext : ∀ rate t', p t = (.ok rate, t') → (f rate t').1 = g rate) :
    ((ExceptT.adapt (cachedRateError s packed) p >>= f) t).1 = x.mapError (rateError s packed) >>= g := by
  subst hx
  rcases hp : p t with ⟨e | rate, t'⟩
  · rw [Memo.bind_error (Memo.adapt_error _ hp)]
    rw [hp] at hzero
    cases e with
    | value msg => rfl
    | zeroDivision => exact absurd rfl hzero
  · rw [Memo.bind_ok (Memo.adapt_ok _ hp)]
    exact hnext rate t' hp

theorem rateArgs_works (hd : 0 < s.d) (hb : 1 ≤ s.b) (hheads : 1 ≤ s.hq) : (rateArgs kernel c s tile).key.Works :=
  ⟨hd, hb, hheads⟩

/-- Tiles and rates through the caches are those of the device. -/
theorem resolveTilesCached_device (hn : 1 ≤ s.n) (hd : 0 < s.d) (hb : 1 ≤ s.b) (hheads : 1 ≤ s.hq) :
    (resolveTilesCached gpu c s t).1 = resolveTiles (gpu.deviceAt c s t) c s := by
  unfold resolveTilesCached resolveTiles
  cases hfwd : selectFwdTile s.n s.d with
  | error e => rfl
  | ok tile =>
    cases hbwd : selectBwdTiles s.n s.d with
    | error e => rfl
    | ok tiles =>
      obtain ⟨dqTile, dkvTile⟩ := tiles
      obtain ⟨-, htile⟩ := selectFwdTile_ok hfwd
      obtain ⟨hdqTile, hdkvTile⟩ := selectBwdTiles_ok hbwd
      dsimp only at hdqTile hdkvTile
      rw [Memo.lift_bind_ok rfl, Memo.lift_bind_ok rfl]
      dsimp only [bind, Except.bind]
      rw [htile, hdqTile, hdkvTile]
      refine rate_bind rfl (calibratedRate_ne_zeroDivision hn (rateArgs_works hd hb hheads)) ?_
      intro rate t₁ hrate
      refine rate_bind ?_ (calibratedRate_ne_zeroDivision hn (rateArgs_works hd hb hheads)) ?_
      · simp only [Gpu.deviceAt, Gpu.rated, hrate]
      intro dqRate t₂ hdq
      refine rate_bind ?_ (calibratedRate_ne_zeroDivision hn (rateArgs_works hd hb hheads)) ?_
      · simp only [Gpu.deviceAt, Gpu.rated, hrate, hdq]
      intro dkvRate t₃ hdkv
      rfl

/-- A call has rows, if it has a shape at all. -/
def HasRows (c : AttentionCall) : Prop := ∀ s, validateShapes c.qShape c.kShape c.vShape = .ok s → 1 ≤ s.n

/-- A call through the caches is that of its device. -/
theorem resolveCallCached_device (hshapes : validateShapes c.qShape c.kShape c.vShape = .ok s) (hn : 1 ≤ s.n)
    (hheads : 1 ≤ s.hq) : (resolveCallCached gpu c t).1 = resolveCall (gpu.deviceAt c s t) c := by
  have hchecks : resolveAttentionImpl (gpu.rated (.ok 0) (.ok 0) (.ok 0)) c = resolveAttentionImpl (gpu.deviceAt c s t) c := rfl
  unfold resolveCallCached resolveCall
  rw [hchecks]
  cases hresolved : resolveAttentionImpl (gpu.deviceAt c s t) c with
  | error e => rfl
  | ok resolved =>
    obtain ⟨s', resolved⟩ := resolved
    obtain ⟨haccepted, hkernel⟩ := resolveAttentionImpl_ok hresolved
    obtain rfl : s' = s := Except.ok.inj (haccepted.shapes.symm.trans hshapes)
    rw [Memo.lift_bind_ok rfl]
    cases resolved with
    | reference => rfl
    | kernel =>
      have hd := kernelHeadDims_pos s'.d (hkernel rfl).1
      have htiles := @resolveTilesCached_device gpu c s' t hn hd (validateShapes_ok hshapes).1 hheads
      dsimp only [bind, Except.bind]
      rw [← htiles]
      rcases h : resolveTilesCached gpu c s' t with ⟨e | res, t'⟩
      · exact congrArg Prod.fst (Memo.bind_error h)
      · exact congrArg Prod.fst (Memo.bind_ok h)

/-- The rates of the device are positive, whatever was measured before. -/
theorem deviceAt_calibrates (hsound : SoundRates gpu t) (hn : 1 ≤ s.n) (hd : 0 < s.d) (hb : 1 ≤ s.b) (hheads : 1 ≤ s.hq) :
    (gpu.deviceAt c s t).Calibrates := by
  have hpos : ∀ {kernel t rate}, SoundRates gpu t →
      rateText (calibratedRate gpu (rateArgs kernel c s (shippedTile s.d)) t).1 = .ok rate → 0 < rate := by
    intro kernel t rate hsound h
    exact calibratedRate_pos hsound hn (rateArgs_works hd hb hheads) (Prod.ext (rateText_eq_ok h) rfl)
  have hkept : ∀ {kernel t}, SoundRates gpu t →
      SoundRates gpu (calibratedRate gpu (rateArgs kernel c s (shippedTile s.d)) t).2 := fun hsound => hsound.fetch hn
  constructor
  · intro _ _ _ _ rate h
    exact hpos hsound h
  · intro _ _ _ _ rate h
    exact hpos (hkept hsound) h
  · intro _ _ _ _ rate h
    exact hpos (hkept (hkept hsound)) h

/-! ## What a resolved call leaves -/

/-- The rate that sizes the launch of a kernel. -/
def Resolved.rateOf (res : Resolved) : RatedKernel → Option ℚ
  | .fwd => res.rate
  | .bwdDq => res.dqRate
  | .bwdDkv => res.dkvRate

def Resolved.tileOf (res : Resolved) : RatedKernel → TileShape
  | .fwd => res.tile
  | .bwdDq => res.dqTile
  | .bwdDkv => res.dkvTile

/-- The rates of a resolved call are held from then on, each at the key of its own kernel. -/
theorem resolveTilesCached_held {tiles : Resolved} (h : resolveTilesCached gpu c s t = (.ok tiles, t')) (kernel : RatedKernel) :
    ∃ rate, tiles.rateOf kernel = some rate ∧ tiles.tileOf kernel = shippedTile s.d ∧
      t'.entries.lookup (rateArgs kernel c s (shippedTile s.d)).key = some rate := by
  obtain ⟨tile, hfwd, h₁⟩ := Memo.lift_bind_eq_ok h
  obtain ⟨⟨dqTile, dkvTile⟩, hbwd, h₂⟩ := Memo.lift_bind_eq_ok h₁
  obtain ⟨rate, t₁, hrate, h₃⟩ := Memo.adapt_bind_eq_ok h₂
  obtain ⟨dqRate, t₂, hdq, h₄⟩ := Memo.adapt_bind_eq_ok h₃
  obtain ⟨dkvRate, t₃, hdkv, h₅⟩ := Memo.adapt_bind_eq_ok h₄
  obtain ⟨htiles, rfl⟩ := Prod.mk.inj h₅
  obtain rfl := Except.ok.inj htiles
  obtain ⟨-, htile⟩ := selectFwdTile_ok hfwd
  obtain ⟨hdqTile, hdkvTile⟩ := selectBwdTiles_ok hbwd
  dsimp only at hdqTile hdkvTile
  rw [htile] at hrate
  rw [hdqTile] at hdq
  rw [hdkvTile] at hdkv
  have hlater : ∀ {a : RateArgs} {t t' : RateTable} {r : ℚ}, calibratedRate gpu a t = (.ok r, t') → Memo.Extends t t' := by
    intro a t t' r h
    have hext := Memo.fetch_extends RateArgs.key (measureRate gpu) a t
    rwa [show Memo.fetch RateArgs.key (measureRate gpu) a t = (.ok r, t') from h] at hext
  cases kernel with
  | fwd =>
    have hheld := Memo.fetch_held hrate
    exact ⟨rate, rfl, htile, (hlater hdkv).kept _ _ ((hlater hdq).kept _ _ hheld)⟩
  | bwdDq =>
    have hheld := Memo.fetch_held hdq
    exact ⟨dqRate, rfl, hdqTile, (hlater hdkv).kept _ _ hheld⟩
  | bwdDkv => exact ⟨dkvRate, rfl, hdkvTile, Memo.fetch_held hdkv⟩

/-- So are those of a call that resolves to the kernel. -/
theorem resolveCallCached_held {tiles : Resolved} (h : resolveCallCached gpu c t = (.ok (s, some tiles), t'))
    (kernel : RatedKernel) : ∃ rate, tiles.rateOf kernel = some rate ∧ tiles.tileOf kernel = shippedTile s.d ∧
      t'.entries.lookup (rateArgs kernel c s (shippedTile s.d)).key = some rate := by
  obtain ⟨⟨s', resolved⟩, -, h₁⟩ := Memo.lift_bind_eq_ok h
  cases resolved with
  | reference => cases (Prod.mk.inj (Except.ok.inj (Prod.mk.inj h₁).1)).2
  | kernel =>
    obtain ⟨res, t₁, hres, h₂⟩ := Memo.bind_eq_ok h₁
    obtain ⟨hpair, rfl⟩ := Prod.mk.inj h₂
    obtain ⟨rfl, hsome⟩ := Prod.mk.inj (Except.ok.inj hpair)
    obtain rfl := Option.some.inj hsome
    exact resolveTilesCached_held hres kernel

/-! ## Every call keeps the caches -/

abbrev RateClient {ε α : Type} (gpu : Gpu) (good : RateArgs → Prop) (p : RateProg ε α) : Prop :=
  Memo.Client RateArgs.key (measureRate gpu) good p

section Client
variable {good : RateArgs → Prop}

theorem resolveTilesCached_client (hgood : ∀ kernel tile, good (rateArgs kernel c s tile)) :
    RateClient gpu good (resolveTilesCached gpu c s) := by
  have hrate : ∀ {kernel tile}, RateClient gpu good (calibratedRate gpu (rateArgs kernel c s tile)) :=
    .fetch (hgood _ _)
  unfold resolveTilesCached
  refine .lift_bind fun tile _ => .lift_bind ?_
  rintro ⟨dqTile, dkvTile⟩ -
  exact .bind (hrate.adapt _) fun _ => .bind (hrate.adapt _) fun _ => .bind (hrate.adapt _) fun _ => .pure _

variable (hgood : ∀ s, validateShapes c.qShape c.kShape c.vShape = .ok s → ∀ kernel tile, good (rateArgs kernel c s tile))
include hgood

theorem resolveCallCached_client : RateClient gpu good (resolveCallCached gpu c) := by
  unfold resolveCallCached
  refine .lift_bind ?_
  rintro ⟨s, resolved⟩ hresolved
  cases resolved with
  | reference => exact .pure _
  | kernel =>
    exact .bind (resolveTilesCached_client (hgood s (resolveAttentionImpl_ok hresolved).1.shapes)) fun _ => .pure _

theorem flashPassCached_client (mem : Memory) (dO : Tensor ℝ) : RateClient gpu good (flashPassCached gpu mem c dO) :=
  .bind (resolveCallCached_client hgood) fun _ => .lift _

theorem flashAttentionCached_client (mem : Memory) : RateClient gpu good (flashAttentionCached gpu mem c) :=
  .bind (resolveCallCached_client hgood) fun _ => .lift _

end Client

theorem HasRows.good (h : HasRows c) : ∀ s, validateShapes c.qShape c.kShape c.vShape = .ok s →
    ∀ kernel tile, 1 ≤ (rateArgs kernel c s tile).n := fun s hs _ _ => h s hs

/-- The keys a kernel call of this shape looks up. -/
def callKey (c : AttentionCall) (s : Shape) (kernel : RatedKernel) : RateKey := (rateArgs kernel c s (shippedTile s.d)).key

theorem resolveTilesCached_quiet {keys : RateKey → Prop} (hkeys : ∀ kernel, keys (callKey c s kernel)) :
    Memo.Quiet keys (resolveTilesCached gpu c s) := by
  have hrate : ∀ {kernel tile}, tile = shippedTile s.d → Memo.Quiet keys (calibratedRate gpu (rateArgs kernel c s tile)) := by
    rintro kernel tile rfl
    exact Memo.Quiet.fetch (hkeys kernel)
  unfold resolveTilesCached
  refine .lift_bind fun tile hfwd => .lift_bind ?_
  rintro ⟨dqTile, dkvTile⟩ hbwd
  obtain ⟨hdqTile, hdkvTile⟩ := selectBwdTiles_ok hbwd
  refine .bind (Memo.Quiet.adapt _ (hrate (selectFwdTile_ok hfwd).2)) fun _ => ?_
  refine .bind (Memo.Quiet.adapt _ (hrate hdqTile)) fun _ => ?_
  exact .bind (Memo.Quiet.adapt _ (hrate hdkvTile)) fun _ => .pure _

/-- A call whose keys are held calibrates nothing, whether it returns or not. -/
theorem flashAttentionCached_quiet {keys : RateKey → Prop}
    (hkeys : ∀ s, validateShapes c.qShape c.kShape c.vShape = .ok s → ∀ kernel, keys (callKey c s kernel)) (mem : Memory) :
    Memo.Quiet keys (flashAttentionCached gpu mem c) := by
  refine .bind ?_ fun _ => .lift _
  unfold resolveCallCached
  refine .lift_bind ?_
  rintro ⟨s, resolved⟩ hresolved
  cases resolved with
  | reference => exact .pure _
  | kernel =>
    exact .bind (resolveTilesCached_quiet (hkeys s (resolveAttentionImpl_ok hresolved).1.shapes)) fun _ => .pure _

/-- A kernel call that returns leaves its keys held. -/
theorem flashAttentionCached_held {mem : Memory} {o : Tensor XReal} (hkernel : c.impl = .auto ∨ c.impl = .kernel)
    (h : flashAttentionCached gpu mem c t = (.ok o, t')) : ∃ s, validateShapes c.qShape c.kShape c.vShape = .ok s ∧
      ∀ kernel, ∃ rate, t'.entries.lookup (callKey c s kernel) = some rate := by
  obtain ⟨⟨s, res⟩, t₁, hcall, hcore⟩ := Memo.bind_eq_ok h
  obtain rfl : t₁ = t' := (Prod.mk.inj hcore).2
  obtain ⟨⟨s', resolved⟩, hresolved, h₁⟩ := Memo.lift_bind_eq_ok hcall
  have hshapes := (resolveAttentionImpl_ok hresolved).1.shapes
  cases resolved with
  | reference =>
    -- only `impl='reference'` resolves to the reference
    obtain ⟨s₂, -, hresolved⟩ := Budget.bind_eq_ok.1 hresolved
    split at hresolved
    · cases hresolved
    · rcases hkernel with himpl | himpl <;>
      · rw [himpl] at hresolved
        dsimp only at hresolved
        cases hrequire : requireKernel (gpu.rated (.ok 0) (.ok 0) (.ok 0)) c s₂ with
        | error e =>
          rw [hrequire] at hresolved
          cases hresolved
        | ok u =>
          rw [hrequire] at hresolved
          cases hresolved
  | kernel =>
    obtain ⟨tiles, t₂, htiles, h₂⟩ := Memo.bind_eq_ok h₁
    obtain ⟨-, rfl⟩ := Prod.mk.inj h₂
    refine ⟨s', hshapes, fun kernel => ?_⟩
    obtain ⟨rate, -, -, hheld⟩ := resolveTilesCached_held htiles kernel
    exact ⟨rate, hheld⟩

end Device

/-! ## Runs of calls -/

/-- A call of a run: what its fresh buffers hold, and its cotangent. -/
structure AttentionStep where
  call : AttentionCall
  mem : Memory
  dO : Tensor ℝ

/-- The caches after a run of calls from the start of the process, whatever each gave. -/
noncomputable def ratesAfter (gpu : Gpu) (steps : List AttentionStep) : RateTable :=
  Memo.after .empty (steps.map fun step => flashPassCached gpu step.mem step.call step.dO)

section Run
variable {gpu : Gpu} {steps : List AttentionStep}

theorem ratesAfter_sound (hsteps : ∀ step ∈ steps, HasRows step.call) : SoundRates gpu (ratesAfter gpu steps) := by
  refine (Memo.after_fetched ?_ .empty).sound Memo.Sound.empty
  intro p hp
  obtain ⟨step, hstep, rfl⟩ := List.mem_map.1 hp
  exact flashPassCached_client (hsteps step hstep).good step.mem step.dO

theorem steps_fetched (gpu : Gpu) (steps : List AttentionStep) (t : RateTable) :
    Memo.Fetched RateArgs.key (measureRate gpu) (fun _ => True) t
      (Memo.after t (steps.map fun step => flashPassCached gpu step.mem step.call step.dO)) := by
  refine Memo.after_fetched ?_ t
  intro p hp
  obtain ⟨step, -, rfl⟩ := List.mem_map.1 hp
  exact flashPassCached_client (fun _ _ _ _ => trivial) step.mem step.dO

/-- No call takes anything out of the caches. -/
theorem steps_extend (gpu : Gpu) (steps : List AttentionStep) (t : RateTable) :
    Memo.Extends t (Memo.after t (steps.map fun step => flashPassCached gpu step.mem step.call step.dO)) :=
  (steps_fetched gpu steps t).extends

end Run

/-- After any calls, whatever they were, what they measured and however they ended, a call is refused by a check or a
calibration, refused for a launch budget, or returns what the reference returns on the same arrays. -/
theorem flash_attention_run_agrees (gpu : Gpu) (steps : List AttentionStep) (hsteps : ∀ step ∈ steps, HasRows step.call)
    (c : AttentionCall) (dO : Tensor ℝ) (s : Shape) (hshapes : validateShapes c.qShape c.kShape c.vShape = .ok s)
    (hrows : 1 ≤ s.n) (hheads : 1 ≤ s.hq) (hlaid : LaidOut s c.segments) (dev' : AttentionDevice) (mem mem' : Memory) :
    (∃ e, (resolveCallCached gpu c (ratesAfter gpu steps)).1 = .error e ∧
      (flashPassCached gpu mem c dO (ratesAfter gpu steps)).1 = .error e) ∨
    (∃ e, (flashPassCached gpu mem c dO (ratesAfter gpu steps)).1 = .error (.kernel (.plan (.budget e)))) ∨
    ∃ r ref, (flashPassCached gpu mem c dO (ratesAfter gpu steps)).1 = .ok r ∧
      flashPass dev' mem' c.onReference dO = .ok ref ∧
      entries s s.hq r.o = entries s s.hq ref.o ∧ gradEntries s r.grads = gradEntries s ref.grads := by
  have hsound := @ratesAfter_sound gpu steps hsteps
  generalize ratesAfter gpu steps = t at hsound
  have hdevice := @resolveCallCached_device gpu c s t hshapes hrows hheads
  rcases hcall : resolveCallCached gpu c t with ⟨e | resolved, t'⟩
  · exact Or.inl ⟨e, rfl, congrArg Prod.fst (Memo.bind_error hcall)⟩
  · obtain ⟨s', res⟩ := resolved
    rw [hcall] at hdevice
    obtain ⟨haccepted, hres⟩ := resolveCall_accepted hdevice.symm
    obtain rfl : s' = s := Except.ok.inj (haccepted.shapes.symm.trans hshapes)
    have hpass : (flashPassCached gpu mem c dO t).1 = corePass c dO mem s' res := congrArg Prod.fst (Memo.bind_ok hcall)
    right
    rw [hpass]
    refine corePass_agrees haccepted hheads hlaid ?_
    rintro tiles rfl
    obtain hnone | ⟨hd, hcausal, tiles', htiles, hsome⟩ := hres
    · cases hnone
    · obtain rfl := Option.some.inj hsome
      have hcalibrates : (gpu.deviceAt c s' t).Calibrates :=
        deviceAt_calibrates hsound hrows (kernelHeadDims_pos s'.d hd) (validateShapes_ok hshapes).1 hheads
      exact ⟨hd, hcausal, resolveTiles_ok hcalibrates htiles⟩

/-- After any calls, each rate that sizes a launch is half of what a safe calibration measured: on the kernel that is
launched, with its tile, mask, head dim, dtype, batch and heads, and at a length within a factor of two of the call's
or, like it, of at most 512. -/
theorem flash_attention_rates_measured (gpu : Gpu) (steps : List AttentionStep)
    (hsteps : ∀ step ∈ steps, HasRows step.call) (c : AttentionCall) (s : Shape) (tiles : Resolved) (hrows : HasRows c)
    (hcall : (resolveCallCached gpu c (ratesAfter gpu steps)).1 = .ok (s, some tiles)) (kernel : RatedKernel) :
    ∃ rate before a rawRate, tiles.rateOf kernel = some rate ∧ rate = derated rawRate ∧
      before ++ [a] <+: (resolveCallCached gpu c (ratesAfter gpu steps)).2.begun ∧
      (a.calibration (gpu.clock before a)).rate = some rawRate ∧
      RampSafe (gpu.clock before a) a.macsPerRow a.n a.causal Launch.canarySlack 3 (a.calibration (gpu.clock before a)) ∧
      a.key = (rateArgs kernel c s (tiles.tileOf kernel)).key ∧ (512 < s.n → s.n < 2 * a.n ∧ a.n < 2 * s.n) := by
  have hsound := @ratesAfter_sound gpu steps hsteps
  have hsound' := (resolveCallCached_client hrows.good _).sound hsound
  obtain ⟨rate, hrate, htile, hheld⟩ := resolveCallCached_held (Prod.ext hcall rfl) kernel
  obtain ⟨before, a, hfrom⟩ := SoundRates.held hsound' hheld
  obtain ⟨rawRate, hraw, heq⟩ := measureRate_ok hfrom.measured
  refine ⟨rate, before, a, rawRate, hrate, heq, hfrom.begun, hraw, calibration_safe _ hfrom.rows, ?_, ?_⟩
  · rw [hfrom.key, htile]
  · intro hlong
    have hbucket : nBucket s.n = nBucket a.n := (congrArg RateKey.nBucket hfrom.key).symm
    exact nBucket_near hbucket hlong

theorem thousandth_le_one : (1 / 1000 : ℚ) ≤ 1 := by norm_num

/-- A millisecond. -/
def steadySeconds : Seconds := ⟨1 / 1000, Launch.lt_of_le_one thousandth_le_one⟩

/-- A machine with Metal where every probe takes a millisecond, and no calibration raises. -/
def steadyGpu : Gpu := ⟨true, "0.32.0", fun _ _ _ => steadySeconds, fun _ _ => none⟩

/-- What `autoCall` is resolved to there. -/
def steadyResolved : Resolved := ⟨⟨.mma, none⟩, some 384000, ⟨.mma, none⟩, some 576000, ⟨.mma, none⟩, some 768000⟩

/-- What `autoCall` passes to the rate function of a kernel. -/
def steadyArgs (kernel : RatedKernel) : RateArgs := ⟨kernel, 64, .float32, 1, 2, 1, 2, true, ⟨.mma, none⟩, false⟩

/-- The table it leaves. -/
def steadyTable : RateTable where
  entries := [((steadyArgs .bwdDkv).key, 768000), ((steadyArgs .bwdDq).key, 576000), ((steadyArgs .fwd).key, 384000)]
  begun := [steadyArgs .fwd, steadyArgs .bwdDq, steadyArgs .bwdDkv]

theorem steady_rate (before : List RateArgs) : measureRate steadyGpu before (steadyArgs .fwd) = .ok 384000 ∧
    measureRate steadyGpu before (steadyArgs .bwdDq) = .ok 576000 ∧
    measureRate steadyGpu before (steadyArgs .bwdDkv) = .ok 768000 := by
  have h : ∀ kernel, measureRate steadyGpu before (steadyArgs kernel) = measureRate steadyGpu [] (steadyArgs kernel) :=
    fun _ => rfl
  simp only [h]
  decide +kernel

/-- The first call calibrates its three kernels. -/
theorem steady_first : resolveCallCached steadyGpu autoCall .empty = (.ok (twoHeads, some steadyResolved), steadyTable) := by
  have hfwd := @Memo.fetch_miss_ok _ _ _ _ _ RateArgs.key (measureRate steadyGpu) .empty (steadyArgs .fwd) _ rfl
    (steady_rate _).1
  have hdq := @Memo.fetch_miss_ok _ _ _ _ _ RateArgs.key (measureRate steadyGpu)
    ⟨[((steadyArgs .fwd).key, 384000)], [steadyArgs .fwd]⟩ (steadyArgs .bwdDq) _ rfl (steady_rate _).2.1
  have hdkv := @Memo.fetch_miss_ok _ _ _ _ _ RateArgs.key (measureRate steadyGpu)
    ⟨[((steadyArgs .bwdDq).key, 576000), ((steadyArgs .fwd).key, 384000)], [steadyArgs .fwd, steadyArgs .bwdDq]⟩
    (steadyArgs .bwdDkv) _ rfl (steady_rate _).2.2
  have htiles : resolveTilesCached steadyGpu autoCall twoHeads .empty = (.ok steadyResolved, steadyTable) := by
    refine (Memo.bind_ok (Memo.adapt_ok _ hfwd)).trans ?_
    refine (Memo.bind_ok (Memo.adapt_ok _ hdq)).trans ?_
    exact Memo.bind_ok (Memo.adapt_ok _ hdkv)
  exact Memo.bind_ok htiles

/-- The next one finds them. -/
theorem steady_next : resolveCallCached steadyGpu autoCall steadyTable = (.ok (twoHeads, some steadyResolved), steadyTable) := rfl

theorem autoCall_hasRows : HasRows autoCall := by
  intro s h
  obtain rfl : twoHeads = s := Except.ok.inj h
  decide

/-- A first call of `autoCall`. -/
noncomputable def steadySteps : List AttentionStep := [⟨autoCall, nanMemory, fun _ _ _ _ => 1⟩]

theorem steadySteps_hasRows : ∀ step ∈ steadySteps, HasRows step.call := by
  intro step hstep
  obtain rfl := List.mem_singleton.1 hstep
  exact autoCall_hasRows

theorem ratesAfter_steadySteps : ratesAfter steadyGpu steadySteps = steadyTable := by
  show (flashPassCached steadyGpu nanMemory autoCall _ .empty).2 = steadyTable
  exact congrArg Prod.snd (Memo.bind_ok steady_first)

theorem steady_pass (dO : Tensor ℝ) : ∃ r, (flashPassCached steadyGpu nanMemory autoCall dO steadyTable).1 = .ok r := by
  obtain ⟨r, hr⟩ := @twoHeads_pass 384000 576000 768000 autoCall.q autoCall.k autoCall.v dO 1 nanMemory
    (by decide +kernel) (by decide +kernel) (by decide +kernel)
  refine ⟨r, (congrArg Prod.fst (Memo.bind_ok steady_next)).trans ?_⟩
  exact congrArg (Except.mapError AttentionError.kernel) hr

/-- A second call, sized by what the first measured. -/
theorem flash_attention_run_agrees_steady : ∃ r ref,
    (flashPassCached steadyGpu nanMemory autoCall (fun _ _ _ _ => 1) (ratesAfter steadyGpu steadySteps)).1 = .ok r ∧
    flashPass fastMetal nanMemory autoCall.onReference (fun _ _ _ _ => 1) = .ok ref ∧
    entries twoHeads 2 r.o = entries twoHeads 2 ref.o ∧ gradEntries twoHeads r.grads = gradEntries twoHeads ref.grads := by
  obtain ⟨r, hr⟩ := steady_pass fun _ _ _ _ => 1
  have hagrees := flash_attention_run_agrees steadyGpu steadySteps steadySteps_hasRows autoCall (fun _ _ _ _ => 1) twoHeads rfl
    (by decide) (by decide) (fun _ h => nomatch h) fastMetal nanMemory nanMemory
  rw [ratesAfter_steadySteps] at hagrees ⊢
  obtain ⟨e, -, he⟩ | ⟨e, he⟩ | hsame := hagrees
  · cases hr.symm.trans he
  · cases hr.symm.trans he
  · exact hsame

/-- The forward rate of the second call is the first call's. -/
theorem flash_attention_rates_measured_steady : ∃ before a rawRate, 384000 = derated rawRate ∧
    before ++ [a] <+: steadyTable.begun ∧ (a.calibration (steadyGpu.clock before a)).rate = some rawRate ∧
    a.key = (steadyArgs .fwd).key := by
  have hcall : resolveCallCached steadyGpu autoCall (ratesAfter steadyGpu steadySteps) =
      (.ok (twoHeads, some steadyResolved), steadyTable) := by
    rw [ratesAfter_steadySteps]
    exact steady_next
  obtain ⟨rate, before, a, rawRate, hrate, heq, hbegun, hraw, -, hkey, -⟩ := flash_attention_rates_measured steadyGpu steadySteps
    steadySteps_hasRows autoCall twoHeads steadyResolved autoCall_hasRows (congrArg Prod.fst hcall) .fwd
  rw [hcall] at hbegun
  obtain rfl := Option.some.inj hrate
  exact ⟨before, a, rawRate, heq, hbegun, hraw, hkey⟩

/-- A calibration that gave a rate is not run again at its key, whatever is called after it. -/
theorem flash_attention_calibrates_once (gpu : Gpu) (steps : List AttentionStep) (before : List RateArgs) (a : RateArgs)
    (rest : List RateArgs) (hbegun : (ratesAfter gpu steps).begun = before ++ a :: rest) (rate : ℚ)
    (hrate : measureRate gpu before a = .ok rate) : ∀ b ∈ rest, b.key ≠ a.key :=
  ((steps_fetched gpu steps .empty).once Memo.Once.empty).last before a rest rate hbegun hrate

/-- The kernels of `autoCall`, calibrated one after another. -/
theorem flash_attention_calibrates_once_steady : measureRate steadyGpu [] (steadyArgs .fwd) = .ok 384000 ∧
    ∀ b ∈ [steadyArgs .bwdDq, steadyArgs .bwdDkv], b.key ≠ (steadyArgs .fwd).key := by
  have hrate : measureRate steadyGpu [] (steadyArgs .fwd) = .ok 384000 := (steady_rate []).1
  refine ⟨hrate, flash_attention_calibrates_once steadyGpu steadySteps [] (steadyArgs .fwd) _ ?_ 384000 hrate⟩
  rw [ratesAfter_steadySteps]
  rfl

end MlxTrainPerf.Attention
