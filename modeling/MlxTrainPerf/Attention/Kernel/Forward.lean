import MlxTrainPerf.Attention.Reference
import MlxTrainPerf.Attention.Kernel.Source
/-!
# The forward MMA kernel's arithmetic

`_FWD_MMA_TEMPLATE` over exact reals, lane by lane: what a simdgroup holds in its
registers after each key block, and what it stores. The lanes run in lockstep.
The launcher's outputs are the rows of its dispatches, one after another.
-/
open Loops Simdgroup XReal

namespace MlxTrainPerf.Attention.Kernel

/-! ## `build_fwd_mma_source` -/

/-- `_KERNEL_HEAD_DIMS`. -/
def kernelHeadDims : List ℕ := [64, 96, 128]

/-- `_FWD_MMA_D_SLAB`. -/
def fwdMmaDSlab : ℤ := 32

/-- A generated forward body. -/
structure FwdSource where
  headDim : ℕ
  dSlab : ℕ
  flags : Flags
  headDim_pos : 0 < headDim
  dSlab_pos : 0 < dSlab
  eight_dvd : 8 ∣ dSlab
  dSlab_dvd : dSlab ∣ headDim
  flags_valid : validatePredicateFlags flags = .ok ()

def headDimMsg (headDim : ℕ) : String := s!"head_dim must be one of (64, 96, 128), got {headDim}"

def dSlabMsg (headDim : ℕ) (slab : ℤ) : String :=
  s!"d_slab must be a positive multiple of 8 dividing head_dim={headDim}, got {slab}"

theorem kernelHeadDims_pos : ∀ d ∈ kernelHeadDims, 0 < d := by decide

def buildFwdMmaSource (headDim : ℕ) (flags : Flags) (dSlab : Option ℤ) : Except ValueError FwdSource :=
  if hd : headDim ∈ kernelHeadDims then
    match hflags : validatePredicateFlags flags with
    | .error e => .error e
    | .ok () =>
      let slab := dSlab.getD fwdMmaDSlab
      if h : 0 < slab ∧ (8 : ℤ) ∣ slab ∧ slab ∣ (headDim : ℤ) then
        .ok {
          headDim, flags
          dSlab := slab.toNat
          headDim_pos := kernelHeadDims_pos headDim hd
          dSlab_pos := by omega
          eight_dvd := by omega
          dSlab_dvd := by
            obtain ⟨hpos, -, hdvd⟩ := h
            rwa [← Int.natCast_dvd_natCast, Int.toNat_of_nonneg hpos.le]
          flags_valid := hflags }
      else .error ⟨dSlabMsg headDim slab⟩
  else .error ⟨headDimMsg headDim⟩

/-- The builder generates what it was asked for, and refuses every other slab. -/
theorem buildFwdMmaSource_ok {headDim : ℕ} {flags : Flags} {dSlab : Option ℤ} {src : FwdSource}
    (h : buildFwdMmaSource headDim flags dSlab = .ok src) :
    src.headDim = headDim ∧ src.flags = flags ∧ (src.dSlab : ℤ) = dSlab.getD fwdMmaDSlab := by
  unfold buildFwdMmaSource at h
  split at h
  · split at h
    · cases h
    · dsimp only at h
      split at h
      · next hslab =>
        obtain rfl := Except.ok.inj h
        exact ⟨rfl, rfl, Int.toNat_of_nonneg hslab.1.le⟩
      · cases h
  · cases h

/-! ## The body -/

/-- The buffers of a launch. `headDim` is `q.shape[-1]`. -/
structure FwdArgs where
  s : Launch.Shape
  q : Tensor ℝ
  k : Tensor ℝ
  v : Tensor ℝ
  scale : ℝ
  segId : ℕ → ℕ → ℤ
  segStart : ℕ → ℕ → ℤ

/-- The registers a slab pass carries over the key blocks: `m` and `l` by lane
and row tile, `C_o` by row tile and column tile. -/
structure Regs where
  m : ℕ → ℕ → XReal
  l : ℕ → ℕ → XReal
  cO : ℕ → ℕ → Frag

namespace Fwd
noncomputable section

variable (src : FwdSource) (x : FwdArgs) (b h rowBase slab0 kb0 : ℕ)

/-- `A[rt]`: the query rows, clamped. -/
def qFrag (d0 rt : ℕ) : Frag :=
  fun lane e => real (x.q b h (min (rowBase + fm lane + 8 * rt) (x.s.n - 1)) (d0 + fn lane + e))

/-- A key's row, clamped at the block's last. -/
def clampKey (kk : ℕ) : ℕ := min kk (min (kb0 + 32) x.s.n - 1)

/-- `B[ct]`: the block's keys, transposed. -/
def kFrag (d0 ct : ℕ) : Frag :=
  fun lane e => real (kvGather x.s x.k b h (clampKey x kb0 (kb0 + 8 * ct + fn lane + e)) (d0 + fm lane))

/-- `Vt`: the block's values, in the slab's columns. -/
def vFrag (ct dt : ℕ) : Frag :=
  fun lane e => real (kvGather x.s x.v b h (clampKey x kb0 (kb0 + 8 * ct + fm lane)) (slab0 + 8 * dt + fn lane + e))

/-- GEMM-A and the scale: `C[rt][ct]`. -/
def scoreTile (rt ct : ℕ) : Frag :=
  let c := (steps 8 0 src.headDim).foldl
    (fun c d0 => multiplyAccumulate (qFrag x b h rowBase d0 rt) (kFrag x b h kb0 d0 ct) c) (filled 0)
  fun lane e => c lane e * real x.scale

/-- `(kk < kb1) && (KEEP_CMP)`, at a lane's element. -/
def keepAt (rt ct lane e : ℕ) : Bool :=
  keepInBlock src.flags (x.segId b) x.s.n kb0 (rowBase + 8 * rt + fm lane) (kb0 + 8 * ct + fn lane + e)

/-- `bm`, over a lane's own elements. -/
def laneMax (rt lane : ℕ) : XReal :=
  (List.range 4).foldl (fun bm ct =>
    let c := scoreTile src x b h rowBase kb0 rt ct lane
    let bm := if keepAt src x b rowBase kb0 rt ct lane 0 then bm.max (c 0) else bm
    if keepAt src x b rowBase kb0 rt ct lane 1 then bm.max (c 1) else bm) negInf

variable (regs : Regs)

def mNew (lane rt : ℕ) : XReal := (regs.m lane rt).max (reduceRow XReal.max (laneMax src x b h rowBase kb0 rt) lane)

/-- The rescale. The packed body keeps it at 1 while `m_new` is `-inf`. -/
def alpha (lane rt : ℕ) : XReal :=
  let mNew := mNew src x b h rowBase kb0 regs lane rt
  if src.flags.packed && mNew.isNegInf then real 1 else (regs.m lane rt - mNew).exp

/-- `P`, formed in place of the scores: masked to 0. -/
def pTile (rt ct : ℕ) : Frag := fun lane e =>
  if keepAt src x b rowBase kb0 rt ct lane e then
    (scoreTile src x b h rowBase kb0 rt ct lane e - mNew src x b h rowBase kb0 regs lane rt).exp
  else 0

/-- `bs`, over a lane's own elements. -/
def laneSum (rt lane : ℕ) : XReal :=
  (List.range 4).foldl (fun bs ct =>
    let p := pTile src x b h rowBase kb0 regs rt ct lane
    bs + (p 0 + p 1)) 0

/-- One key block. -/
def step : Regs where
  m := mNew src x b h rowBase kb0 regs
  l := fun lane rt => regs.l lane rt * alpha src x b h rowBase kb0 regs lane rt +
    reduceRow (· + ·) (laneSum src x b h rowBase kb0 regs rt) lane
  -- GEMM-B, on the rescaled tiles.
  cO := fun rt dt => (List.range 4).foldl
    (fun c ct => multiplyAccumulate (pTile src x b h rowBase kb0 regs rt ct) (vFrag x b h slab0 kb0 ct dt) c)
    fun lane e => regs.cO rt dt lane e * alpha src x b h rowBase kb0 regs lane rt

def init : Regs := ⟨fun _ _ => negInf, fun _ _ => 0, fun _ _ => filled 0⟩

/-- One slab pass of a query block. -/
def slabPass : Regs :=
  (kvBlocks src.flags (x.segStart b) x.s.n rowBase).foldl (fun regs kb0 => step src x b h rowBase slab0 kb0 regs) init

/-! ## Stores -/

variable (r0 r1 block : ℕ)

/-- The stores of `o_out`, at (local row, column). -/
def oStores : List ((ℕ × ℕ) × XReal) :=
  (steps src.dSlab 0 src.headDim).flatMap fun slab0 =>
    let regs := slabPass src x b h (r0 + block * 32) slab0
    (List.range 4).flatMap fun rt => (List.range 32).flatMap fun lane =>
      let localRow := block * 32 + 8 * rt + fm lane
      if localRow < r1 - r0 then
        (List.range (src.dSlab / 8)).flatMap fun dt =>
          [((localRow, slab0 + 8 * dt + fn lane), regs.cO rt dt lane 0 * (regs.l lane rt).recip),
            ((localRow, slab0 + 8 * dt + fn lane + 1), regs.cO rt dt lane 1 * (regs.l lane rt).recip)]
      else []

/-- The stores of `l_out`, at the local row. -/
def lStores : List (ℕ × XReal) :=
  (steps src.dSlab 0 src.headDim).flatMap fun slab0 =>
    let regs := slabPass src x b h (r0 + block * 32) slab0
    (List.range 4).flatMap fun rt => (List.range 32).flatMap fun lane =>
      let localRow := block * 32 + 8 * rt + fm lane
      if localRow < r1 - r0 ∧ slab0 = 0 ∧ fn lane = 0 then [(localRow, regs.m lane rt + (regs.l lane rt).log)] else []

/-- `_dispatch_range`, for one (batch, q-head): the buffers of `O` and `L`, over
what their memory held. -/
def dispatchRange (mem : (ℕ × ℕ → XReal) × (ℕ → XReal)) : (ℕ × ℕ → XReal) × (ℕ → XReal) :=
  let blocks := List.range ((r1 - r0 + 31) / 32)
  (storeAll (blocks.flatMap fun block => oStores src x b h r0 r1 block) mem.1,
    storeAll (blocks.flatMap fun block => lStores src x b h r0 r1 block) mem.2)

/-- The rows of `O` and the entries of `L` of one dispatch. -/
def chunk (mem : (ℕ × ℕ → XReal) × (ℕ → XReal)) : List (List XReal) × List XReal :=
  let out := dispatchRange src x b h r0 r1 mem
  ((List.range (r1 - r0)).map fun i => (List.range src.headDim).map fun c => out.1 (i, c),
    (List.range (r1 - r0)).map out.2)

end
end Fwd

/-- `launch_flash_fwd` over `ranges`, for one (batch, q-head): the chunks concatenated. -/
noncomputable def launchFlashFwd (src : FwdSource) (x : FwdArgs) (b h : ℕ) (ranges : List (ℕ × ℕ))
    (mem : ℕ × ℕ → (ℕ × ℕ → XReal) × (ℕ → XReal)) : List (List XReal) × List XReal :=
  let chunks := ranges.map fun r => Fwd.chunk src x b h r.1 r.2 (mem r)
  (chunks.flatMap Prod.fst, chunks.flatMap Prod.snd)

end MlxTrainPerf.Attention.Kernel
