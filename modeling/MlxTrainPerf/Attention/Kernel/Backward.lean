import MlxTrainPerf.Lib.Gemm
import MlxTrainPerf.Attention.Kernel.Forward
/-!
# The backward MMA kernels' arithmetic

`_BWD_DQ_MMA_TEMPLATE` and `_BWD_DKV_MMA_TEMPLATE` over exact reals, lane by
lane. The first owns query blocks and walks key blocks; the second owns key
blocks and walks query blocks, on top of what an earlier dispatch left in
`dk_in` and `dv_in`.
-/
open Loops Simdgroup XReal

namespace MlxTrainPerf.Attention.Kernel

/-! ## Sources -/

/-- `_BWD_DQ_MMA_D_SLAB`. -/
def bwdDqMmaDSlab : ℤ := 32

/-- `_BWD_DKV_MMA_D_SLAB`. -/
def bwdDkvMmaDSlab : ℤ := 32

/-- The forward builder's checks, in its order, on this body's own default slab. -/
def buildBwdDqMmaSource (headDim : ℕ) (flags : Flags) (dSlab : Option ℤ) : Except ValueError FwdSource :=
  buildFwdMmaSource headDim flags (some (dSlab.getD bwdDqMmaDSlab))

def buildBwdDkvMmaSource (headDim : ℕ) (flags : Flags) (dSlab : Option ℤ) : Except ValueError FwdSource :=
  buildFwdMmaSource headDim flags (some (dSlab.getD bwdDkvMmaDSlab))

/-- The buffers of a backward launch: the forward's inputs, `d_o`, and the
residuals `lse` and `d_arr`. -/
structure BwdArgs extends FwdArgs where
  dO : Tensor ℝ
  lse : RowTensor XReal
  dArr : RowTensor XReal

noncomputable section

/-! ## dQ -/

namespace BwdDq

variable (src : FwdSource) (x : BwdArgs) (b h rowBase slab0 kb0 : ℕ)

/-- `qrow`, clamped: the row of `q`, `d_o`, `lse` and `d_arr` a lane reads. -/
def qRow (rt i : ℕ) : ℕ := min (rowBase + i + 8 * rt) (x.s.n - 1)

/-- The key of a block's column, clamped. -/
def keyRow (ct j : ℕ) : ℕ := Fwd.clampKey x.toFwdArgs kb0 (kb0 + (8 * ct + j))

/-- GEMM-A #1: `C_s`, unscaled. -/
def sTile (rt ct : ℕ) : Frag :=
  dotTile src.headDim (x.q b h) (qRow x rowBase rt) (kvGather x.s x.k b h) (keyRow x kb0 ct)

/-- `P`, formed in place of the scores: masked to 0. -/
def pTile (rt ct : ℕ) : Frag := fun lane e =>
  if Fwd.keepAt src x.toFwdArgs b rowBase kb0 rt ct lane e then
    (real x.scale * sTile src x b h rowBase kb0 rt ct lane e - x.lse b h (qRow x rowBase rt (fm lane))).exp
  else 0

/-- GEMM-A #2: `C_dp`. -/
def dpTile (rt ct : ℕ) : Frag :=
  dotTile src.headDim (x.dO b h) (qRow x rowBase rt) (kvGather x.s x.v b h) (keyRow x kb0 ct)

/-- `dS`, formed in place of `P`. -/
def dsTile (rt ct : ℕ) : Frag := fun lane e =>
  real x.scale * pTile src x b h rowBase kb0 rt ct lane e *
    (dpTile src x b h rowBase kb0 rt ct lane e - x.dArr b h (qRow x rowBase rt (fm lane)))

/-- One key block: GEMM-B, by row tile and column tile of `C_dq`. -/
def step (cDq : ℕ → ℕ → Frag) : ℕ → ℕ → Frag := fun rt dt =>
  accTile (dsTile src x b h rowBase kb0 rt) (kvGather x.s x.k b h) (fun j => Fwd.clampKey x.toFwdArgs kb0 (kb0 + j))
    (slab0 + 8 * dt) (cDq rt dt)

/-- One slab pass of a query block. -/
def slabPass : ℕ → ℕ → Frag :=
  (kvBlocks src.flags (x.segStart b) x.s.n rowBase).foldl (fun cDq kb0 => step src x b h rowBase slab0 kb0 cDq)
    fun _ _ => filled 0

/-- `_dispatch_bwd_dq_range`, for one (batch, q-head): the rows of `dq_out`. -/
def dispatchRange (r0 r1 : ℕ) (mem : ℕ × ℕ → XReal) : List (List XReal) :=
  let out := storeAll ((List.range ((r1 - r0 + 31) / 32)).flatMap fun block =>
    blockStores src.headDim src.dSlab (block * 32) (r1 - r0) (slabPass src x b h (r0 + block * 32))) mem
  (List.range (r1 - r0)).map fun i => (List.range src.headDim).map fun c => out (i, c)

end BwdDq

/-- `launch_bwd_dq` over `ranges` with the MMA body: the chunks concatenated. -/
def launchBwdDq (src : FwdSource) (x : BwdArgs) (b h : ℕ) (ranges : List (ℕ × ℕ)) (mem : ℕ × ℕ → ℕ × ℕ → XReal) :
    List (List XReal) :=
  ranges.flatMap fun r => BwdDq.dispatchRange src x b h r.1 r.2 (mem r)

/-! ## dK and dV -/

/-- What a slab pass carries over the query blocks, by key tile and column tile. -/
structure DkvRegs where
  cDv : ℕ → ℕ → Frag
  cDk : ℕ → ℕ → Frag

/-- The buffers of `dk` and `dv` for one (batch, kv head), at (key, column). -/
structure DkvBufs where
  dk : ℕ × ℕ → XReal
  dv : ℕ × ℕ → XReal

/-- `for (uint h = h0; h < h0 + group_size; ++h)`. -/
def groupHeads (s : Launch.Shape) (kvh : ℕ) : List ℕ := List.range' (kvh * groupSize s) (groupSize s)

namespace BwdDkv

variable (src : FwdSource) (x : BwdArgs) (b kvh qHi keyBase slab0 qb0 h : ℕ)

/-- `krow`, clamped. -/
def keyRow (kt i : ℕ) : ℕ := min (keyBase + 8 * kt + i) (x.s.n - 1)

/-- The query of a block's column, clamped. -/
def qRow (qt j : ℕ) : ℕ := min (qb0 + (8 * qt + j)) (x.s.n - 1)

/-- GEMM #1: `C_s`, keys by queries. -/
def sTile (kt qt : ℕ) : Frag := dotTile src.headDim (x.k b kvh) (keyRow x keyBase kt) (x.q b h) (qRow x qb0 qt)

/-- `(i < q_hi) && (KEEP_CMP)`, at a lane's element. -/
def keepAt (kt qt lane e : ℕ) : Bool :=
  keepInRange src.flags (x.segId b) x.s.n qHi (qb0 + 8 * qt + fn lane + e) (keyBase + 8 * kt + fm lane)

/-- `P`, formed in place of the scores; `lse` is the column's. -/
def pTile (kt qt : ℕ) : Frag := fun lane e =>
  if keepAt src x b qHi keyBase qb0 kt qt lane e then
    (real x.scale * sTile src x b kvh keyBase qb0 h kt qt lane e - x.lse b h (qRow x qb0 qt (fn lane + e))).exp
  else 0

/-- GEMM #2: `C_dp`. -/
def dpTile (kt qt : ℕ) : Frag := dotTile src.headDim (x.v b kvh) (keyRow x keyBase kt) (x.dO b h) (qRow x qb0 qt)

/-- `dS`, formed in place of `P`. -/
def dsTile (kt qt : ℕ) : Frag := fun lane e =>
  real x.scale * pTile src x b kvh qHi keyBase qb0 h kt qt lane e *
    (dpTile src x b kvh keyBase qb0 h kt qt lane e - x.dArr b h (qRow x qb0 qt (fn lane + e)))

/-- One query block and q-head: dV takes `P` before dK takes `dS`. -/
def step (regs : DkvRegs) : DkvRegs where
  cDv := fun kt dt => accTile (pTile src x b kvh qHi keyBase qb0 h kt) (x.dO b h)
    (fun i => min (qb0 + i) (x.s.n - 1)) (slab0 + 8 * dt) (regs.cDv kt dt)
  cDk := fun kt dt => accTile (dsTile src x b kvh qHi keyBase qb0 h kt) (x.q b h)
    (fun i => min (qb0 + i) (x.s.n - 1)) (slab0 + 8 * dt) (regs.cDk kt dt)

/-- The query-block loop, with its `break`. -/
def queryLoop : List ℕ → DkvRegs → DkvRegs
  | [], regs => regs
  | qb0 :: blocks, regs =>
    if segBreaks src.flags (x.segId b) x.s.n keyBase qb0 then regs
    else queryLoop blocks
      ((groupHeads x.s kvh).foldl (fun regs h => step src x b kvh qHi keyBase slab0 qb0 h regs) regs)

/-- The incoming partials of the block's keys. -/
def seed (bufs : DkvBufs) : DkvRegs where
  cDv := fun kt dt lane e => bufs.dv (keyRow x keyBase kt (fm lane), slab0 + 8 * dt + fn lane + e)
  cDk := fun kt dt lane e => bufs.dk (keyRow x keyBase kt (fm lane), slab0 + 8 * dt + fn lane + e)

/-- One slab pass of a key block. -/
def slabPass (qLo : ℕ) (bufs : DkvBufs) : DkvRegs :=
  queryLoop src x b kvh qHi keyBase slab0 (steps 32 (qStart src.flags qLo keyBase) qHi) (seed x keyBase slab0 bufs)

/-- `_dispatch_bwd_dkv_range`, for one (batch, kv head): the fresh buffers, over
what their memory held. -/
def dispatchRange (qLo qHi : ℕ) (bufs mem : DkvBufs) : DkvBufs :=
  let blocks := List.range ((x.s.n + 31) / 32)
  { dk := storeAll (blocks.flatMap fun kblock => blockStores src.headDim src.dSlab (kblock * 32) x.s.n
      fun slab0 => (slabPass src x b kvh qHi (kblock * 32) slab0 qLo bufs).cDk) mem.dk
    dv := storeAll (blocks.flatMap fun kblock => blockStores src.headDim src.dSlab (kblock * 32) x.s.n
      fun slab0 => (slabPass src x b kvh qHi (kblock * 32) slab0 qLo bufs).cDv) mem.dv }

end BwdDkv

/-- `mx.zeros`. -/
def zeroBufs : DkvBufs := ⟨fun _ => 0, fun _ => 0⟩

/-- `launch_bwd_dkv` over `ranges` with the MMA body: each dispatch is seeded from the one before. -/
def launchBwdDkv (src : FwdSource) (x : BwdArgs) (b kvh : ℕ) (ranges : List (ℕ × ℕ)) (mem : ℕ × ℕ → DkvBufs) : DkvBufs :=
  ranges.foldl (fun bufs r => BwdDkv.dispatchRange src x b kvh r.1 r.2 bufs (mem r)) zeroBufs

end

end MlxTrainPerf.Attention.Kernel
