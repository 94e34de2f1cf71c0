import MlxTrainPerf.Lib.Simdgroup
import MlxTrainPerf.Core.Vocab
/-!
# The fused cross-entropy kernels

`core/kernel/source.py` over exact reals, lane by lane: the dense forward, the
scalar hidden-state backward and the one on matrices. A body is read for one row
block of one tile `[v0, v1)` of the columns, and returns the stores it makes. The
lanes of a simdgroup run in lockstep. The entries of a shape are int32, so the
bodies' `uint` indices do not wrap and are naturals here.
-/
open Loops Simdgroup XReal

namespace MlxTrainPerf.Core.Kernel

open MlxTrainPerf.Attention (toUInt)

noncomputable section

/-! ## The logit tiles -/

section Logits
variable (x : DenseArgs) (v0 v1 r0 cc : ℕ)

/-- The row `h[rt]` points to, clamped. -/
def hRow (rt lane : ℕ) : ℕ := min (r0 + fm lane + 8 * rt) (x.n - 1)

/-- The column whose weights the block's column `j` reads, clamped at `cl`. -/
def wCol (j : ℕ) : ℕ := v0 + min (cc + j) (v1 - v0 - 1)

/-- `A[rt]`: the rows. -/
def hFrag (d0 rt : ℕ) : Frag := fun lane e => real (x.hidden (hRow x r0 rt lane) (d0 + fn lane + e))

/-- `B[ct]`: the columns' weights, transposed. -/
def wFrag (d0 ct : ℕ) : Frag := fun lane e => real (x.w (wCol v0 v1 cc (8 * ct + fn lane + e)) (d0 + fm lane))

/-- `dfull = d & ~7u`. -/
def dFull : ℕ := x.d / 8 * 8

/-- `A[rt]` of the guarded tail. -/
def hTail (rt : ℕ) : Frag := fun lane e =>
  if dFull x + fn lane + e < x.d then real (x.hidden (hRow x r0 rt lane) (dFull x + fn lane + e)) else 0

/-- `B[ct]` of the guarded tail. -/
def wTail (ct : ℕ) : Frag := fun lane e =>
  if dFull x + fm lane < x.d then real (x.w (wCol v0 v1 cc (8 * ct + fn lane + e)) (dFull x + fm lane)) else 0

/-- `_GEMM_A_LOGIT_REGEN`: `C[rt][ct]`, which the forward and the backward share. -/
def logitTile (rt ct : ℕ) : Frag :=
  let c := (steps 8 0 (dFull x)).foldl
    (fun c d0 => multiplyAccumulate (hFrag x r0 d0 rt) (wFrag x v0 v1 cc d0 ct) c) (filled 0)
  if dFull x < x.d then multiplyAccumulate (hTail x r0 rt) (wTail x v0 v1 cc ct) c else c

/-- `inr`, of the block's column `j`. -/
def inRange (j : ℕ) : Bool := decide (cc + j < v1 - v0)

/-- `tg[rt]`: past the last row no column's index. -/
def targetOf (rt lane : ℕ) : ℕ := if r0 + fm lane + 8 * rt < x.n then toUInt (x.targets (r0 + fm lane + 8 * rt)) else 0xFFFFFFFF

end Logits

/-! ## `_DENSE_TEMPLATE` -/

/-- The registers of the forward, by lane and row tile; `tv` is with `ht`. -/
structure FwdRegs where
  m : ℕ → ℕ → XReal
  s : ℕ → ℕ → XReal
  tv : ℕ → ℕ → XReal × Bool

/-! The block's epilogue, of any logit tiles `c`: `_QUANT_TEMPLATE` replaces only how the tiles are formed. -/

namespace Epilogue

variable (x : DenseArgs) (c : ℕ → ℕ → Frag) (v0 v1 r0 cc rt : ℕ)

/-- `inr[j] ? e[j] : -INFINITY`. -/
def maskedLogit (ct : ℕ) : Frag := fun lane e =>
  if inRange v0 v1 cc (8 * ct + fn lane + e) then c rt ct lane e else negInf

/-- `bm`, over a lane's own elements. -/
def laneMax (lane : ℕ) : XReal :=
  (List.range 4).foldl (fun bm ct =>
    (bm.max (maskedLogit c v0 v1 cc rt ct lane 0)).max (maskedLogit c v0 v1 cc rt ct lane 1)) negInf

def blockMax (lane : ℕ) : XReal := reduceRow XReal.max (laneMax c v0 v1 cc rt) lane

/-- `bs`, over a lane's own elements. -/
def laneSum (lane : ℕ) : XReal :=
  (List.range 4).foldl (fun bs ct =>
    bs + (maskedLogit c v0 v1 cc rt ct lane 0 - blockMax c v0 v1 cc rt lane).exp +
      (maskedLogit c v0 v1 cc rt ct lane 1 - blockMax c v0 v1 cc rt lane).exp) 0

def blockSum (lane : ℕ) : XReal := reduceRow (· + ·) (laneSum c v0 v1 cc rt) lane

/-- `tv[rt]` and `ht[rt]` after the block: a lane looks at its own columns. -/
def takeTarget (lane : ℕ) (tv : XReal × Bool) : XReal × Bool :=
  (List.range 4).foldl (fun tv ct =>
    let take := fun (tv : XReal × Bool) e =>
      if inRange v0 v1 cc (8 * ct + fn lane + e) && targetOf x r0 rt lane == v0 + cc + 8 * ct + fn lane + e then
        (c rt ct lane e, true)
      else tv
    take (take tv 0) 1) tv

variable (regs : FwdRegs)

/-- `nm`. -/
def nextMax (lane : ℕ) : XReal := (regs.m lane rt).max (blockMax c v0 v1 cc rt lane)

/-- One block of 32 columns. -/
def step : FwdRegs where
  m := fun lane rt => nextMax c v0 v1 cc rt regs lane
  s := fun lane rt => regs.s lane rt * (regs.m lane rt - nextMax c v0 v1 cc rt regs lane).exp +
    blockSum c v0 v1 cc rt lane * (blockMax c v0 v1 cc rt lane - nextMax c v0 v1 cc rt regs lane).exp
  tv := fun lane rt => takeTarget x c v0 v1 r0 cc rt lane (regs.tv lane rt)

def init : FwdRegs := ⟨fun _ _ => negInf, fun _ _ => 0, fun _ _ => (0, false)⟩

/-- `tvv`, over the lanes of a row. -/
def rowTarget (lane : ℕ) : XReal :=
  reduceRow XReal.max (fun lane => if (regs.tv lane rt).2 then (regs.tv lane rt).1 else negInf) lane

/-- `hf`, over the lanes of a row. -/
def rowHit (lane : ℕ) : XReal := reduceRow XReal.max (fun lane => if (regs.tv lane rt).2 then real 1 else 0) lane

/-- The stores of `lse_out` and `tgt_out`, each pair at its row; `inp` holds
`lse_in` and `tgt_in`. -/
def stores (rowTiles : ℕ) (inp : ℕ → XReal × XReal) : List (ℕ × XReal × XReal) :=
  (List.range rowTiles).flatMap fun rt => (List.range 32).flatMap fun lane =>
    let row := r0 + fm lane + 8 * rt
    if fn lane = 0 ∧ row < x.n then
      let tileLse := regs.m lane rt + (regs.s lane rt).log
      let prev := (inp row).1
      let hi := prev.max tileLse
      let lo := prev.min tileLse
      [(row, hi + (real 1 + (lo - hi).exp).log,
        if XReal.lt (real (1 / 2)) (rowHit rt regs lane) then rowTarget rt regs lane else (inp row).2)]
    else []

end Epilogue

namespace Fwd

variable (x : DenseArgs) (v0 v1 r0 cc : ℕ)

/-- One block of 32 columns: its logits, then the epilogue. -/
def step (regs : FwdRegs) : FwdRegs := Epilogue.step x (logitTile x v0 v1 r0 cc) v0 v1 r0 cc regs

/-- The registers after the tile's columns. -/
def run : FwdRegs := (steps 32 0 (v1 - v0)).foldl (fun regs cc => step x v0 v1 r0 cc regs) Epilogue.init

/-- The body, for one row block. -/
def stores (rowTiles : ℕ) (inp : ℕ → XReal × XReal) : List (ℕ × XReal × XReal) :=
  if x.n ≤ r0 then [] else Epilogue.stores x r0 (run x v0 v1 r0) rowTiles inp

end Fwd

/-! ## `_BACKWARD_DHIDDEN_TEMPLATE` -/

/-- A `(n, d)` buffer. -/
abbrev Buffer : Type := ℕ × ℕ → XReal

namespace Bwd

variable (x : BwdArgs) (v0 v1 r0 : ℕ) (inp out : Buffer)

section Scalar
variable (row c : ℕ)

/-- `part`, of one lane. -/
def part (lane : ℕ) : XReal :=
  (steps 32 lane x.d).foldl (fun part i => part + real (x.hidden row i) * real (x.w (v0 + c) i)) 0

/-- `coeff`, of the row and the tile's column `c`. -/
def coeff : XReal :=
  let logit := ∑ lane ∈ Finset.range 32, part x v0 row c lane
  let onehot : XReal := if toUInt (x.targets row) = v0 + c then real 1 else 0
  ((logit - real (x.lse row)).exp - onehot) * real (x.cotangent row)

/-- One column. A lane reads and stores elements no other lane does, each once,
so the reads may come before the stores. -/
def columnStep : Buffer :=
  storeAll ((List.range 32).flatMap fun lane => (steps 32 lane x.d).map fun i =>
    let prev := if c = 0 then inp (row, i) else out (row, i)
    ((row, i), prev + coeff x v0 row c * real (x.w (v0 + c) i))) out

end Scalar

/-- A row's columns, one after another. -/
def scalarRow (row : ℕ) : Buffer := (List.range (v1 - v0)).foldl (fun out c => columnStep x v0 inp out row c) out

/-- The body, for one row block: `d_hidden_in` is `inp`. -/
def scalarBlock (rowTiles : ℕ) : Buffer :=
  if x.n ≤ r0 then out
  else (List.range (8 * rowTiles)).foldl
    (fun out rt => if x.n ≤ r0 + rt then out else scalarRow x v0 v1 inp out (r0 + rt)) out

/-! ## `_BACKWARD_DHIDDEN_MMA_TEMPLATE` -/

section Mma
variable (cc rt : ℕ)

/-- `lse_r[rt]` and `cot_r[rt]`: 0 past the last row. -/
def ofRow (f : ℕ → ℝ) (lane : ℕ) : XReal := if r0 + fm lane + 8 * rt < x.n then real (f (r0 + fm lane + 8 * rt)) else 0

/-- The coefficients, formed in place of the logits: masked to 0. -/
def gTile (ct : ℕ) : Frag := fun lane e =>
  if inRange v0 v1 cc (8 * ct + fn lane + e) then
    let onehot : XReal := if targetOf x.toDenseArgs r0 rt lane = v0 + (cc + 8 * ct + fn lane + e) then real 1 else 0
    ((logitTile x.toDenseArgs v0 v1 r0 cc rt ct lane e - ofRow x r0 rt x.lse lane).exp - onehot) *
      ofRow x r0 rt x.cotangent lane
  else 0

/-- `Wb`, of a whole slice. -/
def wbFrag (d0d ct : ℕ) : Frag := fun lane e => real (x.w (wCol v0 v1 cc (8 * ct + fm lane)) (d0d + fn lane + e))

/-- `Wb`, of the guarded tail slice. -/
def wbTail (ct : ℕ) : Frag := fun lane e =>
  if dFull x.toDenseArgs + fn lane + e < x.d then
    real (x.w (wCol v0 v1 cc (8 * ct + fm lane)) (dFull x.toDenseArgs + fn lane + e))
  else 0

/-- `Db`: GEMM-B over the block's four column tiles. -/
def dbTile (wb : ℕ → Frag) : Frag :=
  (List.range 4).foldl (fun db ct => multiplyAccumulate (gTile x v0 v1 r0 cc rt ct) (wb ct) db) (filled 0)

/-- `p + Db`, at an element of the output. -/
def added (db : Frag) (lane e row col : ℕ) : (ℕ × ℕ) × XReal :=
  ((row, col), (if cc = 0 then inp (row, col) else out (row, col)) + db lane e)

/-- The stores of a whole slice. -/
def sliceStores (d0d : ℕ) : List ((ℕ × ℕ) × XReal) :=
  let db := dbTile x v0 v1 r0 cc rt (wbFrag x v0 v1 cc d0d)
  (List.range 32).flatMap fun lane =>
    let row := r0 + fm lane + 8 * rt
    if row < x.n then
      [added inp out cc db lane 0 row (d0d + fn lane), added inp out cc db lane 1 row (d0d + fn lane + 1)]
    else []

/-- The stores of the guarded tail slice. -/
def tailStores : List ((ℕ × ℕ) × XReal) :=
  let db := dbTile x v0 v1 r0 cc rt (wbTail x v0 v1 cc)
  (List.range 32).flatMap fun lane =>
    let row := r0 + fm lane + 8 * rt
    let ca := dFull x.toDenseArgs + fn lane
    let cb := dFull x.toDenseArgs + fn lane + 1
    if row < x.n then
      (if ca < x.d then [added inp out cc db lane 0 row ca] else []) ++
        (if cb < x.d then [added inp out cc db lane 1 row cb] else [])
    else []

end Mma

/-- The stores of a block of 32 columns. A lane reads and stores elements no other
lane does, each once, so the reads may come before the stores. -/
def blockStores (rowTiles cc : ℕ) : List ((ℕ × ℕ) × XReal) :=
  let dfo := dFull x.toDenseArgs
  ((steps 8 0 dfo).flatMap fun d0d => (List.range rowTiles).flatMap fun rt => sliceStores x v0 v1 r0 inp out cc rt d0d) ++
    if dfo < x.d then (List.range rowTiles).flatMap fun rt => tailStores x v0 v1 r0 inp out cc rt else []

def blockStep (rowTiles cc : ℕ) : Buffer := storeAll (blockStores x v0 v1 r0 inp out rowTiles cc) out

/-- The body, for one row block: `d_hidden_in` is `inp`. -/
def mmaBlock (rowTiles : ℕ) : Buffer :=
  if x.n ≤ r0 then out
  else (steps 32 0 (v1 - v0)).foldl (fun out cc => blockStep x v0 v1 r0 inp out rowTiles cc) out

end Bwd
end

end MlxTrainPerf.Core.Kernel
