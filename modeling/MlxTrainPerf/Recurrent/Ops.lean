import MlxTrainPerf.Lib.StrictLower
/-!
# The chunked gated delta rule

`recurrent/ops.py` over exact reals, and the step recurrence it stands for. Every
operation of a chunk stays in one batch row and one value head, so a chunk is
read there; head `hv` uses the key head `hv // repeat_factor`, which is what the
broadcast lays out. Checkpointing recomputes and changes nothing.
-/
open Finset

namespace MlxTrainPerf.Recurrent

/-- `SUB_BLOCK`. -/
def subBlock : ℕ := 16

/-- `CHUNK_SIZE`. -/
def defaultChunkSize : ℕ := 64

/-- `RecurrentInputError`, what Python raises on its own, and what mlx raises when there are no chunks to concatenate. -/
inductive RecurrentError
  | input (msg : String)
  | zeroDivision
  | noChunks
deriving DecidableEq, Repr

/-- A matrix, by row and column. -/
abbrev Mat : Type := ℕ → ℕ → ℝ

noncomputable section

/-! ## `_solve_strict_lower` -/

/-- `doubling`: `x = x + P @ x`, and `P = P @ P` but for the last pass. -/
def doubling (aii rhs : Mat) (n : ℕ) : Mat :=
  if n ≤ 1 then rhs
  else
    let steps := Nat.size (n - 1)
    ((List.range steps).foldl (fun (xp : Mat × Mat) s =>
      (fun i c => xp.1 i c + StrictLower.mul n xp.2 xp.1 i c,
        if s ≠ steps - 1 then StrictLower.mul n xp.2 xp.2 else xp.2)) (rhs, aii)).1

/-- One sub-block: the rows from `lo` on, from the rows before. -/
def solveBlock (C : ℕ) (A b : Mat) (sb : ℕ) (prev : Mat) (i : ℕ) : Mat :=
  let lo := i * sb
  let hi := min ((i + 1) * sb) C
  let rhs : Mat := fun r c => if 0 < i then b (lo + r) c + ∑ j ∈ range lo, A (lo + r) j * prev j c else b (lo + r) c
  let x := doubling (fun r s => A (lo + r) (lo + s)) rhs (hi - lo)
  fun r c => if r < lo then prev r c else x (r - lo) c

/-- `_solve_strict_lower`. -/
def solveStrictLower (C : ℕ) (A b : Mat) (sb : ℕ) : Mat :=
  if C ≤ sb then doubling A b C else (List.range ((C + sb - 1) / sb)).foldl (solveBlock C A b sb) fun _ _ => 0

/-! ## `_gated_delta_chunk` -/

/-- What `mx.maximum` clamps the gates to, `1e-12`. -/
def gateFloor : ℝ := 1 / 10 ^ 12

theorem gateFloor_pos : 0 < gateFloor := by
  unfold gateFloor
  positivity

theorem gateFloor_le_one : gateFloor ≤ 1 := by
  unfold gateFloor
  norm_num

/-- A chunk of one batch row and value head: `C` steps, their gates and the state
they start from, `(Dk, Dv)`. -/
structure Chunk where
  C : ℕ
  dk : ℕ
  dv : ℕ
  state : Mat
  q : Mat
  k : Mat
  v : Mat
  g : ℕ → ℝ
  beta : ℕ → ℝ

namespace Chunk
variable (x : Chunk)

/-- `g_cumlog`. -/
def gCumlog (t : ℕ) : ℝ := ∑ s ∈ range (t + 1), Real.log (max (x.g s) gateFloor)

/-- `g_last`. -/
def gLast : ℝ := x.gCumlog (x.C - 1)

/-- `tril_ones`. -/
def trilOnes (i j : ℕ) : ℝ := if j ≤ i then 1 else 0

/-- `strict_lower`. -/
def strictLower (i j : ℕ) : ℝ := if j < i then 1 else 0

/-- `L_mask`. -/
def lMask : Mat := fun i j => Real.exp ((x.gCumlog i - x.gCumlog j) * trilOnes i j) * trilOnes i j

def kkT : Mat := fun i j => ∑ d ∈ range x.dk, x.k i d * x.k j d

def qkT : Mat := fun i j => ∑ d ∈ range x.dk, x.q i d * x.k j d

def matA : Mat := fun i j => -(x.beta i * x.kkT i j) * x.lMask i j * strictLower i j

def decayExp (i : ℕ) : ℝ := Real.exp (x.gCumlog i)

/-- `mx.concatenate([v_beta, k_beta * decay_exp], axis=-1)`. -/
def rhs : Mat := fun i c =>
  if c < x.dv then x.v i c * x.beta i else x.k i (c - x.dv) * x.beta i * x.decayExp i

def sol : Mat := solveStrictLower x.C x.matA x.rhs subBlock

/-- `v_corrected` and `k_cumdecay` are the two parts of `sol`. -/
def vNew : Mat := fun i c => x.sol i c - ∑ d ∈ range x.dk, x.sol i (x.dv + d) * x.state d c

def y : Mat := fun i c =>
  ∑ d ∈ range x.dk, x.q i d * x.decayExp i * x.state d c + ∑ j ∈ range x.C, x.qkT i j * x.lMask i j * x.vNew j c

def decayToEnd (i : ℕ) : ℝ := Real.exp (x.gLast - x.gCumlog i)

def newState : Mat := fun d c =>
  x.state d c * Real.exp x.gLast + ∑ i ∈ range x.C, x.k i d * x.decayToEnd i * x.vNew i c

end Chunk

/-- `_gated_delta_chunk`. -/
def gatedDeltaChunk (x : Chunk) : Mat × Mat := (x.y, x.newState)

/-! ## `chunked_gated_delta` -/

/-- The arguments: `q` and `k` are `(B, T, Hk, Dk)`, `v` is `(B, T, Hv, Dv)`, `g`
and `beta` are `(B, T, Hv)`, the state is `(B, Hv, Dv, Dk)`. -/
structure DeltaArgs where
  B : ℕ
  T : ℕ
  Hk : ℕ
  Dk : ℕ
  Hv : ℕ
  Dv : ℕ
  gNdim : ℕ
  q : ℕ → ℕ → ℕ → ℕ → ℝ
  k : ℕ → ℕ → ℕ → ℕ → ℝ
  v : ℕ → ℕ → ℕ → ℕ → ℝ
  g : ℕ → ℕ → ℕ → ℝ
  beta : ℕ → ℕ → ℕ → ℝ
  state : Option (ℕ → ℕ → ℕ → ℕ → ℝ)
  mask : Option (ℕ → ℕ → Bool)

namespace DeltaArgs
variable (x : DeltaArgs)

/-- `repeat_factor`. -/
def repeatFactor : ℕ := x.Hv / x.Hk

/-- The state to start from, zeros without one. -/
def initState : ℕ → ℕ → ℕ → ℕ → ℝ := x.state.getD fun _ _ _ _ => 0

/-- Is the step kept? -/
def keeps (b t : ℕ) : Bool := (x.mask.map fun m => m b t).getD true

/-- `mx.where(m, g, 1)`. -/
def maskedG (b t h : ℕ) : ℝ := if x.keeps b t then x.g b t h else 1

/-- `beta * m`. -/
def maskedBeta (b t h : ℕ) : ℝ := x.beta b t h * if x.keeps b t then 1 else 0

/-- An array padded past `T`. -/
def padded (fill : ℝ) (f : ℕ → ℝ) (t : ℕ) : ℝ := if t < x.T then f t else fill

/-- The chunk `ci` of the value head `hv`, from the state `st`. -/
def chunk (C b hv ci : ℕ) (st : Mat) : Chunk where
  C := C
  dk := x.Dk
  dv := x.Dv
  state := st
  q := fun i d => x.padded 0 (fun t => x.q b t (hv / x.repeatFactor) d) (ci * C + i)
  k := fun i d => x.padded 0 (fun t => x.k b t (hv / x.repeatFactor) d) (ci * C + i)
  v := fun i c => x.padded 0 (fun t => x.v b t hv c) (ci * C + i)
  g := fun i => x.padded 1 (fun t => x.maskedG b t hv) (ci * C + i)
  beta := fun i => x.padded 0 (fun t => x.maskedBeta b t hv) (ci * C + i)

/-- The chunks of one head: `ys` and `st`. -/
def headRun (C nc b hv : ℕ) : List Mat × Mat :=
  (List.range nc).foldl (fun (r : List Mat × Mat) ci =>
    let out := gatedDeltaChunk (x.chunk C b hv ci r.2)
    (r.1 ++ [out.1], out.2)) ([], fun d c => x.initState b hv c d)

end DeltaArgs

def ndimMsg (ndim : ℕ) : String :=
  s!"scalar gating only (g.ndim == 3); got {ndim}. Vectorized gating stays on the sequential path."

def headsMsg (hv hk : ℕ) : String :=
  s!"v's head count Hv={hv} must be a multiple of q/k's head count Hk={hk} " ++
    "(grouped-query broadcast requires an integer repeat factor); Hv < Hk would " ++
    "otherwise floor to a zero repeat factor and skip the broadcast entirely, " ++
    "failing later on an unrelated shape mismatch"

/-- `chunk_size or CHUNK_SIZE`. -/
def chunkLength : Option ℕ → ℕ
  | none => defaultChunkSize
  | some 0 => defaultChunkSize
  | some C => C

/-- `chunked_gated_delta`: `y` is `(B, T, Hv, Dv)`, the state `(B, Hv, Dv, Dk)`. -/
def chunkedGatedDelta (x : DeltaArgs) (chunkSize : Option ℕ) :
    Except RecurrentError ((ℕ → ℕ → ℕ → ℕ → ℝ) × (ℕ → ℕ → ℕ → ℕ → ℝ)) :=
  if x.gNdim ≠ 3 then .error (.input (ndimMsg x.gNdim))
  else if x.Hk = 0 then .error .zeroDivision
  else if x.Hv % x.Hk ≠ 0 then .error (.input (headsMsg x.Hv x.Hk))
  else
    let C := chunkLength chunkSize
    let padLen := (C - x.T % C) % C
    let nc := (x.T + padLen) / C
    if nc = 0 then .error .noChunks
    else .ok (fun b t hv c => (x.headRun C nc b hv).1.getD (t / C) (fun _ _ => 0) (t % C) c,
      fun b hv c d => (x.headRun C nc b hv).2 d c)

/-! ## The step recurrence -/

/-- One step of the recurrence on a `(Dv, Dk)` state: decay, then correct towards
`v` along `k`. -/
def deltaStep (dk : ℕ) (k v : ℕ → ℝ) (g beta : ℝ) (S : Mat) : Mat :=
  let S' : Mat := fun c d => g * S c d
  let delta := fun c => beta * (v c - ∑ d ∈ range dk, S' c d * k d)
  fun c d => S' c d + delta c * k d

namespace DeltaArgs
variable (x : DeltaArgs) (b hv : ℕ)

/-- The state of a value head after `t` steps; a masked step leaves it alone. -/
def seqState : ℕ → Mat
  | 0 => x.initState b hv
  | t + 1 =>
    if x.keeps b t then
      deltaStep x.Dk (x.k b t (hv / x.repeatFactor)) (x.v b t hv) (x.g b t hv) (x.beta b t hv) (seqState t)
    else seqState t

/-- The output of a step. -/
def seqY (t c : ℕ) : ℝ := ∑ d ∈ range x.Dk, x.seqState b hv (t + 1) c d * x.q b t (hv / x.repeatFactor) d

end DeltaArgs
end

end MlxTrainPerf.Recurrent
