import MlxTrainPerf.Core.Kernel.Source
/-!
# The chained launches

`core/kernel/launch.py`: the budget check, and the launchers that run one body
over the tiles of the columns, each reading what the one before it wrote. A
launch gets fresh outputs, whose memory may hold anything. Rates and seconds are
exact rationals.
-/
open Loops PyList XReal

namespace MlxTrainPerf.Core.Kernel

/-- What a launcher raises. The budget error carries the numbers of its text. -/
inductive LaunchError
  | budget (perDispatch total rate : ℚ)
  | zeroDivision
  | value (msg : String)
deriving DecidableEq, Repr

/-- `MAX_DISPATCH_SECONDS`. -/
def maxDispatchSeconds : ℚ := 1

/-- `MAX_TOTAL_SECONDS`. -/
def maxTotalSeconds : ℚ := 60

def checkBudget (n d v : ℕ) (tile : ℤ) (rate : ℚ) : Except LaunchError Unit :=
  if rate = 0 then .error .zeroDivision
  else
    let perDispatch := n * tile * d / rate
    let total := n * v * d / rate
    if maxDispatchSeconds < perDispatch ∨ maxTotalSeconds < total then .error (.budget perDispatch total rate) else .ok ()

/-- `if rate_macs_per_s is not None: check_budget(..)`. -/
def checkRate (n d v : ℕ) (tile : ℤ) : Option ℚ → Except LaunchError Unit
  | some rate => checkBudget n d v tile rate
  | none => .ok ()

def rowTilesMsg (rowTiles : ℤ) : String := s!"row_tiles must be 2 or 4, got {rowTiles}"

/-- The row count of a block is divided by first, then the builder checks it. -/
def checkRowTiles (rowTiles : ℤ) : Except LaunchError ℕ :=
  if rowTiles = 0 then .error .zeroDivision
  else if rowTiles = 2 ∨ rowTiles = 4 then .ok rowTiles.toNat
  else .error (.value (rowTilesMsg rowTiles))

theorem checkRowTiles_ok {rowTiles : ℤ} (h : rowTiles = 2 ∨ rowTiles = 4) :
    ∃ rt, (0 < rt ∧ rt ≤ 4) ∧ checkRowTiles rowTiles = .ok rt := by
  rcases h with rfl | rfl
  · exact ⟨2, by decide, rfl⟩
  · exact ⟨4, by decide, rfl⟩

/-- The tiles of a launch. -/
def launchTiles (v : ℕ) (tile : ℤ) : Except LaunchError (List (ℕ × ℕ)) :=
  (vocabTiles v tile).mapError fun _ => .value "range() arg 3 must not be zero"

/-- The row blocks of a launch: `ygroup`. -/
def rowBlocks (n rowTiles : ℕ) : List ℕ := List.range ((n + 8 * rowTiles - 1) / (8 * rowTiles))

noncomputable section

/-- One dispatch of the forward. -/
def forwardTile (x : DenseArgs) (rowTiles : ℕ) (r : ℕ × ℕ) (inp mem : ℕ → XReal × XReal) : ℕ → XReal × XReal :=
  storeAll ((rowBlocks x.n rowTiles).flatMap fun ygroup =>
    Fwd.stores x r.1 r.2 (ygroup * (8 * rowTiles)) rowTiles inp) mem

/-- `forward`: `lse` and `tgt`. -/
def forward (x : DenseArgs) (rowTiles tile : ℤ) (rate : Option ℚ) (mem : ℕ × ℕ → ℕ → XReal × XReal) :
    Except LaunchError (List XReal × List XReal) := do
  checkRate x.n x.d x.v tile rate
  let rowTiles ← checkRowTiles rowTiles
  let tiles ← launchTiles x.v tile
  let out := tiles.foldl (fun inp r => forwardTile x rowTiles r inp (mem r)) fun _ => (negInf, 0)
  return ((List.range x.n).map fun i => (out i).1, (List.range x.n).map fun i => (out i).2)

/-- What the hidden-state backwards share: `block` is the body. Regenerating the
logits and accumulating are two passes, so the budget is checked at half the rate. -/
def backwardWith (block : ℕ → ℕ → ℕ → Buffer → Buffer → ℕ → Buffer) (x : BwdArgs) (rowTiles tile : ℤ)
    (rate : Option ℚ) (mem : ℕ × ℕ → Buffer) : Except LaunchError (List (List XReal)) := do
  checkRate x.n x.d x.v tile (rate.map (· / 2))
  let rowTiles ← checkRowTiles rowTiles
  let tiles ← launchTiles x.v tile
  let out := tiles.foldl (fun inp r => (rowBlocks x.n rowTiles).foldl
    (fun out ygroup => block r.1 r.2 (ygroup * (8 * rowTiles)) inp out rowTiles) (mem r)) fun _ => 0
  return (List.range x.n).map fun i => (List.range x.d).map fun k => out (i, k)

/-- `backward_dhidden`. -/
def backwardDhidden (x : BwdArgs) (rowTiles tile : ℤ) (rate : Option ℚ) (mem : ℕ × ℕ → Buffer) :
    Except LaunchError (List (List XReal)) := backwardWith (Bwd.scalarBlock x) x rowTiles tile rate mem

/-- `backward_dhidden_mma`. -/
def backwardDhiddenMma (x : BwdArgs) (rowTiles tile : ℤ) (rate : Option ℚ) (mem : ℕ × ℕ → Buffer) :
    Except LaunchError (List (List XReal)) := backwardWith (Bwd.mmaBlock x) x rowTiles tile rate mem

end

end MlxTrainPerf.Core.Kernel
