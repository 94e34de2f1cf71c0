import MlxTrainPerf.Lib.Loops
/-!
# The dispatch planner

`attention/kernel/launch.py`: what a query range costs, the widest range that
fits a budget, and the plan of a whole pass. Rates and seconds are exact
rationals. `commandBuffers` is the command-buffer stream the planner models,
said on its own: it groups any list of ranges, whoever planned them.
-/
namespace MlxTrainPerf.Launch

/-- `LaunchBudgetError`, with its text. -/
structure LaunchBudgetError where
  msg : String
deriving DecidableEq, Repr

/-- `MAX_DISPATCH_SECONDS`. -/
def maxDispatchSeconds : ℚ := 1 / 2

/-- `_PACK_COMMIT_ELEMS`. -/
def packCommitElems : ℕ := 51 <<< 20

/-- `_PACK_COMMIT_OPS`. -/
def packCommitOps : ℕ := 51

/-! ## Costs -/

/-- The pass a plan is for: its keys, the MACs of one (query, key) pair, the
machine's rate, and whether it is causal. -/
structure Pass where
  n : ℕ
  pairCost : ℕ
  rate : ℚ
  causal : Bool

/-- Pairs of the causal query rows `[r0, r1)`. -/
def causalPairs (r0 r1 : ℕ) : ℕ := (r1 - r0) * (r0 + r1 + 1) / 2

/-- MACs of the query rows `[r0, r1)`. -/
def rangeMacs (p : Pass) (r0 r1 : ℕ) : ℕ :=
  if p.causal then causalPairs r0 r1 * p.pairCost else (r1 - r0) * p.n * p.pairCost

/-- Projected time of the query rows `[r0, r1)`. -/
def seconds (p : Pass) (r0 r1 : ℕ) : ℚ := rangeMacs p r0 r1 / p.rate

/-! ## `_widest_within` -/

/-- `int((math.sqrt(a * a + 8.0 * bp) - a) / 2)`, exactly. -/
def causalRoot (a : ℕ) (bp : ℚ) : ℕ := (Nat.sqrt ⌊(a * a + 8 * bp : ℚ)⌋.toNat - a) / 2

/-- The closed-form width, before rounding. -/
def closedForm (p : Pass) (r0 : ℕ) (budgetMacs : ℚ) : ℕ :=
  if p.causal then causalRoot (2 * r0 + 1) (budgetMacs / p.pairCost)
  else ⌊budgetMacs / (p.n * p.pairCost : ℚ)⌋.toNat

/-- The width capped at the rows left, and rounded down to whole blocks unless
it reaches `n`. -/
def roundToBlock (p : Pass) (r0 blockAlign w : ℕ) : ℕ :=
  let w := min w (p.n - r0)
  if w < p.n - r0 ∧ 1 < blockAlign then w / blockAlign * blockAlign else w

def beltStep (blockAlign : ℕ) : ℕ := if 1 < blockAlign then blockAlign else 1

theorem beltStep_pos (blockAlign : ℕ) : 0 < beltStep blockAlign := by
  unfold beltStep
  split <;> omega

/-- `while w > 0 and range_macs(..) / rate > budget_s: w -= step`. -/
def beltLoop (p : Pass) (r0 : ℕ) (budgetS : ℚ) (blockAlign w : ℕ) : ℕ :=
  if 0 < w ∧ budgetS < seconds p r0 (r0 + w) then beltLoop p r0 budgetS blockAlign (w - beltStep blockAlign) else w
termination_by w
decreasing_by
  have := beltStep_pos blockAlign
  omega

def widestWithin (p : Pass) (r0 : ℕ) (budgetS : ℚ) (blockAlign : ℕ) : ℕ :=
  let budgetMacs := budgetS * p.rate
  if budgetMacs ≤ 0 then 0
  else beltLoop p r0 budgetS blockAlign (roundToBlock p r0 blockAlign (closedForm p r0 budgetMacs))

/-! ## Command buffers -/

/-- What the planner may count towards a commit: the caller's tensors, once a
buffer, and each range's own output when those stay live. -/
structure Credit where
  liveInputElems : ℕ
  outputElemsPerRange : Option (ℕ → ℕ → ℕ)

def Credit.output (c : Credit) (r0 r1 : ℕ) : ℕ :=
  match c.outputElemsPerRange with
  | some f => f r0 r1
  | none => 0

/-- Does a buffer holding these dispatches commit? -/
def commits (c : Credit) (held : List (ℕ × ℕ)) : Bool :=
  decide (packCommitElems ≤ c.liveInputElems + (held.map fun r => c.output r.1 r.2).sum) ||
    decide (packCommitOps ≤ held.length)

/-- The buffers a stream of dispatches fills, the first one already holding `held`. -/
def buffersFrom (c : Credit) : List (ℕ × ℕ) → List (ℕ × ℕ) → List (List (ℕ × ℕ))
  | held, [] => if held = [] then [] else [held]
  | held, r :: ranges =>
    if commits c (held ++ [r]) then (held ++ [r]) :: buffersFrom c [] ranges else buffersFrom c (held ++ [r]) ranges

def commandBuffers (c : Credit) (ranges : List (ℕ × ℕ)) : List (List (ℕ × ℕ)) := buffersFrom c [] ranges

/-! ## `plan_budgeted_ranges` -/

/-- The planner's running counters: `buf_elems`, `buf_ops` and `buf_time`. -/
structure Buf where
  elems : ℕ
  ops : ℕ
  time : ℚ

namespace Buf

def empty : Buf := ⟨0, 0, 0⟩

/-- Count the dispatch `[r0, r1)`, the caller's tensors with a buffer's first. -/
def add (p : Pass) (c : Credit) (buf : Buf) (r0 r1 : ℕ) : Buf where
  elems := (if buf.ops = 0 then c.liveInputElems else buf.elems) + c.output r0 r1
  ops := buf.ops + 1
  time := buf.time + seconds p r0 r1

/-- Reset after a commit. -/
def settle (buf : Buf) : Buf := if packCommitElems ≤ buf.elems ∨ packCommitOps ≤ buf.ops then empty else buf

end Buf

/-- `f"{q:.{places}f}"`, for `q` not negative. -/
def fixed (places : ℕ) (q : ℚ) : String :=
  let scaled := q * 10 ^ places
  let low := ⌊scaled⌋.toNat
  let up := if scaled - low < 1 / 2 ∨ (scaled - low = 1 / 2 ∧ low % 2 = 0) then low else low + 1
  let frac := toString (up % 10 ^ places)
  s!"{up / 10 ^ places}." ++ "".pushn '0' (places - frac.length) ++ frac

/-- The refusal when no row of the next range fits. -/
def refusal (p : Pass) (c : Credit) (blockAlign r0 : ℕ) (buf : Buf) : LaunchBudgetError :=
  let unit := min (p.n - r0) (max 1 blockAlign)
  let tUnit := seconds p r0 (r0 + unit)
  let gRate := fixed 1 (p.rate / 10 ^ 9)
  if buf.ops = 0 then
    ⟨s!"projected {fixed 2 tUnit} s for the minimal {unit}-row range at query row {r0} exceeds the 0.5 s " ++
      s!"per-command-buffer budget at {gRate} G MAC/s. Reduce shape/context, or pass a measured rate."⟩
  else
    ⟨"chained dispatches cannot be guaranteed their own command buffers " ++
      s!"(unique input elements {c.liveInputElems} < the {packCommitElems} commit threshold), and a packed buffer " ++
      s!"would exceed the 0.5 s budget ({fixed 2 buf.time} s already modeled across {buf.ops} dispatches at " ++
      s!"{gRate} G MAC/s). Reduce shape/context, or pass a measured rate."⟩

/-- The planner's loop from row `r0` on. -/
def planLoop (p : Pass) (c : Credit) (blockAlign r0 : ℕ) (buf : Buf) :
    Except LaunchBudgetError (List (ℕ × ℕ)) :=
  if r0 < p.n then
    let w := widestWithin p r0 (maxDispatchSeconds - buf.time) blockAlign
    if w = 0 then .error (refusal p c blockAlign r0 buf)
    else do
      let ranges ← planLoop p c blockAlign (r0 + w) (buf.add p c r0 (r0 + w)).settle
      return (r0, r0 + w) :: ranges
  else .ok []
termination_by p.n - r0

def planBudgetedRanges (p : Pass) (c : Credit) (blockAlign : ℕ) : Except LaunchBudgetError (List (ℕ × ℕ)) :=
  planLoop p c blockAlign 0 .empty

/-! ## The chained dK/dV plan -/

/-- The sizes of an attention pass. -/
structure Shape where
  n : ℕ
  d : ℕ
  b : ℕ
  hq : ℕ
  hkv : ℕ
deriving DecidableEq, Repr

def planDkvDispatches (s : Shape) (rate : ℚ) (causal : Bool) (blockAlign : ℕ) :
    Except LaunchBudgetError (List (ℕ × ℕ)) :=
  planBudgetedRanges ⟨s.n, 4 * s.d * s.b * s.hq, rate, causal⟩
    -- q and dO, k and v, lse and D, then the carried dk_in and dv_in.
    ⟨2 * s.b * s.hq * s.n * s.d + 2 * s.b * s.hkv * s.n * s.d + 2 * s.b * s.hq * s.n +
      2 * s.b * s.hkv * s.n * s.d, none⟩
    blockAlign

end MlxTrainPerf.Launch
