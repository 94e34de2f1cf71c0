import MlxTrainPerf.Bench.Readers
import MlxTrainPerf.Lib.MarkdownTable
/-!
# Community aggregation

`scripts/aggregate_community.py`: the submitted artifacts of a directory, a row of numbers
from each, and the table. Loading checks the machine block and that `benches` is a list;
what the rows are computed from is walked as it comes.
-/
open PyStr PyJson Markdown

namespace MlxTrainPerf.Community

open Bench (Number numberOf readData contentOf getItem getOr Items File ReadError)

/-- How aggregation raises. -/
inductive AggregateError
  | read (e : ReadError)
  | attribute
  | type
  | overflow
deriving DecidableEq, Repr

/-! ## Python values -/

/-- `bool(v)`. -/
def truthy : PyValue → Bool
  | .none => false
  | .bool b => b
  | .int n => n != 0
  | .float f => f.num != some (.finite 0)
  | .str s => s != []
  | .list xs => !xs.isEmpty
  | .tuple xs => !xs.isEmpty
  | .dict items => !items.isEmpty
  | .other _ => true

/-- The int of an `isinstance(v, int)`. -/
def intOf : PyValue → Option ℤ
  | .int n => some n
  | .bool b => some b.toNat
  | _ => none

/-- `float(x)`. -/
def toFloat (x : Number) : Except AggregateError PyFloat := x.toFloat.mapError fun _ => .overflow

/-- `x > 0`. -/
def isPositive (x : Number) : Bool :=
  match x.num with
  | some (.finite q) => decide (0 < q)
  | some (.inf neg) => !neg
  | none => false

/-- `round(x, 2)`. -/
def round2 : PyFloat → PyFloat
  | .finite q => roundDouble (roundHalfEven (q * 100) / 100)
  | f => f

/-- `format(x, f".{digits}f")`. A zero has no sign here, where Python prints the one of `-0.0`. -/
def formatFixed (digits : ℕ) : PyFloat → PyStr
  | .finite q =>
    let n := (roundHalfEven (|q| * 10 ^ digits)).toNat
    let frac := lit (toString (n % 10 ^ digits))
    (if q < 0 then lit "-" else []) ++ lit (toString (n / 10 ^ digits)) ++ lit "." ++
      List.replicate (digits - frac.length) 48 ++ frac
  | .inf neg => if neg then lit "-inf" else lit "inf"
  | .nan _ => lit "nan"

/-- What a loop over `v` takes one by one. -/
def iterate : PyValue → Except AggregateError (List PyValue)
  | .list xs => .ok xs
  | .tuple xs => .ok xs
  | .dict items => .ok (items.map fun e => .str (Bench.keyText' e.1))
  | .str s => .ok (s.map fun c => .str [c])
  | _ => .error .type

/-- `key in v`. -/
def contains (key : PyStr) : PyValue → Except AggregateError Bool
  | .dict items => .ok (lookup (.str key) items).isSome
  | .list xs => .ok (xs.any fun x => pyEq x (.str key))
  | .tuple xs => .ok (xs.any fun x => pyEq x (.str key))
  | .str s => .ok (decide (key <:+: s))
  | _ => .error .type

/-- `v[key]`, for a key that is in `v`. -/
def index (key : PyStr) : PyValue → Except AggregateError PyValue
  | .dict items => .ok (getItem items key)
  | _ => .error .type

/-! ## Loading -/

/-- `_artifact_is_complete`. -/
def artifactIsComplete (data : Items) : Bool :=
  match getItem data (lit "machine") with
  | .dict machine =>
    if !truthy (getItem machine (lit "chip")) || (intOf (getItem machine (lit "ram_gib"))).isNone then false
    else
      match getItem data (lit "benches") with
      | .list _ => true
      | _ => false
  | _ => false

/-- The two warnings, by the stem of the path they name. -/
inductive Warning
  | unparseable (name : PyStr)
  | partialArtifact (name : PyStr)
deriving DecidableEq

/-- What loading gives back, and what it prints. -/
structure Loaded where
  artifacts : List Items
  warnings : List Warning

/-- One turn of `load_community_artifacts`. -/
def loadStep (limit : ℕ) (out : Loaded) (f : File) : Except AggregateError Loaded :=
  match readData (some (contentOf limit f.2)) with
  | .error e => .error (.read e)
  | .ok none => .ok { out with warnings := out.warnings ++ [.unparseable f.1] }
  | .ok (some (.dict data)) =>
    if artifactIsComplete data then .ok { out with artifacts := out.artifacts ++ [data] }
    else .ok { out with warnings := out.warnings ++ [.partialArtifact f.1] }
  | .ok (some _) => .ok { out with warnings := out.warnings ++ [.partialArtifact f.1] }

/-- `load_community_artifacts`, on the `*.json` files in the order of their paths. -/
def loadCommunityArtifacts (limit : ℕ) (files : List File) : Except AggregateError Loaded :=
  files.foldlM (loadStep limit) ⟨[], []⟩

/-! ## The fields of a condition -/

/-- `_bench`. -/
def bench (name : PyStr) : List PyValue → Except AggregateError (Option Items)
  | [] => .ok none
  | .dict b :: rest => if pyEq (getItem b (lit "bench")) (.str name) then .ok (some b) else bench name rest
  | _ :: _ => .error .attribute

/-- `_conditions`, as a loop takes them. -/
def conditions : Option Items → Except AggregateError (List PyValue)
  | none => .ok []
  | some b => iterate (getOr b (lit "conditions") (.list []))

/-- `condition.get("identity", {}).get(key)`. -/
def identityField (condition : Items) (key : PyStr) : Except AggregateError PyValue :=
  match getOr condition (lit "identity") (.dict []) with
  | .dict identity => .ok (getItem identity key)
  | _ => .error .attribute

/-- `_field`. -/
def field (condition : Items) (key : PyStr) : Except AggregateError PyValue := do
  let result := getOr condition (lit "result") (.dict [])
  if ← contains key result then index key result else identityField condition key

/-- What a column looks at: the bench, the field a condition is chosen by, and the two
numbers it must have. -/
structure Column where
  benchName : PyStr
  gate : PyStr
  chosen : PyValue → Bool
  position : PyStr
  value : PyStr

/-- `isinstance(n, int) and isinstance(value, int | float)`, and the two numbers. -/
def numbers (n value : PyValue) : Option (ℤ × Number) :=
  match intOf n, numberOf value with
  | some n, some x => some (n, x)
  | _, _ => none

/-- A condition's two numbers, if the column wants it. -/
def Column.sample (col : Column) : PyValue → Except AggregateError (Option (ℤ × Number))
  | .dict condition =>
    if !pyEq (getItem condition (lit "status")) (.str (lit "ok")) then .ok none
    else do
      let gate ← field condition col.gate
      if !col.chosen gate then .ok none
      else do
        let n ← field condition col.position
        let value ← field condition col.value
        return numbers n value
  | _ => .error .attribute

section Walk
variable {σ : Type} (col : Column) (update : σ → ℤ × Number → Except AggregateError σ)

/-- One turn of a column's loop. -/
def Column.step (acc : σ) (c : PyValue) : Except AggregateError σ := do
  match ← col.sample c with
  | some s => update acc s
  | none => .ok acc

/-- The loop over the conditions of a column's bench. -/
def Column.walk (init : σ) (data : Items) : Except AggregateError σ := do
  let benches ← iterate (getOr data (lit "benches") (.list []))
  let cs ← conditions (← bench col.benchName benches)
  cs.foldlM (col.step update) init

end Walk

/-! ## The columns -/

/-- Keep the value at the best position so far. -/
def keepBest (better : ℤ → ℤ → Bool) (best : Option ℤ × Option PyFloat) (s : ℤ × Number) :
    Except AggregateError (Option ℤ × Option PyFloat) :=
  if best.1.all (better s.1) then (toFloat s.2).map fun x => (some s.1, some x) else .ok best

def lossColumn : Column where
  benchName := lit "loss_layer"
  gate := lit "impl"
  chosen v := pyEq v (.str (lit "kernel"))
  position := lit "n"
  value := lit "marginal_peak_gb"

/-- `_loss_kernel_peak`. -/
def lossKernelPeak (data : Items) : Except AggregateError (Option PyFloat) :=
  (lossColumn.walk (keepBest fun n best => decide (best < n)) (some (-1), none) data).map Prod.snd

def flashColumn : Column where
  benchName := lit "attention_op"
  gate := lit "impl"
  chosen v := pyEq v (.str (lit "flash"))
  position := lit "n"
  value := lit "fwdbwd_peak_gb"

/-- `peaks[n] = float(peak)`, for a positive peak. -/
def keepPeak (peaks : List (ℤ × PyFloat)) (s : ℤ × Number) : Except AggregateError (List (ℤ × PyFloat)) :=
  if isPositive s.2 then (toFloat s.2).map (setKey peaks s.1) else .ok peaks

/-- `peaks.get(n)`. -/
def peakAt (peaks : List (ℤ × PyFloat)) (n : ℤ) : Option PyFloat := (peaks.find? fun e => e.1 = n).map Prod.snd

/-- The ratio of every `n` whose half is there. -/
def doublings (peaks : List (ℤ × PyFloat)) : List (ℤ × PyFloat) :=
  peaks.filterMap fun e => (peakAt peaks (e.1 / 2)).map fun half => (e.1, floatDiv e.2 half)

/-- `max(pairs)`, where no two have the same `n`. -/
def maxPair : List (ℤ × PyFloat) → Option (ℤ × PyFloat)
  | [] => none
  | p :: ps => some (ps.foldl (fun best q => if best.1 < q.1 then q else best) p)

/-- `_flash_doubling`. -/
def flashDoubling (data : Items) : Except AggregateError (Option PyFloat) :=
  (flashColumn.walk keepPeak [] data).map fun peaks => (maxPair (doublings peaks)).map fun p => round2 p.2

def trainColumn : Column where
  benchName := lit "train_step"
  gate := lit "stock"
  chosen
    | .bool true => false
    | _ => true
  position := lit "seq_len"
  value := lit "tokens_per_sec_median"

/-- `_train_tps_flash`. -/
def trainTpsFlash (data : Items) : Except AggregateError (Option PyFloat) :=
  (trainColumn.walk (keepBest fun seq best => decide (seq < best)) (none, none) data).map Prod.snd

/-! ## Rows -/

structure CommunityRow where
  chip : PyStr
  ramGib : ℤ
  mlx : PyStr
  tier : PyStr
  lossKernelPeakGb : Option PyFloat
  attnFlashDoubling : Option PyFloat
  trainTpsFlash : Option PyFloat
  pr : Option PyStr

section Rows
variable (repr : PyValue → PyStr)

/-- `summarize_row`, on an artifact that was loaded. -/
def summarizeRow (data : Items) : Except AggregateError CommunityRow :=
  match getOr data (lit "machine") (.dict []) with
  | .dict machine =>
    match intOf (getOr machine (lit "ram_gib") (.int 0)) with
    | none => .error .type
    | some ramGib => do
      let loss ← lossKernelPeak data
      let flash ← flashDoubling data
      let train ← trainTpsFlash data
      return {
        chip := Bench.strOf repr (getOr machine (lit "chip") (.str (lit "?")))
        ramGib := ramGib
        mlx := Bench.strOf repr (getOr machine (lit "mlx_version") (.str (lit "?")))
        tier := Bench.strOf repr (getOr data (lit "tier") (.str (lit "?")))
        lossKernelPeakGb := loss
        attnFlashDoubling := flash
        trainTpsFlash := train
        pr := match getItem data (lit "pr") with
          | .str s => some s
          | _ => none }
  | _ => .error .attribute

end Rows

/-- `_EM_DASH`. -/
def emDash : PyStr := lit "—"

/-- `_COLUMNS`. -/
def columns : List PyStr :=
  [lit "Chip", lit "RAM (GB)", lit "mlx", lit "Tier", lit "Loss kernel peak (GB)", lit "Attn flash 2x ratio",
    lit "Train tok/s (flash)", lit "PR"]

/-- `_cell_float`. -/
def cellFloat (value : Option PyFloat) (digits : ℕ) : PyStr := value.elim emDash (formatFixed digits)

/-- `_row_cells`. -/
def rowCells (row : CommunityRow) : List PyStr :=
  [row.chip, lit (toString row.ramGib), row.mlx, row.tier, cellFloat row.lossKernelPeakGb 4,
    cellFloat row.attnFlashDoubling 2, cellFloat row.trainTpsFlash 1, row.pr.getD emDash]

/-- Rows are sorted by RAM, then by chip. -/
def rowLe (a b : CommunityRow) : Bool := a.ramGib < b.ramGib || a.ramGib == b.ramGib && a.chip ≤ b.chip

def header : PyStr := tableLine columns

def separator : PyStr := tableLine (columns.map fun _ => lit "---")

/-- `render_markdown_table`. -/
def renderMarkdownTable (rows : List CommunityRow) : PyStr :=
  join ([header, separator] ++ (rows.mergeSort rowLe).map fun row => tableLine (rowCells row))

end MlxTrainPerf.Community
