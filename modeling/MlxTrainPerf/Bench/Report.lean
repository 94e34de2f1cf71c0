import MlxTrainPerf.Bench.Artifacts
import MlxTrainPerf.Lib.Groups
import MlxTrainPerf.Lib.JsonText
import MlxTrainPerf.Memfit.Calibration
/-!
# The bench report

`report` of `bench/runner.py`: the artifacts that are ok, grouped by every identity field
but the implementation and the session, and a ratio for each pair of a group. The ratios
are a dict keyed by the two implementations' names, so a pair of another group with the
same names takes the place of the one before it.
-/
open PyStr PyJson Groups Budget

namespace MlxTrainPerf.Bench

/-! ## Reading -/

/-- How `report` raises: while reading, for a missing identity, for a value that cannot be
hashed, or in a division. -/
inductive ReportError
  | read (e : ReadError)
  | keyError
  | typeError
  | overflow
deriving DecidableEq, Repr

/-- `json.loads(p.read_text())`; `none` where the exception is caught. -/
def readData : Option Content → Except ReadError (Option PyValue)
  | none => .ok none
  | some .corrupt => .ok none
  | some .directory => .ok none
  | some (.raises e) => .error e
  | some (.parses doc) => .ok (some (decode doc))

abbrev Items : Type := List (PyKey × PyValue)

/-- The artifact of a path, if it is ok. -/
def okData (content : Option Content) : Except ReportError (Option Items) :=
  match readData content with
  | .error e => .error (.read e)
  | .ok none => .ok none
  | .ok (some (.dict data)) => .ok (if pyEq (getItem data (lit "status")) (.str (lit "ok")) then some data else none)
  | .ok (some _) => .error (.read .attribute)

/-- `_identity_of`, whose caller asks for the items of a dict. -/
def identityOf (data : Items) : Except ReportError Items :=
  match lookup (.str (lit "identity")) data with
  | none => .error .keyError
  | some (.dict ident) => .ok ident
  | some _ => .error (.read .attribute)

/-! ## Groups -/

/-- What a hashable value is, to a dict key. -/
inductive Atom
  | none
  | num (n : PyNum)
  | nan (object : ℕ)
  | str (s : PyStr)
deriving DecidableEq

/-- A value as part of a dict key; lists and dicts cannot be hashed. -/
def hashed : PyValue → Option Atom
  | .none => some .none
  | .bool b => some (.num (.finite b.toNat))
  | .int n => some (.num (.finite n))
  | .float (.finite q) => some (.num (.finite q))
  | .float (.inf neg) => some (.num (.inf neg))
  | .float (.nan object) => some (.nan object)
  | .str s => some (.str s)
  | _ => Option.none

/-- Every identity field but `impl` and `session_id`. -/
def groupFields (ident : Items) : Items :=
  ident.filter fun e => e.1 ∉ [PyKey.str (lit "impl"), PyKey.str (lit "session_id")]

/-- The text of a JSON object's key. -/
def keyText' : PyKey → PyStr
  | .str s => s
  | _ => []

def itemLe (a b : PyKey × PyValue) : Prop := keyText' a.1 ≤ keyText' b.1

instance : DecidableRel itemLe := fun a b => inferInstanceAs (Decidable (keyText' a.1 ≤ keyText' b.1))

/-- An item of a group key, hashed. -/
def hashItem (e : PyKey × PyValue) : Except ReportError (PyKey × Atom) :=
  match hashed e.2 with
  | some a => .ok (e.1, a)
  | none => .error .typeError

/-- `_group_key`, as a dict key. -/
def groupKey (ident : Items) : Except ReportError (List (PyKey × Atom)) :=
  ((groupFields ident).insertionSort itemLe).mapM hashItem

/-- An artifact of a group, and its identity. -/
structure Member where
  data : Items
  ident : Items

def Member.impl (m : Member) : PyValue := getItem m.ident (lit "impl")

def Member.sessionId (m : Member) : PyValue := getItem m.ident (lit "session_id")

def Member.wallS (m : Member) : PyValue := getItem m.data (lit "wall_s")

/-- A group key with its artifact. -/
def keyed (data : Items) : Except ReportError (List (PyKey × Atom) × Member) := do
  let ident ← identityOf data
  let key ← groupKey ident
  return (key, ⟨data, ident⟩)

/-! ## Ratios -/

/-- An `int | float`. -/
inductive Number
  | int (n : ℤ)
  | float (f : PyFloat)

def numberOf : PyValue → Option Number
  | .int n => some (.int n)
  | .bool b => some (.int b.toNat)
  | .float f => some (.float f)
  | _ => none

def Number.num : Number → Option PyNum
  | .int n => some (.finite n)
  | .float f => f.num

/-- `not x`. -/
def Number.isZero (w : Number) : Bool := w.num == some (.finite 0)

/-- `float(x)`. -/
def Number.toFloat : Number → Except ReportError PyFloat
  | .int n => (Memfit.floatOfInt n).elim (.error .overflow) fun m => .ok (.finite m)
  | .float f => .ok f

/-- `a / b`; two ints are divided exactly and rounded once. -/
def trueDiv (a b : Number) : Except ReportError PyFloat :=
  match a, b with
  | .int m, .int n =>
    match roundDouble (m / n) with
    | .finite q => .ok (.finite q)
    | _ => .error .overflow
  | a, b => do
    let x ← a.toFloat
    let y ← b.toFloat
    return floatDiv x y

/-- `str(value)`: a string is its own, and `repr` prints everything else. -/
def strOf (repr : PyValue → PyStr) : PyValue → PyStr
  | .str s => s
  | v => repr v

section Ratios
variable (repr : PyValue → PyStr)

/-- `f"{slower_impl}/{faster_impl}"`. -/
def label (slower faster : PyValue) : PyStr := strOf repr slower ++ lit "/" ++ strOf repr faster

/-- `_ratio_label_and_value`. -/
def ratioLabelAndValue (implA implB wallA wallB : PyValue) : Except ReportError (Option (PyStr × PyFloat)) :=
  match numberOf wallA, numberOf wallB with
  | some a, some b =>
    if a.isZero || b.isZero then .ok none
    else if numLe b.num a.num then (trueDiv a b).map fun q => some (label repr implA implB, q)
    else (trueDiv b a).map fun q => some (label repr implB implA, q)
  | _, _ => .ok none

/-- `a == b`: unlike in a container, a NaN is not equal to itself. -/
def plainEq : PyValue → PyValue → Bool
  | .float (.nan _), .float (.nan _) => false
  | a, b => pyEq a b

/-- An entry of `cross_session_excluded`. -/
structure CrossSession where
  implA : PyValue
  sessionA : PyValue
  implB : PyValue
  sessionB : PyValue

/-- What `report` returns. -/
structure Report where
  ratios : List (PyStr × PyFloat)
  crossSessionExcluded : List CrossSession

def crossEntry (p : Member × Member) : CrossSession := ⟨p.1.impl, p.1.sessionId, p.2.impl, p.2.sessionId⟩

/-- One turn of the inner loop. -/
def pairStep (out : Report) (p : Member × Member) : Except ReportError Report :=
  if plainEq p.1.impl p.2.impl then .ok out
  else if !plainEq p.1.sessionId p.2.sessionId then
    .ok { out with crossSessionExcluded := out.crossSessionExcluded ++ [crossEntry p] }
  else
    match ratioLabelAndValue repr p.1.impl p.2.impl p.1.wallS p.2.wallS with
    | .error e => .error e
    | .ok none => .ok out
    | .ok (some (label, value)) => .ok { out with ratios := setKey out.ratios label value }

/-- `report`. -/
def report (contents : List (Option Content)) : Except ReportError Report := do
  let entries ← contents.mapM okData
  let members ← entries.reduceOption.mapM keyed
  let groups := groupBy Prod.fst members
  (groups.flatMap fun g => pairsOf (g.2.map Prod.snd)).foldlM (pairStep repr) ⟨[], []⟩

end Ratios

end MlxTrainPerf.Bench
