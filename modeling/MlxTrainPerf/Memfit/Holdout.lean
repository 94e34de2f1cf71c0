import MlxTrainPerf.Lib.JsonText
import MlxTrainPerf.Memfit.Calibration
/-!
# Scoring a hold-out

`score_holdout` of `memfit/holdout.py`, from the bytes of a predictions file. Every field
is checked by hand before it is used, but a band's number goes to `math.isfinite` first,
which raises on an int that no float holds.
-/
open PyStr PyJson Budget

namespace MlxTrainPerf.Memfit

/-! ## Numbers -/

/-- A number that `math.isfinite` lets through. -/
inductive Finite
  | int (n : ℤ)
  | float (q : ℚ)
deriving DecidableEq, Repr

def Finite.value : Finite → ℚ
  | .int n => n
  | .float q => q

/-- A number of a comparison. -/
def intNum (n : ℤ) : Option PyNum := some (.finite n)

/-- `p * x`, for a float `x` and an int that is a float. -/
def scaleFloat (p : ℤ) : PyFloat → PyFloat
  | .finite q => roundDouble (p * q)
  | f => f

/-- `p * (1 + sign * x)`. -/
def Finite.scaled (sign : ℤ) (p : ℤ) : Finite → Option PyNum
  | .int n => intNum (p * (1 + sign * n))
  | .float q => (scaleFloat p (roundDouble (1 + sign * q))).num

/-! ## The report -/

/-- `HOLDOUT_FORMAT`. -/
def holdoutFormat : PyStr := lit "mlx-train-perf.holdout-predictions"

/-- `_MAX_BYTES`. -/
def maxBytes : ℤ := 2 ^ 53

/-- `HoldoutBand`, with what `__post_init__` asks of it. -/
structure HoldoutBand where
  underRel : Finite
  overRel : Finite
  under_nonneg : 0 ≤ underRel.value
  over_nonneg : 0 ≤ overRel.value

/-- `predicted * (1 - over_rel) <= measured <= predicted * (1 + under_rel)`. -/
def HoldoutBand.holds (band : HoldoutBand) (predicted measured : ℤ) : Bool :=
  numLe (band.overRel.scaled (-1) predicted) (intNum measured) && numLe (intNum measured) (band.underRel.scaled 1 predicted)

structure HoldoutPoint where
  label : PyKey
  predicted : ℤ
  measured : ℤ
  relError : PyFloat
  inBand : Bool

structure HoldoutReport where
  points : List HoldoutPoint
  outOfBand : List PyKey
  maxUnderRel : PyFloat
  unscored : List PyKey
  unpredicted : List PyKey
  band : HoldoutBand
  measuredQuantity : PyValue
  predictionsSha256 : PyStr

/-- The exceptions of `score_holdout`. -/
inductive PyException
  | memfitInputError
  | calibrationMismatchError
  | overflowError
deriving DecidableEq, Repr

/-- How `score_holdout` raises, with what the text prints. -/
inductive ScoreError
  | notJson
  | notDict (doc : PyValue)
  | badFormat
  | missingKey (key : String)
  | predictionsNotDict (predictions : PyValue)
  | notPositiveInt (what : String) (label : PyKey) (value : PyValue)
  | bandNotDict (band : PyValue)
  | bandKeys (keys : List PyKey)
  | bandNotNumber (key : String) (value : PyValue)
  | mismatch (quantity : PyValue) (expect : PyStr)
  | badBand (name : String) (value : PyValue)
  | tooLarge

def ScoreError.exception : ScoreError → PyException
  | .mismatch .. => .calibrationMismatchError
  | .tooLarge => .overflowError
  | _ => .memfitInputError

/-! ## The checks -/

/-- A positive int of at most `_MAX_BYTES`, and no bool. -/
def isPositiveInt : PyValue → Bool
  | .int n => decide (0 < n ∧ n ≤ maxBytes)
  | _ => false

/-- `_positive_ints`. -/
def positiveInts (values : List (PyKey × PyValue)) (what : String) : Except ScoreError Unit :=
  values.forM fun e => if isPositiveInt e.2 then .ok () else .error (.notPositiveInt what e.1 e.2)

/-- `doc[key]`. -/
def require (data : List (PyKey × PyValue)) (key : String) : Except ScoreError PyValue :=
  match lookup (.str (lit key)) data with
  | some v => .ok v
  | none => .error (.missingKey key)

/-- `json.loads(raw_bytes.decode("utf-8"))`, which must be a dict. -/
def readDoc (limit : ℕ) (raw : List Byte) : Except ScoreError (List (PyKey × PyValue)) :=
  match utf8Decode raw with
  | none => .error .notJson
  | some text =>
    match loads limit text with
    | .error _ => .error .notJson
    | .ok doc =>
      match decode doc with
      | .dict data => .ok data
      | v => .error (.notDict v)

/-- `required_band_keys`, in some order. -/
def requiredBandKeys : List String := ["under_rel", "over_rel"]

/-- `isinstance(value, (int, float))`, without the bools. -/
def isReal : PyValue → Bool
  | .int _ => true
  | .float _ => true
  | _ => false

/-- `band_dict[key]`, a real number. -/
def bandNumber (band : List (PyKey × PyValue)) (key : String) : Except ScoreError PyValue :=
  match lookup (.str (lit key)) band with
  | some v => if isReal v then .ok v else .error (.bandNotNumber key v)
  | none => .error (.bandKeys (band.map Prod.fst))

/-- A dict with exactly the band's keys, each a real number. -/
def bandItems (v : PyValue) : Except ScoreError (PyValue × PyValue) :=
  match v with
  | .dict band =>
    if (band.map Prod.fst).all (· ∈ requiredBandKeys.map fun k => PyKey.str (lit k)) &&
        requiredBandKeys.all (fun k => PyKey.str (lit k) ∈ band.map Prod.fst) then do
      let underRel ← bandNumber band "under_rel"
      let overRel ← bandNumber band "over_rel"
      return (underRel, overRel)
    else .error (.bandKeys (band.map Prod.fst))
  | v => .error (.bandNotDict v)

def dictItems (v : PyValue) : Except ScoreError (List (PyKey × PyValue)) :=
  match v with
  | .dict items => .ok items
  | v => .error (.predictionsNotDict v)

/-- What the checks leave. -/
structure Checked where
  quantity : PyValue
  predictions : List (PyKey × PyValue)
  underRel : PyValue
  overRel : PyValue

/-- The measured mapping, as the items of a dict. -/
def measuredItems (measured : List (PyStr × ℤ)) : List (PyKey × PyValue) :=
  measured.map fun e => (.str e.1, .int e.2)

/-- `score_holdout` up to its band. -/
def check (data : List (PyKey × PyValue)) (measured : List (PyStr × ℤ)) (expect : PyStr) : Except ScoreError Checked :=
  if !pyEq ((lookup (.str (lit "format")) data).getD .none) (.str holdoutFormat) ||
      !pyEq ((lookup (.str (lit "schema_version")) data).getD .none) (.int 1) then .error .badFormat
  else do
    let quantity ← require data "measured_quantity"
    let band ← require data "band"
    let predictions ← require data "predictions"
    let predictions ← dictItems predictions
    positiveInts predictions "prediction"
    let numbers ← bandItems band
    if !pyEq quantity (.str expect) then .error (.mismatch quantity expect)
    else do
      positiveInts (measuredItems measured) "measurement"
      return ⟨quantity, predictions, numbers.1, numbers.2⟩

/-- `math.isfinite(value)`, with the number where it is. -/
def isFinite : PyValue → Except ScoreError (Option Finite)
  | .int n => if floatOfInt n = none then .error .tooLarge else .ok (some (.int n))
  | .float (.finite q) => .ok (some (.float q))
  | _ => .ok none

/-- One turn of `__post_init__`, after `math.isfinite`. -/
def nonnegative (name : String) (v : PyValue) : Option Finite → Except ScoreError {x : Finite // 0 ≤ x.value}
  | some x => if h : 0 ≤ x.value then .ok ⟨x, h⟩ else .error (.badBand name v)
  | none => .error (.badBand name v)

def bandField (name : String) (v : PyValue) : Except ScoreError {x : Finite // 0 ≤ x.value} :=
  (isFinite v).bind (nonnegative name v)

/-- `HoldoutBand(**band_dict)`. -/
def holdoutBand (underRel overRel : PyValue) : Except ScoreError HoldoutBand := do
  let u ← bandField "under_rel" underRel
  let o ← bandField "over_rel" overRel
  return ⟨u.1, o.1, u.2, o.2⟩

/-! ## The scores -/

def intOf : PyValue → ℤ
  | .int n => n
  | _ => 0

/-- `max(a, b)` on floats. -/
def floatMax (a b : PyFloat) : PyFloat := if numLe b.num a.num then a else b

/-- The turn of a predicted label that was measured. -/
def scorePoint (band : HoldoutBand) (measured : List (PyKey × PyValue)) (e : PyKey × PyValue) : Option HoldoutPoint :=
  (lookup e.1 measured).map fun m =>
    ⟨e.1, intOf e.2, intOf m, roundDouble ((intOf m - intOf e.2 : ℤ) / (intOf e.2 : ℚ)), band.holds (intOf e.2) (intOf m)⟩

/-- Everything after the checks. -/
def scored (sha256 : List Byte → PyStr) (raw : List Byte) (measured : List (PyKey × PyValue)) (c : Checked)
    (band : HoldoutBand) : HoldoutReport :=
  let points := c.predictions.filterMap (scorePoint band measured)
  { points
    outOfBand := (points.filter fun p => !p.inBand).map (·.label)
    maxUnderRel := (points.map fun p => floatMax p.relError (.finite 0)).foldl floatMax (.finite 0)
    unscored := (c.predictions.map Prod.fst).filter fun k => (lookup k measured).isNone
    unpredicted := (measured.map Prod.fst).filter fun k => (lookup k c.predictions).isNone
    band, measuredQuantity := c.quantity, predictionsSha256 := sha256 raw }

/-- `score_holdout`, of a file with these bytes. -/
def scoreHoldout (sha256 : List Byte → PyStr) (limit : ℕ) (raw : List Byte) (measured : List (PyStr × ℤ)) (expect : PyStr) :
    Except ScoreError HoldoutReport := do
  let data ← readDoc limit raw
  let c ← check data measured expect
  let band ← holdoutBand c.underRel c.overRel
  return scored sha256 raw (measuredItems measured) c band

/-! ## The contract -/

section Contract
variable (limit : ℕ) (raw : List Byte) (measured : List (PyStr × ℤ)) (expect : PyStr)

/-- The file and the mapping pass every check made before the band is built. -/
structure Passes (c : Checked) : Prop where
  reads : ∃ text doc data band, utf8Decode raw = some text ∧ loads limit text = .ok doc ∧ decode doc = .dict data ∧
    pyEq ((lookup (.str (lit "format")) data).getD .none) (.str holdoutFormat) = true ∧
    pyEq ((lookup (.str (lit "schema_version")) data).getD .none) (.int 1) = true ∧
    lookup (.str (lit "measured_quantity")) data = some c.quantity ∧
    lookup (.str (lit "predictions")) data = some (.dict c.predictions) ∧
    lookup (.str (lit "band")) data = some (.dict band) ∧
    (∀ k, k ∈ band.map Prod.fst ↔ k = .str (lit "under_rel") ∨ k = .str (lit "over_rel")) ∧
    lookup (.str (lit "under_rel")) band = some c.underRel ∧ lookup (.str (lit "over_rel")) band = some c.overRel
  positive : ∀ e ∈ c.predictions, isPositiveInt e.2 = true
  underReal : isReal c.underRel = true
  overReal : isReal c.overRel = true
  quantity : pyEq c.quantity (.str expect) = true
  measured : ∀ e ∈ measured, 0 < e.2 ∧ e.2 ≤ maxBytes

/-- An int that no float holds. -/
def TooLarge (v : PyValue) : Prop := ∃ n, v = .int n ∧ floatOfInt n = none

/-- A finite number, not negative. -/
def Acceptable (v : PyValue) : Prop :=
  (∃ n, v = .int n ∧ floatOfInt n ≠ none ∧ 0 ≤ n) ∨ ∃ q, v = .float (.finite q) ∧ 0 ≤ q

/-- The file passes every check, and the first number of its band that `math.isfinite`
cannot take is reached. -/
def HugeBand : Prop :=
  ∃ c, Passes limit raw measured expect c ∧ (TooLarge c.underRel ∨ Acceptable c.underRel ∧ TooLarge c.overRel)

/-- What a report says of the predictions and the measurements. -/
structure Scores (predictions measured : List (PyKey × PyValue)) (report : HoldoutReport) : Prop where
  labels : (report.points.map (·.label) ++ report.unscored).Perm (predictions.map Prod.fst)
  points : ∀ p ∈ report.points, (p.label, PyValue.int p.predicted) ∈ predictions ∧
    lookup p.label measured = some (.int p.measured)
  inBand : ∀ p ∈ report.points, p.inBand = report.band.holds p.predicted p.measured
  unscored : ∀ k ∈ report.unscored, lookup k measured = none
  unpredicted : ∀ k, k ∈ report.unpredicted ↔ k ∈ measured.map Prod.fst ∧ lookup k predictions = none

/-- The number of the document is the number of the band. -/
def SameNumber (v : PyValue) (x : Finite) : Prop :=
  (∃ n, v = .int n ∧ x = .int n) ∨ ∃ q, v = .float (.finite q) ∧ x = .float q

/-- A report on the file's own predictions and band, or one of the two documented errors. -/
def Contract (sha256 : List Byte → PyStr) : Prop :=
  (∃ report c, scoreHoldout sha256 limit raw measured expect = .ok report ∧ Passes limit raw measured expect c ∧
    SameNumber c.underRel report.band.underRel ∧ SameNumber c.overRel report.band.overRel ∧
    Scores c.predictions (measuredItems measured) report) ∨
  ∃ e, scoreHoldout sha256 limit raw measured expect = .error e ∧
    (e.exception = .memfitInputError ∨ e.exception = .calibrationMismatchError)

end Contract

section Proof
variable {limit : ℕ} {raw : List Byte} {measured : List (PyStr × ℤ)} {expect : PyStr} {c : Checked} {v : PyValue}
  {data : List (PyKey × PyValue)}

/-! ### The checks -/

theorem positiveInts_eq_ok {values : List (PyKey × PyValue)} {what : String} {u : Unit} :
    positiveInts values what = .ok u ↔ ∀ e ∈ values, isPositiveInt e.2 = true := by
  rw [positiveInts, forM_eq_ok]
  refine forall₂_congr fun e _ => ?_
  split_ifs with h
  · exact iff_of_true rfl h
  · exact iff_of_false (by simp) h

theorem require_eq_ok {key : String} : require data key = .ok v ↔ lookup (.str (lit key)) data = some v := by
  unfold require
  cases lookup (.str (lit key)) data with
  | none => simp
  | some w => simp

theorem readDoc_eq_ok : readDoc limit raw = .ok data ↔
    ∃ text doc, utf8Decode raw = some text ∧ loads limit text = .ok doc ∧ decode doc = .dict data := by
  unfold readDoc
  cases hutf : utf8Decode raw with
  | none => simp
  | some text =>
    cases hload : loads limit text with
    | error e => simp [hload]
    | ok doc =>
      simp only [Option.some.injEq, exists_and_left, exists_eq_left', hload, Except.ok.injEq]
      cases hdoc : decode doc with
      | dict items => simp
      | _ => simp

theorem bandNumber_eq_ok {band : List (PyKey × PyValue)} {key : String} :
    bandNumber band key = .ok v ↔ lookup (.str (lit key)) band = some v ∧ isReal v = true := by
  unfold bandNumber
  cases lookup (.str (lit key)) band with
  | none => simp
  | some w =>
    dsimp only
    split_ifs with h
    · simp only [Except.ok.injEq, Option.some.injEq]
      exact ⟨fun heq => ⟨heq, heq ▸ h⟩, And.left⟩
    · simp only [Option.some.injEq, false_iff]
      rintro ⟨rfl, hreal⟩
      exact h hreal

theorem bandItems_eq_ok {u o : PyValue} : bandItems v = .ok (u, o) ↔ ∃ band, v = .dict band ∧
    (∀ k, k ∈ band.map Prod.fst ↔ k = .str (lit "under_rel") ∨ k = .str (lit "over_rel")) ∧
    (lookup (.str (lit "under_rel")) band = some u ∧ isReal u = true) ∧
    lookup (.str (lit "over_rel")) band = some o ∧ isReal o = true := by
  unfold bandItems
  cases v with
  | dict band =>
    have hkeys : ((band.map Prod.fst).all (· ∈ requiredBandKeys.map fun k => PyKey.str (lit k)) &&
        requiredBandKeys.all (fun k => PyKey.str (lit k) ∈ band.map Prod.fst)) = true ↔
        ∀ k, k ∈ band.map Prod.fst ↔ k = .str (lit "under_rel") ∨ k = .str (lit "over_rel") := by
      simp only [requiredBandKeys, List.map_cons, List.map_nil, Bool.and_eq_true, List.all_eq_true, decide_eq_true_eq,
        List.mem_cons, List.not_mem_nil, or_false, forall_eq_or_imp, forall_eq]
      constructor
      · rintro ⟨hall, hu, ho⟩ k
        exact ⟨hall k, by rintro (rfl | rfl) <;> assumption⟩
      · intro h
        exact ⟨fun k hk => (h k).1 hk, (h _).2 (.inl rfl), (h _).2 (.inr rfl)⟩
    dsimp only
    split_ifs with h
    · simp only [bind_eq_ok, bandNumber_eq_ok]
      constructor
      · rintro ⟨u', hu, o', ho, hret⟩
        obtain ⟨rfl, rfl⟩ := Prod.mk.inj (Except.ok.inj hret)
        exact ⟨band, rfl, hkeys.1 h, hu, ho⟩
      · rintro ⟨band', hband, -, hu, ho⟩
        obtain rfl := PyValue.dict.inj hband
        exact ⟨u, hu, o, ho, rfl⟩
    · refine iff_of_false (by simp) ?_
      rintro ⟨band', hband, hk, -⟩
      obtain rfl := PyValue.dict.inj hband
      exact h (hkeys.2 hk)
  | _ => simp

theorem isPositiveInt_iff : isPositiveInt v = true ↔ ∃ n, v = .int n ∧ 0 < n ∧ n ≤ maxBytes := by
  cases v with
  | int n => simp [isPositiveInt]
  | _ => simp [isPositiveInt]

theorem measuredItems_positive :
    (∀ e ∈ measuredItems measured, isPositiveInt e.2 = true) ↔ ∀ e ∈ measured, 0 < e.2 ∧ e.2 ≤ maxBytes := by
  rw [measuredItems, List.forall_mem_map]
  exact forall₂_congr fun e _ => decide_eq_true_iff

theorem dictItems_eq_ok {items : List (PyKey × PyValue)} : dictItems v = .ok items ↔ v = .dict items := by
  cases v with
  | dict w => simp [dictItems]
  | _ => simp [dictItems]

theorem check_eq_ok : check data measured expect = .ok c ↔
    (pyEq ((lookup (.str (lit "format")) data).getD .none) (.str holdoutFormat) = true ∧
      pyEq ((lookup (.str (lit "schema_version")) data).getD .none) (.int 1) = true) ∧
    lookup (.str (lit "measured_quantity")) data = some c.quantity ∧
    lookup (.str (lit "predictions")) data = some (.dict c.predictions) ∧
    (∀ e ∈ c.predictions, isPositiveInt e.2 = true) ∧
    (∃ band, lookup (.str (lit "band")) data = some band ∧ bandItems band = .ok (c.underRel, c.overRel)) ∧
    pyEq c.quantity (.str expect) = true ∧ ∀ e ∈ measured, 0 < e.2 ∧ e.2 ≤ maxBytes := by
  unfold check
  split_ifs with hformat
  · refine iff_of_false (by simp) ?_
    rintro ⟨⟨hf, hv⟩, -⟩
    simp [hf, hv] at hformat
  · have hpass : pyEq ((lookup (.str (lit "format")) data).getD .none) (.str holdoutFormat) = true ∧
        pyEq ((lookup (.str (lit "schema_version")) data).getD .none) (.int 1) = true := by
      simpa using hformat
    simp only [bind_eq_ok, require_eq_ok, dictItems_eq_ok, positiveInts_eq_ok]
    constructor
    · rintro ⟨quantity, hq, band, hb, _, hp, predictions, rfl, -, hpos, ⟨u, o⟩, hnum, hrest⟩
      split_ifs at hrest with hmis
      obtain ⟨_, hmeas, hret⟩ := bind_eq_ok.1 hrest
      obtain rfl := Except.ok.inj hret
      exact ⟨hpass, hq, hp, hpos, ⟨band, hb, hnum⟩, by simpa using hmis, measuredItems_positive.1 (positiveInts_eq_ok.1 hmeas)⟩
    · rintro ⟨-, hq, hp, hpos, ⟨band, hb, hnum⟩, hmatch, hmeas⟩
      refine ⟨c.quantity, hq, band, hb, _, hp, c.predictions, rfl, (), hpos, _, hnum, ?_⟩
      rw [hmatch]
      exact bind_eq_ok.2 ⟨(), positiveInts_eq_ok.2 (measuredItems_positive.2 hmeas), rfl⟩

/-- The checks pass exactly as `Passes` says. -/
theorem passes_iff : (∃ data, readDoc limit raw = .ok data ∧ check data measured expect = .ok c) ↔
    Passes limit raw measured expect c := by
  simp only [readDoc_eq_ok, check_eq_ok, bandItems_eq_ok]
  constructor
  · rintro ⟨data, ⟨text, doc, ht, hl, hd⟩, ⟨hf, hv⟩, hq, hp, hpos, ⟨_, hb, band, rfl, hk, ⟨hu, hur⟩, ho, hor⟩, hm, hmeas⟩
    exact ⟨⟨text, doc, data, band, ht, hl, hd, hf, hv, hq, hp, hb, hk, hu, ho⟩, hpos, hur, hor, hm, hmeas⟩
  · rintro ⟨⟨text, doc, data, band, ht, hl, hd, hf, hv, hq, hp, hb, hk, hu, ho⟩, hpos, hur, hor, hm, hmeas⟩
    exact ⟨data, ⟨text, doc, ht, hl, hd⟩, ⟨hf, hv⟩, hq, hp, hpos, ⟨_, hb, band, rfl, hk, ⟨hu, hur⟩, ho, hor⟩, hm, hmeas⟩

/-! ### What the checks raise -/

/-- Only the two documented errors. -/
def Documented {α : Type} (x : Except ScoreError α) : Prop :=
  ∀ e, x = .error e → e.exception = .memfitInputError ∨ e.exception = .calibrationMismatchError

section Documented
variable {α β : Type} {x : Except ScoreError α} {f : α → Except ScoreError β} {a : α} {e : ScoreError}

theorem documented_ok : Documented (.ok a : Except ScoreError α) := fun _ h => by cases h

theorem documented_error (h : e.exception = .memfitInputError ∨ e.exception = .calibrationMismatchError) :
    Documented (.error e : Except ScoreError α) := fun e' he => by
  obtain rfl := Except.error.inj he
  exact h

theorem documented_bind (hx : Documented x) (hf : ∀ a, Documented (f a)) : Documented (x >>= f) := by
  intro e h
  rcases bind_eq_error.1 h with h | ⟨a, -, h⟩
  · exact hx e h
  · exact hf a e h

end Documented

theorem readDoc_documented : Documented (readDoc limit raw) := by
  unfold readDoc
  split
  · exact documented_error (.inl rfl)
  · split
    · exact documented_error (.inl rfl)
    · split
      · exact documented_ok
      · exact documented_error (.inl rfl)

theorem require_documented {key : String} : Documented (require data key) := by
  unfold require
  split
  · exact documented_ok
  · exact documented_error (.inl rfl)

theorem dictItems_documented : Documented (dictItems v) := by
  unfold dictItems
  split
  · exact documented_ok
  · exact documented_error (.inl rfl)

theorem positiveInts_documented {values : List (PyKey × PyValue)} {what : String} :
    Documented (positiveInts values what) := by
  induction values with
  | nil => exact documented_ok
  | cons x xs ih =>
    refine documented_bind ?_ fun _ => ih
    dsimp only
    split
    · exact documented_ok
    · exact documented_error (.inl rfl)

theorem bandItems_documented : Documented (bandItems v) := by
  have hnumber : ∀ {band : List (PyKey × PyValue)} {key : String}, Documented (bandNumber band key) := by
    intro band key
    unfold bandNumber
    split
    · split
      · exact documented_ok
      · exact documented_error (.inl rfl)
    · exact documented_error (.inl rfl)
  unfold bandItems
  split
  · split
    · exact documented_bind hnumber fun _ => documented_bind hnumber fun _ => documented_ok
    · exact documented_error (.inl rfl)
  · exact documented_error (.inl rfl)

theorem check_documented : Documented (check data measured expect) := by
  unfold check
  split
  · exact documented_error (.inl rfl)
  · refine documented_bind require_documented fun quantity => documented_bind require_documented fun band => ?_
    refine documented_bind require_documented fun v => documented_bind dictItems_documented fun predictions => ?_
    refine documented_bind positiveInts_documented fun _ => documented_bind bandItems_documented fun numbers => ?_
    split
    · exact documented_error (.inr rfl)
    · exact documented_bind positiveInts_documented fun _ => documented_ok

/-! ### The band -/

theorem isFinite_int (n : ℤ) :
    isFinite (.int n) = if floatOfInt n = none then .error .tooLarge else .ok (some (.int n)) := by
  rw [isFinite]

theorem tooLarge_int {n : ℤ} : TooLarge (.int n) ↔ floatOfInt n = none := by
  constructor
  · rintro ⟨n', hn, hnone⟩
    obtain rfl := PyValue.int.inj hn
    exact hnone
  · exact fun h => ⟨n, rfl, h⟩

theorem not_tooLarge_float (f : PyFloat) : ¬ TooLarge (.float f) := by
  rintro ⟨n, hn, -⟩
  cases hn

theorem acceptable_int {n : ℤ} : Acceptable (.int n) ↔ floatOfInt n ≠ none ∧ 0 ≤ n := by
  constructor
  · rintro (⟨n', hn, hfit, hnn⟩ | ⟨q, hq, -⟩)
    · obtain rfl := PyValue.int.inj hn
      exact ⟨hfit, hnn⟩
    · cases hq
  · exact fun h => .inl ⟨n, rfl, h.1, h.2⟩

theorem acceptable_float {f : PyFloat} : Acceptable (.float f) ↔ ∃ q, f = .finite q ∧ 0 ≤ q := by
  constructor
  · rintro (⟨n, hn, -⟩ | ⟨q, hq, hnn⟩)
    · cases hn
    · exact ⟨q, PyValue.float.inj hq, hnn⟩
  · rintro ⟨q, rfl, hnn⟩
    exact .inr ⟨q, rfl, hnn⟩

/-- A field of the band: too large, refused, or the number itself. -/
theorem bandField_cases (name : String) (hv : isReal v = true) :
    TooLarge v ∧ bandField name v = .error .tooLarge ∨
      ¬ TooLarge v ∧ ¬ Acceptable v ∧ bandField name v = .error (.badBand name v) ∨
      ¬ TooLarge v ∧ Acceptable v ∧ ∃ x, bandField name v = .ok x ∧ SameNumber v x.1 := by
  cases v with
  | int n =>
    rw [tooLarge_int, acceptable_int]
    by_cases hf : floatOfInt n = none
    · exact .inl ⟨hf, by rw [bandField, isFinite_int, if_pos hf, Except.bind]⟩
    · right
      have hfield : bandField name (.int n) = nonnegative name (.int n) (some (.int n)) := by
        rw [bandField, isFinite_int, if_neg hf, Except.bind]
      rw [hfield, nonnegative]
      by_cases hn : 0 ≤ n
      · have hx : 0 ≤ (Finite.int n).value := Int.cast_nonneg hn
        exact .inr ⟨hf, ⟨hf, hn⟩, ⟨.int n, hx⟩, dif_pos hx, .inl ⟨n, rfl, rfl⟩⟩
      · have hx : ¬ 0 ≤ (Finite.int n).value := fun h => hn (Int.cast_nonneg_iff.1 h)
        exact .inl ⟨hf, fun h => hn h.2, dif_neg hx⟩
  | float f =>
    right
    rw [acceptable_float]
    have hfit := not_tooLarge_float f
    cases f with
    | finite q =>
      have hfield : bandField name (.float (.finite q)) = nonnegative name (.float (.finite q)) (some (.float q)) := rfl
      rw [hfield, nonnegative]
      by_cases hq : 0 ≤ (Finite.float q).value
      · exact .inr ⟨hfit, ⟨q, rfl, hq⟩, ⟨.float q, hq⟩, dif_pos hq, .inr ⟨q, rfl, rfl⟩⟩
      · refine .inl ⟨hfit, ?_, dif_neg hq⟩
        rintro ⟨q', hq', hnn⟩
        obtain rfl := PyFloat.finite.inj hq'
        exact hq hnn
    | inf neg => exact .inl ⟨hfit, fun ⟨q, hq, _⟩ => (by cases hq), rfl⟩
    | nan object => exact .inl ⟨hfit, fun ⟨q, hq, _⟩ => (by cases hq), rfl⟩
  | _ => cases hv

/-- The band: built, refused, or stopped at the first number that is too large. -/
theorem holdoutBand_cases {u o : PyValue} (hu : isReal u = true) (ho : isReal o = true) :
    (TooLarge u ∨ Acceptable u ∧ TooLarge o) ∧ holdoutBand u o = .error .tooLarge ∨
      ¬ (TooLarge u ∨ Acceptable u ∧ TooLarge o) ∧
        ((∃ band, holdoutBand u o = .ok band ∧ SameNumber u band.underRel ∧ SameNumber o band.overRel) ∨
          ∃ e, holdoutBand u o = .error e ∧ e.exception = .memfitInputError) := by
  unfold holdoutBand
  rcases bandField_cases "under_rel" hu with ⟨hbig, herr⟩ | ⟨hnot, hbad, herr⟩ | ⟨hnot, hacc, x, hx, hsame⟩
  · rw [herr]
    exact .inl ⟨.inl hbig, rfl⟩
  · rw [herr]
    refine .inr ⟨?_, .inr ⟨_, rfl, rfl⟩⟩
    rintro (h | ⟨h, -⟩)
    · exact hnot h
    · exact hbad h
  rw [hx]
  rcases bandField_cases "over_rel" ho with ⟨hbig, herr⟩ | ⟨hnot', hbad, herr⟩ | ⟨hnot', hacc', y, hy, hsame'⟩
  · rw [herr]
    exact .inl ⟨.inr ⟨hacc, hbig⟩, rfl⟩
  · rw [herr]
    refine .inr ⟨?_, .inr ⟨_, rfl, rfl⟩⟩
    rintro (h | ⟨-, h⟩)
    · exact hnot h
    · exact hnot' h
  · rw [hy]
    refine .inr ⟨?_, .inl ⟨_, rfl, hsame, hsame'⟩⟩
    rintro (h | ⟨-, h⟩)
    · exact hnot h
    · exact hnot' h

/-! ### The report -/

theorem mem_of_lookup {k : PyKey} {items : List (PyKey × PyValue)} (h : lookup k items = some v) :
    ∃ k', (k', v) ∈ items := by
  induction items with
  | nil => cases h
  | cons e rest ih =>
    rw [lookup] at h
    split_ifs at h with hk
    · obtain rfl := Option.some.inj h
      exact ⟨e.1, List.mem_cons_self⟩
    · obtain ⟨k', hk'⟩ := ih h
      exact ⟨k', List.mem_cons_of_mem _ hk'⟩

/-- The points that are scored are the predictions with a measurement. -/
theorem labels_scorePoint (band : HoldoutBand) (measured predictions : List (PyKey × PyValue)) :
    (predictions.filterMap (scorePoint band measured)).map (·.label) =
      (predictions.map Prod.fst).filter fun k => (lookup k measured).isSome := by
  induction predictions with
  | nil => rfl
  | cons e rest ih =>
    rw [List.filterMap_cons, List.map_cons, List.filter_cons, scorePoint]
    cases hm : lookup e.1 measured with
    | none => simpa using ih
    | some m => simpa using ih

theorem scored_scores (sha256 : List Byte → PyStr) (band : HoldoutBand)
    (hpos : ∀ e ∈ c.predictions, isPositiveInt e.2 = true) :
    Scores c.predictions (measuredItems measured) (scored sha256 raw (measuredItems measured) c band) := by
  have hpoint : ∀ p ∈ c.predictions.filterMap (scorePoint band (measuredItems measured)),
      ((p.label, PyValue.int p.predicted) ∈ c.predictions ∧ lookup p.label (measuredItems measured) = some (.int p.measured)) ∧
        p.inBand = band.holds p.predicted p.measured := by
    intro p hp
    obtain ⟨e, he, hscore⟩ := List.mem_filterMap.1 hp
    obtain ⟨m, hm, rfl⟩ := Option.map_eq_some_iff.1 hscore
    obtain ⟨n, hn, -⟩ := isPositiveInt_iff.1 (hpos e he)
    obtain ⟨k', hk'⟩ := mem_of_lookup hm
    obtain ⟨d, -, hd⟩ := List.mem_map.1 hk'
    obtain ⟨-, rfl⟩ := Prod.mk.inj hd
    refine ⟨⟨?_, hm⟩, rfl⟩
    have hval : PyValue.int (intOf e.2) = e.2 := by rw [hn]; rfl
    dsimp only
    rw [hval]
    exact he
  refine ⟨?_, fun p hp => (hpoint p hp).1, fun p hp => (hpoint p hp).2, ?_, ?_⟩
  · dsimp only [scored]
    rw [labels_scorePoint]
    have hnot : (fun k => (lookup k (measuredItems measured)).isNone) =
        fun k => !(lookup k (measuredItems measured)).isSome := funext fun k => by cases lookup k (measuredItems measured) <;> rfl
    rw [hnot]
    exact List.filter_append_perm _ _
  · intro k hk
    have h := (List.mem_filter.1 hk).2
    simpa using h
  · intro k
    simp [scored, List.mem_filter]

/-- After the checks only the band is left to fail. -/
theorem scoreHoldout_eq (sha256 : List Byte → PyStr) (hread : readDoc limit raw = .ok data)
    (hcheck : check data measured expect = .ok c) :
    scoreHoldout sha256 limit raw measured expect =
      (holdoutBand c.underRel c.overRel).map (scored sha256 raw (measuredItems measured) c) := by
  rw [scoreHoldout, hread]
  change (check data measured expect >>= _) = _
  rw [hcheck]
  change (holdoutBand c.underRel c.overRel >>= _) = _
  cases holdoutBand c.underRel c.overRel with
  | error e => rfl
  | ok band => rfl

theorem scoreHoldout_eq_error (sha256 : List Byte → PyStr) {e : ScoreError}
    (h : readDoc limit raw = .error e ∨ ∃ data, readDoc limit raw = .ok data ∧ check data measured expect = .error e) :
    scoreHoldout sha256 limit raw measured expect = .error e := by
  rw [scoreHoldout]
  rcases h with h | ⟨data, hread, hcheck⟩
  · rw [h]
    rfl
  · rw [hread]
    change (check data measured expect >>= _) = _
    rw [hcheck]
    rfl

/-- Every file and mapping get a true report or a documented error, except where an int of
the band that no float holds is reached. -/
theorem scoreHoldout_contract_iff (sha256 : List Byte → PyStr) :
    Contract limit raw measured expect sha256 ↔ ¬ HugeBand limit raw measured expect := by
  unfold Contract HugeBand
  cases hread : readDoc limit raw with
  | error e =>
    refine iff_of_true (.inr ⟨e, scoreHoldout_eq_error sha256 (.inl hread), readDoc_documented e hread⟩) ?_
    rintro ⟨c, hpass, -⟩
    obtain ⟨data, hdata, -⟩ := passes_iff.2 hpass
    rw [hread] at hdata
    cases hdata
  | ok data =>
  have huniq : ∀ c', Passes limit raw measured expect c' → check data measured expect = .ok c' := by
    intro c' hpass'
    obtain ⟨data', hdata, hc⟩ := passes_iff.2 hpass'
    obtain rfl := Except.ok.inj (hread.symm.trans hdata)
    exact hc
  cases hcheck : check data measured expect with
  | error e =>
    refine iff_of_true (.inr ⟨e, scoreHoldout_eq_error sha256 (.inr ⟨data, hread, hcheck⟩), check_documented e hcheck⟩) ?_
    rintro ⟨c, hpass, -⟩
    have hc := huniq c hpass
    rw [hcheck] at hc
    cases hc
  | ok c =>
    have hpass : Passes limit raw measured expect c := passes_iff.1 ⟨data, hread, hcheck⟩
    have hhuge : (∃ c, Passes limit raw measured expect c ∧
        (TooLarge c.underRel ∨ Acceptable c.underRel ∧ TooLarge c.overRel)) ↔
          TooLarge c.underRel ∨ Acceptable c.underRel ∧ TooLarge c.overRel := by
      constructor
      · rintro ⟨c', hpass', h⟩
        obtain rfl := Except.ok.inj (hcheck.symm.trans (huniq c' hpass'))
        exact h
      · exact fun h => ⟨c, hpass, h⟩
    rw [hhuge, scoreHoldout_eq sha256 hread hcheck]
    rcases holdoutBand_cases hpass.underReal hpass.overReal with
      ⟨hbig, herr⟩ | ⟨hnot, ⟨band, hband, hu, ho⟩ | ⟨e, herr, hmem⟩⟩
    · refine iff_of_false ?_ (not_not_intro hbig)
      rw [herr]
      rintro (⟨report, c', h, -⟩ | ⟨e, h, hdoc⟩)
      · cases h
      · obtain rfl := Except.error.inj h
        rcases hdoc with hdoc | hdoc <;> cases hdoc
    · refine iff_of_true (.inl ⟨_, c, by rw [hband]; rfl, hpass, hu, ho, ?_⟩) hnot
      exact scored_scores sha256 band hpass.positive
    · exact iff_of_true (.inr ⟨e, by rw [herr]; rfl, .inl hmem⟩) hnot

end Proof

/-- A predictions file of one label, whose band allows `10 ^ 309` times the prediction. -/
def hugeBandFile : List Byte :=
  asciiBytes "\x7b\"format\": \"mlx-train-perf.holdout-predictions\", \"schema_version\": 1, \"measured_quantity\": \"q\", " ++
    asciiBytes "\"band\": \x7b\"under_rel\": 1" ++ List.replicate 309 48 ++
    asciiBytes ", \"over_rel\": 0\x7d, \"predictions\": \x7b\"a\": 1\x7d\x7d"

/-- `OverflowError`. -/
def raisesOverflow {α : Type} : Except ScoreError α → Bool
  | .error .tooLarge => true
  | _ => false

theorem scoreHoldout_hugeBand :
    ¬ Contract 1000 hugeBandFile [(lit "a", 1)] (lit "q") fun _ => lit "sha" := by
  have hraises : raisesOverflow (scoreHoldout (fun _ => lit "sha") 1000 hugeBandFile [(lit "a", 1)] (lit "q")) = true := by
    decide +kernel
  rintro (⟨report, c, h, -⟩ | ⟨e, h, hdoc⟩)
  · rw [h] at hraises
    cases hraises
  · rw [h] at hraises
    cases e with
    | tooLarge => rcases hdoc with hdoc | hdoc <;> cases hdoc
    | _ => cases hraises

end MlxTrainPerf.Memfit
