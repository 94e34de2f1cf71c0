import MlxTrainPerf.Lib.PyJson
/-!
# Calibration files

`memfit/calibration.py`. The writer only asks whether JSON holds the values; the reader
asks more, and turns every coefficient into a float. So a file comes back exactly when
it is `survives` (`calibrationFile_roundTrip_iff`). A file is the document its text
spells.
-/
open PyStr PyJson Budget

namespace MlxTrainPerf.Memfit

/-! ## `float(n)` -/

/-- `n / 2 ^ e`, to the nearest, ties to even. -/
def divHalfEven (n e : ℕ) : ℕ :=
  if 2 * (n % 2 ^ e) < 2 ^ e ∨ 2 * (n % 2 ^ e) = 2 ^ e ∧ n / 2 ^ e % 2 = 0 then n / 2 ^ e else n / 2 ^ e + 1

/-- The double nearest to `n`, if there is one: 53 bits, below `2 ^ 1024`. -/
def doubleOfNat (n : ℕ) : Option ℕ :=
  let e := Nat.log2 n - 52
  let m := divHalfEven n e * 2 ^ e
  if Nat.log2 m < 1024 then some m else none

/-- `float(n)`; `none` is `OverflowError`. -/
def floatOfInt (n : ℤ) : Option ℤ := (doubleOfNat n.natAbs).map fun (m : ℕ) => if n < 0 then -(m : ℤ) else m

/-! ## The file -/

/-- `CALIBRATION_FORMAT`. -/
def calibrationFormat : PyStr := lit "mlx-train-perf.calibration"

/-- `_SCHEMA_VERSION`. -/
def schemaVersion : ℤ := 1

/-- The dataclass, which checks none of its fields. -/
structure CalibrationFile where
  measuredQuantity : PyValue
  coefficients : PyValue
  provenance : PyValue
  terms : PyValue
  holdout : PyValue
  schemaVersion : PyValue

/-- `MemfitInputError`, with what its text prints, and `CalibrationMismatchError`. -/
inductive CalibrationFileError
  | cannotWrite (version : PyValue)
  | notSerializable
  | badFormat
  | unsupportedSchema (version : Option PyValue)
  | quantityNotString
  | mismatch (quantity : PyStr) (expect : PyValue)
  | badHoldout
  | notObject (field : String)
  | notString (field : String) (key : PyKey) (value : PyValue)
  | notNumber (field : String) (key : PyKey) (value : PyValue)
  | tooLarge (field : String) (key : PyKey)

/-- `_str_map`. -/
def strMap (raw : Option PyValue) (field : String) : Except CalibrationFileError PyValue :=
  match raw with
  | some (.dict items) =>
    match items.find? fun e => match e.2 with | .str _ => false | _ => true with
    | some e => .error (.notString field e.1 e.2)
    | none => .ok (.dict items)
  | _ => .error (.notObject field)

/-- `float(value)` of an item, unless it is refused. -/
def number (field : String) (e : PyKey × PyValue) : Except CalibrationFileError (PyKey × PyValue) :=
  match e.2 with
  | .int n =>
    match floatOfInt n with
    | some q => .ok (e.1, .float (.finite q))
    | none => .error (.tooLarge field e.1)
  | .float (.finite q) => .ok (e.1, .float (.finite q))
  | value => .error (.notNumber field e.1 value)

/-- `_number_map`. -/
def numberMap (raw : Option PyValue) (field : String) : Except CalibrationFileError PyValue :=
  match raw with
  | some (.dict items) => do return .dict (← items.mapM (number field))
  | _ => .error (.notObject field)

/-- `holdout is not None and not isinstance(holdout, dict)`, refused. -/
def checkHoldout (holdout : PyValue) : Except CalibrationFileError Unit :=
  match holdout with
  | .none => .ok ()
  | .dict _ => .ok ()
  | _ => .error .badHoldout

/-- `load_calibration_file`, of a file whose text is the document. -/
def loadCalibrationFile (doc : Json) (expectQuantity : PyValue) : Except CalibrationFileError CalibrationFile :=
  match decode doc with
  | .dict raw =>
    let get := fun key => lookup (.str (lit key)) raw
    if !pyEq ((get "format").getD .none) (.str calibrationFormat) then .error .badFormat
    else if !pyEq ((get "schema_version").getD .none) (.int schemaVersion) then .error (.unsupportedSchema (get "schema_version"))
    else
      match get "measured_quantity" with
      | some (.str quantity) =>
        if !pyEq (.str quantity) expectQuantity then .error (.mismatch quantity expectQuantity)
        else do
          let holdout := (get "holdout").getD .none
          checkHoldout holdout
          let coefficients ← numberMap (get "coefficients") "coefficients"
          let provenance ← strMap (some ((get "provenance").getD (.dict []))) "provenance"
          let terms ← strMap (some ((get "terms").getD (.dict []))) "terms"
          return ⟨.str quantity, coefficients, provenance, terms, holdout, .int schemaVersion⟩
      | _ => .error .quantityNotString
  | _ => .error .badFormat

mutual

/-- Does `allow_nan=False` take the value? -/
def allFinite : PyValue → Bool
  | .float (.finite _) => true
  | .float _ => false
  | .list xs => allFiniteList xs
  | .tuple xs => allFiniteList xs
  | .dict items => allFiniteItems items
  | _ => true

def allFiniteList : List PyValue → Bool
  | [] => true
  | x :: xs => allFinite x && allFiniteList xs

def allFiniteItems : List (PyKey × PyValue) → Bool
  | [] => true
  | (k, x) :: rest =>
    (match k with
      | .float (.finite _) _ => true
      | .float _ _ => false
      | _ => true) && allFinite x && allFiniteItems rest

end

/-- `doc`. -/
def CalibrationFile.doc (cal : CalibrationFile) : List (PyStr × PyValue) :=
  [(lit "format", .str calibrationFormat), (lit "schema_version", cal.schemaVersion),
    (lit "measured_quantity", cal.measuredQuantity), (lit "coefficients", cal.coefficients), (lit "terms", cal.terms),
    (lit "provenance", cal.provenance), (lit "holdout", cal.holdout)]

/-- `dump_calibration_file`: the document it writes. -/
def dumpCalibrationFile (cal : CalibrationFile) : Except CalibrationFileError Json :=
  if !pyEq cal.schemaVersion (.int schemaVersion) then .error (.cannotWrite cal.schemaVersion)
  else
    let doc := PyValue.dict (strItems cal.doc)
    if allFinite doc then (encode doc).mapError fun _ => .notSerializable else .error .notSerializable

/-! ## What survives -/

/-- A number that `float` keeps. -/
def exactNumber : PyValue → Bool
  | .int n => floatOfInt n == some n
  | .float (.finite _) => true
  | _ => false

/-- A dict of such numbers, with keys that JSON gives back. -/
def numbersSurvive : PyValue → Bool
  | .dict items => decide (items.map Prod.fst).Nodup && items.all fun e => stableKey e.1 && exactNumber e.2
  | _ => false

def isStr : PyValue → Bool
  | .str _ => true
  | _ => false

/-- A dict of strings that JSON gives back. -/
def stringsSurvive : PyValue → Bool
  | .dict items => stable (.dict items) && items.all fun e => isStr e.2
  | _ => false

def holdoutSurvives : PyValue → Bool
  | .none => true
  | .dict items => stable (.dict items)
  | _ => false

/-- Does the file come back? -/
def CalibrationFile.survives (cal : CalibrationFile) : Bool :=
  isStr cal.measuredQuantity && stable cal.measuredQuantity && numbersSurvive cal.coefficients &&
    stringsSurvive cal.provenance && stringsSurvive cal.terms && holdoutSurvives cal.holdout

/-- `a == b`, field by field. -/
structure SameFile (a b : CalibrationFile) : Prop where
  measuredQuantity : pyEq a.measuredQuantity b.measuredQuantity = true
  coefficients : pyEq a.coefficients b.coefficients = true
  provenance : pyEq a.provenance b.provenance = true
  terms : pyEq a.terms b.terms = true
  holdout : pyEq a.holdout b.holdout = true
  schemaVersion : pyEq a.schemaVersion b.schemaVersion = true

/-! ## What each check leaves -/

section Checks
variable {v u w t : PyValue} {field : String} {items : List (PyKey × PyValue)} {D D' : List (PyStr × PyValue)}

theorem isStr_iff : isStr v = true ↔ v.kind = .str := by
  cases v with
  | _ => simp [isStr, PyValue.kind]

theorem kind_eq_dict : v.kind = .dict ↔ ∃ items, v = .dict items := by
  cases v with
  | _ => simp [PyValue.kind]

theorem numEq_comm (a b : Option PyNum) : numEq a b = numEq b a := by
  unfold numEq
  cases a with
  | none => cases b <;> rfl
  | some x =>
    cases b with
    | none => rfl
    | some y => exact Bool.beq_comm

/-- The version that may be written comes back as the version that is read. -/
theorem schema_hop (h : pyEq v (.int schemaVersion) = true) (hu : hop v = .ok u) :
    pyEq u (.int schemaVersion) = true ∧ pyEq (.int schemaVersion) v = true := by
  have hsym : pyEq (.int schemaVersion) v = true := by
    cases v with
    | bool b =>
      simp only [pyEq, atomEq] at h ⊢
      rwa [numEq_comm]
    | int n =>
      simp only [pyEq, atomEq] at h ⊢
      rwa [numEq_comm]
    | float f =>
      simp only [pyEq, atomEq] at h ⊢
      rwa [numEq_comm]
    | _ => simp [pyEq, atomEq, numEq, PyValue.num] at h
  refine ⟨?_, hsym⟩
  obtain ⟨doc, hdoc, rfl⟩ := hop_eq_ok.1 hu
  cases v with
  | bool b =>
    obtain rfl := Except.ok.inj hdoc
    exact h
  | int n =>
    rw [encode] at hdoc
    split at hdoc
    · cases hdoc
    · obtain rfl := Except.ok.inj hdoc
      exact h
  | float f =>
    obtain rfl := Except.ok.inj hdoc
    cases f with
    | finite q => exact h
    | inf neg => exact h
    | nan object => simp [pyEq, atomEq, numEq, PyValue.num, PyFloat.num] at h
  | _ => simp [pyEq, atomEq, numEq, PyValue.num] at h

/-! ### Strings -/

theorem strMap_eq_ok {raw : Option PyValue} :
    strMap raw field = .ok t ↔ ∃ items, raw = some (.dict items) ∧ (∀ e ∈ items, isStr e.2 = true) ∧ t = .dict items := by
  unfold strMap
  split
  · next items =>
    split
    · next e hfind =>
      have hbad := List.find?_some hfind
      refine iff_of_false (by simp) ?_
      rintro ⟨items', hitems, hall, -⟩
      obtain rfl := PyValue.dict.inj (Option.some.inj hitems)
      have hstr := hall e (List.mem_of_find?_eq_some hfind)
      unfold isStr at hstr
      split at hstr
      · next hcase => simp [hcase] at hbad
      · cases hstr
    · next hfind =>
      have hall : ∀ e ∈ items, isStr e.2 = true := by
        intro e he
        have hnot := List.find?_eq_none.1 hfind e he
        unfold isStr
        split
        · rfl
        · next hcase =>
          cases hkind : e.2 with
          | str s => exact absurd hkind (hcase s)
          | _ => simp [hkind] at hnot
      constructor
      · intro h
        exact ⟨items, rfl, hall, (Except.ok.inj h).symm⟩
      · rintro ⟨items', hitems, -, rfl⟩
        obtain rfl := PyValue.dict.inj (Option.some.inj hitems)
        rfl
  · next hraw =>
    refine iff_of_false (by simp) ?_
    rintro ⟨items, hitems, -⟩
    exact hraw items hitems

/-- A dict of strings is read back, and is the same, exactly when it survives. -/
theorem strMap_hop (field : String) (hu : hop v = .ok u) :
    (∃ t, strMap (some u) field = .ok t ∧ pyEq t v = true) ↔ stringsSurvive v = true := by
  have hkind := hop_kind hu
  have hsame : (∃ t, strMap (some u) field = .ok t ∧ pyEq t v = true) ↔
      (∃ items, u = .dict items ∧ ∀ e ∈ items, isStr e.2 = true) ∧ stable v = true := by
    rw [← pyEq_hop hu]
    constructor
    · rintro ⟨t, ht, heq⟩
      obtain ⟨items, hitems, hall, rfl⟩ := strMap_eq_ok.1 ht
      obtain rfl := Option.some.inj hitems
      exact ⟨⟨items, rfl, hall⟩, heq⟩
    · rintro ⟨⟨items, rfl, hall⟩, heq⟩
      exact ⟨_, strMap_eq_ok.2 ⟨items, rfl, hall, rfl⟩, heq⟩
  rw [hsame]
  by_cases hdict : v.kind = .dict
  · obtain ⟨items, rfl⟩ := kind_eq_dict.1 hdict
    obtain ⟨D, hD, rfl⟩ := hop_dict_eq_ok hu
    rw [stringsSurvive, Bool.and_eq_true, List.all_eq_true, and_comm]
    refine and_congr_right fun hstable => ?_
    rw [stable, Bool.and_eq_true, decide_eq_true_eq, stableItems_iff] at hstable
    have hkept := hD.imp fun _ _ h => h.kept
    rw [dictOf_of_nodup D (nodup_of_stableKeys hkept hstable.1 fun e he => (hstable.2 e he).1)]
    constructor
    · rintro ⟨items', hitems, hall⟩ e he
      obtain rfl := PyValue.dict.inj hitems
      obtain ⟨d, hd, hde⟩ := forall₂_exists hD.flip e he
      have hstr := hall (.str d.1, d.2) (List.mem_map.2 ⟨d, hd, rfl⟩)
      rwa [isStr_iff, hop_kind hde.2, ← isStr_iff] at hstr
    · intro hall
      refine ⟨_, rfl, fun e' he' => ?_⟩
      obtain ⟨d, hd, rfl⟩ := List.mem_map.1 he'
      obtain ⟨e, he, hde⟩ := forall₂_exists hD d hd
      rw [isStr_iff, hop_kind hde.2, ← isStr_iff]
      exact hall e he
  · refine iff_of_false ?_ ?_
    · rintro ⟨⟨items, rfl, -⟩, -⟩
      exact hdict hkind.symm
    · intro hsurvives
      cases v with
      | dict items => exact hdict rfl
      | _ => cases hsurvives

/-! ### Numbers -/

/-- The float of a number. -/
def toFloat : PyValue → Option PyValue
  | .int n => (floatOfInt n).map fun (q : ℤ) => .float (.finite q)
  | .float (.finite q) => some (.float (.finite q))
  | _ => none

theorem number_eq_ok {e e' : PyKey × PyValue} : number field e = .ok e' ↔ ∃ w, toFloat e.2 = some w ∧ e' = (e.1, w) := by
  obtain ⟨k, v⟩ := e
  unfold number toFloat
  cases v with
  | int n =>
    cases hfloat : floatOfInt n with
    | none => simp [hfloat]
    | some q => simp [hfloat, eq_comm]
  | float f =>
    cases f with
    | finite q => simp [eq_comm]
    | _ => simp
  | _ => simp

theorem toFloat_kind (h : toFloat u = some w) : u.kind = .int ∨ u.kind = .float := by
  cases u with
  | int n => exact Or.inl rfl
  | float f => exact Or.inr rfl
  | _ => cases h

/-- The float of what a number turns into is equal to the number when `float` keeps it. -/
theorem pyEq_toFloat (hu : hop v = .ok u) (hw : toFloat u = some w) : pyEq w v = exactNumber v := by
  cases v with
  | int n =>
    obtain rfl := hop_int hu
    obtain ⟨q, hq, rfl⟩ := Option.map_eq_some_iff.1 hw
    simp [pyEq, atomEq, numEq, PyValue.num, PyFloat.num, exactNumber, hq]
  | float f =>
    obtain rfl := hop_float hu
    cases f with
    | finite q =>
      obtain rfl := Option.some.inj hw
      simp [pyEq, atomEq, numEq, PyValue.num, PyFloat.num, exactNumber]
    | inf neg => cases hw
    | nan object => cases hw
  | _ =>
    have hkind := toFloat_kind hw
    rw [hop_kind hu] at hkind
    rcases hkind with hkind | hkind <;> cases hkind

/-- A number that `float` keeps has one after JSON. -/
theorem toFloat_hop (hu : hop v = .ok u) (hv : exactNumber v = true) : ∃ w, toFloat u = some w := by
  cases v with
  | int n =>
    obtain rfl := hop_int hu
    exact ⟨_, Option.map_eq_some_iff.2 ⟨n, by simpa [exactNumber] using hv, rfl⟩⟩
  | float f =>
    obtain rfl := hop_float hu
    cases f with
    | finite q => exact ⟨_, rfl⟩
    | _ => cases hv
  | _ => cases hv

/-- Item by item, the floats of a dict's numbers. -/
def Floats (D D' : List (PyStr × PyValue)) : Prop := List.Forall₂ (fun d d' => d'.1 = d.1 ∧ toFloat d.2 = some d'.2) D D'

theorem numberMap_eq_ok : numberMap (some (.dict (strItems D))) field = .ok t ↔ ∃ D', Floats D D' ∧ t = .dict (strItems D') := by
  have hitems : ∀ out, List.Forall₂ (fun e e' => number field e = .ok e') (strItems D) out ↔
      ∃ D', Floats D D' ∧ out = strItems D' := by
    induction D with
    | nil =>
      intro out
      constructor
      · intro h
        obtain rfl := List.forall₂_nil_left_iff.1 h
        exact ⟨[], .nil, rfl⟩
      · rintro ⟨D', hD', rfl⟩
        obtain rfl := List.forall₂_nil_left_iff.1 hD'
        exact .nil
    | cons d D ih =>
      intro out
      constructor
      · intro h
        obtain ⟨e', out', he', hout', rfl⟩ := List.forall₂_cons_left_iff.1 h
        obtain ⟨w, hw, rfl⟩ := number_eq_ok.1 he'
        obtain ⟨D', hD', rfl⟩ := (ih out').1 hout'
        exact ⟨(d.1, w) :: D', .cons ⟨rfl, hw⟩ hD', rfl⟩
      · rintro ⟨D₀, hD₀, rfl⟩
        obtain ⟨d', D', ⟨hkey, hw⟩, hD', rfl⟩ := List.forall₂_cons_left_iff.1 hD₀
        refine .cons (number_eq_ok.2 ⟨d'.2, hw, ?_⟩) ((ih _).2 ⟨D', hD', rfl⟩)
        exact Prod.ext (congrArg PyKey.str hkey) rfl
  unfold numberMap
  dsimp only
  simp only [bind_eq_ok, mapM_eq_ok]
  constructor
  · rintro ⟨out, hout, hret⟩
    obtain ⟨D', hD', rfl⟩ := (hitems out).1 hout
    exact ⟨D', hD', (Except.ok.inj hret).symm⟩
  · rintro ⟨D', hD', rfl⟩
    exact ⟨_, (hitems _).2 ⟨D', hD', rfl⟩, rfl⟩

theorem Floats.keys (h : Floats D D') : D'.map Prod.fst = D.map Prod.fst := by
  induction h with
  | nil => rfl
  | cons hd _ ih => rw [List.map_cons, List.map_cons, hd.1, ih]

theorem Floats.kept (h : Floats D D') (hD : List.Forall₂ ItemThrough D items) :
    List.Forall₂ (ItemKept exactNumber) D' items := by
  induction h generalizing items with
  | nil =>
    obtain rfl := List.forall₂_nil_left_iff.1 hD
    exact .nil
  | cons hd _ ih =>
    obtain ⟨e, rest, ⟨⟨text, htext, hkey⟩, hvalue⟩, hrest, rfl⟩ := List.forall₂_cons_left_iff.1 hD
    exact .cons ⟨⟨text, htext, hd.1.trans hkey⟩, pyEq_toFloat hvalue hd.2⟩ (ih hrest)

theorem exists_floats (hD : List.Forall₂ ItemThrough D items) (hexact : ∀ e ∈ items, exactNumber e.2 = true) :
    ∃ D', Floats D D' := by
  induction hD with
  | nil => exact ⟨[], .nil⟩
  | cons hde _ ih =>
    rw [List.forall_mem_cons] at hexact
    obtain ⟨w, hw⟩ := toFloat_hop hde.2 hexact.1
    obtain ⟨D', hD'⟩ := ih hexact.2
    exact ⟨_, .cons (b := (_, w)) ⟨rfl, hw⟩ hD'⟩

/-- A dict of numbers is read back, and is the same, exactly when it survives. -/
theorem numberMap_hop (field : String) (hu : hop v = .ok u) :
    (∃ t, numberMap (some u) field = .ok t ∧ pyEq t v = true) ↔ numbersSurvive v = true := by
  by_cases hdict : v.kind = .dict
  · obtain ⟨items, rfl⟩ := kind_eq_dict.1 hdict
    obtain ⟨D, hD, rfl⟩ := hop_dict_eq_ok hu
    have hsurvive : numbersSurvive (.dict items) = true ↔
        (items.map Prod.fst).Nodup ∧ ∀ e ∈ items, stableKey e.1 = true ∧ exactNumber e.2 = true := by
      simp [numbersSurvive]
    rw [hsurvive]
    constructor
    · rintro ⟨t, ht, heq⟩
      obtain ⟨D', hD', rfl⟩ := numberMap_eq_ok.1 ht
      -- A key written twice would leave fewer items than there were.
      have hnodup := nodup_of_pyEq_dictOf hD.length_eq hD'.length_eq.symm heq
      rw [dictOf_of_nodup D hnodup] at hD'
      exact (pyEq_kept (hD'.kept hD) (by rw [hD'.keys]; exact hnodup)).1 heq
    · rintro ⟨hkeys, hgood⟩
      have hkept := hD.imp fun _ _ h => h.kept
      have hnodup := nodup_of_stableKeys hkept hkeys fun e he => (hgood e he).1
      obtain ⟨D', hD'⟩ := exists_floats hD fun e he => (hgood e he).2
      refine ⟨_, numberMap_eq_ok.2 ⟨D', ?_, rfl⟩, (pyEq_kept (hD'.kept hD) (by rw [hD'.keys]; exact hnodup)).2 ⟨hkeys, hgood⟩⟩
      rw [dictOf_of_nodup D hnodup]
      exact hD'
  · have hkind := hop_kind hu
    refine iff_of_false ?_ ?_
    · rintro ⟨t, ht, -⟩
      cases u with
      | dict items => exact hdict hkind.symm
      | _ => cases ht
    · intro hsurvives
      cases v with
      | dict items => exact hdict rfl
      | _ => cases hsurvives

/-! ### The hold-out record -/

theorem checkHoldout_hop (hu : hop v = .ok u) :
    (checkHoldout u = .ok () ∧ pyEq u v = true) ↔ holdoutSurvives v = true := by
  have hkind := hop_kind hu
  rw [pyEq_hop hu]
  cases v with
  | none =>
    cases u with
    | none => exact iff_of_true ⟨rfl, rfl⟩ rfl
    | _ => cases hkind
  | dict items =>
    cases u with
    | dict items' => exact and_iff_right rfl
    | _ => cases hkind
  | _ =>
    refine iff_of_false (fun h => ?_) (fun h => by cases h)
    cases u with
    | none => cases hkind
    | dict items' => cases hkind
    | _ => cases h.1

end Checks

/-! ## The round trip -/

section RoundTrip
variable {cal : CalibrationFile} {doc : Json}

theorem dumpCalibrationFile_eq_ok (h : dumpCalibrationFile cal = .ok doc) :
    pyEq cal.schemaVersion (.int schemaVersion) = true ∧ encode (.dict (strItems cal.doc)) = .ok doc := by
  unfold dumpCalibrationFile at h
  split at h
  · cases h
  · next hversion =>
    dsimp only at h
    split at h
    · exact ⟨by simpa using hversion, mapError_eq_ok.1 h⟩
    · cases h

/-- Every field of what is written is read. -/
theorem doc_get (h : encode (.dict (strItems cal.doc)) = .ok doc) : ∃ raw, decode doc = .dict raw ∧
    ∀ k v, (k, v) ∈ cal.doc → ∃ u, hop v = .ok u ∧ lookup (.str k) raw = some u := by
  have hnodup : (cal.doc.map Prod.fst).Nodup := by
    change [lit "format", lit "schema_version", lit "measured_quantity", lit "coefficients", lit "terms", lit "provenance",
      lit "holdout"].Nodup
    decide
  have hplain : ∀ k ∈ cal.doc.map Prod.fst, plain k = true := by
    change ∀ k ∈ [lit "format", lit "schema_version", lit "measured_quantity", lit "coefficients", lit "terms",
      lit "provenance", lit "holdout"], plain k = true
    decide
  exact fields_hop hplain hnodup h

/-- What the reader makes of the fields, once the format and the version are right. -/
def readFields (quantity expectQuantity coeffs provenance terms holdout : PyValue) :
    Except CalibrationFileError CalibrationFile :=
  match quantity with
  | .str quantity =>
    if !pyEq (.str quantity) expectQuantity then .error (.mismatch quantity expectQuantity)
    else do
      checkHoldout holdout
      let coefficients ← numberMap (some coeffs) "coefficients"
      let provenance ← strMap (some provenance) "provenance"
      let terms ← strMap (some terms) "terms"
      return ⟨.str quantity, coefficients, provenance, terms, holdout, .int schemaVersion⟩
  | _ => .error .quantityNotString

theorem readFields_eq_ok {quantity expectQuantity coeffs provenance terms holdout : PyValue} {loaded : CalibrationFile} :
    readFields quantity expectQuantity coeffs provenance terms holdout = .ok loaded ↔
      isStr quantity = true ∧ pyEq quantity expectQuantity = true ∧ checkHoldout holdout = .ok () ∧
        ∃ c, numberMap (some coeffs) "coefficients" = .ok c ∧ ∃ p, strMap (some provenance) "provenance" = .ok p ∧
          ∃ t, strMap (some terms) "terms" = .ok t ∧ loaded = ⟨quantity, c, p, t, holdout, .int schemaVersion⟩ := by
  cases quantity with
  | str q =>
    unfold readFields
    by_cases hsame : pyEq (.str q) expectQuantity = true
    · simp only [hsame, isStr, bind_eq_ok, Bool.not_true, Bool.false_eq_true, if_false, true_and]
      constructor
      · rintro ⟨_, hholdout, c, hc, p, hp, t, ht, hret⟩
        exact ⟨hholdout, c, hc, p, hp, t, ht, (Except.ok.inj hret).symm⟩
      · rintro ⟨hholdout, c, hc, p, hp, t, ht, rfl⟩
        exact ⟨(), hholdout, c, hc, p, hp, t, ht, rfl⟩
    · simp [hsame]
  | _ => simp [readFields, isStr]

theorem loadCalibrationFile_eq {raw : List (PyKey × PyValue)} {format version quantity coeffs terms provenance holdout : PyValue}
    (hraw : decode doc = .dict raw) (hformat : lookup (.str (lit "format")) raw = some format)
    (hversion : lookup (.str (lit "schema_version")) raw = some version)
    (hquantity : lookup (.str (lit "measured_quantity")) raw = some quantity)
    (hcoeffs : lookup (.str (lit "coefficients")) raw = some coeffs) (hterms : lookup (.str (lit "terms")) raw = some terms)
    (hprovenance : lookup (.str (lit "provenance")) raw = some provenance)
    (hholdout : lookup (.str (lit "holdout")) raw = some holdout) (hsame : pyEq format (.str calibrationFormat) = true)
    (hread : pyEq version (.int schemaVersion) = true) (expectQuantity : PyValue) :
    loadCalibrationFile doc expectQuantity = readFields quantity expectQuantity coeffs provenance terms holdout := by
  unfold loadCalibrationFile
  rw [hraw]
  simp only [hformat, hversion, hquantity, hcoeffs, hterms, hprovenance, hholdout, Option.getD_some, hsame, hread, Bool.not_true,
    Bool.false_eq_true, if_false]
  cases quantity with
  | _ => rfl

end RoundTrip

/-- What the writer accepts is read back, equal field by field, exactly when it survives. -/
theorem calibrationFile_roundTrip_iff (cal : CalibrationFile) (doc : Json) (h : dumpCalibrationFile cal = .ok doc) :
    (∃ loaded, loadCalibrationFile doc cal.measuredQuantity = .ok loaded ∧ SameFile loaded cal) ↔ cal.survives = true := by
  obtain ⟨hversion, hdoc⟩ := dumpCalibrationFile_eq_ok h
  obtain ⟨raw, hraw, hget⟩ := doc_get hdoc
  obtain ⟨format, hformat, hgetFormat⟩ := hget (lit "format") (.str calibrationFormat) (by simp [CalibrationFile.doc])
  obtain ⟨version, hver, hgetVersion⟩ := hget (lit "schema_version") cal.schemaVersion (by simp [CalibrationFile.doc])
  obtain ⟨quantity, hquantity, hgetQuantity⟩ := hget (lit "measured_quantity") cal.measuredQuantity (by simp [CalibrationFile.doc])
  obtain ⟨coeffs, hcoeffs, hgetCoeffs⟩ := hget (lit "coefficients") cal.coefficients (by simp [CalibrationFile.doc])
  obtain ⟨terms, hterms, hgetTerms⟩ := hget (lit "terms") cal.terms (by simp [CalibrationFile.doc])
  obtain ⟨provenance, hprov, hgetProv⟩ := hget (lit "provenance") cal.provenance (by simp [CalibrationFile.doc])
  obtain ⟨holdout, hhold, hgetHold⟩ := hget (lit "holdout") cal.holdout (by simp [CalibrationFile.doc])
  obtain ⟨hread, hsame⟩ := schema_hop hversion hver
  have hformatSame : pyEq format (.str calibrationFormat) = true := by
    rw [pyEq_hop hformat]
    decide
  have hload := loadCalibrationFile_eq hraw hgetFormat hgetVersion hgetQuantity hgetCoeffs hgetTerms hgetProv hgetHold hformatSame
    hread cal.measuredQuantity
  have hisStr : isStr quantity = isStr cal.measuredQuantity := by
    rw [Bool.eq_iff_iff, isStr_iff, isStr_iff, hop_kind hquantity]
  have hsurvives : cal.survives = true ↔ isStr cal.measuredQuantity = true ∧ stable cal.measuredQuantity = true ∧
      numbersSurvive cal.coefficients = true ∧ stringsSurvive cal.provenance = true ∧ stringsSurvive cal.terms = true ∧
      holdoutSurvives cal.holdout = true := by
    simp [CalibrationFile.survives, and_assoc]
  rw [hload, hsurvives, ← hisStr, ← pyEq_hop hquantity, ← numberMap_hop "coefficients" hcoeffs,
    ← strMap_hop "provenance" hprov, ← strMap_hop "terms" hterms, ← checkHoldout_hop hhold]
  simp only [readFields_eq_ok]
  constructor
  · rintro ⟨_, ⟨hstr, heq, hholdout, c, hc, p, hp, t, ht, rfl⟩, hfile⟩
    exact ⟨hstr, heq, ⟨c, hc, hfile.coefficients⟩, ⟨p, hp, hfile.provenance⟩, ⟨t, ht, hfile.terms⟩, hholdout, hfile.holdout⟩
  · rintro ⟨hstr, heq, ⟨c, hc, hcSame⟩, ⟨p, hp, hpSame⟩, ⟨t, ht, htSame⟩, hholdout, hhSame⟩
    exact ⟨_, ⟨hstr, heq, hholdout, c, hc, p, hp, t, ht, rfl⟩, ⟨heq, hcSame, hpSame, htSame, hhSame, hsame⟩⟩

/-- A calibration with one coefficient, and a hold-out record of one entry. -/
def smallCalibration (coefficient entry : PyValue) : CalibrationFile :=
  ⟨.str (lit "mlx_active_marginal"), .dict [(.str (lit "base"), coefficient)], .dict [], .dict [],
    .dict [(.str (lit "band"), entry)], .int 1⟩

theorem calibrationFile_roundTrip_iff_small : ∃ doc loaded,
    dumpCalibrationFile (smallCalibration (.int 1600848316) (.list [.int 0])) = .ok doc ∧
      loadCalibrationFile doc (.str (lit "mlx_active_marginal")) = .ok loaded ∧
      SameFile loaded (smallCalibration (.int 1600848316) (.list [.int 0])) := by
  obtain ⟨loaded, hload, hsame⟩ :=
    (calibrationFile_roundTrip_iff (smallCalibration (.int 1600848316) (.list [.int 0])) _ rfl).2 (by decide +kernel)
  exact ⟨_, loaded, rfl, hload, hsame⟩

/-- An int that `str` prints and `float` refuses. -/
theorem calibrationFile_tooLarge {n : ℤ} (hshort : tooLong n = false) (hfloat : floatOfInt n = none) :
    ∃ doc, dumpCalibrationFile (smallCalibration (.int n) .none) = .ok doc ∧
      loadCalibrationFile doc (.str (lit "mlx_active_marginal")) = .error (.tooLarge "coefficients" (.str (lit "base"))) := by
  have hone : tooLong 1 = false := by decide
  have hmap : numberMap (some (.dict [(.str (lit "base"), .int n)])) "coefficients" =
      .error (.tooLarge "coefficients" (.str (lit "base"))) := by
    simp [numberMap, number, hfloat, bind, Except.bind]
  let doc : Json := .obj [(escape (lit "format"), .str (escape calibrationFormat)), (escape (lit "schema_version"), .int 1),
    (escape (lit "measured_quantity"), .str (escape (lit "mlx_active_marginal"))),
    (escape (lit "coefficients"), .obj [(escape (lit "base"), .int n)]), (escape (lit "terms"), .obj []),
    (escape (lit "provenance"), .obj []), (escape (lit "holdout"), .obj [(escape (lit "band"), .null)])]
  have hraw : decode doc = .dict [(.str (lit "format"), .str calibrationFormat), (.str (lit "schema_version"), .int 1),
      (.str (lit "measured_quantity"), .str (lit "mlx_active_marginal")),
      (.str (lit "coefficients"), .dict [(.str (lit "base"), .int n)]), (.str (lit "terms"), .dict []),
      (.str (lit "provenance"), .dict []), (.str (lit "holdout"), .dict [(.str (lit "band"), .none)])] := rfl
  have hload : loadCalibrationFile doc (.str (lit "mlx_active_marginal")) =
      readFields (.str (lit "mlx_active_marginal")) (.str (lit "mlx_active_marginal")) (.dict [(.str (lit "base"), .int n)])
        (.dict []) (.dict []) (.dict [(.str (lit "band"), .none)]) :=
    loadCalibrationFile_eq hraw rfl rfl rfl rfl rfl rfl rfl rfl (by decide) _
  refine ⟨doc, ?_, ?_⟩
  · simp [dumpCalibrationFile, smallCalibration, CalibrationFile.doc, strItems, encode, encodeItems, keyText, hshort, hone, pyEq,
      atomEq, numEq, PyValue.num, schemaVersion, allFinite, allFiniteItems, bind, Except.bind, pure, Except.pure, Except.mapError,
      doc]
  · rw [hload]
    simp only [readFields, hmap]
    rfl

/-- The writer takes an int too large for a float, which the reader refuses, and a tuple, of
which JSON makes a list. -/
theorem calibrationFile_lost :
    (∃ doc, dumpCalibrationFile (smallCalibration (.int (10 ^ 400)) .none) = .ok doc ∧
      loadCalibrationFile doc (.str (lit "mlx_active_marginal")) = .error (.tooLarge "coefficients" (.str (lit "base")))) ∧
    ∃ doc loaded, dumpCalibrationFile (smallCalibration (.int 1) (.tuple [.int 0])) = .ok doc ∧
      loadCalibrationFile doc (.str (lit "mlx_active_marginal")) = .ok loaded ∧
      ¬ SameFile loaded (smallCalibration (.int 1) (.tuple [.int 0])) := by
  refine ⟨calibrationFile_tooLarge (by decide +kernel) (by decide +kernel), _, _, rfl, rfl, ?_⟩
  intro hsame
  have hholdout := hsame.holdout
  revert hholdout
  decide

end MlxTrainPerf.Memfit
