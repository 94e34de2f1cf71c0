import MlxTrainPerf.Memfit.Holdout
/-!
# Predictions are written once

`write_holdout_predictions` of `memfit/holdout.py`, and the file between it and
`score_holdout`. The first call that writes makes the file and no later one changes it,
so what is scored was predicted first (`holdout_scores_first_write`). `json.dumps` is
given, as bytes that spell the document they are made from.
-/
open PyStr PyJson Budget

namespace MlxTrainPerf.Memfit

/-! ## The writer -/

/-- The number, in a document. -/
def Finite.toValue : Finite → PyValue
  | .int n => .int n
  | .float q => .float (.finite q)

/-- What `write_holdout_predictions` is given: mappings, and a band that `HoldoutBand` built. -/
structure Predictions where
  predictions : List (PyStr × PyValue)
  band : HoldoutBand
  measuredQuantity : PyStr
  provenance : List (PyStr × PyValue)
  nodup : (predictions.map Prod.fst).Nodup
  built : holdoutBand band.underRel.toValue band.overRel.toValue = .ok band

inductive WriteError
  | noPredictions
  | badPrediction (e : ScoreError)
  | notSerializable
  | fileExists

def Predictions.bandFields (p : Predictions) : List (PyStr × PyValue) :=
  [(lit "under_rel", p.band.underRel.toValue), (lit "over_rel", p.band.overRel.toValue)]

/-- `doc`. -/
def Predictions.doc (p : Predictions) : List (PyStr × PyValue) :=
  [(lit "format", .str holdoutFormat), (lit "schema_version", .int 1), (lit "measured_quantity", .str p.measuredQuantity),
    (lit "band", .dict (strItems p.bandFields)), (lit "provenance", .dict (strItems p.provenance)),
    (lit "predictions", .dict (strItems p.predictions))]

/-- The document to write, before the file is opened. -/
def Predictions.serialize (p : Predictions) : Except WriteError Json :=
  if p.predictions.isEmpty then .error .noPredictions
  else do
    (positiveInts (strItems p.predictions) "prediction").mapError .badPrediction
    let doc := PyValue.dict (strItems p.doc)
    if allFinite doc then (encode doc).mapError fun _ => .notSerializable else .error .notSerializable

/-- `write_holdout_predictions`, with the file at its path before and after it. -/
def writeHoldoutPredictions (dumps : Json → List Byte) (p : Predictions) (file : Option (List Byte)) :
    Except WriteError Unit × Option (List Byte) :=
  match p.serialize with
  | .error e => (.error e, file)
  | .ok doc =>
    match file with
    | some raw => (.error .fileExists, some raw)
    | none => (.ok (), some (dumps doc))

/-! ## Calls at one path -/

inductive HoldoutCall
  | write (p : Predictions)
  | score (measured : List (PyStr × ℤ)) (expect : PyStr)

/-- The file after a call; `score_holdout` only reads it. -/
def HoldoutCall.leaves (dumps : Json → List Byte) (file : Option (List Byte)) : HoldoutCall → Option (List Byte)
  | .write p => (writeHoldoutPredictions dumps p file).2
  | .score _ _ => file

/-- The file after some calls, the first of which found none. -/
def fileAfter (dumps : Json → List Byte) (calls : List HoldoutCall) : Option (List Byte) :=
  calls.foldl (HoldoutCall.leaves dumps) none

/-- What `json.loads` makes of the bytes. -/
def Spells (limit : ℕ) (raw : List Byte) (doc : Json) : Prop :=
  ∃ text, utf8Decode raw = some text ∧ loads limit text = .ok doc

/-- The labels as JSON gives them back: split surrogate pairs are joined, and of two labels that become one the last
prediction counts. -/
def Predictions.asRead (p : Predictions) : List (PyStr × PyValue) :=
  dictOf (p.predictions.map fun e => (merge e.1, e.2))

section Calls
variable {dumps : Json → List Byte} {file : Option (List Byte)} {raw : List Byte} {calls : List HoldoutCall}

/-- A file stays what it is. -/
theorem leaves_some (call : HoldoutCall) : call.leaves dumps (some raw) = some raw := by
  cases call with
  | score measured expect => rfl
  | write p =>
    show (writeHoldoutPredictions dumps p (some raw)).2 = some raw
    unfold writeHoldoutPredictions
    cases p.serialize with
    | error e => rfl
    | ok doc => rfl

theorem foldl_leaves_some (calls : List HoldoutCall) : calls.foldl (HoldoutCall.leaves dumps) (some raw) = some raw := by
  induction calls with
  | nil => rfl
  | cons call calls ih =>
    rw [List.foldl_cons, leaves_some]
    exact ih

/-- Only a write makes a file. -/
theorem leaves_none (call : HoldoutCall) (h : call.leaves dumps none = some raw) :
    ∃ p doc, call = .write p ∧ p.serialize = .ok doc ∧ raw = dumps doc := by
  cases call with
  | score measured expect => cases h
  | write p =>
    change (writeHoldoutPredictions dumps p none).2 = some raw at h
    unfold writeHoldoutPredictions at h
    cases hdoc : p.serialize with
    | error e =>
      rw [hdoc] at h
      cases h
    | ok doc =>
      rw [hdoc] at h
      exact ⟨p, doc, rfl, hdoc, (Option.some.inj h).symm⟩

/-- A file is the first write's that found none. -/
theorem fileAfter_eq_some (h : fileAfter dumps calls = some raw) : ∃ before p after doc, calls = before ++ .write p :: after ∧
    fileAfter dumps before = none ∧ p.serialize = .ok doc ∧ raw = dumps doc := by
  -- By the last call: it made the file, or found one that the calls before it explain.
  induction calls using List.reverseRecOn with
  | nil => cases h
  | append_singleton calls call ih =>
    unfold fileAfter at h
    rw [List.foldl_append] at h
    cases hfile : fileAfter dumps calls with
    | none =>
      unfold fileAfter at hfile
      rw [hfile] at h
      obtain ⟨p, doc, rfl, hdoc, hraw⟩ := leaves_none call h
      exact ⟨calls, p, [], doc, rfl, hfile, hdoc, hraw⟩
    | some raw' =>
      obtain rfl : raw' = raw := by
        have hsame : some raw' = some raw := by
          rw [← h, ← hfile]
          unfold fileAfter at hfile ⊢
          rw [hfile, foldl_leaves_some]
        exact Option.some.inj hsame
      obtain ⟨before, p, after, doc, rfl, hrest⟩ := ih hfile
      exact ⟨before, p, after ++ [call], doc, by rw [List.append_assoc, List.cons_append], hrest⟩

theorem fileAfter_write {before : List HoldoutCall} {p : Predictions} {doc : Json} (hnone : fileAfter dumps before = none)
    (hdoc : p.serialize = .ok doc) (rest : List HoldoutCall) : fileAfter dumps (before ++ .write p :: rest) = some (dumps doc) := by
  unfold fileAfter at hnone ⊢
  rw [List.foldl_append, hnone, List.foldl_cons]
  have hwritten : (HoldoutCall.write p).leaves dumps none = some (dumps doc) := by
    show (writeHoldoutPredictions dumps p none).2 = some (dumps doc)
    unfold writeHoldoutPredictions
    rw [hdoc]
  rw [hwritten, foldl_leaves_some]

end Calls

/-! ## What is read back -/

section Read
variable {p : Predictions} {doc : Json}

theorem serialize_eq_ok (h : p.serialize = .ok doc) :
    (∀ e ∈ p.predictions, isPositiveInt e.2 = true) ∧ encode (.dict (strItems p.doc)) = .ok doc := by
  unfold Predictions.serialize at h
  split at h
  · cases h
  · obtain ⟨u, hpositive, hdoc⟩ := bind_eq_ok.1 h
    have hall := positiveInts_eq_ok.1 (mapError_eq_ok.1 hpositive)
    dsimp only at hdoc
    split at hdoc
    · exact ⟨fun e he => hall _ (List.mem_map.2 ⟨e, he, rfl⟩), mapError_eq_ok.1 hdoc⟩
    · cases hdoc

theorem hop_str {s : PyStr} {w : PyValue} (h : hop (.str s) = .ok w) : w = .str (merge s) := by
  obtain ⟨doc, hdoc, rfl⟩ := hop_eq_ok.1 h
  obtain rfl := Except.ok.inj hdoc
  exact congrArg PyValue.str (unescape_escape s)

/-- A dict whose values JSON keeps comes back with its keys merged. -/
theorem hop_kept {xs : List (PyStr × PyValue)} {w : PyValue} (h : hop (.dict (strItems xs)) = .ok w)
    (hkept : ∀ x ∈ xs, ∀ v, hop x.2 = .ok v → v = x.2) :
    w = .dict (strItems (dictOf (xs.map fun x => (merge x.1, x.2)))) := by
  obtain ⟨ys, hys, -, rfl⟩ := hop_strItems h
  have hmap : ItemsHop xs (xs.map fun x => (merge x.1, x.2)) := by
    refine List.forall₂_map_right_iff.2 (List.forall₂_same.2 fun x hx => ⟨rfl, ?_⟩)
    obtain ⟨y, -, -, hvalue⟩ := forall₂_exists hys x hx
    rw [hkept x hx y.2 hvalue] at hvalue
    exact hvalue
  rw [hys.unique hmap]

theorem hop_toValue {x : Finite} {w : PyValue} (h : hop x.toValue = .ok w) : w = x.toValue := by
  cases x with
  | int n => exact hop_int h
  | float q => exact hop_float h

/-- What the checks leave of a file that was written. -/
def Predictions.checked (p : Predictions) : Checked where
  quantity := .str (merge p.measuredQuantity)
  predictions := strItems p.asRead
  underRel := p.band.underRel.toValue
  overRel := p.band.overRel.toValue

theorem bandItems_bandFields (p : Predictions) :
    bandItems (.dict (strItems p.bandFields)) = .ok (p.band.underRel.toValue, p.band.overRel.toValue) := by
  have hreal : ∀ x : Finite, isReal x.toValue = true := by
    intro x
    cases x with
    | int n => rfl
    | float q => rfl
  refine bandItems_eq_ok.2 ⟨_, rfl, fun k => ?_, ⟨rfl, hreal _⟩, rfl, hreal _⟩
  simp [Predictions.bandFields, strItems]

theorem asRead_positive (hpositive : ∀ e ∈ p.predictions, isPositiveInt e.2 = true) :
    ∀ e ∈ strItems p.asRead, isPositiveInt e.2 = true := by
  intro e he
  obtain ⟨d, hd, rfl⟩ := List.mem_map.1 he
  obtain ⟨x, hx, rfl⟩ := List.mem_map.1 (mem_of_mem_dictOf _ hd)
  exact hpositive x hx

/-- The fields of the document are read as they were written. -/
theorem doc_fields (h : p.serialize = .ok doc) : ∃ data, decode doc = .dict data ∧
    lookup (.str (lit "format")) data = some (.str holdoutFormat) ∧
    lookup (.str (lit "schema_version")) data = some (.int 1) ∧
    lookup (.str (lit "measured_quantity")) data = some (.str (merge p.measuredQuantity)) ∧
    lookup (.str (lit "band")) data = some (.dict (strItems p.bandFields)) ∧
    lookup (.str (lit "predictions")) data = some (.dict (strItems p.asRead)) := by
  obtain ⟨hpositive, hencode⟩ := serialize_eq_ok h
  have hnodup : (p.doc.map Prod.fst).Nodup := by
    change [lit "format", lit "schema_version", lit "measured_quantity", lit "band", lit "provenance", lit "predictions"].Nodup
    decide
  have hplain : ∀ k ∈ p.doc.map Prod.fst, plain k = true := by
    change ∀ k ∈ [lit "format", lit "schema_version", lit "measured_quantity", lit "band", lit "provenance", lit "predictions"],
      plain k = true
    decide
  obtain ⟨data, hdata, hfield⟩ := fields_hop hplain hnodup hencode
  obtain ⟨format, hformat, hformat'⟩ := hfield (lit "format") (.str holdoutFormat) (by simp [Predictions.doc])
  obtain ⟨version, hversion, hversion'⟩ := hfield (lit "schema_version") (.int 1) (by simp [Predictions.doc])
  obtain ⟨quantity, hquantity, hquantity'⟩ := hfield (lit "measured_quantity") (.str p.measuredQuantity)
    (by simp [Predictions.doc])
  obtain ⟨band, hband, hband'⟩ := hfield (lit "band") (.dict (strItems p.bandFields)) (by simp [Predictions.doc])
  obtain ⟨predictions, hpredictions, hpredictions'⟩ := hfield (lit "predictions") (.dict (strItems p.predictions))
    (by simp [Predictions.doc])
  -- JSON keeps numbers and joins split pairs: of the band nothing changes, of the predictions only labels can.
  rw [hop_str hformat, merge_of_plain (by decide)] at hformat'
  rw [hop_int hversion] at hversion'
  rw [hop_str hquantity] at hquantity'
  have hbandKept : band = .dict (strItems p.bandFields) := by
    rw [hop_kept hband]
    · rfl
    · intro x hx v hv
      rcases List.mem_pair.1 hx with rfl | rfl
      · exact hop_toValue hv
      · exact hop_toValue hv
  have hpredictionsKept : predictions = .dict (strItems p.asRead) := by
    refine hop_kept hpredictions fun x hx v hv => ?_
    obtain ⟨n, hn, -⟩ := isPositiveInt_iff.1 (hpositive x hx)
    rw [hn] at hv ⊢
    exact hop_int hv
  rw [hbandKept] at hband'
  rw [hpredictionsKept] at hpredictions'
  exact ⟨data, hdata, hformat', hversion', hquantity', hband', hpredictions'⟩

end Read

section Score
variable {p : Predictions} {doc : Json} {limit : ℕ} {raw : List Byte} {measured : List (PyStr × ℤ)} {expect : PyStr}
  {data : List (PyKey × PyValue)}

/-- A file that was written passes the checks but for the quantity and the measurements. -/
theorem check_written (h : p.serialize = .ok doc) (hdata : decode doc = .dict data) {c : Checked} :
    check data measured expect = .ok c ↔
      (merge p.measuredQuantity = expect ∧ ∀ e ∈ measured, 0 < e.2 ∧ e.2 ≤ maxBytes) ∧ c = p.checked := by
  obtain ⟨data', hdata', hformat, hversion, hquantity, hband, hpredictions⟩ := doc_fields h
  obtain rfl := PyValue.dict.inj (hdata.symm.trans hdata')
  rw [check_eq_ok, hformat, hversion, hquantity, hband, hpredictions]
  constructor
  · rintro ⟨-, hq, hp, -, ⟨band, hb, hnumbers⟩, hmatch, hmeasured⟩
    obtain rfl := Option.some.inj hb
    obtain ⟨hunder, hover⟩ := Prod.mk.inj (Except.ok.inj ((bandItems_bandFields p).symm.trans hnumbers))
    obtain ⟨quantity, predictions, underRel, overRel⟩ := c
    obtain rfl := Option.some.inj hq
    obtain rfl := PyValue.dict.inj (Option.some.inj hp)
    refine ⟨⟨by simpa [pyEq, atomEq] using hmatch, hmeasured⟩, ?_⟩
    dsimp only at hunder hover
    rw [← hunder, ← hover]
    rfl
  · rintro ⟨⟨rfl, hmeasured⟩, rfl⟩
    refine ⟨⟨?_, ?_⟩, rfl, rfl, asRead_positive (serialize_eq_ok h).1, ⟨_, rfl, bandItems_bandFields p⟩, ?_, hmeasured⟩
    · simp [pyEq, atomEq]
    · decide
    · simp [Predictions.checked, pyEq, atomEq]

/-- And is scored then, with its own band. -/
theorem scoreHoldout_written (sha256 : List Byte → PyStr) (h : p.serialize = .ok doc) (hraw : Spells limit raw doc)
    {report : HoldoutReport} : scoreHoldout sha256 limit raw measured expect = .ok report ↔
      (merge p.measuredQuantity = expect ∧ ∀ e ∈ measured, 0 < e.2 ∧ e.2 ≤ maxBytes) ∧
        scored sha256 raw (measuredItems measured) p.checked p.band = report := by
  obtain ⟨data, hdata, -⟩ := doc_fields h
  obtain ⟨text, htext, hload⟩ := hraw
  have hread : readDoc limit raw = .ok data := readDoc_eq_ok.2 ⟨text, doc, htext, hload, hdata⟩
  have hscore : check data measured expect = .ok p.checked →
      scoreHoldout sha256 limit raw measured expect = .ok (scored sha256 raw (measuredItems measured) p.checked p.band) := by
    intro hcheck
    rw [scoreHoldout_eq sha256 hread hcheck]
    show (holdoutBand p.band.underRel.toValue p.band.overRel.toValue).map _ = _
    rw [p.built]
    rfl
  constructor
  · intro hreport
    obtain ⟨data', hread', hrest⟩ := bind_eq_ok.1 hreport
    obtain rfl := Except.ok.inj (hread.symm.trans hread')
    obtain ⟨c, hcheck, -⟩ := bind_eq_ok.1 hrest
    obtain ⟨hpass, rfl⟩ := (check_written h hdata).1 hcheck
    exact ⟨hpass, Except.ok.inj ((hscore hcheck).symm.trans hreport)⟩
  · rintro ⟨hpass, rfl⟩
    exact hscore ((check_written h hdata).2 ⟨hpass, rfl⟩)

end Score

/-- Labels that hold no split surrogate pair come back as they are. -/
theorem asRead_of_whole {p : Predictions} (h : ∀ e ∈ p.predictions, whole e.1 = true) : p.asRead = p.predictions := by
  have hmap : p.predictions.map (fun e => (merge e.1, e.2)) = p.predictions := by
    refine (List.map_congr_left fun e he => ?_).trans (List.map_id _)
    rw [(merge_eq_iff e.1).2 (h e he)]
    rfl
  unfold Predictions.asRead
  rw [hmap]
  exact dictOf_of_nodup p.predictions p.nodup

/-- Once there is a file at the path, it is what the first write that found none wrote, whatever was called since and
whatever is called next; scoring it is refused for another quantity or a bad measurement only, and scores the predictions
of that write within their own band. -/
theorem holdout_scores_first_write (sha256 : List Byte → PyStr) (limit : ℕ) (dumps : Json → List Byte)
    (calls : List HoldoutCall)
    (hdumps : ∀ p, .write p ∈ calls → ∀ doc, p.serialize = .ok doc → Spells limit (dumps doc) doc) (raw : List Byte)
    (h : fileAfter dumps calls = some raw) : ∃ before p after, calls = before ++ .write p :: after ∧
      fileAfter dumps before = none ∧ (∀ rest, fileAfter dumps (before ++ .write p :: rest) = some raw) ∧
      (∀ measured expect, (∃ report, scoreHoldout sha256 limit raw measured expect = .ok report) ↔
        merge p.measuredQuantity = expect ∧ ∀ e ∈ measured, 0 < e.2 ∧ e.2 ≤ maxBytes) ∧
      (∀ measured expect report, scoreHoldout sha256 limit raw measured expect = .ok report →
        report.band = p.band ∧ Scores (strItems p.asRead) (measuredItems measured) report) ∧
      ((∀ e ∈ p.predictions, whole e.1 = true) → p.asRead = p.predictions) := by
  obtain ⟨before, p, after, doc, rfl, hnone, hdoc, rfl⟩ := fileAfter_eq_some h
  have hspells := hdumps p (List.mem_append_right _ List.mem_cons_self) doc hdoc
  have hpositive := asRead_positive (serialize_eq_ok hdoc).1
  refine ⟨before, p, after, rfl, hnone, fileAfter_write hnone hdoc, fun measured expect => ?_, ?_, asRead_of_whole⟩
  · constructor
    · rintro ⟨report, hreport⟩
      exact ((scoreHoldout_written sha256 hdoc hspells).1 hreport).1
    · exact fun hpass => ⟨_, (scoreHoldout_written sha256 hdoc hspells).2 ⟨hpass, rfl⟩⟩
  · intro measured expect report hreport
    obtain ⟨-, rfl⟩ := (scoreHoldout_written sha256 hdoc hspells).1 hreport
    exact ⟨rfl, @scored_scores (dumps doc) measured p.checked sha256 p.band hpositive⟩

theorem quarter_nonneg : 0 ≤ (Finite.float (1 / 4)).value := by
  unfold Finite.value
  norm_num

theorem zero_nonneg : 0 ≤ (Finite.int 0).value := le_rfl

/-- A quarter above, nothing below. -/
def quarterBand : HoldoutBand := ⟨.float (1 / 4), .int 0, quarter_nonneg, zero_nonneg⟩

theorem quarterBand_built : holdoutBand quarterBand.underRel.toValue quarterBand.overRel.toValue = .ok quarterBand := by
  have hunder : bandField "under_rel" (.float (.finite (1 / 4))) = .ok ⟨.float (1 / 4), quarter_nonneg⟩ := dif_pos quarter_nonneg
  have hover : bandField "over_rel" (.int 0) = .ok ⟨.int 0, zero_nonneg⟩ := by
    rw [bandField, isFinite_int, if_neg (by decide)]
    rfl
  show holdoutBand (.float (.finite (1 / 4))) (.int 0) = _
  unfold holdoutBand
  rw [hunder, hover]
  rfl

theorem oneLabel_nodup (n : ℤ) : ([(lit "a", PyValue.int n)].map Prod.fst).Nodup := List.nodup_singleton _

/-- One label, predicted at `n` bytes. -/
def predict (n : ℤ) : Predictions := ⟨[(lit "a", .int n)], quarterBand, lit "q", [], oneLabel_nodup n, quarterBand_built⟩

/-- What `json.dumps` makes of it, piece by piece. -/
def predictText (n : ℤ) : List String :=
  ["\x7b\n  \"format\": \"mlx-train-perf.holdout-predictions\",\n  \"schema_version\": 1,\n",
    "  \"measured_quantity\": \"q\",\n  \"band\": \x7b\n    \"under_rel\": 0.25,\n    \"over_rel\": 0\n  \x7d,\n",
    "  \"provenance\": \x7b\x7d,\n  \"predictions\": \x7b\n    \"a\": ", toString n, "\n  \x7d\n\x7d\n"]

def dumpsPredict : Json → List Byte
  | .obj [_, _, _, _, _, (_, .obj [(_, .int n)])] => (predictText n).flatMap asciiBytes
  | _ => []

def predictDoc (n : ℤ) : Json :=
  .obj [(escape (lit "format"), .str (escape holdoutFormat)), (escape (lit "schema_version"), .int 1),
    (escape (lit "measured_quantity"), .str (escape (lit "q"))),
    (escape (lit "band"), .obj [(escape (lit "under_rel"), .float (.finite (1 / 4))), (escape (lit "over_rel"), .int 0)]),
    (escape (lit "provenance"), .obj []), (escape (lit "predictions"), .obj [(escape (lit "a"), .int n)])]

theorem predict_serialize {n : ℤ} (hn : n = 4 ∨ n = 9) : (predict n).serialize = .ok (predictDoc n) := by
  rcases hn with rfl | rfl <;> rfl

/-- Is it `predictDoc n`? -/
def isPredictDoc (n : ℤ) : Except LoadError Json → Bool
  | .ok (.obj [(f, .str format), (s, .int version), (m, .str quantity),
      (b, .obj [(u, .float (.finite underRel)), (o, .int overRel)]), (v, .obj []), (p, .obj [(a, .int x)])]) =>
    decide ((f = escape (lit "format") ∧ format = escape holdoutFormat) ∧ (s = escape (lit "schema_version") ∧ version = 1) ∧
      (m = escape (lit "measured_quantity") ∧ quantity = escape (lit "q")) ∧
      (b = escape (lit "band") ∧ u = escape (lit "under_rel") ∧ underRel = 1 / 4 ∧ o = escape (lit "over_rel") ∧ overRel = 0) ∧
      v = escape (lit "provenance") ∧ p = escape (lit "predictions") ∧ a = escape (lit "a") ∧ x = n)
  | _ => false

theorem eq_of_isPredictDoc {n : ℤ} {x : Except LoadError Json} (h : isPredictDoc n x = true) : x = .ok (predictDoc n) := by
  unfold isPredictDoc at h
  split at h
  · obtain ⟨⟨rfl, rfl⟩, ⟨rfl, rfl⟩, ⟨rfl, rfl⟩, ⟨rfl, rfl, rfl, rfl, rfl⟩, rfl, rfl, rfl, rfl⟩ := of_decide_eq_true h
    rfl
  · cases h

theorem predict_spells {n : ℤ} (hn : n = 4 ∨ n = 9) : Spells 1000 (dumpsPredict (predictDoc n)) (predictDoc n) := by
  refine ⟨(predictText n).flatMap lit, ?_, eq_of_isPredictDoc ?_⟩
  · rcases hn with rfl | rfl <;> decide +kernel
  · rcases hn with rfl | rfl <;> decide +kernel

/-- A prediction, and another one once the results are in. -/
def repredicted : List HoldoutCall := [.write (predict 4), .write (predict 9)]

theorem fileAfter_predict (rest : List HoldoutCall) :
    fileAfter dumpsPredict (.write (predict 4) :: rest) = some (dumpsPredict (predictDoc 4)) :=
  @fileAfter_write dumpsPredict [] (predict 4) _ rfl (predict_serialize (.inl rfl)) rest

/-- The first one is scored. -/
theorem holdout_scores_first_write_repredicted : ∃ report,
    scoreHoldout (fun _ => lit "sha") 1000 (dumpsPredict (predictDoc 4)) [(lit "a", 5)] (lit "q") = .ok report ∧
    report.band = quarterBand ∧ Scores (strItems [(lit "a", .int 4)]) (measuredItems [(lit "a", 5)]) report := by
  have hdumps : ∀ p, .write p ∈ repredicted → ∀ doc, p.serialize = .ok doc → Spells 1000 (dumpsPredict doc) doc := by
    intro p hp doc hdoc
    rcases List.mem_pair.1 hp with h | h
    · obtain rfl := HoldoutCall.write.inj h
      obtain rfl := Except.ok.inj ((predict_serialize (.inl rfl)).symm.trans hdoc)
      exact predict_spells (.inl rfl)
    · obtain rfl := HoldoutCall.write.inj h
      obtain rfl := Except.ok.inj ((predict_serialize (.inr rfl)).symm.trans hdoc)
      exact predict_spells (.inr rfl)
  obtain ⟨before, p, after, hcalls, hnone, -, hscored, hreports, hwhole⟩ :=
    holdout_scores_first_write (fun _ => lit "sha") 1000 dumpsPredict repredicted hdumps _ (fileAfter_predict _)
  have hfirst : p = predict 4 := by
    cases before with
    | nil => exact (HoldoutCall.write.inj (List.cons.inj hcalls).1).symm
    | cons call rest =>
      -- After the first write there is a file, so no later one found none.
      obtain ⟨rfl, -⟩ := List.cons.inj hcalls
      rw [fileAfter_predict rest] at hnone
      cases hnone
  subst hfirst
  obtain ⟨report, hreport⟩ := (hscored [(lit "a", 5)] (lit "q")).2 ⟨by decide, by decide⟩
  obtain ⟨hband, hscores⟩ := hreports _ _ report hreport
  rw [hwhole (by decide)] at hscores
  exact ⟨report, hreport, hband, hscores⟩

end MlxTrainPerf.Memfit
