import MlxTrainPerf.Community.Aggregate
/-!
# Which submissions make a table

What a community artifact must hold for `summarize_row` not to raise and for its line to
have the eight cells of the header, and that nothing less will do (`accepts_iff`).
-/
open PyStr PyJson Markdown Budget

namespace MlxTrainPerf.Community

open Bench (Number numberOf readData contentOf getItem getOr Items File ReadError Content)

/-! ## Fields -/

/-- The identity of a condition, if it is an object. -/
def identityItems (condition : Items) : Option Items :=
  match getOr condition (lit "identity") (.dict []) with
  | .dict identity => some identity
  | _ => none

/-- Can a field be looked up? The result holds it, or can be searched and the identity is
an object. -/
def readable (condition : Items) (key : PyStr) : Bool :=
  match getOr condition (lit "result") (.dict []) with
  | .dict items => (lookup (.str key) items).isSome || (identityItems condition).isSome
  | .list xs => !(xs.any fun x => pyEq x (.str key)) && (identityItems condition).isSome
  | .tuple xs => !(xs.any fun x => pyEq x (.str key)) && (identityItems condition).isSome
  | .str s => !decide (key <:+: s) && (identityItems condition).isSome
  | _ => false

/-- A field: the result's, else the identity's. -/
def fieldValue (condition : Items) (key : PyStr) : PyValue :=
  match getOr condition (lit "result") (.dict []) with
  | .dict items => (lookup (.str key) items).getD (getItem ((identityItems condition).getD []) key)
  | _ => getItem ((identityItems condition).getD []) key

/-- A condition that a column can look at. -/
def SampleOk (col : Column) (c : PyValue) : Prop :=
  ∃ condition, c = .dict condition ∧ (pyEq (getItem condition (lit "status")) (.str (lit "ok")) = true →
    readable condition col.gate = true ∧ (col.chosen (fieldValue condition col.gate) = true →
      readable condition col.position = true ∧ readable condition col.value = true))

/-- What a column takes from a condition. -/
def sampleOf (col : Column) : PyValue → Option (ℤ × Number)
  | .dict condition =>
    if pyEq (getItem condition (lit "status")) (.str (lit "ok")) && col.chosen (fieldValue condition col.gate) then
      numbers (fieldValue condition col.position) (fieldValue condition col.value)
    else none
  | _ => none

/-! ## Artifacts -/

def isBench (name : PyStr) : PyValue → Bool
  | .dict b => pyEq (getItem b (lit "bench")) (.str name)
  | _ => false

def benchesOf (data : Items) : List PyValue :=
  match getItem data (lit "benches") with
  | .list xs => xs
  | _ => []

/-- The first bench of a name. -/
def benchOf (name : PyStr) (benches : List PyValue) : Option Items :=
  match benches.find? (isBench name) with
  | some (.dict b) => some b
  | _ => none

/-- The conditions of a column's bench. -/
def conditionList (col : Column) (data : Items) : List PyValue :=
  match conditions (benchOf col.benchName (benchesOf data)) with
  | .ok cs => cs
  | .error _ => []

/-- The walk of a column: objects up to its bench, conditions that can be looped over, and
each one readable. -/
structure WalkOk (col : Column) (data : Items) : Prop where
  benches : ∀ before b after, benchesOf data = before ++ b :: after → (∀ x ∈ before, isBench col.benchName x = false) →
    ∃ items, b = .dict items
  iterable : ∃ cs, conditions (benchOf col.benchName (benchesOf data)) = .ok cs
  samples : ∀ c ∈ conditionList col data, SampleOk col c

/-- What a column takes from an artifact. -/
def samplesOf (col : Column) (data : Items) : List (ℤ × Number) := (conditionList col data).filterMap (sampleOf col)

/-- Every value that is the best so far is in the range of a double. -/
def RecordsFit (better : ℤ → ℤ → Bool) (best : Option ℤ) (samples : List (ℤ × Number)) : Prop :=
  ∀ before s after, samples = before ++ s :: after → (∀ m ∈ best, better s.1 m = true) →
    (∀ r ∈ before, better s.1 r.1 = true) → s.2.fits = true

/-- An artifact a row can be made of. -/
structure Walkable (data : Items) : Prop where
  loss : WalkOk lossColumn data
  lossFits : RecordsFit (fun n best => decide (best < n)) (some (-1)) (samplesOf lossColumn data)
  flash : WalkOk flashColumn data
  flashFits : ∀ s ∈ samplesOf flashColumn data, isPositive s.2 = true → s.2.fits = true
  train : WalkOk trainColumn data
  trainFits : RecordsFit (fun seq best => decide (seq < best)) none (samplesOf trainColumn data)

/-! ## Texts -/

def inCell (s : PyStr) : Bool := oneLine s && !hasBar false s

def machineOf (data : Items) : Items :=
  match getItem data (lit "machine") with
  | .dict machine => machine
  | _ => []

/-- The texts of an artifact's row. -/
def textsOf (repr : PyValue → PyStr) (data : Items) : List PyStr :=
  [Bench.strOf repr (getOr (machineOf data) (lit "chip") (.str (lit "?"))),
    Bench.strOf repr (getOr (machineOf data) (lit "mlx_version") (.str (lit "?"))),
    Bench.strOf repr (getOr data (lit "tier") (.str (lit "?")))] ++
    match getItem data (lit "pr") with
    | .str s => [s]
    | _ => []

/-! ## Files -/

/-- The artifact of a file, if it is complete. -/
def completeOf (limit : ℕ) (f : File) : Option Items :=
  match contentOf limit f.2 with
  | .parses doc =>
    match decode doc with
    | .dict data => if artifactIsComplete data then some data else none
    | _ => none
  | _ => none

def Warning.name : Warning → PyStr
  | .unparseable name => name
  | .partialArtifact name => name

section Accepts
variable (repr : PyValue → PyStr) (limit : ℕ)

/-- The files are loaded, all but the complete artifacts with a warning, every row is
computed, and every row is one line of the table, with the cells of the header. -/
structure Accepts (files : List File) (loaded : Loaded) (rows : List CommunityRow) : Prop where
  loads : loadCommunityArtifacts limit files = .ok loaded
  complete : loaded.artifacts = files.filterMap (completeOf limit)
  warned : loaded.warnings.map Warning.name = (files.filter fun f => (completeOf limit f).isNone).map Prod.fst
  summarises : loaded.artifacts.mapM (summarizeRow repr) = .ok rows
  table : ∃ body, lines (renderMarkdownTable rows) = header :: separator :: body ∧
    body.Perm (rows.map fun row => tableLine (rowCells row)) ∧ ∀ l ∈ body, (cells l).length = (cells header).length

end Accepts

/-! ## Samples -/

section Samples
variable {condition : Items} {key : PyStr} {v : PyValue} {col : Column} {c : PyValue} {r : Option (ℤ × Number)}

theorem identityField_eq_ok : identityField condition key = .ok v ↔
    (identityItems condition).isSome = true ∧ v = getItem ((identityItems condition).getD []) key := by
  unfold identityField identityItems
  cases getOr condition (lit "identity") (.dict []) with
  | dict identity => simp [eq_comm]
  | _ => simp

theorem field_eq_ok : field condition key = .ok v ↔ readable condition key = true ∧ v = fieldValue condition key := by
  unfold field readable fieldValue
  cases getOr condition (lit "result") (.dict []) with
  | dict items =>
    cases hitem : lookup (.str key) items with
    | some x => simp [contains, index, getItem, hitem, bind, Except.bind, eq_comm]
    | none => simp [contains, hitem, bind, Except.bind, identityField_eq_ok]
  | list xs =>
    simp only [contains, bind, Except.bind]
    cases xs.any fun x => pyEq x (.str key) with
    | true => simp [index]
    | false => simp [identityField_eq_ok]
  | tuple xs =>
    simp only [contains, bind, Except.bind]
    cases xs.any fun x => pyEq x (.str key) with
    | true => simp [index]
    | false => simp [identityField_eq_ok]
  | str s =>
    by_cases hin : key <:+: s
    · simp [contains, index, hin, bind, Except.bind]
    · simp [contains, hin, bind, Except.bind, identityField_eq_ok]
  | _ => simp [contains, bind, Except.bind]

theorem sample_eq_ok : col.sample c = .ok r ↔ SampleOk col c ∧ r = sampleOf col c := by
  cases c with
  | dict condition =>
    unfold Column.sample SampleOk sampleOf
    simp only [PyValue.dict.injEq, exists_eq_left']
    cases hok : pyEq (getItem condition (lit "status")) (.str (lit "ok")) with
    | false =>
      simp only [Bool.not_false, if_true, Bool.false_and, Bool.false_eq_true, if_false, false_imp_iff, true_and,
        Except.ok.injEq]
      exact eq_comm
    | true =>
      simp only [Bool.not_true, Bool.false_eq_true, if_false, Bool.true_and, forall_true_left, bind_eq_ok, field_eq_ok,
        and_assoc, exists_and_left, exists_eq_left]
      refine and_congr_right fun _ => ?_
      cases col.chosen (fieldValue condition col.gate) with
      | false =>
        simp only [Bool.not_false, if_true, Bool.false_eq_true, if_false, false_imp_iff, true_and, Except.ok.injEq]
        exact eq_comm
      | true =>
        simp only [Bool.not_true, Bool.false_eq_true, if_false, forall_true_left, if_true, bind_eq_ok, field_eq_ok,
          and_assoc, exists_and_left, exists_eq_left]
        refine and_congr_right fun _ => and_congr_right fun _ => ?_
        exact ⟨fun h => (Except.ok.inj h).symm, fun h => congrArg _ h.symm⟩
  | _ => simp [Column.sample, SampleOk]

/-- A value that is there is no default. -/
theorem getOr_eq_getItem {data : Items} {d : PyValue} (h : getItem data key ≠ .none) : getOr data key d = getItem data key := by
  unfold getItem at h ⊢
  unfold getOr
  cases hl : lookup (.str key) data with
  | none => rw [hl] at h; exact absurd rfl h
  | some v => rfl

/-! ## Walks -/

/-- A property of every element and what comes before it. -/
theorem forall_split_cons {α : Type} {x : α} {l : List α} {P : List α → α → Prop} :
    (∀ before y after, x :: l = before ++ y :: after → P before y) ↔
      P [] x ∧ ∀ before y after, l = before ++ y :: after → P (x :: before) y := by
  constructor
  · intro h
    exact ⟨h [] x l rfl, fun before y after hl => h (x :: before) y after (by rw [hl]; rfl)⟩
  · rintro ⟨hx, hl⟩ before y after h
    cases before with
    | nil =>
      obtain ⟨rfl, -⟩ := List.cons.inj h
      exact hx
    | cons b before =>
      obtain ⟨rfl, hrest⟩ := List.cons.inj h
      exact hl before y after hrest

theorem bench_eq_ok {name : PyStr} {benches : List PyValue} {b : Option Items} : bench name benches = .ok b ↔
    (∀ before x after, benches = before ++ x :: after → (∀ y ∈ before, isBench name y = false) →
      ∃ items, x = .dict items) ∧ b = benchOf name benches := by
  induction benches with
  | nil =>
    constructor
    · intro h
      exact ⟨fun before x after hsplit => by simp at hsplit, (Except.ok.inj h).symm⟩
    · rintro ⟨-, rfl⟩
      rfl
  | cons x rest ih =>
    rw [forall_split_cons (P := fun before x => (∀ y ∈ before, isBench name y = false) → ∃ items, x = .dict items)]
    simp only [List.not_mem_nil, false_imp_iff, implies_true, forall_true_left, List.forall_mem_cons]
    cases x with
    | dict items =>
      rw [bench, benchOf, List.find?_cons]
      cases hbench : isBench name (.dict items) with
      | true =>
        have hname : pyEq (getItem items (lit "bench")) (.str name) = true := hbench
        rw [if_pos hname]
        simp only [Except.ok.injEq, PyValue.dict.injEq, exists_eq', Bool.true_eq_false, false_and, false_imp_iff,
          implies_true, and_self, true_and]
        exact eq_comm
      | false =>
        have hname : ¬ pyEq (getItem items (lit "bench")) (.str name) = true := by
          rw [show pyEq (getItem items (lit "bench")) (.str name) = false from hbench]
          exact Bool.false_ne_true
        rw [if_neg hname, ih]
        simp only [PyValue.dict.injEq, exists_eq', true_and]
        rfl
    | _ => simp [bench]

variable {σ : Type} {update : σ → ℤ × Number → Except AggregateError σ} {acc acc' : σ} {cs : List PyValue}

theorem step_eq_ok : col.step update acc c = .ok acc' ↔
    SampleOk col c ∧ (match sampleOf col c with
      | some s => update acc s
      | none => .ok acc) = .ok acc' := by
  constructor
  · intro h
    obtain ⟨s, hs, hrest⟩ := bind_eq_ok.1 h
    obtain ⟨hok, rfl⟩ := sample_eq_ok.1 hs
    exact ⟨hok, hrest⟩
  · rintro ⟨hok, hrest⟩
    exact bind_eq_ok.2 ⟨_, sample_eq_ok.2 ⟨hok, rfl⟩, hrest⟩

/-- A loop is a loop over what its conditions give. -/
theorem foldlM_step_eq_ok : cs.foldlM (col.step update) acc = .ok acc' ↔
    (∀ c ∈ cs, SampleOk col c) ∧ (cs.filterMap (sampleOf col)).foldlM update acc = .ok acc' := by
  induction cs generalizing acc with
  | nil => simp
  | cons c cs ih =>
    simp only [List.foldlM_cons, bind_eq_ok, step_eq_ok, ih, List.forall_mem_cons]
    cases hsample : sampleOf col c with
    | none =>
      rw [List.filterMap_cons_none hsample]
      constructor
      · rintro ⟨a, ⟨hc, ha⟩, hcs, hrest⟩
        rw [← Except.ok.inj ha] at hrest
        exact ⟨⟨hc, hcs⟩, hrest⟩
      · rintro ⟨⟨hc, hcs⟩, hrest⟩
        exact ⟨acc, ⟨hc, rfl⟩, hcs, hrest⟩
    | some s =>
      rw [List.filterMap_cons_some hsample, List.foldlM_cons, bind_eq_ok]
      constructor
      · rintro ⟨a, ⟨hc, ha⟩, hcs, hrest⟩
        exact ⟨⟨hc, hcs⟩, a, ha, hrest⟩
      · rintro ⟨⟨hc, hcs⟩, a, ha, hrest⟩
        exact ⟨a, ⟨hc, ha⟩, hcs, hrest⟩

/-- A column's walk over a list of benches. -/
theorem walk_eq_ok {data : Items} {xs : List PyValue} (hbenches : getItem data (lit "benches") = .list xs) :
    col.walk update acc data = .ok acc' ↔ WalkOk col data ∧ (samplesOf col data).foldlM update acc = .ok acc' := by
  have hlist : iterate (getOr data (lit "benches") (.list [])) = .ok xs := by
    rw [getOr_eq_getItem (by rw [hbenches]; exact PyValue.noConfusion), hbenches]
    rfl
  have hof : benchesOf data = xs := by rw [benchesOf, hbenches]
  have hlistOf : ∀ cs, conditions (benchOf col.benchName xs) = .ok cs → conditionList col data = cs := by
    intro cs hcs
    rw [conditionList, hof, hcs]
  rw [Column.walk, hlist]
  change (do
    let cs ← conditions (← bench col.benchName xs)
    cs.foldlM (col.step update) acc) = .ok acc' ↔ _
  simp only [bind_eq_ok, bench_eq_ok, foldlM_step_eq_ok]
  constructor
  · rintro ⟨b, ⟨hbefore, rfl⟩, cs, hcs, hsamples, hrest⟩
    refine ⟨⟨by rw [hof]; exact hbefore, ⟨cs, by rw [hof]; exact hcs⟩, by rw [hlistOf cs hcs]; exact hsamples⟩, ?_⟩
    rw [samplesOf, hlistOf cs hcs]
    exact hrest
  · rintro ⟨⟨hbefore, ⟨cs, hcs⟩, hsamples⟩, hrest⟩
    rw [hof] at hbefore hcs
    rw [hlistOf cs hcs] at hsamples
    rw [samplesOf, hlistOf cs hcs] at hrest
    exact ⟨_, ⟨hbefore, rfl⟩, cs, hcs, hsamples, hrest⟩

end Samples

/-! ## Updates -/

section Updates
variable {samples : List (ℤ × Number)} {x : Number}

theorem toFloat_cases (x : Number) :
    x.fits = true ∧ (∃ y, toFloat x = .ok y) ∨ x.fits = false ∧ toFloat x = .error .overflow := by
  rcases Bench.toFloat_cases x with ⟨hfits, y, hy⟩ | ⟨hfits, hy⟩
  · exact .inl ⟨hfits, y, by rw [toFloat, hy]; rfl⟩
  · exact .inr ⟨hfits, by rw [toFloat, hy]; rfl⟩

/-- The flash loop goes through exactly when every positive peak is a double. -/
theorem keepPeak_ok_iff (peaks : List (ℤ × PyFloat)) : (∃ out, samples.foldlM keepPeak peaks = .ok out) ↔
    ∀ s ∈ samples, isPositive s.2 = true → s.2.fits = true := by
  induction samples generalizing peaks with
  | nil => exact ⟨fun _ => List.forall_mem_nil _, fun _ => ⟨peaks, rfl⟩⟩
  | cons s samples ih =>
    rw [List.forall_mem_cons, List.foldlM_cons, keepPeak]
    cases isPositive s.2 with
    | false =>
      simp only [Bool.false_eq_true, if_false, false_imp_iff, true_and]
      exact ih peaks
    | true =>
      rcases toFloat_cases s.2 with ⟨hfits, y, hy⟩ | ⟨hfits, hy⟩
      · rw [hy, hfits]
        simp only [if_true, forall_true_left, true_and]
        exact ih _
      · rw [hy, hfits]
        simp [Except.map, bind, Except.bind]

/-- The first sample is a record if it beats `best`, a later one if it beats the first too. -/
theorem recordsFit_cons {better : ℤ → ℤ → Bool} {best : Option ℤ} {s : ℤ × Number} :
    RecordsFit better best (s :: samples) ↔ ((∀ m ∈ best, better s.1 m = true) → s.2.fits = true) ∧
      ∀ before y after, samples = before ++ y :: after → (∀ m ∈ best, better y.1 m = true) →
        better y.1 s.1 = true → (∀ r ∈ before, better y.1 r.1 = true) → y.2.fits = true := by
  unfold RecordsFit
  rw [forall_split_cons (P := fun (before : List (ℤ × Number)) (y : ℤ × Number) =>
    (∀ m ∈ best, better y.1 m = true) → (∀ r ∈ before, better y.1 r.1 = true) → y.2.fits = true)]
  simp only [List.not_mem_nil, false_imp_iff, implies_true, forall_true_left, List.forall_mem_cons, and_imp]

/-- A loop that keeps the best goes through exactly when every record is a double. -/
theorem keepBest_ok_iff {better : ℤ → ℤ → Bool} (htrans : ∀ a b c, better a b = true → better b c = true → better a c = true)
    (hbest : ∀ a b c, better a b = true → better c b = false → better a c = true) (best : Option ℤ × Option PyFloat) :
    (∃ out, samples.foldlM (keepBest better) best = .ok out) ↔ RecordsFit better best.1 samples := by
  induction samples generalizing best with
  | nil => exact ⟨fun _ before s after h => by simp at h, fun _ => ⟨best, rfl⟩⟩
  | cons s samples ih =>
    rw [recordsFit_cons, List.foldlM_cons, keepBest]
    cases hall : best.1.all (better s.1) with
    | true =>
      -- A record: what beats it beats what was the best before it.
      have hbeats : ∀ m ∈ best.1, better s.1 m = true := by simpa [Option.all_eq_true] using hall
      rw [if_pos rfl, forall_prop_of_true hbeats]
      rcases toFloat_cases s.2 with ⟨hfits, y, hy⟩ | ⟨hfits, hy⟩
      · rw [hy, hfits]
        change (∃ out, samples.foldlM (keepBest better) (some s.1, some y) = .ok out) ↔ _
        rw [ih]
        constructor
        · intro h
          exact ⟨rfl, fun before y after hl _ hys => h before y after hl fun m hm => by
            rwa [← Option.some.inj hm]⟩
        · rintro ⟨-, h⟩ before y after hl hys
          have hy₁ : better y.1 s.1 = true := hys s.1 rfl
          exact h before y after hl (fun m hm => htrans _ _ _ hy₁ (hbeats m hm)) hy₁
      · rw [hy, hfits]
        simp [Except.map, bind, Except.bind]
    | false =>
      -- No record: what beats the best beats this one, too.
      obtain ⟨m, hm, hno⟩ : ∃ m ∈ best.1, better s.1 m = false := by
        simpa [Option.all_eq_false] using hall
      rw [if_neg Bool.false_ne_true]
      change (∃ out, samples.foldlM (keepBest better) best = .ok out) ↔ _
      rw [ih]
      constructor
      · intro h
        refine ⟨fun hall' => ?_, fun before y after hl hys _ => h before y after hl hys⟩
        rw [hall' m hm] at hno
        cases hno
      · rintro ⟨-, h⟩ before y after hl hys
        exact h before y after hl hys (hbest _ _ _ (hys m hm) hno)

end Updates

/-! ## Rows -/

section Rows
variable {repr : PyValue → PyStr} {data machine : Items} {xs : List PyValue} {row : CommunityRow} {rows : List CommunityRow}

/-- What is checked before a row is made. -/
theorem artifactIsComplete_iff : artifactIsComplete data = true ↔ ∃ machine n xs, getItem data (lit "machine") = .dict machine ∧
    truthy (getItem machine (lit "chip")) = true ∧ intOf (getItem machine (lit "ram_gib")) = some n ∧
      getItem data (lit "benches") = .list xs := by
  unfold artifactIsComplete
  cases hmachine : getItem data (lit "machine") with
  | dict machine =>
    cases htruthy : truthy (getItem machine (lit "chip")) with
    | false => simp [htruthy]
    | true =>
      cases hram : intOf (getItem machine (lit "ram_gib")) with
      | none => simp [htruthy, hram]
      | some n =>
        cases hbenches : getItem data (lit "benches") with
        | list xs => simp [htruthy, hram]
        | _ => simp [htruthy, hram]
  | _ => simp

theorem exists_map_ok {α β : Type} {x : Except AggregateError α} {f : α → β} :
    (∃ b, x.map f = .ok b) ↔ ∃ a, x = .ok a := by
  cases x with
  | error e => simp [Except.map]
  | ok a => simp [Except.map]

/-- The texts of a row. -/
def CommunityRow.texts (row : CommunityRow) : List PyStr := [row.chip, row.mlx, row.tier] ++ row.pr.toList

theorem summarizeRow_eq_ok (hcomplete : artifactIsComplete data = true) (h : summarizeRow repr data = .ok row) :
    row.texts = textsOf repr data := by
  obtain ⟨machine, n, xs, hmachine, -, hram, -⟩ := artifactIsComplete_iff.1 hcomplete
  rw [summarizeRow, getOr_eq_getItem (by rw [hmachine]; exact PyValue.noConfusion), hmachine] at h
  dsimp only at h
  split at h
  · cases h
  · simp only [bind_eq_ok] at h
    obtain ⟨loss, -, flash, -, train, -, hrow⟩ := h
    rw [← Except.ok.inj hrow, CommunityRow.texts, textsOf, machineOf, hmachine]
    dsimp only
    cases getItem data (lit "pr") with
    | str s => rfl
    | _ => rfl

theorem summarizeRow_ok (hcomplete : artifactIsComplete data = true) : (∃ row, summarizeRow repr data = .ok row) ↔
    (∃ v, lossKernelPeak data = .ok v) ∧ (∃ v, flashDoubling data = .ok v) ∧ ∃ v, trainTpsFlash data = .ok v := by
  obtain ⟨machine, n, xs, hmachine, -, hram, -⟩ := artifactIsComplete_iff.1 hcomplete
  have hne : getItem machine (lit "ram_gib") ≠ .none := fun h => by rw [h] at hram; cases hram
  rw [summarizeRow, getOr_eq_getItem (by rw [hmachine]; exact PyValue.noConfusion), hmachine]
  dsimp only
  rw [getOr_eq_getItem hne, hram]
  simp only [bind_eq_ok]
  constructor
  · rintro ⟨row, loss, hloss, flash, hflash, train, htrain, -⟩
    exact ⟨⟨loss, hloss⟩, ⟨flash, hflash⟩, train, htrain⟩
  · rintro ⟨⟨loss, hloss⟩, ⟨flash, hflash⟩, train, htrain⟩
    exact ⟨_, loss, hloss, flash, hflash, train, htrain, rfl⟩

/-- A row can be made exactly of a `Walkable` artifact. -/
theorem summarizeRow_ok_iff (hcomplete : artifactIsComplete data = true) :
    (∃ row, summarizeRow repr data = .ok row) ↔ Walkable data := by
  obtain ⟨_, _, xs, -, -, -, hbenches⟩ := artifactIsComplete_iff.1 hcomplete
  have hloss : (∃ v, lossKernelPeak data = .ok v) ↔ WalkOk lossColumn data ∧
      RecordsFit (fun n best => decide (best < n)) (some (-1)) (samplesOf lossColumn data) := by
    rw [lossKernelPeak, exists_map_ok]
    simp only [walk_eq_ok hbenches, exists_and_left]
    rw [keepBest_ok_iff (by simp; omega) (by simp; omega)]
  have hflash : (∃ v, flashDoubling data = .ok v) ↔ WalkOk flashColumn data ∧
      ∀ s ∈ samplesOf flashColumn data, isPositive s.2 = true → s.2.fits = true := by
    rw [flashDoubling, exists_map_ok]
    simp only [walk_eq_ok hbenches, exists_and_left]
    rw [keepPeak_ok_iff]
  have htrain : (∃ v, trainTpsFlash data = .ok v) ↔ WalkOk trainColumn data ∧
      RecordsFit (fun seq best => decide (seq < best)) none (samplesOf trainColumn data) := by
    rw [trainTpsFlash, exists_map_ok]
    simp only [walk_eq_ok hbenches, exists_and_left]
    rw [keepBest_ok_iff (by simp; omega) (by simp; omega)]
  rw [summarizeRow_ok hcomplete, hloss, hflash, htrain]
  constructor
  · rintro ⟨⟨h₁, h₂⟩, ⟨h₃, h₄⟩, h₅, h₆⟩
    exact ⟨h₁, h₂, h₃, h₄, h₅, h₆⟩
  · rintro ⟨h₁, h₂, h₃, h₄, h₅, h₆⟩
    exact ⟨⟨h₁, h₂⟩, ⟨h₃, h₄⟩, h₅, h₆⟩

/-! ## Cells -/

/-- No line end, and no bar at all. -/
theorem inCell_of_forall {s : PyStr} (h : ∀ c ∈ s, c ≠ 10 ∧ c ≠ 13 ∧ c ≠ 124) : inCell s = true := by
  have hbar : ∀ escaped, hasBar escaped s = false := by
    induction s with
    | nil => exact fun _ => rfl
    | cons c s ih =>
      rw [List.forall_mem_cons] at h
      intro escaped
      rw [hasBar, ih h.2, beq_eq_false_iff_ne.2 h.1.2.2]
      rfl
  rw [inCell, hbar, Bool.not_false, Bool.and_true, oneLine_iff]
  exact ⟨fun hmem => (h 10 hmem).1 rfl, fun hmem => (h 13 hmem).2.1 rfl⟩

/-- Digits, points and signs. -/
def isNumeral (s : PyStr) : Prop := ∀ c ∈ s, c.val = 45 ∨ c.val = 46 ∨ 48 ≤ c.val ∧ c.val ≤ 57

theorem isNumeral_minus : isNumeral (lit "-") := fun c hc => .inl (by rw [List.mem_singleton.1 hc]; rfl)

theorem isNumeral_point : isNumeral (lit ".") := fun c hc => .inr (.inl (by rw [List.mem_singleton.1 hc]; rfl))

theorem inCell_of_isNumeral {s : PyStr} (h : isNumeral s) : inCell s = true := by
  refine inCell_of_forall fun c hc => ?_
  have hval := h c hc
  refine ⟨?_, ?_, ?_⟩
  · rintro rfl
    omega
  · rintro rfl
    omega
  · rintro rfl
    omega

theorem isNumeral_append {s t : PyStr} (hs : isNumeral s) (ht : isNumeral t) : isNumeral (s ++ t) :=
  fun c hc => (List.mem_append.1 hc).elim (hs c) (ht c)

theorem isNumeral_nat (n : ℕ) : isNumeral (lit (toString n)) := by
  intro c hc
  obtain ⟨d, hd, rfl⟩ := List.mem_map.1 hc
  rw [Nat.toString_eq_ofList_toDigits, String.toList_ofList] at hd
  have hdigit := Nat.isDigit_of_mem_toDigits (by decide) (by decide) hd
  simp only [Char.isDigit, Bool.and_eq_true, decide_eq_true_eq, ge_iff_le, UInt32.le_iff_toNat_le] at hdigit
  have hval : (Fin.ofNat 0x110000 d.toNat).val = d.toNat := Nat.mod_eq_of_lt (by
    have hlow : d.toNat ≤ 57 := hdigit.2
    omega)
  rw [hval]
  exact .inr (.inr hdigit)

theorem isNumeral_int (n : ℤ) : isNumeral (lit (toString n)) := by
  rw [Int.toString_eq_repr, Int.repr_eq_if]
  split
  · exact isNumeral_nat n.toNat
  · have hminus : lit ("-" ++ (-n).toNat.repr) = lit "-" ++ lit (toString (-n).toNat) := by
      simp [lit, String.toList_append]
    rw [hminus]
    exact isNumeral_append isNumeral_minus (isNumeral_nat _)

theorem inCell_formatFixed (digits : ℕ) (x : PyFloat) : inCell (formatFixed digits x) = true := by
  cases x with
  | finite q =>
    refine inCell_of_isNumeral ?_
    unfold formatFixed
    refine isNumeral_append (isNumeral_append (isNumeral_append (isNumeral_append ?_ (isNumeral_nat _)) ?_) ?_)
      (isNumeral_nat _)
    · split
      · exact isNumeral_minus
      · exact fun c hc => by cases hc
    · exact isNumeral_point
    · intro c hc
      obtain rfl := (List.mem_replicate.1 hc).2
      exact .inr (.inr (by decide))
  | inf neg =>
    cases neg with
    | true => exact show inCell (lit "-inf") = true by decide
    | false => exact show inCell (lit "inf") = true by decide
  | nan object => exact show inCell (lit "nan") = true by decide

theorem inCell_emDash : inCell emDash = true := by decide

theorem inCell_cellFloat (value : Option PyFloat) (digits : ℕ) : inCell (cellFloat value digits) = true := by
  cases value with
  | none => exact inCell_emDash
  | some x => exact inCell_formatFixed digits x

/-- The cells of a row can stand in a table exactly when its texts can. -/
theorem inCell_rowCells : (∀ c ∈ rowCells row, inCell c = true) ↔ ∀ t ∈ row.texts, inCell t = true := by
  have hram := inCell_of_isNumeral (isNumeral_int row.ramGib)
  simp only [rowCells, CommunityRow.texts, List.forall_mem_cons, List.forall_mem_append, hram, inCell_cellFloat, true_and,
    List.not_mem_nil, false_imp_iff, implies_true, and_true]
  cases hpr : row.pr with
  | none => simp [inCell_emDash]
  | some s => simp [and_assoc]

/-- Every row is a line of the table, with the cells of the header, exactly when its texts
can stand in cells. -/
theorem table_iff : (∃ body, lines (renderMarkdownTable rows) = header :: separator :: body ∧
    body.Perm (rows.map fun row => tableLine (rowCells row)) ∧ ∀ l ∈ body, (cells l).length = (cells header).length) ↔
      ∀ row ∈ rows, ∀ t ∈ row.texts, inCell t = true := by
  have hcells : ∀ row, rowCells row ≠ [] := fun row => by simp [rowCells]
  have hheader : (cells header).length = columns.length := by decide
  have hrow : ∀ row, (oneLine (tableLine (rowCells row)) = true ∧
      (cells (tableLine (rowCells row))).length = (cells header).length) ↔ ∀ t ∈ row.texts, inCell t = true := by
    intro row
    rw [← inCell_rowCells, oneLine_tableLine (hcells row), hheader]
    change _ ∧ (cells (tableLine (rowCells row))).length = (rowCells row).length ↔ _
    rw [length_cells_iff (hcells row), ← forall₂_and]
    simp only [inCell, Bool.and_eq_true, Bool.not_eq_true']
  constructor
  · rintro ⟨body, hlines, hperm, hcount⟩ row hmem
    have hl : tableLine (rowCells row) ∈ body := hperm.symm.subset (List.mem_map_of_mem hmem)
    have hline : tableLine (rowCells row) ∈ lines (renderMarkdownTable rows) := by
      rw [hlines]
      exact List.mem_cons_of_mem _ (List.mem_cons_of_mem _ hl)
    exact (hrow row).1 ⟨oneLine_of_mem_lines hline, hcount _ hl⟩
  · intro h
    have hsorted : (rows.mergeSort rowLe).Perm rows := List.mergeSort_perm rows rowLe
    refine ⟨(rows.mergeSort rowLe).map fun row => tableLine (rowCells row), ?_, hsorted.map _, ?_⟩
    · refine lines_join (by simp) ?_
      simp only [List.cons_append, List.nil_append, List.forall_mem_cons, List.forall_mem_map]
      exact ⟨by decide, by decide, fun row hmem => ((hrow row).2 (h row (hsorted.subset hmem))).1⟩
    · simp only [List.forall_mem_map]
      exact fun row hmem => ((hrow row).2 (h row (hsorted.subset hmem))).2

end Rows

/-! ## Loading -/

section Loading
variable {limit : ℕ} {f : File} {files : List File} {out out' : Loaded}

/-- What becomes of one file. -/
theorem loadStep_cases (limit : ℕ) (out : Loaded) (f : File) :
    (∃ e, contentOf limit f.2 = .raises e ∧ loadStep limit out f = .error (.read e)) ∨
      (∀ e, contentOf limit f.2 ≠ .raises e) ∧
        ((∃ data, completeOf limit f = some data ∧
            loadStep limit out f = .ok { out with artifacts := out.artifacts ++ [data] }) ∨
          completeOf limit f = none ∧
            ∃ w, w.name = f.1 ∧ loadStep limit out f = .ok { out with warnings := out.warnings ++ [w] }) := by
  unfold loadStep completeOf
  cases contentOf limit f.2 with
  | raises e => exact .inl ⟨e, rfl, rfl⟩
  | corrupt => exact .inr ⟨fun e => Content.noConfusion, .inr ⟨rfl, .unparseable f.1, rfl, rfl⟩⟩
  | directory => exact .inr ⟨fun e => Content.noConfusion, .inr ⟨rfl, .unparseable f.1, rfl, rfl⟩⟩
  | parses doc =>
    refine .inr ⟨fun e => Content.noConfusion, ?_⟩
    rw [readData]
    dsimp only
    cases decode doc with
    | dict data =>
      cases hcomplete : artifactIsComplete data with
      | true => exact .inl ⟨data, by simp [hcomplete], by simp [hcomplete]⟩
      | false => exact .inr ⟨by simp [hcomplete], .partialArtifact f.1, rfl, by simp [hcomplete]⟩
    | _ => exact .inr ⟨rfl, .partialArtifact f.1, rfl, rfl⟩

/-- Loading goes through exactly when every file can be read, and then it keeps the
complete artifacts and names every other file. -/
theorem load_eq_ok : files.foldlM (loadStep limit) out = .ok out' →
    (∀ f ∈ files, ∀ e, contentOf limit f.2 ≠ .raises e) ∧
      out'.artifacts = out.artifacts ++ files.filterMap (completeOf limit) ∧
        out'.warnings.map Warning.name = out.warnings.map Warning.name ++
          (files.filter fun f => (completeOf limit f).isNone).map Prod.fst := by
  induction files generalizing out with
  | nil =>
    intro h
    obtain rfl := Except.ok.inj h
    simp
  | cons f files ih =>
    intro h
    rw [List.foldlM_cons, bind_eq_ok] at h
    obtain ⟨mid, hstep, hrest⟩ := h
    obtain ⟨hread, hartifacts, hwarnings⟩ := ih hrest
    rw [List.forall_mem_cons]
    rcases loadStep_cases limit out f with ⟨e, -, herror⟩ | ⟨hok, ⟨data, hdata, hload⟩ | ⟨hnone, w, hw, hload⟩⟩
    · cases hstep.symm.trans herror
    · obtain rfl := Except.ok.inj (hstep.symm.trans hload)
      refine ⟨⟨hok, hread⟩, ?_, ?_⟩
      · rw [hartifacts, List.filterMap_cons_some hdata, List.append_assoc]
        rfl
      · rw [hwarnings, List.filter_cons_of_neg (by simp [hdata])]
    · obtain rfl := Except.ok.inj (hstep.symm.trans hload)
      refine ⟨⟨hok, hread⟩, ?_, ?_⟩
      · rw [hartifacts, List.filterMap_cons_none hnone]
      · rw [hwarnings, List.filter_cons_of_pos (by simp [hnone])]
        simp [hw]

theorem exists_load (h : ∀ f ∈ files, ∀ e, contentOf limit f.2 ≠ .raises e) (out : Loaded) :
    ∃ out', files.foldlM (loadStep limit) out = .ok out' := by
  induction files generalizing out with
  | nil => exact ⟨out, rfl⟩
  | cons f files ih =>
    rw [List.forall_mem_cons] at h
    simp only [List.foldlM_cons, bind_eq_ok]
    rcases loadStep_cases limit out f with ⟨e, he, -⟩ | ⟨-, ⟨data, -, hload⟩ | ⟨-, w, -, hload⟩⟩
    · exact absurd he (h.1 e)
    · obtain ⟨out', hout⟩ := ih h.2 { out with artifacts := out.artifacts ++ [data] }
      exact ⟨out', _, hload, hout⟩
    · obtain ⟨out', hout⟩ := ih h.2 { out with warnings := out.warnings ++ [w] }
      exact ⟨out', _, hload, hout⟩

theorem complete_of_mem {data : Items} (h : data ∈ files.filterMap (completeOf limit)) : artifactIsComplete data = true := by
  obtain ⟨f, -, hf⟩ := List.mem_filterMap.1 h
  unfold completeOf at hf
  split at hf
  · split at hf
    · split_ifs at hf with hcomplete
      rwa [← Option.some.inj hf]
    · cases hf
  · cases hf

end Loading

/-! ## The table -/

section Table
variable {repr : PyValue → PyStr} {limit : ℕ} {files : List File}

/-- What files that make a table must hold. -/
theorem Accepts.needs {loaded : Loaded} {rows : List CommunityRow} (h : Accepts repr limit files loaded rows) :
    (∀ f ∈ files, ∀ e, contentOf limit f.2 ≠ .raises e) ∧
      ∀ data ∈ files.filterMap (completeOf limit), Walkable data ∧ ∀ t ∈ textsOf repr data, inCell t = true := by
  refine ⟨(load_eq_ok h.loads).1, fun data hdata => ?_⟩
  have hcomplete := complete_of_mem hdata
  rw [← h.complete] at hdata
  obtain ⟨row, hrow, hsummary⟩ := forall₂_exists (mapM_eq_ok.1 h.summarises) data hdata
  refine ⟨(summarizeRow_ok_iff hcomplete).1 ⟨row, hsummary⟩, ?_⟩
  rw [← summarizeRow_eq_ok hcomplete hsummary]
  exact table_iff.1 h.table row hrow

theorem exists_rows {ds : List Items} (h : ∀ data ∈ ds, ∃ row, summarizeRow repr data = .ok row) :
    ∃ rows, ds.mapM (summarizeRow repr) = .ok rows := by
  simp only [mapM_eq_ok]
  induction ds with
  | nil => exact ⟨[], .nil⟩
  | cons data ds ih =>
    rw [List.forall_mem_cons] at h
    obtain ⟨row, hrow⟩ := h.1
    obtain ⟨rows, hrows⟩ := ih h.2
    exact ⟨row :: rows, .cons hrow hrows⟩

/-- The submissions make a table exactly when every file can be read, every complete
artifact can be walked, and its texts can stand in cells. -/
theorem accepts_iff (repr : PyValue → PyStr) (limit : ℕ) (files : List File) :
    (∃ loaded rows, Accepts repr limit files loaded rows) ↔
      (∀ f ∈ files, ∀ e, contentOf limit f.2 ≠ .raises e) ∧
        ∀ data ∈ files.filterMap (completeOf limit), Walkable data ∧ ∀ t ∈ textsOf repr data, inCell t = true := by
  constructor
  · rintro ⟨loaded, rows, h⟩
    exact h.needs
  · rintro ⟨hread, hartifacts⟩
    obtain ⟨loaded, hload⟩ := exists_load hread ⟨[], []⟩
    obtain ⟨-, hkept, hwarned⟩ := load_eq_ok hload
    rw [List.nil_append] at hkept
    have hall : ∀ data ∈ loaded.artifacts, ∃ row, summarizeRow repr data = .ok row := fun data hdata => by
      rw [hkept] at hdata
      exact (summarizeRow_ok_iff (complete_of_mem hdata)).2 (hartifacts data hdata).1
    obtain ⟨rows, hrows⟩ := exists_rows hall
    refine ⟨loaded, rows, hload, hkept, hwarned, hrows, table_iff.2 fun row hrow => ?_⟩
    obtain ⟨data, hdata, hsummary⟩ := forall₂_exists (mapM_eq_ok.1 hrows).flip row hrow
    rw [hkept] at hdata
    rw [summarizeRow_eq_ok (complete_of_mem hdata) hsummary]
    exact (hartifacts data hdata).2

end Table

/-- A complete artifact whose only bench is `null`. -/
def nullBench : File :=
  (lit "m5", asciiBytes "\x7b\"machine\": \x7b\"chip\": \"M5\", \"ram_gib\": 32\x7d, \"benches\": [null]\x7d")

/-- `[null]`. -/
def isNullList : List PyValue → Bool
  | [.none] => true
  | _ => false

/-- It is loaded, and then `bench.get` fails. -/
theorem rejects_nullBench : ¬ ∃ loaded rows, Accepts (fun _ => []) 1000 [nullBench] loaded rows := by
  rintro ⟨loaded, rows, h⟩
  have hnull : ((completeOf 1000 nullBench).any fun data => isNullList (benchesOf data)) = true := by decide +kernel
  obtain ⟨data, hdata, hbenches⟩ := Option.any_eq_true _ _ |>.1 hnull
  have hmem : data ∈ [nullBench].filterMap (completeOf 1000) := List.mem_filterMap.2 ⟨nullBench, List.mem_cons_self, hdata⟩
  unfold isNullList at hbenches
  split at hbenches
  · next hlist =>
    obtain ⟨items, hitems⟩ := ((h.needs.2 data hmem).1.loss).benches [] .none [] hlist fun x hx => by cases hx
    cases hitems
  · cases hbenches

end MlxTrainPerf.Community
