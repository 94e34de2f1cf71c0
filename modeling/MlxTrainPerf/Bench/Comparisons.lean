import MlxTrainPerf.Bench.Report
/-!
# What the bench report keeps

Which comparisons a set of ok artifacts asks for, stated on the artifacts alone, and
when `report` gives each of them: no identity field it groups by may be a list or an
object, every quotient must be a double, and no two comparisons may print the same two
names (`report_complete_iff`).
-/
open PyStr PyJson Groups Budget

namespace MlxTrainPerf.Bench

/-! ## The comparisons -/

/-- A file whose status is ok and whose identity is an object. -/
structure OkArtifact where
  doc : Json
  data : Items
  ident : Items
  decodes : decode doc = .dict data
  isOk : pyEq (getItem data (lit "status")) (.str (lit "ok")) = true
  hasIdentity : lookup (.str (lit "identity")) data = some (.dict ident)

def OkArtifact.content (a : OkArtifact) : Option Content := some (.parses a.doc)

def OkArtifact.member (a : OkArtifact) : Member := ⟨a.data, a.ident⟩

/-- Every identity field but `impl` and `session_id` is the same. -/
def sameGrid (p : Member × Member) : Bool := pyEq (.dict (groupFields p.1.ident)) (.dict (groupFields p.2.ident))

def otherImpl (p : Member × Member) : Bool := !plainEq p.1.impl p.2.impl

def sameSession (p : Member × Member) : Bool := plainEq p.1.sessionId p.2.sessionId

/-- A wall time that is a number, and not zero. -/
def Member.rateable (m : Member) : Bool :=
  match numberOf m.wallS with
  | some w => !w.isZero
  | none => false

/-- The pairs that ask for a ratio. -/
def comparablePairs (members : List Member) : List (Member × Member) :=
  (pairsOf members).filter fun p => sameGrid p && (otherImpl p && sameSession p) && (p.1.rateable && p.2.rateable)

/-- The pairs that are refused. -/
def crossPairs (members : List Member) : List (Member × Member) :=
  (pairsOf members).filter fun p => sameGrid p && (otherImpl p && !sameSession p)

/-- The slower one first. -/
def slowerFirst (p : Member × Member) : Member × Member :=
  if numLe p.2.wallS.num p.1.wallS.num then p else p.swap

/-- Is an int in the range of a double? -/
def Number.fits : Number → Bool
  | .int n => (Memfit.floatOfInt n).isSome
  | .float _ => true

/-- Is the quotient in the range of a double? With a float, each int must be. -/
def quotientFits : Number → Number → Bool
  | .int m, .int n =>
    match roundDouble (m / n) with
    | .finite _ => true
    | _ => false
  | a, b => a.fits && b.fits

def divisible (p : Member × Member) : Bool :=
  match numberOf (slowerFirst p).1.wallS, numberOf (slowerFirst p).2.wallS with
  | some a, some b => quotientFits a b
  | _, _ => false

section Complete
variable (repr : PyValue → PyStr)

/-- The names a comparison prints. -/
def pairLabel (p : Member × Member) : PyStr := label repr (slowerFirst p).1.impl (slowerFirst p).2.impl

def pairRatio (p : Member × Member) : Except ReportError (Option (PyStr × PyFloat)) :=
  ratioLabelAndValue repr p.1.impl p.2.impl p.1.wallS p.2.wallS

/-- Every comparison has a ratio of its own, every refused pair is named, and there is
nothing else. -/
def Complete (members : List Member) (out : Report) : Prop :=
  (∃ es, List.Forall₂ (fun p e => pairRatio repr p = .ok (some e)) (comparablePairs members) es ∧ out.ratios.Perm es) ∧
    out.crossSessionExcluded.Perm ((crossPairs members).map crossEntry)

/-- When nothing is lost. -/
structure Reportable (members : List Member) : Prop where
  hashable : ∀ m ∈ members, ∀ e ∈ groupFields m.ident, (hashed e.2).isSome = true
  divides : ∀ p ∈ comparablePairs members, divisible p = true
  distinct : ((comparablePairs members).map (pairLabel repr)).Nodup

end Complete

/-! ## Keys -/

section Keys
variable {v w : PyValue} {a b : Atom} {xs ys : Items}

/-- Values that can be hashed are equal exactly as dict keys. -/
theorem pyEq_iff_hashed (hv : hashed v = some a) (hw : hashed w = some b) : pyEq v w = true ↔ a = b := by
  rcases v with _ | _ | _ | (_ | _ | _) | _ | _ | _ | _ | _
  all_goals simp only [hashed, reduceCtorEq, Option.some.injEq] at hv
  all_goals rcases w with _ | _ | _ | (_ | _ | _) | _ | _ | _ | _ | _
  all_goals simp only [hashed, reduceCtorEq, Option.some.injEq] at hw
  all_goals subst hv hw
  all_goals simp [pyEq, atomEq, numEq, PyValue.num, PyFloat.num]

/-- The keys of an object: strings, each once. -/
def ObjectKeys (items : Items) : Prop := (∀ e ∈ items, ∃ s, e.1 = .str s) ∧ (items.map Prod.fst).Nodup

theorem objectKeys_of_decode {doc : Json} (h : decode doc = .dict xs) : ObjectKeys xs := by
  obtain ⟨d, rfl, hnodup, -⟩ := decode_eq_dict h
  refine ⟨fun x hx => ?_, ?_⟩
  · obtain ⟨y, -, rfl⟩ := List.mem_map.1 hx
    exact ⟨y.1, rfl⟩
  · have hmap : (strItems d).map Prod.fst = (d.map Prod.fst).map PyKey.str := by simp [strItems]
    rw [hmap]
    exact hnodup.map fun s t h => PyKey.str.inj h

theorem OkArtifact.objectKeys (a : OkArtifact) : ObjectKeys a.ident := by
  obtain ⟨d, hd, -, hvalues⟩ := decode_eq_dict a.decodes
  have hmem := mem_of_lookup_str a.hasIdentity
  rw [hd] at hmem
  obtain ⟨e, he, hpair⟩ := List.mem_map.1 hmem
  obtain ⟨j, hj⟩ := hvalues e he
  exact objectKeys_of_decode (hj.symm.trans (Prod.ext_iff.1 hpair).2)

theorem ObjectKeys.groupFields (h : ObjectKeys xs) : ObjectKeys (groupFields xs) :=
  ⟨fun e he => h.1 e (List.mem_of_mem_filter he), h.2.sublist (List.filter_sublist.map _)⟩

/-- An item with its value as a dict key. -/
def keyItem (e : PyKey × PyValue) : PyKey × Atom := (e.1, (hashed e.2).getD .none)

theorem keys_keyItem (l : Items) : (l.map keyItem).map Prod.fst = l.map Prod.fst := by
  rw [List.map_map]
  rfl

theorem hashItem_eq_ok {e : PyKey × PyValue} {k : PyKey × Atom} :
    hashItem e = .ok k ↔ (hashed e.2).isSome = true ∧ k = keyItem e := by
  unfold hashItem keyItem
  cases hashed e.2 with
  | none => simp
  | some a => simp [eq_comm]

theorem hashItems_eq_ok {l : Items} {key : List (PyKey × Atom)} :
    l.mapM hashItem = .ok key ↔ (∀ e ∈ l, (hashed e.2).isSome = true) ∧ key = l.map keyItem := by
  rw [mapM_eq_ok]
  simp only [hashItem_eq_ok]
  induction l generalizing key with
  | nil => simp
  | cons e l ih =>
    simp only [List.forall₂_cons_left_iff, ih, List.forall_mem_cons, List.map_cons]
    constructor
    · rintro ⟨_, _, ⟨he, rfl⟩, ⟨hl, rfl⟩, rfl⟩
      exact ⟨⟨he, hl⟩, rfl⟩
    · rintro ⟨⟨he, hl⟩, rfl⟩
      exact ⟨_, _, ⟨he, rfl⟩, ⟨hl, rfl⟩, rfl⟩

theorem groupKey_eq_ok {ident : Items} {key : List (PyKey × Atom)} : groupKey ident = .ok key ↔
    (∀ e ∈ groupFields ident, (hashed e.2).isSome = true) ∧ key = ((groupFields ident).insertionSort itemLe).map keyItem := by
  rw [groupKey, hashItems_eq_ok]
  simp only [List.mem_insertionSort]

/-- Two objects of hashable values are equal exactly when they have the same items. -/
theorem pyEq_dict_iff_perm (hx : ObjectKeys xs) (hy : ObjectKeys ys) (hxh : ∀ e ∈ xs, (hashed e.2).isSome = true)
    (hyh : ∀ e ∈ ys, (hashed e.2).isSome = true) :
    pyEq (.dict xs) (.dict ys) = true ↔ (xs.map keyItem).Perm (ys.map keyItem) := by
  have hnodup : ∀ l : Items, ObjectKeys l → (l.map keyItem).Nodup := fun l h => .of_map Prod.fst (by rw [keys_keyItem]; exact h.2)
  -- The item of a key is the only one, so a lookup finds an equal value exactly for a common item.
  have hitem : ∀ e ∈ xs, (∃ y, lookup e.1 ys = some y ∧ pyEq e.2 y = true) ↔ keyItem e ∈ ys.map keyItem := by
    intro e he
    obtain ⟨s, hs⟩ := hx.1 e he
    obtain ⟨a, ha⟩ := Option.isSome_iff_exists.1 (hxh e he)
    rw [hs, List.mem_map]
    constructor
    · rintro ⟨y, hlookup, heq⟩
      have hmem := mem_of_lookup_str hlookup
      obtain ⟨b, hb⟩ := Option.isSome_iff_exists.1 (hyh _ hmem)
      refine ⟨(.str s, y), hmem, ?_⟩
      rw [keyItem, keyItem, hs, ha, hb, (pyEq_iff_hashed ha hb).1 heq]
    · rintro ⟨f, hf, hkey⟩
      obtain ⟨b, hb⟩ := Option.isSome_iff_exists.1 (hyh f hf)
      obtain ⟨hfst, hatom⟩ := Prod.ext_iff.1 hkey
      simp only [keyItem, hb, ha, Option.getD_some] at hfst hatom
      rw [hs] at hfst
      exact ⟨f.2, lookup_str_of_mem hy.2 (by rw [← hfst]; exact hf), (pyEq_iff_hashed ha hb).2 hatom.symm⟩
  rw [pyEq, Bool.and_eq_true, beq_iff_eq, pyEqItems_iff]
  constructor
  · rintro ⟨hlen, hall⟩
    have hsub : xs.map keyItem ⊆ ys.map keyItem := by
      refine fun k hk => ?_
      obtain ⟨e, he, rfl⟩ := List.mem_map.1 hk
      exact (hitem e he).1 (hall e he)
    exact (List.subperm_of_subset (hnodup xs hx) hsub).perm_of_length_le (by simp [hlen])
  · intro hperm
    exact ⟨by simpa using hperm.length_eq, fun e he => (hitem e he).2 (hperm.subset (List.mem_map_of_mem he))⟩

instance : Std.Total itemLe := ⟨fun a b => le_total (keyText' a.1) (keyText' b.1)⟩

instance : IsTrans _ itemLe := ⟨fun _ _ _ h h' => le_trans (α := PyStr) h h'⟩

/-- Sorting makes the order of an object's items not matter. -/
theorem sorted_eq_of_perm (hy : ObjectKeys ys) (hperm : (xs.map keyItem).Perm (ys.map keyItem)) :
    (xs.insertionSort itemLe).map keyItem = (ys.insertionSort itemLe).map keyItem := by
  have hsort : ∀ l : Items, ((l.insertionSort itemLe).map keyItem).Perm (l.map keyItem) :=
    fun l => (List.perm_insertionSort itemLe l).map keyItem
  have hordered : ∀ l : Items, ((l.insertionSort itemLe).map keyItem).Pairwise fun x y => keyText' x.1 ≤ keyText' y.1 :=
    fun l => List.pairwise_map.2 (List.pairwise_insertionSort itemLe l)
  have hstr : ∀ x ∈ ys.map keyItem, ∃ s, x.1 = .str s := by
    intro x hx
    obtain ⟨e, he, rfl⟩ := List.mem_map.1 hx
    exact hy.1 e he
  have hinj := List.inj_on_of_nodup_map (show ((ys.map keyItem).map Prod.fst).Nodup by rw [keys_keyItem]; exact hy.2)
  refine List.Perm.eq_of_pairwise (fun x y hx' hy' hxy hyx => ?_) (hordered xs) (hordered ys)
    ((hsort xs).trans (hperm.trans (hsort ys).symm))
  have hxmem := hperm.subset ((hsort xs).subset hx')
  have hymem := (hsort ys).subset hy'
  obtain ⟨s, hs⟩ := hstr x hxmem
  obtain ⟨t, ht⟩ := hstr y hymem
  refine hinj hxmem hymem ?_
  rw [hs, ht] at hxy hyx ⊢
  exact congrArg _ (le_antisymm (α := PyStr) hxy hyx)

/-- Two group keys are equal exactly when the objects they come from are. -/
theorem groupKey_eq_iff {a b : OkArtifact} {k k' : List (PyKey × Atom)} (hk : groupKey a.ident = .ok k)
    (hk' : groupKey b.ident = .ok k') : k = k' ↔ sameGrid (a.member, b.member) = true := by
  obtain ⟨ha, rfl⟩ := groupKey_eq_ok.1 hk
  obtain ⟨hb, rfl⟩ := groupKey_eq_ok.1 hk'
  rw [sameGrid, OkArtifact.member, OkArtifact.member,
    pyEq_dict_iff_perm a.objectKeys.groupFields b.objectKeys.groupFields ha hb]
  have hsort : ∀ l : Items, ((l.insertionSort itemLe).map keyItem).Perm (l.map keyItem) :=
    fun l => (List.perm_insertionSort itemLe l).map keyItem
  exact ⟨fun heq => (hsort _).symm.trans (heq ▸ hsort _), sorted_eq_of_perm b.objectKeys.groupFields⟩

end Keys

/-! ## Ratios -/

section Ratios
variable {repr : PyValue → PyStr} {m : Member} {p : Member × Member} {w : Number} {v : PyValue}

theorem num_numberOf (h : numberOf v = some w) : w.num = v.num := by
  cases v with
  | int n => rw [← Option.some.inj h]; rfl
  | bool b => rw [← Option.some.inj h]; rfl
  | float f => rw [← Option.some.inj h]; rfl
  | none => cases h
  | str s => cases h
  | list xs => cases h
  | tuple xs => cases h
  | dict items => cases h
  | other i => cases h

theorem rateable_iff : m.rateable = true ↔ ∃ w, numberOf m.wallS = some w ∧ w.isZero = false := by
  unfold Member.rateable
  cases numberOf m.wallS with
  | none => simp
  | some w => simp

theorem toFloat_cases (w : Number) :
    w.fits = true ∧ (∃ x, w.toFloat = .ok x) ∨ w.fits = false ∧ w.toFloat = .error .overflow := by
  cases w with
  | float f => exact .inl ⟨rfl, f, rfl⟩
  | int n =>
    unfold Number.fits Number.toFloat
    rcases Option.eq_none_or_eq_some (Memfit.floatOfInt n) with h | ⟨m, h⟩
    · exact .inr (by simp only [h]; exact ⟨rfl, rfl⟩)
    · exact .inl (by simp only [h]; exact ⟨rfl, _, rfl⟩)

theorem floatDivision_cases (a b : Number) :
    (a.fits && b.fits) = true ∧ (∃ q, (do let x ← a.toFloat; let y ← b.toFloat; return floatDiv x y) = .ok q) ∨
      (a.fits && b.fits) = false ∧
        (do let x ← a.toFloat; let y ← b.toFloat; return floatDiv x y) = (.error .overflow : Except ReportError PyFloat) := by
  rcases toFloat_cases a with ⟨ha, x, hx⟩ | ⟨ha, hx⟩
  · rcases toFloat_cases b with ⟨hb, y, hy⟩ | ⟨hb, hy⟩
    · exact .inl ⟨by rw [ha, hb]; rfl, floatDiv x y, by rw [hx, hy]; rfl⟩
    · exact .inr ⟨by rw [ha, hb]; rfl, by rw [hx, hy]; rfl⟩
  · exact .inr ⟨by rw [ha]; rfl, by rw [hx]; rfl⟩

/-- A division of walls fails exactly when it leaves the range of a double. -/
theorem trueDiv_cases (a b : Number) : quotientFits a b = true ∧ (∃ q, trueDiv a b = .ok q) ∨
    quotientFits a b = false ∧ trueDiv a b = .error .overflow := by
  cases a with
  | float f => exact floatDivision_cases (.float f) b
  | int m =>
    cases b with
    | float g => exact floatDivision_cases (.int m) (.float g)
    | int n =>
      unfold quotientFits trueDiv
      dsimp only
      generalize roundDouble (m / n) = q
      cases q with
      | finite q => exact .inl ⟨rfl, _, rfl⟩
      | inf neg => exact .inr ⟨rfl, rfl⟩
      | nan i => exact .inr ⟨rfl, rfl⟩

theorem pairRatio_of_not (h : (p.1.rateable && p.2.rateable) = false) : pairRatio repr p = .ok none := by
  unfold pairRatio ratioLabelAndValue
  unfold Member.rateable at h
  cases ha : numberOf p.1.wallS with
  | none => rfl
  | some a =>
    cases hb : numberOf p.2.wallS with
    | none => rfl
    | some b =>
      rw [ha, hb] at h
      have hzero : (a.isZero || b.isZero) = true := by
        rw [← Bool.not_not (a.isZero || b.isZero), Bool.not_or]
        exact congrArg _ h
      simp only [hzero, if_true]

variable (repr) in
/-- A pair of rateable artifacts has a ratio exactly when the division can be done. -/
theorem pairRatio_cases (h : (p.1.rateable && p.2.rateable) = true) :
    divisible p = true ∧ (∃ q, pairRatio repr p = .ok (some (pairLabel repr p, q))) ∨
      divisible p = false ∧ pairRatio repr p = .error .overflow := by
  obtain ⟨h₁, h₂⟩ := Bool.and_eq_true_iff.1 h
  obtain ⟨a, ha, hazero⟩ := rateable_iff.1 h₁
  obtain ⟨b, hb, hbzero⟩ := rateable_iff.1 h₂
  unfold divisible pairLabel pairRatio ratioLabelAndValue slowerFirst
  rw [← num_numberOf ha, ← num_numberOf hb]
  simp only [ha, hb, hazero, hbzero, Bool.or_self, Bool.false_eq_true, if_false]
  by_cases hle : numLe b.num a.num = true
  · simp only [if_pos hle, ha, hb]
    rcases trueDiv_cases a b with ⟨hfits, q, hq⟩ | ⟨hfits, hq⟩
    · exact .inl ⟨hfits, q, by rw [hq]; rfl⟩
    · exact .inr ⟨hfits, by rw [hq]; rfl⟩
  · simp only [if_neg hle, Prod.fst_swap, Prod.snd_swap, ha, hb]
    rcases trueDiv_cases b a with ⟨hfits, q, hq⟩ | ⟨hfits, hq⟩
    · exact .inl ⟨hfits, q, by rw [hq]; rfl⟩
    · exact .inr ⟨hfits, by rw [hq]; rfl⟩

theorem pairRatio_eq_some {e : PyStr × PyFloat} (h : pairRatio repr p = .ok (some e)) :
    divisible p = true ∧ e.1 = pairLabel repr p := by
  cases hrate : p.1.rateable && p.2.rateable with
  | false => cases h.symm.trans (pairRatio_of_not hrate)
  | true =>
    rcases pairRatio_cases repr hrate with ⟨hdiv, q, hq⟩ | ⟨-, hq⟩
    · exact ⟨hdiv, congrArg Prod.fst (Option.some.inj (Except.ok.inj (h.symm.trans hq)))⟩
    · cases h.symm.trans hq

end Ratios

/-! ## The loop -/

section Loop
variable {repr : PyValue → PyStr} {ps : List (Member × Member)} {p : Member × Member} {out out' : Report}
  {rs : List (Option (PyStr × PyFloat))}

theorem pairStep_of_sameImpl (h : otherImpl p = false) : pairStep repr out p = .ok out := by
  have himpl : plainEq p.1.impl p.2.impl = true := by simpa [otherImpl] using h
  rw [pairStep, if_pos himpl]

theorem pairStep_of_otherSession (h : otherImpl p = true) (hsession : sameSession p = false) :
    pairStep repr out p = .ok { out with crossSessionExcluded := out.crossSessionExcluded ++ [crossEntry p] } := by
  have himpl : plainEq p.1.impl p.2.impl = false := by simpa [otherImpl] using h
  rw [pairStep, himpl, show plainEq p.1.sessionId p.2.sessionId = false from hsession]
  rfl

/-- A pair of one session leaves its ratio, if it has one. -/
theorem pairStep_of_sameSession (h : otherImpl p = true) (hsession : sameSession p = true) :
    pairStep repr out p = (pairRatio repr p).map fun r =>
      { out with ratios := r.toList.foldl (fun d e => setKey d e.1 e.2) out.ratios } := by
  have himpl : plainEq p.1.impl p.2.impl = false := by simpa [otherImpl] using h
  have hratio : ratioLabelAndValue repr p.1.impl p.2.impl p.1.wallS p.2.wallS = pairRatio repr p := rfl
  rw [pairStep, himpl, show plainEq p.1.sessionId p.2.sessionId = true from hsession, hratio]
  simp only [Bool.false_eq_true, if_false, Bool.not_true]
  rcases pairRatio repr p with e | _ | ⟨l, q⟩
  · rfl
  · rfl
  · rfl

/-- What the loop leaves: the ratios of the rest kept by label, and the refused pairs in order. -/
theorem foldlM_pairStep : ps.foldlM (pairStep repr) out = .ok out' ↔
    ∃ rs, (ps.filter fun p => otherImpl p && sameSession p).mapM (pairRatio repr) = .ok rs ∧
      out' = ⟨rs.reduceOption.foldl (fun d e => setKey d e.1 e.2) out.ratios,
        out.crossSessionExcluded ++ (ps.filter fun p => otherImpl p && !sameSession p).map crossEntry⟩ := by
  induction ps generalizing out with
  | nil =>
    simp only [List.foldlM_nil, List.filter_nil, List.mapM_nil, List.map_nil, List.append_nil]
    constructor
    · intro h
      exact ⟨[], rfl, (Except.ok.inj h).symm⟩
    · rintro ⟨rs, hrs, rfl⟩
      rw [← Except.ok.inj hrs]
      rfl
  | cons p ps ih =>
    rw [List.foldlM_cons]
    cases hother : otherImpl p with
    | false =>
      rw [pairStep_of_sameImpl hother, List.filter_cons_of_neg (by simp [hother]), List.filter_cons_of_neg (by simp [hother])]
      exact ih
    | true =>
      cases hsame : sameSession p with
      | false =>
        rw [pairStep_of_otherSession hother hsame, List.filter_cons_of_neg (by simp [hsame]),
          List.filter_cons_of_pos (by simp [hother, hsame])]
        refine ih.trans ?_
        simp only [List.append_assoc, List.map_cons, List.singleton_append]
      | true =>
        rw [pairStep_of_sameSession hother hsame, List.filter_cons_of_pos (by simp [hother, hsame]),
          List.filter_cons_of_neg (by simp [hsame]), List.mapM_cons]
        cases hratio : pairRatio repr p with
        | error e => simp [Except.map, bind, Except.bind]
        | ok r =>
          simp only [Except.map]
          refine ih.trans ?_
          simp only [bind_eq_ok, Except.ok.injEq]
          constructor
          · rintro ⟨rs, hrs, rfl⟩
            refine ⟨r :: rs, ⟨r, rfl, rs, hrs, rfl⟩, ?_⟩
            cases r with
            | none => rfl
            | some e => rfl
          · rintro ⟨_, ⟨_, rfl, rs, hrs, hret⟩, rfl⟩
            obtain rfl := Except.ok.inj hret
            refine ⟨rs, hrs, ?_⟩
            cases r with
            | none => rfl
            | some e => rfl

/-- Of the results, the ones that are ratios are those of the rateable pairs. -/
theorem ratios_of_results (h : List.Forall₂ (fun p r => pairRatio repr p = .ok r) ps rs) :
    List.Forall₂ (fun p e => pairRatio repr p = .ok (some e)) (ps.filter fun p => p.1.rateable && p.2.rateable)
      rs.reduceOption := by
  induction h with
  | nil => exact .nil
  | @cons p r ps rs hpr _ ih =>
    cases hrate : p.1.rateable && p.2.rateable with
    | false =>
      obtain rfl := Except.ok.inj (hpr.symm.trans (pairRatio_of_not hrate))
      rw [List.filter_cons_of_neg (by simp [hrate])]
      exact ih
    | true =>
      rcases pairRatio_cases repr hrate with ⟨-, q, hq⟩ | ⟨-, hq⟩
      · obtain rfl := Except.ok.inj (hpr.symm.trans hq)
        rw [List.filter_cons_of_pos (by simp [hrate])]
        exact .cons hq ih
      · cases hpr.symm.trans hq

theorem labels_of_ratios {es : List (PyStr × PyFloat)}
    (h : List.Forall₂ (fun p e => pairRatio repr p = .ok (some e)) ps es) : es.map Prod.fst = ps.map (pairLabel repr) := by
  induction h with
  | nil => rfl
  | cons hpe _ ih => rw [List.map_cons, List.map_cons, ih, (pairRatio_eq_some hpe).2]

variable (repr) in
theorem results_exist (h : ∀ p ∈ ps, (p.1.rateable && p.2.rateable) = true → divisible p = true) :
    ∃ rs, List.Forall₂ (fun p r => pairRatio repr p = .ok r) ps rs := by
  induction ps with
  | nil => exact ⟨[], .nil⟩
  | cons p ps ih =>
    obtain ⟨rs, hrs⟩ := ih fun p' hp' => h p' (List.mem_cons_of_mem p hp')
    cases hrate : p.1.rateable && p.2.rateable with
    | false => exact ⟨none :: rs, .cons (pairRatio_of_not hrate) hrs⟩
    | true =>
      rcases pairRatio_cases repr hrate with ⟨-, q, hq⟩ | ⟨hno, -⟩
      · exact ⟨some _ :: rs, .cons hq hrs⟩
      · rw [h p List.mem_cons_self hrate] at hno
        cases hno

end Loop

/-! ## The report -/

section Report
variable {repr : PyValue → PyStr} {arts : List OkArtifact} {out : Report}

theorem keyed_eq_ok {a : OkArtifact} {km : List (PyKey × Atom) × Member} : keyed a.data = .ok km ↔
    (∀ e ∈ groupFields a.ident, (hashed e.2).isSome = true) ∧
      km = (((groupFields a.ident).insertionSort itemLe).map keyItem, a.member) := by
  have hident : identityOf a.data = .ok a.ident := by rw [identityOf, a.hasIdentity]
  simp only [keyed, hident, bind_eq_ok, Except.ok.injEq, exists_eq_left', groupKey_eq_ok]
  constructor
  · rintro ⟨_, ⟨ha, rfl⟩, hret⟩
    exact ⟨ha, (Except.ok.inj hret).symm⟩
  · rintro ⟨ha, rfl⟩
    exact ⟨_, ⟨ha, rfl⟩, rfl⟩

theorem okData_content (arts : List OkArtifact) :
    (arts.map OkArtifact.content).mapM okData = .ok (arts.map fun a => some a.data) := by
  rw [mapM_eq_ok, List.forall₂_map_left_iff, List.forall₂_map_right_iff, List.forall₂_same]
  intro a _
  rw [OkArtifact.content, okData, readData, a.decodes]
  dsimp only
  rw [if_pos a.isOk]

variable (repr) in
/-- The pairs the loop goes through, for artifacts that can be grouped. -/
theorem report_eq (h : ∀ m ∈ arts.map OkArtifact.member, ∀ e ∈ groupFields m.ident, (hashed e.2).isSome = true) :
    ∃ ps : List (Member × Member), ps.Perm ((pairsOf (arts.map OkArtifact.member)).filter sameGrid) ∧
      report repr (arts.map OkArtifact.content) = ps.foldlM (pairStep repr) ⟨[], []⟩ := by
  let key (a : OkArtifact) : List (PyKey × Atom) := ((groupFields a.ident).insertionSort itemLe).map keyItem
  have hhash : ∀ a ∈ arts, ∀ e ∈ groupFields a.ident, (hashed e.2).isSome = true :=
    fun a ha => h a.member (List.mem_map_of_mem ha)
  have hkeyed : (arts.map OkArtifact.data).mapM keyed = .ok (arts.map fun a => (key a, a.member)) := by
    rw [mapM_eq_ok, List.forall₂_map_left_iff, List.forall₂_map_right_iff, List.forall₂_same]
    exact fun a ha => keyed_eq_ok.2 ⟨hhash a ha, rfl⟩
  have hreduce : (arts.map fun a => some a.data).reduceOption = arts.map OkArtifact.data := by
    rw [List.reduceOption, List.filterMap_map]
    exact congrFun (List.filterMap_eq_map (f := OkArtifact.data)) arts
  refine ⟨(groupBy Prod.fst (arts.map fun a => (key a, a.member))).flatMap fun g => pairsOf (g.2.map Prod.snd), ?_, ?_⟩
  · have hpairs := (pairs_of_groups Prod.fst (arts.map fun a => (key a, a.member))).map (Prod.map Prod.snd Prod.snd)
    rw [List.map_flatMap] at hpairs
    simp only [← pairsOf_map] at hpairs
    refine hpairs.trans (List.Perm.of_eq ?_)
    rw [pairsOf_map, pairsOf_map, List.filter_map, List.filter_map, List.map_map]
    change ((pairsOf arts).filter fun p => decide (key p.1 = key p.2)).map (Prod.map OkArtifact.member OkArtifact.member) = _
    refine congrArg (List.map _) (List.filter_congr fun p hp => ?_)
    obtain ⟨hp₁, hp₂⟩ := mem_of_mem_pairsOf hp
    rw [Bool.eq_iff_iff, decide_eq_true_iff]
    exact groupKey_eq_iff (groupKey_eq_ok.2 ⟨hhash p.1 hp₁, rfl⟩) (groupKey_eq_ok.2 ⟨hhash p.2 hp₂, rfl⟩)
  · rw [report, okData_content]
    change (do
      let members ← (arts.map fun a : OkArtifact => some a.data).reduceOption.mapM keyed
      _) = _
    rw [hreduce, hkeyed]
    rfl

theorem hashable_of_report (h : report repr (arts.map OkArtifact.content) = .ok out) :
    ∀ m ∈ arts.map OkArtifact.member, ∀ e ∈ groupFields m.ident, (hashed e.2).isSome = true := by
  rw [report, okData_content] at h
  obtain ⟨entries, hentries, h⟩ := bind_eq_ok.1 h
  obtain rfl := Except.ok.inj hentries
  obtain ⟨members, hmembers, -⟩ := bind_eq_ok.1 h
  intro m hm
  obtain ⟨a, ha, rfl⟩ := List.mem_map.1 hm
  have hmem : a.data ∈ (arts.map fun a => some a.data).reduceOption :=
    List.reduceOption_mem_iff.2 (List.mem_map_of_mem ha)
  obtain ⟨km, -, hkm⟩ := forall₂_exists (mapM_eq_ok.1 hmembers) _ hmem
  exact (keyed_eq_ok.1 hkm).1

/-- The comparisons in the order of the loop. -/
theorem comparable_perm {members : List Member} {ps : List (Member × Member)}
    (h : ps.Perm ((pairsOf members).filter sameGrid)) :
    ((ps.filter fun p => otherImpl p && sameSession p).filter fun p => p.1.rateable && p.2.rateable).Perm
      (comparablePairs members) := by
  refine ((h.filter _).filter _).trans (List.Perm.of_eq ?_)
  rw [List.filter_filter, List.filter_filter, comparablePairs]
  exact List.filter_congr fun p _ => by grind

theorem cross_perm {members : List Member} {ps : List (Member × Member)}
    (h : ps.Perm ((pairsOf members).filter sameGrid)) :
    (ps.filter fun p => otherImpl p && !sameSession p).Perm (crossPairs members) := by
  refine (h.filter _).trans (List.Perm.of_eq ?_)
  rw [List.filter_filter, crossPairs]
  exact List.filter_congr fun p _ => by grind

variable (repr) in
/-- The report does not raise exactly when every artifact can be grouped and every comparison divided. -/
theorem report_ok_iff : (∃ out, report repr (arts.map OkArtifact.content) = .ok out) ↔
    (∀ m ∈ arts.map OkArtifact.member, ∀ e ∈ groupFields m.ident, (hashed e.2).isSome = true) ∧
      ∀ p ∈ comparablePairs (arts.map OkArtifact.member), divisible p = true := by
  constructor
  · rintro ⟨out, hout⟩
    have hhash := hashable_of_report hout
    obtain ⟨ps, hps, hloop⟩ := report_eq repr hhash
    obtain ⟨rs, hrs, -⟩ := foldlM_pairStep.1 (hloop.symm.trans hout)
    refine ⟨hhash, fun p hp => ?_⟩
    have hmem := (comparable_perm hps).symm.subset hp
    obtain ⟨e, -, hpe⟩ := forall₂_exists (ratios_of_results (mapM_eq_ok.1 hrs)) p hmem
    exact (pairRatio_eq_some hpe).1
  · rintro ⟨hhash, hdivides⟩
    obtain ⟨ps, hps, hloop⟩ := report_eq repr hhash
    obtain ⟨rs, hrs⟩ := results_exist repr fun p hp hrate =>
      hdivides p ((comparable_perm hps).subset (List.mem_filter.2 ⟨hp, hrate⟩))
    exact ⟨_, hloop.trans (foldlM_pairStep.2 ⟨rs, mapM_eq_ok.2 hrs, rfl⟩)⟩

/-- What a complete report says about its artifacts. -/
theorem reportable_of_complete (hout : report repr (arts.map OkArtifact.content) = .ok out)
    (h : Complete repr (arts.map OkArtifact.member) out) : Reportable repr (arts.map OkArtifact.member) := by
  obtain ⟨hhash, hdivides⟩ := (report_ok_iff repr).1 ⟨out, hout⟩
  obtain ⟨⟨es, hes, hratios⟩, -⟩ := h
  obtain ⟨ps, -, hloop⟩ := report_eq repr hhash
  obtain ⟨rs, -, rfl⟩ := foldlM_pairStep.1 (hloop.symm.trans hout)
  refine ⟨hhash, hdivides, ?_⟩
  rw [← labels_of_ratios hes]
  exact (hratios.map Prod.fst).nodup (nodup_dictOf rs.reduceOption)

/-- Every comparison is reported exactly when the artifacts are `Reportable`. -/
theorem report_complete_iff (repr : PyValue → PyStr) (arts : List OkArtifact) :
    (∃ out, report repr (arts.map OkArtifact.content) = .ok out ∧ Complete repr (arts.map OkArtifact.member) out) ↔
      Reportable repr (arts.map OkArtifact.member) := by
  constructor
  · rintro ⟨out, hout, hcomplete⟩
    exact reportable_of_complete hout hcomplete
  · intro h
    obtain ⟨out, hout⟩ := (report_ok_iff repr).2 ⟨h.hashable, h.divides⟩
    obtain ⟨ps, hps, hloop⟩ := report_eq repr h.hashable
    obtain ⟨rs, hrs, hleft⟩ := foldlM_pairStep.1 (hloop.symm.trans hout)
    have hperm := comparable_perm hps
    have hratios := ratios_of_results (mapM_eq_ok.1 hrs)
    -- With the labels apart, no assignment to the dict replaces another.
    have hkept : dictOf rs.reduceOption = rs.reduceOption := by
      refine dictOf_of_nodup _ ?_
      rw [labels_of_ratios hratios]
      exact (hperm.map _).nodup_iff.2 h.distinct
    obtain ⟨es, hes, hsame⟩ := List.perm_comp_forall₂ hperm.symm hratios
    refine ⟨out, hout, ?_⟩
    rw [hleft]
    exact ⟨⟨es, hes, (List.Perm.of_eq hkept).trans hsame.symm⟩, (cross_perm hps).map crossEntry⟩

end Report

/-! ## Two grid points -/

/-- An artifact of one sequence length and one implementation. -/
def seqArtifact (seq : ℤ) (impl : List Unit16) (wall : ℤ) : OkArtifact where
  doc := .obj [(escape (lit "status"), .str (escape (lit "ok"))),
    (escape (lit "identity"), .obj [(escape (lit "seq"), .int seq), (escape (lit "impl"), .str impl),
      (escape (lit "session_id"), .str (escape (lit "s")))]),
    (escape (lit "wall_s"), .int wall)]
  data := [(.str (lit "status"), .str (lit "ok")),
    (.str (lit "identity"), .dict [(.str (lit "seq"), .int seq), (.str (lit "impl"), .str (unescape impl)),
      (.str (lit "session_id"), .str (lit "s"))]),
    (.str (lit "wall_s"), .int wall)]
  ident := [(.str (lit "seq"), .int seq), (.str (lit "impl"), .str (unescape impl)), (.str (lit "session_id"), .str (lit "s"))]
  decodes := rfl
  isOk := rfl
  hasIdentity := rfl

/-- Two implementations at two sequence lengths. -/
def twoGridPoints : List OkArtifact :=
  [seqArtifact 1024 (escape (lit "naive")) 8, seqArtifact 1024 (escape (lit "fused")) 2,
    seqArtifact 2048 (escape (lit "naive")) 30, seqArtifact 2048 (escape (lit "fused")) 6]

/-- Both comparisons are "naive/fused", and only one of them is kept. -/
theorem report_twoGridPoints : ¬ ∃ out, report (fun _ => []) (twoGridPoints.map OkArtifact.content) = .ok out ∧
    Complete (fun _ => []) (twoGridPoints.map OkArtifact.member) out := by
  rintro ⟨out, hout, hcomplete⟩
  have hsame : ¬ ((comparablePairs (twoGridPoints.map OkArtifact.member)).map (pairLabel fun _ => [])).Nodup := by
    decide +kernel
  exact hsame (reportable_of_complete hout hcomplete).distinct

end MlxTrainPerf.Bench
