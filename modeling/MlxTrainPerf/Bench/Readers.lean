import MlxTrainPerf.Bench.Comparisons
/-!
# The readers of an artifact

The four functions that read an artifact file: `result_is_fresh`, `report`,
`_read_status` and `summarize_artifact_file`. Each catches a `JSONDecodeError` and nothing
else of what reading and parsing can raise, and each takes the document for an object
(`tolerates_iff`).
-/
open PyStr PyJson Groups Budget

namespace MlxTrainPerf.Bench

/-! ## Reading -/

/-- What `path.read_text()` and `json.loads` find in a file of these bytes. -/
def contentOf (limit : ℕ) (bytes : List Byte) : Content :=
  match readText bytes with
  | none => .raises .unicodeDecode
  | some text =>
    match loads limit text with
    | .ok doc => .parses doc
    | .error .syntaxError => .corrupt
    | .error .digits => .raises .valueError
    | .error .recursion => .raises .recursion

/-- `data.get(key, default)`. -/
def getOr (data : Items) (key : PyStr) (default : PyValue) : PyValue := (lookup (.str key) data).getD default

/-- `_read_status`. -/
def readStatus (repr : PyValue → PyStr) (content : Option Content) : Except ReadError PyStr :=
  match readData content with
  | .error e => .error e
  | .ok none => .ok (lit "error")
  | .ok (some (.dict data)) => .ok (strOf repr (getOr data (lit "status") (.str (lit "error"))))
  | .ok (some _) => .error .attribute

/-- What `summarize_artifact_file` returns. -/
structure Summary where
  name : PyStr
  status : PyValue
  identity : PyValue
  result : Items

/-- Every field but `identity` and `status`. -/
def resultFields (data : Items) : Items :=
  data.filter fun e => e.1 ∉ [PyKey.str (lit "identity"), PyKey.str (lit "status")]

/-- `summarize_artifact_file`, for a path of this stem. -/
def summarizeArtifactFile (name : PyStr) (content : Option Content) : Except ReadError Summary :=
  match readData content with
  | .error e => .error e
  | .ok none => .ok ⟨name, .str (lit "error"), .dict [], []⟩
  | .ok (some (.dict data)) =>
    .ok ⟨name, getOr data (lit "status") (.str (lit "error")), getOr data (lit "identity") (.dict []), resultFields data⟩
  | .ok (some _) => .error .attribute

/-- `result_is_fresh` reads as the others do. -/
theorem resultIsFresh_eq (content : Option Content) (ident : List (PyStr × PyValue)) : resultIsFresh content ident =
    match readData content with
    | .error e => .error e
    | .ok none => .ok false
    | .ok (some (.dict data)) => .ok (pyEq (getItem data (lit "status")) (.str (lit "ok")) &&
        pyEq (getItem data (lit "identity")) (.dict (strItems ident)))
    | .ok (some _) => .error .attribute := by
  rcases content with _ | doc | _ | _ | e
  · rfl
  · simp only [resultIsFresh, readData]
    cases decode doc with
    | _ => rfl
  · rfl
  · rfl
  · rfl

/-! ## Tolerance -/

/-- A status that is a string, and an identity that is an object. -/
def wellTyped (data : Items) : Bool :=
  match lookup (.str (lit "status")) data, lookup (.str (lit "identity")) data with
  | some (.str _), some (.dict _) => true
  | _, _ => false

/-- An object with both fields, and of the right types. -/
def wellFormed : Content → Bool
  | .parses doc =>
    match decode doc with
    | .dict data => wellTyped data
    | _ => false
  | _ => false

/-- A file of the artifacts directory: its stem and its bytes. -/
abbrev File : Type := PyStr × List Byte

section Tolerates
variable (repr : PyValue → PyStr) (limit : ℕ)

def contents (files : List File) : List (Option Content) := files.map fun f => some (contentOf limit f.2)

/-- No reader raises on any of the files, and a file that is no artifact is not fresh, has
an error status and an unreadable entry, and is skipped. -/
structure Tolerates (files : List File) : Prop where
  fresh : ∀ f ∈ files, ∀ ident, ∃ b, resultIsFresh (some (contentOf limit f.2)) ident = .ok b
  status : ∀ f ∈ files, ∃ s, readStatus repr (some (contentOf limit f.2)) = .ok s
  summary : ∀ f ∈ files, ∃ e, summarizeArtifactFile f.1 (some (contentOf limit f.2)) = .ok e
  reported : ∃ out, report repr (contents limit files) = .ok out
  notFresh : ∀ f ∈ files, wellFormed (contentOf limit f.2) = false →
    ∀ ident, resultIsFresh (some (contentOf limit f.2)) ident = .ok false
  errorStatus : ∀ f ∈ files, wellFormed (contentOf limit f.2) = false →
    readStatus repr (some (contentOf limit f.2)) = .ok (lit "error")
  unreadable : ∀ f ∈ files, wellFormed (contentOf limit f.2) = false →
    summarizeArtifactFile f.1 (some (contentOf limit f.2)) = .ok ⟨f.1, .str (lit "error"), .dict [], []⟩
  skipped : report repr (contents limit files) =
    report repr (contents limit (files.filter fun f => wellFormed (contentOf limit f.2)))

end Tolerates

/-- The fields a report groups by can be hashed. -/
def groupable (data : Items) : Prop :=
  ∀ ident, lookup (.str (lit "identity")) data = some (.dict ident) → ∀ e ∈ groupFields ident, (hashed e.2).isSome = true

/-- Nothing but an `"error"` status and an empty identity. -/
def bare (data : Items) : Prop :=
  ∀ e ∈ data, e = (PyKey.str (lit "status"), .str (lit "error")) ∨ e = (PyKey.str (lit "identity"), .dict [])

/-- What a file may hold. -/
def Handled : Content → Prop
  | .parses doc => ∃ data, decode doc = .dict data ∧
      if wellTyped data then pyEq (getItem data (lit "status")) (.str (lit "ok")) = true → groupable data else bare data
  | .raises _ => False
  | _ => True

/-- The artifact of a file, if it is ok. -/
def okMember : Content → Option Member
  | .parses doc =>
    match decode doc with
    | .dict data =>
      if pyEq (getItem data (lit "status")) (.str (lit "ok")) then
        match lookup (.str (lit "identity")) data with
        | some (.dict ident) => some ⟨data, ident⟩
        | _ => none
      else none
    | _ => none
  | _ => none

/-! ## The entries of a report -/

section Entries
variable {cs : List Content} {c : Content} {m : Member}

theorem exists_okArtifact (h : okMember c = some m) :
    ∃ a : OkArtifact, a.content = some c ∧ a.member = m := by
  cases c with
  | parses doc =>
    rw [okMember] at h
    split at h
    · next data hdata =>
      split_ifs at h with hok
      split at h
      · next ident hident => exact ⟨⟨doc, data, ident, hdata, hok, hident⟩, rfl, Option.some.inj h⟩
      · cases h
    · cases h
  | _ => cases h

/-- A file that can be grouped is an ok artifact. -/
theorem okMember_of_keyed {data : Items} {km : List (PyKey × Atom) × Member} (h : okData (some c) = .ok (some data))
    (hkeyed : keyed data = .ok km) : (okMember c).isSome = true := by
  obtain ⟨ident, hident, -⟩ := bind_eq_ok.1 hkeyed
  have hlookup : lookup (.str (lit "identity")) data = some (.dict ident) := by
    rw [identityOf] at hident
    split at hident
    · cases hident
    · next items hitems => rw [hitems, Except.ok.inj hident]
    · cases hident
  cases c with
  | parses doc =>
    rw [okData, readData] at h
    split at h
    · next hread => cases hread
    · next hread => cases hread
    · next data' hread =>
      rw [Except.ok.injEq] at h
      split_ifs at h with hok
      obtain rfl := Option.some.inj h
      rw [okMember, Option.some.inj (Except.ok.inj hread)]
      dsimp only
      rw [if_pos hok, hlookup]
      rfl
    · cases h
  | corrupt => cases h
  | directory => cases h
  | raises e => cases h

/-- What `report` reads from its files. -/
def okEntries (cs : List (Option Content)) : Except ReportError (List Items) := (cs.mapM okData).map List.reduceOption

theorem okEntries_cons (c : Option Content) (cs : List (Option Content)) :
    okEntries (c :: cs) = okData c >>= fun d => (okEntries cs).map (d.toList ++ ·) := by
  unfold okEntries
  rw [List.mapM_cons]
  cases okData c with
  | error e => rfl
  | ok d =>
    cases cs.mapM okData with
    | error e => rfl
    | ok ds =>
      cases d with
      | none => rfl
      | some data => rfl

/-- A report is a function of its entries. -/
theorem report_congr {repr : PyValue → PyStr} {cs cs' : List (Option Content)} (h : okEntries cs = okEntries cs') :
    report repr cs = report repr cs' := by
  unfold okEntries at h
  unfold report
  cases hread : cs.mapM okData with
  | error e =>
    cases hread' : cs'.mapM okData with
    | error e' =>
      rw [hread, hread'] at h
      rw [Except.error.inj h]
    | ok ds => rw [hread, hread'] at h; cases h
  | ok ds =>
    cases hread' : cs'.mapM okData with
    | error e' => rw [hread, hread'] at h; cases h
    | ok ds' =>
      rw [hread, hread'] at h
      simp only [bind, Except.bind]
      rw [show ds.reduceOption = ds'.reduceOption from Except.ok.inj h]

/-- Files that are skipped can be left out. -/
theorem okEntries_filter {files : List File} {g : File → Option Content} {p : File → Bool}
    (h : ∀ f ∈ files, p f = false → okData (g f) = .ok none) :
    okEntries (files.map g) = okEntries ((files.filter p).map g) := by
  induction files with
  | nil => rfl
  | cons f files ih =>
    have hrest := ih fun f' hf' => h f' (List.mem_cons_of_mem f hf')
    cases hp : p f with
    | true => rw [List.filter_cons_of_pos hp, List.map_cons, List.map_cons, okEntries_cons, okEntries_cons, hrest]
    | false =>
      rw [List.filter_cons_of_neg (by simp [hp]), List.map_cons, okEntries_cons, h f List.mem_cons_self hp, ← hrest]
      cases okEntries (files.map g) with
      | error e => rfl
      | ok ds => rfl

/-- The artifacts among files that are each ok or skipped. -/
theorem exists_artifacts (h : ∀ c ∈ cs, okData (some c) = .ok none ∨ (okMember c).isSome = true) :
    ∃ arts : List OkArtifact, arts.map OkArtifact.member = cs.filterMap okMember ∧
      okEntries (cs.map some) = okEntries (arts.map OkArtifact.content) := by
  induction cs with
  | nil => exact ⟨[], rfl, rfl⟩
  | cons c cs ih =>
    obtain ⟨arts, hmembers, hentries⟩ := ih fun c' hc' => h c' (List.mem_cons_of_mem c hc')
    cases hmember : okMember c with
    | none =>
      have hskip := (h c List.mem_cons_self).resolve_right (by rw [hmember]; exact Bool.false_ne_true)
      refine ⟨arts, by rw [List.filterMap_cons_none hmember, hmembers], ?_⟩
      rw [List.map_cons, okEntries_cons, hskip, ← hentries]
      cases okEntries (cs.map some) with
      | error e => rfl
      | ok ds => rfl
    | some m =>
      obtain ⟨a, hc, ha⟩ := exists_okArtifact hmember
      refine ⟨a :: arts, by rw [List.filterMap_cons_some hmember, List.map_cons, ha, hmembers], ?_⟩
      rw [List.map_cons, List.map_cons, okEntries_cons, okEntries_cons, hc, hentries]

variable (repr : PyValue → PyStr) in
/-- A report of any files: each is an ok artifact or skipped, and the ok ones can be reported. -/
theorem report_files_ok_iff : (∃ out, report repr (cs.map some) = .ok out) ↔
    (∀ c ∈ cs, okData (some c) = .ok none ∨ (okMember c).isSome = true) ∧
      (∀ m ∈ cs.filterMap okMember, ∀ e ∈ groupFields m.ident, (hashed e.2).isSome = true) ∧
      ∀ p ∈ comparablePairs (cs.filterMap okMember), divisible p = true := by
  have hcases : ∀ out, report repr (cs.map some) = .ok out →
      ∀ c ∈ cs, okData (some c) = .ok none ∨ (okMember c).isSome = true := by
    intro out hout c hc
    obtain ⟨entries, hentries, hrest⟩ := bind_eq_ok.1 hout
    obtain ⟨members, hmembers, -⟩ := bind_eq_ok.1 hrest
    obtain ⟨r, hr, hdata⟩ := forall₂_exists (mapM_eq_ok.1 hentries) (some c) (List.mem_map_of_mem hc)
    cases r with
    | none => exact .inl hdata
    | some data =>
      obtain ⟨km, -, hkm⟩ := forall₂_exists (mapM_eq_ok.1 hmembers) data (List.reduceOption_mem_iff.2 hr)
      exact .inr (okMember_of_keyed hdata hkm)
  constructor
  · rintro ⟨out, hout⟩
    obtain ⟨arts, hmembers, hentries⟩ := exists_artifacts (hcases out hout)
    rw [← hmembers]
    exact ⟨hcases out hout, (report_ok_iff repr).1 ⟨out, (report_congr hentries).symm.trans hout⟩⟩
  · rintro ⟨hall, hrest⟩
    obtain ⟨arts, hmembers, hentries⟩ := exists_artifacts hall
    rw [← hmembers] at hrest
    rw [report_congr hentries]
    exact (report_ok_iff repr).2 hrest

end Entries

/-! ## What the readers do with a file -/

section Files
variable {repr : PyValue → PyStr} {c : Content} {data : Items} {name : PyStr}

theorem bare_iff (hkeys : ObjectKeys data) : bare data ↔ resultFields data = [] ∧
    getOr data (lit "status") (.str (lit "error")) = .str (lit "error") ∧ getOr data (lit "identity") (.dict []) = .dict [] := by
  have hne : lit "status" ≠ lit "identity" := by decide
  constructor
  · intro h
    refine ⟨List.filter_eq_nil_iff.2 fun e he => ?_, ?_, ?_⟩
    · rcases h e he with rfl | rfl
      · simp
      · simp
    · unfold getOr
      cases hl : lookup (.str (lit "status")) data with
      | none => rfl
      | some v =>
        rcases h _ (mem_of_lookup_str hl) with heq | heq
        · exact (Prod.ext_iff.1 heq).2
        · exact absurd (PyKey.str.inj (Prod.ext_iff.1 heq).1) hne
    · unfold getOr
      cases hl : lookup (.str (lit "identity")) data with
      | none => rfl
      | some v =>
        rcases h _ (mem_of_lookup_str hl) with heq | heq
        · exact absurd (PyKey.str.inj (Prod.ext_iff.1 heq).1) hne.symm
        · exact (Prod.ext_iff.1 heq).2
  · rintro ⟨hfields, hstatus, hident⟩ ⟨k, v⟩ he
    have hkey : k = .str (lit "identity") ∨ k = .str (lit "status") := by
      simpa [or_iff_not_imp_left] using List.filter_eq_nil_iff.1 hfields (k, v) he
    rcases hkey with rfl | rfl
    · rw [getOr, lookup_str_of_mem hkeys.2 he] at hident
      exact .inr (congrArg _ hident)
    · rw [getOr, lookup_str_of_mem hkeys.2 he] at hstatus
      exact .inl (congrArg _ hstatus)

theorem not_ok_of_bare (h : bare data) : pyEq (getItem data (lit "status")) (.str (lit "ok")) = false := by
  unfold getItem
  cases hl : lookup (.str (lit "status")) data with
  | none => rfl
  | some v =>
    rcases h _ (mem_of_lookup_str hl) with heq | heq
    · obtain rfl : v = .str (lit "error") := (Prod.ext_iff.1 heq).2
      rfl
    · have hne : lit "status" ≠ lit "identity" := by decide
      exact absurd (PyKey.str.inj (Prod.ext_iff.1 heq).1) hne

/-- A file is read, as an object or not at all. -/
theorem Handled.isRead (h : Handled c) : ∃ r : Option Items, readData (some c) = .ok (r.map .dict) := by
  cases c with
  | corrupt => exact ⟨none, rfl⟩
  | parses doc =>
    obtain ⟨data, hdata, -⟩ := h
    exact ⟨some data, by rw [readData, hdata]; rfl⟩
  | directory => exact ⟨none, rfl⟩
  | raises e => exact h.elim

/-- What a file that is no artifact is read as. -/
theorem Handled.malformed (h : Handled c) (hno : wellFormed c = false) : readData (some c) = .ok none ∨
    ∃ doc data, c = .parses doc ∧ decode doc = .dict data ∧ bare data := by
  cases c with
  | corrupt => exact .inl rfl
  | parses doc =>
    obtain ⟨data, hdata, hfields⟩ := h
    rw [wellFormed, hdata] at hno
    dsimp only at hno
    rw [hno, if_neg Bool.false_ne_true] at hfields
    exact .inr ⟨doc, data, rfl, hdata, hfields⟩
  | directory => exact .inl rfl
  | raises e => exact h.elim

theorem Handled.okData_of_malformed (h : Handled c) (hno : wellFormed c = false) : okData (some c) = .ok none := by
  rcases h.malformed hno with hread | ⟨doc, data, rfl, hdata, hbare⟩
  · rw [okData, hread]
  · rw [okData, readData, hdata]
    dsimp only
    rw [not_ok_of_bare hbare]
    rfl

theorem Handled.okData_cases (h : Handled c) : okData (some c) = .ok none ∨ (okMember c).isSome = true := by
  cases hwell : wellFormed c with
  | false => exact .inl (h.okData_of_malformed hwell)
  | true =>
    cases c with
    | parses doc =>
      obtain ⟨data, hdata, -⟩ := h
      rw [wellFormed, hdata] at hwell
      rw [okData, readData, okMember, hdata]
      dsimp only at hwell ⊢
      rw [wellTyped] at hwell
      split at hwell
      · next s ident hs hident =>
        rw [hident]
        split_ifs with hok
        · exact .inr rfl
        · exact .inl rfl
      · cases hwell
    | _ => cases hwell

/-- The identity of an ok artifact can be hashed. -/
theorem Handled.hashable {m : Member} (h : Handled c) (hm : okMember c = some m) :
    ∀ e ∈ groupFields m.ident, (hashed e.2).isSome = true := by
  obtain ⟨a, hc, rfl⟩ := exists_okArtifact hm
  obtain rfl := Option.some.inj hc
  obtain ⟨data, hdata, hfields⟩ := h
  obtain rfl := PyValue.dict.inj (hdata.symm.trans a.decodes)
  split_ifs at hfields with hwell
  · exact hfields a.isOk a.ident a.hasIdentity
  · exact absurd a.isOk (by rw [not_ok_of_bare hfields]; exact Bool.false_ne_true)

end Files

/-! ## Every reader -/

section Main
variable {repr : PyValue → PyStr} {limit : ℕ} {files : List File} {c : Content} {name : PyStr}

variable (repr) in
theorem readers_ok (h : Handled c) (name : PyStr) (ident : List (PyStr × PyValue)) :
    (∃ b, resultIsFresh (some c) ident = .ok b) ∧ (∃ s, readStatus repr (some c) = .ok s) ∧
      ∃ e, summarizeArtifactFile name (some c) = .ok e := by
  obtain ⟨r, hr⟩ := h.isRead
  rw [resultIsFresh_eq, readStatus, summarizeArtifactFile, hr]
  cases r with
  | none => exact ⟨⟨_, rfl⟩, ⟨_, rfl⟩, ⟨_, rfl⟩⟩
  | some data => exact ⟨⟨_, rfl⟩, ⟨_, rfl⟩, ⟨_, rfl⟩⟩

variable (repr) in
theorem readers_malformed (h : Handled c) (hno : wellFormed c = false) (name : PyStr) (ident : List (PyStr × PyValue)) :
    resultIsFresh (some c) ident = .ok false ∧ readStatus repr (some c) = .ok (lit "error") ∧
      summarizeArtifactFile name (some c) = .ok ⟨name, .str (lit "error"), .dict [], []⟩ := by
  rw [resultIsFresh_eq, readStatus, summarizeArtifactFile]
  rcases h.malformed hno with hread | ⟨doc, data, rfl, hdata, hbare⟩
  · rw [hread]
    exact ⟨rfl, rfl, rfl⟩
  · obtain ⟨hfields, hstatus, hident⟩ := (bare_iff (objectKeys_of_decode hdata)).1 hbare
    rw [readData, hdata]
    dsimp only
    rw [not_ok_of_bare hbare, hfields, hstatus, hident]
    exact ⟨rfl, rfl, rfl⟩

theorem contents_eq (limit : ℕ) (files : List File) :
    contents limit files = (files.map fun f => contentOf limit f.2).map some := by
  rw [List.map_map]
  rfl

/-- A reader that does not raise has read an object. -/
theorem exists_dict_of_fresh {doc : Json} {ident : List (PyStr × PyValue)} {b : Bool}
    (h : resultIsFresh (some (.parses doc)) ident = .ok b) : ∃ data, decode doc = .dict data := by
  rw [resultIsFresh] at h
  split at h
  · next data hdata => exact ⟨data, hdata⟩
  · cases h

/-- What a tolerated file must hold. -/
theorem Tolerates.handled (h : Tolerates repr limit files) : ∀ f ∈ files, Handled (contentOf limit f.2) := by
  intro f hf
  obtain ⟨b, hb⟩ := h.fresh f hf []
  have hreported := h.reported
  rw [contents_eq] at hreported
  obtain ⟨-, hhash, -⟩ := (report_files_ok_iff repr).1 hreported
  have hunreadable := h.unreadable f hf
  have hmem : contentOf limit f.2 ∈ files.map fun f => contentOf limit f.2 := List.mem_map_of_mem hf
  generalize contentOf limit f.2 = c at hb hunreadable hmem
  cases c with
  | corrupt => trivial
  | directory => trivial
  | raises e => cases hb
  | parses doc =>
    obtain ⟨data, hdata⟩ := exists_dict_of_fresh hb
    refine ⟨data, hdata, ?_⟩
    split_ifs with hwell
    · intro hok ident hident
      have hmember : okMember (.parses doc) = some ⟨data, ident⟩ := by
        rw [okMember, hdata]
        dsimp only
        rw [if_pos hok, hident]
      exact hhash ⟨data, ident⟩ (List.mem_filterMap.2 ⟨_, hmem, hmember⟩)
    · have hentry := hunreadable (by rw [wellFormed, hdata]; exact Bool.eq_false_of_not_eq_true hwell)
      rw [summarizeArtifactFile, readData, hdata] at hentry
      obtain ⟨-, hstatus, hident, hfields⟩ := Summary.mk.inj (Except.ok.inj hentry)
      exact (bare_iff (objectKeys_of_decode hdata)).2 ⟨hfields, hstatus, hident⟩

/-- No reader raises and every malformed file is set aside, exactly when each file is
`Handled` and every comparison of the ok ones can be divided. -/
theorem tolerates_iff (repr : PyValue → PyStr) (limit : ℕ) (files : List File) : Tolerates repr limit files ↔
    (∀ f ∈ files, Handled (contentOf limit f.2)) ∧
      ∀ p ∈ comparablePairs (files.filterMap fun f => okMember (contentOf limit f.2)), divisible p = true := by
  have hmembers : (files.map fun f => contentOf limit f.2).filterMap okMember =
      files.filterMap fun f => okMember (contentOf limit f.2) := List.filterMap_map
  constructor
  · intro h
    refine ⟨h.handled, ?_⟩
    have hreported := h.reported
    rw [contents_eq, report_files_ok_iff, hmembers] at hreported
    exact hreported.2.2
  · rintro ⟨hfiles, hdivides⟩
    have hreported : ∃ out, report repr (contents limit files) = .ok out := by
      rw [contents_eq, report_files_ok_iff, hmembers]
      refine ⟨List.forall_mem_map.2 fun f hf => (hfiles f hf).okData_cases, fun m hm => ?_, hdivides⟩
      obtain ⟨f, hf, hmember⟩ := List.mem_filterMap.1 hm
      exact (hfiles f hf).hashable hmember
    exact {
      fresh := fun f hf ident => (readers_ok repr (hfiles f hf) f.1 ident).1
      status := fun f hf => (readers_ok repr (hfiles f hf) f.1 []).2.1
      summary := fun f hf => (readers_ok repr (hfiles f hf) f.1 []).2.2
      reported := hreported
      notFresh := fun f hf hno ident => (readers_malformed repr (hfiles f hf) hno f.1 ident).1
      errorStatus := fun f hf hno => (readers_malformed repr (hfiles f hf) hno f.1 []).2.1
      unreadable := fun f hf hno => (readers_malformed repr (hfiles f hf) hno f.1 []).2.2
      skipped := report_congr (okEntries_filter fun f hf hno => (hfiles f hf).okData_of_malformed hno) }

end Main

/-- A file that holds `[]`. -/
def listFile : File := (lit "loss_layer_n2048", [0x5B, 0x5D])

/-- A list has no `get`. -/
theorem readers_listFile : ¬ Tolerates (fun _ => []) 1000 [listFile] := by
  intro h
  obtain ⟨b, hb⟩ := h.fresh listFile List.mem_cons_self []
  have hcontent : contentOf 1000 listFile.2 = .parses (.arr []) := by
    rfl
  rw [hcontent] at hb
  cases hb

end MlxTrainPerf.Bench
