import MlxTrainPerf.Bench.Artifacts
import MlxTrainPerf.Lib.JsonText
/-!
# Running a bench script

`_spawn_script` of `contribute.py`: a script runs in its output directory, and the files
found there afterwards are its result. What the script does is given beforehand, as the
list of its file operations, in any combination. A crash is recorded only in a directory
without any other `.json` file, whoever wrote it (`crashRecorded_iff`).
-/
open PyStr PyJson Budget

namespace MlxTrainPerf.Community

open Bench (Content Env IdentityError runIdentity artifactDoc getItem)

/-! ## The directory -/

/-- The files of a directory, by name. -/
abbrev Dir : Type := List (PyStr × Content)

def contentAt (dir : Dir) (name : PyStr) : Option Content := (dir.find? fun e => e.1 = name).map Prod.snd

def removeName (dir : Dir) (name : PyStr) : Dir := dir.filter fun e => e.1 ≠ name

/-- Does `*.json` match? -/
def isJsonName (name : PyStr) : Bool := decide (lit ".json" <:+ name)

/-- `sorted(out_dir.glob("*.json"))`. -/
def jsonNames (dir : Dir) : List PyStr := ((dir.map Prod.fst).filter isJsonName).mergeSort fun a b => decide (a ≤ b)

/-- A file operation of a script; `write` puts a whole file there. -/
inductive FileOp
  | write (name : PyStr) (content : Content)
  | remove (name : PyStr)

def FileOp.apply (dir : Dir) : FileOp → Dir
  | .write name content => setKey dir name content
  | .remove name => removeName dir name

/-- One run of a script: what it does in the directory, how it ends, and the bytes it
prints. -/
structure ScriptRun where
  ops : List FileOp
  returncode : ℤ
  stdout : List Byte
  stderr : List Byte
  returncode_lt : returncode.natAbs < 2 ^ 32

/-! ## The step -/

/-- How `_spawn_script` raises. -/
inductive SpawnError
  | isDirectory
  | unicodeDecode
  | identity (e : IdentityError)
  | json (e : JsonError)
deriving DecidableEq, Repr

/-- `path.unlink(missing_ok=True)`. -/
def unlink (dir : Dir) (name : PyStr) : Except SpawnError Dir :=
  match contentAt dir name with
  | some .directory => .error .isDirectory
  | _ => .ok (removeName dir name)

/-- The rename that ends `write_result`. -/
def replace (dir : Dir) (name : PyStr) (content : Content) : Except SpawnError Dir :=
  match contentAt dir name with
  | some .directory => .error .isDirectory
  | _ => .ok (setKey dir name content)

/-- The name of the crash envelope. -/
def spawnCrashed : PyStr := lit "_spawn_crashed.json"

/-- `_SPAWN_STDERR_TAIL_CHARS`. -/
def spawnStderrTailChars : ℕ := 4000

/-- `(proc.stderr or proc.stdout or "")[-4000:]`. -/
def stderrTail (stdout stderr : PyStr) : PyStr :=
  let text := if stderr ≠ [] then stderr else stdout
  text.drop (text.length - spawnStderrTailChars)

/-- The envelope of a crash. -/
def crashDoc (env : Env) (argv : List PyStr) (tail : PyStr) (returncode : ℤ) : Except SpawnError Json := do
  let ident ← (runIdentity env [(lit "argv", .list (argv.map .str))]).mapError .identity
  (artifactDoc ident (lit "error") [(lit "error_type", .str (lit "WorkerCrashed")), (lit "error_msg", .str tail),
    (lit "returncode", .int returncode)]).mapError .json

/-- `_spawn_crash_artifact`. -/
def spawnCrashArtifact (env : Env) (argv : List PyStr) (tail : PyStr) (returncode : ℤ) (dir : Dir) :
    Except SpawnError Dir := do
  let doc ← crashDoc env argv tail returncode
  replace dir spawnCrashed (.parses doc)

/-- What a text-mode pipe gives back. -/
def pipeText (bytes : List Byte) : Except SpawnError PyStr :=
  match readText bytes with
  | some text => .ok text
  | none => .error .unicodeDecode

/-- `_spawn_script`: the directory afterwards, and the names of the artifacts. -/
def spawnScript (env : Env) (argv : List PyStr) (run : ScriptRun) (dir : Dir) : Except SpawnError (Dir × List PyStr) := do
  let dir ← unlink dir spawnCrashed
  let dir := run.ops.foldl FileOp.apply dir
  let stdout ← pipeText run.stdout
  let stderr ← pipeText run.stderr
  let paths := jsonNames dir
  if run.returncode ≠ 0 ∧ paths = [] then do
    let dir ← spawnCrashArtifact env argv (stderrTail stdout stderr) run.returncode dir
    .ok (dir, [spawnCrashed])
  else .ok (dir, paths)

/-! ## Crashes -/

/-- The script writes no artifact. -/
def WritesNothing (run : ScriptRun) : Prop := ∀ name content, .write name content ∈ run.ops → isJsonName name = false

/-- The step's only artifact is the envelope of this crash. -/
def CrashRecorded (env : Env) (argv : List PyStr) (run : ScriptRun) (dir : Dir) : Prop :=
  ∃ dir' doc data, spawnScript env argv run dir = .ok (dir', [spawnCrashed]) ∧
    contentAt dir' spawnCrashed = some (.parses doc) ∧ decode doc = .dict data ∧
      getItem data (lit "status") = .str (lit "error") ∧ getItem data (lit "error_type") = .str (lit "WorkerCrashed") ∧
        getItem data (lit "returncode") = .int run.returncode

/-! ## Names -/

section Names
variable {dir : Dir} {name name' : PyStr} {content : Content} {ops : List FileOp}

theorem mem_keys_setKey : name' ∈ (setKey dir name content).map Prod.fst ↔ name' ∈ dir.map Prod.fst ∨ name' = name := by
  rw [map_fst_setKey]
  split
  · next hmem => exact ⟨.inl, fun h => h.elim id fun h => h ▸ hmem⟩
  · rw [List.mem_append, List.mem_singleton]

theorem mem_keys_removeName : name' ∈ (removeName dir name).map Prod.fst ↔ name' ∈ dir.map Prod.fst ∧ name' ≠ name := by
  simp only [removeName, List.mem_map, List.mem_filter, decide_eq_true_eq]
  constructor
  · rintro ⟨e, ⟨he, hne⟩, rfl⟩
    exact ⟨⟨e, he, rfl⟩, hne⟩
  · rintro ⟨⟨e, he, rfl⟩, hne⟩
    exact ⟨e, ⟨he, hne⟩, rfl⟩

/-- A name that no operation writes is left where it was and not removed. -/
theorem mem_keys_apply (hwrites : ∀ content, .write name content ∉ ops) :
    name ∈ (ops.foldl FileOp.apply dir).map Prod.fst ↔ name ∈ dir.map Prod.fst ∧ .remove name ∉ ops := by
  induction ops generalizing dir with
  | nil => simp
  | cons op ops ih =>
    have hrest : ∀ content, .write name content ∉ ops := fun c hc => hwrites c (List.mem_cons_of_mem op hc)
    rw [List.foldl_cons, ih hrest, List.mem_cons, not_or]
    cases op with
    | write n c =>
      have hne : name ≠ n := fun h => hwrites c (by rw [h]; exact List.mem_cons_self)
      rw [FileOp.apply, mem_keys_setKey]
      simp [hne]
    | remove n =>
      rw [FileOp.apply, mem_keys_removeName, and_assoc]
      simp

theorem jsonNames_eq_nil : jsonNames dir = [] ↔ ∀ name ∈ dir.map Prod.fst, isJsonName name = false := by
  rw [jsonNames, ← List.length_eq_zero_iff, List.length_mergeSort, List.length_eq_zero_iff, List.filter_eq_nil_iff]
  simp only [Bool.not_eq_true]

theorem contentAt_eq_none (h : name ∉ dir.map Prod.fst) : contentAt dir name = none := by
  rw [contentAt, List.find?_eq_none.2 fun e he => ?_]
  · rfl
  · intro heq
    exact h (List.mem_map.2 ⟨e, he, of_decide_eq_true heq⟩)

theorem contentAt_setKey (h : name ∉ dir.map Prod.fst) : contentAt (setKey dir name content) name = some content := by
  have hnone := contentAt_eq_none h
  rw [contentAt, Option.map_eq_none_iff] at hnone
  rw [setKey, if_neg h, contentAt, List.find?_append, hnone]
  simp

end Names

/-! ## The envelope -/

section Envelope
variable {env : Env} {argv : List PyStr} {tail : PyStr} {returncode : ℤ} {doc : Json}

theorem encodeItems_ok {items : List (PyStr × PyValue)} (h : ∀ e ∈ items, ∃ j, encode e.2 = .ok j) :
    ∃ pairs, encodeItems (strItems items) = .ok pairs := by
  induction items with
  | nil => exact ⟨[], rfl⟩
  | cons e items ih =>
    rw [List.forall_mem_cons] at h
    obtain ⟨j, hj⟩ := h.1
    obtain ⟨pairs, hpairs⟩ := ih h.2
    refine ⟨(escape e.1, j) :: pairs, ?_⟩
    change encodeItems ((.str e.1, e.2) :: strItems items) = _
    rw [encodeItems, keyText, hj, hpairs]
    rfl

theorem encode_dict_ok {items : List (PyStr × PyValue)} (h : ∀ e ∈ items, ∃ j, encode e.2 = .ok j) :
    ∃ j, encode (.dict (strItems items)) = .ok j := by
  obtain ⟨pairs, hpairs⟩ := encodeItems_ok h
  exact ⟨.obj pairs, by rw [encode, hpairs]; rfl⟩

theorem encode_strs_ok (argv : List PyStr) : ∃ j, encode (.list (argv.map .str)) = .ok j := by
  have hlist : ∃ js, encodeList (argv.map .str) = .ok js := by
    induction argv with
    | nil => exact ⟨[], rfl⟩
    | cons s argv ih =>
      obtain ⟨js, hjs⟩ := ih
      exact ⟨.str (escape s) :: js, by rw [List.map_cons, encodeList, encode, hjs]; rfl⟩
  obtain ⟨js, hjs⟩ := hlist
  exact ⟨.arr js, by rw [encode, hjs]; rfl⟩

theorem encode_int_ok {n : ℤ} (h : n.natAbs < 2 ^ 32) : encode (.int n) = .ok (.int n) := by
  have hshort : tooLong n = false := by
    rw [tooLong, decide_eq_false_iff_not, not_lt]
    exact (Nat.toDigits_length 10 n.natAbs 10 (by decide) (by omega)).trans (by decide)
  rw [encode, hshort]
  rfl

/-- The fields of an envelope. -/
def crashFields (tail : PyStr) (returncode : ℤ) : List (PyStr × PyValue) :=
  [(lit "error_type", .str (lit "WorkerCrashed")), (lit "error_msg", .str tail), (lit "returncode", .int returncode)]

/-- The identity of an envelope. -/
def crashIdent (env : Env) (argv : List PyStr) : List (PyStr × PyValue) := env.internal ++ [(lit "argv", .list (argv.map .str))]

theorem crashDoc_eq (env : Env) (argv : List PyStr) (tail : PyStr) (returncode : ℤ) :
    crashDoc env argv tail returncode = (encode (.dict (strItems ([(lit "identity", .dict (strItems (crashIdent env argv))),
      (lit "status", .str (lit "error"))] ++ crashFields tail returncode)))).mapError .json := by
  have hfree : ((([(lit "argv", PyValue.list (argv.map .str))] : List (PyStr × PyValue)).map Prod.fst).filter fun k =>
      k ∈ env.internal.map Prod.fst) = [] := by
    simp only [Env.internal, List.map_cons, List.map_nil]
    decide
  have hident : runIdentity env [(lit "argv", .list (argv.map .str))] = .ok (crashIdent env argv) := by
    rw [runIdentity, hfree]
    exact if_neg fun h => h rfl
  rw [crashDoc, hident]
  change (artifactDoc (crashIdent env argv) (lit "error") (crashFields tail returncode)).mapError SpawnError.json = _
  have hparams : ((crashFields tail returncode).any fun e => decide (e.1 ∈ Bench.writeResultParams)) = false := rfl
  rw [artifactDoc, hparams]
  rfl

theorem crashDoc_ok (h : returncode.natAbs < 2 ^ 32) : ∃ doc, crashDoc env argv tail returncode = .ok doc := by
  have hident : ∀ e ∈ crashIdent env argv, ∃ j, encode e.2 = .ok j := by
    simp only [crashIdent, Env.internal, List.forall_mem_append, List.forall_mem_cons, List.not_mem_nil, false_imp_iff,
      implies_true, and_true]
    refine ⟨⟨⟨.int 1, encode_int_ok (by decide)⟩, ⟨_, rfl⟩, ?_, ⟨_, rfl⟩, ⟨_, rfl⟩, ⟨_, rfl⟩, ⟨_, rfl⟩⟩, encode_strs_ok argv⟩
    cases env.mlxLmVersion with
    | none => exact ⟨.null, rfl⟩
    | some s => exact ⟨.str (escape s), rfl⟩
  have hfields : ∀ e ∈ [(lit "identity", PyValue.dict (strItems (crashIdent env argv))), (lit "status", .str (lit "error"))] ++
      crashFields tail returncode, ∃ j, encode e.2 = .ok j := by
    simp only [crashFields, List.forall_mem_append, List.forall_mem_cons, List.not_mem_nil, false_imp_iff,
      implies_true, and_true]
    exact ⟨⟨encode_dict_ok hident, ⟨_, rfl⟩⟩, ⟨_, rfl⟩, ⟨_, rfl⟩, ⟨_, encode_int_ok h⟩⟩
  obtain ⟨doc, hdoc⟩ := encode_dict_ok hfields
  exact ⟨doc, by rw [crashDoc_eq, hdoc]; rfl⟩

/-- What an envelope is read as. -/
theorem decode_crashDoc (h : crashDoc env argv tail returncode = .ok doc) : ∃ data, decode doc = .dict data ∧
    getItem data (lit "status") = .str (lit "error") ∧ getItem data (lit "error_type") = .str (lit "WorkerCrashed") ∧
      getItem data (lit "returncode") = .int returncode := by
  rw [crashDoc_eq, mapError_eq_ok] at h
  have hhop := hop_eq_ok.2 ⟨doc, h, rfl⟩
  have hkeys : (([(lit "identity", PyValue.dict (strItems (crashIdent env argv))), (lit "status", .str (lit "error"))] ++
      crashFields tail returncode).map Prod.fst).Nodup := by
    change [lit "identity", lit "status", lit "error_type", lit "error_msg", lit "returncode"].Nodup
    decide
  -- Every key is plain and there once, so it comes back with what its value comes back as.
  have hitem : ∀ k v u, plain k = true → (k, v) ∈ [(lit "identity", PyValue.dict (strItems (crashIdent env argv))),
      (lit "status", .str (lit "error"))] ++ crashFields tail returncode →
      (∀ w, hop v = .ok w → w = u) → ∃ data, decode doc = .dict data ∧ getItem data k = u := by
    intro k v u hk hmem hu
    have huniq : ∀ x ∈ [(lit "identity", PyValue.dict (strItems (crashIdent env argv))),
        (lit "status", .str (lit "error"))] ++ crashFields tail returncode, x.1 = k → x.2 = v :=
      fun x hx hxk => congrArg Prod.snd (List.inj_on_of_nodup_map hkeys hx hmem hxk)
    obtain ⟨data, w, hdata, hw, hlookup⟩ := lookup_hop hk hmem huniq hhop
    exact ⟨data, hdata, by rw [getItem, hlookup, hu w hw]; rfl⟩
  have hstr : ∀ s : PyStr, merge s = s → ∀ w, hop (.str s) = .ok w → w = .str s := by
    intro s hs w hw
    rw [← Except.ok.inj hw, decode, unescape_escape, hs]
  obtain ⟨data, hdata, hstatus⟩ := hitem (lit "status") (.str (lit "error")) (.str (lit "error")) (by decide) (by simp)
    (hstr _ (by decide))
  obtain ⟨data', hdata', htype⟩ := hitem (lit "error_type") (.str (lit "WorkerCrashed")) (.str (lit "WorkerCrashed")) (by decide)
    (by simp [crashFields]) (hstr _ (by decide))
  obtain ⟨data'', hdata'', hcode⟩ := hitem (lit "returncode") (.int returncode) (.int returncode) (by decide)
    (by simp [crashFields]) (fun w hw => hop_int hw)
  obtain rfl := PyValue.dict.inj (hdata.symm.trans hdata')
  obtain rfl := PyValue.dict.inj (hdata.symm.trans hdata'')
  exact ⟨data, hdata, hstatus, htype, hcode⟩

end Envelope

/-! ## When a crash is recorded -/

section Crash
variable {env : Env} {argv : List PyStr} {run : ScriptRun} {dir : Dir}

/-- The directory when the script has ended. -/
def dirAfter (run : ScriptRun) (dir : Dir) : Dir := run.ops.foldl FileOp.apply (removeName dir spawnCrashed)

/-- Of the `.json` files, a script that writes none leaves those it does not remove. -/
theorem mem_dirAfter (hwrites : WritesNothing run) {name : PyStr} (hname : isJsonName name = true) :
    name ∈ (dirAfter run dir).map Prod.fst ↔ name ∈ dir.map Prod.fst ∧ name ≠ spawnCrashed ∧ .remove name ∉ run.ops := by
  have hnot : ∀ content, .write name content ∉ run.ops := by
    intro content hmem
    rw [hwrites name content hmem] at hname
    cases hname
  rw [dirAfter, mem_keys_apply hnot, mem_keys_removeName, and_assoc]

theorem isJsonName_spawnCrashed : isJsonName spawnCrashed = true := by decide

theorem unlink_eq_ok {dir' : Dir} {name : PyStr} :
    unlink dir name = .ok dir' ↔ contentAt dir name ≠ some .directory ∧ dir' = removeName dir name := by
  unfold unlink
  split
  · next h => simp [h]
  · next h => exact ⟨fun heq => ⟨h, (Except.ok.inj heq).symm⟩, fun heq => congrArg _ heq.2.symm⟩

theorem replace_of_not_mem {name : PyStr} (h : name ∉ dir.map Prod.fst) (content : Content) :
    replace dir name content = .ok (setKey dir name content) := by
  rw [replace, contentAt_eq_none h]

theorem pipeText_eq_ok {bytes : List Byte} {text : PyStr} : pipeText bytes = .ok text ↔ readText bytes = some text := by
  unfold pipeText
  cases readText bytes with
  | none => simp
  | some t => simp

theorem spawnCrashed_not_mem (hwrites : WritesNothing run) : spawnCrashed ∉ (dirAfter run dir).map Prod.fst :=
  fun h => ((mem_dirAfter hwrites isJsonName_spawnCrashed).1 h).2.1 rfl

/-- What a recorded crash says about the run and the directory. -/
theorem CrashRecorded.needs (hwrites : WritesNothing run) (h : CrashRecorded env argv run dir) :
    (readText run.stdout).isSome = true ∧ (readText run.stderr).isSome = true ∧
      contentAt dir spawnCrashed ≠ some .directory ∧ jsonNames (dirAfter run dir) = [] := by
  obtain ⟨dir', doc, data, hrun, -⟩ := h
  simp only [spawnScript, bind_eq_ok, unlink_eq_ok, pipeText_eq_ok] at hrun
  obtain ⟨_, ⟨hdir, rfl⟩, stdout, hout, stderr, herr, hrest⟩ := hrun
  refine ⟨by rw [hout]; rfl, by rw [herr]; rfl, hdir, ?_⟩
  -- Otherwise what is returned are the names left over, and the envelope's is none of them.
  by_contra hnames
  rw [if_neg fun h => hnames h.2] at hrest
  have hpaths : jsonNames (dirAfter run dir) = [spawnCrashed] := (Prod.ext_iff.1 (Except.ok.inj hrest)).2
  have hmem : spawnCrashed ∈ jsonNames (dirAfter run dir) := by
    rw [hpaths]
    exact List.mem_singleton_self _
  rw [jsonNames, List.mem_mergeSort] at hmem
  exact spawnCrashed_not_mem hwrites (List.mem_of_mem_filter hmem)

/-- Nothing is left over exactly when every earlier `.json` file was removed. -/
theorem jsonNames_dirAfter (hwrites : WritesNothing run) : jsonNames (dirAfter run dir) = [] ↔
    ∀ name ∈ dir.map Prod.fst, isJsonName name = true → name = spawnCrashed ∨ .remove name ∈ run.ops := by
  rw [jsonNames_eq_nil]
  constructor
  · intro h name hname hjson
    by_contra hno
    rw [not_or] at hno
    have hfalse := h name ((mem_dirAfter hwrites hjson).2 ⟨hname, hno⟩)
    rw [hjson] at hfalse
    cases hfalse
  · intro h name hname
    by_contra hjson
    rw [Bool.not_eq_false] at hjson
    obtain ⟨hmem, hne, hkept⟩ := (mem_dirAfter hwrites hjson).1 hname
    exact (h name hmem hjson).elim hne hkept

/-- For a script that fails without writing an artifact: its crash is recorded exactly when
what it printed is text, no directory has the envelope's name, and it removed every `.json`
file that an earlier run left. -/
theorem crashRecorded_iff (hcrash : run.returncode ≠ 0) (hwrites : WritesNothing run) :
    CrashRecorded env argv run dir ↔ (readText run.stdout).isSome = true ∧ (readText run.stderr).isSome = true ∧
      contentAt dir spawnCrashed ≠ some .directory ∧
        ∀ name ∈ dir.map Prod.fst, isJsonName name = true → name = spawnCrashed ∨ .remove name ∈ run.ops := by
  rw [← jsonNames_dirAfter hwrites]
  constructor
  · exact fun h => h.needs hwrites
  · rintro ⟨hstdout, hstderr, hdir, hnone⟩
    obtain ⟨stdout, hout⟩ := Option.isSome_iff_exists.1 hstdout
    obtain ⟨stderr, herr⟩ := Option.isSome_iff_exists.1 hstderr
    obtain ⟨doc, hdoc⟩ : ∃ doc, crashDoc env argv (stderrTail stdout stderr) run.returncode = .ok doc :=
      crashDoc_ok run.returncode_lt
    obtain ⟨data, hdata, hfields⟩ := decode_crashDoc hdoc
    have hmarker : spawnCrashed ∉ (dirAfter run dir).map Prod.fst := spawnCrashed_not_mem hwrites
    refine ⟨setKey (dirAfter run dir) spawnCrashed (.parses doc), doc, data, ?_, contentAt_setKey hmarker, hdata, hfields⟩
    simp only [spawnScript, bind_eq_ok, unlink_eq_ok, pipeText_eq_ok]
    refine ⟨_, ⟨hdir, rfl⟩, stdout, hout, stderr, herr, ?_⟩
    rw [if_pos ⟨hcrash, hnone⟩, spawnCrashArtifact, hdoc]
    change (do
      let dir ← replace (dirAfter run dir) spawnCrashed (.parses doc)
      .ok (dir, [spawnCrashed])) = _
    rw [replace_of_not_mem hmarker]
    rfl

end Crash

/-- A script that dies without a word. -/
def failingRun : ScriptRun := ⟨[], 3, [], [], by decide⟩

/-- A machine. -/
def someEnv : Env := ⟨lit "0.32.0", none, lit "Apple M1 Max", lit "15.5", lit "5feceb66", lit "0.6.0"⟩

/-- In an empty directory its crash is recorded. -/
theorem crashRecorded_iff_empty : failingRun.returncode ≠ 0 ∧ WritesNothing failingRun ∧
    CrashRecorded someEnv [lit "bench_attention_op.py"] failingRun [] := by
  have hcrash : failingRun.returncode ≠ 0 := by decide
  have hwrites : WritesNothing failingRun := fun name content h => by cases h
  refine ⟨hcrash, hwrites, (crashRecorded_iff hcrash hwrites).2 ⟨rfl, rfl, ?_, ?_⟩⟩
  · exact fun h => by cases h
  · exact fun name h => by cases h

/-- The result of an earlier run. -/
def leftover : Dir :=
  [(lit "attn_seq2048_flash.json", .parses (.obj [(escape (lit "status"), .str (escape (lit "ok")))]))]

/-- Next to it, the crash is not recorded. -/
theorem crash_masked_by_leftover : ¬ CrashRecorded someEnv [lit "bench_attention_op.py"] failingRun leftover := by
  intro h
  obtain ⟨-, -, -, hnone⟩ := h.needs fun name content h => by cases h
  have hjson := jsonNames_eq_nil.1 hnone (lit "attn_seq2048_flash.json") (by decide)
  exact absurd hjson (by decide)

end MlxTrainPerf.Community
