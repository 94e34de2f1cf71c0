import MlxTrainPerf.Bench.Artifacts
/-!
# The bench runner

`run_conditions` of `bench/runner.py`, over a directory of files. What a worker, the
supervisor and the surroundings do in one condition's turn is given beforehand
(`Turn`), in any combination. `file` says which file a path names, as the operating
system resolves it. Every file remembers who wrote it.

The limits of `ExternalGuardConfig` only travel to mlx-guard, and the worker's config
file and the supervisor's own report are not part of the directory. A path that the
system accepts has no split surrogate pair, so the worker is told the runner's path.
-/
open PyStr PyJson Budget

namespace MlxTrainPerf.Bench

/-! ## Paths -/

/-- `Path`: its components, without empty ones and `.`. -/
structure Path where
  absolute : Bool
  parts : List PyStr
deriving DecidableEq, Repr

/-- `Path(s)`. -/
def Path.parse (s : PyStr) : Path := ⟨s.head? == some 47, (s.splitOn 47).filter fun p => p ≠ [] ∧ p ≠ [46]⟩

/-- `base / s`. -/
def Path.join (base : Path) (s : PyStr) : Path :=
  if (Path.parse s).absolute then .parse s else ⟨base.absolute, base.parts ++ (Path.parse s).parts⟩

/-- `str(path)`. -/
def Path.render (path : Path) : PyStr :=
  if path.absolute then 47 :: [47].intercalate path.parts
  else if path.parts = [] then [46] else [47].intercalate path.parts

/-- `out_dir / f"{name}.json"`. -/
def outPath (outDir : Path) (name : PyStr) : Path := outDir.join (name ++ lit ".json")

/-- `_mlx_guard`. -/
def guardDir (outDir : Path) : Path := outDir.join (lit "_mlx_guard")

/-- `guard_dir / f"{name}.{kind}.json"`. -/
def recordPath (outDir : Path) (name kind : PyStr) : Path := (guardDir outDir).join (name ++ [46] ++ kind ++ lit ".json")

/-- The kinds of `records`. -/
def recordKinds : List PyStr := [lit "launch", lit "client", lit "supervision"]

/-! ## What happens outside -/

/-- One run of a worker: the status and the fields of the artifact it writes, if it
writes one, and how the process ends. -/
structure WorkerRun where
  wrote : Option (PyStr × List (PyStr × PyValue))
  returncode : ℤ
  stdout : PyStr
  stderr : PyStr

/-- `CompletedProcess`. -/
structure Completed where
  returncode : ℤ
  stdout : PyStr
  stderr : PyStr

/-- What `_guard_outcome` reads from a report. -/
structure GuardOutcome where
  kind : PyStr
  returncode : ℤ
  childStatus : PyValue
  checkpointStatus : PyValue
  checkpointRequestId : PyValue
  checkpointReason : PyValue
  checkpointArtifact : PyValue

/-- One supervised launch: no mlx-guard package, another module missing, no
supervisor found (so nothing launched), a start that fails (perhaps after the worker
began), a wait that fails, an interrupt, or a report, with its summary or the type of
what reading it raised. -/
inductive GuardedRun
  | unavailable (worker : WorkerRun)
  | importError
  | undiscovered (worker : WorkerRun)
  | startFailed (error : PyStr) (worker : Option WorkerRun)
  | waitFailed (error : PyStr) (worker : WorkerRun)
  | interrupted
  | finished (worker : WorkerRun) (process : Completed) (summary : Except PyStr GuardOutcome)

/-- One condition's turn. -/
structure Turn where
  env : Env
  worker : WorkerRun
  guarded : GuardedRun
  attempt : PyStr

/-! ## The directory -/

/-- Who wrote a file: nobody in this call, the worker of a turn, or the runner in it. -/
inductive Writer
  | prior
  | worker (i : ℕ)
  | runner (i : ℕ)
deriving DecidableEq, Repr

structure Entry where
  content : Content
  writer : Writer

/-- A condition was found fresh, or a worker of it was launched. -/
inductive Event
  | fresh (i : ℕ)
  | launch (i : ℕ)
deriving DecidableEq, Repr

structure State (F : Type) where
  files : F → Option Entry
  log : List Event

/-- How `run_conditions` raises. -/
inductive RunError
  | guardDir
  | identity (e : IdentityError)
  | json (e : JsonError)
  | read (e : ReadError)
  | isDirectory
  | importError
  | interrupted
deriving DecidableEq, Repr

namespace State
variable {F : Type} [DecidableEq F] (s : State F)

def record (e : Event) : State F := { s with log := s.log ++ [e] }

def write (f : F) (e : Entry) : State F := { s with files := fun g => if g = f then some e else s.files g }

def remove (f : F) : State F := { s with files := fun g => if g = f then none else s.files g }

/-- Is a directory there? -/
def isDir (f : F) : Bool :=
  match s.files f with
  | some ⟨.directory, _⟩ => true
  | _ => false

/-- `path.unlink(missing_ok=True)`. -/
def unlink (f : F) : Except RunError (State F) := if s.isDir f then .error .isDirectory else .ok (s.remove f)

/-- `write_result`. -/
def writeResult (f : F) (who : Writer) (ident : List (PyStr × PyValue)) (status : PyStr) (fields : List (PyStr × PyValue)) :
    Except RunError (State F) := do
  let doc ← (artifactDoc ident status fields).mapError .json
  if s.isDir f then .error .isDirectory else .ok (s.write f ⟨.parses doc, who⟩)

omit [DecidableEq F] in
@[simp] theorem record_files (e : Event) : (s.record e).files = s.files := rfl

omit [DecidableEq F] in
@[simp] theorem record_log (e : Event) : (s.record e).log = s.log ++ [e] := rfl

@[simp] theorem write_log (f : F) (e : Entry) : (s.write f e).log = s.log := rfl

@[simp] theorem write_files_self (f : F) (e : Entry) : (s.write f e).files f = some e := if_pos rfl

@[simp] theorem remove_log (f : F) : (s.remove f).log = s.log := rfl

@[simp] theorem remove_files_self (f : F) : (s.remove f).files f = none := if_pos rfl

theorem write_files_ne {f g : F} (h : g ≠ f) (e : Entry) : (s.write f e).files g = s.files g := if_neg h

theorem remove_files_ne {f g : F} (h : g ≠ f) : (s.remove f).files g = s.files g := if_neg h

end State

/-! ## The worker -/

structure Condition where
  name : PyStr
  kind : PyStr
  params : List (PyKey × PyValue)
  attentionImpl : Option PyStr
  wallBudgetS : Option PyFloat

/-- The items of `config`. -/
def configItems (c : Condition) (sessionId : PyStr) (out : Path) : List (PyStr × PyValue) :=
  [(lit "kind", .str c.kind), (lit "params", .dict c.params), (lit "session_id", .str sessionId),
    (lit "attention_impl", optStr c.attentionImpl), (lit "wall_budget_s", (c.wallBudgetS.map PyValue.float).getD .none),
    (lit "out", .str out.render)]

/-- `config`. -/
def configValue (c : Condition) (sessionId : PyStr) (out : Path) : PyValue := .dict (strItems (configItems c sessionId out))

/-- The `attention_impl` a config holds. -/
def configImpl : PyValue → Option PyStr
  | .str s => some s
  | _ => none

/-- The identity that `worker.main` builds from its config, when it gets that far. -/
def workerIdentity (env : Env) (config : PyValue) : Option (List (PyStr × PyValue)) :=
  match config with
  | .dict data =>
    match getItem data (lit "kind"), getItem data (lit "params"), getItem data (lit "session_id") with
    | .str kind, .dict params, .str sessionId =>
      (conditionIdentity env kind sessionId params (configImpl (getItem data (lit "attention_impl"))) none none).toOption
    | _, _, _ => none
  | _ => none

/-- The artifact a worker leaves: it records the identity of its config. -/
def WorkerRun.artifact (w : WorkerRun) (env : Env) (config : Json) : Option Json := do
  let (status, fields) ← w.wrote
  let ident ← workerIdentity env (decode config)
  (artifactDoc ident status fields).toOption

/-! ## One turn -/

section Turn
variable {F : Type} [DecidableEq F] (file : Path → F) (outDir : Path) (i : ℕ)

/-- A worker is launched and leaves what it writes. -/
def State.launch (s : State F) (env : Env) (config : Json) (out : F) (w : WorkerRun) : State F :=
  match w.artifact env config with
  | some doc => (s.record (.launch i)).write out ⟨.parses doc, .worker i⟩
  | none => s.record (.launch i)

/-- The launches of a turn, one after the other. -/
def State.launchAll (s : State F) (env : Env) (config : Json) (out : F) (launches : List WorkerRun) : State F :=
  launches.foldl (fun s w => s.launch i env config out w) s

def WorkerRun.process (w : WorkerRun) : Completed := ⟨w.returncode, w.stdout, w.stderr⟩

/-- `GuardedWorkerResult`. -/
structure GuardedWorkerResult where
  process : Option Completed
  fallbackReason : Option PyStr
  clientError : Option PyStr
  outcome : Option GuardOutcome

/-- `_spawn_guarded_worker`: its result, and every worker it launched, itself or through the supervisor. -/
def spawnGuardedWorker : GuardedRun → Except RunError (GuardedWorkerResult × List WorkerRun)
  | .unavailable w => .ok (⟨some w.process, some (lit "mlx-guard package is unavailable"), none, none⟩, [w])
  | .importError => .error .importError
  | .undiscovered w => .ok (⟨some w.process, some (lit "mlx-guard supervisor discovery failed"), none, none⟩, [w])
  | .startFailed error w =>
    .ok (⟨none, none, some (lit "guard client could not start the supervisor: " ++ error), none⟩, w.toList)
  | .waitFailed error w => .ok (⟨none, none, some (lit "guard client failed after launch: " ++ error), none⟩, [w])
  | .interrupted => .error .interrupted
  | .finished w process (.ok outcome) => .ok (⟨some process, none, none, some outcome⟩, [w])
  | .finished w process (.error error) =>
    .ok (⟨some process, none, some (lit "guard report could not be summarized: " ++ error), none⟩, [w])

/-- `_guard_outcome`'s dict. -/
def GuardOutcome.value (o : GuardOutcome) : PyValue :=
  .dict (strItems [(lit "kind", .str o.kind), (lit "returncode", .int o.returncode), (lit "child_status", o.childStatus),
    (lit "checkpoint_status", o.checkpointStatus), (lit "checkpoint_request_id", o.checkpointRequestId),
    (lit "checkpoint_reason", o.checkpointReason), (lit "checkpoint_artifact", o.checkpointArtifact)])

/-- `_CHILD_OUTCOMES`. -/
def childOutcomes : List PyStr := [lit "child_exited", lit "child_signaled"]

/-- A record under `_mlx_guard`, when there is something to record. -/
def writeRecord (s : State F) (name kind : PyStr) (ident : List (PyStr × PyValue)) (status : PyStr)
    (fields : Option (List (PyStr × PyValue))) : Except RunError (State F) :=
  match fields with
  | some fields => s.writeResult (file (recordPath outDir name kind)) (.runner i) ident status fields
  | none => .ok s

/-- The envelope of `_launch_under_guard`, when there is no worker artifact and the
supervision layer knows why. -/
def guardEnvelope (s : State F) (out : F) (ident : List (PyStr × PyValue)) (report : PyStr) (guarded : GuardedWorkerResult) :
    Except RunError (State F) :=
  if (s.files out).isSome then .ok s
  else
    match guarded.clientError, guarded.process, guarded.outcome with
    | some error, none, _ =>
      s.writeResult out (.runner i) ident (lit "error") [(lit "error_type", .str (lit "GuardClientError")), (lit "error_msg", .str error)]
    | _, _, some outcome =>
      if outcome.kind = lit "policy_intervention" then
        s.writeResult out (.runner i) ident (lit "aborted_external_guard")
          [(lit "guard_outcome", outcome.value), (lit "report", .str report)]
      else if outcome.kind ∉ childOutcomes then
        s.writeResult out (.runner i) ident (lit "error")
          [(lit "error_type", .str (lit "SupervisorReportedFailure")), (lit "guard_outcome", outcome.value), (lit "report", .str report)]
      else .ok s
    | _, _, none => .ok s

/-- `_launch_under_guard`. -/
def launchUnderGuard (s : State F) (t : Turn) (name : PyStr) (config : Json) (out : F) (ident : List (PyStr × PyValue)) :
    Except RunError (Option Completed × State F) := do
  let report := (recordPath outDir name t.attempt).parts.getLastD []
  let s ← recordKinds.foldlM (fun s kind => s.unlink (file (recordPath outDir name kind))) s
  let (guarded, launches) ← spawnGuardedWorker t.guarded
  let s := s.launchAll i t.env config out launches
  let s ← writeRecord file outDir i s name (lit "launch") ident (lit "guard_fallback")
    (guarded.fallbackReason.map fun reason => [(lit "reason", .str reason)])
  let s ← writeRecord file outDir i s name (lit "client") ident (lit "guard_client_error")
    (guarded.clientError.map fun error => [(lit "error", .str error), (lit "report", .str report)])
  let s ← writeRecord file outDir i s name (lit "supervision") ident (lit "guard_supervised")
    (guarded.outcome.map fun outcome => [(lit "outcome", outcome.value), (lit "report", .str report)])
  let s ← guardEnvelope i s out ident report guarded
  return (guarded.process, s)

/-- `_STDERR_TAIL_CHARS`. -/
def stderrTailChars : ℕ := 4000

/-- `(proc.stderr or proc.stdout or "")[-_STDERR_TAIL_CHARS:]`. -/
def Completed.tail (proc : Completed) : PyStr :=
  let text := if proc.stderr ≠ [] then proc.stderr else proc.stdout
  text.drop (text.length - stderrTailChars)

/-- The envelopes of `run_conditions` itself. -/
def crashEnvelope (s : State F) (out : F) (ident : List (PyStr × PyValue)) (proc : Option Completed) : Except RunError (State F) :=
  match proc with
  | none => .ok s
  | some proc =>
    if (s.files out).isSome then .ok s
    else if proc.returncode ≠ 0 then
      s.writeResult out (.runner i) ident (lit "error")
        [(lit "error_type", .str (lit "WorkerCrashed")), (lit "error_msg", .str proc.tail), (lit "returncode", .int proc.returncode)]
    else
      s.writeResult out (.runner i) ident (lit "error")
        [(lit "error_type", .str (lit "WorkerExitedWithoutArtifact")),
          (lit "error_msg", .str (lit "worker exited 0 without writing an artifact")), (lit "returncode", .int 0)]

/-- One pass of the loop of `run_conditions`. -/
def runCondition (guarded : Bool) (sessionId : PyStr) (c : Condition) (t : Turn) (s : State F) : Except RunError (State F) := do
  let path := outPath outDir c.name
  let out := file path
  let ident ← (conditionIdentity t.env c.kind sessionId c.params c.attentionImpl none none).mapError .identity
  let fresh ← (resultIsFresh ((s.files out).map Entry.content) ident).mapError .read
  if fresh then return s.record (.fresh i)
  else
    let s ← s.unlink out
    let config ← (encode (configValue c sessionId path)).mapError .json
    let (proc, s) ← if guarded then launchUnderGuard file outDir i s t c.name config out ident
      else pure (some t.worker.process, s.launchAll i t.env config out [t.worker])
    crashEnvelope i s out ident proc

end Turn

/-! ## The sweep -/

/-- What is at `_mlx_guard` beforehand. -/
inductive GuardDirState
  | absent
  | own
  | link
  | plain
  | foreign
deriving DecidableEq, Repr

/-- `_prepare_guard_dir`. -/
def prepareGuardDir : GuardDirState → Except RunError Unit
  | .absent => .ok ()
  | .own => .ok ()
  | _ => .error .guardDir

section Sweep
variable {F : Type} [DecidableEq F] (file : Path → F) (outDir : Path) (guarded : Bool) (sessionId : PyStr)

/-- The loop of `run_conditions`, from turn `i` on. -/
def runFrom (i : ℕ) : List (Condition × Turn) → State F → Except RunError (State F)
  | [], s => .ok s
  | (c, t) :: rest, s => do
    let s ← runCondition file outDir i guarded sessionId c t s
    runFrom (i + 1) rest s

/-- `run_conditions`: the paths, and the directory it leaves. -/
def runConditions (dirState : GuardDirState) (files : F → Option Content) (turns : List (Condition × Turn)) :
    Except RunError (List Path × State F) := do
  if guarded then prepareGuardDir dirState
  let s ← runFrom file outDir guarded sessionId 0 turns ⟨fun f => (files f).map fun content => ⟨content, .prior⟩, []⟩
  return (turns.map fun ct => outPath outDir ct.1.name, s)

end Sweep
end MlxTrainPerf.Bench
