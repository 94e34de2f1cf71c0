import MlxTrainPerf.Lib.Runs
import MlxTrainPerf.Lib.PyStr
import Mathlib.Data.Rat.Defs
/-!
# The worker and its watchdog

The worker's main thread (`bench/worker.py`, with the writers of `bench/artifacts.py`)
and the memory watchdog's (`core/guards.py`, `make_watchdog_on_breach`), step by step:
the flag, the lock, the temporary file, the rename and the exit are steps of their own,
in any order the two threads take them. Only the status of an artifact is kept. A wait
that is bounded in time (2 s for the lock, 5 s for the join) can end at any moment.
-/
open PyStr Runs

namespace MlxTrainPerf.Bench

/-! ## What is written -/

/-- What `breach_reason` names. -/
inductive BreachReason
  | memoryCeiling
  | wallBudget
deriving DecidableEq, Repr

/-- `breach_reason`. -/
def breachReason (activeBytes ceilingBytes : ℤ) (elapsedS : ℚ) (wallBudgetS : Option ℚ) : Option BreachReason :=
  if ceilingBytes ≤ activeBytes then some .memoryCeiling
  else
    match wallBudgetS with
    | some budget => if budget < elapsedS then some .wallBudget else none
    | none => none

/-- `f"aborted_{reason}"`. -/
def BreachReason.status : BreachReason → PyStr
  | .memoryCeiling => lit "aborted_memory_ceiling"
  | .wallBudget => lit "aborted_wall_budget"

/-- The main thread's writes through `write_result_unless_breached`: a checkpoint, or
the result. -/
inductive Write
  | checkpoint
  | refused
  | ok
deriving DecidableEq, Repr

def Write.status : Write → PyStr
  | .checkpoint => lit "checkpointed_partial"
  | .refused => lit "refused"
  | .ok => lit "ok"

/-! ## The threads -/

inductive Thread
  | main
  | watchdog
deriving DecidableEq, Repr

/-- Where the main thread is. In a write it waits for the lock, checks the flag, writes
its temporary file, renames it, and releases the lock, knowing whether the artifact
landed; `measured` is whether an `ok` did. -/
inductive MainPc
  | computing
  | waiting (w : Write)
  | checking (w : Write)
  | writing (w : Write)
  | renaming (w : Write)
  | releasing (w : Write) (landed : Bool)
  | closing (measured : Bool)
  | joining (measured : Bool)
deriving DecidableEq, Repr

/-- Where the watchdog is; `locked` is whether it got the lock. -/
inductive WatchdogPc
  | sampling
  | fired (reason : BreachReason)
  | flagged (reason : BreachReason)
  | writing (reason : BreachReason) (locked : Bool)
  | renaming (reason : BreachReason) (locked : Bool)
  | finished (locked : Bool)
  | exiting (locked : Bool)
  | stopped
deriving DecidableEq, Repr

/-- `file` is the status of the artifact at the path, and `tmp` that of each thread's own
temporary file. -/
structure WorkerState where
  file : Option PyStr
  tmp : Thread → Option PyStr
  breach : Bool
  lock : Option Thread
  stop : Bool
  main : MainPc
  watchdog : WatchdogPc
  exited : Bool

/-- The worker when its watchdog is installed. -/
def WorkerState.init (prior : Option PyStr) : WorkerState := ⟨prior, fun _ => none, false, none, false, .computing, .sampling, false⟩

def WorkerState.setTmp (s : WorkerState) (who : Thread) (status : Option PyStr) : WorkerState :=
  { s with tmp := fun t => if t = who then status else s.tmp t }

/-- `tmp.rename(path)`. -/
def WorkerState.renameTmp (s : WorkerState) (who : Thread) : WorkerState := { s.setTmp who none with file := s.tmp who }

@[simp] theorem WorkerState.renameTmp_exited (s : WorkerState) (who : Thread) : (s.renameTmp who).exited = s.exited := rfl

@[simp] theorem WorkerState.renameTmp_breach (s : WorkerState) (who : Thread) : (s.renameTmp who).breach = s.breach := rfl

/-! ## The main thread -/

/-- `poll`: the supervisor asks for a checkpoint. `finish`: the measurement is `ok`, or
refused. `fail`: the write raises. `raise`: anything else does. -/
inductive MainAct
  | poll
  | finish (ok : Bool)
  | raise
  | acquire
  | check
  | write
  | rename
  | fail
  | release
  | stop
  | exit
deriving DecidableEq, Repr

/-- `main` of the worker, from the watchdog's start on. -/
def mainStep (s : WorkerState) (a : MainAct) : Option WorkerState :=
  match s.main, a with
  | .computing, .poll => some { s with main := .waiting .checkpoint }
  | .computing, .finish ok => some { s with main := .waiting (if ok then .ok else .refused) }
  | .computing, .raise => some { s with main := .closing false }
  | .waiting w, .acquire => if s.lock = none then some { s with main := .checking w, lock := some .main } else none
  | .checking w, .check => some { s with main := if s.breach then .releasing w false else .writing w }
  | .writing w, .write => some { s.setTmp .main (some w.status) with main := .renaming w }
  | .writing w, .fail => some { s with main := .releasing w false }
  | .renaming w, .rename => some { s.renameTmp .main with main := .releasing w true }
  | .renaming w, .fail => some { s with main := .releasing w false }
  -- a checkpoint, written or not, goes back to the measurement
  | .releasing .checkpoint _, .release => some { s with main := .computing, lock := none }
  | .releasing .refused _, .release => some { s with main := .closing false, lock := none }
  | .releasing .ok landed, .release => some { s with main := .closing landed, lock := none }
  | .closing measured, .stop => some { s with main := .joining measured, stop := true }
  -- the watchdog has ended, or the join has timed out
  | .joining _, .exit => some { s with exited := true }
  | _, _ => none

/-! ## The watchdog -/

inductive WatchdogAct
  | sample (activeBytes : ℤ) (elapsedS : ℚ)
  | stop
  | setFlag
  | acquire
  | timeout
  | write
  | rename
  | fail
  | release
  | exit
deriving DecidableEq, Repr

/-- The watchdog's loop and its `on_breach`. -/
def watchdogStep (ceilingBytes : ℤ) (wallBudgetS : Option ℚ) (s : WorkerState) (a : WatchdogAct) : Option WorkerState :=
  match s.watchdog, a with
  | .sampling, .sample activeBytes elapsedS =>
    if s.stop then none
    else
      match breachReason activeBytes ceilingBytes elapsedS wallBudgetS with
      | some reason => some { s with watchdog := .fired reason }
      | none => some s
  | .sampling, .stop => if s.stop then some { s with watchdog := .stopped } else none
  | .fired reason, .setFlag => some { s with watchdog := .flagged reason, breach := true }
  | .flagged reason, .acquire =>
    if s.lock = none then some { s with watchdog := .writing reason true, lock := some .watchdog } else none
  | .flagged reason, .timeout => if s.lock = none then none else some { s with watchdog := .writing reason false }
  | .writing reason locked, .write => some { s.setTmp .watchdog (some reason.status) with watchdog := .renaming reason locked }
  | .writing _ locked, .fail => some { s with watchdog := .finished locked }
  | .renaming _ locked, .rename => some { s.renameTmp .watchdog with watchdog := .finished locked }
  | .renaming _ locked, .fail => some { s with watchdog := .finished locked }
  | .finished locked, .release => some { s with watchdog := .exiting locked, lock := if locked then none else s.lock }
  | .exiting _, .exit => some { s with exited := true }
  | _, _ => none

/-! ## The process -/

inductive Act
  | main (a : MainAct)
  | watchdog (a : WatchdogAct)
deriving DecidableEq, Repr

/-- One step of one of the threads, while the process lives. -/
def workerStep (ceilingBytes : ℤ) (wallBudgetS : Option ℚ) (s : WorkerState) (a : Act) : Option WorkerState :=
  if s.exited then none
  else
    match a with
    | .main a => mainStep s a
    | .watchdog a => watchdogStep ceilingBytes wallBudgetS s a

end MlxTrainPerf.Bench
