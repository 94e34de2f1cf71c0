import MlxTrainPerf.Bench.OnceWriter
import MlxTrainPerf.Bench.Watchdog
/-!
# The marginal-memory worker

`run_worker` of `scripts/bench_attention_marginal.py` from the watchdog's start on: the
measuring thread and the watchdog's `on_breach`, in any order of their steps. Of a record its
status is kept. The record and the exit code agree unless an `ok` record lands after the
watchdog's own write has raised (`record_and_exit_agree`).
-/
open PyStr Runs

namespace MlxTrainPerf.Bench.Marginal

/-! ## Records -/

/-- `NONFINITE`. -/
def nonfinite : PyStr := lit "nonfinite"

/-- `measured_status`. -/
def measuredStatus (gradsFinite : Bool) : PyStr := if gradsFinite then lit "ok" else nonfinite

/-- The measuring thread's record, and `on_breach`'s. -/
inductive Record
  | measured (gradsFinite : Bool)
  | aborted (reason : BreachReason)
deriving DecidableEq, Repr

def Record.status : Record → PyStr
  | .measured gradsFinite => measuredStatus gradsFinite
  | .aborted reason => if reason = .memoryCeiling then lit "aborted_watchdog" else lit "aborted_wall"

/-- `EXIT_ABORT`. -/
def exitAbort : ℤ := 3

/-! ## The threads -/

/-- Where the measuring thread is; `code` is what the process is to return. -/
inductive MainPc
  | measuring
  | recording (gradsFinite : Bool) (pc : OncePc)
  | reporting (gradsFinite : Bool)
  | stopping (code : ℤ)
  | joining (code : ℤ)
deriving DecidableEq, Repr

/-- Where the watchdog is. -/
inductive WatchdogPc
  | sampling
  | recording (reason : BreachReason) (pc : OncePc)
  | aborting (reason : BreachReason)
  | stopped
deriving DecidableEq, Repr

/-- `exit` is the code of a process that has ended. -/
structure UnitState where
  writer : OnceWriter Thread Record
  stop : Bool
  main : MainPc
  watchdog : WatchdogPc
  exit : Option ℤ

/-- The worker when its watchdog is installed. -/
def UnitState.init : UnitState := ⟨.init, false, .measuring, .sampling, none⟩

/-! ## The measuring thread -/

/-- `branch`: the thread looks at how its `write_once` ended. `raise`: anything but the write
does, the report's `print` included. -/
inductive MainAct
  | finish (gradsFinite : Bool)
  | raise
  | once (a : OnceAct)
  | branch
  | print
  | stop
  | exit
deriving DecidableEq, Repr

/-- What follows its `write_once`. -/
def MainPc.after (gradsFinite : Bool) : Outcome → MainPc
  | .won => .reporting gradsFinite
  | .lost => .stopping exitAbort
  | .raised => .stopping 1

/-- `run_worker`, from the watchdog's start on. -/
def mainStep (s : UnitState) (a : MainAct) : Option UnitState :=
  match s.main, a with
  | .measuring, .finish gradsFinite => some { s with main := .recording gradsFinite .waiting }
  | .measuring, .raise => some { s with main := .stopping 1 }
  | .recording gradsFinite pc, .once a =>
    (writeOnceStep .main (.measured gradsFinite) s.writer pc a).map fun (w, pc) =>
      { s with writer := w, main := .recording gradsFinite pc }
  | .recording gradsFinite (.returned outcome), .branch => some { s with main := .after gradsFinite outcome }
  | .reporting gradsFinite, .print =>
    some { s with main := .stopping (if measuredStatus gradsFinite = lit "ok" then 0 else 1) }
  | .reporting _, .raise => some { s with main := .stopping 1 }
  | .stopping code, .stop => some { s with main := .joining code, stop := true }
  -- the watchdog has ended, or the join has timed out
  | .joining code, .exit => some { s with exit := some code }
  | _, _ => none

/-! ## The watchdog -/

/-- `raise`: the `print` of `on_breach` does, which ends the watchdog and not the process. -/
inductive WatchdogAct
  | sample (activeBytes : ℤ) (elapsedS : ℚ)
  | stop
  | once (a : OnceAct)
  | branch
  | raise
  | exit
deriving DecidableEq, Repr

/-- What follows `on_breach`'s `write_once`; a write that raised counts as won. -/
def WatchdogPc.after (reason : BreachReason) : Outcome → WatchdogPc
  | .won => .aborting reason
  | .lost => .stopped
  | .raised => .aborting reason

/-- The watchdog's loop and its `on_breach`. -/
def watchdogStep (ceilingBytes : ℤ) (wallBudgetS : Option ℚ) (s : UnitState) (a : WatchdogAct) : Option UnitState :=
  match s.watchdog, a with
  | .sampling, .sample activeBytes elapsedS =>
    if s.stop then none
    else
      match breachReason activeBytes ceilingBytes elapsedS wallBudgetS with
      | some reason => some { s with watchdog := .recording reason .waiting }
      | none => some s
  | .sampling, .stop => if s.stop then some { s with watchdog := .stopped } else none
  | .recording reason pc, .once a =>
    (writeOnceStep .watchdog (.aborted reason) s.writer pc a).map fun (w, pc) =>
      { s with writer := w, watchdog := .recording reason pc }
  | .recording reason (.returned outcome), .branch => some { s with watchdog := .after reason outcome }
  | .aborting _, .raise => some { s with watchdog := .stopped }
  | .aborting _, .exit => some { s with exit := some exitAbort }
  | _, _ => none

/-! ## The process -/

inductive Act
  | main (a : MainAct)
  | watchdog (a : WatchdogAct)
deriving DecidableEq, Repr

/-- One step of one of the threads, while the process lives. -/
def unitStep (ceilingBytes : ℤ) (wallBudgetS : Option ℚ) (s : UnitState) (a : Act) : Option UnitState :=
  if s.exit.isSome then none
  else
    match a with
    | .main a => mainStep s a
    | .watchdog a => watchdogStep ceilingBytes wallBudgetS s a

/-- One record at most lands and is never replaced, and the exit code says what the path
holds. -/
structure Agrees (s : UnitState) : Prop where
  atMostOne : s.writer.landed.length ≤ 1
  abort : s.exit = some exitAbort → ∀ r, s.writer.file = some r → r.status ≠ lit "ok"
  zero : s.exit = some 0 → ∃ r, s.writer.file = some r ∧ r.status = lit "ok"

/-- The watchdog's write is over, and it goes on to `os._exit`. -/
def WatchdogPc.aborts : WatchdogPc → Bool
  | .recording _ (.returned .raised) => true
  | .aborting _ => true
  | _ => false

/-- The steps that put no `ok` record at the path when the watchdog's own write has raised. -/
def keepsCode (s : UnitState) : Act → Bool
  | .main (.once .replace) => !(s.main == .recording true .replacing && s.watchdog.aborts)
  | _ => true

/-! ## What the threads know -/

/-- No `ok` record of this worker is at the path. -/
def NoOk (w : OnceWriter Thread Record) : Prop := ∀ r ∈ w.landed, r.status ≠ lit "ok"

/-- What the measuring thread knows of the writer, by where it is. -/
def MainPc.Knows (w : OnceWriter Thread Record) : MainPc → Prop
  | .measuring => w.lock ≠ some .main ∧ NoOk w
  | .recording gradsFinite pc => pc.Knows .main (.measured gradsFinite) w ∧ (pc.hasLanded = false → NoOk w)
  | .reporting gradsFinite => w.lock ≠ some .main ∧ w.closed = true ∧ w.landed = [.measured gradsFinite]
  | .stopping code | .joining code =>
    w.lock ≠ some .main ∧ (code = exitAbort → NoOk w) ∧ (code = 0 → w.closed = true ∧ w.landed = [.measured true])

/-- What the watchdog knows. -/
def WatchdogPc.Knows (w : OnceWriter Thread Record) : WatchdogPc → Prop
  | .recording reason pc => pc.Knows .watchdog (.aborted reason) w
  | _ => w.lock ≠ some .watchdog

/-- What holds in every run. -/
structure Sane (s : UnitState) : Prop where
  sound : s.writer.Sound
  main : s.main.Knows s.writer
  watchdog : s.watchdog.Knows s.writer
  zero : s.exit = some 0 → s.writer.landed = [.measured true]

/-- And, as long as no `ok` record lands after the watchdog's write has raised: the watchdog
ends the process over none. -/
structure Safe (s : UnitState) : Prop extends Sane s where
  clean : s.watchdog.aborts = true → NoOk s.writer
  abort : s.exit = some exitAbort → NoOk s.writer

theorem sane_init : Sane .init where
  sound := OnceWriter.sound_init
  main := ⟨nofun, fun r hr => by cases hr⟩
  watchdog := nofun
  zero := nofun

theorem safe_init : Safe .init where
  toSane := sane_init
  clean := nofun
  abort := nofun

section Steps
variable {s s' : UnitState} {w w' : OnceWriter Thread Record} {ceilingBytes : ℤ} {wallBudgetS : Option ℚ}
  {gradsFinite : Bool} {reason : BreachReason}

theorem status_measured : (Record.measured gradsFinite).status = lit "ok" ↔ gradsFinite = true := by
  cases gradsFinite <;> decide

theorem status_aborted (reason : BreachReason) : (Record.aborted reason).status ≠ lit "ok" := by cases reason <;> decide

theorem NoOk.of_landed (h : w'.landed = w.landed) (hw : NoOk w) : NoOk w' := by
  rw [NoOk, h]
  exact hw

theorem noOk_of_nil (h : w.landed = []) : NoOk w := by
  rw [NoOk, h]
  exact fun r hr => by cases hr

theorem noOk_of_aborted (h : w.landed = [.aborted reason]) : NoOk w := by
  rw [NoOk, h]
  intro r hr
  obtain rfl := List.mem_singleton.1 hr
  exact status_aborted reason

/-- The watchdog's record leaves no `ok` where none was. -/
theorem NoOk.watchdog (hi : Interferes Thread.watchdog (.aborted reason) w w') (hw : NoOk w) : NoOk w' := by
  rcases hi.landed with h | h
  · exact hw.of_landed h
  · intro r hr
    rw [h, List.mem_append, List.mem_singleton] at hr
    rcases hr with hr | rfl
    · exact hw r hr
    · exact status_aborted reason

theorem Sane.holds_ok (hs : Sane s) (h : s.exit = some 0) : ∃ r, s.writer.file = some r ∧ r.status = lit "ok" :=
  ⟨.measured true, by rw [OnceWriter.file, hs.zero h]; rfl, rfl⟩

theorem Safe.agrees (hs : Safe s) : Agrees s where
  atMostOne := hs.sound.atMostOne
  abort hexit r hr := hs.abort hexit r (List.mem_of_mem_getLast? hr)
  zero := hs.holds_ok

/-- What the measuring thread knows survives the watchdog's steps. -/
theorem MainPc.Knows.stable {pc : MainPc} (hk : pc.Knows w)
    (hi : Interferes Thread.watchdog (.aborted reason) w w') : pc.Knows w' := by
  have hlock := hi.lock .main (by decide)
  cases pc with
  | measuring => exact ⟨fun h => hk.1 (hlock.1 h), hk.2.watchdog hi⟩
  | recording gradsFinite pc => exact ⟨hk.1.stable hi (by decide), fun h => (hk.2 h).watchdog hi⟩
  | reporting gradsFinite =>
    obtain ⟨hclosed, hlanded⟩ := hi.frozen (.inr hk.2.1)
    exact ⟨fun h => hk.1 (hlock.1 h), hclosed.trans hk.2.1, hlanded.trans hk.2.2⟩
  | stopping code | joining code =>
    refine ⟨fun h => hk.1 (hlock.1 h), fun hcode => (hk.2.1 hcode).watchdog hi, fun hcode => ?_⟩
    obtain ⟨hclosed, hlanded⟩ := hi.frozen (.inr (hk.2.2 hcode).1)
    exact ⟨hclosed.trans (hk.2.2 hcode).1, hlanded.trans (hk.2.2 hcode).2⟩

/-- What the watchdog knows survives the measuring thread's steps. -/
theorem WatchdogPc.Knows.stable {pc : WatchdogPc} (hk : pc.Knows w)
    (hi : Interferes Thread.main (.measured gradsFinite) w w') : pc.Knows w' := by
  have hlock := hi.lock .watchdog (by decide)
  cases pc with
  | recording reason pc => exact OncePc.Knows.stable hk hi (by decide)
  | sampling | aborting | stopped => exact fun h => hk (hlock.1 h)

/-- In its write, the watchdog aborts when the write has raised. -/
theorem eq_raised_of_aborts {pc : OncePc} (h : (WatchdogPc.recording reason pc).aborts = true) :
    pc = .returned .raised := by
  unfold WatchdogPc.aborts at h
  split at h
  · next heq => exact (WatchdogPc.recording.inj heq).2
  · next heq => cases heq
  · cases h

/-- A failure's exit code, 1, says nothing about the path. -/
theorem knows_stopping_one (h : w.lock ≠ some .main) : (MainPc.stopping 1).Knows w :=
  ⟨h, fun hcode => absurd hcode (by decide), fun hcode => absurd hcode (by decide)⟩

/-! ## What a step can do -/

/-- A step of the measuring thread is one of its `write_once`, ends the process, or leaves the
writer alone. -/
inductive MainEffect (s s' : UnitState) : MainAct → Prop
  | once (gradsFinite : Bool) {pc pc' : OncePc} {a : OnceAct} {w : OnceWriter Thread Record}
    (place : s.main = .recording gradsFinite pc)
    (step : writeOnceStep .main (.measured gradsFinite) s.writer pc a = some (w, pc'))
    (effect : s' = { s with writer := w, main := .recording gradsFinite pc' }) : MainEffect s s' (.once a)
  | exit (code : ℤ) (place : s.main = .joining code) (effect : s' = { s with exit := some code }) :
    MainEffect s s' .exit
  | quiet {a : MainAct} (noOnce : ∀ a', a ≠ .once a')
    (others : s'.writer = s.writer ∧ s'.watchdog = s.watchdog ∧ s'.exit = s.exit)
    (knows : s.main.Knows s.writer → s'.main.Knows s.writer) : MainEffect s s' a

theorem mainStep_effect {a : MainAct} (h : mainStep s a = some s') : MainEffect s s' a := by
  unfold mainStep at h
  split at h
  case h_1 gradsFinite hmain =>
    obtain rfl := Option.some.inj h
    refine .quiet nofun ⟨rfl, rfl, rfl⟩ fun hk => ?_
    rw [hmain] at hk
    exact ⟨hk.1, fun _ => hk.2⟩
  case h_2 hmain =>
    obtain rfl := Option.some.inj h
    refine .quiet nofun ⟨rfl, rfl, rfl⟩ fun hk => ?_
    rw [hmain] at hk
    exact knows_stopping_one hk.1
  case h_3 gradsFinite pc a hmain =>
    obtain ⟨⟨w, pc'⟩, hstep, rfl⟩ := Option.map_eq_some_iff.1 h
    exact .once gradsFinite hmain hstep rfl
  case h_4 gradsFinite outcome hmain =>
    obtain rfl := Option.some.inj h
    refine .quiet nofun ⟨rfl, rfl, rfl⟩ fun hk => ?_
    rw [hmain] at hk
    cases outcome with
    | won => exact hk.1
    | lost => exact ⟨hk.1, fun _ => hk.2 rfl, fun hcode => absurd hcode (by decide)⟩
    | raised => exact knows_stopping_one hk.1
  case h_5 gradsFinite hmain =>
    obtain rfl := Option.some.inj h
    refine .quiet nofun ⟨rfl, rfl, rfl⟩ fun hk => ?_
    rw [hmain] at hk
    cases gradsFinite with
    | true => exact ⟨hk.1, fun hcode => absurd hcode (by decide), fun _ => hk.2⟩
    | false => exact knows_stopping_one hk.1
  case h_6 gradsFinite hmain =>
    obtain rfl := Option.some.inj h
    refine .quiet nofun ⟨rfl, rfl, rfl⟩ fun hk => ?_
    rw [hmain] at hk
    exact knows_stopping_one hk.1
  case h_7 code hmain =>
    obtain rfl := Option.some.inj h
    refine .quiet nofun ⟨rfl, rfl, rfl⟩ fun hk => ?_
    rw [hmain] at hk
    exact hk
  case h_8 code hmain => exact .exit code hmain (Option.some.inj h).symm
  case h_9 => cases h

/-- A step of the watchdog is one of its `write_once`, ends the process, or leaves the writer
alone. -/
inductive WatchdogEffect (s s' : UnitState) : WatchdogAct → Prop
  | once (reason : BreachReason) {pc pc' : OncePc} {a : OnceAct} {w : OnceWriter Thread Record}
    (place : s.watchdog = .recording reason pc)
    (step : writeOnceStep .watchdog (.aborted reason) s.writer pc a = some (w, pc'))
    (effect : s' = { s with writer := w, watchdog := .recording reason pc' }) : WatchdogEffect s s' (.once a)
  | exit (reason : BreachReason) (place : s.watchdog = .aborting reason)
    (effect : s' = { s with exit := some exitAbort }) : WatchdogEffect s s' .exit
  | quiet {a : WatchdogAct} (others : s'.writer = s.writer ∧ s'.main = s.main ∧ s'.exit = s.exit)
    (knows : s.watchdog.Knows s.writer → s'.watchdog.Knows s.writer)
    (aborts : s'.watchdog.aborts = true → s.watchdog.Knows s.writer → s.watchdog.aborts = true ∨ NoOk s.writer) :
    WatchdogEffect s s' a

theorem watchdogStep_effect {a : WatchdogAct} (h : watchdogStep ceilingBytes wallBudgetS s a = some s') :
    WatchdogEffect s s' a := by
  unfold watchdogStep at h
  split at h
  case h_1 activeBytes elapsedS hwatchdog =>
    split at h
    · cases h
    · split at h
      · obtain rfl := Option.some.inj h
        refine .quiet ⟨rfl, rfl, rfl⟩ (fun hk => ?_) nofun
        rw [hwatchdog] at hk
        exact hk
      · obtain rfl := Option.some.inj h
        exact .quiet ⟨rfl, rfl, rfl⟩ id fun haborts _ => .inl haborts
  case h_2 hwatchdog =>
    split at h
    · obtain rfl := Option.some.inj h
      refine .quiet ⟨rfl, rfl, rfl⟩ (fun hk => ?_) nofun
      rw [hwatchdog] at hk
      exact hk
    · cases h
  case h_3 reason pc a hwatchdog =>
    obtain ⟨⟨w, pc'⟩, hstep, rfl⟩ := Option.map_eq_some_iff.1 h
    exact .once reason hwatchdog hstep rfl
  case h_4 reason outcome hwatchdog =>
    obtain rfl := Option.some.inj h
    refine .quiet ⟨rfl, rfl, rfl⟩ (fun hk => ?_) fun haborts hk => ?_
    · rw [hwatchdog] at hk
      cases outcome with
      | won => exact hk.1
      | lost | raised => exact hk
    · rw [hwatchdog] at hk ⊢
      cases outcome with
      | won => exact .inr (noOk_of_aborted hk.2.2)
      | lost => cases haborts
      | raised => exact .inl rfl
  case h_5 reason hwatchdog =>
    obtain rfl := Option.some.inj h
    refine .quiet ⟨rfl, rfl, rfl⟩ (fun hk => ?_) nofun
    rw [hwatchdog] at hk
    exact hk
  case h_6 reason hwatchdog => exact .exit reason hwatchdog (Option.some.inj h).symm
  case h_7 => cases h

theorem unitStep_cases {a : Act} (h : unitStep ceilingBytes wallBudgetS s a = some s') :
    s.exit = none ∧ ((∃ a', a = .main a' ∧ MainEffect s s' a') ∨ ∃ a', a = .watchdog a' ∧ WatchdogEffect s s' a') := by
  unfold unitStep at h
  split at h
  · cases h
  · next hlive =>
    refine ⟨by simpa using hlive, ?_⟩
    cases a with
    | main a => exact .inl ⟨a, rfl, mainStep_effect h⟩
    | watchdog a => exact .inr ⟨a, rfl, watchdogStep_effect h⟩

/-! ## The runs -/

/-- A good step of the measuring thread puts no `ok` record behind the back of a watchdog that
goes on to `os._exit`. -/
theorem noOk_of_keepsCode {pc pc' : OncePc} {a : OnceAct} (hmain : s.main = .recording gradsFinite pc)
    (h : writeOnceStep .main (.measured gradsFinite) s.writer pc a = some (w, pc'))
    (hgood : keepsCode s (.main (.once a)) = true) (haborts : s.watchdog.aborts = true) (hs : NoOk s.writer) :
    NoOk w := by
  rcases landed_writeOnceStep h with ⟨rfl, rfl, -, hlanded⟩ | ⟨hlanded, -⟩
  · intro r hr
    rw [hlanded, List.mem_append, List.mem_singleton] at hr
    rcases hr with hr | rfl
    · exact hs r hr
    · -- an `ok` would be the step that is left out
      rw [ne_eq, status_measured]
      rintro rfl
      simp [keepsCode, hmain, haborts] at hgood
  · exact hs.of_landed hlanded

theorem Sane.step {a : Act} (hs : Sane s) (h : unitStep ceilingBytes wallBudgetS s a = some s') : Sane s' := by
  obtain ⟨hlive, ⟨a, rfl, heffect⟩ | ⟨a, rfl, heffect⟩⟩ := unitStep_cases h
  · cases heffect with
    | @once gradsFinite pc pc' a w place step effect =>
      have hk := hs.main
      rw [place] at hk
      obtain ⟨hsound, hk'⟩ := hk.1.step hs.sound step
      subst effect
      refine ⟨hsound, ⟨hk', fun hno => ?_⟩, hs.watchdog.stable (hk.1.interferes step), fun hexit => ?_⟩
      · rcases landed_writeOnceStep step with ⟨-, -, rfl, -⟩ | ⟨hlanded, hsame⟩
        · cases hno
        · exact (hk.2 (hsame ▸ hno)).of_landed hlanded
      · simp [hlive] at hexit
    | exit code place effect =>
      have hk := hs.main
      rw [place] at hk
      subst effect
      exact ⟨hs.sound, hs.main, hs.watchdog, fun hexit => (hk.2.2 (Option.some.inj hexit)).2⟩
    | quiet noOnce others knows =>
      obtain ⟨hwriter, hwatchdog, hexit⟩ := others
      refine ⟨hwriter ▸ hs.sound, hwriter ▸ knows hs.main, by rw [hwriter, hwatchdog]; exact hs.watchdog, ?_⟩
      rw [hexit, hlive]
      exact nofun
  · cases heffect with
    | @once reason pc pc' a w place step effect =>
      have hk := hs.watchdog
      rw [place] at hk
      obtain ⟨hsound, hk'⟩ := OncePc.Knows.step hs.sound hk step
      have hi := OncePc.Knows.interferes hk step
      subst effect
      refine ⟨hsound, hs.main.stable hi, hk', fun hexit => ?_⟩
      simp [hlive] at hexit
    | exit reason place effect =>
      have hk := hs.watchdog
      rw [place] at hk
      subst effect
      exact ⟨hs.sound, hs.main, hs.watchdog, fun hexit => absurd (Option.some.inj hexit) (by decide)⟩
    | quiet others knows =>
      obtain ⟨hwriter, hmain, hexit⟩ := others
      refine ⟨hwriter ▸ hs.sound, by rw [hwriter, hmain]; exact hs.main, hwriter ▸ knows hs.watchdog, ?_⟩
      rw [hexit, hlive]
      exact nofun

theorem Safe.step {a : Act} (hs : Safe s) (hgood : keepsCode s a = true)
    (h : unitStep ceilingBytes wallBudgetS s a = some s') : Safe s' := by
  have hsane := hs.toSane.step h
  obtain ⟨hlive, ⟨a, rfl, heffect⟩ | ⟨a, rfl, heffect⟩⟩ := unitStep_cases h
  · cases heffect with
    | once gradsFinite place step effect =>
      subst effect
      refine ⟨hsane, fun haborts => noOk_of_keepsCode place step hgood haborts (hs.clean haborts), fun hexit => ?_⟩
      simp [hlive] at hexit
    | exit code place effect =>
      have hk := hs.main
      rw [place] at hk
      subst effect
      exact ⟨hsane, hs.clean, fun hexit => hk.2.1 (Option.some.inj hexit)⟩
    | quiet noOnce others =>
      obtain ⟨hwriter, hwatchdog, hexit⟩ := others
      refine ⟨hsane, by rw [hwriter, hwatchdog]; exact hs.clean, ?_⟩
      rw [hexit, hlive]
      exact nofun
  · cases heffect with
    | @once reason pc pc' a w place step effect =>
      have hk := hs.watchdog
      rw [place] at hk
      subst effect
      refine ⟨hsane, fun haborts => ?_, fun hexit => ?_⟩
      · obtain rfl := eq_raised_of_aborts haborts
        exact noOk_of_nil (OncePc.Knows.landed_of_raised hk step)
      · simp [hlive] at hexit
    | exit reason place effect =>
      have hclean : NoOk s.writer := hs.clean (by rw [place]; rfl)
      subst effect
      exact ⟨hsane, fun _ => hclean, fun _ => hclean⟩
    | quiet others knows aborts =>
      obtain ⟨hwriter, hmain, hexit⟩ := others
      refine ⟨hsane, fun haborts => ?_, ?_⟩
      · rw [hwriter]
        exact (aborts haborts hs.watchdog).elim hs.clean id
      · rw [hexit, hlive]
        exact nofun

theorem sane_of_run {acts : List Act} (h : run (unitStep ceilingBytes wallBudgetS) .init acts = some s) : Sane s :=
  run_invariant (fun _ _ _ hs => hs.step) sane_init h

theorem safe_of_run {acts : List Act} (h : run (unitStep ceilingBytes wallBudgetS) .init acts = some s)
    (hgood : along (unitStep ceilingBytes wallBudgetS) keepsCode .init acts = true) : Safe s :=
  run_invariant_along (fun _ _ _ hs hgood => hs.step hgood) safe_init h hgood

/-- A watchdog that goes on to `os._exit` can get there, with the path as it is. -/
theorem run_to_abort (hlive : s.exit = none) (haborts : s.watchdog.aborts = true) :
    ∃ acts s'', run (unitStep ceilingBytes wallBudgetS) s acts = some s'' ∧ s''.writer = s.writer ∧
      s''.exit = some exitAbort := by
  have hstep : ∀ reason (t : UnitState), t.exit = none → t.watchdog = .aborting reason →
      unitStep ceilingBytes wallBudgetS t (.watchdog .exit) = some { t with exit := some exitAbort } := by
    intro reason t hexit hplace
    simp [unitStep, watchdogStep, hexit, hplace]
  cases hplace : s.watchdog with
  | aborting reason =>
    refine ⟨[.watchdog .exit], { s with exit := some exitAbort }, ?_, rfl, rfl⟩
    rw [run, hstep reason s hlive hplace]
    rfl
  | recording reason pc =>
    rw [hplace] at haborts
    obtain rfl := eq_raised_of_aborts haborts
    have hbranch : unitStep ceilingBytes wallBudgetS s (.watchdog .branch) =
        some { s with watchdog := .aborting reason } := by
      simp [unitStep, watchdogStep, hlive, hplace, WatchdogPc.after]
    refine ⟨[.watchdog .branch, .watchdog .exit], { s with watchdog := .aborting reason, exit := some exitAbort }, ?_,
      rfl, rfl⟩
    rw [run, hbranch, Option.bind_some, run, hstep reason { s with watchdog := .aborting reason } hlive rfl]
    rfl
  | sampling | stopped =>
    rw [hplace] at haborts
    cases haborts

/-- After the step that is left out, the watchdog can end the process with its own code over
the `ok` record. -/
theorem Safe.disagrees {a : Act} (hs : Safe s) (hbad : keepsCode s a = false)
    (h : unitStep ceilingBytes wallBudgetS s a = some s') :
    ∃ acts s'', run (unitStep ceilingBytes wallBudgetS) s' acts = some s'' ∧ ¬ Agrees s'' := by
  obtain ⟨hlive, ⟨a, rfl, heffect⟩ | ⟨a, rfl, heffect⟩⟩ := unitStep_cases h
  · cases heffect with
    | @once gradsFinite pc pc' a w place step effect =>
      cases a with
      | replace =>
        have hboth : (gradsFinite = true ∧ pc = .replacing) ∧ s.watchdog.aborts = true := by
          simpa [keepsCode, place] using hbad
        obtain ⟨⟨rfl, rfl⟩, haborts⟩ := hboth
        have hk := hs.main
        rw [place] at hk
        obtain ⟨rfl, rfl⟩ := Prod.mk.inj (Option.some.inj step)
        have hlanded : s'.writer.landed = [.measured true] := by
          subst effect
          change s.writer.landed ++ [_] = _
          rw [hk.1.2.2]
          rfl
        have hwatchdog : s'.watchdog = s.watchdog := by rw [effect]
        have hexit : s'.exit = none := by rw [effect]; exact hlive
        obtain ⟨acts, s'', hrun, hwriter, habort⟩ := run_to_abort hexit (hwatchdog ▸ haborts)
        refine ⟨acts, s'', hrun, fun hagrees => ?_⟩
        have hfile : s''.writer.file = some (.measured true) := by
          rw [OnceWriter.file, hwriter, hlanded]
          rfl
        exact hagrees.abort habort (.measured true) hfile rfl
      | _ => cases hbad
    | exit => cases hbad
    | quiet noOnce => cases a <;> simp [keepsCode] at hbad noOnce
  · cases hbad

/-- In every run one record at most lands, and an exit of 0 is over an `ok` record. In a run
that puts no `ok` record at the path after the watchdog's own write has raised, record and
exit code agree in every state; and the first step that does put one there can be followed by
an exit over which they do not. -/
theorem record_and_exit_agree (ceilingBytes : ℤ) (wallBudgetS : Option ℚ) (acts : List Act) (s : UnitState)
    (h : run (unitStep ceilingBytes wallBudgetS) .init acts = some s) :
    (s.writer.landed.length ≤ 1 ∧ (s.exit = some 0 → ∃ r, s.writer.file = some r ∧ r.status = lit "ok")) ∧
      (along (unitStep ceilingBytes wallBudgetS) keepsCode .init acts = true →
        Agrees s ∧ ∀ a s', unitStep ceilingBytes wallBudgetS s a = some s' → keepsCode s a = false →
          ∃ acts' s'', run (unitStep ceilingBytes wallBudgetS) s' acts' = some s'' ∧ ¬ Agrees s'') := by
  have hsane : Sane s := sane_of_run h
  refine ⟨⟨hsane.sound.atMostOne, hsane.holds_ok⟩, fun hgood => ?_⟩
  have hs : Safe s := safe_of_run h hgood
  exact ⟨hs.agrees, fun a s' hstep hbad => hs.disagrees hbad hstep⟩

end Steps

/-! ### Two runs -/

/-- A measurement that ends in good order, with a breach before its `print`. -/
def measuredFirst : List Act :=
  [.main (.finish true), .main (.once .acquire), .watchdog (.sample 9 0), .main (.once .check), .main (.once .write),
    .watchdog (.once .timeout), .main (.once .replace), .main (.once .mark), .watchdog .branch, .main (.once .release),
    .main .branch, .main .print, .main .stop, .main .exit]

theorem record_and_exit_agree_measuredFirst :
    ∃ s, run (unitStep 8 none) .init measuredFirst = some s ∧ s.exit = some 0 ∧ Agrees s := by
  refine ⟨_, rfl, rfl, ?_⟩
  exact ((record_and_exit_agree 8 none measuredFirst _ rfl).2 rfl).1

/-- The watchdog's write raises, the measurement is written, and the watchdog ends the
process. -/
def raisedFirst : List Act :=
  [.watchdog (.sample 9 0), .watchdog (.once .acquire), .watchdog (.once .check), .watchdog (.once .fail),
    .watchdog (.once .release), .main (.finish true), .main (.once .acquire), .main (.once .check), .main (.once .write),
    .main (.once .replace), .main (.once .mark), .main (.once .release), .watchdog .branch, .watchdog .exit]

/-- It exits with the code of an abort, and the path holds its `ok` record. -/
theorem raisedFirst_disagrees : ∃ s, run (unitStep 8 none) .init raisedFirst = some s ∧ s.exit = some exitAbort ∧
    s.writer.file = some (.measured true) ∧ ¬ Agrees s := by
  refine ⟨_, rfl, rfl, rfl, fun hagrees => ?_⟩
  exact hagrees.abort rfl (.measured true) rfl rfl

end MlxTrainPerf.Bench.Marginal
