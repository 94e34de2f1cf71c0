import MlxTrainPerf.Bench.Watchdog
/-!
# A breach against an `ok`

After the flag an `ok` can stay in three ways: it is renamed into place when the
breach's write is over, the breach's write raises with an `ok` in place, or the main
thread ends the process before the breach's rename. In every other run that ends with
the flag set, the artifact is not `ok`.
-/
open PyStr Runs

namespace MlxTrainPerf.Bench

/-- An `ok` of the main thread is in place. -/
def MainPc.measured : MainPc → Bool
  | .releasing w landed => decide (w = .ok) && landed
  | .closing measured => measured
  | .joining measured => measured
  | _ => false

/-- The flag is set. -/
def WatchdogPc.hasFlagged : WatchdogPc → Bool
  | .sampling => false
  | .fired _ => false
  | .stopped => false
  | _ => true

/-- The breach's write is over: its record is in place, or it raised. -/
def WatchdogPc.isOver : WatchdogPc → Bool
  | .finished _ => true
  | .exiting _ => true
  | _ => false

/-- The steps that take none of the three ways. -/
def keepsBreach (s : WorkerState) : Act → Bool
  | .main .rename => !(s.main == .renaming .ok && s.watchdog.isOver)
  | .main .exit => !(s.main.measured && s.watchdog.hasFlagged && !s.watchdog.isOver)
  | .watchdog .fail => !s.main.measured
  | _ => true

section Steps
variable {s s' : WorkerState} {ceilingBytes : ℤ} {wallBudgetS : Option ℚ}

/-! ## What a step can do -/

/-- A step of the main thread renames its artifact into place, ends the process, or
leaves the artifact alone; it never touches what is the watchdog's. -/
inductive MainEffect (s s' : WorkerState) : MainAct → Prop
  | rename (w : Write) (place : s.main = .renaming w) (effect : s' = { s.renameTmp .main with main := .releasing w true }) :
    MainEffect s s' .rename
  | exit (measured : Bool) (place : s.main = .joining measured) (effect : s' = { s with exited := true }) : MainEffect s s' .exit
  | quiet {a : MainAct} (noRename : a ≠ .rename) (noExit : a ≠ .exit) (file : s'.file = s.file) (exited : s'.exited = s.exited)
    (others : s'.watchdog = s.watchdog ∧ s'.breach = s.breach ∧ s'.tmp .watchdog = s.tmp .watchdog)
    (measured : s'.main.measured = s.main.measured)
    (tmp : ∀ w, s'.main = .renaming w → s'.tmp .main = some w.status) : MainEffect s s' a

theorem mainStep_effect {a : MainAct} (h : mainStep s a = some s') : MainEffect s s' a := by
  unfold mainStep at h
  split at h
  case h_8 w hmain => exact .rename w hmain (Option.some.inj h).symm
  case h_14 measured hmain => exact .exit measured hmain (Option.some.inj h).symm
  case h_15 => cases h
  case h_4 w hmain =>
    split at h
    · obtain rfl := Option.some.inj h
      exact .quiet (by simp) (by simp) rfl rfl ⟨rfl, rfl, rfl⟩ (by simp [hmain, MainPc.measured]) (by simp)
    · cases h
  case h_5 w hmain =>
    obtain rfl := Option.some.inj h
    refine .quiet (by simp) (by simp) rfl rfl ⟨rfl, rfl, rfl⟩ ?_ ?_
    all_goals cases s.breach <;> simp [hmain, MainPc.measured]
  all_goals
    rename_i hmain
    obtain rfl := Option.some.inj h
    refine .quiet (by simp) (by simp) rfl rfl ⟨rfl, rfl, ?_⟩ ?_ ?_
    all_goals simp [hmain, MainPc.measured, WorkerState.setTmp]

/-- A step of the watchdog renames the breach's record into place, has its write raise,
ends the process, or leaves the artifact alone. -/
inductive WatchdogEffect (s s' : WorkerState) : WatchdogAct → Prop
  | rename (reason : BreachReason) (locked : Bool) (place : s.watchdog = .renaming reason locked)
    (effect : s' = { s.renameTmp .watchdog with watchdog := .finished locked }) : WatchdogEffect s s' .rename
  | fail (locked : Bool) (place : s.watchdog.hasFlagged = true ∧ s.watchdog.isOver = false)
    (effect : s' = { s with watchdog := .finished locked }) : WatchdogEffect s s' .fail
  | exit (locked : Bool) (place : s.watchdog = .exiting locked) (effect : s' = { s with exited := true }) : WatchdogEffect s s' .exit
  | quiet {a : WatchdogAct} (noFail : a ≠ .fail) (file : s'.file = s.file) (exited : s'.exited = s.exited)
    (others : s'.main = s.main ∧ s'.tmp .main = s.tmp .main) (isOver : s'.watchdog.isOver = s.watchdog.isOver)
    (flag : s.breach = s.watchdog.hasFlagged → s'.breach = s'.watchdog.hasFlagged) (stays : s.breach = true → s'.breach = true)
    (tmp : ∀ reason locked, s'.watchdog = .renaming reason locked → s'.tmp .watchdog = some reason.status) :
    WatchdogEffect s s' a

theorem watchdogStep_effect {a : WatchdogAct} (h : watchdogStep ceilingBytes wallBudgetS s a = some s') : WatchdogEffect s s' a := by
  unfold watchdogStep at h
  split at h
  case h_7 reason locked hwatchdog =>
    exact .fail locked (by simp [hwatchdog, WatchdogPc.hasFlagged, WatchdogPc.isOver]) (Option.some.inj h).symm
  case h_8 reason locked hwatchdog => exact .rename reason locked hwatchdog (Option.some.inj h).symm
  case h_9 reason locked hwatchdog =>
    exact .fail locked (by simp [hwatchdog, WatchdogPc.hasFlagged, WatchdogPc.isOver]) (Option.some.inj h).symm
  case h_11 locked hwatchdog => exact .exit locked hwatchdog (Option.some.inj h).symm
  case h_12 => cases h
  case h_1 activeBytes elapsedS hwatchdog =>
    split at h
    · cases h
    · split at h
      all_goals
        obtain rfl := Option.some.inj h
        refine .quiet (by simp) rfl rfl ⟨rfl, rfl⟩ ?_ ?_ id ?_
        all_goals simp [hwatchdog, WatchdogPc.hasFlagged, WatchdogPc.isOver]
  case h_2 hwatchdog | h_4 reason hwatchdog =>
    split at h
    · obtain rfl := Option.some.inj h
      refine .quiet (by simp) rfl rfl ⟨rfl, rfl⟩ ?_ ?_ id ?_
      all_goals simp [hwatchdog, WatchdogPc.hasFlagged, WatchdogPc.isOver]
    · cases h
  case h_5 reason hwatchdog =>
    split at h
    · cases h
    · obtain rfl := Option.some.inj h
      refine .quiet (by simp) rfl rfl ⟨rfl, rfl⟩ ?_ ?_ id ?_
      all_goals simp [hwatchdog, WatchdogPc.hasFlagged, WatchdogPc.isOver]
  all_goals
    rename_i hwatchdog
    obtain rfl := Option.some.inj h
    refine .quiet (by simp) rfl rfl ⟨rfl, ?_⟩ ?_ ?_ ?_ ?_
    all_goals simp [hwatchdog, WatchdogPc.hasFlagged, WatchdogPc.isOver, WorkerState.setTmp]

/-! ## What the lock is worth -/

/-- The main thread holds the lock. -/
def MainPc.holds : MainPc → Bool
  | .checking _ => true
  | .writing _ => true
  | .renaming _ => true
  | .releasing _ _ => true
  | _ => false

/-- The main thread has found no flag, and writes. -/
def MainPc.inFlight : MainPc → Bool
  | .writing _ => true
  | .renaming _ => true
  | _ => false

/-- The watchdog holds the lock. -/
def WatchdogPc.holds : WatchdogPc → Bool
  | .writing _ locked => locked
  | .renaming _ locked => locked
  | .finished locked => locked
  | _ => false

/-- The watchdog has had the lock. -/
def WatchdogPc.hadLock : WatchdogPc → Bool
  | .exiting locked => locked
  | pc => pc.holds

/-- The lock has one holder, and whoever writes past the flag's check does so before the
watchdog has it. -/
structure Exclusive (s : WorkerState) : Prop where
  main : s.lock = some .main ↔ s.main.holds = true
  watchdog : s.lock = some .watchdog ↔ s.watchdog.holds = true
  flag : s.breach = false → s.watchdog.hasFlagged = false
  inFlight : s.main.inFlight = true → s.watchdog.hadLock = false

theorem exclusive_init (prior : Option PyStr) : Exclusive (.init prior) where
  main := by simp [WorkerState.init, MainPc.holds]
  watchdog := by simp [WorkerState.init, WatchdogPc.holds]
  flag _ := rfl
  inFlight h := by cases h

theorem hadLock_of_hasFlagged {pc : WatchdogPc} (h : pc.hasFlagged = false) : pc.hadLock = false := by
  cases pc with
  | sampling | fired | stopped => rfl
  | _ => cases h

theorem Exclusive.mainStep {a : MainAct} (hs : Exclusive s) (h : mainStep s a = some s') : Exclusive s' := by
  obtain ⟨hmain, hwatchdog, hflag, hflight⟩ := hs
  unfold Bench.mainStep at h
  split at h
  case h_4 w hpc =>
    split at h
    · next hfree =>
      obtain rfl := Option.some.inj h
      exact ⟨by simp [MainPc.holds], by simpa [hfree] using hwatchdog, hflag, by simp [MainPc.inFlight]⟩
    · cases h
  case h_5 w hpc =>
    obtain rfl := Option.some.inj h
    refine ⟨?_, hwatchdog, hflag, fun hflies => ?_⟩
    · rw [hmain, hpc]
      cases s.breach with
      | true => simp [MainPc.holds]
      | false => simp [MainPc.holds]
    · -- it flies only if there was no flag
      cases hb : s.breach with
      | true => simp [hb, MainPc.inFlight] at hflies
      | false => exact hadLock_of_hasFlagged (hflag hb)
  case h_15 => cases h
  all_goals
    rename_i hpc
    obtain rfl := Option.some.inj h
    simp only [hpc, MainPc.holds, MainPc.inFlight] at hmain hflight
    refine ⟨?_, ?_, hflag, ?_⟩
    all_goals simp_all [MainPc.holds, MainPc.inFlight, WorkerState.setTmp, WorkerState.renameTmp]

theorem Exclusive.watchdogStep {a : WatchdogAct} (hs : Exclusive s)
    (h : watchdogStep ceilingBytes wallBudgetS s a = some s') : Exclusive s' := by
  obtain ⟨hmain, hwatchdog, hflag, hflight⟩ := hs
  unfold Bench.watchdogStep at h
  split at h
  case h_1 activeBytes elapsedS hpc =>
    rw [hpc] at hwatchdog
    split at h
    · cases h
    · split at h
      · obtain rfl := Option.some.inj h
        exact ⟨hmain, hwatchdog, fun _ => rfl, fun _ => rfl⟩
      · obtain rfl := Option.some.inj h
        exact ⟨hmain, hpc ▸ hwatchdog, hflag, hflight⟩
  case h_2 hpc =>
    rw [hpc] at hwatchdog
    split at h
    · obtain rfl := Option.some.inj h
      exact ⟨hmain, hwatchdog, fun _ => rfl, fun _ => rfl⟩
    · cases h
  case h_3 reason hpc =>
    obtain rfl := Option.some.inj h
    rw [hpc] at hwatchdog
    exact ⟨hmain, hwatchdog, fun hb => (by cases hb), fun _ => rfl⟩
  case h_4 reason hpc =>
    split at h
    · next hfree =>
      obtain rfl := Option.some.inj h
      have hidle : s.main.holds = false := by simpa [hfree] using hmain
      have hflies : s.main.inFlight = false := by cases hm : s.main <;> simp_all [MainPc.holds, MainPc.inFlight]
      refine ⟨by simp [hidle], by simp [WatchdogPc.holds], fun hb => ?_, fun hflight => ?_⟩
      · have hno := hflag hb
        rw [hpc] at hno
        cases hno
      · rw [hflies] at hflight
        cases hflight
    · cases h
  case h_5 reason hpc =>
    rw [hpc] at hwatchdog hflag
    split at h
    · cases h
    · obtain rfl := Option.some.inj h
      exact ⟨hmain, hwatchdog, hflag, fun _ => rfl⟩
  case h_10 locked hpc =>
    obtain rfl := Option.some.inj h
    rw [hpc] at hwatchdog hflag hflight
    cases locked with
    | true =>
      have hheld : s.lock = some .watchdog := hwatchdog.2 rfl
      have hidle : s.main.holds = false := by simpa [hheld] using hmain
      exact ⟨by simp [hidle], by simp [WatchdogPc.holds], hflag, hflight⟩
    | false => exact ⟨hmain, hwatchdog, hflag, hflight⟩
  case h_11 locked hpc =>
    obtain rfl := Option.some.inj h
    exact ⟨hmain, hwatchdog, hflag, hflight⟩
  case h_12 => cases h
  all_goals
    rename_i hpc
    obtain rfl := Option.some.inj h
    rw [hpc] at hwatchdog hflag hflight
    exact ⟨hmain, hwatchdog, hflag, hflight⟩

theorem Exclusive.step {a : Act} (hs : Exclusive s) (h : workerStep ceilingBytes wallBudgetS s a = some s') : Exclusive s' := by
  unfold workerStep at h
  split at h
  · cases h
  · cases a with
    | main a => exact hs.mainStep h
    | watchdog a => exact hs.watchdogStep h

/-- An artifact renamed after the breach's write is one of a watchdog that went on
without the lock. -/
theorem late_rename_unlocked {prior : Option PyStr} {acts : List Act} {w : Write}
    (h : run (workerStep ceilingBytes wallBudgetS) (.init prior) acts = some s) (hmain : s.main = .renaming w)
    (hover : s.watchdog.isOver = true) : s.watchdog = .finished false ∨ s.watchdog = .exiting false := by
  have hs : Exclusive s := run_invariant (fun s a s' hs => hs.step) (exclusive_init prior) h
  have hlock := hs.inFlight (by rw [hmain]; rfl)
  cases hpc : s.watchdog with
  | finished locked => exact .inl (by rw [hpc] at hlock; exact congrArg _ hlock)
  | exiting locked => exact .inr (by rw [hpc] at hlock; exact congrArg _ hlock)
  | _ => simp [hpc, WatchdogPc.isOver] at hover

/-! ## The runs -/

theorem write_status_eq_ok {w : Write} : w.status = lit "ok" ↔ w = .ok := by cases w <;> decide

theorem reason_status_ne_ok (reason : BreachReason) : reason.status ≠ lit "ok" := by cases reason <;> decide

/-- As long as none of the three ways is taken: an `ok` is the main thread's own and
older than the breach's record. -/
structure Safe (s : WorkerState) : Prop where
  flag : s.breach = s.watchdog.hasFlagged
  mainTmp : ∀ w, s.main = .renaming w → s.tmp .main = some w.status
  watchdogTmp : ∀ reason locked, s.watchdog = .renaming reason locked → s.tmp .watchdog = some reason.status
  source : s.file = some (lit "ok") → s.main.measured = true
  inPlace : s.main.measured = true → s.watchdog.isOver = false → s.file = some (lit "ok")
  recorded : s.watchdog.isOver = true → s.file ≠ some (lit "ok")
  ended : s.exited = true → s.breach = true → s.file ≠ some (lit "ok")

/-- An `ok` that stays. -/
structure Doomed (s : WorkerState) : Prop where
  file : s.file = some (lit "ok")
  breach : s.breach = true
  settled : s.exited = true ∨ s.main.measured = true ∧ s.watchdog.isOver = true

theorem safe_init {prior : Option PyStr} (h : prior ≠ some (lit "ok")) : Safe (.init prior) where
  flag := rfl
  mainTmp w hw := by cases hw
  watchdogTmp reason locked hr := by cases hr
  source hfile := absurd hfile h
  inPlace hmeasured := by cases hmeasured
  recorded hover := by cases hover
  ended hexited := by cases hexited

theorem Safe.breach_of_isOver (hs : Safe s) (h : s.watchdog.isOver = true) : s.breach = true := by
  rw [hs.flag]
  cases hw : s.watchdog <;> simp_all [WatchdogPc.isOver, WatchdogPc.hasFlagged]

theorem workerStep_cases {a : Act} (h : workerStep ceilingBytes wallBudgetS s a = some s') :
    s.exited = false ∧ ((∃ a', a = .main a' ∧ MainEffect s s' a') ∨ ∃ a', a = .watchdog a' ∧ WatchdogEffect s s' a') := by
  unfold workerStep at h
  split at h
  · cases h
  · next hlive =>
    refine ⟨by simpa using hlive, ?_⟩
    cases a with
    | main a => exact .inl ⟨a, rfl, mainStep_effect h⟩
    | watchdog a => exact .inr ⟨a, rfl, watchdogStep_effect h⟩

/-- A main step that takes none of the three ways keeps the worker safe. -/
theorem Safe.mainEffect {a : MainAct} (hs : Safe s) (hlive : s.exited = false) (hgood : keepsBreach s (.main a) = true)
    (heffect : MainEffect s s' a) : Safe s' := by
  cases heffect with
  | rename w place effect =>
    have hfile : s'.file = some w.status := by rw [effect]; exact hs.mainTmp w place
    subst effect
    refine ⟨hs.flag, by simp, hs.watchdogTmp, fun hok => ?_, fun hmeasured _ => ?_, fun hover hok => ?_, fun hexited => ?_⟩
    · rw [hfile, Option.some.injEq, write_status_eq_ok] at hok
      simp [MainPc.measured, hok]
    · obtain rfl : w = .ok := by simpa [MainPc.measured] using hmeasured
      exact hfile
    · -- an `ok` renamed after the breach's write is the first of the three ways
      rw [hfile, Option.some.injEq, write_status_eq_ok] at hok
      have hover' : s.watchdog.isOver = true := hover
      simp [keepsBreach, place, hok, hover'] at hgood
    · rw [WorkerState.renameTmp_exited, hlive] at hexited
      cases hexited
  | exit measured place effect =>
    subst effect
    refine ⟨hs.flag, hs.mainTmp, hs.watchdogTmp, hs.source, hs.inPlace, hs.recorded, fun _ hbreach hok => ?_⟩
    have hmeasured := hs.source hok
    have hflagged : s.watchdog.hasFlagged = true := hs.flag ▸ hbreach
    cases hover : s.watchdog.isOver with
    | true => exact hs.recorded hover hok
    | false => simp [keepsBreach, hmeasured, hflagged, hover] at hgood
  | quiet noRename noExit file exited others measured tmp =>
    obtain ⟨hwatchdog, hbreach, htmp⟩ := others
    refine ⟨by rw [hbreach, hwatchdog, hs.flag], tmp, ?_, ?_, ?_, ?_, ?_⟩
    · rw [hwatchdog, htmp]
      exact hs.watchdogTmp
    · rw [file, measured]
      exact hs.source
    · rw [file, measured, hwatchdog]
      exact hs.inPlace
    · rw [file, hwatchdog]
      exact hs.recorded
    · rw [exited, hlive]
      simp

/-- So does one of the watchdog's. -/
theorem Safe.watchdogEffect {a : WatchdogAct} (hs : Safe s) (hlive : s.exited = false)
    (hgood : keepsBreach s (.watchdog a) = true) (heffect : WatchdogEffect s s' a) : Safe s' := by
  cases heffect with
  | rename reason locked place effect =>
    have hfile : s'.file = some reason.status := by rw [effect]; exact hs.watchdogTmp reason locked place
    have hne : s'.file ≠ some (lit "ok") := by
      rw [hfile]
      exact fun h => reason_status_ne_ok reason (Option.some.inj h)
    have hflagged : s.breach = true := by
      rw [hs.flag, place]
      rfl
    subst effect
    exact ⟨hflagged, hs.mainTmp, by simp, fun hok => absurd hok hne, fun _ hover => (by cases hover), fun _ => hne,
      fun _ _ => hne⟩
  | fail locked place effect =>
    subst effect
    have hmeasured : s.main.measured = false := by simpa [keepsBreach] using hgood
    have hne : s.file ≠ some (lit "ok") := fun hok => by simp [hs.source hok] at hmeasured
    exact ⟨hs.flag.trans place.1, hs.mainTmp, by simp, hs.source, fun _ hover => (by cases hover), fun _ => hne,
      fun _ _ => hne⟩
  | exit locked place effect =>
    subst effect
    refine ⟨hs.flag, hs.mainTmp, hs.watchdogTmp, hs.source, hs.inPlace, hs.recorded, fun _ _ => hs.recorded ?_⟩
    rw [place]
    rfl
  | quiet noFail file exited others isOver flag stays tmp =>
    obtain ⟨hmain, htmp⟩ := others
    refine ⟨flag hs.flag, ?_, tmp, ?_, ?_, ?_, ?_⟩
    · rw [hmain, htmp]
      exact hs.mainTmp
    · rw [file, hmain]
      exact hs.source
    · rw [file, hmain, isOver]
      exact hs.inPlace
    · rw [file, isOver]
      exact hs.recorded
    · rw [exited, hlive]
      simp

theorem Safe.step {a : Act} (hs : Safe s) (hgood : keepsBreach s a = true)
    (h : workerStep ceilingBytes wallBudgetS s a = some s') : Safe s' := by
  obtain ⟨hlive, ⟨a, rfl, heffect⟩ | ⟨a, rfl, heffect⟩⟩ := workerStep_cases h
  · exact hs.mainEffect hlive hgood heffect
  · exact hs.watchdogEffect hlive hgood heffect

/-- Each of the three ways leaves an `ok` that stays. -/
theorem Safe.doomed {a : Act} (hs : Safe s) (hbad : keepsBreach s a = false)
    (h : workerStep ceilingBytes wallBudgetS s a = some s') : Doomed s' := by
  obtain ⟨hlive, ⟨a, rfl, heffect⟩ | ⟨a, rfl, heffect⟩⟩ := workerStep_cases h
  · cases heffect with
    | rename w place effect =>
      have hover : w = .ok ∧ s.watchdog.isOver = true := by simpa [keepsBreach, place] using hbad
      obtain ⟨rfl, hover⟩ := hover
      subst effect
      exact ⟨hs.mainTmp .ok place, hs.breach_of_isOver hover, .inr ⟨rfl, hover⟩⟩
    | exit measured place effect =>
      have hthree : (s.main.measured = true ∧ s.watchdog.hasFlagged = true) ∧ s.watchdog.isOver = false := by
        simpa [keepsBreach] using hbad
      subst effect
      exact ⟨hs.inPlace hthree.1.1 hthree.2, hs.flag.trans hthree.1.2, .inl rfl⟩
    | quiet noRename noExit => cases a <;> simp [keepsBreach] at hbad noRename noExit
  · cases heffect with
    | fail locked place effect =>
      have hmeasured : s.main.measured = true := by simpa [keepsBreach] using hbad
      subst effect
      exact ⟨hs.inPlace hmeasured place.2, hs.flag.trans place.1, .inr ⟨hmeasured, rfl⟩⟩
    | rename => cases hbad
    | exit => cases hbad
    | quiet noFail => cases a <;> simp [keepsBreach] at hbad noFail

theorem Doomed.step {a : Act} (hs : Doomed s) (h : workerStep ceilingBytes wallBudgetS s a = some s') : Doomed s' := by
  obtain ⟨hlive, heffect⟩ := workerStep_cases h
  have hsettled := hs.settled.resolve_left (by simp [hlive])
  rcases heffect with ⟨a, rfl, heffect⟩ | ⟨a, rfl, heffect⟩
  · cases heffect with
    | rename w place effect =>
      have hmeasured := hsettled.1
      rw [place] at hmeasured
      cases hmeasured
    | exit measured place effect =>
      subst effect
      exact ⟨hs.file, hs.breach, .inl rfl⟩
    | quiet noRename noExit file exited others measured tmp =>
      obtain ⟨hwatchdog, hbreach, -⟩ := others
      exact ⟨file.trans hs.file, hbreach.trans hs.breach, .inr ⟨measured.trans hsettled.1, hwatchdog ▸ hsettled.2⟩⟩
  · cases heffect with
    | rename reason locked place effect =>
      have hover := hsettled.2
      rw [place] at hover
      cases hover
    | fail locked place effect => exact absurd hsettled.2 (by simp [place.2])
    | exit locked place effect =>
      subst effect
      exact ⟨hs.file, hs.breach, .inl rfl⟩
    | quiet noFail file exited others isOver flag stays tmp =>
      exact ⟨file.trans hs.file, stays hs.breach, .inr ⟨others.1 ▸ hsettled.1, isOver.trans hsettled.2⟩⟩

/-- In a run that ends with the flag set, no `ok` is left exactly when none of the three
ways is taken. -/
theorem breach_outlives_ok (ceilingBytes : ℤ) (wallBudgetS : Option ℚ) (prior : Option PyStr) (acts : List Act) (s : WorkerState)
    (hprior : prior ≠ some (lit "ok")) (h : run (workerStep ceilingBytes wallBudgetS) (.init prior) acts = some s)
    (hexited : s.exited = true) (hbreach : s.breach = true) :
    s.file ≠ some (lit "ok") ↔ along (workerStep ceilingBytes wallBudgetS) keepsBreach (.init prior) acts = true := by
  rcases invariant_or_doomed (fun s a s' hs hgood => hs.step hgood) (fun s a s' hs hbad => hs.doomed hbad)
    (fun s a s' hs => hs.step) (safe_init hprior) h with ⟨hgood, hs⟩ | ⟨hbad, hs⟩
  · exact iff_of_true (hs.ended hexited hbreach) hgood
  · exact iff_of_false (not_not.2 hs.file) (by simp [hbad])

end Steps

/-! ### The three ways -/

/-- The watchdog's wait for the lock runs out while an `ok` is being written. -/
def timedOut : List Act :=
  [.main (.finish true), .main .acquire, .main .check, .main .write, .watchdog (.sample 9 0), .watchdog .setFlag, .watchdog .timeout,
    .watchdog .write, .watchdog .rename, .main .rename, .watchdog .release, .watchdog .exit]

/-- The write of the breach raises when an `ok` is in place. -/
def raised : List Act :=
  [.main (.finish true), .main .acquire, .main .check, .main .write, .main .rename, .main .release, .watchdog (.sample 9 0),
    .watchdog .setFlag, .watchdog .acquire, .watchdog .fail, .watchdog .release, .watchdog .exit]

/-- The main thread returns while the breach is being recorded. -/
def returned : List Act :=
  [.main (.finish true), .main .acquire, .main .check, .main .write, .main .rename, .main .release, .watchdog (.sample 9 0),
    .watchdog .setFlag, .watchdog .acquire, .watchdog .write, .main .stop, .main .exit]

/-- The orders the lock is for: the breach's record replaces the `ok`. -/
def replaced : List Act :=
  [.main (.finish true), .main .acquire, .main .check, .watchdog (.sample 9 0), .watchdog .setFlag, .main .write, .main .rename,
    .main .release, .main .stop, .watchdog .acquire, .watchdog .write, .watchdog .rename, .watchdog .release, .watchdog .exit]

theorem breach_outlives_ok_replaced :
    ∃ s, run (workerStep 8 none) (.init none) replaced = some s ∧ s.exited = true ∧ s.breach = true ∧ s.file ≠ some (lit "ok") := by
  refine ⟨_, rfl, rfl, rfl, ?_⟩
  exact (breach_outlives_ok 8 none none replaced _ (by simp) rfl rfl rfl).2 rfl

theorem ok_outlives_breach :
    (∃ s, run (workerStep 8 none) (.init none) timedOut = some s ∧ s.exited = true ∧ s.breach = true ∧
      s.file = some (lit "ok")) ∧
    (∃ s, run (workerStep 8 none) (.init none) raised = some s ∧ s.exited = true ∧ s.breach = true ∧ s.file = some (lit "ok")) ∧
    ∃ s, run (workerStep 8 none) (.init none) returned = some s ∧ s.exited = true ∧ s.breach = true ∧
      s.file = some (lit "ok") :=
  ⟨⟨_, rfl, rfl, rfl, rfl⟩, ⟨_, rfl, rfl, rfl, rfl⟩, _, rfl, rfl, rfl, rfl⟩

end MlxTrainPerf.Bench
