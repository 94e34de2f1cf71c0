import MlxTrainPerf.Bench.Runner
/-!
# What a sweep leaves

A turn touches its own artifact and, supervised, its own records. So when no two
artifacts are one file and none is a record, every artifact is what its own turn made
of it.
-/
open PyStr PyJson Budget

namespace MlxTrainPerf.Bench

/-- What is fresh was there as a dict, `ok` and with this identity. -/
theorem resultIsFresh_eq_true {content : Content} {ident : List (PyStr × PyValue)}
    (h : resultIsFresh (some content) ident = .ok true) :
    ∃ doc data, content = .parses doc ∧ decode doc = .dict data ∧ pyEq (getItem data (lit "status")) (.str (lit "ok")) = true ∧
      pyEq (getItem data (lit "identity")) (.dict (strItems ident)) = true := by
  cases content with
  | parses doc =>
    simp only [resultIsFresh] at h
    split at h
    · next data hdata =>
      obtain ⟨hstatus, hidentity⟩ := Bool.and_eq_true_iff.1 (Except.ok.inj h)
      exact ⟨doc, data, rfl, hdata, hstatus, hidentity⟩
    · cases h
  | _ => cases h

section State
variable {F : Type} [DecidableEq F] {s s' : State F} {f g : F} {who : Writer} {ident fields : List (PyStr × PyValue)}
  {status : PyStr}

theorem unlink_eq_ok (h : s.unlink f = .ok s') : s' = s.remove f := by
  unfold State.unlink at h
  split at h
  · cases h
  · exact (Except.ok.inj h).symm

theorem writeResult_eq_ok (h : s.writeResult f who ident status fields = .ok s') :
    ∃ doc, artifactDoc ident status fields = .ok doc ∧ s' = s.write f ⟨.parses doc, who⟩ := by
  simp only [State.writeResult, bind_eq_ok, mapError_eq_ok] at h
  obtain ⟨doc, hdoc, h⟩ := h
  split at h
  · cases h
  · exact ⟨doc, hdoc, (Except.ok.inj h).symm⟩

end State

/-! ## One turn -/

/-- The launches of a turn that does not find its condition fresh. -/
def Turn.launches (t : Turn) (guarded : Bool) : List WorkerRun :=
  if guarded then
    match spawnGuardedWorker t.guarded with
    | .ok r => r.2
    | .error _ => []
  else [t.worker]

/-- The artifact that is left after the launches, if there is one. -/
def artifactOf (env : Env) (config : Json) (launches : List WorkerRun) : Option Json :=
  (launches.filterMap fun w => w.artifact env config).getLast?

section Turn
variable {F : Type} [DecidableEq F] {file : Path → F} {outDir : Path} {i : ℕ} {guarded : Bool} {sessionId : PyStr}
  {c : Condition} {t : Turn} {s s' s'' : State F} {out : F} {config : Json} {launches : List WorkerRun}
  {ident : List (PyStr × PyValue)}

/-- Where a turn is with its artifact, after its launches: only the artifact `out` and the
records differ from before, and `out` holds what a worker wrote, or else at most an
envelope. -/
structure Progress (file : Path → F) (outDir : Path) (i : ℕ) (guarded : Bool) (name : PyStr) (out : F)
    (artifact : Option Json) (s s' : State F) : Prop where
  frame : ∀ g, g ≠ out → (guarded = true → ∀ kind ∈ recordKinds, g ≠ file (recordPath outDir name kind)) →
    s'.files g = s.files g
  written : ∀ doc, artifact = some doc → s'.files out = some ⟨.parses doc, .worker i⟩
  envelope : artifact = none → ∀ e, s'.files out = some e → e.writer = .runner i

namespace Progress
variable {name : PyStr} {artifact : Option Json}

omit [DecidableEq F] in
/-- A change of a record keeps the progress. -/
theorem of_record {kind : PyStr} (h : Progress file outDir i true name out artifact s s') (hk : kind ∈ recordKinds)
    (hne : file (recordPath outDir name kind) ≠ out)
    (hsame : ∀ g, g ≠ file (recordPath outDir name kind) → s''.files g = s'.files g) :
    Progress file outDir i true name out artifact s s'' where
  frame g hg hrec := (hsame g (hrec rfl kind hk)).trans (h.frame g hg hrec)
  written doc hdoc := (hsame out hne.symm).trans (h.written doc hdoc)
  envelope hnone e he := h.envelope hnone e ((hsame out hne.symm).symm.trans he)

/-- So does an envelope, where there is nothing yet. -/
theorem of_envelope {doc : Json} (h : Progress file outDir i guarded name out artifact s s') (hmissing : s'.files out = none) :
    Progress file outDir i guarded name out artifact s (s'.write out ⟨.parses doc, .runner i⟩) where
  frame g hg hrec := (State.write_files_ne s' hg _).trans (h.frame g hg hrec)
  written doc' hdoc' := by
    have hthere := h.written doc' hdoc'
    rw [hmissing] at hthere
    cases hthere
  envelope _ e he := by
    rw [State.write_files_self] at he
    obtain rfl := Option.some.inj he
    rfl

end Progress

/-- What a launch leaves. -/
theorem launch_spec (s : State F) (env : Env) (config : Json) (out : F) (w : WorkerRun) :
    (s.launch i env config out w).log = s.log ++ [.launch i] ∧
      (∀ g, g ≠ out → (s.launch i env config out w).files g = s.files g) ∧
      (∀ doc, w.artifact env config = some doc → (s.launch i env config out w).files out = some ⟨.parses doc, .worker i⟩) ∧
      (w.artifact env config = none → (s.launch i env config out w).files out = s.files out) := by
  unfold State.launch
  cases w.artifact env config with
  | none => simp
  | some doc =>
    have hframe : ∀ g, g ≠ out → ((s.record (.launch i)).write out ⟨.parses doc, .worker i⟩).files g = s.files g :=
      fun g hg => State.write_files_ne _ hg _
    simpa using hframe

theorem artifactOf_concat (env : Env) (config : Json) (launches : List WorkerRun) (w : WorkerRun) :
    artifactOf env config (launches ++ [w]) = (w.artifact env config).or (artifactOf env config launches) := by
  unfold artifactOf
  rw [List.filterMap_append, List.getLast?_append]
  cases hw : w.artifact env config with
  | none => simp [hw]
  | some doc => simp [hw]

theorem launchAll_concat (s : State F) (env : Env) (config : Json) (out : F) (launches : List WorkerRun) (w : WorkerRun) :
    s.launchAll i env config out (launches ++ [w]) = (s.launchAll i env config out launches).launch i env config out w :=
  List.foldl_concat ..

/-- What the launches leave. -/
theorem launchAll_spec (s : State F) (env : Env) (config : Json) (out : F) (launches : List WorkerRun) :
    (s.launchAll i env config out launches).log = s.log ++ launches.map (fun _ => .launch i) ∧
      (∀ g, g ≠ out → (s.launchAll i env config out launches).files g = s.files g) ∧
      (∀ doc, artifactOf env config launches = some doc →
        (s.launchAll i env config out launches).files out = some ⟨.parses doc, .worker i⟩) ∧
      (artifactOf env config launches = none → (s.launchAll i env config out launches).files out = s.files out) := by
  induction launches using List.reverseRecOn with
  | nil => exact ⟨(List.append_nil _).symm, fun _ _ => rfl, nofun, fun _ => rfl⟩
  | append_singleton launches w ih =>
    obtain ⟨hlog, hframe, hwritten, hnone⟩ := ih
    obtain ⟨hlog', hframe', hwritten', hnone'⟩ := launch_spec (i := i) (s.launchAll i env config out launches) env config out w
    rw [launchAll_concat, artifactOf_concat]
    refine ⟨?_, fun g hg => (hframe' g hg).trans (hframe g hg), fun doc hdoc => ?_, fun hdoc => ?_⟩
    · rw [hlog', hlog, List.map_append, List.append_assoc]
      rfl
    · cases hw : w.artifact env config with
      | none => exact (hnone' hw).trans (hwritten doc (by rwa [hw] at hdoc))
      | some doc' =>
        rw [hw] at hdoc
        obtain rfl := Option.some.inj hdoc
        exact hwritten' doc' hw
    · obtain ⟨hw, hlaunches⟩ := Option.or_eq_none_iff.1 hdoc
      exact (hnone' hw).trans (hnone hlaunches)

/-! ### The guarded launch -/

theorem unlinkRecords_spec {name : PyStr} {kinds : List PyStr}
    (h : kinds.foldlM (fun s kind => s.unlink (file (recordPath outDir name kind))) s = .ok s') :
    s'.log = s.log ∧ ∀ g, (∀ kind ∈ kinds, g ≠ file (recordPath outDir name kind)) → s'.files g = s.files g := by
  induction kinds generalizing s with
  | nil =>
    obtain rfl := Except.ok.inj h
    exact ⟨rfl, fun _ _ => rfl⟩
  | cons kind kinds ih =>
    rw [List.foldlM_cons] at h
    obtain ⟨s₁, h₁, h⟩ := bind_eq_ok.1 h
    obtain rfl := unlink_eq_ok h₁
    obtain ⟨hlog, hfiles⟩ := ih h
    refine ⟨hlog, fun g hg => ?_⟩
    rw [List.forall_mem_cons] at hg
    exact (hfiles g hg.2).trans (State.remove_files_ne s hg.1)

theorem writeRecord_spec {name kind status : PyStr} {fields : Option (List (PyStr × PyValue))}
    (h : writeRecord file outDir i s name kind ident status fields = .ok s') :
    s'.log = s.log ∧ ∀ g, g ≠ file (recordPath outDir name kind) → s'.files g = s.files g := by
  cases fields with
  | none =>
    obtain rfl := Except.ok.inj h
    exact ⟨rfl, fun _ _ => rfl⟩
  | some fields =>
    obtain ⟨doc, -, rfl⟩ := writeResult_eq_ok h
    exact ⟨rfl, fun g hg => State.write_files_ne s hg _⟩

/-- An envelope goes where there is nothing, or nowhere. -/
def Envelope (i : ℕ) (out : F) (s s' : State F) : Prop :=
  s' = s ∨ s.files out = none ∧ ∃ doc, s' = s.write out ⟨.parses doc, .runner i⟩

theorem Envelope.log_eq (h : Envelope i out s s') : s'.log = s.log := by
  rcases h with rfl | ⟨-, doc, rfl⟩
  · rfl
  · rfl

theorem Envelope.isSome (h : Envelope i out s s') (hs : (s.files out).isSome) : (s'.files out).isSome := by
  rcases h with rfl | ⟨-, doc, rfl⟩
  · exact hs
  · simp

theorem Progress.of_envelopeStep {name : PyStr} {artifact : Option Json}
    (h : Progress file outDir i guarded name out artifact s s') (he : Envelope i out s' s'') :
    Progress file outDir i guarded name out artifact s s'' := by
  rcases he with rfl | ⟨hmissing, doc, rfl⟩
  · exact h
  · exact h.of_envelope hmissing

theorem envelope_of_writeResult {status : PyStr} {fields : List (PyStr × PyValue)} (hmissing : ¬ (s.files out).isSome = true)
    (h : s.writeResult out (.runner i) ident status fields = .ok s') : Envelope i out s s' ∧ (s'.files out).isSome := by
  obtain ⟨doc, -, rfl⟩ := writeResult_eq_ok h
  exact ⟨.inr ⟨by simpa using hmissing, doc, rfl⟩, by simp⟩

theorem guardEnvelope_spec {report : PyStr} {r : GuardedWorkerResult} (h : guardEnvelope i s out ident report r = .ok s') :
    Envelope i out s s' ∧ (r.process = none → r.clientError ≠ none → (s'.files out).isSome) := by
  have hnever : (∀ error, r.clientError = some error → r.process = none → False) →
      r.process = none → r.clientError ≠ none → (s'.files out).isSome := by
    intro hother hp hc
    obtain ⟨error, herror⟩ := Option.ne_none_iff_exists'.1 hc
    exact (hother error herror hp).elim
  unfold guardEnvelope at h
  split at h
  · next hthere =>
    obtain rfl := Except.ok.inj h
    exact ⟨.inl rfl, fun _ _ => hthere⟩
  · next hmissing =>
    split at h
    · have henv := envelope_of_writeResult hmissing h
      exact ⟨henv.1, fun _ _ => henv.2⟩
    · next outcome hother =>
      split at h
      · exact ⟨(envelope_of_writeResult hmissing h).1, hnever hother⟩
      · split at h
        · exact ⟨(envelope_of_writeResult hmissing h).1, hnever hother⟩
        · obtain rfl := Except.ok.inj h
          exact ⟨.inl rfl, hnever hother⟩
    · next hother =>
      obtain rfl := Except.ok.inj h
      exact ⟨.inl rfl, hnever hother⟩

theorem crashEnvelope_spec {proc : Option Completed} (h : crashEnvelope i s out ident proc = .ok s') :
    Envelope i out s s' ∧ (proc ≠ none → (s'.files out).isSome) := by
  unfold crashEnvelope at h
  split at h
  · obtain rfl := Except.ok.inj h
    exact ⟨.inl rfl, fun hne => absurd rfl hne⟩
  · split_ifs at h with hthere hcode
    · obtain rfl := Except.ok.inj h
      exact ⟨.inl rfl, fun _ => hthere⟩
    · have henv := envelope_of_writeResult hthere h
      exact ⟨henv.1, fun _ => henv.2⟩
    · have henv := envelope_of_writeResult hthere h
      exact ⟨henv.1, fun _ => henv.2⟩

/-! ### The turn -/

/-- A process that was not reported comes with a client error. -/
theorem spawnGuardedWorker_process {run : GuardedRun} {r : GuardedWorkerResult × List WorkerRun}
    (h : spawnGuardedWorker run = .ok r) (hp : r.1.process = none) : r.1.clientError ≠ none := by
  unfold spawnGuardedWorker at h
  split at h
  all_goals cases h
  all_goals simp at hp ⊢

/-- A worker is launched directly only where the supervisor launched none. -/
theorem spawnGuardedWorker_once {run : GuardedRun} {r : GuardedWorkerResult × List WorkerRun}
    (h : spawnGuardedWorker run = .ok r) : r.2.length ≤ 1 := by
  unfold spawnGuardedWorker at h
  split at h
  all_goals cases h
  case h_4 error w => exact Option.length_toList_le
  all_goals exact le_rfl

theorem Turn.launches_once (t : Turn) (guarded : Bool) : (t.launches guarded).length ≤ 1 := by
  unfold Turn.launches
  cases guarded with
  | false => exact le_rfl
  | true =>
    cases hspawn : spawnGuardedWorker t.guarded with
    | error e => exact Nat.zero_le _
    | ok r => exact spawnGuardedWorker_once hspawn

theorem launchUnderGuard_log {name : PyStr} {proc : Option Completed}
    (h : launchUnderGuard file outDir i s t name config out ident = .ok (proc, s')) :
    s'.log = s.log ++ (t.launches true).map fun _ => .launch i := by
  simp only [launchUnderGuard, bind_eq_ok] at h
  obtain ⟨s₁, hunlink, ⟨r, launches⟩, hspawn, s₂, hlaunchRec, s₃, hclientRec, s₄, hsuperRec, s₅, henv, hret⟩ := h
  obtain ⟨-, rfl⟩ := Prod.mk.inj (Except.ok.inj hret)
  have hlaunches : t.launches true = launches := by simp [Turn.launches, hspawn]
  rw [(guardEnvelope_spec henv).1.log_eq, (writeRecord_spec hsuperRec).1, (writeRecord_spec hclientRec).1,
    (writeRecord_spec hlaunchRec).1, (launchAll_spec _ _ _ _ _).1, (unlinkRecords_spec hunlink).1, hlaunches]

/-- After the launches, the artifact is what a worker wrote. -/
theorem progress_launch {name : PyStr} {s₁ : State F}
    (hframe : ∀ g, (guarded = true → ∀ kind ∈ recordKinds, g ≠ file (recordPath outDir name kind)) → s₁.files g = s.files g)
    (hmissing : s₁.files out = none) :
    Progress file outDir i guarded name out (artifactOf t.env config launches) s (s₁.launchAll i t.env config out launches) := by
  obtain ⟨-, hother, hwritten, hnone⟩ := launchAll_spec (i := i) s₁ t.env config out launches
  refine ⟨fun g hg hrec => (hother g hg).trans (hframe g hrec), hwritten, fun hno e he => ?_⟩
  exact absurd ((hnone hno).trans hmissing ▸ he) (by simp)

theorem launchUnderGuard_spec {name : PyStr} {proc : Option Completed}
    (hne : ∀ kind ∈ recordKinds, file (recordPath outDir name kind) ≠ out) (hmissing : s.files out = none)
    (h : launchUnderGuard file outDir i s t name config out ident = .ok (proc, s')) :
    Progress file outDir i true name out (artifactOf t.env config (t.launches true)) s s' ∧
      (proc = none → (s'.files out).isSome) := by
  simp only [launchUnderGuard, bind_eq_ok] at h
  obtain ⟨s₁, hunlink, ⟨r, launches⟩, hspawn, s₂, hlaunchRec, s₃, hclientRec, s₄, hsuperRec, s₅, henv, hret⟩ := h
  obtain ⟨rfl, rfl⟩ := Prod.mk.inj (Except.ok.inj hret)
  have hlaunches : t.launches true = launches := by simp [Turn.launches, hspawn]
  obtain ⟨-, hfiles₁⟩ := unlinkRecords_spec hunlink
  have hmissing₁ : s₁.files out = none := (hfiles₁ out fun kind hk => (hne kind hk).symm).trans hmissing
  have hprogress := @progress_launch F _ file outDir i true t s out config launches name s₁ (fun g hg => hfiles₁ g (hg rfl))
    hmissing₁
  obtain ⟨-, hfiles₂⟩ := writeRecord_spec hlaunchRec
  obtain ⟨-, hfiles₃⟩ := writeRecord_spec hclientRec
  obtain ⟨-, hfiles₄⟩ := writeRecord_spec hsuperRec
  obtain ⟨hstep, hsome⟩ := guardEnvelope_spec henv
  have hp₂ := hprogress.of_record (by simp [recordKinds]) (hne _ (by simp [recordKinds])) hfiles₂
  have hp₃ := hp₂.of_record (by simp [recordKinds]) (hne _ (by simp [recordKinds])) hfiles₃
  have hp₄ := hp₃.of_record (by simp [recordKinds]) (hne _ (by simp [recordKinds])) hfiles₄
  rw [hlaunches]
  exact ⟨hp₄.of_envelopeStep hstep, fun hp => hsome hp (spawnGuardedWorker_process hspawn hp)⟩

/-- What a turn did: it found the artifact fresh, or it removed it and something was
written in its place. -/
inductive TurnOutcome (file : Path → F) (outDir : Path) (i : ℕ) (guarded : Bool) (sessionId : PyStr) (c : Condition) (t : Turn)
    (s s' : State F) : Prop
  | fresh (ident : List (PyStr × PyValue)) (entry : Entry)
      (identity : conditionIdentity t.env c.kind sessionId c.params c.attentionImpl none none = .ok ident)
      (there : s.files (file (outPath outDir c.name)) = some entry) (isFresh : resultIsFresh (some entry.content) ident = .ok true)
      (same : s' = s.record (.fresh i))
  | ran (ident : List (PyStr × PyValue)) (config : Json)
      (identity : conditionIdentity t.env c.kind sessionId c.params c.attentionImpl none none = .ok ident)
      (stale : resultIsFresh ((s.files (file (outPath outDir c.name))).map Entry.content) ident = .ok false)
      (encoded : encode (configValue c sessionId (outPath outDir c.name)) = .ok config)
      (progress : Progress file outDir i guarded c.name (file (outPath outDir c.name))
        (artifactOf t.env config (t.launches guarded)) s s')
      (isSome : (s'.files (file (outPath outDir c.name))).isSome)
      (log : s'.log = s.log ++ (t.launches guarded).map fun _ => .launch i)

theorem Progress.of_remove {name : PyStr} {artifact : Option Json}
    (h : Progress file outDir i guarded name out artifact (s.remove out) s') :
    Progress file outDir i guarded name out artifact s s' where
  frame g hg hrec := (h.frame g hg hrec).trans (State.remove_files_ne s hg)
  written := h.written
  envelope := h.envelope

theorem runCondition_outcome
    (hne : guarded = true → ∀ kind ∈ recordKinds, file (recordPath outDir c.name kind) ≠ file (outPath outDir c.name))
    (h : runCondition file outDir i guarded sessionId c t s = .ok s') :
    TurnOutcome file outDir i guarded sessionId c t s s' := by
  simp only [runCondition, bind_eq_ok, mapError_eq_ok] at h
  obtain ⟨ident, hident, fresh, hfresh, h⟩ := h
  cases fresh with
  | true =>
    obtain rfl := Except.ok.inj h
    cases hthere : s.files (file (outPath outDir c.name)) with
    | none => simp [hthere, resultIsFresh] at hfresh
    | some entry => exact .fresh ident entry hident hthere (by simpa [hthere] using hfresh) rfl
  | false =>
    simp only [Bool.false_eq_true, if_false, bind_eq_ok, mapError_eq_ok] at h
    obtain ⟨s₁, hunlink, config, hconfig, h⟩ := h
    obtain rfl := unlink_eq_ok hunlink
    cases guarded with
    | true =>
      obtain ⟨⟨proc, s₂⟩, hspawn, henv⟩ := bind_eq_ok.1 h
      obtain ⟨hprogress, hnone⟩ := launchUnderGuard_spec (hne rfl) (State.remove_files_self s _) hspawn
      obtain ⟨hstep, hsome⟩ := crashEnvelope_spec henv
      have hlog := launchUnderGuard_log hspawn
      rw [State.remove_log] at hlog
      refine .ran ident config hident hfresh hconfig (hprogress.of_envelopeStep hstep).of_remove ?_ (hstep.log_eq.trans hlog)
      cases proc with
      | none => exact hstep.isSome (hnone rfl)
      | some proc => exact hsome (by simp)
    | false =>
      have hprogress := @progress_launch F _ file outDir i false t (s.remove (file (outPath outDir c.name)))
        (file (outPath outDir c.name)) config [t.worker] c.name _ (fun _ _ => rfl) (State.remove_files_self s _)
      have henv : crashEnvelope i ((s.remove (file (outPath outDir c.name))).launchAll i t.env config
          (file (outPath outDir c.name)) [t.worker]) (file (outPath outDir c.name)) ident (some t.worker.process) = .ok s' := h
      obtain ⟨hstep, hsome⟩ := crashEnvelope_spec henv
      refine .ran ident config hident hfresh hconfig (hprogress.of_envelopeStep hstep).of_remove (hsome (by simp)) ?_
      rw [hstep.log_eq, (launchAll_spec _ _ _ _ _).1, State.remove_log]
      rfl

end Turn

/-! ## The run -/

def Event.turn : Event → ℕ
  | .fresh i => i
  | .launch i => i

/-- What happened in one turn. -/
def turnEvents (i : ℕ) (log : List Event) : List Event := log.filter fun e => e.turn = i

/-- No two artifacts are one file, and supervised none of them is a record. -/
structure Separate {F : Type} (file : Path → F) (outDir : Path) (guarded : Bool) (names : List PyStr) : Prop where
  distinct : (names.map fun n => file (outPath outDir n)).Nodup
  records : guarded = true → ∀ m ∈ names, ∀ n ∈ names, ∀ kind ∈ recordKinds,
    file (recordPath outDir m kind) ≠ file (outPath outDir n)

section Run
variable {F : Type} [DecidableEq F] {file : Path → F} {outDir : Path} {i : ℕ} {guarded : Bool} {sessionId : PyStr}
  {c : Condition} {t : Turn} {s s' : State F} {turns : List (Condition × Turn)}

omit [DecidableEq F] in
theorem TurnOutcome.frame (h : TurnOutcome file outDir i guarded sessionId c t s s') {g : F}
    (hg : g ≠ file (outPath outDir c.name))
    (hrec : guarded = true → ∀ kind ∈ recordKinds, g ≠ file (recordPath outDir c.name kind)) : s'.files g = s.files g := by
  cases h with
  | fresh ident entry hident hthere hfresh hsame => rw [hsame, State.record_files]
  | ran ident config hident hstale hconfig hprogress hsome hlog => exact hprogress.frame g hg hrec

omit [DecidableEq F] in
theorem TurnOutcome.events (h : TurnOutcome file outDir i guarded sessionId c t s s') :
    ∃ evs, s'.log = s.log ++ evs ∧ evs.length ≤ 1 ∧ ∀ e ∈ evs, e.turn = i := by
  cases h with
  | fresh ident entry hident hthere hfresh hsame => exact ⟨[.fresh i], by rw [hsame, State.record_log], le_rfl, by simp [Event.turn]⟩
  | ran ident config hident hstale hconfig hprogress hsome hlog =>
    refine ⟨_, hlog, ?_, ?_⟩
    · rw [List.length_map]
      exact t.launches_once guarded
    · rw [List.forall_mem_map]
      exact fun _ _ => rfl

/-- Each turn of a run has an outcome. -/
theorem runFrom_cons {ct : Condition × Turn} (hsep : Separate file outDir guarded (((ct :: turns).map fun ct => ct.1.name)))
    (h : runFrom file outDir guarded sessionId i (ct :: turns) s = .ok s') :
    ∃ s₁, TurnOutcome file outDir i guarded sessionId ct.1 ct.2 s s₁ ∧
      runFrom file outDir guarded sessionId (i + 1) turns s₁ = .ok s' := by
  obtain ⟨s₁, hturn, hrest⟩ := bind_eq_ok.1 h
  exact ⟨s₁, runCondition_outcome (fun hguard => hsep.records hguard _ (by simp) _ (by simp)) hturn, hrest⟩

omit [DecidableEq F] in
theorem Separate.tail {n : PyStr} {names : List PyStr} (h : Separate file outDir guarded (n :: names)) :
    Separate file outDir guarded names where
  distinct := (List.nodup_cons.1 h.distinct).2
  records hguard m hm k hk := h.records hguard m (List.mem_cons_of_mem _ hm) k (List.mem_cons_of_mem _ hk)

/-- A run touches the artifacts and the records of its own conditions only. -/
theorem runFrom_frame (hsep : Separate file outDir guarded (turns.map fun ct => ct.1.name))
    (h : runFrom file outDir guarded sessionId i turns s = .ok s') {g : F}
    (hg : ∀ n ∈ turns.map fun ct => ct.1.name, g ≠ file (outPath outDir n) ∧
      (guarded = true → ∀ kind ∈ recordKinds, g ≠ file (recordPath outDir n kind))) : s'.files g = s.files g := by
  induction turns generalizing i s with
  | nil =>
    obtain rfl := Except.ok.inj h
    rfl
  | cons ct turns ih =>
    obtain ⟨s₁, hturn, hrest⟩ := runFrom_cons hsep h
    rw [List.map_cons, List.forall_mem_cons] at hg
    exact (ih hsep.tail hrest hg.2).trans (hturn.frame hg.1.1 hg.1.2)

theorem runFrom_events (hsep : Separate file outDir guarded (turns.map fun ct => ct.1.name))
    (h : runFrom file outDir guarded sessionId i turns s = .ok s') :
    ∃ evs, s'.log = s.log ++ evs ∧ ∀ e ∈ evs, i ≤ e.turn := by
  induction turns generalizing i s with
  | nil =>
    obtain rfl := Except.ok.inj h
    exact ⟨[], by simp, by simp⟩
  | cons ct turns ih =>
    obtain ⟨s₁, hturn, hrest⟩ := runFrom_cons hsep h
    obtain ⟨evs, hevs, -, hturnEq⟩ := hturn.events
    obtain ⟨evs', hevs', hle⟩ := ih hsep.tail hrest
    refine ⟨evs ++ evs', by rw [hevs', hevs, List.append_assoc], fun e he => ?_⟩
    rcases List.mem_append.1 he with he | he
    · exact (hturnEq e he).ge
    · exact (Nat.le_succ i).trans (hle e he)

theorem turnEvents_append {j : ℕ} {log evs : List Event} (h : ∀ e ∈ evs, e.turn ≠ j) :
    turnEvents j (log ++ evs) = turnEvents j log := by
  have hnone : evs.filter (fun e => e.turn = j) = [] := by simpa using h
  simp [turnEvents, hnone]

/-- Every turn stands alone: it starts from what the run started with at its artifact,
and leaves there what the run leaves. -/
theorem runFrom_turn (hsep : Separate file outDir guarded (turns.map fun ct => ct.1.name))
    (h : runFrom file outDir guarded sessionId i turns s = .ok s') {k : ℕ} {ct : Condition × Turn} (hk : turns[k]? = some ct) :
    ∃ sk sk', TurnOutcome file outDir (i + k) guarded sessionId ct.1 ct.2 sk sk' ∧
      sk.files (file (outPath outDir ct.1.name)) = s.files (file (outPath outDir ct.1.name)) ∧
      s'.files (file (outPath outDir ct.1.name)) = sk'.files (file (outPath outDir ct.1.name)) ∧
      turnEvents (i + k) sk.log = turnEvents (i + k) s.log ∧ turnEvents (i + k) s'.log = turnEvents (i + k) sk'.log := by
  induction turns generalizing i s k with
  | nil => simp at hk
  | cons ct' turns ih =>
    obtain ⟨s₁, hturn, hrest⟩ := runFrom_cons hsep h
    obtain ⟨hnew, -⟩ := List.nodup_cons.1 hsep.distinct
    cases k with
    | zero =>
      obtain rfl := Option.some.inj hk
      obtain ⟨evs, hevs, hle⟩ := runFrom_events hsep.tail hrest
      refine ⟨s, s₁, hturn, rfl, runFrom_frame hsep.tail hrest fun n hn => ⟨fun heq => ?_, fun hguard kind hkind => ?_⟩, rfl, ?_⟩
      · exact hnew (List.mem_map.2 ⟨n, hn, heq.symm⟩)
      · exact (hsep.records hguard n (List.mem_cons_of_mem _ hn) _ (by simp) kind hkind).symm
      · rw [hevs]
        exact turnEvents_append fun e he => by have := hle e he; omega
    | succ k =>
      have hmem : ct.1.name ∈ turns.map fun ct => ct.1.name := List.mem_map.2 ⟨ct, List.mem_of_getElem? hk, rfl⟩
      obtain ⟨sk, sk', hout, hstart, hend, hbefore, hafter⟩ := ih hsep.tail hrest hk
      have hsame : s₁.files (file (outPath outDir ct.1.name)) = s.files (file (outPath outDir ct.1.name)) := by
        refine hturn.frame (fun heq => ?_) fun hguard kind hkind => ?_
        · exact hnew (List.mem_map.2 ⟨_, hmem, heq⟩)
        · exact (hsep.records hguard _ (by simp) _ (List.mem_cons_of_mem _ hmem) kind hkind).symm
      obtain ⟨evs, hevs, -, hturnEq⟩ := hturn.events
      have hearlier : turnEvents (i + 1 + k) s₁.log = turnEvents (i + 1 + k) s.log := by
        rw [hevs]
        exact turnEvents_append fun e he => by have := hturnEq e he; omega
      rw [show i + (k + 1) = i + 1 + k by omega]
      exact ⟨sk, sk', hout, hstart.trans hsame, hend, hbefore.trans hearlier, hafter⟩

/-- The state that `run_conditions` starts from. -/
def State.initial (files : F → Option Content) : State F := ⟨fun f => (files f).map fun content => ⟨content, .prior⟩, []⟩

theorem runConditions_eq_ok {dirState : GuardDirState} {files : F → Option Content} {paths : List Path}
    (h : runConditions file outDir guarded sessionId dirState files turns = .ok (paths, s)) :
    paths = turns.map (fun ct => outPath outDir ct.1.name) ∧
      runFrom file outDir guarded sessionId 0 turns (.initial files) = .ok s := by
  have hrun : ∃ s₁, runFrom file outDir guarded sessionId 0 turns (.initial files) = .ok s₁ ∧
      (turns.map (fun ct => outPath outDir ct.1.name), s₁) = (paths, s) := by
    cases guarded with
    | true =>
      obtain ⟨_, -, h⟩ := bind_eq_ok.1 h
      obtain ⟨s₁, hrun, hret⟩ := bind_eq_ok.1 h
      exact ⟨s₁, hrun, Except.ok.inj hret⟩
    | false =>
      obtain ⟨s₁, hrun, hret⟩ := bind_eq_ok.1 h
      exact ⟨s₁, hrun, Except.ok.inj hret⟩
  obtain ⟨s₁, hrun, heq⟩ := hrun
  obtain ⟨rfl, rfl⟩ := Prod.mk.inj heq
  exact ⟨rfl, hrun⟩

theorem runConditions_turn {dirState : GuardDirState} {files : F → Option Content} {paths : List Path}
    (hsep : Separate file outDir guarded (turns.map fun ct => ct.1.name))
    (h : runConditions file outDir guarded sessionId dirState files turns = .ok (paths, s)) {k : ℕ} {ct : Condition × Turn}
    (hk : turns[k]? = some ct) :
    ∃ sk sk', TurnOutcome file outDir k guarded sessionId ct.1 ct.2 sk sk' ∧
      sk.files (file (outPath outDir ct.1.name)) =
        (files (file (outPath outDir ct.1.name))).map (fun content => ⟨content, .prior⟩) ∧
      s.files (file (outPath outDir ct.1.name)) = sk'.files (file (outPath outDir ct.1.name)) ∧
      turnEvents k sk.log = [] ∧ turnEvents k s.log = turnEvents k sk'.log := by
  obtain ⟨sk, sk', hout, hstart, hend, hbefore, hafter⟩ := runFrom_turn hsep (runConditions_eq_ok h).2 hk
  rw [zero_add] at hout hbefore hafter
  exact ⟨sk, sk', hout, hstart, hend, hbefore, hafter⟩

theorem mem_turnEvents {e : Event} {log : List Event} : e ∈ turnEvents e.turn log ↔ e ∈ log := by simp [turnEvents]

omit [DecidableEq F] in
/-- One turn's own events, when there were none of them before it. -/
theorem TurnOutcome.turnEvents_eq (h : TurnOutcome file outDir i guarded sessionId c t s s') (hs : turnEvents i s.log = []) :
    turnEvents i s'.log = [.fresh i] ∧ (∃ ident entry, conditionIdentity t.env c.kind sessionId c.params c.attentionImpl none none =
        .ok ident ∧ s.files (file (outPath outDir c.name)) = some entry ∧ resultIsFresh (some entry.content) ident = .ok true ∧
        s'.files = s.files) ∨
      turnEvents i s'.log = (t.launches guarded).map (fun _ => .launch i) ∧
        ∃ ident config, conditionIdentity t.env c.kind sessionId c.params c.attentionImpl none none = .ok ident ∧
          resultIsFresh ((s.files (file (outPath outDir c.name))).map Entry.content) ident = .ok false ∧
          encode (configValue c sessionId (outPath outDir c.name)) = .ok config ∧
          Progress file outDir i guarded c.name (file (outPath outDir c.name)) (artifactOf t.env config (t.launches guarded)) s s' ∧
          (s'.files (file (outPath outDir c.name))).isSome := by
  have happend : ∀ evs, (∀ e ∈ evs, e.turn = i) → turnEvents i (s.log ++ evs) = evs := by
    intro evs hevs
    have hall : evs.filter (fun e => e.turn = i) = evs := List.filter_eq_self.2 fun e he => by simpa using hevs e he
    rw [turnEvents, List.filter_append, hall]
    simpa [turnEvents] using hs
  cases h with
  | fresh ident entry hident hthere hfresh hsame =>
    refine .inl ⟨?_, ident, entry, hident, hthere, hfresh, by rw [hsame, State.record_files]⟩
    rw [hsame, State.record_log]
    exact happend _ (by simp [Event.turn])
  | ran ident config hident hstale hconfig hprogress hsome hlog =>
    refine .inr ⟨?_, ident, config, hident, hstale, hconfig, hprogress, hsome⟩
    rw [hlog]
    refine happend _ ?_
    rw [List.forall_mem_map]
    exact fun _ _ => rfl

/-- When no two artifacts are one file and none is a guard record, every returned path
holds an artifact that was there and fresh, or one of this call for its condition; what
a worker wrote stays; and no worker is launched twice. -/
theorem sweep_never_stale (file : Path → F) (outDir : Path) (guarded : Bool) (sessionId : PyStr) (dirState : GuardDirState)
    (files : F → Option Content) (turns : List (Condition × Turn)) (paths : List Path) (s : State F)
    (hsep : Separate file outDir guarded (turns.map fun ct => ct.1.name))
    (h : runConditions file outDir guarded sessionId dirState files turns = .ok (paths, s)) :
    paths = turns.map (fun ct => outPath outDir ct.1.name) ∧ ∀ k ct, turns[k]? = some ct →
      (∃ ident entry, conditionIdentity ct.2.env ct.1.kind sessionId ct.1.params ct.1.attentionImpl none none = .ok ident ∧
        s.files (file (outPath outDir ct.1.name)) = some entry ∧
        ((∃ doc data, files (file (outPath outDir ct.1.name)) = some (.parses doc) ∧ entry = ⟨.parses doc, .prior⟩ ∧
            decode doc = .dict data ∧ pyEq (getItem data (lit "status")) (.str (lit "ok")) = true ∧
            pyEq (getItem data (lit "identity")) (.dict (strItems ident)) = true) ∨
          entry.writer = .worker k ∨ entry.writer = .runner k)) ∧
      (∀ w config doc, .launch k ∈ s.log → w ∈ ct.2.launches guarded →
        encode (configValue ct.1 sessionId (outPath outDir ct.1.name)) = .ok config → w.artifact ct.2.env config = some doc →
        s.files (file (outPath outDir ct.1.name)) = some ⟨.parses doc, .worker k⟩) ∧
      s.log.count (.launch k) ≤ 1 := by
  refine ⟨(runConditions_eq_ok h).1, fun k ct hk => ?_⟩
  obtain ⟨sk, sk', hout, hstart, hend, hbefore, hafter⟩ := runConditions_turn hsep h hk
  have hcount : s.log.count (.launch k) = (turnEvents k s.log).count (.launch k) := by
    rw [turnEvents, List.count_filter]
    simp [Event.turn]
  have hlaunched : Event.launch k ∈ s.log ↔ Event.launch k ∈ turnEvents k s.log := mem_turnEvents.symm
  rw [hcount, hlaunched, hafter, hend]
  rcases hout.turnEvents_eq hbefore with ⟨hevents, ident, entry, hident, hthere, hfresh, hsame⟩ |
      ⟨hevents, ident, config, hident, -, hconfig, hprogress, hsome⟩
  · rw [hevents]
    refine ⟨⟨ident, entry, hident, by rw [hsame, hthere], .inl ?_⟩, fun w config doc hmem => ?_, by simp⟩
    · obtain ⟨content, hcontent, rfl⟩ := Option.map_eq_some_iff.1 (hstart.symm.trans hthere)
      obtain ⟨doc, data, rfl, hdata, hstatus, hidentity⟩ := resultIsFresh_eq_true hfresh
      exact ⟨doc, data, hcontent, rfl, hdata, hstatus, hidentity⟩
    · simp at hmem
  · rw [hevents]
    obtain ⟨entry, hentry⟩ := Option.isSome_iff_exists.1 hsome
    refine ⟨⟨ident, entry, hident, hentry, .inr ?_⟩, fun w config' doc _ hlaunched hconfig' hdoc => ?_, ?_⟩
    · cases hartifact : artifactOf ct.2.env config (ct.2.launches guarded) with
      | none => exact .inr (hprogress.envelope hartifact entry hentry)
      | some doc =>
        obtain rfl := Option.some.inj (hentry.symm.trans (hprogress.written doc hartifact))
        exact .inl rfl
    · obtain rfl := Except.ok.inj (hconfig.symm.trans hconfig')
      refine hprogress.written doc ?_
      obtain ⟨w', honly⟩ := List.length_eq_one_iff.1
        (le_antisymm (ct.2.launches_once guarded) (List.length_pos_of_mem hlaunched))
      rw [honly] at hlaunched ⊢
      obtain rfl := List.mem_singleton.1 hlaunched
      simp [artifactOf, hdoc]
    · refine List.count_le_length.trans ?_
      rw [List.length_map]
      exact ct.2.launches_once guarded

end Run

/-! ### Two conditions -/

def benchEnv : Env := ⟨lit "0.31.2", none, lit "arm64", lit "15.5", lit "0123abcd", lit "0.6.0"⟩

/-- A worker that writes an `ok` artifact. -/
def okWorker : WorkerRun := ⟨some (lit "ok", []), 0, [], []⟩

def okTurn : Turn := ⟨benchEnv, okWorker, .unavailable okWorker, lit "a"⟩

def lossCondition (name impl : PyStr) : Condition :=
  ⟨name, lit "loss_layer", [(.str (lit "impl"), .str impl)], none, none⟩

def benchOut : Path := ⟨false, [lit "out"]⟩

theorem sweep_never_stale_pair :
    ∃ paths s, runConditions id benchOut true (lit "s") .own (fun _ => none)
        [(lossCondition (lit "x") (lit "kernel"), okTurn), (lossCondition (lit "y") (lit "naive"), okTurn)] = .ok (paths, s) ∧
      paths = [outPath benchOut (lit "x"), outPath benchOut (lit "y")] ∧ s.log.count (.launch 1) ≤ 1 := by
  have hsep : Separate id benchOut true [lit "x", lit "y"] :=
    ⟨by decide, fun _ => by decide⟩
  refine ⟨_, _, rfl, ?_⟩
  have hsweep := sweep_never_stale id benchOut true (lit "s") .own (fun _ => none)
    [(lossCondition (lit "x") (lit "kernel"), okTurn), (lossCondition (lit "y") (lit "naive"), okTurn)] _ _ hsep rfl
  exact ⟨hsweep.1, (hsweep.2 1 _ rfl).2.2⟩

/-- Two names can denote one file: the path of `x` then holds what the worker of `./x`
wrote. And a name can denote another condition's guard record, which its launch
removes: then nothing is at the path. -/
theorem sweep_aliased_names :
    (lit "x" ≠ lit "./x" ∧ ∃ paths s entry, runConditions id benchOut false (lit "s") .absent (fun _ => none)
        [(lossCondition (lit "x") (lit "kernel"), okTurn), (lossCondition (lit "./x") (lit "naive"), okTurn)] = .ok (paths, s) ∧
      paths[0]? = some (outPath benchOut (lit "x")) ∧ s.files (outPath benchOut (lit "x")) = some entry ∧
      entry.writer ≠ .prior ∧ entry.writer ≠ .worker 0 ∧ entry.writer ≠ .runner 0) ∧
    lit "_mlx_guard/a.client" ≠ lit "a" ∧ ∃ paths s, runConditions id benchOut true (lit "s") .own (fun _ => none)
        [(lossCondition (lit "_mlx_guard/a.client") (lit "kernel"), okTurn), (lossCondition (lit "a") (lit "naive"), okTurn)] =
          .ok (paths, s) ∧
      paths[0]? = some (outPath benchOut (lit "_mlx_guard/a.client")) ∧
      s.files (outPath benchOut (lit "_mlx_guard/a.client")) = none := by
  refine ⟨⟨by decide, _, _, _, rfl, rfl, rfl, ?_⟩, by decide, _, _, rfl, rfl, rfl⟩
  decide

end MlxTrainPerf.Bench
