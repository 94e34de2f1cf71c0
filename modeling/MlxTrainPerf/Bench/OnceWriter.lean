import Mathlib.Data.List.Basic
import Mathlib.Data.Option.Basic
/-!
# One record, one writer

`_OnceWriter` of `scripts/bench_attention_marginal.py`, as one thread's steps: the lock, the
flag, the temporary file, the rename and the release are steps of their own, and other
threads take theirs in between. What a thread knows of the writer at each of its steps
survives what the others can do (`OncePc.Knows.stable`), so it can be followed alone.
-/
namespace MlxTrainPerf.Bench

variable {τ ρ : Type}

/-! ## The writer -/

/-- How `write_once` ends: with `True`, with `False`, or in an exception. -/
inductive Outcome
  | won
  | lost
  | raised
deriving DecidableEq, Repr

/-- Where a thread is in `write_once`: it waits for the lock, checks the flag, writes its
temporary file, renames it, sets the flag, and releases the lock. -/
inductive OncePc
  | waiting
  | checking
  | writing
  | replacing
  | marking
  | releasing (outcome : Outcome)
  | returned (outcome : Outcome)
deriving DecidableEq, Repr

/-- `landed` are the records that were renamed to the path, each over the one before. -/
structure OnceWriter (τ ρ : Type) where
  lock : Option τ
  closed : Bool
  landed : List ρ

/-- A new writer. -/
def OnceWriter.init : OnceWriter τ ρ := ⟨none, false, []⟩

/-- What this process has put at the path. -/
def OnceWriter.file (w : OnceWriter τ ρ) : Option ρ := w.landed.getLast?

/-- `timeout`: the lock was held for the two seconds of the wait. `fail`: `_atomic_write`
raises, before or in the rename. -/
inductive OnceAct
  | acquire
  | timeout
  | check
  | write
  | replace
  | fail
  | mark
  | release
deriving DecidableEq, Repr

/-- `write_once`, and `_atomic_write` in it. A thread's temporary file has the thread's own
name, so only its rename is seen. -/
def writeOnceStep (who : τ) (record : ρ) (w : OnceWriter τ ρ) (pc : OncePc) (a : OnceAct) :
    Option (OnceWriter τ ρ × OncePc) :=
  match pc, a with
  | .waiting, .acquire => if w.lock.isNone then some ({ w with lock := some who }, .checking) else none
  | .waiting, .timeout => if w.lock.isNone then none else some (w, .returned .lost)
  | .checking, .check => some (w, if w.closed then .releasing .lost else .writing)
  | .writing, .write => some (w, .replacing)
  | .writing, .fail => some (w, .releasing .raised)
  | .replacing, .replace => some ({ w with landed := w.landed ++ [record] }, .marking)
  | .replacing, .fail => some (w, .releasing .raised)
  | .marking, .mark => some ({ w with closed := true }, .releasing .won)
  | .releasing outcome, .release => some ({ w with lock := none }, .returned outcome)
  | _, _ => none

/-! ## What a thread knows -/

/-- At most one record has landed, and behind a free lock an open writer has none. -/
structure OnceWriter.Sound (w : OnceWriter τ ρ) : Prop where
  atMostOne : w.landed.length ≤ 1
  free : w.lock = none → w.closed = false → w.landed = []

theorem OnceWriter.sound_init : (OnceWriter.init : OnceWriter τ ρ).Sound := ⟨Nat.zero_le 1, fun _ _ => rfl⟩

/-- What the thread knows of the writer, by where it is. -/
def OncePc.Knows (who : τ) (record : ρ) (w : OnceWriter τ ρ) : OncePc → Prop
  | .waiting => w.lock ≠ some who
  | .checking => w.lock = some who ∧ (w.closed = false → w.landed = [])
  | .writing => w.lock = some who ∧ w.closed = false ∧ w.landed = []
  | .replacing => w.lock = some who ∧ w.closed = false ∧ w.landed = []
  | .marking => w.lock = some who ∧ w.closed = false ∧ w.landed = [record]
  | .releasing .won => w.lock = some who ∧ w.closed = true ∧ w.landed = [record]
  | .releasing .lost => w.lock = some who ∧ w.closed = true
  | .releasing .raised => w.lock = some who ∧ w.closed = false ∧ w.landed = []
  | .returned .won => w.lock ≠ some who ∧ w.closed = true ∧ w.landed = [record]
  | .returned .lost => w.lock ≠ some who
  | .returned .raised => w.lock ≠ some who

/-- What a step of another thread does to the writer: it takes or gives back the lock in its
own name, and touches the record and the flag only with the lock and before the flag is
set. -/
structure Interferes (other : τ) (record : ρ) (w w' : OnceWriter τ ρ) : Prop where
  lock : ∀ who, who ≠ other → (w'.lock = some who ↔ w.lock = some who)
  frozen : w.lock ≠ some other ∨ w.closed = true → w'.closed = w.closed ∧ w'.landed = w.landed
  landed : w'.landed = w.landed ∨ w'.landed = w.landed ++ [record]

/-- The thread's own record has landed. -/
def OncePc.hasLanded : OncePc → Bool
  | .marking => true
  | .releasing outcome => outcome == .won
  | .returned outcome => outcome == .won
  | _ => false

section Steps
variable {who other : τ} {record record' : ρ} {w w' : OnceWriter τ ρ} {pc pc' : OncePc} {a : OnceAct}

/-- A step of `write_once` takes the lock, puts the record at the path, sets the flag, gives
back the lock, or leaves the writer alone. -/
inductive OnceEffect (who : τ) (record : ρ) (w w' : OnceWriter τ ρ) : OncePc → OnceAct → OncePc → Prop
  | acquire (free : w.lock = none) (effect : w' = { w with lock := some who }) :
    OnceEffect who record w w' .waiting .acquire .checking
  | replace (effect : w' = { w with landed := w.landed ++ [record] }) :
    OnceEffect who record w w' .replacing .replace .marking
  | mark (effect : w' = { w with closed := true }) : OnceEffect who record w w' .marking .mark (.releasing .won)
  | release (outcome : Outcome) (effect : w' = { w with lock := none }) :
    OnceEffect who record w w' (.releasing outcome) .release (.returned outcome)
  | quiet {pc pc' : OncePc} {a : OnceAct} (effect : w' = w) (knows : pc.Knows who record w → pc'.Knows who record w)
    (landed : pc'.hasLanded = pc.hasLanded) (notRaised : pc' ≠ .returned .raised) : OnceEffect who record w w' pc a pc'

theorem writeOnceStep_effect (h : writeOnceStep who record w pc a = some (w', pc')) :
    OnceEffect who record w w' pc a pc' := by
  unfold writeOnceStep at h
  split at h
  case h_1 =>
    split at h
    · next hfree =>
      obtain ⟨rfl, rfl⟩ := Prod.mk.inj (Option.some.inj h)
      exact .acquire (Option.isNone_iff_eq_none.1 hfree) rfl
    · cases h
  case h_2 =>
    split at h
    · cases h
    · obtain ⟨rfl, rfl⟩ := Prod.mk.inj (Option.some.inj h)
      exact .quiet rfl id rfl nofun
  case h_3 =>
    obtain ⟨rfl, rfl⟩ := Prod.mk.inj (Option.some.inj h)
    cases hclosed : w.closed with
    | true => exact .quiet rfl (fun hk => ⟨hk.1, hclosed⟩) rfl nofun
    | false => exact .quiet rfl (fun hk => ⟨hk.1, hclosed, hk.2 hclosed⟩) rfl nofun
  case h_6 =>
    obtain ⟨rfl, rfl⟩ := Prod.mk.inj (Option.some.inj h)
    exact .replace rfl
  case h_8 =>
    obtain ⟨rfl, rfl⟩ := Prod.mk.inj (Option.some.inj h)
    exact .mark rfl
  case h_9 outcome =>
    obtain ⟨rfl, rfl⟩ := Prod.mk.inj (Option.some.inj h)
    exact .release outcome rfl
  case h_10 => cases h
  all_goals
    obtain ⟨rfl, rfl⟩ := Prod.mk.inj (Option.some.inj h)
    exact .quiet rfl id rfl nofun

theorem OncePc.Knows.lock_of_releasing {outcome : Outcome} (hk : OncePc.Knows who record w (.releasing outcome)) :
    w.lock = some who := by
  cases outcome with
  | won | lost | raised => exact hk.1

/-- A step of `write_once` keeps what its thread knows. -/
theorem OncePc.Knows.step (hs : w.Sound) (hk : pc.Knows who record w)
    (h : writeOnceStep who record w pc a = some (w', pc')) : w'.Sound ∧ pc'.Knows who record w' := by
  cases writeOnceStep_effect h with
  | acquire free effect =>
    subst effect
    exact ⟨⟨hs.atMostOne, nofun⟩, rfl, hs.free free⟩
  | replace effect =>
    subst effect
    obtain ⟨hlock, hopen, hnone⟩ := hk
    have hone : w.landed ++ [record] = [record] := by rw [hnone, List.nil_append]
    refine ⟨⟨?_, fun hfree => ?_⟩, hlock, hopen, hone⟩
    · rw [hone]
      exact Nat.le_refl 1
    · rw [hlock] at hfree
      cases hfree
  | mark effect =>
    subst effect
    exact ⟨⟨hs.atMostOne, nofun⟩, hk.1, rfl, hk.2.2⟩
  | release outcome effect =>
    subst effect
    cases outcome with
    | won => exact ⟨⟨hs.atMostOne, fun _ hopen => absurd hopen (by simp [hk.2.1])⟩, nofun, hk.2⟩
    | lost => exact ⟨⟨hs.atMostOne, fun _ hopen => absurd hopen (by simp [hk.2])⟩, nofun⟩
    | raised => exact ⟨⟨hs.atMostOne, fun _ _ => hk.2.2⟩, nofun⟩
  | quiet effect knows =>
    subst effect
    exact ⟨hs, knows hk⟩

/-- A record lands in the rename alone. -/
theorem landed_writeOnceStep (h : writeOnceStep who record w pc a = some (w', pc')) :
    a = .replace ∧ pc = .replacing ∧ pc' = .marking ∧ w'.landed = w.landed ++ [record] ∨
      w'.landed = w.landed ∧ pc'.hasLanded = pc.hasLanded := by
  cases writeOnceStep_effect h with
  | replace effect => exact .inl ⟨rfl, rfl, rfl, by rw [effect]⟩
  | acquire _ effect | mark effect | release _ effect => exact .inr ⟨by rw [effect], rfl⟩
  | quiet effect _ landed => exact .inr ⟨by rw [effect], landed⟩

/-- A write that has raised left the path empty: the lock was its own until now. -/
theorem OncePc.Knows.landed_of_raised (hk : pc.Knows who record w)
    (h : writeOnceStep who record w pc a = some (w', .returned .raised)) : w'.landed = [] := by
  cases writeOnceStep_effect h with
  | release _ effect =>
    subst effect
    exact hk.2.2
  | quiet _ _ _ notRaised => exact absurd rfl notRaised

/-- What another thread sees of it. -/
theorem OncePc.Knows.interferes (hk : pc.Knows who record w) (h : writeOnceStep who record w pc a = some (w', pc')) :
    Interferes who record w w' := by
  cases writeOnceStep_effect h with
  | acquire free effect =>
    subst effect
    refine ⟨fun t ht => ?_, fun _ => ⟨rfl, rfl⟩, .inl rfl⟩
    rw [free]
    exact ⟨fun heq => absurd (Option.some.inj heq).symm ht, nofun⟩
  | replace effect =>
    subst effect
    refine ⟨fun _ _ => .rfl, fun hor => ?_, .inr rfl⟩
    rcases hor with hlock | hclosed
    · exact absurd hk.1 hlock
    · rw [hk.2.1] at hclosed
      cases hclosed
  | mark effect =>
    subst effect
    refine ⟨fun _ _ => .rfl, fun hor => ?_, .inl rfl⟩
    rcases hor with hlock | hclosed
    · exact absurd hk.1 hlock
    · exact ⟨hclosed.symm, rfl⟩
  | release outcome effect =>
    subst effect
    refine ⟨fun t ht => ?_, fun _ => ⟨rfl, rfl⟩, .inl rfl⟩
    rw [hk.lock_of_releasing]
    exact ⟨nofun, fun heq => absurd (Option.some.inj heq).symm ht⟩
  | quiet effect =>
    subst effect
    exact ⟨fun _ _ => .rfl, fun _ => ⟨rfl, rfl⟩, .inl rfl⟩

/-- What a thread knows survives the steps of another. -/
theorem OncePc.Knows.stable (hk : pc.Knows who record w) (hi : Interferes other record' w w') (hne : who ≠ other) :
    pc.Knows who record w' := by
  have hlock := hi.lock who hne
  have hheld : w.lock = some who → w'.closed = w.closed ∧ w'.landed = w.landed :=
    fun h => hi.frozen (.inl (by simpa [h] using hne))
  cases pc with
  | waiting => exact fun h => hk (hlock.1 h)
  | checking | writing | replacing | marking =>
    obtain ⟨hclosed, hlanded⟩ := hheld hk.1
    refine ⟨hlock.2 hk.1, ?_⟩
    rw [hclosed, hlanded]
    exact hk.2
  | releasing outcome =>
    cases outcome with
    | won | raised =>
      obtain ⟨hclosed, hlanded⟩ := hheld hk.1
      refine ⟨hlock.2 hk.1, ?_⟩
      rw [hclosed, hlanded]
      exact hk.2
    | lost =>
      refine ⟨hlock.2 hk.1, ?_⟩
      rw [(hheld hk.1).1]
      exact hk.2
  | returned outcome =>
    cases outcome with
    | won =>
      obtain ⟨hclosed, hlanded⟩ := hi.frozen (.inr hk.2.1)
      refine ⟨fun h => hk.1 (hlock.1 h), ?_⟩
      rw [hclosed, hlanded]
      exact hk.2
    | lost | raised => exact fun h => hk (hlock.1 h)

end Steps

end MlxTrainPerf.Bench
