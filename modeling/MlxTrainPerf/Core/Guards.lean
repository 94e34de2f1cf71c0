import MlxTrainPerf.Lib.Double
/-!
# The memory ceiling

`core/guards.py`: the static ceiling of a machine, and the one that is installed at start.
Up to 32 GiB the ceiling is floored at half the machine, above it is not; so a headroom of
more than 16 GiB, half the anchor, takes a larger machine below its half and below what a
smaller one gets (`memory_ceiling_sound_iff`).
-/
open PyJson

namespace MlxTrainPerf.Guards

/-- `MemoryBudgetError`, with its text, and Python's own `OverflowError`. -/
inductive GuardError
  | memoryBudget (msg : String)
  | overflow
deriving DecidableEq, Repr

/-- `_GIB`. -/
def gib : ℤ := 1024 ^ 3

/-- `_CEILING_ANCHOR_BYTES`. -/
def ceilingAnchorBytes : ℤ := 32 * gib

/-- `_CEILING_EXCESS_SHARE`: the double `0.95`. -/
def ceilingExcessShare : ℚ := 4278419646001971 / 2 ^ 52

example : roundDouble (95 / 100) = .finite ceilingExcessShare := by decide +kernel

/-- `_DYNAMIC_HEADROOM_BYTES`. -/
def dynamicHeadroomBytes : ℤ := 2 * gib

/-- `_REFUSAL_FLOOR_DIVISOR`. -/
def refusalFloorDivisor : ℤ := 4

/-- `_DIVERGENCE_WARN_FRACTION`. -/
def divergenceWarnFraction : ℚ := 3 / 4

/-! ## `memory_ceiling_bytes` -/

/-- `share * float(n)`, where `float(n)` does not overflow. -/
def timesFloat (share : ℚ) : PyFloat → Except GuardError PyFloat
  | .finite f => .ok (roundDouble (share * f))
  | _ => .error .overflow

/-- `share * n`: the int becomes a float first. -/
def timesInt (share : ℚ) (n : ℤ) : Except GuardError PyFloat := timesFloat share (roundDouble n)

/-- `int(x)`; no NaN gets here. -/
def intOfFloat : PyFloat → Except GuardError ℤ
  | .finite q => .ok (Rounding.trunc q)
  | _ => .error .overflow

def memoryCeilingBytes (memorySize headroomGb : ℤ) : Except GuardError ℤ :=
  let belowAnchor := max (memorySize - headroomGb * gib) (memorySize / 2)
  if memorySize ≤ ceilingAnchorBytes then .ok belowAnchor
  else do
    let anchorCeiling := ceilingAnchorBytes - headroomGb * gib
    let share ← intOfFloat (← timesInt ceilingExcessShare (memorySize - ceilingAnchorBytes))
    return anchorCeiling + share

/-! ## `effective_memory_ceiling` -/

def memoryDivergenceWarning (availableBytes expectedFreeBytes effectiveBytes : ℤ) (warnFraction : ℚ) :
    Except GuardError (Option String) := do
  let expected ← timesInt warnFraction expectedFreeBytes
  if numLe expected.num (some (.finite availableBytes)) then return none
  else
    return some (s!"measured available memory {availableBytes} B is far below the " ++
      s!"{expectedFreeBytes} B expected free for this machine class " ++
      "(other heavy processes resident?); proceeding under an effective memory " ++
      s!"ceiling of {effectiveBytes} B")

structure EffectiveCeiling where
  ceilingBytes : ℤ
  warning : Option String
deriving DecidableEq, Repr

/-- The ceiling to install, and what is said of it; `available` is the reader's answer. -/
def ceilingFor (static : ℤ) (dynamicHeadroom : ℤ) (warnFraction : ℚ) : Option ℤ → Except GuardError EffectiveCeiling
  | none => .ok ⟨static, some ("memory availability could not be measured (vm_stat unavailable); proceeding " ++
      s!"under the static memory ceiling {static} B with no dynamic availability check")⟩
  | some available => do
    let effective := min static (available - dynamicHeadroom)
    return ⟨effective, ← memoryDivergenceWarning available static effective warnFraction⟩

def effectiveMemoryCeiling (memorySize headroomGb dynamicHeadroom : ℤ) (warnFraction : ℚ) (available : Option ℤ) :
    Except GuardError EffectiveCeiling := do
  let static ← memoryCeilingBytes memorySize headroomGb
  let ceiling ← ceilingFor static dynamicHeadroom warnFraction available
  let floor := memorySize / refusalFloorDivisor
  let measured := available.elim "unavailable" toString
  if ceiling.ceilingBytes < floor then
    throw (.memoryBudget (s!"effective memory ceiling {ceiling.ceilingBytes} B is below the safe-start floor " ++
      s!"{floor} B (memory_size // {refusalFloorDivisor}); measured available " ++
      s!"{measured} B -- the machine is too crowded to start this run safely"))
  else return ceiling

/-! ## The share of the excess -/

section Share
variable {x x' : ℤ}

/-- `float(x)` does not overflow. -/
def FitsDouble (x : ℤ) : Prop := |nearest x| < 2 ^ 1024

/-- `int(_CEILING_EXCESS_SHARE * x)`. -/
def excessShare (x : ℤ) : ℤ := Rounding.trunc (double.mul ceilingExcessShare (double.ofInt x))

theorem ceilingExcessShare_pos : 0 < ceilingExcessShare := by
  norm_num [ceilingExcessShare]

theorem FitsDouble.of_le (hx : 0 ≤ x) (h : x ≤ x') (hfit : FitsDouble x') : FitsDouble x := by
  unfold FitsDouble at hfit ⊢
  have hnonneg := @Rounding.ofInt_nonneg double x hx
  have hmono := @Rounding.ofInt_mono double x x' h
  exact (abs_le_abs_of_nonneg hnonneg hmono).trans_lt hfit

theorem excessShare_mono (hx : 0 ≤ x) (h : x ≤ x') : excessShare x ≤ excessShare x' :=
  Rounding.trunc_mono (Rounding.mul_mono (Rounding.ofInt_nonneg hx) ceilingExcessShare_pos.le le_rfl (Rounding.ofInt_mono h))

/-- Two roundings keep the product between a half of `x` and `x`, and below the float of `x`. -/
theorem share_bounds (hx : 1 ≤ x) : (x : ℚ) / 2 ≤ double.mul ceilingExcessShare (double.ofInt x) ∧
    double.mul ceilingExcessShare (double.ofInt x) < x ∧
    double.mul ceilingExcessShare (double.ofInt x) < nearest x := by
  have hx' : (1 : ℚ) ≤ x := by exact_mod_cast hx
  have hproduct : double.mul ceilingExcessShare (double.ofInt x) = nearest (ceilingExcessShare * nearest x) := rfl
  have hfloat := @nearest_bounds x (by linarith)
  have hshare : 1 / 4 ≤ ceilingExcessShare * nearest x := by
    unfold ceilingExcessShare
    linarith
  have hprod := @nearest_bounds (ceilingExcessShare * nearest x) (by linarith)
  rw [hproduct]
  unfold ceilingExcessShare at hprod ⊢
  refine ⟨?_, ?_, ?_⟩
  · linarith
  · linarith
  · linarith

theorem excessShare_bounds (hx : 1 ≤ x) : x / 2 ≤ excessShare x ∧ excessShare x < x := by
  obtain ⟨hlo, hhi, -⟩ := share_bounds hx
  have hx' : (1 : ℚ) ≤ x := by exact_mod_cast hx
  have hhalf : ((x / 2 : ℤ) : ℚ) ≤ x / 2 := by
    rw [le_div_iff₀ two_pos]
    exact_mod_cast Int.ediv_mul_le x two_ne_zero
  unfold excessShare Rounding.trunc
  rw [if_pos (by linarith)]
  exact ⟨Int.le_floor.2 (hhalf.trans hlo), Int.floor_lt.2 hhi⟩

/-- The product overflows only with the float. -/
theorem timesInt_eq (hx : 1 ≤ x) (hfit : FitsDouble x) :
    timesInt ceilingExcessShare x = .ok (.finite (double.mul ceilingExcessShare (double.ofInt x))) := by
  obtain ⟨hlo, -, hhi⟩ := share_bounds hx
  have hx' : (1 : ℚ) ≤ x := by exact_mod_cast hx
  have hprod : |nearest (ceilingExcessShare * nearest x)| < 2 ^ 1024 := by
    have hpos : 0 ≤ nearest (ceilingExcessShare * nearest x) := le_trans (by linarith) hlo
    rw [abs_of_nonneg hpos]
    exact hhi.trans ((le_abs_self _).trans_lt hfit)
  have hround : roundDouble (ceilingExcessShare * nearest x) = .finite (nearest (ceilingExcessShare * nearest x)) :=
    (roundDouble_eq _).trans (if_pos hprod)
  have hfloat : roundDouble x = .finite (nearest x) := (roundDouble_eq _).trans (if_pos hfit)
  exact (congrArg (timesFloat ceilingExcessShare) hfloat).trans (congrArg Except.ok hround)

theorem timesInt_overflow (share : ℚ) (hfit : ¬FitsDouble x) : timesInt share x = .error .overflow := by
  have hfloat : roundDouble x = .inf (decide ((x : ℚ) < 0)) := (roundDouble_eq _).trans (if_neg hfit)
  exact congrArg (timesFloat share) hfloat

/-- Sizes that a machine word holds are far below the overflow. -/
theorem fitsDouble_of_lt (hx : 1 ≤ x) (h : x < 2 ^ 64) : FitsDouble x := by
  have hx' : (1 : ℚ) ≤ x := by exact_mod_cast hx
  have h' : (x : ℚ) < 2 ^ 64 := by exact_mod_cast h
  have hfloat := @nearest_bounds x (by linarith)
  have hlarge : (2 : ℚ) ^ 65 ≤ 2 ^ 1024 := pow_le_pow_right₀ (by norm_num) (by norm_num)
  refine lt_of_lt_of_le ?_ hlarge
  rw [abs_of_nonneg (nearest_nonneg (by linarith))]
  linarith

end Share

/-! ## Machines -/

section Machines
variable {headroomGb m m' M c c' : ℤ}

/-- At least half the machine, and not all of it. -/
def InsideMachine (headroomGb m : ℤ) : Prop := ∃ c, memoryCeilingBytes m headroomGb = .ok c ∧ m / 2 ≤ c ∧ c < m

/-- What the ceiling of machines of up to `M` bytes is for. -/
structure CeilingSound (headroomGb M : ℤ) : Prop where
  inside : ∀ m, 1 ≤ m → m ≤ M → InsideMachine headroomGb m
  mono : ∀ m m' c c', 1 ≤ m → m ≤ m' → m' ≤ M → memoryCeilingBytes m headroomGb = .ok c →
    memoryCeilingBytes m' headroomGb = .ok c' → c ≤ c'
  starts : ∀ m dynamicHeadroom warnFraction, 1 ≤ m → m ≤ M →
    ∃ ceiling, effectiveMemoryCeiling m headroomGb dynamicHeadroom warnFraction none = .ok ceiling

theorem ceiling_below (h : m ≤ ceilingAnchorBytes) :
    memoryCeilingBytes m headroomGb = .ok (max (m - headroomGb * gib) (m / 2)) := if_pos h

theorem ceiling_above (h : ceilingAnchorBytes < m) (hfit : FitsDouble (m - ceilingAnchorBytes)) :
    memoryCeilingBytes m headroomGb =
      .ok (ceilingAnchorBytes - headroomGb * gib + excessShare (m - ceilingAnchorBytes)) := by
  refine (if_neg (not_le.2 h)).trans ?_
  rw [timesInt_eq (Int.sub_pos.2 h) hfit]
  rfl

theorem ceiling_overflow (h : ceilingAnchorBytes < m) (hfit : ¬FitsDouble (m - ceilingAnchorBytes)) :
    memoryCeilingBytes m headroomGb = .error .overflow := by
  refine (if_neg (not_le.2 h)).trans ?_
  rw [timesInt_overflow _ hfit]
  rfl

/-- Above the anchor the headroom beyond 16 GiB has to come out of the excess. -/
theorem insideMachine_iff (hh : 1 ≤ headroomGb) (hm : 1 ≤ m) : InsideMachine headroomGb m ↔
    m ≤ ceilingAnchorBytes ∨ FitsDouble (m - ceilingAnchorBytes) ∧
      (headroomGb - 16) * gib ≤ excessShare (m - ceilingAnchorBytes) - (m - ceilingAnchorBytes) / 2 := by
  have hgib : gib = 1073741824 := by decide
  have hanchor : ceilingAnchorBytes = 32 * gib := rfl
  have hbeyond : (headroomGb - 16) * gib = headroomGb * gib - 16 * gib := sub_mul _ _ _
  have hheadroom : gib ≤ headroomGb * gib := le_mul_of_one_le_left (by decide) hh
  rcases le_or_gt m ceilingAnchorBytes with h | h
  · refine iff_of_true ⟨_, ceiling_below h, le_max_right _ _, ?_⟩ (.inl h)
    rw [max_lt_iff, hgib]
    omega
  · by_cases hfit : FitsDouble (m - ceilingAnchorBytes)
    · have hbounds := excessShare_bounds (Int.sub_pos.2 h)
      unfold InsideMachine
      rw [ceiling_above h hfit]
      constructor
      · rintro ⟨c, hc, hhalf, -⟩
        cases hc
        exact .inr ⟨hfit, by omega⟩
      · intro hroom
        obtain ⟨-, hroom⟩ := hroom.resolve_left (not_le.2 h)
        exact ⟨_, rfl, by omega, by omega⟩
    · refine iff_of_false ?_ ?_
      · rintro ⟨c, hc, -⟩
        rw [ceiling_overflow h hfit] at hc
        cases hc
      · rintro (hle | ⟨hfit', -⟩)
        · exact absurd h (not_lt.2 hle)
        · exact hfit hfit'

theorem fitsDouble_of_ok (h : ceilingAnchorBytes < m) (hc : memoryCeilingBytes m headroomGb = .ok c) :
    FitsDouble (m - ceilingAnchorBytes) := by
  by_contra hfit
  rw [ceiling_overflow h hfit] at hc
  cases hc

/-- A headroom of up to half the anchor keeps the order of the machines. -/
theorem ceiling_mono (hh : m' ≤ ceilingAnchorBytes ∨ headroomGb ≤ 16) (hle : m ≤ m') (hc : memoryCeilingBytes m headroomGb = .ok c)
    (hc' : memoryCeilingBytes m' headroomGb = .ok c') : c ≤ c' := by
  have hgib : gib = 1073741824 := by decide
  have hanchor : ceilingAnchorBytes = 32 * gib := rfl
  rcases le_or_gt m' ceilingAnchorBytes with h' | h'
  · rw [ceiling_below (hle.trans h')] at hc
    rw [ceiling_below h'] at hc'
    cases hc
    cases hc'
    exact max_le_max (sub_le_sub_right hle _) (Int.ediv_le_ediv two_pos hle)
  · rw [ceiling_above h' (fitsDouble_of_ok h' hc')] at hc'
    cases hc'
    rcases le_or_gt m ceilingAnchorBytes with h | h
    · -- Across the anchor: half of it is still left when the headroom is taken off.
      have hshare := (excessShare_bounds (Int.sub_pos.2 h')).1
      have hsixteen := hh.resolve_left (not_le.2 h')
      rw [ceiling_below h] at hc
      cases hc
      refine max_le ?_ ?_
      · omega
      · rw [hgib]
        omega
    · rw [ceiling_above h (fitsDouble_of_ok h hc)] at hc
      cases hc
      exact add_le_add_right (excessShare_mono (Int.sub_nonneg.2 h.le) (sub_le_sub_right hle _)) _

/-- Without a reading the static ceiling is installed, unless it is below a quarter. -/
theorem effectiveMemoryCeiling_none (dynamicHeadroom : ℤ) (warnFraction : ℚ)
    (hc : memoryCeilingBytes m headroomGb = .ok c) :
    (∃ ceiling, effectiveMemoryCeiling m headroomGb dynamicHeadroom warnFraction none = .ok ceiling) ↔ m / 4 ≤ c := by
  unfold effectiveMemoryCeiling
  rw [hc]
  dsimp only [bind, Except.bind, ceilingFor, refusalFloorDivisor]
  split
  · next hlow =>
    refine iff_of_false ?_ (not_le.2 hlow)
    rintro ⟨ceiling, hceiling⟩
    cases hceiling
  · next hhigh => exact iff_of_true ⟨_, rfl⟩ (not_lt.1 hhigh)

theorem InsideMachine.starts (hm : 1 ≤ m) (h : InsideMachine headroomGb m) (dynamicHeadroom : ℤ) (warnFraction : ℚ) :
    ∃ ceiling, effectiveMemoryCeiling m headroomGb dynamicHeadroom warnFraction none = .ok ceiling := by
  obtain ⟨c, hc, hhalf, -⟩ := h
  exact (effectiveMemoryCeiling_none dynamicHeadroom warnFraction hc).2 (by omega)

theorem ceilingSound_iff (hh : 1 ≤ headroomGb) : CeilingSound headroomGb M ↔
    M ≤ ceilingAnchorBytes ∨ headroomGb ≤ 16 ∧ FitsDouble (M - ceilingAnchorBytes) := by
  have hgib : gib = 1073741824 := by decide
  constructor
  · intro hsound
    rcases le_or_gt M ceilingAnchorBytes with h | h
    · exact .inl h
    · have hanchor : 0 < ceilingAnchorBytes := by decide
      have hfit := (insideMachine_iff hh (by omega)).1 (hsound.inside M (by omega) le_rfl)
      -- The first machine above the anchor has no excess to take the headroom from.
      have hfirst := (insideMachine_iff hh (by omega)).1 (hsound.inside (ceilingAnchorBytes + 1) (by omega) h)
      obtain ⟨-, hroom⟩ := hfirst.resolve_left (by omega)
      rw [add_sub_cancel_left] at hroom
      have hone := (excessShare_bounds (x := 1) le_rfl).2
      refine .inr ⟨?_, (hfit.resolve_left (not_le.2 h)).1⟩
      rw [hgib] at hroom
      omega
  · intro hcond
    have hinside : ∀ m, 1 ≤ m → m ≤ M → InsideMachine headroomGb m := by
      intro m hm hM
      rw [insideMachine_iff hh hm]
      rcases le_or_gt m ceilingAnchorBytes with h | h
      · exact .inl h
      · obtain ⟨hsixteen, hfit⟩ := hcond.resolve_left (by omega)
        have hshare := (excessShare_bounds (Int.sub_pos.2 h)).1
        refine .inr ⟨hfit.of_le (by omega) (by omega), ?_⟩
        rw [hgib]
        omega
    refine ⟨hinside, fun m m' c c' hm hle hM hc hc' => ?_, fun m dyn warn hm hM => (hinside m hm hM).starts hm dyn warn⟩
    exact ceiling_mono (hcond.imp hM.trans And.left) hle hc hc'

theorem starts_iff (hh : 1 ≤ headroomGb) (hm : 1 ≤ m) (dynamicHeadroom : ℤ) (warnFraction : ℚ) :
    (∃ ceiling, effectiveMemoryCeiling m headroomGb dynamicHeadroom warnFraction none = .ok ceiling) ↔
      m ≤ ceilingAnchorBytes ∨ FitsDouble (m - ceilingAnchorBytes) ∧
        (headroomGb - 24) * gib ≤ excessShare (m - ceilingAnchorBytes) - (m - ceilingAnchorBytes) / 4 := by
  have hgib : gib = 1073741824 := by decide
  have hanchor : ceilingAnchorBytes = 32 * gib := rfl
  have hbeyond : (headroomGb - 24) * gib = headroomGb * gib - 24 * gib := sub_mul _ _ _
  rcases le_or_gt m ceilingAnchorBytes with h | h
  · exact iff_of_true (((insideMachine_iff hh hm).2 (.inl h)).starts hm _ _) (.inl h)
  · by_cases hfit : FitsDouble (m - ceilingAnchorBytes)
    · rw [effectiveMemoryCeiling_none _ _ (ceiling_above h hfit), or_iff_right (not_le.2 h), and_iff_right hfit]
      omega
    · refine iff_of_false ?_ fun hcond => hfit (hcond.resolve_left (not_le.2 h)).1
      rintro ⟨ceiling, hceiling⟩
      rw [effectiveMemoryCeiling, ceiling_overflow h hfit] at hceiling
      cases hceiling

/-- The ceiling stays inside every machine, in order, and refuses none without a reading,
exactly for a headroom of up to half the anchor; and which machines a larger one leaves. -/
theorem memory_ceiling_sound_iff (headroomGb : ℤ) (hh : 1 ≤ headroomGb) :
    (∀ M, CeilingSound headroomGb M ↔
      M ≤ ceilingAnchorBytes ∨ headroomGb ≤ 16 ∧ FitsDouble (M - ceilingAnchorBytes)) ∧
    ∀ m, 1 ≤ m →
      (InsideMachine headroomGb m ↔ m ≤ ceilingAnchorBytes ∨ FitsDouble (m - ceilingAnchorBytes) ∧
        (headroomGb - 16) * gib ≤ excessShare (m - ceilingAnchorBytes) - (m - ceilingAnchorBytes) / 2) ∧
      ∀ dynamicHeadroom warnFraction,
        (∃ ceiling, effectiveMemoryCeiling m headroomGb dynamicHeadroom warnFraction none = .ok ceiling) ↔
          m ≤ ceilingAnchorBytes ∨ FitsDouble (m - ceilingAnchorBytes) ∧
            (headroomGb - 24) * gib ≤ excessShare (m - ceilingAnchorBytes) - (m - ceilingAnchorBytes) / 4 :=
  ⟨fun _ => ceilingSound_iff hh, fun _ hm => ⟨insideMachine_iff hh hm, starts_iff hh hm⟩⟩

/-- The default headroom, on machines of up to a terabyte. -/
theorem memory_ceiling_sound_iff_default : CeilingSound 4 (1024 * gib) :=
  ((memory_ceiling_sound_iff 4 (by decide)).1 _).2 (.inr ⟨by decide, fitsDouble_of_lt (by decide) (by decide)⟩)

/-- With 28 GiB of headroom a machine of 36 GiB gets less than one of 32, less than its
half, and less than the quarter it takes to start. -/
theorem ceiling_not_sound : memoryCeilingBytes (32 * gib) 28 = .ok (16 * gib) ∧
    memoryCeilingBytes (36 * gib) 28 = .ok 8375186227 ∧ ¬InsideMachine 28 (36 * gib) ∧
    ¬∃ ceiling, effectiveMemoryCeiling (36 * gib) 28 dynamicHeadroomBytes divergenceWarnFraction none = .ok ceiling := by
  have hc : memoryCeilingBytes (36 * gib) 28 = .ok 8375186227 := by decide +kernel
  refine ⟨by decide, hc, ?_, ?_⟩
  · rintro ⟨c, hc', hhalf, -⟩
    cases hc.symm.trans hc'
    exact absurd hhalf (by decide)
  · rw [effectiveMemoryCeiling_none _ _ hc]
    decide

end Machines

end MlxTrainPerf.Guards
