import MlxTrainPerf.Attention.Launch
import MlxTrainPerf.Lib.Double
import Mathlib.Data.Nat.Log
import Mathlib.Data.Rat.Floor
import Mathlib.Tactic.Linarith
import Mathlib.Tactic.Positivity
/-!
# The calibration ramp

`_calibrate_fwd` times probes of growing size, each sized by the rate the one before it
measured, and rates the machine by the last of them or by a canary over all `n` keys.
What a probe takes is any function of the probes launched so far. A rate of zero ends
the calibration with Python's `ZeroDivisionError`, here the missing rate. Every float
operation rounds to a double; numbers past the largest double are outside.
-/
open PyJson

namespace MlxTrainPerf.Launch

/-- `_CANARY_BUDGET_S`: the double `0.1`. -/
def canaryBudgetS : ℚ := 3602879701896397 / 2 ^ 55

example : roundDouble (1 / 10) = .finite canaryBudgetS := by decide +kernel

/-- `SAFETY_FACTOR`. -/
def safetyFactor : ℚ := 1 / 2

/-- `_PROBE_N_FLOOR`. -/
def probeNFloor : ℕ := 128

/-- `_PROBE_N_HARD_CAP`. -/
def probeNHardCap : ℕ := 8192

/-- The floor of a measured time: the double `1e-9`. -/
def nanosecond : ℚ := 4835703278458517 / 2 ^ 82

example : roundDouble (1 / 10 ^ 9) = .finite nanosecond := by decide +kernel

/-- What a probe takes. A finite float is below `2 ^ 1024`. -/
abbrev Seconds : Type := {s : ℚ // s < 2 ^ 1024}

/-- `_fwd_macs_per_row`. -/
def fwdMacsPerRow (d b hq n : ℕ) : ℕ := 2 * d * n * b * hq

/-- `_start_probe_n`. -/
def startProbeN (n : ℕ) : ℕ := min probeNFloor n

/-- `macs_per_row(n=np_) * np_ / rate`, the projected time of a self-shaped probe. -/
def probeSeconds (macsPerRow : ℕ → ℕ) (rate : ℚ) (np : ℕ) : ℚ := double.quot (double.ofInt (macsPerRow np * np : ℕ)) rate

/-- The halving loop of `_next_probe_n`; `none` where it divides by a zero rate. -/
def halveProbe (macsPerRow : ℕ → ℕ) (rate : ℚ) (np : ℕ) : Option ℕ :=
  if probeNFloor < np then
    if rate = 0 then none
    else if maxDispatchSeconds < probeSeconds macsPerRow rate np then halveProbe macsPerRow rate (np / 2)
    else some np
  else some np
termination_by np
decreasing_by
  have : 0 < np := by omega
  omega

/-- `_next_probe_n`. -/
def nextProbeN (macsPerRow : ℕ → ℕ) (rate : ℚ) (n : ℕ) : Option ℕ :=
  let cap := min n probeNHardCap
  if cap ≤ probeNFloor then some cap else halveProbe macsPerRow rate (max (1 <<< Nat.log2 cap) probeNFloor)

/-- `_sustain_reps`, with its target of 0.75 s and its cap of 8. -/
def sustainReps (perDispatchS : ℚ) : ℕ :=
  if perDispatchS ≤ 0 then 8 else min (max ⌈double.quot (3 / 4) perDispatchS⌉.toNat 1) 8

/-- `SAFETY_FACTOR * rate`. -/
def derated (rate : ℚ) : ℚ := double.mul safetyFactor rate

/-- `_CANARY_BUDGET_S * SAFETY_FACTOR * raw_ramp_rate / per_row`. -/
def canaryQuotient (rawRampRate : ℚ) (perRow : ℕ) : ℚ :=
  double.quot (double.mul (double.mul canaryBudgetS safetyFactor) rawRampRate) (double.ofInt perRow)

/-- `_canary_rows`; `none` where it divides by a zero cost. -/
def canaryRows (macsPerRow : ℕ → ℕ) (rawRampRate : ℚ) (n : ℕ) : Option ℕ :=
  let perRow := macsPerRow n
  if perRow = 0 then none
  else some (max 1 (min n (Rounding.trunc (canaryQuotient rawRampRate perRow)).toNat))

/-- The projected time of a canary of `rows` rows. -/
def canarySeconds (macsPerRow : ℕ → ℕ) (rate : ℚ) (n rows : ℕ) : ℚ :=
  double.quot (double.ofInt (macsPerRow n * rows : ℕ)) rate

/-- `statistics.median` of three timings. -/
def median (a b c : ℚ) : ℚ := max (min a b) (min (max a b) c)

/-- A stage the ramp grew from: its probe, the rate it measured, and the next probe. -/
structure Growth where
  size : ℕ
  rate : ℚ
  next : ℕ
deriving DecidableEq, Repr

/-- The ramp's state: its probe size, the last measured time, the growths so far and
every probe launched so far, as `(rows, keys)`. -/
structure Ramp where
  size : ℕ
  perDispatchS : ℚ
  growths : List Growth
  probes : List (ℕ × ℕ)

/-- What a calibration leaves: the ramp's sizes, every probe it launched, the canary
with the rate it was sized by, and the rate it returns. -/
structure Calibration where
  size : ℕ
  growths : List Growth
  probes : List (ℕ × ℕ)
  canary : Option (ℕ × ℚ)
  rate : Option ℚ

section Model
variable (clock : List (ℕ × ℕ) → Seconds) (macsPerRow : ℕ → ℕ) (n : ℕ) (causal : Bool)

/-- `_credit(rows, keys)`: the last `rows` query rows of a `keys`-key pass. -/
def credit (rows keys : ℕ) : ℕ := rangeMacs ⟨keys, macsPerRow 1, 1, causal⟩ (keys - rows) keys

/-- The credited work over the measured time, floored at a nanosecond. -/
def measuredRate (rows keys : ℕ) (s : ℚ) : ℚ := double.quot (double.ofInt (credit macsPerRow causal rows keys)) (max s nanosecond)

/-- The median of three timings of the probe `p`, launched after `before`. -/
def medianOf (before : List (ℕ × ℕ)) (p : ℕ × ℕ) : ℚ :=
  median (clock (before ++ [p])) (clock (before ++ [p, p])) (clock (before ++ [p, p, p]))

/-- `for _stage in range(max_stages)`; an error is a division by a zero rate. -/
def rampStages : ℕ → Ramp → Except Ramp Ramp
  | 0, r => .ok r
  | stages + 1, r =>
    let probes := r.probes ++ [(r.size, r.size)]
    let perDispatchS : ℚ := clock probes
    let rawRate := measuredRate macsPerRow causal r.size r.size perDispatchS
    match nextProbeN macsPerRow (derated rawRate) n with
    | none => .error { r with perDispatchS, probes }
    | some candidate =>
      if candidate ≤ r.size then .ok { r with perDispatchS, probes }
      else rampStages stages ⟨candidate, perDispatchS, r.growths ++ [⟨r.size, rawRate, candidate⟩], probes⟩

/-- `_calibrate_fwd`. -/
def calibrateFwd (startN maxStages : ℕ) : Calibration :=
  match rampStages clock macsPerRow n causal maxStages ⟨startN, 0, [], []⟩ with
  | .error r => ⟨r.size, r.growths, r.probes, none, none⟩
  | .ok r =>
    let self := (r.size, r.size)
    let sustained := r.probes ++ List.replicate (sustainReps r.perDispatchS) self
    let timed := sustained ++ [self, self, self]
    let rampRate := measuredRate macsPerRow causal r.size r.size (medianOf clock sustained self)
    if n ≤ r.size then ⟨r.size, r.growths, timed, none, some rampRate⟩
    else match canaryRows macsPerRow rampRate n with
      | none => ⟨r.size, r.growths, timed, none, none⟩
      | some rows =>
        ⟨r.size, r.growths, timed ++ [(rows, n), (rows, n), (rows, n)], some (rows, rampRate),
          some (measuredRate macsPerRow causal rows n (medianOf clock timed (rows, n)))⟩

/-- The ramp's own rate was measured: three timings of its last probe, after `before`. -/
def RampRated (size : ℕ) (probes : List (ℕ × ℕ)) (rampRate : ℚ) : Prop :=
  ∃ before, before ++ [(size, size), (size, size), (size, size)] <+: probes ∧
    rampRate = measuredRate macsPerRow causal size size (medianOf clock before (size, size))

/-- What the calibration of an `n`-key pass promises of its probes and of its rate, when the canary may be over its
budget by a part of `slack`. -/
structure RampSafe (slack : ℚ) (maxStages : ℕ) (c : Calibration) : Prop where
  bounded : ∀ p ∈ c.probes, 1 ≤ p.1 ∧ p.1 ≤ p.2 ∧ p.2 ≤ n
  -- The ramp's sizes, each the next of the one before it.
  sizes : startProbeN n :: c.growths.map (·.next) = c.growths.map (·.size) ++ [c.size]
  grows : ∀ g ∈ c.growths, g.size < g.next
  ends : c.growths.length ≤ maxStages
  measured : ∀ g ∈ c.growths, ∃ before, before ++ [(g.size, g.size)] <+: c.probes ∧
    g.rate = measuredRate macsPerRow causal g.size g.size (clock (before ++ [(g.size, g.size)]))
  projected : ∀ g ∈ c.growths, probeSeconds macsPerRow (derated g.rate) g.next ≤ maxDispatchSeconds
  -- Every probe is one of the ramp's, or the canary over all keys.
  shapes : ∀ p ∈ c.probes, p.1 = p.2 ∧ p.1 ∈ startProbeN n :: c.growths.map (·.next) ∨
    p.2 = n ∧ ∃ rampRate, c.canary = some (p.1, rampRate)
  canary : ∀ rows rampRate, c.canary = some (rows, rampRate) →
    RampRated clock macsPerRow causal c.size c.probes rampRate ∧
      (rows = 1 ∨ canarySeconds macsPerRow (derated rampRate) n rows ≤ canaryBudgetS * (1 + slack))
  rated : ∀ rate, c.rate = some rate → ∃ before rows,
    c.probes = before ++ [(rows, n), (rows, n), (rows, n)] ∧
      rate = measuredRate macsPerRow causal rows n (medianOf clock before (rows, n)) ∧
      (rows = n ∨ ∃ rampRate, c.canary = some (rows, rampRate))
  returns : 0 < macsPerRow 1 → 0 < macsPerRow n → c.rate.isSome

end Model

section Ramp
variable {clock : List (ℕ × ℕ) → Seconds} {macsPerRow : ℕ → ℕ} {n np : ℕ} {causal : Bool} {rate : ℚ}

/-! ## The next probe -/

theorem halveProbe_le {candidate : ℕ} (h : halveProbe macsPerRow rate np = some candidate) : candidate ≤ np := by
  fun_induction halveProbe macsPerRow rate np with
  | case1 => cases h
  | case2 np _ _ _ ih => exact (ih h).trans (Nat.div_le_self np 2)
  | case3 np => exact (Option.some.inj h).ge
  | case4 np => exact (Option.some.inj h).ge

/-- A probe past the floor was projected within the budget. -/
theorem halveProbe_within {candidate : ℕ} (h : halveProbe macsPerRow rate np = some candidate)
    (hfloor : probeNFloor < candidate) : probeSeconds macsPerRow rate candidate ≤ maxDispatchSeconds := by
  fun_induction halveProbe macsPerRow rate np with
  | case1 => cases h
  | case2 _ _ _ _ ih => exact ih h
  | case3 np _ _ hle =>
    obtain rfl := Option.some.inj h
    exact not_lt.1 hle
  | case4 np hnot =>
    obtain rfl := Option.some.inj h
    exact absurd hfloor hnot

theorem halveProbe_isSome (hrate : rate ≠ 0) : (halveProbe macsPerRow rate np).isSome := by
  fun_induction halveProbe macsPerRow rate np with
  | case1 _ _ h => exact absurd h hrate
  | case2 _ _ _ _ ih => exact ih
  | case3 => rfl
  | case4 => rfl

theorem nextProbeN_le {candidate : ℕ} (h : nextProbeN macsPerRow rate n = some candidate) : candidate ≤ n := by
  unfold nextProbeN at h
  dsimp only at h
  split_ifs at h with hcap
  · have := Option.some.inj h
    omega
  · have hle := halveProbe_le h
    have hpow : 1 <<< Nat.log2 (min n probeNHardCap) ≤ min n probeNHardCap := by
      rw [Nat.one_shiftLeft]
      exact Nat.log2_self_le (by omega)
    omega

/-- A probe larger than the ramp's first was projected within the budget. -/
theorem nextProbeN_within {candidate : ℕ} (h : nextProbeN macsPerRow rate n = some candidate)
    (hgrow : startProbeN n < candidate) : probeSeconds macsPerRow rate candidate ≤ maxDispatchSeconds := by
  unfold nextProbeN at h
  unfold startProbeN at hgrow
  dsimp only at h
  split_ifs at h with hcap
  · have := Option.some.inj h
    omega
  · refine halveProbe_within h ?_
    have : probeNFloor ≤ probeNHardCap := by decide
    omega

theorem nextProbeN_isSome (macsPerRow : ℕ → ℕ) (n : ℕ) (hrate : rate ≠ 0) : (nextProbeN macsPerRow rate n).isSome := by
  unfold nextProbeN
  dsimp only
  split_ifs
  · rfl
  · exact halveProbe_isSome hrate

/-- What rounding may add to the canary. -/
def canarySlack : ℚ := 1 / 2 ^ 50

theorem canaryShare : double.mul canaryBudgetS safetyFactor = canaryBudgetS / 2 := by decide +kernel

/-- More than one row is within the budget but for the rounding: of the cost of a row, twice of the quotient, and of the
projection, of its cost and of its rate. -/
theorem canarySeconds_le {rows : ℕ} (hrows : 2 ≤ rows) (hle : (rows : ℚ) ≤ canaryQuotient rate (macsPerRow n))
    (hmacs : 0 < macsPerRow n) :
    canarySeconds macsPerRow (derated rate) n rows ≤ canaryBudgetS * (1 + canarySlack) := by
  have htwo : (2 : ℚ) ≤ rows := by exact_mod_cast hrows
  have hperRow : (1 : ℚ) ≤ macsPerRow n := by exact_mod_cast hmacs
  obtain ⟨hcost, -⟩ := @nearest_bounds (macsPerRow n) (by linarith)
  set cost := nearest (macsPerRow n)
  set share := nearest (canaryBudgetS / 2 * rate) with hshare
  have hle : (rows : ℚ) ≤ nearest (share / cost) := by
    have hquotient : canaryQuotient rate (macsPerRow n) = nearest (share / cost) := by
      rw [canaryQuotient, canaryShare]
      rfl
    rwa [hquotient] at hle
  -- A quotient below one, or a share below a hundredth, would have left one row.
  have hbelow : ∀ q : ℚ, q < 1 → nearest q ≤ 1 + 1 / 2 ^ 53 := fun q hq =>
    (nearest_mono hq.le).trans (by linarith [(@nearest_bounds 1 (by norm_num)).2])
  have hquot : 1 ≤ share / cost := by
    by_contra hsmall
    linarith [hbelow _ (not_le.1 hsmall)]
  have hcostPos : 0 < cost := by linarith
  rw [le_div_iff₀ hcostPos, one_mul] at hquot
  have hbudget : 1 / 100 ≤ canaryBudgetS / 2 * rate := by
    by_contra hsmall
    have hround := nearest_mono (not_le.1 hsmall).le
    linarith [(@nearest_bounds (1 / 100) le_rfl).2]
  have hrate : 1 / 100 ≤ safetyFactor * rate := by
    unfold canaryBudgetS at hbudget
    unfold safetyFactor
    linarith
  have hquotient := (hle.trans (nearest_bounds (by rw [le_div_iff₀ hcostPos]; linarith)).2)
  have hwork : (rows : ℚ) * cost ≤ share * (1 + 1 / 2 ^ 53) := by
    rw [← le_div_iff₀ hcostPos]
    refine hquotient.trans (le_of_eq ?_)
    ring
  have hmoved : (macsPerRow n : ℚ) * rows * (1 - 1 / 2 ^ 53) ≤ rows * cost := by
    rw [mul_comm (rows : ℚ) cost, mul_right_comm]
    exact mul_le_mul_of_nonneg_right (by linarith) (by linarith)
  have hproduct : (2 : ℚ) ≤ macsPerRow n * rows := by nlinarith
  -- The projection, against the exact budget with every rounding against it.
  have hsecs : nearest ((macsPerRow n * rows : ℕ) : ℤ) / derated rate ≤ canaryBudgetS * (1 + 6 / 2 ^ 53) := by
    obtain ⟨hderated, -⟩ := nearest_bounds hrate
    have hderatedEq : derated rate = nearest (safetyFactor * rate) := rfl
    have hcount : (((macsPerRow n * rows : ℕ) : ℤ) : ℚ) = macsPerRow n * rows := by push_cast; rfl
    obtain ⟨-, hcounted⟩ := @nearest_bounds (macsPerRow n * rows) (by linarith)
    obtain ⟨-, hshared⟩ := nearest_bounds hbudget
    rw [hderatedEq, hcount, div_le_iff₀ (by linarith)]
    unfold canaryBudgetS safetyFactor at *
    linarith
  have hbound : 1 / 100 ≤ canaryBudgetS * (1 + 6 / 2 ^ 53) := by norm_num [canaryBudgetS]
  refine (nearest_mono hsecs).trans ((nearest_bounds hbound).2.trans ?_)
  norm_num [canaryBudgetS, canarySlack]

/-- The canary is of some row of the pass, and within its budget but for the rounding. -/
theorem canaryRows_spec {rows : ℕ} (h : canaryRows macsPerRow rate n = some rows) (hn : 1 ≤ n) :
    1 ≤ rows ∧ rows ≤ n ∧
      (rows = 1 ∨ canarySeconds macsPerRow (derated rate) n rows ≤ canaryBudgetS * (1 + canarySlack)) := by
  unfold canaryRows at h
  dsimp only at h
  split_ifs at h with hmacs
  have hrows := Option.some.inj h
  refine ⟨by omega, by omega, ?_⟩
  by_cases hone : rows = 1
  · exact .inl hone
  · right
    refine canarySeconds_le (by omega) ?_ (Nat.pos_of_ne_zero hmacs)
    have hle : (rows : ℤ) ≤ Rounding.trunc (canaryQuotient rate (macsPerRow n)) := by omega
    unfold Rounding.trunc at hle
    split_ifs at hle with hsign
    · exact_mod_cast Int.le_floor.1 hle
    · have hneg : ⌈canaryQuotient rate (macsPerRow n)⌉ ≤ 0 := Int.ceil_le.2 (by simpa using (not_le.1 hsign).le)
      omega

/-! ## Measured rates -/

theorem credit_pos (hmacs : 0 < macsPerRow 1) {rows keys : ℕ} (hrows : 1 ≤ rows) (hle : rows ≤ keys) :
    0 < credit macsPerRow causal rows keys := by
  unfold credit rangeMacs
  dsimp only
  split_ifs
  · refine Nat.mul_pos ?_ hmacs
    rw [causalPairs, Nat.div_pos_iff]
    refine ⟨two_pos, ?_⟩
    calc 2 ≤ 1 * 2 := le_rfl
      _ ≤ _ := Nat.mul_le_mul (by omega) (by omega)
  · exact Nat.mul_pos (Nat.mul_pos (by omega) (by omega)) hmacs

/-- No measured time is past the floats, so some rate is left of any credit. -/
theorem measuredRate_ge (hmacs : 0 < macsPerRow 1) {rows keys : ℕ} (hrows : 1 ≤ rows) (hle : rows ≤ keys) {s : ℚ}
    (hs : s < 2 ^ 1024) : 2 ^ (-1024 : ℤ) ≤ measuredRate macsPerRow causal rows keys s := by
  have hfloor : (0 : ℚ) < nanosecond := by norm_num [nanosecond]
  have hpos : (0 : ℚ) < max s nanosecond := lt_max_of_lt_right hfloor
  have htime : max s nanosecond ≤ 2 ^ (1024 : ℤ) := by
    have hsmall : nanosecond ≤ 2 ^ (1024 : ℤ) := by
      have hone : (1 : ℚ) ≤ 2 ^ (1024 : ℤ) := one_le_zpow₀ (by norm_num) (by norm_num)
      refine le_trans ?_ hone
      norm_num [nanosecond]
    exact max_le (by exact_mod_cast hs.le) hsmall
  have hcredit : (1 : ℚ) ≤ double.ofInt (credit macsPerRow causal rows keys) := by
    have hone : (2 : ℚ) ^ (0 : ℤ) ≤ ((credit macsPerRow causal rows keys : ℤ) : ℚ) := by
      rw [zpow_zero]
      exact_mod_cast credit_pos hmacs hrows hle
    have hround := zpow_le_nearest (by norm_num) hone
    rwa [zpow_zero] at hround
  refine zpow_le_nearest (by norm_num) ?_
  rw [le_div_iff₀ hpos, zpow_neg]
  calc ((2 : ℚ) ^ (1024 : ℤ))⁻¹ * max s nanosecond ≤ (2 ^ (1024 : ℤ))⁻¹ * 2 ^ (1024 : ℤ) := by gcongr
    _ = 1 := inv_mul_cancel₀ (by positivity)
    _ ≤ _ := hcredit

theorem medianOf_lt (before : List (ℕ × ℕ)) (p : ℕ × ℕ) : medianOf clock before p < 2 ^ 1024 := by
  have h₁ := (clock (before ++ [p])).2
  have h₃ := (clock (before ++ [p, p, p])).2
  exact max_lt (min_lt_of_left_lt h₁) (min_lt_of_right_lt h₃)

/-- Halved, it is still above the least double. -/
theorem derated_pos (h : 2 ^ (-1024 : ℤ) ≤ rate) : 0 < derated rate := by
  refine nearest_pos ?_
  have hstep : (2 : ℚ) ^ (-1074 : ℤ) ≤ 2 ^ (-1025 : ℤ) := zpow_le_zpow_right₀ (by norm_num) (by norm_num)
  have hsplit : (2 : ℚ) ^ (-1025 : ℤ) = 1 / 2 * 2 ^ (-1024 : ℤ) := by
    rw [show (-1025 : ℤ) = -1 + -1024 by norm_num, zpow_add₀ two_ne_zero]
    norm_num
  have hhalf : safetyFactor = 1 / 2 := rfl
  rw [hhalf]
  linarith

/-! ## The ramp -/

/-- What every stage keeps. -/
structure RampInv (clock : List (ℕ × ℕ) → Seconds) (macsPerRow : ℕ → ℕ) (n : ℕ) (causal : Bool) (r : Ramp) : Prop where
  size_pos : 1 ≤ r.size
  size_le : r.size ≤ n
  start_le : startProbeN n ≤ r.size
  bounded : ∀ p ∈ r.probes, 1 ≤ p.1 ∧ p.1 ≤ p.2 ∧ p.2 ≤ n
  sizes : startProbeN n :: r.growths.map (·.next) = r.growths.map (·.size) ++ [r.size]
  grows : ∀ g ∈ r.growths, g.size < g.next
  measured : ∀ g ∈ r.growths, ∃ before, before ++ [(g.size, g.size)] <+: r.probes ∧
    g.rate = measuredRate macsPerRow causal g.size g.size (clock (before ++ [(g.size, g.size)]))
  projected : ∀ g ∈ r.growths, probeSeconds macsPerRow (derated g.rate) g.next ≤ maxDispatchSeconds
  shapes : ∀ p ∈ r.probes, p.1 = p.2 ∧ p.1 ∈ startProbeN n :: r.growths.map (·.next)

section Stages
variable {r r' : Ramp} {stages k : ℕ}

theorem start_inv (hn : 1 ≤ n) : RampInv clock macsPerRow n causal ⟨startProbeN n, 0, [], []⟩ := by
  have hfloor : 1 ≤ probeNFloor := by decide
  refine ⟨?_, ?_, le_rfl, by simp, rfl, by simp, by simp, by simp, by simp⟩ <;>
  · dsimp only
    unfold startProbeN
    omega

/-- The ramp's own size is one of its sizes. -/
theorem RampInv.size_mem (h : RampInv clock macsPerRow n causal r) :
    r.size ∈ startProbeN n :: r.growths.map (·.next) := by
  rw [h.sizes]
  exact List.mem_append_right _ (List.mem_singleton_self _)

/-- Launching `k` more probes of the ramp's size, whatever they measure. -/
theorem RampInv.launch (h : RampInv clock macsPerRow n causal r) (s : ℚ) (k : ℕ) :
    RampInv clock macsPerRow n causal
      { r with perDispatchS := s, probes := r.probes ++ List.replicate k (r.size, r.size) } := by
  refine { h with bounded := ?_, measured := ?_, shapes := ?_ }
  · intro p hp
    rcases List.mem_append.1 hp with hp | hp
    · exact h.bounded p hp
    · rw [List.eq_of_mem_replicate hp]
      exact ⟨h.size_pos, le_rfl, h.size_le⟩
  · intro g hg
    obtain ⟨before, hpre, hrate⟩ := h.measured g hg
    exact ⟨before, hpre.trans (List.prefix_append _ _), hrate⟩
  · intro p hp
    rcases List.mem_append.1 hp with hp | hp
    · exact h.shapes p hp
    · rw [List.eq_of_mem_replicate hp]
      exact ⟨rfl, h.size_mem⟩

/-- A stage that grows the ramp: the next probe is larger, and was projected within the
budget at half the rate just measured. -/
theorem RampInv.grow (h : RampInv clock macsPerRow n causal r) {candidate : ℕ} {s : ℚ}
    (hs : s = clock (r.probes ++ [(r.size, r.size)]))
    (hnext : nextProbeN macsPerRow (derated (measuredRate macsPerRow causal r.size r.size s)) n = some candidate)
    (hgrow : r.size < candidate) :
    RampInv clock macsPerRow n causal ⟨candidate, s,
      r.growths ++ [⟨r.size, measuredRate macsPerRow causal r.size r.size s, candidate⟩],
      r.probes ++ [(r.size, r.size)]⟩ := by
  have hl := h.launch s 1
  have hstart := h.start_le
  refine ⟨by dsimp only; omega, nextProbeN_le hnext, by dsimp only; omega, hl.bounded, ?_, ?_, ?_, ?_, ?_⟩
  · simp only [List.map_append, List.map_cons, List.map_nil]
    rw [← List.cons_append, h.sizes]
  · intro g hg
    rcases List.mem_append.1 hg with hg | hg
    · exact h.grows g hg
    · rw [List.mem_singleton.1 hg]
      exact hgrow
  · intro g hg
    rcases List.mem_append.1 hg with hg | hg
    · exact hl.measured g hg
    · rw [List.mem_singleton.1 hg]
      exact ⟨r.probes, List.prefix_rfl, by rw [hs]⟩
  · intro g hg
    rcases List.mem_append.1 hg with hg | hg
    · exact h.projected g hg
    · rw [List.mem_singleton.1 hg]
      exact nextProbeN_within hnext (hstart.trans_lt hgrow)
  · intro p hp
    obtain ⟨heq, hmem⟩ := hl.shapes p hp
    refine ⟨heq, ?_⟩
    rw [List.map_append, ← List.cons_append]
    exact List.mem_append_left _ hmem

/-- The ramp keeps its invariant, ended or stopped by a zero rate, and grows at most
once a stage. -/
theorem rampStages_inv (h : RampInv clock macsPerRow n causal r)
    (hrun : rampStages clock macsPerRow n causal stages r = .ok r' ∨
      rampStages clock macsPerRow n causal stages r = .error r') :
    RampInv clock macsPerRow n causal r' ∧ r'.growths.length ≤ r.growths.length + stages := by
  induction stages generalizing r with
  | zero =>
    obtain rfl : r = r' := by simpa [rampStages] using hrun
    exact ⟨h, le_rfl⟩
  | succ stages ih =>
    rw [rampStages] at hrun
    have hlaunch := h.launch (clock (r.probes ++ [(r.size, r.size)])) 1
    cases hnext : nextProbeN macsPerRow (derated (measuredRate macsPerRow causal r.size r.size
        (clock (r.probes ++ [(r.size, r.size)])))) n with
    | none =>
      rw [hnext] at hrun
      obtain rfl := by simpa using hrun
      exact ⟨hlaunch, Nat.le_add_right _ _⟩
    | some candidate =>
      rw [hnext] at hrun
      dsimp only at hrun
      split_ifs at hrun with hle
      · obtain rfl := by simpa using hrun
        exact ⟨hlaunch, Nat.le_add_right _ _⟩
      · have hgrow := h.grow rfl hnext (by omega)
        obtain ⟨hinv, hlen⟩ := ih hgrow hrun
        refine ⟨hinv, hlen.trans ?_⟩
        simp only [List.length_append, List.length_singleton]
        omega

/-- With work to credit, no stage divides by zero. -/
theorem rampStages_ok (stages : ℕ) (hmacs : 0 < macsPerRow 1) (h : RampInv clock macsPerRow n causal r) :
    ∃ r', rampStages clock macsPerRow n causal stages r = .ok r' := by
  induction stages generalizing r with
  | zero => exact ⟨r, rfl⟩
  | succ stages ih =>
    rw [rampStages]
    have hrate : 2 ^ (-1024 : ℤ) ≤ measuredRate macsPerRow causal r.size r.size (clock (r.probes ++ [(r.size, r.size)])) :=
      measuredRate_ge hmacs h.size_pos le_rfl (clock _).2
    obtain ⟨candidate, hnext⟩ := Option.isSome_iff_exists.1 (nextProbeN_isSome macsPerRow n (derated_pos hrate).ne')
    rw [hnext]
    dsimp only
    split_ifs with hle
    · exact ⟨_, rfl⟩
    · exact ih (h.grow rfl hnext (by omega))

end Stages

/-! ## The calibration -/

section Calibration
variable {r : Ramp} {stages : ℕ}

/-- A ramp that launches no canary is safe; a rate it returns was measured over all the keys. -/
theorem RampInv.safe {rate : Option ℚ} (h : RampInv clock macsPerRow n causal r) (hlen : r.growths.length ≤ stages)
    (hrated : ∀ x, rate = some x → ∃ before, r.probes = before ++ [(n, n), (n, n), (n, n)] ∧
      x = measuredRate macsPerRow causal n n (medianOf clock before (n, n)))
    (hreturns : 0 < macsPerRow 1 → 0 < macsPerRow n → rate.isSome) :
    RampSafe clock macsPerRow n causal canarySlack stages ⟨r.size, r.growths, r.probes, none, rate⟩ := by
  refine ⟨h.bounded, h.sizes, h.grows, hlen, h.measured, h.projected, fun p hp => .inl (h.shapes p hp), by simp, ?_, hreturns⟩
  intro x hx
  obtain ⟨before, hprobes, hrate⟩ := hrated x hx
  exact ⟨before, n, hprobes, hrate, .inl rfl⟩

/-- So is one whose canary was sized by the ramp's own rate. -/
theorem RampInv.safe_canary {rows : ℕ} {rampRate : ℚ} (h : RampInv clock macsPerRow n causal r)
    (hlen : r.growths.length ≤ stages) (hn : 1 ≤ n)
    (hrated : RampRated clock macsPerRow causal r.size r.probes rampRate)
    (hrows : canaryRows macsPerRow rampRate n = some rows) :
    RampSafe clock macsPerRow n causal canarySlack stages ⟨r.size, r.growths, r.probes ++ [(rows, n), (rows, n), (rows, n)],
      some (rows, rampRate), some (measuredRate macsPerRow causal rows n (medianOf clock r.probes (rows, n)))⟩ := by
  obtain ⟨hpos, hle, hbudget⟩ := canaryRows_spec hrows hn
  have hcanary : ∀ p ∈ r.probes ++ [(rows, n), (rows, n), (rows, n)], p ∈ r.probes ∨ p = (rows, n) := by
    intro p hp
    rcases List.mem_append.1 hp with hp | hp
    · exact .inl hp
    · exact .inr (by simpa using hp)
  refine ⟨?_, h.sizes, h.grows, hlen, ?_, h.projected, ?_, ?_, ?_, by simp⟩
  · intro p hp
    rcases hcanary p hp with hp | rfl
    · exact h.bounded p hp
    · exact ⟨hpos, hle, le_rfl⟩
  · intro g hg
    obtain ⟨before, hpre, hrate⟩ := h.measured g hg
    exact ⟨before, hpre.trans (List.prefix_append _ _), hrate⟩
  · intro p hp
    rcases hcanary p hp with hp | rfl
    · exact .inl (h.shapes p hp)
    · exact .inr ⟨rfl, rampRate, rfl⟩
  · rintro rows' rampRate' hsome
    obtain ⟨rfl, rfl⟩ := Prod.mk.inj (Option.some.inj hsome)
    obtain ⟨before, hpre, hrate⟩ := hrated
    exact ⟨⟨before, hpre.trans (List.prefix_append _ _), hrate⟩, hbudget⟩
  · rintro rate hrate
    obtain rfl := Option.some.inj hrate
    exact ⟨r.probes, rows, rfl, rfl, .inr ⟨rampRate, rfl⟩⟩

end Calibration

/-- Every calibration is safe, for any cost of a row and any measured times. -/
theorem calibrateFwd_safe {stages : ℕ} (hn : 1 ≤ n) :
    RampSafe clock macsPerRow n causal canarySlack stages (calibrateFwd clock macsPerRow n causal (startProbeN n) stages) := by
  have hstart : RampInv clock macsPerRow n causal ⟨startProbeN n, 0, [], []⟩ := start_inv hn
  unfold calibrateFwd
  cases hrun : rampStages clock macsPerRow n causal stages ⟨startProbeN n, 0, [], []⟩ with
  | error r =>
    obtain ⟨h, hlen⟩ := rampStages_inv hstart (.inr hrun)
    refine h.safe (by simpa using hlen) nofun fun hmacs _ => ?_
    obtain ⟨r', hok⟩ := rampStages_ok stages hmacs hstart
    rw [hrun] at hok
    cases hok
  | ok r =>
    obtain ⟨h, hlen⟩ := rampStages_inv hstart (.inl hrun)
    have hlen : r.growths.length ≤ stages := by simpa using hlen
    dsimp only
    set sustained := r.probes ++ List.replicate (sustainReps r.perDispatchS) (r.size, r.size)
    have hself : sustained ++ [(r.size, r.size), (r.size, r.size), (r.size, r.size)] =
        r.probes ++ List.replicate (sustainReps r.perDispatchS + 3) (r.size, r.size) := by
      rw [List.replicate_add, ← List.append_assoc]
      rfl
    have htimed := h.launch 0 (sustainReps r.perDispatchS + 3)
    rw [← hself] at htimed
    split_ifs with hfull
    · -- the ramp reached all the keys: its own rate is returned
      have hsize : r.size = n := le_antisymm h.size_le hfull
      refine htimed.safe hlen (fun rate hrate => ⟨sustained, ?_, ?_⟩) fun _ _ => rfl
      · rw [hsize]
      · rw [← Option.some.inj hrate, hsize]
    · cases hrows : canaryRows macsPerRow
          (measuredRate macsPerRow causal r.size r.size (medianOf clock sustained (r.size, r.size))) n with
      | none =>
        refine htimed.safe hlen nofun fun _ hmacs => ?_
        unfold canaryRows at hrows
        dsimp only at hrows
        rw [if_neg hmacs.ne'] at hrows
        cases hrows
      | some rows =>
        exact htimed.safe_canary hlen hn ⟨sustained, List.prefix_rfl, rfl⟩ hrows

/-- The forward calibration, started at `_start_probe_n(n)`, is safe at every shape; its canary is over its budget by
no more than what the doubles round. -/
theorem calibrateFwd_fwd_safe {d b hq : ℕ} (hn : 1 ≤ n) :
    RampSafe clock (fwdMacsPerRow d b hq) n causal canarySlack 3
      (calibrateFwd clock (fwdMacsPerRow d b hq) n causal (startProbeN n) 3) :=
  calibrateFwd_safe hn

end Ramp

/-- Any time up to a second is a time of the floats. -/
theorem lt_of_le_one {s : ℚ} (h : s ≤ 1) : s < 2 ^ 1024 := h.trans_lt (one_lt_pow₀ (by norm_num) (by norm_num))

/-- The double `0.3225`, an ulp up. -/
def slowProbe : ℚ := 5809643519307941 / 2 ^ 54

theorem slowProbe_le_one : slowProbe ≤ 1 := by norm_num [slowProbe]

/-- Every probe takes a third of a second. -/
def slowClock (_probes : List (ℕ × ℕ)) : Seconds := ⟨slowProbe, lt_of_le_one slowProbe_le_one⟩

theorem calibrateFwd_fwd_safe_at_256 :
    RampSafe slowClock (fwdMacsPerRow 64 1 1) 256 true canarySlack 3
      (calibrateFwd slowClock (fwdMacsPerRow 64 1 1) 256 true (startProbeN 256) 3) :=
  calibrateFwd_fwd_safe (by decide)

/-- Twice the floor is projected over the budget, so the ramp stays at its first probe. -/
theorem rampStages_slow : rampStages slowClock (fwdMacsPerRow 64 1 1) 256 true 3 ⟨128, 0, [], []⟩ =
    .ok ⟨128, slowProbe, [], [(128, 128)]⟩ := by
  have hnext : nextProbeN (fwdMacsPerRow 64 1 1) (derated (measuredRate (fwdMacsPerRow 64 1 1) true 128 128 slowProbe)) 256 =
      some 128 := by
    have hover : maxDispatchSeconds < probeSeconds (fwdMacsPerRow 64 1 1)
        (derated (measuredRate (fwdMacsPerRow 64 1 1) true 128 128 slowProbe)) 256 := by decide +kernel
    have hrate : derated (measuredRate (fwdMacsPerRow 64 1 1) true 128 128 slowProbe) ≠ 0 := by decide +kernel
    show halveProbe _ _ 256 = _
    rw [halveProbe, if_pos (by decide), if_neg hrate, if_pos hover, halveProbe, if_neg (by decide)]
  rw [rampStages]
  dsimp only [List.nil_append, slowClock]
  rw [hnext]
  rfl

/-- The quotient of the canary's rows rounds up to 5, and 5 rows are an ulp over the budget. -/
theorem calibrateFwd_fwd_over_budget : ¬RampSafe slowClock (fwdMacsPerRow 64 1 1) 256 true 0 3
    (calibrateFwd slowClock (fwdMacsPerRow 64 1 1) 256 true (startProbeN 256) 3) := by
  intro h
  have hstart : startProbeN 256 = 128 := by decide
  have hcanary : (calibrateFwd slowClock (fwdMacsPerRow 64 1 1) 256 true (startProbeN 256) 3).canary =
      some (5, 7036874417766399 / 2 ^ 31) := by
    rw [hstart, calibrateFwd, rampStages_slow]
    decide +kernel
  have hover : canaryBudgetS * (1 + 0) < canarySeconds (fwdMacsPerRow 64 1 1) (derated (7036874417766399 / 2 ^ 31)) 256 5 := by
    decide +kernel
  rcases (h.canary 5 _ hcanary).2 with hone | hwithin
  · cases hone
  · exact absurd hwithin (not_le.2 hover)

end MlxTrainPerf.Launch
