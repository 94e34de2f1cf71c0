import Mathlib.Tactic.Ring
import Mathlib.Tactic.Set
import Mathlib.Tactic.SplitIfs
/-!
# The context-length sweep

`find_max_context` doubles a context length while the probe says it fits, and then
bisects between the last length that fits and the first that fails. Every midpoint is
rounded down to the granularity, so the bracket closes to the granularity unless its
upper end stays where the doubling left it: off the grid.
-/

namespace MlxTrainPerf.Bench.ContextSweep

/-- What the search returns, and every length it probed on the way. -/
structure Search where
  low : ℕ
  high : Option ℕ
  probed : List ℕ
  deriving DecidableEq, Repr

section Model
variable (probe : ℕ → Bool) (start granularity : ℕ) (ceiling : ℤ)

/-- `while high <= ceiling and probe(high)`, within `fuel` turns. -/
def doubling : ℕ → ℕ → ℕ → List ℕ → Option (ℕ × ℕ × List ℕ)
  | 0, _, _, _ => none
  | fuel + 1, low, high, probed =>
    if (high : ℤ) ≤ ceiling then
      if probe high then doubling fuel high (high * 2) (probed ++ [high]) else some (low, high, probed ++ [high])
    else some (low, high, probed)

/-- The midpoint, rounded down to the granularity. -/
def midpoint (low high : ℕ) : ℕ :=
  let mid := low + (high - low) / 2
  mid - mid % granularity

/-- `while high - low > granularity`, within `fuel` turns. -/
def bisecting : ℕ → ℕ → ℕ → List ℕ → Option (ℕ × ℕ × List ℕ)
  | 0, _, _, _ => none
  | fuel + 1, low, high, probed =>
    if granularity < high - low then
      let mid := midpoint granularity low high
      if mid ≤ low then some (low, high, probed)
      else if probe mid then bisecting fuel mid high (probed ++ [mid])
      else bisecting fuel low mid (probed ++ [mid])
    else some (low, high, probed)

/-- `find_max_context`, each loop within `fuel` turns. -/
def findMaxContext (fuel : ℕ) : Option Search :=
  if probe start then
    (doubling probe ceiling fuel start (start * 2) [start]).bind fun (low, high, probed) =>
      if ceiling < high then some ⟨low, none, probed⟩
      else (bisecting probe granularity fuel low high probed).map fun (low, high, probed) => ⟨low, some high, probed⟩
  else some ⟨0, some start, [start]⟩

/-- The search ends with this answer. -/
def Returns (r : Search) : Prop := ∃ fuel, findMaxContext probe start granularity ceiling fuel = some r

/-- What the sweep relies on: the answer brackets the limit to the granularity. -/
structure Brackets (r : Search) : Prop where
  probed_ge : ∀ n ∈ r.probed, start ≤ n
  start_fails : probe start = false → r.low = 0 ∧ r.high = some start
  open_end : probe start = true → r.high = none → r.low ∈ r.probed ∧ probe r.low = true ∧ ceiling < 2 * r.low
  ends : probe start = true → ∀ high, r.high = some high →
    (r.low ∈ r.probed ∧ probe r.low = true) ∧ (high ∈ r.probed ∧ probe high = false) ∧ r.low < high
  width : probe start = true → ∀ high, r.high = some high → high - r.low ≤ granularity
  maximum : (∀ m n, m ≤ n → probe n = true → probe m = true) → ∀ high, r.high = some high →
    ∀ m, probe m = true → (∀ n, probe n = true → n ≤ m) → r.low ≤ m ∧ m < high

/-- The `i`-th midpoint above `low` while every midpoint fits and the upper end stays at
`2 * low`: the distance to the last grid point halves, rounding up. -/
def climb (low i : ℕ) : ℕ :=
  let last := 2 * low / granularity
  let gap := last - (low + low / 2) / granularity
  granularity * (last - (gap + 2 ^ i - 1) / 2 ^ i)

/-- The bracket `[low, 2 * low]` closes to the granularity: it is narrow already, its
upper end is on the grid, the first midpoint is the last grid point below it, or the
climb meets a length that does not fit. -/
def Closes (low : ℕ) : Prop :=
  low ≤ granularity ∨ granularity ∣ 2 * low ∨ (low + low / 2) / granularity = 2 * low / granularity ∨
    ∃ i, low < climb granularity low i ∧ probe (climb granularity low i) = false

/-- Wherever the doubling can stop on a failing length, the bracket closes. -/
def AlwaysCloses : Prop :=
  ∀ k, (∀ j ≤ k, probe (start * 2 ^ j) = true) → ((start * 2 ^ (k + 1) : ℕ) : ℤ) ≤ ceiling →
    probe (start * 2 ^ (k + 1)) = false → Closes probe granularity (start * 2 ^ k)

end Model

variable {probe : ℕ → Bool} {start granularity fuel low high : ℕ} {ceiling : ℤ} {probed : List ℕ}

/-! ## The loops end -/

theorem doubling_succ {r : ℕ × ℕ × List ℕ} (h : doubling probe ceiling fuel low high probed = some r) :
    doubling probe ceiling (fuel + 1) low high probed = some r := by
  induction fuel generalizing low high probed with
  | zero => cases h
  | succ fuel ih =>
    rw [doubling] at h ⊢
    split_ifs at h ⊢ with hle hfits
    · exact ih h
    · exact h
    · exact h

theorem doubling_mono {fuel' : ℕ} {r : ℕ × ℕ × List ℕ} (hle : fuel ≤ fuel')
    (h : doubling probe ceiling fuel low high probed = some r) : doubling probe ceiling fuel' low high probed = some r := by
  induction hle with
  | refl => exact h
  | step _ ih => exact doubling_succ ih

theorem bisecting_succ {r : ℕ × ℕ × List ℕ} (h : bisecting probe granularity fuel low high probed = some r) :
    bisecting probe granularity (fuel + 1) low high probed = some r := by
  induction fuel generalizing low high probed with
  | zero => cases h
  | succ fuel ih =>
    rw [bisecting] at h ⊢
    dsimp only at h ⊢
    split_ifs at h ⊢ with hwide hmid hfits
    · exact h
    · exact ih h
    · exact ih h
    · exact h

theorem findMaxContext_succ {r : Search} (h : findMaxContext probe start granularity ceiling fuel = some r) :
    findMaxContext probe start granularity ceiling (fuel + 1) = some r := by
  rw [findMaxContext] at h ⊢
  split_ifs at h ⊢ with hstart
  · obtain ⟨⟨low, high, probed⟩, hd, h⟩ := Option.bind_eq_some_iff.1 h
    rw [doubling_succ hd, Option.bind_some]
    dsimp only at h ⊢
    split_ifs at h ⊢ with hopen
    · exact h
    · obtain ⟨s, hs, hr⟩ := Option.map_eq_some_iff.1 h
      rw [bisecting_succ hs, Option.map_some, hr]
  · exact h

theorem findMaxContext_mono {fuel' : ℕ} {r : Search} (hle : fuel ≤ fuel')
    (h : findMaxContext probe start granularity ceiling fuel = some r) :
    findMaxContext probe start granularity ceiling fuel' = some r := by
  induction hle with
  | refl => exact h
  | step _ ih => exact findMaxContext_succ ih

/-- More turns change nothing: the search has one answer. -/
theorem Returns.unique {r r' : Search} (h : Returns probe start granularity ceiling r)
    (h' : Returns probe start granularity ceiling r') : r = r' := by
  obtain ⟨fuel, h⟩ := h
  obtain ⟨fuel', h'⟩ := h'
  have h₁ := findMaxContext_mono (le_max_left fuel fuel') h
  have h₂ := findMaxContext_mono (le_max_right fuel fuel') h'
  exact Option.some.inj (h₁.symm.trans h₂)

/-- The lengths probed on the way from `probed` to `probed'` are no less than `low`. -/
def ProbesFrom (low : ℕ) (probed probed' : List ℕ) : Prop := ∀ n ∈ probed', n ∈ probed ∨ low ≤ n

theorem ProbesFrom.refl : ProbesFrom low probed probed := fun _ hn => .inl hn

theorem ProbesFrom.snoc {n : ℕ} (h : low ≤ n) : ProbesFrom low probed (probed ++ [n]) := by
  intro m hm
  rcases List.mem_append.1 hm with hm | hm
  · exact .inl hm
  · obtain rfl := List.mem_singleton.1 hm
    exact .inr h

theorem ProbesFrom.trans {low' : ℕ} {probed₁ probed₂ : List ℕ} (h : ProbesFrom low probed probed₁)
    (h' : ProbesFrom low' probed₁ probed₂) (hle : low ≤ low') : ProbesFrom low probed probed₂ := by
  intro n hn
  rcases h' n hn with hn | hn
  · exact h n hn
  · exact .inr (hle.trans hn)

/-- Where the doubling stops: the last length that fits, or the first past the ceiling. -/
theorem doubling_spec (hlow : 0 < low) (hfits : probe low = true) (hmem : low ∈ probed)
    (hfuel : ceiling < 2 * low + fuel) :
    ∃ k probed', doubling probe ceiling (fuel + 1) low (low * 2) probed =
        some (low * 2 ^ k, low * 2 ^ (k + 1), probed') ∧
      (∀ j ≤ k, probe (low * 2 ^ j) = true) ∧
      (ceiling < (low * 2 ^ (k + 1) : ℕ) ∨ probe (low * 2 ^ (k + 1)) = false ∧ low * 2 ^ (k + 1) ∈ probed') ∧
      low * 2 ^ k ∈ probed' ∧ ProbesFrom low probed probed' := by
  have hzero : ∀ j ≤ 0, probe (low * 2 ^ j) = true := by
    intro j hj
    obtain rfl : j = 0 := by omega
    simpa using hfits
  have hpast (hnot : ¬ ((low * 2 : ℕ) : ℤ) ≤ ceiling) : ceiling < (low * 2 ^ (0 + 1) : ℕ) := by
    rw [pow_one]
    omega
  induction fuel generalizing low probed with
  | zero =>
    have hnot : ¬ ((low * 2 : ℕ) : ℤ) ≤ ceiling := by push_cast; omega
    exact ⟨0, probed, by rw [doubling, if_neg hnot]; simp, hzero, .inl (hpast hnot), by simpa using hmem, .refl⟩
  | succ fuel ih =>
    rw [doubling]
    by_cases hle : ((low * 2 : ℕ) : ℤ) ≤ ceiling
    · rw [if_pos hle]
      have hnew : ProbesFrom low probed (probed ++ [low * 2]) := .snoc (by omega)
      cases hp : probe (low * 2) with
      | true =>
        obtain ⟨k, probed', hrun, hfit, hstop, hlast, hall⟩ := ih (show 0 < low * 2 by omega) hp
          (show low * 2 ∈ probed ++ [low * 2] by simp) (by push_cast at hfuel ⊢; omega) (by simpa using hp) (by simp)
        have hpow : ∀ j, low * 2 * 2 ^ j = low * 2 ^ (j + 1) := fun j => by rw [pow_succ]; ring
        simp only [hpow] at hrun hfit hstop hlast
        refine ⟨k + 1, probed', by rw [if_pos rfl]; exact hrun, ?_, hstop, hlast, hnew.trans hall (by omega)⟩
        rintro (_ | j) hj
        · simpa using hfits
        · exact hfit j (by omega)
      | false => exact ⟨0, _, by simp, hzero, .inr (by simpa using hp), by simp [hmem], hnew⟩
    · exact ⟨0, probed, by rw [if_neg hle]; simp, hzero, .inl (hpast hle), by simpa using hmem, .refl⟩

theorem midpoint_lt (h : low < high) : midpoint granularity low high < high := by
  have hle : midpoint granularity low high ≤ low + (high - low) / 2 := Nat.sub_le _ _
  omega

/-- Both ends of a bracket were probed, the lower fits and the upper does not. -/
structure Bracketed (probe : ℕ → Bool) (probed : List ℕ) (low high : ℕ) : Prop where
  lt : low < high
  fits : low ∈ probed ∧ probe low = true
  fails : high ∈ probed ∧ probe high = false

/-- A length between the ends replaces the end that it agrees with. -/
theorem Bracketed.raise {mid : ℕ} (h : Bracketed probe probed low high) (hlt : mid < high) (hp : probe mid = true) :
    Bracketed probe (probed ++ [mid]) mid high :=
  ⟨hlt, ⟨List.mem_append_right _ (.head _), hp⟩, ⟨List.mem_append_left _ h.fails.1, h.fails.2⟩⟩

theorem Bracketed.lower {mid : ℕ} (h : Bracketed probe probed low high) (hlt : low < mid) (hp : probe mid = false) :
    Bracketed probe (probed ++ [mid]) low mid :=
  ⟨hlt, ⟨List.mem_append_left _ h.fits.1, h.fits.2⟩, ⟨List.mem_append_right _ (.head _), hp⟩⟩

/-- The bisection ends, and keeps a bracket inside the one it was given. -/
theorem bisecting_spec (granularity : ℕ) (h : Bracketed probe probed low high) (hfuel : high - low ≤ fuel) :
    ∃ low' high' probed', bisecting probe granularity (fuel + 1) low high probed = some (low', high', probed') ∧
      Bracketed probe probed' low' high' ∧ low ≤ low' ∧ high' ≤ high ∧ ProbesFrom low probed probed' := by
  induction fuel generalizing low high probed with
  | zero =>
    have := h.lt
    omega
  | succ fuel ih =>
    rw [bisecting]
    dsimp only
    by_cases hwide : granularity < high - low
    · by_cases hmid : midpoint granularity low high ≤ low
      · exact ⟨low, high, probed, by simp [hwide, hmid], h, le_rfl, le_rfl, .refl⟩
      · have hlt : midpoint granularity low high < high := midpoint_lt h.lt
        have hgt : low < midpoint granularity low high := Nat.lt_of_not_le hmid
        have hnew : ProbesFrom low probed (probed ++ [midpoint granularity low high]) := .snoc hgt.le
        cases hp : probe (midpoint granularity low high) with
        | true =>
          obtain ⟨low', high', probed', hrun, hb, hl, hh, hall⟩ := ih (h.raise hlt hp) (by omega)
          exact ⟨low', high', probed', by simp [hwide, hmid, hrun], hb, by omega, hh, hnew.trans hall hgt.le⟩
        | false =>
          obtain ⟨low', high', probed', hrun, hb, hl, hh, hall⟩ := ih (h.lower hgt hp) (by omega)
          exact ⟨low', high', probed', by simp [hwide, hmid, hrun], hb, hl, by omega, hnew.trans hall le_rfl⟩
    · exact ⟨low, high, probed, by simp [hwide], h, le_rfl, le_rfl, .refl⟩

/-! ## How far the bracket closes -/

theorem midpoint_eq : midpoint granularity low high = granularity * ((low + (high - low) / 2) / granularity) := by
  have h := Nat.div_add_mod (low + (high - low) / 2) granularity
  rw [midpoint]
  omega

theorem dvd_midpoint : granularity ∣ midpoint granularity low high := ⟨_, midpoint_eq⟩

/-- Below an upper end on the grid there is room for a midpoint. -/
theorem lt_midpoint (hg : 0 < granularity) (hd : granularity ∣ high) (hwide : granularity < high - low) :
    low < midpoint granularity low high := by
  obtain ⟨p, rfl⟩ := hd
  have hlow := Nat.div_add_mod low granularity
  have hmod := Nat.mod_lt low hg
  set q := low / granularity
  have hp : q + 2 ≤ p := by
    by_contra hlt
    have hle : granularity * p ≤ granularity * (q + 1) := Nat.mul_le_mul_left _ (by omega)
    rw [Nat.mul_succ] at hle
    omega
  have hhigh : granularity * (q + 2) ≤ granularity * p := Nat.mul_le_mul_left _ hp
  have hnext : q + 1 ≤ (low + (granularity * p - low) / 2) / granularity := by
    rw [Nat.le_div_iff_mul_le hg, Nat.mul_comm]
    simp only [Nat.mul_add] at hhigh ⊢
    omega
  have hgrid := Nat.mul_le_mul_left granularity hnext
  rw [midpoint_eq]
  rw [Nat.mul_succ] at hgrid
  omega

/-- From an upper end on the grid the bracket closes. -/
theorem bisecting_width_of_dvd {low' high' : ℕ} {probed' : List ℕ} (hg : 0 < granularity) (hd : granularity ∣ high)
    (h : bisecting probe granularity fuel low high probed = some (low', high', probed')) :
    high' - low' ≤ granularity := by
  induction fuel generalizing low high probed with
  | zero => cases h
  | succ fuel ih =>
    rw [bisecting] at h
    dsimp only at h
    split_ifs at h with hwide hmid hfits
    · exact absurd (lt_midpoint hg hd hwide) (by omega)
    · exact ih hd h
    · exact ih dvd_midpoint h
    · obtain ⟨rfl, rfl, -⟩ : low = low' ∧ high = high' ∧ probed = probed' := by simpa using h
      omega

/-- Halving a distance rounding up, once and then `i` times. -/
theorem ceil_half (d i : ℕ) : (d - d / 2 + 2 ^ i - 1) / 2 ^ i = (d + 2 ^ (i + 1) - 1) / 2 ^ (i + 1) := by
  have hpos : 0 < 2 ^ i := Nat.two_pow_pos i
  rw [pow_succ, Nat.mul_comm (2 ^ i) 2, ← Nat.div_div_eq_div_mul]
  congr 1
  omega

theorem ceil_le {d i : ℕ} (hd : 1 ≤ d) : 1 ≤ (d + 2 ^ i - 1) / 2 ^ i ∧ (d + 2 ^ i - 1) / 2 ^ i ≤ d := by
  have hpos : 0 < 2 ^ i := Nat.two_pow_pos i
  constructor
  · rw [Nat.le_div_iff_mul_le hpos]
    omega
  · refine Nat.div_le_of_le_mul ?_
    calc d + 2 ^ i - 1 ≤ 2 ^ i * d + (2 ^ i * 1 + d - (2 ^ i + d)) := ?_
      _ = 2 ^ i * d := by omega
    obtain ⟨c, hc⟩ : ∃ c, 2 ^ i = c + 1 := ⟨2 ^ i - 1, by omega⟩
    obtain ⟨e, rfl⟩ : ∃ e, d = e + 1 := ⟨d - 1, by omega⟩
    rw [hc]
    ring_nf
    omega

/-- From a grid point `gap` cells below the last one, the midpoint is half the cells away. -/
theorem midpoint_grid {gap last off : ℕ} (hoff : off < granularity) (hlast : gap ≤ last) :
    granularity * last + off - granularity * (last - gap) = granularity * gap + off ∧
      midpoint granularity (granularity * (last - gap)) (granularity * last + off) = granularity * (last - (gap - gap / 2)) := by
  have hg : 0 < granularity := by omega
  have hwidth : granularity * last + off - granularity * (last - gap) = granularity * gap + off := by
    have : granularity * last = granularity * (last - gap) + granularity * gap := by
      rw [← Nat.mul_add, Nat.sub_add_cancel hlast]
    omega
  have hhalf : (granularity * gap + off) / 2 / granularity = gap / 2 := by
    rw [Nat.div_div_eq_div_mul, Nat.mul_comm 2, ← Nat.div_div_eq_div_mul, Nat.mul_add_div hg,
      Nat.div_eq_of_lt hoff, Nat.add_zero]
  refine ⟨hwidth, ?_⟩
  rw [midpoint_eq, hwidth, Nat.mul_add_div hg, hhalf]
  congr 1
  omega

/-- From a grid point `gap` cells below an upper end off the grid, the bracket closes
exactly when the climb meets a length that does not fit. -/
theorem bisecting_width_iff {gap last off low' high' : ℕ} {probed' : List ℕ} (hoff : 0 < off) (hoff' : off < granularity)
    (hgap : 1 ≤ gap) (hlast : gap ≤ last) (hfits : probe (granularity * (last - gap)) = true)
    (h : bisecting probe granularity fuel (granularity * (last - gap)) (granularity * last + off) probed =
      some (low', high', probed')) :
    high' - low' ≤ granularity ↔ ∃ i, probe (granularity * (last - (gap + 2 ^ i - 1) / 2 ^ i)) = false := by
  have hg : 0 < granularity := by omega
  induction fuel generalizing gap probed with
  | zero => cases h
  | succ fuel ih =>
    obtain ⟨hwidth, hmid⟩ := midpoint_grid hoff' hlast
    have hwide : granularity < granularity * gap + off := by
      have := Nat.mul_le_mul_left granularity hgap
      omega
    rw [bisecting, hwidth, if_pos hwide, hmid] at h
    dsimp only at h
    split_ifs at h with hle hp
    · -- one cell below the last grid point the midpoint is the lower end itself
      have hone : gap = 1 := by
        have := (Nat.mul_le_mul_left_iff hg).1 hle
        omega
      obtain ⟨rfl, rfl, -⟩ : _ = low' ∧ _ = high' ∧ _ = probed' := by simpa using h
      refine iff_of_false (by omega) ?_
      rintro ⟨i, hi⟩
      have hc := ceil_le (i := i) hgap
      rw [hone] at hi hfits hc
      rw [show (1 + 2 ^ i - 1) / 2 ^ i = 1 by omega, hfits] at hi
      cases hi
    · refine (ih (by omega) (by omega) hp h).trans ⟨?_, ?_⟩
      · rintro ⟨i, hi⟩
        exact ⟨i + 1, by rwa [← ceil_half]⟩
      · rintro ⟨i | i, hi⟩
        · simp [hfits] at hi
        · exact ⟨i, by rwa [ceil_half]⟩
    · have hw := bisecting_width_of_dvd hg (Dvd.intro _ rfl) h
      refine iff_of_true hw ⟨1, ?_⟩
      have hc := ceil_half gap 0
      simp only [pow_zero, Nat.div_one, Nat.add_sub_cancel, Nat.zero_add] at hc
      rw [← hc]
      simpa using hp

theorem bisecting_narrow {r : ℕ × ℕ × List ℕ} (hw : high - low ≤ granularity)
    (h : bisecting probe granularity fuel low high probed = some r) : r = (low, high, probed) := by
  cases fuel with
  | zero => cases h
  | succ fuel =>
    rw [bisecting, if_neg (by omega)] at h
    exact (Option.some.inj h).symm

/-- When the first midpoint falls to the lower end, so does the whole climb. -/
theorem climb_le {i : ℕ} (hg : 0 < granularity) (hwide : granularity < low) (hoff : ¬ granularity ∣ 2 * low)
    (hne : (low + low / 2) / granularity < 2 * low / granularity)
    (hmid : granularity * ((low + low / 2) / granularity) ≤ low) : climb granularity low i ≤ low := by
  have hg2 : 2 ≤ granularity := by
    by_contra hlt
    obtain rfl : granularity = 1 := by omega
    exact hoff (one_dvd _)
  have hfirst := Nat.div_add_mod (low + low / 2) granularity
  have hfirst' := Nat.mod_lt (low + low / 2) hg
  have hlast := Nat.div_mul_le_self (2 * low) granularity
  rw [climb]
  set first := (low + low / 2) / granularity
  set last := 2 * low / granularity
  have hf : first ≤ 1 := by
    by_contra hlt
    have := Nat.mul_le_mul_left granularity (show 2 ≤ first by omega)
    omega
  have hl : last ≤ 2 := by
    by_contra hlt
    have h3 := Nat.mul_le_mul_right granularity (show 3 ≤ last by omega)
    have h1 := Nat.mul_le_mul_left granularity hf
    omega
  have hc := (ceil_le (i := i) (show 1 ≤ last - first by omega)).1
  have := Nat.mul_le_mul_left granularity (show last - (last - first + 2 ^ i - 1) / 2 ^ i ≤ 1 by omega)
  omega

theorem midpoint_double : midpoint granularity low (2 * low) = granularity * ((low + low / 2) / granularity) := by
  rw [midpoint_eq, show 2 * low - low = low by omega]

/-- A first midpoint that is the last grid point leaves less than a cell above it. -/
theorem bisecting_width_of_last {low' high' : ℕ} {probed' : List ℕ} (hg : 0 < granularity) (hwide : granularity < low)
    (hlast : (low + low / 2) / granularity = 2 * low / granularity)
    (h : bisecting probe granularity fuel low (2 * low) probed = some (low', high', probed')) :
    high' - low' ≤ granularity := by
  have hhigh := Nat.div_add_mod (2 * low) granularity
  have hoff := Nat.mod_lt (2 * low) hg
  cases fuel with
  | zero => cases h
  | succ fuel =>
    rw [bisecting, if_pos (by omega), midpoint_double, hlast] at h
    dsimp only at h
    split_ifs at h with hstop hp
    · omega
    · obtain ⟨rfl, rfl, -⟩ : low' = _ ∧ high' = _ ∧ probed' = _ := by simpa using bisecting_narrow (by omega) h
      omega
    · exact bisecting_width_of_dvd hg (Dvd.intro _ rfl) h

/-- From a first midpoint below the last grid point, the climb decides. -/
theorem bisecting_width_iff_climb {low' high' : ℕ} {probed' : List ℕ} (hg : 0 < granularity) (hwide : granularity < low)
    (hd : ¬ granularity ∣ 2 * low) (hlt : (low + low / 2) / granularity < 2 * low / granularity)
    (h : bisecting probe granularity fuel low (2 * low) probed = some (low', high', probed')) :
    high' - low' ≤ granularity ↔ ∃ i, low < climb granularity low i ∧ probe (climb granularity low i) = false := by
  have hhigh := Nat.div_add_mod (2 * low) granularity
  have hoff : 0 < 2 * low % granularity := Nat.pos_of_ne_zero fun h0 => hd (Nat.dvd_of_mod_eq_zero h0)
  have hoff' := Nat.mod_lt (2 * low) hg
  have hbreak (hstop) (i : ℕ) := climb_le (i := i) hg hwide hd hlt hstop
  simp only [climb] at hbreak ⊢
  cases fuel with
  | zero => cases h
  | succ fuel =>
    rw [bisecting, if_pos (by omega), midpoint_double] at h
    dsimp only at h
    generalize (low + low / 2) / granularity = first at *
    generalize 2 * low / granularity = last at *
    obtain ⟨gap, rfl, hgap, hgap'⟩ : ∃ gap, first = last - gap ∧ 1 ≤ gap ∧ gap ≤ last :=
      ⟨last - first, by omega, by omega, by omega⟩
    rw [show last - (last - gap) = gap by omega] at hbreak ⊢
    split_ifs at h with hstop hp
    · obtain ⟨rfl, rfl, -⟩ : _ = low' ∧ _ = high' ∧ _ = probed' := by simpa using h
      refine iff_of_false (by omega) ?_
      rintro ⟨i, hi, -⟩
      exact absurd (hbreak hstop i) (by omega)
    · rw [← hhigh] at h
      rw [bisecting_width_iff hoff hoff' hgap hgap' hp h]
      refine exists_congr fun i => (and_iff_right ?_).symm
      have hc := Nat.mul_le_mul_left granularity (Nat.sub_le_sub_left (ceil_le (i := i) hgap).2 last)
      omega
    · refine iff_of_true (bisecting_width_of_dvd hg (Dvd.intro _ rfl) h) ⟨0, ?_⟩
      rw [pow_zero, Nat.div_one, Nat.add_sub_cancel]
      exact ⟨by omega, by simpa using hp⟩

/-- The bracket the doubling leaves closes to the granularity exactly as `Closes` says. -/
theorem bisecting_width_iff_closes {low' high' : ℕ} {probed' : List ℕ} (hg : 0 < granularity)
    (h : bisecting probe granularity fuel low (2 * low) probed = some (low', high', probed')) :
    high' - low' ≤ granularity ↔ Closes probe granularity low := by
  by_cases hnarrow : low ≤ granularity
  · obtain ⟨rfl, rfl, -⟩ : low' = _ ∧ high' = _ ∧ probed' = _ := by simpa using bisecting_narrow (by omega) h
    exact iff_of_true (by omega) (.inl hnarrow)
  have hwide : granularity < low := Nat.lt_of_not_le hnarrow
  by_cases hd : granularity ∣ 2 * low
  · exact iff_of_true (bisecting_width_of_dvd hg hd h) (.inr (.inl hd))
  by_cases hlast : (low + low / 2) / granularity = 2 * low / granularity
  · exact iff_of_true (bisecting_width_of_last hg hwide hlast h) (.inr (.inr (.inl hlast)))
  have hle : (low + low / 2) / granularity ≤ 2 * low / granularity := Nat.div_le_div_right (by omega)
  rw [bisecting_width_iff_climb hg hwide hd (lt_of_le_of_ne hle hlast) h, Closes, or_iff_right hnarrow, or_iff_right hd,
    or_iff_right hlast]

/-! ## The search -/

/-- The doubling stops in one place only. -/
theorem stop_unique {k k' : ℕ} (hfits : ∀ j ≤ k, probe (start * 2 ^ j) = true)
    (hstop : ceiling < (start * 2 ^ (k + 1) : ℕ) ∨ probe (start * 2 ^ (k + 1)) = false)
    (hfits' : ∀ j ≤ k', probe (start * 2 ^ j) = true) (hceil : ((start * 2 ^ (k' + 1) : ℕ) : ℤ) ≤ ceiling)
    (hfails : probe (start * 2 ^ (k' + 1)) = false) : k = k' := by
  rcases Nat.lt_trichotomy k k' with hlt | heq | hgt
  · have hfit := hfits' (k + 1) hlt
    have hle : start * 2 ^ (k + 1) ≤ start * 2 ^ (k' + 1) :=
      Nat.mul_le_mul_left _ (Nat.pow_le_pow_right two_pos (by omega))
    rcases hstop with h | h
    · omega
    · rw [hfit] at h
      cases h
  · exact heq
  · rw [hfits (k' + 1) hgt] at hfails
    cases hfails

/-- Only the length the doubling stops at can be bisected. -/
theorem alwaysCloses_iff_of_stop {k : ℕ} (hfits : ∀ j ≤ k, probe (start * 2 ^ j) = true)
    (hstop : ceiling < (start * 2 ^ (k + 1) : ℕ) ∨ probe (start * 2 ^ (k + 1)) = false) :
    AlwaysCloses probe start granularity ceiling ↔
      (((start * 2 ^ (k + 1) : ℕ) : ℤ) ≤ ceiling → Closes probe granularity (start * 2 ^ k)) := by
  constructor
  · intro h hceil
    rcases hstop with hopen | hfails
    · omega
    · exact h k hfits hceil hfails
  · intro h k' hfits' hceil hfails
    obtain rfl := stop_unique hfits hstop hfits' hceil hfails
    exact h hceil

/-- Of a downward-closed predicate, a length that fails is above the maximum. -/
theorem lt_of_fails (hdown : ∀ m n, m ≤ n → probe n = true → probe m = true) (hfails : probe high = false) {m : ℕ}
    (hm : probe m = true) : m < high := by
  refine Nat.lt_of_not_le fun hle => ?_
  rw [hdown high m hle hm] at hfails
  cases hfails

/-- A `start` that does not fit is the upper end, and nothing is bisected. -/
theorem brackets_of_start_fails (hp : probe start = false) :
    Brackets probe start granularity ceiling ⟨0, some start, [start]⟩ ∧ AlwaysCloses probe start granularity ceiling := by
  constructor
  · refine ⟨by simp, fun _ => ⟨rfl, rfl⟩, by simp [hp], by simp [hp], by simp [hp], ?_⟩
    rintro hdown _ ⟨⟩ m hm -
    exact ⟨Nat.zero_le _, lt_of_fails hdown hp hm⟩
  · intro k hk
    have hfit := hk 0 (Nat.zero_le k)
    rw [pow_zero, Nat.mul_one, hp] at hfit
    cases hfit

/-- Past the ceiling the upper end stays open. -/
theorem brackets_of_open (hp : probe start = true) (hge : ∀ n ∈ probed, start ≤ n) (hmem : low ∈ probed)
    (hfits : probe low = true) (hopen : ceiling < 2 * low) : Brackets probe start granularity ceiling ⟨low, none, probed⟩ where
  probed_ge := hge
  start_fails := by simp [hp]
  open_end _ _ := ⟨hmem, hfits, hopen⟩
  ends := by simp
  width := by simp
  maximum := by simp

/-- Of a bracket, the width is the only promise left. -/
theorem Bracketed.brackets_iff (h : Bracketed probe probed low high) (hp : probe start = true)
    (hge : ∀ n ∈ probed, start ≤ n) :
    Brackets probe start granularity ceiling ⟨low, some high, probed⟩ ↔ high - low ≤ granularity := by
  refine ⟨fun hb => hb.width hp high rfl, fun hw => ⟨hge, by simp [hp], by simp, ?_, ?_, ?_⟩⟩
  · rintro - _ ⟨⟩
    exact ⟨h.fits, h.fails, h.lt⟩
  · rintro - _ ⟨⟩
    exact hw
  · rintro hdown _ ⟨⟩ m hm hmax
    exact ⟨hmax low h.fits.2, lt_of_fails hdown h.fails.2 hm⟩

/-- Every run of the search ends, and its answer keeps every promise exactly when the
brackets it can bisect close to the granularity. -/
theorem exists_returns_brackets_iff (probe : ℕ → Bool) (ceiling : ℤ) (hstart : 1 ≤ start) (hg : 1 ≤ granularity) :
    ∃ r, Returns probe start granularity ceiling r ∧
      (Brackets probe start granularity ceiling r ↔ AlwaysCloses probe start granularity ceiling) := by
  cases hp : probe start with
  | false =>
    obtain ⟨hbrackets, hcloses⟩ := brackets_of_start_fails hp
    exact ⟨⟨0, some start, [start]⟩, ⟨0, by simp [findMaxContext, hp]⟩, iff_of_true hbrackets hcloses⟩
  | true =>
    obtain ⟨k, probed, hrun, hfits, hstop, hlast, hall⟩ := doubling_spec hstart hp (List.mem_singleton_self start)
      (show ceiling < 2 * start + ceiling.toNat by omega)
    have hpos : start ≤ start * 2 ^ k := Nat.le_mul_of_pos_right _ (Nat.two_pow_pos k)
    have hge : ∀ n ∈ probed, start ≤ n := fun n hn => (hall n hn).elim (fun h => (List.mem_singleton.1 h).ge) id
    have hdouble : start * 2 ^ (k + 1) = 2 * (start * 2 ^ k) := by rw [pow_succ]; ring
    rw [alwaysCloses_iff_of_stop hfits (hstop.imp_right And.left)]
    by_cases hopen : ceiling < (start * 2 ^ (k + 1) : ℕ)
    · refine ⟨⟨start * 2 ^ k, none, probed⟩, ⟨ceiling.toNat + 1, ?_⟩, iff_of_true ?_ fun hceil => absurd hceil (by omega)⟩
      · simp only [findMaxContext, hp, if_true, hrun, Option.bind_some, if_pos hopen]
      · rw [hdouble] at hopen
        exact brackets_of_open hp hge hlast (hfits k le_rfl) (by push_cast at hopen ⊢; exact hopen)
    · obtain ⟨hfails, hmem⟩ := hstop.resolve_left hopen
      have hbracket : Bracketed probe probed (start * 2 ^ k) (2 * (start * 2 ^ k)) := by
        rw [hdouble] at hfails hmem
        exact ⟨by omega, ⟨hlast, hfits k le_rfl⟩, ⟨hmem, hfails⟩⟩
      obtain ⟨low, high, probed', hbis, hends, hlow, -, hnew⟩ := bisecting_spec granularity hbracket
        (show 2 * (start * 2 ^ k) - start * 2 ^ k ≤ max ceiling.toNat (start * 2 ^ k) by omega)
      refine ⟨⟨low, some high, probed'⟩, ⟨max ceiling.toNat (start * 2 ^ k) + 1, ?_⟩, ?_⟩
      · rw [← hdouble] at hbis
        have hrun := doubling_mono (show ceiling.toNat + 1 ≤ max ceiling.toNat (start * 2 ^ k) + 1 by omega) hrun
        simp only [findMaxContext, hp, if_true, hrun, Option.bind_some, if_neg hopen, hbis, Option.map_some]
      · have hge' : ∀ n ∈ probed', start ≤ n := fun n hn => (hnew n hn).elim (hge n) hpos.trans
        rw [hends.brackets_iff hp hge', bisecting_width_iff_closes hg hbis]
        exact ⟨fun hc _ => hc, fun hc => hc (by omega)⟩

/-- The search brackets the limit to the granularity exactly when every bracket its
doubling can stop at closes: off the grid, some midpoint above it must fail. -/
theorem findMaxContext_brackets_iff (hstart : 1 ≤ start) (hg : 1 ≤ granularity) :
    (∃ r, Returns probe start granularity ceiling r ∧ Brackets probe start granularity ceiling r) ↔
      AlwaysCloses probe start granularity ceiling := by
  obtain ⟨r, hr, hiff⟩ := exists_returns_brackets_iff probe ceiling hstart hg
  constructor
  · rintro ⟨r', hr', hb⟩
    obtain rfl := hr.unique hr'
    exact hiff.1 hb
  · intro h
    exact ⟨r, hr, hiff.2 h⟩

theorem findMaxContext_brackets_iff_at_1024 :
    (∃ r, Returns (fun n => decide (n ≤ 5000)) 1024 256 131072 r ∧
        Brackets (fun n => decide (n ≤ 5000)) 1024 256 131072 r) ↔
      AlwaysCloses (fun n => decide (n ≤ 5000)) 1024 256 131072 :=
  findMaxContext_brackets_iff (by decide) (by decide)

/-- With a limit of 1600 tokens the search from 1000 stops at the bracket `(1536, 2000)`. -/
theorem findMaxContext_wide_at_1000 :
    ¬ ∃ r, Returns (fun n => decide (n ≤ 1600)) 1000 256 131072 r ∧
      Brackets (fun n => decide (n ≤ 1600)) 1000 256 131072 r := by
  rintro ⟨r, hr, hb⟩
  have hwide : Returns (fun n => decide (n ≤ 1600)) 1000 256 131072 ⟨1536, some 2000, [1000, 2000, 1280, 1536]⟩ :=
    ⟨4, by decide⟩
  obtain rfl := hwide.unique hr
  exact absurd (hb.width (by decide) 2000 rfl) (by decide)

end MlxTrainPerf.Bench.ContextSweep
