import MlxTrainPerf.Core.Kernel.Launch
import MlxTrainPerf.Attention.Calibrate
/-!
# The calibration of the fused loss

`calibrate` times one dispatch a stage, on probe heads of growing size, each sized by the
rate the one before it measured; then it sustains the last one and takes the median of
three. What a probe takes is any function of the probes launched so far.
-/

namespace MlxTrainPerf.Core.Kernel

open Launch (median)

/-- `FLOOR_RATE`. -/
def floorRate : ℚ := 10 ^ 10

/-- `SAFETY_FACTOR`. -/
def safetyFactor : ℚ := 1 / 2

section Sizes
variable (n d : ℕ)

/-- `n * tile * d / rate`. -/
def tileSeconds (rate : ℚ) (tile : ℕ) : ℚ := (n * tile * d : ℕ) / rate

/-- `while tile > 32 and n * tile * d / rate > budget_s: tile //= 2`, where it does not divide by zero. -/
def halveTile (rate budget : ℚ) (tile : ℕ) : ℕ :=
  if 32 < tile ∧ budget < tileSeconds n d rate tile then halveTile rate budget (tile / 2) else tile
termination_by tile
decreasing_by omega

/-- `probe_tile_for`, at its floor rate and its half second. -/
def probeTileFor : ℕ := max (halveTile n d floorRate (1 / 2) 8192) 32

/-- The tile `next_probe_tile` starts from. -/
def tileCap (v : ℕ) : ℕ :=
  let cap := min 8192 v
  max (if 1 ≤ cap then 1 <<< Nat.log2 cap else 32) 32

/-- `next_probe_tile`; `none` where it divides by a zero rate. -/
def nextProbeTile (rate : ℚ) (v : ℕ) : Option ℕ :=
  if 32 < tileCap v ∧ rate = 0 then none else some (halveTile n d rate maxDispatchSeconds (tileCap v))

/-- `n * tile * d / max(seconds, 1e-9)`. -/
def tileRate (tile : ℕ) (s : ℚ) : ℚ := (n * tile * d : ℕ) / max s (1 / 10 ^ 9)

end Sizes

/-- `sustain_reps`, with its target of 0.75 s and its cap of 8. -/
def sustainReps (perDispatchS : ℚ) : ℕ := Launch.sustainReps perDispatchS

/-- A stage the ramp grew from: its tile, the rate it measured, and the next tile. -/
structure TileGrowth where
  tile : ℕ
  rate : ℚ
  next : ℕ
deriving DecidableEq, Repr

/-- The ramp's state: its tile, the last measured time, the growths so far and the tile of every probe. -/
structure TileRamp where
  tile : ℕ
  perDispatchS : ℚ
  growths : List TileGrowth
  probes : List ℕ

/-- What a calibration leaves: the ramp's tiles, the tile of every probe it launched, and the rate it returns. -/
structure TileCalibration where
  tile : ℕ
  growths : List TileGrowth
  probes : List ℕ
  rate : Option ℚ

section Model
variable (measure : List ℕ → ℚ) (n d v : ℕ)

/-- The median of three timings at `tile`, after the probes `before`. -/
def medianOf (before : List ℕ) (tile : ℕ) : ℚ :=
  median (measure (before ++ [tile])) (measure (before ++ [tile, tile])) (measure (before ++ [tile, tile, tile]))

/-- `for _stage in range(max_stages)`; an error is a division by a zero rate. -/
def rampStages : ℕ → TileRamp → Except TileRamp TileRamp
  | 0, r => .ok r
  | stages + 1, r =>
    let probes := r.probes ++ [r.tile]
    let perDispatchS := measure probes
    let rawRate := tileRate n d r.tile perDispatchS
    match nextProbeTile n d (safetyFactor * rawRate) v with
    | none => .error { r with perDispatchS, probes }
    | some candidate =>
      if candidate ≤ r.tile then .ok { r with perDispatchS, probes }
      else rampStages stages ⟨candidate, perDispatchS, r.growths ++ [⟨r.tile, rawRate, candidate⟩], probes⟩

/-- `calibrate`. -/
def calibrate (startTile maxStages : ℕ) : TileCalibration :=
  match rampStages measure n d v maxStages ⟨startTile, 0, [], []⟩ with
  | .error r => ⟨r.tile, r.growths, r.probes, none⟩
  | .ok r =>
    let sustained := r.probes ++ List.replicate (sustainReps r.perDispatchS) r.tile
    ⟨r.tile, r.growths, sustained ++ [r.tile, r.tile, r.tile], some (tileRate n d r.tile (medianOf measure sustained r.tile))⟩

/-- `start_tile`. -/
def startTile : ℕ := min (probeTileFor n d) v

/-- What the calibration of `n` rows and `v` columns promises of its probes and of its rate. -/
structure TileRampSafe (maxStages : ℕ) (c : TileCalibration) : Prop where
  bounded : ∀ tile ∈ c.probes, 1 ≤ tile ∧ tile ≤ max 32 (min 8192 v)
  few : c.probes.length ≤ maxStages + 11
  -- After the stages' own, all probes are of the tile the ramp ended on: what sustains it, and the timed three.
  sustained : ∃ staged reps, c.probes = staged ++ List.replicate reps c.tile ∧ staged.length ≤ maxStages ∧
    (c.rate.isSome → 4 ≤ reps)
  -- The ramp's tiles, each the next of the one before it.
  tiles : startTile n d v :: c.growths.map (·.next) = c.growths.map (·.tile) ++ [c.tile]
  grows : ∀ g ∈ c.growths, g.tile < g.next
  ends : c.growths.length ≤ maxStages
  shapes : ∀ tile ∈ c.probes, tile ∈ startTile n d v :: c.growths.map (·.next)
  starts : startTile n d v ≤ 32 ∨ tileSeconds n d floorRate (startTile n d v) ≤ 1 / 2
  measured : ∀ g ∈ c.growths, ∃ before, before ++ [g.tile] <+: c.probes ∧
    g.rate = tileRate n d g.tile (measure (before ++ [g.tile]))
  projected : ∀ g ∈ c.growths, g.next ≤ 32 ∨ tileSeconds n d (safetyFactor * g.rate) g.next ≤ maxDispatchSeconds
  rated : ∀ rate, c.rate = some rate → ∃ before, c.probes = before ++ [c.tile, c.tile, c.tile] ∧
    rate = tileRate n d c.tile (medianOf measure before c.tile)
  returns : 1 ≤ n → 1 ≤ d → c.rate.isSome

end Model

section Ramp
variable {measure : List ℕ → ℚ} {n d v tile : ℕ} {rate budget : ℚ}

/-! ## The next probe -/

theorem halveTile_le : halveTile n d rate budget tile ≤ tile := by
  fun_induction halveTile n d rate budget tile with
  | case1 tile _ ih => exact ih.trans (Nat.div_le_self tile 2)
  | case2 => exact le_rfl

/-- A tile past the floor was projected within the budget. -/
theorem halveTile_within (h : 32 < halveTile n d rate budget tile) :
    tileSeconds n d rate (halveTile n d rate budget tile) ≤ budget := by
  fun_induction halveTile n d rate budget tile with
  | case1 _ _ ih => exact ih h
  | case2 tile hstop =>
    by_contra hover
    exact hstop ⟨h, not_le.1 hover⟩

theorem startTile_pos (hv : 1 ≤ v) : 1 ≤ startTile n d v := by
  unfold startTile probeTileFor
  omega

/-- The first probe was projected within half a second at the floor rate. -/
theorem startTile_within : startTile n d v ≤ 32 ∨ tileSeconds n d floorRate (startTile n d v) ≤ 1 / 2 := by
  by_cases hfloor : startTile n d v ≤ 32
  · exact .inl hfloor
  · right
    have hstart : startTile n d v ≤ halveTile n d floorRate (1 / 2) 8192 := by
      unfold startTile probeTileFor at hfloor ⊢
      omega
    have hwithin := @halveTile_within n d 8192 floorRate (1 / 2) (by omega)
    refine le_trans ?_ hwithin
    unfold tileSeconds
    have hrate : 0 ≤ floorRate := by norm_num [floorRate]
    gcongr

theorem startTile_le : startTile n d v ≤ max 32 (min 8192 v) := by
  have := @halveTile_le n d 8192 floorRate (1 / 2)
  unfold startTile probeTileFor
  omega

theorem tileCap_le (v : ℕ) : tileCap v ≤ max 32 (min 8192 v) := by
  unfold tileCap
  dsimp only
  split_ifs with hcap
  · have hpow : 1 <<< Nat.log2 (min 8192 v) ≤ min 8192 v := by
      rw [Nat.one_shiftLeft]
      exact Nat.log2_self_le (by omega)
    omega
  · omega

theorem nextProbeTile_le {candidate : ℕ} (h : nextProbeTile n d rate v = some candidate) :
    candidate ≤ max 32 (min 8192 v) := by
  unfold nextProbeTile at h
  split_ifs at h
  obtain rfl := Option.some.inj h
  exact halveTile_le.trans (tileCap_le v)

/-- A next probe past the floor was projected within the budget. -/
theorem nextProbeTile_within {candidate : ℕ} (h : nextProbeTile n d rate v = some candidate) :
    candidate ≤ 32 ∨ tileSeconds n d rate candidate ≤ maxDispatchSeconds := by
  unfold nextProbeTile at h
  split_ifs at h
  obtain rfl := Option.some.inj h
  by_cases hfloor : halveTile n d rate maxDispatchSeconds (tileCap v) ≤ 32
  · exact .inl hfloor
  · exact .inr (halveTile_within (not_le.1 hfloor))

theorem nextProbeTile_isSome (hrate : rate ≠ 0) : (nextProbeTile n d rate v).isSome := by
  unfold nextProbeTile
  rw [if_neg fun h => hrate h.2]
  rfl

theorem tileRate_pos (hn : 1 ≤ n) (hd : 1 ≤ d) (htile : 1 ≤ tile) (s : ℚ) : 0 < tileRate n d tile s := by
  have hs : (0 : ℚ) < max s (1 / 10 ^ 9) := lt_max_of_lt_right (by norm_num)
  have hwork : 0 < n * tile * d := by positivity
  exact div_pos (by exact_mod_cast hwork) hs

theorem sustainReps_le (s : ℚ) : sustainReps s ≤ 8 := by
  unfold sustainReps Launch.sustainReps
  split_ifs
  · exact le_rfl
  · exact min_le_right _ _

theorem sustainReps_pos (s : ℚ) : 1 ≤ sustainReps s := by
  unfold sustainReps Launch.sustainReps
  split_ifs
  · decide
  · omega

/-! ## The ramp -/

/-- What every stage keeps. -/
structure TileRampInv (measure : List ℕ → ℚ) (n d v : ℕ) (r : TileRamp) : Prop where
  tile_pos : 1 ≤ r.tile
  tile_le : r.tile ≤ max 32 (min 8192 v)
  tiles : startTile n d v :: r.growths.map (·.next) = r.growths.map (·.tile) ++ [r.tile]
  grows : ∀ g ∈ r.growths, g.tile < g.next
  bounded : ∀ tile ∈ r.probes, 1 ≤ tile ∧ tile ≤ max 32 (min 8192 v)
  shapes : ∀ tile ∈ r.probes, tile ∈ startTile n d v :: r.growths.map (·.next)
  measured : ∀ g ∈ r.growths, ∃ before, before ++ [g.tile] <+: r.probes ∧
    g.rate = tileRate n d g.tile (measure (before ++ [g.tile]))
  projected : ∀ g ∈ r.growths, g.next ≤ 32 ∨ tileSeconds n d (safetyFactor * g.rate) g.next ≤ maxDispatchSeconds

section Stages
variable {r r' : TileRamp} {stages k : ℕ}

theorem start_inv (hv : 1 ≤ v) : TileRampInv measure n d v ⟨startTile n d v, 0, [], []⟩ := by
  refine ⟨startTile_pos hv, startTile_le, rfl, ?_, ?_, ?_, ?_, ?_⟩ <;>
  · intro x hx
    cases hx

/-- Launching `k` more probes of the ramp's tile, whatever they measure. -/
theorem TileRampInv.launch (h : TileRampInv measure n d v r) (s : ℚ) (k : ℕ) :
    TileRampInv measure n d v { r with perDispatchS := s, probes := r.probes ++ List.replicate k r.tile } := by
  have htile : r.tile ∈ startTile n d v :: r.growths.map (·.next) := by
    rw [h.tiles]
    exact List.mem_append_right _ (List.mem_singleton_self _)
  refine { h with bounded := ?_, shapes := ?_, measured := ?_ }
  · intro tile hmem
    rcases List.mem_append.1 hmem with hmem | hmem
    · exact h.bounded tile hmem
    · rw [List.eq_of_mem_replicate hmem]
      exact ⟨h.tile_pos, h.tile_le⟩
  · intro tile hmem
    rcases List.mem_append.1 hmem with hmem | hmem
    · exact h.shapes tile hmem
    · rwa [List.eq_of_mem_replicate hmem]
  · intro g hg
    obtain ⟨before, hpre, hrate⟩ := h.measured g hg
    exact ⟨before, hpre.trans (List.prefix_append _ _), hrate⟩

/-- A stage that grows the ramp. -/
theorem TileRampInv.grow (h : TileRampInv measure n d v r) {candidate : ℕ} {s : ℚ} (hs : s = measure (r.probes ++ [r.tile]))
    (hnext : nextProbeTile n d (safetyFactor * tileRate n d r.tile s) v = some candidate) (hgrow : r.tile < candidate) :
    TileRampInv measure n d v ⟨candidate, s, r.growths ++ [⟨r.tile, tileRate n d r.tile s, candidate⟩], r.probes ++ [r.tile]⟩ := by
  have hl := h.launch s 1
  refine ⟨Nat.one_le_of_lt hgrow, nextProbeTile_le hnext, ?_, ?_, hl.bounded, ?_, ?_, ?_⟩
  · simp only [List.map_append, List.map_cons, List.map_nil]
    rw [← List.cons_append, h.tiles]
  · intro g hg
    rcases List.mem_append.1 hg with hg | hg
    · exact h.grows g hg
    · rw [List.mem_singleton.1 hg]
      exact hgrow
  · intro tile hmem
    rw [List.map_append, ← List.cons_append]
    exact List.mem_append_left _ (hl.shapes tile hmem)
  · intro g hg
    rcases List.mem_append.1 hg with hg | hg
    · exact hl.measured g hg
    · rw [List.mem_singleton.1 hg]
      exact ⟨r.probes, List.prefix_rfl, by rw [hs]⟩
  · intro g hg
    rcases List.mem_append.1 hg with hg | hg
    · exact h.projected g hg
    · rw [List.mem_singleton.1 hg]
      exact nextProbeTile_within hnext

/-- The ramp keeps its invariant, ended or stopped by a zero rate; a stage launches one probe and grows at most once. -/
theorem rampStages_inv (h : TileRampInv measure n d v r)
    (hrun : rampStages measure n d v stages r = .ok r' ∨ rampStages measure n d v stages r = .error r') :
    TileRampInv measure n d v r' ∧ r'.growths.length ≤ r.growths.length + stages ∧
      r'.probes.length ≤ r.probes.length + stages := by
  -- A stage launches one probe; what it takes ends the ramp or grows it.
  induction stages generalizing r with
  | zero =>
    obtain rfl : r = r' := by simpa [rampStages] using hrun
    exact ⟨h, le_rfl, le_rfl⟩
  | succ stages ih =>
    rw [rampStages] at hrun
    have hlaunch := h.launch (measure (r.probes ++ [r.tile])) 1
    have hone : (r.probes ++ [r.tile]).length ≤ r.probes.length + (stages + 1) := by
      rw [List.length_append, List.length_singleton]
      omega
    cases hnext : nextProbeTile n d (safetyFactor * tileRate n d r.tile (measure (r.probes ++ [r.tile]))) v with
    | none =>
      rw [hnext] at hrun
      obtain rfl := by simpa using hrun
      exact ⟨hlaunch, Nat.le_add_right _ _, hone⟩
    | some candidate =>
      rw [hnext] at hrun
      dsimp only at hrun
      split_ifs at hrun with hle
      · obtain rfl := by simpa using hrun
        exact ⟨hlaunch, Nat.le_add_right _ _, hone⟩
      · have hgrow := h.grow rfl hnext (not_le.1 hle)
        obtain ⟨hinv, hgrowths, hprobes⟩ := ih hgrow hrun
        refine ⟨hinv, hgrowths.trans ?_, hprobes.trans ?_⟩ <;>
        · rw [List.length_append, List.length_singleton]
          omega

/-- With work to do, no stage divides by zero. -/
theorem rampStages_ok (stages : ℕ) (hn : 1 ≤ n) (hd : 1 ≤ d) (h : TileRampInv measure n d v r) :
    ∃ r', rampStages measure n d v stages r = .ok r' := by
  -- Where there is work each rate is positive, and the next tile's projection divides by it.
  induction stages generalizing r with
  | zero => exact ⟨r, rfl⟩
  | succ stages ih =>
    rw [rampStages]
    have hrate := tileRate_pos hn hd h.tile_pos (measure (r.probes ++ [r.tile]))
    have hhalf : 0 < safetyFactor := by norm_num [safetyFactor]
    obtain ⟨candidate, hnext⟩ := Option.isSome_iff_exists.1
      (@nextProbeTile_isSome n d v _ (mul_pos hhalf hrate).ne')
    rw [hnext]
    dsimp only
    split_ifs with hle
    · exact ⟨_, rfl⟩
    · exact ih (h.grow rfl hnext (not_le.1 hle))

end Stages

/-! ## The calibration -/

theorem TileRampInv.safe {r : TileRamp} {stages : ℕ} {rate : Option ℚ} (h : TileRampInv measure n d v r)
    (hlen : r.growths.length ≤ stages) (hfew : r.probes.length ≤ stages + 11)
    (hsustained : ∃ staged reps, r.probes = staged ++ List.replicate reps r.tile ∧ staged.length ≤ stages ∧
      (rate.isSome → 4 ≤ reps))
    (hrated : ∀ x, rate = some x → ∃ before, r.probes = before ++ [r.tile, r.tile, r.tile] ∧
      x = tileRate n d r.tile (medianOf measure before r.tile))
    (hreturns : 1 ≤ n → 1 ≤ d → rate.isSome) :
    TileRampSafe measure n d v stages ⟨r.tile, r.growths, r.probes, rate⟩ :=
  ⟨h.bounded, hfew, hsustained, h.tiles, h.grows, hlen, h.shapes, startTile_within, h.measured, h.projected, hrated, hreturns⟩

theorem ramp_safe {stages : ℕ} (hv : 1 ≤ v) :
    TileRampSafe measure n d v stages (calibrate measure n d v (startTile n d v) stages) := by
  have hstart : TileRampInv measure n d v ⟨startTile n d v, 0, [], []⟩ := start_inv hv
  unfold calibrate
  cases hrun : rampStages measure n d v stages ⟨startTile n d v, 0, [], []⟩ with
  | error r =>
    obtain ⟨h, hlen, hfew⟩ := rampStages_inv hstart (.inr hrun)
    have hstaged : r.probes.length ≤ stages := by simpa using hfew
    refine h.safe (by simpa using hlen) (by omega) ⟨r.probes, 0, (List.append_nil _).symm, hstaged, nofun⟩ nofun fun hn hd => ?_
    · obtain ⟨r', hok⟩ := rampStages_ok stages hn hd hstart
      rw [hrun] at hok
      cases hok
  | ok r =>
    obtain ⟨h, hlen, hfew⟩ := rampStages_inv hstart (.inl hrun)
    dsimp only
    set sustained := r.probes ++ List.replicate (sustainReps r.perDispatchS) r.tile
    have hself : sustained ++ [r.tile, r.tile, r.tile] = r.probes ++ List.replicate (sustainReps r.perDispatchS + 3) r.tile := by
      rw [List.replicate_add, ← List.append_assoc]
      rfl
    have htimed := h.launch 0 (sustainReps r.perDispatchS + 3)
    rw [← hself] at htimed
    have hstaged : r.probes.length ≤ stages := by simpa using hfew
    have hpos := sustainReps_pos r.perDispatchS
    refine htimed.safe (by simpa using hlen) ?_ ⟨r.probes, _, hself, hstaged, fun _ => by omega⟩ ?_ fun _ _ => rfl
    · have hreps := sustainReps_le r.perDispatchS
      dsimp only
      rw [hself, List.length_append, List.length_replicate]
      omega
    · rintro x hx
      exact ⟨sustained, rfl, (Option.some.inj hx).symm⟩

/-- Every calibration is safe, whatever its probes take: each is of a tile that was projected within its budget, at the
floor rate or at half the rate the stage before it measured, or is of at most 32 columns; there are at most 11 besides the
stages' own, all of the tile the ramp ended on, and the rate is the median of the last three. -/
theorem calibrate_safe (measure : List ℕ → ℚ) (n d v stages : ℕ) (hv : 1 ≤ v) :
    TileRampSafe measure n d v stages (calibrate measure n d v (startTile n d v) stages) := ramp_safe hv

/-- A probe takes a millisecond for every one launched so far. -/
theorem calibrate_safe_at_2048 : TileRampSafe (fun probes => probes.length / 1000) 2048 4096 151936 3
    (calibrate (fun probes => probes.length / 1000) 2048 4096 151936 (startTile 2048 4096 151936) 3) :=
  calibrate_safe _ _ _ _ 3 (by decide)

end Ramp

end MlxTrainPerf.Core.Kernel
