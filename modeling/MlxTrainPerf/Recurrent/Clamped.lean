import MlxTrainPerf.Recurrent.GatedDelta
/-!
# The clamp

`_gated_delta_chunk` takes the logarithm of each gate and lifts it to `1e-12` first, which
the sequential rule does not. At any gates at all, zero and negative ones too, the chunked
rule is the step recurrence on the lifted ones.
-/

namespace MlxTrainPerf.Recurrent

/-- The gates, read through `gate`. -/
def DeltaArgs.gated (gate : ℝ → ℝ) (x : DeltaArgs) : DeltaArgs := { x with g := fun b t h => gate (x.g b t h) }

/-- `mx.maximum(g, 1e-12)`. -/
noncomputable def clamp (g : ℝ) : ℝ := max g gateFloor

theorem clamp_clamp (g : ℝ) : clamp (clamp g) = clamp g := by
  unfold clamp
  rw [max_assoc, max_self]

theorem clamp_of_le {g : ℝ} (h : gateFloor ≤ g) : clamp g = g := max_eq_left h

/-! ## Steps that read the same -/

/-- Step `t` of two heads. -/
structure SameStep (x : DeltaArgs) (b hv : ℕ) (x' : DeltaArgs) (b' hv' t : ℕ) : Prop where
  keeps : x.keeps b t = x'.keeps b' t
  k : x.k b t (hv / x.repeatFactor) = x'.k b' t (hv' / x'.repeatFactor)
  v : x.v b t hv = x'.v b' t hv'
  g : x.keeps b t = true → x.g b t hv = x'.g b' t hv'
  beta : x.beta b t hv = x'.beta b' t hv'

/-- Two heads that start from one state and read the same steps are in one state behind them. -/
theorem seqState_congr {x x' : DeltaArgs} {b b' hv hv' m : ℕ} (hdk : x.Dk = x'.Dk)
    (hinit : x.initState b hv = x'.initState b' hv') (hsteps : ∀ t < m, SameStep x b hv x' b' hv' t) :
    x.seqState b hv m = x'.seqState b' hv' m := by
  induction m with
  | zero => exact hinit
  | succ m ih =>
    have hstep := hsteps m (Nat.lt_succ_self m)
    have hbefore := ih fun t ht => hsteps t (Nat.lt_succ_of_lt ht)
    unfold DeltaArgs.seqState
    rw [← hstep.keeps]
    split_ifs with hkeep
    · rw [hbefore, hdk, hstep.k, hstep.v, hstep.g hkeep, hstep.beta]
    · exact hbefore

/-! ## A chunk -/

/-- A chunk reads its gates through the clamp. -/
theorem gatedDeltaChunk_gates (x : Chunk) {g : ℕ → ℝ} (hg : ∀ s, clamp (g s) = clamp (x.g s)) :
    gatedDeltaChunk { x with g := g } = gatedDeltaChunk x := by
  have hlog : Chunk.gCumlog { x with g := g } = x.gCumlog := by
    funext t
    exact Finset.sum_congr rfl fun s _ => congrArg Real.log (hg s)
  unfold gatedDeltaChunk Chunk.y Chunk.newState Chunk.vNew Chunk.sol Chunk.matA Chunk.rhs Chunk.decayExp Chunk.lMask
    Chunk.decayToEnd Chunk.gLast Chunk.qkT Chunk.kkT
  rw [hlog]

section Call
variable {x : DeltaArgs} {C nc b hv : ℕ} {size : Option ℕ}

theorem chunk_gated (x : DeltaArgs) (ci : ℕ) (st : Mat) :
    gatedDeltaChunk ((x.gated clamp).chunk C b hv ci st) = gatedDeltaChunk (x.chunk C b hv ci st) := by
  refine gatedDeltaChunk_gates (x.chunk C b hv ci st) fun s => ?_
  change clamp (if ci * C + s < x.T then if x.keeps b (ci * C + s) then clamp (x.g b (ci * C + s) hv) else 1 else 1) =
    clamp (if ci * C + s < x.T then if x.keeps b (ci * C + s) then x.g b (ci * C + s) hv else 1 else 1)
  split_ifs
  · exact clamp_clamp _
  · rfl
  · rfl

theorem headRun_gated (x : DeltaArgs) (C nc b hv : ℕ) : (x.gated clamp).headRun C nc b hv = x.headRun C nc b hv := by
  unfold DeltaArgs.headRun
  refine congrArg (fun f => List.foldl f _ (List.range nc)) ?_
  funext r ci
  rw [chunk_gated]

theorem chunkedGatedDelta_gated (x : DeltaArgs) (size : Option ℕ) :
    chunkedGatedDelta (x.gated clamp) size = chunkedGatedDelta x size := by
  unfold chunkedGatedDelta
  simp only [headRun_gated]
  rfl

/-- What a call that is not refused was called with. -/
theorem chunkedGatedDelta_args {r : (ℕ → ℕ → ℕ → ℕ → ℝ) × (ℕ → ℕ → ℕ → ℕ → ℝ)} (h : chunkedGatedDelta x size = .ok r) :
    x.gNdim = 3 ∧ 0 < x.Hk ∧ x.Hk ∣ x.Hv ∧ 1 ≤ x.T := by
  unfold chunkedGatedDelta at h
  split_ifs at h with hndim hHk hgroup
  dsimp only at h
  split_ifs at h with hchunks
  refine ⟨not_not.1 hndim, Nat.pos_of_ne_zero hHk, Nat.dvd_of_mod_eq_zero (not_not.1 hgroup), ?_⟩
  by_contra hT
  obtain hzero : x.T = 0 := by omega
  rw [hzero, Nat.zero_mod, Nat.sub_zero, Nat.mod_self, Nat.zero_add, Nat.zero_div] at hchunks
  exact hchunks rfl

end Call

/-- No gates are refused. -/
theorem chunkedGatedDelta_returns {x : DeltaArgs} (hndim : x.gNdim = 3) (hHk : 0 < x.Hk) (hgroup : x.Hk ∣ x.Hv) (hT : 1 ≤ x.T)
    (size : Option ℕ) : ∃ r, chunkedGatedDelta x size = .ok r := by
  have hgates : ∀ b < x.B, ∀ hv < x.Hv, (x.gated clamp).GatesOk b hv := fun _ _ _ _ _ _ _ => le_max_right _ _
  obtain ⟨y, state, hok, -⟩ := @chunkedGatedDelta_ok (x.gated clamp) hndim hHk hgroup hT hgates size
  exact ⟨(y, state), (chunkedGatedDelta_gated x size).symm.trans hok⟩

/-- Whatever the gates and the chunk size, a chunked call that is not refused gives the state of the recurrence on the
lifted gates, and its outputs. -/
theorem chunkedGatedDelta_rows {x : DeltaArgs} {size : Option ℕ} {r : (ℕ → ℕ → ℕ → ℕ → ℝ) × (ℕ → ℕ → ℕ → ℕ → ℝ)}
    (h : chunkedGatedDelta x size = .ok r) : ∀ b < x.B, ∀ hv < x.Hv, ∀ c < x.Dv,
      (∀ d, r.2 b hv c d = (x.gated clamp).seqState b hv x.T c d) ∧
        ∀ t < x.T, r.1 b t hv c = (x.gated clamp).seqY b hv t c := by
  obtain ⟨hndim, hHk, hgroup, hT⟩ := chunkedGatedDelta_args h
  have hgates : ∀ b < x.B, ∀ hv < x.Hv, (x.gated clamp).GatesOk b hv := fun _ _ _ _ _ _ _ => le_max_right _ _
  obtain ⟨y, state, hok, hrows⟩ := @chunkedGatedDelta_ok (x.gated clamp) hndim hHk hgroup hT hgates size
  rw [chunkedGatedDelta_gated, h] at hok
  obtain rfl := Except.ok.inj hok
  exact hrows

/-- The chunked rule is the step recurrence on the lifted gates, at any gates, masks and chunk size; where the kept gates
of a head are `1e-12` at least up to a step, its state there is that of the gates as they are. -/
theorem chunked_gated_delta_clamped (x : DeltaArgs) (size : Option ℕ)
    (r : (ℕ → ℕ → ℕ → ℕ → ℝ) × (ℕ → ℕ → ℕ → ℕ → ℝ)) (h : chunkedGatedDelta x size = .ok r) (b : ℕ) (hb : b < x.B) (hv : ℕ)
    (hhv : hv < x.Hv) :
    (∀ c < x.Dv, (∀ d < x.Dk, r.2 b hv c d = (x.gated clamp).seqState b hv x.T c d) ∧
      ∀ t < x.T, x.keeps b t = true → r.1 b t hv c = (x.gated clamp).seqY b hv t c) ∧
    ∀ m, (∀ t < m, x.keeps b t = true → gateFloor ≤ x.g b t hv) → (x.gated clamp).seqState b hv m = x.seqState b hv m := by
  refine ⟨fun c hc => ⟨fun d _ => ?_, fun t ht _ => ?_⟩, fun m hgates => ?_⟩
  · exact (chunkedGatedDelta_rows h b hb hv hhv c hc).1 d
  · exact (chunkedGatedDelta_rows h b hb hv hhv c hc).2 t ht
  · refine seqState_congr rfl rfl fun t ht => ⟨rfl, rfl, rfl, fun hkeep => ?_, rfl⟩
    exact clamp_of_le (hgates t ht hkeep)

/-- One step of one head, whose gate is zero. -/
noncomputable def zeroGate : DeltaArgs :=
  ⟨1, 1, 1, 1, 1, 1, 3, fun _ _ _ _ => 1, fun _ _ _ _ => 1, fun _ _ _ _ => 1, fun _ _ _ => 0, fun _ _ _ => 1, none, none⟩

theorem chunked_gated_delta_clamped_zeroGate : ∃ r, chunkedGatedDelta zeroGate none = .ok r ∧
    r.2 0 0 0 0 = (zeroGate.gated clamp).seqState 0 0 1 0 0 := by
  obtain ⟨r, hr⟩ := @chunkedGatedDelta_returns zeroGate rfl Nat.one_pos (one_dvd 1) le_rfl none
  have hrows := chunked_gated_delta_clamped zeroGate none r hr 0 Nat.one_pos 0 Nat.one_pos
  exact ⟨r, hr, (hrows.1 0 Nat.one_pos).1 0 Nat.one_pos⟩

end MlxTrainPerf.Recurrent
