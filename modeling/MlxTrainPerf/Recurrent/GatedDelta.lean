import MlxTrainPerf.Recurrent.ChunkRun
/-!
# The chunked rule is the step recurrence

Padding and masked steps are neutral, so the padded run stands where the
recurrence does. A chunk takes the padded run from its first step to its last,
and the chunks are one after another.
-/
open Finset

namespace MlxTrainPerf.Recurrent

namespace DeltaArgs

section Head
variable {x : DeltaArgs} {C b hv c t m : ℕ}

/-- The gates of the kept steps of one head are not clamped. -/
def GatesOk (x : DeltaArgs) (b hv : ℕ) : Prop := ∀ t < x.T, x.keeps b t = true → gateFloor ≤ x.g b t hv

/-- The padded run of one head, in one column of the state. -/
noncomputable def paddedRun (x : DeltaArgs) (b hv c : ℕ) : ℕ → ℕ → ℝ :=
  DeltaRule.run x.Dk (fun i d => x.padded 0 (fun t => x.k b t (hv / x.repeatFactor) d) i)
    (fun i => x.padded 0 (fun t => x.v b t hv c) i) (fun i => x.padded 1 (fun t => x.maskedG b t hv) i)
    (fun i => x.padded 0 (fun t => x.maskedBeta b t hv) i) (x.initState b hv c)

/-- The padded run stops where the recurrence does. -/
theorem paddedRun_eq (t : ℕ) : x.paddedRun b hv c t = x.seqState b hv (min t x.T) c := by
  induction t with
  | zero =>
    rw [Nat.zero_min]
    rfl
  | succ t ih =>
    have hstep : x.paddedRun b hv c (t + 1) = DeltaRule.step x.Dk
        (fun d => x.padded 0 (fun t => x.k b t (hv / x.repeatFactor) d) t) (x.padded 0 (fun t => x.v b t hv c) t)
        (x.padded 1 (fun t => x.maskedG b t hv) t) (x.padded 0 (fun t => x.maskedBeta b t hv) t)
        (x.paddedRun b hv c t) := rfl
    rw [hstep, ih]
    by_cases ht : t < x.T
    · have hnext : min (t + 1) x.T = min t x.T + 1 := by omega
      have hat : min t x.T = t := by omega
      simp only [padded, if_pos ht, hnext, seqState, hat, maskedG, maskedBeta]
      split
      · rw [mul_one]
        rfl
      · -- A masked step has gate 1 and corrects nothing.
        rw [mul_zero, DeltaRule.step_neutral]
    · -- A padded step is the same.
      have hstop : min (t + 1) x.T = min t x.T := by omega
      simp only [padded, if_neg ht, hstop, DeltaRule.step_neutral]

theorem chunk_gatesOk (hg : x.GatesOk b hv) (ci : ℕ) (st : Mat) : (x.chunk C b hv ci st).GatesOk := by
  intro i _
  change gateFloor ≤ x.padded 1 (fun t => x.maskedG b t hv) (ci * C + i)
  unfold padded maskedG
  split
  · next ht =>
    dsimp only
    split
    · next hkeep => exact hg _ ht hkeep
    · exact gateFloor_le_one
  · exact gateFloor_le_one

/-- A chunk's columns are a stretch of the padded run, when it starts there. -/
theorem chunk_column {st : Mat} {ci : ℕ} (hst : ∀ d, st d c = x.paddedRun b hv c (ci * C) d) (t : ℕ) :
    (x.chunk C b hv ci st).column c t = x.paddedRun b hv c (ci * C + t) := by
  have hstart : (fun d => st d c) = x.paddedRun b hv c (ci * C) := funext hst
  unfold paddedRun
  rw [DeltaRule.run_add]
  change DeltaRule.run _ _ _ _ _ (fun d => st d c) t = _
  rw [hstart]
  rfl

/-- The outputs and the state after some chunks. -/
structure HeadHolds (x : DeltaArgs) (C b hv m : ℕ) (r : List Mat × Mat) : Prop where
  length : r.1.length = m
  state : ∀ c < x.Dv, ∀ d, r.2 d c = x.paddedRun b hv c (m * C) d
  out : ∀ ci < m, ∀ i < C, ∀ c < x.Dv, r.1.getD ci (fun _ _ => 0) i c = ∑ d ∈ range x.Dk,
    x.paddedRun b hv c (ci * C + i + 1) d * x.padded 0 (fun t => x.q b t (hv / x.repeatFactor) d) (ci * C + i)

/-- A chunk adds its steps. -/
theorem chunk_holds (hC : 0 < C) (hg : x.GatesOk b hv) {r : List Mat × Mat} (hheld : HeadHolds x C b hv m r) :
    HeadHolds x C b hv (m + 1)
      (r.1 ++ [(gatedDeltaChunk (x.chunk C b hv m r.2)).1], (gatedDeltaChunk (x.chunk C b hv m r.2)).2) := by
  have hgates := @chunk_gatesOk x C b hv hg m r.2
  have hcolumn := fun c hc t => @chunk_column x C b hv c r.2 m (hheld.state c hc) t
  refine ⟨?_, ?_, ?_⟩
  · rw [List.length_append, hheld.length]
    rfl
  · intro c hc d
    refine (Chunk.newState_eq hgates hC hc d).trans ?_
    rw [hcolumn c hc, Nat.succ_mul]
    rfl
  · intro ci hci i hi c hc
    rcases (Nat.lt_succ_iff.1 hci).lt_or_eq with hlt | rfl
    · have hold : ci < r.1.length := by
        rw [hheld.length]
        exact hlt
      dsimp only
      rw [List.getD_append _ _ _ _ hold]
      exact hheld.out ci hlt i hi c hc
    · have hlast : (r.1 ++ [(gatedDeltaChunk (x.chunk C b hv ci r.2)).1]).getD ci (fun _ _ => 0) =
          (x.chunk C b hv ci r.2).y := by
        rw [List.getD_append_right _ _ _ _ hheld.length.le, hheld.length, Nat.sub_self]
        rfl
      dsimp only
      rw [hlast]
      refine (Chunk.y_eq hgates hc hi).trans (sum_congr rfl fun d _ => ?_)
      rw [hcolumn c hc]
      rfl

theorem headRun_holds (hC : 0 < C) (hg : x.GatesOk b hv) (nc : ℕ) : HeadHolds x C b hv nc (x.headRun C nc b hv) := by
  unfold headRun
  induction nc with
  | zero => exact ⟨rfl, fun _ _ _ => by rw [Nat.zero_mul]; rfl, fun _ hci => absurd hci (Nat.not_lt_zero _)⟩
  | succ nc ih =>
    rw [List.range_succ, List.foldl_append]
    exact chunk_holds hC hg ih

end Head
end DeltaArgs

/-! ## The call -/

theorem chunkLength_pos (chunkSize : Option ℕ) : 0 < chunkLength chunkSize := by
  unfold chunkLength
  split
  · decide
  · decide
  · next C hne => exact Nat.pos_of_ne_zero hne

/-- The padding fills the last chunk. -/
theorem le_chunks_mul {T C : ℕ} (hC : 0 < C) : T ≤ (T + (C - T % C) % C) / C * C := by
  have hsplit := Nat.div_add_mod T C
  have hlt := Nat.mod_lt T hC
  have hdvd : C ∣ T + (C - T % C) % C := by
    rcases Nat.eq_zero_or_pos (T % C) with hzero | hpos
    · rw [hzero, Nat.sub_zero, Nat.mod_self, Nat.add_zero]
      exact Nat.dvd_of_mod_eq_zero hzero
    · rw [Nat.mod_eq_of_lt (by omega)]
      have hsum : T + (C - T % C) = C * (T / C) + C := by omega
      rw [hsum]
      exact Dvd.dvd.add (Nat.dvd_mul_right C _) (Nat.dvd_refl C)
  rw [Nat.div_mul_cancel hdvd]
  exact Nat.le_add_right _ _

/-- Chunks that cover the steps end in the recurrence's state, and hold its outputs. -/
theorem DeltaArgs.headRun_rows {x : DeltaArgs} {C nc b hv c : ℕ} (hC : 0 < C) (hcover : x.T ≤ nc * C)
    (hg : x.GatesOk b hv) (hc : c < x.Dv) :
    (∀ d, (x.headRun C nc b hv).2 d c = x.seqState b hv x.T c d) ∧
      ∀ t < x.T, (x.headRun C nc b hv).1.getD (t / C) (fun _ _ => 0) (t % C) c = x.seqY b hv t c := by
  have hheld := headRun_holds hC hg nc
  refine ⟨fun d => ?_, fun t ht => ?_⟩
  · rw [hheld.state c hc, paddedRun_eq, min_eq_right hcover]
  · -- Step `t` is step `t % C` of chunk `t / C`.
    have hci := (Nat.div_lt_iff_lt_mul hC).2 (ht.trans_le hcover)
    have hplace : t / C * C + t % C = t := Nat.div_add_mod' t C
    rw [hheld.out _ hci _ (Nat.mod_lt t hC) c hc, hplace]
    refine sum_congr rfl fun d _ => ?_
    rw [paddedRun_eq, min_eq_left (Nat.succ_le_of_lt ht), padded, if_pos ht]

theorem chunkedGatedDelta_ok {x : DeltaArgs} (hndim : x.gNdim = 3) (hHk : 0 < x.Hk) (hgroup : x.Hk ∣ x.Hv) (hT : 1 ≤ x.T)
    (hg : ∀ b < x.B, ∀ hv < x.Hv, x.GatesOk b hv) (chunkSize : Option ℕ) :
    ∃ y state, chunkedGatedDelta x chunkSize = .ok (y, state) ∧ ∀ b < x.B, ∀ hv < x.Hv, ∀ c < x.Dv,
      (∀ d, state b hv c d = x.seqState b hv x.T c d) ∧ ∀ t < x.T, y b t hv c = x.seqY b hv t c := by
  have hC := chunkLength_pos chunkSize
  unfold chunkedGatedDelta
  generalize chunkLength chunkSize = C at hC
  have hcover := @le_chunks_mul x.T C hC
  have hchunks : (x.T + (C - x.T % C) % C) / C ≠ 0 := by
    intro hzero
    rw [hzero, Nat.zero_mul] at hcover
    omega
  rw [if_neg (not_not.2 hndim), if_neg hHk.ne', if_neg (not_not.2 (Nat.mod_eq_zero_of_dvd hgroup)), if_neg hchunks]
  exact ⟨_, _, rfl, fun b hb hv hhv c hc => DeltaArgs.headRun_rows hC hcover (hg b hb hv hhv) hc⟩

/-- The chunked rule returns the state of the step recurrence after all steps, and
its outputs at the kept ones, whatever the chunk size. -/
theorem chunked_gated_delta_eq (x : DeltaArgs) (hndim : x.gNdim = 3) (hHk : 0 < x.Hk) (hgroup : x.Hk ∣ x.Hv)
    (hT : 1 ≤ x.T)
    (hg : ∀ b < x.B, ∀ hv < x.Hv, ∀ t < x.T, x.keeps b t = true → gateFloor ≤ x.g b t hv) :
    (∀ chunkSize, ∃ y state, chunkedGatedDelta x chunkSize = .ok (y, state) ∧ ∀ b < x.B, ∀ hv < x.Hv, ∀ c < x.Dv,
      (∀ d < x.Dk, state b hv c d = x.seqState b hv x.T c d) ∧
        ∀ t < x.T, x.keeps b t = true → y b t hv c = x.seqY b hv t c) ∧
    ∀ size size' r r', chunkedGatedDelta x size = .ok r → chunkedGatedDelta x size' = .ok r' →
      ∀ b < x.B, ∀ hv < x.Hv, ∀ c < x.Dv, (∀ d < x.Dk, r.2 b hv c d = r'.2 b hv c d) ∧
        ∀ t < x.T, x.keeps b t = true → r.1 b t hv c = r'.1 b t hv c := by
  have hall : ∀ chunkSize, ∃ y state, chunkedGatedDelta x chunkSize = .ok (y, state) ∧
      ∀ b < x.B, ∀ hv < x.Hv, ∀ c < x.Dv, (∀ d < x.Dk, state b hv c d = x.seqState b hv x.T c d) ∧
        ∀ t < x.T, x.keeps b t = true → y b t hv c = x.seqY b hv t c := by
    intro chunkSize
    obtain ⟨y, state, hok, hrows⟩ := chunkedGatedDelta_ok hndim hHk hgroup hT hg chunkSize
    refine ⟨y, state, hok, fun b hb hv hhv c hc => ⟨fun d _ => (hrows b hb hv hhv c hc).1 d, fun t ht _ => ?_⟩⟩
    exact (hrows b hb hv hhv c hc).2 t ht
  -- Two chunk sizes agree because each agrees with the recurrence.
  refine ⟨hall, fun size size' r r' hr hr' b hb hv hhv c hc => ?_⟩
  obtain ⟨y, state, hok, hrows⟩ := hall size
  obtain ⟨y', state', hok', hrows'⟩ := hall size'
  obtain rfl := Except.ok.inj (hr.symm.trans hok)
  obtain rfl := Except.ok.inj (hr'.symm.trans hok')
  refine ⟨fun d hd => ?_, fun t ht hkeep => ?_⟩
  · exact ((hrows b hb hv hhv c hc).1 d hd).trans ((hrows' b hb hv hhv c hc).1 d hd).symm
  · exact ((hrows b hb hv hhv c hc).2 t ht hkeep).trans ((hrows' b hb hv hhv c hc).2 t ht hkeep).symm

/-- Two steps of one head, the first one masked. -/
noncomputable def maskedStep : DeltaArgs where
  B := 1
  T := 2
  Hk := 1
  Dk := 1
  Hv := 1
  Dv := 1
  gNdim := 3
  q := fun _ _ _ _ => 1
  k := fun _ _ _ _ => 1
  v := fun _ _ _ _ => 1
  g := fun _ _ _ => 1
  beta := fun _ _ _ => 1
  state := some fun _ _ _ _ => 1
  mask := some fun _ t => t == 1

theorem chunked_gated_delta_maskedStep :
    (∀ chunkSize, ∃ y state, chunkedGatedDelta maskedStep chunkSize = .ok (y, state) ∧
      ∀ b < 1, ∀ hv < 1, ∀ c < 1, (∀ d < 1, state b hv c d = maskedStep.seqState b hv 2 c d) ∧
        ∀ t < 2, maskedStep.keeps b t = true → y b t hv c = maskedStep.seqY b hv t c) ∧
    ∀ size size' r r', chunkedGatedDelta maskedStep size = .ok r → chunkedGatedDelta maskedStep size' = .ok r' →
      ∀ b < 1, ∀ hv < 1, ∀ c < 1, (∀ d < 1, r.2 b hv c d = r'.2 b hv c d) ∧
        ∀ t < 2, maskedStep.keeps b t = true → r.1 b t hv c = r'.1 b t hv c := by
  exact chunked_gated_delta_eq maskedStep rfl Nat.one_pos (one_dvd 1) (Nat.le_succ 1) fun _ _ _ _ _ _ _ =>
    gateFloor_le_one

end MlxTrainPerf.Recurrent
