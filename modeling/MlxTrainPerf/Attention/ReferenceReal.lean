import MlxTrainPerf.Lib.OnlineSoftmax
import MlxTrainPerf.Attention.Reference
/-!
# The oracles on real values

Where every row of a batch row keeps a key, the forward and the backward stay on
real values. `Oracle` holds those values: the softmax over the kept keys, and
the gradients as sums over them.
-/
open XReal OnlineSoftmax

namespace MlxTrainPerf.Attention

open Launch (Shape)

/-- Does query `i` of batch row `b` keep key `j`? -/
def keeps (causal : Bool) (segments : Option (ℕ → ℕ → ℤ)) (b i j : ℕ) : Bool :=
  match segments with
  | some segId => segmentAllowed (segId b) i j
  | none => !causal || decide (j ≤ i)

/-- A query keeps its own key. -/
theorem keeps_self (causal : Bool) (segments : Option (ℕ → ℕ → ℤ)) (b i : ℕ) : keeps causal segments b i i = true := by
  cases segments with
  | some segId => simp only [keeps, segmentAllowed, decide_true, Bool.and_self, le_refl]
  | none => simp only [keeps, le_refl, decide_true, Bool.or_true]

/-! ## Real values -/

namespace Oracle
noncomputable section

section Values
variable (s : Shape) (q k v dO : Tensor ℝ) (scale : ℝ) (keep : ℕ → ℕ → ℕ → Bool)

def dot (x y : Tensor ℝ) (b h i j : ℕ) : ℝ := ∑ c ∈ Finset.range s.d, x b h i c * kvGather s y b h j c

/-- The scaled score. -/
def score (b h i j : ℕ) : ℝ := dot s q k b h i j * scale

/-- The keys a query keeps. -/
def keys (b i : ℕ) : Finset ℕ := (Finset.range s.n).filter fun j => keep b i j = true

def lse (b h i : ℕ) : ℝ := logSumExp (keys s keep b i) (score s q k scale b h i)

/-- The probability of key `j`. -/
def prob (b h i j : ℕ) : ℝ :=
  if keep b i j then Real.exp (score s q k scale b h i j - lse s q k scale keep b h i) else 0

def out (b h i c : ℕ) : ℝ := ∑ j ∈ Finset.range s.n, prob s q k scale keep b h i j * kvGather s v b h j c

/-- `D`, the row sum of `dO * O`. -/
def rowDot (b h i : ℕ) : ℝ := ∑ c ∈ Finset.range s.d, dO b h i c * out s q k v scale keep b h i c

def dScore (b h i j : ℕ) : ℝ :=
  prob s q k scale keep b h i j * (dot s dO v b h i j - rowDot s q k v dO scale keep b h i)

def gradQ (b h i c : ℕ) : ℝ :=
  scale * ∑ j ∈ Finset.range s.n, dScore s q k v dO scale keep b h i j * kvGather s k b h j c

/-- A sum over the q-heads that share a kv head. -/
def overGroup (x : ℕ → ℝ) (kvh : ℕ) : ℝ := ∑ g ∈ Finset.range (groupSize s), x (kvh * groupSize s + g)

def gradK (b kvh j c : ℕ) : ℝ :=
  overGroup s (fun h => scale * ∑ i ∈ Finset.range s.n, dScore s q k v dO scale keep b h i j * q b h i c) kvh

def gradV (b kvh j c : ℕ) : ℝ :=
  overGroup s (fun h => ∑ i ∈ Finset.range s.n, prob s q k scale keep b h i j * dO b h i c) kvh

end Values

section Softmax
variable {s : Shape} {q k v : Tensor ℝ} {scale : ℝ} {keep : ℕ → ℕ → ℕ → Bool} {b h i j : ℕ}

theorem mem_keys : j ∈ keys s keep b i ↔ j < s.n ∧ keep b i j = true := by
  unfold keys
  rw [Finset.mem_filter, Finset.mem_range]

/-- The output is the softmax-weighted sum of V over the kept keys. -/
theorem out_eq_softmaxSum (hne : (keys s keep b i).Nonempty) (c : ℕ) :
    out s q k v scale keep b h i c =
      softmaxSum (keys s keep b i) (score s q k scale b h i) fun j => kvGather s v b h j c := by
  have hpos := @sum_exp_pos _ (keys s keep b i) (score s q k scale b h i) hne
  have hprob : ∀ j ∈ keys s keep b i, prob s q k scale keep b h i j =
      Real.exp (score s q k scale b h i j) / ∑ j ∈ keys s keep b i, Real.exp (score s q k scale b h i j) := by
    intro j hj
    unfold prob lse logSumExp
    rw [if_pos (mem_keys.1 hj).2, Real.exp_sub, Real.exp_log hpos]
  have hsum : out s q k v scale keep b h i c =
      ∑ j ∈ keys s keep b i, prob s q k scale keep b h i j * kvGather s v b h j c := by
    unfold out keys
    rw [Finset.sum_filter]
    apply Finset.sum_congr rfl
    intro j _
    unfold prob
    split
    · rfl
    · rw [zero_mul]
  unfold softmaxSum
  rw [hsum, Finset.sum_div]
  apply Finset.sum_congr rfl
  intro j hj
  rw [hprob j hj]
  ring

end Softmax
end
end Oracle

/-! ## The forward -/

section Forward
variable {s : Shape} {q k v dO : Tensor ℝ} {scale : ℝ} {causal : Bool} {segments : Option (ℕ → ℕ → ℤ)} {b h i j : ℕ}

theorem dotRows_real (x y : Tensor ℝ) :
    dotRows s x y b h i j = real (∑ c ∈ Finset.range s.d, x b h i c * y b h j c) := sum_real fun _ _ => rfl

/-- The scores a mask leaves. -/
def maskedScore (s : Shape) (q k : Tensor ℝ) (scale : ℝ) (keep : ℕ → ℕ → ℕ → Bool) : Tensor XReal :=
  fun b h i j => if keep b i j then real (Oracle.score s q k scale b h i j) else negInf

theorem real_add_triuBias (x : ℝ) : real x + triuBias i j = if j ≤ i then real x else negInf := by
  unfold triuBias
  by_cases hle : j ≤ i
  · rw [if_neg (not_lt.2 hle), if_pos hle, add_zero]
  · rw [if_pos (not_le.1 hle), if_neg hle, real_add_negInf]

/-- The triangle, as the keys a plain causal query keeps. -/
theorem triu_eq : (fun b h i j => real (Oracle.score s q k scale b h i j) + triuBias i j : Tensor XReal) =
    maskedScore s q k scale (keeps true none) := by
  funext b h i j
  rw [real_add_triuBias]
  unfold maskedScore keeps
  simp only [Bool.not_true, Bool.false_or, decide_eq_true_eq]

theorem maskedScaledScores_eq (hgroup : s.hkv ∣ s.hq) (hcausal : segments.isSome → causal = true) :
    maskedScaledScores s q k v scale causal segments =
      .ok (maskedScore s q k scale (keeps causal segments), kvGather s v) := by
  unfold maskedScaledScores
  rw [if_neg (fun h => h (Nat.mod_eq_zero_of_dvd hgroup))]
  simp only [dotRows_real, real_mul_real]
  cases segments with
  | some segId =>
    rw [hcausal rfl]
    rfl
  | none =>
    cases causal with
    | false => rfl
    | true => exact congrArg (fun scores => Except.ok (scores, kvGather s v)) triu_eq

section Row
variable {keep : ℕ → ℕ → ℕ → Bool}

theorem logsumexp_masked (hne : (Oracle.keys s keep b i).Nonempty) :
    logsumexp s (maskedScore s q k scale keep) b h i = real (Oracle.lse s q k scale keep b h i) := by
  have hterm : ∀ j ∈ Finset.range s.n, (maskedScore s q k scale keep b h i j).exp =
      real (if keep b i j = true then Real.exp (Oracle.score s q k scale b h i j) else 0) := by
    intro j _
    unfold maskedScore
    split <;> rfl
  unfold logsumexp
  rw [sum_real hterm, ← Finset.sum_filter]
  exact log_real (sum_exp_pos hne)

theorem expSub_masked {lse : RowTensor XReal} (hlse : lse b h i = real (Oracle.lse s q k scale keep b h i)) :
    expSub (maskedScore s q k scale keep) lse b h i j = real (Oracle.prob s q k scale keep b h i j) := by
  unfold expSub maskedScore Oracle.prob
  rw [hlse]
  split <;> rfl

end Row

/-- A row that keeps a key gets the real output and logsumexp. -/
theorem attentionCore_real (hgroup : s.hkv ∣ s.hq) (hcausal : segments.isSome → causal = true) :
    ∃ o lse, attentionCore s q k v scale causal segments = .ok (o, lse) ∧
      ∀ b h i, (Oracle.keys s (keeps causal segments) b i).Nonempty →
        (∀ c, o b h i c = real (Oracle.out s q k v scale (keeps causal segments) b h i c)) ∧
          lse b h i = real (Oracle.lse s q k scale (keeps causal segments) b h i) := by
  let scores := maskedScore s q k scale (keeps causal segments)
  let lse := logsumexp s scores
  have hcore : attentionCore s q k v scale causal segments =
      .ok (fun b h i c => ∑ j ∈ Finset.range s.n, expSub scores lse b h i j * real (kvGather s v b h j c), lse) := by
    unfold attentionCore
    rw [maskedScaledScores_eq hgroup hcausal]
    rfl
  refine ⟨_, _, hcore, fun b h i hne => ?_⟩
  have hlse : lse b h i = real (Oracle.lse s q k scale (keeps causal segments) b h i) := logsumexp_masked hne
  refine ⟨fun c => sum_real fun j _ => ?_, hlse⟩
  rw [expSub_masked hlse, real_mul_real]

/-! ## The backward -/

/-- The causal bias on top of a segment mask changes nothing. -/
theorem backwardScores_eq (hcausal : segments.isSome → causal = true) :
    backwardScores s q k scale causal segments = .ok (maskedScore s q k scale (keeps causal segments)) := by
  unfold backwardScores
  simp only [dotRows_real, real_mul_real]
  cases segments with
  | some segId =>
    rw [hcausal rfl]
    refine congrArg Except.ok ?_
    funext b h i j
    unfold whereAllowed maskedScore keeps
    by_cases hallowed : segmentAllowed (segId b) i j = true
    · have hle : j ≤ i := by
        simp only [segmentAllowed, Bool.and_eq_true, decide_eq_true_eq] at hallowed
        exact hallowed.2
      rw [if_pos rfl]
      dsimp only
      rw [if_pos hallowed, if_pos hallowed, real_add_triuBias, if_pos hle]
      rfl
    · rw [if_pos rfl]
      dsimp only
      rw [if_neg hallowed, if_neg hallowed]
      unfold triuBias
      split <;> rfl
  | none =>
    cases causal with
    | false => rfl
    | true => exact congrArg Except.ok triu_eq

theorem sumGroup_real {x : Tensor XReal} {y : ℕ → ℝ} {kvh c : ℕ} (h : ∀ h, x b h i c = real (y h)) :
    sumGroup s x b kvh i c = real (Oracle.overGroup s y kvh) := sum_real fun g _ => h (kvh * groupSize s + g)

/-- The gradients are real where the forward's outputs are. -/
theorem flashAttentionBackward_real (hcausal : segments.isSome → causal = true) {o : Tensor XReal} {lse : RowTensor XReal}
    (ho : ∀ b h i, i < s.n → ∀ c, o b h i c = real (Oracle.out s q k v scale (keeps causal segments) b h i c))
    (hlse : ∀ b h i, i < s.n → lse b h i = real (Oracle.lse s q k scale (keeps causal segments) b h i)) :
    ∃ grads, flashAttentionBackward s q k v o lse dO scale causal segments = .ok grads ∧
      (∀ b h i c, i < s.n → grads.dQ b h i c = real (Oracle.gradQ s q k v dO scale (keeps causal segments) b h i c)) ∧
      (∀ b kvh j c, grads.dK b kvh j c = real (Oracle.gradK s q k v dO scale (keeps causal segments) b kvh j c)) ∧
      ∀ b kvh j c, grads.dV b kvh j c = real (Oracle.gradV s q k dO scale (keeps causal segments) b kvh j c) := by
  let keep := keeps causal segments
  let p := expSub (maskedScore s q k scale keep) lse
  let dS : Tensor XReal := fun b h i j => p b h i j * (dotRows s dO (kvGather s v) b h i j - bwdD s dO o b h i)
  let dKPerHead : Tensor XReal := fun b h j c => real scale * ∑ i ∈ Finset.range s.n, dS b h i j * real (q b h i c)
  let dVPerHead : Tensor XReal := fun b h j c => ∑ i ∈ Finset.range s.n, p b h i j * real (dO b h i c)
  let grads : Grads := {
    dQ := fun b h i c => real scale * ∑ j ∈ Finset.range s.n, dS b h i j * real (kvGather s k b h j c)
    dK := sumGroup s dKPerHead
    dV := sumGroup s dVPerHead }
  have hback : flashAttentionBackward s q k v o lse dO scale causal segments = .ok grads := by
    unfold flashAttentionBackward
    rw [backwardScores_eq hcausal]
    rfl
  have hp : ∀ b h i, i < s.n → ∀ j, p b h i j = real (Oracle.prob s q k scale keep b h i j) :=
    fun b h i hi j => expSub_masked (hlse b h i hi)
  have hd : ∀ b h i, i < s.n → bwdD s dO o b h i = real (Oracle.rowDot s q k v dO scale keep b h i) := by
    intro b h i hi
    apply sum_real
    intro c _
    rw [ho b h i hi c, real_mul_real]
  have hdS : ∀ b h i, i < s.n → ∀ j, dS b h i j = real (Oracle.dScore s q k v dO scale keep b h i j) := by
    intro b h i hi j
    dsimp only [dS]
    rw [hp b h i hi j, hd b h i hi, dotRows_real, real_sub_real, real_mul_real]
    rfl
  have hdQ : ∀ b h i c, i < s.n → grads.dQ b h i c = real (Oracle.gradQ s q k v dO scale keep b h i c) := by
    intro b h i c hi
    refine congrArg (real scale * ·) (sum_real fun j _ => ?_)
    rw [hdS b h i hi, real_mul_real]
  have hdK : ∀ b h j c, dKPerHead b h j c =
      real (scale * ∑ i ∈ Finset.range s.n, Oracle.dScore s q k v dO scale keep b h i j * q b h i c) := by
    intro b h j c
    refine congrArg (real scale * ·) (sum_real fun i hi => ?_)
    rw [hdS b h i (Finset.mem_range.1 hi), real_mul_real]
  have hdV : ∀ b h j c, dVPerHead b h j c =
      real (∑ i ∈ Finset.range s.n, Oracle.prob s q k scale keep b h i j * dO b h i c) := by
    intro b h j c
    apply sum_real
    intro i hi
    rw [hp b h i (Finset.mem_range.1 hi), real_mul_real]
  refine ⟨grads, hback, hdQ, ?_, ?_⟩
  · exact fun b kvh j c => sumGroup_real fun h => hdK b h j c
  · exact fun b kvh j c => sumGroup_real fun h => hdV b h j c

/-- Every result of a forward and backward pass whose queries all keep a key is real. -/
theorem referencePass_real (hgroup : s.hkv ∣ s.hq) (hcausal : segments.isSome → causal = true)
    (hne : ∀ b, ∀ i < s.n, (Oracle.keys s (keeps causal segments) b i).Nonempty) :
    ∃ res, referencePass s q k v dO scale causal segments = .ok res ∧
      mathAttention s q k v scale causal segments = .ok res.o ∧
      (∀ b h i c, i < s.n → res.o b h i c = real (Oracle.out s q k v scale (keeps causal segments) b h i c)) ∧
      (∀ b h i c, i < s.n →
        res.grads.dQ b h i c = real (Oracle.gradQ s q k v dO scale (keeps causal segments) b h i c)) ∧
      (∀ b kvh j c, res.grads.dK b kvh j c = real (Oracle.gradK s q k v dO scale (keeps causal segments) b kvh j c)) ∧
      ∀ b kvh j c, res.grads.dV b kvh j c = real (Oracle.gradV s q k dO scale (keeps causal segments) b kvh j c) := by
  obtain ⟨o, lse, hcore, hrows⟩ := @attentionCore_real s q k v scale causal segments hgroup hcausal
  obtain ⟨grads, hback, hdQ, hdK, hdV⟩ := @flashAttentionBackward_real s q k v dO scale causal segments hcausal o lse
    (fun b h i hi => (hrows b h i (hne b i hi)).1) (fun b h i hi => (hrows b h i (hne b i hi)).2)
  refine ⟨⟨o, grads⟩, ?_, ?_, fun b h i c hi => (hrows b h i (hne b i hi)).1 c, hdQ, hdK, hdV⟩
  · unfold referencePass
    rw [hcore]
    dsimp only [bind, Except.bind]
    rw [hback]
    rfl
  · unfold mathAttention
    rw [hcore]
    rfl

end Forward

end MlxTrainPerf.Attention
