import MlxTrainPerf.Lib.Vjp
import MlxTrainPerf.Attention.ReferenceReal
/-!
# The attention backward is the vector-Jacobian product

`math_attention` as a function of the entries of `q`, `k` and `v`, its derivative,
and the pairing of that derivative with a cotangent: what comes out is what
`_flash_attention_backward` returns.
-/
open XReal OnlineSoftmax Vjp

namespace MlxTrainPerf.Attention

open Launch (Shape)

/-! ## The pairing -/

namespace Oracle

section Pairing
variable {s : Shape} {q k v dO δq δk δv : Tensor ℝ} {scale : ℝ} {keep : ℕ → ℕ → ℕ → Bool} {b h i j c : ℕ}

/-- The sum of the products of two arrays' entries. -/
def pair (s : Shape) (heads : ℕ) (x y : Tensor ℝ) : ℝ :=
  ∑ b ∈ Finset.range s.b, ∑ h ∈ Finset.range heads, ∑ i ∈ Finset.range s.n, ∑ c ∈ Finset.range s.d,
    x b h i c * y b h i c

/-- How a score moves when `q` and `k` do. -/
def moveScore (s : Shape) (q k δq δk : Tensor ℝ) (scale : ℝ) (b h i j : ℕ) : ℝ :=
  scale * ∑ c ∈ Finset.range s.d, (q b h i c * kvGather s δk b h j c + kvGather s k b h j c * δq b h i c)

/-- How an output moves. -/
noncomputable def moveOut (s : Shape) (q k v δq δk δv : Tensor ℝ) (scale : ℝ) (keep : ℕ → ℕ → ℕ → Bool)
    (b h i c : ℕ) : ℝ :=
  ∑ j ∈ Finset.range s.n, prob s q k scale keep b h i j * (kvGather s δv b h j c +
    (kvGather s v b h j c - out s q k v scale keep b h i c) * moveScore s q k δq δk scale b h i j)

/-- A row's cotangent reaches the values by `P`, and the scores by `dS`. -/
theorem row_moveOut : ∑ c ∈ Finset.range s.d, dO b h i c * moveOut s q k v δq δk δv scale keep b h i c =
    ∑ j ∈ Finset.range s.n, ∑ c ∈ Finset.range s.d,
      prob s q k scale keep b h i j * dO b h i c * kvGather s δv b h j c +
    ∑ j ∈ Finset.range s.n, dScore s q k v dO scale keep b h i j * moveScore s q k δq δk scale b h i j := by
  have hkey : ∀ j, ∑ c ∈ Finset.range s.d, dO b h i c * (prob s q k scale keep b h i j * (kvGather s δv b h j c +
      (kvGather s v b h j c - out s q k v scale keep b h i c) * moveScore s q k δq δk scale b h i j)) =
      ∑ c ∈ Finset.range s.d, prob s q k scale keep b h i j * dO b h i c * kvGather s δv b h j c +
        dScore s q k v dO scale keep b h i j * moveScore s q k δq δk scale b h i j := by
    intro j
    unfold dScore dot rowDot
    rw [← Finset.sum_sub_distrib, Finset.mul_sum, Finset.sum_mul, ← Finset.sum_add_distrib]
    apply Finset.sum_congr rfl
    intro c _
    ring
  calc ∑ c ∈ Finset.range s.d, dO b h i c * moveOut s q k v δq δk δv scale keep b h i c
      = ∑ j ∈ Finset.range s.n, ∑ c ∈ Finset.range s.d, dO b h i c * (prob s q k scale keep b h i j *
          (kvGather s δv b h j c + (kvGather s v b h j c - out s q k v scale keep b h i c) *
            moveScore s q k δq δk scale b h i j)) := by
        rw [Finset.sum_comm]
        apply Finset.sum_congr rfl
        intro c _
        unfold moveOut
        rw [Finset.mul_sum]
    _ = _ := by
        rw [Finset.sum_congr rfl fun j _ => hkey j, Finset.sum_add_distrib]

/-- What reaches a row's scores is `dQ` on the query, and each key's share of `dK`. -/
theorem row_moveScore :
    ∑ j ∈ Finset.range s.n, dScore s q k v dO scale keep b h i j * moveScore s q k δq δk scale b h i j =
      ∑ c ∈ Finset.range s.d, gradQ s q k v dO scale keep b h i c * δq b h i c +
        ∑ j ∈ Finset.range s.n, ∑ c ∈ Finset.range s.d,
          scale * (dScore s q k v dO scale keep b h i j * q b h i c) * kvGather s δk b h j c := by
  have hq : ∑ c ∈ Finset.range s.d, gradQ s q k v dO scale keep b h i c * δq b h i c =
      ∑ j ∈ Finset.range s.n, ∑ c ∈ Finset.range s.d,
        scale * (dScore s q k v dO scale keep b h i j * kvGather s k b h j c) * δq b h i c := by
    rw [Finset.sum_comm]
    apply Finset.sum_congr rfl
    intro c _
    unfold gradQ
    rw [Finset.mul_sum, Finset.sum_mul]
  rw [hq, ← Finset.sum_add_distrib]
  apply Finset.sum_congr rfl
  intro j _
  unfold moveScore
  rw [← Finset.sum_add_distrib, Finset.mul_sum, Finset.mul_sum]
  apply Finset.sum_congr rfl
  intro c _
  ring

theorem groupSize_mul (hgroup : s.hkv ∣ s.hq) : s.hkv * groupSize s = s.hq := Nat.mul_div_cancel' hgroup

theorem sum_comm_twice (A B C : Finset ℕ) (f : ℕ → ℕ → ℕ → ℝ) :
    ∑ a ∈ A, ∑ b ∈ B, ∑ c ∈ C, f a b c = ∑ b ∈ B, ∑ c ∈ C, ∑ a ∈ A, f a b c := by
  rw [Finset.sum_comm]
  apply Finset.sum_congr rfl
  intro b _
  exact Finset.sum_comm

/-- What the queries of the q-heads send to a key, its kv head receives. -/
theorem sum_heads (hgroup : s.hkv ∣ s.hq) (x : ℕ → ℕ → ℕ → ℕ → ℝ) (y : Tensor ℝ) :
    ∑ h ∈ Finset.range s.hq, ∑ i ∈ Finset.range s.n, ∑ j ∈ Finset.range s.n, ∑ c ∈ Finset.range s.d,
      x h i j c * kvGather s y b h j c =
        ∑ kvh ∈ Finset.range s.hkv, ∑ j ∈ Finset.range s.n, ∑ c ∈ Finset.range s.d,
          overGroup s (fun h => ∑ i ∈ Finset.range s.n, x h i j c) kvh * y b kvh j c := by
  have hkv : ∀ j c, ∑ h ∈ Finset.range s.hq, ∑ i ∈ Finset.range s.n, x h i j c * kvGather s y b h j c =
      ∑ kvh ∈ Finset.range s.hkv, overGroup s (fun h => ∑ i ∈ Finset.range s.n, x h i j c) kvh * y b kvh j c := by
    intro j c
    rw [← groupSize_mul hgroup]
    simp only [← Finset.sum_mul]
    exact sum_range_group (fun h => ∑ i ∈ Finset.range s.n, x h i j c) fun kvh => y b kvh j c
  calc ∑ h ∈ Finset.range s.hq, ∑ i ∈ Finset.range s.n, ∑ j ∈ Finset.range s.n, ∑ c ∈ Finset.range s.d,
        x h i j c * kvGather s y b h j c
      = ∑ h ∈ Finset.range s.hq, ∑ j ∈ Finset.range s.n, ∑ c ∈ Finset.range s.d, ∑ i ∈ Finset.range s.n,
          x h i j c * kvGather s y b h j c := Finset.sum_congr rfl fun h _ => sum_comm_twice _ _ _ _
    _ = ∑ j ∈ Finset.range s.n, ∑ c ∈ Finset.range s.d, ∑ h ∈ Finset.range s.hq, ∑ i ∈ Finset.range s.n,
          x h i j c * kvGather s y b h j c := sum_comm_twice _ _ _ _
    _ = ∑ j ∈ Finset.range s.n, ∑ c ∈ Finset.range s.d, ∑ kvh ∈ Finset.range s.hkv,
          overGroup s (fun h => ∑ i ∈ Finset.range s.n, x h i j c) kvh * y b kvh j c := by
        apply Finset.sum_congr rfl
        intro j _
        exact Finset.sum_congr rfl fun c _ => hkv j c
    _ = ∑ kvh ∈ Finset.range s.hkv, ∑ j ∈ Finset.range s.n, ∑ c ∈ Finset.range s.d,
          overGroup s (fun h => ∑ i ∈ Finset.range s.n, x h i j c) kvh * y b kvh j c := (sum_comm_twice _ _ _ _).symm

/-- The cotangent paired with the outputs' move is the gradients paired with the arguments'. -/
theorem pair_moveOut (hgroup : s.hkv ∣ s.hq) :
    pair s s.hq dO (moveOut s q k v δq δk δv scale keep) =
      pair s s.hq (gradQ s q k v dO scale keep) δq + (pair s s.hkv (gradK s q k v dO scale keep) δk +
        pair s s.hkv (gradV s q k dO scale keep) δv) := by
  unfold pair
  rw [← Finset.sum_add_distrib, ← Finset.sum_add_distrib]
  apply Finset.sum_congr rfl
  intro b _
  have hv := sum_heads (b := b) hgroup (fun h i j c => prob s q k scale keep b h i j * dO b h i c) δv
  have hk := sum_heads (b := b) hgroup (fun h i j c => scale * (dScore s q k v dO scale keep b h i j * q b h i c)) δk
  simp only [← Finset.mul_sum] at hk
  change _ = ∑ kvh ∈ Finset.range s.hkv, ∑ j ∈ Finset.range s.n, ∑ c ∈ Finset.range s.d,
    gradV s q k dO scale keep b kvh j c * δv b kvh j c at hv
  change _ = ∑ kvh ∈ Finset.range s.hkv, ∑ j ∈ Finset.range s.n, ∑ c ∈ Finset.range s.d,
    gradK s q k v dO scale keep b kvh j c * δk b kvh j c at hk
  rw [← hv, ← hk, ← Finset.sum_add_distrib, ← Finset.sum_add_distrib]
  apply Finset.sum_congr rfl
  intro h _
  rw [← Finset.sum_add_distrib, ← Finset.sum_add_distrib]
  apply Finset.sum_congr rfl
  intro i _
  rw [row_moveOut, row_moveScore]
  ring

end Pairing

/-! ## The derivative -/

section Derivative
variable {E : Type} [NormedAddCommGroup E] [NormedSpace ℝ E] {s : Shape} {q k v : E → Tensor ℝ}
  {q' k' v' : Tensor (E →L[ℝ] ℝ)} {x : E} {scale : ℝ} {keep : ℕ → ℕ → ℕ → Bool} {b h i j c : ℕ}

/-- Every entry of an array moves with its own derivative. -/
def Moves (q : E → Tensor ℝ) (q' : Tensor (E →L[ℝ] ℝ)) (x : E) : Prop :=
  ∀ b h i c, HasFDerivAt (fun x => q x b h i c) (q' b h i c) x

/-- The arrays' move in the direction `δ`. -/
def along (q' : Tensor (E →L[ℝ] ℝ)) (δ : E) : Tensor ℝ := fun b h i c => q' b h i c δ

theorem hasFDerivAt_score (hq : Moves q q' x) (hk : Moves k k' x) :
    ∃ score' : E →L[ℝ] ℝ, HasFDerivAt (fun x => score s (q x) (k x) scale b h i j) score' x ∧
      ∀ δ, score' δ = moveScore s (q x) (k x) (along q' δ) (along k' δ) scale b h i j := by
  have hdot := HasFDerivAt.fun_sum fun c (_ : c ∈ Finset.range s.d) =>
    (hq b h i c).mul (hk b (kvHeadFor h (groupSize s)) j c)
  refine ⟨_, hdot.mul_const scale, fun δ => ?_⟩
  simp only [smul_apply, add_apply, sum_apply, smul_eq_mul]
  rfl

theorem prob_eq_weight (hj : j ∈ keys s keep b i) {q k : Tensor ℝ} :
    weight (keys s keep b i) (score s q k scale b h i) j = prob s q k scale keep b h i j := by
  have hpos := @sum_exp_pos _ (keys s keep b i) (score s q k scale b h i) ⟨j, hj⟩
  unfold weight prob lse logSumExp
  rw [if_pos (mem_keys.1 hj).2, Real.exp_sub, Real.exp_log hpos]

/-- A key that is not kept has no weight. -/
theorem sum_prob_keys {q k : Tensor ℝ} (f : ℕ → ℝ) :
    ∑ j ∈ Finset.range s.n, prob s q k scale keep b h i j * f j =
      ∑ j ∈ keys s keep b i, prob s q k scale keep b h i j * f j := by
  unfold keys
  rw [Finset.sum_filter]
  apply Finset.sum_congr rfl
  intro j _
  unfold prob
  split
  · rfl
  · rw [zero_mul]

/-- An output's derivative is its move. -/
theorem hasFDerivAt_out (hq : Moves q q' x) (hk : Moves k k' x) (hv : Moves v v' x)
    (hne : (keys s keep b i).Nonempty) :
    ∃ out' : E →L[ℝ] ℝ, HasFDerivAt (fun x => out s (q x) (k x) (v x) scale keep b h i c) out' x ∧
      ∀ δ, out' δ = moveOut s (q x) (k x) (v x) (along q' δ) (along k' δ) (along v' δ) scale keep b h i c := by
  choose score' hscore hmove using fun j => @hasFDerivAt_score _ _ _ s q k q' k' x scale b h i j hq hk
  have hsum := hasFDerivAt_softmaxSum hne (fun j _ => hscore j)
    (fun j _ => hv b (kvHeadFor h (groupSize s)) j c)
  have hfun : (fun x => out s (q x) (k x) (v x) scale keep b h i c) = fun x =>
      softmaxSum (keys s keep b i) (fun j => score s (q x) (k x) scale b h i j) fun j => kvGather s (v x) b h j c := by
    funext x
    exact out_eq_softmaxSum hne c
  rw [hfun]
  refine ⟨_, hsum, fun δ => ?_⟩
  unfold moveOut
  rw [sum_prob_keys, out_eq_softmaxSum hne]
  simp only [smul_apply, add_apply, sum_apply, smul_eq_mul, hmove]
  apply Finset.sum_congr rfl
  intro j hj
  rw [prob_eq_weight hj]
  rfl

end Derivative
end Oracle

/-! ## The arrays -/

/-- The entries of a `(B, heads, N, D)` array. -/
abbrev Index (s : Shape) (heads : ℕ) : Type := Fin s.b × Fin heads × Fin s.n × Fin s.d

/-- An array by its entries; 0 out of range. -/
def ofEntries {s : Shape} {heads : ℕ} (x : Index s heads → ℝ) : Tensor ℝ := fun b h i c =>
  if hin : b < s.b ∧ h < heads ∧ i < s.n ∧ c < s.d then
    x (⟨b, hin.1⟩, ⟨h, hin.2.1⟩, ⟨i, hin.2.2.1⟩, ⟨c, hin.2.2.2⟩)
  else 0

/-- The entries of an array. -/
def entries {α : Type} (s : Shape) (heads : ℕ) (x : Tensor α) : Index s heads → α := fun p => x p.1 p.2.1 p.2.2.1 p.2.2.2

/-- The entries of `q`, `k` and `v`, together. -/
abbrev ArgIndex (s : Shape) : Type := Index s s.hq ⊕ Index s s.hkv ⊕ Index s s.hkv

/-- The arguments whose entries are `x`. -/
def qOf {s : Shape} (x : ArgIndex s → ℝ) : Tensor ℝ := ofEntries fun p : Index s s.hq => x (.inl p)

def kOf {s : Shape} (x : ArgIndex s → ℝ) : Tensor ℝ := ofEntries fun p : Index s s.hkv => x (.inr (.inl p))

def vOf {s : Shape} (x : ArgIndex s → ℝ) : Tensor ℝ := ofEntries fun p : Index s s.hkv => x (.inr (.inr p))

noncomputable section

/-- The derivative of an array of arguments. -/
def entryMoves {s : Shape} {heads : ℕ} (arg : Index s heads → ArgIndex s) : Tensor ((ArgIndex s → ℝ) →L[ℝ] ℝ) :=
  fun b h i c =>
    if hin : b < s.b ∧ h < heads ∧ i < s.n ∧ c < s.d then
      ContinuousLinearMap.proj (arg (⟨b, hin.1⟩, ⟨h, hin.2.1⟩, ⟨i, hin.2.2.1⟩, ⟨c, hin.2.2.2⟩))
    else 0

/-- `math_attention`, from the entries of its arguments to the entries of its result. -/
def attentionEntries (s : Shape) (scale : ℝ) (causal : Bool) (segments : Option (ℕ → ℕ → ℤ))
    (x : ArgIndex s → ℝ) : Index s s.hq → ℝ :=
  match mathAttention s (qOf x) (kOf x) (vOf x) scale causal segments with
  | .ok o => fun p => (entries s s.hq o p).toReal
  | .error _ => 0

/-- The entries of `dQ`, `dK` and `dV`, together. -/
def gradEntries (s : Shape) (grads : Grads) : ArgIndex s → XReal :=
  Sum.elim (entries s s.hq grads.dQ) (Sum.elim (entries s s.hkv grads.dK) (entries s s.hkv grads.dV))

end

section Entries
variable {s : Shape} {heads : ℕ} {x δ : ArgIndex s → ℝ}

theorem entries_ofEntries (y : Index s heads → ℝ) (p : Index s heads) : entries s heads (ofEntries y) p = y p := by
  unfold entries ofEntries
  rw [dif_pos ⟨p.1.2, p.2.1.2, p.2.2.1.2, p.2.2.2.2⟩]

theorem entries_qOf (p : Index s s.hq) : entries s s.hq (qOf δ) p = δ (.inl p) := entries_ofEntries _ p

theorem entries_kOf (p : Index s s.hkv) : entries s s.hkv (kOf δ) p = δ (.inr (.inl p)) := entries_ofEntries _ p

theorem entries_vOf (p : Index s s.hkv) : entries s s.hkv (vOf δ) p = δ (.inr (.inr p)) := entries_ofEntries _ p

theorem moves_ofEntries (arg : Index s heads → ArgIndex s) :
    Oracle.Moves (fun x : ArgIndex s → ℝ => ofEntries fun p => x (arg p)) (entryMoves arg) x := by
  intro b h i c
  by_cases hin : b < s.b ∧ h < heads ∧ i < s.n ∧ c < s.d
  · simp only [ofEntries, entryMoves, dif_pos hin]
    exact (ContinuousLinearMap.proj (R := ℝ) (φ := fun _ : ArgIndex s => ℝ) _).hasFDerivAt
  · simp only [ofEntries, entryMoves, dif_neg hin]
    exact hasFDerivAt_const 0 x

theorem along_entryMoves (arg : Index s heads → ArgIndex s) :
    Oracle.along (entryMoves arg) δ = ofEntries fun p => δ (arg p) := by
  funext b h i c
  unfold Oracle.along entryMoves ofEntries
  split <;> rfl

/-- The pairing of two arrays is the sum over their entries. -/
theorem pair_eq_sum (y z : Tensor ℝ) :
    Oracle.pair s heads y z = ∑ p : Index s heads, entries s heads y p * entries s heads z p := by
  unfold Oracle.pair entries
  simp only [Fintype.sum_prod_type, Finset.sum_range]

end Entries

/-! ## The backward -/

section Backward
variable {s : Shape} {scale : ℝ} {causal : Bool} {segments : Option (ℕ → ℕ → ℤ)}

theorem keys_nonempty {b i : ℕ} (hi : i < s.n) : (Oracle.keys s (keeps causal segments) b i).Nonempty :=
  ⟨i, Oracle.mem_keys.2 ⟨hi, keeps_self causal segments b i⟩⟩

/-- The attention is real at all its arguments, whose entries are the output's values. -/
theorem attentionEntries_eq (hgroup : s.hkv ∣ s.hq) (hcausal : segments.isSome → causal = true) (x : ArgIndex s → ℝ) :
    (∃ o, mathAttention s (qOf x) (kOf x) (vOf x) scale causal segments = .ok o ∧
      ∀ p, entries s s.hq o p = real (attentionEntries s scale causal segments x p)) ∧
    attentionEntries s scale causal segments x =
      entries s s.hq (Oracle.out s (qOf x) (kOf x) (vOf x) scale (keeps causal segments)) := by
  obtain ⟨res, -, hmath, ho, -⟩ := @referencePass_real s (qOf x) (kOf x) (vOf x) 0 scale causal segments hgroup hcausal
    fun b i hi => keys_nonempty hi
  have hentries : attentionEntries s scale causal segments x =
      entries s s.hq (Oracle.out s (qOf x) (kOf x) (vOf x) scale (keeps causal segments)) := by
    unfold attentionEntries
    rw [hmath]
    funext p
    exact congrArg XReal.toReal (ho p.1 p.2.1 p.2.2.1 p.2.2.2 p.2.2.1.2)
  refine ⟨⟨res.o, hmath, fun p => ?_⟩, hentries⟩
  rw [hentries]
  exact ho p.1 p.2.1 p.2.2.1 p.2.2.2 p.2.2.1.2

/-- An entry of the output moves with the entries of the arguments. -/
theorem hasFDerivAt_entry (x : ArgIndex s → ℝ) (p : Index s s.hq) : ∃ out' : (ArgIndex s → ℝ) →L[ℝ] ℝ,
    HasFDerivAt (fun x : ArgIndex s → ℝ => entries s s.hq
      (Oracle.out s (qOf x) (kOf x) (vOf x) scale (keeps causal segments)) p) out' x ∧
    ∀ δ, out' δ = entries s s.hq
      (Oracle.moveOut s (qOf x) (kOf x) (vOf x) (qOf δ) (kOf δ) (vOf δ) scale (keeps causal segments)) p := by
  obtain ⟨out', hout, hmove⟩ := @Oracle.hasFDerivAt_out _ _ _ s qOf kOf vOf _ _ _ x scale (keeps causal segments)
    p.1 p.2.1 p.2.2.1 p.2.2.2 (moves_ofEntries Sum.inl) (moves_ofEntries fun p => .inr (.inl p))
    (moves_ofEntries fun p => .inr (.inr p)) (keys_nonempty p.2.2.1.2)
  refine ⟨out', hout, fun δ => ?_⟩
  rw [hmove, along_entryMoves, along_entryMoves, along_entryMoves]
  rfl

end Backward

/-- The backward returns the vector-Jacobian product of `math_attention` with
respect to `q`, `k` and `v`, all of it real. -/
theorem flash_attention_vjp (s : Shape) (scale : ℝ) (causal : Bool) (segments : Option (ℕ → ℕ → ℤ))
    (hgroup : s.hkv ∣ s.hq) (hcausal : segments.isSome → causal = true) (x : ArgIndex s → ℝ)
    (dO : Index s s.hq → ℝ) :
    (∀ y : ArgIndex s → ℝ, ∃ o, mathAttention s (qOf y) (kOf y) (vOf y) scale causal segments = .ok o ∧
      ∀ p, entries s s.hq o p = real (attentionEntries s scale causal segments y p)) ∧
    ∃ res g, referencePass s (qOf x) (kOf x) (vOf x) (ofEntries dO) scale causal segments = .ok res ∧
      (∀ p, gradEntries s res.grads p = real (g p)) ∧
      IsVjp (attentionEntries s scale causal segments) x dO g := by
  refine ⟨fun y => (attentionEntries_eq hgroup hcausal y).1, ?_⟩
  obtain ⟨res, hpass, -, -, hdQ, hdK, hdV⟩ := @referencePass_real s (qOf x) (kOf x) (vOf x) (ofEntries dO) scale causal
    segments hgroup hcausal fun b i hi => keys_nonempty hi
  let keep := keeps causal segments
  let gQ := Oracle.gradQ s (qOf x) (kOf x) (vOf x) (ofEntries dO) scale keep
  let gK := Oracle.gradK s (qOf x) (kOf x) (vOf x) (ofEntries dO) scale keep
  let gV := Oracle.gradV s (qOf x) (kOf x) (ofEntries dO) scale keep
  refine ⟨res, Sum.elim (entries s s.hq gQ) (Sum.elim (entries s s.hkv gK) (entries s s.hkv gV)), hpass, ?_, ?_⟩
  · rintro (p | p | p)
    · exact hdQ p.1 p.2.1 p.2.2.1 p.2.2.2 p.2.2.1.2
    · exact hdK p.1 p.2.1 p.2.2.1 p.2.2.2
    · exact hdV p.1 p.2.1 p.2.2.1 p.2.2.2
  · choose out' hout hmove using @hasFDerivAt_entry s scale causal segments x
    have hfun : attentionEntries s scale causal segments = fun x => entries s s.hq
        (Oracle.out s (qOf x) (kOf x) (vOf x) scale keep) := funext fun y => (attentionEntries_eq hgroup hcausal y).2
    refine ⟨ContinuousLinearMap.pi out', hfun ▸ hasFDerivAt_pi.2 hout, fun δ => ?_⟩
    have hpair := @Oracle.pair_moveOut s (qOf x) (kOf x) (vOf x) (ofEntries dO) (qOf δ) (kOf δ) (vOf δ) scale keep hgroup
    simp only [pair_eq_sum, entries_ofEntries, entries_qOf, entries_kOf, entries_vOf] at hpair
    simp only [Fintype.sum_sum_type, Sum.elim_inl, Sum.elim_inr, ContinuousLinearMap.coe_pi', hmove]
    exact hpair

/-- Two positions, and two q-heads on one kv head. -/
def pairShape : Shape := ⟨2, 1, 1, 2, 1⟩

/-- The arguments whose entries are all 1. -/
noncomputable def onesArg : ArgIndex pairShape → ℝ := fun _ => 1

theorem flash_attention_vjp_pair : ∃ res g,
    referencePass pairShape (qOf onesArg) (kOf onesArg) (vOf onesArg) (ofEntries fun p => onesArg (.inl p)) 1 true none =
      .ok res ∧
    (∀ p, gradEntries pairShape res.grads p = real (g p)) ∧
    IsVjp (attentionEntries pairShape 1 true none) onesArg (fun p => onesArg (.inl p)) g :=
  (flash_attention_vjp pairShape 1 true none (by decide) (fun _ => rfl) onesArg fun p => onesArg (.inl p)).2

end MlxTrainPerf.Attention
