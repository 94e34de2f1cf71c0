import MlxTrainPerf.Attention.Kernel.BackwardRun
/-!
# The scalar kernels' arithmetic

`_FWD_TEMPLATE`, `_BWD_DQ_TEMPLATE`, `_BWD_DKV_TEMPLATE` and `_BWD_D_TEMPLATE`
over exact reals: one thread a row, or a key, that visits the keys, or the
queries, one by one. They clamp nothing and leave no loop early, so they assume
nothing of the segment ids.
-/
open Loops XReal OnlineSoftmax

namespace MlxTrainPerf.Attention.Kernel

namespace Scalar

/-- `KEEP_CMP` of the query-major bodies. -/
def keepRow (f : Flags) (segId : ℕ → ℤ) (row kk : ℕ) : Bool :=
  causalKeep f row kk && (!f.packed || sameSegment f (segId kk) (segId row))

/-- `KEEP_CMP` of the key-major body. -/
def keepKey (f : Flags) (segId : ℕ → ℤ) (i key : ℕ) : Bool :=
  causalKeep f i key && (!f.packed || sameSegment f (segId i) (segId key))

noncomputable section

/-- `for (uint dd = 0; dd < HEAD_DIM; ++dd) { s += x[dd] * y[dd]; }`. -/
def dot (headDim : ℕ) (x y : ℕ → ℝ) : XReal := ∑ dd ∈ Finset.range headDim, real (x dd) * real (y dd)

/-! ## The forward -/

structure FwdRow where
  m : XReal
  l : XReal
  acc : ℕ → XReal

section Forward
variable (f : Flags) (headDim : ℕ) (x : FwdArgs) (b h row : ℕ)

/-- A key that is kept. -/
def fwdStep (st : FwdRow) (kk : ℕ) : FwdRow :=
  let score := dot headDim (x.q b h row) (kvGather x.s x.k b h kk) * real x.scale
  let mNew := st.m.max score
  let alpha := (st.m - mNew).exp
  let p := (score - mNew).exp
  { m := mNew
    l := st.l * alpha + p
    acc := fun dd => st.acc dd * alpha + p * real (kvGather x.s x.v b h kk dd) }

def fwdRow : FwdRow :=
  (List.range x.s.n).foldl (fun st kk => if keepRow f (x.segId b) row kk then fwdStep headDim x b h row st kk else st)
    ⟨negInf, 0, fun _ => 0⟩

/-- A row of `o_out`. -/
def oRow : List XReal :=
  let st := fwdRow f headDim x b h row
  (List.range headDim).map fun dd => st.acc dd * st.l.recip

/-- An entry of `l_out`. -/
def lRow : XReal :=
  let st := fwdRow f headDim x b h row
  st.m + st.l.log

end Forward

/-- `launch_flash_fwd` over `ranges` with the scalar body, for one (batch, q-head). -/
def launchFlashFwd (f : Flags) (headDim : ℕ) (x : FwdArgs) (b h : ℕ) (ranges : List (ℕ × ℕ)) :
    List (List XReal) × List XReal :=
  (ranges.flatMap fun r => (List.range (r.2 - r.1)).map fun i => oRow f headDim x b h (r.1 + i),
    ranges.flatMap fun r => (List.range (r.2 - r.1)).map fun i => lRow f headDim x b h (r.1 + i))

/-! ## D -/

/-- `_BWD_D_TEMPLATE`: a lane's strided part, and `simd_sum`. -/
def bwdDRow (headDim : ℕ) (dO : ℕ → ℝ) (o : ℕ → XReal) : XReal :=
  ∑ lane ∈ Finset.range 32, (steps 32 lane headDim).foldl (fun part i => part + real (dO i) * o i) 0

/-- `launch_bwd_D`. -/
def launchBwdD (s : Launch.Shape) (dO : Tensor ℝ) (o : Tensor XReal) : RowTensor XReal :=
  fun b h row => bwdDRow s.d (dO b h row) (o b h row)

/-! ## dQ -/

section Dq
variable (f : Flags) (headDim : ℕ) (x : BwdArgs) (b h row : ℕ)

/-- A key that is kept. -/
def dqStep (dq : ℕ → XReal) (kk : ℕ) : ℕ → XReal :=
  let p := (dot headDim (x.q b h row) (kvGather x.s x.k b h kk) * real x.scale - x.lse b h row).exp
  let dp := dot headDim (x.dO b h row) (kvGather x.s x.v b h kk)
  let sds := real x.scale * p * (dp - x.dArr b h row)
  fun dd => dq dd + sds * real (kvGather x.s x.k b h kk dd)

def dqRow : ℕ → XReal :=
  (List.range x.s.n).foldl (fun dq kk => if keepRow f (x.segId b) row kk then dqStep headDim x b h row dq kk else dq)
    fun _ => 0

end Dq

/-- `launch_bwd_dq` over `ranges` with the scalar body. -/
def launchBwdDq (f : Flags) (headDim : ℕ) (x : BwdArgs) (b h : ℕ) (ranges : List (ℕ × ℕ)) : List (List XReal) :=
  ranges.flatMap fun r => (List.range (r.2 - r.1)).map fun i =>
    (List.range headDim).map fun dd => dqRow f headDim x b h (r.1 + i) dd

/-! ## dK and dV -/

/-- The accumulators of an owner key. -/
structure OwnerRow where
  dk : ℕ → XReal
  dv : ℕ → XReal

section Dkv
variable (f : Flags) (headDim : ℕ) (x : BwdArgs) (b kvh key : ℕ)

/-- A query that is kept, of one q-head. -/
def dkvStep (i : ℕ) (acc : OwnerRow) (h : ℕ) : OwnerRow :=
  let p := (dot headDim (x.q b h i) (x.k b kvh key) * real x.scale - x.lse b h i).exp
  let dp := dot headDim (x.dO b h i) (x.v b kvh key)
  let sds := real x.scale * p * (dp - x.dArr b h i)
  { dv := fun dd => acc.dv dd + p * real (x.dO b h i dd)
    dk := fun dd => acc.dk dd + sds * real (x.q b h i dd) }

/-- `for (uint i = q_lo; i < q_hi; ++i)`, on top of the incoming partials. -/
def ownerRow (qLo qHi : ℕ) (bufs : DkvBufs) : OwnerRow :=
  (List.range' qLo (qHi - qLo)).foldl (fun acc i =>
      if keepKey f (x.segId b) i key then (groupHeads x.s kvh).foldl (dkvStep headDim x b kvh key i) acc else acc)
    ⟨fun dd => bufs.dk (key, dd), fun dd => bufs.dv (key, dd)⟩

/-- `_dispatch_bwd_dkv_range` with the scalar body. -/
def dispatchBwdDkv (qLo qHi : ℕ) (bufs mem : DkvBufs) : DkvBufs where
  dk := fun p => if p.1 < x.s.n ∧ p.2 < headDim then (ownerRow f headDim x b kvh p.1 qLo qHi bufs).dk p.2 else mem.dk p
  dv := fun p => if p.1 < x.s.n ∧ p.2 < headDim then (ownerRow f headDim x b kvh p.1 qLo qHi bufs).dv p.2 else mem.dv p

end Dkv

/-- `launch_bwd_dkv` over `ranges` with the scalar body. -/
def launchBwdDkv (f : Flags) (headDim : ℕ) (x : BwdArgs) (b kvh : ℕ) (ranges : List (ℕ × ℕ)) (mem : ℕ × ℕ → DkvBufs) :
    DkvBufs :=
  ranges.foldl (fun bufs r => dispatchBwdDkv f headDim x b kvh r.1 r.2 bufs (mem r)) zeroBufs

end

/-! ## What they keep -/

/-- A shipped body and the mask it is launched with: any ids will do. -/
inductive Mask (f : Flags) (x : FwdArgs) : Option (ℕ → ℕ → ℤ) → Prop
  | causal (hflags : f = causalFlags) : Mask f x none
  | packed (hflags : f = packedFlags) : Mask f x (some x.segId)

section Masks
variable {f : Flags} {x : FwdArgs} {b row kk key : ℕ} {segments : Option (ℕ → ℕ → ℤ)}

theorem keepRow_mask (hmask : Mask f x segments) : keepRow f (x.segId b) row kk = keeps true segments b row kk := by
  cases hmask with
  | causal hflags =>
    rw [hflags]
    simp [keepRow, causalKeep, causalFlags, keeps]
  | packed hflags =>
    have hsegment : keeps true (some x.segId) b row kk = segmentAllowed (x.segId b) row kk := rfl
    rw [hflags, hsegment, Bool.eq_iff_iff, segmentAllowed_iff]
    simp only [keepRow, causalKeep, packedFlags, sameSegment, Bool.not_true, Bool.false_eq_true, if_false, Bool.false_or,
      Bool.and_eq_true, decide_eq_true_eq, beq_iff_eq]
    exact ⟨fun h => ⟨h.2.symm, h.1⟩, fun h => ⟨h.2, h.1.symm⟩⟩

theorem keepKey_mask (hmask : Mask f x segments) : keepKey f (x.segId b) row key = keeps true segments b row key := by
  cases hmask with
  | causal hflags =>
    rw [hflags]
    simp [keepKey, causalKeep, causalFlags, keeps]
  | packed hflags =>
    have hsegment : keeps true (some x.segId) b row key = segmentAllowed (x.segId b) row key := rfl
    rw [hflags, hsegment, Bool.eq_iff_iff, segmentAllowed_iff]
    simp [keepKey, causalKeep, packedFlags, sameSegment, and_comm]

end Masks

theorem dot_eq (d : ℕ) (x y : ℕ → ℝ) : dot d x y = real (∑ c ∈ Finset.range d, x c * y c) := sum_real fun _ _ => rfl

/-- A loop over `[a, a + k)` that skips what it does not keep. -/
theorem foldl_range'_holds {σ : Type} {P : Finset ℕ → σ → Prop} {keep : ℕ → Bool} {step : σ → ℕ → σ} {st : σ} (a k : ℕ)
    (h0 : P ∅ st) (hstep : ∀ S st j, a ≤ j → j < a + k → j ∉ S → keep j = true → P S st → P (insert j S) (step st j)) :
    P ((Finset.Ico a (a + k)).filter fun j => keep j = true)
      ((List.range' a k).foldl (fun st j => if keep j then step st j else st) st) := by
  induction k with
  | zero =>
    rw [Nat.add_zero, Finset.Ico_self, Finset.filter_empty]
    exact h0
  | succ k ih =>
    have hheld := ih fun S st j hlo hhi => hstep S st j hlo (by omega)
    have hnot : a + k ∉ (Finset.Ico a (a + k)).filter fun j => keep j = true := by simp
    rw [List.range'_1_concat, List.foldl_append, List.foldl_cons, List.foldl_nil, ← Nat.add_assoc,
      ← Finset.insert_Ico_right_eq_Ico_add_one (Nat.le_add_right a k), Finset.filter_insert]
    split
    · next hkeep => exact hstep _ _ (a + k) (by omega) (by omega) hnot hkeep hheld
    · exact hheld

/-- A loop over `[0, n)` that skips what it does not keep. -/
theorem foldl_range_holds {σ : Type} {P : Finset ℕ → σ → Prop} {keep : ℕ → Bool} {step : σ → ℕ → σ} {st : σ} (n : ℕ)
    (h0 : P ∅ st) (hstep : ∀ S st j, j ∉ S → keep j = true → P S st → P (insert j S) (step st j)) :
    P ((Finset.range n).filter fun j => keep j = true)
      ((List.range n).foldl (fun st j => if keep j then step st j else st) st) := by
  have hall := foldl_range'_holds 0 n h0 fun S st j _ _ => hstep S st j
  rwa [Nat.zero_add, ← Finset.range_eq_Ico, ← List.range_eq_range'] at hall

/-! ## The forward returns the softmax -/

section Forward
variable {f : Flags} {headDim : ℕ} {x : FwdArgs} {b h row : ℕ} {segments : Option (ℕ → ℕ → ℤ)} {S : Finset ℕ}

/-- What a row's thread holds once the keys `S` are in. -/
structure RowHolds (x : FwdArgs) (b h row : ℕ) (S : Finset ℕ) (st : FwdRow) : Prop where
  m : st.m = peak S (Fwd.rowScore x b h row)
  l : st.l = real (total S (Fwd.rowScore x b h row) fun _ => 1)
  acc : ∀ c, st.acc c = real (total S (Fwd.rowScore x b h row) fun kk => kvGather x.s x.v b h kk c)

theorem fwdStep_holds {st : FwdRow} {kk : ℕ} (hd : headDim = x.s.d) (hkk : kk ∉ S) (hheld : RowHolds x b h row S st) :
    RowHolds x b h row (insert kk S) (fwdStep headDim x b h row st kk) := by
  have hdisj : Disjoint S {kk} := Finset.disjoint_singleton_right.2 hkk
  have hunion : S ∪ {kk} = insert kk S := by rw [Finset.union_comm, ← Finset.insert_eq]
  obtain ⟨a, hfactor, htotal⟩ := @total_union _ _ _ (Fwd.rowScore x b h row) _ false hdisj
    (Or.inr ⟨kk, Finset.mem_union_right S (Finset.mem_singleton_self kk)⟩)
  simp only [Finset.sum_singleton, hunion] at htotal
  have hscore : dot headDim (x.q b h row) (kvGather x.s x.k b h kk) * real x.scale = real (Fwd.rowScore x b h row kk) := by
    rw [dot_eq, hd]
    rfl
  have hmNew : st.m.max (real (Fwd.rowScore x b h row kk)) = peak (insert kk S) (Fwd.rowScore x b h row) := by
    rw [hheld.m, ← peak_singleton, peak_union, hunion]
  have halpha : (st.m - peak (insert kk S) (Fwd.rowScore x b h row)).exp = real a := by
    rw [← hfactor, hheld.m, hunion]
    rfl
  have hp : (real (Fwd.rowScore x b h row kk) - peak (insert kk S) (Fwd.rowScore x b h row)).exp =
      real (Real.exp (Fwd.rowScore x b h row kk - shift (insert kk S) (Fwd.rowScore x b h row))) := by
    rw [peak_of_nonempty (Finset.insert_nonempty kk S)]
    rfl
  unfold fwdStep
  dsimp only
  rw [hscore, hmNew, halpha, hp]
  constructor
  · rfl
  · dsimp only
    rw [hheld.l, real_mul_real, real_add_real, ← htotal, mul_one]
  · intro c
    dsimp only
    rw [hheld.acc, real_mul_real, real_mul_real, real_add_real, ← htotal]

theorem fwdRow_holds (hmask : Mask f x segments) (hd : headDim = x.s.d) :
    RowHolds x b h row (maskKeys x b segments row) (fwdRow f headDim x b h row) := by
  have hkeep : ∀ kk, keepRow f (x.segId b) row kk = keeps true segments b row kk := fun kk => keepRow_mask hmask
  unfold fwdRow
  simp only [hkeep]
  refine foldl_range_holds (P := RowHolds x b h row) x.s.n ?_ fun S st kk hkk _ => fwdStep_holds hd hkk
  exact ⟨rfl, rfl, fun _ => rfl⟩

/-- The scalar launch over any cut of the rows. -/
theorem launchFlashFwd_eq {ranges : List (ℕ × ℕ)} (hmask : Mask f x segments) (hd : headDim = x.s.d)
    (hranges : Tiles 0 x.s.n ranges) : launchFlashFwd f headDim x b h ranges =
      ((List.range x.s.n).map fun row => (List.range x.s.d).map fun c =>
          real (Fwd.rowOut x b h (maskKeys x b segments) row c),
        (List.range x.s.n).map fun row => real (Fwd.rowLse x b h (maskKeys x b segments) row)) := by
  have hrows : ∀ {α : Type} (g : ℕ → α), (ranges.flatMap fun r => (List.range (r.2 - r.1)).map fun i => g (r.1 + i)) =
      (List.range x.s.n).map g := by
    intro α g
    rw [hranges.flatMap_rows, Nat.sub_zero]
    simp only [Nat.zero_add]
  unfold launchFlashFwd
  rw [hrows, hrows]
  refine congrArg₂ Prod.mk (List.map_congr_left fun row hrow => ?_) (List.map_congr_left fun row hrow => ?_)
  · have hheld := @fwdRow_holds f headDim x b h row segments hmask hd
    have hne : (maskKeys x b segments row).Nonempty := ⟨row, self_mem_maskKeys (List.mem_range.1 hrow)⟩
    unfold oRow
    dsimp only
    rw [hd]
    apply List.map_congr_left
    intro c _
    rw [← hd, hheld.acc, hheld.l, recip_real (total_pos hne).ne', real_mul_real, total_mul_inv]
    rfl
  · have hheld := @fwdRow_holds f headDim x b h row segments hmask hd
    have hne : (maskKeys x b segments row).Nonempty := ⟨row, self_mem_maskKeys (List.mem_range.1 hrow)⟩
    unfold lRow
    dsimp only
    rw [hheld.m, hheld.l, peak_of_nonempty hne, log_real (total_pos hne), real_add_real, shift_add_log hne]
    rfl

end Forward

/-! ## The backward returns the same sums -/

theorem launchBwdD_eq {s : Launch.Shape} {dO : Tensor ℝ} {o : Tensor XReal} {b h row : ℕ} {y : ℕ → ℝ}
    (ho : ∀ c < s.d, o b h row c = real (y c)) :
    launchBwdD s dO o b h row = real (∑ c ∈ Finset.range s.d, dO b h row c * y c) := by
  have hpart : ∀ lane ∈ Finset.range 32, (steps 32 lane s.d).foldl (fun part i => part + real (dO b h row i) * o b h row i) 0 =
      ((steps 32 lane s.d).map fun i => real (dO b h row i) * o b h row i).sum := by
    intro lane _
    rw [List.sum_eq_foldl, List.foldl_map]
  unfold launchBwdD bwdDRow
  rw [Finset.sum_congr rfl hpart, sum_lanes (by decide)]
  apply sum_real
  intro c hc
  rw [ho c (Finset.mem_range.1 hc), real_mul_real]

section Dq
variable {f : Flags} {headDim : ℕ} {x : BwdArgs} {b h row : ℕ} {segments : Option (ℕ → ℕ → ℤ)} {L D : ℕ → ℝ}

/-- What a key adds to its query's row. -/
theorem dqStep_eq {dq : ℕ → XReal} {z : ℕ → ℝ} {kk c : ℕ} (hd : headDim = x.s.d) (hres : Residuals x b h L D)
    (hrow : row < x.s.n) (hdq : dq c = real (z c)) : dqStep headDim x b h row dq kk c =
      real (z c + pairDs x b h L D row kk * kvGather x.s x.k b h kk c) := by
  unfold dqStep
  rw [dot_eq, dot_eq, hd, hres.lse row hrow, hres.dArr row hrow, hdq]
  rfl

theorem dqRow_eq (hmask : Mask f x.toFwdArgs segments) (hd : headDim = x.s.d) (hres : Residuals x b h L D)
    (hrow : row < x.s.n) (c : ℕ) : dqRow f headDim x b h row c = real (BwdDq.rowGrad x b h segments L D row c) := by
  have hkeep : ∀ kk, keepRow f (x.segId b) row kk = keeps true segments b row kk := fun kk => keepRow_mask hmask
  unfold dqRow
  simp only [hkeep]
  refine foldl_range_holds (P := fun S (dq : ℕ → XReal) => dq c = real (∑ kk ∈ S, pairDs x b h L D row kk * kvGather x.s x.k b h kk c))
    x.s.n rfl fun S dq kk hkk _ hdq => ?_
  rw [dqStep_eq (z := fun c => ∑ kk ∈ S, pairDs x b h L D row kk * kvGather x.s x.k b h kk c) hd hres hrow hdq,
    Finset.sum_insert hkk, add_comm]

theorem launchBwdDq_eq {ranges : List (ℕ × ℕ)} (hmask : Mask f x.toFwdArgs segments) (hd : headDim = x.s.d)
    (hres : Residuals x b h L D) (hranges : Tiles 0 x.s.n ranges) : launchBwdDq f headDim x b h ranges =
      (List.range x.s.n).map fun row => (List.range x.s.d).map fun c => real (BwdDq.rowGrad x b h segments L D row c) := by
  unfold launchBwdDq
  rw [hranges.flatMap_rows (fun row => (List.range headDim).map fun dd => dqRow f headDim x b h row dd), Nat.sub_zero]
  apply List.map_congr_left
  intro row hrow
  rw [Nat.zero_add, hd]
  apply List.map_congr_left
  intro c _
  rw [← hd, dqRow_eq hmask hd hres (List.mem_range.1 hrow)]

end Dq

section Dkv
variable {f : Flags} {headDim : ℕ} {x : BwdArgs} {b kvh key qLo qHi i h : ℕ} {L D : ℕ → ℕ → ℝ} {zV zK : ℕ → ℝ} {acc : OwnerRow}

/-- What an owner holds, by column. -/
structure OwnerHolds (d : ℕ) (zV zK : ℕ → ℝ) (acc : OwnerRow) : Prop where
  dv : ∀ c < d, acc.dv c = real (zV c)
  dk : ∀ c < d, acc.dk c = real (zK c)

theorem OwnerHolds.congr {d : ℕ} {zV' zK' : ℕ → ℝ} (hheld : OwnerHolds d zV zK acc) (hV : ∀ c, zV c = zV' c)
    (hK : ∀ c, zK c = zK' c) : OwnerHolds d zV' zK' acc := by
  obtain rfl := funext hV
  obtain rfl := funext hK
  exact hheld

section Owner
variable (hd : headDim = x.s.d) (hres : ∀ h ∈ groupHeads x.s kvh, Residuals x b h (L h) (D h))
include hd hres

theorem dkvStep_holds (hh : h ∈ groupHeads x.s kvh) (hi : i < x.s.n) (hheld : OwnerHolds x.s.d zV zK acc) :
    OwnerHolds x.s.d (fun c => zV c + BwdDkv.addV x b h key (L h) {i} c)
      (fun c => zK c + BwdDkv.addK x b h key (L h) (D h) {i} c) (dkvStep headDim x b kvh key i acc h) := by
  have hk : ∀ c, x.k b kvh key c = kvGather x.s x.k b h key c := by
    intro c
    unfold kvGather
    rw [kvHeadFor_of_group hh]
  have hv : ∀ c, x.v b kvh key c = kvGather x.s x.v b h key c := by
    intro c
    unfold kvGather
    rw [kvHeadFor_of_group hh]
  unfold dkvStep
  dsimp only
  rw [dot_eq, dot_eq, hd, (hres h hh).lse i hi, (hres h hh).dArr i hi]
  simp only [hk, hv]
  constructor
  · intro c hc
    dsimp only
    rw [hheld.dv c hc]
    unfold BwdDkv.addV
    rw [Finset.sum_singleton]
    rfl
  · intro c hc
    dsimp only
    rw [hheld.dk c hc]
    unfold BwdDkv.addK
    rw [Finset.sum_singleton]
    rfl

theorem foldl_dkvStep_holds {hs : List ℕ} (hsub : ∀ h ∈ hs, h ∈ groupHeads x.s kvh) (hi : i < x.s.n)
    (hheld : OwnerHolds x.s.d zV zK acc) :
    OwnerHolds x.s.d (fun c => zV c + (hs.map fun h => BwdDkv.addV x b h key (L h) {i} c).sum)
      (fun c => zK c + (hs.map fun h => BwdDkv.addK x b h key (L h) (D h) {i} c).sum)
      (hs.foldl (dkvStep headDim x b kvh key i) acc) := by
  induction hs generalizing zV zK acc with
  | nil => exact hheld.congr (fun c => (add_zero _).symm) fun c => (add_zero _).symm
  | cons h hs ih =>
    have hstep : OwnerHolds x.s.d (fun c => zV c + BwdDkv.addV x b h key (L h) {i} c)
        (fun c => zK c + BwdDkv.addK x b h key (L h) (D h) {i} c) (dkvStep headDim x b kvh key i acc h) :=
      dkvStep_holds hd hres (hsub h List.mem_cons_self) hi hheld
    have hrest := ih (fun h' hh' => hsub h' (List.mem_cons_of_mem h hh')) hstep
    apply hrest.congr
    · exact fun c => by rw [List.map_cons, List.sum_cons, add_assoc]
    · exact fun c => by rw [List.map_cons, List.sum_cons, add_assoc]

/-- The query loop adds the queries of the dispatch the key keeps. -/
theorem ownerRow_holds {bufs : DkvBufs} (hhi : qHi ≤ x.s.n) (hkey : key < x.s.n)
    (hdv : ∀ c < x.s.d, bufs.dv (key, c) = real (zV c)) (hdk : ∀ c < x.s.d, bufs.dk (key, c) = real (zK c)) :
    OwnerHolds x.s.d (fun c => zV c + BwdDkv.groupV x b kvh key L (BwdDkv.keptQueries f x b qHi qLo key) c)
      (fun c => zK c + BwdDkv.groupK x b kvh key L D (BwdDkv.keptQueries f x b qHi qLo key) c)
      (ownerRow f headDim x b kvh key qLo qHi bufs) := by
  have hseed : OwnerHolds x.s.d (fun c => zV c + BwdDkv.groupV x b kvh key L ∅ c)
      (fun c => zK c + BwdDkv.groupK x b kvh key L D ∅ c) ⟨fun dd => bufs.dk (key, dd), fun dd => bufs.dv (key, dd)⟩ := by
    simp only [BwdDkv.groupV_empty, BwdDkv.groupK_empty, add_zero]
    exact ⟨hdv, hdk⟩
  have hkeep : ∀ i, Kernel.keepKey f (x.segId b) x.s.n i key = keepKey f (x.segId b) i key := by
    intro i
    have hclamp : min key (x.s.n - 1) = key := by omega
    unfold Kernel.keepKey keepKey
    rw [hclamp]
  let P := fun S acc => OwnerHolds x.s.d (fun c => zV c + BwdDkv.groupV x b kvh key L S c)
    (fun c => zK c + BwdDkv.groupK x b kvh key L D S c) acc
  have hstep : ∀ S acc i, qLo ≤ i → i < qLo + (qHi - qLo) → i ∉ S → keepKey f (x.segId b) i key = true → P S acc →
      P (insert i S) ((groupHeads x.s kvh).foldl (dkvStep headDim x b kvh key i) acc) := by
    intro S acc i hlo hi hnot _ hheld
    have hdisj : Disjoint S {i} := Finset.disjoint_singleton_right.2 hnot
    have hunion : insert i S = S ∪ {i} := by rw [Finset.union_comm, ← Finset.insert_eq]
    have hheads := @foldl_dkvStep_holds headDim x b kvh key i L D _ _ _ hd hres _ (fun _ hh => hh) (by omega) hheld
    apply hheads.congr
    · intro c
      rw [hunion, BwdDkv.groupV_union hdisj, ← add_assoc, sum_groupHeads]
      rfl
    · intro c
      rw [hunion, BwdDkv.groupK_union hdisj, ← add_assoc, sum_groupHeads]
      rfl
  have hloop := foldl_range'_holds qLo (qHi - qLo) hseed hstep
  have hset : BwdDkv.keptQueries f x b qHi qLo key =
      (Finset.Ico qLo (qLo + (qHi - qLo))).filter fun i => keepKey f (x.segId b) i key = true := by
    ext i
    rw [BwdDkv.mem_keptQueries, Finset.mem_filter, Finset.mem_Ico, hkeep]
    refine and_congr_left fun _ => ?_
    omega
  rw [hset]
  exact hloop

end Owner

/-- A dispatch adds its range's queries to every key, whatever the fresh buffers held. -/
theorem dispatchBwdDkv_adds {r : ℕ × ℕ} (hd : headDim = x.s.d) (hhi : r.2 ≤ x.s.n)
    (hres : ∀ h ∈ groupHeads x.s kvh, Residuals x b h (L h) (D h)) (mem : DkvBufs) :
    BwdDkv.AddsRange f x b kvh L D r fun bufs => dispatchBwdDkv f headDim x b kvh r.1 r.2 bufs mem := by
  intro zV zK bufs hheld
  have howner := fun key (hkey : key < x.s.n) => @ownerRow_holds f headDim x b kvh key r.1 r.2 L D (zV key) (zK key) hd hres
    bufs hhi hkey (hheld.dv key hkey) (hheld.dk key hkey)
  constructor
  · intro key hkey c hc
    dsimp only [dispatchBwdDkv]
    rw [if_pos ⟨hkey, hd.symm ▸ hc⟩]
    exact (howner key hkey).dv c hc
  · intro key hkey c hc
    dsimp only [dispatchBwdDkv]
    rw [if_pos ⟨hkey, hd.symm ▸ hc⟩]
    exact (howner key hkey).dk c hc

/-- The scalar dK/dV launch over any cut of the queries. -/
theorem launchBwdDkv_eq {ranges : List (ℕ × ℕ)} (hd : headDim = x.s.d)
    (hres : ∀ h ∈ groupHeads x.s kvh, Residuals x b h (L h) (D h)) (hranges : Tiles 0 x.s.n ranges)
    (mem : ℕ × ℕ → DkvBufs) :
    BwdDkv.BufsHold x (fun key c => BwdDkv.groupV x b kvh key L (BwdDkv.queriesFrom f x b 0 key) c)
      (fun key c => BwdDkv.groupK x b kvh key L D (BwdDkv.queriesFrom f x b 0 key) c)
      (launchBwdDkv f headDim x b kvh ranges mem) :=
  BwdDkv.chain_from_zeros hranges fun r hr => dispatchBwdDkv_adds hd (hranges.bounds hr).2.2 hres (mem r)

end Dkv

end Scalar

end MlxTrainPerf.Attention.Kernel
