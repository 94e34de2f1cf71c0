import MlxTrainPerf.Attention.FlashForward
import MlxTrainPerf.Attention.Kernel.Backward
/-!
# What a backward launch accumulates

The register files of the two backward bodies, followed at one element: a key
block adds to `C_dq` the keys it keeps for the row, a query block adds to `C_dk`
and `C_dv` the queries it keeps for the key. What a launch returns is then a sum
over the kept keys of a row (`launchBwdDq_eq`), or over the kept queries of a key
(`launchBwdDkv_eq`), however it was cut into dispatches.
-/
open Loops Simdgroup XReal OnlineSoftmax

namespace MlxTrainPerf.Attention.Kernel

open Packing

/-! ## Values -/

/-- The residuals of a head are the real numbers `L` and `D`. -/
structure Residuals (x : BwdArgs) (b h : ℕ) (L D : ℕ → ℝ) : Prop where
  lse : ∀ i < x.s.n, x.lse b h i = real (L i)
  dArr : ∀ i < x.s.n, x.dArr b h i = real (D i)

noncomputable section

/-- The probability of a kept key. -/
def pairP (x : BwdArgs) (b h : ℕ) (L : ℕ → ℝ) (i j : ℕ) : ℝ :=
  Real.exp (Oracle.score x.s x.q x.k x.scale b h i j - L i)

/-- The scaled score gradient of a kept key. -/
def pairDs (x : BwdArgs) (b h : ℕ) (L D : ℕ → ℝ) (i j : ℕ) : ℝ :=
  x.scale * pairP x b h L i j * (Oracle.dot x.s x.dO x.v b h i j - D i)

end

/-! ## dQ -/

namespace BwdDq

section Row
variable {src : FwdSource} {x : BwdArgs} {b h rowBase slab0 kb0 rt ct dt lane e i : ℕ} {L D : ℕ → ℝ} {S : Finset ℕ}
  {cDq : ℕ → ℕ → Frag}

theorem qRow_eq (hrow : Fwd.StoredRow src x.toFwdArgs rowBase rt i) : qRow x rowBase rt i = rowBase + 8 * rt + i := by
  have := hrow.row_lt
  unfold qRow
  omega

/-- The score gradient a column takes: 0 where the key is masked. -/
noncomputable def colDs (src : FwdSource) (x : BwdArgs) (b h kb0 : ℕ) (L D : ℕ → ℝ) (row kk : ℕ) : ℝ :=
  if keepInBlock src.flags (x.segId b) x.s.n kb0 row kk then pairDs x b h L D row kk else 0

theorem dsTile_eq (hrow : Fwd.StoredRow src x.toFwdArgs rowBase rt i) (hres : Residuals x b h L D) (hlane : lane < 32)
    (hi : fm lane = i) (he : e < 2) : dsTile src x b h rowBase kb0 rt ct lane e =
      real (colDs src x b h kb0 L D (rowBase + 8 * rt + i) (kb0 + (8 * ct + (fn lane + e)))) := by
  have hdvd : 8 ∣ src.headDim := src.eight_dvd.trans src.dSlab_dvd
  have hs : sTile src x b h rowBase kb0 rt ct lane e = real (∑ c ∈ Finset.range x.s.d, x.q b h (rowBase + 8 * rt + i) c *
      kvGather x.s x.k b h (keyRow x kb0 ct (fn lane + e)) c) := by
    unfold sTile
    rw [dotTile_eq hdvd hlane he, hi, qRow_eq hrow, hrow.headDim]
  have hdp : dpTile src x b h rowBase kb0 rt ct lane e = real (∑ c ∈ Finset.range x.s.d,
      x.dO b h (rowBase + 8 * rt + i) c * kvGather x.s x.v b h (keyRow x kb0 ct (fn lane + e)) c) := by
    unfold dpTile
    rw [dotTile_eq hdvd hlane he, hi, qRow_eq hrow, hrow.headDim]
  unfold dsTile pTile colDs
  rw [Fwd.keepAt_eq hi, hi, qRow_eq hrow, hres.lse _ hrow.row_lt, hres.dArr _ hrow.row_lt, hs, hdp]
  split
  · next hkeep =>
    have hkey : keyRow x kb0 ct (fn lane + e) = kb0 + (8 * ct + (fn lane + e)) := Fwd.clampKey_of_keep hkeep
    rw [hkey]
    simp only [real_mul_real, real_sub_real, exp_real]
    unfold pairDs pairP Oracle.score
    rw [mul_comm (Oracle.dot _ _ _ _ _ _ _) x.scale]
    rfl
  · change real x.scale * real 0 * _ = _
    simp only [real_mul_real, real_sub_real, mul_zero, zero_mul]

/-- A sum over the block's columns is a sum over the keys it keeps. -/
theorem sum_colDs {row : ℕ} (f : ℕ → ℝ) :
    ∑ c ∈ Finset.range 32, colDs src x b h kb0 L D row (kb0 + c) * f (Fwd.clampKey x.toFwdArgs kb0 (kb0 + c)) =
      ∑ kk ∈ Fwd.blockKeys src x.toFwdArgs b kb0 row, pairDs x b h L D row kk * f kk := by
  have hshift := Finset.sum_Ico_eq_sum_range
    (fun kk => colDs src x b h kb0 L D row kk * f (Fwd.clampKey x.toFwdArgs kb0 kk)) kb0 (kb0 + 32)
  rw [Nat.add_sub_cancel_left] at hshift
  rw [← hshift]
  unfold Fwd.blockKeys
  rw [Finset.sum_filter]
  apply Finset.sum_congr rfl
  intro kk _
  unfold colDs
  split
  · next hkeep => rw [Fwd.clampKey_of_keep hkeep]
  · rw [zero_mul]

/-- What the lanes of a row hold of `C_dq` once the keys `S` are in. -/
def RowHolds (x : BwdArgs) (b h slab0 rt i row : ℕ) (L D : ℕ → ℝ) (S : Finset ℕ) (cDq : ℕ → ℕ → Frag) : Prop :=
  ∀ lane < 32, fm lane = i → ∀ dt, ∀ e < 2, cDq rt dt lane e =
    real (∑ kk ∈ S, pairDs x b h L D row kk * kvGather x.s x.k b h kk (slab0 + 8 * dt + (fn lane + e)))

/-- A key block adds the keys it keeps. -/
theorem step_holds (hrow : Fwd.StoredRow src x.toFwdArgs rowBase rt i) (hres : Residuals x b h L D)
    (hheld : RowHolds x b h slab0 rt i (rowBase + 8 * rt + i) L D S cDq)
    (hdisj : Disjoint S (Fwd.blockKeys src x.toFwdArgs b kb0 (rowBase + 8 * rt + i))) :
    RowHolds x b h slab0 rt i (rowBase + 8 * rt + i) L D
      (S ∪ Fwd.blockKeys src x.toFwdArgs b kb0 (rowBase + 8 * rt + i)) (step src x b h rowBase slab0 kb0 cDq) := by
  intro lane hlane hi dt e he
  have hds : ∀ t < 4, ∀ lane' < 32, fm lane' = fm lane → ∀ e < 2, dsTile src x b h rowBase kb0 rt t lane' e =
      real (colDs src x b h kb0 L D (rowBase + 8 * rt + i) (kb0 + (8 * t + (fn lane' + e)))) :=
    fun t _ lane' hlane' hfm e he => dsTile_eq hrow hres hlane' (hfm.trans hi) he
  unfold step
  rw [accTile_eq (v := fun c => colDs src x b h kb0 L D (rowBase + 8 * rt + i) (kb0 + c)) hlane he hds
    (hheld lane hlane hi dt e he), Finset.sum_union hdisj,
    sum_colDs fun kk => kvGather x.s x.k b h kk (slab0 + 8 * dt + (fn lane + e))]

/-- The key loop from `lo` on adds the keys kept from there. -/
theorem foldl_step_holds {lo hi : ℕ} (hrow : Fwd.StoredRow src x.toFwdArgs rowBase rt i) (hres : Residuals x b h L D)
    (hlimit : ∀ kk < x.s.n, keepRow src.flags (x.segId b) x.s.n (rowBase + 8 * rt + i) kk = true → kk < hi) :
    RowHolds x b h slab0 rt i (rowBase + 8 * rt + i) L D (Fwd.keptFrom src x.toFwdArgs b (rowBase + 8 * rt + i) lo)
      ((steps 32 lo hi).foldl (fun cDq kb0 => step src x b h rowBase slab0 kb0 cDq) fun _ _ => filled 0) := by
  -- At `kb0` the keys before it are in, and with those kept from it on they are all there will be.
  let P := fun kb0 cDq => ∃ T, RowHolds x b h slab0 rt i (rowBase + 8 * rt + i) L D T cDq ∧ (∀ kk ∈ T, kk < kb0) ∧
    T ∪ Fwd.keptFrom src x.toFwdArgs b (rowBase + 8 * rt + i) kb0 =
      Fwd.keptFrom src x.toFwdArgs b (rowBase + 8 * rt + i) lo
  have hstart : P lo fun _ _ => filled 0 := by
    refine ⟨∅, ?_, fun kk hkk => absurd hkk (Finset.notMem_empty kk), Finset.empty_union _⟩
    intro lane _ _ dt e _
    rw [Finset.sum_empty]
    rfl
  have hstep : ∀ kb0 cDq, kb0 < hi → P kb0 cDq → P (kb0 + 32) (step src x b h rowBase slab0 kb0 cDq) := by
    rintro kb0 cDq - ⟨T, hheld, hT, hall⟩
    have hdisj : Disjoint T (Fwd.blockKeys src x.toFwdArgs b kb0 (rowBase + 8 * rt + i)) := by
      apply Finset.disjoint_left.2
      intro kk hkk hmem
      exact absurd (hT kk hkk) (not_lt.2 (Fwd.mem_blockKeys.1 hmem).1.1)
    refine ⟨_, step_holds hrow hres hheld hdisj, ?_, ?_⟩
    · intro kk hmem
      rcases Finset.mem_union.1 hmem with hmem | hmem
      · exact (hT kk hmem).trans_le (Nat.le_add_right kb0 32)
      · exact (Fwd.mem_blockKeys.1 hmem).1.2
    · rw [← hall, Finset.union_assoc, ← Fwd.keptFrom_step]
  obtain ⟨kb0, hdone, T, hend, -, hall⟩ := foldl_steps_inv (P := P) (by decide) hstart hstep
  have hnone : Fwd.keptFrom src x.toFwdArgs b (rowBase + 8 * rt + i) kb0 = ∅ := by
    apply Finset.eq_empty_of_forall_notMem
    intro kk hmem
    obtain ⟨⟨hlo, hn⟩, hkeep⟩ := Fwd.mem_keptFrom.1 hmem
    exact absurd (hlimit kk hn hkeep) (not_lt.2 (hdone.trans hlo))
  rw [← hall, hnone, Finset.union_empty]
  exact hend

end Row

section Launch
variable {src : FwdSource} {x : BwdArgs} {b h r0 r1 : ℕ} {segments : Option (ℕ → ℕ → ℤ)} {L D : ℕ → ℝ}

/-- The query gradient of a row over the keys its mask keeps. -/
noncomputable def rowGrad (x : BwdArgs) (b h : ℕ) (segments : Option (ℕ → ℕ → ℤ)) (L D : ℕ → ℝ) (row c : ℕ) : ℝ :=
  ∑ kk ∈ maskKeys x.toFwdArgs b segments row, pairDs x b h L D row kk * kvGather x.s x.k b h kk c

/-- Every slab pass ends on the mask's keys. -/
theorem slabPass_mask (hmask : ForwardMask src x.toFwdArgs b segments) (hd : src.headDim = x.s.d)
    (hres : Residuals x b h L D) (hr1 : r1 ≤ x.s.n) {block slab0 rt i : ℕ} (hi : i < 8) (hrt : rt < 4)
    (hlt : block * 32 + 8 * rt + i < r1 - r0) :
    RowHolds x b h slab0 rt i (r0 + (block * 32 + 8 * rt + i)) L D
      (maskKeys x.toFwdArgs b segments (r0 + (block * 32 + 8 * rt + i)))
      (slabPass src x b h (r0 + block * 32) slab0) := by
  have hrow : r0 + block * 32 + 8 * rt + i < x.s.n := by omega
  have hsame : r0 + (block * 32 + 8 * rt + i) = r0 + block * 32 + 8 * rt + i := by omega
  obtain ⟨hcausal, hflip, -⟩ := mask_flags hmask
  rw [hsame, ← keptFrom_mask hmask (show r0 + block * 32 ≤ r0 + block * 32 + 8 * rt + i by omega) hrow]
  refine foldl_step_holds ⟨hd, hrow⟩ hres fun kk hkk hkeep => ?_
  exact kept_lt_kvLimit hcausal hflip (by omega) hkk hkeep

/-- The rows of one dispatch, whatever its buffer held. -/
theorem dispatchRange_eq (hmask : ForwardMask src x.toFwdArgs b segments) (hd : src.headDim = x.s.d)
    (hres : Residuals x b h L D) (hr1 : r1 ≤ x.s.n) (mem : ℕ × ℕ → XReal) :
    dispatchRange src x b h r0 r1 mem = (List.range (r1 - r0)).map fun i =>
      (List.range x.s.d).map fun c => real (rowGrad x b h segments L D (r0 + i) c) := by
  unfold dispatchRange
  rw [← hd]
  apply List.map_congr_left
  intro i hi
  apply List.map_congr_left
  intro c hc
  refine storeAll_blocks (f := fun i c => real (rowGrad x b h segments L D (r0 + i) c)) src.dSlab_pos src.eight_dvd ?_
    (List.mem_range.1 hi) (List.mem_range.1 hc) mem
  intro block slab0 _ rt hrt dt _ lane hlane e he hlt
  exact slabPass_mask hmask hd hres hr1 (fm_lt hlane) hrt hlt lane hlane rfl dt e he

end Launch

end BwdDq

/-- The dQ launch over any cut of the rows. -/
theorem launchBwdDq_eq {src : FwdSource} {x : BwdArgs} {b h : ℕ} {segments : Option (ℕ → ℕ → ℤ)} {L D : ℕ → ℝ}
    {ranges : List (ℕ × ℕ)} (hmask : ForwardMask src x.toFwdArgs b segments) (hd : src.headDim = x.s.d)
    (hres : Residuals x b h L D) (hranges : Tiles 0 x.s.n ranges) (mem : ℕ × ℕ → ℕ × ℕ → XReal) :
    launchBwdDq src x b h ranges mem = (List.range x.s.n).map fun row =>
      (List.range x.s.d).map fun c => real (BwdDq.rowGrad x b h segments L D row c) := by
  have hrows := hranges.flatMap_rows fun row =>
    (List.range x.s.d).map fun c => real (BwdDq.rowGrad x b h segments L D row c)
  rw [Nat.sub_zero] at hrows
  simp only [Nat.zero_add] at hrows
  unfold launchBwdDq
  rw [← hrows]
  apply List.flatMap_congr
  intro r hr
  exact BwdDq.dispatchRange_eq hmask hd hres (hranges.bounds hr).2.2 (mem r)

/-! ## dK and dV -/

theorem kvHeadFor_of_group {s : Launch.Shape} {kvh h : ℕ} (hh : h ∈ groupHeads s kvh) : kvHeadFor h (groupSize s) = kvh := by
  obtain ⟨hlo, hhi⟩ := List.mem_range'_1.1 hh
  exact Nat.div_eq_of_lt_le hlo (by rw [Nat.succ_mul]; exact hhi)

theorem sum_groupHeads {s : Launch.Shape} {kvh : ℕ} (f : ℕ → ℝ) :
    ((groupHeads s kvh).map f).sum = Oracle.overGroup s f kvh := by
  unfold groupHeads Oracle.overGroup
  rw [List.range'_eq_map_range, List.map_map]
  rfl

namespace BwdDkv

/-- A key that is stored: row `i` of key tile `kt` of the block at `keyBase`. -/
structure StoredKey (src : FwdSource) (x : BwdArgs) (keyBase kt i key : ℕ) : Prop where
  headDim : src.headDim = x.s.d
  key_eq : keyBase + 8 * kt + i = key
  key_lt : key < x.s.n

/-- What the queries `S` of a q-head add to a key's row of dV. -/
noncomputable def addV (x : BwdArgs) (b h key : ℕ) (L : ℕ → ℝ) (S : Finset ℕ) (c : ℕ) : ℝ :=
  ∑ j ∈ S, pairP x b h L j key * x.dO b h j c

/-- What they add to its row of dK. -/
noncomputable def addK (x : BwdArgs) (b h key : ℕ) (L D : ℕ → ℝ) (S : Finset ℕ) (c : ℕ) : ℝ :=
  ∑ j ∈ S, pairDs x b h L D j key * x.q b h j c

/-- What the queries `S` of all the q-heads of a kv head add. -/
noncomputable def groupV (x : BwdArgs) (b kvh key : ℕ) (L : ℕ → ℕ → ℝ) (S : Finset ℕ) (c : ℕ) : ℝ :=
  Oracle.overGroup x.s (fun h => addV x b h key (L h) S c) kvh

noncomputable def groupK (x : BwdArgs) (b kvh key : ℕ) (L D : ℕ → ℕ → ℝ) (S : Finset ℕ) (c : ℕ) : ℝ :=
  Oracle.overGroup x.s (fun h => addK x b h key (L h) (D h) S c) kvh

/-- The queries a block keeps for a key. -/
def blockQueries (src : FwdSource) (x : BwdArgs) (b qHi qb0 key : ℕ) : Finset ℕ :=
  (Finset.Ico qb0 (qb0 + 32)).filter fun i => keepInRange src.flags (x.segId b) x.s.n qHi i key = true

/-- The queries of `[lo, qHi)` a key keeps. -/
def keptQueries (f : Flags) (x : BwdArgs) (b qHi lo key : ℕ) : Finset ℕ :=
  (Finset.Ico lo qHi).filter fun i => keepKey f (x.segId b) x.s.n i key = true

section Key
variable {src : FwdSource} {x : BwdArgs} {b kvh qLo qHi keyBase slab0 qb0 lo h kt qt lane e i key : ℕ}
  {L D : ℕ → ℕ → ℝ} {zV zK : ℕ → ℝ} {regs : DkvRegs} {S T : Finset ℕ}

theorem groupV_union (hdisj : Disjoint S T) (c : ℕ) :
    groupV x b kvh key L (S ∪ T) c = groupV x b kvh key L S c + groupV x b kvh key L T c := by
  unfold groupV addV Oracle.overGroup
  rw [← Finset.sum_add_distrib]
  apply Finset.sum_congr rfl
  intro g _
  exact Finset.sum_union hdisj

theorem groupK_union (hdisj : Disjoint S T) (c : ℕ) :
    groupK x b kvh key L D (S ∪ T) c = groupK x b kvh key L D S c + groupK x b kvh key L D T c := by
  unfold groupK addK Oracle.overGroup
  rw [← Finset.sum_add_distrib]
  apply Finset.sum_congr rfl
  intro g _
  exact Finset.sum_union hdisj

@[simp] theorem groupV_empty (c : ℕ) : groupV x b kvh key L ∅ c = 0 := by
  simp only [groupV, addV, Oracle.overGroup, Finset.sum_empty, Finset.sum_const_zero]

@[simp] theorem groupK_empty (c : ℕ) : groupK x b kvh key L D ∅ c = 0 := by
  simp only [groupK, addK, Oracle.overGroup, Finset.sum_empty, Finset.sum_const_zero]

theorem mem_blockQueries {j : ℕ} : j ∈ blockQueries src x b qHi lo key ↔
    (lo ≤ j ∧ j < lo + 32) ∧ j < qHi ∧ keepKey src.flags (x.segId b) x.s.n j key = true := by
  simp only [blockQueries, keepInRange, Finset.mem_filter, Finset.mem_Ico, Bool.and_eq_true, decide_eq_true_eq]

theorem mem_keptQueries {f : Flags} {j : ℕ} : j ∈ keptQueries f x b qHi lo key ↔
    (lo ≤ j ∧ j < qHi) ∧ keepKey f (x.segId b) x.s.n j key = true := by
  unfold keptQueries
  rw [Finset.mem_filter, Finset.mem_Ico]

/-- A kept query is on or below the diagonal. -/
theorem le_of_keepKey {f : Flags} {segId : ℕ → ℤ} {n j : ℕ} (hcausal : f.causal = true) (hflip : f.flipCausal = false)
    (hkeep : keepKey f segId n j key = true) : key ≤ j := by
  simp only [keepKey, causalKeep, hcausal, hflip, Bool.not_true, Bool.false_eq_true, if_false, Bool.and_eq_true] at hkeep
  split at hkeep
  · exact (of_decide_eq_true hkeep.1).le
  · exact of_decide_eq_true hkeep.1

theorem keptQueries_step (lo : ℕ) :
    keptQueries src.flags x b qHi lo key = blockQueries src x b qHi lo key ∪ keptQueries src.flags x b qHi (lo + 32) key := by
  ext j
  rw [Finset.mem_union, mem_blockQueries, mem_keptQueries, mem_keptQueries]
  constructor
  · rintro ⟨⟨hlo, hn⟩, hkeep⟩
    rcases Nat.lt_or_ge j (lo + 32) with hin | hpast
    · exact Or.inl ⟨⟨hlo, hin⟩, hn, hkeep⟩
    · exact Or.inr ⟨⟨hpast, hn⟩, hkeep⟩
  · rintro (⟨⟨hlo, -⟩, hn, hkeep⟩ | ⟨⟨hlo, hn⟩, hkeep⟩)
    · exact ⟨⟨hlo, hn⟩, hkeep⟩
    · exact ⟨⟨by omega, hn⟩, hkeep⟩

theorem disjoint_keptQueries :
    Disjoint (blockQueries src x b qHi lo key) (keptQueries src.flags x b qHi (lo + 32) key) := by
  apply Finset.disjoint_left.2
  intro j hj hmem
  exact absurd (mem_blockQueries.1 hj).1.2 (not_lt.2 (mem_keptQueries.1 hmem).1.1)

/-! ### One query block and q-head -/

/-- The value a column takes: 0 where the query is masked. -/
noncomputable def colVal (src : FwdSource) (x : BwdArgs) (b qHi key : ℕ) (v : ℕ → ℝ) (j : ℕ) : ℝ :=
  if keepInRange src.flags (x.segId b) x.s.n qHi j key then v j else 0

/-- A kept query is not clamped. -/
theorem clamp_of_keep {j : ℕ} (hhi : qHi ≤ x.s.n) (hkeep : keepInRange src.flags (x.segId b) x.s.n qHi j key = true) :
    min j (x.s.n - 1) = j := by
  simp only [keepInRange, Bool.and_eq_true, decide_eq_true_eq] at hkeep
  omega

/-- A sum over the block's columns is a sum over the queries it keeps. -/
theorem sum_colVal (hhi : qHi ≤ x.s.n) (v f : ℕ → ℝ) :
    ∑ c ∈ Finset.range 32, colVal src x b qHi key v (qb0 + c) * f (min (qb0 + c) (x.s.n - 1)) =
      ∑ j ∈ blockQueries src x b qHi qb0 key, v j * f j := by
  have hshift := Finset.sum_Ico_eq_sum_range
    (fun j => colVal src x b qHi key v j * f (min j (x.s.n - 1))) qb0 (qb0 + 32)
  rw [Nat.add_sub_cancel_left] at hshift
  rw [← hshift]
  unfold blockQueries
  rw [Finset.sum_filter]
  apply Finset.sum_congr rfl
  intro j _
  unfold colVal
  split
  · next hkeep => rw [clamp_of_keep hhi hkeep]
  · rw [zero_mul]

/-- A dot product of a key's row with the query of a column. -/
theorem dotTile_key (hkey : StoredKey src x keyBase kt i key) (hlane : lane < 32) (hi : fm lane = i) (he : e < 2)
    (y z : ℕ → ℕ → ℝ) : dotTile src.headDim y (keyRow x keyBase kt) z (qRow x qb0 qt) lane e =
      real (∑ c ∈ Finset.range x.s.d, z (min (qb0 + (8 * qt + (fn lane + e))) (x.s.n - 1)) c * y key c) := by
  have hrow : keyRow x keyBase kt i = key := by
    have := hkey.key_eq
    have := hkey.key_lt
    unfold keyRow
    omega
  rw [dotTile_eq (src.eight_dvd.trans src.dSlab_dvd) hlane he, hi, hrow, hkey.headDim]
  refine congrArg real (Finset.sum_congr rfl fun c _ => ?_)
  rw [mul_comm]
  rfl

theorem keepAt_eq (hkey : StoredKey src x keyBase kt i key) (hi : fm lane = i) :
    keepAt src x b qHi keyBase qb0 kt qt lane e =
      keepInRange src.flags (x.segId b) x.s.n qHi (qb0 + (8 * qt + (fn lane + e))) key := by
  have hquery : qb0 + 8 * qt + fn lane + e = qb0 + (8 * qt + (fn lane + e)) := by omega
  unfold keepAt
  rw [hi, hquery, hkey.key_eq]

section Head
variable (hhi : qHi ≤ x.s.n) (hkey : StoredKey src x keyBase kt i key) (hh : h ∈ groupHeads x.s kvh)
  (hres : Residuals x b h (L h) (D h))
include hhi hkey hh hres

theorem pTile_eq (hlane : lane < 32) (hi : fm lane = i) (he : e < 2) :
    pTile src x b kvh qHi keyBase qb0 h kt qt lane e =
      real (colVal src x b qHi key (fun j => pairP x b h (L h) j key) (qb0 + (8 * qt + (fn lane + e)))) := by
  have hn := hkey.key_lt
  unfold pTile colVal
  rw [keepAt_eq hkey hi]
  split
  · next hkeep =>
    unfold sTile
    rw [dotTile_key hkey hlane hi he, qRow, hres.lse _ (by omega), clamp_of_keep hhi hkeep]
    simp only [real_mul_real, real_sub_real, exp_real]
    unfold pairP Oracle.score Oracle.dot kvGather
    rw [kvHeadFor_of_group hh, mul_comm x.scale]
  · rfl

theorem dsTile_eq (hlane : lane < 32) (hi : fm lane = i) (he : e < 2) :
    dsTile src x b kvh qHi keyBase qb0 h kt qt lane e =
      real (colVal src x b qHi key (fun j => pairDs x b h (L h) (D h) j key) (qb0 + (8 * qt + (fn lane + e)))) := by
  have hn := hkey.key_lt
  unfold dsTile dpTile
  rw [pTile_eq hhi hkey hh hres hlane hi he, dotTile_key hkey hlane hi he, qRow, hres.dArr _ (by omega)]
  simp only [real_mul_real, real_sub_real]
  unfold colVal
  split
  · next hkeep =>
    rw [clamp_of_keep hhi hkeep]
    unfold pairDs Oracle.dot kvGather
    rw [kvHeadFor_of_group hh]
  · rw [mul_zero, zero_mul]

end Head

/-- What the lanes of a key hold of `C_dv` and `C_dk`, by column of the slab. -/
structure KeyHolds (dSlab slab0 kt i : ℕ) (zV zK : ℕ → ℝ) (regs : DkvRegs) : Prop where
  dv : ∀ lane < 32, fm lane = i → ∀ dt < dSlab / 8, ∀ e < 2,
    regs.cDv kt dt lane e = real (zV (slab0 + 8 * dt + (fn lane + e)))
  dk : ∀ lane < 32, fm lane = i → ∀ dt < dSlab / 8, ∀ e < 2,
    regs.cDk kt dt lane e = real (zK (slab0 + 8 * dt + (fn lane + e)))

theorem KeyHolds.congr {dSlab : ℕ} {zV' zK' : ℕ → ℝ} (hheld : KeyHolds dSlab slab0 kt i zV zK regs)
    (hV : ∀ c, zV c = zV' c) (hK : ∀ c, zK c = zK' c) : KeyHolds dSlab slab0 kt i zV' zK' regs := by
  obtain rfl := funext hV
  obtain rfl := funext hK
  exact hheld

section Loop
variable (hhi : qHi ≤ x.s.n) (hkey : StoredKey src x keyBase kt i key)
  (hres : ∀ h ∈ groupHeads x.s kvh, Residuals x b h (L h) (D h))
include hhi hkey hres

/-- A query block of a q-head adds the queries it keeps. -/
theorem step_holds (qb0 : ℕ) (hh : h ∈ groupHeads x.s kvh) (hheld : KeyHolds src.dSlab slab0 kt i zV zK regs) :
    KeyHolds src.dSlab slab0 kt i (fun c => zV c + addV x b h key (L h) (blockQueries src x b qHi qb0 key) c)
      (fun c => zK c + addK x b h key (L h) (D h) (blockQueries src x b qHi qb0 key) c)
      (step src x b kvh qHi keyBase slab0 qb0 h regs) := by
  constructor
  · intro lane hlane hi dt hdt e he
    have hp : ∀ qt < 4, ∀ lane' < 32, fm lane' = fm lane → ∀ e < 2, pTile src x b kvh qHi keyBase qb0 h kt qt lane' e =
        real (colVal src x b qHi key (fun j => pairP x b h (L h) j key) (qb0 + (8 * qt + (fn lane' + e)))) :=
      fun qt _ lane' hlane' hfm e he => pTile_eq hhi hkey hh (hres h hh) hlane' (hfm.trans hi) he
    dsimp only [step]
    rw [accTile_eq (v := fun c => colVal src x b qHi key (fun j => pairP x b h (L h) j key) (qb0 + c)) hlane he hp
      (hheld.dv lane hlane hi dt hdt e he), sum_colVal hhi _ fun j => x.dO b h j (slab0 + 8 * dt + (fn lane + e))]
    rfl
  · intro lane hlane hi dt hdt e he
    have hds : ∀ qt < 4, ∀ lane' < 32, fm lane' = fm lane → ∀ e < 2, dsTile src x b kvh qHi keyBase qb0 h kt qt lane' e =
        real (colVal src x b qHi key (fun j => pairDs x b h (L h) (D h) j key) (qb0 + (8 * qt + (fn lane' + e)))) :=
      fun qt _ lane' hlane' hfm e he => dsTile_eq hhi hkey hh (hres h hh) hlane' (hfm.trans hi) he
    dsimp only [step]
    rw [accTile_eq (v := fun c => colVal src x b qHi key (fun j => pairDs x b h (L h) (D h) j key) (qb0 + c)) hlane he hds
      (hheld.dk lane hlane hi dt hdt e he), sum_colVal hhi _ fun j => x.q b h j (slab0 + 8 * dt + (fn lane + e))]
    rfl

theorem foldl_step_holds {hs : List ℕ} (hsub : ∀ h ∈ hs, h ∈ groupHeads x.s kvh)
    (hheld : KeyHolds src.dSlab slab0 kt i zV zK regs) :
    KeyHolds src.dSlab slab0 kt i
      (fun c => zV c + (hs.map fun h => addV x b h key (L h) (blockQueries src x b qHi qb0 key) c).sum)
      (fun c => zK c + (hs.map fun h => addK x b h key (L h) (D h) (blockQueries src x b qHi qb0 key) c).sum)
      (hs.foldl (fun regs h => step src x b kvh qHi keyBase slab0 qb0 h regs) regs) := by
  induction hs generalizing zV zK regs with
  | nil => exact hheld.congr (fun c => (add_zero _).symm) fun c => (add_zero _).symm
  | cons h hs ih =>
    have hstep := step_holds hhi hkey hres qb0 (hsub h List.mem_cons_self) hheld
    have hrest := ih (fun h' hh' => hsub h' (List.mem_cons_of_mem h hh')) hstep
    apply hrest.congr
    · exact fun c => by rw [List.map_cons, List.sum_cons, add_assoc]
    · exact fun c => by rw [List.map_cons, List.sum_cons, add_assoc]

/-- A query block adds the queries it keeps, of every q-head. -/
theorem block_holds (qb0 : ℕ) (hheld : KeyHolds src.dSlab slab0 kt i zV zK regs) :
    KeyHolds src.dSlab slab0 kt i (fun c => zV c + groupV x b kvh key L (blockQueries src x b qHi qb0 key) c)
      (fun c => zK c + groupK x b kvh key L D (blockQueries src x b qHi qb0 key) c)
      ((groupHeads x.s kvh).foldl (fun regs h => step src x b kvh qHi keyBase slab0 qb0 h regs) regs) := by
  apply (foldl_step_holds hhi hkey hres (fun _ hh => hh) hheld).congr
  · exact fun c => congrArg (zV c + ·) (sum_groupHeads _)
  · exact fun c => congrArg (zK c + ·) (sum_groupHeads _)

/-- The query loop from `lo` on adds the queries the key keeps from there, when
a `break` leaves none. -/
theorem queryLoop_holds (hbreak : ∀ qb0, lo ≤ qb0 → qb0 < qHi →
      segBreaks src.flags (x.segId b) x.s.n keyBase qb0 = true → keptQueries src.flags x b qHi qb0 key = ∅) (hheld : KeyHolds src.dSlab slab0 kt i zV zK regs) :
    KeyHolds src.dSlab slab0 kt i (fun c => zV c + groupV x b kvh key L (keptQueries src.flags x b qHi lo key) c)
      (fun c => zK c + groupK x b kvh key L D (keptQueries src.flags x b qHi lo key) c)
      (queryLoop src x b kvh qHi keyBase slab0 (steps 32 lo qHi) regs) := by
  induction hd : qHi - lo using Nat.strong_induction_on generalizing lo zV zK regs with
  | _ m ih =>
    rcases Nat.lt_or_ge lo qHi with hlt | hdone
    · rw [steps_eq_cons (by decide) hlt, queryLoop]
      split
      · next hseg =>
        rw [hbreak lo (le_refl lo) hlt hseg]
        simpa using hheld
      · have hblock := block_holds hhi hkey hres lo hheld
        have hrest := @ih (qHi - (lo + 32)) (by omega) (lo + 32) _ _ _ (fun qb0 hle => hbreak qb0 (by omega)) hblock rfl
        apply hrest.congr
        · exact fun c => by rw [keptQueries_step lo, groupV_union disjoint_keptQueries, add_assoc]
        · exact fun c => by rw [keptQueries_step lo, groupK_union disjoint_keptQueries, add_assoc]
    · have hnone : keptQueries src.flags x b qHi lo key = ∅ := by
        unfold keptQueries
        rw [Finset.Ico_eq_empty (not_lt.2 hdone), Finset.filter_empty]
      rw [steps_eq_nil hdone, queryLoop, hnone]
      simpa using hheld

/-- A slab pass adds the queries of the dispatch the key keeps to what it was seeded with. -/
theorem slabPass_holds (hcausal : src.flags.causal = true) (hflip : src.flags.flipCausal = false) {bufs : DkvBufs}
    (hslab0 : slab0 ∈ steps src.dSlab 0 src.headDim)
    (hbreak : ∀ qb0, qStart src.flags qLo keyBase ≤ qb0 → qb0 < qHi →
      segBreaks src.flags (x.segId b) x.s.n keyBase qb0 = true → keptQueries src.flags x b qHi qb0 key = ∅)
    (hdv : ∀ c < src.headDim, bufs.dv (key, c) = real (zV c))
    (hdk : ∀ c < src.headDim, bufs.dk (key, c) = real (zK c)) :
    KeyHolds src.dSlab slab0 kt i (fun c => zV c + groupV x b kvh key L (keptQueries src.flags x b qHi qLo key) c)
      (fun c => zK c + groupK x b kvh key L D (keptQueries src.flags x b qHi qLo key) c)
      (slabPass src x b kvh qHi keyBase slab0 qLo bufs) := by
  have hrow : keyRow x keyBase kt i = key := by
    have := hkey.key_eq
    have := hkey.key_lt
    unfold keyRow
    omega
  have hseed : KeyHolds src.dSlab slab0 kt i zV zK (seed x keyBase slab0 bufs) := by
    constructor
    · intro lane hlane hi dt hdt e he
      dsimp only [seed]
      rw [hi, hrow, add_assoc]
      exact hdv _ (slabCol_lt src.dSlab_dvd hslab0 hdt hlane he)
    · intro lane hlane hi dt hdt e he
      dsimp only [seed]
      rw [hi, hrow, add_assoc]
      exact hdk _ (slabCol_lt src.dSlab_dvd hslab0 hdt hlane he)
  -- The queries before the key block are above the diagonal.
  have hstart : keptQueries src.flags x b qHi (qStart src.flags qLo keyBase) key = keptQueries src.flags x b qHi qLo key := by
    ext j
    rw [mem_keptQueries, mem_keptQueries]
    refine and_congr_left fun hkeep => and_congr_left fun _ => ?_
    have hle : key ≤ j := le_of_keepKey hcausal hflip hkeep
    have hbase := hkey.key_eq
    unfold qStart
    rw [if_pos hcausal]
    omega
  rw [← hstart]
  exact queryLoop_holds hhi hkey hres hbreak hseed

end Loop
end Key

/-! ### Dispatches -/

section Launch
variable {src : FwdSource} {x : BwdArgs} {b kvh qLo qHi a : ℕ} {L D : ℕ → ℕ → ℝ} {zV zK : ℕ → ℕ → ℝ} {bufs : DkvBufs}

/-- After a `break` at a query block, the keys of the owner block keep no query of the range. -/
def BreaksSound (f : Flags) (x : BwdArgs) (b qLo qHi : ℕ) : Prop :=
  ∀ kblock, ∀ key < x.s.n, kblock * 32 ≤ key → key < kblock * 32 + 32 → ∀ qb0, qStart f qLo (kblock * 32) ≤ qb0 →
    qb0 < qHi → segBreaks f (x.segId b) x.s.n (kblock * 32) qb0 = true → keptQueries f x b qHi qb0 key = ∅

/-- What the buffers hold of the keys and columns in range. -/
structure BufsHold (x : BwdArgs) (zV zK : ℕ → ℕ → ℝ) (bufs : DkvBufs) : Prop where
  dv : ∀ key < x.s.n, ∀ c < x.s.d, bufs.dv (key, c) = real (zV key c)
  dk : ∀ key < x.s.n, ∀ c < x.s.d, bufs.dk (key, c) = real (zK key c)

/-- A dispatch adds its queries to every key, whatever the fresh buffers held. -/
theorem dispatchRange_holds (qLo : ℕ) (hcausal : src.flags.causal = true) (hflip : src.flags.flipCausal = false)
    (hd : src.headDim = x.s.d) (hhi : qHi ≤ x.s.n) (hres : ∀ h ∈ groupHeads x.s kvh, Residuals x b h (L h) (D h))
    (hbreak : BreaksSound src.flags x b qLo qHi) (hheld : BufsHold x zV zK bufs) (mem : DkvBufs) :
    BufsHold x (fun key c => zV key c + groupV x b kvh key L (keptQueries src.flags x b qHi qLo key) c)
      (fun key c => zK key c + groupK x b kvh key L D (keptQueries src.flags x b qHi qLo key) c)
      (dispatchRange src x b kvh qLo qHi bufs mem) := by
  have hpass : ∀ block, ∀ slab0 ∈ steps src.dSlab 0 src.headDim, ∀ rt < 4, ∀ lane < 32,
      block * 32 + 8 * rt + fm lane < x.s.n → KeyHolds src.dSlab slab0 rt (fm lane)
        (fun c => zV (block * 32 + 8 * rt + fm lane) c + groupV x b kvh (block * 32 + 8 * rt + fm lane) L
          (keptQueries src.flags x b qHi qLo (block * 32 + 8 * rt + fm lane)) c)
        (fun c => zK (block * 32 + 8 * rt + fm lane) c + groupK x b kvh (block * 32 + 8 * rt + fm lane) L D
          (keptQueries src.flags x b qHi qLo (block * 32 + 8 * rt + fm lane)) c)
        (slabPass src x b kvh qHi (block * 32) slab0 qLo bufs) := by
    intro block slab0 hslab0 rt hrt lane hlane hlt
    have hfm : fm lane < 8 := fm_lt hlane
    refine slabPass_holds hhi ⟨hd, rfl, hlt⟩ hres hcausal hflip hslab0 ?_ ?_ ?_
    · exact hbreak block _ hlt (by omega) (by omega)
    · exact fun c hc => hheld.dv _ hlt c (hd ▸ hc)
    · exact fun c hc => hheld.dk _ hlt c (hd ▸ hc)
  constructor
  · intro key hkey c hc
    refine storeAll_blocks (f := fun key c => real (zV key c + groupV x b kvh key L (keptQueries src.flags x b qHi qLo key) c))
      src.dSlab_pos src.eight_dvd ?_ hkey (hd.symm ▸ hc) mem.dv
    intro block slab0 hslab0 rt hrt dt hdt lane hlane e he hlt
    exact (hpass block slab0 hslab0 rt hrt lane hlane hlt).dv lane hlane rfl dt hdt e he
  · intro key hkey c hc
    refine storeAll_blocks (f := fun key c => real (zK key c + groupK x b kvh key L D (keptQueries src.flags x b qHi qLo key) c))
      src.dSlab_pos src.eight_dvd ?_ hkey (hd.symm ▸ hc) mem.dk
    intro block slab0 hslab0 rt hrt dt hdt lane hlane e he hlt
    exact (hpass block slab0 hslab0 rt hrt lane hlane hlt).dk lane hlane rfl dt hdt e he

/-- The queries of `[a, n)` a key keeps. -/
def queriesFrom (f : Flags) (x : BwdArgs) (b a key : ℕ) : Finset ℕ := keptQueries f x b x.s.n a key

theorem queriesFrom_split {f : Flags} {mid key : ℕ} (hlo : a ≤ mid) (hhi : mid ≤ x.s.n) :
    queriesFrom f x b a key = keptQueries f x b mid a key ∪ queriesFrom f x b mid key := by
  unfold queriesFrom keptQueries
  rw [← Finset.filter_union, Finset.Ico_union_Ico_eq_Ico hlo hhi]

theorem disjoint_queriesFrom {f : Flags} {mid key : ℕ} :
    Disjoint (keptQueries f x b mid a key) (queriesFrom f x b mid key) := by
  apply Finset.disjoint_left.2
  intro j hj hmem
  exact absurd (mem_keptQueries.1 hj).1.2 (not_lt.2 (mem_keptQueries.1 hmem).1.1)

/-- A dispatch adds its range's queries to every key. -/
def AddsRange (f : Flags) (x : BwdArgs) (b kvh : ℕ) (L D : ℕ → ℕ → ℝ) (r : ℕ × ℕ) (dispatch : DkvBufs → DkvBufs) : Prop :=
  ∀ zV zK bufs, BufsHold x zV zK bufs →
    BufsHold x (fun key c => zV key c + groupV x b kvh key L (keptQueries f x b r.2 r.1 key) c)
      (fun key c => zK key c + groupK x b kvh key L D (keptQueries f x b r.2 r.1 key) c) (dispatch bufs)

/-- The chain over ranges that cut `[a, n)` adds the queries from `a` on. -/
theorem chain_holds {f : Flags} {ranges : List (ℕ × ℕ)} {dispatch : ℕ × ℕ → DkvBufs → DkvBufs}
    (hranges : Tiles a x.s.n ranges) (hadds : ∀ r ∈ ranges, AddsRange f x b kvh L D r (dispatch r))
    (hheld : BufsHold x zV zK bufs) :
    BufsHold x (fun key c => zV key c + groupV x b kvh key L (queriesFrom f x b a key) c)
      (fun key c => zK key c + groupK x b kvh key L D (queriesFrom f x b a key) c)
      (ranges.foldl (fun bufs r => dispatch r bufs) bufs) := by
  induction ranges generalizing a zV zK bufs with
  | nil =>
    obtain rfl : a = x.s.n := hranges
    have hnone : ∀ key, queriesFrom f x b x.s.n key = ∅ := by
      intro key
      unfold queriesFrom keptQueries
      rw [Finset.Ico_self, Finset.filter_empty]
    simpa [hnone] using hheld
  | cons r ranges ih =>
    obtain ⟨rfl, hlt, hrest⟩ := hranges
    have hfirst := hadds r List.mem_cons_self zV zK bufs hheld
    have hall := ih hrest (fun r' hr' => hadds r' (List.mem_cons_of_mem r hr')) hfirst
    simp only [add_assoc, ← groupV_union disjoint_queriesFrom, ← groupK_union disjoint_queriesFrom,
      ← queriesFrom_split hlt.le hrest.le] at hall
    exact hall

/-- A chain that starts from zeros sums all the queries a key keeps. -/
theorem chain_from_zeros {f : Flags} {ranges : List (ℕ × ℕ)} {dispatch : ℕ × ℕ → DkvBufs → DkvBufs}
    (hranges : Tiles 0 x.s.n ranges) (hadds : ∀ r ∈ ranges, AddsRange f x b kvh L D r (dispatch r)) :
    BufsHold x (fun key c => groupV x b kvh key L (queriesFrom f x b 0 key) c)
      (fun key c => groupK x b kvh key L D (queriesFrom f x b 0 key) c)
      (ranges.foldl (fun bufs r => dispatch r bufs) zeroBufs) := by
  have hzero : BufsHold x (fun _ _ => 0) (fun _ _ => 0) zeroBufs := ⟨fun _ _ _ _ => rfl, fun _ _ _ _ => rfl⟩
  have hall := chain_holds hranges hadds hzero
  simp only [zero_add] at hall
  exact hall

end Launch
end BwdDkv

/-- The dK/dV launch over any cut of the queries. -/
theorem launchBwdDkv_eq {src : FwdSource} {x : BwdArgs} {b kvh : ℕ} {L D : ℕ → ℕ → ℝ} {ranges : List (ℕ × ℕ)}
    (hcausal : src.flags.causal = true) (hflip : src.flags.flipCausal = false) (hd : src.headDim = x.s.d)
    (hres : ∀ h ∈ groupHeads x.s kvh, Residuals x b h (L h) (D h)) (hranges : Tiles 0 x.s.n ranges)
    (hbreak : ∀ r ∈ ranges, BwdDkv.BreaksSound src.flags x b r.1 r.2) (mem : ℕ × ℕ → DkvBufs) :
    BwdDkv.BufsHold x (fun key c => BwdDkv.groupV x b kvh key L (BwdDkv.queriesFrom src.flags x b 0 key) c)
      (fun key c => BwdDkv.groupK x b kvh key L D (BwdDkv.queriesFrom src.flags x b 0 key) c)
      (launchBwdDkv src x b kvh ranges mem) := by
  refine BwdDkv.chain_from_zeros hranges fun r hr zV zK bufs hheld => ?_
  exact BwdDkv.dispatchRange_holds r.1 hcausal hflip hd (hranges.bounds hr).2.2 hres (hbreak r hr) hheld (mem r)

end MlxTrainPerf.Attention.Kernel
