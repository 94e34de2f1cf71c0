import MlxTrainPerf.Attention.DkvCoverage
import MlxTrainPerf.Attention.ValidatedMask
import MlxTrainPerf.Attention.Kernel.Scalar
/-!
# The backward launches agree

The MMA bodies return what the scalar bodies return, for any residuals and any
cut of the queries; and with the forward's own residuals that is what the
oracle's backward returns.
-/
open Loops Simdgroup XReal OnlineSoftmax

namespace MlxTrainPerf.Attention.Kernel

open Packing

/-! ## Sound breaks -/

section Breaks
variable {x : BwdArgs} {b qLo qHi : ℕ}

/-- Without a segment bound the query loop has no `break`. -/
theorem breaksSound_unbounded {f : Flags} (hbounded : bounded f = false) : BwdDkv.BreaksSound f x b qLo qHi := by
  intro kblock key _ _ _ qb0 _ _ hseg
  unfold segBreaks at hseg
  rw [hbounded, Bool.false_and] at hseg
  cases hseg

/-- A sound break of the packed body leaves no query: every id left is past the block's last. -/
theorem breaksSound_packed {row : IdRow x.s.n} (hid : x.segId b = row.get) (hhi : qHi ≤ x.s.n)
    (hsound : ∀ kblock, kblock * 32 < x.s.n → BreakSound row qLo qHi kblock) :
    BwdDkv.BreaksSound packedFlags x b qLo qHi := by
  intro kblock key hkey hlo hin qb0 hstart hqb0 hseg
  have hfirst : firstBlock qLo kblock ≤ qb0 := hstart
  rw [hid, segBreaks_packed] at hseg
  have howner : key ≤ ownerKey x.s.n kblock ∧ ownerKey x.s.n kblock < x.s.n := by
    unfold ownerKey
    omega
  have hlt : row.get (ownerKey x.s.n kblock) < row.get qb0 := by
    refine lt_of_toUInt_lt (row.get_int32 _) (row.get_int32 _) (fun hneg => ?_) hseg
    have hmono := row.get_mono hfirst (by omega)
    exact hsound kblock (by omega) (by omega) (by omega)
  apply Finset.eq_empty_of_forall_notMem
  intro j hj
  obtain ⟨⟨hle, hjHi⟩, hkeep⟩ := BwdDkv.mem_keptQueries.1 hj
  rw [hid, keepKey_packed hkey] at hkeep
  have hsame := (segmentAllowed_iff.1 hkeep).1
  have hkeyLe := row.get_mono howner.1 howner.2
  have hqueryLe := row.get_mono hle (hjHi.trans_le hhi)
  omega

end Breaks

section Layout
variable {entries : List Entry} {packLen s p : ℕ}

/-- Every segment before the tail takes a slot. -/
theorem le_startOf (h : s ≤ entries.length) : s ≤ startOf entries s := by
  induction s with
  | zero => exact Nat.zero_le _
  | succ s ih =>
    have hs := ih (by omega)
    rw [startOf_succ (show s < entries.length by omega)]
    omega

theorem owner_le_self : owner entries p ≤ p := (le_startOf owner_le).trans (startOf_owner_le entries p)

theorem segId_length : (layout entries packLen).segId.length = packLen := by
  unfold layout
  rw [List.length_map, List.length_range]

theorem segId_int32 (hint : packLen < 2 ^ 31) : ∀ id ∈ (layout entries packLen).segId, IsInt32 id := by
  intro id hid
  obtain ⟨p, hp, rfl⟩ := List.mem_map.1 hid
  have hp := List.mem_range.1 hp
  have := @owner_le_self entries p
  exact ⟨by omega, by omega⟩

theorem segId_sorted : (layout entries packLen).segId.Pairwise (· ≤ ·) := by
  unfold layout
  rw [List.pairwise_map]
  refine List.pairwise_lt_range.imp fun {i j} hij => ?_
  exact_mod_cast owner_mono hij.le

/-- The ids of a packed row, as the launcher accepts them. -/
def layoutIds (entries : List Entry) (hint : packLen < 2 ^ 31) : IdRow packLen where
  ids := (layout entries packLen).segId
  length_eq := segId_length
  int32 := segId_int32 hint
  sorted := segId_sorted

theorem layoutIds_nonneg {hint : packLen < 2 ^ 31} (hp : p < packLen) : 0 ≤ (layoutIds entries hint).get p := by
  have hget : (layoutIds entries hint).get p = owner entries p := ptr_segId hp
  rw [hget]
  exact Int.natCast_nonneg _

end Layout

/-- The launch of a shipped body breaks soundly under its mask. -/
theorem breaksSound_mask {src : FwdSource} {x : BwdArgs} {b qLo qHi : ℕ} {segments : Option (ℕ → ℕ → ℤ)}
    (hmask : ForwardMask src x.toFwdArgs b segments) (hhi : qHi ≤ x.s.n) : BwdDkv.BreaksSound src.flags x b qLo qHi := by
  cases hmask with
  | causal hflags =>
    rw [hflags]
    exact breaksSound_unbounded rfl
  | packed entries row hflags hfit hint hbuild hid _ =>
    obtain rfl : layout entries x.s.n = row := Except.ok.inj ((buildRow_eq hfit).symm.trans hbuild)
    rw [hflags]
    have hids : x.segId b = (layoutIds entries hint).get := hid
    refine breaksSound_packed hids hhi fun kblock _ hlt hneg => ?_
    exact absurd hneg (not_lt.2 (layoutIds_nonneg (hlt.trans_le hhi)))

/-! ## The values of the oracle -/

section Oracle
variable {x : BwdArgs} {b h kvh row key c : ℕ} {segments : Option (ℕ → ℕ → ℤ)}

/-- The forward's logsumexp of a q-head's rows. -/
noncomputable def oracleL (x : BwdArgs) (segments : Option (ℕ → ℕ → ℤ)) (b h : ℕ) : ℕ → ℝ :=
  Oracle.lse x.s x.q x.k x.scale (keeps true segments) b h

/-- The row sums of `dO * O`. -/
noncomputable def oracleD (x : BwdArgs) (segments : Option (ℕ → ℕ → ℤ)) (b h : ℕ) : ℕ → ℝ :=
  Oracle.rowDot x.s x.q x.k x.v x.dO x.scale (keeps true segments) b h

theorem rowGrad_oracle : BwdDq.rowGrad x b h segments (oracleL x segments b h) (oracleD x segments b h) row c =
    Oracle.gradQ x.s x.q x.k x.v x.dO x.scale (keeps true segments) b h row c := by
  unfold BwdDq.rowGrad maskKeys Oracle.keys Oracle.gradQ
  rw [Finset.sum_filter, Finset.mul_sum]
  apply Finset.sum_congr rfl
  intro j _
  unfold Oracle.dScore Oracle.prob
  split
  · unfold pairDs pairP oracleL oracleD
    ring
  · rw [zero_mul, zero_mul, mul_zero]

/-- The queries a key keeps, as its mask says. -/
theorem queriesFrom_eq {f : Flags} (hkeep : ∀ i < x.s.n, keepKey f (x.segId b) x.s.n i key = keeps true segments b i key) :
    BwdDkv.queriesFrom f x b 0 key = (Finset.range x.s.n).filter fun i => keeps true segments b i key = true := by
  unfold BwdDkv.queriesFrom BwdDkv.keptQueries
  rw [← Finset.range_eq_Ico]
  exact Finset.filter_congr fun i hi => by rw [hkeep i (Finset.mem_range.1 hi)]

theorem groupV_oracle : BwdDkv.groupV x b kvh key (oracleL x segments b)
      ((Finset.range x.s.n).filter fun i => keeps true segments b i key = true) c =
    Oracle.gradV x.s x.q x.k x.dO x.scale (keeps true segments) b kvh key c := by
  unfold BwdDkv.groupV BwdDkv.addV Oracle.gradV
  apply congrArg (Oracle.overGroup x.s · kvh)
  funext h
  rw [Finset.sum_filter]
  apply Finset.sum_congr rfl
  intro i _
  unfold Oracle.prob
  split
  · rfl
  · rw [zero_mul]

theorem groupK_oracle : BwdDkv.groupK x b kvh key (oracleL x segments b) (oracleD x segments b)
      ((Finset.range x.s.n).filter fun i => keeps true segments b i key = true) c =
    Oracle.gradK x.s x.q x.k x.v x.dO x.scale (keeps true segments) b kvh key c := by
  unfold BwdDkv.groupK BwdDkv.addK Oracle.gradK
  apply congrArg (Oracle.overGroup x.s · kvh)
  funext h
  rw [Finset.sum_filter, Finset.mul_sum]
  apply Finset.sum_congr rfl
  intro i _
  unfold Oracle.dScore Oracle.prob
  split
  · unfold pairDs pairP oracleL oracleD
    ring
  · rw [zero_mul, zero_mul, mul_zero]

end Oracle

/-! ## The MMA launches and the scalar launches -/

section Agree
variable {src : FwdSource} {b h : ℕ} {segments : Option (ℕ → ℕ → ℤ)}

theorem scalarMask {x : FwdArgs} (hmask : ForwardMask src x b segments) : Scalar.Mask src.flags x segments := by
  cases hmask with
  | causal hflags => exact .causal hflags
  | packed entries row hflags => exact .packed hflags

/-- On a stored key the clamped predicate is the mask. -/
theorem keepKey_mask {f : Flags} {x : FwdArgs} {i key : ℕ} (hmask : Scalar.Mask f x segments) (hkey : key < x.s.n) :
    keepKey f (x.segId b) x.s.n i key = keeps true segments b i key := by
  have hclamp : min key (x.s.n - 1) = key := by omega
  rw [← Scalar.keepKey_mask hmask]
  unfold keepKey Scalar.keepKey
  rw [hclamp]

end Agree

/-- The MMA forward returns what the scalar forward returns, on any two cuts of the rows. -/
theorem fwd_mma_eq_scalar (src : FwdSource) (x : FwdArgs) (b h : ℕ) (segments : Option (ℕ → ℕ → ℤ))
    (hmask : ForwardMask src x b segments) (hd : src.headDim = x.s.d) (ranges ranges' : List (ℕ × ℕ))
    (hranges : Tiles 0 x.s.n ranges) (hranges' : Tiles 0 x.s.n ranges')
    (mem : ℕ × ℕ → (ℕ × ℕ → XReal) × (ℕ → XReal)) :
    launchFlashFwd src x b h ranges mem = Scalar.launchFlashFwd src.flags src.headDim x b h ranges' := by
  have hends : ∀ r ∈ ranges, Fwd.EndsOn src x b h r.1 r.2 (maskKeys x b segments) :=
    fun r hr => endsOn_mask hmask hd (hranges.bounds hr).2.2
  rw [Fwd.launchFlashFwd_eq hranges hends mem, Scalar.launchFlashFwd_eq (scalarMask hmask) hd hranges', hd]

theorem fwd_mma_eq_scalar_twoRows :
    launchFlashFwd causalEight twoRows 0 0 [(0, 1), (1, 2)] (fun _ => (fun _ => nan, fun _ => nan)) =
      Scalar.launchFlashFwd causalFlags 8 twoRows 0 0 [(0, 2)] :=
  fwd_mma_eq_scalar causalEight twoRows 0 0 none (.causal rfl) rfl [(0, 1), (1, 2)] [(0, 2)] (by decide) (by decide) _

/-- The MMA dQ returns what the scalar dQ returns, for any real residuals and on any two cuts of the rows. -/
theorem dq_mma_eq_scalar (src : FwdSource) (x : BwdArgs) (b h : ℕ) (segments : Option (ℕ → ℕ → ℤ))
    (hmask : ForwardMask src x.toFwdArgs b segments) (hd : src.headDim = x.s.d) (L D : ℕ → ℝ)
    (hres : Residuals x b h L D) (ranges ranges' : List (ℕ × ℕ)) (hranges : Tiles 0 x.s.n ranges)
    (hranges' : Tiles 0 x.s.n ranges') (mem : ℕ × ℕ → ℕ × ℕ → XReal) :
    launchBwdDq src x b h ranges mem = Scalar.launchBwdDq src.flags src.headDim x b h ranges' := by
  rw [launchBwdDq_eq hmask hd hres hranges mem, Scalar.launchBwdDq_eq (scalarMask hmask) hd hres hranges']

/-- Two rows of ones, with residuals 0, under the ids `[0, 1]`. -/
noncomputable def twoRowsBwd : BwdArgs where
  toFwdArgs := { twoRows with segId := fun _ => zeroOne.get }
  dO := fun _ _ _ _ => 1
  lse := fun _ _ _ => real 0
  dArr := fun _ _ _ => real 0

theorem twoRowsBwd_residuals (b h : ℕ) : Residuals twoRowsBwd b h (fun _ => 0) fun _ => 0 :=
  ⟨fun _ _ => rfl, fun _ _ => rfl⟩

theorem dq_mma_eq_scalar_twoRows : launchBwdDq causalEight twoRowsBwd 0 0 [(0, 1), (1, 2)] (fun _ _ => nan) =
    Scalar.launchBwdDq causalFlags 8 twoRowsBwd 0 0 [(0, 2)] :=
  dq_mma_eq_scalar causalEight twoRowsBwd 0 0 none (.causal rfl) rfl _ _ (twoRowsBwd_residuals 0 0) [(0, 1), (1, 2)]
    [(0, 2)] (by decide) (by decide) _

/-- Both dK/dV chains end on one pair of buffers. -/
theorem dkv_agree {f : Flags} {x : BwdArgs} {b kvh : ℕ} {L D : ℕ → ℕ → ℝ} {bufs bufs' : DkvBufs}
    (hheld : BwdDkv.BufsHold x (fun key c => BwdDkv.groupV x b kvh key L (BwdDkv.queriesFrom f x b 0 key) c)
      (fun key c => BwdDkv.groupK x b kvh key L D (BwdDkv.queriesFrom f x b 0 key) c) bufs)
    (hheld' : BwdDkv.BufsHold x (fun key c => BwdDkv.groupV x b kvh key L (BwdDkv.queriesFrom f x b 0 key) c)
      (fun key c => BwdDkv.groupK x b kvh key L D (BwdDkv.queriesFrom f x b 0 key) c) bufs') :
    ∀ key < x.s.n, ∀ c < x.s.d, bufs.dk (key, c) = bufs'.dk (key, c) ∧ bufs.dv (key, c) = bufs'.dv (key, c) :=
  fun key hkey c hc => ⟨(hheld.dk key hkey c hc).trans (hheld'.dk key hkey c hc).symm,
    (hheld.dv key hkey c hc).trans (hheld'.dv key hkey c hc).symm⟩

/-- On every row of sorted int32 ids whose breaks are sound, the chained packed
MMA dK/dV returns what the scalar chain returns, for any real residuals and on
any two cuts of the queries. -/
theorem dkv_mma_eq_scalar (src : FwdSource) (x : BwdArgs) (b kvh : ℕ) (row : IdRow x.s.n) (hid : x.segId b = row.get)
    (hflags : src.flags = packedFlags) (hd : src.headDim = x.s.d) (L D : ℕ → ℕ → ℝ)
    (hres : ∀ h ∈ groupHeads x.s kvh, Residuals x b h (L h) (D h)) (ranges ranges' : List (ℕ × ℕ))
    (hranges : Tiles 0 x.s.n ranges) (hranges' : Tiles 0 x.s.n ranges')
    (hsound : ∀ r ∈ ranges, ∀ kblock, kblock * 32 < x.s.n → BreakSound row r.1 r.2 kblock) (mem mem' : ℕ × ℕ → DkvBufs) :
    ∀ key < x.s.n, ∀ c < x.s.d,
      (launchBwdDkv src x b kvh ranges mem).dk (key, c) =
          (Scalar.launchBwdDkv src.flags src.headDim x b kvh ranges' mem').dk (key, c) ∧
        (launchBwdDkv src x b kvh ranges mem).dv (key, c) =
          (Scalar.launchBwdDkv src.flags src.headDim x b kvh ranges' mem').dv (key, c) := by
  have hmma := @launchBwdDkv_eq src x b kvh L D ranges (by rw [hflags]; rfl) (by rw [hflags]; rfl) hd hres hranges
    (fun r hr => hflags ▸ breaksSound_packed hid (hranges.bounds hr).2.2 (hsound r hr)) mem
  exact dkv_agree hmma (Scalar.launchBwdDkv_eq hd hres hranges' mem')

theorem dkv_mma_eq_scalar_twoRows :
    (launchBwdDkv packedEight twoRowsBwd 0 0 [(0, 1), (1, 2)] fun _ => ⟨fun _ => nan, fun _ => nan⟩).dv (1, 7) =
      (Scalar.launchBwdDkv packedFlags 8 twoRowsBwd 0 0 [(0, 2)] fun _ => zeroBufs).dv (1, 7) := by
  refine (dkv_mma_eq_scalar packedEight twoRowsBwd 0 0 zeroOne rfl rfl rfl _ _
    (fun h _ => twoRowsBwd_residuals 0 h) [(0, 1), (1, 2)] [(0, 2)] (by decide) (by decide) ?_ _ _ 1 (by decide) 7
    (by decide)).2
  intro r hr kblock hk
  obtain rfl : kblock = 0 := by
    have hn : twoRowsBwd.s.n = 2 := rfl
    omega
  fin_cases hr <;> exact fun _ hneg => absurd hneg (by decide)

end MlxTrainPerf.Attention.Kernel
