import MlxTrainPerf.Attention.FwdBudget
import MlxTrainPerf.Attention.Vjp
import MlxTrainPerf.Attention.FlashBackward
/-!
# `flash_attention` on the kernels

The launchers as `flash_attention` calls them: each builds its kernel for its
tile, plans its ranges from its own rate, and dispatches them. A pass runs the
forward, `D`, dQ and the dK/dV chain on one another's outputs. Whenever no
launcher refuses, the result is the reference's and its gradients are the
vector-Jacobian product.
-/
open Loops XReal OnlineSoftmax Vjp

namespace MlxTrainPerf.Attention

open Launch (Shape LaunchBudgetError)
open Kernel Packing

/-! ## Launchers -/

/-- What a launcher raises. -/
inductive KernelError
  | value (e : ValueError)
  | plan (e : Launch.FwdPlanError)
deriving DecidableEq, Repr

inductive Variant
  | scalar
  | mma
deriving DecidableEq, Repr

/-- `TileShape`; `dSlab = none` is the builder's own default. -/
structure TileShape where
  variant : Variant
  dSlab : Option ℤ
deriving DecidableEq, Repr

/-- A built kernel: the scalar body's two parameters, or an MMA source. -/
inductive Body
  | scalar (headDim : ℕ) (flags : Flags)
  | mma (src : FwdSource)

/-- `build_fwd_source`, `build_bwd_dq_source` and `build_bwd_dkv_source`. -/
def buildScalarSource (headDim : ℕ) (flags : Flags) : Except ValueError Body :=
  if headDim ∈ kernelHeadDims then (validatePredicateFlags flags).map fun _ => .scalar headDim flags
  else .error ⟨headDimMsg headDim⟩

/-- `_fwd_kernel`, `_bwd_dq_kernel` and `_bwd_dkv_kernel`, by their MMA builder. -/
def buildKernel (buildMma : ℕ → Flags → Option ℤ → Except ValueError FwdSource) (headDim : ℕ) (flags : Flags)
    (tile : TileShape) : Except ValueError Body :=
  match tile.variant with
  | .mma => (buildMma headDim flags tile.dSlab).map .mma
  | .scalar => buildScalarSource headDim flags

/-- The packed buffers of a call. -/
structure SegBuffers where
  segId : ℕ → ℕ → ℤ
  segStart : ℕ → ℕ → ℤ

/-- The shipped kernels: `causal=True`, packed when there are segments. -/
def shippedFlags (segs : Option SegBuffers) : Flags := if segs.isSome then packedFlags else causalFlags

/-- `plan_dq_dispatches`. -/
def planDqDispatches (s : Shape) (rate : ℚ) (causal : Bool) : Except LaunchBudgetError (List (ℕ × ℕ)) :=
  Launch.planBudgetedRanges ⟨s.n, 3 * s.d * s.b * s.hq, rate, causal⟩
    -- q and dO, k and v, lse and D; then the dQ chunk of each range.
    ⟨2 * s.b * s.hq * s.n * s.d + 2 * s.b * s.hkv * s.n * s.d + 2 * s.b * s.hq * s.n,
      some fun r0 r1 => s.b * s.hq * (r1 - r0) * s.d⟩ 1

/-- Planning from the rate, which divides: Python's own error comes before a refusal. -/
def planFrom (n pairCost : ℕ) (rate : ℚ) (plan : Except LaunchBudgetError (List (ℕ × ℕ))) :
    Except Launch.FwdPlanError (List (ℕ × ℕ)) :=
  if 0 < n ∧ (rate = 0 ∨ 0 < rate ∧ pairCost = 0) then .error .zeroDivision else plan.mapError .budget

/-- The ranges of a launch: all rows at once when there is no rate. -/
def rangesOf (n : ℕ) (plan : ℚ → Except Launch.FwdPlanError (List (ℕ × ℕ))) (rate : Option ℚ) :
    Except KernelError (List (ℕ × ℕ)) :=
  match rate with
  | none => .ok [(0, n)]
  | some rate => (plan rate).mapError .plan

/-- `block_align` of the dK/dV plan. -/
def dkvBlockAlign (tile : TileShape) : ℕ := if tile.variant = .mma then 32 else 1

noncomputable section

def argsOf (s : Shape) (q k v : Tensor ℝ) (scale : ℝ) (segs : Option SegBuffers) : FwdArgs where
  s := s
  q := q
  k := k
  v := v
  scale := scale
  segId := match segs with
    | some m => m.segId
    | none => fun _ _ => 0
  segStart := match segs with
    | some m => m.segStart
    | none => fun _ _ => 0

/-- Rows as an array: what is past them is never read. -/
def ofRows (rows : ℕ → ℕ → List (List XReal)) : Tensor XReal := fun b h i c => ((rows b h).getD i []).getD c nan

/-- What the fresh output buffers of the dispatches hold. -/
structure Memory where
  fwd : ℕ → ℕ → ℕ × ℕ → (ℕ × ℕ → XReal) × (ℕ → XReal)
  dq : ℕ → ℕ → ℕ × ℕ → ℕ × ℕ → XReal
  dkv : ℕ → ℕ → ℕ × ℕ → DkvBufs

/-- The dispatches of a built kernel, reassembled. -/
def Body.fwd (body : Body) (x : FwdArgs) (ranges : List (ℕ × ℕ)) (mem : Memory) (b h : ℕ) : List (List XReal) × List XReal :=
  match body with
  | .mma src => launchFlashFwd src x b h ranges (mem.fwd b h)
  | .scalar headDim flags => Scalar.launchFlashFwd flags headDim x b h ranges

def Body.dq (body : Body) (x : BwdArgs) (ranges : List (ℕ × ℕ)) (mem : Memory) (b h : ℕ) : List (List XReal) :=
  match body with
  | .mma src => launchBwdDq src x b h ranges (mem.dq b h)
  | .scalar headDim flags => Scalar.launchBwdDq flags headDim x b h ranges

def Body.dkv (body : Body) (x : BwdArgs) (ranges : List (ℕ × ℕ)) (mem : Memory) (b kvh : ℕ) : DkvBufs :=
  match body with
  | .mma src => launchBwdDkv src x b kvh ranges (mem.dkv b kvh)
  | .scalar headDim flags => Scalar.launchBwdDkv flags headDim x b kvh ranges (mem.dkv b kvh)

/-- `launch_flash_fwd`: `O` and `L`. -/
def launchFwd (tile : TileShape) (rate : Option ℚ) (segs : Option SegBuffers) (x : FwdArgs) (mem : Memory) :
    Except KernelError (Tensor XReal × RowTensor XReal) := do
  let ranges ← rangesOf x.s.n (fun rate => Launch.planFwdDispatches x.s rate true) rate
  let body ← (buildKernel buildFwdMmaSource x.s.d (shippedFlags segs) tile).mapError .value
  let out := body.fwd x ranges mem
  return (ofRows fun b h => (out b h).1, fun b h i => (out b h).2.getD i nan)

/-- `launch_bwd_dq`. -/
def launchDq (tile : TileShape) (rate : Option ℚ) (segs : Option SegBuffers) (x : BwdArgs) (mem : Memory) :
    Except KernelError (Tensor XReal) := do
  let ranges ← rangesOf x.s.n
    (fun rate => planFrom x.s.n (3 * x.s.d * x.s.b * x.s.hq) rate (planDqDispatches x.s rate true)) rate
  let body ← (buildKernel buildBwdDqMmaSource x.s.d (shippedFlags segs) tile).mapError .value
  return ofRows (body.dq x ranges mem)

/-- `launch_bwd_dkv`: dK and dV. -/
def launchDkv (tile : TileShape) (rate : Option ℚ) (segs : Option SegBuffers) (x : BwdArgs) (mem : Memory) :
    Except KernelError (Tensor XReal × Tensor XReal) := do
  let ranges ← rangesOf x.s.n (fun rate => planFrom x.s.n (4 * x.s.d * x.s.b * x.s.hq) rate
    (Launch.planDkvDispatches x.s rate true (dkvBlockAlign tile))) rate
  let body ← (buildKernel buildBwdDkvMmaSource x.s.d (shippedFlags segs) tile).mapError .value
  let bufs := body.dkv x ranges mem
  return (fun b kvh i c => (bufs b kvh).dk (i, c), fun b kvh i c => (bufs b kvh).dv (i, c))

/-! ## The pass -/

/-- The tiles and rates a call resolves once, outside the traced function. -/
structure Resolved where
  tile : TileShape
  rate : Option ℚ
  dqTile : TileShape
  dqRate : Option ℚ
  dkvTile : TileShape
  dkvRate : Option ℚ

/-- `_core` and `_core_vjp` on the kernel path: the backward reads the forward's own outputs. -/
def kernelPass (s : Shape) (res : Resolved) (q k v dO : Tensor ℝ) (scale : ℝ) (segs : Option SegBuffers)
    (mem : Memory) : Except KernelError Pass := do
  let x := argsOf s q k v scale segs
  let (o, lse) ← launchFwd res.tile res.rate segs x mem
  let y : BwdArgs := { x with dO := dO, lse := lse, dArr := Scalar.launchBwdD s dO o }
  let dQ ← launchDq res.dqTile res.dqRate segs y mem
  let (dK, dV) ← launchDkv res.dkvTile res.dkvRate segs y mem
  return { o, grads := { dQ, dK, dV } }

end

/-- Every batch row of the buffers is a row that `build_row` lays out. -/
def LaidOut (s : Shape) (segs : Option SegBuffers) : Prop :=
  ∀ m, segs = some m → ∀ b < s.b, ∃ entries row, used entries ≤ s.n + 1 ∧ s.n < 2 ^ 31 ∧ buildRow entries s.n = .ok row ∧
    m.segId b = ptr row.segId ∧ m.segStart b = ptr row.segStart

/-! ## What a launch dispatches -/

section Ranges
variable {p : Launch.Pass} {c : Launch.Credit} {blockAlign : ℕ} {ranges : List (ℕ × ℕ)}

/-- At a negative rate no row fits. -/
theorem planBudgetedRanges_of_neg (hn : 0 < p.n) (hrate : p.rate < 0) :
    Launch.planBudgetedRanges p c blockAlign ≠ .ok ranges := by
  intro h
  obtain ⟨w, rest, hw, hpos, -⟩ := Launch.planLoop_ok hn h
  have hbudget : Launch.maxDispatchSeconds * p.rate ≤ 0 := by
    unfold Launch.maxDispatchSeconds
    linarith
  have hzero : Launch.widestWithin p 0 (Launch.maxDispatchSeconds - Launch.Buf.empty.time) blockAlign = 0 := by
    unfold Launch.widestWithin Launch.Buf.empty
    dsimp only
    rw [sub_zero, if_pos hbudget]
  omega

/-- A plan cuts the rows, whatever the rate. -/
theorem tiles_of_planFrom (hn : 0 < p.n) (halign : 1 ≤ blockAlign)
    (h : planFrom p.n p.pairCost p.rate (Launch.planBudgetedRanges p c blockAlign) = .ok ranges) : Tiles 0 p.n ranges := by
  unfold planFrom at h
  split at h
  · cases h
  · next hdivides =>
    rw [Budget.mapError_eq_ok] at h
    have hne : p.rate ≠ 0 := fun hzero => hdivides ⟨hn, .inl hzero⟩
    have hrate : 0 < p.rate := by
      by_contra hneg
      exact planBudgetedRanges_of_neg hn (lt_of_le_of_ne (not_lt.1 hneg) hne) h
    have hcost : 0 < p.pairCost := Nat.pos_of_ne_zero fun hzero => hdivides ⟨hn, .inr ⟨hrate, hzero⟩⟩
    exact (Launch.planBudgetedRanges_safe hcost hrate halign h).tiles

theorem rangesOf_tiles {n : ℕ} {plan : ℚ → Except Launch.FwdPlanError (List (ℕ × ℕ))} {rate : Option ℚ} (hn : 0 < n)
    (hplan : ∀ rate ranges, plan rate = .ok ranges → Tiles 0 n ranges) (h : rangesOf n plan rate = .ok ranges) :
    Tiles 0 n ranges := by
  cases rate with
  | none =>
    obtain rfl := Except.ok.inj h
    exact .single hn
  | some rate => exact hplan rate ranges (Budget.mapError_eq_ok.1 h)

theorem tiles_of_fwd {s : Shape} {rate : ℚ} (hn : 0 < s.n) (h : Launch.planFwdDispatches s rate true = .ok ranges) :
    Tiles 0 s.n ranges := tiles_of_planFrom (p := Launch.fwdPass s rate true) hn le_rfl h

end Ranges

/-! ## What a launch returns -/

/-- The ids of a packed call. -/
def idsOf (segs : Option SegBuffers) : Option (ℕ → ℕ → ℤ) := segs.map SegBuffers.segId

/-- A built kernel is the scalar body or the MMA body it was asked for. -/
theorem buildKernel_ok {buildMma : ℕ → Flags → Option ℤ → Except ValueError FwdSource} {headDim : ℕ} {flags : Flags}
    {tile : TileShape} {body : Body}
    (hmma : ∀ dSlab src, buildMma headDim flags dSlab = .ok src → src.headDim = headDim ∧ src.flags = flags)
    (h : buildKernel buildMma headDim flags tile = .ok body) :
    body = .scalar headDim flags ∨ ∃ src, body = .mma src ∧ src.headDim = headDim ∧ src.flags = flags := by
  unfold buildKernel at h
  cases hvariant : tile.variant with
  | mma =>
    rw [hvariant] at h
    cases hsrc : buildMma headDim flags tile.dSlab with
    | error e =>
      rw [hsrc] at h
      cases h
    | ok src =>
      rw [hsrc] at h
      obtain rfl := Except.ok.inj h
      exact .inr ⟨src, rfl, hmma _ src hsrc⟩
  | scalar =>
    rw [hvariant] at h
    unfold buildScalarSource at h
    dsimp only at h
    split at h
    · cases hflags : validatePredicateFlags flags with
      | error e =>
        rw [hflags] at h
        cases h
      | ok u =>
        rw [hflags] at h
        exact .inl (Except.ok.inj h).symm
    · cases h

theorem ofRows_map {n d : ℕ} {rows : ℕ → ℕ → List (List XReal)} {y : ℕ → ℕ → ℝ} {b h i c : ℕ} (hi : i < n) (hc : c < d)
    (hrows : rows b h = (List.range n).map fun i => (List.range d).map fun c => real (y i c)) :
    ofRows rows b h i c = real (y i c) := by
  unfold ofRows
  have hrow : i < ((List.range n).map fun i => (List.range d).map fun c => real (y i c)).length := by simpa using hi
  have hcol : c < ((List.range d).map fun c => real (y i c)).length := by simpa using hc
  rw [hrows, List.getD_eq_getElem _ _ hrow, List.getElem_map, List.getElem_range, List.getD_eq_getElem _ _ hcol,
    List.getElem_map, List.getElem_range]

/-- The q-heads of a kv head are the call's. -/
theorem groupHeads_lt {s : Shape} {kvh h : ℕ} (hgroup : s.hkv ∣ s.hq) (hkvh : kvh < s.hkv) (hh : h ∈ groupHeads s kvh) :
    h < s.hq := by
  have hhi := (List.mem_range'_1.1 hh).2
  rw [← Nat.succ_mul] at hhi
  have hle := Nat.mul_le_mul_right (groupSize s) (Nat.succ_le_of_lt hkvh)
  rw [Oracle.groupSize_mul hgroup] at hle
  exact hhi.trans_le hle

section Launches
variable {s : Shape} {q k v : Tensor ℝ} {scale : ℝ} {segs : Option SegBuffers} {mem : Memory} {tile : TileShape}
  {rate : Option ℚ} {b h kvh i key c : ℕ}

/-- The shipped flags go with the call's mask. -/
theorem forwardMask_of_flags {src : FwdSource} (hlaid : LaidOut s segs) (hb : b < s.b)
    (hflags : src.flags = shippedFlags segs) : ForwardMask src (argsOf s q k v scale segs) b (idsOf segs) := by
  cases segs with
  | none => exact .causal hflags
  | some m =>
    obtain ⟨entries, row, hfit, hint, hbuild, hid, hstart⟩ := hlaid m rfl b hb
    exact .packed entries row hflags hfit hint hbuild hid hstart

theorem scalarMask_shipped : Scalar.Mask (shippedFlags segs) (argsOf s q k v scale segs) (idsOf segs) := by
  cases segs with
  | none => exact .causal rfl
  | some m => exact .packed rfl

/-- The forward's rows. -/
theorem launchFwd_real {out : Tensor XReal × RowTensor XReal} (hlaid : LaidOut s segs) (hb : b < s.b) (hi : i < s.n)
    (hlaunch : launchFwd tile rate segs (argsOf s q k v scale segs) mem = .ok out) :
    (∀ c < s.d, out.1 b h i c = real (Oracle.out s q k v scale (keeps true (idsOf segs)) b h i c)) ∧
      out.2 b h i = real (Oracle.lse s q k scale (keeps true (idsOf segs)) b h i) := by
  obtain ⟨ranges, hranges, hlaunch⟩ := Budget.bind_eq_ok.1 hlaunch
  obtain ⟨body, hbody, hout⟩ := Budget.bind_eq_ok.1 hlaunch
  obtain rfl := (Except.ok.inj hout).symm
  let x := argsOf s q k v scale segs
  have htiles : Tiles 0 s.n ranges :=
    rangesOf_tiles (by omega) (fun rate ranges hplan => tiles_of_fwd (by omega) hplan) hranges
  have hne : (Oracle.keys s (keeps true (idsOf segs)) b i).Nonempty := keys_nonempty hi
  have hrows : body.fwd x ranges mem b h =
      ((List.range s.n).map fun row => (List.range s.d).map fun c =>
          real (Fwd.rowOut x b h (maskKeys x b (idsOf segs)) row c),
        (List.range s.n).map fun row => real (Fwd.rowLse x b h (maskKeys x b (idsOf segs)) row)) := by
    rcases buildKernel_ok (fun _ _ hsrc => ⟨(buildFwdMmaSource_ok hsrc).1, (buildFwdMmaSource_ok hsrc).2.1⟩)
      (Budget.mapError_eq_ok.1 hbody) with rfl | ⟨src, rfl, hd, hflags⟩
    · exact Scalar.launchFlashFwd_eq scalarMask_shipped rfl htiles
    · have hmask := @forwardMask_of_flags s q k v scale segs b src hlaid hb hflags
      have hends : ∀ r ∈ ranges, Fwd.EndsOn src x b h r.1 r.2 (maskKeys x b (idsOf segs)) :=
        fun r hr => endsOn_mask hmask hd (htiles.bounds hr).2.2
      have hlaunch := Fwd.launchFlashFwd_eq htiles hends (mem.fwd b h)
      rw [hd] at hlaunch
      exact hlaunch
  refine ⟨fun c hc => ?_, ?_⟩
  · rw [Oracle.out_eq_softmaxSum hne]
    dsimp only
    exact ofRows_map (y := Fwd.rowOut x b h (maskKeys x b (idsOf segs))) hi hc (congrArg Prod.fst hrows)
  · have hlen : i < ((List.range s.n).map fun row => real (Fwd.rowLse x b h (maskKeys x b (idsOf segs)) row)).length := by
      simpa using hi
    dsimp only
    rw [hrows, List.getD_eq_getElem _ _ hlen, List.getElem_map, List.getElem_range]
    rfl

section Backward
variable {x : BwdArgs} (hcall : x.toFwdArgs = argsOf s q k v scale segs)
  (hres : ∀ b < s.b, ∀ h < s.hq, Residuals x b h (oracleL x (idsOf segs) b h) (oracleD x (idsOf segs) b h))
include hcall hres

theorem launchDq_real {dQ : Tensor XReal} (hlaid : LaidOut s segs) (hb : b < s.b) (hh : h < s.hq) (hi : i < s.n)
    (hc : c < s.d) (hlaunch : launchDq tile rate segs x mem = .ok dQ) :
    dQ b h i c = real (Oracle.gradQ s q k v x.dO scale (keeps true (idsOf segs)) b h i c) := by
  obtain ⟨ranges, hranges, hlaunch⟩ := Budget.bind_eq_ok.1 hlaunch
  obtain ⟨body, hbody, hout⟩ := Budget.bind_eq_ok.1 hlaunch
  obtain rfl := (Except.ok.inj hout).symm
  have hs : x.s = s := congrArg FwdArgs.s hcall
  have hn : 0 < x.s.n := by
    rw [hs]
    omega
  have htiles : Tiles 0 x.s.n ranges := rangesOf_tiles hn (fun rate ranges hplan =>
    tiles_of_planFrom (p := ⟨x.s.n, 3 * x.s.d * x.s.b * x.s.hq, rate, true⟩) hn le_rfl hplan) hranges
  have hrows : body.dq x ranges mem b h = (List.range x.s.n).map fun row => (List.range x.s.d).map fun c =>
      real (BwdDq.rowGrad x b h (idsOf segs) (oracleL x (idsOf segs) b h) (oracleD x (idsOf segs) b h) row c) := by
    rcases buildKernel_ok (fun _ _ hsrc => ⟨(buildFwdMmaSource_ok hsrc).1, (buildFwdMmaSource_ok hsrc).2.1⟩)
      (Budget.mapError_eq_ok.1 hbody) with rfl | ⟨src, rfl, hd, hflags⟩
    · exact Scalar.launchBwdDq_eq (hcall ▸ scalarMask_shipped) rfl (hres b hb h hh) htiles
    · have hmask := @forwardMask_of_flags s q k v scale segs b src hlaid hb hflags
      exact launchBwdDq_eq (hcall ▸ hmask) hd (hres b hb h hh) htiles (mem.dq b h)
  have hgrad := ofRows_map (hs ▸ hi) (hs ▸ hc) hrows
  rw [rowGrad_oracle, hcall] at hgrad
  exact hgrad

theorem launchDkv_real {out : Tensor XReal × Tensor XReal} (hgroup : s.hkv ∣ s.hq) (hlaid : LaidOut s segs) (hb : b < s.b)
    (hkvh : kvh < s.hkv) (hkey : key < s.n) (hc : c < s.d) (hlaunch : launchDkv tile rate segs x mem = .ok out) :
    out.1 b kvh key c = real (Oracle.gradK s q k v x.dO scale (keeps true (idsOf segs)) b kvh key c) ∧
      out.2 b kvh key c = real (Oracle.gradV s q k x.dO scale (keeps true (idsOf segs)) b kvh key c) := by
  obtain ⟨ranges, hranges, hlaunch⟩ := Budget.bind_eq_ok.1 hlaunch
  obtain ⟨body, hbody, hout⟩ := Budget.bind_eq_ok.1 hlaunch
  obtain rfl := (Except.ok.inj hout).symm
  have hs : x.s = s := congrArg FwdArgs.s hcall
  have hn : 0 < x.s.n := by
    rw [hs]
    omega
  have halign : 1 ≤ dkvBlockAlign tile := by
    unfold dkvBlockAlign
    split <;> decide
  have htiles : Tiles 0 x.s.n ranges := rangesOf_tiles hn (fun rate ranges hplan =>
    tiles_of_planFrom (p := ⟨x.s.n, 4 * x.s.d * x.s.b * x.s.hq, rate, true⟩) hn halign hplan) hranges
  have hheads : ∀ h ∈ groupHeads x.s kvh,
      Residuals x b h (oracleL x (idsOf segs) b h) (oracleD x (idsOf segs) b h) := by
    intro h hh
    refine hres b hb h ?_
    rw [hs] at hh
    exact groupHeads_lt hgroup hkvh hh
  have hmaskKey : ∀ i < x.s.n, keepKey (shippedFlags segs) (x.segId b) x.s.n i key = keeps true (idsOf segs) b i key :=
    fun i _ => keepKey_mask (hcall ▸ scalarMask_shipped) (hs ▸ hkey)
  have hheld : BwdDkv.BufsHold x
      (fun key c => BwdDkv.groupV x b kvh key (oracleL x (idsOf segs) b)
        (BwdDkv.queriesFrom (shippedFlags segs) x b 0 key) c)
      (fun key c => BwdDkv.groupK x b kvh key (oracleL x (idsOf segs) b) (oracleD x (idsOf segs) b)
        (BwdDkv.queriesFrom (shippedFlags segs) x b 0 key) c) (body.dkv x ranges mem b kvh) := by
    rcases buildKernel_ok (fun _ _ hsrc => ⟨(buildFwdMmaSource_ok hsrc).1, (buildFwdMmaSource_ok hsrc).2.1⟩)
      (Budget.mapError_eq_ok.1 hbody) with rfl | ⟨src, rfl, hd, hflags⟩
    · exact Scalar.launchBwdDkv_eq rfl hheads htiles (mem.dkv b kvh)
    · have hmask : ForwardMask src x.toFwdArgs b (idsOf segs) := hcall ▸ forwardMask_of_flags hlaid hb hflags
      obtain ⟨hcausal, hflip, -⟩ := mask_flags hmask
      rw [← hflags]
      exact launchBwdDkv_eq hcausal hflip hd hheads htiles
        (fun r hr => breaksSound_mask hmask (htiles.bounds hr).2.2) (mem.dkv b kvh)
  have hdk := hheld.dk key (hs ▸ hkey) c (hs ▸ hc)
  have hdv := hheld.dv key (hs ▸ hkey) c (hs ▸ hc)
  rw [queriesFrom_eq hmaskKey] at hdk hdv
  rw [groupK_oracle, hcall] at hdk
  rw [groupV_oracle, hcall] at hdv
  exact ⟨hdk, hdv⟩

end Backward

end Launches

/-! ## The pass is the reference's -/

section Entries
variable {s : Shape} {scale : ℝ} {segs : Option SegBuffers} {res : Resolved} {mem : Memory}

/-- Every entry of a kernel pass is the oracle's. -/
theorem kernelPass_real {q k v dO : Tensor ℝ} {r : Pass} (hgroup : s.hkv ∣ s.hq) (hlaid : LaidOut s segs)
    (hpass : kernelPass s res q k v dO scale segs mem = .ok r) :
    (∀ b < s.b, ∀ h < s.hq, ∀ i < s.n, ∀ c < s.d,
      r.o b h i c = real (Oracle.out s q k v scale (keeps true (idsOf segs)) b h i c) ∧
        r.grads.dQ b h i c = real (Oracle.gradQ s q k v dO scale (keeps true (idsOf segs)) b h i c)) ∧
    ∀ b < s.b, ∀ kvh < s.hkv, ∀ j < s.n, ∀ c < s.d,
      r.grads.dK b kvh j c = real (Oracle.gradK s q k v dO scale (keeps true (idsOf segs)) b kvh j c) ∧
        r.grads.dV b kvh j c = real (Oracle.gradV s q k dO scale (keeps true (idsOf segs)) b kvh j c) := by
  obtain ⟨⟨o, lse⟩, hfwd, hpass⟩ := Budget.bind_eq_ok.1 hpass
  obtain ⟨dQ, hdQ, hpass⟩ := Budget.bind_eq_ok.1 hpass
  obtain ⟨⟨dK, dV⟩, hdkv, hout⟩ := Budget.bind_eq_ok.1 hpass
  obtain rfl := (Except.ok.inj hout).symm
  have hrow := fun b (hb : b < s.b) h i (hi : i < s.n) => @launchFwd_real s q k v scale segs mem _ _ b h i _ hlaid hb hi hfwd
  let x : BwdArgs := { argsOf s q k v scale segs with dO := dO, lse := lse, dArr := Scalar.launchBwdD s dO o }
  have hres : ∀ b < s.b, ∀ h < s.hq, Residuals x b h (oracleL x (idsOf segs) b h) (oracleD x (idsOf segs) b h) := by
    intro b hb h _
    constructor
    · exact fun i hi => (hrow b hb h i hi).2
    · exact fun i hi => Scalar.launchBwdD_eq (hrow b hb h i hi).1
  constructor
  · intro b hb h hh i hi c hc
    exact ⟨(hrow b hb h i hi).1 c hc, launchDq_real rfl hres hlaid hb hh hi hc hdQ⟩
  · intro b hb kvh hkvh j hj c hc
    exact launchDkv_real rfl hres hgroup hlaid hb hkvh hj hc hdkv

/-- The oracle's gradients are the vector-Jacobian product of its output. -/
theorem isVjp_oracle (hgroup : s.hkv ∣ s.hq) (segments : Option (ℕ → ℕ → ℤ)) (x : ArgIndex s → ℝ) (dO : Index s s.hq → ℝ) :
    IsVjp (fun x => entries s s.hq (Oracle.out s (qOf x) (kOf x) (vOf x) scale (keeps true segments))) x dO
      (Sum.elim (entries s s.hq (Oracle.gradQ s (qOf x) (kOf x) (vOf x) (ofEntries dO) scale (keeps true segments)))
        (Sum.elim (entries s s.hkv (Oracle.gradK s (qOf x) (kOf x) (vOf x) (ofEntries dO) scale (keeps true segments)))
          (entries s s.hkv (Oracle.gradV s (qOf x) (kOf x) (ofEntries dO) scale (keeps true segments))))) := by
  choose out' hout hmove using @hasFDerivAt_entry s scale true segments x
  refine ⟨ContinuousLinearMap.pi out', hasFDerivAt_pi.2 hout, fun δ => ?_⟩
  have hpair := @Oracle.pair_moveOut s (qOf x) (kOf x) (vOf x) (ofEntries dO) (qOf δ) (kOf δ) (vOf δ) scale
    (keeps true segments) hgroup
  simp only [pair_eq_sum, entries_ofEntries, entries_qOf, entries_kOf, entries_vOf] at hpair
  simp only [Fintype.sum_sum_type, Sum.elim_inl, Sum.elim_inr, ContinuousLinearMap.coe_pi', hmove]
  exact hpair

/-- The kernel forward, from the entries of its arguments to the entries of its result. -/
noncomputable def kernelEntries (s : Shape) (res : Resolved) (scale : ℝ) (segs : Option SegBuffers) (mem : Memory)
    (x : ArgIndex s → ℝ) : Index s s.hq → ℝ :=
  match launchFwd res.tile res.rate segs (argsOf s (qOf x) (kOf x) (vOf x) scale segs) mem with
  | .ok out => fun p => (entries s s.hq out.1 p).toReal
  | .error _ => 0

/-- Whether the forward is refused does not depend on the arrays. -/
theorem launchFwd_ok {tile : TileShape} {rate : Option ℚ} {q k v : Tensor ℝ} {out : Tensor XReal × RowTensor XReal}
    (h : launchFwd tile rate segs (argsOf s q k v scale segs) mem = .ok out) (q' k' v' : Tensor ℝ) :
    ∃ out', launchFwd tile rate segs (argsOf s q' k' v' scale segs) mem = .ok out' := by
  obtain ⟨ranges, hranges, h⟩ := Budget.bind_eq_ok.1 h
  obtain ⟨body, hbody, -⟩ := Budget.bind_eq_ok.1 h
  exact ⟨_, Budget.bind_eq_ok.2 ⟨ranges, hranges, Budget.bind_eq_ok.2 ⟨body, hbody, rfl⟩⟩⟩

theorem kernelEntries_eq {q k v : Tensor ℝ} {out : Tensor XReal × RowTensor XReal} (hlaid : LaidOut s segs)
    (hfwd : launchFwd res.tile res.rate segs (argsOf s q k v scale segs) mem = .ok out) :
    kernelEntries s res scale segs mem =
      fun x => entries s s.hq (Oracle.out s (qOf x) (kOf x) (vOf x) scale (keeps true (idsOf segs))) := by
  funext x p
  obtain ⟨out', hout⟩ := launchFwd_ok hfwd (qOf x) (kOf x) (vOf x)
  unfold kernelEntries
  rw [hout]
  have hrow := @launchFwd_real s _ _ _ scale segs mem _ _ p.1 p.2.1 p.2.2.1 _ hlaid p.1.2 p.2.2.1.2 hout
  exact congrArg XReal.toReal (hrow.1 p.2.2.2 p.2.2.2.2)

end Entries

/-- Whenever no launcher refuses, the kernel pass returns what the reference pass
returns, and its gradients are the vector-Jacobian product of its own forward. -/
theorem kernel_pass_refines (s : Shape) (res : Resolved) (scale : ℝ) (segs : Option SegBuffers) (mem : Memory)
    (hgroup : s.hkv ∣ s.hq) (hlaid : LaidOut s segs) (x : ArgIndex s → ℝ) (dO : Index s s.hq → ℝ) (r : Pass)
    (hpass : kernelPass s res (qOf x) (kOf x) (vOf x) (ofEntries dO) scale segs mem = .ok r) :
    (∃ ref, referencePass s (qOf x) (kOf x) (vOf x) (ofEntries dO) scale true (idsOf segs) = .ok ref ∧
      entries s s.hq r.o = entries s s.hq ref.o ∧ gradEntries s r.grads = gradEntries s ref.grads) ∧
    ∃ g, gradEntries s r.grads = (fun p => real (g p)) ∧ IsVjp (kernelEntries s res scale segs mem) x dO g := by
  obtain ⟨hrows, hkeys⟩ := kernelPass_real hgroup hlaid hpass
  obtain ⟨out, hfwd, -⟩ := Budget.bind_eq_ok.1 hpass
  have hgrads : gradEntries s r.grads = fun p => real (Sum.elim
      (entries s s.hq (Oracle.gradQ s (qOf x) (kOf x) (vOf x) (ofEntries dO) scale (keeps true (idsOf segs))))
      (Sum.elim (entries s s.hkv (Oracle.gradK s (qOf x) (kOf x) (vOf x) (ofEntries dO) scale (keeps true (idsOf segs))))
        (entries s s.hkv (Oracle.gradV s (qOf x) (kOf x) (ofEntries dO) scale (keeps true (idsOf segs))))) p) := by
    funext p
    rcases p with p | p | p
    · exact (hrows p.1 p.1.2 p.2.1 p.2.1.2 p.2.2.1 p.2.2.1.2 p.2.2.2 p.2.2.2.2).2
    · exact (hkeys p.1 p.1.2 p.2.1 p.2.1.2 p.2.2.1 p.2.2.1.2 p.2.2.2 p.2.2.2.2).1
    · exact (hkeys p.1 p.1.2 p.2.1 p.2.1.2 p.2.2.1 p.2.2.1.2 p.2.2.2 p.2.2.2.2).2
  refine ⟨?_, _, hgrads, ?_⟩
  · obtain ⟨ref, href, -, ho, hdQ, hdK, hdV⟩ := @referencePass_real s (qOf x) (kOf x) (vOf x) (ofEntries dO) scale true
      (idsOf segs) hgroup (fun _ => rfl) fun b i hi => keys_nonempty hi
    refine ⟨ref, href, ?_, ?_⟩
    · funext p
      exact (hrows p.1 p.1.2 p.2.1 p.2.1.2 p.2.2.1 p.2.2.1.2 p.2.2.2 p.2.2.2.2).1.trans
        (ho p.1 p.2.1 p.2.2.1 p.2.2.2 p.2.2.1.2).symm
    · rw [hgrads]
      funext p
      rcases p with p | p | p
      · exact (hdQ p.1 p.2.1 p.2.2.1 p.2.2.2 p.2.2.1.2).symm
      · exact (hdK p.1 p.2.1 p.2.2.1 p.2.2.2).symm
      · exact (hdV p.1 p.2.1 p.2.2.1 p.2.2.2).symm
  · rw [kernelEntries_eq hlaid hfwd]
    exact isVjp_oracle hgroup (idsOf segs) x dO

/-- Two rows, one batch, and two q-heads on one kv head. -/
def twoHeads : Shape := ⟨2, 64, 1, 2, 1⟩

/-- The MMA forward and dK/dV, and the scalar dQ. -/
def mixedTiles : Resolved := ⟨⟨.mma, none⟩, none, ⟨.scalar, none⟩, none, ⟨.mma, some 64⟩, none⟩

noncomputable def nanMemory : Memory :=
  ⟨fun _ _ _ => (fun _ => nan, fun _ => nan), fun _ _ _ _ => nan, fun _ _ _ => ⟨fun _ => nan, fun _ => nan⟩⟩

/-- The launchers build these kernels, whatever the arrays. -/
theorem kernelPass_twoHeads (q k v dO : Tensor ℝ) :
    ∃ r, kernelPass twoHeads mixedTiles q k v dO 1 none nanMemory = .ok r := by
  obtain ⟨fwd, hfwd⟩ : ∃ body, buildKernel buildFwdMmaSource 64 causalFlags mixedTiles.tile = .ok body := ⟨_, rfl⟩
  obtain ⟨dq, hdq⟩ : ∃ body, buildKernel buildBwdDqMmaSource 64 causalFlags mixedTiles.dqTile = .ok body := ⟨_, rfl⟩
  obtain ⟨dkv, hdkv⟩ : ∃ body, buildKernel buildBwdDkvMmaSource 64 causalFlags mixedTiles.dkvTile = .ok body := ⟨_, rfl⟩
  have hlaunch : ∀ {α : Type} {body : Body} {x : Except ValueError Body} {f : Body → Except KernelError α} {y : α},
      x = .ok body → f body = .ok y → (x.mapError .value >>= f) = .ok y :=
    fun hbody hy => Budget.bind_eq_ok.2 ⟨_, Budget.mapError_eq_ok.2 hbody, hy⟩
  exact ⟨_, Budget.bind_eq_ok.2 ⟨_, Budget.bind_eq_ok.2 ⟨_, rfl, hlaunch hfwd rfl⟩, Budget.bind_eq_ok.2 ⟨_,
    Budget.bind_eq_ok.2 ⟨_, rfl, hlaunch hdq rfl⟩, Budget.bind_eq_ok.2 ⟨_,
      Budget.bind_eq_ok.2 ⟨_, rfl, hlaunch hdkv rfl⟩, rfl⟩⟩⟩⟩

theorem kernel_pass_refines_twoHeads :
    ∃ g, IsVjp (kernelEntries twoHeads mixedTiles 1 none nanMemory) (fun _ => 1) (fun _ => 1) g := by
  obtain ⟨r, hpass⟩ := kernelPass_twoHeads (qOf fun _ => 1) (kOf fun _ => 1) (vOf fun _ => 1) (ofEntries fun _ => 1)
  obtain ⟨g, -, hvjp⟩ := (kernel_pass_refines twoHeads mixedTiles 1 none nanMemory (by decide) (fun _ h => nomatch h)
    (fun _ => 1) (fun _ => 1) r hpass).2
  exact ⟨g, hvjp⟩

end MlxTrainPerf.Attention
