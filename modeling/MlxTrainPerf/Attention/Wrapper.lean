import MlxTrainPerf.Attention.Api
import MlxTrainPerf.Attention.Isolation
/-!
# `FlashAttentionWrapper`

The module that stands in for a layer's `self_attn`: it projects, splits the heads,
turns queries and keys by their position, and attends. The projections, the norms and
the rotation are the model's own modules; each acts on one position at a time. A query
sees the keys its mask keeps, and of a rotation only the distance to them, so a run of
positions that a mask isolates gets the same outputs wherever it stands.
-/
open XReal

namespace MlxTrainPerf.Attention

open Launch (Shape)
open MlxTrainPerf.Core (Dtype)
open Packing

/-- The features of one position. -/
abbrev Vec : Type := ℕ → ℝ

/-- A `(B, L, width)` array. -/
abbrev Rows : Type := ℕ → ℕ → Vec

/-- The submodules of an mlx-lm attention module. `q_proj` gives `nHeads * headDim`
features, `k_proj` and `v_proj` give `nKvHeads * headDim`; `qkNorm` is there for the
families that normalise each head. -/
structure AttentionModule where
  qProj : Vec → Vec
  kProj : Vec → Vec
  vProj : Vec → Vec
  oProj : Vec → Vec
  qkNorm : Option ((Vec → Vec) × (Vec → Vec))
  rope : ℕ → Vec → Vec
  nHeads : ℕ
  nKvHeads : ℕ
  headDim : ℕ
  scale : ℝ
  dtype : Dtype

/-! ## Masks -/

/-- What a layer is called with: a `PackedMask`, a string, `None`, or an array. -/
inductive Mask
  | packed (segments : SegBuffers)
  | str (name : String)
  | none
  | array

def stringMaskMsg (name : String) : String :=
  s!"unsupported string mask '{name}'; the flash-attention training path only supports the 'causal' mask"

def arrayMaskMsg : String :=
  "array attention masks (sliding-window / additive) are not supported; the flash-attention training path is causal-only " ++
    "-- enable it only on full-attention models"

def cacheMsg : String := "FlashAttentionWrapper is a training-only path; a KV cache is not supported"

/-- `_resolve_mask`. -/
def resolveMask : Mask → Except AttentionError (Option SegBuffers)
  | .packed segments => .ok (some segments)
  | .str name => if name = "causal" then .ok .none else .error (.input (stringMaskMsg name))
  | .none => .ok .none
  | .array => .error (.input arrayMaskMsg)

/-! ## The call -/

noncomputable section

/-- `x.reshape(b, length, heads, -1).transpose(0, 2, 1, 3)`. -/
def splitHeads (headDim : ℕ) (x : Vec) (h : ℕ) : Vec := fun c => x (h * headDim + c)

def AttentionModule.queries (m : AttentionModule) (x : Rows) : Tensor ℝ := fun b h i =>
  let head := splitHeads m.headDim (m.qProj (x b i)) h
  m.rope i ((m.qkNorm.elim head fun norms => norms.1 head))

def AttentionModule.keys (m : AttentionModule) (x : Rows) : Tensor ℝ := fun b h j =>
  let head := splitHeads m.headDim (m.kProj (x b j)) h
  m.rope j ((m.qkNorm.elim head fun norms => norms.2 head))

def AttentionModule.values (m : AttentionModule) (x : Rows) : Tensor ℝ := fun b h j =>
  splitHeads m.headDim (m.vProj (x b j)) h

/-- `output.transpose(0, 2, 1, 3).reshape(b, length, -1)`. -/
def AttentionModule.merge (m : AttentionModule) (o : Tensor XReal) : Rows := fun b i k =>
  if k < m.nHeads * m.headDim then (o b (k / m.headDim) i (k % m.headDim)).toReal else 0

def AttentionModule.call (m : AttentionModule) (impl : AttentionImpl) (b n : ℕ) (x : Rows) (segments : Option SegBuffers) :
    AttentionCall where
  qShape := [b, m.nHeads, n, m.headDim]
  kShape := [b, m.nKvHeads, n, m.headDim]
  vShape := [b, m.nKvHeads, n, m.headDim]
  dtype := m.dtype
  q := m.queries x
  k := m.keys x
  v := m.values x
  scale := m.scale
  causal := true
  impl := impl
  segments := segments

/-- `FlashAttentionWrapper.__call__`, on `b` rows of `n` positions. -/
def wrapperCall (dev : AttentionDevice) (mem : Memory) (impl : AttentionImpl) (m : AttentionModule) (b n : ℕ) (x : Rows)
    (mask : Mask) (cache : Bool) : Except AttentionError Rows :=
  if cache then .error (.input cacheMsg)
  else do
    let segments ← resolveMask mask
    let output ← flashAttention dev mem (m.call impl b n x segments)
    return fun b i => m.oProj (m.merge output b i)

/-! ## Runs -/

/-- What RoPE documents: of two turned vectors, the product depends on how far apart they stand. -/
def AttentionModule.Relative (m : AttentionModule) : Prop := ∀ a i j x y,
  ∑ c ∈ Finset.range m.headDim, m.rope (a + i) x c * m.rope (a + j) y c =
    ∑ c ∈ Finset.range m.headDim, m.rope i x c * m.rope j y c

/-- A query of the run keeps the keys of the run up to its own. -/
structure Attends (keep : ℕ → ℕ → ℕ → Bool) (n len : ℕ) (r : Run) : Prop where
  inside : r.t + len ≤ n
  keep_iff : ∀ i < len, ∀ j < n, keep r.b (r.t + i) j = true ↔ r.t ≤ j ∧ j ≤ r.t + i

/-- An array holds a sequence on a run. -/
def HoldsAt (len : ℕ) (x : Rows) (r : Run) (z : ℕ → Vec) : Prop := ∀ i < len, x r.b (r.t + i) = z i

/-- The module over one sequence: position `i` sees the positions up to its own. -/
def AttentionModule.alone (m : AttentionModule) (x : ℕ → Vec) (i : ℕ) : Vec :=
  let s : Shape := ⟨i + 1, m.headDim, 1, m.nHeads, m.nKvHeads⟩
  let o := Oracle.out s (m.queries fun _ => x) (m.keys fun _ => x) (m.values fun _ => x) m.scale (keeps true none)
  m.oProj fun k => if k < m.nHeads * m.headDim then o 0 (k / m.headDim) i (k % m.headDim) else 0

end

section Attend
variable {s s' : Shape} {q q' k k' v v' : Tensor ℝ} {scale : ℝ} {keep keep' : ℕ → ℕ → ℕ → Bool} {len h i c : ℕ}
  {r r' : Run}

theorem Attends.mono {keep : ℕ → ℕ → ℕ → Bool} {n len' : ℕ} (h : Attends keep n len r) (hle : len' ≤ len) :
    Attends keep n len' r where
  inside := (Nat.add_le_add_left hle r.t).trans h.inside
  keep_iff i hi := h.keep_iff i (hi.trans_le hle)

/-- A query of the run sums over the run's keys up to its own. -/
theorem Attends.sum_keys {f f' : ℕ → ℝ} (hleft : Attends keep s.n len r) (hright : Attends keep' s'.n len r') (hi : i < len)
    (hf : ∀ j ≤ i, f (r.t + j) = f' (r'.t + j)) :
    ∑ j ∈ Finset.range s.n, (if keep r.b (r.t + i) j then f j else 0) =
      ∑ j ∈ Finset.range s'.n, (if keep' r'.b (r'.t + i) j then f' j else 0) := by
  have hin := hleft.inside
  have hin' := hright.inside
  refine @sum_run _ _ (i + 1) r.t r'.t _ _ (by omega) (by omega) ?_ ?_ ?_
  · intro j hj hout
    refine if_neg fun hkeep => hout ?_
    have hkept := (hleft.keep_iff i hi j hj).1 hkeep
    omega
  · intro j hj hout
    refine if_neg fun hkeep => hout ?_
    have hkept := (hright.keep_iff i hi j hj).1 hkeep
    omega
  · intro j hj
    rw [if_pos ((hleft.keep_iff i hi (r.t + j) (by omega)).2 (by omega)),
      if_pos ((hright.keep_iff i hi (r'.t + j) (by omega)).2 (by omega))]
    exact hf j (by omega)

/-- Where the scores and the values of a run agree, so do the outputs. -/
theorem Attends.out (hleft : Attends keep s.n len r) (hright : Attends keep' s'.n len r') (hi : i < len)
    (hscore : ∀ j ≤ i, Oracle.score s q k scale r.b h (r.t + i) (r.t + j) =
      Oracle.score s' q' k' scale r'.b h (r'.t + i) (r'.t + j))
    (hvalue : ∀ j ≤ i, kvGather s v r.b h (r.t + j) c = kvGather s' v' r'.b h (r'.t + j) c) :
    Oracle.out s q k v scale keep r.b h (r.t + i) c = Oracle.out s' q' k' v' scale keep' r'.b h (r'.t + i) c := by
  have hlse : Oracle.lse s q k scale keep r.b h (r.t + i) = Oracle.lse s' q' k' scale keep' r'.b h (r'.t + i) := by
    apply congrArg Real.log
    unfold Oracle.keys
    rw [Finset.sum_filter, Finset.sum_filter]
    apply hleft.sum_keys hright hi
    intro j hj
    rw [hscore j hj]
  have hterm : ∀ (s : Shape) (q k v : Tensor ℝ) (keep : ℕ → ℕ → ℕ → Bool) (b row j : ℕ),
      Oracle.prob s q k scale keep b h row j * kvGather s v b h j c =
        if keep b row j then Real.exp (Oracle.score s q k scale b h row j - Oracle.lse s q k scale keep b h row) *
          kvGather s v b h j c else 0 := by
    intro s q k v keep b row j
    unfold Oracle.prob
    rw [ite_mul, zero_mul]
  unfold Oracle.out
  simp only [hterm]
  apply hleft.sum_keys hright hi
  intro j hj
  rw [hscore j hj, hvalue j hj, hlse]

end Attend

/-! ## Masks that keep a query to its run -/

/-- The triangle keeps the first positions to themselves. -/
theorem attends_causal {n len : ℕ} (b : ℕ) (h : len ≤ n) : Attends (keeps true none) n len ⟨b, 0⟩ where
  inside := by
    dsimp only
    omega
  keep_iff := by
    intro i _ j _
    simp only [keeps, Bool.not_true, Bool.false_or, decide_eq_true_eq, Nat.zero_add, Nat.zero_le, true_and]

/-- A segment keeps its first positions to themselves. -/
theorem SegmentAt.attends {segId : ℕ → ℕ → ℤ} {b n len len' t : ℕ} {seg : ℤ} (hseg : SegmentAt (segId b) n seg t len)
    (h : len' ≤ len) : Attends (keeps true (some segId)) n len' ⟨b, t⟩ where
  inside := (Nat.add_le_add_left h t).trans hseg.inside
  keep_iff := by
    intro i hi j hj
    have hiso := (hseg.isolates).keep_iff (t + i) (by have := hseg.inside; omega) j hj (Or.inl (by dsimp only; omega))
    rw [hiso]
    dsimp only
    omega

/-! ## A run of a call -/

section Run
variable {dev : AttentionDevice} {mem : Memory} {impl : AttentionImpl} {m : AttentionModule} {b n len : ℕ} {x y : Rows}
  {mask : Mask} {r : Run} {z : ℕ → Vec}

/-- The call's shape. -/
def AttentionModule.shape (m : AttentionModule) (b n : ℕ) : Shape := ⟨n, m.headDim, b, m.nHeads, m.nKvHeads⟩

/-- A call of the wrapper that returns has attended over its queries, keys and values. -/
theorem wrapperCall_ok {cache : Bool} (h : wrapperCall dev mem impl m b n x mask cache = .ok y) :
    ∃ segments o, resolveMask mask = .ok segments ∧ Accepted (m.call impl b n x segments) (m.shape b n) ∧
      (∃ res, coreForward (m.call impl b n x segments) mem (m.shape b n) res = .ok o) ∧
      y = fun b i => m.oProj (m.merge o b i) := by
  unfold wrapperCall at h
  split at h
  · cases h
  · obtain ⟨segments, hmask, h⟩ := Budget.bind_eq_ok.1 h
    obtain ⟨o, ho, h⟩ := Budget.bind_eq_ok.1 h
    obtain ⟨⟨s, res⟩, hcall, hcore⟩ := Budget.bind_eq_ok.1 ho
    obtain ⟨haccepted, -⟩ := resolveCall_accepted hcall
    obtain rfl : s = m.shape b n := validateShapes_heads haccepted.shapes
    exact ⟨segments, o, hmask, haccepted, ⟨res, hcore⟩, (Except.ok.inj h).symm⟩

/-- The score of two positions of a run is that of the sequence it holds. -/
theorem score_run (hrope : m.Relative) (hx : HoldsAt len x r z) {h i j n' : ℕ} (hi : i < len) (hj : j < len) :
    Oracle.score (m.shape b n) (m.queries x) (m.keys x) m.scale r.b h (r.t + i) (r.t + j) =
      Oracle.score (m.shape 1 n') (m.queries fun _ => z) (m.keys fun _ => z) m.scale 0 h i j := by
  have hturn : Oracle.dot (m.shape b n) (m.queries x) (m.keys x) r.b h (r.t + i) (r.t + j) =
      ∑ c ∈ Finset.range m.headDim,
        m.rope i (m.qkNorm.elim (splitHeads m.headDim (m.qProj (x r.b (r.t + i))) h) fun norms =>
            norms.1 (splitHeads m.headDim (m.qProj (x r.b (r.t + i))) h)) c *
          m.rope j (m.qkNorm.elim (splitHeads m.headDim (m.kProj (x r.b (r.t + j))) (kvHeadFor h (groupSize (m.shape b n))))
            fun norms => norms.2 (splitHeads m.headDim (m.kProj (x r.b (r.t + j))) (kvHeadFor h (groupSize (m.shape b n))))) c :=
    hrope r.t i j _ _
  apply congrArg (· * m.scale)
  rw [hturn, hx i hi, hx j hj]
  rfl

/-- On a run to which the mask keeps its queries, a call that returns gives what the module gives the sequence
alone, wherever the run stands. -/
theorem wrapperCall_alone {cache : Bool} {segments : Option SegBuffers} (hrope : m.Relative) (hb : r.b < b)
    (hmask : resolveMask mask = .ok segments) (hlaid : LaidOut (m.shape b n) segments)
    (hattends : Attends (keeps true (idsOf segments)) n len r) (hx : HoldsAt len x r z)
    (h : wrapperCall dev mem impl m b n x mask cache = .ok y) : HoldsAt len y r (m.alone z) := by
  obtain ⟨_, o, hsegs, haccepted, ⟨res, hcore⟩, rfl⟩ := wrapperCall_ok h
  obtain rfl := Except.ok.inj (hmask.symm.trans hsegs)
  intro i hi
  have hin := hattends.inside
  refine congrArg m.oProj (funext fun k => ?_)
  unfold AttentionModule.merge
  by_cases hk : k < m.nHeads * m.headDim
  · have hd : 0 < m.headDim := Nat.pos_of_ne_zero fun hzero => by simp [hzero] at hk
    have hout := @coreForward_real _ _ mem res o haccepted rfl hlaid hcore r.b (k / m.headDim) (r.t + i) (k % m.headDim) hb
      (show r.t + i < n by omega) (Nat.mod_lt k hd)
    rw [if_pos hk, if_pos hk, hout]
    have hscore : ∀ j ≤ i, Oracle.score (m.shape b n) (m.queries x) (m.keys x) m.scale r.b (k / m.headDim) (r.t + i) (r.t + j) =
        Oracle.score (m.shape 1 (i + 1)) (m.queries fun _ => z) (m.keys fun _ => z) m.scale 0 (k / m.headDim) (0 + i)
          (0 + j) := by
      intro j hj
      rw [Nat.zero_add, Nat.zero_add]
      exact score_run hrope hx hi (by omega)
    have hvalue : ∀ j ≤ i, kvGather (m.shape b n) (m.values x) r.b (k / m.headDim) (r.t + j) (k % m.headDim) =
        kvGather (m.shape 1 (i + 1)) (m.values fun _ => z) 0 (k / m.headDim) (0 + j) (k % m.headDim) := by
      intro j hj
      unfold kvGather AttentionModule.values
      rw [hx j (by omega), Nat.zero_add]
      rfl
    have hrun := @Attends.out (m.shape b n) (m.shape 1 (i + 1)) (m.queries x) _ (m.keys x) _ (m.values x) _ m.scale _ _ (i + 1)
      (k / m.headDim) i (k % m.headDim) r ⟨0, 0⟩ (hattends.mono hi) (attends_causal 0 (le_refl (i + 1))) (Nat.lt_succ_self i)
      hscore hvalue
    dsimp only at hrun
    rw [Nat.zero_add] at hrun
    exact hrun
  · rw [if_neg hk, if_neg hk]

/-- The reference refuses nothing that has a shape. -/
theorem wrapperCall_reference {segments : Option SegBuffers} (hmask : resolveMask mask = .ok segments)
    (hshapes : validateShapes [b, m.nHeads, n, m.headDim] [b, m.nKvHeads, n, m.headDim] [b, m.nKvHeads, n, m.headDim] =
      .ok (m.shape b n)) : ∃ y, wrapperCall dev mem .reference m b n x mask false = .ok y := by
  let c := m.call .reference b n x segments
  have haccepted : Accepted c (m.shape b n) := ⟨hshapes, fun _ => rfl⟩
  have hresolved : resolveCall dev c = .ok (m.shape b n, none) := by
    have himpl : resolveAttentionImpl dev c = .ok (m.shape b n, .reference) := by
      refine Budget.bind_eq_ok.2 ⟨_, hshapes, ?_⟩
      exact if_neg fun h => Bool.noConfusion h.2
    exact Budget.bind_eq_ok.2 ⟨_, himpl, rfl⟩
  obtain ⟨o, lse, hcore, -⟩ := @attentionCore_real (m.shape b n) c.q c.k c.v c.scale c.causal (idsOf c.segments)
    (validateShapes_ok hshapes).2.2 (idsOf_causal haccepted)
  have hout : coreForward c mem (m.shape b n) none = .ok o :=
    Budget.mapError_eq_ok.2 (congrArg (Except.map Prod.fst) hcore)
  exact ⟨_, Budget.bind_eq_ok.2 ⟨_, hmask, Budget.bind_eq_ok.2 ⟨o, Budget.bind_eq_ok.2 ⟨_, hresolved, hout⟩, rfl⟩⟩⟩

end Run

end MlxTrainPerf.Attention
