import MlxTrainPerf.Attention.KeyCoverage
import MlxTrainPerf.Attention.Kernel.ForwardRun
/-!
# The forward launch returns the softmax

Every stored row of a slab pass ends on the keys its mask keeps, so the launch
returns the softmax-weighted sums of V and the logsumexp over them, however the
rows are cut into ranges.
-/
open Loops Simdgroup XReal OnlineSoftmax

namespace MlxTrainPerf.Attention.Kernel

open Packing

namespace Fwd

/-! ## Stores -/

section Stores
variable {src : FwdSource} {x : FwdArgs} {b h r0 r1 : ℕ} {keys : ℕ → Finset ℕ}

/-- Each stored row of the range ends its slab passes on the keys `keys row`. -/
def EndsOn (src : FwdSource) (x : FwdArgs) (b h r0 r1 : ℕ) (keys : ℕ → Finset ℕ) : Prop :=
  ∀ block slab0 rt i, i < 8 → rt < 4 → block * 32 + 8 * rt + i < r1 - r0 →
    (keys (r0 + (block * 32 + 8 * rt + i))).Nonempty ∧
      RowHolds src x b h slab0 rt i (r0 + (block * 32 + 8 * rt + i)) (keys (r0 + (block * 32 + 8 * rt + i)))
        (slabPass src x b h (r0 + block * 32) slab0)

/-- The output of a row in a column. -/
noncomputable def rowOut (x : FwdArgs) (b h : ℕ) (keys : ℕ → Finset ℕ) (row c : ℕ) : ℝ :=
  softmaxSum (keys row) (rowScore x b h row) fun kk => kvGather x.s x.v b h kk c

noncomputable def rowLse (x : FwdArgs) (b h : ℕ) (keys : ℕ → Finset ℕ) (row : ℕ) : ℝ :=
  logSumExp (keys row) (rowScore x b h row)

theorem mem_oStores {block : ℕ} {w : (ℕ × ℕ) × XReal} : w ∈ oStores src x b h r0 r1 block ↔
    ∃ slab0 ∈ steps src.dSlab 0 src.headDim, ∃ rt < 4, ∃ lane < 32, block * 32 + 8 * rt + fm lane < r1 - r0 ∧
      ∃ dt < src.dSlab / 8, ∃ e < 2, w = ((block * 32 + 8 * rt + fm lane, slab0 + 8 * dt + (fn lane + e)),
        (slabPass src x b h (r0 + block * 32) slab0).cO rt dt lane e *
          ((slabPass src x b h (r0 + block * 32) slab0).l lane rt).recip) := by
  unfold oStores
  simp only [List.mem_flatMap, List.mem_range]
  refine exists_congr fun slab0 => and_congr_right fun _ => exists_congr fun rt => and_congr_right fun _ =>
    exists_congr fun lane => and_congr_right fun _ => ?_
  split
  · next hlt =>
    simp only [hlt, true_and, List.mem_flatMap, List.mem_range]
    refine exists_congr fun dt => and_congr_right fun _ => ?_
    rw [List.mem_cons, List.mem_singleton]
    constructor
    · rintro (rfl | rfl)
      · exact ⟨0, by decide, rfl⟩
      · exact ⟨1, by decide, rfl⟩
    · rintro ⟨e, he, rfl⟩
      rcases Nat.le_one_iff_eq_zero_or_eq_one.1 (Nat.lt_succ_iff.1 he) with rfl | rfl
      · exact Or.inl rfl
      · exact Or.inr rfl
  · next hge =>
    constructor
    · exact fun hmem => absurd hmem List.not_mem_nil
    · exact fun h => absurd h.1 hge

theorem mem_lStores {block : ℕ} {w : ℕ × XReal} : w ∈ lStores src x b h r0 r1 block ↔
    ∃ slab0 ∈ steps src.dSlab 0 src.headDim, ∃ rt < 4, ∃ lane < 32,
      (block * 32 + 8 * rt + fm lane < r1 - r0 ∧ slab0 = 0 ∧ fn lane = 0) ∧
        w = (block * 32 + 8 * rt + fm lane, (slabPass src x b h (r0 + block * 32) slab0).m lane rt +
          ((slabPass src x b h (r0 + block * 32) slab0).l lane rt).log) := by
  unfold lStores
  simp only [List.mem_flatMap, List.mem_range]
  refine exists_congr fun slab0 => and_congr_right fun _ => exists_congr fun rt => and_congr_right fun _ =>
    exists_congr fun lane => and_congr_right fun _ => ?_
  split
  · next hall => rw [List.mem_singleton, and_iff_right hall]
  · next hnot => exact ⟨fun hmem => absurd hmem List.not_mem_nil, fun h => absurd h.1 hnot⟩

/-- Every store of `O` is the row's output in its column. -/
theorem oStores_value (hends : EndsOn src x b h r0 r1 keys) {block : ℕ} {w : (ℕ × ℕ) × XReal}
    (hw : w ∈ oStores src x b h r0 r1 block) : w.2 = real (rowOut x b h keys (r0 + w.1.1) w.1.2) := by
  obtain ⟨slab0, -, rt, hrt, lane, hlane, hlt, dt, -, e, he, rfl⟩ := mem_oStores.1 hw
  obtain ⟨hne, hheld⟩ := hends block slab0 rt (fm lane) (fm_lt hlane) hrt hlt
  dsimp only
  rw [hheld.cO lane hlane rfl dt e he, hheld.l lane hlane rfl, recip_real (total_pos hne).ne', real_mul_real, total_mul_inv]
  rfl

theorem lStores_value (hends : EndsOn src x b h r0 r1 keys) {block : ℕ} {w : ℕ × XReal}
    (hw : w ∈ lStores src x b h r0 r1 block) : w.2 = real (rowLse x b h keys (r0 + w.1)) := by
  obtain ⟨slab0, -, rt, hrt, lane, hlane, ⟨hlt, -, -⟩, rfl⟩ := mem_lStores.1 hw
  obtain ⟨hne, hheld⟩ := hends block slab0 rt (fm lane) (fm_lt hlane) hrt hlt
  dsimp only
  rw [hheld.m lane hlane rfl, hheld.l lane hlane rfl, peak_of_nonempty hne, log_real (total_pos hne), real_add_real,
    shift_add_log hne]
  rfl

/-- Each column of a row of the range is stored. -/
theorem exists_oStore {i c : ℕ} (hi : i < r1 - r0) (hc : c < src.headDim) :
    ∃ w ∈ oStores src x b h r0 r1 (i / 32), w.1 = (i, c) := by
  have hpos := src.dSlab_pos
  have hslab := @mem_steps_block src.dSlab 0 src.headDim c hpos (Nat.zero_le c) hc
  rw [Nat.zero_add, Nat.sub_zero] at hslab
  have hdt : c % src.dSlab / 8 < src.dSlab / 8 := Nat.div_lt_div_of_lt_of_dvd src.eight_dvd (Nat.mod_lt c hpos)
  obtain ⟨hlane, hfm, hfn⟩ := laneOf_spec (Nat.mod_lt i (by decide : 0 < 8)) (Nat.mod_lt c (by decide : 0 < 8))
  have hrow : i / 32 * 32 + 8 * (i % 32 / 8) + i % 8 = i := by omega
  have hcol : c / src.dSlab * src.dSlab + 8 * (c % src.dSlab / 8) + c % 8 = c := by
    have h8 : c % src.dSlab % 8 = c % 8 := Nat.mod_mod_of_dvd c src.eight_dvd
    have hsplit := Nat.div_add_mod c src.dSlab
    rw [Nat.mul_comm] at hsplit
    omega
  refine ⟨_, mem_oStores.2 ⟨_, hslab, i % 32 / 8, by omega, laneOf (i % 8) (c % 8), hlane, ?_, _, hdt, c % 8 % 2,
    Nat.mod_lt _ (by decide), rfl⟩, ?_⟩
  · rw [hfm, hrow]
    exact hi
  · dsimp only
    rw [hfm, hfn, hrow, hcol]

theorem exists_lStore {i : ℕ} (hi : i < r1 - r0) : ∃ w ∈ lStores src x b h r0 r1 (i / 32), w.1 = i := by
  obtain ⟨hlane, hfm, hfn⟩ := laneOf_spec (Nat.mod_lt i (by decide : 0 < 8)) (by decide : 0 < 8)
  have hrow : i / 32 * 32 + 8 * (i % 32 / 8) + i % 8 = i := by omega
  have hslab : 0 ∈ steps src.dSlab 0 src.headDim :=
    (mem_steps src.dSlab_pos).2 ⟨le_refl 0, src.headDim_pos, Nat.dvd_zero _⟩
  refine ⟨_, mem_lStores.2 ⟨0, hslab, i % 32 / 8, by omega, laneOf (i % 8) 0, hlane, ⟨?_, rfl, hfn⟩, rfl⟩, ?_⟩
  · rw [hfm, hrow]
    exact hi
  · dsimp only
    rw [hfm, hrow]

/-- The rows of one dispatch, whatever its buffers held. -/
theorem chunk_eq (hends : EndsOn src x b h r0 r1 keys) (mem : (ℕ × ℕ → XReal) × (ℕ → XReal)) :
    chunk src x b h r0 r1 mem =
      ((List.range (r1 - r0)).map fun i => (List.range src.headDim).map fun c => real (rowOut x b h keys (r0 + i) c),
        (List.range (r1 - r0)).map fun i => real (rowLse x b h keys (r0 + i))) := by
  have hblock : ∀ i < r1 - r0, i / 32 ∈ List.range ((r1 - r0 + 31) / 32) := fun i hi => List.mem_range.2 (by omega)
  unfold chunk
  refine congrArg₂ Prod.mk (List.map_congr_left fun i hi => List.map_congr_left fun c hc => ?_)
    (List.map_congr_left fun i hi => ?_)
  · have hi := List.mem_range.1 hi
    obtain ⟨w, hw, hplace⟩ := @exists_oStore src x b h r0 r1 i c hi (List.mem_range.1 hc)
    refine storeAll_eq ⟨w, List.mem_flatMap.2 ⟨_, hblock i hi, hw⟩, hplace⟩ fun w hw hplace => ?_
    obtain ⟨block, -, hw⟩ := List.mem_flatMap.1 hw
    rw [oStores_value hends hw, hplace]
  · have hi := List.mem_range.1 hi
    obtain ⟨w, hw, hplace⟩ := @exists_lStore src x b h r0 r1 i hi
    refine storeAll_eq ⟨w, List.mem_flatMap.2 ⟨_, hblock i hi, hw⟩, hplace⟩ fun w hw hplace => ?_
    obtain ⟨block, -, hw⟩ := List.mem_flatMap.1 hw
    rw [lStores_value hends hw, hplace]

/-- The launch over any cut of the rows. -/
theorem launchFlashFwd_eq {ranges : List (ℕ × ℕ)} (hranges : Tiles 0 x.s.n ranges)
    (hends : ∀ r ∈ ranges, EndsOn src x b h r.1 r.2 keys) (mem : ℕ × ℕ → (ℕ × ℕ → XReal) × (ℕ → XReal)) :
    launchFlashFwd src x b h ranges mem =
      ((List.range x.s.n).map fun row => (List.range src.headDim).map fun c => real (rowOut x b h keys row c),
        (List.range x.s.n).map fun row => real (rowLse x b h keys row)) := by
  have hrows : ∀ {α : Type} (f : ℕ → α), (ranges.flatMap fun r => (List.range (r.2 - r.1)).map fun i => f (r.1 + i)) =
      (List.range x.s.n).map f := by
    intro α f
    rw [hranges.flatMap_rows, Nat.sub_zero]
    simp only [Nat.zero_add]
  unfold launchFlashFwd
  dsimp only
  rw [List.flatMap_map, List.flatMap_map, ← hrows, ← hrows]
  refine congrArg₂ Prod.mk (List.flatMap_congr fun r hr => ?_) (List.flatMap_congr fun r hr => ?_)
  · exact congrArg Prod.fst (chunk_eq (hends r hr) (mem r))
  · exact congrArg Prod.snd (chunk_eq (hends r hr) (mem r))

end Stores
end Fwd

/-! ## Masks -/

/-- A shipped body and the mask it is launched with: the causal one, or the
packed one over a row that `build_row` lays out. -/
inductive ForwardMask (src : FwdSource) (x : FwdArgs) (b : ℕ) : Option (ℕ → ℕ → ℤ) → Prop
  | causal (hflags : src.flags = causalFlags) : ForwardMask src x b none
  | packed (entries : List Entry) (row : Row) (hflags : src.flags = packedFlags) (hfit : used entries ≤ x.s.n + 1)
      (hint : x.s.n < 2 ^ 31) (hbuild : buildRow entries x.s.n = .ok row) (hid : x.segId b = ptr row.segId)
      (hstart : x.segStart b = ptr row.segStart) : ForwardMask src x b (some x.segId)

/-- The keys a row keeps under a mask. -/
def maskKeys (x : FwdArgs) (b : ℕ) (segments : Option (ℕ → ℕ → ℤ)) (row : ℕ) : Finset ℕ :=
  Oracle.keys x.s (keeps true segments) b row

section Masks
variable {src : FwdSource} {x : FwdArgs} {b h r0 r1 rowBase row : ℕ} {segments : Option (ℕ → ℕ → ℤ)}

theorem keepRow_causal {segId : ℕ → ℤ} {n kk : ℕ} : keepRow causalFlags segId n row kk = decide (kk ≤ row) := by
  simp only [keepRow, causalKeep, causalFlags, Bool.not_true, Bool.false_eq_true, if_false, Bool.not_false, Bool.true_or,
    Bool.and_true]

/-- A query keeps itself. -/
theorem self_mem_maskKeys (hrow : row < x.s.n) : row ∈ maskKeys x b segments row := by
  refine Oracle.mem_keys.2 ⟨hrow, ?_⟩
  cases segments with
  | some segId => simp only [keeps, segmentAllowed, decide_true, Bool.and_self, le_refl]
  | none => simp only [keeps, le_refl, decide_true, Bool.or_true]

/-- From its block's lower bound on, a row keeps what its mask keeps. -/
theorem keptFrom_mask (hmask : ForwardMask src x b segments) (hbase : rowBase ≤ row) (hrow : row < x.s.n) :
    Fwd.keptFrom src x b row (kvLo src.flags (x.segStart b) x.s.n rowBase) = maskKeys x b segments row := by
  ext kk
  rw [Fwd.mem_keptFrom, maskKeys, Oracle.mem_keys]
  cases hmask with
  | causal hflags =>
    rw [hflags, keepRow_causal]
    simp only [kvLo, causalFlags, keeps, Bool.false_eq_true, if_false, Nat.zero_le, true_and, Bool.not_true, Bool.false_or]
  | packed entries prow hflags hfit hint hbuild hid hstart =>
    obtain rfl : layout entries x.s.n = prow := Except.ok.inj ((buildRow_eq hfit).symm.trans hbuild)
    have hkeeps : keeps true (some x.segId) b row kk = segmentAllowed (x.segId b) row kk := rfl
    rw [hflags, keepRow_packed hrow, hkeeps, hid, hstart]
    constructor
    · exact fun hall => ⟨hall.1.2, hall.2⟩
    · exact fun hall => ⟨⟨kvLo_le_kept hint hrow hbase hall.2, hall.1⟩, hall.2⟩

theorem mask_flags (hmask : ForwardMask src x b segments) :
    src.flags.causal = true ∧ src.flags.flipCausal = false ∧ (src.flags.packed = true ∨ src.flags = causalFlags) := by
  cases hmask with
  | causal hflags => rw [hflags]; exact ⟨rfl, rfl, Or.inr rfl⟩
  | packed entries prow hflags => rw [hflags]; exact ⟨rfl, rfl, Or.inl rfl⟩

/-- The causal body keeps key 0 in its first block. -/
theorem blockKeys_causal (hflags : src.flags = causalFlags) (hrow : row < x.s.n) :
    (Fwd.blockKeys src x b (kvLo src.flags (x.segStart b) x.s.n rowBase) row).Nonempty := by
  refine ⟨0, Fwd.mem_blockKeys.2 ?_⟩
  rw [hflags, keepRow_causal]
  exact ⟨⟨Nat.zero_le _, Nat.succ_pos _⟩, by omega, decide_eq_true (Nat.zero_le row)⟩

/-- Every slab pass ends on the mask's keys. -/
theorem endsOn_mask (hmask : ForwardMask src x b segments) (hd : src.headDim = x.s.d) (hr1 : r1 ≤ x.s.n) :
    Fwd.EndsOn src x b h r0 r1 (maskKeys x b segments) := by
  intro block slab0 rt i hi hrt hlt
  have hrow : r0 + block * 32 + 8 * rt + i < x.s.n := by omega
  have hsame : r0 + (block * 32 + 8 * rt + i) = r0 + block * 32 + 8 * rt + i := by omega
  obtain ⟨hcausal, hflip, hfirst⟩ := mask_flags hmask
  rw [hsame]
  refine ⟨⟨_, self_mem_maskKeys hrow⟩, ?_⟩
  rw [← keptFrom_mask hmask (show r0 + block * 32 ≤ r0 + block * 32 + 8 * rt + i by omega) hrow]
  apply Fwd.slabPass_holds ⟨hd, hrow⟩
  · exact fun kk hkk hkeep => kept_lt_kvLimit hcausal hflip (by omega) hkk hkeep
  · exact hfirst.imp_right fun hflags => blockKeys_causal hflags hrow

end Masks

/-- The forward launch returns, for every cut of the rows, each row's
softmax-weighted sum of V and its logsumexp over exactly the keys the mask
keeps, and no normalizer it divides by is 0. -/
theorem flash_fwd_softmax (src : FwdSource) (x : FwdArgs) (b h : ℕ) (segments : Option (ℕ → ℕ → ℤ))
    (hmask : ForwardMask src x b segments) (hd : src.headDim = x.s.d) (ranges : List (ℕ × ℕ))
    (hranges : Tiles 0 x.s.n ranges) (mem : ℕ × ℕ → (ℕ × ℕ → XReal) × (ℕ → XReal)) :
    launchFlashFwd src x b h ranges mem =
        ((List.range x.s.n).map fun row => (List.range x.s.d).map fun c =>
            real (softmaxSum (maskKeys x b segments row) (Oracle.score x.s x.q x.k x.scale b h row)
              fun kk => kvGather x.s x.v b h kk c),
          (List.range x.s.n).map fun row =>
            real (logSumExp (maskKeys x b segments row) (Oracle.score x.s x.q x.k x.scale b h row))) ∧
      ∀ r ∈ ranges, ∀ block slab0 rt lane, rt < 4 → lane < 32 → block * 32 + 8 * rt + fm lane < r.2 - r.1 →
        ∃ l, 0 < l ∧ (Fwd.slabPass src x b h (r.1 + block * 32) slab0).l lane rt = real l := by
  have hends : ∀ r ∈ ranges, Fwd.EndsOn src x b h r.1 r.2 (maskKeys x b segments) :=
    fun r hr => endsOn_mask hmask hd (hranges.bounds hr).2.2
  refine ⟨?_, ?_⟩
  · rw [← hd]
    exact Fwd.launchFlashFwd_eq hranges hends mem
  · intro r hr block slab0 rt lane hrt hlane hlt
    obtain ⟨hne, hheld⟩ := hends r hr block slab0 rt (fm lane) (fm_lt hlane) hrt hlt
    exact ⟨_, total_pos hne, hheld.l lane hlane rfl⟩

/-- A causal body of one 8-column slab. -/
def causalEight : FwdSource :=
  ⟨8, 8, causalFlags, by decide, by decide, by decide, by decide, rfl⟩

/-- Two rows of ones. -/
noncomputable def twoRows : FwdArgs :=
  ⟨⟨2, 8, 1, 1, 1⟩, fun _ _ _ _ => 1, fun _ _ _ _ => 1, fun _ _ _ _ => 1, 1, fun _ _ => 0, fun _ _ => 0⟩

theorem flash_fwd_softmax_twoRows :
    (launchFlashFwd causalEight twoRows 0 0 [(0, 1), (1, 2)] fun _ => (fun _ => nan, fun _ => nan)).2 =
      (List.range 2).map fun row =>
        real (logSumExp (maskKeys twoRows 0 none row) (Oracle.score twoRows.s twoRows.q twoRows.k twoRows.scale 0 0 row)) :=
  congrArg Prod.snd (flash_fwd_softmax causalEight twoRows 0 0 none (.causal rfl) rfl [(0, 1), (1, 2)] (by decide)
    fun _ => (fun _ => nan, fun _ => nan)).1

end MlxTrainPerf.Attention.Kernel
