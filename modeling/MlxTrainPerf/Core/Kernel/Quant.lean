import MlxTrainPerf.Core.Kernel.Launch
/-!
# The quantized forward

`_QUANT_TEMPLATE` and its launcher. The body is the dense one but for the weights:
a fragment takes its nibbles out of the packed words, and scales and biases stay in
registers that are loaded anew where a group of 64 begins. Fragment by fragment it
is the dense body on the weight the words stand for.
-/
open Loops Simdgroup XReal

namespace MlxTrainPerf.Core.Kernel

/-! ## The model -/

/-- A quantized head (`QuantSpec`) and the rows it is applied to. The entries of a shape are int32. -/
structure QuantArgs where
  n : ℕ
  d : ℕ
  v : ℕ
  hidden : ℕ → ℕ → ℝ
  wQ : ℕ → ℕ → BitVec 32
  scales : ℕ → ℕ → ℝ
  biases : ℕ → ℕ → ℝ
  groupSize : ℤ
  bits : ℤ
  targets : ℕ → ℤ
  v_int32 : v < 2 ^ 31

/-- The same rows, with a dense weight. -/
def QuantArgs.withWeight (x : QuantArgs) (w : ℕ → ℕ → ℝ) : DenseArgs :=
  ⟨x.n, x.d, x.v, x.hidden, w, x.targets, x.v_int32⟩

/-- What the body shares with the dense one: the rows and their targets. -/
def QuantArgs.rows (x : QuantArgs) : DenseArgs := x.withWeight fun _ _ => 0

/-- `hsc0`, `hbi0` (`e = 0`) and `hsc1`, `hbi1` (`e = 1`), by lane and column tile. -/
abbrev Hoist : Type := ℕ → ℕ → ℕ → XReal × XReal

noncomputable section

/-- `mtp_dq4`. -/
def mtpDq4 (wqRow : ℕ → BitVec 32) (scRow biRow : ℕ → ℝ) (k : ℕ) : XReal :=
  let packed := wqRow (k >>> 3)
  let nib := (packed >>> (4 * (k &&& 7))) &&& 15#32
  let g := k >>> 6
  real (scRow g) * real nib.toNat + real (biRow g)

/-! ## `_QUANT_TEMPLATE` -/

namespace Quant

variable (x : QuantArgs) (v0 v1 r0 cc : ℕ)

/-- `c0[ct]` and `c1[ct]`. -/
def col (lane ct e : ℕ) : ℕ := wCol v0 v1 cc (8 * ct + fn lane + e)

/-- The reload where `(d0 & 63u) == 0u`. -/
def reload (d0 : ℕ) (hoist : Hoist) : Hoist :=
  if d0 &&& 63 = 0 then
    let g := d0 >>> 6
    fun lane ct e => (real (x.scales (col v0 v1 cc lane ct e) g), real (x.biases (col v0 v1 cc lane ct e) g))
  else hoist

/-- `B[ct]`. -/
def bFrag (hoist : Hoist) (d0 ct : ℕ) : Frag := fun lane e =>
  let nib := (x.wQ (col v0 v1 cc lane ct e) (d0 >>> 3) >>> (4 * fm lane)) &&& 15#32
  real nib.toNat * (hoist lane ct e).1 + (hoist lane ct e).2

/-- `B[ct]` of the guarded tail. -/
def bTail (ct : ℕ) : Frag := fun lane e =>
  let c := col v0 v1 cc lane ct e
  let db := dFull x.rows + fm lane
  if db < x.d then mtpDq4 (x.wQ c) (x.scales c) (x.biases c) db else 0

/-- One step of the loop over `d0`: the registers, and `C[rt][ct]`. -/
def depthStep (rt ct : ℕ) (state : Hoist × Frag) (d0 : ℕ) : Hoist × Frag :=
  let hoist := reload x v0 v1 cc d0 state.1
  (hoist, multiplyAccumulate (hFrag x.rows r0 d0 rt) (bFrag x v0 v1 cc hoist d0 ct) state.2)

/-- `C[rt][ct]`. -/
def tile (hoist : Hoist) (rt ct : ℕ) : Frag :=
  let c := ((steps 8 0 (dFull x.rows)).foldl (depthStep x v0 v1 r0 cc rt ct) (hoist, filled 0)).2
  if dFull x.rows < x.d then multiplyAccumulate (hTail x.rows r0 rt) (bTail x v0 v1 cc ct) c else c

/-- The registers a block leaves to the next. -/
def hoistAfter (hoist : Hoist) : Hoist :=
  (steps 8 0 (dFull x.rows)).foldl (fun hoist d0 => reload x v0 v1 cc d0 hoist) hoist

/-- The registers after the tile's columns. -/
def run (hoist : Hoist) : FwdRegs :=
  ((steps 32 0 (v1 - v0)).foldl (fun (state : FwdRegs × Hoist) cc =>
    (Epilogue.step x.rows (tile x v0 v1 r0 cc state.2) v0 v1 r0 cc state.1, hoistAfter x v0 v1 cc state.2))
    (Epilogue.init, hoist)).1

/-- The body, for one row block; `hoist` is what its registers hold at first. -/
def stores (rowTiles : ℕ) (inp : ℕ → XReal × XReal) (hoist : Hoist) : List (ℕ × XReal × XReal) :=
  if x.n ≤ r0 then [] else Epilogue.stores x.rows r0 (run x v0 v1 r0 hoist) rowTiles inp

end Quant

/-! ## `forward_quantized` -/

/-- `UnsupportedHeadError`, or what the launch raises. -/
inductive QuantError
  | unsupportedHead (msg : String)
  | launch (e : LaunchError)

def quantConfigMsg (bits groupSize : ℤ) : String :=
  s!"forward_quantized only supports bits=4, group_size=64 (got bits={bits}, group_size={groupSize}); " ++
    "use impl='chunked' for other quant configs."

def quantDimMsg (d : ℕ) : String := s!"forward_quantized requires d % 64 == 0 (got d={d}); use impl='chunked'."

/-- One dispatch. -/
def quantTile (x : QuantArgs) (rowTiles : ℕ) (r : ℕ × ℕ) (inp mem : ℕ → XReal × XReal) (hoist : ℕ → Hoist) :
    ℕ → XReal × XReal :=
  storeAll ((rowBlocks x.n rowTiles).flatMap fun ygroup =>
    Quant.stores x r.1 r.2 (ygroup * (8 * rowTiles)) rowTiles inp (hoist ygroup)) mem

/-- The launch behind the checks on the head. -/
def launchQuantized (x : QuantArgs) (rowTiles tile : ℤ) (rate : Option ℚ) (mem : ℕ × ℕ → ℕ → XReal × XReal)
    (hoist : ℕ × ℕ → ℕ → Hoist) : Except LaunchError (List XReal × List XReal) := do
  checkRate x.n x.d x.v tile rate
  let rowTiles ← checkRowTiles rowTiles
  let tiles ← launchTiles x.v tile
  let out := tiles.foldl (fun inp r => quantTile x rowTiles r inp (mem r) (hoist r)) fun _ => (negInf, 0)
  return ((List.range x.n).map fun i => (out i).1, (List.range x.n).map fun i => (out i).2)

/-- `forward_quantized`: `lse` and `tgt`. -/
def forwardQuantized (x : QuantArgs) (rowTiles tile : ℤ) (rate : Option ℚ) (mem : ℕ × ℕ → ℕ → XReal × XReal)
    (hoist : ℕ × ℕ → ℕ → Hoist) : Except QuantError (List XReal × List XReal) :=
  if x.bits ≠ 4 ∨ x.groupSize ≠ 64 then .error (.unsupportedHead (quantConfigMsg x.bits x.groupSize))
  else if x.d % 64 ≠ 0 then .error (.unsupportedHead (quantDimMsg x.d))
  else (launchQuantized x rowTiles tile rate mem hoist).mapError .launch

end

/-! ## Nibbles -/

/-- The weight the words stand for: eight nibbles a word from the low bits up, a scale and a bias each 64. -/
noncomputable def QuantArgs.dequantized (x : QuantArgs) (c i : ℕ) : ℝ :=
  x.scales c (i / 64) * ((x.wQ c (i / 8)).toNat / 16 ^ (i % 8) % 16 : ℕ) + x.biases c (i / 64)

section Nibbles
variable {x : QuantArgs} {d0 k : ℕ}

theorem nibble_toNat (w : BitVec 32) (j : ℕ) : ((w >>> (4 * j)) &&& 15#32).toNat = w.toNat / 16 ^ j % 16 := by
  rw [BitVec.toNat_and, BitVec.toNat_ushiftRight, Nat.shiftRight_eq_div_pow, pow_mul]
  exact Nat.and_two_pow_sub_one_eq_mod _ 4

theorem mtpDq4_eq (c : ℕ) : mtpDq4 (x.wQ c) (x.scales c) (x.biases c) k = real (x.dequantized c k) := by
  have hword : k >>> 3 = k / 8 := Nat.shiftRight_eq_div_pow k 3
  have hgroup : k >>> 6 = k / 64 := Nat.shiftRight_eq_div_pow k 6
  have hplace : k &&& 7 = k % 8 := Nat.and_two_pow_sub_one_eq_mod k 3
  unfold mtpDq4
  rw [hword, hgroup, hplace]
  dsimp only
  rw [nibble_toNat]
  rfl

end Nibbles

/-! ## Fragments -/

namespace Quant

section Fragments
variable {x : QuantArgs} {v0 v1 r0 cc d0 rt ct lo : ℕ} {hoist : Hoist}

/-- The registers hold the scales and biases of the group of `d0`. -/
def Loaded (x : QuantArgs) (v0 v1 cc d0 : ℕ) (hoist : Hoist) : Prop :=
  ∀ lane ct e, hoist lane ct e =
    (real (x.scales (col v0 v1 cc lane ct e) (d0 / 64)), real (x.biases (col v0 v1 cc lane ct e) (d0 / 64)))

/-- A step reloads them where a group begins, and else keeps those of the group it is in. -/
theorem reload_loaded (h : 64 ∣ d0 ∨ Loaded x v0 v1 cc d0 hoist) :
    Loaded x v0 v1 cc d0 (reload x v0 v1 cc d0 hoist) := by
  have hmod : d0 &&& 63 = d0 % 64 := Nat.and_two_pow_sub_one_eq_mod d0 6
  have hgroup : d0 >>> 6 = d0 / 64 := Nat.shiftRight_eq_div_pow d0 6
  unfold reload
  rw [hmod, hgroup]
  split
  · exact fun _ _ _ => rfl
  · next hne => exact h.resolve_left fun hdvd => hne (Nat.mod_eq_zero_of_dvd hdvd)

/-- With its group's registers a fragment is the dense one. -/
theorem bFrag_eq (h8 : 8 ∣ d0) (h : Loaded x v0 v1 cc d0 hoist) :
    bFrag x v0 v1 cc hoist d0 ct = wFrag (x.withWeight x.dequantized) v0 v1 cc d0 ct := by
  funext lane e
  have hfm := fm_lt_eight lane
  have hword : d0 >>> 3 = (d0 + fm lane) / 8 := by
    rw [Nat.shiftRight_eq_div_pow]
    omega
  have hgroup : d0 / 64 = (d0 + fm lane) / 64 := by omega
  have hplace : fm lane = (d0 + fm lane) % 8 := by omega
  have helt : wFrag (x.withWeight x.dequantized) v0 v1 cc d0 ct lane e =
      real (x.dequantized (col v0 v1 cc lane ct e) (d0 + fm lane)) := rfl
  unfold bFrag
  dsimp only
  rw [helt, h lane ct e, hword, hgroup, nibble_toNat, real_mul_real, real_add_real, mul_comm]
  unfold QuantArgs.dequantized
  rw [← hplace]

theorem bTail_eq : bTail x v0 v1 cc ct = wTail (x.withWeight x.dequantized) v0 v1 cc ct := by
  funext lane e
  unfold bTail
  dsimp only
  rw [mtpDq4_eq]
  rfl

/-- The loop over `d0` from a multiple of 8 on, whatever the registers hold where a group begins. -/
theorem foldl_depthStep {m : ℕ} (h8 : 8 ∣ lo) (h : 64 ∣ lo ∨ Loaded x v0 v1 cc lo hoist) (c : Frag) :
    ((steps 8 lo m).foldl (depthStep x v0 v1 r0 cc rt ct) (hoist, c)).2 = (steps 8 lo m).foldl (fun c d0 =>
      multiplyAccumulate (hFrag x.rows r0 d0 rt) (wFrag (x.withWeight x.dequantized) v0 v1 cc d0 ct) c) c := by
  induction hd : m - lo using Nat.strong_induction_on generalizing lo hoist c with
  | _ k ih =>
    rcases Nat.lt_or_ge lo m with hlt | hdone
    · have hloaded := reload_loaded h
      have hnext : 64 ∣ lo + 8 ∨ Loaded x v0 v1 cc (lo + 8) (reload x v0 v1 cc lo hoist) := by
        by_cases hgroup : 64 ∣ lo + 8
        · exact .inl hgroup
        · -- Inside a group the next step is in the same one.
          have hsame : (lo + 8) / 64 = lo / 64 := by omega
          refine .inr fun lane ct e => ?_
          rw [hsame]
          exact hloaded lane ct e
      rw [steps_eq_cons (by decide) hlt, List.foldl_cons, List.foldl_cons]
      dsimp only [depthStep]
      rw [bFrag_eq h8 hloaded]
      exact ih (m - (lo + 8)) (by omega) (by omega) hnext _ rfl
    · rw [steps_eq_nil hdone]
      rfl

/-- A logit tile is the dense one, whatever the registers held before. -/
theorem tile_eq : tile x v0 v1 r0 cc hoist = logitTile (x.withWeight x.dequantized) v0 v1 r0 cc := by
  funext rt ct
  unfold tile
  dsimp only
  rw [foldl_depthStep (dvd_zero 8) (.inl (dvd_zero 64)), bTail_eq]
  rfl

end Fragments

/-! ## The body -/

section Body
variable {x : QuantArgs} {v0 v1 r0 rowTiles : ℕ} {inp : ℕ → XReal × XReal}

theorem run_eq (hoist : Hoist) : run x v0 v1 r0 hoist = Fwd.run (x.withWeight x.dequantized) v0 v1 r0 := by
  unfold run Fwd.run
  generalize Epilogue.init = regs
  induction steps 32 0 (v1 - v0) generalizing regs hoist with
  | nil => rfl
  | cons cc rest ih =>
    rw [List.foldl_cons, List.foldl_cons]
    dsimp only
    rw [tile_eq]
    exact ih _ _

theorem stores_eq (hoist : Hoist) :
    stores x v0 v1 r0 rowTiles inp hoist = Fwd.stores (x.withWeight x.dequantized) v0 v1 r0 rowTiles inp := by
  rw [stores, run_eq]
  rfl

end Body
end Quant

/-! ## The launch -/

theorem launchQuantized_eq (x : QuantArgs) (rowTiles tile : ℤ) (rate : Option ℚ) (mem : ℕ × ℕ → ℕ → XReal × XReal)
    (hoist : ℕ × ℕ → ℕ → Hoist) : launchQuantized x rowTiles tile rate mem hoist =
      forward (x.withWeight x.dequantized) rowTiles tile rate mem := by
  have htile : ∀ rowTiles r inp mem hoist,
      quantTile x rowTiles r inp mem hoist = forwardTile (x.withWeight x.dequantized) rowTiles r inp mem := by
    intro rowTiles r inp mem hoist
    unfold quantTile forwardTile
    simp only [Quant.stores_eq]
    rfl
  unfold launchQuantized forward
  simp only [htile]
  rfl

/-- On a supported head the quantized forward is the dense one on the dequantized weight: the same `lse` and `tgt` and
the same refusals, whatever the registers held. -/
theorem forward_quantized_eq_forward (x : QuantArgs) (hbits : x.bits = 4) (hgroup : x.groupSize = 64) (hd : 64 ∣ x.d)
    (rowTiles tile : ℤ) (rate : Option ℚ) (mem : ℕ × ℕ → ℕ → XReal × XReal) (hoist : ℕ × ℕ → ℕ → Hoist) :
    (∀ c i, mtpDq4 (x.wQ c) (x.scales c) (x.biases c) i = real (x.dequantized c i)) ∧
      forwardQuantized x rowTiles tile rate mem hoist = (forward (x.withWeight fun c i =>
        x.scales c (i / 64) * ((x.wQ c (i / 8)).toNat / 16 ^ (i % 8) % 16 : ℕ) + x.biases c (i / 64))
        rowTiles tile rate mem).mapError .launch := by
  refine ⟨fun c i => mtpDq4_eq c, ?_⟩
  unfold forwardQuantized
  rw [if_neg (by simp [hbits, hgroup]), if_neg (not_not.2 (Nat.mod_eq_zero_of_dvd hd)), launchQuantized_eq]
  rfl

/-- Two rows of 64, of one column; the words hold the nibbles 0 to 7. -/
noncomputable def oneGroup : QuantArgs :=
  ⟨2, 64, 1, fun _ _ => 1, fun _ _ => 0x76543210#32, fun _ _ => 1, fun _ _ => 0, 64, 4, fun _ => 0, by decide⟩

theorem forward_quantized_eq_forward_oneGroup :
    forwardQuantized oneGroup 2 32 none (fun _ _ => (nan, nan)) (fun _ _ _ _ _ => (nan, nan)) =
      (forward (oneGroup.withWeight fun _ i => ((0x76543210 / 16 ^ (i % 8) % 16 : ℕ) : ℝ)) 2 32 none
        fun _ _ => (nan, nan)).mapError .launch := by
  have h := (forward_quantized_eq_forward oneGroup rfl rfl (by decide) 2 32 none (fun _ _ => (nan, nan))
    fun _ _ _ _ _ => (nan, nan)).2
  rw [h]
  simp [oneGroup, QuantArgs.withWeight]

end MlxTrainPerf.Core.Kernel
