import MlxTrainPerf.Attention.KernelPass
import MlxTrainPerf.Core.Kernel.Launch
import MlxTrainPerf.Core.Loss
import MlxTrainPerf.Lib.Memo
import MlxTrainPerf.Lib.Names
/-!
# Compiled kernels, by name

mlx keeps what it compiled by the name of the kernel: a second kernel of one name gets the
first one's binary, whatever its source. Every launcher builds its name from the arguments
of its builder, and Python keeps the built kernel by the arguments themselves. Whatever was
dispatched before, a dispatch runs what its own builder generated.
-/
open Names

namespace MlxTrainPerf.Attention

open MlxTrainPerf.Core (Dtype)
open Kernel

/-! ## Builders -/

/-- The launchers' kernels. -/
inductive KernelKind
  | fwd
  | bwdD
  | bwdDq
  | bwdDkv
  | fusedCe
  | fusedCeQuant
  | bwdDhidden
  | bwdDhiddenMma
  | bwdDw
deriving DecidableEq, Repr

/-- How the name of a kernel starts. -/
def KernelKind.stem : KernelKind → String
  | fwd => "mtp_flash_fwd_"
  | bwdD => "mtp_bwd_D_d"
  | bwdDq => "mtp_flash_bwd_dq_"
  | bwdDkv => "mtp_flash_bwd_dkv_"
  | fusedCe => "mtp_fused_ce_rt"
  | fusedCeQuant => "mtp_fused_ce_quant_rt"
  | bwdDhidden => "mtp_bwd_dhidden_rt"
  | bwdDhiddenMma => "mtp_bwd_dhidden_mma_rt"
  | bwdDw => "mtp_bwd_dw_rt"

/-- The arguments of `_fwd_kernel` and `_bwd_dq_kernel`. -/
structure FlashArgs where
  headDim : ℕ
  causal : Bool
  flipCausal : Bool
  tile : TileShape
  packed : Bool
deriving DecidableEq, Repr

/-- The cross-entropy kernels, all built from `row_tiles` alone. -/
inductive CeKernel
  | dense
  | quant
  | dhidden
  | dhiddenMma
  | dw
deriving DecidableEq, Repr

/-- A kernel, by the function that builds it and its arguments. -/
inductive KernelSpec
  | fwd (a : FlashArgs)
  | bwdD (headDim : ℕ) (dropProduct : Bool)
  | bwdDq (a : FlashArgs)
  | bwdDkv (a : FlashArgs) (segmentBound breakEarly : Bool)
  | ce (kernel : CeKernel) (rowTiles : ℤ)
deriving DecidableEq, Repr

/-- What a template was filled with. -/
inductive KernelSource
  | flash (kind : KernelKind) (body : Body)
  | rowSum (headDim : ℕ) (dropProduct : Bool)
  | ce (kernel : CeKernel) (rowTiles : ℤ)

def CeKernel.kind : CeKernel → KernelKind
  | dense => .fusedCe
  | quant => .fusedCeQuant
  | dhidden => .bwdDhidden
  | dhiddenMma => .bwdDhiddenMma
  | dw => .bwdDw

def KernelSpec.kind : KernelSpec → KernelKind
  | fwd _ => .fwd
  | bwdD _ _ => .bwdD
  | bwdDq _ => .bwdDq
  | bwdDkv _ _ _ => .bwdDkv
  | ce kernel _ => kernel.kind

def FlashArgs.flags (a : FlashArgs) (segmentBound breakEarly : Bool) : Flags :=
  ⟨a.causal, a.flipCausal, false, a.packed, false, segmentBound, breakEarly⟩

def mmaOnlyMsg : String := "segment_bound/break_early apply to the mma variant only"

/-- The source a launcher builds its kernel from. -/
def KernelSpec.build : KernelSpec → Except ValueError KernelSource
  | fwd a => (buildKernel buildFwdMmaSource a.headDim (a.flags true false) a.tile).map (.flash .fwd)
  | bwdD headDim dropProduct =>
    if headDim ∈ kernelHeadDims then .ok (.rowSum headDim dropProduct) else .error ⟨headDimMsg headDim⟩
  | bwdDq a => (buildKernel buildBwdDqMmaSource a.headDim (a.flags true false) a.tile).map (.flash .bwdDq)
  | bwdDkv a segmentBound breakEarly =>
    if a.tile.variant = .scalar ∧ (segmentBound = false ∨ breakEarly = true) then .error ⟨mmaOnlyMsg⟩
    else (buildKernel buildBwdDkvMmaSource a.headDim (a.flags segmentBound breakEarly) a.tile).map (.flash .bwdDkv)
  | ce kernel rowTiles =>
    if rowTiles = 2 ∨ rowTiles = 4 then .ok (.ce kernel rowTiles)
    else .error ⟨MlxTrainPerf.Core.Kernel.rowTilesMsg rowTiles⟩

/-! ## Names -/

def variantText : Variant → String
  | .scalar => "scalar"
  | .mma => "mma"

/-- `f"{d_slab}"`. -/
def slabText : Option ℤ → String
  | none => "None"
  | some slab => toString slab

def maskText (causal : Bool) : String := if causal then "c" else "f"

/-- The end of a name; the last two parts are the MMA dK/dV kernel's own, and empty at its defaults. -/
def flagsText (variant : Variant) (packed segmentBound breakEarly : Bool) : String :=
  (if packed then "_p" else "") ++ (if variant = .mma then if segmentBound then "" else "_nb" else "") ++
    (if variant = .mma then if breakEarly then "_be" else "" else "")

/-- What follows the stem of a flash kernel's name. -/
def FlashArgs.text (a : FlashArgs) (segmentBound breakEarly : Bool) : String :=
  variantText a.tile.variant ++ "_d" ++ toString a.headDim ++ "_" ++ maskText a.causal ++ (if a.flipCausal then "x" else "") ++
    (if a.tile.variant = .mma then "_s" ++ slabText a.tile.dSlab else "") ++
    flagsText a.tile.variant a.packed segmentBound breakEarly

def KernelSpec.text : KernelSpec → String
  | fwd a => a.text true false
  | bwdD headDim dropProduct => toString headDim ++ if dropProduct then "_dropx" else ""
  | bwdDq a => a.text true false
  | bwdDkv a segmentBound breakEarly => a.text segmentBound breakEarly
  | ce _ rowTiles => toString rowTiles

/-- `name=`. -/
def KernelSpec.name (spec : KernelSpec) : String := spec.kind.stem ++ spec.text

/-! ## A name determines the source -/

theorem stem_prefixFree : PrefixFree KernelKind.stem := by
  intro i j
  cases i <;> cases j <;> decide

theorem variantText_prefixFree : PrefixFree variantText := by
  intro i j
  cases i <;> cases j <;> decide

theorem maskText_prefixFree : PrefixFree maskText := by
  unfold PrefixFree
  decide

/-- Nothing, or an underscore first. -/
def Under (s : String) : Prop := ∀ c ∈ s.toList.head?, c = '_'

theorem Under.ends {s : String} (h : Under s) : Ends s := by
  intro c hc
  rw [h c hc]
  decide

theorem under_bar (s : String) : Under ("_" ++ s) := by
  intro c hc
  rw [String.toList_append] at hc
  exact (Option.some.inj hc).symm

theorem under_slab (s : String) : Under ("_s" ++ s) := by
  intro c hc
  rw [String.toList_append] at hc
  exact (Option.some.inj hc).symm

theorem under_flagsText (variant : Variant) (packed segmentBound breakEarly : Bool) :
    Under (flagsText variant packed segmentBound breakEarly) := by
  cases variant <;> cases packed <;> cases segmentBound <;> cases breakEarly <;> simp [Under, flagsText]

/-- The flags are read off the end of an MMA name, and the packing off a scalar one's. -/
theorem flagsText_inj {variant : Variant} {packed segmentBound breakEarly packed' segmentBound' breakEarly' : Bool}
    (h : flagsText variant packed segmentBound breakEarly = flagsText variant packed' segmentBound' breakEarly') :
    packed = packed' ∧ (variant = .mma → segmentBound = segmentBound' ∧ breakEarly = breakEarly') := by
  rw [← String.toList_inj] at h
  cases variant <;> cases packed <;> cases packed' <;> cases segmentBound <;> cases segmentBound' <;>
    cases breakEarly <;> cases breakEarly' <;> simp [flagsText] at h ⊢

section Text
variable {a b : FlashArgs} {segmentBound breakEarly segmentBound' breakEarly' : Bool} {s t : String}

/-- The `x` of a flipped mask is followed by an underscore, or by nothing. -/
theorem flip_append_inj {flip flip' : Bool} (hs : Under s) (ht : Under t)
    (h : (if flip then "x" else "") ++ s = (if flip' then "x" else "") ++ t) : flip = flip' ∧ s = t := by
  have hx : ∀ {s t : String}, Under t → "x" ++ s ≠ "" ++ t := by
    intro s t ht h
    have hlist : 'x' :: s.toList = t.toList := by
      rw [← String.toList_inj, String.toList_append, String.toList_append] at h
      exact h
    have hc := ht 'x' (by rw [← hlist]; rfl)
    exact absurd hc (by decide)
  cases flip <;> cases flip'
  · exact ⟨rfl, append_cancel h⟩
  · exact absurd h.symm (hx hs)
  · exact absurd h (hx ht)
  · exact ⟨rfl, append_cancel h⟩

/-- A slab that builds is no slab, or a positive one. -/
def SlabBuilds (dSlab : Option ℤ) : Prop := ∀ slab, dSlab = some slab → 0 < slab

/-- Slabs are read off a name. -/
theorem slab_append_inj {dSlab dSlab' : Option ℤ} (hslab : SlabBuilds dSlab) (hslab' : SlabBuilds dSlab') (hs : Under s)
    (ht : Under t) (h : slabText dSlab ++ s = slabText dSlab' ++ t) : dSlab = dSlab' ∧ s = t := by
  have hnumeral : ∀ {dSlab : Option ℤ} {z : ℤ}, SlabBuilds dSlab → dSlab = some z → ∃ n : ℕ, z = n ∧ slabText dSlab = toString n := by
    rintro dSlab z hslab rfl
    obtain ⟨n, rfl⟩ := Int.eq_ofNat_of_zero_le (hslab z rfl).le
    exact ⟨n, rfl, rfl⟩
  have hnone : ∀ {n : ℕ} {s t : String}, "None" ++ s ≠ toString n ++ t := by
    intro n s t h
    rw [← String.toList_inj, String.toList_append, String.toList_append, Nat.toString_eq_ofList_toDigits] at h
    simp only [String.toList_ofList] at h
    cases hdigits : Nat.toDigits 10 n with
    | nil => exact Nat.toDigits_ne_nil hdigits
    | cons c cs =>
      rw [hdigits] at h
      have hc : c = 'N' := (List.cons.inj h).1.symm
      have hdigit : c.isDigit := Nat.isDigit_of_mem_toDigits (by decide) (by decide) (hdigits ▸ List.mem_cons_self)
      rw [hc] at hdigit
      exact absurd hdigit (by decide)
  -- Two numerals are read off as such; a numeral starts with a digit, and `None` does not.
  cases hd : dSlab with
  | none =>
    cases hd' : dSlab' with
    | none =>
      rw [hd, hd'] at h
      exact ⟨rfl, append_cancel h⟩
    | some z =>
      obtain ⟨n, -, htext⟩ := hnumeral hslab' hd'
      rw [hd, htext] at h
      exact absurd h hnone
  | some z =>
    obtain ⟨n, rfl, htext⟩ := hnumeral hslab hd
    cases hd' : dSlab' with
    | none =>
      rw [hd', htext] at h
      exact absurd h.symm hnone
    | some z' =>
      obtain ⟨n', rfl, htext'⟩ := hnumeral hslab' hd'
      rw [htext, htext'] at h
      obtain ⟨rfl, rfl⟩ := numeral_append_inj hs.ends ht.ends h
      exact ⟨rfl, rfl⟩

/-- All that a flash kernel's source depends on is read off its name. -/
theorem text_inj (ha : a.tile.variant = .mma → SlabBuilds a.tile.dSlab) (hb : b.tile.variant = .mma → SlabBuilds b.tile.dSlab)
    (h : a.text segmentBound breakEarly = b.text segmentBound' breakEarly') :
    a.tile.variant = b.tile.variant ∧ a.headDim = b.headDim ∧ a.causal = b.causal ∧ a.flipCausal = b.flipCausal ∧
      a.packed = b.packed ∧ (a.tile.variant = .mma → a.tile.dSlab = b.tile.dSlab ∧ segmentBound = segmentBound' ∧
        breakEarly = breakEarly') := by
  unfold FlashArgs.text at h
  simp only [String.append_assoc] at h
  obtain ⟨hvariant, h₁⟩ := stem_append_inj variantText_prefixFree h
  obtain ⟨hdim, h₂⟩ := numeral_append_inj (under_bar _).ends (under_bar _).ends (append_cancel h₁)
  obtain ⟨hcausal, h₃⟩ := stem_append_inj maskText_prefixFree (append_cancel h₂)
  rw [← hvariant] at h₃ hb
  -- A scalar name holds neither the slab nor the last two flags.
  cases hv : a.tile.variant with
  | scalar =>
    rw [hv] at h₃
    obtain ⟨hflip, h₄⟩ := flip_append_inj (under_flagsText _ _ _ _) (under_flagsText _ _ _ _) h₃
    obtain ⟨hpacked, -⟩ := flagsText_inj h₄
    exact ⟨hv ▸ hvariant, hdim, hcausal, hflip, hpacked, fun hmma => nomatch hmma⟩
  | mma =>
    rw [hv] at h₃
    simp only [if_true, String.append_assoc] at h₃
    obtain ⟨hflip, h₄⟩ := flip_append_inj (under_slab _) (under_slab _) h₃
    obtain ⟨hslab, h₅⟩ := slab_append_inj (ha hv) (hb hv) (under_flagsText _ _ _ _) (under_flagsText _ _ _ _) (append_cancel h₄)
    obtain ⟨hpacked, hmma⟩ := flagsText_inj h₅
    exact ⟨hv ▸ hvariant, hdim, hcausal, hflip, hpacked, fun hmma' => ⟨hslab, hmma rfl⟩⟩

end Text

section Build
variable {a b : FlashArgs} {segmentBound breakEarly segmentBound' breakEarly' : Bool}
  {buildMma : ℕ → Flags → Option ℤ → Except ValueError FwdSource}

/-- An MMA builder that takes no slab below one. -/
def ChecksSlab (buildMma : ℕ → Flags → Option ℤ → Except ValueError FwdSource) : Prop :=
  ∀ headDim flags dSlab src, buildMma headDim flags dSlab = .ok src → SlabBuilds dSlab

theorem buildFwdMmaSource_checksSlab : ChecksSlab buildFwdMmaSource := by
  rintro headDim flags dSlab src hsrc slab rfl
  have hslab := (buildFwdMmaSource_ok hsrc).2.2
  have hpos := src.dSlab_pos
  rw [Option.getD_some] at hslab
  omega

theorem buildBwdDqMmaSource_checksSlab : ChecksSlab buildBwdDqMmaSource := by
  rintro headDim flags dSlab src hsrc slab rfl
  exact buildFwdMmaSource_checksSlab headDim flags _ src hsrc slab rfl

theorem buildBwdDkvMmaSource_checksSlab : ChecksSlab buildBwdDkvMmaSource := by
  rintro headDim flags dSlab src hsrc slab rfl
  exact buildFwdMmaSource_checksSlab headDim flags _ src hsrc slab rfl

theorem slabBuilds_of_buildKernel {headDim : ℕ} {flags : Flags} {tile : TileShape} {body : Body} (hchecks : ChecksSlab buildMma)
    (h : buildKernel buildMma headDim flags tile = .ok body) : tile.variant = .mma → SlabBuilds tile.dSlab := by
  intro hmma
  unfold buildKernel at h
  rw [hmma] at h
  cases hsrc : buildMma headDim flags tile.dSlab with
  | error e =>
    dsimp only at h
    rw [hsrc] at h
    cases h
  | ok src => exact hchecks headDim flags tile.dSlab src hsrc

/-- Flash kernels of one text are built alike: what the text leaves out, a scalar body does not read. -/
theorem buildKernel_of_text {body body' : Body} (hchecks : ChecksSlab buildMma)
    (ha : buildKernel buildMma a.headDim (a.flags segmentBound breakEarly) a.tile = .ok body)
    (hb : buildKernel buildMma b.headDim (b.flags segmentBound' breakEarly') b.tile = .ok body')
    (hscalar : a.tile.variant = .scalar → b.tile.variant = .scalar → segmentBound = segmentBound' ∧ breakEarly = breakEarly')
    (h : a.text segmentBound breakEarly = b.text segmentBound' breakEarly') : body = body' := by
  obtain ⟨hvariant, hdim, hcausal, hflip, hpacked, hmma⟩ :=
    text_inj (slabBuilds_of_buildKernel hchecks ha) (slabBuilds_of_buildKernel hchecks hb) h
  have hrest : segmentBound = segmentBound' ∧ breakEarly = breakEarly' := by
    cases hv : a.tile.variant with
    | scalar => exact hscalar hv (hvariant ▸ hv)
    | mma => exact (hmma hv).2
  have hflags : a.flags segmentBound breakEarly = b.flags segmentBound' breakEarly' := by
    unfold FlashArgs.flags
    rw [hcausal, hflip, hpacked, hrest.1, hrest.2]
  have hsame : buildKernel buildMma a.headDim (a.flags segmentBound breakEarly) a.tile =
      buildKernel buildMma b.headDim (b.flags segmentBound' breakEarly') b.tile := by
    rw [hdim, hflags]
    unfold buildKernel
    rw [← hvariant]
    cases hv : a.tile.variant with
    | scalar => rfl
    | mma => rw [(hmma hv).1]
  exact Except.ok.inj (ha.symm.trans (hsame.trans hb))

theorem map_eq_ok {ε α β : Type} {f : α → β} {x : Except ε α} {y : β} (h : x.map f = .ok y) : ∃ a, x = .ok a ∧ f a = y := by
  cases x with
  | error e => cases h
  | ok a => exact ⟨a, rfl, Except.ok.inj h⟩

/-- The head dim and the flag of a D kernel are read off its name. -/
theorem bwdD_text_inj {headDim headDim' : ℕ} {dropProduct dropProduct' : Bool}
    (h : (KernelSpec.bwdD headDim dropProduct).text = (KernelSpec.bwdD headDim' dropProduct').text) :
    headDim = headDim' ∧ dropProduct = dropProduct' := by
  have hends : ∀ drop : Bool, Ends (if drop then "_dropx" else "") := by
    intro drop
    cases drop <;> simp [Ends]
  obtain ⟨rfl, hdrop⟩ := numeral_append_inj (hends _) (hends _) h
  refine ⟨rfl, ?_⟩
  cases dropProduct <;> cases dropProduct' <;> simp at hdrop ⊢

/-- A scalar dK/dV kernel builds at the defaults of the two flags that its name leaves out. -/
theorem bwdDkv_of_text {src src' : KernelSource} (hsrc : (KernelSpec.bwdDkv a segmentBound breakEarly).build = .ok src)
    (hsrc' : (KernelSpec.bwdDkv b segmentBound' breakEarly').build = .ok src')
    (h : a.text segmentBound breakEarly = b.text segmentBound' breakEarly') : src = src' := by
  have hdefault : ∀ {variant : Variant} {bound early : Bool}, ¬(variant = .scalar ∧ (bound = false ∨ early = true)) →
      variant = .scalar → bound = true ∧ early = false := by
    intro variant bound early hno hv
    simpa [hv] using hno
  unfold KernelSpec.build at hsrc hsrc'
  dsimp only at hsrc hsrc'
  split_ifs at hsrc hsrc' with hno hno'
  obtain ⟨body, hbody, rfl⟩ := map_eq_ok hsrc
  obtain ⟨body', hbody', rfl⟩ := map_eq_ok hsrc'
  rw [buildKernel_of_text buildBwdDkvMmaSource_checksSlab hbody hbody' ?_ h]
  intro hv hv'
  obtain ⟨rfl, rfl⟩ := hdefault hno hv
  obtain ⟨rfl, rfl⟩ := hdefault hno' hv'
  exact ⟨rfl, rfl⟩

theorem ce_of_text {kernel : CeKernel} {rowTiles rowTiles' : ℤ} {src src' : KernelSource}
    (hsrc : (KernelSpec.ce kernel rowTiles).build = .ok src) (hsrc' : (KernelSpec.ce kernel rowTiles').build = .ok src')
    (h : (KernelSpec.ce kernel rowTiles).text = (KernelSpec.ce kernel rowTiles').text) : src = src' := by
  obtain rfl : rowTiles = rowTiles' := Int.repr_injective h
  exact Except.ok.inj (hsrc.symm.trans hsrc')

/-- Kernels of one name have one source. -/
theorem build_of_name {spec spec' : KernelSpec} {src src' : KernelSource} (hsrc : spec.build = .ok src)
    (hsrc' : spec'.build = .ok src') (h : spec.name = spec'.name) : src = src' := by
  obtain ⟨hkind, htext⟩ := stem_append_inj stem_prefixFree h
  -- Stems tell the kinds apart; within a kind the rest of the name is read back.
  cases spec with
  | fwd a =>
    cases spec' with
    | fwd b =>
      obtain ⟨body, hbody, rfl⟩ := map_eq_ok hsrc
      obtain ⟨body', hbody', rfl⟩ := map_eq_ok hsrc'
      rw [buildKernel_of_text buildFwdMmaSource_checksSlab hbody hbody' (fun _ _ => ⟨rfl, rfl⟩) htext]
    | ce kernel rowTiles => cases kernel <;> cases hkind
    | _ => cases hkind
  | bwdD headDim dropProduct =>
    cases spec' with
    | bwdD headDim' dropProduct' =>
      obtain ⟨rfl, rfl⟩ := bwdD_text_inj htext
      exact Except.ok.inj (hsrc.symm.trans hsrc')
    | ce kernel rowTiles => cases kernel <;> cases hkind
    | _ => cases hkind
  | bwdDq a =>
    cases spec' with
    | bwdDq b =>
      obtain ⟨body, hbody, rfl⟩ := map_eq_ok hsrc
      obtain ⟨body', hbody', rfl⟩ := map_eq_ok hsrc'
      rw [buildKernel_of_text buildBwdDqMmaSource_checksSlab hbody hbody' (fun _ _ => ⟨rfl, rfl⟩) htext]
    | ce kernel rowTiles => cases kernel <;> cases hkind
    | _ => cases hkind
  | bwdDkv a segmentBound breakEarly =>
    cases spec' with
    | bwdDkv b segmentBound' breakEarly' => exact bwdDkv_of_text hsrc hsrc' htext
    | ce kernel rowTiles => cases kernel <;> cases hkind
    | _ => cases hkind
  | ce kernel rowTiles =>
    cases spec' with
    | ce kernel' rowTiles' =>
      obtain rfl : kernel = kernel' := by
        cases kernel <;> cases kernel' <;> first | rfl | cases hkind
      exact ce_of_text hsrc hsrc' htext
    | _ => cases kernel <;> cases hkind

end Build

/-! ## Runs of dispatches -/

/-- `functools.cache` of the builders, and mlx's library of compiled kernels, one for each element type. -/
structure Process where
  kernels : Memo.Table KernelSpec KernelSource KernelSpec
  library : Memo.Table (String × Dtype) KernelSource (KernelSpec × KernelSource × Dtype)

def Process.start : Process := ⟨.empty, .empty⟩

/-- What a builder gives does not depend on what was built before it. -/
def buildSpec (_before : List KernelSpec) (spec : KernelSpec) : Except ValueError KernelSource := spec.build

/-- Compiling a kernel that was built: a binary is what it was compiled from. -/
def compile (_before : List (KernelSpec × KernelSource × Dtype)) (x : KernelSpec × KernelSource × Dtype) :
    Except ValueError KernelSource := .ok x.2.1

/-- The library's key. -/
def libraryKey (x : KernelSpec × KernelSource × Dtype) : String × Dtype := (x.1.name, x.2.2)

/-- A dispatch: the kernel its arguments name, and the binary it runs. -/
def dispatchKernel (spec : KernelSpec) (dtype : Dtype) : Memo.Prog Process ValueError KernelSource := fun p =>
  let built := Memo.fetch id buildSpec spec p.kernels
  match built.1 with
  | .error e => (.error e, { p with kernels := built.2 })
  | .ok src =>
    let binary := Memo.fetch libraryKey compile (spec, src, dtype) p.library
    (binary.1, ⟨built.2, binary.2⟩)

/-- Every kernel that was compiled is what its own builder generated. -/
structure Process.Sound (p : Process) : Prop where
  kernels : Memo.Sound id buildSpec (fun _ => True) p.kernels
  library : Memo.Sound libraryKey compile (fun x => x.1.build = .ok x.2.1) p.library

section Run
variable {p : Process} {spec : KernelSpec} {dtype : Dtype}

/-- A dispatch runs its own source, and keeps the process sound. -/
theorem dispatchKernel_sound (hp : p.Sound) (spec : KernelSpec) (dtype : Dtype) :
    (dispatchKernel spec dtype p).1 = spec.build ∧ (dispatchKernel spec dtype p).2.Sound := by
  have hbuilt : (Memo.fetch id buildSpec spec p.kernels).1 = spec.build := by
    refine hp.kernels.fetch_eq ?_
    intro before b v _ hb hv
    obtain rfl : b = spec := hb
    exact hv
  have hkernels := hp.kernels.fetch (a := spec) trivial
  unfold dispatchKernel
  dsimp only
  rw [hbuilt]
  cases hsrc : spec.build with
  | error e => exact ⟨rfl, hkernels, hp.library⟩
  | ok src =>
    refine ⟨?_, hkernels, hp.library.fetch hsrc⟩
    refine hp.library.fetch_eq ?_
    intro before b v hgood hkey hv
    have hname : b.1.name = spec.name := congrArg Prod.fst hkey
    obtain rfl := Except.ok.inj hv
    rw [build_of_name hgood hsrc hname]
    rfl

end Run

/-- Whatever was built and compiled before, in any order and under any flags, a dispatch runs the source that its own
arguments generate, or is refused by its builder. -/
theorem dispatched_kernel_is_own (calls : List (KernelSpec × Dtype)) (spec : KernelSpec) (dtype : Dtype) :
    (dispatchKernel spec dtype (Memo.after .start (calls.map fun c => dispatchKernel c.1 c.2))).1 = spec.build := by
  have hsound : ∀ (calls : List (KernelSpec × Dtype)) (p : Process), p.Sound →
      (Memo.after p (calls.map fun c => dispatchKernel c.1 c.2)).Sound := by
    intro calls
    induction calls with
    | nil => exact fun p hp => hp
    | cons c calls ih =>
      intro p hp
      exact ih _ (dispatchKernel_sound hp c.1 c.2).2
  exact (dispatchKernel_sound (hsound calls .start ⟨.empty, .empty⟩) spec dtype).1

end MlxTrainPerf.Attention
