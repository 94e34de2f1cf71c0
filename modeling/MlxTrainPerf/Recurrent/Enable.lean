import MlxTrainPerf.Recurrent.Wrapper
import MlxTrainPerf.Lib.PyList
/-!
# Does a refusal leave the model alone?

The checks run ahead of every replacement. What they do not look at is whether the
frozen keys of a module have attributes on the proxy: the constructor refuses those
itself, one layer at a time. So a refusal leaves the model alone unless the first
linear layer's keys carry over and a later one's do not (`LateRefusal`).
-/
open Budget PyList

namespace MlxTrainPerf.Recurrent

/-! ## What the checks let through -/

/-- An unsharded `GatedDeltaNet`. -/
def Layer.Supported (layer : Layer) : Prop :=
  ∃ id attrs, layer.linearAttn = some (.net id attrs) ∧ attrs.shardingGroup = none

/-- No layer, for an index out of range. -/
def noLayer : Layer := ⟨false, none⟩

/-- Every check passes on a model with these layers. -/
structure Passes (env : Env) (impl : String) (model : Model) (layers : List Layer) : Prop where
  impl_valid : impl ∈ validImpls
  family : model.moduleName = qwen35Module
  trunk : model.layers = some layers
  dense : ∃ args n, model.args = some args ∧ args.numExperts = some n ∧ n ≤ 0
  /-- The raw list, where there is one, names the linear layers. -/
  types_agree : ∀ layerTypes, model.layerTypes = some layerTypes → layerTypes.length = layers.length ∧
    ∀ i < layers.length, decide (layerTypes.getD i "" ≠ "full_attention") = (layers.getD i noLayer).isLinear
  mlxLm : env.mlxLm = true
  supported : ∀ layer ∈ layers, layer.isLinear = true → layer.Supported
  some_linear : ∃ layer ∈ layers, layer.isLinear = true

section Checks
variable {env : Env} {impl : String} {model : Model} {layers : List Layer} {layer : Layer} {selected : List ℕ} {i : ℕ}

theorem selectLinearLayer_eq_ok {wanted : Bool} : selectLinearLayer i layer = .ok wanted ↔
    wanted = layer.isLinear ∧ (layer.isLinear = true → layer.Supported) := by
  unfold selectLinearLayer Layer.Supported
  cases layer.isLinear with
  | false => simp [eq_comm]
  | true =>
    rcases layer.linearAttn with _ | ⟨id, attrs⟩ | ⟨id, attrs, impl⟩ | ⟨id, typeName⟩
    · simp
    · cases hgroup : attrs.shardingGroup <;> simp [hgroup, eq_comm]
    · simp
    · simp

theorem checkLayerTypesAgree_eq_ok {layerTypes : List String} :
    checkLayerTypesAgree i layer (some layerTypes) = .ok () ↔
      decide (layerTypes.getD i "" ≠ "full_attention") = layer.isLinear := by
  unfold checkLayerTypesAgree
  dsimp only
  split
  · next hne => exact iff_of_false nofun hne
  · next heq => exact iff_of_true rfl (not_not.1 heq)

/-- The selected indices are those of the linear layers, in order, each an unsharded `GatedDeltaNet`. -/
theorem selectFrom_eq_ok (pre : List Layer) {layerTypes : Option (List String)}
    (h : selectFrom layerTypes pre.length layers = .ok selected) :
    selected.map (fun j => (pre ++ layers).getD j noLayer) = layers.filter Layer.isLinear ∧
      selected.Pairwise (· < ·) ∧ (∀ j ∈ selected, pre.length ≤ j ∧ j < (pre ++ layers).length) ∧
      ∀ layer ∈ layers, layer.isLinear = true → layer.Supported := by
  induction layers generalizing pre selected with
  | nil =>
    obtain rfl := Except.ok.inj h
    simp
  | cons layer rest ih =>
    simp only [selectFrom, bind_eq_ok, selectLinearLayer_eq_ok] at h
    obtain ⟨_, -, wanted, ⟨rfl, hsupported⟩, selected', hrest, hret⟩ := h
    obtain rfl := Except.ok.inj hret
    have hsnoc : (pre ++ [layer]).length = pre.length + 1 := by simp
    rw [← hsnoc] at hrest
    obtain ⟨hmap, hsorted, hbounds, hall⟩ := ih _ hrest
    have happend : pre ++ [layer] ++ rest = pre ++ layer :: rest := by simp
    rw [happend] at hmap hbounds
    have hall' : ∀ l ∈ layer :: rest, l.isLinear = true → l.Supported := List.forall_mem_cons.2 ⟨hsupported, hall⟩
    cases hlinear : layer.isLinear with
    | false =>
      rw [List.filter_cons_of_neg (by simp [hlinear])]
      exact ⟨hmap, hsorted, fun j hj => ⟨by have := (hbounds j hj).1; omega, (hbounds j hj).2⟩, hall'⟩
    | true =>
      rw [List.filter_cons_of_pos (by simp [hlinear])]
      refine ⟨?_, ?_, ?_, hall'⟩
      · simp only [if_true, List.map_cons, hmap]
        simp
      · refine List.pairwise_cons.2 ⟨fun j hj => ?_, hsorted⟩
        have := (hbounds j hj).1
        omega
      · refine List.forall_mem_cons.2 ⟨by simp, fun j hj => ⟨?_, (hbounds j hj).2⟩⟩
        have := (hbounds j hj).1
        omega

/-- When the loop goes through. -/
theorem selectFrom_returns {layerTypes : Option (List String)}
    (hsupported : ∀ layer ∈ layers, layer.isLinear = true → layer.Supported)
    (hagree : ∀ types, layerTypes = some types → ∀ j < layers.length,
      decide (types.getD (i + j) "" ≠ "full_attention") = (layers.getD j noLayer).isLinear) :
    ∃ selected, selectFrom layerTypes i layers = .ok selected := by
  induction layers generalizing i with
  | nil => exact ⟨[], rfl⟩
  | cons layer rest ih =>
    obtain ⟨hlayer, hrest⟩ := List.forall_mem_cons.1 hsupported
    obtain ⟨selected, hselected⟩ := ih (i := i + 1) hrest fun types htypes j hj => by
      have := hagree types htypes (j + 1) (by simpa using hj)
      rwa [← Nat.add_assoc, Nat.add_right_comm] at this
    have hcheck : checkLayerTypesAgree i layer layerTypes = .ok () := by
      cases layerTypes with
      | none => rfl
      | some types => exact checkLayerTypesAgree_eq_ok.2 (hagree types rfl 0 (by simp))
    simp only [selectFrom, bind_eq_ok, selectLinearLayer_eq_ok]
    exact ⟨_, (), hcheck, layer.isLinear, ⟨rfl, hlayer⟩, selected, hselected, rfl⟩

theorem selectFrom_agrees {types : List String} (h : selectFrom (some types) i layers = .ok selected) :
    ∀ j < layers.length, decide (types.getD (i + j) "" ≠ "full_attention") = (layers.getD j noLayer).isLinear := by
  induction layers generalizing i selected with
  | nil => simp
  | cons layer rest ih =>
    simp only [selectFrom, bind_eq_ok] at h
    obtain ⟨_, hcheck, wanted, -, selected', hrest, -⟩ := h
    intro j hj
    cases j with
    | zero => exact checkLayerTypesAgree_eq_ok.1 hcheck
    | succ j =>
      have := ih hrest j (by simpa using hj)
      rwa [Nat.add_assoc, Nat.add_comm 1] at this

theorem requireQwen35_eq_ok {u : Unit} : requireQwen35 model = .ok u ↔ model.moduleName = qwen35Module := by
  unfold requireQwen35
  split
  · next hname => exact iff_of_true rfl hname
  · next hname => exact iff_of_false (fun h => by cases h) hname

theorem textModel_eq_ok :
    textModel model = .ok layers ↔ model.moduleName = qwen35Module ∧ model.layers = some layers := by
  simp only [textModel, bind_eq_ok, requireQwen35_eq_ok, exists_const]
  refine and_congr_right fun _ => ?_
  cases model.layers with
  | none => simp
  | some ls => simp

theorem textArgs_eq_ok {args : TextArgs} : textArgs model = .ok args ↔
    model.moduleName = qwen35Module ∧ model.args = some args := by
  simp only [textArgs, bind_eq_ok, requireQwen35_eq_ok, exists_const]
  refine and_congr_right fun _ => ?_
  cases model.args with
  | none => simp
  | some a => simp

theorem checkDense_eq_ok {args : TextArgs} : checkDense args = .ok () ↔ ∃ n, args.numExperts = some n ∧ n ≤ 0 := by
  unfold checkDense
  cases args.numExperts with
  | none => simp
  | some n =>
    by_cases hn : n > 0
    · simp [hn]
    · simp [hn, not_lt.1 hn]

theorem gatedDeltaNetClass_eq_ok : gatedDeltaNetClass env = .ok () ↔ env.mlxLm = true := by
  unfold gatedDeltaNetClass
  cases env.mlxLm <;> simp

theorem rawLayerTypes_eq_ok {n : ℕ} {types : Option (List String)} : rawLayerTypes model n = .ok types ↔
    types = model.layerTypes ∧ ∀ l, model.layerTypes = some l → l.length = n := by
  unfold rawLayerTypes
  cases model.layerTypes with
  | none => simp [eq_comm]
  | some l =>
    by_cases hlen : l.length = n
    · simp [hlen, eq_comm]
    · simp [hlen]

/-- The checks select every linear layer, in order. -/
theorem of_checks (h : checks env impl model = .ok (layers, selected)) : Passes env impl model layers ∧
    selected.map (fun j => layers.getD j noLayer) = layers.filter Layer.isLinear ∧ selected.Pairwise (· < ·) ∧
    ∀ j ∈ selected, j < layers.length := by
  unfold checks at h
  split at h
  · cases h
  · next himpl =>
    split at h
    · cases h
    · simp only [bind_eq_ok, textModel_eq_ok, textArgs_eq_ok, rawLayerTypes_eq_ok] at h
      obtain ⟨layers', ⟨hname, hlayers⟩, args, ⟨-, hargs⟩, ⟨⟩, hdense, types, ⟨rfl, hlength⟩, ⟨⟩, hclass, selected',
        hselect, hret⟩ := h
      obtain ⟨n, hexperts, hn⟩ := checkDense_eq_ok.1 hdense
      split at hret
      · cases hret
      · next hsome =>
        obtain ⟨rfl, rfl⟩ := Prod.mk.inj (Except.ok.inj hret)
        obtain ⟨hmap, hsorted, hbounds, hsupported⟩ := selectFrom_eq_ok [] hselect
        refine ⟨⟨not_not.1 himpl, hname, hlayers, ⟨args, n, hargs, hexperts, hn⟩, fun l hl => ⟨hlength l hl, ?_⟩,
          gatedDeltaNetClass_eq_ok.1 hclass,
          hsupported, ?_⟩, hmap, hsorted, fun j hj => (hbounds j hj).2⟩
        · rw [hl] at hselect
          simpa using selectFrom_agrees hselect
        · obtain ⟨j, hj⟩ := List.exists_mem_of_ne_nil _ hsome
          have hmem : layers'.getD j noLayer ∈ layers'.filter Layer.isLinear := hmap ▸ List.mem_map_of_mem hj
          exact ⟨_, (List.mem_filter.1 hmem).1, (List.mem_filter.1 hmem).2⟩

theorem Passes.checks (h : Passes env impl model layers) :
    ∃ selected, checks env impl model = .ok (layers, selected) := by
  have hnext : model.moduleName ≠ qwen3NextModule := by
    rw [h.family]
    decide
  obtain ⟨args, n, hargs, hexperts, hn⟩ := h.dense
  obtain ⟨selected, hselect⟩ : ∃ selected, selectFrom model.layerTypes 0 layers = .ok selected :=
    selectFrom_returns h.supported fun types htypes j hj => by
      rw [Nat.zero_add]
      exact (h.types_agree types htypes).2 j hj
  obtain ⟨layer, hmem, hlinear⟩ := h.some_linear
  have hsome : selected ≠ [] := by
    rintro rfl
    have hmap := (selectFrom_eq_ok [] hselect).1
    have : layer ∈ layers.filter Layer.isLinear := List.mem_filter.2 ⟨hmem, hlinear⟩
    rw [← hmap] at this
    simp at this
  refine ⟨selected, ?_⟩
  unfold Recurrent.checks
  rw [if_neg (not_not.2 h.impl_valid), if_neg hnext]
  simp only [bind_eq_ok, textModel_eq_ok, textArgs_eq_ok, rawLayerTypes_eq_ok]
  exact ⟨layers, ⟨h.family, h.trunk⟩, args, ⟨h.family, hargs⟩, (), checkDense_eq_ok.2 ⟨n, hexperts, hn⟩, _,
    ⟨rfl, fun l hl => (h.types_agree l hl).1⟩, (), gatedDeltaNetClass_eq_ok.2 h.mlxLm, selected, hselect, if_neg hsome⟩

/-! Only a proxy is refused as already enabled. -/

theorem requireQwen35_ne_alreadyEnabled : requireQwen35 model ≠ .error (.unsupported .alreadyEnabled) := by
  unfold requireQwen35
  split
  · exact fun h => by cases h
  · exact fun h => by cases h

theorem selectFrom_alreadyEnabled {layerTypes : Option (List String)}
    (h : selectFrom layerTypes i layers = .error (.unsupported .alreadyEnabled)) :
    ∃ layer ∈ layers, ∃ id attrs impl', layer.linearAttn = some (.proxy id attrs impl') := by
  induction layers generalizing i with
  | nil => cases h
  | cons layer rest ih =>
    simp only [selectFrom, bind_eq_error] at h
    rcases h with htypes | ⟨_, -, hselect | ⟨wanted, -, hrest | ⟨_, -, hret⟩⟩⟩
    · unfold checkLayerTypesAgree at htypes
      split at htypes
      · cases htypes
      · dsimp only at htypes
        split at htypes <;> cases htypes
    · refine ⟨layer, List.mem_cons_self, ?_⟩
      unfold selectLinearLayer at hselect
      split at hselect
      · split at hselect
        · cases hselect
        · next id attrs impl' hproxy => exact ⟨id, attrs, impl', hproxy⟩
        · cases hselect
        · split at hselect <;> cases hselect
      · cases hselect
    · obtain ⟨layer', hmem, hproxy⟩ := ih hrest
      exact ⟨layer', List.mem_cons_of_mem _ hmem, hproxy⟩
    · cases hret

theorem checks_alreadyEnabled (h : checks env impl model = .error (.unsupported .alreadyEnabled)) :
    ∃ layers, model.layers = some layers ∧
      ∃ layer ∈ layers, ∃ id attrs impl', layer.linearAttn = some (.proxy id attrs impl') := by
  unfold checks at h
  split at h
  · cases h
  · split at h
    · cases h
    · simp only [bind_eq_error, textModel_eq_ok] at h
      rcases h with htrunk | ⟨layers, ⟨-, hlayers⟩, hargs | ⟨args, -, hdense | ⟨_, -, htypes |
        ⟨types, -, hclass | ⟨_, -, hselect | ⟨selected, -, hnone⟩⟩⟩⟩⟩⟩
      · simp only [textModel, bind_eq_error] at htrunk
        rcases htrunk with hname | ⟨_, -, htrunk⟩
        · exact absurd hname requireQwen35_ne_alreadyEnabled
        · split at htrunk <;> cases htrunk
      · simp only [textArgs, bind_eq_error] at hargs
        rcases hargs with hname | ⟨_, -, hargs⟩
        · exact absurd hname requireQwen35_ne_alreadyEnabled
        · split at hargs <;> cases hargs
      · unfold checkDense at hdense
        split at hdense
        · cases hdense
        · split at hdense <;> cases hdense
      · unfold rawLayerTypes at htypes
        split at htypes
        · cases htypes
        · split at htypes <;> cases htypes
      · unfold gatedDeltaNetClass at hclass
        split at hclass <;> cases hclass
      · exact ⟨layers, hlayers, selectFrom_alreadyEnabled hselect⟩
      · split at hnone <;> cases hnone

end Checks

/-! ## The replacing loop -/

/-- Every frozen key of the layer's module has an attribute on the proxy. -/
def Carried (env : Env) (layer : Layer) : Prop :=
  ∀ id attrs, layer.linearAttn = some (.net id attrs) → ∀ k ∈ attrs.noGrad, proxyHas env k = true

section Replace
variable {env : Env} {impl : String} {layer : Layer} {layers : List Layer} {selected : List ℕ} {i : ℕ}

theorem missingKeys_eq_nil {original : Attrs} :
    missingKeys env original = [] ↔ ∀ k ∈ original.noGrad, proxyHas env k = true := by
  simp [missingKeys, List.filter_eq_nil_iff]

theorem proxyOf_carried (himpl : impl ∈ validImpls) (hmlx : env.mlxLm = true) (hs : layer.Supported)
    (hc : Carried env layer) : ∃ id attrs, proxyOf env impl layer.linearAttn = .ok (.proxy id attrs impl) := by
  obtain ⟨id, attrs, hattn, -⟩ := hs
  have hkeys := missingKeys_eq_nil.2 (hc id attrs hattn)
  refine ⟨id, attrs, ?_⟩
  rw [hattn, proxyOf, proxyInit, if_neg (not_not.2 hkeys), hmlx]
  rcases List.mem_pair.1 himpl with rfl | rfl <;> rfl

theorem proxyOf_not_carried (hs : layer.Supported) (hc : ¬ Carried env layer) :
    ∃ keys, proxyOf env impl layer.linearAttn = .error (.unsupported (.frozenKeys keys)) := by
  obtain ⟨id, attrs, hattn, -⟩ := hs
  have hkeys : missingKeys env attrs ≠ [] := by
    intro hnil
    refine hc fun id' attrs' hattn' => ?_
    rw [hattn] at hattn'
    obtain ⟨-, rfl⟩ := LinearAttn.net.inj (Option.some.inj hattn')
    exact missingKeys_eq_nil.1 hnil
  rw [hattn, proxyOf, proxyInit, if_pos hkeys]
  exact ⟨_, rfl⟩

/-- Replacing one layer leaves the other selected ones as they were. -/
theorem getD_replaced {j : ℕ} {attn : LinearAttn} (h : i ≠ j) :
    (layers.modify i fun l => { l with linearAttn := some attn }).getD j noLayer = layers.getD j noLayer := by
  rw [List.getD_eq_getElem?_getD, List.getElem?_modify, List.getD_eq_getElem?_getD]
  cases layers[j]? <;> simp [h]

/-- The loop touches the selected layers only. -/
theorem replaceLayers_frame (hi : i ∉ selected) :
    (replaceLayers env impl selected layers).2.getD i noLayer = layers.getD i noLayer := by
  induction selected generalizing layers with
  | nil => rfl
  | cons j rest ih =>
    rw [List.mem_cons, not_or] at hi
    rw [replaceLayers]
    split
    · rfl
    · rw [ih hi.2, getD_replaced (Ne.symm hi.1)]

theorem replaceLayers_ok (himpl : impl ∈ validImpls) (hmlx : env.mlxLm = true) (hsorted : selected.Pairwise (· < ·))
    (h : ∀ j ∈ selected, (layers.getD j noLayer).Supported ∧ Carried env (layers.getD j noLayer)) :
    (replaceLayers env impl selected layers).1 = .ok () := by
  induction selected generalizing layers with
  | nil => rfl
  | cons i rest ih =>
    obtain ⟨⟨hs, hc⟩, hrest⟩ := List.forall_mem_cons.1 h
    obtain ⟨hlt, hsorted⟩ := List.pairwise_cons.1 hsorted
    obtain ⟨id, attrs, hproxy⟩ := proxyOf_carried himpl hmlx hs hc
    rw [replaceLayers, show (⟨false, none⟩ : Layer) = noLayer from rfl, hproxy]
    -- The indices grow, so what was replaced is not met again.
    refine ih hsorted fun j hj => ?_
    rw [getD_replaced (hlt j hj).ne]
    exact hrest j hj

/-- The loop stops at the first layer whose keys are not carried. -/
theorem replaceLayers_error (himpl : impl ∈ validImpls) (hmlx : env.mlxLm = true) (hsorted : selected.Pairwise (· < ·))
    (hs : ∀ j ∈ selected, (layers.getD j noLayer).Supported)
    (hnot : ∃ j ∈ selected, ¬ Carried env (layers.getD j noLayer)) :
    ∃ keys, (replaceLayers env impl selected layers).1 = .error (.unsupported (.frozenKeys keys)) := by
  induction selected generalizing layers with
  | nil => simp at hnot
  | cons i rest ih =>
    obtain ⟨hsi, hrest⟩ := List.forall_mem_cons.1 hs
    obtain ⟨hlt, hsorted⟩ := List.pairwise_cons.1 hsorted
    rw [replaceLayers, show (⟨false, none⟩ : Layer) = noLayer from rfl]
    by_cases hc : Carried env (layers.getD i noLayer)
    · obtain ⟨id, attrs, hproxy⟩ := proxyOf_carried himpl hmlx hsi hc
      rw [hproxy]
      obtain ⟨j, hj, hnotj⟩ := hnot
      have hjrest : j ∈ rest := (List.mem_cons.1 hj).resolve_left fun heq => hnotj (heq ▸ hc)
      refine ih hsorted (fun j hj => ?_) ⟨j, hjrest, ?_⟩
      · rw [getD_replaced (hlt j hj).ne]
        exact hrest j hj
      · rwa [getD_replaced (hlt j hjrest).ne]
    · obtain ⟨keys, herror⟩ := @proxyOf_not_carried env impl _ hsi hc
      rw [herror]
      exact ⟨keys, rfl⟩

end Replace

/-! ## A call -/

/-- The checks pass, the first linear layer's frozen keys carry over, and a later one's do not. -/
def LateRefusal (env : Env) (impl : String) (model : Model) : Prop :=
  ∃ layers first rest, Passes env impl model layers ∧ layers.filter Layer.isLinear = first :: rest ∧ Carried env first ∧
    ∃ layer ∈ rest, ¬ Carried env layer

/-- `UnsupportedRecurrentError` or `RecurrentInputError`. -/
def Refused (x : Except EnableError Unit) : Prop :=
  (∃ why, x = .error (.unsupported why)) ∨ ∃ impl, x = .error (.input impl)

section Call
variable {env : Env} {impl : String} {model : Model}

/-- A call whose checks pass, as its loop over the linear layers. -/
theorem enable_of_passes {layers : List Layer} (h : Passes env impl model layers) :
    ∃ selected, enableGatedDeltaTraining env impl model = ((replaceLayers env impl selected layers).1,
        { model with layers := some (replaceLayers env impl selected layers).2 }) ∧
      selected.map (fun j => layers.getD j noLayer) = layers.filter Layer.isLinear ∧ selected.Pairwise (· < ·) ∧
      (∀ j ∈ selected, j < layers.length) ∧ ∀ j ∈ selected, (layers.getD j noLayer).Supported := by
  obtain ⟨selected, hchecks⟩ := h.checks
  obtain ⟨-, hmap, hsorted, hbounds⟩ := of_checks hchecks
  refine ⟨selected, by rw [enableGatedDeltaTraining, hchecks], hmap, hsorted, hbounds, fun j hj => ?_⟩
  have hmem : layers.getD j noLayer ∈ layers.filter Layer.isLinear := hmap ▸ List.mem_map_of_mem hj
  exact h.supported _ (List.mem_filter.1 hmem).1 (List.mem_filter.1 hmem).2

/-- Short of a late refusal, a call that fails leaves the model as it was. -/
theorem enable_unchanged {e : EnableError} (hlate : ¬ LateRefusal env impl model)
    (h : (enableGatedDeltaTraining env impl model).1 = .error e) :
    (enableGatedDeltaTraining env impl model).2 = model := by
  by_cases hpasses : ∃ layers, Passes env impl model layers
  · obtain ⟨layers, hpasses⟩ := hpasses
    obtain ⟨selected, hrun, hmap, hsorted, -, hsupported⟩ := enable_of_passes hpasses
    rw [hrun] at h ⊢
    cases selected with
    | nil => cases h
    | cons i rest =>
      rw [List.map_cons] at hmap
      by_cases hfirst : Carried env (layers.getD i noLayer)
      · -- Every later layer carries over too, so the loop goes through.
        have hall : ∀ layer ∈ layers.filter Layer.isLinear, Carried env layer := by
          by_contra hsome
          push Not at hsome
          obtain ⟨layer, hmem, hnot⟩ := hsome
          rw [← hmap] at hmem
          have hrest := (List.mem_cons.1 hmem).resolve_left fun heq => hnot (heq ▸ hfirst)
          exact hlate ⟨layers, _, _, hpasses, hmap.symm, hfirst, layer, hrest, hnot⟩
        have hcarried : ∀ j ∈ i :: rest, Carried env (layers.getD j noLayer) := by
          intro j hj
          apply hall
          rw [← hmap, ← List.map_cons (f := fun j => layers.getD j noLayer)]
          exact List.mem_map_of_mem hj
        have hok := replaceLayers_ok hpasses.impl_valid hpasses.mlxLm hsorted fun j hj =>
          ⟨hsupported j hj, hcarried j hj⟩
        rw [hok] at h
        cases h
      · -- The first constructor refuses, ahead of every replacement.
        obtain ⟨keys, herror⟩ := @proxyOf_not_carried env impl _ (hsupported i List.mem_cons_self) hfirst
        rw [replaceLayers, show (⟨false, none⟩ : Layer) = noLayer from rfl, herror]
        simp only [← hpasses.trunk]
  · cases hchecks : checks env impl model with
    | error e' => rw [enableGatedDeltaTraining, hchecks]
    | ok r => exact absurd ⟨r.1, (of_checks hchecks).1⟩ hpasses

theorem enable_of_passes_result {layers : List Layer} (h : Passes env impl model layers) :
    (enableGatedDeltaTraining env impl model).1 = .ok () ∨
      ∃ keys, (enableGatedDeltaTraining env impl model).1 = .error (.unsupported (.frozenKeys keys)) := by
  obtain ⟨selected, hrun, -, hsorted, -, hsupported⟩ := enable_of_passes h
  rw [hrun]
  by_cases hall : ∀ j ∈ selected, Carried env (layers.getD j noLayer)
  · exact .inl (replaceLayers_ok h.impl_valid h.mlxLm hsorted fun j hj => ⟨hsupported j hj, hall j hj⟩)
  · push Not at hall
    exact .inr (replaceLayers_error h.impl_valid h.mlxLm hsorted hsupported hall)

/-- A late refusal leaves the first linear layer replaced. -/
theorem enable_late (h : LateRefusal env impl model) :
    (∃ keys, (enableGatedDeltaTraining env impl model).1 = .error (.unsupported (.frozenKeys keys))) ∧
      (enableGatedDeltaTraining env impl model).2.layers ≠ model.layers := by
  obtain ⟨layers, first, later, hpasses, hfilter, hfirst, layer, hmem, hnot⟩ := h
  obtain ⟨selected, hrun, hmap, hsorted, hbounds, hsupported⟩ := enable_of_passes hpasses
  rw [hfilter] at hmap
  cases selected with
  | nil => cases hmap
  | cons i rest =>
    obtain ⟨rfl, rfl⟩ := List.cons.inj hmap
    obtain ⟨j, hj, rfl⟩ := List.mem_map.1 hmem
    rw [hrun]
    refine ⟨replaceLayers_error hpasses.impl_valid hpasses.mlxLm hsorted hsupported
      ⟨j, List.mem_cons_of_mem _ hj, hnot⟩, ?_⟩
    obtain ⟨id, attrs, hproxy⟩ := proxyOf_carried hpasses.impl_valid hpasses.mlxLm
      (hsupported i List.mem_cons_self) hfirst
    obtain ⟨id', attrs', hnet, -⟩ := hsupported i List.mem_cons_self
    -- Its layer holds a proxy now, and held a module before.
    have hfresh : i ∉ rest := fun hi => lt_irrefl i ((List.pairwise_cons.1 hsorted).1 i hi)
    intro heq
    rw [hpasses.trunk] at heq
    have hlayer := congrArg (fun ls => (ls.getD i noLayer).linearAttn) (Option.some.inj heq)
    rw [replaceLayers, show (⟨false, none⟩ : Layer) = noLayer from rfl, hproxy] at hlayer
    dsimp only at hlayer
    rw [replaceLayers_frame hfresh, getD_modify _ _ (hbounds i List.mem_cons_self), if_pos rfl, hnet] at hlayer
    cases hlayer

theorem enable_refused_iff :
    (Refused (enableGatedDeltaTraining env impl model).1 →
        (enableGatedDeltaTraining env impl model).2.layers = model.layers) ↔
      ¬ LateRefusal env impl model := by
  constructor
  · intro hclean hlate
    obtain ⟨⟨keys, herror⟩, hchanged⟩ := enable_late hlate
    exact hchanged (hclean (.inl ⟨_, herror⟩))
  · rintro hlate (⟨why, herror⟩ | ⟨impl', herror⟩)
    · rw [enable_unchanged hlate herror]
    · rw [enable_unchanged hlate herror]

end Call

/-! ## A session of calls -/

def LinearAttn.isProxy : LinearAttn → Bool
  | .proxy _ _ _ => true
  | _ => false

/-- The proxies in the layers of a model. -/
def proxies (model : Model) : List LinearAttn :=
  ((model.layers.getD []).filterMap Layer.linearAttn).filter LinearAttn.isProxy

/-- A model, and whether a call on it has succeeded. -/
structure Session where
  model : Model
  enabled : Bool

/-- A call that is no late refusal, or any change of the model that puts no proxy into it. -/
inductive Step (env : Env) : Session → Session → Prop
  | call (s : Session) (impl : String) (h : ¬ LateRefusal env impl s.model) :
    Step env s ⟨(enableGatedDeltaTraining env impl s.model).2,
      s.enabled || (enableGatedDeltaTraining env impl s.model).1.isOk⟩
  | edit (s : Session) (model : Model) (h : ∀ attn ∈ proxies model, attn ∈ proxies s.model) :
    Step env s ⟨model, s.enabled⟩

section Sessions
variable {env : Env} {impl : String} {s s' start : Session}

/-- A call is refused as already enabled only on a model with a proxy. -/
theorem proxies_of_alreadyEnabled {model : Model}
    (h : (enableGatedDeltaTraining env impl model).1 = .error (.unsupported .alreadyEnabled)) : proxies model ≠ [] := by
  have hchecks : checks env impl model = .error (.unsupported .alreadyEnabled) := by
    by_cases hpasses : ∃ layers, Passes env impl model layers
    · -- Behind the checks only the frozen keys are refused.
      obtain ⟨layers, hpasses⟩ := hpasses
      rcases enable_of_passes_result hpasses with hok | ⟨keys, herror⟩
      · rw [hok] at h
        cases h
      · rw [herror] at h
        cases h
    · cases hchecks : checks env impl model with
      | error e =>
        rw [enableGatedDeltaTraining, hchecks] at h
        exact congrArg _ (Except.error.inj h)
      | ok r => exact absurd ⟨r.1, (of_checks hchecks).1⟩ hpasses
  obtain ⟨layers, hlayers, layer, hmem, id, attrs, impl', hproxy⟩ := checks_alreadyEnabled hchecks
  refine List.ne_nil_of_mem (a := .proxy id attrs impl') (List.mem_filter.2 ⟨?_, rfl⟩)
  rw [hlayers]
  exact List.mem_filterMap.2 ⟨layer, hmem, hproxy⟩

/-- A step leaves a model without proxies so, unless its call succeeds. -/
theorem Step.no_proxies (h : Step env s s') (hs : s.enabled = true ∨ proxies s.model = []) :
    s'.enabled = true ∨ proxies s'.model = [] := by
  cases h with
  | call impl hlate =>
    cases hresult : (enableGatedDeltaTraining env impl s.model).1 with
    | ok u =>
      left
      simp [Except.isOk, Except.toBool]
    | error e =>
      -- A failed call that is no late refusal left no proxy.
      rw [enable_unchanged hlate hresult]
      simpa [Except.isOk, Except.toBool] using hs
  | edit model hsub =>
    refine hs.imp_right fun hnone => ?_
    rw [List.eq_nil_iff_forall_not_mem]
    intro attn hattn
    have := hsub attn hattn
    rw [hnone] at this
    cases this

theorem session_no_proxies (hstart : proxies start.model = []) (h : Relation.ReflTransGen (Step env) start s) :
    s.enabled = true ∨ proxies s.model = [] := by
  induction h with
  | refl => exact .inr hstart
  | tail _ hstep ih => exact hstep.no_proxies ih

end Sessions

/-- A refused call leaves every `linear_attn` as it was exactly when it is no late refusal; and in a session of such
calls on a model that starts without proxies, one is refused as already enabled only behind one that succeeded. -/
theorem enable_refuses_before_mutating_iff (env : Env) :
    (∀ impl model, (Refused (enableGatedDeltaTraining env impl model).1 →
        (enableGatedDeltaTraining env impl model).2.layers = model.layers) ↔ ¬ LateRefusal env impl model) ∧
      ∀ start s : Session, proxies start.model = [] → Relation.ReflTransGen (Step env) start s → s.enabled = false →
        ∀ impl, (enableGatedDeltaTraining env impl s.model).1 ≠ .error (.unsupported .alreadyEnabled) := by
  refine ⟨fun impl model => enable_refused_iff, fun start s hstart hrun hnever impl halready => ?_⟩
  rcases session_no_proxies hstart hrun with henabled | hnone
  · rw [hnever] at henabled
    cases henabled
  · exact proxies_of_alreadyEnabled halready hnone

/-- A model with these modules in its layers, all of them linear. -/
def ofModules (modules : List LinearAttn) : Model :=
  ⟨qwen35Module, some (modules.map fun attn => ⟨true, some attn⟩), some ⟨some 0⟩, none⟩

/-- Refused as sharded, then unsharded: the next call is not refused as already enabled. -/
theorem enable_refuses_before_mutating_iff_sharded :
    (enableGatedDeltaTraining ⟨true, fun _ => false⟩ "chunked"
        (ofModules [.net 0 ⟨none, [], true⟩, .net 1 ⟨some 7, ["A_log"], true⟩])).1 =
          .error (.unsupported (.sharded 1)) ∧
      (enableGatedDeltaTraining ⟨true, fun _ => false⟩ "chunked"
        (ofModules [.net 0 ⟨none, [], true⟩, .net 1 ⟨none, ["A_log"], true⟩])).1 ≠
          .error (.unsupported .alreadyEnabled) := by
  refine ⟨rfl, ?_⟩
  obtain ⟨hiff, hsession⟩ := enable_refuses_before_mutating_iff ⟨true, fun _ => false⟩
  have hlate : ¬ LateRefusal ⟨true, fun _ => false⟩ "chunked"
      (ofModules [.net 0 ⟨none, [], true⟩, .net 1 ⟨some 7, ["A_log"], true⟩]) := (hiff _ _).1 fun _ => rfl
  apply hsession ⟨ofModules [.net 0 ⟨none, [], true⟩, .net 1 ⟨some 7, ["A_log"], true⟩], false⟩
    ⟨ofModules [.net 0 ⟨none, [], true⟩, .net 1 ⟨none, ["A_log"], true⟩], false⟩ rfl _ rfl
  refine .tail (.single (.call _ "chunked" hlate)) (.edit _ (ofModules _) fun _ h => ?_)
  cases h

/-- The second module's frozen key has no attribute on the proxy: it is refused behind the first replacement, and with
that key unfrozen the next call is refused as already enabled. -/
theorem enable_refused_after_mutating :
    (Refused (enableGatedDeltaTraining ⟨true, fun _ => false⟩ "chunked"
        (ofModules [.net 0 ⟨none, [], true⟩, .net 1 ⟨none, ["lora_scale"], true⟩])).1 ∧
      (enableGatedDeltaTraining ⟨true, fun _ => false⟩ "chunked"
        (ofModules [.net 0 ⟨none, [], true⟩, .net 1 ⟨none, ["lora_scale"], true⟩])).2 =
          ofModules [.proxy 0 ⟨none, [], true⟩ "chunked", .net 1 ⟨none, ["lora_scale"], true⟩]) ∧
      (enableGatedDeltaTraining ⟨true, fun _ => false⟩ "chunked"
        (ofModules [.proxy 0 ⟨none, [], true⟩ "chunked", .net 1 ⟨none, [], true⟩])).1 =
          .error (.unsupported .alreadyEnabled) :=
  ⟨⟨.inl ⟨_, rfl⟩, rfl⟩, rfl⟩

end MlxTrainPerf.Recurrent
