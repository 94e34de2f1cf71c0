import MlxTrainPerf.Bench.Sweep
/-!
# When a resumed sweep knows its own work

The worker rebuilds the identity from its config, and the next call reads it from the
artifact: two hops through JSON. After them it is what one hop makes of the runner's own
identity. So the next call finds the artifact fresh exactly when that identity is
stable.
-/
open PyStr PyJson Budget

namespace MlxTrainPerf.Bench

section Identity
variable {env : Env} {kind sessionId : PyStr} {params : List (PyKey × PyValue)} {impl split variant : Option PyStr}
  {ident kw : List (PyStr × PyValue)}

/-! ## The parts of an identity -/

/-- The dedicated fields, before the params. -/
def leadFields (kind sessionId : PyStr) (impl split variant : Option PyStr) : List (PyStr × PyValue) :=
  [(lit "kind", .str kind), (lit "session_id", .str sessionId)] ++ attentionFields impl split variant

theorem keywords_eq_ok (h : keywords params = .ok kw) : params = strItems kw := by
  induction params generalizing kw with
  | nil =>
    obtain rfl := Except.ok.inj h
    rfl
  | cons e rest ih =>
    obtain ⟨k, v⟩ := e
    cases k with
    | str s =>
      obtain ⟨kw', hkw', hret⟩ := bind_eq_ok.1 h
      obtain rfl := Except.ok.inj hret
      rw [ih hkw']
      rfl
    | _ => cases h

/-- An identity is its surroundings, the dedicated fields and the params, without a key
twice. -/
theorem conditionIdentity_eq_ok (h : conditionIdentity env kind sessionId params impl split variant = .ok ident) :
    ∃ kw, params = strItems kw ∧ ident = env.internal ++ leadFields kind sessionId impl split variant ++ kw ∧
      ∀ k ∈ kw.map Prod.fst, k ∉ reservedParamKeys ∧ k ∉ env.internal.map Prod.fst := by
  unfold conditionIdentity at h
  split at h
  · cases h
  · next hreserved =>
    obtain ⟨kw, hkw, hrun⟩ := bind_eq_ok.1 h
    have hparams := keywords_eq_ok hkw
    simp only [runIdentity] at hrun
    split at hrun
    · cases hrun
    · next hcollision =>
      obtain rfl := Except.ok.inj hrun
      refine ⟨kw, hparams, by simp [leadFields], fun k hk => ⟨fun hres => ?_, fun hint => ?_⟩⟩
      · obtain ⟨e, he, rfl⟩ := List.mem_map.1 hk
        have hmem : PyKey.str e.1 ∈ params.map Prod.fst := by
          rw [hparams]
          exact List.mem_map.2 ⟨_, List.mem_map.2 ⟨e, he, rfl⟩, rfl⟩
        exact List.find?_eq_none.1 hreserved e.1 hres (by simpa using hmem)
      · refine hcollision (List.ne_nil_of_mem (a := k) (List.mem_filter.2 ⟨?_, by simpa using hint⟩))
        rw [List.map_append]
        exact List.mem_append_right _ hk

theorem mem_leadFields {k : PyStr} (h : k ∈ (leadFields kind sessionId impl split variant).map Prod.fst) :
    k ∈ reservedParamKeys := by
  obtain ⟨e, he, rfl⟩ := List.mem_map.1 h
  rcases List.mem_append.1 he with he | he
  · rcases List.mem_pair.1 he with rfl | rfl
    · exact .head _
    · exact .tail _ (.head _)
  · obtain ⟨f, hf, hmap⟩ := List.mem_filterMap.1 he
    obtain ⟨value, -, rfl⟩ := Option.map_eq_some_iff.1 hmap
    have hname : f.1 ∈ [lit "attention_impl", lit "dkv_split_policy", lit "attention_variant"] :=
      List.mem_map_of_mem (f := Prod.fst) hf
    exact .tail _ (.tail _ hname)

theorem plain_reserved : ∀ k ∈ reservedParamKeys, plain k = true := by decide

theorem plain_internal (env : Env) : ∀ k ∈ env.internal.map Prod.fst, plain k = true := by
  change ∀ k ∈ [lit "schema_version", lit "mlx_version", lit "mlx_lm_version", lit "machine", lit "macos", lit "code_sha",
    lit "package_version"], plain k = true
  decide

/-! ## One hop of the parts -/

theorem hop_str (s : PyStr) : hop (.str s) = .ok (.str (merge s)) := by
  refine hop_eq_ok.2 ⟨_, rfl, ?_⟩
  rw [decode, unescape_escape]

theorem hop_optStr (o : Option PyStr) : hop (optStr o) = .ok (optStr (o.map merge)) := by
  cases o with
  | none => rfl
  | some s => exact hop_str s

/-- The surroundings as JSON gives them back. -/
def Env.merged (env : Env) : Env :=
  ⟨merge env.mlxVersion, env.mlxLmVersion.map merge, merge env.machine, merge env.macos, merge env.codeSha,
    merge env.packageVersion⟩

theorem itemsHop_internal (env : Env) : ItemsHop env.internal env.merged.internal := by
  have hkey : ∀ k ∈ env.internal.map Prod.fst, k = merge k := fun k hk => (merge_of_plain (plain_internal env k hk)).symm
  simp only [Env.internal, List.map_cons, List.map_nil, List.forall_mem_cons] at hkey
  obtain ⟨h₁, h₂, h₃, h₄, h₅, h₆, h₇, -⟩ := hkey
  exact .cons ⟨h₁, rfl⟩ (.cons ⟨h₂, hop_str _⟩ (.cons ⟨h₃, hop_optStr _⟩ (.cons ⟨h₄, hop_str _⟩ (.cons ⟨h₅, hop_str _⟩
    (.cons ⟨h₆, hop_str _⟩ (.cons ⟨h₇, hop_str _⟩ .nil))))))

theorem itemsHop_lead (kind sessionId : PyStr) (impl : Option PyStr) :
    ItemsHop (leadFields kind sessionId impl none none) (leadFields (merge kind) (merge sessionId) (impl.map merge) none none) := by
  have hkey : ∀ k ∈ reservedParamKeys, k = merge k := fun k hk => (merge_of_plain (plain_reserved k hk)).symm
  simp only [reservedParamKeys, List.forall_mem_cons] at hkey
  obtain ⟨h₁, h₂, h₃, -⟩ := hkey
  cases impl with
  | none => exact .cons ⟨h₁, hop_str _⟩ (.cons ⟨h₂, hop_str _⟩ .nil)
  | some s => exact .cons ⟨h₁, hop_str _⟩ (.cons ⟨h₂, hop_str _⟩ (.cons ⟨h₃, hop_str _⟩ .nil))

/-! ## Both hops -/

theorem configImpl_optStr (o : Option PyStr) : configImpl (optStr o) = o := by cases o <;> rfl

theorem strItems_inj {xs ys : List (PyStr × PyValue)} (h : strItems xs = strItems ys) : xs = ys :=
  List.map_injective_iff.2 (fun _ _ he => Prod.ext (PyKey.str.inj (Prod.mk.inj he).1) (Prod.mk.inj he).2) h

/-- A field of the config, as the worker reads it. -/
theorem getItem_config {c : Condition} {out : Path} {config : Json} (h : encode (configValue c sessionId out) = .ok config)
    {k : PyStr} {v : PyValue} (hmem : (k, v) ∈ configItems c sessionId out) :
    ∃ data u, decode config = .dict data ∧ hop v = .ok u ∧ getItem data k = u := by
  have hkeys : ((configItems c sessionId out).map Prod.fst).Nodup := by
    change [lit "kind", lit "params", lit "session_id", lit "attention_impl", lit "wall_budget_s", lit "out"].Nodup
    decide
  have hplain : plain k = true := by
    have hall : ∀ k ∈ [lit "kind", lit "params", lit "session_id", lit "attention_impl", lit "wall_budget_s", lit "out"],
        plain k = true := by decide
    exact hall k (List.mem_map_of_mem (f := Prod.fst) hmem)
  have huniq : ∀ x ∈ configItems c sessionId out, x.1 = k → x.2 = v := fun x hx hk =>
    congrArg Prod.snd (List.inj_on_of_nodup_map hkeys hx hmem hk)
  obtain ⟨data, u, hdata, hu, hlookup⟩ := lookup_hop hplain hmem huniq (hop_eq_ok.2 ⟨config, h, rfl⟩)
  exact ⟨data, u, hdata, hu, by rw [getItem, hlookup]; rfl⟩

/-- The worker's identity: what one hop makes of the dedicated fields and the params. -/
theorem workerIdentity_config {c : Condition} {out : Path} {config : Json} {ident' : List (PyStr × PyValue)}
    (hparams : c.params = strItems kw) (hconfig : encode (configValue c sessionId out) = .ok config)
    (h : workerIdentity env (decode config) = some ident') :
    ∃ ys, ItemsHop kw ys ∧ Settled ys ∧
      ident' = env.internal ++ leadFields (merge c.kind) (merge sessionId) (c.attentionImpl.map merge) none none ++ dictOf ys := by
  obtain ⟨data, u₁, hdata, hu₁, hkind⟩ := getItem_config hconfig (.head _)
  obtain ⟨_, u₂, hdata₂, hu₂, hparam⟩ := getItem_config hconfig (.tail _ (.head _))
  obtain ⟨_, u₃, hdata₃, hu₃, hsession⟩ := getItem_config hconfig (.tail _ (.tail _ (.head _)))
  obtain ⟨_, u₄, hdata₄, hu₄, himpl⟩ := getItem_config hconfig (.tail _ (.tail _ (.tail _ (.head _))))
  obtain rfl := PyValue.dict.inj (hdata.symm.trans hdata₂)
  obtain rfl := PyValue.dict.inj (hdata.symm.trans hdata₃)
  obtain rfl := PyValue.dict.inj (hdata.symm.trans hdata₄)
  obtain rfl := Except.ok.inj ((hop_str c.kind).symm.trans hu₁)
  obtain rfl := Except.ok.inj ((hop_str sessionId).symm.trans hu₃)
  obtain rfl := Except.ok.inj ((hop_optStr c.attentionImpl).symm.trans hu₄)
  rw [hparams] at hu₂
  obtain ⟨ys, hys, hsettled, rfl⟩ := hop_strItems hu₂
  simp only [workerIdentity, hdata, hkind, hparam, hsession, himpl, configImpl_optStr] at h
  cases hworker : conditionIdentity env (merge c.kind) (merge sessionId) (strItems (dictOf ys)) (c.attentionImpl.map merge)
      none none with
  | error e =>
    rw [hworker] at h
    cases h
  | ok ident₁ =>
    rw [hworker] at h
    obtain rfl := Option.some.inj h
    obtain ⟨kw', hkw', hident', -⟩ := conditionIdentity_eq_ok hworker
    obtain rfl := strItems_inj hkw'
    exact ⟨ys, hys, hsettled, hident'⟩

/-- A second hop of the worker's identity leaves what one hop makes of the runner's. -/
theorem hop_workerIdentity {ys : List (PyStr × PyValue)} {u : PyValue}
    (hkeys : ∀ k ∈ kw.map Prod.fst, k ∉ reservedParamKeys ∧ k ∉ env.internal.map Prod.fst) (hys : ItemsHop kw ys)
    (hsettled : Settled ys)
    (h : hop (.dict (strItems (env.internal ++ leadFields (merge kind) (merge sessionId) (impl.map merge) none none ++
      dictOf ys))) = .ok u) :
    u = .dict (strItems (dictOf (env.merged.internal ++ leadFields (merge kind) (merge sessionId) (impl.map merge) none none ++
      ys))) := by
  have hlead := itemsHop_lead (merge kind) (merge sessionId) (impl.map merge)
  rw [merge_merge, merge_merge, Option.map_map, show (merge ∘ merge) = merge from funext merge_merge] at hlead
  have hdict : Settled (dictOf ys) := fun d hd => hsettled d (mem_of_mem_dictOf ys hd)
  obtain ⟨zs, hzs, -, rfl⟩ := hop_strItems h
  obtain rfl := hzs.unique (itemsHop_append (itemsHop_append (itemsHop_internal env) hlead) hdict.itemsHop)
  -- a key that JSON made out of another one is not plain, so it is none of ours
  have hnew : ∀ k ∈ ys.map Prod.fst, k ∉ (env.merged.internal ++ leadFields (merge kind) (merge sessionId) (impl.map merge)
      none none).map Prod.fst := by
    intro k hk hmem
    obtain ⟨y, hy, rfl⟩ := List.mem_map.1 hk
    obtain ⟨x, hx, hxy, -⟩ := forall₂_exists hys.flip y hy
    have hx' := hkeys x.1 (List.mem_map.2 ⟨x, hx, rfl⟩)
    rw [List.map_append, List.mem_append] at hmem
    rcases hmem with hint | hres
    · have hself := merge_eq_self_of_plain (hxy ▸ plain_internal env.merged _ hint)
      exact hx'.2 (by rwa [hxy, hself] at hint)
    · have hself := merge_eq_self_of_plain (hxy ▸ plain_reserved _ (mem_leadFields hres))
      exact hx'.1 (by simpa [hxy, hself] using mem_leadFields hres)
  have hnew' : ∀ k ∈ (dictOf ys).map Prod.fst, k ∉ (env.merged.internal ++ leadFields (merge kind) (merge sessionId)
      (impl.map merge) none none).map Prod.fst := fun k hk => hnew k ((mem_keys_dictOf ys k).1 hk)
  rw [dictOf_append _ hnew, dictOf_append _ hnew', dictOf_of_nodup (dictOf ys) (nodup_dictOf ys)]

/-! ## Fresh or not -/

def Env.whole (env : Env) : Bool :=
  PyStr.whole env.mlxVersion && env.mlxLmVersion.all PyStr.whole && PyStr.whole env.machine && PyStr.whole env.macos &&
    PyStr.whole env.codeSha && PyStr.whole env.packageVersion

/-- Does everything that identifies the condition survive JSON? -/
def Condition.stable (env : Env) (sessionId : PyStr) (c : Condition) : Bool :=
  env.whole && whole c.kind && whole sessionId && c.attentionImpl.all whole && PyJson.stable (.dict c.params)

theorem stableItems_append (xs ys : List (PyKey × PyValue)) : stableItems (xs ++ ys) = (stableItems xs && stableItems ys) := by
  rw [Bool.eq_iff_iff, Bool.and_eq_true, stableItems_iff, stableItems_iff, stableItems_iff, List.forall_mem_append]

theorem stable_optStr (o : Option PyStr) : stable (optStr o) = o.all whole := by
  cases o with
  | none => rfl
  | some s => rfl

theorem stableItems_internal (env : Env) : stableItems (strItems env.internal) = env.whole := by
  have hkeys : ∀ k ∈ [lit "schema_version", lit "mlx_version", lit "mlx_lm_version", lit "machine", lit "macos",
      lit "code_sha", lit "package_version"], whole k = true := by decide
  simp only [List.forall_mem_cons] at hkeys
  obtain ⟨h₁, h₂, h₃, h₄, h₅, h₆, h₇, -⟩ := hkeys
  simp only [Env.internal, strItems, List.map_cons, List.map_nil, stableItems, stableKey, stable, stable_optStr, h₁, h₂, h₃,
    h₄, h₅, h₆, h₇, Env.whole, Bool.true_and, Bool.and_true, Bool.and_assoc]

theorem stableItems_lead (kind sessionId : PyStr) (impl : Option PyStr) :
    stableItems (strItems (leadFields kind sessionId impl none none)) = (whole kind && whole sessionId && impl.all whole) := by
  have hkeys : ∀ k ∈ reservedParamKeys, whole k = true := by decide
  simp only [reservedParamKeys, List.forall_mem_cons] at hkeys
  obtain ⟨h₁, h₂, h₃, -⟩ := hkeys
  cases impl with
  | none =>
    change (whole (lit "kind") && whole kind && (whole (lit "session_id") && whole sessionId && true)) = _
    simp only [h₁, h₂, Bool.true_and, Bool.and_true, Option.all_none]
  | some impl =>
    change (whole (lit "kind") && whole kind && (whole (lit "session_id") && whole sessionId &&
      (whole (lit "attention_impl") && whole impl && true))) = _
    simp only [h₁, h₂, h₃, Bool.true_and, Bool.and_true, Option.all_some, Bool.and_assoc]

/-- An identity is stable when all that goes into it is. -/
theorem stable_identity {c : Condition} (hparams : c.params = strItems kw)
    (hkeys : ∀ k ∈ kw.map Prod.fst, k ∉ reservedParamKeys ∧ k ∉ env.internal.map Prod.fst) :
    stable (.dict (strItems (env.internal ++ leadFields c.kind sessionId c.attentionImpl none none ++ kw))) =
      c.stable env sessionId := by
  have hown : ((env.internal ++ leadFields c.kind sessionId c.attentionImpl none none).map Prod.fst).Nodup := by
    cases c.attentionImpl with
    | none =>
      change [lit "schema_version", lit "mlx_version", lit "mlx_lm_version", lit "machine", lit "macos", lit "code_sha",
        lit "package_version", lit "kind", lit "session_id"].Nodup
      decide
    | some impl =>
      change [lit "schema_version", lit "mlx_version", lit "mlx_lm_version", lit "machine", lit "macos", lit "code_sha",
        lit "package_version", lit "kind", lit "session_id", lit "attention_impl"].Nodup
      decide
  have hdisjoint : List.Disjoint ((env.internal ++ leadFields c.kind sessionId c.attentionImpl none none).map Prod.fst)
      (kw.map Prod.fst) := by
    intro k hown hk
    rw [List.map_append, List.mem_append] at hown
    exact hown.elim (hkeys k hk).2 fun hlead => (hkeys k hk).1 (mem_leadFields hlead)
  have hstr : ∀ xs : List (PyStr × PyValue), ((strItems xs).map Prod.fst).Nodup ↔ (xs.map Prod.fst).Nodup := by
    intro xs
    have hmap : (strItems xs).map Prod.fst = (xs.map Prod.fst).map PyKey.str := by simp [strItems]
    rw [hmap, List.nodup_map_iff fun _ _ => PyKey.str.inj]
  have hnodup : ((strItems (env.internal ++ leadFields c.kind sessionId c.attentionImpl none none ++ kw)).map Prod.fst).Nodup ↔
      ((strItems kw).map Prod.fst).Nodup := by
    rw [hstr, hstr, List.map_append, List.nodup_append']
    exact ⟨fun h => h.2.1, fun h => ⟨hown, h, hdisjoint⟩⟩
  have hitems : ∀ xs ys : List (PyStr × PyValue), strItems (xs ++ ys) = strItems xs ++ strItems ys :=
    fun xs ys => List.map_append
  have hsplit : stableItems (strItems (env.internal ++ leadFields c.kind sessionId c.attentionImpl none none ++ kw)) =
      (env.whole && (whole c.kind && whole sessionId && c.attentionImpl.all whole) && stableItems (strItems kw)) := by
    rw [hitems, hitems, stableItems_append, stableItems_append, stableItems_internal, stableItems_lead]
  rw [Bool.eq_iff_iff]
  simp only [Condition.stable, stable, hparams, hsplit, Bool.and_eq_true, decide_eq_true_eq, hnodup]
  tauto

/-- Does the artifact say `ok`? -/
def isOk (doc : Json) : Bool :=
  match decode doc with
  | .dict data => pyEq (getItem data (lit "status")) (.str (lit "ok"))
  | _ => false

/-- What `result_is_fresh` makes of the identity in an `ok` artifact. -/
theorem resultIsFresh_artifactDoc (ident : List (PyStr × PyValue)) {ident' fields : List (PyStr × PyValue)} {status : PyStr} {doc : Json}
    (h : artifactDoc ident' status fields = .ok doc) (hok : isOk doc = true) :
    ∃ u, hop (.dict (strItems ident')) = .ok u ∧
      resultIsFresh (some (.parses doc)) ident = .ok (pyEq u (.dict (strItems ident))) := by
  unfold artifactDoc at h
  split at h
  · cases h
  · next hparams =>
    have huniq : ∀ x ∈ [(lit "identity", PyValue.dict (strItems ident')), (lit "status", .str status)] ++ fields,
        x.1 = lit "identity" → x.2 = .dict (strItems ident') := by
      intro x hx hk
      rcases List.mem_append.1 hx with hx | hx
      · rcases List.mem_pair.1 hx with rfl | rfl
        · rfl
        · exact absurd (show lit "status" = lit "identity" from hk) (by decide)
      · exact (hparams (List.any_eq_true.2 ⟨x, hx, by rw [hk]; decide⟩)).elim
    obtain ⟨data, u, hdata, hu, hlookup⟩ := lookup_hop (by decide) (List.mem_append_left _ (.head _)) huniq
      (hop_eq_ok.2 ⟨doc, h, rfl⟩)
    have hitem : getItem data (lit "identity") = u := by
      rw [getItem, hlookup]
      rfl
    simp only [isOk, hdata] at hok
    exact ⟨u, hu, by simp only [resultIsFresh, hdata, hok, hitem, Bool.true_and]⟩

/-- An `ok` artifact of the condition's own worker is fresh exactly when the condition
is stable. -/
theorem resultIsFresh_worker {c : Condition} {out : Path} {config doc : Json} {w : WorkerRun}
    (hident : conditionIdentity env c.kind sessionId c.params c.attentionImpl none none = .ok ident)
    (hconfig : encode (configValue c sessionId out) = .ok config) (hdoc : w.artifact env config = some doc)
    (hok : isOk doc = true) : resultIsFresh (some (.parses doc)) ident = .ok (c.stable env sessionId) := by
  obtain ⟨kw, hparams, rfl, hkeys⟩ := conditionIdentity_eq_ok hident
  obtain ⟨⟨status, fields⟩, -, hwritten⟩ := Option.bind_eq_some_iff.1 hdoc
  obtain ⟨ident', hworker, hartifact⟩ := Option.bind_eq_some_iff.1 hwritten
  obtain ⟨ys, hys, hsettled, rfl⟩ := workerIdentity_config hparams hconfig hworker
  cases hresult : artifactDoc (env.internal ++ leadFields (merge c.kind) (merge sessionId) (c.attentionImpl.map merge) none none ++
      dictOf ys) status fields with
  | error e =>
    rw [hresult] at hartifact
    cases hartifact
  | ok doc' =>
    rw [hresult] at hartifact
    obtain rfl := Option.some.inj hartifact
    obtain ⟨u, hu, hfresh⟩ := resultIsFresh_artifactDoc (env.internal ++
      leadFields c.kind sessionId c.attentionImpl none none ++ kw) hresult hok
    rw [hfresh, hop_workerIdentity hkeys hys hsettled hu,
      (itemsHop_append (itemsHop_append (itemsHop_internal env) (itemsHop_lead c.kind sessionId c.attentionImpl)) hys).pyEq,
      stable_identity hparams hkeys]

end Identity

/-! ## Who wrote what -/

section Entries
variable {F : Type} [DecidableEq F] {file : Path → F} {outDir : Path} {i : ℕ} {guarded : Bool} {sessionId : PyStr}
  {c : Condition} {t : Turn} {s s' : State F} {out f : F} {config : Json} {ident : List (PyStr × PyValue)}
  {Good : Entry → Prop} {e : Entry}

def State.Entries (Good : Entry → Prop) (s : State F) : Prop := ∀ g e, s.files g = some e → Good e

theorem State.Entries.remove (h : s.Entries Good) : (s.remove f).Entries Good := by
  intro g e he
  by_cases hg : g = f
  · rw [hg, State.remove_files_self] at he
    cases he
  · exact h g e (State.remove_files_ne s hg ▸ he)

theorem State.Entries.write (h : s.Entries Good) (hgood : Good e) : (s.write f e).Entries Good := by
  intro g e' he
  by_cases hg : g = f
  · rw [hg, State.write_files_self] at he
    exact Option.some.inj he ▸ hgood
  · exact h g e' (State.write_files_ne s hg e ▸ he)

/-- What the runner writes in a turn is good. -/
def RunnerGood (Good : Entry → Prop) (i : ℕ) : Prop := ∀ doc, Good ⟨.parses doc, .runner i⟩

/-- What a worker of the turn writes is good. -/
def WorkerGood (Good : Entry → Prop) (outDir : Path) (i : ℕ) (sessionId : PyStr) (c : Condition) (t : Turn) : Prop :=
  ∀ config (w : WorkerRun) doc, encode (configValue c sessionId (outPath outDir c.name)) = .ok config → w.artifact t.env config = some doc →
    Good ⟨.parses doc, .worker i⟩

theorem Envelope.entries (h : Envelope i out s s') (hrunner : RunnerGood Good i) (hs : s.Entries Good) : s'.Entries Good := by
  rcases h with rfl | ⟨-, doc, rfl⟩
  · exact hs
  · exact hs.write (hrunner doc)

theorem writeRecord_entries {name kind status : PyStr} {fields : Option (List (PyStr × PyValue))}
    (hrunner : RunnerGood Good i) (hs : s.Entries Good) (h : writeRecord file outDir i s name kind ident status fields = .ok s') :
    s'.Entries Good := by
  cases fields with
  | none =>
    obtain rfl := Except.ok.inj h
    exact hs
  | some fields =>
    obtain ⟨doc, -, rfl⟩ := writeResult_eq_ok h
    exact hs.write (hrunner doc)

theorem unlinkRecords_entries {name : PyStr} {kinds : List PyStr} (hs : s.Entries Good)
    (h : kinds.foldlM (fun s kind => s.unlink (file (recordPath outDir name kind))) s = .ok s') : s'.Entries Good := by
  induction kinds generalizing s with
  | nil =>
    obtain rfl := Except.ok.inj h
    exact hs
  | cons kind kinds ih =>
    rw [List.foldlM_cons] at h
    obtain ⟨s₁, h₁, h⟩ := bind_eq_ok.1 h
    obtain rfl := unlink_eq_ok h₁
    exact ih hs.remove h

theorem launchAll_entries (launches : List WorkerRun) (hs : s.Entries Good)
    (hworker : ∀ (w : WorkerRun) doc, w.artifact t.env config = some doc → Good ⟨.parses doc, .worker i⟩) :
    (s.launchAll i t.env config out launches).Entries Good := by
  induction launches using List.reverseRecOn with
  | nil => exact hs
  | append_singleton launches w ih =>
    rw [launchAll_concat, State.launch]
    cases hdoc : w.artifact t.env config with
    | none => exact ih
    | some doc => exact State.Entries.write (s := (s.launchAll i t.env config out launches).record (.launch i)) ih (hworker w doc hdoc)

theorem runCondition_entries (hrunner : RunnerGood Good i) (hworker : WorkerGood Good outDir i sessionId c t)
    (hs : s.Entries Good) (h : runCondition file outDir i guarded sessionId c t s = .ok s') : s'.Entries Good := by
  simp only [runCondition, bind_eq_ok, mapError_eq_ok] at h
  obtain ⟨ident, -, fresh, -, h⟩ := h
  cases fresh with
  | true =>
    obtain rfl := Except.ok.inj h
    exact hs
  | false =>
    simp only [Bool.false_eq_true, if_false, bind_eq_ok, mapError_eq_ok] at h
    obtain ⟨s₁, hunlink, config, hconfig, h⟩ := h
    obtain rfl := unlink_eq_ok hunlink
    cases guarded with
    | false =>
      obtain ⟨_, hret, henv⟩ := bind_eq_ok.1 h
      obtain rfl := Except.ok.inj hret
      exact (crashEnvelope_spec henv).1.entries hrunner
        (launchAll_entries [t.worker] hs.remove fun w doc => hworker config w doc hconfig)
    | true =>
      obtain ⟨⟨proc, s₂⟩, hspawn, henv⟩ := bind_eq_ok.1 h
      refine (crashEnvelope_spec henv).1.entries hrunner ?_
      simp only [launchUnderGuard, bind_eq_ok] at hspawn
      obtain ⟨s₁, hunlink, ⟨r, launches⟩, -, s₃, hlaunchRec, s₄, hclientRec, s₅, hsuperRec, s₆, henvelope, hret⟩ := hspawn
      obtain ⟨-, rfl⟩ := Prod.mk.inj (Except.ok.inj hret)
      refine (guardEnvelope_spec henvelope).1.entries hrunner (writeRecord_entries hrunner (writeRecord_entries hrunner
        (writeRecord_entries hrunner ?_ hlaunchRec) hclientRec) hsuperRec)
      exact launchAll_entries launches (unlinkRecords_entries hs.remove hunlink) fun w doc => hworker config w doc hconfig

/-- What every turn of a run writes is good, so all of it is. -/
theorem runFrom_entries (Good : Entry → Prop) {turns : List (Condition × Turn)}
    (hturn : ∀ k ct, turns[k]? = some ct → RunnerGood Good (i + k) ∧ WorkerGood Good outDir (i + k) sessionId ct.1 ct.2)
    (hs : s.Entries Good) (h : runFrom file outDir guarded sessionId i turns s = .ok s') : s'.Entries Good := by
  induction turns generalizing i s with
  | nil =>
    obtain rfl := Except.ok.inj h
    exact hs
  | cons ct turns ih =>
    obtain ⟨s₁, hcond, hrest⟩ := bind_eq_ok.1 h
    obtain ⟨hrunner, hworker⟩ := hturn 0 ct rfl
    refine ih (fun k ct' hk => ?_) (runCondition_entries hrunner hworker hs hcond) hrest
    rw [Nat.add_assoc, Nat.add_comm 1 k]
    exact hturn (k + 1) ct' hk

/-! ## What a turn logs -/

/-- A turn logs that the artifact is fresh, or the launch of its worker. -/
theorem runCondition_log (h : runCondition file outDir i guarded sessionId c t s = .ok s') :
    ∃ ident fresh, conditionIdentity t.env c.kind sessionId c.params c.attentionImpl none none = .ok ident ∧
      resultIsFresh ((s.files (file (outPath outDir c.name))).map Entry.content) ident = .ok fresh ∧
      s'.log = s.log ++ if fresh = true then [.fresh i] else (t.launches guarded).map fun _ => .launch i := by
  simp only [runCondition, bind_eq_ok, mapError_eq_ok] at h
  obtain ⟨ident, hident, fresh, hfresh, h⟩ := h
  refine ⟨ident, fresh, hident, hfresh, ?_⟩
  cases fresh with
  | true =>
    obtain rfl := Except.ok.inj h
    rfl
  | false =>
    simp only [Bool.false_eq_true, if_false, bind_eq_ok, mapError_eq_ok] at h ⊢
    obtain ⟨s₁, hunlink, config, hconfig, h⟩ := h
    obtain rfl := unlink_eq_ok hunlink
    cases guarded with
    | false =>
      obtain ⟨_, hret, henv⟩ := bind_eq_ok.1 h
      obtain rfl := Except.ok.inj hret
      rw [(crashEnvelope_spec henv).1.log_eq]
      exact (launch_spec _ t.env config _ t.worker).1
    | true =>
      obtain ⟨⟨proc, s₂⟩, hspawn, henv⟩ := bind_eq_ok.1 h
      rw [(crashEnvelope_spec henv).1.log_eq, launchUnderGuard_log hspawn, State.remove_log]

/-- The events of a run, by turn. -/
theorem runFrom_log {turns : List (Condition × Turn)} (h : runFrom file outDir guarded sessionId i turns s = .ok s') :
    ∃ evs, s'.log = s.log ++ evs ∧ ∀ e ∈ evs, i ≤ e.turn ∧ e.turn < i + turns.length := by
  induction turns generalizing i s with
  | nil =>
    obtain rfl := Except.ok.inj h
    exact ⟨[], by simp, by simp⟩
  | cons ct turns ih =>
    obtain ⟨s₁, hcond, hrest⟩ := bind_eq_ok.1 h
    obtain ⟨ident, fresh, -, -, hlog⟩ := runCondition_log hcond
    obtain ⟨evs, hevs, hle⟩ := ih hrest
    refine ⟨_, by rw [hevs, hlog, List.append_assoc], fun e he => ?_⟩
    rw [List.length_cons]
    rcases List.mem_append.1 he with he | he
    · have hturn : e.turn = i := by
        cases fresh with
        | true =>
          obtain rfl := List.mem_singleton.1 he
          rfl
        | false =>
          obtain ⟨-, -, rfl⟩ := List.mem_map.1 he
          rfl
      omega
    · have hbounds := hle e he
      omega

theorem runFrom_append {xs ys : List (Condition × Turn)} (h : runFrom file outDir guarded sessionId i (xs ++ ys) s = .ok s') :
    ∃ s₁, runFrom file outDir guarded sessionId i xs s = .ok s₁ ∧
      runFrom file outDir guarded sessionId (i + xs.length) ys s₁ = .ok s' := by
  induction xs generalizing i s with
  | nil => exact ⟨s, rfl, h⟩
  | cons ct xs ih =>
    obtain ⟨s₁, hcond, hrest⟩ := bind_eq_ok.1 h
    obtain ⟨s₂, hxs, hys⟩ := ih hrest
    refine ⟨s₂, bind_eq_ok.2 ⟨s₁, hcond, hxs⟩, ?_⟩
    rwa [List.length_cons, Nat.add_comm xs.length, ← Nat.add_assoc]

end Entries

/-! ## Two calls -/

section Resume
variable {F : Type} [DecidableEq F]

/-- Separate artifacts stay in their place until their own turn. -/
theorem artifact_stays {file : Path → F} {outDir : Path} {guarded : Bool} {sessionId : PyStr} {files : F → Option Content}
    {before after : List (Condition × Turn)} {ct : Condition × Turn} {s : State F}
    (hsep : Separate file outDir guarded ((before ++ ct :: after).map fun ct => ct.1.name))
    (h : runFrom file outDir guarded sessionId 0 before (.initial files) = .ok s) :
    (s.files (file (outPath outDir ct.1.name))).map Entry.content = files (file (outPath outDir ct.1.name)) := by
  rw [List.map_append, List.map_cons] at hsep
  have hdistinct := hsep.distinct
  rw [List.map_append, List.map_cons, List.nodup_append] at hdistinct
  have hsub : Separate file outDir guarded (before.map fun ct => ct.1.name) :=
    ⟨hdistinct.1, fun hguard m hm n hn => hsep.records hguard m (List.mem_append_left _ hm) n (List.mem_append_left _ hn)⟩
  rw [runFrom_frame hsub h fun n hn => ⟨fun heq => ?_, fun hguard kind hkind heq => ?_⟩]
  · simp [State.initial, Option.map_map, Function.comp_def]
  · exact hdistinct.2.2 _ (List.mem_map.2 ⟨n, hn, rfl⟩) _ (.head _) heq.symm
  · exact hsep.records hguard n (List.mem_append_left _ hn) _ (List.mem_append_right _ (.head _)) kind hkind heq.symm

/-- An `ok` artifact that a worker left in one call, and that is still there when the next
call comes to its condition, is found fresh there, without a launch, exactly when the
condition is stable. -/
theorem resume_fresh_iff (file : Path → F) (outDir : Path) (guarded guarded' : Bool) (sessionId : PyStr)
    (dirState dirState' : GuardDirState) (files files' : F → Option Content) (turns before after : List (Condition × Turn))
    (c : Condition) (t t' : Turn) (k : ℕ) (doc : Json) (paths paths' : List Path) (s sk s' : State F)
    (h : runConditions file outDir guarded sessionId dirState files turns = .ok (paths, s)) (hk : turns[k]? = some (c, t))
    (hleft : s.files (file (outPath outDir c.name)) = some ⟨.parses doc, .worker k⟩) (hok : isOk doc = true)
    (h' : runConditions file outDir guarded' sessionId dirState' files' (before ++ (c, t') :: after) = .ok (paths', s'))
    (henv : t'.env = t.env)
    (hbefore : runFrom file outDir guarded' sessionId 0 before (.initial files') = .ok sk)
    (hthere : (sk.files (file (outPath outDir c.name))).map Entry.content = some (.parses doc)) :
    .fresh before.length ∈ s'.log ∧ .launch before.length ∉ s'.log ↔ c.stable t.env sessionId = true := by
  have hwritten : ∃ (config : Json) (w : WorkerRun), encode (configValue c sessionId (outPath outDir c.name)) = .ok config ∧
      w.artifact t.env config = some doc := by
    have hentries := runFrom_entries (fun e => e.writer = .worker k → ∃ (doc config : Json) (w : WorkerRun),
        encode (configValue c sessionId (outPath outDir c.name)) = .ok config ∧ w.artifact t.env config = some doc ∧
        e.content = .parses doc) (fun j ct hj => ?_) (fun g e he hwriter => ?_) (runConditions_eq_ok h).2
    · obtain ⟨doc', config, w, hconfig, hdoc, hcontent⟩ := hentries _ _ hleft rfl
      obtain rfl := Content.parses.inj hcontent
      exact ⟨config, w, hconfig, hdoc⟩
    · refine ⟨fun doc hwriter => (by cases hwriter), fun config w doc hconfig hdoc hwriter => ?_⟩
      obtain rfl : j = k := by simpa using hwriter
      obtain rfl := Option.some.inj (hj.symm.trans hk)
      exact ⟨doc, config, w, hconfig, hdoc, rfl⟩
    · obtain ⟨content, -, rfl⟩ := Option.map_eq_some_iff.1 he
      cases hwriter
  obtain ⟨config, w, hconfig, hdoc⟩ := hwritten
  obtain ⟨sk', hbefore', hrest⟩ := runFrom_append (runConditions_eq_ok h').2
  obtain rfl := Except.ok.inj (hbefore.symm.trans hbefore')
  obtain ⟨s₁, hturn, hafter⟩ := bind_eq_ok.1 hrest
  obtain ⟨ident, fresh, hident, hfresh, hlog⟩ := runCondition_log hturn
  rw [henv] at hident
  rw [hthere, resultIsFresh_worker hident hconfig hdoc hok] at hfresh
  obtain rfl := Except.ok.inj hfresh
  obtain ⟨evs, hevs, hlt⟩ := runFrom_log hbefore
  obtain ⟨evs', hevs', hgt⟩ := runFrom_log hafter
  have hearlier : ∀ e : Event, e.turn = before.length → e ∉ evs := fun e he hmem => by
    have := hlt e hmem
    omega
  have hlater : ∀ e : Event, e.turn = before.length → e ∉ evs' := fun e he hmem => by
    have := hgt e hmem
    omega
  have hmem : ∀ e : Event, e.turn = before.length → (e ∈ s'.log ↔ e ∈ if c.stable t.env sessionId = true then
      [.fresh before.length] else (t'.launches guarded').map fun _ => .launch before.length) := by
    intro e he
    rw [hevs', hlog, hevs, List.mem_append, List.mem_append, List.mem_append, zero_add]
    simp [hearlier e he, hlater e he, State.initial]
  rw [hmem _ rfl, hmem _ rfl]
  cases c.stable t.env sessionId with
  | true => simp
  | false => simp

end Resume

/-- One unsupervised call in a directory. -/
def benchCall (files : Path → Option Content) (turns : List (Condition × Turn)) : Except RunError (List Path × State Path) :=
  runConditions id benchOut false (lit "s") .absent files turns

/-- What a call leaves. -/
def leftFiles (r : Except RunError (List Path × State Path)) : Path → Option Content := fun f =>
  match r with
  | .ok (_, s) => (s.files f).map Entry.content
  | .error _ => none

def pairTurns : List (Condition × Turn) :=
  [(lossCondition (lit "x") (lit "kernel"), okTurn), (lossCondition (lit "y") (lit "naive"), okTurn)]

theorem resume_fresh_iff_pair :
    ∃ paths s, benchCall (leftFiles (benchCall (fun _ => none) pairTurns)) pairTurns = .ok (paths, s) ∧
      .fresh 1 ∈ s.log ∧ .launch 1 ∉ s.log := by
  refine ⟨_, _, rfl, ?_⟩
  have hresume := resume_fresh_iff id benchOut false false (lit "s") .absent .absent (fun _ => none)
    (leftFiles (benchCall (fun _ => none) pairTurns)) pairTurns [(lossCondition (lit "x") (lit "kernel"), okTurn)] []
    (lossCondition (lit "y") (lit "naive")) okTurn okTurn 1 _ _ _ _ _ _ rfl rfl rfl rfl rfl rfl rfl rfl
  exact hresume.2 (by decide)

/-- A tuple comes back as a list: the artifact of this condition is never fresh. -/
def tupleCondition : Condition :=
  ⟨lit "x", lit "loss_layer", [(.str (lit "shape"), .tuple [.int 1, .int 2])], none, none⟩

theorem resume_tuple :
    ∃ paths s doc paths' s', benchCall (fun _ => none) [(tupleCondition, okTurn)] = .ok (paths, s) ∧
      s.files (outPath benchOut (lit "x")) = some ⟨.parses doc, .worker 0⟩ ∧ isOk doc = true ∧
      benchCall (leftFiles (benchCall (fun _ => none) [(tupleCondition, okTurn)])) [(tupleCondition, okTurn)] =
        .ok (paths', s') ∧ .fresh 0 ∉ s'.log ∧ .launch 0 ∈ s'.log := by
  refine ⟨_, _, _, _, _, rfl, rfl, rfl, rfl, ?_, ?_⟩
  · decide
  · decide

end MlxTrainPerf.Bench
