import Mathlib.Data.List.Basic
/-!
# Memoised computations

A dictionary that a function fills as it is called: an argument whose key is there gets
what is there, any other is computed, and what it gives is stored unless it raised. What
a computation gives may depend on all that were begun before it. Whatever programs share
a dictionary, what it holds was computed, and it never changes what it holds.
-/

namespace Memo

/-- The dictionary, newest first, and the arguments of every computation begun. -/
structure Table (κ ν ω : Type) where
  entries : List (κ × ν)
  begun : List ω

def Table.empty {κ ν ω : Type} : Table κ ν ω := ⟨[], []⟩

/-- A program over a table: what it did to the table stays, raised or not. -/
abbrev Prog (τ ε α : Type) : Type := ExceptT ε (StateM τ) α

section Fetch
variable {κ ν ω ε : Type} [DecidableEq κ]

/-- `if key in cache: return cache[key]`, else compute and store. -/
def fetch (key : ω → κ) (compute : List ω → ω → Except ε ν) (a : ω) : Prog (Table κ ν ω) ε ν := fun t =>
  match t.entries.lookup (key a) with
  | some v => (.ok v, t)
  | none =>
    let begun := t.begun ++ [a]
    match compute t.begun a with
    | .ok v => (.ok v, ⟨(key a, v) :: t.entries, begun⟩)
    | .error e => (.error e, ⟨t.entries, begun⟩)

/-- The table after a run of programs, whatever each gave. -/
def after {τ α : Type} (t : τ) (ps : List (Prog τ ε α)) : τ := ps.foldl (fun t p => (p t).2) t

end Fetch

/-! ## Programs -/

section Programs
variable {τ ε ε' α β : Type} {p : Prog τ ε α} {f : α → Prog τ ε β} {t t' : τ}

theorem bind_ok {a : α} (h : p t = (.ok a, t')) : (p >>= f) t = f a t' := by
  simp only [bind, ExceptT.bind, ExceptT.mk, StateT.bind, h]
  rfl

theorem bind_error {e : ε} (h : p t = (.error e, t')) : (p >>= f) t = (.error e, t') := by
  simp only [bind, ExceptT.bind, ExceptT.mk, StateT.bind, h]
  rfl

theorem lift_bind_ok {x : Except ε α} {a : α} (h : x = .ok a) : ((x : Prog τ ε α) >>= f) t = f a t := by
  subst h
  rfl

/-- What is given after a bind was given by its second program, on what the first left. -/
theorem bind_eq_ok {b : β} (h : (p >>= f) t = (.ok b, t')) : ∃ a t₁, p t = (.ok a, t₁) ∧ f a t₁ = (.ok b, t') := by
  rcases hpt : p t with ⟨e | a, t₁⟩
  · rw [bind_error hpt] at h
    exact nomatch (Prod.mk.inj h).1
  · rw [bind_ok hpt] at h
    exact ⟨a, t₁, rfl, h⟩

theorem lift_bind_eq_ok {x : Except ε α} {b : β} (h : ((x : Prog τ ε α) >>= f) t = (.ok b, t')) :
    ∃ a, x = .ok a ∧ f a t = (.ok b, t') := by
  cases x with
  | error e => exact nomatch (Prod.mk.inj h).1
  | ok a => exact ⟨a, rfl, h⟩

theorem adapt_ok (g : ε → ε') {a : α} (h : p t = (.ok a, t')) : (ExceptT.adapt g p) t = (.ok a, t') := by
  have heq : (ExceptT.adapt g p) t = ((p t).1.mapError g, (p t).2) := rfl
  rw [heq, h]
  rfl

theorem adapt_error (g : ε → ε') {e : ε} (h : p t = (.error e, t')) : (ExceptT.adapt g p) t = (.error (g e), t') := by
  have heq : (ExceptT.adapt g p) t = ((p t).1.mapError g, (p t).2) := rfl
  rw [heq, h]
  rfl

theorem adapt_bind_eq_ok {g : ε → ε'} {f : α → Prog τ ε' β} {b : β} (h : (ExceptT.adapt g p >>= f) t = (.ok b, t')) :
    ∃ a t₁, p t = (.ok a, t₁) ∧ f a t₁ = (.ok b, t') := by
  rcases hpt : p t with ⟨e | a, t₁⟩
  · rw [bind_error (adapt_error g hpt)] at h
    exact nomatch (Prod.mk.inj h).1
  · rw [bind_ok (adapt_ok g hpt)] at h
    exact ⟨a, t₁, rfl, h⟩

end Programs

section Tables
variable {κ ν ω ε : Type} [DecidableEq κ]

/-- Everything held is still held. -/
structure Extends (t t' : Table κ ν ω) : Prop where
  kept : ∀ k v, t.entries.lookup k = some v → t'.entries.lookup k = some v
  begun : t.begun <+: t'.begun

/-- Whatever is held was computed, at an argument with its key. -/
structure Sound (key : ω → κ) (compute : List ω → ω → Except ε ν) (good : ω → Prop) (t : Table κ ν ω) : Prop where
  good : ∀ a ∈ t.begun, good a
  computed : ∀ k v, t.entries.lookup k = some v →
    ∃ before a, before ++ [a] <+: t.begun ∧ key a = k ∧ compute before a = .ok v

variable {key : ω → κ} {compute : List ω → ω → Except ε ν} {good : ω → Prop} {t t' t'' : Table κ ν ω} {a : ω} {v : ν}

theorem Extends.refl (t : Table κ ν ω) : Extends t t := ⟨fun _ _ h => h, List.prefix_rfl⟩

theorem Extends.trans (h : Extends t t') (h' : Extends t' t'') : Extends t t'' :=
  ⟨fun k v hv => h'.kept k v (h.kept k v hv), h.begun.trans h'.begun⟩

theorem Sound.empty : Sound key compute good (.empty : Table κ ν ω) where
  good := by
    intro a ha
    cases ha
  computed := by
    intro k v hv
    cases hv

/-! ## Fetching -/

theorem fetch_hit (h : t.entries.lookup (key a) = some v) : fetch key compute a t = (.ok v, t) := by
  unfold fetch
  rw [h]

theorem fetch_miss_ok (h : t.entries.lookup (key a) = none) (hv : compute t.begun a = .ok v) :
    fetch key compute a t = (.ok v, ⟨(key a, v) :: t.entries, t.begun ++ [a]⟩) := by
  unfold fetch
  rw [h]
  dsimp only
  rw [hv]

theorem fetch_miss_error {e : ε} (h : t.entries.lookup (key a) = none) (he : compute t.begun a = .error e) :
    fetch key compute a t = (.error e, ⟨t.entries, t.begun ++ [a]⟩) := by
  unfold fetch
  rw [h]
  dsimp only
  rw [he]

/-- The three ways a fetch can end. -/
theorem fetch_cases (key : ω → κ) (compute : List ω → ω → Except ε ν) (a : ω) (t : Table κ ν ω) :
    (∃ v, t.entries.lookup (key a) = some v ∧ fetch key compute a t = (.ok v, t)) ∨
    (∃ v, t.entries.lookup (key a) = none ∧ compute t.begun a = .ok v ∧
      fetch key compute a t = (.ok v, ⟨(key a, v) :: t.entries, t.begun ++ [a]⟩)) ∨
    ∃ e, t.entries.lookup (key a) = none ∧ compute t.begun a = .error e ∧
      fetch key compute a t = (.error e, ⟨t.entries, t.begun ++ [a]⟩) := by
  cases hlookup : t.entries.lookup (key a) with
  | some v => exact .inl ⟨v, rfl, fetch_hit hlookup⟩
  | none =>
    cases hcompute : compute t.begun a with
    | ok v => exact .inr (.inl ⟨v, rfl, rfl, fetch_miss_ok hlookup hcompute⟩)
    | error e => exact .inr (.inr ⟨e, rfl, rfl, fetch_miss_error hlookup hcompute⟩)

/-- A new key shadows nothing that is held. -/
theorem lookup_cons_new {k : κ} {w : ν} (hnew : t.entries.lookup (key a) = none) (h : t.entries.lookup k = some w) :
    ((key a, v) :: t.entries).lookup k = some w := by
  rw [List.lookup_cons]
  by_cases hk : k = key a
  · rw [hk, hnew] at h
    cases h
  · rwa [beq_false_of_ne hk]

theorem fetch_extends (key : ω → κ) (compute : List ω → ω → Except ε ν) (a : ω) (t : Table κ ν ω) :
    Extends t (fetch key compute a t).2 := by
  rcases fetch_cases key compute a t with ⟨v, -, hfetch⟩ | ⟨v, hnew, -, hfetch⟩ | ⟨e, -, -, hfetch⟩
  · rw [hfetch]
    exact .refl t
  · rw [hfetch]
    exact ⟨fun k w => lookup_cons_new hnew, List.prefix_append _ _⟩
  · rw [hfetch]
    exact ⟨fun _ _ h => h, List.prefix_append _ _⟩

/-- A fetch keeps the table sound, and begins a computation at its own argument only. -/
theorem Sound.fetch (h : Sound key compute good t) (ha : good a) : Sound key compute good (fetch key compute a t).2 := by
  have hgood : ∀ b ∈ t.begun ++ [a], good b := by
    intro b hb
    rcases List.mem_append.1 hb with hb | hb
    · exact h.good b hb
    · rwa [List.mem_singleton.1 hb]
  have hlater : ∀ {before : List ω} {b : ω}, before ++ [b] <+: t.begun → before ++ [b] <+: t.begun ++ [a] :=
    fun hpre => hpre.trans (List.prefix_append _ _)
  rcases fetch_cases key compute a t with ⟨v, -, hfetch⟩ | ⟨v, -, hv, hfetch⟩ | ⟨e, -, -, hfetch⟩
  · rwa [hfetch]
  · rw [hfetch]
    refine ⟨hgood, ?_⟩
    intro k w hw
    rw [List.lookup_cons] at hw
    by_cases hk : k = key a
    · rw [hk, beq_self_eq_true] at hw
      obtain rfl := Option.some.inj hw
      exact ⟨t.begun, a, List.prefix_rfl, hk.symm, hv⟩
    · rw [beq_false_of_ne hk] at hw
      obtain ⟨before, b, hpre, hkey, hcompute⟩ := h.computed k w hw
      exact ⟨before, b, hlater hpre, hkey, hcompute⟩
  · rw [hfetch]
    refine ⟨hgood, ?_⟩
    intro k w hw
    obtain ⟨before, b, hpre, hkey, hcompute⟩ := h.computed k w hw
    exact ⟨before, b, hlater hpre, hkey, hcompute⟩

/-- Where a key determines what is computed, a fetch from a sound table gives what its own argument computes. -/
theorem Sound.fetch_eq (h : Sound key compute good t)
    (hkey : ∀ before b v, good b → key b = key a → compute before b = .ok v → compute t.begun a = .ok v) :
    (Memo.fetch key compute a t).1 = compute t.begun a := by
  rcases fetch_cases key compute a t with ⟨v, hheld, hfetch⟩ | ⟨v, -, hv, hfetch⟩ | ⟨e, -, he, hfetch⟩
  · obtain ⟨before, b, hpre, hb, hcompute⟩ := h.computed _ _ hheld
    have hgood : good b := h.good b (hpre.subset (List.mem_append_right _ (List.mem_singleton_self b)))
    rw [hfetch, hkey before b v hgood hb hcompute]
  · rw [hfetch, hv]
  · rw [hfetch, he]

/-- What a fetch gives is held from then on. -/
theorem fetch_held (h : fetch key compute a t = (.ok v, t')) : t'.entries.lookup (key a) = some v := by
  rcases fetch_cases key compute a t with ⟨w, hw, hfetch⟩ | ⟨w, -, -, hfetch⟩ | ⟨e, -, -, hfetch⟩
  · obtain ⟨hv, rfl⟩ := Prod.mk.inj (hfetch.symm.trans h)
    rwa [← Except.ok.inj hv]
  · obtain ⟨hv, rfl⟩ := Prod.mk.inj (hfetch.symm.trans h)
    rw [List.lookup_cons, beq_self_eq_true, ← Except.ok.inj hv]
  · exact nomatch (Prod.mk.inj (hfetch.symm.trans h)).1

/-! ## Nothing is computed twice -/

/-- Whatever was computed is held, and was not begun again at its key. -/
structure Once (key : ω → κ) (compute : List ω → ω → Except ε ν) (t : Table κ ν ω) : Prop where
  held : ∀ before a rest v, t.begun = before ++ a :: rest → compute before a = .ok v → t.entries.lookup (key a) = some v
  last : ∀ before a rest v, t.begun = before ++ a :: rest → compute before a = .ok v → ∀ b ∈ rest, key b ≠ key a

theorem Once.empty : Once key compute (.empty : Table κ ν ω) where
  held := by
    intro before a rest v h
    cases List.append_eq_nil_iff.1 h.symm |>.2
  last := by
    intro before a rest v h
    cases List.append_eq_nil_iff.1 h.symm |>.2

/-- The place of `a` in a list with one more entry. -/
theorem snoc_eq_cons {l before rest : List ω} {b : ω} (h : l ++ [b] = before ++ a :: rest) :
    (l = before ∧ b = a ∧ rest = []) ∨ ∃ rest', rest = rest' ++ [b] ∧ l = before ++ a :: rest' := by
  rcases List.eq_nil_or_concat rest with rfl | ⟨rest', b', rfl⟩
  · obtain ⟨rfl, hb⟩ := List.append_inj' h rfl
    exact .inl ⟨rfl, List.singleton_inj.1 hb, rfl⟩
  · rw [List.concat_eq_append, ← List.cons_append, ← List.append_assoc] at h
    obtain ⟨rfl, hb⟩ := List.append_inj' h rfl
    obtain rfl := List.singleton_inj.1 hb
    exact .inr ⟨rest', List.concat_eq_append, rfl⟩

theorem Once.fetch (h : Once key compute t) (a : ω) : Once key compute (fetch key compute a t).2 := by
  -- a key that is looked up in vain is that of nothing that was computed
  have hfresh : t.entries.lookup (key a) = none → ∀ {before b rest v}, t.begun = before ++ b :: rest →
      compute before b = .ok v → key a ≠ key b := by
    intro hnone before b rest v hbegun hv hkey
    rw [hkey, h.held before b rest v hbegun hv] at hnone
    cases hnone
  rcases fetch_cases key compute a t with ⟨v, -, hfetch⟩ | ⟨v, hnone, hok, hfetch⟩ | ⟨e, hnone, herror, hfetch⟩
  · rwa [hfetch]
  · rw [hfetch]
    constructor
    · intro before b rest w hbegun hw
      rcases snoc_eq_cons hbegun with ⟨rfl, rfl, -⟩ | ⟨rest', -, hold⟩
      · rw [List.lookup_cons, beq_self_eq_true, Except.ok.inj (hok.symm.trans hw)]
      · exact lookup_cons_new hnone (h.held before b rest' w hold hw)
    · intro before b rest w hbegun hw c hc
      rcases snoc_eq_cons hbegun with ⟨rfl, rfl, rfl⟩ | ⟨rest', rfl, hold⟩
      · cases hc
      · rcases List.mem_append.1 hc with hc | hc
        · exact h.last before b rest' w hold hw c hc
        · rw [List.mem_singleton.1 hc]
          exact hfresh hnone hold hw
  · rw [hfetch]
    constructor
    · intro before b rest w hbegun hw
      rcases snoc_eq_cons hbegun with ⟨rfl, rfl, -⟩ | ⟨rest', -, hold⟩
      · cases herror.symm.trans hw
      · exact h.held before b rest' w hold hw
    · intro before b rest w hbegun hw c hc
      rcases snoc_eq_cons hbegun with ⟨rfl, rfl, rfl⟩ | ⟨rest', rfl, hold⟩
      · cases hc
      · rcases List.mem_append.1 hc with hc | hc
        · exact h.last before b rest' w hold hw c hc
        · rw [List.mem_singleton.1 hc]
          exact hfresh hnone hold hw

/-- Where nothing that was begun raised, no key was begun twice. -/
theorem Once.nodup (h : Once key compute t) (hgives : ∀ before, ∀ a ∈ t.begun, ∃ v, compute before a = .ok v) :
    (t.begun.map key).Nodup := by
  have hsuffix : ∀ rest before, t.begun = before ++ rest → (rest.map key).Nodup := by
    intro rest
    induction rest with
    | nil => exact fun _ _ => List.nodup_nil
    | cons a rest ih =>
      intro before hbegun
      obtain ⟨v, hv⟩ := hgives before a (by simp [hbegun])
      rw [List.map_cons, List.nodup_cons]
      refine ⟨fun hmem => ?_, ih (before ++ [a]) (by simp [hbegun])⟩
      obtain ⟨b, hb, hkey⟩ := List.mem_map.1 hmem
      exact h.last before a rest v hbegun hv b hb hkey
  exact hsuffix t.begun [] rfl

/-! ## Programs that fetch -/

/-- One table comes from another by fetches at good arguments. -/
inductive Fetched (key : ω → κ) (compute : List ω → ω → Except ε ν) (good : ω → Prop) (t : Table κ ν ω) : Table κ ν ω → Prop
  | refl : Fetched key compute good t t
  | fetch {t' : Table κ ν ω} {a : ω} : Fetched key compute good t t' → good a →
      Fetched key compute good t (Memo.fetch key compute a t').2

theorem Fetched.trans (h : Fetched key compute good t t') (h' : Fetched key compute good t' t'') :
    Fetched key compute good t t'' := by
  induction h' with
  | refl => exact h
  | fetch _ ha ih => exact ih.fetch ha

theorem Fetched.sound (h : Fetched key compute good t t') (ht : Sound key compute good t) : Sound key compute good t' := by
  induction h with
  | refl => exact ht
  | fetch _ ha ih => exact ih.fetch ha

theorem Fetched.once (h : Fetched key compute good t t') (ht : Once key compute t) : Once key compute t' := by
  induction h with
  | refl => exact ht
  | fetch _ _ ih => exact ih.fetch _

theorem Fetched.extends (h : Fetched key compute good t t') : Extends t t' := by
  induction h with
  | refl => exact .refl t
  | fetch _ _ ih => exact ih.trans (fetch_extends key compute _ _)

/-- A program that changes tables by such fetches only. -/
def Client (key : ω → κ) (compute : List ω → ω → Except ε ν) (good : ω → Prop) {ε' α : Type}
    (p : Prog (Table κ ν ω) ε' α) : Prop := ∀ t, Fetched key compute good t (p t).2

/-- A program that begins nothing where these keys are held. -/
def Quiet (keys : κ → Prop) {ε' α : Type} (p : Prog (Table κ ν ω) ε' α) : Prop :=
  ∀ t, (∀ k, keys k → ∃ v, t.entries.lookup k = some v) → (p t).2 = t

section Combine
variable {ε' ε'' α β : Type} {p : Prog (Table κ ν ω) ε' α} {f : α → Prog (Table κ ν ω) ε' β} {keys : κ → Prop}

theorem Client.fetch (ha : good a) : Client key compute good (Memo.fetch key compute a) := fun _ => .fetch .refl ha

theorem Client.lift (x : Except ε' α) : Client key compute good (x : Prog (Table κ ν ω) ε' α) := fun _ => .refl

theorem Client.pure (a : α) : Client key compute good (Pure.pure a : Prog (Table κ ν ω) ε' α) := fun _ => .refl

theorem Client.lift_bind {x : Except ε' α} (hf : ∀ a, x = .ok a → Client key compute good (f a)) :
    Client key compute good ((x : Prog (Table κ ν ω) ε' α) >>= f) := by
  cases x with
  | error e => exact fun _ => .refl
  | ok a => exact hf a rfl

theorem Client.adapt (g : ε' → ε'') (h : Client key compute good p) : Client key compute good (ExceptT.adapt g p) := h

theorem Client.bind (hp : Client key compute good p) (hf : ∀ a, Client key compute good (f a)) :
    Client key compute good (p >>= f) := by
  intro t
  have hpt := hp t
  rcases h : p t with ⟨a | a, t'⟩
  · rw [h] at hpt
    rw [bind_error h]
    exact hpt
  · rw [h] at hpt
    rw [bind_ok h]
    exact hpt.trans (hf a t')

theorem Quiet.fetch (ha : keys (key a)) : Quiet keys (Memo.fetch key compute a) := by
  intro t ht
  obtain ⟨v, hv⟩ := ht _ ha
  rw [fetch_hit hv]

theorem Quiet.lift (x : Except ε' α) : Quiet keys (x : Prog (Table κ ν ω) ε' α) := fun _ _ => rfl

theorem Quiet.pure (a : α) : Quiet keys (Pure.pure a : Prog (Table κ ν ω) ε' α) := fun _ _ => rfl

theorem Quiet.lift_bind {x : Except ε' α} (hf : ∀ a, x = .ok a → Quiet keys (f a)) :
    Quiet keys ((x : Prog (Table κ ν ω) ε' α) >>= f) := by
  cases x with
  | error e => exact fun _ _ => rfl
  | ok a => exact hf a rfl

theorem Quiet.adapt (g : ε' → ε'') (h : Quiet keys p) : Quiet keys (ExceptT.adapt g p) := h

theorem Quiet.bind (hp : Quiet keys p) (hf : ∀ a, Quiet keys (f a)) : Quiet keys (p >>= f) := by
  intro t ht
  have hpt := hp t ht
  rcases h : p t with ⟨a | a, t'⟩
  · rw [bind_error h, ← hpt, h]
  · obtain rfl : t' = t := by rw [← hpt, h]
    rw [bind_ok h]
    exact hf a t' ht

/-! ## Runs -/

variable {ps : List (Prog (Table κ ν ω) ε' α)}

/-- A run of clients is made of fetches. -/
theorem after_fetched (hps : ∀ p ∈ ps, Client key compute good p) (t : Table κ ν ω) :
    Fetched key compute good t (after t ps) := by
  induction ps generalizing t with
  | nil => exact .refl
  | cons p ps ih =>
    obtain ⟨hp, hps⟩ := List.forall_mem_cons.1 hps
    exact (hp t).trans (ih hps (p t).2)

/-- A run of quiet programs leaves the table as it found it. -/
theorem after_quiet (hps : ∀ p ∈ ps, Quiet keys p) (ht : ∀ k, keys k → ∃ v, t.entries.lookup k = some v) :
    after t ps = t := by
  induction ps with
  | nil => rfl
  | cons p ps ih =>
    obtain ⟨hp, hps⟩ := List.forall_mem_cons.1 hps
    unfold after at ih ⊢
    rw [List.foldl_cons, hp t ht]
    exact ih hps

end Combine

end Tables

end Memo
