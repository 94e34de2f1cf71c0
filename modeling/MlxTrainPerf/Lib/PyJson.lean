import MlxTrainPerf.Lib.PyStr
import MlxTrainPerf.Lib.Budget
/-!
# Python values through JSON

`json.dumps` and `json.loads` on plain Python values, with Python's `==`. Text is
read as the document it spells, so an encoder is a function to documents and a
decoder one from them. A value survives exactly when it is `stable`
(`pyEq_decode`), and what came from JSON once does not change any more
(`hop_decode`).
-/
open PyStr Budget

namespace PyJson

/-- A float. A NaN is equal only to itself, as an object; `json.loads` always gives
object 0. -/
inductive PyFloat
  | finite (q : ℚ)
  | inf (neg : Bool)
  | nan (object : ℕ)
deriving DecidableEq, Repr

/-- A dict key. A float key carries its `repr`; JSON refuses the other ones. -/
inductive PyKey
  | str (s : PyStr)
  | int (n : ℤ)
  | float (f : PyFloat) (repr : PyStr)
  | bool (b : Bool)
  | none
  | other (object : ℕ)
deriving DecidableEq, Repr

/-- A value; `other` is any object that JSON refuses. -/
inductive PyValue
  | none
  | bool (b : Bool)
  | int (n : ℤ)
  | float (f : PyFloat)
  | str (s : PyStr)
  | list (xs : List PyValue)
  | tuple (xs : List PyValue)
  | dict (items : List (PyKey × PyValue))
  | other (object : ℕ)

/-- A float literal. -/
inductive JsonFloat
  | finite (q : ℚ)
  | inf (neg : Bool)
  | nan
deriving DecidableEq, Repr

/-- A JSON document. -/
inductive Json
  | null
  | bool (b : Bool)
  | int (n : ℤ)
  | float (f : JsonFloat)
  | str (units : List Unit16)
  | arr (xs : List Json)
  | obj (pairs : List (List Unit16 × Json))

/-- `TypeError` for an object or a key, `ValueError` for an int of too many digits. -/
inductive JsonError
  | typeError
  | valueError
deriving DecidableEq, Repr

/-! ## Dicts -/

section Dict
variable {κ α : Type} [DecidableEq κ]

/-- `d[k] = v`. -/
def setKey (d : List (κ × α)) (k : κ) (v : α) : List (κ × α) :=
  if k ∈ d.map Prod.fst then d.map fun e => if e.1 = k then (e.1, v) else e else d ++ [(k, v)]

/-- `dict(pairs)`: the last value of a key, in the place of its first. -/
def dictOf (pairs : List (κ × α)) : List (κ × α) := pairs.foldl (fun d e => setKey d e.1 e.2) []

end Dict

/-- A number, for `==` between ints, floats and bools. -/
inductive PyNum
  | finite (q : ℚ)
  | inf (neg : Bool)
deriving DecidableEq

def PyFloat.num : PyFloat → Option PyNum
  | .finite q => some (.finite q)
  | .inf neg => some (.inf neg)
  | .nan _ => Option.none

def PyKey.num : PyKey → Option PyNum
  | .int n => some (.finite n)
  | .float f _ => f.num
  | .bool b => some (.finite b.toNat)
  | _ => Option.none

def PyValue.num : PyValue → Option PyNum
  | .int n => some (.finite n)
  | .float f => f.num
  | .bool b => some (.finite b.toNat)
  | _ => Option.none

/-- Are the numbers there and equal? -/
def numEq (a b : Option PyNum) : Bool :=
  match a, b with
  | some x, some y => x == y
  | _, _ => false

/-- `a is b or a == b`, on keys. -/
def keyEq : PyKey → PyKey → Bool
  | .str a, .str b => a == b
  | .none, .none => true
  | .other i, .other j => i == j
  | .float (.nan i) _, .float (.nan j) _ => i == j
  | a, b => numEq a.num b.num

/-- `d.get(k)`, with `none` for a key that is not there. -/
def lookup (k : PyKey) : List (PyKey × PyValue) → Option PyValue
  | [] => Option.none
  | (k', v) :: rest => if keyEq k k' then some v else lookup k rest

/-- `a is b or a == b`, on what holds no values. -/
def atomEq : PyValue → PyValue → Bool
  | .none, .none => true
  | .str a, .str b => a == b
  | .other i, .other j => i == j
  | .float (.nan i), .float (.nan j) => i == j
  | a, b => numEq a.num b.num

mutual

/-- `a is b or a == b`, as containers compare what they hold. -/
def pyEq : PyValue → PyValue → Bool
  | .list xs, .list ys => pyEqList xs ys
  | .tuple xs, .tuple ys => pyEqList xs ys
  | .dict xs, .dict ys => xs.length == ys.length && pyEqItems xs ys
  | x, y => atomEq x y

def pyEqList : List PyValue → List PyValue → Bool
  | [], [] => true
  | x :: xs, y :: ys => pyEq x y && pyEqList xs ys
  | _, _ => false

/-- Is every item of the first dict in the second? -/
def pyEqItems : List (PyKey × PyValue) → List (PyKey × PyValue) → Bool
  | [], _ => true
  | (k, x) :: rest, ys =>
    (match lookup k ys with
      | some y => pyEq x y
      | Option.none => false) && pyEqItems rest ys

end

/-! ## `json.dumps` and `json.loads` -/

/-- `sys.get_int_max_str_digits()`. -/
def maxStrDigits : ℕ := 4300

/-- Does `str(n)` raise? -/
def tooLong (n : ℤ) : Bool := decide (maxStrDigits < (Nat.toDigits 10 n.natAbs).length)

def intText (n : ℤ) : Except JsonError PyStr := if tooLong n then .error .valueError else .ok (lit (toString n))

/-- The string a key is written as. -/
def keyText : PyKey → Except JsonError PyStr
  | .str s => .ok s
  | .int n => intText n
  | .float _ repr => .ok repr
  | .bool true => .ok (lit "true")
  | .bool false => .ok (lit "false")
  | .none => .ok (lit "null")
  | .other _ => .error .typeError

def encodeFloat : PyFloat → JsonFloat
  | .finite q => .finite q
  | .inf neg => .inf neg
  | .nan _ => .nan

def decodeFloat : JsonFloat → PyFloat
  | .finite q => .finite q
  | .inf neg => .inf neg
  | .nan => .nan 0

mutual

/-- `json.dumps`. -/
def encode : PyValue → Except JsonError Json
  | .none => .ok .null
  | .bool b => .ok (.bool b)
  | .int n => if tooLong n then .error .valueError else .ok (.int n)
  | .float f => .ok (.float (encodeFloat f))
  | .str s => .ok (.str (escape s))
  | .list xs => do return .arr (← encodeList xs)
  | .tuple xs => do return .arr (← encodeList xs)
  | .dict items => do return .obj (← encodeItems items)
  | .other _ => .error .typeError

def encodeList : List PyValue → Except JsonError (List Json)
  | [] => .ok []
  | x :: xs => do
    let j ← encode x
    let js ← encodeList xs
    return j :: js

def encodeItems : List (PyKey × PyValue) → Except JsonError (List (List Unit16 × Json))
  | [] => .ok []
  | (k, x) :: rest => do
    let text ← keyText k
    let j ← encode x
    let pairs ← encodeItems rest
    return (escape text, j) :: pairs

end

/-- A dict with string keys. -/
def strItems (pairs : List (PyStr × PyValue)) : List (PyKey × PyValue) := pairs.map fun e => (.str e.1, e.2)

mutual

/-- `json.loads`. -/
def decode : Json → PyValue
  | .null => .none
  | .bool b => .bool b
  | .int n => .int n
  | .float f => .float (decodeFloat f)
  | .str units => .str (unescape units)
  | .arr xs => .list (decodeList xs)
  | .obj pairs => .dict (strItems (dictOf (decodePairs pairs)))

def decodeList : List Json → List PyValue
  | [] => []
  | j :: js => decode j :: decodeList js

def decodePairs : List (List Unit16 × Json) → List (PyStr × PyValue)
  | [] => []
  | (units, j) :: rest => (unescape units, decode j) :: decodePairs rest

end

/-! ## Stable values -/

/-- A key that JSON gives back. -/
def stableKey : PyKey → Bool
  | .str s => whole s
  | _ => false

/-- A float that JSON gives back: of the NaNs only its own. -/
def stableFloat : PyFloat → Bool
  | .nan object => object == 0
  | _ => true

mutual

/-- Does the value survive JSON? No tuple, no key but a string, no split pair, no
NaN that JSON did not make. -/
def stable : PyValue → Bool
  | .none => true
  | .bool _ => true
  | .int _ => true
  | .float f => stableFloat f
  | .str s => whole s
  | .list xs => stableList xs
  | .tuple _ => false
  | .dict items => decide (items.map Prod.fst).Nodup && stableItems items
  | .other _ => false

def stableList : List PyValue → Bool
  | [] => true
  | x :: xs => stable x && stableList xs

def stableItems : List (PyKey × PyValue) → Bool
  | [] => true
  | (k, x) :: rest => stableKey k && stable x && stableItems rest

end

/-! ## Dicts hold each key once -/

section Dict
variable {κ α : Type} [DecidableEq κ] {d pairs : List (κ × α)} {k : κ} {v : α}

theorem map_fst_setKey (d : List (κ × α)) (k : κ) (v : α) :
    (setKey d k v).map Prod.fst = if k ∈ d.map Prod.fst then d.map Prod.fst else d.map Prod.fst ++ [k] := by
  unfold setKey
  split
  · rw [List.map_map]
    refine List.map_congr_left fun e _ => ?_
    simp only [Function.comp_apply]
    split
    · rfl
    · rfl
  · simp

theorem nodup_setKey (h : (d.map Prod.fst).Nodup) : ((setKey d k v).map Prod.fst).Nodup := by
  rw [map_fst_setKey]
  split
  · exact h
  · next hnew =>
    refine List.nodup_append.2 ⟨h, List.nodup_singleton k, fun a ha b hb hab => hnew ?_⟩
    rwa [hab, List.mem_singleton.1 hb] at ha

theorem mem_setKey {e : κ × α} (h : e ∈ setKey d k v) : e ∈ d ∨ e = (k, v) := by
  unfold setKey at h
  split at h
  · obtain ⟨e', he', rfl⟩ := List.mem_map.1 h
    split
    · next hk => exact .inr (by rw [hk])
    · exact .inl he'
  · simpa using h

/-- What holds of a dict built key by key. -/
theorem dictOf_induction {P : List (κ × α) → List (κ × α) → Prop} (hnil : P [] [])
    (hsnoc : ∀ pairs e, P pairs (dictOf pairs) → P (pairs ++ [e]) (setKey (dictOf pairs) e.1 e.2))
    (pairs : List (κ × α)) : P pairs (dictOf pairs) := by
  induction pairs using List.reverseRecOn with
  | nil => exact hnil
  | append_singleton pairs e ih =>
    have hstep : dictOf (pairs ++ [e]) = setKey (dictOf pairs) e.1 e.2 := by simp [dictOf]
    rw [hstep]
    exact hsnoc pairs e ih

theorem nodup_dictOf (pairs : List (κ × α)) : ((dictOf pairs).map Prod.fst).Nodup :=
  dictOf_induction (P := fun _ d => (d.map Prod.fst).Nodup) (by simp) (fun _ _ h => nodup_setKey h) pairs

theorem mem_of_mem_dictOf {e : κ × α} (pairs : List (κ × α)) : e ∈ dictOf pairs → e ∈ pairs := by
  refine dictOf_induction (P := fun pairs d => e ∈ d → e ∈ pairs) (by simp) (fun pairs e' ih h => ?_) pairs
  rcases mem_setKey h with h | rfl
  · exact List.mem_append_left _ (ih h)
  · simp

theorem mem_keys_dictOf (pairs : List (κ × α)) : ∀ k, k ∈ (dictOf pairs).map Prod.fst ↔ k ∈ pairs.map Prod.fst := by
  refine dictOf_induction (P := fun pairs d => ∀ k, k ∈ d.map Prod.fst ↔ k ∈ pairs.map Prod.fst) (by simp)
    (fun pairs e ih k => ?_) pairs
  rw [map_fst_setKey, List.map_append, List.mem_append]
  split
  · next hold =>
    have hknown := (ih e.1).1 hold
    rw [ih]
    refine ⟨.inl, fun h => h.elim id fun h => ?_⟩
    rw [List.mem_singleton.1 h]
    exact hknown
  · rw [List.mem_append, ih]
    rfl

theorem dictOf_of_nodup (pairs : List (κ × α)) : (pairs.map Prod.fst).Nodup → dictOf pairs = pairs := by
  refine dictOf_induction (P := fun pairs d => (pairs.map Prod.fst).Nodup → d = pairs) (fun _ => rfl)
    (fun pairs e ih h => ?_) pairs
  rw [List.map_append, List.nodup_append] at h
  have hnew : e.1 ∉ pairs.map Prod.fst := fun hmem => h.2.2 e.1 hmem e.1 (by simp) rfl
  rw [ih h.1, setKey, if_neg hnew]

/-- Only a list with every key once is as long as its dict. -/
theorem nodup_of_length_dictOf (h : (dictOf pairs).length = pairs.length) : (pairs.map Prod.fst).Nodup := by
  have hset : ((dictOf pairs).map Prod.fst).toFinset = (pairs.map Prod.fst).toFinset := by
    ext k
    simp only [List.mem_toFinset, mem_keys_dictOf]
  have hcard := congrArg Finset.card hset
  rw [List.toFinset_card_of_nodup (nodup_dictOf pairs), List.length_map, h, ← List.length_map (f := Prod.fst)] at hcard
  exact Multiset.toFinset_card_eq_card_iff_nodup.1 hcard.symm

/-- The one value of a key is what the dict has for it. -/
theorem find?_dictOf {k : κ} {v : α} (pairs : List (κ × α)) : (k, v) ∈ pairs → (∀ e ∈ pairs, e.1 = k → e.2 = v) →
    (dictOf pairs).find? (fun e => e.1 = k) = some (k, v) := by
  intro hmem huniq
  have hkey : k ∈ (dictOf pairs).map Prod.fst := (mem_keys_dictOf pairs k).2 (List.mem_map.2 ⟨_, hmem, rfl⟩)
  obtain ⟨e, he, rfl⟩ := List.mem_map.1 hkey
  cases hfind : (dictOf pairs).find? (fun e' => e'.1 = e.1) with
  | none => simpa using List.find?_eq_none.1 hfind e he
  | some e' =>
    have hk : e'.1 = e.1 := by simpa using List.find?_some hfind
    have hv := huniq e' (mem_of_mem_dictOf pairs (List.mem_of_find?_eq_some hfind)) hk
    rw [← hk, ← hv]

theorem setKey_append {d d' : List (κ × α)} (h : k ∉ d.map Prod.fst) : setKey (d ++ d') k v = d ++ setKey d' k v := by
  have hkeep : d.map (fun e => if e.1 = k then (e.1, v) else e) = d := by
    refine (List.map_congr_left fun e he => if_neg fun hk => h ?_).trans (List.map_id d)
    exact List.mem_map.2 ⟨e, he, hk⟩
  unfold setKey
  by_cases hd : k ∈ d'.map Prod.fst
  · have hmem : k ∈ (d ++ d').map Prod.fst := by
      rw [List.map_append]
      exact List.mem_append_right _ hd
    rw [if_pos hd, if_pos hmem, List.map_append, hkeep]
  · have hmem : k ∉ (d ++ d').map Prod.fst := by
      rw [List.map_append, List.mem_append]
      exact not_or.2 ⟨h, hd⟩
    rw [if_neg hd, if_neg hmem, List.append_assoc]

/-- `{**a, **b}`, for dicts without a common key. -/
theorem dictOf_append {a : List (κ × α)} (b : List (κ × α)) (h : ∀ k ∈ b.map Prod.fst, k ∉ a.map Prod.fst) :
    dictOf (a ++ b) = dictOf a ++ dictOf b := by
  induction b using List.reverseRecOn with
  | nil => simp [dictOf]
  | append_singleton b e ih =>
    rw [List.map_append, List.forall_mem_append] at h
    have hnew : e.1 ∉ (dictOf a).map Prod.fst := fun hmem => h.2 e.1 (by simp) ((mem_keys_dictOf a e.1).1 hmem)
    have hstep : ∀ l : List (κ × α), dictOf (l ++ [e]) = setKey (dictOf l) e.1 e.2 := fun l => by simp [dictOf]
    rw [← List.append_assoc, hstep, hstep, ih h.1, setKey_append hnew]

end Dict

/-! ## Comparing dicts -/

section Compare
variable {items xs ys : List (PyKey × PyValue)} {k : PyKey} {s : PyStr} {x y : PyValue}

theorem pyEqItems_iff : pyEqItems xs ys = true ↔ ∀ e ∈ xs, ∃ y, lookup e.1 ys = some y ∧ pyEq e.2 y = true := by
  induction xs with
  | nil => simp [pyEqItems]
  | cons e rest ih =>
    rw [pyEqItems, Bool.and_eq_true, ih, List.forall_mem_cons]
    refine and_congr_left fun _ => ?_
    cases lookup e.1 ys with
    | none => simp
    | some y => simp

theorem stableItems_iff : stableItems items = true ↔ ∀ e ∈ items, stableKey e.1 = true ∧ stable e.2 = true := by
  induction items with
  | nil => simp [stableItems]
  | cons e rest ih => rw [stableItems, Bool.and_eq_true, Bool.and_eq_true, ih, List.forall_mem_cons]

theorem keyEq_str : keyEq (.str s) k = true ↔ k = .str s := by
  cases k with
  | str t =>
    simp only [keyEq, beq_iff_eq, PyKey.str.injEq]
    exact eq_comm
  | _ => simp [keyEq, PyKey.num, numEq]

theorem mem_of_lookup_str (h : lookup (.str s) items = some x) : (PyKey.str s, x) ∈ items := by
  induction items with
  | nil => cases h
  | cons e rest ih =>
    rw [lookup] at h
    split at h
    · next hk =>
      obtain rfl := Option.some.inj h
      rw [← keyEq_str.1 hk]
      exact List.mem_cons_self
    · exact List.mem_cons_of_mem _ (ih h)

theorem lookup_str_of_mem (hnodup : (items.map Prod.fst).Nodup) (h : (PyKey.str s, x) ∈ items) :
    lookup (.str s) items = some x := by
  induction items with
  | nil => cases h
  | cons e rest ih =>
    rw [List.map_cons, List.nodup_cons] at hnodup
    rw [lookup]
    rcases List.mem_cons.1 h with rfl | h
    · rw [if_pos (keyEq_str.2 rfl)]
    · have hne : ¬ keyEq (.str s) e.1 = true := fun hk =>
        hnodup.1 (keyEq_str.1 hk ▸ List.mem_map.2 ⟨_, h, rfl⟩)
      rw [if_neg hne, ih hnodup.2 h]

end Compare

/-! ## One hop, compared with the value -/

/-- What an item of a dict becomes. -/
def ItemHop (d : PyStr × PyValue) (e : PyKey × PyValue) : Prop :=
  (∃ text, keyText e.1 = .ok text ∧ d.1 = merge text) ∧ pyEq d.2 e.2 = stable e.2

/-- An item whose key went through JSON, and whose value is equal to what stands in its
place exactly when it is `good`. -/
def ItemKept (good : PyValue → Bool) (d : PyStr × PyValue) (e : PyKey × PyValue) : Prop :=
  (∃ text, keyText e.1 = .ok text ∧ d.1 = merge text) ∧ pyEq d.2 e.2 = good e.2

section ItemHop
variable {good : PyValue → Bool} {D : List (PyStr × PyValue)} {items : List (PyKey × PyValue)}

/-- A stable key comes back. -/
theorem ItemKept.key_eq {d : PyStr × PyValue} {e : PyKey × PyValue} (h : ItemKept good d e) (hk : stableKey e.1 = true) :
    e.1 = .str d.1 := by
  obtain ⟨⟨text, htext, hd⟩, -⟩ := h
  cases hkey : e.1 with
  | str s =>
    rw [hkey] at htext hk
    obtain rfl := Except.ok.inj htext
    rw [hd, (merge_eq_iff s).2 hk]
  | _ => simp [hkey, stableKey] at hk

theorem keys_eq (h : List.Forall₂ (ItemKept good) D items) (hk : ∀ e ∈ items, stableKey e.1 = true) :
    items.map Prod.fst = D.map fun d => PyKey.str d.1 := by
  induction h with
  | nil => rfl
  | cons hde _ ih =>
    rw [List.forall_mem_cons] at hk
    rw [List.map_cons, List.map_cons, hde.key_eq hk.1, ih hk.2]

theorem nodup_of_stableKeys (h : List.Forall₂ (ItemKept good) D items) (hkeys : (items.map Prod.fst).Nodup)
    (hstable : ∀ e ∈ items, stableKey e.1 = true) : (D.map Prod.fst).Nodup := by
  refine List.Nodup.of_map PyKey.str ?_
  rw [keys_eq h hstable] at hkeys
  rwa [List.map_map]

/-- A dict that is equal to what comes back has distinct keys that are strings, all
of which come back. -/
theorem good_of_pyEqItems (h : List.Forall₂ (ItemKept good) D items) (hnodup : (D.map Prod.fst).Nodup)
    (hall : ∀ e ∈ strItems D, ∃ y, lookup e.1 items = some y ∧ pyEq e.2 y = true) :
    (items.map Prod.fst).Nodup ∧ ∀ e ∈ items, stableKey e.1 = true ∧ good e.2 = true := by
  have hfound : ∀ d ∈ D, ∃ y, (PyKey.str d.1, y) ∈ items ∧ pyEq d.2 y = true := by
    intro d hd
    obtain ⟨y, hy, heq⟩ := hall (.str d.1, d.2) (List.mem_map.2 ⟨d, hd, rfl⟩)
    exact ⟨y, mem_of_lookup_str hy, heq⟩
  have hstr : (D.map fun d => PyKey.str d.1).Nodup := by
    have hmap := hnodup.map (f := PyKey.str) fun _ _ => PyKey.str.inj
    rwa [List.map_map] at hmap
  have hperm : (D.map fun d => PyKey.str d.1).Perm (items.map Prod.fst) := by
    refine (List.subperm_of_subset hstr fun k hk => ?_).perm_of_length_le (by simp [h.length_eq])
    obtain ⟨d, hd, rfl⟩ := List.mem_map.1 hk
    obtain ⟨y, hy, -⟩ := hfound d hd
    exact List.mem_map.2 ⟨_, hy, rfl⟩
  have hkeys : (items.map Prod.fst).Nodup := hperm.nodup_iff.1 hstr
  have hstable : ∀ e ∈ items, stableKey e.1 = true := by
    intro e he
    obtain ⟨d, hd, hkey⟩ := List.mem_map.1 (hperm.mem_iff.2 (List.mem_map.2 ⟨e, he, rfl⟩))
    obtain ⟨-, -, ⟨text, -, htext⟩, -⟩ := forall₂_exists h d hd
    rw [← hkey, stableKey, htext]
    exact whole_merge text
  refine ⟨hkeys, fun e he => ⟨hstable e he, ?_⟩⟩
  obtain ⟨d, hd, hhop⟩ := forall₂_exists h.flip e he
  obtain ⟨y, hy, heq⟩ := hfound d hd
  have hkey := ItemKept.key_eq hhop (hstable e he)
  have hvalue : y = e.2 := by
    have hmem : (PyKey.str d.1, e.2) ∈ items := by
      rw [← hkey]
      exact he
    exact Option.some.inj ((lookup_str_of_mem hkeys hy).symm.trans (lookup_str_of_mem hkeys hmem))
  rw [← hhop.2, ← hvalue]
  exact heq

theorem pyEqItems_of_good (h : List.Forall₂ (ItemKept good) D items) (hkeys : (items.map Prod.fst).Nodup)
    (hgood : ∀ e ∈ items, stableKey e.1 = true ∧ good e.2 = true) :
    ∀ e ∈ strItems D, ∃ y, lookup e.1 items = some y ∧ pyEq e.2 y = true := by
  intro e' he'
  obtain ⟨d, hd, rfl⟩ := List.mem_map.1 he'
  obtain ⟨e, he, hhop⟩ := forall₂_exists h d hd
  have hmem : (PyKey.str d.1, e.2) ∈ items := by
    rw [← hhop.key_eq (hgood e he).1]
    exact he
  exact ⟨e.2, lookup_str_of_mem hkeys hmem, hhop.2.trans (hgood e he).2⟩

/-- A dict in whose place each key stands once is equal to it exactly when its keys are
distinct and stable and its values good. -/
theorem pyEq_kept (h : List.Forall₂ (ItemKept good) D items) (hD : (D.map Prod.fst).Nodup) :
    pyEq (.dict (strItems D)) (.dict items) = true ↔
      (items.map Prod.fst).Nodup ∧ ∀ e ∈ items, stableKey e.1 = true ∧ good e.2 = true := by
  have hlen : (strItems D).length = items.length := (List.length_map _).trans h.length_eq
  rw [pyEq, Bool.and_eq_true, beq_iff_eq, pyEqItems_iff]
  constructor
  · rintro ⟨-, hall⟩
    exact good_of_pyEqItems h hD hall
  · rintro ⟨hkeys, hgood⟩
    exact ⟨hlen, pyEqItems_of_good h hkeys hgood⟩

/-- Only a dict of distinct keys is equal to what its items leave. -/
theorem nodup_of_pyEq_dictOf {D' : List (PyStr × PyValue)} (hitems : D.length = items.length)
    (hlen : D'.length = (dictOf D).length) (heq : pyEq (.dict (strItems D')) (.dict items) = true) : (D.map Prod.fst).Nodup := by
  rw [pyEq, Bool.and_eq_true, beq_iff_eq, strItems, List.length_map, hlen, ← hitems] at heq
  exact nodup_of_length_dictOf heq.1

theorem pyEq_dict (h : List.Forall₂ ItemHop D items) :
    pyEq (.dict (strItems (dictOf D))) (.dict items) = stable (.dict items) := by
  have hkept : List.Forall₂ (ItemKept stable) D items := h
  rw [Bool.eq_iff_iff, stable, Bool.and_eq_true, decide_eq_true_eq, stableItems_iff]
  constructor
  · intro heq
    have hD := nodup_of_pyEq_dictOf h.length_eq rfl heq
    rw [dictOf_of_nodup D hD] at heq
    exact (pyEq_kept hkept hD).1 heq
  · rintro ⟨hkeys, hstable⟩
    have hD := nodup_of_stableKeys hkept hkeys fun e he => (hstable e he).1
    rw [dictOf_of_nodup D hD]
    exact (pyEq_kept hkept hD).2 ⟨hkeys, hstable⟩

end ItemHop

mutual

/-- A value is equal to what JSON gives back exactly when it is stable. -/
theorem pyEq_decode : ∀ (v : PyValue) (doc : Json), encode v = .ok doc → pyEq (decode doc) v = stable v
  | .none, doc, h => by
    obtain rfl := Except.ok.inj h
    rfl
  | .bool b, doc, h => by
    obtain rfl := Except.ok.inj h
    simp [decode, pyEq, atomEq, numEq, PyValue.num, stable]
  | .int n, doc, h => by
    rw [encode] at h
    split at h
    · cases h
    · obtain rfl := Except.ok.inj h
      simp [decode, pyEq, atomEq, numEq, PyValue.num, stable]
  | .float f, doc, h => by
    obtain rfl := Except.ok.inj h
    cases f with
    | nan object =>
      simp only [decode, decodeFloat, encodeFloat, pyEq, atomEq, stable, stableFloat]
      exact Bool.beq_comm
    | _ => simp [decode, decodeFloat, encodeFloat, pyEq, atomEq, numEq, PyValue.num, PyFloat.num, stable, stableFloat]
  | .str s, doc, h => by
    obtain rfl := Except.ok.inj h
    simp only [decode, unescape_escape, pyEq, atomEq, stable]
    rw [Bool.eq_iff_iff, beq_iff_eq, merge_eq_iff]
  | .list xs, doc, h => by
    obtain ⟨docs, hdocs, hdoc⟩ := bind_eq_ok.1 h
    obtain rfl := Except.ok.inj hdoc
    exact pyEq_decodeList xs docs hdocs
  | .tuple xs, doc, h => by
    obtain ⟨docs, hdocs, hdoc⟩ := bind_eq_ok.1 h
    obtain rfl := Except.ok.inj hdoc
    rfl
  | .dict items, doc, h => by
    obtain ⟨pairs, hpairs, hdoc⟩ := bind_eq_ok.1 h
    obtain rfl := Except.ok.inj hdoc
    exact pyEq_dict (itemHop_decodePairs items pairs hpairs)
  | .other _, doc, h => by cases h

theorem pyEq_decodeList : ∀ (xs : List PyValue) (docs : List Json), encodeList xs = .ok docs →
    pyEqList (decodeList docs) xs = stableList xs
  | [], docs, h => by
    obtain rfl := Except.ok.inj h
    rfl
  | x :: xs, docs, h => by
    simp only [encodeList, bind_eq_ok] at h
    obtain ⟨j, hj, js, hjs, hdocs⟩ := h
    obtain rfl := Except.ok.inj hdocs
    rw [decodeList, pyEqList, stableList, pyEq_decode x j hj, pyEq_decodeList xs js hjs]

theorem itemHop_decodePairs : ∀ (items : List (PyKey × PyValue)) (pairs : List (List Unit16 × Json)),
    encodeItems items = .ok pairs → List.Forall₂ ItemHop (decodePairs pairs) items
  | [], pairs, h => by
    obtain rfl := Except.ok.inj h
    exact .nil
  | (k, x) :: rest, pairs, h => by
    simp only [encodeItems, bind_eq_ok] at h
    obtain ⟨text, htext, j, hj, tail, htail, hpairs⟩ := h
    obtain rfl := Except.ok.inj hpairs
    exact .cons ⟨⟨text, htext, unescape_escape text⟩, pyEq_decode x j hj⟩ (itemHop_decodePairs rest tail htail)

end

/-! ## A second hop changes nothing -/

/-- `json.loads(json.dumps(v))`. -/
def hop (v : PyValue) : Except JsonError PyValue := (encode v).map decode

theorem hop_eq_ok {v w : PyValue} : hop v = .ok w ↔ ∃ doc, encode v = .ok doc ∧ decode doc = w := by
  unfold hop
  cases encode v with
  | error e => simp [Except.map]
  | ok doc => simp [Except.map]

/-- What an item of a dict turns into. -/
def ItemThrough (d : PyStr × PyValue) (e : PyKey × PyValue) : Prop :=
  (∃ text, keyText e.1 = .ok text ∧ d.1 = merge text) ∧ hop e.2 = .ok d.2

theorem itemThrough_decodePairs {items : List (PyKey × PyValue)} {pairs : List (List Unit16 × Json)}
    (h : encodeItems items = .ok pairs) : List.Forall₂ ItemThrough (decodePairs pairs) items := by
  induction items generalizing pairs with
  | nil =>
    obtain rfl := Except.ok.inj h
    exact .nil
  | cons e rest ih =>
    simp only [encodeItems, bind_eq_ok] at h
    obtain ⟨text, htext, j, hj, tail, htail, hpairs⟩ := h
    obtain rfl := Except.ok.inj hpairs
    exact .cons ⟨⟨text, htext, unescape_escape text⟩, hop_eq_ok.2 ⟨j, hj, rfl⟩⟩ (ih htail)

/-- A dict comes back as a dict of its items. -/
theorem hop_dict_eq_ok {items : List (PyKey × PyValue)} {w : PyValue} (h : hop (.dict items) = .ok w) :
    ∃ D, List.Forall₂ ItemThrough D items ∧ w = .dict (strItems (dictOf D)) := by
  obtain ⟨doc, hdoc, rfl⟩ := hop_eq_ok.1 h
  obtain ⟨pairs, hpairs, hret⟩ := bind_eq_ok.1 hdoc
  obtain rfl := Except.ok.inj hret
  exact ⟨_, itemThrough_decodePairs hpairs, rfl⟩

/-- The kinds of values that JSON tells apart. -/
inductive Kind
  | none
  | bool
  | int
  | float
  | str
  | list
  | dict
  | other
deriving DecidableEq

def PyValue.kind : PyValue → Kind
  | .none => .none
  | .bool _ => .bool
  | .int _ => .int
  | .float _ => .float
  | .str _ => .str
  | .list _ => .list
  | .tuple _ => .list
  | .dict _ => .dict
  | .other _ => .other

theorem hop_int {n : ℤ} {w : PyValue} (h : hop (.int n) = .ok w) : w = .int n := by
  obtain ⟨doc, hdoc, rfl⟩ := hop_eq_ok.1 h
  rw [encode] at hdoc
  split at hdoc
  · cases hdoc
  · obtain rfl := Except.ok.inj hdoc
    rfl

theorem hop_float {f : PyFloat} {w : PyValue} (h : hop (.float f) = .ok w) : w = .float (decodeFloat (encodeFloat f)) := by
  obtain ⟨doc, hdoc, rfl⟩ := hop_eq_ok.1 h
  obtain rfl := Except.ok.inj hdoc
  rfl

/-- JSON keeps the kind of a value. -/
theorem hop_kind {v w : PyValue} (h : hop v = .ok w) : w.kind = v.kind := by
  obtain ⟨doc, hdoc, rfl⟩ := hop_eq_ok.1 h
  cases v with
  | int n => rw [hop_int h]
  | list xs =>
    obtain ⟨docs, -, hret⟩ := bind_eq_ok.1 hdoc
    obtain rfl := Except.ok.inj hret
    rfl
  | tuple xs =>
    obtain ⟨docs, -, hret⟩ := bind_eq_ok.1 hdoc
    obtain rfl := Except.ok.inj hret
    rfl
  | dict items =>
    obtain ⟨pairs, -, hret⟩ := bind_eq_ok.1 hdoc
    obtain rfl := Except.ok.inj hret
    rfl
  | other object => cases hdoc
  | _ =>
    obtain rfl := Except.ok.inj hdoc
    rfl

/-- A value is equal to what it turns into exactly when it is stable. -/
theorem pyEq_hop {v w : PyValue} (h : hop v = .ok w) : pyEq w v = stable v := by
  obtain ⟨doc, hdoc, rfl⟩ := hop_eq_ok.1 h
  exact pyEq_decode v doc hdoc

theorem ItemThrough.kept {d : PyStr × PyValue} {e : PyKey × PyValue} (h : ItemThrough d e) : ItemKept stable d e :=
  ⟨h.1, pyEq_hop h.2⟩

/-- What came from JSON: items with merged keys and settled values. -/
def Settled (pairs : List (PyStr × PyValue)) : Prop := ∀ d ∈ pairs, merge d.1 = d.1 ∧ hop d.2 = .ok d.2

theorem encode_strItems {pairs : List (PyStr × PyValue)} (h : Settled pairs) :
    ∃ docs, encodeItems (strItems pairs) = .ok docs ∧ decodePairs docs = pairs := by
  induction pairs with
  | nil => exact ⟨[], rfl, rfl⟩
  | cons d rest ih =>
    obtain ⟨⟨hkey, hvalue⟩, hrest⟩ := List.forall_mem_cons.1 h
    obtain ⟨doc, hdoc, hback⟩ := hop_eq_ok.1 hvalue
    obtain ⟨docs, hdocs, hpairs⟩ := ih hrest
    refine ⟨(escape d.1, doc) :: docs, ?_, ?_⟩
    · change encodeItems ((.str d.1, d.2) :: strItems rest) = _
      simp only [encodeItems, keyText, hdoc, hdocs, bind, Except.bind]
      rfl
    · rw [decodePairs, unescape_escape, hkey, hback, hpairs]

/-- A settled dict is its own hop. -/
theorem hop_dict {pairs : List (PyStr × PyValue)} (h : Settled pairs) (hkeys : (pairs.map Prod.fst).Nodup) :
    hop (.dict (strItems pairs)) = .ok (.dict (strItems pairs)) := by
  obtain ⟨docs, hdocs, hpairs⟩ := encode_strItems h
  refine hop_eq_ok.2 ⟨.obj docs, ?_, ?_⟩
  · simp only [encode, hdocs, bind, Except.bind]
    rfl
  · rw [decode, hpairs, dictOf_of_nodup pairs hkeys]

theorem hop_list {docs : List Json}
    (h : ∃ docs', encodeList (decodeList docs) = .ok docs' ∧ decodeList docs' = decodeList docs) :
    hop (.list (decodeList docs)) = .ok (.list (decodeList docs)) := by
  obtain ⟨docs', hdocs, hback⟩ := h
  refine hop_eq_ok.2 ⟨.arr docs', ?_, by rw [decode, hback]⟩
  simp only [encode, hdocs, bind, Except.bind]
  rfl

mutual

theorem hop_decode : ∀ (v : PyValue) (doc : Json), encode v = .ok doc → hop (decode doc) = .ok (decode doc)
  | .none, doc, h => by
    obtain rfl := Except.ok.inj h
    rfl
  | .bool b, doc, h => by
    obtain rfl := Except.ok.inj h
    rfl
  | .int n, doc, h => by
    rw [encode] at h
    split at h
    · cases h
    · next hshort =>
      obtain rfl := Except.ok.inj h
      exact hop_eq_ok.2 ⟨.int n, if_neg hshort, rfl⟩
  | .float f, doc, h => by
    obtain rfl := Except.ok.inj h
    cases f with
    | _ => rfl
  | .str s, doc, h => by
    obtain rfl := Except.ok.inj h
    refine hop_eq_ok.2 ⟨_, rfl, ?_⟩
    rw [decode, decode, unescape_escape, unescape_escape, merge_merge]
  | .list xs, doc, h => by
    obtain ⟨docs, hdocs, hdoc⟩ := bind_eq_ok.1 h
    obtain rfl := Except.ok.inj hdoc
    exact hop_list (hop_decodeList xs docs hdocs)
  | .tuple xs, doc, h => by
    obtain ⟨docs, hdocs, hdoc⟩ := bind_eq_ok.1 h
    obtain rfl := Except.ok.inj hdoc
    exact hop_list (hop_decodeList xs docs hdocs)
  | .dict items, doc, h => by
    obtain ⟨pairs, hpairs, hdoc⟩ := bind_eq_ok.1 h
    obtain rfl := Except.ok.inj hdoc
    have hsettled := settled_decodePairs items pairs hpairs
    exact hop_dict (fun d hd => hsettled d (mem_of_mem_dictOf _ hd)) (nodup_dictOf _)
  | .other _, doc, h => by cases h

theorem hop_decodeList : ∀ (xs : List PyValue) (docs : List Json), encodeList xs = .ok docs →
    ∃ docs', encodeList (decodeList docs) = .ok docs' ∧ decodeList docs' = decodeList docs
  | [], docs, h => by
    obtain rfl := Except.ok.inj h
    exact ⟨[], rfl, rfl⟩
  | x :: xs, docs, h => by
    simp only [encodeList, bind_eq_ok] at h
    obtain ⟨j, hj, js, hjs, hdocs⟩ := h
    obtain rfl := Except.ok.inj hdocs
    obtain ⟨j', hj', hback⟩ := hop_eq_ok.1 (hop_decode x j hj)
    obtain ⟨js', hjs', hbacks⟩ := hop_decodeList xs js hjs
    refine ⟨j' :: js', ?_, by rw [decodeList, decodeList, hback, hbacks]⟩
    simp only [decodeList, encodeList, hj', hjs', bind, Except.bind]
    rfl

theorem settled_decodePairs : ∀ (items : List (PyKey × PyValue)) (pairs : List (List Unit16 × Json)),
    encodeItems items = .ok pairs → Settled (decodePairs pairs)
  | [], pairs, h => by
    obtain rfl := Except.ok.inj h
    exact fun d hd => by cases hd
  | (k, x) :: rest, pairs, h => by
    simp only [encodeItems, bind_eq_ok] at h
    obtain ⟨text, htext, j, hj, tail, htail, hpairs⟩ := h
    obtain rfl := Except.ok.inj hpairs
    refine List.forall_mem_cons.2 ⟨⟨?_, hop_decode x j hj⟩, settled_decodePairs rest tail htail⟩
    rw [unescape_escape, merge_merge]

end

/-! ## Dicts with string keys -/

/-- Item by item, what JSON gives back. -/
def ItemsHop (xs ys : List (PyStr × PyValue)) : Prop :=
  List.Forall₂ (fun x y => y.1 = merge x.1 ∧ hop x.2 = .ok y.2) xs ys

section ItemsHop
variable {xs ys ys' : List (PyStr × PyValue)} {k : PyStr} {v w : PyValue}

theorem itemsHop_decodePairs {docs : List (List Unit16 × Json)} (h : encodeItems (strItems xs) = .ok docs) :
    ItemsHop xs (decodePairs docs) := by
  induction xs generalizing docs with
  | nil =>
    obtain rfl := Except.ok.inj h
    exact .nil
  | cons x xs ih =>
    change encodeItems ((.str x.1, x.2) :: strItems xs) = _ at h
    simp only [encodeItems, bind_eq_ok] at h
    obtain ⟨text, htext, j, hj, tail, htail, hdocs⟩ := h
    obtain rfl := Except.ok.inj htext
    obtain rfl := Except.ok.inj hdocs
    exact .cons ⟨unescape_escape x.1, hop_eq_ok.2 ⟨j, hj, rfl⟩⟩ (ih htail)

theorem hop_strItems (h : hop (.dict (strItems xs)) = .ok w) :
    ∃ ys, ItemsHop xs ys ∧ Settled ys ∧ w = .dict (strItems (dictOf ys)) := by
  obtain ⟨doc, hdoc, rfl⟩ := hop_eq_ok.1 h
  obtain ⟨docs, hdocs, hret⟩ := bind_eq_ok.1 hdoc
  obtain rfl := Except.ok.inj hret
  exact ⟨_, itemsHop_decodePairs hdocs, settled_decodePairs _ _ hdocs, rfl⟩

theorem ItemsHop.unique (h : ItemsHop xs ys) (h' : ItemsHop xs ys') : ys = ys' := by
  induction h generalizing ys' with
  | nil =>
    cases h'
    rfl
  | cons hxy _ ih =>
    cases h' with
    | cons hxy' hrest =>
      rw [ih hrest, Prod.ext (hxy.1.trans hxy'.1.symm) (Except.ok.inj (hxy.2.symm.trans hxy'.2))]

/-- Settled items are their own hop. -/
theorem Settled.itemsHop (h : Settled xs) : ItemsHop xs xs :=
  List.forall₂_same.2 fun x hx => ⟨(h x hx).1.symm, (h x hx).2⟩

theorem itemsHop_append {xs' : List (PyStr × PyValue)} (h : ItemsHop xs ys) (h' : ItemsHop xs' ys') :
    ItemsHop (xs ++ xs') (ys ++ ys') := List.rel_append h h'

/-- What comes back is equal to the dict exactly when it is stable. -/
theorem ItemsHop.pyEq (h : ItemsHop xs ys) :
    pyEq (.dict (strItems (dictOf ys))) (.dict (strItems xs)) = stable (.dict (strItems xs)) := by
  refine pyEq_dict ?_
  induction h with
  | nil => exact .nil
  | cons hxy _ ih => exact .cons ⟨⟨_, rfl, hxy.1⟩, pyEq_hop hxy.2⟩ ih

theorem lookup_strItems (d : List (PyStr × PyValue)) :
    lookup (.str k) (strItems d) = (d.find? fun e => e.1 = k).map Prod.snd := by
  induction d with
  | nil => rfl
  | cons e d ih =>
    change (if keyEq (.str k) (.str e.1) = true then some e.2 else lookup (.str k) (strItems d)) = _
    by_cases hk : e.1 = k
    · simp [keyEq, hk]
    · have hne : ¬ k = e.1 := fun h => hk h.symm
      simp [keyEq, hk, hne, ih]

/-- A plain key that is there once comes back with its value. -/
theorem lookup_hop (hk : plain k = true) (hmem : (k, v) ∈ xs) (huniq : ∀ x ∈ xs, x.1 = k → x.2 = v)
    (h : hop (.dict (strItems xs)) = .ok w) :
    ∃ data u, w = .dict data ∧ hop v = .ok u ∧ lookup (.str k) data = some u := by
  obtain ⟨ys, hys, -, rfl⟩ := hop_strItems h
  obtain ⟨y, hy, hkey, hvalue⟩ := forall₂_exists hys _ hmem
  rw [merge_of_plain hk] at hkey
  refine ⟨_, y.2, rfl, hvalue, ?_⟩
  have honly : ∀ e ∈ ys, e.1 = k → e.2 = y.2 := by
    intro e he hek
    obtain ⟨x, hx, hxe⟩ := forall₂_exists hys.flip e he
    have hx₁ : merge x.1 = k := hxe.1.symm.trans hek
    have hself : merge x.1 = x.1 := merge_eq_self_of_plain (by rw [hx₁]; exact hk)
    have hx₂ := huniq x hx (hself.symm.trans hx₁)
    have hsame := hxe.2
    rw [hx₂, hvalue] at hsame
    exact (Except.ok.inj hsame).symm
  rw [lookup_strItems, find?_dictOf ys (by rw [← hkey]; exact hy) honly]
  rfl

/-- Every field of a record comes back. -/
theorem fields_hop {doc : Json} (hplain : ∀ k ∈ xs.map Prod.fst, plain k = true) (hnodup : (xs.map Prod.fst).Nodup)
    (h : encode (.dict (strItems xs)) = .ok doc) : ∃ data, decode doc = .dict data ∧
      ∀ k v, (k, v) ∈ xs → ∃ u, hop v = .ok u ∧ lookup (.str k) data = some u := by
  obtain ⟨ys, -, -, hdoc⟩ := hop_strItems (hop_eq_ok.2 ⟨doc, h, rfl⟩)
  refine ⟨_, hdoc, fun k v hmem => ?_⟩
  obtain ⟨data, u, hdata, hu, hlookup⟩ := lookup_hop (hplain k (List.mem_map.2 ⟨(k, v), hmem, rfl⟩)) hmem
    (fun x hx hxk => congrArg Prod.snd (List.inj_on_of_nodup_map hnodup hx hmem hxk)) (hop_eq_ok.2 ⟨doc, h, rfl⟩)
  obtain rfl := PyValue.dict.inj (hdoc.symm.trans hdata)
  exact ⟨u, hu, hlookup⟩

end ItemsHop

end PyJson
