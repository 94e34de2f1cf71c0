import MlxTrainPerf.Lib.PyJson
/-!
# JSON text

`bytes.decode("utf-8")` and `json.loads` on text: which document a text spells, or what
the reader raises. The scanner goes from left to right, so of several faults it is the
first that counts. `limit` is how many containers may be nested before `RecursionError`.
-/
open PyStr

namespace PyJson

/-! ## Bytes -/

abbrev Byte : Type := Fin 0x100

instance byte_neZero : NeZero 0x100 := ⟨by decide⟩

/-- The bytes of an ASCII text. -/
def asciiBytes (s : String) : List Byte := s.toList.map fun c => Fin.ofNat _ c.toNat

/-- A character's first byte: how many bytes follow, the range of the next one, and the
bits it gives. -/
def leadByte (b : ℕ) : Option (ℕ × ℕ × ℕ × ℕ) :=
  if b < 0x80 then some (0, 0, 0, b)
  else if b < 0xC2 then none
  else if b < 0xE0 then some (1, 0x80, 0xBF, b - 0xC0)
  else if b < 0xF0 then
    -- no overlong form, and no surrogate
    some (2, if b = 0xE0 then 0xA0 else 0x80, if b = 0xED then 0x9F else 0xBF, b - 0xE0)
  else if b < 0xF5 then some (3, if b = 0xF0 then 0x90 else 0x80, if b = 0xF4 then 0x8F else 0xBF, b - 0xF0)
  else none

/-- The text of the bytes, with `owed` bytes of a character still to come, the next one
between `lo` and `hi`. -/
def utf8From (owed lo hi acc : ℕ) : List Byte → Option PyStr
  | [] => if owed = 0 then some [] else none
  | b :: bytes =>
    if owed = 0 then
      match leadByte b.val with
      | none => none
      | some (0, _, _, v) => (utf8From 0 0 0 0 bytes).map (Fin.ofNat _ v :: ·)
      | some (k, lo, hi, v) => utf8From k lo hi v bytes
    else if lo ≤ b.val ∧ b.val ≤ hi then
      let acc := acc * 64 + (b.val - 0x80)
      if owed = 1 then (utf8From 0 0 0 0 bytes).map (Fin.ofNat _ acc :: ·)
      else utf8From (owed - 1) 0x80 0xBF acc bytes
    else none

/-- `bytes.decode("utf-8")`; `none` is `UnicodeDecodeError`. -/
def utf8Decode (bytes : List Byte) : Option PyStr := utf8From 0 0 0 0 bytes

/-- The newlines of text mode. -/
def universalNewlines : PyStr → PyStr
  | [] => []
  | c :: rest =>
    if c.val = 13 then
      match rest with
      | [] => [10]
      | d :: rest' => if d.val = 10 then 10 :: universalNewlines rest' else 10 :: universalNewlines (d :: rest')
    else c :: universalNewlines rest

/-- `Path.read_text`, in UTF-8. -/
def readText (bytes : List Byte) : Option PyStr := (utf8Decode bytes).map universalNewlines

/-! ## Floats -/

/-- To the nearest integer, ties to even. -/
def roundHalfEven (q : ℚ) : ℤ :=
  if q - ⌊q⌋ < 1 / 2 ∨ q - ⌊q⌋ = 1 / 2 ∧ ⌊q⌋ % 2 = 0 then ⌊q⌋ else ⌊q⌋ + 1

/-- The double nearest to `q`: 53 bits above `2 ^ (-1074)`, infinite from `2 ^ 1024` on. -/
def roundDouble (q : ℚ) : PyFloat :=
  let ulp : ℚ := 2 ^ (max (Int.log 2 |q|) (-1022) - 52)
  let r := roundHalfEven (q / ulp) * ulp
  if |r| < 2 ^ 1024 then .finite r else .inf (decide (q < 0))

/-- `a / b`, for `b` not zero. -/
def floatDiv : PyFloat → PyFloat → PyFloat
  | .nan i, _ => .nan i
  | _, .nan i => .nan i
  | .finite a, .finite b => roundDouble (a / b)
  | .finite _, .inf _ => .finite 0
  | .inf neg, .finite b => .inf (neg != decide (b < 0))
  | .inf _, .inf _ => .nan 0

/-- `a <= b`; nothing is below or above a NaN. -/
def numLe : Option PyNum → Option PyNum → Bool
  | some (.finite a), some (.finite b) => decide (a ≤ b)
  | some (.inf true), some _ => true
  | some _, some (.inf false) => true
  | _, _ => false

/-! ## Leaves -/

/-- `JSONDecodeError`, the `ValueError` of an int of too many digits, and `RecursionError`. -/
inductive LoadError
  | syntaxError
  | digits
  | recursion
deriving DecidableEq, Repr

def skipWs (s : PyStr) : PyStr := s.dropWhile fun c => c.val == 32 || c.val == 9 || c.val == 10 || c.val == 13

def isDigit (c : CodePoint) : Bool := decide (48 ≤ c.val ∧ c.val ≤ 57)

/-- The value of a run of digits. -/
def numeral (ds : PyStr) : ℕ := ds.foldl (fun n c => 10 * n + (c.val - 48)) 0

def hexDigit (c : CodePoint) : Option ℕ :=
  if isDigit c then some (c.val - 48)
  else if 65 ≤ c.val ∧ c.val ≤ 70 then some (c.val - 55)
  else if 97 ≤ c.val ∧ c.val ≤ 102 then some (c.val - 87)
  else none

/-- `\uXXXX`, after the `u`. -/
def hexUnit (a b c d : CodePoint) : Option Unit16 := do
  let a ← hexDigit a
  let b ← hexDigit b
  let c ← hexDigit c
  let d ← hexDigit d
  return Fin.ofNat _ (((a * 16 + b) * 16 + c) * 16 + d)

/-- The other escapes. -/
def simpleEscape (c : CodePoint) : Option Unit16 :=
  ([(34, 34), (92, 92), (47, 47), (98, 8), (102, 12), (110, 10), (114, 13), (116, 9)] : List (ℕ × ℕ)).findSome? fun e =>
    if c.val = e.1 then some (Fin.ofNat _ e.2) else none

/-- A string after its opening quote, and what follows it. -/
def scanString : PyStr → Except LoadError (List Unit16 × PyStr)
  | [] => .error .syntaxError
  | c :: rest =>
    if c.val = 34 then .ok ([], rest)
    else if c.val = 92 then
      match rest with
      | [] => .error .syntaxError
      | e :: rest =>
        if e.val = 117 then
          match rest with
          | w :: x :: y :: z :: rest =>
            match hexUnit w x y z with
            | some u => (scanString rest).map fun r => (u :: r.1, r.2)
            | none => .error .syntaxError
          | _ => .error .syntaxError
        else
          match simpleEscape e with
          | some u => (scanString rest).map fun r => (u :: r.1, r.2)
          | none => .error .syntaxError
    else if c.val < 32 then .error .syntaxError
    else (scanString rest).map fun r => (escapeChar c ++ r.1, r.2)

/-- `0`, or digits that do not start with it. -/
def intPart : PyStr → Option (PyStr × PyStr)
  | [] => none
  | c :: rest =>
    if c.val = 48 then some ([c], rest)
    else if isDigit c then some ((c :: rest).span isDigit)
    else none

/-- The digits after a point, if both are there. -/
def fracPart : PyStr → PyStr × PyStr
  | [] => ([], [])
  | c :: rest => if c.val = 46 ∧ (rest.takeWhile isDigit) ≠ [] then rest.span isDigit else ([], c :: rest)

/-- An exponent, if it has digits. -/
def expPart : PyStr → Option ℤ × PyStr
  | [] => (none, [])
  | c :: rest =>
    if c.val = 101 ∨ c.val = 69 then
      let neg := (rest.head?.map Fin.val) == some 45
      let signed := neg || (rest.head?.map Fin.val) == some 43
      let r := (if signed then rest.tail else rest).span isDigit
      if r.1 = [] then (none, c :: rest) else (some (if neg then -(numeral r.1 : ℤ) else numeral r.1), r.2)
    else (none, c :: rest)

/-- A number, and what follows it. -/
def scanNumber (s : PyStr) : Except LoadError (Json × PyStr) :=
  let neg := (s.head?.map Fin.val) == some 45
  match intPart (if neg then s.tail else s) with
  | none => .error .syntaxError
  | some (int, s) =>
    let (frac, s) := fracPart s
    let (exp, s) := expPart s
    if frac = [] ∧ exp = none then
      if maxStrDigits < int.length then .error .digits
      else .ok (.int (if neg then -(numeral int : ℤ) else numeral int), s)
    else
      let q : ℚ := numeral (int ++ frac) * 10 ^ (exp.getD 0 - frac.length)
      .ok (.float (encodeFloat (roundDouble (if neg then -q else q))), s)

/-- The words `json.loads` knows. -/
def constants : List (PyStr × Json) :=
  [(lit "null", .null), (lit "true", .bool true), (lit "false", .bool false), (lit "NaN", .float .nan),
    (lit "Infinity", .float (.inf false)), (lit "-Infinity", .float (.inf true))]

def scanConstant (s : PyStr) : Option (Json × PyStr) :=
  constants.findSome? fun e => if e.1.isPrefixOf s then some (e.2, s.drop e.1.length) else none

/-! ## Containers -/

section Containers
variable (item : PyStr → Except LoadError (Json × PyStr))

/-- The elements of an array up to its bracket, in at most `fuel` turns. -/
def elements : ℕ → PyStr → Except LoadError (List Json × PyStr)
  | 0, _ => .error .syntaxError
  | fuel + 1, s =>
    match item s with
    | .error e => .error e
    | .ok (j, s) =>
      match skipWs s with
      | [] => .error .syntaxError
      | c :: rest =>
        if c.val = 44 then (elements fuel (skipWs rest)).map fun r => (j :: r.1, r.2)
        else if c.val = 93 then .ok ([j], rest)
        else .error .syntaxError

/-- A member of an object, after the quote that opens its key. -/
def member (s : PyStr) : Except LoadError ((List Unit16 × Json) × PyStr) :=
  match scanString s with
  | .error e => .error e
  | .ok (key, s) =>
    match skipWs s with
    | [] => .error .syntaxError
    | c :: rest => if c.val = 58 then (item (skipWs rest)).map fun r => ((key, r.1), r.2) else .error .syntaxError

/-- The members of an object up to its brace, in at most `fuel` turns. -/
def members : ℕ → PyStr → Except LoadError (List (List Unit16 × Json) × PyStr)
  | 0, _ => .error .syntaxError
  | _ + 1, [] => .error .syntaxError
  | fuel + 1, q :: s =>
    if q.val = 34 then
      match member item s with
      | .error e => .error e
      | .ok (pair, s) =>
        match skipWs s with
        | [] => .error .syntaxError
        | c :: rest =>
          if c.val = 44 then (members fuel (skipWs rest)).map fun r => (pair :: r.1, r.2)
          else if c.val = 125 then .ok ([pair], rest)
          else .error .syntaxError
    else .error .syntaxError

/-- An array after its opening bracket. Every element takes a character, so the text's
length is turns enough (`scanValue_turns`). -/
def scanArray (s : PyStr) : Except LoadError (Json × PyStr) :=
  match skipWs s with
  | [] => .error .syntaxError
  | c :: rest =>
    if c.val = 93 then .ok (.arr [], rest)
    else (elements item (c :: rest).length (c :: rest)).map fun r => (.arr r.1, r.2)

/-- An object after its opening brace. -/
def scanObject (s : PyStr) : Except LoadError (Json × PyStr) :=
  match skipWs s with
  | [] => .error .syntaxError
  | c :: rest =>
    if c.val = 125 then .ok (.obj [], rest)
    else (members item (c :: rest).length (c :: rest)).map fun r => (.obj r.1, r.2)

end Containers

/-- A value and what follows it, with room for `limit` containers in one another. -/
def scanValue (limit : ℕ) : PyStr → Except LoadError (Json × PyStr)
  | [] => .error .syntaxError
  | c :: rest =>
    if c.val = 34 then (scanString rest).map fun r => (.str r.1, r.2)
    else if c.val = 91 ∨ c.val = 123 then
      match limit with
      | 0 => .error .recursion
      | limit + 1 => if c.val = 91 then scanArray (scanValue limit) rest else scanObject (scanValue limit) rest
    else
      match scanConstant (c :: rest) with
      | some r => .ok r
      | none => scanNumber (c :: rest)

/-- `json.loads(text)`. No container runs out of turns (`scanValue_turns`), so an error is the text's. -/
def loads (limit : ℕ) (text : PyStr) : Except LoadError Json :=
  -- a byte order mark is refused
  if (text.head?.map Fin.val) = some 0xFEFF then .error .syntaxError
  else
    match scanValue limit (skipWs text) with
    | .error e => .error e
    | .ok (j, rest) => if skipWs rest = [] then .ok j else .error .syntaxError

/-! ## What is loaded -/

/-- A loaded object has strings for keys, each once, and loaded values. -/
theorem decode_eq_dict {doc : Json} {items : List (PyKey × PyValue)} (h : decode doc = .dict items) :
    ∃ d : List (PyStr × PyValue), items = strItems d ∧ (d.map Prod.fst).Nodup ∧ ∀ e ∈ d, ∃ j, e.2 = decode j := by
  cases doc with
  | obj pairs =>
    rw [decode] at h
    refine ⟨dictOf (decodePairs pairs), (PyValue.dict.inj h).symm, nodup_dictOf _, fun e he => ?_⟩
    have hmem := mem_of_mem_dictOf _ he
    clear h he
    induction pairs with
    | nil => cases hmem
    | cons p rest ih =>
      rw [decodePairs] at hmem
      rcases List.mem_cons.1 hmem with rfl | hmem
      · exact ⟨p.2, rfl⟩
      · exact ih hmem
  | _ => simp [decode] at h

/-! ## The turns are enough -/

section Progress
variable {s : PyStr} {limit fuel fuel' : ℕ}

theorem map_eq_ok {ε α β : Type} {x : Except ε α} {f : α → β} {b : β} (h : x.map f = .ok b) :
    ∃ a, x = .ok a ∧ f a = b := by
  cases x with
  | error e => cases h
  | ok a => exact ⟨a, rfl, Except.ok.inj h⟩

theorem length_skipWs (s : PyStr) : (skipWs s).length ≤ s.length := List.length_dropWhile_le ..

theorem lt_of_skipWs {c : CodePoint} {rest : PyStr} (h : skipWs s = c :: rest) : rest.length < s.length := by
  have hle := length_skipWs s
  rw [h, List.length_cons] at hle
  omega

theorem scanString_lt {r : List Unit16 × PyStr} (h : scanString s = .ok r) : r.2.length < s.length := by
  fun_induction scanString s generalizing r with
  | case2 c rest _ =>
    obtain rfl := Except.ok.inj h
    simp
  | case4 c hq hb e he w x y z rest' u hu ih =>
    obtain ⟨a, ha, rfl⟩ := map_eq_ok h
    have := ih ha
    simp only [List.length_cons]
    omega
  | case7 c hq hb e rest he u hu ih =>
    obtain ⟨a, ha, rfl⟩ := map_eq_ok h
    have := ih ha
    simp only [List.length_cons]
    omega
  | case10 c rest hq hb hc ih =>
    obtain ⟨a, ha, rfl⟩ := map_eq_ok h
    have := ih ha
    simp only [List.length_cons]
    omega
  | _ => cases h

theorem length_span (p : CodePoint → Bool) (s : PyStr) : (s.span p).2.length ≤ s.length := by
  rw [List.span_eq_takeWhile_dropWhile]
  exact List.length_dropWhile_le ..

theorem intPart_lt {r : PyStr × PyStr} (h : intPart s = some r) : r.2.length < s.length := by
  cases s with
  | nil => cases h
  | cons c rest =>
    rw [intPart] at h
    split_ifs at h with hzero hdig
    · obtain rfl := Option.some.inj h
      simp
    · obtain rfl := Option.some.inj h
      rw [List.span_eq_takeWhile_dropWhile, List.dropWhile_cons_of_pos hdig]
      exact Nat.lt_succ_of_le (List.length_dropWhile_le ..)

theorem length_fracPart (s : PyStr) : (fracPart s).2.length ≤ s.length := by
  cases s with
  | nil => exact le_rfl
  | cons c rest =>
    rw [fracPart]
    split_ifs
    · exact (length_span isDigit rest).trans (Nat.le_succ _)
    · exact le_rfl

theorem length_expPart (s : PyStr) : (expPart s).2.length ≤ s.length := by
  cases s with
  | nil => exact le_rfl
  | cons c rest =>
    rw [expPart]
    dsimp only
    split
    · generalize (rest.head?.map Fin.val == some 45) = neg
      generalize (neg || rest.head?.map Fin.val == some 43) = signed
      have hle : ((if signed = true then rest.tail else rest).span isDigit).2.length ≤ (c :: rest).length := by
        refine (length_span isDigit _).trans ?_
        split
        · simp only [List.length_tail, List.length_cons]
          omega
        · exact Nat.le_succ _
      generalize (if signed = true then rest.tail else rest).span isDigit = digits at hle ⊢
      split
      · exact le_rfl
      · exact hle
    · exact le_rfl

theorem scanNumber_lt {r : Json × PyStr} (h : scanNumber s = .ok r) : r.2.length < s.length := by
  rw [scanNumber] at h
  dsimp only at h
  split at h
  · cases h
  · next int s' hint =>
    have hlt := intPart_lt hint
    have hle : (if (s.head?.map Fin.val == some 45) = true then s.tail else s).length ≤ s.length := by
      split <;> simp
    have hfrac := length_fracPart s'
    have hexp := length_expPart (fracPart s').2
    split_ifs at h
    all_goals
      obtain rfl := Except.ok.inj h
      dsimp only at hlt ⊢
      omega

theorem scanConstant_lt {r : Json × PyStr} (h : scanConstant s = some r) : r.2.length < s.length := by
  obtain ⟨e, he, hr⟩ := List.exists_of_findSome?_eq_some h
  split_ifs at hr with hpre
  obtain rfl := Option.some.inj hr
  have hpos : 0 < e.1.length := by
    have hall : ∀ e ∈ constants, 0 < e.1.length := by simp [constants, lit]
    exact hall e he
  have hle := (List.isPrefixOf_iff_prefix.1 hpre).length_le
  rw [List.length_drop]
  omega

section Items
variable {item : PyStr → Except LoadError (Json × PyStr)} (hitem : ∀ s r, item s = .ok r → r.2.length < s.length)
include hitem

theorem elements_lt {r : List Json × PyStr} (h : elements item fuel s = .ok r) : r.2.length < s.length := by
  fun_induction elements item fuel s generalizing r with
  | case4 fuel s j s' hok c rest hws hcomma ih =>
    obtain ⟨a, ha, rfl⟩ := map_eq_ok h
    have h1 := hitem _ _ hok
    have h2 := lt_of_skipWs hws
    have h3 := ih ha
    have h4 := length_skipWs rest
    dsimp only at h1 ⊢
    omega
  | case5 fuel s j s' hok c rest hws _ _ =>
    obtain rfl := Except.ok.inj h
    have h1 := hitem _ _ hok
    have h2 := lt_of_skipWs hws
    dsimp only at h1 ⊢
    omega
  | _ => cases h

theorem member_lt {r : (List Unit16 × Json) × PyStr} (h : member item s = .ok r) : r.2.length < s.length := by
  rw [member] at h
  split at h
  · cases h
  · next key s' hkey =>
    have h1 := scanString_lt hkey
    split at h
    · cases h
    · next c rest hws =>
      split_ifs at h
      obtain ⟨a, ha, rfl⟩ := map_eq_ok h
      have h2 := lt_of_skipWs hws
      have h3 := hitem _ _ ha
      have h4 := length_skipWs rest
      dsimp only at h1 ⊢
      omega

theorem members_lt {r : List (List Unit16 × Json) × PyStr} (h : members item fuel s = .ok r) : r.2.length < s.length := by
  fun_induction members item fuel s generalizing r with
  | case5 fuel q s hq pair s' hok c rest hws hcomma ih =>
    obtain ⟨a, ha, rfl⟩ := map_eq_ok h
    have h1 := member_lt hitem hok
    have h2 := lt_of_skipWs hws
    have h3 := ih ha
    have h4 := length_skipWs rest
    simp only [List.length_cons] at h1 ⊢
    omega
  | case6 fuel q s hq pair s' hok c rest hws _ _ =>
    obtain rfl := Except.ok.inj h
    have h1 := member_lt hitem hok
    have h2 := lt_of_skipWs hws
    simp only [List.length_cons] at h1 ⊢
    omega
  | _ => cases h

theorem scanArray_lt {r : Json × PyStr} (h : scanArray item s = .ok r) : r.2.length < s.length := by
  rw [scanArray] at h
  split at h
  · cases h
  · next c rest hws =>
    have hrest := lt_of_skipWs hws
    have hle := length_skipWs s
    split_ifs at h
    · obtain rfl := Except.ok.inj h
      exact hrest
    · obtain ⟨a, ha, rfl⟩ := map_eq_ok h
      have := elements_lt hitem ha
      rw [hws] at hle
      exact this.trans_le hle

theorem scanObject_lt {r : Json × PyStr} (h : scanObject item s = .ok r) : r.2.length < s.length := by
  rw [scanObject] at h
  split at h
  · cases h
  · next c rest hws =>
    have hrest := lt_of_skipWs hws
    have hle := length_skipWs s
    split_ifs at h
    · obtain rfl := Except.ok.inj h
      exact hrest
    · obtain ⟨a, ha, rfl⟩ := map_eq_ok h
      have := members_lt hitem ha
      rw [hws] at hle
      exact this.trans_le hle

/-- More turns than characters change nothing. -/
theorem elements_fuel (hnil : item [] = .error .syntaxError) (hf : s.length ≤ fuel) (hf' : s.length ≤ fuel') :
    elements item fuel s = elements item fuel' s := by
  induction fuel generalizing s fuel' with
  | zero =>
    obtain rfl := List.eq_nil_of_length_eq_zero (Nat.le_zero.1 hf)
    cases fuel' with
    | zero => rfl
    | succ fuel' => rw [elements, elements, hnil]
  | succ fuel ih =>
    cases fuel' with
    | zero =>
      obtain rfl := List.eq_nil_of_length_eq_zero (Nat.le_zero.1 hf')
      rw [elements, elements, hnil]
    | succ fuel' =>
      rw [elements, elements]
      cases hok : item s with
      | error e => rfl
      | ok r =>
        have h1 := hitem _ _ hok
        dsimp only
        cases hws : skipWs r.2 with
        | nil => rfl
        | cons c rest =>
          have h2 := lt_of_skipWs hws
          have h3 := length_skipWs rest
          dsimp only
          rw [ih (show (skipWs rest).length ≤ fuel by omega) (show (skipWs rest).length ≤ fuel' by omega)]

theorem members_fuel (hf : s.length ≤ fuel) (hf' : s.length ≤ fuel') : members item fuel s = members item fuel' s := by
  induction fuel generalizing s fuel' with
  | zero =>
    obtain rfl := List.eq_nil_of_length_eq_zero (Nat.le_zero.1 hf)
    cases fuel' with
    | zero => rfl
    | succ fuel' => rw [members, members]
  | succ fuel ih =>
    cases s with
    | nil => cases fuel' <;> rw [members, members]
    | cons q s =>
    cases fuel' with
    | zero => simp at hf'
    | succ fuel' =>
      rw [members, members]
      simp only [List.length_cons] at hf hf'
      cases hok : member item s with
      | error e => rfl
      | ok r =>
        have h1 := member_lt hitem hok
        dsimp only
        cases hws : skipWs r.2 with
        | nil => rfl
        | cons c rest =>
          have h2 := lt_of_skipWs hws
          have h3 := length_skipWs rest
          dsimp only
          rw [ih (show (skipWs rest).length ≤ fuel by omega) (show (skipWs rest).length ≤ fuel' by omega)]

end Items

/-- A value takes at least one character. -/
theorem scanValue_lt {r : Json × PyStr} (h : scanValue limit s = .ok r) : r.2.length < s.length := by
  cases s with
  | nil => simp [scanValue] at h
  | cons c rest =>
  induction limit generalizing c rest r with
  | zero =>
    rw [scanValue] at h
    split_ifs at h with hq hb
    · obtain ⟨a, ha, rfl⟩ := map_eq_ok h
      exact (scanString_lt ha).trans (Nat.lt_succ_self _)
    · split at h
      · next hc =>
        obtain rfl := Except.ok.inj h
        exact scanConstant_lt hc
      · exact scanNumber_lt h
  | succ limit ih =>
    have hitem : ∀ s r, scanValue limit s = .ok r → r.2.length < s.length := by
      intro s r hr
      cases s with
      | nil => simp [scanValue] at hr
      | cons c rest => exact ih c rest hr
    rw [scanValue] at h
    split_ifs at h with hq hb ha
    · obtain ⟨a, ha, rfl⟩ := map_eq_ok h
      exact (scanString_lt ha).trans (Nat.lt_succ_self _)
    · exact (scanArray_lt hitem h).trans (Nat.lt_succ_self _)
    · exact (scanObject_lt hitem h).trans (Nat.lt_succ_self _)
    · split at h
      · next hc =>
        obtain rfl := Except.ok.inj h
        exact scanConstant_lt hc
      · exact scanNumber_lt h

/-- However many turns the containers get, a value is the same. -/
theorem scanValue_turns (limit : ℕ) (hf : s.length ≤ fuel) :
    elements (scanValue limit) fuel s = elements (scanValue limit) s.length s ∧
      members (scanValue limit) fuel s = members (scanValue limit) s.length s :=
  ⟨elements_fuel (fun _ _ => scanValue_lt) (by rw [scanValue]) hf le_rfl, members_fuel (fun _ _ => scanValue_lt) hf le_rfl⟩

end Progress

end PyJson
