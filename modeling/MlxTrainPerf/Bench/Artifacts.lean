import MlxTrainPerf.Lib.PyJson
/-!
# Bench artifacts

`bench/artifacts.py`: the identity of a condition, the document `write_result` leaves,
and when `result_is_fresh` takes a file for a result of that identity.
-/
open PyStr PyJson

namespace MlxTrainPerf.Bench

/-! ## The identity -/

/-- What an identity reads from its surroundings. -/
structure Env where
  mlxVersion : PyStr
  mlxLmVersion : Option PyStr
  machine : PyStr
  macos : PyStr
  codeSha : PyStr
  packageVersion : PyStr

/-- `BenchInputError`, with what its text prints, and the `TypeError` of a keyword that
is not a string. -/
inductive IdentityError
  | reservedParam (key : PyStr)
  | reservedIdentity (keys : List PyStr)
  | keywordNotString
deriving DecidableEq, Repr

/-- `SCHEMA_VERSION`. -/
def schemaVersion : ℤ := 1

/-- A string or `None`. -/
def optStr : Option PyStr → PyValue
  | some s => .str s
  | none => .none

/-- `internal`. -/
def Env.internal (env : Env) : List (PyStr × PyValue) :=
  [(lit "schema_version", .int schemaVersion), (lit "mlx_version", .str env.mlxVersion),
    (lit "mlx_lm_version", optStr env.mlxLmVersion), (lit "machine", .str env.machine), (lit "macos", .str env.macos),
    (lit "code_sha", .str env.codeSha), (lit "package_version", .str env.packageVersion)]

/-- `run_identity(**kw)`. -/
def runIdentity (env : Env) (kw : List (PyStr × PyValue)) : Except IdentityError (List (PyStr × PyValue)) :=
  let collision := (kw.map Prod.fst).filter fun k => k ∈ env.internal.map Prod.fst
  if collision ≠ [] then .error (.reservedIdentity collision) else .ok (env.internal ++ kw)

/-- `_RESERVED_PARAM_KEYS`. -/
def reservedParamKeys : List PyStr :=
  [lit "kind", lit "session_id", lit "attention_impl", lit "dkv_split_policy", lit "attention_variant"]

/-- The items of `**params`. -/
def keywords : List (PyKey × PyValue) → Except IdentityError (List (PyStr × PyValue))
  | [] => .ok []
  | (.str s, v) :: rest => do return (s, v) :: (← keywords rest)
  | _ :: _ => .error .keywordNotString

/-- The dedicated fields that are set. -/
def attentionFields (impl split variant : Option PyStr) : List (PyStr × PyValue) :=
  [(lit "attention_impl", impl), (lit "dkv_split_policy", split), (lit "attention_variant", variant)].filterMap fun f =>
    f.2.map fun value => (f.1, .str value)

/-- `condition_identity`. -/
def conditionIdentity (env : Env) (kind sessionId : PyStr) (params : List (PyKey × PyValue))
    (impl split variant : Option PyStr) : Except IdentityError (List (PyStr × PyValue)) :=
  match reservedParamKeys.find? fun key => PyKey.str key ∈ params.map Prod.fst with
  | some key => .error (.reservedParam key)
  | none => do
    let kw ← keywords params
    runIdentity env ([(lit "kind", .str kind), (lit "session_id", .str sessionId)] ++ attentionFields impl split variant ++ kw)

/-! ## The artifact -/

/-- The parameters of `write_result` that `**fields` cannot set. -/
def writeResultParams : List PyStr := [lit "path", lit "identity", lit "status"]

/-- What `write_result` serialises. -/
def artifactDoc (ident : List (PyStr × PyValue)) (status : PyStr) (fields : List (PyStr × PyValue)) :
    Except JsonError Json :=
  if fields.any fun e => e.1 ∈ writeResultParams then .error .typeError
  else encode (.dict (strItems ([(lit "identity", .dict (strItems ident)), (lit "status", .str status)] ++ fields)))

/-- An exception of a read that `result_is_fresh` does not catch. -/
inductive ReadError
  | unicodeDecode
  | valueError
  | recursion
  | attribute
deriving DecidableEq, Repr

/-- What is at a path: text that parses, text that does not or cannot be read, a
directory, or text on which the parser raises something else. -/
inductive Content
  | parses (doc : Json)
  | corrupt
  | directory
  | raises (e : ReadError)

/-- `data.get(key)`. -/
def getItem (data : List (PyKey × PyValue)) (key : PyStr) : PyValue := (lookup (.str key) data).getD .none

/-- `result_is_fresh`. -/
def resultIsFresh (content : Option Content) (ident : List (PyStr × PyValue)) : Except ReadError Bool :=
  match content with
  | none => .ok false
  | some .corrupt => .ok false
  | some .directory => .ok false
  | some (.raises e) => .error e
  | some (.parses doc) =>
    match decode doc with
    | .dict data => .ok (pyEq (getItem data (lit "status")) (.str (lit "ok")) &&
        pyEq (getItem data (lit "identity")) (.dict (strItems ident)))
    | _ => .error .attribute

end MlxTrainPerf.Bench
