import MlxTrainPerf.Lib.Blocks
import MlxTrainPerf.Lib.JsonText
/-!
# The code fingerprint

`_code_sha` of `bench/artifacts.py` hashes the name and the bytes of each file, one after the
other and with nothing between them. An edit of one file always changes what is hashed
(`codeStream_update_ne`); edits of two neighbours can cancel, exactly when the second one's
name has another place in their bytes (`code_separates_iff`).
-/
open PyStr PyJson Blocks

namespace MlxTrainPerf.Bench

/-! ## The fingerprint -/

/-- A path, as the bytes of its text. -/
abbrev SourcePath : Type := List Byte

/-- `p.name.encode()`: what follows the last slash. -/
def SourcePath.name (p : SourcePath) : List Byte := (p.reverse.takeWhile fun b => b.val ≠ 0x2F).reverse

/-- `CODE_SHA_DEPS`, from the package's root on. -/
def codeShaDeps : List SourcePath :=
  ["bench/worker.py", "bench/checkpoint.py", "core/loss.py", "core/chunked.py", "core/naive.py",
    "core/kernel/launch.py", "core/kernel/dispatch.py", "core/kernel/source.py", "core/guards.py", "adapters/mlx_lm.py",
    "attention/reference.py", "attention/api.py", "attention/kernel/source.py", "attention/kernel/launch.py", "attention/kernel/dispatch.py",
    "attention/wrapper.py", "data/packing.py", "attention/segments.py", "recurrent/ops.py", "recurrent/reference.py",
    "recurrent/wrapper.py", "families.py"].map asciiBytes

/-- What `_code_sha` feeds to the hash; `read` is `p.read_bytes()`. -/
def codeStream (read : SourcePath → List Byte) (deps : List SourcePath) : List Byte :=
  deps.foldl (fun h p => h ++ p.name ++ read p) []

/-- `_code_sha`. -/
def codeSha (hexdigest : List Byte → PyStr) (read : SourcePath → List Byte) (deps : List SourcePath) : PyStr :=
  (hexdigest (codeStream read deps)).take 16

/-! ## Its blocks -/

section Blocks
variable {read : SourcePath → List Byte} {deps : List SourcePath}

/-- A file behind its name. -/
def block (read : SourcePath → List Byte) (p : SourcePath) : List Byte × List Byte := (p.name, read p)

theorem codeStream_eq_weave (read : SourcePath → List Byte) (deps : List SourcePath) :
    codeStream read deps = weave (deps.map (block read)) := by
  have hfrom : ∀ h, deps.foldl (fun h p => h ++ p.name ++ read p) h = h ++ weave (deps.map (block read)) := by
    induction deps with
    | nil => simp
    | cons p deps ih =>
      intro h
      rw [List.foldl_cons, ih, List.map_cons, weave_cons, block]
      simp only [List.append_assoc]
  exact hfrom []

theorem map_fst_block (read : SourcePath → List Byte) (deps : List SourcePath) :
    (deps.map (block read)).map Prod.fst = deps.map SourcePath.name := by
  rw [List.map_map]
  rfl

/-- Any bodies behind the names are the bytes of some files. -/
theorem exists_read {blocks : List (List Byte × List Byte)} (hdeps : deps.Nodup)
    (h : blocks.map Prod.fst = deps.map SourcePath.name) : ∃ read', deps.map (block read') = blocks := by
  have hlength : blocks.length = deps.length := by simpa using congrArg List.length h
  refine ⟨fun p => (blocks.map Prod.snd).getD (deps.idxOf p) [], List.ext_getElem (by simp [hlength]) fun i hi hi' => ?_⟩
  have hdep : i < deps.length := by simpa using hi
  have hname : blocks[i].1 = deps[i].name := by
    have hget := List.getElem_of_eq h (by simpa using hi')
    simpa using hget
  rw [List.getElem_map, block, hdeps.idxOf_getElem i hdep]
  refine Prod.ext hname.symm ?_
  simp [hi']

/-- Files with the same bytes are the same blocks. -/
theorem map_block_eq_iff {read' : SourcePath → List Byte} :
    deps.map (block read') = deps.map (block read) ↔ ∀ p ∈ deps, read' p = read p := by
  rw [List.map_inj_left]
  exact forall₂_congr fun p _ => ⟨congrArg Prod.snd, fun h => Prod.ext rfl h⟩

/-- An edit of one file changes what is hashed. -/
theorem codeStream_update_ne (hdeps : deps.Nodup) {p : SourcePath} (hp : p ∈ deps) {bytes : List Byte}
    (h : bytes ≠ read p) : codeStream (Function.update read p bytes) deps ≠ codeStream read deps := by
  obtain ⟨before, after, rfl⟩ := List.append_of_mem hp
  have hothers : ∀ l : List SourcePath, p ∉ l → l.map (block (Function.update read p bytes)) = l.map (block read) := by
    intro l hl
    rw [map_block_eq_iff]
    intro q hq
    rw [Function.update_of_ne]
    rintro rfl
    exact hl hq
  obtain ⟨hp, -⟩ := List.nodup_cons.1 (List.nodup_middle.1 hdeps)
  rw [List.mem_append, not_or] at hp
  rw [codeStream_eq_weave, codeStream_eq_weave, List.map_append, List.map_append, List.map_cons, List.map_cons,
    hothers before hp.1, hothers after hp.2, block, block, Function.update_self]
  exact weave_ne_of_body h

/-- The names are framed by the files around them. -/
def NamesFramed (read : SourcePath → List Byte) (deps : List SourcePath) : Prop :=
  deps.IsChain fun p q => ∀ u v, read p ++ q.name ++ read q = u ++ q.name ++ v → u = read p

theorem separates_iff (hdeps : deps.Nodup) :
    (∀ read' : SourcePath → List Byte, (∃ p ∈ deps, read' p ≠ read p) → codeStream read' deps ≠ codeStream read deps) ↔
      NamesFramed read deps := by
  have hchain : (deps.map (block read)).IsChain Framed ↔ NamesFramed read deps := List.isChain_map (block read)
  rw [← hchain, ← weave_unique_iff]
  constructor
  · intro h blocks hheads hne
    rw [map_fst_block] at hheads
    obtain ⟨read', rfl⟩ := exists_read hdeps hheads
    have hdiff : ∃ p ∈ deps, read' p ≠ read p := by
      by_contra hno
      push Not at hno
      exact hne (map_block_eq_iff.2 hno)
    have hstream := h read' hdiff
    rwa [codeStream_eq_weave, codeStream_eq_weave] at hstream
  · intro h read' hdiff
    rw [codeStream_eq_weave, codeStream_eq_weave]
    refine h _ ?_ ?_
    · rw [map_fst_block, map_fst_block]
    · rw [ne_eq, map_block_eq_iff]
      intro hall
      obtain ⟨p, hp, hne⟩ := hdiff
      exact hne (hall p hp)

end Blocks

theorem codeShaDeps_nodup : codeShaDeps.Nodup := by decide

/-- Every other content of the fingerprinted files is hashed from other bytes exactly when,
between the bytes of any file and those of the next, the next one's name has no other
place. -/
theorem code_separates_iff (read : SourcePath → List Byte) :
    (∀ read' : SourcePath → List Byte, (∃ p ∈ codeShaDeps, read' p ≠ read p) →
      codeStream read' codeShaDeps ≠ codeStream read codeShaDeps) ↔ NamesFramed read codeShaDeps :=
  separates_iff codeShaDeps_nodup

/-- Two trees in which `worker.py` or `checkpoint.py` is the one file with any bytes. -/
def treeWith (path : String) (p : SourcePath) : List Byte :=
  if p = asciiBytes path then asciiBytes "checkpoint.py" else []

/-- The bytes of the one, moved to the other, are hashed the same. -/
theorem code_moved : (∃ p ∈ codeShaDeps, treeWith "bench/checkpoint.py" p ≠ treeWith "bench/worker.py" p) ∧
    codeStream (treeWith "bench/checkpoint.py") codeShaDeps = codeStream (treeWith "bench/worker.py") codeShaDeps := by
  constructor
  · exact ⟨asciiBytes "bench/worker.py", by decide, by decide⟩
  · rfl

end MlxTrainPerf.Bench
