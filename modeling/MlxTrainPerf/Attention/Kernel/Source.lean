import MlxTrainPerf.Lib.Simdgroup
import MlxTrainPerf.Attention.Segments
/-!
# The generated kernels

`attention/kernel/source.py`: which (query, key) pairs each generated body
keeps, in which blocks, and in which order. A body is read for one batch row and
one D-slab pass; the slabs repeat it for other columns of the head dimension.
The buffers' sizes are int32, so the bodies' `uint` indices do not wrap and are
naturals here.
-/
open Loops Simdgroup

namespace MlxTrainPerf.Attention.Kernel

/-- Python's `ValueError`, with its text. -/
structure ValueError where
  msg : String
deriving DecidableEq, Repr

/-! ## Keep predicates -/

/-- The builders' flags. -/
structure Flags where
  causal : Bool
  flipCausal : Bool
  dropDiagonal : Bool
  packed : Bool
  flipSegments : Bool
  segmentBound : Bool
  breakEarly : Bool
deriving DecidableEq, Repr

/-- The shipped causal kernel. -/
def causalFlags : Flags := ⟨true, false, false, false, false, true, false⟩

/-- The shipped packed kernel. -/
def packedFlags : Flags := ⟨true, false, false, true, false, true, false⟩

def validatePredicateFlags (f : Flags) : Except ValueError Unit :=
  if f.flipCausal && !f.causal then .error ⟨"flip_causal is only meaningful with causal=True"⟩
  else if f.dropDiagonal && !f.causal then .error ⟨"drop_diagonal is only meaningful with causal=True"⟩
  else if f.dropDiagonal && f.flipCausal then
    .error ⟨"drop_diagonal and flip_causal are mutually exclusive perturbations"⟩
  else if f.packed && !f.causal then .error ⟨"packed (block-diagonal segments) requires causal=True"⟩
  else if f.flipSegments && !f.packed then .error ⟨"flip_segments requires packed=True"⟩
  else if f.flipSegments && (f.flipCausal || f.dropDiagonal) then
    .error ⟨"flip_segments is mutually exclusive with flip_causal/drop_diagonal"⟩
  else if f.breakEarly && !(f.packed && f.segmentBound) then
    .error ⟨"break_early requires packed=True and segment_bound=True"⟩
  else .ok ()

/-- The causal part of `KEEP_CMP`: `kk <= row` in the query-major bodies and
`i >= key` in the key-major ones. -/
def causalKeep (f : Flags) (query key : ℕ) : Bool :=
  if !f.causal then true
  else if f.flipCausal then decide (query ≤ key)
  else if f.dropDiagonal then decide (key < query)
  else decide (key ≤ query)

/-- `==` between two segment ids, or `!=` under `flip_segments`. -/
def sameSegment (f : Flags) (a b : ℤ) : Bool := if f.flipSegments then a != b else a == b

/-- `KEEP_CMP` of the query-major bodies; the row's id is read clamped. -/
def keepRow (f : Flags) (segId : ℕ → ℤ) (n row kk : ℕ) : Bool :=
  causalKeep f row kk && (!f.packed || sameSegment f (segId kk) (segId (min row (n - 1))))

/-- `KEEP_CMP` of the key-major bodies; the key's id is read clamped. -/
def keepKey (f : Flags) (segId : ℕ → ℤ) (n i key : ℕ) : Bool :=
  causalKeep f i key && (!f.packed || sameSegment f (segId i) (segId (min key (n - 1))))

/-! ## Tiles -/

/-- The elements of a 32x32 block held in 4x4 matrices. -/
def blockCells : List (ℕ × ℕ) :=
  (List.range 4).flatMap fun rt => (List.range 4).flatMap fun ct =>
    fragmentCells.map fun cell => (8 * rt + cell.1, 8 * ct + cell.2)

/-! ## Query-major bodies -/

/-- `kv_lo`; the division reads the segment start as `uint`. -/
def kvLo (f : Flags) (segStart : ℕ → ℤ) (n rowBase : ℕ) : ℕ :=
  if f.packed then toUInt (segStart (min rowBase (n - 1))) / 32 * 32 else 0

/-- `KV_LIMIT`. -/
def kvLimit (f : Flags) (n rowBase : ℕ) : ℕ := if f.causal then min n (rowBase + 32) else n

/-- The key blocks the query block at `rowBase` walks. -/
def kvBlocks (f : Flags) (segStart : ℕ → ℤ) (n rowBase : ℕ) : List ℕ :=
  steps 32 (kvLo f segStart n rowBase) (kvLimit f n rowBase)

/-- `(kk < kb1) && (KEEP_CMP)`. -/
def keepInBlock (f : Flags) (segId : ℕ → ℤ) (n kb0 row kk : ℕ) : Bool :=
  decide (kk < min (kb0 + 32) n) && keepRow f segId n row kk

/-- The (row, key) pairs the block of rows at `rowBase` keeps in the keys at `kb0`. -/
def keptInBlock (f : Flags) (segId : ℕ → ℤ) (n rowBase kb0 : ℕ) : List (ℕ × ℕ) :=
  (blockCells.map fun cell => (rowBase + cell.1, kb0 + cell.2)).filter fun p => keepInBlock f segId n kb0 p.1 p.2

/-- The pairs one query block of the dispatch `[r0, r1)` keeps, over the rows it stores. -/
def queryBlockKept (f : Flags) (segId segStart : ℕ → ℤ) (n r0 r1 block : ℕ) : List (ℕ × ℕ) :=
  (kvBlocks f segStart n (r0 + block * 32)).flatMap fun kb0 =>
    (keptInBlock f segId n (r0 + block * 32) kb0).filter fun p => decide (p.1 - r0 < r1 - r0)

/-- The pairs kept by the launch that dispatches `ranges` one after another. -/
def queryMajorKept (f : Flags) (segId segStart : ℕ → ℤ) (n : ℕ) (ranges : List (ℕ × ℕ)) : List (ℕ × ℕ) :=
  ranges.flatMap fun r => (List.range ((r.2 - r.1 + 31) / 32)).flatMap fun block =>
    queryBlockKept f segId segStart n r.1 r.2 block

/-- `_FWD_MMA_TEMPLATE`. -/
def fwdMmaKept (f : Flags) (segId segStart : ℕ → ℤ) (n : ℕ) (ranges : List (ℕ × ℕ)) : List (ℕ × ℕ) :=
  queryMajorKept f segId segStart n ranges

/-- `_BWD_DQ_MMA_TEMPLATE`: the forward's loop over the key blocks, with its own
`KEEP_CMP` of the same shape. -/
def bwdDqMmaKept (f : Flags) (segId segStart : ℕ → ℤ) (n : ℕ) (ranges : List (ℕ × ℕ)) : List (ℕ × ℕ) :=
  queryMajorKept f segId segStart n ranges

/-! ## Key-major bodies -/

/-- A kv head and the q-heads that share it. -/
structure Heads where
  hq : ℕ
  hkv : ℕ
  kvh : ℕ
  hq_pos : 0 < hq
  hkv_pos : 0 < hkv
  hkv_dvd : hkv ∣ hq
  kvh_lt : kvh < hkv

/-- `group_size`. -/
def Heads.groupSize (heads : Heads) : ℕ := heads.hq / heads.hkv

/-- `for (uint h = h0; h < h0 + group_size; ++h)`. -/
def Heads.group (heads : Heads) : List ℕ := List.range' (heads.kvh * heads.groupSize) heads.groupSize

/-- One accumulate step of a key block: the query block, the q-head, and the
(query, key) pairs whose `p` is not masked to 0. -/
structure DkvOp where
  qb0 : ℕ
  h : ℕ
  kept : List (ℕ × ℕ)
deriving DecidableEq, Repr

/-- What a key-major body does, in order. -/
inductive DkvEvent
  | readSeg (index : ℕ)
  | accumulate (op : DkvOp)
deriving DecidableEq, Repr

/-- `Q_START`. -/
def qStart (f : Flags) (qLo keyBase : ℕ) : ℕ := if f.causal then max qLo keyBase else qLo

/-- The (query, key) elements of the block at `qb0`; a C tile's rows are keys. -/
def dkvCells (keyBase qb0 : ℕ) : List (ℕ × ℕ) := blockCells.map fun cell => (qb0 + cell.2, keyBase + cell.1)

/-- `(i < q_hi) && (KEEP_CMP)`. -/
def keepInRange (f : Flags) (segId : ℕ → ℤ) (n qHi i key : ℕ) : Bool :=
  decide (i < qHi) && keepKey f segId n i key

/-- The ids an element's predicate reads: none when `&&` stops before them. -/
def elementReads (f : Flags) (n qHi i key : ℕ) : List DkvEvent :=
  if f.packed && decide (i < qHi) && causalKeep f i key then [.readSeg i, .readSeg (min key (n - 1))] else []

/-- The body of the query-block loop: every q-head of the group. -/
def dkvBody (f : Flags) (segId : ℕ → ℤ) (n : ℕ) (heads : Heads) (qHi keyBase qb0 : ℕ) : List DkvEvent :=
  heads.group.flatMap fun h =>
    (dkvCells keyBase qb0).flatMap (fun p => elementReads f n qHi p.1 p.2) ++
      [.accumulate ⟨qb0, h, (dkvCells keyBase qb0).filter fun p => keepInRange f segId n qHi p.1 p.2⟩]

/-- Has the body a segment bound? -/
def bounded (f : Flags) : Bool := f.packed && f.segmentBound

/-- The key whose id bounds the block. -/
def ownerIndex (f : Flags) (n keyBase : ℕ) : ℕ := min (if f.breakEarly then keyBase else keyBase + 31) (n - 1)

/-- `seg_id[seg_off + qb0] > owner_hi_seg`, where `owner_hi_seg` is a `uint`. -/
def segBreaks (f : Flags) (segId : ℕ → ℤ) (n keyBase qb0 : ℕ) : Bool :=
  bounded f && decide (toUInt (segId (ownerIndex f n keyBase)) < toUInt (segId qb0))

/-- The query-block loop; a `break` skips the blocks that are left. -/
def queryLoop (f : Flags) (segId : ℕ → ℤ) (n : ℕ) (heads : Heads) (qHi keyBase : ℕ) : List ℕ → List DkvEvent
  | [] => []
  | qb0 :: blocks =>
    (if bounded f then [DkvEvent.readSeg qb0] else []) ++
      if segBreaks f segId n keyBase qb0 then []
      else dkvBody f segId n heads qHi keyBase qb0 ++ queryLoop f segId n heads qHi keyBase blocks

/-- `_BWD_DKV_MMA_TEMPLATE`, for the key block `kblock` of the dispatch `[q_lo, q_hi)`. -/
def bwdDkvMma (f : Flags) (segId : ℕ → ℤ) (n : ℕ) (heads : Heads) (qLo qHi kblock : ℕ) : List DkvEvent :=
  let keyBase := kblock * 32
  (if bounded f then [DkvEvent.readSeg (ownerIndex f n keyBase)] else []) ++
    queryLoop f segId n heads qHi keyBase (steps 32 (qStart f qLo keyBase) qHi)

/-- The launch that chains `ranges`. -/
def launchBwdDkvMma (f : Flags) (segId : ℕ → ℤ) (n : ℕ) (heads : Heads) (ranges : List (ℕ × ℕ)) : List DkvEvent :=
  ranges.flatMap fun r => (List.range ((n + 31) / 32)).flatMap fun kblock => bwdDkvMma f segId n heads r.1 r.2 kblock

/-- `seg_id` positions a run reads. -/
def segReads (events : List DkvEvent) : List ℕ := events.flatMap fun
  | .readSeg index => [index]
  | .accumulate _ => []

/-- The accumulate steps of a run. -/
def accumulates (events : List DkvEvent) : List DkvOp := events.flatMap fun
  | .readSeg _ => []
  | .accumulate op => [op]

/-- What the accumulate steps add to keys that are stored, as (q-head, query, key). -/
def accumulatedPairs (n : ℕ) (ops : List DkvOp) : List (ℕ × ℕ × ℕ) :=
  ops.flatMap fun op => (op.kept.filter fun p => decide (p.2 < n)).map fun p => (op.h, p.1, p.2)

/-- `_BWD_DKV_TEMPLATE`, for one owner key of the dispatch `[q_lo, q_hi)`. -/
def bwdDkvScalar (f : Flags) (segId : ℕ → ℤ) (heads : Heads) (qLo qHi key : ℕ) : List (ℕ × ℕ × ℕ) :=
  (List.range' qLo (qHi - qLo)).flatMap fun i =>
    if causalKeep f i key && (!f.packed || sameSegment f (segId i) (segId key)) then
      heads.group.map fun h => (h, i, key)
    else []

/-- The scalar launch that chains `ranges`. -/
def launchBwdDkvScalar (f : Flags) (segId : ℕ → ℤ) (n : ℕ) (heads : Heads) (ranges : List (ℕ × ℕ)) :
    List (ℕ × ℕ × ℕ) :=
  ranges.flatMap fun r => (List.range n).flatMap fun key => bwdDkvScalar f segId heads r.1 r.2 key

end MlxTrainPerf.Attention.Kernel
