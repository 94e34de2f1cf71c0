import MlxTrainPerf.Lib.PyList
/-!
# The sequence packer

`data/packing.py`, function by function: first-fit over a seeded order
(`packIndices`), its accounting (`packStats`), the layout of one row
(`buildRow`), and the pack-time check on a batch (`assertPackTimeMonotone`).
The seeded generator is a parameter: all the packer uses of it is the order it
leaves the indices in.
-/
open PyList

namespace MlxTrainPerf.Packing

/-- `PackingError`, with its text. -/
structure PackingError where
  msg : String
deriving DecidableEq, Repr

/-- Open packs first-fit scans before closing the oldest. -/
def openPool : ℕ := 8

/-! ## `pack_indices` -/

/-- `random.Random(f"{seed}:{epoch}").shuffle(order)`, as the order it leaves. -/
def Shuffle : Type := ℤ → ℕ → List ℕ → List ℕ

/-- The three lists the scan keeps: the packs, the free slots of each, and the
packs still open. -/
structure Pool where
  packs : List (List ℕ)
  room : List ℤ
  openPacks : List ℕ
deriving DecidableEq, Repr

namespace Pool

def empty : Pool := ⟨[], [], []⟩

/-- `room[j]`. -/
def roomOf (p : Pool) (j : ℕ) : ℤ := p.room.getD j 0

/-- `packs[j]`. -/
def packOf (p : Pool) (j : ℕ) : List ℕ := p.packs.getD j []

end Pool

/-- Slots a sequence takes: its tokens up to `pack_len`, and its own pad slot. -/
def cost (lengths : List ℕ) (packLen i : ℕ) : ℕ := min (lengths.getD i 0) packLen + 1

/-- The first open pack with room for `c` slots. -/
def firstFit (p : Pool) (c : ℕ) : Option ℕ := p.openPacks.find? fun j => decide ((c : ℤ) ≤ p.roomOf j)

/-- Put sequence `i` into the open pack `j`, and close it when at most one slot
is left. -/
def placeInto (p : Pool) (c i j : ℕ) : Pool where
  packs := p.packs.modify j (· ++ [i])
  room := p.room.modify j (· - c)
  openPacks := if p.roomOf j - c ≤ 1 then p.openPacks.erase j else p.openPacks

/-- Open a new pack for sequence `i`, and drop the oldest open pack when the
pool is over its limit. -/
def openNew (p : Pool) (capacity : ℤ) (c i : ℕ) : Pool where
  packs := p.packs ++ [[i]]
  room := p.room ++ [capacity - c]
  openPacks :=
    let opened := p.openPacks ++ [p.packs.length]
    if openPool < opened.length then opened.tail else opened

/-- One turn of `for i in order`. -/
def packStep (lengths : List ℕ) (packLen : ℕ) (p : Pool) (i : ℕ) : Pool :=
  match firstFit p (cost lengths packLen i) with
  | some j => placeInto p (cost lengths packLen i) i j
  | none => openNew p (packLen + 1 : ℕ) (cost lengths packLen i) i

/-- The scan after visiting `order`. -/
def packRun (lengths : List ℕ) (packLen : ℕ) (order : List ℕ) : Pool :=
  order.foldl (packStep lengths packLen) .empty

def packIndices (shuffle : Shuffle) (lengths : List ℕ) (packLen : ℕ) (seed : ℤ) (epoch : ℕ) :
    Except PackingError (List (List ℕ)) :=
  if packLen < 1 then .error ⟨s!"pack_len must be >= 1; got {packLen}"⟩
  else if lengths = [] then .error ⟨"cannot pack an empty dataset"⟩
  else if lengths.any (· < 1) then .error ⟨"zero-length sequence in dataset"⟩
  else .ok (packRun lengths packLen (shuffle seed epoch (List.range lengths.length))).packs

/-! ## `pack_stats` -/

structure PackStats where
  realTokens : ℕ
  capacityTokens : ℕ
  utilization : ℚ
  separatorFraction : ℚ
  tailPadFraction : ℚ
deriving DecidableEq, Repr

/-- The three counters of the accounting loop. -/
structure Counts where
  realTokens : ℕ
  separators : ℕ
  tailPad : ℤ
deriving DecidableEq, Repr

/-- Slots used by a pack. -/
def packCost (lengths : List ℕ) (packLen : ℕ) (pack : List ℕ) : ℕ := (pack.map (cost lengths packLen)).sum

/-- One turn of `for pack in packs`, its inner loop included. -/
def countPack (lengths : List ℕ) (packLen : ℕ) (c : Counts) (pack : List ℕ) : Counts where
  realTokens := pack.foldl (fun acc i => acc + (cost lengths packLen i - 1)) c.realTokens
  separators := pack.foldl (fun acc _ => acc + 1) c.separators
  tailPad := c.tailPad + ((packLen + 1 : ℕ) - pack.foldl (fun acc i => acc + (cost lengths packLen i : ℤ)) 0)

def counts (packs : List (List ℕ)) (lengths : List ℕ) (packLen : ℕ) : Counts :=
  packs.foldl (countPack lengths packLen) ⟨0, 0, 0⟩

def statsOf (c : Counts) (capacityTokens : ℕ) : PackStats where
  realTokens := c.realTokens
  capacityTokens := capacityTokens
  utilization := c.realTokens / capacityTokens
  separatorFraction := c.separators / capacityTokens
  tailPadFraction := c.tailPad / capacityTokens

def packStats (packs : List (List ℕ)) (lengths : List ℕ) (packLen : ℕ) : Except PackingError PackStats :=
  if packLen < 1 then .error ⟨s!"pack_len must be >= 1; got {packLen}"⟩
  else if packs = [] then .error ⟨"cannot compute stats over an empty pack list"⟩
  else .ok (statsOf (counts packs lengths packLen) (packs.length * packLen))

/-! ## `build_row` -/

/-- A dataset item: its tokens, and the length of its prompt. -/
structure Entry where
  tokens : List ℤ
  offset : ℤ
deriving DecidableEq, Repr

/-- What `build_row` returns. -/
structure Row where
  row : List ℤ
  segId : List ℤ
  segStart : List ℤ
  lossMask : List Bool
deriving DecidableEq, Repr

/-- The loop's state: the four lists, the segment number and the cursor. -/
structure RowState where
  out : Row
  seg : ℕ
  cursor : ℕ
deriving DecidableEq, Repr

/-- One turn of `for seg, (tokens, offset) in enumerate(entries)`. -/
def rowStep (packLen : ℕ) (st : RowState) (e : Entry) : Except IndexError RowState := do
  let t0 := st.cursor
  let padPos := t0 + e.tokens.length
  let row := setSlice st.out.row t0 padPos e.tokens
  -- A pack that fills the row exactly has its last pad slot in the target-only column.
  let spanEnd : ℤ := min (padPos : ℤ) (packLen - 1)
  let segId ← fill st.out.segId t0 (spanEnd + 1) (st.seg : ℤ)
  let segStart ← fill st.out.segStart t0 (spanEnd + 1) (t0 : ℤ)
  let lo := t0 + max e.offset 1 - 1
  let hi := (t0 + e.tokens.length : ℤ) - 1
  let lossMask ← fill st.out.lossMask lo (hi + 1) true
  return ⟨⟨row, segId, segStart, lossMask⟩, st.seg + 1, padPos + 1⟩

/-- The four lists before the loop. -/
def blankRow (packLen : ℕ) : Row :=
  ⟨List.replicate (packLen + 1) 0, List.replicate packLen 0, List.replicate packLen 0,
    List.replicate packLen false⟩

def buildRow (entries : List Entry) (packLen : ℕ) : Except IndexError Row := do
  let st ← entries.foldlM (rowStep packLen) ⟨blankRow packLen, 0, 0⟩
  let segId ← fill st.out.segId st.cursor packLen (entries.length : ℤ)
  let segStart ← fill st.out.segStart st.cursor packLen (st.cursor : ℤ)
  return { st.out with segId, segStart }

/-! ## `_assert_pack_time_monotone` -/

def monotoneMsg (name : String) : String :=
  s!"packed batch {name} must be non-decreasing along each row: the packed kernels' block-skip bounds " ++
    "(forward/dQ kv_lo, dK/dV segment-end break) assume contiguous ascending segments"

def assertPackTimeMonotone (sidArr sstArr : List (List ℤ)) : Except PackingError Unit :=
  if !sidArr.all nonDecreasing then .error ⟨monotoneMsg "seg_id"⟩
  else if !sstArr.all nonDecreasing then .error ⟨monotoneMsg "seg_start"⟩
  else .ok ()

/-! ## The iterator's items -/

/-- `items = [(tokens[:max_seq_length], offset) for tokens, offset in items]`. -/
def truncateItems (items : List Entry) (maxSeqLength : ℕ) : List Entry :=
  items.map fun e => { e with tokens := e.tokens.take maxSeqLength }

/-- `lengths = [len(tokens) for tokens, _ in items]`. -/
def lengthsOf (items : List Entry) : List ℕ := items.map fun e => e.tokens.length

/-- `entries = [items[i] for i in pack]`. -/
def entriesOf (items : List Entry) (pack : List ℕ) : List Entry := pack.map fun i => items.getD i ⟨[], 0⟩

/-- The rows of one batch, one `build_row` call a pack. -/
def batchRows (items : List Entry) (maxSeqLength : ℕ) (batch : List (List ℕ)) : Except IndexError (List Row) :=
  batch.mapM fun pack => buildRow (entriesOf items pack) maxSeqLength

end MlxTrainPerf.Packing
