import MlxTrainPerf.Attention.KeyCoverage
import MlxTrainPerf.Attention.Kernel.DkvRun
/-!
# Which pairs the packed dK/dV kernel accumulates

The segment-end `break` compares ids as `uint`. Between two ids of one sign
that is the comparison of the ids, and then the kernel accumulates what the
scalar kernel does. A negative id reads as a large one, and a key block that
reaches ids of both signs loses its first query block and all after it.
-/
open Loops

namespace MlxTrainPerf.Attention.Kernel

/-- A row of ids as the launcher accepts it and `validate()` checks it. -/
structure IdRow (n : ℕ) where
  ids : List ℤ
  length_eq : ids.length = n
  int32 : ∀ x ∈ ids, IsInt32 x
  sorted : ids.Pairwise (· ≤ ·)

namespace IdRow
variable {n i j : ℕ}

/-- The row as the kernel reads it. -/
def get (row : IdRow n) (i : ℕ) : ℤ := ptr row.ids i

theorem get_int32 (row : IdRow n) (i : ℕ) : IsInt32 (row.get i) := ptr_int32 row.int32 i

theorem get_mono (row : IdRow n) (hij : i ≤ j) (hj : j < n) : row.get i ≤ row.get j :=
  ptr_mono row.sorted hij (row.length_eq.symm ▸ hj)

end IdRow

/-- The break compares as `uint`: it is the signed comparison unless the query
id is negative and the owner's is not. -/
theorem lt_of_toUInt_lt {x y : ℤ} (hx : IsInt32 x) (hy : IsInt32 y) (hsign : x < 0 → y < 0)
    (h : toUInt y < toUInt x) : y < x := by
  rcases lt_or_ge x 0 with hx0 | hx0
  · have hux := toUInt_of_neg hx hx0
    have huy := toUInt_of_neg hy (hsign hx0)
    omega
  · have hux := toUInt_of_nonneg hx hx0
    rcases lt_or_ge y 0 with hy0 | hy0
    · omega
    · have huy := toUInt_of_nonneg hy hy0
      omega

theorem toUInt_lt_of_signs {x y : ℤ} (hx : IsInt32 x) (hy : IsInt32 y) (hx0 : x < 0) (hy0 : 0 ≤ y) :
    toUInt y < toUInt x := by
  have hux := toUInt_of_neg hx hx0
  have huy := toUInt_of_nonneg hy hy0
  unfold IsInt32 at hx hy
  omega

section Block
variable {n qLo qHi kblock qb0 h i j : ℕ} {row : IdRow n} {heads : Heads}

theorem keepKey_packed {segId : ℕ → ℤ} (hj : j < n) : keepKey packedFlags segId n i j = segmentAllowed segId i j := by
  have hclamp : min j (n - 1) = j := by omega
  rw [Bool.eq_iff_iff, segmentAllowed_iff]
  simp only [keepKey, packedFlags, causalKeep, sameSegment, hclamp, Bool.not_true, Bool.false_eq_true, if_false,
    Bool.false_or, Bool.and_eq_true, decide_eq_true_eq, beq_iff_eq]
  exact and_comm

/-- The first query block of a key block in a dispatch. -/
def firstBlock (qLo kblock : ℕ) : ℕ := max qLo (kblock * 32)

/-- The key whose id bounds a key block. -/
def ownerKey (n kblock : ℕ) : ℕ := min (kblock * 32 + 31) (n - 1)

/-- What one key block accumulates in one dispatch. -/
def blockPairs (row : IdRow n) (heads : Heads) (qLo qHi kblock : ℕ) : List (ℕ × ℕ × ℕ) :=
  accumulatedPairs n (accumulates (bwdDkvMma packedFlags row.get n heads qLo qHi kblock))

theorem blockPairs_eq : blockPairs row heads qLo qHi kblock =
    ((steps 32 (firstBlock qLo kblock) qHi).takeWhile fun b => !segBreaks packedFlags row.get n (kblock * 32) b).flatMap
      fun qb0 => accumulatedPairs n (dkvOps packedFlags row.get n heads qHi (kblock * 32) qb0) := by
  unfold blockPairs
  rw [accumulates_bwdDkvMma, accumulatedPairs_flatMap]
  rfl

theorem segBreaks_packed : segBreaks packedFlags row.get n (kblock * 32) qb0 = true ↔
    toUInt (row.get (ownerKey n kblock)) < toUInt (row.get qb0) := by
  simp only [segBreaks, bounded, packedFlags, ownerIndex, ownerKey, Bool.and_self, Bool.true_and, decide_eq_true_eq,
    Bool.false_eq_true, if_false]

/-- What a query block adds: each kept pair of its queries and the block's keys, once a q-head. -/
theorem count_queryBlock :
    (accumulatedPairs n (dkvOps packedFlags row.get n heads qHi (kblock * 32) qb0)).count (h, i, j) =
      if h ∈ heads.group ∧ (qb0 ≤ i ∧ i < qb0 + 32) ∧ (kblock * 32 ≤ j ∧ j < kblock * 32 + 32) ∧ i < qHi ∧ j < n ∧
        segmentAllowed row.get i j then 1 else 0 := by
  rw [count_dkvOps, count_dkvKept]
  by_cases hj : j < n
  · rw [keepKey_packed hj]
    simp only [hj, and_true, true_and, ← ite_and]
  · rw [if_neg (fun hall => hj hall.2), if_neg (fun hall => hj hall.2.2.2.2.1)]

theorem mem_queryBlock (hmem : (h, i, j) ∈ accumulatedPairs n
    (dkvOps packedFlags row.get n heads qHi (kblock * 32) qb0)) :
    h ∈ heads.group ∧ (qb0 ≤ i ∧ i < qb0 + 32) ∧ (kblock * 32 ≤ j ∧ j < kblock * 32 + 32) ∧ i < qHi ∧ j < n ∧
      segmentAllowed row.get i j := by
  have hpos := List.count_pos_iff.2 hmem
  rw [count_queryBlock] at hpos
  split at hpos
  · next hall => exact hall
  · exact absurd hpos (lt_irrefl 0)

theorem mem_blockPairs (hmem : (h, i, j) ∈ blockPairs row heads qLo qHi kblock) :
    (qLo ≤ i ∧ i < qHi) ∧ (kblock * 32 ≤ j ∧ j < kblock * 32 + 32) := by
  rw [blockPairs_eq, List.mem_flatMap] at hmem
  obtain ⟨qb0, hqb0, hmem⟩ := hmem
  have hin := (List.takeWhile_sublist _).subset hqb0
  have hlo := ((mem_steps (by decide)).1 hin).1
  obtain ⟨-, hi, hj, hhi, -, -⟩ := mem_queryBlock hmem
  unfold firstBlock at hlo
  exact ⟨by omega, hj⟩

/-- The break is right when the block's first query id is not negative, or the
owner's id is negative too. -/
def BreakSound (row : IdRow n) (qLo qHi kblock : ℕ) : Prop :=
  firstBlock qLo kblock < qHi → row.get (firstBlock qLo kblock) < 0 → row.get (ownerKey n kblock) < 0

/-- After a sound break nothing is kept: every id left is past the block's last. -/
theorem count_blockPairs (hhi : qHi ≤ n) (hsound : BreakSound row qLo qHi kblock) :
    (blockPairs row heads qLo qHi kblock).count (h, i, j) =
      if h ∈ heads.group ∧ (qLo ≤ i ∧ i < qHi) ∧ (kblock * 32 ≤ j ∧ j < kblock * 32 + 32) ∧ j < n ∧
        segmentAllowed row.get i j then 1 else 0 := by
  have hstep : (0 : ℕ) < 32 := by decide
  rw [blockPairs_eq, count_takeWhile_flatMap,
    count_flatMap_of_unique (firstBlock qLo kblock + (i - firstBlock qLo kblock) / 32 * 32) (nodup_steps hstep),
    count_queryBlock]
  · rw [← ite_and]
    refine if_congr ⟨?_, ?_⟩ rfl rfl
    · rintro ⟨hblock, hh, hi, hj, hiHi, hjn, hallowed⟩
      have hlo := ((mem_steps hstep).1 hblock).1
      unfold firstBlock at hlo hi
      exact ⟨hh, by omega, hj, hjn, hallowed⟩
    · rintro ⟨hh, hi, hj, hjn, hallowed⟩
      have hle := (segmentAllowed_iff.1 hallowed).2
      have hfirst : firstBlock qLo kblock ≤ i := by unfold firstBlock; omega
      exact ⟨mem_steps_block hstep hfirst hi.2, hh, by omega, hj, hi.2, hjn, hallowed⟩
  · intro b hb hmem
    obtain ⟨-, hi, -⟩ := mem_queryBlock hmem
    exact eq_of_block hstep hb hi.1 hi.2
  · intro b hb hmem
    obtain ⟨c, hc, hbreak, hle⟩ := exists_le_of_mem_dropWhile sorted_steps hb
    have hbreak := segBreaks_packed.1 (by simpa using hbreak)
    have hc := (mem_steps hstep).1 hc
    obtain ⟨-, hi, hj, hiHi, hjn, hallowed⟩ := mem_queryBlock hmem
    obtain ⟨hseg, -⟩ := segmentAllowed_iff.1 hallowed
    -- The break at `c` is the signed comparison, so every query from `c` on is past the block.
    have hsign : row.get c < 0 → row.get (ownerKey n kblock) < 0 := by
      intro hneg
      exact hsound (by omega) ((row.get_mono hc.1 (by omega)).trans_lt hneg)
    have hlt := lt_of_toUInt_lt (row.get_int32 c) (row.get_int32 _) hsign hbreak
    have hquery := row.get_mono (show c ≤ i by omega) (by omega)
    have hkey : row.get j ≤ row.get (ownerKey n kblock) :=
      row.get_mono (by unfold ownerKey; omega) (by unfold ownerKey; omega)
    omega

/-- An unsound break loses the block's own diagonal pair. -/
theorem count_blockPairs_lost (hhi : qHi ≤ n) (hunsound : ¬BreakSound row qLo qHi kblock) :
    firstBlock qLo kblock < qHi ∧ firstBlock qLo kblock < kblock * 32 + 32 ∧
      blockPairs row heads qLo qHi kblock = [] := by
  unfold BreakSound at hunsound
  rw [Classical.not_imp, Classical.not_imp, not_lt] at hunsound
  obtain ⟨hlt, hneg, hpos⟩ := hunsound
  refine ⟨hlt, ?_, ?_⟩
  · by_contra hpast
    have : row.get (ownerKey n kblock) ≤ row.get (firstBlock qLo kblock) :=
      row.get_mono (by unfold ownerKey; omega) (by omega)
    omega
  · have hbreak : segBreaks packedFlags row.get n (kblock * 32) (firstBlock qLo kblock) = true :=
      segBreaks_packed.2 (toUInt_lt_of_signs (row.get_int32 _) (row.get_int32 _) hneg hpos)
    rw [blockPairs_eq, steps_eq_cons (by decide) hlt, List.takeWhile_cons, hbreak]
    rfl

end Block

/-! ## The whole launch -/

section Launch
variable {n h i j : ℕ} {row : IdRow n} {heads : Heads} {ranges : List (ℕ × ℕ)} {r : ℕ × ℕ}

/-- A pair is accumulated in the dispatch of its query and the block of its key. -/
theorem count_launch (hranges : Tiles 0 n ranges) (hr : r ∈ ranges) (hi : r.1 ≤ i ∧ i < r.2) (hj : j < n) :
    (accumulatedPairs n (accumulates (launchBwdDkvMma packedFlags row.get n heads ranges))).count (h, i, j) =
      (blockPairs row heads r.1 r.2 (j / 32)).count (h, i, j) := by
  have hflat : accumulatedPairs n (accumulates (launchBwdDkvMma packedFlags row.get n heads ranges)) =
      ranges.flatMap fun r => (List.range ((n + 31) / 32)).flatMap (blockPairs row heads r.1 r.2) := by
    unfold launchBwdDkvMma
    rw [accumulates_flatMap, accumulatedPairs_flatMap]
    apply List.flatMap_congr
    intro r _
    rw [accumulates_flatMap, accumulatedPairs_flatMap]
    rfl
  have hblock : j / 32 ∈ List.range ((n + 31) / 32) := by
    rw [List.mem_range]
    omega
  rw [hflat, count_flatMap_of_unique r hranges.nodup, if_pos hr, count_flatMap_of_unique (j / 32) List.nodup_range,
    if_pos hblock]
  · intro kblock _ hmem
    have := (mem_blockPairs hmem).2
    omega
  · intro r' hr' hmem
    obtain ⟨kblock, -, hmem⟩ := List.mem_flatMap.1 hmem
    have := (mem_blockPairs hmem).1
    exact hranges.unique hr' hr this.1 this.2 hi.1 hi.2

theorem mem_launch (hmem : (h, i, j) ∈
    accumulatedPairs n (accumulates (launchBwdDkvMma packedFlags row.get n heads ranges))) :
    j < n ∧ ∃ r ∈ ranges, r.1 ≤ i ∧ i < r.2 := by
  unfold launchBwdDkvMma at hmem
  rw [accumulates_flatMap, accumulatedPairs_flatMap, List.mem_flatMap] at hmem
  obtain ⟨r, hr, hmem⟩ := hmem
  rw [accumulates_flatMap, accumulatedPairs_flatMap, List.mem_flatMap] at hmem
  obtain ⟨kblock, -, hmem⟩ := hmem
  refine ⟨?_, r, hr, (mem_blockPairs hmem).1⟩
  simp only [accumulatedPairs, List.mem_flatMap, List.mem_map, List.mem_filter, decide_eq_true_eq] at hmem
  obtain ⟨op, -, p, ⟨-, hp⟩, heq⟩ := hmem
  cases heq
  exact hp

theorem scalarKeep_packed {segId : ℕ → ℤ} : (causalKeep packedFlags i j &&
    (!packedFlags.packed || sameSegment packedFlags (segId i) (segId j))) = segmentAllowed segId i j := by
  rw [Bool.and_comm]
  rfl

/-- An owner key accumulates only its own pairs, for the queries of the dispatch. -/
theorem mem_bwdDkvScalar {qLo qHi key : ℕ} (hmem : (h, i, j) ∈ bwdDkvScalar packedFlags row.get heads qLo qHi key) :
    key = j ∧ qLo ≤ i ∧ i < qHi := by
  unfold bwdDkvScalar at hmem
  obtain ⟨i', hi', hmem⟩ := List.mem_flatMap.1 hmem
  rw [List.mem_range'_1] at hi'
  split at hmem
  · obtain ⟨h', -, heq⟩ := List.mem_map.1 hmem
    cases heq
    exact ⟨rfl, by omega, by omega⟩
  · cases hmem

theorem count_bwdDkvScalar {qLo qHi : ℕ} : (bwdDkvScalar packedFlags row.get heads qLo qHi j).count (h, i, j) =
    if h ∈ heads.group ∧ (qLo ≤ i ∧ i < qHi) ∧ segmentAllowed row.get i j then 1 else 0 := by
  have hinj : Function.Injective fun h : ℕ => (h, i, j) := fun a b heq => congrArg Prod.fst heq
  have hmap := List.count_map_of_injective heads.group (fun h : ℕ => (h, i, j)) hinj h
  have hrange : i ∈ List.range' qLo (qHi - qLo) ↔ qLo ≤ i ∧ i < qHi := by
    rw [List.mem_range'_1]
    omega
  unfold bwdDkvScalar
  rw [count_flatMap_of_unique i List.nodup_range', scalarKeep_packed]
  · cases hseg : segmentAllowed row.get i j with
    | true =>
      rw [if_pos rfl, hmap, List.Nodup.count (nodup_group heads), ← ite_and]
      exact if_congr ⟨fun hall => ⟨hall.2, hrange.1 hall.1, rfl⟩, fun hall => ⟨hrange.2 hall.2.1, hall.1⟩⟩ rfl rfl
    | false => simp
  · intro i' _ hmem
    split at hmem
    · obtain ⟨h', -, heq⟩ := List.mem_map.1 hmem
      cases heq
      rfl
    · cases hmem

/-- The scalar kernel accumulates exactly the allowed pairs, each once a q-head. -/
theorem count_scalar (hranges : Tiles 0 n ranges) :
    (launchBwdDkvScalar packedFlags row.get n heads ranges).count (h, i, j) =
      if h ∈ heads.group ∧ i < n ∧ segmentAllowed row.get i j then 1 else 0 := by
  unfold launchBwdDkvScalar
  rcases Nat.lt_or_ge i n with hin | hin
  · obtain ⟨r, hr, hlo, hhi⟩ := hranges.exists_mem (Nat.zero_le i) hin
    rw [count_flatMap_of_unique r hranges.nodup, if_pos hr, count_flatMap_of_unique j List.nodup_range,
      count_bwdDkvScalar, ← ite_and]
    · refine if_congr ⟨?_, ?_⟩ rfl rfl
      · rintro ⟨-, hh, -, hallowed⟩
        exact ⟨hh, hin, hallowed⟩
      · rintro ⟨hh, -, hallowed⟩
        exact ⟨List.mem_range.2 ((segmentAllowed_iff.1 hallowed).2.trans_lt hin), hh, ⟨hlo, hhi⟩, hallowed⟩
    · exact fun key _ hmem => (mem_bwdDkvScalar hmem).1
    · intro r' hr' hmem
      obtain ⟨key, -, hmem⟩ := List.mem_flatMap.1 hmem
      obtain ⟨-, h1, h2⟩ := mem_bwdDkvScalar hmem
      exact hranges.unique hr' hr h1 h2 hlo hhi
  · rw [if_neg (fun hall => by omega)]
    apply count_flatMap_eq_zero
    intro r hr hmem
    obtain ⟨key, -, hmem⟩ := List.mem_flatMap.1 hmem
    have := mem_bwdDkvScalar hmem
    have := hranges.bounds hr
    omega

end Launch

/-! ## Reads of `seg_id` -/

section Reads
variable {f : Flags} {segId : ℕ → ℤ} {n qLo qHi keyBase kblock qb0 i j index : ℕ} {heads : Heads} {blocks : List ℕ}

theorem mem_segReads {events : List DkvEvent} : index ∈ segReads events ↔ DkvEvent.readSeg index ∈ events := by
  unfold segReads
  rw [List.mem_flatMap]
  constructor
  · rintro ⟨ev, hev, hmem⟩
    cases ev with
    | readSeg index' => rwa [List.mem_singleton.1 hmem]
    | accumulate op => cases hmem
  · exact fun h => ⟨_, h, List.mem_singleton.2 rfl⟩

theorem readSeg_elementReads (hn : 1 ≤ n) (hhi : qHi ≤ n)
    (h : DkvEvent.readSeg index ∈ elementReads f n qHi i j) : index < n := by
  unfold elementReads at h
  split at h
  · next hin =>
    simp only [Bool.and_eq_true, decide_eq_true_eq] at hin
    simp only [List.mem_cons, DkvEvent.readSeg.injEq, List.not_mem_nil, or_false] at h
    omega
  · cases h

theorem readSeg_dkvBody (hn : 1 ≤ n) (hhi : qHi ≤ n)
    (h : DkvEvent.readSeg index ∈ dkvBody f segId n heads qHi keyBase qb0) : index < n := by
  unfold dkvBody at h
  obtain ⟨q, -, h⟩ := List.mem_flatMap.1 h
  rcases List.mem_append.1 h with h | h
  · obtain ⟨p, -, h⟩ := List.mem_flatMap.1 h
    exact readSeg_elementReads hn hhi h
  · cases List.mem_singleton.1 h

theorem readSeg_queryLoop (hn : 1 ≤ n) (hhi : qHi ≤ n) (hblocks : ∀ b ∈ blocks, b < n)
    (h : DkvEvent.readSeg index ∈ queryLoop f segId n heads qHi keyBase blocks) : index < n := by
  induction blocks with
  | nil => cases h
  | cons b blocks ih =>
    rw [queryLoop] at h
    rcases List.mem_append.1 h with h | h
    · split at h
      · cases List.mem_singleton.1 h
        exact hblocks index List.mem_cons_self
      · cases h
    · split at h
      · cases h
      · rcases List.mem_append.1 h with h | h
        · exact readSeg_dkvBody hn hhi h
        · exact ih (fun c hc => hblocks c (List.mem_cons_of_mem _ hc)) h

theorem readSeg_bwdDkvMma (hn : 1 ≤ n) (hhi : qHi ≤ n)
    (h : DkvEvent.readSeg index ∈ bwdDkvMma f segId n heads qLo qHi kblock) : index < n := by
  unfold bwdDkvMma at h
  rcases List.mem_append.1 h with h | h
  · split at h
    · cases List.mem_singleton.1 h
      unfold ownerIndex
      omega
    · cases h
  · refine readSeg_queryLoop hn hhi (fun b hb => ?_) h
    have := (mem_steps (by decide)).1 hb
    omega

/-- No launch reads `seg_id` past the row. -/
theorem segReads_lt {ranges : List (ℕ × ℕ)} (hn : 1 ≤ n) (hranges : Tiles 0 n ranges) :
    ∀ index ∈ segReads (launchBwdDkvMma f segId n heads ranges), index < n := by
  intro index h
  rw [mem_segReads] at h
  unfold launchBwdDkvMma at h
  obtain ⟨r, hr, h⟩ := List.mem_flatMap.1 h
  obtain ⟨kblock, -, h⟩ := List.mem_flatMap.1 h
  exact readSeg_bwdDkvMma hn (hranges.bounds hr).2.2 h

end Reads

/-- The packed launch accumulates exactly the allowed pairs, each once a q-head,
as the scalar launch does, and reads no id past the row. -/
def DkvCovers {n : ℕ} (row : IdRow n) (heads : Heads) (ranges : List (ℕ × ℕ)) : Prop :=
  (∀ h i j, (accumulatedPairs n (accumulates (launchBwdDkvMma packedFlags row.get n heads ranges))).count (h, i, j) =
    if h ∈ heads.group ∧ i < n ∧ segmentAllowed row.get i j then 1 else 0) ∧
  (∀ h i j, (accumulatedPairs n (accumulates (launchBwdDkvMma packedFlags row.get n heads ranges))).count (h, i, j) =
    (launchBwdDkvScalar packedFlags row.get n heads ranges).count (h, i, j)) ∧
  ∀ index ∈ segReads (launchBwdDkvMma packedFlags row.get n heads ranges), index < n

section Covers
variable {n : ℕ} {row : IdRow n} {heads : Heads} {ranges : List (ℕ × ℕ)}

theorem count_of_breakSound (hranges : Tiles 0 n ranges)
    (hsound : ∀ r ∈ ranges, ∀ kblock, kblock * 32 < n → BreakSound row r.1 r.2 kblock) (h i j : ℕ) :
    (accumulatedPairs n (accumulates (launchBwdDkvMma packedFlags row.get n heads ranges))).count (h, i, j) =
      if h ∈ heads.group ∧ i < n ∧ segmentAllowed row.get i j then 1 else 0 := by
  by_cases hin : i < n ∧ j < n
  · obtain ⟨r, hr, hlo, hhi⟩ := hranges.exists_mem (Nat.zero_le i) hin.1
    rw [count_launch hranges hr ⟨hlo, hhi⟩ hin.2,
      count_blockPairs (hranges.bounds hr).2.2 (hsound r hr (j / 32) (by omega))]
    refine if_congr ⟨?_, ?_⟩ rfl rfl
    · rintro ⟨hh, -, -, -, hallowed⟩
      exact ⟨hh, hin.1, hallowed⟩
    · rintro ⟨hh, -, hallowed⟩
      exact ⟨hh, ⟨hlo, hhi⟩, by omega, hin.2, hallowed⟩
  · rw [List.count_eq_zero.2, if_neg]
    · rintro ⟨-, hi, hallowed⟩
      exact hin ⟨hi, (segmentAllowed_iff.1 hallowed).2.trans_lt hi⟩
    · intro hmem
      obtain ⟨hj, r, hr, -, hi⟩ := mem_launch hmem
      exact hin ⟨hi.trans_le (hranges.bounds hr).2.2, hj⟩

end Covers

/-- The packed dK/dV launch covers the allowed pairs exactly when no dispatch
starts a key block on a negative id while the block's owner id is not negative. -/
theorem dkvCovers_iff {n : ℕ} (hn : 1 ≤ n) (row : IdRow n) (heads : Heads) (ranges : List (ℕ × ℕ))
    (hranges : Tiles 0 n ranges) :
    DkvCovers row heads ranges ↔ ∀ r ∈ ranges, ∀ kblock, kblock * 32 < n → BreakSound row r.1 r.2 kblock := by
  constructor
  · intro hcovers r hr kblock hkblock
    by_contra hunsound
    obtain ⟨h, hh⟩ := group_nonempty heads
    have hend := (hranges.bounds hr).2.2
    obtain ⟨hlt, hin, hnil⟩ := @count_blockPairs_lost n r.1 r.2 kblock row heads hend hunsound
    have hfirst : r.1 ≤ firstBlock r.1 kblock ∧ kblock * 32 ≤ firstBlock r.1 kblock := by
      unfold firstBlock
      omega
    have hblock : firstBlock r.1 kblock / 32 = kblock := by omega
    have hdiag : segmentAllowed row.get (firstBlock r.1 kblock) (firstBlock r.1 kblock) = true :=
      segmentAllowed_iff.2 ⟨rfl, le_refl _⟩
    have hcount := hcovers.1 h (firstBlock r.1 kblock) (firstBlock r.1 kblock)
    rw [count_launch hranges hr ⟨hfirst.1, hlt⟩ (by omega), hblock, hnil, if_pos ⟨hh, by omega, hdiag⟩] at hcount
    cases hcount
  · intro hsound
    have hcount := fun h i j => @count_of_breakSound n row heads ranges hranges hsound h i j
    refine ⟨hcount, fun h i j => ?_, segReads_lt hn hranges⟩
    rw [hcount, count_scalar hranges]

/-- One kv head with one q-head. -/
def oneHead : Heads := ⟨1, 1, 0, by decide, by decide, by decide, by decide⟩

def zeroOne : IdRow 2 := ⟨[0, 1], rfl, by unfold IsInt32; decide, by decide⟩

theorem dkvCovers_zeroOne : DkvCovers zeroOne oneHead [(0, 1), (1, 2)] := by
  rw [dkvCovers_iff (by decide) zeroOne oneHead [(0, 1), (1, 2)] (by decide)]
  intro r hr kblock hk
  obtain rfl : kblock = 0 := by omega
  fin_cases hr <;> exact fun _ hneg => absurd hneg (by decide)

def minusZero : IdRow 2 := ⟨[-1, 0], rfl, by unfold IsInt32; decide, by decide⟩

/-- The ids `[-1, 0]` are sorted and int32, and the launch accumulates nothing at all. -/
theorem not_dkvCovers_minusZero : ¬DkvCovers minusZero oneHead [(0, 2)] := by
  intro hcovers
  have hcount := hcovers.1 0 0 0
  revert hcount
  decide

end MlxTrainPerf.Attention.Kernel
