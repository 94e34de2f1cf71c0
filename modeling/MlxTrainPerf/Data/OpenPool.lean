import MlxTrainPerf.Data.PackIndices
/-!
# The packs the scan keeps open

A pack is closed when at most one slot is left in it, but only where a sequence was
appended: a new pack stays open whatever its first sequence leaves. Such a pack can
take nothing, and holds a place in the pool until eight later packs push it out.
-/

namespace MlxTrainPerf.Packing

/-- Every open pack has room for one more sequence and its pad slot. -/
def Pool.Useful (p : Pool) : Prop := ∀ j ∈ p.openPacks, 2 ≤ p.roomOf j

/-- What a turn from `p` to `p'` promises: the open packs are useful, and a pack is
pushed out of the pool only by `openPool` other packs that are. -/
structure UsefulTurn (p p' : Pool) : Prop where
  useful : p'.Useful
  evicts : p.packs.length < p'.packs.length → ∀ j ∈ p.openPacks, j ∉ p'.openPacks →
    ∃ others : Finset ℕ, others.card = openPool ∧ j ∉ others ∧ ∀ k ∈ others, k ∈ p'.openPacks ∧ 2 ≤ p'.roomOf k

section OpenPool
variable {lengths order seen : List ℕ} {packLen i j : ℕ} {p : Pool}

/-- The open packs are numbered apart. -/
theorem openPacks_nodup : (packRun lengths packLen seen).openPacks.Nodup := by
  induction seen using List.reverseRecOn with
  | nil => exact List.nodup_nil
  | append_singleton seen i ih =>
    have hi := packRun_inv lengths packLen seen
    rw [packRun_append, packStep]
    cases firstFit (packRun lengths packLen seen) (cost lengths packLen i) with
    | some j => exact ih.sublist openPacks_placeInto
    | none =>
      refine List.Nodup.sublist openPacks_openNew.1 (List.nodup_append.2 ⟨ih, List.nodup_singleton _, ?_⟩)
      intro k hk l hl
      rw [List.mem_singleton] at hl
      exact ne_of_lt (hl ▸ hi.open_lt k hk)

/-! ## Where every sequence leaves room -/

theorem placeInto_useful {c : ℕ} (hlen : p.room.length = p.packs.length) (hlt : ∀ k ∈ p.openPacks, k < p.packs.length)
    (hnd : p.openPacks.Nodup) (hu : p.Useful) : (placeInto p c i j).Useful := by
  intro k hk
  have hko := openPacks_placeInto.subset hk
  rw [roomOf_placeInto (hlen ▸ hlt k hko)]
  split
  · next hjk =>
    subst hjk
    -- a pack with at most one slot left is no longer open
    by_contra hroom
    rw [placeInto] at hk
    dsimp only at hk
    rw [if_pos (by omega)] at hk
    exact (hnd.mem_erase_iff.1 hk).1 rfl
  · exact hu k hko

theorem openNew_useful (hlen : p.room.length = p.packs.length) (hlt : ∀ k ∈ p.openPacks, k < p.packs.length)
    (hu : p.Useful) (hfit : cost lengths packLen i + 1 ≤ packLen) :
    (openNew p (packLen + 1 : ℕ) (cost lengths packLen i) i).Useful := by
  intro k hk
  rcases List.mem_append.1 (openPacks_openNew.1.subset hk) with hk | hk
  · rw [(openNew_old hlen (hlt k hk)).2]
    exact hu k hk
  · rw [List.mem_singleton.1 hk, (openNew_new hlen).2]
    omega

/-- A sequence with `n + 2 ≤ packLen` tokens leaves two slots in a pack of its own. -/
theorem cost_lt_of_mem (hfit : ∀ n ∈ lengths, n + 2 ≤ packLen) (hi : i < lengths.length) :
    cost lengths packLen i + 1 ≤ packLen := by
  have h := hfit _ (List.getElem_mem hi)
  rw [cost, List.getD_eq_getElem _ _ hi]
  omega

theorem packRun_useful (hfit : ∀ n ∈ lengths, n + 2 ≤ packLen) (hseen : ∀ i ∈ seen, i < lengths.length) :
    (packRun lengths packLen seen).Useful := by
  induction seen using List.reverseRecOn with
  | nil => simp [packRun, Pool.Useful, Pool.empty]
  | append_singleton seen i ih =>
    have hi := packRun_inv lengths packLen seen
    have hu := ih fun k hk => hseen k (List.mem_append_left _ hk)
    rw [packRun_append, packStep]
    cases firstFit (packRun lengths packLen seen) (cost lengths packLen i) with
    | some j => exact placeInto_useful hi.room_length hi.open_lt openPacks_nodup hu
    | none => exact openNew_useful hi.room_length hi.open_lt hu (cost_lt_of_mem hfit (hseen i (by simp)))

/-- The pack pushed out leaves a full pool behind. -/
theorem length_of_evicted {capacity : ℤ} {c : ℕ} (hj : j ∈ p.openPacks) (hout : j ∉ (openNew p capacity c i).openPacks) :
    openPool ≤ (openNew p capacity c i).openPacks.length := by
  simp only [openNew] at hout ⊢
  split_ifs at hout ⊢ with hfull
  · rw [List.length_tail]
    omega
  · exact absurd (List.mem_append_left _ hj) hout

theorem packStep_usefulTurn (hu : (packRun lengths packLen (seen ++ [i])).Useful) :
    UsefulTurn (packRun lengths packLen seen) (packRun lengths packLen (seen ++ [i])) := by
  refine ⟨hu, fun hnew j hj hout => ?_⟩
  have hnd : (packRun lengths packLen (seen ++ [i])).openPacks.Nodup := openPacks_nodup
  have hpool := (packRun_inv lengths packLen (seen ++ [i])).pool
  have hfull : openPool ≤ (packRun lengths packLen (seen ++ [i])).openPacks.length := by
    rw [packRun_append, packStep] at hnew hout ⊢
    cases hf : firstFit (packRun lengths packLen seen) (cost lengths packLen i) with
    | some k =>
      rw [hf] at hnew
      simp at hnew
    | none =>
      rw [hf] at hout
      exact length_of_evicted hj hout
  refine ⟨(packRun lengths packLen (seen ++ [i])).openPacks.toFinset, ?_, by simpa using hout, fun k hk => ?_⟩
  · rw [List.toFinset_card_of_nodup hnd]
    omega
  · rw [List.mem_toFinset] at hk
    exact ⟨hk, hu k hk⟩

/-! ## A sequence that fills a pack -/

/-- Every sequence takes two slots, so a pack that holds one cannot take a sequence of
`packLen` slots. -/
theorem firstFit_eq_none (hpos : ∀ n ∈ lengths, 1 ≤ n) (hlen : 1 ≤ packLen) (hseen : ∀ i ∈ seen, i < lengths.length)
    (hc : packLen ≤ cost lengths packLen i) :
    firstFit (packRun lengths packLen seen) (cost lengths packLen i) = none := by
  have hinv := packRun_inv lengths packLen seen
  rw [firstFit, List.find?_eq_none]
  intro j hj
  have hlt := hinv.open_lt j hj
  obtain ⟨k, rest, hpack⟩ := List.exists_cons_of_ne_nil (hinv.nonempty j hlt)
  have hk : k < lengths.length := by
    refine hseen k (hinv.placed.subset (List.mem_flatten.2 ⟨(packRun lengths packLen seen).packOf j, ?_, ?_⟩))
    · rw [Pool.packOf, List.getD_eq_getElem _ _ hlt]
      exact List.getElem_mem hlt
    · rw [hpack]
      exact List.mem_cons_self ..
  have hcost : 2 ≤ cost lengths packLen k := by
    have := hpos _ (List.getElem_mem hk)
    rw [cost, List.getD_eq_getElem _ _ hk]
    omega
  have hroom := hinv.room_eq j hlt
  rw [hpack, packCost, List.map_cons, List.sum_cons] at hroom
  rw [decide_eq_true_iff]
  omega

/-- The pack such a sequence opens is open, and can take nothing. -/
theorem not_useful_of_long (hpos : ∀ n ∈ lengths, 1 ≤ n) (hlen : 1 ≤ packLen) (hseen : ∀ i ∈ seen, i < lengths.length)
    (hc : packLen ≤ cost lengths packLen i) : ¬ (packRun lengths packLen (seen ++ [i])).Useful := by
  have hinv := packRun_inv lengths packLen seen
  intro hu
  rw [packRun_append, packStep, firstFit_eq_none hpos hlen hseen hc] at hu
  have hmem : (packRun lengths packLen seen).packs.length ∈
      (openNew (packRun lengths packLen seen) (packLen + 1 : ℕ) (cost lengths packLen i) i).openPacks := by
    simp only [openNew]
    split_ifs with hfull
    · rw [List.tail_append_of_ne_nil (by rintro hnil; rw [hnil] at hfull; simp [openPool] at hfull)]
      exact List.mem_append_right _ (List.mem_singleton_self _)
    · exact List.mem_append_right _ (List.mem_singleton_self _)
  have hroom := hu _ hmem
  rw [(openNew_new hinv.room_length).2] at hroom
  omega

/-- Every turn of the scan keeps the pool useful exactly when every sequence is at least
two tokens shorter than a pack. -/
theorem packRun_usefulTurns_iff (hpos : ∀ n ∈ lengths, 1 ≤ n) (hlen : 1 ≤ packLen)
    (horder : order.Perm (List.range lengths.length)) :
    (∀ seen i rest, order = seen ++ i :: rest →
        UsefulTurn (packRun lengths packLen seen) (packRun lengths packLen (seen ++ [i]))) ↔
      ∀ n ∈ lengths, n + 2 ≤ packLen := by
  have hlt : ∀ i ∈ order, i < lengths.length := fun i hi => List.mem_range.1 (horder.subset hi)
  constructor
  · intro h n hn
    by_contra hlong
    obtain ⟨i, hi, rfl⟩ := List.mem_iff_getElem.1 hn
    obtain ⟨seen, rest, rfl⟩ := List.append_of_mem (horder.symm.subset (List.mem_range.2 hi))
    refine not_useful_of_long hpos hlen (fun k hk => hlt k (List.mem_append_left _ hk)) ?_ (h seen i rest rfl).useful
    rw [cost, List.getD_eq_getElem _ _ hi]
    omega
  · rintro hfit seen i rest rfl
    refine packStep_usefulTurn (packRun_useful hfit fun k hk => hlt k ?_)
    rw [← List.singleton_append, ← List.append_assoc]
    exact List.mem_append_left _ hk

theorem packRun_usefulTurns_iff_two :
    (∀ seen i rest, [1, 0] = seen ++ i :: rest →
        UsefulTurn (packRun [1, 2] 4 seen) (packRun [1, 2] 4 (seen ++ [i]))) ↔ ∀ n ∈ [1, 2], n + 2 ≤ 4 :=
  packRun_usefulTurns_iff (by decide) (by decide) (by decide)

/-- One sequence as long as a pack leaves a full pack open. -/
theorem packRun_full_pack_open :
    ¬ ∀ seen i rest, [0] = seen ++ i :: rest →
      UsefulTurn (packRun [3] 3 seen) (packRun [3] 3 (seen ++ [i])) := by
  intro h
  have hroom := (h [] 0 [] rfl).useful 0 (by decide)
  exact absurd hroom (by decide)

end OpenPool

end MlxTrainPerf.Packing
