import MlxTrainPerf.Lib.Neighbours
import MlxTrainPerf.Data.PackIndices
/-!
# How many packs

A pack that is opened finds its predecessor either closed for being full or without
room for its first sequence; and packs only grow. So no two neighbouring packs would
have fitted one row, and the packer makes less than twice the packs that any packing
of the same sequences needs, whatever the order of the visit and however many packs
fell out of the pool.
-/
open PyList

namespace MlxTrainPerf.Packing

/-- After any prefix of the visit: neighbours overflow a row, and the newest pack is open or full. -/
structure Crowded (lengths : List ℕ) (packLen : ℕ) (p : Pool) : Prop where
  neighbours : ∀ j, j + 1 < p.packs.length →
    packLen + 1 < packCost lengths packLen (p.packOf j) + packCost lengths packLen (p.packOf (j + 1))
  newest : ∀ j, j + 1 = p.packs.length → j ∈ p.openPacks ∨ p.roomOf j ≤ 1

section Turns
variable {lengths seen : List ℕ} {packLen i j : ℕ} {p : Pool}

theorem packCost_single : packCost lengths packLen [i] = cost lengths packLen i := by
  unfold packCost
  rw [List.map_singleton, List.sum_singleton]

/-- A sequence takes two slots at least. -/
theorem two_le_cost (hpos : ∀ n ∈ lengths, 1 ≤ n) (hlen : 1 ≤ packLen) (hi : i < lengths.length) :
    2 ≤ cost lengths packLen i := by
  have hlength := hpos _ (List.getElem_mem hi)
  unfold cost
  rw [List.getD_eq_getElem _ _ hi]
  omega

theorem packCost_placeInto_le {k : ℕ} (hk : k < p.packs.length) {c : ℕ} :
    packCost lengths packLen (p.packOf k) ≤ packCost lengths packLen ((placeInto p c i j).packOf k) := by
  rw [packOf_placeInto hk]
  split
  · rw [packCost_append]
    exact Nat.le_add_right _ _
  · exact le_refl _

theorem placeInto_crowded (hi : PoolInv lengths packLen p seen) (hc : Crowded lengths packLen p) {c : ℕ} :
    Crowded lengths packLen (placeInto p c i j) where
  neighbours := by
    intro k hk
    rw [length_packs_placeInto] at hk
    have hfirst := @packCost_placeInto_le lengths packLen i j p k (by omega) c
    have hsecond := @packCost_placeInto_le lengths packLen i j p (k + 1) hk c
    have hbefore := hc.neighbours k hk
    omega
  newest := by
    intro k hk
    rw [length_packs_placeInto] at hk
    have hroom := @roomOf_placeInto i j p c k (by rw [hi.room_length]; omega)
    rcases hc.newest k hk with hopen | hfull
    · by_cases hjk : j = k
      · subst hjk
        rw [if_pos rfl] at hroom
        by_cases hclosed : p.roomOf j - c ≤ 1
        · exact Or.inr (hroom.trans_le hclosed)
        · refine Or.inl ?_
          unfold placeInto
          dsimp only
          rwa [if_neg hclosed]
      · refine Or.inl ?_
        unfold placeInto
        dsimp only
        split
        · exact (List.mem_erase_of_ne (Ne.symm hjk)).2 hopen
        · exact hopen
    · refine Or.inr ?_
      rw [hroom]
      split
      · omega
      · exact hfull

/-- The new pack is open, whatever falls out of the pool. -/
theorem mem_openPacks_openNew {capacity : ℤ} {c : ℕ} : p.packs.length ∈ (openNew p capacity c i).openPacks := by
  unfold openNew
  dsimp only
  split
  · next hfull =>
    rw [List.length_append, List.length_singleton] at hfull
    have hne : p.openPacks ≠ [] := by
      rintro hnil
      rw [hnil] at hfull
      exact absurd hfull (by decide)
    rw [List.tail_append_of_ne_nil hne]
    exact List.mem_append_right _ (List.mem_singleton_self _)
  · exact List.mem_append_right _ (List.mem_singleton_self _)

theorem openNew_crowded (hi : PoolInv lengths packLen p seen) (hc : Crowded lengths packLen p)
    (htwo : 2 ≤ cost lengths packLen i) (hnone : firstFit p (cost lengths packLen i) = none) :
    Crowded lengths packLen (openNew p (packLen + 1 : ℕ) (cost lengths packLen i) i) where
  neighbours := by
    intro k hk
    rw [length_packs_openNew] at hk
    have hold := (@openNew_old i p (packLen + 1 : ℕ) (cost lengths packLen i) k hi.room_length (by omega)).1
    rw [hold]
    rcases Nat.lt_or_ge (k + 1) p.packs.length with hin | hlast
    · rw [(openNew_old hi.room_length hin).1]
      exact hc.neighbours k hin
    · obtain hlast : k + 1 = p.packs.length := by omega
      rw [hlast, (openNew_new hi.room_length).1, packCost_single]
      have hroom := hi.room_eq k (by omega)
      -- The pack before the new one: first fit found no room in it, or it was closed, with one slot left at most.
      rcases hc.newest k hlast with hopen | hfull
      · have hshort := firstFit_none hnone k hopen
        omega
      · omega
  newest := by
    intro k hk
    rw [length_packs_openNew] at hk
    obtain rfl : k = p.packs.length := by omega
    exact Or.inl mem_openPacks_openNew

theorem packStep_crowded (hi : PoolInv lengths packLen p seen) (hc : Crowded lengths packLen p)
    (htwo : 2 ≤ cost lengths packLen i) : Crowded lengths packLen (packStep lengths packLen p i) := by
  unfold packStep
  cases hf : firstFit p (cost lengths packLen i) with
  | some j => exact placeInto_crowded hi hc
  | none => exact openNew_crowded hi hc htwo hf

end Turns

/-- The packs are crowded after every prefix of every order. -/
theorem packRun_crowded {lengths : List ℕ} {packLen : ℕ} (hpos : ∀ n ∈ lengths, 1 ≤ n) (hlen : 1 ≤ packLen)
    (seen : List ℕ) (hseen : ∀ i ∈ seen, i < lengths.length) : Crowded lengths packLen (packRun lengths packLen seen) := by
  induction seen using List.reverseRecOn with
  | nil => exact ⟨fun j hj => absurd hj (Nat.not_lt_zero _), fun j hj => absurd hj (Nat.succ_ne_zero j)⟩
  | append_singleton seen i ih =>
    rw [packRun_append]
    apply packStep_crowded (packRun_inv _ _ _) (ih fun j hj => hseen j (List.mem_append_left _ hj))
    exact two_le_cost hpos hlen (hseen i (List.mem_append_right _ (List.mem_singleton_self i)))

section Packs
variable {lengths : List ℕ} {packLen : ℕ} {packs : List (List ℕ)}

/-- Slots of all packs together, by the sequences they hold. -/
theorem sum_packCost (packs : List (List ℕ)) :
    (packs.map (packCost lengths packLen)).sum = (packs.flatten.map (cost lengths packLen)).sum := by
  rw [List.map_flatten, List.sum_flatten, List.map_map]
  rfl

theorem sum_le_capacity (hfit : ∀ pack ∈ packs, packCost lengths packLen pack ≤ packLen + 1) :
    (packs.map (packCost lengths packLen)).sum ≤ packs.length * (packLen + 1) := by
  have hle := List.sum_le_card_nsmul (packs.map (packCost lengths packLen)) (packLen + 1) (by simpa using hfit)
  rwa [List.length_map, smul_eq_mul] at hle

/-- What the packer was given. -/
theorem lengths_pos {shuffle : Shuffle} {seed : ℤ} {epoch : ℕ}
    (h : packIndices shuffle lengths packLen seed epoch = .ok packs) : ∀ n ∈ lengths, 1 ≤ n := by
  unfold packIndices at h
  split_ifs at h with hlen hempty hzero
  intro n hn
  by_contra hlt
  exact hzero (List.any_eq_true.2 ⟨n, hn, decide_eq_true (not_le.1 hlt)⟩)

end Packs

/-- No two neighbouring packs fit one row; and there are less than twice the packs of any other packing of the same
sequences into rows. -/
theorem pack_indices_within_twice (shuffle : Shuffle) (lengths : List ℕ) (packLen : ℕ) (seed : ℤ) (epoch : ℕ)
    (packs : List (List ℕ)) (hpacks : packIndices shuffle lengths packLen seed epoch = .ok packs)
    (hshuffle : (shuffle seed epoch (List.range lengths.length)).Perm (List.range lengths.length)) :
    packs.IsChain (fun pack next => packLen + 1 < packCost lengths packLen pack + packCost lengths packLen next) ∧
      ∀ other : List (List ℕ), other.flatten.Perm (List.range lengths.length) →
        (∀ pack ∈ other, packCost lengths packLen pack ≤ packLen + 1) → packs.length ≤ 2 * other.length - 1 := by
  obtain ⟨hlen, -, hrun⟩ := of_packIndices hpacks
  have hpos := lengths_pos hpacks
  have hvisited : ∀ i ∈ shuffle seed epoch (List.range lengths.length), i < lengths.length := by
    intro i hi
    exact List.mem_range.1 (hshuffle.subset hi)
  have hinv := packRun_inv lengths packLen (shuffle seed epoch (List.range lengths.length))
  have hcrowded := packRun_crowded hpos hlen _ hvisited
  have hchain : packs.IsChain fun pack next => packLen + 1 < packCost lengths packLen pack + packCost lengths packLen next := by
    rw [List.isChain_iff_getElem]
    intro j hj
    rw [hrun] at hj
    have hoverflow := hcrowded.neighbours j hj
    unfold Pool.packOf at hoverflow
    rw [List.getD_eq_getElem _ _ (by omega), List.getD_eq_getElem _ _ hj] at hoverflow
    subst hrun
    exact hoverflow
  refine ⟨hchain, ?_⟩
  intro other hother hfit
  -- Both packings hold the same slots, and any two neighbours hold more than a row.
  have hsame : (packs.map (packCost lengths packLen)).sum = (other.map (packCost lengths packLen)).sum := by
    rw [sum_packCost, sum_packCost, hrun]
    exact ((hinv.placed.trans hshuffle).trans hother.symm |>.map _).sum_eq
  have hbound := @Neighbours.length_le (packLen + 1) other.length (packs.map (packCost lengths packLen)) ?_
    ((List.isChain_map _).2 hchain) (hsame.trans_le (sum_le_capacity hfit))
  · rwa [List.length_map] at hbound
  · intro x hx
    obtain ⟨pack, hpack, rfl⟩ := List.mem_map.1 hx
    rw [hrun] at hpack
    obtain ⟨i, rest, rfl⟩ := List.exists_cons_of_ne_nil (mem_packs hinv hpack).1
    unfold packCost
    rw [List.map_cons, List.sum_cons]
    unfold cost
    omega

/-- Two short sequences before two long ones: three packs, where two rows would do, and the bound is met. -/
theorem pack_indices_within_twice_met : ∃ packs, packIndices (fun _ _ order => order) [1, 1, 3, 3] 5 0 0 = .ok packs ∧
    packs.length = 3 ∧ packs.length ≤ 2 * [[0, 2], [1, 3]].length - 1 := by
  have hpacks : packIndices (fun _ _ order => order) [1, 1, 3, 3] 5 0 0 = .ok [[0, 1], [2], [3]] := by decide
  exact ⟨_, hpacks, rfl, (pack_indices_within_twice (fun _ _ order => order) [1, 1, 3, 3] 5 0 0 _ hpacks (by decide)).2
    [[0, 2], [1, 3]] (by decide) (by decide)⟩

end MlxTrainPerf.Packing
