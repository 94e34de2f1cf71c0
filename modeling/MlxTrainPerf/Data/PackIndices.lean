import MlxTrainPerf.Data.Packing
/-!
# What the packer keeps

`PoolInv` holds after any prefix of the visiting order: the packs hold exactly
the visited indices, `room` is the free space of each pack, no pack is
overfull, and at most `openPool` packs are open. It is kept by the two things
a turn can do (`placeInto`, `openNew`), so it holds after every turn.
-/
open PyList

namespace MlxTrainPerf.Packing

/-! ## Lists of packs -/

theorem flatten_modify_append {packs : List (List ℕ)} {j : ℕ} (hj : j < packs.length) (i : ℕ) :
    (packs.modify j (· ++ [i])).flatten.Perm (i :: packs.flatten) := by
  induction packs generalizing j with
  | nil => cases hj
  | cons p ps ih =>
    cases j with
    | zero =>
      simp only [List.modify_zero_cons, List.flatten_cons, List.append_assoc, List.singleton_append]
      exact List.perm_middle
    | succ j =>
      simp only [List.modify_succ_cons, List.flatten_cons]
      exact ((ih (Nat.lt_of_succ_lt_succ hj)).append_left p).trans List.perm_middle

theorem packCost_append (lengths : List ℕ) (packLen : ℕ) (pack : List ℕ) (i : ℕ) :
    packCost lengths packLen (pack ++ [i]) = packCost lengths packLen pack + cost lengths packLen i := by
  simp [packCost]

/-! ## The invariant -/

/-- After visiting the indices `seen`. -/
structure PoolInv (lengths : List ℕ) (packLen : ℕ) (p : Pool) (seen : List ℕ) : Prop where
  placed : p.packs.flatten.Perm seen
  room_length : p.room.length = p.packs.length
  room_eq : ∀ j < p.packs.length, p.roomOf j = (packLen + 1 : ℕ) - (packCost lengths packLen (p.packOf j) : ℤ)
  fits : ∀ j < p.packs.length, packCost lengths packLen (p.packOf j) ≤ packLen + 1
  nonempty : ∀ j < p.packs.length, p.packOf j ≠ []
  open_lt : ∀ j ∈ p.openPacks, j < p.packs.length
  pool : p.openPacks.length ≤ openPool

section Inv
variable {lengths seen : List ℕ} {packLen i j : ℕ} {p : Pool}

theorem empty_inv : PoolInv lengths packLen .empty [] := by
  constructor <;> simp [Pool.empty]

theorem cost_le : cost lengths packLen i ≤ packLen + 1 := by
  unfold cost
  omega

theorem firstFit_some (h : firstFit p (cost lengths packLen i) = some j) :
    j ∈ p.openPacks ∧ (cost lengths packLen i : ℤ) ≤ p.roomOf j :=
  ⟨List.mem_of_find?_eq_some h, by simpa using List.find?_some h⟩

theorem firstFit_none (h : firstFit p (cost lengths packLen i) = none) :
    ∀ j ∈ p.openPacks, p.roomOf j < cost lengths packLen i := by
  intro j hj
  simpa using List.find?_eq_none.1 h j hj

/-! ## What one turn does to the packs -/

section Place
variable {c k : ℕ}

@[simp] theorem length_packs_placeInto : (placeInto p c i j).packs.length = p.packs.length := List.length_modify ..

theorem packOf_placeInto (hk : k < p.packs.length) :
    (placeInto p c i j).packOf k = if j = k then p.packOf k ++ [i] else p.packOf k := getD_modify _ _ hk _

theorem roomOf_placeInto (hk : k < p.room.length) :
    (placeInto p c i j).roomOf k = if j = k then p.roomOf k - c else p.roomOf k := getD_modify _ _ hk _

theorem openPacks_placeInto : (placeInto p c i j).openPacks.Sublist p.openPacks := by
  unfold placeInto
  dsimp only
  split
  · exact List.erase_sublist
  · exact .refl _

end Place

section New
variable {capacity : ℤ} {c k : ℕ}

@[simp] theorem length_packs_openNew : (openNew p capacity c i).packs.length = p.packs.length + 1 := by
  simp [openNew]

/-- The packs before the new one are untouched. -/
theorem openNew_old (hlen : p.room.length = p.packs.length) (hk : k < p.packs.length) :
    (openNew p capacity c i).packOf k = p.packOf k ∧ (openNew p capacity c i).roomOf k = p.roomOf k := by
  have hk' : k < p.room.length := hlen ▸ hk
  simp [openNew, Pool.packOf, Pool.roomOf, List.getElem?_append, hk, hk']

/-- The new pack holds `i` alone. -/
theorem openNew_new (hlen : p.room.length = p.packs.length) :
    (openNew p capacity c i).packOf p.packs.length = [i] ∧
      (openNew p capacity c i).roomOf p.packs.length = capacity - c := by
  simp [openNew, Pool.packOf, Pool.roomOf, hlen]

theorem openPacks_openNew :
    (openNew p capacity c i).openPacks.Sublist (p.openPacks ++ [p.packs.length]) ∧
      (p.openPacks.length ≤ openPool → (openNew p capacity c i).openPacks.length ≤ openPool) := by
  simp only [openNew]
  split
  · refine ⟨List.tail_sublist _, fun hpool => ?_⟩
    simp only [List.length_tail, List.length_append, List.length_singleton]
    omega
  · next hopened => exact ⟨.refl _, fun _ => Nat.le_of_not_lt hopened⟩

end New

theorem placeInto_inv (hi : PoolInv lengths packLen p seen) (hj : j ∈ p.openPacks)
    (hroom : (cost lengths packLen i : ℤ) ≤ p.roomOf j) :
    PoolInv lengths packLen (placeInto p (cost lengths packLen i) i j) (seen ++ [i]) := by
  have hlt := hi.open_lt j hj
  constructor
  · exact ((flatten_modify_append hlt i).trans (hi.placed.cons i)).trans (List.perm_append_singleton i seen).symm
  · rw [length_packs_placeInto]
    exact (List.length_modify ..).trans hi.room_length
  · intro k hk
    rw [length_packs_placeInto] at hk
    rw [roomOf_placeInto (hi.room_length ▸ hk), packOf_placeInto hk, hi.room_eq k hk]
    split
    · rw [packCost_append, Nat.cast_add]
      omega
    · rfl
  · intro k hk
    rw [length_packs_placeInto] at hk
    rw [packOf_placeInto hk]
    split
    · next hjk =>
      subst hjk
      have := hi.room_eq j hk
      rw [packCost_append]
      omega
    · exact hi.fits k hk
  · intro k hk
    rw [length_packs_placeInto] at hk
    rw [packOf_placeInto hk]
    split
    · simp
    · exact hi.nonempty k hk
  · intro k hk
    rw [length_packs_placeInto]
    exact hi.open_lt k (openPacks_placeInto.subset hk)
  · exact openPacks_placeInto.length_le.trans hi.pool

theorem openNew_inv (hi : PoolInv lengths packLen p seen) :
    PoolInv lengths packLen (openNew p (packLen + 1 : ℕ) (cost lengths packLen i) i) (seen ++ [i]) := by
  have hcost : packCost lengths packLen [i] = cost lengths packLen i := by simp [packCost]
  have hsplit : ∀ k < (openNew p (packLen + 1 : ℕ) (cost lengths packLen i) i).packs.length,
      k < p.packs.length ∨ k = p.packs.length := by
    intro k hk
    rw [length_packs_openNew] at hk
    omega
  constructor
  · simp only [openNew, List.flatten_append, List.flatten_cons, List.flatten_nil, List.append_nil]
    exact hi.placed.append_right [i]
  · simp [openNew, hi.room_length]
  · intro k hk
    rcases hsplit k hk with hk | rfl
    · rw [(openNew_old hi.room_length hk).1, (openNew_old hi.room_length hk).2, hi.room_eq k hk]
    · rw [(openNew_new hi.room_length).1, (openNew_new hi.room_length).2, hcost]
  · intro k hk
    rcases hsplit k hk with hk | rfl
    · rw [(openNew_old hi.room_length hk).1]
      exact hi.fits k hk
    · rw [(openNew_new hi.room_length).1, hcost]
      exact cost_le
  · intro k hk
    rcases hsplit k hk with hk | rfl
    · rw [(openNew_old hi.room_length hk).1]
      exact hi.nonempty k hk
    · rw [(openNew_new hi.room_length).1]
      simp
  · intro k hk
    rw [length_packs_openNew]
    rcases List.mem_append.1 (openPacks_openNew.1.subset hk) with hk | hk
    · exact (hi.open_lt k hk).trans (Nat.lt_succ_self _)
    · rw [List.mem_singleton.1 hk]
      exact Nat.lt_succ_self _
  · exact openPacks_openNew.2 hi.pool

/-- A turn keeps the invariant. -/
theorem packStep_inv (hi : PoolInv lengths packLen p seen) :
    PoolInv lengths packLen (packStep lengths packLen p i) (seen ++ [i]) := by
  unfold packStep
  cases hf : firstFit p (cost lengths packLen i) with
  | some j =>
    obtain ⟨hj, hroom⟩ := firstFit_some hf
    exact placeInto_inv hi hj hroom
  | none => exact openNew_inv hi

end Inv

theorem packRun_append (lengths : List ℕ) (packLen : ℕ) (seen : List ℕ) (i : ℕ) :
    packRun lengths packLen (seen ++ [i]) = packStep lengths packLen (packRun lengths packLen seen) i := by
  simp [packRun]

/-- The invariant holds after every prefix of every order. -/
theorem packRun_inv (lengths : List ℕ) (packLen : ℕ) (seen : List ℕ) :
    PoolInv lengths packLen (packRun lengths packLen seen) seen := by
  induction seen using List.reverseRecOn with
  | nil => exact empty_inv
  | append_singleton seen i ih =>
    rw [packRun_append]
    exact packStep_inv ih

/-- A turn opens a new pack only when no open pack has room for the sequence. -/
theorem opens_when_full {lengths : List ℕ} {packLen i : ℕ} {seen : List ℕ}
    (h : (packRun lengths packLen seen).packs.length < (packRun lengths packLen (seen ++ [i])).packs.length) :
    ∀ j ∈ (packRun lengths packLen seen).openPacks,
      packLen + 1 < packCost lengths packLen ((packRun lengths packLen seen).packOf j) + cost lengths packLen i := by
  have hi := packRun_inv lengths packLen seen
  rw [packRun_append, packStep] at h
  cases hf : firstFit (packRun lengths packLen seen) (cost lengths packLen i) with
  | some j =>
    rw [hf] at h
    simp [placeInto] at h
  | none =>
    intro j hj
    have hroom := hi.room_eq j (hi.open_lt j hj)
    have := firstFit_none hf j hj
    omega

/-! ## Accounting -/

section Stats
variable (lengths : List ℕ) (packLen : ℕ)

theorem foldl_cost_sub (pack : List ℕ) (acc : ℕ) :
    pack.foldl (fun acc i => acc + (cost lengths packLen i - 1)) acc + pack.length =
      acc + packCost lengths packLen pack := by
  induction pack generalizing acc with
  | nil => simp [packCost]
  | cons i pack ih =>
    have hone : 1 ≤ cost lengths packLen i := by unfold cost; omega
    have := ih (acc + (cost lengths packLen i - 1))
    simp only [List.foldl_cons, List.length_cons, packCost, List.map_cons, List.sum_cons] at this ⊢
    omega

theorem foldl_cost (pack : List ℕ) (acc : ℤ) :
    pack.foldl (fun acc i => acc + (cost lengths packLen i : ℤ)) acc = acc + packCost lengths packLen pack := by
  induction pack generalizing acc with
  | nil => simp [packCost]
  | cons i pack ih =>
    rw [List.foldl_cons, ih]
    simp only [packCost, List.map_cons, List.sum_cons]
    omega

theorem foldl_succ (pack : List ℕ) (acc : ℕ) : pack.foldl (fun acc _ => acc + 1) acc = acc + pack.length := by
  induction pack generalizing acc with
  | nil => rfl
  | cons i pack ih =>
    rw [List.foldl_cons, ih, List.length_cons]
    omega

/-- One pack adds its whole capacity to the three counters together. -/
theorem countPack_total (c : Counts) (pack : List ℕ) :
    let c' := countPack lengths packLen c pack
    (c'.realTokens + c'.separators + c'.tailPad : ℤ) =
      c.realTokens + c.separators + c.tailPad + (packLen + 1 : ℕ) := by
  have hreal := foldl_cost_sub lengths packLen pack c.realTokens
  simp only [countPack, foldl_cost, foldl_succ]
  omega

theorem foldl_countPack (packs : List (List ℕ)) (c : Counts) :
    let c' := packs.foldl (countPack lengths packLen) c
    (c'.realTokens + c'.separators + c'.tailPad : ℤ) =
      c.realTokens + c.separators + c.tailPad + packs.length * (packLen + 1 : ℕ) := by
  induction packs generalizing c with
  | nil => simp
  | cons pack packs ih =>
    have hstep := countPack_total lengths packLen c pack
    have htail := ih (countPack lengths packLen c pack)
    simp only [List.foldl_cons, List.length_cons, Nat.cast_succ, add_mul, one_mul] at hstep htail ⊢
    omega

/-- The counters split the slots of all packs. -/
theorem counts_total (packs : List (List ℕ)) :
    ((counts packs lengths packLen).realTokens + (counts packs lengths packLen).separators +
      (counts packs lengths packLen).tailPad : ℤ) = packs.length * (packLen + 1 : ℕ) := by
  have := foldl_countPack lengths packLen packs ⟨0, 0, 0⟩
  simpa [counts] using this

theorem tailPad_nonneg {packs : List (List ℕ)} (h : ∀ pack ∈ packs, packCost lengths packLen pack ≤ packLen + 1) :
    ∀ c : Counts, 0 ≤ c.tailPad → 0 ≤ (packs.foldl (countPack lengths packLen) c).tailPad := by
  induction packs with
  | nil => exact fun c hc => hc
  | cons pack packs ih =>
    intro c hc
    refine ih (fun q hq => h q (List.mem_cons_of_mem _ hq)) _ ?_
    have := h pack List.mem_cons_self
    simp only [countPack, foldl_cost]
    omega

end Stats

/-- The summands `pack_stats` reports, read back from its fractions. -/
structure Accounts (packs : List (List ℕ)) (packLen : ℕ) (s : PackStats) (separators tailPad : ℤ) : Prop where
  separators_eq : s.separatorFraction * s.capacityTokens = separators
  tailPad_eq : s.tailPadFraction * s.capacityTokens = tailPad
  total : s.realTokens + separators + tailPad = packs.length * (packLen + 1)
  capacity : (packs.length * (packLen + 1) : ℤ) = s.capacityTokens + packs.length
  nonneg : 0 ≤ (s.realTokens : ℤ) ∧ 0 ≤ separators ∧ 0 ≤ tailPad

theorem packStats_accounts {packs : List (List ℕ)} {lengths : List ℕ} {packLen : ℕ} (hlen : 1 ≤ packLen)
    (hne : packs ≠ []) (hfit : ∀ pack ∈ packs, packCost lengths packLen pack ≤ packLen + 1) :
    ∃ s separators tailPad, packStats packs lengths packLen = .ok s ∧ Accounts packs packLen s separators tailPad := by
  have hcap : ((packs.length * packLen : ℕ) : ℚ) ≠ 0 := by
    have : 0 < packs.length * packLen := Nat.mul_pos (List.length_pos_iff.2 hne) hlen
    exact_mod_cast this.ne'
  refine ⟨statsOf (counts packs lengths packLen) (packs.length * packLen),
    (counts packs lengths packLen).separators, (counts packs lengths packLen).tailPad, ?_, ?_⟩
  · unfold packStats
    rw [if_neg (by omega), if_neg hne]
  · constructor
    · exact_mod_cast div_mul_cancel₀ _ hcap
    · exact_mod_cast div_mul_cancel₀ _ hcap
    · exact_mod_cast counts_total lengths packLen packs
    · simp only [statsOf, Nat.cast_mul]
      ring
    · exact ⟨by positivity, by positivity, tailPad_nonneg lengths packLen hfit _ (le_refl 0)⟩

/-! ## The packer -/

theorem packIndices_ok {shuffle : Shuffle} {lengths : List ℕ} {packLen : ℕ} {seed : ℤ} {epoch : ℕ}
    (hne : lengths ≠ []) (hpos : ∀ n ∈ lengths, 1 ≤ n) (hlen : 1 ≤ packLen) :
    packIndices shuffle lengths packLen seed epoch =
      .ok (packRun lengths packLen (shuffle seed epoch (List.range lengths.length))).packs := by
  have hany : lengths.any (· < 1) = false := by
    rw [List.any_eq_false]
    intro n hn
    have := hpos n hn
    simp only [decide_eq_true_eq]
    omega
  unfold packIndices
  rw [if_neg (by omega), if_neg hne, hany, if_neg Bool.false_ne_true]

/-- What a call that returns has checked, and what it returns. -/
theorem of_packIndices {shuffle : Shuffle} {lengths : List ℕ} {packLen : ℕ} {seed : ℤ} {epoch : ℕ}
    {packs : List (List ℕ)} (h : packIndices shuffle lengths packLen seed epoch = .ok packs) :
    1 ≤ packLen ∧ lengths ≠ [] ∧
      packs = (packRun lengths packLen (shuffle seed epoch (List.range lengths.length))).packs := by
  unfold packIndices at h
  split at h
  · cases h
  · next hlen =>
    split at h
    · cases h
    · next hne =>
      split at h
      · cases h
      · exact ⟨Nat.le_of_not_lt hlen, hne, (Except.ok.inj h).symm⟩

theorem mem_packs {lengths seen : List ℕ} {packLen : ℕ} {p : Pool} (hi : PoolInv lengths packLen p seen)
    {pack : List ℕ} (h : pack ∈ p.packs) : pack ≠ [] ∧ packCost lengths packLen pack ≤ packLen + 1 := by
  obtain ⟨j, hj, rfl⟩ := List.getElem_of_mem h
  have hget : p.packOf j = p.packs[j] := by simp [Pool.packOf, hj]
  exact ⟨hget ▸ hi.nonempty j hj, hget ▸ hi.fits j hj⟩

/-- Packing loses and duplicates nothing, never overfills a pack, keeps the pool
within its limit, and opens a pack only when it has to. -/
theorem pack_indices_lossless (shuffle : Shuffle) (lengths : List ℕ) (packLen : ℕ) (seed : ℤ) (epoch : ℕ)
    (hne : lengths ≠ []) (hpos : ∀ n ∈ lengths, 1 ≤ n) (hlen : 1 ≤ packLen)
    (hshuffle : (shuffle seed epoch (List.range lengths.length)).Perm (List.range lengths.length)) :
    ∃ packs, packIndices shuffle lengths packLen seed epoch = .ok packs ∧
      packs = (packRun lengths packLen (shuffle seed epoch (List.range lengths.length))).packs ∧
      packs.flatten.Perm (List.range lengths.length) ∧
      (∀ pack ∈ packs, pack ≠ [] ∧ packCost lengths packLen pack ≤ packLen + 1) ∧
      (∀ seen, seen <+: shuffle seed epoch (List.range lengths.length) →
        (packRun lengths packLen seen).openPacks.length ≤ openPool) ∧
      (∀ seen i, seen ++ [i] <+: shuffle seed epoch (List.range lengths.length) →
        (packRun lengths packLen seen).packs.length < (packRun lengths packLen (seen ++ [i])).packs.length →
        ∀ j ∈ (packRun lengths packLen seen).openPacks, packLen + 1 <
          packCost lengths packLen ((packRun lengths packLen seen).packOf j) + cost lengths packLen i) ∧
      ∃ s separators tailPad, packStats packs lengths packLen = .ok s ∧
        Accounts packs packLen s separators tailPad := by
  have hi := packRun_inv lengths packLen (shuffle seed epoch (List.range lengths.length))
  have hplaced := hi.placed.trans hshuffle
  refine ⟨_, packIndices_ok hne hpos hlen, rfl, hplaced, fun pack h => mem_packs hi h, ?_, ?_, ?_⟩
  · exact fun seen _ => (packRun_inv lengths packLen seen).pool
  · exact fun seen i _ h => opens_when_full h
  · refine packStats_accounts hlen ?_ fun pack h => (mem_packs hi h).2
    intro hnil
    have := hplaced.length_eq
    rw [hnil] at this
    simp only [List.flatten_nil, List.length_nil, List.length_range] at this
    exact hne (List.length_eq_zero_iff.1 this.symm)

theorem pack_indices_lossless_small :
    let shuffle : Shuffle := fun _ _ order => order.reverse
    ∃ packs, packIndices shuffle [3, 7, 1] 4 0 0 = .ok packs ∧ packs.flatten.Perm (List.range 3) := by
  obtain ⟨packs, h, -, hp, -⟩ := pack_indices_lossless (fun _ _ order => order.reverse) [3, 7, 1] 4 0 0 (by decide)
    (by decide) (by decide) (List.reverse_perm _)
  exact ⟨packs, h, hp⟩

end MlxTrainPerf.Packing
