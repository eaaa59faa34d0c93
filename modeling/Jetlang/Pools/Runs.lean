import Jetlang.Pools.Supply

/-! # Runs of a program with a recycler

Every step of the program keeps the invariant, so it holds in every state of a run.
From it follow what the program may rely on: its elements are its own, the recycler
is never at fault, it takes little more memory than the program needs, and at the
end it gives all of that back.
-/

namespace Jetlang.Pools

open Regions

variable {es : ℕ} {s : State} {pools : List Pool} {frees : List ℕ}

/-! ## Blocks that are freed -/

/-- Without one of them the other blocks stand where they stood. -/
theorem Placed.erase {blocks : List Region} (h : Placed blocks) (b : Region) :
    Placed (blocks.erase b) where
  apart := h.apart.sublist List.erase_sublist
  nonnull := fun c hc => h.nonnull c (List.mem_of_mem_erase hc)
  aligned := fun c hc => h.aligned c (List.mem_of_mem_erase hc)
  bounded := fun c hc => h.bounded c (List.mem_of_mem_erase hc)
  small := fun c hc => h.small c (List.mem_of_mem_erase hc)

/-- The block at an address is the one that is freed there. -/
theorem eraseP_start {blocks : List Region} (h : blocks.Pairwise Apart) {b : Region}
    (hb : b ∈ blocks) : blocks.eraseP (·.start == b.start) = blocks.erase b := by
  induction blocks with
  | nil => cases hb
  | cons c blocks ih =>
    rw [List.pairwise_cons] at h
    by_cases hc : c = b
    · subst hc
      rw [List.erase_cons_head]
      exact List.eraseP_cons_of_pos (beq_self_eq_true c.start)
    · have hb' := (List.mem_cons.mp hb).resolve_left fun heq => hc heq.symm
      have hne : ¬ (c.start == b.start) = true := fun heq => (h.1 b hb').2 (eq_of_beq heq)
      rw [List.erase_cons_tail (by simpa using hc), ← ih h.2 hb']
      exact List.eraseP_cons_of_neg hne

/-- A block that was allocated can be freed. -/
theorem Memory.free_eq {m : Memory} (h : m.blocks.Pairwise Apart) {b : Region}
    (hb : b ∈ m.blocks) : m.free b.start = .ok ⟨m.words, m.blocks.erase b⟩ := by
  unfold Memory.free
  rw [if_pos (List.any_eq_true.mpr ⟨b, hb, beq_self_eq_true b.start⟩), eraseP_start h hb]

/-! ## Runs -/

/-! ### A short run -/

/-- A `malloc` that has one block to give. -/
def oneBlock (n : ℕ) : Option ℕ := if n < 2 ^ 40 then some 4096 else none

theorem oneBlock_eq_some {n p : ℕ} (h : oneBlock n = some p) : n < 2 ^ 40 ∧ p = 4096 := by
  unfold oneBlock at h
  split at h
  · rename_i hn
    exact ⟨hn, (Option.some.inj h).symm⟩
  · cases h

/-- A `malloc` that has room for one block keeps its promises. -/
theorem promises_oneBlock : Promises [] oneBlock where
  apart := fun _ _ _ => List.forall_mem_nil _
  nonnull := by
    intro n p h
    rw [(oneBlock_eq_some h).2]
    decide
  aligned := by
    intro n p h
    rw [(oneBlock_eq_some h).2]
  bounded := by
    intro n p h
    have hp := oneBlock_eq_some h
    omega
  small := by
    intro n p h
    have hp := oneBlock_eq_some h
    omega

/-- The program has asked for one element of 32 bytes. -/
def oneElement : State where
  memory := ⟨Function.update (poolWords (fun _ => 0) 4096 65536 0) 4112 65535, [⟨4096, 2097176⟩]⟩
  recycler := ⟨4096, 0, 32⟩
  live := [2101240]
  others := []
  peak := 1

/-- The state after one element was supplied. -/
theorem reachable_oneElement : Reachable 32 oneElement := by
  refine ⟨⟨fun _ => 0, []⟩, ⟨.nil, List.forall_mem_nil _, List.forall_mem_nil _,
    List.forall_mem_nil _, List.forall_mem_nil _⟩, .single ?_⟩
  refine Step.supply promises_oneBlock ?_
  simp [pccMemoryRecyclerSupply, pccMemoryRecyclerInit, hasUnused, addPool, newPoolSize,
    poolMinSize, sizeofPool, word, oneBlock, Memory.malloc, Memory.write, Memory.read, Memory.Has,
    cutElement, poolAllocated, poolUnused, Region.stop, bind, Except.bind, pure, Except.pure,
    poolWords]

/-! ### All runs -/

section Runs

variable (hes : 8 ≤ es) (hes' : es % 8 = 0) (hmin : sizeofPool + es * poolMinSize < 2 ^ 64)

include hes hes' hmin

/-- What one step keeps. -/
theorem Sound.step (h : Sound es s pools frees) {s' : State} (hstep : Step s s') :
    ∃ pools' frees', Sound es s' pools' frees' := by
  cases hstep with
  | supply hmalloc hsupply =>
    rcases h.supply hes hes' hmin hmalloc with hnone | ⟨e, m, r, pools', frees', hok, hsound, -⟩
    · rw [hnone] at hsupply
      cases hsupply
    · rw [hok] at hsupply
      cases hsupply
      exact ⟨pools', frees', hsound⟩
  | recycle he hrecycle =>
    rcases h.recycle hes hes' he with ⟨m, r, hok, hsound, -⟩
    rw [hok] at hrecycle
    cases hrecycle
    exact ⟨pools, _, hsound⟩
  | writeElement he ha hwrite =>
    rw [h.size_eq] at ha
    exact ⟨pools, frees, h.write hwrite (h.not_owned_element hes he ha)⟩
  | writeBlock hb ha hwrite =>
    exact ⟨pools, frees, h.write hwrite (h.not_owned_block hes hb ha)⟩
  | @malloc malloc n p m hmalloc halloc =>
    unfold Memory.malloc at halloc
    split at halloc
    · rename_i hp
      cases halloc
      refine ⟨pools, frees, { h with
        placed := h.placed.cons hmalloc hp
        blocks := (h.blocks.cons _).trans List.perm_middle.symm }⟩
    · cases halloc
  | @free b m hb hfree =>
    have hmem := h.blocks.mem_iff.mpr (List.mem_append_right _ hb)
    rw [Memory.free_eq h.placed.apart hmem] at hfree
    cases hfree
    -- the block is no pool
    have hnot : b ∉ pools.map (Pool.block es) := by
      intro hpool
      exact ((List.pairwise_append.mp h.pairwise).2.2 b hpool b hb).2 rfl
    have hperm := h.blocks.erase b
    rw [List.erase_append_right _ hnot] at hperm
    exact ⟨pools, frees, { h with
      placed := h.placed.erase b
      blocks := hperm }⟩

/-- **Every state of a run is sound.** The induction is on the steps. -/
theorem Reachable.sound (h : Reachable es s) : ∃ pools frees, Sound es s pools frees := by
  rcases h with ⟨m, hplaced, hrun⟩
  induction hrun with
  | refl =>
    exact ⟨[], [], {
      size_eq := rfl
      placed := hplaced
      blocks := .refl _
      linked := .nil
      allocated := List.forall_mem_nil _
      unused := List.forall_mem_nil _
      unused_le := List.forall_mem_nil _
      doubling := .nil
      free := .nil
      cut := .refl _
      peak := Nat.le_refl 0 }⟩
  | tail _ hstep ih =>
    rcases ih with ⟨pools, frees, hsound⟩
    exact hsound.step hes hes' hmin hstep

end Runs

/-- A pool that has no element left was cut into all it has room for. -/
theorem length_cutFrom (es : ℕ) {ps : List Pool} (hfull : ∀ q ∈ ps, q.unused = 0) :
    (cutFrom es ps).length = total ps := by
  induction ps with
  | nil => rfl
  | cons p ps ih =>
    rcases List.forall_mem_cons.mp hfull with ⟨hp, hps⟩
    have hlen : (p.cut es).length = p.allocated := by
      unfold Pool.cut row
      rw [List.length_map, List.length_range', hp, Nat.sub_zero]
    have hrest := ih hps
    unfold cutFrom at hrest ⊢
    rw [List.flatMap_cons, List.length_append, hlen, hrest]
    rfl

/-- At most half of what is behind the least size was never cut. -/
theorem Doubling.total_le {pools : List Pool} (h : Doubling pools) (es : ℕ) :
    total pools ≤ 2 * (cutFrom es pools).length + poolMinSize := by
  cases h with
  | nil => exact Nat.zero_le _
  | @cons p ps _ hfull hroom =>
    have hlen := length_cutFrom es hfull
    unfold cutFrom at hlen ⊢
    rw [List.flatMap_cons, List.length_append, hlen]
    show p.allocated + total ps ≤ _
    omega

/-- The heads of the pools take less than an additional byte for each element. -/
theorem Doubling.sum_le {pools : List Pool} (h : Doubling pools) (es : ℕ) :
    ((pools.map (Pool.block es)).map Region.size).sum ≤ (es + 1) * total pools := by
  induction h with
  | nil => exact Nat.zero_le _
  | @cons p ps _ _ hroom ih =>
    rw [List.map_cons, List.map_cons, List.sum_cons]
    show sizeofPool + es * p.allocated + _ ≤ (es + 1) * (p.allocated + total ps)
    rw [Nat.mul_add, Nat.add_mul es 1 p.allocated]
    unfold poolMinSize at hroom
    unfold sizeofPool
    omega

/-- **The recycler takes at most twice what was in use at once.** -/
theorem reachable_bounded (hes : 8 ≤ es) (hes' : es % 8 = 0)
    (hmin : sizeofPool + es * poolMinSize < 2 ^ 64) (h : Reachable es s) :
    (s.memory.blocks.map Region.size).sum ≤
      (s.others.map Region.size).sum + (es + 1) * (2 * s.peak + poolMinSize) := by
  rcases h.sound hes hes' hmin with ⟨pools, frees, hsound⟩
  have hsum := (hsound.blocks.map Region.size).sum_nat
  have hcut := hsound.cut.length_eq
  have hpeak := hsound.peak
  have htotal := hsound.doubling.total_le es
  have hle := hsound.doubling.sum_le es
  have hmul : (es + 1) * total pools ≤ (es + 1) * (2 * s.peak + poolMinSize) := by
    refine Nat.mul_le_mul_left _ ?_
    rw [List.length_append] at hcut
    omega
  rw [List.map_append, List.sum_append] at hsum
  omega

theorem reachable_bounded_oneElement :
    (oneElement.memory.blocks.map Region.size).sum ≤ 0 + 33 * (2 * 1 + poolMinSize) :=
  reachable_bounded (Nat.le_of_ble_eq_true rfl) rfl (by decide) reachable_oneElement

/-! ## The end -/

/-- The loop of `pcc_memory_recycler__term`. The induction is on the pools. -/
theorem term_pools {others : List Region} {words : ℕ → ℕ} {pools : List Pool} :
    ∀ {blocks : List Region} (recycler : Recycler), Placed blocks →
      blocks.Perm (pools.map (Pool.block es) ++ others) →
      Linked words recycler.poolList (pools.map Pool.addr) → ∀ {fuel}, pools.length < fuel →
      ∃ blocks', pccMemoryRecyclerTerm fuel ⟨words, blocks⟩ recycler =
        .ok (⟨words, blocks'⟩, { recycler with poolList := 0 }) ∧ blocks'.Perm others := by
  induction pools with
  | nil =>
    intro blocks recycler _ hperm hlinked fuel hfuel
    obtain ⟨fuel, rfl⟩ : ∃ n, fuel = n + 1 := ⟨fuel - 1, by rw [List.length_nil] at hfuel; omega⟩
    have hlist := hlinked.eq_zero
    refine ⟨blocks, ?_, hperm⟩
    rw [pccMemoryRecyclerTerm, if_pos hlist, ← hlist]
  | cons p ps ih =>
    intro blocks recycler hplaced hperm hlinked fuel hfuel
    obtain ⟨fuel, rfl⟩ : ∃ n, fuel = n + 1 := ⟨fuel - 1, by rw [List.length_cons] at hfuel; omega⟩
    have hmem : p.block es ∈ blocks :=
      hperm.mem_iff.mpr (List.mem_append_left _ List.mem_cons_self)
    have hlist : recycler.poolList = p.addr := by
      generalize recycler.poolList = q at hlinked
      cases hlinked with
      | cons => rfl
    rw [hlist] at hlinked
    have hne : p.addr ≠ 0 := hplaced.nonnull _ hmem
    -- the link is read before its pool is freed
    have hhas : Memory.Has ⟨words, blocks⟩ p.addr := by
      refine ⟨hplaced.aligned _ hmem, _, hmem, Nat.le_refl _, ?_⟩
      refine Nat.le_trans ?_ (p.head_within es).stop_le
      show p.addr + 8 ≤ p.addr + sizeofPool
      unfold sizeofPool
      omega
    have hfree : Memory.free ⟨words, blocks⟩ p.addr = .ok ⟨words, blocks.erase (p.block es)⟩ :=
      Memory.free_eq (m := ⟨words, blocks⟩) hplaced.apart hmem
    rcases hlinked.exists_cons hne with ⟨l, hl, hrest⟩
    obtain rfl := (List.cons.inj hl).2
    have hperm' : (blocks.erase (p.block es)).Perm (ps.map (Pool.block es) ++ others) := by
      have herase := hperm.erase (p.block es)
      rwa [List.map_cons, List.cons_append, List.erase_cons_head] at herase
    rcases ih { recycler with poolList := words p.addr } (hplaced.erase _) hperm'
      hrest (Nat.lt_of_succ_lt_succ hfuel) with ⟨blocks', hterm, hothers⟩
    refine ⟨blocks', ?_, hothers⟩
    rw [pccMemoryRecyclerTerm, hlist, if_neg hne]
    simp only [Memory.read_eq hhas, hfree, bind, Except.bind]
    exact hterm

/-- **`pcc_memory_recycler__term` frees the pools**, each of them once, and nothing
else: the blocks of the program are left, and it is never at fault. -/
theorem reachable_term (hes : 8 ≤ es) (hes' : es % 8 = 0)
    (hmin : sizeofPool + es * poolMinSize < 2 ^ 64) (h : Reachable es s) :
    ∃ N, ∀ fuel, N ≤ fuel → ∃ blocks, pccMemoryRecyclerTerm fuel s.memory s.recycler =
      .ok (⟨s.memory.words, blocks⟩, { s.recycler with poolList := 0 }) ∧
        blocks.Perm s.others := by
  rcases h.sound hes hes' hmin with ⟨pools, frees, hsound⟩
  refine ⟨pools.length + 1, ?_⟩
  intro fuel hfuel
  exact term_pools s.recycler hsound.placed hsound.blocks hsound.linked hfuel

theorem reachable_term_oneElement : ∃ N, ∀ fuel, N ≤ fuel → ∃ blocks,
    pccMemoryRecyclerTerm fuel oneElement.memory oneElement.recycler =
      .ok (⟨oneElement.memory.words, blocks⟩, { oneElement.recycler with poolList := 0 }) ∧
        blocks.Perm oneElement.others :=
  reachable_term (Nat.le_of_ble_eq_true rfl) rfl (by decide) reachable_oneElement

end Jetlang.Pools
