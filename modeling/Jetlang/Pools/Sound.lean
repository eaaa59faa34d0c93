import Jetlang.Pools.Recycler
import Mathlib.Algebra.GroupWithZero.Nat
import Mathlib.Data.List.Flatten
import Mathlib.Data.List.Perm.Basic
import Mathlib.Logic.Relation

/-! # The recycler in a program

A program in which one recycler is used: it asks for elements, gives them back,
writes into those it has, and has blocks of `malloc` of its own. Whatever it does
in whatever order, its elements lie apart from each other and from all else, and
the recycler touches none of them. What is shown of one step is `Sound`: it says how
the pools and the list of free elements lie in memory.
-/

namespace Jetlang.Pools

open Regions

/-! ## A program with a recycler -/

/-- What `malloc` promises: a block that is apart from all others, aligned, in the
address space, and not null; and no block is larger than `PTRDIFF_MAX`. -/
structure Promises (blocks : List Region) (malloc : ℕ → Option ℕ) : Prop where
  apart : ∀ n p, malloc n = some p → ∀ b ∈ blocks, Apart ⟨p, n⟩ b
  nonnull : ∀ n p, malloc n = some p → p ≠ 0
  aligned : ∀ n p, malloc n = some p → p % 8 = 0
  bounded : ∀ n p, malloc n = some p → p + n ≤ 2 ^ 64
  small : ∀ n p, malloc n = some p → n < 2 ^ 63

/-- The memory, the recycler, the elements the program has, its own blocks, and how
many elements it had at most at once. -/
structure State where
  memory : Memory
  recycler : Recycler
  live : List ℕ
  others : List Region
  peak : ℕ

/-- An element of the size `es` at `e`. -/
abbrev element (es e : ℕ) : Region := ⟨e, es⟩

/-- The steps of the program. An element is given back that the program has, and a
word is written in an element or a block that it has. -/
inductive Step : State → State → Prop where
  | supply {s : State} {malloc : ℕ → Option ℕ} {e : ℕ} {m : Memory} {recycler : Recycler} :
      Promises s.memory.blocks malloc →
      pccMemoryRecyclerSupply malloc s.memory s.recycler = .ok (e, m, recycler) →
      Step s ⟨m, recycler, e :: s.live, s.others, max s.peak (s.live.length + 1)⟩
  | recycle {s : State} {e : ℕ} {m : Memory} {recycler : Recycler} : e ∈ s.live →
      pccMemoryRecyclerRecycle s.memory s.recycler e = .ok (m, recycler) →
      Step s ⟨m, recycler, s.live.erase e, s.others, s.peak⟩
  | writeElement {s : State} {e a v : ℕ} {m : Memory} : e ∈ s.live →
      Within ⟨a, 8⟩ (element s.recycler.elementSize e) → s.memory.write a v = .ok m →
      Step s { s with memory := m }
  | writeBlock {s : State} {b : Region} {a v : ℕ} {m : Memory} : b ∈ s.others →
      Within ⟨a, 8⟩ b → s.memory.write a v = .ok m → Step s { s with memory := m }
  | malloc {s : State} {malloc : ℕ → Option ℕ} {n p : ℕ} {m : Memory} :
      Promises s.memory.blocks malloc → s.memory.malloc malloc n = .ok (p, m) →
      Step s { s with memory := m, others := ⟨p, n⟩ :: s.others }
  | free {s : State} {b : Region} {m : Memory} : b ∈ s.others →
      s.memory.free b.start = .ok m →
      Step s { s with memory := m, others := s.others.erase b }

/-- Blocks as `malloc` places them. -/
structure Placed (blocks : List Region) : Prop where
  apart : blocks.Pairwise Apart
  nonnull : ∀ b ∈ blocks, b.start ≠ 0
  aligned : ∀ b ∈ blocks, b.start % 8 = 0
  bounded : ∀ b ∈ blocks, b.stop ≤ 2 ^ 64
  small : ∀ b ∈ blocks, b.size < 2 ^ 63

/-- The states of a program whose recycler has elements of the size `es`. -/
def Reachable (es : ℕ) (s : State) : Prop :=
  ∃ m : Memory, Placed m.blocks ∧
    Relation.ReflTransGen Step ⟨m, pccMemoryRecyclerInit es, [], m.blocks, 0⟩ s

/-! ## How the pools lie in memory -/

/-- A pool: its address, and what its head says. -/
structure Pool where
  addr : ℕ
  allocated : ℕ
  unused : ℕ

variable (es : ℕ)

/-- The block of a pool. -/
def Pool.block (p : Pool) : Region := ⟨p.addr, sizeofPool + es * p.allocated⟩

/-- The elements of a pool that were cut from it. -/
def Pool.cut (p : Pool) : List ℕ := row (p.addr + sizeofPool) es p.unused (p.allocated - p.unused)

/-- The elements that were cut from pools. -/
def cutFrom (pools : List Pool) : List ℕ := pools.flatMap (Pool.cut es)

/-- How many elements the pools have room for. -/
def total (pools : List Pool) : ℕ := (pools.map Pool.allocated).sum

/-- Each pool has the room of all before it, and `poolMinSize` more. Only the first
one has unused elements. -/
inductive Doubling : List Pool → Prop where
  | nil : Doubling []
  | cons {p : Pool} {ps : List Pool} : Doubling ps → (∀ q ∈ ps, q.unused = 0) →
      p.allocated = total ps + poolMinSize → Doubling (p :: ps)

/-- The invariant: the pools are linked, and so are the elements that were given
back; these and those the program has are the elements that were cut. -/
structure Sound (s : State) (pools : List Pool) (frees : List ℕ) : Prop where
  size_eq : s.recycler.elementSize = es
  placed : Placed s.memory.blocks
  blocks : s.memory.blocks.Perm (pools.map (Pool.block es) ++ s.others)
  linked : Linked s.memory.words s.recycler.poolList (pools.map Pool.addr)
  allocated : ∀ p ∈ pools, s.memory.words (poolAllocated p.addr) = p.allocated
  unused : ∀ p ∈ pools, s.memory.words (poolUnused p.addr) = p.unused
  unused_le : ∀ p ∈ pools, p.unused ≤ p.allocated
  doubling : Doubling pools
  free : Linked s.memory.words s.recycler.entryList frees
  cut : (frees ++ s.live).Perm (cutFrom es pools)
  peak : frees.length + s.live.length ≤ s.peak

variable {es} {s : State} {pools : List Pool} {frees : List ℕ}

/-! ## Where things are -/

/-- An element that was cut from a pool is in its block, behind the head. -/
theorem Pool.cut_within {p : Pool} (hle : p.unused ≤ p.allocated) {e : ℕ} (he : e ∈ p.cut es) :
    Within (element es e) (p.block es) ∧ p.addr + sizeofPool ≤ e := by
  rcases row_within he with ⟨hstart, hstop⟩
  rw [Nat.add_sub_cancel' hle] at hstop
  refine ⟨⟨?_, ?_⟩, hstart⟩
  · exact Nat.le_trans (Nat.le_add_right _ _) hstart
  · unfold Region.stop Pool.block
    show e + es ≤ p.addr + (sizeofPool + es * p.allocated)
    omega

/-- The head of a pool. -/
theorem Pool.head_within (p : Pool) (es : ℕ) : Within ⟨p.addr, sizeofPool⟩ (p.block es) := by
  refine ⟨Nat.le_refl _, ?_⟩
  unfold Region.stop Pool.block
  show p.addr + sizeofPool ≤ p.addr + (sizeofPool + es * p.allocated)
  omega

section Sound

variable (h : Sound es s pools frees)

include h

/-- Every element was cut from a pool. -/
theorem Sound.mem_cut {e : ℕ} (he : e ∈ frees ++ s.live) : ∃ p ∈ pools, e ∈ p.cut es :=
  List.mem_flatMap.mp (h.cut.mem_iff.mp he)

theorem Sound.pairwise : (pools.map (Pool.block es) ++ s.others).Pairwise Apart :=
  (h.blocks.pairwise_iff Apart.symm).mp h.placed.apart

/-- Two pools are apart. -/
theorem Sound.pools_apart {p q : Pool} (hp : p ∈ pools) (hq : q ∈ pools) :
    p = q ∨ Apart (p.block es) (q.block es) := by
  have hmap := (List.pairwise_append.mp h.pairwise).1
  rw [List.pairwise_map] at hmap
  have hsymm : Std.Symm fun p q : Pool => Apart (p.block es) (q.block es) :=
    ⟨fun _ _ hapart => hapart.symm⟩
  by_cases heq : p = q
  · exact Or.inl heq
  · exact Or.inr (hmap.forall hp hq heq)

/-- A pool is apart from the blocks of the program. -/
theorem Sound.pool_other {p : Pool} (hp : p ∈ pools) {b : Region} (hb : b ∈ s.others) :
    Apart (p.block es) b :=
  (List.pairwise_append.mp h.pairwise).2.2 _ (List.mem_map_of_mem hp) _ hb

/-- The block of a pool is one of the blocks that were allocated. -/
theorem Sound.block_mem {p : Pool} (hp : p ∈ pools) : p.block es ∈ s.memory.blocks :=
  h.blocks.mem_iff.mpr (List.mem_append_left _ (List.mem_map_of_mem hp))

/-- An element is not where the head of a pool is. -/
theorem Sound.element_head {e : ℕ} (he : e ∈ frees ++ s.live) {p : Pool} (hp : p ∈ pools) :
    e + es ≤ p.addr ∨ p.addr + sizeofPool ≤ e := by
  rcases h.mem_cut he with ⟨q, hq, hcut⟩
  rcases q.cut_within (h.unused_le q hq) hcut with ⟨hwithin, hhead⟩
  rcases h.pools_apart hp hq with rfl | hapart
  · exact Or.inr hhead
  · have hapart' := hapart.1
    have hstart := hwithin.start_le
    have hstop := hwithin.stop_le
    have hhead' := (p.head_within es).stop_le
    have hstart' := (p.head_within es).start_le
    unfold Region.stop at *
    simp only at *
    omega

/-- Nor in a block of the program. -/
theorem Sound.element_other {e : ℕ} (he : e ∈ frees ++ s.live) {b : Region} (hb : b ∈ s.others) :
    e + es ≤ b.start ∨ b.stop ≤ e := by
  rcases h.mem_cut he with ⟨p, hp, hcut⟩
  rcases p.cut_within (h.unused_le p hp) hcut with ⟨hwithin, -⟩
  have hapart := (h.pool_other hp hb).1
  have hstart := hwithin.start_le
  have hstop := hwithin.stop_le
  unfold Region.stop at *
  simp only at *
  omega

variable (hes : 8 ≤ es) (hes' : es % 8 = 0)

include hes

/-- Elements are apart. -/
theorem Sound.elements_apart :
    (frees ++ s.live).Pairwise fun a b => Apart (element es a) (element es b) := by
  refine (h.cut.pairwise_iff fun hapart => hapart.symm).mpr ?_
  unfold cutFrom
  refine List.pairwise_flatMap.mpr ⟨?_, ?_⟩
  · intro p _
    exact row_apart (by omega) _ _ _
  · have hmap := (List.pairwise_append.mp h.pairwise).1
    rw [List.pairwise_map] at hmap
    refine hmap.imp_of_mem ?_
    intro p q hp hq hapart a ha b hb
    exact hapart.parts (p.cut_within (h.unused_le p hp) ha).1
      (q.cut_within (h.unused_le q hq) hb).1 (by show 0 < es; omega) (by show 0 < es; omega)

include hes'

/-- The elements lie at words. -/
theorem Sound.has_element {e : ℕ} (he : e ∈ frees ++ s.live) : s.memory.Has e := by
  rcases h.mem_cut he with ⟨p, hp, hcut⟩
  rcases p.cut_within (h.unused_le p hp) hcut with ⟨hwithin, -⟩
  have haligned : p.addr % 8 = 0 := h.placed.aligned _ (h.block_mem hp)
  refine ⟨?_, p.block es, h.block_mem hp, hwithin.start_le, ?_⟩
  · rcases mem_row.mp hcut with ⟨j, -, -, rfl⟩
    have hdvd : 8 ∣ es * j := Nat.dvd_mul_right_of_dvd (Nat.dvd_of_mod_eq_zero hes') j
    unfold sizeofPool
    omega
  · have hstop := hwithin.stop_le
    unfold Region.stop at hstop ⊢
    simp only at hstop
    omega

end Sound

/-! ## Steps of the program -/

/-- The words that the recycler reads. -/
def Owned (pools : List Pool) (frees : List ℕ) (a : ℕ) : Prop :=
  a ∈ frees ∨ ∃ p ∈ pools, p.addr ≤ a ∧ a + 8 ≤ p.addr + sizeofPool

/-- Nothing changes for the recycler when its words do not. -/
theorem Sound.frame (h : Sound es s pools frees) {m : Memory} (hblocks : m.blocks = s.memory.blocks)
    (hsame : ∀ a, Owned pools frees a → m.words a = s.memory.words a) :
    Sound es { s with memory := m } pools frees where
  size_eq := h.size_eq
  placed := by rw [hblocks]; exact h.placed
  blocks := by rw [hblocks]; exact h.blocks
  -- the links of the pools are the first words of their heads
  linked := by
    refine h.linked.frame ?_
    intro a ha
    rcases List.mem_map.mp ha with ⟨p, hp, rfl⟩
    refine hsame _ (Or.inr ⟨p, hp, Nat.le_refl _, ?_⟩)
    unfold sizeofPool
    omega
  allocated := by
    intro p hp
    rw [← h.allocated p hp]
    refine hsame _ (Or.inr ⟨p, hp, ?_⟩)
    unfold poolAllocated sizeofPool
    omega
  unused := by
    intro p hp
    rw [← h.unused p hp]
    refine hsame _ (Or.inr ⟨p, hp, ?_⟩)
    unfold poolUnused sizeofPool
    omega
  unused_le := h.unused_le
  doubling := h.doubling
  free := h.free.frame fun a ha => hsame a (Or.inl ha)
  cut := h.cut
  peak := h.peak

/-- A word of an element that the program has is none of these. -/
theorem Sound.not_owned_element (h : Sound es s pools frees) (hes : 8 ≤ es) {e a : ℕ}
    (he : e ∈ s.live) (ha : Within ⟨a, 8⟩ (element es e)) : ¬ Owned pools frees a := by
  have hstart := ha.start_le
  have hstop := ha.stop_le
  unfold Region.stop at hstop
  simp only at hstart hstop
  rintro (hfree | ⟨p, hp, hle, hlt⟩)
  · have hapart := ((List.pairwise_append.mp (h.elements_apart hes)).2.2 a hfree e he).1
    unfold Region.stop at hapart
    simp only at hapart
    omega
  · have hhead := h.element_head (List.mem_append_right _ he) hp
    omega

/-- A word of a block of the program neither. -/
theorem Sound.not_owned_block (h : Sound es s pools frees) (hes : 8 ≤ es) {b : Region} {a : ℕ}
    (hb : b ∈ s.others) (ha : Within ⟨a, 8⟩ b) : ¬ Owned pools frees a := by
  have hstart := ha.start_le
  have hstop := ha.stop_le
  unfold Region.stop at hstop
  simp only at hstart hstop
  rintro (hfree | ⟨p, hp, hle, hlt⟩)
  · have hother := h.element_other (List.mem_append_left _ hfree) hb
    unfold Region.stop at hother
    omega
  · have hapart := (h.pool_other hp hb).1
    have hhead := (p.head_within es).stop_le
    unfold Region.stop at hapart hhead
    simp only [Pool.block] at hapart hhead
    omega

/-- A write of the program. -/
theorem Sound.write (h : Sound es s pools frees) {a v : ℕ} {m : Memory}
    (hwrite : s.memory.write a v = .ok m) (ha : ¬ Owned pools frees a) :
    Sound es { s with memory := m } pools frees := by
  unfold Memory.write at hwrite
  split at hwrite
  · cases hwrite
    refine h.frame rfl ?_
    intro a' ha'
    refine Function.update_of_ne ?_ _ _
    rintro rfl
    exact ha ha'
  · cases hwrite

/-- An element is given back. -/
theorem Sound.recycle (h : Sound es s pools frees) (hes : 8 ≤ es) (hes' : es % 8 = 0) {e : ℕ}
    (he : e ∈ s.live) :
    ∃ m recycler, pccMemoryRecyclerRecycle s.memory s.recycler e = .ok (m, recycler) ∧
      Sound es ⟨m, recycler, s.live.erase e, s.others, s.peak⟩ pools (e :: frees) ∧
      ∀ a, a ≠ e → m.words a = s.memory.words a := by
  have hhas := h.has_element hes hes' (List.mem_append_right _ he)
  have hnot := h.not_owned_element hes he (a := e) ⟨Nat.le_refl _, Nat.add_le_add_left hes e⟩
  -- an element lies behind the head of its pool
  have hpos : e ≠ 0 := by
    rcases h.mem_cut (List.mem_append_right _ he) with ⟨p, hp, hcut⟩
    have hhead := (p.cut_within (h.unused_le p hp) hcut).2
    unfold sizeofPool at hhead
    omega
  have hwrite := Memory.write_eq hhas s.recycler.entryList
  have hframe := h.write hwrite hnot
  have hsame : ∀ a, a ≠ e →
      Function.update s.memory.words e s.recycler.entryList a = s.memory.words a :=
    fun a ha => Function.update_of_ne ha _ _
  refine ⟨_, _, by unfold pccMemoryRecyclerRecycle; rw [hwrite]; rfl, ?_, hsame⟩
  refine { hframe with free := ?_, cut := ?_, peak := ?_ }
  · refine h.free.push hpos ?_ (Function.update_self _ _ _)
    intro f hf
    refine hsame f ?_
    rintro rfl
    exact hnot (Or.inl hf)
  · -- it is one of those cut, as before
    have hperm : (e :: (frees ++ s.live.erase e)).Perm (frees ++ s.live) :=
      List.perm_middle.symm.trans ((List.perm_cons_erase he).symm.append_left frees)
    exact hperm.trans h.cut
  · have hlen := List.length_pos_of_mem he
    have hpeak := h.peak
    show frees.length + 1 + (s.live.erase e).length ≤ s.peak
    rw [List.length_erase_of_mem he]
    omega

end Jetlang.Pools
