import Mathlib.Algebra.Group.Nat.Defs
import Mathlib.Data.Finset.Card
import Mathlib.Data.Nat.Basic
import Mathlib.Logic.Function.Basic

/-! # A heap of whole objects, and tagged pointers

A heap maps block addresses to the objects stored in them. Nothing is ever
freed, so a run is described by how many allocations it has made: the `n`-th
one returns `A.addr n`, for an allocator `A` that keeps the promises of
`malloc`. A heap carries the fact that every object sits in a block that was
handed out, hence a new block never hits an old object.

The second half is the arithmetic of pointers that keep a tag in their low
bits: the tag and the address are read back from what was stored.
-/

namespace Mem

/-! ## Allocators and heaps -/

/-- Where the blocks of a run are placed: the `n`-th allocation returns
`addr n`. Blocks are distinct, not null, and aligned to 8 bytes. -/
structure Allocator where
  addr : ℕ → ℕ
  fresh : Function.Injective addr
  nonnull : ∀ n, addr n ≠ 0
  aligned : ∀ n, addr n % 8 = 0

/-- The allocator that hands out the multiples of 8 in order. -/
def Allocator.consecutive : Allocator where
  addr n := 8 * (n + 1)
  fresh := by
    intro a b h
    simp only at h
    omega
  nonnull n := by omega
  aligned n := by omega

/-- A heap: the number of allocations made, and the object at each address.
Every object is in a block that was handed out. -/
structure Heap (A : Allocator) (α : Type) where
  next : ℕ
  cells : ℕ → Option α
  owned : ∀ a x, cells a = some x → ∃ n < next, a = A.addr n

namespace Heap

variable {A : Allocator} {α : Type}

/-- The heap before the first allocation. -/
def empty : Heap A α where
  next := 0
  cells _ := none
  owned := by simp

/-- The address the next allocation returns. -/
def brk (h : Heap A α) : ℕ := A.addr h.next

/-- Allocate a block and store `x` in it. -/
def alloc (h : Heap A α) (x : α) : Heap A α where
  next := h.next + 1
  cells a := if a = h.brk then some x else h.cells a
  owned := by
    intro a y hy
    by_cases ha : a = h.brk
    · exact ⟨h.next, Nat.lt_succ_self _, ha⟩
    · rw [if_neg ha] at hy
      rcases h.owned a y hy with ⟨n, hn, rfl⟩
      exact ⟨n, Nat.lt_succ_of_lt hn, rfl⟩

/-- Store `x` in the block at `a`; a heap without that block is left as it is. -/
def write (h : Heap A α) (a : ℕ) (x : α) : Heap A α where
  next := h.next
  cells b := if b = a then (h.cells a).map fun _ => x else h.cells b
  owned := by
    intro b y hy
    by_cases hb : b = a
    · rw [if_pos hb] at hy
      rcases Option.map_eq_some_iff.mp hy with ⟨z, hz, -⟩
      exact hb ▸ h.owned a z hz
    · rw [if_neg hb] at hy
      exact h.owned b y hy

@[simp] theorem alloc_brk (h : Heap A α) (x : α) : (h.alloc x).cells h.brk = some x := by
  simp [alloc]

/-- No object is at the address of the next block. -/
theorem cells_brk (h : Heap A α) : h.cells h.brk = none := by
  by_contra hne
  rcases Option.ne_none_iff_exists'.mp hne with ⟨x, hx⟩
  rcases h.owned _ _ hx with ⟨n, hn, heq⟩
  have := A.fresh heq
  omega

/-- An object's address is not the address of the next block. -/
theorem ne_brk {h : Heap A α} {a : ℕ} {x : α} (hx : h.cells a = some x) : a ≠ h.brk := by
  rintro rfl
  rw [cells_brk] at hx
  cases hx

/-- An allocation keeps every object. -/
theorem alloc_keeps {h : Heap A α} {a : ℕ} {x : α} (y : α) (hx : h.cells a = some x) :
    (h.alloc y).cells a = some x := by
  simp [alloc, ne_brk hx, hx]

/-- `h'` has every object of `h`, where it is in `h`. -/
def Extends (h h' : Heap A α) : Prop := ∀ a x, h.cells a = some x → h'.cells a = some x

theorem Extends.trans {h₁ h₂ h₃ : Heap A α} (h : h₁.Extends h₂) (h' : h₂.Extends h₃) :
    h₁.Extends h₃ := fun a x hx => h' a x (h a x hx)

theorem extends_alloc (h : Heap A α) (y : α) : h.Extends (h.alloc y) :=
  fun _ _ hx => alloc_keeps y hx

theorem write_same {h : Heap A α} {a : ℕ} {y : α} (x : α) (hy : h.cells a = some y) :
    (h.write a x).cells a = some x := by
  simp [write, hy]

theorem write_ne (h : Heap A α) {a b : ℕ} (x : α) (hb : b ≠ a) :
    (h.write a x).cells b = h.cells b := by
  simp [write, hb]

/-- Every object's address is aligned. -/
theorem aligned_of_cells {h : Heap A α} {a : ℕ} {x : α} (hx : h.cells a = some x) :
    a % 8 = 0 := by
  rcases h.owned a x hx with ⟨n, -, rfl⟩
  exact A.aligned n

theorem ne_zero_of_cells {h : Heap A α} {a : ℕ} {x : α} (hx : h.cells a = some x) : a ≠ 0 := by
  rcases h.owned a x hx with ⟨n, -, rfl⟩
  exact A.nonnull n

theorem brk_aligned (h : Heap A α) : h.brk % 8 = 0 := A.aligned _

/-! ### Counting allocations -/

/-- Every block that was handed out holds an object. -/
def Full (h : Heap A α) : Prop := ∀ n < h.next, h.cells (A.addr n) ≠ none

theorem full_empty : (empty : Heap A α).Full := fun n hn => absurd hn (Nat.not_lt_zero n)

theorem Full.alloc {h : Heap A α} (hfull : h.Full) (x : α) : (h.alloc x).Full := by
  intro n hn
  by_cases hlast : n = h.next
  · subst hlast
    have hcell : (h.alloc x).cells (A.addr h.next) = some x := alloc_brk h x
    rw [hcell]
    exact Option.some_ne_none x
  · have hlt : n < h.next := Nat.lt_of_le_of_ne (Nat.le_of_lt_succ hn) hlast
    rcases Option.ne_none_iff_exists'.mp (hfull n hlt) with ⟨y, hy⟩
    rw [alloc_keeps x hy]
    exact Option.some_ne_none y

theorem Full.write {h : Heap A α} (hfull : h.Full) (a : ℕ) (x : α) : (h.write a x).Full := by
  intro n hn
  rcases Option.ne_none_iff_exists'.mp (hfull n hn) with ⟨y, hy⟩
  by_cases ha : A.addr n = a
  · subst ha
    rw [write_same x hy]
    exact Option.some_ne_none x
  · rw [write_ne h x ha, hy]
    exact Option.some_ne_none y

/-- The number of allocations whose block holds an object of the kind `p`. -/
def allocated (h : Heap A α) (p : α → Bool) : ℕ :=
  ((Finset.range h.next).filter fun n => (h.cells (A.addr n)).any p).card

/-- If the objects of a kind are named by the elements of a set, one by each,
there are as many allocations as elements. -/
theorem allocated_eq_card {ι : Type} [DecidableEq ι] {h : Heap A α} {p : α → Bool} {S : Finset ι}
    {f : ι → ℕ} (hinj : Set.InjOn f S)
    (hcells : ∀ a, (∃ x, h.cells a = some x ∧ p x = true) ↔ ∃ i ∈ S, f i = a) :
    h.allocated p = S.card := by
  have himage : ((Finset.range h.next).filter fun n => (h.cells (A.addr n)).any p).image A.addr =
      S.image f := by
    ext a
    rw [Finset.mem_image, Finset.mem_image, ← hcells]
    constructor
    · rintro ⟨n, hn, rfl⟩
      have hany := (Finset.mem_filter.mp hn).2
      cases hx : h.cells (A.addr n) with
      | none =>
        rw [hx] at hany
        cases hany
      | some x =>
        rw [hx] at hany
        exact ⟨x, rfl, hany⟩
    · rintro ⟨x, hx, hp⟩
      rcases h.owned a x hx with ⟨n, hn, rfl⟩
      refine ⟨n, Finset.mem_filter.mpr ⟨Finset.mem_range.mpr hn, ?_⟩, rfl⟩
      rw [hx]
      exact hp
  rw [allocated, ← Finset.card_image_of_injective _ A.fresh, himage,
    Finset.card_image_of_injOn hinj]

/-- In a full heap every allocation is of one kind or of the other. -/
theorem Full.next_eq {h : Heap A α} (hfull : h.Full) (p : α → Bool) :
    h.next = h.allocated p + h.allocated fun x => !p x := by
  have hnot : (Finset.range h.next).filter (fun n => (h.cells (A.addr n)).any fun x => !p x) =
      (Finset.range h.next).filter fun n => ¬ (h.cells (A.addr n)).any p := by
    refine Finset.filter_congr ?_
    intro n hn
    rcases Option.ne_none_iff_exists'.mp (hfull n (Finset.mem_range.mp hn)) with ⟨x, hx⟩
    rw [hx]
    simp
  rw [allocated, allocated, hnot, Finset.card_filter_add_card_filter_not, Finset.card_range]

end Heap

/-! ## Tagged pointers

A pointer to an aligned block has zero low bits, where a tag of `k` bits
fits. -/

/-- The tag in the low `k` bits: `p & (2^k - 1)`. -/
def tagOf (k p : ℕ) : ℕ := p &&& (2 ^ k - 1)

/-- The pointer without its tag: `p & ~(2^k - 1)`. -/
def untag (k p : ℕ) : ℕ := (p >>> k) <<< k

/-- The pointer with a tag added: `p | t`. -/
def tagged (p t : ℕ) : ℕ := p ||| t

theorem tagOf_eq_mod (k p : ℕ) : tagOf k p = p % 2 ^ k := by
  simp [tagOf, Nat.and_two_pow_sub_one_eq_mod]

theorem untag_eq (k p : ℕ) : untag k p = p - p % 2 ^ k := by
  have h := Nat.div_add_mod p (2 ^ k)
  rw [untag, Nat.shiftRight_eq_div_pow, Nat.shiftLeft_eq, Nat.mul_comm]
  omega

/-- On an aligned pointer, adding a tag is an addition. -/
theorem tagged_eq_add {k p t : ℕ} (hp : p % 2 ^ k = 0) (ht : t < 2 ^ k) : tagged p t = p + t := by
  rcases Nat.dvd_of_mod_eq_zero hp with ⟨q, rfl⟩
  exact (Nat.two_pow_add_eq_or_of_lt ht q).symm

theorem tagOf_tagged {k p t : ℕ} (hp : p % 2 ^ k = 0) (ht : t < 2 ^ k) :
    tagOf k (tagged p t) = t := by
  rw [tagOf_eq_mod, tagged_eq_add hp ht, Nat.add_mod, hp, Nat.zero_add, Nat.mod_mod,
    Nat.mod_eq_of_lt ht]

theorem untag_tagged {k p t : ℕ} (hp : p % 2 ^ k = 0) (ht : t < 2 ^ k) :
    untag k (tagged p t) = p := by
  have h : tagged p t % 2 ^ k = t := by
    rw [← tagOf_eq_mod, tagOf_tagged hp ht]
  rw [untag_eq, h, tagged_eq_add hp ht, Nat.add_sub_cancel]

/-- Two pointers with one tag and one address are the same pointer. -/
theorem eq_of_tagOf_of_untag {k p q : ℕ} (ht : tagOf k p = tagOf k q)
    (hu : untag k p = untag k q) : p = q := by
  rw [tagOf_eq_mod, tagOf_eq_mod] at ht
  rw [untag_eq, untag_eq] at hu
  have hp := Nat.mod_le p (2 ^ k)
  have hq := Nat.mod_le q (2 ^ k)
  omega

end Mem
