import Jetlang.Pools.Sound

/-! # An element for the program

`pcc_memory_recycler__supply` step by step: an element that was given back, one that
is cut from the first pool, or one of a new pool. The sizes are words, and none of
them wraps.
-/

namespace Jetlang.Pools

open Regions

variable {es : ℕ} {s : State} {pools : List Pool} {frees : List ℕ}

/-! ## Elements for the program -/

/-- The sizes of a pool are no words that wrap. -/
theorem Sound.bounds (h : Sound es s pools frees) (hes : 8 ≤ es) {p : Pool} (hp : p ∈ pools) :
    p.addr + (sizeofPool + es * p.allocated) ≤ 2 ^ 64 ∧ sizeofPool + es * p.allocated < 2 ^ 63 ∧
      p.allocated ≤ es * p.allocated := by
  have hmem := h.block_mem hp
  exact ⟨h.placed.bounded _ hmem, h.placed.small _ hmem, Nat.le_mul_of_pos_left _ (by omega)⟩

/-- The words of its head. -/
theorem Sound.has_head (h : Sound es s pools frees) {p : Pool} (hp : p ∈ pools) {a : ℕ}
    (ha : a % 8 = 0) (hle : p.addr ≤ a) (hlt : a + 8 ≤ p.addr + sizeofPool) : s.memory.Has a := by
  refine ⟨ha, p.block es, h.block_mem hp, hle, Nat.le_trans hlt ?_⟩
  exact (p.head_within es).stop_le

/-- The words of the head of a pool are in its block. -/
theorem Sound.has_allocated (h : Sound es s pools frees) {p : Pool} (hp : p ∈ pools) :
    s.memory.Has (poolAllocated p.addr) := by
  have haligned : p.addr % 8 = 0 := h.placed.aligned _ (h.block_mem hp)
  unfold poolAllocated
  exact h.has_head hp (by omega) (by omega) (by unfold sizeofPool; omega)

theorem Sound.has_unused (h : Sound es s pools frees) {p : Pool} (hp : p ∈ pools) :
    s.memory.Has (poolUnused p.addr) := by
  have haligned : p.addr % 8 = 0 := h.placed.aligned _ (h.block_mem hp)
  unfold poolUnused
  exact h.has_head hp (by omega) (by omega) (by unfold sizeofPool; omega)

/-- The recycler points to the pool made last. -/
theorem Sound.poolList_eq {p : Pool} {ps : List Pool} (h : Sound es s (p :: ps) frees) :
    s.recycler.poolList = p.addr := by
  have hlinked := h.linked
  generalize s.recycler.poolList = q at hlinked
  cases hlinked with
  | cons => rfl

/-- The number and the address of the element that is cut next do not wrap. -/
theorem Sound.word_element (h : Sound es s pools frees) (hes : 8 ≤ es) {p : Pool} (hp : p ∈ pools)
    (hunused : 0 < p.unused) :
    word (p.unused + (2 ^ 64 - 1)) = p.unused - 1 ∧
      word (p.addr + sizeofPool + word (es * (p.unused - 1))) =
        p.addr + sizeofPool + es * (p.unused - 1) := by
  rcases h.bounds hes hp with ⟨hbound, hsmall, hle⟩
  have hunused_le := h.unused_le p hp
  have hmul : es * (p.unused - 1) + es ≤ es * p.allocated := by
    rw [← Nat.mul_succ]
    exact Nat.mul_le_mul_left es (by omega)
  unfold word
  refine ⟨by omega, ?_⟩
  rw [Nat.mod_eq_of_lt (a := es * (p.unused - 1)) (by omega), Nat.mod_eq_of_lt (by omega)]

/-- The head of the first pool is not where those of the others are. -/
theorem Sound.heads_apart {p : Pool} {ps : List Pool} (h : Sound es s (p :: ps) frees) {q : Pool}
    (hq : q ∈ ps) : q.addr + sizeofPool ≤ p.addr ∨ p.addr + sizeofPool ≤ q.addr := by
  have hmap := (List.pairwise_append.mp h.pairwise).1
  rw [List.map_cons, List.pairwise_cons] at hmap
  have hapart := (hmap.1 _ (List.mem_map_of_mem hq)).1
  unfold Region.stop Pool.block at hapart
  simp only at hapart
  omega

/-- Only one word of the first pool counts its unused elements. -/
theorem Sound.ne_unused {p : Pool} {ps : List Pool} (h : Sound es s (p :: ps) frees) {q : Pool}
    (hq : q ∈ p :: ps) : q.addr ≠ poolUnused p.addr ∧ poolAllocated q.addr ≠ poolUnused p.addr := by
  unfold poolUnused poolAllocated
  rcases List.mem_cons.mp hq with rfl | hq
  · omega
  · have hapart := h.heads_apart hq
    unfold sizeofPool at hapart
    omega

/-- The elements of a pool from which one more is cut. -/
theorem Pool.cut_pred {p : Pool} (hle : p.unused ≤ p.allocated) (hunused : 0 < p.unused) :
    ({ p with unused := p.unused - 1 } : Pool).cut es =
      (p.addr + sizeofPool + es * (p.unused - 1)) :: p.cut es := by
  unfold Pool.cut
  simp only
  have hlen : p.allocated - (p.unused - 1) = p.allocated - p.unused + 1 := by omega
  rw [hlen, row_succ, Nat.sub_add_cancel hunused]

/-- An element is cut from the first pool. Only the head of the pool is written. -/
theorem Sound.cutElement {p : Pool} {ps : List Pool} (h : Sound es s (p :: ps) [])
    (hes : 8 ≤ es) (hunused : 0 < p.unused) :
    ∃ e m, cutElement s.memory s.recycler = .ok (e, m, s.recycler) ∧
      Sound es ⟨m, s.recycler, e :: s.live, s.others, max s.peak (s.live.length + 1)⟩
        ({ p with unused := p.unused - 1 } :: ps) [] ∧
      ∀ a, a ≠ poolUnused p.addr → m.words a = s.memory.words a := by
  have hp : p ∈ p :: ps := List.mem_cons_self
  have hhas := h.has_unused hp
  rcases h.word_element hes hp hunused with ⟨hword, helement⟩
  have hsame : ∀ a, a ≠ poolUnused p.addr →
      Function.update s.memory.words (poolUnused p.addr) (p.unused - 1) a = s.memory.words a :=
    fun a ha => Function.update_of_ne ha _ _
  refine ⟨p.addr + sizeofPool + es * (p.unused - 1), ⟨Function.update s.memory.words
    (poolUnused p.addr) (p.unused - 1), s.memory.blocks⟩, ?_, ?_, hsame⟩
  · simp only [Pools.cutElement, h.poolList_eq, Memory.read_eq hhas, Memory.write_eq hhas, bind,
      Except.bind, pure, Except.pure, h.size_eq, h.unused p hp, hword, helement]
  constructor
  case size_eq => exact h.size_eq
  case placed => exact h.placed
  case blocks => exact h.blocks
  case linked =>
    refine h.linked.frame ?_
    intro a ha
    rcases List.mem_map.mp ha with ⟨q, hq, rfl⟩
    exact hsame _ (h.ne_unused hq).1
  case allocated =>
    intro q hq
    rcases List.mem_cons.mp hq with rfl | hq
    · exact (hsame _ (h.ne_unused hp).2).trans (h.allocated p hp)
    · have hq' := List.mem_cons_of_mem p hq
      exact (hsame _ (h.ne_unused hq').2).trans (h.allocated q hq')
  case unused =>
    intro q hq
    rcases List.mem_cons.mp hq with rfl | hq
    · exact Function.update_self _ _ _
    · refine (hsame _ ?_).trans (h.unused q (List.mem_cons_of_mem p hq))
      -- the other pools have heads of their own
      have hapart := h.heads_apart hq
      unfold poolUnused
      unfold sizeofPool at hapart
      omega
  case unused_le =>
    intro q hq
    rcases List.mem_cons.mp hq with rfl | hq
    · exact Nat.le_trans (Nat.sub_le _ _) (h.unused_le p hp)
    · exact h.unused_le q (List.mem_cons_of_mem p hq)
  case doubling =>
    cases h.doubling with
    | cons hps hfull hroom => exact .cons hps hfull hroom
  case free =>
    have hfree := h.free
    generalize s.recycler.entryList = q at hfree ⊢
    cases hfree with
    | nil => exact .nil
  case cut =>
    unfold cutFrom
    rw [List.flatMap_cons, Pool.cut_pred (h.unused_le p hp) hunused]
    exact h.cut.cons _
  case peak =>
    show 0 + (s.live.length + 1) ≤ max s.peak (s.live.length + 1)
    omega

/-- The size of a new pool never wraps: the last one was a block of `malloc`, which
is at most half of memory. -/
theorem Sound.newPoolSize (h : Sound es s pools frees) (hes : 8 ≤ es)
    (hmin : sizeofPool + es * poolMinSize < 2 ^ 64) :
    newPoolSize s.memory s.recycler = .ok (total pools + poolMinSize) ∧
      sizeofPool + es * (total pools + poolMinSize) < 2 ^ 64 := by
  unfold Pools.newPoolSize
  cases pools with
  | nil =>
    have hnone : s.recycler.poolList = 0 := h.linked.eq_zero
    refine ⟨if_neg fun hne => hne hnone, ?_⟩
    show sizeofPool + es * (0 + poolMinSize) < 2 ^ 64
    rwa [Nat.zero_add]
  | cons p ps =>
    have hp : p ∈ p :: ps := List.mem_cons_self
    have hlist := h.poolList_eq
    have hsome : p.addr ≠ 0 := h.placed.nonnull _ (h.block_mem hp)
    rcases h.bounds hes hp with ⟨-, hsmall, hle⟩
    -- all pools together and the least size are twice the last one
    have hroom : total (p :: ps) + poolMinSize = 2 * p.allocated := by
      cases h.doubling with
      | cons _ _ hroom =>
        show p.allocated + total ps + poolMinSize = 2 * p.allocated
        omega
    have hdouble : es * (2 * p.allocated) = 2 * (es * p.allocated) := Nat.mul_left_comm ..
    have hword : word (2 * p.allocated) = 2 * p.allocated := by
      unfold word
      omega
    have hpos : 2 * p.allocated ≠ 0 := by
      rw [← hroom]
      unfold poolMinSize
      omega
    rw [hroom]
    refine ⟨?_, ?_⟩
    · simp only [hlist, if_pos hsome, Memory.read_eq (h.has_allocated hp), bind, Except.bind,
        h.allocated p hp, hword, if_neg hpos, pure, Except.pure]
    · unfold sizeofPool at *
      omega

/-- The words of a new pool. -/
def poolWords (words : ℕ → ℕ) (pool size next : ℕ) : ℕ → ℕ :=
  Function.update (Function.update (Function.update words (poolAllocated pool) size)
    (poolUnused pool) size) pool next

/-- Making a pool writes the three words of its head. -/
theorem poolWords_of_ne {words : ℕ → ℕ} {pool size next a : ℕ} (ha : a < pool ∨ pool + 24 ≤ a) :
    poolWords words pool size next a = words a := by
  unfold poolWords poolAllocated poolUnused
  rw [Function.update_of_ne (by omega), Function.update_of_ne (by omega),
    Function.update_of_ne (by omega)]

theorem poolWords_allocated {words : ℕ → ℕ} {pool size next : ℕ} :
    poolWords words pool size next (poolAllocated pool) = size := by
  unfold poolWords poolAllocated poolUnused
  rw [Function.update_of_ne (by omega), Function.update_of_ne (by omega), Function.update_self]

theorem poolWords_unused {words : ℕ → ℕ} {pool size next : ℕ} :
    poolWords words pool size next (poolUnused pool) = size := by
  unfold poolWords poolAllocated poolUnused
  rw [Function.update_of_ne (by omega), Function.update_self]

/-- What is in another block is as it was. -/
theorem poolWords_old {blocks : List Region} {malloc : ℕ → Option ℕ}
    (hmalloc : Promises blocks malloc) {pool size n : ℕ}
    (hp : malloc (sizeofPool + n) = some pool) {b : Region} (hb : b ∈ blocks) {a : ℕ}
    (hle : b.start ≤ a) (hlt : a < b.stop) (words : ℕ → ℕ) (next : ℕ) :
    poolWords words pool size next a = words a := by
  have hapart := (hmalloc.apart _ _ hp b hb).1
  refine poolWords_of_ne ?_
  unfold Region.stop at hapart hlt
  unfold sizeofPool at hapart
  simp only at hapart
  omega

/-- A block that `malloc` adds. -/
theorem Placed.cons {blocks : List Region} (h : Placed blocks) {malloc : ℕ → Option ℕ}
    (hmalloc : Promises blocks malloc) {n p : ℕ} (hp : malloc n = some p) :
    Placed (⟨p, n⟩ :: blocks) where
  apart := List.pairwise_cons.mpr ⟨hmalloc.apart n p hp, h.apart⟩
  nonnull := List.forall_mem_cons.mpr ⟨hmalloc.nonnull n p hp, h.nonnull⟩
  aligned := List.forall_mem_cons.mpr ⟨hmalloc.aligned n p hp, h.aligned⟩
  bounded := List.forall_mem_cons.mpr ⟨hmalloc.bounded n p hp, h.bounded⟩
  small := List.forall_mem_cons.mpr ⟨hmalloc.small n p hp, h.small⟩

/-- A new pool, in a block that is apart from all others. -/
theorem Sound.pool (h : Sound es s pools frees) (hes : 8 ≤ es) {malloc : ℕ → Option ℕ}
    (hmalloc : Promises s.memory.blocks malloc) (hfull : ∀ q ∈ pools, q.unused = 0)
    {size pool : ℕ} (hsize : size = total pools + poolMinSize)
    (hp : malloc (sizeofPool + es * size) = some pool) :
    Sound es { s with
        memory := ⟨poolWords s.memory.words pool size s.recycler.poolList,
          ⟨pool, sizeofPool + es * size⟩ :: s.memory.blocks⟩
        recycler := { s.recycler with poolList := pool } }
      (⟨pool, size, size⟩ :: pools) frees := by
  -- the heads of the other pools are not in the new block
  have hhead : ∀ q ∈ pools, ∀ a, q.addr ≤ a → a < q.addr + sizeofPool →
      poolWords s.memory.words pool size s.recycler.poolList a = s.memory.words a := by
    intro q hq a hle hlt
    exact poolWords_old hmalloc hp (h.block_mem hq) hle
      (Nat.lt_of_lt_of_le hlt (q.head_within es).stop_le) _ _
  constructor
  case size_eq => exact h.size_eq
  case placed => exact h.placed.cons hmalloc hp
  case blocks => exact h.blocks.cons _
  case linked =>
    refine h.linked.push (hmalloc.nonnull _ _ hp) ?_ (Function.update_self _ _ _)
    intro a ha
    rcases List.mem_map.mp ha with ⟨q, hq, rfl⟩
    exact hhead q hq _ (Nat.le_refl _) (by unfold sizeofPool; omega)
  case allocated =>
    intro q hq
    rcases List.mem_cons.mp hq with rfl | hq
    · exact poolWords_allocated
    · rw [← h.allocated q hq]
      refine hhead q hq _ ?_ ?_ <;> unfold poolAllocated
      · omega
      · unfold sizeofPool
        omega
  case unused =>
    intro q hq
    rcases List.mem_cons.mp hq with rfl | hq
    · exact poolWords_unused
    · rw [← h.unused q hq]
      refine hhead q hq _ ?_ ?_ <;> unfold poolUnused
      · omega
      · unfold sizeofPool
        omega
  case unused_le =>
    intro q hq
    rcases List.mem_cons.mp hq with rfl | hq
    · exact Nat.le_refl _
    · exact h.unused_le q hq
  case doubling => exact .cons h.doubling hfull hsize
  case free =>
    refine h.free.frame ?_
    intro f hf
    rcases h.mem_cut (List.mem_append_left _ hf) with ⟨q, hq, hcut⟩
    have hwithin := (q.cut_within (h.unused_le q hq) hcut).1
    have hstop := hwithin.stop_le
    refine poolWords_old hmalloc hp (h.block_mem hq) hwithin.start_le
      (Nat.lt_of_lt_of_le ?_ hstop) _ _
    show f < f + es
    omega
  case cut =>
    -- nothing is cut from it yet
    have hnone : Pool.cut es ⟨pool, size, size⟩ = [] := by
      unfold Pool.cut
      rw [Nat.sub_self, row_zero]
    unfold cutFrom
    rw [List.flatMap_cons, hnone]
    exact h.cut
  case peak => exact h.peak

/-- A pool is put in front, or there is no memory. -/
theorem Sound.addPool (h : Sound es s pools frees) (hes : 8 ≤ es)
    (hmin : sizeofPool + es * poolMinSize < 2 ^ 64) {malloc : ℕ → Option ℕ}
    (hmalloc : Promises s.memory.blocks malloc) {size : ℕ}
    (hsize : size = total pools + poolMinSize) :
    addPool malloc s.memory s.recycler = .error .outOfMemory ∨
      ∃ pool, malloc (sizeofPool + es * size) = some pool ∧
        addPool malloc s.memory s.recycler =
          .ok (⟨poolWords s.memory.words pool size s.recycler.poolList,
              ⟨pool, sizeofPool + es * size⟩ :: s.memory.blocks⟩,
            { s.recycler with poolList := pool }) := by
  rcases h.newPoolSize hes hmin with ⟨hnew, hbound⟩
  rw [← hsize] at hnew hbound
  have hword : word (sizeofPool + word (es * size)) = sizeofPool + es * size := by
    unfold word
    rw [Nat.mod_eq_of_lt (a := es * size) (by omega), Nat.mod_eq_of_lt hbound]
  cases hp : malloc (sizeofPool + es * size) with
  | none =>
    left
    simp only [Pools.addPool, hnew, h.size_eq, hword, Memory.malloc, hp, bind, Except.bind]
  | some pool =>
    refine Or.inr ⟨pool, rfl, ?_⟩
    have haligned := hmalloc.aligned _ _ hp
    -- the head of the pool is in its block
    have hhas : ∀ words a, a % 8 = 0 → pool ≤ a → a + 8 ≤ pool + sizeofPool →
        Memory.Has ⟨words, ⟨pool, sizeofPool + es * size⟩ :: s.memory.blocks⟩ a := by
      intro words a ha hle hlt
      refine ⟨ha, _, List.mem_cons_self, hle, Nat.le_trans hlt ?_⟩
      exact Nat.add_le_add_left (Nat.le_add_right _ _) pool
    have hallocated := fun words => hhas words (poolAllocated pool)
      (by unfold poolAllocated; omega) (by unfold poolAllocated; omega)
      (by unfold poolAllocated sizeofPool; omega)
    have hunused := fun words => hhas words (poolUnused pool)
      (by unfold poolUnused; omega) (by unfold poolUnused; omega)
      (by unfold poolUnused sizeofPool; omega)
    have hnext := fun words => hhas words pool haligned (Nat.le_refl _)
      (by unfold sizeofPool; omega)
    simp only [Pools.addPool, hnew, h.size_eq, hword, Memory.malloc, hp, bind, Except.bind, pure,
      Except.pure, Memory.write_eq (hallocated _), Memory.write_eq (hunused _),
      Memory.write_eq (hnext _), poolWords]

/-- The program finds what it has as it was. -/
def Kept (es : ℕ) (s : State) (m : Memory) : Prop :=
  (∀ e ∈ s.live, ∀ a, Within ⟨a, 8⟩ (element es e) → m.words a = s.memory.words a) ∧
    ∀ b ∈ s.others, ∀ a, Within ⟨a, 8⟩ b → m.words a = s.memory.words a

/-- What is not in the words of the recycler is kept. -/
theorem Sound.kept (h : Sound es s pools frees) (hes : 8 ≤ es) {m : Memory}
    (hsame : ∀ a, ¬ Owned pools frees a → m.words a = s.memory.words a) : Kept es s m :=
  ⟨fun _ he a ha => hsame a (h.not_owned_element hes he ha),
    fun _ hb a ha => hsame a (h.not_owned_block hes hb ha)⟩

/-- What two steps keep, both together keep. -/
theorem Kept.trans {m₁ m : Memory} {recycler : Recycler} (h : Kept es s m₁)
    (h' : Kept es ⟨m₁, recycler, s.live, s.others, s.peak⟩ m) : Kept es s m := by
  refine ⟨?_, ?_⟩
  · intro e he a ha
    exact (h'.1 e he a ha).trans (h.1 e he a ha)
  · intro b hb a ha
    exact (h'.2 b hb a ha).trans (h.2 b hb a ha)

/-- The count of unused elements belongs to the recycler. -/
theorem owned_unused {p : Pool} (hp : p ∈ pools) : Owned pools frees (poolUnused p.addr) := by
  refine Or.inr ⟨p, hp, ?_⟩
  unfold poolUnused sizeofPool
  omega

/-- A new pool is none of it. -/
theorem Sound.pool_kept (h : Sound es s pools frees) {malloc : ℕ → Option ℕ}
    (hmalloc : Promises s.memory.blocks malloc) {size pool n : ℕ}
    (hp : malloc (sizeofPool + n) = some pool) (next : ℕ) (blocks : List Region) :
    Kept es s ⟨poolWords s.memory.words pool size next, blocks⟩ := by
  refine ⟨?_, ?_⟩
  · intro e he a ha
    rcases h.mem_cut (List.mem_append_right _ he) with ⟨q, hq, hcut⟩
    have hwithin := (q.cut_within (h.unused_le q hq) hcut).1
    have hstop := ha.stop_le
    refine poolWords_old hmalloc hp (h.block_mem hq) (Nat.le_trans hwithin.start_le ha.start_le)
      (Nat.lt_of_lt_of_le ?_ (Nat.le_trans hstop hwithin.stop_le)) _ _
    exact Nat.lt_add_of_pos_right (Nat.succ_pos 7)
  · intro b hb a ha
    have hmem := h.blocks.mem_iff.mpr (List.mem_append_right _ hb)
    refine poolWords_old hmalloc hp hmem ha.start_le (Nat.lt_of_lt_of_le ?_ ha.stop_le) _ _
    exact Nat.lt_add_of_pos_right (Nat.succ_pos 7)

/-- The first pool is asked for an unused element, if there is one. -/
theorem Sound.hasUnused (h : Sound es s pools frees) :
    (hasUnused s.memory s.recycler = .ok true ∧ ∃ p ps, pools = p :: ps ∧ 0 < p.unused) ∨
      hasUnused s.memory s.recycler = .ok false ∧ ∀ p ∈ pools, p.unused = 0 := by
  cases pools with
  | nil => exact Or.inr ⟨if_pos h.linked.eq_zero, List.forall_mem_nil _⟩
  | cons p ps =>
    have hp : p ∈ p :: ps := List.mem_cons_self
    have hpos : p.addr ≠ 0 := h.placed.nonnull _ (h.block_mem hp)
    have hread : Pools.hasUnused s.memory s.recycler = .ok (p.unused != 0) := by
      unfold Pools.hasUnused
      rw [h.poolList_eq, if_neg hpos, Memory.read_eq (h.has_unused hp), h.unused p hp]
      rfl
    rw [hread]
    by_cases hunused : p.unused = 0
    · refine Or.inr ⟨by rw [hunused]; rfl, ?_⟩
      cases h.doubling with
      | cons _ hfull _ => exact List.forall_mem_cons.mpr ⟨hunused, hfull⟩
    · exact Or.inl ⟨by rw [bne_iff_ne.mpr hunused], p, ps, rfl, Nat.pos_of_ne_zero hunused⟩

/-- **`pcc_memory_recycler__supply`.** It gives the program an element and keeps
what the program has, or there is no memory. -/
theorem Sound.supply (h : Sound es s pools frees) (hes : 8 ≤ es) (hes' : es % 8 = 0)
    (hmin : sizeofPool + es * poolMinSize < 2 ^ 64) {malloc : ℕ → Option ℕ}
    (hmalloc : Promises s.memory.blocks malloc) :
    pccMemoryRecyclerSupply malloc s.memory s.recycler = .error .outOfMemory ∨
      ∃ e m recycler pools' frees',
        pccMemoryRecyclerSupply malloc s.memory s.recycler = .ok (e, m, recycler) ∧
          Sound es ⟨m, recycler, e :: s.live, s.others, max s.peak (s.live.length + 1)⟩ pools'
            frees' ∧ Kept es s m := by
  by_cases hentry : s.recycler.entryList ≠ 0
  · -- an element that was given back
    right
    rcases h.free.exists_cons hentry with ⟨frees', rfl, hfree⟩
    have hhas := h.has_element hes hes' (List.mem_append_left _ List.mem_cons_self)
    refine ⟨s.recycler.entryList, s.memory,
      { s.recycler with entryList := s.memory.words s.recycler.entryList }, pools, frees', ?_, ?_,
      fun _ _ _ _ => rfl, fun _ _ _ _ => rfl⟩
    · simp only [pccMemoryRecyclerSupply, if_pos hentry, Memory.read_eq hhas, bind, Except.bind,
        pure, Except.pure]
    · have hpeak := h.peak
      rw [List.length_cons] at hpeak
      exact { h with
        free := hfree
        cut := List.perm_middle.trans h.cut
        peak := by
          show frees'.length + (s.live.length + 1) ≤ max s.peak (s.live.length + 1)
          omega }
  · -- the program has all elements that were cut
    have hnone : frees = [] := by
      have hfree := h.free
      rw [not_not.mp hentry] at hfree
      exact hfree.eq_nil
    subst hnone
    rcases h.hasUnused with ⟨hb, p, ps, rfl, hunused⟩ | ⟨hb, hfull⟩
    · -- one that was never used
      right
      rcases h.cutElement hes hunused with ⟨e, m, hcut, hsound, hsame⟩
      refine ⟨e, m, s.recycler, _, [], ?_, hsound, h.kept hes ?_⟩
      · simp only [pccMemoryRecyclerSupply, if_neg hentry, hb, bind, Except.bind, hcut, if_true]
      · intro a ha
        refine hsame a ?_
        rintro rfl
        exact ha (owned_unused List.mem_cons_self)
    · -- one of a new pool
      rcases h.addPool hes hmin hmalloc rfl with hnone | ⟨pool, hp, hadd⟩
      · left
        simp only [pccMemoryRecyclerSupply, if_neg hentry, hb, bind, Except.bind, hnone,
          Bool.false_eq_true, if_false]
      · right
        have hpool := h.pool hes hmalloc hfull rfl hp
        have hpos : 0 < total pools + poolMinSize := by
          unfold poolMinSize
          omega
        rcases hpool.cutElement hes hpos with ⟨e, m, hcut, hsound, hsame⟩
        refine ⟨e, m, { s.recycler with poolList := pool }, _, [], ?_, hsound, ?_⟩
        · simp only [pccMemoryRecyclerSupply, if_neg hentry, hb, bind, Except.bind, hadd,
            Bool.false_eq_true, if_false]
          exact hcut
        · refine (h.pool_kept hmalloc hp s.recycler.poolList _).trans (hpool.kept hes ?_)
          intro a ha
          refine hsame a ?_
          rintro rfl
          exact ha (owned_unused List.mem_cons_self)

end Jetlang.Pools
