import Jetlang.Lib.Regions
import Mathlib.Algebra.Group.Nat.Defs

/-! # The memory recycler of a parser

`pcc_memory_recycler_t` hands out elements of one size. It cuts them from pools,
each of which is a block of `malloc` with twice the room of the last, and keeps the
elements it gets back in a list, which is linked through the elements themselves.

The model is the memory with its words: the head of a pool and the links lie in it,
and every access is checked to be inside of a block.
-/

namespace Jetlang.Pools

open Regions

/-! ## Memory -/

/-- The words of memory, by their addresses, and the blocks of `malloc`. -/
structure Memory where
  words : ℕ → ℕ
  blocks : List Region

/-- Why the program ends: an access outside of all blocks or a wrong `free`,
`malloc` without memory, or a loop that takes more turns than it is given. -/
inductive Halt where
  | fault
  | outOfMemory
  | deep
deriving DecidableEq, Repr

/-- There is a word at the address, in a block. -/
def Memory.Has (m : Memory) (a : ℕ) : Prop :=
  a % 8 = 0 ∧ ∃ b ∈ m.blocks, b.start ≤ a ∧ a + 8 ≤ b.stop

instance (m : Memory) (a : ℕ) : Decidable (m.Has a) := by
  unfold Memory.Has
  infer_instance

def Memory.read (m : Memory) (a : ℕ) : Except Halt ℕ :=
  if m.Has a then .ok (m.words a) else .error .fault

def Memory.write (m : Memory) (a v : ℕ) : Except Halt Memory :=
  if m.Has a then .ok { m with words := Function.update m.words a v } else .error .fault

/-- In a block every word can be read, and written. -/
theorem Memory.read_eq {m : Memory} {a : ℕ} (h : m.Has a) : m.read a = .ok (m.words a) := if_pos h

theorem Memory.write_eq {m : Memory} {a : ℕ} (h : m.Has a) (v : ℕ) :
    m.write a v = .ok ⟨Function.update m.words a v, m.blocks⟩ := if_pos h

/-- `PCC_MALLOC`, where `malloc` says which address a block of some size gets. The
program ends without memory. -/
def Memory.malloc (m : Memory) (malloc : ℕ → Option ℕ) (n : ℕ) : Except Halt (ℕ × Memory) :=
  match malloc n with
  | some p => .ok (p, { m with blocks := ⟨p, n⟩ :: m.blocks })
  | none => .error .outOfMemory

/-- `PCC_FREE`. -/
def Memory.free (m : Memory) (p : ℕ) : Except Halt Memory :=
  if m.blocks.any (·.start == p) then
    .ok { m with blocks := m.blocks.eraseP (·.start == p) }
  else
    .error .fault

/-! ## The recycler -/

/-- A number as a `size_t`. -/
def word (n : ℕ) : ℕ := n % 2 ^ 64

/-- `PCC_POOL_MIN_SIZE` -/
def poolMinSize : ℕ := 65536

/-- `sizeof(pcc_memory_pool_t)`: the words `next`, `allocated` and `unused`. -/
def sizeofPool : ℕ := 24

def poolAllocated (pool : ℕ) : ℕ := pool + 8

def poolUnused (pool : ℕ) : ℕ := pool + 16

/-- `pcc_memory_recycler_t` -/
structure Recycler where
  poolList : ℕ
  entryList : ℕ
  elementSize : ℕ

/-- `pcc_memory_recycler__init` -/
def pccMemoryRecyclerInit (elementSize : ℕ) : Recycler := ⟨0, 0, elementSize⟩

/-- How many elements a new pool has. -/
def newPoolSize (m : Memory) (recycler : Recycler) : Except Halt ℕ :=
  if recycler.poolList ≠ 0 then do
    let size := word (2 * (← m.read (poolAllocated recycler.poolList)))
    if size = 0 then m.read (poolAllocated recycler.poolList) else return size
  else
    return poolMinSize

/-- The branch of `pcc_memory_recycler__supply` that puts a new pool in front. -/
def addPool (malloc : ℕ → Option ℕ) (m : Memory) (recycler : Recycler) :
    Except Halt (Memory × Recycler) := do
  let size ← newPoolSize m recycler
  let (pool, m) ← m.malloc malloc (word (sizeofPool + word (recycler.elementSize * size)))
  let m ← m.write (poolAllocated pool) size
  let m ← m.write (poolUnused pool) size
  let m ← m.write pool recycler.poolList
  return (m, { recycler with poolList := pool })

/-- The first pool has an unused element. -/
def hasUnused (m : Memory) (recycler : Recycler) : Except Halt Bool :=
  if recycler.poolList = 0 then return false
  else return (← m.read (poolUnused recycler.poolList)) != 0

/-- The end of `pcc_memory_recycler__supply`: an element is cut from the first pool. -/
def cutElement (m : Memory) (recycler : Recycler) : Except Halt (ℕ × Memory × Recycler) := do
  let unused := word ((← m.read (poolUnused recycler.poolList)) + (2 ^ 64 - 1))
  let m ← m.write (poolUnused recycler.poolList) unused
  return (word (recycler.poolList + sizeofPool + word (recycler.elementSize * unused)), m, recycler)

/-- `pcc_memory_recycler__supply`. -/
def pccMemoryRecyclerSupply (malloc : ℕ → Option ℕ) (m : Memory) (recycler : Recycler) :
    Except Halt (ℕ × Memory × Recycler) := do
  if recycler.entryList ≠ 0 then
    let tmp := recycler.entryList
    let next ← m.read tmp
    return (tmp, m, { recycler with entryList := next })
  else if ← hasUnused m recycler then
    cutElement m recycler
  else
    let (m, recycler) ← addPool malloc m recycler
    cutElement m recycler

/-- `pcc_memory_recycler__recycle`. -/
def pccMemoryRecyclerRecycle (m : Memory) (recycler : Recycler) (ptr : ℕ) :
    Except Halt (Memory × Recycler) := do
  let m ← m.write ptr recycler.entryList
  return (m, { recycler with entryList := ptr })

/-- `pcc_memory_recycler__term`, in at most `fuel` turns of its loop. -/
def pccMemoryRecyclerTerm : ℕ → Memory → Recycler → Except Halt (Memory × Recycler)
  | 0, _, _ => .error .deep
  | fuel + 1, m, recycler =>
      if recycler.poolList = 0 then
        .ok (m, recycler)
      else do
        let tmp := recycler.poolList
        let next ← m.read tmp
        let m ← m.free tmp
        pccMemoryRecyclerTerm fuel m { recycler with poolList := next }

end Jetlang.Pools
