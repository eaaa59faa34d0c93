import Mathlib.Logic.Function.Iterate
import Jetlang.Mem.Heap

/-! # The symbol table of `sym.c`

`getsym` interns a string in a trie: every byte of the string, the terminator
included, selects one of the 256 slots of a node, and the slot behind the last
byte holds a pointer to the symbol. The low three bits of a slot's word tell a
null slot, a leaf and an inner node apart.

The functions are the C functions of the same name. `str` is the buffer from
the pointer on, and a call reads its first `len + 1` bytes. `printf` is left
out, and so are `gensym` and `judy_exit`, which do nothing.
-/

namespace Jetlang.Sym

open Mem

/-! ## Words, nodes and the table -/

/-- `uintptr_t`. The heap is unbounded, so words do not wrap. -/
abbrev Word := ℕ

/-- `TYPEOF(ptr)`: the tag, in the low three bits. -/
def typeOf (ptr : Word) : ℕ := tagOf 3 ptr

/-- `DECODE(ptr)`: the pointer without its tag. -/
def decode (ptr : Word) : Word := untag 3 ptr

/-- `ENCODE(ptr, tag)`. -/
def encode (ptr : Word) (tag : ℕ) : Word := tagged ptr tag

/-- `JUDY_NULL_NODE`, `JUDY_LEAF_NODE` and `JUDY_TRIE_NODE`. -/
abbrev judyNullNode : ℕ := 0
abbrev judyLeafNode : ℕ := 1
abbrev judyTrieNode : ℕ := 2

/-- `judy_trie_node_t`: one slot for every byte. -/
structure JudyTrieNode where
  vec : UInt8 → Word

/-- `symbol_t`: the length, and the bytes of the data part. -/
structure Symbol where
  len : ℕ
  data : List UInt8
deriving DecidableEq, Repr

/-- What the blocks of the table hold. -/
inductive Obj where
  | trieNode (node : JudyTrieNode)
  | symbol (sym : Symbol)

/-- The table: the root slot, and the heap with its nodes and symbols. -/
structure Judy (A : Allocator) where
  root : Word
  heap : Heap A Obj

variable {A : Allocator}

/-- `judy_init`. -/
def judyInit : Judy A where
  root := 0
  heap := .empty

/-- The slots of the node at an address. No pointer that is not a node's is
ever followed, so what this reads elsewhere does not matter. -/
def Judy.vec (m : Judy A) (node : Word) : UInt8 → Word :=
  match m.heap.cells node with
  | some (.trieNode n) => n.vec
  | _ => fun _ => 0

/-- The symbol at an address. -/
def Judy.symbol (m : Judy A) (ptr : Word) : Option Symbol :=
  match m.heap.cells ptr with
  | some (.symbol s) => some s
  | _ => none

/-- A `uintptr_t *`: the root, or a slot of a node. -/
inductive Slot where
  | root
  | vec (node : Word) (c : UInt8)
deriving DecidableEq, Repr

/-- `*jp`. -/
def Judy.load (m : Judy A) : Slot → Word
  | .root => m.root
  | .vec node c => m.vec node c

/-- `*jp = w`. -/
def Judy.store (m : Judy A) : Slot → Word → Judy A
  | .root, w => { m with root := w }
  | .vec node c, w =>
      { m with heap := m.heap.write node (.trieNode ⟨Function.update (m.vec node) c w⟩) }

/-! ## Lookup -/

/-- The loop of `_judy_find` over the bytes still to read, then its return
value (0 is `NULL`). A tag without a case would turn the loop forever. -/
def judyFindLoop (m : Judy A) : Word → List UInt8 → Option Word
  | jp, [] => some (if typeOf jp = judyLeafNode then decode jp else 0)
  | jp, c :: str =>
      if typeOf jp = judyNullNode ∨ typeOf jp = judyLeafNode then
        some 0
      else if typeOf jp = judyTrieNode then
        judyFindLoop m (m.vec (decode jp) c) str
      else
        none

/-- `_judy_find`. -/
def judyFind (m : Judy A) (str : List UInt8) (len : ℕ) : Option Word :=
  judyFindLoop m m.root (str.take (len + 1))

/-! ## Insertion -/

/-- The variables of the loop of `_judy_push`: the table, the current slot and
the bytes still to read. -/
structure PushState (A : Allocator) where
  judy : Judy A
  jp : Slot
  str : List UInt8

/-- One turn of the loop of `_judy_push`. The loop has ended when no byte is
left. A leaf has no case: the turn then changes nothing. -/
def pushTurn (s : PushState A) : PushState A :=
  match s.str with
  | [] => s
  | c :: str =>
      if typeOf (s.judy.load s.jp) = judyNullNode then
        -- a zeroed node is allocated, and the next turn enters it
        let node := s.judy.heap.brk
        let heap := s.judy.heap.alloc (.trieNode ⟨fun _ => 0⟩)
        let judy : Judy A := { s.judy with heap := heap }
        { s with judy := judy.store s.jp (encode node judyTrieNode) }
      else if typeOf (s.judy.load s.jp) = judyTrieNode then
        { s with jp := .vec (decode (s.judy.load s.jp)) c, str := str }
      else
        s

/-- The state in which the loop of `_judy_push` starts. -/
def pushStart (m : Judy A) (str : List UInt8) (len : ℕ) : PushState A where
  judy := m
  jp := .root
  str := str.take (len + 1)

/-- `_judy_push`, when its loop ends within `turns` turns. -/
def judyPush (turns : ℕ) (m : Judy A) (str : List UInt8) (len : ℕ) (val : Word) :
    Option (Word × Judy A) :=
  let s := pushTurn^[turns] (pushStart m str len)
  if s.str = [] then
    some (val, s.judy.store s.jp (encode val judyLeafNode))
  else
    none

/-- `INT_MAX`. -/
def intMax : ℕ := 2 ^ 31 - 1

/-- `sizeof(symbol_t)`: the length; the data part is a flexible array. -/
def sizeofSymbol : ℕ := 4

/-- The size of the block `_make_sym` allocates, in `size_t`. -/
def makeSymSize (len : ℕ) : ℕ := (sizeofSymbol + (len + 1) * 1) % 2 ^ 64

/-- `_make_sym`. There is no result when `len + 1` overflows `int`, or when the
bytes copied do not fit behind the header of the block. -/
def makeSym (m : Judy A) (str : List UInt8) (len : ℕ) : Option (Word × Judy A) :=
  if len + 1 ≤ intMax ∧ len + 1 ≤ makeSymSize len - sizeofSymbol then
    some (m.heap.brk,
      { m with heap := m.heap.alloc (.symbol ⟨len, str.take (len + 1)⟩) })
  else
    none

/-- `getsym`, when the loop of `_judy_push` ends within `turns` turns. -/
def getsym (turns : ℕ) (m : Judy A) (str : List UInt8) (len : ℕ) : Option (Word × Judy A) :=
  match judyFind m str len with
  | none => none
  | some res =>
      if res ≠ 0 then
        some (res, m)
      else
        match makeSym m str len with
        | none => none
        | some (res, m') => judyPush turns m' str len res

/-! ## Calls and runs -/

/-- The arguments of a call: a buffer and a length inside it. -/
structure Call where
  str : List UInt8
  len : ℕ
  readable : len < str.length

/-- The `len + 1` bytes a call reads, which are the path it takes. -/
def Call.key (c : Call) : List UInt8 := c.str.take (c.len + 1)

/-- The call ends and returns `p`, leaving the table `m'`. -/
def Returns (m : Judy A) (c : Call) (p : Word) (m' : Judy A) : Prop :=
  ∃ turns, getsym turns m c.str c.len = some (p, m')

/-- The runs after `judy_init`: the calls made with what they returned, and
the table they leave. -/
inductive Run (A : Allocator) : List (Call × Word) → Judy A → Prop where
  | init : Run A [] judyInit
  | call {log : List (Call × Word)} {m m' : Judy A} {c : Call} {p : Word} :
      Run A log m → Returns m c p m' → Run A (log ++ [(c, p)]) m'

/-! ## Lemmas of the model -/

theorem Call.key_length (c : Call) : c.key.length = c.len + 1 := by
  have := c.readable
  rw [key, List.length_take]
  omega

theorem typeOf_zero : typeOf 0 = judyNullNode := by decide

theorem typeOf_encode {p t : ℕ} (hp : p % 8 = 0) (ht : t < 8) : typeOf (encode p t) = t :=
  tagOf_tagged (k := 3) hp ht

theorem decode_encode {p t : ℕ} (hp : p % 8 = 0) (ht : t < 8) : decode (encode p t) = p :=
  untag_tagged (k := 3) hp ht

theorem word_ext {v w : Word} (ht : typeOf v = typeOf w) (hd : decode v = decode w) : v = w :=
  eq_of_tagOf_of_untag ht hd

/-- A turn with no byte left does nothing. -/
theorem pushTurn_done {s : PushState A} (h : s.str = []) : pushTurn s = s := by
  rw [pushTurn, h]

/-- Turns after the end of the loop do nothing. -/
theorem pushTurn_iterate_done {s : PushState A} (h : s.str = []) (n : ℕ) :
    pushTurn^[n] s = s :=
  Function.iterate_fixed (pushTurn_done h) n

/-- The slot is null: a zeroed node is put in it. -/
theorem pushTurn_null {s : PushState A} {c : UInt8} {str : List UInt8} (hs : s.str = c :: str)
    (hw : typeOf (s.judy.load s.jp) = judyNullNode) :
    pushTurn s =
      ⟨({ s.judy with heap := s.judy.heap.alloc (.trieNode ⟨fun _ => 0⟩) } : Judy A).store s.jp
        (encode s.judy.heap.brk judyTrieNode), s.jp, c :: str⟩ := by
  simp only [pushTurn, hs, if_pos hw]

/-- The slot is a node: the next byte selects the next slot. -/
theorem pushTurn_trie {s : PushState A} {c : UInt8} {str : List UInt8} (hs : s.str = c :: str)
    (hw : typeOf (s.judy.load s.jp) = judyTrieNode) :
    pushTurn s = ⟨s.judy, .vec (decode (s.judy.load s.jp)) c, str⟩ := by
  have hne : typeOf (s.judy.load s.jp) ≠ judyNullNode := by
    rw [hw]
    decide
  simp only [pushTurn, hs, if_neg hne, if_pos hw]

/-- The slot is a leaf: the turn changes nothing. -/
theorem pushTurn_leaf {s : PushState A} (hw : typeOf (s.judy.load s.jp) = judyLeafNode) :
    pushTurn s = s := by
  have hnull : typeOf (s.judy.load s.jp) ≠ judyNullNode := by rw [hw]; decide
  have htrie : typeOf (s.judy.load s.jp) ≠ judyTrieNode := by rw [hw]; decide
  cases hs : s.str with
  | nil => exact pushTurn_done hs
  | cons c str => simp only [pushTurn, hs, if_neg hnull, if_neg htrie]

/-- More turns do not change what a call returns. -/
theorem getsym_mono {m : Judy A} {str : List UInt8} {len n k : ℕ} {r : Word × Judy A} (hnk : n ≤ k)
    (h : getsym n m str len = some r) : getsym k m str len = some r := by
  rcases Nat.exists_eq_add_of_le hnk with ⟨d, rfl⟩
  unfold getsym at h ⊢
  cases hf : judyFind m str len with
  | none => simp [hf] at h
  | some res =>
    simp only [hf] at h ⊢
    by_cases hr : res ≠ 0
    · simpa only [if_pos hr] using h
    · simp only [if_neg hr] at h ⊢
      cases hs : makeSym m str len with
      | none => simp [hs] at h
      | some q =>
        simp only [hs, judyPush] at h ⊢
        by_cases hdone : (pushTurn^[n] (pushStart q.2 str len)).str = []
        · rw [if_pos hdone] at h
          rw [Nat.add_comm, Function.iterate_add_apply, pushTurn_iterate_done hdone,
            if_pos hdone]
          exact h
        · simp [if_neg hdone] at h

/-- A call returns one thing only. -/
theorem returns_unique {m m₁ m₂ : Judy A} {c : Call} {p₁ p₂ : Word} (h₁ : Returns m c p₁ m₁)
    (h₂ : Returns m c p₂ m₂) : p₁ = p₂ ∧ m₁ = m₂ := by
  rcases h₁ with ⟨n₁, h₁⟩
  rcases h₂ with ⟨n₂, h₂⟩
  have e₁ := getsym_mono (Nat.le_max_left n₁ n₂) h₁
  have e₂ := getsym_mono (Nat.le_max_right n₁ n₂) h₂
  rw [e₁] at e₂
  exact Prod.mk.inj (Option.some.inj e₂)

end Jetlang.Sym
