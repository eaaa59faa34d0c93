import Jetlang.Mem.Block
import Jetlang.Mem.Heap

/-! # The syntax tree of `ast.c`

A node is an atom or an expression, and a pointer to it carries the kind in its
lowest bit. The body of an expression is a growing vector of pointers. The
functions are the C functions of the same name; one that would leave the bounds
of a block, or take an atom for an expression, has no result.

Sizes are computed modulo `M`. It is `2 ^ 64` for the `size_t` of the target,
and 0 where sizes are unbounded, as `n % 0` is `n`.
-/

namespace Jetlang.Ast

open Mem

/-! ## Nodes -/

/-- `ast_node_t *`: an address with the kind of the node in its lowest bit. -/
abbrev Ptr := ℕ

inductive AstAtomHead where
  | nil
  | sym
  | int
deriving DecidableEq, Repr

inductive AstExprHead where
  | invoke
deriving DecidableEq, Repr

/-- `ast_atom_body_t`, with the bytes of the buffer `str` points to. -/
structure AstAtomBody where
  len : ℕ
  str : List UInt8
deriving DecidableEq, Repr

/-- `ast_expr_body_t`, with the block `vec` points to. -/
structure AstExprBody where
  len : ℕ
  cap : ℕ
  vec : Block 8 Ptr

/-- `ast_node_t`. -/
inductive AstNode where
  | atom (head : AstAtomHead) (body : AstAtomBody)
  | expr (head : AstExprHead) (body : AstExprBody)

abbrev astNodeFlagAtom : ℕ := 0
abbrev astNodeFlagExpr : ℕ := 1

/-- `ast_node_encode`. -/
def astNodeEncode (node : ℕ) (flag : ℕ) : Ptr := tagged node flag

/-- `ast_node_decode`. -/
def astNodeDecode (node : Ptr) : ℕ := untag 1 node

/-- `ast_node_typeof`. -/
def astNodeTypeof (node : Ptr) : ℕ := tagOf 1 node

variable {A : Allocator} (M : ℕ)

/-! ## Atoms -/

/-- `ast_create_atom`: the first `len` bytes of `str` are copied, and a zero byte
put behind them. -/
def astCreateAtom (h : Heap A AstNode) (head : AstAtomHead) (str : List UInt8) (len : ℕ) :
    Ptr × Heap A AstNode :=
  (astNodeEncode h.brk astNodeFlagAtom, h.alloc (.atom head ⟨len, str.take len ++ [0]⟩))

/-! ## Expressions -/

/-- `ast_create_expr`. -/
def astCreateExpr (h : Heap A AstNode) (head : AstExprHead) : Ptr × Heap A AstNode :=
  (astNodeEncode h.brk astNodeFlagExpr, h.alloc (.expr head ⟨0, 4, Block.malloc ((4 * 8) % M)⟩))

/-- `_ast_expr_body_push`, after the vector was resized if it was full. -/
def AstExprBody.store (body : AstExprBody) (item : Ptr) : Option AstExprBody :=
  match body.vec.write body.len item with
  | some vec => some { body with vec := vec, len := (body.len + 1) % M }
  | none => none

/-- `_ast_expr_body_push`. -/
def astExprBodyPush (body : AstExprBody) (item : Ptr) : Option AstExprBody :=
  if body.len = body.cap then
    let cap := body.cap * 2 % M
    AstExprBody.store M ⟨body.len, cap, body.vec.realloc (cap * 8 % M)⟩ item
  else
    AstExprBody.store M body item

/-- `_ast_expr_body_reverse`. The upper index is `len - 1` in `size_t`. -/
def astExprBodyReverse (body : AstExprBody) : Option AstExprBody :=
  match body.vec.reverseBetween 0 ((body.len + M - 1) % M) with
  | some vec => some { body with vec := vec }
  | none => none

/-- Apply a function to the body of the expression at `node`. -/
def onExprBody (h : Heap A AstNode) (node : Ptr) (f : AstExprBody → Option AstExprBody) :
    Option (Heap A AstNode) :=
  match h.cells (astNodeDecode node) with
  | some (.expr head body) =>
      match f body with
      | some body' => some (h.write (astNodeDecode node) (.expr head body'))
      | none => none
  | _ => none

/-- `ast_expr_push`. -/
def astExprPush (h : Heap A AstNode) (node item : Ptr) : Option (Ptr × Heap A AstNode) :=
  match onExprBody h node fun body => astExprBodyPush M body item with
  | some h' => some (node, h')
  | none => none

/-- `ast_expr_reverse`. -/
def astExprReverse (h : Heap A AstNode) (node : Ptr) : Option (Ptr × Heap A AstNode) :=
  match onExprBody h node (astExprBodyReverse M) with
  | some h' => some (node, h')
  | none => none

/-! ## The list in a body -/

/-- The body holds the list `xs`, in a block of as many slots as its capacity. -/
structure AstExprBody.Reads (body : AstExprBody) (xs : List Ptr) : Prop where
  len_eq : body.len = xs.length
  len_le : body.len ≤ body.cap
  cap_pos : 0 < body.cap
  size_eq : body.vec.size = body.cap * 8
  holds : body.vec.Holds xs

/-- Neither the sizes of a vector of `n` entries nor those of its next growth
wrap. -/
def Fits (n : ℕ) : Prop := M = 0 ∨ 16 * n ≤ M

variable {M}

/-- A number of bytes for a vector that fits is computed exactly. -/
theorem Fits.mod_eq {n k : ℕ} (hn : Fits M n) (hk : k < 16 * n) : k % M = k := by
  rcases hn with rfl | hM
  · exact Nat.mod_zero k
  · exact Nat.mod_eq_of_lt (by omega)

theorem Fits.mono {n k : ℕ} (hn : Fits M n) (hk : k ≤ n) : Fits M k := by
  rcases hn with hM | hM
  · exact Or.inl hM
  · exact Or.inr (by omega)

namespace AstExprBody.Reads

variable {body : AstExprBody} {xs : List Ptr} (h : body.Reads xs)

include h

theorem room_eq : body.vec.room = body.cap := by
  unfold Block.room
  rw [h.size_eq]
  omega

/-- Storing an item in a body that is not full appends it. -/
theorem store (item : Ptr) (hroom : body.len < body.cap) (hfit : Fits M (xs.length + 1)) :
    ∃ body', AstExprBody.store M body item = some body' ∧ body'.Reads (xs ++ [item]) := by
  have hlen := h.len_eq
  rcases Block.write_holds item h.holds (by rw [h.room_eq]; omega) with ⟨vec, hwrite, hsize, hholds⟩
  have hwrap : (body.len + 1) % M = body.len + 1 := hfit.mod_eq (by omega)
  refine ⟨{ body with vec := vec, len := body.len + 1 }, ?_, ?_⟩
  · unfold AstExprBody.store
    rw [hlen, hwrite]
    simp only [← hlen, hwrap]
  · refine ⟨?_, hroom, h.cap_pos, hsize.trans h.size_eq, hholds⟩
    rw [List.length_append, List.length_singleton, ← hlen]

/-- `_ast_expr_body_push` appends. A full body is doubled first. -/
theorem push (item : Ptr) (hfit : Fits M (xs.length + 1)) :
    ∃ body', astExprBodyPush M body item = some body' ∧ body'.Reads (xs ++ [item]) := by
  have hlen := h.len_eq
  have hle := h.len_le
  have hpos := h.cap_pos
  unfold astExprBodyPush
  by_cases hfull : body.len = body.cap
  · have hcap : body.cap * 2 % M = body.cap * 2 := hfit.mod_eq (by omega)
    have hbytes : body.cap * 2 * 8 % M = body.cap * 2 * 8 := hfit.mod_eq (by omega)
    have hgrown : AstExprBody.Reads ⟨body.len, body.cap * 2, body.vec.realloc (body.cap * 2 * 8)⟩
        xs := by
      refine ⟨hlen, ?_, ?_, rfl, Block.realloc_holds h.holds (by omega)⟩
      · show body.len ≤ body.cap * 2
        omega
      · show 0 < body.cap * 2
        omega
    rw [if_pos hfull]
    simp only [hcap, hbytes]
    apply hgrown.store item _ hfit
    show body.len < body.cap * 2
    omega
  · rw [if_neg hfull]
    exact h.store item (by omega) hfit

/-- `_ast_expr_body_reverse` reverses a list that is not empty. -/
theorem reverse (hne : xs ≠ []) (hfit : Fits M xs.length) :
    ∃ body', astExprBodyReverse M body = some body' ∧ body'.Reads xs.reverse := by
  have hlen := h.len_eq
  have hpos : 0 < xs.length := List.length_pos_iff.mpr hne
  have hhi : (body.len + M - 1) % M = xs.length - 1 := by
    have hwrap : (xs.length - 1) % M = xs.length - 1 := hfit.mod_eq (by omega)
    have hadd : body.len + M - 1 = (xs.length - 1) + M := by omega
    rw [hadd, Nat.add_mod_right, hwrap]
  rcases Block.reverseBetween_holds h.holds hne with ⟨vec, hrev, hsize, hholds⟩
  refine ⟨{ body with vec := vec }, ?_, ?_⟩
  · unfold astExprBodyReverse
    rw [hhi, hrev]
  · refine ⟨?_, h.len_le, h.cap_pos, hsize.trans h.size_eq, hholds⟩
    rw [List.length_reverse, ← hlen]

end AstExprBody.Reads

/-! ## The list at a pointer -/

/-- The pointer designates an expression with this head and the list `xs`. -/
def Designates (h : Heap A AstNode) (node : Ptr) (head : AstExprHead) (xs : List Ptr) : Prop :=
  ∃ body, h.cells (astNodeDecode node) = some (.expr head body) ∧ body.Reads xs

/-- An expression has one list of entries. -/
theorem Designates.unique {h : Heap A AstNode} {node : Ptr} {head head' : AstExprHead}
    {xs ys : List Ptr} (hx : Designates h node head xs) (hy : Designates h node head' ys) :
    xs = ys := by
  rcases hx with ⟨body, hcell, hreads⟩
  rcases hy with ⟨body', hcell', hreads'⟩
  rw [hcell] at hcell'
  cases hcell'
  exact hreads.holds.unique hreads'.holds (hreads.len_eq.symm.trans hreads'.len_eq)

/-- `h'` has the objects of `h`, except at the address of `node`. -/
structure SameBut (node : Ptr) (h h' : Heap A AstNode) : Prop where
  next_eq : h'.next = h.next
  cells_eq : ∀ a, a ≠ astNodeDecode node → h'.cells a = h.cells a

theorem decode_encode_brk (h : Heap A AstNode) {flag : ℕ} (hflag : flag < 2) :
    astNodeDecode (astNodeEncode h.brk flag) = h.brk := by
  have haligned := h.brk_aligned
  exact untag_tagged (k := 1) (by omega) hflag

theorem typeof_encode_brk (h : Heap A AstNode) {flag : ℕ} (hflag : flag < 2) :
    astNodeTypeof (astNodeEncode h.brk flag) = flag := by
  have haligned := h.brk_aligned
  exact tagOf_tagged (k := 1) (by omega) hflag

/-- The objects of a heap in which nothing is at the address of `node` are not
touched by a change there. -/
theorem SameBut.extends {node : Ptr} {h₁ h h' : Heap A AstNode} (hsame : SameBut node h h')
    (hext : h₁.Extends h) (hnone : h₁.cells (astNodeDecode node) = none) : h₁.Extends h' := by
  intro a x hx
  have hne : a ≠ astNodeDecode node := by
    rintro rfl
    rw [hnone] at hx
    cases hx
  rw [hsame.cells_eq a hne]
  exact hext a x hx

/-- A new expression has the empty list. -/
theorem designates_create (h : Heap A AstNode) (head : AstExprHead) (hfit : Fits M 3) :
    Designates (astCreateExpr M h head).2 (astCreateExpr M h head).1 head [] := by
  have hwrap : (4 * 8) % M = 4 * 8 := hfit.mod_eq (by omega)
  refine ⟨⟨0, 4, Block.malloc (4 * 8)⟩, ?_, ⟨rfl, ?_, ?_, rfl, Block.holds_nil _⟩⟩
  · show (h.alloc _).cells (astNodeDecode (astNodeEncode h.brk astNodeFlagExpr)) = _
    rw [decode_encode_brk h (by decide), Heap.alloc_brk, hwrap]
  · exact Nat.zero_le 4
  · show 0 < 4
    decide

/-- What a function on bodies does to the list is what it does at the pointer. -/
theorem onExprBody_designates {h : Heap A AstNode} {node : Ptr} {head : AstExprHead}
    {xs ys : List Ptr} {f : AstExprBody → Option AstExprBody} (hd : Designates h node head xs)
    (hf : ∀ body : AstExprBody, body.Reads xs → ∃ body', f body = some body' ∧ body'.Reads ys) :
    ∃ h', onExprBody h node f = some h' ∧ Designates h' node head ys ∧ SameBut node h h' := by
  rcases hd with ⟨body, hcell, hreads⟩
  rcases hf body hreads with ⟨body', hbody, hreads'⟩
  refine ⟨h.write (astNodeDecode node) (.expr head body'), ?_, ⟨body', ?_, hreads'⟩, rfl,
    fun a ha => Heap.write_ne h _ ha⟩
  · unfold onExprBody
    simp only [hcell, hbody]
  · exact Heap.write_same _ hcell

/-- `ast_expr_push` appends to the list. -/
theorem designates_push {h : Heap A AstNode} {node : Ptr} {head : AstExprHead} {xs : List Ptr}
    (hd : Designates h node head xs) (item : Ptr) (hfit : Fits M (xs.length + 1)) :
    ∃ h', astExprPush M h node item = some (node, h') ∧
      Designates h' node head (xs ++ [item]) ∧ SameBut node h h' := by
  rcases onExprBody_designates hd fun body hreads => hreads.push item hfit
    with ⟨h', hrun, hd', hsame⟩
  refine ⟨h', ?_, hd', hsame⟩
  unfold astExprPush
  rw [hrun]

/-- `ast_expr_reverse` reverses a list that is not empty. -/
theorem designates_reverse {h : Heap A AstNode} {node : Ptr} {head : AstExprHead} {xs : List Ptr}
    (hd : Designates h node head xs) (hne : xs ≠ []) (hfit : Fits M xs.length) :
    ∃ h', astExprReverse M h node = some (node, h') ∧ Designates h' node head xs.reverse ∧
      SameBut node h h' := by
  rcases onExprBody_designates hd fun body hreads => hreads.reverse hne hfit
    with ⟨h', hrun, hd', hsame⟩
  refine ⟨h', ?_, hd', hsame⟩
  unfold astExprReverse
  rw [hrun]

end Jetlang.Ast
