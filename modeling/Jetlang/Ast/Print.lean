import Jetlang.Ast.Ast
import Jetlang.Sym.Judy

/-! # `ast_pretty_print`

The printer writes one line for each node, two spaces further in than its
parent's. Its depth is an `int`, and the sum `depth + 1` that overflows it has no
result, as has an index outside a block or a string without an end.
-/

namespace Jetlang.Ast

open Mem
open Jetlang.Sym (intMax)

variable {A : Allocator}

/-! ## The printer -/

/-- The bytes of a string literal. -/
def cstr (s : String) : List UInt8 := s.toList.map fun c => UInt8.ofNat c.toNat

/-- `%s`: the bytes of a buffer up to its zero byte. -/
def formatString (buffer : List UInt8) : Option (List UInt8) :=
  if 0 ∈ buffer then
    some (buffer.takeWhile (· ≠ 0))
  else
    none

def atom2str : AstAtomHead → List UInt8
  | .nil => cstr "nil"
  | .sym => cstr "sym"
  | .int => cstr "int"

def expr2str : AstExprHead → List UInt8
  | .invoke => cstr "invoke"

/-- The loop over `body.vec`, for the `n` entries from slot `i` on. -/
def printEntries (print : Ptr → Option (List UInt8)) (vec : Block 8 Ptr) (i : ℕ) :
    ℕ → Option (List UInt8)
  | 0 => some []
  | n + 1 =>
      match vec.slots[i]? with
      | some (some item) =>
          match print item with
          | some text => (printEntries print vec (i + 1) n).map (text ++ ·)
          | none => none
      | _ => none

/-- `_ast_pretty_print`. The depth of the calls is bounded by `fuel`. -/
def astPrettyPrintAt (h : Heap A AstNode) : ℕ → Ptr → ℕ → Option (List UInt8)
  | 0, _, _ => none
  | fuel + 1, ptr, depth =>
      let flag := astNodeTypeof ptr
      let node := h.cells (astNodeDecode ptr)
      let indent := List.replicate (2 * depth) 32
      if flag = astNodeFlagAtom then
        match node with
        | some (.atom head body) =>
            match formatString body.str with
            | some str =>
                some (indent ++ (cstr "<atom:" ++ atom2str head ++ cstr "> " ++ str) ++ [10])
            | none => none
        | _ => none
      else
        match node with
        | some (.expr head body) =>
            let print := fun item =>
              if depth + 1 ≤ intMax then
                astPrettyPrintAt h fuel item (depth + 1)
              else
                none
            match printEntries print body.vec 0 body.len with
            | some text =>
                some (indent ++ (cstr "<expr:" ++ expr2str head ++ cstr ">") ++ 10 :: text)
            | none => none
        | _ => none

/-- `ast_pretty_print`. -/
def astPrettyPrint (h : Heap A AstNode) (fuel : ℕ) (node : Ptr) : Option (List UInt8) :=
  astPrettyPrintAt h fuel node 0

/-- With enough stack `ast_pretty_print(node)` writes the text. -/
def Prints (h : Heap A AstNode) (node : Ptr) (text : List UInt8) : Prop :=
  ∃ N, ∀ fuel, N ≤ fuel → astPrettyPrint h fuel node = some text

theorem Prints.unique {h : Heap A AstNode} {node : Ptr} {text text' : List UInt8}
    (hp : Prints h node text) (hp' : Prints h node text') : text = text' := by
  rcases hp with ⟨N, hN⟩
  rcases hp' with ⟨N', hN'⟩
  have htext := hN _ (Nat.le_max_left N N')
  rw [hN' _ (Nat.le_max_right N N')] at htext
  exact (Option.some.inj htext).symm

/-! ## One node -/

/-- What is written about an atom. -/
def atomLabel (head : AstAtomHead) (str : List UInt8) : List UInt8 :=
  cstr "<atom:" ++ atom2str head ++ cstr "> " ++ str

/-- What is written about an expression. -/
def exprLabel (head : AstExprHead) : List UInt8 := cstr "<expr:" ++ expr2str head ++ cstr ">"

/-- The line of a label at a depth. -/
def printLine (e : ℕ × List UInt8) : List UInt8 := List.replicate (2 * e.1) 32 ++ e.2

/-- The texts of the nodes one after the other. -/
def printAll (print : Ptr → Option (List UInt8)) : List Ptr → Option (List UInt8)
  | [] => some []
  | p :: ps =>
      match print p with
      | some text => (printAll print ps).map (text ++ ·)
      | none => none

/-- All nodes are printed exactly if the first and the others are. -/
theorem printAll_cons_iff {print : Ptr → Option (List UInt8)} {p : Ptr} {ps : List Ptr}
    {x : List UInt8} : printAll print (p :: ps) = some x ↔
      ∃ y z, print p = some y ∧ printAll print ps = some z ∧ x = y ++ z := by
  rw [printAll]
  cases print p with
  | none => simp
  | some y =>
    cases printAll print ps with
    | none => simp
    | some z => simp [eq_comm]

/-- The loop prints the entries of the list the vector holds. By induction on the
entries from slot `i` on. -/
theorem printEntries_eq (print : Ptr → Option (List UInt8)) {vec : Block 8 Ptr} {i : ℕ}
    {xs : List Ptr} (h : ∀ k < xs.length, vec.slots[i + k]? = some xs[k]?) :
    printEntries print vec i xs.length = printAll print xs := by
  induction xs generalizing i with
  | nil => rfl
  | cons x xs ih =>
    have hslot : vec.slots[i]? = some (some x) := h 0 (Nat.succ_pos _)
    have hrest := ih (i := i + 1) fun k hk => by
      rw [Nat.add_right_comm, Nat.add_assoc]
      exact h (k + 1) (Nat.succ_lt_succ hk)
    rw [List.length_cons, printEntries, hslot, printAll]
    simp only [hrest]

theorem AstExprBody.Reads.printEntries {body : AstExprBody} {xs : List Ptr} (h : body.Reads xs)
    (print : Ptr → Option (List UInt8)) :
    printEntries print body.vec 0 body.len = printAll print xs := by
  rw [h.len_eq]
  refine printEntries_eq print fun k hk => ?_
  rw [Nat.zero_add]
  exact h.holds k hk

section Node

variable {h : Heap A AstNode} {p : Ptr} (fuel depth : ℕ)

/-- An atom whose text has no zero byte writes its line. -/
theorem astPrettyPrintAt_atom {head : AstAtomHead} {len : ℕ} {str : List UInt8}
    (htag : astNodeTypeof p = astNodeFlagAtom)
    (hcell : h.cells (astNodeDecode p) = some (.atom head ⟨len, str ++ [0]⟩)) (hstr : 0 ∉ str) :
    astPrettyPrintAt h (fuel + 1) p depth =
      some (printLine (depth, atomLabel head str) ++ [10]) := by
  have hall : ∀ c ∈ str, decide (c ≠ 0) = true := fun c hc => by
    rw [decide_eq_true_eq]
    rintro rfl
    exact hstr hc
  have hformat : formatString (str ++ [0]) = some str := by
    unfold formatString
    rw [if_pos (by simp), List.takeWhile_append_of_pos hall]
    simp
  rw [astPrettyPrintAt]
  simp only [htag, hcell, hformat, if_pos]
  rfl

/-- An expression writes its line, and then prints its entries one level deeper. -/
theorem astPrettyPrintAt_expr {head : AstExprHead} {qs : List Ptr}
    (htag : astNodeTypeof p = astNodeFlagExpr) (hnode : Designates h p head qs) :
    astPrettyPrintAt h (fuel + 1) p depth =
      (printAll (fun q => if depth + 1 ≤ intMax then astPrettyPrintAt h fuel q (depth + 1)
        else none) qs).map fun text => printLine (depth, exprLabel head) ++ 10 :: text := by
  rcases hnode with ⟨body, hcell, hreads⟩
  rw [astPrettyPrintAt, hcell, htag, if_neg (by decide)]
  simp only [hreads.printEntries]
  cases printAll _ qs <;> rfl

end Node

end Jetlang.Ast
