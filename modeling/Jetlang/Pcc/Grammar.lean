import Jetlang.Ast.Ast
import Jetlang.Pcc.Runtime

/-! # The parser of `pcc.peg`

The rules and actions of the grammar, as the generated code has them, and
`pcc_parse_string`. The text is the list of its `len` bytes. `char` is signed,
and a negative character is the end of the input for the run time. The `auxil_t`
that holds the text is in a block of its own, in which there is as much room as
`malloc` gives.
-/

namespace Jetlang.Pcc

open Mem Ast

/-! ## Characters -/

/-- `pcc_auxil_getchar` on a byte that is there. At the end of the text, where it
returns -1, nothing is left to drop. -/
def pccAuxilGetchar (b : UInt8) : ℤ := b.toBitVec.toInt

/-- `[a-zA-Z]` -/
def isAlpha (c : UInt8) : Bool := (97 ≤ c && c ≤ 122) || (65 ≤ c && c ≤ 90)

/-- `[a-zA-Z0-9_]` -/
def isWord (c : UInt8) : Bool := isAlpha c || (48 ≤ c && c ≤ 57) || c == 95

/-- `[ \t\n]` -/
def isBlank (c : UInt8) : Bool := c == 32 || c == 9 || c == 10

/-! ## Rules -/

inductive PccRule where
  | prog
  | exprs
  | expr
  | atom
  | sym
  | blanks
deriving DecidableEq, Repr

inductive PccAction where
  | prog0
  | exprs0
  | exprs1
  | expr0
  | expr1
  | atom0
  | sym0
deriving DecidableEq, Repr

/-- The parsers of the grammar. -/
abbrev PccParser := Parser PccRule PccAction

def charClass (p : UInt8 → Bool) : PccParser := .charClass pccAuxilGetchar p

/-- `prog <- __ e:expr __` -/
def pccEvaluateRuleProg (pos : ℕ) : PccParser :=
  (Parser.rule .blanks none).seq <|
  (Parser.rule .expr (some 0)).seq <|
  (Parser.rule .blanks none).seq <|
  Parser.emit .prog0 pos

/-- `exprs <- e:expr __ s:exprs / e:expr` -/
def pccEvaluateRuleExprs (pos : ℕ) : PccParser :=
  Parser.alt
    ((Parser.rule .expr (some 0)).seq <|
      (Parser.rule .blanks none).seq <|
      (Parser.rule .exprs (some 1)).seq <|
      Parser.emit .exprs0 pos)
    ((Parser.rule .expr (some 0)).seq <|
      Parser.emit .exprs1 pos)

/-- `expr <- a:atom / '(' __ s:exprs __ ')'` -/
def pccEvaluateRuleExpr (pos : ℕ) : PccParser :=
  Parser.alt
    ((Parser.rule .atom (some 0)).seq <|
      Parser.emit .expr0 pos)
    ((charClass (· == 40)).seq <|
      (Parser.rule .blanks none).seq <|
      (Parser.rule .exprs (some 1)).seq <|
      (Parser.rule .blanks none).seq <|
      (charClass (· == 41)).seq <|
      Parser.emit .expr1 pos)

/-- `atom <- s:sym` -/
def pccEvaluateRuleAtom (pos : ℕ) : PccParser :=
  (Parser.rule .sym (some 0)).seq <|
  Parser.emit .atom0 pos

/-- `sym <- [a-zA-Z][a-zA-Z0-9_]*` -/
def pccEvaluateRuleSym (pos : ℕ) : PccParser :=
  (charClass isAlpha).seq <|
  (Parser.star (charClass isWord)).seq <|
  Parser.emit .sym0 pos

/-- `__ <- [ \t\n]*` -/
def pccEvaluateRuleBlanks : PccParser := Parser.star (charClass isBlank)

/-- The code of the rules. -/
def pccEvaluateRule : Grammar PccRule PccAction
  | .prog, pos => pccEvaluateRuleProg pos
  | .exprs, pos => pccEvaluateRuleExprs pos
  | .expr, pos => pccEvaluateRuleExpr pos
  | .atom, pos => pccEvaluateRuleAtom pos
  | .sym, pos => pccEvaluateRuleSym pos
  | .blanks, _ => pccEvaluateRuleBlanks

/-! ## The text of a parser -/

/-- `sizeof(pcc_auxil_t)`: the run time has this name for a pointer to an `auxil_t`. -/
def sizeofPccAuxil : ℕ := 8

/-- A word of an `auxil_t`: `len` is the first one, and `str` the second. -/
inductive AuxilField where
  | len (len : ℕ)
  | str (str : List UInt8)

/-- The block that `pcc_parse_string` allocates for an `auxil_t`, with the text in it.
There is no result when a field is written outside the block. -/
def auxilCreate (S : BlockSizes) (str : List UInt8) : Option (Block 8 AuxilField) :=
  match (Block.malloc (S.usable sizeofPccAuxil)).write 1 (.str str) with
  | some auxil => auxil.write 0 (.len str.length)
  | none => none

/-- The bytes `pcc_auxil_getchar` finds: `len` of them at `str`. -/
def auxilText (auxil : Block 8 AuxilField) : Option (List UInt8) :=
  match auxil.slots with
  | some (.len len) :: some (.str str) :: _ => some (str.take len)
  | _ => none

/-- The text in its block. -/
def auxilOf (S : BlockSizes) (str : List UInt8) : Option (List UInt8) :=
  (auxilCreate S str).bind auxilText

section Auxil

variable (S : BlockSizes) (str : List UInt8)

/-- In a block of 16 bytes there is room for both fields. -/
theorem auxilOf_roomy (hroom : 16 ≤ S.usable sizeofPccAuxil) : auxilOf S str = some str := by
  obtain ⟨k, hk⟩ : ∃ k, S.usable sizeofPccAuxil / 8 = k + 2 :=
    ⟨S.usable sizeofPccAuxil / 8 - 2, by omega⟩
  simp [auxilOf, auxilCreate, Block.write, Block.room, Block.malloc, hk, List.replicate_succ,
    auxilText]

/-- In a smaller one `str` is written outside. -/
theorem auxilOf_tight (htight : S.usable sizeofPccAuxil < 16) : auxilOf S str = none := by
  have hroom : (Block.malloc (S.usable sizeofPccAuxil) : Block 8 AuxilField).room ≤ 1 := by
    show S.usable sizeofPccAuxil / 8 ≤ 1
    omega
  unfold auxilOf auxilCreate
  rw [Block.write_eq_none _ hroom]
  rfl

end Auxil

/-! ## Actions -/

variable (S : BlockSizes) {A : Allocator} (M : ℕ)

/-- The actions of the grammar. -/
def pccAction (action : PccAction) (thunk : LeafIn Ptr) (h : Heap A AstNode) :
    Option (Ptr × Heap A AstNode) :=
  match action with
  | .prog0 => some (thunk.values 0, h)
  | .exprs0 => astExprPush M h (thunk.values 1) (thunk.values 0)
  | .exprs1 =>
      let node := astCreateExpr M h .invoke
      match astExprPush M node.2 node.1 (thunk.values 0) with
      | some (_, h') => some (node.1, h')
      | none => none
  | .expr0 => some (thunk.values 0, h)
  | .expr1 => astExprReverse M h (thunk.values 1)
  | .atom0 => some (thunk.values 0, h)
  | .sym0 => some (astCreateAtom h .sym thunk.string (thunk.stop - thunk.start))

/-! ## Parsing -/

/-- The messages with which a parse ends the program. -/
inductive PccError where
  | syntaxError
  | endOfInput
deriving DecidableEq, Repr

/-- `pcc_parse`: the return value, and the value of `prog`. A syntax error ends
the program. -/
def pccParse (fuel : ℕ) (ctx : Context PccRule PccAction) (h : Heap A AstNode) :
    Option (Except PccError (ℕ × Ptr × Heap A AstNode)) :=
  match pccApplyRule (evaluate pccEvaluateRule fuel) .prog (some 0) ctx [] with
  | some (true, ctx', thunks) =>
      match pccDoAction (pccAction M) 0 ctx'.buffer thunks ⟨fun _ => 0, 0, h⟩ with
      | some s =>
          let left := (pccRefillBuffer pccAuxilGetchar (pccCommitBuffer ctx') 1).1
          some (.ok (if 1 ≤ left then 1 else 0, s.values 0, s.state))
      | none => none
  | some (false, _, _) => some (.error .syntaxError)
  | none => none

/-- `pcc_parse_string`: the tree and the heap it is in, or the error that ends
the program. -/
def pccParseString (fuel : ℕ) (h : Heap A AstNode) (str : List UInt8) :
    Option (Except PccError (Ptr × Heap A AstNode)) :=
  match auxilOf S str with
  | some auxil =>
      match pccParse M fuel (pccCreate auxil) h with
      | some (.ok (ret, res, h')) =>
          if ret ≠ 0 then
            some (.error .endOfInput)
          else
            some (.ok (res, h'))
      | some (.error e) => some (.error e)
      | none => none
  | none => none

/-- `pcc_parse_string` on `str` ends with `r`: with enough fuel it gives `r`. -/
def Parses (h : Heap A AstNode) (str : List UInt8) (r : Except PccError (Ptr × Heap A AstNode)) :
    Prop :=
  ∃ N, ∀ fuel, N ≤ fuel → pccParseString S M fuel h str = some r

end Jetlang.Pcc
