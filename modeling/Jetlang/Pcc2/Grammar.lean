import Jetlang.Pcc.Syntax
import Jetlang.Pcc.Tokens
import Jetlang.Cst.Atoms

/-! # The parser of `pcc2.c`

The rules and actions of the generated code. It was generated from a grammar
whose only expressions are atoms. Characters come from `getchar`, which takes
every byte for itself.
-/

namespace Jetlang.Pcc2

open Pcc

/-- `PCC_GETCHAR` on a byte that is there. -/
def getchar (b : UInt8) : ℤ := b.toNat

theorem bytewise_getchar : Bytewise getchar := fun _ => rfl

/-- `[a-zA-Z_]` -/
def isLead (c : UInt8) : Bool := isAlpha c || c == 95

/-! ## Rules -/

inductive PccRule where
  | expr
  | atom
  | nil
  | int
  | sym
  | str
deriving DecidableEq, Repr

inductive PccAction where
  | atom0
  | nil0
  | int0
  | sym0
  | str0
deriving DecidableEq, Repr

/-- The parsers of the grammar. -/
abbrev PccParser := Parser PccRule PccAction

/-- The contexts of the parser. -/
abbrev PccContext := Context PccRule PccAction

def charClass (p : UInt8 → Bool) : PccParser := .charClass getchar p

def string (s : List UInt8) : PccParser := .string getchar s

/-- `"nil"` -/
def nilWord : List UInt8 := [110, 105, 108]

/-- `( "()" / "nil" )` -/
def nilToken : PccParser := Parser.alt (string [40, 41]) (string nilWord)

/-- `"0"` -/
def intToken : PccParser := charClass (· == 48)

/-- `[a-zA-Z_][a-zA-Z0-9_]+` -/
def symToken : PccParser := (charClass isLead).seq (Parser.plus (charClass isWord))

/-- `"\\\"" [^"]` -/
def strTurn : PccParser := (string [92, 34]).seq (charClass (· != 34))

/-- `'\"' ( "\\\"" [^"] )* '\"'` -/
def strToken : PccParser :=
  (charClass (· == 34)).seq <|
  (Parser.star strTurn).seq <|
  charClass (· == 34)

/-- `( a:nil / a:int / a:sym / a:str )` -/
def atomChoice : PccParser :=
  Parser.alt (Parser.rule .nil (some 0)) <|
  Parser.alt (Parser.rule .int (some 0)) <|
  Parser.alt (Parser.rule .sym (some 0)) <|
  Parser.rule .str (some 0)

/-- `expr <- atom` -/
def pccEvaluateRuleExpr : PccParser := Parser.rule .atom none

/-- `atom <- ( a:nil / a:int / a:sym / a:str )` -/
def pccEvaluateRuleAtom (pos : ℕ) : PccParser := atomChoice.seq (Parser.emit .atom0 pos)

/-- `nil <- ( "()" / "nil" )` -/
def pccEvaluateRuleNil (pos : ℕ) : PccParser := nilToken.seq (Parser.emit .nil0 pos)

/-- `int <- "0"` -/
def pccEvaluateRuleInt (pos : ℕ) : PccParser := intToken.seq (Parser.emit .int0 pos)

/-- `sym <- [a-zA-Z_][a-zA-Z0-9_]+` -/
def pccEvaluateRuleSym (pos : ℕ) : PccParser := symToken.seq (Parser.emit .sym0 pos)

/-- `str <- '\"' ( "\\\"" [^"] )* '\"'` -/
def pccEvaluateRuleStr (pos : ℕ) : PccParser := strToken.seq (Parser.emit .str0 pos)

/-- The code of the rules. -/
def pccEvaluateRule : Grammar PccRule PccAction
  | .expr, _ => pccEvaluateRuleExpr
  | .atom, pos => pccEvaluateRuleAtom pos
  | .nil, pos => pccEvaluateRuleNil pos
  | .int, pos => pccEvaluateRuleInt pos
  | .sym, pos => pccEvaluateRuleSym pos
  | .str, pos => pccEvaluateRuleStr pos

/-! ## Actions -/

/-- The positions of the capture, as the `int`s `cst_make_atom` takes. `pos` is
the position of the buffer in the input. -/
def captured (pos : ℕ) (thunk : LeafIn Cst.CstNode) : Cst.Span :=
  ⟨Cst.toInt (pos + thunk.start), Cst.toInt (pos + thunk.stop)⟩

/-- The actions of the grammar. -/
def pccAction (pos : ℕ) (action : PccAction) (thunk : LeafIn Cst.CstNode) (cst : Cst.CST) :
    Option (Cst.CstNode × Cst.CST) :=
  match action with
  | .atom0 => some (thunk.values 0, cst)
  | .nil0 => Cst.cstMakeAtom cst .nil (captured pos thunk)
  | .int0 => Cst.cstMakeAtom cst .int (captured pos thunk)
  | .sym0 => Cst.cstMakeAtom cst .sym (captured pos thunk)
  | .str0 => Cst.cstMakeAtom cst .sym (captured pos thunk)

/-- A value that is all zero bytes. -/
def zeroNode : Cst.CstNode := ⟨.nil, 0⟩

/-- The value of a chunk of thunks, and the tables its actions leave. -/
def chunkValue (pos : ℕ) (buffer : List UInt8) (c : List (Pcc.Thunk PccAction)) (cst : Cst.CST) :
    Option (Cst.CstNode × Cst.CST) :=
  match pccDoAction (pccAction pos) zeroNode buffer c ⟨fun _ => zeroNode, zeroNode, cst⟩ with
  | some s => some (s.out, s.state)
  | none => none

/-! ## What is asked of the rule `atom` -/

/-- The rule `atom` was not applied at the position before, nor were the rules
of its tokens. -/
structure Ready (ctx : PccContext) : Prop where
  wf : ctx.WF getchar
  untried : ∀ r, r ≠ .expr → ctx.lrtable ctx.cur r = none

/-- In `ctx`, where `w ++ v` comes next, the rule `atom` matches and consumes
exactly `w`. Its actions make one atom with the tag, whose entry is the span of
`w` in the input. -/
def ReadsAtom (pos : ℕ) (cst : Cst.CST) (ctx : PccContext) (w v : List UInt8)
    (tag : Cst.CstTag) : Prop :=
  let span : Cst.Span := ⟨(pos + ctx.cur : ℕ), (pos + ctx.cur + w.length : ℕ)⟩
  ∃ ctx' c node cst',
    Observes pccEvaluateRule (.rule .atom (some 0)) ctx [] (true, ctx', [.node c (some 0)]) ∧
    Consumes getchar ctx ctx' w v ∧
    chunkValue pos ctx'.buffer c cst = some (node, cst') ∧
    Cst.cstMakeAtom cst tag span = some (node, cst') ∧
    node.tag = tag ∧ Cst.Designates cst' node span

/-- At the start of a parse. -/
theorem ready_create (text : List UInt8) : Ready (pccCreate text) :=
  ⟨⟨Nat.zero_le _, fun _ hb => by cases hb⟩, fun _ _ => rfl⟩

/-- While `expr`, the rule that applies `atom`, is evaluated. -/
theorem Ready.expr {ctx : PccContext} (h : Ready ctx) (a : Answer PccAction) :
    Ready (ctx.setAnswer ctx.cur .expr a) := by
  refine ⟨h.wf.setAnswer _ _ _, ?_⟩
  intro r hr
  rw [setAnswer_ne _ _ (Or.inr hr)]
  exact h.untried r hr

end Jetlang.Pcc2
