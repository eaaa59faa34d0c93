import Jetlang.Lib.Julia

/-! # The evaluator of `qbe.jl`

`execute` evaluates an atom to itself, and a call of three elements to the
integer that its head makes of its operands. Everything else it logs as
unimplemented, and returns `nothing`.

`σ` is the type of symbols, and `sym` makes a symbol of a name. Different names
have different symbols.
-/

namespace Jetlang.Qbe

open Julia

/-! ## The code -/

/-- `jet_node_t`: the atoms, and calls. -/
inductive JetNode (σ : Type) where
  | nil
  | sym (sym : σ)
  | int (val : BitVec 32)
  | str (str : List UInt8)
  | call (args : List (JetNode σ))

variable {σ : Type} [DecidableEq σ] (sym : String → σ)

/-- `opc === jet_sym_t(name)`. -/
def JetNode.isSym (name : String) : JetNode σ → Bool
  | .sym s => s = sym name
  | _ => false

/-- The two results are `jet_int_t`s, and `f` is applied to them; otherwise
nothing is returned here. -/
def onInts (f : BitVec 32 → BitVec 32 → Except Exn (BitVec 32)) :
    Option (JetNode σ) → Option (JetNode σ) → Except Exn (Option (JetNode σ))
  | some (.int x), some (.int y) =>
      match f x y with
      | .ok z => .ok (some (.int z))
      | .error e => .error e
  | _, _ => .ok none

/-- The branches of `execute(::jet_call_t)` on the evaluated operands. -/
def dispatch (opc : JetNode σ) (op1 op2 : Option (JetNode σ)) :
    Except Exn (Option (JetNode σ)) :=
  if opc.isSym sym "add" then
    onInts (fun x y => .ok (x + y)) op1 op2
  else if opc.isSym sym "sub" then
    onInts (fun x y => .ok (x - y)) op1 op2
  else if opc.isSym sym "mul" then
    onInts (fun x y => .ok (x * y)) op1 op2
  else if opc.isSym sym "div" then
    onInts idiv op1 op2
  else
    .ok none

/-- `execute`. An operand that raises ends the call with its exception. -/
def execute : JetNode σ → Except Exn (Option (JetNode σ))
  | .call [opc, op1, op2] =>
      match execute op1 with
      | .error e => .error e
      | .ok r1 =>
          match execute op2 with
          | .error e => .error e
          | .ok r2 => dispatch sym opc r1 r2
  | .call _ => .error .assertion
  | atom => .ok (some atom)

example : execute id (.call [.sym "add", .int 1, .int 2]) = .ok (some (.int 3)) := by rfl

end Jetlang.Qbe
