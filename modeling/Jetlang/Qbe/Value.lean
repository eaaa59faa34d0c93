import Mathlib.Data.Int.ModEq
import Jetlang.Qbe.Execute

/-! # What `execute` computes

The trees of integer atoms and arithmetic calls denote integers. `execute` is
compared with that value: it agrees modulo `2 ^ 32` as long as nothing is
divided, and exactly if every subtree's value is an `Int32` and no divisor is 0.
A call that cannot be computed makes every tree it is evaluated in fail.
-/

namespace Jetlang.Qbe

open Julia

/-! ## Arithmetic trees -/

/-- The operators with a branch in `execute`. -/
inductive Op where
  | add
  | sub
  | mul
  | div
deriving DecidableEq, Repr

/-- The name of the head of a call. -/
def Op.name : Op → String
  | .add => "add"
  | .sub => "sub"
  | .mul => "mul"
  | .div => "div"

/-- The exact result. Division truncates toward zero. -/
def Op.exact : Op → ℤ → ℤ → ℤ
  | .add, x, y => x + y
  | .sub, x, y => x - y
  | .mul, x, y => x * y
  | .div, x, y => x.tdiv y

/-- The result in `Int32`. -/
def Op.compute : Op → BitVec 32 → BitVec 32 → Except Exn (BitVec 32)
  | .add, x, y => .ok (x + y)
  | .sub, x, y => .ok (x - y)
  | .mul, x, y => .ok (x * y)
  | .div, x, y => idiv x y

/-- Trees of integer atoms and arithmetic calls. -/
inductive Expr where
  | int (val : BitVec 32)
  | call (op : Op) (left right : Expr)
deriving DecidableEq, Repr

/-- The integer a tree denotes. -/
def Expr.value : Expr → ℤ
  | .int val => val.toInt
  | .call op left right => op.exact left.value right.value

/-- No call is a division. -/
def Expr.DivFree : Expr → Prop
  | .int _ => True
  | .call op left right => op ≠ .div ∧ left.DivFree ∧ right.DivFree

/-- The integer is an `Int32`. -/
def IsInt32 (x : ℤ) : Prop := -2 ^ 31 ≤ x ∧ x < 2 ^ 31

/-- No divisor is 0, and the value of every subtree is an `Int32`. -/
def Expr.InRange : Expr → Prop
  | .int _ => True
  | .call op left right => left.InRange ∧ right.InRange ∧ (op = .div → right.value ≠ 0) ∧
      IsInt32 (op.exact left.value right.value)

variable {σ : Type} [DecidableEq σ] (sym : String → σ)

/-- The tree as a node. -/
def Expr.node : Expr → JetNode σ
  | .int val => .int val
  | .call op left right => .call [.sym (sym op.name), left.node, right.node]

/-! ## The value of a tree -/

/-- The head of a call selects its operator. -/
theorem dispatch_op (hsym : Function.Injective sym) (op : Op) (op1 op2 : Option (JetNode σ)) :
    dispatch sym (.sym (sym op.name)) op1 op2 = onInts op.compute op1 op2 := by
  have hhead : ∀ name, JetNode.isSym sym name (.sym (sym op.name)) = decide (op.name = name) := by
    intro name
    unfold JetNode.isSym
    rw [decide_eq_decide, hsym.eq_iff]
  unfold dispatch
  rw [hhead, hhead, hhead, hhead]
  cases op <;> rfl

/-- A call whose operands are evaluated to integers. -/
theorem execute_call (hsym : Function.Injective sym) {op : Op} {l r : JetNode σ}
    {x y z : BitVec 32} (hl : execute sym l = .ok (some (.int x)))
    (hr : execute sym r = .ok (some (.int y))) (hz : op.compute x y = .ok z) :
    execute sym (.call [.sym (sym op.name), l, r]) = .ok (some (.int z)) := by
  unfold execute
  simp only [hl, hr]
  rw [dispatch_op sym hsym]
  unfold onInts
  simp only [hz]

/-- Without a division `Int32` arithmetic is the exact one modulo `2 ^ 32`. -/
theorem compute_ofInt {op : Op} (hop : op ≠ .div) (x y : ℤ) :
    op.compute (BitVec.ofInt 32 x) (BitVec.ofInt 32 y) = .ok (BitVec.ofInt 32 (op.exact x y)) := by
  cases op with
  | add => exact congrArg _ (BitVec.ofInt_add x y).symm
  | sub =>
    -- both sides are the difference modulo `2 ^ 32`
    apply congrArg Except.ok
    apply BitVec.eq_of_toInt_eq
    simp [Op.exact]
  | mul => exact congrArg _ (BitVec.ofInt_mul x y).symm
  | div => exact absurd rfl hop

/-- Over trees without a division: the result is the value modulo `2 ^ 32`. -/
theorem execute_divFree (hsym : Function.Injective sym) {e : Expr} (he : e.DivFree) :
    execute sym (e.node sym) = .ok (some (.int (BitVec.ofInt 32 e.value))) := by
  induction e with
  | int val =>
    show execute sym (.int val) = .ok (some (.int (BitVec.ofInt 32 val.toInt)))
    rw [BitVec.ofInt_toInt]
    rfl
  | call op left right ihl ihr =>
    rcases he with ⟨hop, hleft, hright⟩
    exact execute_call sym hsym (ihl hleft) (ihr hright) (compute_ofInt hop _ _)

/-- With operands and result in range, `Int32` arithmetic is exact. -/
theorem compute_exact {op : Op} {x y : BitVec 32} (hdiv : op = .div → y.toInt ≠ 0)
    (hfits : IsInt32 (op.exact x.toInt y.toInt)) :
    ∃ z, op.compute x y = .ok z ∧ z.toInt = op.exact x.toInt y.toInt := by
  have hofInt : ∀ {v : ℤ}, IsInt32 v → (BitVec.ofInt 32 v).toInt = v := fun h =>
    BitVec.toInt_ofInt_eq_self (by decide) h.1 h.2
  -- the division truncates like the exact one, the rest wraps
  by_cases hop : op = .div
  · subst hop
    exact idiv_eq (hdiv rfl) hfits.2
  · have hcompute := compute_ofInt hop x.toInt y.toInt
    rw [BitVec.ofInt_toInt, BitVec.ofInt_toInt] at hcompute
    exact ⟨_, hcompute, hofInt hfits⟩

/-- Over trees in range: the result is the value. -/
theorem execute_inRange (hsym : Function.Injective sym) {e : Expr} (he : e.InRange) :
    ∃ v, execute sym (e.node sym) = .ok (some (.int v)) ∧ v.toInt = e.value := by
  induction e with
  | int val => exact ⟨val, rfl, rfl⟩
  | call op left right ihl ihr =>
    rcases he with ⟨hleft, hright, hdiv, hfits⟩
    rcases ihl hleft with ⟨x, hl, hx⟩
    rcases ihr hright with ⟨y, hr, hy⟩
    rw [← hx, ← hy] at hfits
    rw [← hy] at hdiv
    rcases compute_exact hdiv hfits with ⟨z, hz, hvalue⟩
    refine ⟨z, execute_call sym hsym hl hr hz, ?_⟩
    rw [hvalue, hx, hy]
    rfl

/-! ## Failing calls -/

/-- Executing the first node evaluates the second: it is the node itself, or
evaluated by one of the operands. -/
inductive Evaluates : JetNode σ → JetNode σ → Prop where
  | self (n : JetNode σ) : Evaluates n n
  | left {opc l r n : JetNode σ} : Evaluates l n → Evaluates (.call [opc, l, r]) n
  | right {opc l r n : JetNode σ} : Evaluates r n → Evaluates (.call [opc, l, r]) n

/-- The node does not evaluate to an integer atom. -/
def Fails (n : JetNode σ) : Prop := ∀ v, execute sym n ≠ .ok (some (.int v))

omit [DecidableEq σ] in
/-- Integers come from integers only. -/
theorem onInts_eq_int {f : BitVec 32 → BitVec 32 → Except Exn (BitVec 32)}
    {op1 op2 : Option (JetNode σ)} {v : BitVec 32} (h : onInts f op1 op2 = .ok (some (.int v))) :
    (∃ x, op1 = some (.int x)) ∧ ∃ y, op2 = some (.int y) := by
  unfold onInts at h
  split at h
  · exact ⟨⟨_, rfl⟩, _, rfl⟩
  · cases h

theorem isSym_eq {name : String} {opc : JetNode σ} (h : opc.isSym sym name = true) :
    opc = .sym (sym name) := by
  unfold JetNode.isSym at h
  split at h
  · rw [of_decide_eq_true h]
  · cases h

/-- A call that evaluates to an integer has a known head. -/
theorem dispatch_eq_int {opc : JetNode σ} {op1 op2 : Option (JetNode σ)} {v : BitVec 32}
    (h : dispatch sym opc op1 op2 = .ok (some (.int v))) :
    (∃ op : Op, opc = .sym (sym op.name)) ∧
      (∃ x, op1 = some (.int x)) ∧ ∃ y, op2 = some (.int y) := by
  unfold dispatch at h
  split at h
  · rename_i hadd
    exact ⟨⟨.add, isSym_eq sym hadd⟩, onInts_eq_int h⟩
  split at h
  · rename_i hsub
    exact ⟨⟨.sub, isSym_eq sym hsub⟩, onInts_eq_int h⟩
  split at h
  · rename_i hmul
    exact ⟨⟨.mul, isSym_eq sym hmul⟩, onInts_eq_int h⟩
  split at h
  · rename_i hdiv
    exact ⟨⟨.div, isSym_eq sym hdiv⟩, onInts_eq_int h⟩
  · cases h

/-- A call that evaluates to an integer has a known head, and operands that
evaluate to integers. -/
theorem execute_eq_int {opc l r : JetNode σ} {v : BitVec 32}
    (h : execute sym (.call [opc, l, r]) = .ok (some (.int v))) :
    (∃ op : Op, opc = .sym (sym op.name)) ∧ ¬ Fails sym l ∧ ¬ Fails sym r := by
  unfold execute at h
  -- an operand that raises ends the call
  cases hl : execute sym l with
  | error e =>
    rw [hl] at h
    cases h
  | ok r1 =>
    cases hr : execute sym r with
    | error e =>
      rw [hl, hr] at h
      cases h
    | ok r2 =>
      rw [hl, hr] at h
      rcases dispatch_eq_int sym h with ⟨hop, ⟨x, rfl⟩, y, rfl⟩
      exact ⟨hop, fun hf => hf x hl, fun hf => hf y hr⟩

/-- A failing node makes every tree fail in which it is evaluated. The induction
is on the way to the node. -/
theorem fails_of_evaluates {root n : JetNode σ} (h : Evaluates root n) (hn : Fails sym n) :
    Fails sym root := by
  induction h with
  | self n => exact hn
  | left _ ih => exact fun v hv => (execute_eq_int sym hv).2.1 (ih hn)
  | right _ ih => exact fun v hv => (execute_eq_int sym hv).2.2 (ih hn)

/-- **The evaluator computes the value.** Without divisions modulo `2 ^ 32`; in
range exactly; and a tree never evaluates to an integer if a call evaluated in
it has an unknown head, or an operand that does not. -/
theorem execute_contract (hsym : Function.Injective sym) :
    (∀ e : Expr, e.DivFree → ∃ v, execute sym (e.node sym) = .ok (some (.int v)) ∧
      v.toInt ≡ e.value [ZMOD 2 ^ 32] ∧ IsInt32 v.toInt) ∧
    (∀ e : Expr, e.InRange → ∃ v, execute sym (e.node sym) = .ok (some (.int v)) ∧
      v.toInt = e.value) ∧
    (∀ root opc l r : JetNode σ, Evaluates root (.call [opc, l, r]) →
      ((∀ op : Op, opc ≠ .sym (sym op.name)) ∨ Fails sym l ∨ Fails sym r) → Fails sym root) := by
  refine ⟨fun e he => ⟨_, execute_divFree sym hsym he, ?_, ?_⟩,
    fun e he => execute_inRange sym hsym he, ?_⟩
  · rw [BitVec.toInt_ofInt]
    exact Int.bmod_emod
  · exact ⟨BitVec.le_toInt _, BitVec.toInt_lt⟩
  · intro root opc l r hev hbad
    apply fails_of_evaluates sym hev
    intro v hv
    rcases execute_eq_int sym hv with ⟨⟨op, hop⟩, hl, hr⟩
    rcases hbad with hhead | hleft | hright
    · exact hhead op hop
    · exact hl hleft
    · exact hr hright

/-- The contract with names for symbols: `2147483647 + 1` wraps, `-7 ÷ 2` is -3,
and a call of `mod` inside a product is not computed. -/
theorem execute_contract_names :
    (∃ v, execute id ((Expr.call .add (.int 2147483647) (.int 1)).node id) =
        .ok (some (.int v)) ∧ v.toInt ≡ 2147483648 [ZMOD 2 ^ 32] ∧ IsInt32 v.toInt) ∧
    (∃ v, execute id ((Expr.call .div (.int (-7)) (.int 2)).node id) = .ok (some (.int v)) ∧
      v.toInt = -3) ∧
    Fails id (.call [.sym "mul", .call [.sym "mod", .int 7, .int 2], .int 3]) := by
  rcases execute_contract id Function.injective_id with ⟨hwrap, hexact, hfail⟩
  refine ⟨hwrap (.call .add (.int 2147483647) (.int 1)) ⟨by decide, trivial, trivial⟩,
    hexact (.call .div (.int (-7)) (.int 2)) ?_, hfail _ (.sym "mod") (.int 7) (.int 2)
      (.left (.self _)) (Or.inl ?_)⟩
  · exact ⟨trivial, trivial, fun _ => by decide, by decide, by decide⟩
  · intro op hop
    cases op <;> simp [Op.name] at hop

end Jetlang.Qbe
