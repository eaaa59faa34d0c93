import Jetlang.Ast.Ast

/-! # Building an expression

Runs of `ast_expr_push` and `ast_expr_reverse` on one expression of
`ast_create_expr`, on the 64-bit target. They refine pushes and reversals of a
list, as long as the first operation is not a reversal: on the empty body the
upper index of the reversal loop is `0 - 1`.
-/

namespace Jetlang.Ast

open Mem

variable {A : Allocator}

/-- The modulus of `size_t`. -/
abbrev sizeMax : ℕ := 2 ^ 64

/-- The calls on an expression. -/
inductive Op where
  | push (item : Ptr)
  | reverse
deriving DecidableEq, Repr

/-- One call. -/
def Op.run (s : Ptr × Heap A AstNode) : Op → Option (Ptr × Heap A AstNode)
  | .push item => astExprPush sizeMax s.2 s.1 item
  | .reverse => astExprReverse sizeMax s.2 s.1

/-- A sequence of calls, each on the pointer the last one returned. -/
def runOps (s : Ptr × Heap A AstNode) : List Op → Option (Ptr × Heap A AstNode)
  | [] => some s
  | op :: ops =>
      match op.run s with
      | some s' => runOps s' ops
      | none => none

/-- The same calls on a list. -/
def Op.replay (xs : List Ptr) : Op → List Ptr
  | .push item => xs ++ [item]
  | .reverse => xs.reverse

/-- The number of pushes among some calls. -/
def pushes (ops : List Op) : ℕ := ops.countP fun op => op ≠ .reverse

/-- The calls work on every heap: none leaves the block of the vector, and the
expression ends with the list of the replay. -/
def BuildsList (A : Allocator) (ops : List Op) : Prop :=
  ∀ h : Heap A AstNode,
    ∃ h', runOps (astCreateExpr sizeMax h .invoke) ops
        = some ((astCreateExpr sizeMax h .invoke).1, h') ∧
      Designates h' (astCreateExpr sizeMax h .invoke).1 .invoke (ops.foldl Op.replay [])

/-- Step: one call replays on the list, unless it reverses the empty one. -/
theorem op_refines {h : Heap A AstNode} {node : Ptr} {head : AstExprHead} {xs : List Ptr}
    (hd : Designates h node head xs) (op : Op) (hop : op = .reverse → xs ≠ [])
    (hfit : Fits sizeMax (xs.length + 1)) :
    ∃ h', op.run (node, h) = some (node, h') ∧ Designates h' node head (op.replay xs) := by
  cases op with
  | push item =>
    rcases designates_push hd item hfit with ⟨h', hrun, hd', -⟩
    exact ⟨h', hrun, hd'⟩
  | reverse =>
    rcases designates_reverse hd (hop rfl) (hfit.mono (Nat.le_succ _)) with ⟨h', hrun, hd', -⟩
    exact ⟨h', hrun, hd'⟩

/-- A replayed call adds an entry exactly if it is a push. -/
theorem length_replay (xs : List Ptr) (op : Op) :
    (op.replay xs).length = xs.length + pushes [op] := by
  cases op <;> simp [Op.replay, pushes]

theorem pushes_cons (op : Op) (ops : List Op) : pushes (op :: ops) = pushes [op] + pushes ops := by
  unfold pushes
  rw [List.countP_cons, List.countP_singleton, Nat.add_comm]

/-- Run: from a non-empty list on, all calls replay. The induction is on the
calls; none of them empties the list. -/
theorem run_refines {h : Heap A AstNode} {node : Ptr} {head : AstExprHead} {xs : List Ptr}
    (hd : Designates h node head xs) (ops : List Op) (hne : xs ≠ [])
    (hfew : xs.length + pushes ops < 2 ^ 60) :
    ∃ h', runOps (node, h) ops = some (node, h') ∧
      Designates h' node head (ops.foldl Op.replay xs) := by
  induction ops generalizing h xs with
  | nil => exact ⟨h, rfl, hd⟩
  | cons op ops ih =>
    have hlen := length_replay xs op
    rw [pushes_cons] at hfew
    have hfit : Fits sizeMax (xs.length + 1) := by
      apply Or.inr
      unfold sizeMax
      omega
    rcases op_refines hd op (fun _ => hne) hfit with ⟨h₁, hrun, hd₁⟩
    -- no call empties the list
    have hne₁ : op.replay xs ≠ [] := by
      cases op with
      | push item => exact List.append_ne_nil_of_right_ne_nil _ (List.cons_ne_nil item [])
      | reverse => exact List.reverse_ne_nil_iff.mpr hne
    rcases ih hd₁ hne₁ (by omega) with ⟨h', hrun', hd'⟩
    refine ⟨h', ?_, hd'⟩
    unfold runOps
    rw [hrun]
    exact hrun'

/-- Reversing a new expression reads and writes outside the block. -/
theorem reverse_create (h : Heap A AstNode) (head : AstExprHead) :
    Op.run (astCreateExpr sizeMax h head) .reverse = none := by
  have hcell : (astCreateExpr sizeMax h head).2.cells
      (astNodeDecode (astCreateExpr sizeMax h head).1) =
        some (.expr head ⟨0, 4, Block.malloc ((4 * 8) % sizeMax)⟩) := by
    show (h.alloc _).cells (astNodeDecode (astNodeEncode h.brk astNodeFlagExpr)) = _
    rw [decode_encode_brk h (by decide), Heap.alloc_brk]
  have hbody : astExprBodyReverse sizeMax ⟨0, 4, Block.malloc ((4 * 8) % sizeMax)⟩ = none := by
    unfold astExprBodyReverse
    rw [Block.reverseBetween_eq_none (by decide) (by decide)]
  unfold Op.run astExprReverse onExprBody
  simp only [hcell, hbody]

/-- **The builder refines a list** exactly when the first call is not a
reversal. -/
theorem buildsList_iff (A : Allocator) (ops : List Op) (hfew : pushes ops < 2 ^ 60) :
    BuildsList A ops ↔ ops.head? ≠ some .reverse := by
  constructor
  · intro hbuilds hhead
    cases ops with
    | nil => cases hhead
    | cons op ops =>
      -- in an empty list `len - 1` wraps, so the loop starts far outside the block
      obtain rfl : op = .reverse := Option.some.inj hhead
      rcases hbuilds .empty with ⟨h', hrun, -⟩
      unfold runOps at hrun
      rw [reverse_create] at hrun
      cases hrun
  · intro hhead h
    have hd : Designates (astCreateExpr sizeMax h .invoke).2
        (astCreateExpr sizeMax h .invoke).1 .invoke [] :=
      designates_create h .invoke (Or.inr (by decide))
    cases ops with
    | nil => exact ⟨_, rfl, hd⟩
    | cons op ops =>
      cases op with
      | reverse => exact absurd rfl hhead
      | push item =>
        rw [pushes_cons] at hfew
        -- the first push makes the list non-empty
        have hone : pushes [.push item] = 1 := rfl
        rcases op_refines hd (.push item) (fun hop => by cases hop) (Or.inr (by decide))
          with ⟨h₁, hrun, hd₁⟩
        have hfew₁ : [item].length + pushes ops < 2 ^ 60 := by
          rw [List.length_singleton]
          omega
        rcases run_refines hd₁ ops (List.cons_ne_nil item []) hfew₁ with ⟨h', hrun', hd'⟩
        refine ⟨h', ?_, hd'⟩
        unfold runOps
        rw [hrun]
        exact hrun'

/-- Three pushes with a reversal in between. -/
theorem buildsList_three :
    BuildsList Allocator.consecutive [.push 8, .push 16, .reverse, .push 24] :=
  (buildsList_iff Allocator.consecutive [.push 8, .push 16, .reverse, .push 24] (by decide)).mpr
    (by decide)

/-- A lone reversal has no pushes, and does not work. -/
theorem buildsList_counterexample :
    ¬ ∀ ops, pushes ops < 2 ^ 60 → BuildsList Allocator.consecutive ops := by
  intro hall
  rcases hall [.reverse] (by decide) .empty with ⟨h', hrun, -⟩
  unfold runOps at hrun
  rw [reverse_create] at hrun
  cases hrun

end Jetlang.Ast
