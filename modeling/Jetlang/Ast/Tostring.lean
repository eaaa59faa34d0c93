import Jetlang.Lib.Lines
import Jetlang.Lib.Outline
import Jetlang.Sym.Csymbol

/-! # `tostring`, the dump of a tree in Julia

The dump of a tree is meant to be its nodes above the depth limit, one a line
and indented by their depth. A call writes the line breaks between its arguments
itself, and leaves out the one behind an argument that compares equal to the last
argument. `printsOutline_iff` says that such a twin is all that can go wrong.
-/

namespace Jetlang.Ast

open Julia Lines Outline
open Jetlang.Sym (Word Symbol)

/-! ## Nodes -/

/-- `jet_nil_t`, `jet_sym_t`, `jet_int_t` and `jet_call_t`. A call holds a
reference, `vec`, to the vector of its arguments. -/
inductive JetNode where
  | nil
  | sym (sym : Word)
  | int (val : BitVec 32)
  | call (vec : Word) (args : List JetNode)

/-- `args` of a call; an atom has none. -/
def JetNode.args : JetNode → List JetNode
  | .call _ args => args
  | _ => []

/-- Induction on the tree: from the arguments of a node to the node. -/
@[elab_as_elim] theorem JetNode.byArgs {P : JetNode → Prop}
    (node : ∀ t : JetNode, (∀ x ∈ t.args, P x) → P t) : ∀ t, P t
  | .nil => node .nil nofun
  | .sym p => node (.sym p) nofun
  | .int v => node (.int v) nofun
  | .call vec args => node (.call vec args) fun x (_ : x ∈ args) => JetNode.byArgs node x

/-- `x == y`. No method is defined for nodes, so it is `x === y`: atoms are
compared by value, and calls by the identity of their vectors. -/
def JetNode.egal : JetNode → JetNode → Bool
  | .nil, .nil => true
  | .sym p, .sym q => p == q
  | .int v, .int w => v == w
  | .call vec _, .call vec' _ => vec == vec'
  | _, _ => false

theorem JetNode.egal_self (x : JetNode) : x.egal x = true := by
  cases x <;> simp [egal]

/-- `last(args)`. It is not computed when there are no arguments. -/
def last (args : List JetNode) : JetNode := args.getLastD .nil

/-! ## The dump -/

variable (symbols : Word → Symbol) (md : ℕ)

mutual

/-- What `tostring(io, node, cd, md)` writes. `symbols p` is the symbol at `p`. -/
def tostring (cd : ℕ) : JetNode → List UInt8
  | .nil =>
      if cd < md then
        List.replicate cd 32 ++ codeunits "<atom:nil>".toList
      else
        []
  | .int val =>
      if cd < md then
        List.replicate cd 32 ++ (codeunits "<atom:int> ".toList ++ codeunits (string val))
      else
        []
  | .sym sym =>
      if cd < md then
        List.replicate cd 32 ++ (codeunits "<atom:sym> ".toList ++ (symbols sym).string)
      else
        []
  | .call _ args =>
      if cd < md then
        List.replicate cd 32 ++ codeunits "<expr:call>".toList ++
          if cd + 1 < md then
            10 :: tostringArgs (last args) (cd + 1) args
          else
            []
      else
        []

/-- The loop over the arguments, the last of which is `final`. -/
def tostringArgs (final : JetNode) (cd : ℕ) : List JetNode → List UInt8
  | [] => []
  | x :: xs =>
      tostring cd x ++ (if x.egal final then [] else [10]) ++ tostringArgs final cd xs

end

/-! ## The outline of a tree -/

mutual

/-- The arguments of a call, with what is below them. -/
def JetNode.inner : JetNode → Forest JetNode
  | .nil => .nil
  | .sym _ => .nil
  | .int _ => .nil
  | .call _ args => JetNode.forest args

def JetNode.forest : List JetNode → Forest JetNode
  | [] => .nil
  | x :: xs => .cons x x.inner (JetNode.forest xs)

end

/-- The nodes of a tree in preorder, each with its depth; the root is at `d`. -/
def preorder (d : ℕ) (t : JetNode) : List (ℕ × JetNode) := outline d (JetNode.forest [t])

/-- The nodes at a depth below `md`, in preorder. -/
def shown (d : ℕ) (t : JetNode) : List (ℕ × JetNode) :=
  (preorder d t).filter fun e => e.1 < md

/-- What is written about a node. -/
def label : JetNode → List UInt8
  | .nil => codeunits "<atom:nil>".toList
  | .sym sym => codeunits "<atom:sym> ".toList ++ (symbols sym).string
  | .int val => codeunits "<atom:int> ".toList ++ codeunits (string val)
  | .call _ _ => codeunits "<expr:call>".toList

/-- The line of a node: as many spaces as its depth, and its label. -/
def line (e : ℕ × JetNode) : List UInt8 := List.replicate e.1 32 ++ label symbols e.2

/-- The lines of the dump are those of the nodes above the depth limit. -/
def PrintsOutline (t : JetNode) : Prop :=
  (tostring symbols md 0 t).splitOn 10 = (shown md 0 t).map (line symbols)

/-- A call has an argument, and the name of a symbol has no newline. -/
def JetNode.IsProper : JetNode → Prop
  | .sym p => (10 : UInt8) ∉ (symbols p).string
  | .call _ args => args ≠ []
  | _ => True

/-- Every node of the tree is proper. -/
def Proper (t : JetNode) : Prop := ∀ e ∈ preorder 0 t, e.2.IsProper symbols

/-- No argument of a call before the last compares equal to the last. -/
def JetNode.NoTwin : JetNode → Prop
  | .call _ args => ∀ x ∈ args.dropLast, x.egal (last args) = false
  | _ => True

/-- No call whose arguments are printed has an argument before the last that
compares equal to the last. -/
def Separated (t : JetNode) : Prop := ∀ e ∈ shown md 0 t, e.1 + 1 < md → e.2.NoTwin

variable {symbols md} {d cd : ℕ} {t : JetNode} {args : List JetNode}

/-! ## From a node to its arguments -/

theorem outline_forest (d : ℕ) (xs : List JetNode) :
    outline d (JetNode.forest xs) = xs.flatMap (preorder d) := by
  induction xs with
  | nil => rfl
  | cons x xs ih =>
    unfold preorder at ih ⊢
    simp only [JetNode.forest, outline, ih, List.flatMap_cons, List.append_nil, List.cons_append]

theorem preorder_eq (d : ℕ) (t : JetNode) :
    preorder d t = (d, t) :: t.args.flatMap (preorder (d + 1)) := by
  rw [← outline_forest, preorder, JetNode.forest, JetNode.forest, outline, outline,
    List.append_nil]
  cases t <;> rfl

theorem shown_eq (hd : d < md) (t : JetNode) :
    shown md d t = (d, t) :: t.args.flatMap (shown md (d + 1)) := by
  unfold shown
  rw [preorder_eq, List.filter_cons_of_pos (by simpa using hd), List.filter_flatMap]

/-- Nothing is below the depth limit. -/
theorem shown_deep (h : md ≤ d) (t : JetNode) : shown md d t = [] := by
  refine List.filter_eq_nil_iff.mpr fun e he => ?_
  have := le_of_mem_outline he
  rw [decide_eq_true_eq]
  omega

theorem last_eq (hne : args ≠ []) : last args = args.getLast hne := by
  cases args with
  | nil => exact absurd rfl hne
  | cons x xs => rw [last, List.getLastD_cons, List.getLast_eq_getLastD]

/-! ## One node -/

/-- One turn of the loop. -/
theorem tostringArgs_cons (final x : JetNode) (xs : List JetNode) :
    tostringArgs symbols md final cd (x :: xs) =
      tostring symbols md cd x ++ (if x.egal final then [] else [10]) ++
        tostringArgs symbols md final cd xs := by
  rw [tostringArgs]

/-- No line break is written behind the last argument. -/
theorem tostringArgs_last (x : JetNode) :
    tostringArgs symbols md x cd [x] = tostring symbols md cd x := by
  rw [tostringArgs_cons, if_pos x.egal_self, tostringArgs, List.append_nil, List.append_nil]

/-- A call whose arguments are printed writes its line, then those of the loop. -/
theorem tostring_call (hd : cd + 1 < md) (vec : Word) (args : List JetNode) :
    tostring symbols md cd (.call vec args) =
      line symbols (cd, .call vec args) ++
        10 :: tostringArgs symbols md (last args) (cd + 1) args := by
  rw [tostring, if_pos (by omega), if_pos hd]
  rfl

/-- Atoms, and the calls of the last printed level, write their line only. -/
theorem tostring_cases (hd : cd < md) (t : JetNode) :
    (tostring symbols md cd t = line symbols (cd, t) ∧ shown md cd t = [(cd, t)] ∧
      ∀ vec args, t = .call vec args → md ≤ cd + 1) ∨
    (∃ vec args, t = .call vec args ∧ cd + 1 < md) := by
  rw [shown_eq hd]
  cases t with
  | nil | sym p | int v =>
    refine Or.inl ⟨?_, rfl, nofun⟩
    rw [tostring, if_pos hd]
    rfl
  | call vec args =>
    rcases Nat.lt_or_ge (cd + 1) md with hnext | hcut
    · exact Or.inr ⟨vec, args, rfl, hnext⟩
    · refine Or.inl ⟨?_, ?_, fun _ _ _ => hcut⟩
      · rw [tostring, if_pos hd, if_neg (by omega), List.append_nil]
        rfl
      · rw [List.flatMap_eq_nil_iff.mpr fun x _ => shown_deep hcut x]

/-! ## The dump of a separated tree -/

/-- The loop writes the lines of all arguments if only the last one compares
equal to the last. -/
theorem tostringArgs_separated {final : JetNode} {xs : List JetNode} (hne : xs ≠ [])
    (hlast : xs.getLast hne = final) (htwin : ∀ x ∈ xs.dropLast, x.egal final = false)
    (hlines : ∀ x ∈ xs, tostring symbols md cd x ++ [10] =
      unlines 10 ((shown md cd x).map (line symbols))) :
    tostringArgs symbols md final cd xs ++ [10] =
      unlines 10 ((xs.flatMap (shown md cd)).map (line symbols)) := by
  induction xs, hne using List.recNeNil with
  | singleton x =>
    obtain rfl : x = final := hlast
    rw [tostringArgs_last]
    simpa using hlines x List.mem_cons_self
  | cons x xs hxs ih =>
    -- the line break of `x` is written
    rw [List.getLast_cons hxs] at hlast
    rw [List.dropLast_cons_of_ne_nil hxs] at htwin
    have htail := ih hlast (fun y hy => htwin y (List.mem_cons_of_mem x hy))
      (fun y hy => hlines y (List.mem_cons_of_mem x hy))
    rw [tostringArgs_cons, htwin x List.mem_cons_self, List.append_assoc, htail,
      List.flatMap_cons, List.map_append, unlines_append, ← hlines x List.mem_cons_self]
    rfl

/-- **A separated tree is dumped line by line.** By induction on the tree; the
arguments of a call go through `tostringArgs_separated`. -/
theorem tostring_separated (hd : cd < md) (hproper : ∀ e ∈ preorder cd t, e.2.IsProper symbols)
    (hsep : ∀ e ∈ shown md cd t, e.1 + 1 < md → e.2.NoTwin) :
    tostring symbols md cd t ++ [10] = unlines 10 ((shown md cd t).map (line symbols)) := by
  induction t using JetNode.byArgs generalizing cd with
  | _ t ih =>
    rcases tostring_cases hd t with ⟨htext, hout, -⟩ | ⟨vec, args, rfl, hnext⟩
    · rw [htext, hout]
      simp
    · rw [preorder_eq] at hproper
      rw [shown_eq hd] at hsep ⊢
      have hne : args ≠ [] := hproper _ List.mem_cons_self
      have htwin := hsep _ List.mem_cons_self hnext
      -- the arguments are separated, as the whole tree is
      have hargs : tostringArgs symbols md (last args) (cd + 1) args ++ [10] =
          unlines 10 ((args.flatMap (shown md (cd + 1))).map (line symbols)) :=
        tostringArgs_separated hne (last_eq hne).symm htwin fun x hx => ih x hx hnext
          (fun e he => hproper e (List.mem_cons_of_mem _ (List.mem_flatMap_of_mem hx he)))
          (fun e he => hsep e (List.mem_cons_of_mem _ (List.mem_flatMap_of_mem hx he)))
      rw [tostring_call hnext, List.append_assoc, List.cons_append, hargs, List.map_cons,
        unlines_cons]
      rfl

/-! ## The missing line breaks -/

/-- How many arguments before the last compare equal to it. -/
def JetNode.twins : JetNode → ℕ
  | .call _ args => args.dropLast.countP fun x => x.egal (last args)
  | _ => 0

/-- How many line breaks the dump leaves out between the arguments of a node. -/
def missing (md : ℕ) (e : ℕ × JetNode) : ℕ := if e.1 + 1 < md then e.2.twins else 0

theorem JetNode.noTwin_of_twins (h : t.twins = 0) : t.NoTwin := by
  cases t with
  | call vec args =>
    intro x hx
    simpa using List.countP_eq_zero.mp h x hx
  | _ => trivial

/-- The lines of the nodes are as long as the text together with `k` line breaks,
the ones missing below the nodes and the one behind the last line. -/
def Accounts (symbols : Word → Symbol) (md : ℕ) (text : List UInt8) (k : ℕ)
    (nodes : List (ℕ × JetNode)) : Prop :=
  text.length + 1 + k + (nodes.map (missing md)).sum =
    (unlines 10 (nodes.map (line symbols))).length

theorem tostringArgs_accounts {final : JetNode} {xs : List JetNode} (hne : xs ≠ [])
    (hlast : xs.getLast hne = final)
    (hlines : ∀ x ∈ xs, Accounts symbols md (tostring symbols md cd x) 0 (shown md cd x)) :
    Accounts symbols md (tostringArgs symbols md final cd xs)
      (xs.dropLast.countP fun x => x.egal final) (xs.flatMap (shown md cd)) := by
  unfold Accounts at hlines ⊢
  induction xs, hne using List.recNeNil with
  | singleton x =>
    obtain rfl : x = final := hlast
    rw [tostringArgs_last]
    simpa using hlines x List.mem_cons_self
  | cons x xs hxs ih =>
    -- the line break of `x` is written, or it is one more missing
    rw [List.getLast_cons hxs] at hlast
    have hx := hlines x List.mem_cons_self
    have htail := ih hlast (fun y hy => hlines y (List.mem_cons_of_mem x hy))
    rw [tostringArgs_cons, List.dropLast_cons_of_ne_nil hxs, List.countP_cons,
      List.flatMap_cons, List.map_append, List.map_append, List.sum_append, unlines_append,
      List.length_append, List.length_append, List.length_append, ← hx, ← htail]
    cases x.egal final <;> simp <;> omega

/-- **What a dump leaves out.** By induction on the tree, as above. -/
theorem tostring_accounts (hd : cd < md) (hproper : ∀ e ∈ preorder cd t, e.2.IsProper symbols) :
    Accounts symbols md (tostring symbols md cd t) 0 (shown md cd t) := by
  induction t using JetNode.byArgs generalizing cd with
  | _ t ih =>
    rcases tostring_cases hd t with ⟨htext, hout, hcut⟩ | ⟨vec, args, rfl, hnext⟩
    · have hroot : missing md (cd, t) = 0 := by
        cases t with
        | call vec args => exact if_neg (Nat.not_lt_of_le (hcut vec args rfl))
        | _ => exact ite_self 0
      rw [htext, hout]
      simp [Accounts, hroot]
    · rw [preorder_eq] at hproper
      have hne : args ≠ [] := hproper _ List.mem_cons_self
      have hargs : Accounts symbols md (tostringArgs symbols md (last args) (cd + 1) args) _ _ :=
        tostringArgs_accounts hne (last_eq hne).symm fun x hx => ih x hx hnext
          fun e he => hproper e (List.mem_cons_of_mem _ (List.mem_flatMap_of_mem hx he))
      have hroot : missing md (cd, .call vec args) =
          args.dropLast.countP fun x => x.egal (last args) := if_pos hnext
      unfold Accounts at hargs ⊢
      rw [shown_eq hd, tostring_call hnext, JetNode.args, List.map_cons, List.map_cons,
        List.sum_cons, unlines_cons, hroot, List.length_append, List.length_append,
        List.length_cons, List.length_cons]
      omega

/-! ## Which trees are dumped line by line -/

theorem newline_notMem_line {e : ℕ × JetNode} (h : e.2.IsProper symbols) :
    (10 : UInt8) ∉ line symbols e := by
  have hnil : (10 : UInt8) ∉ codeunits "<atom:nil>".toList := by decide
  have hsym : (10 : UInt8) ∉ codeunits "<atom:sym> ".toList := by decide
  have hint : (10 : UInt8) ∉ codeunits "<atom:int> ".toList := by decide
  have hcall : (10 : UInt8) ∉ codeunits "<expr:call>".toList := by decide
  rcases e with ⟨d, t⟩
  refine notMem_indent (by decide) ?_ d
  cases t with
  | nil => exact hnil
  | sym p => exact List.not_mem_append hsym h
  | int v => exact List.not_mem_append hint (newline_notMem_string v)
  | call vec args => exact hcall

/-- **The dump is the outline exactly for separated trees.** One line for each
node above the depth limit, in preorder. -/
theorem printsOutline_iff (hmd : 1 ≤ md) (hproper : Proper symbols t) :
    PrintsOutline symbols md t ↔ Separated md t := by
  have hfree : ∀ l ∈ (shown md 0 t).map (line symbols), (10 : UInt8) ∉ l := by
    intro l hl
    rcases List.mem_map.mp hl with ⟨e, he, rfl⟩
    exact newline_notMem_line (hproper e (List.mem_of_mem_filter he))
  have hne : (shown md 0 t).map (line symbols) ≠ [] := by
    rw [shown_eq hmd]
    exact List.cons_ne_nil _ _
  unfold PrintsOutline
  rw [splitOn_eq_iff hfree hne]
  refine ⟨fun htext => ?_, tostring_separated hmd hproper⟩
  -- the text has its full length, so no line break is missing
  have hlen := tostring_accounts hmd hproper
  unfold Accounts at hlen
  rw [← htext, List.length_append, List.length_singleton] at hlen
  have hsum : ((shown md 0 t).map (missing md)).sum = 0 := by omega
  intro e he hdepth
  have hnone := List.sum_eq_zero_iff_forall_eq_nat.mp hsum _ (List.mem_map_of_mem he)
  exact JetNode.noTwin_of_twins ((if_pos hdepth).symm.trans hnone)

example : tostring (fun _ => ⟨1, [97, 0]⟩) 8 0 (.call 1 [.sym 0, .int (-7), .nil]) =
    codeunits "<expr:call>\n <atom:sym> a\n <atom:int> -7\n <atom:nil>".toList := by decide

/-- A call with one symbol as both arguments. -/
def twice : JetNode := .call 1 [.sym 0, .sym 0]

theorem twice_proper : Proper (fun _ => ⟨1, [97, 0]⟩) twice := by
  simp [Proper, twice, preorder_eq, JetNode.args, JetNode.IsProper, Symbol.string, Symbol.length,
    Symbol.ncodeunits]

theorem printsOutline_iff_twice :
    PrintsOutline (fun _ => ⟨1, [97, 0]⟩) 8 twice ↔ Separated 8 twice :=
  printsOutline_iff (by decide) twice_proper

/-- Both symbols of `twice` end up on one line. -/
theorem printsOutline_counterexample :
    ¬ ∀ symbols md t, 1 ≤ md → Proper symbols t → PrintsOutline symbols md t := by
  intro h
  have htext := h (fun _ => ⟨1, [97, 0]⟩) 8 twice (by decide) twice_proper
  unfold PrintsOutline at htext
  revert htext
  decide

end Jetlang.Ast
