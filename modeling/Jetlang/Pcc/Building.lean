import Jetlang.Pcc.Observe
import Jetlang.Pcc.Syntax
import Mathlib.Data.List.TakeWhile

/-! # Building the tree

The actions of a match run after the whole text was read, over the thunks it has
left. `Made` says which thunks a match of `expr` or `exprs` leaves for some
trees, and `Represents` how a tree lies in the heap. The theorem of this module
is that the actions put the trees of the thunks into the heap: a list is pushed
from its last entry to its first, and reversed at its closing parenthesis.
-/

namespace Jetlang.Pcc

open Mem Ast

/-! ## Trees in the heap -/

section Represents

variable {A : Allocator}

/-- The pointers point to the trees: a symbol is a `SYM` atom with its name, and a
list is an `INVOKE` expression with its entries in order. -/
inductive Represents (h : Heap A AstNode) : List Tree → List Ptr → Prop where
  | nil : Represents h [] []
  | leaf {n : Name} {p : Ptr} {ts : List Tree} {ps : List Ptr} :
      astNodeTypeof p = astNodeFlagAtom →
      h.cells (astNodeDecode p) = some (.atom .sym ⟨n.bytes.length, n.bytes ++ [0]⟩) →
      Represents h ts ps → Represents h (.leaf n :: ts) (p :: ps)
  | list {t : Tree} {us ts : List Tree} {p : Ptr} {qs ps : List Ptr} :
      astNodeTypeof p = astNodeFlagExpr → Designates h p .invoke qs →
      Represents h (t :: us) qs → Represents h ts ps →
      Represents h (.list t us :: ts) (p :: ps)

variable {h h' : Heap A AstNode} {ts : List Tree} {ps : List Ptr}

theorem Represents.length_eq (hrep : Represents h ts ps) : ps.length = ts.length := by
  induction hrep with
  | nil => rfl
  | leaf _ _ _ ih => rw [List.length_cons, List.length_cons, ih]
  | list _ _ _ _ _ ih => rw [List.length_cons, List.length_cons, ih]

/-- Trees stay where they are when the heap grows. -/
theorem Represents.mono (hrep : Represents h ts ps) (hext : h.Extends h') :
    Represents h' ts ps := by
  induction hrep with
  | nil => exact .nil
  | leaf htag hcell _ ih => exact .leaf htag (hext _ _ hcell) ih
  | list htag hnode _ _ ihs ih =>
    rcases hnode with ⟨body, hcell, hreads⟩
    exact .list htag ⟨body, hext _ _ hcell, hreads⟩ ihs ih

/-- A tree in front of others. -/
theorem Represents.cons {t : Tree} {p : Ptr} (hone : Represents h [t] [p])
    (hrep : Represents h ts ps) : Represents h (t :: ts) (p :: ps) := by
  cases hone with
  | leaf htag hcell _ => exact .leaf htag hcell hrep
  | list htag hnode hsub _ => exact .list htag hnode hsub hrep

/-- The pointers point to one list of trees. The induction is on the trees. -/
theorem Represents.unique {us : List Tree} (hrep : Represents h ts ps)
    (hrep' : Represents h us ps) : ts = us := by
  induction hrep generalizing us with
  | nil =>
    cases hrep'
    rfl
  | @leaf n p ts ps htag hcell _ ih =>
    cases hrep' with
    | @leaf m _ us _ _ hcell' hrest =>
      rw [hcell] at hcell'
      have hbytes : n.bytes = m.bytes := by
        simp only [Option.some.injEq, AstNode.atom.injEq, AstAtomBody.mk.injEq] at hcell'
        exact List.append_cancel_right hcell'.2.2
      rw [ih hrest, Name.ext_bytes hbytes]
    | list htag' =>
      rw [htag] at htag'
      cases htag'
  | @list t ts' ts p qs ps htag hnode _ _ ihs ih =>
    cases hrep' with
    | leaf htag' =>
      rw [htag] at htag'
      cases htag'
    | list _ hnode' hsub hrest =>
      rw [hnode.unique hnode'] at ihs
      rcases List.cons.inj (ihs hsub) with ⟨rfl, rfl⟩
      rw [ih hrest]

end Represents

/-! ## The thunks of a match -/

/-- The part of the buffer from `p` to `q` is `u`. -/
structure Captures (buffer : List UInt8) (p q : ℕ) (u : List UInt8) : Prop where
  le : p ≤ q
  stop_le : q ≤ buffer.length
  text : buffer.drop p = u ++ buffer.drop q

/-- The thunks of a match of `expr` or `exprs` that reads the trees. -/
inductive Made (buffer : List UInt8) : Kind → List (Thunk PccAction) → List Tree → Prop where
  | sym {n : Name} {p q p₁ q₁ p₂ q₂ : ℕ} : Captures buffer p q n.bytes →
      Made buffer .expr
        [.node [.node [.leaf .sym0 p q] (some 0), .leaf .atom0 p₁ q₁] (some 0), .leaf .expr0 p₂ q₂]
        [.leaf n]
  | list {t : Tree} {ts : List Tree} {c : List (Thunk PccAction)} {p q : ℕ} :
      Made buffer .exprs c (t :: ts) →
      Made buffer .expr [.node [] none, .node c (some 1), .node [] none, .leaf .expr1 p q]
        [.list t ts]
  | last {t : Tree} {c : List (Thunk PccAction)} {p q : ℕ} : Made buffer .expr c [t] →
      Made buffer .exprs [.node c (some 0), .leaf .exprs1 p q] [t]
  | more {t t' : Tree} {ts : List Tree} {c c' : List (Thunk PccAction)} {p q : ℕ} :
      Made buffer .expr c [t] → Made buffer .exprs c' (t' :: ts) →
      Made buffer .exprs
        [.node c (some 0), .node [] none, .node c' (some 1), .leaf .exprs0 p q] (t :: t' :: ts)

theorem Captures.mono {buffer buffer' u : List UInt8} {p q : ℕ} (h : Captures buffer p q u)
    (hgrows : buffer <+: buffer') : Captures buffer' p q u :=
  ⟨h.le, Nat.le_trans h.stop_le hgrows.length_le, drop_of_grows hgrows h.le h.stop_le h.text⟩

theorem Made.mono {buffer buffer' : List UInt8} {k : Kind} {c : List (Thunk PccAction)}
    {ts : List Tree} (h : Made buffer k c ts) (hgrows : buffer <+: buffer') :
    Made buffer' k c ts := by
  induction h with
  | sym hcap => exact .sym (hcap.mono hgrows)
  | list _ ih => exact .list ih
  | last _ ih => exact .last ih
  | more _ _ ih ih' => exact .more ih ih'

theorem ne_zero_of_isWord {c : UInt8} (h : isWord c = true) : c ≠ 0 := by
  rintro rfl
  cases h

/-- A captured name is copied whole, with a zero byte behind it. -/
theorem Captures.string {buffer : List UInt8} {p q : ℕ} {n : Name}
    (h : Captures buffer p q n.bytes) :
    q - p = n.bytes.length ∧ pccGetCaptureString buffer p q = n.bytes ++ [0] := by
  have hlen : q - p = n.bytes.length := by
    have hp := h.le
    have hq := h.stop_le
    have htext := congrArg List.length h.text
    rw [List.length_append, List.length_drop, List.length_drop] at htext
    omega
  refine ⟨hlen, ?_⟩
  unfold pccGetCaptureString
  rw [h.text, hlen, List.take_left]
  congr 1
  apply List.takeWhile_eq_self_iff.mpr
  intro c hc
  apply decide_eq_true
  exact ne_zero_of_isWord (n.isWord_of_mem c hc)

/-! ## Running the actions -/

section Actions

variable {A : Allocator} {M : ℕ} {buffer : List UInt8}

/-- The thunks of a chunk compute `p`, and turn the heap `h` into `h'`. -/
def Computes (A : Allocator) (M : ℕ) (buffer : List UInt8) (c : List (Thunk PccAction))
    (h : Heap A AstNode) (p : Ptr) (h' : Heap A AstNode) : Prop :=
  ∃ values, pccDoAction (pccAction M) 0 buffer c ⟨fun _ => 0, 0, h⟩ = some ⟨values, p, h'⟩

/-- A matched rule is run first, and its value put into the slot. -/
theorem Computes.node {c thunks : List (Thunk PccAction)} {h h' : Heap A AstNode} {p out : Ptr}
    (hc : Computes A M buffer c h p h') (values : ℕ → Ptr) (slot : ℕ) :
    pccDoAction (pccAction M) 0 buffer (.node c (some slot) :: thunks) ⟨values, out, h⟩ =
      pccDoAction (pccAction M) 0 buffer thunks ⟨Function.update values slot p, out, h'⟩ := by
  rcases hc with ⟨values', hrun⟩
  rw [pccDoAction, hrun]

/-- A match of blanks leaves nothing to do. -/
theorem doAction_blanks (thunks : List (Thunk PccAction)) (s : ActionState Ptr (Heap A AstNode)) :
    pccDoAction (pccAction M) 0 buffer (.node [] none :: thunks) s =
      pccDoAction (pccAction M) 0 buffer thunks s := by
  simp only [pccDoAction]

/-- The last thunk of a chunk is its own action. -/
theorem doAction_last {action : PccAction} {p q : ℕ} {values : ℕ → Ptr} {out out' : Ptr}
    {h h' : Heap A AstNode}
    (hact : pccAction M action ⟨values, pccGetCaptureString buffer p q, p, q⟩ h = some (out', h')) :
    pccDoAction (pccAction M) 0 buffer [.leaf action p q] ⟨values, out, h⟩ =
      some ⟨values, out', h'⟩ := by
  simp only [pccDoAction, hact]

/-- `expr0` and `atom0` hand a value on. -/
theorem Computes.wrap {c : List (Thunk PccAction)} {h h' : Heap A AstNode} {p : Ptr}
    (hc : Computes A M buffer c h p h') {action : PccAction}
    (haction : action = .atom0 ∨ action = .expr0) (p₁ q₁ : ℕ) :
    Computes A M buffer [.node c (some 0), .leaf action p₁ q₁] h p h' := by
  refine ⟨Function.update (fun _ => 0) 0 p, ?_⟩
  rw [hc.node]
  apply doAction_last
  rcases haction with rfl | rfl
  · rfl
  · rfl

/-- A symbol is put into the heap. -/
theorem computes_sym {n : Name} {p q : ℕ} (hcap : Captures buffer p q n.bytes) (p₁ q₁ p₂ q₂ : ℕ)
    (h : Heap A AstNode) :
    ∃ node h', Computes A M buffer
      [.node [.node [.leaf .sym0 p q] (some 0), .leaf .atom0 p₁ q₁] (some 0), .leaf .expr0 p₂ q₂]
      h node h' ∧ h.Extends h' ∧ Represents h' [.leaf n] [node] := by
  rcases hcap.string with ⟨hlen, hstring⟩
  have hsym : Computes A M buffer [.leaf .sym0 p q] h
      (astCreateAtom h .sym (n.bytes ++ [0]) n.bytes.length).1
      (astCreateAtom h .sym (n.bytes ++ [0]) n.bytes.length).2 := by
    refine ⟨fun _ => 0, doAction_last ?_⟩
    rw [hstring, pccAction, hlen]
  refine ⟨_, _, (hsym.wrap (Or.inl rfl) p₁ q₁).wrap (Or.inr rfl) p₂ q₂, Heap.extends_alloc h _, ?_⟩
  refine .leaf (typeof_encode_brk h (by decide)) ?_ .nil
  unfold astCreateAtom
  rw [decode_encode_brk h (by decide), Heap.alloc_brk, List.take_left]

/-- While the list of the trees `ts` is built at `node`, it is reversed, and its
entries are in a part `h₁` of the heap that does not contain it. -/
structure Growing (h h' : Heap A AstNode) (node : Ptr) (ts : List Tree) : Prop where
  tag : astNodeTypeof node = astNodeFlagExpr
  list : ∃ h₁ ps, h.Extends h₁ ∧ h₁.Extends h' ∧ h₁.cells (astNodeDecode node) = none ∧
    Represents h₁ ts ps ∧ Designates h' node .invoke ps.reverse

/-- `exprs1` begins a list with its last entry. -/
theorem Growing.create {h h₁ : Heap A AstNode} {t : Tree} {p : Ptr} (hfit : Fits M 3)
    (hext : h.Extends h₁) (hrep : Represents h₁ [t] [p]) :
    ∃ node h', (∀ thunk : LeafIn Ptr, thunk.values 0 = p →
      pccAction M .exprs1 thunk h₁ = some (node, h')) ∧ Growing h h' node [t] := by
  have hnode := designates_create h₁ .invoke hfit
  rcases designates_push hnode p (hfit.mono (by simp)) with ⟨h', hpush, hd, hsame⟩
  have hnone : h₁.cells (astNodeDecode (astCreateExpr M h₁ .invoke).1) = none := by
    unfold astCreateExpr
    rw [decode_encode_brk h₁ (by decide), Heap.cells_brk]
  refine ⟨_, h', ?_, typeof_encode_brk h₁ (by decide), h₁, [p], hext, ?_, hnone, hrep, hd⟩
  · intro thunk hthunk
    rw [pccAction, hthunk]
    simp only [hpush]
    rfl
  · exact hsame.extends (Heap.extends_alloc h₁ _) hnone

/-- `exprs0` puts an entry in front. -/
theorem Growing.push {h h₀ h₁ : Heap A AstNode} {node p : Ptr} {t : Tree} {ts : List Tree}
    (hgrow : Growing h₀ h₁ node ts) (hext : h.Extends h₀) (hrep : Represents h₀ [t] [p])
    (hfit : Fits M (ts.length + 1)) :
    ∃ h', astExprPush M h₁ node p = some (node, h') ∧ Growing h h' node (t :: ts) := by
  rcases hgrow with ⟨htag, h₂, ps, hext₂, hext₁, hnone, hreps, hd⟩
  obtain ⟨h', hpush, hd', hsame⟩ := designates_push hd p (by
    rw [List.length_reverse, hreps.length_eq]
    exact hfit)
  refine ⟨h', hpush, htag, h₂, p :: ps, hext.trans hext₂, hsame.extends hext₁ hnone, hnone,
    (hrep.mono hext₂).cons hreps, ?_⟩
  rw [List.reverse_cons]
  exact hd'

/-- `expr1` ends the list. -/
theorem Growing.reverse {h h₁ : Heap A AstNode} {node : Ptr} {t : Tree} {ts : List Tree}
    (hgrow : Growing h h₁ node (t :: ts)) (hfit : Fits M (t :: ts).length) :
    ∃ h', astExprReverse M h₁ node = some (node, h') ∧ h.Extends h' ∧
      Represents h' [.list t ts] [node] := by
  rcases hgrow with ⟨htag, h₂, ps, hext₂, hext₁, hnone, hreps, hd⟩
  have hlen := hreps.length_eq
  -- the list is not empty, so the loop stays inside the block
  have hne : ps.reverse ≠ [] := by
    apply List.ne_nil_of_length_pos
    rw [List.length_reverse, hlen]
    exact Nat.succ_pos _
  obtain ⟨h', hrev, hd', hsame⟩ := designates_reverse hd hne (by
    rw [List.length_reverse, hlen]
    exact hfit)
  rw [List.reverse_reverse] at hd'
  have hext' := hsame.extends hext₁ hnone
  exact ⟨h', hrev, hext₂.trans hext', .list htag hd' (hreps.mono hext') .nil⟩

/-- What the thunks of a match build: a tree, or a list that is not reversed yet. -/
def Builds (A : Allocator) (M : ℕ) (buffer : List UInt8) (n : ℕ) (c : List (Thunk PccAction))
    (ts : List Tree) : Kind → Prop
  | .expr => Narrow n ts → ∀ h : Heap A AstNode, ∃ p h', Computes A M buffer c h p h' ∧
      h.Extends h' ∧ Represents h' ts [p]
  | .exprs => Narrow n ts → ts.length + 2 ≤ n → ∀ h : Heap A AstNode, ∃ p h',
      Computes A M buffer c h p h' ∧ Growing h h' p ts

/-- **Building.** The thunks of a match build its trees, if the sizes of lists as
wide as these do not wrap. The induction is on the thunks. -/
theorem Made.builds {n : ℕ} (hfit : Fits M n) {k : Kind} {c : List (Thunk PccAction)}
    {ts : List Tree} (hmade : Made buffer k c ts) : Builds A M buffer n c ts k := by
  induction hmade with
  | @sym name p q p₁ q₁ p₂ q₂ hcap => exact fun _ h => computes_sym hcap p₁ q₁ p₂ q₂ h
  | @list t ts c p q _ ih =>
    intro hnarrow h
    cases hnarrow with
    | list hsub hwide =>
      rcases ih hsub hwide h with ⟨node, h₁, hrun, hgrow⟩
      rcases hgrow.reverse (hfit.mono (by omega)) with ⟨h', hrev, hext, hrep⟩
      refine ⟨node, h', ⟨Function.update (fun _ => 0) 1 node, ?_⟩, hext, hrep⟩
      -- blanks have no actions, and the list is the value in slot 1
      rw [doAction_blanks, hrun.node, doAction_blanks]
      exact doAction_last hrev
  | @last t c p q _ ih =>
    intro hnarrow hwide h
    rcases ih hnarrow h with ⟨p₀, h₁, hrun, hext, hrep⟩
    rcases Growing.create (hfit.mono hwide) hext hrep with ⟨node, h', hact, hgrow⟩
    refine ⟨node, h', ⟨Function.update (fun _ => 0) 0 p₀, ?_⟩, hgrow⟩
    rw [hrun.node]
    exact doAction_last (hact _ rfl)
  | @more t t' ts c c' p q _ _ ih ih' =>
    intro hnarrow hwide h
    cases hnarrow with
    | cons hfirst hrest =>
      rcases ih hfirst h with ⟨p₀, h₀, hrun₀, hext₀, hrep₀⟩
      rw [List.length_cons] at hwide
      rcases ih' hrest (by omega) h₀ with ⟨node, h₁, hrun₁, hgrow⟩
      -- the rest of the list is there already, and the first entry goes
      -- behind it, as the list is reversed
      rcases hgrow.push hext₀ hrep₀ (hfit.mono (by omega)) with ⟨h', hpush, hgrow'⟩
      refine ⟨node, h', ⟨Function.update (Function.update (fun _ => 0) 0 p₀) 1 node, ?_⟩, hgrow'⟩
      rw [hrun₀.node, doAction_blanks, hrun₁.node]
      exact doAction_last hpush

end Actions

end Jetlang.Pcc
