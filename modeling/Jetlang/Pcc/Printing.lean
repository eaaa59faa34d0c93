import Jetlang.Ast.Print
import Jetlang.Lib.Lines
import Jetlang.Lib.Outline
import Jetlang.Pcc.Language

/-! # Printing what was parsed

The lines of a printed tree are its outline, so they determine the tree. The
printer keeps its depth in an `int`: it prints the trees of all texts in which
fewer than `2 ^ 31` parentheses are open at a time.
-/

namespace Jetlang.Pcc

open Mem Ast Lines Outline
open Jetlang.Sym (intMax)

/-! ## The outline of trees -/

/-- The symbol of a leaf; a list has none. -/
def Tree.label : Tree → Option Name
  | .leaf n => some n
  | .list _ _ => none

mutual

/-- The entries of a list, with what is below them. -/
def Tree.entries : Tree → Forest (Option Name)
  | .leaf _ => .nil
  | .list t ts => .cons t.label t.entries (forest ts)

def forest : List Tree → Forest (Option Name)
  | [] => .nil
  | t :: ts => .cons t.label t.entries (forest ts)

end

theorem forest_leaf (n : Name) (ts : List Tree) :
    forest (.leaf n :: ts) = .cons (some n) .nil (forest ts) := by
  rw [forest, Tree.entries, Tree.label]

theorem forest_list (t : Tree) (us ts : List Tree) :
    forest (.list t us :: ts) = .cons none (forest (t :: us)) (forest ts) := by
  rw [forest, Tree.entries, Tree.label, forest]

theorem outline_forest_cons (d : ℕ) (t : Tree) (ts : List Tree) :
    outline d (forest (t :: ts)) = outline d (forest [t]) ++ outline d (forest ts) := by
  simp [forest, outline]

theorem outline_leaf (d : ℕ) (n : Name) : outline d (forest [.leaf n]) = [(d, some n)] := by
  rw [forest_leaf, outline, outline, forest, outline, List.append_nil]

/-- The entries of a list are one level deeper. -/
theorem outline_list (d : ℕ) (t : Tree) (us : List Tree) :
    outline d (forest [.list t us]) = (d, none) :: outline (d + 1) (forest (t :: us)) := by
  rw [forest_list, outline, forest, outline, List.append_nil]

/-- The first tree is at the depth of the roots. -/
theorem depth_le_of_forall {d n : ℕ} {t : Tree} {ts : List Tree}
    (h : ∀ e ∈ outline d (forest (t :: ts)), e.1 ≤ n) : d ≤ n := by
  rw [forest, outline] at h
  exact h _ List.mem_cons_self

/-- A forest that is not empty begins with a symbol or with a list. -/
theorem forest_eq_cons {ts : List Tree} {a : Option Name} {below rest : Forest (Option Name)}
    (h : forest ts = .cons a below rest) :
    (∃ n ts', ts = .leaf n :: ts' ∧ a = some n ∧ forest ts' = rest) ∨
    (∃ t us ts', ts = .list t us :: ts' ∧ a = none ∧ forest (t :: us) = below ∧
      forest ts' = rest) := by
  rcases ts with _ | ⟨t, ts⟩
  · cases h
  · cases t with
    | leaf n =>
      rw [forest_leaf, Forest.cons.injEq] at h
      exact Or.inl ⟨n, ts, rfl, h.1.symm, h.2.2⟩
    | list t us =>
      rw [forest_list, Forest.cons.injEq] at h
      exact Or.inr ⟨t, us, ts, rfl, h.1.symm, h.2.1, h.2.2⟩

/-- Trees can be told apart by their forest. The induction is on the forest. -/
theorem forest_injective {f : Forest (Option Name)} {ts us : List Tree} (hts : forest ts = f)
    (hus : forest us = f) : ts = us := by
  induction f generalizing ts us with
  | nil =>
    rcases ts with _ | ⟨t, ts⟩
    · rcases us with _ | ⟨u, us⟩
      · rfl
      · cases hus
    · cases hts
  | cons a below rest ihb ihr =>
    rcases forest_eq_cons hts with ⟨n, ts', rfl, hn, hrest⟩ | ⟨t, vs, ts', rfl, hn, hbelow, hrest⟩
    · rcases forest_eq_cons hus with ⟨m, us', rfl, hm, hrest'⟩ | ⟨u, vs', us', rfl, hm, -, -⟩
      · obtain rfl : n = m := Option.some.inj (hn.symm.trans hm)
        rw [ihr hrest hrest']
      · cases hn.symm.trans hm
    · rcases forest_eq_cons hus with ⟨m, us', rfl, hm, -⟩ | ⟨u, vs', us', rfl, hm, hbelow', hrest'⟩
      · cases hn.symm.trans hm
      · rcases List.cons.inj (ihb hbelow hbelow') with ⟨rfl, rfl⟩
        rw [ihr hrest hrest']

/-! ## The text of an outline -/

/-- What is printed about a node. -/
def labelText : Option Name → List UInt8
  | some n => atomLabel .sym n.bytes
  | none => exprLabel .invoke

/-- The line of a node. -/
def nodeLine (e : ℕ × Option Name) : List UInt8 := printLine (e.1, labelText e.2)

/-- The lines of trees whose roots are at `d`. -/
def printed (d : ℕ) (ts : List Tree) : List UInt8 :=
  unlines 10 ((outline d (forest ts)).map nodeLine)

/-- A label begins with `<`. -/
theorem labelText_head (a : Option Name) : ∃ s, labelText a = 60 :: s := by
  cases a with
  | none => exact ⟨_, rfl⟩
  | some n => exact ⟨_, rfl⟩

theorem labelText_injective {a b : Option Name} (h : labelText a = labelText b) : a = b := by
  cases a with
  | none =>
    cases b with
    | none => rfl
    | some m => cases h
  | some n =>
    cases b with
    | none => cases h
    | some m => rw [Name.ext_bytes (List.append_cancel_left h)]

/-- The blanks in front of a label show the depth. -/
theorem nodeLine_injective : Function.Injective nodeLine := by
  rintro ⟨d, a⟩ ⟨d', b⟩ h
  rcases labelText_head a with ⟨s, hs⟩
  rcases labelText_head b with ⟨s', hs'⟩
  simp only [nodeLine, printLine, hs, hs'] at h
  rcases indent_injective (by decide) (by decide) h with ⟨hdepth, htext⟩
  obtain rfl : d = d' := Nat.eq_of_mul_eq_mul_left (by decide) hdepth
  obtain rfl : a = b := labelText_injective (hs.trans (htext.trans hs'.symm))
  rfl

theorem newline_notMem_nodeLine (e : ℕ × Option Name) : (10 : UInt8) ∉ nodeLine e := by
  refine notMem_indent (by decide) ?_ _
  cases e.2 with
  | none => exact (by decide : (10 : UInt8) ∉ exprLabel .invoke)
  | some n => exact List.not_mem_append (by decide) (notMem_of_class (by decide) n.isWord_of_mem)

/-- **The lines determine the trees.** -/
theorem printed_injective {d : ℕ} {ts us : List Tree} (h : printed d ts = printed d us) :
    ts = us := by
  have hfree : ∀ vs : List Tree, ∀ l ∈ (outline d (forest vs)).map nodeLine, (10 : UInt8) ∉ l := by
    intro vs l hl
    rcases List.mem_map.mp hl with ⟨e, -, rfl⟩
    exact newline_notMem_nodeLine e
  have hlines := unlines_injective (hfree ts) (hfree us) h
  exact forest_injective (outline_injective (List.map_injective_iff.mpr nodeLine_injective hlines))
    rfl

/-! ## What the printer writes -/

section Prints

variable {A : Allocator} {h : Heap A AstNode} {ts : List Tree} {ps : List Ptr} {d : ℕ}

/-- The printer for pointers to nodes at depth `d`. -/
def printAt (h : Heap A AstNode) (fuel d : ℕ) (p : Ptr) : Option (List UInt8) :=
  astPrettyPrintAt h fuel p d

theorem printed_cons (d : ℕ) (t : Tree) (ts : List Tree) :
    printed d (t :: ts) = printed d [t] ++ printed d ts := by
  unfold printed
  rw [outline_forest_cons, List.map_append, unlines_append]

theorem printed_leaf (d : ℕ) (n : Name) :
    printed d [.leaf n] = printLine (d, atomLabel .sym n.bytes) ++ [10] := by
  unfold printed
  rw [outline_leaf]
  simp [nodeLine, labelText]

theorem printed_list (d : ℕ) (t : Tree) (us : List Tree) :
    printed d [.list t us] =
      printLine (d, exprLabel .invoke) ++ 10 :: printed (d + 1) (t :: us) := by
  unfold printed
  rw [outline_list]
  simp [nodeLine, labelText]

/-- **Trees are printed line by line**, if no depth overflows. The induction is on
the trees in the heap. -/
theorem Represents.prints (hrep : Represents h ts ps)
    (hdepth : ∀ e ∈ outline d (forest ts), e.1 ≤ intMax) :
    ∃ N, ∀ fuel, N ≤ fuel → printAll (printAt h fuel d) ps = some (printed d ts) := by
  induction hrep generalizing d with
  | nil => exact ⟨0, fun _ _ => rfl⟩
  | @leaf n p ts ps htag hcell _ ih =>
    rw [outline_forest_cons, List.forall_mem_append] at hdepth
    rcases ih hdepth.2 with ⟨N, hN⟩
    refine ⟨N + 1, fun fuel hfuel => ?_⟩
    obtain ⟨fuel, rfl⟩ : ∃ k, fuel = k + 1 := ⟨fuel - 1, by omega⟩
    have hprint : printAt h (fuel + 1) d p = some (printed d [.leaf n]) := by
      rw [printed_leaf]
      exact astPrettyPrintAt_atom fuel d htag hcell (notMem_of_class (by decide) n.isWord_of_mem)
    exact printAll_cons_iff.mpr ⟨_, _, hprint, hN (fuel + 1) (by omega), printed_cons d _ ts⟩
  | @list t us ts p qs ps htag hnode _ _ ihs ih =>
    rw [outline_forest_cons, List.forall_mem_append, outline_list, List.forall_mem_cons] at hdepth
    rcases hdepth with ⟨⟨-, hbelow⟩, hrest⟩
    rcases ihs hbelow with ⟨N, hN⟩
    rcases ih hrest with ⟨N', hN'⟩
    refine ⟨N + N' + 1, fun fuel hfuel => ?_⟩
    obtain ⟨fuel, rfl⟩ : ∃ k, fuel = k + 1 := ⟨fuel - 1, by omega⟩
    have hprint : printAt h (fuel + 1) d p = some (printed d [.list t us]) := by
      unfold printAt
      rw [astPrettyPrintAt_expr fuel d htag hnode, printed_list]
      simp only [if_pos (depth_le_of_forall hbelow)]
      exact congrArg (Option.map _) (hN fuel (by omega))
    exact printAll_cons_iff.mpr ⟨_, _, hprint, hN' (fuel + 1) (by omega), printed_cons d _ ts⟩

/-- The printer does not return from a depth that overflows. -/
theorem Represents.depth_of_prints (hrep : Represents h ts ps) {fuel : ℕ} {x : List UInt8}
    (hd : d ≤ intMax) (hprint : printAll (printAt h fuel d) ps = some x) :
    ∀ e ∈ outline d (forest ts), e.1 ≤ intMax := by
  induction hrep generalizing d fuel x with
  | nil => exact fun e he => by cases he
  | @leaf n p ts ps _ _ _ ih =>
    rcases printAll_cons_iff.mp hprint with ⟨y, z, -, hrest, -⟩
    rw [outline_forest_cons, List.forall_mem_append, outline_leaf]
    exact ⟨List.forall_mem_singleton.mpr hd, ih hd hrest⟩
  | @list t us ts p qs ps htag hnode hsub _ ihs ih =>
    rcases printAll_cons_iff.mp hprint with ⟨y, z, hfirst, hrest, -⟩
    rw [outline_forest_cons, List.forall_mem_append, outline_list, List.forall_mem_cons]
    refine ⟨⟨hd, ?_⟩, ih hd hrest⟩
    obtain ⟨fuel, rfl⟩ : ∃ k, fuel = k + 1 := by
      cases fuel with
      | zero => cases hfirst
      | succ k => exact ⟨k, rfl⟩
    unfold printAt at hfirst
    rw [astPrettyPrintAt_expr fuel d htag hnode] at hfirst
    rcases Option.map_eq_some_iff.mp hfirst with ⟨text, hbelow, -⟩
    by_cases hnext : d + 1 ≤ intMax
    · simp only [if_pos hnext] at hbelow
      exact ihs hnext hbelow
    · -- the first entry of the list is not printed
      simp only [if_neg hnext] at hbelow
      cases hsub <;> cases hbelow

/-- A tree is printed exactly if no depth overflows, and then line by line. -/
theorem Represents.prints_iff {t : Tree} {p : Ptr} (hrep : Represents h [t] [p])
    {x : List UInt8} : Prints h p x ↔
      (∀ e ∈ outline 0 (forest [t]), e.1 ≤ intMax) ∧ x = printed 0 [t] := by
  have hone : ∀ {fuel y}, printAll (printAt h fuel 0) [p] = some y ↔
      astPrettyPrint h fuel p = some y := by
    intro fuel y
    rw [printAll_cons_iff]
    simp [printAll, printAt, astPrettyPrint]
  have hall : (∀ e ∈ outline 0 (forest [t]), e.1 ≤ intMax) → Prints h p (printed 0 [t]) := by
    intro hdepth
    rcases hrep.prints hdepth with ⟨N, hN⟩
    exact ⟨N, fun fuel hfuel => hone.mp (hN fuel hfuel)⟩
  constructor
  · intro hprints
    obtain ⟨N, hN⟩ := id hprints
    have hdepth := hrep.depth_of_prints (Nat.zero_le _) (hone.mpr (hN N (Nat.le_refl N)))
    exact ⟨hdepth, hprints.unique (hall hdepth)⟩
  · rintro ⟨hdepth, rfl⟩
    exact hall hdepth

end Prints

/-! ## Open parentheses -/

/-- The number of open parentheses behind a character. -/
def parens (k : ℕ) (c : UInt8) : ℕ :=
  if c = 40 then
    k + 1
  else if c = 41 then
    k - 1
  else
    k

/-- The largest number of parentheses that are open at a time, if `k` are open in
front of the text. -/
def nestingFrom (k : ℕ) : List UInt8 → ℕ
  | [] => k
  | c :: w => max k (nestingFrom (parens k c) w)

/-- The largest number of parentheses that are open at a time. -/
def nesting (text : List UInt8) : ℕ := nestingFrom 0 text

theorem le_nestingFrom (k : ℕ) (w : List UInt8) : k ≤ nestingFrom k w := by
  cases w with
  | nil => exact Nat.le_refl k
  | cons c w => exact Nat.le_max_left ..

/-- Without parentheses the nesting stays as it is. -/
theorem nestingFrom_of_class {p : UInt8 → Bool} {w : List UInt8} (hopen : p 40 = false)
    (hclose : p 41 = false) (hw : ∀ c ∈ w, p c = true) (k : ℕ) (v : List UInt8) :
    nestingFrom k (w ++ v) = nestingFrom k v := by
  induction w with
  | nil => rfl
  | cons c w ih =>
    have h40 : c ≠ 40 := fun h => notMem_of_class hopen hw (by simp [h])
    have h41 : c ≠ 41 := fun h => notMem_of_class hclose hw (by simp [h])
    rw [List.cons_append, nestingFrom, parens, if_neg h40, if_neg h41,
      ih fun d hd => hw d (List.mem_cons_of_mem c hd)]
    exact Nat.max_eq_right (le_nestingFrom k v)

theorem Blanks.nestingFrom {b : List UInt8} (hb : Blanks b) (k : ℕ) (v : List UInt8) :
    nestingFrom k (b ++ v) = nestingFrom k v :=
  nestingFrom_of_class (by decide) (by decide) hb k v

theorem Name.nestingFrom (n : Name) (k : ℕ) (v : List UInt8) :
    nestingFrom k (n.bytes ++ v) = nestingFrom k v :=
  nestingFrom_of_class (by decide) (by decide) n.isWord_of_mem k v

/-- The nodes of the trees of a text are as deep as its parentheses nest. The
induction is on the layout. -/
theorem LaysOut.nestingFrom_le {ts : List Tree} {w : List UInt8} (h : LaysOut ts w) (n k : ℕ)
    (v : List UInt8) : nestingFrom k (w ++ v) ≤ n ↔
      (∀ e ∈ outline k (forest ts), e.1 ≤ n) ∧ nestingFrom k v ≤ n := by
  induction h generalizing k v with
  | leaf m =>
    rw [m.nestingFrom, outline_leaf, List.forall_mem_singleton]
    exact ⟨fun hn => ⟨Nat.le_trans (le_nestingFrom k v) hn, hn⟩, And.right⟩
  | @list t us b₁ w b₂ hb₁ _ hb₂ ih =>
    have hopen : parens k 40 = k + 1 := rfl
    have hclose : parens (k + 1) 41 = k := rfl
    rw [outline_list, List.forall_mem_cons]
    simp only [List.append_assoc, List.cons_append, List.nil_append]
    rw [nestingFrom, hopen, hb₁.nestingFrom, max_le_iff, ih, hb₂.nestingFrom, nestingFrom, hclose,
      max_le_iff]
    constructor
    · rintro ⟨hk, hbelow, -, hv⟩
      exact ⟨⟨hk, hbelow⟩, hv⟩
    · rintro ⟨⟨hk, hbelow⟩, hv⟩
      -- a list has an entry, one level deeper
      exact ⟨hk, hbelow, depth_le_of_forall hbelow, hv⟩
  | @cons t t' ts w b v' _ hb _ _ ih ih' =>
    rw [outline_forest_cons, List.forall_mem_append, List.append_assoc, List.append_assoc,
      ih, hb.nestingFrom, ih', and_assoc]

/-- In the layout of a tree the parentheses nest as deep as its nodes. -/
theorem Layout.nesting_le {t : Tree} {text : List UInt8} (h : Layout t text) (n : ℕ) :
    nesting text ≤ n ↔ ∀ e ∈ outline 0 (forest [t]), e.1 ≤ n := by
  rcases h with ⟨b₁, w, b₂, hb₁, hw, hb₂, rfl⟩
  have hend := hb₂.nestingFrom 0 []
  rw [List.append_nil] at hend
  unfold nesting
  rw [List.append_assoc, hb₁.nestingFrom, hw.nestingFrom_le, hend]
  exact and_iff_left (Nat.zero_le n)

/-! ## Printing parsed trees -/

section Told

variable {S : BlockSizes} {A : Allocator} {M : ℕ}

/-- A text without high bytes that is parsed is the layout of the tree it is
parsed to. -/
theorem represents_of_parses {h h₁ : Heap A AstNode} {text : List UInt8} {p : Ptr}
    (hfit : Fits M text.length) (hlow : Low text) (hparses : Parses S M h text (.ok (p, h₁))) :
    ∃ t, Layout t text ∧ Represents h₁ [t] [p] := by
  rcases (parses_ok_iff h hfit).mp ⟨p, h₁, hparses⟩ with ⟨hroom, hover, t, hprog⟩
  rcases parses_program h hroom hover hfit hprog with ⟨p', h', hparses', -, hrep⟩
  cases hparses.unique hparses'
  exact ⟨t, (readsProgram_iff.mp hprog).layout hlow, hrep⟩

/-- The two pointers point to the same tree. -/
def SameTree (h : Heap A AstNode) (p : Ptr) (h' : Heap A AstNode) (p' : Ptr) : Prop :=
  ∃ t, Represents h [t] [p] ∧ Represents h' [t] [p']

/-- Both trees are printed, and with the same text exactly if they are equal. -/
def ToldApart (h : Heap A AstNode) (p : Ptr) (h' : Heap A AstNode) (p' : Ptr) : Prop :=
  ∃ x x', Prints h p x ∧ Prints h' p' x' ∧ (x = x' ↔ SameTree h p h' p')

/-- **Printing tells parsed trees apart** exactly where at most `INT_MAX`
parentheses are open at a time. The trees are printed from heaps that have grown
since they were parsed. -/
theorem toldApart_iff {h h' h₁ h₁' k k' : Heap A AstNode} {text text' : List UInt8} {p p' : Ptr}
    (hfit : Fits M text.length) (hfit' : Fits M text'.length) (hlow : Low text)
    (hlow' : Low text') (hparses : Parses S M h text (.ok (p, h₁)))
    (hparses' : Parses S M h' text' (.ok (p', h₁'))) (hext : h₁.Extends k)
    (hext' : h₁'.Extends k') :
    ToldApart k p k' p' ↔ nesting text ≤ intMax ∧ nesting text' ≤ intMax := by
  rcases represents_of_parses hfit hlow hparses with ⟨t, hlayout, hrep₁⟩
  rcases represents_of_parses hfit' hlow' hparses' with ⟨t', hlayout', hrep₁'⟩
  have hrep := hrep₁.mono hext
  have hrep' := hrep₁'.mono hext'
  rw [hlayout.nesting_le, hlayout'.nesting_le]
  constructor
  · rintro ⟨x, x', hx, hx', -⟩
    exact ⟨(hrep.prints_iff.mp hx).1, (hrep'.prints_iff.mp hx').1⟩
  · rintro ⟨hdepth, hdepth'⟩
    have hx := hrep.prints_iff.mpr ⟨hdepth, rfl⟩
    have hx' := hrep'.prints_iff.mpr ⟨hdepth', rfl⟩
    refine ⟨_, _, hx, hx', fun heq => ?_, ?_⟩
    · -- the same lines: the same tree
      obtain rfl : t = t' := (List.cons.inj (printed_injective heq)).1
      exact ⟨t, hrep, hrep'⟩
    · rintro ⟨s, hs, hs'⟩
      rw [(hs.prints_iff.mp hx).2, (hs'.prints_iff.mp hx').2]

end Told

/-! ## Texts the printer fails on -/

/-- A tree in `n` lists. -/
def nest (t : Tree) : ℕ → Tree
  | 0 => t
  | n + 1 => .list (nest t n) []

/-- A text in `n` parentheses. -/
def nestText (w : List UInt8) (n : ℕ) : List UInt8 :=
  List.replicate n 40 ++ w ++ List.replicate n 41

section Nest

variable {t t' : Tree} {w : List UInt8}

theorem length_nestText (w : List UInt8) (n : ℕ) : (nestText w n).length = 2 * n + w.length := by
  unfold nestText
  rw [List.length_append, List.length_append, List.length_replicate, List.length_replicate]
  omega

theorem laysOut_nest (h : LaysOut [t] w) (n : ℕ) : LaysOut [nest t n] (nestText w n) := by
  induction n with
  | zero =>
    unfold nestText
    rw [List.replicate_zero, List.replicate_zero, List.nil_append, List.append_nil]
    exact h
  | succ n ih =>
    have hlist : LaysOut [nest t (n + 1)] (40 :: ([] ++ nestText w n ++ []) ++ [41]) :=
      .list (by decide) ih (by decide)
    have htext : 40 :: ([] ++ nestText w n ++ []) ++ [41] = nestText w (n + 1) := by
      unfold nestText
      rw [List.replicate_succ' (a := 41), List.replicate_succ]
      simp
    rw [← htext]
    exact hlist

theorem layout_nest (h : LaysOut [t] w) (n : ℕ) : Layout (nest t n) (nestText w n) :=
  ⟨[], nestText w n, [], by decide, laysOut_nest h n, by decide, by simp⟩

/-- The tree is `n` levels below the outermost list. -/
theorem depth_nest (t : Tree) (d n : ℕ) : ∃ e ∈ outline d (forest [nest t n]), e.1 = d + n := by
  induction n generalizing d with
  | zero =>
    refine ⟨(d, t.label), ?_, rfl⟩
    rw [nest, forest, outline]
    exact List.mem_cons_self
  | succ n ih =>
    rcases ih (d + 1) with ⟨e, he, hdepth⟩
    refine ⟨e, ?_, by omega⟩
    rw [nest, outline_list]
    exact List.mem_cons_of_mem _ he

/-- Different trees are different in lists. -/
theorem nest_injective {n : ℕ} (h : nest t n = nest t' n) : t = t' := by
  induction n with
  | zero => exact h
  | succ n ih =>
    rw [nest, nest, Tree.list.injEq] at h
    exact ih h.1

/-- Parentheses make no run longer. -/
theorem not_hasLongRun_nestText (hw : w.length ≤ intMax) (n : ℕ) : ¬ HasLongRun (nestText w n) := by
  have hcount : ∀ p : UInt8 → Bool, p 40 = false → p 41 = false →
      (nestText w n).countP p ≤ intMax := by
    intro p hopen hclose
    unfold nestText
    rw [List.countP_append, List.countP_append, List.countP_replicate, List.countP_replicate,
      if_neg (by rw [hopen]; exact Bool.false_ne_true),
      if_neg (by rw [hclose]; exact Bool.false_ne_true)]
    have hle : w.countP p ≤ w.length := List.countP_le_length
    omega
  rintro (h | h)
  · have hlt := h.lt_countP
    have hle := hcount isBlank rfl rfl
    omega
  · have hlt := h.lt_countP
    have hle := hcount isWord rfl rfl
    omega

/-- A tree in lists is parsed, however many they are. -/
theorem parses_nest {S : BlockSizes} {A : Allocator} {M : ℕ} (h : Heap A AstNode)
    (hlays : LaysOut [t] w) (hw : w.length ≤ intMax) (hroom : 16 ≤ S.usable sizeofPccAuxil)
    {n : ℕ} (hfit : Fits M (nestText w n).length) :
    ∃ p h', Parses S M h (nestText w n) (.ok (p, h')) ∧ h.Extends h' ∧
      Represents h' [nest t n] [p] := by
  have hover : ¬ OverlongProgram (nestText w n) :=
    fun hover => not_hasLongRun_nestText hw n hover.hasLongRun
  exact parses_program h hroom hover hfit (readsProgram_iff.mpr (layout_nest hlays n).loose)

end Nest

/-- `a` and then `(a)`, both printed in the end. -/
theorem toldApart_iff_two : ∃ p h₁ p' h₂,
    Parses .sixteens (2 ^ 64) (Heap.empty : Heap Allocator.consecutive AstNode) (nestText [97] 0)
        (.ok (p, h₁)) ∧
      Parses .sixteens (2 ^ 64) h₁ (nestText [97] 1) (.ok (p', h₂)) ∧
      (ToldApart h₂ p h₂ p' ↔
        nesting (nestText [97] 0) ≤ intMax ∧ nesting (nestText [97] 1) ≤ intMax) := by
  have hfit : Fits (2 ^ 64) (nestText [97] 0).length := Or.inr (by decide)
  have hfit' : Fits (2 ^ 64) (nestText [97] 1).length := Or.inr (by decide)
  have hlays : LaysOut [.leaf nameA] [97] := .leaf nameA
  have hroom : 16 ≤ BlockSizes.sixteens.usable sizeofPccAuxil := by decide
  rcases parses_nest (Heap.empty : Heap Allocator.consecutive AstNode) hlays (by decide) hroom hfit
    with ⟨p, h₁, hparses, -, -⟩
  rcases parses_nest h₁ hlays (by decide) hroom hfit' with ⟨p', h₂, hparses', hext, -⟩
  exact ⟨p, h₁, p', h₂, hparses, hparses', toldApart_iff hfit hfit' (layout_nest hlays 0).low
    (layout_nest hlays 1).low hparses hparses' hext fun _ _ hx => hx⟩

/-- `((a) b)` -/
def treeOuter : Tree := .list (.list (.leaf nameA) []) [.leaf nameB]

/-- `((a b))` -/
def treeInner : Tree := .list (.list (.leaf nameA) [.leaf nameB]) []

theorem laysOut_treeOuter : LaysOut [treeOuter] [40, 40, 97, 41, 32, 98, 41] := by
  have hfirst : LaysOut [.list (.leaf nameA) []] (40 :: ([] ++ nameA.bytes ++ []) ++ [41]) :=
    .list (by decide) (.leaf nameA) (by decide)
  have hpair : LaysOut [.list (.leaf nameA) [], .leaf nameB]
      ((40 :: ([] ++ nameA.bytes ++ []) ++ [41]) ++ [32] ++ nameB.bytes) :=
    .cons hfirst (by decide) (fun hleaf => hleaf.elim) (.leaf nameB)
  have hlist : LaysOut [treeOuter] (40 :: ([] ++
      ((40 :: ([] ++ nameA.bytes ++ []) ++ [41]) ++ [32] ++ nameB.bytes) ++ []) ++ [41]) :=
    .list (by decide) hpair (by decide)
  exact hlist

theorem laysOut_treeInner : LaysOut [treeInner] [40, 40, 97, 32, 98, 41, 41] := by
  have hpair : LaysOut [.leaf nameA, .leaf nameB] (nameA.bytes ++ [32] ++ nameB.bytes) :=
    .cons (.leaf nameA) (by decide) (fun _ _ => List.cons_ne_nil _ _) (.leaf nameB)
  have hlist : LaysOut [.list (.leaf nameA) [.leaf nameB]]
      (40 :: ([] ++ (nameA.bytes ++ [32] ++ nameB.bytes) ++ []) ++ [41]) :=
    .list (by decide) hpair (by decide)
  have houter : LaysOut [treeInner] (40 :: ([] ++
      (40 :: ([] ++ (nameA.bytes ++ [32] ++ nameB.bytes) ++ []) ++ [41]) ++ []) ++ [41]) :=
    .list (by decide) hlist (by decide)
  exact houter

/-- `((a) b)` and `((a b))` in `INT_MAX + 1` more parentheses are parsed to different
trees, and printing them overflows. -/
theorem toldApart_counterexample : ∃ p h₁ p' h₂,
    Parses .sixteens (2 ^ 64) (Heap.empty : Heap Allocator.consecutive AstNode)
        (nestText [40, 40, 97, 41, 32, 98, 41] (intMax + 1)) (.ok (p, h₁)) ∧
      Parses .sixteens (2 ^ 64) h₁ (nestText [40, 40, 97, 32, 98, 41, 41] (intMax + 1))
        (.ok (p', h₂)) ∧
      Low (nestText [40, 40, 97, 41, 32, 98, 41] (intMax + 1)) ∧
      Low (nestText [40, 40, 97, 32, 98, 41, 41] (intMax + 1)) ∧
      ¬ SameTree h₂ p h₂ p' ∧ ¬ ToldApart h₂ p h₂ p' := by
  obtain ⟨n, hn⟩ : ∃ n, n = intMax + 1 := ⟨_, rfl⟩
  have hroom : 16 ≤ BlockSizes.sixteens.usable sizeofPccAuxil := by decide
  have hfit : ∀ w : List UInt8, w.length = 7 → Fits (2 ^ 64) (nestText w n).length := by
    intro w hw
    refine Or.inr ?_
    rw [length_nestText, hn, hw, intMax]
    decide
  rw [← hn]
  rcases parses_nest (Heap.empty : Heap Allocator.consecutive AstNode) laysOut_treeOuter
    (by decide) hroom (hfit _ rfl) with ⟨p, h₁, hparses, -, hrep⟩
  rcases parses_nest h₁ laysOut_treeInner (by decide) hroom (hfit _ rfl)
    with ⟨p', h₂, hparses', hext, hrep'⟩
  have hrep₂ := hrep.mono hext
  refine ⟨p, h₁, p', h₂, hparses, hparses', (layout_nest laysOut_treeOuter n).low,
    (layout_nest laysOut_treeInner n).low, ?_, ?_⟩
  · rintro ⟨s, hs, hs'⟩
    -- the innermost trees would be equal
    have hsame : [nest treeOuter n] = [nest treeInner n] :=
      (hrep₂.unique hs).trans (hs'.unique hrep')
    have hinner := nest_injective (List.singleton_inj.mp hsame)
    rw [treeOuter, treeInner, Tree.list.injEq] at hinner
    exact absurd hinner.2 (List.cons_ne_nil _ _)
  · rintro ⟨x, -, hx, -, -⟩
    -- the innermost tree is too deep to be printed
    rcases depth_nest treeOuter 0 n with ⟨e, he, hdepth⟩
    have hle := (hrep₂.prints_iff.mp hx).1 e he
    omega

end Jetlang.Pcc
