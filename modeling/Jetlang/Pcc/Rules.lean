import Jetlang.Pcc.Overlong

/-! # The rules `sym`, `atom` and `__`

What the applications of the small rules do to the text and to the memo table.
Answers stay in the table for the whole parse, so a rule is only known to run
its body where it has none: in front of the parser the table is empty.
-/

namespace Jetlang.Pcc

open Jetlang.Sym (intMax)

/-- A context of the parser of `pcc.peg`. -/
abbrev PccContext := Context PccRule PccAction

/-- From `ctx` the parser of `pcc.peg` has read `u`, and `v` is left. -/
abbrev Moves (ctx ctx' : PccContext) (u v : List UInt8) : Prop :=
  Consumes pccAuxilGetchar ctx ctx' u v

/-- The rule, applied in `ctx`, matches with the chunk `c` and leads to `ctx'`. -/
def Matches (rule : PccRule) (ctx ctx' : PccContext) (c : List (Thunk PccAction)) : Prop :=
  ∀ slot thunks, Observes pccEvaluateRule (.rule rule slot) ctx thunks
    (true, ctx', thunks ++ [.node c slot])

/-- The rule, applied in `ctx`, fails and leads to `ctx'`. -/
def Fails (rule : PccRule) (ctx ctx' : PccContext) : Prop :=
  ∀ slot thunks, Observes pccEvaluateRule (.rule rule slot) ctx thunks (false, ctx', thunks)

/-- The rule, applied in `ctx`, has no result. -/
def Breaks (rule : PccRule) (ctx : PccContext) : Prop :=
  ∀ slot thunks, NoResult pccEvaluateRule (.rule rule slot) ctx thunks

/-! ## The memo table -/

section Table

variable {ctx ctx₁ ctx₂ ctx' : PccContext} {p q : ℕ} {rule : PccRule} {a : Answer PccAction}

/-- No rule was applied at `p` or behind it. -/
def Context.Clear (ctx : PccContext) (p : ℕ) : Prop := ∀ q r, p ≤ q → ctx.lrtable q r = none

/-- The answers in front of `p` are the same, and the one for blanks at `p`. -/
def Keeps (p : ℕ) (ctx ctx' : PccContext) : Prop :=
  ∀ q r, q < p ∨ (q = p ∧ r = .blanks) → ctx'.lrtable q r = ctx.lrtable q r

/-- Only answers at `p` differ, and not the one for blanks. -/
def Local (p : ℕ) (ctx ctx' : PccContext) : Prop :=
  ∀ q r, q ≠ p ∨ r = .blanks → ctx'.lrtable q r = ctx.lrtable q r

theorem Keeps.trans (h₁ : Keeps p ctx ctx₁) (h₂ : Keeps q ctx₁ ctx₂) (hle : p ≤ q) :
    Keeps p ctx ctx₂ := by
  intro s r hs
  have hs' : s < q ∨ (s = q ∧ r = .blanks) := by
    rcases hs with hs | ⟨rfl, hr⟩
    · exact Or.inl (Nat.lt_of_lt_of_le hs hle)
    · rcases Nat.lt_or_eq_of_le hle with hlt | heq
      · exact Or.inl hlt
      · exact Or.inr ⟨heq, hr⟩
  exact (h₂ s r hs').trans (h₁ s r hs)

theorem Local.trans (h₁ : Local p ctx ctx₁) (h₂ : Local p ctx₁ ctx₂) : Local p ctx ctx₂ :=
  fun s r hs => (h₂ s r hs).trans (h₁ s r hs)

theorem Local.keeps (h : Local p ctx ctx') : Keeps p ctx ctx' := by
  intro s r hs
  apply h s r
  rcases hs with hs | ⟨-, hr⟩
  · exact Or.inl (Nat.ne_of_lt hs)
  · exact Or.inr hr

theorem Local.clear (h : Local p ctx ctx') (hlt : p < q) (hclear : ctx.Clear q) : ctx'.Clear q := by
  intro s r hs
  rw [h s r (Or.inl (by omega))]
  exact hclear s r hs

theorem local_setAnswer (hrule : rule ≠ .blanks) : Local p ctx (ctx.setAnswer p rule a) := by
  intro s r hs
  apply setAnswer_ne
  rcases hs with hs | rfl
  · exact Or.inl hs
  · exact Or.inr hrule.symm

/-- Reading without applying a rule changes no answer. -/
theorem Scans.local {u v : List UInt8} (h : Scans pccAuxilGetchar ctx ctx' u v) :
    Local p ctx ctx' := fun s r _ => by rw [h.table_eq]

/-- An answer at `p`, in front of `q`, does not matter behind. -/
theorem Context.Clear.setAnswer (h : ctx.Clear q) (hlt : p < q) :
    (ctx.setAnswer p rule a).Clear q := by
  intro s r hs
  rw [setAnswer_ne _ _ (Or.inl (by omega))]
  exact h s r hs

end Table

/-- The rules that are applied at the place where a match begins. -/
def Kind.rules : Kind → List PccRule
  | .expr => [.expr, .atom, .sym]
  | .exprs => [.exprs, .expr, .atom, .sym]

/-- The parser may apply `expr` or `exprs`: it has not done so here, and is
nowhere further. -/
structure Ready (k : Kind) (ctx : PccContext) : Prop where
  wf : ctx.WF pccAuxilGetchar
  clear : ctx.Clear (ctx.cur + 1)
  own : ∀ r ∈ k.rules, ctx.lrtable ctx.cur r = none

theorem Ready.of_clear {k : Kind} {ctx : PccContext} (hwf : ctx.WF pccAuxilGetchar)
    (hclear : ctx.Clear ctx.cur) : Ready k ctx :=
  ⟨hwf, fun q r hq => hclear q r (Nat.le_of_succ_le hq), fun r _ => hclear _ r (Nat.le_refl _)⟩

theorem Ready.weaken {ctx : PccContext} (h : Ready .exprs ctx) : Ready .expr ctx :=
  ⟨h.wf, h.clear, fun r hr => h.own r (List.mem_cons_of_mem _ hr)⟩

/-- While `exprs` is being evaluated, `expr` may be applied. -/
theorem Ready.expr {ctx : PccContext} (h : Ready .exprs ctx) (a : Answer PccAction) :
    Ready .expr (ctx.setAnswer ctx.cur .exprs a) := by
  refine ⟨h.wf.setAnswer _ _ _, h.clear.setAnswer (Nat.lt_succ_self _), ?_⟩
  intro r hr
  -- the answer for `exprs` is none of those `expr` looks at
  have hne : r ≠ .exprs := by
    rintro rfl
    exact absurd hr (by decide)
  rw [setAnswer_cur, setAnswer_ne _ _ (Or.inr hne)]
  exact h.own r (List.mem_cons_of_mem _ hr)

/-! ## Symbols -/

section Sym

variable {ctx : PccContext} (hwf : ctx.WF pccAuxilGetchar)
  (hsym : ctx.lrtable ctx.cur .sym = none) (hatom : ctx.lrtable ctx.cur .atom = none)

include hwf hsym

theorem sym_match {n : Name} {w v : List UInt8} (hunread : ctx.unread = n.first :: w)
    (hrun : Run isWord w n.rest v) (hshort : n.rest.length ≤ intMax) :
    ∃ ctx', Matches .sym ctx ctx' [.leaf .sym0 ctx.cur ctx'.cur] ∧ Moves ctx ctx' n.bytes v ∧
      Local ctx.cur ctx ctx' := by
  have hpeek : peek pccAuxilGetchar (ctx.setAnswer ctx.cur .sym .lr).unread =
      (some n.first, n.first :: w) := by
    rw [setAnswer_unread, hunread, peek_low (not_isHigh_of_isAlpha n.alpha)]
  rcases charClass_match faithful_pccAuxilGetchar (hwf.setAnswer _ _ _) hpeek n.alpha []
    with ⟨ctx₁, hscan₁, hrun₁⟩
  rw [← hscan₁.unread_eq] at hrun
  rcases star_span (g := pccEvaluateRule) faithful_pccAuxilGetchar hrun hscan₁.wf [] hshort
    with ⟨ctx₂, hscan₂, hrun₂⟩
  have hbody : Observes pccEvaluateRule (pccEvaluateRuleSym ctx.cur)
      (ctx.setAnswer ctx.cur .sym .lr) [] (true, ctx₂, [.leaf .sym0 ctx.cur ctx₂.cur]) :=
    (Observes.of_eq hrun₁).seq (hrun₂.seq (.emit PccAction.sym0 ctx.cur))
  have hscan := hscan₁.trans hscan₂
  refine ⟨_, fun slot thunks => .apply hsym hbody, hscan.toConsumes.setAnswer, ?_⟩
  exact ((local_setAnswer (by decide)).trans hscan.local).trans (local_setAnswer (by decide))

/-- A symbol that is too long. -/
theorem sym_breaks {c : UInt8} {w u v : List UInt8} (hunread : ctx.unread = c :: w)
    (hc : isAlpha c = true) (hrun : Run isWord w u v) (hlong : intMax < u.length) :
    Breaks .sym ctx := by
  have hpeek : peek pccAuxilGetchar (ctx.setAnswer ctx.cur .sym .lr).unread = (some c, c :: w) := by
    rw [setAnswer_unread, hunread, peek_low (not_isHigh_of_isAlpha hc)]
  rcases charClass_match faithful_pccAuxilGetchar (hwf.setAnswer _ _ _) hpeek hc []
    with ⟨ctx₁, hscan₁, hrun₁⟩
  rw [← hscan₁.unread_eq] at hrun
  have hstar := star_overflows (g := pccEvaluateRule) faithful_pccAuxilGetchar hrun hscan₁.wf []
    hlong
  have hbody : NoResult pccEvaluateRule (pccEvaluateRuleSym ctx.cur)
      (ctx.setAnswer ctx.cur .sym .lr) [] := (Observes.of_eq hrun₁).seq_noResult hstar.seq
  exact fun slot thunks => .apply hsym hbody

theorem sym_fail (hlacks : Lacks isAlpha ctx.unread) :
    ∃ ctx', Fails .sym ctx ctx' ∧ Moves ctx ctx' [] (left ctx.unread) ∧
      Local ctx.cur ctx ctx' := by
  have hwf' := hwf.setAnswer ctx.cur .sym .lr
  have hscan := (peeked_spec faithful_pccAuxilGetchar hwf').1
  have hbody : Observes pccEvaluateRule (pccEvaluateRuleSym ctx.cur)
      (ctx.setAnswer ctx.cur .sym .lr) []
      (false, (ctx.setAnswer ctx.cur .sym .lr).peeked pccAuxilGetchar, []) :=
    .seq_fail (.of_eq (charClass_fail faithful_pccAuxilGetchar hwf' hlacks []))
  refine ⟨_, fun slot thunks => .apply_fail hsym hbody, hscan.toConsumes.setAnswer, ?_⟩
  exact ((local_setAnswer (by decide)).trans hscan.local).trans (local_setAnswer (by decide))

include hatom

theorem atom_match {n : Name} {w v : List UInt8} (hunread : ctx.unread = n.first :: w)
    (hrun : Run isWord w n.rest v) (hshort : n.rest.length ≤ intMax) :
    ∃ ctx', Matches .atom ctx ctx' [.node [.leaf .sym0 ctx.cur ctx'.cur] (some 0),
        .leaf .atom0 ctx.cur ctx'.cur] ∧ Moves ctx ctx' n.bytes v ∧ Local ctx.cur ctx ctx' := by
  have hsym' : (ctx.setAnswer ctx.cur .atom .lr).lrtable ctx.cur .sym = none := by
    rw [setAnswer_ne _ _ (Or.inr (by decide))]
    exact hsym
  rcases sym_match (hwf.setAnswer _ _ _) hsym' hunread hrun hshort
    with ⟨ctx₁, hmatch, hmoves, hlocal⟩
  have hbody : Observes pccEvaluateRule (pccEvaluateRuleAtom ctx.cur)
      (ctx.setAnswer ctx.cur .atom .lr) [] (true, ctx₁,
        [.node [.leaf .sym0 ctx.cur ctx₁.cur] (some 0), .leaf .atom0 ctx.cur ctx₁.cur]) :=
    (hmatch (some 0) []).seq (.emit PccAction.atom0 ctx.cur)
  refine ⟨_, fun slot thunks => .apply hatom hbody, hmoves.setAnswer, ?_⟩
  exact ((local_setAnswer (by decide)).trans hlocal).trans (local_setAnswer (by decide))

theorem atom_breaks {c : UInt8} {w u v : List UInt8} (hunread : ctx.unread = c :: w)
    (hc : isAlpha c = true) (hrun : Run isWord w u v) (hlong : intMax < u.length) :
    Breaks .atom ctx := by
  have hsym' : (ctx.setAnswer ctx.cur .atom .lr).lrtable ctx.cur .sym = none := by
    rw [setAnswer_ne _ _ (Or.inr (by decide))]
    exact hsym
  have hbreaks := sym_breaks (hwf.setAnswer _ _ _) hsym' hunread hc hrun hlong
  have hbody : NoResult pccEvaluateRule (pccEvaluateRuleAtom ctx.cur)
      (ctx.setAnswer ctx.cur .atom .lr) [] := (hbreaks (some 0) []).seq
  exact fun slot thunks => .apply hatom hbody

theorem atom_fail (hlacks : Lacks isAlpha ctx.unread) :
    ∃ ctx', Fails .atom ctx ctx' ∧ Moves ctx ctx' [] (left ctx.unread) ∧
      Local ctx.cur ctx ctx' := by
  have hsym' : (ctx.setAnswer ctx.cur .atom .lr).lrtable ctx.cur .sym = none := by
    rw [setAnswer_ne _ _ (Or.inr (by decide))]
    exact hsym
  rcases sym_fail (hwf.setAnswer _ _ _) hsym' hlacks with ⟨ctx₁, hfail, hmoves, hlocal⟩
  have hbody : Observes pccEvaluateRule (pccEvaluateRuleAtom ctx.cur)
      (ctx.setAnswer ctx.cur .atom .lr) [] (false, ctx₁, []) :=
    .seq_fail (hfail (some 0) [])
  refine ⟨_, fun slot thunks => .apply_fail hatom hbody, hmoves.setAnswer, ?_⟩
  exact ((local_setAnswer (by decide)).trans hlocal).trans (local_setAnswer (by decide))

end Sym

/-! ## Blanks -/

/-- Blanks are read, and `exprs` may be applied behind them. Only the answer for
the place where they begin is new. -/
theorem blanks_match {ctx : PccContext} (hready : Ready .exprs ctx)
    (hnew : ctx.lrtable ctx.cur .blanks = none) {u v : List UInt8}
    (hrun : Run isBlank ctx.unread u v) (hshort : u.length ≤ intMax) :
    ∃ ctx', Matches .blanks ctx ctx' [] ∧ Moves ctx ctx' u v ∧ Ready .exprs ctx' ∧
      ctx'.lrtable ctx.cur .blanks = some (.chunk (some []) ctx'.cur) ∧
      ∀ q r, q ≠ ctx.cur ∨ r ≠ .blanks → ctx'.lrtable q r = ctx.lrtable q r := by
  rw [← setAnswer_unread ctx ctx.cur .blanks .lr] at hrun
  obtain ⟨ctx₁, hscan, hstar⟩ := star_span (g := pccEvaluateRule) faithful_pccAuxilGetchar hrun
    (hready.wf.setAnswer _ _ _) [] hshort
  have hmoves : Moves ctx (ctx₁.setAnswer ctx.cur .blanks (.chunk (some []) ctx₁.cur)) u v :=
    hscan.toConsumes.setAnswer
  have htable : ∀ q r, q ≠ ctx.cur ∨ r ≠ .blanks →
      (ctx₁.setAnswer ctx.cur .blanks (.chunk (some []) ctx₁.cur)).lrtable q r =
        ctx.lrtable q r := by
    intro q r hqr
    rw [setAnswer_ne _ _ hqr, hscan.table_eq, setAnswer_ne _ _ hqr]
  -- the repetition never fails, so the rule matches
  have hle : ctx.cur ≤ ctx₁.cur := by
    have hcur : ctx₁.cur = ctx.cur + u.length := hscan.cur_eq
    omega
  refine ⟨_, fun slot thunks => .apply hnew hstar, hmoves, ⟨hmoves.wf, ?_, ?_⟩, setAnswer_same ..,
    htable⟩
  · intro q r hq
    have hq' : ctx₁.cur + 1 ≤ q := hq
    rw [htable q r (Or.inl (by omega))]
    exact hready.clear q r (by omega)
  · intro r hr
    have hne : r ≠ .blanks := by
      rintro rfl
      exact absurd hr (by decide)
    rw [setAnswer_cur, htable _ r (Or.inr hne)]
    -- no blanks: the parser is still at its place
    rcases Nat.lt_or_eq_of_le hle with hlt | heq
    · exact hready.clear _ r hlt
    · rw [← heq]
      exact hready.own r hr

/-- Blanks that are too many. -/
theorem blanks_breaks {ctx : PccContext} (hwf : ctx.WF pccAuxilGetchar)
    (hnew : ctx.lrtable ctx.cur .blanks = none) {u v : List UInt8}
    (hrun : Run isBlank ctx.unread u v) (hlong : intMax < u.length) : Breaks .blanks ctx := by
  rw [← setAnswer_unread ctx ctx.cur .blanks .lr] at hrun
  exact fun slot thunks => .apply hnew
    (star_overflows faithful_pccAuxilGetchar hrun (hwf.setAnswer _ _ _) [] hlong)

end Jetlang.Pcc
