import Jetlang.Pcc.Packrat

/-! # Parsing a text

`pcc_parse_string` from end to end: the block for the text, the rule `prog`, the
actions, and the check that nothing is left. If the block is large enough and no run of
characters too long, a text that reads as a program is parsed to its tree, and every
other text ends in an error. If not, there is no result.
-/

namespace Jetlang.Pcc

open Mem Ast
open Jetlang.Sym (intMax)

/-- The text reads as a program with this tree: blanks, one expression, blanks,
and then no character. -/
def ReadsProgram (text : List UInt8) (t : Tree) : Prop :=
  ∃ u w₁ w₂ u' w₃, Run isBlank text u w₁ ∧ Reads .expr w₁ (.ok [t] w₂) ∧
    Run isBlank w₂ u' w₃ ∧ (peek pccAuxilGetchar w₃).1 = none

/-! ## The rule `prog`

The parser is in front of a text, and has applied no rule there or further on.
-/

section Prog

variable {ctx : PccContext} (hclear : ctx.Clear ctx.cur)

include hclear

/-- In `prog` the other rules find no answers. -/
theorem Context.Clear.untried {r : PccRule} (hr : r ≠ .prog) :
    (ctx.setAnswer ctx.cur .prog .lr).lrtable ctx.cur r = none := by
  rw [setAnswer_ne _ _ (Or.inr hr)]
  exact hclear _ r (Nat.le_refl _)

variable (hwf : ctx.WF pccAuxilGetchar) {u w₁ : List UInt8}
  (hblank : Run isBlank ctx.unread u w₁)

include hwf

/-- The blanks in front of the expression may be read. -/
theorem prog_ready : Ready .exprs (ctx.setAnswer ctx.cur .prog .lr) := by
  refine ⟨hwf.setAnswer _ _ _, ?_, ?_⟩
  · refine Context.Clear.setAnswer ?_ (Nat.lt_succ_self _)
    exact fun q r hq => hclear q r (Nat.le_of_succ_le hq)
  · intro r hr
    refine hclear.untried ?_
    rintro rfl
    exact absurd hr (by decide)

include hblank

theorem prog_begin (hshort : u.length ≤ intMax) :
    ∃ ctx₁, Matches .blanks (ctx.setAnswer ctx.cur .prog .lr) ctx₁ [] ∧ Ready .expr ctx₁ ∧
      ctx₁.unread = w₁ ∧ ctx.cur ≤ ctx₁.cur := by
  rcases blanks_match (prog_ready hclear hwf) (hclear.untried (by decide)) hblank hshort
    with ⟨ctx₁, hmatch, hmoves, hready, -, -⟩
  have hcur : ctx₁.cur = ctx.cur + u.length := hmoves.cur_eq
  exact ⟨ctx₁, hmatch, hready.weaken, hmoves.unread_eq, by omega⟩

/-- With too many of them `prog` breaks. -/
theorem prog_leading_breaks (hlong : intMax < u.length) : Breaks .prog ctx := by
  have hready := prog_ready hclear hwf
  have hbreaks := blanks_breaks hready.wf (hclear.untried (by decide)) hblank hlong
  exact fun slot thunks => .apply (hclear _ _ (Nat.le_refl _)) (.seq (hbreaks none []))

/-- Behind the blanks `prog` breaks with its expression. -/
theorem prog_expr_breaks (hshort : u.length ≤ intMax) (hover : Overlong .expr w₁) :
    Breaks .prog ctx := by
  rcases prog_begin hclear hwf hblank hshort with ⟨ctx₁, hmatch, hready, hunread, -⟩
  have hexpr := hover.breaks hready hunread
  exact fun slot thunks => .apply (hclear _ _ (Nat.le_refl _))
    ((hmatch none []).seq_noResult (.seq (hexpr (some 0) [.node [] none])))

/-- Behind the expression it breaks with the blanks. -/
theorem prog_trailing_breaks (hshort : u.length ≤ intMax) (hexpr : ¬ Overlong .expr w₁)
    {t : Tree} {w₂ u' w₃ : List UInt8} (hreads : Reads .expr w₁ (.ok [t] w₂))
    (hblank' : Run isBlank w₂ u' w₃) (hlong : intMax < u'.length) : Breaks .prog ctx := by
  rcases prog_begin hclear hwf hblank hshort with ⟨ctx₁, hmatch, hready, hunread, -⟩
  rcases hreads.realizes hexpr hready hunread with ⟨ctx₂, c, hsucc, -, rfl, hclear₂⟩
  have hbreaks := blanks_breaks hsucc.wf (hclear₂ _ _ (Nat.le_refl _)) hblank' hlong
  exact fun slot thunks => .apply (hclear _ _ (Nat.le_refl _))
    ((hmatch none []).seq_noResult ((hsucc.run (some 0) _).seq_noResult (.seq (hbreaks none _))))

variable (hover : ¬ OverlongProgram ctx.unread)

include hover

/-- Without an expression behind the blanks `prog` fails. -/
theorem prog_fail {o : Outcome} (hreads : Reads .expr w₁ o) (hno : ∀ ts v, o ≠ .ok ts v) :
    ∃ ctx', Fails .prog ctx ctx' := by
  rcases prog_begin hclear hwf hblank (Nat.le_of_not_lt fun h => hover (.leading hblank h))
    with ⟨ctx₁, hmatch, hready, hunread, -⟩
  have hreal := hreads.realizes (fun h => hover (.expr hblank h)) hready hunread
  obtain ⟨ctx₂, hfail⟩ : ∃ ctx₂, Fails .expr ctx₁ ctx₂ := by
    cases o with
    | ok ts v => exact absurd rfl (hno ts v)
    | no v =>
      rcases hreal with ⟨ctx₂, href, -⟩
      exact ⟨ctx₂, href.run⟩
    | bad =>
      rcases hreal with ⟨ctx₂, href, -⟩
      exact ⟨ctx₂, href.run⟩
    | blocked => exact hreal.elim
  exact ⟨_, fun slot thunks => .apply_fail (hclear _ _ (Nat.le_refl _))
    ((hmatch none []).seq (.seq_fail (hfail (some 0) _)))⟩

/-- With an expression `prog` matches, and reads the blanks behind it. Nothing is known
of what follows them. -/
theorem prog_match {t : Tree} {w₂ u' w₃ : List UInt8} (hreads : Reads .expr w₁ (.ok [t] w₂))
    (hblank' : Run isBlank w₂ u' w₃) :
    ∃ ctx' c, Matches .prog ctx ctx' [.node [] none, .node c (some 0), .node [] none,
        .leaf .prog0 ctx.cur ctx'.cur] ∧ Made ctx'.buffer .expr c [t] ∧
      ctx'.WF pccAuxilGetchar ∧ ctx'.unread = w₃ ∧ ctx.cur < ctx'.cur ∧
      ctx'.Clear (ctx'.cur + 1) := by
  rcases prog_begin hclear hwf hblank (Nat.le_of_not_lt fun h => hover (.leading hblank h))
    with ⟨ctx₁, hmatch, hready, hunread, hle⟩
  rcases hreads.realizes (fun h => hover (.expr hblank h)) hready hunread
    with ⟨ctx₂, c, hsucc, hmade, hunread₂, hclear₂⟩
  subst hunread₂
  -- behind the expression no rule was applied yet
  rcases blanks_match (.of_clear hsucc.wf hclear₂) (hclear₂ _ _ (Nat.le_refl _)) hblank'
    (Nat.le_of_not_lt fun h => hover (.trailing hblank hreads hblank' h))
    with ⟨ctx₃, hmatch', hmoves, hready₃, -, -⟩
  have hcur₃ : ctx₃.cur = ctx₂.cur + u'.length := hmoves.cur_eq
  have hmoved := hsucc.moved
  have hlt : ctx.cur < ctx₃.cur := by omega
  exact ⟨_, c, fun slot thunks => .apply (hclear _ _ (Nat.le_refl _)) ((hmatch none []).seq
    ((hsucc.run (some 0) _).seq ((hmatch' none _).seq (.emit PccAction.prog0 ctx.cur)))),
    hmade.mono hmoves.grows, hmoves.wf.setAnswer _ _ _, hmoves.unread_eq, hlt,
    hready₃.clear.setAnswer (Nat.lt_succ_of_lt hlt)⟩

end Prog

/-- In front of a text with a run that is too long `prog` has no result. -/
theorem OverlongProgram.breaks {ctx : PccContext} (hclear : ctx.Clear ctx.cur)
    (hwf : ctx.WF pccAuxilGetchar) (h : OverlongProgram ctx.unread) : Breaks .prog ctx := by
  cases h with
  | leading hblank hlong => exact prog_leading_breaks hclear hwf hblank hlong
  | @expr u w hblank hover =>
    rcases Nat.lt_or_ge intMax u.length with hlong | hshort
    · exact prog_leading_breaks hclear hwf hblank hlong
    · exact prog_expr_breaks hclear hwf hblank hshort hover
  | @trailing u w w₁ u' w₂ t hblank hreads hblank' hlong' =>
    rcases Nat.lt_or_ge intMax u.length with hlong | hshort
    · exact prog_leading_breaks hclear hwf hblank hlong
    · by_cases hover : Overlong .expr w
      · exact prog_expr_breaks hclear hwf hblank hshort hover
      · exact prog_trailing_breaks hclear hwf hblank hshort hover hreads hblank' hlong'

/-- In front of any other text it matches or fails. -/
theorem prog_ends {ctx : PccContext} (hclear : ctx.Clear ctx.cur) (hwf : ctx.WF pccAuxilGetchar)
    (hover : ¬ OverlongProgram ctx.unread) :
    ∃ r, Observes pccEvaluateRule (.rule .prog (some 0)) ctx [] r := by
  rcases exists_span pccAuxilGetchar isBlank ctx.unread with ⟨u, w₁, hblank⟩
  rcases (exists_reads (2 * w₁.length + 1)).1 w₁ (Nat.lt_succ_self _) with ⟨o, hreads⟩
  by_cases hok : ∃ ts w₂, o = .ok ts w₂
  · rcases hok with ⟨ts, w₂, rfl⟩
    rcases hreads.single rfl with ⟨t, rfl⟩
    rcases exists_span pccAuxilGetchar isBlank w₂ with ⟨u', w₃, hblank'⟩
    rcases prog_match hclear hwf hblank hover hreads hblank' with ⟨ctx', c, hmatch, -⟩
    exact ⟨_, hmatch _ _⟩
  · rcases prog_fail hclear hwf hblank hover hreads fun ts v ho => hok ⟨ts, v, ho⟩
      with ⟨ctx', hfail⟩
    exact ⟨_, hfail _ _⟩

/-- The context at the start of a parse is in front of the text. -/
theorem wf_pccCreate (text : List UInt8) : (pccCreate text : PccContext).WF pccAuxilGetchar :=
  ⟨Nat.le_refl 0, fun b hb => by cases hb⟩

theorem clear_pccCreate (text : List UInt8) (p : ℕ) : (pccCreate text : PccContext).Clear p :=
  fun _ _ _ => rfl

/-! ## `pcc_parse_string` -/

section Parse

variable {S : BlockSizes} {A : Allocator} {M : ℕ} {text : List UInt8} (h : Heap A AstNode)
  {r r' : Except PccError (Ptr × Heap A AstNode)}

/-- The block for the text is too small. -/
theorem not_parses_tight (htight : S.usable sizeofPccAuxil < 16) : ¬ Parses S M h text r := by
  rintro ⟨N, hN⟩
  have hrun := hN N (Nat.le_refl N)
  unfold pccParseString at hrun
  rw [auxilOf_tight S text htight] at hrun
  cases hrun

/-- A run in the text is too long. -/
theorem not_parses_overlong (hover : OverlongProgram text) : ¬ Parses S M h text r := by
  intro hparses
  have hbreaks := OverlongProgram.breaks (clear_pccCreate text _) (wf_pccCreate text) hover
  rcases eventually_and hparses (hbreaks (some 0) []) with ⟨N, hN⟩
  rcases hN N (Nat.le_refl N) with ⟨hrun, hnone⟩
  have happly : pccApplyRule (evaluate pccEvaluateRule N) .prog (some 0) (pccCreate text) [] =
      none := hnone
  unfold pccParseString pccParse at hrun
  rcases Nat.lt_or_ge (S.usable sizeofPccAuxil) 16 with htight | hroom
  · rw [auxilOf_tight S text htight] at hrun
    cases hrun
  · rw [auxilOf_roomy S text hroom] at hrun
    simp only [happly] at hrun
    cases hrun

/-- A parse has one result. -/
theorem Parses.unique {h} (hr : Parses S M h text r) (hr' : Parses S M h text r') : r = r' := by
  rcases eventually_and hr hr' with ⟨N, hN⟩
  have hboth := hN N (Nat.le_refl N)
  rw [hboth.1] at hboth
  exact Option.some.inj hboth.2

/-- The value of `prog` is that of its expression. -/
theorem Computes.prog {buffer : List UInt8} {c : List (Thunk PccAction)} {p : Ptr}
    {h' : Heap A AstNode} (hc : Computes A M buffer c h p h') (q : ℕ) :
    Computes A M buffer
      [.node [] none, .node c (some 0), .node [] none, .leaf .prog0 0 q] h p h' := by
  refine ⟨Function.update (fun _ => 0) 0 p, ?_⟩
  rw [doAction_blanks, hc.node, doAction_blanks]
  exact doAction_last rfl

section Roomy

variable (hroom : 16 ≤ S.usable sizeofPccAuxil)

include hroom

/-- What a match of `prog` comes to: the tree is built, and the text must have
no character left. -/
theorem parses_of_match {ctx' : PccContext} {c : List (Thunk PccAction)} {p : Ptr}
    {h' : Heap A AstNode} (hmatch : Matches .prog (pccCreate text) ctx' c)
    (hwf : ctx'.WF pccAuxilGetchar) (hrun : Computes A M ctx'.buffer c h p h') :
    Parses S M h text (if (peek pccAuxilGetchar ctx'.unread).1 = none then .ok (p, h')
      else .error .endOfInput) := by
  rcases hmatch (some 0) [] with ⟨N, hobs⟩
  refine ⟨N, ?_⟩
  intro fuel hfuel
  have happly : pccApplyRule (evaluate pccEvaluateRule fuel) .prog (some 0) (pccCreate text) [] =
      some (true, ctx', [.node c (some 0)]) := hobs fuel hfuel
  have hdo : pccDoAction (pccAction M) 0 ctx'.buffer [.node c (some 0)] ⟨fun _ => 0, 0, h⟩ =
      some ⟨Function.update (fun _ => 0) 0 p, 0, h'⟩ := by
    rw [hrun.node, pccDoAction]
  -- the buffer is committed before the parser asks for the end
  have hcommit : (pccCommitBuffer ctx').WF pccAuxilGetchar :=
    ⟨Nat.zero_le _, fun b hb => hwf.nonneg b (List.mem_of_mem_drop hb)⟩
  have hleft := pccRefillBuffer_pos faithful_pccAuxilGetchar hcommit
  have hunread : (pccCommitBuffer ctx').unread = ctx'.unread := rfl
  rw [hunread] at hleft
  unfold pccParseString pccParse
  rw [auxilOf_roomy S text hroom]
  simp only [happly, hdo]
  by_cases hnone : (peek pccAuxilGetchar ctx'.unread).1 = none
  · rw [if_neg (fun hpos => hleft.mp hpos hnone), if_pos hnone]
    rfl
  · rw [if_pos (hleft.mpr hnone), if_neg hnone]
    rfl

/-- A failure of `prog` is a syntax error. -/
theorem parses_of_fail {ctx' : PccContext} (hfail : Fails .prog (pccCreate text) ctx') :
    Parses S M h text (.error .syntaxError) := by
  rcases hfail (some 0) [] with ⟨N, hobs⟩
  refine ⟨N, ?_⟩
  intro fuel hfuel
  have happly : pccApplyRule (evaluate pccEvaluateRule fuel) .prog (some 0) (pccCreate text) [] =
      some (false, ctx', []) := hobs fuel hfuel
  unfold pccParseString pccParse
  rw [auxilOf_roomy S text hroom]
  simp only [happly]

variable (hover : ¬ OverlongProgram text)

include hover

/-- An expression and blanks are read, and the tree is built. -/
theorem parses_of_reads {t : Tree} {u w₁ w₂ u' w₃ : List UInt8} (hfit : Fits M text.length)
    (hblank : Run isBlank text u w₁) (hreads : Reads .expr w₁ (.ok [t] w₂))
    (hblank' : Run isBlank w₂ u' w₃) :
    ∃ p h', h.Extends h' ∧ Represents h' [t] [p] ∧
      Parses S M h text (if (peek pccAuxilGetchar w₃).1 = none then .ok (p, h')
        else .error .endOfInput) := by
  rcases prog_match (clear_pccCreate text _) (wf_pccCreate text) hblank hover hreads hblank'
    with ⟨ctx', c, hmatch, hmade, hwf, rfl, -⟩
  have hle := Run.length_le hblank
  have hnarrow : Narrow text.length [t] := (hreads.narrow _ _ rfl).mono (by omega)
  rcases hmade.builds hfit hnarrow h with ⟨p, h', hrun, hext, hrep⟩
  exact ⟨p, h', hext, hrep, parses_of_match h hroom hmatch hwf (hrun.prog h ctx'.cur)⟩

/-- A program is parsed to its tree. -/
theorem parses_program {t : Tree} (hfit : Fits M text.length) (hprog : ReadsProgram text t) :
    ∃ p h', Parses S M h text (.ok (p, h')) ∧ h.Extends h' ∧ Represents h' [t] [p] := by
  rcases hprog with ⟨u, w₁, w₂, u', w₃, hblank, hreads, hblank', hend⟩
  rcases parses_of_reads h hroom hover hfit hblank hreads hblank' with ⟨p, h', hext, hrep, hparses⟩
  rw [if_pos hend] at hparses
  exact ⟨p, h', hparses, hext, hrep⟩

/-- **Every other text ends in an error.** -/
theorem parses_error (hfit : Fits M text.length) (hnot : ¬ ∃ t, ReadsProgram text t) :
    ∃ e, Parses S M h text (.error e) := by
  rcases exists_span pccAuxilGetchar isBlank text with ⟨u, w₁, hblank⟩
  rcases (exists_reads (2 * w₁.length + 1)).1 w₁ (Nat.lt_succ_self _) with ⟨o, hreads⟩
  by_cases hok : ∃ ts w₂, o = .ok ts w₂
  · rcases hok with ⟨ts, w₂, rfl⟩
    rcases hreads.single rfl with ⟨t, rfl⟩
    rcases exists_span pccAuxilGetchar isBlank w₂ with ⟨u', w₃, hblank'⟩
    -- an expression was read, so what is missing is the end of the text
    have hend : ¬ (peek pccAuxilGetchar w₃).1 = none :=
      fun hend => hnot ⟨t, u, w₁, w₂, u', w₃, hblank, hreads, hblank', hend⟩
    rcases parses_of_reads h hroom hover hfit hblank hreads hblank' with ⟨p, h', -, -, hparses⟩
    rw [if_neg hend] at hparses
    exact ⟨_, hparses⟩
  · rcases prog_fail (clear_pccCreate text _) (wf_pccCreate text) hblank hover hreads
      fun ts v ho => hok ⟨ts, v, ho⟩ with ⟨ctx', hfail⟩
    exact ⟨_, parses_of_fail h hroom hfail⟩

end Roomy

/-- The texts that are parsed to a tree are the programs, if the block is large enough
and no run too long. -/
theorem parses_ok_iff (hfit : Fits M text.length) :
    (∃ p h', Parses S M h text (.ok (p, h'))) ↔
      16 ≤ S.usable sizeofPccAuxil ∧ ¬ OverlongProgram text ∧ ∃ t, ReadsProgram text t := by
  constructor
  · rintro ⟨p, h', hparses⟩
    have hroom : 16 ≤ S.usable sizeofPccAuxil :=
      Nat.le_of_not_lt fun htight => not_parses_tight h htight hparses
    have hover : ¬ OverlongProgram text := fun hover => not_parses_overlong h hover hparses
    refine ⟨hroom, hover, ?_⟩
    by_contra hnot
    rcases parses_error h hroom hover hfit hnot with ⟨e, herror⟩
    cases hparses.unique herror
  · rintro ⟨hroom, hover, t, hprog⟩
    rcases parses_program h hroom hover hfit hprog with ⟨p, h', hparses, -⟩
    exact ⟨p, h', hparses⟩

end Parse

end Jetlang.Pcc
