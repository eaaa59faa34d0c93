import Jetlang.Pcc.Building
import Jetlang.Pcc.Rules

/-! # The rules `expr` and `exprs`

The parser does to the text in front of it what `Reads` says. After its first
expression `exprs` tries to go on and, if it cannot, takes the expression again
from the memo table; the blanks behind the last expression are then read by the
rule around it, from the table as well. So the parser stands behind the last
expression, and the table says where its blanks end. Where it comes to a run that is
too long to be counted, it has no result.
-/

namespace Jetlang.Pcc

open Jetlang.Sym (intMax)

def Kind.rule : Kind → PccRule
  | .expr => .expr
  | .exprs => .exprs

/-- `expr` or `exprs` has matched, and has moved on. -/
structure Succeeds (k : Kind) (ctx ctx' : PccContext) (c : List (Thunk PccAction)) : Prop where
  run : Matches k.rule ctx ctx' c
  wf : ctx'.WF pccAuxilGetchar
  moved : ctx.cur < ctx'.cur
  grows : ctx.buffer <+: ctx'.buffer
  keeps : Keeps ctx.cur ctx ctx'
  answer : ctx'.lrtable ctx.cur k.rule = some (.chunk (some c) ctx'.cur)

/-- `expr` or `exprs` has failed, and is where it was. -/
structure Refuses (k : Kind) (ctx ctx' : PccContext) : Prop where
  run : Fails k.rule ctx ctx'
  wf : ctx'.WF pccAuxilGetchar
  cur_eq : ctx'.cur = ctx.cur
  grows : ctx.buffer <+: ctx'.buffer
  keeps : Keeps ctx.cur ctx ctx'
  answer : ctx'.lrtable ctx.cur k.rule = some (.chunk none ctx.cur)

/-- The blanks behind the current position are known to end at `r`. -/
structure StopsAt (ctx : PccContext) (r : ℕ) : Prop where
  answer : ctx.lrtable ctx.cur .blanks = some (.chunk (some []) r)
  le : ctx.cur ≤ r
  stop_le : r ≤ ctx.buffer.length

/-- The rule does to the text in front of it what the outcome says. There is no
`blocked` for `expr`. -/
def Realizes (ctx : PccContext) : Kind → Outcome → Prop
  | .expr, .ok ts v => ∃ ctx' c, Succeeds .expr ctx ctx' c ∧ Made ctx'.buffer .expr c ts ∧
      ctx'.unread = v ∧ ctx'.Clear ctx'.cur
  | .exprs, .ok ts v => ∃ ctx' c r, Succeeds .exprs ctx ctx' c ∧ Made ctx'.buffer .exprs c ts ∧
      StopsAt ctx' r ∧ (ctx'.at r).unread = v ∧ ctx'.Clear (r + 1)
  | k, .no v => ∃ ctx', Refuses k ctx ctx' ∧ ctx'.unread = v ∧ ctx'.Clear (ctx'.cur + 1)
  | k, .bad => ∃ ctx', Refuses k ctx ctx' ∧ ctx'.buffer[ctx.cur]? = some 40
  | .exprs, .blocked => ∃ ctx' c r, Succeeds .exprs ctx ctx' c ∧ StopsAt ctx' r ∧
      ctx'.buffer[r]? = some 40
  | .expr, .blocked => False

variable {ctx ctx₁ ctx₂ ctx₃ ctx' : PccContext}

theorem StopsAt.wf {r : ℕ} (h : StopsAt ctx r) (hwf : ctx.WF pccAuxilGetchar) :
    (ctx.at r).WF pccAuxilGetchar :=
  ⟨h.stop_le, hwf.nonneg⟩

/-- The blanks are taken from the table. -/
theorem StopsAt.blanks {r : ℕ} (h : StopsAt ctx r) : Matches .blanks ctx (ctx.at r) [] :=
  fun _ _ => .hit h.answer

/-- A character of the buffer is the next one at its position. -/
theorem peek_of_getElem {r : ℕ} {b : UInt8} (hwf : ctx.WF pccAuxilGetchar)
    (hb : ctx.buffer[r]? = some b) : (peek pccAuxilGetchar (ctx.at r).unread).1 = some b := by
  rcases List.getElem?_eq_some_iff.mp hb with ⟨hlt, hget⟩
  have hlow := hwf.nonneg _ (List.getElem_mem hlt)
  unfold Context.unread
  rw [at_buffer, at_cur, List.drop_eq_getElem_cons hlt, List.cons_append, peek,
    if_neg (Int.not_lt.mpr hlow), hget]

/-- A character stays where it is when the buffer grows. -/
theorem getElem_of_grows {b b' : List UInt8} {p : ℕ} {c : UInt8} (h : b <+: b')
    (hc : b[p]? = some c) : b'[p]? = some c := by
  rcases h with ⟨z, rfl⟩
  rcases List.getElem?_eq_some_iff.mp hc with ⟨hlt, -⟩
  rw [List.getElem?_append_left hlt, hc]

/-- The rest of a list, from its first entry on. -/
abbrev listRest (start : ℕ) : PccParser :=
  (Parser.rule .exprs (some 1)).seq <| (Parser.rule .blanks none).seq <|
    (charClass (· == 41)).seq <| Parser.emit .expr1 start

/-- `expr` has read the beginning of a list, up to `ctx₁`, where the code `P` comes next.
What this does is what the rule does. -/
structure Opened (ctx ctx₁ : PccContext) (P : PccParser) (thunks : List (Thunk PccAction)) :
    Prop where
  moved : ctx.cur < ctx₁.cur
  grows : ctx.buffer <+: ctx₁.buffer
  keeps : Keeps ctx.cur ctx ctx₁
  paren : ctx₁.buffer[ctx.cur]? = some 40
  matches_of : ∀ (ctx₂ : PccContext) (c : List (Thunk PccAction)),
    Observes pccEvaluateRule P ctx₁ thunks (true, ctx₂, c) →
    Matches .expr ctx (ctx₂.setAnswer ctx.cur .expr (.chunk (some c) ctx₂.cur)) c
  fails_of : ∀ (ctx₂ : PccContext) (c : List (Thunk PccAction)),
    Observes pccEvaluateRule P ctx₁ thunks (false, ctx₂, c) →
    Fails .expr ctx ((ctx₂.at ctx.cur).setAnswer ctx.cur .expr (.chunk none ctx.cur))
  breaks_of : NoResult pccEvaluateRule P ctx₁ thunks → Breaks .expr ctx

/-- The rest of a list fails, and the context has only grown. -/
def Unclosed (ctx : PccContext) (start : ℕ) : Prop :=
  ∃ (ctx' : PccContext) (c : List (Thunk PccAction)),
    Observes pccEvaluateRule (listRest start) ctx [.node [] none] (false, ctx', c) ∧
      ctx'.WF pccAuxilGetchar ∧ ctx.buffer <+: ctx'.buffer ∧ Keeps ctx.cur ctx ctx'

/-- The entries of a list fail. -/
theorem Refuses.unclosed (h : Refuses .exprs ctx ctx') (start : ℕ) : Unclosed ctx start :=
  ⟨ctx', _, .seq_fail (h.run (some 1) _), h.wf, h.grows, h.keeps⟩

/-- The entries of a list are not followed by a closing parenthesis. -/
theorem Succeeds.unclosed {c : List (Thunk PccAction)} {r : ℕ} (h : Succeeds .exprs ctx ctx' c)
    (hstop : StopsAt ctx' r) (hnext : Lacks (· == 41) (ctx'.at r).unread) (start : ℕ) :
    Unclosed ctx start := by
  have hwf := hstop.wf h.wf
  have hscan := (peeked_spec faithful_pccAuxilGetchar hwf).1
  have hparen : Observes pccEvaluateRule (charClass (· == 41)) (ctx'.at r)
      [.node [] none, .node c (some 1), .node [] none]
      (false, (ctx'.at r).peeked pccAuxilGetchar, _) :=
    .of_eq (charClass_fail faithful_pccAuxilGetchar hwf hnext _)
  refine ⟨_, _, (h.run (some 1) _).seq ((hstop.blanks none _).seq (.seq_fail hparen)), hscan.wf,
    h.grows.trans hscan.grows, ?_⟩
  intro q s hq
  rw [hscan.table_eq, at_lrtable]
  exact h.keeps q s hq

/-- In every other case than a closed list the rest of the list fails. -/
theorem Realizes.unclosed {o : Outcome} (h : Realizes ctx .exprs o)
    (hend : ∀ ts w, o = .ok ts w → Lacks (· == 41) w) (start : ℕ) : Unclosed ctx start := by
  cases o with
  | ok ts w =>
    rcases h with ⟨ctx', c, r, hsucc, -, hstop, hunread, -⟩
    have hnext := hend ts w rfl
    rw [← hunread] at hnext
    exact hsucc.unclosed hstop hnext start
  | no v =>
    rcases h with ⟨ctx', href, -⟩
    exact href.unclosed start
  | bad =>
    rcases h with ⟨ctx', href, -⟩
    exact href.unclosed start
  | blocked =>
    rcases h with ⟨ctx', c, r, hsucc, hstop, hparen⟩
    -- behind the blanks comes an opening parenthesis, not a closing one
    have hnext : Lacks (· == 41) (ctx'.at r).unread := by
      intro b hb
      rw [peek_of_getElem hsucc.wf hparen] at hb
      cases hb
      rfl
    exact hsucc.unclosed hstop hnext start

/-! ## Expressions -/

section Expr

variable (hready : Ready .expr ctx)

include hready

/-- Symbols may be read while `expr` is being evaluated. -/
theorem Ready.inner {r : PccRule} (hr : r = .atom ∨ r = .sym) :
    (ctx.setAnswer ctx.cur .expr .lr).lrtable ctx.cur r = none := by
  rcases hr with rfl | rfl
  · rw [setAnswer_ne _ _ (Or.inr (by decide))]
    exact hready.own _ (by decide)
  · rw [setAnswer_ne _ _ (Or.inr (by decide))]
    exact hready.own _ (by decide)

/-- A symbol. -/
theorem expr_sym {n : Name} {w v : List UInt8} (hunread : ctx.unread = n.first :: w)
    (hrun : Run isWord w n.rest v) (hshort : n.rest.length ≤ intMax) :
    Realizes ctx .expr (.ok [.leaf n] v) := by
  obtain ⟨ctx₁, hmatch, hmoves, hlocal⟩ := atom_match (hready.wf.setAnswer _ _ _)
    (hready.inner (Or.inr rfl)) (hready.inner (Or.inl rfl)) hunread hrun hshort
  -- the first alternative
  have hbody : Observes pccEvaluateRule (pccEvaluateRuleExpr ctx.cur)
      (ctx.setAnswer ctx.cur .expr .lr) [] (true, ctx₁,
        [.node [.node [.leaf .sym0 ctx.cur ctx₁.cur] (some 0), .leaf .atom0 ctx.cur ctx₁.cur]
          (some 0), .leaf .expr0 ctx.cur ctx₁.cur]) :=
    .alt_left ((hmatch (some 0) []).seq (.emit PccAction.expr0 ctx.cur))
  have hcur : ctx₁.cur = ctx.cur + n.bytes.length := hmoves.cur_eq
  have hmoved : ctx.cur < ctx₁.cur := by
    rw [hcur]
    exact Nat.lt_add_of_pos_right (Nat.succ_pos _)
  have hlocal' : Local ctx.cur ctx ctx₁ := (local_setAnswer (by decide)).trans hlocal
  refine ⟨ctx₁.setAnswer ctx.cur .expr _, _, ⟨fun slot thunks => .apply (hready.own _ (by decide))
    hbody, hmoves.wf.setAnswer _ _ _, hmoved, hmoves.grows, ?_, setAnswer_same ..⟩, ?_, ?_, ?_⟩
  · exact (hlocal'.trans (local_setAnswer (by decide))).keeps
  · exact .sym ⟨Nat.le_of_lt hmoved, hmoves.wf.cur_le, hmoves.text⟩
  · exact hmoves.unread_eq
  · apply Context.Clear.setAnswer _ hmoved
    exact hlocal'.clear hmoved fun q r hq => hready.clear q r (Nat.le_trans hmoved hq)

/-- A symbol that is too long. -/
theorem expr_sym_breaks {c : UInt8} {w u v : List UInt8} (hunread : ctx.unread = c :: w)
    (hc : isAlpha c = true) (hrun : Run isWord w u v) (hlong : intMax < u.length) :
    Breaks .expr ctx := by
  have hatom := atom_breaks (hready.wf.setAnswer _ _ _) (hready.inner (Or.inr rfl))
    (hready.inner (Or.inl rfl)) hunread hc hrun hlong
  have hbody : NoResult pccEvaluateRule (pccEvaluateRuleExpr ctx.cur)
      (ctx.setAnswer ctx.cur .expr .lr) [] := .alt (.seq (hatom (some 0) []))
  exact fun slot thunks => .apply (hready.own _ (by decide)) hbody

/-- Where no symbol begins, the first alternative has asked for one character. -/
theorem expr_no_atom (hlacks : Lacks isAlpha ctx.unread) :
    ∃ ctx₁, Observes pccEvaluateRule ((Parser.rule .atom (some 0)).seq (.emit .expr0 ctx.cur))
        (ctx.setAnswer ctx.cur .expr .lr) [] (false, ctx₁, []) ∧
      Moves ctx ctx₁ [] (left ctx.unread) ∧ Local ctx.cur ctx ctx₁ := by
  obtain ⟨ctx₁, hfail, hmoves, hlocal⟩ := atom_fail (hready.wf.setAnswer _ _ _)
    (hready.inner (Or.inr rfl)) (hready.inner (Or.inl rfl)) hlacks
  exact ⟨ctx₁, .seq_fail (hfail (some 0) []), ⟨hmoves.wf, hmoves.cur_eq, hmoves.unread_eq,
    hmoves.grows, hmoves.text⟩, (local_setAnswer (by decide)).trans hlocal⟩

/-- Neither a symbol nor a list. -/
theorem expr_none (hlacks : Lacks isAlpha ctx.unread)
    (hopen : Lacks (· == 40) (left ctx.unread)) :
    Realizes ctx .expr (.no (left (left ctx.unread))) := by
  rcases expr_no_atom hready hlacks with ⟨ctx₁, hfirst, hmoves, hlocal⟩
  have hcur : ctx₁.cur = ctx.cur := hmoves.cur_eq
  have hat : ctx₁.at ctx.cur = ctx₁ := by rw [← hcur, at_self]
  rw [← hmoves.unread_eq] at hopen ⊢
  have hscan := (peeked_spec faithful_pccAuxilGetchar hmoves.wf).1
  have hcur₂ : (ctx₁.peeked pccAuxilGetchar).cur = ctx.cur := hscan.cur_eq.trans hcur
  have hat₂ : (ctx₁.peeked pccAuxilGetchar).at ctx.cur = ctx₁.peeked pccAuxilGetchar := by
    rw [← hcur₂, at_self]
  -- the second alternative asks for a parenthesis at the same place
  have hsecond : Observes pccEvaluateRule (charClass (· == 40)) (ctx₁.at ctx.cur) []
      (false, ctx₁.peeked pccAuxilGetchar, []) := by
    rw [hat]
    exact .of_eq (charClass_fail faithful_pccAuxilGetchar hmoves.wf hopen [])
  have hbody : Observes pccEvaluateRule (pccEvaluateRuleExpr ctx.cur)
      (ctx.setAnswer ctx.cur .expr .lr) [] (false, ctx₁.peeked pccAuxilGetchar, []) := by
    rw [← hat₂]
    exact .alt_fail hfirst (.seq_fail hsecond)
  have hlocal₂ := hlocal.trans hscan.local
  refine ⟨(ctx₁.peeked pccAuxilGetchar).setAnswer ctx.cur .expr (.chunk none
    (ctx₁.peeked pccAuxilGetchar).cur), ⟨fun slot thunks => .apply_fail (hready.own _ (by decide))
    hbody, hscan.wf.setAnswer _ _ _, hcur₂, hmoves.grows.trans hscan.grows, ?_, ?_⟩, ?_, ?_⟩
  · exact (hlocal₂.trans (local_setAnswer (by decide))).keeps
  · show Context.lrtable _ ctx.cur PccRule.expr = _
    rw [setAnswer_same, hcur₂]
  · exact hscan.unread_eq
  · rw [setAnswer_cur, hcur₂]
    exact (hlocal₂.clear (Nat.lt_succ_self _) hready.clear).setAnswer (Nat.lt_succ_self _)

/-- The parenthesis of a list is read, where the first alternative has failed. -/
theorem expr_paren {w₁ : List UInt8} (hlacks : Lacks isAlpha ctx.unread)
    (hopen : left ctx.unread = 40 :: w₁) :
    ∃ ctx₂, Opened ctx ctx₂ ((Parser.rule .blanks none).seq (listRest ctx.cur)) [] ∧
      ctx₂.WF pccAuxilGetchar ∧ ctx₂.Clear ctx₂.cur ∧ ctx₂.unread = w₁ := by
  rcases expr_no_atom hready hlacks with ⟨ctx₁, hfirst, hmoves₁, hlocal₁⟩
  have hcur₁ : ctx₁.cur = ctx.cur := hmoves₁.cur_eq
  have hat₁ : ctx₁.at ctx.cur = ctx₁ := by rw [← hcur₁, at_self]
  have hclear₁ := hlocal₁.clear (Nat.lt_succ_self _) hready.clear
  have hpeek : peek pccAuxilGetchar ctx₁.unread = (some 40, 40 :: w₁) := by
    have hw := hmoves₁.unread_eq
    rw [hopen] at hw
    rw [hw, peek_low (by decide)]
  obtain ⟨ctx₂, hscan₂, hparen⟩ := charClass_match (p := (· == 40)) faithful_pccAuxilGetchar
    hmoves₁.wf hpeek rfl []
  have hcur₂ : ctx₂.cur = ctx.cur + 1 := hscan₂.cur_eq.trans (by rw [hcur₁]; rfl)
  have hread : Observes pccEvaluateRule (charClass (· == 40)) (ctx₁.at ctx.cur) []
      (true, ctx₂, []) := by
    rw [hat₁]
    exact .of_eq hparen
  refine ⟨ctx₂, ⟨by omega, hmoves₁.grows.trans hscan₂.grows, ?_, ?_, ?_, ?_, ?_⟩, hscan₂.wf, ?_,
    hscan₂.unread_eq⟩
  · intro q r hq
    rw [hscan₂.table_eq]
    exact hlocal₁.keeps q r hq
  · have hdrop := hscan₂.text
    rw [hcur₁] at hdrop
    rw [← List.head?_drop, hdrop]
    rfl
  · -- the second alternative is that of the list
    intro ctx₃ c hrest slot thunks
    exact .apply (hready.own _ (by decide)) (.alt_right hfirst (hread.seq hrest))
  · intro ctx₃ c hrest slot thunks
    exact .apply_fail (hready.own _ (by decide)) (.alt_fail hfirst (hread.seq hrest))
  · intro hrest slot thunks
    exact .apply (hready.own _ (by decide)) (hfirst.alt_noResult (hread.seq_noResult hrest))
  · rw [hcur₂]
    intro q r hq
    rw [hscan₂.table_eq]
    exact hclear₁ q r hq

/-- The beginning of a list, up to its first entry. -/
theorem expr_open {w₁ u w₂ : List UInt8} (hlacks : Lacks isAlpha ctx.unread)
    (hopen : left ctx.unread = 40 :: w₁) (hblank : Run isBlank w₁ u w₂)
    (hshort : u.length ≤ intMax) :
    ∃ ctx₃, Opened ctx ctx₃ (listRest ctx.cur) [.node [] none] ∧ Ready .exprs ctx₃ ∧
      ctx₃.unread = w₂ := by
  rcases expr_paren hready hlacks hopen with ⟨ctx₂, hopened, hwf₂, hclear₂, rfl⟩
  rcases blanks_match (.of_clear hwf₂ hclear₂) (hclear₂ _ _ (Nat.le_refl _)) hblank hshort
    with ⟨ctx₃, hblanks, hmoves₃, hready₃, -, htable₃⟩
  have hcur₃ : ctx₃.cur = ctx₂.cur + u.length := hmoves₃.cur_eq
  have hmoved := hopened.moved
  refine ⟨ctx₃, ⟨by omega, hopened.grows.trans hmoves₃.grows, ?_,
    getElem_of_grows hmoves₃.grows hopened.paren, ?_, ?_, ?_⟩, hready₃, hmoves₃.unread_eq⟩
  · intro q r hq
    rw [htable₃ q r (Or.inl (by omega))]
    exact hopened.keeps q r hq
  · exact fun ctx₄ c hrest => hopened.matches_of ctx₄ c ((hblanks none []).seq hrest)
  · exact fun ctx₄ c hrest => hopened.fails_of ctx₄ c ((hblanks none []).seq hrest)
  · exact fun hrest => hopened.breaks_of ((hblanks none []).seq_noResult hrest)

/-- Too many blanks behind the parenthesis. -/
theorem expr_opening_breaks {w₁ u w₂ : List UInt8} (hlacks : Lacks isAlpha ctx.unread)
    (hopen : left ctx.unread = 40 :: w₁) (hblank : Run isBlank w₁ u w₂)
    (hlong : intMax < u.length) : Breaks .expr ctx := by
  rcases expr_paren hready hlacks hopen with ⟨ctx₂, hopened, hwf₂, hclear₂, rfl⟩
  have hblanks := blanks_breaks hwf₂ (hclear₂ _ _ (Nat.le_refl _)) hblank hlong
  exact hopened.breaks_of (hblanks none []).seq

/-- Entries without a result. -/
theorem expr_inside_breaks {w₁ u w₂ : List UInt8} (hlacks : Lacks isAlpha ctx.unread)
    (hopen : left ctx.unread = 40 :: w₁) (hblank : Run isBlank w₁ u w₂)
    (hexprs : ∀ {ctx₃}, Ready .exprs ctx₃ → ctx₃.unread = w₂ → Breaks .exprs ctx₃) :
    Breaks .expr ctx := by
  rcases Nat.lt_or_ge intMax u.length with hlong | hshort
  · exact expr_opening_breaks hready hlacks hopen hblank hlong
  · rcases expr_open hready hlacks hopen hblank hshort with ⟨ctx₃, hopened, hready₃, hunread₃⟩
    exact hopened.breaks_of (.seq (hexprs hready₃ hunread₃ (some 1) [.node [] none]))

/-- A list. -/
theorem expr_list {w₁ u w₂ w₃ : List UInt8} {t : Tree} {ts : List Tree}
    (hlacks : Lacks isAlpha ctx.unread) (hopen : left ctx.unread = 40 :: w₁)
    (hblank : Run isBlank w₁ u w₂) (hshort : u.length ≤ intMax)
    (hexprs : ∀ {ctx₃}, Ready .exprs ctx₃ → ctx₃.unread = w₂ →
      Realizes ctx₃ .exprs (.ok (t :: ts) (41 :: w₃))) :
    Realizes ctx .expr (.ok [.list t ts] w₃) := by
  rcases expr_open hready hlacks hopen hblank hshort with ⟨ctx₃, hopened, hready₃, hunread₃⟩
  rcases hexprs hready₃ hunread₃ with ⟨ctx₄, c, r, hsucc, hmade, hstop, hunread₄, hclear⟩
  -- the parenthesis behind the blanks of the last entry
  have hpeek : peek pccAuxilGetchar (ctx₄.at r).unread = (some 41, 41 :: w₃) := by
    rw [hunread₄, peek_low (by decide)]
  obtain ⟨ctx₅, hscan, hparen⟩ := charClass_match (p := (· == 41)) faithful_pccAuxilGetchar
    (hstop.wf hsucc.wf) hpeek rfl [.node [] none, .node c (some 1), .node [] none]
  have hrest := (hsucc.run (some 1) [.node [] none]).seq
    ((hstop.blanks none _).seq ((Observes.of_eq hparen).seq (.emit PccAction.expr1 ctx.cur)))
  have hmatch := hopened.matches_of _ _ hrest
  have hcur₅ : ctx₅.cur = r + 1 := hscan.cur_eq
  have hmoved := hopened.moved
  have hlt : ctx.cur < ctx₅.cur := by
    have hmoved₄ := hsucc.moved
    have hle := hstop.le
    omega
  have hkeeps₅ : Keeps ctx.cur ctx ctx₅ := by
    refine (hopened.keeps.trans hsucc.keeps (Nat.le_of_lt hmoved)).trans ?_ (Nat.le_refl _)
    intro q s _
    rw [hscan.table_eq, at_lrtable]
  have hclear₅ : ctx₅.Clear ctx₅.cur := by
    rw [hcur₅]
    intro q s hq
    rw [hscan.table_eq]
    exact hclear q s hq
  refine ⟨_, _, ⟨hmatch, hscan.wf.setAnswer _ _ _, hlt, ?_, ?_, setAnswer_same ..⟩, ?_, ?_, ?_⟩
  · exact (hopened.grows.trans hsucc.grows).trans hscan.grows
  · exact hkeeps₅.trans (local_setAnswer (by decide)).keeps (Nat.le_refl _)
  · exact .list (hmade.mono hscan.grows)
  · exact hscan.unread_eq
  · exact hclear₅.setAnswer hlt

/-- A list without an end: its entries fail, or they are followed by something
other than a closing parenthesis. -/
theorem expr_unclosed {w₁ u w₂ : List UInt8} {o : Outcome} (hlacks : Lacks isAlpha ctx.unread)
    (hopen : left ctx.unread = 40 :: w₁) (hblank : Run isBlank w₁ u w₂) (hshort : u.length ≤ intMax)
    (hexprs : ∀ {ctx₃}, Ready .exprs ctx₃ → ctx₃.unread = w₂ → Realizes ctx₃ .exprs o)
    (hend : ∀ ts w₃, o = .ok ts w₃ → Lacks (· == 41) w₃) : Realizes ctx .expr .bad := by
  rcases expr_open hready hlacks hopen hblank hshort with ⟨ctx₃, hopened, hready₃, hunread₃⟩
  rcases (hexprs hready₃ hunread₃).unclosed hend ctx.cur
    with ⟨ctx₄, c, hrest, hwf, hgrows₄, hkeeps₄⟩
  have hfail := hopened.fails_of _ _ hrest
  have hkeeps' := hopened.keeps.trans hkeeps₄ (Nat.le_of_lt hopened.moved)
  have hgrows' := hopened.grows.trans hgrows₄
  -- the parser goes back to where the list begins
  have hcur : ctx.cur ≤ ctx₄.buffer.length := by
    have hle := hready.wf.cur_le
    have hlen := hgrows'.length_le
    omega
  refine ⟨_, ⟨hfail, ⟨hcur, hwf.nonneg⟩, rfl, hgrows', ?_, setAnswer_same ..⟩,
    getElem_of_grows hgrows₄ hopened.paren⟩
  intro q s hq
  rw [(local_setAnswer (by decide)).keeps q s hq, at_lrtable]
  exact hkeeps' q s hq

end Expr

/-! ## Lists of expressions -/

section Exprs

/-- `exprs` fails with its first expression, which is not tried twice. -/
theorem exprs_refuses (hready : Ready .exprs ctx)
    (hfirst : Refuses .expr (ctx.setAnswer ctx.cur .exprs .lr) ctx₁) :
    Refuses .exprs ctx (ctx₁.setAnswer ctx.cur .exprs (.chunk none ctx₁.cur)) := by
  have hcur₁ : ctx₁.cur = ctx.cur := hfirst.cur_eq
  have hat₁ : ctx₁.at ctx.cur = ctx₁ := by rw [← hcur₁, at_self]
  -- the second alternative finds the failure in the table
  have hagain : Observes pccEvaluateRule (.rule .expr (some 0)) (ctx₁.at ctx.cur) []
      (false, ctx₁.at ctx.cur, []) := .hit_fail hfirst.answer
  have hbody : Observes pccEvaluateRule (pccEvaluateRuleExprs ctx.cur)
      (ctx.setAnswer ctx.cur .exprs .lr) [] (false, (ctx₁.at ctx.cur).at ctx.cur, []) :=
    .alt_fail (.seq_fail (hfirst.run (some 0) [])) (.seq_fail hagain)
  rw [hat₁, hat₁] at hbody
  refine ⟨fun slot thunks => .apply_fail (hready.own _ (by decide)) hbody,
    hfirst.wf.setAnswer _ _ _, hcur₁, hfirst.grows, ?_, ?_⟩
  · exact ((local_setAnswer (by decide)).keeps.trans hfirst.keeps (Nat.le_refl _)).trans
      (local_setAnswer (by decide)).keeps (Nat.le_refl _)
  · show Context.lrtable _ ctx.cur PccRule.exprs = _
    rw [setAnswer_same, hcur₁]

/-- `exprs` has read its first expression, up to `ctx₁`, and blanks, up to `ctx₂`. -/
structure Past (ctx ctx₁ ctx₂ : PccContext) (c : List (Thunk PccAction)) : Prop where
  begun : Ready .exprs ctx
  first : Succeeds .expr (ctx.setAnswer ctx.cur .exprs .lr) ctx₁ c
  blanks : Matches .blanks ctx₁ ctx₂ []
  ready : Ready .exprs ctx₂
  le : ctx₁.cur ≤ ctx₂.cur
  grows : ctx₁.buffer <+: ctx₂.buffer
  answer : ctx₂.lrtable ctx₁.cur .blanks = some (.chunk (some []) ctx₂.cur)
  keeps : ∀ q r, q < ctx₁.cur → ctx₂.lrtable q r = ctx₁.lrtable q r

theorem exists_past (hready : Ready .exprs ctx) {c : List (Thunk PccAction)}
    (hfirst : Succeeds .expr (ctx.setAnswer ctx.cur .exprs .lr) ctx₁ c)
    (hclear : ctx₁.Clear ctx₁.cur) {u w : List UInt8} (hblank : Run isBlank ctx₁.unread u w)
    (hshort : u.length ≤ intMax) :
    ∃ ctx₂, Past ctx ctx₁ ctx₂ c ∧ ctx₂.unread = w := by
  rcases blanks_match (.of_clear hfirst.wf hclear) (hclear _ _ (Nat.le_refl _)) hblank hshort
    with ⟨ctx₂, hblanks, hmoves, hready₂, hanswer, htable⟩
  have hcur : ctx₂.cur = ctx₁.cur + u.length := hmoves.cur_eq
  exact ⟨ctx₂, ⟨hready, hfirst, hblanks, hready₂, by omega, hmoves.grows, hanswer,
    fun q r hq => htable q r (Or.inl (Nat.ne_of_lt hq))⟩, hmoves.unread_eq⟩

namespace Past

variable {c : List (Thunk PccAction)} (h : Past ctx ctx₁ ctx₂ c)

include h

theorem lt : ctx.cur < ctx₁.cur := h.first.moved

theorem grows_all : ctx.buffer <+: ctx₂.buffer := h.first.grows.trans h.grows

theorem keeps_all : Keeps ctx.cur ctx ctx₂ := by
  intro q r hq
  have hlt := h.lt
  rw [h.keeps q r (by omega)]
  exact ((local_setAnswer (by decide)).keeps.trans h.first.keeps (Nat.le_refl _)) q r hq

/-- The first alternative: more expressions follow. -/
theorem more {c' : List (Thunk PccAction)} (hmore : Succeeds .exprs ctx₂ ctx₃ c') :
    Succeeds .exprs ctx
      (ctx₃.setAnswer ctx.cur .exprs (.chunk (some [.node c (some 0), .node [] none,
        .node c' (some 1), .leaf .exprs0 ctx.cur ctx₃.cur]) ctx₃.cur))
      [.node c (some 0), .node [] none, .node c' (some 1), .leaf .exprs0 ctx.cur ctx₃.cur] := by
  have hlt := h.lt
  have hle := h.le
  have hmoved := hmore.moved
  have hbody : Observes pccEvaluateRule (pccEvaluateRuleExprs ctx.cur)
      (ctx.setAnswer ctx.cur .exprs .lr) [] (true, ctx₃, [.node c (some 0), .node [] none,
        .node c' (some 1), .leaf .exprs0 ctx.cur ctx₃.cur]) :=
    .alt_left ((h.first.run (some 0) []).seq ((h.blanks none _).seq
      ((hmore.run (some 1) _).seq (.emit PccAction.exprs0 ctx.cur))))
  refine ⟨fun slot thunks => .apply (h.begun.own _ (by decide)) hbody, hmore.wf.setAnswer _ _ _, ?_,
    h.grows_all.trans hmore.grows, ?_, setAnswer_same ..⟩
  · show ctx.cur < ctx₃.cur
    omega
  · exact (h.keeps_all.trans hmore.keeps (by omega)).trans (local_setAnswer (by decide)).keeps
      (Nat.le_refl _)

/-- The blanks behind the last expression are still known. -/
theorem stopsAt {r : ℕ} {a : Answer PccAction} (hlt : ctx₂.cur < ctx₃.cur)
    (hstop : StopsAt ctx₃ r) : StopsAt (ctx₃.setAnswer ctx.cur .exprs a) r := by
  refine ⟨?_, hstop.le, hstop.stop_le⟩
  have hne := h.lt
  have hle := h.le
  rw [setAnswer_cur, setAnswer_ne _ _ (Or.inl (by omega))]
  exact hstop.answer

/-- The second alternative: the first expression is taken from the table, and the
blanks behind it are remembered. -/
theorem last (hnone : Refuses .exprs ctx₂ ctx₃) :
    Succeeds .exprs ctx
      ((ctx₃.at ctx₁.cur).setAnswer ctx.cur .exprs (.chunk (some [.node c (some 0),
        .leaf .exprs1 ctx.cur ctx₁.cur]) ctx₁.cur))
      [.node c (some 0), .leaf .exprs1 ctx.cur ctx₁.cur] ∧
    StopsAt ((ctx₃.at ctx₁.cur).setAnswer ctx.cur .exprs (.chunk (some [.node c (some 0),
        .leaf .exprs1 ctx.cur ctx₁.cur]) ctx₁.cur)) ctx₂.cur := by
  have hlt := h.lt
  have hle := h.le
  have hexpr : ctx₃.lrtable ctx.cur .expr = some (.chunk (some c) ctx₁.cur) := by
    rw [hnone.keeps _ _ (Or.inl (by omega)), h.keeps _ _ hlt]
    exact h.first.answer
  have hagain : Observes pccEvaluateRule (.rule .expr (some 0)) (ctx₃.at ctx.cur) []
      (true, ctx₃.at ctx₁.cur, [.node c (some 0)]) := .hit hexpr
  have hbody : Observes pccEvaluateRule (pccEvaluateRuleExprs ctx.cur)
      (ctx.setAnswer ctx.cur .exprs .lr) [] (true, ctx₃.at ctx₁.cur, [.node c (some 0),
        .leaf .exprs1 ctx.cur ctx₁.cur]) :=
    .alt_right ((h.first.run (some 0) []).seq ((h.blanks none _).seq
      (.seq_fail (hnone.run (some 1) _)))) (hagain.seq (.emit PccAction.exprs1 ctx.cur))
  have hgrows := h.grows.trans hnone.grows
  have hlen : ctx₁.cur ≤ ctx₃.buffer.length :=
    Nat.le_trans h.first.wf.cur_le hgrows.length_le
  refine ⟨⟨fun slot thunks => .apply (h.begun.own _ (by decide)) hbody, ⟨hlen, hnone.wf.nonneg⟩,
    hlt, h.grows_all.trans hnone.grows, ?_, setAnswer_same ..⟩, ?_, hle, ?_⟩
  · intro q r hq
    rw [(local_setAnswer (by decide)).keeps q r hq, at_lrtable]
    exact h.keeps_all.trans hnone.keeps (by omega) q r hq
  · show Context.lrtable _ ctx₁.cur _ = _
    rw [setAnswer_ne _ _ (Or.inl (by omega)), at_lrtable, hnone.keeps, h.answer]
    rcases Nat.lt_or_eq_of_le hle with hlt' | heq
    · exact Or.inl hlt'
    · exact Or.inr ⟨heq, rfl⟩
  · exact Nat.le_trans h.ready.wf.cur_le hnone.grows.length_le

end Past

end Exprs

/-- **The parser reads as described.** The induction is on the reading. -/
theorem Reads.realizes {k : Kind} {w : List UInt8} {o : Outcome} (hreads : Reads k w o)
    (hover : ¬ Overlong k w) (hready : Ready k ctx) (hunread : ctx.unread = w) :
    Realizes ctx k o := by
  induction hreads generalizing ctx with
  | sym n hrun =>
    exact expr_sym hready hunread hrun (Nat.le_of_not_lt fun h => hover (.sym n.alpha hrun h))
  | none hlacks hopen =>
    subst hunread
    exact expr_none hready hlacks hopen
  | list hlacks hopen hblank _ ih =>
    subst hunread
    exact expr_list hready hlacks hopen hblank
      (Nat.le_of_not_lt fun h => hover (.opening hlacks hopen hblank h))
      fun h₃ hw₃ => ih (fun h => hover (.inside hlacks hopen hblank h)) h₃ hw₃
  | unclosed hlacks hopen hblank _ hend ih =>
    subst hunread
    exact expr_unclosed hready hlacks hopen hblank
      (Nat.le_of_not_lt fun h => hover (.opening hlacks hopen hblank h))
      (fun h₃ hw₃ => ih (fun h => hover (.inside hlacks hopen hblank h)) h₃ hw₃) hend
  | nothing _ ih =>
    rcases ih (fun h => hover (.first h)) (hready.expr .lr) hunread
      with ⟨ctx₁, hfirst, hunread₁, hclear₁⟩
    refine ⟨_, exprs_refuses hready hfirst, hunread₁, hclear₁.setAnswer ?_⟩
    have hcur : ctx₁.cur = ctx.cur := hfirst.cur_eq
    omega
  | first _ ih =>
    rcases ih (fun h => hover (.first h)) (hready.expr .lr) hunread with ⟨ctx₁, hfirst, hparen⟩
    exact ⟨_, exprs_refuses hready hfirst, hparen⟩
  | @last w w₁ u w₂ v t hreads hblank _ ih ih' =>
    rcases ih (fun h => hover (.first h)) (hready.expr .lr) hunread
      with ⟨ctx₁, c, hfirst, hmade, hunread₁, hclear₁⟩
    subst hunread₁
    have hshort := Nat.le_of_not_lt fun h => hover (.blanks hreads hblank h)
    have hover' := fun h => hover (.rest hreads hblank h)
    rcases exists_past hready hfirst hclear₁ hblank hshort with ⟨ctx₂, hpast, hunread₂⟩
    rcases ih' hover' hpast.ready hunread₂ with ⟨ctx₃, hnone, hunread₃, hclear₃⟩
    rcases hpast.last hnone with ⟨hsucc, hstop⟩
    have hcur₃ : ctx₃.cur = ctx₂.cur := hnone.cur_eq
    have hmade₃ := hmade.mono (hpast.grows.trans hnone.grows)
    refine ⟨_, _, ctx₂.cur, hsucc, .last hmade₃, hstop, ?_, ?_⟩
    · rw [← hunread₃, ← hcur₃]
      rfl
    · apply Context.Clear.setAnswer _ (by have := hpast.lt; have := hpast.le; omega)
      rw [← hcur₃]
      exact hclear₃
  | @more w w₁ u w₂ v t t' ts hreads hblank _ ih ih' =>
    rcases ih (fun h => hover (.first h)) (hready.expr .lr) hunread
      with ⟨ctx₁, c, hfirst, hmade, hunread₁, hclear₁⟩
    subst hunread₁
    have hshort := Nat.le_of_not_lt fun h => hover (.blanks hreads hblank h)
    have hover' := fun h => hover (.rest hreads hblank h)
    rcases exists_past hready hfirst hclear₁ hblank hshort with ⟨ctx₂, hpast, hunread₂⟩
    rcases ih' hover' hpast.ready hunread₂
      with ⟨ctx₃, c', r, hmore, hmade', hstop, hunread₃, hclear₃⟩
    have hmade₃ := hmade.mono (hpast.grows.trans hmore.grows)
    refine ⟨_, _, r, hpast.more hmore, .more hmade₃ hmade', hpast.stopsAt hmore.moved hstop,
      hunread₃, hclear₃.setAnswer ?_⟩
    have hlt := hpast.lt
    have hle := hpast.le
    have hmoved := hmore.moved
    have hle' := hstop.le
    omega
  | @stops w w₁ u w₂ t o hreads hblank _ ho ih ih' =>
    rcases ih (fun h => hover (.first h)) (hready.expr .lr) hunread
      with ⟨ctx₁, c, hfirst, hmade, hunread₁, hclear₁⟩
    subst hunread₁
    have hshort := Nat.le_of_not_lt fun h => hover (.blanks hreads hblank h)
    have hover' := fun h => hover (.rest hreads hblank h)
    rcases exists_past hready hfirst hclear₁ hblank hshort with ⟨ctx₂, hpast, hunread₂⟩
    rcases ho with rfl | rfl
    · -- the bad expression is left to the rule around
      rcases ih' hover' hpast.ready hunread₂ with ⟨ctx₃, hnone, hparen⟩
      rcases hpast.last hnone with ⟨hsucc, hstop⟩
      exact ⟨_, _, ctx₂.cur, hsucc, hstop, hparen⟩
    · rcases ih' hover' hpast.ready hunread₂ with ⟨ctx₃, c', r, hmore, hstop, hparen⟩
      exact ⟨_, _, r, hpast.more hmore, hpast.stopsAt hmore.moved hstop, hparen⟩

/-! ## Runs that are too long -/

/-- `exprs` breaks with its first expression. -/
theorem exprs_first_breaks (hready : Ready .exprs ctx)
    (hfirst : Breaks .expr (ctx.setAnswer ctx.cur .exprs .lr)) : Breaks .exprs ctx := by
  have hbody : NoResult pccEvaluateRule (pccEvaluateRuleExprs ctx.cur)
      (ctx.setAnswer ctx.cur .exprs .lr) [] := .alt (.seq (hfirst (some 0) []))
  exact fun slot thunks => .apply (hready.own _ (by decide)) hbody

/-- Behind its first expression it breaks with the blanks, or with the expressions
behind them. -/
theorem exprs_rest_breaks (hready : Ready .exprs ctx) {t : Tree} {w w₁ u w₂ : List UInt8}
    (hunread : ctx.unread = w) (hreads : Reads .expr w (.ok [t] w₁))
    (hover : ¬ Overlong .expr w) (hblank : Run isBlank w₁ u w₂)
    (hrest : u.length ≤ intMax →
      ∀ {ctx₂}, Ready .exprs ctx₂ → ctx₂.unread = w₂ → Breaks .exprs ctx₂) :
    Breaks .exprs ctx := by
  rcases hreads.realizes hover (hready.expr .lr) hunread with ⟨ctx₁, c, hfirst, -, rfl, hclear₁⟩
  have hbroken : NoResult pccEvaluateRule ((Parser.rule .blanks none).seq <|
      (Parser.rule .exprs (some 1)).seq <| Parser.emit .exprs0 ctx.cur) ctx₁
      ([] ++ [.node c (some 0)]) := by
    rcases Nat.lt_or_ge intMax u.length with hlong | hshort
    · have hblanks := blanks_breaks hfirst.wf (hclear₁ _ _ (Nat.le_refl _)) hblank hlong
      exact (hblanks none _).seq
    · rcases exists_past hready hfirst hclear₁ hblank hshort with ⟨ctx₂, hpast, hunread₂⟩
      have hexprs := hrest hshort hpast.ready hunread₂
      exact (hpast.blanks none _).seq_noResult (hexprs (some 1) _).seq
  have hbody : NoResult pccEvaluateRule (pccEvaluateRuleExprs ctx.cur)
      (ctx.setAnswer ctx.cur .exprs .lr) [] :=
    .alt ((hfirst.run (some 0) []).seq_noResult hbroken)
  exact fun slot thunks => .apply (hready.own _ (by decide)) hbody

/-- The length of a text, where `exprs` counts for more than the `expr` it begins
with. -/
def Kind.size : Kind → List UInt8 → ℕ
  | .expr, w => 2 * w.length
  | .exprs, w => 2 * w.length + 1

/-- **Where a run is too long the parser has no result.** The induction is on the
length of the text. -/
theorem Overlong.breaks {k : Kind} {w : List UInt8} (hover : Overlong k w) (hready : Ready k ctx)
    (hunread : ctx.unread = w) : Breaks k.rule ctx := by
  induction hn : k.size w using Nat.strongRecOn generalizing k w ctx with
  | ind n ih =>
    subst hn
    -- `exprs` breaks with its first expression, or comes to the blanks behind it
    have hbehind : ∀ {t w₁ u w₂}, k = .exprs → Reads .expr w (.ok [t] w₁) →
        Run isBlank w₁ u w₂ → intMax < u.length ∨ Overlong .exprs w₂ → Breaks k.rule ctx := by
      rintro t w₁ u w₂ rfl hreads hblank hcase
      by_cases hfirst : Overlong .expr w
      · exact exprs_first_breaks hready
          (ih _ (Nat.lt_succ_self _) hfirst (hready.expr .lr) hunread rfl)
      · refine exprs_rest_breaks hready hunread hreads hfirst hblank ?_
        intro hshort ctx₂ hready₂ hunread₂
        have hrest := hcase.resolve_left (Nat.not_lt.mpr hshort)
        have hlen := hreads.within.1
        have hb := hblank.length_le
        rw [List.length_singleton] at hlen
        exact ih _ (by simp only [Kind.size]; omega) hrest hready₂ hunread₂ rfl
    cases hover with
    | sym hc hrun hlong => exact expr_sym_breaks hready hunread hc hrun hlong
    | opening hlacks hopen hblank hlong =>
      rw [← hunread] at hlacks hopen
      exact expr_opening_breaks hready hlacks hopen hblank hlong
    | inside hlacks hopen hblank hinside =>
      have hlen := length_left_le w
      have hb := hblank.length_le
      rw [hopen, List.length_cons] at hlen
      rw [← hunread] at hlacks hopen
      refine expr_inside_breaks hready hlacks hopen hblank ?_
      intro ctx₃ hready₃ hunread₃
      exact ih _ (by simp only [Kind.size]; omega) hinside hready₃ hunread₃ rfl
    | first hfirst =>
      exact exprs_first_breaks hready
        (ih _ (Nat.lt_succ_self _) hfirst (hready.expr .lr) hunread rfl)
    | blanks hreads hblank hlong => exact hbehind rfl hreads hblank (Or.inl hlong)
    | rest hreads hblank hrest => exact hbehind rfl hreads hblank (Or.inr hrest)

end Jetlang.Pcc
