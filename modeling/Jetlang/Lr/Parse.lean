import Jetlang.Lr.Refine
import Jetlang.Pcc.Program
import Mathlib.Data.List.ProdSigma

/-! # `pcc_parse` with the whole run time

The parser of `pcc.peg` once more, as the code that works on the whole context. Its
grammar is not left-recursive, and here is what that comes to: no text makes the
parser meet a rule where it is being evaluated. So the stack, the heads and the
growing of seeds never matter, every parse ends, and a rule is evaluated at most
once at a position.
-/

namespace Jetlang.Lr

open Pcc (PccRule PccAction PccContext PccError pccAction pccAuxilGetchar pccEvaluateRule isAlpha
  isWord isBlank auxilOf OverlongProgram)
open Mem Ast

/-- The rules of the grammar. -/
def pccBody : PccRule → Body PccRule PccAction
  | .prog =>
      .seq (.rule .blanks none) <| .seq (.rule .expr (some 0)) <|
      .seq (.rule .blanks none) <| .emit .prog0
  | .exprs =>
      .alt
        (.seq (.rule .expr (some 0)) <| .seq (.rule .blanks none) <|
          .seq (.rule .exprs (some 1)) <| .emit .exprs0)
        (.seq (.rule .expr (some 0)) <| .emit .exprs1)
  | .expr =>
      .alt
        (.seq (.rule .atom (some 0)) <| .emit .expr0)
        (.seq (.charClass (· == 40)) <| .seq (.rule .blanks none) <|
          .seq (.rule .exprs (some 1)) <| .seq (.rule .blanks none) <|
          .seq (.charClass (· == 41)) <| .emit .expr1)
  | .atom => .seq (.rule .sym (some 0)) <| .emit .atom0
  | .sym => .seq (.charClass isAlpha) <| .seq (.star (.charClass isWord)) <| .emit .sym0
  | .blanks => .star (.charClass isBlank)

/-- Without the stack the rules are those of the plain parser. -/
theorem plain_pccBody : plain pccAuxilGetchar pccBody = pccEvaluateRule := by
  funext rule start
  cases rule <;> rfl

abbrev FullContext := Context PccRule PccAction

/-- The application of a rule of the grammar. -/
abbrev pccApply (fuel : ℕ) : PccRule → Option ℕ → Step PccRule PccAction :=
  pccApplyRule (evaluate pccAuxilGetchar pccBody fuel)

/-- `pcc_parse`: the return value, the value of `prog`, and what the parse leaves
behind. A syntax error ends the program. -/
def pccParse {A : Allocator} (M fuel : ℕ) (ctx : FullContext) (h : Heap A AstNode) :
    Except Stop (Except PccError (ℕ × Ptr × Heap A AstNode × FullContext)) :=
  match pccApply fuel .prog (some 0) ctx [] with
  | .ok (true, ctx, thunks) =>
      match Pcc.pccDoAction (pccAction M) 0 ctx.buffer thunks ⟨fun _ => 0, 0, h⟩ with
      | some s =>
          match pccRefillBuffer pccAuxilGetchar (pccCommitBuffer ctx) 1 with
          | (n, ctx) => .ok (.ok (if 1 ≤ n then 1 else 0, s.values 0, s.state, ctx))
      | none => .error .fault
  | .ok (false, _, _) => .ok (.error .syntaxError)
  | .error e => .error e

/-- `pcc_parse_string`. It is at fault where the text does not fit in its block. -/
def pccParseString (S : BlockSizes) {A : Allocator} (M fuel : ℕ) (h : Heap A AstNode)
    (str : List UInt8) : Except Stop (Except PccError (Ptr × Heap A AstNode)) :=
  match auxilOf S str with
  | some auxil =>
      match pccParse M fuel (pccContextCreate auxil) h with
      | .ok (.ok (ret, res, h', _)) =>
          if ret ≠ 0 then
            .ok (.error .endOfInput)
          else
            .ok (.ok (res, h'))
      | .ok (.error e) => .ok (.error e)
      | .error e => .error e
  | none => .error .fault

/-! ## Contexts that may parse -/

section Mirrors

variable {ρ α : Type} [DecidableEq ρ]

/-- Nothing is known of the positions from the current one on, and no left recursion
is growing: a rule may be applied. -/
structure Idle (C : Context ρ α) : Prop where
  cur_le : C.cur ≤ C.buffer.length
  clear : ∀ i r, C.pos ≤ i → pccLrTableGetAnswer C.lrtable i r = none
  known : ∀ i r a, pccLrTableGetAnswer C.lrtable i r = some a → a < C.answers.length
  apart : ∀ i r j s a, pccLrTableGetAnswer C.lrtable i r = some a →
    pccLrTableGetAnswer C.lrtable j s = some a → i = j ∧ r = s
  heads : ∀ i, pccLrTableGetHead C.lrtable i = none
  entries : ∀ e ∈ C.entries, e.head = none

/-- What the plain run time keeps of a context that may parse. -/
def Context.plain (C : Context ρ α) : Pcc.Context ρ α where
  buffer := C.buffer
  cur := C.cur
  auxil := C.auxil
  lrtable := fun _ _ => none

/-- Such a context mirrors a plain one that knows nothing. -/
theorem Idle.mirrors {C : Context ρ α} (h : Idle C) : Mirrors C C.plain where
  cur_eq := rfl
  buffer_eq := rfl
  auxil_eq := rfl
  cur_le := h.cur_le
  answers := by
    intro q r
    rw [h.clear _ r (Nat.le_add_right _ _)]
    exact .none
  ends := fun _ _ _ _ hp => by cases hp
  known := h.known
  apart := h.apart
  heads := h.heads
  entries := h.entries

theorem idle_create (text : List UInt8) : Idle (pccContextCreate text : Context ρ α) where
  cur_le := Nat.le_refl 0
  clear := fun _ _ _ => rfl
  known := fun _ _ _ ha => by cases ha
  apart := fun _ _ _ _ _ ha => by cases ha
  heads := fun _ => rfl
  entries := List.forall_mem_nil _

/-- Behind the position a parse has come to nothing is known, so what is found there
after the commit, at the wrong place in the table, is nothing either. -/
theorem Mirrors.commit {C : Context ρ α} {ctx : Pcc.Context ρ α} (h : Mirrors C ctx)
    (hpos : 0 < ctx.cur) (hclear : ∀ q r, ctx.cur < q → ctx.lrtable q r = none) :
    Idle (pccCommitBuffer C) where
  cur_le := Nat.zero_le _
  clear := by
    intro i r hi
    have hi' : C.pos + C.cur ≤ i := hi
    have hcur := h.cur_eq
    show pccLrTableGetAnswer (pccLrTableShift C.lrtable C.cur) i r = none
    -- what is found at a position now was found `cur` further on before
    rw [getAnswer_shift]
    obtain ⟨q, hq⟩ : ∃ q, i + C.cur = C.pos + q := ⟨i + C.cur - C.pos, by omega⟩
    rw [hq]
    exact h.getAnswer_eq_none (hclear q r (by omega))
  known := by
    intro i r a ha
    have ha' : pccLrTableGetAnswer (pccLrTableShift C.lrtable C.cur) i r = some a := ha
    rw [getAnswer_shift] at ha'
    exact h.known _ _ _ ha'
  apart := by
    intro i r j s a hi hj
    have hi' : pccLrTableGetAnswer (pccLrTableShift C.lrtable C.cur) i r = some a := hi
    have hj' : pccLrTableGetAnswer (pccLrTableShift C.lrtable C.cur) j s = some a := hj
    rw [getAnswer_shift] at hi' hj'
    have heq := h.apart _ _ _ _ _ hi' hj'
    exact ⟨Nat.add_right_cancel heq.1, heq.2⟩
  heads := by
    intro i
    exact (getHead_shift ..).trans (h.heads _)
  entries := h.entries

end Mirrors

/-! ## One parse -/

/-- What the plain run time observes, the whole one does. -/
theorem Mirrors.observes {ρ α : Type} [DecidableEq ρ] {conv : UInt8 → ℤ} {g : ρ → Body ρ α}
    {C : Context ρ α} {ctx ctx' : Pcc.Context ρ α} (h : Mirrors C ctx) {r : ρ} {slot : Option ℕ}
    {b : Bool} {thunks thunks' : List (Pcc.Thunk α)}
    (hobs : Pcc.Observes (plain conv g) (.rule r slot) ctx thunks (b, ctx', thunks')) :
    ∃ N, ∀ fuel, N ≤ fuel → ∃ C',
      pccApplyRule (evaluate conv g fuel) r slot C thunks = .ok (b, C', thunks') ∧
        Follows C ctx C' ctx' := by
  rcases hobs with ⟨N, hN⟩
  refine ⟨N, ?_⟩
  intro fuel hfuel
  exact pccApplyRule_refines (evaluate_refines g fuel) r slot C ctx thunks b ctx' thunks' h
    (hN fuel hfuel)

/-- Evaluations at different places are not more than there are rules and positions. -/
theorem Traced.length_le {ρ α : Type} [DecidableEq ρ]
    {table table' : ℕ → ρ → Option (Pcc.Answer α)} {n : ℕ} {es : List (ρ × ℕ)}
    (h : Traced table table' n es) {rules : List ρ} (hall : ∀ r, r ∈ rules) :
    es.length ≤ rules.length * (n + 1) := by
  have hsub : es ⊆ rules ×ˢ List.range (n + 1) := by
    intro e he
    exact List.mem_product.mpr ⟨hall _, List.mem_range.mpr (Nat.lt_succ_of_le (h.le e he))⟩
  have hle := (List.subperm_of_subset h.nodup hsub).length_le
  rwa [List.length_product, List.length_range] at hle

/-- **A rule is evaluated at most once at a position.** From any text without runs that
are too long the parse ends; it meets no left recursion, the stack is as before, and
there were no more evaluations than six for each position. -/
theorem evaluates_once (text : List UInt8) (hover : ¬ OverlongProgram text) :
    ∃ N, ∀ fuel, N ≤ fuel → ∃ b C' thunks,
      pccApply fuel .prog (some 0) (pccContextCreate text) [] = .ok (b, C', thunks) ∧
        C'.heads = [] ∧ C'.lrstack = [] ∧ C'.level = 0 ∧ (evaluations C'.debug).Nodup ∧
        (evaluations C'.debug).length ≤ 6 * (text.length + 1) := by
  have hidle : Idle (pccContextCreate text : FullContext) := idle_create text
  obtain ⟨⟨b, ctx', thunks⟩, hobs⟩ :=
    Pcc.prog_ends (Pcc.clear_pccCreate text _) (Pcc.wf_pccCreate text) hover
  rw [← plain_pccBody] at hobs
  rcases hidle.mirrors.observes hobs with ⟨N, hN⟩
  refine ⟨N, ?_⟩
  intro fuel hfuel
  rcases hN fuel hfuel with ⟨C', hC', hfollows⟩
  rcases hfollows.trace with ⟨es, hes, htraced⟩
  have hdebug : C'.debug = es := hes
  have hbytes : ctx'.buffer.length + ctx'.auxil.length ≤ 0 + text.length := hfollows.bytes_le
  refine ⟨b, C', thunks, hC', hfollows.heads_eq, hfollows.lrstack_eq, hfollows.level_eq, ?_, ?_⟩
  · rw [hdebug]
    exact htraced.nodup
  · have hall : ∀ r : PccRule, r ∈ [PccRule.prog, .exprs, .expr, .atom, .sym, .blanks] := by
      intro r
      cases r <;> decide
    have hle := htraced.length_le hall
    rw [hdebug]
    refine Nat.le_trans hle (Nat.mul_le_mul_left 6 ?_)
    omega

/-- They are not more on the text `(a b)`. -/
theorem evaluates_once_pair :
    ∃ N, ∀ fuel, N ≤ fuel → ∃ b C' thunks,
      pccApply fuel .prog (some 0) (pccContextCreate [40, 97, 32, 98, 41]) [] =
          .ok (b, C', thunks) ∧
        C'.heads = [] ∧ C'.lrstack = [] ∧ C'.level = 0 ∧ (evaluations C'.debug).Nodup ∧
        (evaluations C'.debug).length ≤ 36 :=
  evaluates_once [40, 97, 32, 98, 41] (Pcc.not_overlongProgram (by decide))

/-- A result, or a fault where there is none. -/
def orFault {β : Type} : Option β → Except Stop β
  | some r => .ok r
  | none => .error .fault

/-- **The whole run time parses what the plain one parses**, and is at fault only
where the text does not fit in its block, or the actions are. -/
theorem pccParseString_agrees (S : BlockSizes) {A : Allocator} (M : ℕ) (h : Heap A AstNode)
    (text : List UInt8) (hover : ¬ OverlongProgram text) :
    ∃ N, ∀ fuel, N ≤ fuel →
      pccParseString S M fuel h text = orFault (Pcc.pccParseString S M fuel h text) := by
  have hidle : Idle (pccContextCreate text : FullContext) := idle_create text
  obtain ⟨⟨b, ctx', thunks⟩, N, hN⟩ :=
    Pcc.prog_ends (Pcc.clear_pccCreate text _) (Pcc.wf_pccCreate text) hover
  refine ⟨N, ?_⟩
  intro fuel hfuel
  have hplain : Pcc.pccApplyRule (Pcc.evaluate pccEvaluateRule fuel) .prog (some 0)
      (Pcc.pccCreate text) [] = some (b, ctx', thunks) := hN fuel hfuel
  have hrun := hplain
  rw [← plain_pccBody] at hrun
  rcases pccApplyRule_refines (evaluate_refines pccBody fuel) _ _ _ _ _ _ _ _ hidle.mirrors hrun
    with ⟨C', hC', hfollows⟩
  unfold pccParseString Pcc.pccParseString
  rcases Nat.lt_or_ge (S.usable Pcc.sizeofPccAuxil) 16 with htight | hroom
  · rw [Pcc.auxilOf_tight S text htight]
    rfl
  rw [Pcc.auxilOf_roomy S text hroom]
  unfold pccParse pccApply Pcc.pccParse
  simp only [hC', hplain]
  cases b with
  | false => rfl
  | true =>
    dsimp only
    rw [hfollows.mirrors.buffer_eq]
    cases Pcc.pccDoAction (pccAction M) 0 ctx'.buffer thunks ⟨fun _ => 0, 0, h⟩ with
    | none => rfl
    | some s =>
      -- after the commit both find the same characters
      have hmirrors := hfollows.mirrors
      have hbuffer : (pccCommitBuffer C').buffer = (Pcc.pccCommitBuffer ctx').buffer := by
        unfold pccCommitBuffer Pcc.pccCommitBuffer
        dsimp only
        rw [hmirrors.buffer_eq, hmirrors.cur_eq]
      have hauxil : (pccCommitBuffer C').auxil = (Pcc.pccCommitBuffer ctx').auxil :=
        hmirrors.auxil_eq
      have hcur : (pccCommitBuffer C').cur = (Pcc.pccCommitBuffer ctx').cur := rfl
      rcases pccRefillBuffer_spec pccAuxilGetchar hcur hbuffer hauxil 1
        with ⟨n, buffer, auxil, hfull, hleft, -, -⟩
      dsimp only
      rw [hfull, hleft]
      dsimp only
      split <;> rfl

/-- Both parse `(a b)` alike. -/
theorem pccParseString_agrees_pair :
    ∃ N, ∀ fuel, N ≤ fuel →
      pccParseString .sixteens (2 ^ 64) fuel (Heap.empty : Heap Allocator.consecutive AstNode)
          [40, 97, 32, 98, 41] =
        orFault (Pcc.pccParseString .sixteens (2 ^ 64) fuel Heap.empty [40, 97, 32, 98, 41]) :=
  pccParseString_agrees .sixteens (2 ^ 64) Heap.empty [40, 97, 32, 98, 41]
    (Pcc.not_overlongProgram (by decide))

end Jetlang.Lr
