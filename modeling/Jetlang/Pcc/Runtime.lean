import Mathlib.Data.Int.Notation
import Mathlib.Data.List.Basic
import Mathlib.Logic.Function.Basic
import Jetlang.Sym.Judy

/-! # The run time of a generated parser

What the parser generator puts into every parser, whatever its grammar: the
buffer and its refilling, the memo table, the application of a rule, the thunks
a match leaves behind and the actions they run. A rule of a grammar is written
with the combinators, each of which is the code generated for its kind of
expression.

A rule is applied once at a position; later applications there take the answer
from the table. An application that finds itself still running at its position
is a left recursion. The code then grows a seed, which is left out: such a run
has no result here. Nor has a run that needs deeper calls than its fuel, or one in
which the `int` overflows that counts the turns of a repetition.

One context serves one parse, so positions count from the start of the buffer,
and `pos` is left out; so are the debugging output and the recycling of memory.
-/

namespace Jetlang.Pcc

open Jetlang.Sym (intMax)

/-! ## The context -/

/-- `pcc_thunk_t`: an action with its capture, or a matched rule with the slot
of the value it computes. -/
inductive Thunk (α : Type) where
  | leaf (action : α) (start stop : ℕ)
  | node (thunks : List (Thunk α)) (slot : Option ℕ)

/-- `pcc_lr_answer_t`: the rule is being evaluated, or has matched with its
thunks or failed (`none`), and has ended at `pos`. -/
inductive Answer (α : Type) where
  | lr
  | chunk (thunks : Option (List (Thunk α))) (pos : ℕ)

/-- `pcc_context_t`, for rules `ρ` and actions `α`. The characters the parser
has not asked for yet are `auxil`. -/
structure Context (ρ α : Type) where
  buffer : List UInt8
  cur : ℕ
  auxil : List UInt8
  lrtable : ℕ → ρ → Option (Answer α)

variable {ρ α : Type}

/-- The context at the start of a parse. -/
def pccCreate (auxil : List UInt8) : Context ρ α where
  buffer := []
  cur := 0
  auxil := auxil
  lrtable := fun _ _ => none

/-- The characters at and behind the current position. -/
def Context.unread (ctx : Context ρ α) : List UInt8 := ctx.buffer.drop ctx.cur ++ ctx.auxil

/-- The context at another position. -/
def Context.at (ctx : Context ρ α) (p : ℕ) : Context ρ α := { ctx with cur := p }

/-- `pcc_lr_table__set_answer`. -/
def Context.setAnswer [DecidableEq ρ] (ctx : Context ρ α) (p : ℕ) (rule : ρ) (a : Answer α) :
    Context ρ α :=
  { ctx with
    lrtable := Function.update ctx.lrtable p (Function.update (ctx.lrtable p) rule (some a)) }

/-! ## The buffer

`conv` is what the next character is taken for: the value of `PCC_GETCHAR` on a
byte. -/

section Buffer

variable (conv : UInt8 → ℤ)

/-- The loop of `pcc_refill_buffer`, which asks for `n` more characters. A
negative one ends it, and is gone. -/
def refillLoop : ℕ → Context ρ α → Context ρ α
  | 0, ctx => ctx
  | n + 1, ctx =>
      match ctx.auxil with
      | [] => ctx
      | b :: auxil =>
          if conv b < 0 then
            { ctx with auxil := auxil }
          else
            refillLoop n
              { ctx with auxil := auxil, buffer := ctx.buffer ++ [UInt8.ofNat (conv b).toNat] }

/-- `pcc_refill_buffer`: the number of characters in the buffer from the current
position on, and the context. -/
def pccRefillBuffer (ctx : Context ρ α) (num : ℕ) : ℕ × Context ρ α :=
  let ctx := refillLoop conv (ctx.cur + num - ctx.buffer.length) ctx
  (ctx.buffer.length - ctx.cur, ctx)

/-- `pcc_commit_buffer`. -/
def pccCommitBuffer (ctx : Context ρ α) : Context ρ α :=
  { ctx with buffer := ctx.buffer.drop ctx.cur, cur := 0 }

end Buffer

/-! ## Matching -/

/-- A part of the code of a rule: it works on the context and on the thunks of
its chunk, and goes on (`true`) or jumps to its failure label. -/
abbrev Step (ρ α : Type) :=
  Context ρ α → List (Thunk α) → Option (Bool × Context ρ α × List (Thunk α))

/-- A part of the code of a rule, given the application of rules with the slot
for their value. -/
abbrev Parser (ρ α : Type) := (ρ → Option ℕ → Step ρ α) → Step ρ α

/-- One character of a class. -/
def Parser.charClass (conv : UInt8 → ℤ) (p : UInt8 → Bool) : Parser ρ α := fun _ ctx thunks =>
  match pccRefillBuffer conv ctx 1 with
  | (n, ctx) =>
      if n < 1 then
        some (false, ctx, thunks)
      else
        match ctx.buffer[ctx.cur]? with
        | some c =>
            if p c then
              some (true, ctx.at (ctx.cur + 1), thunks)
            else
              some (false, ctx, thunks)
        | none => none

/-- The characters of a string. -/
def Parser.string (conv : UInt8 → ℤ) (s : List UInt8) : Parser ρ α := fun _ ctx thunks =>
  match pccRefillBuffer conv ctx s.length with
  | (n, ctx) =>
      if n < s.length then
        some (false, ctx, thunks)
      else if (ctx.buffer.drop ctx.cur).take s.length = s then
        some (true, ctx.at (ctx.cur + s.length), thunks)
      else
        some (false, ctx, thunks)

/-- One expression after the other. -/
def Parser.seq (P Q : Parser ρ α) : Parser ρ α := fun apply ctx thunks =>
  match P apply ctx thunks with
  | some (true, ctx₁, thunks₁) => Q apply ctx₁ thunks₁
  | r => r

/-- Ordered choice. A failure goes back to the position and the thunks of the
start. -/
def Parser.alt (P Q : Parser ρ α) : Parser ρ α := fun apply ctx thunks =>
  match P apply ctx thunks with
  | some (false, ctx₁, thunks₁) =>
      match Q apply (ctx₁.at ctx.cur) (thunks₁.take thunks.length) with
      | some (false, ctx₂, thunks₂) =>
          some (false, ctx₂.at ctx.cur, thunks₂.take thunks.length)
      | r => r
  | r => r

/-- The loop of a repetition, for at most `n` turns. It counts them in an `int`, from
`i` on, and ends when a turn fails or does not move. -/
def repeatLoop (P : Step ρ α) :
    ℕ → ℕ → Context ρ α → List (Thunk α) → Option (ℕ × Context ρ α × List (Thunk α))
  | 0, _, _, _ => none
  | n + 1, i, ctx, thunks =>
      match P ctx thunks with
      | some (true, ctx₁, thunks₁) =>
          if ctx₁.cur = ctx.cur then
            some (i, ctx₁, thunks₁)
          else if i < intMax then
            repeatLoop P n (i + 1) ctx₁ thunks₁
          else
            -- `i++` overflows
            none
      | some (false, ctx₁, thunks₁) => some (i, ctx₁.at ctx.cur, thunks₁.take thunks.length)
      | none => none

/-- Repetition. A turn that goes on has read a character, so the loop has one
turn more than there are characters. -/
def Parser.star (P : Parser ρ α) : Parser ρ α := fun apply ctx thunks =>
  match repeatLoop (P apply) (ctx.unread.length + 1) 0 ctx thunks with
  | some (_, ctx₁, thunks₁) => some (true, ctx₁, thunks₁)
  | none => none

/-- Repetition at least once. -/
def Parser.plus (P : Parser ρ α) : Parser ρ α := fun apply ctx thunks =>
  match repeatLoop (P apply) (ctx.unread.length + 1) 0 ctx thunks with
  | some (i, ctx₁, thunks₁) =>
      if i < 1 then
        some (false, ctx₁.at ctx.cur, thunks₁.take thunks.length)
      else
        some (true, ctx₁, thunks₁)
  | none => none

/-- The application of a rule. -/
def Parser.rule (r : ρ) (slot : Option ℕ) : Parser ρ α := fun apply => apply r slot

/-- The thunk of an action, whose capture begins at `start`. -/
def Parser.emit (action : α) (start : ℕ) : Parser ρ α := fun _ ctx thunks =>
  some (true, ctx, thunks ++ [.leaf action start ctx.cur])

/-! ## Rules -/

/-- A grammar: the code of each rule, for a chunk that begins at a position. -/
abbrev Grammar (ρ α : Type) := ρ → ℕ → Parser ρ α

/-- The code around the body of a rule: a new chunk, which is returned or, on
failure, destroyed. -/
def evaluateBody (body : Parser ρ α) (apply : ρ → Option ℕ → Step ρ α) (ctx : Context ρ α) :
    Option (Option (List (Thunk α)) × Context ρ α) :=
  match body apply ctx [] with
  | some (true, ctx', thunks) => some (some thunks, ctx')
  | some (false, ctx', _) => some (none, ctx')
  | none => none

variable [DecidableEq ρ]

/-- The answer `pcc_apply_rule` finds in the table, or computes and puts there. -/
def answer (eval : ρ → Context ρ α → Option (Option (List (Thunk α)) × Context ρ α))
    (rule : ρ) (ctx : Context ρ α) : Option (Option (List (Thunk α)) × Context ρ α) :=
  match ctx.lrtable ctx.cur rule with
  | some .lr => none
  | some (.chunk c pos) => some (c, ctx.at pos)
  | none =>
      match eval rule (ctx.setAnswer ctx.cur rule .lr) with
      | some (c, ctx') => some (c, ctx'.setAnswer ctx.cur rule (.chunk c ctx'.cur))
      | none => none

/-- `pcc_apply_rule`. -/
def pccApplyRule (eval : ρ → Context ρ α → Option (Option (List (Thunk α)) × Context ρ α))
    (rule : ρ) (slot : Option ℕ) : Step ρ α := fun ctx thunks =>
  match answer eval rule ctx with
  | some (some c, ctx') => some (true, ctx', thunks ++ [.node c slot])
  | some (none, ctx') => some (false, ctx', thunks)
  | none => none

/-- The evaluation of a rule, with calls nested at most `fuel` deep. -/
def evaluate (g : Grammar ρ α) :
    ℕ → ρ → Context ρ α → Option (Option (List (Thunk α)) × Context ρ α)
  | 0, _, _ => none
  | fuel + 1, rule, ctx =>
      evaluateBody (g rule ctx.cur) (pccApplyRule (evaluate g fuel)) ctx

/-! ## Actions -/

/-- `pcc_get_capture_string`: a zero-terminated copy of the captured part of the
buffer. -/
def pccGetCaptureString (buffer : List UInt8) (start stop : ℕ) : List UInt8 :=
  ((buffer.drop start).take (stop - start)).takeWhile (· ≠ 0) ++ [0]

/-- What an action sees of its thunk: the values of the chunk, and the capture. -/
structure LeafIn (ν : Type) where
  values : ℕ → ν
  string : List UInt8
  start : ℕ
  stop : ℕ

/-- The state of `pcc_do_action`: the values of the chunk, the value it computes
itself, and what the actions work on. -/
structure ActionState (ν S : Type) where
  values : ℕ → ν
  out : ν
  state : S

/-- `pcc_do_action`. The values of a chunk start as `zero`. -/
def pccDoAction {ν S : Type} (act : α → LeafIn ν → S → Option (ν × S)) (zero : ν)
    (buffer : List UInt8) : List (Thunk α) → ActionState ν S → Option (ActionState ν S)
  | [], s => some s
  | .leaf action start stop :: thunks, s =>
      match act action ⟨s.values, pccGetCaptureString buffer start stop, start, stop⟩ s.state with
      | some (out, state) =>
          pccDoAction act zero buffer thunks { s with out := out, state := state }
      | none => none
  | .node sub slot :: thunks, s =>
      match pccDoAction act zero buffer sub ⟨fun _ => zero, zero, s.state⟩ with
      | some s' =>
          let values := match slot with
            | some k => Function.update s.values k s'.out
            | none => s.values
          pccDoAction act zero buffer thunks { s with values := values, state := s'.state }
      | none => none

end Jetlang.Pcc
