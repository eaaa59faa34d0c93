import Jetlang.Lr.RuleSet
import Jetlang.Lr.Table
import Jetlang.Pcc.Runtime

/-! # The whole context of a parser

The run time again, with all it keeps: the position of the buffer in the input,
the memo table as the array it is, the stack of the rules that are being
evaluated, and the answers, the entries of the stack and the heads of left
recursions as objects in memory, which change. Pointers are places in the lists
of these objects. A run that follows a pointer to nothing is at fault. What is
passed to `PCC_DEBUG` is kept in `debug`.

Memory is not given back by the functions here: `hold`, which links the objects that
go with an entry of the table, is only written. The functions that follow it destroy.
-/

namespace Jetlang.Lr

/-! ## Objects -/

/-- `pcc_lr_entry_t`: a rule that is being evaluated, the chunk it last came to,
and the head of the left recursion it is in. -/
structure LrEntry (ρ α : Type) where
  rule : ρ
  seed : Option (List (Pcc.Thunk α))
  head : Option ℕ

/-- `pcc_lr_answer_data_t` with its type. -/
inductive LrData (α : Type) where
  | lr (entry : ℕ)
  | chunk (c : Option (List (Pcc.Thunk α)))

/-- `pcc_lr_answer_t`. The position is one in the input. -/
structure LrAnswer (α : Type) where
  data : LrData α
  pos : ℕ
  hold : Option ℕ

/-- `pcc_lr_head_t`: the rule that recurs, the rules involved in its recursion, and
those that may still be evaluated in this turn of its growth. -/
structure LrHead (ρ : Type) where
  rule : ρ
  invol : List ρ
  eval : List ρ
  hold : Option ℕ

/-- `PCC_DBG_EVALUATE`, `PCC_DBG_MATCH` and `PCC_DBG_NOMATCH`. -/
inductive DebugKind where
  | evaluate
  | isMatch
  | noMatch
deriving DecidableEq, Repr

/-- What is passed to `PCC_DEBUG`. -/
structure DebugEvent (ρ : Type) where
  kind : DebugKind
  rule : ρ
  level : ℕ
  pos : ℕ
  text : List UInt8

/-- `pcc_context_t`, for rules `ρ` and actions `α`. The top of the stack is the
first of the list. -/
structure Context (ρ α : Type) where
  pos : ℕ
  cur : ℕ
  level : ℕ
  buffer : List UInt8
  auxil : List UInt8
  lrtable : LrTable ρ
  lrstack : List ℕ
  entries : List (LrEntry ρ α)
  answers : List (LrAnswer α)
  heads : List (LrHead ρ)
  debug : List (DebugEvent ρ)

/-- Why a run has no result: it needs deeper calls or more turns than it is given,
the `int` that counts the turns of a repetition overflows, or it is at fault. -/
inductive Stop where
  | deep
  | overflow
  | fault
deriving DecidableEq, Repr

variable {ρ α : Type}

/-- `pcc_context__create`. -/
def pccContextCreate (auxil : List UInt8) : Context ρ α where
  pos := 0
  cur := 0
  level := 0
  buffer := []
  auxil := auxil
  lrtable := pccLrTableInit
  lrstack := []
  entries := []
  answers := []
  heads := []
  debug := []

/-- The characters at and behind the current position. -/
def Context.unread (ctx : Context ρ α) : List UInt8 := ctx.buffer.drop ctx.cur ++ ctx.auxil

/-- The context at another position. -/
def Context.at (ctx : Context ρ α) (p : ℕ) : Context ρ α := { ctx with cur := p }

/-- `PCC_DEBUG`, for the characters of the buffer from `start` to `stop`. -/
def Context.debugged (ctx : Context ρ α) (kind : DebugKind) (rule : ρ) (start stop : ℕ) :
    Context ρ α :=
  { ctx with
    debug := ctx.debug ++
      [⟨kind, rule, ctx.level, start, (ctx.buffer.drop start).take (stop - start)⟩] }

/-! ## Answers and heads -/

/-- `pcc_lr_answer__create`, with its data. -/
def pccLrAnswerCreate (ctx : Context ρ α) (data : LrData α) (pos : ℕ) : ℕ × Context ρ α :=
  (ctx.answers.length, { ctx with answers := ctx.answers ++ [⟨data, pos, none⟩] })

/-- `pcc_lr_answer__set_chunk`. What the answer was before is kept in a new one. -/
def pccLrAnswerSetChunk (ctx : Context ρ α) (a : ℕ) (c : Option (List (Pcc.Thunk α))) :
    Except Stop (Context ρ α) :=
  match ctx.answers[a]? with
  | some answer =>
      .ok { ctx with
        answers := (ctx.answers ++ [answer]).set a
          { answer with data := .chunk c, hold := some ctx.answers.length } }
  | none => .error .fault

/-- Write the position of an answer. -/
def Context.setAnswerPos (ctx : Context ρ α) (a : ℕ) (pos : ℕ) : Context ρ α :=
  { ctx with answers := ctx.answers.modify a fun answer => { answer with pos := pos } }

/-- `pcc_lr_table__hold_answer`. -/
def Context.holdAnswer (ctx : Context ρ α) (p a : ℕ) : Context ρ α :=
  { ctx with
    answers := ctx.answers.modify a fun answer =>
      { answer with hold := (ctx.lrtable.entry p).bind LrTableEntry.holdA }
    lrtable := pccLrTableHoldAnswer ctx.lrtable p a }

/-- `pcc_lr_head__create`, and `pcc_lr_table__hold_head`. -/
def Context.createHead (ctx : Context ρ α) (p : ℕ) (rule : ρ) : ℕ × Context ρ α :=
  (ctx.heads.length,
    { ctx with
      heads := ctx.heads ++ [⟨rule, [], [], (ctx.lrtable.entry p).bind LrTableEntry.holdH⟩]
      lrtable := pccLrTableHoldHead ctx.lrtable p ctx.heads.length })

/-! ## The buffer -/

section Buffer

variable (conv : UInt8 → ℤ)

/-- The loop of `pcc_refill_buffer`, which asks for `n` more characters. -/
def refillLoop : ℕ → Context ρ α → Context ρ α
  | 0, ctx => ctx
  | n + 1, ctx =>
      match ctx.auxil with
      | [] => ctx
      | b :: auxil =>
          if conv b < 0 then
            { ctx with auxil := auxil }
          else
            refillLoop n
              { ctx with auxil := auxil, buffer := ctx.buffer ++ [UInt8.ofNat (conv b).toNat] }

/-- `pcc_refill_buffer`. -/
def pccRefillBuffer (ctx : Context ρ α) (num : ℕ) : ℕ × Context ρ α :=
  let ctx := refillLoop conv (ctx.cur + num - ctx.buffer.length) ctx
  (ctx.buffer.length - ctx.cur, ctx)

/-- `pcc_commit_buffer`. -/
def pccCommitBuffer (ctx : Context ρ α) : Context ρ α :=
  { ctx with
    buffer := ctx.buffer.drop ctx.cur
    pos := ctx.pos + ctx.cur
    lrtable := pccLrTableShift ctx.lrtable ctx.cur
    cur := 0 }

end Buffer

end Jetlang.Lr
