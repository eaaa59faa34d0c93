import Jetlang.Lr.Context

/-! # The application of rules, with left recursion

The bodies of rules as syntax, and the code that is generated for them, which
works on the whole context. `pcc_apply_rule` is here with all its branches: a rule
that is met again where it is being evaluated gives the seed it has so far, and
the rules on the stack above it are involved in its recursion. Once it is back at
the rule the recursion began with, the rule is evaluated again and again, as long
as that gets further.
-/

namespace Jetlang.Lr

open Jetlang.Sym (intMax)

/-- The body of a rule. -/
inductive Body (ρ α : Type) where
  | charClass (p : UInt8 → Bool)
  | string (s : List UInt8)
  | seq (e f : Body ρ α)
  | alt (e f : Body ρ α)
  | star (e : Body ρ α)
  | plus (e : Body ρ α)
  | rule (r : ρ) (slot : Option ℕ)
  | emit (action : α)

variable {ρ α : Type}

/-- A part of the code of a rule: it works on the context and on the thunks of
its chunk, and goes on (`true`) or jumps to its failure label. -/
abbrev Step (ρ α : Type) :=
  Context ρ α → List (Pcc.Thunk α) → Except Stop (Bool × Context ρ α × List (Pcc.Thunk α))

/-- The loop of a repetition, for at most `n` turns. It counts them in an `int`, from
`i` on. -/
def repeatLoop (P : Step ρ α) : ℕ → ℕ → Context ρ α → List (Pcc.Thunk α) →
    Except Stop (ℕ × Context ρ α × List (Pcc.Thunk α))
  | 0, _, _, _ => .error .deep
  | n + 1, i, ctx, thunks =>
      match P ctx thunks with
      | .ok (true, ctx₁, thunks₁) =>
          if ctx₁.cur = ctx.cur then
            -- a turn that reads nothing ends the loop before it is counted
            .ok (i, ctx₁, thunks₁)
          else if i < intMax then
            repeatLoop P n (i + 1) ctx₁ thunks₁
          else
            -- `i++` overflows
            .error .overflow
      | .ok (false, ctx₁, thunks₁) => .ok (i, ctx₁.at ctx.cur, thunks₁.take thunks.length)
      | .error e => .error e

/-- The code generated for the body of a rule, in a chunk that begins at `start`. -/
def Body.code (conv : UInt8 → ℤ) (apply : ρ → Option ℕ → Step ρ α) (start : ℕ) :
    Body ρ α → Step ρ α
  | .charClass p, ctx, thunks =>
      match pccRefillBuffer conv ctx 1 with
      | (n, ctx) =>
          if n < 1 then
            .ok (false, ctx, thunks)
          else
            match ctx.buffer[ctx.cur]? with
            | some c =>
                if p c then
                  .ok (true, ctx.at (ctx.cur + 1), thunks)
                else
                  .ok (false, ctx, thunks)
            | none => .error .fault
  | .string s, ctx, thunks =>
      match pccRefillBuffer conv ctx s.length with
      | (n, ctx) =>
          if n < s.length then
            .ok (false, ctx, thunks)
          else if (ctx.buffer.drop ctx.cur).take s.length = s then
            .ok (true, ctx.at (ctx.cur + s.length), thunks)
          else
            .ok (false, ctx, thunks)
  | .seq e f, ctx, thunks =>
      match e.code conv apply start ctx thunks with
      | .ok (true, ctx₁, thunks₁) => f.code conv apply start ctx₁ thunks₁
      | r => r
  | .alt e f, ctx, thunks =>
      match e.code conv apply start ctx thunks with
      | .ok (false, ctx₁, thunks₁) =>
          match f.code conv apply start (ctx₁.at ctx.cur) (thunks₁.take thunks.length) with
          | .ok (false, ctx₂, thunks₂) =>
              .ok (false, ctx₂.at ctx.cur, thunks₂.take thunks.length)
          | r => r
      | r => r
  | .star e, ctx, thunks =>
      match repeatLoop (e.code conv apply start) (ctx.unread.length + 1) 0 ctx thunks with
      | .ok (_, ctx₁, thunks₁) => .ok (true, ctx₁, thunks₁)
      | .error e => .error e
  | .plus e, ctx, thunks =>
      match repeatLoop (e.code conv apply start) (ctx.unread.length + 1) 0 ctx thunks with
      | .ok (i, ctx₁, thunks₁) =>
          if i < 1 then
            .ok (false, ctx₁.at ctx.cur, thunks₁.take thunks.length)
          else
            .ok (true, ctx₁, thunks₁)
      | .error e => .error e
  | .rule r slot, ctx, thunks => apply r slot ctx thunks
  | .emit action, ctx, thunks => .ok (true, ctx, thunks ++ [.leaf action start ctx.cur])

/-! ## `pcc_apply_rule` -/

/-- The evaluation of a rule: its chunk, or `none` for a failure. -/
abbrev Eval (ρ α : Type) :=
  Context ρ α → Except Stop (Option (List (Pcc.Thunk α)) × Context ρ α)

variable [DecidableEq ρ]

/-- What is done where a left recursion grows. A rule that is not involved fails;
one that is may be evaluated once more. There is no result when the code goes on
as elsewhere. -/
def applyGrowing (eval : ρ → Eval ρ α) (rule : ρ) (p : ℕ) (a h : Option ℕ) (ctx : Context ρ α) :
    Except Stop (Option (Option (List (Pcc.Thunk α)) × Context ρ α)) :=
  match h with
  | none => .ok none
  | some h =>
      match ctx.heads[h]? with
      | some head =>
          if a = none ∧ rule ≠ head.rule ∧ pccRuleSetIndex head.invol rule = none then
            -- the rule is no part of the recursion
            .ok (some (none, ctx))
          else
            match pccRuleSetRemove head.eval rule with
            | some set =>
                match eval rule { ctx with heads := ctx.heads.set h { head with eval := set } } with
                | .ok (c, ctx) =>
                    -- the answer is held, and not found again
                    let (a, ctx) := pccLrAnswerCreate ctx (.chunk c) (ctx.pos + ctx.cur)
                    .ok (some (c, ctx.holdAnswer p a))
                | .error e => .error e
            | none => .ok none
      | none => .error .fault

/-- The loop that involves the rules on the stack, down to the one of the head. -/
def involve (h : ℕ) : List ℕ → Context ρ α → Except Stop (Context ρ α)
  | [], ctx => .ok ctx
  | e :: stack, ctx =>
      match ctx.entries[e]?, ctx.heads[h]? with
      | some entry, some head =>
          -- the entry of the head, or one it was given before
          if entry.head = some h then
            .ok ctx
          else
            involve h stack
              { ctx with
                entries := ctx.entries.set e { entry with head := some h }
                heads := ctx.heads.set h
                  { head with invol := pccRuleSetAdd head.invol entry.rule } }
      | _, _ => .error .fault

/-- What is done with an answer that is found in the table. -/
def recallAnswer (rule : ρ) (p a : ℕ) : Eval ρ α := fun ctx =>
  match ctx.answers[a]? with
  | some answer =>
      let ctx := ctx.at (answer.pos - ctx.pos)
      match answer.data with
      | .lr e =>
          match ctx.entries[e]? with
          | some entry =>
              let (h, ctx) :=
                match entry.head with
                | some h => (h, ctx)
                | none =>
                    -- the rule is met for the first time in its own evaluation
                    let (h, ctx) := ctx.createHead p rule
                    (h, { ctx with entries := ctx.entries.set e { entry with head := some h } })
              match involve h ctx.lrstack ctx with
              | .ok ctx => .ok (entry.seed, ctx)
              | .error e => .error e
          | none => .error .fault
      | .chunk c => .ok (c, ctx)
  | none => .error .fault

/-- The loop that grows a left recursion, for at most `n` turns. -/
def growLoop (eval : ρ → Eval ρ α) (rule : ρ) (p a h : ℕ) :
    ℕ → Context ρ α → Except Stop (Context ρ α)
  | 0, _ => .error .deep
  | n + 1, ctx =>
      match ctx.heads[h]? with
      | some head =>
          -- every turn begins at the position, with all involved rules to evaluate
          let ctx := ctx.at (p - ctx.pos)
          match eval rule
              { ctx with
                heads := ctx.heads.set h { head with eval := pccRuleSetCopy head.invol } } with
          | .ok (c, ctx) =>
              match ctx.answers[a]? with
              | some answer =>
                  if c = none ∨ ctx.pos + ctx.cur ≤ answer.pos then
                    .ok ctx
                  else
                    match pccLrAnswerSetChunk ctx a c with
                    | .ok ctx =>
                        growLoop eval rule p a h n (ctx.setAnswerPos a (ctx.pos + ctx.cur))
                    | .error e => .error e
              | none => .error .fault
          | .error e => .error e
      | none => .error .fault

/-- What is done after the evaluation of a rule that was met again meanwhile. The
rule the recursion began with is evaluated anew until it gets no further; another
one keeps what it came to as its seed. -/
def applyRecursive (eval : ρ → Eval ρ α) (rule : ρ) (p a e h : ℕ)
    (c : Option (List (Pcc.Thunk α))) : Eval ρ α := fun ctx =>
  match ctx.entries[e]?, ctx.heads[h]? with
  | some entry, some head =>
      let ctx := { ctx with entries := ctx.entries.set e { entry with seed := c } }
      if head.rule ≠ rule then
        -- the recursion began with another rule
        let (a, ctx) := pccLrAnswerCreate ctx (.chunk c) (ctx.pos + ctx.cur)
        .ok (c, ctx.holdAnswer p a)
      else
        match pccLrAnswerSetChunk ctx a c with
        | .ok ctx =>
            if c = none then
              -- without a seed nothing grows
              .ok (none, ctx)
            else
              let ctx := { ctx with lrtable := pccLrTableSetHead ctx.lrtable p (some h) }
              match growLoop eval rule p a h (ctx.buffer.length + ctx.auxil.length + 1) ctx with
              | .ok ctx =>
                  let ctx := { ctx with lrtable := pccLrTableSetHead ctx.lrtable p none }
                  match ctx.answers[a]? with
                  | some answer =>
                      match answer.data with
                      | .chunk c => .ok (c, ctx.at (answer.pos - ctx.pos))
                      | .lr _ => .error .fault
                  | none => .error .fault
              | .error e => .error e
        | .error e => .error e
  | _, _ => .error .fault

/-- The context in which a rule without an answer is evaluated: the rule is put on
the stack, and its answer is that it is being evaluated. -/
def Context.begin (ctx : Context ρ α) (rule : ρ) (p : ℕ) : Context ρ α :=
  let e := ctx.entries.length
  let ctx :=
    { ctx with
      entries := ctx.entries ++ [⟨rule, none, none⟩]
      lrstack := e :: ctx.lrstack }
  let (a, ctx) := pccLrAnswerCreate ctx (.lr e) p
  { ctx with lrtable := pccLrTableSetAnswer ctx.lrtable p rule a }

/-- What is done with a rule that has no answer in the table. -/
def applyNew (eval : ρ → Eval ρ α) (rule : ρ) (p : ℕ) : Eval ρ α := fun ctx =>
  let e := ctx.entries.length
  let a := ctx.answers.length
  match eval rule (ctx.begin rule p) with
  | .ok (c, ctx) =>
      match ctx.lrstack, ctx.entries[e]? with
      | _ :: stack, some entry =>
          let ctx := { ctx with lrstack := stack }
          let ctx := ctx.setAnswerPos a (ctx.pos + ctx.cur)
          match entry.head with
          | none =>
              match pccLrAnswerSetChunk ctx a c with
              | .ok ctx => .ok (c, ctx)
              | .error e => .error e
          | some h => applyRecursive eval rule p a e h c ctx
      | _, _ => .error .fault
  | .error e => .error e

/-- The chunk an application comes to. -/
def applied (eval : ρ → Eval ρ α) (rule : ρ) : Eval ρ α := fun ctx =>
  let p := ctx.pos + ctx.cur
  let a := pccLrTableGetAnswer ctx.lrtable p rule
  match applyGrowing eval rule p a (pccLrTableGetHead ctx.lrtable p) ctx with
  | .ok (some r) => .ok r
  | .ok none =>
      match a with
      | some a => recallAnswer rule p a ctx
      | none => applyNew eval rule p ctx
  | .error e => .error e

/-- `pcc_apply_rule`. -/
def pccApplyRule (eval : ρ → Eval ρ α) (rule : ρ) (slot : Option ℕ) : Step ρ α :=
  fun ctx thunks =>
    match applied eval rule ctx with
    | .ok (some c, ctx) => .ok (true, ctx, thunks ++ [.node c slot])
    | .ok (none, ctx) => .ok (false, ctx, thunks)
    | .error e => .error e

/-! ## Evaluation -/

/-- The code around the body of a rule. -/
def evaluateRule (conv : UInt8 → ℤ) (body : Body ρ α) (apply : ρ → Option ℕ → Step ρ α)
    (rule : ρ) : Eval ρ α := fun ctx =>
  let start := ctx.cur
  let ctx := ctx.debugged .evaluate rule start ctx.buffer.length
  match body.code conv apply start { ctx with level := ctx.level + 1 } [] with
  | .ok (b, ctx, thunks) =>
      let ctx := { ctx with level := ctx.level - 1 }
      if b then
        .ok (some thunks, ctx.debugged .isMatch rule start ctx.cur)
      else
        .ok (none, ctx.debugged .noMatch rule start ctx.cur)
  | .error e => .error e

/-- The evaluation of a rule, with calls nested at most `fuel` deep. -/
def evaluate (conv : UInt8 → ℤ) (g : ρ → Body ρ α) : ℕ → ρ → Eval ρ α
  | 0, _, _ => .error .deep
  | fuel + 1, rule, ctx =>
      evaluateRule conv (g rule) (pccApplyRule (evaluate conv g fuel)) rule ctx

/-! ## Without left recursion

The same body as a parser of the run time in which a rule that is met again has no
result.
-/

def Body.parser (conv : UInt8 → ℤ) (start : ℕ) : Body ρ α → Pcc.Parser ρ α
  | .charClass p => .charClass conv p
  | .string s => .string conv s
  | .seq e f => (e.parser conv start).seq (f.parser conv start)
  | .alt e f => (e.parser conv start).alt (f.parser conv start)
  | .star e => .star (e.parser conv start)
  | .plus e => .plus (e.parser conv start)
  | .rule r slot => .rule r slot
  | .emit action => .emit action start

/-- The grammar of that run time. -/
def plain (conv : UInt8 → ℤ) (g : ρ → Body ρ α) : Pcc.Grammar ρ α :=
  fun rule start => (g rule).parser conv start

end Jetlang.Lr
