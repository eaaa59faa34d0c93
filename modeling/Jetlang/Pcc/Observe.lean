import Jetlang.Pcc.Runtime

/-! # What a parser does

`Observes g P ctx thunks r` says that `P` gives `r` in the grammar `g`, with
enough fuel. There is one rule for each way a combinator can go, and for each
way the application of a rule can go. `NoResult` says that there is no result, and
goes up from a part of the code to the whole in the same way. Below, the text is
followed through the buffer: `Consumes` says which characters were read and which
are left, and `peek` what the next character is taken for.
-/

namespace Jetlang.Pcc

open Jetlang.Sym (intMax)

variable {ρ α : Type}

/-! ## Observations -/

section Observations

variable [DecidableEq ρ] {g : Grammar ρ α}

/-- With enough fuel, `P` gives `r`. -/
def Observes (g : Grammar ρ α) (P : Parser ρ α) (ctx : Context ρ α) (thunks : List (Thunk α))
    (r : Bool × Context ρ α × List (Thunk α)) : Prop :=
  ∃ N, ∀ fuel, N ≤ fuel → P (pccApplyRule (evaluate g fuel)) ctx thunks = some r

variable {P Q : Parser ρ α} {ctx ctx₁ ctx₂ : Context ρ α} {thunks thunks₁ thunks₂ : List (Thunk α)}
  {r : Bool × Context ρ α × List (Thunk α)}

/-- A parser that applies no rule. -/
theorem Observes.of_eq (h : ∀ apply, P apply ctx thunks = some r) : Observes g P ctx thunks r :=
  ⟨0, fun _ _ => h _⟩

theorem Observes.emit (action : α) (start : ℕ) : Observes g (.emit action start) ctx thunks
    (true, ctx, thunks ++ [.leaf action start ctx.cur]) :=
  .of_eq fun _ => rfl

/-- Two facts that need enough fuel hold together with enough fuel. -/
theorem eventually_and {p q : ℕ → Prop} (hp : ∃ N, ∀ n, N ≤ n → p n) (hq : ∃ N, ∀ n, N ≤ n → q n) :
    ∃ N, ∀ n, N ≤ n → p n ∧ q n := by
  rcases hp with ⟨N, hp⟩
  rcases hq with ⟨K, hq⟩
  refine ⟨max N K, fun n hn => ⟨hp n ?_, hq n ?_⟩⟩
  · exact Nat.le_trans (Nat.le_max_left N K) hn
  · exact Nat.le_trans (Nat.le_max_right N K) hn

theorem Observes.seq (hP : Observes g P ctx thunks (true, ctx₁, thunks₁))
    (hQ : Observes g Q ctx₁ thunks₁ r) : Observes g (P.seq Q) ctx thunks r := by
  rcases eventually_and hP hQ with ⟨N, h⟩
  refine ⟨N, ?_⟩
  intro n hn
  unfold Parser.seq
  rw [(h n hn).1]
  exact (h n hn).2

theorem Observes.seq_fail (hP : Observes g P ctx thunks (false, ctx₁, thunks₁)) :
    Observes g (P.seq Q) ctx thunks (false, ctx₁, thunks₁) := by
  rcases hP with ⟨N, h⟩
  refine ⟨N, ?_⟩
  intro n hn
  unfold Parser.seq
  rw [h n hn]

theorem Observes.alt_left (hP : Observes g P ctx thunks (true, ctx₁, thunks₁)) :
    Observes g (P.alt Q) ctx thunks (true, ctx₁, thunks₁) := by
  rcases hP with ⟨N, h⟩
  refine ⟨N, ?_⟩
  intro n hn
  unfold Parser.alt
  rw [h n hn]

theorem Observes.alt_right (hP : Observes g P ctx thunks (false, ctx₁, thunks₁))
    (hQ : Observes g Q (ctx₁.at ctx.cur) (thunks₁.take thunks.length) (true, ctx₂, thunks₂)) :
    Observes g (P.alt Q) ctx thunks (true, ctx₂, thunks₂) := by
  rcases eventually_and hP hQ with ⟨N, h⟩
  refine ⟨N, ?_⟩
  intro n hn
  unfold Parser.alt
  simp only [(h n hn).1, (h n hn).2]

theorem Observes.alt_fail (hP : Observes g P ctx thunks (false, ctx₁, thunks₁))
    (hQ : Observes g Q (ctx₁.at ctx.cur) (thunks₁.take thunks.length) (false, ctx₂, thunks₂)) :
    Observes g (P.alt Q) ctx thunks
      (false, ctx₂.at ctx.cur, thunks₂.take thunks.length) := by
  rcases eventually_and hP hQ with ⟨N, h⟩
  refine ⟨N, ?_⟩
  intro n hn
  unfold Parser.alt
  simp only [(h n hn).1, (h n hn).2]

variable {rule : ρ} {slot : Option ℕ} {c : List (Thunk α)} {pos : ℕ}

/-- Where a rule was not applied before, its answer is the chunk of its body, or
none if that fails. -/
theorem answer_new {b : Bool} (hnew : ctx.lrtable ctx.cur rule = none)
    (hbody : Observes g (g rule ctx.cur) (ctx.setAnswer ctx.cur rule .lr) [] (b, ctx₁, c)) :
    ∃ N, ∀ n, N ≤ n → answer (evaluate g n) rule ctx =
      let chunk := if b then some c else none
      some (chunk, ctx₁.setAnswer ctx.cur rule (.chunk chunk ctx₁.cur)) := by
  rcases hbody with ⟨N, h⟩
  refine ⟨N + 1, ?_⟩
  intro n hn
  obtain ⟨k, rfl⟩ : ∃ k, n = k + 1 := ⟨n - 1, by omega⟩
  have hrun := h k (by omega)
  unfold answer evaluate evaluateBody
  simp only [hnew]
  rw [show (ctx.setAnswer ctx.cur rule .lr).cur = ctx.cur from rfl, hrun]
  cases b <;> rfl

/-- The rule was not applied here before, and its body matches. -/
theorem Observes.apply (hnew : ctx.lrtable ctx.cur rule = none)
    (hbody : Observes g (g rule ctx.cur) (ctx.setAnswer ctx.cur rule .lr) [] (true, ctx₁, c)) :
    Observes g (.rule rule slot) ctx thunks
      (true, ctx₁.setAnswer ctx.cur rule (.chunk (some c) ctx₁.cur),
        thunks ++ [.node c slot]) := by
  rcases answer_new hnew hbody with ⟨N, h⟩
  refine ⟨N, ?_⟩
  intro n hn
  unfold Parser.rule pccApplyRule
  rw [h n hn]
  rfl

/-- The rule was not applied here before, and its body fails. -/
theorem Observes.apply_fail (hnew : ctx.lrtable ctx.cur rule = none)
    (hbody : Observes g (g rule ctx.cur) (ctx.setAnswer ctx.cur rule .lr) [] (false, ctx₁, c)) :
    Observes g (.rule rule slot) ctx thunks
      (false, ctx₁.setAnswer ctx.cur rule (.chunk none ctx₁.cur), thunks) := by
  rcases answer_new hnew hbody with ⟨N, h⟩
  refine ⟨N, ?_⟩
  intro n hn
  unfold Parser.rule pccApplyRule
  rw [h n hn]
  rfl

/-- The rule has matched here before. -/
theorem Observes.hit (hold : ctx.lrtable ctx.cur rule = some (.chunk (some c) pos)) :
    Observes g (.rule rule slot) ctx thunks (true, ctx.at pos, thunks ++ [.node c slot]) := by
  refine ⟨0, ?_⟩
  intro n _
  unfold Parser.rule pccApplyRule answer
  simp only [hold]

/-- The rule has failed here before. -/
theorem Observes.hit_fail (hold : ctx.lrtable ctx.cur rule = some (.chunk none pos)) :
    Observes g (.rule rule slot) ctx thunks (false, ctx.at pos, thunks) := by
  refine ⟨0, ?_⟩
  intro n _
  unfold Parser.rule pccApplyRule answer
  simp only [hold]

/-! ## No result -/

/-- `P` has no result, however much fuel there is. -/
def NoResult (g : Grammar ρ α) (P : Parser ρ α) (ctx : Context ρ α) (thunks : List (Thunk α)) :
    Prop :=
  ∃ N, ∀ fuel, N ≤ fuel → P (pccApplyRule (evaluate g fuel)) ctx thunks = none

theorem NoResult.of_eq (h : ∀ apply, P apply ctx thunks = none) : NoResult g P ctx thunks :=
  ⟨0, fun _ _ => h _⟩

/-- What has a result is not without one. -/
theorem NoResult.not_observes (h : NoResult g P ctx thunks) : ¬ Observes g P ctx thunks r := by
  intro hobs
  rcases eventually_and h hobs with ⟨N, hN⟩
  rcases hN N (Nat.le_refl N) with ⟨hnone, hsome⟩
  rw [hnone] at hsome
  cases hsome

theorem NoResult.seq (hP : NoResult g P ctx thunks) : NoResult g (P.seq Q) ctx thunks := by
  rcases hP with ⟨N, h⟩
  refine ⟨N, ?_⟩
  intro n hn
  unfold Parser.seq
  rw [h n hn]

theorem Observes.seq_noResult (hP : Observes g P ctx thunks (true, ctx₁, thunks₁))
    (hQ : NoResult g Q ctx₁ thunks₁) : NoResult g (P.seq Q) ctx thunks := by
  rcases eventually_and hP hQ with ⟨N, h⟩
  refine ⟨N, ?_⟩
  intro n hn
  unfold Parser.seq
  rw [(h n hn).1]
  exact (h n hn).2

theorem NoResult.alt (hP : NoResult g P ctx thunks) : NoResult g (P.alt Q) ctx thunks := by
  rcases hP with ⟨N, h⟩
  refine ⟨N, ?_⟩
  intro n hn
  unfold Parser.alt
  rw [h n hn]

theorem Observes.alt_noResult (hP : Observes g P ctx thunks (false, ctx₁, thunks₁))
    (hQ : NoResult g Q (ctx₁.at ctx.cur) (thunks₁.take thunks.length)) :
    NoResult g (P.alt Q) ctx thunks := by
  rcases eventually_and hP hQ with ⟨N, h⟩
  refine ⟨N, ?_⟩
  intro n hn
  unfold Parser.alt
  simp only [(h n hn).1, (h n hn).2]

/-- The rule was not applied here before, and its body has no result. -/
theorem NoResult.apply (hnew : ctx.lrtable ctx.cur rule = none)
    (hbody : NoResult g (g rule ctx.cur) (ctx.setAnswer ctx.cur rule .lr) []) :
    NoResult g (.rule rule slot) ctx thunks := by
  rcases hbody with ⟨N, h⟩
  refine ⟨N + 1, ?_⟩
  intro n hn
  obtain ⟨k, rfl⟩ : ∃ k, n = k + 1 := ⟨n - 1, by omega⟩
  have hrun := h k (by omega)
  unfold Parser.rule pccApplyRule answer evaluate evaluateBody
  simp only [hnew]
  rw [show (ctx.setAnswer ctx.cur rule .lr).cur = ctx.cur from rfl, hrun]

end Observations

/-! ## The memo table -/

section Table

variable (ctx : Context ρ α) (p q : ℕ) (rule : ρ) (a : Answer α)

@[simp] theorem at_cur : (ctx.at p).cur = p := rfl

@[simp] theorem at_buffer : (ctx.at p).buffer = ctx.buffer := rfl

@[simp] theorem at_lrtable : (ctx.at p).lrtable = ctx.lrtable := rfl

theorem at_self : ctx.at ctx.cur = ctx := rfl

variable [DecidableEq ρ]

@[simp] theorem setAnswer_cur : (ctx.setAnswer p rule a).cur = ctx.cur := rfl

@[simp] theorem setAnswer_unread : (ctx.setAnswer p rule a).unread = ctx.unread := rfl

@[simp] theorem setAnswer_same : (ctx.setAnswer p rule a).lrtable p rule = some a := by
  show Function.update ctx.lrtable p (Function.update (ctx.lrtable p) rule (some a)) p rule = _
  rw [Function.update_self, Function.update_self]

variable {p q rule}

theorem setAnswer_ne {r : ρ} (h : q ≠ p ∨ r ≠ rule) :
    (ctx.setAnswer p rule a).lrtable q r = ctx.lrtable q r := by
  show Function.update ctx.lrtable p (Function.update (ctx.lrtable p) rule (some a)) q r = _
  by_cases hq : q = p
  · subst hq
    rw [Function.update_self, Function.update_of_ne (h.resolve_left (not_not.mpr rfl))]
  · rw [Function.update_of_ne hq]

end Table

/-! ## The next character -/

section Buffer

variable (conv : UInt8 → ℤ)

/-- What asking for one character finds in front of a text, and the text left.
A byte that is taken for a negative character is dropped. -/
def peek : List UInt8 → Option UInt8 × List UInt8
  | [] => (none, [])
  | b :: w => if conv b < 0 then (none, w) else (some b, b :: w)

/-- The next character of the text, if there is one, is not in the class. -/
def Misses (p : UInt8 → Bool) (w : List UInt8) : Prop :=
  ∀ c, (peek conv w).1 = some c → p c = false

/-- The position is in the buffer, and so are no negative characters. -/
structure Context.WF (ctx : Context ρ α) : Prop where
  cur_le : ctx.cur ≤ ctx.buffer.length
  nonneg : ∀ b ∈ ctx.buffer, 0 ≤ conv b

/-- From `ctx` the parser has read `u` and come to `ctx'`, where `v` is left. -/
structure Consumes (ctx ctx' : Context ρ α) (u v : List UInt8) : Prop where
  wf : ctx'.WF conv
  cur_eq : ctx'.cur = ctx.cur + u.length
  unread_eq : ctx'.unread = v
  grows : ctx.buffer <+: ctx'.buffer
  text : ctx'.buffer.drop ctx.cur = u ++ ctx'.buffer.drop ctx'.cur

/-- The same, where no rule was applied. -/
structure Scans (ctx ctx' : Context ρ α) (u v : List UInt8) : Prop
    extends Consumes conv ctx ctx' u v where
  table_eq : ctx'.lrtable = ctx.lrtable

variable {conv} {ctx ctx₁ ctx₂ : Context ρ α} {u u' v v' : List UInt8}

theorem Consumes.refl (h : ctx.WF conv) : Consumes conv ctx ctx [] ctx.unread :=
  ⟨h, rfl, rfl, List.prefix_refl _, rfl⟩

/-- A part of the buffer stays where it is when the buffer grows. -/
theorem drop_of_grows {b b' : List UInt8} (h : b <+: b') {p q : ℕ} (hpq : p ≤ q)
    (hq : q ≤ b.length) (htext : b.drop p = u ++ b.drop q) : b'.drop p = u ++ b'.drop q := by
  rcases h with ⟨z, rfl⟩
  rw [List.drop_append_of_le_length hq, List.drop_append_of_le_length (Nat.le_trans hpq hq), htext,
    List.append_assoc]

theorem Consumes.trans (h₁ : Consumes conv ctx ctx₁ u v) (h₂ : Consumes conv ctx₁ ctx₂ u' v') :
    Consumes conv ctx ctx₂ (u ++ u') v' := by
  refine ⟨h₂.wf, ?_, h₂.unread_eq, h₁.grows.trans h₂.grows, ?_⟩
  · rw [h₂.cur_eq, h₁.cur_eq, List.length_append]
    omega
  · have hle : ctx.cur ≤ ctx₁.cur := by
      have := h₁.cur_eq
      omega
    rw [drop_of_grows h₂.grows hle h₁.wf.cur_le h₁.text, h₂.text, List.append_assoc]

theorem Scans.trans (h₁ : Scans conv ctx ctx₁ u v) (h₂ : Scans conv ctx₁ ctx₂ u' v') :
    Scans conv ctx ctx₂ (u ++ u') v' :=
  ⟨h₁.toConsumes.trans h₂.toConsumes, h₂.table_eq.trans h₁.table_eq⟩

theorem Context.WF.setAnswer [DecidableEq ρ] (h : ctx.WF conv) (p : ℕ) (rule : ρ) (a : Answer α) :
    (ctx.setAnswer p rule a).WF conv :=
  ⟨h.cur_le, h.nonneg⟩

/-- Answers do not matter for what is read. -/
theorem Consumes.setAnswer [DecidableEq ρ] {p q : ℕ} {rule : ρ} {a b : Answer α}
    (h : Consumes conv (ctx.setAnswer p rule a) ctx₁ u v) :
    Consumes conv ctx (ctx₁.setAnswer q rule b) u v :=
  ⟨h.wf.setAnswer q rule b, h.cur_eq, h.unread_eq, h.grows, h.text⟩

/-- The context after asking for one character. -/
def Context.peeked (conv : UInt8 → ℤ) (ctx : Context ρ α) : Context ρ α :=
  (pccRefillBuffer conv ctx 1).2

/-- The values of bytes that are not negative are their own. -/
def Faithful (conv : UInt8 → ℤ) : Prop := ∀ b, 0 ≤ conv b → UInt8.ofNat (conv b).toNat = b

/-- Asking for one character shows what `peek` finds. -/
theorem peeked_spec (hconv : Faithful conv) (h : ctx.WF conv) :
    Scans conv ctx (ctx.peeked conv) [] (peek conv ctx.unread).2 ∧
      (ctx.peeked conv).buffer[ctx.cur]? = (peek conv ctx.unread).1 := by
  by_cases hlt : ctx.cur < ctx.buffer.length
  · -- the character is in the buffer already
    have hmissing : ctx.cur + 1 - ctx.buffer.length = 0 := by omega
    have hpeeked : ctx.peeked conv = ctx := by
      unfold Context.peeked pccRefillBuffer
      rw [hmissing]
      rfl
    have hpeek : peek conv ctx.unread = (some ctx.buffer[ctx.cur], ctx.unread) := by
      have hlow := h.nonneg _ (List.getElem_mem hlt)
      unfold Context.unread
      rw [List.drop_eq_getElem_cons hlt, List.cons_append, peek, if_neg (Int.not_lt.mpr hlow)]
    rw [hpeeked, hpeek]
    exact ⟨⟨.refl h, rfl⟩, List.getElem?_eq_getElem hlt⟩
  · -- the buffer ends here, so one character is taken from the text
    have hend : ctx.cur = ctx.buffer.length := Nat.le_antisymm h.cur_le (Nat.le_of_not_lt hlt)
    have hmissing : ctx.cur + 1 - ctx.buffer.length = 1 := by omega
    have hunread : ctx.unread = ctx.auxil := by
      unfold Context.unread
      rw [List.drop_eq_nil_of_le (by omega), List.nil_append]
    have hnone : ctx.buffer[ctx.cur]? = none := List.getElem?_eq_none (by omega)
    unfold Context.peeked pccRefillBuffer
    rw [hmissing, hunread]
    cases haux : ctx.auxil with
    | nil =>
      have hloop : refillLoop conv 1 ctx = ctx := by rw [refillLoop, haux]
      simp only [hloop, peek]
      refine ⟨⟨?_, rfl⟩, hnone⟩
      have hrefl := Consumes.refl h
      rwa [hunread, haux] at hrefl
    | cons b w =>
      by_cases hneg : conv b < 0
      · -- the byte is dropped
        have hloop : refillLoop conv 1 ctx = { ctx with auxil := w } := by
          rw [refillLoop, haux]
          simp only [if_pos hneg]
        simp only [hloop, peek, if_pos hneg]
        refine ⟨⟨⟨⟨h.cur_le, h.nonneg⟩, rfl, ?_, List.prefix_refl _, rfl⟩, rfl⟩, hnone⟩
        unfold Context.unread
        rw [List.drop_eq_nil_of_le (Nat.le_of_eq hend.symm), List.nil_append]
      · -- the byte is put behind the buffer
        have hb : UInt8.ofNat (conv b).toNat = b := hconv b (Int.not_lt.mp hneg)
        have hloop : refillLoop conv 1 ctx =
            { ctx with auxil := w, buffer := ctx.buffer ++ [b] } := by
          rw [refillLoop, haux]
          simp only [if_neg hneg, hb]
          rfl
        simp only [hloop, peek, if_neg hneg]
        refine ⟨⟨⟨⟨?_, ?_⟩, rfl, ?_, List.prefix_append _ _, rfl⟩, rfl⟩, ?_⟩
        · show ctx.cur ≤ (ctx.buffer ++ [b]).length
          rw [List.length_append]
          omega
        · intro x hx
          rcases List.mem_append.mp hx with hx | hx
          · exact h.nonneg x hx
          · rw [List.mem_singleton.mp hx]
            exact Int.not_lt.mp hneg
        · show (ctx.buffer ++ [b]).drop ctx.cur ++ w = b :: w
          rw [hend, List.drop_left]
          rfl
        · rw [hend, List.getElem?_concat_length]

/-! ## Characters of a class -/

section CharClass

variable {p : UInt8 → Bool} (hconv : Faithful conv) (h : ctx.WF conv)

include hconv h

theorem pccRefillBuffer_one : pccRefillBuffer conv ctx 1 =
    ((ctx.peeked conv).buffer.length - ctx.cur, ctx.peeked conv) := by
  have hcur : (ctx.peeked conv).cur = ctx.cur := (peeked_spec hconv h).1.cur_eq
  rw [← hcur]
  rfl

/-- Whether there is a next character. -/
theorem pccRefillBuffer_pos :
    1 ≤ (pccRefillBuffer conv ctx 1).1 ↔ (peek conv ctx.unread).1 ≠ none := by
  rcases peeked_spec hconv h with ⟨-, hnext⟩
  rw [pccRefillBuffer_one hconv h, ← hnext, ne_eq, List.getElem?_eq_none_iff]
  omega

/-- The next character is not in the class. -/
theorem charClass_fail (hp : Misses conv p ctx.unread) (thunks : List (Thunk α))
    (apply : ρ → Option ℕ → Step ρ α) :
    Parser.charClass conv p apply ctx thunks = some (false, ctx.peeked conv, thunks) := by
  rcases peeked_spec hconv h with ⟨hcons, hnext⟩
  have hcur : (ctx.peeked conv).cur = ctx.cur := hcons.cur_eq
  unfold Parser.charClass
  rw [pccRefillBuffer_one hconv h]
  by_cases hlen : (ctx.peeked conv).buffer.length - ctx.cur < 1
  · simp only [if_pos hlen]
  · have hlt : ctx.cur < (ctx.peeked conv).buffer.length := by omega
    rw [List.getElem?_eq_getElem hlt] at hnext
    simp only [if_neg hlen, hcur, List.getElem?_eq_getElem hlt, hp _ hnext.symm]
    rfl

/-- The next character is in the class, and is read. -/
theorem charClass_match {c : UInt8} {w : List UInt8}
    (hpeek : peek conv ctx.unread = (some c, c :: w)) (hp : p c = true)
    (thunks : List (Thunk α)) :
    ∃ ctx', Scans conv ctx ctx' [c] w ∧ ∀ apply : ρ → Option ℕ → Step ρ α,
      Parser.charClass conv p apply ctx thunks = some (true, ctx', thunks) := by
  rcases peeked_spec hconv h with ⟨hcons, hnext⟩
  have hcur : (ctx.peeked conv).cur = ctx.cur := hcons.cur_eq
  rw [hpeek] at hcons hnext
  rcases List.getElem?_eq_some_iff.mp hnext with ⟨hlt, hc⟩
  -- the character is the first one from the current position on
  have hdrop : (ctx.peeked conv).buffer.drop ctx.cur =
      c :: (ctx.peeked conv).buffer.drop (ctx.cur + 1) := by
    rw [List.drop_eq_getElem_cons hlt, hc]
  refine ⟨(ctx.peeked conv).at (ctx.cur + 1), ⟨⟨⟨hlt, hcons.wf.nonneg⟩, rfl, ?_, hcons.grows,
    hdrop⟩, hcons.table_eq⟩, ?_⟩
  · have hunread := hcons.unread_eq
    unfold Context.unread at hunread
    rw [hcur, hdrop, List.cons_append] at hunread
    exact (List.cons.inj hunread).2
  · intro apply
    have hlen : ¬ (ctx.peeked conv).buffer.length - ctx.cur < 1 := by omega
    unfold Parser.charClass
    rw [pccRefillBuffer_one hconv h]
    simp only [if_neg hlen, hcur, hnext, if_pos hp]

end CharClass

/-- Reading characters of a class as far as they go: from `w`, reading `u` leaves
`v`. The character that ends it has been asked for. -/
inductive Span (conv : UInt8 → ℤ) (p : UInt8 → Bool) :
    List UInt8 → List UInt8 → List UInt8 → Prop where
  | stop {w : List UInt8} (hp : Misses conv p w) : Span conv p w [] (peek conv w).2
  | more {c : UInt8} {w u v : List UInt8} (hc : 0 ≤ conv c) (hp : p c = true) :
      Span conv p w u v → Span conv p (c :: w) (c :: u) v

/-- From every text some characters are read. -/
theorem exists_span (conv : UInt8 → ℤ) (p : UInt8 → Bool) (w : List UInt8) :
    ∃ u v, Span conv p w u v := by
  induction w with
  | nil => exact ⟨[], _, .stop fun d hd => by cases hd⟩
  | cons c w ih =>
    rcases ih with ⟨u, v, hspan⟩
    by_cases hread : 0 ≤ conv c ∧ p c = true
    · exact ⟨c :: u, v, .more hread.1 hread.2 hspan⟩
    · refine ⟨[], _, .stop ?_⟩
      intro d hd
      rw [peek] at hd
      split at hd
      · cases hd
      · cases hd
        by_contra hp
        exact hread ⟨Int.not_lt.mp ‹_›, Bool.of_not_eq_false hp⟩

/-- The loop of a repeated class reads a span, if the turns can be counted. The
induction is on the span; a turn that goes on has moved. -/
theorem repeatLoop_span (hconv : Faithful conv) {p : UInt8 → Bool} {w u v : List UInt8}
    (hspan : Span conv p w u v) (h : ctx.WF conv) (hw : ctx.unread = w) (thunks : List (Thunk α)) :
    ∃ ctx', Scans conv ctx ctx' u v ∧ ∀ (apply : ρ → Option ℕ → Step ρ α) (n i : ℕ),
      w.length < n → i + u.length ≤ intMax →
      repeatLoop (Parser.charClass conv p apply) n i ctx thunks =
        some (i + u.length, ctx', thunks) := by
  induction hspan generalizing ctx with
  | stop hp =>
    rcases peeked_spec hconv h with ⟨hcons, -⟩
    rw [hw] at hcons
    refine ⟨ctx.peeked conv, hcons, ?_⟩
    intro apply n i hn _
    obtain ⟨k, rfl⟩ : ∃ k, n = k + 1 := ⟨n - 1, by omega⟩
    rw [repeatLoop, charClass_fail hconv h (by rw [hw]; exact hp) thunks]
    have hcur : (ctx.peeked conv).cur = ctx.cur := hcons.cur_eq
    have hat : (ctx.peeked conv).at ctx.cur = ctx.peeked conv := by
      rw [← hcur]
      rfl
    simp only [hat, List.take_length, List.length_nil, Nat.add_zero]
  | @more c w u v hc hp _ ih =>
    have hpeek : peek conv ctx.unread = (some c, c :: w) := by
      rw [hw, peek, if_neg (Int.not_lt.mpr hc)]
    rcases charClass_match hconv h hpeek hp thunks with ⟨ctx₁, hcons₁, hrun₁⟩
    rcases ih hcons₁.wf hcons₁.unread_eq with ⟨ctx', hcons', hrun'⟩
    refine ⟨ctx', hcons₁.trans hcons', ?_⟩
    intro apply n i hn hi
    obtain ⟨k, rfl⟩ : ∃ k, n = k + 1 := ⟨n - 1, by omega⟩
    rw [List.length_cons] at hn hi
    have hmoved : ctx₁.cur ≠ ctx.cur := by
      have := hcons₁.cur_eq
      rw [List.length_singleton] at this
      omega
    have hcount : i < intMax := by omega
    rw [repeatLoop, hrun₁]
    simp only [if_neg hmoved, if_pos hcount]
    rw [hrun' apply k (i + 1) (by omega) (by omega), List.length_cons, Nat.add_right_comm,
      Nat.add_assoc]

/-- If they cannot, the count overflows. -/
theorem repeatLoop_overflows (hconv : Faithful conv) {p : UInt8 → Bool} {w u v : List UInt8}
    (hspan : Span conv p w u v) (h : ctx.WF conv) (hw : ctx.unread = w) (thunks : List (Thunk α))
    (apply : ρ → Option ℕ → Step ρ α) (n : ℕ) {i : ℕ} (hi : i ≤ intMax)
    (hlong : intMax < i + u.length) :
    repeatLoop (Parser.charClass conv p apply) n i ctx thunks = none := by
  induction hspan generalizing ctx n i with
  | stop hp => exact absurd hlong (Nat.not_lt.mpr hi)
  | @more c w u v hc hp _ ih =>
    have hpeek : peek conv ctx.unread = (some c, c :: w) := by
      rw [hw, peek, if_neg (Int.not_lt.mpr hc)]
    rcases charClass_match hconv h hpeek hp thunks with ⟨ctx₁, hcons₁, hrun₁⟩
    have hmoved : ctx₁.cur ≠ ctx.cur := by
      have := hcons₁.cur_eq
      rw [List.length_singleton] at this
      omega
    cases n with
    | zero => rfl
    | succ n =>
      rw [repeatLoop, hrun₁]
      simp only [if_neg hmoved]
      split
      · rename_i hcount
        refine ih hcons₁.wf hcons₁.unread_eq n hcount ?_
        rw [List.length_cons] at hlong
        omega
      · rfl

section Star

variable [DecidableEq ρ] {g : Grammar ρ α} (hconv : Faithful conv) {p : UInt8 → Bool}
  (hspan : Span conv p ctx.unread u v) (h : ctx.WF conv) (thunks : List (Thunk α))

include hconv hspan h

/-- A repeated class reads a span. -/
theorem star_span (hshort : u.length ≤ intMax) :
    ∃ ctx', Scans conv ctx ctx' u v ∧
      Observes g (.star (.charClass conv p)) ctx thunks (true, ctx', thunks) := by
  rcases repeatLoop_span (ρ := ρ) hconv hspan h rfl thunks with ⟨ctx', hcons, hrun⟩
  refine ⟨ctx', hcons, .of_eq fun apply => ?_⟩
  unfold Parser.star
  rw [hrun apply _ 0 (Nat.lt_succ_self _) (by omega)]

/-- One that is too long has no result. -/
theorem star_overflows (hlong : intMax < u.length) :
    NoResult g (.star (.charClass conv p)) ctx thunks := by
  refine .of_eq fun apply => ?_
  unfold Parser.star
  rw [repeatLoop_overflows hconv hspan h rfl thunks apply _ (Nat.zero_le _) (by omega)]

end Star

end Buffer

end Jetlang.Pcc
