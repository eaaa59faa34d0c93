import Jetlang.Lr.WellFormed
import Jetlang.Lr.Yields

/-! # What is remembered is the meaning

A context knows the meanings of the rules it has answers for, but for those that are
being evaluated. The parts of a body go on from such contexts to such contexts, and find
the meaning of the part. What was there before is kept: no answer, no entry and no head
is written that an evaluation did not make itself.

Where a left recursion grows, no rule is evaluated that was not before. So the code of
a body that runs there is one that has run there already, and `Body.Asks` says which
rules it has applied.
-/

namespace Jetlang.Lr

variable {ρ α : Type}

open Jetlang.Sym (intMax)

/-! ## The text in the buffer -/

/-- Every byte of the text is taken for the character it is, and the characters can be
counted. -/
structure Readable (conv : UInt8 → ℤ) (text : List UInt8) : Prop where
  bytes : ∀ b ∈ text, 0 ≤ conv b ∧ UInt8.ofNat (conv b).toNat = b
  short : text.length ≤ intMax

section Buffer

variable {conv : UInt8 → ℤ} {text : List UInt8} {C : Context ρ α}

/-- The buffer is the beginning of the text, and grows along it. -/
theorem refillLoop_readable (hread : Readable conv text) (h : C.buffer ++ C.auxil = text)
    (n : ℕ) :
    refillLoop conv n C =
      { C with
        buffer := text.take (C.buffer.length + n)
        auxil := text.drop (C.buffer.length + n) } := by
  induction n generalizing C with
  | zero =>
    rw [Nat.add_zero, ← h, List.take_left, List.drop_left]
    rfl
  | succ n ih =>
    unfold refillLoop
    cases haux : C.auxil with
    | nil =>
      rw [haux, List.append_nil] at h
      dsimp only
      rw [← h, List.take_of_length_le (Nat.le_add_right _ _),
        List.drop_of_length_le (Nat.le_add_right _ _), ← haux]
    | cons b w =>
      rw [haux] at h
      have hb := hread.bytes b (h ▸ List.mem_append_right _ List.mem_cons_self)
      dsimp only
      -- no byte of the text is dropped
      rw [if_neg (Int.not_lt.mpr hb.1), hb.2]
      rw [ih (by rw [← h]; exact List.append_assoc ..)]
      dsimp only
      rw [List.length_append, List.length_singleton]
      simp only [Nat.add_assoc, Nat.add_comm 1 n]

/-- Asking for characters finds them, as far as the text goes. -/
theorem pccRefillBuffer_readable (hread : Readable conv text)
    (h : C.buffer ++ C.auxil = text) (num : ℕ) :
    ∃ k, C.buffer.length ≤ k ∧ C.cur + num ≤ k ∧
      pccRefillBuffer conv C num = ((text.take k).length - C.cur,
        { C with buffer := text.take k, auxil := text.drop k }) := by
  refine ⟨C.buffer.length + (C.cur + num - C.buffer.length), Nat.le_add_right _ _,
    by omega, ?_⟩
  unfold pccRefillBuffer
  rw [refillLoop_readable hread h]

end Buffer

/-! ## What parts of a run come to -/

section Comes

variable {thunks : List (Pcc.Thunk α)} {res : Option (ℕ × List (Pcc.Thunk α))}
  {r : Bool × Context ρ α × List (Pcc.Thunk α)}

/-- What a part of a run comes to is `res`. -/
def Comes (thunks : List (Pcc.Thunk α)) :
    Option (ℕ × List (Pcc.Thunk α)) → Bool × Context ρ α × List (Pcc.Thunk α) → Prop
  | some (q, ts), (b, C, thunks') => b = true ∧ C.cur = q ∧ thunks' = thunks ++ ts
  | none, (b, _, thunks') => b = false ∧ thunks'.take thunks.length = thunks

/-- The position and the thunks of a match. -/
theorem Comes.some_inv {x : ℕ × List (Pcc.Thunk α)} (h : Comes thunks (some x) r) :
    ∃ C', r = (true, C', thunks ++ x.2) ∧ C'.cur = x.1 := by
  obtain ⟨b, C', thunks'⟩ := r
  rcases h with ⟨rfl, hcur, rfl⟩
  exact ⟨C', rfl, hcur⟩

/-- After a failure the thunks of the start are there. -/
theorem Comes.none_inv (h : Comes thunks none r) :
    ∃ C' thunks', r = (false, C', thunks') ∧ thunks'.take thunks.length = thunks := by
  obtain ⟨b, C', thunks'⟩ := r
  rcases h with ⟨rfl, htake⟩
  exact ⟨C', thunks', rfl, htake⟩

/-- What comes behind the thunks `ts` comes with them. -/
theorem Comes.append {ts : List (Pcc.Thunk α)} (h : Comes (thunks ++ ts) res r) :
    Comes thunks (res.map fun x => (x.1, ts ++ x.2)) r := by
  cases res with
  | some x =>
    rcases h.some_inv with ⟨C', rfl, hcur⟩
    exact ⟨rfl, hcur, List.append_assoc ..⟩
  | none =>
    rcases h.none_inv with ⟨C', thunks', rfl, htake⟩
    refine ⟨rfl, ?_⟩
    have hprefix := congrArg (List.take thunks.length) htake
    rw [List.take_take, List.length_append, Nat.min_eq_left (Nat.le_add_right _ _),
      List.take_left] at hprefix
    exact hprefix

end Comes

variable [DecidableEq ρ]

/-! ## Contexts that know meanings -/

/-- The answer is the meaning of the rule, and in the first `len` characters. -/
structure LrAnswer.Right (g : ρ → Body ρ α) (text : List UInt8) (len q : ℕ) (s : ρ)
    (answer : LrAnswer α) : Prop where
  pos_le : answer.pos ≤ len
  means : ∃ c n, answer.data = .chunk c ∧
    Means g text n (.rule s q) (c.map fun ts => (answer.pos, ts))

/-- The context has begun to read the text, and what it remembers are meanings, but for
the rules of `A`, which are being evaluated. -/
structure Knows (g : ρ → Body ρ α) (text : List UInt8) (A : List (ℕ × ρ)) (C : Context ρ α) :
    Prop where
  pos_eq : C.pos = 0
  text_eq : C.buffer ++ C.auxil = text
  cur_le : C.cur ≤ C.buffer.length
  apart : ∀ q s q' s' a, pccLrTableGetAnswer C.lrtable q s = some a →
    pccLrTableGetAnswer C.lrtable q' s' = some a → q = q' ∧ s = s'
  answers : ∀ q s a, pccLrTableGetAnswer C.lrtable q s = some a →
    ∃ answer, C.answers[a]? = some answer ∧
      ((q, s) ∉ A → answer.Right g text C.buffer.length q s)

/-- The rules that are being evaluated have no meaning with less depth. -/
def Deeper (g : ρ → Body ρ α) (text : List UInt8) (n : ℕ) (A : List (ℕ × ρ)) : Prop :=
  ∀ x ∈ A, ∀ k < n, ∀ res, ¬ Means g text k (.rule x.2 x.1) res

/-- There is an answer for the rule. -/
def Context.Has (C : Context ρ α) (p : ℕ) (s : ρ) : Prop :=
  ∃ a, pccLrTableGetAnswer C.lrtable p s = some a

/-- What there was is there, and as it was. -/
structure Kept (C C' : Context ρ α) : Prop where
  length_le : C.buffer.length ≤ C'.buffer.length
  table : ∀ q s a, pccLrTableGetAnswer C.lrtable q s = some a →
    pccLrTableGetAnswer C'.lrtable q s = some a
  answers : ∀ (a : ℕ) x, C.answers[a]? = some x → C'.answers[a]? = some x
  entries : ∀ (e : ℕ) x, C.entries[e]? = some x → C'.entries[e]? = some x
  heads : ∀ (h : ℕ) x, C.heads[h]? = some x → C'.heads[h]? = some x

/-- A part of a run, from `C` to `C'`. -/
structure Goes (g : ρ → Body ρ α) (text : List UInt8) (A : List (ℕ × ρ)) (C C' : Context ρ α) :
    Prop extends Kept C C' where
  knows : Knows g text A C'
  lrstack_eq : C'.lrstack = C.lrstack
  getHead_eq : ∀ q, pccLrTableGetHead C'.lrtable q = pccLrTableGetHead C.lrtable q

section Goes

variable {g : ρ → Body ρ α} {text : List UInt8} {A : List (ℕ × ρ)} {n m start p q : ℕ}
  {C C₁ C₂ : Context ρ α} {e f : Body ρ α} {thunks : List (Pcc.Thunk α)}
  {res : Option (ℕ × List (Pcc.Thunk α))}

theorem Kept.refl (C : Context ρ α) : Kept C C :=
  ⟨Nat.le_refl _, fun _ _ _ h => h, fun _ _ h => h, fun _ _ h => h, fun _ _ h => h⟩

theorem Kept.trans (h₁ : Kept C C₁) (h₂ : Kept C₁ C₂) : Kept C C₂ where
  length_le := Nat.le_trans h₁.length_le h₂.length_le
  table := fun q s a h => h₂.table q s a (h₁.table q s a h)
  answers := fun a x h => h₂.answers a x (h₁.answers a x h)
  entries := fun e x h => h₂.entries e x (h₁.entries e x h)
  heads := fun i x h => h₂.heads i x (h₁.heads i x h)

/-- An answer that was there is there. -/
theorem Kept.has (h : Kept C C₁) {s : ρ} (hs : C.Has p s) : C₁.Has p s := by
  rcases hs with ⟨a, ha⟩
  exact ⟨a, h.table p s a ha⟩

theorem Goes.refl (h : Knows g text A C) : Goes g text A C C :=
  { Kept.refl C with
    knows := h
    lrstack_eq := rfl
    getHead_eq := fun _ => rfl }

theorem Goes.trans (h₁ : Goes g text A C C₁) (h₂ : Goes g text A C₁ C₂) : Goes g text A C C₂ :=
  { h₁.toKept.trans h₂.toKept with
    knows := h₂.knows
    lrstack_eq := h₂.lrstack_eq.trans h₁.lrstack_eq
    getHead_eq := fun q => (h₂.getHead_eq q).trans (h₁.getHead_eq q) }

/-- Another position in the buffer. -/
theorem Goes.at (h : Goes g text A C C₁) (hp : p ≤ C₁.buffer.length) :
    Goes g text A C (C₁.at p) :=
  { h with knows := { h.knows with cur_le := hp } }

/-- Back at the position where a part of a run has begun. -/
theorem Goes.back (h : Goes g text A C C₁) (hC : Knows g text A C) :
    Goes g text A C (C₁.at C.cur) :=
  h.at (Nat.le_trans hC.cur_le h.length_le)

/-- No more is in the buffer than the text has. -/
theorem Knows.length_text (h : Knows g text A C) : C.buffer.length ≤ text.length := by
  rw [← h.text_eq, List.length_append]
  exact Nat.le_add_right _ _

/-- What is unread is the rest of the text. -/
theorem Knows.length_unread (h : Knows g text A C) : C.unread.length + C.cur = text.length := by
  have hle := h.cur_le
  unfold Context.unread
  rw [← h.text_eq, List.length_append, List.length_append, List.length_drop]
  omega

theorem Knows.cur_le_text (h : Knows g text A C) : C.cur ≤ text.length :=
  Nat.le_trans h.cur_le h.length_text

/-- What a turn matches lies in front of it, if it is not where the turn began. -/
theorem Means.moved {ts : List (Pcc.Thunk α)}
    (hmeans : Means g text n (.body start e C.cur) (some (q, ts))) (h : Knows g text A C)
    (hq : q ≠ C.cur) : C.cur < q :=
  Nat.lt_of_le_of_ne (hmeans.within h.cur_le_text _ rfl).1 (Ne.symm hq)

/-- A turn that gets further leaves less to read. -/
theorem Goes.unread_lt (h : Goes g text A C C₁) (hC : Knows g text A C) (hlt : C.cur < C₁.cur) :
    C₁.unread.length < C.unread.length := by
  have hlen := hC.length_unread
  have hlen₁ := h.knows.length_unread
  omega

/-- More characters are in the buffer. -/
theorem Knows.filled (h : Knows g text A C) {k : ℕ} (hk : C.buffer.length ≤ k) :
    Goes g text A C { C with buffer := text.take k, auxil := text.drop k } := by
  have hle := h.length_text
  have hlen : C.buffer.length ≤ (text.take k).length := by
    rw [List.length_take]
    omega
  refine { Goes.refl h with
    length_le := hlen
    knows :=
      { h with
        text_eq := List.take_append_drop k text
        cur_le := Nat.le_trans h.cur_le hlen
        answers := ?_ } }
  intro q s a ha
  rcases h.answers q s a ha with ⟨answer, hanswer, hright⟩
  refine ⟨answer, hanswer, fun hA => ?_⟩
  exact { hright hA with pos_le := Nat.le_trans (hright hA).pos_le hlen }

/-! ## Bodies that have run -/

/-- The rules that a body in a chunk that begins at `start` applies at `p`, before it
reads a character. -/
def Body.Asks (g : ρ → Body ρ α) (text : List UInt8) (start : ℕ) : Body ρ α → ℕ → ρ → Prop
  | .seq e f, p, s =>
      e.Asks g text start p s ∨
        (∃ n ts, Means g text n (.body start e p) (some (p, ts))) ∧ f.Asks g text start p s
  | .alt e f, p, s =>
      e.Asks g text start p s ∨
        (∃ n, Means g text n (.body start e p) none) ∧ f.Asks g text start p s
  | .star e, p, s => e.Asks g text start p s
  | .plus e, p, s => e.Asks g text start p s
  | .rule r _, _, s => s = r
  | .charClass _, _, _ => False
  | .string _, _, _ => False
  | .emit _, _, _ => False

/-- A recursion grows at the position, and has no rules left to evaluate. -/
def Context.Spent (C : Context ρ α) (p : ℕ) : Prop :=
  ∃ h head, pccLrTableGetHead C.lrtable p = some h ∧ C.heads[h]? = some head ∧ head.eval = []

/-- The code of a body may run at `p`. If a recursion grows there, the body has run there
already. -/
structure Ready (g : ρ → Body ρ α) (text : List UInt8) (start : ℕ) (e : Body ρ α) (p : ℕ)
    (C : Context ρ α) : Prop where
  behind : ∀ q, p < q → pccLrTableGetHead C.lrtable q = none
  here : pccLrTableGetHead C.lrtable p = none ∨
    C.Spent p ∧ ∀ s, e.Asks g text start p s → C.Has p s

/-- A part of a body may run where it asks for no more rules than the whole. -/
theorem Ready.mono (h : Ready g text start e p C)
    (hasks : ∀ s, f.Asks g text start p s → e.Asks g text start p s) :
    Ready g text start f p C :=
  { h with here := h.here.imp_right fun hspent => ⟨hspent.1, fun s hs => hspent.2 s (hasks s hs)⟩ }

/-- Behind the position no recursion grows. -/
theorem Ready.later (h : Ready g text start e p C) (hq : p < q) (start' : ℕ) (f : Body ρ α) :
    Ready g text start' f q C :=
  ⟨fun q' hq' => h.behind q' (Nat.lt_trans hq hq'), Or.inl (h.behind q hq)⟩

/-- A part of a run leaves the other parts as ready as they were. -/
theorem Ready.goes (h : Ready g text start e p C) (hgoes : Goes g text A C C₁) :
    Ready g text start e p C₁ := by
  refine ⟨fun q hq => (hgoes.getHead_eq q).trans (h.behind q hq), ?_⟩
  rw [hgoes.getHead_eq]
  refine h.here.imp_right ?_
  rintro ⟨⟨i, head, hi, hhead, heval⟩, hasks⟩
  exact ⟨⟨i, head, (hgoes.getHead_eq p).trans hi, hgoes.heads i head hhead, heval⟩,
    fun s hs => hgoes.has (hasks s hs)⟩

theorem Ready.seqLeft (h : Ready g text start (.seq e f) p C) : Ready g text start e p C :=
  h.mono fun _ => Or.inl

/-- Behind a match the second part has either moved on, or is asked for at the same
position. -/
theorem Ready.seqRight (h : Ready g text start (.seq e f) p C) {ts : List (Pcc.Thunk α)}
    (hmeans : Means g text n (.body start e p) (some (q, ts))) (hle : p ≤ q) :
    Ready g text start f q C := by
  by_cases hq : q = p
  · subst hq
    exact h.mono fun _ hs => Or.inr ⟨⟨n, ts, hmeans⟩, hs⟩
  · exact h.later (by omega) start f

theorem Ready.altLeft (h : Ready g text start (.alt e f) p C) : Ready g text start e p C :=
  h.mono fun _ => Or.inl

theorem Ready.altRight (h : Ready g text start (.alt e f) p C)
    (hmeans : Means g text n (.body start e p) none) : Ready g text start f p C :=
  h.mono fun _ hs => Or.inr ⟨⟨n, hmeans⟩, hs⟩

/-! ## Parts of bodies -/

/-- The code of a body comes to `res` from `C`. Then there are answers for the rules it
has applied. -/
def Finds (conv : UInt8 → ℤ) (g : ρ → Body ρ α) (text : List UInt8) (A : List (ℕ × ρ))
    (start : ℕ) (e : Body ρ α) (C : Context ρ α) (thunks : List (Pcc.Thunk α))
    (res : Option (ℕ × List (Pcc.Thunk α))) : Prop :=
  ∃ x, Yields conv g start e C thunks x ∧ Comes thunks res x ∧ Goes g text A C x.2.1 ∧
    ∀ s, e.Asks g text start C.cur s → x.2.1.Has C.cur s

variable {conv : UInt8 → ℤ}

/-- A character of a class is found, or not, where it is in the text. -/
theorem finds_charClass (hread : Readable conv text) (h : Knows g text A C) {p : UInt8 → Bool}
    (hmeans : Means g text n (.body start (.charClass p) C.cur) res) :
    Finds conv g text A start (.charClass p) C thunks res := by
  rcases pccRefillBuffer_readable hread h.text_eq 1 with ⟨k, hk, hcur, hrefill⟩
  have hgoes := h.filled hk
  have hnext : (text.take k)[C.cur]? = text[C.cur]? := by
    rw [List.getElem?_take, if_pos (by omega)]
  -- the code where there is a character
  have hsome : ∀ c, text[C.cur]? = some c → ∀ apply,
      (Body.charClass p : Body ρ α).code conv apply start C thunks = .ok (if p c then
        (true, { C with buffer := text.take k, auxil := text.drop k, cur := C.cur + 1 }, thunks)
      else
        (false, { C with buffer := text.take k, auxil := text.drop k }, thunks)) := by
    intro c hc apply
    have hlen := (List.getElem?_eq_some_iff.mp hc).1
    have hlong : ¬ (text.take k).length - C.cur < 1 := by
      rw [List.length_take]
      omega
    unfold Body.code
    rw [hrefill]
    dsimp only
    rw [hnext, hc, if_neg hlong]
    dsimp only
    split <;> rfl
  cases hmeans with
  | @char _ _ _ _ c hc hf =>
    have hlen : C.cur + 1 ≤ (text.take k).length := by
      have hlt := (List.getElem?_eq_some_iff.mp hc).1
      rw [List.length_take]
      omega
    have hrun := hsome c hc
    rw [if_pos hf] at hrun
    exact ⟨_, .of_eq hrun, ⟨rfl, rfl, (List.append_nil _).symm⟩, hgoes.at hlen, fun _ => False.elim⟩
  | noChar hno =>
    have hfail : ∀ apply, (Body.charClass p : Body ρ α).code conv apply start C thunks =
        .ok (false, { C with buffer := text.take k, auxil := text.drop k }, thunks) := by
      intro apply
      cases hc : text[C.cur]? with
      | none =>
        -- the text has ended
        have hlen := List.getElem?_eq_none_iff.mp hc
        have hshort : (text.take k).length - C.cur < 1 := by
          rw [List.length_take]
          omega
        unfold Body.code
        rw [hrefill]
        exact if_pos hshort
      | some c => rw [hsome c hc, if_neg (by rw [hno c hc]; exact Bool.false_ne_true)]
    exact ⟨_, .of_eq hfail, ⟨rfl, List.take_length⟩, hgoes, fun _ => False.elim⟩

/-- So is a string. -/
theorem finds_string (hread : Readable conv text) (h : Knows g text A C) {s : List UInt8}
    (hmeans : Means g text n (.body start (.string s) C.cur) res) :
    Finds conv g text A start (.string s) C thunks res := by
  rcases pccRefillBuffer_readable hread h.text_eq s.length with ⟨k, hk, hcur, hrefill⟩
  have hgoes := h.filled hk
  have hsame : ((text.take k).drop C.cur).take s.length = (text.drop C.cur).take s.length := by
    rw [List.drop_take, List.take_take, Nat.min_eq_left (by omega)]
  have hcur_le : C.cur ≤ (text.take k).length := Nat.le_trans h.cur_le hgoes.length_le
  cases hmeans with
  | string heq =>
    -- a match means that the text is long enough
    have hlen : C.cur + s.length ≤ (text.take k).length := by
      have hlen := congrArg List.length heq
      rw [List.length_take, List.length_drop] at hlen
      rw [List.length_take] at hcur_le ⊢
      omega
    have hrun : ∀ apply, (Body.string s : Body ρ α).code conv apply start C thunks =
        .ok (true, { C with
          buffer := text.take k, auxil := text.drop k, cur := C.cur + s.length }, thunks) := by
      intro apply
      unfold Body.code
      rw [hrefill]
      dsimp only
      rw [if_neg (by omega), hsame, if_pos heq]
      rfl
    exact ⟨_, .of_eq hrun, ⟨rfl, rfl, (List.append_nil _).symm⟩, hgoes.at hlen, fun _ => False.elim⟩
  | noString hne =>
    have hrun : ∀ apply, (Body.string s : Body ρ α).code conv apply start C thunks =
        .ok (false, { C with buffer := text.take k, auxil := text.drop k }, thunks) := by
      intro apply
      unfold Body.code
      rw [hrefill]
      dsimp only
      -- it fails at another character, or at the end of the text
      rw [hsame, if_neg hne, ite_self]
    exact ⟨_, .of_eq hrun, ⟨rfl, List.take_length⟩, hgoes, fun _ => False.elim⟩

/-- If the first part has read nothing, the second one asks for its rules at the same
position. -/
theorem Finds.seq {x : ℕ × List (Pcc.Thunk α)}
    (hmeans : Means g text n (.body start e C.cur) (some x))
    (he : Finds conv g text A start e C thunks (some x))
    (hf : ∀ C₁, Goes g text A C C₁ → C₁.cur = x.1 →
      Finds conv g text A start f C₁ (thunks ++ x.2) res) :
    Finds conv g text A start (.seq e f) C thunks (res.map fun r => (r.1, x.2 ++ r.2)) := by
  rcases he with ⟨y, hyields, hcomes, hgoes, hasks⟩
  rcases hcomes.some_inv with ⟨C₁, rfl, hcur⟩
  rcases hf C₁ hgoes hcur with ⟨y', hyields', hcomes', hgoes', hasks'⟩
  refine ⟨y', hyields.seq hyields', hcomes'.append, hgoes.trans hgoes', ?_⟩
  rintro s (hs | ⟨⟨m, ts, hstill⟩, hs⟩)
  · exact hgoes'.has (hasks s hs)
  · -- nothing was read in between
    obtain rfl := Option.some.inj (hmeans.unique hstill)
    dsimp only at hcur
    rw [← hcur] at hs ⊢
    exact hasks' s hs

theorem Finds.noSeq (hmeans : Means g text n (.body start e C.cur) none)
    (he : Finds conv g text A start e C thunks none) :
    Finds conv g text A start (.seq e f) C thunks none := by
  rcases he with ⟨y, hyields, hcomes, hgoes, hasks⟩
  rcases hcomes.none_inv with ⟨C₁, thunks₁, rfl, htake⟩
  refine ⟨_, hyields.noSeq, ⟨rfl, htake⟩, hgoes, ?_⟩
  rintro s (hs | ⟨⟨m, ts, hstill⟩, -⟩)
  · exact hasks s hs
  · cases hmeans.unique hstill

theorem Finds.left {x : ℕ × List (Pcc.Thunk α)}
    (hmeans : Means g text n (.body start e C.cur) (some x))
    (he : Finds conv g text A start e C thunks (some x)) :
    Finds conv g text A start (.alt e f) C thunks (some x) := by
  rcases he with ⟨y, hyields, hcomes, hgoes, hasks⟩
  rcases hcomes.some_inv with ⟨C₁, rfl, hcur⟩
  refine ⟨_, hyields.left, ⟨rfl, hcur, rfl⟩, hgoes, ?_⟩
  rintro s (hs | ⟨⟨m, hfail⟩, -⟩)
  · exact hasks s hs
  · cases hmeans.unique hfail

/-- The second alternative starts again at the position of the first one. -/
theorem Finds.right (h : Knows g text A C) (he : Finds conv g text A start e C thunks none)
    (hf : ∀ C₁, Goes g text A C C₁ → C₁.cur = C.cur →
      Finds conv g text A start f C₁ thunks res) :
    Finds conv g text A start (.alt e f) C thunks res := by
  rcases he with ⟨y, hyields, hcomes, hgoes, hasks⟩
  rcases hcomes.none_inv with ⟨C₁, thunks₁, rfl, htake⟩
  have hback := hgoes.back h
  rcases hf _ hback rfl with ⟨y', hyields', hcomes', hgoes', hasks'⟩
  have hall : ∀ s, (e.alt f).Asks g text start C.cur s → y'.2.1.Has C.cur s := by
    rintro s (hs | ⟨-, hs⟩)
    · -- what the first alternative has asked for is still there
      exact hgoes'.has (hasks s hs)
    · exact hasks' s hs
  rw [← htake] at hyields'
  cases res with
  | some x =>
    rcases hcomes'.some_inv with ⟨C₂, rfl, hcur⟩
    exact ⟨_, hyields.right hyields', ⟨rfl, hcur, rfl⟩, hback.trans hgoes', hall⟩
  | none =>
    rcases hcomes'.none_inv with ⟨C₂, thunks₂, rfl, htake₂⟩
    refine ⟨_, hyields.noAlt hyields', ⟨rfl, ?_⟩, (hback.trans hgoes').back h, hall⟩
    rw [htake₂, List.take_length]

/-- A star ends at the first turn that fails. -/
theorem Finds.starEnd (h : Knows g text A C) (he : Finds conv g text A start e C thunks none) :
    Finds conv g text A start (.star e) C thunks (some (C.cur, [])) := by
  rcases he with ⟨y, hyields, hcomes, hgoes, hasks⟩
  rcases hcomes.none_inv with ⟨C₁, thunks₁, rfl, htake⟩
  refine ⟨_, hyields.starEnd, ⟨rfl, rfl, ?_⟩, hgoes.back h, hasks⟩
  rw [htake, List.append_nil]

theorem Finds.starStill {ts : List (Pcc.Thunk α)}
    (he : Finds conv g text A start e C thunks (some (C.cur, ts))) :
    Finds conv g text A start (.star e) C thunks (some (C.cur, ts)) := by
  rcases he with ⟨y, hyields, hcomes, hgoes, hasks⟩
  rcases hcomes.some_inv with ⟨C₁, rfl, hcur⟩
  exact ⟨_, hyields.starStill hcur, ⟨rfl, hcur, rfl⟩, hgoes, hasks⟩

theorem Finds.noPlus (h : Knows g text A C) (he : Finds conv g text A start e C thunks none) :
    Finds conv g text A start (.plus e) C thunks none := by
  rcases he with ⟨y, hyields, hcomes, hgoes, hasks⟩
  rcases hcomes.none_inv with ⟨C₁, thunks₁, rfl, htake⟩
  refine ⟨_, hyields.noPlus, ⟨rfl, ?_⟩, hgoes.back h, hasks⟩
  rw [htake, List.take_length, List.take_length]

/-- A turn that reads nothing is not counted, so `+` fails. -/
theorem Finds.plusStill {ts : List (Pcc.Thunk α)} (h : Knows g text A C)
    (he : Finds conv g text A start e C thunks (some (C.cur, ts))) :
    Finds conv g text A start (.plus e) C thunks none := by
  rcases he with ⟨y, hyields, hcomes, hgoes, hasks⟩
  rcases hcomes.some_inv with ⟨C₁, rfl, hcur⟩
  refine ⟨_, hyields.plusStill hcur, ⟨rfl, ?_⟩, hgoes.back h, hasks⟩
  rw [List.take_left, List.take_length]

/-- A turn that gets further, and those behind it. -/
theorem Finds.more {ts us : List (Pcc.Thunk α)} {q' : ℕ} (hread : Readable conv text)
    (h : Knows g text A C) (he : Finds conv g text A start e C thunks (some (q, ts)))
    (hq : C.cur < q)
    (hstar : ∀ C₁, Goes g text A C C₁ → C₁.cur = q →
      Finds conv g text A start (.star e) C₁ (thunks ++ ts) (some (q', us))) :
    Finds conv g text A start (.star e) C thunks (some (q', ts ++ us)) ∧
      Finds conv g text A start (.plus e) C thunks (some (q', ts ++ us)) := by
  rcases he with ⟨y, hyields, hcomes, hgoes, hasks⟩
  rcases hcomes.some_inv with ⟨C₁, rfl, hcur⟩
  dsimp only at hcur
  rcases hstar C₁ hgoes hcur with ⟨y', hyields', hcomes', hgoes', -⟩
  rcases hcomes'.some_inv with ⟨C₂, rfl, hcur₂⟩
  have hlt : C.cur < C₁.cur := by omega
  -- the turns can be counted, as the text is no longer
  have hshort : C.unread.length ≤ intMax := by
    have hlen := h.length_unread
    have hmax := hread.short
    omega
  rcases hyields.more (Nat.ne_of_gt hlt) (hgoes.unread_lt h hlt) hshort hyields'
    with ⟨hrunStar, hrunPlus⟩
  have hcomes : Comes thunks (some (q', ts ++ us)) (true, C₂, thunks ++ ts ++ us) :=
    ⟨rfl, hcur₂, List.append_assoc ..⟩
  have hall : ∀ s, e.Asks g text start C.cur s → C₂.Has C.cur s := fun s hs =>
    hgoes'.has (hasks s hs)
  constructor
  · exact ⟨_, hrunStar, hcomes, hgoes.trans hgoes', hall⟩
  · exact ⟨_, hrunPlus, hcomes, hgoes.trans hgoes', hall⟩

end Goes

end Jetlang.Lr
