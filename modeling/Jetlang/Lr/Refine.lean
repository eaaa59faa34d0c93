import Jetlang.Lr.Mirror
import Jetlang.Pcc.Observe

/-! # The whole run time refines the plain one

Where the plain run time has a result, so has the whole one, and it is the same.
For the code of bodies the induction is on the body, with one case for each kind of
expression; the application of a rule that has no answer goes through the stack and
the memory, and comes out as if they were not there.
-/

namespace Jetlang.Lr

variable {ρ α : Type} {conv : UInt8 → ℤ} {C C' : Context ρ α} {ctx ctx' : Pcc.Context ρ α}

/-! ## The buffer -/

/-- Refilling does the same to both buffers. -/
theorem refillLoop_spec (conv : UInt8 → ℤ) (hbuffer : C.buffer = ctx.buffer)
    (hauxil : C.auxil = ctx.auxil) (n : ℕ) :
    ∃ buffer auxil, refillLoop conv n C = { C with buffer := buffer, auxil := auxil } ∧
      Pcc.refillLoop conv n ctx = { ctx with buffer := buffer, auxil := auxil } ∧
      ctx.buffer <+: buffer ∧
      buffer.length + auxil.length ≤ ctx.buffer.length + ctx.auxil.length := by
  induction n generalizing C ctx with
  | zero =>
    refine ⟨ctx.buffer, ctx.auxil, ?_, rfl, List.prefix_refl _, Nat.le_refl _⟩
    rw [← hbuffer, ← hauxil]
    rfl
  | succ n ih =>
    cases haux : ctx.auxil with
    | nil =>
      refine ⟨ctx.buffer, [], ?_, ?_, List.prefix_refl _, Nat.le_refl _⟩
      · rw [haux] at hauxil
        have hself : ({ C with buffer := ctx.buffer, auxil := [] } : Context ρ α) = C := by
          rw [← hbuffer, ← hauxil]
        rw [hself, refillLoop, hauxil]
      · have hself : ({ ctx with auxil := [] } : Pcc.Context ρ α) = ctx := by rw [← haux]
        rw [hself, Pcc.refillLoop, haux]
    | cons b w =>
      rw [haux] at hauxil
      by_cases hneg : conv b < 0
      · -- the byte is dropped
        refine ⟨ctx.buffer, w, ?_, ?_, List.prefix_refl _, ?_⟩
        · rw [refillLoop, hauxil, ← hbuffer]
          simp only [if_pos hneg]
        · rw [Pcc.refillLoop, haux]
          simp only [if_pos hneg]
        · rw [List.length_cons]
          omega
      · -- the byte is put behind the buffer
        generalize hc : UInt8.ofNat (conv b).toNat = c
        have hbuffer₁ :
            ({ C with auxil := w, buffer := C.buffer ++ [c] } : Context ρ α).buffer =
              ({ ctx with auxil := w, buffer := ctx.buffer ++ [c] } : Pcc.Context ρ α).buffer := by
          show C.buffer ++ [c] = ctx.buffer ++ [c]
          rw [hbuffer]
        rcases ih hbuffer₁ rfl with ⟨buffer, auxil, hC, hctx, hgrows, hbytes⟩
        refine ⟨buffer, auxil, ?_, ?_, (List.prefix_append _ _).trans hgrows, ?_⟩
        · rw [refillLoop, hauxil]
          simp only [if_neg hneg, hc, hC]
        · rw [Pcc.refillLoop, haux]
          simp only [if_neg hneg, hc, hctx]
        · simp only [List.length_append, List.length_singleton] at hbytes
          rw [List.length_cons]
          omega

/-! ## Answers -/

/-- Writing the position and the chunk of an answer touches no other one. -/
theorem setChunk_spec {c : Option (List (Pcc.Thunk α))} {a : ℕ} (ha : a < C.answers.length)
    (pos : ℕ) :
    ∃ answers, pccLrAnswerSetChunk (C.setAnswerPos a pos) a c = .ok { C with answers := answers } ∧
      answers[a]? = some ⟨.chunk c, pos, some C.answers.length⟩ ∧
      C.answers.length ≤ answers.length ∧
      ∀ i < C.answers.length, i ≠ a → answers[i]? = C.answers[i]? := by
  have hanswer : (C.setAnswerPos a pos).answers[a]? = some { C.answers[a] with pos := pos } := by
    show (C.answers.modify a _)[a]? = _
    rw [List.getElem?_modify_eq, List.getElem?_eq_getElem ha]
    rfl
  have hlen : (C.setAnswerPos a pos).answers.length = C.answers.length := List.length_modify ..
  unfold pccLrAnswerSetChunk
  rw [hanswer]
  refine ⟨_, rfl, ?_, ?_, ?_⟩
  · rw [List.getElem?_set_self, hlen]
    rw [List.length_append, hlen]
    omega
  · rw [List.length_set, List.length_append, hlen]
    omega
  · intro i hi hne
    rw [List.getElem?_set_ne (Ne.symm hne), List.getElem?_append_left (by rwa [hlen])]
    exact List.getElem?_modify_ne _ _ (Ne.symm hne)

/-- Both ask for characters, and find as many. -/
theorem pccRefillBuffer_spec (conv : UInt8 → ℤ) (hcur : C.cur = ctx.cur)
    (hbuffer : C.buffer = ctx.buffer) (hauxil : C.auxil = ctx.auxil) (num : ℕ) :
    ∃ n buffer auxil,
      pccRefillBuffer conv C num = (n, { C with buffer := buffer, auxil := auxil }) ∧
      Pcc.pccRefillBuffer conv ctx num = (n, { ctx with buffer := buffer, auxil := auxil }) ∧
      ctx.buffer <+: buffer ∧
      buffer.length + auxil.length ≤ ctx.buffer.length + ctx.auxil.length := by
  rcases refillLoop_spec conv hbuffer hauxil (ctx.cur + num - ctx.buffer.length)
    with ⟨buffer, auxil, hC, hctx, hgrows, hbytes⟩
  refine ⟨buffer.length - ctx.cur, buffer, auxil, ?_, ?_, hgrows, hbytes⟩
  · unfold pccRefillBuffer
    dsimp only
    rw [hcur, hbuffer, hC]
    dsimp only
    rw [hcur]
  · unfold Pcc.pccRefillBuffer
    dsimp only
    rw [hctx]

variable [DecidableEq ρ]

theorem pccRefillBuffer_follows (conv : UInt8 → ℤ) (h : Mirrors C ctx) (num : ℕ) :
    (pccRefillBuffer conv C num).1 = (Pcc.pccRefillBuffer conv ctx num).1 ∧
      Follows C ctx (pccRefillBuffer conv C num).2 (Pcc.pccRefillBuffer conv ctx num).2 := by
  rcases pccRefillBuffer_spec conv h.cur_eq h.buffer_eq h.auxil_eq num
    with ⟨n, buffer, auxil, hC, hctx, hgrows, hbytes⟩
  rw [hC, hctx]
  exact ⟨rfl, h.input hgrows hbytes⟩

/-! ## Bodies -/

/-- Where the plain step has a result, the whole one has the same. -/
def Refines (P : Pcc.Step ρ α) (Q : Step ρ α) : Prop :=
  ∀ C ctx thunks b ctx' thunks', Mirrors C ctx → P ctx thunks = some (b, ctx', thunks') →
    ∃ C', Q C thunks = .ok (b, C', thunks') ∧ Follows C ctx C' ctx'

section Bodies

variable {P P' : Pcc.Step ρ α} {Q Q' : Step ρ α} {apply : ρ → Option ℕ → Pcc.Step ρ α}
  {apply' : ρ → Option ℕ → Step ρ α} {start : ℕ}

theorem refines_charClass (p : UInt8 → Bool) :
    Refines (Pcc.Parser.charClass conv p apply)
      ((Body.charClass p : Body ρ α).code conv apply' start) := by
  intro C ctx thunks b ctx' thunks' h hrun
  rcases pccRefillBuffer_follows conv h 1 with ⟨hnum, hfollows⟩
  have hcur := hfollows.mirrors.cur_eq
  have hbuffer := hfollows.mirrors.buffer_eq
  unfold Pcc.Parser.charClass at hrun
  unfold Body.code
  dsimp only at hrun ⊢
  rw [hnum]
  split at hrun
  · -- there is no character left
    rename_i hlt
    cases hrun
    exact ⟨_, if_pos hlt, hfollows⟩
  · rename_i hlt
    rw [if_neg hlt, hcur, hbuffer]
    cases hc : (Pcc.pccRefillBuffer conv ctx 1).2.buffer[
        (Pcc.pccRefillBuffer conv ctx 1).2.cur]? with
    | none =>
      rw [hc] at hrun
      cases hrun
    | some c =>
      rw [hc] at hrun
      dsimp only at hrun ⊢
      have hle : (Pcc.pccRefillBuffer conv ctx 1).2.cur + 1 ≤
          (Pcc.pccRefillBuffer conv ctx 1).2.buffer.length :=
        (List.getElem?_eq_some_iff.mp hc).1
      split at hrun
      · rename_i hp
        cases hrun
        exact ⟨_, if_pos hp, hfollows.at hle⟩
      · rename_i hp
        cases hrun
        exact ⟨_, if_neg hp, hfollows⟩

theorem refines_string (s : List UInt8) :
    Refines (Pcc.Parser.string conv s apply)
      ((Body.string s : Body ρ α).code conv apply' start) := by
  intro C ctx thunks b ctx' thunks' h hrun
  rcases pccRefillBuffer_follows conv h s.length with ⟨hnum, hfollows⟩
  have hcur := hfollows.mirrors.cur_eq
  have hbuffer := hfollows.mirrors.buffer_eq
  have hcur_le := hfollows.mirrors.cur_le
  have hsize : (Pcc.pccRefillBuffer conv ctx s.length).1 =
      (Pcc.pccRefillBuffer conv ctx s.length).2.buffer.length -
        (Pcc.pccRefillBuffer conv ctx s.length).2.cur := rfl
  unfold Pcc.Parser.string at hrun
  unfold Body.code
  dsimp only at hrun ⊢
  rw [hnum]
  split at hrun
  · rename_i hlt
    cases hrun
    exact ⟨_, if_pos hlt, hfollows⟩
  · rename_i hlt
    rw [if_neg hlt, hcur, hbuffer]
    split at hrun
    · rename_i hp
      cases hrun
      exact ⟨_, if_pos hp, hfollows.at (by omega)⟩
    · rename_i hp
      cases hrun
      exact ⟨_, if_neg hp, hfollows⟩

/-- A sequence goes on with its second part only after a match of the first one. -/
theorem Refines.seq (hP : Refines P Q) (hP' : Refines P' Q') :
    Refines (fun ctx thunks => match P ctx thunks with
      | some (true, ctx₁, thunks₁) => P' ctx₁ thunks₁
      | r => r)
      (fun ctx thunks => match Q ctx thunks with
      | .ok (true, ctx₁, thunks₁) => Q' ctx₁ thunks₁
      | r => r) := by
  intro C ctx thunks b ctx' thunks' h hrun
  dsimp only at hrun ⊢
  split at hrun
  · rename_i ctx₁ thunks₁ hfirst
    rcases hP C ctx thunks _ _ _ h hfirst with ⟨C₁, hC₁, hfollows₁⟩
    rcases hP' C₁ ctx₁ thunks₁ _ _ _ hfollows₁.mirrors hrun with ⟨C', hC', hfollows'⟩
    refine ⟨C', ?_, hfollows₁.trans hfollows'⟩
    rw [hC₁]
    exact hC'
  · -- the first part fails, and its result is the whole one
    rename_i hnot
    rcases hP C ctx thunks _ _ _ h hrun with ⟨C₁, hC₁, hfollows₁⟩
    refine ⟨C₁, ?_, hfollows₁⟩
    cases b with
    | true => exact absurd hrun (hnot ctx' thunks')
    | false => rw [hC₁]

/-- Both run times go back to the position and the thunks of the start. -/
theorem Refines.alt (hP : Refines P Q) (hP' : Refines P' Q') :
    Refines (fun ctx thunks => match P ctx thunks with
      | some (false, ctx₁, thunks₁) =>
          match P' (ctx₁.at ctx.cur) (thunks₁.take thunks.length) with
          | some (false, ctx₂, thunks₂) =>
              some (false, ctx₂.at ctx.cur, thunks₂.take thunks.length)
          | r => r
      | r => r)
      (fun ctx thunks => match Q ctx thunks with
      | .ok (false, ctx₁, thunks₁) =>
          match Q' (ctx₁.at ctx.cur) (thunks₁.take thunks.length) with
          | .ok (false, ctx₂, thunks₂) =>
              .ok (false, ctx₂.at ctx.cur, thunks₂.take thunks.length)
          | r => r
      | r => r) := by
  intro C ctx thunks b ctx' thunks' h hrun
  dsimp only at hrun ⊢
  split at hrun
  · -- the first alternative fails
    rename_i ctx₁ thunks₁ hfirst
    rcases hP C ctx thunks _ _ _ h hfirst with ⟨C₁, hC₁, hfollows₁⟩
    have hback := hfollows₁.back h
    split at hrun
    · rename_i ctx₂ thunks₂ hsecond
      rcases hP' _ _ _ _ _ _ hback.mirrors hsecond with ⟨C₂, hC₂, hfollows₂⟩
      cases hrun
      refine ⟨_, ?_, (hback.trans hfollows₂).back h⟩
      rw [hC₁]
      simp only [hC₂]
    · rename_i hnot
      rcases hP' _ _ _ _ _ _ hback.mirrors hrun with ⟨C₂, hC₂, hfollows₂⟩
      refine ⟨C₂, ?_, hback.trans hfollows₂⟩
      rw [hC₁]
      cases b with
      | true => simp only [hC₂]
      | false => exact absurd hrun (hnot ctx' thunks')
  · -- the first alternative matches
    rename_i hnot
    rcases hP C ctx thunks _ _ _ h hrun with ⟨C₁, hC₁, hfollows₁⟩
    refine ⟨C₁, ?_, hfollows₁⟩
    rw [hC₁]
    cases b with
    | true => rfl
    | false => exact absurd hrun (hnot ctx' thunks')

/-- The turns of a repetition, and how they are counted. -/
theorem Refines.repeatLoop (hP : Refines P Q) (n i : ℕ) {C : Context ρ α} {ctx : Pcc.Context ρ α}
    {thunks : List (Pcc.Thunk α)} {j : ℕ} {ctx' : Pcc.Context ρ α} {thunks' : List (Pcc.Thunk α)}
    (h : Mirrors C ctx) (hrun : Pcc.repeatLoop P n i ctx thunks = some (j, ctx', thunks')) :
    ∃ C', Lr.repeatLoop Q n i C thunks = .ok (j, C', thunks') ∧ Follows C ctx C' ctx' := by
  induction n generalizing i C ctx thunks with
  | zero => cases hrun
  | succ n ih =>
    rw [Pcc.repeatLoop] at hrun
    rw [Lr.repeatLoop]
    split at hrun
    · rename_i ctx₁ thunks₁ hturn
      rcases hP C ctx thunks _ _ _ h hturn with ⟨C₁, hC₁, hfollows₁⟩
      simp only [hC₁, hfollows₁.mirrors.cur_eq, h.cur_eq]
      split at hrun
      · -- the turn got no further in either
        rename_i hcur
        cases hrun
        exact ⟨C₁, if_pos hcur, hfollows₁⟩
      · rename_i hcur
        split at hrun
        · rename_i hcount
          rcases ih _ hfollows₁.mirrors hrun with ⟨C', hC', hfollows'⟩
          exact ⟨C', by rw [if_neg hcur, if_pos hcount, hC'], hfollows₁.trans hfollows'⟩
        · -- the plain loop has no result where the counter overflows
          cases hrun
    · rename_i ctx₁ thunks₁ hturn
      rcases hP C ctx thunks _ _ _ h hturn with ⟨C₁, hC₁, hfollows₁⟩
      cases hrun
      exact ⟨_, by simp only [hC₁], hfollows₁.back h⟩
    · cases hrun

/-- The same characters are left to read. -/
theorem Mirrors.unread_eq (h : Mirrors C ctx) : C.unread = ctx.unread := by
  unfold Context.unread Pcc.Context.unread
  rw [h.cur_eq, h.buffer_eq, h.auxil_eq]

theorem Refines.star (hP : Refines P Q) :
    Refines (fun ctx thunks => match Pcc.repeatLoop P (ctx.unread.length + 1) 0 ctx thunks with
      | some (_, ctx₁, thunks₁) => some (true, ctx₁, thunks₁)
      | none => none)
      (fun ctx thunks => match Lr.repeatLoop Q (ctx.unread.length + 1) 0 ctx thunks with
      | .ok (_, ctx₁, thunks₁) => .ok (true, ctx₁, thunks₁)
      | .error e => .error e) := by
  intro C ctx thunks b ctx' thunks' h hrun
  dsimp only at hrun ⊢
  split at hrun
  · rename_i i ctx₁ thunks₁ hloop
    rcases hP.repeatLoop _ _ h hloop with ⟨C₁, hC₁, hfollows₁⟩
    cases hrun
    refine ⟨C₁, ?_, hfollows₁⟩
    rw [h.unread_eq, hC₁]
  · cases hrun

theorem Refines.plus (hP : Refines P Q) :
    Refines (fun ctx thunks => match Pcc.repeatLoop P (ctx.unread.length + 1) 0 ctx thunks with
      | some (i, ctx₁, thunks₁) =>
          if i < 1 then
            some (false, ctx₁.at ctx.cur, thunks₁.take thunks.length)
          else
            some (true, ctx₁, thunks₁)
      | none => none)
      (fun ctx thunks => match Lr.repeatLoop Q (ctx.unread.length + 1) 0 ctx thunks with
      | .ok (i, ctx₁, thunks₁) =>
          if i < 1 then
            .ok (false, ctx₁.at ctx.cur, thunks₁.take thunks.length)
          else
            .ok (true, ctx₁, thunks₁)
      | .error e => .error e) := by
  intro C ctx thunks b ctx' thunks' h hrun
  dsimp only at hrun ⊢
  split at hrun
  · rename_i i ctx₁ thunks₁ hloop
    rcases hP.repeatLoop _ _ h hloop with ⟨C₁, hC₁, hfollows₁⟩
    rw [h.unread_eq, hC₁]
    dsimp only
    split at hrun
    · rename_i hi
      cases hrun
      exact ⟨_, if_pos hi, hfollows₁.back h⟩
    · rename_i hi
      cases hrun
      exact ⟨C₁, if_neg hi, hfollows₁⟩
  · cases hrun

/-- The code of a body refines its parser, if the application of rules does. -/
theorem code_refines (happly : ∀ r slot, Refines (apply r slot) (apply' r slot))
    (body : Body ρ α) : Refines (body.parser conv start apply) (body.code conv apply' start) := by
  induction body with
  | charClass p => exact refines_charClass p
  | string s => exact refines_string s
  | seq e f he hf => exact he.seq hf
  | alt e f he hf => exact he.alt hf
  | star e he => exact he.star
  | plus e he => exact he.plus
  | rule r slot => exact happly r slot
  | emit action =>
    intro C ctx thunks b ctx' thunks' h hrun
    cases hrun
    refine ⟨C, ?_, .refl h⟩
    unfold Body.code
    rw [h.cur_eq]

end Bodies

/-! ## Rules -/

section Rules

variable {rule : ρ} {c : Option (List (Pcc.Thunk α))}

/-- An answer stands as long as its object does. -/
theorem Stands.mono {answers answers' : List (LrAnswer α)} {pos : ℕ} {a : Option ℕ}
    {b : Option (Pcc.Answer α)} (h : Stands answers pos a b)
    (hkeep : ∀ i ∈ a, answers'[i]? = answers[i]?) : Stands answers' pos a b := by
  cases h with
  | none => exact .none
  | lr ha => exact .lr ((hkeep _ rfl).trans ha)
  | chunk ha => exact .chunk ((hkeep _ rfl).trans ha)

/-- A rule without an answer has none in memory either. -/
theorem Mirrors.getAnswer_eq_none {q : ℕ} {r : ρ} (h : Mirrors C ctx)
    (hnone : ctx.lrtable q r = none) : pccLrTableGetAnswer C.lrtable (C.pos + q) r = none := by
  have hstands := h.answers q r
  rw [hnone] at hstands
  generalize pccLrTableGetAnswer C.lrtable (C.pos + q) r = a at hstands
  cases hstands
  rfl

/-- While a rule is evaluated it has an answer, and the others have those they had. -/
theorem begin_getAnswer (p i : ℕ) (r : ρ) :
    pccLrTableGetAnswer (C.begin rule p).lrtable i r =
      if i = p ∧ r = rule then some C.answers.length else pccLrTableGetAnswer C.lrtable i r :=
  getAnswer_setAnswer ..

/-- The rule is marked as being evaluated in both tables. -/
theorem Mirrors.begin (h : Mirrors C ctx) :
    Mirrors (C.begin rule (C.pos + C.cur)) (ctx.setAnswer ctx.cur rule .lr) where
  cur_eq := h.cur_eq
  buffer_eq := h.buffer_eq
  auxil_eq := h.auxil_eq
  cur_le := h.cur_le
  answers := by
    intro q r
    rw [begin_getAnswer]
    by_cases hqr : q = ctx.cur ∧ r = rule
    · rcases hqr with ⟨rfl, rfl⟩
      rw [if_pos ⟨by rw [← h.cur_eq]; rfl, rfl⟩, Pcc.setAnswer_same]
      exact .lr (List.getElem?_concat_length ..)
    · -- another pointer, whose answer is where it was
      have hne : ¬ ((C.begin rule (C.pos + C.cur)).pos + q = C.pos + C.cur ∧ r = rule) := by
        rintro ⟨hq, hr⟩
        have hq' : C.pos + q = C.pos + C.cur := hq
        have hcur := h.cur_eq
        exact hqr ⟨by omega, hr⟩
      rw [if_neg hne, Pcc.setAnswer_ne _ _ (by tauto)]
      refine (h.answers q r).mono ?_
      intro i hi
      exact List.getElem?_append_left (h.known _ _ _ hi)
  ends := by
    intro q r c p hp
    by_cases hqr : q = ctx.cur ∧ r = rule
    · rcases hqr with ⟨rfl, rfl⟩
      rw [Pcc.setAnswer_same] at hp
      cases hp
    · rw [Pcc.setAnswer_ne _ _ (by tauto)] at hp
      exact h.ends q r c p hp
  known := by
    intro i r a ha
    rw [begin_getAnswer] at ha
    show a < (C.answers ++ [_]).length
    rw [List.length_append, List.length_singleton]
    split at ha
    · cases ha
      exact Nat.lt_succ_self _
    · exact Nat.lt_succ_of_lt (h.known i r a ha)
  apart := by
    intro i r j s a hi hj
    rw [begin_getAnswer] at hi hj
    split at hi
    · rename_i hir
      cases hi
      split at hj
      · rename_i hjs
        exact ⟨hir.1.trans hjs.1.symm, hir.2.trans hjs.2.symm⟩
      · -- the new answer has an index of its own
        exact absurd (h.known _ _ _ hj) (Nat.lt_irrefl _)
    · split at hj
      · cases hj
        exact absurd (h.known _ _ _ hi) (Nat.lt_irrefl _)
      · exact h.apart i r j s a hi hj
  heads := by
    intro i
    exact (getHead_setAnswer ..).trans (h.heads i)
  entries := by
    intro e he
    rcases List.mem_append.mp he with he | he
    · exact h.entries e he
    · rw [List.mem_singleton.mp he]

/-- An answer gets its chunk. No other pointer leads to it. -/
theorem Mirrors.setChunk (h : Mirrors C ctx) {q a p : ℕ} {answers : List (LrAnswer α)}
    {hold : Option ℕ} (ha : pccLrTableGetAnswer C.lrtable (C.pos + q) rule = some a)
    (hp : p ≤ ctx.buffer.length) (hnew : answers[a]? = some ⟨.chunk c, C.pos + p, hold⟩)
    (hle : C.answers.length ≤ answers.length)
    (hkeep : ∀ i < C.answers.length, i ≠ a → answers[i]? = C.answers[i]?) :
    Mirrors { C with answers := answers } (ctx.setAnswer q rule (.chunk c p)) :=
  { h with
    answers := by
      intro q' r
      show Stands answers C.pos (pccLrTableGetAnswer C.lrtable (C.pos + q') r) _
      by_cases hqr : q' = q ∧ r = rule
      · rcases hqr with ⟨rfl, rfl⟩
        rw [ha, Pcc.setAnswer_same]
        exact .chunk hnew
      · rw [Pcc.setAnswer_ne _ _ (by tauto)]
        refine (h.answers q' r).mono ?_
        intro i hi
        -- a pointer to the same answer would have the same key
        refine hkeep i (h.known _ _ _ hi) ?_
        rintro rfl
        have heq := h.apart _ _ _ _ _ hi ha
        exact hqr ⟨by omega, heq.2⟩
    ends := by
      intro q' r c' p' hp'
      by_cases hqr : q' = q ∧ r = rule
      · rcases hqr with ⟨rfl, rfl⟩
        rw [Pcc.setAnswer_same] at hp'
        cases hp'
        exact hp
      · rw [Pcc.setAnswer_ne _ _ (by tauto)] at hp'
        exact h.ends q' r c' p' hp'
    known := fun i r b hb => Nat.lt_of_lt_of_le (h.known i r b hb) hle
    apart := h.apart
    heads := h.heads
    cur_le := h.cur_le }

/-- The whole evaluation of a rule has the result of the plain one. The event of the
evaluation itself comes first. -/
def EvalRefines (eval : Pcc.Context ρ α → Option (Option (List (Pcc.Thunk α)) × Pcc.Context ρ α))
    (eval' : Eval ρ α) (rule : ρ) : Prop :=
  ∀ C ctx c ctx', Mirrors C ctx → eval ctx = some (c, ctx') →
    ∃ C' event, eval' C = .ok (c, C') ∧ evaluations [event] = [(rule, ctx.cur)] ∧
      Follows { C with debug := C.debug ++ [event] } ctx C' ctx'

/-- The evaluation of a rule is traced before those in its body. -/
theorem Traced.evaluated {p n : ℕ} {a b : Pcc.Answer α} {es : List (ρ × ℕ)}
    (h : Traced (ctx.setAnswer p rule a).lrtable ctx'.lrtable n es)
    (hnew : ctx.lrtable p rule = none) (hp : p ≤ n) :
    Traced ctx.lrtable (ctx'.setAnswer p rule b).lrtable n ((rule, p) :: es) := by
  -- the rule has an answer at the position by now, so it is not evaluated there again
  have hother : ∀ e ∈ es, e.2 ≠ p ∨ e.1 ≠ rule := by
    intro e he
    by_contra hboth
    rw [not_or, not_not, not_not] at hboth
    have hnone := h.new e he
    rw [hboth.1, hboth.2, Pcc.setAnswer_same] at hnone
    cases hnone
  refine ⟨List.nodup_cons.mpr ⟨fun hmem => ?_, h.nodup⟩, ?_, ?_, ?_⟩
  · rcases hother _ hmem with hne | hne
    · exact hne rfl
    · exact hne rfl
  · refine List.forall_mem_cons.mpr ⟨hnew, ?_⟩
    intro e he
    rw [← Pcc.setAnswer_ne ctx a (hother e he)]
    exact h.new e he
  · refine List.forall_mem_cons.mpr ⟨?_, ?_⟩
    · rw [Pcc.setAnswer_same]
      exact Option.some_ne_none _
    · intro e he
      rw [Pcc.setAnswer_ne _ _ (hother e he)]
      exact h.found e he
  · exact List.forall_mem_cons.mpr ⟨hp, h.le⟩

variable {ev : ρ → Pcc.Context ρ α → Option (Option (List (Pcc.Thunk α)) × Pcc.Context ρ α)}
  {ev' : ρ → Eval ρ α}

/-- A rule without an answer is evaluated, and its answer is the chunk it came to.
Nothing in the evaluation has met the rule again. -/
theorem applyNew_refines (heval : EvalRefines (ev rule) (ev' rule) rule) (h : Mirrors C ctx)
    (hnone : ctx.lrtable ctx.cur rule = none) {ctx₁ : Pcc.Context ρ α}
    (hrun : ev rule (ctx.setAnswer ctx.cur rule .lr) = some (c, ctx₁)) :
    ∃ C', applyNew ev' rule (C.pos + C.cur) C = .ok (c, C') ∧
      Follows C ctx C' (ctx₁.setAnswer ctx.cur rule (.chunk c ctx₁.cur)) := by
  rcases heval (C.begin rule (C.pos + C.cur)) _ c ctx₁ h.begin hrun
    with ⟨C₁, event, hC₁, hevent, hfollows⟩
  have hcur := h.cur_eq
  have hpos : C₁.pos = C.pos := hfollows.pos_eq
  have hstack : C₁.lrstack = C.entries.length :: C.lrstack := hfollows.lrstack_eq
  -- the entry is still on the stack, and has met no recursion
  obtain ⟨entry, hentry⟩ : ∃ entry, C₁.entries[C.entries.length]? = some entry := by
    have hle : (C.entries ++ [LrEntry.mk rule none none]).length ≤ C₁.entries.length :=
      hfollows.entries_le
    rw [List.length_append, List.length_singleton] at hle
    exact ⟨_, List.getElem?_eq_getElem hle⟩
  have hhead : entry.head = none :=
    hfollows.mirrors.entries entry (List.mem_of_getElem? hentry)
  -- the pointer to the answer is still in the table
  have ha : pccLrTableGetAnswer C₁.lrtable (C₁.pos + ctx.cur) rule = some C.answers.length := by
    apply hfollows.keeps
    show pccLrTableGetAnswer (C.begin rule (C.pos + C.cur)).lrtable _ _ = _
    rw [begin_getAnswer, if_pos ⟨by omega, rfl⟩]
  obtain ⟨answer, hanswer⟩ : ∃ answer, C₁.answers[C.answers.length]? = some answer :=
    ⟨_, List.getElem?_eq_getElem (hfollows.mirrors.known _ _ _ ha)⟩
  have hlt : C.answers.length < C₁.answers.length := hfollows.mirrors.known _ _ _ ha
  rcases setChunk_spec (C := { C₁ with lrstack := C.lrstack }) (c := c) hlt (C₁.pos + C₁.cur)
    with ⟨answers, hset, hnew, hle, hkeep⟩
  refine ⟨{ C₁ with lrstack := C.lrstack, answers := answers }, ?_, ?_⟩
  · unfold applyNew
    simp only [hC₁, hstack, hentry, hhead]
    rw [hset]
  · rw [hfollows.mirrors.cur_eq] at hnew
    have hmirrors := hfollows.mirrors.setChunk ha hfollows.mirrors.cur_le hnew hle hkeep
    have hcur_le : ctx.cur ≤ ctx₁.buffer.length :=
      Nat.le_trans h.cur_le hfollows.grows.length_le
    rcases hfollows.trace with ⟨es, hes, htraced⟩
    refine ⟨{ hmirrors with }, hpos, hfollows.level_eq, rfl, hfollows.heads_eq, ?_, ?_, ?_,
      hfollows.grows, hfollows.bytes_le, ?_, event :: es, ?_, ?_⟩
    · intro i r b hb
      apply hfollows.keeps
      show pccLrTableGetAnswer (C.begin rule (C.pos + C.cur)).lrtable i r = some b
      rw [begin_getAnswer]
      split
      · rename_i hir
        rw [hir.1, hir.2, hcur, h.getAnswer_eq_none hnone] at hb
        cases hb
      · exact hb
    · exact Nat.le_trans (Nat.le_of_lt hlt) hle
    · exact Nat.le_of_lt (List.getElem?_eq_some_iff.mp hentry).1
    · intro q r hne
      by_cases hqr : q = ctx.cur ∧ r = rule
      · rw [hqr.1, hqr.2, Pcc.setAnswer_same]
        exact Option.some_ne_none _
      · rw [Pcc.setAnswer_ne _ _ (by tauto)]
        apply hfollows.found
        rw [Pcc.setAnswer_ne _ _ (by tauto)]
        exact hne
    · rw [hes, List.append_assoc]
      rfl
    · have hevals : evaluations (event :: es) = (rule, ctx.cur) :: evaluations es := by
        rw [← List.singleton_append, evaluations_append, hevent]
        rfl
      rw [hevals]
      exact htraced.evaluated hnone hcur_le

/-- The application of a rule refines that of the plain run time, if its evaluation
does. -/
theorem applied_refines (heval : EvalRefines (ev rule) (ev' rule) rule) (h : Mirrors C ctx)
    (hrun : Pcc.answer ev rule ctx = some (c, ctx')) :
    ∃ C', applied ev' rule C = .ok (c, C') ∧ Follows C ctx C' ctx' := by
  have hstands := h.answers ctx.cur rule
  have hnogrowth : applyGrowing ev' rule (C.pos + C.cur)
      (pccLrTableGetAnswer C.lrtable (C.pos + C.cur) rule)
      (pccLrTableGetHead C.lrtable (C.pos + C.cur)) C = .ok none := by
    rw [h.heads]
    rfl
  unfold applied
  dsimp only
  rw [hnogrowth]
  unfold Pcc.answer at hrun
  split at hrun
  · cases hrun
  · -- the answer is recalled
    rename_i c₁ q hans
    cases hrun
    have hq := h.ends _ _ _ _ hans
    rw [hans, ← h.cur_eq] at hstands
    generalize pccLrTableGetAnswer C.lrtable (C.pos + C.cur) rule = a at hstands ⊢
    cases hstands with
    | chunk ha =>
      refine ⟨C.at q, ?_, (Follows.refl h).at hq⟩
      dsimp only
      unfold recallAnswer
      rw [ha]
      dsimp only
      rw [Nat.add_sub_cancel_left]
  · rename_i hans
    split at hrun
    · rename_i c₁ ctx₁ hev
      cases hrun
      -- the rule has no answer yet
      have hget : pccLrTableGetAnswer C.lrtable (C.pos + C.cur) rule = none := by
        rw [h.cur_eq]
        exact h.getAnswer_eq_none hans
      rw [hget]
      exact applyNew_refines heval h hans hev
    · cases hrun

/-- The thunk of an applied rule is the same in both. -/
theorem pccApplyRule_refines (heval : ∀ r, EvalRefines (ev r) (ev' r) r) (r : ρ)
    (slot : Option ℕ) : Refines (Pcc.pccApplyRule ev r slot) (pccApplyRule ev' r slot) := by
  intro C ctx thunks b ctx' thunks' h hrun
  unfold Pcc.pccApplyRule at hrun
  unfold pccApplyRule
  split at hrun
  · rename_i c ctx₁ hanswer
    rcases applied_refines (heval r) h hanswer with ⟨C', hC', hfollows⟩
    cases hrun
    exact ⟨C', by rw [hC'], hfollows⟩
  · rename_i ctx₁ hanswer
    rcases applied_refines (heval r) h hanswer with ⟨C', hC', hfollows⟩
    cases hrun
    exact ⟨C', by rw [hC'], hfollows⟩
  · cases hrun

/-- The evaluation of a rule refines that of the plain run time, if the application
of rules does. -/
theorem evaluateRule_refines {body : Body ρ α} {apply : ρ → Option ℕ → Pcc.Step ρ α}
    {apply' : ρ → Option ℕ → Step ρ α}
    (happly : ∀ r slot, Refines (apply r slot) (apply' r slot)) (r : ρ) :
    EvalRefines (fun ctx => Pcc.evaluateBody (body.parser conv ctx.cur) apply ctx)
      (evaluateRule conv body apply' r) r := by
  intro C ctx c ctx' h hrun
  let event : DebugEvent ρ :=
    ⟨.evaluate, r, C.level, C.cur, (C.buffer.drop C.cur).take (C.buffer.length - C.cur)⟩
  let begun : Context ρ α := { C with debug := C.debug ++ [event], level := C.level + 1 }
  have hbegun : Mirrors begun ctx := { h with }
  have hevent : evaluations [event] = [(r, ctx.cur)] := by
    rw [← h.cur_eq]
    rfl
  have hbody : ∀ b thunks, body.parser conv ctx.cur apply ctx [] = some (b, ctx', thunks) →
      ∃ C₁, body.code conv apply' C.cur begun [] = .ok (b, C₁, thunks) ∧
        C₁.level - 1 = C.level ∧
        Follows { C with debug := C.debug ++ [event] } ctx { C₁ with level := C.level } ctx' := by
    intro b thunks hb
    rw [← h.cur_eq] at hb
    rcases code_refines happly body _ _ _ _ _ _ hbegun hb with ⟨C₁, hC₁, hfollows⟩
    -- the calls in the body leave the level as they found it
    have hlevel : C₁.level = C.level + 1 := hfollows.level_eq
    exact ⟨C₁, hC₁, by omega, hfollows.inside (C := { C with debug := C.debug ++ [event] })⟩
  dsimp only at hrun
  unfold Pcc.evaluateBody at hrun
  unfold evaluateRule
  split at hrun
  · rename_i ctx₁ thunks hb
    cases hrun
    rcases hbody _ _ hb with ⟨C₁, hC₁, hlevel, hfollows⟩
    refine ⟨({ C₁ with level := C.level } : Context ρ α).debugged .isMatch r C.cur C₁.cur, event,
      ?_, hevent, hfollows.event DebugKind.noConfusion⟩
    simp only [Context.debugged, begun, event] at hC₁ ⊢
    rw [hC₁]
    simp only [hlevel, if_true]
  · rename_i ctx₁ thunks hb
    cases hrun
    rcases hbody _ _ hb with ⟨C₁, hC₁, hlevel, hfollows⟩
    refine ⟨({ C₁ with level := C.level } : Context ρ α).debugged .noMatch r C.cur C₁.cur, event,
      ?_, hevent, hfollows.event DebugKind.noConfusion⟩
    simp only [Context.debugged, begun, event] at hC₁ ⊢
    rw [hC₁]
    simp only [hlevel, Bool.false_eq_true, if_false]
  · cases hrun

/-- **The whole run time refines the plain one.** The induction is on the depth of
the calls. -/
theorem evaluate_refines (g : ρ → Body ρ α) (fuel : ℕ) (r : ρ) :
    EvalRefines (Pcc.evaluate (plain conv g) fuel r) (evaluate conv g fuel r) r := by
  induction fuel generalizing r with
  | zero =>
    intro C ctx c ctx' _ hrun
    cases hrun
  | succ fuel ih => exact evaluateRule_refines (pccApplyRule_refines ih) r

end Rules

end Jetlang.Lr
