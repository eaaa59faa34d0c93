import Jetlang.Lr.Memo
import Jetlang.Lr.Sound

/-! # The application of a rule, step by step

A rule that has an answer is recalled, and one that has none is evaluated. While it is,
it is on the stack and its answer says so: the context is `Pending`. The tails of the
rule then fail at once, because there is no seed, and what is found is the base. After
that the rule has its first chunk, and the context is `Closed`. If it has no tails that
is its meaning.
-/

namespace Jetlang.Lr

variable {ρ α : Type}

/-- A context is at its position. -/
theorem at_cur (C : Context ρ α) : C.at C.cur = C := rfl

/-! ## Writing an answer -/

section Write

variable {C : Context ρ α} {a : ℕ} {answer : LrAnswer α}

/-- What an answer was is not written to the others. -/
theorem pccLrAnswerSetChunk_ok (ha : C.answers[a]? = some answer)
    (c : Option (List (Pcc.Thunk α))) :
    ∃ answers, pccLrAnswerSetChunk C a c = .ok { C with answers := answers } ∧
      (∀ (i : ℕ) x, i ≠ a → C.answers[i]? = some x → answers[i]? = some x) ∧
      ∃ hold, answers[a]? = some ⟨.chunk c, answer.pos, hold⟩ := by
  have hlt := (List.getElem?_eq_some_iff.mp ha).1
  refine ⟨(C.answers ++ [answer]).set a
    { answer with data := .chunk c, hold := some C.answers.length }, ?_, ?_,
      some C.answers.length, ?_⟩
  · unfold pccLrAnswerSetChunk
    rw [ha]
  · intro i x hne hx
    rw [List.getElem?_set_ne (Ne.symm hne),
      List.getElem?_append_left (List.getElem?_eq_some_iff.mp hx).1, hx]
  · refine List.getElem?_set_self ?_
    rw [List.length_append]
    omega

/-- The other answers stay where they are. -/
theorem setAnswerPos_other (pos : ℕ) {i : ℕ} {x : LrAnswer α} (hne : i ≠ a)
    (hx : C.answers[i]? = some x) : (C.setAnswerPos a pos).answers[i]? = some x := by
  show (C.answers.modify a _)[i]? = _
  rw [List.getElem?_modify_ne _ _ (Ne.symm hne), hx]

end Write

variable [DecidableEq ρ] {g : ρ → Body ρ α} {text : List UInt8}
  {A : List (ℕ × ρ)} {conv : UInt8 → ℤ} {n p q a : ℕ} {r s : ρ}
  {C C₁ C₂ K K' : Context ρ α} {c : Option (List (Pcc.Thunk α))}
  {res : Option (ℕ × List (Pcc.Thunk α))}

/-! ## Rules with answers -/

section Answers

variable {eval : ρ → Eval ρ α} {answer : LrAnswer α} {stack : List ℕ}

/-- Where no recursion grows, or one without rules left, the code goes on as elsewhere. -/
theorem applyGrowing_quiet (eval : ρ → Eval ρ α)
    (h : pccLrTableGetHead C.lrtable p = none ∨ C.Spent p ∧ C.Has p r) :
    applyGrowing eval r p (pccLrTableGetAnswer C.lrtable p r) (pccLrTableGetHead C.lrtable p) C =
      .ok none := by
  rcases h with hnone | ⟨⟨i, head, hi, hhead, heval⟩, a, ha⟩
  · rw [hnone]
    rfl
  · have hremove : pccRuleSetRemove head.eval r = none := by
      rw [heval]
      rfl
    have hsome : ¬ (some a = none ∧ r ≠ head.rule ∧ pccRuleSetIndex head.invol r = none) :=
      fun hnone => nomatch hnone.1
    rw [hi, ha]
    unfold applyGrowing
    dsimp only
    rw [hhead]
    dsimp only
    rw [if_neg hsome, hremove]

/-- Where no recursion grows, or none with rules left, an answer of the table is
recalled. -/
theorem applied_of_answer (hpos : C.pos = 0) (ha : pccLrTableGetAnswer C.lrtable C.cur r = some a)
    (h : pccLrTableGetHead C.lrtable C.cur = none ∨ C.Spent C.cur) :
    applied eval r C = recallAnswer r C.cur a C := by
  have hquiet := applyGrowing_quiet eval (h.imp_right fun hs => ⟨hs, a, ha⟩)
  unfold applied
  rw [hpos, Nat.zero_add]
  dsimp only
  rw [hquiet, ha]

/-- Where no recursion grows a rule without an answer is evaluated. -/
theorem applied_of_none (hpos : C.pos = 0) (ha : pccLrTableGetAnswer C.lrtable C.cur r = none)
    (h : pccLrTableGetHead C.lrtable C.cur = none) :
    applied eval r C = applyNew eval r C.cur C := by
  have hquiet : applyGrowing eval r C.cur (pccLrTableGetAnswer C.lrtable C.cur r) _ C = .ok none :=
    applyGrowing_quiet eval (Or.inl h)
  unfold applied
  rw [hpos, Nat.zero_add]
  dsimp only
  rw [hquiet, ha]

/-- A chunk is recalled as it is, with its end. -/
theorem recallAnswer_chunk (hpos : C.pos = 0) (ha : C.answers[a]? = some answer)
    (hdata : answer.data = .chunk c) : recallAnswer r p a C = .ok (c, C.at answer.pos) := by
  unfold recallAnswer
  rw [ha]
  dsimp only
  rw [hdata, hpos]
  rfl

/-- A rule of which the meaning is known. -/
theorem Knows.applies (h : Knows g text A C) (hmeans : Means g text n (.rule r C.cur) res)
    (hA : (C.cur, r) ∉ A) (ha : pccLrTableGetAnswer C.lrtable C.cur r = some a)
    (hquiet : pccLrTableGetHead C.lrtable C.cur = none ∨ C.Spent C.cur) :
    ∃ q, Applies conv g r C (res.map Prod.snd, C.at q) ∧ q ≤ C.buffer.length ∧
      ∀ x ∈ res, q = x.1 := by
  rcases h.answers _ _ _ ha with ⟨answer, hanswer, hright⟩
  rcases (hright hA).means with ⟨c, m, hdata, hmeans'⟩
  obtain rfl := hmeans.unique hmeans'
  refine ⟨answer.pos, ⟨0, fun fuel _ => ?_⟩, (hright hA).pos_le, ?_⟩
  · rw [applied_of_answer h.pos_eq ha hquiet, recallAnswer_chunk h.pos_eq hanswer hdata]
    cases c with
    | none => rfl
    | some ts => rfl
  · intro x hx
    rcases Option.map_eq_some_iff.mp hx with ⟨ts, -, rfl⟩
    rfl

end Answers

/-! ## Answers that may be written -/

section Writing

variable {answers : List (LrAnswer α)}

/-- An answer that was not there before may be written. -/
theorem Kept.write (h : Kept C C₁) (ha : C.answers[a]? = none)
    (hother : ∀ (i : ℕ) x, i ≠ a → C₁.answers[i]? = some x → answers[i]? = some x) :
    Kept C { C₁ with answers := answers } := by
  refine { h with answers := ?_ }
  intro i x hx
  refine hother i x ?_ (h.answers i x hx)
  rintro rfl
  rw [ha] at hx
  cases hx

/-- So may the one of a rule that is being evaluated. -/
theorem Knows.write (h : Knows g text ((p, r) :: A) C)
    (ha : pccLrTableGetAnswer C.lrtable p r = some a)
    (hother : ∀ (i : ℕ) x, i ≠ a → C.answers[i]? = some x → answers[i]? = some x)
    (hsome : ∃ x, answers[a]? = some x) :
    Knows g text ((p, r) :: A) { C with answers := answers } := by
  refine { h with answers := ?_ }
  intro i s b hb
  by_cases hba : b = a
  · subst hba
    rcases h.apart _ _ _ _ _ hb ha with ⟨rfl, rfl⟩
    rcases hsome with ⟨x, hx⟩
    exact ⟨x, hx, fun hnot => absurd List.mem_cons_self hnot⟩
  · rcases h.answers i s b hb with ⟨answer, hanswer, hright⟩
    exact ⟨answer, hother b answer hba hanswer, hright⟩

/-- The rule has come to its meaning. -/
theorem Knows.settle (h : Knows g text ((p, r) :: A) C)
    (ha : pccLrTableGetAnswer C.lrtable p r = some a) {answer : LrAnswer α}
    (hanswer : C.answers[a]? = some answer)
    (hright : answer.Right g text C.buffer.length p r) : Knows g text A C := by
  refine { h with answers := ?_ }
  intro i s b hb
  rcases h.answers i s b hb with ⟨x, hx, hxright⟩
  refine ⟨x, hx, fun hA => ?_⟩
  by_cases his : (i, s) = (p, r)
  · cases his
    rw [ha] at hb
    cases hb
    rw [hanswer] at hx
    cases hx
    exact hright
  · refine hxright fun hmem => ?_
    rcases List.mem_cons.mp hmem with heq | hmem
    · exact his heq
    · exact hA hmem

end Writing

/-! ## Rules that are being evaluated -/

/-- The rule `r` is being evaluated at `p`, from `C` on. It is on the stack, and its entry
has no seed yet. A recursion it is the head of has no other rules. -/
structure Pending (g : ρ → Body ρ α) (text : List UInt8) (A : List (ℕ × ρ)) (r : ρ) (p : ℕ)
    (C C₁ : Context ρ α) (head : Option ℕ) : Prop where
  kept : Kept C C₁
  knows : Knows g text ((p, r) :: A) C₁
  lrstack_eq : C₁.lrstack = C.entries.length :: C.lrstack
  getHead_eq : ∀ i, pccLrTableGetHead C₁.lrtable i = pccLrTableGetHead C.lrtable i
  answer : pccLrTableGetAnswer C₁.lrtable p r = some C.answers.length
  data : C₁.answers[C.answers.length]? = some ⟨.lr C.entries.length, p, none⟩
  entry : C₁.entries[C.entries.length]? = some ⟨r, none, head⟩
  alone : ∀ h ∈ head, ∃ hold, C₁.heads[h]? = some ⟨r, [], [], hold⟩

/-- The rule has its first chunk. -/
structure Closed (g : ρ → Body ρ α) (text : List UInt8) (A : List (ℕ × ρ)) (r : ρ) (p : ℕ)
    (C K : Context ρ α) (c : Option (List (Pcc.Thunk α))) (q : ℕ) : Prop where
  kept : Kept C K
  knows : Knows g text ((p, r) :: A) K
  lrstack_eq : K.lrstack = C.lrstack
  answer : pccLrTableGetAnswer K.lrtable p r = some C.answers.length
  data : ∃ hold, K.answers[C.answers.length]? = some ⟨.chunk c, q, hold⟩
  pos_le : q ≤ K.buffer.length

section Pending

variable {head : Option ℕ}

/-- A part of the evaluation leaves the entry of the rule on the stack. -/
theorem Pending.goes (h : Pending g text A r p C C₁ head)
    (hgoes : Goes g text ((p, r) :: A) C₁ C₂) : Pending g text A r p C C₂ head where
  kept := h.kept.trans hgoes.toKept
  knows := hgoes.knows
  lrstack_eq := hgoes.lrstack_eq.trans h.lrstack_eq
  getHead_eq := fun i => (hgoes.getHead_eq i).trans (h.getHead_eq i)
  answer := hgoes.table _ _ _ h.answer
  data := hgoes.answers _ _ h.data
  entry := hgoes.entries _ _ h.entry
  alone := by
    intro i hi
    rcases h.alone i hi with ⟨hold, hhead⟩
    exact ⟨hold, hgoes.heads _ _ hhead⟩

/-- The level and the events do not matter. -/
theorem Pending.aside (h : Pending g text A r p C C₁ head) (level : ℕ)
    (debug : List (DebugEvent ρ)) :
    Pending g text A r p C { C₁ with level := level, debug := debug } head :=
  { h with
    kept := { h.kept with }
    knows := { h.knows with } }

/-- The rule is put on the stack. -/
theorem Knows.begin (h : Knows g text A C)
    (hnone : pccLrTableGetAnswer C.lrtable C.cur r = none) :
    Pending g text A r C.cur C (C.begin r C.cur) none := by
  have hold : ∀ i s a, pccLrTableGetAnswer C.lrtable i s = some a →
      ¬ (i = C.cur ∧ s = r) := by
    rintro i s a ha ⟨rfl, rfl⟩
    rw [hnone] at ha
    cases ha
  have hnew : (C.begin r C.cur).answers[C.answers.length]? =
      some ⟨.lr C.entries.length, C.cur, none⟩ := List.getElem?_concat_length
  have hgetAnswer : pccLrTableGetAnswer (C.begin r C.cur).lrtable C.cur r =
      some C.answers.length := by
    rw [begin_getAnswer]
    exact if_pos ⟨rfl, rfl⟩
  refine ⟨⟨Nat.le_refl _, ?_, ?_, ?_, fun _ _ hx => hx⟩, { h with apart := ?_, answers := ?_ }, rfl,
    fun i => getHead_setAnswer .., hgetAnswer, hnew, List.getElem?_concat_length,
    fun _ hi => nomatch hi⟩
  · intro i s a ha
    rw [begin_getAnswer, if_neg (hold i s a ha), ha]
  · exact fun a x hx =>
      (List.getElem?_append_left (List.getElem?_eq_some_iff.mp hx).1).trans hx
  · exact fun e x hx =>
      (List.getElem?_append_left (List.getElem?_eq_some_iff.mp hx).1).trans hx
  · -- the new answer is not one of the others
    have hlt : ∀ i s a, pccLrTableGetAnswer C.lrtable i s = some a → a < C.answers.length := by
      intro i s a ha
      rcases h.answers i s a ha with ⟨x, hx, -⟩
      exact (List.getElem?_eq_some_iff.mp hx).1
    intro i s i' s' a ha ha'
    rw [begin_getAnswer] at ha ha'
    split at ha
    · rename_i hkey
      split at ha'
      · rename_i hkey'
        exact ⟨hkey.1.trans hkey'.1.symm, hkey.2.trans hkey'.2.symm⟩
      · cases ha
        exact absurd (hlt _ _ _ ha') (Nat.lt_irrefl _)
    · split at ha'
      · cases ha'
        exact absurd (hlt _ _ _ ha) (Nat.lt_irrefl _)
      · exact h.apart i s i' s' a ha ha'
  · -- its answer need not be right yet, as it is under evaluation
    intro i s a ha
    rw [begin_getAnswer] at ha
    split at ha
    · rename_i hkey
      cases ha
      exact ⟨_, hnew, fun hnot => absurd (hkey.1 ▸ hkey.2 ▸ List.mem_cons_self) hnot⟩
    · rcases h.answers i s a ha with ⟨x, hx, hright⟩
      exact ⟨x, (List.getElem?_append_left (List.getElem?_eq_some_iff.mp hx).1).trans hx,
        fun hnot => hright fun hA => hnot (List.mem_cons_of_mem _ hA)⟩

/-! ### The tails have no seed -/

/-- Recalling a rule that is being evaluated does no more once it has a head. -/
theorem Pending.again {i : ℕ} (h : Pending g text A r p C C₁ (some i)) (hcur : C₁.cur = p)
    (hnone : pccLrTableGetHead C.lrtable p = none) (eval : ρ → Eval ρ α) :
    applied eval r C₁ = .ok (none, C₁) := by
  subst hcur
  rcases h.alone i rfl with ⟨hold, hhead⟩
  -- the top entry leads to the head already, so no entry is visited
  have hinvolve : involve i C₁.lrstack C₁ = .ok C₁ := by
    rw [h.lrstack_eq]
    unfold involve
    rw [h.entry, hhead]
    exact if_pos rfl
  rw [applied_of_answer h.knows.pos_eq h.answer (Or.inl ((h.getHead_eq _).trans hnone))]
  unfold recallAnswer
  rw [h.data]
  dsimp only
  rw [h.knows.pos_eq, Nat.sub_zero, at_cur, h.entry]
  dsimp only
  rw [hinvolve]

/-- Recalling it for the first time makes the head. The rule is on top of the stack, so no
others are involved. -/
theorem Pending.lead (h : Pending g text A r p C C₁ none) (hcur : C₁.cur = p)
    (hnone : pccLrTableGetHead C.lrtable p = none) :
    ∃ C₂, (∀ eval : ρ → Eval ρ α, applied eval r C₁ = .ok (none, C₂)) ∧
      Pending g text A r p C C₂ (some C₁.heads.length) ∧ C₂.cur = p := by
  subst hcur
  -- a new head, to which the rule's entry leads
  let C₂ : Context ρ α :=
    { (C₁.createHead C₁.cur r).2 with
      entries := (C₁.createHead C₁.cur r).2.entries.set C.entries.length
        ⟨r, none, some (C₁.createHead C₁.cur r).1⟩ }
  have hentry : C₂.entries[C.entries.length]? = some ⟨r, none, some C₁.heads.length⟩ :=
    List.getElem?_set_self (List.getElem?_eq_some_iff.mp h.entry).1
  have hhead : C₂.heads[C₁.heads.length]? =
      some ⟨r, [], [], (C₁.lrtable.entry C₁.cur).bind LrTableEntry.holdH⟩ :=
    List.getElem?_concat_length
  have hinvolve : involve (C₁.createHead C₁.cur r).1 C₂.lrstack C₂ = .ok C₂ := by
    have hhead' : C₂.heads[(C₁.createHead C₁.cur r).1]? = _ := hhead
    have hstack : C₂.lrstack = C.entries.length :: C.lrstack := h.lrstack_eq
    rw [hstack]
    unfold involve
    rw [hentry, hhead']
    exact if_pos rfl
  have hanswer : ∀ i s, pccLrTableGetAnswer C₂.lrtable i s = pccLrTableGetAnswer C₁.lrtable i s :=
    fun i s => getAnswer_modify _ _ _ _ fun _ => rfl
  have hgetHead : ∀ i, pccLrTableGetHead C₂.lrtable i = pccLrTableGetHead C₁.lrtable i :=
    fun i => getHead_modify _ _ _ fun _ => rfl
  refine ⟨C₂, ?_, ⟨{ h.kept with table := ?_, entries := ?_, heads := ?_ },
    { h.knows with apart := ?_, answers := ?_ }, h.lrstack_eq, ?_, ?_, h.data, hentry, ?_⟩, rfl⟩
  · intro eval
    rw [applied_of_answer h.knows.pos_eq h.answer (Or.inl ((h.getHead_eq _).trans hnone))]
    unfold recallAnswer
    rw [h.data]
    dsimp only
    rw [h.knows.pos_eq, Nat.sub_zero, at_cur, h.entry]
    dsimp only [C₂] at hinvolve ⊢
    rw [hinvolve]
  · intro i s a ha
    rw [hanswer]
    exact h.kept.table i s a ha
  · -- the entries and heads there were are kept
    intro i x hx
    have hne : C.entries.length ≠ i := Nat.ne_of_gt (List.getElem?_eq_some_iff.mp hx).1
    exact (List.getElem?_set_ne hne).trans (h.kept.entries i x hx)
  · intro i x hx
    have hx₁ := h.kept.heads i x hx
    exact (List.getElem?_append_left (List.getElem?_eq_some_iff.mp hx₁).1).trans hx₁
  · intro i s i' s' a ha ha'
    rw [hanswer] at ha ha'
    exact h.knows.apart i s i' s' a ha ha'
  · intro i s a ha
    rw [hanswer] at ha
    exact h.knows.answers i s a ha
  · exact fun i => (hgetHead i).trans (h.getHead_eq i)
  · rw [hanswer]
    exact h.answer
  · intro i hi
    cases hi
    exact ⟨_, hhead⟩

/-! ### The base -/

section Base

variable {start : ℕ} {e f : Body ρ α} {thunks : List (Pcc.Thunk α)}
  {x : Bool × Context ρ α × List (Pcc.Thunk α)}

/-- An alternative behind one that fails. -/
theorem yields_alt_of_fail (he : Yields conv g start e C [] (false, C₁, thunks))
    (hf : Yields conv g start f (C₁.at C.cur) [] x) (hcomes : Comes [] res x)
    (hknows : Knows g text A (C₁.at C.cur)) (hgoes : Goes g text A (C₁.at C.cur) x.2.1) :
    ∃ y, Yields conv g start (.alt e f) C [] y ∧ Comes [] res y ∧
      Goes g text A (C₁.at C.cur) y.2.1 ∧ ∀ i s, x.2.1.Has i s → y.2.1.Has i s := by
  cases res with
  | some z =>
    rcases hcomes.some_inv with ⟨C₂, rfl, hcur⟩
    exact ⟨_, he.right hf, ⟨rfl, hcur, rfl⟩, hgoes, fun _ _ => id⟩
  | none =>
    rcases hcomes.none_inv with ⟨C₂, thunks₂, rfl, -⟩
    exact ⟨_, he.noAlt hf, ⟨rfl, rfl⟩, hgoes.back hknows, fun _ _ => id⟩

/-- The code of a body fails at its tails, and finds its base. The induction is on the
tails. -/
theorem Pending.rest {i : ℕ} (h : Pending g text A r p C C₁ (some i)) (hcur : C₁.cur = p)
    (hnone : pccLrTableGetHead C.lrtable p = none) {es : List (Option ℕ × Body ρ α)} :
    ∀ {e : Body ρ α}, (e.split r).1 = es →
      Finds conv g text ((p, r) :: A) p (e.split r).2 C₁ [] res →
      ∃ x, Yields conv g p e C₁ [] x ∧ Comes [] res x ∧ Goes g text ((p, r) :: A) C₁ x.2.1 ∧
        ∀ s, (e.split r).2.Asks g text p p s → x.2.1.Has p s := by
  subst hcur
  induction es with
  | nil =>
    intro e hes hbase
    rwa [Body.split_nil hes] at hbase ⊢
  | cons t es ih =>
    obtain ⟨slot, a⟩ := t
    intro e hes hbase
    rcases Body.split_cons hes with ⟨f, rfl, hes', hsplit⟩
    rw [← hsplit] at hbase ⊢
    rcases ih hes' hbase with ⟨x, hyields, hcomes, hgoes, hasks⟩
    -- a tail applies the rule first, which has no seed
    have hfail : Applies conv g r C₁ (none, C₁) := ⟨0, fun _ _ => h.again rfl hnone _⟩
    rcases yields_alt_of_fail (hfail.yields_fail slot).noSeq hyields hcomes h.knows hgoes
      with ⟨y, hyields', hcomes', hgoes', hhas⟩
    exact ⟨y, hyields', hcomes', hgoes', fun s hs => hhas _ s (hasks s hs)⟩

/-- The first evaluation of a rule finds its base. A head is made if there are tails. -/
theorem Pending.first (h : Pending g text A r p C C₁ none) (hcur : C₁.cur = p)
    (hnone : pccLrTableGetHead C.lrtable p = none)
    (hbase : ∀ T head, Pending g text A r p C T head → T.cur = p →
      Finds conv g text ((p, r) :: A) p ((g r).split r).2 T [] res) :
    ∃ head x, Yields conv g p (g r) C₁ [] x ∧ Comes [] res x ∧
      Pending g text A r p C x.2.1 head ∧ (head = none ↔ ((g r).split r).1 = []) ∧
      ∀ s, ((g r).split r).2.Asks g text p p s → x.2.1.Has p s := by
  subst hcur
  cases hes : ((g r).split r).1 with
  | nil =>
    rcases hbase C₁ none h rfl with ⟨x, hyields, hcomes, hgoes, hasks⟩
    rw [Body.split_nil hes] at hyields
    exact ⟨none, x, hyields, hcomes, h.goes hgoes, by simp, hasks⟩
  | cons t es =>
    obtain ⟨slot, a⟩ := t
    rcases Body.split_cons hes with ⟨f, heq, hes', hsplit⟩
    -- the first tail makes the head, and the others only meet it
    rcases h.lead rfl hnone with ⟨C₂, hrun, hpending, hcur⟩
    have hback : C₂.at C₁.cur = C₂ := by
      rw [← hcur]
      rfl
    have hfinds := hbase C₂ _ hpending hcur
    rw [← hsplit] at hfinds
    rcases hpending.rest hcur hnone hes' hfinds with ⟨x, hyields, hcomes, hgoes, hasks⟩
    rw [← hback] at hyields hgoes
    have hfail : Applies conv g r C₁ (none, C₂) := ⟨0, fun _ _ => hrun _⟩
    have hknows : Knows g text ((C₁.cur, r) :: A) (C₂.at C₁.cur) := by
      rw [hback]
      exact hpending.knows
    rcases yields_alt_of_fail (hfail.yields_fail slot).noSeq hyields hcomes hknows hgoes
      with ⟨y, hyields', hcomes', hgoes', hhas⟩
    rw [← heq] at hyields'
    rw [hback] at hgoes'
    refine ⟨_, y, hyields', hcomes', hpending.goes hgoes', by simp, fun s hs => ?_⟩
    rw [← hsplit] at hs
    exact hhas _ s (hasks s hs)

end Base

/-! ### The end of the first evaluation -/

/-- The rule is taken from the stack, and its answer gets the chunk. -/
theorem Pending.write (h : Pending g text A r p C C₁ head) (c : Option (List (Pcc.Thunk α)))
    (entries : List (LrEntry ρ α))
    (hentries : ∀ (i : ℕ) x, i ≠ C.entries.length → C₁.entries[i]? = some x →
      entries[i]? = some x) :
    ∃ answers, pccLrAnswerSetChunk
        { ({ C₁ with lrstack := C.lrstack } : Context ρ α).setAnswerPos C.answers.length
            (C₁.pos + C₁.cur) with entries := entries } C.answers.length c =
          .ok { C₁ with lrstack := C.lrstack, entries := entries, answers := answers } ∧
      Closed g text A r p C
        { C₁ with lrstack := C.lrstack, entries := entries, answers := answers } c C₁.cur := by
  let S : Context ρ α :=
    { ({ C₁ with lrstack := C.lrstack } : Context ρ α).setAnswerPos C.answers.length
        (C₁.pos + C₁.cur) with entries := entries }
  have hdata : S.answers[C.answers.length]? =
      some ⟨.lr C.entries.length, C₁.pos + C₁.cur, none⟩ :=
    getElem?_setAnswerPos (C := { C₁ with lrstack := C.lrstack }) h.data _
  rcases pccLrAnswerSetChunk_ok hdata c with ⟨answers, hrun, hother, hold, hnew⟩
  have hother' : ∀ (i : ℕ) x, i ≠ C.answers.length → C₁.answers[i]? = some x →
      answers[i]? = some x := fun i x hne hx =>
    hother i x hne (setAnswerPos_other (C := { C₁ with lrstack := C.lrstack }) _ hne hx)
  -- nothing is committed yet, so positions count from the start
  rw [h.knows.pos_eq, Nat.zero_add] at hnew
  have hkept := h.kept.write (List.getElem?_eq_none (Nat.le_refl _)) hother'
  refine ⟨answers, hrun, { hkept with entries := ?_ },
    { h.knows.write h.answer hother' ⟨_, hnew⟩ with }, rfl, h.answer, ⟨hold, hnew⟩, h.knows.cur_le⟩
  intro i x hx
  exact hentries i x (Nat.ne_of_lt (List.getElem?_eq_some_iff.mp hx).1) (h.kept.entries i x hx)

/-- A rule without a head has come to its end. -/
theorem Pending.ends (h : Pending g text A r p C C₁ none) (c : Option (List (Pcc.Thunk α))) :
    ∃ K, (∀ eval : ρ → Eval ρ α, eval r (C.begin r p) = .ok (c, C₁) →
        applyNew eval r p C = .ok (c, K)) ∧
      Closed g text A r p C K c C₁.cur ∧ K.cur = C₁.cur ∧ K.lrtable = C₁.lrtable := by
  rcases h.write c C₁.entries (fun _ _ _ hx => hx) with ⟨answers, hrun, hclosed⟩
  refine ⟨_, fun eval heval => ?_, hclosed, rfl, rfl⟩
  have hchunk : pccLrAnswerSetChunk
      (({ C₁ with lrstack := C.lrstack } : Context ρ α).setAnswerPos C.answers.length
        (C₁.pos + C₁.cur)) C.answers.length c =
      .ok { C₁ with lrstack := C.lrstack, answers := answers } := hrun
  unfold applyNew
  dsimp only
  rw [heval]
  dsimp only
  rw [h.lrstack_eq, h.entry]
  dsimp only
  rw [hchunk]

/-- A rule with a head has its first chunk. If it has failed that is the end, and else the
recursion grows. -/
theorem Pending.recurs {i : ℕ} (h : Pending g text A r p C C₁ (some i))
    (c : Option (List (Pcc.Thunk α))) :
    ∃ K, Closed g text A r p C K c C₁.cur ∧ K.lrtable = C₁.lrtable ∧ K.heads = C₁.heads ∧
      ∀ eval : ρ → Eval ρ α, eval r (C.begin r p) = .ok (c, C₁) →
        (c = none → applyNew eval r p C = .ok (none, K)) ∧
        ∀ G c' q hold, c ≠ none →
          growLoop eval r p C.answers.length i (K.buffer.length + K.auxil.length + 1)
            { K with lrtable := pccLrTableSetHead K.lrtable p (some i) } = .ok G →
          G.answers[C.answers.length]? = some ⟨.chunk c', q, hold⟩ →
          applyNew eval r p C =
            .ok (c', { G with
              lrtable := pccLrTableSetHead G.lrtable p none, cur := q - G.pos }) := by
  rcases h.alone i rfl with ⟨hold, hhead⟩
  rcases h.write c (C₁.entries.set C.entries.length ⟨r, c, some i⟩)
    (fun j x hne hx => (List.getElem?_set_ne (Ne.symm hne)).trans hx) with ⟨answers, hrun, hclosed⟩
  have hnew : ∀ eval : ρ → Eval ρ α, eval r (C.begin r p) = .ok (c, C₁) →
      applyNew eval r p C = applyRecursive eval r p C.answers.length C.entries.length i c
        (({ C₁ with lrstack := C.lrstack } : Context ρ α).setAnswerPos C.answers.length
          (C₁.pos + C₁.cur)) := by
    intro eval heval
    unfold applyNew
    dsimp only
    rw [heval]
    dsimp only
    rw [h.lrstack_eq, h.entry]
  have hentry : (({ C₁ with lrstack := C.lrstack } : Context ρ α).setAnswerPos C.answers.length
      (C₁.pos + C₁.cur)).entries[C.entries.length]? = some ⟨r, none, some i⟩ := h.entry
  have hhead' : (({ C₁ with lrstack := C.lrstack } : Context ρ α).setAnswerPos C.answers.length
      (C₁.pos + C₁.cur)).heads[i]? = some ⟨r, [], [], hold⟩ := hhead
  -- the head is the rule's own, so the recursion begins here
  have hself : ¬ (r ≠ r) := fun hne => hne rfl
  refine ⟨_, hclosed, rfl, rfl, fun eval heval => ⟨?_, ?_⟩⟩
  · rintro rfl
    rw [hnew eval heval]
    unfold applyRecursive
    rw [hentry, hhead']
    dsimp only
    rw [if_neg hself]
    dsimp only [Context.setAnswerPos] at hrun ⊢
    rw [hrun]
    exact if_pos rfl
  · intro G c' q hold' hc hgrow hdata
    rw [hnew eval heval]
    unfold applyRecursive
    rw [hentry, hhead']
    dsimp only
    rw [if_neg hself]
    dsimp only [Context.setAnswerPos] at hrun ⊢
    rw [hrun]
    dsimp only
    rw [if_neg hc]
    dsimp only at hgrow
    rw [hgrow]
    dsimp only
    rw [hdata]
    rfl

end Pending

end Jetlang.Lr
