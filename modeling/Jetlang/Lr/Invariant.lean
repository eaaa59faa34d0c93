import Jetlang.Lr.Apply

/-! # Invariants of runs

The run time changes a context in a few ways. What each of them keeps is kept by the
application of a rule, whatever the grammar is.
-/

namespace Jetlang.Lr

variable {ρ α : Type} [DecidableEq ρ]

/-- All changes of a context keep `I`. Chunks are only given to the answers from number
`b` on. -/
structure Invariant (b : ℕ) (I : Context ρ α → Prop) : Prop where
  le_length : ∀ {C}, I C → b ≤ C.answers.length
  moved : ∀ {C}, I C → ∀ cur level buffer auxil stack debug,
    I { C with
      cur := cur, level := level, buffer := buffer, auxil := auxil, lrstack := stack,
      debug := debug }
  setEntry : ∀ {C}, I C → ∀ e entry, I { C with entries := C.entries.set e entry }
  setHead : ∀ {C h head head'}, I C → C.heads[h]? = some head → head'.hold = head.hold →
    I { C with heads := C.heads.set h head' }
  setTableHead : ∀ {C}, I C → ∀ p head,
    I { C with lrtable := pccLrTableSetHead C.lrtable p head }
  setAnswerPos : ∀ {C}, I C → ∀ a pos, I (C.setAnswerPos a pos)
  begin : ∀ {C}, I C → ∀ r p, pccLrTableGetAnswer C.lrtable p r = none → I (C.begin r p)
  createHead : ∀ {C}, I C → ∀ p r, I (C.createHead p r).2
  keepAnswer : ∀ {C}, I C → ∀ p c pos,
    I ((pccLrAnswerCreate C (.chunk c) pos).2.holdAnswer p C.answers.length)
  setChunk : ∀ {C C' a c}, I C → b ≤ a → pccLrAnswerSetChunk C a c = .ok C' → I C'

/-- A part of the code of a rule keeps `I`. -/
def KeepsStep (I : Context ρ α → Prop) (P : Step ρ α) : Prop :=
  ∀ C thunks, I C → ∀ x, P C thunks = .ok x → I x.2.1

/-- The evaluation of a rule keeps `I`. -/
def KeepsEval (I : Context ρ α → Prop) (eval : Eval ρ α) : Prop :=
  ∀ C, I C → ∀ y, eval C = .ok y → I y.2

section Invariant

variable {b : ℕ} {I : Context ρ α → Prop} (hI : Invariant b I)

include hI

/-- The position alone is moved. -/
theorem Invariant.at {C : Context ρ α} (h : I C) (p : ℕ) : I (C.at p) :=
  hI.moved h p _ _ _ _ _

/-! ## Bodies -/

section Bodies

variable {conv : UInt8 → ℤ} {start : ℕ} {C : Context ρ α} {P : Step ρ α}
  {apply : ρ → Option ℕ → Step ρ α}

/-- Reading moves characters and writes no object. -/
theorem refillLoop_keeps (n : ℕ) : ∀ {C : Context ρ α}, I C → I (refillLoop conv n C) := by
  induction n with
  | zero => exact fun h => h
  | succ n ih =>
    intro C h
    unfold refillLoop
    cases C.auxil with
    | nil => exact h
    | cons c auxil =>
      dsimp only
      split
      · exact hI.moved h _ _ _ auxil _ _
      · exact ih (hI.moved h _ _ _ auxil _ _)

theorem Invariant.refill (h : I C) (num : ℕ) : I (pccRefillBuffer conv C num).2 :=
  refillLoop_keeps hI _ h

/-- A loop keeps what its turns keep. -/
theorem repeatLoop_keeps (hP : KeepsStep I P) (n : ℕ) :
    ∀ {i C thunks}, I C → ∀ x, repeatLoop P n i C thunks = .ok x → I x.2.1 := by
  induction n with
  | zero => exact fun _ x hx => by cases hx
  | succ n ih =>
    intro i C thunks h x hx
    unfold repeatLoop at hx
    cases hrun : P C thunks with
    | error e =>
      rw [hrun] at hx
      cases hx
    | ok y =>
      obtain ⟨b, C₁, thunks₁⟩ := y
      have h₁ := hP C thunks h _ hrun
      rw [hrun] at hx
      cases b with
      | true =>
        dsimp only at hx
        split at hx
        · -- the turn got no further, and is the last one
          cases hx
          exact h₁
        · split at hx
          · exact ih h₁ x hx
          · cases hx
      | false =>
        -- a turn that fails is undone
        cases hx
        exact hI.at h₁ C.cur

/-- The code of a body keeps what the application of rules keeps. The induction is on
the body. -/
theorem code_keeps (happly : ∀ r slot, KeepsStep I (apply r slot)) (e : Body ρ α) :
    KeepsStep I (e.code conv apply start) := by
  induction e with
  | charClass p =>
    intro C thunks h x hx
    have h₁ : I (pccRefillBuffer conv C 1).2 := hI.refill h 1
    unfold Body.code at hx
    dsimp only at hx
    split at hx
    · cases hx
      exact h₁
    · cases hc : (pccRefillBuffer conv C 1).2.buffer[(pccRefillBuffer conv C 1).2.cur]? with
      | none =>
        rw [hc] at hx
        cases hx
      | some c =>
        rw [hc] at hx
        dsimp only at hx
        split at hx
        · cases hx
          exact hI.at h₁ _
        · cases hx
          exact h₁
  | string s =>
    intro C thunks h x hx
    have h₁ : I (pccRefillBuffer conv C s.length).2 := hI.refill h s.length
    unfold Body.code at hx
    dsimp only at hx
    split at hx
    · cases hx
      exact h₁
    · split at hx
      · cases hx
        exact hI.at h₁ _
      · cases hx
        exact h₁
  | seq e f ihe ihf =>
    intro C thunks h x hx
    unfold Body.code at hx
    cases hrun : e.code conv apply start C thunks with
    | error err =>
      rw [hrun] at hx
      cases hx
    | ok y =>
      obtain ⟨b, C₁, thunks₁⟩ := y
      have h₁ := ihe C thunks h _ hrun
      rw [hrun] at hx
      cases b with
      | true => exact ihf C₁ thunks₁ h₁ x hx
      | false =>
        cases hx
        exact h₁
  | alt e f ihe ihf =>
    intro C thunks h x hx
    unfold Body.code at hx
    cases hrun : e.code conv apply start C thunks with
    | error err =>
      rw [hrun] at hx
      cases hx
    | ok y =>
      obtain ⟨b, C₁, thunks₁⟩ := y
      have h₁ := ihe C thunks h _ hrun
      rw [hrun] at hx
      cases b with
      | true =>
        cases hx
        exact h₁
      | false =>
        dsimp only at hx
        cases hrun' : f.code conv apply start (C₁.at C.cur) (thunks₁.take thunks.length) with
        | error err =>
          rw [hrun'] at hx
          cases hx
        | ok z =>
          obtain ⟨b', C₂, thunks₂⟩ := z
          -- the second alternative begins where the first one did
          have h₂ := ihf _ _ (hI.at h₁ C.cur) _ hrun'
          rw [hrun'] at hx
          cases b' with
          | true =>
            cases hx
            exact h₂
          | false =>
            cases hx
            exact hI.at h₂ C.cur
  | star e ih =>
    intro C thunks h x hx
    unfold Body.code at hx
    split at hx
    · rename_i hrun
      cases hx
      exact repeatLoop_keeps hI ih _ h _ hrun
    · cases hx
  | plus e ih =>
    intro C thunks h x hx
    unfold Body.code at hx
    cases hrun : repeatLoop (e.code conv apply start) (C.unread.length + 1) 0 C thunks with
    | error err =>
      rw [hrun] at hx
      cases hx
    | ok y =>
      obtain ⟨i, C₁, thunks₁⟩ := y
      have h₁ := repeatLoop_keeps hI ih _ h _ hrun
      rw [hrun] at hx
      dsimp only at hx
      split at hx
      · cases hx
        exact hI.at h₁ C.cur
      · cases hx
        exact h₁
  | rule r slot => exact fun C thunks h x hx => happly r slot C thunks h x hx
  | emit action =>
    intro C thunks h x hx
    cases hx
    exact h

end Bodies

/-! ## Rules -/

section Rules

variable {eval : ρ → Eval ρ α} (heval : ∀ r, KeepsEval I (eval r)) {C : Context ρ α} {r : ρ}
  {p a i : ℕ}

/-- A new answer that its position holds. -/
theorem Invariant.held {c : Option (List (Pcc.Thunk α))} (h : I C) (p : ℕ) :
    I ((pccLrAnswerCreate C (.chunk c) (C.pos + C.cur)).2.holdAnswer p
      (pccLrAnswerCreate C (.chunk c) (C.pos + C.cur)).1) :=
  hI.keepAnswer h p c _

/-- Involving the rules on the stack writes entries, and the rules of one head. -/
theorem involve_keeps : ∀ (stack : List ℕ) {C : Context ρ α}, I C →
    ∀ C', involve i stack C = .ok C' → I C'
  | [], _, h, C', hC' => by
    cases hC'
    exact h
  | e :: stack, C, h, C', hC' => by
    unfold involve at hC'
    cases hentry : C.entries[e]? with
    | none =>
      rw [hentry] at hC'
      cases hC'
    | some entry =>
      cases hhead : C.heads[i]? with
      | none =>
        rw [hentry, hhead] at hC'
        cases hC'
      | some head =>
        rw [hentry, hhead] at hC'
        dsimp only at hC'
        split at hC'
        · cases hC'
          exact h
        · -- the entry leads to the head, and the head to its rule
          have h₁ := hI.setEntry h e { entry with head := some i }
          have h₂ : I { C with
              entries := C.entries.set e { entry with head := some i }
              heads := C.heads.set i
                { head with invol := pccRuleSetAdd head.invol entry.rule } } :=
            hI.setHead h₁ hhead rfl
          exact involve_keeps stack h₂ C' hC'

/-- Recalling an answer may make a head, and writes no chunk. -/
theorem recallAnswer_keeps (r : ρ) (p a : ℕ) : KeepsEval I (recallAnswer r p a) := by
  intro C h y hy
  unfold recallAnswer at hy
  cases hanswer : C.answers[a]? with
  | none =>
    rw [hanswer] at hy
    cases hy
  | some answer =>
    have h₁ := hI.at h (answer.pos - C.pos)
    rw [hanswer] at hy
    dsimp only at hy
    cases hdata : answer.data with
    | chunk c =>
      rw [hdata] at hy
      cases hy
      exact h₁
    | lr e =>
      rw [hdata] at hy
      dsimp only at hy
      cases hentry : (C.at (answer.pos - C.pos)).entries[e]? with
      | none =>
        rw [hentry] at hy
        cases hy
      | some entry =>
        rw [hentry] at hy
        dsimp only at hy
        cases hhead : entry.head with
        | some j =>
          rw [hhead] at hy
          dsimp only at hy
          split at hy
          · rename_i C₁ hrun
            cases hy
            exact involve_keeps hI _ h₁ C₁ hrun
          · cases hy
        | none =>
          rw [hhead] at hy
          dsimp only at hy
          -- the entry has no head yet: one is made
          have h₂ := hI.setEntry (hI.createHead h₁ p r) e
            { entry with head := some ((C.at (answer.pos - C.pos)).createHead p r).1 }
          split at hy
          · rename_i C₁ hrun
            cases hy
            exact involve_keeps hI _ h₂ C₁ hrun
          · cases hy

include heval

/-- Where a recursion grows, at most the rules left to its head are written, and an
answer is held. -/
theorem applyGrowing_keeps (h : I C) {ha hh : Option ℕ} :
    ∀ y, applyGrowing eval r p ha hh C = .ok (some y) → I y.2 := by
  intro y hy
  unfold applyGrowing at hy
  cases hh with
  | none => cases hy
  | some i =>
    dsimp only at hy
    cases hhead : C.heads[i]? with
    | none =>
      rw [hhead] at hy
      cases hy
    | some head =>
      rw [hhead] at hy
      dsimp only at hy
      split at hy
      · cases hy
        exact h
      · cases hset : pccRuleSetRemove head.eval r with
        | none =>
          rw [hset] at hy
          cases hy
        | some set =>
          rw [hset] at hy
          dsimp only at hy
          -- the rule is taken from those left, and evaluated once
          have h₁ : I { C with heads := C.heads.set i { head with eval := set } } :=
            hI.setHead h hhead rfl
          split at hy
          · rename_i c C₁ hrun
            cases hy
            exact hI.held (heval r _ h₁ _ hrun) p
          · cases hy

/-- The growth writes one answer, which is not among the first `b`. -/
theorem growLoop_keeps (hb : b ≤ a) (n : ℕ) :
    ∀ {C : Context ρ α}, I C → ∀ C', growLoop eval r p a i n C = .ok C' → I C' := by
  induction n with
  | zero => exact fun _ C' hC' => by cases hC'
  | succ n ih =>
    intro C h C' hC'
    unfold growLoop at hC'
    cases hhead : C.heads[i]? with
    | none =>
      rw [hhead] at hC'
      cases hC'
    | some head =>
      rw [hhead] at hC'
      dsimp only at hC'
      -- each turn has all involved rules to evaluate again
      have h₁ : I { C.at (p - C.pos) with
          heads := (C.at (p - C.pos)).heads.set i
            { head with eval := pccRuleSetCopy head.invol } } :=
        hI.setHead (hI.at h (p - C.pos)) hhead rfl
      split at hC'
      · rename_i c C₁ hrun
        have h₂ := heval r _ h₁ _ hrun
        cases hanswer : C₁.answers[a]? with
        | none =>
          rw [hanswer] at hC'
          cases hC'
        | some answer =>
          rw [hanswer] at hC'
          dsimp only at hC'
          split at hC'
          · cases hC'
            exact h₂
          · -- it got further: the answer gets the chunk and the position
            cases hchunk : pccLrAnswerSetChunk C₁ a c with
            | error err =>
              rw [hchunk] at hC'
              cases hC'
            | ok C₂ =>
              rw [hchunk] at hC'
              exact ih (hI.setAnswerPos (hI.setChunk h₂ hb hchunk) a _) C' hC'
      · cases hC'

/-- So does what comes after the evaluation of a rule that was met again. -/
theorem applyRecursive_keeps (hb : b ≤ a) {e : ℕ} {c : Option (List (Pcc.Thunk α))} :
    KeepsEval I (applyRecursive eval r p a e i c) := by
  intro C h y hy
  unfold applyRecursive at hy
  cases hentry : C.entries[e]? with
  | none =>
    rw [hentry] at hy
    cases hy
  | some entry =>
    cases hhead : C.heads[i]? with
    | none =>
      rw [hentry, hhead] at hy
      cases hy
    | some head =>
      rw [hentry, hhead] at hy
      dsimp only at hy
      have h₁ := hI.setEntry h e { entry with seed := c }
      split at hy
      · -- the head is another rule's: the seed is handed on as a held answer
        cases hy
        exact hI.held h₁ p
      · split at hy
        · rename_i C₂ hchunk
          have h₂ := hI.setChunk h₁ hb hchunk
          split at hy
          · cases hy
            exact h₂
          · -- the head stands in the table as long as the recursion grows
            have h₃ := hI.setTableHead h₂ p (some i)
            split at hy
            · rename_i C₃ hgrow
              have h₄ := hI.setTableHead (growLoop_keeps hI heval hb _ h₃ C₃ hgrow) p none
              cases hanswer : C₃.answers[a]? with
              | none =>
                rw [hanswer] at hy
                cases hy
              | some answer =>
                rw [hanswer] at hy
                dsimp only at hy
                cases hdata : answer.data with
                | lr e' =>
                  rw [hdata] at hy
                  cases hy
                | chunk c' =>
                  rw [hdata] at hy
                  cases hy
                  exact hI.at h₄ _
            · cases hy
        · cases hy

/-- A new answer is the last one, so it may be given a chunk. -/
theorem applyNew_keeps (h : I C) (hnone : pccLrTableGetAnswer C.lrtable p r = none) :
    ∀ y, applyNew eval r p C = .ok y → I y.2 := by
  intro y hy
  have hb : b ≤ C.answers.length := hI.le_length h
  unfold applyNew at hy
  dsimp only at hy
  split at hy
  · rename_i c C₁ hrun
    have h₁ := heval r _ (hI.begin h r p hnone) _ hrun
    cases hstack : C₁.lrstack with
    | nil =>
      rw [hstack] at hy
      cases hy
    | cons top stack =>
      cases hentry : C₁.entries[C.entries.length]? with
      | none =>
        rw [hstack, hentry] at hy
        cases hy
      | some entry =>
        rw [hstack, hentry] at hy
        dsimp only at hy
        -- the entry is taken from the stack
        have h₂ : I (({ C₁ with lrstack := stack } : Context ρ α).setAnswerPos C.answers.length
            (C₁.pos + C₁.cur)) := hI.setAnswerPos (hI.moved h₁ _ _ _ _ stack _) _ _
        cases hhead : entry.head with
        | some j =>
          rw [hhead] at hy
          exact applyRecursive_keeps hI heval hb _ h₂ y hy
        | none =>
          rw [hhead] at hy
          dsimp only at hy
          split at hy
          · rename_i C₂ hchunk
            cases hy
            exact hI.setChunk h₂ hb hchunk
          · cases hy
  · cases hy

theorem applied_keeps (r : ρ) : KeepsEval I (applied eval r) := by
  intro C h y hy
  unfold applied at hy
  dsimp only at hy
  cases hgrow : applyGrowing eval r (C.pos + C.cur)
      (pccLrTableGetAnswer C.lrtable (C.pos + C.cur) r)
      (pccLrTableGetHead C.lrtable (C.pos + C.cur)) C with
  | error err =>
    rw [hgrow] at hy
    cases hy
  | ok z =>
    rw [hgrow] at hy
    cases z with
    | some z =>
      cases hy
      exact applyGrowing_keeps hI heval h y hgrow
    | none =>
      -- nothing grows here: an answer is recalled, or made
      cases ha : pccLrTableGetAnswer C.lrtable (C.pos + C.cur) r with
      | some a =>
        rw [ha] at hy
        exact recallAnswer_keeps hI r _ a C h y hy
      | none =>
        rw [ha] at hy
        exact applyNew_keeps hI heval h ha y hy

theorem pccApplyRule_keeps (r : ρ) (slot : Option ℕ) :
    KeepsStep I (pccApplyRule eval r slot) := by
  intro C thunks h x hx
  unfold pccApplyRule at hx
  cases hrun : applied eval r C with
  | error err =>
    rw [hrun] at hx
    cases hx
  | ok y =>
    obtain ⟨c, C₁⟩ := y
    have h₁ := applied_keeps hI heval r C h _ hrun
    rw [hrun] at hx
    cases c with
    | none =>
      cases hx
      exact h₁
    | some c =>
      cases hx
      exact h₁

end Rules

/-- The code around a body writes the level and the events. -/
theorem evaluateRule_keeps {conv : UInt8 → ℤ} {apply : ρ → Option ℕ → Step ρ α}
    (happly : ∀ r slot, KeepsStep I (apply r slot)) (body : Body ρ α) (r : ρ) :
    KeepsEval I (evaluateRule conv body apply r) := by
  intro C h y hy
  unfold evaluateRule at hy
  simp only [Context.debugged] at hy
  split at hy
  · rename_i b C₁ thunks hrun
    have h₁ := code_keeps hI happly body _ [] (hI.moved h _ _ _ _ _ _) _ hrun
    split at hy
    · cases hy
      exact hI.moved h₁ _ _ _ _ _ _
    · cases hy
      exact hI.moved h₁ _ _ _ _ _ _
  · cases hy

/-- **The evaluation of a rule keeps every invariant**, whatever the grammar is. -/
theorem evaluate_keeps (conv : UInt8 → ℤ) (g : ρ → Body ρ α) (fuel : ℕ) (r : ρ) :
    KeepsEval I (evaluate conv g fuel r) := by
  induction fuel generalizing r with
  | zero => exact fun C _ y hy => by cases hy
  | succ fuel ih =>
    exact evaluateRule_keeps hI (fun s slot => pccApplyRule_keeps hI ih s slot) (g r) r

end Invariant

end Jetlang.Lr
