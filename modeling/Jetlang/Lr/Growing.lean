import Jetlang.Lr.Pending

/-! # The growth of a left recursion

A rule whose base has matched has its first chunk as a seed. It is evaluated again and
again: its tails recall the seed and go on behind it, and what they match is the next
seed, as long as it is longer. So each turn adds one tail. Where no tail matches the
base does, as in the first evaluation, and that is not longer than any seed.

The rules that the base applies have answers from the first evaluation. So none of them
is applied while the recursion grows at their position, where they would fail.
-/

namespace Jetlang.Lr

variable {ρ α : Type} [DecidableEq ρ] {g : ρ → Body ρ α} {text : List UInt8}
  {A : List (ℕ × ρ)} {conv : UInt8 → ℤ} {i k m n p q a : ℕ} {r : ρ}
  {C C₁ G K : Context ρ α} {c : Option (List (Pcc.Thunk α))} {ts : List (Pcc.Thunk α)}
  {b : ℕ × List (Pcc.Thunk α)} {res : Option (ℕ × List (Pcc.Thunk α))}

/-! ## Rules with a chunk -/

/-- A part of a run in which the rule is still being evaluated changes nothing of this. -/
theorem Closed.goes (h : Closed g text A r p C K c q) (hgoes : Goes g text ((p, r) :: A) K G) :
    Closed g text A r p C G c q where
  kept := h.kept.trans hgoes.toKept
  knows := hgoes.knows
  lrstack_eq := hgoes.lrstack_eq.trans h.lrstack_eq
  answer := hgoes.table _ _ _ h.answer
  data := by
    rcases h.data with ⟨hold, hdata⟩
    exact ⟨hold, hgoes.answers _ _ hdata⟩
  pos_le := Nat.le_trans h.pos_le hgoes.length_le

/-- Another chunk is written to its answer. -/
theorem Closed.write (h : Closed g text A r p C K c q) {answers : List (LrAnswer α)}
    {c' : Option (List (Pcc.Thunk α))} {q' : ℕ} {hold : Option ℕ}
    (hother : ∀ (i : ℕ) x, i ≠ C.answers.length → K.answers[i]? = some x → answers[i]? = some x)
    (hnew : answers[C.answers.length]? = some ⟨.chunk c', q', hold⟩) (hle : q' ≤ K.buffer.length) :
    Closed g text A r p C { K with answers := answers } c' q' where
  kept := h.kept.write (List.getElem?_eq_none (Nat.le_refl _)) hother
  knows := h.knows.write h.answer hother ⟨_, hnew⟩
  lrstack_eq := h.lrstack_eq
  answer := h.answer
  data := ⟨hold, hnew⟩
  pos_le := hle

/-- The chunk of the rule is its meaning. -/
theorem Closed.settle (h : Closed g text A r p C K c q)
    (hhead : ∀ j, pccLrTableGetHead K.lrtable j = pccLrTableGetHead C.lrtable j)
    (hmeans : Means g text n (.rule r p) (c.map fun ts => (q, ts))) :
    Goes g text A C K ∧ K.Has p r := by
  rcases h.data with ⟨hold, hdata⟩
  have hright : LrAnswer.Right g text K.buffer.length p r ⟨.chunk c, q, hold⟩ :=
    ⟨h.pos_le, c, n, rfl, hmeans⟩
  exact ⟨{ h.kept with
    knows := h.knows.settle h.answer hdata hright
    lrstack_eq := h.lrstack_eq
    getHead_eq := hhead }, _, h.answer⟩

/-! ## Recursions that grow -/

/-- The recursion of `r` grows at `p`, and its seed ends at `q`. -/
structure Growing (g : ρ → Body ρ α) (text : List UInt8) (A : List (ℕ × ρ)) (r : ρ) (p i : ℕ)
    (C G : Context ρ α) (ts : List (Pcc.Thunk α)) (q : ℕ) : Prop where
  closed : Closed g text A r p C G (some ts) q
  getHead_eq : ∀ j, pccLrTableGetHead G.lrtable j =
    if j = p then some i else pccLrTableGetHead C.lrtable j
  alone : ∃ hold, G.heads[i]? = some ⟨r, [], [], hold⟩
  ran : ∀ s, ((g r).split r).2.Asks g text p p s → G.Has p s

/-- What has a meaning of depth `m` finds it. -/
def Found (conv : UInt8 → ℤ) (g : ρ → Body ρ α) (text : List UInt8) (m : ℕ) : Prop :=
  ∀ (A : List (ℕ × ρ)) (start : ℕ) (e : Body ρ α) (C : Context ρ α) (thunks : List (Pcc.Thunk α))
    (res : Option (ℕ × List (Pcc.Thunk α))), Knows g text A C → Deeper g text m A →
    Ready g text start e C.cur C → Means g text m (.body start e C.cur) res →
    Finds conv g text A start e C thunks res

/-- Nor does it end the growth. -/
theorem Growing.goes (h : Growing g text A r p i C G ts q)
    (hgoes : Goes g text ((p, r) :: A) G K) : Growing g text A r p i C K ts q where
  closed := h.closed.goes hgoes
  getHead_eq := fun j => (hgoes.getHead_eq j).trans (h.getHead_eq j)
  alone := by
    rcases h.alone with ⟨hold, hhead⟩
    exact ⟨hold, hgoes.heads _ _ hhead⟩
  ran := fun s hs => hgoes.has (h.ran s hs)

/-- The level and the events do not matter. -/
theorem Growing.aside (h : Growing g text A r p i C G ts q) (level : ℕ)
    (debug : List (DebugEvent ρ)) :
    Growing g text A r p i C { G with level := level, debug := debug } ts q :=
  { h with
    closed :=
      { h.closed with
        kept := { h.closed.kept with }
        knows := { h.closed.knows with } } }

/-- Nor do they around a body. -/
theorem Goes.aside {level : ℕ} {debug : List (DebugEvent ρ)}
    (h : Goes g text A ((G.at p).inside r) C₁) :
    Goes g text A G { C₁ with level := level, debug := debug } :=
  { h with
    toKept := { h.toKept with }
    knows := { h.knows with } }

/-- A recursion that grows has no rules left to evaluate at its position. -/
theorem Growing.spent (h : Growing g text A r p i C G ts q) : G.Spent p := by
  rcases h.alone with ⟨hold, hhead⟩
  exact ⟨i, _, (h.getHead_eq p).trans (if_pos rfl), hhead, rfl⟩

/-- The base may run again. -/
theorem Growing.ready (h : Growing g text A r p i C G ts q)
    (hbehind : ∀ j, p < j → pccLrTableGetHead C.lrtable j = none) :
    Ready g text p ((g r).split r).2 p G := by
  refine ⟨fun j hj => ?_, Or.inr ⟨h.spent, h.ran⟩⟩
  rw [h.getHead_eq, if_neg (Nat.ne_of_gt hj), hbehind j hj]

/-- Recalling the rule gives the seed. -/
theorem Growing.recall (conv : UInt8 → ℤ) (h : Growing g text A r p i C G ts q) (hcur : G.cur = p) :
    Applies conv g r G (some ts, G.at q) := by
  rcases h.closed.data with ⟨hold, hdata⟩
  subst hcur
  refine ⟨0, fun fuel _ => ?_⟩
  rw [applied_of_answer h.closed.knows.pos_eq h.closed.answer (Or.inr h.spent),
    recallAnswer_chunk h.closed.knows.pos_eq hdata rfl]

section Turn

variable (hfound : Found conv g text m) (hdeeper : Deeper g text m ((p, r) :: A))
  (hbehind : ∀ j, p < j → pccLrTableGetHead C.lrtable j = none)
  (hbase : Means g text m (.body p ((g r).split r).2 p) (some b)) (hq : p < q)

include hfound hdeeper hbehind hbase hq

/-- Behind the seed the code finds the first tail that matches, and else the base. The
induction is on the tails. -/
theorem Growing.tail {es : List (Option ℕ × Body ρ α)} :
    ∀ {e : Body ρ α} {res : Option (ℕ × List (Pcc.Thunk α))} {G : Context ρ α},
      (e.split r).1 = es → (e.split r).2 = ((g r).split r).2 →
      Growing g text A r p i C G ts q → G.cur = p → Means g text m (.tail p es q ts) res →
      ∃ x, Yields conv g p e G [] x ∧ Comes [] (res.or (some b)) x ∧
        Goes g text ((p, r) :: A) G x.2.1 := by
  induction es with
  | nil =>
    rintro e res G hes hsplit h rfl htail
    cases htail
    -- no tail is left: the base runs again, and its rules have answers
    rcases hfound _ _ _ G [] _ h.closed.knows hdeeper (h.ready hbehind) hbase
      with ⟨x, hyields, hcomes, hgoes, -⟩
    rw [← hsplit, Body.split_nil hes] at hyields
    exact ⟨x, hyields, hcomes, hgoes⟩
  | cons t es ih =>
    obtain ⟨slot, e'⟩ := t
    rintro e res G hes hsplit h rfl htail
    rcases Body.split_cons hes with ⟨f, rfl, hes', hsplit'⟩
    -- the rule at the front of the tail recalls the seed
    have hrule : Yields conv g G.cur (.rule r slot) G [] (true, G.at q, [.node ts slot]) :=
      (h.recall conv rfl).yields slot
    have hseed : Goes g text ((G.cur, r) :: A) G (G.at q) :=
      (Goes.refl h.closed.knows).at h.closed.pos_le
    have hready : Ready g text G.cur e' q (G.at q) :=
      ((h.goes hseed).ready hbehind).later hq G.cur e'
    cases htail with
    | tail he =>
      rcases hfound _ _ _ (G.at q) [.node ts slot] _ hseed.knows hdeeper hready he
        with ⟨x, hyields, hcomes, hgoes, -⟩
      rcases hcomes.some_inv with ⟨G₁, rfl, hcur⟩
      exact ⟨_, (hrule.seq hyields).left, ⟨rfl, hcur, rfl⟩, hseed.trans hgoes⟩
    | nextTail he hnext =>
      rcases hfound _ _ _ (G.at q) [.node ts slot] _ hseed.knows hdeeper hready he
        with ⟨x, hyields, hcomes, hgoes, -⟩
      rcases hcomes.none_inv with ⟨G₁, thunks, rfl, -⟩
      -- the tail fails behind the seed, and the code goes back in front of it
      have hback := (hseed.trans hgoes).back h.closed.knows
      rcases ih hes' (hsplit'.trans hsplit) (h.goes hback) rfl hnext
        with ⟨x, hyields', hcomes', hgoes'⟩
      rcases yields_alt_of_fail (hrule.seq hyields) hyields' hcomes' hback.knows hgoes'
        with ⟨y, hy, hcomesy, hgoesy, -⟩
      exact ⟨y, hy, hcomesy, hback.trans hgoesy⟩

/-- One turn. -/
theorem Growing.turn (h : Growing g text A r p i C G ts q)
    (htail : Means g text m (.tail p ((g r).split r).1 q ts) res) :
    ∃ y, Evaluates conv g r (G.at p) y ∧ y.1 = (res.or (some b)).map Prod.snd ∧
      (∀ x ∈ res.or (some b), y.2.cur = x.1) ∧ Goes g text ((p, r) :: A) G y.2 := by
  have hle : p ≤ G.buffer.length := Nat.le_trans (Nat.le_of_lt hq) h.closed.pos_le
  have hback := (Goes.refl h.closed.knows).at hle
  have hinside : Growing g text A r p i C ((G.at p).inside r) ts q :=
    (h.goes hback).aside _ _
  rcases hinside.tail hfound hdeeper hbehind hbase hq rfl rfl rfl htail
    with ⟨⟨b', G₁, thunks⟩, hyields, hcomes, hgoes⟩
  rcases Yields.evaluates (C := G.at p) hyields with ⟨level, debug, heval⟩
  refine ⟨_, heval, ?_, ?_, hgoes.aside⟩
  · cases hres : res.or (some b) with
    | none =>
      rw [hres] at hcomes
      rcases hcomes with ⟨rfl, -⟩
      rfl
    | some x =>
      rw [hres] at hcomes
      rcases hcomes with ⟨rfl, -, rfl⟩
      rfl
  · intro x hx
    rw [Option.mem_def.mp hx] at hcomes
    exact hcomes.2.1

end Turn

/-! ## The loop -/

section Loop

variable {eval : ρ → Eval ρ α} {answer : LrAnswer α} {hold : Option ℕ}

/-- The context in which a turn is evaluated. -/
theorem turn_context (hpos : G.pos = 0) (hhead : G.heads[i]? = some ⟨r, [], [], hold⟩) :
    { G.at (p - G.pos) with
      heads := (G.at (p - G.pos)).heads.set i ⟨r, [], pccRuleSetCopy [], hold⟩ } = G.at p := by
  obtain ⟨hlt, heq⟩ := List.getElem?_eq_some_iff.mp hhead
  have hset : G.heads.set i ⟨r, [], [], hold⟩ = G.heads := by
    rw [← heq]
    exact List.set_getElem_self hlt
  rw [hpos]
  exact congrArg (fun heads => { G.at p with heads := heads }) hset

/-- The turn that gets no further is the last one. -/
theorem growLoop_stop (hpos : G.pos = 0) (hhead : G.heads[i]? = some ⟨r, [], [], hold⟩)
    (heval : eval r (G.at p) = .ok (c, C₁)) (hanswer : C₁.answers[a]? = some answer)
    (hstop : c = none ∨ C₁.pos + C₁.cur ≤ answer.pos) :
    growLoop eval r p a i (k + 1) G = .ok C₁ := by
  unfold growLoop
  rw [hhead]
  dsimp only
  -- no rule is involved, so the copy for this turn is as empty as before
  rw [turn_context hpos hhead, heval]
  dsimp only
  rw [hanswer]
  exact if_pos hstop

/-- After a turn that gets further the loop goes on from the moved answer. -/
theorem growLoop_more (hpos : G.pos = 0) (hhead : G.heads[i]? = some ⟨r, [], [], hold⟩)
    (heval : eval r (G.at p) = .ok (c, C₁)) (hanswer : C₁.answers[a]? = some answer)
    (hmore : ¬ (c = none ∨ C₁.pos + C₁.cur ≤ answer.pos))
    (hchunk : pccLrAnswerSetChunk C₁ a c = .ok K) :
    growLoop eval r p a i (k + 1) G =
      growLoop eval r p a i k (K.setAnswerPos a (K.pos + K.cur)) := by
  rw [growLoop, hhead]
  dsimp only
  rw [turn_context hpos hhead, heval]
  dsimp only
  rw [hanswer]
  dsimp only
  rw [if_neg hmore, hchunk]

/-- **The loop adds the tails that match**, one after the other, and ends behind the last
of them. The induction is on the turns: each of them gets further in the text. -/
theorem Growing.loop (hfound : Found conv g text m) (hdeeper : Deeper g text m ((p, r) :: A))
    (hbehind : ∀ j, p < j → pccLrTableGetHead C.lrtable j = none)
    (hbase : Means g text m (.body p ((g r).split r).2 p) (some b)) :
    ∀ {G : Context ρ α} {ts : List (Pcc.Thunk α)} {q : ℕ}, Growing g text A r p i C G ts q →
      p < q → b.1 ≤ q → text.length < q + k →
      Means g text m (.tails p ((g r).split r).1 q ts) res →
      ∃ G' us q', (∃ N, ∀ fuel, N ≤ fuel →
          growLoop (evaluate conv g fuel) r p C.answers.length i k G = .ok G') ∧
        res = some (q', us) ∧ Growing g text A r p i C G' us q' := by
  induction k with
  | zero =>
    intro G ts q h _ _ hk _
    have hle := Nat.le_trans h.closed.pos_le h.closed.knows.length_text
    omega
  | succ k ih =>
    intro G ts q h hq hb hk htails
    have hpos := h.closed.knows.pos_eq
    rcases h.alone with ⟨hold, hhead⟩
    rcases h.closed.data with ⟨hold', hdata⟩
    cases htails with
    | @last _ _ _ _ _ res' htail hno =>
      rcases h.turn hfound hdeeper hbehind hbase hq htail
        with ⟨⟨c, G₁⟩, ⟨N, heval⟩, -, hcur, hgoes⟩
      refine ⟨G₁, ts, q, ⟨N, fun fuel hfuel => ?_⟩, rfl, h.goes hgoes⟩
      refine growLoop_stop hpos hhead (heval fuel hfuel) (hgoes.answers _ _ hdata) (Or.inr ?_)
      rw [hgoes.knows.pos_eq, Nat.zero_add]
      cases res' with
      | none => exact Nat.le_trans (Nat.le_of_eq (hcur b rfl)) hb
      | some x => exact Nat.le_trans (Nat.le_of_eq (hcur x rfl)) (hno x rfl)
    | @more _ _ _ q' _ _ us _ htail hlt hmore =>
      rcases h.turn hfound hdeeper hbehind hbase hq htail
        with ⟨⟨c, G₁⟩, ⟨N, heval⟩, rfl, hcur, hgoes⟩
      have hcur₁ : G₁.cur = q' := hcur _ rfl
      have hpos₁ := hgoes.knows.pos_eq
      have hgrowing := h.goes hgoes
      have hdata₁ := hgoes.answers _ _ hdata
      rcases pccLrAnswerSetChunk_ok hdata₁ (some us) with ⟨answers, hchunk, hother, hold₁, hnew⟩
      -- the next seed
      let K : Context ρ α := { G₁ with answers := answers }
      have hnext : Growing g text A r p i C
          (K.setAnswerPos C.answers.length (K.pos + K.cur)) us q' := by
        have hnew' : (K.setAnswerPos C.answers.length (K.pos + K.cur)).answers[C.answers.length]? =
            some ⟨.chunk (some us), q', hold₁⟩ := by
          rw [getElem?_setAnswerPos (C := K) hnew, ← hcur₁]
          show some (LrAnswer.mk _ (G₁.pos + G₁.cur) _) = _
          rw [hpos₁, Nat.zero_add]
        have hother' : ∀ (j : ℕ) x, j ≠ C.answers.length → G₁.answers[j]? = some x →
            (K.setAnswerPos C.answers.length (K.pos + K.cur)).answers[j]? = some x :=
          fun j x hne hx => setAnswerPos_other (C := K) _ hne (hother j x hne hx)
        have hle : q' ≤ G₁.buffer.length := hcur₁ ▸ hgoes.knows.cur_le
        exact { hgrowing with closed := hgrowing.closed.write hother' hnew' hle }
      rcases ih hnext (Nat.lt_trans hq hlt) (Nat.le_trans hb (Nat.le_of_lt hlt)) (by omega) hmore
        with ⟨G', us', q'', hrun, hres, hgrown⟩
      refine ⟨G', us', q'', ?_, hres, hgrown⟩
      rcases Pcc.eventually_and ⟨N, heval⟩ hrun with ⟨N', hboth⟩
      refine ⟨N', fun fuel hfuel => ?_⟩
      have hfurther : ¬ (some us = none ∨ G₁.pos + G₁.cur ≤ q) := by
        rintro (hnone | hle)
        · cases hnone
        · omega
      rw [growLoop_more hpos hhead (hboth fuel hfuel).1 hdata₁ hfurther hchunk]
      exact (hboth fuel hfuel).2

end Loop

/-! ## Rules -/

/-- A head of a recursion is written to the table, or taken from it. -/
theorem Closed.setHead (h : Closed g text A r p C K c q) (j : ℕ) (head : Option ℕ) :
    Closed g text A r p C { K with lrtable := pccLrTableSetHead K.lrtable j head } c q := by
  have hsame : ∀ i s, pccLrTableGetAnswer (pccLrTableSetHead K.lrtable j head) i s =
      pccLrTableGetAnswer K.lrtable i s := fun i s => getAnswer_modify _ _ _ _ fun _ => rfl
  refine { h with
    kept := { h.kept with table := ?_ }
    knows := { h.knows with apart := ?_, answers := ?_ }
    answer := (hsame p r).trans h.answer }
  · exact fun i s a ha => (hsame i s).trans (h.kept.table i s a ha)
  · intro i s i' s' a ha ha'
    exact h.knows.apart i s i' s' a ((hsame i s).symm.trans ha) ((hsame i' s').symm.trans ha')
  · exact fun i s a ha => h.knows.answers i s a ((hsame i s).symm.trans ha)

/-- The first evaluation of a rule finds its base. -/
theorem Pending.evaluates (hfound : Found conv g text m)
    (hdeeper : Deeper g text m ((p, r) :: A))
    (hnone : ∀ j, p ≤ j → pccLrTableGetHead C.lrtable j = none)
    (hbase : Means g text m (.body p ((g r).split r).2 p) res)
    (h : Pending g text A r p C C₁ none) (hcur : C₁.cur = p) :
    ∃ head C₂, Evaluates conv g r C₁ (res.map Prod.snd, C₂) ∧ Pending g text A r p C C₂ head ∧
      (head = none ↔ ((g r).split r).1 = []) ∧ (∀ x ∈ res, C₂.cur = x.1) ∧
      ∀ s, ((g r).split r).2.Asks g text p p s → C₂.Has p s := by
  subst hcur
  have hinside : Pending g text A r C₁.cur C (C₁.inside r) none := h.aside _ _
  have hfinds : ∀ T head, Pending g text A r C₁.cur C T head → T.cur = C₁.cur →
      Finds conv g text ((C₁.cur, r) :: A) C₁.cur ((g r).split r).2 T [] res := by
    intro T head hT hcur
    refine hfound _ _ _ T [] _ hT.knows hdeeper ⟨?_, Or.inl ?_⟩ (hcur ▸ hbase)
    · -- behind the position nothing grows
      intro j hj
      rw [hT.getHead_eq, hnone j (by omega)]
    · -- nor does anything at the position itself
      rw [hT.getHead_eq, hnone _ (by omega)]
  rcases hinside.first rfl (hnone _ (Nat.le_refl _)) hfinds
    with ⟨head, ⟨b, C₂, thunks⟩, hyields, hcomes, hpending, hhead, hran⟩
  rcases hyields.evaluates with ⟨level, debug, heval⟩
  refine ⟨head, { C₂ with level := level, debug := debug }, ?_, hpending.aside _ _, hhead, ?_, hran⟩
  · cases res with
    | none =>
      rcases hcomes with ⟨rfl, -⟩
      exact heval
    | some x =>
      rcases hcomes with ⟨rfl, -, rfl⟩
      exact heval
  · intro x hx
    cases hx
    exact hcomes.2.1

end Jetlang.Lr
