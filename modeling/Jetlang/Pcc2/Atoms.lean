import Jetlang.Pcc2.Grammar

/-! # The ordered choice of the rule `atom`

The first of the four token rules that matches is the atom, whatever the others
would have read. What the rule does is thereby reduced to what the tokens take
and reject. Where the first one that does not reject the text counts too many turns,
there is no result.
-/

namespace Jetlang.Pcc2

open Pcc

variable {ctx : PccContext} {u v w : List UInt8}

/-! ## The alternatives -/

/-- The text `w` comes next, and the rules were not applied here before. -/
structure Untried (rs : List PccRule) (ctx : PccContext) (w : List UInt8) : Prop where
  wf : ctx.WF getchar
  unread_eq : ctx.unread = w
  table : ∀ r ∈ rs, ctx.lrtable ctx.cur r = none

/-- The alternative of a rule that rejects the text is passed over. -/
theorem alt_rule {r : PccRule} {rs : List PccRule} {P Q : PccParser} {a : PccAction}
    (hP : Rejects getchar P w) (hrule : ∀ pos, pccEvaluateRule r pos = P.seq (.emit a pos))
    (h : Untried (r :: rs) ctx w) (hr : r ∉ rs) :
    ∃ ctx₁, Consumes getchar ctx ctx₁ [] w ∧ Untried rs ctx₁ w ∧
      (∀ ctx₂ thunks, Observes pccEvaluateRule Q ctx₁ [] (true, ctx₂, thunks) →
        Observes pccEvaluateRule (.alt (.rule r (some 0)) Q) ctx [] (true, ctx₂, thunks)) ∧
      (∀ ctx₂, Observes pccEvaluateRule Q ctx₁ [] (false, ctx₂, []) →
        Observes pccEvaluateRule (.alt (.rule r (some 0)) Q) ctx []
          (false, ctx₂.at ctx.cur, [])) ∧
      (NoResult pccEvaluateRule Q ctx₁ [] →
        NoResult pccEvaluateRule (.alt (.rule r (some 0)) Q) ctx []) := by
  rcases hP.rule hrule h.wf h.unread_eq (h.table r List.mem_cons_self) (some 0) []
    with ⟨ctx₁, hback, htable, hobs⟩
  refine ⟨ctx₁.at ctx.cur, hback, ⟨hback.wf, hback.unread_eq, ?_⟩, ?_, ?_, ?_⟩
  · intro s hs
    have hne : s ≠ r := by
      rintro rfl
      exact hr hs
    rw [at_cur, at_lrtable, htable _ _ hne]
    exact h.table s (List.mem_cons_of_mem r hs)
  · intro ctx₂ thunks hQ
    exact .alt_right hobs hQ
  · intro ctx₂ hQ
    exact .alt_fail hobs hQ
  · exact hobs.alt_noResult

/-- The choice reads `u`, with the token of the action `a`. -/
def Chooses (a : PccAction) (u v : List UInt8) : Prop :=
  ∀ ctx : PccContext, Untried [.nil, .int, .sym, .str] ctx (u ++ v) →
    ∃ ctx', Consumes getchar ctx ctx' u v ∧
      Observes pccEvaluateRule atomChoice ctx []
        (true, ctx', [.node [.leaf a ctx.cur ctx'.cur] (some 0)])

/-- The alternatives `Q`, which begin with the rules `rs`, read `u` with the token
of the action `a`. -/
def Picks (rs : List PccRule) (Q : PccParser) (a : PccAction) (u v : List UInt8) : Prop :=
  ∀ ctx : PccContext, Untried rs ctx (u ++ v) →
    ∃ ctx', Consumes getchar ctx ctx' u v ∧
      Observes pccEvaluateRule Q ctx [] (true, ctx', [.node [.leaf a ctx.cur ctx'.cur] (some 0)])

/-- The alternatives `Q` fail. -/
def Misfits (rs : List PccRule) (Q : PccParser) (w : List UInt8) : Prop :=
  ∀ ctx : PccContext, Untried rs ctx w → ∃ ctx', Observes pccEvaluateRule Q ctx [] (false, ctx', [])

/-- The alternatives `Q` have no result. -/
def Stalls (rs : List PccRule) (Q : PccParser) (w : List UInt8) : Prop :=
  ∀ ctx : PccContext, Untried rs ctx w → NoResult pccEvaluateRule Q ctx []

section Alternatives

variable {r : PccRule} {rs : List PccRule} {P Q : PccParser} {a b : PccAction}
  (hrule : ∀ pos, pccEvaluateRule r pos = P.seq (.emit a pos))

include hrule

theorem Picks.last (hP : Takes getchar P u v) : Picks (r :: rs) (.rule r (some 0)) a u v := by
  intro ctx h
  rcases hP.rule hrule h.wf h.unread_eq (h.table r List.mem_cons_self) (some 0) []
    with ⟨ctx', hcons, -, hobs⟩
  exact ⟨ctx', hcons, hobs⟩

/-- The first alternative that takes the text is picked. -/
theorem Picks.first (hP : Takes getchar P u v) (Q : PccParser) :
    Picks (r :: rs) (.alt (.rule r (some 0)) Q) a u v := by
  intro ctx h
  rcases Picks.last hrule hP ctx h with ⟨ctx', hcons, hobs⟩
  exact ⟨ctx', hcons, hobs.alt_left⟩

/-- One that rejects the text leaves it to the others. -/
theorem Picks.next (hP : Rejects getchar P (u ++ v)) (hr : r ∉ rs) (hQ : Picks rs Q b u v) :
    Picks (r :: rs) (.alt (.rule r (some 0)) Q) b u v := by
  intro ctx h
  rcases alt_rule hP hrule h hr with ⟨ctx₁, hcons₁, h₁, hgo, -, -⟩
  rcases hQ ctx₁ h₁ with ⟨ctx', hcons, hobs⟩
  -- the alternative has not moved
  have hcur : ctx₁.cur = ctx.cur := hcons₁.cur_eq
  rw [hcur] at hobs
  exact ⟨ctx', hcons₁.trans hcons, hgo _ _ hobs⟩

theorem Misfits.last (hP : Rejects getchar P w) : Misfits (r :: rs) (.rule r (some 0)) w := by
  intro ctx h
  rcases hP.rule hrule h.wf h.unread_eq (h.table r List.mem_cons_self) (some 0) []
    with ⟨ctx', -, -, hobs⟩
  exact ⟨ctx', hobs⟩

theorem Misfits.next (hP : Rejects getchar P w) (hr : r ∉ rs) (hQ : Misfits rs Q w) :
    Misfits (r :: rs) (.alt (.rule r (some 0)) Q) w := by
  intro ctx h
  rcases alt_rule hP hrule h hr with ⟨ctx₁, -, h₁, -, hno, -⟩
  rcases hQ ctx₁ h₁ with ⟨ctx', hobs⟩
  exact ⟨_, hno _ hobs⟩

/-- The first alternative has no result. -/
theorem Stalls.first (hP : Overruns getchar P w) (Q : PccParser) :
    Stalls (r :: rs) (.alt (.rule r (some 0)) Q) w := by
  intro ctx h
  exact (hP.rule hrule h.wf h.unread_eq (h.table r List.mem_cons_self) (some 0) []).alt

theorem Stalls.last (hP : Overruns getchar P w) : Stalls (r :: rs) (.rule r (some 0)) w := by
  intro ctx h
  exact hP.rule hrule h.wf h.unread_eq (h.table r List.mem_cons_self) (some 0) []

theorem Stalls.next (hP : Rejects getchar P w) (hr : r ∉ rs) (hQ : Stalls rs Q w) :
    Stalls (r :: rs) (.alt (.rule r (some 0)) Q) w := by
  intro ctx h
  rcases alt_rule hP hrule h hr with ⟨ctx₁, -, h₁, -, -, hnone⟩
  exact hnone (hQ ctx₁ h₁)

end Alternatives

/-! ## The choice of `atom` -/

theorem chooses_nil (hnil : Takes getchar nilToken u v) : Chooses .nil0 u v :=
  Picks.first (r := .nil) (fun _ => rfl) hnil _

theorem chooses_sym (hnil : Rejects getchar nilToken (u ++ v))
    (hint : Rejects getchar intToken (u ++ v)) (hsym : Takes getchar symToken u v) :
    Chooses .sym0 u v := by
  refine Picks.next (r := .nil) (fun _ => rfl) hnil (by decide) ?_
  refine Picks.next (r := .int) (fun _ => rfl) hint (by decide) ?_
  exact Picks.first (r := .sym) (fun _ => rfl) hsym _

theorem chooses_str (hnil : Rejects getchar nilToken (u ++ v))
    (hint : Rejects getchar intToken (u ++ v)) (hsym : Rejects getchar symToken (u ++ v))
    (hstr : Takes getchar strToken u v) : Chooses .str0 u v := by
  refine Picks.next (r := .nil) (fun _ => rfl) hnil (by decide) ?_
  refine Picks.next (r := .int) (fun _ => rfl) hint (by decide) ?_
  refine Picks.next (r := .sym) (fun _ => rfl) hsym (by decide) ?_
  exact Picks.last (r := .str) (fun _ => rfl) hstr

theorem misfits_choice (hnil : Rejects getchar nilToken w) (hint : Rejects getchar intToken w)
    (hsym : Rejects getchar symToken w) (hstr : Rejects getchar strToken w) :
    Misfits [.nil, .int, .sym, .str] atomChoice w := by
  refine .next (r := .nil) (fun _ => rfl) hnil (by decide) ?_
  refine .next (r := .int) (fun _ => rfl) hint (by decide) ?_
  refine .next (r := .sym) (fun _ => rfl) hsym (by decide) ?_
  exact .last (r := .str) (fun _ => rfl) hstr

theorem stalls_sym (hnil : Rejects getchar nilToken w) (hint : Rejects getchar intToken w)
    (hsym : Overruns getchar symToken w) : Stalls [.nil, .int, .sym, .str] atomChoice w := by
  refine .next (r := .nil) (fun _ => rfl) hnil (by decide) ?_
  refine .next (r := .int) (fun _ => rfl) hint (by decide) ?_
  exact .first (r := .sym) (fun _ => rfl) hsym _

theorem stalls_str (hnil : Rejects getchar nilToken w) (hint : Rejects getchar intToken w)
    (hsym : Rejects getchar symToken w) (hstr : Overruns getchar strToken w) :
    Stalls [.nil, .int, .sym, .str] atomChoice w := by
  refine .next (r := .nil) (fun _ => rfl) hnil (by decide) ?_
  refine .next (r := .int) (fun _ => rfl) hint (by decide) ?_
  refine .next (r := .sym) (fun _ => rfl) hsym (by decide) ?_
  exact .last (r := .str) (fun _ => rfl) hstr

/-! ## The rule -/

/-- The thunks of an atom. -/
def atomChunk (a : PccAction) (start stop : ℕ) : List (Pcc.Thunk PccAction) :=
  [.node [.leaf a start stop] (some 0), .leaf .atom0 start stop]

/-- While the rule is evaluated its choice finds no answers. -/
theorem Ready.untried_choice (h : Ready ctx) (hunread : ctx.unread = w) :
    Untried [.nil, .int, .sym, .str] (ctx.setAnswer ctx.cur .atom .lr) w := by
  refine ⟨h.wf.setAnswer _ _ _, hunread, ?_⟩
  intro r hr
  have hatom : r ≠ .atom := by
    rintro rfl
    exact absurd hr (by decide)
  have hexpr : r ≠ .expr := by
    rintro rfl
    exact absurd hr (by decide)
  rw [setAnswer_cur, setAnswer_ne _ _ (Or.inr hatom)]
  exact h.untried r hexpr

/-- The rule matches with what its choice reads. -/
theorem Chooses.atom {a : PccAction} (hchoice : Chooses a u v) (h : Ready ctx)
    (hunread : ctx.unread = u ++ v) :
    ∃ ctx', Consumes getchar ctx ctx' u v ∧
      Observes pccEvaluateRule (.rule .atom (some 0)) ctx []
        (true, ctx', [.node (atomChunk a ctx.cur ctx'.cur) (some 0)]) := by
  rcases hchoice _ (h.untried_choice hunread) with ⟨ctx₁, hcons, hobs⟩
  have hbody : Observes pccEvaluateRule (pccEvaluateRule .atom ctx.cur)
      (ctx.setAnswer ctx.cur .atom .lr) [] (true, ctx₁, atomChunk a ctx.cur ctx₁.cur) :=
    hobs.seq (.emit PccAction.atom0 ctx.cur)
  refine ⟨ctx₁.setAnswer ctx.cur .atom (.chunk (some (atomChunk a ctx.cur ctx₁.cur)) ctx₁.cur),
    hcons.setAnswer, ?_⟩
  exact .apply (h.untried .atom (by decide)) hbody

/-- The rule fails if all tokens reject the text. -/
theorem atom_fail (h : Ready ctx) (hunread : ctx.unread = w) (hnil : Rejects getchar nilToken w)
    (hint : Rejects getchar intToken w) (hsym : Rejects getchar symToken w)
    (hstr : Rejects getchar strToken w) :
    ∃ ctx', Observes pccEvaluateRule (.rule .atom (some 0)) ctx [] (false, ctx', []) := by
  rcases misfits_choice hnil hint hsym hstr _ (h.untried_choice hunread) with ⟨ctx₁, hobs⟩
  have hbody := hobs.seq_fail (Q := .emit PccAction.atom0 ctx.cur)
  exact ⟨_, .apply_fail (h.untried .atom (by decide)) hbody⟩

/-- Where its choice has no result, the rule has none. -/
theorem Stalls.atom (hchoice : Stalls [.nil, .int, .sym, .str] atomChoice w) (h : Ready ctx)
    (hunread : ctx.unread = w) : NoResult pccEvaluateRule (.rule .atom (some 0)) ctx [] := by
  have hbody : NoResult pccEvaluateRule (pccEvaluateRule .atom ctx.cur)
      (ctx.setAnswer ctx.cur .atom .lr) [] := .seq (hchoice _ (h.untried_choice hunread))
  exact .apply (h.untried .atom (by decide)) hbody

/-! ## The value -/

/-- The actions of an atom make one atom, over its characters. -/
theorem chunkValue_atomChunk (pos : ℕ) (buffer : List UInt8) (a : PccAction) (start stop : ℕ)
    (cst : Cst.CST) :
    chunkValue pos buffer (atomChunk a start stop) cst =
      pccAction pos a ⟨fun _ => zeroNode, pccGetCaptureString buffer start stop, start, stop⟩
        cst := by
  unfold chunkValue atomChunk
  simp only [pccDoAction]
  cases pccAction pos a ⟨fun _ => zeroNode, pccGetCaptureString buffer start stop, start, stop⟩
      cst with
  | none => rfl
  | some r => rfl

/-- What the rule does, it does every time. -/
theorem observes_unique {P : PccParser} {thunks : List (Pcc.Thunk PccAction)}
    {r r' : Bool × PccContext × List (Pcc.Thunk PccAction)}
    (h : Observes pccEvaluateRule P ctx thunks r) (h' : Observes pccEvaluateRule P ctx thunks r') :
    r = r' := by
  rcases eventually_and h h' with ⟨N, hN⟩
  rcases hN N (Nat.le_refl N) with ⟨hr, hr'⟩
  rw [hr] at hr'
  exact Option.some.inj hr'

/-- The tag of an atom made is the one asked for. -/
theorem tag_of_makeAtom {cst cst' : Cst.CST} {tag : Cst.CstTag} {span : Cst.Span}
    {node : Cst.CstNode} (h : Cst.cstMakeAtom cst tag span = some (node, cst')) :
    node.tag = tag := by
  by_cases hnil : tag = .nil
  · subst hnil
    cases h
    rfl
  · rcases Cst.cstMakeAtom_eq cst hnil span with ⟨vec, -, hmake⟩
    rw [hmake] at h
    split at h
    · cases h
      rfl
    · cases h

/-- An atom that is read has the value of its token. -/
theorem ReadsAtom.value {pos : ℕ} {cst : Cst.CST} {tag : Cst.CstTag} {a : PccAction}
    (hreads : ReadsAtom pos cst ctx w v tag) {w' v' : List UInt8} (hchoice : Chooses a w' v')
    (h : Ready ctx) (hunread : ctx.unread = w' ++ v') :
    w'.length = w.length ∧ ∃ node cst' string,
      pccAction pos a ⟨fun _ => zeroNode, string, ctx.cur, ctx.cur + w.length⟩ cst =
        some (node, cst') ∧ node.tag = tag ∧
      Cst.Designates cst' node
        ⟨(pos + ctx.cur : ℕ), (pos + ctx.cur + w.length : ℕ)⟩ := by
  rcases hreads with ⟨ctx₁, c, node, cst', hobs, hcons, hvalue, -, htag, hspan⟩
  rcases hchoice.atom h hunread with ⟨ctx₂, hcons₂, hobs₂⟩
  cases observes_unique hobs hobs₂
  have hlen : w'.length = w.length := by
    have h₁ := hcons.cur_eq
    have h₂ := hcons₂.cur_eq
    omega
  rw [chunkValue_atomChunk, hcons.cur_eq] at hvalue
  exact ⟨hlen, node, cst', _, hvalue, htag, hspan⟩

end Jetlang.Pcc2
