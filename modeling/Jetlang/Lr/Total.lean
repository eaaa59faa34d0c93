import Jetlang.Lr.Growing
import Jetlang.Lr.Parse
import Mathlib.Data.Nat.Find

/-! # The run time computes the meaning

The whole run time, with its memo table, its stack and its growing recursions, comes to
the meaning of a rule, if the grammar is well formed. Rules are nested finitely deep in
a meaning. A rule is evaluated with the least depth, and so it is not met again at its
position, but at the beginning of its tails.
-/

namespace Jetlang.Lr

variable {ρ α : Type} [DecidableEq ρ] {g : ρ → Body ρ α} {text : List UInt8}
  {A : List (ℕ × ρ)} {conv : UInt8 → ℤ} {n start : ℕ} {r : ρ} {C : Context ρ α}
  {e : Body ρ α} {res : Option (ℕ × List (Pcc.Thunk α))} {null : ρ → Bool} {rank : ρ → ℕ}

/-- Without tails a rule is what its base is. -/
theorem Means.tails_nil {q : ℕ} {ts : List (Pcc.Thunk α)}
    (h : Means g text n (.tails start [] q ts) res) : res = some (q, ts) := by
  cases h with
  | last _ _ => rfl
  | more htail _ _ => cases htail

/-- The application of a rule comes to `res`. -/
def Meets (conv : UInt8 → ℤ) (g : ρ → Body ρ α) (text : List UInt8) (A : List (ℕ × ρ)) (r : ρ)
    (C : Context ρ α) (res : Option (ℕ × List (Pcc.Thunk α))) : Prop :=
  ∃ C', Applies conv g r C (res.map Prod.snd, C') ∧ Goes g text A C C' ∧
    (∀ x ∈ res, C'.cur = x.1) ∧ C'.Has C.cur r

/-- A rule that has no answer is evaluated, with the least depth. -/
theorem meets_new (hwf : WellFormed g null rank) {m : ℕ} (hfound : Found conv g text m)
    (h : Knows g text A C) (hdeeper : Deeper g text m ((C.cur, r) :: A))
    (hnone : pccLrTableGetAnswer C.lrtable C.cur r = none)
    (hfree : ∀ j, C.cur ≤ j → pccLrTableGetHead C.lrtable j = none)
    (hmeans : Means g text m (.rule r C.cur) res) : Meets conv g text A r C res := by
  have happlied : ∀ eval : ρ → Eval ρ α, applied eval r C = applyNew eval r C.cur C :=
    fun eval => applied_of_none h.pos_eq hnone (hfree _ (Nat.le_refl _))
  have hpending := h.begin hnone
  cases hmeans with
  | noBase hbase =>
    rcases hpending.evaluates hfound hdeeper hfree hbase rfl
      with ⟨head, C₁, ⟨N, heval⟩, hpending₁, -, -, -⟩
    -- the failure is remembered, whether there is a head or not
    obtain ⟨K, hnew, hclosed, htable⟩ : ∃ K, (∀ eval : ρ → Eval ρ α,
        eval r (C.begin r C.cur) = .ok (none, C₁) → applyNew eval r C.cur C = .ok (none, K)) ∧
        Closed g text A r C.cur C K none C₁.cur ∧ K.lrtable = C₁.lrtable := by
      cases head with
      | none =>
        rcases hpending₁.ends none with ⟨K, hnew, hclosed, -, htable⟩
        exact ⟨K, hnew, hclosed, htable⟩
      | some i =>
        rcases hpending₁.recurs none with ⟨K, hclosed, htable, -, hnew⟩
        exact ⟨K, fun eval hrun => (hnew eval hrun).1 rfl, hclosed, htable⟩
    have hhead : ∀ j, pccLrTableGetHead K.lrtable j = pccLrTableGetHead C.lrtable j := by
      intro j
      rw [htable, hpending₁.getHead_eq]
    rcases hclosed.settle hhead (.noBase hbase) with ⟨hgoes, hhas⟩
    refine ⟨K, ⟨N, fun fuel hfuel => ?_⟩, hgoes, fun x hx => (nomatch hx), hhas⟩
    rw [happlied]
    exact hnew _ (heval fuel hfuel)
  | @base _ _ q _ ts _ hbase htails =>
    rcases hpending.evaluates hfound hdeeper hfree hbase rfl
      with ⟨head, C₁, ⟨N, heval⟩, hpending₁, hhead, hcur, hran⟩
    obtain rfl : C₁.cur = q := hcur _ rfl
    cases head with
    | none =>
      have hmeans := Means.base hbase htails
      rw [hhead.mp rfl] at htails
      obtain rfl := htails.tails_nil
      rcases hpending₁.ends (some ts) with ⟨K, hnew, hclosed, hcurK, htable⟩
      have hheads : ∀ j, pccLrTableGetHead K.lrtable j = pccLrTableGetHead C.lrtable j := by
        intro j
        rw [htable, hpending₁.getHead_eq]
      rcases hclosed.settle hheads hmeans with ⟨hgoes, hhas⟩
      refine ⟨K, ⟨N, fun fuel hfuel => ?_⟩, hgoes, fun x hx => ?_, hhas⟩
      · rw [happlied]
        exact hnew _ (heval fuel hfuel)
      · cases hx
        exact hcurK
    | some i =>
      have hmoved : C.cur < C₁.cur :=
        hwf.moved (fun hnil => nomatch hhead.mpr hnil) h.cur_le_text hbase
      rcases hpending₁.recurs (some ts) with ⟨K, hclosed, htable, hheads, hnew⟩
      let G : Context ρ α := { K with lrtable := pccLrTableSetHead K.lrtable C.cur (some i) }
      have hgrowing : Growing g text A r C.cur i C G ts C₁.cur := by
        refine ⟨hclosed.setHead _ _, ?_, ?_, ?_⟩
        · intro j
          rw [getHead_setHead, htable, hpending₁.getHead_eq]
        · rcases hpending₁.alone i rfl with ⟨hold, hi⟩
          exact ⟨hold, hheads ▸ hi⟩
        · intro s hs
          have hsame : pccLrTableGetAnswer G.lrtable C.cur s =
              pccLrTableGetAnswer K.lrtable C.cur s := getAnswer_modify _ _ _ _ fun _ => rfl
          rcases hran s hs with ⟨a, ha⟩
          exact ⟨a, by rw [hsame, htable, ha]⟩
      have hturns : text.length < C₁.cur + (K.buffer.length + K.auxil.length + 1) := by
        rw [← List.length_append, hclosed.knows.text_eq]
        omega
      rcases hgrowing.loop hfound hdeeper (fun j hj => hfree j (Nat.le_of_lt hj)) hbase hmoved
          (Nat.le_refl _) hturns htails with ⟨G', us, q', hgrow, rfl, hgrown⟩
      rcases hgrown.closed.data with ⟨hold, hdata⟩
      let F : Context ρ α :=
        { G' with lrtable := pccLrTableSetHead G'.lrtable C.cur none, cur := q' - G'.pos }
      have hcurF : F.cur = q' := by
        show q' - G'.pos = q'
        rw [hgrown.closed.knows.pos_eq, Nat.sub_zero]
      have hclosedF : Closed g text A r C.cur C F (some us) q' := by
        have hset := hgrown.closed.setHead C.cur none
        have hle : F.cur ≤ G'.buffer.length := hcurF ▸ hgrown.closed.pos_le
        exact { hset with
          kept := { hset.kept with }
          knows := { hset.knows with cur_le := hle } }
      have hheadF : ∀ j, pccLrTableGetHead F.lrtable j = pccLrTableGetHead C.lrtable j := by
        intro j
        rw [getHead_setHead, hgrown.getHead_eq]
        split
        · rename_i hj
          rw [hj, hfree _ (Nat.le_refl _)]
        · rfl
      rcases hclosedF.settle hheadF (.base hbase htails) with ⟨hgoes, hhas⟩
      rcases Pcc.eventually_and ⟨N, heval⟩ hgrow with ⟨N', hboth⟩
      refine ⟨F, ⟨N', fun fuel hfuel => ?_⟩, hgoes, fun x hx => ?_, hhas⟩
      · rw [happlied]
        exact (hnew _ (hboth fuel hfuel).1).2 G' (some us) q' hold (fun hc => nomatch hc)
          (hboth fuel hfuel).2 hdata
      · cases hx
        exact hcurF

/-- A rule that has a meaning meets it. -/
theorem meets_rule (hwf : WellFormed g null rank) (hfound : ∀ k ≤ n, Found conv g text k)
    (h : Knows g text A C) (hdeeper : Deeper g text (n + 1) A) {slot : Option ℕ}
    (hready : Ready g text start (.rule r slot) C.cur C)
    (hmeans : Means g text n (.rule r C.cur) res) : Meets conv g text A r C res := by
  have hA : (C.cur, r) ∉ A := fun hmem => hdeeper _ hmem n (Nat.lt_succ_self n) res hmeans
  cases hanswer : pccLrTableGetAnswer C.lrtable C.cur r with
  | some a =>
    have hquiet : pccLrTableGetHead C.lrtable C.cur = none ∨ C.Spent C.cur :=
      hready.here.imp_right And.left
    rcases h.applies hmeans hA hanswer hquiet with ⟨q, happlies, hq, hcur⟩
    exact ⟨C.at q, happlies, (Goes.refl h).at hq, hcur, a, hanswer⟩
  | none =>
    have hfree : ∀ j, C.cur ≤ j → pccLrTableGetHead C.lrtable j = none := by
      intro j hj
      rcases Nat.eq_or_lt_of_le hj with rfl | hlt
      · rcases hready.here with hnone | ⟨-, hran⟩
        · exact hnone
        · -- where a recursion grows the rule has an answer
          rcases hran r rfl with ⟨a, ha⟩
          rw [hanswer] at ha
          cases ha
      · exact hready.behind j hlt
    -- the least depth
    obtain ⟨m, ⟨res', hleast⟩, hmin⟩ : ∃ m, (∃ res, Means g text m (.rule r C.cur) res) ∧
        ∀ j < m, ¬ ∃ res, Means g text j (.rule r C.cur) res := by
      classical
      have hex : ∃ m, ∃ res, Means g text m (.rule r C.cur) res := ⟨n, res, hmeans⟩
      exact ⟨Nat.find hex, Nat.find_spec hex, fun j hj => Nat.find_min hex hj⟩
    obtain rfl := hleast.unique hmeans
    have hmn : m ≤ n := by
      by_contra hlt
      exact hmin n (Nat.lt_of_not_le hlt) ⟨_, hmeans⟩
    refine meets_new hwf (hfound m hmn) h ?_ hanswer hfree hleast
    intro x hx j hj res hmeans'
    rcases List.mem_cons.mp hx with rfl | hx
    · exact hmin j hj ⟨res, hmeans'⟩
    · exact hdeeper x hx j (by omega) res hmeans'

/-- At one depth, if it is so at lower ones. The induction is on the meaning. -/
theorem found_of (hwf : WellFormed g null rank) (hread : Readable conv text)
    (ih : ∀ k < n, Found conv g text k) : Found conv g text n := by
  intro A start e C thunks res h hdeeper hready hmeans
  -- the goals of rules and tails are met in `meets_rule`
  generalize hj : Goal.body start e C.cur = j at hmeans
  induction hmeans generalizing e C thunks with
  | char hc hf =>
    cases hj
    exact finds_charClass (n := 0) hread h (.char hc hf)
  | noChar hno =>
    cases hj
    exact finds_charClass (n := 0) hread h (.noChar hno)
  | string hs =>
    cases hj
    exact finds_string (n := 0) hread h (.string hs)
  | noString hs =>
    cases hj
    exact finds_string (n := 0) hread h (.noString hs)
  | seq hmeans _ he hf =>
    cases hj
    refine Finds.seq hmeans (he ih _ C thunks h hdeeper hready.seqLeft rfl) ?_
    intro C₁ hgoes hcur
    have hle := (hmeans.within h.cur_le_text _ rfl).1
    have hnext := (hready.seqRight hmeans hle).goes hgoes
    subst hcur
    exact hf ih _ C₁ _ hgoes.knows hdeeper hnext rfl
  | noSeq hmeans he =>
    cases hj
    exact .noSeq hmeans (he ih _ C thunks h hdeeper hready.seqLeft rfl)
  | left hmeans he =>
    cases hj
    exact .left hmeans (he ih _ C thunks h hdeeper hready.altLeft rfl)
  | right hmeans _ he hf =>
    cases hj
    refine Finds.right h (he ih _ C thunks h hdeeper hready.altLeft rfl) ?_
    intro C₁ hgoes hcur
    have hnext := (hready.altRight hmeans).goes hgoes
    rw [← hcur] at hnext
    exact hf ih _ C₁ _ hgoes.knows hdeeper hnext (by rw [hcur])
  | starEnd _ he =>
    cases hj
    exact .starEnd h (he ih _ C thunks h hdeeper (hready.mono fun _ => id) rfl)
  | starStill _ he =>
    cases hj
    exact .starStill (he ih _ C thunks h hdeeper (hready.mono fun _ => id) rfl)
  | starMore hmeans hne _ he hstar =>
    cases hj
    have hlt := hmeans.moved h hne
    refine (Finds.more hread h ?_ hlt ?_).1
    · exact he ih _ C thunks h hdeeper (hready.mono fun _ => id) rfl
    intro C₁ hgoes hcur
    subst hcur
    exact hstar ih _ C₁ _ hgoes.knows hdeeper ((hready.goes hgoes).later hlt _ _) rfl
  | noPlus _ he =>
    cases hj
    exact .noPlus h (he ih _ C thunks h hdeeper (hready.mono fun _ => id) rfl)
  | plusStill _ he =>
    cases hj
    exact .plusStill h (he ih _ C thunks h hdeeper (hready.mono fun _ => id) rfl)
  | plus hmeans hne _ he hstar =>
    cases hj
    have hlt := hmeans.moved h hne
    refine (Finds.more hread h ?_ hlt ?_).2
    · exact he ih _ C thunks h hdeeper (hready.mono fun _ => id) rfl
    intro C₁ hgoes hcur
    subst hcur
    exact hstar ih _ C₁ _ hgoes.knows hdeeper ((hready.goes hgoes).later hlt _ _) rfl
  | @apply n _ _ r slot res hr _ =>
    cases hj
    have hfound : ∀ k ≤ n, Found conv g text k := fun k hk => ih k (Nat.lt_succ_of_le hk)
    rcases meets_rule hwf hfound h hdeeper hready hr with ⟨C', happlies, hgoes, hcur, hhas⟩
    have hasks : ∀ s, (Body.rule r slot : Body ρ α).Asks g text start C.cur s →
        C'.Has C.cur s := by
      rintro s rfl
      exact hhas
    cases res with
    | none => exact ⟨_, happlies.yields_fail slot, ⟨rfl, List.take_length⟩, hgoes, hasks⟩
    | some x => exact ⟨_, happlies.yields slot, ⟨rfl, hcur x rfl, rfl⟩, hgoes, hasks⟩
  | emit =>
    cases hj
    exact ⟨_, .of_eq fun _ => rfl, ⟨rfl, rfl, rfl⟩, .refl h, fun _ => False.elim⟩
  | noBase _ _ => cases hj
  | base _ _ _ _ => cases hj
  | noTail => cases hj
  | tail _ _ => cases hj
  | nextTail _ _ _ _ => cases hj
  | last _ _ _ => cases hj
  | more _ _ _ _ _ => cases hj

/-- **What has a meaning is found**, at every depth. -/
theorem found (hwf : WellFormed g null rank) (hread : Readable conv text) (n : ℕ) :
    Found conv g text n := by
  induction n using Nat.strongRecOn with
  | _ n ih => exact found_of hwf hread ih

/-! ## Parses -/

/-- At the start there is nothing to know. -/
theorem knows_create (g : ρ → Body ρ α) (text : List UInt8) :
    Knows g text [] (pccContextCreate text : Context ρ α) where
  pos_eq := rfl
  text_eq := rfl
  cur_le := Nat.le_refl 0
  apart := by
    intro q s q' s' a ha
    rw [show pccLrTableGetAnswer (pccContextCreate text : Context ρ α).lrtable q s = none from
      getAnswer_init q s] at ha
    cases ha
  answers := by
    intro q s a ha
    rw [show pccLrTableGetAnswer (pccContextCreate text : Context ρ α).lrtable q s = none from
      getAnswer_init q s] at ha
    cases ha

/-- **The whole run time computes the meaning**, left recursion included: with enough
depth, the application of a rule of a well-formed grammar at the start of a text comes
to what the rule means there. -/
theorem pccApplyRule_means (hwf : WellFormed g null rank) (hread : Readable conv text) (r : ρ)
    (slot : Option ℕ) :
    ∃ res, (∃ n, Means g text n (.rule r 0) res) ∧ ∃ N, ∀ fuel, N ≤ fuel → ∃ C thunks,
      pccApplyRule (evaluate conv g fuel) r slot (pccContextCreate text) [] =
          .ok (res.isSome, C, thunks) ∧
        (∀ x ∈ res, C.cur = x.1 ∧ thunks = [.node x.2 slot]) ∧ C.lrstack = [] := by
  rcases hwf.meant text r (Nat.zero_le text.length) with ⟨n, res, hmeans⟩
  have hready : Ready g text 0 (.rule r slot) 0 (pccContextCreate text : Context ρ α) :=
    ⟨fun j _ => getHead_init j, Or.inl (getHead_init 0)⟩
  have hfound : ∀ k ≤ n, Found conv g text k := fun k _ => found hwf hread k
  rcases meets_rule hwf hfound (knows_create g text) (fun x hx => nomatch hx) hready hmeans
    with ⟨C, ⟨N, happlies⟩, hgoes, hcur, -⟩
  refine ⟨res, ⟨n, hmeans⟩, N, fun fuel hfuel => ?_⟩
  cases res with
  | none =>
    refine ⟨C, [], ?_, fun x hx => (nomatch hx), hgoes.lrstack_eq⟩
    unfold pccApplyRule
    rw [happlies fuel hfuel]
    rfl
  | some x =>
    refine ⟨C, [.node x.2 slot], ?_, fun y hy => ?_, hgoes.lrstack_eq⟩
    · unfold pccApplyRule
      rw [happlies fuel hfuel]
      rfl
    · cases hy
      exact ⟨hcur x rfl, rfl⟩

/-- The rule `l <- l 'b' / 'a'`. -/
def chainBody : Unit → Body Unit Unit := fun _ =>
  .alt (.seq (.rule () none) (.string [98])) (.string [97])

theorem wellFormed_chainBody : WellFormed chainBody (fun _ => false) (fun _ => 0) := by
  refine ⟨?_, ?_, ?_⟩
  · exact fun _ hstill => nomatch hstill
  · exact fun _ s hs => nomatch hs
  · exact fun _ _ => rfl

/-- It is left-recursive, and comes to its meaning in front of `abb`. -/
theorem pccApplyRule_means_chain :
    ∃ res, (∃ n, Means chainBody [97, 98, 98] n (.rule () 0) res) ∧
      ∃ N, ∀ fuel, N ≤ fuel → ∃ C thunks,
        pccApplyRule (evaluate Pcc.pccAuxilGetchar chainBody fuel) () none
            (pccContextCreate [97, 98, 98]) [] = .ok (res.isSome, C, thunks) ∧
          (∀ x ∈ res, C.cur = x.1 ∧ thunks = [.node x.2 none]) ∧ C.lrstack = [] := by
  have hread : Readable Pcc.pccAuxilGetchar [97, 98, 98] := by
    refine ⟨?_, by decide⟩
    intro b hb
    simp only [List.mem_cons, List.not_mem_nil, or_false] at hb
    rcases hb with rfl | rfl | rfl
    · decide
    · decide
    · decide
  exact pccApplyRule_means wellFormed_chainBody hread () none

example : ((pccApplyRule (evaluate Pcc.pccAuxilGetchar chainBody 2) () none
    (pccContextCreate [97, 98, 98]) []).toOption.map fun x => (x.1, x.2.1.cur)) =
      some (true, 3) := by
  decide +kernel

/-- **Every rule of a well-formed grammar has exactly one meaning** at every position
of every text. -/
theorem existsUnique_means (h : WellFormed g null rank) (text : List UInt8) (r : ρ) {p : ℕ}
    (hp : p ≤ text.length) : ∃! res, ∃ n, Means g text n (.rule r p) res := by
  rcases h.meant text r hp with ⟨n, res, hres⟩
  refine ⟨res, ⟨n, hres⟩, ?_⟩
  rintro res' ⟨m, hres'⟩
  exact hres'.unique hres

/-! ## The grammar of the parser -/

/-- A list of expressions begins with an expression, an expression with an atom, and an
atom with a symbol. -/
def pccRank : Pcc.PccRule → ℕ
  | .prog | .exprs => 3
  | .expr => 2
  | .atom => 1
  | .sym | .blanks => 0

/-- The grammar `pcc.peg` is well formed. -/
theorem wellFormed_pccBody : WellFormed pccBody (· == .blanks) pccRank := by
  refine ⟨?_, ?_, ?_⟩
  · intro r
    cases r <;> decide
  · intro r
    cases r <;> decide
  · intro r
    cases r <;> decide

/-- Its first rule has a meaning in front of a bracket. -/
theorem existsUnique_means_bracket :
    ∃! res, ∃ n, Means pccBody [41] n (.rule .prog 0) res :=
  existsUnique_means wellFormed_pccBody [41] .prog (Nat.zero_le _)

end Jetlang.Lr
