import Jetlang.Pcc2.Words

/-! # String literals

The body of the rule `str` is a repeated sequence of an escaped quote and one
more character, where a choice of the two is meant, and the action makes an
atom of the table of symbols. A literal is read whole if its items are pairs of
an escaped quote and a plain character, no more than an `int` counts, and even then
the atom has the wrong tag.
-/

namespace Jetlang.Pcc2

open Pcc
open Jetlang.Sym (intMax)

/-- A part of a string literal: an escaped quote, or an ASCII character that is
neither a backslash nor a quote. -/
inductive Item where
  | escaped
  | plain (c : UInt8) (ascii : c < 128) (backslash : c ≠ 92) (quote : c ≠ 34)

/-- The characters of a part. -/
def Item.bytes : Item → List UInt8
  | .escaped => [92, 34]
  | .plain c _ _ _ => [c]

/-- The characters of the parts. -/
def body (items : List Item) : List UInt8 := items.flatMap Item.bytes

/-- The literal: the parts between two quotes. -/
def literal (items : List Item) : List UInt8 := [34] ++ (body items ++ [34])

/-- Every escaped quote is followed by a plain character, and nothing else
stands between them. -/
inductive Paired : List Item → Prop where
  | nil : Paired []
  | pair {items : List Item} (c : UInt8) (ascii : c < 128) (backslash : c ≠ 92) (quote : c ≠ 34) :
      Paired items → Paired (.escaped :: .plain c ascii backslash quote :: items)

variable {v w : List UInt8} {ctx : PccContext} {items : List Item}

/-! ## One turn of the body -/

theorem takes_strTurn {c : UInt8} (hc : c ≠ 34) (w : List UInt8) :
    Takes getchar strTurn [92, 34, c] w := by
  have hclass : Takes getchar (charClass (· != 34)) [c] w :=
    takes_charClass (p := fun d => d != 34) bytewise_getchar (bne_iff_ne.mpr hc) w
  exact (takes_string bytewise_getchar [92, 34] (c :: w)).seq hclass

/-- A turn begins with a backslash. -/
theorem rejects_strTurn {c : UInt8} (hc : c ≠ 92) (w : List UInt8) :
    Rejects getchar strTurn (c :: w) := by
  refine (rejects_string bytewise_getchar ?_).seq
  rintro ⟨r, hr⟩
  exact hc (List.cons.inj hr).1.symm

/-- A turn does not end with a quote. -/
theorem rejects_strTurn_quote (w : List UInt8) :
    Rejects getchar strTurn ([92, 34] ++ 34 :: w) := by
  refine (takes_string bytewise_getchar [92, 34] (34 :: w)).seq_rejects ?_
  exact rejects_charClass_cons bytewise_getchar (by decide) w

/-! ## The body -/

/-- How far the turns come in the body of a literal: to its end, to the quote of
an escape, or to something that is no quote. -/
inductive Comes (items : List Item) (v : List UInt8) : Prop where
  | whole (k : ℕ) : Paired items → items.length = 2 * k →
      Repeats getchar strTurn k (body items) (34 :: v) → Comes items v
  | short (k : ℕ) (u r : List UInt8) : ¬ Paired items → body items ++ 34 :: v = u ++ 34 :: r →
      u.length < (body items).length → Repeats getchar strTurn k u (34 :: r) → Comes items v
  | stuck (k : ℕ) (u r : List UInt8) (c : UInt8) : ¬ Paired items → c ≠ 34 →
      body items ++ 34 :: v = u ++ c :: r → Repeats getchar strTurn k u (c :: r) → Comes items v

/-- One of the three is the case. The induction takes two items at a time. -/
theorem comes : ∀ (items : List Item) (v : List UInt8), Comes items v
  | [], v => .whole 0 .nil rfl (rejects_strTurn (by decide) v).repeats
  | .plain c ascii backslash quote :: items, v =>
      .stuck 0 [] (body items ++ 34 :: v) c (fun h => by cases h) quote rfl
        (rejects_strTurn backslash _).repeats
  | [.escaped], v =>
      .stuck 0 [] (34 :: 34 :: v) 92 (fun h => by cases h) (by decide) rfl
        (rejects_strTurn_quote v).repeats
  | .escaped :: .escaped :: items, v => by
      -- the turn takes the second backslash for its character
      have hstop := (rejects_strTurn (c := 34) (by decide) (body items ++ 34 :: v)).repeats
      have hturn := (takes_strTurn (c := 92) (by decide) (34 :: (body items ++ 34 :: v))).repeats
        (List.cons_ne_nil _ _) hstop
      refine .short 1 [92, 34, 92] (body items ++ 34 :: v) (fun h => by cases h) rfl ?_ hturn
      show 3 < (body items).length + 1 + 1 + 1 + 1
      omega
  | .escaped :: .plain c ascii backslash quote :: items, v => by
      have hbody : body (.escaped :: .plain c ascii backslash quote :: items) =
          [92, 34, c] ++ body items := rfl
      have hpaired : ¬ Paired items →
          ¬ Paired (.escaped :: .plain c ascii backslash quote :: items) := by
        intro hnot h
        cases h with
        | pair _ _ _ _ h => exact hnot h
      cases comes items v with
      | whole k hp hlen hrep =>
        refine .whole (k + 1) (.pair c ascii backslash quote hp) ?_ ?_
        · rw [List.length_cons, List.length_cons, hlen, Nat.mul_succ]
        · exact (takes_strTurn quote _).repeats (List.cons_ne_nil _ _) hrep
      | short k u r hp heq hlt hrep =>
        refine .short (k + 1) ([92, 34, c] ++ u) r (hpaired hp) ?_ ?_ ?_
        · rw [hbody, List.append_assoc, heq, List.append_assoc]
        · rw [hbody, List.length_append, List.length_append]
          omega
        · exact (takes_strTurn quote _).repeats (List.cons_ne_nil _ _) hrep
      | stuck k u r d hp hd heq hrep =>
        refine .stuck (k + 1) ([92, 34, c] ++ u) r d (hpaired hp) hd ?_ ?_
        · rw [hbody, List.append_assoc, heq, List.append_assoc]
        · exact (takes_strTurn quote _).repeats (List.cons_ne_nil _ _) hrep

/-! ## The token -/

theorem takes_quote (w : List UInt8) : Takes getchar (charClass (· == 34)) [34] w :=
  takes_charClass bytewise_getchar (by decide) w

section Token

variable {k : ℕ} {u r : List UInt8}

/-- Behind the turns the token wants a quote. -/
theorem takes_strToken (hrep : Repeats getchar strTurn k u (34 :: r)) (hk : k ≤ intMax) :
    Takes getchar strToken ([34] ++ (u ++ [34])) r := by
  have hrest := (hrep.star hk).seq (takes_quote r)
  refine Takes.seq ?_ hrest
  exact takes_quote _

theorem rejects_strToken_stuck {c : UInt8} (hc : c ≠ 34)
    (hrep : Repeats getchar strTurn k u (c :: r)) (hk : k ≤ intMax) :
    Rejects getchar strToken ([34] ++ (u ++ c :: r)) := by
  have hclose : Rejects getchar (charClass (· == 34)) (c :: r) :=
    rejects_charClass_cons (p := (· == 34)) bytewise_getchar (beq_eq_false_iff_ne.mpr hc) r
  refine Takes.seq_rejects (takes_quote _) ?_
  exact (hrep.star hk).seq_rejects hclose

/-- Too many turns are not counted to their end. -/
theorem overruns_strToken (hrep : Repeats getchar strTurn k u r) (hk : intMax < k) :
    Overruns getchar strToken ([34] ++ (u ++ r)) := by
  refine Takes.seq_overruns (takes_quote _) ?_
  exact (hrep.star_overruns hk).seq

end Token

/-! ## The rule -/

/-- In front of a quote the other tokens are passed over. -/
theorem rejects_before_quote (w : List UInt8) :
    Rejects getchar nilToken (34 :: w) ∧ Rejects getchar intToken (34 :: w) ∧
      Rejects getchar symToken (34 :: w) := by
  refine ⟨rejects_nilToken ?_ ?_, rejects_intToken (by decide) w, ?_⟩
  · rintro ⟨r, hr⟩
    exact absurd (List.cons.inj hr).1 (by decide)
  · rintro ⟨r, hr⟩
    exact absurd (List.cons.inj hr).1 (by decide)
  · exact (rejects_charClass_cons (p := isLead) bytewise_getchar (by decide) w).seq

theorem chooses_literal {u r : List UInt8} (hstr : Takes getchar strToken (34 :: u) r) :
    Chooses .str0 (34 :: u) r := by
  rcases rejects_before_quote (u ++ r) with ⟨hnil, hint, hsym⟩
  exact chooses_str hnil hint hsym hstr

theorem literal_append (items : List Item) (v : List UInt8) :
    literal items ++ v = [34] ++ (body items ++ 34 :: v) := by
  simp [literal]

/-- The rule `atom` matches at a literal and consumes exactly its characters. -/
def ConsumesLiteral (ctx : PccContext) (items : List Item) (v : List UInt8) : Prop :=
  ∃ ctx' thunks, Observes pccEvaluateRule (.rule .atom (some 0)) ctx [] (true, ctx', thunks) ∧
    Consumes getchar ctx ctx' (literal items) v

/-- With too many turns the rule has no result: where it has one, they can be counted. -/
theorem le_of_observes {k : ℕ} {u w : List UInt8} (hrep : Repeats getchar strTurn k u w)
    (hready : Ready ctx) (hunread : ctx.unread = [34] ++ (u ++ w))
    {r : Bool × PccContext × List (Pcc.Thunk PccAction)}
    (hobs : Observes pccEvaluateRule (.rule .atom (some 0)) ctx [] r) : k ≤ intMax := by
  by_contra hover
  rcases rejects_before_quote (u ++ w) with ⟨hnil, hint, hsym⟩
  have hstalls := stalls_str hnil hint hsym (overruns_strToken hrep (Nat.lt_of_not_le hover))
  exact (hstalls.atom hready hunread).not_observes hobs

/-- A literal is consumed exactly if its items are pairs, as many as can be
counted. -/
theorem consumesLiteral_iff (hready : Ready ctx) (hunread : ctx.unread = literal items ++ v) :
    ConsumesLiteral ctx items v ↔ Paired items ∧ items.length ≤ 2 * intMax := by
  have htext := hunread
  rw [literal_append] at htext
  cases comes items v with
  | whole k hp hlen hrep =>
    constructor
    · rintro ⟨ctx', thunks, hobs, -⟩
      have hk := le_of_observes hrep hready htext hobs
      exact ⟨hp, by omega⟩
    · rintro ⟨-, hshort⟩
      rcases (chooses_literal (takes_strToken hrep (by omega))).atom hready hunread
        with ⟨ctx', hcons, hobs⟩
      exact ⟨ctx', _, hobs, hcons⟩
  | short k u r hp heq hlt hrep =>
    refine ⟨?_, fun h => absurd h.1 hp⟩
    rintro ⟨ctx₁, thunks, hobs, hcons⟩
    rw [heq] at htext
    have hk := le_of_observes hrep hready htext hobs
    -- the rule stops at the quote of an escape
    have htext' : ctx.unread = [34] ++ (u ++ [34]) ++ r := by
      rw [htext]
      simp
    rcases (chooses_literal (takes_strToken hrep hk)).atom hready htext' with ⟨ctx₂, hcons₂, hobs₂⟩
    cases observes_unique hobs hobs₂
    have h₁ := hcons.cur_eq
    have h₂ : ctx₁.cur = ctx.cur + ([34] ++ (u ++ [34])).length := hcons₂.cur_eq
    unfold literal at h₁
    simp only [List.length_append, List.length_singleton] at h₁ h₂
    omega
  | stuck k u r c hp hc heq hrep =>
    refine ⟨?_, fun h => absurd h.1 hp⟩
    rintro ⟨ctx₁, thunks, hobs, -⟩
    rw [heq] at htext
    have hk := le_of_observes hrep hready htext hobs
    rcases rejects_before_quote (u ++ c :: r) with ⟨hnil, hint, hsym⟩
    rcases atom_fail hready htext hnil hint hsym (rejects_strToken_stuck hc hrep hk)
      with ⟨ctx₂, hobs₂⟩
    cases observes_unique hobs hobs₂

/-- No literal gives an atom of the table of strings. -/
theorem not_readsAtom_str (hready : Ready ctx) (hunread : ctx.unread = literal items ++ v)
    (pos : ℕ) (cst : Cst.CST) : ¬ ReadsAtom pos cst ctx (literal items) v .str := by
  intro hreads
  have hliteral : ConsumesLiteral ctx items v := by
    rcases hreads with ⟨ctx', c, node, cst', hobs, hcons, -⟩
    exact ⟨ctx', _, hobs, hcons⟩
  rcases (consumesLiteral_iff hready hunread).mp hliteral with ⟨hpaired, hshort⟩
  cases comes items v with
  | whole k hp hlen hrep =>
    -- the action has the tag of a symbol
    rcases hreads.value (chooses_literal (takes_strToken hrep (by omega))) hready hunread
      with ⟨-, node, cst', string, hmake, htag, -⟩
    have hsym : node.tag = .sym := tag_of_makeAtom hmake
    rw [htag] at hsym
    cases hsym
  | short k u r hp heq hlt hrep => exact absurd hpaired hp
  | stuck k u r c hp hc heq hrep => exact absurd hpaired hp

/-- **What becomes of a string literal.** It is never an atom of the strings, and
its characters are consumed exactly if its items are pairs, as many as can be
counted. -/
theorem literal_never (hready : Ready ctx) (items : List Item) (v : List UInt8)
    (hunread : ctx.unread = literal items ++ v) (pos : ℕ) (cst : Cst.CST) :
    ¬ ReadsAtom pos cst ctx (literal items) v .str ∧
      (ConsumesLiteral ctx items v ↔ Paired items ∧ items.length ≤ 2 * intMax) :=
  ⟨not_readsAtom_str hready hunread pos cst, consumesLiteral_iff hready hunread⟩

/-- The letter `a` as a part of a literal. -/
def itemA : Item := .plain 97 (by decide) (by decide) (by decide)

/-- An escaped quote and a letter, with more text behind the literal. -/
theorem literal_never_pair :
    ¬ ReadsAtom 0 (.new fun _ => 4) (pccCreate (literal [.escaped, itemA] ++ [34]))
        (literal [.escaped, itemA]) [34] .str ∧
      (ConsumesLiteral (pccCreate (literal [.escaped, itemA] ++ [34])) [.escaped, itemA] [34] ↔
        Paired [.escaped, itemA] ∧ [Item.escaped, itemA].length ≤ 2 * intMax) :=
  literal_never (ready_create (literal [.escaped, itemA] ++ [34])) [.escaped, itemA] [34]
    (by rfl) 0 (.new fun _ => 4)

/-- The literal of one letter is not even consumed. -/
theorem literal_counterexample :
    ¬ ReadsAtom 0 (.new fun _ => 4) (pccCreate (literal [itemA])) (literal [itemA]) [] .str ∧
      ¬ ConsumesLiteral (pccCreate (literal [itemA])) [itemA] [] := by
  have hready := ready_create (literal [itemA])
  refine ⟨not_readsAtom_str hready rfl _ _, ?_⟩
  intro h
  cases ((consumesLiteral_iff (v := []) hready rfl).mp h).1

end Jetlang.Pcc2
