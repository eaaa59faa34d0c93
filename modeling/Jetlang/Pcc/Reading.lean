import Jetlang.Pcc.Observe
import Jetlang.Pcc.Syntax

/-! # How a text is read

`Reads` describes what the rules `expr` and `exprs` make of the text in front of
them, character by character and without the buffer, the memo table and the
backtracking. Its texts may contain bytes that are taken for the end of the
input: asking for a character drops such a byte, so how often a rule asks is
part of the description.
-/

namespace Jetlang.Pcc

/-! ## The next character -/

/-- The text after asking for a character. -/
def left (w : List UInt8) : List UInt8 := (peek pccAuxilGetchar w).2

/-- The next character is not in the class. -/
abbrev Lacks (p : UInt8 → Bool) (w : List UInt8) : Prop := Misses pccAuxilGetchar p w

/-- The characters of a class in front of a text. -/
abbrev Run (p : UInt8 → Bool) (w u v : List UInt8) : Prop := Span pccAuxilGetchar p w u v

/-- A byte that is taken for the end of the input. -/
def IsHigh (b : UInt8) : Prop := 128 ≤ b.toNat

instance : DecidablePred IsHigh := fun b => inferInstanceAs (Decidable (128 ≤ b.toNat))

theorem pccAuxilGetchar_neg {b : UInt8} : pccAuxilGetchar b < 0 ↔ IsHigh b := by
  unfold pccAuxilGetchar IsHigh
  rw [BitVec.toInt_neg_iff]
  show 2 ^ 8 ≤ 2 * b.toNat ↔ _
  omega

theorem faithful_pccAuxilGetchar : Faithful pccAuxilGetchar := by
  intro b hb
  have hlow : b.toNat < 128 := by
    by_contra hhigh
    have := pccAuxilGetchar_neg.mpr (Nat.not_lt.mp hhigh)
    omega
  have hval : pccAuxilGetchar b = b.toNat := by
    unfold pccAuxilGetchar
    exact BitVec.toInt_eq_toNat_of_lt (by show 2 * b.toNat < 2 ^ 8; omega)
  rw [hval, Int.toNat_natCast, UInt8.ofNat_toNat]

theorem left_nil : left [] = [] := rfl

theorem left_low {b : UInt8} (hb : ¬ IsHigh b) (w : List UInt8) : left (b :: w) = b :: w := by
  unfold left
  rw [peek, if_neg (mt pccAuxilGetchar_neg.mp hb)]

theorem left_high {b : UInt8} (hb : IsHigh b) (w : List UInt8) : left (b :: w) = w := by
  unfold left
  rw [peek, if_pos (pccAuxilGetchar_neg.mpr hb)]

theorem peek_low {b : UInt8} (hb : ¬ IsHigh b) (w : List UInt8) :
    peek pccAuxilGetchar (b :: w) = (some b, b :: w) := by
  rw [peek, if_neg (mt pccAuxilGetchar_neg.mp hb)]

theorem length_left_le (w : List UInt8) : (left w).length ≤ w.length := by
  cases w with
  | nil => exact Nat.le_refl _
  | cons b w =>
    by_cases hb : IsHigh b
    · rw [left_high hb]
      exact Nat.le_succ _
    · rw [left_low hb]

/-- The characters of the language are not high. -/
theorem not_isHigh_of_isWord {c : UInt8} (h : isWord c = true) : ¬ IsHigh c := by
  unfold isWord isAlpha at h
  unfold IsHigh
  simp only [Bool.or_eq_true, Bool.and_eq_true, decide_eq_true_eq, beq_iff_eq,
    UInt8.le_iff_toNat_le] at h
  rcases h with ((⟨-, h⟩ | ⟨-, h⟩) | ⟨-, h⟩) | rfl
  · exact Nat.not_le.mpr (Nat.lt_of_le_of_lt h (by decide))
  · exact Nat.not_le.mpr (Nat.lt_of_le_of_lt h (by decide))
  · exact Nat.not_le.mpr (Nat.lt_of_le_of_lt h (by decide))
  · decide

theorem not_isHigh_of_isAlpha {c : UInt8} (h : isAlpha c = true) : ¬ IsHigh c :=
  not_isHigh_of_isWord (isWord_of_isAlpha h)

theorem not_isHigh_of_isBlank {c : UInt8} (h : isBlank c = true) : ¬ IsHigh c := by
  unfold isBlank at h
  simp only [Bool.or_eq_true, beq_iff_eq] at h
  rcases h with (rfl | rfl) | rfl <;> decide

theorem isWord_of_isBlank {c : UInt8} (h : isBlank c = true) : isWord c = false := by
  unfold isBlank at h
  simp only [Bool.or_eq_true, beq_iff_eq] at h
  rcases h with (rfl | rfl) | rfl <;> decide

theorem isBlank_of_isWord {c : UInt8} (h : isWord c = true) : isBlank c = false := by
  by_contra hblank
  rw [isWord_of_isBlank (Bool.of_not_eq_false hblank)] at h
  cases h

theorem Run.length_le {p : UInt8 → Bool} {w u v : List UInt8} (h : Run p w u v) :
    u.length + v.length ≤ w.length := by
  induction h with
  | stop => exact (Nat.zero_add _).symm ▸ length_left_le _
  | more _ _ _ ih =>
    simp only [List.length_cons]
    omega

theorem Run.mem {p : UInt8 → Bool} {w u v : List UInt8} (h : Run p w u v) :
    ∀ c ∈ u, p c = true := by
  induction h with
  | stop => exact fun c hc => by cases hc
  | more _ hp _ ih =>
    intro c hc
    rcases List.mem_cons.mp hc with rfl | hc
    · exact hp
    · exact ih c hc

/-- A run is as long as it can be, and asks for the character that ends it. -/
theorem Run.split {p : UInt8 → Bool} {w u v : List UInt8} (h : Run p w u v) :
    ∃ r, w = u ++ r ∧ Lacks p r ∧ v = left r := by
  induction h with
  | @stop w hp => exact ⟨w, rfl, hp, rfl⟩
  | @more c w u v _ _ _ ih =>
    rcases ih with ⟨r, rfl, hlacks, rfl⟩
    exact ⟨r, rfl, hlacks, rfl⟩

theorem run_append {p : UInt8 → Bool} (hlow : ∀ c, p c = true → ¬ IsHigh c) {u r : List UInt8}
    (hu : ∀ c ∈ u, p c = true) (hlacks : Lacks p r) : Run p (u ++ r) u (left r) := by
  induction u with
  | nil => exact .stop hlacks
  | cons c u ih =>
    have hc := hu c List.mem_cons_self
    refine .more ?_ hc (ih fun d hd => hu d (List.mem_cons_of_mem _ hd))
    exact Int.not_lt.mp (mt pccAuxilGetchar_neg.mp (hlow c hc))

/-! ## Reading -/

/-- What a rule makes of a text: it reads trees and leaves a text; it does not
begin, and leaves a text; it stops at an opening parenthesis that has no
matching end (`bad`); or, for `exprs`, it stops at one behind its first tree
(`blocked`). -/
inductive Outcome where
  | ok (ts : List Tree) (rest : List UInt8)
  | no (rest : List UInt8)
  | bad
  | blocked

/-- What `expr` and `exprs` make of the text in front of them. -/
inductive Reads : Kind → List UInt8 → Outcome → Prop where
  /-- A symbol. -/
  | sym {w v : List UInt8} (n : Name) : Run isWord w n.rest v →
      Reads .expr (n.first :: w) (.ok [.leaf n] v)
  /-- Neither a symbol nor a list: both have asked for a character. -/
  | none {w : List UInt8} : Lacks isAlpha w → Lacks (· == 40) (left w) →
      Reads .expr w (.no (left (left w)))
  /-- A list. -/
  | list {w w₁ u w₂ w₃ : List UInt8} {t : Tree} {ts : List Tree} : Lacks isAlpha w →
      left w = 40 :: w₁ → Run isBlank w₁ u w₂ → Reads .exprs w₂ (.ok (t :: ts) (41 :: w₃)) →
      Reads .expr w (.ok [.list t ts] w₃)
  /-- A list that does not end. -/
  | unclosed {w w₁ u w₂ : List UInt8} {o : Outcome} : Lacks isAlpha w →
      left w = 40 :: w₁ → Run isBlank w₁ u w₂ → Reads .exprs w₂ o →
      (∀ ts w₃, o = .ok ts w₃ → Lacks (· == 41) w₃) →
      Reads .expr w .bad
  /-- No expression. -/
  | nothing {w v : List UInt8} : Reads .expr w (.no v) → Reads .exprs w (.no v)
  /-- A bad first expression. -/
  | first {w : List UInt8} : Reads .expr w .bad → Reads .exprs w .bad
  /-- One expression and no more. -/
  | last {w w₁ u w₂ v : List UInt8} {t : Tree} : Reads .expr w (.ok [t] w₁) →
      Run isBlank w₁ u w₂ → Reads .exprs w₂ (.no v) → Reads .exprs w (.ok [t] v)
  /-- One expression and more. -/
  | more {w w₁ u w₂ v : List UInt8} {t t' : Tree} {ts : List Tree} :
      Reads .expr w (.ok [t] w₁) → Run isBlank w₁ u w₂ → Reads .exprs w₂ (.ok (t' :: ts) v) →
      Reads .exprs w (.ok (t :: t' :: ts) v)
  /-- One expression and a bad one behind it. -/
  | stops {w w₁ u w₂ : List UInt8} {t : Tree} {o : Outcome} : Reads .expr w (.ok [t] w₁) →
      Run isBlank w₁ u w₂ → Reads .exprs w₂ o → o = .bad ∨ o = .blocked →
      Reads .exprs w .blocked

/-- The outcome leaves at most `n` characters, less one for every tree read. -/
def Outcome.Within (n : ℕ) : Outcome → Prop
  | .ok ts v => v.length + ts.length ≤ n ∧ ts ≠ []
  | .no v => v.length ≤ n
  | .bad => True
  | .blocked => True

/-- Reading trees takes at least one character each. -/
theorem Reads.within {k : Kind} {w : List UInt8} {o : Outcome} (h : Reads k w o) :
    o.Within w.length := by
  induction h with
  | @sym w v n hrun =>
    have := hrun.length_le
    refine ⟨?_, List.cons_ne_nil _ _⟩
    simp only [List.length_cons, List.length_nil]
    omega
  | none => exact Nat.le_trans (length_left_le _) (length_left_le _)
  | @list w w₁ u w₂ w₃ t ts _ hopen hblank _ ih =>
    have hlen := ih.1
    have hw := length_left_le w
    have hb := hblank.length_le
    rw [hopen] at hw
    refine ⟨?_, List.cons_ne_nil _ _⟩
    simp only [List.length_cons, List.length_nil] at hlen hw ⊢
    omega
  | unclosed => trivial
  | nothing _ ih => exact ih
  | first => trivial
  | @last w w₁ u w₂ v t _ hblank _ ih ih' =>
    have hlen := ih.1
    have hleft : v.length ≤ w₂.length := ih'
    have hb := hblank.length_le
    refine ⟨?_, List.cons_ne_nil _ _⟩
    simp only [List.length_cons, List.length_nil] at hlen ⊢
    omega
  | @more w w₁ u w₂ v t t' ts _ hblank _ ih ih' =>
    have hlen := ih.1
    have hlen' := ih'.1
    have hb := hblank.length_le
    refine ⟨?_, List.cons_ne_nil _ _⟩
    simp only [List.length_cons, List.length_nil] at hlen hlen' ⊢
    omega
  | stops => trivial

/-- The lists of the trees are shorter than the text. -/
theorem Reads.narrow {k : Kind} {w : List UInt8} {o : Outcome} (h : Reads k w o) :
    ∀ ts v, o = .ok ts v → Narrow w.length ts := by
  induction h with
  | @sym w v n _ =>
    rintro _ _ ⟨⟩
    exact .leaf n
  | @list w w₁ u w₂ w₃ t ts _ hopen hblank hsub ih =>
    rintro _ _ ⟨⟩
    have hlen := hsub.within.1
    have hw := length_left_le w
    have hb := hblank.length_le
    rw [hopen] at hw
    simp only [List.length_cons] at hlen hw
    refine .list ((ih _ _ rfl).mono (by omega)) ?_
    rw [List.length_cons]
    omega
  | @last w w₁ u w₂ v t _ _ _ ih _ =>
    rintro _ _ ⟨⟩
    exact ih _ _ rfl
  | @more w w₁ u w₂ v t t' ts hfirst hblank _ ih ih' =>
    rintro _ _ ⟨⟩
    have hlen := hfirst.within.1
    have hb := hblank.length_le
    exact .cons (ih _ _ rfl) ((ih' _ _ rfl).mono (by omega))
  | none => rintro _ _ ⟨⟩
  | unclosed => rintro _ _ ⟨⟩
  | nothing => rintro _ _ ⟨⟩
  | first => rintro _ _ ⟨⟩
  | stops => rintro _ _ ⟨⟩

/-- An expression is one tree. -/
theorem Reads.single {k : Kind} {w v : List UInt8} {ts : List Tree} (h : Reads k w (.ok ts v))
    (hk : k = .expr) : ∃ t, ts = [t] := by
  cases h with
  | sym n => exact ⟨_, rfl⟩
  | list => exact ⟨_, rfl⟩
  | last => cases hk
  | more => cases hk

theorem lacks_or_left (p : UInt8 → Bool) (w : List UInt8) :
    Lacks p w ∨ ∃ c v, w = c :: v ∧ p c = true ∧ ¬ IsHigh c ∧ left w = c :: v := by
  by_cases hlacks : Lacks p w
  · exact Or.inl hlacks
  · cases w with
    | nil => exact absurd (fun _ hc => by cases hc) hlacks
    | cons c v =>
      by_cases hc : IsHigh c
      · refine absurd ?_ hlacks
        intro d hd
        rw [peek, if_pos (pccAuxilGetchar_neg.mpr hc)] at hd
        cases hd
      · refine Or.inr ⟨c, v, rfl, ?_, hc, left_low hc v⟩
        by_contra hp
        refine hlacks ?_
        intro d hd
        rw [peek_low hc] at hd
        cases hd
        exact Bool.of_not_eq_true hp

/-- **Every text is read somehow.** The induction is on the length of the text;
`exprs` first asks `expr` at the same place. -/
theorem exists_reads (n : ℕ) :
    (∀ w : List UInt8, 2 * w.length < n → ∃ o, Reads .expr w o) ∧
      ∀ w : List UInt8, 2 * w.length + 1 < n → ∃ o, Reads .exprs w o := by
  induction n with
  | zero => exact ⟨fun w hw => by omega, fun w hw => by omega⟩
  | succ n ih =>
    constructor
    · intro w hw
      rcases lacks_or_left isAlpha w with hsym | ⟨c, v, rfl, hc, -, -⟩
      · -- no symbol
        rcases lacks_or_left (· == 40) (left w) with hopen | ⟨c, v, hv, hc, -, -⟩
        · exact ⟨_, .none hsym hopen⟩
        · obtain rfl : c = 40 := eq_of_beq hc
          rcases exists_span pccAuxilGetchar isBlank v with ⟨u, w₂, hblank⟩
          have hshort : 2 * w₂.length + 1 < n := by
            have hlen := length_left_le w
            have hb := Run.length_le hblank
            rw [hv, List.length_cons] at hlen
            omega
          rcases ih.2 w₂ hshort with ⟨o, ho⟩
          -- the list ends with its parenthesis, or it does not
          by_cases hclosed : ∃ t ts w₃, o = .ok (t :: ts) (41 :: w₃)
          · rcases hclosed with ⟨t, ts, w₃, rfl⟩
            exact ⟨_, .list hsym hv hblank ho⟩
          · refine ⟨_, .unclosed hsym hv hblank ho ?_⟩
            intro ts w₃ hok
            subst hok
            rcases lacks_or_left (· == 41) w₃ with hlacks | ⟨c, v, rfl, hc, -, -⟩
            · exact hlacks
            · obtain rfl : c = 41 := eq_of_beq hc
              rcases List.exists_cons_of_ne_nil ho.within.2 with ⟨t, ts, rfl⟩
              exact absurd ⟨t, ts, v, rfl⟩ hclosed
      · rcases exists_span pccAuxilGetchar isWord v with ⟨u, v', hrun⟩
        exact ⟨_, .sym ⟨c, u, hc, Run.mem hrun⟩ hrun⟩
    · intro w hw
      -- the first expression is read from the same text, the rest from a shorter one
      rcases ih.1 w (by omega) with ⟨o, ho⟩
      cases o with
      | no v => exact ⟨_, .nothing ho⟩
      | bad => exact ⟨_, .first ho⟩
      | blocked => cases ho
      | ok ts w₁ =>
        rcases ho.single rfl with ⟨t, rfl⟩
        rcases exists_span pccAuxilGetchar isBlank w₁ with ⟨u, w₂, hblank⟩
        have hshort : 2 * w₂.length + 1 < n := by
          have hlen := ho.within.1
          have hb := Run.length_le hblank
          rw [List.length_singleton] at hlen
          omega
        rcases ih.2 w₂ hshort with ⟨o', ho'⟩
        cases o' with
        | no v => exact ⟨_, .last ho hblank ho'⟩
        | bad => exact ⟨_, .stops ho hblank ho' (Or.inl rfl)⟩
        | blocked => exact ⟨_, .stops ho hblank ho' (Or.inr rfl)⟩
        | ok ts v =>
          rcases List.exists_cons_of_ne_nil ho'.within.2 with ⟨t', ts, rfl⟩
          exact ⟨_, .more ho hblank ho'⟩

end Jetlang.Pcc
