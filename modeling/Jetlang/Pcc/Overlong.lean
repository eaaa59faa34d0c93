import Jetlang.Lib.LongRuns
import Jetlang.Pcc.Reading

/-! # Texts the parser cannot count

The loop of a repetition counts its turns in an `int`. `Overlong` says that the rules
come to a run of characters in front of them that has too many for it, and
`OverlongProgram` that the parser does so in a text. Such a text has a long run: more
than `INT_MAX` blanks in a row, or a symbol with more than `INT_MAX` characters behind
its first one.
-/

namespace Jetlang.Pcc

open LongRuns
open Jetlang.Sym (intMax)

/-- In front of the text the rule comes to a run that is too long. -/
inductive Overlong : Kind → List UInt8 → Prop where
  /-- The characters of a symbol, behind its first one. -/
  | sym {c : UInt8} {w u v : List UInt8} : isAlpha c = true → Run isWord w u v →
      intMax < u.length → Overlong .expr (c :: w)
  /-- The blanks behind an opening parenthesis. -/
  | opening {w w₁ u w₂ : List UInt8} : Lacks isAlpha w → left w = 40 :: w₁ →
      Run isBlank w₁ u w₂ → intMax < u.length → Overlong .expr w
  /-- The entries of a list. -/
  | inside {w w₁ u w₂ : List UInt8} : Lacks isAlpha w → left w = 40 :: w₁ →
      Run isBlank w₁ u w₂ → Overlong .exprs w₂ → Overlong .expr w
  /-- The first expression. -/
  | first {w : List UInt8} : Overlong .expr w → Overlong .exprs w
  /-- The blanks behind it. -/
  | blanks {w w₁ u w₂ : List UInt8} {t : Tree} : Reads .expr w (.ok [t] w₁) →
      Run isBlank w₁ u w₂ → intMax < u.length → Overlong .exprs w
  /-- The expressions behind it. -/
  | rest {w w₁ u w₂ : List UInt8} {t : Tree} : Reads .expr w (.ok [t] w₁) →
      Run isBlank w₁ u w₂ → Overlong .exprs w₂ → Overlong .exprs w

/-- In the text the parser comes to a run that is too long. -/
inductive OverlongProgram (text : List UInt8) : Prop where
  /-- The blanks in front of the expression. -/
  | leading {u w : List UInt8} : Run isBlank text u w → intMax < u.length → OverlongProgram text
  | expr {u w : List UInt8} : Run isBlank text u w → Overlong .expr w → OverlongProgram text
  /-- The blanks behind it. -/
  | trailing {u w w₁ u' w₂ : List UInt8} {t : Tree} : Run isBlank text u w →
      Reads .expr w (.ok [t] w₁) → Run isBlank w₁ u' w₂ → intMax < u'.length →
      OverlongProgram text

/-! ## What is left is the end of the text -/

theorem left_suffix (w : List UInt8) : left w <:+ w := by
  cases w with
  | nil => exact List.suffix_refl []
  | cons b w =>
    by_cases hb : IsHigh b
    · rw [left_high hb]
      exact List.suffix_cons b w
    · rw [left_low hb]

section Suffix

variable {p : UInt8 → Bool} {k : Kind} {w u v : List UInt8} {o : Outcome}

/-- The characters of a run stand in the text. -/
theorem Run.infix (h : Run p w u v) : u <:+: w := by
  rcases h.split with ⟨r, rfl, -, -⟩
  exact (List.prefix_append u r).isInfix

theorem Run.suffix (h : Run p w u v) : v <:+ w := by
  rcases h.split with ⟨r, rfl, -, rfl⟩
  exact (left_suffix r).trans (List.suffix_append u r)

/-- Behind the first character of a text. -/
theorem suffix_of_left {c : UInt8} (h : left w = c :: v) : v <:+ w := by
  have hleft := left_suffix w
  rw [h] at hleft
  exact (List.suffix_cons c v).trans hleft

/-- The text that is left, if it is known, is the end of `w`. -/
def Outcome.EndOf (w : List UInt8) : Outcome → Prop
  | .ok _ v => v <:+ w
  | .no v => v <:+ w
  | .bad => True
  | .blocked => True

theorem Reads.endOf (h : Reads k w o) : o.EndOf w := by
  induction h with
  | sym n hrun => exact hrun.suffix.trans (List.suffix_cons _ _)
  | none => exact (left_suffix _).trans (left_suffix _)
  | list _ hopen hblank _ ih =>
    have hclose := (List.suffix_cons 41 _).trans ih
    exact (hclose.trans hblank.suffix).trans (suffix_of_left hopen)
  | nothing _ ih => exact ih
  | last _ hblank _ ih ih' => exact (List.IsSuffix.trans ih' hblank.suffix).trans ih
  | more _ hblank _ ih ih' => exact (List.IsSuffix.trans ih' hblank.suffix).trans ih
  | unclosed => trivial
  | first => trivial
  | stops => trivial

theorem Reads.suffix {ts : List Tree} (h : Reads k w (.ok ts v)) : v <:+ w := h.endOf

end Suffix

/-! ## Long runs -/

/-- More blanks stand in a row than an `int` counts, or more characters of a symbol
behind the first one. -/
def HasLongRun (w : List UInt8) : Prop := HasRun isBlank intMax w ∨ HasRun isWord (intMax + 1) w

theorem HasLongRun.mono {w v : List UInt8} (h : HasLongRun w) (hw : w <:+: v) : HasLongRun v :=
  h.imp (HasRun.mono · hw) (HasRun.mono · hw)

/-- It has more characters than an `int` counts. -/
theorem HasLongRun.lt_length {w : List UInt8} (h : HasLongRun w) : intMax < w.length := by
  rcases h with h | h
  · exact Nat.lt_of_lt_of_le h.lt_countP List.countP_le_length
  · exact Nat.lt_of_le_of_lt (Nat.le_succ _) (Nat.lt_of_lt_of_le h.lt_countP List.countP_le_length)

/-- Too many blanks. -/
theorem Run.hasLongRun {w u v : List UInt8} (h : Run isBlank w u v) (hlong : intMax < u.length) :
    HasLongRun w :=
  Or.inl ⟨u, h.infix, h.mem, hlong⟩

/-- The run a rule comes to stands in the text. -/
theorem Overlong.hasLongRun {k : Kind} {w : List UInt8} (h : Overlong k w) : HasLongRun w := by
  induction h with
  | @sym c w u v hc hrun hlong =>
    rcases hrun.split with ⟨r, rfl, -, -⟩
    refine Or.inr ⟨c :: u, (List.prefix_append (c :: u) r).isInfix, ?_, Nat.succ_lt_succ hlong⟩
    exact List.forall_mem_cons.mpr ⟨isWord_of_isAlpha hc, hrun.mem⟩
  | opening _ hopen hblank hlong =>
    exact (hblank.hasLongRun hlong).mono (suffix_of_left hopen).isInfix
  | inside _ hopen hblank _ ih =>
    exact ih.mono (hblank.suffix.trans (suffix_of_left hopen)).isInfix
  | first _ ih => exact ih
  | blanks hreads hblank hlong =>
    exact (hblank.hasLongRun hlong).mono (hreads.suffix).isInfix
  | rest hreads hblank _ ih =>
    exact ih.mono (hblank.suffix.trans (hreads.suffix)).isInfix

/-- **Only a text with a long run** is too long for the parser. -/
theorem OverlongProgram.hasLongRun {text : List UInt8} (h : OverlongProgram text) :
    HasLongRun text := by
  cases h with
  | leading hblank hlong => exact hblank.hasLongRun hlong
  | expr hblank hover => exact hover.hasLongRun.mono hblank.suffix.isInfix
  | trailing hblank hreads hblank' hlong =>
    exact (hblank'.hasLongRun hlong).mono
      ((hreads.suffix).trans hblank.suffix).isInfix

/-- A text that an `int` counts is not too long. -/
theorem not_overlongProgram {text : List UInt8} (hshort : text.length ≤ intMax) :
    ¬ OverlongProgram text := by
  intro h
  have hlt := h.hasLongRun.lt_length
  omega

end Jetlang.Pcc
