import Mathlib.Data.List.Infix
import Mathlib.Data.Nat.Notation

/-! # Long runs

A text has a long run of a class when more than `n` characters of the class stand in
a row in it. Where two texts are put together no run goes across the seam if the
character on one of its sides is not in the class. Then the runs of the whole text are
those of its two parts.
-/

namespace LongRuns

variable {α : Type*} {p : α → Bool} {n : ℕ} {x y : List α}

/-- More than `n` characters of the class stand in a row. -/
def HasRun (p : α → Bool) (n : ℕ) (x : List α) : Prop :=
  ∃ u, u <:+: x ∧ (∀ c ∈ u, p c = true) ∧ n < u.length

/-- A part of a text has no longer runs. -/
theorem HasRun.mono (h : HasRun p n x) (hx : x <:+: y) : HasRun p n y := by
  rcases h with ⟨u, hu, hclass, hlong⟩
  exact ⟨u, hu.trans hx, hclass, hlong⟩

/-- The text has more characters of the class than the run counts. -/
theorem HasRun.lt_countP (h : HasRun p n x) : n < x.countP p := by
  rcases h with ⟨u, hu, hclass, hlong⟩
  have hcount : u.countP p = u.length := List.countP_eq_length.mpr hclass
  have hle := hu.sublist.countP_le (p := p)
  omega

/-- A text of the class is one run. -/
theorem hasRun_of_forall (hx : ∀ c ∈ x, p c = true) : HasRun p n x ↔ n < x.length := by
  constructor
  · rintro ⟨u, hu, -, hlong⟩
    exact Nat.lt_of_lt_of_le hlong hu.length_le
  · intro hlong
    exact ⟨x, List.infix_refl x, hx, hlong⟩

/-- A text without the class has no run. -/
theorem not_hasRun (hx : ∀ c ∈ x, p c = false) : ¬ HasRun p n x := by
  intro h
  have hlt := h.lt_countP
  have hzero : x.countP p = 0 := by
    rw [List.countP_eq_zero]
    intro c hc
    rw [hx c hc]
    exact Bool.false_ne_true
  omega

/-- A character on one side of the seam is not in the class. -/
def Parts (p : α → Bool) (x y : List α) : Prop :=
  (∀ c ∈ x.getLast?, p c = false) ∨ ∀ c ∈ y.head?, p c = false

/-- No run goes across such a seam. -/
theorem HasRun.append (h : HasRun p n (x ++ y)) (hseam : Parts p x y) :
    HasRun p n x ∨ HasRun p n y := by
  rcases h with ⟨u, hu, hclass, hlong⟩
  rcases List.infix_append_iff_ne_nil.mp hu with hx | hy | ⟨u₁, u₂, hne₁, hne₂, rfl, hx, hy⟩
  · exact Or.inl ⟨u, hx, hclass, hlong⟩
  · exact Or.inr ⟨u, hy, hclass, hlong⟩
  · -- the run has characters on both sides
    exfalso
    rcases hseam with hlast | hhead
    · have hin : u₁.getLast hne₁ ∈ u₁ := List.getLast_mem hne₁
      have hend : x.getLast? = some (u₁.getLast hne₁) := by
        rcases hx with ⟨r, rfl⟩
        rw [List.getLast?_append_of_ne_nil _ hne₁, List.getLast?_eq_some_getLast]
      have hp := hlast _ hend
      rw [hclass _ (List.mem_append_left u₂ hin)] at hp
      cases hp
    · rcases List.exists_cons_of_ne_nil hne₂ with ⟨c, v, rfl⟩
      have hbegin : y.head? = some c := by
        rcases hy with ⟨r, rfl⟩
        rfl
      have hp := hhead c hbegin
      rw [hclass c (List.mem_append_right u₁ List.mem_cons_self)] at hp
      cases hp

end LongRuns
