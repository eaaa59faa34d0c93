import Mathlib.Data.List.TakeWhile

/-! # Outlines

The outline of a forest lists its nodes in preorder, each with its depth. The
depths alone tell where the children of a node end, so an outline has one
forest only.
-/

namespace Outline

/-- A list of trees with labelled nodes: the first root with its label, the trees
below it, and the other trees. -/
inductive Forest (α : Type*) where
  | nil
  | cons (label : α) (below rest : Forest α)

variable {α : Type*}

/-- The nodes of a forest in preorder, each with its depth; the roots are at
`d`. -/
def outline (d : ℕ) : Forest α → List (ℕ × α)
  | .nil => []
  | .cons a below rest => (d, a) :: (outline (d + 1) below ++ outline d rest)

theorem le_of_mem_outline {d : ℕ} {f : Forest α} {e : ℕ × α} (h : e ∈ outline d f) :
    d ≤ e.1 := by
  induction f generalizing d with
  | nil => cases h
  | cons a below rest ihb ihr =>
    rcases List.mem_cons.mp h with rfl | h
    · exact Nat.le_refl _
    · rcases List.mem_append.mp h with h | h
      · exact Nat.le_of_succ_le (ihb h)
      · exact ihr h

/-- What is deeper than the first root, up to the next root, is below it. -/
theorem takeWhile_outline (d : ℕ) (below rest : Forest α) :
    (outline (d + 1) below ++ outline d rest).takeWhile (fun e => d < e.1) =
      outline (d + 1) below := by
  have hbelow : ∀ e ∈ outline (d + 1) below, decide (d < e.1) = true :=
    fun e he => decide_eq_true (le_of_mem_outline he)
  rw [List.takeWhile_append_of_pos hbelow]
  cases rest with
  | nil => simp [outline]
  | cons a below' rest' => simp [outline]

/-- **Outlines tell forests apart.** By induction on the forest. -/
theorem outline_injective {d : ℕ} {f g : Forest α} (h : outline d f = outline d g) : f = g := by
  induction f generalizing d g with
  | nil =>
    cases g with
    | nil => rfl
    | cons => cases h
  | cons a below rest ihb ihr =>
    cases g with
    | nil => cases h
    | cons b below' rest' =>
      rw [outline, outline, List.cons.injEq] at h
      rcases h with ⟨hroot, htail⟩
      have hbelow := congrArg (List.takeWhile fun e : ℕ × α => decide (d < e.1)) htail
      rw [takeWhile_outline, takeWhile_outline] at hbelow
      rw [hbelow] at htail
      rw [(Prod.mk.inj hroot).2, ihb hbelow, ihr (List.append_cancel_left htail)]

end Outline
