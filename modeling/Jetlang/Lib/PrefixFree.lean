import Mathlib.Data.List.Infix

/-! # Keys none of which begins another

A tree that stores a key at the end of the path it spells can hold a set of
keys only when no key is a proper initial segment of another. Strings closed
by a terminator that does not occur inside them are always such a set.
-/

namespace Keys

variable {α : Type}

/-- `u` is an initial segment of `v`, and shorter. -/
def Begins (u v : List α) : Prop := u <+: v ∧ u ≠ v

instance [DecidableEq α] (u v : List α) : Decidable (Begins u v) :=
  inferInstanceAs (Decidable (u <+: v ∧ u ≠ v))

/-- No key begins another one. -/
def PrefixFree (keys : List (List α)) : Prop :=
  ∀ u ∈ keys, ∀ v ∈ keys, ¬ Begins u v

theorem begins_iff {u v : List α} : Begins u v ↔ ∃ w, w ≠ [] ∧ v = u ++ w := by
  constructor
  · rintro ⟨⟨w, rfl⟩, hne⟩
    exact ⟨w, fun hw => hne (by simp [hw]), rfl⟩
  · rintro ⟨w, hw, rfl⟩
    exact ⟨List.prefix_append u w, fun h => hw (by simpa using h.symm)⟩

theorem Begins.length_lt {u v : List α} (h : Begins u v) : u.length < v.length := by
  rcases begins_iff.mp h with ⟨w, hw, rfl⟩
  have := List.length_pos_iff.mpr hw
  rw [List.length_append]
  omega

theorem not_begins_self (u : List α) : ¬ Begins u u := fun h => h.2 rfl

theorem begins_append_cons (u : List α) (c : α) (v : List α) : Begins u (u ++ c :: v) :=
  begins_iff.mpr ⟨c :: v, by simp, rfl⟩

theorem prefixFree_nil : PrefixFree ([] : List (List α)) := by
  intro u hu
  simp at hu

theorem PrefixFree.of_subset {keys keys' : List (List α)} (h : PrefixFree keys')
    (hsub : keys ⊆ keys') : PrefixFree keys :=
  fun u hu v hv => h u (hsub hu) v (hsub hv)

/-- Adding a key: it must neither begin an old key nor have one begin it. -/
theorem prefixFree_append_singleton {keys : List (List α)} {k : List α} :
    PrefixFree (keys ++ [k]) ↔
      PrefixFree keys ∧ ∀ u ∈ keys, ¬ Begins u k ∧ ¬ Begins k u := by
  constructor
  · intro h
    refine ⟨fun u hu v hv => h u (by simp [hu]) v (by simp [hv]), ?_⟩
    intro u hu
    exact ⟨h u (by simp [hu]) k (by simp), h k (by simp) u (by simp [hu])⟩
  · rintro ⟨hkeys, hk⟩ u hu v hv
    rcases List.mem_append.mp hu with hu | hu <;> rcases List.mem_append.mp hv with hv | hv
    · exact hkeys u hu v hv
    · rw [List.mem_singleton.mp hv]
      exact (hk u hu).1
    · rw [List.mem_singleton.mp hu]
      exact (hk v hv).2
    · rw [List.mem_singleton.mp hu, List.mem_singleton.mp hv]
      exact not_begins_self k

/-- A terminated string does not begin another terminated string. -/
theorem not_begins_of_terminated {s t : List α} {z : α} (ht : z ∉ t) :
    ¬ Begins (s ++ [z]) (t ++ [z]) := by
  intro h
  rcases begins_iff.mp h with ⟨w, hw, heq⟩
  -- the terminator of the shorter string would lie inside the longer one
  rcases (List.eq_nil_or_concat w).resolve_left hw with ⟨w', y, rfl⟩
  have hinit : t = s ++ [z] ++ w' := by
    rw [List.concat_eq_append, ← List.append_assoc] at heq
    exact List.append_inj_left' heq rfl
  exact ht (by simp [hinit])

end Keys
