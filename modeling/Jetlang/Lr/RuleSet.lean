import Mathlib.Data.List.Nodup
import Mathlib.Data.List.TakeDrop

/-! # Sets of rules

`pcc_rule_set_t`: the rules a left recursion involves, and those of them that may
still be evaluated in a turn of its growth. A set is an array, of which the
first `len` rules count. `pcc_rule_set__remove` moves the rules behind the
removed one forward, and leaves `len` as it is.
-/

namespace Jetlang.Lr

variable {ρ : Type} [DecidableEq ρ]

/-- `pcc_rule_set__index`. -/
def pccRuleSetIndex (set : List ρ) (rule : ρ) : Option ℕ := set.findIdx? (· == rule)

/-- `pcc_rule_set__add`. -/
def pccRuleSetAdd (set : List ρ) (rule : ρ) : List ρ :=
  match pccRuleSetIndex set rule with
  | some _ => set
  | none => set ++ [rule]

/-- `pcc_rule_set__remove`, when it finds the rule. -/
def pccRuleSetRemove (set : List ρ) (rule : ρ) : Option (List ρ) :=
  match pccRuleSetIndex set rule with
  | some i => some (set.take i ++ set.drop (i + 1) ++ set.drop (set.length - 1))
  | none => none

/-- `pcc_rule_set__copy` into a set, which is cleared first. -/
def pccRuleSetCopy (src : List ρ) : List ρ := src.foldl pccRuleSetAdd []

variable {set t u : List ρ} {rule z : ρ}

/-- No place is found exactly if the rule is not there. -/
theorem pccRuleSetIndex_eq_none : pccRuleSetIndex set rule = none ↔ rule ∉ set := by
  unfold pccRuleSetIndex
  rw [List.findIdx?_eq_none_iff]
  constructor
  · intro h hmem
    simpa using h rule hmem
  · intro h x hx
    rw [beq_eq_false_iff_ne]
    rintro rfl
    exact h hx

/-- Otherwise the first one is. -/
theorem pccRuleSetIndex_split (ht : rule ∉ t) :
    pccRuleSetIndex (t ++ rule :: u) rule = some t.length := by
  have hnone : t.findIdx? (· == rule) = none := pccRuleSetIndex_eq_none.mpr ht
  unfold pccRuleSetIndex
  rw [List.findIdx?_append, hnone, List.findIdx?_cons, beq_self_eq_true]
  simp

theorem pccRuleSetAdd_new (h : rule ∉ set) : pccRuleSetAdd set rule = set ++ [rule] := by
  rw [pccRuleSetAdd, pccRuleSetIndex_eq_none.mpr h]

theorem pccRuleSetAdd_old (h : rule ∈ set) : pccRuleSetAdd set rule = set := by
  unfold pccRuleSetAdd
  split
  · rfl
  · rename_i hnone
    exact absurd h (pccRuleSetIndex_eq_none.mp hnone)

/-- What is not in the set is not removed. -/
theorem pccRuleSetRemove_eq_none : pccRuleSetRemove set rule = none ↔ rule ∉ set := by
  unfold pccRuleSetRemove
  rw [← pccRuleSetIndex_eq_none]
  split
  · rename_i i hi
    simp [hi]
  · rename_i hnone
    simp [hnone]

/-- The rules behind the removed one move forward, and the last one stays as
well. -/
theorem pccRuleSetRemove_split (ht : rule ∉ t) :
    pccRuleSetRemove (t ++ rule :: u) rule =
      some (t ++ u ++ [(rule :: u).getLast (List.cons_ne_nil _ _)]) := by
  unfold pccRuleSetRemove
  simp only [pccRuleSetIndex_split ht]
  have hdrop : (t ++ rule :: u).drop (t.length + 1) = u := by
    rw [List.drop_append]
    simp
  rw [List.take_left, hdrop, List.drop_length_sub_one (by simp), List.getLast_append_of_ne_nil]

/-! ## Copies -/

/-- Adding to a set without doubles makes one without doubles. -/
theorem nodup_pccRuleSetAdd (h : set.Nodup) : (pccRuleSetAdd set rule).Nodup := by
  by_cases hmem : rule ∈ set
  · rw [pccRuleSetAdd_old hmem]
    exact h
  · rw [pccRuleSetAdd_new hmem]
    exact List.nodup_append_comm.mp (List.nodup_cons.mpr ⟨hmem, h⟩)

/-- Rules are added once. -/
theorem nodup_foldl_pccRuleSetAdd (added : List ρ) : (added.foldl pccRuleSetAdd []).Nodup := by
  have hadd : ∀ set : List ρ, set.Nodup → (added.foldl pccRuleSetAdd set).Nodup := by
    induction added with
    | nil => exact fun _ h => h
    | cons r added ih => exact fun set h => ih _ (nodup_pccRuleSetAdd h)
  exact hadd [] List.nodup_nil

/-- A copy of a set without doubles is the same. -/
theorem pccRuleSetCopy_eq (h : set.Nodup) : pccRuleSetCopy set = set := by
  have hcopy : ∀ t, (t ++ set).Nodup → set.foldl pccRuleSetAdd t = t ++ set := by
    clear h
    induction set with
    | nil => exact fun t _ => (List.append_nil t).symm
    | cons r set ih =>
      intro t hnodup
      have hr : r ∉ t := fun hmem =>
        (List.nodup_append.mp hnodup).2.2 r hmem r List.mem_cons_self rfl
      rw [List.foldl_cons, pccRuleSetAdd_new hr, ih _ (by rwa [List.append_assoc]),
        List.append_assoc, List.singleton_append]
  exact hcopy [] h

/-! ## A turn of growth

At the beginning of a turn the set `eval` is a copy of the involved rules. Each
application of a rule tries to remove it, and evaluates the rule if that works.
-/

/-- What is left of a set after trying to remove these rules, one after the
other. -/
def removeAll (set rules : List ρ) : List ρ :=
  rules.foldl (fun s r => (pccRuleSetRemove s r).getD s) set

theorem filter_ne_of_not_mem (h : rule ∉ t) : t.filter (· ≠ rule) = t := by
  refine List.filter_eq_self.mpr ?_
  intro x hx
  exact decide_eq_true fun heq => h (heq ▸ hx)

section Removals

variable (h : (t ++ [z]).Nodup)

include h

/-- One removal, where the last rule of the set is `z`, perhaps more than once. -/
theorem remove_replicate (r : ρ) (k : ℕ) :
    ∃ m, (pccRuleSetRemove (t ++ List.replicate (k + 1) z) r).getD
        (t ++ List.replicate (k + 1) z) = t.filter (· ≠ r) ++ List.replicate (m + 1) z := by
  by_cases hr : r ∈ t
  · -- one of the others: it goes, and `z` fills the place at the end
    rcases List.eq_append_cons_of_mem hr with ⟨s, u, rfl, hs⟩
    have hu : r ∉ u :=
      (List.nodup_cons.mp (List.nodup_append.mp (List.nodup_append.mp h).1).2.1).1
    refine ⟨k + 1, ?_⟩
    rw [List.append_assoc, List.cons_append, pccRuleSetRemove_split hs, List.filter_append,
      List.filter_cons, filter_ne_of_not_mem hs, filter_ne_of_not_mem hu]
    simp [List.replicate_succ']
  · refine ⟨k, ?_⟩
    rw [filter_ne_of_not_mem hr]
    by_cases hrz : r = z
    · -- the last rule: its copy at the end takes its place
      subst hrz
      have hlast : (List.replicate (k + 1) r).getLast (by simp) = r := List.getLast_replicate _
      rw [List.replicate_succ, pccRuleSetRemove_split hr]
      simp only [← List.replicate_succ, hlast]
      rw [Option.getD_some, List.append_assoc, ← List.replicate_succ']
    · have hnot : r ∉ t ++ List.replicate (k + 1) z := by
        simp [hr, hrz]
      rw [pccRuleSetRemove_eq_none.mpr hnot]
      rfl

/-- What removals leave: of the others those that were not removed, and then `z`,
as often as it takes to fill the array. -/
theorem removeAll_replicate (rules : List ρ) (k : ℕ) :
    ∃ m, removeAll (t ++ List.replicate (k + 1) z) rules =
      t.filter (· ∉ rules) ++ List.replicate (m + 1) z := by
  induction rules generalizing t k with
  | nil => exact ⟨k, by simp [removeAll]⟩
  | cons r rules ih =>
    rcases remove_replicate h r k with ⟨m, hm⟩
    have hfilter : (t.filter (· ≠ r) ++ [z]).Nodup :=
      h.sublist (List.filter_sublist.append_right [z])
    rcases ih hfilter m with ⟨n, hn⟩
    refine ⟨n, ?_⟩
    unfold removeAll at hn ⊢
    rw [List.foldl_cons, hm, hn, List.filter_filter]
    simp [Bool.and_comm]

end Removals

/-- What can be removed from a set without doubles, after others were. -/
theorem pccRuleSetRemove_removeAll (h : set.Nodup) (rules : List ρ) (r : ρ) :
    (pccRuleSetRemove (removeAll set rules) r).isSome ↔
      r ∈ set ∧ (r ∉ rules ∨ set.getLast? = some r) := by
  rw [Option.isSome_iff_ne_none, ne_eq, pccRuleSetRemove_eq_none, not_not]
  rcases List.eq_nil_or_concat' set with rfl | ⟨t, z, rfl⟩
  · have hnil : removeAll ([] : List ρ) rules = [] := by
      induction rules with
      | nil => rfl
      | cons _ rules ih => exact ih
    simp [hnil]
  · rcases removeAll_replicate h rules 0 with ⟨m, hm⟩
    have hset : removeAll (t ++ [z]) rules = t.filter (· ∉ rules) ++ List.replicate (m + 1) z := hm
    rw [hset]
    by_cases hrz : r = z
    · subst hrz
      simp
    · have hzr : z ≠ r := fun heq => hrz heq.symm
      simp [hrz, hzr]

/-- **A removal succeeds once for every rule of the set, but for the last one
each time**, whatever rules were added to the set. -/
theorem remove_again_iff (added rules : List ρ) (r : ρ) :
    (pccRuleSetRemove (removeAll (pccRuleSetCopy (added.foldl pccRuleSetAdd [])) rules) r).isSome ↔
      r ∈ added.foldl pccRuleSetAdd [] ∧
        (r ∉ rules ∨ (added.foldl pccRuleSetAdd []).getLast? = some r) := by
  have h := nodup_foldl_pccRuleSetAdd added
  rw [pccRuleSetCopy_eq h]
  exact pccRuleSetRemove_removeAll h rules r

end Jetlang.Lr
