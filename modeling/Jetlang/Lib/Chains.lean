import Mathlib.Data.List.Perm.Basic
import Mathlib.Data.List.Range
import Mathlib.Data.List.Count
import Mathlib.Data.List.Nodup

/-! # Objects in linked lists

Objects have numbers, and each of them may lead to another one. From some roots lists
are linked in this way. The objects that were made are `Accounted` for if every one is
in exactly one of the lists, and once, or is gone.
-/

namespace Chains

/-- From an object, or from nothing, a list is linked. -/
inductive Chain (next : ℕ → Option ℕ) : Option ℕ → List ℕ → Prop where
  | nil : Chain next none []
  | cons {a : ℕ} {l : List ℕ} : Chain next (next a) l → Chain next (some a) (a :: l)

/-- From the roots lists are linked, and these are their objects. -/
inductive Lists (next : ℕ → Option ℕ) : List ℕ → List ℕ → Prop where
  | nil : Lists next [] []
  | cons {a : ℕ} {roots l m : List ℕ} : Chain next (some a) l → Lists next roots m →
      Lists next (a :: roots) (l ++ m)

variable {next next' : ℕ → Option ℕ} {start : Option ℕ} {roots roots' rest l m gone : List ℕ}
  {a n : ℕ}

/-! ## Lists from roots -/

/-- The lists from the first roots, and those from the others. -/
theorem Lists.split : ∀ {roots l : List ℕ}, Lists next (roots ++ roots') l →
    ∃ l₁ l₂, l = l₁ ++ l₂ ∧ Lists next roots l₁ ∧ Lists next roots' l₂
  | [], l, h => ⟨[], l, rfl, .nil, h⟩
  | a :: roots, _, .cons hchain hlists => by
    rcases hlists.split with ⟨l₁, l₂, rfl, h₁, h₂⟩
    exact ⟨_, l₂, (List.append_assoc ..).symm, .cons hchain h₁, h₂⟩

/-- From one root, or from none. -/
theorem Lists.chain (h : Lists next start.toList l) : Chain next start l := by
  cases start with
  | none =>
    cases h
    exact .nil
  | some a =>
    cases h with
    | cons hchain hnil =>
      cases hnil
      rw [List.append_nil]
      exact hchain

/-- The roots may come in another order. -/
theorem Lists.perm (h : Lists next roots l) (hperm : roots.Perm roots') :
    ∃ m, l.Perm m ∧ Lists next roots' m := by
  induction hperm generalizing l with
  | nil => exact ⟨l, .refl l, h⟩
  | cons a _ ih =>
    cases h with
    | @cons _ _ l₁ _ hchain hlists =>
      rcases ih hlists with ⟨m, hm, hlists'⟩
      exact ⟨_, hm.append_left l₁, .cons hchain hlists'⟩
  | swap a b roots =>
    cases h with
    | @cons _ _ l₁ _ hchain hlists =>
      cases hlists with
      | @cons _ _ l₂ l₃ hchain' hlists' =>
        refine ⟨l₂ ++ (l₁ ++ l₃), ?_, .cons hchain' (.cons hchain hlists')⟩
        rw [← List.append_assoc, ← List.append_assoc]
        exact List.perm_append_comm.append_right l₃
  | trans _ _ ih ih' =>
    rcases ih h with ⟨m, hm, hlists⟩
    rcases ih' hlists with ⟨m', hm', hlists'⟩
    exact ⟨m', hm.trans hm', hlists'⟩

/-! ## Changes -/

/-- A list stays as it is if its objects lead where they did. -/
theorem Chain.frame (h : Chain next start l) (hsame : ∀ b ∈ l, next' b = next b) :
    Chain next' start l := by
  induction h with
  | nil => exact .nil
  | cons _ ih =>
    refine .cons ?_
    rw [hsame _ List.mem_cons_self]
    exact ih fun b hb => hsame b (List.mem_cons_of_mem _ hb)

theorem Lists.frame (h : Lists next roots l) (hsame : ∀ b ∈ l, next' b = next b) :
    Lists next' roots l := by
  induction h with
  | nil => exact .nil
  | cons hchain _ ih =>
    exact .cons (hchain.frame fun b hb => hsame b (List.mem_append_left _ hb))
      (ih fun b hb => hsame b (List.mem_append_right _ hb))

section Insert

variable (ha : next' a = some n) (hn : next' n = next a)
  (hother : ∀ b, b ≠ a → b ≠ n → next' b = next b)

include ha hn hother

/-- Behind `a` a new object is linked in. -/
theorem Chain.insert (h : Chain next start l) (hnew : n ∉ l) :
    ∃ m, m.Perm (List.replicate (l.count a) n ++ l) ∧ Chain next' start m := by
  induction h with
  | nil => exact ⟨[], .refl _, .nil⟩
  | @cons b l _ ih =>
    rw [List.mem_cons, not_or] at hnew
    rcases ih hnew.2 with ⟨m, hm, hchain⟩
    by_cases hba : b = a
    · subst hba
      refine ⟨b :: n :: m, ?_, .cons ?_⟩
      · rw [List.count_cons_self, List.replicate_succ, List.cons_append]
        refine (List.Perm.swap n b m).trans (List.Perm.cons n ?_)
        exact (hm.cons b).trans List.perm_middle.symm
      · rw [ha]
        refine .cons ?_
        rw [hn]
        exact hchain
    · refine ⟨b :: m, ?_, .cons ?_⟩
      · rw [List.count_cons_of_ne hba]
        exact (hm.cons b).trans List.perm_middle.symm
      · rw [hother b hba (Ne.symm hnew.1)]
        exact hchain

theorem Lists.insert (h : Lists next roots l) (hnew : n ∉ l) :
    ∃ m, m.Perm (List.replicate (l.count a) n ++ l) ∧ Lists next' roots m := by
  induction h with
  | nil => exact ⟨[], .refl _, .nil⟩
  | @cons b roots l₁ l₂ hchain _ ih =>
    rw [List.mem_append, not_or] at hnew
    rcases hchain.insert ha hn hother hnew.1 with ⟨m₁, hm₁, hchain'⟩
    rcases ih hnew.2 with ⟨m₂, hm₂, hlists'⟩
    refine ⟨m₁ ++ m₂, ?_, .cons hchain' hlists'⟩
    rw [List.count_append, List.replicate_add, List.append_assoc]
    refine (hm₁.append hm₂).trans ?_
    rw [List.append_assoc]
    refine List.Perm.append_left _ ?_
    rw [← List.append_assoc, ← List.append_assoc]
    exact List.perm_append_comm.append_right l₂

end Insert

/-! ## Accounts -/

/-- The `n` objects that were made are in the lists from the roots, each of them once, but
for those that are gone. -/
def Accounted (next : ℕ → Option ℕ) (roots gone : List ℕ) (n : ℕ) : Prop :=
  ∃ l, Lists next roots l ∧ (l ++ gone).Perm (List.range n)

theorem accounted_nil (next : ℕ → Option ℕ) : Accounted next [] [] 0 :=
  ⟨[], .nil, .refl _⟩

theorem Accounted.lt_of_gone (h : Accounted next roots gone n) (ha : a ∈ gone) : a < n := by
  rcases h with ⟨l, -, hperm⟩
  exact List.mem_range.mp (hperm.subset (List.mem_append_right l ha))

theorem perm_range_succ (h : l.Perm (List.range n)) : (n :: l).Perm (List.range (n + 1)) := by
  rw [List.range_succ]
  exact (h.cons n).trans (List.perm_append_singleton n _).symm

/-- A new object is put in front of a list, or makes a list of its own. -/
theorem Accounted.push {old : Option ℕ} (h : Accounted next roots gone n)
    (hroots : roots.Perm (old.toList ++ rest)) (hroots' : roots'.Perm (n :: rest))
    (hn : next' n = old) (hother : ∀ b, b ≠ n → next' b = next b) :
    Accounted next' roots' gone (n + 1) := by
  rcases h with ⟨l, hlists, hperm⟩
  have hnew : n ∉ l := fun hmem =>
    Nat.lt_irrefl n (List.mem_range.mp (hperm.subset (List.mem_append_left gone hmem)))
  rcases hlists.perm hroots with ⟨m, hlm, hlists'⟩
  have hframe : Lists next' (old.toList ++ rest) m := hlists'.frame fun b hb =>
    hother b fun heq => hnew (heq ▸ hlm.symm.subset hb)
  have hpush : Lists next' (n :: rest) (n :: m) := by
    cases old with
    | none =>
      have hchain : Chain next' (some n) [n] := by
        refine .cons ?_
        rw [hn]
        exact .nil
      exact .cons hchain hframe
    | some b =>
      cases hframe with
      | @cons _ _ l₁ _ hchain hrest =>
        have hchain' : Chain next' (some n) (n :: l₁) := by
          refine .cons ?_
          rw [hn]
          exact hchain
        exact .cons hchain' hrest
  rcases hpush.perm hroots'.symm with ⟨m', hmm', hlists''⟩
  refine ⟨m', hlists'', ?_⟩
  refine ((hmm'.symm.trans (hlm.symm.cons n)).append_right gone).trans ?_
  exact perm_range_succ hperm

/-- A new object is linked in behind one that is not gone. -/
theorem Accounted.insert (h : Accounted next roots gone n) (hlt : a < n) (hgone : a ∉ gone)
    (ha : next' a = some n) (hn : next' n = next a)
    (hother : ∀ b, b ≠ a → b ≠ n → next' b = next b) :
    Accounted next' roots gone (n + 1) := by
  rcases h with ⟨l, hlists, hperm⟩
  have hnew : n ∉ l := fun hmem =>
    Nat.lt_irrefl n (List.mem_range.mp (hperm.subset (List.mem_append_left gone hmem)))
  have hcount : l.count a = 1 := by
    have hone : (l ++ gone).count a = 1 := by
      rw [hperm.count_eq]
      exact List.count_eq_one_of_mem List.nodup_range (List.mem_range.mpr hlt)
    rwa [List.count_append, List.count_eq_zero_of_not_mem hgone, Nat.add_zero] at hone
  rcases hlists.insert ha hn hother hnew with ⟨m, hm, hlists'⟩
  rw [hcount] at hm
  refine ⟨m, hlists', ?_⟩
  refine (hm.append_right gone).trans ?_
  exact perm_range_succ hperm

/-- The roots may come in another order. -/
theorem Accounted.perm (h : Accounted next roots gone n) (hroots : roots.Perm roots') :
    Accounted next roots' gone n := by
  rcases h with ⟨l, hlists, hperm⟩
  rcases hlists.perm hroots with ⟨m, hm, hlists'⟩
  exact ⟨m, hlists', (hm.symm.append_right gone).trans hperm⟩

/-- The lists from some of the roots go. -/
theorem Accounted.drop (h : Accounted next roots gone n) (hroots : roots.Perm (roots' ++ rest)) :
    ∃ l, Lists next roots' l ∧ Accounted next rest (l ++ gone) n := by
  rcases h with ⟨m, hlists, hperm⟩
  rcases hlists.perm hroots with ⟨m', hm, hlists'⟩
  rcases hlists'.split with ⟨l₁, l₂, rfl, h₁, h₂⟩
  refine ⟨l₁, h₁, l₂, h₂, ?_⟩
  refine List.Perm.trans ?_ hperm
  rw [← List.append_assoc]
  exact (List.perm_append_comm.append_right gone).trans (hm.symm.append_right gone)

/-- If all lists go everything is gone. -/
theorem Accounted.all (h : Accounted next [] gone n) : gone.Perm (List.range n) := by
  rcases h with ⟨l, hlists, hperm⟩
  cases hlists
  exact hperm

/-- What is in lists and not gone was made, and there is no more of it than was made. -/
theorem Accounted.drop_lt (h : Accounted next roots (l ++ gone) n) :
    (∀ a ∈ l, a < n) ∧ l.length ≤ n := by
  refine ⟨fun a ha => h.lt_of_gone (List.mem_append_left gone ha), ?_⟩
  rcases h with ⟨m, -, hperm⟩
  have hlen := hperm.length_eq
  rw [List.length_append, List.length_append, List.length_range] at hlen
  omega

/-! ## Objects in memory -/

section Objects

variable {β : Type*} {hold : β → Option ℕ} {objects : List β} {x y : β}

/-- Where objects lead that are in memory. -/
def linked (hold : β → Option ℕ) (objects : List β) (a : ℕ) : Option ℕ := objects[a]?.bind hold

theorem linked_of_get (h : objects[a]? = some x) : linked hold objects a = hold x := by
  unfold linked
  rw [h]
  rfl

theorem linked_concat_self : linked hold (objects ++ [x]) objects.length = hold x :=
  linked_of_get List.getElem?_concat_length

theorem linked_concat_of_ne (h : a ≠ objects.length) :
    linked hold (objects ++ [x]) a = linked hold objects a := by
  unfold linked
  by_cases hlt : a < objects.length
  · rw [List.getElem?_append_left hlt]
  · rw [List.getElem?_eq_none (by rw [List.length_append, List.length_singleton]; omega),
      List.getElem?_eq_none (Nat.not_lt.mp hlt)]

theorem linked_set_of_ne {b : ℕ} (h : b ≠ a) :
    linked hold (objects.set a x) b = linked hold objects b := by
  unfold linked
  rw [List.getElem?_set_ne h.symm]

/-- An object is written anew, and leads where it did. -/
theorem linked_set (h : objects[a]? = some x) (hsame : hold y = hold x) :
    linked hold (objects.set a y) = linked hold objects := by
  funext b
  by_cases hb : b = a
  · subst hb
    have hlt : b < objects.length := (List.getElem?_eq_some_iff.mp h).1
    rw [linked_of_get (List.getElem?_set_self hlt), linked_of_get h, hsame]
  · exact linked_set_of_ne hb

theorem linked_modify {f : β → β} (hsame : ∀ x, hold (f x) = hold x) :
    linked hold (objects.modify a f) = linked hold objects := by
  funext b
  unfold linked
  rw [List.getElem?_modify]
  split
  · cases objects[b]? with
    | none => rfl
    | some x => exact hsame x
  · cases objects[b]? <;> rfl

/-- A new object that leads to one of the roots, and is a root in its place. -/
theorem Accounted.concat (h : Accounted (linked hold objects) roots gone objects.length)
    (hroots : roots.Perm ((hold x).toList ++ rest))
    (hroots' : roots'.Perm (objects.length :: rest)) :
    Accounted (linked hold (objects ++ [x])) roots' gone (objects ++ [x]).length := by
  rw [List.length_append, List.length_singleton]
  exact h.push hroots hroots' linked_concat_self fun b hb => linked_concat_of_ne hb

/-- What an object was is put behind it. -/
theorem Accounted.behind (h : Accounted (linked hold objects) roots gone objects.length)
    (hx : objects[a]? = some x) (hgone : a ∉ gone) (hy : hold y = some objects.length) :
    Accounted (linked hold ((objects ++ [x]).set a y)) roots gone
      ((objects ++ [x]).set a y).length := by
  have hlt : a < objects.length := (List.getElem?_eq_some_iff.mp hx).1
  have hlen : a < (objects ++ [x]).length := by
    rw [List.length_append]
    omega
  rw [List.length_set, List.length_append, List.length_singleton]
  refine h.insert hlt hgone ?_ ?_ ?_
  · rw [linked_of_get (List.getElem?_set_self hlen), hy]
  · rw [linked_set_of_ne (Nat.ne_of_gt hlt), linked_concat_self, linked_of_get hx]
  · intro b hba hbn
    rw [linked_set_of_ne hba, linked_concat_of_ne hbn]

/-- What is selected of the objects is selected of what they were too. -/
theorem filterMap_behind {γ : Type*} {f : β → Option γ} (hx : objects[a]? = some x)
    (hy : f y = none) :
    (((objects ++ [x]).set a y).filterMap f).Perm (objects.filterMap f) := by
  rcases List.getElem?_eq_some_iff.mp hx with ⟨hlt, rfl⟩
  have hset : ((objects ++ [objects[a]]).set a y).Perm
      (y :: objects[a] :: objects.eraseIdx a) := by
    rw [List.set_append_left _ _ hlt]
    refine (List.perm_append_singleton _ _).trans ?_
    refine ((List.set_perm_cons_eraseIdx hlt y).cons _).trans ?_
    exact List.Perm.swap _ _ _
  refine (hset.filterMap f).trans ?_
  rw [List.filterMap_cons, hy]
  exact (List.getElem_cons_eraseIdx_perm hlt).filterMap f

end Objects

end Chains
