import Jetlang.Lr.Apply
import Jetlang.Pcc.Observe

/-! # What the code of a body yields

The code of a body yields a result if it comes to it however deep calls may be nested,
from some depth on. Here is what each part of a body yields, from what its parts do.
-/

namespace Jetlang.Lr

variable {ρ α : Type}

open Jetlang.Sym (intMax)

/-! ## Repetitions -/

section Loops

variable {P : Step ρ α} {C C₁ : Context ρ α} {thunks thunks₁ : List (Pcc.Thunk α)}
  {y : Context ρ α × List (Pcc.Thunk α)} {n m j k : ℕ}

/-- More turns do no harm, and they may be counted from another number on, from which
they can be counted. -/
theorem repeatLoop_shift {i : ℕ} (h : repeatLoop P n i C thunks = .ok (j, y)) (hle : n ≤ m)
    (hcount : k + n ≤ intMax + 1) :
    ∃ j', k ≤ j' ∧ repeatLoop P m k C thunks = .ok (j', y) := by
  induction n generalizing i k m C thunks with
  | zero => cases h
  | succ n ih =>
    obtain ⟨m, rfl⟩ : ∃ l, m = l + 1 := ⟨m - 1, by omega⟩
    unfold repeatLoop at h ⊢
    split at h
    · split at h
      · -- the turn stands still
        rename_i hcur
        cases h
        exact ⟨k, Nat.le_refl k, if_pos hcur⟩
      · rename_i hcur
        split at h
        · -- another turn was taken, so there is one to count
          have hpos : n ≠ 0 := by
            rintro rfl
            cases h
          have hk : k < intMax := by omega
          rcases ih h (Nat.le_of_succ_le_succ hle) (k := k + 1) (by omega) with ⟨j', hj, hrun⟩
          refine ⟨j', Nat.le_of_succ_le hj, ?_⟩
          simp only [if_neg hcur, if_pos hk, hrun]
        · cases h
    · cases h
      exact ⟨k, Nat.le_refl k, rfl⟩
    · cases h

/-- A turn that gets further is followed by those that a loop behind it takes. -/
theorem repeatLoop_more (hturn : P C thunks = .ok (true, C₁, thunks₁)) (hcur : C₁.cur ≠ C.cur)
    (hlt : C₁.unread.length < C.unread.length) (hshort : C.unread.length ≤ intMax)
    (hrest : repeatLoop P (C₁.unread.length + 1) 0 C₁ thunks₁ = .ok (j, y)) :
    ∃ j', 1 ≤ j' ∧ repeatLoop P (C.unread.length + 1) 0 C thunks = .ok (j', y) := by
  rcases repeatLoop_shift hrest hlt (k := 1) (by omega) with ⟨j', hj, hrun⟩
  refine ⟨j', hj, ?_⟩
  have hone : 0 < intMax := by omega
  rw [repeatLoop, hturn]
  simp only [if_neg hcur, if_pos hone, hrun]

end Loops

/-! ## Bodies -/

section Bodies

variable [DecidableEq ρ]

/-- With enough depth, the code of a body in a chunk that begins at `start` comes to
`x`. -/
def Yields (conv : UInt8 → ℤ) (g : ρ → Body ρ α) (start : ℕ) (e : Body ρ α) (C : Context ρ α)
    (thunks : List (Pcc.Thunk α)) (x : Bool × Context ρ α × List (Pcc.Thunk α)) : Prop :=
  ∃ N, ∀ fuel, N ≤ fuel →
    e.code conv (pccApplyRule (evaluate conv g fuel)) start C thunks = .ok x

/-- With enough depth, the application of a rule comes to `y`. -/
def Applies (conv : UInt8 → ℤ) (g : ρ → Body ρ α) (r : ρ) (C : Context ρ α)
    (y : Option (List (Pcc.Thunk α)) × Context ρ α) : Prop :=
  ∃ N, ∀ fuel, N ≤ fuel → applied (evaluate conv g fuel) r C = .ok y

/-- With enough depth, the evaluation of a rule comes to `y`. -/
def Evaluates (conv : UInt8 → ℤ) (g : ρ → Body ρ α) (r : ρ) (C : Context ρ α)
    (y : Option (List (Pcc.Thunk α)) × Context ρ α) : Prop :=
  ∃ N, ∀ fuel, N ≤ fuel → evaluate conv g fuel r C = .ok y

variable {conv : UInt8 → ℤ} {g : ρ → Body ρ α} {start : ℕ} {e f : Body ρ α}
  {C C₁ C₂ : Context ρ α} {thunks thunks₁ thunks₂ : List (Pcc.Thunk α)}
  {x : Bool × Context ρ α × List (Pcc.Thunk α)}

/-- A body that applies no rule needs no depth. -/
theorem Yields.of_eq (h : ∀ apply, e.code conv apply start C thunks = .ok x) :
    Yields conv g start e C thunks x :=
  ⟨0, fun _ _ => h _⟩

theorem Yields.seq (he : Yields conv g start e C thunks (true, C₁, thunks₁))
    (hf : Yields conv g start f C₁ thunks₁ x) : Yields conv g start (.seq e f) C thunks x := by
  rcases Pcc.eventually_and he hf with ⟨N, h⟩
  refine ⟨N, ?_⟩
  intro fuel hfuel
  unfold Body.code
  rw [(h fuel hfuel).1]
  exact (h fuel hfuel).2

theorem Yields.noSeq (he : Yields conv g start e C thunks (false, C₁, thunks₁)) :
    Yields conv g start (.seq e f) C thunks (false, C₁, thunks₁) := by
  rcases he with ⟨N, he⟩
  refine ⟨N, ?_⟩
  intro fuel hfuel
  unfold Body.code
  rw [he fuel hfuel]

theorem Yields.left (he : Yields conv g start e C thunks (true, C₁, thunks₁)) :
    Yields conv g start (.alt e f) C thunks (true, C₁, thunks₁) := by
  rcases he with ⟨N, he⟩
  refine ⟨N, ?_⟩
  intro fuel hfuel
  unfold Body.code
  rw [he fuel hfuel]

/-- The second alternative begins at the position and with the thunks of the first one. -/
theorem Yields.right (he : Yields conv g start e C thunks (false, C₁, thunks₁))
    (hf : Yields conv g start f (C₁.at C.cur) (thunks₁.take thunks.length) (true, C₂, thunks₂)) :
    Yields conv g start (.alt e f) C thunks (true, C₂, thunks₂) := by
  rcases Pcc.eventually_and he hf with ⟨N, h⟩
  refine ⟨N, ?_⟩
  intro fuel hfuel
  unfold Body.code
  rw [(h fuel hfuel).1]
  dsimp only
  rw [(h fuel hfuel).2]

/-- If it fails too, so does the choice. -/
theorem Yields.noAlt (he : Yields conv g start e C thunks (false, C₁, thunks₁))
    (hf : Yields conv g start f (C₁.at C.cur) (thunks₁.take thunks.length) (false, C₂, thunks₂)) :
    Yields conv g start (.alt e f) C thunks
      (false, C₂.at C.cur, thunks₂.take thunks.length) := by
  rcases Pcc.eventually_and he hf with ⟨N, h⟩
  refine ⟨N, ?_⟩
  intro fuel hfuel
  unfold Body.code
  rw [(h fuel hfuel).1]
  dsimp only
  rw [(h fuel hfuel).2]

/-- A turn that fails ends the star, back where the turn began. -/
theorem Yields.starEnd (he : Yields conv g start e C thunks (false, C₁, thunks₁)) :
    Yields conv g start (.star e) C thunks
      (true, C₁.at C.cur, thunks₁.take thunks.length) := by
  rcases he with ⟨N, he⟩
  refine ⟨N, ?_⟩
  intro fuel hfuel
  unfold Body.code repeatLoop
  rw [he fuel hfuel]

/-- So does one that reads nothing, with its thunks. -/
theorem Yields.starStill (he : Yields conv g start e C thunks (true, C₁, thunks₁))
    (hcur : C₁.cur = C.cur) : Yields conv g start (.star e) C thunks (true, C₁, thunks₁) := by
  rcases he with ⟨N, he⟩
  refine ⟨N, ?_⟩
  intro fuel hfuel
  unfold Body.code repeatLoop
  rw [he fuel hfuel]
  simp only [if_pos hcur]

/-- If the first turn fails, `+` fails, and the thunks are cut twice. -/
theorem Yields.noPlus (he : Yields conv g start e C thunks (false, C₁, thunks₁)) :
    Yields conv g start (.plus e) C thunks
      (false, C₁.at C.cur, (thunks₁.take thunks.length).take thunks.length) := by
  rcases he with ⟨N, he⟩
  refine ⟨N, ?_⟩
  intro fuel hfuel
  unfold Body.code repeatLoop
  rw [he fuel hfuel]
  rfl

/-- A turn that reads nothing is not counted. -/
theorem Yields.plusStill (he : Yields conv g start e C thunks (true, C₁, thunks₁))
    (hcur : C₁.cur = C.cur) :
    Yields conv g start (.plus e) C thunks
      (false, C₁.at C.cur, thunks₁.take thunks.length) := by
  rcases he with ⟨N, he⟩
  refine ⟨N, ?_⟩
  intro fuel hfuel
  unfold Body.code repeatLoop
  rw [he fuel hfuel]
  dsimp only
  rw [if_pos hcur]
  rfl

/-- A turn that gets further is the first of a star, and then `+` does the same as
`*`. -/
theorem Yields.more (he : Yields conv g start e C thunks (true, C₁, thunks₁))
    (hcur : C₁.cur ≠ C.cur) (hlt : C₁.unread.length < C.unread.length)
    (hshort : C.unread.length ≤ intMax)
    (hstar : Yields conv g start (.star e) C₁ thunks₁ (true, C₂, thunks₂)) :
    Yields conv g start (.star e) C thunks (true, C₂, thunks₂) ∧
      Yields conv g start (.plus e) C thunks (true, C₂, thunks₂) := by
  rcases Pcc.eventually_and he hstar with ⟨N, h⟩
  -- the turn is counted, which is what `+` asks for
  have hloop : ∀ fuel, N ≤ fuel → ∃ j, 1 ≤ j ∧
      repeatLoop (e.code conv (pccApplyRule (evaluate conv g fuel)) start)
        (C.unread.length + 1) 0 C thunks = .ok (j, C₂, thunks₂) := by
    intro fuel hfuel
    rcases h fuel hfuel with ⟨hturn, hmore⟩
    unfold Body.code at hmore
    split at hmore
    · rename_i hrest
      cases hmore
      exact repeatLoop_more hturn hcur hlt hshort hrest
    · cases hmore
  refine ⟨⟨N, ?_⟩, ⟨N, ?_⟩⟩
  · intro fuel hfuel
    rcases hloop fuel hfuel with ⟨j, -, hrun⟩
    unfold Body.code
    rw [hrun]
  · intro fuel hfuel
    rcases hloop fuel hfuel with ⟨j, hj, hrun⟩
    unfold Body.code
    rw [hrun]
    exact if_neg (Nat.not_lt.mpr hj)

/-! ## Rules -/

variable {r : ρ} {c : List (Pcc.Thunk α)}

/-- A rule that matches leaves one thunk, with its chunk. -/
theorem Applies.yields (h : Applies conv g r C (some c, C₁)) (slot : Option ℕ) :
    Yields conv g start (.rule r slot) C thunks (true, C₁, thunks ++ [.node c slot]) := by
  rcases h with ⟨N, h⟩
  refine ⟨N, ?_⟩
  intro fuel hfuel
  unfold Body.code pccApplyRule
  rw [h fuel hfuel]

theorem Applies.yields_fail (h : Applies conv g r C (none, C₁)) (slot : Option ℕ) :
    Yields conv g start (.rule r slot) C thunks (false, C₁, thunks) := by
  rcases h with ⟨N, h⟩
  refine ⟨N, ?_⟩
  intro fuel hfuel
  unfold Body.code pccApplyRule
  rw [h fuel hfuel]

/-- The context in which the body of a rule is evaluated. -/
def Context.inside (C : Context ρ α) (r : ρ) : Context ρ α :=
  let C := C.debugged .evaluate r C.cur C.buffer.length
  { C with level := C.level + 1 }

/-- What the code around a body adds is the chunk, the level and the events. -/
theorem Yields.evaluates {b : Bool}
    (h : Yields conv g C.cur (g r) (C.inside r) [] (b, C₁, thunks)) :
    ∃ level debug, Evaluates conv g r C
      (if b then some thunks else none, { C₁ with level := level, debug := debug }) := by
  rcases h with ⟨N, h⟩
  let C₂ : Context ρ α := { C₁ with level := C₁.level - 1 }
  let kind := if b then DebugKind.isMatch else DebugKind.noMatch
  refine ⟨C₂.level, (C₂.debugged kind r C.cur C₁.cur).debug, N + 1, ?_⟩
  intro fuel hfuel
  obtain ⟨k, rfl⟩ : ∃ k, fuel = k + 1 := ⟨fuel - 1, by omega⟩
  have hrun := h k (Nat.le_of_succ_le_succ hfuel)
  unfold Context.inside at hrun
  unfold evaluate evaluateRule
  dsimp only at hrun ⊢
  rw [hrun]
  cases b with
  | true => rfl
  | false => rfl

end Bodies

end Jetlang.Lr
