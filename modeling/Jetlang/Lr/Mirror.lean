import Jetlang.Lr.Apply

/-! # The plain run time in the whole one

A context of the whole run time mirrors one of the plain run time: they read the
same characters, an answer in memory is the one the plain table has, and nothing is
known of left recursions. `Follows` says what a part of a run that has a result in
the plain run time does to both: they still mirror each other, the stack is as it
was, no answer is lost, and a rule was evaluated only where it had no answer, and
has one now.
-/

namespace Jetlang.Lr

variable {ρ α : Type}

/-! ## Mirrors -/

/-- What a pointer to an answer stands for, when the buffer begins at `pos`. -/
inductive Stands (answers : List (LrAnswer α)) (pos : ℕ) :
    Option ℕ → Option (Pcc.Answer α) → Prop where
  | none : Stands answers pos none none
  | lr {a : ℕ} {answer : LrAnswer α} (h : answers[a]? = some answer) :
      Stands answers pos (some a) (some .lr)
  | chunk {a q : ℕ} {c : Option (List (Pcc.Thunk α))} {hold : Option ℕ}
      (h : answers[a]? = some ⟨.chunk c, pos + q, hold⟩) :
      Stands answers pos (some a) (some (.chunk c q))

/-- The rules and positions of the evaluations among the events. -/
def evaluations (events : List (DebugEvent ρ)) : List (ρ × ℕ) :=
  events.filterMap fun event =>
    if event.kind = .evaluate then some (event.rule, event.pos) else none

@[simp] theorem evaluations_append (es fs : List (DebugEvent ρ)) :
    evaluations (es ++ fs) = evaluations es ++ evaluations fs :=
  List.filterMap_append ..

/-- The evaluations are of different rules or at different positions, none behind
`n`. Each was of a rule that had no answer there, and now has one. -/
structure Traced (table table' : ℕ → ρ → Option (Pcc.Answer α)) (n : ℕ) (es : List (ρ × ℕ)) :
    Prop where
  nodup : es.Nodup
  new : ∀ e ∈ es, table e.2 e.1 = none
  found : ∀ e ∈ es, table' e.2 e.1 ≠ none
  le : ∀ e ∈ es, e.2 ≤ n

/-- Where nothing was evaluated. -/
theorem Traced.nil {table table' : ℕ → ρ → Option (Pcc.Answer α)} {n : ℕ} :
    Traced table table' n [] where
  nodup := List.nodup_nil
  new := List.forall_mem_nil _
  found := List.forall_mem_nil _
  le := List.forall_mem_nil _

/-- What was evaluated first has an answer, so it is not evaluated again. -/
theorem Traced.append {table table₁ table₂ : ℕ → ρ → Option (Pcc.Answer α)} {m n : ℕ}
    {es fs : List (ρ × ℕ)} (h₁ : Traced table table₁ m es) (h₂ : Traced table₁ table₂ n fs)
    (hfound₁ : ∀ q r, table q r ≠ none → table₁ q r ≠ none)
    (hfound₂ : ∀ q r, table₁ q r ≠ none → table₂ q r ≠ none) (hle : m ≤ n) :
    Traced table table₂ n (es ++ fs) := by
  refine ⟨?_, ?_, ?_, ?_⟩
  · refine List.nodup_append.mpr ⟨h₁.nodup, h₂.nodup, ?_⟩
    rintro e he _ hf rfl
    -- an evaluation in both would have met its own answer
    exact h₁.found e he (h₂.new e hf)
  · intro e he
    rcases List.mem_append.mp he with he | he
    · exact h₁.new e he
    · by_contra hne
      exact hfound₁ _ _ hne (h₂.new e he)
  · intro e he
    rcases List.mem_append.mp he with he | he
    · exact hfound₂ _ _ (h₁.found e he)
    · exact h₂.found e he
  · intro e he
    rcases List.mem_append.mp he with he | he
    · exact Nat.le_trans (h₁.le e he) hle
    · exact h₂.le e he

variable [DecidableEq ρ]

structure Mirrors (C : Context ρ α) (ctx : Pcc.Context ρ α) : Prop where
  cur_eq : C.cur = ctx.cur
  buffer_eq : C.buffer = ctx.buffer
  auxil_eq : C.auxil = ctx.auxil
  cur_le : ctx.cur ≤ ctx.buffer.length
  answers : ∀ q r,
    Stands C.answers C.pos (pccLrTableGetAnswer C.lrtable (C.pos + q) r) (ctx.lrtable q r)
  ends : ∀ q r c p, ctx.lrtable q r = some (.chunk c p) → p ≤ ctx.buffer.length
  known : ∀ i r a, pccLrTableGetAnswer C.lrtable i r = some a → a < C.answers.length
  apart : ∀ i r j s a, pccLrTableGetAnswer C.lrtable i r = some a →
    pccLrTableGetAnswer C.lrtable j s = some a → i = j ∧ r = s
  heads : ∀ i, pccLrTableGetHead C.lrtable i = none
  entries : ∀ e ∈ C.entries, e.head = none

/-- A part of a run has led from `C` to `C'`, and from `ctx` to `ctx'` in the plain
run time. -/
structure Follows (C : Context ρ α) (ctx : Pcc.Context ρ α) (C' : Context ρ α)
    (ctx' : Pcc.Context ρ α) : Prop where
  mirrors : Mirrors C' ctx'
  pos_eq : C'.pos = C.pos
  level_eq : C'.level = C.level
  lrstack_eq : C'.lrstack = C.lrstack
  heads_eq : C'.heads = C.heads
  keeps : ∀ i r a, pccLrTableGetAnswer C.lrtable i r = some a →
    pccLrTableGetAnswer C'.lrtable i r = some a
  answers_le : C.answers.length ≤ C'.answers.length
  entries_le : C.entries.length ≤ C'.entries.length
  grows : ctx.buffer <+: ctx'.buffer
  bytes_le : ctx'.buffer.length + ctx'.auxil.length ≤ ctx.buffer.length + ctx.auxil.length
  found : ∀ q r, ctx.lrtable q r ≠ none → ctx'.lrtable q r ≠ none
  trace : ∃ es, C'.debug = C.debug ++ es ∧
    Traced ctx.lrtable ctx'.lrtable ctx'.buffer.length (evaluations es)

variable {C C₁ C₂ C' : Context ρ α} {ctx ctx₁ ctx₂ ctx' : Pcc.Context ρ α}

theorem Follows.refl (h : Mirrors C ctx) : Follows C ctx C ctx where
  mirrors := h
  pos_eq := rfl
  level_eq := rfl
  lrstack_eq := rfl
  heads_eq := rfl
  keeps := fun _ _ _ ha => ha
  answers_le := Nat.le_refl _
  entries_le := Nat.le_refl _
  grows := List.prefix_refl _
  bytes_le := Nat.le_refl _
  found := fun _ _ hne => hne
  trace := ⟨[], (List.append_nil _).symm, .nil⟩

/-- The evaluations of two parts of a run are at different places: those of the first
part are in the table before the second. -/
theorem Follows.trans (h₁ : Follows C ctx C₁ ctx₁) (h₂ : Follows C₁ ctx₁ C₂ ctx₂) :
    Follows C ctx C₂ ctx₂ where
  mirrors := h₂.mirrors
  pos_eq := h₂.pos_eq.trans h₁.pos_eq
  level_eq := h₂.level_eq.trans h₁.level_eq
  lrstack_eq := h₂.lrstack_eq.trans h₁.lrstack_eq
  heads_eq := h₂.heads_eq.trans h₁.heads_eq
  keeps := fun i r a ha => h₂.keeps i r a (h₁.keeps i r a ha)
  answers_le := Nat.le_trans h₁.answers_le h₂.answers_le
  entries_le := Nat.le_trans h₁.entries_le h₂.entries_le
  grows := h₁.grows.trans h₂.grows
  bytes_le := Nat.le_trans h₂.bytes_le h₁.bytes_le
  found := fun q r hne => h₂.found q r (h₁.found q r hne)
  trace := by
    rcases h₁.trace with ⟨es, hes, hes'⟩
    rcases h₂.trace with ⟨fs, hfs, hfs'⟩
    refine ⟨es ++ fs, by rw [hfs, hes, List.append_assoc], ?_⟩
    rw [evaluations_append]
    exact hes'.append hfs' h₁.found h₂.found h₂.grows.length_le

/-! ## Positions and characters -/

/-- Both contexts at another position. -/
theorem Follows.at (h : Follows C ctx C' ctx') {p : ℕ} (hp : p ≤ ctx'.buffer.length) :
    Follows C ctx (C'.at p) (ctx'.at p) :=
  { h with
    mirrors := { h.mirrors with cur_eq := rfl, cur_le := hp }
    trace := h.trace }

/-- Back at the position of the start. -/
theorem Follows.back (hmirrors : Mirrors C ctx) (h : Follows C ctx C' ctx') :
    Follows C ctx (C'.at C.cur) (ctx'.at ctx.cur) := by
  rw [hmirrors.cur_eq]
  exact h.at (Nat.le_trans hmirrors.cur_le h.grows.length_le)

/-- An event that is no evaluation is not traced. -/
theorem Follows.event (h : Follows C ctx C' ctx') {event : DebugEvent ρ}
    (hkind : event.kind ≠ .evaluate) :
    Follows C ctx { C' with debug := C'.debug ++ [event] } ctx' :=
  { h with
    mirrors := { h.mirrors with }
    trace := by
      rcases h.trace with ⟨es, hes, htraced⟩
      have hevent : evaluations [event] = [] := by
        rw [evaluations, List.filterMap_cons, if_neg hkind, List.filterMap_nil]
      refine ⟨es ++ [event], by rw [hes, List.append_assoc], ?_⟩
      rw [evaluations_append, hevent, List.append_nil]
      exact htraced }

/-- A part of a run on another level. -/
theorem Follows.inside {level : ℕ} (h : Follows { C with level := level } ctx C' ctx') :
    Follows C ctx { C' with level := C.level } ctx' :=
  { h with
    mirrors := { h.mirrors with }
    level_eq := rfl }

/-- Characters are moved to the buffer, or dropped. -/
theorem Mirrors.input (h : Mirrors C ctx) {buffer auxil : List UInt8}
    (hgrows : ctx.buffer <+: buffer)
    (hbytes : buffer.length + auxil.length ≤ ctx.buffer.length + ctx.auxil.length) :
    Follows C ctx { C with buffer := buffer, auxil := auxil }
      { ctx with buffer := buffer, auxil := auxil } :=
  { Follows.refl h with
    mirrors :=
      { h with
        buffer_eq := rfl
        auxil_eq := rfl
        cur_le := Nat.le_trans h.cur_le hgrows.length_le
        answers := h.answers
        ends := fun q r c p hp => Nat.le_trans (h.ends q r c p hp) hgrows.length_le
        heads := h.heads }
    pos_eq := rfl
    level_eq := rfl
    lrstack_eq := rfl
    heads_eq := rfl
    keeps := fun _ _ _ ha => ha
    answers_le := Nat.le_refl _
    entries_le := Nat.le_refl _
    grows := hgrows
    bytes_le := hbytes
    found := fun _ _ hne => hne
    trace := ⟨[], (List.append_nil _).symm, .nil⟩ }

end Jetlang.Lr
