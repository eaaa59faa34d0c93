import Jetlang.Lr.Refine

/-! # Contexts whose pointers are good

A context is sound if every pointer in it leads to an object, and no position in it
is behind what was read. `Leads` says what a part of a run does to a context: it reads
forwards, the stack is as it was, and the answers that were there are left alone.
Here are the changes of a context that the run time makes.
-/

namespace Jetlang.Lr

variable {ρ α : Type}

/-! ## Thunks in the buffer -/

/-- What the thunks capture lies in the first `n` characters. -/
inductive InBuffer (n : ℕ) : List (Pcc.Thunk α) → Prop where
  | nil : InBuffer n []
  | leaf {action : α} {start stop : ℕ} {thunks : List (Pcc.Thunk α)} : start ≤ stop → stop ≤ n →
      InBuffer n thunks → InBuffer n (.leaf action start stop :: thunks)
  | node {c thunks : List (Pcc.Thunk α)} {slot : Option ℕ} : InBuffer n c → InBuffer n thunks →
      InBuffer n (.node c slot :: thunks)

section InBuffer

variable {n m : ℕ} {thunks thunks' : List (Pcc.Thunk α)}

/-- Captures stay in a buffer that grows. -/
theorem InBuffer.mono (h : InBuffer n thunks) (hle : n ≤ m) : InBuffer m thunks := by
  induction h with
  | nil => exact .nil
  | leaf hstart hstop _ ih => exact .leaf hstart (Nat.le_trans hstop hle) ih
  | node _ _ ihc ih => exact .node ihc ih

theorem InBuffer.append (h : InBuffer n thunks) (h' : InBuffer n thunks') :
    InBuffer n (thunks ++ thunks') := by
  induction h with
  | nil => exact h'
  | leaf hstart hstop _ ih => exact .leaf hstart hstop ih
  | node hc _ _ ih => exact .node hc ih

theorem InBuffer.take (h : InBuffer n thunks) (k : ℕ) : InBuffer n (thunks.take k) := by
  induction h generalizing k with
  | nil =>
    rw [List.take_nil]
    exact .nil
  | leaf hstart hstop _ ih =>
    cases k with
    | zero => exact .nil
    | succ k => exact .leaf hstart hstop (ih k)
  | node hc _ _ ih =>
    cases k with
    | zero => exact .nil
    | succ k => exact .node hc (ih k)

end InBuffer

/-! ## Sound contexts -/

/-- The data of an answer lead to one of the first `entries` entries, or to thunks
for the first `n` characters. -/
def LrData.Allowed (entries n : ℕ) : LrData α → Prop
  | .lr e => e < entries
  | .chunk c => ∀ t ∈ c, InBuffer n t

/-- The answer is for a position among them. -/
structure LrAnswer.Allowed (n entries : ℕ) (answer : LrAnswer α) : Prop where
  pos_le : answer.pos ≤ n
  data : answer.data.Allowed entries n

/-- The head of the entry is there, and its seed is for these characters too. -/
structure LrEntry.Allowed (n heads : ℕ) (entry : LrEntry ρ α) : Prop where
  head : ∀ h, entry.head = some h → h < heads
  seed : ∀ t ∈ entry.seed, InBuffer n t

section Allowed

variable {n n' entries entries' heads heads' : ℕ} (hn : n ≤ n')

include hn

/-- Pointers stay good while objects are only added. -/
theorem LrData.Allowed.mono {data : LrData α} (h : data.Allowed entries n)
    (hentries : entries ≤ entries') : data.Allowed entries' n' := by
  cases data with
  | lr e => exact Nat.lt_of_lt_of_le h hentries
  | chunk c => exact fun t ht => (h t ht).mono hn

theorem LrAnswer.Allowed.mono {answer : LrAnswer α} (h : answer.Allowed n entries)
    (hentries : entries ≤ entries') : answer.Allowed n' entries' where
  pos_le := Nat.le_trans h.pos_le hn
  data := h.data.mono hn hentries

theorem LrEntry.Allowed.mono {entry : LrEntry ρ α} (h : entry.Allowed n heads)
    (hheads : heads ≤ heads') : entry.Allowed n' heads' where
  head := fun i hi => Nat.lt_of_lt_of_le (h.head i hi) hheads
  seed := fun t ht => (h.seed t ht).mono hn

end Allowed

/-- The answer that is moved keeps its data. -/
theorem getElem?_setAnswerPos {C : Context ρ α} {a : ℕ} {answer : LrAnswer α}
    (ha : C.answers[a]? = some answer) (pos : ℕ) :
    (C.setAnswerPos a pos).answers[a]? = some { answer with pos := pos } := by
  show (C.answers.modify a _)[a]? = _
  rw [List.getElem?_modify_eq, ha]
  rfl

variable [DecidableEq ρ]

/-- How many characters of the input were read: those that are committed and those
in the buffer. -/
def Context.read (C : Context ρ α) : ℕ := C.pos + C.buffer.length

/-- All pointers lead to objects. The answers in the table go forwards. -/
structure Sound (C : Context ρ α) : Prop where
  cur_le : C.cur ≤ C.buffer.length
  table : ∀ i r a, pccLrTableGetAnswer C.lrtable i r = some a →
    ∃ answer, C.answers[a]? = some answer ∧ i ≤ answer.pos
  heads : ∀ i h, pccLrTableGetHead C.lrtable i = some h → h < C.heads.length
  stack : ∀ e ∈ C.lrstack, e < C.entries.length
  answers : ∀ answer ∈ C.answers, answer.Allowed C.read C.entries.length
  entries : ∀ entry ∈ C.entries, entry.Allowed C.read C.heads.length

/-- A part of a run has led from `C` to `C'`. The answers from the start are as they
were; only new ones were written. -/
structure Leads (C C' : Context ρ α) : Prop where
  sound : Sound C'
  pos_eq : C'.pos = C.pos
  level_eq : C'.level = C.level
  lrstack_eq : C'.lrstack = C.lrstack
  cur_le : C.cur ≤ C'.cur
  grows : C.buffer <+: C'.buffer
  bytes_le : C'.buffer.length + C'.auxil.length ≤ C.buffer.length + C.auxil.length
  answers_le : C.answers.length ≤ C'.answers.length
  answers : ∀ i < C.answers.length, C'.answers[i]? = C.answers[i]?
  entries_le : C.entries.length ≤ C'.entries.length
  heads_le : C.heads.length ≤ C'.heads.length

variable {C C₁ C₂ C' : Context ρ α}

theorem Leads.refl (h : Sound C) : Leads C C where
  sound := h
  pos_eq := rfl
  level_eq := rfl
  lrstack_eq := rfl
  cur_le := Nat.le_refl _
  grows := List.prefix_refl _
  bytes_le := Nat.le_refl _
  answers_le := Nat.le_refl _
  answers := fun _ _ => rfl
  entries_le := Nat.le_refl _
  heads_le := Nat.le_refl _

theorem Leads.trans (h₁ : Leads C C₁) (h₂ : Leads C₁ C₂) : Leads C C₂ where
  sound := h₂.sound
  pos_eq := h₂.pos_eq.trans h₁.pos_eq
  level_eq := h₂.level_eq.trans h₁.level_eq
  lrstack_eq := h₂.lrstack_eq.trans h₁.lrstack_eq
  cur_le := Nat.le_trans h₁.cur_le h₂.cur_le
  grows := h₁.grows.trans h₂.grows
  bytes_le := Nat.le_trans h₂.bytes_le h₁.bytes_le
  answers_le := Nat.le_trans h₁.answers_le h₂.answers_le
  answers := fun i hi =>
    (h₂.answers i (Nat.lt_of_lt_of_le hi h₁.answers_le)).trans (h₁.answers i hi)
  entries_le := Nat.le_trans h₁.entries_le h₂.entries_le
  heads_le := Nat.le_trans h₁.heads_le h₂.heads_le

/-- The position is among the characters that were read. -/
theorem Sound.cur_le_read (h : Sound C) : C.cur ≤ C.read :=
  Nat.le_trans h.cur_le (Nat.le_add_left _ _)

theorem Leads.read_le (h : Leads C C') : C.read ≤ C'.read :=
  Nat.add_le_add (Nat.le_of_eq h.pos_eq.symm) h.grows.length_le

/-! ## Changes of a context -/

/-- At another position of the buffer, not in front of the first one. -/
theorem Leads.at (h : Leads C C') {p : ℕ} (hle : C.cur ≤ p) (hp : p ≤ C'.buffer.length) :
    Leads C (C'.at p) :=
  { h with
    sound := { h.sound with cur_le := hp }
    cur_le := hle }

/-- An event. -/
theorem Leads.event (h : Leads C C') (events : List (DebugEvent ρ)) :
    Leads C { C' with debug := events } :=
  { h with sound := { h.sound with } }

/-- A part of a run on another level. -/
theorem Leads.inside {level : ℕ} (h : Leads { C with level := level } C') :
    Leads C { C' with level := C.level } :=
  { h with
    sound := { h.sound with }
    level_eq := rfl }

/-- Characters are moved to the buffer, or dropped. -/
theorem Sound.input (h : Sound C) {buffer auxil : List UInt8} (hgrows : C.buffer <+: buffer)
    (hbytes : buffer.length + auxil.length ≤ C.buffer.length + C.auxil.length) :
    Leads C { C with buffer := buffer, auxil := auxil } := by
  have hread : C.read ≤ C.pos + buffer.length := Nat.add_le_add_left hgrows.length_le _
  exact { Leads.refl h with
    sound :=
      { h with
        cur_le := Nat.le_trans h.cur_le hgrows.length_le
        answers := fun answer ha => (h.answers answer ha).mono hread (Nat.le_refl _)
        entries := fun entry he => (h.entries entry he).mono hread (Nat.le_refl _) }
    grows := hgrows
    bytes_le := hbytes }

/-- An entry is written. -/
theorem Sound.setEntry (h : Sound C) (e : ℕ) {entry : LrEntry ρ α}
    (hentry : entry.Allowed C.read C.heads.length) :
    Leads C { C with entries := C.entries.set e entry } := by
  have hlen : (C.entries.set e entry).length = C.entries.length := List.length_set
  exact { Leads.refl h with
    sound :=
      { h with
        stack := by
          intro i hi
          show i < (C.entries.set e entry).length
          rw [hlen]
          exact h.stack i hi
        answers := by
          intro answer ha
          show answer.Allowed C.read (C.entries.set e entry).length
          rw [hlen]
          exact h.answers answer ha
        entries := by
          intro entry' he
          rcases List.mem_or_eq_of_mem_set he with he | rfl
          · exact h.entries entry' he
          · exact hentry }
    entries_le := Nat.le_of_eq hlen.symm }

/-- A head is written. -/
theorem Sound.setHead (h : Sound C) (i : ℕ) (head : LrHead ρ) :
    Leads C { C with heads := C.heads.set i head } := by
  have hlen : (C.heads.set i head).length = C.heads.length := List.length_set
  exact { Leads.refl h with
    sound :=
      { h with
        heads := by
          intro j k hk
          show k < (C.heads.set i head).length
          rw [hlen]
          exact h.heads j k hk
        entries := by
          intro entry he
          show entry.Allowed C.read (C.heads.set i head).length
          rw [hlen]
          exact h.entries entry he }
    heads_le := Nat.le_of_eq hlen.symm }

/-- A head is made. -/
theorem Sound.createHead (h : Sound C) (p : ℕ) (rule : ρ) :
    Leads C (C.createHead p rule).2 ∧
      (C.createHead p rule).1 < (C.createHead p rule).2.heads.length := by
  have hlen : (C.createHead p rule).2.heads.length = C.heads.length + 1 := List.length_append
  refine ⟨?_, ?_⟩
  · exact { Leads.refl h with
      sound :=
        { h with
          table := by
            intro i r a ha
            have hsame : pccLrTableGetAnswer (C.createHead p rule).2.lrtable i r =
                pccLrTableGetAnswer C.lrtable i r := getAnswer_modify _ _ _ _ fun _ => rfl
            rw [hsame] at ha
            exact h.table i r a ha
          heads := by
            intro i k hk
            have hsame : pccLrTableGetHead (C.createHead p rule).2.lrtable i =
                pccLrTableGetHead C.lrtable i := getHead_modify _ _ _ fun _ => rfl
            rw [hsame] at hk
            rw [hlen]
            exact Nat.lt_succ_of_lt (h.heads i k hk)
          entries := by
            intro entry he
            rw [hlen]
            exact (h.entries entry he).mono (Nat.le_refl _) (Nat.le_succ _) }
      heads_le := by
        rw [hlen]
        exact Nat.le_succ _ }
  · rw [hlen]
    exact Nat.lt_succ_self _

/-- The answers are written, each in its place, and none is moved back. -/
theorem Sound.withAnswers (h : Sound C) {answers : List (LrAnswer α)}
    (hall : ∀ answer ∈ answers, answer.Allowed C.read C.entries.length)
    (hkeep : ∀ (a : ℕ) (answer : LrAnswer α), C.answers[a]? = some answer →
      ∃ answer', answers[a]? = some answer' ∧ answer.pos ≤ answer'.pos) :
    Sound { C with answers := answers } :=
  { h with
    table := by
      intro i r a ha
      rcases h.table i r a ha with ⟨answer, hanswer, hle⟩
      rcases hkeep a answer hanswer with ⟨answer', hanswer', hle'⟩
      exact ⟨answer', hanswer', Nat.le_trans hle hle'⟩
    answers := hall }

/-- The head of a position is written. -/
theorem Sound.setTableHead (h : Sound C) (p : ℕ) (head : Option ℕ)
    (hhead : ∀ k, head = some k → k < C.heads.length) :
    Leads C { C with lrtable := pccLrTableSetHead C.lrtable p head } :=
  { Leads.refl h with
    sound :=
      { h with
        table := by
          intro i r a ha
          have hsame : pccLrTableGetAnswer (pccLrTableSetHead C.lrtable p head) i r =
              pccLrTableGetAnswer C.lrtable i r := getAnswer_modify _ _ _ _ fun _ => rfl
          exact h.table i r a (hsame ▸ ha)
        heads := by
          intro i k hk
          have hk' : pccLrTableGetHead (pccLrTableSetHead C.lrtable p head) i = some k := hk
          rw [getHead_setHead] at hk'
          split at hk'
          · exact hhead k hk'
          · exact h.heads i k hk' } }

/-- A new answer. -/
theorem Sound.createAnswer (h : Sound C) {data : LrData α} {pos : ℕ}
    (hnew : (LrAnswer.mk data pos none).Allowed C.read C.entries.length) :
    Leads C (pccLrAnswerCreate C data pos).2 := by
  have hlen : (pccLrAnswerCreate C data pos).2.answers.length = C.answers.length + 1 :=
    List.length_append
  have hold : ∀ i < C.answers.length,
      (pccLrAnswerCreate C data pos).2.answers[i]? = C.answers[i]? :=
    fun i hi => List.getElem?_append_left hi
  refine { Leads.refl h with
    sound := h.withAnswers ?_ ?_
    answers_le := by
      rw [hlen]
      exact Nat.le_succ _
    answers := hold }
  · intro answer ha
    rcases List.mem_append.mp ha with ha | ha
    · exact h.answers answer ha
    · rw [List.mem_singleton.mp ha]
      exact hnew
  · intro a answer ha
    exact ⟨answer, (hold a (List.getElem?_eq_some_iff.mp ha).1).trans ha, Nat.le_refl _⟩

/-- A change of one element keeps what holds for all. -/
theorem forall_mem_modify {β : Type} {P : β → Prop} {l : List β} {f : β → β}
    (hall : ∀ x ∈ l, P x) (hf : ∀ x ∈ l, P (f x)) (i : ℕ) : ∀ x ∈ l.modify i f, P x := by
  intro x hx
  rcases List.mem_iff_getElem?.mp hx with ⟨j, hj⟩
  by_cases hij : i = j
  · subst hij
    rw [List.getElem?_modify_eq] at hj
    rcases Option.map_eq_some_iff.mp hj with ⟨y, hy, rfl⟩
    exact hf y (List.mem_of_getElem? hy)
  · rw [List.getElem?_modify_ne _ _ hij] at hj
    exact hall x (List.mem_of_getElem? hj)

/-- An answer is held by its position. -/
theorem Sound.holdAnswer (h : Sound C) (p a : ℕ) : Sound (C.holdAnswer p a) := by
  have hanswers : Sound { C with
      answers := C.answers.modify a fun answer =>
        { answer with hold := (C.lrtable.entry p).bind LrTableEntry.holdA } } := by
    -- only the link to the next one is written
    refine h.withAnswers (forall_mem_modify h.answers ?_ a) ?_
    · intro answer ha
      exact { h.answers answer ha with }
    · intro i answer hi
      by_cases hai : a = i
      · subst hai
        refine ⟨{ answer with hold := (C.lrtable.entry p).bind LrTableEntry.holdA }, ?_,
          Nat.le_refl _⟩
        rw [List.getElem?_modify_eq, hi]
        rfl
      · exact ⟨answer, by rw [List.getElem?_modify_ne _ _ hai, hi], Nat.le_refl _⟩
  exact { hanswers with
    table := by
      intro i r b hb
      have hsame : pccLrTableGetAnswer (C.holdAnswer p a).lrtable i r =
          pccLrTableGetAnswer C.lrtable i r := getAnswer_modify _ _ _ _ fun _ => rfl
      exact hanswers.table i r b (hsame ▸ hb)
    heads := by
      intro i k hk
      have hsame : pccLrTableGetHead (C.holdAnswer p a).lrtable i =
          pccLrTableGetHead C.lrtable i := getHead_modify _ _ _ fun _ => rfl
      exact hanswers.heads i k (hsame ▸ hk) }

/-- A new answer that only its position holds. -/
theorem Sound.keepAnswer (h : Sound C) {data : LrData α} {pos : ℕ}
    (hnew : (LrAnswer.mk data pos none).Allowed C.read C.entries.length) (p : ℕ) :
    Leads C ((pccLrAnswerCreate C data pos).2.holdAnswer p C.answers.length) := by
  have hcreate := h.createAnswer hnew
  refine { hcreate with
    sound := hcreate.sound.holdAnswer p C.answers.length
    answers_le := ?_
    answers := ?_ }
  · show C.answers.length ≤ (List.modify _ _ _).length
    rw [List.length_modify]
    exact hcreate.answers_le
  · intro i hi
    show (List.modify _ _ _)[i]? = _
    rw [List.getElem?_modify_ne _ _ (Nat.ne_of_gt hi)]
    exact hcreate.answers i hi

/-- The position of an answer is moved forwards. -/
theorem Sound.setAnswerPos (h : Sound C) {a : ℕ} {answer : LrAnswer α}
    (ha : C.answers[a]? = some answer) {pos : ℕ} (hle : answer.pos ≤ pos)
    (hpos : pos ≤ C.read) : Sound (C.setAnswerPos a pos) := by
  have hget := getElem?_setAnswerPos ha pos
  refine h.withAnswers ?_ ?_
  · intro x hx
    rcases List.mem_iff_getElem?.mp hx with ⟨j, hj⟩
    by_cases hij : a = j
    · subst hij
      obtain rfl := Option.some.inj (hget.symm.trans hj)
      have hanswer := h.answers answer (List.mem_of_getElem? ha)
      exact ⟨hpos, hanswer.data⟩
    · rw [List.getElem?_modify_ne _ _ hij] at hj
      exact h.answers x (List.mem_of_getElem? hj)
  · intro i answer' hi
    by_cases hai : a = i
    · subst hai
      obtain rfl := Option.some.inj (ha.symm.trans hi)
      exact ⟨_, hget, hle⟩
    · exact ⟨answer', by rw [List.getElem?_modify_ne _ _ hai, hi], Nat.le_refl _⟩

/-- An answer gets a chunk. -/
theorem Sound.setChunk (h : Sound C) {a : ℕ} {answer : LrAnswer α}
    (ha : C.answers[a]? = some answer) {c : Option (List (Pcc.Thunk α))}
    (hc : ∀ t ∈ c, InBuffer C.read t) :
    ∃ answers, pccLrAnswerSetChunk C a c = .ok { C with answers := answers } ∧
      Sound { C with answers := answers } ∧ C.answers.length ≤ answers.length ∧
      (∀ i < C.answers.length, i ≠ a → answers[i]? = C.answers[i]?) ∧
      ∃ hold, answers[a]? = some ⟨.chunk c, answer.pos, hold⟩ := by
  have hlt := (List.getElem?_eq_some_iff.mp ha).1
  have hlen : (C.answers ++ [answer]).length = C.answers.length + 1 := List.length_append
  let answers := (C.answers ++ [answer]).set a
    { answer with data := .chunk c, hold := some C.answers.length }
  have hnew : answers[a]? = some ⟨.chunk c, answer.pos, some C.answers.length⟩ :=
    List.getElem?_set_self (by omega)
  have hold : ∀ i < C.answers.length, i ≠ a → answers[i]? = C.answers[i]? := by
    intro i hi hne
    rw [List.getElem?_set_ne (Ne.symm hne), List.getElem?_append_left hi]
  -- the new answer keeps the old data, which was allowed
  have hanswer := h.answers answer (List.mem_of_getElem? ha)
  refine ⟨answers, ?_, h.withAnswers ?_ ?_, ?_, hold, _, hnew⟩
  · unfold pccLrAnswerSetChunk
    rw [ha]
  · intro x hx
    rcases List.mem_or_eq_of_mem_set hx with hx | rfl
    · rcases List.mem_append.mp hx with hx | hx
      · exact h.answers x hx
      · rw [List.mem_singleton.mp hx]
        exact hanswer
    · exact ⟨hanswer.pos_le, hc⟩
  · intro i x hi
    by_cases hai : i = a
    · subst hai
      obtain rfl := Option.some.inj (ha.symm.trans hi)
      exact ⟨_, hnew, Nat.le_refl _⟩
    · exact ⟨x, by rw [hold i (List.getElem?_eq_some_iff.mp hi).1 hai, hi], Nat.le_refl _⟩
  · show C.answers.length ≤ (List.set _ _ _).length
    rw [List.length_set, hlen]
    exact Nat.le_succ _

/-- The context in which a rule without an answer is evaluated. -/
theorem Sound.begin (h : Sound C) (rule : ρ) : Sound (C.begin rule (C.pos + C.cur)) := by
  have hlen : (C.begin rule (C.pos + C.cur)).entries.length = C.entries.length + 1 :=
    List.length_append
  have hnew : (C.begin rule (C.pos + C.cur)).answers[C.answers.length]? =
      some ⟨.lr C.entries.length, C.pos + C.cur, none⟩ := List.getElem?_concat_length
  constructor
  case cur_le => exact h.cur_le
  case table =>
    intro i r a ha
    rw [begin_getAnswer] at ha
    split at ha
    · rename_i hir
      -- the new answer, which is at its own position
      cases ha
      exact ⟨_, hnew, Nat.le_of_eq hir.1⟩
    · rcases h.table i r a ha with ⟨answer, hanswer, hle⟩
      refine ⟨answer, ?_, hle⟩
      exact (List.getElem?_append_left (List.getElem?_eq_some_iff.mp hanswer).1).trans hanswer
  case heads =>
    intro i k hk
    have hsame : pccLrTableGetHead (C.begin rule (C.pos + C.cur)).lrtable i =
        pccLrTableGetHead C.lrtable i := getHead_setAnswer ..
    exact h.heads i k (hsame ▸ hk)
  case stack =>
    intro e he
    rw [hlen]
    rcases List.mem_cons.mp he with rfl | he
    · exact Nat.lt_succ_self _
    · exact Nat.lt_succ_of_lt (h.stack e he)
  case answers =>
    intro answer ha
    rw [hlen]
    rcases List.mem_append.mp ha with ha | ha
    · exact (h.answers answer ha).mono (Nat.le_refl _) (Nat.le_succ _)
    · rw [List.mem_singleton.mp ha]
      exact ⟨Nat.add_le_add_left h.cur_le _, Nat.lt_succ_self _⟩
  case entries =>
    intro entry he
    rcases List.mem_append.mp he with he | he
    · exact h.entries entry he
    · rw [List.mem_singleton.mp he]
      refine ⟨?_, ?_⟩
      · intro k hk
        cases hk
      · intro t ht
        cases ht

end Jetlang.Lr
