import Jetlang.Lr.Sound

/-! # Left recursion is safe

Whatever the rules of a grammar are, left-recursive or not, the run time follows no
pointer to nothing: every answer, entry and head that is asked for is there. It
reads the text only forwards, what it captures lies in the buffer, and the stack is
as it was when the application of a rule has come to its end.

No loop needs more turns than it is given, so what may be missing is depth, or an `int`
that counts the turns of a repetition: `MayStop` says when.
-/

namespace Jetlang.Lr

open Jetlang.Sym (intMax)

variable {ρ α : Type} {C C₁ C' : Context ρ α}

/-! ## What is safe -/

/-- Why a run in a text of so many characters may have no result: deeper calls are
needed than are given, or the characters are more than an `int` counts. -/
inductive MayStop (size : ℕ) : Stop → Prop where
  | deep : MayStop size .deep
  | overflow : intMax < size → MayStop size .overflow

/-- There is a result, and it is good; or there may be none. -/
def Ends {β : Type} (size : ℕ) (r : Except Stop β) (good : β → Prop) : Prop :=
  (∃ e, MayStop size e ∧ r = .error e) ∨ ∃ x, r = .ok x ∧ good x

/-- The characters that were read, and those that were not yet. -/
def Context.size (C : Context ρ α) : ℕ := C.read + C.auxil.length

theorem size_create (text : List UInt8) :
    (pccContextCreate text : Context ρ α).size = text.length :=
  Nat.zero_add _

/-- No characters are added. -/
theorem Context.size_le (hpos : C'.pos = C.pos)
    (hbytes : C'.buffer.length + C'.auxil.length ≤ C.buffer.length + C.auxil.length) :
    C'.size ≤ C.size := by
  unfold Context.size Context.read
  omega

variable [DecidableEq ρ]

/-- A part of the code of a rule that has begun at `start`. -/
def SafeStep (start : ℕ) (P : Step ρ α) : Prop :=
  ∀ C thunks, Sound C → start ≤ C.cur → InBuffer C.read thunks →
    Ends C.size (P C thunks) fun x => Leads C x.2.1 ∧ InBuffer x.2.1.read x.2.2

/-- The evaluation of a rule. -/
def SafeEval (eval : Eval ρ α) : Prop :=
  ∀ C, Sound C → Ends C.size (eval C) fun x => Leads C x.2 ∧ ∀ t ∈ x.1, InBuffer x.2.read t

/-- In a longer text there are as many reasons. -/
theorem MayStop.mono {size size' : ℕ} {e : Stop} (h : MayStop size e) (hle : size ≤ size') :
    MayStop size' e := by
  cases h with
  | deep => exact .deep
  | overflow hlt => exact .overflow (Nat.lt_of_lt_of_le hlt hle)

theorem Ends.mono {β : Type} {size size' : ℕ} {r : Except Stop β} {good good' : β → Prop}
    (h : Ends size r good) (hle : size ≤ size') (himp : ∀ x, good x → good' x) :
    Ends size' r good' := by
  rcases h with ⟨e, he, hstop⟩ | ⟨x, hx, hgood⟩
  · exact Or.inl ⟨e, he.mono hle, hstop⟩
  · exact Or.inr ⟨x, hx, himp x hgood⟩

/-- A run adds no characters. -/
theorem Leads.size_le (h : Leads C C') : C'.size ≤ C.size :=
  Context.size_le h.pos_eq h.bytes_le

/-! ## Bodies -/

section Bodies

variable {conv : UInt8 → ℤ} {start : ℕ} {P Q : Step ρ α} {apply : ρ → Option ℕ → Step ρ α}

/-- Asking for characters. -/
theorem Sound.refill (h : Sound C) (conv : UInt8 → ℤ) (num : ℕ) :
    Leads C (pccRefillBuffer conv C num).2 ∧ (pccRefillBuffer conv C num).2.cur = C.cur ∧
      (pccRefillBuffer conv C num).1 = (pccRefillBuffer conv C num).2.buffer.length - C.cur := by
  let ctx : Pcc.Context ρ α := ⟨C.buffer, C.cur, C.auxil, fun _ _ => none⟩
  have hcur : C.cur = ctx.cur := rfl
  have hbuffer : C.buffer = ctx.buffer := rfl
  have hauxil : C.auxil = ctx.auxil := rfl
  have hnum : (pccRefillBuffer conv C num).1 =
      (pccRefillBuffer conv C num).2.buffer.length - (pccRefillBuffer conv C num).2.cur := rfl
  rcases pccRefillBuffer_spec conv hcur hbuffer hauxil num
    with ⟨n, buffer, auxil, hC, -, hgrows, hbytes⟩
  rw [hC] at hnum ⊢
  exact ⟨h.input hgrows hbytes, rfl, hnum⟩

/-- The character that is looked at is in the buffer. -/
theorem safe_charClass (p : UInt8 → Bool) :
    SafeStep start ((Body.charClass p : Body ρ α).code conv apply start) := by
  intro C thunks h _ hthunks
  rcases h.refill conv 1 with ⟨hleads, hcur, hnum⟩
  have hthunks' := hthunks.mono hleads.read_le
  right
  unfold Body.code
  dsimp only
  by_cases hnone : (pccRefillBuffer conv C 1).1 < 1
  · exact ⟨_, if_pos hnone, hleads, hthunks'⟩
  · rw [if_neg hnone]
    have hlt : (pccRefillBuffer conv C 1).2.cur < (pccRefillBuffer conv C 1).2.buffer.length := by
      omega
    rw [List.getElem?_eq_getElem hlt]
    dsimp only
    split
    · exact ⟨_, rfl, hleads.at (by omega) hlt, hthunks'⟩
    · exact ⟨_, rfl, hleads, hthunks'⟩

theorem safe_string (s : List UInt8) :
    SafeStep start ((Body.string s : Body ρ α).code conv apply start) := by
  intro C thunks h _ hthunks
  rcases h.refill conv s.length with ⟨hleads, hcur, hnum⟩
  have hthunks' := hthunks.mono hleads.read_le
  have hle := hleads.sound.cur_le
  right
  unfold Body.code
  dsimp only
  by_cases hnone : (pccRefillBuffer conv C s.length).1 < s.length
  · exact ⟨_, if_pos hnone, hleads, hthunks'⟩
  · rw [if_neg hnone]
    split
    · exact ⟨_, rfl, hleads.at (by omega) (by omega), hthunks'⟩
    · exact ⟨_, rfl, hleads, hthunks'⟩

/-- Back at the position where a part of the code has begun. -/
theorem Leads.back (h : Leads C C') (hC : Sound C) : Leads C (C'.at C.cur) :=
  h.at (Nat.le_refl _) (Nat.le_trans hC.cur_le h.grows.length_le)

/-- The second part begins where the first one has ended, behind `start`. -/
theorem SafeStep.seq {e f : Body ρ α} (he : SafeStep start (e.code conv apply start))
    (hf : SafeStep start (f.code conv apply start)) :
    SafeStep start ((Body.seq e f).code conv apply start) := by
  intro C thunks h hstart hthunks
  unfold Body.code
  rcases he C thunks h hstart hthunks
    with ⟨err, hmay, hstop⟩ | ⟨⟨b, C₁, thunks₁⟩, hrun, hleads, hthunks₁⟩
  · rw [hstop]
    exact Or.inl ⟨err, hmay, rfl⟩
  · rw [hrun]
    cases b with
    | false => exact Or.inr ⟨_, rfl, hleads, hthunks₁⟩
    | true =>
      have hnext := hf C₁ thunks₁ hleads.sound (Nat.le_trans hstart hleads.cur_le) hthunks₁
      exact hnext.mono hleads.size_le fun x hx => ⟨hleads.trans hx.1, hx.2⟩

/-- After a failure the second alternative begins where the first one has begun. -/
theorem SafeStep.alt {e f : Body ρ α} (he : SafeStep start (e.code conv apply start))
    (hf : SafeStep start (f.code conv apply start)) :
    SafeStep start ((Body.alt e f).code conv apply start) := by
  intro C thunks h hstart hthunks
  unfold Body.code
  rcases he C thunks h hstart hthunks
    with ⟨err, hmay, hstop⟩ | ⟨⟨b, C₁, thunks₁⟩, hrun, hleads, hthunks₁⟩
  · rw [hstop]
    exact Or.inl ⟨err, hmay, rfl⟩
  · rw [hrun]
    cases b with
    | true => exact Or.inr ⟨_, rfl, hleads, hthunks₁⟩
    | false =>
      have hback := hleads.back h
      dsimp only
      rcases hf (C₁.at C.cur) (thunks₁.take thunks.length) hback.sound hstart
          (hthunks₁.take _) with ⟨err, hmay, hstop⟩ | ⟨⟨b, C₂, thunks₂⟩, hrun', hleads', hthunks₂⟩
      · rw [hstop]
        exact Or.inl ⟨err, hmay.mono hback.size_le, rfl⟩
      · rw [hrun']
        cases b with
        | true => exact Or.inr ⟨_, rfl, hback.trans hleads', hthunks₂⟩
        | false => exact Or.inr ⟨_, rfl, (hback.trans hleads').back h, hthunks₂.take _⟩

/-- How many characters there are in front of the current position. -/
theorem Sound.length_unread (h : Sound C) :
    C.unread.length + C.cur = C.buffer.length + C.auxil.length := by
  have hle := h.cur_le
  unfold Context.unread
  rw [List.length_append, List.length_drop]
  omega

/-- A turn that gets further leaves less to read. -/
theorem Leads.unread_lt (h : Leads C C') (hC : Sound C) (hne : C'.cur ≠ C.cur) :
    C'.unread.length < C.unread.length := by
  have hlen := hC.length_unread
  have hlen' := h.sound.length_unread
  have hcur := h.cur_le
  have hbytes := h.bytes_le
  omega

/-- A repetition has ended before its turns are used up. They are counted, as each but
the last one reads a character: there are not more than are left of `size`. -/
theorem SafeStep.repeatLoop (hP : SafeStep start P) {size n : ℕ} :
    ∀ i C thunks, Sound C → start ≤ C.cur → InBuffer C.read thunks →
      C.unread.length < n → C.size ≤ size → i + C.unread.length ≤ size →
      Ends size (repeatLoop P n i C thunks) fun x =>
        Leads C x.2.1 ∧ InBuffer x.2.1.read x.2.2 := by
  induction n with
  | zero => exact fun _ C _ _ _ _ hn => absurd hn (Nat.not_lt_zero _)
  | succ n ih =>
    intro i C thunks h hstart hthunks hn hsize hcount
    unfold Lr.repeatLoop
    rcases hP C thunks h hstart hthunks
      with ⟨err, hmay, hstop⟩ | ⟨⟨b, C₁, thunks₁⟩, hrun, hleads, hthunks₁⟩
    · rw [hstop]
      exact Or.inl ⟨err, hmay.mono hsize, rfl⟩
    · rw [hrun]
      cases b with
      | false => exact Or.inr ⟨_, rfl, hleads.back h, hthunks₁.take _⟩
      | true =>
        dsimp only
        by_cases hcur : C₁.cur = C.cur
        · -- no character was read: the code breaks off before it counts
          rw [if_pos hcur]
          exact Or.inr ⟨_, rfl, hleads, hthunks₁⟩
        · rw [if_neg hcur]
          have hlt : C₁.unread.length < C.unread.length := hleads.unread_lt h hcur
          split
          · have hnext := ih (i + 1) C₁ thunks₁ hleads.sound (Nat.le_trans hstart hleads.cur_le)
              hthunks₁ (by omega) (Nat.le_trans hleads.size_le hsize) (by omega)
            exact hnext.mono (Nat.le_refl _) fun x hx => ⟨hleads.trans hx.1, hx.2⟩
          · -- each counted turn has read a character, so the text is longer than that
            exact Or.inl ⟨_, .overflow (by omega), rfl⟩

/-- The loop from its beginning. -/
theorem SafeStep.loop (hP : SafeStep start P) (h : Sound C) (hstart : start ≤ C.cur)
    {thunks : List (Pcc.Thunk α)} (hthunks : InBuffer C.read thunks) :
    Ends C.size (Lr.repeatLoop P (C.unread.length + 1) 0 C thunks) fun x =>
      Leads C x.2.1 ∧ InBuffer x.2.1.read x.2.2 := by
  refine hP.repeatLoop 0 C thunks h hstart hthunks (Nat.lt_succ_self _) (Nat.le_refl _) ?_
  have hlen := h.length_unread
  unfold Context.size Context.read
  omega

/-- **The code of every body is safe**, if the application of rules is. The induction
is on the body. -/
theorem code_safe (conv : UInt8 → ℤ) (happly : ∀ r slot, SafeStep start (apply r slot))
    (body : Body ρ α) :
    SafeStep start (body.code conv apply start) := by
  induction body with
  | charClass p => exact safe_charClass p
  | string s => exact safe_string s
  | seq e f he hf => exact he.seq hf
  | alt e f he hf => exact he.alt hf
  | star e he =>
    intro C thunks h hstart hthunks
    unfold Body.code
    rcases he.loop h hstart hthunks
      with ⟨err, hmay, hstop⟩ | ⟨⟨i, C₁, thunks₁⟩, hrun, hleads, hthunks₁⟩
    · rw [hstop]
      exact Or.inl ⟨err, hmay, rfl⟩
    · rw [hrun]
      exact Or.inr ⟨_, rfl, hleads, hthunks₁⟩
  | plus e he =>
    intro C thunks h hstart hthunks
    unfold Body.code
    rcases he.loop h hstart hthunks
      with ⟨err, hmay, hstop⟩ | ⟨⟨i, C₁, thunks₁⟩, hrun, hleads, hthunks₁⟩
    · rw [hstop]
      exact Or.inl ⟨err, hmay, rfl⟩
    · rw [hrun]
      dsimp only
      split
      · exact Or.inr ⟨_, rfl, hleads.back h, hthunks₁.take _⟩
      · exact Or.inr ⟨_, rfl, hleads, hthunks₁⟩
  | rule r slot => exact happly r slot
  | emit action =>
    intro C thunks h hstart hthunks
    exact Or.inr ⟨_, rfl, .refl h, hthunks.append (.leaf hstart h.cur_le_read .nil)⟩

end Bodies

/-! ## The application of a rule -/

section Rules

variable {eval : ρ → Eval ρ α} {rule : ρ}

/-- A chunk may be the data of an answer. -/
theorem Sound.allowed_chunk (h : Sound C) {c : Option (List (Pcc.Thunk α))}
    (hc : ∀ t ∈ c, InBuffer C.read t) :
    (LrAnswer.mk (.chunk c) (C.pos + C.cur) none).Allowed C.read
      C.entries.length :=
  ⟨Nat.add_le_add_left h.cur_le _, hc⟩

/-- Where a recursion grows. -/
theorem applyGrowing_safe (heval : ∀ r, SafeEval (eval r)) (rule : ρ) (h : Sound C) (p : ℕ)
    (a : Option ℕ) {k : Option ℕ} (hk : ∀ i, k = some i → i < C.heads.length) :
    Ends C.size (applyGrowing eval rule p a k C) fun x =>
      ∀ y ∈ x, Leads C y.2 ∧ ∀ t ∈ y.1, InBuffer y.2.read t := by
  unfold applyGrowing
  cases k with
  | none => exact Or.inr ⟨_, rfl, fun y hy => by cases hy⟩
  | some i =>
    obtain ⟨head, hi⟩ : ∃ head, C.heads[i]? = some head :=
      ⟨_, List.getElem?_eq_getElem (hk i rfl)⟩
    dsimp only
    rw [hi]
    dsimp only
    split
    · refine Or.inr ⟨_, rfl, ?_⟩
      intro y hy
      cases hy
      exact ⟨.refl h, fun t ht => by cases ht⟩
    · split
      · rename_i set _
        -- the rule is evaluated once more, and its answer only held
        have hhead := h.setHead i { head with eval := set }
        rcases heval rule _ hhead.sound with ⟨err, hmay, hstop⟩ | ⟨⟨c, C₁⟩, hrun, hleads, hc⟩
        · rw [hstop]
          exact Or.inl ⟨err, hmay, rfl⟩
        · rw [hrun]
          refine Or.inr ⟨_, rfl, ?_⟩
          intro y hy
          cases hy
          have hkeep := hleads.sound.keepAnswer (hleads.sound.allowed_chunk hc) p
          exact ⟨(hhead.trans hleads).trans hkeep, fun t ht => hc t ht⟩
      · exact Or.inr ⟨_, rfl, fun y hy => by cases hy⟩

/-- The rules on the stack are involved. -/
theorem involve_safe {i : ℕ} {stack : List ℕ} : ∀ {C : Context ρ α}, Sound C →
    i < C.heads.length → (∀ e ∈ stack, e < C.entries.length) →
      ∃ C', involve i stack C = .ok C' ∧ Leads C C' := by
  induction stack with
  | nil => exact fun {C} h _ _ => ⟨C, rfl, .refl h⟩
  | cons e stack ih =>
    intro C h hi hstack
    rcases List.forall_mem_cons.mp hstack with ⟨he, hrest⟩
    obtain ⟨entry, hentry⟩ : ∃ entry, C.entries[e]? = some entry :=
      ⟨_, List.getElem?_eq_getElem he⟩
    obtain ⟨head, hhead⟩ : ∃ head, C.heads[i]? = some head := ⟨_, List.getElem?_eq_getElem hi⟩
    unfold involve
    rw [hentry, hhead]
    dsimp only
    split
    · -- the entry is led to the head already
      exact ⟨C, rfl, .refl h⟩
    · have hallowed : ({ entry with head := some i } : LrEntry ρ α).Allowed C.read
          C.heads.length := by
        refine ⟨?_, (h.entries entry (List.mem_of_getElem? hentry)).seed⟩
        intro k hk
        cases hk
        exact hi
      have hset := h.setEntry e hallowed
      have hboth := hset.trans
        (hset.sound.setHead i { head with invol := pccRuleSetAdd head.invol entry.rule })
      rcases ih hboth.sound (Nat.lt_of_lt_of_le hi hboth.heads_le)
          fun e' he' => Nat.lt_of_lt_of_le (hrest e' he') hboth.entries_le
        with ⟨C', hrun, hleads⟩
      exact ⟨C', hrun, hboth.trans hleads⟩

/-- An answer of the table is recalled. -/
theorem recallAnswer_safe (h : Sound C) {a : ℕ}
    (ha : pccLrTableGetAnswer C.lrtable (C.pos + C.cur) rule = some a) :
    ∃ c C', recallAnswer rule (C.pos + C.cur) a C = .ok (c, C') ∧ Leads C C' ∧
      ∀ t ∈ c, InBuffer C'.read t := by
  rcases h.table _ _ _ ha with ⟨answer, hanswer, hle⟩
  have hallowed := h.answers answer (List.mem_of_getElem? hanswer)
  have hpos_le : answer.pos ≤ C.pos + C.buffer.length := hallowed.pos_le
  have hat : Leads C (C.at (answer.pos - C.pos)) :=
    (Leads.refl h).at (by omega) (by omega)
  unfold recallAnswer
  rw [hanswer]
  dsimp only
  have hdata := hallowed.data
  generalize answer.data = data at hdata
  cases data with
  | chunk c => exact ⟨c, _, rfl, hat, hdata⟩
  | lr e =>
    obtain ⟨entry, hentry⟩ : ∃ entry, C.entries[e]? = some entry :=
      ⟨_, List.getElem?_eq_getElem hdata⟩
    have hmem := h.entries entry (List.mem_of_getElem? hentry)
    have hentry' : (C.at (answer.pos - C.pos)).entries[e]? = some entry := hentry
    dsimp only
    rw [hentry']
    dsimp only
    -- the head of the recursion, which is made if there is none
    cases hhead : entry.head with
    | some i =>
      rcases involve_safe hat.sound (hmem.head i hhead) hat.sound.stack with ⟨C', hrun, hleads⟩
      dsimp only
      rw [hrun]
      have hall := hat.trans hleads
      exact ⟨_, _, rfl, hall, fun t ht => (hmem.seed t ht).mono hall.read_le⟩
    | none =>
      rcases hat.sound.createHead (C.pos + C.cur) rule with ⟨hcreate, hlt⟩
      have hallowed' : LrEntry.Allowed
          ((C.at (answer.pos - C.pos)).createHead (C.pos + C.cur) rule).2.read
          ((C.at (answer.pos - C.pos)).createHead (C.pos + C.cur) rule).2.heads.length
          { entry with
            head := some ((C.at (answer.pos - C.pos)).createHead (C.pos + C.cur) rule).1 } := by
        refine ⟨?_, fun t ht => hmem.seed t ht⟩
        intro k hk
        cases hk
        exact hlt
      have hset := hcreate.sound.setEntry e hallowed'
      have hboth := hat.trans (hcreate.trans hset)
      rcases involve_safe hset.sound hlt hset.sound.stack with ⟨C', hrun, hleads⟩
      dsimp only
      have hall := hboth.trans hleads
      exact ⟨entry.seed, C', by rw [hrun], hall,
        fun t ht => (hmem.seed t ht).mono hall.read_le⟩

/-- The answer of a growing recursion: it has a chunk, and is not in front of `p`. -/
def Grown (C : Context ρ α) (a p : ℕ) : Prop :=
  ∃ c q hold, C.answers[a]? = some ⟨.chunk c, q, hold⟩ ∧ p ≤ q

/-- What the growth of a recursion does, where the answer `a` is its own. -/
structure Grows (a : ℕ) (C C' : Context ρ α) : Prop where
  sound : Sound C'
  pos_eq : C'.pos = C.pos
  level_eq : C'.level = C.level
  lrstack_eq : C'.lrstack = C.lrstack
  grows : C.buffer <+: C'.buffer
  bytes_le : C'.buffer.length + C'.auxil.length ≤ C.buffer.length + C.auxil.length
  answers_le : C.answers.length ≤ C'.answers.length
  answers : ∀ i < C.answers.length, i ≠ a → C'.answers[i]? = C.answers[i]?
  entries_le : C.entries.length ≤ C'.entries.length
  heads_le : C.heads.length ≤ C'.heads.length

/-- Growth reads forwards. -/
theorem Grows.read_le {a : ℕ} (h : Grows a C C') : C.read ≤ C'.read :=
  Nat.add_le_add (Nat.le_of_eq h.pos_eq.symm) h.grows.length_le

theorem Grows.size_le {a : ℕ} (h : Grows a C C') : C'.size ≤ C.size :=
  Context.size_le h.pos_eq h.bytes_le

theorem Leads.toGrows (h : Leads C C') (a : ℕ) : Grows a C C' :=
  { h with answers := fun i hi _ => h.answers i hi }

theorem Grows.trans {a : ℕ} {C₂ : Context ρ α} (h₁ : Grows a C C₁) (h₂ : Grows a C₁ C₂) :
    Grows a C C₂ where
  sound := h₂.sound
  pos_eq := h₂.pos_eq.trans h₁.pos_eq
  level_eq := h₂.level_eq.trans h₁.level_eq
  lrstack_eq := h₂.lrstack_eq.trans h₁.lrstack_eq
  grows := h₁.grows.trans h₂.grows
  bytes_le := Nat.le_trans h₂.bytes_le h₁.bytes_le
  answers_le := Nat.le_trans h₁.answers_le h₂.answers_le
  answers := fun i hi hne =>
    (h₂.answers i (Nat.lt_of_lt_of_le hi h₁.answers_le) hne).trans (h₁.answers i hi hne)
  entries_le := Nat.le_trans h₁.entries_le h₂.entries_le
  heads_le := Nat.le_trans h₁.heads_le h₂.heads_le

/-- The answer of the recursion is written. -/
theorem Sound.answered {a : ℕ} {answers : List (LrAnswer α)} (h : Sound C)
    (hsound : Sound { C with answers := answers }) (hle : C.answers.length ≤ answers.length)
    (hother : ∀ i < C.answers.length, i ≠ a → answers[i]? = C.answers[i]?) :
    Grows a C { C with answers := answers } :=
  { (Leads.refl h).toGrows a with
    sound := hsound
    answers_le := hle
    answers := hother }

/-- The answer of the recursion is moved. -/
theorem Grows.movedAnswer {a pos : ℕ} (h : Grows a C C') (hsound : Sound (C'.setAnswerPos a pos)) :
    Grows a C (C'.setAnswerPos a pos) := by
  refine { h with
    sound := hsound
    answers_le := ?_
    answers := ?_ }
  · show C.answers.length ≤ (List.modify _ _ _).length
    rw [List.length_modify]
    exact h.answers_le
  · intro i hi hne
    show (List.modify _ _ _)[i]? = _
    rw [List.getElem?_modify_ne _ _ (Ne.symm hne)]
    exact h.answers i hi hne

/-- The growth of a recursion has ended before its turns are used up: each turn gets
further in the text. -/
theorem growLoop_safe (heval : ∀ r, SafeEval (eval r)) {p a i n : ℕ} :
    ∀ {C : Context ρ α}, Sound C → C.pos ≤ p → p ≤ C.read →
      i < C.heads.length →
      (∃ c q hold, C.answers[a]? = some ⟨.chunk c, q, hold⟩ ∧ p ≤ q ∧
        C.pos + (C.buffer.length + C.auxil.length) < q + n) →
      Ends C.size (growLoop eval rule p a i n C) fun C' => Grows a C C' ∧ Grown C' a p := by
  induction n with
  | zero =>
    rintro C h hp hp' hi ⟨c, q, hold, ha, -, hn⟩
    -- no turns are left: the answer would end behind the text
    have hle : q ≤ C.pos + C.buffer.length := (h.answers _ (List.mem_of_getElem? ha)).pos_le
    omega
  | succ n ih =>
    rintro C h hp hp' hi ⟨c, q, hold, ha, hq, hn⟩
    obtain ⟨head, hhead⟩ : ∃ head, C.heads[i]? = some head := ⟨_, List.getElem?_eq_getElem hi⟩
    have hcur : p - C.pos ≤ C.buffer.length := Nat.sub_le_iff_le_add'.mpr hp'
    have hat : Sound (C.at (p - C.pos)) := { h with cur_le := hcur }
    have hset := hat.setHead i { head with eval := pccRuleSetCopy head.invol }
    unfold growLoop
    rw [hhead]
    dsimp only
    rcases heval rule _ hset.sound with ⟨err, hmay, hstop⟩ | ⟨⟨c₁, C₁⟩, hrun, hleads, hc₁⟩
    · left
      refine ⟨err, hmay, ?_⟩
      simp only [Context.at] at hstop ⊢
      rw [hstop]
    · have ha₁ : C₁.answers[a]? = some ⟨.chunk c, q, hold⟩ :=
        (hleads.answers a (List.getElem?_eq_some_iff.mp ha).1).trans ha
      have hgrow : Grows a C C₁ :=
        { hleads.toGrows a with heads_le := Nat.le_trans hset.heads_le hleads.heads_le }
      simp only [Context.at] at hrun ⊢
      rw [hrun]
      dsimp only
      rw [ha₁]
      dsimp only
      split
      · exact Or.inr ⟨C₁, rfl, hgrow, c, q, hold, ha₁, hq⟩
      · -- the recursion got further
        rename_i hfurther
        have hlt : q < C₁.pos + C₁.cur := by
          by_contra hle
          exact hfurther (Or.inr (Nat.le_of_not_lt hle))
        rcases hleads.sound.setChunk ha₁ hc₁
          with ⟨answers, hchunk, hsound, hanswers_le, hother, hold', ha₂⟩
        rw [hchunk]
        dsimp only
        have hmoved := hsound.setAnswerPos ha₂ (Nat.le_of_lt hlt)
          (Nat.add_le_add_left hleads.sound.cur_le C₁.pos)
        have ha₃ := getElem?_setAnswerPos (C := { C₁ with answers := answers }) ha₂
          (C₁.pos + C₁.cur)
        have hboth := hgrow.trans
          ((hleads.sound.answered hsound hanswers_le hother).movedAnswer hmoved)
        have hpos := hboth.pos_eq
        have hbytes := hboth.bytes_le
        have hnext := ih hmoved (by omega) (Nat.le_trans hp' hboth.read_le)
          (Nat.lt_of_lt_of_le hi hboth.heads_le)
          ⟨c₁, _, hold', ha₃, by omega, by omega⟩
        exact hnext.mono hboth.size_le fun C' hC' => ⟨hboth.trans hC'.1, hC'.2⟩

/-- The growth of a recursion, with its head at the position. -/
theorem Sound.growing (h : Sound C) (heval : ∀ r, SafeEval (eval r)) (rule : ρ) {p a i q : ℕ}
    {c : Option (List (Pcc.Thunk α))} {hold : Option ℕ} (hp : C.pos ≤ p)
    (hpcur : p ≤ C.pos + C.cur) (hi : i < C.heads.length)
    (ha : C.answers[a]? = some ⟨.chunk c, q, hold⟩) (hq : q = C.pos + C.cur) :
    Ends C.size
      (growLoop eval rule p a i (C.buffer.length + C.auxil.length + 1)
        { C with lrtable := pccLrTableSetHead C.lrtable p (some i) })
      fun C' => Grows a C C' ∧ Grown C' a p := by
  have hset := h.setTableHead p (some i) fun k hk => by
    cases hk
    exact hi
  have hcur := h.cur_le
  have hle : p ≤ C.read := Nat.le_trans hpcur (Nat.add_le_add_left hcur _)
  have hturns : C.pos + (C.buffer.length + C.auxil.length) <
      q + (C.buffer.length + C.auxil.length + 1) := by omega
  refine Ends.mono (growLoop_safe heval hset.sound hp hle hi ?_) hset.size_le ?_
  · exact ⟨c, q, hold, ha, Nat.le_trans hpcur (Nat.le_of_eq hq.symm), hturns⟩
  · exact fun C' hC' => ⟨(hset.toGrows a).trans hC'.1, hC'.2⟩

/-- A rule that was met again while it was evaluated. -/
theorem applyRecursive_safe (heval : ∀ r, SafeEval (eval r)) (rule : ρ) (h : Sound C)
    {p a e i : ℕ} {c : Option (List (Pcc.Thunk α))} (hc : ∀ t ∈ c, InBuffer C.read t)
    {answer : LrAnswer α} (ha : C.answers[a]? = some answer)
    (hanswer : answer.pos = C.pos + C.cur) (hp : C.pos ≤ p) (hpcur : p ≤ C.pos + C.cur)
    (he : e < C.entries.length) (hi : i < C.heads.length) :
    Ends C.size (applyRecursive eval rule p a e i c C) fun x =>
      Grows a C x.2 ∧ p ≤ x.2.pos + x.2.cur ∧ ∀ t ∈ x.1, InBuffer x.2.read t := by
  obtain ⟨entry, hentry⟩ : ∃ entry, C.entries[e]? = some entry := ⟨_, List.getElem?_eq_getElem he⟩
  obtain ⟨head, hhead⟩ : ∃ head, C.heads[i]? = some head := ⟨_, List.getElem?_eq_getElem hi⟩
  have hallowed : ({ entry with seed := c } : LrEntry ρ α).Allowed C.read C.heads.length :=
    ⟨(h.entries entry (List.mem_of_getElem? hentry)).head, hc⟩
  have hseed := h.setEntry e hallowed
  unfold applyRecursive
  rw [hentry, hhead]
  dsimp only
  split
  · -- the recursion did not begin here
    have hkeep := hseed.trans (hseed.sound.keepAnswer (hseed.sound.allowed_chunk hc) p)
    exact Or.inr ⟨_, rfl, hkeep.toGrows a, hpcur, hc⟩
  · rcases hseed.sound.setChunk ha hc
      with ⟨answers, hchunk, hsound, hanswers_le, hother, hold, ha₁⟩
    rw [hchunk]
    dsimp only
    have hfirst := (hseed.toGrows a).trans (hseed.sound.answered hsound hanswers_le hother)
    cases c with
    -- the first evaluation has failed, and nothing grows
    | none => exact Or.inr ⟨_, rfl, hfirst, hpcur, hc⟩
    | some thunks =>
      rw [if_neg (by simp)]
      have hgrown := hsound.growing heval rule hp hpcur
        (Nat.lt_of_lt_of_le hi hfirst.heads_le) ha₁ hanswer
      rcases hgrown with ⟨err, hmay, hstop⟩ | ⟨C₁, hrun, hgrows, c₁, q, hold₁, ha₂, hle⟩
      · dsimp only at hstop ⊢
        rw [hstop]
        exact Or.inl ⟨err, hmay.mono hfirst.size_le, rfl⟩
      · dsimp only at hrun ⊢
        rw [hrun]
        dsimp only
        -- the head is taken from the table, and the position from the answer
        have hunset := hgrows.sound.setTableHead p none fun k hk => by cases hk
        have hallowed := hgrows.sound.answers _ (List.mem_of_getElem? ha₂)
        have hall := hfirst.trans (hgrows.trans (hunset.toGrows a))
        have hpos : C₁.pos = C.pos := hgrows.pos_eq
        have hpos' : q ≤ C₁.pos + C₁.buffer.length := hallowed.pos_le
        rw [ha₂]
        right
        refine ⟨_, rfl, ?_, ?_, hallowed.data⟩
        · have hq : q - C₁.pos ≤ C₁.buffer.length := by omega
          exact { hall with sound := { hall.sound with cur_le := hq } }
        · show p ≤ C₁.pos + (q - C₁.pos)
          omega

/-- A change of the context that writes no answer from the start. -/
theorem Grows.toLeads {a : ℕ} (h : Grows a C C') (ha : C.answers.length ≤ a)
    (hcur : C.cur ≤ C'.cur) : Leads C C' :=
  { h with
    cur_le := hcur
    answers := fun i hi => h.answers i hi (Nat.ne_of_lt (Nat.lt_of_lt_of_le hi ha)) }

/-- The rule is taken off the stack again, and its answer is moved to where its
evaluation has ended. -/
theorem Leads.end (hleads : Leads (C.begin rule (C.pos + C.cur)) C₁) :
    (∃ e, C₁.lrstack = e :: C.lrstack) ∧
      C₁.answers[C.answers.length]? = some ⟨.lr C.entries.length, C.pos + C.cur, none⟩ ∧
        Grows C.answers.length C
          (({ C₁ with lrstack := C.lrstack } : Context ρ α).setAnswerPos C.answers.length
            (C₁.pos + C₁.cur)) := by
  have hlen : (C.begin rule (C.pos + C.cur)).answers.length = C.answers.length + 1 :=
    List.length_append
  have hentries : (C.begin rule (C.pos + C.cur)).entries.length = C.entries.length + 1 :=
    List.length_append
  have hnew : (C.begin rule (C.pos + C.cur)).answers[C.answers.length]? =
      some ⟨.lr C.entries.length, C.pos + C.cur, none⟩ := List.getElem?_concat_length
  have hlt : C.answers.length < (C.begin rule (C.pos + C.cur)).answers.length := by
    rw [hlen]
    exact Nat.lt_succ_self _
  -- the evaluation writes no answer that was there when it began
  have ha := (hleads.answers _ hlt).trans hnew
  have hstack : C₁.lrstack = C.entries.length :: C.lrstack := hleads.lrstack_eq
  have hpopped : Sound { C₁ with lrstack := C.lrstack } :=
    { hleads.sound with
      stack := by
        intro e he
        refine hleads.sound.stack e ?_
        rw [hstack]
        exact List.mem_cons_of_mem _ he }
  have hpos : C₁.pos = C.pos := hleads.pos_eq
  have hcur : C.cur ≤ C₁.cur := hleads.cur_le
  have hforwards : C.pos + C.cur ≤ C₁.pos + C₁.cur := by omega
  have hmoved := hpopped.setAnswerPos ha hforwards (Nat.add_le_add_left hleads.sound.cur_le _)
  have hpop : Grows C.answers.length C { C₁ with lrstack := C.lrstack } :=
    { sound := hpopped
      pos_eq := hpos
      level_eq := hleads.level_eq
      lrstack_eq := rfl
      grows := hleads.grows
      bytes_le := hleads.bytes_le
      answers_le := Nat.le_trans (Nat.le_succ _)
        (Nat.le_trans (Nat.le_of_eq hlen.symm) hleads.answers_le)
      answers := by
        intro i hi _
        rw [hleads.answers i (by omega)]
        exact List.getElem?_append_left hi
      entries_le := Nat.le_trans (Nat.le_succ _)
        (Nat.le_trans (Nat.le_of_eq hentries.symm) hleads.entries_le)
      heads_le := hleads.heads_le }
  exact ⟨⟨_, hstack⟩, ha, hpop.movedAnswer hmoved⟩

/-- A rule that has no answer. -/
theorem applyNew_safe (heval : ∀ r, SafeEval (eval r)) (h : Sound C) :
    Ends C.size (applyNew eval rule (C.pos + C.cur) C) fun x =>
      Leads C x.2 ∧ ∀ t ∈ x.1, InBuffer x.2.read t := by
  unfold applyNew
  dsimp only
  rcases heval rule _ (h.begin rule) with ⟨err, hmay, hstop⟩ | ⟨⟨c, C₁⟩, hrun, hleads, hc⟩
  · rw [hstop]
    exact Or.inl ⟨err, hmay, rfl⟩
  · rw [hrun]
    rcases hleads.end with ⟨⟨e, hstack⟩, ha, hend⟩
    have hlen : (C.begin rule (C.pos + C.cur)).entries.length = C.entries.length + 1 :=
      List.length_append
    have hlt : C.entries.length < C₁.entries.length :=
      Nat.lt_of_lt_of_le (Nat.lt_succ_self _)
        (Nat.le_trans (Nat.le_of_eq hlen.symm) hleads.entries_le)
    obtain ⟨entry, hentry⟩ : ∃ entry, C₁.entries[C.entries.length]? = some entry :=
      ⟨_, List.getElem?_eq_getElem hlt⟩
    have hhead := (hleads.sound.entries entry (List.mem_of_getElem? hentry)).head
    have ha' := getElem?_setAnswerPos (C := { C₁ with lrstack := C.lrstack }) ha
      (C₁.pos + C₁.cur)
    have hcur : C.cur ≤ C₁.cur := hleads.cur_le
    dsimp only
    rw [hstack, hentry]
    dsimp only
    cases hrec : entry.head with
    | none =>
      -- it was not met again
      rcases hend.sound.setChunk ha' hc with ⟨answers, hchunk, hsound, hle, hother, -⟩
      dsimp only
      rw [hchunk]
      have hall := hend.trans (hend.sound.answered hsound hle hother)
      exact Or.inr ⟨_, rfl, hall.toLeads (Nat.le_refl _) hcur, hc⟩
    -- it was met again, and has a head
    | some i =>
      have hpos : C₁.pos = C.pos := hleads.pos_eq
      have hrecursive := applyRecursive_safe heval rule hend.sound hc ha' rfl
        (p := C.pos + C.cur) (Nat.le_trans (Nat.le_of_eq hpos) (Nat.le_add_right _ _))
        (Nat.add_le_add (Nat.le_of_eq hpos.symm) hcur) hlt (hhead i hrec)
      refine hrecursive.mono hend.size_le ?_
      rintro ⟨c', C'⟩ ⟨hgrows, hle, hc'⟩
      have hall := hend.trans hgrows
      have hpos' : C'.pos = C.pos := hall.pos_eq
      exact ⟨hall.toLeads (Nat.le_refl _) (by dsimp only at hle ⊢; omega), hc'⟩

/-- The chunk of an application. -/
theorem applied_safe (heval : ∀ r, SafeEval (eval r)) (rule : ρ) :
    SafeEval (applied eval rule) := by
  intro C h
  unfold applied
  dsimp only
  rcases applyGrowing_safe heval rule h (C.pos + C.cur)
      (pccLrTableGetAnswer C.lrtable (C.pos + C.cur) rule) (h.heads (C.pos + C.cur))
    with ⟨err, hmay, hstop⟩ | ⟨r, hrun, hgood⟩
  · rw [hstop]
    exact Or.inl ⟨err, hmay, rfl⟩
  · rw [hrun]
    cases r with
    | some r => exact Or.inr ⟨r, rfl, hgood r rfl⟩
    | none =>
      cases ha : pccLrTableGetAnswer C.lrtable (C.pos + C.cur) rule with
      | none => exact applyNew_safe heval h
      | some a =>
        rcases recallAnswer_safe h ha with ⟨c, C', hrecall, hleads, hc⟩
        exact Or.inr ⟨(c, C'), hrecall, hleads, hc⟩

theorem pccApplyRule_safe (heval : ∀ r, SafeEval (eval r)) (rule : ρ) (slot : Option ℕ)
    (start : ℕ) : SafeStep start (pccApplyRule eval rule slot) := by
  intro C thunks h hstart hthunks
  unfold pccApplyRule
  rcases applied_safe heval rule C h with ⟨err, hmay, hstop⟩ | ⟨⟨c, C₁⟩, hrun, hleads, hc⟩
  · rw [hstop]
    exact Or.inl ⟨err, hmay, rfl⟩
  · rw [hrun]
    have hthunks' := hthunks.mono hleads.read_le
    cases c with
    | none => exact Or.inr ⟨_, rfl, hleads, hthunks'⟩
    | some c => exact Or.inr ⟨_, rfl, hleads, hthunks'.append (.node (hc c rfl) .nil)⟩

end Rules

/-! ## The evaluation of a rule -/

/-- The level is raised for the body, and lowered again. -/
theorem evaluateRule_safe (conv : UInt8 → ℤ) {apply : ρ → Option ℕ → Step ρ α}
    (happly : ∀ r slot start, SafeStep start (apply r slot)) (body : Body ρ α) (rule : ρ) :
    SafeEval (evaluateRule conv body apply rule) := by
  intro C h
  unfold evaluateRule
  simp only [Context.debugged]
  generalize C.debug ++ [(⟨.evaluate, rule, C.level, C.cur,
    (C.buffer.drop C.cur).take (C.buffer.length - C.cur)⟩ : DebugEvent ρ)] = events
  have hevent : Leads C { C with debug := events } := (Leads.refl h).event events
  have hdeeper : Sound ({ C with debug := events, level := C.level + 1 } : Context ρ α) :=
    { hevent.sound with }
  have hbody := code_safe conv (fun r slot => happly r slot C.cur) body _ [] hdeeper
    (Nat.le_refl _) .nil
  rcases hbody with ⟨err, hmay, hstop⟩ | ⟨⟨b, C₁, thunks⟩, hrun, hleads, hthunks⟩
  · rw [hstop]
    exact Or.inl ⟨err, hmay, rfl⟩
  · rw [hrun]
    -- the calls in the body leave the level as they found it
    have hlevel : C₁.level - 1 = C.level := by
      rw [hleads.level_eq]
      exact Nat.add_sub_cancel _ _
    have hback : Leads C { C₁ with level := C₁.level - 1 } := by
      rw [hlevel]
      exact hevent.trans hleads.inside
    dsimp only
    split
    · exact Or.inr ⟨_, rfl, hback.event _, fun t ht => by cases ht; exact hthunks⟩
    · exact Or.inr ⟨_, rfl, hback.event _, fun t ht => by cases ht⟩

/-- **The evaluation of a rule is safe**, whatever the grammar. -/
theorem evaluate_safe (conv : UInt8 → ℤ) (g : ρ → Body ρ α) (fuel : ℕ) (rule : ρ) :
    SafeEval (evaluate conv g fuel rule) := by
  induction fuel generalizing rule with
  | zero => exact fun C _ => Or.inl ⟨_, .deep, rfl⟩
  | succ fuel ih => exact evaluateRule_safe conv (pccApplyRule_safe ih) (g rule) rule

/-! ## Parses -/

/-- At the start there are no pointers. -/
theorem sound_create (text : List UInt8) : Sound (pccContextCreate text : Context ρ α) where
  cur_le := Nat.le_refl 0
  table := fun _ _ _ ha => by cases ha
  heads := fun _ _ hk => by cases hk
  stack := List.forall_mem_nil _
  answers := List.forall_mem_nil _
  entries := List.forall_mem_nil _

/-- **An application at the start of a text** has no result only if it needs deeper
calls, or the text is longer than an `int` counts. What it captures lies in the buffer,
and no entry is left on the stack. -/
theorem pccApplyRule_captures (conv : UInt8 → ℤ) (g : ρ → Body ρ α) (fuel : ℕ) (rule : ρ)
    (slot : Option ℕ) (text : List UInt8) :
    (∃ e, MayStop text.length e ∧
      pccApplyRule (evaluate conv g fuel) rule slot (pccContextCreate text) [] = .error e) ∨
      ∃ b C thunks,
        pccApplyRule (evaluate conv g fuel) rule slot (pccContextCreate text) [] =
            .ok (b, C, thunks) ∧
          InBuffer C.buffer.length thunks ∧ C.cur ≤ C.buffer.length ∧
          C.buffer.length + C.auxil.length ≤ text.length ∧ C.lrstack = [] ∧ C.level = 0 := by
  have hsafe := pccApplyRule_safe (evaluate_safe conv g fuel) rule slot 0 _ _ (sound_create text)
    (Nat.le_refl 0) .nil
  rw [size_create] at hsafe
  rcases hsafe with hstop | ⟨⟨b, C, thunks⟩, hrun, hleads, hthunks⟩
  · exact Or.inl hstop
  · have hread : C.read = C.buffer.length := by
      unfold Context.read
      rw [hleads.pos_eq]
      exact Nat.zero_add _
    have hbytes : C.buffer.length + C.auxil.length ≤ 0 + text.length := hleads.bytes_le
    right
    refine ⟨b, C, thunks, hrun, hread ▸ hthunks, hleads.sound.cur_le, ?_, hleads.lrstack_eq,
      hleads.level_eq⟩
    rwa [Nat.zero_add] at hbytes

/-- The calls of `pcc_parse` in a row, without their actions, for the parser of any
grammar. The first one that fails is the last one. -/
def parseCalls (conv : UInt8 → ℤ) (g : ρ → Body ρ α) (fuel : ℕ) (rule : ρ) :
    ℕ → Context ρ α → Except Stop (Context ρ α)
  | 0, ctx => .ok ctx
  | n + 1, ctx =>
      match pccApplyRule (evaluate conv g fuel) rule (some 0) ctx [] with
      | .ok (true, ctx, _) =>
          parseCalls conv g fuel rule n (pccRefillBuffer conv (pccCommitBuffer ctx) 1).2
      | .ok (false, ctx, _) => .ok ctx
      | .error e => .error e

/-- The commit moves what was read, but it stays read. -/
theorem Sound.read_commit (h : Sound C) : (pccCommitBuffer C).read = C.read := by
  have hle := h.cur_le
  unfold Context.read pccCommitBuffer
  dsimp only
  rw [List.length_drop]
  omega

/-- The commit keeps a context sound: entries of the table only move to the front. -/
theorem Sound.commit (h : Sound C) : Sound (pccCommitBuffer C) := by
  constructor
  case cur_le => exact Nat.zero_le _
  case table =>
    intro i r a ha
    have ha' : pccLrTableGetAnswer (pccLrTableShift C.lrtable C.cur) i r = some a := ha
    rw [getAnswer_shift] at ha'
    rcases h.table _ _ _ ha' with ⟨answer, hanswer, hle⟩
    exact ⟨answer, hanswer, Nat.le_trans (Nat.le_add_right _ _) hle⟩
  case heads =>
    intro i k hk
    have hk' : pccLrTableGetHead (pccLrTableShift C.lrtable C.cur) i = some k := hk
    rw [getHead_shift] at hk'
    exact h.heads _ _ hk'
  case stack => exact h.stack
  case answers =>
    rw [h.read_commit]
    exact h.answers
  case entries =>
    rw [h.read_commit]
    exact h.entries

/-- What holds between the calls, if it was so for `C`. -/
structure Between (C C' : Context ρ α) : Prop where
  sound : Sound C'
  lrstack_eq : C'.lrstack = C.lrstack
  level_eq : C'.level = C.level
  size_le : C'.size ≤ C.size

theorem Leads.between (h : Leads C C') : Between C C' where
  sound := h.sound
  lrstack_eq := h.lrstack_eq
  level_eq := h.level_eq
  size_le := h.size_le

/-- So the commit keeps the number of characters. -/
theorem Sound.size_commit (h : Sound C) : (pccCommitBuffer C).size = C.size := by
  unfold Context.size
  rw [h.read_commit]
  rfl

/-- The commit, and the question for the next character. -/
theorem Sound.next (h : Sound C) (conv : UInt8 → ℤ) :
    Between C (pccRefillBuffer conv (pccCommitBuffer C) 1).2 := by
  have hnext := (h.commit.refill conv 1).1.between
  have hsize := hnext.size_le
  rw [h.size_commit] at hsize
  exact { hnext with size_le := hsize }

theorem Between.trans (h₁ : Between C C₁) (h₂ : Between C₁ C') : Between C C' where
  sound := h₂.sound
  lrstack_eq := h₂.lrstack_eq.trans h₁.lrstack_eq
  level_eq := h₂.level_eq.trans h₁.level_eq
  size_le := Nat.le_trans h₂.size_le h₁.size_le

/-- The induction is on the number of calls. -/
theorem parseCalls_between (conv : UInt8 → ℤ) (g : ρ → Body ρ α) (fuel : ℕ) (rule : ρ)
    (n : ℕ) : ∀ {C : Context ρ α}, Sound C →
      Ends C.size (parseCalls conv g fuel rule n C) (Between C) := by
  induction n with
  | zero => exact fun {C} h => Or.inr ⟨C, rfl, (Leads.refl h).between⟩
  | succ n ih =>
    intro C h
    unfold parseCalls
    rcases pccApplyRule_safe (evaluate_safe conv g fuel) rule (some 0) 0 C [] h (Nat.zero_le _)
        .nil with ⟨err, hmay, hstop⟩ | ⟨⟨b, C₁, thunks⟩, hrun, hleads, -⟩
    · rw [hstop]
      exact Or.inl ⟨err, hmay, rfl⟩
    · rw [hrun]
      cases b with
      | false => exact Or.inr ⟨C₁, rfl, hleads.between⟩
      | true =>
        have hnext := hleads.between.trans (hleads.sound.next conv)
        exact (ih hnext.sound).mono hnext.size_le fun C' hC' => hnext.trans hC'

end Jetlang.Lr
