import Jetlang.Pcc.Observe

/-! # Tokens

The expressions that apply no rule, for an input without an end marker among its
bytes: every byte is taken for itself. What such an expression reads is a
relation between texts. `Takes P u v` says that `P` reads `u` where `v` comes
next, `Rejects P w` that it fails on `w`, and `Overruns P w` that it has no result
there, as a repetition counts too many turns.
-/

namespace Jetlang.Pcc

open Jetlang.Sym (intMax)

variable {ρ α : Type} {conv : UInt8 → ℤ}

/-- Every byte is taken for itself. -/
def Bytewise (conv : UInt8 → ℤ) : Prop := ∀ b, conv b = b.toNat

/-- In front of `u ++ v` the expression reads `u`. -/
def Takes (conv : UInt8 → ℤ) (P : Parser ρ α) (u v : List UInt8) : Prop :=
  ∀ (ctx : Context ρ α) (thunks : List (Thunk α)), ctx.WF conv → ctx.unread = u ++ v →
    ∃ ctx', Scans conv ctx ctx' u v ∧ ∀ apply, P apply ctx thunks = some (true, ctx', thunks)

/-- In front of `w` the expression fails, perhaps after reading a part of it. -/
def Rejects (conv : UInt8 → ℤ) (P : Parser ρ α) (w : List UInt8) : Prop :=
  ∀ (ctx : Context ρ α) (thunks : List (Thunk α)), ctx.WF conv → ctx.unread = w →
    ∃ ctx' u v, w = u ++ v ∧ Scans conv ctx ctx' u v ∧
      ∀ apply, P apply ctx thunks = some (false, ctx', thunks)

/-- In front of `w` the expression has no result. -/
def Overruns (conv : UInt8 → ℤ) (P : Parser ρ α) (w : List UInt8) : Prop :=
  ∀ (ctx : Context ρ α) (thunks : List (Thunk α)), ctx.WF conv → ctx.unread = w →
    ∀ apply, P apply ctx thunks = none

/-- In front of `u ++ v` the turns of a repetition read `u`, in `k` turns, if so many
can be counted. -/
def Repeats (conv : UInt8 → ℤ) (P : Parser ρ α) (k : ℕ) (u v : List UInt8) : Prop :=
  ∀ (ctx : Context ρ α) (thunks : List (Thunk α)), ctx.WF conv → ctx.unread = u ++ v →
    ∃ ctx', Scans conv ctx ctx' u v ∧ ∀ apply i n, (u ++ v).length < n → i ≤ intMax →
      repeatLoop (P apply) n i ctx thunks =
        if i + k ≤ intMax then some (i + k, ctx', thunks) else none

/-! ## Going back -/

/-- Back at the position of the start, everything read is unread again. -/
theorem Scans.back {ctx ctx' : Context ρ α} {u v : List UInt8} (h : Scans conv ctx ctx' u v)
    (hwf : ctx.WF conv) : Scans conv ctx (ctx'.at ctx.cur) [] (u ++ v) := by
  refine ⟨⟨⟨?_, h.wf.nonneg⟩, rfl, ?_, h.grows, rfl⟩, h.table_eq⟩
  · exact Nat.le_trans hwf.cur_le h.grows.length_le
  · have hunread := h.unread_eq
    unfold Context.unread at hunread
    show ctx'.buffer.drop ctx.cur ++ ctx'.auxil = u ++ v
    rw [h.text, List.append_assoc, hunread]

/-! ## Strings -/

theorem Bytewise.faithful (hconv : Bytewise conv) : Faithful conv := by
  intro b _
  rw [hconv, Int.toNat_natCast]
  exact UInt8.ofNat_toNat

theorem Bytewise.peek (hconv : Bytewise conv) (w : List UInt8) : peek conv w = (w.head?, w) := by
  cases w with
  | nil => rfl
  | cons b w =>
    have hb : ¬ conv b < 0 := by
      rw [hconv]
      omega
    rw [Pcc.peek, if_neg hb]
    rfl

/-- Refilling moves characters from the text to the buffer, as many as there
are. -/
theorem refillLoop_spec (hconv : Bytewise conv) (n : ℕ) (ctx : Context ρ α) :
    let ctx' := refillLoop conv n ctx
    ctx'.cur = ctx.cur ∧ ctx'.lrtable = ctx.lrtable ∧
      ctx'.buffer ++ ctx'.auxil = ctx.buffer ++ ctx.auxil ∧ ctx.buffer <+: ctx'.buffer ∧
      (ctx'.auxil = [] ∨ ctx'.buffer.length = ctx.buffer.length + n) := by
  induction n generalizing ctx with
  | zero => exact ⟨rfl, rfl, rfl, List.prefix_refl _, Or.inr rfl⟩
  | succ n ih =>
    unfold refillLoop
    split
    · rename_i haux
      exact ⟨rfl, rfl, rfl, List.prefix_refl _, Or.inl haux⟩
    · rename_i b auxil haux
      have hb : ¬ conv b < 0 := by
        rw [hconv]
        omega
      have hbyte : UInt8.ofNat (conv b).toNat = b := hconv.faithful b (Int.not_lt.mp hb)
      rw [if_neg hb, hbyte]
      obtain ⟨hcur, htable, hkeep, hgrows, hend⟩ :=
        ih { ctx with auxil := auxil, buffer := ctx.buffer ++ [b] }
      refine ⟨hcur, htable, ?_, (List.prefix_append _ _).trans hgrows, ?_⟩
      · rw [hkeep, haux, List.append_assoc]
        rfl
      · refine hend.imp_right ?_
        intro hlen
        rw [hlen, List.length_append, List.length_singleton]
        omega

/-- After asking for `n` characters they are in the buffer, or all there are. -/
theorem pccRefillBuffer_spec (hconv : Bytewise conv) {ctx : Context ρ α} (h : ctx.WF conv)
    (n : ℕ) :
    ∃ ctx', pccRefillBuffer conv ctx n = ((ctx'.buffer.drop ctx'.cur).length, ctx') ∧
      Scans conv ctx ctx' [] ctx.unread ∧
      (n ≤ (ctx'.buffer.drop ctx'.cur).length ∨ ctx'.buffer.drop ctx'.cur = ctx.unread) := by
  obtain ⟨hcur, htable, hkeep, hgrows, hend⟩ :=
    refillLoop_spec hconv (ctx.cur + n - ctx.buffer.length) ctx
  have hle := h.cur_le
  -- the text from the current position on is the same
  have hunread : (refillLoop conv (ctx.cur + n - ctx.buffer.length) ctx).unread = ctx.unread := by
    unfold Context.unread
    rw [hcur, ← List.drop_append_of_le_length hle,
      ← List.drop_append_of_le_length (Nat.le_trans hle hgrows.length_le), hkeep]
  refine ⟨refillLoop conv (ctx.cur + n - ctx.buffer.length) ctx, ?_, ?_, ?_⟩
  · rw [pccRefillBuffer, List.length_drop]
  · refine ⟨⟨⟨?_, ?_⟩, hcur, hunread, hgrows, ?_⟩, htable⟩
    · rw [hcur]
      exact Nat.le_trans hle hgrows.length_le
    · intro b _
      rw [hconv]
      omega
    · rw [hcur]
      rfl
  · rw [List.length_drop, hcur]
    rcases hend with hend | hend
    · right
      rw [← hunread]
      unfold Context.unread
      rw [hend, hcur, List.append_nil]
    · left
      omega

/-- A string reads itself. -/
theorem takes_string (hconv : Bytewise conv) (s v : List UInt8) :
    Takes conv (.string conv s : Parser ρ α) s v := by
  intro ctx thunks hwf hunread
  rcases pccRefillBuffer_spec hconv hwf s.length with ⟨ctx₁, hrefill, hscans, hlong⟩
  have hleft := hscans.unread_eq
  rw [hunread] at hleft hlong
  unfold Context.unread at hleft
  have hlen : s.length ≤ (ctx₁.buffer.drop ctx₁.cur).length := by
    rcases hlong with hlong | hlong
    · exact hlong
    · rw [hlong, List.length_append]
      omega
  -- the buffer from the current position on begins with the string
  have htake : (ctx₁.buffer.drop ctx₁.cur).take s.length = s := by
    rw [← List.take_append_of_le_length hlen, hleft, List.take_left]
  have hcur : ctx₁.cur = ctx.cur := hscans.cur_eq
  have hdrop : ctx₁.buffer.drop ctx₁.cur = s ++ ctx₁.buffer.drop (ctx₁.cur + s.length) := by
    conv_lhs => rw [← List.take_append_drop s.length (ctx₁.buffer.drop ctx₁.cur)]
    rw [htake, List.drop_drop]
  refine ⟨ctx₁.at (ctx₁.cur + s.length), ⟨⟨⟨?_, hscans.wf.nonneg⟩, ?_, ?_, hscans.grows, ?_⟩,
    hscans.table_eq⟩, ?_⟩
  · rw [List.length_drop] at hlen
    have := hscans.wf.cur_le
    rw [at_cur, at_buffer]
    omega
  · rw [at_cur, hcur]
  · rw [hdrop, List.append_assoc] at hleft
    exact List.append_cancel_left hleft
  · rw [← hcur]
    exact hdrop
  · intro apply
    unfold Parser.string
    rw [hrefill]
    simp only [if_neg (Nat.not_lt.mpr hlen), if_pos htake]

/-- A string fails on every text that does not begin with it. -/
theorem rejects_string (hconv : Bytewise conv) {s w : List UInt8} (hs : ¬ s <+: w) :
    Rejects conv (.string conv s : Parser ρ α) w := by
  intro ctx thunks hwf hunread
  rcases pccRefillBuffer_spec hconv hwf s.length with ⟨ctx₁, hrefill, hscans, -⟩
  have hleft := hscans.unread_eq
  rw [hunread] at hleft hscans
  refine ⟨ctx₁, [], w, rfl, hscans, ?_⟩
  intro apply
  unfold Parser.string
  rw [hrefill]
  by_cases hlen : (ctx₁.buffer.drop ctx₁.cur).length < s.length
  · simp only [if_pos hlen]
  · have hne : (ctx₁.buffer.drop ctx₁.cur).take s.length ≠ s := by
      intro htake
      apply hs
      rw [← hleft, ← htake]
      exact (List.take_prefix _ _).trans (List.prefix_append _ _)
    simp only [if_neg hlen, if_neg hne]

/-! ## Characters -/

theorem takes_charClass (hconv : Bytewise conv) {p : UInt8 → Bool} {c : UInt8} (hp : p c = true)
    (v : List UInt8) : Takes conv (.charClass conv p : Parser ρ α) [c] v := by
  intro ctx thunks hwf hunread
  have hpeek : peek conv ctx.unread = (some c, c :: v) := by
    rw [hconv.peek, hunread]
    rfl
  exact charClass_match hconv.faithful hwf hpeek hp thunks

theorem rejects_charClass (hconv : Bytewise conv) {p : UInt8 → Bool} {w : List UInt8}
    (hp : ∀ c, w.head? = some c → p c = false) :
    Rejects conv (.charClass conv p : Parser ρ α) w := by
  intro ctx thunks hwf hunread
  have hmisses : Misses conv p ctx.unread := by
    intro c hc
    rw [hconv.peek, hunread] at hc
    exact hp c hc
  have hscans := (peeked_spec hconv.faithful hwf).1
  rw [hconv.peek, hunread] at hscans
  exact ⟨ctx.peeked conv, [], w, rfl, hscans,
    fun apply => charClass_fail hconv.faithful hwf hmisses thunks apply⟩

theorem rejects_charClass_cons (hconv : Bytewise conv) {p : UInt8 → Bool} {c : UInt8}
    (hc : p c = false) (w : List UInt8) :
    Rejects conv (.charClass conv p : Parser ρ α) (c :: w) := by
  refine rejects_charClass hconv ?_
  intro d hd
  obtain rfl : c = d := Option.some.inj hd
  exact hc

/-! ## Sequences and choices -/

section Combinators

variable {P Q : Parser ρ α} {u u' v w : List UInt8} {k : ℕ}

theorem Takes.seq (hP : Takes conv P u (u' ++ v)) (hQ : Takes conv Q u' v) :
    Takes conv (P.seq Q) (u ++ u') v := by
  intro ctx thunks hwf hunread
  rcases hP ctx thunks hwf (by rw [hunread, List.append_assoc]) with ⟨ctx₁, hscans₁, hrun₁⟩
  rcases hQ ctx₁ thunks hscans₁.wf hscans₁.unread_eq with ⟨ctx₂, hscans₂, hrun₂⟩
  refine ⟨ctx₂, hscans₁.trans hscans₂, ?_⟩
  intro apply
  unfold Parser.seq
  rw [hrun₁]
  exact hrun₂ apply

theorem Rejects.seq (hP : Rejects conv P w) : Rejects conv (P.seq Q) w := by
  intro ctx thunks hwf hunread
  rcases hP ctx thunks hwf hunread with ⟨ctx₁, u, v, hw, hscans, hrun⟩
  refine ⟨ctx₁, u, v, hw, hscans, ?_⟩
  intro apply
  unfold Parser.seq
  rw [hrun]

theorem Takes.seq_rejects (hP : Takes conv P u v) (hQ : Rejects conv Q v) :
    Rejects conv (P.seq Q) (u ++ v) := by
  intro ctx thunks hwf hunread
  rcases hP ctx thunks hwf hunread with ⟨ctx₁, hscans₁, hrun₁⟩
  rcases hQ ctx₁ thunks hscans₁.wf hscans₁.unread_eq with ⟨ctx₂, u₂, v₂, hv, hscans₂, hrun₂⟩
  refine ⟨ctx₂, u ++ u₂, v₂, by rw [hv, List.append_assoc], hscans₁.trans hscans₂, ?_⟩
  intro apply
  unfold Parser.seq
  rw [hrun₁]
  exact hrun₂ apply

theorem Overruns.seq (hP : Overruns conv P w) : Overruns conv (P.seq Q) w := by
  intro ctx thunks hwf hunread apply
  unfold Parser.seq
  rw [hP ctx thunks hwf hunread apply]

theorem Takes.seq_overruns (hP : Takes conv P u v) (hQ : Overruns conv Q v) :
    Overruns conv (P.seq Q) (u ++ v) := by
  intro ctx thunks hwf hunread apply
  rcases hP ctx thunks hwf hunread with ⟨ctx₁, hscans₁, hrun₁⟩
  unfold Parser.seq
  rw [hrun₁]
  exact hQ ctx₁ thunks hscans₁.wf hscans₁.unread_eq apply

theorem Rejects.alt_takes (hP : Rejects conv P (u ++ v)) (hQ : Takes conv Q u v) :
    Takes conv (P.alt Q) u v := by
  intro ctx thunks hwf hunread
  rcases hP ctx thunks hwf hunread with ⟨ctx₁, u₁, v₁, hw, hscans₁, hrun₁⟩
  have hback := hscans₁.back hwf
  rw [← hw] at hback
  rcases hQ (ctx₁.at ctx.cur) thunks hback.wf hback.unread_eq with ⟨ctx₂, hscans₂, hrun₂⟩
  refine ⟨ctx₂, hback.trans hscans₂, ?_⟩
  intro apply
  unfold Parser.alt
  simp only [hrun₁, List.take_length, hrun₂]

theorem Rejects.alt (hP : Rejects conv P w) (hQ : Rejects conv Q w) :
    Rejects conv (P.alt Q) w := by
  intro ctx thunks hwf hunread
  rcases hP ctx thunks hwf hunread with ⟨ctx₁, u₁, v₁, hw₁, hscans₁, hrun₁⟩
  have hback₁ := hscans₁.back hwf
  rw [← hw₁] at hback₁
  rcases hQ (ctx₁.at ctx.cur) thunks hback₁.wf hback₁.unread_eq
    with ⟨ctx₂, u₂, v₂, hw₂, hscans₂, hrun₂⟩
  have hback₂ := (hback₁.trans hscans₂).back hwf
  rw [List.nil_append, ← hw₂] at hback₂
  refine ⟨ctx₂.at ctx.cur, [], w, rfl, hback₂, ?_⟩
  intro apply
  unfold Parser.alt
  simp only [hrun₁, List.take_length, hrun₂]

/-! ## Repetitions -/

theorem Rejects.repeats (hP : Rejects conv P v) : Repeats conv P 0 [] v := by
  intro ctx thunks hwf hunread
  rcases hP ctx thunks hwf hunread with ⟨ctx₁, u₁, v₁, hw, hscans, hrun⟩
  have hback := hscans.back hwf
  rw [← hw] at hback
  refine ⟨ctx₁.at ctx.cur, hback, ?_⟩
  intro apply i n hn hi
  obtain ⟨m, rfl⟩ : ∃ m, n = m + 1 := ⟨n - 1, by omega⟩
  rw [repeatLoop, hrun]
  simp only [List.take_length, Nat.add_zero, if_pos hi]

/-- A turn that reads something is followed by the others. -/
theorem Takes.repeats (hP : Takes conv P u (u' ++ v)) (hne : u ≠ [])
    (h : Repeats conv P k u' v) : Repeats conv P (k + 1) (u ++ u') v := by
  intro ctx thunks hwf hunread
  rcases hP ctx thunks hwf (by rw [hunread, List.append_assoc]) with ⟨ctx₁, hscans₁, hrun₁⟩
  rcases h ctx₁ thunks hscans₁.wf hscans₁.unread_eq with ⟨ctx₂, hscans₂, hrun₂⟩
  refine ⟨ctx₂, hscans₁.trans hscans₂, ?_⟩
  intro apply i n hn hi
  obtain ⟨m, rfl⟩ : ∃ m, n = m + 1 := ⟨n - 1, by omega⟩
  have hpos : 0 < u.length := List.length_pos_iff.mpr hne
  have hmoved : ctx₁.cur ≠ ctx.cur := by
    have := hscans₁.cur_eq
    omega
  have hm : (u' ++ v).length < m := by
    rw [List.append_assoc, List.length_append] at hn
    omega
  rw [repeatLoop, hrun₁]
  simp only [if_neg hmoved]
  split
  · rename_i hcount
    rw [hrun₂ apply (i + 1) m hm hcount, Nat.add_right_comm, Nat.add_assoc]
  · rw [if_neg (by omega)]

/-- The loop of a repetition, from its beginning. -/
theorem Repeats.loop (h : Repeats conv P k u v) {ctx : Context ρ α} (hwf : ctx.WF conv)
    (hunread : ctx.unread = u ++ v) (thunks : List (Thunk α)) :
    ∃ ctx', Scans conv ctx ctx' u v ∧ ∀ apply,
      repeatLoop (P apply) (ctx.unread.length + 1) 0 ctx thunks =
        if k ≤ intMax then some (k, ctx', thunks) else none := by
  rcases h ctx thunks hwf hunread with ⟨ctx', hscans, hrun⟩
  refine ⟨ctx', hscans, ?_⟩
  intro apply
  rw [hunread, hrun apply 0 _ (Nat.lt_succ_self _) (Nat.zero_le _), Nat.zero_add]

/-- A repetition reads what its turns read, if they can be counted. -/
theorem Repeats.star (h : Repeats conv P k u v) (hk : k ≤ intMax) : Takes conv (.star P) u v := by
  intro ctx thunks hwf hunread
  rcases h.loop hwf hunread thunks with ⟨ctx', hscans, hrun⟩
  refine ⟨ctx', hscans, ?_⟩
  intro apply
  unfold Parser.star
  rw [hrun apply, if_pos hk]

/-- If they cannot, it has no result. -/
theorem Repeats.star_overruns (h : Repeats conv P k u v) (hk : intMax < k) :
    Overruns conv (.star P) (u ++ v) := by
  intro ctx thunks hwf hunread apply
  rcases h.loop hwf hunread thunks with ⟨ctx', -, hrun⟩
  unfold Parser.star
  rw [hrun apply, if_neg (Nat.not_le.mpr hk)]

theorem Repeats.plus (h : Repeats conv P (k + 1) u v) (hk : k + 1 ≤ intMax) :
    Takes conv (.plus P) u v := by
  intro ctx thunks hwf hunread
  rcases h.loop hwf hunread thunks with ⟨ctx', hscans, hrun⟩
  refine ⟨ctx', hscans, ?_⟩
  intro apply
  unfold Parser.plus
  rw [hrun apply, if_pos hk]
  simp only [if_neg (show ¬ k + 1 < 1 by omega)]

theorem Repeats.plus_overruns (h : Repeats conv P k u v) (hk : intMax < k) :
    Overruns conv (.plus P) (u ++ v) := by
  intro ctx thunks hwf hunread apply
  rcases h.loop hwf hunread thunks with ⟨ctx', -, hrun⟩
  unfold Parser.plus
  rw [hrun apply, if_neg (Nat.not_le.mpr hk)]

theorem Rejects.plus (hP : Rejects conv P v) : Rejects conv (.plus P) v := by
  intro ctx thunks hwf hunread
  rcases hP.repeats.loop hwf hunread thunks with ⟨ctx', hscans, hrun⟩
  refine ⟨ctx'.at ctx.cur, [], v, rfl, hscans.back hwf, ?_⟩
  intro apply
  unfold Parser.plus
  rw [hrun apply, if_pos (Nat.zero_le _)]
  simp only [if_pos Nat.zero_lt_one, List.take_length]

/-- The characters of a class, up to one that is not in it. -/
theorem repeats_charClass (hconv : Bytewise conv) {p : UInt8 → Bool} (hu : ∀ c ∈ u, p c = true)
    (hv : ∀ c, v.head? = some c → p c = false) :
    Repeats conv (.charClass conv p : Parser ρ α) u.length u v := by
  induction u with
  | nil => exact (rejects_charClass hconv hv).repeats
  | cons c u ih =>
    have hrest := ih fun d hd => hu d (List.mem_cons_of_mem c hd)
    exact (takes_charClass hconv (hu c List.mem_cons_self) (u ++ v)).repeats
      (List.cons_ne_nil c []) hrest

end Combinators

/-! ## Rules -/

section Rules

variable [DecidableEq ρ] {g : Grammar ρ α} {P : Parser ρ α} {r : ρ} {action : α}
  {ctx : Context ρ α} {u v w : List UInt8}

/-- A rule that is a token with an action, where it was not applied before. The
answers of the other rules stay. -/
theorem Takes.rule (hrule : ∀ pos, g r pos = P.seq (.emit action pos))
    (hP : Takes conv P u v) (hwf : ctx.WF conv) (hunread : ctx.unread = u ++ v)
    (hnew : ctx.lrtable ctx.cur r = none) (slot : Option ℕ) (thunks : List (Thunk α)) :
    ∃ ctx', Consumes conv ctx ctx' u v ∧
      (∀ q s, s ≠ r → ctx'.lrtable q s = ctx.lrtable q s) ∧
      Observes g (.rule r slot) ctx thunks
        (true, ctx', thunks ++ [.node [.leaf action ctx.cur ctx'.cur] slot]) := by
  rcases hP (ctx.setAnswer ctx.cur r .lr) [] (hwf.setAnswer _ _ _) hunread
    with ⟨ctx₁, hscans, hrun⟩
  have hbody : Observes g (g r ctx.cur) (ctx.setAnswer ctx.cur r .lr) []
      (true, ctx₁, [.leaf action ctx.cur ctx₁.cur]) := by
    rw [hrule]
    exact (Observes.of_eq hrun).seq (.emit action ctx.cur)
  refine ⟨_, hscans.toConsumes.setAnswer, ?_, .apply hnew hbody⟩
  intro q s hs
  rw [setAnswer_ne _ _ (Or.inr hs), hscans.table_eq, setAnswer_ne _ _ (Or.inr hs)]

/-- The same, where it fails. Back at its start the text is as before. -/
theorem Rejects.rule (hrule : ∀ pos, g r pos = P.seq (.emit action pos))
    (hP : Rejects conv P w) (hwf : ctx.WF conv) (hunread : ctx.unread = w)
    (hnew : ctx.lrtable ctx.cur r = none) (slot : Option ℕ) (thunks : List (Thunk α)) :
    ∃ ctx', Consumes conv ctx (ctx'.at ctx.cur) [] w ∧
      (∀ q s, s ≠ r → ctx'.lrtable q s = ctx.lrtable q s) ∧
      Observes g (.rule r slot) ctx thunks (false, ctx', thunks) := by
  rcases hP (ctx.setAnswer ctx.cur r .lr) [] (hwf.setAnswer _ _ _) hunread
    with ⟨ctx₁, u, v, hw, hscans, hrun⟩
  have hbody : Observes g (g r ctx.cur) (ctx.setAnswer ctx.cur r .lr) []
      (false, ctx₁, []) := by
    rw [hrule]
    exact (Observes.of_eq hrun).seq_fail
  have hback := (hscans.back (hwf.setAnswer _ _ _)).toConsumes
  rw [← hw] at hback
  have hback' : Consumes conv ctx
      ((ctx₁.at ctx.cur).setAnswer ctx.cur r (.chunk none ctx₁.cur)) [] w := hback.setAnswer
  refine ⟨ctx₁.setAnswer ctx.cur r (.chunk none ctx₁.cur), hback', ?_, .apply_fail hnew hbody⟩
  intro q s hs
  rw [setAnswer_ne _ _ (Or.inr hs), hscans.table_eq, setAnswer_ne _ _ (Or.inr hs)]

/-- The same, where it has no result. -/
theorem Overruns.rule (hrule : ∀ pos, g r pos = P.seq (.emit action pos))
    (hP : Overruns conv P w) (hwf : ctx.WF conv) (hunread : ctx.unread = w)
    (hnew : ctx.lrtable ctx.cur r = none) (slot : Option ℕ) (thunks : List (Thunk α)) :
    NoResult g (.rule r slot) ctx thunks := by
  have hbody : NoResult g (g r ctx.cur) (ctx.setAnswer ctx.cur r .lr) [] := by
    rw [hrule]
    exact .of_eq (hP.seq _ _ (hwf.setAnswer _ _ _) hunread)
  exact hbody.apply hnew

end Rules

end Jetlang.Pcc
