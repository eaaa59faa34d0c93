import Jetlang.Pcc.Language
import Jetlang.Pcc2.Atoms

/-! # Identifiers

The rule `sym` of `pcc2.peg` wants two characters at least, and the rule `nil`,
which is tried before it, takes the beginning of a longer word as well as the
keyword. So a word of `pcc.peg` is read whole unless it is a single letter or
begins with `nil`, or has more characters than an `int` counts.
-/

namespace Jetlang.Pcc2

open Pcc
open Jetlang.Sym (intMax)

variable {v : List UInt8}

/-! ## Characters -/

theorem isLead_of_isAlpha {c : UInt8} (h : isAlpha c = true) : isLead c = true := by
  unfold isLead
  rw [h]
  rfl

/-- A letter is not a character that is none. -/
theorem beq_of_isAlpha {c d : UInt8} (h : isAlpha c = true) (hd : isAlpha d = false) :
    (c == d) = false := by
  by_contra heq
  rw [beq_iff_eq.mp (Bool.of_not_eq_false heq), hd] at h
  cases h

/-- Where a word ends, a text of word characters is a prefix of what follows only
if it is one of the word. -/
theorem prefix_of_boundary {s w : List UInt8} (hs : ∀ c ∈ s, isWord c = true)
    (hnext : ∀ c, v.head? = some c → isWord c = false) (h : s <+: w ++ v) : s <+: w := by
  rcases List.prefix_or_prefix_of_prefix h (List.prefix_append w v) with hle | ⟨t, rfl⟩
  · exact hle
  · cases t with
    | nil =>
      rw [List.append_nil]
    | cons c t =>
      -- the character behind the word would be one of the text
      rcases h with ⟨r, hr⟩
      rw [List.append_assoc] at hr
      have hv : (c :: t) ++ r = v := List.append_cancel_left hr
      have hc := hs c (List.mem_append_right w List.mem_cons_self)
      rw [hnext c (by rw [← hv]; rfl)] at hc
      cases hc

/-! ## Tokens -/

theorem rejects_nilToken {w : List UInt8} (hparens : ¬ [40, 41] <+: w) (hnil : ¬ nilWord <+: w) :
    Rejects getchar nilToken w :=
  (rejects_string bytewise_getchar hparens).alt (rejects_string bytewise_getchar hnil)

theorem takes_nilToken (w : List UInt8) : Takes getchar nilToken nilWord w := by
  refine Rejects.alt_takes (rejects_string bytewise_getchar ?_) (takes_string bytewise_getchar _ w)
  rintro ⟨r, hr⟩
  exact absurd (List.cons.inj hr).1 (by decide)

theorem rejects_intToken {c : UInt8} (hc : (c == 48) = false) (w : List UInt8) :
    Rejects getchar intToken (c :: w) :=
  rejects_charClass_cons (p := (· == 48)) bytewise_getchar hc w

theorem rejects_strToken {c : UInt8} (hc : (c == 34) = false) (w : List UInt8) :
    Rejects getchar strToken (c :: w) :=
  (rejects_charClass_cons (p := (· == 34)) bytewise_getchar hc w).seq

/-- A word of two characters at least is a token of the rule `sym`. -/
theorem takes_symToken (n : Name) (hlong : n.rest ≠ []) (hshort : n.rest.length ≤ intMax)
    (hnext : ∀ c, v.head? = some c → isWord c = false) :
    Takes getchar symToken n.bytes v := by
  have hrest : Takes getchar (.plus (charClass isWord)) n.rest v := by
    have hrepeats := repeats_charClass (ρ := PccRule) (α := PccAction) bytewise_getchar
      n.word hnext
    rcases List.exists_cons_of_ne_nil hlong with ⟨c, cs, hcs⟩
    rw [hcs] at hrepeats hshort ⊢
    exact hrepeats.plus hshort
  exact (takes_charClass bytewise_getchar (isLead_of_isAlpha n.alpha) (n.rest ++ v)).seq hrest

/-- One that is too long is not counted to its end. -/
theorem overruns_symToken (n : Name) (hlong : intMax < n.rest.length)
    (hnext : ∀ c, v.head? = some c → isWord c = false) :
    Overruns getchar symToken (n.bytes ++ v) := by
  have hrest : Overruns getchar (.plus (charClass isWord)) (n.rest ++ v) :=
    (repeats_charClass (ρ := PccRule) (α := PccAction) bytewise_getchar n.word hnext).plus_overruns
      hlong
  exact (takes_charClass bytewise_getchar (isLead_of_isAlpha n.alpha) (n.rest ++ v)).seq_overruns
    hrest

/-- A single letter is not. -/
theorem rejects_symToken (n : Name) (hshort : n.rest = [])
    (hnext : ∀ c, v.head? = some c → isWord c = false) :
    Rejects getchar symToken (n.bytes ++ v) := by
  have hrest : Rejects getchar (.plus (charClass isWord)) v :=
    (rejects_charClass bytewise_getchar hnext).plus
  unfold Name.bytes
  rw [hshort]
  exact (takes_charClass bytewise_getchar (isLead_of_isAlpha n.alpha) v).seq_rejects hrest

/-! ## Words -/

section Words

variable {cap : Cst.CstTag → ℕ} {log : List (Cst.Call × Cst.CstNode)} {cst : Cst.CST}
  {ctx : PccContext} {n : Name} {pos : ℕ}

/-- Before a word the rule `int` is passed over. -/
theorem rejects_int_word (n : Name) (v : List UInt8) :
    Rejects getchar intToken (n.bytes ++ v) :=
  rejects_intToken (beq_of_isAlpha n.alpha (by decide)) (n.rest ++ v)

/-- So is the rule `nil`, unless the word begins with the keyword. -/
theorem rejects_nil_word (hstarts : ¬ nilWord <+: n.bytes)
    (hnext : ∀ c, v.head? = some c → isWord c = false) :
    Rejects getchar nilToken (n.bytes ++ v) := by
  refine rejects_nilToken ?_ ?_
  · rintro ⟨r, hr⟩
    have halpha := n.alpha
    rw [← (List.cons.inj hr).1] at halpha
    cases halpha
  · intro h
    refine hstarts (prefix_of_boundary ?_ hnext h)
    intro c hc
    unfold nilWord at hc
    simp only [List.mem_cons, List.not_mem_nil, or_false] at hc
    rcases hc with rfl | rfl | rfl <;> rfl

/-- A longer word that begins with the keyword is cut short. -/
theorem not_readsAtom_nil (hready : Ready ctx) (hunread : ctx.unread = n.bytes ++ v)
    (hnil : n.bytes ≠ nilWord) (hstarts : nilWord <+: n.bytes) (tag : Cst.CstTag) :
    ¬ ReadsAtom pos cst ctx n.bytes v tag := by
  intro hreads
  rcases hstarts with ⟨r, hr⟩
  rw [← hr, List.append_assoc] at hunread
  rcases hreads.value (chooses_nil (takes_nilToken (r ++ v))) hready hunread with ⟨hlen, -⟩
  rw [← hr, List.length_append] at hlen
  have hempty : r = [] := List.eq_nil_of_length_eq_zero (by omega)
  rw [hempty, List.append_nil] at hr
  exact hnil hr.symm

/-- A single letter is refused. -/
theorem not_readsAtom_letter (hready : Ready ctx) (hunread : ctx.unread = n.bytes ++ v)
    (hshort : n.rest = []) (hnext : ∀ c, v.head? = some c → isWord c = false)
    (hstarts : ¬ nilWord <+: n.bytes) (tag : Cst.CstTag) :
    ¬ ReadsAtom pos cst ctx n.bytes v tag := by
  rintro ⟨ctx₁, c, node, cst', hobs, -⟩
  have hstr : Rejects getchar strToken (n.bytes ++ v) :=
    rejects_strToken (beq_of_isAlpha n.alpha (by decide)) (n.rest ++ v)
  rcases atom_fail hready hunread (rejects_nil_word hstarts hnext) (rejects_int_word n v)
    (rejects_symToken n hshort hnext) hstr with ⟨ctx₂, hfail⟩
  cases observes_unique hobs hfail

/-- One that is too long is never read. -/
theorem not_readsAtom_overrun (hready : Ready ctx) (hunread : ctx.unread = n.bytes ++ v)
    (hlong : intMax < n.rest.length) (hnext : ∀ c, v.head? = some c → isWord c = false)
    (hstarts : ¬ nilWord <+: n.bytes) (tag : Cst.CstTag) :
    ¬ ReadsAtom pos cst ctx n.bytes v tag := by
  rintro ⟨ctx₁, c, node, cst', hobs, -⟩
  have hstalls := stalls_sym (rejects_nil_word hstarts hnext) (rejects_int_word n v)
    (overruns_symToken n hlong hnext)
  exact (hstalls.atom hready hunread).not_observes hobs

/-- Any other word is the token of the rule `sym`. -/
theorem chooses_word (hlong : n.rest ≠ []) (hshort : n.rest.length ≤ intMax)
    (hstarts : ¬ nilWord <+: n.bytes)
    (hnext : ∀ c, v.head? = some c → isWord c = false) : Chooses .sym0 n.bytes v :=
  chooses_sym (rejects_nil_word hstarts hnext) (rejects_int_word n v)
    (takes_symToken n hlong hshort hnext)

theorem two_le_length {n : Name} : 2 ≤ n.bytes.length ↔ n.rest ≠ [] := by
  unfold Name.bytes
  rw [List.length_cons, ← List.length_pos_iff]
  omega

/-- **When an identifier is read whole.** Exactly if it has two characters at
least and does not begin with `nil`, its end is an `int`, and the table of
symbols has room. -/
theorem readsWord_iff (hrun : Cst.Run (.new cap) log cst) (hready : Ready ctx) (n : Name)
    (hunread : ctx.unread = n.bytes ++ v) (hnil : n.bytes ≠ nilWord)
    (hnext : ∀ c, v.head? = some c → isWord c = false) (pos : ℕ) :
    ReadsAtom pos cst ctx n.bytes v .sym ↔
      2 ≤ n.bytes.length ∧ ¬ nilWord <+: n.bytes ∧ pos + ctx.cur + n.bytes.length < 2 ^ 31 ∧
        (Cst.entries .sym (log.map Prod.fst)).length < Cst.limit (cap .sym) := by
  have hsym : Cst.CstTag.sym ≠ .nil := by decide
  rw [two_le_length]
  constructor
  · intro hreads
    have hstarts : ¬ nilWord <+: n.bytes := by
      intro hstarts
      exact not_readsAtom_nil hready hunread hnil hstarts .sym hreads
    have hlong : n.rest ≠ [] := by
      intro hshort
      exact not_readsAtom_letter hready hunread hshort hnext hstarts .sym hreads
    have hshort : n.rest.length ≤ intMax := by
      refine Nat.le_of_not_lt fun hover => ?_
      exact not_readsAtom_overrun hready hunread hover hnext hstarts .sym hreads
    rcases hreads.value (chooses_word hlong hshort hstarts hnext) hready hunread
      with ⟨-, node, cst', string, hmake, -, hspan⟩
    rcases hrun.make (c := ⟨.sym, _⟩) hsym hmake with ⟨hdesignates, hlimit⟩
    refine ⟨hlong, hstarts, ?_, hlimit⟩
    -- the span in the table is the one of the word, so its end is an `int`
    have hend := congrArg Cst.Span.e (hdesignates.unique hspan)
    have hint : Cst.toInt (pos + (ctx.cur + n.bytes.length)) < 2 ^ 31 := BitVec.toInt_lt
    simp only at hend
    omega
  · rintro ⟨hlong, hstarts, hpos, hlimit⟩
    have hshort : n.rest.length ≤ intMax := by
      have hmax : intMax = 2 ^ 31 - 1 := rfl
      have hlen : n.bytes.length = n.rest.length + 1 := rfl
      omega
    rcases (chooses_word hlong hshort hstarts hnext).atom hready hunread with ⟨ctx', hcons, hobs⟩
    have hinv := Cst.run_inv hrun
    rcases hinv.step ⟨.sym, ⟨(pos + ctx.cur : ℕ), (pos + ctx.cur + n.bytes.length : ℕ)⟩⟩
      (fun _ => hlimit) with ⟨node, cst', hmake, -⟩
    refine ⟨ctx', _, node, cst', hobs, hcons, ?_, hmake, tag_of_makeAtom hmake,
      (hrun.make hsym hmake).1⟩
    rw [chunkValue_atomChunk, hcons.cur_eq]
    show Cst.cstMakeAtom cst .sym ⟨Cst.toInt (pos + ctx.cur), Cst.toInt (pos + (ctx.cur +
      n.bytes.length))⟩ = _
    rw [Cst.toInt_of_lt (by omega), Cst.toInt_of_lt (by omega), ← Nat.add_assoc]
    exact hmake

end Words

/-- The words `ab` and `a`. -/
def nameAB : Name :=
  ⟨97, [98], nameA.alpha, List.forall_mem_cons.mpr ⟨rfl, List.forall_mem_nil _⟩⟩

def letterA : Name := nameA

/-- The word `ab`, at the end of the input. -/
theorem readsWord_two :
    ReadsAtom 0 (.new fun _ => 4) (pccCreate nameAB.bytes) nameAB.bytes [] .sym := by
  have hrun : Cst.Run (.new fun _ => 4) [] (.new fun _ => 4) := .init
  refine (readsWord_iff hrun (ready_create nameAB.bytes) nameAB (by rfl) (by decide) ?_ 0).mpr
    (by decide)
  intro c hc
  cases hc

/-- The word `a` is refused. -/
theorem readsWord_counterexample :
    letterA.bytes ≠ nilWord ∧
      ¬ ReadsAtom 0 (.new fun _ => 4) (pccCreate letterA.bytes) letterA.bytes [] .sym := by
  refine ⟨by decide, ?_⟩
  exact not_readsAtom_letter (ready_create letterA.bytes) rfl rfl (fun c hc => by cases hc)
    (by decide) .sym

end Jetlang.Pcc2
