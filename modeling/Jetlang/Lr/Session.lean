import Jetlang.Lr.Parse
import Jetlang.Pcc.Language

/-! # Several parses on one context

`pcc_parse` may be called again on a context: it goes on where the last parse has
ended. The memo table is asked for positions in the input, but when the buffer is
committed its entries move by the length of what is committed. So it is asked at
the wrong places from then on. No harm comes of that: an entry only moves to the
front, and the positions that are asked for lie behind all entries.
-/

namespace Jetlang.Lr

open Pcc (PccContext PccError Tree Represents pccAuxilGetchar pccDoAction isBlank peek left
  OverlongProgram HasLongRun)
open Mem Ast

/-! ## Between two parses -/

section Idle

variable {ρ α : Type} [DecidableEq ρ] {conv : UInt8 → ℤ}

/-- Characters do not matter for what is known. -/
theorem Idle.input {C : Context ρ α} (h : Idle C) {buffer auxil : List UInt8}
    (hle : C.cur ≤ buffer.length) : Idle { C with buffer := buffer, auxil := auxil } :=
  { h with cur_le := hle }

/-- The plain context after a commit and after asking for the next character. -/
def nextContext (conv : UInt8 → ℤ) (ctx : Pcc.Context ρ α) : Pcc.Context ρ α :=
  { (Pcc.pccCommitBuffer ctx).peeked conv with lrtable := fun _ _ => none }

/-- After the commit the parser may parse again. -/
theorem Mirrors.next {C : Context ρ α} {ctx : Pcc.Context ρ α} (h : Mirrors C ctx)
    (hpos : 0 < ctx.cur) (hclear : ∀ q r, ctx.cur < q → ctx.lrtable q r = none) :
    ∃ C', pccRefillBuffer conv (pccCommitBuffer C) 1 =
        ((Pcc.pccRefillBuffer conv (Pcc.pccCommitBuffer ctx) 1).1, C') ∧
      Idle C' ∧ C'.plain = nextContext conv ctx := by
  have hbuffer : (pccCommitBuffer C).buffer = (Pcc.pccCommitBuffer ctx).buffer := by
    unfold pccCommitBuffer Pcc.pccCommitBuffer
    dsimp only
    rw [h.buffer_eq, h.cur_eq]
  have hauxil : (pccCommitBuffer C).auxil = (Pcc.pccCommitBuffer ctx).auxil := h.auxil_eq
  have hcur : (pccCommitBuffer C).cur = (Pcc.pccCommitBuffer ctx).cur := rfl
  rcases pccRefillBuffer_spec conv hcur hbuffer hauxil 1
    with ⟨n, buffer, auxil, hfull, hplain, -, -⟩
  refine ⟨_, by rw [hfull, hplain], (h.commit hpos hclear).input (Nat.zero_le _), ?_⟩
  unfold nextContext Pcc.Context.peeked
  rw [hplain]
  rfl

end Idle

/-- In front of the text stands a program with the tree `t`. Behind it a character
is asked for: `ret` says whether there is one, and `v` is left. -/
def ReadsNext (w : List UInt8) (t : Tree) (ret : ℕ) (v : List UInt8) : Prop :=
  ∃ u w₁ w₂ u' w₃, Pcc.Run isBlank w u w₁ ∧ Pcc.Reads .expr w₁ (.ok [t] w₂) ∧
    Pcc.Run isBlank w₂ u' w₃ ∧ ret = (if (peek pccAuxilGetchar w₃).1 = none then 0 else 1) ∧
    v = left w₃

/-- The plain context at the start of a parse, with the text `w` to read. -/
structure Begins (s : PccContext) (w : List UInt8) : Prop where
  wf : s.WF pccAuxilGetchar
  cur_eq : s.cur = 0
  lrtable_eq : s.lrtable = fun _ _ => none
  unread_eq : s.unread = w

theorem Begins.clear {s : PccContext} {w : List UInt8} (h : Begins s w) : s.Clear s.cur :=
  fun q r _ => by rw [h.lrtable_eq]

/-- The first parse begins with the whole text. -/
theorem begins_create (text : List UInt8) :
    Begins (pccContextCreate text : FullContext).plain text where
  wf := ⟨Nat.le_refl 0, fun b hb => by cases hb⟩
  cur_eq := rfl
  lrtable_eq := rfl
  unread_eq := rfl

/-- A commit and the question for the next character lead to the start of a parse. -/
theorem begins_next {ctx : PccContext} (hwf : ctx.WF pccAuxilGetchar) :
    Begins (nextContext pccAuxilGetchar ctx) (left ctx.unread) := by
  have hcommit : (Pcc.pccCommitBuffer ctx).WF pccAuxilGetchar :=
    ⟨Nat.zero_le _, fun b hb => hwf.nonneg b (List.mem_of_mem_drop hb)⟩
  rcases Pcc.peeked_spec Pcc.faithful_pccAuxilGetchar hcommit with ⟨hscan, -⟩
  exact ⟨⟨hscan.wf.cur_le, hscan.wf.nonneg⟩, hscan.cur_eq, rfl, hscan.unread_eq⟩

section Parse

variable {A : Allocator} {M : ℕ}

/-- One parse, from a context that may parse to one that may parse. -/
theorem pccParse_next {s : PccContext} {w : List UInt8} (hs : Begins s w)
    (hfit : Fits M w.length) (hover : ¬ OverlongProgram w) {t : Tree} {ret : ℕ} {v : List UInt8}
    (hnext : ReadsNext w t ret v) (h : Heap A AstNode) :
    ∃ s' p h', Begins s' v ∧ (h.Extends h' ∧ Represents h' [t] [p]) ∧
      ∃ N, ∀ fuel, N ≤ fuel → ∀ C, Idle C → C.plain = s →
        ∃ C', pccParse M fuel C h = .ok (.ok (ret, p, h', C')) ∧ Idle C' ∧ C'.plain = s' := by
  rcases hnext with ⟨u, w₁, w₂, u', w₃, hblank, hreads, hblank', rfl, rfl⟩
  have hblank₀ := hblank
  rw [← hs.unread_eq] at hblank₀ hover
  rcases Pcc.prog_match hs.clear hs.wf hblank₀ hover hreads hblank'
    with ⟨ctx', c, hmatch, hmade, hwf', hunread, hlt, hclear'⟩
  -- the tree is built
  have hle := Pcc.Run.length_le hblank
  have hnarrow : Pcc.Narrow w.length [t] := (hreads.narrow _ _ rfl).mono (by omega)
  rcases hmade.builds hfit hnarrow h with ⟨p, h', hrun, hext, hrep⟩
  have hprog := hrun.prog h ctx'.cur
  rw [hs.cur_eq] at hmatch hlt
  have hcommit : (Pcc.pccCommitBuffer ctx').WF pccAuxilGetchar :=
    ⟨Nat.zero_le _, fun b hb => hwf'.nonneg b (List.mem_of_mem_drop hb)⟩
  have hleft := Pcc.pccRefillBuffer_pos Pcc.faithful_pccAuxilGetchar hcommit
  have hbegins := begins_next hwf'
  rw [hunread] at hbegins
  have hunread' : (Pcc.pccCommitBuffer ctx').unread = w₃ := hunread
  rw [hunread'] at hleft
  refine ⟨nextContext pccAuxilGetchar ctx', p, h', hbegins, ⟨hext, hrep⟩, ?_⟩
  -- every context that stands for `s` takes these steps
  rcases hmatch (some 0) [] with ⟨N, hN⟩
  refine ⟨N, ?_⟩
  intro fuel hfuel C hidle hplain
  have hmirrors : Mirrors C s := by
    rw [← hplain]
    exact hidle.mirrors
  have happly := hN fuel hfuel
  rw [← plain_pccBody] at happly
  rcases pccApplyRule_refines (evaluate_refines pccBody fuel) _ _ _ _ _ _ _ _ hmirrors happly
    with ⟨C₁, hC₁, hfollows⟩
  rcases hfollows.mirrors.next hlt hclear'
    with ⟨C', hnext, hidle', hplain'⟩
  refine ⟨C', ?_, hidle', hplain'⟩
  unfold pccParse pccApply
  rw [hC₁]
  dsimp only
  rw [List.nil_append, hfollows.mirrors.buffer_eq, hprog.node, pccDoAction]
  dsimp only
  rw [hnext]
  dsimp only
  rw [Function.update_self]
  by_cases hnone : (peek pccAuxilGetchar w₃).1 = none
  · rw [if_neg (fun hpos => hleft.mp hpos hnone), if_pos hnone]
  · rw [if_pos (hleft.mpr hnone), if_neg hnone]

/-- Without an expression in front of it a parse ends in a syntax error. -/
theorem pccParse_lacks {s : PccContext} {w u w₁ : List UInt8} (hs : Begins s w)
    (hover : ¬ OverlongProgram w) (hblank : Pcc.Run isBlank w u w₁) {o : Pcc.Outcome}
    (hreads : Pcc.Reads .expr w₁ o) (hno : ∀ ts v, o ≠ .ok ts v) (h : Heap A AstNode) :
    ∃ N, ∀ fuel, N ≤ fuel → ∀ C, Idle C → C.plain = s →
      pccParse M fuel C h = .ok (.error .syntaxError) := by
  rw [← hs.unread_eq] at hblank hover
  rcases Pcc.prog_fail hs.clear hs.wf hblank hover hreads hno with ⟨ctx', hfail⟩
  rcases hfail (some 0) [] with ⟨N, hN⟩
  refine ⟨N, ?_⟩
  intro fuel hfuel C hidle hplain
  have hmirrors : Mirrors C s := by
    rw [← hplain]
    exact hidle.mirrors
  have happly := hN fuel hfuel
  rw [← plain_pccBody] at happly
  rcases pccApplyRule_refines (evaluate_refines pccBody fuel) _ _ _ _ _ _ _ _ hmirrors happly
    with ⟨C₁, hC₁, -⟩
  unfold pccParse pccApply
  rw [hC₁]

/-! ## Calls in a row -/

/-- Calls of `pcc_parse` on one context, as long as the last has said that a
character follows, but no more than `n`. -/
def pccParses (M fuel : ℕ) : ℕ → FullContext → Heap A AstNode →
    Except Stop (Except PccError (List Ptr × Heap A AstNode))
  | 0, _, _ => .error .deep
  | n + 1, ctx, h =>
      match pccParse M fuel ctx h with
      | .ok (.ok (ret, p, h, ctx)) =>
          if ret ≠ 0 then
            match pccParses M fuel n ctx h with
            | .ok (.ok (ps, h)) => .ok (.ok (p :: ps, h))
            | .ok (.error e) => .ok (.error e)
            | .error e => .error e
          else
            .ok (.ok ([p], h))
      | .ok (.error e) => .ok (.error e)
      | .error e => .error e

/-- Expressions are read one after the other, by one parse each. -/
inductive ReadsStream : List UInt8 → List Tree → Prop where
  | last {w v : List UInt8} {t : Tree} : ReadsNext w t 0 v → ReadsStream w [t]
  | more {w v : List UInt8} {t : Tree} {ts : List Tree} : ReadsNext w t 1 v →
      ReadsStream v ts → ReadsStream w (t :: ts)

/-- A parse leaves less than it found. -/
theorem ReadsNext.length_lt {w v : List UInt8} {t : Tree} {ret : ℕ} (h : ReadsNext w t ret v) :
    v.length < w.length := by
  rcases h with ⟨u, w₁, w₂, u', w₃, hblank, hreads, hblank', -, rfl⟩
  have hlen := hreads.within.1
  have hb := Pcc.Run.length_le hblank
  have hb' := Pcc.Run.length_le hblank'
  have hleft := Pcc.length_left_le w₃
  rw [List.length_singleton] at hlen
  omega

/-- What it leaves is the end of the text. -/
theorem ReadsNext.suffix {w v : List UInt8} {t : Tree} {ret : ℕ} (h : ReadsNext w t ret v) :
    v <:+ w := by
  rcases h with ⟨u, w₁, w₂, u', w₃, hblank, hreads, hblank', -, rfl⟩
  exact (((Pcc.left_suffix w₃).trans hblank'.suffix).trans hreads.suffix).trans hblank.suffix

/-- So no run in it is too long. -/
theorem ReadsNext.not_hasLongRun {w v : List UInt8} {t : Tree} {ret : ℕ}
    (h : ReadsNext w t ret v) (hshort : ¬ HasLongRun w) : ¬ HasLongRun v :=
  fun hlong => hshort (hlong.mono h.suffix.isInfix)

/-- **The calls read the expressions.** The induction is on the expressions; each
call begins where the last one ended. -/
theorem ReadsStream.parses {w : List UInt8} {ts : List Tree} (hstream : ReadsStream w ts) :
    ∀ {s : PccContext}, Begins s w → Fits M w.length → ¬ HasLongRun w → ∀ {n : ℕ}, ts.length ≤ n →
      ∀ h : Heap A AstNode, ∃ ps h', (h.Extends h' ∧ Represents h' ts ps) ∧
        ∃ N, ∀ fuel, N ≤ fuel → ∀ C, Idle C → C.plain = s →
          pccParses M fuel n C h = .ok (.ok (ps, h')) := by
  induction hstream with
  | @last w v t hnext =>
    intro s hs hfit hshort n hn h
    obtain ⟨n, rfl⟩ : ∃ m, n = m + 1 := Nat.exists_eq_succ_of_ne_zero (by
      rw [List.length_singleton] at hn
      omega)
    rcases pccParse_next hs hfit (fun hover => hshort hover.hasLongRun) hnext h
      with ⟨s', p, h', -, hbuilt, N, hN⟩
    refine ⟨[p], h', hbuilt, N, ?_⟩
    intro fuel hfuel C hidle hplain
    rcases hN fuel hfuel C hidle hplain with ⟨C', hparse, -⟩
    rw [pccParses, hparse]
    rfl
  | @more w v t ts hnext _ ih =>
    intro s hs hfit hshort n hn h
    obtain ⟨n, rfl⟩ : ∃ m, n = m + 1 := Nat.exists_eq_succ_of_ne_zero (by
      rw [List.length_cons] at hn
      omega)
    rcases pccParse_next hs hfit (fun hover => hshort hover.hasLongRun) hnext h
      with ⟨s', p, h₁, hs', ⟨hext, hrep⟩, N, hN⟩
    -- the text behind is shorter, and the heap only grows
    rcases ih hs' (hfit.mono (Nat.le_of_lt hnext.length_lt)) (hnext.not_hasLongRun hshort)
      (Nat.le_of_succ_le_succ hn) h₁
      with ⟨ps, h', ⟨hext', hreps⟩, N', hN'⟩
    refine ⟨p :: ps, h', ⟨hext.trans hext', (hrep.mono hext').cons hreps⟩, max N N', ?_⟩
    intro fuel hfuel C hidle hplain
    rcases hN fuel (Nat.le_trans (Nat.le_max_left _ _) hfuel) C hidle hplain
      with ⟨C', hparse, hidle', hplain'⟩
    have hrest := hN' fuel (Nat.le_trans (Nat.le_max_right _ _) hfuel) C' hidle' hplain'
    rw [pccParses, hparse]
    dsimp only
    rw [hrest]
    rfl

/-! ## Laid out streams -/

/-- A text without high bytes stays as it is when characters are asked for. -/
theorem skip_of_low {w : List UInt8} (h : Pcc.Low w) (k : ℕ) : Pcc.skip k w = w := by
  cases w with
  | nil => exact Pcc.skip_nil k
  | cons c w => exact Pcc.skip_low (Pcc.low_cons.mp h).1 k w

/-- One expression of a stream, with the blanks around it. -/
theorem readsNext_layout {t : Tree} {b w b' z : List UInt8} (hb : Pcc.Blanks b)
    (hlay : Pcc.LaysOut [t] w) (hb' : Pcc.Blanks b') (hz : Pcc.Low z)
    (hword : t.IsLeaf → b' = [] → Pcc.Lacks Pcc.isWord z) (hlacks : Pcc.Lacks isBlank z) :
    ReadsNext (b ++ (w ++ (b' ++ z))) t (if z = [] then 0 else 1) z := by
  have hloose := hlay.loose 0 fun h => by cases h
  rcases hb'.gap t.pending with ⟨a, hgap⟩
  have hskip := skip_of_low hz
  -- a word must not run on into what follows
  have hsep : t.pending = 1 → Pcc.Lacks Pcc.isWord (b' ++ z) := by
    intro hone
    refine hgap.lacks ?_
    intro ha
    exact hword (Pcc.pending_eq_one.mp hone) (hgap.eq_nil (ha.trans hone)).2
  have hblank := Pcc.run_append (fun _ => Pcc.not_isHigh_of_isBlank) hb
    (hloose.lacks_blank 0 (b' ++ z))
  have hreads := (hloose.reads.2 t rfl) (b' ++ z) hsep
  obtain ⟨u, hrun⟩ := hgap.run (z := z) (by rwa [hskip])
  refine ⟨b, _, _, u, _, hblank, hreads, hrun, ?_, ?_⟩
  · rw [hskip]
    cases z with
    | nil => rfl
    | cons c z =>
      rw [Pcc.peek_low (Pcc.low_cons.mp hz).1]
      rfl
  · rw [Pcc.left_skip, hskip]

/-- **A laid out stream is read.** The induction is on the layout. -/
theorem readsStream_layout {ts : List Tree} {w : List UInt8} (hlay : Pcc.LaysOut ts w) :
    ∀ {b b' : List UInt8}, Pcc.Blanks b → Pcc.Blanks b' →
      ReadsStream (b ++ (w ++ b')) ts := by
  -- behind the last expression nothing is left
  have hlast : ∀ {t : Tree} {w b b' : List UInt8}, Pcc.LaysOut [t] w → Pcc.Blanks b →
      Pcc.Blanks b' → ReadsStream (b ++ (w ++ b')) [t] := by
    intro t w b b' hlay hb hb'
    have hnext := readsNext_layout hb hlay hb' (List.forall_mem_nil _)
      (fun _ _ c hc => by cases hc) fun c hc => by cases hc
    rw [List.append_nil] at hnext
    exact .last hnext
  induction hlay with
  | leaf n => exact fun hb hb' => hlast (.leaf n) hb hb'
  | list hb₁ hw hb₂ _ => exact fun hb hb' => hlast (.list hb₁ hw hb₂) hb hb'
  | @cons t t' ts w g v hfirst hg hsep hrest _ ih' =>
    intro b b' hb hb'
    have hlow : Pcc.Low (v ++ b') := Pcc.low_append.mpr ⟨hrest.low, hb'.low⟩
    have hne : v ++ b' ≠ [] := by
      rcases (hrest.loose 0 fun h => by cases h).begins with ⟨g', c, r, rfl, -⟩
      simp
    have hnext := readsNext_layout hb hfirst hg hlow (by
      intro hleaf hempty
      refine (hrest.loose 1 ?_).lacks_word b'
      intro _ u hu hleaf'
      obtain rfl : t' = u := Option.some.inj hu
      exact hsep hleaf hleaf' hempty) ((hrest.loose 0 fun h => by cases h).lacks_blank 0 b')
    rw [if_neg hne] at hnext
    have hstream := ReadsStream.more hnext (ih' (List.forall_mem_nil _) hb')
    simpa only [List.append_assoc] using hstream

/-- **Calls of `pcc_parse` read a laid out stream**, one expression each, and build
their trees, if no run in it is too long. -/
theorem pccParses_layout {ts : List Tree} {w b b' : List UInt8} (hlay : Pcc.LaysOut ts w)
    (hb : Pcc.Blanks b) (hb' : Pcc.Blanks b') (hfit : Fits M (b ++ (w ++ b')).length)
    (hshort : ¬ HasLongRun (b ++ (w ++ b'))) (h : Heap A AstNode) :
    ∃ ps h', h.Extends h' ∧ Represents h' ts ps ∧ ∃ N, ∀ fuel, N ≤ fuel →
      pccParses M fuel ts.length (pccContextCreate (b ++ (w ++ b'))) h = .ok (.ok (ps, h')) := by
  rcases (readsStream_layout hlay hb hb').parses (begins_create _) hfit hshort (Nat.le_refl _) h
    with ⟨ps, h', ⟨hext, hrep⟩, N, hN⟩
  refine ⟨ps, h', hext, hrep, N, ?_⟩
  intro fuel hfuel
  exact hN fuel hfuel _ (idle_create _) rfl

/-- Two calls read `a b`. -/
theorem pccParses_layout_pair :
    ∃ ps h', (Heap.empty : Heap Allocator.consecutive AstNode).Extends h' ∧
      Represents h' [.leaf Pcc.nameA, .leaf Pcc.nameB] ps ∧ ∃ N, ∀ fuel, N ≤ fuel →
        pccParses (2 ^ 64) fuel 2 (pccContextCreate [97, 32, 98])
            (Heap.empty : Heap Allocator.consecutive AstNode) = .ok (.ok (ps, h')) := by
  have hpair : Pcc.LaysOut [.leaf Pcc.nameA, .leaf Pcc.nameB]
      (Pcc.nameA.bytes ++ [32] ++ Pcc.nameB.bytes) :=
    .cons (.leaf Pcc.nameA) (by decide) (fun _ _ => List.cons_ne_nil _ _) (.leaf Pcc.nameB)
  exact pccParses_layout hpair (List.forall_mem_nil _) (List.forall_mem_nil _)
    (Or.inr (by decide)) (fun hlong => absurd hlong.lt_length (by decide)) _

/-- From the start of a parse on any text the calls end. The induction is on a bound
on the text, as each call leaves less of it. -/
theorem Begins.ends {n : ℕ} : ∀ {s : PccContext} {w : List UInt8}, Begins s w → w.length < n →
    Fits M w.length → ¬ HasLongRun w → ∀ h : Heap A AstNode, ∃ r N, ∀ fuel, N ≤ fuel → ∀ C, Idle C →
      C.plain = s → pccParses M fuel n C h = .ok r := by
  induction n with
  | zero => exact fun _ hn => absurd hn (Nat.not_lt_zero _)
  | succ n ih =>
    intro s w hs hn hfit hshort h
    have hover : ¬ OverlongProgram w := fun hover => hshort hover.hasLongRun
    rcases Pcc.exists_span pccAuxilGetchar isBlank w with ⟨u, w₁, hblank⟩
    rcases (Pcc.exists_reads (2 * w₁.length + 1)).1 w₁ (Nat.lt_succ_self _) with ⟨o, hreads⟩
    by_cases hok : ∃ ts w₂, o = .ok ts w₂
    · -- an expression is read, and the rest is shorter
      rcases hok with ⟨ts, w₂, rfl⟩
      rcases hreads.single rfl with ⟨t, rfl⟩
      rcases Pcc.exists_span pccAuxilGetchar isBlank w₂ with ⟨u', w₃, hblank'⟩
      have hnext : ReadsNext w t _ _ := ⟨u, w₁, w₂, u', w₃, hblank, hreads, hblank', rfl, rfl⟩
      have hlt := hnext.length_lt
      rcases pccParse_next hs hfit hover hnext h with ⟨s', p, h₁, hs', -, N, hN⟩
      rcases ih hs' (by omega) (hfit.mono (Nat.le_of_lt hlt)) (hnext.not_hasLongRun hshort) h₁
        with ⟨r, N', hN'⟩
      by_cases hnone : (peek pccAuxilGetchar w₃).1 = none
      · refine ⟨.ok ([p], h₁), N, ?_⟩
        intro fuel hfuel C hidle hplain
        rcases hN fuel hfuel C hidle hplain with ⟨C', hparse, -⟩
        rw [pccParses, hparse, if_pos hnone]
        rfl
      · refine ⟨r.map fun q => (p :: q.1, q.2), max N N', ?_⟩
        intro fuel hfuel C hidle hplain
        rcases hN fuel (Nat.le_trans (Nat.le_max_left _ _) hfuel) C hidle hplain
          with ⟨C', hparse, hidle', hplain'⟩
        have hrest := hN' fuel (Nat.le_trans (Nat.le_max_right _ _) hfuel) C' hidle' hplain'
        rw [pccParses, hparse, if_neg hnone]
        dsimp only
        rw [hrest]
        cases r with
        | ok q => rfl
        | error e => rfl
    · -- there is none: the call reports an error, and the calls end
      rcases pccParse_lacks hs hover hblank hreads (fun ts v ho => hok ⟨ts, v, ho⟩) h
        with ⟨N, hN⟩
      refine ⟨.error .syntaxError, N, ?_⟩
      intro fuel hfuel C hidle hplain
      rw [pccParses, hN fuel hfuel C hidle hplain]

end Parse

end Jetlang.Lr
