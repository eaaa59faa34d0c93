import Jetlang.Pcc.Program
import Mathlib.Logic.Function.Iterate

/-! # The texts that are parsed

A byte that is taken for the end of the input is dropped whenever the parser
asks for a character there, and then the text goes on. `Loose` is what the parser
takes for a layout: a layout with high bytes in some places, at most as many in a
row as the parser asks for characters there. The two halves of this module meet
at it: the texts that read as programs are the loose programs.
-/

namespace Jetlang.Pcc

/-! ## Dropping high bytes -/

/-- A run of bytes that are taken for the end of the input. -/
def High (h : List UInt8) : Prop := ∀ b ∈ h, IsHigh b

instance : DecidablePred High := fun h => List.decidableBAll IsHigh h

theorem high_nil : High [] := fun b hb => by cases hb

theorem high_cons {b : UInt8} {h : List UInt8} : High (b :: h) ↔ IsHigh b ∧ High h :=
  List.forall_mem_cons

/-- The text after asking for a character `k` times. -/
def skip (k : ℕ) (w : List UInt8) : List UInt8 := left^[k] w

theorem left_skip (k : ℕ) (w : List UInt8) : left (skip k w) = skip (k + 1) w :=
  (Function.iterate_succ_apply' left k w).symm

theorem skip_succ_high {b : UInt8} (hb : IsHigh b) (k : ℕ) (w : List UInt8) :
    skip (k + 1) (b :: w) = skip k w := by
  unfold skip
  rw [Function.iterate_succ_apply, left_high hb]

theorem skip_low {c : UInt8} (hc : ¬ IsHigh c) (k : ℕ) (w : List UInt8) :
    skip k (c :: w) = c :: w := by
  induction k with
  | zero => rfl
  | succ k ih => rw [← left_skip, ih, left_low hc]

theorem skip_nil (k : ℕ) : skip k [] = [] := by
  induction k with
  | zero => rfl
  | succ k ih => rw [← left_skip, ih, left_nil]

/-- High bytes are gone after asking often enough. -/
theorem skip_append {h : List UInt8} (hhigh : High h) {k : ℕ} (hk : h.length ≤ k)
    (w : List UInt8) : skip k (h ++ w) = skip (k - h.length) w := by
  induction h generalizing k with
  | nil => rfl
  | cons b h ih =>
    rw [List.length_cons] at hk
    obtain ⟨k, rfl⟩ : ∃ j, k = j + 1 := ⟨k - 1, by omega⟩
    rw [List.cons_append, skip_succ_high (hhigh b List.mem_cons_self),
      ih (fun d hd => hhigh d (List.mem_cons_of_mem _ hd)) (by omega), List.length_cons,
      Nat.add_sub_add_right]

/-- A character that comes up was behind high bytes. -/
theorem skip_eq_cons {k : ℕ} {w v : List UInt8} {c : UInt8} (h : skip k w = c :: v) :
    ∃ g, w = g ++ c :: v ∧ High g ∧ g.length ≤ k := by
  induction k generalizing w with
  | zero => exact ⟨[], h, high_nil, Nat.le_refl 0⟩
  | succ k ih =>
    cases w with
    | nil =>
      rw [skip_nil] at h
      cases h
    | cons b w =>
      by_cases hb : IsHigh b
      · rw [skip_succ_high hb] at h
        rcases ih h with ⟨g, rfl, hhigh, hlen⟩
        refine ⟨b :: g, rfl, ?_, Nat.succ_le_succ hlen⟩
        intro d hd
        rcases List.mem_cons.mp hd with rfl | hd
        · exact hb
        · exact hhigh d hd
      · rw [skip_low hb] at h
        exact ⟨[], h, high_nil, Nat.zero_le _⟩

theorem lacks_high (p : UInt8 → Bool) {b : UInt8} (hb : IsHigh b) (w : List UInt8) :
    Lacks p (b :: w) := by
  intro d hd
  rw [peek, if_pos (pccAuxilGetchar_neg.mpr hb)] at hd
  cases hd

theorem lacks_low {p : UInt8 → Bool} {c : UInt8} (hc : ¬ IsHigh c) (hp : p c = false)
    (w : List UInt8) : Lacks p (c :: w) := by
  intro d hd
  rw [peek_low hc] at hd
  cases hd
  exact hp

/-- Behind high bytes comes no character of the class, however many are dropped. -/
theorem lacks_skip {p : UInt8 → Bool} {h : List UInt8} (hhigh : High h) {c : UInt8}
    (hc : ¬ IsHigh c) (hp : p c = false) (k : ℕ) (w : List UInt8) :
    Lacks p (skip k (h ++ c :: w)) := by
  induction h generalizing k with
  | nil =>
    rw [List.nil_append, skip_low hc]
    exact lacks_low hc hp w
  | cons b h ih =>
    have hb := hhigh b List.mem_cons_self
    cases k with
    | zero => exact lacks_high p hb _
    | succ k =>
      rw [List.cons_append, skip_succ_high hb]
      exact ih (fun d hd => hhigh d (List.mem_cons_of_mem _ hd)) k

/-! ## Loose layouts -/

/-- How many high bytes are dropped behind the tree, before blanks are read: one
behind a symbol, where the parser asks for one more letter. -/
def Tree.pending : Tree → ℕ
  | .leaf _ => 1
  | .list _ _ => 0

/-- How many are dropped behind these trees. -/
def pending : List Tree → ℕ
  | [] => 0
  | [t] => t.pending
  | _ :: t :: ts => pending (t :: ts)

/-- Blanks, with high bytes in front of them that are dropped. Behind blanks none
are pending any more. -/
inductive Gap (a : ℕ) : List UInt8 → ℕ → Prop where
  | none : Gap a [] a
  | blanks {h b : List UInt8} : High h → h.length ≤ a → Blanks b → b ≠ [] → Gap a (h ++ b) 0

/-- The text is taken for a layout of the trees, where `a` high bytes are pending. -/
inductive Loose : ℕ → List Tree → List UInt8 → Prop where
  | leaf {a : ℕ} {h : List UInt8} (n : Name) : High h → h.length ≤ a + 1 → (a = 1 → h ≠ []) →
      Loose a [.leaf n] (h ++ n.bytes)
  | list {a a' : ℕ} {h b w g h' : List UInt8} {t : Tree} {ts : List Tree} : High h →
      h.length ≤ a + 2 → Blanks b → Loose 0 (t :: ts) w → Gap (pending (t :: ts)) g a' →
      High h' → h'.length ≤ a' + 3 →
      Loose a [.list t ts] (h ++ 40 :: (b ++ w ++ g ++ h' ++ [41]))
  | cons {a a' : ℕ} {t t' : Tree} {ts : List Tree} {w g v : List UInt8} : Loose a [t] w →
      Gap (t.pending) g a' → Loose a' (t' :: ts) v → Loose a (t :: t' :: ts) (w ++ g ++ v)

/-- The text is taken for a program. Behind its last blanks the first `a + 2`
bytes are high, as far as there are so many; what comes behind these is free. -/
def LooseProgram (text : List UInt8) (t : Tree) : Prop :=
  ∃ b w g a z, text = b ++ w ++ g ++ z ∧ Blanks b ∧ Loose 0 [t] w ∧ Gap t.pending g a ∧
    High (z.take (a + 2))

/-! ## Loose layouts are read -/

/-- The blanks of a gap are read, and one more character is asked for. -/
theorem Gap.run {a a' : ℕ} {g : List UInt8} (hgap : Gap a g a') {z : List UInt8}
    (hlacks : Lacks isBlank (skip a' z)) :
    ∃ u, Run isBlank (skip a (g ++ z)) u (skip (a' + 1) z) := by
  cases hgap with
  | none =>
    refine ⟨[], ?_⟩
    rw [← left_skip]
    exact .stop hlacks
  | @blanks h b hhigh hlen hb hne =>
    refine ⟨b, ?_⟩
    -- asking for a blank drops the high bytes in front of the first one
    rcases List.exists_cons_of_ne_nil hne with ⟨c, b', rfl⟩
    have hc := not_isHigh_of_isBlank (hb c List.mem_cons_self)
    rw [List.append_assoc, skip_append hhigh hlen, List.cons_append, skip_low hc,
      ← List.cons_append]
    exact run_append (fun _ => not_isHigh_of_isBlank) hb hlacks

/-- A symbol ends where a gap begins. -/
theorem Gap.lacks {a a' : ℕ} {g : List UInt8} (hgap : Gap a g a') {z : List UInt8}
    (hz : a' = a → Lacks isWord z) : Lacks isWord (g ++ z) := by
  cases hgap with
  | none => exact hz rfl
  | @blanks h b hhigh _ hb hne =>
    rcases List.exists_cons_of_ne_nil hne with ⟨c, b', rfl⟩
    have hc := hb c List.mem_cons_self
    rw [List.append_assoc]
    exact lacks_skip hhigh (not_isHigh_of_isBlank hc) (isWord_of_isBlank hc) 0 (b' ++ z)

/-- How a loose layout begins. -/
theorem Loose.begins {a : ℕ} {ts : List Tree} {w : List UInt8} (h : Loose a ts w) :
    ∃ g c r, w = g ++ c :: r ∧ High g ∧ ¬ IsHigh c ∧ isBlank c = false ∧
      (a = 1 → g = [] → isWord c = false) := by
  induction h with
  | @leaf a g n hhigh _ hsep =>
    have halpha := n.alpha
    refine ⟨g, n.first, n.rest, rfl, hhigh, not_isHigh_of_isAlpha halpha, ?_, ?_⟩
    · exact isBlank_of_isWord (isWord_of_isAlpha halpha)
    · intro ha hg
      exact absurd hg (hsep ha)
  | @list a a' g b w g' h' t ts hhigh =>
    exact ⟨g, 40, _, rfl, hhigh, by decide, by decide, fun _ _ => by decide⟩
  | @cons a a' t t' ts w g v _ _ _ ih _ =>
    rcases ih with ⟨h, c, r, rfl, hhigh, hc, hblank, hword⟩
    exact ⟨h, c, r ++ (g ++ v), by simp only [List.append_assoc, List.cons_append], hhigh, hc,
      hblank, hword⟩

/-- A loose layout does not begin with a blank. -/
theorem Loose.lacks_blank {a : ℕ} {ts : List Tree} {w : List UInt8} (h : Loose a ts w) (k : ℕ)
    (y : List UInt8) : Lacks isBlank (skip k (w ++ y)) := by
  rcases h.begins with ⟨g, c, r, rfl, hhigh, hc, hblank, -⟩
  rw [List.append_assoc]
  exact lacks_skip hhigh hc hblank k (r ++ y)

/-- Behind a symbol it does not make it longer. -/
theorem Loose.lacks_word {ts : List Tree} {w : List UInt8} (h : Loose 1 ts w) (y : List UInt8) :
    Lacks isWord (w ++ y) := by
  rcases h.begins with ⟨g, c, r, rfl, hhigh, hc, -, hword⟩
  rw [List.append_assoc]
  cases g with
  | nil => exact lacks_low hc (hword rfl rfl) (r ++ y)
  | cons b g => exact lacks_high isWord (hhigh b List.mem_cons_self) _

/-- `expr` reads the tree from its layout `w`, where `a` high bytes are pending. -/
def ReadsExpr (a : ℕ) (t : Tree) (w : List UInt8) : Prop :=
  ∀ y, (t.pending = 1 → Lacks isWord y) →
    Reads .expr (skip (a + 1) (w ++ y)) (.ok [t] (skip (t.pending) y))

/-- `exprs` reads the trees from their layout `w`, up to a closing parenthesis
behind it, where `a` high bytes are pending. -/
def ReadsExprs (a : ℕ) (ts : List Tree) (w : List UInt8) : Prop :=
  ∀ g a' h y, Gap (pending ts) g a' → High h →
    Reads .exprs (skip (a + 1) (w ++ (g ++ (h ++ 41 :: y)))) (.ok ts (skip (a' + 3) (h ++ 41 :: y)))

/-- A symbol. -/
theorem readsExpr_leaf {a : ℕ} {h : List UInt8} (n : Name) (hhigh : High h)
    (hlen : h.length ≤ a + 1) : ReadsExpr a (.leaf n) (h ++ n.bytes) := by
  intro y hy
  have hsym := Reads.sym n (run_append (fun _ => not_isHigh_of_isWord) n.word (hy rfl))
  rw [List.append_assoc, skip_append hhigh hlen]
  show Reads .expr (skip _ (n.first :: (n.rest ++ y))) _
  rw [skip_low (not_isHigh_of_isAlpha n.alpha)]
  exact hsym

/-- A list, of trees that are read. -/
theorem readsExpr_list {a a' : ℕ} {h b w g h' : List UInt8} {t : Tree} {ts : List Tree}
    (hhigh : High h) (hlen : h.length ≤ a + 2) (hb : Blanks b) (hw : Loose 0 (t :: ts) w)
    (hgap : Gap (pending (t :: ts)) g a') (hhigh' : High h') (hlen' : h'.length ≤ a' + 3)
    (hreads : ReadsExprs 0 (t :: ts) w) :
    ReadsExpr a (.list t ts) (h ++ 40 :: (b ++ w ++ g ++ h' ++ [41])) := by
  intro y _
  have htext : h ++ 40 :: (b ++ w ++ g ++ h' ++ [41]) ++ y =
      h ++ 40 :: (b ++ (w ++ (g ++ (h' ++ 41 :: y)))) := by
    simp only [List.append_assoc, List.cons_append, List.nil_append]
  rw [htext]
  have hopen : left (skip (a + 1) (h ++ 40 :: (b ++ (w ++ (g ++ (h' ++ 41 :: y)))))) =
      40 :: (b ++ (w ++ (g ++ (h' ++ 41 :: y)))) := by
    rw [left_skip, skip_append hhigh hlen, skip_low (by decide)]
  have hblank := run_append (fun _ => not_isHigh_of_isBlank) hb
    (hw.lacks_blank 0 (g ++ (h' ++ 41 :: y)))
  have hclose : skip (a' + 3) (h' ++ 41 :: y) = 41 :: y := by
    rw [skip_append hhigh' hlen', skip_low (by decide)]
  have hexprs := hreads g a' h' y hgap hhigh'
  rw [hclose] at hexprs
  exact .list (lacks_skip hhigh (by decide) (by decide) _ _) hopen hblank hexprs

/-- The last expression of a list. -/
theorem ReadsExpr.last {a : ℕ} {w : List UInt8} {t : Tree} (hexpr : ReadsExpr a t w) :
    ReadsExprs a [t] w := by
  intro g a' h y hgap hhigh
  have hlacks {p : UInt8 → Bool} (hp : p 41 = false) (k : ℕ) :
      Lacks p (skip k (h ++ 41 :: y)) := lacks_skip hhigh (by decide) hp k y
  rcases hgap.run (hlacks (p := isBlank) (by decide) a') with ⟨u, hrun⟩
  -- `exprs` looks for one more expression, which asks for two characters
  have hopen : Lacks (· == 40) (left (skip (a' + 1) (h ++ 41 :: y))) := by
    rw [left_skip]
    exact hlacks (by decide) _
  have hnone := Reads.none (hlacks (p := isAlpha) (by decide) (a' + 1)) hopen
  rw [left_skip, left_skip] at hnone
  exact .last (hexpr _ fun _ => hgap.lacks fun _ => hlacks (by decide) 0) hrun (.nothing hnone)

/-- An expression in front of others. -/
theorem ReadsExpr.more {a a' : ℕ} {w g v : List UInt8} {t t' : Tree} {ts : List Tree}
    (hexpr : ReadsExpr a t w) (hgap : Gap (t.pending) g a') (hv : Loose a' (t' :: ts) v)
    (hexprs : ReadsExprs a' (t' :: ts) v) : ReadsExprs a (t :: t' :: ts) (w ++ g ++ v) := by
  intro g' a'' h y hgap' hhigh
  rcases hgap.run (hv.lacks_blank a' (g' ++ (h ++ 41 :: y))) with ⟨u, hrun⟩
  have hsep : t.pending = 1 → Lacks isWord (g ++ (v ++ (g' ++ (h ++ 41 :: y)))) := by
    intro hone
    apply hgap.lacks
    intro ha
    rw [ha, hone] at hv
    exact hv.lacks_word _
  have hmore := Reads.more (hexpr _ hsep) hrun (hexprs g' a'' h y hgap' hhigh)
  simpa only [List.append_assoc] using hmore

/-- **A loose layout is read.** The induction is on the layout. -/
theorem Loose.reads {a : ℕ} {ts : List Tree} {w : List UInt8} (h : Loose a ts w) :
    ReadsExprs a ts w ∧ ∀ t, ts = [t] → ReadsExpr a t w := by
  induction h with
  | leaf n hhigh hlen _ =>
    have hexpr := readsExpr_leaf n hhigh hlen
    exact ⟨hexpr.last, fun t ht => List.singleton_inj.mp ht ▸ hexpr⟩
  | list hhigh hlen hb hw hgap hhigh' hlen' ih =>
    have hexpr := readsExpr_list hhigh hlen hb hw hgap hhigh' hlen' ih.1
    exact ⟨hexpr.last, fun t ht => List.singleton_inj.mp ht ▸ hexpr⟩
  | cons _ hgap hv ih ih' =>
    exact ⟨(ih.2 _ rfl).more hgap hv ih'.1, fun t ht => by cases ht⟩

/-! ## What is read is a loose layout -/

/-- A run of blanks is the end of a gap. -/
theorem Run.gap {a : ℕ} {y u w : List UInt8} (h : Run isBlank (skip a y) u w) :
    ∃ g a' z, y = g ++ z ∧ Gap a g a' ∧ w = skip (a' + 1) z ∧ Lacks isBlank (skip a' z) := by
  rcases h.split with ⟨r, hsplit, hlacks, rfl⟩
  cases u with
  | nil =>
    rw [List.nil_append] at hsplit
    subst hsplit
    exact ⟨[], a, y, rfl, .none, left_skip a y, hlacks⟩
  | cons c u =>
    -- the first blank came up behind high bytes
    rcases skip_eq_cons hsplit with ⟨h', rfl, hhigh, hlen⟩
    refine ⟨h' ++ c :: u, 0, r, ?_, .blanks hhigh hlen h.mem (List.cons_ne_nil c u), rfl, hlacks⟩
    rw [List.append_assoc]
    rfl

/-- Behind a gap no symbol is made longer. -/
theorem Gap.lacks_behind {t : Tree} {a' : ℕ} {g z : List UInt8} (hgap : Gap t.pending g a')
    (hsep : t.pending = 1 → Lacks isWord (g ++ z)) : a' = 1 → Lacks isWord z := by
  intro ha
  cases hgap with
  | none => exact hsep ha
  | blanks => cases ha

/-- Where no expression is found two characters were asked for. -/
theorem Reads.no_eq {k : Kind} {w : List UInt8} {o : Outcome} (h : Reads k w o) :
    ∀ v, o = .no v → v = left (left w) := by
  induction h with
  | none =>
    rintro _ ⟨⟩
    rfl
  | nothing _ ih => exact ih
  | sym => rintro _ ⟨⟩
  | list => rintro _ ⟨⟩
  | unclosed => rintro _ ⟨⟩
  | first => rintro _ ⟨⟩
  | last => rintro _ ⟨⟩
  | more => rintro _ ⟨⟩
  | stops => rintro _ ⟨⟩

/-- The text `y`, where `a` high bytes are pending, begins with a loose layout of
the trees, and `v` is what is left. -/
def IsLoose (a : ℕ) (ts : List Tree) (y v : List UInt8) : Kind → Prop
  | .expr => ∃ x z, y = x ++ z ∧ Loose a ts x ∧ v = skip (pending ts) z ∧
      (pending ts = 1 → Lacks isWord z)
  | .exprs => ∃ x g a' z, y = x ++ g ++ z ∧ Loose a ts x ∧ Gap (pending ts) g a' ∧
      v = skip (a' + 3) z

/-- **What is read is a loose layout.** The induction is on the reading. -/
theorem Reads.loose {k : Kind} {w : List UInt8} {o : Outcome} (h : Reads k w o) :
    ∀ ts v, o = .ok ts v → ∀ a y, skip (a + 1) y = w → (a = 1 → Lacks isWord y) →
      IsLoose a ts y v k := by
  induction h with
  | @sym w v n hrun =>
    rintro _ _ ⟨⟩ a y hy hsep
    rcases skip_eq_cons hy with ⟨h, rfl, hhigh, hlen⟩
    rcases hrun.split with ⟨r, rfl, hlacks, rfl⟩
    refine ⟨h ++ n.bytes, r, ?_, .leaf n hhigh hlen ?_, rfl, fun _ => hlacks⟩
    · rw [List.append_assoc]
      rfl
    · -- a letter right behind a symbol would belong to it
      intro ha hne
      subst hne
      have hword := hsep ha n.first (by
        rw [List.nil_append, peek_low (not_isHigh_of_isAlpha n.alpha)])
      rw [isWord_of_isAlpha n.alpha] at hword
      cases hword
  | @list w w₁ u w₂ w₃ t ts _ hopen hblank _ ih =>
    rintro _ _ ⟨⟩ a y hy _
    rw [← hy, left_skip] at hopen
    -- high bytes in front of the parenthesis, and of the one that closes the list
    rcases skip_eq_cons hopen with ⟨h, rfl, hhigh, hlen⟩
    rcases hblank.split with ⟨r, rfl, -, rfl⟩
    rcases ih _ _ rfl 0 r rfl (fun h => by cases h) with ⟨x, g, a', z, rfl, hx, hgap, hz⟩
    rcases skip_eq_cons hz.symm with ⟨h', rfl, hhigh', hlen'⟩
    refine ⟨h ++ 40 :: (u ++ x ++ g ++ h' ++ [41]), w₃, ?_,
      .list hhigh hlen hblank.mem hx hgap hhigh' hlen', rfl, fun h => by cases h⟩
    simp only [List.append_assoc, List.cons_append, List.nil_append]
  | @last w w₁ u w₂ v t _ hblank hnone ih _ =>
    rintro _ _ ⟨⟩ a y hy hsep
    rcases ih _ _ rfl a y hy hsep with ⟨x, z, rfl, hx, rfl, -⟩
    rcases Run.gap hblank with ⟨g, a', z', rfl, hgap, rfl, -⟩
    refine ⟨x, g, a', z', (List.append_assoc ..).symm, hx, hgap, ?_⟩
    rw [hnone.no_eq v rfl, left_skip, left_skip]
  | @more w w₁ u w₂ v t t' ts _ hblank _ ih ih' =>
    rintro _ _ ⟨⟩ a y hy hsep
    rcases ih _ _ rfl a y hy hsep with ⟨x, z, rfl, hx, rfl, hword⟩
    rcases Run.gap hblank with ⟨g, a', z', rfl, hgap, rfl, -⟩
    rcases ih' _ _ rfl a' z' rfl (hgap.lacks_behind hword)
      with ⟨x', g', a'', z'', rfl, hx', hgap', rfl⟩
    refine ⟨x ++ g ++ x', g', a'', z'', ?_, .cons hx hgap hx', hgap', rfl⟩
    simp only [List.append_assoc]
  | none => rintro _ _ ⟨⟩
  | unclosed => rintro _ _ ⟨⟩
  | nothing => rintro _ _ ⟨⟩
  | first => rintro _ _ ⟨⟩
  | stops => rintro _ _ ⟨⟩

/-! ## Programs -/

/-- No character is found. -/
def Ended (w : List UInt8) : Prop := (peek pccAuxilGetchar w).1 = none

theorem Ended.lacks {w : List UInt8} (h : Ended w) (p : UInt8 → Bool) : Lacks p w := by
  intro c hc
  rw [h] at hc
  cases hc

theorem ended_high {b : UInt8} (hb : IsHigh b) (w : List UInt8) : Ended (b :: w) := by
  unfold Ended
  rw [peek, if_pos (pccAuxilGetchar_neg.mpr hb)]

theorem not_ended_low {c : UInt8} (hc : ¬ IsHigh c) (w : List UInt8) : ¬ Ended (c :: w) := by
  unfold Ended
  rw [peek_low hc]
  exact Option.some_ne_none c

/-- Where no character is found, none was found before. -/
theorem Ended.of_skip {j k : ℕ} {z : List UInt8} (h : Ended (skip k z)) (hle : j ≤ k) :
    Ended (skip j z) := by
  induction hle with
  | refl => exact h
  | @step k _ ih =>
    apply ih
    rw [← left_skip] at h
    cases hw : skip k z with
    | nil => rfl
    | cons c w =>
      by_cases hc : IsHigh c
      · exact ended_high hc w
      · rw [hw, left_low hc] at h
        exact absurd h (not_ended_low hc w)

/-- No character is found after asking `k` times if the first `k + 1` bytes are
high, as far as there are so many. -/
theorem ended_skip_iff {k : ℕ} {z : List UInt8} : Ended (skip k z) ↔ High (z.take (k + 1)) := by
  induction k generalizing z with
  | zero =>
    cases z with
    | nil => exact iff_of_true rfl high_nil
    | cons b z =>
      rw [List.take_succ_cons, List.take_zero, high_cons]
      by_cases hb : IsHigh b
      · exact iff_of_true (ended_high hb z) ⟨hb, high_nil⟩
      · exact iff_of_false (not_ended_low hb z) fun h => hb h.1
  | succ k ih =>
    cases z with
    | nil =>
      rw [skip_nil]
      exact iff_of_true rfl high_nil
    | cons b z =>
      rw [List.take_succ_cons, high_cons]
      by_cases hb : IsHigh b
      · rw [skip_succ_high hb, ih, and_iff_right hb]
      · rw [skip_low hb]
        exact iff_of_false (not_ended_low hb z) fun h => hb h.1

/-- **The texts that are parsed** are the loose programs. -/
theorem readsProgram_iff {text : List UInt8} {t : Tree} :
    ReadsProgram text t ↔ LooseProgram text t := by
  constructor
  · rintro ⟨u, w₁, w₂, u', w₃, hblank, hreads, hblank', hend⟩
    rcases hblank.split with ⟨r, rfl, -, rfl⟩
    rcases hreads.loose _ _ rfl 0 r rfl (fun h => by cases h) with ⟨x, y, rfl, hx, rfl, -⟩
    rcases Run.gap hblank' with ⟨g, a, z, rfl, hgap, rfl, -⟩
    refine ⟨u, x, g, a, z, ?_, hblank.mem, hx, hgap, ended_skip_iff.mp hend⟩
    simp only [List.append_assoc]
  · rintro ⟨b, w, g, a, z, rfl, hb, hw, hgap, htail⟩
    have hend := ended_skip_iff.mpr htail
    -- what is behind the last blanks is dropped, so it makes no symbol longer
    have hword : t.pending = 1 → Lacks isWord (g ++ z) := by
      intro _
      apply hgap.lacks
      intro _
      exact (hend.of_skip (Nat.zero_le _)).lacks isWord
    rcases hgap.run ((hend.of_skip (Nat.le_succ a)).lacks isBlank) with ⟨u, hrun⟩
    have hblank := run_append (fun _ => not_isHigh_of_isBlank) hb (hw.lacks_blank 0 (g ++ z))
    refine ⟨b, _, _, u, _, ?_, hw.reads.2 t rfl (g ++ z) hword, hrun, hend⟩
    rw [List.append_assoc, List.append_assoc]
    exact hblank

end Jetlang.Pcc
