import Jetlang.Pcc.Loose

/-! # Layouts and what is read

Loose layouts without high bytes are layouts, and the other way round. In a layout the
blanks and the symbols stand apart, so its long runs are those the parser comes to.
-/

namespace Jetlang.Pcc

open LongRuns
open Jetlang.Sym (intMax)

/-! ## Texts without high bytes -/

/-- No byte of the text is taken for the end of the input. -/
def Low (w : List UInt8) : Prop := ∀ b ∈ w, ¬ IsHigh b

theorem low_append {w v : List UInt8} : Low (w ++ v) ↔ Low w ∧ Low v := List.forall_mem_append

theorem low_cons {b : UInt8} {w : List UInt8} : Low (b :: w) ↔ ¬ IsHigh b ∧ Low w :=
  List.forall_mem_cons

theorem Name.low (n : Name) : Low n.bytes :=
  fun c hc => not_isHigh_of_isWord (n.isWord_of_mem c hc)

theorem Blanks.low {b : List UInt8} (h : Blanks b) : Low b :=
  fun c hc => not_isHigh_of_isBlank (h c hc)

/-- High bytes among others that are not are none. -/
theorem High.eq_nil {h : List UInt8} (hhigh : High h) (hlow : Low h) : h = [] := by
  cases h with
  | nil => rfl
  | cons b h => exact absurd (hhigh b List.mem_cons_self) (hlow b List.mem_cons_self)

theorem LaysOut.low {ts : List Tree} {w : List UInt8} (h : LaysOut ts w) : Low w := by
  induction h with
  | leaf n => exact n.low
  | list hb₁ _ hb₂ ih =>
    -- both parentheses are low
    rw [low_append, low_cons, low_append, low_append]
    exact ⟨⟨by decide, ⟨hb₁.low, ih⟩, hb₂.low⟩, low_cons.mpr ⟨by decide, fun b hb => by cases hb⟩⟩
  | cons _ hb _ _ ih ih' =>
    rw [low_append, low_append]
    exact ⟨⟨ih, hb.low⟩, ih'⟩

theorem Layout.low {t : Tree} {text : List UInt8} (h : Layout t text) : Low text := by
  rcases h with ⟨b₁, w, b₂, hb₁, hw, hb₂, rfl⟩
  rw [low_append, low_append]
  exact ⟨⟨hb₁.low, hw.low⟩, hb₂.low⟩

/-! ## Layouts and loose layouts -/

/-- Blanks are a gap. -/
theorem Blanks.gap {b : List UInt8} (hb : Blanks b) (a : ℕ) : ∃ a', Gap a b a' := by
  by_cases hne : b = []
  · subst hne
    exact ⟨a, .none⟩
  · exact ⟨0, .blanks high_nil (Nat.zero_le a) hb hne⟩

/-- A gap without high bytes is blanks. -/
theorem Gap.blanks_of_low {a a' : ℕ} {g : List UInt8} (h : Gap a g a') (hlow : Low g) :
    Blanks g := by
  cases h with
  | none => exact fun c hc => by cases hc
  | blanks hhigh _ hb _ =>
    rw [hhigh.eq_nil (low_append.mp hlow).1, List.nil_append]
    exact hb

/-- Only an empty gap leaves something pending. -/
theorem Gap.eq_nil {a a' : ℕ} {g : List UInt8} (h : Gap a g a') (ha : a' = 1) : a = 1 ∧ g = [] := by
  cases h with
  | none => exact ⟨ha, rfl⟩
  | blanks => cases ha

theorem pending_eq_one {t : Tree} : t.pending = 1 ↔ t.IsLeaf := by
  cases t with
  | leaf => exact iff_of_true rfl trivial
  | list => exact iff_of_false Nat.zero_ne_one id

/-- A layout is a loose layout. Where a symbol was before, it is not one of a
symbol. -/
theorem LaysOut.loose {ts : List Tree} {w : List UInt8} (h : LaysOut ts w) :
    ∀ a, (a = 1 → ∀ t ∈ ts.head?, ¬ t.IsLeaf) → Loose a ts w := by
  induction h with
  | leaf n =>
    intro a hsep
    exact .leaf n high_nil (Nat.zero_le _) fun ha => absurd trivial (hsep ha _ rfl)
  | @list t ts b₁ w b₂ hb₁ _ hb₂ ih =>
    intro a _
    rcases hb₂.gap (pending (t :: ts)) with ⟨a', hgap⟩
    have hloose := Loose.list (a := a) high_nil (Nat.zero_le _) hb₁
      (ih 0 fun h => by cases h) hgap high_nil (Nat.zero_le _)
    simpa only [List.append_assoc, List.nil_append, List.cons_append] using hloose
  | @cons t t' ts w b v _ hb hsep _ ih ih' =>
    intro a hfirst
    rcases hb.gap t.pending with ⟨a', hgap⟩
    refine .cons (ih a hfirst) hgap (ih' a' ?_)
    intro ha u hu hleaf
    obtain rfl : t' = u := Option.some.inj hu
    rcases hgap.eq_nil ha with ⟨hpending, hempty⟩
    exact hsep (pending_eq_one.mp hpending) hleaf hempty

/-- A loose layout without high bytes is a layout. -/
theorem Loose.laysOut {a : ℕ} {ts : List Tree} {w : List UInt8} (h : Loose a ts w) (hlow : Low w) :
    LaysOut ts w ∧ (a = 1 → ∀ t ∈ ts.head?, ¬ t.IsLeaf) := by
  induction h with
  | @leaf a h n hhigh _ hsep =>
    have hempty := hhigh.eq_nil (low_append.mp hlow).1
    refine ⟨?_, fun ha => absurd hempty (hsep ha)⟩
    rw [hempty]
    exact .leaf n
  | @list a a' h b w g h' t ts hhigh _ hb _ hgap hhigh' _ ih =>
    rw [low_append, low_cons, low_append, low_append, low_append, low_append] at hlow
    rcases hlow with ⟨hlow₁, -, ⟨⟨⟨-, hlow₂⟩, hlow₃⟩, hlow₄⟩, -⟩
    rw [hhigh.eq_nil hlow₁, hhigh'.eq_nil hlow₄, List.append_nil]
    refine ⟨.list hb (ih hlow₂).1 (hgap.blanks_of_low hlow₃), ?_⟩
    rintro - u ⟨⟩ hleaf
    exact hleaf
  | @cons a a' t t' ts w g v _ hgap _ ih ih' =>
    rw [low_append, low_append] at hlow
    rcases hlow with ⟨⟨hlow₁, hlow₂⟩, hlow₃⟩
    rcases ih hlow₁ with ⟨hlay, hfirst⟩
    rcases ih' hlow₃ with ⟨hlay', hfirst'⟩
    refine ⟨.cons hlay (hgap.blanks_of_low hlow₂) ?_ hlay', hfirst⟩
    intro hleaf hleaf' hempty
    -- with nothing in between, the second tree follows a symbol
    cases hgap with
    | none => exact hfirst' (pending_eq_one.mpr hleaf) t' rfl hleaf'
    | blanks _ _ _ hne => exact hne (List.append_eq_nil_iff.mp hempty).2

/-- A layout of a tree is a loose program. -/
theorem Layout.loose {t : Tree} {text : List UInt8} (h : Layout t text) : LooseProgram text t := by
  rcases h with ⟨b₁, w, b₂, hb₁, hw, hb₂, rfl⟩
  rcases hb₂.gap t.pending with ⟨a, hgap⟩
  refine ⟨b₁, w, b₂, a, [], ?_, hb₁, hw.loose 0 (fun h => by cases h), hgap, high_nil⟩
  rw [List.append_nil]

/-- A loose program without high bytes is a layout of its tree. -/
theorem LooseProgram.layout {t : Tree} {text : List UInt8} (h : LooseProgram text t)
    (hlow : Low text) : Layout t text := by
  rcases h with ⟨b, w, g, a, z, rfl, hb, hw, hgap, hz⟩
  rw [low_append, low_append, low_append] at hlow
  rcases hlow with ⟨⟨⟨-, hlow₁⟩, hlow₂⟩, hlow₃⟩
  have hempty : z = [] := by
    cases z with
    | nil => rfl
    | cons c z => exact absurd (high_cons.mp hz).1 (low_cons.mp hlow₃).1
  refine ⟨b, w, g, hb, (hw.laysOut hlow₁).1, hgap.blanks_of_low hlow₂, ?_⟩
  rw [hempty, List.append_nil]

/-! ## Long runs in layouts -/

/-- Where no byte is high nothing is dropped. -/
theorem left_of_low {w : List UInt8} (hlow : Low w) : left w = w := by
  cases w with
  | nil => rfl
  | cons c w => exact left_low (hlow c List.mem_cons_self) w

theorem skip_of_low {w : List UInt8} (hlow : Low w) (k : ℕ) : skip k w = w := by
  induction k with
  | zero => rfl
  | succ k ih => rw [← left_skip, ih, left_of_low hlow]

theorem blanks_run {b y : List UInt8} (hb : Blanks b) (hy : Low y) (hlacks : Lacks isBlank y) :
    Run isBlank (b ++ y) b y := by
  have hrun := run_append (fun _ => not_isHigh_of_isBlank) hb hlacks
  rwa [left_of_low hy] at hrun

/-- The layout of a tree is read. -/
theorem LaysOut.reads {t : Tree} {w y : List UInt8} (h : LaysOut [t] w) (hy : Low y)
    (hword : t.IsLeaf → Lacks isWord y) : Reads .expr (w ++ y) (.ok [t] y) := by
  have hloose := h.loose 0 fun ha => by cases ha
  have hreads := hloose.reads.2 t rfl y fun ht => hword (pending_eq_one.mp ht)
  rwa [skip_of_low (low_append.mpr ⟨h.low, hy⟩), skip_of_low hy] at hreads

/-- A list ends with a parenthesis. -/
theorem LaysOut.closing {t : Tree} {w : List UInt8} (h : LaysOut [t] w) (hleaf : ¬ t.IsLeaf) :
    w.getLast? = some 41 := by
  cases h with
  | leaf n => exact absurd trivial hleaf
  | list => exact List.getLast?_concat

theorem LaysOut.ne_nil {ts : List Tree} {w : List UInt8} (h : LaysOut ts w) : w ≠ [] := by
  induction h with
  | leaf n => exact List.cons_ne_nil _ _
  | list => exact List.cons_ne_nil _ _
  | cons _ _ _ _ _ ih =>
    intro hempty
    exact ih (List.append_eq_nil_iff.mp hempty).2

/-- A layout does not begin with a blank, and with a character of a word only if it begins
with a symbol. -/
theorem LaysOut.head {ts : List Tree} {w : List UInt8} (h : LaysOut ts w) :
    ∀ c ∈ w.head?, isBlank c = false ∧ (isWord c = true → ∃ t ∈ ts.head?, t.IsLeaf) := by
  induction h with
  | leaf n =>
    rintro c ⟨⟩
    exact ⟨isBlank_of_isWord (isWord_of_isAlpha n.alpha), fun _ => ⟨_, rfl, trivial⟩⟩
  | list =>
    rintro c ⟨⟩
    exact ⟨rfl, fun hword => by cases hword⟩
  | @cons t t' ts w b v hw _ _ _ ih _ =>
    intro c hc
    rcases List.exists_cons_of_ne_nil hw.ne_nil with ⟨d, r, rfl⟩
    exact ih c hc

/-- Nor does it end with a blank. -/
theorem LaysOut.last {ts : List Tree} {w : List UInt8} (h : LaysOut ts w) :
    ∀ c ∈ w.getLast?, isBlank c = false := by
  induction h with
  | leaf n =>
    intro c hc
    exact isBlank_of_isWord (n.isWord_of_mem c (List.mem_of_getLast? hc))
  | list =>
    intro c hc
    rw [List.getLast?_concat] at hc
    cases hc
    rfl
  | cons _ _ _ hv _ ih =>
    intro c hc
    rw [List.getLast?_append_of_ne_nil _ hv.ne_nil] at hc
    exact ih c hc

/-- A long run in a text with blanks in the middle is in one of its parts. -/
theorem HasLongRun.parts {x b y : List UInt8} (h : HasLongRun (x ++ b ++ y)) (hb : Blanks b)
    (hx : ∀ c ∈ x.getLast?, isBlank c = false) (hy : ∀ c ∈ y.head?, isBlank c = false)
    (hword : b = [] → Parts isWord x y) : HasLongRun x ∨ intMax < b.length ∨ HasLongRun y := by
  rcases h with h | h
  · -- blanks
    rcases h.append (Or.inr hy) with h | h
    · rcases h.append (Or.inl hx) with h | h
      · exact Or.inl (Or.inl h)
      · exact Or.inr (Or.inl ((hasRun_of_forall hb).mp h))
    · exact Or.inr (Or.inr (Or.inl h))
  · by_cases hempty : b = []
    · subst hempty
      rw [List.append_nil] at h
      rcases h.append (hword rfl) with h | h
      · exact Or.inl (Or.inr h)
      · exact Or.inr (Or.inr (Or.inr h))
    · -- no word goes across the blanks
      have hno : ∀ c ∈ b, isWord c = false := fun c hc => isWord_of_isBlank (hb c hc)
      have hlast : ∀ c ∈ (x ++ b).getLast?, isWord c = false := by
        intro c hc
        rw [List.getLast?_append_of_ne_nil _ hempty] at hc
        exact hno c (List.mem_of_getLast? hc)
      rcases h.append (Or.inl hlast) with h | h
      · rcases h.append (Or.inr fun c hc => hno c (List.mem_of_head? hc)) with h | h
        · exact Or.inl (Or.inr h)
        · exact absurd h (not_hasRun hno)
      · exact Or.inr (Or.inr (Or.inr h))

/-- A text of a few characters has no long run. -/
theorem not_hasLongRun {w : List UInt8} (hw : w.length ≤ 1) : ¬ HasLongRun w := by
  intro h
  have hlt := h.lt_length
  have hmax : 1 ≤ intMax := by decide
  omega

/-- In a symbol they are the characters behind the first one. -/
theorem Name.long {n : Name} (h : HasLongRun n.bytes) : intMax < n.rest.length := by
  rcases h with h | h
  · exact absurd h (not_hasRun fun c hc => isBlank_of_isWord (n.isWord_of_mem c hc))
  · exact Nat.lt_of_succ_lt_succ ((hasRun_of_forall n.isWord_of_mem).mp h)

/-- A text begins with a character that is not in the class. -/
theorem lacks_of_head {p : UInt8 → Bool} {w : List UInt8} (hlow : Low w)
    (hhead : ∀ c ∈ w.head?, p c = false) : Lacks p w := by
  intro c hc
  cases w with
  | nil => cases hc
  | cons d w =>
    rw [peek_low (hlow d List.mem_cons_self)] at hc
    exact hhead c hc

theorem LaysOut.lacks_blank {ts : List Tree} {w y : List UInt8} (h : LaysOut ts w) (hy : Low y) :
    Lacks isBlank (w ++ y) := by
  refine lacks_of_head (low_append.mpr ⟨h.low, hy⟩) ?_
  intro c hc
  rw [List.head?_append_of_ne_nil _ h.ne_nil] at hc
  exact (h.head c hc).1

/-- A symbol ends in front of blanks, or of what is no word. -/
theorem Blanks.lacks_word {b y : List UInt8} (hb : Blanks b) (hy : Low y)
    (hhead : b = [] → ∀ c ∈ y.head?, isWord c = false) : Lacks isWord (b ++ y) := by
  refine lacks_of_head (low_append.mpr ⟨hb.low, hy⟩) ?_
  intro c hc
  by_cases hempty : b = []
  · subst hempty
    exact hhead rfl c hc
  · rw [List.head?_append_of_ne_nil _ hempty] at hc
    exact isWord_of_isBlank (hb c (List.mem_of_head? hc))

/-- What is behind the entries of a list. -/
theorem low_closing {b y : List UInt8} (hb : Blanks b) (hy : Low y) : Low (b ++ 41 :: y) :=
  low_append.mpr ⟨hb.low, low_cons.mpr ⟨by decide, hy⟩⟩

/-- The last tree of a list, with the blanks behind it. -/
theorem LaysOut.overlong_last {t : Tree} {w b y : List UInt8} (h : LaysOut [t] w) (hb : Blanks b)
    (hy : Low y)
    (hexpr : ∀ v, Low v → (t.IsLeaf → Lacks isWord v) → HasLongRun w → Overlong .expr (w ++ v))
    (hlong : HasLongRun w ∨ intMax < b.length) : Overlong .exprs (w ++ (b ++ 41 :: y)) := by
  have hclose : Low (41 :: y) := low_cons.mpr ⟨by decide, hy⟩
  have hword : Lacks isWord (b ++ 41 :: y) := hb.lacks_word hclose fun _ => by
    rintro c ⟨⟩
    rfl
  rcases hlong with hw | hb'
  · exact .first (hexpr _ (low_closing hb hy) (fun _ => hword) hw)
  · exact .blanks (h.reads (low_closing hb hy) fun _ => hword)
      (blanks_run hb hclose (lacks_low (by decide) (by decide) y)) hb'

/-- A list: the long run is in the blanks behind its parenthesis, in its entries, or in
the blanks behind them. -/
theorem LaysOut.overlong_list {ts : List Tree} {b₁ w b₂ y : List UInt8} (hb₁ : Blanks b₁)
    (hw : LaysOut ts w) (hb₂ : Blanks b₂) (hy : Low y)
    (hexprs : HasLongRun w ∨ intMax < b₂.length → Overlong .exprs (w ++ (b₂ ++ 41 :: y)))
    (hlong : HasLongRun (40 :: (b₁ ++ w ++ b₂) ++ [41])) :
    Overlong .expr (40 :: (b₁ ++ w ++ b₂) ++ [41] ++ y) := by
  have htext : 40 :: (b₁ ++ w ++ b₂) ++ [41] ++ y = 40 :: (b₁ ++ (w ++ (b₂ ++ 41 :: y))) := by
    simp only [List.append_assoc, List.cons_append, List.nil_append]
  have hsplit : 40 :: (b₁ ++ w ++ b₂) ++ [41] = [40] ++ b₁ ++ (w ++ b₂ ++ [41]) := by
    simp only [List.append_assoc, List.cons_append, List.nil_append]
  have hrest : Low (w ++ (b₂ ++ 41 :: y)) := low_append.mpr ⟨hw.low, low_closing hb₂ hy⟩
  have hopen : left (40 :: (b₁ ++ (w ++ (b₂ ++ 41 :: y)))) = 40 :: (b₁ ++ (w ++ (b₂ ++ 41 :: y))) :=
    left_low (by decide) _
  have hlacks : Lacks isAlpha (40 :: (b₁ ++ (w ++ (b₂ ++ 41 :: y)))) :=
    lacks_low (by decide) (by decide) _
  have hblank := blanks_run hb₁ hrest (hw.lacks_blank (low_closing hb₂ hy))
  have hhead : ∀ c ∈ (w ++ b₂ ++ [41]).head?, isBlank c = false := by
    intro c hc
    rw [List.append_assoc, List.head?_append_of_ne_nil _ hw.ne_nil] at hc
    exact (hw.head c hc).1
  -- a parenthesis is no character of a run
  have hopening : ∀ p : UInt8 → Bool, p 40 = false → ∀ c ∈ ([40] : List UInt8).getLast?,
      p c = false := by
    rintro p hp c hc
    cases hc
    exact hp
  have hclosing : ∀ p : UInt8 → Bool, p 41 = false → ∀ c ∈ ([41] : List UInt8).head?,
      p c = false := by
    rintro p hp c hc
    cases hc
    exact hp
  rw [htext]
  rw [hsplit] at hlong
  rcases hlong.parts hb₁ (hopening _ rfl) hhead (fun _ => Or.inl (hopening _ rfl)) with h | h | h
  · exact absurd h (not_hasLongRun (Nat.le_refl 1))
  · exact .opening hlacks hopen hblank h
  · refine .inside hlacks hopen hblank (hexprs ?_)
    rcases h.parts hb₂ hw.last (hclosing _ rfl) (fun _ => Or.inr (hclosing _ rfl)) with h | h | h
    · exact Or.inl h
    · exact Or.inr h
    · exact absurd h (not_hasLongRun (Nat.le_refl 1))

/-- The parser comes to the long runs of a layout. The induction is on the layout. -/
theorem LaysOut.overlong {ts : List Tree} {w : List UInt8} (h : LaysOut ts w) :
    (∀ b y, Blanks b → Low y → HasLongRun w ∨ intMax < b.length →
      Overlong .exprs (w ++ (b ++ 41 :: y))) ∧
    ∀ t, ts = [t] → ∀ y, Low y → (t.IsLeaf → Lacks isWord y) → HasLongRun w →
      Overlong .expr (w ++ y) := by
  induction h with
  | leaf n =>
    have hexpr : ∀ y, Low y → ((Tree.leaf n).IsLeaf → Lacks isWord y) → HasLongRun n.bytes →
        Overlong .expr (n.bytes ++ y) := by
      intro y _ hword hlong
      exact .sym n.alpha (run_append (fun _ => not_isHigh_of_isWord) n.word (hword trivial))
        (Name.long hlong)
    refine ⟨fun b y hb hy => (LaysOut.leaf n).overlong_last hb hy hexpr, ?_⟩
    rintro t ⟨⟩
    exact hexpr
  | @list t ts b₁ w b₂ hb₁ hw hb₂ ih =>
    have hexpr : ∀ y, Low y → ((Tree.list t ts).IsLeaf → Lacks isWord y) →
        HasLongRun (40 :: (b₁ ++ w ++ b₂) ++ [41]) →
        Overlong .expr (40 :: (b₁ ++ w ++ b₂) ++ [41] ++ y) :=
      fun y hy _ => hw.overlong_list hb₁ hb₂ hy (ih.1 b₂ y hb₂ hy)
    refine ⟨fun b y hb hy => (LaysOut.list hb₁ hw hb₂).overlong_last hb hy hexpr, ?_⟩
    rintro u ⟨⟩
    exact hexpr
  | @cons t t' ts w b v hw hb hsep hv ih ih' =>
    refine ⟨?_, fun u hu => by cases hu⟩
    intro b' y hb' hy hlong
    -- directly behind a symbol comes no symbol
    have hnext : b = [] → t.IsLeaf → ∀ c ∈ v.head?, isWord c = false := by
      intro hempty hleaf c hc
      by_contra hword
      rcases (hv.head c hc).2 (Bool.of_not_eq_false hword) with ⟨u, hu, hleaf'⟩
      obtain rfl : t' = u := Option.some.inj hu
      exact hsep hleaf hleaf' hempty
    have hseam : b = [] → Parts isWord w v := by
      intro hempty
      by_cases hleaf : t.IsLeaf
      · exact Or.inr (hnext hempty hleaf)
      · refine Or.inl ?_
        rw [hw.closing hleaf]
        rintro c ⟨⟩
        rfl
    have hrest : Low (v ++ (b' ++ 41 :: y)) := low_append.mpr ⟨hv.low, low_closing hb' hy⟩
    have hword : t.IsLeaf → Lacks isWord (b ++ (v ++ (b' ++ 41 :: y))) := by
      intro hleaf
      refine hb.lacks_word hrest fun hempty c hc => ?_
      rw [List.head?_append_of_ne_nil _ hv.ne_nil] at hc
      exact hnext hempty hleaf c hc
    have hlow : Low (b ++ (v ++ (b' ++ 41 :: y))) := low_append.mpr ⟨hb.low, hrest⟩
    have hreads := hw.reads hlow hword
    have hblank := blanks_run hb hrest (hv.lacks_blank (low_closing hb' hy))
    have hcases : HasLongRun w ∨ intMax < b.length ∨ HasLongRun v ∨ intMax < b'.length := by
      rcases hlong with hlong | hlong
      · rcases hlong.parts hb hw.last (fun c hc => (hv.head c hc).1) hseam with h | h | h
        · exact Or.inl h
        · exact Or.inr (Or.inl h)
        · exact Or.inr (Or.inr (Or.inl h))
      · exact Or.inr (Or.inr (Or.inr hlong))
    rw [List.append_assoc, List.append_assoc]
    rcases hcases with h | h | h
    · exact .first (ih.2 t rfl _ hlow hword h)
    · exact .blanks hreads hblank h
    · exact .rest hreads hblank (ih'.1 b' y hb' hy h)

/-- **The layouts that are too long** are those with a long run. -/
theorem Layout.overlong_iff {t : Tree} {text : List UInt8} (h : Layout t text) :
    OverlongProgram text ↔ HasLongRun text := by
  refine ⟨OverlongProgram.hasLongRun, ?_⟩
  rcases h with ⟨b₁, w, b₂, hb₁, hw, hb₂, rfl⟩
  intro hlong
  have hhead : ∀ c ∈ (w ++ b₂ ++ []).head?, isBlank c = false := by
    intro c hc
    rw [List.append_nil, List.head?_append_of_ne_nil _ hw.ne_nil] at hc
    exact (hw.head c hc).1
  have hblank : Run isBlank (b₁ ++ w ++ b₂) b₁ (w ++ b₂) := by
    rw [List.append_assoc]
    exact blanks_run hb₁ (low_append.mpr ⟨hw.low, hb₂.low⟩) (hw.lacks_blank hb₂.low)
  have hword : t.IsLeaf → Lacks isWord b₂ := by
    intro _
    have hlacks := hb₂.lacks_word (y := []) (fun b hb => by cases hb) fun _ c hc => by cases hc
    rwa [List.append_nil] at hlacks
  have hsplit : b₁ ++ w ++ b₂ = [] ++ b₁ ++ (w ++ b₂ ++ []) := by
    simp only [List.append_assoc, List.nil_append, List.append_nil]
  rw [hsplit] at hlong
  rcases hlong.parts hb₁ (fun c hc => by cases hc) hhead (fun _ => Or.inl fun c hc => by cases hc)
    with h | h | h
  · exact absurd h (not_hasLongRun (Nat.zero_le 1))
  · exact .leading hblank h
  · rcases h.parts hb₂ hw.last (fun c hc => by cases hc) (fun _ => Or.inr fun c hc => by cases hc)
      with h | h | h
    · exact .expr hblank (hw.overlong.2 t rfl b₂ hb₂.low hword h)
    · have hend : Run isBlank b₂ b₂ [] := by
        have hrun := blanks_run (y := []) hb₂ (fun b hb => by cases hb) fun c hc => by cases hc
        rwa [List.append_nil] at hrun
      exact .trailing hblank (hw.reads hb₂.low hword) hend h
    · exact absurd h (not_hasLongRun (Nat.zero_le 1))

end Jetlang.Pcc
