import Jetlang.Pcc.Grammar

/-! # Trees and their texts

What the parser is for: trees of symbols, the texts that lay a tree out, and the
language of all programs. `LaysOut` gives each text one tree, as a symbol is
never followed directly by a symbol; the grammar `Derives` of the language
leaves that open. Both have the same texts.
-/

namespace Jetlang.Pcc

/-! ## Trees -/

/-- `[a-zA-Z][a-zA-Z0-9_]*` -/
structure Name where
  first : UInt8
  rest : List UInt8
  alpha : isAlpha first = true
  word : ∀ c ∈ rest, isWord c = true

/-- The characters of a name. -/
def Name.bytes (n : Name) : List UInt8 := n.first :: n.rest

/-- A name is its characters. -/
theorem Name.ext_bytes {n m : Name} (h : n.bytes = m.bytes) : n = m := by
  rcases n with ⟨c, w, hc, hw⟩
  rcases m with ⟨c', w', hc', hw'⟩
  cases h
  rfl

/-- Symbols, and lists of at least one tree. -/
inductive Tree where
  | leaf (name : Name)
  | list (first : Tree) (rest : List Tree)

/-- The tree is a symbol. -/
def Tree.IsLeaf : Tree → Prop
  | .leaf _ => True
  | .list _ _ => False

/-- No list of the trees has more than `n - 2` entries. -/
inductive Narrow (n : ℕ) : List Tree → Prop where
  | leaf (name : Name) : Narrow n [.leaf name]
  | list {t : Tree} {ts : List Tree} : Narrow n (t :: ts) → (t :: ts).length + 2 ≤ n →
      Narrow n [.list t ts]
  | cons {t t' : Tree} {ts : List Tree} : Narrow n [t] → Narrow n (t' :: ts) →
      Narrow n (t :: t' :: ts)

theorem Narrow.mono {n m : ℕ} {ts : List Tree} (h : Narrow n ts) (hle : n ≤ m) : Narrow m ts := by
  induction h with
  | leaf name => exact .leaf name
  | list _ hwide ih => exact .list ih (Nat.le_trans hwide hle)
  | cons _ _ ih ih' => exact .cons ih ih'

/-- A run of blanks, possibly empty. -/
def Blanks (b : List UInt8) : Prop := ∀ c ∈ b, isBlank c = true

instance : DecidablePred Blanks := fun b => List.decidableBAll (fun c => isBlank c = true) b

/-- The text lays out the trees one after the other. -/
inductive LaysOut : List Tree → List UInt8 → Prop where
  | leaf (n : Name) : LaysOut [.leaf n] n.bytes
  | list {t : Tree} {ts : List Tree} {b₁ w b₂ : List UInt8} :
      Blanks b₁ → LaysOut (t :: ts) w → Blanks b₂ →
      LaysOut [.list t ts] (40 :: (b₁ ++ w ++ b₂) ++ [41])
  | cons {t t' : Tree} {ts : List Tree} {w b v : List UInt8} :
      LaysOut [t] w → Blanks b → (t.IsLeaf → t'.IsLeaf → b ≠ []) → LaysOut (t' :: ts) v →
      LaysOut (t :: t' :: ts) (w ++ b ++ v)

/-- A layout of a tree as a text, with blanks before and after it. -/
def Layout (t : Tree) (text : List UInt8) : Prop :=
  ∃ b₁ w b₂, Blanks b₁ ∧ LaysOut [t] w ∧ Blanks b₂ ∧ text = b₁ ++ w ++ b₂

/-! ## The language -/

/-- What a text is read as. -/
inductive Kind where
  | expr
  | exprs
deriving DecidableEq, Repr

/-- The grammar: an expression, or expressions separated by blanks. -/
inductive Derives : Kind → List UInt8 → Prop where
  | sym (n : Name) : Derives .expr n.bytes
  | list {b₁ w b₂ : List UInt8} : Blanks b₁ → Derives .exprs w → Blanks b₂ →
      Derives .expr (40 :: (b₁ ++ w ++ b₂) ++ [41])
  | last {w : List UInt8} : Derives .expr w → Derives .exprs w
  | more {w b v : List UInt8} : Derives .expr w → Blanks b → Derives .exprs v →
      Derives .exprs (w ++ b ++ v)

/-- The language: blanks, one expression, blanks. -/
def InLanguage (text : List UInt8) : Prop :=
  ∃ b₁ w b₂, Blanks b₁ ∧ Derives .expr w ∧ Blanks b₂ ∧ text = b₁ ++ w ++ b₂

/-! ## The texts of the language are the layouts -/

theorem isWord_of_isAlpha {c : UInt8} (h : isAlpha c = true) : isWord c = true := by
  unfold isWord
  rw [h, Bool.true_or, Bool.true_or]

theorem Name.isWord_of_mem (n : Name) : ∀ c ∈ n.bytes, isWord c = true :=
  List.forall_mem_cons.mpr ⟨isWord_of_isAlpha n.alpha, n.word⟩

/-- A character outside a class is not in a text of the class. -/
theorem notMem_of_class {p : UInt8 → Bool} {c : UInt8} {w : List UInt8} (hc : p c = false)
    (hw : ∀ d ∈ w, p d = true) : c ∉ w := by
  intro hmem
  rw [hw c hmem] at hc
  cases hc

/-- Two names in a row are one name. -/
def Name.append (n m : Name) : Name where
  first := n.first
  rest := n.rest ++ m.bytes
  alpha := n.alpha
  word := by
    intro c hc
    rcases List.mem_append.mp hc with hc | hc
    · exact n.word c hc
    · exact m.isWord_of_mem c hc

theorem Name.append_bytes (n m : Name) : (n.append m).bytes = n.bytes ++ m.bytes := rfl

theorem laysOut_leaf {n : Name} {w : List UInt8} (h : LaysOut [.leaf n] w) : w = n.bytes := by
  cases h
  rfl

/-- A symbol in front of a text that starts with a symbol makes that one longer. -/
theorem LaysOut.merge (n : Name) {m : Name} {ts : List Tree} {v : List UInt8}
    (h : LaysOut (.leaf m :: ts) v) : LaysOut (.leaf (n.append m) :: ts) (n.bytes ++ v) := by
  cases h with
  | leaf => exact .leaf (n.append m)
  | @cons t t' ts w b v hm hb hne hv =>
    have hlong := LaysOut.cons (.leaf (n.append m)) hb hne hv
    rw [Name.append_bytes, ← laysOut_leaf hm] at hlong
    simpa only [List.append_assoc] using hlong

theorem derives_of_laysOut {ts : List Tree} {w : List UInt8} (h : LaysOut ts w) :
    Derives .exprs w ∧ ∀ t, ts = [t] → Derives .expr w := by
  induction h with
  | leaf n => exact ⟨.last (.sym n), fun _ _ => .sym n⟩
  | list hb₁ _ hb₂ ih => exact ⟨.last (.list hb₁ ih.1 hb₂), fun _ _ => .list hb₁ ih.1 hb₂⟩
  | @cons t t' ts w b v _ hb _ _ ihw ihv =>
    exact ⟨.more (ihw.2 t rfl) hb ihv.1, fun _ h => by cases h⟩

/-- What the grammar reads as a list of expressions lays out some trees; an
expression, one. The induction is on the derivation; two symbols with nothing
between them are merged. -/
theorem laysOut_of_derives {k : Kind} {w : List UInt8} (h : Derives k w) :
    ∃ t ts, LaysOut (t :: ts) w ∧ (k = .expr → ts = []) := by
  induction h with
  | sym n => exact ⟨.leaf n, [], .leaf n, fun _ => rfl⟩
  | list hb₁ _ hb₂ ih =>
    rcases ih with ⟨t, ts, hw, -⟩
    exact ⟨.list t ts, [], .list hb₁ hw hb₂, fun _ => rfl⟩
  | last _ ih =>
    rcases ih with ⟨t, ts, hw, -⟩
    exact ⟨t, ts, hw, fun hk => by cases hk⟩
  | @more w b v _ hb _ ihw ihv =>
    rcases ihw with ⟨t, ts, hw, hts⟩
    rcases ihv with ⟨t', ts', hv, -⟩
    obtain rfl : ts = [] := hts rfl
    by_cases hsep : t.IsLeaf → t'.IsLeaf → b ≠ []
    · exact ⟨t, t' :: ts', .cons hw hb hsep hv, fun hk => by cases hk⟩
    · cases t with
      | list => exact absurd (fun hleaf => hleaf.elim) hsep
      | leaf n =>
        cases t' with
        | list => exact absurd (fun _ hleaf => hleaf.elim) hsep
        | leaf m =>
          have hempty : b = [] := by
            by_contra hne
            exact hsep fun _ _ => hne
          refine ⟨.leaf (n.append m), ts', ?_, fun hk => by cases hk⟩
          rw [hempty, List.append_nil, laysOut_leaf hw]
          exact LaysOut.merge n hv

/-- **The language** is the set of the layouts. -/
theorem inLanguage_iff (text : List UInt8) : InLanguage text ↔ ∃ t, Layout t text := by
  constructor
  · rintro ⟨b₁, w, b₂, hb₁, hw, hb₂, rfl⟩
    rcases laysOut_of_derives hw with ⟨t, ts, hlay, hts⟩
    obtain rfl : ts = [] := hts rfl
    exact ⟨t, b₁, w, b₂, hb₁, hlay, hb₂, rfl⟩
  · rintro ⟨t, b₁, w, b₂, hb₁, hw, hb₂, rfl⟩
    exact ⟨b₁, w, b₂, hb₁, (derives_of_laysOut hw).2 t rfl, hb₂, rfl⟩

end Jetlang.Pcc
