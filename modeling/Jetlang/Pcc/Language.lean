import Jetlang.Pcc.Layouts

/-! # The language of the parser

On texts without high bytes the parser accepts the language and nothing else, and
returns the tree that was laid out. With high bytes it also accepts the loose programs,
none of which is in the language. All this is so if the block for the `auxil_t` has
room for it: `pcc_parse_string` asks `malloc` for the size of a pointer. And it is so as
long as no repetition has more turns than an `int` counts.
-/

namespace Jetlang.Pcc

open Mem Ast

/-! ## Parsing a layout -/

/-- The symbol `a`. -/
def nameA : Name := ⟨97, [], rfl, List.forall_mem_nil _⟩

/-- The symbol `b`. -/
def nameB : Name := ⟨98, [], rfl, List.forall_mem_nil _⟩

section Parse

variable {S : BlockSizes} {A : Allocator} {M : ℕ} (h : Heap A AstNode)

/-- The text is parsed to the tree. -/
def RoundTrips (S : BlockSizes) (M : ℕ) (t : Tree) (text : List UInt8) : Prop :=
  ∃ p h', Parses S M h text (.ok (p, h')) ∧ Represents h' [t] [p]

/-- Parsing a layout of a tree returns the tree, where the text fits in its block and
its runs can be counted. -/
theorem pccParseString_layout {t : Tree} {text : List UInt8} (hlayout : Layout t text)
    (hfit : Fits M text.length) (hroom : 16 ≤ S.usable sizeofPccAuxil)
    (hshort : ¬ HasLongRun text) : RoundTrips h S M t text := by
  have hover : ¬ OverlongProgram text := fun hover => hshort hover.hasLongRun
  rcases parses_program h hroom hover hfit (readsProgram_iff.mpr hlayout.loose)
    with ⟨p, h', hparses, -, hrep⟩
  exact ⟨p, h', hparses, hrep⟩

/-- **Round trip.** Parsing a layout of a tree returns the tree exactly if the block for
the `auxil_t` has 16 bytes at least, and the text no run that is too long for an
`int`. -/
theorem roundTrips_iff {t : Tree} {text : List UInt8} (hlayout : Layout t text)
    (hfit : Fits M text.length) :
    RoundTrips h S M t text ↔ 16 ≤ S.usable sizeofPccAuxil ∧ ¬ HasLongRun text := by
  constructor
  · rintro ⟨p, h', hparses, -⟩
    rcases (parses_ok_iff h hfit).mp ⟨p, h', hparses⟩ with ⟨hroom, hover, -⟩
    exact ⟨hroom, fun hlong => hover (hlayout.overlong_iff.mpr hlong)⟩
  · rintro ⟨hroom, hshort⟩
    exact pccParseString_layout h hlayout hfit hroom hshort

/-- `(a b)` is a layout of a list of two symbols. -/
theorem layout_pair : Layout (.list (.leaf nameA) [.leaf nameB]) [40, 97, 32, 98, 41] := by
  have hpair : LaysOut [.leaf nameA, .leaf nameB] (nameA.bytes ++ [32] ++ nameB.bytes) :=
    .cons (.leaf nameA) (by decide) (fun _ _ => List.cons_ne_nil _ _) (.leaf nameB)
  have hlist : LaysOut [.list (.leaf nameA) [.leaf nameB]]
      (40 :: ([] ++ (nameA.bytes ++ [32] ++ nameB.bytes) ++ []) ++ [41]) :=
    .list (by decide) hpair (by decide)
  exact ⟨[], _, [], by decide, hlist, by decide, rfl⟩

/-- Parsing `(a b)`, with blocks of whole units of 16 bytes. -/
theorem roundTrips_iff_pair :
    RoundTrips (Heap.empty : Heap Allocator.consecutive AstNode) .sixteens (2 ^ 64)
      (.list (.leaf nameA) [.leaf nameB]) [40, 97, 32, 98, 41] := by
  refine (roundTrips_iff Heap.empty layout_pair (Or.inr (by decide))).mpr ⟨by decide, ?_⟩
  intro hlong
  exact absurd hlong.lt_length (by decide)

/-- With the 8 bytes that were asked for there is no result. -/
theorem roundTrips_counterexample :
    Layout (.list (.leaf nameA) [.leaf nameB]) [40, 97, 32, 98, 41] ∧
      ¬ RoundTrips (Heap.empty : Heap Allocator.consecutive AstNode) .exact (2 ^ 64)
        (.list (.leaf nameA) [.leaf nameB]) [40, 97, 32, 98, 41] := by
  refine ⟨layout_pair, ?_⟩
  rintro ⟨p, h', hparses, -⟩
  exact not_parses_tight Heap.empty (by decide) hparses

/-! ## The texts that are accepted -/

/-- The parser returns a tree for the texts of the language, and ends with an
error for all others. -/
def AcceptsExactly (S : BlockSizes) (M : ℕ) (text : List UInt8) : Prop :=
  ((∃ p h', Parses S M h text (.ok (p, h'))) ↔ InLanguage text) ∧
    (¬ InLanguage text → ∃ e, Parses S M h text (.error e))

/-- A parser that does so ends, with a tree or with an error. -/
theorem AcceptsExactly.ends {text : List UInt8} (hexact : AcceptsExactly h S M text) :
    ∃ r, Parses S M h text r := by
  by_cases hlang : InLanguage text
  · rcases hexact.1.mpr hlang with ⟨p, h', hparses⟩
    exact ⟨_, hparses⟩
  · rcases hexact.2 hlang with ⟨e, hparses⟩
    exact ⟨_, hparses⟩

/-- **The parser accepts exactly its grammar** if the block for the `auxil_t` has 16
bytes at least, on all texts but those with a run that is too long, and those with high
bytes that are taken for a program. -/
theorem acceptsExactly_iff {text : List UInt8} (hfit : Fits M text.length) :
    AcceptsExactly h S M text ↔ 16 ≤ S.usable sizeofPccAuxil ∧ ¬ OverlongProgram text ∧
      ¬ ((∃ b ∈ text, IsHigh b) ∧ ∃ t, LooseProgram text t) := by
  have hprog : (∃ t, ReadsProgram text t) ↔ ∃ t, LooseProgram text t :=
    exists_congr fun _ => readsProgram_iff
  have hlang : (∃ t, LooseProgram text t) ∧ Low text ↔ InLanguage text := by
    rw [inLanguage_iff]
    constructor
    · rintro ⟨⟨t, hloose⟩, hlow⟩
      exact ⟨t, hloose.layout hlow⟩
    · rintro ⟨t, hlayout⟩
      exact ⟨⟨t, hlayout.loose⟩, hlayout.low⟩
  have hhigh : (∃ b ∈ text, IsHigh b) ↔ ¬ Low text := by
    simp only [Low, not_forall, not_not, exists_prop]
  have hok := parses_ok_iff (S := S) h hfit
  rw [hprog] at hok
  rw [hhigh]
  constructor
  · intro hexact
    rcases hexact.ends with ⟨r, hr⟩
    have hroom : 16 ≤ S.usable sizeofPccAuxil :=
      Nat.le_of_not_lt fun htight => not_parses_tight h htight hr
    have hover : ¬ OverlongProgram text := fun hover => not_parses_overlong h hover hr
    refine ⟨hroom, hover, ?_⟩
    rintro ⟨hnot, hloose⟩
    -- a program with high bytes is accepted, and not in the language
    exact hnot (hlang.mpr (hexact.1.mp (hok.mpr ⟨hroom, hover, hloose⟩))).2
  · rintro ⟨hroom, hover, hnot⟩
    -- outside the bad texts a program has no high bytes
    have hlow : (∃ t, LooseProgram text t) → Low text := by
      intro hloose
      by_contra hlow
      exact hnot ⟨hlow, hloose⟩
    unfold AcceptsExactly
    rw [hok, ← hlang]
    refine ⟨⟨fun hloose => ⟨hloose.2.2, hlow hloose.2.2⟩, fun hin => ⟨hroom, hover, hin.1⟩⟩, ?_⟩
    intro hout
    apply parses_error h hroom hover hfit
    rw [hprog]
    exact fun hloose => hout ⟨hloose, hlow hloose⟩

/-- `(a b)` is accepted as it should be. -/
theorem acceptsExactly_pair :
    AcceptsExactly (Heap.empty : Heap Allocator.consecutive AstNode) .sixteens (2 ^ 64)
      [40, 97, 32, 98, 41] :=
  (acceptsExactly_iff Heap.empty (Or.inr (by decide))).mpr
    ⟨by decide, not_overlongProgram (by decide), fun hbad => absurd hbad.1 (by decide)⟩

/-- The letter `a` with a byte 128 behind it is accepted, and is not in the
language. -/
theorem not_acceptsExactly_high :
    ¬ AcceptsExactly (Heap.empty : Heap Allocator.consecutive AstNode) .sixteens (2 ^ 64)
      [97, 128] := by
  intro hexact
  have hloose : LooseProgram [97, 128] (.leaf nameA) :=
    ⟨[], [97], [], 1, [128], rfl, by decide, .leaf nameA high_nil (Nat.zero_le _)
      (fun h => by cases h), .none, by decide⟩
  have hok := (parses_ok_iff (S := .sixteens) (M := 2 ^ 64)
    (Heap.empty : Heap Allocator.consecutive AstNode) (Or.inr (by decide))).mpr
    ⟨by decide, not_overlongProgram (by decide), _, readsProgram_iff.mpr hloose⟩
  rcases (inLanguage_iff _).mp (hexact.1.mp hok) with ⟨t, hlayout⟩
  exact hlayout.low 128 (by decide) (by decide)

end Parse

end Jetlang.Pcc
