import Mathlib.Data.List.Induction

/-! # Texts made of lines

`unlines nl ls` ends each of the lines `ls` with `nl`. Lines that do not hold
`nl` can be read back from it, and so can the indentation of a line.
-/

namespace Lines

variable {α : Type*} {nl : α}

/-- The lines `ls`, each followed by `nl`. -/
def unlines (nl : α) (ls : List (List α)) : List α := ls.flatMap (· ++ [nl])

@[simp] theorem unlines_nil : unlines nl [] = [] := rfl

@[simp] theorem unlines_cons (l : List α) (ls : List (List α)) :
    unlines nl (l :: ls) = l ++ nl :: unlines nl ls := by
  simp [unlines]

@[simp] theorem unlines_append (ls ls' : List (List α)) :
    unlines nl (ls ++ ls') = unlines nl ls ++ unlines nl ls' := List.flatMap_append

/-- Ending lines is separating them, with one `nl` more. -/
theorem unlines_eq_intercalate {ls : List (List α)} (hls : ls ≠ []) :
    unlines nl ls = [nl].intercalate ls ++ [nl] := by
  induction ls, hls using List.recNeNil with
  | singleton l => simp
  | cons l ls hne ih =>
    rw [unlines_cons, ih, List.intercalate_cons_of_ne_nil hne]
    simp

theorem unlines_ne_nil {ls : List (List α)} (hls : ls ≠ []) : unlines nl ls ≠ [] := by
  rw [unlines_eq_intercalate hls]
  simp

/-- Indentation ends no line. -/
theorem notMem_indent {sp : α} {l : List α} (hsp : nl ≠ sp) (hl : nl ∉ l) (n : ℕ) :
    nl ∉ List.replicate n sp ++ l :=
  List.not_mem_append (fun hmem => hsp (List.eq_of_mem_replicate hmem)) hl

section

variable [DecidableEq α]

/-- The indentation of a text that does not begin with it is its beginning. -/
theorem takeWhile_indent {sp c : α} (hc : c ≠ sp) (n : ℕ) (l : List α) :
    (List.replicate n sp ++ c :: l).takeWhile (· = sp) = List.replicate n sp := by
  have hall : ∀ x ∈ List.replicate n sp, decide (x = sp) = true :=
    fun x hx => decide_eq_true (List.eq_of_mem_replicate hx)
  rw [List.takeWhile_append_of_pos hall, List.takeWhile_cons_of_neg (by simpa using hc),
    List.append_nil]

/-- Indentation can be told from the text behind it. -/
theorem indent_injective {sp c c' : α} {n n' : ℕ} {l l' : List α} (hc : c ≠ sp) (hc' : c' ≠ sp)
    (h : List.replicate n sp ++ c :: l = List.replicate n' sp ++ c' :: l') :
    n = n' ∧ c :: l = c' :: l' := by
  have hindent := congrArg (List.takeWhile fun x => decide (x = sp)) h
  rw [takeWhile_indent hc, takeWhile_indent hc'] at hindent
  have hlen := congrArg List.length hindent
  rw [List.length_replicate, List.length_replicate] at hlen
  subst hlen
  exact ⟨rfl, List.append_cancel_left h⟩

/-- A text splits into the given lines exactly if it is these lines, the last one
without its end. -/
theorem splitOn_eq_iff {ls : List (List α)} {text : List α} (hfree : ∀ l ∈ ls, nl ∉ l)
    (hls : ls ≠ []) : text.splitOn nl = ls ↔ text ++ [nl] = unlines nl ls := by
  rw [unlines_eq_intercalate hls, List.append_cancel_right_eq]
  constructor
  · intro h
    rw [← h, List.intercalate_splitOn]
  · intro h
    rw [h, List.splitOn_intercalate nl hfree hls]

/-- Ended lines can be told apart. -/
theorem unlines_injective {ls ls' : List (List α)} (hfree : ∀ l ∈ ls, nl ∉ l)
    (hfree' : ∀ l ∈ ls', nl ∉ l) (h : unlines nl ls = unlines nl ls') : ls = ls' := by
  rcases eq_or_ne ls [] with rfl | hls
  · by_contra hne
    exact unlines_ne_nil (Ne.symm hne) h.symm
  rcases eq_or_ne ls' [] with rfl | hls'
  · exact absurd h (unlines_ne_nil hls)
  -- both are what the common text splits into
  rw [unlines_eq_intercalate hls, unlines_eq_intercalate hls', List.append_cancel_right_eq] at h
  rw [← List.splitOn_intercalate nl hfree hls, h, List.splitOn_intercalate nl hfree' hls']

end

end Lines
