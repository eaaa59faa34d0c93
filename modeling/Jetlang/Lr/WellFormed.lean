import Jetlang.Lr.Meaning

/-! # Well-formed grammars

A grammar is well formed if a rule applies itself, before a character is read, only at
the beginning of its tails. The other rules that it may apply before that are of lower
rank. Then every rule has a meaning in front of every text.
-/

namespace Jetlang.Lr

variable {ρ α : Type} [DecidableEq ρ] {g : ρ → Body ρ α} {text : List UInt8} {n m : ℕ}
  {j : Goal ρ α} {res : Option (ℕ × List (Pcc.Thunk α))}

/-- Whether a body may match without reading a character, if the rules of `null` may. -/
def Body.still (null : ρ → Bool) : Body ρ α → Bool
  | .charClass _ => false
  | .string s => s.isEmpty
  | .seq e f => e.still null && f.still null
  | .alt e f => e.still null || f.still null
  | .star _ => true
  | .plus _ => false
  | .rule r _ => null r
  | .emit _ => true

/-- The rules that a body may apply before a character is read. -/
def Body.leftmost (null : ρ → Bool) : Body ρ α → List ρ
  | .seq e f => e.leftmost null ++ if e.still null then f.leftmost null else []
  | .alt e f => e.leftmost null ++ f.leftmost null
  | .star e => e.leftmost null
  | .plus e => e.leftmost null
  | .rule r _ => [r]
  | .charClass _ | .string _ | .emit _ => []

/-- The rules of `null` are those that may read nothing. The base of a rule applies only
rules of lower rank before a character is read, and reads one if the rule has tails. -/
structure WellFormed (g : ρ → Body ρ α) (null : ρ → Bool) (rank : ρ → ℕ) : Prop where
  null_of_still : ∀ r, ((g r).split r).2.still null = true → null r = true
  rank_lt : ∀ r, ∀ s ∈ ((g r).split r).2.leftmost null, rank s < rank r
  moves : ∀ r, ((g r).split r).1 ≠ [] → ((g r).split r).2.still null = false

/-- Whether what there is may read nothing. -/
def Goal.still (null : ρ → Bool) : Goal ρ α → Prop
  | .body _ e _ => e.still null = true
  | .rule r _ => null r = true
  | .tail _ _ _ _ => True
  | .tails _ _ _ _ => True

variable {null : ρ → Bool} {rank : ρ → ℕ}

/-- What matches and reads nothing is something that may. -/
theorem Means.still (h : Means g text n j res)
    (hnull : ∀ r, ((g r).split r).2.still null = true → null r = true)
    (hp : j.pos ≤ text.length) : ∀ x ∈ res, x.1 = j.pos → j.still null := by
  induction h with
  | char _ _ =>
    intro x hx heq
    cases hx
    exact absurd heq (Nat.succ_ne_self _)
  | @string _ _ p s _ =>
    intro x hx heq
    cases hx
    have hlen : s.length = 0 := Nat.add_eq_left.mp heq
    rw [List.length_eq_zero_iff.mp hlen]
    rfl
  | seq he hf ihe ihf =>
    intro x hx heq
    rcases Option.map_eq_some_iff.mp hx with ⟨y, hy, rfl⟩
    have hfirst := he.within hp _ rfl
    have hsecond := hf.within hfirst.2 y hy
    simp only [Goal.pos] at hfirst hsecond heq
    have hmid := ihe hp _ rfl (by simp only [Goal.pos]; omega)
    have hend := ihf hfirst.2 y hy (by simp only [Goal.pos]; omega)
    exact Bool.and_eq_true_iff.mpr ⟨hmid, hend⟩
  | left _ he => exact fun x hx heq => Bool.or_eq_true_iff.mpr (Or.inl (he hp x hx heq))
  | right _ _ _ hf => exact fun x hx heq => Bool.or_eq_true_iff.mpr (Or.inr (hf hp x hx heq))
  | plus he hne hstar _ _ =>
    -- the first turn has read something
    intro x hx heq
    cases hx
    have hfirst := he.within hp _ rfl
    have hsecond := hstar.within hfirst.2 _ rfl
    simp only [Goal.pos] at hfirst hsecond heq
    omega
  | apply _ ih =>
    intro x hx heq
    rcases Option.map_eq_some_iff.mp hx with ⟨y, hy, rfl⟩
    exact ih hp y hy heq
  | base hb ht ihb _ =>
    intro x hx heq
    have hfirst := hb.within hp _ rfl
    have hsecond := ht.within hfirst.2 x hx
    simp only [Goal.pos] at hfirst hsecond heq
    exact hnull _ (ihb hp _ rfl (by simp only [Goal.pos]; omega))
  | starEnd _ _ => exact fun _ _ _ => rfl
  | starStill _ _ => exact fun _ _ _ => rfl
  | starMore _ _ _ _ _ => exact fun _ _ _ => rfl
  | emit => exact fun _ _ _ => rfl
  | noTail => exact fun _ _ _ => trivial
  | tail _ _ => exact fun _ _ _ => trivial
  | nextTail _ _ _ _ => exact fun _ _ _ => trivial
  | last _ _ _ => exact fun _ _ _ => trivial
  | more _ _ _ _ _ => exact fun _ _ _ => trivial
  | noChar _ => exact fun x hx => by cases hx
  | noString _ => exact fun x hx => by cases hx
  | noSeq _ _ => exact fun x hx => by cases hx
  | noPlus _ _ => exact fun x hx => by cases hx
  | plusStill _ _ => exact fun x hx => by cases hx
  | noBase _ _ => exact fun x hx => by cases hx

/-- The base of a rule with tails reads a character. -/
theorem WellFormed.moved (h : WellFormed g null rank) {r : ρ} {p : ℕ}
    {x : ℕ × List (Pcc.Thunk α)} (htails : ((g r).split r).1 ≠ []) (hp : p ≤ text.length)
    (hbase : Means g text n (.body p ((g r).split r).2 p) (some x)) : p < x.1 := by
  refine Nat.lt_of_le_of_ne (hbase.within hp x rfl).1 fun heq => ?_
  have hstill : ((g r).split r).2.still null = true :=
    hbase.still h.null_of_still hp x rfl heq.symm
  rw [h.moves r htails] at hstill
  cases hstill

/-! ## Totality -/

/-- What there is has a meaning. -/
def Meant (g : ρ → Body ρ α) (text : List UInt8) (j : Goal ρ α) : Prop :=
  ∃ n res, Means g text n j res

section Totality

variable {start p q : ℕ} {e : Body ρ α} {es : List (Option ℕ × Body ρ α)}
  {ts : List (Pcc.Thunk α)}

/-- A repetition has a meaning if what is repeated has one from there on. The induction
is on the text that is left. -/
theorem meant_star {k : ℕ} (he : ∀ q, p ≤ q → q ≤ text.length → Meant g text (.body start e q))
    (hp : p ≤ text.length) (hk : text.length - p ≤ k) :
    ∃ n x, Means g text n (.body start (.star e) p) (some x) := by
  induction k generalizing p with
  | zero =>
    rcases he p (Nat.le_refl p) hp with ⟨n, res, hres⟩
    cases res with
    | none => exact ⟨n, _, .starEnd hres⟩
    | some x =>
      have hx := hres.within hp x rfl
      obtain ⟨q, ts⟩ := x
      -- no text is left, so the match was empty
      obtain rfl : q = p := by
        simp only [Goal.pos] at hx
        omega
      exact ⟨n, _, .starStill hres⟩
  | succ k ih =>
    rcases he p (Nat.le_refl p) hp with ⟨n, res, hres⟩
    cases res with
    | none => exact ⟨n, _, .starEnd hres⟩
    | some x =>
      have hx := hres.within hp x rfl
      obtain ⟨q, ts⟩ := x
      simp only [Goal.pos] at hx
      by_cases hq : q = p
      · subst hq
        exact ⟨n, _, .starStill hres⟩
      · rcases ih (fun q' hq' => he q' (Nat.le_trans hx.1 hq')) hx.2 (by omega)
          with ⟨m, ⟨r, us⟩, hstar⟩
        exact ⟨max n m, _, .starMore (hres.mono (Nat.le_max_left n m)) hq
          (hstar.mono (Nat.le_max_right n m))⟩

/-- One tail, if there is one that matches. -/
theorem meant_tail (ts : List (Pcc.Thunk α)) (hes : ∀ t ∈ es, Meant g text (.body start t.2 q)) :
    Meant g text (.tail start es q ts) := by
  induction es with
  | nil => exact ⟨0, none, .noTail⟩
  | cons t es ih =>
    rw [List.forall_mem_cons] at hes
    rcases hes.1 with ⟨n, res, hres⟩
    cases res with
    | some x => exact ⟨n, _, .tail hres⟩
    | none =>
      rcases ih hes.2 with ⟨m, res', hres'⟩
      exact ⟨max n m, _, .nextTail (hres.mono (Nat.le_max_left n m))
        (hres'.mono (Nat.le_max_right n m))⟩

/-- As many tails as match. The induction is on the text that is left. -/
theorem meant_tails {k : ℕ} (ts : List (Pcc.Thunk α))
    (hes : ∀ q', q ≤ q' → q' ≤ text.length → ∀ t ∈ es, Meant g text (.body start t.2 q'))
    (hq : q ≤ text.length) (hk : text.length - q ≤ k) : Meant g text (.tails start es q ts) := by
  induction k generalizing q ts with
  | zero =>
    rcases meant_tail ts (hes q (Nat.le_refl q) hq) with ⟨n, res, hres⟩
    refine ⟨n, _, .last hres ?_⟩
    intro x hx
    have hx' := hres.within hq x hx
    omega
  | succ k ih =>
    rcases meant_tail ts (hes q (Nat.le_refl q) hq) with ⟨n, res, hres⟩
    by_cases hno : ∀ x ∈ res, x.1 ≤ q
    · exact ⟨n, _, .last hres hno⟩
    · obtain ⟨⟨q', us⟩, rfl, hlt⟩ : ∃ x, res = some x ∧ q < x.1 := by
        by_contra hnot
        exact hno fun x hx => Nat.not_lt.mp fun hlt => hnot ⟨x, hx, hlt⟩
      have hx := hres.within hq _ rfl
      simp only [Goal.pos] at hx
      dsimp only at hlt
      rcases ih us (fun p hp => hes p (by omega)) hx.2 (by omega) with ⟨m, res', hmore⟩
      exact ⟨max n m, _, .more (hres.mono (Nat.le_max_left n m)) hlt
        (hmore.mono (Nat.le_max_right n m))⟩

variable {r : ρ} {p₀ : ℕ}
  (hnull : ∀ r, ((g r).split r).2.still null = true → null r = true)
  (hlow : ∀ s, rank s < rank r → Meant g text (.rule s p₀))
  (hbehind : ∀ s q, p₀ < q → q ≤ text.length → Meant g text (.rule s q))

include hnull hlow hbehind

/-- A body in a chunk that begins at `p₀` has a meaning, if rules of lower rank have one
there, and all rules behind it. The induction is on the body. -/
theorem meant_body (e : Body ρ α) : ∀ p, p₀ ≤ p → p ≤ text.length →
    (p = p₀ → ∀ s ∈ e.leftmost null, rank s < rank r) → Meant g text (.body p₀ e p) := by
  induction e with
  | charClass f =>
    intro p _ _ _
    by_cases hc : ∃ c, text[p]? = some c ∧ f c = true
    · rcases hc with ⟨c, hc, hf⟩
      exact ⟨0, _, .char hc hf⟩
    · refine ⟨0, _, .noChar ?_⟩
      exact fun c hc' => Bool.eq_false_iff.mpr fun hf => hc ⟨c, hc', hf⟩
  | string s =>
    intro p _ _ _
    by_cases hs : (text.drop p).take s.length = s
    · exact ⟨0, _, .string hs⟩
    · exact ⟨0, _, .noString hs⟩
  | seq e f ihe ihf =>
    intro p hle hp hleft
    rcases ihe p hle hp fun heq s hs => hleft heq s (List.mem_append_left _ hs)
      with ⟨n, res, hres⟩
    cases res with
    | none => exact ⟨n, _, .noSeq hres⟩
    | some x =>
      have hx := hres.within hp x rfl
      have hleft' : x.1 = p₀ → ∀ s ∈ f.leftmost null, rank s < rank r := by
        -- nothing was read, so what follows is at the left as well
        intro heq s hs
        simp only [Goal.pos] at hx
        have hpp : p = p₀ := by omega
        have hstill : e.still null = true :=
          hres.still hnull hp x rfl (by simp only [Goal.pos]; omega)
        refine hleft hpp s (List.mem_append_right _ ?_)
        rw [if_pos hstill]
        exact hs
      rcases ihf x.1 (Nat.le_trans hle hx.1) hx.2 hleft' with ⟨m, res', hres'⟩
      exact ⟨max n m, _, .seq (hres.mono (Nat.le_max_left n m))
        (hres'.mono (Nat.le_max_right n m))⟩
  | alt e f ihe ihf =>
    intro p hle hp hleft
    rcases ihe p hle hp fun heq s hs => hleft heq s (List.mem_append_left _ hs)
      with ⟨n, res, hres⟩
    cases res with
    | some x => exact ⟨n, _, .left hres⟩
    | none =>
      rcases ihf p hle hp fun heq s hs => hleft heq s (List.mem_append_right _ hs)
        with ⟨m, res', hres'⟩
      exact ⟨max n m, _, .right (hres.mono (Nat.le_max_left n m))
        (hres'.mono (Nat.le_max_right n m))⟩
  | star e ih =>
    intro p hle hp hleft
    have he : ∀ q, p ≤ q → q ≤ text.length → Meant g text (.body p₀ e q) := fun q hq hq' =>
      ih q (Nat.le_trans hle hq) hq' fun heq => hleft (by omega)
    rcases meant_star he hp (Nat.le_refl _) with ⟨n, x, hx⟩
    exact ⟨n, some x, hx⟩
  | plus e ih =>
    intro p hle hp hleft
    have he : ∀ q, p ≤ q → q ≤ text.length → Meant g text (.body p₀ e q) := fun q hq hq' =>
      ih q (Nat.le_trans hle hq) hq' fun heq => hleft (by omega)
    rcases he p (Nat.le_refl p) hp with ⟨n, res, hres⟩
    cases res with
    | none => exact ⟨n, _, .noPlus hres⟩
    | some x =>
      have hx := hres.within hp x rfl
      obtain ⟨q, ts⟩ := x
      by_cases hq : q = p
      · subst hq
        exact ⟨n, _, .plusStill hres⟩
      · rcases meant_star (fun q' hq' => he q' (Nat.le_trans hx.1 hq')) hx.2 (Nat.le_refl _)
          with ⟨m, ⟨r, us⟩, hstar⟩
        exact ⟨max n m, _, .plus (hres.mono (Nat.le_max_left n m)) hq
          (hstar.mono (Nat.le_max_right n m))⟩
  -- at the start rules of lower rank only, and all of them behind it
  | rule s slot =>
    intro p hle hp hleft
    have hs : Meant g text (.rule s p) := by
      by_cases heq : p = p₀
      · subst heq
        exact hlow s (hleft rfl s (List.mem_singleton.mpr rfl))
      · exact hbehind s p (by omega) hp
    rcases hs with ⟨n, res, hres⟩
    exact ⟨n + 1, _, .apply hres⟩
  | emit action => exact fun p _ _ _ => ⟨0, _, .emit⟩

end Totality

/-- **Every rule of a well-formed grammar has a meaning** at every position. The
induction is on the text that is left, and at one position on the rank. -/
theorem WellFormed.meant (h : WellFormed g null rank) (text : List UInt8) (r : ρ) {p : ℕ}
    (hp : p ≤ text.length) : Meant g text (.rule r p) := by
  generalize hk : text.length - p = k
  induction k using Nat.strongRecOn generalizing p r with
  | _ k ihk =>
    generalize hn : rank r = n
    induction n using Nat.strongRecOn generalizing r with
    | _ n ihn =>
      subst hn
      have hlow : ∀ s, rank s < rank r → Meant g text (.rule s p) :=
        fun s hs => ihn (rank s) hs s rfl
      have hbehind : ∀ s q, p < q → q ≤ text.length → Meant g text (.rule s q) :=
        fun s q hq hq' => ihk (text.length - q) (by omega) s hq' rfl
      rcases meant_body h.null_of_still hlow hbehind ((g r).split r).2 p (Nat.le_refl p) hp
          fun _ => h.rank_lt r with ⟨m, res, hres⟩
      cases res with
      | none => exact ⟨m, _, .noBase hres⟩
      | some x =>
        have hx := hres.within hp x rfl
        obtain ⟨q, ts⟩ := x
        by_cases htails : ((g r).split r).1 = []
        · refine ⟨m, some (q, ts), .base hres ?_⟩
          -- without tails the base is all there is
          rw [htails]
          exact .last .noTail fun x hx => by cases hx
        · -- the base has read a character, so the tails are behind it
          have hlt : p < q := h.moved htails hp hres
          have htail : ∀ q', q ≤ q' → q' ≤ text.length → ∀ t ∈ ((g r).split r).1,
              Meant g text (.body p t.2 q') := fun q' hq hq' t _ =>
            meant_body h.null_of_still hlow hbehind t.2 q' (by omega) hq' (by omega)
          rcases meant_tails ts htail hx.2 (Nat.le_refl _) with ⟨m', res', hres'⟩
          exact ⟨max m m', _, .base (hres.mono (Nat.le_max_left m m'))
            (hres'.mono (Nat.le_max_right m m'))⟩

end Jetlang.Lr
