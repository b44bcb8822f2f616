import TextMate.Proofs.Regex.Matching

/-!
# Reading matches off a pattern

Matches are relations between positions. Here is what they come to in the common cases: an alternation, one
character repeated, a literal that ends where the text ends, and a test on the text on either side.
-/

namespace TextMate

namespace Span

variable (s : List Char)

/-- One kind of character, so many times in a row. -/
theorem power_one (p : Char → Prop) (n i j : Nat) :
    (one s p).power n i j ↔ j = i + n ∧ ∀ k, i ≤ k → k < j → ∃ c, s[k]? = some c ∧ p c := by
  induction n generalizing i with
  | zero =>
    simp only [power, skip, here, and_true, Nat.add_zero]
    constructor
    · rintro rfl
      refine ⟨rfl, ?_⟩
      intro k hle hlt
      omega
    · rintro ⟨rfl, -⟩
      rfl
  | succ n ih =>
    constructor
    · rintro ⟨_, ⟨rfl, hfirst⟩, hrest⟩
      obtain ⟨rfl, hall⟩ := (ih (i + 1)).mp hrest
      refine ⟨by omega, ?_⟩
      intro k hle hlt
      by_cases hk : k = i
      · rw [hk]
        exact hfirst
      · exact hall k (by omega) hlt
    · rintro ⟨rfl, hall⟩
      refine ⟨i + 1, ⟨rfl, hall i (Nat.le_refl i) (by omega)⟩, (ih (i + 1)).mpr ⟨by omega, ?_⟩⟩
      intro k hle hlt
      exact hall k (by omega) hlt

/-- One kind of character, any number of times in a row. -/
theorem between_one (p : Char → Prop) (i j : Nat) :
    (one s p).between 0 none i j ↔ i ≤ j ∧ ∀ k, i ≤ k → k < j → ∃ c, s[k]? = some c ∧ p c := by
  constructor
  · rintro ⟨n, -, -, hpower⟩
    obtain ⟨rfl, hall⟩ := (power_one s p n i j).mp hpower
    exact ⟨Nat.le_add_right i n, hall⟩
  · rintro ⟨hle, hall⟩
    obtain ⟨n, rfl⟩ := Nat.exists_eq_add_of_le hle
    exact ⟨n, Nat.zero_le n, by simp, (power_one s p n i (i + n)).mpr ⟨rfl, hall⟩⟩

/-- A test that comes first. -/
theorem here_comp (p : Nat → Prop) (r : Span) (i j : Nat) : (here p).comp r i j ↔ p i ∧ r i j := by
  constructor
  · rintro ⟨_, ⟨rfl, hp⟩, hr⟩
    exact ⟨hp, hr⟩
  · rintro ⟨hp, hr⟩
    exact ⟨i, ⟨rfl, hp⟩, hr⟩

/-- A test that comes last. -/
theorem comp_here (r : Span) (p : Nat → Prop) (i j : Nat) : r.comp (here p) i j ↔ r i j ∧ p j := by
  constructor
  · rintro ⟨_, hr, rfl, hp⟩
    exact ⟨hr, hp⟩
  · rintro ⟨hr, hp⟩
    exact ⟨j, hr, rfl, hp⟩

end Span

namespace Pattern

variable {α : Type} (s : List Char)

theorem matchesAny_iff (ps : List (Pattern α)) (i j : Nat) :
    MatchesAny s ps i j ↔ ∃ p ∈ ps, p.Matches s i j := by
  induction ps with
  | nil => simp [MatchesAny, Span.never]
  | cons p ps ih => simp [MatchesAny, Span.union, ih]

/-- A literal that matches all of the text is the text. -/
theorem matches_literal_whole (text : String) :
    (literal text : Pattern α).Matches s 0 s.length ↔ text.toList = s := by
  show s.length = 0 + text.toList.length ∧ text.toList <+: s.drop 0 ↔ text.toList = s
  rw [List.drop_zero, Nat.zero_add]
  constructor
  · rintro ⟨hlength, hhead⟩
    exact hhead.eq_of_length hlength.symm
  · rintro rfl
    exact ⟨rfl, List.prefix_rfl⟩

/-- A literal that matches up to the end of the text is what the text ends in. -/
theorem exists_matches_literal_end (text : String) :
    (∃ i, (literal text : Pattern α).Matches s i s.length) ↔ text.toList <:+ s := by
  simp only [Matches]
  constructor
  · rintro ⟨i, hlength, hhead⟩
    have hdrop : text.toList = s.drop i := by
      apply hhead.eq_of_length
      rw [List.length_drop]
      omega
    rw [hdrop]
    exact List.drop_suffix i s
  · rintro ⟨front, rfl⟩
    have hdrop : (front ++ text.toList).drop front.length = text.toList := List.drop_left
    refine ⟨front.length, by simp, ?_⟩
    exact hdrop.symm ▸ List.prefix_rfl

end Pattern

end TextMate
