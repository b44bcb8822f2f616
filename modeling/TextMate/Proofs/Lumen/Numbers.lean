import Mathlib.Data.List.Chain
import TextMate.Proofs.Lumen.Words
import TextMate.Proofs.Regex.Languages

/-!
# Numbers of Lumen

A number is written in one of five ways, the `radices`: plainly, or with a zero and a letter that gives the
radix. Each has its digits and the letters that start an exponent. Digits come in runs, in which apostrophes
may stand between digits but not at either end and not next to each other, `IsDigitRun`.

Taken as a whole text, a string is matched by `number` if and only if it is a literal in one of the radices,
`number_whole_iff`. The lemmas before it find the language of each part of the pattern.
-/

namespace TextMate.Lumen

open Pattern
open scoped Computability

variable {α : Type}

/-! ## Literals -/

def IsDecimal (c : Char) : Prop :=
  '0' ≤ c ∧ c ≤ '9'

def IsHexadecimal (c : Char) : Prop :=
  ('a' ≤ c ∧ c ≤ 'f') ∨ ('A' ≤ c ∧ c ≤ 'F') ∨ IsDecimal c

def IsOctal (c : Char) : Prop :=
  '0' ≤ c ∧ c ≤ '7'

def IsBinary (c : Char) : Prop :=
  '0' ≤ c ∧ c ≤ '1'

instance : DecidablePred IsDecimal := fun c =>
  inferInstanceAs (Decidable ('0' ≤ c ∧ c ≤ '9'))

instance : DecidablePred IsHexadecimal := fun c =>
  inferInstanceAs (Decidable (('a' ≤ c ∧ c ≤ 'f') ∨ ('A' ≤ c ∧ c ≤ 'F') ∨ IsDecimal c))

instance : DecidablePred IsOctal := fun c =>
  inferInstanceAs (Decidable ('0' ≤ c ∧ c ≤ '7'))

instance : DecidablePred IsBinary := fun c =>
  inferInstanceAs (Decidable ('0' ≤ c ∧ c ≤ '1'))

/-- Digits and apostrophes that begin and end in a digit, with no two apostrophes in a row. -/
structure IsDigitRun (digit : Char → Prop) (w : List Char) : Prop where
  chars : ∀ c ∈ w, digit c ∨ c = '\''
  first : ∃ c, w.head? = some c ∧ digit c
  last : ∃ c, w.getLast? = some c ∧ digit c
  apart : w.IsChain fun c d => ¬ (c = '\'' ∧ d = '\'')

/-- A way to write numbers. -/
structure Radix where
  /-- What may stand in front of the digits. -/
  marks : List (List Char)
  IsDigit : Char → Prop
  /-- The letters that may start an exponent. -/
  exponents : String
  /-- The separator of digits is no digit. -/
  separator : ¬ IsDigit '\''

namespace Radix

def plain : Radix :=
  ⟨[[]], IsDecimal, "eE", by decide⟩

def decimal : Radix :=
  ⟨[['0', 'd'], ['0', 'D']], IsDecimal, "eE", by decide⟩

def hexadecimal : Radix :=
  ⟨[['0', 'x'], ['0', 'X']], IsHexadecimal, "pP", by decide⟩

def octal : Radix :=
  ⟨[['0', 'o'], ['0', 'O']], IsOctal, "pP", by decide⟩

def binary : Radix :=
  ⟨[['0', 'b'], ['0', 'B']], IsBinary, "pP", by decide⟩

/-- Nothing, or a point and digits. -/
def IsFraction (r : Radix) (w : List Char) : Prop :=
  w = [] ∨ ∃ run, IsDigitRun r.IsDigit run ∧ w = '.' :: run

/-- Nothing, or an exponent, whose digits are decimal in every radix. -/
def IsExponent (r : Radix) (w : List Char) : Prop :=
  w = [] ∨ ∃ letter ∈ r.exponents.toList, ∃ sign ∈ [[], ['+'], ['-']], ∃ run,
    IsDigitRun IsDecimal run ∧ w = letter :: (sign ++ run)

/-- A literal without its mark. -/
def IsMagnitude (r : Radix) (w : List Char) : Prop :=
  ∃ whole fraction exponent, IsDigitRun r.IsDigit whole ∧ r.IsFraction fraction ∧
    r.IsExponent exponent ∧ w = whole ++ (fraction ++ exponent)

/-- A number written in the radix. -/
def IsLiteral (r : Radix) (w : List Char) : Prop :=
  ∃ mark ∈ r.marks, ∃ magnitude, r.IsMagnitude magnitude ∧ w = mark ++ magnitude

end Radix

/-- The ways to write a number. -/
def radices : List Radix :=
  [.plain, .decimal, .hexadecimal, .octal, .binary]

/-! ## Runs of digits -/

namespace IsDigitRun

variable {digit : Char → Prop} {c d : Char} {v w rest gap : List Char}

theorem single (hc : digit c) : IsDigitRun digit [c] where
  chars := by simp [hc]
  first := ⟨c, rfl, hc⟩
  last := ⟨c, rfl, hc⟩
  apart := .singleton c

/-- A run may get one more digit at its front, with an apostrophe after it or without. -/
theorem extend (hsep : ¬ digit '\'') (hc : digit c) (hgap : gap ∈ [[], ['\'']])
    (h : IsDigitRun digit w) : IsDigitRun digit (c :: (gap ++ w)) := by
  obtain ⟨d, hfirst, hd⟩ := h.first
  obtain ⟨rest, rfl⟩ := List.head?_eq_some_iff.mp hfirst
  have hcne : c ≠ '\'' := by
    rintro rfl
    exact hsep hc
  have hdne : d ≠ '\'' := by
    rintro rfl
    exact hsep hd
  have hgap' : gap = [] ∨ gap = ['\''] := by simpa using hgap
  rcases hgap' with rfl | rfl
  · refine ⟨?_, ⟨c, rfl, hc⟩, h.last, ?_⟩
    · intro e he
      rcases List.mem_cons.mp he with rfl | he
      · exact .inl hc
      · exact h.chars e he
    · exact List.isChain_cons_cons.mpr ⟨fun hboth => hcne hboth.1, h.apart⟩
  · refine ⟨?_, ⟨c, rfl, hc⟩, h.last, ?_⟩
    · intro e he
      rcases List.mem_cons.mp he with rfl | he
      · exact .inl hc
      rcases List.mem_cons.mp he with rfl | he
      · exact .inr rfl
      · exact h.chars e he
    · apply List.isChain_cons_cons.mpr
      refine ⟨fun hboth => hcne hboth.1, List.isChain_cons_cons.mpr ⟨?_, h.apart⟩⟩
      exact fun hboth => hdne hboth.2

/-- What follows from a digit of a run on is a run. -/
theorem tail_of_digit (h : IsDigitRun digit (v ++ d :: rest)) (hd : digit d) :
    IsDigitRun digit (d :: rest) where
  chars := fun e he => h.chars e (List.mem_append_right v he)
  first := ⟨d, rfl, hd⟩
  last := by
    have hlast := h.last
    rwa [List.getLast?_append_of_ne_nil v (List.cons_ne_nil d rest)] at hlast
  apart := h.apart.right_of_append

/-- A run is one digit, or a digit, perhaps an apostrophe, and a run. -/
theorem exists_extend (h : IsDigitRun digit w) : ∃ c, digit c ∧
    (w = [c] ∨ ∃ gap ∈ [[], ['\'']], ∃ rest, IsDigitRun digit rest ∧ w = c :: (gap ++ rest)) := by
  obtain ⟨c, hfirst, hc⟩ := h.first
  obtain ⟨rest, rfl⟩ := List.head?_eq_some_iff.mp hfirst
  refine ⟨c, hc, ?_⟩
  cases rest with
  | nil => exact .inl rfl
  | cons d rest =>
    right
    by_cases hd : digit d
    · exact ⟨[], by simp, d :: rest, tail_of_digit (v := [c]) h hd, rfl⟩
    · -- `d` is an apostrophe, so there must be a next character, and it must be a digit
      obtain rfl : d = '\'' := (h.chars d (by simp)).resolve_left hd
      cases rest with
      | nil =>
        obtain ⟨e, he, hdigit⟩ := h.last
        cases he
        exact absurd hdigit hd
      | cons e rest =>
        have hene : e ≠ '\'' := by
          rintro rfl
          have hpair := List.isChain_cons_cons.mp (List.isChain_cons_cons.mp h.apart).2
          exact hpair.1 ⟨rfl, rfl⟩
        have he : digit e := (h.chars e (by simp)).resolve_right hene
        exact ⟨['\''], by simp, e :: rest, tail_of_digit (v := [c, '\'']) h he, rfl⟩

end IsDigitRun

/-- A digit, perhaps after an apostrophe. -/
theorem mem_laterDigit {digit : Char → Prop} {w : List Char} :
    w ∈ (1 + oneWord ['\'']) * oneChar digit ↔
      ∃ gap ∈ [[], ['\'']], ∃ c, digit c ∧ w = gap ++ [c] := by
  simp only [Language.mem_mul, Language.mem_add, Language.mem_one, mem_oneWord, mem_oneChar]
  grind

/-- The language of a run as the pattern spells it. -/
theorem mem_run_iff {digit : Char → Prop} (hsep : ¬ digit '\'') (w : List Char) :
    w ∈ oneChar digit * ((1 + oneWord ['\'']) * oneChar digit)∗ ↔ IsDigitRun digit w := by
  constructor
  · intro hw
    obtain ⟨_, ⟨c, rfl, hc⟩, _, hstar, rfl⟩ := Language.mem_mul.mp hw
    obtain ⟨pieces, rfl, hpieces⟩ := Language.mem_kstar.mp hstar
    clear hw hstar
    -- the digit in front of the pieces changes from piece to piece
    induction pieces generalizing c with
    | nil => exact .single hc
    | cons piece pieces ih =>
      obtain ⟨gap, hgap, d, hd, rfl⟩ := mem_laterDigit.mp (hpieces piece (by simp))
      have hrest := ih d hd fun y hy => hpieces y (List.mem_cons_of_mem _ hy)
      have hrun := IsDigitRun.extend hsep hc hgap hrest
      simpa using hrun
  · intro hw
    induction hlength : w.length using Nat.strong_induction_on generalizing w with
    | _ n ih =>
      obtain ⟨c, hc, rfl | ⟨gap, hgap, rest, hrest, rfl⟩⟩ := hw.exists_extend
      · exact Language.mem_mul.mpr ⟨[c], ⟨c, rfl, hc⟩, [], Language.nil_mem_kstar _, rfl⟩
      · have hmem := ih rest.length (by simp at hlength; omega) rest hrest rfl
        obtain ⟨_, ⟨d, rfl, hd⟩, tail, htail, rfl⟩ := Language.mem_mul.mp hmem
        have hpiece : gap ++ [d] ∈ (1 + oneWord ['\'']) * oneChar digit :=
          mem_laterDigit.mpr ⟨gap, hgap, d, hd, rfl⟩
        have hstar : (gap ++ [d]) ++ tail ∈ ((1 + oneWord ['\'']) * oneChar digit)∗ := by
          rw [← Language.one_add_self_mul_kstar_eq_kstar]
          exact .inr (Language.append_mem_mul hpiece htail)
        exact Language.mem_mul.mpr ⟨[c], ⟨c, rfl, hc⟩, _, hstar, by simp⟩

theorem hasLanguage_digitRun {p : Pattern α} {digit : Char → Prop}
    (hp : p.HasLanguage (oneChar digit)) (hsep : ¬ digit '\'') :
    (digitRun p).HasLanguage (wordsWith (IsDigitRun digit)) := by
  have hquote : (Pattern.set .positive "'" : Pattern α).HasLanguage (oneWord ['\'']) := by
    apply (hasLanguage_set "'").of_mem_iff
    intro w
    rw [mem_oneChar]
    simp
  have hlater := HasLanguage.seq (.cons hquote.optional (.cons hp .nil))
  have hrun := HasLanguage.seq (.cons hp (.cons hlater.zeroOrMore .nil))
  simp only [List.prod_cons, List.prod_nil, mul_one] at hrun
  exact hrun.of_mem_iff (mem_run_iff hsep)

/-! ## Parts of a literal -/

theorem hasLanguage_decimal : (decimal : Pattern α).HasLanguage (oneChar IsDecimal) :=
  hasLanguage_range '0' '9'

theorem hasLanguage_hexadecimal :
    (Pattern.alt [.range .positive 'a' 'f', .range .positive 'A' 'F', decimal] :
      Pattern α).HasLanguage (oneChar IsHexadecimal) := by
  have hsum := HasLanguage.alt (α := α)
    (.cons (hasLanguage_range 'a' 'f') (.cons (hasLanguage_range 'A' 'F') (.cons hasLanguage_decimal .nil)))
  simp only [List.sum_cons, List.sum_nil, add_zero, oneChar_add_oneChar] at hsum
  exact hsum

namespace Radix

variable (r : Radix) {digit : Pattern α}

theorem hasLanguage_fraction (h : digit.HasLanguage (oneChar r.IsDigit)) :
    (optional (.seq [.literal ".", digitRun digit])).HasLanguage (wordsWith r.IsFraction) := by
  have hrun := hasLanguage_digitRun h r.separator
  have hseq := HasLanguage.seq (.cons (hasLanguage_literal ".") (.cons hrun .nil))
  apply hseq.optional.of_mem_iff
  intro w
  simp only [List.prod_cons, List.prod_nil, mul_one, Language.mem_add, Language.mem_one, Language.mem_mul,
    mem_oneWord, mem_wordsWith, IsFraction]
  apply or_congr_right
  constructor
  · rintro ⟨_, rfl, run, hrun, rfl⟩
    exact ⟨run, hrun, rfl⟩
  · rintro ⟨run, hrun, rfl⟩
    exact ⟨_, rfl, run, hrun, rfl⟩

theorem hasLanguage_exponent :
    (optional (.seq [.set .positive r.exponents, optional (.set .positive "+-"), digitRun Lumen.decimal]) :
      Pattern α).HasLanguage (wordsWith r.IsExponent) := by
  have hrun := hasLanguage_digitRun (α := α) hasLanguage_decimal (by decide)
  have hseq := HasLanguage.seq (.cons (hasLanguage_set (α := α) r.exponents)
    (.cons (hasLanguage_set "+-").optional (.cons hrun .nil)))
  apply hseq.optional.of_mem_iff
  intro w
  simp only [List.prod_cons, List.prod_nil, mul_one, Language.mem_add, Language.mem_one, Language.mem_mul,
    mem_oneChar, mem_wordsWith, IsExponent]
  apply or_congr_right
  constructor
  · rintro ⟨_, ⟨letter, rfl, hletter⟩, _, ⟨sign, hsign, run, hrun, rfl⟩, rfl⟩
    refine ⟨letter, hletter, sign, ?_, run, hrun, rfl⟩
    rcases hsign with rfl | ⟨c, rfl, hc⟩
    · simp
    · simpa using hc
  · rintro ⟨letter, hletter, sign, hsign, run, hrun, rfl⟩
    refine ⟨_, ⟨letter, rfl, hletter⟩, _, ⟨sign, ?_, run, hrun, rfl⟩, rfl⟩
    have hcases : sign = [] ∨ sign = ['+'] ∨ sign = ['-'] := by simpa using hsign
    rcases hcases with rfl | rfl | rfl
    · exact .inl rfl
    · exact .inr ⟨'+', rfl, by simp⟩
    · exact .inr ⟨'-', rfl, by simp⟩

theorem hasLanguage_magnitude (h : digit.HasLanguage (oneChar r.IsDigit)) :
    (magnitude digit (.set .positive r.exponents)).HasLanguage (wordsWith r.IsMagnitude) := by
  have hseq := HasLanguage.seq (.cons (hasLanguage_digitRun h r.separator)
    (.cons (r.hasLanguage_fraction h) (.cons r.hasLanguage_exponent .nil)))
  apply hseq.of_mem_iff
  intro w
  simp only [List.prod_cons, List.prod_nil, mul_one, Language.mem_mul, mem_wordsWith, IsMagnitude]
  constructor
  · rintro ⟨whole, hwhole, _, ⟨fraction, hfraction, exponent, hexponent, rfl⟩, rfl⟩
    exact ⟨whole, fraction, exponent, hwhole, hfraction, hexponent, rfl⟩
  · rintro ⟨whole, fraction, exponent, hwhole, hfraction, hexponent, rfl⟩
    exact ⟨whole, hwhole, _, ⟨fraction, hfraction, exponent, hexponent, rfl⟩, rfl⟩

/-! ## Whole literals -/

theorem plainNumber_whole_iff (h : digit.HasLanguage (oneChar r.IsDigit)) (hmarks : r.marks = [[]])
    (s : List Char) :
    (standalone (magnitude digit (.set .positive r.exponents))).Matches s 0 s.length ↔
      r.IsLiteral s := by
  rw [standalone_whole_iff, (r.hasLanguage_magnitude h).whole_iff, mem_wordsWith, IsLiteral, hmarks]
  simp

theorem numberInRadix_whole_iff (h : digit.HasLanguage (oneChar r.IsDigit)) {indicator : String}
    (hmarks : r.marks = indicator.toList.map fun c => ['0', c]) (s : List Char) :
    (numberInRadix (.set .positive indicator) digit (.set .positive r.exponents)).Matches s 0 s.length ↔
      r.IsLiteral s := by
  have hseq := HasLanguage.seq (.cons (hasLanguage_literal "0")
    (.cons (hasLanguage_set indicator) (.cons (r.hasLanguage_magnitude h) .nil)))
  rw [numberInRadix, standalone_whole_iff, hseq.whole_iff, IsLiteral, hmarks]
  simp only [List.prod_cons, List.prod_nil, mul_one, Language.mem_mul, mem_oneWord, mem_oneChar,
    mem_wordsWith, List.mem_map]
  constructor
  · rintro ⟨_, rfl, _, ⟨_, ⟨c, rfl, hc⟩, w, hw, rfl⟩, rfl⟩
    exact ⟨['0', c], ⟨c, hc, rfl⟩, w, hw, rfl⟩
  · rintro ⟨_, ⟨c, hc, rfl⟩, w, hw, rfl⟩
    exact ⟨_, rfl, _, ⟨_, ⟨c, rfl, hc⟩, w, hw, rfl⟩, rfl⟩

end Radix

/-- A text as a whole is matched as a number if and only if it is a literal in one of the radices. -/
theorem number_whole_iff (w : String) :
    (number : Pattern α).Matches w.toList 0 w.length ↔ ∃ r ∈ radices, r.IsLiteral w.toList := by
  rw [number, Matches, matchesAny_iff, ← String.length_toList]
  simp only [radices, List.mem_cons, List.not_mem_nil, or_false, exists_eq_or_imp, exists_eq_left]
  apply or_congr (Radix.plain.plainNumber_whole_iff hasLanguage_decimal rfl _)
  apply or_congr (Radix.decimal.numberInRadix_whole_iff hasLanguage_decimal (by simp [Radix.decimal]) _)
  apply or_congr
    (Radix.hexadecimal.numberInRadix_whole_iff hasLanguage_hexadecimal (by simp [Radix.hexadecimal]) _)
  apply or_congr
    (Radix.octal.numberInRadix_whole_iff (hasLanguage_range '0' '7') (by simp [Radix.octal]) _)
  exact Radix.binary.numberInRadix_whole_iff (hasLanguage_range '0' '1') (by simp [Radix.binary]) _

end TextMate.Lumen
