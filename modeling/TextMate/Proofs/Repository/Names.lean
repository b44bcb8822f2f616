import Mathlib.Data.List.GetD
import Mathlib.Data.List.Induction
import Mathlib.Data.List.Shortlex
import TextMate.Proofs.Numeral
import TextMate.Repository

/-!
# The names that can be generated

The name of a counter is its numeral in base 64. A numeral is *canonical* if it has a digit, has nothing but
digits, and has no leading `A` unless that is all of it. Each number has one canonical numeral, and that is
the one that is written:

    canonical_chars : Canonical (chars n)
    chars_value     : Canonical cs → chars (value cs) = cs

Numbers are in the order of their numerals, the shorter ones first and those of one length digit by digit,
`lt_iff_shortlex_chars`. All of this goes by the quotient, as the digits do: what is said of `n / 64` passes
to `n` with one more digit at the end.
-/

namespace TextMate

namespace Numeral

/-- The digits of a number, the highest first, with no digit that could be left out. -/
structure Canonical (cs : List Char) : Prop where
  ne_nil : cs ≠ []
  mem_digits : ∀ c ∈ cs, c ∈ digits
  eq_of_leading : cs.head? = some 'A' → cs = ['A']

/-- One digit comes before another one in the alphabet. -/
def Earlier (c d : Char) : Prop :=
  digits.idxOf c < digits.idxOf d

/-! ## Digits -/

theorem length_digits : digits.length = 64 := rfl

theorem digit_mem {n : Nat} (h : n < 64) : digit n ∈ digits := by
  rw [digit, List.getD_eq_getElem digits 'A' (length_digits ▸ h)]
  exact List.getElem_mem _

theorem idxOf_lt {c : Char} (h : c ∈ digits) : digits.idxOf c < 64 :=
  length_digits ▸ List.idxOf_lt_length_iff.mpr h

theorem digit_idxOf {c : Char} (h : c ∈ digits) : digit (digits.idxOf c) = c := by
  rw [digit, List.getD_eq_getElem digits 'A' (List.idxOf_lt_length_iff.mpr h)]
  exact List.getElem_idxOf _

theorem earlier_digit {m n : Nat} (hm : m < 64) (hn : n < 64) : Earlier (digit m) (digit n) ↔ m < n := by
  rw [Earlier, idxOf_digit hm, idxOf_digit hn]

theorem chars_of_lt {n : Nat} (h : n < 64) : chars n = [digit n] := by
  rw [chars, if_pos h]

theorem chars_zero : chars 0 = ['A'] :=
  chars_of_lt (by decide)

theorem chars_of_not_lt {n : Nat} (h : ¬ n < 64) : chars n = chars (n / 64) ++ [digit (n % 64)] := by
  rw [chars, if_neg h]

theorem chars_inj {m n : Nat} : chars m = chars n ↔ m = n := by
  constructor
  · intro h
    rw [← value_chars m, h, value_chars]
  · exact congrArg chars

/-! ## Canonical numerals -/

theorem canonical_chars (n : Nat) : Canonical (chars n) := by
  fun_induction chars n with
  | case1 n hlow =>
    refine ⟨by simp, ?_, by simp⟩
    simpa using digit_mem hlow
  | case2 n hhigh ih =>
    refine ⟨by simp, ?_, ?_⟩
    · intro c hc
      rcases List.mem_append.mp hc with hc | hc
      · exact ih.mem_digits c hc
      · rw [List.mem_singleton.mp hc]
        exact digit_mem (Nat.mod_lt n (by decide))
    · intro hleading
      -- a leading `A` would be all of the quotient, and the quotient is not zero
      rw [List.head?_append_of_ne_nil _ (chars_ne_nil _)] at hleading
      have hzero : n / 64 = 0 := chars_inj.mp ((ih.eq_of_leading hleading).trans chars_zero.symm)
      omega

theorem Canonical.leading_ne {cs : List Char} {c : Char} (h : Canonical (cs ++ [c])) (hne : cs ≠ []) :
    cs.head? ≠ some 'A' := by
  intro hleading
  rw [← List.head?_append_of_ne_nil _ hne] at hleading
  have hlength := congrArg List.length (h.eq_of_leading hleading)
  simp [hne] at hlength

/-- What is left without the last digit. -/
theorem Canonical.init {cs : List Char} {c : Char} (h : Canonical (cs ++ [c])) (hne : cs ≠ []) :
    Canonical cs := by
  refine ⟨hne, ?_, ?_⟩
  · intro d hd
    exact h.mem_digits d (List.mem_append_left [c] hd)
  · intro hleading
    exact absurd hleading (h.leading_ne hne)

/-- A canonical numeral is the numeral of its value. -/
theorem chars_value {cs : List Char} (h : Canonical cs) : chars (value cs) = cs := by
  induction cs using List.reverseRecOn with
  | nil => exact absurd rfl h.ne_nil
  | append_singleton cs c ih =>
    have hc : c ∈ digits := h.mem_digits c (by simp)
    have hlast := idxOf_lt hc
    rw [value_append_singleton]
    by_cases hnil : cs = []
    · subst hnil
      rw [chars_of_lt (by simpa [value] using hlast)]
      simp [value, digit_idxOf hc]
    · have hcs := ih (h.init hnil)
      have hpos : value cs ≠ 0 := by
        intro hzero
        apply h.leading_ne hnil
        rw [← hcs, hzero, chars_zero]
        rfl
      have hquot : (64 * value cs + digits.idxOf c) / 64 = value cs := by omega
      have hrem : (64 * value cs + digits.idxOf c) % 64 = digits.idxOf c := by omega
      rw [chars_of_not_lt (by omega), hquot, hrem, hcs, digit_idxOf hc]

theorem exists_chars_iff {cs : List Char} {bound : Nat} :
    (∃ n < bound, chars n = cs) ↔ Canonical cs ∧ value cs < bound := by
  constructor
  · rintro ⟨n, hn, rfl⟩
    rw [value_chars]
    exact ⟨canonical_chars n, hn⟩
  · rintro ⟨hcs, hvalue⟩
    exact ⟨value cs, hvalue, chars_value hcs⟩

/-! ## The order of numerals -/

theorem lex_append_singleton_iff {r : Char → Char → Prop} {as bs : List Char} {a b : Char}
    (h : as.length = bs.length) :
    List.Lex r (as ++ [a]) (bs ++ [b]) ↔ List.Lex r as bs ∨ as = bs ∧ r a b := by
  induction as generalizing bs with
  | nil =>
    obtain rfl : bs = [] := List.eq_nil_of_length_eq_zero h.symm
    simp
  | cons c as ih =>
    cases bs with
    | nil => cases h
    | cons d bs =>
      rw [List.cons_append, List.cons_append, List.cons_lex_cons_iff, List.cons_lex_cons_iff,
        ih (Nat.succ.inj h), List.cons.injEq]
      tauto

/-- A last digit decides only between numerals that agree up to it. -/
theorem shortlex_append_singleton_iff {r : Char → Char → Prop} {as bs : List Char} {a b : Char} :
    List.Shortlex r (as ++ [a]) (bs ++ [b]) ↔ List.Shortlex r as bs ∨ as = bs ∧ r a b := by
  simp only [List.shortlex_def, List.length_append, List.length_singleton]
  by_cases h : as.length = bs.length
  · simp [h, lex_append_singleton_iff h]
  · have hne : as ≠ bs := by
      rintro rfl
      exact h rfl
    simp [h, hne]

theorem lt_iff_shortlex_chars (m n : Nat) : m < n ↔ List.Shortlex Earlier (chars m) (chars n) := by
  fun_induction chars m generalizing n with
  | case1 m hlow =>
    by_cases hn : n < 64
    · rw [chars_of_lt hn, List.shortlex_singleton_iff, earlier_digit hlow hn]
    · have hlength := List.length_pos_of_ne_nil (chars_ne_nil (n / 64))
      have hshorter : List.Shortlex Earlier [digit m] (chars n) := by
        apply List.Shortlex.of_length_lt
        simp [chars_of_not_lt hn, hlength]
      exact iff_of_true (by omega) hshorter
  | case2 m hhigh ih =>
    by_cases hn : n < 64
    · have hlength := List.length_pos_of_ne_nil (chars_ne_nil (m / 64))
      have hlonger : ¬ List.Shortlex Earlier (chars (m / 64) ++ [digit (m % 64)]) (chars n) := by
        rw [List.shortlex_def, chars_of_lt hn]
        simp only [List.length_append, List.length_singleton]
        omega
      exact iff_of_false (by omega) hlonger
    · have hlast := earlier_digit (Nat.mod_lt m (by decide)) (Nat.mod_lt n (by decide))
      rw [chars_of_not_lt hn, shortlex_append_singleton_iff, ← ih, chars_inj, hlast]
      omega

end Numeral

namespace Repository

open Numeral

/-- The name of a counter is a canonical numeral, and its value is the counter. So different counters have
different names, the names of the counters below the bound are exactly the canonical numerals of a value below
it, and counters are in the order of their names: shorter ones first, and those of one length by the first
digit in which they differ. -/
theorem generatedNames_canonical :
    (∀ n, Canonical (render n).toList ∧ value (render n).toList = n) ∧
    Function.Injective render ∧
    (∀ name : String, (∃ n < counterBound, render n = name) ↔
      Canonical name.toList ∧ value name.toList < counterBound) ∧
    ∀ m n, m < n ↔ List.Shortlex Earlier (render m).toList (render n).toList := by
  have htext : ∀ n, (render n).toList = chars n := by
    intro n
    exact String.toList_ofList
  refine ⟨?_, ?_, ?_, ?_⟩
  · intro n
    rw [htext]
    exact ⟨canonical_chars n, value_chars n⟩
  · intro m n h
    exact render_injective h
  · intro name
    rw [← exists_chars_iff]
    simp only [← htext, String.toList_inj]
  · intro m n
    rw [htext, htext]
    exact lt_iff_shortlex_chars m n

example : render (counterBound - 1) = "P//////////" := by decide +kernel

end Repository

end TextMate
