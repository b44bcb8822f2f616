import TextMate.Numeral

/-!
# Reading numerals back

`Numeral.value` reads a numeral, the highest digit first. It undoes writing, `value_chars`, so different
numbers have different numerals, `render_injective`.
-/

namespace TextMate.Numeral

/-- The number that digits stand for, the highest first. -/
def value (cs : List Char) : Nat :=
  cs.foldl (fun n c => 64 * n + digits.idxOf c) 0

theorem value_append_singleton (cs : List Char) (c : Char) :
    value (cs ++ [c]) = 64 * value cs + digits.idxOf c := by
  simp [value]

/-- The sixty-four digits are different from each other. -/
theorem idxOf_digit {n : Nat} (h : n < 64) : digits.idxOf (digit n) = n := by
  have hall : ∀ n < 64, digits.idxOf (digit n) = n := by decide +kernel
  exact hall n h

theorem value_chars (n : Nat) : value (chars n) = n := by
  fun_induction chars n with
  | case1 n hlow => simp [value, idxOf_digit hlow]
  | case2 n hhigh ih =>
    have hlast : digits.idxOf (digit (n % 64)) = n % 64 := idxOf_digit (Nat.mod_lt n (by decide))
    rw [value_append_singleton, ih, hlast]
    exact Nat.div_add_mod n 64

theorem chars_ne_nil (n : Nat) : chars n ≠ [] := by
  fun_cases chars n <;> simp

/-- Different numbers have different numerals. -/
theorem render_injective {m n : Nat} (h : render m = render n) : m = n := by
  have hchars : chars m = chars n := String.ofList_injective h
  calc m = value (chars m) := (value_chars m).symm
    _ = value (chars n) := by rw [hchars]
    _ = n := value_chars n

theorem render_ne_empty (n : Nat) : render n ≠ "" := by
  intro h
  apply chars_ne_nil n
  exact String.ofList_injective h

end TextMate.Numeral
