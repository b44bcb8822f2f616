/-!
# Scanning a run of characters

A reader that takes the longest run of characters of some kind off the front of a text finds exactly the
run that was written there, as long as what follows does not start with one more such character.
-/

namespace TextMate

/-- The text is empty or starts with a character outside `p`. -/
def Stops (p : Char → Bool) (cs : List Char) : Prop :=
  ∀ c ∈ cs.head?, p c = false

variable {p : Char → Bool}

@[simp] theorem stops_nil : Stops p [] := by
  simp [Stops]

@[simp] theorem stops_cons {c : Char} {cs : List Char} : Stops p (c :: cs) ↔ p c = false := by
  simp [Stops]

/-- A run in front of a text that stops is followed by what it is followed by. -/
theorem stops_append {q : Char → Bool} {run rest : List Char} (hq : ∀ c ∈ run, q c)
    (h : ∀ c, q c → p c = false) (hrest : Stops p rest) : Stops p (run ++ rest) := by
  cases run with
  | nil => exact hrest
  | cons c run => exact stops_cons.mpr (h c (hq c (by simp)))

theorem mem_takeWhile {cs : List Char} {c : Char} (h : c ∈ cs.takeWhile p) : p c :=
  List.all_eq_true.mp List.all_takeWhile c h

theorem takeWhile_append_of_stops {run rest : List Char} (hrun : ∀ c ∈ run, p c)
    (hrest : Stops p rest) : (run ++ rest).takeWhile p = run := by
  rw [List.takeWhile_append_of_pos hrun]
  cases rest with
  | nil => simp
  | cons c rest => simp [stops_cons.mp hrest]

theorem dropWhile_append_of_stops {run rest : List Char} (hrun : ∀ c ∈ run, p c)
    (hrest : Stops p rest) : (run ++ rest).dropWhile p = rest := by
  rw [List.dropWhile_append_of_pos hrun]
  cases rest with
  | nil => rfl
  | cons c rest => simp [stops_cons.mp hrest]

end TextMate
