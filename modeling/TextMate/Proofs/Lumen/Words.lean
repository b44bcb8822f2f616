import Mathlib.Logic.Basic
import TextMate.Lumen.Lexeme
import TextMate.Proofs.Regex.Spans

/-!
# Words of Lumen

A word is made of letters and digits and starts with a letter. Taken as a whole text, a word is matched by
`keyword` if and only if it is a keyword, `keyword_whole_iff`. It is matched by `identifier` if and only if
it does not *end* in a keyword, `identifier_whole_iff`: the test at the end of an identifier looks for a
keyword right before it, and does not ask whether letters or digits stand before that keyword.

So no word is both, but a word such as `undo`, which ends in a keyword without being one, is neither.
-/

namespace TextMate.Lumen

open Pattern

variable {α : Type} {s : List Char}

/-- A word in ASCII letters and digits, a letter first. -/
structure IsWord (w : String) : Prop where
  letter_first : ∃ c, w.toList.head? = some c ∧ c.isAlpha = true
  all_wordChars : ∀ c ∈ w.toList, c.isAlphanum = true

/-- The keywords themselves, without their scopes. -/
def keywordNames : List String :=
  keywords.map (·.2)

/-- The word ends in a keyword, or is one. -/
def EndsInKeyword (w : String) : Prop :=
  ∃ word ∈ keywordNames, word.toList <:+ w.toList

instance (w : String) : Decidable (EndsInKeyword w) :=
  inferInstanceAs (Decidable (∃ word ∈ keywordNames, word.toList <:+ w.toList))

/-! ## Characters -/

theorem isAlpha_iff (c : Char) : c.isAlpha = true ↔ ('a' ≤ c ∧ c ≤ 'z') ∨ ('A' ≤ c ∧ c ≤ 'Z') := by
  have hupper : c.isUpper = true ↔ 'A' ≤ c ∧ c ≤ 'Z' := decide_eq_true_iff
  have hlower : c.isLower = true ↔ 'a' ≤ c ∧ c ≤ 'z' := by
    show (decide ('a' ≤ c) && decide (c ≤ 'z')) = true ↔ _
    simp
  show (c.isUpper || c.isLower) = true ↔ _
  rw [Bool.or_eq_true, hupper, hlower, or_comm]

theorem isAlphanum_iff (c : Char) : c.isAlphanum = true ↔
    ('a' ≤ c ∧ c ≤ 'z') ∨ ('A' ≤ c ∧ c ≤ 'Z') ∨ ('0' ≤ c ∧ c ≤ '9') := by
  rw [← or_assoc, ← isAlpha_iff]
  simp [Char.isAlphanum, Char.isDigit, Char.le_def]

theorem matches_letter :
    (Pattern.alt [lower, upper] : Pattern α).Matches s = .one s fun c => c.isAlpha = true := by
  simp only [Matches, MatchesAny, lower, upper, Span.union_never, Span.one_union_one, Polarity.Holds,
    isAlpha_iff]

theorem matches_wordChar :
    (wordChar : Pattern α).Matches s = .one s fun c => c.isAlphanum = true := by
  simp only [wordChar, Matches, MatchesAny, lower, upper, decimal, Span.union_never, Span.one_union_one,
    Polarity.Holds, isAlphanum_iff]

/-! ## The ends of the text -/

/-- Nothing stands around a whole text. -/
theorem standalone_whole_iff (p : Pattern α) :
    (standalone p).Matches s 0 s.length ↔ p.Matches s 0 s.length := by
  have hstart : ¬ ∃ k, (wordChar : Pattern α).Matches s k 0 := by
    rw [matches_wordChar]
    rintro ⟨k, hk, -⟩
    cases hk
  have hend : ¬ ∃ k, (wordChar : Pattern α).Matches s s.length k := by
    rw [matches_wordChar]
    rintro ⟨k, -, c, hc, -⟩
    simp at hc
  simp only [standalone, notAfter, notBefore, Matches, MatchesInTurn, Span.comp_skip, Span.look,
    Span.here_comp, Span.comp_here, Polarity.Holds]
  constructor
  · rintro ⟨-, hp, -⟩
    exact hp
  · intro hp
    exact ⟨hstart, hp, hend⟩

theorem exists_anyKeyword_end :
    (∃ i, (anyKeyword : Pattern α).Matches s i s.length) ↔ ∃ word ∈ keywordNames, word.toList <:+ s := by
  simp only [anyKeyword, Matches, matchesAny_iff, List.mem_map]
  constructor
  · rintro ⟨i, _, ⟨⟨scope, word⟩, hword, rfl⟩, hi⟩
    refine ⟨word, List.mem_map.mpr ⟨_, hword, rfl⟩, ?_⟩
    exact (exists_matches_literal_end (α := α) s word).mp ⟨i, hi⟩
  · rintro ⟨word, hword, hsuffix⟩
    obtain ⟨entry, hentry, rfl⟩ := List.mem_map.mp hword
    obtain ⟨i, hi⟩ := (exists_matches_literal_end (α := α) s entry.2).mpr hsuffix
    exact ⟨i, _, ⟨entry, hentry, rfl⟩, hi⟩

/-! ## Keywords -/

/-- A text as a whole is matched as a keyword if and only if it is one. -/
theorem keyword_whole_iff (w : String) :
    keyword.Matches w.toList 0 w.toList.length ↔ w ∈ keywordNames := by
  rw [keyword, standalone_whole_iff, Matches, matchesAny_iff, keywordNames]
  simp only [List.mem_map]
  constructor
  · rintro ⟨_, ⟨⟨scope, word⟩, hword, rfl⟩, hmatches⟩
    have htext := (matches_literal_whole (α := String) w.toList word).mp hmatches
    exact ⟨(scope, word), hword, String.toList_injective htext⟩
  · rintro ⟨⟨scope, word⟩, hword, rfl⟩
    refine ⟨_, ⟨(scope, word), hword, rfl⟩, ?_⟩
    exact (matches_literal_whole (α := String) word.toList word).mpr rfl

/-! ## Identifiers -/

/-- A keyword with an underscore is not made of letters and digits alone. -/
theorem not_matches_escapedKeyword (hs : ∀ c ∈ s, c.isAlphanum = true) (i j : Nat) :
    ¬ (Pattern.seq [anyKeyword, .literal "_"] : Pattern α).Matches s i j := by
  simp only [Matches, MatchesInTurn, Span.comp_skip]
  rintro ⟨k, -, -, hhead⟩
  have hmem : '_' ∈ s := List.mem_of_mem_drop (hhead.subset (by simp))
  exact absurd (hs '_' hmem) (by decide)

/-- A letter, letters and digits to the end, and no keyword right before the end. -/
theorem matches_plainIdentifier_iff {c : Char} (hfirst : s.head? = some c) (hc : c.isAlpha = true)
    (hs : ∀ c ∈ s, c.isAlphanum = true) :
    (Pattern.seq [.alt [lower, upper], zeroOrMore wordChar, notAfter anyKeyword] : Pattern α).Matches s 0
        s.length ↔ ¬ ∃ word ∈ keywordNames, word.toList <:+ s := by
  rw [← exists_anyKeyword_end (α := α)]
  rw [Matches, MatchesInTurn, MatchesInTurn, MatchesInTurn, MatchesInTurn, Span.comp_skip, matches_letter,
    zeroOrMore, atLeast, notAfter, Matches, Matches, matches_wordChar, Span.look]
  constructor
  · rintro ⟨k, -, hrest⟩
    exact ((Span.comp_here _ _ k s.length).mp hrest).2
  · intro hno
    rw [List.head?_eq_getElem?] at hfirst
    obtain ⟨hlength, -⟩ := List.getElem?_eq_some_iff.mp hfirst
    refine ⟨1, ⟨rfl, c, hfirst, hc⟩, (Span.comp_here _ _ 1 s.length).mpr ⟨?_, hno⟩⟩
    -- the repetition takes all that is left of the text
    rw [Span.between_one]
    refine ⟨hlength, ?_⟩
    intro k _ hk
    exact ⟨s[k], List.getElem?_eq_getElem hk, hs s[k] (List.getElem_mem hk)⟩

/-- A word as a whole is matched as an identifier if and only if it does not end in a keyword. -/
theorem identifier_whole_iff {w : String} (hw : IsWord w) :
    (identifier : Pattern α).Matches w.toList 0 w.toList.length ↔ ¬ EndsInKeyword w := by
  obtain ⟨c, hfirst, hc⟩ := hw.letter_first
  have hescaped := not_matches_escapedKeyword (α := α) hw.all_wordChars 0 w.toList.length
  have hplain := matches_plainIdentifier_iff (α := α) hfirst hc hw.all_wordChars
  rw [identifier, standalone_whole_iff, Matches, matchesAny_iff, EndsInKeyword, ← hplain]
  simp only [List.mem_cons, List.not_mem_nil, or_false, exists_eq_or_imp, exists_eq_left, hescaped,
    false_or]

/-- A keyword ends in a keyword. -/
theorem endsInKeyword_of_mem {w : String} (h : w ∈ keywordNames) : EndsInKeyword w :=
  ⟨w, h, List.suffix_rfl⟩

/-- Of the words, the keywords are matched as keywords and those that do not end in a keyword as identifiers.
So no word is matched as both, and a word is matched as one of the two unless it ends in a keyword that is not
all of it. -/
theorem identifier_or_keyword (w : String) (hw : IsWord w) :
    (keyword.Matches w.toList 0 w.length ↔ w ∈ keywordNames) ∧
    ((identifier : Pattern α).Matches w.toList 0 w.length ↔ ¬ EndsInKeyword w) ∧
    (((identifier : Pattern α).Matches w.toList 0 w.length ↔ ¬ keyword.Matches w.toList 0 w.length) ↔
      (EndsInKeyword w → w ∈ keywordNames)) := by
  have hkeyword := keyword_whole_iff w
  have hidentifier := identifier_whole_iff (α := α) hw
  rw [String.length_toList] at hkeyword hidentifier
  refine ⟨hkeyword, hidentifier, ?_⟩
  rw [hkeyword, hidentifier, not_iff_not]
  exact ⟨fun h => h.mp, fun h => ⟨h, endsInKeyword_of_mem⟩⟩

theorem isWord_iffy : IsWord "iffy" :=
  ⟨⟨'i', by decide, by decide⟩, by simp⟩

theorem isWord_while : IsWord "while" :=
  ⟨⟨'w', by decide, by decide⟩, by simp⟩

/-- A word that starts with a keyword is an identifier, and a keyword is none. -/
theorem identifier_or_keyword_iffy_while :
    IsWord "iffy" ∧ IsWord "while" ∧
    (identifier : Pattern Unit).Matches "iffy".toList 0 4 ∧ ¬ keyword.Matches "iffy".toList 0 4 ∧
    ¬ (identifier : Pattern Unit).Matches "while".toList 0 5 ∧ keyword.Matches "while".toList 0 5 := by
  obtain ⟨hkeyword, hidentifier, -⟩ := identifier_or_keyword (α := Unit) "iffy" isWord_iffy
  obtain ⟨hkeyword', hidentifier', -⟩ := identifier_or_keyword (α := Unit) "while" isWord_while
  have hwhile : "while" ∈ keywordNames := by decide +kernel
  refine ⟨isWord_iffy, isWord_while, hidentifier.mpr (by decide +kernel), ?_, ?_, hkeyword'.mpr hwhile⟩
  · intro hmatches
    exact absurd (hkeyword.mp hmatches) (by decide +kernel)
  · intro hmatches
    exact hidentifier'.mp hmatches (endsInKeyword_of_mem hwhile)

theorem isWord_undo : IsWord "undo" :=
  ⟨⟨'u', by decide, by decide⟩, by simp⟩

/-- A word that is neither an identifier nor a keyword. -/
theorem undo_not_identifier_not_keyword :
    IsWord "undo" ∧ ¬ (identifier : Pattern Unit).Matches "undo".toList 0 "undo".toList.length ∧
    ¬ keyword.Matches "undo".toList 0 "undo".toList.length := by
  refine ⟨isWord_undo, ?_, ?_⟩
  · intro hmatches
    apply (identifier_whole_iff isWord_undo).mp hmatches
    exact ⟨"do", by decide +kernel, by decide +kernel⟩
  · rw [keyword_whole_iff]
    decide +kernel

end TextMate.Lumen
