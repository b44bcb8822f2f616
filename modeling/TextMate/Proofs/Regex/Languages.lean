import Mathlib.Computability.Language
import TextMate.Proofs.Regex.Spans

/-!
# Matches as words of a language

A pattern that looks at nothing but the characters it takes has a language: it matches a stretch of a text
if and only if the stretch is a word of the language, wherever it stands and whatever stands around it.
`Span.word s l` are the stretches of `s` that are words of `l`. The operations from which matches are built
are then the operations on languages: a sequence is a product, an alternation a sum, and a repetition
without bounds a star. For the whole text nothing but the language is left, `word_whole_iff`.
-/

namespace TextMate

open scoped Computability

/-- The words that have a property. -/
def wordsWith (P : List Char → Prop) : Language Char :=
  {w | P w}

@[simp] theorem mem_wordsWith {P : List Char → Prop} {w : List Char} : w ∈ wordsWith P ↔ P w :=
  Iff.rfl

/-- The words of one character, with a property. -/
def oneChar (p : Char → Prop) : Language Char :=
  wordsWith fun w => ∃ c, w = [c] ∧ p c

theorem mem_oneChar {p : Char → Prop} {w : List Char} : w ∈ oneChar p ↔ ∃ c, w = [c] ∧ p c :=
  Iff.rfl

/-- The language of one word. -/
def oneWord (word : List Char) : Language Char :=
  wordsWith fun w => w = word

theorem mem_oneWord {v w : List Char} : w ∈ oneWord v ↔ w = v :=
  Iff.rfl

theorem oneChar_add_oneChar (p q : Char → Prop) :
    oneChar p + oneChar q = oneChar fun c => p c ∨ q c := by
  apply Language.ext
  intro w
  rw [Language.mem_add, mem_oneChar, mem_oneChar, mem_oneChar]
  grind

namespace Span

/-- The stretches of a text that are words of a language. -/
def word (s : List Char) (l : Language Char) : Span :=
  fun i j => ∃ w ∈ l, w <+: s.drop i ∧ j = i + w.length

variable (s : List Char)

/-- The whole text is matched if and only if it is a word. -/
theorem word_whole_iff (l : Language Char) : word s l 0 s.length ↔ s ∈ l := by
  constructor
  · rintro ⟨w, hw, hhead, hlength⟩
    rw [List.drop_zero] at hhead
    have hwhole : w = s := hhead.eq_of_length (by omega)
    rwa [hwhole] at hw
  · intro hs
    exact ⟨s, hs, by simp, by simp⟩

theorem one_eq_word (p : Char → Prop) : one s p = word s (oneChar p) := by
  apply ext
  intro i j
  constructor
  · rintro ⟨rfl, c, hc, hp⟩
    refine ⟨[c], ⟨c, rfl, hp⟩, ?_, rfl⟩
    obtain ⟨hi, rfl⟩ := List.getElem?_eq_some_iff.mp hc
    rw [List.drop_eq_getElem_cons hi]
    exact ⟨s.drop (i + 1), rfl⟩
  · rintro ⟨_, ⟨c, rfl, hp⟩, ⟨rest, hrest⟩, rfl⟩
    refine ⟨rfl, c, ?_, hp⟩
    have hhead : (s.drop i)[0]? = some c := by
      rw [← hrest]
      rfl
    rwa [List.getElem?_drop, Nat.add_zero] at hhead

theorem skip_eq_word : skip = word s 1 := by
  apply ext
  intro i j
  constructor
  · rintro ⟨rfl, -⟩
    exact ⟨[], Language.nil_mem_one, List.nil_prefix, rfl⟩
  · rintro ⟨w, hw, -, rfl⟩
    rw [Language.mem_one] at hw
    subst hw
    exact ⟨rfl, trivial⟩

theorem never_eq_word : never = word s 0 := by
  apply ext
  intro i j
  constructor
  · intro h
    cases h
  · rintro ⟨w, hw, -⟩
    exact absurd hw (Language.notMem_zero w)

theorem word_comp_word (l m : Language Char) : (word s l).comp (word s m) = word s (l * m) := by
  apply ext
  intro i k
  constructor
  · rintro ⟨_, ⟨v, hv, hfirst, rfl⟩, w, hw, hsecond, rfl⟩
    refine ⟨v ++ w, Language.append_mem_mul hv hw, ?_, by simp; omega⟩
    obtain ⟨rest, hrest⟩ := hfirst
    rw [← List.drop_drop, ← hrest, List.drop_left] at hsecond
    rw [← hrest]
    exact (List.prefix_append_right_inj v).mpr hsecond
  · rintro ⟨_, hmem, hhead, rfl⟩
    obtain ⟨v, hv, w, hw, rfl⟩ := Language.mem_mul.mp hmem
    have hfirst : v <+: s.drop i := (List.prefix_append v w).trans hhead
    refine ⟨i + v.length, ⟨v, hv, hfirst, rfl⟩, w, hw, ?_, by simp; omega⟩
    obtain ⟨rest, hrest⟩ := hfirst
    rw [← hrest] at hhead
    rw [← List.drop_drop, ← hrest, List.drop_left]
    exact (List.prefix_append_right_inj v).mp hhead

theorem word_union_word (l m : Language Char) : (word s l).union (word s m) = word s (l + m) := by
  apply ext
  intro i j
  constructor
  · rintro (⟨w, hw, hrest⟩ | ⟨w, hw, hrest⟩)
    · exact ⟨w, .inl hw, hrest⟩
    · exact ⟨w, .inr hw, hrest⟩
  · rintro ⟨w, hw | hw, hrest⟩
    · exact .inl ⟨w, hw, hrest⟩
    · exact .inr ⟨w, hw, hrest⟩

theorem power_word (l : Language Char) (n : Nat) : (word s l).power n = word s (l ^ n) := by
  induction n with
  | zero => rw [power, pow_zero, skip_eq_word s]
  | succ n ih => rw [power, ih, word_comp_word, pow_succ']

theorem between_word_star (l : Language Char) : (word s l).between 0 none = word s l∗ := by
  apply ext
  intro i j
  rw [Language.kstar_eq_iSup_pow]
  constructor
  · rintro ⟨n, -, -, hpower⟩
    rw [power_word] at hpower
    obtain ⟨w, hw, hrest⟩ := hpower
    exact ⟨w, Language.mem_iSup.mpr ⟨n, hw⟩, hrest⟩
  · rintro ⟨w, hw, hrest⟩
    obtain ⟨n, hn⟩ := Language.mem_iSup.mp hw
    refine ⟨n, Nat.zero_le n, by simp, ?_⟩
    rw [power_word]
    exact ⟨w, hn, hrest⟩

theorem between_word_optional (l : Language Char) :
    (word s l).between 0 (some 1) = word s (1 + l) := by
  rw [← word_union_word, ← skip_eq_word]
  apply ext
  intro i j
  constructor
  · rintro ⟨n, -, hbound, hpower⟩
    have hn : n = 0 ∨ n = 1 := by
      have hle := hbound 1 rfl
      omega
    rcases hn with rfl | rfl
    · exact .inl hpower
    · rw [power, power, comp_skip] at hpower
      exact .inr hpower
  · rintro (hskip | hword)
    · exact ⟨0, Nat.zero_le 0, by simp, hskip⟩
    · refine ⟨1, Nat.zero_le 1, by simp, ?_⟩
      rw [power, power, comp_skip]
      exact hword

end Span

namespace Pattern

variable {α : Type}

/-- In every text, the pattern matches the stretches that are words of the language. -/
def HasLanguage (p : Pattern α) (l : Language Char) : Prop :=
  ∀ s, p.Matches s = .word s l

theorem hasLanguage_set (members : String) :
    (set .positive members : Pattern α).HasLanguage (oneChar (· ∈ members.toList)) :=
  fun s => Span.one_eq_word s _

theorem hasLanguage_range (first last : Char) :
    (range .positive first last : Pattern α).HasLanguage (oneChar fun c => first ≤ c ∧ c ≤ last) :=
  fun s => Span.one_eq_word s _

theorem hasLanguage_literal (text : String) :
    (literal text : Pattern α).HasLanguage (oneWord text.toList) := by
  intro s
  apply Span.ext
  intro i j
  constructor
  · rintro ⟨rfl, hhead⟩
    exact ⟨text.toList, rfl, hhead, rfl⟩
  · rintro ⟨_, rfl, hhead, rfl⟩
    exact ⟨rfl, hhead⟩

namespace HasLanguage

variable {p : Pattern α} {ps : List (Pattern α)} {l : Language Char} {ls : List (Language Char)}

theorem whole_iff (h : p.HasLanguage l) (s : List Char) : p.Matches s 0 s.length ↔ s ∈ l := by
  rw [h s, Span.word_whole_iff]

/-- The language may be given by a property of its words. -/
theorem of_mem_iff {P : List Char → Prop} (h : p.HasLanguage l) (hl : ∀ w, w ∈ l ↔ P w) :
    p.HasLanguage (wordsWith P) := by
  have heq : l = wordsWith P := Language.ext hl
  rwa [← heq]

theorem optional (h : p.HasLanguage l) : p.optional.HasLanguage (1 + l) := by
  intro s
  rw [Pattern.optional, Matches, h s, Span.between_word_optional]

theorem zeroOrMore (h : p.HasLanguage l) : p.zeroOrMore.HasLanguage l∗ := by
  intro s
  rw [Pattern.zeroOrMore, atLeast, Matches, h s, Span.between_word_star]

theorem seq (h : List.Forall₂ HasLanguage ps ls) : (Pattern.seq ps).HasLanguage ls.prod := by
  intro s
  rw [Matches]
  induction h with
  | nil => rw [MatchesInTurn, List.prod_nil, Span.skip_eq_word s]
  | cons hp _ ih => rw [MatchesInTurn, List.prod_cons, hp s, ih, Span.word_comp_word]

theorem alt (h : List.Forall₂ HasLanguage ps ls) : (Pattern.alt ps).HasLanguage ls.sum := by
  intro s
  rw [Matches]
  induction h with
  | nil => rw [MatchesAny, List.sum_nil, Span.never_eq_word s]
  | cons hp _ ih => rw [MatchesAny, List.sum_cons, hp s, ih, Span.word_union_word]

end HasLanguage

end Pattern

end TextMate
