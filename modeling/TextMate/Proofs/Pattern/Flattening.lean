import Mathlib.Data.List.Forall2
import TextMate.Proofs.Pattern.Survey
import TextMate.Proofs.Pattern.Text

/-!
# Nesting leaves no trace

A sequence inside a sequence is written in place, and so is an alternation inside an alternation, so the text
does not show how the members were nested. There is one exception: an alternation that is a class inside one
that is not keeps its brackets.

Nesting may be undone deep inside a pattern, where what stands around it decides on groups and on classes.
`Alike` collects all that its surroundings ever ask of a pattern. It holds of a nested pattern and its flat
form, passes from the members of a pattern to the pattern, and so from a hole to all of its context,
`Alike.fill`.
-/

namespace TextMate.Pattern

open Regex

variable {α : Type}

/-! ## Contexts -/

/-- A pattern with a hole in it. -/
inductive Context (α : Type) where
  | hole
  | alt (before : List (Pattern α)) (inside : Context α) (after : List (Pattern α))
  | seq (before : List (Pattern α)) (inside : Context α) (after : List (Pattern α))
  | rep (inside : Context α) (min : Nat) (max : Option Nat)
  | look (side : Side) (polarity : Polarity) (inside : Context α)
  | capture (inside : Context α) (label : α)

/-- The pattern with another one in the place of the hole. -/
def Context.fill : Context α → Pattern α → Pattern α
  | .hole, p => p
  | .alt before inside after, p => .alt (before ++ [inside.fill p] ++ after)
  | .seq before inside after, p => .seq (before ++ [inside.fill p] ++ after)
  | .rep inside min max, p => .rep (inside.fill p) min max
  | .look side polarity inside, p => .look side polarity (inside.fill p)
  | .capture inside label, p => .capture (inside.fill p) label

/-! ## Alike patterns -/

/-- Two patterns with the same text and labels, between which nothing that is written around them makes a
difference. -/
structure Alike (p q : Pattern α) : Prop where
  text_eq : p.text = q.text
  captures_eq : p.captures = q.captures
  charClass_eq : p.charClass? = q.charClass?
  isSeq_eq : p.isSeq = q.isSeq
  isOpenAlt_eq : p.isOpenAlt = q.isOpenAlt
  isLooseOperand_eq : p.isLooseOperand = q.isLooseOperand

theorem Alike.refl (p : Pattern α) : Alike p p :=
  ⟨rfl, rfl, rfl, rfl, rfl, rfl⟩

section

variable {ps qs : List (Pattern α)} (h : List.Forall₂ Alike ps qs)

include h

theorem capturesAll_congr : capturesAll ps = capturesAll qs := by
  induction h with
  | nil => rfl
  | cons hp _ ih => rw [capturesAll, capturesAll, hp.captures_eq, ih]

theorem membersText_congr : membersText ps = membersText qs := by
  induction h with
  | nil => rfl
  | cons hp _ ih => rw [membersText, membersText, hp.text_eq, hp.isOpenAlt_eq, ih]

theorem alternativesText_congr : alternativesText ps = alternativesText qs := by
  induction h with
  | nil => rfl
  | cons hp hps ih =>
    cases hps with
    | nil => rw [alternativesText, alternativesText, hp.text_eq, hp.isSeq_eq]
    | cons => rw [alternativesText, alternativesText, hp.text_eq, hp.isSeq_eq, ih]

theorem mergedClass?_congr : mergedClass? ps = mergedClass? qs := by
  induction h with
  | nil => rfl
  | cons hp hps ih =>
    cases hps with
    | nil => rw [mergedClass?, mergedClass?, hp.charClass_eq]
    | cons => rw [mergedClass?, mergedClass?, hp.charClass_eq, ih]

/-- An alternation of alike members, in whatever way its text is found. -/
theorem Alike.alt : Alike (.alt ps) (.alt qs) := by
  have hmerged := mergedClass?_congr h
  have hopen : isOpenAlt (.alt ps) = isOpenAlt (.alt qs) := by
    rw [isOpenAlt, isOpenAlt, hmerged]
  refine ⟨?_, capturesAll_congr h, hmerged, rfl, hopen, hopen⟩
  rw [text, text, hmerged, alternativesText_congr h]

theorem Alike.seq : Alike (.seq ps) (.seq qs) :=
  ⟨membersText_congr h, capturesAll_congr h, rfl, rfl, rfl, rfl⟩

end

section

variable {p q : Pattern α} (h : Alike p q)

include h

theorem Alike.rep (min : Nat) (max : Option Nat) : Alike (.rep p min max) (.rep q min max) := by
  refine ⟨?_, h.captures_eq, rfl, rfl, rfl, rfl⟩
  rw [text, text, h.text_eq, h.isLooseOperand_eq]

theorem Alike.look (side : Side) (polarity : Polarity) :
    Alike (.look side polarity p) (.look side polarity q) := by
  refine ⟨?_, h.captures_eq, rfl, rfl, rfl, rfl⟩
  rw [text, text, h.text_eq]

theorem Alike.capture (label : α) : Alike (.capture p label) (.capture q label) := by
  refine ⟨?_, ?_, rfl, rfl, rfl, rfl⟩
  · rw [text, text, h.text_eq]
  · rw [captures, captures, h.captures_eq]

/-- One member in the place of another that is alike. -/
theorem Alike.among (before after : List (Pattern α)) :
    List.Forall₂ Alike (before ++ [p] ++ after) (before ++ [q] ++ after) := by
  have hsame : ∀ ps : List (Pattern α), List.Forall₂ Alike ps ps :=
    fun ps => List.forall₂_same.mpr fun p _ => Alike.refl p
  exact List.rel_append (List.rel_append (hsame before) (.cons h .nil)) (hsame after)

/-- Patterns that are alike stay alike in every context. -/
theorem Alike.fill (context : Context α) : Alike (context.fill p) (context.fill q) := by
  induction context with
  | hole => exact h
  | alt before inside after ih => exact Alike.alt (ih.among before after)
  | seq before inside after ih => exact Alike.seq (ih.among before after)
  | rep inside min max ih => exact ih.rep min max
  | look side polarity inside ih => exact ih.look side polarity
  | capture inside label ih => exact ih.capture label

theorem Alike.regex_eq : p.regex = q.regex := by
  apply String.toList_injective
  rw [toList_regex, toList_regex, h.text_eq]

end

/-! ## Lists of members, one after the other -/

theorem capturesAll_append (ps qs : List (Pattern α)) :
    capturesAll (ps ++ qs) = capturesAll ps ++ capturesAll qs := by
  induction ps with
  | nil => rfl
  | cons p ps ih => rw [List.cons_append, capturesAll, capturesAll, ih, List.append_assoc]

theorem membersText_append (ps qs : List (Pattern α)) :
    membersText (ps ++ qs) = membersText ps ++ membersText qs := by
  induction ps with
  | nil => rfl
  | cons p ps ih => rw [List.cons_append, membersText, membersText, ih, List.append_assoc]

theorem alternativesText_cons (p : Pattern α) {ps : List (Pattern α)} (h : ps ≠ []) :
    alternativesText (p :: ps) = groupedText p.isSeq p.text ++ '|' :: alternativesText ps := by
  obtain ⟨q, ps, rfl⟩ := List.exists_cons_of_ne_nil h
  rfl

theorem alternativesText_append {ps qs : List (Pattern α)} (hps : ps ≠ []) (hqs : qs ≠ []) :
    alternativesText (ps ++ qs) = alternativesText ps ++ '|' :: alternativesText qs := by
  induction ps with
  | nil => exact absurd rfl hps
  | cons p ps ih =>
    by_cases hrest : ps = []
    · rw [hrest, List.singleton_append, alternativesText_cons p hqs]
      rfl
    · have happend : ps ++ qs ≠ [] := List.append_ne_nil_of_left_ne_nil hrest qs
      rw [List.cons_append, alternativesText_cons p happend, alternativesText_cons p hrest, ih hrest,
        List.append_assoc, List.cons_append]

theorem mergedClass?_cons (p : Pattern α) {ps : List (Pattern α)} (h : ps ≠ []) :
    mergedClass? (p :: ps) = p.charClass?.bind fun c => (mergedClass? ps).bind c.merge? := by
  obtain ⟨q, ps, rfl⟩ := List.exists_cons_of_ne_nil h
  rfl

/-- Merging three classes, it does not matter which two come first. -/
theorem merge?_assoc (a b c : CharClass) :
    (a.merge? b).bind (·.merge? c) = (b.merge? c).bind a.merge? := by
  obtain ⟨pa, as⟩ := a
  obtain ⟨pb, bs⟩ := b
  obtain ⟨pc, cs⟩ := c
  cases pa <;> cases pb <;> cases pc <;> simp [CharClass.merge?]

theorem mergedClass?_append {ps qs : List (Pattern α)} (hps : ps ≠ []) (hqs : qs ≠ []) :
    mergedClass? (ps ++ qs) = (mergedClass? ps).bind fun c => (mergedClass? qs).bind c.merge? := by
  induction ps with
  | nil => exact absurd rfl hps
  | cons p ps ih =>
    by_cases hrest : ps = []
    · rw [hrest, List.singleton_append, mergedClass?_cons p hqs, mergedClass?]
    · have happend : ps ++ qs ≠ [] := List.append_ne_nil_of_left_ne_nil hrest qs
      rw [List.cons_append, mergedClass?_cons p happend, mergedClass?_cons p hrest, ih hrest]
      cases p.charClass? with
      | none => rfl
      | some a =>
        cases mergedClass? ps with
        | none => rfl
        | some b =>
          cases mergedClass? qs with
          | none => simp
          | some c => exact (merge?_assoc a b c).symm

/-- What is found from the first member and from what is found for the others does not tell lists apart that
are alike after some members in front. -/
theorem append_congr {β : Type} {f : List (Pattern α) → β}
    (hcons : ∀ p ps qs, ps ≠ [] → qs ≠ [] → f ps = f qs → f (p :: ps) = f (p :: qs))
    {ps qs : List (Pattern α)} (hps : ps ≠ []) (hqs : qs ≠ []) (h : f ps = f qs)
    (front : List (Pattern α)) : f (front ++ ps) = f (front ++ qs) := by
  induction front with
  | nil => exact h
  | cons p front ih =>
    apply hcons p
    · exact List.append_ne_nil_of_right_ne_nil front hps
    · exact List.append_ne_nil_of_right_ne_nil front hqs
    · exact ih

/-! ## Flat forms -/

section

variable (xs ys zs : List (Pattern α))

/-- A sequence in a sequence is alike to its members in its place. -/
theorem alike_seq : Alike (.seq (xs ++ [seq ys] ++ zs)) (.seq (xs ++ ys ++ zs)) := by
  refine ⟨?_, ?_, rfl, rfl, rfl, rfl⟩
  · rw [text, text]
    simp only [membersText_append]
    have hinner : membersText [Pattern.seq ys] = membersText ys := List.append_nil _
    rw [hinner]
  · rw [captures, captures]
    simp only [capturesAll_append]
    have hinner : capturesAll [Pattern.seq ys] = capturesAll ys := List.append_nil _
    rw [hinner]

variable {ys} (hys : ys ≠ [])

include hys

/-- An alternation and its members in its place merge into the same class, or both do not merge. -/
theorem mergedClass?_nested :
    mergedClass? (xs ++ [alt ys] ++ zs) = mergedClass? (xs ++ ys ++ zs) := by
  rw [List.append_assoc, List.append_assoc]
  apply append_congr
  · intro p ps qs hps hqs heq
    rw [mergedClass?_cons p hps, mergedClass?_cons p hqs, heq]
  · exact List.cons_ne_nil _ _
  · exact List.append_ne_nil_of_left_ne_nil hys zs
  · rw [List.singleton_append]
    by_cases hzs : zs = []
    · rw [hzs, List.append_nil, mergedClass?, charClass?]
    · rw [mergedClass?_cons _ hzs, mergedClass?_append hys hzs, charClass?]

/-- The bars between alternatives do not show where an alternation that is no class begins and ends. -/
theorem alternativesText_nested (hopen : mergedClass? ys = none) :
    alternativesText (xs ++ [alt ys] ++ zs) = alternativesText (xs ++ ys ++ zs) := by
  have hinner : groupedText (Pattern.alt ys).isSeq (Pattern.alt ys).text = alternativesText ys := by
    rw [text, hopen]
    rfl
  rw [List.append_assoc, List.append_assoc]
  apply append_congr
  · intro p ps qs hps hqs heq
    rw [alternativesText_cons p hps, alternativesText_cons p hqs, heq]
  · exact List.cons_ne_nil _ _
  · exact List.append_ne_nil_of_left_ne_nil hys zs
  · rw [List.singleton_append]
    by_cases hzs : zs = []
    · rw [hzs, List.append_nil, alternativesText, hinner]
    · rw [alternativesText_cons _ hzs, alternativesText_append hys hzs, hinner]

/-- An alternation in an alternation is alike to its members in its place, unless it is a class and the
outer one is not. -/
theorem alike_alt
    (hclass : mergedClass? ys = none ∨ (mergedClass? (xs ++ [alt ys] ++ zs)).isSome) :
    Alike (.alt (xs ++ [alt ys] ++ zs)) (.alt (xs ++ ys ++ zs)) := by
  have hmerged := mergedClass?_nested xs zs hys
  have hopen : isOpenAlt (.alt (xs ++ [alt ys] ++ zs)) = isOpenAlt (.alt (xs ++ ys ++ zs)) := by
    rw [isOpenAlt, isOpenAlt, hmerged]
  refine ⟨?_, ?_, hmerged, rfl, hopen, hopen⟩
  · rw [text, text, ← hmerged]
    cases houter : mergedClass? (xs ++ [alt ys] ++ zs) with
    | some c => rfl
    | none =>
      have hinner : mergedClass? ys = none := by
        rcases hclass with hinner | hsome
        · exact hinner
        · rw [houter] at hsome
          cases hsome
      exact alternativesText_nested xs zs hys hinner
  · rw [captures, captures]
    simp only [capturesAll_append]
    have hinner : capturesAll [Pattern.alt ys] = capturesAll ys := List.append_nil _
    rw [hinner]

end

/-- Anywhere inside a pattern, a sequence in a sequence may be replaced by its members, and so may an
alternation in an alternation that is not empty and either is no class or stands in one: the text and the
labels of the whole pattern stay as they are. -/
theorem regex_fill_flat (context : Context α) (xs ys zs : List (Pattern α)) :
    ((context.fill (.seq (xs ++ [seq ys] ++ zs))).regex = (context.fill (.seq (xs ++ ys ++ zs))).regex ∧
      (context.fill (.seq (xs ++ [seq ys] ++ zs))).captures =
        (context.fill (.seq (xs ++ ys ++ zs))).captures) ∧
    (ys ≠ [] → survey ys = none ∨ (survey (xs ++ [alt ys] ++ zs)).isSome →
      (context.fill (.alt (xs ++ [alt ys] ++ zs))).regex =
        (context.fill (.alt (xs ++ ys ++ zs))).regex ∧
      (context.fill (.alt (xs ++ [alt ys] ++ zs))).captures =
        (context.fill (.alt (xs ++ ys ++ zs))).captures) := by
  refine ⟨?_, ?_⟩
  · have halike := (alike_seq xs ys zs).fill context
    exact ⟨halike.regex_eq, halike.captures_eq⟩
  · intro hys hsurvey
    rw [survey_eq, survey_eq, Option.map_eq_none_iff, Option.isSome_map] at hsurvey
    have halike := (alike_alt xs zs hys hsurvey).fill context
    exact ⟨halike.regex_eq, halike.captures_eq⟩

/-- A captured part that may be repeated. -/
def repeatedCapture : Context Unit :=
  .rep (.capture .hole ()) 1 none

/-- Alternatives that are no class together. -/
def wordOrDigit : List (Pattern Unit) :=
  [.literal "do", .range .positive '0' '9']

/-- Alternatives that are a class together. -/
def letterOrDash : List (Pattern Unit) :=
  [.range .positive 'a' 'z', .set .positive "-"]

theorem regex_fill_flat_repeatedCapture :
    (wordOrDigit ≠ [] ∧ survey wordOrDigit = none ∧
      (repeatedCapture.fill (.alt ([literal "if"] ++ [alt wordOrDigit] ++ [any]))).regex =
        (repeatedCapture.fill (.alt ([literal "if"] ++ wordOrDigit ++ [any]))).regex) ∧
    (letterOrDash ≠ [] ∧ (survey ([set .positive "_"] ++ [alt letterOrDash] ++ [])).isSome ∧
      (repeatedCapture.fill (.alt ([set .positive "_"] ++ [alt letterOrDash] ++ []))).regex =
        (repeatedCapture.fill (.alt ([set .positive "_"] ++ letterOrDash ++ []))).regex) := by
  have hopen : survey wordOrDigit = none := rfl
  have hclass : (survey ([set .positive "_"] ++ [alt letterOrDash] ++ [])).isSome := rfl
  refine ⟨⟨List.cons_ne_nil _ _, hopen, ?_⟩, ⟨List.cons_ne_nil _ _, hclass, ?_⟩⟩
  · have hflat := regex_fill_flat repeatedCapture [literal "if"] wordOrDigit [any]
    exact (hflat.2 (List.cons_ne_nil _ _) (.inl hopen)).1
  · have hflat := regex_fill_flat repeatedCapture [set .positive "_"] letterOrDash []
    exact (hflat.2 (List.cons_ne_nil _ _) (.inr hclass)).1

/-- A class in an alternation that is none keeps its brackets. -/
example :
    (Pattern.alt [.literal "ab", .alt [.set .positive "c", .set .positive "d"]] : Pattern Unit).regex =
        "ab|[cd]" ∧
      (Pattern.alt [.literal "ab", .set .positive "c", .set .positive "d"] : Pattern Unit).regex =
        "ab|c|d" := by
  decide +kernel

end TextMate.Pattern
