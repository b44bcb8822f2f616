import TextMate.Pattern.Checked

/-!
# What the constructors build

`Constructible p` says that `p` comes from the constructors, each applied to what the constructors built
before. The ones that check their arguments appear with the outcome they had to have. What they build is
well formed (`Constructible.wellFormed`), and they build all that is (`constructible`).
-/

namespace TextMate.Pattern

variable {α : Type}

/-- The patterns that the constructors build. -/
inductive Constructible : Pattern α → Prop
  | oneOf {members p} : Pattern.oneOf members = .ok p → Constructible p
  | noneOf {members p} : Pattern.noneOf members = .ok p → Constructible p
  | char (c) : Constructible (Pattern.char c)
  | inRange {first last p} : Pattern.inRange first last = .ok p → Constructible p
  | outsideRange {first last p} : Pattern.outsideRange first last = .ok p → Constructible p
  | any : Constructible .any
  | literal (text) : Constructible (.literal text)
  | lineStart : Constructible .lineStart
  | lineEnd : Constructible .lineEnd
  | anyOf {ps p} : (∀ q ∈ ps, Constructible q) → Pattern.anyOf ps = .ok p → Constructible p
  | sequence {ps p} : (∀ q ∈ ps, Constructible q) → Pattern.sequence ps = .ok p → Constructible p
  | repeated {body min max p} : Constructible body → body.repeated min max = .ok p → Constructible p
  | atLeast {body} (min) : Constructible body → Constructible (body.atLeast min)
  | exactly {body} (times) : Constructible body → Constructible (body.exactly times)
  | optional {body} : Constructible body → Constructible body.optional
  | zeroOrMore {body} : Constructible body → Constructible body.zeroOrMore
  | oneOrMore {body} : Constructible body → Constructible body.oneOrMore
  | look {body} (side polarity) : Constructible body → Constructible (.look side polarity body)
  | capture {body} (label) : Constructible body → Constructible (.capture body label)

/-! ## Checks -/

/-- No character is found again if and only if there is no character twice. -/
theorem findRepeat_eq_none_iff {seen rest : List Char} :
    findRepeat seen rest = none ↔ rest.Nodup ∧ ∀ c ∈ rest, c ∉ seen := by
  induction rest generalizing seen with
  | nil => simp [findRepeat]
  | cons c rest ih =>
    rw [findRepeat]
    cases hc : seen.idxOf? c with
    | some first =>
      have hmem : c ∈ seen := by
        by_cases hmem : c ∈ seen
        · exact hmem
        · rw [List.idxOf?_eq_none_iff.mpr hmem] at hc
          cases hc
      constructor
      · intro h
        cases h
      · rintro ⟨-, hfresh⟩
        exact absurd hmem (hfresh c (by simp))
    | none =>
      have hmem : c ∉ seen := List.idxOf?_eq_none_iff.mp hc
      simp only [ih, List.nodup_cons, List.mem_append, List.mem_cons]
      grind

theorem checkSet_eq_ok_iff {members : String} :
    checkSet members = .ok () ↔ members.toList ≠ [] ∧ members.toList.Nodup := by
  unfold checkSet
  have hempty : members.isEmpty = true ↔ members.toList = [] := by
    simp
  by_cases h : members.isEmpty
  · simp [h, hempty.mp h]
  · have hne : members.toList ≠ [] := fun hnil => h (hempty.mpr hnil)
    rw [if_neg h]
    cases hfind : findRepeat [] members.toList with
    | none =>
      have hnodup := (findRepeat_eq_none_iff.mp hfind).1
      simp [hne, hnodup]
    | some found =>
      have hdup : ¬ members.toList.Nodup := by
        intro hnodup
        rw [findRepeat_eq_none_iff.mpr ⟨hnodup, by simp⟩] at hfind
        cases hfind
      simp [hdup]

theorem checkRange_eq_ok_iff {first last : Char} : checkRange first last = .ok () ↔ first < last := by
  unfold checkRange
  split
  · next h => simp [h]
  · next h => simp [h]

theorem wellFormedAll_iff {ps : List (Pattern α)} : WellFormedAll ps ↔ ∀ p ∈ ps, p.WellFormed := by
  induction ps with
  | nil => simp [WellFormedAll]
  | cons p ps ih => simp [WellFormedAll, ih]

/-! ## Well-formedness -/

/-- An action after a check succeeds only if the check does. -/
theorem ok_of_check {check : Except Error Unit} {p q : Pattern α}
    (h : (do check; return q) = Except.ok p) : check = .ok () ∧ p = q := by
  cases check with
  | error e => cases h
  | ok u =>
    cases h
    exact ⟨rfl, rfl⟩

theorem Constructible.wellFormed {p : Pattern α} (h : Constructible p) : p.WellFormed := by
  induction h with
  | oneOf h =>
    obtain ⟨hcheck, rfl⟩ := ok_of_check h
    exact checkSet_eq_ok_iff.mp hcheck
  | noneOf h =>
    obtain ⟨hcheck, rfl⟩ := ok_of_check h
    exact checkSet_eq_ok_iff.mp hcheck
  | char c => simp [Pattern.char, WellFormed]
  | inRange h =>
    obtain ⟨hcheck, rfl⟩ := ok_of_check h
    exact checkRange_eq_ok_iff.mp hcheck
  | outsideRange h =>
    obtain ⟨hcheck, rfl⟩ := ok_of_check h
    exact checkRange_eq_ok_iff.mp hcheck
  | any => trivial
  | literal text => trivial
  | lineStart => trivial
  | lineEnd => trivial
  | anyOf _ h ih =>
    unfold Pattern.anyOf at h
    split at h
    · cases h
    · next hlength =>
      cases h
      exact ⟨Nat.le_of_not_lt hlength, wellFormedAll_iff.mpr ih⟩
  | sequence _ h ih =>
    unfold Pattern.sequence at h
    split at h
    · cases h
    · next hlength =>
      cases h
      exact ⟨Nat.le_of_not_lt hlength, wellFormedAll_iff.mpr ih⟩
  | repeated _ h ih =>
    unfold Pattern.repeated at h
    split at h
    · cases h
    · next hbounds =>
      cases h
      refine ⟨?_, ih⟩
      intro bound hbound
      cases hbound
      exact Nat.le_of_not_lt hbounds
  | atLeast min _ ih => exact ⟨by simp, ih⟩
  | exactly times _ ih => exact ⟨by simp, ih⟩
  | optional _ ih => exact ⟨by simp, ih⟩
  | zeroOrMore _ ih => exact ⟨by simp, ih⟩
  | oneOrMore _ ih => exact ⟨by simp, ih⟩
  | look side polarity _ ih => exact ih
  | capture label _ ih => exact ih

/-! ## Completeness -/

theorem constructible_set (polarity : Polarity) {members : String} (hne : members.toList ≠ [])
    (hnodup : members.toList.Nodup) : Constructible (.set polarity members : Pattern α) := by
  have hcheck := checkSet_eq_ok_iff.mpr ⟨hne, hnodup⟩
  cases polarity with
  | positive => exact .oneOf (show Pattern.oneOf members = _ by rw [Pattern.oneOf, hcheck]; rfl)
  | negated => exact .noneOf (show Pattern.noneOf members = _ by rw [Pattern.noneOf, hcheck]; rfl)

theorem constructible_range (polarity : Polarity) {first last : Char} (h : first < last) :
    Constructible (.range polarity first last : Pattern α) := by
  have hcheck := checkRange_eq_ok_iff.mpr h
  cases polarity with
  | positive => exact .inRange (show Pattern.inRange first last = _ by rw [Pattern.inRange, hcheck]; rfl)
  | negated =>
    exact .outsideRange (show Pattern.outsideRange first last = _ by rw [Pattern.outsideRange, hcheck]; rfl)

theorem constructible_rep {body : Pattern α} (h : Constructible body) {min : Nat} {max : Option Nat}
    (hbounds : ∀ bound ∈ max, min ≤ bound) : Constructible (.rep body min max) := by
  cases max with
  | none => exact .atLeast min h
  | some max => exact .repeated h (if_neg (Nat.not_lt_of_le (hbounds max rfl)))

mutual

theorem constructible : (p : Pattern α) → p.WellFormed → Constructible p
  | .set polarity _, h => constructible_set polarity h.1 h.2
  | .range polarity _ _, h => constructible_range polarity h
  | .any, _ => .any
  | .literal text, _ => .literal text
  | .lineStart, _ => .lineStart
  | .lineEnd, _ => .lineEnd
  | .alt ps, h => .anyOf (constructibleAll ps h.2) (if_neg (Nat.not_lt_of_le h.1))
  | .seq ps, h => .sequence (constructibleAll ps h.2) (if_neg (Nat.not_lt_of_le h.1))
  | .rep body _ _, h => constructible_rep (constructible body h.2) h.1
  | .look side polarity body, h => .look side polarity (constructible body h)
  | .capture body label, h => .capture label (constructible body h)

theorem constructibleAll : (ps : List (Pattern α)) → WellFormedAll ps → ∀ p ∈ ps, Constructible p
  | [], _, p, hp => by simp at hp
  | q :: ps, h, p, hp => by
    have hq := constructible q h.1
    have hps := constructibleAll ps h.2
    rcases List.mem_cons.mp hp with rfl | hp
    · exact hq
    · exact hps p hp

end

end TextMate.Pattern
