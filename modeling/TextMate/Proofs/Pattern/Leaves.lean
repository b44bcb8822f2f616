import TextMate.Pattern.CharClass
import TextMate.Proofs.Pattern.Constructible

/-!
# The leaves of an alternation

The leaves of a pattern are what is left of it after opening every alternation at its top. An alternation
can be written as one bracket expression if and only if all its leaves are classes of one polarity; the
bracket then holds the items of the leaves from left to right. `Pattern.bracketOf?` says so of a list of
leaves, and `mergedClass?_eq_bracketOf?` that the class of an alternation is found exactly then.

That is so of well-formed alternations. An alternation without alternatives has no leaves and yet keeps the
others from sharing a bracket, so of any trees whatever one also has to say that none of the alternations
that are opened is empty, `mergedClass?_eq_some_iff_filled`.
-/

namespace TextMate.Pattern

variable {α : Type}

/-! ## Leaves -/

mutual

def leaves : Pattern α → List (Pattern α)
  | .alt ps => leavesAll ps
  | .set polarity members => [.set polarity members]
  | .range polarity first last => [.range polarity first last]
  | .any => [.any]
  | .literal text => [.literal text]
  | .lineStart => [.lineStart]
  | .lineEnd => [.lineEnd]
  | .seq ps => [.seq ps]
  | .rep body min max => [.rep body min max]
  | .look side polarity body => [.look side polarity body]
  | .capture body label => [.capture body label]

def leavesAll : List (Pattern α) → List (Pattern α)
  | [] => []
  | p :: ps => leaves p ++ leavesAll ps

end

/-- `p.Opens qs` says that an alternation of `qs` is opened on the way from `p` to its leaves. -/
inductive Opens : Pattern α → List (Pattern α) → Prop
  | root (ps : List (Pattern α)) : Opens (.alt ps) ps
  | inside {ps qs : List (Pattern α)} {p : Pattern α} : p ∈ ps → Opens p qs → Opens (.alt ps) qs

/-- No alternation that is opened on the way to the leaves is empty. -/
def Filled (p : Pattern α) : Prop :=
  ∀ qs, p.Opens qs → qs ≠ []

/-- The members of a set or the bounds of a range, if it has the given polarity. -/
def classItems? (polarity : Polarity) : Pattern α → Option (List ClassItem)
  | .set polarity' members => if polarity' = polarity then some (members.toList.map .char) else none
  | .range polarity' first last => if polarity' = polarity then some [.range first last] else none
  | _ => none

/-- The items of sets and ranges that all have the given polarity. -/
def itemsOf? (polarity : Polarity) : List (Pattern α) → Option (List ClassItem)
  | [] => some []
  | p :: ps => do return (← classItems? polarity p) ++ (← itemsOf? polarity ps)

/-- One bracket expression for leaves that are all positive classes, or all negated ones. -/
def bracketOf? (leaves : List (Pattern α)) : Option CharClass :=
  match itemsOf? .positive leaves with
  | some items => some ⟨.positive, items⟩
  | none => (itemsOf? .negated leaves).map fun items => ⟨.negated, items⟩

/-! ## Items -/

theorem itemsOf?_cons_eq_some {polarity : Polarity} {p : Pattern α} {ps : List (Pattern α)}
    {items : List ClassItem} :
    itemsOf? polarity (p :: ps) = some items ↔
      ∃ a b, classItems? polarity p = some a ∧ itemsOf? polarity ps = some b ∧ items = a ++ b := by
  simp only [itemsOf?, Option.bind_eq_bind, Option.pure_def, Option.bind_eq_some_iff,
    Option.some.injEq]
  constructor
  · rintro ⟨a, ha, b, hb, rfl⟩
    exact ⟨a, b, ha, hb, rfl⟩
  · rintro ⟨a, b, ha, hb, rfl⟩
    exact ⟨a, ha, b, hb, rfl⟩

theorem itemsOf?_append_eq_some {polarity : Polarity} {ps qs : List (Pattern α)}
    {items : List ClassItem} :
    itemsOf? polarity (ps ++ qs) = some items ↔
      ∃ a b, itemsOf? polarity ps = some a ∧ itemsOf? polarity qs = some b ∧ items = a ++ b := by
  induction ps generalizing items with
  | nil => simp [itemsOf?]
  | cons p ps ih =>
    simp only [List.cons_append, itemsOf?_cons_eq_some, ih]
    constructor
    · rintro ⟨a, _, ha, ⟨b, c, hb, hc, rfl⟩, rfl⟩
      exact ⟨a ++ b, c, ⟨a, b, ha, hb, rfl⟩, hc, by simp⟩
    · rintro ⟨_, c, ⟨a, b, ha, hb, rfl⟩, hc, rfl⟩
      exact ⟨a, b ++ c, ha, ⟨b, c, hb, hc, rfl⟩, by simp⟩

theorem itemsOf?_singleton (polarity : Polarity) (p : Pattern α) :
    itemsOf? polarity [p] = classItems? polarity p := by
  simp [itemsOf?]

/-- What has items is a set or a range. -/
theorem classItems?_cases {polarity : Polarity} {p : Pattern α} {items : List ClassItem}
    (h : classItems? polarity p = some items) :
    (∃ members, p = .set polarity members ∧ items = members.toList.map .char) ∨
      ∃ first last, p = .range polarity first last ∧ items = [.range first last] := by
  cases p with
  | set polarity' members =>
    rw [classItems?, Option.ite_none_right_eq_some] at h
    obtain ⟨rfl, hitems⟩ := h
    cases hitems
    exact .inl ⟨members, rfl, rfl⟩
  | range polarity' first last =>
    rw [classItems?, Option.ite_none_right_eq_some] at h
    obtain ⟨rfl, hitems⟩ := h
    cases hitems
    exact .inr ⟨first, last, rfl, rfl⟩
  | any | literal | lineStart | lineEnd | alt | seq | rep | look | capture => cases h

/-- A leaf is not a class of both polarities. -/
theorem classItems?_negated {p : Pattern α} {items : List ClassItem}
    (h : classItems? .negated p = some items) : classItems? .positive p = none := by
  obtain ⟨members, rfl, -⟩ | ⟨first, last, rfl, -⟩ := classItems?_cases h
  · rfl
  · rfl

theorem bracketOf?_eq_some_iff {ps : List (Pattern α)} (hne : ps ≠ []) {c : CharClass} :
    bracketOf? ps = some c ↔ itemsOf? c.polarity ps = some c.items := by
  obtain ⟨polarity, items⟩ := c
  unfold bracketOf?
  cases polarity with
  | positive => cases itemsOf? .positive ps <;> simp
  | negated =>
    cases hpos : itemsOf? .positive ps with
    | none => simp
    | some items' =>
      -- the first leaf would be a class of both polarities
      obtain ⟨p, ps, rfl⟩ := List.exists_cons_of_ne_nil hne
      obtain ⟨a, b, ha, -, -⟩ := itemsOf?_cons_eq_some.mp hpos
      constructor
      · intro h
        cases h
      · intro h
        obtain ⟨a', b', ha', -, -⟩ := itemsOf?_cons_eq_some.mp h
        rw [classItems?_negated ha'] at ha
        cases ha

/-! ## Classes are found by their leaves -/

theorem merge?_eq_some_iff {a b c : CharClass} :
    a.merge? b = some c ↔
      a.polarity = c.polarity ∧ b.polarity = c.polarity ∧ c.items = a.items ++ b.items := by
  obtain ⟨polarity, items⟩ := c
  unfold CharClass.merge?
  by_cases h : a.polarity = b.polarity
  · rw [if_pos h]
    simp only [Option.some.injEq, CharClass.mk.injEq]
    grind
  · rw [if_neg h]
    grind

theorem filled_alt {ps : List (Pattern α)} :
    (Pattern.alt ps).Filled ↔ ps ≠ [] ∧ ∀ p ∈ ps, p.Filled := by
  constructor
  · intro h
    refine ⟨h ps (.root ps), ?_⟩
    intro p hp qs hqs
    exact h qs (.inside hp hqs)
  · rintro ⟨hne, hps⟩ qs hqs
    cases hqs with
    | root => exact hne
    | inside hp hqs => exact hps _ hp qs hqs

theorem filled_of_ne_alt {p : Pattern α} (h : ∀ ps, p ≠ .alt ps) : p.Filled := by
  intro qs hqs
  cases hqs with
  | root => exact absurd rfl (h _)
  | inside => exact absurd rfl (h _)

theorem WellFormed.filled {p : Pattern α} (h : p.WellFormed) : p.Filled := by
  intro qs hqs
  induction hqs with
  | root ps =>
    rintro rfl
    simp [WellFormed] at h
  | inside hp _ ih => exact ih (wellFormedAll_iff.mp h.2 _ hp)

mutual

/-- A pattern has a class if nothing empty is opened and its leaves are classes of one polarity. -/
theorem charClass?_eq_some_iff_filled : (p : Pattern α) → (c : CharClass) →
    (p.charClass? = some c ↔ p.Filled ∧ itemsOf? c.polarity p.leaves = some c.items)
  | .set polarity members, ⟨polarity', items⟩ => by
    have hfilled : (Pattern.set polarity members : Pattern α).Filled := filled_of_ne_alt (by simp)
    simp [hfilled, charClass?, leaves, itemsOf?_singleton, classItems?, CharClass.ofString]
  | .range polarity first last, ⟨polarity', items⟩ => by
    have hfilled : (Pattern.range polarity first last : Pattern α).Filled := filled_of_ne_alt (by simp)
    simp [hfilled, charClass?, leaves, itemsOf?_singleton, classItems?, CharClass.ofRange]
  | .alt [], c => by simp [charClass?, mergedClass?, filled_alt]
  | .alt (p :: ps), c => by
    have hne : p :: ps ≠ [] := List.cons_ne_nil p ps
    rw [charClass?, leaves, filled_alt, and_iff_right hne]
    exact mergedClass?_eq_some_iff_filled (p :: ps) hne c
  | .any, c => by simp [charClass?, leaves, itemsOf?_singleton, classItems?]
  | .literal _, c => by simp [charClass?, leaves, itemsOf?_singleton, classItems?]
  | .lineStart, c => by simp [charClass?, leaves, itemsOf?_singleton, classItems?]
  | .lineEnd, c => by simp [charClass?, leaves, itemsOf?_singleton, classItems?]
  | .seq _, c => by simp [charClass?, leaves, itemsOf?_singleton, classItems?]
  | .rep _ _ _, c => by simp [charClass?, leaves, itemsOf?_singleton, classItems?]
  | .look _ _ _, c => by simp [charClass?, leaves, itemsOf?_singleton, classItems?]
  | .capture _ _, c => by simp [charClass?, leaves, itemsOf?_singleton, classItems?]

theorem mergedClass?_eq_some_iff_filled : (ps : List (Pattern α)) → ps ≠ [] → (c : CharClass) →
    (mergedClass? ps = some c ↔
      (∀ p ∈ ps, p.Filled) ∧ itemsOf? c.polarity (leavesAll ps) = some c.items)
  | [], hne, _ => absurd rfl hne
  | [p], _, c => by
    simp [mergedClass?, leavesAll, charClass?_eq_some_iff_filled p c]
  | p :: q :: ps, _, c => by
    have hp := charClass?_eq_some_iff_filled p
    have hps := mergedClass?_eq_some_iff_filled (q :: ps) (by simp)
    rw [mergedClass?, leavesAll, itemsOf?_append_eq_some, List.forall_mem_cons]
    simp only [Option.bind_eq_bind, Option.bind_eq_some_iff, merge?_eq_some_iff]
    constructor
    · rintro ⟨a, ha, b, hb, hpa, hpb, hitems⟩
      rw [hp, hpa] at ha
      rw [hps, hpb] at hb
      exact ⟨⟨ha.1, hb.1⟩, a.items, b.items, ha.2, hb.2, hitems⟩
    · rintro ⟨⟨hfilled, hrest⟩, a, b, ha, hb, hitems⟩
      exact ⟨⟨c.polarity, a⟩, (hp _).mpr ⟨hfilled, ha⟩, ⟨c.polarity, b⟩, (hps _).mpr ⟨hrest, hb⟩, rfl, rfl,
        hitems⟩

end

/-- Of well-formed patterns, only the leaves decide. -/
theorem mergedClass?_eq_some_iff (ps : List (Pattern α)) (h : WellFormedAll ps) (hne : ps ≠ [])
    (c : CharClass) : mergedClass? ps = some c ↔ itemsOf? c.polarity (leavesAll ps) = some c.items := by
  have hfilled : ∀ p ∈ ps, p.Filled := by
    intro p hp
    exact (wellFormedAll_iff.mp h p hp).filled
  rw [mergedClass?_eq_some_iff_filled ps hne c, and_iff_right hfilled]

mutual

theorem leaves_ne_nil : (p : Pattern α) → p.WellFormed → p.leaves ≠ []
  | .alt ps, h => leavesAll_ne_nil ps h.2 (by rintro rfl; simp [WellFormed] at h)
  | .set _ _, _ => by simp [leaves]
  | .range _ _ _, _ => by simp [leaves]
  | .any, _ => by simp [leaves]
  | .literal _, _ => by simp [leaves]
  | .lineStart, _ => by simp [leaves]
  | .lineEnd, _ => by simp [leaves]
  | .seq _, _ => by simp [leaves]
  | .rep _ _ _, _ => by simp [leaves]
  | .look _ _ _, _ => by simp [leaves]
  | .capture _ _, _ => by simp [leaves]

theorem leavesAll_ne_nil : (ps : List (Pattern α)) → WellFormedAll ps → ps ≠ [] → leavesAll ps ≠ []
  | [], _, hne => absurd rfl hne
  | p :: ps, h, _ => by
    have hp := leaves_ne_nil p h.1
    simp [leavesAll, hp]

end

/-- The class of an alternation is the bracket of its leaves. -/
theorem mergedClass?_eq_bracketOf? {ps : List (Pattern α)} (h : (Pattern.alt ps).WellFormed) :
    mergedClass? ps = bracketOf? (leavesAll ps) := by
  have hne : ps ≠ [] := by
    rintro rfl
    simp [WellFormed] at h
  have hleaves := leavesAll_ne_nil ps h.2 hne
  ext c
  rw [mergedClass?_eq_some_iff ps h.2 hne c, bracketOf?_eq_some_iff hleaves]

end TextMate.Pattern
