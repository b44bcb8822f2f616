import TextMate.Proofs.Regex.Emission

/-!
# What a pattern matches, its regular expression matches

A pattern, a shape and a derivation each say which stretches of a text they match, as a relation between the
position where a match starts and the position where it ends. The three are defined apart, from the same few
operations on such relations.

That writing a pattern keeps its matches takes three steps: a derivation matches what its shape does,
flattening a shape changes nothing, and a pattern matches what its shape does. The last one needs that no
alternation is written as a negated bracket: an alternation of negated classes matches a character that *one*
of them admits, and the bracket a character that *all* of them do.
-/

namespace TextMate

/-! ## Stretches of a text -/

/-- Where a match starts and where it ends. -/
abbrev Span := Nat → Nat → Prop

def Polarity.Holds : Polarity → Prop → Prop
  | .positive, h => h
  | .negated, h => ¬ h

namespace Span

/-- One character of the text, with a property. -/
def one (s : List Char) (p : Char → Prop) : Span :=
  fun i j => j = i + 1 ∧ ∃ c, s[i]? = some c ∧ p c

/-- Nothing, at a position with a property. -/
def here (p : Nat → Prop) : Span :=
  fun i j => j = i ∧ p i

def skip : Span :=
  here fun _ => True

def never : Span :=
  fun _ _ => False

def comp (r q : Span) : Span :=
  fun i k => ∃ j, r i j ∧ q j k

def union (r q : Span) : Span :=
  fun i j => r i j ∨ q i j

def power (r : Span) : Nat → Span
  | 0 => skip
  | n + 1 => r.comp (power r n)

/-- As many times in a row as the bounds allow. -/
def between (r : Span) (min : Nat) (max : Option Nat) : Span :=
  fun i j => ∃ n, min ≤ n ∧ (∀ bound ∈ max, n ≤ bound) ∧ r.power n i j

/-- Nothing, where something does, or does not, match ahead of the position or behind it. -/
def look (side : Side) (polarity : Polarity) (r : Span) : Span :=
  here fun i => polarity.Holds (∃ k, match side with
    | .ahead => r i k
    | .behind => r k i)

/-- The start of a line. -/
def lineStart (s : List Char) : Span :=
  here fun i => i = 0 ∨ s[i - 1]? = some '\n'

/-- The end of a line. -/
def lineEnd (s : List Char) : Span :=
  here fun i => i = s.length ∨ s[i]? = some '\n'

theorem ext {r q : Span} (h : ∀ i j, r i j ↔ q i j) : r = q :=
  funext fun i => funext fun j => propext (h i j)

theorem skip_comp (r : Span) : skip.comp r = r := by
  apply ext
  intro i j
  constructor
  · rintro ⟨_, ⟨rfl, -⟩, h⟩
    exact h
  · intro h
    exact ⟨i, ⟨rfl, trivial⟩, h⟩

theorem comp_skip (r : Span) : r.comp skip = r := by
  apply ext
  intro i j
  constructor
  · rintro ⟨_, h, rfl, -⟩
    exact h
  · intro h
    exact ⟨j, h, rfl, trivial⟩

theorem comp_assoc (r q u : Span) : (r.comp q).comp u = r.comp (q.comp u) := by
  apply ext
  intro i l
  constructor
  · rintro ⟨k, ⟨j, hr, hq⟩, hu⟩
    exact ⟨j, hr, k, hq, hu⟩
  · rintro ⟨j, hr, k, hq, hu⟩
    exact ⟨k, ⟨j, hr, hq⟩, hu⟩

theorem never_union (r : Span) : never.union r = r :=
  ext fun _ _ => ⟨fun h => h.resolve_left id, .inr⟩

theorem union_never (r : Span) : r.union never = r :=
  ext fun _ _ => ⟨fun h => h.resolve_right id, .inl⟩

theorem union_assoc (r q u : Span) : (r.union q).union u = r.union (q.union u) :=
  ext fun _ _ => or_assoc

theorem one_union_one (s : List Char) (p q : Char → Prop) :
    (one s p).union (one s q) = one s fun c => p c ∨ q c := by
  apply ext
  intro i j
  simp only [union, one]
  grind

end Span

/-! ## Patterns -/

/-- The characters that an item admits. -/
def ClassItem.Admits : ClassItem → Char → Prop
  | .char c, d => d = c
  | .range first last, d => first ≤ d ∧ d ≤ last

namespace Pattern

variable {α : Type}

mutual

/-- The stretches of `s` that a pattern matches. -/
def Matches (s : List Char) : Pattern α → Span
  | .set polarity members => .one s fun c => polarity.Holds (c ∈ members.toList)
  | .range polarity first last => .one s fun c => polarity.Holds (first ≤ c ∧ c ≤ last)
  | .any => .one s fun _ => True
  | .literal text => fun i j => j = i + text.toList.length ∧ text.toList <+: s.drop i
  | .lineStart => .lineStart s
  | .lineEnd => .lineEnd s
  | .alt ps => MatchesAny s ps
  | .seq ps => MatchesInTurn s ps
  | .rep body min max => (Matches s body).between min max
  | .look side polarity body => (Matches s body).look side polarity
  | .capture body _ => Matches s body

/-- What at least one of the patterns matches. -/
def MatchesAny (s : List Char) : List (Pattern α) → Span
  | [] => .never
  | p :: ps => (Matches s p).union (MatchesAny s ps)

/-- What the patterns match one after the other. -/
def MatchesInTurn (s : List Char) : List (Pattern α) → Span
  | [] => .skip
  | p :: ps => (Matches s p).comp (MatchesInTurn s ps)

end

mutual

/-- No alternation in the pattern is a negated class. -/
def NoNegatedAlt : Pattern α → Prop
  | .alt ps => (∀ c ∈ mergedClass? ps, c.polarity = .positive) ∧ NoNegatedAltAll ps
  | .seq ps => NoNegatedAltAll ps
  | .rep body _ _ | .look _ _ body | .capture body _ => NoNegatedAlt body
  | .set _ _ | .range _ _ _ | .any | .literal _ | .lineStart | .lineEnd => True

def NoNegatedAltAll : List (Pattern α) → Prop
  | [] => True
  | p :: ps => NoNegatedAlt p ∧ NoNegatedAltAll ps

end

end Pattern

namespace Regex

/-! ## Derivations -/

/-- The characters that a bracket expression admits. -/
def Admits (polarity : Polarity) (items : List ClassItem) (c : Char) : Prop :=
  polarity.Holds (∃ item ∈ items, item.Admits c)

mutual

/-- The stretches of `s` that a derivation matches. -/
def Alternation.Matches (s : List Char) : Alternation → Span
  | .single branch => branch.Matches s
  | .more branch rest => (branch.Matches s).union (rest.Matches s)

def Branch.Matches (s : List Char) : Branch → Span
  | .nil => .skip
  | .cons atom none rest => (atom.Matches s).comp (rest.Matches s)
  | .cons atom (some q) rest => ((atom.Matches s).between q.bounds.1 q.bounds.2).comp (rest.Matches s)

def Atom.Matches (s : List Char) : Atom → Span
  | .char c => .one s fun d => d = c.char
  | .any => .one s fun _ => True
  | .lineStart => .lineStart s
  | .lineEnd => .lineEnd s
  | .bracket polarity first rest => .one s (Admits polarity ((first :: rest).map Item.item))
  | .group .plain body | .group .capture body => body.Matches s
  | .group (.look side polarity) body => (body.Matches s).look side polarity

end

/-! ## Shapes -/

/-- A joint of no parts. -/
def Joint.unit : Joint → Span
  | .sequence => .skip
  | .choice => .never

/-- A joint of two parts. -/
def Joint.op : Joint → Span → Span → Span
  | .sequence => .comp
  | .choice => .union

theorem Joint.unit_op (joint : Joint) (r : Span) : joint.op joint.unit r = r := by
  cases joint with
  | sequence => exact r.skip_comp
  | choice => exact r.never_union

theorem Joint.op_unit (joint : Joint) (r : Span) : joint.op r joint.unit = r := by
  cases joint with
  | sequence => exact r.comp_skip
  | choice => exact r.union_never

theorem Joint.op_assoc (joint : Joint) (r q u : Span) :
    joint.op (joint.op r q) u = joint.op r (joint.op q u) := by
  cases joint with
  | sequence => exact r.comp_assoc q u
  | choice => exact r.union_assoc q u

namespace Shape

mutual

/-- The stretches of `s` that a shape matches. -/
def Matches (s : List Char) : Shape → Span
  | .char c => .one s fun d => d = c
  | .any => .one s fun _ => True
  | .lineStart => .lineStart s
  | .lineEnd => .lineEnd s
  | .bracket polarity items => .one s (Admits polarity items)
  | .repeated body min max => (Matches s body).between min max
  | .look side polarity body => (Matches s body).look side polarity
  | .capture body => Matches s body
  | .join joint parts => MatchesJoined s joint parts

def MatchesJoined (s : List Char) (joint : Joint) : List Shape → Span
  | [] => joint.unit
  | part :: parts => joint.op (Matches s part) (MatchesJoined s joint parts)

end

variable (s : List Char)

theorem matchesJoined_append (joint : Joint) (ss ts : List Shape) :
    MatchesJoined s joint (ss ++ ts) =
      joint.op (MatchesJoined s joint ss) (MatchesJoined s joint ts) := by
  induction ss with
  | nil => rw [List.nil_append, MatchesJoined, joint.unit_op]
  | cons t ss ih => rw [List.cons_append, MatchesJoined, MatchesJoined, ih, joint.op_assoc]

theorem matchesJoined_singleton (joint : Joint) (t : Shape) :
    MatchesJoined s joint [t] = t.Matches s := by
  rw [MatchesJoined, MatchesJoined, joint.op_unit]

theorem matchesJoined_parts (joint : Joint) (t : Shape) :
    MatchesJoined s joint (t.parts joint) = t.Matches s := by
  unfold parts
  split
  · next joint' ss =>
    split
    · next h =>
      subst h
      rw [Matches]
    · exact matchesJoined_singleton s joint _
  · exact matchesJoined_singleton s joint t

theorem matchesJoined_flatMap_parts (joint : Joint) (ss : List Shape) :
    MatchesJoined s joint (ss.flatMap (parts joint)) = MatchesJoined s joint ss := by
  induction ss with
  | nil => rfl
  | cons t ss ih =>
    rw [List.flatMap_cons, matchesJoined_append, matchesJoined_parts, ih, MatchesJoined]

theorem matches_collapse (joint : Joint) (ss : List Shape) :
    (collapse joint ss).Matches s = MatchesJoined s joint ss := by
  rcases collapse_cases joint ss with ⟨t, rfl, hcollapse⟩ | ⟨-, hcollapse⟩
  · rw [hcollapse, matchesJoined_singleton]
  · rw [hcollapse, Matches]

mutual

/-- Flattening changes no match. -/
theorem matches_flatten : (t : Shape) → t.flatten.Matches s = t.Matches s
  | .char _ => rfl
  | .any => rfl
  | .lineStart => rfl
  | .lineEnd => rfl
  | .bracket _ _ => rfl
  | .repeated body min max => by
    rw [flatten, Matches, Matches, matches_flatten body]
  | .look side polarity body => by
    rw [flatten, Matches, Matches, matches_flatten body]
  | .capture body => by
    rw [flatten, Matches, Matches, matches_flatten body]
  | .join joint ss => by
    rw [flatten, joined, matches_collapse, matchesJoined_flatMap_parts, matchesJoined_flattenAll joint ss,
      Matches]

theorem matchesJoined_flattenAll (joint : Joint) : (ss : List Shape) →
    MatchesJoined s joint (flattenAll ss) = MatchesJoined s joint ss
  | [] => rfl
  | t :: ss => by
    rw [flattenAll, MatchesJoined, MatchesJoined, matches_flatten t, matchesJoined_flattenAll joint ss]

end

end Shape

/-! ## A derivation matches what its shape does -/

variable (s : List Char)

mutual

theorem Alternation.matchesJoined_shapes : (t : Alternation) →
    Shape.MatchesJoined s .choice t.shapes = t.Matches s
  | .single b => by
    rw [Alternation.shapes, Shape.matchesJoined_singleton, Shape.Matches, Branch.matchesJoined_shapes b,
      Alternation.Matches]
  | .more b t => by
    rw [Alternation.shapes, Shape.MatchesJoined, Shape.Matches, Branch.matchesJoined_shapes b,
      Alternation.matchesJoined_shapes t, Alternation.Matches, Joint.op]

theorem Branch.matchesJoined_shapes : (b : Branch) →
    Shape.MatchesJoined s .sequence b.shapes = b.Matches s
  | .nil => rfl
  | .cons a none b => by
    rw [Branch.shapes, Shape.MatchesJoined, quantified, Atom.matches_shape a,
      Branch.matchesJoined_shapes b, Branch.Matches, Joint.op]
  | .cons a (some q) b => by
    rw [Branch.shapes, Shape.MatchesJoined, quantified, Shape.Matches, Atom.matches_shape a,
      Branch.matchesJoined_shapes b, Branch.Matches, Joint.op]

theorem Atom.matches_shape : (a : Atom) → a.shape.Matches s = a.Matches s
  | .char _ => rfl
  | .any => rfl
  | .lineStart => rfl
  | .lineEnd => rfl
  | .bracket _ _ _ => rfl
  | .group .plain body => by
    rw [Atom.shape, Shape.Matches, Alternation.matchesJoined_shapes body, Atom.Matches]
  | .group .capture body => by
    rw [Atom.shape, Shape.Matches, Shape.Matches, Alternation.matchesJoined_shapes body, Atom.Matches]
  | .group (.look side polarity) body => by
    rw [Atom.shape, Shape.Matches, Shape.Matches, Alternation.matchesJoined_shapes body, Atom.Matches]

end

end Regex

/-! ## A pattern matches what its shape does -/

namespace Pattern

open Regex

variable {α : Type} (s : List Char)

/-- A literal is its characters one after the other. -/
theorem matchesJoined_chars (cs : List Char) (i j : Nat) :
    Shape.MatchesJoined s .sequence (cs.map .char) i j ↔ j = i + cs.length ∧ cs <+: s.drop i := by
  induction cs generalizing i with
  | nil => simp [Shape.MatchesJoined, Joint.unit, Span.skip, Span.here]
  | cons c cs ih =>
    have hdrop : c :: cs <+: s.drop i ↔ s[i]? = some c ∧ cs <+: s.drop (i + 1) := by
      cases hi : s[i]? with
      | none =>
        have hlength := List.getElem?_eq_none_iff.mp hi
        simp [List.drop_eq_nil_of_le hlength]
      | some d =>
        obtain ⟨hlt, hd⟩ := List.getElem?_eq_some_iff.mp hi
        rw [List.drop_eq_getElem_cons hlt, hd, List.cons_prefix_cons, Option.some.injEq]
        exact and_congr_left' eq_comm
    rw [List.map_cons, Shape.MatchesJoined, Joint.op, Shape.Matches, hdrop]
    constructor
    · rintro ⟨k, ⟨rfl, d, hd, rfl⟩, hrest⟩
      obtain ⟨rfl, hcs⟩ := (ih (i + 1)).mp hrest
      refine ⟨?_, hd, hcs⟩
      rw [List.length_cons]
      omega
    · rintro ⟨rfl, hc, hcs⟩
      refine ⟨i + 1, ⟨rfl, c, hc, rfl⟩, (ih (i + 1)).mpr ⟨?_, hcs⟩⟩
      rw [List.length_cons]
      omega

theorem exists_mem_map_char (cs : List Char) (d : Char) :
    (∃ item ∈ cs.map ClassItem.char, item.Admits d) ↔ d ∈ cs := by
  constructor
  · rintro ⟨item, hitem, hadmits⟩
    obtain ⟨c, hc, rfl⟩ := List.mem_map.mp hitem
    rw [show d = c from hadmits]
    exact hc
  · intro hd
    exact ⟨.char d, List.mem_map_of_mem hd, rfl⟩

theorem admits_ofString (polarity : Polarity) (cs : List Char) :
    Admits polarity (cs.map .char) = fun d => polarity.Holds (d ∈ cs) := by
  funext d
  rw [Admits, propext (exists_mem_map_char cs d)]

theorem admits_ofRange (polarity : Polarity) (first last : Char) :
    Admits polarity [.range first last] = fun d => polarity.Holds (first ≤ d ∧ d ≤ last) := by
  funext d
  simp [Admits, ClassItem.Admits]

theorem admits_append (items items' : List ClassItem) (d : Char) :
    Admits .positive (items ++ items') d ↔ Admits .positive items d ∨ Admits .positive items' d := by
  simp only [Admits, Polarity.Holds, List.mem_append]
  grind

mutual

/-- A positive class matches what one of its members does. -/
theorem matches_of_charClass? : (p : Pattern α) → (c : CharClass) → p.charClass? = some c →
    c.polarity = .positive → p.Matches s = .one s (Admits .positive c.items)
  | .set polarity members, c, hc, hpositive => by
    cases hc
    cases hpositive
    rw [Matches, CharClass.ofString, admits_ofString]
  | .range polarity first last, c, hc, hpositive => by
    cases hc
    cases hpositive
    rw [Matches, CharClass.ofRange, admits_ofRange]
  | .alt ps, c, hc, hpositive => by
    rw [Matches]
    exact matchesAny_of_mergedClass? ps c hc hpositive
  | .any, _, hc, _ => by simp [charClass?] at hc
  | .literal _, _, hc, _ => by simp [charClass?] at hc
  | .lineStart, _, hc, _ => by simp [charClass?] at hc
  | .lineEnd, _, hc, _ => by simp [charClass?] at hc
  | .seq _, _, hc, _ => by simp [charClass?] at hc
  | .rep _ _ _, _, hc, _ => by simp [charClass?] at hc
  | .look _ _ _, _, hc, _ => by simp [charClass?] at hc
  | .capture _ _, _, hc, _ => by simp [charClass?] at hc

theorem matchesAny_of_mergedClass? : (ps : List (Pattern α)) → (c : CharClass) →
    mergedClass? ps = some c → c.polarity = .positive →
    MatchesAny s ps = .one s (Admits .positive c.items)
  | [], _, hc, _ => by simp [mergedClass?] at hc
  | [p], c, hc, hpositive => by
    rw [MatchesAny, MatchesAny, Span.union_never]
    exact matches_of_charClass? p c hc hpositive
  | p :: q :: ps, c, hc, hpositive => by
    rw [mergedClass?] at hc
    obtain ⟨a, ha, hc⟩ := Option.bind_eq_some_iff.mp hc
    obtain ⟨b, hb, hc⟩ := Option.bind_eq_some_iff.mp hc
    obtain ⟨hpa, hpb, hitems⟩ := merge?_eq_some_iff.mp hc
    have hp := matches_of_charClass? p a ha (hpa.trans hpositive)
    have hps := matchesAny_of_mergedClass? (q :: ps) b hb (hpb.trans hpositive)
    rw [MatchesAny, hp, hps, Span.one_union_one, hitems]
    congr 1
    funext d
    exact (propext (admits_append a.items b.items d)).symm

end

theorem matches_shape_set (polarity : Polarity) (members : String) :
    (Pattern.set polarity members : Pattern α).shape.Matches s =
      (Pattern.set polarity members : Pattern α).Matches s := by
  unfold shape
  split
  · next c hc =>
    rw [Shape.Matches, Matches, hc]
    simp [Polarity.Holds]
  · rw [Shape.Matches, admits_ofString, Matches]

mutual

/-- A pattern without negated alternations matches what its shape does. -/
theorem matches_shape : (p : Pattern α) → p.WellFormed → p.NoNegatedAlt →
    p.shape.Matches s = p.Matches s
  | .set polarity members, _, _ => matches_shape_set s polarity members
  | .range polarity first last, _, _ => by
    rw [shape, Shape.Matches, admits_ofRange, Matches]
  | .any, _, _ => rfl
  | .literal text, _, _ => by
    rw [shape, Shape.Matches, Matches]
    exact Span.ext (matchesJoined_chars s text.toList)
  | .lineStart, _, _ => rfl
  | .lineEnd, _, _ => rfl
  | .alt ps, hwf, hneg => by
    have hmerged := mergedClass?_eq_bracketOf? hwf
    have hchoice := matchesJoined_choice ps hwf.2 hneg.2
    rw [shape, ← hmerged, Matches]
    cases hc : mergedClass? ps with
    | some c =>
      -- one bracket for all the alternatives, and a character in it is in one of them
      have hpositive := hneg.1 c hc
      have hany := matchesAny_of_mergedClass? s ps c hc hpositive
      simp only [Shape.Matches, hpositive, hany]
    | none => simpa only [Shape.Matches] using hchoice
  | .seq ps, hwf, hneg => by
    rw [shape, Shape.Matches, matchesJoined_sequence ps hwf.2 hneg, Matches]
  | .rep body min max, hwf, hneg => by
    rw [shape, Shape.Matches, matches_shape body hwf.2 hneg, Matches]
  | .look side polarity body, hwf, hneg => by
    rw [shape, Shape.Matches, matches_shape body hwf hneg, Matches]
  | .capture body label, hwf, hneg => by
    rw [shape, Shape.Matches, matches_shape body hwf hneg, Matches]

theorem matchesJoined_choice : (ps : List (Pattern α)) → WellFormedAll ps → NoNegatedAltAll ps →
    Shape.MatchesJoined s .choice (shapes ps) = MatchesAny s ps
  | [], _, _ => rfl
  | p :: ps, hwf, hneg => by
    rw [shapes, Shape.MatchesJoined, matches_shape p hwf.1 hneg.1, matchesJoined_choice ps hwf.2 hneg.2,
      MatchesAny, Joint.op]

theorem matchesJoined_sequence : (ps : List (Pattern α)) → WellFormedAll ps → NoNegatedAltAll ps →
    Shape.MatchesJoined s .sequence (shapes ps) = MatchesInTurn s ps
  | [], _, _ => rfl
  | p :: ps, hwf, hneg => by
    rw [shapes, Shape.MatchesJoined, matches_shape p hwf.1 hneg.1, matchesJoined_sequence ps hwf.2 hneg.2,
      MatchesInTurn, Joint.op]

end

/-- The parser reads the regular expression of a pattern, and what it reads matches exactly what the pattern
does, if no alternation in the pattern is a negated class. -/
theorem matches_iff_parsed (p : Pattern α) (hp : Constructible p) (hneg : p.NoNegatedAlt) :
    ∃ t, parse p.regex = some t ∧
      ∀ (text : String) (i j : Nat), p.Matches text.toList i j ↔ t.Matches text.toList i j := by
  obtain ⟨t, hparse, hshape⟩ := parse_regex hp.wellFormed
  refine ⟨t, hparse, ?_⟩
  intro text i j
  have hspan : p.Matches text.toList = t.Matches text.toList := by
    calc p.Matches text.toList
        = p.shape.Matches text.toList := (matches_shape text.toList p hp.wellFormed hneg).symm
      _ = p.shape.flatten.Matches text.toList := (Shape.matches_flatten text.toList p.shape).symm
      _ = t.shape.flatten.Matches text.toList := by rw [hshape]
      _ = t.shape.Matches text.toList := Shape.matches_flatten text.toList t.shape
      _ = t.Matches text.toList := Alternation.matchesJoined_shapes text.toList t
  rw [hspan]

/-- A word at the start of a line, not before a dot, and then anything but a quote. -/
def wordPattern : Pattern Unit :=
  .seq [
    .lineStart,
    .capture (.rep (.alt [.set .positive "_-", .range .positive 'a' 'z']) 1 none) (),
    .look .ahead .negated (.literal "."),
    .rep (.alt [.set .negated "\"", .literal "\\\""]) 0 (some 2)]

theorem matches_iff_parsed_wordPattern :
    Constructible wordPattern ∧ wordPattern.NoNegatedAlt ∧
    ∃ t, parse wordPattern.regex = some t ∧
      ∀ (text : String) (i j : Nat), wordPattern.Matches text.toList i j ↔ t.Matches text.toList i j := by
  have hp : Constructible wordPattern :=
    constructible _ (by simp [wordPattern, WellFormed, WellFormedAll])
  have hneg : wordPattern.NoNegatedAlt := by
    simp [wordPattern, NoNegatedAlt, NoNegatedAltAll, mergedClass?, charClass?, CharClass.merge?,
      CharClass.ofString, CharClass.ofRange]
  exact ⟨hp, hneg, matches_iff_parsed wordPattern hp hneg⟩

end Pattern

end TextMate
