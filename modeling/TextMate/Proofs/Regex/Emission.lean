import Mathlib.Logic.ExistsUnique
import TextMate.Proofs.Pattern.Constructible
import TextMate.Proofs.Pattern.Leaves
import TextMate.Proofs.Pattern.Text
import TextMate.Proofs.Regex.Parser
import TextMate.Proofs.Regex.Shape

/-!
# The text of a pattern is read back as the pattern

`Pattern.shape` is a pattern as a regular expression, before anything is written: no groups, no escapes, no
precedence. The text of a well-formed pattern has a derivation of the same flat shape (`derives`), and by the
exactness of the parser it has no other.

How a derivation for the text of a pattern looks depends on where the text stands. Every text is an
alternation. Unless the pattern is an open alternation, its text is a branch, and can stand in a sequence;
unless it is a loose operand, its text is an atom, and can stand before a quantifier. `Derives` holds all
three, and the induction runs on patterns.
-/

namespace TextMate

open Regex

namespace Pattern

variable {α : Type}

mutual

/-- The regular expression that a pattern stands for. -/
def shape : Pattern α → Shape
  | .set polarity members =>
    match polarity, members.toList with
    | .positive, [c] => .char c
    | polarity, cs => .bracket polarity (cs.map .char)
  | .range polarity first last => .bracket polarity [.range first last]
  | .any => .any
  | .literal text => .join .sequence (text.toList.map .char)
  | .lineStart => .lineStart
  | .lineEnd => .lineEnd
  | .alt ps =>
    match bracketOf? (leavesAll ps) with
    | some c => .bracket c.polarity c.items
    | none => .join .choice (shapes ps)
  | .seq ps => .join .sequence (shapes ps)
  | .rep body min max => .repeated (shape body) min max
  | .look side polarity body => .look side polarity (shape body)
  | .capture body _ => .capture (shape body)

def shapes : List (Pattern α) → List Shape
  | [] => []
  | p :: ps => shape p :: shapes ps

end

end Pattern

namespace Regex

/-! ## Characters, classes and quantifiers -/

/-- An escaped character is a character, if the escapes are punctuation and leave nothing special out. -/
theorem exists_spelling {special : Char → Bool} {specials : List Char}
    (hpunctuation : specials.all isPunctuation) (hspecial : ∀ c, special c → c ∈ specials)
    (c : Char) : ∃ s : Spelling special, s.text = escapedChar specials c ∧ s.char = c := by
  by_cases hc : c ∈ specials
  · refine ⟨.escaped c (List.all_eq_true.mp hpunctuation c hc), ?_, rfl⟩
    simp [Spelling.text, escapedChar, hc]
  · have hplain : special c = false := by
      rw [Bool.eq_false_iff]
      intro h
      exact hc (hspecial c h)
    refine ⟨.plain c hplain, ?_, rfl⟩
    simp [Spelling.text, escapedChar, hc]

theorem exists_literalSpelling (c : Char) :
    ∃ s : Spelling isMeta, s.text = escapedChar literalSpecials c ∧ s.char = c := by
  refine exists_spelling (by decide) ?_ c
  intro c hc
  have hall : "\\^$[]()\x7b\x7d.+*?|".toList.all literalSpecials.contains := by decide
  exact List.contains_iff_mem.mp (List.all_eq_true.mp hall c (List.contains_iff_mem.mp hc))

theorem exists_classSpelling (c : Char) :
    ∃ s : Spelling isClassMeta, s.text = escapedChar classSpecials c ∧ s.char = c := by
  refine exists_spelling (by decide) ?_ c
  intro c hc
  exact List.contains_iff_mem.mp hc

theorem exists_item (item : ClassItem) : ∃ i : Item, i.text = itemText item ∧ i.item = item := by
  cases item with
  | char c =>
    obtain ⟨s, htext, hchar⟩ := exists_classSpelling c
    exact ⟨.single s, htext, by rw [Item.item, hchar]⟩
  | range first last =>
    obtain ⟨s, hs, hfirst⟩ := exists_classSpelling first
    obtain ⟨t, ht, hlast⟩ := exists_classSpelling last
    refine ⟨.range s t, ?_, ?_⟩
    · rw [Item.text, itemText, hs, ht]
    · rw [Item.item, hfirst, hlast]

theorem exists_items (items : List ClassItem) :
    ∃ is : List Item, is.flatMap Item.text = items.flatMap itemText ∧ is.map Item.item = items := by
  induction items with
  | nil => exact ⟨[], rfl, rfl⟩
  | cons item items ih =>
    obtain ⟨i, htext, hitem⟩ := exists_item item
    obtain ⟨is, htexts, hitems⟩ := ih
    refine ⟨i :: is, ?_, ?_⟩
    · rw [List.flatMap_cons, List.flatMap_cons, htext, htexts]
    · rw [List.map_cons, hitem, hitems]

theorem exists_bracket (c : CharClass) (hne : c.items ≠ []) :
    ∃ a : Atom, a.text = classText c ∧ a.shape = .bracket c.polarity c.items := by
  obtain ⟨is, htexts, hitems⟩ := exists_items c.items
  cases is with
  | nil => exact absurd hitems.symm hne
  | cons i is =>
    refine ⟨.bracket c.polarity i is, ?_, ?_⟩
    · have hcaret : caretText c.polarity = polarityText c.polarity := by
        cases c.polarity <;> rfl
      rw [Atom.text, classText, hcaret, ← htexts, List.flatMap_cons, List.append_assoc]
    · rw [Atom.shape, hitems]

theorem exists_numeral (n : Nat) : ∃ m : Numeral, m.digits = Nat.toDigits 10 n ∧ m.value = n := by
  refine ⟨⟨Nat.toDigits 10 n, Nat.toDigits_ne_nil, ?_⟩, rfl, ?_⟩
  · intro c hc
    exact Nat.isDigit_of_mem_toDigits (by decide) (by decide) hc
  · exact Nat.ofDigitChars_toDigits (by decide) (by decide)

theorem exists_quantifier (min : Nat) (max : Option Nat) :
    ∃ q : Quantifier, q.text = quantifierText min max ∧ q.bounds = (min, max) := by
  obtain ⟨m, hm, hmin⟩ := exists_numeral min
  fun_cases quantifierText min max with
  | case1 => exact ⟨.optional, rfl, rfl⟩
  | case2 => exact ⟨.star, rfl, rfl⟩
  | case3 => exact ⟨.plus, rfl, rfl⟩
  | case4 min max =>
    obtain ⟨n, hn, hmax⟩ := exists_numeral max
    refine ⟨.between m n, ?_, ?_⟩
    · rw [Quantifier.text, hm, hn]
    · rw [Quantifier.bounds, hmin, hmax]
  | case5 min =>
    refine ⟨.atLeast m, ?_, ?_⟩
    · rw [Quantifier.text, hm]
    · rw [Quantifier.bounds, hmin]

theorem exists_literal (cs : List Char) :
    ∃ b : Branch, b.text = literalText cs ∧ b.shapes = cs.map .char := by
  induction cs with
  | nil => exact ⟨.nil, rfl, rfl⟩
  | cons c cs ih =>
    obtain ⟨s, htext, hchar⟩ := exists_literalSpelling c
    obtain ⟨b, hb, hshapes⟩ := ih
    refine ⟨.cons (.char s) none b, ?_, ?_⟩
    · rw [Branch.text, Atom.text, htext, hb, quantifierText?, List.nil_append, literalText, literalText,
        List.flatMap_cons]
    · rw [Branch.shapes, Atom.shape, quantified, hchar, hshapes, List.map_cons]

/-! ## From atoms to branches to alternations -/

theorem flatten_atom (a : Atom) : (Branch.cons a none .nil).shape.flatten = a.shape.flatten :=
  Shape.flatten_join_singleton .sequence a.shape

theorem flatten_branch (b : Branch) : (Alternation.single b).shape.flatten = b.shape.flatten :=
  Shape.flatten_join_singleton .choice b.shape

theorem text_atom (a : Atom) : (Branch.cons a none .nil).text = a.text := by
  simp [Branch.text, quantifierText?]

end Regex

namespace Pattern

variable {α : Type}

/-- The text of the pattern has derivations of its flat shape, wherever it may stand. -/
structure Derives (p : Pattern α) : Prop where
  alternation : ∃ t : Alternation, t.text = p.text ∧ t.shape.flatten = p.shape.flatten
  branch : p.isOpenAlt = false → ∃ b : Branch, b.text = p.text ∧ b.shape.flatten = p.shape.flatten
  atom : p.isLooseOperand = false → ∃ a : Atom, a.text = p.text ∧ a.shape.flatten = p.shape.flatten

namespace Derives

theorem of_branch {p : Pattern α} (b : Branch) (htext : b.text = p.text)
    (hshape : b.shape.flatten = p.shape.flatten) (hloose : p.isLooseOperand) : Derives p where
  alternation := ⟨.single b, htext, (flatten_branch b).trans hshape⟩
  branch _ := ⟨b, htext, hshape⟩
  atom h := by
    rw [hloose] at h
    cases h

theorem of_atom {p : Pattern α} (a : Atom) (htext : a.text = p.text)
    (hshape : a.shape.flatten = p.shape.flatten) : Derives p where
  alternation := by
    refine ⟨.single (.cons a none .nil), ?_, ?_⟩
    · exact (text_atom a).trans htext
    · rw [flatten_branch, flatten_atom, hshape]
  branch _ := ⟨.cons a none .nil, (text_atom a).trans htext, (flatten_atom a).trans hshape⟩
  atom _ := ⟨a, htext, hshape⟩

/-- A group around the text is an atom. -/
theorem grouped {p : Pattern α} (h : Derives p) :
    ∃ a : Atom, a.text = groupedText true p.text ∧ a.shape.flatten = p.shape.flatten := by
  obtain ⟨t, htext, hshape⟩ := h.alternation
  refine ⟨.group .plain t, ?_, hshape⟩
  simp [Atom.text, GroupKind.text, groupedText, htext]

/-- What a quantifier applies to is an atom. -/
theorem operand {p : Pattern α} (h : Derives p) :
    ∃ a : Atom, a.text = groupedText p.isLooseOperand p.text ∧ a.shape.flatten = p.shape.flatten := by
  cases hloose : p.isLooseOperand with
  | true => exact h.grouped
  | false => exact h.atom hloose

/-- What stands in a sequence is a branch. -/
theorem member {p : Pattern α} (h : Derives p) :
    ∃ b : Branch, b.text = groupedText p.isOpenAlt p.text ∧ b.shape.flatten = p.shape.flatten := by
  cases hopen : p.isOpenAlt with
  | false => exact h.branch hopen
  | true =>
    obtain ⟨a, htext, hshape⟩ := h.grouped
    exact ⟨.cons a none .nil, (text_atom a).trans htext, (flatten_atom a).trans hshape⟩

/-- What stands between bars is an alternation. -/
theorem alternative {p : Pattern α} (h : Derives p) :
    ∃ t : Alternation, t.text = groupedText p.isSeq p.text ∧ t.shape.flatten = p.shape.flatten := by
  cases hseq : p.isSeq with
  | false => exact h.alternation
  | true =>
    obtain ⟨a, htext, hshape⟩ := h.grouped
    refine ⟨.single (.cons a none .nil), ?_, ?_⟩
    · exact (text_atom a).trans htext
    · rw [flatten_branch, flatten_atom, hshape]

end Derives

/-- The members of a sequence make up one branch. -/
theorem exists_members {ps : List (Pattern α)} (h : ∀ p ∈ ps, Derives p) :
    ∃ b : Branch, b.text = membersText ps ∧
      Shape.flatParts .sequence b.shapes = Shape.flatParts .sequence (shapes ps) := by
  induction ps with
  | nil => exact ⟨.nil, rfl, rfl⟩
  | cons p ps ih =>
    obtain ⟨b, hb, hshape⟩ := (h p (by simp)).member
    obtain ⟨b', hb', hshapes⟩ := ih fun q hq => h q (by simp [hq])
    refine ⟨b.append b', ?_, ?_⟩
    · rw [Branch.text_append, membersText, hb, hb']
    · rw [Branch.shapes_append, Shape.flatParts_append, shapes, Shape.flatParts_cons, hshapes,
        Shape.flatParts_of_flatten_eq hshape]

/-- The alternatives make up one alternation. -/
theorem exists_alternatives : (ps : List (Pattern α)) → ps ≠ [] → (∀ p ∈ ps, Derives p) →
    ∃ t : Alternation, t.text = alternativesText ps ∧
      Shape.flatParts .choice t.shapes = Shape.flatParts .choice (shapes ps)
  | [], hne, _ => absurd rfl hne
  | [p], _, h => by
    obtain ⟨t, ht, hshape⟩ := (h p (by simp)).alternative
    refine ⟨t, ht, ?_⟩
    simp [shapes, Shape.flatParts_of_flatten_eq hshape]
  | p :: q :: ps, _, h => by
    obtain ⟨t, ht, hshape⟩ := (h p (by simp)).alternative
    obtain ⟨t', ht', hshapes⟩ :=
      exists_alternatives (q :: ps) (by simp) fun r hr => h r (List.mem_cons_of_mem p hr)
    refine ⟨t.append t', ?_, ?_⟩
    · rw [Alternation.text_append, alternativesText, ht, ht']
    · rw [Alternation.shapes_append, Shape.flatParts_append, hshapes, shapes.eq_2 p,
        Shape.flatParts_cons, Shape.flatParts_of_flatten_eq hshape]

/-! ## Classes are not empty -/

mutual

theorem items_of_charClass? : (p : Pattern α) → p.WellFormed → (c : CharClass) →
    p.charClass? = some c → c.items ≠ []
  | .set polarity members, h, c, hc => by
    cases hc
    simpa [CharClass.ofString] using h.1
  | .range polarity first last, _, c, hc => by
    cases hc
    simp [CharClass.ofRange]
  | .alt ps, h, c, hc => items_of_mergedClass? ps h.2 c hc
  | .any, _, _, hc => by simp [charClass?] at hc
  | .literal _, _, _, hc => by simp [charClass?] at hc
  | .lineStart, _, _, hc => by simp [charClass?] at hc
  | .lineEnd, _, _, hc => by simp [charClass?] at hc
  | .seq _, _, _, hc => by simp [charClass?] at hc
  | .rep _ _ _, _, _, hc => by simp [charClass?] at hc
  | .look _ _ _, _, _, hc => by simp [charClass?] at hc
  | .capture _ _, _, _, hc => by simp [charClass?] at hc

theorem items_of_mergedClass? : (ps : List (Pattern α)) → WellFormedAll ps → (c : CharClass) →
    mergedClass? ps = some c → c.items ≠ []
  | [], _, _, hc => by simp [mergedClass?] at hc
  | [p], h, c, hc => items_of_charClass? p h.1 c hc
  | p :: q :: ps, h, c, hc => by
    rw [mergedClass?] at hc
    obtain ⟨a, ha, hc⟩ := Option.bind_eq_some_iff.mp hc
    obtain ⟨b, hb, hc⟩ := Option.bind_eq_some_iff.mp hc
    obtain ⟨-, -, hitems⟩ := merge?_eq_some_iff.mp hc
    have hne := items_of_charClass? p h.1 a ha
    simp [hitems, hne]

end

/-! ## Every well-formed pattern -/

/-- A class is an atom, whatever pattern it comes from. -/
theorem derives_of_class {p : Pattern α} {c : CharClass} (htext : p.text = classText c)
    (hshape : p.shape = .bracket c.polarity c.items) (hne : c.items ≠ []) : Derives p := by
  obtain ⟨a, ha, hashape⟩ := exists_bracket c hne
  exact .of_atom a (ha.trans htext.symm) (by rw [hashape, hshape])

theorem derives_set (polarity : Polarity) (members : String) (hne : members.toList ≠ []) :
    Derives (.set polarity members : Pattern α) := by
  have hitems : (CharClass.ofString polarity members).items ≠ [] := by
    simpa [CharClass.ofString] using hne
  match hp : polarity, hm : members.toList with
  | .positive, [c] =>
    obtain ⟨s, htext, hchar⟩ := exists_literalSpelling c
    refine .of_atom (.char s) ?_ ?_
    · simp [Atom.text, htext, text, hm, literalText]
    · simp [Atom.shape, shape, hm, hchar]
  | .positive, [] => exact absurd hm hne
  | .positive, c :: d :: cs =>
    refine derives_of_class (c := .ofString .positive members) ?_ ?_ (hp ▸ hitems)
    · simp [text, hm]
    · simp [shape, hm, CharClass.ofString]
  | .negated, cs =>
    refine derives_of_class (c := .ofString .negated members) ?_ ?_ (hp ▸ hitems)
    · simp [text]
    · simp [shape, CharClass.ofString]

theorem derives_literal (text : String) : Derives (.literal text : Pattern α) := by
  obtain ⟨b, hb, hshapes⟩ := exists_literal text.toList
  by_cases hlength : text.length = 1
  · -- one character is an atom of its own
    obtain ⟨c, hc⟩ := List.length_eq_one_iff.mp (by rwa [String.length_toList] : text.toList.length = 1)
    obtain ⟨s, htext, hchar⟩ := exists_literalSpelling c
    refine .of_atom (.char s) ?_ ?_
    · simp [Atom.text, htext, Pattern.text, hc, literalText]
    · rw [shape, hc, Atom.shape, hchar]
      exact (Shape.flatten_join_singleton .sequence (.char c)).symm
  · refine .of_branch b hb ?_ ?_
    · rw [Branch.shape, hshapes, shape]
    · simpa [isLooseOperand] using hlength

theorem derives_rep {body : Pattern α} (h : Derives body) (min : Nat) (max : Option Nat) :
    Derives (.rep body min max) := by
  obtain ⟨a, ha, hshape⟩ := h.operand
  obtain ⟨q, hq, hbounds⟩ := exists_quantifier min max
  refine .of_branch (.cons a (some q) .nil) ?_ ?_ rfl
  · simp [Branch.text, quantifierText?, text, ha, hq]
  · rw [Branch.shape, Branch.shapes, Branch.shapes, Shape.flatten_join_singleton, quantified, hbounds,
      shape, Shape.flatten, Shape.flatten, hshape]

theorem derives_look {body : Pattern α} (h : Derives body) (side : Side) (polarity : Polarity) :
    Derives (.look side polarity body) := by
  obtain ⟨t, ht, hshape⟩ := h.alternation
  refine .of_atom (.group (.look side polarity) t) ?_ ?_
  · cases side <;> cases polarity <;> simp [Atom.text, GroupKind.text, text, lookText, ht]
  · rw [Atom.shape, shape, Shape.flatten, Shape.flatten, ← hshape, Alternation.shape]

theorem derives_capture {body : Pattern α} (h : Derives body) (label : α) :
    Derives (.capture body label) := by
  obtain ⟨t, ht, hshape⟩ := h.alternation
  refine .of_atom (.group .capture t) ?_ ?_
  · simp [Atom.text, GroupKind.text, text, ht]
  · rw [Atom.shape, shape, Shape.flatten, Shape.flatten, ← hshape, Alternation.shape]

theorem derives_seq {ps : List (Pattern α)} (h : ∀ p ∈ ps, Derives p) : Derives (.seq ps) := by
  obtain ⟨b, hb, hparts⟩ := exists_members h
  refine .of_branch b hb ?_ rfl
  rw [Branch.shape, shape, Shape.flatten_join, Shape.flatten_join, hparts]

theorem derives_alt {ps : List (Pattern α)} (hwf : (Pattern.alt ps).WellFormed)
    (h : ∀ p ∈ ps, Derives p) : Derives (.alt ps) := by
  have hmerged := mergedClass?_eq_bracketOf? hwf
  cases hc : mergedClass? ps with
  | some c =>
    refine derives_of_class (c := c) ?_ ?_ (items_of_mergedClass? ps hwf.2 c hc)
    · simp [text, hc]
    · simp [shape, ← hmerged, hc]
  | none =>
    -- with bars at its top level the text is no branch and no atom
    have hne : ps ≠ [] := by
      rintro rfl
      simp [WellFormed] at hwf
    obtain ⟨t, ht, hparts⟩ := exists_alternatives ps hne h
    have hopen : (Pattern.alt ps).isOpenAlt = true := by
      simp [isOpenAlt, hc]
    refine ⟨⟨t, ?_, ?_⟩, ?_, ?_⟩
    · simp [text, hc, ht]
    · have hshape : (Pattern.alt ps).shape = .join .choice (shapes ps) := by
        simp [shape, ← hmerged, hc]
      rw [Alternation.shape, hshape, Shape.flatten_join, Shape.flatten_join, hparts]
    · intro hclosed
      rw [hopen] at hclosed
      cases hclosed
    · intro hoperand
      simp [isLooseOperand, isLoose, hopen] at hoperand

mutual

/-- The text of a well-formed pattern has a derivation of the pattern's flat shape. -/
theorem derives : (p : Pattern α) → p.WellFormed → Derives p
  | .set polarity members, h => derives_set polarity members h.1
  | .range polarity first last, _ =>
    derives_of_class (c := .ofRange polarity first last) rfl rfl (by simp [CharClass.ofRange])
  | .any, _ => .of_atom .any rfl rfl
  | .literal text, _ => derives_literal text
  | .lineStart, _ => .of_atom .lineStart rfl rfl
  | .lineEnd, _ => .of_atom .lineEnd rfl rfl
  | .alt ps, h => derives_alt h (derivesAll ps h.2)
  | .seq ps, h => derives_seq (derivesAll ps h.2)
  | .rep body min max, h => derives_rep (derives body h.2) min max
  | .look side polarity body, h => derives_look (derives body h) side polarity
  | .capture body label, h => derives_capture (derives body h) label

theorem derivesAll : (ps : List (Pattern α)) → WellFormedAll ps → ∀ p ∈ ps, Derives p
  | [], _, p, hp => by simp at hp
  | q :: ps, h, p, hp => by
    have hq := derives q h.1
    have hps := derivesAll ps h.2
    rcases List.mem_cons.mp hp with rfl | hp
    · exact hq
    · exact hps p hp

end

/-- The parser accepts the regular expression of a pattern, and finds its shape up to nesting. -/
theorem parse_regex {p : Pattern α} (hp : p.WellFormed) :
    ∃ t, parse p.regex = some t ∧ t.shape.flatten = p.shape.flatten := by
  obtain ⟨t, htext, hshape⟩ := (derives p hp).alternation
  refine ⟨t, ?_, hshape⟩
  rw [parse_eq_some_iff, htext, toList_regex]

/-- The regular expression of a pattern has exactly one derivation, and its shape is the shape of the
pattern up to nesting. -/
theorem existsUnique_derivation (p : Pattern α) (hp : Constructible p) :
    (∃! t : Alternation, t.text = p.regex.toList) ∧
      ∀ t : Alternation, t.text = p.regex.toList → t.shape.flatten = p.shape.flatten := by
  obtain ⟨t, hparse, hshape⟩ := parse_regex hp.wellFormed
  have hunique : ∀ t' : Alternation, t'.text = p.regex.toList → t' = t := by
    intro t' htext
    rw [← parse_eq_some_iff, hparse] at htext
    exact (Option.some.inj htext).symm
  refine ⟨⟨t, parse_eq_some_iff.mp hparse, hunique⟩, ?_⟩
  intro t' htext
  rw [hunique t' htext, hshape]

/-- A sequence of an open alternation, a quantified sequence in a capture, and a negated class. -/
def nestedPattern : Pattern Unit :=
  .seq [
    .alt [.literal "a|", .seq [.lineStart, .set .positive "^"], .alt [.any, .literal ""]],
    .capture (.rep (.rep (.literal "(?") 2 (some 3)) 0 none) (),
    .alt [.set .negated "-]", .alt [.range .negated 'a' 'z', .set .negated "!"]],
    .look .behind .negated (.literal "b")]

theorem existsUnique_derivation_nestedPattern :
    Constructible nestedPattern ∧
    nestedPattern.regex = "(?:a\\||(?:^\\^)|.|)((?:(?:\\(\\?)\x7b2,3\x7d)*)[^\\-\\]a-z!](?<!b)" ∧
    (∃! t : Alternation, t.text = nestedPattern.regex.toList) ∧
    ∀ t : Alternation, t.text = nestedPattern.regex.toList →
      t.shape.flatten = nestedPattern.shape.flatten := by
  have hp : Constructible nestedPattern :=
    constructible _ (by simp [nestedPattern, WellFormed, WellFormedAll])
  exact ⟨hp, by decide +kernel, existsUnique_derivation nestedPattern hp⟩

end Pattern

end TextMate
