import TextMate.Pattern.Regex

/-!
# The text of a pattern, without a sink

`Pattern.text` is the regular expression of a pattern as a list of characters, by plain recursion on the
pattern. Writing a pattern to a lawful sink pushes exactly these characters and records exactly the labels
of the pattern:

    writeRegex_eq_add : p.writeRegex out = out.add p.text p.captures

so the sink never decides what is written, and what has been written before never matters.
-/

namespace TextMate

namespace Regex

/-! ## Pieces of text -/

/-- A character, after a backslash if it is one of the `specials`. -/
def escapedChar (specials : List Char) (c : Char) : List Char :=
  if specials.contains c then ['\\', c] else [c]

/-- Characters that stand for themselves. -/
def literalText (cs : List Char) : List Char :=
  cs.flatMap (escapedChar literalSpecials)

/-- An item of a bracket expression. -/
def itemText : ClassItem → List Char
  | .char c => escapedChar classSpecials c
  | .range first last => escapedChar classSpecials first ++ '-' :: escapedChar classSpecials last

/-- What stands between the opening bracket and the items. -/
def polarityText : Polarity → List Char
  | .positive => []
  | .negated => ['^']

/-- A bracket expression. -/
def classText (c : CharClass) : List Char :=
  '[' :: (polarityText c.polarity ++ (c.items.flatMap itemText ++ [']']))

/-- A quantifier, in its short form if it has one. -/
def quantifierText : (min : Nat) → (max : Option Nat) → List Char
  | 0, some 1 => ['?']
  | 0, none => ['*']
  | 1, none => ['+']
  | min, some max => '\x7b' :: (Nat.toDigits 10 min ++ ',' :: (Nat.toDigits 10 max ++ ['\x7d']))
  | min, none => '\x7b' :: (Nat.toDigits 10 min ++ [',', '\x7d'])

/-- What follows the parenthesis and the question mark of a look-around. -/
def lookText : Side → Polarity → List Char
  | .ahead, .positive => ['=']
  | .ahead, .negated => ['!']
  | .behind, .positive => ['<', '=']
  | .behind, .negated => ['<', '!']

/-- A text, inside a group that captures nothing if `needed`. -/
def groupedText (needed : Bool) (text : List Char) : List Char :=
  if needed then '(' :: '?' :: ':' :: (text ++ [')']) else text

end Regex

namespace Pattern

open Regex

variable {σ α : Type}

mutual

/-- The regular expression of a pattern. -/
def text : Pattern α → List Char
  | .set polarity members =>
    match polarity, members.toList with
    | .positive, [c] => literalText [c]
    | _, _ => classText (.ofString polarity members)
  | .range polarity first last => classText (.ofRange polarity first last)
  | .any => ['.']
  | .literal text => literalText text.toList
  | .lineStart => ['^']
  | .lineEnd => ['$']
  | .alt ps =>
    match mergedClass? ps with
    | some c => classText c
    | none => alternativesText ps
  | .seq ps => membersText ps
  | .rep body min max => groupedText body.isLooseOperand (text body) ++ quantifierText min max
  | .look side polarity body => '(' :: '?' :: (lookText side polarity ++ (text body ++ [')']))
  | .capture body _ => '(' :: (text body ++ [')'])

/-- Alternatives with a bar between each two. -/
def alternativesText : List (Pattern α) → List Char
  | [] => []
  | [p] => groupedText p.isSeq (text p)
  | p :: q :: ps => groupedText p.isSeq (text p) ++ '|' :: alternativesText (q :: ps)

/-- The members of a sequence one after the other. -/
def membersText : List (Pattern α) → List Char
  | [] => []
  | p :: ps => groupedText p.isOpenAlt (text p) ++ membersText ps

end

/-! ## A class has no captures -/

mutual

theorem captures_of_charClass? : (p : Pattern α) → (c : CharClass) → p.charClass? = some c →
    p.captures = []
  | .set _ _, _, _ => rfl
  | .range _ _ _, _, _ => rfl
  | .any, _, _ => rfl
  | .literal _, _, _ => rfl
  | .lineStart, _, _ => rfl
  | .lineEnd, _, _ => rfl
  | .alt ps, c, h => capturesAll_of_mergedClass? ps c h
  | .seq _, _, h => by simp [charClass?] at h
  | .rep _ _ _, _, h => by simp [charClass?] at h
  | .look _ _ _, _, h => by simp [charClass?] at h
  | .capture _ _, _, h => by simp [charClass?] at h

theorem capturesAll_of_mergedClass? : (ps : List (Pattern α)) → (c : CharClass) →
    mergedClass? ps = some c → capturesAll ps = []
  | [], _, _ => rfl
  | [p], c, h => by
    simp [capturesAll, captures_of_charClass? p c h]
  | p :: q :: ps, c, h => by
    rw [mergedClass?] at h
    obtain ⟨a, ha, h⟩ := Option.bind_eq_some_iff.mp h
    obtain ⟨b, hb, _⟩ := Option.bind_eq_some_iff.mp h
    have hrest := capturesAll_of_mergedClass? (q :: ps) b hb
    rw [capturesAll, captures_of_charClass? p a ha, hrest, List.append_nil]

end

end Pattern

/-! ## Writing pushes the text -/

namespace Regex.Output

variable {σ α : Type} [Sink σ]

/-- The output after more text and more labels. -/
def add (out : Output σ α) (text : List Char) (labels : List α) : Output σ α :=
  ⟨text.foldl Sink.push out.sink, out.captures ++ labels.toArray⟩

@[simp] theorem add_nil (out : Output σ α) : out.add [] [] = out := by
  simp [add]

@[simp] theorem add_add (out : Output σ α) (text text' : List Char) (labels labels' : List α) :
    (out.add text labels).add text' labels' = out.add (text ++ text') (labels ++ labels') := by
  simp [add]

/-- A string that is pushed characters grows by them. -/
theorem foldl_push_string (before : String) (cs : List Char) :
    cs.foldl Sink.push before = before ++ String.ofList cs :=
  foldl_push_eq_append before cs

theorem push_eq_add (out : Output σ α) (c : Char) : out.push c = out.add [c] [] := by
  simp [push, add]

theorem label_eq_add (out : Output σ α) (label : α) : out.label label = out.add [] [label] := by
  simp [Output.label, add]

theorem escaped_eq_add (specials : List Char) (out : Output σ α) (c : Char) :
    out.escaped specials c = out.add (escapedChar specials c) [] := by
  rw [escaped, escapedChar]
  split <;> simp [push_eq_add]

/-- Writing one piece after another adds the pieces together. -/
theorem foldl_eq_add {β : Type} {write : Output σ α → β → Output σ α} {text : β → List Char}
    (h : ∀ out x, write out x = out.add (text x) []) (out : Output σ α) (xs : List β) :
    xs.foldl write out = out.add (xs.flatMap text) [] := by
  induction xs generalizing out with
  | nil => simp
  | cons x xs ih => simp [h, ih]

theorem literal_eq_add (out : Output σ α) (cs : List Char) :
    out.literal cs = out.add (literalText cs) [] :=
  foldl_eq_add (escaped_eq_add literalSpecials) out cs

theorem classItem_eq_add (out : Output σ α) (item : ClassItem) :
    out.classItem item = out.add (itemText item) [] := by
  cases item with
  | char c => exact escaped_eq_add classSpecials out c
  | range first last => simp [classItem, itemText, escaped_eq_add, push_eq_add]

variable [LawfulSink σ]

theorem append_eq_add (out : Output σ α) (text : String) :
    out.append text = out.add text.toList [] := by
  simp [append, add, LawfulSink.append_eq_foldl]

theorem charClass_eq_add (out : Output σ α) (c : CharClass) :
    out.charClass c = out.add (classText c) [] := by
  unfold charClass classText
  cases c.polarity with
  | positive => simp [push_eq_add, foldl_eq_add classItem_eq_add, polarityText]
  | negated => simp [push_eq_add, append_eq_add, foldl_eq_add classItem_eq_add, polarityText]

theorem quantifier_eq_add (out : Output σ α) (min : Nat) (max : Option Nat) :
    out.quantifier min max = out.add (quantifierText min max) [] := by
  fun_cases quantifier out min max with
  | case1 => exact push_eq_add out '?'
  | case2 => exact push_eq_add out '*'
  | case3 => exact push_eq_add out '+'
  | case4 min max h => simp [append_eq_add, quantifierText]
  | case5 min h₀ h₁ => simp [append_eq_add, quantifierText]

theorem look_eq_add (out : Output σ α) (side : Side) (polarity : Polarity) :
    out.look side polarity = out.add ('(' :: '?' :: lookText side polarity) [] := by
  cases side <;> cases polarity <;> simp [look, lookText, append_eq_add, push_eq_add]

/-- A group pushes its brackets around what is written inside. -/
theorem grouped_eq_add {write : Output σ α → Output σ α} {text : List Char} {labels : List α}
    (h : ∀ out, write out = out.add text labels) (needed : Bool) (out : Output σ α) :
    grouped needed write out = out.add (groupedText needed text) labels := by
  cases needed with
  | false => exact h out
  | true => simp [grouped, groupedText, append_eq_add, h, push_eq_add]

end Regex.Output

namespace Pattern

open Regex Regex.Output

variable {σ α : Type} [Sink σ] [LawfulSink σ]

mutual

/-- Writing a pattern pushes its text and records its labels. -/
theorem writeRegex_eq_add : (p : Pattern α) → (out : Output σ α) →
    p.writeRegex out = out.add p.text p.captures
  | .set .negated members, out => charClass_eq_add out (.ofString .negated members)
  | .set .positive members, out => by
    unfold writeRegex text captures
    match members.toList with
    | [] => exact charClass_eq_add out _
    | [c] => exact literal_eq_add out [c]
    | _ :: _ :: _ => exact charClass_eq_add out _
  | .range polarity first last, out => by
    rw [writeRegex, text, captures, charClass_eq_add]
  | .any, out => push_eq_add out '.'
  | .literal text, out => literal_eq_add out text.toList
  | .lineStart, out => push_eq_add out '^'
  | .lineEnd, out => push_eq_add out '$'
  | .alt ps, out => by
    unfold writeRegex text captures
    cases hc : mergedClass? ps with
    | some c => simp only [charClass_eq_add, capturesAll_of_mergedClass? ps c hc]
    | none => exact writeAlternatives_eq_add ps out
  | .seq ps, out => writeMembers_eq_add ps out
  | .rep body min max, out => by
    rw [writeRegex, text, captures, grouped_eq_add (writeRegex_eq_add body), quantifier_eq_add]
    simp
  | .look side polarity body, out => by
    rw [writeRegex, text, captures, look_eq_add, writeRegex_eq_add body, push_eq_add]
    simp
  | .capture body label, out => by
    rw [writeRegex, text, captures, label_eq_add, push_eq_add, writeRegex_eq_add body, push_eq_add]
    simp

theorem writeAlternatives_eq_add : (ps : List (Pattern α)) → (out : Output σ α) →
    writeAlternatives ps out = out.add (alternativesText ps) (capturesAll ps)
  | [], out => by simp [writeAlternatives, alternativesText, capturesAll]
  | [p], out => by
    rw [writeAlternatives, alternativesText, grouped_eq_add (writeRegex_eq_add p)]
    simp [capturesAll]
  | p :: q :: ps, out => by
    rw [writeAlternatives, alternativesText, capturesAll, grouped_eq_add (writeRegex_eq_add p),
      push_eq_add, writeAlternatives_eq_add (q :: ps)]
    simp

theorem writeMembers_eq_add : (ps : List (Pattern α)) → (out : Output σ α) →
    writeMembers ps out = out.add (membersText ps) (capturesAll ps)
  | [], out => by simp [writeMembers, membersText, capturesAll]
  | p :: ps, out => by
    rw [writeMembers, membersText, capturesAll, grouped_eq_add (writeRegex_eq_add p),
      writeMembers_eq_add ps]
    simp

end

/-- The regular expression of a pattern is its text. -/
theorem toList_regex (p : Pattern α) : p.regex.toList = p.text := by
  rw [regex, writeRegex_eq_add]
  simp [add, foldl_push_string]

end Pattern

end TextMate
