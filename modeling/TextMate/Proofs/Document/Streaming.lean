import TextMate.Proofs.Document.Places

/-!
# One emitter, any sink

Patterns can be written one after the other to one output, each as it stands or as a unit. What a sink does
with the characters never matters for what is written: `Part.writeAll_eq_add` says that the sink is pushed
the texts of the parts in order, and that the labels are recorded next to it. So a string, a sink that
takes one character at a time and a JSON string in the making all hold the same text, the last of them with
its characters escaped, and this is how the patterns of a grammar reach its document.
-/

namespace TextMate

/-- The sink that has no way of its own to take a whole string. -/
abbrev Sink.ofPush {σ : Type} (push : σ → Char → σ) : Sink σ where
  push := push

namespace Regex

/-! ## Parts -/

/-- How a pattern is written. -/
inductive Form where
  /-- As it stands. -/
  | regex
  /-- So that text on either side stays apart from it. -/
  | unit
  deriving DecidableEq

/-- A pattern to be written in one of the two forms. -/
structure Part (α : Type) where
  form : Form
  pattern : Pattern α

namespace Part

variable {σ α : Type}

/-- Write one part. -/
def write [Sink σ] (part : Part α) (out : Output σ α) : Output σ α :=
  match part.form with
  | .regex => part.pattern.writeRegex out
  | .unit => part.pattern.writeUnit out

/-- Write some parts, one after the other. -/
def writeAll [Sink σ] (parts : List (Part α)) (out : Output σ α) : Output σ α :=
  parts.foldl (fun out part => part.write out) out

/-- What a part amounts to by itself. -/
def alone (part : Part α) : Output String α :=
  part.write ⟨"", #[]⟩

/-- The characters of a part. -/
def text (part : Part α) : List Char :=
  match part.form with
  | .regex => part.pattern.text
  | .unit => groupedText part.pattern.isLoose part.pattern.text

/-! ## Writing pushes the texts in order -/

section

variable [Sink σ] [LawfulSink σ]

theorem write_eq_add (part : Part α) (out : Output σ α) :
    part.write out = out.add part.text part.pattern.captures := by
  obtain ⟨form, pattern⟩ := part
  cases form with
  | regex => exact pattern.writeRegex_eq_add out
  | unit => exact Output.grouped_eq_add pattern.writeRegex_eq_add pattern.isLoose out

theorem writeAll_eq_add (parts : List (Part α)) (out : Output σ α) :
    writeAll parts out = out.add (parts.flatMap text) (parts.flatMap (·.pattern.captures)) := by
  induction parts generalizing out with
  | nil => simp [writeAll]
  | cons part parts ih =>
    show writeAll parts (part.write out) = _
    rw [ih, write_eq_add, Output.add_add]
    rfl

end

theorem alone_eq (part : Part α) :
    part.alone = ⟨String.ofList part.text, part.pattern.captures.toArray⟩ := by
  rw [alone, write_eq_add, Output.add, Output.foldl_push_string]
  simp

/-- Whatever a lawful sink held before, it is pushed the texts that the parts have alone, in order. -/
theorem writeAll_eq_alone [Sink σ] [LawfulSink σ] (parts : List (Part α)) (before : σ)
    (labels : Array α) :
    writeAll parts ⟨before, labels⟩ =
      ⟨(String.join (parts.map (·.alone.sink))).toList.foldl Sink.push before,
        labels ++ (parts.flatMap (·.alone.captures.toList)).toArray⟩ := by
  have htexts : (String.join (parts.map (·.alone.sink))).toList = parts.flatMap text := by
    simp [alone_eq, List.flatMap_map]
  have hcaptures : (parts.flatMap (·.alone.captures.toList)) = parts.flatMap (·.pattern.captures) := by
    simp [alone_eq]
  rw [writeAll_eq_add, htexts, hcaptures]
  rfl

end Part

end Regex

namespace Document

open Json Regex

/-! ## The fields for patterns -/

/-- The fields of a body that hold regular expressions. -/
inductive PatternField where
  | whole
  | opening
  | closing
  deriving DecidableEq

namespace PatternField

def key : PatternField → String
  | .whole => "match"
  | .opening => "begin"
  | .closing => "end"

/-- The pattern under the field. -/
def pattern? : PatternField → Trigger Rule → Option (Pattern Rule)
  | .whole, .matching p => some p
  | .opening, .between p _ => some p
  | .closing, .between _ p => some p
  | _, _ => none

end PatternField

/-- In the body of a rule, the field for a pattern holds its regular expression, and is left out if the rule
has no such pattern. -/
theorem field?_bodyTree (nameOf? : Rule → Option String) (rule : Rule) (field : PatternField) :
    (bodyTree nameOf? rule).field? field.key =
      (field.pattern? (triggerOf rule)).map fun p => .string p.regex := by
  cases rule with
  | reference id name =>
    rw [bodyTree, field?_referenceTree name (by cases field <;> decide)]
    cases field <;> rfl
  | body id scope trigger inner =>
    have hscope : (scopeField scope).lookup field.key = none := by
      cases scope <;> cases field <;> simp [scopeField, List.lookup_cons, PatternField.key]
    have hinner : (innerField (inner.map (elementTree nameOf?))).lookup field.key = none := by
      cases inner <;> cases field <;> simp [innerField, List.lookup_cons, PatternField.key]
    have htrigger : (triggerFieldsOf (bodyTree nameOf?) trigger).lookup field.key =
        (field.pattern? trigger).map fun p => .string p.regex := by
      cases trigger <;> cases field <;>
        simp [triggerFieldsOf, List.lookup_append, lookup_patternFields, PatternField.key,
          PatternField.pattern?]
    rw [bodyTree_body, Value.field?, Value.fields, bodyFields, List.lookup_append, List.lookup_append,
      hscope, htrigger, hinner, Option.none_or, Option.or_none, triggerOf]

/-- A parser finds the regular expressions of a rule wherever the document writes the rule out. -/
theorem field?_valueAt? {g : Grammar} {place : Place} {rule : Rule} (hrule : ruleAt? g place = some rule)
    (hwritten : isWrittenOut g place rule = true) (field : PatternField) :
    (valueAt? (documentTree g.repository.nameOf? g) place).bind (·.field? field.key) =
      (field.pattern? (triggerOf rule)).map fun p => .string p.regex := by
  rw [valueAt?_tree, hrule, Option.map_some, treeAt_of_isWrittenOut hwritten]
  exact field?_bodyTree g.repository.nameOf? rule field

/-! ## Agreement -/

/-- Parts written to one output are the parts written alone, one after the other, with their labels in the
same order, whatever the output had before. A string and an array of characters hold the same text, and any
sink that takes one character at a time is given this text. A JSON string holds it with its characters
escaped, so that a parser reads it back. In particular a parser finds under `match`, `begin` and `end` the
regular expressions of the patterns of each rule that a document writes out. -/
theorem writeAll_agrees {α : Type} (parts : List (Regex.Part α)) (labels : Array α) :
    let text := String.join (parts.map (·.alone.sink))
    let recorded := labels ++ (parts.flatMap (·.alone.captures.toList)).toArray
    let escaped := "\"" ++ String.ofList (text.toList.flatMap escapeChar) ++ "\""
    (∀ before : String,
      Part.writeAll parts ⟨before, labels⟩ = ⟨before ++ text, recorded⟩) ∧
    (∀ before : Array Char,
      Part.writeAll parts ⟨before, labels⟩ = ⟨before ++ text.toList.toArray, recorded⟩) ∧
    (∀ (σ : Type) (push : σ → Char → σ) (before : σ),
      @Part.writeAll σ α (Sink.ofPush push) parts ⟨before, labels⟩ =
        ⟨text.toList.foldl push before, recorded⟩) ∧
    (∀ w : Writer,
      (Part.writeAll parts ⟨w.beginString, labels⟩).captures = recorded ∧
      (Part.writeAll parts ⟨w.beginString, labels⟩).sink.close = w.nextValue.raw escaped) ∧
    (Part.writeAll parts ⟨Writer.beginString {}, labels⟩).sink.close.finish = .ok escaped ∧
    Json.parse escaped = some (.string text) ∧
    ∀ g d, Grammar.compile g = .ok d → ∃ document, Json.parse d.text = some document ∧
      ∀ place rule field, ruleAt? g place = some rule → isWrittenOut g place rule = true →
        (valueAt? document place).bind (·.field? (PatternField.key field)) =
          (field.pattern? (triggerOf rule)).map fun p => .string p.regex := by
  intro text recorded escaped
  have hjson : ∀ w : Writer, Part.writeAll parts ⟨w.beginString, labels⟩ =
      ⟨⟨w.nextValue.raw ("\"" ++ String.ofList (text.toList.flatMap escapeChar))⟩, recorded⟩ := by
    intro w
    rw [Part.writeAll_eq_alone, Writer.foldl_push_openString, Writer.beginString, Writer.quote,
      Writer.raw_raw]
  have hclose : ∀ w : Writer,
      (Part.writeAll parts ⟨w.beginString, labels⟩).sink.close = w.nextValue.raw escaped := by
    intro w
    rw [hjson, Writer.OpenString.close, Writer.raw_raw]
  refine ⟨?_, ?_, ?_, ?_, ?_, ?_, ?_⟩
  · intro before
    rw [Part.writeAll_eq_alone, Output.foldl_push_string, String.ofList_toList]
  · intro before
    rw [Part.writeAll_eq_alone]
    show Output.mk (text.toList.foldl Array.push before) recorded = _
    rw [List.foldl_push_eq_append']
  · intro σ push before
    let _ : Sink σ := Sink.ofPush push
    have hlawful : LawfulSink σ := ⟨fun _ _ => rfl⟩
    exact Part.writeAll_eq_alone parts before labels
  · intro w
    exact ⟨by rw [hjson], hclose w⟩
  · rw [hclose]
    simp [Writer.nextValue, Writer.nextItem, Writer.raw, Writer.finish]
  · have hquoted : escaped = String.ofList (quoted text) := by
      apply String.toList_injective
      simp [escaped, quoted]
    rw [hquoted]
    exact parse_compact (.string text)
  · intro g d h
    refine ⟨documentTree g.repository.nameOf? g, ?_, ?_⟩
    · rw [text_eq_of_compile h, parse_compact]
    · intro place rule field hrule hwritten
      exact field?_valueAt? hrule hwritten field

/-- A sequence with a capture, and a set whose members are special in more than one way. -/
def mixedParts : List (Regex.Part Nat) :=
  [⟨.unit, .seq [.literal "a", .capture .any 7]⟩, ⟨.regex, .set .positive "\"\\"⟩]

theorem writeAll_agrees_mixedParts :
    Part.writeAll mixedParts (⟨"x", #[3]⟩ : Output String Nat) = ⟨"x(?:a(.))[\"\\\\]", #[3, 7]⟩ ∧
    ∃ d, quotedGrammar.compile = .ok d ∧ ∃ document, Json.parse d.text = some document ∧
      (valueAt? document (.topLevel 1)).bind (·.field? "match") = some (.string "a\\.b") := by
  obtain ⟨hstring, -, -, -, -, -, hdocument⟩ := writeAll_agrees mixedParts #[3]
  refine ⟨(hstring "x").trans ?_, ?_⟩
  · have htext : String.join (mixedParts.map (·.alone.sink)) = "(?:a(.))[\"\\\\]" := by decide +kernel
    rw [htext]
    rfl
  · have hok : quotedGrammar.compile.isOk := by decide +kernel
    cases hd : quotedGrammar.compile with
    | error failure =>
      rw [hd] at hok
      cases hok
    | ok d =>
      obtain ⟨document, hparse, hfields⟩ := hdocument quotedGrammar d hd
      refine ⟨d, rfl, document, hparse, ?_⟩
      exact hfields (.topLevel 1) _ .whole rfl (by decide +kernel)

end Document

end TextMate
