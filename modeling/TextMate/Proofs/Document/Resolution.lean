import TextMate.Proofs.Document.References

/-!
# Putting a value back for references

`Value.resolve name replacement` puts a value back wherever a document refers to the entry called `name`. In
the body of a rule it works part by part, `resolve_bodyFields`: what is put back in a body is put back in the
bodies for its captured text and in the elements of its list.
-/

namespace TextMate.Json.Value

/-! ## Values -/

/-- Whether the fields are those of a reference to `name`. -/
def refersTo (name : String) : List (String × Value) → Bool
  | [(key, .string text)] => key == "include" && text == "#" ++ name
  | _ => false

section

variable (name : String) (replacement : Value)

mutual

/-- Put a value back for each reference to `name`. -/
def resolve : Value → Value
  | .array vs => .array (resolveElements vs)
  | .object fields => if refersTo name fields then replacement else .object (resolveFields fields)
  | .null => .null
  | .bool b => .bool b
  | .number n => .number n
  | .string text => .string text

/-- Put a value back for each reference in the elements of an array. -/
def resolveElements : List Value → List Value
  | [] => []
  | v :: vs => resolve v :: resolveElements vs

/-- Put a value back for each reference in the fields of an object. -/
def resolveFields : List (String × Value) → List (String × Value)
  | [] => []
  | (key, v) :: fields => (key, resolve v) :: resolveFields fields

end

end

/-- The keys of an object. -/
def keys (v : Value) : List String :=
  v.fields.map (·.1)

/-- Leave a field of an object out. -/
def dropField (name : String) : Value → Value
  | .object fields => .object (fields.filter (·.1 ≠ name))
  | v => v

/-- Change the value under a key. -/
def modifyField (key : String) (f : Value → Value) : Value → Value
  | .object fields =>
    .object (fields.map fun field => if field.1 = key then (key, f field.2) else field)
  | v => v

section

variable {name : String} {replacement : Value}

theorem resolveElements_eq_map (vs : List Value) :
    resolveElements name replacement vs = vs.map (resolve name replacement) := by
  induction vs with
  | nil => rfl
  | cons v vs ih => rw [resolveElements, ih, List.map_cons]

theorem resolveFields_append (fields fields' : List (String × Value)) :
    resolveFields name replacement (fields ++ fields') =
      resolveFields name replacement fields ++ resolveFields name replacement fields' := by
  induction fields with
  | nil => rfl
  | cons field fields ih => rw [List.cons_append, resolveFields, ih, resolveFields, List.cons_append]

/-- Without the field of a reference to the name, an object stays an object. -/
theorem resolve_object {fields : List (String × Value)}
    (h : ("include", .string ("#" ++ name)) ∉ fields) :
    resolve name replacement (.object fields) = .object (resolveFields name replacement fields) := by
  have hrefers : refersTo name fields = false := by
    unfold refersTo
    split
    · next key text =>
      simp only [List.mem_singleton, Prod.mk.injEq, string.injEq] at h
      grind
    · rfl
  rw [resolve, hrefers, if_neg Bool.false_ne_true]

end

end TextMate.Json.Value

namespace TextMate.Document

open Json

section

variable {name : String} {replacement : Value}

theorem resolve_reference : Value.resolve name replacement (referenceTree name) = replacement := by
  rw [referenceTree, Value.resolve, if_pos (by simp [Value.refersTo])]

theorem resolve_reference_of_ne {other : String} (h : other ≠ name) :
    Value.resolve name replacement (referenceTree other) = referenceTree other := by
  rw [referenceTree, Value.resolve_object]
  · rfl
  · simpa using h.symm

theorem resolve_numberedFields (number : Nat) (vs : List Value) :
    Value.resolveFields name replacement (numberedFields number vs) =
      numberedFields number (vs.map (Value.resolve name replacement)) := by
  induction vs generalizing number with
  | nil => rfl
  | cons v vs ih => rw [numberedFields, Value.resolveFields, ih, List.map_cons, numberedFields]

/-! ## Bodies -/

variable {treeOf elementOf : Rule → Value}

theorem resolve_capturesField (hobject : ∀ rule, ∃ fields, treeOf rule = .object fields) (key : String)
    (labels : List Rule) :
    Value.resolveFields name replacement (capturesField key (labels.map treeOf)) =
      capturesField key (labels.map fun rule => Value.resolve name replacement (treeOf rule)) := by
  cases labels with
  | nil => rfl
  | cons label labels =>
    have hcaptures : ("include", .string ("#" ++ name)) ∉
        numberedFields 1 ((label :: labels).map treeOf) := by
      intro hmem
      obtain ⟨rule, -, hrule⟩ := List.mem_map.mp (mem_of_mem_numberedFields hmem)
      obtain ⟨fields, hfields⟩ := hobject rule
      rw [hfields] at hrule
      cases hrule
    simp only [capturesField, List.map_cons, List.isEmpty_cons, Bool.false_eq_true, if_false]
    rw [Value.resolveFields, ← List.map_cons, Value.resolve_object hcaptures, resolve_numberedFields,
      List.map_map]
    rfl

theorem resolve_patternFields (hobject : ∀ rule, ∃ fields, treeOf rule = .object fields)
    (key capturesKey : String) (pattern : Pattern Rule) :
    Value.resolveFields name replacement
        (patternFields key capturesKey pattern (pattern.captures.map treeOf)) =
      patternFields key capturesKey pattern
        (pattern.captures.map fun rule => Value.resolve name replacement (treeOf rule)) := by
  rw [patternFields, Value.resolveFields, resolve_capturesField hobject, Value.resolve, patternFields]

/-- The fields of a body are resolved part by part. -/
theorem resolve_bodyFields (hobject : ∀ rule, ∃ fields, treeOf rule = .object fields)
    (scope : Option String) (trigger : Trigger Rule) (inner : List Rule) :
    Value.resolve name replacement (.object (bodyFields treeOf elementOf scope trigger inner)) =
      .object (bodyFields (fun rule => Value.resolve name replacement (treeOf rule))
        (fun rule => Value.resolve name replacement (elementOf rule)) scope trigger inner) := by
  have hscope : Value.resolveFields name replacement (scopeField scope) = scopeField scope := by
    cases scope with
    | none => rfl
    | some scope => rfl
  have htrigger : Value.resolveFields name replacement (triggerFieldsOf treeOf trigger) =
      triggerFieldsOf (fun rule => Value.resolve name replacement (treeOf rule)) trigger := by
    cases trigger with
    | always => rfl
    | matching condition => exact resolve_patternFields hobject _ _ condition
    | between opening closing =>
      rw [triggerFieldsOf, Value.resolveFields_append, resolve_patternFields hobject,
        resolve_patternFields hobject, triggerFieldsOf]
  have hinner : Value.resolveFields name replacement (innerField (inner.map elementOf)) =
      innerField (inner.map fun rule => Value.resolve name replacement (elementOf rule)) := by
    cases inner with
    | nil => rfl
    | cons rule rules =>
      simp only [innerField, List.map_cons, List.isEmpty_cons, Bool.false_eq_true, if_false]
      rw [Value.resolveFields, Value.resolve, Value.resolveElements_eq_map, ← List.map_cons,
        List.map_map]
      rfl
  rw [Value.resolve_object, bodyFields, Value.resolveFields_append, Value.resolveFields_append, hscope,
    htrigger, hinner, bodyFields]
  -- no field of a body is called `include`
  intro hmem
  exact absurd (mem_bodyFields hmem).1 (by decide)

end

end TextMate.Document
