import TextMate.Proofs.Document.Parts
import TextMate.Proofs.Repository.Runs

/-!
# The references of a document

`Value.Holds` reaches every value inside a document, at any depth. Wherever an object in the document of a
grammar has a text under `include`, that field is all it has, and the text names an entry of the
repository: `everywhere_refers_bodyTree` says so of the body of a rule, and `everywhere_refers_tree` of the
whole document.
-/

namespace TextMate.Json.Value

/-! ## Inside a value -/

/-- The fields of an object. -/
def fields : Value → List (String × Value)
  | .object fields => fields
  | _ => []

/-- The elements of an array. -/
def elements : Value → List Value
  | .array vs => vs
  | _ => []

/-- The value under a key. -/
def field? (v : Value) (key : String) : Option Value :=
  v.fields.lookup key

/-- The element at a position of the array under a key. -/
def elementAt? (v : Value) (key : String) (i : Nat) : Option Value :=
  (v.field? key).bind fun w => w.elements[i]?

/-- The value at a position of the object under a key. -/
def fieldAt? (v : Value) (key : String) (i : Nat) : Option Value :=
  (v.field? key).bind fun w => (w.fields.map (·.2))[i]?

/-- `v.Holds w` says that `w` is `v`, or stands somewhere inside it. -/
inductive Holds : Value → Value → Prop
  | self (v : Value) : Holds v v
  | element {vs : List Value} {v w : Value} : v ∈ vs → Holds v w → Holds (.array vs) w
  | field {fields : List (String × Value)} {key : String} {v w : Value} : (key, v) ∈ fields →
      Holds v w → Holds (.object fields) w

/-- A property of a value and of all the values inside it. -/
def Everywhere (p : Value → Prop) (v : Value) : Prop :=
  ∀ w, v.Holds w → p w

variable {p : Value → Prop}

theorem everywhere_string {text : String} (h : p (.string text)) : Everywhere p (.string text) := by
  intro w hw
  cases hw
  exact h

theorem everywhere_array {vs : List Value} (h : p (.array vs)) (hvs : ∀ v ∈ vs, v.Everywhere p) :
    Everywhere p (.array vs) := by
  intro w hw
  cases hw with
  | self => exact h
  | element hv hw => exact hvs _ hv w hw

theorem everywhere_object {fields : List (String × Value)} (h : p (.object fields))
    (hfields : ∀ key v, (key, v) ∈ fields → v.Everywhere p) : Everywhere p (.object fields) := by
  intro w hw
  cases hw with
  | self => exact h
  | field hv hw => exact hfields _ _ hv w hw

end TextMate.Json.Value

namespace TextMate.Document

open Json

/-! ## The fields of a body -/

/-- The keys that a body may have. -/
def bodyKeys : List String :=
  ["name", "match", "captures", "begin", "beginCaptures", "end", "endCaptures", "patterns"]

theorem map_snd_numberedFields (number : Nat) (vs : List Value) :
    (numberedFields number vs).map (·.2) = vs := by
  induction vs generalizing number with
  | nil => rfl
  | cons v vs ih => rw [numberedFields, List.map_cons, ih]

theorem mem_of_mem_numberedFields {number : Nat} {vs : List Value} {key : String} {v : Value}
    (h : (key, v) ∈ numberedFields number vs) : v ∈ vs := by
  have hmem := List.mem_map_of_mem (f := (·.2)) h
  rwa [map_snd_numberedFields] at hmem

section

variable {treeOf elementOf : Rule → Value}

/-- Everything that a field for a pattern or for its captures can be. -/
theorem mem_patternFields {key capturesKey k : String} {pattern : Pattern Rule} {v : Value}
    (h : (k, v) ∈ patternFields key capturesKey pattern (pattern.captures.map treeOf)) :
    (k = key ∧ v = .string pattern.regex) ∨
    (k = capturesKey ∧ v = .object (numberedFields 1 (pattern.captures.map treeOf))) := by
  rw [patternFields, List.mem_cons] at h
  rcases h with h | h
  · cases h
    exact Or.inl ⟨rfl, rfl⟩
  · rw [capturesField] at h
    split at h
    · cases h
    · cases List.mem_singleton.mp h
      exact Or.inr ⟨rfl, rfl⟩

/-- Everything that a field of a body can be: a text, the rules for captured text, or the inner rules. -/
theorem mem_bodyFields {scope : Option String} {trigger : Trigger Rule} {inner : List Rule}
    {key : String} {v : Value} (h : (key, v) ∈ bodyFields treeOf elementOf scope trigger inner) :
    key ∈ bodyKeys ∧
    ((∃ text, v = .string text) ∨
      (∃ p ∈ triggerPatterns trigger, v = .object (numberedFields 1 (p.captures.map treeOf))) ∨
      v = .array (inner.map elementOf)) := by
  rw [bodyFields, List.mem_append, List.mem_append] at h
  rcases h with h | h | h
  · cases scope with
    | none => cases h
    | some scope =>
      cases List.mem_singleton.mp h
      exact ⟨by decide, Or.inl ⟨scope, rfl⟩⟩
  · cases trigger with
    | always => cases h
    | matching condition =>
      rcases mem_patternFields h with ⟨rfl, rfl⟩ | ⟨rfl, rfl⟩
      · exact ⟨by decide, Or.inl ⟨_, rfl⟩⟩
      · exact ⟨by decide, Or.inr (Or.inl ⟨condition, by simp [triggerPatterns], rfl⟩)⟩
    | between opening closing =>
      rcases List.mem_append.mp h with h | h
      · rcases mem_patternFields h with ⟨rfl, rfl⟩ | ⟨rfl, rfl⟩
        · exact ⟨by decide, Or.inl ⟨_, rfl⟩⟩
        · exact ⟨by decide, Or.inr (Or.inl ⟨opening, by simp [triggerPatterns], rfl⟩)⟩
      · rcases mem_patternFields h with ⟨rfl, rfl⟩ | ⟨rfl, rfl⟩
        · exact ⟨by decide, Or.inl ⟨_, rfl⟩⟩
        · exact ⟨by decide, Or.inr (Or.inl ⟨closing, by simp [triggerPatterns], rfl⟩)⟩
  · rw [innerField] at h
    split at h
    · cases h
    · cases List.mem_singleton.mp h
      exact ⟨by decide, Or.inr (Or.inr rfl)⟩

end

/-- The body of a rule is not a reference, unless the rule is one. -/
theorem bodyTree_ne_referenceTree {nameOf? : Rule → Option String} {rule : Rule}
    (h : rule.isReference = false) (name : String) : bodyTree nameOf? rule ≠ referenceTree name := by
  cases rule with
  | reference id name => cases h
  | body id scope trigger inner =>
    rw [bodyTree_body, referenceTree]
    intro heq
    -- a reference has a field that no body has
    have hmem : ("include", .string ("#" ++ name)) ∈
        bodyFields (bodyTree nameOf?) (elementTree nameOf?) scope trigger inner := by
      rw [Value.object.inj heq]
      exact List.mem_singleton_self _
    exact absurd (mem_bodyFields hmem).1 (by decide)

/-! ## References lead to entries -/

/-- If the value is an object with a text under `include`, it has nothing else, and the text refers to one
of the names. -/
def Refers (names : List String) (v : Value) : Prop :=
  ∀ items text, v = .object items → ("include", .string text) ∈ items →
    items = [("include", .string text)] ∧ ∃ name ∈ names, text = "#" ++ name

/-- What is not an object has no field. -/
theorem refers_of_not_object {names : List String} {v : Value} (h : ∀ items, v ≠ .object items) :
    Refers names v := by
  intro items text hitems
  exact absurd hitems (h items)

theorem everywhere_refers_reference {names : List String} {name : String} (h : name ∈ names) :
    (referenceTree name).Everywhere (Refers names) := by
  apply Value.everywhere_object
  · intro items text hitems hmem
    cases hitems
    cases List.mem_singleton.mp hmem
    exact ⟨rfl, name, h, rfl⟩
  · intro key v hv
    cases List.mem_singleton.mp hv
    exact Value.everywhere_string (refers_of_not_object (by simp))

/-- An object whose values are objects has no text under `include`. -/
theorem refers_of_objects {names : List String} {items : List (String × Value)}
    (h : ∀ key v, (key, v) ∈ items → ∃ fields, v = .object fields) : Refers names (.object items) := by
  intro items' text hitems hmem
  cases hitems
  obtain ⟨fields, hfields⟩ := h _ _ hmem
  cases hfields

/-- The names of the entries, in their order. -/
def entryNames (g : Grammar) : List String :=
  g.repository.entries.toList.map (·.name)

theorem mem_entryNames {g : Grammar} {name : String} :
    name ∈ entryNames g ↔ ∃ entry ∈ g.repository.entries, entry.name = name := by
  simp [entryNames]

section

variable {g : Grammar} (hg : g.repository.Reachable)

include hg

theorem mem_entryNames_of_nameOf? {rule : Rule} {name : String}
    (h : g.repository.nameOf? rule = some name) : name ∈ entryNames g := by
  obtain ⟨entry, hentry, -, hname⟩ := (hg.coherent.nameOf?_eq_some_iff rule name).mp h
  exact mem_entryNames.mpr ⟨entry, hentry, hname⟩

theorem isRegistered_of_nameOf?_none {rule : Rule} (h : g.repository.nameOf? rule = none) :
    isRegistered g.repository.entries.toList rule = false := by
  have hsome := isSome_nameOf? hg rule
  rw [h] at hsome
  exact hsome.symm

/-- In the body of a rule that the document writes out, every reference leads to an entry. -/
theorem everywhere_refers_bodyTree
    (hreferred : ∀ id name, Expanded g (.reference id name) → name ∈ entryNames g) (rule : Rule)
    (h : Expanded g rule) :
    (bodyTree g.repository.nameOf? rule).Everywhere (Refers (entryNames g)) := by
  induction rule using induction_on_parts with
  | step rule ihinner ihcapture =>
    cases rule with
    | reference id name => exact everywhere_refers_reference (hreferred id name h)
    | body id scope trigger inner =>
      rw [bodyTree_body]
      apply Value.everywhere_object
      · -- no field of a body is called `include`
        intro items text hitems hmem
        cases hitems
        exact absurd (mem_bodyFields hmem).1 (by decide)
      · intro key v hv
        rcases (mem_bodyFields hv).2 with ⟨text, rfl⟩ | ⟨p, hp, rfl⟩ | rfl
        · exact Value.everywhere_string (refers_of_not_object (by simp))
        · apply Value.everywhere_object
          · apply refers_of_objects
            intro key w hw
            obtain ⟨label, -, rfl⟩ := List.mem_map.mp (mem_of_mem_numberedFields hw)
            exact exists_bodyTree_eq_object _ label
          · intro key w hw
            obtain ⟨label, hlabel, rfl⟩ := List.mem_map.mp (mem_of_mem_numberedFields hw)
            have hpart : label ∈ captureRules (.body id scope trigger inner) :=
              List.mem_flatMap.mpr ⟨p, hp, hlabel⟩
            exact ihcapture label hpart (h.capture hpart)
        · apply Value.everywhere_array
          · exact refers_of_not_object (by simp)
          · intro w hw
            obtain ⟨part, hpart, rfl⟩ := List.mem_map.mp hw
            rw [elementTree]
            cases hname : g.repository.nameOf? part with
            | some name => exact everywhere_refers_reference (mem_entryNames_of_nameOf? hg hname)
            | none => exact ihinner part hpart (h.inner hpart (isRegistered_of_nameOf?_none hg hname))

/-- In the whole document every reference leads to an entry. -/
theorem everywhere_refers_tree
    (hreferred : ∀ id name, Expanded g (.reference id name) → name ∈ entryNames g) :
    (documentTree g.repository.nameOf? g).Everywhere (Refers (entryNames g)) := by
  have hbody := everywhere_refers_bodyTree hg hreferred
  apply Value.everywhere_object
  · intro items text hitems hmem
    cases hitems
    simp at hmem
  · intro key v hv
    simp only [List.mem_cons, Prod.mk.injEq, List.not_mem_nil, or_false] at hv
    rcases hv with ⟨-, rfl⟩ | ⟨-, rfl⟩ | ⟨-, rfl⟩ | ⟨-, rfl⟩
    · exact Value.everywhere_string (refers_of_not_object (by simp))
    · exact Value.everywhere_string (refers_of_not_object (by simp))
    · rw [elementTrees_eq_map]
      apply Value.everywhere_array
      · exact refers_of_not_object (by simp)
      · intro w hw
        obtain ⟨rule, hrule, rfl⟩ := List.mem_map.mp hw
        rw [elementTree]
        cases hname : g.repository.nameOf? rule with
        | some name => exact everywhere_refers_reference (mem_entryNames_of_nameOf? hg hname)
        | none => exact hbody rule (.topLevel hrule (isRegistered_of_nameOf?_none hg hname))
    · have hentry : ∀ key v, (key, v) ∈ entryFields g.repository.nameOf? g.repository.entries.toList →
          ∃ entry ∈ g.repository.entries, v = bodyTree g.repository.nameOf? entry.rule := by
        intro key v hv
        obtain ⟨entry, hmem, heq⟩ := List.mem_map.mp hv
        cases heq
        exact ⟨entry, Array.mem_toList_iff.mp hmem, rfl⟩
      apply Value.everywhere_object
      · apply refers_of_objects
        intro key w hw
        obtain ⟨entry, -, rfl⟩ := hentry key w hw
        exact exists_bodyTree_eq_object _ entry.rule
      · intro key w hw
        obtain ⟨entry, hmem, rfl⟩ := hentry key w hw
        exact hbody entry.rule (.entry hmem)

end

end TextMate.Document
