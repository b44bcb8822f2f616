import TextMate.Proofs.Document.Resolution

/-!
# The keys of a document

A reader of a document may keep only one of two fields with the same key. No object of the document of a
grammar has two such fields, at any depth: the keys of a body are some of `bodyKeys`, in that order, the
keys of captures are different numbers in decimal digits, and the keys of the repository are the names of
its entries.
-/

namespace TextMate.Json.Value

/-- If no two fields share a key, each of them is found under its key. -/
theorem field?_eq_some_of_mem {v w : Value} {key : String} (hkeys : v.keys.Nodup)
    (h : (key, w) ∈ v.fields) : v.field? key = some w := by
  rw [field?, List.lookup_eq_some_iff]
  obtain ⟨before, after, hsplit⟩ := List.append_of_mem h
  refine ⟨before, after, hsplit, ?_⟩
  rintro ⟨key', w'⟩ hmem
  rw [keys, hsplit, List.map_append, List.map_cons, List.nodup_append] at hkeys
  obtain ⟨-, -, hne⟩ := hkeys
  simpa using (hne key' (List.mem_map_of_mem hmem) key List.mem_cons_self).symm

end TextMate.Json.Value

namespace TextMate.Document

open Json

/-- No two fields of the value share a key. -/
def DistinctKeys (v : Value) : Prop :=
  v.keys.Nodup

theorem everywhere_distinctKeys_string (text : String) : (Value.string text).Everywhere DistinctKeys :=
  Value.everywhere_string List.nodup_nil

theorem everywhere_distinctKeys_array {vs : List Value} (h : ∀ v ∈ vs, v.Everywhere DistinctKeys) :
    (Value.array vs).Everywhere DistinctKeys :=
  Value.everywhere_array List.nodup_nil h

/-! ## Numbers as keys -/

/-- Different numbers have different digits. -/
theorem toString_nat_injective : Function.Injective (toString : Nat → String) := by
  intro m n h
  have hdigits : Nat.toDigits 10 m = Nat.toDigits 10 n := by
    rw [← Nat.toList_repr, ← Nat.toList_repr]
    exact congrArg String.toList h
  calc m = Nat.ofDigitChars 10 (Nat.toDigits 10 m) 0 := Nat.ofDigitChars_ten_toDigits.symm
    _ = Nat.ofDigitChars 10 (Nat.toDigits 10 n) 0 := by rw [hdigits]
    _ = n := Nat.ofDigitChars_ten_toDigits

theorem map_fst_numberedFields (number : Nat) (vs : List Value) :
    (numberedFields number vs).map (·.1) = (List.range' number vs.length).map toString := by
  induction vs generalizing number with
  | nil => rfl
  | cons v vs ih =>
    rw [numberedFields, List.map_cons, ih, List.length_cons, List.range'_succ, List.map_cons]

theorem distinctKeys_numberedFields (number : Nat) (vs : List Value) :
    DistinctKeys (.object (numberedFields number vs)) := by
  rw [DistinctKeys, Value.keys, Value.fields, map_fst_numberedFields]
  exact (List.nodup_range' ..).map toString_nat_injective

/-! ## The keys of a body -/

section

variable {treeOf elementOf : Rule → Value}

theorem keys_patternFields_sublist (key capturesKey : String) (pattern : Pattern Rule)
    (captures : List Value) :
    ((patternFields key capturesKey pattern captures).map (·.1)).Sublist [key, capturesKey] := by
  rw [patternFields, capturesField]
  split
  · exact .cons_cons key (.cons capturesKey .slnil)
  · exact .refl _

theorem keys_triggerFieldsOf_sublist (trigger : Trigger Rule) :
    ((triggerFieldsOf treeOf trigger).map (·.1)).Sublist
      ["match", "captures", "begin", "beginCaptures", "end", "endCaptures"] := by
  cases trigger with
  | always => exact List.nil_sublist _
  | matching condition =>
    have h := keys_patternFields_sublist "match" "captures" condition (condition.captures.map treeOf)
    exact h.trans (List.sublist_append_left ["match", "captures"] _)
  | between opening closing =>
    have hopening :=
      keys_patternFields_sublist "begin" "beginCaptures" opening (opening.captures.map treeOf)
    have hclosing := keys_patternFields_sublist "end" "endCaptures" closing (closing.captures.map treeOf)
    rw [triggerFieldsOf, List.map_append]
    exact (hopening.append hclosing).trans (List.sublist_append_right ["match", "captures"] _)

/-- The keys of a body are some of `bodyKeys`, in their order. -/
theorem keys_bodyFields_sublist (scope : Option String) (trigger : Trigger Rule) (inner : List Rule) :
    ((bodyFields treeOf elementOf scope trigger inner).map (·.1)).Sublist bodyKeys := by
  have hscope : ((scopeField scope).map (·.1)).Sublist ["name"] := by
    cases scope with
    | none => exact List.nil_sublist _
    | some scope => exact .refl _
  have hinner : ((innerField (inner.map elementOf)).map (·.1)).Sublist ["patterns"] := by
    rw [innerField]
    split
    · exact List.nil_sublist _
    · exact .refl _
  rw [bodyFields, List.map_append, List.map_append]
  exact hscope.append ((keys_triggerFieldsOf_sublist trigger).append hinner)

theorem distinctKeys_bodyFields (scope : Option String) (trigger : Trigger Rule) (inner : List Rule) :
    DistinctKeys (.object (bodyFields treeOf elementOf scope trigger inner)) := by
  have hnodup : bodyKeys.Nodup := by decide
  exact hnodup.sublist (keys_bodyFields_sublist scope trigger inner)

end

/-! ## Every object of a document -/

theorem everywhere_distinctKeys_reference (name : String) :
    (referenceTree name).Everywhere DistinctKeys := by
  apply Value.everywhere_object
  · exact List.nodup_singleton _
  · intro key v hv
    cases List.mem_singleton.mp hv
    exact everywhere_distinctKeys_string _

section

variable (nameOf? : Rule → Option String)

theorem everywhere_distinctKeys_elementTree {rule : Rule}
    (h : (bodyTree nameOf? rule).Everywhere DistinctKeys) :
    (elementTree nameOf? rule).Everywhere DistinctKeys := by
  rw [elementTree]
  split
  · exact everywhere_distinctKeys_reference _
  · exact h

/-- No object in the body of a rule repeats a key. -/
theorem everywhere_distinctKeys_bodyTree (rule : Rule) :
    (bodyTree nameOf? rule).Everywhere DistinctKeys := by
  induction rule using induction_on_parts with
  | step rule ihinner ihcapture =>
    cases rule with
    | reference id name => exact everywhere_distinctKeys_reference name
    | body id scope trigger inner =>
      rw [bodyTree_body]
      apply Value.everywhere_object
      · exact distinctKeys_bodyFields scope trigger inner
      · intro key v hv
        rcases (mem_bodyFields hv).2 with ⟨text, rfl⟩ | ⟨p, hp, rfl⟩ | rfl
        · exact everywhere_distinctKeys_string text
        · apply Value.everywhere_object
          · exact distinctKeys_numberedFields 1 _
          · intro key w hw
            obtain ⟨label, hlabel, rfl⟩ := List.mem_map.mp (mem_of_mem_numberedFields hw)
            exact ihcapture label (List.mem_flatMap.mpr ⟨p, hp, hlabel⟩)
        · apply everywhere_distinctKeys_array
          intro w hw
          obtain ⟨part, hpart, rfl⟩ := List.mem_map.mp hw
          exact everywhere_distinctKeys_elementTree nameOf? (ihinner part hpart)

/-- No object in the whole document repeats a key, since no two entries share a name. -/
theorem everywhere_distinctKeys_tree {g : Grammar} (hg : g.repository.Reachable) :
    (documentTree nameOf? g).Everywhere DistinctKeys := by
  apply Value.everywhere_object
  · simp [DistinctKeys, Value.keys, Value.fields]
  · intro key v hv
    simp only [List.mem_cons, Prod.mk.injEq, List.not_mem_nil, or_false] at hv
    rcases hv with ⟨-, rfl⟩ | ⟨-, rfl⟩ | ⟨-, rfl⟩ | ⟨-, rfl⟩
    · exact everywhere_distinctKeys_string _
    · exact everywhere_distinctKeys_string _
    · rw [elementTrees_eq_map]
      apply everywhere_distinctKeys_array
      intro w hw
      obtain ⟨rule, -, rfl⟩ := List.mem_map.mp hw
      exact everywhere_distinctKeys_elementTree nameOf? (everywhere_distinctKeys_bodyTree nameOf? rule)
    · apply Value.everywhere_object
      · have hnames := hg.coherent.indexed.names.nodup
        simpa [DistinctKeys, Value.keys, Value.fields, entryFields, Function.comp_def] using hnames
      · intro key w hw
        obtain ⟨entry, -, heq⟩ := List.mem_map.mp hw
        cases heq
        exact everywhere_distinctKeys_bodyTree nameOf? entry.rule

end

/-- No object of a compiled document repeats a key, at any depth, so each of its fields is found under its
key. -/
theorem keys_distinct (g : Grammar) (hg : g.repository.Reachable) (d : Document)
    (hd : g.compile = .ok d) :
    ∃ document, parse d.text = some document ∧
      ∀ fields, document.Holds (.object fields) →
        (fields.map (·.1)).Nodup ∧
        ∀ key v, (key, v) ∈ fields → (Value.object fields).field? key = some v := by
  refine ⟨documentTree g.repository.nameOf? g, parse_text hg hd, ?_⟩
  intro fields hholds
  have hkeys : DistinctKeys (.object fields) :=
    everywhere_distinctKeys_tree g.repository.nameOf? hg _ hholds
  exact ⟨hkeys, fun key v hmem => Value.field?_eq_some_of_mem hkeys hmem⟩

/-- A rule that captures eleven characters, each with the same rule. -/
def elevenRule : Rule :=
  .body 1 none (.matching (.seq (List.replicate 11 (.capture .any (.body 2 (some "one") .always []))))) []

/-- A grammar with two entries whose names differ in a quotation mark only. -/
def elevenGrammar : Grammar where
  name := "Eleven"
  scopeName := "source.eleven"
  topLevel := [elevenRule, .body 3 none .always [elevenRule, .reference 4 "one"]]
  repository := (Repository.insert {} "one" elevenRule).insert "one\"" (.body 5 none .always [elevenRule])

theorem reachable_elevenGrammar : elevenGrammar.repository.Reachable := by
  have hone : (Repository.insert {} "one" elevenRule).Reachable := .insert .empty (by decide +kernel)
  exact hone.insert (by decide +kernel)

theorem keys_distinct_elevenGrammar :
    ∃ d document, elevenGrammar.compile = .ok d ∧ parse d.text = some document ∧
      ∀ fields, document.Holds (.object fields) →
        (fields.map (·.1)).Nodup ∧
        ∀ key v, (key, v) ∈ fields → (Value.object fields).field? key = some v := by
  have hok : elevenGrammar.compile.isOk := by decide +kernel
  cases hd : elevenGrammar.compile with
  | error failure =>
    rw [hd] at hok
    cases hok
  | ok d =>
    obtain ⟨document, hdocument⟩ := keys_distinct elevenGrammar reachable_elevenGrammar d hd
    exact ⟨d, document, rfl, hdocument⟩

end TextMate.Document
