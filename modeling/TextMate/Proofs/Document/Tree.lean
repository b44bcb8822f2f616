import Mathlib.Data.List.Forall2
import TextMate.Proofs.Document.Steps
import TextMate.Proofs.Json.Parser
import TextMate.Proofs.Repository.Indexed

/-!
# The document as a tree

The document of a grammar, said without a writer, without a list of steps and without remembering what has
been written: `tree g` is a JSON value by recursion on the rules of `g`. The calls that compiling makes on
the writer write exactly this value (`writes_steps`), so a grammar that has a document has this one, and a
JSON parser reads it back.
-/

namespace TextMate.Document

open Json

/-! ## The tree -/

/-- A reference to the entry called `name`. -/
def referenceTree (name : String) : Value :=
  .object [("include", .string ("#" ++ name))]

/-- Values under the keys `number`, `number + 1` and so on. -/
def numberedFields : (number : Nat) → List Value → List (String × Value)
  | _, [] => []
  | number, v :: vs => (toString number, v) :: numberedFields (number + 1) vs

/-- The field for the captures of a pattern, which is left out if there are none. -/
def capturesField (key : String) (captures : List Value) : List (String × Value) :=
  if captures.isEmpty then [] else [(key, .object (numberedFields 1 captures))]

/-- The field for a pattern and the field for its captures. -/
def patternFields (key capturesKey : String) (pattern : Pattern Rule) (captures : List Value) :
    List (String × Value) :=
  (key, .string pattern.regex) :: capturesField capturesKey captures

/-- The field for a scope, which is left out if there is none. -/
def scopeField : Option String → List (String × Value)
  | some scope => [("name", .string scope)]
  | none => []

/-- The field for inner rules, which is left out if there are none. -/
def innerField (elements : List Value) : List (String × Value) :=
  if elements.isEmpty then [] else [("patterns", .array elements)]

section

variable (nameOf? : Rule → Option String)

mutual

/-- The body of a rule. -/
def bodyTree : Rule → Value
  | .reference _ name => referenceTree name
  | .body _ scope trigger inner =>
    .object (scopeField scope ++ (triggerFields trigger ++ innerField (elementTrees inner)))

/-- The elements of a list of rules: a reference for a rule with a name, a body for any other. -/
def elementTrees : List Rule → List Value
  | [] => []
  | rule :: rules =>
    (match nameOf? rule with
      | some name => referenceTree name
      | none => bodyTree rule) :: elementTrees rules

/-- The fields for the patterns of a trigger. -/
def triggerFields : Trigger Rule → List (String × Value)
  | .always => []
  | .matching condition => patternFields "match" "captures" condition (captureTrees condition)
  | .between opening closing =>
    patternFields "begin" "beginCaptures" opening (captureTrees opening) ++
      patternFields "end" "endCaptures" closing (captureTrees closing)

/-- The bodies of the rules of the captures of a pattern. -/
def captureTrees : Pattern Rule → List Value
  | .capture body rule => bodyTree rule :: captureTrees body
  | .alt ps | .seq ps => captureTreesAll ps
  | .rep body _ _ | .look _ _ body => captureTrees body
  | .set _ _ | .range _ _ _ | .any | .literal _ | .lineStart | .lineEnd => []

/-- The bodies of the rules of the captures of several patterns. -/
def captureTreesAll : List (Pattern Rule) → List Value
  | [] => []
  | p :: ps => captureTrees p ++ captureTreesAll ps

end

/-- The fields for the entries of a repository. -/
def entryFields (entries : List Entry) : List (String × Value) :=
  entries.map fun entry => (entry.name, bodyTree nameOf? entry.rule)

mutual

/-- The bodies under the numbers are those of the captured rules, in their order. -/
theorem captureTrees_eq_map : (p : Pattern Rule) →
    captureTrees nameOf? p = p.captures.map (bodyTree nameOf?)
  | .capture body rule => by
    rw [captureTrees, Pattern.captures, List.map_cons, captureTrees_eq_map body]
  | .alt ps => captureTreesAll_eq_map ps
  | .seq ps => captureTreesAll_eq_map ps
  | .rep body _ _ => captureTrees_eq_map body
  | .look _ _ body => captureTrees_eq_map body
  | .set _ _ => rfl
  | .range _ _ _ => rfl
  | .any => rfl
  | .literal _ => rfl
  | .lineStart => rfl
  | .lineEnd => rfl

theorem captureTreesAll_eq_map : (ps : List (Pattern Rule)) →
    captureTreesAll nameOf? ps = (Pattern.capturesAll ps).map (bodyTree nameOf?)
  | [] => rfl
  | p :: ps => by
    rw [captureTreesAll, Pattern.capturesAll, List.map_append, captureTrees_eq_map p,
      captureTreesAll_eq_map ps]

end

end

/-- The document of a grammar, given the names of the registered rules. -/
def documentTree (nameOf? : Rule → Option String) (g : Grammar) : Value :=
  .object [
    ("name", .string g.name),
    ("scopeName", .string g.scopeName),
    ("patterns", .array (elementTrees nameOf? g.topLevel)),
    ("repository", .object (entryFields nameOf? g.repository.entries.toList))]

/-- The document of a grammar. A rule has a name if an entry of the repository holds it. -/
def tree (g : Grammar) : Value :=
  documentTree (Repository.registeredName? g.repository.entries.toList) g

/-! ## Fields and elements, one after the other -/

theorem compactFields_append (fields fields' : List (String × Value)) :
    compactFields (fields ++ fields') = compactFields fields ++ compactFields fields' := by
  induction fields with
  | nil => rfl
  | cons field fields ih => simp [compactFields, ih]

/-! ## The calls write the tree -/

/-- The calls of some steps. -/
def callsOf (steps : List Step) : List Call :=
  steps.flatMap Step.calls

@[simp] theorem callsOf_nil : callsOf [] = [] := rfl

@[simp] theorem callsOf_cons (step : Step) (steps : List Step) :
    callsOf (step :: steps) = step.calls ++ callsOf steps := by
  simp [callsOf]

@[simp] theorem callsOf_append (steps steps' : List Step) :
    callsOf (steps ++ steps') = callsOf steps ++ callsOf steps' := by
  simp [callsOf]

theorem writes_reference (name : String) :
    Writes (callsOf (referenceSteps name)) (referenceTree name) := by
  have hvalue := (writes_string ["#", name]).field "include"
  have hjoin : String.join ["#", name] = "#" ++ name := by
    simp
  rw [hjoin] at hvalue
  exact Writes.object hvalue

/-- Numbered fields are written if their values are. -/
theorem writesItems_numbered {values : List (List Step)} {vs : List Value}
    (h : List.Forall₂ (fun steps v => Writes (callsOf steps) v) values vs) (number : Nat) :
    WritesItems .object (callsOf (numberedSteps number values))
      (compactFields (numberedFields number vs)) := by
  induction h generalizing number with
  | nil => exact .nil _
  | @cons value v values vs hvalue _ ih =>
    have hfield := hvalue.field (toString number)
    have hmore := hfield.append (ih (number + 1))
    simpa [numberedSteps, numberedFields, compactFields, Step.calls] using hmore

theorem writesItems_pattern (key capturesKey : String) (pattern : Pattern Rule)
    {captures : List (List Step)} {vs : List Value}
    (h : List.Forall₂ (fun steps v => Writes (callsOf steps) v) captures vs) :
    WritesItems .object (callsOf (patternSteps key capturesKey pattern captures))
      (compactFields (patternFields key capturesKey pattern vs)) := by
  have hpattern := (writes_string [pattern.regex]).field key
  have hjoin : String.join [pattern.regex] = pattern.regex := by
    simp
  rw [hjoin] at hpattern
  have hcaptures : WritesItems .object (callsOf (capturesSteps capturesKey captures))
      (compactFields (capturesField capturesKey vs)) := by
    have hobject := (Writes.object (writesItems_numbered h 1)).field capturesKey
    cases h with
    | nil => exact .nil _
    | cons => simpa [capturesSteps, capturesField, compactFields, Step.calls] using hobject
  have hboth := hpattern.append hcaptures
  simpa [patternSteps, patternFields, compactFields, Step.calls] using hboth

theorem writesItems_scope (scope : Option String) :
    WritesItems .object (callsOf (scopeSteps scope)) (compactFields (scopeField scope)) := by
  cases scope with
  | none => exact .nil _
  | some scope => exact writesItems_field "name" scope

section

variable (repository : Repository)

mutual

theorem writes_body : (inCapture : Bool) → (rule : Rule) →
    Writes (callsOf (bodySteps repository inCapture rule)) (bodyTree repository.nameOf? rule)
  | inCapture, .reference id name => writes_reference name
  | inCapture, .body id scope trigger inner => by
    have hinner : WritesItems .object
        (callsOf (innerSteps inner (rulesSteps repository inCapture inner)))
        (compactFields (innerField (elementTrees repository.nameOf? inner))) := by
      have harray := (Writes.array (writesItems_rules inCapture inner)).field "patterns"
      cases inner with
      | nil => exact .nil _
      | cons rule rules =>
        simpa [innerSteps, innerField, elementTrees, compactFields, Step.calls] using harray
    have hfields := (writesItems_scope scope).append ((writesItems_trigger trigger).append hinner)
    rw [← compactFields_append, ← compactFields_append] at hfields
    have hobject := Writes.object hfields
    simpa [bodySteps, bodyTree, Step.calls] using hobject

theorem writesItems_rules : (inCapture : Bool) → (rules : List Rule) →
    WritesItems .array (callsOf (rulesSteps repository inCapture rules))
      (compactElements (elementTrees repository.nameOf? rules))
  | inCapture, [] => .nil _
  | inCapture, rule :: rules => by
    have hbody := (writes_body inCapture rule).element
    have hrules := writesItems_rules inCapture rules
    have hinline : callsOf (inlineSteps inCapture rule) = [] := by
      unfold inlineSteps
      split <;> rfl
    rw [rulesSteps, elementTrees, callsOf_append]
    cases repository.nameOf? rule with
    | some name => exact (writes_reference name).element.append hrules
    | none =>
      rw [callsOf_append, hinline, List.nil_append]
      exact hbody.append hrules

theorem writesItems_trigger : (trigger : Trigger Rule) →
    WritesItems .object (callsOf (triggerSteps repository trigger))
      (compactFields (triggerFields repository.nameOf? trigger))
  | .always => .nil _
  | .matching condition => writesItems_pattern "match" "captures" condition (writes_captures condition)
  | .between opening closing => by
    have hopening := writesItems_pattern "begin" "beginCaptures" opening (writes_captures opening)
    have hclosing := writesItems_pattern "end" "endCaptures" closing (writes_captures closing)
    have hboth := hopening.append hclosing
    rwa [← callsOf_append, ← compactFields_append] at hboth

theorem writes_captures : (p : Pattern Rule) →
    List.Forall₂ (fun steps v => Writes (callsOf steps) v) (captureSteps repository p)
      (captureTrees repository.nameOf? p)
  | .capture body rule => .cons (writes_body true rule) (writes_captures body)
  | .alt ps => writes_capturesAll ps
  | .seq ps => writes_capturesAll ps
  | .rep body _ _ => writes_captures body
  | .look _ _ body => writes_captures body
  | .set _ _ => .nil
  | .range _ _ _ => .nil
  | .any => .nil
  | .literal _ => .nil
  | .lineStart => .nil
  | .lineEnd => .nil

theorem writes_capturesAll : (ps : List (Pattern Rule)) →
    List.Forall₂ (fun steps v => Writes (callsOf steps) v) (captureStepsAll repository ps)
      (captureTreesAll repository.nameOf? ps)
  | [] => .nil
  | p :: ps => List.rel_append (writes_captures p) (writes_capturesAll ps)

end

theorem writesItems_entries (entries : List Entry) :
    WritesItems .object (callsOf (entriesSteps repository entries))
      (compactFields (entryFields repository.nameOf? entries)) := by
  induction entries with
  | nil => exact .nil _
  | cons entry entries ih =>
    have hfield := (writes_body repository false entry.rule).field entry.name
    have hmore := hfield.append ih
    simpa [entriesSteps, entryFields, compactFields, Step.calls] using hmore

end

/-- The calls of compiling a grammar write its tree. -/
theorem writes_steps (g : Grammar) :
    Writes (callsOf (steps g)) (documentTree g.repository.nameOf? g) := by
  have hname := writesItems_field "name" g.name
  have hscope := writesItems_field "scopeName" g.scopeName
  have hpatterns :=
    (Writes.array (writesItems_rules g.repository false g.topLevel)).field "patterns"
  have hentries := (Writes.object
    (writesItems_entries g.repository g.repository.entries.toList)).field "repository"
  have hfields := hname.append (hscope.append (hpatterns.append hentries))
  simp only [← compactFields_append] at hfields
  have hobject := Writes.object hfields
  simpa [steps, documentTree, Step.calls] using hobject

/-! ## Compiling -/

/-- A grammar has the document of its tree, or fails where its checks do. -/
theorem compile_eq_check (g : Grammar) :
    g.compile = (check g.repository (steps g) [] (Progress.start g).journal).map fun (_, journal) =>
      let text := String.ofList (documentTree g.repository.nameOf? g).compact
      ⟨text, journal.push (.finished g.name text.utf8ByteSize)⟩ := by
  have hrun := run_eq_check g.repository (writes_steps g {}) [] (Progress.start g).journal
  rw [compile_eq_run]
  change ((Progress.run g.repository (steps g) ⟨{}, [], (Progress.start g).journal⟩) >>= _) = _
  rw [hrun]
  cases check g.repository (steps g) [] (Progress.start g).journal with
  | error failure => rfl
  | ok result =>
    have hfinish : (Writer.put {} (documentTree g.repository.nameOf? g)).finish =
        .ok (String.ofList (documentTree g.repository.nameOf? g).compact) := by
      simp [Writer.put, Writer.nextValue, Writer.nextItem, Writer.raw, Writer.finish]
    simp only [Except.map, bind, Except.bind, hfinish]

/-- A grammar fails as its checks do. -/
theorem check_of_compile_error {g : Grammar} {failure : Failure} (h : g.compile = .error failure) :
    check g.repository (steps g) [] (Progress.start g).journal = .error failure := by
  rw [compile_eq_check] at h
  cases hcheck : check g.repository (steps g) [] (Progress.start g).journal with
  | ok result =>
    rw [hcheck] at h
    cases h
  | error failure' =>
    rw [hcheck] at h
    cases h
    rfl

/-- The text of a document is the compact text of the tree, with the names of the repository itself. -/
theorem text_eq_of_compile {g : Grammar} {d : Document} (h : g.compile = .ok d) :
    d.text = String.ofList (documentTree g.repository.nameOf? g).compact := by
  rw [compile_eq_check] at h
  cases hcheck : check g.repository (steps g) [] (Progress.start g).journal with
  | error failure =>
    rw [hcheck] at h
    cases h
  | ok result =>
    rw [hcheck] at h
    cases h
    rfl

theorem text_of_compile {g : Grammar} (hg : g.repository.Reachable) {d : Document}
    (h : g.compile = .ok d) : d.text = String.ofList (tree g).compact := by
  rw [text_eq_of_compile h, tree, funext hg.nameOf?_eq]

/-- A parser reads the tree back, with the names of the repository itself. -/
theorem parse_text {g : Grammar} (hg : g.repository.Reachable) {d : Document} (h : g.compile = .ok d) :
    parse d.text = some (documentTree g.repository.nameOf? g) := by
  rw [text_of_compile hg h, parse_compact, tree, funext hg.nameOf?_eq]

/-- A grammar that has a document has the document of its tree: the whole text is a JSON text, the tree is
the only value it denotes, and a parser reads it back. -/
theorem parse_compile (g : Grammar) (hg : g.repository.Reachable) (d : Document)
    (h : g.compile = .ok d) :
    parse d.text = some (tree g) ∧ ∀ v, IsText d.text.toList v ↔ v = tree g := by
  have hnames : g.repository.nameOf? = Repository.registeredName? g.repository.entries.toList :=
    funext hg.nameOf?_eq
  have hparse : parse d.text = some (tree g) := by
    rw [compile_eq_check] at h
    cases hcheck : check g.repository (steps g) [] (Progress.start g).journal with
    | error failure =>
      rw [hcheck] at h
      cases h
    | ok result =>
      rw [hcheck] at h
      cases h
      rw [hnames]
      exact parse_compact (tree g)
  refine ⟨hparse, ?_⟩
  intro v
  rw [← parse_eq_some_iff, hparse, Option.some.injEq]
  exact eq_comm

/-- A rule for quoted text. Its opening quote is captured, and it refers to itself. -/
def quotedText : Rule :=
  .body 1 (some "string")
    (.between (.capture (.set .positive "\"") (.body 2 (some "quote") .always [])) (.set .positive "\""))
    [.reference 3 "text"]

/-- A grammar with a rule that has a name, in two lists, and a rule that has none. -/
def quotedGrammar : Grammar where
  name := "A \"b\"\n"
  scopeName := "source.a"
  topLevel := [quotedText, .body 4 none (.matching (.literal "a.b")) [quotedText]]
  repository := Repository.insert {} "text" quotedText

theorem reachable_quotedGrammar : quotedGrammar.repository.Reachable :=
  .register .empty (show Repository.register {} "text" quotedText = .ok quotedGrammar.repository from rfl)

theorem parse_compile_quotedGrammar :
    ∃ d, quotedGrammar.compile = .ok d ∧ parse d.text = some (tree quotedGrammar) := by
  have hok : quotedGrammar.compile.isOk := by decide +kernel
  cases hd : quotedGrammar.compile with
  | error failure =>
    rw [hd] at hok
    cases hok
  | ok d => exact ⟨d, rfl, (parse_compile quotedGrammar reachable_quotedGrammar d hd).1⟩

end TextMate.Document
