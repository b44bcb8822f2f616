import TextMate.Proofs.Document.Tree

/-!
# Which grammars have a document

A grammar has a document if and only if

* no rule without a name has its body in two lists of rules, captured text left aside (`placements` lists
  the bodies, and is free of repetitions), and
* every reference that the document would hold, captured text included, has an entry (`Expanded` says
  which rules the document writes out).

Neither condition knows of an order. The failure of a grammar without a document does: it is about the
first occurrence, in the order of the document, that breaks one of the two. `occurrences` lists them in
that order, and `FirstOffence` says which one is meant.
-/

namespace TextMate.Document

/-! ## Bodies in lists of rules -/

/-- Whether an entry holds the rule. -/
def isRegistered (entries : List Entry) (rule : Rule) : Bool :=
  entries.any fun entry => entry.rule.id = rule.id

/-- The patterns of a trigger. -/
def triggerPatterns : Trigger Rule → List (Pattern Rule)
  | .always => []
  | .matching condition => [condition]
  | .between opening closing => [opening, closing]

/-- The rules for the captured text of a rule. -/
def captureRules : Rule → List Rule
  | .reference _ _ => []
  | .body _ _ trigger _ => (triggerPatterns trigger).flatMap Pattern.captures

section

variable (registered : Rule → Bool)

mutual

/-- The rules without a name whose bodies stand in the lists inside a rule, captured text left aside. -/
def placedUnder : Rule → List RuleId
  | .reference _ _ => []
  | .body _ _ _ inner => placedIn inner

/-- The rules without a name whose bodies stand in a list of rules or in the lists inside it. -/
def placedIn : List Rule → List RuleId
  | [] => []
  | rule :: rules =>
    (if registered rule || rule.isReference then [] else rule.id :: placedUnder rule) ++ placedIn rules

end

end

/-- The rules without a name whose bodies stand in lists of rules, once for each place. -/
def placements (g : Grammar) : List RuleId :=
  let registered := isRegistered g.repository.entries.toList
  placedIn registered g.topLevel ++
    g.repository.entries.toList.flatMap fun entry => placedUnder registered entry.rule

/-- The rules that the document writes out: those of the top level, those of the entries, and inside
these the inner rules without a name and all the rules for captured text. -/
inductive Expanded (g : Grammar) : Rule → Prop
  | topLevel {rule} : rule ∈ g.topLevel → isRegistered g.repository.entries.toList rule = false →
      Expanded g rule
  | entry {entry} : entry ∈ g.repository.entries → Expanded g entry.rule
  | inner {outer rule} : Expanded g outer → rule ∈ outer.inner →
      isRegistered g.repository.entries.toList rule = false → Expanded g rule
  | capture {outer rule} : Expanded g outer → rule ∈ captureRules outer → Expanded g rule

/-! ## Occurrences in the order of the document -/

/-- What can go wrong at a place of the document. -/
inductive Occurrence where
  /-- The body of a rule without a name, in a list of rules outside any capture. -/
  | placed (rule : Rule)
  /-- A reference to the entry called `name`. -/
  | referred (rule : Rule) (name : String)

namespace Occurrence

def rule : Occurrence → Rule
  | .placed rule => rule
  | .referred rule _ => rule

def placedId? : Occurrence → Option RuleId
  | .placed rule => some rule.id
  | .referred _ _ => none

/-- A body that stands earlier already, or a reference to a name that no entry has. -/
def Offends (entries : Array Entry) (before : List Occurrence) : Occurrence → Prop
  | .placed rule => rule.id ∈ before.filterMap placedId?
  | .referred _ name => ∀ entry ∈ entries, entry.name ≠ name

end Occurrence

section

variable (registered : Rule → Bool)

def placedOccurrence (inCapture : Bool) (rule : Rule) : List Occurrence :=
  if inCapture || rule.isReference then [] else [.placed rule]

mutual

def bodyOccurrences (inCapture : Bool) : Rule → List Occurrence
  | .reference id name => [.referred (.reference id name) name]
  | .body _ _ trigger inner => triggerOccurrences trigger ++ listOccurrences inCapture inner

def listOccurrences (inCapture : Bool) : List Rule → List Occurrence
  | [] => []
  | rule :: rules =>
    (if registered rule then []
      else placedOccurrence inCapture rule ++ bodyOccurrences inCapture rule) ++
      listOccurrences inCapture rules

def triggerOccurrences : Trigger Rule → List Occurrence
  | .always => []
  | .matching condition => captureOccurrences condition
  | .between opening closing => captureOccurrences opening ++ captureOccurrences closing

def captureOccurrences : Pattern Rule → List Occurrence
  | .capture body rule => bodyOccurrences true rule ++ captureOccurrences body
  | .alt ps | .seq ps => captureOccurrencesAll ps
  | .rep body _ _ | .look _ _ body => captureOccurrences body
  | .set _ _ | .range _ _ _ | .any | .literal _ | .lineStart | .lineEnd => []

def captureOccurrencesAll : List (Pattern Rule) → List Occurrence
  | [] => []
  | p :: ps => captureOccurrences p ++ captureOccurrencesAll ps

end

end

/-- Bodies and references in the order of the document: the top level before the entries, a rule before
what is inside it, and there captured text before inner rules. -/
def occurrences (g : Grammar) : List Occurrence :=
  let registered := isRegistered g.repository.entries.toList
  listOccurrences registered false g.topLevel ++
    g.repository.entries.toList.flatMap fun entry => bodyOccurrences registered false entry.rule

/-- `occurrence` offends, and nothing before it does. -/
structure FirstOffence (g : Grammar) (before : List Occurrence) (occurrence : Occurrence) : Prop where
  occurs : before ++ [occurrence] <+: occurrences g
  offends : occurrence.Offends g.repository.entries before
  first : ∀ before' occurrence', before' ++ [occurrence'] <+: before →
    ¬ occurrence'.Offends g.repository.entries before'

/-! ## The steps hold the occurrences -/

/-- The occurrence that a step is about. -/
def Step.occurrence? : Step → Option Occurrence
  | .inline rule => some (.placed rule)
  | .resolve rule name => some (.referred rule name)
  | .call _ | .regex _ | .note _ => none

def occurrencesOf (steps : List Step) : List Occurrence :=
  steps.filterMap Step.occurrence?

@[simp] theorem occurrencesOf_nil : occurrencesOf [] = [] := rfl

@[simp] theorem occurrencesOf_append (steps steps' : List Step) :
    occurrencesOf (steps ++ steps') = occurrencesOf steps ++ occurrencesOf steps' :=
  List.filterMap_append

@[simp] theorem occurrencesOf_call (call : Json.Call) (steps : List Step) :
    occurrencesOf (.call call :: steps) = occurrencesOf steps := rfl

@[simp] theorem occurrencesOf_regex (pattern : Pattern Rule) (steps : List Step) :
    occurrencesOf (.regex pattern :: steps) = occurrencesOf steps := rfl

@[simp] theorem occurrencesOf_note (event : Event) (steps : List Step) :
    occurrencesOf (.note event :: steps) = occurrencesOf steps := rfl

theorem occurrencesOf_numbered (number : Nat) (values : List (List Step)) :
    occurrencesOf (numberedSteps number values) = values.flatMap occurrencesOf := by
  induction values generalizing number with
  | nil => rfl
  | cons value values ih => simp [numberedSteps, ih]

theorem occurrencesOf_pattern (key capturesKey : String) (pattern : Pattern Rule)
    (captures : List (List Step)) :
    occurrencesOf (patternSteps key capturesKey pattern captures) =
      captures.flatMap occurrencesOf := by
  cases captures with
  | nil => rfl
  | cons capture captures =>
    simp [patternSteps, capturesSteps, occurrencesOf_numbered]

theorem occurrencesOf_scope (scope : Option String) : occurrencesOf (scopeSteps scope) = [] := by
  cases scope <;> rfl

theorem occurrencesOf_inline (inCapture : Bool) (rule : Rule) :
    occurrencesOf (inlineSteps inCapture rule) = placedOccurrence inCapture rule := by
  unfold inlineSteps placedOccurrence
  split <;> rfl

section

variable {repository : Repository} {registered : Rule → Bool}
  (hreg : ∀ rule, (repository.nameOf? rule).isSome = registered rule)

include hreg

set_option linter.unusedSectionVars false in
mutual

theorem occurrencesOf_body : (inCapture : Bool) → (rule : Rule) →
    occurrencesOf (bodySteps repository inCapture rule) = bodyOccurrences registered inCapture rule
  | inCapture, .reference id name => rfl
  | inCapture, .body id scope trigger inner => by
    have htrigger := occurrencesOf_trigger trigger
    have hinner := occurrencesOf_rules inCapture inner
    have hfield : occurrencesOf (innerSteps inner (rulesSteps repository inCapture inner)) =
        listOccurrences registered inCapture inner := by
      cases inner with
      | nil => rfl
      | cons rule rules => simpa [innerSteps] using hinner
    rw [bodySteps, bodyOccurrences, occurrencesOf_call]
    simp [occurrencesOf_scope, htrigger, hfield]

theorem occurrencesOf_rules : (inCapture : Bool) → (rules : List Rule) →
    occurrencesOf (rulesSteps repository inCapture rules) = listOccurrences registered inCapture rules
  | inCapture, [] => rfl
  | inCapture, rule :: rules => by
    have hbody := occurrencesOf_body inCapture rule
    have hrules := occurrencesOf_rules inCapture rules
    rw [rulesSteps, listOccurrences, occurrencesOf_append, hrules, ← hreg rule]
    cases repository.nameOf? rule with
    | some name => rfl
    | none => simp [occurrencesOf_inline, hbody]

theorem occurrencesOf_trigger : (trigger : Trigger Rule) →
    occurrencesOf (triggerSteps repository trigger) = triggerOccurrences registered trigger
  | .always => rfl
  | .matching condition => by
    rw [triggerSteps, triggerOccurrences, occurrencesOf_pattern, occurrencesOf_captures condition]
  | .between opening closing => by
    rw [triggerSteps, triggerOccurrences, occurrencesOf_append, occurrencesOf_pattern,
      occurrencesOf_pattern, occurrencesOf_captures opening, occurrencesOf_captures closing]

theorem occurrencesOf_captures : (p : Pattern Rule) →
    (captureSteps repository p).flatMap occurrencesOf = captureOccurrences registered p
  | .capture body rule => by
    rw [captureSteps, captureOccurrences, List.flatMap_cons, occurrencesOf_body true rule,
      occurrencesOf_captures body]
  | .alt ps => occurrencesOf_capturesAll ps
  | .seq ps => occurrencesOf_capturesAll ps
  | .rep body _ _ => occurrencesOf_captures body
  | .look _ _ body => occurrencesOf_captures body
  | .set _ _ => rfl
  | .range _ _ _ => rfl
  | .any => rfl
  | .literal _ => rfl
  | .lineStart => rfl
  | .lineEnd => rfl

theorem occurrencesOf_capturesAll : (ps : List (Pattern Rule)) →
    (captureStepsAll repository ps).flatMap occurrencesOf = captureOccurrencesAll registered ps
  | [] => rfl
  | p :: ps => by
    rw [captureStepsAll, captureOccurrencesAll, List.flatMap_append, occurrencesOf_captures p,
      occurrencesOf_capturesAll ps]

end

theorem occurrencesOf_entries (entries : List Entry) :
    occurrencesOf (entriesSteps repository entries) =
      entries.flatMap fun entry => bodyOccurrences registered false entry.rule := by
  induction entries with
  | nil => rfl
  | cons entry entries ih =>
    rw [entriesSteps, occurrencesOf_note, occurrencesOf_call, occurrencesOf_append,
      occurrencesOf_body hreg, ih, List.flatMap_cons]

end

theorem isSome_nameOf? {r : Repository} (h : r.Reachable) (rule : Rule) :
    (r.nameOf? rule).isSome = isRegistered r.entries.toList rule := by
  rw [h.nameOf?_eq, Repository.registeredName?, Option.isSome_map, List.isSome_find?, isRegistered]

theorem occurrencesOf_steps {g : Grammar} (hg : g.repository.Reachable) :
    occurrencesOf (steps g) = occurrences g := by
  have hreg := isSome_nameOf? hg
  have htop := occurrencesOf_rules hreg false g.topLevel
  have hentries := occurrencesOf_entries hreg g.repository.entries.toList
  simp [steps, occurrences, htop, hentries]

/-! ## The checks find the first offence -/

/-- No occurrence offends, given those `before` the list. -/
def Clear (entries : Array Entry) (before : List Occurrence) : List Occurrence → Prop
  | [] => True
  | occurrence :: rest =>
    ¬ occurrence.Offends entries before ∧ Clear entries (before ++ [occurrence]) rest

theorem Clear.append {entries : Array Entry} {before os os' : List Occurrence}
    (h : Clear entries before os) (h' : Clear entries (before ++ os) os') :
    Clear entries before (os ++ os') := by
  induction os generalizing before with
  | nil => simpa using h'
  | cons o os ih =>
    refine ⟨h.1, ih h.2 ?_⟩
    rwa [List.append_assoc, List.singleton_append]

/-- Nothing offends in a prefix of a clear list. -/
theorem Clear.not_offends {entries : Array Entry} {before os pre : List Occurrence} {o : Occurrence}
    (h : Clear entries before os) (hpre : pre ++ [o] <+: os) :
    ¬ o.Offends entries (before ++ pre) := by
  induction os generalizing before pre with
  | nil => simp at hpre
  | cons x os ih =>
    cases pre with
    | nil =>
      have hx : o = x := by simpa using hpre
      subst hx
      simpa using h.1
    | cons y pre =>
      rw [List.cons_append, List.cons_prefix_cons] at hpre
      obtain ⟨rfl, hpre⟩ := hpre
      have hlater := ih h.2 hpre
      rwa [List.append_assoc, List.singleton_append] at hlater

/-- What a step refuses is what offends. -/
theorem blocked?_eq_some_iff {repository : Repository} (hr : repository.Reachable)
    {before : List Occurrence} {inlined : List RuleId}
    (hinl : ∀ id, id ∈ inlined ↔ id ∈ before.filterMap Occurrence.placedId?) (step : Step)
    (rule : Rule) :
    step.blocked? repository inlined = some rule ↔
      ∃ o, step.occurrence? = some o ∧ o.Offends repository.entries before ∧ o.rule = rule := by
  cases step with
  | call | regex | note => simp [Step.blocked?, Step.occurrence?]
  | inline r =>
    simp [Step.blocked?, Step.occurrence?, Occurrence.Offends, Occurrence.rule, hinl]
  | resolve r name =>
    have hcontains := hr.contains_iff name
    simp only [Step.blocked?, Step.occurrence?, Option.some.injEq, exists_eq_left',
      Occurrence.Offends, Occurrence.rule]
    constructor
    · intro h
      split at h
      · cases h
      · next hno =>
        rw [hcontains] at hno
        cases h
        refine ⟨?_, rfl⟩
        intro entry hentry hname
        exact hno ⟨entry, hentry, hname⟩
    · rintro ⟨hno, rfl⟩
      rw [if_neg]
      rw [hcontains]
      rintro ⟨entry, hentry, hname⟩
      exact hno entry hentry hname

/-- A step that is let through is about nothing that offends. -/
theorem clear_step {repository : Repository} (hr : repository.Reachable) {before : List Occurrence}
    {inlined : List RuleId}
    (hinl : ∀ id, id ∈ inlined ↔ id ∈ before.filterMap Occurrence.placedId?) {step : Step}
    (hstep : step.blocked? repository inlined = none) :
    Clear repository.entries before step.occurrence?.toList := by
  cases ho : step.occurrence? with
  | none => exact trivial
  | some o =>
    refine ⟨?_, trivial⟩
    intro hoffends
    have hsome := (blocked?_eq_some_iff hr hinl step o.rule).mpr ⟨o, ho, hoffends, rfl⟩
    rw [hstep] at hsome
    cases hsome

/-- A step keeps the rules placed so far in step with the occurrences met so far. -/
theorem mem_inlines_step {before : List Occurrence} {inlined : List RuleId}
    (hinl : ∀ id, id ∈ inlined ↔ id ∈ before.filterMap Occurrence.placedId?) (step : Step)
    (id : RuleId) :
    id ∈ step.inlines ++ inlined ↔
      id ∈ (before ++ step.occurrence?.toList).filterMap Occurrence.placedId? := by
  cases step <;> simp [Step.inlines, Step.occurrence?, Occurrence.placedId?, hinl, or_comm]

theorem occurrencesOf_cons (step : Step) (steps : List Step) :
    occurrencesOf (step :: steps) = step.occurrence?.toList ++ occurrencesOf steps := by
  cases step <;> rfl

/-- Checks that succeed meet nothing that offends. -/
theorem clear_of_check {repository : Repository} (hr : repository.Reachable) {steps : List Step}
    {before : List Occurrence} {inlined : List RuleId} {journal : Array Event}
    (hinl : ∀ id, id ∈ inlined ↔ id ∈ before.filterMap Occurrence.placedId?)
    {result : List RuleId × Array Event} (h : check repository steps inlined journal = .ok result) :
    Clear repository.entries before (occurrencesOf steps) := by
  induction steps generalizing before inlined journal with
  | nil => exact trivial
  | cons step steps ih =>
    rw [check] at h
    cases hstep : step.blocked? repository inlined with
    | some rule =>
      rw [hstep] at h
      cases h
    | none =>
      rw [hstep] at h
      rw [occurrencesOf_cons]
      exact (clear_step hr hinl hstep).append (ih (mem_inlines_step hinl step) h)

/-- Checks that fail do so at a step whose occurrence offends, where none before it does, and the journal
holds the notes of the steps before it. -/
theorem exists_offence_of_check {repository : Repository} (hr : repository.Reachable)
    {steps : List Step} {before : List Occurrence} {inlined : List RuleId} {journal : Array Event}
    (hinl : ∀ id, id ∈ inlined ↔ id ∈ before.filterMap Occurrence.placedId?) {failure : Failure}
    (h : check repository steps inlined journal = .error failure) :
    ∃ front step rest o, steps = front ++ step :: rest ∧ step.occurrence? = some o ∧
      Clear repository.entries before (occurrencesOf front) ∧
      o.Offends repository.entries (before ++ occurrencesOf front) ∧
      failure = ⟨.unnamed o.rule.describe, journal ++ (front.flatMap Step.notes).toArray⟩ := by
  induction steps generalizing before inlined journal with
  | nil => cases h
  | cons step steps ih =>
    rw [check] at h
    cases hstep : step.blocked? repository inlined with
    | some rule =>
      rw [hstep] at h
      cases h
      obtain ⟨o, ho, hoffends, rfl⟩ := (blocked?_eq_some_iff hr hinl step rule).mp hstep
      exact ⟨[], step, steps, o, rfl, ho, trivial, by simpa using hoffends, by simp⟩
    | none =>
      -- what is met from here on is met after the occurrence of this step
      rw [hstep] at h
      obtain ⟨front, step', rest, o, rfl, ho, hclear, hoffends, rfl⟩ :=
        ih (mem_inlines_step hinl step) h
      refine ⟨step :: front, step', rest, o, rfl, ho, ?_, ?_, ?_⟩
      · rw [occurrencesOf_cons]
        exact (clear_step hr hinl hstep).append hclear
      · rwa [occurrencesOf_cons, ← List.append_assoc]
      · simp

/-- The checks succeed if nothing offends, and fail at the first occurrence that does. -/
theorem check_spec {repository : Repository} (hr : repository.Reachable) (steps : List Step)
    (before : List Occurrence) (inlined : List RuleId) (journal : Array Event)
    (hinl : ∀ id, id ∈ inlined ↔ id ∈ before.filterMap Occurrence.placedId?) :
    match check repository steps inlined journal with
    | .ok _ => Clear repository.entries before (occurrencesOf steps)
    | .error failure => ∃ pre o, pre ++ [o] <+: occurrencesOf steps ∧
        Clear repository.entries before pre ∧ o.Offends repository.entries (before ++ pre) ∧
        failure.error = .unnamed o.rule.describe := by
  cases hcheck : check repository steps inlined journal with
  | ok result => exact clear_of_check hr hinl hcheck
  | error failure =>
    obtain ⟨front, step, rest, o, rfl, ho, hclear, hoffends, rfl⟩ :=
      exists_offence_of_check hr hinl hcheck
    refine ⟨occurrencesOf front, o, ?_, hclear, hoffends, rfl⟩
    rw [occurrencesOf_append, occurrencesOf_cons, ho]
    exact (List.prefix_append_right_inj _).mpr (List.prefix_append [o] _)

/-! ## The two conditions -/

/-- A list of occurrences is clear if no body repeats and every reference has an entry. -/
theorem clear_iff (entries : Array Entry) (before os : List Occurrence) :
    Clear entries before os ↔
      (∀ id ∈ os.filterMap Occurrence.placedId?, id ∉ before.filterMap Occurrence.placedId?) ∧
      (os.filterMap Occurrence.placedId?).Nodup ∧
      ∀ rule name, .referred rule name ∈ os → ∃ entry ∈ entries, entry.name = name := by
  induction os generalizing before with
  | nil => simp [Clear]
  | cons o os ih =>
    rw [Clear, ih]
    cases o with
    | placed rule =>
      simp only [Occurrence.Offends, Occurrence.placedId?, List.filterMap_append,
        List.filterMap_cons, List.filterMap_nil, List.mem_append, List.mem_cons, List.nodup_cons]
      grind
    | referred rule name =>
      simp only [Occurrence.Offends, Occurrence.placedId?, List.filterMap_append,
        List.filterMap_cons, List.filterMap_nil, List.append_nil, List.mem_cons]
      constructor
      · rintro ⟨hname, hbefore, hnodup, hnames⟩
        refine ⟨hbefore, hnodup, ?_⟩
        rintro rule' name' (h | h)
        · cases h
          simpa using hname
        · exact hnames rule' name' h
      · rintro ⟨hbefore, hnodup, hnames⟩
        refine ⟨?_, hbefore, hnodup, fun rule' name' h => hnames rule' name' (.inr h)⟩
        obtain ⟨entry, hentry, hname⟩ := hnames rule name (.inl rfl)
        intro hno
        exact hno entry hentry hname

section

variable (registered : Rule → Bool)

mutual

/-- Captured text holds no bodies that count. -/
theorem placed_body : (inCapture : Bool) → (rule : Rule) →
    (bodyOccurrences registered inCapture rule).filterMap Occurrence.placedId? =
      if inCapture then [] else placedUnder registered rule
  | inCapture, .reference id name => by
    cases inCapture <;> rfl
  | inCapture, .body id scope trigger inner => by
    rw [bodyOccurrences, placedUnder, List.filterMap_append, placed_trigger trigger,
      placed_list inCapture inner, List.nil_append]

theorem placed_list : (inCapture : Bool) → (rules : List Rule) →
    (listOccurrences registered inCapture rules).filterMap Occurrence.placedId? =
      if inCapture then [] else placedIn registered rules
  | inCapture, [] => by
    cases inCapture <;> rfl
  | inCapture, rule :: rules => by
    have hbody := placed_body inCapture rule
    have hrules := placed_list inCapture rules
    rw [listOccurrences, placedIn, List.filterMap_append, hrules]
    cases hregistered : registered rule with
    | true => simp
    | false =>
      cases inCapture with
      | true => simpa [placedOccurrence] using hbody
      | false =>
        cases rule with
        | reference id name => simp [placedOccurrence, Rule.isReference, hbody, placedUnder]
        | body id scope trigger inner =>
          simp [placedOccurrence, Rule.isReference, hbody, Occurrence.placedId?]

theorem placed_trigger : (trigger : Trigger Rule) →
    (triggerOccurrences registered trigger).filterMap Occurrence.placedId? = []
  | .always => rfl
  | .matching condition => placed_captures condition
  | .between opening closing => by
    rw [triggerOccurrences, List.filterMap_append, placed_captures opening, placed_captures closing,
      List.append_nil]

theorem placed_captures : (p : Pattern Rule) →
    (captureOccurrences registered p).filterMap Occurrence.placedId? = []
  | .capture body rule => by
    rw [captureOccurrences, List.filterMap_append, placed_captures body, List.append_nil]
    exact placed_body true rule
  | .alt ps => placed_capturesAll ps
  | .seq ps => placed_capturesAll ps
  | .rep body _ _ => placed_captures body
  | .look _ _ body => placed_captures body
  | .set _ _ => rfl
  | .range _ _ _ => rfl
  | .any => rfl
  | .literal _ => rfl
  | .lineStart => rfl
  | .lineEnd => rfl

theorem placed_capturesAll : (ps : List (Pattern Rule)) →
    (captureOccurrencesAll registered ps).filterMap Occurrence.placedId? = []
  | [] => rfl
  | p :: ps => by
    rw [captureOccurrencesAll, List.filterMap_append, placed_captures p, placed_capturesAll ps,
      List.append_nil]

end

end

theorem placed_occurrences (g : Grammar) :
    (occurrences g).filterMap Occurrence.placedId? = placements g := by
  simp [occurrences, placements, List.filterMap_flatMap, placed_list, placed_body]

/-! ## References reached -/

section

variable {g : Grammar}

/-- What a reference occurrence of the document must be. -/
def ReferredExpanded (g : Grammar) (o : Occurrence) : Prop :=
  ∀ rule name, o = .referred rule name → (∃ id, rule = .reference id name) ∧ Expanded g rule

mutual

theorem referredExpanded_body : (inCapture : Bool) → (rule : Rule) → Expanded g rule →
    ∀ o ∈ bodyOccurrences (isRegistered g.repository.entries.toList) inCapture rule,
      ReferredExpanded g o
  | inCapture, .reference id name, h => by
    intro o ho rule' name' heq
    rw [bodyOccurrences, List.mem_singleton] at ho
    rw [ho] at heq
    cases heq
    exact ⟨⟨id, rfl⟩, h⟩
  | inCapture, .body id scope trigger inner, h => by
    intro o ho
    rw [bodyOccurrences, List.mem_append] at ho
    rcases ho with ho | ho
    · refine referredExpanded_trigger trigger ?_ o ho
      intro p hp rule hrule
      exact h.capture (List.mem_flatMap.mpr ⟨p, hp, hrule⟩)
    · refine referredExpanded_list inCapture inner ?_ o ho
      intro rule hrule hregistered
      exact h.inner hrule hregistered

theorem referredExpanded_list : (inCapture : Bool) → (rules : List Rule) →
    (∀ rule ∈ rules, isRegistered g.repository.entries.toList rule = false → Expanded g rule) →
    ∀ o ∈ listOccurrences (isRegistered g.repository.entries.toList) inCapture rules,
      ReferredExpanded g o
  | inCapture, [], _ => by
    intro o ho
    cases ho
  | inCapture, rule :: rules, h => by
    intro o ho
    rw [listOccurrences, List.mem_append] at ho
    rcases ho with ho | ho
    · split at ho
      · cases ho
      · next hregistered =>
        rw [List.mem_append] at ho
        rcases ho with ho | ho
        · unfold placedOccurrence at ho
          split at ho
          · cases ho
          · rw [List.mem_singleton] at ho
            rintro rule' name' rfl
            cases ho
        · exact referredExpanded_body inCapture rule
            (h rule (by simp) (by simpa using hregistered)) o ho
    · exact referredExpanded_list inCapture rules (fun r hr => h r (List.mem_cons_of_mem rule hr)) o ho

theorem referredExpanded_trigger : (trigger : Trigger Rule) →
    (∀ p ∈ triggerPatterns trigger, ∀ rule ∈ p.captures, Expanded g rule) →
    ∀ o ∈ triggerOccurrences (isRegistered g.repository.entries.toList) trigger,
      ReferredExpanded g o
  | .always, _ => by
    intro o ho
    cases ho
  | .matching condition, h => referredExpanded_captures condition (h condition (by simp [triggerPatterns]))
  | .between opening closing, h => by
    intro o ho
    rw [triggerOccurrences, List.mem_append] at ho
    rcases ho with ho | ho
    · exact referredExpanded_captures opening (h opening (by simp [triggerPatterns])) o ho
    · exact referredExpanded_captures closing (h closing (by simp [triggerPatterns])) o ho

theorem referredExpanded_captures : (p : Pattern Rule) → (∀ rule ∈ p.captures, Expanded g rule) →
    ∀ o ∈ captureOccurrences (isRegistered g.repository.entries.toList) p, ReferredExpanded g o
  | .capture body rule, h => by
    intro o ho
    rw [captureOccurrences, List.mem_append] at ho
    rw [Pattern.captures, List.forall_mem_cons] at h
    rcases ho with ho | ho
    · exact referredExpanded_body true rule h.1 o ho
    · exact referredExpanded_captures body h.2 o ho
  | .alt ps, h => referredExpanded_capturesAll ps h
  | .seq ps, h => referredExpanded_capturesAll ps h
  | .rep body _ _, h => referredExpanded_captures body h
  | .look _ _ body, h => referredExpanded_captures body h
  | .set _ _, _ => by simp [captureOccurrences]
  | .range _ _ _, _ => by simp [captureOccurrences]
  | .any, _ => by simp [captureOccurrences]
  | .literal _, _ => by simp [captureOccurrences]
  | .lineStart, _ => by simp [captureOccurrences]
  | .lineEnd, _ => by simp [captureOccurrences]

theorem referredExpanded_capturesAll : (ps : List (Pattern Rule)) →
    (∀ rule ∈ Pattern.capturesAll ps, Expanded g rule) →
    ∀ o ∈ captureOccurrencesAll (isRegistered g.repository.entries.toList) ps, ReferredExpanded g o
  | [], _ => by simp [captureOccurrencesAll]
  | p :: ps, h => by
    intro o ho
    rw [captureOccurrencesAll, List.mem_append] at ho
    rw [Pattern.capturesAll, List.forall_mem_append] at h
    rcases ho with ho | ho
    · exact referredExpanded_captures p h.1 o ho
    · exact referredExpanded_capturesAll ps h.2 o ho

end

end

section

variable (registered : Rule → Bool)

mutual

theorem captureOccurrences_eq_flatMap : (p : Pattern Rule) →
    captureOccurrences registered p = p.captures.flatMap (bodyOccurrences registered true)
  | .capture body rule => by
    rw [captureOccurrences, Pattern.captures, List.flatMap_cons, captureOccurrences_eq_flatMap body]
  | .alt ps => captureOccurrencesAll_eq_flatMap ps
  | .seq ps => captureOccurrencesAll_eq_flatMap ps
  | .rep body _ _ => captureOccurrences_eq_flatMap body
  | .look _ _ body => captureOccurrences_eq_flatMap body
  | .set _ _ => rfl
  | .range _ _ _ => rfl
  | .any => rfl
  | .literal _ => rfl
  | .lineStart => rfl
  | .lineEnd => rfl

theorem captureOccurrencesAll_eq_flatMap : (ps : List (Pattern Rule)) →
    captureOccurrencesAll registered ps =
      (Pattern.capturesAll ps).flatMap (bodyOccurrences registered true)
  | [] => rfl
  | p :: ps => by
    rw [captureOccurrencesAll, Pattern.capturesAll, List.flatMap_append,
      captureOccurrences_eq_flatMap p, captureOccurrencesAll_eq_flatMap ps]

end

theorem triggerOccurrences_eq_flatMap (trigger : Trigger Rule) :
    triggerOccurrences registered trigger =
      ((triggerPatterns trigger).flatMap Pattern.captures).flatMap (bodyOccurrences registered true) := by
  cases trigger with
  | always => rfl
  | matching condition =>
    simp [triggerOccurrences, triggerPatterns, captureOccurrences_eq_flatMap]
  | between opening closing =>
    simp [triggerOccurrences, triggerPatterns, captureOccurrences_eq_flatMap]

variable {registered}

theorem bodyOccurrences_subset_list {inCapture : Bool} {rule : Rule} {rules : List Rule}
    (hrule : rule ∈ rules) (hregistered : registered rule = false) :
    bodyOccurrences registered inCapture rule ⊆ listOccurrences registered inCapture rules := by
  induction rules with
  | nil => cases hrule
  | cons head rules ih =>
    rw [listOccurrences]
    rcases List.mem_cons.mp hrule with rfl | hmem
    · rw [if_neg (by simp [hregistered])]
      intro o ho
      simp [ho]
    · exact List.subset_append_of_subset_right _ (ih hmem)

theorem bodyOccurrences_subset_inner {inCapture : Bool} {outer rule : Rule}
    (hrule : rule ∈ outer.inner) (hregistered : registered rule = false) :
    bodyOccurrences registered inCapture rule ⊆ bodyOccurrences registered inCapture outer := by
  cases outer with
  | reference id name => cases hrule
  | body id scope trigger inner =>
    rw [bodyOccurrences.eq_def registered inCapture (.body id scope trigger inner)]
    exact List.subset_append_of_subset_right _ (bodyOccurrences_subset_list hrule hregistered)

theorem bodyOccurrences_subset_capture (inCapture : Bool) {outer rule : Rule}
    (hrule : rule ∈ captureRules outer) :
    bodyOccurrences registered true rule ⊆ bodyOccurrences registered inCapture outer := by
  cases outer with
  | reference id name => cases hrule
  | body id scope trigger inner =>
    rw [bodyOccurrences.eq_def registered inCapture (.body id scope trigger inner)]
    apply List.subset_append_of_subset_left
    rw [triggerOccurrences_eq_flatMap]
    intro o ho
    exact List.mem_flatMap.mpr ⟨rule, hrule, ho⟩

end

/-- Whatever the document writes out, its occurrences are among those of the document. -/
theorem exists_bodyOccurrences_subset {g : Grammar} {rule : Rule} (h : Expanded g rule) :
    ∃ inCapture, bodyOccurrences (isRegistered g.repository.entries.toList) inCapture rule ⊆
      occurrences g := by
  induction h with
  | topLevel hrule hregistered =>
    refine ⟨false, ?_⟩
    exact List.subset_append_of_subset_left _ (bodyOccurrences_subset_list hrule hregistered)
  | entry hentry =>
    refine ⟨false, ?_⟩
    apply List.subset_append_of_subset_right
    intro o ho
    exact List.mem_flatMap.mpr ⟨_, Array.mem_toList_iff.mpr hentry, ho⟩
  | inner _ hrule hregistered ih =>
    obtain ⟨inCapture, hsubset⟩ := ih
    exact ⟨inCapture, List.Subset.trans (bodyOccurrences_subset_inner hrule hregistered) hsubset⟩
  | capture _ hrule ih =>
    -- inside a capture bodies no longer count as placed, whatever they did around it
    obtain ⟨inCapture, hsubset⟩ := ih
    exact ⟨true, List.Subset.trans (bodyOccurrences_subset_capture inCapture hrule) hsubset⟩

/-- The references of the document are the references among the rules it writes out. -/
theorem referred_mem_occurrences_iff (g : Grammar) (name : String) :
    (∃ rule, .referred rule name ∈ occurrences g) ↔ ∃ id, Expanded g (.reference id name) := by
  constructor
  · rintro ⟨rule, hmem⟩
    have hexpanded : ReferredExpanded g (.referred rule name) := by
      rw [occurrences, List.mem_append] at hmem
      rcases hmem with hmem | hmem
      · refine referredExpanded_list false g.topLevel ?_ _ hmem
        intro rule' hrule hregistered
        exact .topLevel hrule hregistered
      · obtain ⟨entry, hentry, hmem⟩ := List.mem_flatMap.mp hmem
        exact referredExpanded_body false entry.rule (.entry (Array.mem_toList_iff.mp hentry)) _ hmem
    obtain ⟨⟨id, rfl⟩, h⟩ := hexpanded rule name rfl
    exact ⟨id, h⟩
  · rintro ⟨id, h⟩
    obtain ⟨inCapture, hsubset⟩ := exists_bodyOccurrences_subset h
    exact ⟨.reference id name, hsubset (by simp [bodyOccurrences])⟩

/-! ## Success and failure -/

/-- Nothing offends in a document if and only if the two conditions hold. -/
theorem clear_occurrences_iff (g : Grammar) :
    Clear g.repository.entries [] (occurrences g) ↔
      (placements g).Nodup ∧
      ∀ id name, Expanded g (.reference id name) →
        ∃ entry ∈ g.repository.entries, entry.name = name := by
  rw [clear_iff, placed_occurrences]
  constructor
  · rintro ⟨-, hnodup, hnames⟩
    refine ⟨hnodup, ?_⟩
    intro id name hexpanded
    obtain ⟨rule, hmem⟩ := (referred_mem_occurrences_iff g name).mpr ⟨id, hexpanded⟩
    exact hnames rule name hmem
  · rintro ⟨hnodup, hnames⟩
    refine ⟨by simp, hnodup, ?_⟩
    intro rule name hmem
    obtain ⟨id, hexpanded⟩ := (referred_mem_occurrences_iff g name).mp ⟨rule, hmem⟩
    exact hnames id name hexpanded

/-- The document exists if and only if nothing offends in it. -/
theorem exists_compile_iff_clear {g : Grammar} (hg : g.repository.Reachable) :
    (∃ d, g.compile = .ok d) ↔ Clear g.repository.entries [] (occurrences g) := by
  have hcheck := check_spec hg (steps g) [] [] (Progress.start g).journal (by simp)
  rw [occurrencesOf_steps hg] at hcheck
  rw [compile_eq_check]
  cases hresult : check g.repository (steps g) [] (Progress.start g).journal with
  | ok result =>
    rw [hresult] at hcheck
    exact ⟨fun _ => hcheck, fun _ => ⟨_, rfl⟩⟩
  | error failure =>
    rw [hresult] at hcheck
    obtain ⟨pre, o, hoccurs, -, hoffends, -⟩ := hcheck
    constructor
    · rintro ⟨d, hd⟩
      cases hd
    · intro hclear
      exact absurd hoffends (hclear.not_offends hoccurs)

/-- The document exists if and only if no body without a name stands in two lists of rules and every
reference written out has an entry. If it does not exist, the failure describes the rule of the first
occurrence that breaks one of the two. -/
theorem compile_succeeds_iff (g : Grammar) (hg : g.repository.Reachable) :
    ((∃ d, g.compile = .ok d) ↔
      (placements g).Nodup ∧
      ∀ id name, Expanded g (.reference id name) →
        ∃ entry ∈ g.repository.entries, entry.name = name) ∧
    ∀ failure, g.compile = .error failure →
      ∃ before o, FirstOffence g before o ∧ failure.error = .unnamed o.rule.describe := by
  have hcompile := compile_eq_check g
  have hcheck := check_spec hg (steps g) [] [] (Progress.start g).journal (by simp)
  rw [← clear_occurrences_iff]
  rw [occurrencesOf_steps hg] at hcheck
  cases hresult : check g.repository (steps g) [] (Progress.start g).journal with
  | ok result =>
    rw [hresult] at hcompile hcheck
    refine ⟨⟨fun _ => hcheck, fun _ => ⟨_, hcompile⟩⟩, ?_⟩
    intro failure hfailure
    rw [hcompile] at hfailure
    cases hfailure
  | error failure =>
    rw [hresult] at hcompile hcheck
    obtain ⟨before, o, hoccurs, hbefore, hoffends, herror⟩ := hcheck
    refine ⟨⟨?_, ?_⟩, ?_⟩
    · rintro ⟨d, hd⟩
      rw [hcompile] at hd
      cases hd
    · intro hclear
      exact absurd hoffends (hclear.not_offends hoccurs)
    · intro failure' hfailure
      rw [hcompile] at hfailure
      cases hfailure
      exact ⟨before, o, ⟨hoccurs, hoffends, fun _ _ hpre => hbefore.not_offends hpre⟩, herror⟩

/-- A rule without a name. -/
def lonelyRule : Rule :=
  .body 7 (some "word") (.matching (.literal "w")) []

/-- A grammar that has the body of one rule in two lists, with a missing reference after it. -/
def doubledGrammar : Grammar where
  name := "Doubled"
  scopeName := "source.doubled"
  topLevel := [lonelyRule, .body 8 none .always [lonelyRule], .reference 9 "missing"]

theorem compile_succeeds_iff_doubledGrammar :
    doubledGrammar.repository.Reachable ∧
    ¬ (∃ d, doubledGrammar.compile = .ok d) ∧
    ∃ before o, FirstOffence doubledGrammar before o ∧
      Error.unnamed lonelyRule.describe = .unnamed o.rule.describe := by
  have hspec := compile_succeeds_iff doubledGrammar .empty
  have hfails : ∃ failure, doubledGrammar.compile = .error failure ∧
      failure.error = .unnamed lonelyRule.describe := by
    refine ⟨_, rfl, ?_⟩
    decide +kernel
  obtain ⟨failure, hfailure, herror⟩ := hfails
  refine ⟨.empty, ?_, ?_⟩
  · intro hok
    have hnodup := (hspec.1.mp hok).1
    revert hnodup
    decide +kernel
  · obtain ⟨before, o, hfirst, hdescribe⟩ := hspec.2 failure hfailure
    exact ⟨before, o, hfirst, herror.symm.trans hdescribe⟩

end TextMate.Document
