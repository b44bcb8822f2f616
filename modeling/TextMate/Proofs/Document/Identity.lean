import Mathlib.Data.List.Flatten
import Mathlib.Data.Set.Function
import TextMate.Proofs.Document.Renaming

/-!
# What the identities of rules are for

Two questions about a rule are answered by its identity: whether it is registered, and whether its body
stands in a list already. So a document does not depend on the identities themselves. If a renaming tells
the rules of a grammar apart, the outcome of compiling the grammar stays the same, be it a document or a
failure, and so does the journal.

For a grammar that has a document, the identities of the rules without a name do not matter at all. If each
of their occurrences gets an identity of its own, `Separated`, the document is the same.
-/

namespace TextMate.Document

variable {f : RuleId → RuleId} {g g' : Grammar}

/-! ## Identities of a grammar -/

/-- The identities of the rules that occur in a grammar. -/
def identities (g : Grammar) : Set RuleId :=
  { id | ∃ rule, Occurs g rule ∧ rule.id = id }

theorem apart_of_injOn (hf : Set.InjOn f (identities g)) : Apart f g := by
  intro entry hentry rule hrule hid
  exact hf ⟨entry.rule, .entry hentry, rfl⟩ ⟨rule, hrule, rfl⟩ hid

section

variable {registered : Rule → Bool}

theorem mem_identities_of_placedIn {rules : List Rule} (hrules : ∀ rule ∈ rules, Occurs g rule)
    (hunder : ∀ rule ∈ rules, ∀ id ∈ placedUnder registered rule, id ∈ identities g) :
    ∀ id ∈ placedIn registered rules, id ∈ identities g := by
  intro id hid
  rw [placedIn_eq_flatMap] at hid
  obtain ⟨rule, hrule, hid⟩ := List.mem_flatMap.mp hid
  split at hid
  · cases hid
  · rcases List.mem_cons.mp hid with rfl | hid
    · exact ⟨rule, hrules rule hrule, rfl⟩
    · exact hunder rule hrule id hid

theorem mem_identities_of_placedUnder (rule : Rule) (hrule : Occurs g rule) :
    ∀ id ∈ placedUnder registered rule, id ∈ identities g := by
  induction rule using induction_on_parts with
  | step rule ihinner _ =>
    rw [placedUnder_eq]
    apply mem_identities_of_placedIn
    · exact fun part hpart => hrule.inner hpart
    · exact fun part hpart => ihinner part hpart (hrule.inner hpart)

theorem mem_identities_of_mem_placements {id : RuleId} (h : id ∈ placements g) : id ∈ identities g := by
  rw [placements, List.mem_append] at h
  rcases h with h | h
  · refine mem_identities_of_placedIn ?_ ?_ id h
    · exact fun rule hrule => .topLevel hrule
    · exact fun rule hrule => mem_identities_of_placedUnder rule (.topLevel hrule)
  · obtain ⟨entry, hentry, h⟩ := List.mem_flatMap.mp h
    exact mem_identities_of_placedUnder entry.rule (.entry (Array.mem_toList_iff.mp hentry)) id h

end

theorem mem_identities_of_inline (hg : g.repository.Reachable) {rule : Rule}
    (h : .inline rule ∈ steps g) : rule.id ∈ identities g := by
  apply mem_identities_of_mem_placements
  rw [← placed_occurrences, ← occurrencesOf_steps hg]
  exact List.mem_filterMap.mpr ⟨.placed rule, List.mem_filterMap.mpr ⟨.inline rule, h, rfl⟩, rfl⟩

/-! ## The checks under other identities -/

section

variable {r r' : Repository} {ids : Set RuleId}

theorem Step.inlines_rename (step : Step) : (step.rename f).inlines = step.inlines.map f := by
  cases step with
  | inline rule => simp [rename, inlines]
  | call | regex | resolve | note => rfl

/-- A step is refused if and only if it is refused under the new identities. -/
theorem Step.blocked?_rename (hf : Set.InjOn f ids)
    (hcontains : ∀ name, r'.contains name = r.contains name) {step : Step}
    (hstep : ∀ rule, step = .inline rule → rule.id ∈ ids) {inlined : List RuleId}
    (hinlined : ∀ id ∈ inlined, id ∈ ids) :
    (step.rename f).blocked? r' (inlined.map f) =
      (step.blocked? r inlined).map (Rule.rename f) := by
  cases step with
  | inline rule =>
    have hmem : f rule.id ∈ inlined.map f ↔ rule.id ∈ inlined := by
      rw [List.mem_map]
      constructor
      · rintro ⟨id, hid, heq⟩
        rwa [← hf (hinlined id hid) (hstep rule rfl) heq]
      · intro hid
        exact ⟨rule.id, hid, rfl⟩
    simp only [rename, blocked?, Rule.id_rename, List.contains_iff_mem, hmem]
    split <;> rfl
  | resolve rule name =>
    simp only [rename, blocked?, hcontains]
    split <;> rfl
  | call | regex | note => rfl

/-- The checks go the same way under new identities. -/
theorem check_rename (hf : Set.InjOn f ids) (hcontains : ∀ name, r'.contains name = r.contains name)
    {steps : List Step} (hsteps : ∀ rule, .inline rule ∈ steps → rule.id ∈ ids) {inlined : List RuleId}
    (hinlined : ∀ id ∈ inlined, id ∈ ids) (journal : Array Event) :
    check r' (steps.map (Step.rename f)) (inlined.map f) journal =
      (check r steps inlined journal).map fun (inlined, journal) => (inlined.map f, journal) := by
  induction steps generalizing inlined journal with
  | nil => rfl
  | cons step steps ih =>
    have hstep : ∀ rule, step = .inline rule → rule.id ∈ ids := by
      rintro rule rfl
      exact hsteps rule List.mem_cons_self
    have hblocked := Step.blocked?_rename hf hcontains hstep hinlined
    have hlater : ∀ id ∈ step.inlines ++ inlined, id ∈ ids := by
      intro id hid
      rcases List.mem_append.mp hid with hid | hid
      · cases step with
        | inline rule =>
          cases List.mem_singleton.mp hid
          exact hstep rule rfl
        | call | regex | resolve | note => cases hid
      · exact hinlined id hid
    have hrest := ih (fun rule hrule => hsteps rule (List.mem_cons_of_mem step hrule)) hlater
      (journal ++ step.notes.toArray)
    rw [List.map_cons, check, check, hblocked]
    cases step.blocked? r inlined with
    | some rule => simp [Except.map, Rule.describe_rename]
    | none =>
      rw [List.map_append] at hrest
      simp only [Option.map_none, Step.inlines_rename, Step.notes_rename, hrest]

end

/-! ## The same outcome -/

/-- Grammars whose steps make the same calls have documents with the same text. -/
theorem compact_eq_of_callsOf_eq (h : callsOf (steps g) = callsOf (steps g')) :
    String.ofList (documentTree g.repository.nameOf? g).compact =
      String.ofList (documentTree g'.repository.nameOf? g').compact := by
  have hwrites := writes_steps g {}
  rw [h, writes_steps g' {}, Except.ok.injEq] at hwrites
  have htext := congrArg (·.text) hwrites
  simpa [Json.Writer.put, Json.Writer.nextValue, Json.Writer.nextItem, Json.Writer.raw] using htext.symm

theorem journal_start_rename : (Progress.start (g.rename f)).journal = (Progress.start g).journal := by
  simp [Progress.start, Grammar.rename, Repository.size_mapRules]

/-- Under identities that tell its rules apart, a grammar compiles to the same document or fails in the same
way, with the same journal. -/
theorem compile_rename (hf : Set.InjOn f (identities g)) (hg : g.repository.Reachable) :
    (g.rename f).compile = g.compile := by
  have hapart := apart_of_injOn hf
  have hsteps := steps_rename hapart hg
  have hcheck : check (g.rename f).repository ((steps g).map (Step.rename f)) [] (Progress.start g).journal =
      (check g.repository (steps g) [] (Progress.start g).journal).map
        fun (inlined, journal) => (inlined.map f, journal) :=
    check_rename hf (hapart.contains_rename hg) (fun rule hrule => mem_identities_of_inline hg hrule)
      (fun id hid => absurd hid List.not_mem_nil) (Progress.start g).journal
  have htext : String.ofList (documentTree (g.rename f).repository.nameOf? (g.rename f)).compact =
      String.ofList (documentTree g.repository.nameOf? g).compact := by
    apply compact_eq_of_callsOf_eq
    rw [hsteps, callsOf_rename]
  rw [compile_eq_check, compile_eq_check, hsteps, journal_start_rename, hcheck, htext]
  cases check g.repository (steps g) [] (Progress.start g).journal with
  | ok result => rfl
  | error failure => rfl

/-! ## Grammars that differ in identities -/

theorem Step.exists_eq_resolve {step : Step} {rule : Rule} {name : String}
    (h : step.rename f = .resolve rule name) : ∃ rule', step = .resolve rule' name := by
  cases step with
  | resolve rule' name' =>
    obtain ⟨-, rfl⟩ := Step.resolve.inj h
    exact ⟨rule', rfl⟩
  | call | regex | inline | note => cases h

/-- The journal of checks that succeed holds the notes of all steps. -/
theorem journal_of_check {r : Repository} {steps : List Step} {inlined inlined' : List RuleId}
    {journal journal' : Array Event} (h : check r steps inlined journal = .ok (inlined', journal')) :
    journal' = journal ++ (steps.flatMap Step.notes).toArray := by
  induction steps generalizing inlined journal with
  | nil =>
    cases h
    simp
  | cons step steps ih =>
    rw [check] at h
    split at h
    · cases h
    · rw [ih h, List.flatMap_cons]
      simp

/-- A document is given by the calls and the notes of the steps. -/
theorem eq_of_compile {d : Document} (h : g.compile = .ok d) :
    d.text = String.ofList (documentTree g.repository.nameOf? g).compact ∧
    d.journal = ((Progress.start g).journal ++ ((steps g).flatMap Step.notes).toArray).push
      (.finished g.name d.text.utf8ByteSize) := by
  rw [compile_eq_check] at h
  cases hcheck : check g.repository (steps g) [] (Progress.start g).journal with
  | error failure =>
    rw [hcheck] at h
    cases h
  | ok result =>
    obtain ⟨inlined, journal⟩ := result
    rw [hcheck] at h
    cases h
    refine ⟨rfl, ?_⟩
    rw [← journal_of_check hcheck]

section

variable (hg : g.repository.Reachable) (hg' : g'.repository.Reachable) (hf : Apart f g)
  (hf' : Apart f g') (hsame : g'.rename f = g.rename f)

include hg hg' hf hf' hsame

theorem map_steps_eq : (steps g').map (Step.rename f) = (steps g).map (Step.rename f) := by
  rw [← steps_rename hf' hg', hsame, steps_rename hf hg]

/-- If both grammars have a document, it is the same. -/
theorem document_eq_of_rename_eq {d d' : Document} (hd : g.compile = .ok d)
    (hd' : g'.compile = .ok d') : d' = d := by
  have hsteps := map_steps_eq hg hg' hf hf' hsame
  have hcalls : callsOf (steps g') = callsOf (steps g) := by
    rw [← callsOf_rename (f := f), hsteps, callsOf_rename]
  have hnotes : (steps g').flatMap Step.notes = (steps g).flatMap Step.notes := by
    rw [← notes_rename (f := f), hsteps, notes_rename]
  have hstart : (Progress.start g').journal = (Progress.start g).journal := by
    rw [← journal_start_rename (f := f), hsame, journal_start_rename]
  have hname : g'.name = g.name := congrArg (·.name) hsame
  obtain ⟨htext, hjournal⟩ := eq_of_compile hd
  obtain ⟨htext', hjournal'⟩ := eq_of_compile hd'
  have htexts : d'.text = d.text := by
    rw [htext, htext', compact_eq_of_callsOf_eq hcalls]
  have hjournals : d'.journal = d.journal := by
    rw [hjournal, hjournal', hstart, hnotes, hname, htexts]
  show Document.mk d'.text d'.journal = Document.mk d.text d.journal
  rw [htexts, hjournals]

/-- If one grammar has a document, only a rule whose body stands in two lists keeps the other from having
one. -/
theorem exists_compile_of_rename_eq (hplaced : (placements g').Nodup) {d : Document}
    (hd : g.compile = .ok d) : ∃ d', g'.compile = .ok d' := by
  have hclear := (exists_compile_iff_clear hg).mp ⟨d, hd⟩
  rw [clear_iff, ← occurrencesOf_steps hg] at hclear
  obtain ⟨-, -, hreferred⟩ := hclear
  rw [exists_compile_iff_clear hg', clear_iff, placed_occurrences]
  refine ⟨by simp, hplaced, ?_⟩
  intro rule name hmem
  -- the other grammar has a step for the same name
  obtain ⟨rule', hstep⟩ : ∃ rule', .resolve rule' name ∈ steps g := by
    rw [← occurrencesOf_steps hg'] at hmem
    obtain ⟨step, hstep, hoccurrence⟩ := List.mem_filterMap.mp hmem
    have hrenamed := List.mem_map_of_mem (f := Step.rename f) hstep
    rw [map_steps_eq hg hg' hf hf' hsame] at hrenamed
    obtain ⟨step', hstep', heq⟩ := List.mem_map.mp hrenamed
    cases step <;> cases hoccurrence
    obtain ⟨rule', rfl⟩ := Step.exists_eq_resolve heq
    exact ⟨rule', hstep'⟩
  obtain ⟨entry, hentry, hname⟩ :=
    hreferred rule' name (List.mem_filterMap.mpr ⟨.resolve rule' name, hstep, rfl⟩)
  have hcontains : g'.repository.contains name = true := by
    rw [← hf'.contains_rename hg', hsame, hf.contains_rename hg]
    exact (hg.contains_iff name).mpr ⟨entry, hentry, hname⟩
  exact (hg'.contains_iff name).mp hcontains

end

/-! ## Occurrences of rules without a name -/

/-- The parts of a rule: the rules for its captured text, and then its inner rules. -/
def parts (rule : Rule) : List Rule :=
  captureRules rule ++ rule.inner

theorem sizeOf_lt_of_mem_parts {part rule : Rule} (h : part ∈ parts rule) :
    sizeOf part < sizeOf rule := by
  rcases List.mem_append.mp h with h | h
  · exact sizeOf_lt_of_mem_captureRules h
  · exact sizeOf_lt_of_mem_inner h

/-- Induction where inner rules and rules for captured text are not told apart. -/
theorem induction_on_all_parts {motive : Rule → Prop}
    (step : ∀ rule, (∀ part ∈ parts rule, motive part) → motive rule) (rule : Rule) : motive rule := by
  induction rule using induction_on_parts with
  | step rule ihinner ihcapture =>
    apply step
    intro part hpart
    rcases List.mem_append.mp hpart with hpart | hpart
    · exact ihcapture part hpart
    · exact ihinner part hpart

section

variable (registered : Rule → Bool)

/-- The rules without a name inside a rule, in lists and in captured text, once for each occurrence. What
is inside a registered rule occurs in its entry. -/
def unnamedUnder (rule : Rule) : List Rule :=
  (parts rule).attach.flatMap fun ⟨part, _⟩ =>
    if registered part then [] else part :: unnamedUnder part
termination_by sizeOf rule
decreasing_by exact sizeOf_lt_of_mem_parts ‹_›

/-- A rule and the rules without a name inside it, unless it is registered. -/
def unnamedAt (rule : Rule) : List Rule :=
  if registered rule then [] else rule :: unnamedUnder registered rule

theorem unnamedUnder_eq (rule : Rule) :
    unnamedUnder registered rule = (parts rule).flatMap (unnamedAt registered) := by
  have hattach := List.attach_map_subtype_val (parts rule)
  rw [unnamedUnder]
  conv => rhs; rw [← hattach, List.flatMap_map]
  rfl

variable {registered} in
theorem placed_sublist_unnamedAt {rule : Rule}
    (h : (placedUnder registered rule).Sublist ((unnamedUnder registered rule).map Rule.id)) :
    (if registered rule || rule.isReference then [] else rule.id :: placedUnder registered rule).Sublist
      ((unnamedAt registered rule).map Rule.id) := by
  rw [unnamedAt]
  cases registered rule with
  | true => exact List.nil_sublist _
  | false =>
    cases rule.isReference with
    | true => exact List.nil_sublist _
    | false => exact h.cons_cons rule.id

/-- What counts as placed is some of what occurs. -/
theorem placedUnder_sublist (rule : Rule) :
    (placedUnder registered rule).Sublist ((unnamedUnder registered rule).map Rule.id) := by
  induction rule using induction_on_parts with
  | step rule ihinner _ =>
    rw [placedUnder_eq, placedIn_eq_flatMap, unnamedUnder_eq, parts, List.flatMap_append,
      List.map_append, List.map_flatMap (l := rule.inner)]
    refine .trans (List.Sublist.flatMap_right _ ?_) (List.sublist_append_right _ _)
    intro part hpart
    exact placed_sublist_unnamedAt (ihinner part hpart)

theorem placedIn_sublist (rules : List Rule) :
    (placedIn registered rules).Sublist ((rules.flatMap (unnamedAt registered)).map Rule.id) := by
  rw [placedIn_eq_flatMap, List.map_flatMap]
  apply List.Sublist.flatMap_right
  intro rule _
  exact placed_sublist_unnamedAt (placedUnder_sublist registered rule)

end

/-- The rules without a name, once for each of their occurrences in the grammar. -/
def unnamed (g : Grammar) : List Rule :=
  let registered := isRegistered g.repository.entries.toList
  g.topLevel.flatMap (unnamedAt registered) ++
    g.repository.entries.toList.flatMap fun entry => unnamedUnder registered entry.rule

theorem placements_sublist (g : Grammar) : (placements g).Sublist ((unnamed g).map Rule.id) := by
  rw [placements, unnamed, List.map_append, List.map_flatMap (l := g.repository.entries.toList)]
  apply List.Sublist.append
  · exact placedIn_sublist _ g.topLevel
  · apply List.Sublist.flatMap_right
    intro entry _
    exact placedUnder_sublist _ entry.rule

/-! ## Occurrences with identities of their own -/

/-- Keep the identities of the registered rules apart, and take all others for one. -/
def forget (g : Grammar) (id : RuleId) : RuleId :=
  if id ∈ g.repository.entries.toList.map (·.rule.id) then id + 1 else 0

theorem eq_of_forget_eq {id id' : RuleId} (hid : id ∈ g.repository.entries.toList.map (·.rule.id))
    (h : forget g id = forget g id') : id = id' := by
  rw [forget, forget, if_pos hid] at h
  split at h
  · exact Nat.succ.inj h
  · cases h

theorem apart_forget (g : Grammar) : Apart (forget g) g := by
  intro entry hentry rule _ hid
  exact eq_of_forget_eq (List.mem_map_of_mem (Array.mem_toList_iff.mpr hentry)) hid

/-- `g'` is `g` with an identity of its own for each occurrence of each rule without a name. -/
structure Separated (g g' : Grammar) : Prop where
  /-- The grammars differ in the identities of rules without a name only. -/
  rename_eq : g'.rename (forget g) = g.rename (forget g)
  /-- No two occurrences of rules without a name share an identity. -/
  nodup : ((unnamed g').map Rule.id).Nodup

/-- The registered rules keep their identities, and no other rule has one of them. -/
theorem Separated.apart_forget (h : Separated g g') : Apart (forget g) g' := by
  intro entry hentry rule _ hid
  have hentries : g'.repository.entries.toList.map (Repository.mapEntry (Rule.rename (forget g))) =
      g.repository.entries.toList.map (Repository.mapEntry (Rule.rename (forget g))) := by
    rw [← Repository.entries_mapRules, ← Repository.entries_mapRules]
    exact congrArg (·.repository.entries.toList) h.rename_eq
  -- the entry stands for an entry of `g` with the same identity
  obtain ⟨entry', hentry', heq⟩ : ∃ entry' ∈ g.repository.entries.toList,
      Repository.mapEntry (Rule.rename (forget g)) entry' =
        Repository.mapEntry (Rule.rename (forget g)) entry := by
    rw [← List.mem_map, ← hentries]
    exact List.mem_map_of_mem (Array.mem_toList_iff.mpr hentry)
  have hregistered : entry'.rule.id ∈ g.repository.entries.toList.map (·.rule.id) :=
    List.mem_map_of_mem hentry'
  have hforget := congrArg (·.rule.id) heq
  simp only [Repository.mapEntry, Rule.id_rename] at hforget
  have hentryId := eq_of_forget_eq hregistered hforget
  rw [← hentryId] at hid ⊢
  exact eq_of_forget_eq hregistered hid

/-- Once a grammar has a document, it does not matter which rules without a name are shared. -/
theorem Separated.compile_eq (h : Separated g g') (hg : g.repository.Reachable)
    (hg' : g'.repository.Reachable) {d : Document} (hd : g.compile = .ok d) : g'.compile = .ok d := by
  have hplaced : (placements g').Nodup := h.nodup.sublist (placements_sublist g')
  have hapart := Document.apart_forget g
  obtain ⟨d', hd'⟩ := exists_compile_of_rename_eq hg hg' hapart h.apart_forget h.rename_eq hplaced hd
  rw [hd', document_eq_of_rename_eq hg hg' hapart h.apart_forget h.rename_eq hd hd']

end TextMate.Document
