import TextMate.Proofs.Document.Refreshing

/-!
# An identity for each occurrence

`separate` builds the grammar in which no two occurrences of rules without a name share an identity. It is
`Separated` from the given one, and if the given one uses each identity for one rule, so does the new one.

With that, `compile_independent_of_identities` says all that identities have to do with a document.
-/

namespace TextMate.Document

/-! ## Grammars -/

variable {g : Grammar}

/-- New identities for a grammar: above those of its registered rules, with a place in each stride for the
top level and for each entry. -/
def supplyOf (g : Grammar) : Supply where
  start? id := (g.repository.entries.toList.findIdx? (·.rule.id = id)).map fun i =>
    (g.repository.entries.toList.map (·.rule.id)).max?.getD 0 + 1 + (i + 1)
  stride := g.repository.size + 1
  bound := (g.repository.entries.toList.map (·.rule.id)).max?.getD 0 + 1
  stride_pos := Nat.succ_pos _
  lt_bound := by
    intro id first hfirst
    obtain ⟨i, hi, -⟩ := Option.map_eq_some_iff.mp hfirst
    obtain ⟨hlt, hid, -⟩ := List.findIdx?_eq_some_iff_getElem.mp hi
    have hmem := List.mem_map_of_mem (f := (·.rule.id)) (List.getElem_mem hlt)
    rw [of_decide_eq_true hid] at hmem
    exact Nat.lt_succ_of_le (List.le_max?_getD_of_mem hmem)
  bound_le := by
    intro id first hfirst
    obtain ⟨i, -, rfl⟩ := Option.map_eq_some_iff.mp hfirst
    exact Nat.le_add_right _ _

/-- Where the identities inside an entry start depends on its place in the repository. -/
theorem start?_supplyOf {id first : RuleId} (h : (supplyOf g).start? id = some first) :
    ∃ i < g.repository.size, first = (supplyOf g).bound + (i + 1) ∧
      (g.repository.entries.toList.map (·.rule.id))[i]? = some id := by
  obtain ⟨i, hi, rfl⟩ := Option.map_eq_some_iff.mp h
  obtain ⟨hlt, hid, -⟩ := List.findIdx?_eq_some_iff_getElem.mp hi
  refine ⟨i, hlt, rfl, ?_⟩
  rw [List.getElem?_map, List.getElem?_eq_getElem hlt, Option.map_some, of_decide_eq_true hid]

theorem isRegistered_supplyOf (rule : Rule) :
    (supplyOf g).isRegistered rule = isRegistered g.repository.entries.toList rule := by
  rw [Supply.isRegistered, supplyOf, Option.isSome_map, List.findIdx?_isSome, isRegistered]

theorem isRegistered_of_mem {entry : Entry} (h : entry ∈ g.repository.entries) :
    (supplyOf g).isRegistered entry.rule = true := by
  rw [isRegistered_supplyOf, isRegistered, List.any_eq_true]
  exact ⟨entry, Array.mem_toList_iff.mpr h, by simp⟩

/-- A registered rule, with an identity of its own for each rule without a name inside it. -/
def separateInside (g : Grammar) (rule : Rule) : Rule :=
  (refresh (supplyOf g) rule (supplyOf g).bound).1

theorem id_separateInside {entry : Entry} (h : entry ∈ g.repository.entries) :
    (separateInside g entry.rule).id = entry.rule.id := by
  rw [separateInside, id_refresh, Supply.label]
  exact if_pos (isRegistered_of_mem h)

/-- The grammar with an identity of its own for each occurrence of each rule without a name. -/
def separate (g : Grammar) : Grammar :=
  { g with
    topLevel := (refreshList (supplyOf g) g.topLevel (supplyOf g).bound).1
    repository := g.repository.mapRules (separateInside g) }

theorem reachable_separate (hg : g.repository.Reachable) : (separate g).repository.Reachable := by
  apply hg.mapRules (h := separateInside g)
  refine ⟨?_, ?_⟩
  · intro entry hentry
    rw [separateInside, isReference_refresh]
    exact hg.coherent.not_reference entry hentry
  · intro entry hentry entry' hentry' hid
    rwa [id_separateInside hentry, id_separateInside hentry'] at hid

/-- The same rules are registered. -/
theorem isRegistered_separate :
    isRegistered (separate g).repository.entries.toList = (supplyOf g).isRegistered := by
  funext rule
  rw [isRegistered_supplyOf, Bool.eq_iff_iff, isRegistered, isRegistered, List.any_eq_true,
    List.any_eq_true]
  constructor
  · rintro ⟨entry, hentry, hid⟩
    obtain ⟨old, hold, rfl⟩ := Repository.mem_entries_mapRules.mp (Array.mem_toList_iff.mp hentry)
    refine ⟨old, Array.mem_toList_iff.mpr hold, ?_⟩
    rwa [Repository.mapEntry, id_separateInside hold] at hid
  · rintro ⟨entry, hentry, hid⟩
    have hmem := Array.mem_toList_iff.mp hentry
    refine ⟨_, Array.mem_toList_iff.mpr (Repository.mem_entries_mapRules.mpr ⟨entry, hmem, rfl⟩), ?_⟩
    rwa [Repository.mapEntry, id_separateInside hmem]

theorem forget_eq_zero {id : RuleId} (h : (supplyOf g).start? id = none) : forget g id = 0 := by
  rw [forget, if_neg]
  intro hmem
  obtain ⟨entry, hentry, rfl⟩ := List.mem_map.mp hmem
  have hregistered := isRegistered_of_mem (Array.mem_toList_iff.mp hentry)
  rw [Supply.isRegistered, h] at hregistered
  cases hregistered

/-- Nothing but the identities of rules without a name changes. -/
theorem rename_separate (g : Grammar) : (separate g).rename (forget g) = g.rename (forget g) := by
  have hundone : ∀ rule, Undone (supplyOf g) (forget g) rule := by
    apply undone
    intro id next hid hnext
    rw [forget_eq_zero hid, forget_eq_zero (Supply.start?_eq_none hnext)]
  have htop : (separate g).topLevel.map (Rule.rename (forget g)) =
      g.topLevel.map (Rule.rename (forget g)) := by
    rw [← Rule.renameList_eq_map, ← Rule.renameList_eq_map]
    exact rename_refreshList (fun rule _ => hundone rule) (Nat.le_refl _)
  have hrepository : (separate g).repository.mapRules (Rule.rename (forget g)) =
      g.repository.mapRules (Rule.rename (forget g)) := by
    apply Repository.mapRules_congr
    · rw [separate, Repository.entries_mapRules, List.map_map]
      apply List.map_congr_left
      intro entry _
      simp only [Function.comp_apply, Repository.mapEntry, separateInside,
        hundone entry.rule _ (Nat.le_refl _)]
    · exact Repository.nextName_mapRules
  rw [Grammar.rename, Grammar.rename, htop, hrepository]
  rfl

/-- No new identity is handed out twice. -/
theorem nodup_separate (hg : g.repository.Reachable) :
    ((unnamed (separate g)).map Rule.id).Nodup := by
  have hinside : ∀ entry ∈ g.repository.entries, ∃ i < g.repository.size, ∃ last,
      (g.repository.entries.toList.map (·.rule.id))[i]? = some entry.rule.id ∧
      Counts (supplyOf g).stride
        ((unnamedUnder (supplyOf g).isRegistered (separateInside g entry.rule)).map Rule.id)
        ((supplyOf g).bound + (i + 1)) last := by
    intro entry hentry
    obtain ⟨first, hfirst⟩ := Option.isSome_iff_exists.mp (isRegistered_of_mem hentry)
    obtain ⟨i, hi, rfl, hid⟩ := start?_supplyOf hfirst
    obtain ⟨last, hcounts⟩ := counts_inside hfirst (supplyOf g).bound
    exact ⟨i, hi, last, hid, hcounts⟩
  have htop := counts_refreshList g.topLevel (Nat.le_refl (supplyOf g).bound)
  rw [unnamed, isRegistered_separate, List.map_append, List.map_flatMap (l := Array.toList _), separate,
    Repository.entries_mapRules, List.flatMap_map]
  apply List.Nodup.append
  · exact htop.nodup (supplyOf g).stride_pos
  · rw [List.nodup_flatMap]
    refine ⟨?_, ?_⟩
    · intro entry hentry
      obtain ⟨i, hi, last, -, hcounts⟩ := hinside entry (Array.mem_toList_iff.mp hentry)
      exact hcounts.nodup (supplyOf g).stride_pos
    · -- different entries have different places
      have hids := hg.coherent.indexed.rules.nodup
      rw [List.Nodup, List.pairwise_map] at hids
      refine hids.imp_of_mem ?_
      intro entry entry' hentry hentry' hne
      obtain ⟨i, hi, last, hid, hcounts⟩ := hinside entry (Array.mem_toList_iff.mp hentry)
      obtain ⟨i', hi', last', hid', hcounts'⟩ := hinside entry' (Array.mem_toList_iff.mp hentry')
      apply hcounts.disjoint hcounts' (Nat.succ_lt_succ hi) (Nat.succ_lt_succ hi')
      intro heq
      cases Nat.succ.inj heq
      exact hne (Option.some.inj (hid.symm.trans hid'))
  · intro id hid hmem
    obtain ⟨entry, hentry, hmem⟩ := List.mem_flatMap.mp hmem
    obtain ⟨i, hi, last, -, hcounts⟩ := hinside entry (Array.mem_toList_iff.mp hentry)
    exact htop.disjoint (i := 0) hcounts (Nat.succ_pos _) (Nat.succ_lt_succ hi) (Nat.succ_ne_zero i).symm
      hid hmem

theorem separated_separate (hg : g.repository.Reachable) : Separated g (separate g) :=
  ⟨rename_separate g, nodup_separate hg⟩

/-! ## One rule for each identity -/

theorem Occurs.part {outer part : Rule} (h : Occurs g outer) (hpart : part ∈ parts outer) :
    Occurs g part := by
  rcases List.mem_append.mp hpart with hpart | hpart
  · exact h.capture hpart
  · exact h.inner hpart

section

variable {registered : Rule → Bool}

theorem mem_unnamedUnder_of_part {part rule : Rule} (hpart : part ∈ parts rule)
    (h : registered part = false) : part ∈ unnamedUnder registered rule := by
  rw [unnamedUnder_eq]
  refine List.mem_flatMap.mpr ⟨part, hpart, ?_⟩
  rw [unnamedAt, h]
  exact List.mem_cons_self

/-- With a rule without a name its parts are listed, unless they are registered. -/
theorem mem_unnamedAt_of_part (rule : Rule) {outer part : Rule}
    (houter : outer ∈ unnamedAt registered rule) (hpart : part ∈ parts outer)
    (h : registered part = false) : part ∈ unnamedAt registered rule := by
  induction rule using induction_on_all_parts with
  | step rule ih =>
    rw [unnamedAt] at houter ⊢
    split at houter
    · cases houter
    · rw [if_neg ‹_›]
      apply List.mem_cons_of_mem
      rcases List.mem_cons.mp houter with rfl | houter
      · exact mem_unnamedUnder_of_part hpart h
      · rw [unnamedUnder_eq] at houter ⊢
        obtain ⟨middle, hmiddle, houter⟩ := List.mem_flatMap.mp houter
        exact List.mem_flatMap.mpr ⟨middle, hmiddle, ih middle hmiddle houter⟩

theorem mem_unnamedUnder_of_mem {rule outer part : Rule} (houter : outer ∈ unnamedUnder registered rule)
    (hpart : part ∈ parts outer) (h : registered part = false) :
    part ∈ unnamedUnder registered rule := by
  rw [unnamedUnder_eq] at houter ⊢
  obtain ⟨middle, hmiddle, houter⟩ := List.mem_flatMap.mp houter
  exact List.mem_flatMap.mpr ⟨middle, hmiddle, mem_unnamedAt_of_part middle houter hpart h⟩

end

/-- If a registered rule is the same rule wherever it occurs, then every other rule is listed. -/
theorem mem_unnamed (hone : ∀ rule, Occurs g rule → isRegistered g.repository.entries.toList rule = true →
      ∃ entry ∈ g.repository.entries, entry.rule = rule) {rule : Rule} (h : Occurs g rule)
    (hrule : isRegistered g.repository.entries.toList rule = false) : rule ∈ unnamed g := by
  have hpart : ∀ outer part, Occurs g outer → part ∈ parts outer →
      (isRegistered g.repository.entries.toList outer = false → outer ∈ unnamed g) →
      isRegistered g.repository.entries.toList part = false → part ∈ unnamed g := by
    intro outer part houter hpart hlisted hunregistered
    cases hregistered : isRegistered g.repository.entries.toList outer with
    | true =>
      -- what is inside a registered rule is listed with its entry
      obtain ⟨entry, hentry, rfl⟩ := hone outer houter hregistered
      apply List.mem_append_right
      exact List.mem_flatMap.mpr
        ⟨entry, Array.mem_toList_iff.mpr hentry, mem_unnamedUnder_of_part hpart hunregistered⟩
    | false =>
      rcases List.mem_append.mp (hlisted hregistered) with hmem | hmem
      · obtain ⟨top, htop, hmem⟩ := List.mem_flatMap.mp hmem
        apply List.mem_append_left
        exact List.mem_flatMap.mpr ⟨top, htop, mem_unnamedAt_of_part top hmem hpart hunregistered⟩
      · obtain ⟨entry, hentry, hmem⟩ := List.mem_flatMap.mp hmem
        apply List.mem_append_right
        exact List.mem_flatMap.mpr ⟨entry, hentry, mem_unnamedUnder_of_mem hmem hpart hunregistered⟩
  induction h with
  | @topLevel rule htop =>
    apply List.mem_append_left
    refine List.mem_flatMap.mpr ⟨rule, htop, ?_⟩
    rw [unnamedAt, hrule]
    exact List.mem_cons_self
  | @entry entry hentry =>
    have hregistered : isRegistered g.repository.entries.toList entry.rule = true :=
      List.any_eq_true.mpr ⟨entry, Array.mem_toList_iff.mpr hentry, by simp⟩
    rw [hregistered] at hrule
    cases hrule
  | inner houter hmem ih => exact hpart _ _ houter (List.mem_append_right _ hmem) ih hrule
  | capture houter hmem ih => exact hpart _ _ houter (List.mem_append_left _ hmem) ih hrule

/-- The rules of the new grammar are those of the old one, refreshed. -/
theorem exists_of_occurs_separate {rule' : Rule} (h : Occurs (separate g) rule') :
    ∃ rule next, Occurs g rule ∧ (supplyOf g).bound ≤ next ∧
      rule' = (refresh (supplyOf g) rule next).1 := by
  have hpart : ∀ outer' part', part' ∈ parts outer' →
      (∃ outer next, Occurs g outer ∧ (supplyOf g).bound ≤ next ∧
        outer' = (refresh (supplyOf g) outer next).1) →
      ∃ rule next, Occurs g rule ∧ (supplyOf g).bound ≤ next ∧
        part' = (refresh (supplyOf g) rule next).1 := by
    rintro outer' part' hpart ⟨outer, next, houter, hnext, rfl⟩
    rw [parts_refresh] at hpart
    obtain ⟨part, hmem, later, hlater, rfl⟩ :=
      exists_of_mem_refreshList (Supply.bound_le_inside _ hnext) hpart
    exact ⟨part, later, houter.part hmem, hlater, rfl⟩
  induction h with
  | topLevel htop =>
    obtain ⟨rule, hrule, later, hlater, rfl⟩ := exists_of_mem_refreshList (Nat.le_refl _) htop
    exact ⟨rule, later, .topLevel hrule, hlater, rfl⟩
  | entry hentry =>
    obtain ⟨entry, hold, rfl⟩ := Repository.mem_entries_mapRules.mp hentry
    exact ⟨entry.rule, _, .entry hold, Nat.le_refl _, rfl⟩
  | inner _ hmem ih => exact hpart _ _ (List.mem_append_right _ hmem) ih
  | capture _ hmem ih => exact hpart _ _ (List.mem_append_left _ hmem) ih

/-- If the grammar uses each identity for one rule, a registered rule is the same rule wherever it occurs in
the new grammar. -/
theorem exists_entry_of_occurs_separate (hid : Consistent g) {rule' : Rule}
    (h : Occurs (separate g) rule')
    (hregistered : isRegistered (separate g).repository.entries.toList rule' = true) :
    ∃ entry ∈ (separate g).repository.entries, entry.rule = rule' := by
  obtain ⟨rule, next, hrule, hnext, rfl⟩ := exists_of_occurs_separate h
  rw [isRegistered_separate, isRegistered_refresh hnext] at hregistered
  have hany := hregistered
  rw [isRegistered_supplyOf, isRegistered, List.any_eq_true] at hany
  obtain ⟨entry, hentry, heq⟩ := hany
  have hmem := Array.mem_toList_iff.mp hentry
  have hsame : entry.rule = rule := hid _ _ (.entry hmem) hrule (of_decide_eq_true heq)
  refine ⟨_, Repository.mem_entries_mapRules.mpr ⟨entry, hmem, rfl⟩, ?_⟩
  rw [Repository.mapEntry, separateInside, hsame]
  exact refresh_of_isRegistered hregistered _ _

theorem consistent_separate (hg : g.repository.Reachable) (hid : Consistent g) :
    Consistent (separate g) := by
  have hone : ∀ rule, Occurs (separate g) rule →
      isRegistered (separate g).repository.entries.toList rule = true →
      ∃ entry ∈ (separate g).repository.entries, entry.rule = rule :=
    fun rule h hrule => exists_entry_of_occurs_separate hid h hrule
  have hregistered_eq : ∀ rule rule' : Rule, rule.id = rule'.id →
      isRegistered (separate g).repository.entries.toList rule =
        isRegistered (separate g).repository.entries.toList rule' := by
    intro rule rule' heq
    rw [isRegistered, isRegistered, heq]
  intro rule rule' h h' heq
  cases hrule : isRegistered (separate g).repository.entries.toList rule with
  | true =>
    obtain ⟨entry, hentry, rfl⟩ := hone rule h hrule
    obtain ⟨entry', hentry', rfl⟩ := hone rule' h' ((hregistered_eq _ _ heq).symm.trans hrule)
    have hnodup := (reachable_separate hg).coherent.indexed.rules.nodup
    rw [List.inj_on_of_nodup_map hnodup (Array.mem_toList_iff.mpr hentry)
      (Array.mem_toList_iff.mpr hentry') heq]
  | false =>
    have hmem := mem_unnamed hone h hrule
    have hmem' := mem_unnamed hone h' ((hregistered_eq _ _ heq).symm.trans hrule)
    exact List.inj_on_of_nodup_map (nodup_separate hg) hmem hmem' heq

/-! ## Identities do not matter -/

/-- What compiling a grammar gives, the journal included, does not depend on the identities of its rules, as
long as they tell the rules apart. And once a grammar has a document, sharing rules without a name makes no
difference to it: in whatever way each of their occurrences gets an identity of its own, the document is the
same. There is such a way, and it keeps one rule for each identity. -/
theorem compile_independent_of_identities (g : Grammar) (hg : g.repository.Reachable) :
    (∀ f : RuleId → RuleId, Set.InjOn f (identities g) →
      (g.rename f).repository.Reachable ∧ (g.rename f).compile = g.compile) ∧
    (∀ (g' : Grammar) (d : Document), g'.repository.Reachable → Separated g g' →
      g.compile = .ok d → g'.compile = .ok d) ∧
    (separate g).repository.Reachable ∧ Separated g (separate g) ∧
    (Consistent g → Consistent (separate g)) := by
  refine ⟨?_, ?_, reachable_separate hg, separated_separate hg, consistent_separate hg⟩
  · intro f hf
    exact ⟨(apart_of_injOn hf).reachable_rename hg, compile_rename hf hg⟩
  · intro g' d hg' h hd
    exact h.compile_eq hg hg' hd

/-- A rule for marks, which has no name. -/
def markRule : Rule :=
  .body 1 (some "mark") .always []

/-- A rule with the rule for marks inside it. -/
def lineRule : Rule :=
  .body 2 none (.matching (.literal "-")) [markRule]

/-- A grammar whose captured text uses the rule for marks twice and the rule for lines once. -/
def sharedGrammar : Grammar where
  name := "Shared"
  scopeName := "source.shared"
  topLevel := [lineRule, .body 3 none (.matching (.seq [.capture .any markRule, .capture .any markRule,
    .capture .any lineRule])) [lineRule, .reference 4 "line"]]
  repository := Repository.insert {} "line" lineRule

/-- The rule for marks occurs three times, twice in captured text and once in the entry. -/
theorem not_nodup_sharedGrammar : ¬ ((unnamed sharedGrammar).map Rule.id).Nodup := by
  simp [unnamed, sharedGrammar, Repository.insert, unnamedAt, unnamedUnder_eq, parts, captureRules,
    triggerPatterns, Pattern.captures, Pattern.capturesAll, isRegistered, lineRule, markRule, Rule.inner,
    Rule.id]

theorem compile_independent_of_identities_sharedGrammar :
    sharedGrammar.repository.Reachable ∧ ¬ ((unnamed sharedGrammar).map Rule.id).Nodup ∧
    Set.InjOn (Equiv.swap 1 2) (identities sharedGrammar) ∧
    ∃ d, sharedGrammar.compile = .ok d ∧ (sharedGrammar.rename (Equiv.swap 1 2)).compile = .ok d ∧
      Separated sharedGrammar (separate sharedGrammar) ∧ (separate sharedGrammar).compile = .ok d := by
  have hg : sharedGrammar.repository.Reachable := .insert .empty (by decide +kernel)
  have hswap : Set.InjOn (Equiv.swap 1 2) (identities sharedGrammar) := (Equiv.injective _).injOn
  obtain ⟨hrename, hseparated, hreachable, hseparate, -⟩ :=
    compile_independent_of_identities sharedGrammar hg
  refine ⟨hg, not_nodup_sharedGrammar, hswap, ?_⟩
  have hok : sharedGrammar.compile.isOk := by decide +kernel
  cases hd : sharedGrammar.compile with
  | error failure =>
    rw [hd] at hok
    cases hok
  | ok d =>
    have hrenamed := (hrename (Equiv.swap 1 2) hswap).2
    exact ⟨d, rfl, hrenamed.trans hd, hseparate, hseparated _ d hreachable hseparate hd⟩

end TextMate.Document
