import TextMate.Proofs.Document.Resolution

/-!
# Giving a rule a name

A rule that a document writes out in a list may be registered later. Its body then moves to the end of the
repository, and a reference stands wherever the body stood, in captured text too. Nothing else changes:
`compile_register` says that the new grammar has a document, and that putting the body back for each
reference and dropping the new field gives the old document.

The new document exists because no body is placed more often than before. Registering takes the body of the
rule, with all the bodies inside it, out of the lists once for each place of the rule; `Accounts` keeps the
books.
-/

namespace TextMate.Document

open Json

/-! ## Rules in lists -/

/-- The rules in the lists of a grammar, those for captured text left aside: the top level, the lists
inside entries, and the lists inside these rules. -/
inductive Listed (g : Grammar) : Rule → Prop
  | topLevel {rule} : rule ∈ g.topLevel → Listed g rule
  | entry {entry rule} : entry ∈ g.repository.entries → rule ∈ entry.rule.inner → Listed g rule
  | inner {outer rule} : Listed g outer → rule ∈ outer.inner → Listed g rule

theorem Listed.occurs {g : Grammar} {rule : Rule} (h : Listed g rule) : Occurs g rule := by
  induction h with
  | topLevel hrule => exact .topLevel hrule
  | entry hentry hrule => exact .inner (.entry hentry) hrule
  | inner _ hrule ih => exact ih.inner hrule

/-- An element without a name is placed in its list, and so is everything inside it. -/
theorem placed_subset_placedIn {registered : Rule → Bool} {rule : Rule} {rules : List Rule}
    (hrule : rule ∈ rules) (hplaced : (registered rule || rule.isReference) = false) :
    rule.id :: placedUnder registered rule ⊆ placedIn registered rules := by
  intro id hid
  rw [placedIn_eq_flatMap, List.mem_flatMap]
  refine ⟨rule, hrule, ?_⟩
  rwa [hplaced, if_neg Bool.false_ne_true]

/-- Whatever stands in the lists inside an entry is placed. -/
theorem placedUnder_entry_subset {g : Grammar} {entry : Entry} (h : entry ∈ g.repository.entries) :
    placedUnder (isRegistered g.repository.entries.toList) entry.rule ⊆ placements g := by
  intro id hid
  apply List.mem_append_right
  exact List.mem_flatMap.mpr ⟨entry, Array.mem_toList_iff.mpr h, hid⟩

section

variable {g : Grammar} (hid : Consistent g)

include hid

/-- A registered rule that occurs is the rule of an entry. -/
theorem exists_entry_of_isRegistered {rule : Rule} (hoccurs : Occurs g rule)
    (h : isRegistered g.repository.entries.toList rule = true) :
    ∃ entry ∈ g.repository.entries, entry.rule = rule := by
  obtain ⟨entry, hentry, heq⟩ := List.any_eq_true.mp h
  have hmem := Array.mem_toList_iff.mp hentry
  exact ⟨entry, hmem, hid _ _ (.entry hmem) hoccurs (by simpa using heq)⟩

/-- A rule in a list is written out, in the list or as an entry. -/
theorem Listed.expanded {rule : Rule} (h : Listed g rule) : Expanded g rule := by
  have helement : ∀ {rule : Rule}, Occurs g rule →
      (isRegistered g.repository.entries.toList rule = false → Expanded g rule) → Expanded g rule := by
    intro rule hoccurs helement
    cases hregistered : isRegistered g.repository.entries.toList rule with
    | true =>
      obtain ⟨entry, hentry, rfl⟩ := exists_entry_of_isRegistered hid hoccurs hregistered
      exact .entry hentry
    | false => exact helement hregistered
  induction h with
  | topLevel hrule => exact helement (.topLevel hrule) (.topLevel hrule)
  | entry hentry hrule => exact helement (.inner (.entry hentry) hrule) (.inner (.entry hentry) hrule)
  | inner houter hrule ih => exact helement (houter.occurs.inner hrule) (.inner ih hrule)

/-- A rule in a list stands in a list whose placements are among those of the grammar. -/
theorem Listed.exists_list {rule : Rule} (h : Listed g rule) :
    ∃ rules, rule ∈ rules ∧ placedIn (isRegistered g.repository.entries.toList) rules ⊆ placements g := by
  induction h with
  | topLevel hrule => exact ⟨g.topLevel, hrule, List.subset_append_left _ _⟩
  | @entry entry rule hentry hrule =>
    refine ⟨entry.rule.inner, hrule, ?_⟩
    rw [← placedUnder_eq]
    exact placedUnder_entry_subset hentry
  | @inner outer rule houter hrule ih =>
    refine ⟨outer.inner, hrule, ?_⟩
    rw [← placedUnder_eq]
    cases hregistered : isRegistered g.repository.entries.toList outer with
    | true =>
      obtain ⟨entry, hentry, rfl⟩ := exists_entry_of_isRegistered hid houter.occurs hregistered
      exact placedUnder_entry_subset hentry
    | false =>
      -- the outer rule has no name, so its body is placed in its own list
      obtain ⟨rules, hmem, hlist⟩ := ih
      cases outer with
      | reference id name => cases hrule
      | body id scope trigger inner =>
        have hplaced := placed_subset_placedIn hmem (Bool.or_eq_false_iff.mpr ⟨hregistered, rfl⟩)
        exact List.Subset.trans (List.subset_cons_self _ _) (List.Subset.trans hplaced hlist)

/-- A rule in a list that has a body and no name is placed. -/
theorem Listed.mem_placements {rule : Rule} (h : Listed g rule)
    (hregistered : isRegistered g.repository.entries.toList rule = false)
    (hbody : rule.isReference = false) : rule.id ∈ placements g := by
  obtain ⟨rules, hrule, hlist⟩ := h.exists_list hid
  have hplaced := placed_subset_placedIn hrule (Bool.or_eq_false_iff.mpr ⟨hregistered, hbody⟩)
  exact hlist (hplaced List.mem_cons_self)

end

/-! ## The placements that registering takes away -/

/-- The list `before` is `after` with the list `bodies` added once for each `id` in `before`, up to the
order. -/
def Accounts (id : RuleId) (bodies before after : List RuleId) : Prop :=
  ∀ k, before.count k = after.count k + before.count id * bodies.count k

section

variable {id : RuleId} {bodies : List RuleId}

theorem Accounts.nil : Accounts id bodies [] [] := by
  intro k
  simp

theorem Accounts.append {before before' after after' : List RuleId}
    (h : Accounts id bodies before after) (h' : Accounts id bodies before' after') :
    Accounts id bodies (before ++ before') (after ++ after') := by
  intro k
  rw [List.count_append, List.count_append, List.count_append, h k, h' k, Nat.add_mul]
  omega

theorem Accounts.flatMap {α : Type} {f f' : α → List RuleId} {xs : List α}
    (h : ∀ x ∈ xs, Accounts id bodies (f x) (f' x)) :
    Accounts id bodies (xs.flatMap f) (xs.flatMap f') := by
  induction xs with
  | nil => exact .nil
  | cons x xs ih =>
    rw [List.flatMap_cons, List.flatMap_cons]
    exact (h x List.mem_cons_self).append (ih fun y hy => h y (List.mem_cons_of_mem x hy))

/-- A number other than `id` counts the same on both sides. -/
theorem Accounts.cons {before after : List RuleId} (h : Accounts id bodies before after) {k : RuleId}
    (hk : k ≠ id) : Accounts id bodies (k :: before) (k :: after) := by
  intro k'
  rw [List.count_cons, List.count_cons, List.count_cons_of_ne hk, h k']
  omega

/-- The number `id` itself takes the whole list with it. -/
theorem Accounts.self {bodies : List RuleId} (h : id ∉ bodies) :
    Accounts id (id :: bodies) (id :: bodies) [] := by
  intro k
  rw [List.count_cons_self, List.count_eq_zero_of_not_mem h]
  simp

end

section

variable {g : Grammar} (hid : Consistent g) {rule : Rule} (hrule : Occurs g rule)

include hid hrule

/-- A rule is not placed inside itself, nor inside anything that is no larger. -/
theorem id_not_mem_placedUnder (registered : Rule → Bool) {outer : Rule} (houter : Occurs g outer)
    (hsize : sizeOf outer ≤ sizeOf rule) : rule.id ∉ placedUnder registered outer := by
  induction outer using induction_on_parts with
  | step outer ihinner _ =>
    rw [placedUnder_eq, placedIn_eq_flatMap]
    intro hmem
    obtain ⟨part, hpart, hmem⟩ := List.mem_flatMap.mp hmem
    have hsmaller := sizeOf_lt_of_mem_inner hpart
    have hoccurs := houter.inner hpart
    split at hmem
    · cases hmem
    · rcases List.mem_cons.mp hmem with heq | hmem
      · exact hid.id_ne hoccurs hrule (by omega) heq.symm
      · exact ihinner part hpart hoccurs (by omega) hmem

/-- Inside a rule, and inside anything that is no larger, a name for the rule changes nothing. -/
theorem bodyTree_of_sizeOf_le {names names' : Rule → Option String}
    (hsame : ∀ other, other.id ≠ rule.id → names' other = names other) {outer : Rule}
    (houter : Occurs g outer) (hsize : sizeOf outer ≤ sizeOf rule) :
    bodyTree names' outer = bodyTree names outer := by
  induction outer using induction_on_parts with
  | step outer ihinner ihcapture =>
    cases outer with
    | reference id other => rfl
    | body id scope trigger inner =>
      rw [bodyTree_body, bodyTree_body]
      congr 1
      apply bodyFields_congr id
      · intro part hpart
        have hsmaller := sizeOf_lt_of_mem_captureRules hpart
        exact ihcapture part hpart (houter.capture hpart) (by omega)
      · intro part hpart
        have hsmaller : sizeOf part < sizeOf (Rule.body id scope trigger inner) :=
          sizeOf_lt_of_mem_inner hpart
        have hoccurs : Occurs g part := houter.inner hpart
        rw [elementTree, elementTree, hsame part (hid.id_ne hoccurs hrule (by omega)),
          ihinner part hpart hoccurs (by omega)]

variable {registered registered' : Rule → Bool}
  (hregistered : ∀ other, registered' other = (registered other || decide (other.id = rule.id)))

include hregistered

/-- One element of a list, before and after. -/
theorem accounts_element {part : Rule} (hpart : Occurs g part)
    (hunder : Accounts rule.id (rule.id :: placedUnder registered rule) (placedUnder registered part)
      (placedUnder registered' part)) :
    Accounts rule.id (rule.id :: placedUnder registered rule)
      (if registered part || part.isReference then [] else part.id :: placedUnder registered part)
      (if registered' part || part.isReference then [] else part.id :: placedUnder registered' part) := by
  by_cases hsame : part.id = rule.id
  · have heq := hid part rule hpart hrule hsame
    subst heq
    rw [hregistered part]
    simp only [decide_true, Bool.or_true, Bool.true_or, if_true]
    split
    · exact .nil
    · exact .self (id_not_mem_placedUnder hid hpart registered hpart (Nat.le_refl _))
  · rw [hregistered part]
    simp only [hsame, decide_false, Bool.or_false]
    split
    · exact .nil
    · exact hunder.cons hsame

/-- A list of rules, before and after. -/
theorem accounts_placedIn {rules : List Rule} (hrules : ∀ part ∈ rules, Occurs g part)
    (hunder : ∀ part ∈ rules, Accounts rule.id (rule.id :: placedUnder registered rule)
      (placedUnder registered part) (placedUnder registered' part)) :
    Accounts rule.id (rule.id :: placedUnder registered rule) (placedIn registered rules)
      (placedIn registered' rules) := by
  rw [placedIn_eq_flatMap registered, placedIn_eq_flatMap registered']
  apply Accounts.flatMap
  intro part hpart
  exact accounts_element hid hrule hregistered (hrules part hpart) (hunder part hpart)

/-- Inside a rule, registering takes the bodies of the registered rule away. -/
theorem accounts_placedUnder {outer : Rule} (houter : Occurs g outer) :
    Accounts rule.id (rule.id :: placedUnder registered rule) (placedUnder registered outer)
      (placedUnder registered' outer) := by
  induction outer using induction_on_parts with
  | step outer ihinner _ =>
    have hinner : ∀ part ∈ outer.inner, Occurs g part := fun _ hpart => houter.inner hpart
    rw [placedUnder_eq registered outer, placedUnder_eq registered' outer]
    apply accounts_placedIn hid hrule hregistered hinner
    intro part hpart
    exact ihinner part hpart (hinner part hpart)

end

/-! ## Registering a rule -/

/-- The grammar with one more entry. -/
def withEntry (g : Grammar) (name : String) (rule : Rule) : Grammar :=
  { g with repository := g.repository.insert name rule }

theorem entries_withEntry (g : Grammar) (name : String) (rule : Rule) :
    (withEntry g name rule).repository.entries.toList = g.repository.entries.toList ++ [⟨name, rule⟩] := by
  simp [withEntry, Repository.insert]

theorem isRegistered_withEntry (g : Grammar) (name : String) (rule other : Rule) :
    isRegistered (withEntry g name rule).repository.entries.toList other =
      (isRegistered g.repository.entries.toList other || decide (other.id = rule.id)) := by
  rw [entries_withEntry, isRegistered, isRegistered, List.any_append]
  simp [eq_comm]

theorem placements_withEntry (g : Grammar) (name : String) (rule : Rule) :
    placements (withEntry g name rule) =
      (placedIn (isRegistered (withEntry g name rule).repository.entries.toList) g.topLevel ++
        g.repository.entries.toList.flatMap fun entry =>
          placedUnder (isRegistered (withEntry g name rule).repository.entries.toList) entry.rule) ++
      placedUnder (isRegistered (withEntry g name rule).repository.entries.toList) rule := by
  simp only [placements]
  generalize isRegistered (withEntry g name rule).repository.entries.toList = registered
  rw [entries_withEntry, List.flatMap_append, List.flatMap_singleton, List.append_assoc]
  rfl

/-- What has to hold before a rule in a list can be registered under a name. -/
structure Registrable (g : Grammar) (name : String) (rule : Rule) : Prop where
  reachable : g.repository.Reachable
  consistent : Consistent g
  listed : Listed g rule
  unnamed : g.repository.nameOf? rule = none
  body : rule.isReference = false
  name_ne_empty : name ≠ ""
  free : g.repository.contains name = false

namespace Registrable

variable {g : Grammar} {name : String} {rule : Rule} (h : Registrable g name rule)

include h

theorem refusal?_eq_none : g.repository.refusal? name rule = none := by
  exact Repository.refusal?_eq_none_iff.mpr ⟨h.name_ne_empty, h.free, h.unnamed, h.body⟩

theorem register_eq : g.register name rule = .ok (withEntry g name rule) := by
  rw [Grammar.register, Repository.register, h.refusal?_eq_none]
  rfl

theorem reachable_withEntry : (withEntry g name rule).repository.Reachable := by
  have hregister : g.repository.register name rule = .ok (g.repository.insert name rule) := by
    rw [Repository.register, h.refusal?_eq_none]
  exact .register h.reachable hregister

theorem nameOf?_withEntry (other : Rule) :
    (withEntry g name rule).repository.nameOf? other =
      if other.id = rule.id then some name else g.repository.nameOf? other :=
  h.reachable.coherent.nameOf?_insert h.refusal?_eq_none other

theorem entry_name_ne {entry : Entry} (hentry : entry ∈ g.repository.entries) : entry.name ≠ name := by
  intro hname
  have hcontains := (h.reachable.contains_iff name).mpr ⟨entry, hentry, hname⟩
  rw [h.free] at hcontains
  cases hcontains

/-- The new grammar writes out no rule that the old one does not. -/
theorem expanded_of_withEntry {other : Rule} (hother : Expanded (withEntry g name rule) other) :
    Expanded g other := by
  have hunregistered : ∀ {rule' : Rule},
      isRegistered (withEntry g name rule).repository.entries.toList rule' = false →
      isRegistered g.repository.entries.toList rule' = false := by
    intro rule' hfalse
    rw [isRegistered_withEntry, Bool.or_eq_false_iff] at hfalse
    exact hfalse.1
  induction hother with
  | topLevel hmem hfalse => exact .topLevel hmem (hunregistered hfalse)
  | entry hentry =>
    rcases Array.mem_push.mp hentry with hold | rfl
    · exact .entry hold
    · exact h.listed.expanded h.consistent
  | inner _ hmem hfalse ih => exact .inner ih hmem (hunregistered hfalse)
  | capture _ hmem ih => exact .capture ih hmem

/-- No body is placed more often than before. -/
theorem nodup_placements (hnodup : (placements g).Nodup) :
    (placements (withEntry g name rule)).Nodup := by
  have hoccurs := h.listed.occurs
  have hregistered := isRegistered_withEntry g name rule
  have hunder := fun {outer : Rule} (houter : Occurs g outer) =>
    accounts_placedUnder h.consistent hoccurs hregistered houter
  -- the lists of the old grammar, before and after
  have hlists : Accounts rule.id (rule.id :: placedUnder (isRegistered g.repository.entries.toList) rule)
      (placements g)
      (placedIn (isRegistered (withEntry g name rule).repository.entries.toList) g.topLevel ++
        g.repository.entries.toList.flatMap fun entry =>
          placedUnder (isRegistered (withEntry g name rule).repository.entries.toList) entry.rule) := by
    apply Accounts.append
    · apply accounts_placedIn h.consistent hoccurs hregistered (fun _ hpart => .topLevel hpart)
      intro part hpart
      exact hunder (.topLevel hpart)
    · apply Accounts.flatMap
      intro entry hentry
      exact hunder (.entry (Array.mem_toList_iff.mp hentry))
  -- the bodies inside the rule are now placed in its entry
  have hself := hunder hoccurs
  have hnever := id_not_mem_placedUnder h.consistent hoccurs (isRegistered g.repository.entries.toList)
    hoccurs (Nat.le_refl _)
  have hunregistered := isRegistered_of_nameOf?_none h.reachable h.unnamed
  have honce : (placements g).count rule.id = 1 :=
    List.count_eq_one_of_mem hnodup (h.listed.mem_placements h.consistent hunregistered h.body)
  rw [List.nodup_iff_count_le_one] at hnodup ⊢
  intro k
  have hk := hnodup k
  have hlistsk := hlists k
  have hselfk := hself k
  rw [honce, Nat.one_mul, List.count_cons] at hlistsk
  rw [List.count_eq_zero_of_not_mem hnever, Nat.zero_mul, Nat.add_zero] at hselfk
  rw [placements_withEntry, List.count_append]
  omega

/-- The new grammar has a document. -/
theorem exists_compile {d : Document} (hd : g.compile = .ok d) :
    ∃ d', (withEntry g name rule).compile = .ok d' := by
  obtain ⟨hnodup, hreferred⟩ :=
    (clear_occurrences_iff g).mp ((exists_compile_iff_clear h.reachable).mp ⟨d, hd⟩)
  apply (exists_compile_iff_clear h.reachable_withEntry).mpr
  apply (clear_occurrences_iff _).mpr
  refine ⟨h.nodup_placements hnodup, ?_⟩
  intro id other hexpanded
  obtain ⟨entry, hentry, hname⟩ := hreferred id other (h.expanded_of_withEntry hexpanded)
  exact ⟨entry, Array.mem_push.mpr (Or.inl hentry), hname⟩

/-! ## The two documents -/

/-- The body of the rule is the same in both documents. -/
theorem bodyTree_self : bodyTree (withEntry g name rule).repository.nameOf? rule =
    bodyTree g.repository.nameOf? rule := by
  have hoccurs := h.listed.occurs
  apply bodyTree_of_sizeOf_le h.consistent hoccurs _ hoccurs (Nat.le_refl _)
  intro other hother
  rw [h.nameOf?_withEntry, if_neg hother]

/-- An element of a list, with the body put back. -/
theorem resolve_elementTree {part : Rule} (hpart : Occurs g part)
    (hbody : g.repository.nameOf? part = none →
      Value.resolve name (bodyTree g.repository.nameOf? rule)
        (bodyTree (withEntry g name rule).repository.nameOf? part) =
      bodyTree g.repository.nameOf? part) :
    Value.resolve name (bodyTree g.repository.nameOf? rule)
        (elementTree (withEntry g name rule).repository.nameOf? part) =
      elementTree g.repository.nameOf? part := by
  rw [elementTree, elementTree, h.nameOf?_withEntry]
  by_cases hsame : part.id = rule.id
  · have heq := h.consistent part rule hpart h.listed.occurs hsame
    subst heq
    rw [if_pos rfl, h.unnamed]
    exact resolve_reference
  · rw [if_neg hsame]
    cases hother : g.repository.nameOf? part with
    | none => exact hbody hother
    | some other =>
      obtain ⟨entry, hentry, -, rfl⟩ :=
        (h.reachable.coherent.nameOf?_eq_some_iff part other).mp hother
      exact resolve_reference_of_ne (h.entry_name_ne hentry)

section

variable (hreferred : ∀ id name, Expanded g (.reference id name) →
  ∃ entry ∈ g.repository.entries, entry.name = name)

include hreferred

/-- The body of a rule that the document writes out, with the body of the registered rule put back. -/
theorem resolve_bodyTree {outer : Rule} (houter : Expanded g outer) :
    Value.resolve name (bodyTree g.repository.nameOf? rule)
        (bodyTree (withEntry g name rule).repository.nameOf? outer) =
      bodyTree g.repository.nameOf? outer := by
  induction outer using induction_on_parts with
  | step outer ihinner ihcapture =>
    cases outer with
    | reference id other =>
      -- the name of the new entry is not referred to
      obtain ⟨entry, hentry, rfl⟩ := hreferred id other houter
      exact resolve_reference_of_ne (h.entry_name_ne hentry)
    | body id scope trigger inner =>
      rw [bodyTree_body, bodyTree_body, resolve_bodyFields (exists_bodyTree_eq_object _)]
      congr 1
      apply bodyFields_congr id
      · intro part hpart
        exact ihcapture part hpart (houter.capture hpart)
      · intro part hpart
        apply h.resolve_elementTree (houter.occurs.inner hpart)
        intro hnone
        exact ihinner part hpart
          (houter.inner hpart (isRegistered_of_nameOf?_none h.reachable hnone))

/-- The fields of some entries, with the body put back. -/
theorem resolve_entryFields {entries : List Entry}
    (hentries : ∀ entry ∈ entries, Expanded g entry.rule) :
    Value.resolve name (bodyTree g.repository.nameOf? rule)
        (.object (entryFields (withEntry g name rule).repository.nameOf? entries)) =
      .object (entryFields g.repository.nameOf? entries) := by
  rw [Value.resolve_object]
  · congr 1
    induction entries with
    | nil => rfl
    | cons entry entries ih =>
      have hentry := h.resolve_bodyTree hreferred (hentries entry List.mem_cons_self)
      have hrest := ih fun other hother => hentries other (List.mem_cons_of_mem entry hother)
      rw [entryFields, List.map_cons, Value.resolveFields, hentry]
      exact congrArg _ hrest
  · -- the value of an entry is an object
    intro hmem
    obtain ⟨entry, -, heq⟩ := List.mem_map.mp hmem
    obtain ⟨fields, hfields⟩ :=
      exists_bodyTree_eq_object (withEntry g name rule).repository.nameOf? entry.rule
    rw [hfields, Prod.mk.injEq] at heq
    cases heq.2

/-- The new document with the body put back is the old one with one more entry. -/
theorem resolve_documentTree :
    Value.resolve name (bodyTree g.repository.nameOf? rule)
        (documentTree (withEntry g name rule).repository.nameOf? (withEntry g name rule)) =
      documentTree g.repository.nameOf? (withEntry g name rule) := by
  have hpatterns : Value.resolve name (bodyTree g.repository.nameOf? rule)
      (.array (elementTrees (withEntry g name rule).repository.nameOf? g.topLevel)) =
      .array (elementTrees g.repository.nameOf? g.topLevel) := by
    rw [Value.resolve, Value.resolveElements_eq_map, elementTrees_eq_map, elementTrees_eq_map,
      List.map_map]
    congr 1
    apply List.map_congr_left
    intro part hpart
    apply h.resolve_elementTree (.topLevel hpart)
    intro hnone
    exact h.resolve_bodyTree hreferred
      (.topLevel hpart (isRegistered_of_nameOf?_none h.reachable hnone))
  have hentries : ∀ entry ∈ (withEntry g name rule).repository.entries.toList, Expanded g entry.rule := by
    intro entry hentry
    exact h.expanded_of_withEntry (.entry (Array.mem_toList_iff.mp hentry))
  have hrepository := h.resolve_entryFields hreferred hentries
  rw [documentTree, Value.resolve_object (by simp), Value.resolveFields, Value.resolveFields,
    Value.resolveFields, Value.resolveFields, Value.resolveFields, hrepository]
  show Value.object [_, _, ("patterns", Value.resolve _ _ (.array (elementTrees _ g.topLevel))), _] = _
  rw [hpatterns]
  rfl

/-- The body of the rule does not refer to the new entry. -/
theorem not_holds_reference : ¬ (bodyTree g.repository.nameOf? rule).Holds (referenceTree name) := by
  intro hholds
  have hnames : ∀ id other, Expanded g (.reference id other) → other ∈ entryNames g := by
    intro id other hexpanded
    exact mem_entryNames.mpr (hreferred id other hexpanded)
  have hexpanded := h.listed.expanded h.consistent
  have hrefers := everywhere_refers_bodyTree h.reachable hnames rule hexpanded _ hholds
  obtain ⟨-, other, hother, htext⟩ := hrefers _ _ rfl List.mem_cons_self
  obtain ⟨entry, hentry, rfl⟩ := mem_entryNames.mp hother
  exact h.entry_name_ne hentry (by simpa using htext.symm)

end

/-- The new name leads to the body of the rule. -/
theorem lookup_entryFields (names : Rule → Option String) :
    (entryFields names (withEntry g name rule).repository.entries.toList).lookup name =
      some (bodyTree names rule) := by
  have hnone : (entryFields names g.repository.entries.toList).lookup name = none := by
    rw [List.lookup_eq_none_iff]
    intro field hfield
    obtain ⟨entry, hentry, rfl⟩ := List.mem_map.mp hfield
    exact bne_iff_ne.mpr (h.entry_name_ne (Array.mem_toList_iff.mp hentry)).symm
  rw [entryFields] at hnone
  rw [entries_withEntry, entryFields, List.map_append, List.lookup_append, hnone, Option.none_or,
    List.map_singleton, List.lookup_cons_self]

/-- Dropping the field of the new entry leaves the fields of the old ones. -/
theorem dropField_entryFields (names : Rule → Option String) :
    Value.dropField name (.object (entryFields names (withEntry g name rule).repository.entries.toList)) =
      .object (entryFields names g.repository.entries.toList) := by
  rw [Value.dropField, entries_withEntry, entryFields, List.map_append, List.filter_append]
  have hold : ∀ field ∈ entryFields names g.repository.entries.toList, decide (field.1 ≠ name) = true := by
    intro field hfield
    obtain ⟨entry, hentry, rfl⟩ := List.mem_map.mp hfield
    exact decide_eq_true (h.entry_name_ne (Array.mem_toList_iff.mp hentry))
  have hkept := List.filter_eq_self.mpr hold
  rw [entryFields] at hkept
  rw [hkept]
  simp [entryFields]

end Registrable

/-! ## Both documents -/

/-- A document and the document after a body has moved to the field `name` at the end of the repository. -/
structure MovesTo (name : String) (document document' repository repository' body : Value) : Prop where
  field_eq : document.field? "repository" = some repository
  field'_eq : document'.field? "repository" = some repository'
  /-- The repository has one more field, at its end. -/
  keys_eq : repository'.keys = repository.keys ++ [name]
  body_eq : repository'.field? name = some body
  /-- The body does not refer to itself. -/
  not_holds : ¬ body.Holds (referenceTree name)
  /-- Putting the body back for each reference to it and dropping its field gives the first document. -/
  resolve_eq :
    (Value.resolve name body document').modifyField "repository" (Value.dropField name) = document

/-- Giving a name to a rule in a list is transparent: if the grammar has a document, a rule that has a body
and no name can be registered under any name that is free, the new grammar has a document, and between the
two documents nothing but the place of the body changes. Rules are told apart by identity, so the grammar
must not use one identity for two rules. -/
theorem compile_register (g : Grammar) (hg : g.repository.Reachable) (hid : Consistent g) (d : Document)
    (hd : g.compile = .ok d) (rule : Rule) (hlisted : Listed g rule)
    (hunnamed : g.repository.nameOf? rule = none) (hbody : rule.isReference = false) (name : String)
    (hname : name ≠ "") (hfree : g.repository.contains name = false) :
    ∃ g' d' document document' repository repository' body,
      g.register name rule = .ok g' ∧ g'.compile = .ok d' ∧
      parse d.text = some document ∧ parse d'.text = some document' ∧
      MovesTo name document document' repository repository' body := by
  have h : Registrable g name rule := ⟨hg, hid, hlisted, hunnamed, hbody, hname, hfree⟩
  obtain ⟨d', hd'⟩ := h.exists_compile hd
  obtain ⟨-, hreferred⟩ := (clear_occurrences_iff g).mp ((exists_compile_iff_clear hg).mp ⟨d, hd⟩)
  refine ⟨withEntry g name rule, d', _, _, _, _, bodyTree g.repository.nameOf? rule, h.register_eq, hd',
    parse_text hg hd, parse_text h.reachable_withEntry hd',
    { field_eq := rfl, field'_eq := rfl, keys_eq := ?_, body_eq := ?_, not_holds := ?_,
      resolve_eq := ?_ }⟩
  · rw [entries_withEntry]
    simp [Value.keys, Value.fields, entryFields]
  · rw [← h.bodyTree_self]
    exact h.lookup_entryFields _
  · exact h.not_holds_reference hreferred
  · rw [h.resolve_documentTree hreferred, documentTree, Value.modifyField]
    have hdrop := h.dropField_entryFields g.repository.nameOf?
    simp only [List.map_cons, List.map_nil, String.reduceEq, if_false, if_true, hdrop]
    rfl

/-- A rule for single words. -/
def wordRule : Rule :=
  .body 1 (some "word") (.matching (.literal "w")) []

/-- A rule that applies the rule for words to captured text. -/
def labelRule : Rule :=
  .body 2 none .always [wordRule]

/-- A rule that has the rule for words inside it and once more inside its captured text. -/
def markedRule : Rule :=
  .body 3 none (.matching (.capture (.literal "x") labelRule)) [wordRule]

/-- A rule that refers to itself. -/
def nestedRule : Rule :=
  .body 4 none .always [.reference 5 "nested"]

def markedGrammar : Grammar where
  name := "Marked"
  scopeName := "source.marked"
  topLevel := [markedRule, nestedRule]
  repository := Repository.insert {} "nested" nestedRule

theorem reachable_markedGrammar : markedGrammar.repository.Reachable :=
  .register .empty
    (show Repository.register {} "nested" nestedRule = .ok markedGrammar.repository from rfl)

theorem consistent_markedGrammar : Consistent markedGrammar := by
  apply consistent_of_closed [wordRule, labelRule, markedRule, nestedRule, .reference 5 "nested"]
  · decide
  · simp [markedGrammar]
  · simp [markedGrammar, Repository.insert]
  · simp [wordRule, labelRule, markedRule, nestedRule, Rule.inner]
  · simp [wordRule, labelRule, markedRule, nestedRule, captureRules, triggerPatterns, Pattern.captures]

theorem compile_register_markedGrammar :
    ∃ d g' d' document document' repository repository' body,
      markedGrammar.compile = .ok d ∧ markedGrammar.register "word" wordRule = .ok g' ∧
      g'.compile = .ok d' ∧ parse d.text = some document ∧ parse d'.text = some document' ∧
      MovesTo "word" document document' repository repository' body := by
  have hlisted : Listed markedGrammar wordRule := by
    have houter : Listed markedGrammar markedRule := .topLevel List.mem_cons_self
    exact houter.inner List.mem_cons_self
  have hok : markedGrammar.compile.isOk := by decide +kernel
  cases hd : markedGrammar.compile with
  | error failure =>
    rw [hd] at hok
    cases hok
  | ok d =>
    have hmoves := compile_register markedGrammar reachable_markedGrammar consistent_markedGrammar d hd
      wordRule hlisted (by decide +kernel) rfl "word" (by decide) (by decide +kernel)
    obtain ⟨g', d', document, document', repository, repository', body, h⟩ := hmoves
    exact ⟨d, g', d', document, document', repository, repository', body, rfl, h⟩

end TextMate.Document
