import TextMate.Proofs.Repository.Runs

/-!
# Other rules under the same names

`Repository.mapRules` puts another rule in the place of each rule of a repository, and leaves the names,
their order and the counter as they are. If rules of different entries stay apart and no rule turns into a
reference, the new repository is again one that registration builds, `Reachable.mapRules`.
-/

namespace TextMate.Repository

variable {h : Rule → Rule} {r : Repository}

/-- The repository with another rule in the place of each rule. -/
def mapRules (h : Rule → Rule) (r : Repository) : Repository :=
  r.entries.toList.foldl (fun mapped entry => mapped.insert entry.name (h entry.rule))
    { nextName := r.nextName }

/-- The entry with another rule. -/
def mapEntry (h : Rule → Rule) (entry : Entry) : Entry :=
  ⟨entry.name, h entry.rule⟩

/-! ## Entries and counter -/

theorem mapRules_insert (name : String) (rule : Rule) :
    (r.insert name rule).mapRules h = (r.mapRules h).insert name (h rule) := by
  rw [mapRules, insert, Array.toList_push, List.foldl_append]
  rfl

theorem foldl_insert_advance (entries : List Entry) (start : Repository) (n : Nat) :
    entries.foldl (fun mapped entry => mapped.insert entry.name (h entry.rule))
        { start with nextName := n } =
      { entries.foldl (fun mapped entry => mapped.insert entry.name (h entry.rule)) start with
        nextName := n } := by
  induction entries generalizing start with
  | nil => rfl
  | cons entry entries ih => exact ih (start.insert entry.name (h entry.rule))

theorem mapRules_advance (n : Nat) :
    ({ r with nextName := n } : Repository).mapRules h = { r.mapRules h with nextName := n } :=
  foldl_insert_advance r.entries.toList { nextName := r.nextName } n

theorem entries_foldl_insert (entries : List Entry) (start : Repository) :
    (entries.foldl (fun mapped entry => mapped.insert entry.name (h entry.rule)) start).entries.toList =
      start.entries.toList ++ entries.map (mapEntry h) := by
  induction entries generalizing start with
  | nil => simp
  | cons entry entries ih =>
    rw [List.foldl_cons, ih, List.map_cons, insert, Array.toList_push, List.append_assoc]
    rfl

theorem entries_mapRules : (r.mapRules h).entries.toList = r.entries.toList.map (mapEntry h) := by
  rw [mapRules, entries_foldl_insert]
  rfl

theorem size_mapRules : (r.mapRules h).size = r.size := by
  have hlength := congrArg List.length (entries_mapRules (h := h) (r := r))
  rwa [List.length_map, Array.length_toList, Array.length_toList] at hlength

theorem nextName_mapRules : (r.mapRules h).nextName = r.nextName := by
  have hself : r.mapRules h = { r.mapRules h with nextName := r.nextName } := mapRules_advance r.nextName
  exact congrArg (·.nextName) hself

/-- The new repository depends on the new entries and the counter only. -/
theorem mapRules_congr {h' : Rule → Rule} {r' : Repository}
    (hentries : r.entries.toList.map (mapEntry h) = r'.entries.toList.map (mapEntry h'))
    (hcounter : r.nextName = r'.nextName) : r.mapRules h = r'.mapRules h' := by
  have hfold : ∀ (h : Rule → Rule) (r : Repository), r.mapRules h =
      (r.entries.toList.map (mapEntry h)).foldl (fun mapped entry => mapped.insert entry.name entry.rule)
        { nextName := r.nextName } := by
    intro h r
    rw [List.foldl_map]
    rfl
  rw [hfold, hfold, hentries, hcounter]

theorem mem_entries_mapRules {entry : Entry} :
    entry ∈ (r.mapRules h).entries ↔ ∃ old ∈ r.entries, mapEntry h old = entry := by
  rw [← Array.mem_toList_iff, entries_mapRules, List.mem_map]
  simp only [Array.mem_toList_iff]

/-! ## Lookups -/

section

variable (hr : r.Reachable) (hmapped : (r.mapRules h).Reachable)

include hr hmapped

theorem contains_mapRules (name : String) : (r.mapRules h).contains name = r.contains name := by
  rw [Bool.eq_iff_iff, hr.contains_iff, hmapped.contains_iff]
  constructor
  · rintro ⟨entry, hentry, rfl⟩
    obtain ⟨old, hold, rfl⟩ := mem_entries_mapRules.mp hentry
    exact ⟨old, hold, rfl⟩
  · rintro ⟨entry, hentry, rfl⟩
    exact ⟨mapEntry h entry, mem_entries_mapRules.mpr ⟨entry, hentry, rfl⟩, rfl⟩

/-- A rule is found if it agrees with the new rules where an older one agreed with the older rules. -/
theorem nameOf?_mapRules (rule rule' : Rule)
    (hid : ∀ entry ∈ r.entries, (h entry.rule).id = rule'.id ↔ entry.rule.id = rule.id) :
    (r.mapRules h).nameOf? rule' = r.nameOf? rule := by
  ext name
  rw [hr.coherent.nameOf?_eq_some_iff, hmapped.coherent.nameOf?_eq_some_iff]
  constructor
  · rintro ⟨entry, hentry, hrule, rfl⟩
    obtain ⟨old, hold, rfl⟩ := mem_entries_mapRules.mp hentry
    exact ⟨old, hold, (hid old hold).mp hrule, rfl⟩
  · rintro ⟨entry, hentry, hrule, rfl⟩
    exact ⟨mapEntry h entry, mem_entries_mapRules.mpr ⟨entry, hentry, rfl⟩, (hid entry hentry).mpr hrule,
      rfl⟩

theorem firstFree_mapRules (draws counter : Nat) :
    (r.mapRules h).firstFree draws counter = r.firstFree draws counter := by
  induction draws generalizing counter with
  | zero => rfl
  | succ draws ih => simp only [firstFree, contains_mapRules hr hmapped, ih]

end

/-! ## Registration -/

/-- The counter can be moved past a free name without an entry: a reference is always refused. -/
theorem Reachable.advance (hr : r.Reachable) {n : Nat}
    (hn : r.firstFree (r.size + 1) r.nextName = some n) :
    Reachable { r with nextName := n + 1 } := by
  have hrefused := hr.registerFresh (.reference 0 "")
  rw [Repository.registerFresh, hn] at hrefused
  simp only at hrefused
  split at hrefused
  · exact hrefused
  · next hfree => cases (refusal?_eq_none_iff.mp hfree).2.2.2

/-- No rule becomes a reference, and rules of different entries stay apart. -/
structure Separating (h : Rule → Rule) (r : Repository) : Prop where
  not_reference : ∀ entry ∈ r.entries, (h entry.rule).isReference = false
  id_injective : ∀ entry ∈ r.entries, ∀ entry' ∈ r.entries,
    (h entry.rule).id = (h entry'.rule).id → entry.rule.id = entry'.rule.id

theorem Separating.of_insert {name : String} {rule : Rule} (hs : Separating h (r.insert name rule)) :
    Separating h r where
  not_reference entry hentry := hs.not_reference entry (Array.mem_push_of_mem _ hentry)
  id_injective entry hentry entry' hentry' :=
    hs.id_injective entry (Array.mem_push_of_mem _ hentry) entry' (Array.mem_push_of_mem _ hentry')

/-- What registration lets through, it lets through among the new rules. -/
theorem Reachable.insert_mapRules (hr : r.Reachable) (hmapped : (r.mapRules h).Reachable) {name : String}
    {rule : Rule} (hs : Separating h (r.insert name rule)) (hfree : r.refusal? name rule = none) :
    ((r.insert name rule).mapRules h).Reachable := by
  rw [mapRules_insert]
  apply hmapped.insert
  obtain ⟨hname, hcontains, hnameOf, -⟩ := refusal?_eq_none_iff.mp hfree
  have hself : ⟨name, rule⟩ ∈ (r.insert name rule).entries := Array.mem_push_self
  refine refusal?_eq_none_iff.mpr ⟨hname, ?_, ?_, hs.not_reference _ hself⟩
  · rw [contains_mapRules hr hmapped, hcontains]
  · rw [nameOf?_mapRules hr hmapped rule, hnameOf]
    intro entry hentry
    refine ⟨hs.id_injective entry (Array.mem_push_of_mem _ hentry) _ hself, ?_⟩
    -- the rule is not registered yet
    intro hid
    obtain ⟨name', hname'⟩ : ∃ name', r.nameOf? rule = some name' :=
      ⟨entry.name, (hr.coherent.nameOf?_eq_some_iff rule entry.name).mpr ⟨entry, hentry, hid, rfl⟩⟩
    rw [hnameOf] at hname'
    cases hname'

/-- Registration builds the repository with the new rules as well. -/
theorem Reachable.mapRules (hr : r.Reachable) (hs : Separating h r) : (r.mapRules h).Reachable := by
  induction hr with
  | empty => exact .empty
  | @register r r' name rule hr hregister ih =>
    rw [Repository.register] at hregister
    split at hregister
    · cases hregister
    · next hfree =>
      cases hregister
      exact hr.insert_mapRules (ih hs.of_insert) hs hfree
  | @registerFresh r rule hr ih =>
    cases hn : r.firstFree (r.size + 1) r.nextName with
    | none =>
      rw [Repository.registerFresh, hn] at hs ⊢
      exact ih hs
    | some n =>
      -- the counter moves first, and the entry follows if nothing speaks against it
      have hadvance : ∀ hs : Separating h r,
          (({ r with nextName := n + 1 } : Repository).mapRules h).Reachable := by
        intro hs
        rw [mapRules_advance]
        apply (ih hs).advance
        rw [firstFree_mapRules hr (ih hs), size_mapRules, nextName_mapRules, hn]
      rw [Repository.registerFresh, hn] at hs ⊢
      simp only at hs ⊢
      split at hs
      · exact hadvance ⟨hs.not_reference, hs.id_injective⟩
      · next hfree =>
        have hold := hs.of_insert
        exact (hr.advance hn).insert_mapRules (hadvance ⟨hold.not_reference, hold.id_injective⟩) hs hfree

end TextMate.Repository
