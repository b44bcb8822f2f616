import TextMate.Repository

/-!
# The indices of a repository

A repository is *reachable* if registration builds it from the empty one. In a reachable repository both
indices say exactly what the entries say: a key leads to a place if and only if the entry at that place has
the key. So looking a rule or a name up agrees with a search through the entries, `Reachable.nameOf?_eq`
and `Reachable.contains_iff`.
-/

namespace TextMate.Repository

/-! ## Reachable repositories -/

/-- The repositories that registration builds, with given names and with generated ones. -/
inductive Reachable : Repository → Prop
  | empty : Reachable {}
  | register {r r' : Repository} {name : String} {rule : Rule} : Reachable r →
      r.register name rule = .ok r' → Reachable r'
  | registerFresh {r : Repository} (rule : Rule) : Reachable r → Reachable (r.registerFresh rule).1

/-- A registration that is not refused adds the entry. -/
theorem Reachable.insert {r : Repository} (h : r.Reachable) {name : String} {rule : Rule}
    (hfree : r.refusal? name rule = none) : (r.insert name rule).Reachable := by
  have hregister : r.register name rule = .ok (r.insert name rule) := by
    rw [Repository.register, hfree]
  exact .register h hregister

/-! ## One index -/

section

variable {κ : Type} [Ord κ]

/-- A key leads to a place if and only if the entry there has the key. -/
def Indexes (index : Std.TreeMap κ Nat) (key : Entry → κ) (entries : Array Entry) : Prop :=
  ∀ k i, index[k]? = some i ↔ ∃ entry, entries[i]? = some entry ∧ key entry = k

theorem indexes_empty [Std.TransOrd κ] (key : Entry → κ) : Indexes ∅ key #[] := by
  intro k i
  simp

/-- A key that leads nowhere may be given to a new entry at the end. -/
theorem Indexes.push [Std.TransOrd κ] [Std.LawfulEqOrd κ] {index : Std.TreeMap κ Nat}
    {key : Entry → κ} {entries : Array Entry} (h : Indexes index key entries) (entry : Entry)
    (hfree : index[key entry]? = none) :
    Indexes (index.insert (key entry) entries.size) key (entries.push entry) := by
  intro k i
  rw [Std.TreeMap.getElem?_insert, Array.getElem?_push]
  split
  · next hcompare =>
    have hk : key entry = k := Std.LawfulEqOrd.compare_eq_iff_eq.mp hcompare
    subst hk
    constructor
    · intro hi
      cases hi
      exact ⟨entry, by simp, rfl⟩
    · rintro ⟨entry', hentry, hkey⟩
      split at hentry
      · next hi => rw [hi]
      · -- an older entry with this key would have been found
        have hold := (h (key entry) i).mpr ⟨entry', hentry, hkey⟩
        rw [hfree] at hold
        cases hold
  · next hcompare =>
    have hk : key entry ≠ k := fun hk => hcompare (Std.LawfulEqOrd.compare_eq_iff_eq.mpr hk)
    rw [h k i]
    constructor
    · rintro ⟨entry', hentry, hkey⟩
      have hi : i ≠ entries.size := by
        rintro rfl
        simp at hentry
      exact ⟨entry', by rw [if_neg hi, hentry], hkey⟩
    · rintro ⟨entry', hentry, hkey⟩
      split at hentry
      · cases hentry
        exact absurd hkey hk
      · exact ⟨entry', hentry, hkey⟩

/-- Some key leads somewhere exactly if some entry has it. -/
theorem Indexes.isSome_iff {index : Std.TreeMap κ Nat} {key : Entry → κ} {entries : Array Entry}
    (h : Indexes index key entries) (k : κ) :
    index[k]?.isSome ↔ ∃ entry ∈ entries, key entry = k := by
  rw [Option.isSome_iff_exists]
  constructor
  · rintro ⟨i, hi⟩
    obtain ⟨entry, hentry, hkey⟩ := (h k i).mp hi
    exact ⟨entry, Array.mem_of_getElem? hentry, hkey⟩
  · rintro ⟨entry, hentry, hkey⟩
    obtain ⟨i, hi⟩ := Array.mem_iff_getElem?.mp hentry
    exact ⟨i, (h k i).mpr ⟨entry, hi, hkey⟩⟩

/-- What a lookup through the index finds, a search through the entries finds. -/
theorem Indexes.bind_eq_find? [DecidableEq κ] {index : Std.TreeMap κ Nat} {key : Entry → κ}
    {entries : Array Entry} (h : Indexes index key entries) (k : κ) :
    (index[k]?.bind fun i => entries[i]?) = entries.toList.find? (key · = k) := by
  cases hfind : entries.toList.find? (key · = k) with
  | none =>
    cases hindex : index[k]? with
    | none => rfl
    | some i =>
      obtain ⟨entry, hentry, hkey⟩ := (h k i).mp hindex
      have hmem := Array.mem_toList_iff.mpr (Array.mem_of_getElem? hentry)
      have hne := List.find?_eq_none.mp hfind entry hmem
      exact absurd hkey (by simpa using hne)
  | some entry =>
    have hkey : key entry = k := by simpa using List.find?_some hfind
    obtain ⟨i, hi⟩ := Array.mem_iff_getElem?.mp
      (Array.mem_toList_iff.mp (List.mem_of_find?_eq_some hfind))
    rw [(h k i).mpr ⟨entry, hi, hkey⟩, Option.bind_some, hi]

end

/-! ## Both indices -/

/-- Both indices say what the entries say. -/
structure Indexed (r : Repository) : Prop where
  rules : Indexes r.ruleIndex (·.rule.id) r.entries
  names : Indexes r.nameIndex (·.name) r.entries

/-- A rule with a place has a name. -/
theorem Indexed.nameOf?_ne_none {r : Repository} (h : r.Indexed) {rule : Rule} {i : Nat}
    (hi : r.ruleIndex[rule.id]? = some i) : r.nameOf? rule ≠ none := by
  obtain ⟨entry, hentry, _⟩ := (h.rules rule.id i).mp hi
  simp [nameOf?, hi, hentry]

/-- Nothing speaks against an entry exactly if none of the four checks does. -/
theorem refusal?_eq_none_iff {r : Repository} {name : String} {rule : Rule} :
    r.refusal? name rule = none ↔
      name ≠ "" ∧ r.contains name = false ∧ r.nameOf? rule = none ∧ rule.isReference = false := by
  rw [refusal?]
  cases r.nameOf? rule <;> grind [String.isEmpty_iff]

/-- A registration that is not refused finds its name and its rule free. -/
theorem Indexed.free_of_refusal? {r : Repository} (h : r.Indexed) {name : String} {rule : Rule}
    (hfree : r.refusal? name rule = none) :
    r.nameIndex[name]? = none ∧ r.ruleIndex[rule.id]? = none := by
  obtain ⟨-, hname, hrule, -⟩ := refusal?_eq_none_iff.mp hfree
  refine ⟨?_, ?_⟩
  · rw [contains, Std.TreeMap.contains_eq_isSome_getElem?] at hname
    exact Option.isSome_eq_false_iff.mp hname |> Option.isNone_iff_eq_none.mp
  · cases hi : r.ruleIndex[rule.id]? with
    | none => rfl
    | some i => exact absurd hrule (h.nameOf?_ne_none hi)

/-- Registration keeps both indices right. -/
theorem Indexed.insert {r : Repository} (h : r.Indexed) {name : String} {rule : Rule}
    (hfree : r.refusal? name rule = none) : (r.insert name rule).Indexed := by
  obtain ⟨hname, hrule⟩ := h.free_of_refusal? hfree
  exact ⟨h.rules.push ⟨name, rule⟩ hrule, h.names.push ⟨name, rule⟩ hname⟩

/-- In a reachable repository both indices say what the entries say. -/
theorem Reachable.indexed {r : Repository} (h : r.Reachable) : r.Indexed := by
  induction h with
  | empty => exact ⟨indexes_empty _, indexes_empty _⟩
  | @register r r' name rule _ hr ih =>
    rw [Repository.register] at hr
    split at hr
    · cases hr
    · next hfree =>
      cases hr
      exact ih.insert hfree
  | @registerFresh r rule _ ih =>
    rw [Repository.registerFresh]
    split
    · exact ih
    · next n _ =>
      have hadvanced : Indexed { r with nextName := n + 1 } := ⟨ih.rules, ih.names⟩
      simp only
      split
      · exact hadvanced
      · next hfree => exact hadvanced.insert hfree

/-! ## Lookups -/

/-- The name of the entry for a rule, by a search through the entries. -/
def registeredName? (entries : List Entry) (rule : Rule) : Option String :=
  (entries.find? (·.rule.id = rule.id)).map (·.name)

theorem Reachable.nameOf?_eq {r : Repository} (h : r.Reachable) (rule : Rule) :
    r.nameOf? rule = registeredName? r.entries.toList rule := by
  rw [registeredName?, ← h.indexed.rules.bind_eq_find? rule.id, nameOf?]
  cases r.ruleIndex[rule.id]? with
  | none => rfl
  | some i => cases hentry : r.entries[i]? <;> simp [hentry]

theorem Reachable.contains_iff {r : Repository} (h : r.Reachable) (name : String) :
    r.contains name ↔ ∃ entry ∈ r.entries, entry.name = name := by
  rw [contains, Std.TreeMap.contains_eq_isSome_getElem?]
  exact h.indexed.names.isSome_iff name

end TextMate.Repository
