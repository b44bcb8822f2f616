import TextMate.Proofs.Repository.Indexed

/-!
# Runs of registrations

A run is any list of calls on an empty repository, with given names and with generated ones, whether the
calls succeed or are refused. `attempt_cases` says once what a call can do: it moves the counter at most,
or it also adds an entry that nothing spoke against. What every call keeps, `Coherent.attempt`, holds after
every run, and everything a caller may rely on follows from it (`run_corresponds`): both indices and the
entries say the same, in both directions, and the entries are those of the successful calls in their order.
-/

namespace TextMate.Repository

/-! ## Calls -/

/-- A call that may add an entry. -/
inductive Registration where
  /-- Register a rule under a given name. -/
  | named (name : String) (rule : Rule)
  /-- Register a rule under the next free generated name. -/
  | generated (rule : Rule)

/-- The repository after a call, whether the call succeeds or not. -/
def attempt (r : Repository) : Registration → Repository
  | .named name rule =>
    match r.register name rule with
    | .ok r' => r'
    | .error _ => r
  | .generated rule => (r.registerFresh rule).1

/-- The entry that a call adds, if it succeeds. -/
def granted? (r : Repository) : Registration → Option Entry
  | .named name rule =>
    match r.register name rule with
    | .ok _ => some ⟨name, rule⟩
    | .error _ => none
  | .generated rule =>
    match (r.registerFresh rule).2 with
    | .ok name => some ⟨name, rule⟩
    | .error _ => none

/-- The repository after some calls, one after the other. -/
def attemptAll (r : Repository) (calls : List Registration) : Repository :=
  calls.foldl attempt r

/-- The entries of the calls that succeed, in the order of the calls. -/
def grantedAll (r : Repository) : List Registration → List Entry
  | [] => []
  | call :: calls => (r.granted? call).toList ++ (r.attempt call).grantedAll calls

/-- The repository after a run of calls, from the empty one on. -/
def run (calls : List Registration) : Repository :=
  attemptAll {} calls

/-- Everything a call can do: move the counter, and add an entry if nothing speaks against it. -/
theorem attempt_cases (r : Repository) (call : Registration) :
    (r.granted? call = none ∧ ∃ n, r.attempt call = { r with nextName := n }) ∨
    ∃ entry n, r.granted? call = some entry ∧ r.refusal? entry.name entry.rule = none ∧
      r.attempt call = ({ r with nextName := n } : Repository).insert entry.name entry.rule := by
  cases call with
  | named name rule =>
    cases hrefusal : r.refusal? name rule with
    | some e =>
      left
      simp only [granted?, attempt, register, hrefusal]
      exact ⟨trivial, r.nextName, rfl⟩
    | none =>
      right
      refine ⟨⟨name, rule⟩, r.nextName, ?_, hrefusal, ?_⟩
      · simp only [granted?, register, hrefusal]
      · simp only [attempt, register, hrefusal]
  | generated rule =>
    cases hfree : r.firstFree (r.size + 1) r.nextName with
    | none =>
      left
      simp only [granted?, attempt, registerFresh, hfree]
      exact ⟨trivial, r.nextName, rfl⟩
    | some n =>
      -- what speaks against an entry does not depend on the counter
      have hadvanced : ({ r with nextName := n + 1 } : Repository).refusal? (Numeral.render n) rule =
          r.refusal? (Numeral.render n) rule := rfl
      cases hrefusal : r.refusal? (Numeral.render n) rule with
      | some e =>
        left
        simp only [granted?, attempt, registerFresh, hfree, hadvanced, hrefusal]
        exact ⟨trivial, n + 1, rfl⟩
      | none =>
        right
        refine ⟨⟨Numeral.render n, rule⟩, n + 1, ?_, hrefusal, ?_⟩
        · simp only [granted?, registerFresh, hfree, hadvanced, hrefusal]
        · simp only [attempt, registerFresh, hfree, hadvanced, hrefusal]

/-! ## What every call keeps -/

/-- Both indices say what the entries say, no entry has the empty name, and no entry is a reference. -/
structure Coherent (r : Repository) : Prop where
  indexed : r.Indexed
  name_ne_empty : ∀ entry ∈ r.entries, entry.name ≠ ""
  not_reference : ∀ entry ∈ r.entries, entry.rule.isReference = false

theorem Coherent.insert {r : Repository} (h : r.Coherent) {name : String} {rule : Rule}
    (hfree : r.refusal? name rule = none) : (r.insert name rule).Coherent := by
  obtain ⟨hname, -, -, hbody⟩ := refusal?_eq_none_iff.mp hfree
  refine ⟨h.indexed.insert hfree, ?_, ?_⟩
  · intro entry hentry
    rcases Array.mem_push.mp hentry with hold | rfl
    · exact h.name_ne_empty entry hold
    · exact hname
  · intro entry hentry
    rcases Array.mem_push.mp hentry with hold | rfl
    · exact h.not_reference entry hold
    · exact hbody

theorem Coherent.advance {r : Repository} (h : r.Coherent) (n : Nat) :
    Coherent { r with nextName := n } :=
  ⟨⟨h.indexed.rules, h.indexed.names⟩, h.name_ne_empty, h.not_reference⟩

/-- Every call keeps a repository coherent. -/
theorem Coherent.attempt {r : Repository} (h : r.Coherent) (call : Registration) :
    (r.attempt call).Coherent := by
  rcases attempt_cases r call with ⟨-, n, hattempt⟩ | ⟨entry, n, -, hfree, hattempt⟩
  · rw [hattempt]
    exact h.advance n
  · rw [hattempt]
    exact (h.advance n).insert hfree

/-- Every run leads to a coherent repository. -/
theorem coherent_run (calls : List Registration) : (run calls).Coherent := by
  suffices hall : ∀ r : Repository, r.Coherent → (r.attemptAll calls).Coherent by
    refine hall {} ⟨Reachable.empty.indexed, ?_, ?_⟩
    · intro entry hentry
      simp at hentry
    · intro entry hentry
      simp at hentry
  induction calls with
  | nil => exact fun r h => h
  | cons call calls ih =>
    intro r h
    exact ih (r.attempt call) (h.attempt call)

/-- A call adds its entry at the end if it succeeds, and no entry otherwise. -/
theorem entries_attempt (r : Repository) (call : Registration) :
    (r.attempt call).entries.toList = r.entries.toList ++ (r.granted? call).toList := by
  rcases attempt_cases r call with ⟨hnone, n, hattempt⟩ | ⟨entry, n, hsome, -, hattempt⟩
  · rw [hattempt, hnone]
    simp
  · rw [hattempt, hsome]
    simp [Repository.insert]

/-- The entries keep the order of the calls that succeeded. -/
theorem entries_attemptAll (r : Repository) (calls : List Registration) :
    (r.attemptAll calls).entries.toList = r.entries.toList ++ r.grantedAll calls := by
  induction calls generalizing r with
  | nil => simp [attemptAll, grantedAll]
  | cons call calls ih =>
    have hrest := ih (r.attempt call)
    rw [entries_attempt, List.append_assoc] at hrest
    exact hrest

/-- The reachable repositories are those of runs. -/
theorem Reachable.exists_run {r : Repository} (h : r.Reachable) : ∃ calls, run calls = r := by
  induction h with
  | empty => exact ⟨[], rfl⟩
  | @register r r' name rule _ hr ih =>
    obtain ⟨calls, rfl⟩ := ih
    refine ⟨calls ++ [.named name rule], ?_⟩
    rw [run, attemptAll, List.foldl_append]
    show ((run calls).attempt (.named name rule)) = r'
    simp only [attempt, hr]
  | @registerFresh r rule _ ih =>
    obtain ⟨calls, rfl⟩ := ih
    refine ⟨calls ++ [.generated rule], ?_⟩
    rw [run, attemptAll, List.foldl_append]
    rfl

theorem Reachable.coherent {r : Repository} (h : r.Reachable) : r.Coherent := by
  obtain ⟨calls, rfl⟩ := h.exists_run
  exact coherent_run calls

/-! ## What follows -/

section

variable {κ : Type} [Ord κ] {index : Std.TreeMap κ Nat} {key : Entry → κ} {entries : Array Entry}

/-- No place of an index lies beyond the entries. -/
theorem Indexes.lt_size (h : Indexes index key entries) {k : κ} {i : Nat} (hi : index[k]? = some i) :
    i < entries.size := by
  obtain ⟨entry, hentry, -⟩ := (h k i).mp hi
  exact (Array.getElem?_eq_some_iff.mp hentry).1

/-- Since a key leads to one place only, no two entries share it. -/
theorem Indexes.nodup (h : Indexes index key entries) : (entries.toList.map key).Nodup := by
  have hplace : ∀ i (hi : i < entries.size), index[key entries[i]]? = some i := by
    intro i hi
    exact (h _ i).mpr ⟨entries[i], by simp [hi], rfl⟩
  rw [List.Nodup, List.pairwise_iff_getElem]
  intro i j hi hj hij hkey
  rw [List.length_map, Array.length_toList] at hi hj
  rw [List.getElem_map, List.getElem_map, Array.getElem_toList, Array.getElem_toList] at hkey
  have hboth := hplace i hi
  rw [hkey, hplace j hj] at hboth
  cases hboth
  exact Nat.lt_irrefl i hij

/-- What a lookup through an index finds. -/
theorem Indexes.lookup_eq_some_iff (h : Indexes index key entries) (k : κ) (entry : Entry) :
    (index[k]?.bind fun i => entries[i]?) = some entry ↔ entry ∈ entries ∧ key entry = k := by
  rw [Option.bind_eq_some_iff]
  constructor
  · rintro ⟨i, hi, hentry⟩
    obtain ⟨entry', hentry', hkey⟩ := (h k i).mp hi
    rw [hentry] at hentry'
    cases hentry'
    exact ⟨Array.mem_of_getElem? hentry, hkey⟩
  · rintro ⟨hmem, hkey⟩
    obtain ⟨i, hi⟩ := Array.mem_iff_getElem?.mp hmem
    exact ⟨i, (h k i).mpr ⟨entry, hi, hkey⟩, hi⟩

/-- A new entry is found under its key, and under no other key anything changes. -/
theorem Indexes.lookup_push [Std.TransOrd κ] [Std.LawfulEqOrd κ] [DecidableEq κ]
    (h : Indexes index key entries) (entry : Entry) (hfree : index[key entry]? = none) (k : κ) :
    ((index.insert (key entry) entries.size)[k]?.bind fun i => (entries.push entry)[i]?) =
      if k = key entry then some entry else index[k]?.bind fun i => entries[i]? := by
  apply Option.ext
  intro found
  rw [(h.push entry hfree).lookup_eq_some_iff, Array.mem_push]
  split
  · next hk =>
    constructor
    · rintro ⟨hold | rfl, hkey⟩
      · -- an older entry with this key would have been found
        have hfound := (h.lookup_eq_some_iff k found).mpr ⟨hold, hkey⟩
        rw [hk, hfree] at hfound
        cases hfound
      · rfl
    · rintro ⟨⟩
      exact ⟨Or.inr rfl, hk.symm⟩
  · next hk =>
    rw [h.lookup_eq_some_iff]
    constructor
    · rintro ⟨hold | rfl, hkey⟩
      · exact ⟨hold, hkey⟩
      · exact absurd hkey.symm hk
    · rintro ⟨hold, hkey⟩
      exact ⟨Or.inl hold, hkey⟩

end

variable {r : Repository}

theorem get?_eq_lookup (r : Repository) (name : String) :
    r.get? name = (r.nameIndex[name]?.bind fun i => r.entries[i]?).map (·.rule) := by
  rw [get?]
  cases r.nameIndex[name]? with
  | none => rfl
  | some i => cases hentry : r.entries[i]? <;> simp [hentry]

theorem nameOf?_eq_lookup (r : Repository) (rule : Rule) :
    r.nameOf? rule = (r.ruleIndex[rule.id]?.bind fun i => r.entries[i]?).map (·.name) := by
  rw [nameOf?]
  cases r.ruleIndex[rule.id]? with
  | none => rfl
  | some i => cases hentry : r.entries[i]? <;> simp [hentry]

theorem Coherent.get?_eq_some_iff (h : r.Coherent) (name : String) (rule : Rule) :
    r.get? name = some rule ↔ ∃ entry ∈ r.entries, entry.name = name ∧ entry.rule = rule := by
  rw [get?_eq_lookup, Option.map_eq_some_iff]
  simp only [h.indexed.names.lookup_eq_some_iff, and_assoc]

theorem Coherent.nameOf?_eq_some_iff (h : r.Coherent) (rule : Rule) (name : String) :
    r.nameOf? rule = some name ↔ ∃ entry ∈ r.entries, entry.rule.id = rule.id ∧ entry.name = name := by
  rw [nameOf?_eq_lookup, Option.map_eq_some_iff]
  simp only [h.indexed.rules.lookup_eq_some_iff, and_assoc]

/-- A new entry names its rule, and changes the name of no other rule. -/
theorem Coherent.nameOf?_insert (h : r.Coherent) {name : String} {rule : Rule}
    (hfree : r.refusal? name rule = none) (other : Rule) :
    (r.insert name rule).nameOf? other = if other.id = rule.id then some name else r.nameOf? other := by
  have hlookup := h.indexed.rules.lookup_push ⟨name, rule⟩ (h.indexed.free_of_refusal? hfree).2 other.id
  rw [nameOf?_eq_lookup, nameOf?_eq_lookup]
  refine (congrArg (Option.map Entry.name) hlookup).trans ?_
  split <;> rfl

/-- A new entry is the one of its name, and changes the entry of no other name. -/
theorem Coherent.get?_insert (h : r.Coherent) {name : String} {rule : Rule}
    (hfree : r.refusal? name rule = none) (other : String) :
    (r.insert name rule).get? other = if other = name then some rule else r.get? other := by
  have hlookup := h.indexed.names.lookup_push ⟨name, rule⟩ (h.indexed.free_of_refusal? hfree).1 other
  rw [get?_eq_lookup, get?_eq_lookup]
  refine (congrArg (Option.map Entry.rule) hlookup).trans ?_
  split <;> rfl

/-- A name leads to a rule exactly if the rule leads to the name. -/
theorem Coherent.get?_iff_nameOf? (h : r.Coherent) (name : String) (rule : Rule) :
    (∃ found, r.get? name = some found ∧ found.id = rule.id) ↔ r.nameOf? rule = some name := by
  rw [h.nameOf?_eq_some_iff]
  constructor
  · rintro ⟨found, hfound, hid⟩
    obtain ⟨entry, hentry, hname, rfl⟩ := (h.get?_eq_some_iff name found).mp hfound
    exact ⟨entry, hentry, hid, hname⟩
  · rintro ⟨entry, hentry, hid, hname⟩
    exact ⟨entry.rule, (h.get?_eq_some_iff name entry.rule).mpr ⟨entry, hentry, hname, rfl⟩, hid⟩

/-- A name is registered exactly if it leads to a rule. -/
theorem Coherent.contains_eq_isSome_get? (h : r.Coherent) (name : String) :
    r.contains name = (r.get? name).isSome := by
  rw [contains, Std.TreeMap.contains_eq_isSome_getElem?, get?]
  cases hi : r.nameIndex[name]? with
  | none => rfl
  | some i =>
    obtain ⟨entry, hentry, -⟩ := (h.indexed.names name i).mp hi
    simp [hentry]

/-- After every run of calls, successful or not, the indices and the entries correspond: places lie inside
the entries, a key leads to a place exactly if the entry there has it, names and identities are distinct,
looking up a name undoes looking up a rule, and the entries are those of the successful calls in order. -/
theorem run_corresponds (calls : List Registration) :
    (∀ (name : String) i, (run calls).nameIndex[name]? = some i → i < (run calls).entries.size) ∧
    (∀ (id : RuleId) i, (run calls).ruleIndex[id]? = some i → i < (run calls).entries.size) ∧
    (∀ (name : String) i, (run calls).nameIndex[name]? = some i ↔
      ∃ entry : Entry, (run calls).entries[i]? = some entry ∧ entry.name = name) ∧
    (∀ (id : RuleId) i, (run calls).ruleIndex[id]? = some i ↔
      ∃ entry : Entry, (run calls).entries[i]? = some entry ∧ entry.rule.id = id) ∧
    ((run calls).entries.toList.map (·.name)).Nodup ∧
    (∀ entry ∈ (run calls).entries, entry.name ≠ "") ∧
    ((run calls).entries.toList.map (·.rule.id)).Nodup ∧
    (∀ entry ∈ (run calls).entries, entry.rule.isReference = false) ∧
    (∀ name rule, (∃ found, (run calls).get? name = some found ∧ found.id = rule.id) ↔
      (run calls).nameOf? rule = some name) ∧
    (∀ name, (run calls).contains name = ((run calls).get? name).isSome) ∧
    (run calls).entries.toList = grantedAll {} calls := by
  have h := coherent_run calls
  have hentries := entries_attemptAll {} calls
  refine ⟨fun _ _ => h.indexed.names.lt_size, fun _ _ => h.indexed.rules.lt_size, h.indexed.names,
    h.indexed.rules, h.indexed.names.nodup, h.name_ne_empty, h.indexed.rules.nodup, h.not_reference,
    h.get?_iff_nameOf?, h.contains_eq_isSome_get?, ?_⟩
  simpa [run] using hentries

end TextMate.Repository
