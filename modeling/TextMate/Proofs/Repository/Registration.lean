import TextMate.Proofs.Repository.Runs

/-!
# One registration

A registration makes four checks and then changes three things: both indices and the entries.
`registerInPlace` is the same on a repository that is changed while the registration goes on, so that a
check which came too late would leave a repository that is half changed. It never does,
`registerInPlace_run`.

`register_exact` says all that a caller can see of a registration: when it is refused and with which error,
that a refused one changes nothing, and what one that succeeds changes and what it leaves as it was.
-/

namespace TextMate.Repository

/-! ## In place -/

/-- Register a rule under a name, one check and one change after the other. What has been changed before
an error stays changed. -/
def registerInPlace (name : String) (rule : Rule) : EStateM Rule.Error Repository Unit := do
  if name.isEmpty then
    throw .emptyName
  if (← get).contains name then
    throw (.duplicateName name)
  if let some existing := (← get).nameOf? rule then
    throw (.alreadyRegistered existing)
  if rule.isReference then
    throw (.referenceHasNoBody name)
  let place := (← get).size
  modify fun r => { r with ruleIndex := r.ruleIndex.insert rule.id place }
  modify fun r => { r with nameIndex := r.nameIndex.insert name place }
  modify fun r => { r with entries := r.entries.push ⟨name, rule⟩ }

/-- In place, too, a registration does all of its work or nothing. -/
theorem registerInPlace_run (r : Repository) (name : String) (rule : Rule) :
    (registerInPlace name rule).run r =
      match r.register name rule with
      | .ok r' => .ok () r'
      | .error e => .error e r := by
  rw [register, refusal?]
  -- in both forms the first check that fails decides, before anything is changed
  by_cases hname : name.isEmpty
  · simp [registerInPlace, hname]
  by_cases htaken : r.contains name
  · simp [registerInPlace, hname, htaken]
  cases hrule : r.nameOf? rule with
  | some existing => simp [registerInPlace, hname, htaken, hrule]
  | none =>
    by_cases hreference : rule.isReference
    · simp [registerInPlace, hname, htaken, hrule, hreference]
    · simp [registerInPlace, hname, htaken, hrule, hreference, insert, size]

/-! ## What a registration does -/

/-- The second repository is the first with one more entry: looking up its name or its rule finds the entry,
and every other name and every rule with another identity is looked up as before. -/
structure AddsEntry (name : String) (rule : Rule) (r r' : Repository) : Prop where
  entries_eq : r'.entries = r.entries.push ⟨name, rule⟩
  get_name : r'.get? name = some rule
  contains_name : r'.contains name = true
  nameOf_rule : r'.nameOf? rule = some name
  get_other : ∀ other, other ≠ name → r'.get? other = r.get? other
  contains_other : ∀ other, other ≠ name → r'.contains other = r.contains other
  nameOf_other : ∀ other : Rule, other.id ≠ rule.id → r'.nameOf? other = r.nameOf? other
  nextName_eq : r'.nextName = r.nextName

theorem Coherent.addsEntry {r : Repository} (h : r.Coherent) {name : String} {rule : Rule}
    (hfree : r.refusal? name rule = none) : AddsEntry name rule r (r.insert name rule) := by
  have hget := h.get?_insert hfree
  have hnameOf := h.nameOf?_insert hfree
  have hcontains : ∀ other, (r.insert name rule).contains other =
      if other = name then true else r.contains other := by
    intro other
    rw [(h.insert hfree).contains_eq_isSome_get?, h.contains_eq_isSome_get?, hget]
    split <;> rfl
  exact {
    entries_eq := rfl
    get_name := by rw [hget, if_pos rfl]
    contains_name := by rw [hcontains, if_pos rfl]
    nameOf_rule := by rw [hnameOf, if_pos rfl]
    get_other := fun other hother => by rw [hget, if_neg hother]
    contains_other := fun other hother => by rw [hcontains, if_neg hother]
    nameOf_other := fun other hother => by rw [hnameOf, if_neg hother]
    nextName_eq := rfl }

theorem register_eq_error_iff {r : Repository} {name : String} {rule : Rule} {e : Rule.Error} :
    r.register name rule = .error e ↔ r.refusal? name rule = some e := by
  rw [register]
  cases r.refusal? name rule <;> simp

theorem register_eq_ok_iff {r r' : Repository} {name : String} {rule : Rule} :
    r.register name rule = .ok r' ↔ r.refusal? name rule = none ∧ r.insert name rule = r' := by
  rw [register]
  cases r.refusal? name rule <;> simp

/-- A rule has no name exactly if no entry is for its identity. -/
theorem Coherent.nameOf?_eq_none_iff {r : Repository} (h : r.Coherent) (rule : Rule) :
    r.nameOf? rule = none ↔ ∀ entry ∈ r.entries, entry.rule.id ≠ rule.id := by
  constructor
  · intro hnone entry hentry hid
    have hname := (h.nameOf?_eq_some_iff rule entry.name).mpr ⟨entry, hentry, hid, rfl⟩
    rw [hnone] at hname
    cases hname
  · intro hfree
    cases hname : r.nameOf? rule with
    | none => rfl
    | some name =>
      obtain ⟨entry, hentry, hid, -⟩ := (h.nameOf?_eq_some_iff rule name).mp hname
      exact absurd hid (hfree entry hentry)

/-- A registration is refused exactly if the name is empty or taken, the rule has an entry, or the rule is a
reference, and the first of these decides on the error. A registration that is refused leaves the whole
repository as it was, and one that is not adds its entry and nothing else. -/
theorem register_exact (r : Repository) (hr : r.Reachable) (name : String) (rule : Rule) :
    ((∃ e, r.register name rule = .error e) ↔
      name = "" ∨ (∃ entry ∈ r.entries, entry.name = name) ∨
        (∃ entry ∈ r.entries, entry.rule.id = rule.id) ∨ rule.isReference = true) ∧
    (name = "" → r.register name rule = .error .emptyName) ∧
    (name ≠ "" → (∃ entry ∈ r.entries, entry.name = name) →
      r.register name rule = .error (.duplicateName name)) ∧
    (name ≠ "" → (∀ entry ∈ r.entries, entry.name ≠ name) →
      ∀ entry ∈ r.entries, entry.rule.id = rule.id → r.nameOf? rule = some entry.name ∧
        r.register name rule = .error (.alreadyRegistered entry.name)) ∧
    (name ≠ "" → (∀ entry ∈ r.entries, entry.name ≠ name) →
      (∀ entry ∈ r.entries, entry.rule.id ≠ rule.id) → rule.isReference = true →
        r.register name rule = .error (.referenceHasNoBody name)) ∧
    (∀ e, r.register name rule = .error e → (registerInPlace name rule).run r = .error e r) ∧
    (∀ r', r.register name rule = .ok r' →
      (registerInPlace name rule).run r = .ok () r' ∧ AddsEntry name rule r r') := by
  have h := hr.coherent
  have htaken : r.contains name = false ↔ ∀ entry ∈ r.entries, entry.name ≠ name := by
    rw [← Bool.not_eq_true, hr.contains_iff]
    simp
  have hunnamed := h.nameOf?_eq_none_iff rule
  have hrun := registerInPlace_run r name rule
  refine ⟨?_, ?_, ?_, ?_, ?_, ?_, ?_⟩
  · simp only [register_eq_error_iff, ← Option.isSome_iff_exists, Option.isSome_iff_ne_none, ne_eq,
      refusal?_eq_none_iff, htaken, hunnamed]
    grind
  · intro hname
    rw [register_eq_error_iff, refusal?, if_pos (by simp [hname])]
  · intro hname hentry
    rw [register_eq_error_iff, refusal?, if_neg (by simpa using hname),
      if_pos ((hr.contains_iff name).mpr hentry)]
  · intro hname hfree entry hentry hid
    have hexisting := (h.nameOf?_eq_some_iff rule entry.name).mpr ⟨entry, hentry, hid, rfl⟩
    refine ⟨hexisting, ?_⟩
    rw [register_eq_error_iff, refusal?, if_neg (by simpa using hname), if_neg (by simp [htaken.mpr hfree]),
      hexisting]
  · intro hname hfree hunregistered hreference
    rw [register_eq_error_iff, refusal?, if_neg (by simpa using hname), if_neg (by simp [htaken.mpr hfree]),
      hunnamed.mpr hunregistered]
    simp only [hreference, if_true]
  · intro e he
    rw [hrun, he]
  · intro r' hr'
    obtain ⟨hfree, rfl⟩ := register_eq_ok_iff.mp hr'
    refine ⟨?_, h.addsEntry hfree⟩
    rw [hrun, hr']

/-- A repository whose only entry is called `a`. -/
def oneEntry : Repository :=
  insert {} "a" (.body 1 none .always [])

theorem reachable_oneEntry : oneEntry.Reachable :=
  .register .empty (show register {} "a" (.body 1 none .always []) = .ok oneEntry from rfl)

/-- The rule of the entry is refused under a new name, even when it comes as a reference, and a rule of its
own is not. -/
theorem register_exact_oneEntry :
    oneEntry.Reachable ∧
    oneEntry.register "b" (.reference 1 "x") = .error (.alreadyRegistered "a") ∧
    (registerInPlace "b" (.reference 1 "x")).run oneEntry = .error (.alreadyRegistered "a") oneEntry ∧
    ∃ r', oneEntry.register "b" (.body 2 none .always []) = .ok r' ∧
      AddsEntry "b" (.body 2 none .always []) oneEntry r' := by
  obtain ⟨-, -, -, hregistered, -, hrefused, -⟩ :=
    register_exact oneEntry reachable_oneEntry "b" (.reference 1 "x")
  obtain ⟨-, -, -, -, -, -, hadded⟩ :=
    register_exact oneEntry reachable_oneEntry "b" (.body 2 none .always [])
  have herror := (hregistered (by decide) (by simp [oneEntry, insert]) ⟨"a", .body 1 none .always []⟩
    (by simp [oneEntry, insert]) rfl).2
  exact ⟨reachable_oneEntry, herror, hrefused _ herror, _, rfl, (hadded _ rfl).2⟩

end TextMate.Repository
