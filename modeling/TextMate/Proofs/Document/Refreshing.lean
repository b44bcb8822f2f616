import TextMate.Proofs.Document.Identity

/-!
# Handing out new identities

`refresh` walks over a rule and gives a new identity to each occurrence of each rule without a name, in the
order in which the document would be written. Inside a registered rule new identities start at a place that
depends on the rule alone, so wherever the rule occurs it stays the same rule inside.

The identities handed out count upwards, `countsUp`, and nothing but identities changes, `undone`.
-/

namespace TextMate.Document

/-! ## Supplies -/

/-- Where new identities come from. The registered rules have those below `bound`. Inside each of them new
ones start at a place above, and each next one is a `stride` away. -/
structure Supply where
  /-- Where the identities inside a registered rule start. A rule without a name has no such place. -/
  start? : RuleId → Option RuleId
  stride : Nat
  bound : RuleId
  stride_pos : 0 < stride
  lt_bound : ∀ id first, start? id = some first → id < bound
  bound_le : ∀ id first, start? id = some first → bound ≤ first

namespace Supply

variable (supply : Supply)

def isRegistered (rule : Rule) : Bool :=
  (supply.start? rule.id).isSome

/-- The identity that a rule gets if `next` is the next new one. -/
def label (id next : RuleId) : RuleId :=
  if (supply.start? id).isSome then id else next

/-- The next new identity inside a rule. -/
def inside (id next : RuleId) : RuleId :=
  (supply.start? id).getD (next + supply.stride)

/-- The next new identity behind a rule, where `last` is the one that follows those inside it. -/
def after (id next last : RuleId) : RuleId :=
  if (supply.start? id).isSome then next else last

variable {supply}

theorem start?_eq_none {next : RuleId} (h : supply.bound ≤ next) : supply.start? next = none := by
  cases hstart : supply.start? next with
  | none => rfl
  | some first => exact absurd (supply.lt_bound next first hstart) (Nat.not_lt.mpr h)

theorem inside_of_eq_none {id : RuleId} (h : supply.start? id = none) (next : RuleId) :
    supply.inside id next = next + supply.stride := by
  rw [inside, h, Option.getD_none]

theorem inside_of_eq_some {id first : RuleId} (h : supply.start? id = some first) (next : RuleId) :
    supply.inside id next = first := by
  rw [inside, h, Option.getD_some]

theorem bound_le_inside (id : RuleId) {next : RuleId} (h : supply.bound ≤ next) :
    supply.bound ≤ supply.inside id next := by
  cases hstart : supply.start? id with
  | none =>
    rw [inside_of_eq_none hstart]
    exact Nat.le_trans h (Nat.le_add_right _ _)
  | some first =>
    rw [inside_of_eq_some hstart]
    exact supply.bound_le id first hstart

end Supply

section

variable (supply : Supply)

mutual

/-- The rule with new identities for itself and the rules inside it, and the next identity after them. -/
def refresh : Rule → RuleId → Rule × RuleId
  | .reference id name, next =>
    (.reference (supply.label id next) name, supply.after id next (supply.inside id next))
  | .body id scope trigger inner, next =>
    let trigger := refreshTrigger trigger (supply.inside id next)
    let inner := refreshList inner trigger.2
    (.body (supply.label id next) scope trigger.1 inner.1, supply.after id next inner.2)

def refreshList : List Rule → RuleId → List Rule × RuleId
  | [], next => ([], next)
  | rule :: rules, next =>
    let rule := refresh rule next
    let rules := refreshList rules rule.2
    (rule.1 :: rules.1, rules.2)

def refreshTrigger : Trigger Rule → RuleId → Trigger Rule × RuleId
  | .always, next => (.always, next)
  | .matching condition, next =>
    let condition := refreshPattern condition next
    (.matching condition.1, condition.2)
  | .between opening closing, next =>
    let opening := refreshPattern opening next
    let closing := refreshPattern closing opening.2
    (.between opening.1 closing.1, closing.2)

def refreshPattern : Pattern Rule → RuleId → Pattern Rule × RuleId
  | .set polarity members, next => (.set polarity members, next)
  | .range polarity first last, next => (.range polarity first last, next)
  | .any, next => (.any, next)
  | .literal text, next => (.literal text, next)
  | .lineStart, next => (.lineStart, next)
  | .lineEnd, next => (.lineEnd, next)
  | .alt ps, next =>
    let ps := refreshPatterns ps next
    (.alt ps.1, ps.2)
  | .seq ps, next =>
    let ps := refreshPatterns ps next
    (.seq ps.1, ps.2)
  | .rep p min max, next =>
    let p := refreshPattern p next
    (.rep p.1 min max, p.2)
  | .look side polarity p, next =>
    let p := refreshPattern p next
    (.look side polarity p.1, p.2)
  | .capture p rule, next =>
    let rule := refresh rule next
    let p := refreshPattern p rule.2
    (.capture p.1 rule.1, p.2)

def refreshPatterns : List (Pattern Rule) → RuleId → List (Pattern Rule) × RuleId
  | [], next => ([], next)
  | p :: ps, next =>
    let p := refreshPattern p next
    let ps := refreshPatterns ps p.2
    (p.1 :: ps.1, ps.2)

end

end

variable {supply : Supply} {next : RuleId}

/-! ## The parts of a refreshed rule -/

theorem refreshList_append (rules rules' : List Rule) (next : RuleId) :
    refreshList supply (rules ++ rules') next =
      ((refreshList supply rules next).1 ++
          (refreshList supply rules' (refreshList supply rules next).2).1,
        (refreshList supply rules' (refreshList supply rules next).2).2) := by
  induction rules generalizing next with
  | nil => rfl
  | cons rule rules ih =>
    simp only [List.cons_append, refreshList, ih]

mutual

/-- The labels of the captures are refreshed as a list. -/
theorem captures_refreshPattern : (p : Pattern Rule) → (next : RuleId) →
    refreshList supply p.captures next =
      ((refreshPattern supply p next).1.captures, (refreshPattern supply p next).2)
  | .capture p rule, next => by
    rw [Pattern.captures, refreshList, captures_refreshPattern p]
    rfl
  | .alt ps, next => capturesAll_refreshPatterns ps next
  | .seq ps, next => capturesAll_refreshPatterns ps next
  | .rep p _ _, next => captures_refreshPattern p next
  | .look _ _ p, next => captures_refreshPattern p next
  | .set _ _, _ => rfl
  | .range _ _ _, _ => rfl
  | .any, _ => rfl
  | .literal _, _ => rfl
  | .lineStart, _ => rfl
  | .lineEnd, _ => rfl

theorem capturesAll_refreshPatterns : (ps : List (Pattern Rule)) → (next : RuleId) →
    refreshList supply (Pattern.capturesAll ps) next =
      (Pattern.capturesAll (refreshPatterns supply ps next).1, (refreshPatterns supply ps next).2)
  | [], _ => rfl
  | p :: ps, next => by
    rw [Pattern.capturesAll, refreshList_append, captures_refreshPattern p,
      capturesAll_refreshPatterns ps]
    rfl

end

theorem captures_refreshTrigger (supply : Supply) (trigger : Trigger Rule) (next : RuleId) :
    refreshList supply ((triggerPatterns trigger).flatMap Pattern.captures) next =
      ((triggerPatterns (refreshTrigger supply trigger next).1).flatMap Pattern.captures,
        (refreshTrigger supply trigger next).2) := by
  cases trigger with
  | always => rfl
  | matching condition =>
    simp [triggerPatterns, refreshTrigger, captures_refreshPattern]
  | between opening closing =>
    simp [triggerPatterns, refreshTrigger, captures_refreshPattern, refreshList_append]

/-- The parts of a rule are refreshed as a list. -/
theorem parts_refresh (rule : Rule) (next : RuleId) :
    parts (refresh supply rule next).1 =
      (refreshList supply (parts rule) (supply.inside rule.id next)).1 := by
  cases rule with
  | reference id name => rfl
  | body id scope trigger inner =>
    have htrigger := captures_refreshTrigger supply trigger (supply.inside id next)
    simp [parts, captureRules, Rule.inner, Rule.id, refreshList_append, htrigger, refresh]

theorem snd_refresh (rule : Rule) (next : RuleId) :
    (refresh supply rule next).2 =
      supply.after rule.id next (refreshList supply (parts rule) (supply.inside rule.id next)).2 := by
  cases rule with
  | reference id name => rfl
  | body id scope trigger inner =>
    have htrigger := captures_refreshTrigger supply trigger (supply.inside id next)
    simp [parts, captureRules, Rule.inner, Rule.id, refreshList_append, htrigger, refresh]

theorem id_refresh (rule : Rule) : (refresh supply rule next).1.id = supply.label rule.id next := by
  cases rule <;> rfl

theorem isReference_refresh (rule : Rule) :
    (refresh supply rule next).1.isReference = rule.isReference := by
  cases rule <;> rfl

/-- A registered rule does not depend on the identities handed out before it. -/
theorem refresh_of_isRegistered {rule : Rule} (h : supply.isRegistered rule) (next next' : RuleId) :
    (refresh supply rule next).1 = (refresh supply rule next').1 := by
  obtain ⟨first, hfirst⟩ := Option.isSome_iff_exists.mp h
  cases rule with
  | reference id name =>
    have hlabel : supply.start? id = some first := hfirst
    simp [refresh, Supply.label, hlabel]
  | body id scope trigger inner =>
    have hlabel : supply.start? id = some first := hfirst
    simp [refresh, Supply.label, Supply.inside, hlabel]

/-- A rule is registered if and only if it was. -/
theorem isRegistered_refresh (h : supply.bound ≤ next) (rule : Rule) :
    supply.isRegistered (refresh supply rule next).1 = supply.isRegistered rule := by
  rw [Supply.isRegistered, Supply.isRegistered, id_refresh, Supply.label]
  split
  · rfl
  · next hunregistered =>
    rw [Supply.start?_eq_none h]
    simpa using hunregistered

/-! ## New identities do not repeat -/

/-- The list counts from `first` in strides, and `last` would come next. -/
def Counts (stride : Nat) (ids : List RuleId) (first last : RuleId) : Prop :=
  ∃ n, ids = List.range' first n stride ∧ last = first + stride * n

namespace Counts

variable {stride : Nat} {ids ids' : List RuleId} {first middle last : RuleId}

theorem nil (stride first : Nat) : Counts stride [] first first :=
  ⟨0, rfl, rfl⟩

theorem cons (h : Counts stride ids (first + stride) last) :
    Counts stride (first :: ids) first last := by
  obtain ⟨n, rfl, rfl⟩ := h
  refine ⟨n + 1, List.range'_succ.symm, ?_⟩
  rw [Nat.mul_succ, Nat.add_assoc, Nat.add_comm stride]

theorem append (h : Counts stride ids first middle) (h' : Counts stride ids' middle last) :
    Counts stride (ids ++ ids') first last := by
  obtain ⟨n, rfl, rfl⟩ := h
  obtain ⟨n', rfl, rfl⟩ := h'
  exact ⟨n + n', List.range'_append, by rw [Nat.mul_add, Nat.add_assoc]⟩

theorem le (h : Counts stride ids first last) : first ≤ last := by
  obtain ⟨n, -, rfl⟩ := h
  exact Nat.le_add_right _ _

theorem nodup (h : Counts stride ids first last) (hstride : 0 < stride) : ids.Nodup := by
  obtain ⟨n, rfl, -⟩ := h
  exact List.nodup_range' stride hstride

/-- Lists that start at different places within one stride have nothing in common. -/
theorem disjoint {base i i' last' : Nat} (h : Counts stride ids (base + i) last)
    (h' : Counts stride ids' (base + i') last') (hi : i < stride) (hi' : i' < stride) (hne : i ≠ i') :
    List.Disjoint ids ids' := by
  obtain ⟨n, rfl, -⟩ := h
  obtain ⟨n', rfl, -⟩ := h'
  intro id hid hid'
  obtain ⟨k, -, rfl⟩ := List.mem_range'.mp hid
  obtain ⟨k', -, heq⟩ := List.mem_range'.mp hid'
  rw [Nat.add_assoc, Nat.add_assoc, Nat.add_left_cancel_iff] at heq
  have hmod := congrArg (· % stride) heq
  simp only [Nat.add_mul_mod_self_left, Nat.mod_eq_of_lt hi, Nat.mod_eq_of_lt hi'] at hmod
  exact hne hmod

end Counts

/-- The identities handed out to the rule and to the rules inside it count upwards. -/
def CountsUp (supply : Supply) (rule : Rule) : Prop :=
  ∀ next, supply.bound ≤ next →
    Counts supply.stride ((unnamedAt supply.isRegistered (refresh supply rule next).1).map Rule.id) next
      (refresh supply rule next).2

theorem counts_refreshList_of_countsUp {rules : List Rule} (hrules : ∀ rule ∈ rules, CountsUp supply rule)
    (h : supply.bound ≤ next) :
    Counts supply.stride
      (((refreshList supply rules next).1.flatMap (unnamedAt supply.isRegistered)).map Rule.id) next
      (refreshList supply rules next).2 := by
  induction rules generalizing next with
  | nil => exact .nil _ _
  | cons rule rules ih =>
    obtain ⟨hrule, hrules⟩ := List.forall_mem_cons.mp hrules
    have hfirst := hrule next h
    rw [refreshList, List.flatMap_cons, List.map_append]
    exact hfirst.append (ih hrules (Nat.le_trans h hfirst.le))

theorem countsUp (rule : Rule) : CountsUp supply rule := by
  induction rule using induction_on_all_parts with
  | step rule ih =>
    intro next h
    rw [unnamedAt, isRegistered_refresh h, snd_refresh, Supply.after, Supply.isRegistered]
    cases hstart : supply.start? rule.id with
    | some first => exact .nil _ _
    | none =>
      have hlist :=
        counts_refreshList_of_countsUp ih (Nat.le_trans h (Nat.le_add_right next supply.stride))
      rw [unnamedUnder_eq, parts_refresh, Supply.inside_of_eq_none hstart]
      simp only [Option.isSome_none, Bool.false_eq_true, if_false, List.map_cons, id_refresh, Supply.label,
        hstart]
      exact hlist.cons

theorem counts_refreshList (rules : List Rule) (h : supply.bound ≤ next) :
    Counts supply.stride
      (((refreshList supply rules next).1.flatMap (unnamedAt supply.isRegistered)).map Rule.id) next
      (refreshList supply rules next).2 :=
  counts_refreshList_of_countsUp (fun rule _ => countsUp rule) h

/-- Inside a registered rule they count from the start of the rule. -/
theorem counts_inside {rule : Rule} {first : RuleId} (hfirst : supply.start? rule.id = some first)
    (next : RuleId) : ∃ last, Counts supply.stride
      ((unnamedUnder supply.isRegistered (refresh supply rule next).1).map Rule.id) first last := by
  have hlist := counts_refreshList (parts rule) (supply.bound_le rule.id first hfirst)
  rw [unnamedUnder_eq, parts_refresh, Supply.inside_of_eq_some hfirst]
  exact ⟨_, hlist⟩

/-! ## New identities stay above the registered ones -/

theorem bound_le_refresh (rule : Rule) (h : supply.bound ≤ next) :
    supply.bound ≤ (refresh supply rule next).2 :=
  Nat.le_trans h (countsUp rule next h).le

theorem bound_le_refreshPattern (p : Pattern Rule) (h : supply.bound ≤ next) :
    supply.bound ≤ (refreshPattern supply p next).2 := by
  have hlist := counts_refreshList p.captures h
  rw [captures_refreshPattern] at hlist
  exact Nat.le_trans h hlist.le

theorem bound_le_refreshTrigger (trigger : Trigger Rule) (h : supply.bound ≤ next) :
    supply.bound ≤ (refreshTrigger supply trigger next).2 := by
  have hlist := counts_refreshList ((triggerPatterns trigger).flatMap Pattern.captures) h
  rw [captures_refreshTrigger] at hlist
  exact Nat.le_trans h hlist.le

theorem exists_of_mem_refreshList {part : Rule} {rules : List Rule} (h : supply.bound ≤ next)
    (hpart : part ∈ (refreshList supply rules next).1) :
    ∃ rule ∈ rules, ∃ later, supply.bound ≤ later ∧ part = (refresh supply rule later).1 := by
  induction rules generalizing next with
  | nil => cases hpart
  | cons rule rules ih =>
    rw [refreshList] at hpart
    rcases List.mem_cons.mp hpart with rfl | hpart
    · exact ⟨rule, List.mem_cons_self, next, h, rfl⟩
    · obtain ⟨rule', hrule', hlater⟩ := ih (bound_le_refresh rule h) hpart
      exact ⟨rule', List.mem_cons_of_mem rule hrule', hlater⟩

/-! ## Nothing but identities changes -/

section

variable {f : RuleId → RuleId}

/-- Under the renaming the new identities of the rule look like the old ones. -/
def Undone (supply : Supply) (f : RuleId → RuleId) (rule : Rule) : Prop :=
  ∀ next, supply.bound ≤ next → (refresh supply rule next).1.rename f = rule.rename f

theorem rename_refreshList {rules : List Rule} (hrules : ∀ rule ∈ rules, Undone supply f rule)
    (h : supply.bound ≤ next) :
    Rule.renameList f (refreshList supply rules next).1 = Rule.renameList f rules := by
  induction rules generalizing next with
  | nil => rfl
  | cons rule rules ih =>
    obtain ⟨hrule, hrules⟩ := List.forall_mem_cons.mp hrules
    rw [refreshList, Rule.renameList, Rule.renameList, hrule next h, ih hrules (bound_le_refresh rule h)]

mutual

theorem rename_refreshPattern : (p : Pattern Rule) → (∀ rule ∈ p.captures, Undone supply f rule) →
    (next : RuleId) → supply.bound ≤ next →
    Rule.renamePattern f (refreshPattern supply p next).1 = Rule.renamePattern f p
  | .capture p rule, hrules, next, h => by
    rw [Pattern.captures, List.forall_mem_cons] at hrules
    rw [refreshPattern, Rule.renamePattern, Rule.renamePattern, hrules.1 next h,
      rename_refreshPattern p hrules.2 _ (bound_le_refresh rule h)]
  | .alt ps, hrules, next, h => by
    rw [refreshPattern, Rule.renamePattern, Rule.renamePattern, rename_refreshPatterns ps hrules next h]
  | .seq ps, hrules, next, h => by
    rw [refreshPattern, Rule.renamePattern, Rule.renamePattern, rename_refreshPatterns ps hrules next h]
  | .rep p _ _, hrules, next, h => by
    rw [refreshPattern, Rule.renamePattern, Rule.renamePattern, rename_refreshPattern p hrules next h]
  | .look _ _ p, hrules, next, h => by
    rw [refreshPattern, Rule.renamePattern, Rule.renamePattern, rename_refreshPattern p hrules next h]
  | .set _ _, _, _, _ => rfl
  | .range _ _ _, _, _, _ => rfl
  | .any, _, _, _ => rfl
  | .literal _, _, _, _ => rfl
  | .lineStart, _, _, _ => rfl
  | .lineEnd, _, _, _ => rfl

theorem rename_refreshPatterns : (ps : List (Pattern Rule)) →
    (∀ rule ∈ Pattern.capturesAll ps, Undone supply f rule) → (next : RuleId) → supply.bound ≤ next →
    Rule.renamePatterns f (refreshPatterns supply ps next).1 = Rule.renamePatterns f ps
  | [], _, _, _ => rfl
  | p :: ps, hrules, next, h => by
    rw [Pattern.capturesAll, List.forall_mem_append] at hrules
    rw [refreshPatterns, Rule.renamePatterns, Rule.renamePatterns,
      rename_refreshPattern p hrules.1 next h,
      rename_refreshPatterns ps hrules.2 _ (bound_le_refreshPattern p h)]

end

theorem rename_refreshTrigger (trigger : Trigger Rule)
    (hrules : ∀ p ∈ triggerPatterns trigger, ∀ rule ∈ p.captures, Undone supply f rule)
    (h : supply.bound ≤ next) :
    Rule.renameTrigger f (refreshTrigger supply trigger next).1 = Rule.renameTrigger f trigger := by
  cases trigger with
  | always => rfl
  | matching condition =>
    rw [refreshTrigger, Rule.renameTrigger, Rule.renameTrigger,
      rename_refreshPattern condition (hrules condition (by simp [triggerPatterns])) next h]
  | between opening closing =>
    rw [refreshTrigger, Rule.renameTrigger, Rule.renameTrigger,
      rename_refreshPattern opening (hrules opening (by simp [triggerPatterns])) next h,
      rename_refreshPattern closing (hrules closing (by simp [triggerPatterns])) _
        (bound_le_refreshPattern opening h)]

/-- A renaming that does not tell new identities from those of rules without a name undoes the change. -/
theorem undone (hf : ∀ id next, supply.start? id = none → supply.bound ≤ next → f next = f id)
    (rule : Rule) : Undone supply f rule := by
  induction rule using induction_on_parts with
  | step rule ihinner ihcapture =>
    intro next h
    have hlabel : f (supply.label rule.id next) = f rule.id := by
      rw [Supply.label]
      cases hstart : supply.start? rule.id with
      | none => exact hf rule.id next hstart h
      | some first => rfl
    cases rule with
    | reference id name =>
      rw [refresh, Rule.rename, Rule.rename]
      exact congrArg (Rule.reference · name) hlabel
    | body id scope trigger inner =>
      have hinside := Supply.bound_le_inside id h
      have htrigger := rename_refreshTrigger trigger
        (fun p hp rule hrule => ihcapture rule (List.mem_flatMap.mpr ⟨p, hp, hrule⟩)) hinside
      have hinner : Rule.renameList f (refreshList supply inner _).1 = Rule.renameList f inner :=
        rename_refreshList ihinner (bound_le_refreshTrigger trigger hinside)
      rw [refresh, Rule.rename, Rule.rename, htrigger, hinner]
      exact congrArg (Rule.body · scope _ _) hlabel

end

end TextMate.Document
