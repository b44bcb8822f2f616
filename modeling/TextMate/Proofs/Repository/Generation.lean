import Mathlib.Algebra.Group.Nat.Defs
import Mathlib.Data.List.Nodup
import Mathlib.Data.List.Perm.Subperm
import Mathlib.Data.Nat.Find
import TextMate.Proofs.Numeral
import TextMate.Proofs.Repository.Registration

/-!
# Generated names

A name is generated by drawing values from the counter until one has a name that is free. `Draws` is this
loop, draw by draw and without a limit on their number. It ends all the same: there are only so many entries,
different values have different names, and so one of the first `r.size + 1` values has a name that no entry
has, `exists_free`.

What a caller sees of it is in `registerFresh_finds`: the value that is drawn, the result of the call, and
that over any run of calls the generated names differ from each other.
-/

namespace TextMate.Repository

open Numeral (render)

variable {r : Repository}

/-! ## Drawing values -/

/-- From `counter` on, values are drawn until one has a name that is free: `draws` of them, and `chosen` is
the last. Each draw moves the counter past its value, and none moves it to the bound. -/
inductive Draws (r : Repository) : (counter draws chosen : Nat) → Prop
  | free {counter : Nat} : counter + 1 < counterBound → r.contains (render counter) = false →
      Draws r counter 1 counter
  | taken {counter draws chosen : Nat} : counter + 1 < counterBound →
      r.contains (render counter) = true → Draws r (counter + 1) draws chosen →
      Draws r counter (draws + 1) chosen

/-- What the loop finds, a search with enough draws finds. -/
theorem Draws.firstFree {counter draws chosen : Nat} (h : r.Draws counter draws chosen) {limit : Nat}
    (hlimit : draws ≤ limit) : r.firstFree limit counter = some chosen := by
  induction h generalizing limit with
  | free hbound hfree =>
    obtain ⟨limit, rfl⟩ := Nat.exists_eq_add_of_le' hlimit
    rw [Repository.firstFree, if_pos hbound, hfree]
    rfl
  | taken hbound htaken _ ih =>
    obtain ⟨limit, rfl⟩ := Nat.exists_eq_add_of_le' (Nat.le_trans (Nat.le_add_left 1 _) hlimit)
    rw [Repository.firstFree, if_pos hbound, if_pos htaken]
    exact ih (Nat.le_of_succ_le_succ hlimit)

/-- The loop passes over the values with taken names and stops at the first one without. -/
theorem draws_of_taken {counter d : Nat} (hbound : counter + d + 1 < counterBound)
    (htaken : ∀ n, counter ≤ n → n < counter + d → r.contains (render n) = true)
    (hfree : r.contains (render (counter + d)) = false) : r.Draws counter (d + 1) (counter + d) := by
  induction d generalizing counter with
  | zero => exact .free hbound hfree
  | succ d ih =>
    have hnext : counter + (d + 1) = counter + 1 + d := by omega
    rw [hnext] at hbound htaken hfree ⊢
    apply Draws.taken
    · omega
    · exact htaken counter (Nat.le_refl counter) (by omega)
    · apply ih hbound ?_ hfree
      intro n hle hlt
      exact htaken n (by omega) hlt

/-! ## A free name among the next ones -/

theorem Reachable.contains_eq_false_iff (hr : r.Reachable) (name : String) :
    r.contains name = false ↔ ∀ entry ∈ r.entries, entry.name ≠ name := by
  rw [← Bool.not_eq_true, hr.contains_iff]
  simp

/-- Of more values in a row than there are entries, one has a free name. -/
theorem exists_free (hr : r.Reachable) (counter : Nat) :
    ∃ n, counter ≤ n ∧ n ≤ counter + r.size ∧ r.contains (render n) = false := by
  by_contra hnone
  have htaken : ∀ n, counter ≤ n → n ≤ counter + r.size → r.contains (render n) = true := by
    intro n hle hsize
    by_contra hfree
    exact hnone ⟨n, hle, hsize, by simpa using hfree⟩
  -- the names would all be different and all be names of entries
  have hnodup : ((List.range' counter (r.size + 1)).map render).Nodup :=
    List.Nodup.map (fun _ _ h => Numeral.render_injective h) List.nodup_range'
  have hsubset : (List.range' counter (r.size + 1)).map render ⊆ r.entries.toList.map (·.name) := by
    intro name hname
    obtain ⟨n, hn, rfl⟩ := List.mem_map.mp hname
    rw [List.mem_range'_1] at hn
    obtain ⟨entry, hentry, heq⟩ := (hr.contains_iff _).mp (htaken n hn.1 (by omega))
    exact List.mem_map.mpr ⟨entry, Array.mem_toList_iff.mpr hentry, heq⟩
  have hlength := (hnodup.subperm hsubset).length_le
  rw [List.length_map, List.length_map, List.length_range', Array.length_toList] at hlength
  exact Nat.not_succ_le_self _ hlength

/-- The least value from the counter on whose name no entry has. -/
structure NextFree (r : Repository) (c : Nat) : Prop where
  counter_le : r.nextName ≤ c
  free : ∀ entry ∈ r.entries, entry.name ≠ render c
  taken : ∀ n, r.nextName ≤ n → n < c → ∃ entry ∈ r.entries, entry.name = render n

theorem exists_nextFree (hr : r.Reachable) : ∃ c, r.NextFree c ∧ c ≤ r.nextName + r.size := by
  have hexists : ∃ n, r.nextName ≤ n ∧ r.contains (render n) = false := by
    obtain ⟨n, hle, -, hfree⟩ := exists_free hr r.nextName
    exact ⟨n, hle, hfree⟩
  obtain ⟨hle, hfree⟩ := Nat.find_spec hexists
  refine ⟨Nat.find hexists, ⟨hle, (hr.contains_eq_false_iff _).mp hfree, ?_⟩, ?_⟩
  · intro n hn hlt
    rw [← hr.contains_iff, ← Bool.not_eq_false]
    intro hnfree
    exact Nat.find_min hexists hlt ⟨hn, hnfree⟩
  · obtain ⟨n, hn, hsize, hnfree⟩ := exists_free hr r.nextName
    exact Nat.le_trans (Nat.find_min' hexists ⟨hn, hnfree⟩) hsize

/-- The loop ends at the next free value, as long as the counter has room for it. -/
theorem NextFree.draws (hr : r.Reachable) {c : Nat} (h : r.NextFree c) (hbound : c + 1 < counterBound) :
    r.Draws r.nextName (c - r.nextName + 1) c := by
  obtain ⟨d, rfl⟩ := Nat.exists_eq_add_of_le h.counter_le
  rw [Nat.add_sub_cancel_left]
  apply draws_of_taken hbound
  · intro n hle hlt
    exact (hr.contains_iff _).mpr (h.taken n hle hlt)
  · exact (hr.contains_eq_false_iff _).mpr h.free

/-! ## What the call does -/

/-- A generated name is neither empty nor taken, so only the rule can be the reason for a refusal. -/
theorem refusal?_render_cases {c : Nat} (hfree : r.contains (render c) = false) {rule : Rule}
    {e : Rule.Error} (h : r.refusal? (render c) rule = some e) :
    (∃ existing, r.nameOf? rule = some existing ∧ e = .alreadyRegistered existing) ∨
      (rule.isReference = true ∧ e = .referenceHasNoBody (render c)) := by
  have hname : (render c).isEmpty = false := by
    simpa using Numeral.render_ne_empty c
  rw [refusal?, hname, hfree] at h
  cases hrule : r.nameOf? rule <;> grind

theorem registerFresh_eq {c : Nat} (hfirst : r.firstFree (r.size + 1) r.nextName = some c) (rule : Rule) :
    r.registerFresh rule =
      match r.refusal? (render c) rule with
      | some e => ({ r with nextName := c + 1 }, .error e)
      | none => (({ r with nextName := c + 1 } : Repository).insert (render c) rule, .ok (render c)) := by
  rw [registerFresh, hfirst]
  rfl

/-- The call and the value that it draws: the counter moves past the value, and the rule is registered under
its name unless the rule is refused. -/
structure RegistersAs (r : Repository) (rule : Rule) (c : Nat) : Prop where
  nextName_eq : (r.registerFresh rule).1.nextName = c + 1
  ok_iff : ∀ name, (r.registerFresh rule).2 = .ok name ↔
    name = render c ∧ (∀ entry ∈ r.entries, entry.rule.id ≠ rule.id) ∧ rule.isReference = false
  addsEntry : ∀ name, (r.registerFresh rule).2 = .ok name →
    AddsEntry (render c) rule { r with nextName := c + 1 } (r.registerFresh rule).1
  unchanged : ∀ e, (r.registerFresh rule).2 = .error e →
    (r.registerFresh rule).1 = { r with nextName := c + 1 }
  error_cases : ∀ e, (r.registerFresh rule).2 = .error e →
    (∃ entry ∈ r.entries, entry.rule.id = rule.id ∧ e = .alreadyRegistered entry.name) ∨
      e = .referenceHasNoBody (render c)

theorem registersAs (hr : r.Reachable) {c : Nat}
    (hfirst : r.firstFree (r.size + 1) r.nextName = some c) (hfree : r.contains (render c) = false)
    (rule : Rule) : r.RegistersAs rule c := by
  have hcall := registerFresh_eq hfirst rule
  have hunnamed := hr.coherent.nameOf?_eq_none_iff rule
  have haccepted : r.refusal? (render c) rule = none ↔
      (∀ entry ∈ r.entries, entry.rule.id ≠ rule.id) ∧ rule.isReference = false := by
    rw [refusal?_eq_none_iff, hunnamed]
    simp only [Numeral.render_ne_empty, hfree, ne_eq, not_false_eq_true, true_and]
  cases hrefusal : r.refusal? (render c) rule with
  | some e =>
    rw [hrefusal] at hcall haccepted
    refine ⟨by rw [hcall], ?_, ?_, fun e' _ => by rw [hcall], ?_⟩
    · intro name
      rw [← haccepted, hcall]
      simp
    · intro name hok
      rw [hcall] at hok
      cases hok
    · intro e' he'
      rw [hcall] at he'
      cases he'
      rcases refusal?_render_cases hfree hrefusal with ⟨existing, hname, rfl⟩ | ⟨-, rfl⟩
      · obtain ⟨entry, hentry, hid, rfl⟩ := (hr.coherent.nameOf?_eq_some_iff rule existing).mp hname
        exact .inl ⟨entry, hentry, hid, rfl⟩
      · exact .inr rfl
  | none =>
    have hadds := (hr.coherent.advance (c + 1)).addsEntry hrefusal
    rw [hrefusal] at hcall haccepted
    refine ⟨by rw [hcall]; exact hadds.nextName_eq, ?_, fun name _ => by rw [hcall]; exact hadds, ?_, ?_⟩
    · intro name
      rw [← haccepted, hcall, Except.ok.injEq]
      simp [eq_comm]
    · intro e he
      rw [hcall] at he
      cases he
    · intro e he
      rw [hcall] at he
      cases he

/-! ## Runs -/

/-- What a call returns if it generates a name: the counter after the call, and the name. -/
def generated? (r : Repository) : Registration → Option (Nat × String)
  | .named _ _ => none
  | .generated rule =>
    match r.registerFresh rule with
    | (r', .ok name) => some (r'.nextName, name)
    | (_, .error _) => none

/-- What some calls return that generate names, in the order of the calls. -/
def generatedAll (r : Repository) : List Registration → List (Nat × String)
  | [] => []
  | call :: calls => (r.generated? call).toList ++ (r.attempt call).generatedAll calls

theorem le_of_firstFree {draws counter c : Nat} (h : r.firstFree draws counter = some c) :
    counter ≤ c := by
  fun_induction r.firstFree draws counter with
  | case1 => cases h
  | case2 draws counter hbound htaken ih => exact Nat.le_of_succ_le (ih h)
  | case3 draws counter hbound hfree => exact Nat.le_of_eq (Option.some.inj h)
  | case4 => cases h

/-- A call never moves the counter back, and a name that it generates is the one of a value that the counter
has not passed before. -/
theorem generated?_cases (r : Repository) (call : Registration) :
    (r.generated? call = none ∧ r.nextName ≤ (r.attempt call).nextName) ∨
    ∃ c, r.generated? call = some (c + 1, render c) ∧ r.nextName ≤ c ∧
      (r.attempt call).nextName = c + 1 := by
  cases call with
  | named name rule =>
    left
    refine ⟨rfl, Nat.le_of_eq ?_⟩
    rw [attempt, register]
    cases r.refusal? name rule <;> rfl
  | generated rule =>
    cases hfirst : r.firstFree (r.size + 1) r.nextName with
    | none =>
      left
      simp [generated?, attempt, registerFresh, hfirst]
    | some c =>
      have hle := le_of_firstFree hfirst
      have hcall := registerFresh_eq hfirst rule
      cases hrefusal : r.refusal? (render c) rule with
      | some e =>
        left
        rw [hrefusal] at hcall
        simp only [generated?, attempt, hcall, true_and]
        exact Nat.le_succ_of_le hle
      | none =>
        right
        rw [hrefusal] at hcall
        refine ⟨c, ?_, hle, ?_⟩
        · simp only [generated?, hcall]
          rfl
        · simp only [attempt, hcall]
          rfl

/-- Whatever calls are made, the values behind the generated names go up, from the counter on. -/
theorem exists_counters (r : Repository) (calls : List Registration) :
    ∃ counters : List Nat, r.generatedAll calls = counters.map (fun c => (c + 1, render c)) ∧
      counters.Pairwise (· < ·) ∧ ∀ c ∈ counters, r.nextName ≤ c := by
  induction calls generalizing r with
  | nil => exact ⟨[], rfl, .nil, by simp⟩
  | cons call calls ih =>
    obtain ⟨counters, hall, hpairwise, hbound⟩ := ih (r.attempt call)
    rw [generatedAll, hall]
    rcases generated?_cases r call with ⟨hnone, hle⟩ | ⟨c, hsome, hle, hnext⟩
    · refine ⟨counters, by rw [hnone]; rfl, hpairwise, ?_⟩
      intro c hc
      exact Nat.le_trans hle (hbound c hc)
    · rw [hnext] at hbound
      refine ⟨c :: counters, by rw [hsome]; rfl, List.pairwise_cons.mpr ⟨hbound, hpairwise⟩, ?_⟩
      intro c' hc'
      rcases List.mem_cons.mp hc' with rfl | hmem
      · exact hle
      · exact Nat.le_trans (Nat.le_succ_of_le hle) (hbound c' hmem)

/-- If the counter and the entries leave room below the bound, the next free name is found within one more
draw than there are entries. The call gives that name to the rule, unless the rule has an entry or is a
reference, and then changes the counter only. Over any run of calls the generated names belong to values
that go up, and so differ from each other. -/
theorem registerFresh_finds (r : Repository) (hr : r.Reachable)
    (hroom : r.nextName + r.size < 2 ^ 64 - 1) (rule : Rule) :
    (∃ c draws, r.Draws r.nextName draws c ∧ draws ≤ r.size + 1 ∧ r.NextFree c ∧
      r.RegistersAs rule c) ∧
    ∀ calls : List Registration,
      (∃ counters : List Nat, generatedAll {} calls = counters.map (fun c => (c + 1, render c)) ∧
        counters.Pairwise (· < ·)) ∧
      ((generatedAll {} calls).map (·.2)).Nodup := by
  refine ⟨?_, ?_⟩
  · obtain ⟨c, hnext, hle⟩ := exists_nextFree hr
    have hdraws := hnext.draws hr (show c + 1 < 2 ^ 64 by omega)
    have hcount : c - r.nextName + 1 ≤ r.size + 1 := by omega
    have hfree := (hr.contains_eq_false_iff _).mpr hnext.free
    exact ⟨c, _, hdraws, hcount, hnext, registersAs hr (hdraws.firstFree hcount) hfree rule⟩
  · intro calls
    obtain ⟨counters, hall, hpairwise, -⟩ := exists_counters {} calls
    refine ⟨⟨counters, hall, hpairwise⟩, ?_⟩
    have hnodup : (counters.map render).Nodup :=
      (hpairwise.imp Nat.ne_of_lt).map render fun _ _ hne h => hne (Numeral.render_injective h)
    rw [hall, List.map_map]
    exact hnodup

/-- A repository with the first two generated names given to rules by hand. -/
def handNamed : Repository :=
  insert (insert {} "B" (.body 1 none .always [])) "A" (.body 2 none .always [])

theorem reachable_handNamed : handNamed.Reachable :=
  (Reachable.empty.insert (by decide +kernel)).insert (by decide +kernel)

/-- The third draw finds a name, and the rule that has an entry already moves the counter only. -/
theorem registerFresh_finds_handNamed :
    handNamed.Reachable ∧ handNamed.nextName + handNamed.size < 2 ^ 64 - 1 ∧
    (∃ draws, handNamed.Draws 0 draws 2 ∧ draws ≤ 3) ∧
    (handNamed.registerFresh (.body 3 none .always [])).2 = .ok "C" ∧
    (handNamed.registerFresh (.body 2 none .always [])).1 = { handNamed with nextName := 3 } := by
  have hroom : handNamed.nextName + handNamed.size < 2 ^ 64 - 1 := by decide +kernel
  obtain ⟨⟨c, draws, hdraws, hcount, -, hnew⟩, -⟩ :=
    registerFresh_finds handNamed reachable_handNamed hroom (.body 3 none .always [])
  obtain ⟨⟨c', -, -, -, -, hold⟩, -⟩ :=
    registerFresh_finds handNamed reachable_handNamed hroom (.body 2 none .always [])
  -- the counter after the calls tells which value has been drawn
  have hcounter : (handNamed.registerFresh (.body 3 none .always [])).1.nextName = 3 := by decide +kernel
  have hcounter' : (handNamed.registerFresh (.body 2 none .always [])).1.nextName = 3 := by decide +kernel
  have hc : c = 2 := Nat.succ.inj (hnew.nextName_eq.symm.trans hcounter)
  have hc' : c' = 2 := Nat.succ.inj (hold.nextName_eq.symm.trans hcounter')
  subst hc hc'
  refine ⟨reachable_handNamed, hroom, ⟨draws, hdraws, hcount⟩, ?_, ?_⟩
  · refine (hnew.ok_iff "C").mpr ⟨by decide +kernel, ?_, rfl⟩
    simp [handNamed, insert, Rule.id]
  · exact hold.unchanged (.alreadyRegistered "A") (by decide +kernel)

end TextMate.Repository
