import Mathlib.Data.List.Nodup
import Mathlib.Order.Bounds.Defs
import TextMate.Proofs.Pattern.Constructible

/-!
# Sets that name a character twice

A constructor of sets goes through the characters of a string and stops at the first one that it has seen
before. `EarliestRepeat` says which one this is without any order of going through: its index is the least
that repeats a character, and the index reported with it is the least that holds this character.
`oneOf_noneOf_exact` says that both constructors accept just the strings without repetitions and report
this repeat otherwise.
-/

namespace TextMate.Pattern

variable {α : Type}

/-- The character at an index stands at a smaller index too. -/
def RepeatsAt (cs : List Char) (k : Nat) : Prop :=
  ∃ j < k, ∃ c, cs[j]? = some c ∧ cs[k]? = some c

/-- `second` is the first index of a character that has been there before, which is `member`, and `first` is
the first index of `member`. -/
structure EarliestRepeat (cs : List Char) (member : Char) (first second : Nat) : Prop where
  second_least : IsLeast {k | RepeatsAt cs k} second
  member_second : cs[second]? = some member
  first_least : IsLeast {j | cs[j]? = some member} first
  first_lt_second : first < second
  nodup_before : (cs.take second).Nodup

/-- What a constructor of sets does with every string. -/
structure ChecksSets (polarity : Polarity) (build : String → Except Error (Pattern α)) : Prop where
  ok_iff : ∀ members p, build members = .ok p ↔
    p = .set polarity members ∧ members ≠ "" ∧ members.toList.Nodup
  empty : build "" = .error .emptySet
  repeated : ∀ members, members ≠ "" → ¬ members.toList.Nodup →
    ∃ member first second, build members = .error (.duplicateMember member first second) ∧
      EarliestRepeat members.toList member first second

/-! ## Finding the repeat -/

/-- What is found is a character that stands in front already, where all characters are distinct. -/
theorem findRepeat_eq_some {seen rest : List Char} {member : Char} {first second : Nat}
    (hseen : seen.Nodup) (h : findRepeat seen rest = some (member, first, second)) :
    ∃ before after, seen ++ rest = before ++ member :: after ∧ before.Nodup ∧
      before.idxOf? member = some first ∧ second = before.length := by
  induction rest generalizing seen with
  | nil => cases h
  | cons c rest ih =>
    rw [findRepeat] at h
    cases hc : seen.idxOf? c with
    | some index =>
      rw [hc] at h
      cases h
      exact ⟨seen, rest, rfl, hseen, hc, rfl⟩
    | none =>
      -- `c` is new, so the characters seen stay distinct
      rw [hc] at h
      have hfresh : c ∉ seen := List.idxOf?_eq_none_iff.mp hc
      have hseen' : (seen ++ [c]).Nodup := by
        apply List.nodup_append.mpr
        refine ⟨hseen, List.nodup_singleton c, ?_⟩
        intro d hd e he
        rw [List.mem_singleton.mp he]
        rintro rfl
        exact hfresh hd
      have hfound := ih hseen' h
      rwa [List.append_assoc] at hfound

/-- A character that stands among distinct ones already is the earliest repeat. -/
theorem earliestRepeat_of_split {before after : List Char} {member : Char} {first : Nat}
    (hnodup : before.Nodup) (hfirst : before.idxOf? member = some first) :
    EarliestRepeat (before ++ member :: after) member first before.length := by
  obtain ⟨hlt, hmember, hbelow⟩ := List.idxOf?_eq_some_iff.mp hfirst
  have hbefore : ∀ j < before.length, (before ++ member :: after)[j]? = before[j]? :=
    fun j hj => List.getElem?_append_left hj
  have hat_first : (before ++ member :: after)[first]? = some member := by
    rw [hbefore first hlt, List.getElem?_eq_getElem hlt, hmember]
  have hat_second : (before ++ member :: after)[before.length]? = some member := by
    simp
  refine ⟨⟨⟨first, hlt, member, hat_first, hat_second⟩, ?_⟩, hat_second, ⟨hat_first, ?_⟩, hlt, ?_⟩
  · -- no index in front of `member` repeats a character, since those in front are distinct
    rintro k ⟨j, hjk, c, hj, hk⟩
    by_contra hlt'
    rw [hbefore j (by omega)] at hj
    rw [hbefore k (by omega)] at hk
    exact List.nodup_iff_getElem?_ne_getElem?.mp hnodup j k hjk (by omega) (hj.trans hk.symm)
  · intro j hj
    by_contra hlt'
    have hjlt : j < before.length := by omega
    have hget : before[j]? = some member := (hbefore j hjlt).symm.trans hj
    rw [List.getElem?_eq_getElem hjlt] at hget
    exact hbelow j (by omega) (Option.some.inj hget)
  · rw [List.take_left]
    exact hnodup

/-! ## The check -/

/-- A string that is refused for a repetition is refused for the earliest one. -/
theorem checkSet_of_not_nodup {members : String} (hne : members ≠ "") (hnodup : ¬ members.toList.Nodup) :
    ∃ member first second, checkSet members = .error (.duplicateMember member first second) ∧
      EarliestRepeat members.toList member first second := by
  cases hfind : findRepeat [] members.toList with
  | none => exact absurd (findRepeat_eq_none_iff.mp hfind).1 hnodup
  | some found =>
    obtain ⟨member, first, second⟩ := found
    obtain ⟨before, after, hsplit, hbefore, hfirst, rfl⟩ := findRepeat_eq_some List.nodup_nil hfind
    rw [List.nil_append] at hsplit
    refine ⟨member, first, before.length, ?_, ?_⟩
    · simp [checkSet, hne, hfind]
    · rw [hsplit]
      exact earliestRepeat_of_split hbefore hfirst

/-- A constructor that makes the check and then keeps the string. -/
theorem checksSets_of_check (polarity : Polarity) :
    ChecksSets polarity fun members => (do checkSet members; return (.set polarity members : Pattern α)) := by
  constructor
  · intro members p
    constructor
    · intro h
      obtain ⟨hcheck, rfl⟩ := ok_of_check h
      obtain ⟨hne, hnodup⟩ := checkSet_eq_ok_iff.mp hcheck
      exact ⟨rfl, by simpa using hne, hnodup⟩
    · rintro ⟨rfl, hne, hnodup⟩
      have hcheck := checkSet_eq_ok_iff.mpr ⟨by simpa using hne, hnodup⟩
      simp only [hcheck]
      rfl
  · rfl
  · intro members hne hnodup
    obtain ⟨member, first, second, h, hrepeat⟩ := checkSet_of_not_nodup hne hnodup
    refine ⟨member, first, second, ?_, hrepeat⟩
    simp only [h]
    rfl

/-- Both constructors of sets accept a string, and keep it, if and only if it is not empty and has no
character twice, and report its earliest repeat if it has one. -/
theorem oneOf_noneOf_exact :
    ChecksSets .positive (oneOf : String → Except Error (Pattern α)) ∧
    ChecksSets .negated (noneOf : String → Except Error (Pattern α)) :=
  ⟨checksSets_of_check .positive, checksSets_of_check .negated⟩

-- Of two repeats the one that is complete first is reported, in characters and not in bytes.
example : (oneOf "déjàédj" : Except Error (Pattern Unit)) = .error (.duplicateMember 'é' 1 4) := by
  rfl

end TextMate.Pattern
