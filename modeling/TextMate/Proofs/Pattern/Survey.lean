import TextMate.Pattern.Regex

/-!
# Surveys

`Pattern.writeRegex` looks for the class of an alternation and writes the class. The same can be done in two
passes that build no class: the first surveys the alternatives for a polarity that all of them have, and the
second writes the members of the alternatives between brackets. The second pass has nothing to write for a
pattern that is neither a set nor a range nor an alternation, and fails with that pattern.

`emitRegex` and `emitUnit` work in this way. They never fail, whatever the pattern is, since a survey that
finds a polarity has seen nothing but classes; and they write what `writeRegex` and `writeUnit` write:

    emitRegex_eq_ok : p.emitRegex out = .ok (p.writeRegex out)
-/

namespace TextMate.Pattern

open Regex

variable {σ α : Type}

/-! ## The first pass -/

mutual

/-- The polarity of a set or a range, or of all the members of an alternation. -/
def polarity? : Pattern α → Option Polarity
  | .set polarity _ | .range polarity _ _ => some polarity
  | .alt ps => surveyFrom none ps
  | .any | .literal _ | .lineStart | .lineEnd | .seq _ | .rep _ _ _ | .look _ _ _ | .capture _ _ => none

/-- The polarity of all the patterns, if it is also the one that has been seen before them. -/
def surveyFrom (seen : Option Polarity) : List (Pattern α) → Option Polarity
  | [] => seen
  | p :: ps => do
    let current ← polarity? p
    if seen.all (· = current) then surveyFrom (some current) ps else none

end

/-- The polarity of all the alternatives. -/
def survey (ps : List (Pattern α)) : Option Polarity :=
  surveyFrom none ps

/-- A sequence, or an alternation whose survey finds no polarity. -/
def needsGroup : Pattern α → Bool
  | .seq _ => true
  | .alt ps => (survey ps).isNone
  | _ => false

/-- A quantifier after the pattern would apply to a part of it only. -/
def operandNeedsGroup : Pattern α → Bool
  | .literal text => text.length != 1
  | .rep _ _ _ => true
  | p => needsGroup p

/-- An alternation. -/
def isAlt : Pattern α → Bool
  | .alt _ => true
  | _ => false

/-! ## The second pass -/

section

variable [Sink σ]

/-- Write the members of a set. -/
def classSet (out : Output σ α) (members : String) : Output σ α :=
  members.toList.foldl (Output.escaped classSpecials) out

/-- Write the bounds of a range. -/
def classRange (out : Output σ α) (first last : Char) : Output σ α :=
  ((out.escaped classSpecials first).push '-').escaped classSpecials last

/-- Open a bracket. -/
def openClass (out : Output σ α) : Polarity → Output σ α
  | .positive => out.push '['
  | .negated => out.append "[^"

mutual

/-- Write what one alternative contributes to a bracket. -/
def emitClassMember : Pattern α → Output σ α → Except (Pattern α) (Output σ α)
  | .set _ members, out => .ok (classSet out members)
  | .range _ first last, out => .ok (classRange out first last)
  | .alt ps, out => emitClassMembers ps out
  | p, _ => .error p

/-- Write what some alternatives contribute to a bracket. -/
def emitClassMembers : List (Pattern α) → Output σ α → Except (Pattern α) (Output σ α)
  | [], out => .ok out
  | p :: ps, out => do
    let out ← emitClassMember p out
    emitClassMembers ps out

end

/-! ## Both passes -/

/-- Emit with `emit`, inside a group that captures nothing if `needed`. -/
def emitGrouped (needed : Bool) (emit : Output σ α → Except (Pattern α) (Output σ α))
    (out : Output σ α) : Except (Pattern α) (Output σ α) :=
  if needed then do
    let out ← emit (out.append "(?:")
    return out.push ')'
  else
    emit out

mutual

/-- Emit the pattern as a regular expression. -/
def emitRegex : Pattern α → Output σ α → Except (Pattern α) (Output σ α)
  | .set polarity members, out =>
    match polarity, members.toList with
    | .positive, [c] => .ok (out.literal [c])
    | _, _ => .ok ((classSet (openClass out polarity) members).push ']')
  | .range polarity first last, out =>
    .ok ((classRange (openClass out polarity) first last).push ']')
  | .any, out => .ok (out.push '.')
  | .literal text, out => .ok (out.literal text.toList)
  | .lineStart, out => .ok (out.push '^')
  | .lineEnd, out => .ok (out.push '$')
  | .alt ps, out =>
    match survey ps with
    | some polarity => do
      let out ← emitClassMembers ps (openClass out polarity)
      return out.push ']'
    | none => emitAlternatives true ps out
  | .seq ps, out => emitMembers ps out
  | .rep body min max, out => do
    let out ← emitGrouped body.operandNeedsGroup (emitRegex body) out
    return out.quantifier min max
  | .look side polarity body, out => do
    let out ← emitRegex body (out.look side polarity)
    return out.push ')'
  | .capture body label, out => do
    let out ← emitRegex body ((out.label label).push '(')
    return out.push ')'

/-- Emit alternatives, each after a bar except the first one. -/
def emitAlternatives (first : Bool) : List (Pattern α) → Output σ α → Except (Pattern α) (Output σ α)
  | [], out => .ok out
  | p :: ps, out => do
    let out := if first then out else out.push '|'
    let out ← emitGrouped (!p.isAlt && p.needsGroup) (emitRegex p) out
    emitAlternatives false ps out

/-- Emit the members of a sequence one after the other. -/
def emitMembers : List (Pattern α) → Output σ α → Except (Pattern α) (Output σ α)
  | [], out => .ok out
  | p :: ps, out => do
    let out ← emitGrouped (!p.isSeq && p.needsGroup) (emitRegex p) out
    emitMembers ps out

end

/-- Emit the pattern so that text on either side stays apart from it. -/
def emitUnit (p : Pattern α) (out : Output σ α) : Except (Pattern α) (Output σ α) :=
  emitGrouped p.needsGroup (emitRegex p) out

end

/-! ## What a survey finds -/

/-- The polarity of a class, if no other has been seen before it. -/
def agreed? (seen : Option Polarity) (c : CharClass) : Option Polarity :=
  if seen.all (· = c.polarity) then some c.polarity else none

mutual

/-- The classes are the patterns with a polarity. -/
theorem polarity?_eq : (p : Pattern α) → p.polarity? = p.charClass?.map (·.polarity)
  | .set _ _ => rfl
  | .range _ _ _ => rfl
  | .alt ps => by
    rw [polarity?, charClass?]
    cases ps with
    | nil => rfl
    | cons p ps =>
      rw [surveyFrom_eq (p :: ps) (List.cons_ne_nil p ps) none]
      cases mergedClass? (p :: ps) <;> rfl
  | .any => rfl
  | .literal _ => rfl
  | .lineStart => rfl
  | .lineEnd => rfl
  | .seq _ => rfl
  | .rep _ _ _ => rfl
  | .look _ _ _ => rfl
  | .capture _ _ => rfl

/-- A survey finds the polarity of the merged class. -/
theorem surveyFrom_eq : (ps : List (Pattern α)) → ps ≠ [] → (seen : Option Polarity) →
    surveyFrom seen ps = (mergedClass? ps).bind (agreed? seen)
  | [], hne, _ => absurd rfl hne
  | [p], _, seen => by
    rw [surveyFrom, polarity?_eq p, mergedClass?]
    cases p.charClass? with
    | none => rfl
    | some c => rfl
  | p :: q :: ps, _, seen => by
    rw [surveyFrom, polarity?_eq p, mergedClass?]
    cases p.charClass? with
    | none => rfl
    | some c =>
      -- what comes later is merged only if it has the polarity of this class
      have hrest := surveyFrom_eq (q :: ps) (List.cons_ne_nil q ps) (some c.polarity)
      simp only [Option.map_some, Option.bind_eq_bind, Option.bind_some, hrest]
      cases mergedClass? (q :: ps) with
      | none => simp
      | some c' => by_cases h : c.polarity = c'.polarity <;> simp [agreed?, CharClass.merge?, h]

end

theorem survey_eq (ps : List (Pattern α)) : survey ps = (mergedClass? ps).map (·.polarity) :=
  polarity?_eq (.alt ps)

theorem needsGroup_eq (p : Pattern α) : p.needsGroup = p.isLoose := by
  cases p with
  | alt ps => simp [needsGroup, isLoose, isSeq, isOpenAlt, survey_eq]
  | seq ps => rfl
  | _ => rfl

/-- An alternation inside an alternation needs no group. -/
theorem not_isAlt_and_needsGroup (p : Pattern α) : (!p.isAlt && p.needsGroup) = p.isSeq := by
  cases p <;> rfl

/-- A sequence inside a sequence needs no group. -/
theorem not_isSeq_and_needsGroup (p : Pattern α) : (!p.isSeq && p.needsGroup) = p.isOpenAlt := by
  rw [needsGroup_eq]
  cases p <;> simp [isLoose, isSeq, isOpenAlt]

theorem operandNeedsGroup_eq (p : Pattern α) : p.operandNeedsGroup = p.isLooseOperand := by
  cases p with
  | alt ps => exact needsGroup_eq (.alt ps)
  | _ => rfl

/-! ## The second pass does not fail after the first -/

section

variable [Sink σ]

theorem classSet_eq (out : Output σ α) (polarity : Polarity) (members : String) :
    classSet out members = (CharClass.ofString polarity members).items.foldl Output.classItem out := by
  rw [classSet, CharClass.ofString, List.foldl_map]
  rfl

mutual

/-- The members of a class are written without a failure. -/
theorem emitClassMember_of_charClass? : (p : Pattern α) → (c : CharClass) → p.charClass? = some c →
    (out : Output σ α) → emitClassMember p out = .ok (c.items.foldl Output.classItem out)
  | .set polarity members, c, h, out => by
    cases h
    rw [emitClassMember, classSet_eq out polarity]
  | .range polarity first last, c, h, out => by
    cases h
    rfl
  | .alt ps, c, h, out => emitClassMembers_of_mergedClass? ps c h out

theorem emitClassMembers_of_mergedClass? : (ps : List (Pattern α)) → (c : CharClass) →
    mergedClass? ps = some c → (out : Output σ α) →
    emitClassMembers ps out = .ok (c.items.foldl Output.classItem out)
  | [], c, h, out => by cases h
  | [p], c, h, out => by
    rw [emitClassMembers, emitClassMember_of_charClass? p c h out]
    rfl
  | p :: q :: ps, c, h, out => by
    rw [mergedClass?] at h
    obtain ⟨a, ha, h⟩ := Option.bind_eq_some_iff.mp h
    obtain ⟨b, hb, hmerge⟩ := Option.bind_eq_some_iff.mp h
    rw [CharClass.merge?] at hmerge
    obtain ⟨-, hc⟩ := Option.ite_none_right_eq_some.mp hmerge
    cases hc
    have hp := emitClassMember_of_charClass? p a ha out
    have hps := emitClassMembers_of_mergedClass? (q :: ps) b hb (a.items.foldl Output.classItem out)
    rw [emitClassMembers, hp, List.foldl_append]
    exact hps

end

/-! ## Emission is writing -/

theorem emitGrouped_eq_ok (needed : Bool) {emit : Output σ α → Except (Pattern α) (Output σ α)}
    {write : Output σ α → Output σ α} (h : ∀ out, emit out = .ok (write out)) (out : Output σ α) :
    emitGrouped needed emit out = .ok (Output.grouped needed write out) := by
  cases needed with
  | true => simp [emitGrouped, Output.grouped, h, bind, Except.bind, pure, Except.pure]
  | false => simp [emitGrouped, Output.grouped, h]

theorem writeAlternatives_cons (p : Pattern α) (ps : List (Pattern α)) (out : Output σ α) :
    writeAlternatives (p :: ps) out =
      writeAlternatives ps (if ps.isEmpty then Output.grouped p.isSeq (writeRegex p) out
        else (Output.grouped p.isSeq (writeRegex p) out).push '|') := by
  cases ps <;> rfl

theorem charClass_eq (out : Output σ α) (c : CharClass) :
    out.charClass c = (c.items.foldl Output.classItem (openClass out c.polarity)).push ']' := by
  obtain ⟨polarity, items⟩ := c
  cases polarity <;> rfl

mutual

/-- Emission never fails, and writes what `writeRegex` writes. -/
theorem emitRegex_eq_ok : (p : Pattern α) → (out : Output σ α) →
    p.emitRegex out = .ok (p.writeRegex out)
  | .set polarity members, out => by
    have hclass : (classSet (openClass out polarity) members).push ']' =
        out.charClass (.ofString polarity members) := by
      rw [charClass_eq, classSet_eq (openClass out polarity) polarity]
      rfl
    unfold emitRegex writeRegex
    rw [← hclass]
    cases polarity with
    | negated => rfl
    | positive => rcases members.toList with _ | ⟨c, _ | ⟨c', cs⟩⟩ <;> rfl
  | .range polarity first last, out => by
    rw [emitRegex, writeRegex, charClass_eq]
    rfl
  | .any, out => rfl
  | .literal text, out => rfl
  | .lineStart, out => rfl
  | .lineEnd, out => rfl
  | .alt ps, out => by
    have halternatives := emitAlternatives_eq_ok true ps out
    rw [emitRegex, writeRegex, survey_eq]
    cases hmerged : mergedClass? ps with
    | none => exact halternatives
    | some c =>
      have hmembers := emitClassMembers_of_mergedClass? ps c hmerged (openClass out c.polarity)
      simp only [Option.map_some, hmembers, charClass_eq]
      rfl
  | .seq ps, out => emitMembers_eq_ok ps out
  | .rep body min max, out => by
    have hbody := emitGrouped_eq_ok body.isLooseOperand (emitRegex_eq_ok body) out
    rw [emitRegex, writeRegex, operandNeedsGroup_eq, hbody]
    rfl
  | .look side polarity body, out => by
    rw [emitRegex, writeRegex, emitRegex_eq_ok body]
    rfl
  | .capture body label, out => by
    rw [emitRegex, writeRegex, emitRegex_eq_ok body]
    rfl

/-- After the first alternative, a bar stands before all that follows. -/
theorem emitAlternatives_eq_ok : (first : Bool) → (ps : List (Pattern α)) → (out : Output σ α) →
    emitAlternatives first ps out =
      .ok (writeAlternatives ps (if first || ps.isEmpty then out else out.push '|'))
  | first, [], out => by cases first <;> rfl
  | first, p :: ps, out => by
    have hp := emitGrouped_eq_ok p.isSeq (emitRegex_eq_ok p)
    have hps := emitAlternatives_eq_ok false ps
    rw [emitAlternatives, not_isAlt_and_needsGroup, hp, writeAlternatives_cons]
    simp only [List.isEmpty_cons, Bool.or_false]
    exact hps _

theorem emitMembers_eq_ok : (ps : List (Pattern α)) → (out : Output σ α) →
    emitMembers ps out = .ok (writeMembers ps out)
  | [], out => rfl
  | p :: ps, out => by
    have hp := emitGrouped_eq_ok p.isOpenAlt (emitRegex_eq_ok p) out
    rw [emitMembers, not_isSeq_and_needsGroup, hp, writeMembers]
    exact emitMembers_eq_ok ps _

end

theorem emitUnit_eq_ok (p : Pattern α) (out : Output σ α) : p.emitUnit out = .ok (p.writeUnit out) := by
  rw [emitUnit, needsGroup_eq, emitGrouped_eq_ok p.isLoose (emitRegex_eq_ok p)]
  rfl

end

end TextMate.Pattern
