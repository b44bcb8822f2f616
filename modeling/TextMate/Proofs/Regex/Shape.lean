import TextMate.Proofs.Regex.Syntax

/-!
# The shape of a regular expression

Two derivations can differ in groups that capture nothing and in how they nest sequences in sequences and
choices in choices, and still say the same. A `Shape` has no such groups, and `Shape.flatten` splices
every sequence into the sequence around it, every choice into the choice around it, and drops a sequence or
a choice of one part. Sequences and choices obey the same laws, so `Joint` tells them apart and everything
is said once for both.
-/

namespace TextMate.Regex

/-- How the parts of an expression are joined. -/
inductive Joint where
  | sequence
  | choice
  deriving DecidableEq

/-- A regular expression without groups that capture nothing. -/
inductive Shape where
  | char (c : Char)
  | any
  | lineStart
  | lineEnd
  | bracket (polarity : Polarity) (items : List ClassItem)
  | repeated (body : Shape) (min : Nat) (max : Option Nat)
  | look (side : Side) (polarity : Polarity) (body : Shape)
  | capture (body : Shape)
  | join (joint : Joint) (parts : List Shape)

namespace Shape

/-! ## Flattening -/

/-- What a shape contributes to the joint around it. -/
def parts (joint : Joint) : Shape → List Shape
  | .join joint' ss => if joint' = joint then ss else [.join joint' ss]
  | s => [s]

/-- A joint of one part is that part. -/
def collapse (joint : Joint) : List Shape → Shape
  | [s] => s
  | ss => .join joint ss

/-- The parts joined, with nothing of the same joint among them. -/
def joined (joint : Joint) (ss : List Shape) : Shape :=
  collapse joint (ss.flatMap (parts joint))

mutual

def flatten : Shape → Shape
  | .char c => .char c
  | .any => .any
  | .lineStart => .lineStart
  | .lineEnd => .lineEnd
  | .bracket polarity items => .bracket polarity items
  | .repeated body min max => .repeated (flatten body) min max
  | .look side polarity body => .look side polarity (flatten body)
  | .capture body => .capture (flatten body)
  | .join joint ss => joined joint (flattenAll ss)

def flattenAll : List Shape → List Shape
  | [] => []
  | s :: ss => flatten s :: flattenAll ss

end

theorem flattenAll_eq_map (ss : List Shape) : flattenAll ss = ss.map flatten := by
  induction ss with
  | nil => rfl
  | cons s ss ih => simp [flattenAll, ih]

/-! ## Flat shapes -/

/-- No joint has exactly one part, and none is a part of a joint of its own kind. -/
inductive Flat : Shape → Prop
  | join {joint ss} : ss.length ≠ 1 → (∀ s ∈ ss, Flat s) → (∀ s ∈ ss, s.parts joint = [s]) →
      Flat (.join joint ss)
  | unit {s} : (∀ joint ss, s ≠ .join joint ss) → Flat s

theorem parts_of_ne_join {s : Shape} (h : ∀ joint ss, s ≠ .join joint ss) (joint : Joint) :
    s.parts joint = [s] := by
  unfold parts
  split
  · exact absurd rfl (h _ _)
  · rfl

@[simp] theorem parts_join (joint : Joint) (ss : List Shape) : parts joint (.join joint ss) = ss := by
  simp [parts]

theorem flat_of_mem_parts {s part : Shape} {joint : Joint} (hs : Flat s) (h : part ∈ s.parts joint) :
    Flat part ∧ part.parts joint = [part] := by
  cases hs with
  | unit hunit =>
    have hparts := parts_of_ne_join hunit joint
    rw [hparts, List.mem_singleton] at h
    subst h
    exact ⟨.unit hunit, hparts⟩
  | @join joint' ss hlength hflat hparts =>
    by_cases hj : joint' = joint
    · subst hj
      rw [parts_join] at h
      exact ⟨hflat part h, hparts part h⟩
    · have hself : parts joint (.join joint' ss) = [.join joint' ss] := if_neg hj
      rw [hself, List.mem_singleton] at h
      subst h
      exact ⟨.join hlength hflat hparts, hself⟩

theorem flat_of_mem_flatMap {joint : Joint} {ss : List Shape} (hss : ∀ s ∈ ss, Flat s) {part : Shape}
    (h : part ∈ ss.flatMap (parts joint)) : Flat part ∧ part.parts joint = [part] := by
  obtain ⟨s, hs, hpart⟩ := List.mem_flatMap.mp h
  exact flat_of_mem_parts (hss s hs) hpart

theorem collapse_of_length_ne_one {joint : Joint} {ss : List Shape} (h : ss.length ≠ 1) :
    collapse joint ss = .join joint ss := by
  unfold collapse
  split
  · exact absurd rfl h
  · rfl

/-- A list of one part, or a joint of other than one. -/
theorem collapse_cases (joint : Joint) (ss : List Shape) :
    (∃ s, ss = [s] ∧ collapse joint ss = s) ∨
      ss.length ≠ 1 ∧ collapse joint ss = .join joint ss := by
  by_cases h : ss.length = 1
  · obtain ⟨s, rfl⟩ := List.length_eq_one_iff.mp h
    exact .inl ⟨s, rfl, rfl⟩
  · exact .inr ⟨h, collapse_of_length_ne_one h⟩

theorem flat_joined {joint : Joint} {ss : List Shape} (hss : ∀ s ∈ ss, Flat s) :
    Flat (joined joint ss) := by
  unfold joined
  rcases collapse_cases joint (ss.flatMap (parts joint)) with ⟨s, hs, hcollapse⟩ | ⟨hlength, hcollapse⟩
  · have hmem : s ∈ ss.flatMap (parts joint) := by rw [hs]; exact List.mem_singleton_self s
    rw [hcollapse]
    exact (flat_of_mem_flatMap hss hmem).1
  · rw [hcollapse]
    exact .join hlength (fun part hpart => (flat_of_mem_flatMap hss hpart).1)
      fun part hpart => (flat_of_mem_flatMap hss hpart).2

/-- What was joined can be taken apart again. -/
theorem parts_joined {joint : Joint} {ss : List Shape} (hss : ∀ s ∈ ss, Flat s) :
    (joined joint ss).parts joint = ss.flatMap (parts joint) := by
  unfold joined
  rcases collapse_cases joint (ss.flatMap (parts joint)) with ⟨s, hs, hcollapse⟩ | ⟨-, hcollapse⟩
  · have hmem : s ∈ ss.flatMap (parts joint) := by rw [hs]; exact List.mem_singleton_self s
    rw [hcollapse, hs]
    exact (flat_of_mem_flatMap hss hmem).2
  · rw [hcollapse, parts_join]

theorem joined_singleton {joint : Joint} {s : Shape} (hs : Flat s) : joined joint [s] = s := by
  rw [joined, List.flatMap_singleton]
  cases hs with
  | unit hunit => rw [parts_of_ne_join hunit, collapse]
  | @join joint' ss hlength =>
    by_cases hj : joint' = joint
    · subst hj
      rw [parts_join, collapse_of_length_ne_one hlength]
    · rw [parts, if_neg hj, collapse]

mutual

theorem flat_flatten : (s : Shape) → Flat s.flatten
  | .char _ => .unit (by simp [flatten])
  | .any => .unit (by simp [flatten])
  | .lineStart => .unit (by simp [flatten])
  | .lineEnd => .unit (by simp [flatten])
  | .bracket _ _ => .unit (by simp [flatten])
  | .repeated _ _ _ => .unit (by simp [flatten])
  | .look _ _ _ => .unit (by simp [flatten])
  | .capture _ => .unit (by simp [flatten])
  | .join _ ss => flat_joined (flat_flattenAll ss)

theorem flat_flattenAll : (ss : List Shape) → ∀ s ∈ flattenAll ss, Flat s
  | [], s, h => by simp [flattenAll] at h
  | t :: ss, s, h => by
    rcases List.mem_cons.mp h with rfl | h
    · exact flat_flatten t
    · exact flat_flattenAll ss s h

end

/-- The parts of some shapes, after flattening each. -/
def flatParts (joint : Joint) (ss : List Shape) : List Shape :=
  ss.flatMap fun s => s.flatten.parts joint

@[simp] theorem flatParts_nil (joint : Joint) : flatParts joint [] = [] := rfl

@[simp] theorem flatParts_cons (joint : Joint) (s : Shape) (ss : List Shape) :
    flatParts joint (s :: ss) = s.flatten.parts joint ++ flatParts joint ss := by
  simp [flatParts]

@[simp] theorem flatParts_append (joint : Joint) (ss ts : List Shape) :
    flatParts joint (ss ++ ts) = flatParts joint ss ++ flatParts joint ts := by
  simp [flatParts]

theorem flatten_join (joint : Joint) (ss : List Shape) :
    (join joint ss).flatten = collapse joint (flatParts joint ss) := by
  rw [flatten, joined, flattenAll_eq_map, List.flatMap_map, flatParts]

/-- Flattening a joint splices the parts of its own kind. -/
theorem parts_flatten_join (joint : Joint) (ss : List Shape) :
    (join joint ss).flatten.parts joint = flatParts joint ss := by
  rw [flatten, parts_joined (flat_flattenAll ss), flattenAll_eq_map, List.flatMap_map, flatParts]

/-- A joint that flattens to the same as a shape contributes the same parts. -/
theorem flatParts_of_flatten_eq {joint : Joint} {ss : List Shape} {s : Shape}
    (h : (join joint ss).flatten = s.flatten) : flatParts joint ss = s.flatten.parts joint := by
  rw [← h, parts_flatten_join]

/-- A joint of one part is flattened to the flattened part. -/
theorem flatten_join_singleton (joint : Joint) (s : Shape) : (join joint [s]).flatten = s.flatten := by
  rw [flatten, flattenAll, flattenAll, joined_singleton (flat_flatten s)]

end Shape

/-! ## The shape of a derivation -/

/-- A part with its quantifier. -/
def quantified (s : Shape) : Option Quantifier → Shape
  | some q => .repeated s q.bounds.1 q.bounds.2
  | none => s

mutual

/-- The shapes of the branches. -/
def Alternation.shapes : Alternation → List Shape
  | .single branch => [.join .sequence branch.shapes]
  | .more branch rest => .join .sequence branch.shapes :: rest.shapes

/-- The shapes of the atoms, with their quantifiers. -/
def Branch.shapes : Branch → List Shape
  | .nil => []
  | .cons atom quantifier rest => quantified atom.shape quantifier :: rest.shapes

def Atom.shape : Atom → Shape
  | .char c => .char c.char
  | .any => .any
  | .lineStart => .lineStart
  | .lineEnd => .lineEnd
  | .bracket polarity first rest => .bracket polarity ((first :: rest).map Item.item)
  | .group .plain body => .join .choice body.shapes
  | .group .capture body => .capture (.join .choice body.shapes)
  | .group (.look side polarity) body => .look side polarity (.join .choice body.shapes)

end

def Branch.shape (b : Branch) : Shape :=
  .join .sequence b.shapes

def Alternation.shape (t : Alternation) : Shape :=
  .join .choice t.shapes

theorem Branch.shapes_append : (b other : Branch) → (b.append other).shapes = b.shapes ++ other.shapes
  | .nil, other => rfl
  | .cons atom quantifier rest, other => by
    simp [Branch.append, Branch.shapes, Branch.shapes_append rest other]

theorem Alternation.shapes_append : (t other : Alternation) →
    (t.append other).shapes = t.shapes ++ other.shapes
  | .single branch, other => by simp [Alternation.append, Alternation.shapes]
  | .more branch rest, other => by
    simp [Alternation.append, Alternation.shapes, Alternation.shapes_append rest other]

end TextMate.Regex
