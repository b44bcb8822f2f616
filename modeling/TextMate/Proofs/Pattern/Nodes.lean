import TextMate.Proofs.Pattern.Constructible

/-!
# Well formed at every node

A pattern is a tree, and each of its nodes has a rule of its own to keep: a set is non-empty and free of
repetitions, a range runs upwards, an alternation or a sequence has two members at least, and the maximum
of a repetition is not below its minimum. `Sound` says so of one node and looks no further down.

The constructors see one node at a time, the others having been built before. Still, what they build are
exactly the trees that keep the rule at every node, `constructible_iff_sound`.
-/

namespace TextMate.Pattern

variable {α : Type}

/-! ## Nodes -/

/-- The patterns right below a pattern. -/
def children : Pattern α → List (Pattern α)
  | .alt ps | .seq ps => ps
  | .rep body _ _ | .look _ _ body | .capture body _ => [body]
  | .set _ _ | .range _ _ _ | .any | .literal _ | .lineStart | .lineEnd => []

/-- `p.Node q` says that `q` is a node of the tree `p`: the root, or a node of a child. -/
inductive Node : Pattern α → Pattern α → Prop
  | root (p : Pattern α) : Node p p
  | child {p child q : Pattern α} : child ∈ p.children → Node child q → Node p q

/-- The rule that a node has to keep, whatever stands below it. -/
def Sound : Pattern α → Prop
  | .set _ members => members.toList ≠ [] ∧ members.toList.Nodup
  | .range _ first last => first < last
  | .alt ps | .seq ps => 2 ≤ ps.length
  | .rep _ min (some max) => min ≤ max
  | .rep _ _ none | .any | .literal _ | .lineStart | .lineEnd | .look _ _ _ | .capture _ _ => True

/-! ## Nodes and well-formed trees -/

theorem sizeOf_lt_of_mem_children {p child : Pattern α} (h : child ∈ p.children) :
    sizeOf child < sizeOf p := by
  cases p with
  | alt ps | seq ps =>
    have hmem : sizeOf child < sizeOf ps := List.sizeOf_lt_of_mem h
    simp only [alt.sizeOf_spec, seq.sizeOf_spec]
    omega
  | rep body min max | look side polarity body | capture body label =>
    cases List.mem_singleton.mp h
    simp only [rep.sizeOf_spec, look.sizeOf_spec, capture.sizeOf_spec]
    omega
  | set | range | any | literal | lineStart | lineEnd => cases h

/-- What passes from the children of a pattern to the pattern holds of every pattern. -/
theorem induction_on_children {motive : Pattern α → Prop}
    (step : ∀ p, (∀ child ∈ p.children, motive child) → motive p) (p : Pattern α) : motive p := by
  apply step
  intro child hchild
  have hsize := sizeOf_lt_of_mem_children hchild
  exact induction_on_children step child
termination_by sizeOf p

/-- A pattern is well formed if its root keeps its rule and its children are well formed. -/
theorem wellFormed_iff_children (p : Pattern α) :
    p.WellFormed ↔ p.Sound ∧ ∀ child ∈ p.children, child.WellFormed := by
  cases p with
  | alt ps | seq ps => simp only [WellFormed, Sound, children, wellFormedAll_iff]
  | rep body min max => cases max <;> simp [WellFormed, Sound, children]
  | look | capture => simp [WellFormed, Sound, children]
  | set | range | any | literal | lineStart | lineEnd => simp [WellFormed, Sound, children]

theorem wellFormed_iff_nodes (p : Pattern α) : p.WellFormed ↔ ∀ q, p.Node q → q.Sound := by
  induction p using induction_on_children with
  | step p ih =>
    rw [wellFormed_iff_children]
    constructor
    · rintro ⟨hroot, hchildren⟩ q hq
      cases hq with
      | root => exact hroot
      | child hchild hq => exact (ih _ hchild).mp (hchildren _ hchild) q hq
    · intro h
      refine ⟨h p (.root p), ?_⟩
      intro child hchild
      apply (ih child hchild).mpr
      intro q hq
      exact h q (.child hchild hq)

/-- The constructors, applied one after the other as often as one likes, build exactly the patterns that
keep the rule at every node. The four look-arounds with names of their own build nothing else. -/
theorem constructible_iff_sound (p : Pattern α) :
    (Constructible p ↔ ∀ q, p.Node q → q.Sound) ∧
    (Constructible p → Constructible p.before ∧ Constructible p.notBefore ∧ Constructible p.after ∧
      Constructible p.notAfter) := by
  refine ⟨?_, ?_⟩
  · rw [← wellFormed_iff_nodes]
    exact ⟨Constructible.wellFormed, constructible p⟩
  · intro h
    exact ⟨.look .ahead .positive h, .look .ahead .negated h, .look .behind .positive h,
      .look .behind .negated h⟩

end TextMate.Pattern
