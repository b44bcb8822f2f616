import TextMate.Proofs.Regex.Syntax
import TextMate.Proofs.Scanning

/-!
# Reading regular expressions

`Regex.parse` finds the derivation of a text, or says that there is none. It is exact,

    parse_eq_some_iff : parse text = some t ↔ t.text = text.toList

so no text has two derivations. Every reader takes what it reads off the front and returns the rest. From
left to right (`_append`), it reads back what was written in front of any rest that cannot be taken for more
of the same; from right to left (`_sound`), what it took and what it left make up what it was given.
-/

namespace TextMate.Regex

/-! ## Readers -/

def readSpelling (special : Char → Bool) : List Char → Option (Spelling special × List Char)
  | [] => none
  | '\\' :: c :: rest => if h : isPunctuation c then some (.escaped c h, rest) else none
  | c :: rest => if h : special c = false then some (.plain c h, rest) else none

def readItem (cs : List Char) : Option (Item × List Char) :=
  match readSpelling isClassMeta cs with
  | some (first, '-' :: rest) =>
    (readSpelling isClassMeta rest).map fun (last, rest) => (.range first last, rest)
  | some (c, rest) => some (.single c, rest)
  | none => none

/-- The items up to the closing bracket, and what follows the bracket. -/
def readItems : (fuel : Nat) → List Char → Option (List Item × List Char)
  | _, ']' :: rest => some ([], rest)
  | 0, _ => none
  | n + 1, cs => do
    let (item, rest) ← readItem cs
    let (items, rest) ← readItems n rest
    return (item :: items, rest)

def readPolarity : List Char → Polarity × List Char
  | '^' :: rest => (.negated, rest)
  | rest => (.positive, rest)

def readNumeral (cs : List Char) : Option (Numeral × List Char) :=
  if h : cs.takeWhile Char.isDigit ≠ [] then
    some (⟨cs.takeWhile Char.isDigit, h, fun _ => mem_takeWhile⟩, cs.dropWhile Char.isDigit)
  else
    none

/-- What stands between braces, and what follows them. -/
def readBounds (cs : List Char) : Option (Quantifier × List Char) :=
  match readNumeral cs with
  | some (min, ',' :: '\x7d' :: rest) => some (.atLeast min, rest)
  | some (min, ',' :: rest) =>
    match readNumeral rest with
    | some (max, '\x7d' :: rest) => some (.between min max, rest)
    | _ => none
  | _ => none

def readQuantifier : List Char → Option (Option Quantifier × List Char)
  | '?' :: rest => some (some .optional, rest)
  | '*' :: rest => some (some .star, rest)
  | '+' :: rest => some (some .plus, rest)
  | '\x7b' :: rest => (readBounds rest).map fun (q, rest) => (some q, rest)
  | rest => some (none, rest)

def readKind : List Char → Option (GroupKind × List Char)
  | '?' :: ':' :: rest => some (.plain, rest)
  | '?' :: '=' :: rest => some (.look .ahead .positive, rest)
  | '?' :: '!' :: rest => some (.look .ahead .negated, rest)
  | '?' :: '<' :: '=' :: rest => some (.look .behind .positive, rest)
  | '?' :: '<' :: '!' :: rest => some (.look .behind .negated, rest)
  | '?' :: _ => none
  | rest => some (.capture, rest)

def endsBranch : List Char → Bool
  | [] => true
  | c :: _ => c == '|' || c == ')'

mutual

def readAlternation : (fuel : Nat) → List Char → Option (Alternation × List Char)
  | 0, _ => none
  | n + 1, cs =>
    match readBranch n cs with
    | some (branch, '|' :: rest) =>
      (readAlternation n rest).map fun (t, rest) => (.more branch t, rest)
    | some (branch, rest) => some (.single branch, rest)
    | none => none

def readBranch : (fuel : Nat) → List Char → Option (Branch × List Char)
  | 0, _ => none
  | n + 1, cs =>
    if endsBranch cs then some (.nil, cs)
    else do
      let (atom, rest) ← readAtom n cs
      let (quantifier, rest) ← readQuantifier rest
      let (branch, rest) ← readBranch n rest
      return (.cons atom quantifier branch, rest)

def readAtom : (fuel : Nat) → List Char → Option (Atom × List Char)
  | 0, _ => none
  | _ + 1, '.' :: rest => some (.any, rest)
  | _ + 1, '^' :: rest => some (.lineStart, rest)
  | _ + 1, '$' :: rest => some (.lineEnd, rest)
  | n + 1, '[' :: rest => do
    let (first, rest') ← readItem (readPolarity rest).2
    let (items, rest') ← readItems n rest'
    return (.bracket (readPolarity rest).1 first items, rest')
  | n + 1, '(' :: rest => do
    let (kind, rest) ← readKind rest
    match ← readAlternation n rest with
    | (body, ')' :: rest) => return (.group kind body, rest)
    | _ => none
  | _ + 1, cs => (readSpelling isMeta cs).map fun (c, rest) => (.char c, rest)

end

/-- The derivation of a text. -/
def parse (text : String) : Option Alternation :=
  match readAlternation (3 * text.toList.length + 3) text.toList with
  | some (t, []) => some t
  | _ => none

/-! ## First characters -/

/-- The characters that an atom can start with. -/
def isAtomStart (c : Char) : Bool :=
  "\\.^$[(".toList.contains c || !isMeta c

theorem Spelling.exists_cons {special : Char → Bool} (c : Spelling special) :
    ∃ d ds, c.text = d :: ds ∧ (d = '\\' ∨ special d = false) := by
  cases c with
  | plain c h => exact ⟨c, [], rfl, .inr h⟩
  | escaped c h => exact ⟨'\\', [c], rfl, .inl rfl⟩

theorem Item.exists_cons (item : Item) :
    ∃ d ds, item.text = d :: ds ∧ (d = '\\' ∨ isClassMeta d = false) := by
  cases item with
  | single c => exact c.exists_cons
  | range first last =>
    obtain ⟨d, ds, htext, hd⟩ := first.exists_cons
    refine ⟨d, ds ++ '-' :: last.text, ?_, hd⟩
    rw [Item.text, htext, List.cons_append]

theorem Atom.exists_cons (a : Atom) : ∃ d ds, a.text = d :: ds ∧ isAtomStart d := by
  cases a with
  | char c =>
    obtain ⟨d, ds, htext, hd⟩ := c.exists_cons
    refine ⟨d, ds, htext, ?_⟩
    rcases hd with rfl | hd
    · decide
    · simp [isAtomStart, hd]
  | any => exact ⟨_, _, rfl, by decide⟩
  | lineStart => exact ⟨_, _, rfl, by decide⟩
  | lineEnd => exact ⟨_, _, rfl, by decide⟩
  | bracket polarity first rest => exact ⟨_, _, rfl, by decide⟩
  | group kind body => exact ⟨_, _, rfl, by decide⟩

/-! ## Reading back: characters, brackets and quantifiers -/

theorem readSpelling_append (special : Char → Bool) (hspecial : special '\\') (c : Spelling special)
    (rest : List Char) : readSpelling special (c.text ++ rest) = some (c, rest) := by
  cases c with
  | escaped c h => simp [Spelling.text, readSpelling, h]
  | plain c h =>
    have hc : c ≠ '\\' := by
      rintro rfl
      rw [hspecial] at h
      cases h
    simp only [Spelling.text, List.cons_append, List.nil_append]
    unfold readSpelling
    split
    · next heq => cases heq
    · next heq => cases heq; exact absurd rfl hc
    · next heq => cases heq; rw [dif_pos h]

/-- An item is read back in front of anything but a dash. -/
theorem readItem_append (item : Item) {rest : List Char} (hrest : rest.head? ≠ some '-') :
    readItem (item.text ++ rest) = some (item, rest) := by
  cases item with
  | single c =>
    have hread := readSpelling_append isClassMeta (by decide) c rest
    rw [Item.text, readItem, hread]
    split
    · next heq => cases heq; exact absurd rfl hrest
    · next heq => cases heq; rfl
    · next heq => cases heq
  | range first last =>
    have hfirst := readSpelling_append isClassMeta (by decide) first ('-' :: (last.text ++ rest))
    have hlast := readSpelling_append isClassMeta (by decide) last rest
    rw [Item.text, List.append_assoc, List.cons_append, readItem, hfirst]
    simp only [hlast, Option.map_some]

theorem head?_items (items : List Item) (rest : List Char) :
    (items.flatMap Item.text ++ ']' :: rest).head? ≠ some '-' := by
  cases items with
  | nil => simp
  | cons item items =>
    obtain ⟨d, ds, htext, hd⟩ := item.exists_cons
    rw [List.flatMap_cons, htext]
    rintro h
    cases h
    revert hd
    decide

theorem readItems_append : (items : List Item) → {n : Nat} → items.length ≤ n → (rest : List Char) →
    readItems n (items.flatMap Item.text ++ ']' :: rest) = some (items, rest)
  | [], n, _, rest => by
    simp [readItems]
  | item :: items, 0, h, rest => by
    simp at h
  | item :: items, n + 1, h, rest => by
    have hitem := readItem_append item (head?_items items rest)
    have hitems := readItems_append items (Nat.le_of_succ_le_succ h) rest
    obtain ⟨d, ds, htext, hd⟩ := item.exists_cons
    have hclose : d ≠ ']' := by
      rintro rfl
      revert hd
      decide
    rw [List.flatMap_cons, List.append_assoc]
    rw [htext] at hitem ⊢
    simp only [List.cons_append] at hitem ⊢
    rw [readItems]
    · simp [hitem, hitems]
    · rintro rest' heq
      cases heq
      exact hclose rfl

theorem readPolarity_append (polarity : Polarity) (item : Item) (rest : List Char) :
    readPolarity (caretText polarity ++ (item.text ++ rest)) = (polarity, item.text ++ rest) := by
  cases polarity with
  | negated => rfl
  | positive =>
    obtain ⟨d, ds, htext, hd⟩ := item.exists_cons
    simp only [caretText, List.nil_append, htext, List.cons_append]
    unfold readPolarity
    split
    · next heq =>
      cases heq
      exfalso
      revert hd
      decide
    · rfl

theorem Numeral.exists_cons (n : Numeral) : ∃ d ds, n.digits = d :: ds ∧ d.isDigit := by
  obtain ⟨d, ds, h⟩ := List.exists_cons_of_ne_nil n.ne_nil
  exact ⟨d, ds, h, n.isDigit d (by simp [h])⟩

theorem readNumeral_append (n : Numeral) (rest : List Char) (hrest : Stops Char.isDigit rest) :
    readNumeral (n.digits ++ rest) = some (n, rest) := by
  have htake := takeWhile_append_of_stops n.isDigit hrest
  have hdrop := dropWhile_append_of_stops n.isDigit hrest
  simp [readNumeral, htake, hdrop, n.ne_nil]

theorem readBounds_between (min max : Numeral) (rest : List Char) :
    readBounds (min.digits ++ ',' :: (max.digits ++ '\x7d' :: rest)) =
      some (.between min max, rest) := by
  have hmin := readNumeral_append min (',' :: (max.digits ++ '\x7d' :: rest)) (by simp)
  have hmax := readNumeral_append max ('\x7d' :: rest) (by simp)
  obtain ⟨d, ds, hdigits, hd⟩ := max.exists_cons
  rw [hdigits, List.cons_append] at hmin hmax ⊢
  rw [readBounds, hmin]
  -- the brace does not follow the comma, for there is a digit
  split
  · next heq =>
    cases heq
    exact absurd hd (by decide)
  · next heq =>
    cases heq
    simp only [hmax]
  · next _ hcomma => exact absurd rfl (hcomma _ _)

theorem readQuantifier_append (q : Quantifier) (rest : List Char) :
    readQuantifier (q.text ++ rest) = some (some q, rest) := by
  cases q with
  | optional => rfl
  | star => rfl
  | plus => rfl
  | atLeast min =>
    have hmin := readNumeral_append min (',' :: '\x7d' :: rest) (by simp)
    simp [Quantifier.text, readQuantifier, readBounds, hmin]
  | between min max =>
    simp [Quantifier.text, readQuantifier, readBounds_between]

/-! ## Reading back: expressions -/

def isQuantifierStart (c : Char) : Bool :=
  "?*+\x7b".toList.contains c

theorem readQuantifier_none {cs : List Char} (h : Stops isQuantifierStart cs) :
    readQuantifier cs = some (none, cs) := by
  unfold readQuantifier
  split
  · exact absurd (stops_cons.mp h) (by decide)
  · exact absurd (stops_cons.mp h) (by decide)
  · exact absurd (stops_cons.mp h) (by decide)
  · exact absurd (stops_cons.mp h) (by decide)
  · rfl

theorem readQuantifier?_append (q : Option Quantifier) {rest : List Char}
    (hrest : Stops isQuantifierStart rest) :
    readQuantifier (quantifierText? q ++ rest) = some (q, rest) := by
  cases q with
  | none => exact readQuantifier_none hrest
  | some q => exact readQuantifier_append q rest

theorem endsBranch_atom (a : Atom) (rest : List Char) : endsBranch (a.text ++ rest) = false := by
  obtain ⟨d, ds, htext, hd⟩ := a.exists_cons
  have hbar : d ≠ '|' := by
    rintro rfl
    revert hd
    decide
  have hclose : d ≠ ')' := by
    rintro rfl
    revert hd
    decide
  simp [htext, endsBranch, hbar, hclose]

/-- No quantifier follows a quantifier, or an atom that has none. -/
theorem stops_branch (b : Branch) (rest : List Char) (hrest : endsBranch rest) :
    Stops isQuantifierStart (b.text ++ rest) := by
  cases b with
  | nil =>
    cases rest with
    | nil => exact stops_nil
    | cons c rest =>
      simp only [endsBranch, Bool.or_eq_true, beq_iff_eq] at hrest
      rcases hrest with rfl | rfl <;> exact stops_cons.mpr (by decide)
  | cons a q b =>
    obtain ⟨d, ds, htext, hd⟩ := a.exists_cons
    rw [Branch.text, htext, List.append_assoc, List.cons_append, stops_cons, Bool.eq_false_iff]
    intro hstart
    have hnone : "?*+\x7b".toList.all fun d => !isAtomStart d := by decide
    have hd' := List.all_eq_true.mp hnone d (List.contains_iff_mem.mp hstart)
    rw [hd] at hd'
    cases hd'

theorem stops_alternation (t : Alternation) (rest : List Char) (hrest : endsBranch rest) :
    Stops isQuantifierStart (t.text ++ rest) := by
  cases t with
  | single b => exact stops_branch b rest hrest
  | more b t =>
    rw [Alternation.text, List.append_assoc]
    exact stops_branch b _ rfl

/-- The kind of a group is read back, for its body does not start with a question mark. -/
theorem readKind_append (kind : GroupKind) {rest : List Char} (hrest : Stops isQuantifierStart rest) :
    readKind (kind.text ++ rest) = some (kind, rest) := by
  cases kind with
  | plain => rfl
  | look side polarity => cases side <;> cases polarity <;> rfl
  | capture =>
    cases rest with
    | nil => rfl
    | cons c rest =>
      have hc : c ≠ '?' := by
        rintro rfl
        exact absurd (stops_cons.mp hrest) (by decide)
      rw [GroupKind.text, List.nil_append]
      unfold readKind
      split
      all_goals
        first
          | rfl
          | next heq => cases heq; exact absurd rfl hc

theorem length_le_flatMap_text (items : List Item) : items.length ≤ (items.flatMap Item.text).length := by
  induction items with
  | nil => simp
  | cons item items ih =>
    obtain ⟨d, ds, htext, -⟩ := item.exists_cons
    simp only [List.flatMap_cons, htext, List.length_append, List.length_cons]
    omega

theorem readAtom_char (n : Nat) (c : Spelling isMeta) (rest : List Char) :
    readAtom (n + 1) (c.text ++ rest) = some (.char c, rest) := by
  have hread := readSpelling_append isMeta (by decide) c rest
  obtain ⟨d, ds, htext, hd⟩ := c.exists_cons
  rw [htext, List.cons_append] at hread ⊢
  have hstart : d ∉ ".^$[(".toList := by
    intro hmem
    have hmeta : ".^$[(".toList.all isMeta := by decide
    rcases hd with rfl | hd
    · exact absurd hmem (by decide)
    · rw [List.all_eq_true.mp hmeta d hmem] at hd
      cases hd
  rw [readAtom, hread]
  · rfl
  all_goals
    rintro rest' heq
    cases heq
    exact hstart (by decide)

mutual

/-- An alternation is read back in front of the end and of a closing parenthesis. -/
theorem readAlternation_append : (t : Alternation) → {n : Nat} → 3 * t.text.length + 3 ≤ n →
    (rest : List Char) → endsBranch rest → rest.head? ≠ some '|' →
    readAlternation n (t.text ++ rest) = some (t, rest)
  | t, 0, hn, _, _, _ => by omega
  | .single b, n + 1, hn, rest, hend, hbar => by
    have hb := readBranch_append b (n := n) (by rw [Alternation.text] at hn; omega) rest hend
    rw [Alternation.text, readAlternation, hb]
    split
    · next heq => cases heq; exact absurd rfl hbar
    · next heq => cases heq; rfl
    · next heq => cases heq
  | .more b t, n + 1, hn, rest, hend, hbar => by
    simp only [Alternation.text, List.length_append, List.length_cons] at hn
    have hb := readBranch_append b (n := n) (by omega) ('|' :: (t.text ++ rest)) rfl
    have ht := readAlternation_append t (n := n) (by omega) rest hend hbar
    rw [Alternation.text, List.append_assoc, List.cons_append, readAlternation, hb]
    simp only [ht, Option.map_some]

theorem readBranch_append : (b : Branch) → {n : Nat} → 3 * b.text.length + 2 ≤ n →
    (rest : List Char) → endsBranch rest → readBranch n (b.text ++ rest) = some (b, rest)
  | b, 0, hn, _, _ => by omega
  | .nil, n + 1, hn, rest, hend => by
    rw [Branch.text, List.nil_append, readBranch, if_pos hend]
  | .cons a q b, n + 1, hn, rest, hend => by
    obtain ⟨d, ds, htext, -⟩ := a.exists_cons
    simp only [Branch.text, List.length_append] at hn
    have hpos : 0 < a.text.length := by simp [htext]
    have ha := readAtom_append a (n := n) (by omega) (quantifierText? q ++ (b.text ++ rest))
    have hq := readQuantifier?_append q (stops_branch b rest hend)
    have hb := readBranch_append b (n := n) (by omega) rest hend
    rw [Branch.text, List.append_assoc, List.append_assoc, readBranch, endsBranch_atom]
    simp [ha, hq, hb]

theorem readAtom_append : (a : Atom) → {n : Nat} → 3 * a.text.length + 1 ≤ n → (rest : List Char) →
    readAtom n (a.text ++ rest) = some (a, rest)
  | a, 0, hn, _ => by omega
  | .char c, n + 1, hn, rest => readAtom_char n c rest
  | .any, n + 1, hn, rest => by simp [Atom.text, readAtom]
  | .lineStart, n + 1, hn, rest => by simp [Atom.text, readAtom]
  | .lineEnd, n + 1, hn, rest => by simp [Atom.text, readAtom]
  | .bracket polarity first items, n + 1, hn, rest => by
    have hlength := length_le_flatMap_text items
    simp only [Atom.text, List.length_append, List.length_cons] at hn
    have hpolarity := readPolarity_append polarity first (items.flatMap Item.text ++ ']' :: rest)
    have hfirst := readItem_append first (head?_items items rest)
    have hitems := readItems_append items (n := n) (by omega) rest
    simp [Atom.text, readAtom, hpolarity, hfirst, hitems]
  | .group kind body, n + 1, hn, rest => by
    simp only [Atom.text, List.length_append, List.length_cons] at hn
    have hkind := readKind_append kind (stops_alternation body (')' :: rest) rfl)
    have hbody := readAlternation_append body (n := n) (by omega) (')' :: rest) rfl (by simp)
    simp [Atom.text, readAtom, hkind, hbody]

end

/-! ## Nothing is lost -/

theorem readSpelling_sound {special : Char → Bool} {cs rest : List Char} {c : Spelling special}
    (h : readSpelling special cs = some (c, rest)) : cs = c.text ++ rest := by
  unfold readSpelling at h
  split at h
  · cases h
  · split at h
    · cases h
      rfl
    · cases h
  · split at h
    · cases h
      rfl
    · cases h

theorem readItem_sound {cs rest : List Char} {item : Item} (h : readItem cs = some (item, rest)) :
    cs = item.text ++ rest := by
  unfold readItem at h
  split at h
  · next first rest' hfirst =>
    obtain ⟨⟨last, rest''⟩, hlast, heq⟩ := Option.map_eq_some_iff.mp h
    cases heq
    rw [readSpelling_sound hfirst, readSpelling_sound hlast]
    simp [Item.text]
  · next hsingle =>
    cases h
    exact readSpelling_sound hsingle
  · cases h

theorem readItems_sound {n : Nat} {cs rest : List Char} {items : List Item}
    (h : readItems n cs = some (items, rest)) : cs = items.flatMap Item.text ++ ']' :: rest := by
  induction n generalizing cs items with
  | zero =>
    unfold readItems at h
    split at h
    · cases h
      rfl
    · cases h
    · contradiction
  | succ n ih =>
    unfold readItems at h
    split at h
    · cases h
      rfl
    · contradiction
    · next heq _ =>
      cases heq
      obtain ⟨⟨item, rest'⟩, hitem, h⟩ := Option.bind_eq_some_iff.mp h
      obtain ⟨⟨items', rest''⟩, hitems, h⟩ := Option.bind_eq_some_iff.mp h
      cases h
      rw [readItem_sound hitem, ih hitems]
      simp

theorem readPolarity_sound (cs : List Char) :
    cs = caretText (readPolarity cs).1 ++ (readPolarity cs).2 := by
  unfold readPolarity
  split <;> rfl

theorem readNumeral_sound {cs rest : List Char} {n : Numeral} (h : readNumeral cs = some (n, rest)) :
    cs = n.digits ++ rest := by
  unfold readNumeral at h
  split at h
  · cases h
    exact List.takeWhile_append_dropWhile.symm
  · cases h

theorem readBounds_sound {cs rest : List Char} {q : Quantifier} (h : readBounds cs = some (q, rest)) :
    '\x7b' :: cs = q.text ++ rest := by
  unfold readBounds at h
  split at h
  · next hmin =>
    cases h
    rw [readNumeral_sound hmin]
    simp [Quantifier.text]
  · next hmin =>
    split at h
    · next hmax =>
      cases h
      rw [readNumeral_sound hmin, readNumeral_sound hmax]
      simp [Quantifier.text]
    · cases h
  · cases h

theorem readQuantifier_sound {cs rest : List Char} {q : Option Quantifier}
    (h : readQuantifier cs = some (q, rest)) : cs = quantifierText? q ++ rest := by
  unfold readQuantifier at h
  split at h
  · cases h; rfl
  · cases h; rfl
  · cases h; rfl
  · obtain ⟨⟨q', rest'⟩, hbounds, heq⟩ := Option.map_eq_some_iff.mp h
    cases heq
    exact readBounds_sound hbounds
  · cases h; rfl

theorem readKind_sound {cs rest : List Char} {kind : GroupKind} (h : readKind cs = some (kind, rest)) :
    cs = kind.text ++ rest := by
  unfold readKind at h
  split at h <;> cases h <;> rfl

mutual

/-- What an alternation was read from is its text and the rest. -/
theorem readAlternation_sound : (n : Nat) → {cs rest : List Char} → {t : Alternation} →
    readAlternation n cs = some (t, rest) → cs = t.text ++ rest
  | 0, cs, rest, t, h => by cases h
  | n + 1, cs, rest, t, h => by
    rw [readAlternation] at h
    split at h
    · next hbranch =>
      obtain ⟨⟨t', rest'⟩, ht, heq⟩ := Option.map_eq_some_iff.mp h
      cases heq
      rw [readBranch_sound n hbranch, readAlternation_sound n ht]
      simp [Alternation.text]
    · next hbranch =>
      cases h
      exact readBranch_sound n hbranch
    · cases h

theorem readBranch_sound : (n : Nat) → {cs rest : List Char} → {b : Branch} →
    readBranch n cs = some (b, rest) → cs = b.text ++ rest
  | 0, cs, rest, b, h => by cases h
  | n + 1, cs, rest, b, h => by
    rw [readBranch] at h
    split at h
    · cases h
      rfl
    · obtain ⟨⟨atom, rest₁⟩, hatom, h⟩ := Option.bind_eq_some_iff.mp h
      obtain ⟨⟨quantifier, rest₂⟩, hquantifier, h⟩ := Option.bind_eq_some_iff.mp h
      obtain ⟨⟨branch, rest₃⟩, hbranch, h⟩ := Option.bind_eq_some_iff.mp h
      cases h
      rw [readAtom_sound n hatom, readQuantifier_sound hquantifier, readBranch_sound n hbranch]
      simp [Branch.text]

theorem readAtom_sound : (n : Nat) → {cs rest : List Char} → {a : Atom} →
    readAtom n cs = some (a, rest) → cs = a.text ++ rest
  | 0, cs, rest, a, h => by cases h
  | n + 1, cs, rest, a, h => by
    unfold readAtom at h
    split at h
    · contradiction
    · cases h; rfl
    · cases h; rfl
    · cases h; rfl
    · next bracketed hn =>
      cases hn
      have hpolarity := readPolarity_sound bracketed
      obtain ⟨⟨first, rest₁⟩, hfirst, h⟩ := Option.bind_eq_some_iff.mp h
      obtain ⟨⟨items, rest₂⟩, hitems, h⟩ := Option.bind_eq_some_iff.mp h
      cases h
      rw [readItem_sound hfirst, readItems_sound hitems] at hpolarity
      simpa [Atom.text] using hpolarity
    · next hn =>
      cases hn
      obtain ⟨⟨kind, rest₁⟩, hkind, h⟩ := Option.bind_eq_some_iff.mp h
      obtain ⟨⟨body, rest₂⟩, hbody, h⟩ := Option.bind_eq_some_iff.mp h
      split at h
      · next heq =>
        cases heq
        cases h
        rw [readKind_sound hkind, readAlternation_sound n hbody]
        simp [Atom.text]
      · cases h
    · obtain ⟨⟨c, rest'⟩, hc, heq⟩ := Option.map_eq_some_iff.mp h
      cases heq
      exact readSpelling_sound hc

end

/-! ## Exactness -/

/-- The parser finds the derivation of a text if and only if it has one. -/
theorem parse_eq_some_iff {text : String} {t : Alternation} :
    parse text = some t ↔ t.text = text.toList := by
  unfold parse
  constructor
  · intro h
    split at h
    · next hread =>
      cases h
      rw [readAlternation_sound _ hread, List.append_nil]
    · cases h
  · intro h
    have hread := readAlternation_append t (n := 3 * text.toList.length + 3) (by simp [h]) [] rfl (by simp)
    rw [List.append_nil, h] at hread
    rw [hread]

end TextMate.Regex
