import TextMate.Proofs.Pattern.Text

/-!
# Numbered groups

Whoever uses a regular expression numbers its groups by counting parentheses from left to right: one that
is escaped, or stands between brackets, does not count, and one before a question mark opens a group
without a number. `numberedGroups` does that count on any text, and finds for each numbered group what
stands between its parenthesis and the one that closes it.

The labels of a pattern are collected on a walk of their own. The two agree, `numberedGroups_regex`: the
groups of the text are the captures of the pattern in the order of its tree, each around the regular
expression of what is captured, and the labels are theirs.
-/

namespace TextMate

namespace Regex

/-! ## Reading parentheses -/

/-- Where a reader of regular-expression text stands. -/
structure Mode where
  /-- Between the brackets of a bracket expression. -/
  inBracket : Bool := false
  /-- Right after a backslash that escapes the next character. -/
  escaping : Bool := false

/-- What a character does to the groups of a text. -/
inductive Mark where
  | opens (numbered : Bool)
  | closes
  | plain
  deriving DecidableEq

namespace Mode

/-- Where the reader stands after one more character. -/
def next (mode : Mode) (c : Char) : Mode :=
  if mode.escaping then { mode with escaping := false }
  else if c = '\\' then { mode with escaping := true }
  else if c = '[' then { mode with inBracket := true }
  else if c = ']' then { mode with inBracket := false }
  else mode

/-- What a character does, given the text that follows it. -/
def mark (mode : Mode) (c : Char) (following : List Char) : Mark :=
  if mode.escaping || mode.inBracket then .plain
  else if c = '(' then .opens (following.head? != some '?')
  else if c = ')' then .closes
  else .plain

end Mode

/-- The text up to the parenthesis that closes a group, with `depth` groups open inside it. -/
def enclosed : (depth : Nat) → Mode → List Char → Option (List Char)
  | _, _, [] => none
  | depth, mode, c :: cs =>
    match mode.mark c cs with
    | .opens _ => (enclosed (depth + 1) (mode.next c) cs).map (c :: ·)
    | .closes => if depth = 0 then some [] else (enclosed (depth - 1) (mode.next c) cs).map (c :: ·)
    | .plain => (enclosed depth (mode.next c) cs).map (c :: ·)

/-- What the numbered groups of a text hold, in the order of their opening parentheses; nothing for a
group that is never closed. -/
def groups : Mode → List Char → List (Option (List Char))
  | _, [] => []
  | mode, c :: cs =>
    match mode.mark c cs with
    | .opens true => enclosed 0 (mode.next c) cs :: groups (mode.next c) cs
    | .opens false | .closes | .plain => groups (mode.next c) cs

/-- What the numbered groups of a regular expression hold, from the first on. -/
def numberedGroups (text : String) : List (Option String) :=
  (groups {} text.toList).map (·.map String.ofList)

/-! ## Balanced text -/

/-- In front of any other text, between brackets or not, the text brings the reader back to where it stood
and closes all the groups that it opens and no other. The numbered ones hold `contents`. -/
structure Balanced (inBracket : Bool) (cs : List Char) (contents : List (List Char)) : Prop where
  groups_append : ∀ rest, groups ⟨inBracket, false⟩ (cs ++ rest) =
    contents.map some ++ groups ⟨inBracket, false⟩ rest
  enclosed_append : ∀ depth rest, enclosed depth ⟨inBracket, false⟩ (cs ++ rest) =
    (enclosed depth ⟨inBracket, false⟩ rest).map (cs ++ ·)

section

variable {mode : Mode} {c : Char} {cs : List Char}

theorem groups_cons_plain (h : mode.mark c cs = .plain) :
    groups mode (c :: cs) = groups (mode.next c) cs := by
  rw [groups, h]

theorem enclosed_cons_plain (h : mode.mark c cs = .plain) (depth : Nat) :
    enclosed depth mode (c :: cs) = (enclosed depth (mode.next c) cs).map (c :: ·) := by
  rw [enclosed, h]

end

namespace Balanced

variable {inBracket : Bool} {cs ds : List Char} {contents contents' : List (List Char)}

theorem nil : Balanced inBracket [] [] where
  groups_append rest := rfl
  enclosed_append depth rest := by
    simp

theorem append (h : Balanced inBracket cs contents) (h' : Balanced inBracket ds contents') :
    Balanced inBracket (cs ++ ds) (contents ++ contents') where
  groups_append rest := by
    rw [List.append_assoc, h.groups_append, h'.groups_append, List.map_append, List.append_assoc]
  enclosed_append depth rest := by
    rw [List.append_assoc, h.enclosed_append, h'.enclosed_append, Option.map_map]
    congr 1
    funext text
    exact (List.append_assoc cs ds text).symm

/-- Pieces without groups, one after the other. -/
theorem flatMap {β : Type} {text : β → List Char} (h : ∀ x, Balanced inBracket (text x) [])
    (xs : List β) : Balanced inBracket (xs.flatMap text) [] := by
  induction xs with
  | nil => exact .nil
  | cons x xs ih => exact (h x).append ih

/-- A character that neither escapes nor opens or closes anything. -/
theorem char {c : Char} (hslash : c ≠ '\\') (hopen : c ≠ '[') (hclose : c ≠ ']')
    (h : inBracket = true ∨ c ≠ '(' ∧ c ≠ ')') : Balanced inBracket [c] [] := by
  have hnext : Mode.next ⟨inBracket, false⟩ c = ⟨inBracket, false⟩ := by
    simp [Mode.next, hslash, hopen, hclose]
  have hmark : ∀ rest, Mode.mark ⟨inBracket, false⟩ c rest = .plain := by
    intro rest
    rcases h with rfl | ⟨hleft, hright⟩
    · rfl
    · simp [Mode.mark, hleft, hright]
  constructor
  · intro rest
    show groups _ (c :: rest) = _
    rw [groups_cons_plain (hmark rest), hnext]
    rfl
  · intro depth rest
    show enclosed _ _ (c :: rest) = _
    rw [enclosed_cons_plain (hmark rest), hnext]
    rfl

/-- A character after a backslash, whatever it is. -/
theorem escape (c : Char) : Balanced inBracket ['\\', c] [] := by
  have hslash : ∀ rest, Mode.mark ⟨inBracket, false⟩ '\\' rest = .plain := by
    intro rest
    cases inBracket <;> rfl
  have hchar : ∀ rest, Mode.mark ⟨inBracket, true⟩ c rest = .plain := fun rest => rfl
  constructor
  · intro rest
    show groups _ ('\\' :: c :: rest) = _
    rw [groups_cons_plain (hslash _)]
    show groups ⟨inBracket, true⟩ (c :: rest) = _
    rw [groups_cons_plain (hchar _)]
    rfl
  · intro depth rest
    show enclosed _ _ ('\\' :: c :: rest) = _
    rw [enclosed_cons_plain (hslash _)]
    show (enclosed depth ⟨inBracket, true⟩ (c :: rest)).map _ = _
    rw [enclosed_cons_plain (hchar _), Option.map_map]
    rfl

/-- Brackets around what has no groups between brackets. -/
theorem bracket (h : Balanced true cs []) : Balanced false ('[' :: (cs ++ [']'])) [] := by
  constructor
  · intro rest
    rw [List.cons_append, List.append_assoc, groups_cons_plain rfl]
    show groups ⟨true, false⟩ (cs ++ ']' :: rest) = _
    rw [h.groups_append, groups_cons_plain rfl]
    rfl
  · intro depth rest
    rw [List.cons_append, List.append_assoc, enclosed_cons_plain rfl]
    show (enclosed depth ⟨true, false⟩ (cs ++ ']' :: rest)).map _ = _
    rw [h.enclosed_append, enclosed_cons_plain rfl]
    show (((enclosed depth ⟨false, false⟩ rest).map _).map _).map _ = _
    simp [Option.map_map, Function.comp_def]

section

variable (h : Balanced false cs contents)

include h

/-- The parenthesis after a balanced text closes what is open before it. -/
theorem enclosed_close (rest : List Char) : enclosed 0 {} (cs ++ ')' :: rest) = some cs := by
  show enclosed 0 ⟨false, false⟩ _ = _
  rw [h.enclosed_append]
  show Option.map _ (some []) = _
  simp

theorem groups_close (rest : List Char) :
    groups {} (cs ++ ')' :: rest) = contents.map some ++ groups {} rest :=
  h.groups_append (')' :: rest)

theorem enclosed_nested (depth : Nat) (rest : List Char) :
    enclosed (depth + 1) {} (cs ++ ')' :: rest) = (enclosed depth {} rest).map (cs ++ ')' :: ·) := by
  show enclosed (depth + 1) ⟨false, false⟩ _ = _
  rw [h.enclosed_append]
  show Option.map _ (Option.map _ _) = _
  rw [Option.map_map]
  rfl

/-- A group around a text has a number unless the text starts with a question mark. It comes before the
groups inside it. -/
theorem group (numbered : Bool) (hnumbered : (cs.head? != some '?') = numbered) :
    Balanced false ('(' :: (cs ++ [')'])) (if numbered then cs :: contents else contents) := by
  have hmark : ∀ rest, Mode.mark {} '(' (cs ++ ')' :: rest) = .opens numbered := by
    intro rest
    rw [← hnumbered]
    -- the character after the parenthesis is the first of the text, or the parenthesis that closes it
    cases cs <;> rfl
  constructor
  · intro rest
    have hinner := h.groups_close rest
    have henclosed := h.enclosed_close rest
    rw [List.cons_append, List.append_assoc]
    show groups {} ('(' :: (cs ++ ')' :: rest)) = _
    rw [groups, hmark]
    cases numbered with
    | true =>
      show enclosed 0 {} (cs ++ ')' :: rest) :: groups {} (cs ++ ')' :: rest) = _
      rw [henclosed, hinner]
      rfl
    | false => exact hinner
  · intro depth rest
    rw [List.cons_append, List.append_assoc]
    show enclosed depth {} ('(' :: (cs ++ ')' :: rest)) = _
    rw [enclosed, hmark]
    show (enclosed (depth + 1) {} (cs ++ ')' :: rest)).map _ = _
    rw [h.enclosed_nested, Option.map_map]
    simp [Function.comp_def]

end

end Balanced

/-! ## Pieces of regular expressions -/

theorem balanced_escapedChar {inBracket : Bool} {specials : List Char} (c : Char)
    (hspecials : ['\\', '[', ']'].all specials.contains)
    (hparens : inBracket = true ∨ ['(', ')'].all specials.contains) :
    Balanced inBracket (escapedChar specials c) [] := by
  rw [escapedChar]
  split
  · exact .escape c
  · next hc =>
    have hne : ∀ {ds : List Char}, ds.all specials.contains → ∀ d ∈ ds, c ≠ d := by
      rintro ds hds d hd rfl
      exact hc (List.all_eq_true.mp hds c hd)
    refine .char (hne hspecials _ (by simp)) (hne hspecials _ (by simp))
      (hne hspecials _ (by simp)) ?_
    rcases hparens with hbracket | hparens
    · exact Or.inl hbracket
    · exact Or.inr ⟨hne hparens _ (by simp), hne hparens _ (by simp)⟩

theorem balanced_literalText (cs : List Char) : Balanced false (literalText cs) [] := by
  apply Balanced.flatMap
  intro c
  exact balanced_escapedChar c (by decide) (Or.inr (by decide))

theorem balanced_itemText (item : ClassItem) : Balanced true (itemText item) [] := by
  have hchar : ∀ c, Balanced true (escapedChar classSpecials c) [] := by
    intro c
    exact balanced_escapedChar c (by decide) (Or.inl rfl)
  cases item with
  | char c => exact hchar c
  | range first last =>
    have hdash : Balanced true ['-'] [] := .char (by decide) (by decide) (by decide) (Or.inl rfl)
    exact (hchar first).append (hdash.append (hchar last))

theorem balanced_classText (c : CharClass) : Balanced false (classText c) [] := by
  have hitems : Balanced true (c.items.flatMap itemText) [] := .flatMap balanced_itemText c.items
  have hpolarity : Balanced true (polarityText c.polarity) [] := by
    cases c.polarity with
    | positive => exact .nil
    | negated => exact .char (by decide) (by decide) (by decide) (Or.inl rfl)
  have hboth := (hpolarity.append hitems).bracket
  rwa [List.append_assoc] at hboth

/-- The characters that mean nothing to the reader. -/
def isIdle (c : Char) : Bool :=
  !(['\\', '[', ']', '(', ')'].contains c)

theorem balanced_of_isIdle {cs : List Char} (h : cs.all isIdle) : Balanced false cs [] := by
  induction cs with
  | nil => exact .nil
  | cons c cs ih =>
    rw [List.all_cons, Bool.and_eq_true] at h
    have hhead : Balanced false [c] [] := by
      have hidle := h.1
      simp only [isIdle, List.contains_cons, List.contains_nil, Bool.or_false, Bool.not_or,
        Bool.and_eq_true, Bool.not_eq_true', beq_eq_false_iff_ne] at hidle
      obtain ⟨hslash, hopen, hclose, hleft, hright⟩ := hidle
      exact .char hslash hopen hclose (Or.inr ⟨hleft, hright⟩)
    exact hhead.append (ih h.2)

theorem isIdle_toDigits (n : Nat) : (Nat.toDigits 10 n).all isIdle := by
  rw [List.all_eq_true]
  intro c hc
  have hdigit : c.isDigit := Nat.isDigit_of_mem_toDigits (by decide) (by decide) hc
  by_cases hidle : isIdle c
  · exact hidle
  · -- no digit is a backslash, a bracket or a parenthesis
    simp only [isIdle, Bool.not_eq_true, Bool.not_eq_false', List.contains_iff_mem, List.mem_cons,
      List.not_mem_nil, or_false] at hidle
    rcases hidle with rfl | rfl | rfl | rfl | rfl <;> cases hdigit

theorem balanced_quantifierText (min : Nat) (max : Option Nat) :
    Balanced false (quantifierText min max) [] := by
  apply balanced_of_isIdle
  have hdigits := isIdle_toDigits
  fun_cases quantifierText min max with
  | case1 => rfl
  | case2 => rfl
  | case3 => rfl
  | case4 min max h => simp [hdigits, isIdle]
  | case5 min h₀ h₁ => simp [hdigits, isIdle]

theorem balanced_groupedText {cs : List Char} {contents : List (List Char)}
    (h : Balanced false cs contents) (needed : Bool) :
    Balanced false (groupedText needed cs) contents := by
  cases needed with
  | false => exact h
  | true =>
    have hmarks : Balanced false ['?', ':'] [] := balanced_of_isIdle rfl
    exact (hmarks.append h).group false rfl

theorem balanced_lookText {cs : List Char} {contents : List (List Char)}
    (h : Balanced false cs contents) (side : Side) (polarity : Polarity) :
    Balanced false ('(' :: '?' :: (lookText side polarity ++ (cs ++ [')']))) contents := by
  have hmarks : Balanced false ('?' :: lookText side polarity) [] := by
    apply balanced_of_isIdle
    cases side <;> cases polarity <;> rfl
  have hgroup := (hmarks.append h).group false rfl
  simpa using hgroup

/-! ## First characters -/

theorem head?_groupedText {needed : Bool} {cs : List Char} (h : cs.head? ≠ some '?') :
    (groupedText needed cs).head? ≠ some '?' := by
  cases needed with
  | false => exact h
  | true => simp [groupedText]

theorem head?_append {cs ds : List Char} (h : cs.head? ≠ some '?') (h' : ds.head? ≠ some '?') :
    (cs ++ ds).head? ≠ some '?' := by
  cases cs with
  | nil => exact h'
  | cons c cs => exact h

theorem head?_literalText (cs : List Char) : (literalText cs).head? ≠ some '?' := by
  cases cs with
  | nil => simp [literalText]
  | cons c cs =>
    rw [literalText, List.flatMap_cons, escapedChar]
    split
    · simp
    · next hc =>
      rw [List.singleton_append, List.head?_cons]
      rintro ⟨⟩
      exact hc rfl

theorem literalText_ne_nil {cs : List Char} (h : cs ≠ []) : literalText cs ≠ [] := by
  obtain ⟨c, cs, rfl⟩ := List.exists_cons_of_ne_nil h
  rw [literalText, List.flatMap_cons, escapedChar]
  split <;> simp

end Regex

namespace Pattern

open Regex

variable {α : Type}

/-! ## Captures in the order of the tree -/

mutual

/-- The nodes of a pattern, each before the nodes below it and these from left to right. -/
def preorder : Pattern α → List (Pattern α)
  | .set polarity members => [.set polarity members]
  | .range polarity first last => [.range polarity first last]
  | .any => [.any]
  | .literal text => [.literal text]
  | .lineStart => [.lineStart]
  | .lineEnd => [.lineEnd]
  | .alt ps => .alt ps :: preorderAll ps
  | .seq ps => .seq ps :: preorderAll ps
  | .rep body min max => .rep body min max :: preorder body
  | .look side polarity body => .look side polarity body :: preorder body
  | .capture body label => .capture body label :: preorder body

/-- The nodes of several patterns, one pattern after the other. -/
def preorderAll : List (Pattern α) → List (Pattern α)
  | [] => []
  | p :: ps => preorder p ++ preorderAll ps

end

/-- What a capture captures, and its label. -/
def captured? : Pattern α → Option (Pattern α × α)
  | .capture body label => some (body, label)
  | _ => none

/-- The captures of a pattern, each before those inside it and these from left to right. -/
def captureNodes (p : Pattern α) : List (Pattern α × α) :=
  p.preorder.filterMap captured?

/-- The captures of several patterns, one pattern after the other. -/
def captureNodesAll (ps : List (Pattern α)) : List (Pattern α × α) :=
  (preorderAll ps).filterMap captured?

@[simp] theorem captureNodesAll_nil : captureNodesAll ([] : List (Pattern α)) = [] := rfl

@[simp] theorem captureNodesAll_cons (p : Pattern α) (ps : List (Pattern α)) :
    captureNodesAll (p :: ps) = p.captureNodes ++ captureNodesAll ps := by
  rw [captureNodesAll, preorderAll, List.filterMap_append]
  rfl

theorem captureNodes_capture (body : Pattern α) (label : α) :
    (capture body label).captureNodes = (body, label) :: body.captureNodes := rfl

mutual

/-- The labels of a pattern are those of its captures in the order of the tree. -/
theorem map_snd_captureNodes : (p : Pattern α) → p.captureNodes.map (·.2) = p.captures
  | .set _ _ => rfl
  | .range _ _ _ => rfl
  | .any => rfl
  | .literal _ => rfl
  | .lineStart => rfl
  | .lineEnd => rfl
  | .alt ps => map_snd_captureNodesAll ps
  | .seq ps => map_snd_captureNodesAll ps
  | .rep body _ _ => map_snd_captureNodes body
  | .look _ _ body => map_snd_captureNodes body
  | .capture body label => by
    rw [captureNodes_capture, captures, List.map_cons, map_snd_captureNodes body]

theorem map_snd_captureNodesAll : (ps : List (Pattern α)) →
    (captureNodesAll ps).map (·.2) = capturesAll ps
  | [] => rfl
  | p :: ps => by
    rw [captureNodesAll_cons, capturesAll, List.map_append, map_snd_captureNodes p,
      map_snd_captureNodesAll ps]

end

/-- An alternation that is a class has no captures. -/
theorem captureNodesAll_of_mergedClass? {ps : List (Pattern α)} {c : CharClass}
    (h : mergedClass? ps = some c) : captureNodesAll ps = [] := by
  have hlabels := map_snd_captureNodesAll ps
  rw [capturesAll_of_mergedClass? ps c h] at hlabels
  exact List.map_eq_nil_iff.mp hlabels

/-! ## No text starts with a question mark -/

/-- A set is written as the character it holds, or as a bracket expression. -/
theorem text_set_cases (polarity : Polarity) (members : String) :
    (∃ c, (set polarity members : Pattern α).text = literalText [c]) ∨
    (set polarity members : Pattern α).text = classText (.ofString polarity members) := by
  unfold text
  split
  · next c _ => exact Or.inl ⟨c, rfl⟩
  · exact Or.inr rfl

/-- What stands before a quantifier without a group is not empty. -/
theorem text_ne_nil {p : Pattern α} (h : p.isLooseOperand = false) : p.text ≠ [] := by
  cases p with
  | set polarity members =>
    rcases text_set_cases (α := α) polarity members with ⟨c, hc⟩ | hc
    · rw [hc]
      exact literalText_ne_nil (by simp)
    · simp [hc, classText]
  | literal chars =>
    have hlength : chars.length = 1 := by simpa [isLooseOperand] using h
    apply literalText_ne_nil
    intro hnil
    rw [← String.length_toList, hnil] at hlength
    cases hlength
  | alt ps =>
    have hclass : (mergedClass? ps).isNone = false := by
      simpa [isLooseOperand, isLoose, isOpenAlt, isSeq] using h
    rw [text]
    split
    · simp [classText]
    · next hnone =>
      rw [hnone] at hclass
      cases hclass
  | seq ps => cases h
  | rep body min max => cases h
  | range | any | lineStart | lineEnd | look | capture => simp [text, classText]

mutual

theorem head?_text : (p : Pattern α) → p.text.head? ≠ some '?'
  | .set polarity members => by
    rcases text_set_cases (α := α) polarity members with ⟨c, hc⟩ | hc
    · rw [hc]
      exact head?_literalText [c]
    · simp [hc, classText]
  | .range _ _ _ => by simp [text, classText]
  | .any => by simp [text]
  | .literal text => head?_literalText text.toList
  | .lineStart => by simp [text]
  | .lineEnd => by simp [text]
  | .alt ps => by
    rw [text]
    split
    · simp [classText]
    · exact head?_alternativesText ps
  | .seq ps => head?_membersText ps
  | .rep body min max => by
    have hbody := head?_text body
    rw [text]
    cases hloose : body.isLooseOperand with
    | true => simp [groupedText]
    | false =>
      -- something stands before the quantifier, which may be a question mark itself
      obtain ⟨c, cs, hc⟩ := List.exists_cons_of_ne_nil (text_ne_nil hloose)
      rw [hc] at hbody ⊢
      exact hbody
  | .look _ _ _ => by simp [text]
  | .capture _ _ => by simp [text]

theorem head?_alternativesText : (ps : List (Pattern α)) → (alternativesText ps).head? ≠ some '?'
  | [] => by simp [alternativesText]
  | [p] => head?_groupedText (head?_text p)
  | p :: q :: ps => head?_append (head?_groupedText (head?_text p)) (by simp)

theorem head?_membersText : (ps : List (Pattern α)) → (membersText ps).head? ≠ some '?'
  | [] => by simp [membersText]
  | p :: ps => head?_append (head?_groupedText (head?_text p)) (head?_membersText ps)

end

/-! ## Groups and captures -/

/-- What the captures of a pattern hold. -/
def contents (nodes : List (Pattern α × α)) : List (List Char) :=
  nodes.map (·.1.text)

mutual

/-- The groups in the text of a pattern are its captures. -/
theorem balanced_text : (p : Pattern α) → Balanced false p.text (contents p.captureNodes)
  | .set polarity members => by
    show Balanced false _ []
    rcases text_set_cases (α := α) polarity members with ⟨c, hc⟩ | hc
    · rw [hc]
      exact balanced_literalText [c]
    · rw [hc]
      exact balanced_classText _
  | .range _ _ _ => balanced_classText _
  | .any => balanced_of_isIdle rfl
  | .literal text => balanced_literalText text.toList
  | .lineStart => balanced_of_isIdle rfl
  | .lineEnd => balanced_of_isIdle rfl
  | .alt ps => by
    show Balanced false _ (contents (captureNodesAll ps))
    rw [text]
    split
    · next c hc =>
      rw [captureNodesAll_of_mergedClass? hc]
      exact balanced_classText c
    · exact balanced_alternativesText ps
  | .seq ps => balanced_membersText ps
  | .rep body min max => by
    have hbody := balanced_groupedText (balanced_text body) body.isLooseOperand
    have hboth := hbody.append (balanced_quantifierText min max)
    rwa [List.append_nil] at hboth
  | .look side polarity body => balanced_lookText (balanced_text body) side polarity
  | .capture body label => by
    -- the parenthesis counts, since what follows it is not a question mark
    have hnumbered : (body.text.head? != some '?') = true := by
      simpa using head?_text body
    exact (balanced_text body).group true hnumbered

theorem balanced_alternativesText : (ps : List (Pattern α)) →
    Balanced false (alternativesText ps) (contents (captureNodesAll ps))
  | [] => .nil
  | [p] => by
    have hp := balanced_groupedText (balanced_text p) p.isSeq
    rw [captureNodesAll_cons, captureNodesAll_nil, List.append_nil]
    exact hp
  | p :: q :: ps => by
    have hp := balanced_groupedText (balanced_text p) p.isSeq
    have hbar : Balanced false ['|'] [] := balanced_of_isIdle rfl
    have hps := hp.append (hbar.append (balanced_alternativesText (q :: ps)))
    rw [captureNodesAll_cons, contents, List.map_append]
    exact hps

theorem balanced_membersText : (ps : List (Pattern α)) →
    Balanced false (membersText ps) (contents (captureNodesAll ps))
  | [] => .nil
  | p :: ps => by
    have hp := balanced_groupedText (balanced_text p) p.isOpenAlt
    have hps := hp.append (balanced_membersText ps)
    rw [captureNodesAll_cons, contents, List.map_append]
    exact hps

end

/-- The numbered groups of a text are the captures of the pattern. The emitter records as many labels as
there are groups; the first group holds the regular expression of what the first capture of the tree
captures, and the first label is that of this capture, and so on for each of them. -/
theorem numberedGroups_regex (p : Pattern α) :
    (p.writeRegex (⟨"", #[]⟩ : Output String α)).captures.toList = p.captures ∧
    (numberedGroups p.regex).length = p.captures.length ∧
    numberedGroups p.regex = p.captureNodes.map (fun node => some node.1.regex) ∧
    p.captures = p.captureNodes.map (·.2) := by
  have hgroups : numberedGroups p.regex = p.captureNodes.map (fun node => some node.1.regex) := by
    have htext := (balanced_text p).groups_append []
    rw [List.append_nil] at htext
    rw [numberedGroups, toList_regex, htext]
    simp [contents, groups, ← toList_regex, Function.comp_def]
  have hlabels := map_snd_captureNodes p
  refine ⟨?_, ?_, hgroups, hlabels.symm⟩
  · simp [writeRegex_eq_add, Output.add]
  · rw [hgroups, ← hlabels, List.length_map, List.length_map]

-- `\((?:a|([(\[-\^]b))+(c)`: one parenthesis is escaped, one is between brackets, one has no number
example :
    numberedGroups (Pattern.regex (.seq [.literal "(",
      .rep (.alt [.literal "a", .capture (.seq [.alt [.set .positive "(", .range .positive '[' '^'],
        .literal "b"]) 0]) 1 none, .capture (.literal "c") 1])) =
    [some "[(\\[-\\^]b", some "c"] := by
  decide +kernel

end Pattern

end TextMate
