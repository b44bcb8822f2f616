import TextMate.Proofs.Json.Grammar
import TextMate.Proofs.Scanning

/-!
# A strict JSON parser

`parse` reads a text of the grammar of `TextMate.Proofs.Json.Grammar` back to its value, and nothing
else:

    parse_eq_some_iff : parse text = some v ↔ IsText text.toList v

The readers below take a value off the front of the text and return it with what is left. Each call
inside another one starts at least one character further on, so the length of the text bounds how deep
the calls go; that is the number that `readString`, `readValue` and the two others count down.
-/

namespace TextMate.Json

/-! ## The parser -/

/-- What is left after the leading blanks. -/
def skipBlanks (cs : List Char) : List Char :=
  cs.dropWhile isBlank

/-- The characters of the numbers and of the three names. -/
def isScalarChar (c : Char) : Bool :=
  c.isAlphanum || c == '+' || c == '-' || c == '.'

/-- The value of a whole number or name. -/
def scalar? (cs : List Char) : Option Value :=
  if cs = "null".toList then some .null
  else if cs = "true".toList then some (.bool true)
  else if cs = "false".toList then some (.bool false)
  else if h : isNumber cs then some (.number ⟨cs, h⟩)
  else none

/-- Read a number or a name, which ends where its characters do. -/
def readScalar (cs : List Char) : Option (Value × List Char) :=
  (scalar? (cs.takeWhile isScalarChar)).map (·, cs.dropWhile isScalarChar)

/-- Read the second half of a surrogate pair. -/
def readLow (high : Nat) : List Char → Option (Char × List Char)
  | '\\' :: 'u' :: a :: b :: c :: d :: rest =>
    match codeUnit? a b c d with
    | some low => if isLowSurrogate low then some (surrogatePair high low, rest) else none
    | none => none
  | _ => none

/-- Read what follows a backslash. -/
def readEscape : List Char → Option (Char × List Char)
  | 'u' :: a :: b :: c :: d :: rest =>
    match codeUnit? a b c d with
    | some unit =>
      if isHighSurrogate unit then readLow unit rest
      else if isLowSurrogate unit then none
      else some (Char.ofNat unit, rest)
    | none => none
  | e :: rest => (shortEscape? e).map (·, rest)
  | [] => none

/-- Read one character of a string. -/
def readChar : List Char → Option (Char × List Char)
  | [] => none
  | c :: rest =>
    if c = '\\' then readEscape rest
    else if isUnescaped c then some (c, rest)
    else none

/-- Read the characters of a string up to its closing quote. -/
def readString : Nat → List Char → Option (List Char × List Char)
  | 0, _ => none
  | n + 1, cs =>
    if cs.head? = some '"' then
      some ([], cs.tail)
    else do
      let (c, rest) ← readChar cs
      let (text, rest) ← readString n rest
      return (c :: text, rest)

mutual

/-- Read a value. -/
def readValue : Nat → List Char → Option (Value × List Char)
  | 0, _ => none
  | _ + 1, [] => none
  | n + 1, c :: rest =>
    if c = '"' then do
      let (text, rest) ← readString n rest
      return (.string (String.ofList text), rest)
    else if c = '[' then
      if (skipBlanks rest).head? = some ']' then
        some (.array [], (skipBlanks rest).tail)
      else do
        let (vs, rest) ← readElements n rest
        return (.array vs, rest)
    else if c = '\x7b' then
      if (skipBlanks rest).head? = some '\x7d' then
        some (.object [], (skipBlanks rest).tail)
      else do
        let (fields, rest) ← readFields n rest
        return (.object fields, rest)
    else
      readScalar (c :: rest)

/-- Read one element or more, and the bracket that closes the array. -/
def readElements : Nat → List Char → Option (List Value × List Char)
  | 0, _ => none
  | n + 1, cs => do
    let (v, rest) ← readValue n (skipBlanks cs)
    match skipBlanks rest with
    | ',' :: rest => do
      let (vs, rest) ← readElements n rest
      return (v :: vs, rest)
    | ']' :: rest => some ([v], rest)
    | _ => none

/-- Read one field or more, and the brace that closes the object. -/
def readFields : Nat → List Char → Option (List (String × Value) × List Char)
  | 0, _ => none
  | n + 1, cs =>
    match skipBlanks cs with
    | '"' :: rest => do
      let (key, rest) ← readString n rest
      match skipBlanks rest with
      | ':' :: rest => do
        let (v, rest) ← readValue n (skipBlanks rest)
        match skipBlanks rest with
        | ',' :: rest => do
          let (fields, rest) ← readFields n rest
          return ((String.ofList key, v) :: fields, rest)
        | '\x7d' :: rest => some ([(String.ofList key, v)], rest)
        | _ => none
      | _ => none
    | _ => none

end

/-- The value of a JSON text. -/
def parse (text : String) : Option Value := do
  let (v, rest) ← readValue (text.toList.length + 1) (skipBlanks text.toList)
  if skipBlanks rest = [] then some v else none

/-! ## Blanks -/

/-- The text is at a character that is not blank, or at its end. -/
abbrev AtToken (cs : List Char) : Prop :=
  Stops isBlank cs

theorem skipBlanks_append {b cs : List Char} (hb : IsBlanks b) (h : AtToken cs) :
    skipBlanks (b ++ cs) = cs :=
  dropWhile_append_of_stops hb h

/-- Blanks are skipped up to the next character that is not blank. -/
theorem skipBlanks_token {b : List Char} (hb : IsBlanks b) (c : Char) (rest : List Char)
    (hc : isBlank c = false) : skipBlanks (b ++ c :: rest) = c :: rest :=
  skipBlanks_append hb (stops_cons.mpr hc)

/-- What is skipped is a run of blanks. -/
theorem exists_blanks (cs : List Char) : ∃ b, IsBlanks b ∧ cs = b ++ skipBlanks cs :=
  ⟨cs.takeWhile isBlank, fun _ => mem_takeWhile, List.takeWhile_append_dropWhile.symm⟩

/-! ## Numbers and names -/

/-- A number or a name ends here. -/
abbrev EndsScalar (cs : List Char) : Prop :=
  Stops isScalarChar cs

theorem isScalarChar_of_isDigit {c : Char} (h : c.isDigit) : isScalarChar c := by
  simp [isScalarChar, Char.isAlphanum, h]

theorem all_of_isDigits {cs : List Char} (h : isDigits cs) : ∀ c ∈ cs, isScalarChar c := by
  intro c hc
  simp only [isDigits, Bool.and_eq_true, List.all_eq_true] at h
  exact isScalarChar_of_isDigit (h.2 c hc)

theorem all_of_dropSign {cs : List Char} (h : ∀ c ∈ dropSign cs, isScalarChar c) :
    ∀ c ∈ cs, isScalarChar c := by
  unfold dropSign at h
  split at h
  · exact List.forall_mem_cons.mpr ⟨by decide, h⟩
  · exact List.forall_mem_cons.mpr ⟨by decide, h⟩
  · exact h

theorem all_of_isExponent {cs : List Char} (h : isExponent cs) : ∀ c ∈ cs, isScalarChar c := by
  cases cs with
  | nil => simp
  | cons e cs =>
    simp only [isExponent, Bool.and_eq_true, Bool.or_eq_true, beq_iff_eq] at h
    refine List.forall_mem_cons.mpr ⟨?_, all_of_dropSign (all_of_isDigits h.2)⟩
    rcases h.1 with rfl | rfl
    · decide
    · decide

theorem all_of_isFraction {cs : List Char} (h : isFraction cs) : ∀ c ∈ cs, isScalarChar c := by
  cases cs with
  | nil => simp
  | cons c cs =>
    rw [isFraction] at h
    split at h
    · next hc =>
      subst hc
      rw [Bool.and_eq_true] at h
      refine List.forall_mem_cons.mpr ⟨by decide, ?_⟩
      rw [← List.takeWhile_append_dropWhile (p := Char.isDigit) (l := cs)]
      exact List.forall_mem_append.mpr ⟨all_of_isDigits h.1, all_of_isExponent h.2⟩
    · exact all_of_isExponent h

theorem all_of_isUnsigned {cs : List Char} (h : isUnsigned cs) : ∀ c ∈ cs, isScalarChar c := by
  simp only [isUnsigned, isInt, Bool.and_eq_true] at h
  rw [← List.takeWhile_append_dropWhile (p := Char.isDigit) (l := cs)]
  exact List.forall_mem_append.mpr ⟨all_of_isDigits h.1.1, all_of_isFraction h.2⟩

theorem all_of_isNumber {cs : List Char} (h : isNumber cs) : ∀ c ∈ cs, isScalarChar c := by
  unfold isNumber at h
  split at h
  · exact List.forall_mem_cons.mpr ⟨by decide, all_of_isUnsigned h⟩
  · exact all_of_isUnsigned h

/-- A number or a name is read back, and nothing after it. -/
theorem readScalar_append {cs rest : List Char} {v : Value} (hcs : ∀ c ∈ cs, isScalarChar c)
    (hv : scalar? cs = some v) (hrest : EndsScalar rest) :
    readScalar (cs ++ rest) = some (v, rest) := by
  rw [readScalar, takeWhile_append_of_stops hcs hrest, dropWhile_append_of_stops hcs hrest, hv]
  rfl

theorem scalar?_number (n : Number) : scalar? n.spelling = some (.number n) := by
  have hn := n.isNumber
  have hname : ∀ name, isNumber name = false → n.spelling ≠ name := by
    rintro name hname rfl
    rw [hname] at hn
    cases hn
  rw [scalar?, if_neg (hname _ (by decide)), if_neg (hname _ (by decide)),
    if_neg (hname _ (by decide)), dif_pos hn]

theorem denotes_of_scalar? {cs : List Char} {v : Value} (h : scalar? cs = some v) :
    Denotes cs v := by
  unfold scalar? at h
  split at h
  · next hcs => cases h; subst hcs; exact .null
  split at h
  · next hcs => cases h; subst hcs; exact .true
  split at h
  · next hcs => cases h; subst hcs; exact .false
  split at h
  · next hn => cases h; exact .number ⟨cs, hn⟩
  · cases h

/-! ## Strings -/

/-- One spelled character is read back. -/
theorem readChar_append {piece : List Char} {c : Char} (h : Spells piece c) (rest : List Char) :
    readChar (piece ++ rest) = some (c, rest) := by
  cases h with
  | unescaped hc =>
    have hslash : c ≠ '\\' := by
      rintro rfl
      exact absurd hc (by decide)
    simp [readChar, hslash, hc]
  | @short e _ he =>
    have hu : e ≠ 'u' := by
      rintro rfl
      simp [shortEscape?] at he
    simp only [List.cons_append, List.nil_append, readChar, if_true]
    unfold readEscape
    split
    · next heq => exact absurd (List.cons.inj heq).1 hu
    · next heq =>
      obtain ⟨rfl, rfl⟩ := List.cons.inj heq
      simp [he]
    · next heq => cases heq
  | unit hunit hhigh hlow => simp [readChar, readEscape, hunit, hhigh, hlow]
  | pair hunit hhigh hunit' hlow =>
    simp [readChar, readEscape, readLow, hunit, hhigh, hunit', hlow]

/-- No spelling of a character starts with a quote. -/
theorem head_ne_quote_of_spells {piece : List Char} {c : Char} (h : Spells piece c)
    (rest : List Char) : (piece ++ rest).head? ≠ some '"' := by
  cases h with
  | unescaped hc =>
    rintro hquote
    simp only [List.cons_append, List.nil_append, List.head?_cons, Option.some.injEq] at hquote
    subst hquote
    exact absurd hc (by decide)
  | short he => simp
  | unit => simp
  | pair => simp

theorem length_pos_of_spells {piece : List Char} {c : Char} (h : Spells piece c) :
    0 < piece.length := by
  cases h <;> simp

/-- The characters of a string are read back up to the closing quote. -/
theorem readString_append {cs text : List Char} (h : SpellsAll cs text) (rest : List Char) {n : Nat}
    (hn : cs.length < n) : readString n (cs ++ '"' :: rest) = some (text, rest) := by
  induction h generalizing n with
  | nil =>
    obtain ⟨n, rfl⟩ := Nat.exists_eq_succ_of_ne_zero (Nat.ne_of_gt hn)
    simp [readString]
  | @cons piece c cs text hc _ ih =>
    obtain ⟨n, rfl⟩ := Nat.exists_eq_succ_of_ne_zero (Nat.ne_of_gt (Nat.zero_lt_of_lt hn))
    have hpiece := length_pos_of_spells hc
    rw [List.length_append] at hn
    have hrest := ih (n := n) (by omega)
    rw [List.append_assoc, readString, if_neg (head_ne_quote_of_spells hc _),
      readChar_append hc]
    simp [hrest]

/-- What is read as one character spells it. -/
theorem spells_of_readChar {cs rest : List Char} {c : Char} (h : readChar cs = some (c, rest)) :
    ∃ piece, cs = piece ++ rest ∧ Spells piece c := by
  unfold readChar at h
  split at h
  · cases h
  split at h
  · next hslash =>
    subst hslash
    unfold readEscape at h
    split at h
    · split at h
      · next unit hunit =>
        split at h
        · next hhigh =>
          unfold readLow at h
          split at h
          · split at h
            · next low hlow =>
              split at h
              · next hislow =>
                simp only [Option.some.injEq, Prod.mk.injEq] at h
                obtain ⟨rfl, rfl⟩ := h
                exact ⟨_, rfl, .pair hunit hhigh hlow hislow⟩
              · cases h
            · cases h
          · cases h
        · next hhigh =>
          split at h
          · cases h
          · next hlow =>
            cases h
            exact ⟨_, rfl, .unit hunit (by simpa using hhigh) (by simpa using hlow)⟩
      · cases h
    · obtain ⟨c', he, heq⟩ := Option.map_eq_some_iff.mp h
      cases heq
      exact ⟨_, rfl, .short he⟩
    · cases h
  · split at h
    · next hc =>
      cases h
      exact ⟨_, rfl, .unescaped hc⟩
    · cases h

/-- What is read as a string spells it. -/
theorem spellsAll_of_readString {n : Nat} {cs text rest : List Char}
    (h : readString n cs = some (text, rest)) :
    ∃ ks, cs = ks ++ '"' :: rest ∧ SpellsAll ks text := by
  induction n generalizing cs text with
  | zero => cases h
  | succ n ih =>
    rw [readString] at h
    split at h
    · next hquote =>
      obtain ⟨cs, rfl⟩ := List.head?_eq_some_iff.mp hquote
      cases h
      exact ⟨[], rfl, .nil⟩
    · obtain ⟨⟨c, cs'⟩, hc, h⟩ := Option.bind_eq_some_iff.mp h
      obtain ⟨⟨text', rest'⟩, htext, h⟩ := Option.bind_eq_some_iff.mp h
      cases h
      obtain ⟨piece, rfl, hpiece⟩ := spells_of_readChar hc
      obtain ⟨ks, rfl, hks⟩ := ih htext
      exact ⟨piece ++ ks, by simp, .cons hpiece hks⟩

/-! ## Completeness -/

theorem isScalarChar_eq_false_of_isBlank {c : Char} (h : isBlank c) : isScalarChar c = false := by
  simp only [isBlank, Bool.or_eq_true, beq_iff_eq] at h
  rcases h with ((rfl | rfl) | rfl) | rfl <;> decide

/-- Blanks and then a comma or a closing bracket end a number or a name. -/
theorem endsScalar_blanks {b : List Char} (hb : IsBlanks b) (c : Char) (rest : List Char)
    (hc : isScalarChar c = false) : EndsScalar (b ++ c :: rest) :=
  stops_append hb (fun _ => isScalarChar_eq_false_of_isBlank) (stops_cons.mpr hc)

/-- The characters that a value can start with. -/
def startsValue (c : Char) : Bool :=
  isScalarChar c || c == '"' || c == '[' || c == '\x7b'

theorem startsValue_of_denotes {cs : List Char} {v : Value} (h : Denotes cs v) :
    ∃ c ds, cs = c :: ds ∧ startsValue c := by
  cases h with
  | null => exact ⟨_, _, rfl, by decide⟩
  | true => exact ⟨_, _, rfl, by decide⟩
  | false => exact ⟨_, _, rfl, by decide⟩
  | number n =>
    have hn := n.isNumber
    cases hcs : n.spelling with
    | nil => rw [hcs] at hn; exact absurd hn (by decide)
    | cons c ds =>
      have hc := all_of_isNumber hn c (by simp [hcs])
      exact ⟨c, ds, rfl, by simp [startsValue, hc]⟩
  | string => exact ⟨_, _, rfl, by decide⟩
  | emptyArray => exact ⟨_, _, rfl, by decide⟩
  | array => exact ⟨_, _, rfl, by decide⟩
  | emptyObject => exact ⟨_, _, rfl, by decide⟩
  | object => exact ⟨_, _, rfl, by decide⟩

theorem ne_of_startsValue {c d : Char} (hc : startsValue c) (hd : startsValue d = false) :
    c ≠ d := by
  rintro rfl
  rw [hd] at hc
  cases hc

theorem isBlank_eq_false_of_startsValue {c : Char} (h : startsValue c) : isBlank c = false := by
  have hsp := ne_of_startsValue h (d := ' ') (by decide)
  have htab := ne_of_startsValue h (d := '\t') (by decide)
  have hnl := ne_of_startsValue h (d := '\n') (by decide)
  have hcr := ne_of_startsValue h (d := '\r') (by decide)
  simp [isBlank, hsp, htab, hnl, hcr]

theorem atToken_of_denotes {cs : List Char} {v : Value} (h : Denotes cs v) (rest : List Char) :
    AtToken (cs ++ rest) := by
  obtain ⟨c, ds, rfl, hc⟩ := startsValue_of_denotes h
  exact stops_cons.mpr (isBlank_eq_false_of_startsValue hc)

/-- An array with elements is not taken for an empty one. -/
theorem head?_elements_ne {cs : List Char} {vs : List Value} (h : DenotesElements cs vs)
    (rest : List Char) : (skipBlanks (cs ++ rest)).head? ≠ some ']' := by
  cases h with
  | last hb hv =>
    rw [List.append_assoc, List.append_assoc, skipBlanks_append hb (atToken_of_denotes hv _)]
    obtain ⟨c, ds, rfl, hc⟩ := startsValue_of_denotes hv
    simpa using ne_of_startsValue hc (by decide)
  | more hb hv =>
    rw [List.append_assoc, List.append_assoc, skipBlanks_append hb (atToken_of_denotes hv _)]
    obtain ⟨c, ds, rfl, hc⟩ := startsValue_of_denotes hv
    simpa using ne_of_startsValue hc (by decide)

/-- An object with fields is not taken for an empty one. -/
theorem head?_fields_ne {cs : List Char} {fields : List (String × Value)}
    (h : DenotesFields cs fields) (rest : List Char) :
    (skipBlanks (cs ++ rest)).head? ≠ some '\x7d' := by
  cases h with
  | last hb =>
    rw [List.append_assoc, List.cons_append, skipBlanks_token hb _ _ (by decide)]
    simp
  | more hb =>
    rw [List.append_assoc, List.cons_append, skipBlanks_token hb _ _ (by decide)]
    simp

/-- A number or a name is not taken for anything else. -/
theorem readValue_scalar {cs rest : List Char} {v : Value} (hne : cs ≠ [])
    (hcs : ∀ c ∈ cs, isScalarChar c) (hv : scalar? cs = some v) (hrest : EndsScalar rest) (n : Nat) :
    readValue (n + 1) (cs ++ rest) = some (v, rest) := by
  have hread := readScalar_append hcs hv hrest
  cases cs with
  | nil => exact absurd rfl hne
  | cons c cs =>
    have hc : isScalarChar c := hcs c (by simp)
    have hquote : c ≠ '"' := by rintro rfl; exact absurd hc (by decide)
    have hbracket : c ≠ '[' := by rintro rfl; exact absurd hc (by decide)
    have hbrace : c ≠ '\x7b' := by rintro rfl; exact absurd hc (by decide)
    rw [List.cons_append] at hread ⊢
    rw [readValue, if_neg hquote, if_neg hbracket, if_neg hbrace, hread]

mutual

/-- The text of a value is read back, and nothing after it. -/
theorem readValue_append {cs : List Char} {v : Value} (h : Denotes cs v) (rest : List Char)
    (hrest : EndsScalar rest) (n : Nat) (hn : cs.length < n) :
    readValue n (cs ++ rest) = some (v, rest) := by
  obtain ⟨n, rfl⟩ := Nat.exists_eq_succ_of_ne_zero (Nat.ne_of_gt (Nat.zero_lt_of_lt hn))
  match h with
  | .null => exact readValue_scalar (by simp) (List.all_eq_true.mp (by decide)) rfl hrest n
  | .true => exact readValue_scalar (by simp) (List.all_eq_true.mp (by decide)) rfl hrest n
  | .false => exact readValue_scalar (by simp) (List.all_eq_true.mp (by decide)) rfl hrest n
  | .number m =>
    refine readValue_scalar ?_ (all_of_isNumber m.isNumber) (scalar?_number m) hrest n
    obtain ⟨c, ds, hcs, -⟩ := startsValue_of_denotes (.number m)
    simp [hcs]
  | .string hcs =>
    simp only [List.length_cons, List.length_append] at hn
    have hread := readString_append hcs rest (n := n) (by omega)
    simp [readValue, hread]
  | .emptyArray hb =>
    have hskip := skipBlanks_token hb ']' rest (by decide)
    simp [readValue, hskip]
  | .array hvs =>
    simp only [List.length_cons, List.length_append, List.length_nil] at hn
    have hread := readElements_append hvs rest n (by omega)
    have hhead := head?_elements_ne hvs (']' :: rest)
    simp [readValue, hhead, hread]
  | .emptyObject hb =>
    have hskip := skipBlanks_token hb '\x7d' rest (by decide)
    simp [readValue, hskip]
  | .object hfields =>
    simp only [List.length_cons, List.length_append, List.length_nil] at hn
    have hread := readFields_append hfields rest n (by omega)
    have hhead := head?_fields_ne hfields ('\x7d' :: rest)
    simp [readValue, hhead, hread]

/-- The texts of elements are read back up to the closing bracket. -/
theorem readElements_append {cs : List Char} {vs : List Value} (h : DenotesElements cs vs)
    (rest : List Char) (n : Nat) (hn : cs.length + 1 < n) :
    readElements n (cs ++ ']' :: rest) = some (vs, rest) := by
  obtain ⟨n, rfl⟩ := Nat.exists_eq_succ_of_ne_zero (Nat.ne_of_gt (Nat.zero_lt_of_lt hn))
  match h with
  | .last hb₁ hv hb₂ =>
    simp only [List.length_append] at hn
    have hread := readValue_append hv _ (endsScalar_blanks hb₂ ']' rest (by decide)) n (by omega)
    have hskip := skipBlanks_token hb₂ ']' rest (by decide)
    simp [readElements, skipBlanks_append hb₁ (atToken_of_denotes hv _), hread, hskip]
  | @DenotesElements.more _ _ _ _ ds _ hb₁ hv hb₂ hvs =>
    simp only [List.length_cons, List.length_append] at hn
    have hmore := readElements_append hvs rest n (by omega)
    have hread := readValue_append hv _
      (endsScalar_blanks hb₂ ',' (ds ++ ']' :: rest) (by decide)) n (by omega)
    have hskip := skipBlanks_token hb₂ ',' (ds ++ ']' :: rest) (by decide)
    simp [readElements, skipBlanks_append hb₁ (atToken_of_denotes hv _), hread, hskip, hmore]

/-- The texts of fields are read back up to the closing brace. -/
theorem readFields_append {cs : List Char} {fields : List (String × Value)}
    (h : DenotesFields cs fields) (rest : List Char) (n : Nat) (hn : cs.length + 1 < n) :
    readFields n (cs ++ '\x7d' :: rest) = some (fields, rest) := by
  obtain ⟨n, rfl⟩ := Nat.exists_eq_succ_of_ne_zero (Nat.ne_of_gt (Nat.zero_lt_of_lt hn))
  match h with
  | .last hb₁ hkey hb₂ hb₃ hv hb₄ =>
    simp only [List.length_cons, List.length_append] at hn
    have hread := readValue_append hv _ (endsScalar_blanks hb₄ '\x7d' rest (by decide)) n (by omega)
    have hskip := skipBlanks_token hb₄ '\x7d' rest (by decide)
    have hkeys := fun rest => readString_append hkey rest (n := n) (by omega)
    simp [readFields, skipBlanks_append hb₁, skipBlanks_append hb₂,
      skipBlanks_append hb₃ (atToken_of_denotes hv _), hkeys, hread, hskip, isBlank]
  | @DenotesFields.more _ _ _ _ _ _ _ _ ds _ hb₁ hkey hb₂ hb₃ hv hb₄ hfields =>
    simp only [List.length_cons, List.length_append] at hn
    have hmore := readFields_append hfields rest n (by omega)
    have hread := readValue_append hv _
      (endsScalar_blanks hb₄ ',' (ds ++ '\x7d' :: rest) (by decide)) n (by omega)
    have hskip := skipBlanks_token hb₄ ',' (ds ++ '\x7d' :: rest) (by decide)
    have hkeys := fun rest => readString_append hkey rest (n := n) (by omega)
    simp [readFields, skipBlanks_append hb₁, skipBlanks_append hb₂,
      skipBlanks_append hb₃ (atToken_of_denotes hv _), hkeys, hread, hskip, hmore, isBlank]

end

/-! ## Soundness -/

/-- The first character that is not blank comes after blanks. -/
theorem exists_blanks_of_head? {cs : List Char} {c : Char} (h : (skipBlanks cs).head? = some c) :
    ∃ b, IsBlanks b ∧ cs = b ++ c :: (skipBlanks cs).tail := by
  obtain ⟨b, hb, hcs⟩ := exists_blanks cs
  obtain ⟨ds, hds⟩ := List.head?_eq_some_iff.mp h
  rw [hds] at hcs ⊢
  exact ⟨b, hb, hcs⟩

mutual

-- The readers call each other one step down, so the induction is on the number of steps.

/-- The value that is read is denoted by what was taken off the text. -/
theorem readValue_sound : (n : Nat) → {cs rest : List Char} → {v : Value} →
    readValue n cs = some (v, rest) → ∃ ds, cs = ds ++ rest ∧ Denotes ds v
  | 0, cs, rest, v, h => by cases h
  | n + 1, [], rest, v, h => by cases h
  | n + 1, c :: cs, rest, v, h => by
    rw [readValue] at h
    split at h
    · next hc =>
      subst hc
      obtain ⟨⟨text, rest'⟩, htext, h⟩ := Option.bind_eq_some_iff.mp h
      cases h
      obtain ⟨ks, rfl, hks⟩ := spellsAll_of_readString htext
      exact ⟨'"' :: (ks ++ ['"']), by simp, .string hks⟩
    split at h
    · next hc =>
      subst hc
      split at h
      · next hclose =>
        obtain ⟨b, hb, hcs⟩ := exists_blanks_of_head? hclose
        cases h
        exact ⟨'[' :: (b ++ [']']), by simpa using hcs, .emptyArray hb⟩
      · obtain ⟨⟨vs, rest'⟩, hvs, h⟩ := Option.bind_eq_some_iff.mp h
        cases h
        obtain ⟨ds, rfl, hds⟩ := readElements_sound n hvs
        exact ⟨'[' :: (ds ++ [']']), by simp, .array hds⟩
    split at h
    · next hc =>
      subst hc
      split at h
      · next hclose =>
        obtain ⟨b, hb, hcs⟩ := exists_blanks_of_head? hclose
        cases h
        exact ⟨'\x7b' :: (b ++ ['\x7d']), by simpa using hcs, .emptyObject hb⟩
      · obtain ⟨⟨fields, rest'⟩, hfields, h⟩ := Option.bind_eq_some_iff.mp h
        cases h
        obtain ⟨ds, rfl, hds⟩ := readFields_sound n hfields
        exact ⟨'\x7b' :: (ds ++ ['\x7d']), by simp, .object hds⟩
    · obtain ⟨v', hv, h⟩ := Option.map_eq_some_iff.mp h
      cases h
      exact ⟨_, List.takeWhile_append_dropWhile.symm, denotes_of_scalar? hv⟩

theorem readElements_sound : (n : Nat) → {cs rest : List Char} → {vs : List Value} →
    readElements n cs = some (vs, rest) → ∃ ds, cs = ds ++ ']' :: rest ∧ DenotesElements ds vs
  | 0, cs, rest, vs, h => by cases h
  | n + 1, cs, rest, vs, h => by
    rw [readElements] at h
    obtain ⟨⟨v, rest₁⟩, hv, h⟩ := Option.bind_eq_some_iff.mp h
    obtain ⟨b₁, hb₁, hcs⟩ := exists_blanks cs
    obtain ⟨b₂, hb₂, hrest₁⟩ := exists_blanks rest₁
    obtain ⟨ds, hds, hdenotes⟩ := readValue_sound n hv
    simp only at h
    split at h
    · next rest₂ hskip =>
      obtain ⟨⟨vs', rest'⟩, hvs, h⟩ := Option.bind_eq_some_iff.mp h
      cases h
      obtain ⟨es, rfl, hes⟩ := readElements_sound n hvs
      refine ⟨_, ?_, .more hb₁ hdenotes hb₂ hes⟩
      rw [hcs, hds, hrest₁, hskip]
      simp
    · next rest₂ hskip =>
      cases h
      refine ⟨_, ?_, .last hb₁ hdenotes hb₂⟩
      rw [hcs, hds, hrest₁, hskip]
      simp
    · cases h

theorem readFields_sound : (n : Nat) → {cs rest : List Char} → {fields : List (String × Value)} →
    readFields n cs = some (fields, rest) → ∃ ds, cs = ds ++ '\x7d' :: rest ∧ DenotesFields ds fields
  | 0, cs, rest, fields, h => by cases h
  | n + 1, cs, rest, fields, h => by
    rw [readFields] at h
    obtain ⟨b₁, hb₁, hcs⟩ := exists_blanks cs
    split at h
    · next rest₁ hquote =>
      obtain ⟨⟨key, rest₂⟩, hkey, h⟩ := Option.bind_eq_some_iff.mp h
      obtain ⟨ks, hrest₁, hks⟩ := spellsAll_of_readString hkey
      obtain ⟨b₂, hb₂, hrest₂⟩ := exists_blanks rest₂
      simp only at h
      split at h
      · next rest₃ hcolon =>
        obtain ⟨⟨v, rest₄⟩, hv, h⟩ := Option.bind_eq_some_iff.mp h
        obtain ⟨b₃, hb₃, hrest₃⟩ := exists_blanks rest₃
        obtain ⟨ds, hds, hdenotes⟩ := readValue_sound n hv
        obtain ⟨b₄, hb₄, hrest₄⟩ := exists_blanks rest₄
        simp only at h
        split at h
        · next rest₅ hskip =>
          obtain ⟨⟨fields', rest'⟩, hfields, h⟩ := Option.bind_eq_some_iff.mp h
          cases h
          obtain ⟨es, rfl, hes⟩ := readFields_sound n hfields
          refine ⟨_, ?_, .more hb₁ hks hb₂ hb₃ hdenotes hb₄ hes⟩
          rw [hcs, hquote, hrest₁, hrest₂, hcolon, hrest₃, hds, hrest₄, hskip]
          simp
        · next rest₅ hskip =>
          cases h
          refine ⟨_, ?_, .last hb₁ hks hb₂ hb₃ hdenotes hb₄⟩
          rw [hcs, hquote, hrest₁, hrest₂, hcolon, hrest₃, hds, hrest₄, hskip]
          simp
        · cases h
      · cases h
    · cases h

end

/-! ## Exactness -/

/-- The parser accepts exactly the texts of the grammar, each with its value. -/
theorem parse_eq_some_iff {text : String} {v : Value} :
    parse text = some v ↔ IsText text.toList v := by
  constructor
  · intro h
    obtain ⟨⟨v', rest⟩, hread, h⟩ := Option.bind_eq_some_iff.mp h
    simp only at h
    split at h
    · next hend =>
      cases h
      obtain ⟨b₁, hb₁, htext⟩ := exists_blanks text.toList
      obtain ⟨b₂, hb₂, hrest⟩ := exists_blanks rest
      obtain ⟨ds, hds, hdenotes⟩ := readValue_sound _ hread
      refine ⟨b₁, ds, b₂, hb₁, hdenotes, hb₂, ?_⟩
      rw [htext, hds, hrest, hend]
      simp
    · cases h
  · rintro ⟨b₁, ds, b₂, hb₁, hdenotes, hb₂, htext⟩
    have hrest : EndsScalar b₂ := by
      have hstops : EndsScalar (b₂ ++ []) :=
        stops_append hb₂ (fun _ => isScalarChar_eq_false_of_isBlank) stops_nil
      rwa [List.append_nil] at hstops
    have hread := readValue_append hdenotes b₂ hrest (text.toList.length + 1)
      (by rw [htext]; simp only [List.length_append]; omega)
    have hblank : skipBlanks b₂ = [] := by
      have hskip := skipBlanks_append hb₂ (stops_nil (p := isBlank))
      rwa [List.append_nil] at hskip
    have hskip := skipBlanks_append hb₁ (atToken_of_denotes hdenotes b₂)
    rw [parse, htext, hskip, ← htext, hread]
    simp [hblank]

/-- The compact text of a value is read back. -/
theorem parse_compact (v : Value) : parse (String.ofList v.compact) = some v := by
  refine parse_eq_some_iff.mpr ⟨[], v.compact, [], isBlanks_nil, denotes_compact v, isBlanks_nil, ?_⟩
  simp

end TextMate.Json
