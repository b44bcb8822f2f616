import TextMate.Json.Writer

/-!
# JSON values and their texts

The grammar of RFC 8259 as a relation: `Denotes cs v` says that the characters `cs` are a text of the
value `v`, and `IsText cs v` allows blanks on either side of it. A value has many texts, since blanks are
free around brackets, commas and colons, and since a character of a string has several spellings.
`Value.compact` picks the one without blanks in which characters are escaped only where they must be,
and `denotes_compact` says that it is a text of the value.

Objects are lists of fields, so the order of the fields, and a key that occurs twice, are part of the
value.
-/

namespace TextMate.Json

/-! ## Numbers -/

/-- One digit or more. -/
def isDigits (cs : List Char) : Bool :=
  !cs.isEmpty && cs.all Char.isDigit

/-- The integer part of a number: digits, the first of which is zero only if it is alone. -/
def isInt (cs : List Char) : Bool :=
  isDigits cs && (cs.length == 1 || cs.head? != some '0')

/-- The sign of an exponent may be absent. -/
def dropSign : List Char → List Char
  | '+' :: cs => cs
  | '-' :: cs => cs
  | cs => cs

/-- An optional exponent. -/
def isExponent : List Char → Bool
  | [] => true
  | c :: cs => (c == 'e' || c == 'E') && isDigits (dropSign cs)

/-- An optional fraction, then an optional exponent. -/
def isFraction : List Char → Bool
  | [] => true
  | c :: cs =>
    if c = '.' then
      isDigits (cs.takeWhile Char.isDigit) && isExponent (cs.dropWhile Char.isDigit)
    else
      isExponent (c :: cs)

/-- A number without its sign. -/
def isUnsigned (cs : List Char) : Bool :=
  isInt (cs.takeWhile Char.isDigit) && isFraction (cs.dropWhile Char.isDigit)

/-- A number. -/
def isNumber (cs : List Char) : Bool :=
  match cs with
  | '-' :: cs => isUnsigned cs
  | cs => isUnsigned cs

/-- A number as it is spelled. -/
structure Number where
  spelling : List Char
  isNumber : isNumber spelling = true

/-! ## Values -/

/-- A JSON value. -/
inductive Value where
  | null
  | bool (value : Bool)
  | number (number : Number)
  | string (text : String)
  | array (elements : List Value)
  | object (fields : List (String × Value))

/-- The spelling of a string in which only quotes, backslashes and control characters are escaped. -/
def quoted (text : String) : List Char :=
  '"' :: (text.toList.flatMap escapeChar ++ ['"'])

/-- The items of a container with a comma between each two. -/
def separated (items : List (List Char)) : List Char :=
  [','].intercalate items

mutual

/-- The text of a value without any blank. -/
def Value.compact : Value → List Char
  | .null => "null".toList
  | .bool true => "true".toList
  | .bool false => "false".toList
  | .number n => n.spelling
  | .string text => quoted text
  | .array vs => '[' :: (separated (compactElements vs) ++ [']'])
  | .object fields => '\x7b' :: (separated (compactFields fields) ++ ['\x7d'])

/-- The texts of the elements of an array. -/
def compactElements : List Value → List (List Char)
  | [] => []
  | v :: vs => v.compact :: compactElements vs

/-- The texts of the fields of an object. -/
def compactFields : List (String × Value) → List (List Char)
  | [] => []
  | (key, v) :: fields => (quoted key ++ ':' :: v.compact) :: compactFields fields

end

/-! ## Strings -/

/-- The value of a hexadecimal digit. -/
def hexValue? (c : Char) : Option Nat :=
  if '0' ≤ c ∧ c ≤ '9' then some (c.toNat - 48)
  else if 'a' ≤ c ∧ c ≤ 'f' then some (c.toNat - 87)
  else if 'A' ≤ c ∧ c ≤ 'F' then some (c.toNat - 55)
  else none

/-- The code unit that four hexadecimal digits stand for. -/
def codeUnit? (a b c d : Char) : Option Nat := do
  let a ← hexValue? a
  let b ← hexValue? b
  let c ← hexValue? c
  let d ← hexValue? d
  return ((a * 16 + b) * 16 + c) * 16 + d

/-- The first unit of a surrogate pair. -/
def isHighSurrogate (unit : Nat) : Bool :=
  0xD800 ≤ unit && unit < 0xDC00

/-- The second unit of a surrogate pair. -/
def isLowSurrogate (unit : Nat) : Bool :=
  0xDC00 ≤ unit && unit < 0xE000

/-- The character of a surrogate pair. -/
def surrogatePair (high low : Nat) : Char :=
  Char.ofNat (0x10000 + (high - 0xD800) * 0x400 + (low - 0xDC00))

/-- The character that a letter or sign stands for after a backslash. -/
def shortEscape? (c : Char) : Option Char :=
  match c with
  | '"' => some '"'
  | '\\' => some '\\'
  | '/' => some '/'
  | 'b' => some '\x08'
  | 'f' => some '\x0c'
  | 'n' => some '\n'
  | 'r' => some '\r'
  | 't' => some '\t'
  | _ => none

/-- The characters that may stand in a string as they are. -/
def isUnescaped (c : Char) : Bool :=
  0x20 ≤ c.toNat && c != '"' && c != '\\'

/-- One character of a string and a spelling of it. -/
inductive Spells : List Char → Char → Prop
  | unescaped {c} : isUnescaped c → Spells [c] c
  | short {e c} : shortEscape? e = some c → Spells ['\\', e] c
  | unit {a b c d unit} : codeUnit? a b c d = some unit → isHighSurrogate unit = false →
      isLowSurrogate unit = false → Spells ['\\', 'u', a, b, c, d] (Char.ofNat unit)
  | pair {a b c d e f g h high low} : codeUnit? a b c d = some high → isHighSurrogate high →
      codeUnit? e f g h = some low → isLowSurrogate low →
      Spells ['\\', 'u', a, b, c, d, '\\', 'u', e, f, g, h] (surrogatePair high low)

/-- The characters of a string and what stands for them between the quotes. -/
inductive SpellsAll : List Char → List Char → Prop
  | nil : SpellsAll [] []
  | cons {piece c cs text} : Spells piece c → SpellsAll cs text → SpellsAll (piece ++ cs) (c :: text)

/-! ## The grammar -/

/-- The four blank characters. -/
def isBlank (c : Char) : Bool :=
  c == ' ' || c == '\t' || c == '\n' || c == '\r'

/-- A run of blanks, which may be empty. -/
def IsBlanks (cs : List Char) : Prop :=
  ∀ c ∈ cs, isBlank c

mutual

/-- `cs` is a text of the value, without blanks around it. -/
inductive Denotes : List Char → Value → Prop
  | null : Denotes "null".toList .null
  | true : Denotes "true".toList (.bool true)
  | false : Denotes "false".toList (.bool false)
  | number (n : Number) : Denotes n.spelling (.number n)
  | string {cs text} : SpellsAll cs text →
      Denotes ('"' :: (cs ++ ['"'])) (.string (String.ofList text))
  | emptyArray {b} : IsBlanks b → Denotes ('[' :: (b ++ [']'])) (.array [])
  | array {cs vs} : DenotesElements cs vs → Denotes ('[' :: (cs ++ [']'])) (.array vs)
  | emptyObject {b} : IsBlanks b → Denotes ('\x7b' :: (b ++ ['\x7d'])) (.object [])
  | object {cs fields} : DenotesFields cs fields →
      Denotes ('\x7b' :: (cs ++ ['\x7d'])) (.object fields)

/-- `cs` are the texts of one value or more, with blanks around each and a comma between each two. -/
inductive DenotesElements : List Char → List Value → Prop
  | last {b₁ cs v b₂} : IsBlanks b₁ → Denotes cs v → IsBlanks b₂ →
      DenotesElements (b₁ ++ (cs ++ b₂)) [v]
  | more {b₁ cs v b₂ ds vs} : IsBlanks b₁ → Denotes cs v → IsBlanks b₂ → DenotesElements ds vs →
      DenotesElements (b₁ ++ (cs ++ (b₂ ++ ',' :: ds))) (v :: vs)

/-- `cs` are the texts of one field or more, with blanks around each key and each value, a colon after
each key and a comma between each two fields. -/
inductive DenotesFields : List Char → List (String × Value) → Prop
  | last {b₁ ks key b₂ b₃ cs v b₄} : IsBlanks b₁ → SpellsAll ks key → IsBlanks b₂ → IsBlanks b₃ →
      Denotes cs v → IsBlanks b₄ →
      DenotesFields (b₁ ++ '"' :: (ks ++ '"' :: (b₂ ++ ':' :: (b₃ ++ (cs ++ b₄)))))
        [(String.ofList key, v)]
  | more {b₁ ks key b₂ b₃ cs v b₄ ds fields} : IsBlanks b₁ → SpellsAll ks key → IsBlanks b₂ →
      IsBlanks b₃ → Denotes cs v → IsBlanks b₄ → DenotesFields ds fields →
      DenotesFields (b₁ ++ '"' :: (ks ++ '"' :: (b₂ ++ ':' :: (b₃ ++ (cs ++ (b₄ ++ ',' :: ds))))))
        ((String.ofList key, v) :: fields)

end

/-- `cs` is a JSON text of the value: a text of it with blanks on either side. -/
def IsText (cs : List Char) (v : Value) : Prop :=
  ∃ b₁ ds b₂, IsBlanks b₁ ∧ Denotes ds v ∧ IsBlanks b₂ ∧ cs = b₁ ++ (ds ++ b₂)

/-! ## Compact texts are texts -/

theorem isBlanks_nil : IsBlanks [] := by
  intro c hc
  cases hc

@[simp] theorem separated_nil : separated [] = [] := rfl

@[simp] theorem separated_singleton (item : List Char) : separated [item] = item := by
  simp [separated]

@[simp] theorem separated_cons_cons (item next : List Char) (items : List (List Char)) :
    separated (item :: next :: items) = item ++ ',' :: separated (next :: items) := by
  simp [separated]

/-- The two hexadecimal digits of a number below 256. -/
theorem codeUnit?_digitChar {n : Nat} (h : n < 256) :
    codeUnit? '0' '0' (Nat.digitChar (n / 16)) (Nat.digitChar (n % 16)) = some n := by
  have hhex : ∀ d < 16, hexValue? (Nat.digitChar d) = some d := by decide
  have hzero : hexValue? '0' = some 0 := by decide
  simp only [codeUnit?, hzero, hhex _ (show n / 16 < 16 by omega),
    hhex _ (Nat.mod_lt n (by decide)), Option.bind_eq_bind, Option.bind_some, Option.pure_def]
  congr 1
  omega

/-- The escaped form of a character spells it. -/
theorem spells_escapeChar (c : Char) : Spells (escapeChar c) c := by
  unfold escapeChar
  split
  · next h =>
    rcases h with rfl | rfl
    · exact .short rfl
    · exact .short rfl
  · next h =>
    split
    · next hlow =>
      have hunit := codeUnit?_digitChar (show c.toNat < 256 by omega)
      have hspells := Spells.unit hunit
        (by simp [isHighSurrogate]; omega) (by simp [isLowSurrogate]; omega)
      rwa [Char.ofNat_toNat] at hspells
    · next hlow =>
      refine .unescaped ?_
      have hquote : c ≠ '"' := fun e => h (.inl e)
      have hslash : c ≠ '\\' := fun e => h (.inr e)
      simp [isUnescaped, hquote, hslash]
      omega

theorem spellsAll_escape : (text : List Char) → SpellsAll (text.flatMap escapeChar) text
  | [] => .nil
  | c :: text => .cons (spells_escapeChar c) (spellsAll_escape text)

mutual

/-- The compact text of a value is a text of it. -/
theorem denotes_compact : (v : Value) → Denotes v.compact v
  | .null => .null
  | .bool true => .true
  | .bool false => .false
  | .number n => .number n
  | .string text => by
    have h := Denotes.string (spellsAll_escape text.toList)
    rwa [String.ofList_toList] at h
  | .array [] => .emptyArray isBlanks_nil
  | .array (v :: vs) => .array (denotesElements_compact (v :: vs) (List.cons_ne_nil v vs))
  | .object [] => .emptyObject isBlanks_nil
  | .object (field :: fields) =>
    .object (denotesFields_compact (field :: fields) (List.cons_ne_nil field fields))

theorem denotesElements_compact : (vs : List Value) → vs ≠ [] →
    DenotesElements (separated (compactElements vs)) vs
  | [], hne => absurd rfl hne
  | [v], _ => by
    have h := DenotesElements.last isBlanks_nil (denotes_compact v) isBlanks_nil
    simpa [compactElements] using h
  | v :: w :: vs, _ => by
    have h := DenotesElements.more isBlanks_nil (denotes_compact v) isBlanks_nil
      (denotesElements_compact (w :: vs) (List.cons_ne_nil w vs))
    simpa [compactElements] using h

theorem denotesFields_compact : (fields : List (String × Value)) → fields ≠ [] →
    DenotesFields (separated (compactFields fields)) fields
  | [], hne => absurd rfl hne
  | [(key, v)], _ => by
    have h := DenotesFields.last isBlanks_nil (spellsAll_escape key.toList) isBlanks_nil
      isBlanks_nil (denotes_compact v) isBlanks_nil
    simpa [compactFields, quoted] using h
  | (key, v) :: field :: fields, _ => by
    have h := DenotesFields.more isBlanks_nil (spellsAll_escape key.toList) isBlanks_nil
      isBlanks_nil (denotes_compact v) isBlanks_nil
      (denotesFields_compact (field :: fields) (List.cons_ne_nil field fields))
    simpa [compactFields, quoted] using h

end

end TextMate.Json
