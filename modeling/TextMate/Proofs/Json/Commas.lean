import Mathlib.Data.List.Basic
import TextMate.Proofs.Json.Nesting

/-!
# Commas

A writer accepts many lists of calls that do not amount to a value: keys without values, values without keys,
several values in a row. What it writes is still a text of JSON tokens, and the commas among them are in
place, `CommaInPlace`: each stands inside a container, after something in it, and before something that can be
a key or a value.

The invariant that carries this through a run is `Traces`: it has the tokens of the text so far, and says that
if the last of them opens a container, then the writer knows that nothing stands in it yet.
-/

namespace TextMate.Json

/-! ## Tokens -/

/-- A token of a JSON text that has no other values than strings, whose contents are left aside. -/
inductive Token where
  | bracket (bracket : Bracket)
  | comma
  | colon
  | string
  deriving DecidableEq, Repr

namespace Token

/-- A token of a single character. -/
def ofChar? (c : Char) : Option Token :=
  if c = '\x7b' then some (.bracket (.opening .object))
  else if c = '\x7d' then some (.bracket (.closing .object))
  else if c = '[' then some (.bracket (.opening .array))
  else if c = ']' then some (.bracket (.closing .array))
  else if c = ',' then some .comma
  else if c = ':' then some .colon
  else none

def bracket? : Token → Option Bracket
  | .bracket b => some b
  | .comma | .colon | .string => none

/-- A key or a value may start with the token. -/
def StartsItem : Token → Prop
  | .string | .bracket (.opening _) => True
  | .bracket (.closing _) | .comma | .colon => False

end Token

/-- The brackets among some tokens. -/
def bracketsIn (ts : List Token) : List Bracket :=
  ts.filterMap Token.bracket?

/-- Where a reader of tokens is: between tokens, in a string, or after a backslash in a string. -/
inductive Place where
  | outside
  | inside
  | escaped
  deriving DecidableEq, Repr

/-- A reader of tokens with what it has read. -/
structure Lexer where
  tokens : List Token := []
  place : Place := .outside

/-- Read one more character. -/
def Lexer.step (l : Lexer) (c : Char) : Option Lexer :=
  match l.place with
  | .outside =>
    if c = '"' then some { l with place := .inside }
    else (Token.ofChar? c).map fun t => { l with tokens := l.tokens ++ [t] }
  | .inside =>
    if c = '"' then some ⟨l.tokens ++ [.string], .outside⟩
    else if c = '\\' then some { l with place := .escaped }
    else some l
  | .escaped => some { l with place := .inside }

/-- The tokens of a text, if it consists of whole tokens. -/
def tokens? (text : String) : Option (List Token) := do
  let l ← text.toList.foldlM Lexer.step {}
  if l.place = .outside then some l.tokens else none

/-! ## The rules for commas -/

/-- What is asked of a comma, by the tokens before it and those after it. -/
structure CommaInPlace (before after : List Token) : Prop where
  not_after_opening : ∀ container, before.getLast? ≠ some (.bracket (.opening container))
  not_before_closing : ∀ container, after.head? ≠ some (.bracket (.closing container))
  not_last : after ≠ []
  before_item : ∃ t, after.head? = some t ∧ t.StartsItem
  inside : ∃ container, EndsInside container (bracketsIn before)

/-- Every comma is in place. -/
def Disciplined (ts : List Token) : Prop :=
  ∀ before after, ts = before ++ .comma :: after → CommaInPlace before after

theorem disciplined_nil : Disciplined [] := by
  intro before after h
  simp at h

/-- What may start a key or a value closes no container. -/
theorem commaInPlace_of_item {before after : List Token} {t : Token}
    (hbefore : ∀ container, before.getLast? ≠ some (.bracket (.opening container)))
    (hafter : after.head? = some t) (ht : t.StartsItem)
    (hinside : ∃ container, EndsInside container (bracketsIn before)) : CommaInPlace before after where
  not_after_opening := hbefore
  not_before_closing := by
    intro container hclosing
    rw [hafter] at hclosing
    cases hclosing
    exact ht
  not_last := by
    rintro rfl
    cases hafter
  before_item := ⟨t, hafter, ht⟩
  inside := hinside

theorem CommaInPlace.append {before after : List Token} (h : CommaInPlace before after)
    (extra : List Token) : CommaInPlace before (after ++ extra) := by
  obtain ⟨t, hhead, ht⟩ := h.before_item
  refine commaInPlace_of_item h.not_after_opening ?_ ht h.inside
  rw [List.head?_append, hhead]
  rfl

/-- Commas stay in place when more tokens follow, if the new ones are in place too. -/
theorem Disciplined.append {ts extra : List Token} (h : Disciplined ts)
    (hextra : ∀ before after, extra = before ++ .comma :: after → CommaInPlace (ts ++ before) after) :
    Disciplined (ts ++ extra) := by
  intro before after hsplit
  rcases List.append_eq_append_iff.mp hsplit with ⟨gap, rfl, hgap⟩ | ⟨gap, rfl, hgap⟩
  · exact hextra gap after hgap
  · cases gap with
    | nil =>
      have hplace := hextra [] after (by simpa using hgap.symm)
      simpa using hplace
    | cons t rest =>
      obtain ⟨rfl, rfl⟩ := List.cons.inj hgap
      exact (h before rest rfl).append extra

/-- What may stand between the tokens so far and the next item: nothing, or a comma where one is allowed. -/
def IsGap (ts gap : List Token) : Prop :=
  gap = [] ∨ (gap = [.comma] ∧ (∀ container, ts.getLast? ≠ some (.bracket (.opening container))) ∧
    ∃ container, EndsInside container (bracketsIn ts))

theorem bracketsIn_append (ts us : List Token) : bracketsIn (ts ++ us) = bracketsIn ts ++ bracketsIn us :=
  List.filterMap_append

theorem IsGap.bracketsIn_eq_nil {ts gap : List Token} (h : IsGap ts gap) : bracketsIn gap = [] := by
  rcases h with rfl | ⟨rfl, -⟩ <;> rfl

/-- An item without commas of its own may follow, after a gap. -/
theorem Disciplined.append_item {ts gap item : List Token} {t : Token} (h : Disciplined ts)
    (hgap : IsGap ts gap) (hhead : item.head? = some t) (ht : t.StartsItem) (hitem : .comma ∉ item) :
    Disciplined (ts ++ gap ++ item) := by
  rw [List.append_assoc]
  apply h.append
  intro before after hsplit
  rcases hgap with rfl | ⟨rfl, hlast, hinside⟩
  · have hsplit' : item = before ++ .comma :: after := hsplit
    exact absurd (by simp [hsplit']) hitem
  · cases before with
    | nil =>
      obtain ⟨-, rfl⟩ := List.cons.inj hsplit
      rw [List.append_nil]
      exact commaInPlace_of_item hlast hhead ht hinside
    | cons _ before =>
      -- the comma of the gap comes first, so this one would be part of the item
      have hrest : item = before ++ .comma :: after := (List.cons.inj hsplit).2
      exact absurd (by simp [hrest]) hitem

/-! ## Reading what is written -/

/-- From between two tokens, the characters are read as the tokens. -/
def ReadAs (cs : List Char) (ts : List Token) : Prop :=
  ∀ before, cs.foldlM Lexer.step ⟨before, .outside⟩ = some ⟨before ++ ts, .outside⟩

theorem readAs_nil : ReadAs [] [] := by
  intro before
  rw [List.append_nil]
  rfl

theorem ReadAs.append {cs ds : List Char} {ts us : List Token} (h : ReadAs cs ts) (h' : ReadAs ds us) :
    ReadAs (cs ++ ds) (ts ++ us) := by
  intro before
  rw [List.foldlM_append, h before]
  show ds.foldlM Lexer.step ⟨before ++ ts, .outside⟩ = _
  rw [h', List.append_assoc]

theorem readAs_char {c : Char} {t : Token} (hc : c ≠ '"') (h : Token.ofChar? c = some t) :
    ReadAs [c] [t] := by
  intro before
  simp [Lexer.step, hc, h]

theorem readAs_opening (container : Container) :
    ReadAs [container.opening] [.bracket (.opening container)] := by
  cases container <;> exact readAs_char (by decide) rfl

theorem readAs_closing (container : Container) :
    ReadAs [container.closing] [.bracket (.closing container)] := by
  cases container <;> exact readAs_char (by decide) rfl

theorem step_inside {c : Char} (hquote : c ≠ '"') (hslash : c ≠ '\\') (ts : List Token) :
    Lexer.step ⟨ts, .inside⟩ c = some ⟨ts, .inside⟩ := by
  simp [Lexer.step, hquote, hslash]

/-- A hexadecimal digit neither ends a string nor starts an escape. -/
theorem step_digitChar {n : Nat} (h : n < 16) (ts : List Token) :
    Lexer.step ⟨ts, .inside⟩ (Nat.digitChar n) = some ⟨ts, .inside⟩ := by
  have hdigit : ∀ m < 16, Nat.digitChar m ≠ '"' ∧ Nat.digitChar m ≠ '\\' := by decide
  exact step_inside (hdigit n h).1 (hdigit n h).2 ts

/-- An escaped character stays in the string that it is in. -/
theorem foldlM_step_escapeChar (ts : List Token) (c : Char) :
    (escapeChar c).foldlM Lexer.step ⟨ts, .inside⟩ = some ⟨ts, .inside⟩ := by
  unfold escapeChar
  split
  · rfl
  · next hspecial =>
    have hquote : c ≠ '"' := fun h => hspecial (.inl h)
    have hslash : c ≠ '\\' := fun h => hspecial (.inr h)
    split
    · next hcontrol =>
      have hhigh := step_digitChar (show c.toNat / 16 < 16 by omega) ts
      have hlow := step_digitChar (Nat.mod_lt c.toNat (by decide)) ts
      have hzero := step_inside (show '0' ≠ '"' by decide) (by decide) ts
      have hescape : Lexer.step ⟨ts, .inside⟩ '\\' = some ⟨ts, .escaped⟩ := rfl
      have hunicode : Lexer.step ⟨ts, .escaped⟩ 'u' = some ⟨ts, .inside⟩ := rfl
      simp only [List.foldlM_cons, List.foldlM_nil, Option.bind_eq_bind, Option.bind_some, hescape, hunicode,
        hzero, hhigh, hlow, Option.pure_def]
    · simp only [List.foldlM_cons, List.foldlM_nil, step_inside hquote hslash, Option.bind_eq_bind,
        Option.bind_some, Option.pure_def]

theorem readAs_quoted (text : String) : ReadAs (quoted text) [.string] := by
  intro before
  have hcontents : (text.toList.flatMap escapeChar).foldlM Lexer.step ⟨before, .inside⟩ =
      some ⟨before, .inside⟩ := by
    induction text.toList with
    | nil => rfl
    | cons c cs ih =>
      rw [List.flatMap_cons, List.foldlM_append, foldlM_step_escapeChar]
      exact ih
  show ((text.toList.flatMap escapeChar) ++ ['"']).foldlM Lexer.step ⟨before, .inside⟩ = _
  rw [List.foldlM_append, hcontents]
  rfl

theorem ReadAs.tokens?_eq {text : String} {ts : List Token} (h : ReadAs text.toList ts) :
    tokens? text = some ts := by
  have hread := h []
  rw [tokens?, hread]
  rfl

/-! ## One call -/

/-- The tokens that a writer has written, with their commas in place. A container that has just been opened is
known to be empty. -/
structure Traces (w : Writer) (ts : List Token) : Prop where
  readAs : ReadAs w.text.toList ts
  disciplined : Disciplined ts
  pending : pending (bracketsIn ts) = some w.containers
  isEmpty : ∀ container, ts.getLast? = some (.bracket (.opening container)) →
    ∃ outer, w.frames = ⟨container, true⟩ :: outer

namespace Traces

variable {w w' : Writer} {ts : List Token}

/-- A comma is written only inside a container that has something in it. -/
theorem nextItem (h : Traces w ts) : ∃ gap, IsGap ts gap ∧ ReadAs w.nextItem.text.toList (ts ++ gap) := by
  unfold Writer.nextItem
  split
  · refine ⟨[], .inl rfl, ?_⟩
    rw [List.append_nil]
    exact h.readAs
  · refine ⟨[], .inl rfl, ?_⟩
    rw [List.append_nil]
    exact h.readAs
  · next container outer hframes =>
    refine ⟨[.comma], .inr ⟨rfl, ?_, container, ?_⟩, ?_⟩
    · intro other hlast
      obtain ⟨_, hempty⟩ := h.isEmpty other hlast
      rw [hframes] at hempty
      cases hempty
    · rw [endsInside_iff h.pending, Writer.containers, hframes]
      rfl
    · rw [Writer.raw_text, String.toList_append]
      exact h.readAs.append (readAs_char (by decide) rfl)

theorem nextValue (h : Traces w ts) : ∃ gap, IsGap ts gap ∧ ReadAs w.nextValue.text.toList (ts ++ gap) := by
  unfold Writer.nextValue
  split
  · refine ⟨[], .inl rfl, ?_⟩
    rw [List.append_nil]
    exact h.readAs
  · exact h.nextItem

/-- An item after a gap, which acts on the open containers as its brackets do. -/
theorem append_item {gap : List Token} {t : Token} (h : Traces w ts) (item : List Token)
    (hgap : IsGap ts gap) (hread : ReadAs w'.text.toList (ts ++ gap ++ item))
    (hhead : item.head? = some t) (ht : t.StartsItem) (hitem : .comma ∉ item)
    (hact : (bracketsIn item).foldlM Bracket.act w.containers = some w'.containers)
    (hempty : ∀ container, item.getLast? = some (.bracket (.opening container)) →
      ∃ outer, w'.frames = ⟨container, true⟩ :: outer) : Traces w' (ts ++ gap ++ item) where
  readAs := hread
  disciplined := h.disciplined.append_item hgap hhead ht hitem
  pending := by
    rw [bracketsIn_append, bracketsIn_append, hgap.bracketsIn_eq_nil, List.append_nil, pending_append,
      h.pending]
    exact hact
  isEmpty := by
    intro container hlast
    have hne : item ≠ [] := by
      rintro rfl
      cases hhead
    rw [List.getLast?_append_of_ne_nil _ hne] at hlast
    exact hempty container hlast

theorem string (h : Traces w ts) (pieces : List String) : ∃ ts', Traces (w.string pieces) ts' := by
  obtain ⟨gap, hgap, hread⟩ := h.nextValue
  refine ⟨_, h.append_item [.string] hgap ?_ rfl trivial (by simp) ?_ (by simp)⟩
  · rw [Writer.string_eq_put, Writer.put, Writer.raw_text, String.toList_append, String.toList_ofList]
    exact hread.append (readAs_quoted _)
  · rw [Writer.containers_string]
    rfl

theorem putKey (h : Traces w ts) (name : String) : ∃ ts', Traces (w.putKey name) ts' := by
  obtain ⟨gap, hgap, hread⟩ := h.nextItem
  have hkey : ReadAs (quoted name ++ [':']) [.string, .colon] :=
    (readAs_quoted name).append (readAs_char (by decide) rfl)
  refine ⟨_, h.append_item [.string, .colon] hgap ?_ rfl trivial (by simp) ?_ (by simp)⟩
  · show ReadAs (w.nextItem.raw (String.ofList (quoted name ++ [':']))).text.toList _
    rw [Writer.raw_text, String.toList_append, String.toList_ofList]
    exact hread.append hkey
  · rw [Writer.containers_putKey]
    rfl

theorem openContainer (h : Traces w ts) (container : Container) :
    ∃ ts', Traces (w.openContainer container) ts' := by
  obtain ⟨gap, hgap, hread⟩ := h.nextValue
  refine ⟨_, h.append_item [.bracket (.opening container)] hgap ?_ rfl trivial (by simp) ?_ ?_⟩
  · show ReadAs (w.nextValue.raw (String.singleton container.opening)).text.toList _
    rw [Writer.raw_text, String.toList_append, String.toList_singleton]
    exact hread.append (readAs_opening container)
  · rw [Writer.containers_openContainer]
    rfl
  · intro other hlast
    cases hlast
    exact ⟨w.nextValue.frames, rfl⟩

/-- No comma comes right before the end of a container, since none is ever the last token. -/
theorem closeContainer (h : Traces w ts) {container : Container}
    (hclose : w.closeContainer container = .ok w') : ∃ ts', Traces w' ts' := by
  by_cases hhead : w.containers.head? = some container
  · obtain ⟨_, hok, hact⟩ := Writer.closeContainer_of_head hhead
    rw [hclose] at hok
    cases hok
    rw [Writer.closeContainer_eq, if_pos hhead] at hclose
    refine ⟨ts ++ [.bracket (.closing container)], ?_, ?_, ?_, ?_⟩
    · cases hclose
      rw [Writer.raw_text, String.toList_append, String.toList_singleton]
      exact h.readAs.append (readAs_closing container)
    · apply h.disciplined.append
      intro before after hsplit
      have hmem : Token.comma ∈ [Token.bracket (.closing container)] := by simp [hsplit]
      simp at hmem
    · rw [bracketsIn_append, pending_append, h.pending]
      simpa [bracketsIn, Token.bracket?] using hact
    · simp
  · rw [Writer.closeContainer_eq, if_neg hhead] at hclose
    cases hclose

/-- Whatever call is made, the tokens stay in order as long as it is not refused. -/
theorem perform {call : Call} (h : Traces w ts) (hperform : w.perform call = .ok w') :
    ∃ ts', Traces w' ts' := by
  cases call with
  | beginObject =>
    cases hperform
    exact h.openContainer .object
  | beginArray =>
    cases hperform
    exact h.openContainer .array
  | endObject => exact h.closeContainer hperform
  | endArray => exact h.closeContainer hperform
  | string pieces =>
    cases hperform
    exact h.string pieces
  | key name =>
    rw [Writer.perform, Writer.key_eq] at hperform
    split at hperform
    · cases hperform
      exact h.putKey name
    · cases hperform
  | field name value =>
    rw [Writer.perform, Writer.field_eq] at hperform
    split at hperform
    · cases hperform
      obtain ⟨_, hkey⟩ := h.putKey name
      exact hkey.string [value]
    · cases hperform

end Traces

/-! ## Whole runs -/

theorem traces_new : Traces {} [] where
  readAs := readAs_nil
  disciplined := disciplined_nil
  pending := rfl
  isEmpty := by simp

theorem Traces.performAll {w w' : Writer} {ts : List Token} {calls : List Call} (h : Traces w ts)
    (hcalls : w.performAll calls = .ok w') : ∃ ts', Traces w' ts' := by
  induction calls generalizing w ts with
  | nil =>
    cases hcalls
    exact ⟨ts, h⟩
  | cons call calls ih =>
    obtain ⟨_, hcall, hrest⟩ := Writer.perform_of_performAll_cons hcalls
    obtain ⟨_, hnext⟩ := h.perform hcall
    exact ih hnext hrest

/-- Whatever calls a writer has accepted, its text consists of whole tokens, and every comma among them is in
place. -/
theorem commas_in_place (calls : List Call) (w : Writer) (h : Writer.performAll {} calls = .ok w) :
    ∃ ts, tokens? w.text = some ts ∧ Disciplined ts := by
  obtain ⟨ts, hts⟩ := traces_new.performAll h
  exact ⟨ts, hts.readAs.tokens?_eq, hts.disciplined⟩

/-- Keys without values, a value without a key, a key that waits across the end of its object, and two values
at the top level. -/
def unrulyCalls : List Call :=
  [.beginArray, .beginObject, .key "a,", .key "b", .endObject, .string ["]"], .string ["c"], .beginObject,
    .string ["d"], .endObject, .endArray, .string ["e"], .beginObject]

/-- The writer after these calls. -/
def unrulyWriter : Writer where
  text := "[\x7b\"a,\":,\"b\":\x7d\"]\",\"c\",\x7b\"d\"\x7d]\"e\"\x7b"
  frames := [⟨.object, true⟩]

theorem commas_in_place_unrulyCalls :
    Writer.performAll {} unrulyCalls = .ok unrulyWriter ∧
    ∃ ts, tokens? unrulyWriter.text = some ts ∧ ts.count .comma = 3 ∧ Disciplined ts := by
  have hcalls : Writer.performAll {} unrulyCalls = .ok unrulyWriter := by decide +kernel
  obtain ⟨ts, hts, hdisciplined⟩ := commas_in_place unrulyCalls unrulyWriter hcalls
  have hcount : (tokens? unrulyWriter.text).map (List.count .comma) = some 3 := by decide +kernel
  rw [hts] at hcount
  exact ⟨hcalls, ts, hts, Option.some.inj hcount, hdisciplined⟩

end TextMate.Json
