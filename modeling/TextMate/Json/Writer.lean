import TextMate.Sink

/-!
# A streaming JSON writer

The writer produces compact JSON text front to back, without building a value first. It remembers one
frame per open object or array, which says whether anything stands in it yet: the first field or element
goes out bare, and a comma precedes every later one.

The writer checks that keys stand in objects, that brackets match and that none is left open at the end,
and reports a `Misuse` otherwise. It checks nothing else: a caller may write several texts in a row at
the top level, two keys in a row, or values without keys.
-/

namespace TextMate.Json

/-! ### Strings -/

/-- A character as it stands between the quotes of a string. -/
def escapeChar (c : Char) : List Char :=
  if c = '"' ∨ c = '\\' then
    ['\\', c]
  else if c.toNat < 0x20 then
    ['\\', 'u', '0', '0', Nat.digitChar (c.toNat / 16), Nat.digitChar (c.toNat % 16)]
  else
    [c]

/-! ### State -/

/-- The two kinds of brackets. -/
inductive Container where
  | object
  | array
  deriving DecidableEq, Repr

namespace Container

/-- The bracket that opens a container. -/
def opening : Container → Char
  | .object => '\x7b'
  | .array => '['

/-- The bracket that closes a container. -/
def closing : Container → Char
  | .object => '\x7d'
  | .array => ']'

end Container

/-- An open container. -/
structure Frame where
  container : Container
  /-- Nothing stands in the container yet. -/
  isEmpty : Bool := true
  deriving DecidableEq, Repr

/-- A JSON text in the making. -/
structure Writer where
  /-- What has been written. -/
  text : String := ""
  /-- The open containers, innermost first. -/
  frames : List Frame := []
  /-- A key has been written and its value has not started. -/
  afterKey : Bool := false
  deriving DecidableEq, Repr

/-- What the writer refuses. -/
inductive Misuse where
  /-- A key while the innermost container is not an object, or none is open. -/
  | keyOutsideObject
  /-- A closing bracket that does not match the innermost container, or without any. -/
  | mismatchedContainer
  /-- The end of the text with a container still open. -/
  | unclosedContainer
  deriving DecidableEq, Repr

/-- The wording of a misuse. -/
def Misuse.message : Misuse → String
  | .keyOutsideObject => "keys are only written inside objects"
  | .mismatchedContainer => "mismatched JSON container"
  | .unclosedContainer => "unclosed JSON container"

namespace Writer

/-- The number of open containers. -/
def depth (w : Writer) : Nat :=
  w.frames.length

/-! ### Text and separators -/

/-- Add text as it is. -/
def raw (w : Writer) (text : String) : Writer :=
  { w with text := w.text ++ text }

/-- Make room for the next field or element: a comma, unless it is the first one of its container. -/
def nextItem (w : Writer) : Writer :=
  match w.frames with
  | [] => w
  | ⟨container, true⟩ :: outer => { w with frames := ⟨container, false⟩ :: outer }
  | ⟨_, false⟩ :: _ => w.raw ","

/-- Make room for the next value. A value that follows its key needs no separator. -/
def nextValue (w : Writer) : Writer :=
  if w.afterKey then { w with afterKey := false } else w.nextItem

/-! ### Strings, opened and closed -/

/-- A writer in the middle of a string, whose closing quote is still to come. -/
structure OpenString where
  writer : Writer

/-- Text that goes into an open string is escaped. -/
instance : Sink OpenString where
  push s c := ⟨s.writer.raw (String.ofList (escapeChar c))⟩

instance : LawfulSink OpenString where
  append_eq_foldl _ _ := rfl

/-- Open the quotes. -/
def quote (w : Writer) : OpenString :=
  ⟨w.raw "\""⟩

/-- Close the quotes. -/
def OpenString.close (s : OpenString) : Writer :=
  s.writer.raw "\""

/-- Open a string as the next value. -/
def beginString (w : Writer) : OpenString :=
  w.nextValue.quote

/-! ### Calls -/

/-- Write a string as the next value, its pieces joined. -/
def string (w : Writer) (pieces : List String) : Writer :=
  (pieces.foldl Sink.append w.beginString).close

/-- Open a container as the next value. -/
def openContainer (w : Writer) (container : Container) : Writer :=
  let w := w.nextValue.raw (String.singleton container.opening)
  { w with frames := ⟨container, true⟩ :: w.frames }

/-- Close the innermost container, which must be of the given kind. -/
def closeContainer (w : Writer) (container : Container) : Except Misuse Writer :=
  match w.frames with
  | frame :: outer =>
    if frame.container = container then
      .ok ({ w with frames := outer }.raw (String.singleton container.closing))
    else
      .error .mismatchedContainer
  | [] => .error .mismatchedContainer

/-- Write the key of the next field of the innermost object. -/
def key (w : Writer) (name : String) : Except Misuse Writer :=
  match w.frames with
  | ⟨.object, _⟩ :: _ =>
    .ok { (Sink.append w.nextItem.quote name).close.raw ":" with afterKey := true }
  | _ => .error .keyOutsideObject

/-- Write a field whose value is a string. -/
def field (w : Writer) (name value : String) : Except Misuse Writer := do
  let w ← w.key name
  return w.string [value]

/-- The whole text, once every container is closed. -/
def finish (w : Writer) : Except Misuse String :=
  if w.frames.isEmpty then .ok w.text else .error .unclosedContainer

end Writer

/-- What a writer can be told to do. -/
inductive Call where
  | beginObject
  | endObject
  | beginArray
  | endArray
  | key (name : String)
  | field (name value : String)
  | string (pieces : List String)
  deriving DecidableEq, Repr

namespace Writer

/-- Carry out one call. -/
def perform (w : Writer) : Call → Except Misuse Writer
  | .beginObject => .ok (w.openContainer .object)
  | .endObject => w.closeContainer .object
  | .beginArray => .ok (w.openContainer .array)
  | .endArray => w.closeContainer .array
  | .key name => w.key name
  | .field name value => w.field name value
  | .string pieces => .ok (w.string pieces)

end Writer

end TextMate.Json
