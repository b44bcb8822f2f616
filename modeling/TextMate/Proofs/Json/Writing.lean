import TextMate.Proofs.Json.Grammar

/-!
# The writer writes values

A list of calls *writes* a value when, whatever the writer has done before, carrying out the calls adds
the compact text of the value where the next value goes, with the separator it needs there and nothing
else (`Writes`). Inside an open container the same is said of a list of items at once (`WritesItems`).
The lemmas of the last section say how the calls of a container are put together from the calls of its
items; none of the callers has to look at frames or separators.
-/

namespace TextMate.Json

namespace Writer

/-! ## Text -/

@[simp] theorem raw_text (w : Writer) (text : String) : (w.raw text).text = w.text ++ text := rfl

@[simp] theorem raw_frames (w : Writer) (text : String) : (w.raw text).frames = w.frames := rfl

@[simp] theorem raw_afterKey (w : Writer) (text : String) :
    (w.raw text).afterKey = w.afterKey := rfl

@[simp] theorem raw_raw (w : Writer) (text text' : String) :
    (w.raw text).raw text' = w.raw (text ++ text') := by
  simp [raw, String.append_assoc]

@[simp] theorem nextItem_afterKey (w : Writer) : w.nextItem.afterKey = w.afterKey := by
  unfold nextItem
  split <;> rfl

/-- Characters that are pushed to an open string are escaped one by one. -/
theorem foldl_push_openString (s : OpenString) (cs : List Char) :
    cs.foldl Sink.push s = ⟨s.writer.raw (String.ofList (cs.flatMap escapeChar))⟩ := by
  induction cs generalizing s with
  | nil => simp [raw]
  | cons c cs ih =>
    rw [List.foldl_cons, ih]
    simp [Sink.push, String.ofList_append]

/-- Text that goes into an open string is escaped character by character. -/
theorem append_openString (s : OpenString) (text : String) :
    Sink.append s text = ⟨s.writer.raw (String.ofList (text.toList.flatMap escapeChar))⟩ := by
  rw [LawfulSink.append_eq_foldl, foldl_push_openString]

/-- A text between quotes, escaped. -/
theorem close_append_quote (w : Writer) (text : String) :
    (Sink.append w.quote text).close = w.raw (String.ofList (quoted text)) := by
  rw [append_openString, OpenString.close, quote, raw_raw, raw_raw]
  congr 1
  apply String.toList_injective
  simp [quoted]

/-! ## Whole values -/

/-- The writer after a whole value. -/
def put (w : Writer) (v : Value) : Writer :=
  w.nextValue.raw (String.ofList v.compact)

/-- The writer after a whole item of the innermost container. -/
def putItem (w : Writer) (item : List Char) : Writer :=
  { w.nextItem.raw (String.ofList item) with afterKey := false }

/-- The writer after the key of a field. -/
def putKey (w : Writer) (name : String) : Writer :=
  { w.nextItem.raw (String.ofList (quoted name ++ [':'])) with afterKey := true }

/-- A string, in one piece or several. -/
theorem string_eq_put (w : Writer) (pieces : List String) :
    w.string pieces = w.put (.string (String.join pieces)) := by
  have hpieces : ∀ s : OpenString,
      pieces.foldl Sink.append s = Sink.append s (String.join pieces) := by
    induction pieces with
    | nil => intro s; simp [append_openString, raw]
    | cons piece pieces ih =>
      intro s
      rw [List.foldl_cons, ih]
      simp [append_openString, String.ofList_append]
  rw [string, hpieces, beginString, close_append_quote, put, Value.compact]

/-- The writer is directly inside a container, with no key waiting for its value. -/
structure IsInside (w : Writer) (container : Container) : Prop where
  frame : ∃ isEmpty outer, w.frames = ⟨container, isEmpty⟩ :: outer
  afterKey : w.afterKey = false

/-- Inside an object, a key is its quoted name and a colon. -/
theorem IsInside.perform_key {w : Writer} (h : w.IsInside .object) (name : String) :
    w.perform (.key name) = .ok (w.putKey name) := by
  obtain ⟨isEmpty, outer, hframes⟩ := h.frame
  simp only [perform, key, hframes, close_append_quote, raw_raw, putKey, String.ofList_append]

theorem IsInside.putItem {w : Writer} {container : Container} (h : w.IsInside container)
    (item : List Char) : (w.putItem item).IsInside container := by
  obtain ⟨isEmpty, outer, hframes⟩ := h.frame
  refine ⟨⟨false, outer, ?_⟩, rfl⟩
  cases isEmpty <;> simp [Writer.putItem, nextItem, hframes]

theorem IsInside.foldl_putItem {w : Writer} {container : Container} (h : w.IsInside container)
    (items : List (List Char)) : (items.foldl Writer.putItem w).IsInside container := by
  induction items generalizing w with
  | nil => exact h
  | cons item items ih => exact ih (h.putItem item)

/-- Later items stand after a comma each. -/
theorem foldl_putItem_later (text : String) (container : Container) (outer : List Frame)
    (items : List (List Char)) :
    items.foldl putItem ⟨text, ⟨container, false⟩ :: outer, false⟩ =
      ⟨text ++ String.ofList (items.flatMap (',' :: ·)), ⟨container, false⟩ :: outer, false⟩ := by
  induction items generalizing text with
  | nil => simp
  | cons item items ih =>
    have hstep : putItem ⟨text, ⟨container, false⟩ :: outer, false⟩ item =
        ⟨text ++ String.ofList (',' :: item), ⟨container, false⟩ :: outer, false⟩ := by
      simp [putItem, nextItem, raw, String.append_assoc]
    rw [List.foldl_cons, hstep, ih]
    simp [String.append_assoc, String.ofList_append]

theorem separated_cons (item : List Char) (items : List (List Char)) :
    separated (item :: items) = item ++ items.flatMap (',' :: ·) := by
  induction items generalizing item with
  | nil => simp
  | cons next items ih => simp [ih next]

/-- The items of a container that has just been opened. -/
theorem foldl_putItem_first (text : String) (container : Container) (outer : List Frame)
    (items : List (List Char)) :
    items.foldl putItem ⟨text, ⟨container, true⟩ :: outer, false⟩ =
      ⟨text ++ String.ofList (separated items), ⟨container, items.isEmpty⟩ :: outer, false⟩ := by
  cases items with
  | nil => simp
  | cons item items =>
    have hstep : putItem ⟨text, ⟨container, true⟩ :: outer, false⟩ item =
        ⟨text ++ String.ofList item, ⟨container, false⟩ :: outer, false⟩ := rfl
    rw [List.foldl_cons, hstep, foldl_putItem_later, separated_cons]
    simp [String.append_assoc, String.ofList_append]

/-! ## Calls in a row -/

/-- Carry out calls one after the other. -/
def performAll (w : Writer) (calls : List Call) : Except Misuse Writer :=
  calls.foldlM perform w

@[simp] theorem performAll_nil (w : Writer) : w.performAll [] = .ok w := rfl

theorem performAll_cons {w w' : Writer} {call : Call} (h : w.perform call = .ok w')
    (calls : List Call) : w.performAll (call :: calls) = w'.performAll calls := by
  rw [performAll, List.foldlM_cons, h]
  rfl

theorem performAll_append {w w' : Writer} {calls : List Call} (h : w.performAll calls = .ok w')
    (calls' : List Call) : w.performAll (calls ++ calls') = w'.performAll calls' := by
  rw [performAll, List.foldlM_append]
  rw [performAll] at h
  rw [h]
  rfl

end Writer

/-- Whatever has been done before, the calls add the value and nothing else. -/
def Writes (calls : List Call) (v : Value) : Prop :=
  ∀ w : Writer, w.performAll calls = .ok (w.put v)

/-- Directly inside such a container, the calls add the items and nothing else. -/
def WritesItems (container : Container) (calls : List Call) (items : List (List Char)) : Prop :=
  ∀ w : Writer, w.IsInside container → w.performAll calls = .ok (items.foldl Writer.putItem w)

open Writer

/-! ## Putting calls together -/

theorem writes_string (pieces : List String) :
    Writes [.string pieces] (.string (String.join pieces)) := by
  intro w
  rw [performAll_cons rfl, performAll_nil, string_eq_put]

theorem WritesItems.nil (container : Container) : WritesItems container [] [] := by
  intro w _
  rfl

theorem WritesItems.append {container : Container} {calls calls' : List Call}
    {items items' : List (List Char)} (h : WritesItems container calls items)
    (h' : WritesItems container calls' items') :
    WritesItems container (calls ++ calls') (items ++ items') := by
  intro w hw
  rw [performAll_append (h w hw), List.foldl_append]
  exact h' _ (hw.foldl_putItem items)

/-- A value is an item of an array. -/
theorem Writes.element {calls : List Call} {v : Value} (h : Writes calls v) :
    WritesItems .array calls (compactElements [v]) := by
  intro w hw
  have hput : w.put v = w.putItem v.compact := by
    have hkey := hw.afterKey
    simp [put, putItem, nextValue, hkey, raw]
  rw [h w, hput]
  rfl

/-- A key and a value are an item of an object. -/
theorem Writes.field {calls : List Call} {v : Value} (h : Writes calls v) (name : String) :
    WritesItems .object (.key name :: calls) (compactFields [(name, v)]) := by
  intro w hw
  rw [performAll_cons (hw.perform_key name), h]
  simp [compactFields, put, putKey, putItem, nextValue, raw, String.append_assoc,
    ← String.ofList_append]

/-- A field in one call is a key and a string. -/
theorem writesItems_field (name value : String) :
    WritesItems .object [.field name value] (compactFields [(name, .string value)]) := by
  intro w hw
  have hkey := hw.perform_key name
  have hfield : w.perform (.field name value) = .ok ((w.putKey name).string [value]) := by
    rw [perform] at hkey
    rw [perform, Writer.field, hkey]
    rfl
  have h := (writes_string [value]).field name w hw
  rw [performAll_cons hkey, performAll_cons rfl, performAll_nil] at h
  rw [performAll_cons hfield, performAll_nil, h]
  simp

/-- Opening a container, writing its items and closing it adds the brackets and the items. -/
theorem closeContainer_of_writesItems {container : Container} {calls : List Call}
    {items : List (List Char)} (h : WritesItems container calls items) (w : Writer) :
    ∃ w', (w.openContainer container).performAll calls = .ok w' ∧
      w'.closeContainer container = .ok (w.nextValue.raw
        (String.ofList (container.opening :: (separated items ++ [container.closing])))) := by
  have hkey : w.nextValue.afterKey = false := by
    unfold nextValue
    split
    · rfl
    · next hafter => simpa using hafter
  have hopen : w.openContainer container =
      ⟨w.nextValue.text ++ String.singleton container.opening,
        ⟨container, true⟩ :: w.nextValue.frames, false⟩ := by
    simp [openContainer, raw, hkey]
  have hinside : (w.openContainer container).IsInside container :=
    ⟨⟨true, _, rfl⟩, by rw [hopen]⟩
  refine ⟨_, h _ hinside, ?_⟩
  rw [hopen, foldl_putItem_first]
  simp only [closeContainer, if_true, raw, hkey]
  congr 2
  apply String.toList_injective
  simp

theorem Writes.array {calls : List Call} {vs : List Value}
    (h : WritesItems .array calls (compactElements vs)) :
    Writes (.beginArray :: (calls ++ [.endArray])) (.array vs) := by
  intro w
  obtain ⟨w', hitems, hclose⟩ := closeContainer_of_writesItems h w
  have hend : w'.perform .endArray = .ok (w.put (.array vs)) := hclose
  rw [performAll_cons rfl, performAll_append hitems, performAll_cons hend, performAll_nil]

theorem Writes.object {calls : List Call} {fields : List (String × Value)}
    (h : WritesItems .object calls (compactFields fields)) :
    Writes (.beginObject :: (calls ++ [.endObject])) (.object fields) := by
  intro w
  obtain ⟨w', hitems, hclose⟩ := closeContainer_of_writesItems h w
  have hend : w'.perform .endObject = .ok (w.put (.object fields)) := hclose
  rw [performAll_cons rfl, performAll_append hitems, performAll_cons hend, performAll_nil]

end TextMate.Json
