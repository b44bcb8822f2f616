/-!
# Text sinks

A *sink* takes text front to back. The one operation it must have is `push`, for a single character;
`append` takes a whole string and has a default that pushes the characters in turn. A sink that can do
better (a string grows by a whole string at once) overrides `append`, and `LawfulSink` says that this
never changes what is written.
-/

namespace TextMate

/-- A destination for text, which grows at its end. -/
class Sink (σ : Type) where
  /-- Take one more character. -/
  push : σ → Char → σ
  /-- Take a whole string. -/
  append : σ → String → σ := fun sink text => text.toList.foldl push sink

/-- In a lawful sink, appending a string is pushing its characters in turn. -/
class LawfulSink (σ : Type) [Sink σ] : Prop where
  append_eq_foldl : ∀ (sink : σ) (text : String),
    Sink.append sink text = text.toList.foldl Sink.push sink

/-- A string takes text at its end. -/
instance : Sink String where
  push := String.push
  append := String.append

/-- An array of characters is fed one character at a time. -/
instance : Sink (Array Char) where
  push := Array.push

theorem foldl_push_eq_append (sink : String) (cs : List Char) :
    cs.foldl String.push sink = sink ++ String.ofList cs := by
  induction cs generalizing sink with
  | nil => simp
  | cons c cs ih =>
    rw [List.foldl_cons, ih]
    apply String.toList_injective
    simp

instance : LawfulSink String where
  append_eq_foldl sink text := by
    change sink ++ text = text.toList.foldl String.push sink
    rw [foldl_push_eq_append, String.ofList_toList]

instance : LawfulSink (Array Char) where
  append_eq_foldl _ _ := rfl

end TextMate
