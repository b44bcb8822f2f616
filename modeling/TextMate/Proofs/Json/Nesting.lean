import Mathlib.Data.List.Induction
import TextMate.Proofs.Json.Writing

/-!
# Well-nested calls

Which lists of calls a writer accepts from beginning to end can be said without its frames: the containers
that are begun and ended form a balanced word of brackets, as a grammar defines them, and every key lies
directly inside an object, `WellNested`.

`finish_iff_wellNested` says that a run ends well for these lists of calls and no others. Any other run fails
at the first call after which there is no way left to go on to a well-nested list, or at its end if there
still is one.
-/

namespace TextMate.Json

/-! ## Balanced words -/

/-- The beginning or the end of a container. -/
inductive Bracket where
  | opening (container : Container)
  | closing (container : Container)
  deriving DecidableEq, Repr

/-- Words of brackets that match: nothing, or such a word in brackets of one kind and such a word after it. -/
inductive Balanced : List Bracket → Prop
  | nil : Balanced []
  | nest {inner rest : List Bracket} (container : Container) : Balanced inner → Balanced rest →
      Balanced (.opening container :: (inner ++ .closing container :: rest))

/-- At the end of the word a container of the kind is open, and all that was begun in it has ended. -/
def EndsInside (container : Container) (w : List Bracket) : Prop :=
  ∃ outer inner, w = outer ++ .opening container :: inner ∧ Balanced inner

theorem Balanced.append {v w : List Bracket} (hv : Balanced v) (hw : Balanced w) :
    Balanced (v ++ w) := by
  induction hv with
  | nil => exact hw
  | nest container hinner _ _ ih =>
    rw [List.cons_append, List.append_assoc, List.cons_append]
    exact .nest container hinner ih

/-- One container with a balanced word in it. -/
theorem Balanced.enclose {inner : List Bracket} (h : Balanced inner) (container : Container) :
    Balanced (.opening container :: (inner ++ [.closing container])) :=
  .nest container h .nil

/-! ## Open containers -/

/-- What a bracket does to the open containers, innermost first. -/
def Bracket.act : List Container → Bracket → Option (List Container)
  | stack, .opening container => some (container :: stack)
  | [], .closing _ => none
  | innermost :: stack, .closing container => if innermost = container then some stack else none

/-- The containers that a word leaves open, if none of its closing brackets is out of place. -/
def pending (w : List Bracket) : Option (List Container) :=
  w.foldlM Bracket.act []

theorem act_closing_eq_some {stack stack' : List Container} {container : Container} :
    Bracket.act stack (.closing container) = some stack' ↔ stack = container :: stack' := by
  cases stack with
  | nil => simp [Bracket.act]
  | cons innermost stack => grind [Bracket.act]

theorem pending_append (v w : List Bracket) :
    pending (v ++ w) = (pending v).bind fun stack => w.foldlM Bracket.act stack :=
  List.foldlM_append

/-- A balanced word ends all that it begins. -/
theorem Balanced.foldlM_act {w : List Bracket} (h : Balanced w) (stack : List Container) :
    w.foldlM Bracket.act stack = some stack := by
  induction h generalizing stack with
  | nil => rfl
  | @nest inner rest container _ _ ihInner ihRest =>
    have hclosing : Bracket.act (container :: stack) (.closing container) = some stack :=
      act_closing_eq_some.mpr rfl
    show (inner ++ .closing container :: rest).foldlM Bracket.act (container :: stack) = some stack
    rw [List.foldlM_append, ihInner]
    show (Bracket.act (container :: stack) (.closing container)).bind (rest.foldlM Bracket.act ·) = some stack
    rw [hclosing]
    exact ihRest stack

/-- The word consists of the beginnings of open containers, outermost first, with balanced words between. -/
inductive Opened : List Container → List Bracket → Prop
  | none {w : List Bracket} : Balanced w → Opened [] w
  | more {stack : List Container} {outer inner : List Bracket} (container : Container) :
      Opened stack outer → Balanced inner → Opened (container :: stack) (outer ++ .opening container :: inner)

theorem Opened.append_balanced {stack : List Container} {v w : List Bracket} (h : Opened stack v)
    (hw : Balanced w) : Opened stack (v ++ w) := by
  cases h with
  | none hv => exact .none (hv.append hw)
  | more container houter hinner =>
    rw [List.append_assoc, List.cons_append]
    exact .more container houter (hinner.append hw)

/-- One more bracket changes the open containers as it acts on them. -/
theorem Opened.step {stack stack' : List Container} {w : List Bracket} {bracket : Bracket}
    (h : Opened stack w) (hact : Bracket.act stack bracket = some stack') :
    Opened stack' (w ++ [bracket]) := by
  cases bracket with
  | opening container =>
    cases hact
    exact .more container h .nil
  | closing container =>
    obtain rfl := act_closing_eq_some.mp hact
    cases h with
    | more _ houter hinner =>
      -- the innermost container becomes part of what stands in the next one
      have hopened := houter.append_balanced (hinner.enclose container)
      rwa [List.append_assoc, List.cons_append]

theorem opened_of_pending {stack : List Container} {w : List Bracket} (h : pending w = some stack) :
    Opened stack w := by
  induction w using List.reverseRecOn generalizing stack with
  | nil =>
    cases h
    exact .none .nil
  | append_singleton w bracket ih =>
    rw [pending_append] at h
    obtain ⟨before, hbefore, hact⟩ := Option.bind_eq_some_iff.mp h
    rw [List.foldlM_cons] at hact
    obtain ⟨after, hafter, hnil⟩ := Option.bind_eq_some_iff.mp hact
    cases hnil
    exact (ih hbefore).step hafter

/-- A word is balanced if and only if it leaves nothing open. -/
theorem balanced_iff_pending {w : List Bracket} : Balanced w ↔ pending w = some [] := by
  constructor
  · intro h
    exact h.foldlM_act []
  · intro h
    cases opened_of_pending h with
    | none hw => exact hw

/-- The container that a word ends in is the innermost of those that it leaves open. -/
theorem endsInside_iff {stack : List Container} {w : List Bracket} (h : pending w = some stack)
    (container : Container) : EndsInside container w ↔ stack.head? = some container := by
  constructor
  · rintro ⟨outer, inner, rfl, hinner⟩
    rw [pending_append] at h
    obtain ⟨before, -, hafter⟩ := Option.bind_eq_some_iff.mp h
    have hstack : some (container :: before) = some stack := by
      rw [← hafter]
      exact (hinner.foldlM_act (container :: before)).symm
    cases hstack
    rfl
  · intro hhead
    obtain ⟨outer, rfl⟩ := List.head?_eq_some_iff.mp hhead
    cases opened_of_pending h with
    | more _ _ hinner => exact ⟨_, _, rfl, hinner⟩

/-! ## Calls -/

/-- The bracket that a call writes, if it begins or ends a container. -/
def Call.bracket? : Call → Option Bracket
  | .beginObject => some (.opening .object)
  | .endObject => some (.closing .object)
  | .beginArray => some (.opening .array)
  | .endArray => some (.closing .array)
  | .key _ | .field _ _ | .string _ => none

/-- The beginnings and ends among some calls. -/
def brackets (calls : List Call) : List Bracket :=
  calls.filterMap Call.bracket?

/-- The call writes a key. -/
def Call.hasKey : Call → Bool
  | .key _ | .field _ _ => true
  | .beginObject | .endObject | .beginArray | .endArray | .string _ => false

/-- The containers are balanced, and every key lies directly inside an object. -/
structure WellNested (calls : List Call) : Prop where
  balanced : Balanced (brackets calls)
  keys : ∀ before call after, calls = before ++ call :: after → call.hasKey →
    EndsInside .object (brackets before)

/-- The calls can be continued to a well-nested list. -/
def Extensible (calls : List Call) : Prop :=
  ∃ rest, WellNested (calls ++ rest)

/-- The rule that a call breaks after the calls before it, in the wording of the writer. -/
inductive Breaks (before : List Call) : Call → String → Prop
  | key (name : String) : ¬ EndsInside .object (brackets before) →
      Breaks before (.key name) "keys are only written inside objects"
  | field (name value : String) : ¬ EndsInside .object (brackets before) →
      Breaks before (.field name value) "keys are only written inside objects"
  | endObject : ¬ EndsInside .object (brackets before) →
      Breaks before .endObject "mismatched JSON container"
  | endArray : ¬ EndsInside .array (brackets before) →
      Breaks before .endArray "mismatched JSON container"

theorem brackets_append (calls calls' : List Call) :
    brackets (calls ++ calls') = brackets calls ++ brackets calls' :=
  List.filterMap_append

/-! ## One call -/

/-- The kind of container that a call must be directly inside of. -/
def Call.demand? : Call → Option Container
  | .endObject | .key _ | .field _ _ => some .object
  | .endArray => some .array
  | .beginObject | .beginArray | .string _ => none

/-- The call is made directly inside a container of the kind that it must be in. -/
def Fits (before : List Call) (call : Call) : Prop :=
  ∀ container ∈ call.demand?, EndsInside container (brackets before)

namespace Writer

/-- The open containers, innermost first. -/
def containers (w : Writer) : List Container :=
  w.frames.map Frame.container

@[simp] theorem containers_nextItem (w : Writer) : w.nextItem.containers = w.containers := by
  unfold nextItem
  split
  · rfl
  · next hframes => simp [containers, hframes]
  · rfl

@[simp] theorem containers_nextValue (w : Writer) : w.nextValue.containers = w.containers := by
  unfold nextValue
  split
  · rfl
  · exact w.containers_nextItem

@[simp] theorem containers_raw (w : Writer) (text : String) : (w.raw text).containers = w.containers :=
  rfl

@[simp] theorem containers_putKey (w : Writer) (name : String) :
    (w.putKey name).containers = w.containers :=
  w.containers_nextItem

@[simp] theorem containers_string (w : Writer) (pieces : List String) :
    (w.string pieces).containers = w.containers := by
  rw [string_eq_put, put, containers_raw, containers_nextValue]

@[simp] theorem containers_openContainer (w : Writer) (container : Container) :
    (w.openContainer container).containers = container :: w.containers := by
  show container :: w.nextValue.containers = container :: w.containers
  rw [containers_nextValue]

/-- A key is written directly inside an object and nowhere else. -/
theorem key_eq (w : Writer) (name : String) :
    w.key name =
      if w.containers.head? = some .object then .ok (w.putKey name) else .error .keyOutsideObject := by
  unfold key
  split
  · next hframes =>
    rw [if_pos (by simp [containers, hframes]), close_append_quote, raw_raw, ← String.ofList_append]
    rfl
  · next hframes =>
    rw [if_neg]
    intro hhead
    rcases hcases : w.frames with _ | ⟨⟨container, isEmpty⟩, outer⟩
    · simp [containers, hcases] at hhead
    · simp [containers, hcases] at hhead
      subst hhead
      exact hframes isEmpty outer hcases

theorem field_eq (w : Writer) (name value : String) :
    w.field name value =
      if w.containers.head? = some .object then .ok ((w.putKey name).string [value])
      else .error .keyOutsideObject := by
  rw [field, key_eq]
  split <;> rfl

/-- A container is closed if it is the innermost one and of the right kind. -/
theorem closeContainer_eq (w : Writer) (container : Container) :
    w.closeContainer container =
      if w.containers.head? = some container then
        .ok ({ w with frames := w.frames.tail }.raw (String.singleton container.closing))
      else .error .mismatchedContainer := by
  unfold closeContainer
  cases hframes : w.frames with
  | nil => simp [containers, hframes]
  | cons frame outer => simp [containers, hframes]

theorem closeContainer_of_head {w : Writer} {container : Container}
    (h : w.containers.head? = some container) :
    ∃ w', w.closeContainer container = .ok w' ∧
      Bracket.act w.containers (.closing container) = some w'.containers := by
  obtain ⟨outer, houter⟩ := List.head?_eq_some_iff.mp h
  refine ⟨_, by rw [closeContainer_eq, if_pos h], ?_⟩
  rw [act_closing_eq_some, containers_raw, houter]
  show container :: outer = container :: w.frames.tail.map Frame.container
  rw [List.map_tail]
  show container :: outer = container :: w.containers.tail
  rw [houter, List.tail_cons]

/-- A call that is made where it fits goes through, and acts on the open containers as its bracket does. -/
theorem perform_of_demand {w : Writer} {call : Call}
    (h : ∀ container ∈ call.demand?, w.containers.head? = some container) :
    ∃ w', w.perform call = .ok w' ∧
      (brackets [call]).foldlM Bracket.act w.containers = some w'.containers := by
  cases call with
  | beginObject =>
    refine ⟨_, rfl, ?_⟩
    rw [containers_openContainer]
    rfl
  | beginArray =>
    refine ⟨_, rfl, ?_⟩
    rw [containers_openContainer]
    rfl
  | string pieces =>
    refine ⟨_, rfl, ?_⟩
    rw [containers_string]
    rfl
  | key name =>
    refine ⟨w.putKey name, by rw [perform, key_eq, if_pos (h .object rfl)], ?_⟩
    rw [containers_putKey]
    rfl
  | field name value =>
    refine ⟨(w.putKey name).string [value], by rw [perform, field_eq, if_pos (h .object rfl)], ?_⟩
    rw [containers_string, containers_putKey]
    rfl
  | endObject =>
    obtain ⟨w', hok, hact⟩ := closeContainer_of_head (h .object rfl)
    exact ⟨w', hok, by simp [brackets, Call.bracket?, hact]⟩
  | endArray =>
    obtain ⟨w', hok, hact⟩ := closeContainer_of_head (h .array rfl)
    exact ⟨w', hok, by simp [brackets, Call.bracket?, hact]⟩

/-- A call that is made where it does not fit is refused. -/
theorem perform_of_not_demand {w : Writer} {call : Call} {container : Container}
    (hdemand : call.demand? = some container) (h : w.containers.head? ≠ some container) :
    w.perform call = .error (if call.hasKey then .keyOutsideObject else .mismatchedContainer) := by
  cases call with
  | beginObject => cases hdemand
  | beginArray => cases hdemand
  | string pieces => cases hdemand
  | key name =>
    cases hdemand
    rw [perform, key_eq, if_neg h]
    rfl
  | field name value =>
    cases hdemand
    rw [perform, field_eq, if_neg h]
    rfl
  | endObject =>
    cases hdemand
    rw [perform, closeContainer_eq, if_neg h]
    rfl
  | endArray =>
    cases hdemand
    rw [perform, closeContainer_eq, if_neg h]
    rfl

theorem perform_eq_ok {w w' : Writer} {call : Call} (h : w.perform call = .ok w') :
    (∀ container ∈ call.demand?, w.containers.head? = some container) ∧
      (brackets [call]).foldlM Bracket.act w.containers = some w'.containers := by
  by_cases hdemand : ∀ container ∈ call.demand?, w.containers.head? = some container
  · obtain ⟨_, hok, hact⟩ := perform_of_demand hdemand
    rw [h] at hok
    cases hok
    exact ⟨hdemand, hact⟩
  · push Not at hdemand
    obtain ⟨container, hcontainer, hne⟩ := hdemand
    rw [perform_of_not_demand hcontainer hne] at h
    cases h

/-! ## Calls in a row -/

/-- Calls that go through do so one after the other. -/
theorem perform_of_performAll_cons {w w' : Writer} {call : Call} {calls : List Call}
    (h : w.performAll (call :: calls) = .ok w') :
    ∃ w₁, w.perform call = .ok w₁ ∧ w₁.performAll calls = .ok w' := by
  cases hcall : w.perform call with
  | error misuse =>
    rw [performAll, List.foldlM_cons, hcall] at h
    cases h
  | ok w₁ =>
    rw [performAll_cons hcall] at h
    exact ⟨w₁, rfl, h⟩

theorem performAll_concat (w : Writer) (calls : List Call) (call : Call) :
    w.performAll (calls ++ [call]) = (w.performAll calls).bind (perform · call) := by
  rw [performAll, List.foldlM_append]
  show ((w.performAll calls).bind fun w' => [call].foldlM perform w') = _
  congr 1
  funext w'
  rw [List.foldlM_cons]
  cases w'.perform call <;> rfl

/-- The containers that are open in a writer are those that its calls have left open. -/
theorem foldlM_act_of_performAll {w w' : Writer} {calls : List Call} (h : w.performAll calls = .ok w') :
    (brackets calls).foldlM Bracket.act w.containers = some w'.containers := by
  induction calls generalizing w with
  | nil =>
    cases h
    rfl
  | cons call calls ih =>
    obtain ⟨w₁, hcall, hcalls⟩ := perform_of_performAll_cons h
    have hact := (perform_eq_ok hcall).2
    show (brackets ([call] ++ calls)).foldlM Bracket.act w.containers = some w'.containers
    rw [brackets_append, List.foldlM_append, hact]
    exact ih hcalls

theorem pending_of_performAll {w : Writer} {calls : List Call} (h : performAll {} calls = .ok w) :
    pending (brackets calls) = some w.containers :=
  foldlM_act_of_performAll h

end Writer

/-- Every call is made where it fits. -/
def Orderly (calls : List Call) : Prop :=
  ∀ before call after, calls = before ++ call :: after → Fits before call

theorem orderly_nil : Orderly [] := by
  intro before call after h
  simp at h

theorem Orderly.of_append {calls rest : List Call} (h : Orderly (calls ++ rest)) : Orderly calls := by
  rintro before call after rfl
  apply h before call (after ++ rest)
  simp

theorem orderly_concat {calls : List Call} {call : Call} :
    Orderly (calls ++ [call]) ↔ Orderly calls ∧ Fits calls call := by
  constructor
  · intro h
    exact ⟨h.of_append, h calls call [] rfl⟩
  · rintro ⟨hcalls, hfits⟩ before call' after hsplit
    rcases List.eq_nil_or_concat after with rfl | ⟨after, last, rfl⟩
    · obtain ⟨rfl, hlast⟩ := List.append_inj' hsplit rfl
      cases hlast
      exact hfits
    · rw [List.concat_eq_append, ← List.cons_append, ← List.append_assoc] at hsplit
      exact hcalls before call' after (List.append_inj_left' hsplit rfl)

theorem fits_iff {w : Writer} {calls : List Call} (h : Writer.performAll {} calls = .ok w) (call : Call) :
    Fits calls call ↔ ∀ container ∈ call.demand?, w.containers.head? = some container := by
  have hpending := Writer.pending_of_performAll h
  exact forall₂_congr fun container _ => endsInside_iff hpending container

/-- A writer accepts the calls that are all made where they fit, and no others. -/
theorem exists_performAll_iff {calls : List Call} :
    (∃ w, Writer.performAll {} calls = .ok w) ↔ Orderly calls := by
  induction calls using List.reverseRecOn with
  | nil => exact ⟨fun _ => orderly_nil, fun _ => ⟨{}, rfl⟩⟩
  | append_singleton calls call ih =>
    rw [orderly_concat, ← ih, Writer.performAll_concat]
    constructor
    · rintro ⟨w', hw'⟩
      cases hcalls : Writer.performAll {} calls with
      | error misuse =>
        rw [hcalls] at hw'
        cases hw'
      | ok w =>
        rw [hcalls] at hw'
        exact ⟨⟨w, rfl⟩, (fits_iff hcalls call).mpr (Writer.perform_eq_ok hw').1⟩
    · rintro ⟨⟨w, hcalls⟩, hfits⟩
      obtain ⟨w', hw', -⟩ := Writer.perform_of_demand ((fits_iff hcalls call).mp hfits)
      exact ⟨w', by rw [hcalls]; exact hw'⟩

/-- If not every call is made where it fits, there is a first one that is not. -/
theorem exists_first_misfit {calls : List Call} (h : ¬ Orderly calls) :
    ∃ before call after, calls = before ++ call :: after ∧ Orderly before ∧ ¬ Fits before call := by
  induction calls using List.reverseRecOn with
  | nil => exact absurd orderly_nil h
  | append_singleton calls call ih =>
    by_cases hcalls : Orderly calls
    · refine ⟨calls, call, [], rfl, hcalls, ?_⟩
      intro hfits
      exact h (orderly_concat.mpr ⟨hcalls, hfits⟩)
    · obtain ⟨before, call', after, rfl, hbefore, hmisfit⟩ := ih hcalls
      exact ⟨before, call', after ++ [call], by simp, hbefore, hmisfit⟩

/-! ## Well-nested lists -/

theorem Call.demand?_of_hasKey {call : Call} (h : call.hasKey) : call.demand? = some .object := by
  cases call with
  | key name => rfl
  | field name value => rfl
  | beginObject => cases h
  | endObject => cases h
  | beginArray => cases h
  | endArray => cases h
  | string pieces => cases h

/-- A call with a demand writes a key, or it ends a container of the kind that it demands. -/
theorem Call.bracket?_of_demand? {call : Call} {container : Container} (h : call.demand? = some container) :
    (call.hasKey ∧ container = .object) ∨ call.bracket? = some (.closing container) := by
  cases call with
  | key name => exact .inl ⟨rfl, (Option.some.inj h).symm⟩
  | field name value => exact .inl ⟨rfl, (Option.some.inj h).symm⟩
  | endObject =>
    cases h
    exact .inr rfl
  | endArray =>
    cases h
    exact .inr rfl
  | beginObject => cases h
  | beginArray => cases h
  | string pieces => cases h

/-- In a balanced word, a closing bracket stands directly inside a container of its kind. -/
theorem Balanced.endsInside {before after : List Bracket} {container : Container}
    (h : Balanced (before ++ .closing container :: after)) : EndsInside container before := by
  have hpending := balanced_iff_pending.mp h
  rw [pending_append] at hpending
  obtain ⟨stack, hbefore, hafter⟩ := Option.bind_eq_some_iff.mp hpending
  rw [List.foldlM_cons] at hafter
  obtain ⟨outer, hact, -⟩ := Option.bind_eq_some_iff.mp hafter
  rw [endsInside_iff hbefore, act_closing_eq_some.mp hact]
  rfl

theorem wellNested_iff {calls : List Call} :
    WellNested calls ↔ Orderly calls ∧ Balanced (brackets calls) := by
  constructor
  · intro h
    refine ⟨?_, h.balanced⟩
    intro before call after hsplit container hdemand
    rcases Call.bracket?_of_demand? hdemand with ⟨hkey, rfl⟩ | hbracket
    · exact h.keys before call after hsplit hkey
    · have hbalanced := h.balanced
      rw [hsplit, brackets_append, brackets, brackets, List.filterMap_cons_some hbracket] at hbalanced
      exact hbalanced.endsInside
  · rintro ⟨horderly, hbalanced⟩
    refine ⟨hbalanced, ?_⟩
    intro before call after hsplit hkey
    exact horderly before call after hsplit .object (Call.demand?_of_hasKey hkey)

/-- The call that ends a container. -/
def Container.endCall : Container → Call
  | .object => .endObject
  | .array => .endArray

/-- Whatever is open can be closed. -/
theorem Writer.exists_performAll_endCalls (w : Writer) :
    ∃ w', w.performAll (w.containers.map Container.endCall) = .ok w' ∧ w'.containers = [] := by
  induction hstack : w.containers generalizing w with
  | nil => exact ⟨w, rfl, hstack⟩
  | cons container outer ih =>
    have hhead : w.containers.head? = some container := by rw [hstack]; rfl
    obtain ⟨w₁, hclose, hact⟩ := closeContainer_of_head hhead
    rw [act_closing_eq_some, hstack] at hact
    have hperform : w.perform container.endCall = .ok w₁ := by
      cases container <;> exact hclose
    obtain ⟨w', hrest, hnil⟩ := ih w₁ (List.cons.inj hact).2.symm
    refine ⟨w', ?_, hnil⟩
    rw [List.map_cons, performAll_cons hperform]
    exact hrest

/-- Calls can be continued to a well-nested list if and only if each of them is made where it fits. -/
theorem extensible_iff {calls : List Call} : Extensible calls ↔ Orderly calls := by
  constructor
  · rintro ⟨rest, hrest⟩
    exact (wellNested_iff.mp hrest).1.of_append
  · intro h
    -- end the containers that are still open
    obtain ⟨w, hw⟩ := exists_performAll_iff.mpr h
    obtain ⟨w', hw', hnil⟩ := w.exists_performAll_endCalls
    have hall : Writer.performAll {} (calls ++ w.containers.map Container.endCall) = .ok w' := by
      rw [Writer.performAll_append hw]
      exact hw'
    refine ⟨_, wellNested_iff.mpr ⟨exists_performAll_iff.mp ⟨w', hall⟩, ?_⟩⟩
    rw [balanced_iff_pending, Writer.pending_of_performAll hall, hnil]

/-! ## Whole runs -/

/-- The text that some calls write, taken from the writer after the last of them. -/
def written (calls : List Call) : Except Misuse String := do
  let w ← Writer.performAll {} calls
  w.finish

def Bracket.isOpening : Bracket → Bool
  | .opening _ => true
  | .closing _ => false

@[simp] theorem Bracket.isOpening_opening (container : Container) : (opening container).isOpening = true :=
  rfl

@[simp] theorem Bracket.isOpening_closing (container : Container) : (closing container).isOpening = false :=
  rfl

/-- How many containers some calls begin. -/
def begins (calls : List Call) : Nat :=
  (brackets calls).countP Bracket.isOpening

/-- How many containers some calls end. -/
def ends (calls : List Call) : Nat :=
  (brackets calls).countP (!·.isOpening)

/-- All calls go through and could be continued well, but at the end a container is open. -/
def FailsAtFinish (calls : List Call) : Prop :=
  Extensible calls ∧ ∃ w misuse, Writer.performAll {} calls = .ok w ∧ 0 < w.depth ∧
    written calls = .error misuse ∧ misuse.message = "unclosed JSON container"

/-- One of the calls is refused for the rule that it breaks, and it is the first one after which the calls
cannot be continued well. -/
def FailsAtCall (calls : List Call) : Prop :=
  ∃ before call after, calls = before ++ call :: after ∧
    Extensible before ∧ ¬ Extensible (before ++ [call]) ∧
    ∃ w misuse, Writer.performAll {} before = .ok w ∧ w.perform call = .error misuse ∧
      written calls = .error misuse ∧ Breaks before call misuse.message

theorem length_of_foldlM_act {stack stack' : List Container} {w : List Bracket}
    (h : w.foldlM Bracket.act stack = some stack') :
    stack'.length + w.countP (!·.isOpening) = stack.length + w.countP Bracket.isOpening := by
  induction w generalizing stack with
  | nil =>
    cases h
    rfl
  | cons bracket w ih =>
    rw [List.foldlM_cons] at h
    obtain ⟨next, hact, hrest⟩ := Option.bind_eq_some_iff.mp h
    have hlength := ih hrest
    cases bracket with
    | opening container =>
      cases hact
      rw [List.length_cons] at hlength
      simp only [List.countP_cons, Bracket.isOpening_opening, Bool.not_true]
      grind
    | closing container =>
      obtain rfl := act_closing_eq_some.mp hact
      rw [List.length_cons]
      simp only [List.countP_cons, Bracket.isOpening_closing, Bool.not_false]
      grind

/-- As long as no call has been refused, the depth is the number of containers begun less those ended. -/
theorem depth_of_performAll {w : Writer} {calls : List Call} (h : Writer.performAll {} calls = .ok w) :
    (w.depth : Int) = begins calls - ends calls := by
  have hlength := length_of_foldlM_act (Writer.foldlM_act_of_performAll h)
  have hdepth : w.depth = w.containers.length := by
    rw [Writer.containers, List.length_map, Writer.depth]
  have hstart : (Writer.containers {}).length = 0 := rfl
  rw [hstart, ← hdepth] at hlength
  rw [begins, ends]
  omega

theorem breaks_of_not_fits {w : Writer} {before : List Call} {call : Call}
    (hw : Writer.performAll {} before = .ok w) (h : ¬ Fits before call) :
    ∃ misuse, w.perform call = .error misuse ∧ Breaks before call misuse.message := by
  rw [Fits] at h
  push Not at h
  obtain ⟨container, hdemand, hnot⟩ := h
  have hhead := mt (endsInside_iff (Writer.pending_of_performAll hw) container).mpr hnot
  refine ⟨_, Writer.perform_of_not_demand hdemand hhead, ?_⟩
  cases call with
  | key name =>
    cases hdemand
    exact .key name hnot
  | field name value =>
    cases hdemand
    exact .field name value hnot
  | endObject =>
    cases hdemand
    exact .endObject hnot
  | endArray =>
    cases hdemand
    exact .endArray hnot
  | beginObject => cases hdemand
  | beginArray => cases hdemand
  | string pieces => cases hdemand

theorem finish_of_containers_eq_nil {w : Writer} (h : w.containers = []) : w.finish = .ok w.text := by
  have hframes : w.frames = [] := List.map_eq_nil_iff.mp h
  rw [Writer.finish, hframes]
  rfl

theorem finish_of_containers_ne_nil {w : Writer} (h : w.containers ≠ []) :
    0 < w.depth ∧ w.finish = .error .unclosedContainer := by
  have hframes : w.frames ≠ [] := fun hnil => h (by rw [Writer.containers, hnil]; rfl)
  refine ⟨List.length_pos_iff.mpr hframes, ?_⟩
  rw [Writer.finish, if_neg (by simpa using hframes)]

theorem written_of_performAll {w : Writer} {calls : List Call} (h : Writer.performAll {} calls = .ok w) :
    written calls = w.finish := by
  rw [written, h]
  rfl

/-- After the calls of a well-nested list, and of no other, nothing is open. -/
theorem wellNested_iff_containers {w : Writer} {calls : List Call}
    (h : Writer.performAll {} calls = .ok w) : WellNested calls ↔ w.containers = [] := by
  rw [wellNested_iff, balanced_iff_pending, Writer.pending_of_performAll h, Option.some_inj]
  exact and_iff_right (exists_performAll_iff.mp ⟨w, h⟩)

theorem failsAtFinish_of_orderly {calls : List Call} (h : Orderly calls) (hnot : ¬ WellNested calls) :
    FailsAtFinish calls := by
  obtain ⟨w, hw⟩ := exists_performAll_iff.mpr h
  rw [wellNested_iff_containers hw] at hnot
  obtain ⟨hdepth, hfinish⟩ := finish_of_containers_ne_nil hnot
  refine ⟨extensible_iff.mpr h, w, .unclosedContainer, hw, hdepth, ?_, rfl⟩
  rw [written_of_performAll hw, hfinish]

theorem failsAtCall_of_not_orderly {calls : List Call} (h : ¬ Orderly calls) : FailsAtCall calls := by
  obtain ⟨before, call, after, rfl, hbefore, hmisfit⟩ := exists_first_misfit h
  obtain ⟨w, hw⟩ := exists_performAll_iff.mpr hbefore
  obtain ⟨misuse, hperform, hbreaks⟩ := breaks_of_not_fits hw hmisfit
  refine ⟨before, call, after, rfl, extensible_iff.mpr hbefore, ?_, w, misuse, hw, hperform, ?_, hbreaks⟩
  · rw [extensible_iff, orderly_concat]
    exact fun hboth => hmisfit hboth.2
  · rw [written, Writer.performAll_append hw, Writer.performAll, List.foldlM_cons, hperform]
    rfl

/-- A run ends well if and only if its calls are well nested. Any other run fails, at its end if its calls
could still be continued well, and else at the first call after which they cannot. As long as it has not
failed, the depth of the writer is the number of containers begun less those ended. -/
theorem finish_iff_wellNested (calls : List Call) :
    ((∃ text, written calls = .ok text) ↔ WellNested calls) ∧
    (WellNested calls ∨ FailsAtFinish calls ∨ FailsAtCall calls) ∧
    ∀ before w, before <+: calls → Writer.performAll {} before = .ok w →
      (w.depth : Int) = begins before - ends before := by
  have hcases : WellNested calls ∨ FailsAtFinish calls ∨ FailsAtCall calls := by
    by_cases hnested : WellNested calls
    · exact .inl hnested
    by_cases horderly : Orderly calls
    · exact .inr (.inl (failsAtFinish_of_orderly horderly hnested))
    · exact .inr (.inr (failsAtCall_of_not_orderly horderly))
  refine ⟨⟨?_, ?_⟩, hcases, fun before w _ hw => depth_of_performAll hw⟩
  · rintro ⟨text, htext⟩
    rcases hcases with hnested | ⟨-, w, misuse, -, -, herror, -⟩ |
      ⟨_, _, _, -, -, -, w, misuse, -, -, herror, -⟩
    · exact hnested
    · rw [htext] at herror
      cases herror
    · rw [htext] at herror
      cases herror
  · intro hnested
    obtain ⟨w, hw⟩ := exists_performAll_iff.mpr (wellNested_iff.mp hnested).1
    rw [written_of_performAll hw]
    exact ⟨w.text, finish_of_containers_eq_nil ((wellNested_iff_containers hw).mp hnested)⟩

-- The key and the end after it are both out of place, and the run does not get as far as the end.
example : written [.beginObject, .beginArray, .key "a", .endObject] = .error .keyOutsideObject := by
  decide +kernel

end TextMate.Json
