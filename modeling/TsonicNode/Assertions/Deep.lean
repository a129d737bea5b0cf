import TsonicNode.Lib.Paths
import Mathlib.Data.List.Basic

/-!
# Deep equality of runtime values

`deep_value_equal` goes through two value graphs with a stack of frames; the
two maps hold, for each side, the aggregates the stack is inside of and how deep
each was entered. The values themselves are those of the language runtime: what
the function asks about them is the parameter `Runtime`, what it relies on is
`Runtime.Lawful`.
-/

namespace TsonicNode.Assertions

open TsonicNode.Lib

/-- A range of the bytes of a storage. -/
structure ByteView where
  storage : List UInt8
  offset : Nat
  length : Nat
  within : offset + length ≤ storage.length

namespace ByteView

def bytes (view : ByteView) : List UInt8 := (view.storage.drop view.offset).take view.length

/-- The loop over the bytes of two views. -/
def same (left right : ByteView) : Bool :=
  left.length == right.length && (List.range left.length).all fun index =>
    left.storage[left.offset + index]? == right.storage[right.offset + index]?

theorem length_bytes (view : ByteView) : view.bytes.length = view.length := by
  have := view.within
  rw [bytes, List.length_take, List.length_drop]
  omega

theorem bytes_getElem? (view : ByteView) {index : Nat} (h : index < view.length) :
    view.bytes[index]? = view.storage[view.offset + index]? := by
  rw [bytes, List.getElem?_take_of_lt h, List.getElem?_drop]

theorem same_iff (left right : ByteView) : left.same right = true ↔ left.bytes = right.bytes := by
  simp only [same, Bool.and_eq_true, beq_iff_eq, List.all_eq_true, List.mem_range]
  constructor
  · rintro ⟨hlength, hall⟩
    apply List.ext_getElem?
    intro index
    by_cases hindex : index < left.length
    · rw [bytes_getElem? left hindex, bytes_getElem? right (hlength ▸ hindex)]
      exact hall index hindex
    · rw [List.getElem?_eq_none (by rw [length_bytes]; omega),
        List.getElem?_eq_none (by rw [length_bytes]; omega)]
  · intro hbytes
    have hlength : left.length = right.length := by
      rw [← length_bytes, ← length_bytes, hbytes]
    refine ⟨hlength, fun index hindex => ?_⟩
    rw [← bytes_getElem? left hindex, ← bytes_getElem? right (hlength ▸ hindex), hbytes]

end ByteView

/-- What the comparison asks of a runtime value. -/
structure Runtime (Value Key Address : Type) where
  samePrototype : Value → Value → Bool
  objectIs : Value → Value → Bool
  isArray : Value → Bool
  isObject : Value → Bool
  isByteView : Value → Bool
  byteView : Value → ByteView
  identityAddress : Value → Address
  aggregateLength : Value → Nat
  aggregateKey : Value → Nat → Key
  aggregateHas : Value → Nat → Bool
  aggregateValue : Value → Nat → Value

inductive Error where
  | missingKey
  | outOfRange

/-- A pair of values and how far its elements are compared; without an index it
has not been looked at. -/
structure Frame (Value : Type) where
  left : Value
  right : Value
  index : Option Nat := none
  length : Nat := 0
  rightIndexes : List Nat := []

abbrev Marks (Address : Type) := Address → Option Nat

/-- The locals of the loop; the last frame stands first. -/
structure State (Value Address : Type) where
  frames : List (Frame Value)
  activeLeft : Marks Address
  activeRight : Marks Address

/-- The state `deep_value_equal` begins with. -/
def State.start {Value Address : Type} (left right : Value) : State Value Address :=
  ⟨[{ left := left, right := right }], fun _ => none, fun _ => none⟩

/-- What the first look at a frame comes to. -/
inductive Entered (Value Address : Type) where
  | unequal
  | settled
  | opened (frame : Frame Value) (state : State Value Address)

namespace Runtime

variable {Value Key Address : Type} (runtime : Runtime Value Key Address)

/-- Arrays and objects. -/
def Aggregate (value : Value) : Prop := runtime.isArray value = true ∨ runtime.isObject value = true

/-- The indexes by key of an object. -/
def keyIndexes [DecidableEq Key] (value : Value) (length : Nat) : Key → Option Nat :=
  (List.range length).foldl
    (fun keys index => Function.update keys (runtime.aggregateKey value index) (some index)) fun _ => none

/-- Where the keys of the left object stand in the right one. -/
def rightIndexes [DecidableEq Key] (left right : Value) (length : Nat) : Option (List Nat) :=
  (List.range length).mapM fun index => runtime.keyIndexes right length (runtime.aggregateKey left index)

variable [DecidableEq Key] [DecidableEq Address]

/-- `if frame.index == -1`, on a frame that is off the stack. -/
def enter (frame : Frame Value) (state : State Value Address) : Entered Value Address :=
  let left := frame.left
  let right := frame.right
  if !runtime.samePrototype left right then .unequal
  else if runtime.objectIs left right then .settled
  else if !runtime.isArray left && !runtime.isObject left then .unequal
  else if runtime.isByteView left then
    if (runtime.byteView left).same (runtime.byteView right) then .settled else .unequal
  else
    let leftPosition := state.activeLeft (runtime.identityAddress left)
    let rightPosition := state.activeRight (runtime.identityAddress right)
    if leftPosition ≠ none ∨ rightPosition ≠ none then
      if leftPosition ≠ rightPosition then .unequal else .settled
    else
      let length := runtime.aggregateLength left
      if length ≠ runtime.aggregateLength right then .unequal
      else
        match if runtime.isObject left then runtime.rightIndexes left right length else some [] with
        | none => .unequal
        | some indexes => .opened { frame with index := some 0, length := length, rightIndexes := indexes }
          { state with
            activeLeft := Function.update state.activeLeft (runtime.identityAddress left)
              (some state.frames.length)
            activeRight := Function.update state.activeRight (runtime.identityAddress right)
              (some state.frames.length) }

/-- `Dict.pop`. -/
def pop (marks : Marks Address) (address : Address) : Except Error (Marks Address) :=
  if marks address = none then .error .missingKey else .ok (Function.update marks address none)

/-- The turn behind the first look; `none` is `return False`. -/
def advance (frame : Frame Value) (index : Nat) (state : State Value Address) :
    Except Error (Option (State Value Address)) :=
  let left := frame.left
  let right := frame.right
  let frames := { frame with index := some (index + 1) } :: state.frames
  if index = frame.length then do
    let activeLeft ← pop state.activeLeft (runtime.identityAddress left)
    let activeRight ← pop state.activeRight (runtime.identityAddress right)
    return some { state with activeLeft := activeLeft, activeRight := activeRight }
  else if runtime.isArray left && runtime.aggregateHas left index != runtime.aggregateHas right index then
    return none
  else if runtime.isArray left && !runtime.aggregateHas left index then
    return some { state with frames := frames }
  else
    match if runtime.isArray left then some index else frame.rightIndexes[index]? with
    | none => throw .outOfRange
    | some rightIndex =>
      return some { state with frames :=
        { left := runtime.aggregateValue left index, right := runtime.aggregateValue right rightIndex } ::
          frames }

/-- One turn of the loop, on the frame taken off the stack. -/
def turn (frame : Frame Value) (state : State Value Address) :
    Except Error (Option (State Value Address)) :=
  match frame.index with
  | some index => runtime.advance frame index state
  | none =>
    match runtime.enter frame state with
    | .unequal => .ok none
    | .settled => .ok (some state)
    | .opened frame state => runtime.advance frame 0 state

/-- Turns of the loop; `none` when there are more to come. -/
def compareLoop : Nat → State Value Address → Option (Except Error Bool)
  | 0, _ => none
  | turns + 1, state =>
    match state.frames with
    | [] => some (.ok true)
    | frame :: frames =>
      match runtime.turn frame { state with frames := frames } with
      | .error error => some (.error error)
      | .ok none => some (.ok false)
      | .ok (some state) => compareLoop turns state

/-- The call comes to its end with a result. -/
def Ends (left right : Value) (result : Except Error Bool) : Prop :=
  ∃ turns, runtime.compareLoop turns (State.start left right) = some result

end Runtime

end TsonicNode.Assertions
