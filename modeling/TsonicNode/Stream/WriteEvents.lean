import TsonicNode.Internal.QueueMachine
import Mathlib.Logic.Function.Basic

/-!
# The events of a writable stream

A writable stream delivers its completions and events through one queue, shared
by all streams. Capacity for an event is reserved before it can happen
(`WriteEvents.prepare`) and spent when it does; capacity for a completion is
held by the completion.

`World` is one stream, the reservations it holds for its events, and the queue.
The event handlers (`WriteEvents.invoke`) record in `emitted` which listeners
they notify.
-/

namespace TsonicNode.Stream

open TsonicNode.Lib TsonicNode.Internal

/-- The events of a stream; `complete` is internal. -/
inductive Event where
  | error
  | complete
  | finish
  | drain
  | close
  deriving DecidableEq, Repr

/-- Who hands a callback in: a write or an end. -/
inductive Handing where
  | write
  | «end»
  deriving DecidableEq, Repr

/-- A callback handed to a call; the calls that hand one in are numbered in their order. -/
structure WriteCallback where
  handing : Handing
  number : Nat
  deriving DecidableEq, Repr

structure StreamCompletion where
  callback : WriteCallback
  reservation : ReservationId
  deriving DecidableEq

/-- What stands in the queue. -/
inductive Entry where
  | event (event : Event)
  | completion (callback : WriteCallback) (error : Option TsError)
  /-- Something of another stream. -/
  | foreign
  deriving DecidableEq

/-- `_WriteEventState`; its `reservations` are a component of the `World`. -/
structure WriteEventState where
  error : Option TsError
  errorScheduled : Bool
  finishScheduled : Bool
  finished : Bool
  closeScheduled : Bool
  closeQueued : Bool
  closed : Bool
  drainScheduled : Bool
  endCompletions : List StreamCompletion
  cancelled : Bool
  /-- The events whose listeners were notified, in order. -/
  emitted : List Event

def WriteEventState.new : WriteEventState :=
  ⟨none, false, false, false, false, false, false, false, [], false, []⟩

structure WriteRequest where
  chunk : List UInt8
  completion : Option StreamCompletion

/-- `_DescriptorState`, with what the descriptor has taken. -/
structure DescriptorState where
  isOpen : Bool
  owned : Bool
  bytesWritten : Int
  /-- Each transfer: where to, when there is a position, and the bytes. -/
  transfers : List (Option Int × List UInt8)
  /-- The buffers that `write` has written to their end, in order. -/
  whole : List (List UInt8)

/-- The answers of the system to the calls an operation makes. -/
structure Answers where
  /-- What each transfer returns: a byte count, or at most 0 and an `errno`. -/
  writes : List (Int × Nat)
  sync : Option Nat
  close : Option Nat

/-- `_WritableState`, with its descriptor. -/
structure WritableState where
  hasDescriptor : Bool
  file : DescriptorState
  chunks : List WriteRequest
  corked : Int
  ended : Bool
  closed : Bool
  failed : Bool
  bufferedBytes : Int
  highWaterMark : Int
  position : Option Int
  bytesWritten : Int
  autoClose : Bool
  flush : Bool
  events : WriteEventState
  needDrain : Bool

structure World where
  state : WritableState
  reservations : Event → Option ReservationId
  completions : Machine Entry

abbrev M := EStateM Error World

/-- An operation of the queue. -/
def onQueue {α : Type} (m : EStateM Error (Machine Entry) α) : M α :=
  zoom World.completions (fun completions w => { w with completions }) m

def setState (f : WritableState → WritableState) : M Unit :=
  modify fun w => { w with state := f w.state }

def setEvents (f : WriteEventState → WriteEventState) : M Unit :=
  setState fun state => { state with events := f state.events }

def setReservation (event : Event) (reservation : Option ReservationId) : M Unit :=
  modify fun w => { w with reservations := Function.update w.reservations event reservation }

namespace StreamCompletion

def new (callback : WriteCallback) : M StreamCompletion := do
  return ⟨callback, ← onQueue Machine.reserve⟩

def complete (error : Option TsError) (completion : StreamCompletion) : M Unit :=
  onQueue (Machine.commit completion.reservation (.completion completion.callback error))

/-- Complete one after the other. -/
def completeAll (error : Option TsError) : List StreamCompletion → M Unit
  | [] => pure ()
  | completion :: completions => do
    completion.complete error
    completeAll error completions

end StreamCompletion

namespace WriteEvents

/-- The events that `prepare` wants capacity for. -/
def prepared (events : WriteEventState) : List Event :=
  (if events.errorScheduled then [] else [.error]) ++
  (if ¬ events.finishScheduled ∧ events.error = none ∧ ¬ events.cancelled then
    [.complete, .finish] ++ (if events.drainScheduled then [] else [.drain])
  else []) ++
  (if events.closeScheduled then [] else [.close])

/-- Reserve for each event; a failure gives back what was reserved. -/
def reserveAll : List Event → M (List (Event × ReservationId))
  | [] => return []
  | event :: events => do
    let reservation ← onQueue Machine.reserve
    let pending ←
      try reserveAll events
      catch error =>
        onQueue (Machine.drop reservation)
        throw error
    return (event, reservation) :: pending

def storeAll : List (Event × ReservationId) → M Unit
  | [] => pure ()
  | (event, reservation) :: pending => do
    setReservation event (some reservation)
    storeAll pending

def prepare : M Unit := do
  let w ← get
  if w.state.events.closed then pure ()
  else
    let pending ← reserveAll
      ((prepared w.state.events).filter fun event => (w.reservations event).isNone)
    storeAll pending

def discard (event : Event) : M Unit := do
  match (← get).reservations event with
  | some reservation =>
    setReservation event none
    onQueue (Machine.drop reservation)
  | none => pure ()

def reserve (event : Event) : M ReservationId := do
  match (← get).reservations event with
  | some reservation =>
    setReservation event none
    return reservation
  | none => throw ⟨"Stream lifecycle delivery has no reserved queue capacity"⟩

def queue (event : Event) (reservation : ReservationId) : M Unit :=
  onQueue (Machine.commit reservation (.event event))

def retainEnd (callback : WriteCallback) : M Unit := do
  let completion ← StreamCompletion.new callback
  let events := (← get).state.events
  match events.error with
  | some error => completion.complete (some error)
  | none =>
    if events.cancelled ∨ events.closed then
      completion.complete (some (errorNew "Cannot end a destroyed stream"))
    else if events.finished then
      completion.complete (some (errorNew "Cannot call end after the stream finished"))
    else
      setEvents fun events =>
        { events with endCompletions := events.endCompletions ++ [completion] }

def completeEnd (error : Option TsError) : M Unit := do
  let completions := (← get).state.events.endCompletions
  setEvents fun events => { events with endCompletions := [] }
  StreamCompletion.completeAll error completions

def fail (error : TsError) : M Unit := do
  let events := (← get).state.events
  if events.errorScheduled ∨ events.closed then pure ()
  else
    let reservation ← reserve .error
    setEvents fun events => { events with error := some error, errorScheduled := true }
    discard .complete
    discard .finish
    discard .drain
    queue .error reservation

def finish : M Unit := do
  let events := (← get).state.events
  if events.finishScheduled ∨ events.error.isSome ∨ events.cancelled then pure ()
  else
    let reservation ← reserve .complete
    setEvents fun events => { events with finishScheduled := true }
    discard .drain
    queue .complete reservation

def queueClose : M Unit := do
  let events := (← get).state.events
  if ¬ events.closeScheduled ∨ events.closeQueued then pure ()
  else
    let reservation ← reserve .close
    setEvents fun events => { events with closeQueued := true }
    queue .close reservation

def close : M Unit := do
  setEvents fun events => { events with closeScheduled := true }
  let events := (← get).state.events
  if ¬ events.finishScheduled ∨ events.finished ∨ events.error.isSome ∨ events.cancelled then
    queueClose
  else pure ()

def drain : M Unit := do
  let events := (← get).state.events
  if events.drainScheduled ∨ events.finishScheduled ∨ events.error.isSome ∨ events.cancelled then
    pure ()
  else
    let reservation ← reserve .drain
    setEvents fun events => { events with drainScheduled := true }
    queue .drain reservation

def cancel : M Unit := do
  setEvents fun events => { events with cancelled := true }
  discard .complete
  discard .finish
  discard .drain

/-- `notifications(event).emit(())`. -/
def emit (event : Event) : M Unit :=
  setEvents fun events => { events with emitted := events.emitted ++ [event] }

def clearReservations : M Unit := do
  discard .error
  discard .complete
  discard .finish
  discard .drain
  discard .close

/-- `_WriteEvent.invoke`, up to the listeners. An `error` event without listeners raises, as a
listener may: that is the next step of the queue. -/
def invoke (event : Event) : M Unit := do
  let events := (← get).state.events
  match event with
  | .complete =>
    if events.error.isSome ∨ events.closed ∨ events.cancelled then pure ()
    else
      setEvents fun events => { events with finished := true }
      completeEnd none
      queue .finish (← reserve .finish)
      queueClose
  | .error => emit .error
  | .drain =>
    setEvents fun events => { events with drainScheduled := false }
    if events.error.isSome ∨ events.finishScheduled ∨ events.cancelled then pure ()
    else emit .drain
  | .finish =>
    if events.error.isSome ∨ events.cancelled then pure ()
    else
      setEvents fun events => { events with finished := true }
      emit .finish
  | .close =>
    setEvents fun events => { events with closed := true }
    clearReservations
    emit .close

end WriteEvents

end TsonicNode.Stream
