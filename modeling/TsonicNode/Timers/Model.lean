import TsonicNode.Runtime

/-!
# Timers

`_timers` is one shared list of handles. `pollTimers` walks the handles that
are in the list when it starts, calls the callbacks that are due and installs a
list of its own making. The callbacks run in the middle of that walk and use
the same list through `setTimeout`, `setInterval`, `close` and `refresh`.

A handle is the position of its shared `TimerState` in `heap`. What a callback
does when it is called is a `Behaviour`: the calls it makes, in order, and how
it ends. A callback may be any closure, so it behaves differently each time;
`pollTimers` takes one behaviour for each position of the list.
-/

namespace TsonicNode.Timers

open TsonicNode.Lib

/-- A handle on a shared `TimerState`. -/
structure Timeout where
  state : Nat
  deriving DecidableEq, Repr

structure TimerState (C : Type) where
  callback : C
  delayNs : Int
  dueNs : Int
  interval : Bool
  active : Bool
  referenced : Bool

/-- What callbacks did to the set of timers. -/
inductive ApiCall where
  | opened (timer : Timeout)
  | closed (timer : Timeout)
  deriving DecidableEq, Repr

structure World (C : Type) where
  /-- Every `TimerState` allocated so far. -/
  heap : List (TimerState C)
  /-- The global cell `tsonic.node.timers`. -/
  timers : List Timeout
  /-- The readings of the monotonic clock, and how many have been taken. -/
  clock : Nat → Int
  readings : Nat
  /-- The timers opened and closed through the API so far. -/
  calls : List ApiCall

variable {C : Type}

abbrev M (C : Type) := EStateM Error (World C)

def maxTimers : Nat := 1048576

def monotonic : M C Int := do
  let now := (← get).clock (← get).readings
  modify fun w => { w with readings := w.readings + 1 }
  return now

/-! ## Handles -/

def World.active (w : World C) (timer : Timeout) : Bool :=
  match w.heap[timer.state]? with
  | some state => state.active
  | none => false

def World.dueNs (w : World C) (timer : Timeout) : Int :=
  match w.heap[timer.state]? with
  | some state => state.dueNs
  | none => 0

def World.interval (w : World C) (timer : Timeout) : Bool :=
  match w.heap[timer.state]? with
  | some state => state.interval
  | none => false

/-- Write through a handle. -/
def World.write (w : World C) (timer : Timeout) (f : TimerState C → TimerState C) : World C :=
  { w with heap := w.heap.modify timer.state f }

def Timeout.unref (timer : Timeout) : M C Unit :=
  modify fun w => w.write timer fun state => { state with referenced := false }

def Timeout.ref (timer : Timeout) : M C Unit :=
  modify fun w => w.write timer fun state => { state with referenced := true }

def Timeout.refresh (timer : Timeout) : M C Unit := do
  let now ← monotonic
  modify fun w => w.write timer fun state => { state with dueNs := now + state.delayNs }

def Timeout.close (timer : Timeout) : M C Unit :=
  modify fun w =>
    { w.write timer fun state => { state with active := false } with
      calls := w.calls ++ [.closed timer] }

/-! ## Scheduling -/

def schedule (callback : C) (delayMs : Int) (interval : Bool) : M C Timeout := do
  if (← get).timers.length ≥ maxTimers then
    throw ⟨"Active Node timers exceed the finite runtime limit"⟩
  else
    let delayNs := max delayMs 0 * 1000000
    let delayNs := if interval then max delayNs 1000000 else delayNs
    let now ← monotonic
    let timeout : Timeout := ⟨(← get).heap.length⟩
    modify fun w =>
      { w with
        heap := w.heap ++ [⟨callback, delayNs, now + delayNs, interval, true, true⟩]
        timers := w.timers ++ [timeout]
        calls := w.calls ++ [.opened timeout] }
    return timeout

def setTimeout (callback : C) (delayMs : Int) : M C Timeout := schedule callback delayMs false

def setInterval (callback : C) (delayMs : Int) : M C Timeout := schedule callback delayMs true

/-! ## Callbacks -/

/-- One call a callback makes. -/
inductive Action (C : Type) where
  | setTimeout (callback : C) (delayMs : Int)
  | setInterval (callback : C) (delayMs : Int)
  | close (timer : Timeout)
  | refresh (timer : Timeout)
  | ref (timer : Timeout)
  | unref (timer : Timeout)

def Action.perform : Action C → M C Unit
  | .setTimeout callback delayMs => do let _ ← Timers.setTimeout callback delayMs
  | .setInterval callback delayMs => do let _ ← Timers.setInterval callback delayMs
  -- A callback holds only handles of timers that exist.
  | .close timer => do if timer.state < (← get).heap.length then timer.close else pure ()
  | .refresh timer => timer.refresh
  | .ref timer => timer.ref
  | .unref timer => timer.unref

/-- What a callback does when it is called: the calls it makes (an error one of them raises is
caught; a callback that lets it through ends there) and the error it ends with, if any. -/
structure Behaviour (C : Type) where
  actions : List (Action C)
  raises : Option Error

def performAll : List (Action C) → M C Unit
  | [] => pure ()
  | action :: rest => do
    try action.perform catch _ => pure ()
    performAll rest

def Behaviour.call (behaviour : Behaviour C) : M C Unit := do
  performAll behaviour.actions
  match behaviour.raises with
  | some error => throw error
  | none => pure ()

/-! ## Polling -/

/-- One turn of the loop: whether the timer's callback ran and whether the timer is retained. -/
def visit (behaviour : Behaviour C) (now : Int) (timer : Timeout) : M C (Bool × Bool) := do
  if (← get).active timer then
    if (← get).dueNs timer ≤ now then
      behaviour.call
      if (← get).interval timer && (← get).active timer then
        modify fun w => w.write timer fun state => { state with dueNs := now + state.delayNs }
      else
        modify fun w => w.write timer fun state => { state with active := false }
      return (true, (← get).active timer)
    else
      return (false, (← get).active timer)
  else
    return (false, false)

/-- The loop over the positions `index`, `index + 1`, … of the list, `remaining` of them: the
number is fixed when the loop starts, the list is read anew at each turn. -/
def pollFrom (behaviour : Nat → Behaviour C) (now : Int) :
    (remaining index : Nat) → (didWork : Bool) → (retained : List Timeout) →
      M C (Bool × List Timeout)
  | 0, _, didWork, retained => return (didWork, retained)
  | remaining + 1, index, didWork, retained => do
    match (← get).timers[index]? with
    | none => throw ⟨"index out of range"⟩
    | some timer =>
      let (fired, keep) ← visit (behaviour index) now timer
      pollFrom behaviour now remaining (index + 1) (didWork || fired)
        (if keep then retained ++ [timer] else retained)

def pollTimers (behaviour : Nat → Behaviour C) : M C Bool := do
  let now ← monotonic
  let (didWork, retained) ← pollFrom behaviour now (← get).timers.length 0 false []
  modify fun w => { w with timers := retained }
  return didWork

end TsonicNode.Timers
