import TsonicNode.Buffer.Encoder
import TsonicNode.Lib.Number
import TsonicNode.Lib.Run
import TsonicNode.Lib.Totals

/-!
# Watching files

`_watchers` and the bridge below it. The system reports in `uv_run`, which only
`poll_watchers` calls; the bridge allocates an event for each report and queues it
at its `FsWatcher`, and `poll_watchers` takes the events out, gives them to
listeners and frees them. Listeners may do anything, so polls nest and what they
have left to do is a stack of `Code`, on which `outside` is a listener or the
program. Pointers are places in `natives` and `events`; the record says what has
happened to them.
-/

namespace TsonicNode.Filesystem.Watch

open TsonicNode.Lib
open TsonicNode.Buffer.Encoder (asBytes)

abbrev Bytes := List UInt8

/-! ## States -/

/-- `FsEvent`, but for its place in a queue. -/
structure FsEvent (Stat : Type) where
  filename : Option Bytes := none
  /-- `flags & UV_RENAME`. -/
  rename : Bool := false
  error : Nat := 0
  current : Stat
  previous : Stat

/-- `FsWatcher`, with what libuv knows of its handle. -/
structure FsWatcher where
  polling : Bool
  queueError : Nat := 0
  queue : List Nat := []
  referenced : Bool := true
  closing : Bool := false
  freed : Bool := false

structure WatchState (Callback : Type) where
  handle : Option Nat
  path : Bytes
  change : Option Callback
  stat : Option Callback

/-- What is given to a listener. -/
inductive Arguments (Stat : Type) where
  | change (rename : Bool) (filename : Option (List Char))
  | stats (current previous : Stat)

/-- What is left to do of the functions in progress. -/
inductive Code where
  | outside
  /-- The loop of `poll_watchers` over its snapshot, with `did_work`. -/
  | poll (rest : List Nat) (worked : Bool)
  /-- The `finally` behind a listener. -/
  | release (event : Nat)

inductive Entry (Callback Stat : Type) where
  /-- A watcher, as `_watch` made it. -/
  | opened (state : WatchState Callback)
  | enqueued (native event : Nat)
  | took (native event : Nat)
  | freed (event : Nat)
  /-- Freed with its queue. -/
  | discarded (event : Nat)
  /-- `uv_close`. -/
  | closes (native : Nat)
  | called (watcher native event : Nat) (callback : Callback) (arguments : Arguments Stat) (isOpen : Bool)

structure System (Callback Stat : Type) where
  natives : List FsWatcher := []
  events : List (FsEvent Stat) := []
  watchers : List (WatchState Callback) := []
  registry : List Nat := []
  stack : List Code := []
  record : List (Entry Callback Stat) := []

variable {Callback Stat : Type}

def enomem : Nat := 12

/-- `String(from_utf8=bytes)`, if it does not raise. -/
def fromUtf8 (bytes : Bytes) : Option (List Char) :=
  if asBytes (lossy bytes) = bytes then some (lossy bytes) else none

namespace System

def note (entry : Entry Callback Stat) (system : System Callback Stat) : System Callback Stat :=
  { system with record := system.record ++ [entry] }

def push (codes : List Code) (system : System Callback Stat) : System Callback Stat :=
  { system with stack := codes ++ system.stack }

/-- The handle of a watcher. -/
def handle (system : System Callback Stat) (watcher : Nat) : Option Nat :=
  (system.watchers[watcher]?).bind WatchState.handle

def isOpen (system : System Callback Stat) (watcher : Nat) : Bool := (system.handle watcher).isSome

/-! ## The bridge -/

def setNative (native : Nat) (value : FsWatcher) (system : System Callback Stat) : System Callback Stat :=
  { system with natives := system.natives.set native value }

/-- `enqueue`, where the memory is there. -/
def enqueue (native : Nat) (value : FsWatcher) (event : FsEvent Stat) (system : System Callback Stat) :
    System Callback Stat :=
  ({ system with events := system.events ++ [event] }.setNative native
    { value with queue := value.queue ++ [system.events.length] }).note (.enqueued native system.events.length)

/-- What happens in `uv_run`. -/
inductive Occurrence (Stat : Type) where
  | changed (native : Nat) (filename : Option Bytes) (rename : Bool) (status : Int) (allocates copies : Bool)
  | statChanged (native : Nat) (status : Int) (previous current : Option Stat) (allocates : Bool)
  | closed (native : Nat)

section
variable [Inhabited Stat]

/-- A callback of the bridge; libuv reports nothing of a handle that is closing. -/
def occur (system : System Callback Stat) : Occurrence Stat → System Callback Stat
  | .changed native filename rename status allocates copies =>
    match system.natives[native]? with
    | none => system
    | some value =>
      if value.closing || value.polling then system
      else if !allocates then system.setNative native { value with queueError := enomem }
      else
        let event : FsEvent Stat := {
          rename, error := if status < 0 then status.natAbs else 0, current := default, previous := default }
        match filename with
        | none => system.enqueue native value event
        | some name =>
          if !copies then system.enqueue native value { event with error := enomem }
          else system.enqueue native value { event with filename := some name }
  | .statChanged native status previous current allocates =>
    match system.natives[native]? with
    | none => system
    | some value =>
      if value.closing || !value.polling then system
      else if !allocates then system.setNative native { value with queueError := enomem }
      else
        system.enqueue native value {
          current := if status = 0 then current.getD default else default, previous := previous.getD default }
  | .closed native =>
    match system.natives[native]? with
    | none => system
    | some value =>
      if !value.closing || value.freed then system
      else
        { system.setNative native { value with queue := [], freed := true } with
          record := system.record ++ value.queue.map .discarded }

end

/-- `tsonic_node_fs_watch_close`. -/
def closeNative (native : Nat) (system : System Callback Stat) : System Callback Stat :=
  match system.natives[native]? with
  | none => system
  | some value =>
    if value.closing then system
    else (system.setNative native { value with closing := true }).note (.closes native)

/-! ## Watchers -/

/-- `FSWatcher.close`. -/
def close (watcher : Nat) (system : System Callback Stat) : System Callback Stat :=
  match system.watchers[watcher]? with
  | none => system
  | some state =>
    match state.handle with
    | none => system
    | some native =>
      closeNative native { system with
        watchers := system.watchers.set watcher { state with handle := none, change := none, stat := none } }

/-- `FSWatcher.ref` and `FSWatcher.unref`. -/
def setReferenced (watcher : Nat) (referenced : Bool) (system : System Callback Stat) : System Callback Stat :=
  match system.handle watcher with
  | none => system
  | some native =>
    match system.natives[native]? with
    | none => system
    | some value => system.setNative native { value with referenced }

/-- What `tsonic_node_fs_watch_new` comes to; a handle that does not start is closed at once. -/
inductive NewAnswer where
  | failed
  | unstarted
  | started

/-- The check of `_watch`. -/
def checkedInterval : Option Number → Bool
  | none => true
  | some interval =>
    match interval.between 1 4294967295 with
    | none => false
    | some value => (truncate value : ℚ) = value

/-- `_watch`, where it returns or raises; the kind of watching is that of the listeners. -/
def watch (path : Bytes) (interval : Option Number) (persistent : Bool) (change stat : Option Callback)
    (answer : NewAnswer) (system : System Callback Stat) : System Callback Stat :=
  if (0 : UInt8) ∈ path || !checkedInterval interval then system
  else
    let polling := stat.isSome
    let native := system.natives.length
    match answer with
    | .failed => system
    | .unstarted =>
      { system with natives := system.natives ++ [({ polling, closing := true } : FsWatcher)] }.note (.closes native)
    | .started =>
      let state : WatchState Callback := ⟨some native, path, change, stat⟩
      { system with
        natives := system.natives ++ [({ polling, referenced := persistent } : FsWatcher)],
        watchers := system.watchers ++ [state],
        registry := system.registry ++ [system.watchers.length] }.note (.opened state)

/-- `unwatch_file`. -/
def unwatchFile (same : Callback → Callback → Bool) (path : Bytes) (listener : Option Callback)
    (system : System Callback Stat) : System Callback Stat :=
  system.registry.foldl (fun system watcher =>
    match system.watchers[watcher]? with
    | none => system
    | some state =>
      match state.stat with
      | none => system
      | some callback =>
        if state.path == path && listener.all (same callback) then system.close watcher else system) system

/-! ## Polling -/

/-- The events that an error frees on its way to the code outside, and what it leaves of the stack. -/
def unwind : List Code → List Nat × List Code
  | [] => ([], [])
  | .outside :: stack => ([], .outside :: stack)
  | .poll _ _ :: stack => unwind stack
  | .release event :: stack => (event :: (unwind stack).1, (unwind stack).2)

def raise (system : System Callback Stat) : System Callback Stat :=
  { system with
    stack := (unwind system.stack).2,
    record := system.record ++ (unwind system.stack).1.map .freed }

def free (event : Nat) (system : System Callback Stat) : System Callback Stat := system.note (.freed event)

/-- The `try` of `poll_watchers` and its `finally`; `again` is the loop that goes on behind it. -/
def handleEvent (watcher native event : Nat) (state : WatchState Callback) (value : FsEvent Stat) (again : Code)
    (system : System Callback Stat) : System Callback Stat :=
  if value.error ≠ 0 then ((system.close watcher).free event).raise
  else
    match state.stat, state.change with
    | some listener, _ =>
      (system.note (.called watcher native event listener (.stats value.current value.previous)
        (system.isOpen watcher))).push [.outside, .release event, again]
    | none, some listener =>
      match value.filename.mapM fromUtf8 with
      | none => (system.free event).raise
      | some filename =>
        (system.note (.called watcher native event listener (.change value.rename filename)
          (system.isOpen watcher))).push [.outside, .release event, again]
    | none, none => (system.free event).push [again]

/-- The next turn of the loops of `poll_watchers`. -/
def turn (system : System Callback Stat) (worked : Bool) : List Nat → System Callback Stat
  | [] => { system with registry := system.registry.filter system.isOpen }
  | watcher :: rest =>
    match system.watchers[watcher]? with
    | none => system.push [.poll rest worked]
    | some state =>
      match state.handle with
      | none => system.push [.poll rest worked]
      | some native =>
        match system.natives[native]? with
        | none => system.push [.poll rest worked]
        | some value =>
          if value.queueError ≠ 0 then ((system.setNative native { value with queueError := 0 }).close watcher).raise
          else
            match value.queue with
            | [] => system.push [.poll rest worked]
            | event :: queue =>
              let system := (system.setNative native { value with queue }).note (.took native event)
              match system.events[event]? with
              | none => system
              | some value => system.handleEvent watcher native event state value (.poll (watcher :: rest) true)

/-! ## Steps -/

/-- What outside code does, and the next piece of a poll. -/
inductive Action (Callback Stat : Type) where
  | watch (path : Bytes) (interval : Option Number) (persistent : Bool) (listener : Option Callback)
    (answer : NewAnswer)
  | watchFile (path : Bytes) (interval : Option Number) (persistent : Bool) (listener : Callback)
    (answer : NewAnswer)
  | unwatchFile (path : Bytes) (listener : Option Callback)
  | close (watcher : Nat)
  | setReferenced (watcher : Nat) (referenced : Bool)
  /-- `poll_watchers`, and what happens in its `uv_run`. -/
  | poll (occurrences : List (Occurrence Stat))
  /-- The listener that is running returns. -/
  | return
  /-- It raises. -/
  | raise
  | go

section
variable [Inhabited Stat] (same : Callback → Callback → Bool)

def act (system : System Callback Stat) : Action Callback Stat → System Callback Stat
  | .watch path interval persistent listener answer => system.watch path interval persistent listener none answer
  | .watchFile path interval persistent listener answer =>
    system.watch path interval persistent none (some listener) answer
  | .unwatchFile path listener => system.unwatchFile same path listener
  | .close watcher => system.close watcher
  | .setReferenced watcher referenced => system.setReferenced watcher referenced
  | .poll occurrences =>
    let system := occurrences.foldl occur system
    system.push [.poll system.registry false]
  | .return => { system with stack := system.stack.tail }
  | .raise => { system with stack := system.stack.tail }.raise
  | .go => system

/-- Code outside runs where it is on top of the stack, or nothing is. -/
def step (system : System Callback Stat) (action : Action Callback Stat) : System Callback Stat :=
  match system.stack with
  | [] => system.act same action
  | .outside :: _ => system.act same action
  | .poll rest worked :: stack =>
    match action with
    | .go => { system with stack }.turn worked rest
    | _ => system
  | .release event :: stack =>
    match action with
    | .go => { system with stack }.free event
    | _ => system

end

end System

end TsonicNode.Filesystem.Watch
