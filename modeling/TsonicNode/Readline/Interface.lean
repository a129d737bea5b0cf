import TsonicNode.Buffer.Encoder
import TsonicNode.Internal.TypedListeners
import TsonicNode.Lib.Number
import TsonicNode.Readline.Lines
import TsonicNode.Stream.ReadBuffer

/-!
# Readline interfaces

An `Interface` and the code that uses it. Listeners and callbacks may call it
again, so what its functions have left to do is a stack of `Code`, on which
`outside` stands for code of others that is running: a callback, or a call of
the input or the output, where listeners of theirs may run. Outside code does
any `Action`; `go` does the next piece of the interface's own. The last fields of
a `System` say what has happened, for the statements.
-/

namespace TsonicNode.Readline

open TsonicNode.Lib TsonicNode.Internal
open TsonicNode.Stream (StreamChunk StreamDecoder)
open TsonicNode.Buffer.Encoder (asBytes)
open TsonicNode.Lib.Lines (Bytes)

/-! ## States -/

inductive Event where
  | lines
  | errors
  | pause
  | resume
  | close
  deriving DecidableEq

structure InterfaceEvents (Callback : Type) where
  lines : Listeners Callback := {}
  errors : Listeners Callback := {}
  pause : Listeners Callback := {}
  resume : Listeners Callback := {}
  close : Listeners Callback := {}

section
variable {Callback : Type}

def InterfaceEvents.of (events : InterfaceEvents Callback) : Event → Listeners Callback
  | .lines => events.lines
  | .errors => events.errors
  | .pause => events.pause
  | .resume => events.resume
  | .close => events.close

def InterfaceEvents.put (events : InterfaceEvents Callback) (listeners : Listeners Callback) :
    Event → InterfaceEvents Callback
  | .lines => { events with lines := listeners }
  | .errors => { events with errors := listeners }
  | .pause => { events with pause := listeners }
  | .resume => { events with resume := listeners }
  | .close => { events with close := listeners }

end

/-- The events of the input that an interface listens to. -/
inductive InputEvent where
  | end_
  | close
  | error
  | data
  deriving DecidableEq

/-- `_InterfaceState`; of the output only whether there is one. -/
structure Interface (Callback : Type) where
  output : Bool
  prompt : Bytes
  query : Bytes := []
  lines : LineBuffer := {}
  decoder : StreamDecoder := ⟨.utf8, []⟩
  callback : Option Callback := none
  terminal : Bool
  paused : Bool := false
  closed : Bool := false
  dispatching : Bool := false
  history : List Bytes := []
  historySize : Nat
  uniqueHistory : Bool
  inputData : Bool := false
  inputEnd : Bool := false
  inputClose : Bool := false
  inputError : Bool := false
  events : InterfaceEvents Callback := {}

structure ReadLineOptions where
  output : Bool := false
  terminal : Option Bool := none
  prompt : Option Bytes := none
  historySize : Option Number := none
  removeHistoryDuplicates : Option Bool := none

/-- `checked_integer(options.historySize.value(), 1048576, "historySize")`. -/
def ReadLineOptions.checkedHistorySize (options : ReadLineOptions) : Except Error Nat :=
  match options.historySize with
  | none => .ok 30
  | some size =>
    match size.between 0 1048576 with
    | none => .error ⟨"Invalid historySize"⟩
    | some value =>
      if (truncate value : ℚ) ≠ value then .error ⟨"historySize must be an integer"⟩
      else .ok (truncate value).toNat

/-- What is given to a listener. -/
inductive Arguments where
  | line (text : Bytes)
  | error (error : TsError)
  | nothing

/-- What is left to do of the functions in progress. -/
inductive Code (Callback : Type) where
  | outside
  /-- `_output`. -/
  | output (text : Bytes)
  | outputPrompt
  /-- `question` behind its first output. -/
  | ask (query : Bytes) (callback : Callback)
  | pause
  /-- `pause` behind `input.pause()`. -/
  | paused
  | resume
  /-- `resume` behind `input.resume()`. -/
  | resumed
  | close
  /-- `close` behind its `pause`; `emitted` are the `close` events there were when it began. -/
  | closing (emitted : Nat)
  | feed (text : Bytes)
  | finish
  | dispatch
  /-- The loop of `_dispatch`. -/
  | loop
  | poll
  /-- `_poll` behind its `_dispatch`. -/
  | polled
  /-- The loop of an `emit`. -/
  | emit (event : Event) (arguments : Arguments) (rest : List (Listener Callback))

/-- Who gets a line. -/
inductive Receiver (Callback : Type) where
  | question (callback : Callback)
  | listeners
  deriving DecidableEq

/-- What has happened. -/
inductive Entry (Callback : Type) where
  /-- A line is taken, with the question and the flags of that moment. -/
  | delivered (line : InputLine) (pending : Option Callback) (receiver : Receiver Callback) (paused closed : Bool)
  | called (event : Event) (callback : Callback) (closed : Bool)
  | asked (callback : Callback) (closed : Bool)
  /-- `close` emits, and whether another one has emitted since it began. -/
  | closes (overtaken : Bool)
  | wrote (text : Bytes)
  deriving DecidableEq

/-- `close` emits. -/
def Entry.ends {Callback : Type} : Entry Callback → Bool
  | .closes _ => true
  | _ => false

structure System (Callback : Type) where
  interface : Interface Callback
  stack : List (Code Callback) := []
  /-- What the input still has of the interface's callbacks. -/
  subscriptions : List InputEvent := []
  record : List (Entry Callback) := []
  /-- The lines that have ended, and what stands behind the last one. -/
  completed : List Bytes := []
  rest : Bytes := []
  /-- The texts that were fed and when, and whether a feed has raised. -/
  feeds : List (Bytes × Int) := []
  refused : Bool := false

variable {Callback : Type}

/-! ## Functions that call nothing outside -/

namespace Interface

/-- The loop of `_history`. -/
def retain (size : Nat) (unique : Bool) (text : Bytes) (retained : List Bytes) : List Bytes → List Bytes
  | [] => retained
  | previous :: history =>
    if retained.length = size then retained
    else if !unique || previous != text then retain size unique text (retained ++ [previous]) history
    else retain size unique text retained history

/-- `_history`. -/
def remember (interface : Interface Callback) (text : Bytes) : Interface Callback :=
  if !interface.terminal || interface.historySize = 0 || text.length = 0 then interface
  else if interface.history.head? = some text then interface
  else
    { interface with
      history := retain interface.historySize interface.uniqueHistory text [text] interface.history }

end Interface

namespace System

/-- `_subscribe`. -/
def subscribe (system : System Callback) : System Callback :=
  { system with
    subscriptions := [.end_, .close, .error, .data],
    interface := { system.interface with
      inputEnd := true, inputClose := true, inputError := true, inputData := true } }

/-- An interface that was created. -/
def new (options : ReadLineOptions) : Except Error (System Callback) := do
  let historySize ← options.checkedHistorySize
  let interface : Interface Callback := {
    output := options.output,
    prompt := options.prompt.getD [62, 32],
    terminal := options.terminal.getD false,
    historySize,
    uniqueHistory := options.removeHistoryDuplicates.getD false }
  return subscribe { interface }

/-- The input forgets a callback that the interface holds. -/
def forget (held : Bool) (event : InputEvent) (subscriptions : List InputEvent) : List InputEvent :=
  if held then subscriptions.erase event else subscriptions

/-- `_unsubscribe`. -/
def unsubscribe (system : System Callback) : System Callback :=
  let interface := system.interface
  { system with
    subscriptions := forget interface.inputError .error (forget interface.inputClose .close
      (forget interface.inputEnd .end_ (forget interface.inputData .data system.subscriptions))),
    interface := { interface with inputData := false, inputEnd := false, inputClose := false, inputError := false } }

/-- What an error leaves of the functions in progress, up to the code outside that called them. -/
def unwind (interface : Interface Callback) : List (Code Callback) → Interface Callback × List (Code Callback)
  | [] => (interface, [])
  | .outside :: stack => (interface, .outside :: stack)
  | .loop :: stack => unwind { interface with dispatching := false } stack
  | _ :: stack => unwind interface stack

def raise (system : System Callback) : System Callback :=
  let (interface, stack) := unwind system.interface system.stack
  { system with interface, stack }

def note (entry : Entry Callback) (system : System Callback) : System Callback :=
  { system with record := system.record ++ [entry] }

/-- In front of what is left to do. -/
def push (codes : List (Code Callback)) (system : System Callback) : System Callback :=
  { system with stack := codes ++ system.stack }

def begins (event : Event) (arguments : Arguments) (system : System Callback) : System Callback :=
  system.push [.emit event arguments (system.interface.events.of event).entries]

/-- The loop of an `emit` calls the next listener, if there is one. -/
def emit (event : Event) (arguments : Arguments) (rest : List (Listener Callback)) (system : System Callback) :
    System Callback :=
  match (system.interface.events.of event).nextCallback rest with
  | (listeners, next) =>
    let system := { system with interface.events := system.interface.events.put listeners event }
    match next with
    | none => system
    | some (listener, rest) =>
      (system.note (.called event listener.callback system.interface.closed)).push
        [.outside, .emit event arguments rest]

/-- The whole text that was fed. -/
def fed (system : System Callback) : Bytes := system.feeds.flatMap Prod.fst

/-- `LineBuffer.feed`, with what it appends. -/
def feed (text : Bytes) (now : Int) (system : System Callback) : System Callback :=
  let outcome := LineBuffer.feed text now system.interface.lines
  let lines := finalState outcome
  let system := { system with
    interface.lines := lines,
    completed := system.completed ++ lines.complete.drop system.interface.lines.complete.length,
    rest := if system.interface.lines.finished then system.rest else lines.current,
    feeds := system.feeds ++ [(text, now)],
    refused := system.refused || !returned outcome }
  if returned outcome then system else system.raise

/-- The loop of `_dispatch` gives the next line to the question or the listeners. -/
def loop (system : System Callback) : System Callback :=
  let interface := system.interface
  if interface.paused || interface.closed then { system with interface.dispatching := false }
  else
    match LineBuffer.take interface.lines with
    | .error _ lines => ({ system with interface.lines := lines }.push [.loop]).raise
    | .ok none lines => { system with interface.lines := lines, interface.dispatching := false }
    | .ok (some line) lines =>
      let interface := { interface with lines }.remember line.text
      match line.terminated, interface.callback with
      | true, some callback =>
        let system := { system with interface := { interface with callback := none } }
        ((system.note (.delivered line (some callback) (.question callback) interface.paused interface.closed)).note
          (.asked callback interface.closed)).push [.outside, .loop]
      | _, pending =>
        let system := { system with interface }
        ((system.note (.delivered line pending .listeners interface.paused interface.closed)).push [.loop]).begins
          .lines (.line line.text)

/-- `close` behind its `pause`. -/
def closing (emitted : Nat) (system : System Callback) : System Callback :=
  let overtaken := emitted < system.record.countP Entry.ends
  let system := { system with
    interface := { system.interface with
      closed := true, callback := none, lines := finalState (LineBuffer.clear system.interface.lines) } }
  (system.unsubscribe.note (.closes overtaken)).begins .close .nothing

/-! ## Steps -/

/-- The next piece of the functions in progress. -/
def perform (now : Int) (system : System Callback) : Code Callback → System Callback
  | .outside => system.push [.outside]
  | .output text => if system.interface.output then (system.note (.wrote text)).push [.outside] else system
  | .outputPrompt => system.push [.output system.interface.prompt]
  | .ask query callback =>
    { system with interface := { system.interface with query, callback := some callback } }.push [.resume]
  | .pause => if system.interface.paused then system else system.push [.outside, .paused]
  | .paused => { system with interface.paused := true }.begins .pause .nothing
  | .resume => if !system.interface.paused then system else system.push [.outside, .resumed]
  | .resumed => { system with interface.paused := false }.begins .resume .nothing
  | .close =>
    if system.interface.closed then system
    else system.push [.pause, .closing (system.record.countP Entry.ends)]
  | .closing emitted => system.closing emitted
  | .feed text => system.feed text now
  | .finish => { system with interface.lines := finalState (LineBuffer.finish system.interface.lines) }
  | .dispatch =>
    if system.interface.dispatching || system.interface.paused || system.interface.closed then system
    else { system with interface.dispatching := true }.push [.loop]
  | .loop => system.loop
  | .poll =>
    if system.interface.closed || system.interface.paused || system.interface.dispatching then system
    else system.push [.dispatch, .polled]
  | .polled => if system.interface.lines.finished then system.push [.close] else system
  | .emit event arguments rest => system.emit event arguments rest

/-- What outside code does, and the next piece of the interface's own. -/
inductive Action (Callback : Type) where
  | question (query : Bytes) (callback : Callback)
  | write (text : Bytes)
  | prompt
  | setPrompt (value : Bytes)
  | pause
  | resume
  | close
  | on (event : Event) (callback : Callback) (once : Bool)
  | off (event : Event) (callback : Callback)
  | data (value : StreamChunk)
  | inputEnd
  | inputClose
  | inputError (error : TsError)
  | poll
  /-- The code outside that is running returns. -/
  | return
  /-- It raises. -/
  | raise
  | go (now : Int)

section
variable (unpaired : List UInt16 → Error) (same : Callback → Callback → Bool)

/-- What an action does, where code outside is running. -/
def act (system : System Callback) : Action Callback → System Callback
  | .question query callback =>
    if system.interface.closed then system
    else if system.interface.callback.isSome then system.push [.output system.interface.query, .resume]
    else system.push [.output query, .ask query callback]
  | .write text => if system.interface.closed then system else system.push [.resume, .feed text, .dispatch]
  | .prompt => if system.interface.closed then system else system.push [.resume, .outputPrompt]
  | .setPrompt value => { system with interface.prompt := value }
  | .pause => system.push [.pause]
  | .resume => system.push [.resume]
  | .close => system.push [.close]
  | .on event callback once =>
    match (system.interface.events.of event).add callback once with
    | .ok listeners => { system with interface.events := system.interface.events.put listeners event }
    | .error _ => system
  | .off event callback =>
    { system with
      interface.events := system.interface.events.put ((system.interface.events.of event).remove same callback) event }
  | .data value =>
    if .data ∉ system.subscriptions || system.interface.closed then system
    else
      match value with
      | .text text => system.push [.feed (asBytes text), .dispatch]
      | .buffer bytes =>
        match StreamDecoder.write unpaired bytes system.interface.decoder with
        | .error _ decoder => { system with interface.decoder := decoder }
        | .ok text decoder => { system with interface.decoder := decoder }.push [.feed (asBytes text), .dispatch]
  | .inputEnd =>
    if .end_ ∉ system.subscriptions then system
    else
      let system := { system with subscriptions := system.subscriptions.erase .end_ }
      if system.interface.closed then system
      else
        match StreamDecoder.end_ unpaired system.interface.decoder with
        | .error _ decoder => { system with interface.decoder := decoder }
        | .ok text decoder =>
          { system with interface.decoder := decoder }.push [.feed (asBytes text), .finish, .poll]
  | .inputClose =>
    if .close ∉ system.subscriptions then system
    else
      let system := { system with subscriptions := system.subscriptions.erase .close }
      if system.interface.lines.finished then system else system.push [.close]
  | .inputError error =>
    if .error ∉ system.subscriptions || system.interface.closed then system
    else if (system.interface.events.of .errors).entries.isEmpty then system
    else system.begins .errors (.error error)
  | .poll => system.push [.poll]
  | .return => { system with stack := system.stack.tail }
  | .raise => { system with stack := system.stack.tail }.raise
  | .go _ => system

/-- Code outside runs where it is on top of the stack, or nothing is. -/
def step (system : System Callback) (action : Action Callback) : System Callback :=
  match system.stack with
  | [] => system.act unpaired same action
  | .outside :: _ => system.act unpaired same action
  | code :: stack =>
    match action with
    | .go now => { system with stack }.perform now code
    | _ => system

/-! ## What a step is -/

/-- Code outside acts, or the interface goes on, or nothing happens. -/
theorem step_cases (system : System Callback) (action : Action Callback) :
    ((system.stack = [] ∨ ∃ stack, system.stack = .outside :: stack) ∧
        system.step unpaired same action = system.act unpaired same action) ∨
      (∃ now code stack, system.stack = code :: stack ∧ code ≠ .outside ∧
        system.step unpaired same action = { system with stack }.perform now code) ∨
      system.step unpaired same action = system := by
  unfold step
  split
  · rename_i hstack
    exact .inl ⟨.inl hstack, rfl⟩
  · rename_i stack hstack
    exact .inl ⟨.inr ⟨stack, hstack⟩, rfl⟩
  · rename_i code stack hcode hstack
    split
    · rename_i now
      exact .inr (.inl ⟨now, code, stack, hstack, hcode, rfl⟩)
    · exact .inr (.inr rfl)

/-- An error ends loops of `_dispatch`, and changes nothing else. -/
theorem unwind_cases (interface : Interface Callback) (stack : List (Code Callback)) :
    ∃ dispatching, (unwind interface stack).1 = { interface with dispatching } ∧
      (unwind interface stack).2 <:+ stack := by
  induction stack generalizing interface with
  | nil => exact ⟨interface.dispatching, rfl, List.suffix_refl _⟩
  | cons code stack ih =>
    have hother : ∀ interface : Interface Callback, unwind interface (code :: stack) = unwind interface stack →
        ∃ dispatching, (unwind interface (code :: stack)).1 = { interface with dispatching } ∧
          (unwind interface (code :: stack)).2 <:+ code :: stack := by
      intro interface hunwind
      obtain ⟨dispatching, hinterface, hstack⟩ := ih interface
      rw [hunwind]
      exact ⟨dispatching, hinterface, hstack.trans (List.suffix_cons _ _)⟩
    cases code with
    | outside => exact ⟨interface.dispatching, rfl, List.suffix_refl _⟩
    | loop =>
      obtain ⟨dispatching, hinterface, hstack⟩ := ih { interface with dispatching := false }
      exact ⟨dispatching, hinterface, hstack.trans (List.suffix_cons _ _)⟩
    | _ => exact hother interface rfl

theorem raise_cases (system : System Callback) :
    ∃ dispatching stack, stack <:+ system.stack ∧
      system.raise = { system with interface := { system.interface with dispatching }, stack } := by
  obtain ⟨dispatching, hinterface, hstack⟩ := unwind_cases system.interface system.stack
  refine ⟨dispatching, _, hstack, ?_⟩
  unfold raise
  rw [← hinterface]

theorem remember_cases (interface : Interface Callback) (text : Bytes) :
    ∃ history, interface.remember text = { interface with history } := by
  unfold Interface.remember
  split
  · exact ⟨interface.history, rfl⟩
  · split
    · exact ⟨interface.history, rfl⟩
    · exact ⟨_, rfl⟩

end

end System

end TsonicNode.Readline
