import TsonicNode.Net.Transport

/-!
# Active sockets

The sockets of a program and the list of those that are active. `poll_sockets`
goes through a snapshot of the list and calls `progress` for each; where an
event is emitted (`Point.listener`), and between the polls, the program does
with any socket what it likes. `progress` is taken from one check or event to
the next by `Stage`. A socket that was destroyed and connects again has a new
state: its `generation` tells the connections of a socket apart, and `events`
are those of one connection. `Orderly` is the invariant of one connection,
`Sound` of all sockets.
-/

namespace TsonicNode.Net.Active

open TsonicNode.Lib

/-- Where `progress` stands. -/
inductive Stage where
  | connecting
  /-- Behind the attempt to connect: is there a connection to look after? -/
  | entering
  | flushing
  /-- What has arrived is read, or looked for. -/
  | receiving
  /-- At the head of the loop that reads, with the bytes it has read. -/
  | reading (received : Nat)
  | ending
  | flushingAgain
  | draining
  | finishing
  | closing
  | timing
  | reporting
  | reportingClose
  deriving DecidableEq

/-- The answers of one stage. -/
structure Answer where
  connection : ConnectAnswer := .pending
  sends : Sends := ⟨[], none⟩
  read : ReadAnswer := .blocked
  ready : Ready := .blocked
  readableListened : Bool := false
  elapsed : Bool := false
  errorListened : Bool := true

/-- What a stage does and which comes next, if any. -/
def Stage.run (answer : Answer) (s : SocketState) : Stage → Outcome × Option Stage
  | .connecting => (Net.connecting answer.connection s, some .entering)
  | .entering => ({ socket := s }, some (if ¬ s.destroyed ∧ s.connected then .flushing else .reporting))
  | .flushing => (Net.flushing answer.sends s, some .receiving)
  | .receiving =>
    if ¬ s.destroyed ∧ ¬ s.readEnded ∧ ¬ s.paused then
      if s.flowing then ({ socket := s }, some (.reading 0))
      else (Net.peeking answer.ready answer.readableListened s, some .ending)
    else ({ socket := s }, some .ending)
  | .reading received =>
    if received < 65536 ∧ ¬ s.destroyed ∧ ¬ s.paused then
      match (Net.read answer.read s).2 with
      | none => (Net.receiving answer.read s, some .ending)
      | some chunk => (Net.receiving answer.read s, some (.reading (received + chunk.length)))
    else ({ socket := s }, some .ending)
  | .ending => (Net.ending s, some .flushingAgain)
  | .flushingAgain => (Net.flushing answer.sends s, some .draining)
  | .draining => (Net.draining s, some .finishing)
  | .finishing => (Net.finishing s, some .closing)
  | .closing => (Net.closing s, some .timing)
  | .timing => (Net.timing answer.elapsed s, some .reporting)
  | .reporting => (Net.reporting answer.errorListened s, some .reportingClose)
  | .reportingClose => (Net.reportingClose s, none)

/-- The error is raised. -/
def Stage.raises (answer : Answer) (s : SocketState) : Stage → Bool
  | .reporting => s.error.isSome && !answer.errorListened
  | _ => false

/-- The program point of `poll_sockets`; `rest` is what is left of the snapshot. -/
inductive Point where
  | idle
  | visiting (rest : List Nat)
  | progressing (stage : Stage) (socket : Nat) (rest : List Nat)
  /-- Listeners run, in front of a stage or behind the last one. -/
  | emitting (stage : Option Stage) (socket : Nat) (rest : List Nat)
  deriving DecidableEq

/-- The program runs: between the polls, or as a listener. -/
def Point.listener : Point → Bool
  | .idle => true
  | .emitting _ _ _ => true
  | _ => false

/-- In front of a stage, or behind the last one. -/
def Point.at (stage : Option Stage) (socket : Nat) (rest : List Nat) : Point :=
  match stage with
  | some stage => .progressing stage socket rest
  | none => .visiting rest

structure Emission where
  socket : Nat
  generation : Nat
  event : Event
  deriving DecidableEq

/-- The sockets are told by their numbers, below `made`. -/
structure Sockets where
  states : Nat → SocketState := fun _ => { connected := false, allowHalfOpen := false, started := false }
  /-- How often the socket was connected again. -/
  generations : Nat → Nat := fun _ => 0
  made : Nat := 0
  /-- `_sockets`. -/
  list : List Nat := []
  point : Point := .idle
  log : List Emission := []

def unsettled (s : SocketState) : Bool := (s.started && !s.destroyed) || s.closePending || s.error.isSome

def maxSockets : Nat := 1048576

namespace Sockets

def put (sockets : Sockets) (index : Nat) (s : SocketState) : Sockets :=
  { sockets with states := Function.update sockets.states index s }

/-- `_prune_sockets`. -/
def prune (sockets : Sockets) : Sockets :=
  { sockets with list := sockets.list.filter fun index => unsettled (sockets.states index) }

/-- A socket of its own. -/
def create (sockets : Sockets) : Sockets := { sockets with made := sockets.made + 1 }

/-- A socket around an endpoint. -/
def adopt (sockets : Sockets) (connected allowHalfOpen : Bool) : Sockets :=
  let sockets := if maxSockets ≤ sockets.list.length then sockets.prune else sockets
  if maxSockets ≤ sockets.list.length then sockets
  else
    let sockets := sockets.put sockets.made { connected, allowHalfOpen }
    { sockets with list := sockets.list ++ [sockets.made], made := sockets.made + 1 }

/-- `connect_options`, with a timeout that is one; `endpoint` is whether an endpoint can be made. -/
def connect (sockets : Sockets) (index : Nat) (options : ConnectionOptions) (endpoint : Bool) : Sockets :=
  let s := sockets.states index
  if s.started ∧ (¬ s.destroyed ∨ s.closePending ∨ s.error.isSome) then sockets
  else
    let sockets := sockets.prune
    if maxSockets ≤ sockets.list.length then sockets
    else if !endpoint then sockets
    else
      let replaced : SocketState :=
        if s.destroyed then { connected := false, allowHalfOpen := s.allowHalfOpen, noDelay := s.noDelay }
        else { s with endpoint := {} }
      let generation := sockets.generations index + if s.destroyed then 1 else 0
      let connecting :=
        activity
          { replaced with
            started := true
            timeout := options.timeout.getD s.timeout
            allowHalfOpen := options.allowHalfOpen.getD replaced.allowHalfOpen
            noDelay := options.noDelay.or replaced.noDelay }
      { sockets.put index connecting with
        generations := Function.update sockets.generations index generation
        list := sockets.list ++ [index] }

/-- `destroy`. -/
def destroy (sockets : Sockets) (index : Nat) : Sockets :=
  let s := sockets.states index
  if ¬ s.started ∧ ¬ s.destroyed then
    let sockets := sockets.prune
    if maxSockets ≤ sockets.list.length then sockets
    else { sockets.put index (Net.destroy { s with started := true }) with list := sockets.list ++ [index] }
  else sockets.put index (Net.destroy s)

/-- The other calls, which concern the state of the socket alone. -/
def call (sockets : Sockets) (index : Nat) (call : Call) : Sockets :=
  match call with
  | .destroy => sockets.destroy index
  | .connect _ => sockets
  | call => sockets.put index (System.perform { socket := sockets.states index } call).socket

/-- A step of the poll itself. -/
def advance (sockets : Sockets) (answer : Answer) : Sockets :=
  match sockets.point with
  | .visiting [] => { sockets.prune with point := .idle }
  | .visiting (index :: rest) => { sockets with point := .progressing .connecting index rest }
  | .progressing stage index rest =>
    let s := sockets.states index
    let (outcome, next) := stage.run answer s
    let sockets := sockets.put index outcome.socket
    if stage.raises answer s then { sockets with point := .idle }
    else
      match outcome.event with
      | none => { sockets with point := .at next index rest }
      | some event =>
        { sockets with
          log := sockets.log ++ [⟨index, sockets.generations index, event⟩]
          point := .emitting next index rest }
  | _ => sockets

end Sockets

inductive Action where
  | create
  | adopt (connected allowHalfOpen : Bool)
  | connect (socket : Nat) (options : ConnectionOptions) (endpoint : Bool)
  | call (socket : Nat) (call : Call)
  /-- The event loop polls. -/
  | poll
  | advance (answer : Answer)
  /-- The listeners return. -/
  | return
  | raise

/-- The program does nothing while the poll runs. -/
def Sockets.step (sockets : Sockets) (action : Action) : Sockets :=
  match action with
  | .advance answer => sockets.advance answer
  | action =>
    if !sockets.point.listener then sockets
    else
      match action with
      | .create => sockets.create
      | .adopt connected allowHalfOpen => sockets.adopt connected allowHalfOpen
      | .connect index options endpoint =>
        if index < sockets.made then sockets.connect index options endpoint else sockets
      | .call index call => if index < sockets.made then sockets.call index call else sockets
      | .poll => if sockets.point = .idle then { sockets with point := .visiting sockets.list } else sockets
      | .advance _ => sockets
      | .return =>
        match sockets.point with
        | .emitting stage index rest => { sockets with point := .at stage index rest }
        | _ => sockets
      | .raise => { sockets with point := .idle }

/-! ## The events of one connection -/

def events (log : List Emission) (socket generation : Nat) : List Event :=
  log.filterMap fun emission =>
    if emission.socket = socket ∧ emission.generation = generation then some emission.event else none

def Event.isError : Event → Bool
  | .error _ => true
  | _ => false

def Event.isClose : Event → Bool
  | .close _ => true
  | _ => false

/-- Each of these events comes at most once, and nothing comes behind `close`. -/
structure Lifecycle (events : List Event) : Prop where
  connect : events.count .connect ≤ 1
  ended : events.count .ended ≤ 1
  finish : events.count .finish ≤ 1
  error : events.countP Event.isError ≤ 1
  close : events.countP Event.isClose ≤ 1
  last : ∀ past hadError rest, events = past ++ .close hadError :: rest → rest = []

/-- A connection with the events it has emitted: what was emitted and what is still to be emitted is
what has come about. -/
structure Orderly (s : SocketState) (events : List Event) : Prop where
  connect : events.count .connect ≤ s.connected.toNat
  ended : events.count .ended + s.endPending.toNat ≤ s.readEnded.toNat
  finish : events.count .finish + s.finishPending.toNat ≤ s.writeEnded.toNat
  error : events.countP Event.isError + s.error.isSome.toNat ≤ s.hadError.toNat
  close : events.countP Event.isClose + s.closePending.toNat = s.destroyed.toNat
  started : s.destroyed = true ∨ s.connected = true → s.started = true
  had : s.hadError = true → s.destroyed = true
  pending : s.error.isSome = true → s.closePending = true
  last : ∀ past hadError rest, events = past ++ .close hadError :: rest → rest = []

theorem Orderly.lifecycle {s : SocketState} {events : List Event} (h : Orderly s events) : Lifecycle events where
  connect := Nat.le_trans h.connect (Bool.toNat_le _)
  ended := by
    have hended := h.ended
    have hle := Bool.toNat_le s.readEnded
    omega
  finish := by
    have hfinish := h.finish
    have hle := Bool.toNat_le s.writeEnded
    omega
  error := by
    have herror := h.error
    have hle := Bool.toNat_le s.hadError
    omega
  close := by
    have hclose := h.close
    have hle := Bool.toNat_le s.destroyed
    omega
  last := h.last

/-! ## What emits nothing -/

/-- What the calls on a socket and the transport do with its state: the two sides end once, and a
connection that is destroyed stays as it is. -/
structure Quiet (s t : SocketState) : Prop where
  connected : t.connected = s.connected
  started : t.started = s.started
  ended : (t.endPending = s.endPending ∧ t.readEnded = s.readEnded) ∨ (s.readEnded = false ∧ t.readEnded = true)
  finish : (t.finishPending = s.finishPending ∧ t.writeEnded = s.writeEnded) ∨
    (s.writeEnded = false ∧ t.writeEnded = true)
  destroyed : (t.destroyed = s.destroyed ∧ t.closePending = s.closePending ∧ t.error = s.error ∧
      t.hadError = s.hadError) ∨
    (s.destroyed = false ∧ t.destroyed = true ∧ t.closePending = true ∧ (s.started = true ∨ s.connected = true) ∧
      ((t.error = s.error ∧ t.hadError = s.hadError) ∨ t.hadError = true))

theorem Quiet.refl (s : SocketState) : Quiet s s :=
  ⟨rfl, rfl, .inl ⟨rfl, rfl⟩, .inl ⟨rfl, rfl⟩, .inl ⟨rfl, rfl, rfl, rfl⟩⟩

theorem Quiet.trans {a b c : SocketState} (h : Quiet a b) (h' : Quiet b c) : Quiet a c where
  connected := h'.connected.trans h.connected
  started := h'.started.trans h.started
  ended := by
    rcases h.ended with ⟨hpending, hended⟩ | ⟨hbefore, hafter⟩
    · rw [← hpending, ← hended]
      exact h'.ended
    · rcases h'.ended with ⟨-, hended⟩ | ⟨hnot, -⟩
      · exact .inr ⟨hbefore, hended.trans hafter⟩
      · cases hnot.symm.trans hafter
  finish := by
    rcases h.finish with ⟨hpending, hended⟩ | ⟨hbefore, hafter⟩
    · rw [← hpending, ← hended]
      exact h'.finish
    · rcases h'.finish with ⟨-, hended⟩ | ⟨hnot, -⟩
      · exact .inr ⟨hbefore, hended.trans hafter⟩
      · cases hnot.symm.trans hafter
  destroyed := by
    rcases h.destroyed with ⟨hdestroyed, hclose, herror, hhad⟩ | ⟨hbefore, hafter, hclose, hstarted, herror⟩
    · rw [← hdestroyed, ← hclose, ← herror, ← hhad, ← h.connected, ← h.started]
      exact h'.destroyed
    · rcases h'.destroyed with ⟨hdestroyed, hclose', herror', hhad⟩ | ⟨hnot, -⟩
      · refine .inr ⟨hbefore, hdestroyed.trans hafter, hclose'.trans hclose, hstarted, ?_⟩
        rw [herror', hhad]
        exact herror
      · cases hnot.symm.trans hafter

section Transport

variable {s : SocketState}

theorem destroy_quiet (h : s.started = true ∨ s.connected = true) : Quiet s (Net.destroy s) := by
  unfold Net.destroy
  split_ifs with hdestroyed
  · exact .refl s
  · have hnot := Bool.not_eq_true _ ▸ hdestroyed
    exact ⟨rfl, rfl, .inl ⟨rfl, rfl⟩, .inl ⟨rfl, rfl⟩, .inr ⟨hnot, rfl, rfl, h, .inl ⟨rfl, rfl⟩⟩⟩

/-- An error comes to a connection that is not destroyed. -/
theorem fail_quiet (error : String) (hnot : s.destroyed = false) (h : s.started = true ∨ s.connected = true) :
    Quiet s (fail error s) := by
  have hopen : fail error s = _ := if_neg (show ¬ s.destroyed = true by rw [hnot]; decide)
  rw [hopen]
  exact ⟨rfl, rfl, .inl ⟨rfl, rfl⟩, .inl ⟨rfl, rfl⟩, .inr ⟨hnot, rfl, rfl, h, .inr rfl⟩⟩

theorem fail_destroyed (error : String) (s : SocketState) : (fail error s).destroyed = true := by
  unfold fail Net.destroy
  dsimp only
  split_ifs with hdestroyed
  · exact hdestroyed
  · rfl

theorem read_quiet (answer : ReadAnswer) (s : SocketState) : Quiet s (Net.read answer s).1 := by
  unfold Net.read
  split_ifs with hclosed
  · exact .refl s
  · obtain ⟨hdestroyed, hconnected, hended⟩ := not_or.mp hclosed |>.imp_right not_or.mp
    cases answer with
    | blocked => exact .refl s
    | failed error => exact fail_quiet error (Bool.not_eq_true _ ▸ hdestroyed) (.inr (not_not.mp hconnected))
    | received bytes =>
      dsimp only
      split_ifs
      · exact ⟨rfl, rfl, .inr ⟨Bool.not_eq_true _ ▸ hended, rfl⟩, .inl ⟨rfl, rfl⟩, .inl ⟨rfl, rfl, rfl, rfl⟩⟩
      · exact ⟨rfl, rfl, .inl ⟨rfl, rfl⟩, .inl ⟨rfl, rfl⟩, .inl ⟨rfl, rfl, rfl, rfl⟩⟩

theorem advance_quiet (chunk : WriteChunk) (count : Nat) (s : SocketState) :
    Quiet s (Net.advance chunk count s) ∧ (Net.advance chunk count s).destroyed = s.destroyed := by
  unfold Net.advance
  dsimp only
  split_ifs
  · exact ⟨⟨rfl, rfl, .inl ⟨rfl, rfl⟩, .inl ⟨rfl, rfl⟩, .inl ⟨rfl, rfl, rfl, rfl⟩⟩, rfl⟩
  · exact ⟨⟨rfl, rfl, .inl ⟨rfl, rfl⟩, .inl ⟨rfl, rfl⟩, .inl ⟨rfl, rfl, rfl, rfl⟩⟩, rfl⟩

/-- As long as the loop does not return, the connection is not destroyed. -/
theorem sendLoop_quiet (answers : List SendAnswer) (budget : Nat) (progressed : Bool) {s : SocketState}
    (hnot : s.destroyed = false) (hconnected : s.connected = true) :
    Quiet s (sendLoop answers budget progressed s).state ∧
      ((sendLoop answers budget progressed s).returned = false →
        (sendLoop answers budget progressed s).state.destroyed = false) := by
  induction answers generalizing budget progressed s with
  | nil =>
    unfold sendLoop
    split_ifs
    · split
      · exact ⟨.refl s, nofun⟩
      · exact ⟨⟨rfl, rfl, .inl ⟨rfl, rfl⟩, .inl ⟨rfl, rfl⟩, .inl ⟨rfl, rfl, rfl, rfl⟩⟩, nofun⟩
    · exact ⟨.refl s, fun _ => hnot⟩
  | cons answer answers ih =>
    unfold sendLoop
    split_ifs
    · split
      · rename_i chunk _
        cases answer with
        | blocked => exact ⟨.refl s, nofun⟩
        | failed error => exact ⟨fail_quiet error hnot (.inr hconnected), nofun⟩
        | accepted count =>
          dsimp only
          split_ifs
          · exact ⟨fail_quiet _ hnot (.inr hconnected), nofun⟩
          · obtain ⟨hquiet, hsame⟩ := advance_quiet chunk
              (min count (min budget (chunk.bytes.length - chunk.offset))) s
            obtain ⟨hrest, hopen⟩ := ih (budget - min count (min budget (chunk.bytes.length - chunk.offset))) true
              (hsame.trans hnot) (hquiet.connected.trans hconnected)
            exact ⟨hquiet.trans hrest, hopen⟩
      · exact ⟨⟨rfl, rfl, .inl ⟨rfl, rfl⟩, .inl ⟨rfl, rfl⟩, .inl ⟨rfl, rfl, rfl, rfl⟩⟩, nofun⟩
    · exact ⟨.refl s, fun _ => hnot⟩

theorem compact_quiet (s : SocketState) : Quiet s (compact s) ∧ (compact s).destroyed = s.destroyed := by
  unfold compact
  dsimp only
  split_ifs
  · exact ⟨⟨rfl, rfl, .inl ⟨rfl, rfl⟩, .inl ⟨rfl, rfl⟩, .inl ⟨rfl, rfl, rfl, rfl⟩⟩, rfl⟩
  · exact ⟨⟨rfl, rfl, .inl ⟨rfl, rfl⟩, .inl ⟨rfl, rfl⟩, .inl ⟨rfl, rfl, rfl, rfl⟩⟩, rfl⟩
  · exact ⟨.refl s, rfl⟩

theorem finishWrites_quiet (shutdownError : Option String) (progressed : Bool) (hnot : s.destroyed = false)
    (hconnected : s.connected = true) : Quiet s (finishWrites shutdownError progressed s).1 := by
  unfold finishWrites
  split_ifs with hending
  · cases shutdownError with
    | some error => exact fail_quiet error hnot (.inr hconnected)
    | none =>
      exact ⟨rfl, rfl, .inl ⟨rfl, rfl⟩, .inr ⟨Bool.not_eq_true _ ▸ hending.2.1, rfl⟩, .inl ⟨rfl, rfl, rfl, rfl⟩⟩
  · exact .refl s

theorem flush_quiet (sends : Sends) (s : SocketState) : Quiet s (flush sends s).1 := by
  unfold flush
  split_ifs with hclosed
  · exact .refl s
  · obtain ⟨hdestroyed, hconnected⟩ := not_or.mp hclosed
    obtain ⟨hquiet, hopen⟩ := sendLoop_quiet sends.answers 65536 false (Bool.not_eq_true _ ▸ hdestroyed)
      (not_not.mp hconnected)
    dsimp only
    split_ifs with hreturned
    · exact hquiet
    · obtain ⟨hcompact, hsame⟩ := compact_quiet (sendLoop sends.answers 65536 false s).state
      have hsofar := hquiet.trans hcompact
      refine hsofar.trans (finishWrites_quiet _ _ ?_ (hsofar.connected.trans (not_not.mp hconnected)))
      exact hsame.trans (hopen (Bool.not_eq_true _ ▸ hreturned))

theorem push_quiet (value : List UInt8) (s : SocketState) : Quiet s (push value s) := by
  unfold push
  split_ifs
  · exact ⟨rfl, rfl, .inl ⟨rfl, rfl⟩, .inl ⟨rfl, rfl⟩, .inl ⟨rfl, rfl, rfl, rfl⟩⟩
  · exact .refl s

theorem write_quiet (value : List UInt8) (sends : Sends) (s : SocketState) :
    Quiet s (System.write value sends { socket := s }).socket := by
  unfold System.write enqueue
  dsimp only
  split_ifs with hended hlimit hall
  · exact .refl s
  · exact .refl s
  · exact (push_quiet value s).trans (flush_quiet sends _)
  · refine ((push_quiet value s).trans (flush_quiet sends _)).trans ?_
    exact ⟨rfl, rfl, .inl ⟨rfl, rfl⟩, .inl ⟨rfl, rfl⟩, .inl ⟨rfl, rfl, rfl, rfl⟩⟩

theorem end_quiet (sends : Sends) (s : SocketState) : Quiet s (System.end_ sends { socket := s }).socket := by
  unfold System.end_ Net.end_
  dsimp only
  split_ifs
  · exact .refl s
  · refine Quiet.trans ?_ (flush_quiet sends { s with writeEnding := true })
    exact ⟨rfl, rfl, .inl ⟨rfl, rfl⟩, .inl ⟨rfl, rfl⟩, .inl ⟨rfl, rfl, rfl, rfl⟩⟩

/-- A call that neither destroys nor connects. -/
theorem perform_quiet (s : SocketState) {call : Call} (hdestroy : call ≠ .destroy) (hconnect : ∀ options, call ≠ .connect options) :
    Quiet s (System.perform { socket := s } call).socket := by
  cases call with
  | write value sends => exact write_quiet value sends s
  | end_ sends => exact end_quiet sends s
  | destroy => exact absurd rfl hdestroy
  | read answer => exact read_quiet answer s
  | setTimeout timeout =>
    unfold System.perform
    dsimp only
    split_ifs
    · exact .refl s
    · exact ⟨rfl, rfl, .inl ⟨rfl, rfl⟩, .inl ⟨rfl, rfl⟩, .inl ⟨rfl, rfl, rfl, rfl⟩⟩
  | connect options => exact absurd rfl (hconnect options)
  | _ => exact ⟨rfl, rfl, .inl ⟨rfl, rfl⟩, .inl ⟨rfl, rfl⟩, .inl ⟨rfl, rfl, rfl, rfl⟩⟩

end Transport

/-! ## One stage -/

section Stages

variable {s t : SocketState} {past : List Event}

theorem Orderly.quiet (h : Orderly s past) (hquiet : Quiet s t) : Orderly t past := by
  have hconnect := h.connect
  have hended := h.ended
  have hfinish := h.finish
  have herror := h.error
  have hclose := h.close
  refine ⟨?_, ?_, ?_, ?_, ?_, ?_, ?_, ?_, h.last⟩
  · rw [hquiet.connected]
    exact hconnect
  · rcases hquiet.ended with ⟨hpending, hread⟩ | ⟨hbefore, hafter⟩
    · rw [hpending, hread]
      exact hended
    · rw [hbefore, Bool.toNat_false] at hended
      have hle := Bool.toNat_le t.endPending
      rw [hafter, Bool.toNat_true]
      omega
  · rcases hquiet.finish with ⟨hpending, hwritten⟩ | ⟨hbefore, hafter⟩
    · rw [hpending, hwritten]
      exact hfinish
    · rw [hbefore, Bool.toNat_false] at hfinish
      have hle := Bool.toNat_le t.finishPending
      rw [hafter, Bool.toNat_true]
      omega
  · rcases hquiet.destroyed with ⟨-, -, herror', hhad⟩ | ⟨hbefore, -, -, -, ⟨herror', hhad⟩ | hhad⟩
    · rw [herror', hhad]
      exact herror
    · rw [herror', hhad]
      exact herror
    · have hnone : s.hadError = false := Bool.eq_false_iff.mpr fun hhad => by
        cases hbefore.symm.trans (h.had hhad)
      rw [hnone, Bool.toNat_false] at herror
      have hle := Bool.toNat_le t.error.isSome
      rw [hhad, Bool.toNat_true]
      omega
  · rcases hquiet.destroyed with ⟨hdestroyed, hpending, -, -⟩ | ⟨hbefore, hafter, hpending, -, -⟩
    · rw [hdestroyed, hpending]
      exact hclose
    · rw [hbefore, Bool.toNat_false] at hclose
      rw [hafter, hpending, Bool.toNat_true]
      omega
  · rw [hquiet.started, hquiet.connected]
    rintro (hdestroyed | hconnected)
    · rcases hquiet.destroyed with ⟨hsame, -, -, -⟩ | ⟨-, -, -, hstarted | hconnected, -⟩
      · exact h.started (.inl (hsame.symm.trans hdestroyed))
      · exact hstarted
      · exact h.started (.inr hconnected)
    · exact h.started (.inr hconnected)
  · intro hhad
    rcases hquiet.destroyed with ⟨hdestroyed, -, -, hsame⟩ | ⟨-, hafter, -, -, -⟩
    · exact hdestroyed.trans (h.had (hsame.symm.trans hhad))
    · exact hafter
  · intro hsome
    rcases hquiet.destroyed with ⟨-, hpending, hsame, -⟩ | ⟨-, -, hpending, -, -⟩
    · exact hpending.trans (h.pending (hsame ▸ hsome))
    · exact hpending

/-- Without a `close` so far the next event may be one. -/
theorem last_concat (hopen : past.countP Event.isClose = 0) (event : Event) (before : List Event) (hadError : Bool)
    (rest : List Event) (heq : past ++ [event] = before ++ .close hadError :: rest) : rest = [] := by
  rcases List.eq_nil_or_concat rest with rfl | ⟨rest, last, rfl⟩
  · rfl
  · rw [List.concat_eq_append, ← List.cons_append, ← List.append_assoc] at heq
    obtain ⟨rfl, -⟩ := List.append_inj' heq rfl
    rw [List.countP_append, List.countP_cons_of_pos rfl] at hopen
    omega

theorem Orderly.open (h : Orderly s past) (hnot : s.destroyed = false) : past.countP Event.isClose = 0 := by
  have hclose := h.close
  rw [hnot, Bool.toNat_false] at hclose
  omega

theorem count_concat (past : List Event) (event other : Event) :
    (past ++ [event]).count other = past.count other + if event = other then 1 else 0 := by
  simp only [List.count_append, List.count_singleton, beq_iff_eq]

theorem countP_concat (past : List Event) (event : Event) (p : Event → Bool) :
    (past ++ [event]).countP p = past.countP p + if p event = true then 1 else 0 := by
  rw [List.countP_append, List.countP_singleton]

/-- The event is counted, and the state says that it came. -/
theorem Orderly.emits (event : Event) (hopen : past.countP Event.isClose = 0)
    (hconnect : (past.count .connect + if event = .connect then 1 else 0) ≤ t.connected.toNat)
    (hended : (past.count .ended + if event = .ended then 1 else 0) + t.endPending.toNat ≤ t.readEnded.toNat)
    (hfinish : (past.count .finish + if event = .finish then 1 else 0) + t.finishPending.toNat ≤ t.writeEnded.toNat)
    (herror : (past.countP Event.isError + if Event.isError event = true then 1 else 0) + t.error.isSome.toNat ≤
      t.hadError.toNat)
    (hclose : (past.countP Event.isClose + if Event.isClose event = true then 1 else 0) + t.closePending.toNat =
      t.destroyed.toNat)
    (hstarted : t.destroyed = true ∨ t.connected = true → t.started = true)
    (hhad : t.hadError = true → t.destroyed = true) (hpending : t.error.isSome = true → t.closePending = true) :
    Orderly t (past ++ [event]) := by
  refine ⟨?_, ?_, ?_, ?_, ?_, hstarted, hhad, hpending, last_concat hopen event⟩
  · rw [count_concat]
    exact hconnect
  · rw [count_concat]
    exact hended
  · rw [count_concat]
    exact hfinish
  · rw [countP_concat]
    exact herror
  · rw [countP_concat]
    exact hclose

theorem Orderly.connects (h : Orderly s past) (answer : ConnectAnswer) :
    Orderly (Net.connecting answer s).socket (past ++ (Net.connecting answer s).event.toList) := by
  unfold Net.connecting
  split_ifs with hguard
  · obtain ⟨hstarted, hopen, hconnected⟩ := hguard
    have hopen := Bool.not_eq_true _ ▸ hopen
    have hnone := h.connect
    rw [Bool.eq_false_iff.mpr hconnected, Bool.toNat_false] at hnone
    cases answer with
    | pending => exact (List.append_nil past).symm ▸ h
    | failed error => exact (List.append_nil past).symm ▸ h.quiet (fail_quiet error hopen (.inl hstarted))
    | connected noDelayError =>
      have hnow : Orderly (activity { s with connected := true }) past :=
        ⟨Nat.le_trans hnone (Nat.zero_le _), h.ended, h.finish, h.error, h.close, fun _ => hstarted, h.had, h.pending,
          h.last⟩
      have hemit : Orderly (activity { s with connected := true }) (past ++ [.connect]) :=
        .emits .connect (h.open hopen) (Nat.succ_le_succ hnone) h.ended h.finish h.error h.close hnow.started h.had
          h.pending
      dsimp only
      split
      · rename_i error _
        rw [fail_destroyed, if_pos rfl]
        exact (List.append_nil past).symm ▸ hnow.quiet (fail_quiet error hopen (.inl hstarted))
      · rw [if_neg (show ¬ (activity { s with connected := true }).destroyed = true from hopen ▸ Bool.false_ne_true)]
        exact hemit
  · exact (List.append_nil past).symm ▸ h

theorem Orderly.peeks (h : Orderly s past) (hstarted : s.started = true) (hopen : s.destroyed = false)
    (hread : s.readEnded = false) (answer : Ready) (listened : Bool) :
    Orderly (Net.peeking answer listened s).socket (past ++ (Net.peeking answer listened s).event.toList) := by
  unfold Net.peeking
  cases answer with
  | blocked => exact (List.append_nil past).symm ▸ h
  | failed error => exact (List.append_nil past).symm ▸ h.quiet (fail_quiet error hopen (.inl hstarted))
  | ended =>
    refine (List.append_nil past).symm ▸ h.quiet ?_
    exact ⟨rfl, rfl, .inr ⟨hread, rfl⟩, .inl ⟨rfl, rfl⟩, .inl ⟨rfl, rfl, rfl, rfl⟩⟩
  | ready =>
    dsimp only
    split_ifs
    · have hquiet : Quiet s { s with readableNotified := true } :=
        ⟨rfl, rfl, .inl ⟨rfl, rfl⟩, .inl ⟨rfl, rfl⟩, .inl ⟨rfl, rfl, rfl, rfl⟩⟩
      have hnow := h.quiet hquiet
      exact .emits .readable (h.open hopen) hnow.connect hnow.ended hnow.finish hnow.error hnow.close hnow.started
        hnow.had hnow.pending
    · exact (List.append_nil past).symm ▸ h

theorem Orderly.ends (h : Orderly s past) :
    Orderly (Net.ending s).socket (past ++ (Net.ending s).event.toList) := by
  unfold Net.ending
  split_ifs with hguard
  · obtain ⟨hpending, hopen⟩ := hguard
    have hended := h.ended
    have hle := Bool.toNat_le s.readEnded
    rw [hpending, Bool.toNat_true] at hended
    exact .emits .ended (h.open (Bool.not_eq_true _ ▸ hopen)) h.connect hended h.finish h.error h.close h.started h.had
      h.pending
  · exact (List.append_nil past).symm ▸ h

theorem Orderly.drains (h : Orderly s past) :
    Orderly (Net.draining s).socket (past ++ (Net.draining s).event.toList) := by
  unfold Net.draining
  split_ifs with hguard
  · have hquiet : Quiet s { s with needDrain := false } :=
      ⟨rfl, rfl, .inl ⟨rfl, rfl⟩, .inl ⟨rfl, rfl⟩, .inl ⟨rfl, rfl, rfl, rfl⟩⟩
    have hnow := h.quiet hquiet
    exact .emits .drain (h.open (Bool.not_eq_true _ ▸ hguard.2.2)) hnow.connect hnow.ended hnow.finish hnow.error
      hnow.close hnow.started hnow.had hnow.pending
  · exact (List.append_nil past).symm ▸ h

theorem Orderly.finishes (h : Orderly s past) :
    Orderly (Net.finishing s).socket (past ++ (Net.finishing s).event.toList) := by
  unfold Net.finishing
  split_ifs with hguard
  · obtain ⟨hpending, hopen⟩ := hguard
    have hfinish := h.finish
    rw [hpending, Bool.toNat_true] at hfinish
    exact .emits .finish (h.open (Bool.not_eq_true _ ▸ hopen)) h.connect h.ended hfinish h.error h.close h.started h.had
      h.pending
  · exact (List.append_nil past).symm ▸ h

theorem Orderly.times (h : Orderly s past) (elapsed : Bool) :
    Orderly (Net.timing elapsed s).socket (past ++ (Net.timing elapsed s).event.toList) := by
  unfold Net.timing
  split_ifs with hguard
  · have hquiet : Quiet s { s with timeoutArmed := false } :=
      ⟨rfl, rfl, .inl ⟨rfl, rfl⟩, .inl ⟨rfl, rfl⟩, .inl ⟨rfl, rfl, rfl, rfl⟩⟩
    have hnow := h.quiet hquiet
    exact .emits .timeout (h.open (Bool.not_eq_true _ ▸ hguard.1)) hnow.connect hnow.ended hnow.finish hnow.error
      hnow.close hnow.started hnow.had hnow.pending
  · exact (List.append_nil past).symm ▸ h

theorem Orderly.reports (h : Orderly s past) (listened : Bool) :
    Orderly (Net.reporting listened s).socket (past ++ (Net.reporting listened s).event.toList) ∧
      (Net.reporting listened s).socket.error = none := by
  unfold Net.reporting
  split
  · exact ⟨(List.append_nil past).symm ▸ h, ‹_›⟩
  · rename_i error hsome
    have hpending := h.pending (by rw [hsome]; rfl)
    have herror := h.error
    rw [hsome, Option.isSome_some, Bool.toNat_true] at herror
    refine ⟨?_, rfl⟩
    cases listened with
    | false =>
      rw [if_neg Bool.false_ne_true]
      refine (List.append_nil past).symm ▸ ⟨h.connect, h.ended, h.finish, ?_, h.close, h.started, h.had, nofun, h.last⟩
      exact Nat.le_trans (Nat.le_succ _) herror
    | true =>
      have hclose := h.close
      have hle := Bool.toNat_le s.destroyed
      rw [hpending, Bool.toNat_true] at hclose
      rw [if_pos rfl]
      exact .emits (.error error) (by omega) h.connect h.ended h.finish herror h.close h.started h.had nofun

theorem Orderly.closes (h : Orderly s past) (hnone : s.error = none) :
    Orderly (Net.reportingClose s).socket (past ++ (Net.reportingClose s).event.toList) := by
  unfold Net.reportingClose
  split_ifs with hpending
  · have hclose := h.close
    have hle := Bool.toNat_le s.destroyed
    rw [hpending, Bool.toNat_true] at hclose
    refine .emits (.close s.hadError) (by omega) h.connect h.ended h.finish h.error hclose h.started h.had fun hsome => ?_
    rw [hnone] at hsome
    cases hsome
  · exact (List.append_nil past).symm ▸ h

/-- Every stage keeps the connection orderly; the close is reported behind the error. -/
theorem Orderly.stage (h : Orderly s past) (hstarted : s.started = true) (answer : Answer) {stage : Stage}
    (hreported : stage = .reportingClose → s.error = none) :
    Orderly (stage.run answer s).1.socket (past ++ (stage.run answer s).1.event.toList) := by
  cases stage with
  | connecting => exact h.connects answer.connection
  | entering => exact (List.append_nil past).symm ▸ h
  | flushing => exact (List.append_nil past).symm ▸ h.quiet (flush_quiet answer.sends s)
  | receiving =>
    unfold Stage.run
    dsimp only
    split_ifs with hguard
    · exact (List.append_nil past).symm ▸ h
    · exact h.peeks hstarted (Bool.not_eq_true _ ▸ hguard.1) (Bool.not_eq_true _ ▸ hguard.2.1) _ _
    · exact (List.append_nil past).symm ▸ h
  | reading received =>
    unfold Stage.run
    dsimp only
    split_ifs with hguard
    · have hread := h.quiet (read_quiet answer.read s)
      cases hchunk : (Net.read answer.read s).2 with
      | none =>
        dsimp only [Net.receiving]
        rw [hchunk]
        exact (List.append_nil past).symm ▸ hread
      | some chunk =>
        dsimp only [Net.receiving]
        rw [hchunk]
        exact .emits (.data chunk) (h.open (Bool.not_eq_true _ ▸ hguard.2.1)) hread.connect hread.ended hread.finish
          hread.error hread.close hread.started hread.had hread.pending
    · exact (List.append_nil past).symm ▸ h
  | ending => exact h.ends
  | flushingAgain => exact (List.append_nil past).symm ▸ h.quiet (flush_quiet answer.sends s)
  | draining => exact h.drains
  | finishing => exact h.finishes
  | closing =>
    change Orderly (Net.closing s).socket (past ++ (Net.closing s).event.toList)
    unfold Net.closing
    split_ifs
    · exact (List.append_nil past).symm ▸ h.quiet (destroy_quiet (.inl hstarted))
    · exact (List.append_nil past).symm ▸ h
  | timing => exact h.times answer.elapsed
  | reporting => exact (h.reports answer.errorListened).1
  | reportingClose => exact h.closes (hreported rfl)

/-- Nothing but the reports concerns a connection that is destroyed. -/
theorem run_destroyed (hdestroyed : s.destroyed = true) (answer : Answer) {stage : Stage} (hreport : stage ≠ .reporting)
    (hclose : stage ≠ .reportingClose) : (stage.run answer s).1.socket = s ∧ (stage.run answer s).1.event = none := by
  cases stage with
  | connecting =>
    change (Net.connecting answer.connection s).socket = s ∧ (Net.connecting answer.connection s).event = none
    unfold Net.connecting
    rw [if_neg fun hguard => hguard.2.1 hdestroyed]
    exact ⟨rfl, rfl⟩
  | entering => exact ⟨rfl, rfl⟩
  | flushing =>
    refine ⟨?_, rfl⟩
    change (flush answer.sends s).1 = s
    rw [flush, if_pos (.inl hdestroyed)]
  | receiving =>
    unfold Stage.run
    dsimp only
    rw [if_neg fun hguard => hguard.1 hdestroyed]
    exact ⟨rfl, rfl⟩
  | reading received =>
    unfold Stage.run
    dsimp only
    rw [if_neg fun hguard => hguard.2.1 hdestroyed]
    exact ⟨rfl, rfl⟩
  | ending =>
    change (Net.ending s).socket = s ∧ (Net.ending s).event = none
    unfold Net.ending
    rw [if_neg fun hguard => hguard.2 hdestroyed]
    exact ⟨rfl, rfl⟩
  | flushingAgain =>
    refine ⟨?_, rfl⟩
    change (flush answer.sends s).1 = s
    rw [flush, if_pos (.inl hdestroyed)]
  | draining =>
    change (Net.draining s).socket = s ∧ (Net.draining s).event = none
    unfold Net.draining
    rw [if_neg fun hguard => hguard.2.2 hdestroyed]
    exact ⟨rfl, rfl⟩
  | finishing =>
    change (Net.finishing s).socket = s ∧ (Net.finishing s).event = none
    unfold Net.finishing
    rw [if_neg fun hguard => hguard.2 hdestroyed]
    exact ⟨rfl, rfl⟩
  | closing =>
    change (Net.closing s).socket = s ∧ (Net.closing s).event = none
    unfold Net.closing
    split_ifs
    · exact ⟨if_pos hdestroyed, rfl⟩
    · exact ⟨rfl, rfl⟩
  | timing =>
    change (Net.timing answer.elapsed s).socket = s ∧ (Net.timing answer.elapsed s).event = none
    unfold Net.timing
    rw [if_neg fun hguard => hguard.1 hdestroyed]
    exact ⟨rfl, rfl⟩
  | reporting => exact absurd rfl hreport
  | reportingClose => exact absurd rfl hclose

theorem connecting_started (answer : ConnectAnswer) (s : SocketState) :
    (Net.connecting answer s).socket.started = s.started := by
  unfold Net.connecting
  split_ifs with hguard
  · cases answer with
    | pending => rfl
    | failed error => exact (fail_quiet error (Bool.not_eq_true _ ▸ hguard.2.1) (.inl hguard.1)).started
    | connected noDelayError =>
      dsimp only
      split
      · have hopen : (activity { s with connected := true }).destroyed = false := Bool.not_eq_true _ ▸ hguard.2.1
        exact (fail_quiet _ hopen (.inl hguard.1)).started
      · rfl
  · rfl

theorem run_started (hstarted : s.started = true) (answer : Answer) (stage : Stage) :
    (stage.run answer s).1.socket.started = true := by
  refine Eq.trans ?_ hstarted
  cases stage with
  | connecting => exact connecting_started answer.connection s
  | entering => rfl
  | flushing => exact (flush_quiet answer.sends s).started
  | receiving =>
    unfold Stage.run
    dsimp only
    split_ifs with hguard
    · rfl
    · unfold Net.peeking
      cases answer.ready with
      | blocked => rfl
      | failed error => exact (fail_quiet error (Bool.not_eq_true _ ▸ hguard.1) (.inl hstarted)).started
      | ended => rfl
      | ready =>
        dsimp only
        split_ifs <;> rfl
    · rfl
  | reading received =>
    unfold Stage.run
    dsimp only
    split_ifs
    · have hread := (read_quiet answer.read s).started
      cases hchunk : (Net.read answer.read s).2 with
      | none => exact hread
      | some chunk => exact hread
    · rfl
  | ending =>
    change (Net.ending s).socket.started = s.started
    unfold Net.ending
    split_ifs <;> rfl
  | flushingAgain => exact (flush_quiet answer.sends s).started
  | draining =>
    change (Net.draining s).socket.started = s.started
    unfold Net.draining
    split_ifs <;> rfl
  | finishing =>
    change (Net.finishing s).socket.started = s.started
    unfold Net.finishing
    split_ifs <;> rfl
  | closing =>
    change (Net.closing s).socket.started = s.started
    unfold Net.closing
    split_ifs
    · exact (destroy_quiet (.inl hstarted)).started
    · rfl
  | timing =>
    change (Net.timing answer.elapsed s).socket.started = s.started
    unfold Net.timing
    split_ifs <;> rfl
  | reporting =>
    change (Net.reporting answer.errorListened s).socket.started = s.started
    unfold Net.reporting
    split <;> rfl
  | reportingClose =>
    change (Net.reportingClose s).socket.started = s.started
    unfold Net.reportingClose
    split_ifs <;> rfl

/-- The last stage is the report of the close. -/
theorem run_next (answer : Answer) (s : SocketState) {stage : Stage} (hclose : stage ≠ .reportingClose) :
    ∃ next, (stage.run answer s).2 = some next := by
  cases stage with
  | receiving =>
    unfold Stage.run
    dsimp only
    split_ifs <;> exact ⟨_, rfl⟩
  | reading received =>
    unfold Stage.run
    dsimp only
    split_ifs
    · split <;> exact ⟨_, rfl⟩
    · exact ⟨_, rfl⟩
  | reportingClose => exact absurd rfl hclose
  | _ => exact ⟨_, rfl⟩

/-- It comes behind the report of the error only. -/
theorem run_reportingClose {answer : Answer} {stage : Stage} (h : (stage.run answer s).2 = some .reportingClose) :
    stage = .reporting := by
  cases stage with
  | entering =>
    unfold Stage.run at h
    dsimp only at h
    split_ifs at h <;> cases h
  | receiving =>
    unfold Stage.run at h
    dsimp only at h
    split_ifs at h <;> cases h
  | reading received =>
    unfold Stage.run at h
    dsimp only at h
    split_ifs at h
    · split at h <;> cases h
    · cases h
  | reporting => rfl
  | _ => cases h

/-- A stage settles a connection, or leaves it settled. -/
theorem run_unsettled (hstarted : s.started = true) (answer : Answer) (stage : Stage)
    (hunsettled : unsettled (stage.run answer s).1.socket = true) : unsettled s = true := by
  cases hdestroyed : s.destroyed with
  | false =>
    unfold unsettled
    rw [hstarted, hdestroyed]
    rfl
  | true =>
    by_cases hreport : stage = .reporting
    · subst hreport
      change unsettled (Net.reporting answer.errorListened s).socket = true at hunsettled
      unfold Net.reporting at hunsettled
      split at hunsettled
      · exact hunsettled
      · rename_i error hsome
        unfold unsettled
        rw [hsome, Option.isSome_some, Bool.or_true]
    by_cases hclose : stage = .reportingClose
    · subst hclose
      change unsettled (Net.reportingClose s).socket = true at hunsettled
      unfold Net.reportingClose at hunsettled
      split_ifs at hunsettled with hpending
      · unfold unsettled
        rw [hpending, Bool.or_true, Bool.true_or]
      · exact hunsettled
    rw [(run_destroyed hdestroyed answer hreport hclose).1] at hunsettled
    exact hunsettled

theorem raises_silent {answer : Answer} {stage : Stage} (h : stage.raises answer s = true) :
    (stage.run answer s).1.event = none := by
  cases stage with
  | reporting =>
    change (s.error.isSome && !answer.errorListened) = true at h
    obtain ⟨-, hlistened⟩ := (Bool.and_eq_true _ _).mp h
    change (Net.reporting answer.errorListened s).event = none
    unfold Net.reporting
    split
    · rfl
    · rw [if_neg fun hnow => by rw [hnow] at hlistened; cases hlistened]
  | _ => cases h

end Stages

/-! ## All sockets -/

theorem events_concat (log : List Emission) (emission : Emission) (socket generation : Nat) :
    events (log ++ [emission]) socket generation =
      events log socket generation ++
        if emission.socket = socket ∧ emission.generation = generation then [emission.event] else [] := by
  unfold events
  rw [List.filterMap_append, List.filterMap_cons]
  split_ifs <;> rfl

def idle : SocketState := { connected := false, allowHalfOpen := false, started := false }

/-- The sockets that the poll has in hand or has yet to come to. -/
def Point.sockets : Point → List Nat
  | .idle => []
  | .visiting rest => rest
  | .progressing _ socket rest => socket :: rest
  | .emitting _ socket rest => socket :: rest

/-- In front of the report of the close there is no error to report. -/
def Point.Reported (states : Nat → SocketState) : Point → Prop
  | .progressing .reportingClose socket _ => (states socket).error = none
  | .emitting (some .reportingClose) socket _ =>
    (states socket).closePending = true ∧ (states socket).error = none
  | _ => True

structure Sound (sockets : Sockets) : Prop where
  orderly : ∀ index, Orderly (sockets.states index) (events sockets.log index (sockets.generations index))
  past : ∀ index, ∀ generation < sockets.generations index, Lifecycle (events sockets.log index generation) ∧
    (events sockets.log index generation).countP Event.isClose = 1
  future : ∀ index generation, sockets.generations index < generation → events sockets.log index generation = []
  fresh : ∀ index, sockets.made ≤ index → sockets.states index = idle ∧
    events sockets.log index (sockets.generations index) = []
  nodup : sockets.list.Nodup
  listed : ∀ index, unsettled (sockets.states index) = true → index ∈ sockets.list
  known : ∀ index ∈ sockets.list, index < sockets.made ∧ (sockets.states index).started = true
  pointed : ∀ index ∈ sockets.point.sockets, index < sockets.made ∧ (sockets.states index).started = true
  reported : sockets.point.Reported sockets.states

section Steps

variable {sockets : Sockets} {index : Nat} {t : SocketState}

theorem Quiet.unsettled {s : SocketState} (hquiet : Quiet s t) {past : List Event} (h : Orderly s past)
    (hunsettled : Active.unsettled t = true) : Active.unsettled s = true := by
  unfold Active.unsettled at hunsettled ⊢
  rcases hquiet.destroyed with ⟨hdestroyed, hpending, herror, -⟩ | ⟨hopen, -, -, hstarted, -⟩
  · rw [hquiet.started, hdestroyed, hpending, herror] at hunsettled
    exact hunsettled
  · rw [hopen, hstarted.elim id fun hconnected => h.started (.inr hconnected)]
    rfl

/-- A report that is due stays due. -/
theorem Quiet.reported {s : SocketState} (hquiet : Quiet s t) {past : List Event} (h : Orderly s past)
    (hdue : s.closePending = true) : t.closePending = true ∧ t.error = s.error := by
  rcases hquiet.destroyed with ⟨-, hpending, herror, -⟩ | ⟨hopen, -⟩
  · exact ⟨hpending.trans hdue, herror⟩
  · have hclose := h.close
    rw [hdue, hopen, Bool.toNat_true, Bool.toNat_false] at hclose
    omega

theorem put_state (sockets : Sockets) (index : Nat) (t : SocketState) (other : Nat) :
    (sockets.put index t).states other = if other = index then t else sockets.states other := by
  unfold Sockets.put
  exact Function.update_apply ..

/-- What the program does with a connection that is to be reported leaves the report alone. -/
theorem Point.Reported.keeps {states states' : Nat → SocketState} {point : Point} (h : point.Reported states)
    (hlistener : point.listener = true)
    (hkeeps : ∀ index, (states index).closePending = true →
      (states' index).closePending = true ∧ (states' index).error = (states index).error) : point.Reported states' := by
  cases point with
  | idle => trivial
  | visiting rest => trivial
  | progressing stage socket rest => cases hlistener
  | emitting stage socket rest =>
    rcases stage with _ | stage
    · trivial
    cases stage with
    | reportingClose =>
      obtain ⟨hpending, herror⟩ := hkeeps socket h.1
      exact ⟨hpending, herror.trans h.2⟩
    | _ => trivial

/-- A call of the program that begins no connection. -/
theorem Sound.calls (h : Sound sockets) (hlt : index < sockets.made) (hlistener : sockets.point.listener = true)
    (hquiet : Quiet (sockets.states index) t) : Sound (sockets.put index t) := by
  have hstarted : ∀ other, ((sockets.put index t).states other).started = (sockets.states other).started := by
    intro other
    rw [put_state]
    split_ifs with hsame
    · exact hquiet.started.trans (hsame ▸ rfl)
    · rfl
  refine ⟨?_, h.past, h.future, ?_, h.nodup, ?_, ?_, ?_, ?_⟩
  · intro other
    rw [put_state]
    split_ifs with hsame
    · rw [hsame]
      exact (h.orderly index).quiet hquiet
    · exact h.orderly other
  · intro other hle
    rw [put_state, if_neg (Nat.ne_of_gt (Nat.lt_of_lt_of_le hlt hle))]
    exact h.fresh other hle
  · intro other
    rw [put_state]
    split_ifs with hsame
    · rw [hsame]
      exact fun hunsettled => h.listed index (hquiet.unsettled (h.orderly index) hunsettled)
    · exact h.listed other
  · intro other
    rw [hstarted]
    exact h.known other
  · intro other
    rw [hstarted]
    exact h.pointed other
  · refine h.reported.keeps hlistener fun other hdue => ?_
    rw [put_state]
    split_ifs with hsame
    · subst hsame
      exact hquiet.reported (h.orderly other) hdue
    · exact ⟨hdue, rfl⟩

theorem Sound.prunes (h : Sound sockets) : Sound sockets.prune :=
  ⟨h.orderly, h.past, h.future, h.fresh, h.nodup.filter _,
    fun index hunsettled => List.mem_filter.mpr ⟨h.listed index hunsettled, hunsettled⟩,
    fun index hmem => h.known index (List.mem_filter.mp hmem).1, h.pointed, h.reported⟩

/-- The point moves to one with no other sockets. -/
theorem Sound.moves (h : Sound sockets) {point : Point}
    (hpointed : ∀ index ∈ point.sockets, index < sockets.made ∧ (sockets.states index).started = true)
    (hreported : point.Reported sockets.states) : Sound { sockets with point } :=
  ⟨h.orderly, h.past, h.future, h.fresh, h.nodup, h.listed, h.known, hpointed, hreported⟩

theorem Sound.idles (h : Sound sockets) : Sound { sockets with point := .idle } :=
  h.moves (fun _ hmem => absurd hmem List.not_mem_nil) trivial

theorem Sound.creates (h : Sound sockets) : Sound sockets.create :=
  ⟨h.orderly, h.past, h.future, fun index hle => h.fresh index (Nat.le_of_succ_le hle), h.nodup, h.listed,
    fun index hmem => (h.known index hmem).imp_left Nat.lt_succ_of_lt,
    fun index hmem => (h.pointed index hmem).imp_left Nat.lt_succ_of_lt, h.reported⟩

/-- A connection begins, on a socket that has none. -/
theorem Sound.begins (h : Sound sockets) (hlt : index < sockets.made) (hlistener : sockets.point.listener = true)
    (hsettled : unsettled (sockets.states index) = false) (hnew : index ∉ sockets.list) (hstarted : t.started = true)
    {generation : Nat} (horderly : Orderly t (events sockets.log index generation))
    (hgeneration : generation = sockets.generations index ∨
      generation = sockets.generations index + 1 ∧ (sockets.states index).destroyed = true) :
    Sound { sockets.put index t with
      generations := Function.update sockets.generations index generation
      list := sockets.list ++ [index] } := by
  have hle : sockets.generations index ≤ generation := by omega
  have hstill : ∀ other, (sockets.states other).started = true → ((sockets.put index t).states other).started = true := by
    intro other hother
    rw [put_state]
    split_ifs
    · exact hstarted
    · exact hother
  refine ⟨?_, ?_, ?_, ?_, ?_, ?_, ?_, ?_, ?_⟩
  · intro other
    change Orderly ((sockets.put index t).states other) (events sockets.log other (Function.update sockets.generations index generation other))
    rw [put_state, Function.update_apply]
    split_ifs with hsame
    · rw [hsame]
      exact horderly
    · exact h.orderly other
  · intro other generation' hlt'
    change generation' < Function.update sockets.generations index generation other at hlt'
    rw [Function.update_apply] at hlt'
    split_ifs at hlt' with hsame
    · subst hsame
      by_cases hbefore : generation' < sockets.generations other
      · exact h.past other generation' hbefore
      · obtain rfl : generation' = sockets.generations other := by omega
        obtain hdestroyed : (sockets.states other).destroyed = true := by
          rcases hgeneration with hsame | ⟨-, hdestroyed⟩
          · omega
          · exact hdestroyed
        have hclose := (h.orderly other).close
        unfold unsettled at hsettled
        rw [(Bool.or_eq_false_iff.mp (Bool.or_eq_false_iff.mp hsettled).1).2, hdestroyed] at hclose
        exact ⟨(h.orderly other).lifecycle, hclose⟩
    · exact h.past other generation' hlt'
  · intro other generation' hlt'
    change Function.update sockets.generations index generation other < generation' at hlt'
    rw [Function.update_apply] at hlt'
    split_ifs at hlt' with hsame
    · subst hsame
      exact h.future other generation' (Nat.lt_of_le_of_lt hle hlt')
    · exact h.future other generation' hlt'
  · intro other hle'
    have hne : other ≠ index := Nat.ne_of_gt (Nat.lt_of_lt_of_le hlt hle')
    change (sockets.put index t).states other = idle ∧ events sockets.log other (Function.update sockets.generations index generation other) = []
    rw [put_state, Function.update_apply, if_neg hne, if_neg hne]
    exact h.fresh other hle'
  · exact (List.perm_append_singleton index sockets.list).nodup_iff.mpr (List.nodup_cons.mpr ⟨hnew, h.nodup⟩)
  · intro other hunsettled
    change unsettled ((sockets.put index t).states other) = true at hunsettled
    rw [put_state] at hunsettled
    split_ifs at hunsettled with hsame
    · exact List.mem_append_right _ (List.mem_singleton.mpr hsame)
    · exact List.mem_append_left _ (h.listed other hunsettled)
  · intro other hmem
    rcases List.mem_append.mp hmem with hmem | hmem
    · exact (h.known other hmem).imp_right (hstill other)
    · obtain rfl := List.mem_singleton.mp hmem
      refine ⟨hlt, ?_⟩
      change ((sockets.put other t).states other).started = true
      rw [put_state, if_pos rfl]
      exact hstarted
  · intro other hmem
    exact (h.pointed other hmem).imp_right (hstill other)
  · refine h.reported.keeps hlistener fun other hdue => ?_
    change ((sockets.put index t).states other).closePending = true ∧ ((sockets.put index t).states other).error = _
    rw [put_state, if_neg]
    · exact ⟨hdue, rfl⟩
    · rintro rfl
      unfold unsettled at hsettled
      cases hdue.symm.trans (Bool.or_eq_false_iff.mp (Bool.or_eq_false_iff.mp hsettled).1).2

theorem not_mem_prune (hsettled : unsettled (sockets.states index) = false) : index ∉ sockets.prune.list := by
  intro hmem
  cases hsettled.symm.trans (List.mem_filter.mp hmem).2

theorem orderly_new (connected allowHalfOpen : Bool) : Orderly { connected, allowHalfOpen } [] where
  connect := Nat.zero_le _
  ended := Nat.le_refl _
  finish := Nat.le_refl _
  error := Nat.le_refl _
  close := rfl
  started _ := rfl
  had := nofun
  pending := nofun
  last past _ _ heq := absurd heq.symm (List.append_ne_nil_of_right_ne_nil past (List.cons_ne_nil _ _))

theorem orderly_idle : Orderly idle [] where
  connect := Nat.zero_le _
  ended := Nat.le_refl _
  finish := Nat.le_refl _
  error := Nat.le_refl _
  close := rfl
  started hused := hused.elim nofun nofun
  had := nofun
  pending := nofun
  last past _ _ heq := absurd heq.symm (List.append_ne_nil_of_right_ne_nil past (List.cons_ne_nil _ _))

theorem Sound.adopts (h : Sound sockets) (hlistener : sockets.point.listener = true) (connected allowHalfOpen : Bool) :
    Sound (sockets.adopt connected allowHalfOpen) := by
  have hadopt : ∀ {sockets : Sockets}, Sound sockets → sockets.point.listener = true → Sound
      { sockets.put sockets.made { connected, allowHalfOpen } with
        list := sockets.list ++ [sockets.made], made := sockets.made + 1 } := by
    intro sockets h hlistener
    obtain ⟨hidle, hnone⟩ := h.fresh sockets.made (Nat.le_refl _)
    have hbegins := @Sound.begins sockets.create sockets.made { connected, allowHalfOpen } h.creates
      (Nat.lt_succ_self _) hlistener (congrArg unsettled hidle)
      (fun hmem => Nat.lt_irrefl _ (h.known _ hmem).1) rfl (sockets.generations sockets.made)
      (hnone.symm ▸ orderly_new connected allowHalfOpen) (.inl rfl)
    rw [show sockets.create.generations = sockets.generations from rfl, Function.update_eq_self] at hbegins
    exact hbegins
  unfold Sockets.adopt
  dsimp only
  split_ifs
  · exact h.prunes
  · exact hadopt h.prunes hlistener
  · exact hadopt h hlistener

theorem Orderly.pending_destroyed {s : SocketState} {past : List Event} (h : Orderly s past)
    (hpending : s.closePending = true) : s.destroyed = true := by
  have hclose := h.close
  rw [hpending, Bool.toNat_true] at hclose
  cases hdestroyed : s.destroyed with
  | true => rfl
  | false =>
    rw [hdestroyed, Bool.toNat_false] at hclose
    omega

/-- A socket that never connected has nothing to settle. -/
theorem Orderly.settled {s : SocketState} {past : List Event} (h : Orderly s past) (hstarted : s.started = false) :
    unsettled s = false := by
  have hpending : s.closePending = false := Bool.eq_false_iff.mpr fun hpending => by
    cases hstarted.symm.trans (h.started (.inl (h.pending_destroyed hpending)))
  have herror : s.error.isSome = false := Bool.eq_false_iff.mpr fun hsome => by
    cases hpending.symm.trans (h.pending hsome)
  unfold unsettled
  rw [hstarted, hpending, herror]
  rfl

/-- What `connect` asks for. -/
theorem Orderly.free {s : SocketState} {past : List Event} (h : Orderly s past)
    (hfree : ¬ (s.started = true ∧ (¬ s.destroyed = true ∨ s.closePending = true ∨ s.error.isSome = true))) :
    unsettled s = false := by
  rcases not_and_or.mp hfree with hstarted | hopen
  · exact h.settled (Bool.eq_false_iff.mpr hstarted)
  · obtain ⟨hdestroyed, hdone⟩ := not_or.mp hopen
    obtain ⟨hpending, herror⟩ := not_or.mp hdone
    unfold unsettled
    rw [not_not.mp hdestroyed, Bool.eq_false_iff.mpr hpending, Bool.eq_false_iff.mpr herror, Bool.not_true,
      Bool.and_false]
    rfl

/-- The state of a connection that begins. -/
theorem Orderly.connecting {s : SocketState} {past : List Event} (h : Orderly s past) (timeout : Nat)
    (allowHalfOpen : Bool) (noDelay : Option Bool) :
    Orderly (activity { s with endpoint := {}, started := true, timeout, allowHalfOpen, noDelay }) past :=
  ⟨h.connect, h.ended, h.finish, h.error, h.close, fun _ => rfl, h.had, h.pending, h.last⟩

theorem Sound.connects (h : Sound sockets) (hlt : index < sockets.made) (hlistener : sockets.point.listener = true)
    (options : ConnectionOptions) (endpoint : Bool) : Sound (sockets.connect index options endpoint) := by
  unfold Sockets.connect
  dsimp only
  by_cases hbusy : (sockets.states index).started = true ∧ (¬ (sockets.states index).destroyed = true ∨
      (sockets.states index).closePending = true ∨ (sockets.states index).error.isSome = true)
  · rw [if_pos hbusy]
    exact h
  have hsettled := (h.orderly index).free hbusy
  rw [if_neg hbusy]
  by_cases hdestroyed : (sockets.states index).destroyed = true
  · rw [if_pos hdestroyed, if_pos hdestroyed]
    split_ifs
    · exact h.prunes
    · exact h.prunes
    · have hnone : events sockets.log index (sockets.generations index + 1) = [] :=
        h.future index _ (Nat.lt_succ_self _)
      refine h.prunes.begins hlt hlistener hsettled (not_mem_prune hsettled) rfl ?_ (.inr ⟨rfl, hdestroyed⟩)
      exact hnone.symm ▸ (orderly_new false (sockets.states index).allowHalfOpen).connecting ..
  · rw [if_neg hdestroyed, if_neg hdestroyed]
    split_ifs
    · exact h.prunes
    · exact h.prunes
    · refine h.prunes.begins hlt hlistener hsettled (not_mem_prune hsettled) rfl ?_ (.inl rfl)
      exact (h.orderly index).connecting ..

theorem Sound.destroys (h : Sound sockets) (hlt : index < sockets.made) (hlistener : sockets.point.listener = true) :
    Sound (sockets.destroy index) := by
  unfold Sockets.destroy
  dsimp only
  split_ifs with hidle hfull
  · exact h.prunes
  · have hsettled := (h.orderly index).settled (Bool.eq_false_iff.mpr hidle.1)
    have hstarts : Orderly { sockets.states index with started := true }
        (events sockets.log index (sockets.generations index)) := by
      have horderly := h.orderly index
      exact ⟨horderly.connect, horderly.ended, horderly.finish, horderly.error, horderly.close, fun _ => rfl,
        horderly.had, horderly.pending, horderly.last⟩
    have hquiet := @destroy_quiet { sockets.states index with started := true } (.inl rfl)
    have hbegins := h.prunes.begins hlt hlistener hsettled (not_mem_prune hsettled) hquiet.started
      (hstarts.quiet hquiet) (.inl rfl)
    rw [show sockets.prune.generations = sockets.generations from rfl, Function.update_eq_self] at hbegins
    exact hbegins
  · refine h.calls hlt hlistener (destroy_quiet ?_)
    rcases not_and_or.mp hidle with hstarted | hdestroyed
    · exact .inl (not_not.mp hstarted)
    · exact .inl ((h.orderly index).started (.inl (not_not.mp hdestroyed)))

theorem Sound.performs (h : Sound sockets) (hlt : index < sockets.made) (hlistener : sockets.point.listener = true)
    (call : Call) : Sound (sockets.call index call) := by
  by_cases hdestroy : call = .destroy
  · subst hdestroy
    exact h.destroys hlt hlistener
  by_cases hconnect : ∃ options, call = .connect options
  · obtain ⟨options, rfl⟩ := hconnect
    exact h
  have hquiet := perform_quiet (sockets.states index) hdestroy (not_exists.mp hconnect)
  cases call with
  | destroy => exact absurd rfl hdestroy
  | connect options => exact absurd ⟨options, rfl⟩ hconnect
  | _ => exact h.calls hlt hlistener hquiet

/-! ## The poll -/

/-- A stage of `progress`, with the event it emits. -/
theorem Sound.runs (h : Sound sockets) {stage : Stage} {rest : List Nat}
    (hpoint : sockets.point = .progressing stage index rest) (answer : Answer) {point : Point}
    (hpointed : ∀ other ∈ point.sockets, other ∈ index :: rest)
    (hreported : point.Reported (sockets.put index (stage.run answer (sockets.states index)).1.socket).states) :
    Sound { sockets.put index (stage.run answer (sockets.states index)).1.socket with
      log := sockets.log ++ (stage.run answer (sockets.states index)).1.event.toList.map
        fun event => ⟨index, sockets.generations index, event⟩
      point } := by
  have hknown : ∀ other ∈ index :: rest, other < sockets.made ∧ (sockets.states other).started = true := by
    intro other hmem
    refine h.pointed other ?_
    rw [hpoint]
    exact hmem
  obtain ⟨hlt, hstarted⟩ := hknown index List.mem_cons_self
  have hnow := run_started hstarted answer stage
  have hstill : ∀ other, (sockets.states other).started = true →
      ((sockets.put index (stage.run answer (sockets.states index)).1.socket).states other).started = true := by
    intro other hother
    rw [put_state]
    split_ifs
    · exact hnow
    · exact hother
  have herror : stage = .reportingClose → (sockets.states index).error = none := by
    rintro rfl
    have hreported := h.reported
    rw [hpoint] at hreported
    exact hreported
  have hself : events (sockets.log ++ (stage.run answer (sockets.states index)).1.event.toList.map
      fun event => ⟨index, sockets.generations index, event⟩) index (sockets.generations index) =
        events sockets.log index (sockets.generations index) ++
          (stage.run answer (sockets.states index)).1.event.toList := by
    cases (stage.run answer (sockets.states index)).1.event with
    | none => exact (congrArg (events · index _) (List.append_nil sockets.log)).trans (List.append_nil _).symm
    | some event => exact (events_concat _ _ _ _).trans (by rw [if_pos ⟨rfl, rfl⟩]; rfl)
  have hother : ∀ other generation, ¬ (index = other ∧ sockets.generations index = generation) →
      events (sockets.log ++ (stage.run answer (sockets.states index)).1.event.toList.map
        fun event => ⟨index, sockets.generations index, event⟩) other generation =
          events sockets.log other generation := by
    intro other generation hne
    cases (stage.run answer (sockets.states index)).1.event with
    | none => exact congrArg (events · other generation) (List.append_nil sockets.log)
    | some event =>
      refine (events_concat _ _ _ _).trans ?_
      rw [if_neg hne, List.append_nil]
  refine ⟨?_, ?_, ?_, ?_, h.nodup, ?_, ?_, ?_, hreported⟩
  · intro other
    change Orderly ((sockets.put index _).states other) (events _ other (sockets.generations other))
    rw [put_state]
    split_ifs with hsame
    · subst hsame
      rw [hself]
      exact (h.orderly other).stage hstarted answer herror
    · rw [hother other _ fun hboth => hsame hboth.1.symm]
      exact h.orderly other
  · intro other generation hlt'
    rw [hother other generation fun hboth => by
      obtain ⟨rfl, hsame⟩ := hboth
      exact Nat.ne_of_lt hlt' hsame.symm]
    exact h.past other generation hlt'
  · intro other generation hlt'
    rw [hother other generation fun hboth => by
      obtain ⟨rfl, hsame⟩ := hboth
      exact Nat.ne_of_lt hlt' hsame]
    exact h.future other generation hlt'
  · intro other hle
    have hne : other ≠ index := Nat.ne_of_gt (Nat.lt_of_lt_of_le hlt hle)
    rw [hother other _ fun hboth => hne hboth.1.symm]
    change (sockets.put index _).states other = idle ∧ _
    rw [put_state, if_neg hne]
    exact h.fresh other hle
  · intro other hunsettled
    change unsettled ((sockets.put index _).states other) = true at hunsettled
    rw [put_state] at hunsettled
    split_ifs at hunsettled with hsame
    · rw [hsame]
      exact h.listed index (run_unsettled hstarted answer stage hunsettled)
    · exact h.listed other hunsettled
  · exact fun other hmem => (h.known other hmem).imp_right (hstill other)
  · exact fun other hmem => (hknown other (hpointed other hmem)).imp_right (hstill other)

theorem at_sockets {next : Option Stage} {rest : List Nat} :
    ∀ other ∈ (Point.at next index rest).sockets, other ∈ index :: rest := by
  intro other hmem
  cases next with
  | none => exact List.mem_cons_of_mem _ hmem
  | some stage => exact hmem

/-- The report of the close follows that of the error, which leaves no error. -/
theorem run_reported (h : Sound sockets) {stage : Stage} {answer : Answer}
    (hnext : (stage.run answer (sockets.states index)).2 = some .reportingClose) :
    (stage.run answer (sockets.states index)).1.socket.error = none ∧
      ((stage.run answer (sockets.states index)).1.event.isSome = true →
        (stage.run answer (sockets.states index)).1.socket.closePending = true) := by
  obtain rfl := run_reportingClose hnext
  refine ⟨((h.orderly index).reports answer.errorListened).2, fun hsome => ?_⟩
  change (Net.reporting answer.errorListened (sockets.states index)).event.isSome = true at hsome
  change (Net.reporting answer.errorListened (sockets.states index)).socket.closePending = true
  unfold Net.reporting at hsome ⊢
  split at hsome
  · cases hsome
  · rename_i error herror
    exact (h.orderly index).pending (by rw [herror]; rfl)

theorem at_reported {states : Nat → SocketState} {next : Option Stage} {rest : List Nat}
    (h : next = some .reportingClose → (states index).error = none) : (Point.at next index rest).Reported states := by
  rcases next with _ | stage
  · trivial
  cases stage with
  | reportingClose => exact h rfl
  | _ => trivial

theorem emitting_reported {states : Nat → SocketState} {next : Option Stage} {rest : List Nat}
    (h : next = some .reportingClose → (states index).closePending = true ∧ (states index).error = none) :
    (Point.emitting next index rest).Reported states := by
  rcases next with _ | stage
  · trivial
  cases stage with
  | reportingClose => exact h rfl
  | _ => trivial

theorem Sound.advances (h : Sound sockets) (answer : Answer) : Sound (sockets.advance answer) := by
  unfold Sockets.advance
  split
  · exact h.prunes.idles
  · rename_i index rest hpoint
    have hpointed := h.pointed
    rw [hpoint] at hpointed
    exact h.moves hpointed trivial
  · rename_i stage index rest hpoint
    dsimp only
    have hread := put_state sockets index (stage.run answer (sockets.states index)).1.socket index
    rw [if_pos rfl] at hread
    split_ifs with hraises
    · have hruns := @Sound.runs sockets index h stage rest hpoint answer .idle
        (fun _ hmem => absurd hmem List.not_mem_nil) trivial
      rw [raises_silent hraises] at hruns
      exact List.append_nil sockets.log ▸ hruns
    · cases hevent : (stage.run answer (sockets.states index)).1.event with
      | none =>
        have hruns := @Sound.runs sockets index h stage rest hpoint answer
          (.at (stage.run answer (sockets.states index)).2 index rest) at_sockets
          (at_reported fun hnext => by rw [hread]; exact (run_reported h hnext).1)
        rw [hevent] at hruns
        exact List.append_nil sockets.log ▸ hruns
      | some event =>
        have hruns := @Sound.runs sockets index h stage rest hpoint answer
          (.emitting (stage.run answer (sockets.states index)).2 index rest) (fun _ hmem => hmem)
          (emitting_reported fun hnext => by
            obtain ⟨herror, hpending⟩ := run_reported h hnext
            rw [hread]
            exact ⟨hpending (by rw [hevent]; rfl), herror⟩)
        rw [hevent] at hruns
        exact hruns
  · exact h

theorem Sound.returns (h : Sound sockets) {stage : Option Stage} {rest : List Nat}
    (hpoint : sockets.point = .emitting stage index rest) : Sound { sockets with point := .at stage index rest } := by
  have hpointed := h.pointed
  have hreported := h.reported
  rw [hpoint] at hpointed hreported
  refine h.moves (fun other hmem => hpointed other (at_sockets other hmem)) (at_reported fun hnext => ?_)
  rw [hnext] at hreported
  exact hreported.2

theorem listens {point : Point} (h : ¬ (!point.listener) = true) : point.listener = true := by
  simpa using h

theorem Sound.steps (h : Sound sockets) (action : Action) : Sound (sockets.step action) := by
  unfold Sockets.step
  cases action with
  | advance answer => exact h.advances answer
  | create =>
    dsimp only
    split_ifs
    · exact h
    · exact h.creates
  | adopt connected allowHalfOpen =>
    dsimp only
    split_ifs with hlistener
    · exact h
    · exact h.adopts (listens hlistener) connected allowHalfOpen
  | connect index options endpoint =>
    dsimp only
    split_ifs with hlistener hlt
    · exact h
    · exact h.connects hlt (listens hlistener) options endpoint
    · exact h
  | call index call =>
    dsimp only
    split_ifs with hlistener hlt
    · exact h
    · exact h.performs hlt (listens hlistener) call
    · exact h
  | poll =>
    dsimp only
    split_ifs
    · exact h
    · exact h.moves h.known trivial
    · exact h
  | «return» =>
    dsimp only
    split_ifs
    · exact h
    · split
      · exact h.returns ‹_›
      · exact h
  | raise =>
    dsimp only
    split_ifs
    · exact h
    · exact h.idles

end Steps

theorem sound_new : Sound {} where
  orderly _ := orderly_idle
  past _ _ hlt := absurd hlt (Nat.not_lt_zero _)
  future _ _ _ := rfl
  fresh _ _ := ⟨rfl, rfl⟩
  nodup := List.nodup_nil
  listed _ hunsettled := by cases hunsettled
  known _ hmem := absurd hmem List.not_mem_nil
  pointed _ hmem := absurd hmem List.not_mem_nil
  reported := trivial

theorem sound_run (actions : List Action) : Sound (run Sockets.step {} actions) :=
  run_preserves (fun _ action h => h.steps action) sound_new actions

/-! ## A poll to its end -/

/-- The poll has yet to report the close of the socket. -/
def Point.Comes (index : Nat) : Point → Prop
  | .idle => False
  | .visiting rest => index ∈ rest
  | .progressing _ socket rest => index ∈ socket :: rest
  | .emitting (some _) socket rest => index ∈ socket :: rest
  | .emitting none _ rest => index ∈ rest

/-- Nothing raises through the poll. -/
def Action.calm : Action → Prop
  | .raise => False
  | .advance answer => answer.errorListened = true
  | _ => True

/-- The close of the connection was emitted, or the poll comes to it. -/
def Sockets.Ends (sockets : Sockets) (index generation : Nat) : Prop :=
  0 < (events sockets.log index generation).countP Event.isClose ∨
    sockets.generations index = generation ∧ (sockets.states index).closePending = true ∧ sockets.point.Comes index

section Ends

variable {sockets : Sockets} {index generation : Nat}

theorem advance_log (sockets : Sockets) (answer : Answer) : sockets.log <+: (sockets.advance answer).log := by
  unfold Sockets.advance
  split
  · exact List.prefix_rfl
  · exact List.prefix_rfl
  · dsimp only
    split_ifs
    · exact List.prefix_rfl
    · split
      · exact List.prefix_rfl
      · exact List.prefix_append _ _
  · exact List.prefix_rfl

theorem adopt_log (sockets : Sockets) (connected allowHalfOpen : Bool) :
    (sockets.adopt connected allowHalfOpen).log = sockets.log := by
  unfold Sockets.adopt
  dsimp only
  split_ifs <;> rfl

theorem connect_log (sockets : Sockets) (index : Nat) (options : ConnectionOptions) (endpoint : Bool) :
    (sockets.connect index options endpoint).log = sockets.log ∧
      (sockets.connect index options endpoint).point = sockets.point := by
  unfold Sockets.connect
  dsimp only
  split_ifs <;> exact ⟨rfl, rfl⟩

theorem call_log (sockets : Sockets) (index : Nat) (call : Call) :
    (sockets.call index call).log = sockets.log ∧ (sockets.call index call).point = sockets.point := by
  cases call with
  | destroy =>
    change (sockets.destroy index).log = sockets.log ∧ (sockets.destroy index).point = sockets.point
    unfold Sockets.destroy
    dsimp only
    split_ifs <;> exact ⟨rfl, rfl⟩
  | _ => exact ⟨rfl, rfl⟩

/-- No event is taken back. -/
theorem step_log (sockets : Sockets) (action : Action) : sockets.log <+: (sockets.step action).log := by
  unfold Sockets.step
  cases action with
  | advance answer => exact advance_log sockets answer
  | create =>
    dsimp only
    split_ifs <;> exact List.prefix_rfl
  | adopt connected allowHalfOpen =>
    dsimp only
    split_ifs
    · exact List.prefix_rfl
    · exact adopt_log sockets connected allowHalfOpen ▸ List.prefix_rfl
  | connect index options endpoint =>
    dsimp only
    split_ifs
    · exact List.prefix_rfl
    · exact (connect_log sockets index options endpoint).1 ▸ List.prefix_rfl
    · exact List.prefix_rfl
  | call index call =>
    dsimp only
    split_ifs
    · exact List.prefix_rfl
    · exact (call_log sockets index call).1 ▸ List.prefix_rfl
    · exact List.prefix_rfl
  | poll =>
    dsimp only
    split_ifs <;> exact List.prefix_rfl
  | «return» =>
    dsimp only
    split_ifs
    · exact List.prefix_rfl
    · split <;> exact List.prefix_rfl
  | raise =>
    dsimp only
    split_ifs <;> exact List.prefix_rfl

theorem closes_step (sockets : Sockets) (action : Action) :
    (events sockets.log index generation).countP Event.isClose ≤
      (events (sockets.step action).log index generation).countP Event.isClose :=
  ((step_log sockets action).filterMap _).sublist.countP_le

/-- A close that is to be reported is left so by every call. -/
theorem Sound.calls_due (h : Sound sockets) (hdue : (sockets.states index).closePending = true) (current : Nat)
    (call : Call) : ((sockets.call current call).states index).closePending = true ∧
      (sockets.call current call).generations = sockets.generations := by
  have hquiet : ∀ {t : SocketState}, Quiet (sockets.states current) t →
      ((sockets.put current t).states index).closePending = true := by
    intro t hquiet
    rw [put_state]
    split_ifs with hsame
    · subst hsame
      exact (hquiet.reported (h.orderly index) hdue).1
    · exact hdue
  have hdestroyed := (h.orderly index).pending_destroyed hdue
  cases call with
  | destroy =>
    change ((sockets.destroy current).states index).closePending = true ∧
      (sockets.destroy current).generations = sockets.generations
    unfold Sockets.destroy
    dsimp only
    split_ifs with hidle hfull
    · exact ⟨hdue, rfl⟩
    · refine ⟨?_, rfl⟩
      change ((sockets.put current _).states index).closePending = true
      rw [put_state, if_neg]
      · exact hdue
      · rintro rfl
        exact hidle.2 hdestroyed
    · refine ⟨hquiet (destroy_quiet ?_), rfl⟩
      rcases not_and_or.mp hidle with hstarted | hnot
      · exact .inl (not_not.mp hstarted)
      · exact .inl ((h.orderly current).started (.inl (not_not.mp hnot)))
  | connect options => exact ⟨hdue, rfl⟩
  | write value sends => exact ⟨hquiet (write_quiet value sends _), rfl⟩
  | end_ sends => exact ⟨hquiet (end_quiet sends _), rfl⟩
  | read answer => exact ⟨hquiet (read_quiet answer _), rfl⟩
  | pause => exact ⟨hquiet (perform_quiet _ nofun nofun), rfl⟩
  | resume => exact ⟨hquiet (perform_quiet _ nofun nofun), rfl⟩
  | onData => exact ⟨hquiet (perform_quiet _ nofun nofun), rfl⟩
  | setTimeout timeout => exact ⟨hquiet (perform_quiet _ nofun nofun), rfl⟩
  | setNoDelay value => exact ⟨hquiet (perform_quiet _ nofun nofun), rfl⟩

theorem Sound.connects_due (h : Sound sockets) (hdue : (sockets.states index).closePending = true) (current : Nat)
    (options : ConnectionOptions) (endpoint : Bool) :
    ((sockets.connect current options endpoint).states index).closePending = true ∧
      (sockets.connect current options endpoint).generations index = sockets.generations index := by
  unfold Sockets.connect
  dsimp only
  split_ifs with hbusy hfull hrefused hdestroyed
  · exact ⟨hdue, rfl⟩
  · exact ⟨hdue, rfl⟩
  · exact ⟨hdue, rfl⟩
  all_goals
    have hne : index ≠ current := by
      rintro rfl
      exact hbusy ⟨(h.orderly index).started (.inl ((h.orderly index).pending_destroyed hdue)), .inr (.inl hdue)⟩
    refine ⟨?_, Function.update_of_ne hne _ _⟩
    change ((sockets.put current _).states index).closePending = true
    rw [put_state, if_neg hne]
    exact hdue

theorem Sound.adopts_due (h : Sound sockets) (hdue : (sockets.states index).closePending = true)
    (connected allowHalfOpen : Bool) :
    ((sockets.adopt connected allowHalfOpen).states index).closePending = true ∧
      (sockets.adopt connected allowHalfOpen).generations = sockets.generations ∧
      (sockets.adopt connected allowHalfOpen).point = sockets.point := by
  have hne : index ≠ sockets.made := by
    rintro rfl
    rw [(h.fresh sockets.made (Nat.le_refl _)).1] at hdue
    cases hdue
  have hput : ((sockets.put sockets.made { connected, allowHalfOpen }).states index).closePending = true := by
    rw [put_state, if_neg hne]
    exact hdue
  unfold Sockets.adopt
  dsimp only
  split_ifs
  · exact ⟨hdue, rfl, rfl⟩
  · exact ⟨hput, rfl, rfl⟩
  · exact ⟨hput, rfl, rfl⟩

/-- A stage on a socket whose close is to be reported: that is done, or comes nearer. -/
theorem Sound.stages_due (h : Sound sockets) (hdue : (sockets.states index).closePending = true) (answer : Answer)
    (stage : Stage) :
    (∃ hadError, (stage.run answer (sockets.states index)).1.event = some (.close hadError)) ∨
      (stage.run answer (sockets.states index)).1.socket.closePending = true ∧
        ∃ next, (stage.run answer (sockets.states index)).2 = some next := by
  by_cases hclose : stage = .reportingClose
  · subst hclose
    left
    change ∃ hadError, (Net.reportingClose (sockets.states index)).event = some (.close hadError)
    unfold Net.reportingClose
    rw [if_pos hdue]
    exact ⟨_, rfl⟩
  right
  refine ⟨?_, run_next answer _ hclose⟩
  by_cases hreport : stage = .reporting
  · subst hreport
    change (Net.reporting answer.errorListened (sockets.states index)).socket.closePending = true
    unfold Net.reporting
    split <;> exact hdue
  · rw [(run_destroyed ((h.orderly index).pending_destroyed hdue) answer hreport hclose).1]
    exact hdue

theorem calm_raises {answer : Answer} (hcalm : answer.errorListened = true) (s : SocketState) (stage : Stage) :
    stage.raises answer s = false := by
  cases stage with
  | reporting =>
    change (s.error.isSome && !answer.errorListened) = false
    rw [hcalm, Bool.not_true, Bool.and_false]
  | _ => rfl

theorem Sound.advances_ends (h : Sound sockets) (hgeneration : sockets.generations index = generation)
    (hdue : (sockets.states index).closePending = true) (hcomes : sockets.point.Comes index) {answer : Answer}
    (hcalm : answer.errorListened = true) : (sockets.advance answer).Ends index generation := by
  unfold Sockets.advance
  split
  · rename_i hpoint
    rw [hpoint] at hcomes
    exact absurd hcomes List.not_mem_nil
  · rename_i current rest hpoint
    rw [hpoint] at hcomes
    exact .inr ⟨hgeneration, hdue, hcomes⟩
  · rename_i stage current rest hpoint
    rw [hpoint] at hcomes
    dsimp only
    rw [if_neg (by rw [calm_raises hcalm]; decide)]
    by_cases hsame : current = index
    · subst hsame
      rcases h.stages_due hdue answer stage with ⟨hadError, hevent⟩ | ⟨hstill, next, hnext⟩
      · rw [hevent]
        left
        change 0 < List.countP _ (events (sockets.log ++ [_]) current generation)
        rw [events_concat, if_pos ⟨rfl, hgeneration⟩, countP_concat]
        exact Nat.succ_pos _
      · have hput : ((sockets.put current (stage.run answer (sockets.states current)).1.socket).states
            current).closePending = true := by
          rw [put_state, if_pos rfl]
          exact hstill
        rw [hnext]
        split
        · exact .inr ⟨hgeneration, hput, hcomes⟩
        · exact .inr ⟨hgeneration, hput, hcomes⟩
    · have hrest : index ∈ rest := (List.mem_cons.mp hcomes).resolve_left (Ne.symm hsame)
      have hput : ((sockets.put current (stage.run answer (sockets.states current)).1.socket).states
          index).closePending = true := by
        rw [put_state, if_neg (Ne.symm hsame)]
        exact hdue
      cases (stage.run answer (sockets.states current)).2 with
      | none =>
        split
        · exact .inr ⟨hgeneration, hput, hrest⟩
        · exact .inr ⟨hgeneration, hput, hrest⟩
      | some next =>
        split
        · exact .inr ⟨hgeneration, hput, hcomes⟩
        · exact .inr ⟨hgeneration, hput, hcomes⟩
  · exact .inr ⟨hgeneration, hdue, hcomes⟩

/-- A step that raises nothing leaves the poll on the way to the report. -/
theorem Sound.ends (h : Sound sockets) (hends : sockets.Ends index generation) {action : Action} (hcalm : action.calm) :
    (sockets.step action).Ends index generation := by
  rcases hends with hdone | ⟨hgeneration, hdue, hcomes⟩
  · exact .inl (Nat.lt_of_lt_of_le hdone (closes_step sockets action))
  unfold Sockets.step
  cases action with
  | advance answer => exact h.advances_ends hgeneration hdue hcomes hcalm
  | raise => exact absurd hcalm id
  | create =>
    dsimp only
    split_ifs <;> exact .inr ⟨hgeneration, hdue, hcomes⟩
  | adopt connected allowHalfOpen =>
    dsimp only
    split_ifs
    · exact .inr ⟨hgeneration, hdue, hcomes⟩
    · obtain ⟨hstill, hsame, hpoint⟩ := h.adopts_due hdue connected allowHalfOpen
      exact .inr ⟨hsame ▸ hgeneration, hstill, hpoint ▸ hcomes⟩
  | connect current options endpoint =>
    dsimp only
    split_ifs
    · exact .inr ⟨hgeneration, hdue, hcomes⟩
    · obtain ⟨hstill, hsame⟩ := h.connects_due hdue current options endpoint
      exact .inr ⟨hsame.trans hgeneration, hstill, (connect_log sockets current options endpoint).2 ▸ hcomes⟩
    · exact .inr ⟨hgeneration, hdue, hcomes⟩
  | call current call =>
    dsimp only
    split_ifs
    · exact .inr ⟨hgeneration, hdue, hcomes⟩
    · obtain ⟨hstill, hsame⟩ := h.calls_due hdue current call
      exact .inr ⟨hsame ▸ hgeneration, hstill, (call_log sockets current call).2 ▸ hcomes⟩
    · exact .inr ⟨hgeneration, hdue, hcomes⟩
  | poll =>
    dsimp only
    split_ifs with hlistener hidle
    · exact .inr ⟨hgeneration, hdue, hcomes⟩
    · rw [hidle] at hcomes
      exact absurd hcomes id
    · exact .inr ⟨hgeneration, hdue, hcomes⟩
  | «return» =>
    dsimp only
    split_ifs
    · exact .inr ⟨hgeneration, hdue, hcomes⟩
    · split
      · rename_i stage current rest hpoint
        rw [hpoint] at hcomes
        cases stage with
        | none => exact .inr ⟨hgeneration, hdue, hcomes⟩
        | some stage => exact .inr ⟨hgeneration, hdue, hcomes⟩
      · exact .inr ⟨hgeneration, hdue, hcomes⟩

theorem Sound.runs_ends (h : Sound sockets) (hends : sockets.Ends index generation) {actions : List Action}
    (hcalm : ∀ action ∈ actions, action.calm) : (run Sockets.step sockets actions).Ends index generation := by
  induction actions generalizing sockets with
  | nil => exact hends
  | cons action actions ih =>
    obtain ⟨hfirst, hcalm⟩ := List.forall_mem_cons.mp hcalm
    exact ih (h.steps action) (h.ends hends hfirst) hcalm

/-- A poll that nothing raises through emits the close of every connection that was destroyed before. -/
theorem poll_closes (h : Sound sockets) (hidle : sockets.point = .idle)
    (hdue : (sockets.states index).closePending = true) {actions : List Action}
    (hcalm : ∀ action ∈ actions, action.calm)
    (hend : (run Sockets.step sockets (.poll :: actions)).point = .idle) :
    0 < (events (run Sockets.step sockets (.poll :: actions)).log index (sockets.generations index)).countP
      Event.isClose := by
  have hstart : sockets.step .poll = { sockets with point := .visiting sockets.list } := by
    unfold Sockets.step
    dsimp only
    rw [hidle]
    rfl
  have hunsettled : unsettled (sockets.states index) = true := by
    unfold unsettled
    rw [hdue, Bool.or_true, Bool.true_or]
  have hpoll : Sound { sockets with point := .visiting sockets.list } := h.moves h.known trivial
  rw [run_cons, hstart] at hend ⊢
  rcases hpoll.runs_ends (.inr ⟨rfl, hdue, h.listed index hunsettled⟩) hcalm with hdone | ⟨-, -, hcomes⟩
  · exact hdone
  · rw [hend] at hcomes
    exact absurd hcomes id

end Ends

/-- Sockets over every run of the program and of the poll: the events of each connection are a
`Lifecycle`; a connection has emitted `close` as soon as the socket connects again, and until then when
it is destroyed and the close is no longer due; what is due is emitted by the next poll that nothing
raises through; a socket is listed once, as long as its connection is not settled. -/
theorem sockets_lifecycle (actions : List Action) :
    let sockets := run Sockets.step {} actions
    (∀ index generation, Lifecycle (events sockets.log index generation)) ∧
    (∀ index, ∀ generation < sockets.generations index,
      (events sockets.log index generation).countP Event.isClose = 1) ∧
    (∀ index, (events sockets.log index (sockets.generations index)).countP Event.isClose +
      (sockets.states index).closePending.toNat = (sockets.states index).destroyed.toNat) ∧
    (∀ index, sockets.point = .idle → (sockets.states index).closePending = true → ∀ later,
      (∀ action ∈ later, action.calm) → (run Sockets.step sockets (.poll :: later)).point = .idle →
      0 < (events (run Sockets.step sockets (.poll :: later)).log index (sockets.generations index)).countP
        Event.isClose) ∧
    sockets.list.Nodup ∧
    (∀ index, unsettled (sockets.states index) = true → index ∈ sockets.list) := by
  intro sockets
  have h : Sound sockets := sound_run actions
  refine ⟨?_, fun index generation hlt => (h.past index generation hlt).2, fun index => (h.orderly index).close, ?_,
    h.nodup, h.listed⟩
  · intro index generation
    rcases Nat.lt_trichotomy generation (sockets.generations index) with hlt | rfl | hgt
    · exact (h.past index generation hlt).1
    · exact (h.orderly index).lifecycle
    · rw [h.future index generation hgt]
      exact orderly_idle.lifecycle
  · intro index hidle hdue later hcalm hend
    exact poll_closes h hidle hdue hcalm hend

end TsonicNode.Net.Active
