import Mathlib.Data.List.Nodup
import TsonicNode.Lib.Run

/-!
# Network servers

`poll_servers` goes through a snapshot of the servers, and listeners run in the
middle of it: on an error, on listening, for each connection and on close. The
steps of a poll are steps of `Servers`, each with what the system answers; where
a listener runs (`Point.listener`), and between the polls, the program listens,
closes and destroys connections. Servers and sockets are their numbers. The log
has the calls of the program that returned and what the poll meets; the phase of
a server is what the log makes of it. `Sound` is the invariant, and `Fits` what it
says of the events so far.
-/

namespace TsonicNode.Net.Listening

open TsonicNode.Lib

/-- The sockets of the connections are told by their numbers. -/
structure ServerState where
  /-- There is an endpoint. -/
  endpoint : Bool := false
  connections : List Nat := []
  active : Bool := false
  listening : Bool := false
  closing : Bool := false

inductive Event where
  /-- `listen` returned. -/
  | listened (server : Nat)
  /-- `close` returned. -/
  | closeCalled (server : Nat)
  /-- The endpoint of a server failed. -/
  | failed (server : Nat)
  | accepted (server socket : Nat)
  /-- `destroy` of a socket was called, by the program or by its own progress. -/
  | destroyed (socket : Nat)
  /-- `close` is emitted. -/
  | closed (server : Nat)
  deriving DecidableEq

/-- The program point of `poll_servers`; `rest` is what is left of the snapshot. -/
inductive Point where
  | idle
  /-- At the head of the loop. -/
  | visiting (rest : List Nat)
  | erring (server : Nat) (rest : List Nat)
  | listening (server : Nat) (rest : List Nat)
  /-- At the head of the loop that accepts, with the rounds that are left. -/
  | accepting (server : Nat) (left : Nat) (rest : List Nat)
  | connecting (server : Nat) (left : Nat) (rest : List Nat)
  /-- Behind the connections. -/
  | settling (server : Nat) (rest : List Nat)
  | closing (server : Nat) (rest : List Nat)
  deriving DecidableEq

/-- The program runs: between the polls, or as a listener. -/
def Point.listener : Point → Bool
  | .idle => true
  | .erring _ _ => true
  | .listening _ _ => true
  | .connecting _ _ _ => true
  | .closing _ _ => true
  | _ => false

structure Servers where
  states : List ServerState := []
  /-- `destroyed` of each socket. -/
  sockets : List Bool := []
  /-- `_servers`. -/
  list : List Nat := []
  point : Point := .idle
  /-- An endpoint was missing where one is used. -/
  aborted : Bool := false
  log : List Event := []

def maxServers : Nat := 1024

/-- What `accept` comes to, with the making of the socket. -/
inductive AcceptAnswer where
  | none
  | failed
  | connection

/-- The answers of one step of the poll. -/
structure Answer where
  status : Int := 0
  /-- There are listeners for errors. -/
  errorListeners : Bool := false
  accept : AcceptAnswer := .none

namespace Servers

def server (servers : Servers) (index : Nat) : ServerState := servers.states.getD index {}

def put (servers : Servers) (index : Nat) (server : ServerState) : Servers :=
  { servers with states := servers.states.set index server }

def note (servers : Servers) (event : Event) : Servers := { servers with log := servers.log ++ [event] }

/-- `destroyed` of a socket. -/
def gone (servers : Servers) (socket : Nat) : Bool := servers.sockets.getD socket true

/-- Active or closing. -/
def busy (servers : Servers) (index : Nat) : Bool := (servers.server index).active || (servers.server index).closing

/-- `_prune_servers`. -/
def prune (servers : Servers) : Servers := { servers with list := servers.list.filter servers.busy }

/-- `_listen`, and whether it returns; `endpoint` is whether an endpoint can be made and the callback
added. -/
def listen (servers : Servers) (index : Nat) (endpoint : Bool) : Servers × Bool :=
  if servers.busy index then (servers, false)
  else
    let servers := servers.prune
    if maxServers ≤ servers.list.length then (servers, false)
    else if !endpoint then (servers, false)
    else
      let servers := servers.put index { servers.server index with endpoint := true, active := true }
      ({ servers with list := servers.list ++ [index] }, true)

/-- `close`, behind the list. -/
def closeDown (servers : Servers) (index : Nat) : Servers :=
  servers.put index { servers.server index with active := false, listening := false, closing := true }

/-- `close`, and whether it returns. -/
def close (servers : Servers) (index : Nat) : Servers × Bool :=
  if servers.busy index then (servers.closeDown index, true)
  else
    let servers := servers.prune
    if maxServers ≤ servers.list.length then (servers, false)
    else ({ servers with list := servers.list ++ [index] }.closeDown index, true)

/-- A call of the program, which is noted when it returned. -/
def called (result : Servers × Bool) (event : Event) : Servers :=
  if result.2 then result.1.note event else result.1

/-- `destroy` of a socket. -/
def destroy (servers : Servers) (socket : Nat) : Servers :=
  { servers with sockets := servers.sockets.set socket true }

/-- The poll raises. -/
def fail (servers : Servers) : Servers := { servers with point := .idle }

/-- At the head of the loop. -/
def visit (servers : Servers) (rest : List Nat) (answer : Answer) : Servers :=
  match rest with
  | [] => { servers.prune with point := .idle }
  | index :: rest =>
    let server := servers.server index
    if !server.active then { servers with point := .settling index rest }
    else if !server.endpoint then { servers with aborted := true }
    else if answer.status < 0 then
      let (servers, closed) := (servers.note (.failed index)).close index
      if !closed || !answer.errorListeners then servers.fail else { servers with point := .erring index rest }
    else if answer.status = 1 then
      if server.listening then { servers with point := .accepting index 16 rest }
      else { servers.put index { server with listening := true } with point := .listening index rest }
    else { servers with point := .settling index rest }

/-- At the head of the loop that accepts. -/
def accept (servers : Servers) (index : Nat) (left : Nat) (rest : List Nat) (answer : Answer) : Servers :=
  let server := servers.server index
  match left with
  | 0 => { servers with point := .settling index rest }
  | left + 1 =>
    if !server.active then { servers with point := .settling index rest }
    else if !server.endpoint then { servers with aborted := true }
    else
      match answer.accept with
      | .failed => servers.fail
      | .none => { servers with point := .settling index rest }
      | .connection =>
        let socket := servers.sockets.length
        let servers := { servers with sockets := servers.sockets ++ [false] }
        let servers := servers.put index { server with connections := server.connections ++ [socket] }
        { servers.note (.accepted index socket) with point := .connecting index left rest }

/-- Behind the connections: those that are destroyed are forgotten, and a server that closes is done
with the last one. -/
def settle (servers : Servers) (index : Nat) (rest : List Nat) : Servers :=
  let server := servers.server index
  let server := { server with connections := server.connections.filter fun socket => !servers.gone socket }
  if server.closing ∧ server.connections = [] then
    { (servers.put index { server with closing := false, endpoint := false }).note (.closed index) with
      point := .closing index rest }
  else { servers.put index server with point := .visiting rest }

/-- A step of the poll itself. -/
def advance (servers : Servers) (answer : Answer) : Servers :=
  match servers.point with
  | .visiting rest => servers.visit rest answer
  | .accepting index left rest => servers.accept index left rest answer
  | .settling index rest => servers.settle index rest
  | _ => servers

/-- The listeners return. -/
def returned (servers : Servers) : Servers :=
  match servers.point with
  | .erring index rest => { servers with point := .settling index rest }
  | .listening index rest => { servers with point := .accepting index 16 rest }
  | .connecting index left rest => { servers with point := .accepting index left rest }
  | .closing _ rest => { servers with point := .visiting rest }
  | _ => servers

end Servers

inductive Action where
  | new
  | listen (server : Nat) (endpoint : Bool)
  | close (server : Nat)
  | destroy (socket : Nat)
  /-- The event loop polls. -/
  | poll
  | advance (answer : Answer)
  | return
  | raise

/-- Nothing happens behind an abort, and the program does nothing while the poll runs. What it calls
is noted here. -/
def Servers.step (servers : Servers) (action : Action) : Servers :=
  if servers.aborted then servers
  else
    match action with
    | .advance answer => servers.advance answer
    | action =>
      if !servers.point.listener then servers
      else
        match action with
        | .new => { servers with states := servers.states ++ [{}] }
        | .listen index endpoint =>
          if index < servers.states.length then Servers.called (servers.listen index endpoint) (.listened index)
          else servers
        | .close index =>
          if index < servers.states.length then Servers.called (servers.close index) (.closeCalled index) else servers
        | .destroy socket =>
          if socket < servers.sockets.length then (servers.destroy socket).note (.destroyed socket) else servers
        | .poll => if servers.point = .idle then { servers with point := .visiting servers.list } else servers
        | .advance _ => servers
        | .return => servers.returned
        | .raise => servers.fail

/-! ## Events -/

/-- A server serves from `listen` to `close`, and closes from there until `close` is emitted. -/
inductive Phase where
  | idle
  | serving
  | closing
  deriving DecidableEq

/-- What an event makes of the phase of a server. -/
def Event.next (server : Nat) (now : Phase) : Event → Phase
  | .listened other => if other = server then .serving else now
  | .closeCalled other => if other = server then .closing else now
  | .failed other => if other = server then .closing else now
  | .closed other => if other = server then .idle else now
  | _ => now

/-- The phase of a server behind these events. -/
def phase (log : List Event) (server : Nat) : Phase := log.foldl (fun now event => event.next server now) .idle

/-- What may come behind these events: `listen` on an idle server; a connection or a failure only
while the server serves; the emission of `close` once in each phase of closing, when the connections
are destroyed. -/
def Fits (past : List Event) : Event → Prop
  | .listened server => phase past server = .idle
  | .failed server => phase past server = .serving
  | .accepted server _ => phase past server = .serving
  | .closed server =>
    phase past server = .closing ∧ ∀ socket, .accepted server socket ∈ past → .destroyed socket ∈ past
  | _ => True

theorem phase_note (log : List Event) (event : Event) (server : Nat) :
    phase (log ++ [event]) server = event.next server (phase log server) := by
  rw [phase, List.foldl_append]
  rfl

/-- The server that an event is about. -/
def Event.about : Event → Option Nat
  | .listened server => some server
  | .closeCalled server => some server
  | .failed server => some server
  | .accepted server _ => some server
  | .closed server => some server
  | .destroyed _ => none

theorem next_other {event : Event} {server : Nat} (habout : event.about ≠ some server) (now : Phase) :
    event.next server now = now := by
  cases event with
  | listened other => exact if_neg fun hsame => habout (congrArg some hsame)
  | closeCalled other => exact if_neg fun hsame => habout (congrArg some hsame)
  | failed other => exact if_neg fun hsame => habout (congrArg some hsame)
  | closed other => exact if_neg fun hsame => habout (congrArg some hsame)
  | accepted other socket => rfl
  | destroyed socket => rfl

/-! ## The invariant -/

/-- The accepted connections of a server that are not destroyed are among these. -/
structure Tracks (servers : Servers) (index : Nat) (connections : List Nat) : Prop where
  tracked : ∀ socket, .accepted index socket ∈ servers.log → socket ∈ connections ∨ .destroyed socket ∈ servers.log
  owned : ∀ socket ∈ connections, .accepted index socket ∈ servers.log
  made : ∀ socket, .accepted index socket ∈ servers.log → socket < servers.sockets.length

structure Sound (servers : Servers) : Prop where
  nodup : servers.list.Nodup
  listed : ∀ index, servers.busy index = true → index ∈ servers.list
  endpoint : ∀ index, (servers.server index).active = true → (servers.server index).endpoint = true
  active : ∀ index, (servers.server index).active = decide (phase servers.log index = .serving)
  closing : ∀ index, (servers.server index).closing = decide (phase servers.log index = .closing)
  tracks : ∀ index, Tracks servers index (servers.server index).connections
  gone : ∀ socket < servers.sockets.length, servers.gone socket = true → .destroyed socket ∈ servers.log
  ended : ∀ socket, .destroyed socket ∈ servers.log → socket < servers.sockets.length ∧ servers.gone socket = true
  fits : ∀ past event, past ++ [event] <+: servers.log → Fits past event
  alive : servers.aborted = false

section Steps

variable {servers : Servers} {index : Nat}

theorem server_put (servers : Servers) (index : Nat) (server : ServerState) (index' : Nat) :
    (servers.put index server).server index' =
      if index = index' ∧ index < servers.states.length then server else servers.server index' := by
  simp only [Servers.put, Servers.server, List.getD_eq_getElem?_getD, List.getElem?_set]
  split_ifs with hsame hlt hboth hboth
  · rfl
  · exact absurd ⟨hsame, hlt⟩ hboth
  · exact absurd hboth.2 hlt
  · rw [← hsame, List.getElem?_eq_none (Nat.le_of_not_lt hlt)]
  · exact absurd ‹_ ∧ _›.1 hsame
  · rfl

theorem lt_of_busy (h : servers.busy index = true) : index < servers.states.length := by
  by_contra hnot
  rw [Servers.busy, Servers.server, List.getD_eq_getElem?_getD, List.getElem?_eq_none (Nat.le_of_not_lt hnot)] at h
  cases h

theorem busy_of_active (h : (servers.server index).active = true) : servers.busy index = true := by
  rw [Servers.busy, h, Bool.true_or]

theorem fits_note {log : List Event} {event : Event} (h : ∀ past event, past ++ [event] <+: log → Fits past event)
    (hevent : Fits log event) : ∀ past event', past ++ [event'] <+: log ++ [event] → Fits past event' := by
  intro past event' hfront
  rcases List.prefix_concat_iff.mp hfront with heq | hfront
  · obtain ⟨rfl, hlast⟩ := List.append_inj' heq rfl
    obtain rfl := List.singleton_inj.mp hlast
    exact hevent
  · exact h past event' hfront

theorem Sound.apart (h : Sound servers) (hactive : (servers.server index).active = true) :
    (servers.server index).closing = false := by
  rw [h.active, decide_eq_true_eq] at hactive
  rw [h.closing, hactive]
  rfl

/-- A server is busy from the call of `listen` or `close` on until `close` is emitted. -/
theorem Sound.busy_iff (h : Sound servers) (index : Nat) :
    servers.busy index = true ↔ phase servers.log index ≠ .idle := by
  rw [Servers.busy, h.active, h.closing]
  cases phase servers.log index <;> decide

/-- Only the program point changes. -/
theorem Sound.moves (h : Sound servers) (point : Point) : Sound { servers with point } :=
  ⟨h.nodup, h.listed, h.endpoint, h.active, h.closing, fun index => ⟨(h.tracks index).tracked, (h.tracks index).owned,
    (h.tracks index).made⟩, h.gone, h.ended, h.fits, h.alive⟩

theorem Sound.prunes (h : Sound servers) : Sound servers.prune :=
  ⟨h.nodup.filter _, fun index hbusy => List.mem_filter.mpr ⟨h.listed index hbusy, hbusy⟩, h.endpoint, h.active,
    h.closing, fun index => ⟨(h.tracks index).tracked, (h.tracks index).owned, (h.tracks index).made⟩, h.gone, h.ended,
    h.fits, h.alive⟩

/-- Writing to a server that serves and closes as before, and forgets no connection that is alive. -/
theorem Sound.puts (h : Sound servers) {server : ServerState}
    (hactive : server.active = (servers.server index).active)
    (hclosing : server.closing = (servers.server index).closing)
    (hendpoint : server.endpoint = (servers.server index).endpoint)
    (htracks : Tracks servers index server.connections) : Sound (servers.put index server) := by
  have hput : ∀ other, ((servers.put index server).server other).active = (servers.server other).active ∧
      ((servers.put index server).server other).closing = (servers.server other).closing ∧
      ((servers.put index server).server other).endpoint = (servers.server other).endpoint := by
    intro other
    rw [server_put]
    split_ifs with hboth
    · rw [← hboth.1]
      exact ⟨hactive, hclosing, hendpoint⟩
    · exact ⟨rfl, rfl, rfl⟩
  refine ⟨h.nodup, ?_, ?_, ?_, ?_, ?_, h.gone, h.ended, h.fits, h.alive⟩
  · intro other
    rw [Servers.busy, (hput other).1, (hput other).2.1]
    exact h.listed other
  · intro other
    rw [(hput other).1, (hput other).2.2]
    exact h.endpoint other
  · intro other
    rw [(hput other).1]
    exact h.active other
  · intro other
    rw [(hput other).2.1]
    exact h.closing other
  · intro other
    rw [server_put]
    split_ifs with hboth
    · obtain rfl := hboth.1
      exact ⟨htracks.tracked, htracks.owned, htracks.made⟩
    · exact ⟨(h.tracks other).tracked, (h.tracks other).owned, (h.tracks other).made⟩

theorem mem_note {event other : Event} (h : other ∈ (servers.note event).log) (hne : event ≠ other) :
    other ∈ servers.log := by
  rcases List.mem_append.mp h with h | h
  · exact h
  · exact absurd (List.mem_singleton.mp h).symm hne

/-- An event that is not the accepting of a connection of the server. -/
theorem Tracks.notes {connections : List Nat} (h : Tracks servers index connections) {event : Event}
    (hne : ∀ socket, event ≠ .accepted index socket) : Tracks (servers.note event) index connections where
  tracked socket hmem := (h.tracked socket (mem_note hmem (hne socket))).imp_right (List.mem_append_left _)
  owned socket hmem := List.mem_append_left _ (h.owned socket hmem)
  made socket hmem := h.made socket (mem_note hmem (hne socket))

/-- A server changes with the event that says so. -/
theorem Sound.changes (h : Sound servers) (hlt : index < servers.states.length) {server : ServerState}
    {list : List Nat} {event : Event} (habout : event.about = some index) (hnodup : list.Nodup)
    (hothers : ∀ other, index ≠ other → servers.busy other = true → other ∈ list)
    (hself : (server.active || server.closing) = true → index ∈ list)
    (hendpoint : server.active = true → server.endpoint = true)
    (hactive : server.active = decide (event.next index (phase servers.log index) = .serving))
    (hclosing : server.closing = decide (event.next index (phase servers.log index) = .closing))
    (htracks : Tracks (servers.note event) index server.connections) (hfits : Fits servers.log event) :
    Sound (({ servers.put index server with list } : Servers).note event) := by
  have hput : ∀ other, (({ servers.put index server with list } : Servers).note event).server other =
      if index = other then server else servers.server other := by
    intro other
    refine (server_put servers index server other).trans ?_
    simp only [hlt, and_true]
  have hphase : ∀ other, phase (({ servers.put index server with list } : Servers).note event).log other =
      event.next other (phase servers.log other) := phase_note servers.log event
  have hquiet : ∀ {other}, index ≠ other → event.about ≠ some other :=
    fun hne hsame => hne (Option.some.inj (habout.symm.trans hsame))
  refine ⟨hnodup, ?_, ?_, ?_, ?_, ?_, ?_, ?_, fits_note h.fits hfits, h.alive⟩
  · intro other hnow
    rw [Servers.busy, hput] at hnow
    split_ifs at hnow with hsame
    · exact hsame ▸ hself hnow
    · exact hothers other hsame hnow
  · intro other
    rw [hput]
    split_ifs
    · exact hendpoint
    · exact h.endpoint other
  · intro other
    rw [hput, hphase]
    split_ifs with hsame
    · exact hsame ▸ hactive
    · rw [next_other (hquiet hsame)]
      exact h.active other
  · intro other
    rw [hput, hphase]
    split_ifs with hsame
    · exact hsame ▸ hclosing
    · rw [next_other (hquiet hsame)]
      exact h.closing other
  · intro other
    rw [hput]
    split_ifs with hsame
    · exact hsame ▸ ⟨htracks.tracked, htracks.owned, htracks.made⟩
    · have htracked : Tracks (servers.note event) other _ :=
        (h.tracks other).notes fun socket heq => hquiet hsame (heq ▸ rfl)
      exact ⟨htracked.tracked, htracked.owned, htracked.made⟩
  · exact fun socket hin hgone => List.mem_append_left _ (h.gone socket hin hgone)
  · intro socket hmem
    refine h.ended socket (mem_note hmem fun heq => ?_)
    rw [heq] at habout
    cases habout

/-- A server that is not busy begins to serve. -/
theorem Sound.listened (h : Sound servers) (hlt : index < servers.states.length) (hfree : servers.busy index = false)
    (hnew : index ∉ servers.list) :
    Sound (({ servers.put index { servers.server index with endpoint := true, active := true } with
      list := servers.list ++ [index] } : Servers).note (.listened index)) := by
  obtain ⟨-, hopen⟩ := Bool.or_eq_false_iff.mp hfree
  have hnext : Event.next index (phase servers.log index) (.listened index) = .serving := if_pos rfl
  have hidle : phase servers.log index = .idle := by
    by_contra hbusy
    cases hfree.symm.trans ((h.busy_iff index).mpr hbusy)
  refine h.changes hlt rfl ?_ ?_ ?_ (fun _ => rfl) ?_ ?_ ((h.tracks index).notes nofun) hidle
  · exact (List.perm_append_singleton index servers.list).nodup_iff.mpr (List.nodup_cons.mpr ⟨hnew, h.nodup⟩)
  · exact fun other _ hbusy => List.mem_append_left _ (h.listed other hbusy)
  · exact fun _ => List.mem_append_right _ (List.mem_singleton_self _)
  · rw [hnext]
    rfl
  · rw [hnext]
    exact hopen

/-- `close` of a server in the list, with the event it comes from. -/
theorem Sound.closesDown (h : Sound servers) (hlt : index < servers.states.length) {list : List Nat} {event : Event}
    (hevent : event = .closeCalled index ∨ event = .failed index ∧ (servers.server index).active = true)
    (hnodup : list.Nodup) (hmem : index ∈ list) (hsub : ∀ other, servers.busy other = true → other ∈ list) :
    Sound ((({ servers with list } : Servers).closeDown index).note event) := by
  have hnext : event.about = some index ∧ event.next index (phase servers.log index) = .closing ∧
      (∀ socket, event ≠ .accepted index socket) ∧ Fits servers.log event := by
    rcases hevent with rfl | ⟨rfl, hactive⟩
    · exact ⟨rfl, if_pos rfl, nofun, trivial⟩
    · rw [h.active, decide_eq_true_eq] at hactive
      exact ⟨rfl, if_pos rfl, nofun, hactive⟩
  obtain ⟨habout, hnow, hconnection, hfits⟩ := hnext
  refine h.changes hlt habout hnodup (fun other _ => hsub other) (fun _ => hmem) nofun ?_ ?_
    ((h.tracks index).notes hconnection) hfits
  · rw [hnow]
    rfl
  · rw [hnow]
    rfl

theorem Sound.destroys (h : Sound servers) {socket : Nat} (hlt : socket < servers.sockets.length) :
    Sound ((servers.destroy socket).note (.destroyed socket)) := by
  have hgone : ∀ other, ((servers.destroy socket).note (.destroyed socket)).gone other =
      (decide (socket = other) || servers.gone other) := by
    intro other
    change (servers.sockets.set socket true).getD other true = _
    rw [Servers.gone, List.getD_eq_getElem?_getD, List.getD_eq_getElem?_getD, List.getElem?_set, if_pos hlt]
    by_cases hsame : socket = other
    · rw [if_pos hsame, decide_eq_true hsame]
      rfl
    · rw [if_neg hsame, decide_eq_false hsame, Bool.false_or]
  have hlength : ((servers.destroy socket).note (.destroyed socket)).sockets.length = servers.sockets.length :=
    List.length_set
  have hphase : ∀ other, phase ((servers.destroy socket).note (.destroyed socket)).log other =
      phase servers.log other := phase_note servers.log (.destroyed socket)
  refine ⟨h.nodup, h.listed, h.endpoint, ?_, ?_, ?_, ?_, ?_, fits_note h.fits trivial, h.alive⟩
  · intro other
    rw [hphase]
    exact h.active other
  · intro other
    rw [hphase]
    exact h.closing other
  · intro other
    have htracks : Tracks (servers.note (.destroyed socket)) other _ := (h.tracks other).notes nofun
    refine ⟨htracks.tracked, htracks.owned, fun socket' hmem => ?_⟩
    rw [hlength]
    exact htracks.made socket' hmem
  · intro other hin hnow
    rw [hgone, Bool.or_eq_true, decide_eq_true_eq] at hnow
    rcases hnow with rfl | hnow
    · exact List.mem_append_right _ (List.mem_singleton_self _)
    · exact List.mem_append_left _ (h.gone other (hlength ▸ hin) hnow)
  · intro other hmem
    rw [hgone, hlength, Bool.or_eq_true, decide_eq_true_eq]
    rcases List.mem_append.mp hmem with hmem | hmem
    · exact ⟨(h.ended other hmem).1, .inr (h.ended other hmem).2⟩
    · obtain rfl := Event.destroyed.inj (List.mem_singleton.mp hmem)
      exact ⟨hlt, .inl rfl⟩

theorem gone_open (servers : Servers) {socket : Nat} (hlt : socket < servers.sockets.length) :
    ({ servers with sockets := servers.sockets ++ [false] } : Servers).gone socket = servers.gone socket := by
  rw [Servers.gone, Servers.gone, List.getD_eq_getElem?_getD, List.getD_eq_getElem?_getD,
    List.getElem?_append_left hlt]

theorem Sound.opens (h : Sound servers) : Sound { servers with sockets := servers.sockets ++ [false] } := by
  have hlonger : ∀ {socket}, socket < servers.sockets.length → socket < (servers.sockets ++ [false]).length := by
    intro socket hlt
    rw [List.length_append]
    exact Nat.lt_add_right 1 hlt
  refine ⟨h.nodup, h.listed, h.endpoint, h.active, h.closing, ?_, ?_, ?_, h.fits, h.alive⟩
  · exact fun other => ⟨(h.tracks other).tracked, (h.tracks other).owned,
      fun socket hmem => hlonger ((h.tracks other).made socket hmem)⟩
  · intro socket hlt hgone
    rw [List.length_append, List.length_singleton] at hlt
    rcases Nat.lt_succ_iff_lt_or_eq.mp hlt with hlt | rfl
    · rw [gone_open servers hlt] at hgone
      exact h.gone socket hlt hgone
    · rw [Servers.gone, List.getD_eq_getElem?_getD, List.getElem?_concat_length] at hgone
      cases hgone
  · intro socket hmem
    obtain ⟨hlt, hgone⟩ := h.ended socket hmem
    exact ⟨hlonger hlt, (gone_open servers hlt).trans hgone⟩

/-- A connection is accepted, and tracked at once. -/
theorem Sound.accepts (h : Sound servers) (hactive : (servers.server index).active = true) :
    Sound ((({ servers with sockets := servers.sockets ++ [false] } : Servers).put index
      { servers.server index with
        connections := (servers.server index).connections ++ [servers.sockets.length] }).note
          (.accepted index servers.sockets.length)) := by
  have hbusy := busy_of_active hactive
  have hserving := h.active index
  rw [hactive, eq_comm, decide_eq_true_eq] at hserving
  have hlast : servers.sockets.length < (servers.sockets ++ [false]).length := by
    rw [List.length_append, List.length_singleton]
    exact Nat.lt_succ_self _
  have htracks := h.opens.tracks index
  refine h.opens.changes (lt_of_busy hbusy) rfl h.nodup (fun other _ => h.listed other)
    (fun _ => h.listed index hbusy) (h.endpoint index) (h.active index) (h.closing index) ⟨?_, ?_, ?_⟩ hserving
  · intro socket hmem
    rcases List.mem_append.mp hmem with hmem | hmem
    · exact (htracks.tracked socket hmem).imp (List.mem_append_left _) (List.mem_append_left _)
    · obtain ⟨-, rfl⟩ := Event.accepted.inj (List.mem_singleton.mp hmem)
      exact .inl (List.mem_append_right _ (List.mem_singleton_self _))
  · intro socket hmem
    rcases List.mem_append.mp hmem with hmem | hmem
    · exact List.mem_append_left _ (htracks.owned socket hmem)
    · obtain rfl := List.mem_singleton.mp hmem
      exact List.mem_append_right _ (List.mem_singleton_self _)
  · intro socket hmem
    rcases List.mem_append.mp hmem with hmem | hmem
    · exact htracks.made socket hmem
    · obtain ⟨-, rfl⟩ := Event.accepted.inj (List.mem_singleton.mp hmem)
      exact hlast

/-- The destroyed connections are forgotten. -/
theorem Sound.forgets (h : Sound servers) (index : Nat) :
    Tracks servers index ((servers.server index).connections.filter fun socket => !servers.gone socket) where
  tracked socket hmem := by
    rcases (h.tracks index).tracked socket hmem with htracked | hgone
    · cases hnow : servers.gone socket with
      | true => exact .inr (h.gone socket ((h.tracks index).made socket hmem) hnow)
      | false =>
        refine .inl (List.mem_filter.mpr ⟨htracked, ?_⟩)
        rw [hnow]
        rfl
    · exact .inr hgone
  owned socket hmem := (h.tracks index).owned socket (List.mem_filter.mp hmem).1
  made := (h.tracks index).made

theorem Sound.settles (h : Sound servers) (rest : List Nat) : Sound (servers.settle index rest) := by
  unfold Servers.settle
  dsimp only
  split_ifs with hdone
  · obtain ⟨hclosing, hempty⟩ := hdone
    have hlt : index < servers.states.length := by
      apply lt_of_busy
      rw [Servers.busy, hclosing, Bool.or_true]
    have hinactive : (servers.server index).active = false := by
      by_contra hnot
      cases (h.apart (Bool.not_eq_false _ ▸ hnot)).symm.trans hclosing
    have hphase := h.closing index
    rw [hclosing, eq_comm, decide_eq_true_eq] at hphase
    have hnext : Event.next index (phase servers.log index) (.closed index) = .idle := if_pos rfl
    refine Sound.moves ?_ _
    refine h.changes hlt rfl h.nodup (fun other _ hbusy => h.listed other hbusy) (fun hnow => ?_) (fun hnow => ?_)
      ?_ ?_ ((h.forgets index).notes nofun) ⟨hphase, fun socket hmem => ?_⟩
    · rw [Bool.or_false] at hnow
      cases hinactive.symm.trans hnow
    · cases hinactive.symm.trans hnow
    · rw [hnext]
      exact hinactive
    · rw [hnext]
      rfl
    · refine ((h.forgets index).tracked socket hmem).resolve_left fun hmem => ?_
      rw [hempty] at hmem
      cases hmem
  · exact (@Sound.puts _ index h { servers.server index with
      connections := (servers.server index).connections.filter fun socket => !servers.gone socket } rfl rfl rfl
      (h.forgets index)).moves _

theorem not_listed (hbusy : ¬servers.busy index = true) : index ∉ servers.prune.list :=
  fun hmem => hbusy (List.mem_filter.mp hmem).2

/-- The list with a server that was not in it. -/
theorem Sound.grows (h : Sound servers) (hbusy : ¬servers.busy index = true) :
    (servers.prune.list ++ [index]).Nodup :=
  (List.perm_append_singleton index _).nodup_iff.mpr (List.nodup_cons.mpr ⟨not_listed hbusy, h.prunes.nodup⟩)

theorem Sound.closes (h : Sound servers) (hlt : index < servers.states.length) :
    Sound (Servers.called (servers.close index) (.closeCalled index)) := by
  unfold Servers.close
  split_ifs with hbusy
  · exact h.closesDown hlt (.inl rfl) h.nodup (h.listed index hbusy) h.listed
  · dsimp only
    split_ifs with hfull
    · exact h.prunes
    · exact h.prunes.closesDown hlt (.inl rfl) (h.grows hbusy) (List.mem_append_right _ (List.mem_singleton_self _))
        fun other hnow => List.mem_append_left _ (h.prunes.listed other hnow)

/-- `close` behind a failure of the endpoint returns. -/
theorem close_failed (hactive : (servers.server index).active = true) :
    (servers.note (.failed index)).close index = ((servers.note (.failed index)).closeDown index, true) := by
  have hbusy : (servers.note (.failed index)).busy index = true := busy_of_active hactive
  exact if_pos hbusy

theorem Sound.fails (h : Sound servers) (hactive : (servers.server index).active = true) :
    Sound ((servers.note (.failed index)).closeDown index) :=
  h.closesDown (lt_of_busy (busy_of_active hactive)) (.inr ⟨rfl, hactive⟩) h.nodup
    (h.listed index (busy_of_active hactive)) h.listed

theorem Sound.listens (h : Sound servers) (hlt : index < servers.states.length) (endpoint : Bool) :
    Sound (Servers.called (servers.listen index endpoint) (.listened index)) := by
  unfold Servers.listen
  dsimp only
  split_ifs with hbusy
  · exact h
  · exact h.prunes
  · exact h.prunes
  · exact h.prunes.listened hlt (Bool.not_eq_true _ ▸ hbusy) (not_listed hbusy)

/-- `close` returns unless it has to make room for the server and there is none. -/
theorem close_returns (servers : Servers) (index : Nat) :
    (servers.close index).2 = true ↔
      servers.busy index = true ∨ (servers.list.filter servers.busy).length < maxServers := by
  unfold Servers.close
  split_ifs with hbusy
  · exact ⟨fun _ => .inl hbusy, fun _ => rfl⟩
  · dsimp only
    split_ifs with hfull
    · refine ⟨nofun, fun hroom => absurd (hroom.resolve_left hbusy) ?_⟩
      exact Nat.not_lt.mpr hfull
    · exact ⟨fun _ => .inr (Nat.lt_of_not_le hfull), fun _ => rfl⟩

/-- `listen` returns on an idle server, if there is room and an endpoint. -/
theorem listen_returns (servers : Servers) (index : Nat) (endpoint : Bool) :
    (servers.listen index endpoint).2 = true ↔ servers.busy index = false ∧
      (servers.list.filter servers.busy).length < maxServers ∧ endpoint = true := by
  unfold Servers.listen
  dsimp only
  split_ifs with hbusy hfull hendpoint
  · exact ⟨nofun, fun h => absurd hbusy (Bool.eq_false_iff.mp h.1)⟩
  · exact ⟨nofun, fun h => absurd hfull (Nat.not_le.mpr h.2.1)⟩
  · exact ⟨nofun, fun h => by rw [h.2.2] at hendpoint; cases hendpoint⟩
  · exact ⟨fun _ => ⟨Bool.not_eq_true _ ▸ hbusy, Nat.lt_of_not_le hfull, by simpa using hendpoint⟩, fun _ => rfl⟩

/-! ## The poll -/

theorem Sound.visits (h : Sound servers) (rest : List Nat) (answer : Answer) : Sound (servers.visit rest answer) := by
  unfold Servers.visit
  split
  · exact h.prunes.moves _
  · rename_i index rest
    dsimp only
    by_cases hactive : (servers.server index).active = true
    · rw [if_neg (by rw [hactive]; decide), if_neg (by rw [h.endpoint index hactive]; decide),
        close_failed hactive]
      split_ifs
      · exact (h.fails hactive).moves _
      · exact (h.fails hactive).moves _
      · exact h.moves _
      · exact (@Sound.puts _ index h { servers.server index with listening := true } rfl rfl rfl
          (h.tracks index)).moves _
      · exact h.moves _
    · rw [if_pos (by rw [Bool.eq_false_iff.mpr hactive]; decide)]
      exact h.moves _

theorem Sound.rounds (h : Sound servers) (index left : Nat) (rest : List Nat) (answer : Answer) :
    Sound (servers.accept index left rest answer) := by
  unfold Servers.accept
  dsimp only
  split
  · exact h.moves _
  · rename_i left
    by_cases hactive : (servers.server index).active = true
    · rw [if_neg (by rw [hactive]; decide), if_neg (by rw [h.endpoint index hactive]; decide)]
      split
      · exact h.moves _
      · exact h.moves _
      · exact (h.accepts hactive).moves _
    · rw [if_pos (by rw [Bool.eq_false_iff.mpr hactive]; decide)]
      exact h.moves _

theorem Sound.advances (h : Sound servers) (answer : Answer) : Sound (servers.advance answer) := by
  unfold Servers.advance
  split
  · exact h.visits _ answer
  · exact h.rounds _ _ _ answer
  · exact h.settles _
  · exact h

theorem Sound.returns (h : Sound servers) : Sound servers.returned := by
  unfold Servers.returned
  split
  · exact h.moves _
  · exact h.moves _
  · exact h.moves _
  · exact h.moves _
  · exact h

theorem create_server (servers : Servers) :
    ({ servers with states := servers.states ++ [{}] } : Servers).server = servers.server := by
  funext index
  rw [Servers.server, Servers.server, List.getD_eq_getElem?_getD, List.getD_eq_getElem?_getD]
  rcases Nat.lt_trichotomy index servers.states.length with hlt | rfl | hgt
  · rw [List.getElem?_append_left hlt]
  · rw [List.getElem?_concat_length, List.getElem?_eq_none (Nat.le_refl _)]
    rfl
  · rw [List.getElem?_eq_none (Nat.le_of_lt hgt), List.getElem?_eq_none]
    rw [List.length_append]
    exact hgt

theorem Sound.creates (h : Sound servers) : Sound { servers with states := servers.states ++ [{}] } := by
  have hsame := create_server servers
  have hbusy : ({ servers with states := servers.states ++ [{}] } : Servers).busy = servers.busy := by
    funext index
    rw [Servers.busy, Servers.busy, hsame]
  refine ⟨h.nodup, ?_, ?_, ?_, ?_, ?_, h.gone, h.ended, h.fits, h.alive⟩
  · rw [hbusy]
    exact h.listed
  · rw [hsame]
    exact h.endpoint
  · rw [hsame]
    exact h.active
  · rw [hsame]
    exact h.closing
  · intro index
    rw [hsame]
    exact ⟨(h.tracks index).tracked, (h.tracks index).owned, (h.tracks index).made⟩

theorem Sound.steps (h : Sound servers) (action : Action) : Sound (servers.step action) := by
  unfold Servers.step
  rw [if_neg (by rw [h.alive]; decide)]
  cases action with
  | advance answer => exact h.advances answer
  | new =>
    dsimp only
    split_ifs
    · exact h
    · exact h.creates
  | listen index endpoint =>
    dsimp only
    split_ifs with hbusy hlt
    · exact h
    · exact h.listens hlt endpoint
    · exact h
  | close index =>
    dsimp only
    split_ifs with hbusy hlt
    · exact h
    · exact h.closes hlt
    · exact h
  | destroy socket =>
    dsimp only
    split_ifs with hbusy hlt
    · exact h
    · exact h.destroys hlt
    · exact h
  | poll =>
    dsimp only
    split_ifs
    · exact h
    · exact h.moves _
    · exact h
  | «return» =>
    dsimp only
    split_ifs
    · exact h
    · exact h.returns
  | raise =>
    dsimp only
    split_ifs
    · exact h
    · exact h.moves _

end Steps

/-! ## A poll to its end -/

namespace Servers

/-- The server closes, and its connections are destroyed. -/
def Due (servers : Servers) (index : Nat) : Prop :=
  (servers.server index).closing = true ∧ ∀ socket ∈ (servers.server index).connections, servers.gone socket = true

end Servers

/-- The poll has yet to come to the end of the server's turn. -/
def Point.Comes (index : Nat) : Point → Prop
  | .idle => False
  | .visiting rest => index ∈ rest
  | .erring current rest => index ∈ current :: rest
  | .listening current rest => index ∈ current :: rest
  | .accepting current _ rest => index ∈ current :: rest
  | .connecting current _ rest => index ∈ current :: rest
  | .settling current rest => index ∈ current :: rest
  | .closing _ rest => index ∈ rest

/-- Nothing raises through the poll. -/
def Action.calm : Action → Prop
  | .raise => False
  | .advance answer => answer.accept ≠ .failed ∧ (0 ≤ answer.status ∨ answer.errorListeners = true)
  | _ => True

section Ends

variable {servers : Servers} {index : Nat}

theorem close_log (servers : Servers) (index : Nat) : (servers.close index).1.log = servers.log := by
  unfold Servers.close
  dsimp only
  split_ifs <;> rfl

theorem listen_log (servers : Servers) (index : Nat) (endpoint : Bool) :
    (servers.listen index endpoint).1.log = servers.log := by
  unfold Servers.listen
  dsimp only
  split_ifs <;> rfl

/-- A call notes at most its event. -/
theorem called_log {result : Servers × Bool} (h : result.1.log = servers.log) (event : Event) :
    servers.log <+: (Servers.called result event).log := by
  unfold Servers.called
  split_ifs
  · exact h ▸ List.prefix_append _ _
  · exact h ▸ List.prefix_rfl

theorem advance_log (servers : Servers) (answer : Answer) : servers.log <+: (servers.advance answer).log := by
  unfold Servers.advance
  split
  · unfold Servers.visit
    split
    · exact List.prefix_rfl
    · have hclose : ∀ index, servers.log <+: ((servers.note (.failed index)).close index).1.log := by
        intro index
        rw [close_log]
        exact List.prefix_append _ _
      dsimp only
      split_ifs <;> first | exact List.prefix_rfl | exact hclose _
  · unfold Servers.accept
    dsimp only
    split
    · exact List.prefix_rfl
    · split_ifs
      · exact List.prefix_rfl
      · exact List.prefix_rfl
      · split
        · exact List.prefix_rfl
        · exact List.prefix_rfl
        · exact List.prefix_append _ _
  · unfold Servers.settle
    dsimp only
    split_ifs
    · exact List.prefix_append _ _
    · exact List.prefix_rfl
  · exact List.prefix_rfl

theorem returned_log (servers : Servers) : servers.returned.log = servers.log := by
  unfold Servers.returned
  split <;> rfl

/-- No event is taken back. -/
theorem step_log (servers : Servers) (action : Action) : servers.log <+: (servers.step action).log := by
  unfold Servers.step
  split
  · exact List.prefix_rfl
  · cases action with
    | advance answer => exact advance_log servers answer
    | new =>
      dsimp only
      split_ifs <;> exact List.prefix_rfl
    | listen index endpoint =>
      dsimp only
      split_ifs
      · exact List.prefix_rfl
      · exact called_log (listen_log servers index endpoint) _
      · exact List.prefix_rfl
    | close index =>
      dsimp only
      split_ifs
      · exact List.prefix_rfl
      · exact called_log (close_log servers index) _
      · exact List.prefix_rfl
    | destroy socket =>
      dsimp only
      split_ifs
      · exact List.prefix_rfl
      · exact List.prefix_append _ _
      · exact List.prefix_rfl
    | poll =>
      dsimp only
      split_ifs <;> exact List.prefix_rfl
    | «return» =>
      dsimp only
      split_ifs
      · exact List.prefix_rfl
      · exact returned_log servers ▸ List.prefix_rfl
    | raise =>
      dsimp only
      split_ifs <;> exact List.prefix_rfl

theorem Servers.Due.busy (h : servers.Due index) : servers.busy index = true := by
  rw [Servers.busy, h.1, Bool.or_true]

theorem Servers.Due.puts_other (h : servers.Due index) {current : Nat} (hne : current ≠ index) (server : ServerState) :
    (servers.put current server).Due index := by
  unfold Servers.Due
  rw [server_put, if_neg fun hboth => hne hboth.1]
  exact h

theorem Servers.Due.closesDown (h : servers.Due index) (current : Nat) : (servers.closeDown current).Due index := by
  by_cases hsame : current = index
  · subst hsame
    have hread : (servers.closeDown current).server current =
        { servers.server current with active := false, listening := false, closing := true } :=
      (server_put _ _ _ _).trans (if_pos ⟨rfl, lt_of_busy h.busy⟩)
    unfold Servers.Due
    rw [hread]
    exact ⟨rfl, h.2⟩
  · exact h.puts_other hsame _

theorem Servers.Due.closes (h : servers.Due index) (current : Nat) : (servers.close current).1.Due index := by
  unfold Servers.close
  dsimp only
  split_ifs
  · exact h.closesDown current
  · exact h
  · exact @Servers.Due.closesDown { servers.prune with list := servers.prune.list ++ [current] } index h current

theorem Servers.Due.listens (h : servers.Due index) (current : Nat) (endpoint : Bool) :
    (servers.listen current endpoint).1.Due index := by
  unfold Servers.listen
  dsimp only
  split_ifs with hbusy
  · exact h
  · exact h
  · exact h
  · have hne : current ≠ index := fun hsame => hbusy (hsame ▸ h.busy)
    exact h.puts_other hne _

theorem Servers.Due.called {result : Servers × Bool} (h : result.1.Due index) (event : Event) :
    (Servers.called result event).Due index := by
  unfold Servers.called
  split_ifs
  · exact h
  · exact h

theorem gone_destroy (servers : Servers) (socket : Nat) {other : Nat} (h : servers.gone other = true) :
    (servers.destroy socket).gone other = true := by
  change (servers.sockets.set socket true).getD other true = true
  rw [Servers.gone, List.getD_eq_getElem?_getD] at h
  rw [List.getD_eq_getElem?_getD, List.getElem?_set]
  split_ifs
  · rfl
  · rfl
  · exact h

theorem Servers.Due.destroys (h : servers.Due index) (socket : Nat) : (servers.destroy socket).Due index :=
  ⟨h.1, fun other hmem => gone_destroy servers socket (h.2 other hmem)⟩

theorem Servers.Due.opens (h : servers.Due index) (hmade : ∀ socket ∈ (servers.server index).connections,
    socket < servers.sockets.length) : ({ servers with sockets := servers.sockets ++ [false] } : Servers).Due index := by
  exact ⟨h.1, fun socket hmem => (gone_open servers (hmade socket hmem)).trans (h.2 socket hmem)⟩

/-- `close` of the server was emitted, or the poll comes to it. -/
def Servers.Ends (servers : Servers) (index before : Nat) : Prop :=
  before < servers.log.count (.closed index) ∨ servers.Due index ∧ servers.point.Comes index

theorem Sound.visits_due (h : Sound servers) {rest : List Nat} {answer : Answer} (hdue : servers.Due index)
    (hcomes : index ∈ rest) (hcalm : 0 ≤ answer.status ∨ answer.errorListeners = true) :
    (servers.visit rest answer).Due index ∧ (servers.visit rest answer).point.Comes index := by
  obtain ⟨current, rest, rfl⟩ := List.exists_cons_of_ne_nil (List.ne_nil_of_mem hcomes)
  unfold Servers.visit
  dsimp only
  by_cases hactive : (servers.server current).active = true
  · have hne : current ≠ index := by
      rintro rfl
      cases (h.apart hactive).symm.trans hdue.1
    have hrest : index ∈ rest := (List.mem_cons.mp hcomes).resolve_left (Ne.symm hne)
    rw [if_neg (by rw [hactive]; decide), if_neg (by rw [h.endpoint current hactive]; decide),
      close_failed hactive]
    split_ifs with hlow hsilent
    · rcases hcalm with hcalm | hcalm
      · omega
      · rw [hcalm] at hsilent
        cases hsilent
    · exact ⟨hdue.closesDown current, hcomes⟩
    · exact ⟨hdue, hcomes⟩
    · exact ⟨hdue.puts_other hne _, hcomes⟩
    · exact ⟨hdue, hcomes⟩
  · rw [if_pos (by rw [Bool.eq_false_iff.mpr hactive]; decide)]
    exact ⟨hdue, hcomes⟩

theorem Sound.rounds_due (h : Sound servers) {current left : Nat} {rest : List Nat} {answer : Answer}
    (hdue : servers.Due index) (hcomes : index ∈ current :: rest) (hcalm : answer.accept ≠ .failed) :
    (servers.accept current left rest answer).Due index ∧
      (servers.accept current left rest answer).point.Comes index := by
  unfold Servers.accept
  dsimp only
  split
  · exact ⟨hdue, hcomes⟩
  · by_cases hactive : (servers.server current).active = true
    · have hne : current ≠ index := by
        rintro rfl
        cases (h.apart hactive).symm.trans hdue.1
      rw [if_neg (by rw [hactive]; decide), if_neg (by rw [h.endpoint current hactive]; decide)]
      split
      · exact absurd ‹_› hcalm
      · exact ⟨hdue, hcomes⟩
      · have hmade := fun socket hmem => (h.tracks index).made socket ((h.tracks index).owned socket hmem)
        exact ⟨(hdue.opens hmade).puts_other hne _, hcomes⟩
    · rw [if_pos (by rw [Bool.eq_false_iff.mpr hactive]; decide)]
      exact ⟨hdue, hcomes⟩

theorem settles_ends {current : Nat} {rest : List Nat} (hdue : servers.Due index) (hcomes : index ∈ current :: rest) :
    (servers.settle current rest).Ends index (servers.log.count (.closed index)) := by
  by_cases hsame : current = index
  · subst hsame
    have hempty : (servers.server current).connections.filter (fun socket => !servers.gone socket) = [] := by
      refine List.filter_eq_nil_iff.mpr fun socket hmem => ?_
      rw [hdue.2 socket hmem]
      decide
    unfold Servers.settle
    rw [if_pos ⟨hdue.1, hempty⟩]
    left
    change _ < List.count _ (_ ++ [Event.closed current])
    rw [List.count_append, List.count_singleton_self]
    exact Nat.lt_succ_self _
  · have hrest := (List.mem_cons.mp hcomes).resolve_left (Ne.symm hsame)
    unfold Servers.settle
    dsimp only
    split_ifs
    · exact .inr ⟨hdue.puts_other hsame _, hrest⟩
    · exact .inr ⟨hdue.puts_other hsame _, hrest⟩

theorem Sound.advances_ends (h : Sound servers) {answer : Answer} (hdue : servers.Due index)
    (hcomes : servers.point.Comes index) (hcalm : Action.calm (.advance answer)) :
    (servers.advance answer).Ends index (servers.log.count (.closed index)) := by
  unfold Servers.advance
  split
  · rename_i hpoint
    rw [hpoint] at hcomes
    exact .inr (h.visits_due hdue hcomes hcalm.2)
  · rename_i hpoint
    rw [hpoint] at hcomes
    exact .inr (h.rounds_due hdue hcomes hcalm.1)
  · rename_i hpoint
    rw [hpoint] at hcomes
    exact settles_ends hdue hcomes
  · exact .inr ⟨hdue, hcomes⟩

theorem returned_comes (hdue : servers.Due index) (hcomes : servers.point.Comes index) :
    servers.returned.Due index ∧ servers.returned.point.Comes index := by
  unfold Servers.returned
  split
  all_goals
    rename_i hpoint
    first
      | exact ⟨hdue, hcomes⟩
      | rw [hpoint] at hcomes
        exact ⟨hdue, hcomes⟩

theorem close_point (servers : Servers) (index : Nat) : (servers.close index).1.point = servers.point := by
  unfold Servers.close
  dsimp only
  split_ifs <;> rfl

theorem listen_point (servers : Servers) (index : Nat) (endpoint : Bool) :
    (servers.listen index endpoint).1.point = servers.point := by
  unfold Servers.listen
  dsimp only
  split_ifs <;> rfl

theorem called_point (result : Servers × Bool) (event : Event) :
    (Servers.called result event).point = result.1.point := by
  unfold Servers.called
  split_ifs <;> rfl

theorem create_due (hdue : servers.Due index) : ({ servers with states := servers.states ++ [{}] } : Servers).Due index := by
  unfold Servers.Due
  rw [create_server]
  exact hdue

theorem Servers.Ends.later {before after : Nat} (h : servers.Ends index after) (hle : before ≤ after) :
    servers.Ends index before :=
  h.imp_left fun hdone => Nat.lt_of_le_of_lt hle hdone

/-- A step that raises nothing leaves the poll on the way to the end of the server's turn. -/
theorem Sound.ends (h : Sound servers) {before : Nat} (hle : before ≤ servers.log.count (.closed index))
    (hends : servers.Ends index before) {action : Action} (hcalm : action.calm) :
    (servers.step action).Ends index before := by
  rcases hends with hdone | ⟨hdue, hcomes⟩
  · exact .inl (Nat.lt_of_lt_of_le hdone ((step_log servers action).sublist.count_le _))
  unfold Servers.step
  rw [if_neg (by rw [h.alive]; decide)]
  cases action with
  | advance answer => exact (h.advances_ends hdue hcomes hcalm).later hle
  | raise => exact absurd hcalm id
  | poll =>
    dsimp only
    split_ifs with hlistener hidle
    · exact .inr ⟨hdue, hcomes⟩
    · rw [hidle] at hcomes
      exact absurd hcomes id
    · exact .inr ⟨hdue, hcomes⟩
  | «return» =>
    dsimp only
    split_ifs
    · exact .inr ⟨hdue, hcomes⟩
    · exact .inr (returned_comes hdue hcomes)
  | new =>
    dsimp only
    split_ifs
    · exact .inr ⟨hdue, hcomes⟩
    · exact .inr ⟨create_due hdue, hcomes⟩
  | listen current endpoint =>
    dsimp only
    split_ifs
    · exact .inr ⟨hdue, hcomes⟩
    · refine .inr ⟨(hdue.listens current endpoint).called _, ?_⟩
      rw [called_point, listen_point]
      exact hcomes
    · exact .inr ⟨hdue, hcomes⟩
  | close current =>
    dsimp only
    split_ifs
    · exact .inr ⟨hdue, hcomes⟩
    · refine .inr ⟨(hdue.closes current).called _, ?_⟩
      rw [called_point, close_point]
      exact hcomes
    · exact .inr ⟨hdue, hcomes⟩
  | destroy socket =>
    dsimp only
    split_ifs
    · exact .inr ⟨hdue, hcomes⟩
    · exact .inr ⟨hdue.destroys socket, hcomes⟩
    · exact .inr ⟨hdue, hcomes⟩

end Ends

theorem sound_new : Sound {} where
  nodup := List.nodup_nil
  listed _ hbusy := by cases hbusy
  endpoint _ hactive := by cases hactive
  active _ := rfl
  closing _ := rfl
  tracks _ := ⟨fun _ hmem => absurd hmem List.not_mem_nil, fun _ hmem => absurd hmem List.not_mem_nil,
    fun _ hmem => absurd hmem List.not_mem_nil⟩
  gone _ hlt := absurd hlt (Nat.not_lt_zero _)
  ended _ hmem := absurd hmem List.not_mem_nil
  fits past event hfront :=
    absurd (List.prefix_nil.mp hfront) (List.append_ne_nil_of_right_ne_nil _ (List.cons_ne_nil _ _))
  alive := rfl

theorem sound_run (actions : List Action) : Sound (run Servers.step {} actions) :=
  run_preserves (fun _ action h => h.steps action) sound_new actions

theorem Sound.runs_ends {servers : Servers} (h : Sound servers) {index before : Nat}
    (hle : before ≤ servers.log.count (.closed index)) (hends : servers.Ends index before) {actions : List Action}
    (hcalm : ∀ action ∈ actions, action.calm) : (run Servers.step servers actions).Ends index before := by
  induction actions generalizing servers with
  | nil => exact hends
  | cons action actions ih =>
    obtain ⟨hfirst, hcalm⟩ := List.forall_mem_cons.mp hcalm
    have hmore := (step_log servers action).sublist.count_le (.closed index)
    exact ih (h.steps action) (Nat.le_trans hle hmore) (h.ends hle hends hfirst) hcalm

/-- By the events, the server closes and its connections are destroyed. -/
theorem Sound.due {servers : Servers} (h : Sound servers) {index : Nat} (hclosing : phase servers.log index = .closing)
    (hdestroyed : ∀ socket, .accepted index socket ∈ servers.log → .destroyed socket ∈ servers.log) :
    servers.Due index := by
  refine ⟨?_, fun socket hmem => ?_⟩
  · rw [h.closing, hclosing]
    rfl
  · have haccepted := (h.tracks index).owned socket hmem
    exact (h.ended socket (hdestroyed socket haccepted)).2

/-- A poll that nothing raises through emits `close` for a server that was due when it began. -/
theorem poll_closes {servers : Servers} (h : Sound servers) {index : Nat} (hidle : servers.point = .idle)
    (hdue : servers.Due index) {actions : List Action} (hcalm : ∀ action ∈ actions, action.calm)
    (hend : (run Servers.step servers (.poll :: actions)).point = .idle) :
    servers.log.count (.closed index) < (run Servers.step servers (.poll :: actions)).log.count (.closed index) := by
  have hstart : servers.step .poll = { servers with point := .visiting servers.list } := by
    unfold Servers.step
    rw [if_neg (by rw [h.alive]; decide)]
    dsimp only
    rw [hidle]
    rfl
  have hcomes : Point.Comes index (.visiting servers.list) := h.listed index hdue.busy
  rw [run_cons, hstart] at hend ⊢
  rcases (h.moves (.visiting servers.list)).runs_ends (Nat.le_refl _) (.inr ⟨hdue, hcomes⟩) hcalm with hdone | hnow
  · exact hdone
  · have hcomes := hnow.2
    rw [hend] at hcomes
    exact absurd hcomes id

/-- Servers over every run of the program and of the poll: an accepted connection is tracked until it
is destroyed; a server serves and closes as the calls that returned say, and these return where there
is room; behind a `close` it accepts no more; `close` is emitted once in each phase of closing, when the
connections are destroyed, and by the next poll that is not cut short; a server is listed once, until
its `close` was emitted. -/
theorem servers_close (actions : List Action) :
    let servers := run Servers.step {} actions
    (∀ index socket, .accepted index socket ∈ servers.log →
      socket ∈ (servers.server index).connections ∨ .destroyed socket ∈ servers.log) ∧
    (∀ past event, past ++ [event] <+: servers.log → Fits past event) ∧
    (∀ index, ((servers.server index).active = true ↔ phase servers.log index = .serving) ∧
      ((servers.server index).closing = true ↔ phase servers.log index = .closing)) ∧
    (∀ index, (servers.close index).2 = true ↔ phase servers.log index ≠ .idle ∨
      (servers.list.filter fun other => phase servers.log other ≠ .idle).length < maxServers) ∧
    (∀ index endpoint, (servers.listen index endpoint).2 = true ↔ phase servers.log index = .idle ∧
      (servers.list.filter fun other => phase servers.log other ≠ .idle).length < maxServers ∧ endpoint = true) ∧
    (∀ index, servers.point = .idle → phase servers.log index = .closing →
      (∀ socket, .accepted index socket ∈ servers.log → .destroyed socket ∈ servers.log) →
      ∀ later, (∀ action ∈ later, action.calm) → (run Servers.step servers (.poll :: later)).point = .idle →
      servers.log.count (.closed index) < (run Servers.step servers (.poll :: later)).log.count (.closed index)) ∧
    servers.list.Nodup ∧
    (∀ index, phase servers.log index ≠ .idle → index ∈ servers.list) ∧
    servers.aborted = false := by
  intro servers
  have h : Sound servers := sound_run actions
  have hbusy : (fun other => decide (phase servers.log other ≠ .idle)) = servers.busy := by
    funext other
    exact Bool.eq_iff_iff.mpr (decide_eq_true_iff.trans (h.busy_iff other).symm)
  refine ⟨fun index => (h.tracks index).tracked, h.fits, fun index => ⟨?_, ?_⟩, fun index => ?_,
    fun index endpoint => ?_, ?_, h.nodup, fun index hphase => h.listed index ((h.busy_iff index).mpr hphase), h.alive⟩
  · rw [h.active, decide_eq_true_eq]
  · rw [h.closing, decide_eq_true_eq]
  · rw [hbusy, ← h.busy_iff]
    exact close_returns servers index
  · have hidle : phase servers.log index = .idle ↔ servers.busy index = false := by
      rw [Bool.eq_false_iff, Ne, h.busy_iff, not_not]
    rw [hbusy, hidle]
    exact listen_returns servers index endpoint
  · intro index hidle hclosing hdestroyed later hcalm hend
    exact poll_closes h hidle (h.due hclosing hdestroyed) hcalm hend

end TsonicNode.Net.Listening
