import TsonicNode.Http.Framing
import TsonicNode.Http.Parsing

/-!
# The connections of a server

`poll_connections` reads the pending requests, hands those that are complete to
their handlers, and polls the pending responses. A connection is its number;
`_requests` and `_responses` are lists of these. While a handler runs, the poll
stands at `calling`, and what the handler does are ordinary actions; between
the polls other code may do the same. The transport of an HTTPS server is a TLS
socket, which its own polls may close. `Kept` is the invariant: which lists hold
a connection, and that one in none of them is closed.
-/

namespace TsonicNode.Http

open TsonicNode.Lib TsonicNode.Lib.Http

variable {L : Llhttp}

structure RequestParser (L : Llhttp) where
  handle : HttpRequestParser L := {}
  complete : Bool := false

structure IncomingMessage where
  method : Bytes
  url : Bytes
  body : Bytes

namespace RequestParser

/-- `feed`, and whether the request is complete. -/
def feed (parser : RequestParser L) (bytes : Bytes) : RequestParser L × Except Error Bool :=
  match Http.feed parser.handle bytes with
  | (handle, status) =>
    if status < 0 then ({ parser with handle }, .error ⟨"Invalid HTTP request"⟩)
    else ({ handle, complete := status == 1 }, .ok (status == 1))

def message (parser : RequestParser L) : Except Error IncomingMessage :=
  if !parser.complete then .error ⟨"HTTP request is not complete"⟩
  else .ok ⟨L.method parser.handle.parser, parser.handle.url, parser.handle.body⟩

end RequestParser

/-- What `read_into` is answered; no bytes are the end of the stream. -/
inductive ReadAnswer where
  | again
  | failed
  | data (bytes : Bytes)

/-- The request and the response of a connection share its transport, which stands in the
response. `reads` are the answers to come. -/
structure Connection (L : Llhttp) where
  /-- The transport is a TLS socket. -/
  tls : Bool := false
  parser : RequestParser L := {}
  reads : List ReadAnswer := []
  response : ResponseState

/-- `read_into`. A closed transport has no more bytes, or fails. -/
def Connection.readInto (connection : Connection L) : ReadAnswer :=
  if connection.response.transport.closed then .failed else connection.reads.headD .again

/-- The program point of `poll_connections`, with the requests it has swapped out and not read. -/
inductive Control where
  | idle
  /-- Inside the call of a handler. -/
  | calling (connection : Nat) (rest : List Nat)
  deriving DecidableEq

structure Server (L : Llhttp) where
  connections : List (Connection L) := []
  /-- `_requests`. -/
  requests : List Nat := []
  /-- `_responses`. -/
  responses : List Nat := []
  control : Control := .idle
  /-- `did_work`, of the poll in progress or the last one. -/
  didWork : Bool := false
  /-- The handlers called, by their connections. -/
  dispatched : List Nat := []
  /-- The responses used since the last poll that returned. -/
  used : List Nat := []
  /-- The TLS sockets closed outside of the HTTP code since a poll last came to them. -/
  strayed : List Nat := []

def maxPending : Nat := 1048576

namespace Server

/-- No other number is a connection. -/
def connection (server : Server L) (index : Nat) : Connection L :=
  server.connections.getD index { response := { transport := { isOpen := false } } }

def put (server : Server L) (index : Nat) (connection : Connection L) : Server L :=
  { server with connections := server.connections.set index connection }

def closed (server : Server L) (index : Nat) : Bool := (server.connection index).response.transport.closed

def tls (server : Server L) (index : Nat) : Bool := (server.connection index).tls

def close (server : Server L) (index : Nat) : Server L :=
  let connection := server.connection index
  server.put index
    { connection with response := { connection.response with transport := connection.response.transport.close } }

/-- A poll comes to a connection. -/
def reach (server : Server L) (index : Nat) : Server L :=
  { server with strayed := server.strayed.filter (· != index) }

/-- `accept_connection`; too many are refused. -/
def accept (server : Server L) (tls : Bool) (reads : List ReadAnswer) (answers : List TransportAnswer) : Server L :=
  let index := server.connections.length
  let connection : Connection L := { tls, reads, response := { transport := { answers } } }
  let server := { server with connections := server.connections ++ [connection] }
  if maxPending ≤ server.requests.length + server.responses.length then server.close index
  else { server with requests := server.requests ++ [index] }

/-- The loop over the responses that were swapped out. -/
def pollResponses : List Nat → Server L → Server L
  | [], server => server
  | index :: rest, server =>
    let connection := server.connection index
    let server := server.reach index
    match poll connection.response with
    | .ok progress response =>
      let server := { server.put index { connection with response } with didWork := server.didWork || progress }
      if response.transport.closed then pollResponses rest server
      else pollResponses rest { server with responses := server.responses ++ [index] }
    | .error _ response =>
      let response := finalState (destroy response)
      pollResponses rest { server.put index { connection with response } with didWork := true }

/-- Behind the requests: the poll returns when it has polled the responses. -/
def finishPoll (server : Server L) : Server L :=
  { pollResponses server.responses { server with responses := [] } with control := .idle, used := [] }

/-- What the poll does on an error of a handler, which it raises. -/
def abandon (server : Server L) (index : Nat) (rest : List Nat) : Server L :=
  { server.close index with requests := server.requests ++ rest, control := .idle }

/-- The request is complete: its handler is called. -/
def dispatch (server : Server L) (index : Nat) (rest : List Nat) : Server L :=
  let connection := server.connection index
  match connection.parser.message with
  | .error _ => server.abandon index rest
  | .ok message =>
    let response : ResponseState :=
      { transport := connection.response.transport, headRequest := message.method == ascii "HEAD" }
    { server.put index { connection with response } with
      control := .calling index rest, dispatched := server.dispatched ++ [index] }

/-- The loop over the requests, up to the next call of a handler or the end of the poll. -/
def pollRequests : List Nat → Server L → Server L
  | [], server => server.finishPoll
  | index :: rest, server =>
    let connection := server.connection index
    let server := (server.put index { connection with reads := connection.reads.tail }).reach index
    match connection.readInto with
    | .again => pollRequests rest { server with requests := server.requests ++ [index] }
    | .failed => pollRequests rest { server.close index with didWork := true }
    | .data [] => pollRequests rest { server.close index with didWork := true }
    | .data bytes =>
      match connection.parser.feed (bytes.take 65536) with
      | (parser, .error _) =>
        let server := server.put index { connection with parser, reads := connection.reads.tail }
        pollRequests rest { server.close index with didWork := true }
      | (parser, .ok complete) =>
        let server := server.put index { connection with parser, reads := connection.reads.tail }
        let server := { server with didWork := true }
        if complete then server.dispatch index rest
        else pollRequests rest { server with requests := server.requests ++ [index] }

/-- `poll_connections`. -/
def pollConnections (server : Server L) : Server L :=
  pollRequests server.requests { server with requests := [], didWork := false }

/-- The handler returns. -/
def handled (server : Server L) : Server L :=
  match server.control with
  | .idle => server
  | .calling index rest =>
    if server.closed index then pollRequests rest server
    else pollRequests rest { server with responses := server.responses ++ [index] }

/-- The handler raises. -/
def raised (server : Server L) : Server L :=
  match server.control with
  | .idle => server
  | .calling index rest => server.abandon index rest

end Server

/-- A call of a `ServerResponse`. -/
inductive ResponseCall where
  | perform (call : Call)
  | endBuffer (value : Bytes)
  | destroy

def ResponseCall.run (casing : Casing) : ResponseCall → Method Unit
  | .perform call => Http.perform casing call
  | .endBuffer value => Http.endBuffer casing value
  | .destroy => Http.destroy

inductive Action where
  | accept (tls : Bool) (reads : List ReadAnswer) (answers : List TransportAnswer)
  /-- The event loop polls, when no handler runs. -/
  | poll
  /-- The response of a connection, once a handler was given it. -/
  | use (connection : Nat) (call : ResponseCall)
  | return
  | raise
  /-- A TLS socket is closed outside of the HTTP code: by its peer, by an error, by other code. -/
  | shut (connection : Nat)

def Server.step (casing : Casing) (server : Server L) : Action → Server L
  | .accept tls reads answers => server.accept tls reads answers
  | .poll => if server.control = .idle then server.pollConnections else server
  | .use index call =>
    if index ∈ server.dispatched then
      let connection := server.connection index
      { server.put index { connection with response := finalState (call.run casing connection.response) } with
        used := server.used ++ [index] }
    else server
  | .return => server.handled
  | .raise => server.raised
  | .shut index =>
    if server.tls index ∧ server.closed index = false then
      { server.close index with strayed := server.strayed ++ [index] }
    else server

/-! ## Transports stay closed -/

/-- A method leaves a closed transport closed. -/
def StaysClosed {α : Type} (method : Method α) : Prop :=
  ∀ response : ResponseState, response.transport.closed = true →
    wp method (fun _ response' => response'.transport.closed = true)
      (fun _ response' => response'.transport.closed = true) response

theorem StaysClosed.final {α : Type} {method : Method α} (h : StaysClosed method) {response : ResponseState}
    (hclosed : response.transport.closed = true) : (finalState (method response)).transport.closed = true :=
  wp_final (h response hclosed)

theorem destroy_closes (response : ResponseState) : (finalState (destroy response)).transport.closed = true := rfl

theorem staysClosed_poll : StaysClosed poll := by
  intro response hclosed
  simp only [poll, wp_bind, wp_get, hclosed, Bool.or_true, if_true]
  exact hclosed

theorem staysClosed_append (bytes : Bytes) : StaysClosed (append bytes) := by
  intro response hclosed
  simp only [append, wp_bind, wp_get, wp_ite, wp_throw, wp_modify]
  split_ifs <;> exact hclosed

theorem staysClosed_finish (casing : Casing) (value : Bytes) : StaysClosed (finish casing value) := by
  intro response hclosed
  unfold finish
  rw [wp_bind]
  refine wp_mono (staysClosed_append value response hclosed) (fun _ appended happended => ?_) fun _ _ h => h
  rw [wp_bind, wp_get]
  cases headResult casing appended with
  | error error => exact happended
  | ok head =>
    simp only [wp_bind, wp_modify, wp_pure]
    exact staysClosed_poll _ happended

theorem staysClosed_run (casing : Casing) (call : ResponseCall) : StaysClosed (call.run casing) := by
  intro response hclosed
  cases call with
  | perform call =>
    cases call with
    | setHeader name value =>
      simp only [ResponseCall.run, perform, setHeader, requireUnsent, checkToken, checkHeaderValue, wp_bind, wp_get,
        wp_ite, wp_throw, wp_pure, wp_modify]
      split_ifs <;> exact hclosed
    | setStatusCode value => exact hclosed
    | writeHead statusCode statusMessage =>
      simp only [ResponseCall.run, perform, writeHead, requireUnsent, checkHeaderValue, setStatusCode, wp_bind, wp_get,
        wp_ite, wp_throw, wp_pure, wp_modify]
      split_ifs <;> exact hclosed
    | writeBuffer value =>
      simp only [ResponseCall.run, perform, writeBuffer, wp_bind, wp_pure]
      exact staysClosed_append value response hclosed
  | endBuffer value => exact staysClosed_finish casing value response hclosed
  | destroy => exact destroy_closes response

/-! ## Where the connections are -/

/-- The connections by where they are: `waiting` to be read, `retained` with a response, or at the
handler that is `current`. One that is nowhere is closed. -/
structure Kept (server : Server L) (waiting retained : List Nat) (current : Option Nat) : Prop where
  once : (waiting ++ retained ++ current.toList).Nodup
  whole : ∀ index < server.connections.length,
    index ∈ waiting ∨ index ∈ retained ∨ index ∈ current ∨ server.closed index = true
  fresh : ∀ index ∈ waiting, index < server.connections.length ∧ index ∉ server.dispatched
  answered : ∀ index ∈ retained, index ∈ server.dispatched
  called : ∀ index ∈ current, index ∈ server.dispatched
  dispatched : server.dispatched.Nodup
  bound : ∀ index ∈ server.dispatched, index < server.connections.length
  pending : ∀ index ∈ waiting, server.closed index = true → index ∈ server.strayed
  used : ∀ index ∈ retained, server.closed index = true → index ∈ server.used ∨ index ∈ server.strayed
  strayed : ∀ index ∈ server.strayed, server.tls index = true

/-- Two servers with the same transports, of which the same were called, used and closed outside. -/
structure Alike (server server' : Server L) : Prop where
  closed : ∀ index, server'.closed index = server.closed index
  tls : ∀ index, server'.tls index = server.tls index
  length : server'.connections.length = server.connections.length
  dispatched : server'.dispatched = server.dispatched
  used : server'.used = server.used
  strayed : server'.strayed = server.strayed

section Kept

variable {server : Server L} {index : Nat} {rest waiting retained : List Nat} {current : Option Nat}

theorem connection_put (server : Server L) (index : Nat) (connection : Connection L) (index' : Nat) :
    (server.put index connection).connection index' =
      if index = index' ∧ index < server.connections.length then connection else server.connection index' := by
  simp only [Server.put, Server.connection, List.getD_eq_getElem?_getD, List.getElem?_set]
  split_ifs with hsame hlt hboth hboth
  · rfl
  · exact absurd ⟨hsame, hlt⟩ hboth
  · exact absurd hboth.2 hlt
  · rw [← hsame, List.getElem?_eq_none (Nat.le_of_not_lt hlt)]
  · exact absurd ‹_ ∧ _›.1 hsame
  · rfl

theorem closed_put (server : Server L) (index : Nat) (connection : Connection L) (index' : Nat) :
    (server.put index connection).closed index' =
      if index = index' ∧ index < server.connections.length then connection.response.transport.closed
      else server.closed index' := by
  rw [Server.closed, connection_put]
  split_ifs <;> rfl

theorem tls_put (server : Server L) (index : Nat) {connection : Connection L} (h : connection.tls = server.tls index)
    (index' : Nat) : (server.put index connection).tls index' = server.tls index' := by
  rw [Server.tls, connection_put]
  split_ifs with hboth
  · rw [h, hboth.1]
  · rfl

theorem put_length (server : Server L) (index : Nat) (connection : Connection L) :
    (server.put index connection).connections.length = server.connections.length := List.length_set

theorem closed_close (server : Server L) (index index' : Nat) :
    (server.close index).closed index' = (decide (index = index') || server.closed index') := by
  rw [Server.close, closed_put]
  by_cases hsame : index = index'
  · subst hsame
    split_ifs with hlt
    · simp only [decide_true, Bool.true_or]
      rfl
    · have hout : server.closed index = true := by
        rw [Server.closed, Server.connection, List.getD_eq_getElem?_getD,
          List.getElem?_eq_none (Nat.le_of_not_lt fun hin => hlt ⟨rfl, hin⟩)]
        rfl
      rw [hout, Bool.or_true]
  · rw [if_neg fun hboth => hsame hboth.1, decide_eq_false hsame, Bool.false_or]

theorem tls_close (server : Server L) (index index' : Nat) : (server.close index).tls index' = server.tls index' := by
  refine tls_put server index ?_ index'
  rfl

/-- A connection may change as long as its transport does not. -/
theorem same_put (server : Server L) (index : Nat) {connection : Connection L}
    (hresponse : connection.response = (server.connection index).response) (htls : connection.tls = server.tls index) :
    Alike server (server.put index connection) where
  closed index' := by
    rw [closed_put]
    split_ifs with hboth
    · rw [hresponse, ← hboth.1]
      rfl
    · rfl
  tls := tls_put server index htls
  length := put_length _ _ _
  dispatched := rfl
  used := rfl
  strayed := rfl

theorem Kept.same (h : Kept server waiting retained current) {server' : Server L} (hsame : Alike server server') :
    Kept server' waiting retained current where
  once := h.once
  whole index hindex := by
    rw [hsame.closed]
    exact h.whole index (hsame.length ▸ hindex)
  fresh := by
    rw [hsame.length, hsame.dispatched]
    exact h.fresh
  answered := hsame.dispatched ▸ h.answered
  called := hsame.dispatched ▸ h.called
  dispatched := hsame.dispatched ▸ h.dispatched
  bound := by
    rw [hsame.dispatched, hsame.length]
    exact h.bound
  pending := by
    simp only [hsame.closed, hsame.strayed]
    exact h.pending
  used := by
    simp only [hsame.closed, hsame.used, hsame.strayed]
    exact h.used
  strayed := by
    simp only [hsame.strayed, hsame.tls]
    exact h.strayed

/-- The order of the lists does not matter. -/
theorem Kept.perm (h : Kept server waiting retained current) {waiting' retained' : List Nat}
    (hwaiting : List.Perm waiting' waiting) (hretained : List.Perm retained' retained) :
    Kept server waiting' retained' current where
  once := ((hwaiting.append hretained).append_right _).nodup_iff.mpr h.once
  whole index hindex := by
    rw [hwaiting.mem_iff, hretained.mem_iff]
    exact h.whole index hindex
  fresh index hindex := h.fresh index (hwaiting.subset hindex)
  answered index hindex := h.answered index (hretained.subset hindex)
  called := h.called
  dispatched := h.dispatched
  bound := h.bound
  pending index hindex := h.pending index (hwaiting.subset hindex)
  used index hindex := h.used index (hretained.subset hindex)
  strayed := h.strayed

/-- The poll comes to a connection that is not in the lists any more, or is open. -/
theorem Kept.reaches (h : Kept server waiting retained current)
    (hopen : index ∈ waiting ∨ index ∈ retained → server.closed index = false) :
    Kept (server.reach index) waiting retained current := by
  have hkept : ∀ other, other ∈ waiting ∨ other ∈ retained → server.closed other = true →
      other ∈ server.strayed → other ∈ (server.reach index).strayed := by
    intro other hmem hclosed hstrayed
    refine List.mem_filter.mpr ⟨hstrayed, bne_iff_ne.mpr ?_⟩
    rintro rfl
    cases (hopen hmem).symm.trans hclosed
  refine ⟨h.once, h.whole, h.fresh, h.answered, h.called, h.dispatched, h.bound, fun other hmem hclosed => ?_,
    fun other hmem hclosed => ?_, fun other hmem => h.strayed other (List.mem_filter.mp hmem).1⟩
  · exact hkept other (.inl hmem) hclosed (h.pending other hmem hclosed)
  · exact (h.used other hmem hclosed).imp_right (hkept other (.inr hmem) hclosed)

theorem Kept.closed_put (h : Kept server waiting retained current) (hindex : index ∈ server.dispatched)
    (connection : Connection L) (index' : Nat) :
    (server.put index connection).closed index' =
      if index = index' then connection.response.transport.closed else server.closed index' := by
  rw [Http.closed_put]
  simp only [h.bound index hindex, and_true]

/-- A connection whose request cannot be read is closed. -/
theorem Kept.drops (h : Kept server (index :: waiting) retained current) :
    Kept (server.close index) waiting retained current := by
  have hnodup := h.once
  rw [List.cons_append, List.cons_append, List.nodup_cons] at hnodup
  have hother : ∀ other, other ∈ waiting ∨ other ∈ retained → index ≠ other := by
    rintro other hmem rfl
    exact hnodup.1 (List.mem_append_left _ (List.mem_append.mpr hmem))
  have hsame : ∀ other, other ∈ waiting ∨ other ∈ retained → (server.close index).closed other = server.closed other := by
    intro other hmem
    rw [closed_close, decide_eq_false (hother other hmem), Bool.false_or]
  refine ⟨hnodup.2, fun other hlt => ?_, fun other hmem => ?_, h.answered, h.called, h.dispatched, ?_, ?_, ?_, ?_⟩
  · rw [closed_close]
    rcases h.whole other ((put_length _ _ _) ▸ hlt) with hmem | hmem | hmem | hclosed
    · rcases List.mem_cons.mp hmem with rfl | hmem
      · refine .inr (.inr (.inr ?_))
        rw [decide_eq_true rfl, Bool.true_or]
      · exact .inl hmem
    · exact .inr (.inl hmem)
    · exact .inr (.inr (.inl hmem))
    · refine .inr (.inr (.inr ?_))
      rw [hclosed, Bool.or_true]
  · exact (put_length _ _ _).symm ▸ h.fresh other (List.mem_cons_of_mem _ hmem)
  · intro other hmem
    exact (put_length _ _ _).symm ▸ h.bound other hmem
  · intro other hmem hclosed
    rw [hsame other (.inl hmem)] at hclosed
    exact h.pending other (List.mem_cons_of_mem _ hmem) hclosed
  · intro other hmem hclosed
    rw [hsame other (.inr hmem)] at hclosed
    exact h.used other hmem hclosed
  · intro other hmem
    exact (tls_close server index other).trans (h.strayed other hmem)

/-- The handler of a connection is called. -/
theorem Kept.dispatches (h : Kept server (index :: waiting) retained none) :
    Kept { server with dispatched := server.dispatched ++ [index] } waiting retained (some index) := by
  obtain ⟨hlt, hnew⟩ := h.fresh index List.mem_cons_self
  have hnodup := h.once
  rw [Option.toList_none, List.append_nil, List.cons_append, List.nodup_cons] at hnodup
  refine ⟨?_, fun other hother => ?_, fun other hmem => ?_,
    fun other hmem => List.mem_append_left _ (h.answered other hmem), ?_, ?_, ?_,
    fun other hmem => h.pending other (List.mem_cons_of_mem _ hmem), h.used, h.strayed⟩
  · exact (List.perm_append_singleton index (waiting ++ retained)).nodup_iff.mpr (List.nodup_cons.mpr hnodup)
  · rcases h.whole other hother with hmem | hmem | hmem | hclosed
    · rcases List.mem_cons.mp hmem with rfl | hmem
      · exact .inr (.inr (.inl rfl))
      · exact .inl hmem
    · exact .inr (.inl hmem)
    · cases hmem
    · exact .inr (.inr (.inr hclosed))
  · obtain ⟨hother, hfresh⟩ := h.fresh other (List.mem_cons_of_mem _ hmem)
    refine ⟨hother, fun hcalled => ?_⟩
    rcases List.mem_append.mp hcalled with hcalled | hcalled
    · exact hfresh hcalled
    · obtain rfl := List.mem_singleton.mp hcalled
      exact hnodup.1 (List.mem_append_left _ hmem)
  · rintro other hmem
    obtain rfl := Option.some.inj hmem
    exact List.mem_append_right _ (List.mem_singleton_self _)
  · exact (List.perm_append_singleton index server.dispatched).nodup_iff.mpr (List.nodup_cons.mpr ⟨hnew, h.dispatched⟩)
  · intro other hmem
    rcases List.mem_append.mp hmem with hmem | hmem
    · exact h.bound other hmem
    · obtain rfl := List.mem_singleton.mp hmem
      exact hlt

/-- Its handler has returned, and the response is still to be sent. -/
theorem Kept.retains (h : Kept server waiting retained (some index)) (hopen : server.closed index = false) :
    Kept server waiting (retained ++ [index]) none where
  once := by
    rw [Option.toList_none, List.append_nil, ← List.append_assoc]
    exact h.once
  whole other hlt := by
    rcases h.whole other hlt with hmem | hmem | hmem | hclosed
    · exact .inl hmem
    · exact .inr (.inl (List.mem_append_left _ hmem))
    · obtain rfl := Option.some.inj hmem
      exact .inr (.inl (List.mem_append_right _ (List.mem_singleton_self _)))
    · exact .inr (.inr (.inr hclosed))
  fresh := h.fresh
  answered other hmem := by
    rcases List.mem_append.mp hmem with hmem | hmem
    · exact h.answered other hmem
    · exact h.called other (congrArg some (List.mem_singleton.mp hmem).symm)
  called _ hmem := by cases hmem
  dispatched := h.dispatched
  bound := h.bound
  pending := h.pending
  used other hmem hclosed := by
    rcases List.mem_append.mp hmem with hmem | hmem
    · exact h.used other hmem hclosed
    · obtain rfl := List.mem_singleton.mp hmem
      cases hopen.symm.trans hclosed
  strayed := h.strayed

/-- The connection at the handler is closed. -/
theorem Kept.leaves (h : Kept server waiting retained (some index)) (hclosed : server.closed index = true) :
    Kept server waiting retained none where
  once := by
    rw [Option.toList_none, List.append_nil]
    exact (List.nodup_append.mp h.once).1
  whole other hlt := by
    rcases h.whole other hlt with hmem | hmem | hmem | hother
    · exact .inl hmem
    · exact .inr (.inl hmem)
    · obtain rfl := Option.some.inj hmem
      exact .inr (.inr (.inr hclosed))
    · exact .inr (.inr (.inr hother))
  fresh := h.fresh
  answered := h.answered
  called _ hmem := by cases hmem
  dispatched := h.dispatched
  bound := h.bound
  pending := h.pending
  used := h.used
  strayed := h.strayed

theorem Kept.closes (h : Kept server waiting retained (some index)) :
    Kept (server.close index) waiting retained none := by
  have hnodup := h.once
  have hother : ∀ other ∈ waiting ++ retained, (server.close index).closed other = server.closed other := by
    intro other hmem
    have hne : index ≠ other := by
      rintro rfl
      exact (List.nodup_append.mp hnodup).2.2 index hmem index (List.mem_singleton_self _) rfl
    rw [closed_close, decide_eq_false hne, Bool.false_or]
  refine @Kept.leaves _ _ index _ _ ⟨hnodup, fun other hlt => ?_, fun other hmem => ?_, h.answered, h.called,
    h.dispatched, ?_, ?_, ?_, ?_⟩ ?_
  · rw [closed_close]
    rcases h.whole other ((put_length _ _ _) ▸ hlt) with hmem | hmem | hmem | hclosed
    · exact .inl hmem
    · exact .inr (.inl hmem)
    · exact .inr (.inr (.inl hmem))
    · refine .inr (.inr (.inr ?_))
      rw [hclosed, Bool.or_true]
  · exact (put_length _ _ _).symm ▸ h.fresh other hmem
  · intro other hmem
    exact (put_length _ _ _).symm ▸ h.bound other hmem
  · intro other hmem hclosed
    rw [hother other (List.mem_append_left _ hmem)] at hclosed
    exact h.pending other hmem hclosed
  · intro other hmem hclosed
    rw [hother other (List.mem_append_right _ hmem)] at hclosed
    exact h.used other hmem hclosed
  · intro other hmem
    exact (tls_close server index other).trans (h.strayed other hmem)
  · rw [closed_close, decide_eq_true rfl, Bool.true_or]

/-- A TLS socket is closed outside of the HTTP code. -/
theorem Kept.shuts (h : Kept server waiting retained current) (htls : server.tls index = true) :
    Kept { server.close index with strayed := server.strayed ++ [index] } waiting retained current := by
  have hstrayed : ∀ other, (server.close index).closed other = true →
      index = other ∨ server.closed other = true := by
    intro other hclosed
    rw [closed_close, Bool.or_eq_true, decide_eq_true_eq] at hclosed
    exact hclosed
  refine ⟨h.once, fun other hlt => ?_, fun other hmem => ?_, h.answered, h.called, h.dispatched, ?_, ?_, ?_, ?_⟩
  · have hwhole := h.whole other ((put_length _ _ _) ▸ hlt)
    refine hwhole.imp_right fun hwhole => hwhole.imp_right fun hwhole => hwhole.imp_right fun hclosed => ?_
    exact (closed_close server index other).trans (by rw [hclosed, Bool.or_true])
  · exact (put_length _ _ _).symm ▸ h.fresh other hmem
  · intro other hmem
    exact (put_length _ _ _).symm ▸ h.bound other hmem
  · intro other hmem hclosed
    rcases hstrayed other hclosed with rfl | hclosed
    · exact List.mem_append_right _ List.mem_cons_self
    · exact List.mem_append_left _ (h.pending other hmem hclosed)
  · intro other hmem hclosed
    rcases hstrayed other hclosed with rfl | hclosed
    · exact .inr (List.mem_append_right _ List.mem_cons_self)
    · exact (h.used other hmem hclosed).imp_right (List.mem_append_left _)
  · intro other hmem
    refine (tls_close server index other).trans ?_
    rcases List.mem_append.mp hmem with hmem | hmem
    · exact h.strayed other hmem
    · exact List.mem_singleton.mp hmem ▸ htls

/-- A response is used: by its handler, by other code, or by the poll. -/
theorem Kept.uses (h : Kept server waiting retained current) (hcalled : index ∈ server.dispatched)
    {connection : Connection L} (htls : connection.tls = server.tls index)
    (hstays : server.closed index = true → connection.response.transport.closed = true) :
    Kept { server.put index connection with used := server.used ++ [index] } waiting retained current := by
  have hclosed : ∀ other, ({ server.put index connection with used := server.used ++ [index] } : Server L).closed other =
      if index = other then connection.response.transport.closed else server.closed other :=
    h.closed_put hcalled connection
  refine ⟨h.once, fun other hlt => ?_, fun other hmem => ?_, h.answered, h.called, h.dispatched, ?_, ?_, ?_, ?_⟩
  · rw [hclosed]
    rcases h.whole other ((put_length _ _ _) ▸ hlt) with hmem | hmem | hmem | hother
    · exact .inl hmem
    · exact .inr (.inl hmem)
    · exact .inr (.inr (.inl hmem))
    · refine .inr (.inr (.inr ?_))
      split_ifs with hsame
      · exact hstays (hsame ▸ hother)
      · exact hother
  · exact (put_length _ _ _).symm ▸ h.fresh other hmem
  · intro other hmem
    exact (put_length _ _ _).symm ▸ h.bound other hmem
  · intro other hmem hother
    have hne : index ≠ other := by
      rintro rfl
      exact (h.fresh index hmem).2 hcalled
    rw [hclosed, if_neg hne] at hother
    exact h.pending other hmem hother
  · intro other hmem hother
    rw [hclosed] at hother
    split_ifs at hother with hsame
    · exact .inl (List.mem_append_right _ (List.mem_singleton.mpr hsame.symm))
    · exact (h.used other hmem hother).imp_left (List.mem_append_left _)
  · intro other hmem
    exact (tls_put server index htls other).trans (h.strayed other hmem)

/-- A response is polled, and leaves the list when its transport is closed. -/
theorem Kept.polls (h : Kept server waiting (index :: retained) current) {connection : Connection L}
    (htls : connection.tls = server.tls index)
    (hstays : server.closed index = true → connection.response.transport.closed = true) :
    Kept ((server.reach index).put index connection) waiting
      (if connection.response.transport.closed then retained else index :: retained) current := by
  have hcalled := h.answered index List.mem_cons_self
  have hclosed := h.closed_put hcalled connection
  have hnodup := (List.perm_middle.append_right current.toList).nodup_iff.mp h.once
  rw [List.cons_append, List.nodup_cons] at hnodup
  have hgone : ¬(index ∈ waiting ∨ index ∈ retained) := fun hmem =>
    hnodup.1 (List.mem_append_left _ (List.mem_append.mpr hmem))
  suffices hput : Kept (server.put index connection) waiting
      (if connection.response.transport.closed then retained else index :: retained) current by
    refine hput.reaches fun hmem => ?_
    rw [hclosed, if_pos rfl]
    split_ifs at hmem with hnow
    · exact absurd hmem hgone
    · exact Bool.not_eq_true _ ▸ hnow
  split_ifs with hnow
  · have hother : ∀ other, other ∈ waiting ∨ other ∈ retained →
        (server.put index connection).closed other = server.closed other := by
      intro other hmem
      rw [hclosed, if_neg]
      rintro rfl
      exact hgone hmem
    refine ⟨hnodup.2, fun other hlt => ?_, fun other hmem => ?_,
      fun other hmem => h.answered other (List.mem_cons_of_mem _ hmem), h.called, h.dispatched, ?_, ?_, ?_, ?_⟩
    · rw [hclosed]
      split_ifs with hsame
      · exact .inr (.inr (.inr hnow))
      · rcases h.whole other ((put_length _ _ _) ▸ hlt) with hmem | hmem | hmem | hother
        · exact .inl hmem
        · exact .inr (.inl ((List.mem_cons.mp hmem).resolve_left (Ne.symm hsame)))
        · exact .inr (.inr (.inl hmem))
        · exact .inr (.inr (.inr hother))
    · exact (put_length _ _ _).symm ▸ h.fresh other hmem
    · intro other hmem
      exact (put_length _ _ _).symm ▸ h.bound other hmem
    · intro other hmem hwas
      rw [hother other (.inl hmem)] at hwas
      exact h.pending other hmem hwas
    · intro other hmem hwas
      rw [hother other (.inr hmem)] at hwas
      exact h.used other (List.mem_cons_of_mem _ hmem) hwas
    · intro other hmem
      exact (tls_put server index htls other).trans (h.strayed other hmem)
  · refine h.same ⟨fun other => ?_, tls_put server index htls, put_length _ _ _, rfl, rfl, rfl⟩
    rw [hclosed]
    split_ifs with hsame
    · subst hsame
      cases hwas : server.closed index with
      | true => exact absurd (hstays hwas) hnow
      | false => exact Bool.not_eq_true _ ▸ hnow
    · rfl

/-- Every pending response has an open transport. -/
def Server.Answering (server : Server L) : Prop := ∀ index ∈ server.responses, server.closed index = false

/-- The responses polled so far are open. -/
theorem Kept.pollsResponses {left : List Nat} (h : Kept server waiting (server.responses ++ left) none)
    (hopen : server.Answering) :
    Kept (Server.pollResponses left server) waiting (Server.pollResponses left server).responses none ∧
      (Server.pollResponses left server).Answering ∧
      (Server.pollResponses left server).requests = server.requests := by
  induction left generalizing server with
  | nil =>
    rw [List.append_nil] at h
    exact ⟨h, hopen, rfl⟩
  | cons index left ih =>
    have hfirst : Kept server waiting (index :: (server.responses ++ left)) none :=
      h.perm (List.Perm.refl _) List.perm_middle.symm
    have hnew : index ∉ server.responses := by
      have hnodup := (List.nodup_append.mp (List.nodup_append.mp hfirst.once).1).2.1
      exact fun hmem => (List.nodup_cons.mp hnodup).1 (List.mem_append_left _ hmem)
    have hcalled := hfirst.answered index List.mem_cons_self
    have hothers : ∀ (connection : Connection L), ∀ other ∈ server.responses,
        (server.put index connection).closed other = false := by
      intro connection other hmem
      rw [hfirst.closed_put hcalled, if_neg]
      · exact hopen other hmem
      · rintro rfl
        exact hnew hmem
    unfold Server.pollResponses
    dsimp only
    have hpoll := staysClosed_poll (server.connection index).response
    cases hresult : poll (server.connection index).response with
    | ok progress response =>
      dsimp only
      have hpolled := @Kept.polls _ server index _ _ _ hfirst { server.connection index with response } rfl fun hwas => by
        have := hpoll hwas
        rwa [wp_of_ok hresult] at this
      dsimp only at hpolled
      split_ifs at hpolled ⊢ with hnow
      · exact ih (hpolled.same ⟨fun _ => rfl, fun _ => rfl, rfl, rfl, rfl, rfl⟩) (hothers _)
      · refine ih ((hpolled.perm (List.Perm.refl _) ?_).same ⟨fun _ => rfl, fun _ => rfl, rfl, rfl, rfl, rfl⟩)
          fun other hmem => ?_
        · show List.Perm (server.responses ++ [index] ++ left) (index :: (server.responses ++ left))
          rw [List.append_assoc, List.singleton_append]
          exact List.perm_middle
        · rcases List.mem_append.mp hmem with hmem | hmem
          · exact hothers _ other hmem
          · obtain rfl := List.mem_singleton.mp hmem
            exact (hfirst.closed_put hcalled _ other).trans ((if_pos rfl).trans (Bool.not_eq_true _ ▸ hnow))
    | error error response =>
      dsimp only
      have hpolled := @Kept.polls _ server index _ _ _ hfirst
        { server.connection index with response := finalState (destroy response) } rfl fun _ => destroy_closes response
      rw [destroy_closes, if_pos rfl] at hpolled
      exact ih (hpolled.same ⟨fun _ => rfl, fun _ => rfl, rfl, rfl, rfl, rfl⟩) (hothers _)

/-- What holds between the actions. -/
def Consistent (server : Server L) : Prop :=
  match server.control with
  | .idle => Kept server server.requests server.responses none
  | .calling index rest => Kept server (server.requests ++ rest) server.responses (some index)

/-- Behind a poll, or at its next call of a handler. -/
def Polled (server : Server L) : Prop := Consistent server ∧ (server.control = .idle → server.Answering)

theorem Kept.finishes (h : Kept server server.requests server.responses none) : Polled server.finishPoll := by
  have hempty : Kept { server with responses := [] } server.requests ([] ++ server.responses) none :=
    h.same ⟨fun _ => rfl, fun _ => rfl, rfl, rfl, rfl, rfl⟩
  obtain ⟨hkept, hopen, hrequests⟩ := hempty.pollsResponses fun _ hmem => absurd hmem List.not_mem_nil
  unfold Server.finishPoll
  generalize Server.pollResponses server.responses { server with responses := [] } = polled at *
  rw [← hrequests] at hkept
  exact ⟨⟨hkept.once, hkept.whole, hkept.fresh, hkept.answered, hkept.called, hkept.dispatched, hkept.bound,
    hkept.pending, fun other hmem hclosed => absurd hclosed (Bool.eq_false_iff.mp (hopen other hmem)),
    hkept.strayed⟩, fun _ => hopen⟩

/-- What was pending goes back to the list behind the requests that were read. -/
theorem Kept.abandons (h : Kept server (server.requests ++ rest) server.responses (some index)) :
    Consistent (server.abandon index rest) :=
  h.closes.same ⟨fun _ => rfl, fun _ => rfl, rfl, rfl, rfl, rfl⟩

theorem message_complete {parser : RequestParser L} (h : parser.complete = true) :
    ∃ message, parser.message = .ok message := by
  rw [RequestParser.message, h]
  exact ⟨_, rfl⟩

theorem feed_complete {parser parser' : RequestParser L} {bytes : Bytes}
    (h : parser.feed bytes = (parser', .ok true)) : parser'.complete = true := by
  unfold RequestParser.feed at h
  dsimp only at h
  split_ifs at h
  · cases (Prod.mk.inj h).2
  · obtain ⟨hparser, houtcome⟩ := Prod.mk.inj h
    rw [← hparser]
    exact Except.ok.inj houtcome

/-- The request is handed to its handler. -/
theorem Kept.hands (h : Kept server (server.requests ++ index :: rest) server.responses none)
    (hcomplete : (server.connection index).parser.complete = true) : Polled (server.dispatch index rest) := by
  have hfirst : Kept server (index :: (server.requests ++ rest)) server.responses none :=
    h.perm List.perm_middle.symm (List.Perm.refl _)
  obtain ⟨message, hmessage⟩ := message_complete hcomplete
  unfold Server.dispatch
  dsimp only
  rw [hmessage]
  refine ⟨hfirst.dispatches.same ⟨fun other => ?_, tls_put server index rfl, put_length _ _ _, rfl, rfl, rfl⟩,
    fun hidle => ?_⟩
  · refine (Http.closed_put server index _ other).trans ?_
    split_ifs with hboth
    · rw [← hboth.1]
      rfl
    · rfl
  · cases hidle

theorem readInto_open {connection : Connection L} (h : connection.readInto ≠ .failed) :
    connection.response.transport.closed = false := by
  by_contra hclosed
  exact h (if_pos (Bool.not_eq_false _ ▸ hclosed))

theorem Kept.pollsRequests (h : Kept server (server.requests ++ rest) server.responses none) :
    Polled (Server.pollRequests rest server) := by
  induction rest generalizing server with
  | nil =>
    rw [List.append_nil] at h
    exact h.finishes
  | cons index rest ih =>
    -- reading and parsing change no transport
    have hput : ∀ connection : Connection L, connection.response = (server.connection index).response →
        connection.tls = server.tls index →
        Kept (server.put index connection) (server.requests ++ index :: rest) server.responses none :=
      fun connection hresponse htls => h.same (same_put server index hresponse htls)
    have hcomes : ∀ (connection : Connection L) (didWork : Bool), server.closed index = false →
        connection.response = (server.connection index).response → connection.tls = server.tls index →
        Kept { (server.put index connection).reach index with didWork } (server.requests ++ index :: rest)
          server.responses none := by
      intro connection didWork hopen hresponse htls
      refine ((hput connection hresponse htls).reaches fun _ => ?_).same
        ⟨fun _ => rfl, fun _ => rfl, rfl, rfl, rfl, rfl⟩
      exact ((same_put server index hresponse htls).closed index).trans hopen
    have hrequeues : ∀ (connection : Connection L) (didWork : Bool), server.closed index = false →
        connection.response = (server.connection index).response → connection.tls = server.tls index →
        Polled (Server.pollRequests rest
          { (server.put index connection).reach index with requests := server.requests ++ [index], didWork }) := by
      intro connection didWork hopen hresponse htls
      refine ih ?_
      have hkept := hcomes connection didWork hopen hresponse htls
      rw [List.append_cons] at hkept
      exact hkept.same ⟨fun _ => rfl, fun _ => rfl, rfl, rfl, rfl, rfl⟩
    have hcloses : ∀ connection : Connection L, connection.response = (server.connection index).response →
        connection.tls = server.tls index →
        Polled (Server.pollRequests rest
          { ((server.put index connection).reach index).close index with didWork := true }) := by
      intro connection hresponse htls
      refine ih ?_
      have hkept := (hput connection hresponse htls).perm List.perm_middle.symm (List.Perm.refl _)
      have hnodup := hkept.once
      rw [Option.toList_none, List.append_nil, List.cons_append, List.nodup_cons] at hnodup
      refine (hkept.drops.reaches fun hmem => ?_).same ⟨fun _ => rfl, fun _ => rfl, rfl, rfl, rfl, rfl⟩
      exact absurd (List.mem_append.mpr hmem) hnodup.1
    unfold Server.pollRequests
    dsimp only
    cases hread : (server.connection index).readInto with
    | again =>
      have hopen := readInto_open (hread.trans_ne fun heq => by cases heq)
      exact hrequeues _ server.didWork hopen rfl rfl
    | failed => exact hcloses _ rfl rfl
    | data bytes =>
      have hopen := readInto_open (hread.trans_ne fun heq => by cases heq)
      cases bytes with
      | nil => exact hcloses _ rfl rfl
      | cons byte bytes =>
        dsimp only
        cases hfeed : (server.connection index).parser.feed ((byte :: bytes).take 65536) with
        | mk parser outcome =>
          have htwice : ∀ connection connection' : Connection L,
              ((server.put index connection).reach index).put index connection' =
                (server.put index connection').reach index := by
            intro connection connection'
            simp only [Server.put, Server.reach, List.set_set]
          cases outcome with
          | error error =>
            dsimp only
            rw [htwice]
            exact hcloses _ rfl rfl
          | ok complete =>
            dsimp only
            rw [htwice]
            cases complete with
            | true =>
              have hlt := (h.fresh index (List.mem_append_right _ List.mem_cons_self)).1
              refine (hcomes { server.connection index with
                parser := parser, reads := (server.connection index).reads.tail } true hopen rfl rfl).hands ?_
              have hput : (server.put index { server.connection index with
                  parser := parser, reads := (server.connection index).reads.tail }).connection index =
                  { server.connection index with
                    parser := parser, reads := (server.connection index).reads.tail } :=
                (connection_put _ _ _ _).trans (if_pos ⟨rfl, hlt⟩)
              exact (congrArg (fun connection : Connection L => connection.parser.complete) hput).trans
                (feed_complete hfeed)
            | false => exact hrequeues _ true hopen rfl rfl

/-- A new connection waits for its request. -/
theorem Kept.accepts (h : Kept server waiting retained current) {connection : Connection L}
    (hopen : connection.response.transport.closed = false) :
    Kept { server with connections := server.connections ++ [connection] } (server.connections.length :: waiting)
      retained current := by
  have hold : ∀ index < server.connections.length,
      ({ server with connections := server.connections ++ [connection] } : Server L).connection index =
        server.connection index := by
    intro index hlt
    simp only [Server.connection, List.getD_eq_getElem?_getD, List.getElem?_append_left hlt]
  have hclosed : ∀ index < server.connections.length,
      ({ server with connections := server.connections ++ [connection] } : Server L).closed index =
        server.closed index :=
    fun index hlt => congrArg (fun connection : Connection L => connection.response.transport.closed) (hold index hlt)
  have hnew : ({ server with connections := server.connections ++ [connection] } : Server L).closed
      server.connections.length = false := by
    simp only [Server.closed, Server.connection, List.getD_eq_getElem?_getD, List.getElem?_concat_length,
      Option.getD_some]
    exact hopen
  have hbound : ∀ index ∈ waiting ++ retained ++ current.toList, index < server.connections.length := by
    intro index hmem
    rcases List.mem_append.mp hmem with hmem | hmem
    · rcases List.mem_append.mp hmem with hmem | hmem
      · exact (h.fresh index hmem).1
      · exact h.bound index (h.answered index hmem)
    · exact h.bound index (h.called index (Option.mem_toList.mp hmem))
  have hlonger : ∀ {index}, index < server.connections.length →
      index < (server.connections ++ [connection]).length := by
    intro index hlt
    rw [List.length_append]
    exact Nat.lt_add_right 1 hlt
  refine ⟨?_, fun index hlt => ?_, ?_, h.answered, h.called, h.dispatched, fun index hmem => hlonger (h.bound index hmem),
    ?_, fun index hmem hshut => ?_, fun index hmem => ?_⟩
  · rw [List.cons_append, List.cons_append]
    exact List.nodup_cons.mpr ⟨fun hmem => Nat.lt_irrefl _ (hbound _ hmem), h.once⟩
  · rw [List.length_append, List.length_singleton] at hlt
    rcases Nat.lt_succ_iff_lt_or_eq.mp hlt with hlt | rfl
    · rw [hclosed index hlt]
      exact (h.whole index hlt).imp_left (List.mem_cons_of_mem _)
    · exact .inl List.mem_cons_self
  · intro index hmem
    rcases List.mem_cons.mp hmem with rfl | hmem
    · refine ⟨?_, fun hcalled => Nat.lt_irrefl _ (h.bound _ hcalled)⟩
      rw [List.length_append]
      exact Nat.lt_succ_self _
    · exact (h.fresh index hmem).imp_left hlonger
  · intro index hmem hshut
    rcases List.mem_cons.mp hmem with rfl | hmem
    · cases hnew.symm.trans hshut
    · rw [hclosed index (h.fresh index hmem).1] at hshut
      exact h.pending index hmem hshut
  · rw [hclosed index (h.bound index (h.answered index hmem))] at hshut
    exact h.used index hmem hshut
  · have htls := h.strayed index hmem
    have hlt : index < server.connections.length := by
      by_contra hnot
      rw [Server.tls, Server.connection, List.getD_eq_getElem?_getD, List.getElem?_eq_none (Nat.le_of_not_lt hnot)]
        at htls
      cases htls
    exact (congrArg Connection.tls (hold index hlt)).trans htls

/-! ## Runs -/

theorem consistent_accept (h : Consistent server) (tls : Bool) (reads : List ReadAnswer)
    (answers : List TransportAnswer) : Consistent (server.accept tls reads answers) := by
  unfold Server.accept
  dsimp only
  unfold Consistent at h
  split at h
  · rename_i hidle
    have haccepted := @Kept.accepts _ _ _ _ _ h { tls, reads, response := { transport := { answers } } } rfl
    split_ifs
    · show match server.control with | .idle => _ | .calling index rest => _
      rw [hidle]
      exact haccepted.drops.same ⟨fun _ => rfl, fun _ => rfl, rfl, rfl, rfl, rfl⟩
    · show match server.control with | .idle => _ | .calling index rest => _
      rw [hidle]
      exact (haccepted.perm (List.perm_append_singleton _ _) (List.Perm.refl _)).same
        ⟨fun _ => rfl, fun _ => rfl, rfl, rfl, rfl, rfl⟩
  · rename_i index rest hcalling
    have haccepted := @Kept.accepts _ _ _ _ _ h { tls, reads, response := { transport := { answers } } } rfl
    split_ifs
    · show match server.control with | .idle => _ | .calling index rest => _
      rw [hcalling]
      exact haccepted.drops.same ⟨fun _ => rfl, fun _ => rfl, rfl, rfl, rfl, rfl⟩
    · show match server.control with | .idle => _ | .calling index rest => _
      rw [hcalling]
      refine (haccepted.perm ?_ (List.Perm.refl _)).same ⟨fun _ => rfl, fun _ => rfl, rfl, rfl, rfl, rfl⟩
      exact (List.perm_append_singleton _ server.requests).append_right rest

theorem Consistent.pollsConnections (h : Consistent server) (hidle : server.control = .idle) :
    Polled server.pollConnections := by
  unfold Consistent at h
  rw [hidle] at h
  exact Kept.pollsRequests (h.same ⟨fun _ => rfl, fun _ => rfl, rfl, rfl, rfl, rfl⟩)

theorem Consistent.handles (h : Consistent server) {index : Nat} {rest : List Nat}
    (hcalling : server.control = .calling index rest) : Polled server.handled := by
  unfold Consistent at h
  rw [hcalling] at h
  unfold Server.handled
  rw [hcalling]
  dsimp only
  split_ifs with hclosed
  · exact (h.leaves hclosed).pollsRequests
  · have hretained := h.retains (Bool.not_eq_true _ ▸ hclosed)
    exact Kept.pollsRequests (hretained.same ⟨fun _ => rfl, fun _ => rfl, rfl, rfl, rfl, rfl⟩)

theorem Consistent.raises (h : Consistent server) : Consistent server.raised := by
  unfold Server.raised
  cases hcontrol : server.control with
  | idle => exact h
  | calling index rest =>
    unfold Consistent at h
    rw [hcontrol] at h
    exact h.abandons

theorem Consistent.uses (h : Consistent server) (casing : Casing) (index : Nat) (call : ResponseCall) :
    Consistent (server.step casing (.use index call)) := by
  show Consistent (if index ∈ server.dispatched then _ else server)
  split_ifs with hcalled
  · have hstays := @StaysClosed.final _ _ (staysClosed_run casing call) (server.connection index).response
    unfold Consistent at h ⊢
    dsimp only
    show match server.control with | .idle => _ | .calling index rest => _
    cases hcontrol : server.control with
    | idle =>
      rw [hcontrol] at h
      exact h.uses hcalled rfl hstays
    | calling current rest =>
      rw [hcontrol] at h
      exact h.uses hcalled rfl hstays
  · exact h

theorem Consistent.shuts (h : Consistent server) (casing : Casing) (index : Nat) :
    Consistent (server.step casing (.shut index)) := by
  show Consistent (if server.tls index = true ∧ server.closed index = false then _ else server)
  split_ifs with hopen
  · unfold Consistent at h ⊢
    show match server.control with | .idle => _ | .calling index rest => _
    cases hcontrol : server.control with
    | idle =>
      rw [hcontrol] at h
      exact h.shuts hopen.1
    | calling current rest =>
      rw [hcontrol] at h
      exact h.shuts hopen.1
  · exact h

theorem Consistent.steps (h : Consistent server) (casing : Casing) (action : Action) :
    Consistent (server.step casing action) := by
  cases action with
  | accept tls reads answers => exact consistent_accept h tls reads answers
  | poll =>
    show Consistent (if server.control = .idle then server.pollConnections else server)
    split_ifs with hidle
    · exact (h.pollsConnections hidle).1
    · exact h
  | use index call => exact h.uses casing index call
  | «return» =>
    show Consistent server.handled
    cases hcontrol : server.control with
    | idle =>
      unfold Server.handled
      rw [hcontrol]
      exact h
    | calling index rest => exact (h.handles hcontrol).1
  | raise => exact h.raises
  | shut index => exact h.shuts casing index

end Kept

theorem consistent_new : Consistent ({} : Server L) where
  once := List.nodup_nil
  whole _ hlt := absurd hlt (Nat.not_lt_zero _)
  fresh _ hmem := absurd hmem List.not_mem_nil
  answered _ hmem := absurd hmem List.not_mem_nil
  called _ hmem := by cases hmem
  dispatched := List.nodup_nil
  bound _ hmem := absurd hmem List.not_mem_nil
  pending _ hmem := absurd hmem List.not_mem_nil
  used _ hmem := absurd hmem List.not_mem_nil
  strayed _ hmem := absurd hmem List.not_mem_nil

/-- A connection is pending with its request, pending with its response, or closed. One that is
pending may have a closed TLS socket until a poll comes to it; a response that was used since the
last poll that returned may be closed as well. -/
def Placed (server : Server L) (index : Nat) : Prop :=
  (index ∈ server.requests ∧ index ∉ server.responses ∧
    (server.closed index = true → index ∈ server.strayed)) ∨
  (index ∉ server.requests ∧ index ∈ server.responses ∧
    (server.closed index = true → index ∈ server.used ∨ index ∈ server.strayed)) ∨
  (index ∉ server.requests ∧ index ∉ server.responses ∧ server.closed index = true)

theorem Kept.placed {server : Server L} (h : Kept server server.requests server.responses none) {index : Nat}
    (hlt : index < server.connections.length) : Placed server index := by
  have hnodup := h.once
  rw [Option.toList_none, List.append_nil] at hnodup
  have hapart := (List.nodup_append.mp hnodup).2.2
  by_cases hrequest : index ∈ server.requests
  · exact .inl ⟨hrequest, fun hresponse => hapart index hrequest index hresponse rfl, h.pending index hrequest⟩
  · by_cases hresponse : index ∈ server.responses
    · exact .inr (.inl ⟨hrequest, hresponse, h.used index hresponse⟩)
    · refine .inr (.inr ⟨hrequest, hresponse, ?_⟩)
      rcases h.whole index hlt with hmem | hmem | hmem | hclosed
      · exact absurd hmem hrequest
      · exact absurd hmem hresponse
      · cases hmem
      · exact hclosed

/-- No connection is lost, whatever the handlers do; a poll that returns leaves no closed response
pending, and one that raises keeps what it has not come to. -/
theorem connections_kept (casing : Casing) (actions : List Action) :
    let server := run (Server.step casing) ({} : Server L) actions
    server.dispatched.Nodup ∧ (∀ index ∈ server.strayed, server.tls index = true) ∧
    (server.control = .idle → server.requests.Nodup ∧ server.responses.Nodup ∧
      (∀ index < server.connections.length, Placed server index) ∧
      (server.pollConnections.control = .idle → server.pollConnections.Answering)) ∧
    (∀ index rest, server.control = .calling index rest →
      (server.handled.control = .idle → server.handled.Answering) ∧
      server.raised.control = .idle ∧ server.raised.requests = server.requests ++ rest ∧
      server.raised.responses = server.responses ∧ server.raised.closed index = true ∧
      (∀ other, other ≠ index → server.raised.connection other = server.connection other) ∧
      ∀ other < server.connections.length, Placed server.raised other) := by
  intro server
  have h : Consistent server :=
    @run_preserves _ _ (Server.step casing) Consistent (fun _ action h => h.steps casing action) _ consistent_new actions
  have hkept : ∃ waiting current, Kept server waiting server.responses current := by
    unfold Consistent at h
    split at h
    · exact ⟨_, _, h⟩
    · exact ⟨_, _, h⟩
  obtain ⟨_, _, hsomewhere⟩ := hkept
  refine ⟨hsomewhere.dispatched, hsomewhere.strayed, fun hidle => ?_, fun index rest hcalling => ?_⟩
  · have hkept := h
    unfold Consistent at hkept
    rw [hidle] at hkept
    have hnodup := (List.nodup_append.mp hkept.once).1
    exact ⟨(List.nodup_append.mp hnodup).1, (List.nodup_append.mp hnodup).2.1, fun index hlt => hkept.placed hlt,
      (h.pollsConnections hidle).2⟩
  · have hraised : server.raised = server.abandon index rest := by
      unfold Server.raised
      rw [hcalling]
    have hkept := h.raises
    rw [hraised] at hkept ⊢
    refine ⟨(h.handles hcalling).2, rfl, rfl, rfl, ?_, fun other hne => ?_, fun other hlt => ?_⟩
    · exact (closed_close server index index).trans (by rw [decide_eq_true rfl, Bool.true_or])
    · exact (connection_put _ _ _ _).trans (if_neg fun hboth => hne hboth.1.symm)
    · exact Kept.placed hkept ((put_length _ _ _).symm ▸ hlt)

/-- The handler of the second connection destroys the response of the first one, which is pending, and
raises: the first one is closed and still pending when the poll raises. -/
theorem connections_kept_closed :
    let request : Bytes := ascii "GET / HTTP/1.1\r\n\r\n"
    let server := run (Server.step asciiCasing) ({} : Server headOnly)
      [.accept false [.data request] [], .accept false [.again, .data request] [], .poll, .return, .poll,
        .use 0 .destroy, .raise]
    server.control = .idle ∧ server.dispatched = [0, 1] ∧ 0 ∈ server.responses ∧ server.closed 0 = true := by
  decide +kernel

end TsonicNode.Http
