import TsonicNode.Runtime

/-!
# The native TLS socket

`TsonicTlsSocket` with the calls of the socket object: `progress`, `read`,
`peek`, `write`, `end`, `destroy`. What OpenSSL, the endpoint and the transport
answer is given with each call, so a call may go on, wait, or fail wherever the
source lets it. A call that fails for good leaves the socket failed and closed
(`progress_lost`, `read_lost`, `peek_lost`); a closed socket stays as it is.
-/

namespace TsonicNode.Tls

/-! ## Answers -/

/-- What an OpenSSL call has done, or the reason `SSL_get_error` gives. -/
inductive SslAnswer
  | done (count : Nat) (positive : 0 < count)
  | wantRead
  | wantWrite
  /-- `SSL_ERROR_ZERO_RETURN`. -/
  | zeroReturn
  /-- Any other reason, with the error that OpenSSL has in its queue. -/
  | failed (queued : Option String)

/-- `tsonic_tls_set_ssl_error`. -/
def SslAnswer.text (answer : SslAnswer) (fallback : String) : String :=
  match answer with
  | .failed (some queued) => queued
  | _ => fallback

/-- What a turn of the transport moves, whether the peer has ended it, and its error. -/
structure PumpAnswer where
  received : Nat := 0
  sent : Nat := 0
  ended : Bool := false
  error : Option String := none

/-- One piece that is written: without it the transport still holds what was written before. -/
structure WriteAnswer where
  written : SslAnswer
  pump : PumpAnswer := {}

/-- What one call of `progress` is answered. -/
structure ProgressAnswers where
  /-- `tsonic_node_net_endpoint_progress`, and the text of a negative status. -/
  endpoint : Int := 0
  strerror : String := ""
  initialized : Bool := true
  first : PumpAnswer := {}
  handshake : SslAnswer := .wantRead
  waiting : PumpAnswer := {}
  /-- The error of `tsonic_tls_complete_handshake`. -/
  complete : Option String := none
  completed : PumpAnswer := {}
  writes : List WriteAnswer := []
  /-- `SSL_get_shutdown` before the shutdown is sent. -/
  sentBefore : Bool := false
  shutdown : SslAnswer := .wantRead
  last : PumpAnswer := {}
  /-- `SSL_get_shutdown` in the end, and whether nothing is left to be sent. -/
  sent : Bool := false
  received : Bool := false
  flushed : Bool := true

/-! ## The socket -/

structure Native where
  /-- The descriptor is not negative. -/
  opened : Bool
  connecting : Bool
  ready : Bool := false
  ending : Bool := false
  readEnded : Bool := false
  transportReadEnded : Bool := false
  writeEnded : Bool := false
  closeAfterFlush : Bool := false
  failed : Bool := false
  outputLength : Nat := 0
  outputOffset : Nat := 0
  writeLength : Nat := 0
  writeAccepted : Nat := 0
  /-- `write_retry == SSL_ERROR_WANT_WRITE`. -/
  retryWrite : Bool := false
  wireBytesRead : Nat := 0
  wireBytesWritten : Nat := 0

namespace Native

/-- `tsonic_node_tls_connect`. -/
def connect : Native := { opened := false, connecting := true }

/-- `tsonic_node_tls_server_accept`. -/
def accept : Native := { opened := true, connecting := false }

def isReady (socket : Native) : Bool := socket.ready && !socket.failed

def closed (socket : Native) : Bool := !socket.opened && !socket.connecting

def queuedBytes (socket : Native) : Nat := socket.outputLength - socket.outputOffset

def activityBytes (socket : Native) : Nat := socket.wireBytesRead + socket.wireBytesWritten

/-- The label `failed`. -/
def lose (socket : Native) : Native :=
  { socket with failed := true, opened := false, connecting := false }

/-! ### Progress -/

/-- How far a call has come: it goes on, has returned, or goes to the label `failed`. -/
inductive Course
  | on (socket : Native)
  | returned (value : Int) (socket : Native)
  | lost (error : Option String) (socket : Native)

namespace Course

def andThen : Course → (Native → Course) → Course
  | .on socket, next => next socket
  | course, _ => course

def socket : Course → Native
  | .on socket | .returned _ socket | .lost _ socket => socket

end Course

/-- `tsonic_tls_pump_transport`. -/
def pump (answer : PumpAnswer) (socket : Native) : Course :=
  if socket.opened = false then .lost none socket
  else
    let socket := { socket with
      wireBytesRead := socket.wireBytesRead + answer.received
      wireBytesWritten := socket.wireBytesWritten + answer.sent
      transportReadEnded := socket.transportReadEnded || answer.ended }
    match answer.error with
    | some text => .lost (some text) socket
    | none => .on socket

def progressConnection (answers : ProgressAnswers) (socket : Native) : Course :=
  if socket.connecting = false then .on socket
  else if answers.endpoint = 0 then .returned 0 socket
  else if answers.endpoint < 0 then .lost (some answers.strerror) socket
  else
    let socket := { socket with opened := true }
    if answers.initialized then .on { socket with connecting := false }
    else .lost (some "Unable to initialize TLS connection transport") socket

def progressHandshake (answers : ProgressAnswers) (socket : Native) : Course :=
  if socket.ready then .on socket
  else
    match answers.handshake with
    | .done _ _ =>
      match answers.complete with
      | some text => .lost (some text) socket
      | none => pump answers.completed { socket with ready := true }
    | .wantRead | .wantWrite => (pump answers.waiting socket).andThen fun socket => .returned 0 socket
    | answer => .lost (some (answer.text "TLS handshake failed")) socket

/-- What OpenSSL has accepted leaves the output. -/
def settleWrite (socket : Native) : Native :=
  { socket with outputOffset := socket.outputOffset + socket.writeAccepted, writeAccepted := 0 }

/-- The loop that writes the output, at most 65536 bytes of it in one call. -/
def progressOutput : List WriteAnswer → Nat → Native → Course
  | answers, progressed, socket =>
    if socket.outputOffset < socket.outputLength ∧ progressed < 65536 then
      match answers with
      | [] => .returned 1 socket
      | answer :: answers =>
        let progressed := progressed + socket.writeAccepted
        let socket := socket.settleWrite
        if socket.outputOffset = socket.outputLength ∨ 65536 ≤ progressed then .on socket
        else
          let length := if socket.writeLength = 0 then
            min 16384 (socket.outputLength - socket.outputOffset) else socket.writeLength
          let socket := { socket with writeLength := length }
          match answer.written with
          | .done count _ =>
            (pump answer.pump
              { socket with writeAccepted := count, writeLength := 0, retryWrite := false }).andThen
                fun socket => progressOutput answers progressed socket
          | .wantRead => (pump answer.pump { socket with retryWrite := false }).andThen
              fun socket => .returned 1 socket
          | .wantWrite => (pump answer.pump { socket with retryWrite := true }).andThen
              fun socket => .returned 1 socket
          | answer => .lost (some (answer.text "TLS write failed")) socket
    else .on socket

def progressShutdown (answers : ProgressAnswers) (socket : Native) : Course :=
  if socket.outputOffset = socket.outputLength then
    let socket := { socket with outputLength := 0, outputOffset := 0 }
    if socket.ending && !answers.sentBefore then
      match answers.shutdown with
      | .failed queued =>
        .lost (some ((SslAnswer.failed queued).text "TLS shutdown failed")) socket
      | .zeroReturn => .lost (some "TLS shutdown failed") socket
      | _ => .on socket
    else .on socket
  else .on socket

/-- The two directions that have ended, and with both of them the connection. -/
def progressEnds (answers : ProgressAnswers) (socket : Native) : Native :=
  let socket := { socket with
    writeEnded := socket.writeEnded || (answers.sent && answers.flushed)
    readEnded := socket.readEnded || answers.received }
  if socket.writeEnded && (socket.readEnded || socket.closeAfterFlush) then
    { socket with opened := false }
  else socket

/-- The body of `tsonic_node_tls_progress`. -/
def course (answers : ProgressAnswers) (socket : Native) : Course :=
  (((((progressConnection answers socket).andThen (pump answers.first)).andThen
    (progressHandshake answers)).andThen (progressOutput answers.writes 0)).andThen
      (progressShutdown answers)).andThen (pump answers.last)

/-- `tsonic_node_tls_progress`: the error it leaves, if it fails, or what it returns. -/
def progress (answers : ProgressAnswers) (socket : Native) : Except (Option String) Int × Native :=
  if socket.failed then (.error (some "TLS connection has failed"), socket)
  else if socket.closed then (.ok 0, socket)
  else
    match socket.course answers with
    | .on socket => (.ok 1, socket.progressEnds answers)
    | .returned value socket => (.ok value, socket)
    | .lost error socket => (.error error, socket.lose)

/-! ### The other calls -/

/-- What a read of decrypted bytes is answered. -/
structure ReadAnswers where
  progress : ProgressAnswers := {}
  read : SslAnswer := .wantRead

/-- `tsonic_node_tls_read`. -/
def read (answers : ReadAnswers) (socket : Native) : Except (Option String) Int × Native :=
  match socket.progress answers.progress with
  | (.error error, socket) => (.error error, socket)
  | (.ok _, socket) =>
    if socket.connecting then (.ok (-2), socket)
    else if socket.opened = false ∨ socket.readEnded then (.ok 0, socket)
    else if socket.ready = false ∨ socket.retryWrite then (.ok (-2), socket)
    else
      match answers.read with
      | .done count _ => (.ok count, socket)
      | .zeroReturn =>
        (.ok 0, { socket with readEnded := true, opened := socket.opened && !socket.writeEnded })
      | .wantRead | .wantWrite => (.ok (-2), socket)
      | .failed queued => (.error (some ((SslAnswer.failed queued).text "TLS read failed")), socket.lose)

/-- `tsonic_node_tls_peek`. -/
def peek (answers : ReadAnswers) (socket : Native) : Except (Option String) Int × Native :=
  match socket.progress answers.progress with
  | (.error error, socket) => (.error error, socket)
  | (.ok _, socket) =>
    if socket.readEnded ∨ socket.closed then (.ok 0, socket)
    else if socket.ready = false ∨ socket.retryWrite then (.ok (-2), socket)
    else
      match answers.read with
      | .done _ _ => (.ok 1, socket)
      | .wantRead | .wantWrite => (.ok (-2), socket)
      | .zeroReturn => (.ok 0, { socket with readEnded := true })
      | .failed queued => (.error (some ((SslAnswer.failed queued).text "TLS read failed")), socket.lose)

/-- `tsonic_node_tls_write` of so many bytes; `allocated` says that there is memory for them. -/
def write (length : Nat) (allocated : Bool) (socket : Native) :
    Except (Option String) Nat × Native :=
  if socket.ending || socket.failed || socket.closed then (.error none, socket)
  else if 268435456 - socket.queuedBytes < length then
    (.error (some "TLS queued writes exceed the byte budget"), socket)
  else if length = 0 then (.ok 0, socket)
  else
    let socket := { socket with outputLength := socket.queuedBytes, outputOffset := 0 }
    if allocated = false then (.error (some "Unable to allocate queued TLS write"), socket)
    else (.ok length, { socket with outputLength := socket.outputLength + length })

/-- `tsonic_node_tls_end`. -/
def endWrites (answers : ProgressAnswers) (socket : Native) : Except (Option String) Int × Native :=
  { socket with ending := true }.progress answers

/-- `tsonic_node_tls_finish_response`. -/
def finishResponse (answers : ProgressAnswers) (socket : Native) :
    Except (Option String) Int × Native :=
  { socket with closeAfterFlush := true }.endWrites answers

/-- `tsonic_node_tls_destroy`. -/
def destroy (socket : Native) : Native :=
  { socket with
    opened := false
    connecting := false
    ending := true
    outputLength := 0
    outputOffset := 0
    writeLength := 0
    writeAccepted := 0
    retryWrite := false }

/-! ### What a call can do -/

/-- A later state of a socket that has not failed: the calls below only close it, or lose it. -/
def Course.Healthy (course : Course) : Prop := course.socket.failed = false

theorem Course.Healthy.andThen {course : Course} {next : Native → Course} (h : course.Healthy)
    (hnext : ∀ socket : Native, socket.failed = false → (next socket).Healthy) :
    (course.andThen next).Healthy := by
  cases course with
  | on socket => exact hnext socket h
  | returned value socket => exact h
  | lost error socket => exact h

theorem pump_healthy {answer : PumpAnswer} {socket : Native} (h : socket.failed = false) :
    (socket.pump answer).Healthy := by
  unfold pump
  split
  · exact h
  · dsimp only
    split <;> exact h

theorem progressConnection_healthy {answers : ProgressAnswers} {socket : Native}
    (h : socket.failed = false) : (socket.progressConnection answers).Healthy := by
  unfold progressConnection
  split_ifs <;> exact h

theorem progressHandshake_healthy {answers : ProgressAnswers} {socket : Native}
    (h : socket.failed = false) : (socket.progressHandshake answers).Healthy := by
  unfold progressHandshake
  split
  · exact h
  · split
    · split
      · exact h
      · exact pump_healthy h
    · exact (pump_healthy h).andThen fun socket hsocket => hsocket
    · exact (pump_healthy h).andThen fun socket hsocket => hsocket
    · exact h

theorem progressOutput_healthy {answers : List WriteAnswer} {progressed : Nat} {socket : Native}
    (h : socket.failed = false) : (progressOutput answers progressed socket).Healthy := by
  induction answers generalizing progressed socket with
  | nil =>
    unfold progressOutput
    split <;> exact h
  | cons answer answers ih =>
    unfold progressOutput
    split
    · dsimp only
      split
      · exact h
      · split
        · refine Course.Healthy.andThen (pump_healthy h) fun socket hsocket => ?_
          exact ih hsocket
        · refine Course.Healthy.andThen (pump_healthy h) fun socket hsocket => ?_
          exact hsocket
        · refine Course.Healthy.andThen (pump_healthy h) fun socket hsocket => ?_
          exact hsocket
        · exact h
    · exact h

theorem progressShutdown_healthy {answers : ProgressAnswers} {socket : Native}
    (h : socket.failed = false) : (socket.progressShutdown answers).Healthy := by
  unfold progressShutdown
  split
  · dsimp only
    split
    · split <;> exact h
    · exact h
  · exact h

theorem course_healthy {answers : ProgressAnswers} {socket : Native} (h : socket.failed = false) :
    (socket.course answers).Healthy :=
  ((((((progressConnection_healthy h).andThen fun _ => pump_healthy).andThen
    fun _ => progressHandshake_healthy).andThen fun _ => progressOutput_healthy).andThen
      fun _ => progressShutdown_healthy).andThen fun _ => pump_healthy)

/-- A socket that has failed is closed. -/
def Lost (socket : Native) : Prop := socket.failed = true → socket.closed = true

theorem lose_lost (socket : Native) : socket.lose.Lost := fun _ => rfl

/-- A closed socket stays as it is, and only one that has failed raises. -/
theorem progress_closed {answers : ProgressAnswers} {socket : Native} (h : socket.closed = true) :
    socket.progress answers =
      (if socket.failed then .error (some "TLS connection has failed") else .ok 0, socket) := by
  unfold progress
  rw [if_pos h]
  split <;> rfl

/-- What a call does: it raises, and the socket has failed, or it has not. -/
structure Outcome {α : Type} (result : Except (Option String) α × Native) : Prop where
  lost : result.2.Lost
  failed : (∃ error, result.1 = .error error) ↔ result.2.failed = true

theorem Outcome.raised {α : Type} {error : Option String} {socket : Native} (h : socket.Lost)
    (hfailed : socket.failed = true) :
    Outcome ((.error error, socket) : Except (Option String) α × Native) :=
  ⟨h, fun _ => hfailed, fun _ => ⟨error, rfl⟩⟩

theorem Outcome.returned {α : Type} {value : α} {socket : Native} (h : socket.failed = false) :
    Outcome ((.ok value, socket) : Except (Option String) α × Native) where
  lost hfailed := by
    have hfailed : socket.failed = true := hfailed
    rw [h] at hfailed
    cases hfailed
  failed := by
    dsimp only
    rw [h]
    constructor
    · rintro ⟨error, ⟨⟩⟩
    · rintro ⟨⟩

theorem progressEnds_failed (answers : ProgressAnswers) (socket : Native) :
    (socket.progressEnds answers).failed = socket.failed := by
  unfold progressEnds
  dsimp only
  split <;> rfl

theorem progress_outcome (answers : ProgressAnswers) {socket : Native} (h : socket.Lost) :
    Outcome (socket.progress answers) := by
  unfold progress
  split
  · rename_i hfailed
    exact .raised h hfailed
  · rename_i hfailed
    rw [Bool.not_eq_true] at hfailed
    split
    · exact .returned hfailed
    · have hhealthy := @course_healthy answers socket hfailed
      cases hcourse : socket.course answers with
      | on socket' =>
        rw [hcourse] at hhealthy
        exact .returned ((progressEnds_failed answers socket').trans hhealthy)
      | returned value socket' =>
        rw [hcourse] at hhealthy
        exact .returned hhealthy
      | lost error socket' => exact .raised socket'.lose_lost rfl

/-- A call raises at a socket that has failed, or goes on at one that has not. -/
theorem Outcome.parts {α : Type} {result : Except (Option String) α × Native} (h : Outcome result) :
    (∃ error socket, result = (.error error, socket) ∧ socket.Lost ∧ socket.failed = true) ∨
      ∃ value socket, result = (.ok value, socket) ∧ socket.failed = false := by
  obtain ⟨error | value, socket⟩ := result
  · exact .inl ⟨error, socket, rfl, h.lost, h.failed.mp ⟨error, rfl⟩⟩
  · refine .inr ⟨value, socket, rfl, ?_⟩
    rw [← Bool.not_eq_true]
    intro hfailed
    obtain ⟨error, ⟨⟩⟩ := h.failed.mpr hfailed

theorem read_outcome (answers : ReadAnswers) {socket : Native} (h : socket.Lost) :
    Outcome (socket.read answers) := by
  unfold read
  rcases (progress_outcome answers.progress h).parts with
    ⟨error, socket, hraised, hlost, hfailed⟩ | ⟨value, socket, hreturned, hfailed⟩
  · rw [hraised]
    exact .raised hlost hfailed
  · rw [hreturned]
    dsimp only
    split_ifs
    · exact .returned hfailed
    · exact .returned hfailed
    · exact .returned hfailed
    · cases answers.read with
      | failed queued => exact .raised socket.lose_lost rfl
      | _ => exact .returned hfailed

theorem peek_outcome (answers : ReadAnswers) {socket : Native} (h : socket.Lost) :
    Outcome (socket.peek answers) := by
  unfold peek
  rcases (progress_outcome answers.progress h).parts with
    ⟨error, socket, hraised, hlost, hfailed⟩ | ⟨value, socket, hreturned, hfailed⟩
  · rw [hraised]
    exact .raised hlost hfailed
  · rw [hreturned]
    dsimp only
    split_ifs
    · exact .returned hfailed
    · exact .returned hfailed
    · cases answers.read with
      | failed queued => exact .raised socket.lose_lost rfl
      | _ => exact .returned hfailed

/-- Nor does a read change a closed socket. -/
theorem read_closed {answers : ReadAnswers} {socket : Native} (h : socket.closed = true) :
    (socket.read answers).2 = socket := by
  unfold read
  rw [progress_closed h]
  unfold closed at h
  cases hfailed : socket.failed with
  | true => rfl
  | false => simp_all

end Native

end TsonicNode.Tls
