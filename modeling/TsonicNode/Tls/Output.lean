import Mathlib.Data.List.Chain
import TsonicNode.Lib.Run
import TsonicNode.Lib.Http
import TsonicNode.Tls.Native

/-!
# The output of a TLS socket

The calls of the native socket with the bytes of its output buffer. `history`
keeps what they do: the bytes `tsonic_node_tls_write` accepts, each `SSL_write`
with what it is offered and its answer, and each `SSL_shutdown`. `Ordered` is
what holds of a history; `Kept` ties the buffer to it, and one lemma for each
call keeps `Kept`. An `SSL_write` takes at most what it is offered (`Fits`).
-/

namespace TsonicNode.Tls

open TsonicNode.Lib Native
open TsonicNode.Lib.Http (Bytes)

/-! ## History -/

inductive Transfer
  | accepted (bytes : Bytes)
  | offered (bytes : Bytes) (answer : SslAnswer)
  | shutdown

/-- The same `SSL_write` has to be called again. -/
def SslAnswer.waits : SslAnswer → Bool
  | .wantRead | .wantWrite => true
  | _ => false

namespace Transfer

def accepts : Transfer → Bytes
  | .accepted bytes => bytes
  | _ => []

/-- The plaintext that `SSL_write` has taken. -/
def takes : Transfer → Bytes
  | .offered bytes (.done count _) => bytes.take count
  | _ => []

def offers : Transfer → Option (Bytes × SslAnswer)
  | .offered bytes answer => some (bytes, answer)
  | _ => none

/-- `SSL_write` takes no more than it is offered. -/
def Fits : Transfer → Prop
  | .offered bytes (.done count _) => count ≤ bytes.length
  | _ => True

instance : (transfer : Transfer) → Decidable transfer.Fits
  | .offered bytes (.done count _) => inferInstanceAs (Decidable (count ≤ bytes.length))
  | .offered _ .wantRead | .offered _ .wantWrite | .offered _ .zeroReturn | .offered _ (.failed _) =>
    .isTrue trivial
  | .accepted _ | .shutdown => .isTrue trivial

end Transfer

abbrev History := List Transfer

namespace History

def accepted (history : History) : Bytes := history.flatMap Transfer.accepts

def taken (history : History) : Bytes := history.flatMap Transfer.takes

def offers (history : History) : List (Bytes × SslAnswer) := history.filterMap Transfer.offers

def Fits (history : History) : Prop := ∀ transfer ∈ history, transfer.Fits

instance (history : History) : Decidable history.Fits :=
  inferInstanceAs (Decidable (∀ transfer ∈ history, transfer.Fits))

/-- What holds of all that has been called. -/
structure Ordered (history : History) : Prop where
  /-- At each moment. -/
  taken : ∀ past, past <+: history → History.taken past <+: History.accepted past
  retried : history.offers.IsChain fun before next => before.2.waits = true → next.1 = before.1
  shutdown : ∀ past, past ++ [.shutdown] <+: history → History.taken past = history.accepted

end History

/-! ## The calls -/

structure Sender where
  socket : Native
  output : Bytes := []
  history : History := []

/-- How far a call has come, with the output. -/
structure Flow where
  course : Course
  output : Bytes
  history : History

namespace Flow

def andThen (flow : Flow) (next : Sender → Flow) : Flow :=
  match flow.course with
  | .on socket => next ⟨socket, flow.output, flow.history⟩
  | _ => flow

end Flow

namespace Sender

/-- A stage that leaves the output alone. -/
def lift (stage : Native → Course) (sender : Sender) : Flow :=
  ⟨stage sender.socket, sender.output, sender.history⟩

/-- The bytes that are offered. -/
def offer (sender : Sender) : Bytes :=
  (sender.output.drop sender.socket.outputOffset).take sender.socket.writeLength

/-- The loop that writes the output. -/
def progressOutput : List WriteAnswer → Nat → Sender → Flow
  | answers, progressed, sender =>
    if sender.socket.outputOffset < sender.socket.outputLength ∧ progressed < 65536 then
      match answers with
      | [] => sender.lift (.returned 1)
      | answer :: answers =>
        let progressed := progressed + sender.socket.writeAccepted
        let socket := sender.socket.settleWrite
        if socket.outputOffset = socket.outputLength ∨ 65536 ≤ progressed then
          { sender with socket }.lift .on
        else
          let length := if socket.writeLength = 0 then
            min 16384 (socket.outputLength - socket.outputOffset) else socket.writeLength
          let socket := { socket with writeLength := length }
          let sender := { sender with socket }
          let sender := { sender with history := sender.history ++ [Transfer.offered sender.offer answer.written] }
          match answer.written with
          | .done count _ =>
            ({ sender with
              socket := { socket with writeAccepted := count, writeLength := 0, retryWrite := false } }.lift
                (pump answer.pump)).andThen (progressOutput answers progressed)
          | .wantRead =>
            ({ sender with socket := { socket with retryWrite := false } }.lift (pump answer.pump)).andThen
              (lift (.returned 1))
          | .wantWrite =>
            ({ sender with socket := { socket with retryWrite := true } }.lift (pump answer.pump)).andThen
              (lift (.returned 1))
          | answer => sender.lift (.lost (some (answer.text "TLS write failed")))
    else sender.lift .on

def progressShutdown (answers : ProgressAnswers) (sender : Sender) : Flow :=
  if sender.socket.outputOffset = sender.socket.outputLength then
    ⟨sender.socket.progressShutdown answers, [],
      if sender.socket.ending && !answers.sentBefore then sender.history ++ [.shutdown] else sender.history⟩
  else sender.lift .on

/-- The body of `tsonic_node_tls_progress`. -/
def flow (answers : ProgressAnswers) (sender : Sender) : Flow :=
  (((((sender.lift (progressConnection answers)).andThen (lift (pump answers.first))).andThen
    (lift (progressHandshake answers))).andThen (progressOutput answers.writes 0)).andThen
      (progressShutdown answers)).andThen (lift (pump answers.last))

/-- `tsonic_node_tls_progress`. -/
def progress (answers : ProgressAnswers) (sender : Sender) : Except (Option String) Int × Sender :=
  if sender.socket.failed then (.error (some "TLS connection has failed"), sender)
  else if sender.socket.closed then (.ok 0, sender)
  else
    let flow := sender.flow answers
    match flow.course with
    | .on socket => (.ok 1, ⟨socket.progressEnds answers, flow.output, flow.history⟩)
    | .returned value socket => (.ok value, ⟨socket, flow.output, flow.history⟩)
    | .lost error socket => (.error error, ⟨socket.lose, flow.output, flow.history⟩)

/-- `tsonic_node_tls_read`: behind `progress` it leaves the output alone. -/
def read (answers : ReadAnswers) (sender : Sender) : Except (Option String) Int × Sender :=
  let result := sender.socket.read answers
  (result.1, { (sender.progress answers.progress).2 with socket := result.2 })

/-- `tsonic_node_tls_peek`. -/
def peek (answers : ReadAnswers) (sender : Sender) : Except (Option String) Int × Sender :=
  let result := sender.socket.peek answers
  (result.1, { (sender.progress answers.progress).2 with socket := result.2 })

/-- `tsonic_node_tls_write`. -/
def write (bytes : Bytes) (allocated : Bool) (sender : Sender) : Except (Option String) Nat × Sender :=
  let socket := sender.socket
  if socket.ending || socket.failed || socket.closed then (.error none, sender)
  else if 268435456 - socket.queuedBytes < bytes.length then
    (.error (some "TLS queued writes exceed the byte budget"), sender)
  else if bytes.length = 0 then (.ok 0, sender)
  else
    let sender := { sender with
      output := sender.output.drop socket.outputOffset
      socket := { socket with outputLength := socket.queuedBytes, outputOffset := 0 } }
    let socket := sender.socket
    if allocated = false then (.error (some "Unable to allocate queued TLS write"), sender)
    else
      (.ok bytes.length,
        { output := sender.output ++ bytes
          socket := { socket with outputLength := socket.outputLength + bytes.length }
          history := sender.history ++ [.accepted bytes] })

/-- `tsonic_node_tls_end`. -/
def endWrites (answers : ProgressAnswers) (sender : Sender) : Except (Option String) Int × Sender :=
  { sender with socket := { sender.socket with ending := true } }.progress answers

/-- `tsonic_node_tls_finish_response`. -/
def finishResponse (answers : ProgressAnswers) (sender : Sender) : Except (Option String) Int × Sender :=
  { sender with socket := { sender.socket with closeAfterFlush := true } }.endWrites answers

/-- `tsonic_node_tls_destroy`. -/
def destroy (sender : Sender) : Sender := { sender with socket := sender.socket.destroy, output := [] }

end Sender

/-- A call of the socket. -/
inductive NativeCall
  | progress (answers : ProgressAnswers)
  | read (answers : ReadAnswers)
  | peek (answers : ReadAnswers)
  | write (bytes : Bytes) (allocated : Bool)
  | endWrites (answers : ProgressAnswers)
  | finishResponse (answers : ProgressAnswers)
  | destroy

def Sender.call (sender : Sender) : NativeCall → Sender
  | .progress answers => (sender.progress answers).2
  | .read answers => (sender.read answers).2
  | .peek answers => (sender.peek answers).2
  | .write bytes allocated => (sender.write bytes allocated).2
  | .endWrites answers => (sender.endWrites answers).2
  | .finishResponse answers => (sender.finishResponse answers).2
  | .destroy => sender.destroy

/-! ## Histories -/

namespace History

variable {history : History}

theorem accepted_append (before after : History) :
    accepted (before ++ after) = before.accepted ++ after.accepted := List.flatMap_append

theorem taken_append (before after : History) : taken (before ++ after) = before.taken ++ after.taken :=
  List.flatMap_append

theorem Fits.of_append {before after : History} (h : Fits (before ++ after)) : before.Fits :=
  fun transfer hmem => h transfer (List.mem_append_left after hmem)

theorem Fits.of_begins {before after : History} (hbegins : before <+: after) (h : after.Fits) : before.Fits := by
  obtain ⟨more, rfl⟩ := hbegins
  exact h.of_append

theorem ordered_nil : Ordered [] where
  taken past hpast := by
    rw [List.prefix_nil.mp hpast]
    exact List.prefix_refl _
  retried := .nil
  shutdown past hpast := by
    have := List.prefix_nil.mp hpast
    exact absurd this (by simp)

/-- Bytes are accepted as long as no shutdown was sent. -/
theorem ordered_accepted (h : Ordered history) (hshutdown : Transfer.shutdown ∉ history) (bytes : Bytes) :
    Ordered (history ++ [.accepted bytes]) where
  taken past hpast := by
    rcases List.prefix_concat_iff.mp hpast with rfl | hpast
    · rw [taken_append, accepted_append]
      have := (h.taken history (List.prefix_refl _)).trans
        (List.prefix_append history.accepted (accepted [.accepted bytes]))
      rwa [show taken [.accepted bytes] = [] from rfl, List.append_nil]
    · exact h.taken past hpast
  retried := by
    have : offers (history ++ [.accepted bytes]) = history.offers := by
      simp [offers, Transfer.offers]
    rw [this]
    exact h.retried
  shutdown past hpast := by
    rcases List.prefix_concat_iff.mp hpast with heq | hpast
    · have := (List.append_inj' heq rfl).2
      cases this
    · exact absurd (hpast.subset (by simp)) hshutdown

/-- A call of `SSL_write`. -/
theorem ordered_offered (h : Ordered history) {bytes : Bytes} {answer : SslAnswer}
    (htaken : history.taken ++ (Transfer.offered bytes answer).takes <+: history.accepted)
    (hretried : ∀ last ∈ history.offers.getLast?, last.2.waits = true → bytes = last.1) :
    Ordered (history ++ [.offered bytes answer]) where
  taken past hpast := by
    rcases List.prefix_concat_iff.mp hpast with rfl | hpast
    · rw [taken_append, accepted_append, show accepted [.offered bytes answer] = [] from rfl, List.append_nil]
      simpa [History.taken] using htaken
    · exact h.taken past hpast
  retried := by
    have : History.offers (history ++ [.offered bytes answer]) = history.offers ++ [(bytes, answer)] := by
      simp [History.offers, Transfer.offers]
    rw [this, List.isChain_append]
    refine ⟨h.retried, List.isChain_singleton _, fun last hlast next hnext => ?_⟩
    obtain rfl : (bytes, answer) = next := by simpa using hnext
    exact hretried last hlast
  shutdown past hpast := by
    rcases List.prefix_concat_iff.mp hpast with heq | hpast
    · have := (List.append_inj' heq rfl).2
      cases this
    · rw [h.shutdown past hpast, accepted_append, show accepted [.offered bytes answer] = [] from rfl,
        List.append_nil]

/-- A shutdown behind the last byte. -/
theorem ordered_shutdown (h : Ordered history) (htaken : history.taken = history.accepted) :
    Ordered (history ++ [.shutdown]) where
  taken past hpast := by
    rcases List.prefix_concat_iff.mp hpast with rfl | hpast
    · rw [taken_append, accepted_append, htaken]
      exact List.prefix_refl _
    · exact h.taken past hpast
  retried := by
    have : History.offers (history ++ [.shutdown]) = history.offers := by
      simp [History.offers, Transfer.offers]
    rw [this]
    exact h.retried
  shutdown past hpast := by
    rw [accepted_append, show accepted [.shutdown] = [] from rfl, List.append_nil]
    rcases List.prefix_concat_iff.mp hpast with heq | hpast
    · rw [(List.append_inj' heq rfl).1, htaken]
    · exact h.shutdown past hpast

end History

/-! ## One call -/

/-- The fields of a socket that are about its output. -/
structure Same (socket socket' : Native) : Prop where
  outputLength : socket'.outputLength = socket.outputLength
  outputOffset : socket'.outputOffset = socket.outputOffset
  writeLength : socket'.writeLength = socket.writeLength
  writeAccepted : socket'.writeAccepted = socket.writeAccepted
  ending : socket'.ending = socket.ending

theorem Same.refl (socket : Native) : Same socket socket := ⟨rfl, rfl, rfl, rfl, rfl⟩

theorem Same.trans {socket socket' socket'' : Native} (h : Same socket socket') (h' : Same socket' socket'') :
    Same socket socket'' where
  outputLength := h'.outputLength.trans h.outputLength
  outputOffset := h'.outputOffset.trans h.outputOffset
  writeLength := h'.writeLength.trans h.writeLength
  writeAccepted := h'.writeAccepted.trans h.writeAccepted
  ending := h'.ending.trans h.ending

/-- What holds of the buffer in any case. -/
structure Bounded (sender : Sender) : Prop where
  ordered : sender.history.Ordered
  length : sender.socket.outputLength = sender.output.length
  within : sender.socket.outputOffset + sender.socket.writeAccepted ≤ sender.socket.outputLength

/-- The buffer of a socket that is open: behind what was taken it holds what was accepted, and where
`SSL_write` has to be called again it is offered the same. -/
structure Live (sender : Sender) : Prop extends Bounded sender where
  pending : sender.socket.writeLength ≠ 0 → sender.socket.writeAccepted = 0 ∧
    sender.socket.outputOffset + sender.socket.writeLength ≤ sender.socket.outputLength
  rest : sender.history.taken ++
    sender.output.drop (sender.socket.outputOffset + sender.socket.writeAccepted) = sender.history.accepted
  retry : ∀ last ∈ sender.history.offers.getLast?, last.2.waits = true →
    sender.socket.writeLength ≠ 0 ∧ last.1 = sender.offer
  ending : .shutdown ∈ sender.history → sender.socket.ending = true

/-- A closed socket is not written to again. -/
def Kept (sender : Sender) : Prop :=
  Live sender ∨ sender.socket.closed = true ∧ Bounded sender

theorem Kept.bounded {sender : Sender} (h : Kept sender) : Bounded sender := by
  rcases h with h | h
  · exact h.toBounded
  · exact h.2

theorem Live.same {sender : Sender} (h : Live sender) {socket : Native} (hsame : Same sender.socket socket) :
    Live { sender with socket } where
  ordered := h.ordered
  length := hsame.outputLength.trans h.length
  within := by
    rw [hsame.outputOffset, hsame.writeAccepted, hsame.outputLength]
    exact h.within
  pending := by
    rw [hsame.outputOffset, hsame.writeAccepted, hsame.outputLength, hsame.writeLength]
    exact h.pending
  rest := by
    rw [hsame.outputOffset, hsame.writeAccepted]
    exact h.rest
  retry last hlast hwaits := by
    obtain ⟨hlength, hoffer⟩ := h.retry last hlast hwaits
    refine ⟨hsame.writeLength ▸ hlength, hoffer.trans ?_⟩
    rw [Sender.offer, Sender.offer, hsame.outputOffset, hsame.writeLength]
  ending hmem := hsame.ending.trans (h.ending hmem)

namespace Flow

def sender (flow : Flow) : Sender := ⟨flow.course.socket, flow.output, flow.history⟩

end Flow

/-- A stage that goes on from a sender: it only adds to the history, and keeps what is live. -/
structure Goes (sender : Sender) (flow : Flow) : Prop where
  history : sender.history <+: flow.history
  live : flow.history.Fits → Live sender → Live flow.sender

theorem Goes.andThen {sender : Sender} {flow : Flow} {next : Sender → Flow} (h : Goes sender flow)
    (hnext : ∀ sender, Goes sender (next sender)) : Goes sender (flow.andThen next) := by
  cases hcourse : flow.course with
  | on socket =>
    have heq : flow.andThen next = next flow.sender := by
      rw [Flow.andThen, hcourse, Flow.sender, hcourse]
      rfl
    have hgoes := hnext flow.sender
    rw [heq]
    exact ⟨h.history.trans hgoes.history, fun hfits hlive =>
      hgoes.live hfits (h.live (hfits.of_begins hgoes.history) hlive)⟩
  | returned value socket =>
    have heq : flow.andThen next = flow := by rw [Flow.andThen, hcourse]
    rwa [heq]
  | lost error socket =>
    have heq : flow.andThen next = flow := by rw [Flow.andThen, hcourse]
    rwa [heq]

/-- A flow from a sender that was kept live. -/
theorem Goes.after {sender sender' : Sender} {flow : Flow} (h : Goes sender' flow)
    (hhistory : sender.history <+: sender'.history)
    (hlive : sender'.history.Fits → Live sender → Live sender') : Goes sender flow where
  history := hhistory.trans h.history
  live hfits hsender := h.live hfits (hlive (hfits.of_begins h.history) hsender)

theorem goes_lift {stage : Native → Course} {sender : Sender}
    (h : Same sender.socket (stage sender.socket).socket) : Goes sender (sender.lift stage) where
  history := List.prefix_refl _
  live _ hlive := hlive.same h

theorem pump_same (answer : PumpAnswer) (socket : Native) : Same socket (socket.pump answer).socket := by
  unfold pump
  split
  · exact ⟨rfl, rfl, rfl, rfl, rfl⟩
  · dsimp only
    split <;> exact ⟨rfl, rfl, rfl, rfl, rfl⟩

theorem progressConnection_same (answers : ProgressAnswers) (socket : Native) :
    Same socket (socket.progressConnection answers).socket := by
  unfold progressConnection
  split_ifs <;> exact ⟨rfl, rfl, rfl, rfl, rfl⟩

theorem waiting_same (answer : PumpAnswer) (value : Int) (socket : Native) :
    Same socket ((socket.pump answer).andThen fun socket => .returned value socket).socket := by
  have hpump := pump_same answer socket
  cases hcourse : socket.pump answer <;> rwa [hcourse] at hpump

theorem progressHandshake_same (answers : ProgressAnswers) (socket : Native) :
    Same socket (socket.progressHandshake answers).socket := by
  unfold progressHandshake
  split
  · exact .refl socket
  · split
    · split
      · exact ⟨rfl, rfl, rfl, rfl, rfl⟩
      · have hready : Same socket { socket with ready := true } := ⟨rfl, rfl, rfl, rfl, rfl⟩
        exact hready.trans (pump_same answers.completed { socket with ready := true })
    · exact waiting_same answers.waiting 0 socket
    · exact waiting_same answers.waiting 0 socket
    · exact ⟨rfl, rfl, rfl, rfl, rfl⟩

theorem progressEnds_same (answers : ProgressAnswers) (socket : Native) :
    Same socket (socket.progressEnds answers) := by
  unfold progressEnds
  dsimp only
  split <;> exact ⟨rfl, rfl, rfl, rfl, rfl⟩

/-! ### Writing -/

theorem takes_begins (bytes : Bytes) (answer : SslAnswer) :
    (Transfer.offered bytes answer).takes <+: bytes := by
  unfold Transfer.takes
  split
  · rename_i heq
    cases heq
    exact List.take_prefix _ _
  · exact List.nil_prefix

/-- What was taken is counted. -/
theorem Live.settles {sender : Sender} (h : Live sender) :
    Live { sender with socket := sender.socket.settleWrite } where
  ordered := h.ordered
  length := h.length
  within := h.within
  pending hlength := by
    obtain ⟨haccepted, hfits⟩ := h.pending hlength
    refine ⟨rfl, ?_⟩
    show sender.socket.outputOffset + sender.socket.writeAccepted + sender.socket.writeLength ≤
      sender.socket.outputLength
    omega
  rest := h.rest
  retry last hlast hwaits := by
    obtain ⟨hlength, hoffer⟩ := h.retry last hlast hwaits
    refine ⟨hlength, hoffer.trans ?_⟩
    have hoffset : sender.socket.settleWrite.outputOffset = sender.socket.outputOffset := by
      show sender.socket.outputOffset + sender.socket.writeAccepted = _
      rw [(h.pending hlength).1, Nat.add_zero]
    rw [Sender.offer, Sender.offer, hoffset]
    rfl
  ending := h.ending

/-- What is offered next is chosen, unless `SSL_write` has to be called again. -/
theorem Live.chooses {sender : Sender} (h : Live sender) (haccepted : sender.socket.writeAccepted = 0)
    (hleft : sender.socket.outputOffset ≠ sender.socket.outputLength) {length : Nat}
    (hlength : length = if sender.socket.writeLength = 0 then
      min 16384 (sender.socket.outputLength - sender.socket.outputOffset) else sender.socket.writeLength) :
    length ≠ 0 ∧ Live { sender with socket := { sender.socket with writeLength := length } } := by
  have hwithin := h.within
  have hpending := h.pending
  have hroom : length ≠ 0 ∧ sender.socket.outputOffset + length ≤ sender.socket.outputLength := by
    split_ifs at hlength with hzero
    · omega
    · have := hpending hzero
      omega
  refine ⟨hroom.1, ⟨h.ordered, h.length, hwithin⟩, fun _ => ⟨haccepted, hroom.2⟩, h.rest, ?_, h.ending⟩
  intro last hlast hwaits
  obtain ⟨hsame, hoffer⟩ := h.retry last hlast hwaits
  rw [if_neg hsame] at hlength
  refine ⟨hroom.1, hoffer.trans ?_⟩
  rw [Sender.offer, Sender.offer, hlength]

section Offered

variable {sender : Sender} (h : Live sender) (hlength : sender.socket.writeLength ≠ 0) (answer : SslAnswer)

include h hlength

theorem Live.ordered_offer : History.Ordered (sender.history ++ [.offered sender.offer answer]) := by
  refine History.ordered_offered h.ordered ?_ fun last hlast hwaits => (h.retry last hlast hwaits).2.symm
  obtain ⟨haccepted, -⟩ := h.pending hlength
  have hrest := h.rest
  rw [haccepted, Nat.add_zero] at hrest
  rw [← hrest, List.prefix_append_right_inj]
  exact (takes_begins _ _).trans (List.take_prefix _ _)

/-- `SSL_write` has taken nothing. -/
theorem Live.offers (htakes : (Transfer.offered sender.offer answer).takes = []) :
    Live { sender with history := sender.history ++ [.offered sender.offer answer] } where
  ordered := h.ordered_offer hlength answer
  length := h.length
  within := h.within
  pending := h.pending
  rest := by
    have haccepted : History.accepted [.offered sender.offer answer] = [] := rfl
    have htaken : History.taken [.offered sender.offer answer] = [] := by
      rw [History.taken, List.flatMap_singleton, htakes]
    rw [History.taken_append, History.accepted_append, haccepted, htaken, List.append_nil, List.append_nil]
    exact h.rest
  retry last hlast _ := by
    have : History.offers (sender.history ++ [.offered sender.offer answer]) =
        sender.history.offers ++ [(sender.offer, answer)] := by
      simp [History.offers, Transfer.offers]
    rw [this, List.getLast?_concat, Option.mem_some_iff] at hlast
    rw [← hlast]
    exact ⟨hlength, rfl⟩
  ending hmem := by
    refine h.ending ?_
    simpa using hmem

/-- `SSL_write` has taken `count` bytes. -/
theorem Live.takes {count : Nat} (positive : 0 < count)
    (hcount : count ≤ sender.offer.length) :
    Live { sender with
      history := sender.history ++ [.offered sender.offer (.done count positive)]
      socket := { sender.socket with writeAccepted := count, writeLength := 0, retryWrite := false } } where
  ordered := h.ordered_offer hlength _
  length := h.length
  within := by
    have hle : sender.offer.length ≤ sender.output.length - sender.socket.outputOffset := by
      rw [Sender.offer, List.length_take, List.length_drop]
      omega
    have hlen := h.length
    show sender.socket.outputOffset + count ≤ sender.socket.outputLength
    omega
  pending hzero := absurd rfl hzero
  rest := by
    obtain ⟨haccepted, -⟩ := h.pending hlength
    have hrest := h.rest
    rw [haccepted, Nat.add_zero] at hrest
    have htaken : History.taken [.offered sender.offer (.done count positive)] =
        (sender.output.drop sender.socket.outputOffset).take count := by
      rw [History.taken, List.flatMap_singleton]
      show sender.offer.take count = _
      rw [Sender.offer, List.length_take] at hcount
      rw [Sender.offer, List.take_take, Nat.min_eq_left (by omega)]
    have hnone : History.accepted [.offered sender.offer (.done count positive)] = [] := rfl
    rw [History.taken_append, History.accepted_append, hnone, htaken, List.append_nil]
    show _ ++ sender.output.drop (sender.socket.outputOffset + count) = _
    rw [← List.drop_drop, List.append_assoc, List.take_append_drop, hrest]
  retry last hlast hwaits := by
    have : History.offers (sender.history ++ [.offered sender.offer (.done count positive)]) =
        sender.history.offers ++ [(sender.offer, .done count positive)] := by
      simp [History.offers, Transfer.offers]
    rw [this, List.getLast?_concat, Option.mem_some_iff] at hlast
    rw [← hlast] at hwaits
    cases hwaits
  ending hmem := by
    refine h.ending ?_
    simpa using hmem

end Offered

/-- The loop keeps what is live. -/
theorem goes_progressOutput (answers : List WriteAnswer) (progressed : Nat) (sender : Sender) :
    Goes sender (sender.progressOutput answers progressed) := by
  induction answers generalizing progressed sender with
  | nil =>
    unfold Sender.progressOutput
    split
    · exact goes_lift (.refl _)
    · exact goes_lift (.refl _)
  | cons answer answers ih =>
    unfold Sender.progressOutput
    split
    · dsimp only
      split
      · exact ⟨List.prefix_refl _, fun _ hlive => hlive.settles⟩
      · rename_i hon
        generalize hlength : (if sender.socket.settleWrite.writeLength = 0 then _ else _) = length
        have hleft : sender.socket.settleWrite.outputOffset ≠ sender.socket.settleWrite.outputLength :=
          fun h => hon (.inl h)
        have hchosen := fun hlive : Live sender => hlive.settles.chooses rfl hleft hlength.symm
        cases hwritten : answer.written with
        | done count positive =>
          refine ((goes_lift (pump_same answer.pump _)).andThen fun sender => ih _ sender).after
            (List.prefix_append _ _) fun hfits hlive => ?_
          obtain ⟨hne, hlive⟩ := hchosen hlive
          exact hlive.takes hne positive (hfits _ (List.mem_append_right _ List.mem_cons_self))
        | wantRead =>
          refine ((goes_lift (pump_same answer.pump _)).andThen fun sender => goes_lift (.refl _)).after
            (List.prefix_append _ _) fun _ hlive => ?_
          obtain ⟨hne, hlive⟩ := hchosen hlive
          exact (hlive.offers hne .wantRead rfl).same ⟨rfl, rfl, rfl, rfl, rfl⟩
        | wantWrite =>
          refine ((goes_lift (pump_same answer.pump _)).andThen fun sender => goes_lift (.refl _)).after
            (List.prefix_append _ _) fun _ hlive => ?_
          obtain ⟨hne, hlive⟩ := hchosen hlive
          exact (hlive.offers hne .wantWrite rfl).same ⟨rfl, rfl, rfl, rfl, rfl⟩
        | zeroReturn =>
          refine (goes_lift (.refl _)).after (List.prefix_append _ _) fun _ hlive => ?_
          obtain ⟨hne, hlive⟩ := hchosen hlive
          exact hlive.offers hne .zeroReturn rfl
        | failed queued =>
          refine (goes_lift (.refl _)).after (List.prefix_append _ _) fun _ hlive => ?_
          obtain ⟨hne, hlive⟩ := hchosen hlive
          exact hlive.offers hne (.failed queued) rfl
    · exact goes_lift (.refl _)

theorem progressShutdown_fields (answers : ProgressAnswers) (socket : Native)
    (h : socket.outputOffset = socket.outputLength) :
    Same { socket with outputLength := 0, outputOffset := 0 } (socket.progressShutdown answers).socket := by
  unfold Native.progressShutdown
  rw [if_pos h]
  dsimp only
  split
  · split <;> exact ⟨rfl, rfl, rfl, rfl, rfl⟩
  · exact ⟨rfl, rfl, rfl, rfl, rfl⟩

/-- Where the buffer is empty all that was accepted was taken. -/
theorem Live.empties {sender : Sender} (h : Live sender)
    (hempty : sender.socket.outputOffset = sender.socket.outputLength) :
    sender.history.taken = sender.history.accepted ∧ sender.socket.writeAccepted = 0 ∧
      sender.socket.writeLength = 0 := by
  have hwithin := h.within
  have haccepted : sender.socket.writeAccepted = 0 := by omega
  have hlength : sender.socket.writeLength = 0 := by
    by_contra hne
    have := h.pending hne
    omega
  refine ⟨?_, haccepted, hlength⟩
  rw [← h.rest, List.drop_of_length_le (by rw [← h.length]; omega), List.append_nil]

theorem goes_progressShutdown (answers : ProgressAnswers) (sender : Sender) :
    Goes sender (sender.progressShutdown answers) := by
  unfold Sender.progressShutdown
  split
  · rename_i hempty
    have hfields := progressShutdown_fields answers sender.socket hempty
    have hhistory : sender.history <+:
        if sender.socket.ending && !answers.sentBefore then sender.history ++ [.shutdown] else sender.history := by
      split
      · exact List.prefix_append _ _
      · exact List.prefix_refl _
    refine ⟨hhistory, fun _ hlive => ?_⟩
    obtain ⟨htaken, haccepted, hlength⟩ := hlive.empties hempty
    -- the buffer is freed in both cases
    have hfreed : ∀ history : History, history.Ordered → history.taken = history.accepted →
        history.offers = sender.history.offers →
        (.shutdown ∈ history → sender.socket.ending = true) →
        Live ⟨{ sender.socket with outputLength := 0, outputOffset := 0 }, [], history⟩ := by
      intro history hordered hhistory hoffers hending
      refine ⟨⟨hordered, rfl, ?_⟩, fun hne => absurd hlength hne, ?_, ?_, hending⟩
      · show 0 + sender.socket.writeAccepted ≤ 0
        omega
      · rw [List.drop_nil, List.append_nil, hhistory]
      · intro last hlast hwaits
        rw [hoffers] at hlast
        exact absurd hlength (hlive.retry last hlast hwaits).1
    split
    · rename_i hshutdown
      refine (hfreed _ (History.ordered_shutdown hlive.ordered htaken) ?_ ?_ ?_).same hfields
      · rw [History.taken_append, History.accepted_append, htaken]
        rfl
      · simp [History.offers, Transfer.offers]
      · intro _
        exact (Bool.and_eq_true_iff.mp hshutdown).1
    · exact (hfreed _ hlive.ordered htaken rfl hlive.ending).same hfields
  · exact goes_lift (.refl _)

theorem goes_flow (answers : ProgressAnswers) (sender : Sender) : Goes sender (sender.flow answers) :=
  ((((((goes_lift (progressConnection_same answers _)).andThen fun _ => goes_lift (pump_same _ _)).andThen
    fun _ => goes_lift (progressHandshake_same answers _)).andThen fun _ => goes_progressOutput _ _ _).andThen
      fun _ => goes_progressShutdown answers _).andThen fun _ => goes_lift (pump_same _ _))

/-! ### The socket without its bytes -/

theorem lift_course (stage : Native → Course) (sender : Sender) :
    (sender.lift stage).course = stage sender.socket := rfl

theorem andThen_course {flow : Flow} {next : Sender → Flow} {next' : Native → Course}
    (h : ∀ sender, (next sender).course = next' sender.socket) :
    (flow.andThen next).course = flow.course.andThen next' := by
  cases hcourse : flow.course with
  | on socket =>
    have hnext := h ⟨socket, flow.output, flow.history⟩
    rw [Flow.andThen, hcourse]
    exact hnext
  | returned value socket =>
    rw [Flow.andThen, hcourse]
    exact hcourse
  | lost error socket =>
    rw [Flow.andThen, hcourse]
    exact hcourse

theorem progressOutput_course (answers : List WriteAnswer) (progressed : Nat) (sender : Sender) :
    (sender.progressOutput answers progressed).course =
      Native.progressOutput answers progressed sender.socket := by
  induction answers generalizing progressed sender with
  | nil =>
    unfold Sender.progressOutput Native.progressOutput
    split <;> rfl
  | cons answer answers ih =>
    unfold Sender.progressOutput Native.progressOutput
    split
    · dsimp only
      split
      · rfl
      · cases answer.written with
        | done count positive => exact andThen_course fun sender => ih _ sender
        | wantRead => exact andThen_course fun sender => rfl
        | wantWrite => exact andThen_course fun sender => rfl
        | zeroReturn => rfl
        | failed queued => rfl
    · rfl

theorem progressShutdown_course (answers : ProgressAnswers) (sender : Sender) :
    (sender.progressShutdown answers).course = sender.socket.progressShutdown answers := by
  unfold Sender.progressShutdown
  split
  · rfl
  · rename_i hleft
    rw [Native.progressShutdown, if_neg hleft]
    rfl

theorem flow_course (answers : ProgressAnswers) (sender : Sender) :
    (sender.flow answers).course = sender.socket.course answers := by
  unfold Sender.flow Native.course
  rw [andThen_course (lift_course _), andThen_course (progressShutdown_course answers),
    andThen_course (progressOutput_course answers.writes 0), andThen_course (lift_course _),
    andThen_course (lift_course _)]
  rfl

/-- The calls answer as those of the native socket, and leave it as they do. -/
theorem progress_socket (answers : ProgressAnswers) (sender : Sender) :
    (sender.progress answers).1 = (sender.socket.progress answers).1 ∧
      (sender.progress answers).2.socket = (sender.socket.progress answers).2 := by
  have hcourse := flow_course answers sender
  unfold Sender.progress Native.progress
  dsimp only
  rw [hcourse]
  split_ifs
  · exact ⟨rfl, rfl⟩
  · exact ⟨rfl, rfl⟩
  · clear hcourse
    cases sender.socket.course answers <;> exact ⟨rfl, rfl⟩

theorem write_socket (bytes : Bytes) (allocated : Bool) (sender : Sender) :
    (sender.write bytes allocated).1 = (sender.socket.write bytes.length allocated).1 ∧
      (sender.write bytes allocated).2.socket = (sender.socket.write bytes.length allocated).2 := by
  unfold Sender.write Native.write
  dsimp only
  split_ifs <;> exact ⟨rfl, rfl⟩

/-! ## Runs -/

/-- A call only adds to the history, and keeps the buffer. -/
structure Moves (sender sender' : Sender) : Prop where
  history : sender.history <+: sender'.history
  kept : sender'.history.Fits → Kept sender → Kept sender'

theorem Kept.live {sender : Sender} (h : Kept sender) (hopen : sender.socket.closed = false) : Live sender := by
  rcases h with h | ⟨hclosed, -⟩
  · exact h
  · rw [hopen] at hclosed
    cases hclosed

theorem moves_progress (answers : ProgressAnswers) (sender : Sender) :
    Moves sender (sender.progress answers).2 := by
  unfold Sender.progress
  dsimp only
  split_ifs with hfailed hclosed
  · exact ⟨List.prefix_refl _, fun _ h => h⟩
  · exact ⟨List.prefix_refl _, fun _ h => h⟩
  · rw [Bool.not_eq_true] at hclosed
    have hgoes := goes_flow answers sender
    have hend : ∀ socket : Native, Same (sender.flow answers).course.socket socket →
        Moves sender ⟨socket, (sender.flow answers).output, (sender.flow answers).history⟩ := fun socket hsame =>
      ⟨hgoes.history, fun hfits hkept => .inl ((hgoes.live hfits (hkept.live hclosed)).same hsame)⟩
    cases hcourse : (sender.flow answers).course with
    | on socket => exact hend _ (hcourse ▸ progressEnds_same answers socket)
    | returned value socket => exact hend _ (hcourse ▸ .refl socket)
    | lost error socket => exact hend _ (hcourse ▸ ⟨rfl, rfl, rfl, rfl, rfl⟩)

/-- Behind `progress` a read only closes the socket. -/
structure Closes (socket socket' : Native) : Prop where
  same : Same socket socket'
  closed : socket.closed = true → socket'.closed = true

theorem Closes.refl (socket : Native) : Closes socket socket := ⟨.refl socket, id⟩

theorem read_closes (answers : ReadAnswers) (socket : Native) :
    Closes (socket.progress answers.progress).2 (socket.read answers).2 := by
  unfold Native.read
  generalize socket.progress answers.progress = result
  obtain ⟨error | value, socket⟩ := result
  · exact .refl socket
  · dsimp only
    split_ifs
    · exact .refl socket
    · exact .refl socket
    · exact .refl socket
    · split
      · exact .refl socket
      · refine ⟨⟨rfl, rfl, rfl, rfl, rfl⟩, fun hclosed => ?_⟩
        simp only [closed, Bool.and_eq_true, Bool.not_eq_true'] at hclosed ⊢
        rw [hclosed.1, hclosed.2]
        exact ⟨rfl, rfl⟩
      · exact .refl socket
      · exact .refl socket
      · exact ⟨⟨rfl, rfl, rfl, rfl, rfl⟩, fun _ => rfl⟩

theorem peek_closes (answers : ReadAnswers) (socket : Native) :
    Closes (socket.progress answers.progress).2 (socket.peek answers).2 := by
  unfold Native.peek
  generalize socket.progress answers.progress = result
  obtain ⟨error | value, socket⟩ := result
  · exact .refl socket
  · dsimp only
    split_ifs
    · exact .refl socket
    · exact .refl socket
    · split
      · exact .refl socket
      · exact .refl socket
      · exact .refl socket
      · exact ⟨⟨rfl, rfl, rfl, rfl, rfl⟩, id⟩
      · exact ⟨⟨rfl, rfl, rfl, rfl, rfl⟩, fun _ => rfl⟩

theorem Moves.closes {sender sender' : Sender} (h : Moves sender sender') {socket : Native}
    (hcloses : Closes sender'.socket socket) : Moves sender { sender' with socket } where
  history := h.history
  kept hfits hkept := by
    rcases h.kept hfits hkept with hlive | ⟨hclosed, hbounded⟩
    · exact .inl (hlive.same hcloses.same)
    · refine .inr ⟨hcloses.closed hclosed, hbounded.ordered, ?_, ?_⟩
      · exact hcloses.same.outputLength.trans hbounded.length
      · show socket.outputOffset + socket.writeAccepted ≤ socket.outputLength
        rw [hcloses.same.outputOffset, hcloses.same.writeAccepted, hcloses.same.outputLength]
        exact hbounded.within

/-- The bytes behind the offset move to the front. -/
theorem Live.compacts {sender : Sender} (h : Live sender) :
    Live { sender with
      output := sender.output.drop sender.socket.outputOffset
      socket := { sender.socket with outputLength := sender.socket.queuedBytes, outputOffset := 0 } } where
  ordered := h.ordered
  length := by
    show sender.socket.outputLength - sender.socket.outputOffset = _
    rw [List.length_drop, h.length]
  within := by
    have := h.within
    show 0 + sender.socket.writeAccepted ≤ sender.socket.outputLength - sender.socket.outputOffset
    omega
  pending hne := by
    obtain ⟨haccepted, hfits⟩ := h.pending hne
    refine ⟨haccepted, ?_⟩
    show 0 + sender.socket.writeLength ≤ sender.socket.outputLength - sender.socket.outputOffset
    omega
  rest := by
    show _ ++ (sender.output.drop sender.socket.outputOffset).drop (0 + sender.socket.writeAccepted) = _
    rw [List.drop_drop, Nat.zero_add]
    exact h.rest
  retry last hlast hwaits := h.retry last hlast hwaits
  ending := h.ending

/-- More bytes behind do not change what is offered. -/
theorem Live.offer_append {sender : Sender} (h : Live sender) (bytes : Bytes) :
    (sender.output.drop sender.socket.outputOffset).take sender.socket.writeLength =
      ((sender.output ++ bytes).drop sender.socket.outputOffset).take sender.socket.writeLength := by
  by_cases hzero : sender.socket.writeLength = 0
  · rw [hzero, List.take_zero, List.take_zero]
  · obtain ⟨-, hfits⟩ := h.pending hzero
    have hlength := h.length
    rw [List.drop_append_of_le_length (by omega), List.take_append_of_le_length (by rw [List.length_drop]; omega)]

theorem Live.extends {sender : Sender} (h : Live sender) (hending : sender.socket.ending = false)
    (bytes : Bytes) :
    Live { output := sender.output ++ bytes
           socket := { sender.socket with outputLength := sender.socket.outputLength + bytes.length }
           history := sender.history ++ [.accepted bytes] } where
  ordered := by
    refine History.ordered_accepted h.ordered (fun hmem => ?_) bytes
    rw [h.ending hmem] at hending
    cases hending
  length := by
    rw [List.length_append, ← h.length]
  within := Nat.le_add_right_of_le h.within
  pending hne := ⟨(h.pending hne).1, Nat.le_add_right_of_le (h.pending hne).2⟩
  rest := by
    have hwithin := h.within
    rw [h.length] at hwithin
    have hnone : History.taken [.accepted bytes] = [] := rfl
    have hbytes : History.accepted [.accepted bytes] = bytes := List.flatMap_singleton ..
    rw [History.taken_append, History.accepted_append, hnone, hbytes, List.append_nil, ← h.rest]
    show _ ++ (sender.output ++ bytes).drop (sender.socket.outputOffset + sender.socket.writeAccepted) = _
    rw [List.drop_append_of_le_length hwithin, List.append_assoc]
  retry last hlast hwaits := by
    have : History.offers (sender.history ++ [.accepted bytes]) = sender.history.offers := by
      simp [History.offers, Transfer.offers]
    rw [this] at hlast
    obtain ⟨hne, hoffer⟩ := h.retry last hlast hwaits
    exact ⟨hne, hoffer.trans (h.offer_append bytes)⟩
  ending hmem := by
    refine h.ending ?_
    simpa using hmem

theorem Moves.refl (sender : Sender) : Moves sender sender := ⟨List.prefix_refl _, fun _ h => h⟩

theorem Moves.trans {sender sender' sender'' : Sender} (h : Moves sender sender') (h' : Moves sender' sender'') :
    Moves sender sender'' where
  history := h.history.trans h'.history
  kept hfits hkept := h'.kept hfits (h.kept (hfits.of_begins h'.history) hkept)

theorem moves_write (bytes : Bytes) (allocated : Bool) (sender : Sender) :
    Moves sender (sender.write bytes allocated).2 := by
  unfold Sender.write
  dsimp only
  split_ifs with hclosed hbudget hnone hallocated
  · exact .refl sender
  · exact .refl sender
  · exact .refl sender
  all_goals
    rw [Bool.or_eq_true, Bool.or_eq_true, not_or, not_or, Bool.not_eq_true, Bool.not_eq_true,
      Bool.not_eq_true] at hclosed
    obtain ⟨⟨hending, -⟩, hopen⟩ := hclosed
  · exact ⟨List.prefix_refl _, fun _ hkept => .inl (hkept.live hopen).compacts⟩
  · exact ⟨List.prefix_append _ _, fun _ hkept => .inl ((hkept.live hopen).compacts.extends hending bytes)⟩

/-- A mark that no more is to be written. -/
theorem Kept.marks {sender : Sender} (h : Kept sender) {socket : Native}
    (hmark : Same { sender.socket with ending := true } socket) (hclosed : socket.closed = sender.socket.closed) :
    Kept { sender with socket } := by
  rcases h with h | ⟨hsender, h⟩
  · have hends : Live { sender with socket := { sender.socket with ending := true } } :=
      ⟨⟨h.ordered, h.length, h.within⟩, h.pending, h.rest, h.retry, fun _ => rfl⟩
    exact .inl (hends.same hmark)
  · refine .inr ⟨hclosed.trans hsender, h.ordered, hmark.outputLength.trans h.length, ?_⟩
    show socket.outputOffset + socket.writeAccepted ≤ socket.outputLength
    rw [hmark.outputOffset, hmark.writeAccepted, hmark.outputLength]
    exact h.within

theorem moves_call (sender : Sender) (call : NativeCall) : Moves sender (sender.call call) := by
  cases call with
  | progress answers => exact moves_progress answers sender
  | read answers =>
    refine (moves_progress answers.progress sender).closes ?_
    rw [(progress_socket answers.progress sender).2]
    exact read_closes answers sender.socket
  | peek answers =>
    refine (moves_progress answers.progress sender).closes ?_
    rw [(progress_socket answers.progress sender).2]
    exact peek_closes answers sender.socket
  | write bytes allocated => exact moves_write bytes allocated sender
  | endWrites answers =>
    have hmark : Moves sender { sender with socket := { sender.socket with ending := true } } :=
      ⟨List.prefix_refl _, fun _ hkept => hkept.marks ⟨rfl, rfl, rfl, rfl, rfl⟩ rfl⟩
    exact hmark.trans (moves_progress answers _)
  | finishResponse answers =>
    have hmark : Moves sender
        { sender with socket := { sender.socket with closeAfterFlush := true, ending := true } } :=
      ⟨List.prefix_refl _, fun _ hkept => hkept.marks ⟨rfl, rfl, rfl, rfl, rfl⟩ rfl⟩
    exact hmark.trans (moves_progress answers _)
  | destroy =>
    refine ⟨List.prefix_refl _, fun _ hkept => .inr ⟨rfl, hkept.bounded.ordered, rfl, ?_⟩⟩
    exact Nat.le_refl 0

theorem moves_run (sender : Sender) (calls : List NativeCall) : Moves sender (run Sender.call sender calls) :=
  run_relation .refl .trans moves_call sender calls

theorem kept_start {socket : Native} (hstart : socket = connect ∨ socket = accept) : Kept ⟨socket, [], []⟩ := by
  refine .inl ?_
  rcases hstart with rfl | rfl <;>
    exact ⟨⟨History.ordered_nil, rfl, Nat.le_refl 0⟩, fun hne => absurd rfl hne, rfl, nofun, nofun⟩

/-- A write changes neither what is offered next nor what was taken. -/
theorem Kept.write {sender : Sender} (h : Kept sender) (bytes : Bytes) (allocated : Bool) :
    let sender' := (sender.write bytes allocated).2
    sender'.offer = sender.offer ∧ sender'.socket.writeLength = sender.socket.writeLength ∧
      sender'.socket.writeAccepted = sender.socket.writeAccepted ∧
      sender'.history.taken = sender.history.taken := by
  unfold Sender.write
  dsimp only
  split_ifs with hclosed hbudget hnone hallocated
  · exact ⟨rfl, rfl, rfl, rfl⟩
  · exact ⟨rfl, rfl, rfl, rfl⟩
  · exact ⟨rfl, rfl, rfl, rfl⟩
  · exact ⟨rfl, rfl, rfl, rfl⟩
  · rw [Bool.or_eq_true, not_or, Bool.not_eq_true, Bool.not_eq_true] at hclosed
    refine ⟨((h.live hclosed.2).compacts.offer_append bytes).symm, rfl, rfl, ?_⟩
    rw [History.taken_append, show History.taken [.accepted bytes] = [] from rfl, List.append_nil]

/-- In every run of the calls of a socket the bytes `SSL_write` has taken are the first of those
that were accepted, it is called again with what it was offered, and a shutdown is sent behind the
last byte; the offset stays within the buffer, and a write leaves the next `SSL_write` as it is. -/
theorem output_ordered {socket : Native} (hstart : socket = connect ∨ socket = accept) (calls : List NativeCall)
    (hfits : (run Sender.call ⟨socket, [], []⟩ calls).history.Fits) :
    let sender := run Sender.call ⟨socket, [], []⟩ calls
    sender.history.Ordered ∧
      sender.socket.outputOffset + sender.socket.writeAccepted ≤ sender.socket.outputLength ∧
      sender.socket.outputLength = sender.output.length ∧
      ∀ bytes allocated, let sender' := (sender.write bytes allocated).2
        sender'.offer = sender.offer ∧ sender'.socket.writeLength = sender.socket.writeLength ∧
          sender'.socket.writeAccepted = sender.socket.writeAccepted ∧
          sender'.history.taken = sender.history.taken := by
  have hkept := (moves_run ⟨socket, [], []⟩ calls).kept hfits (kept_start hstart)
  have hbounded := hkept.bounded
  exact ⟨hbounded.ordered, hbounded.within, hbounded.length, hkept.write⟩

/-- Two bytes are offered, a write comes in between, and the two are offered again. -/
theorem output_ordered_retried :
    (run Sender.call ⟨accept, [], []⟩
      [.write [1, 2] true, .progress { handshake := .done 1 Nat.one_pos, writes := [⟨.wantWrite, {}⟩] },
        .write [3] true,
        .endWrites { writes := [⟨.done 1 Nat.one_pos, {}⟩, ⟨.done 2 Nat.two_pos, {}⟩, ⟨.wantRead, {}⟩] }]).history.Ordered :=
  (output_ordered (.inr rfl) [.write [1, 2] true,
    .progress { handshake := .done 1 Nat.one_pos, writes := [⟨.wantWrite, {}⟩] }, .write [3] true,
    .endWrites { writes := [⟨.done 1 Nat.one_pos, {}⟩, ⟨.done 2 Nat.two_pos, {}⟩, ⟨.wantRead, {}⟩] }]
      (by decide +kernel)).1

end TsonicNode.Tls
