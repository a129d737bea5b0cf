import TsonicNode.Worker.Link
import TsonicNode.Worker.Ports

/-!
# A message channel inside the process

The two inboxes of `local_pair` with their heads and their compaction, and the
two ports over them. `Inbox.view` is the inbox as `Ports` has it: the messages
that wait. A poll is its two transactions with the inbox, `pollReceive` and
`settle`; what listeners do between them are steps of their own, as is
everything the rest of the program does.

`Lossless` is the invariant: what waits at a port that has not closed is what
the other has accepted and this one has not received.
-/

namespace TsonicNode.Worker.LocalChannel

open TsonicNode.Lib
open TsonicNode.Worker.Ports (JsValues PortError)

variable {V : Type}

/-! ## The inbox -/

structure Inbox (V : Type) where
  messages : List V := []
  head : Nat := 0
  closed : Bool := false
  bound : head ≤ messages.length := by exact Nat.zero_le _

namespace Inbox

def empty (inbox : Inbox V) : Bool := inbox.head == inbox.messages.length

/-- The messages that wait. -/
def waiting (inbox : Inbox V) : List V := inbox.messages.drop inbox.head

/-- The inbox of `Ports`. -/
def view (inbox : Inbox V) : Ports.LocalInbox V := ⟨inbox.waiting, inbox.closed⟩

/-- The slots from the head on become the list, once the head is half of it. -/
def compact (inbox : Inbox V) : Inbox V :=
  if 1024 ≤ inbox.head ∧ inbox.messages.length ≤ inbox.head * 2 then
    { messages := inbox.messages.drop inbox.head, closed := inbox.closed, bound := Nat.zero_le _ }
  else inbox

/-- `LocalInbox.receive`: the slot that is read is overwritten. -/
def receive (undefined : V) (inbox : Inbox V) : Option V × Inbox V :=
  match h : inbox.messages[inbox.head]? with
  | none => (none, inbox)
  | some value =>
    let next : Inbox V :=
      { messages := inbox.messages.set inbox.head undefined
        head := inbox.head + 1
        closed := inbox.closed
        bound := by
          rw [List.length_set]
          exact (List.getElem?_eq_some_iff.mp h).1 }
    (some value, next.compact)

def append (value : V) (inbox : Inbox V) : Inbox V :=
  { inbox with
    messages := inbox.messages ++ [value]
    bound := by
      rw [List.length_append]
      exact Nat.le_add_right_of_le inbox.bound }

def close (_ : Inbox V) : Inbox V := { closed := true }

theorem empty_iff (inbox : Inbox V) : inbox.empty = true ↔ inbox.waiting = [] := by
  have := inbox.bound
  rw [empty, beq_iff_eq, waiting, List.drop_eq_nil_iff]
  omega

theorem length_waiting (inbox : Inbox V) :
    inbox.waiting.length = inbox.messages.length - inbox.head := List.length_drop

/-- Compaction moves the messages and keeps them. -/
theorem view_compact (inbox : Inbox V) : inbox.compact.view = inbox.view := by
  unfold compact
  split_ifs
  · simp [view, waiting]
  · rfl

/-- `receive` takes the first message that waits. -/
theorem receive_view (undefined : V) (inbox : Inbox V) :
    (inbox.receive undefined).1 = inbox.waiting.head? ∧
      (inbox.receive undefined).2.view = { inbox.view with messages := inbox.waiting.tail } := by
  have hhead : inbox.waiting.head? = inbox.messages[inbox.head]? := by
    rw [waiting, List.head?_drop]
  unfold receive
  split
  · rename_i h
    refine ⟨(hhead.trans h).symm, ?_⟩
    have hnil : inbox.waiting = [] := List.head?_eq_none_iff.mp (hhead.trans h)
    rw [view, hnil]
    rfl
  · rename_i value h
    refine ⟨(hhead.trans h).symm, ?_⟩
    rw [view_compact]
    simp [view, waiting, List.drop_set_of_lt, List.tail_drop]

theorem append_view (value : V) (inbox : Inbox V) :
    (inbox.append value).view = { inbox.view with messages := inbox.waiting ++ [value] } := by
  simp [view, waiting, append, List.drop_append_of_le_length inbox.bound]

end Inbox

/-! ## The ports -/

structure LocalPort where
  started : Bool := false
  closing : Bool := false
  closed : Bool := false
  peerClosed : Bool := false

/-- The channel, with the record of what was posted into an inbox and taken out of one. -/
structure Duplex (V : Type) where
  inbox : Side → Inbox V
  port : Side → LocalPort
  accepted : Side → List V
  received : Side → List V

namespace Duplex

def new : Duplex V := ⟨fun _ => {}, fun _ => {}, fun _ => [], fun _ => []⟩

/-- `PortTransport.closed`. -/
def transportClosed (s : Side) (d : Duplex V) : Bool :=
  (d.inbox s).closed || ((d.inbox s.other).closed && (d.inbox s).empty)

/-- `PortTransport.close`. -/
def closeTransport (s : Side) (d : Duplex V) : Duplex V :=
  { d with inbox := Function.update d.inbox s (d.inbox s).close }

/-- `PortTransport.send_value`. -/
def sendValue (js : JsValues V) (s : Side) (value : V) (d : Duplex V) : Except PortError (Duplex V) :=
  if (d.inbox s).closed || (d.inbox s.other).closed then .ok d
  else if (d.inbox s.other).messages.length - (d.inbox s.other).head ≥ 1048576 then
    .error (.message "Message channel queue exceeds its limit")
  else
    match js.structuredClone value with
    | .error error => .error error
    | .ok clone => .ok
      { d with
        inbox := Function.update d.inbox s.other ((d.inbox s.other).append clone)
        accepted := Function.update d.accepted s (d.accepted s ++ [clone]) }

/-- `PortTransport.receive`. -/
def receiveValue (js : JsValues V) (s : Side) (d : Duplex V) : Duplex V :=
  let (value, inbox) := (d.inbox s).receive js.undefined
  { d with
    inbox := Function.update d.inbox s inbox
    received := Function.update d.received s (d.received s ++ value.toList) }

def setPort (s : Side) (port : LocalPort) (d : Duplex V) : Duplex V :=
  { d with port := Function.update d.port s port }

/-- `MessagePort.post_message`. -/
def postMessage (js : JsValues V) (s : Side) (value : V) (d : Duplex V) : Except PortError (Duplex V) :=
  if (d.port s).closing || (d.port s).closed || (d.port s).peerClosed then .ok d
  else d.sendValue js s value

/-- `MessagePort.close`. -/
def close (s : Side) (d : Duplex V) : Duplex V :=
  if (d.port s).closing || (d.port s).closed then d
  else (d.closeTransport s).setPort s { d.port s with closing := true, closed := true }

def start (s : Side) (d : Duplex V) : Duplex V :=
  if (d.port s).closed then d else d.setPort s { d.port s with started := true }

/-- `receive_message_on_port`. -/
def receiveMessageOnPort (js : JsValues V) (s : Side) (d : Duplex V) : Duplex V :=
  if (d.port s).closed then d else d.receiveValue js s

/-- The part of `_poll_state` in front of its event. -/
def pollReceive (js : JsValues V) (s : Side) (d : Duplex V) : Duplex V :=
  if (d.port s).closed then d
  else if (d.port s).closing then
    (d.closeTransport s).setPort s { d.port s with closed := true }
  else if (d.port s).started then d.receiveValue js s
  else d

/-- The part behind it. -/
def settle (s : Side) (d : Duplex V) : Duplex V :=
  if d.transportClosed s then d.setPort s { d.port s with closed := true } else d

end Duplex

inductive DuplexLabel (V : Type) where
  | post (side : Side) (value : V)
  | close (side : Side)
  | start (side : Side)
  | receive (side : Side)
  | pollReceive (side : Side)
  | settle (side : Side)

/-- A post that raises leaves everything as it is. -/
def Duplex.step (js : JsValues V) (d : Duplex V) : DuplexLabel V → Duplex V
  | .post side value => (d.postMessage js side value).toOption.getD d
  | .close side => d.close side
  | .start side => d.start side
  | .receive side => d.receiveMessageOnPort js side
  | .pollReceive side => d.pollReceive js side
  | .settle side => d.settle side

/-! ## The invariant -/

namespace Duplex

/-- One port of the channel. -/
structure Lossless (d : Duplex V) (s : Side) : Prop where
  prefix_accepted : d.received s <+: d.accepted s.other
  waiting : (d.inbox s).closed = false →
    d.accepted s.other = d.received s ++ (d.inbox s).waiting
  dropped : (d.inbox s).closed = true → (d.inbox s).waiting = []
  closing : (d.port s).closing = true → (d.inbox s).closed = true
  drained : (d.port s).closed = true →
    (d.inbox s).closed = true ∨ ((d.inbox s.other).closed = true ∧ (d.inbox s).waiting = [])

def AllLossless (d : Duplex V) : Prop := ∀ s, d.Lossless s

theorem new_lossless : (new : Duplex V).AllLossless := by
  intro s
  refine ⟨List.prefix_refl _, fun _ => rfl, fun hclosed => ?_, fun hclosing => ?_, fun hclosed => ?_⟩
  · cases hclosed
  · cases hclosing
  · cases hclosed

/-- What a port says of itself may change when the transport agrees. -/
theorem AllLossless.setPort {d : Duplex V} (h : d.AllLossless) {s : Side} {port : LocalPort}
    (hclosing : port.closing = true → (d.inbox s).closed = true)
    (hclosed : port.closed = true → d.transportClosed s = true) : (d.setPort s port).AllLossless := by
  intro t
  by_cases ht : t = s
  · subst ht
    have hport : (d.setPort t port).port t = port := Function.update_self t _ _
    refine ⟨(h t).prefix_accepted, (h t).waiting, (h t).dropped, fun hnow => ?_, fun hnow => ?_⟩
    · rw [hport] at hnow
      exact hclosing hnow
    · rw [hport] at hnow
      have htransport := hclosed hnow
      rw [transportClosed, Bool.or_eq_true, Bool.and_eq_true, Inbox.empty_iff] at htransport
      exact htransport
  · have hport : (d.setPort s port).port t = d.port t := Function.update_of_ne ht _ _
    refine ⟨(h t).prefix_accepted, (h t).waiting, (h t).dropped, ?_, ?_⟩
    · rw [hport]
      exact (h t).closing
    · rw [hport]
      exact (h t).drained

theorem transportClosed_iff (d : Duplex V) (s : Side) :
    d.transportClosed s = true ↔
      (d.inbox s).closed = true ∨ ((d.inbox s.other).closed = true ∧ (d.inbox s).waiting = []) := by
  rw [transportClosed, Bool.or_eq_true, Bool.and_eq_true, Inbox.empty_iff]

theorem closeTransport_inbox (d : Duplex V) (s : Side) :
    (d.closeTransport s).inbox s = { closed := true } := Function.update_self s _ _

theorem closeTransport_other (d : Duplex V) {s t : Side} (h : t ≠ s) :
    (d.closeTransport s).inbox t = d.inbox t := Function.update_of_ne h _ _

theorem AllLossless.closeTransport {d : Duplex V} (h : d.AllLossless) (s : Side) :
    (d.closeTransport s).AllLossless := by
  intro t
  by_cases ht : t = s
  · subst ht
    refine ⟨(h t).prefix_accepted, fun hopen => ?_, fun _ => ?_, fun _ => ?_, fun _ => Or.inl ?_⟩
    · rw [closeTransport_inbox] at hopen
      cases hopen
    · rw [closeTransport_inbox]
      rfl
    · rw [closeTransport_inbox]
    · rw [closeTransport_inbox]
  · refine ⟨(h t).prefix_accepted, ?_, ?_, ?_, ?_⟩
    · rw [closeTransport_other d ht]
      exact (h t).waiting
    · rw [closeTransport_other d ht]
      exact (h t).dropped
    · rw [closeTransport_other d ht]
      exact (h t).closing
    · rw [closeTransport_other d ht]
      intro hclosed
      refine ((h t).drained hclosed).imp_right fun hdrained => ⟨?_, hdrained.2⟩
      by_cases hother : t.other = s
      · rw [hother, closeTransport_inbox]
      · rw [closeTransport_other d hother]
        exact hdrained.1

theorem receive_spec (undefined : V) (inbox : Inbox V) :
    inbox.waiting = (inbox.receive undefined).1.toList ++ (inbox.receive undefined).2.waiting ∧
      (inbox.receive undefined).2.closed = inbox.closed := by
  obtain ⟨hvalue, hview⟩ := inbox.receive_view undefined
  have hwaiting : (inbox.receive undefined).2.waiting = inbox.waiting.tail :=
    congrArg Ports.LocalInbox.messages hview
  refine ⟨?_, congrArg Ports.LocalInbox.closed hview⟩
  rw [hvalue, hwaiting]
  cases inbox.waiting <;> rfl

/-- What waits first is received. -/
theorem AllLossless.receiveValue {d : Duplex V} (h : d.AllLossless) (js : JsValues V) (s : Side) :
    (d.receiveValue js s).AllLossless := by
  obtain ⟨hsplit, hclosed⟩ := receive_spec js.undefined (d.inbox s)
  have hinbox : (d.receiveValue js s).inbox s = ((d.inbox s).receive js.undefined).2 :=
    Function.update_self s _ _
  have hreceived : (d.receiveValue js s).received s =
      d.received s ++ ((d.inbox s).receive js.undefined).1.toList := Function.update_self s _ _
  intro t
  by_cases ht : t = s
  · subst ht
    have hother : (d.receiveValue js t).inbox t.other = d.inbox t.other :=
      Function.update_of_ne t.other_ne _ _
    have hempty : (d.inbox t).waiting = [] → ((d.inbox t).receive js.undefined).1.toList = [] ∧
        ((d.inbox t).receive js.undefined).2.waiting = [] := fun hnil =>
      List.append_eq_nil_iff.mp (hsplit.symm.trans hnil)
    refine ⟨?_, fun hopen => ?_, fun hshut => ?_, fun hclosing => ?_, fun hport => ?_⟩
    · rw [hreceived]
      cases hshut : (d.inbox t).closed with
      | false =>
        have hwaiting := (h t).waiting hshut
        rw [hsplit, ← List.append_assoc] at hwaiting
        exact ⟨_, hwaiting.symm⟩
      | true =>
        rw [(hempty ((h t).dropped hshut)).1, List.append_nil]
        exact (h t).prefix_accepted
    · rw [hinbox, hclosed] at hopen
      have hwaiting := (h t).waiting hopen
      rw [hsplit, ← List.append_assoc] at hwaiting
      rw [hreceived, hinbox]
      exact hwaiting
    · rw [hinbox, hclosed] at hshut
      rw [hinbox]
      exact (hempty ((h t).dropped hshut)).2
    · rw [hinbox, hclosed]
      exact (h t).closing hclosing
    · rw [hinbox, hclosed, hother]
      exact ((h t).drained hport).imp_right fun hdrained => ⟨hdrained.1, (hempty hdrained.2).2⟩
  · have hsame : (d.receiveValue js s).inbox t = d.inbox t := Function.update_of_ne ht _ _
    have hkept : (d.receiveValue js s).received t = d.received t := Function.update_of_ne ht _ _
    have hother : ((d.receiveValue js s).inbox t.other).closed = (d.inbox t.other).closed := by
      by_cases hs : t.other = s
      · rw [hs, hinbox, hclosed]
      · exact congrArg Inbox.closed (Function.update_of_ne hs _ _)
    refine ⟨?_, ?_, ?_, ?_, ?_⟩
    · rw [hkept]
      exact (h t).prefix_accepted
    · rw [hsame, hkept]
      exact (h t).waiting
    · rw [hsame]
      exact (h t).dropped
    · rw [hsame]
      exact (h t).closing
    · rw [hsame, hother]
      exact (h t).drained

/-- What `send_value` does when it does not raise. -/
theorem sendValue_cases {js : JsValues V} {s : Side} {value : V} {d d' : Duplex V}
    (h : d.sendValue js s value = .ok d') :
    (((d.inbox s).closed = true ∨ (d.inbox s.other).closed = true) ∧ d' = d) ∨
      ((d.inbox s).closed = false ∧ (d.inbox s.other).closed = false ∧ ∃ clone,
        d' = { d with
          inbox := Function.update d.inbox s.other ((d.inbox s.other).append clone)
          accepted := Function.update d.accepted s (d.accepted s ++ [clone]) }) := by
  unfold sendValue at h
  split at h
  · rename_i hshut
    rw [Bool.or_eq_true] at hshut
    exact Or.inl ⟨hshut, (Except.ok.inj h).symm⟩
  · rename_i hopen
    rw [Bool.or_eq_true, not_or, Bool.not_eq_true, Bool.not_eq_true] at hopen
    split at h
    · cases h
    · split at h
      · cases h
      · rename_i clone _
        exact Or.inr ⟨hopen.1, hopen.2, clone, (Except.ok.inj h).symm⟩

theorem AllLossless.sendValue {d d' : Duplex V} (h : d.AllLossless) {js : JsValues V} {s : Side}
    {value : V} (hsend : d.sendValue js s value = .ok d') : d'.AllLossless := by
  rcases sendValue_cases hsend with ⟨-, rfl⟩ | ⟨hopen, hopen', clone, rfl⟩
  · exact h
  · have hview := (d.inbox s.other).append_view clone
    have hwaiting : ((d.inbox s.other).append clone).waiting = (d.inbox s.other).waiting ++ [clone] :=
      congrArg Ports.LocalInbox.messages hview
    intro t
    by_cases ht : t = s.other
    · subst ht
      have hport := (h s.other).drained
      have hreceiver := (h s.other).waiting hopen'
      have hsender := (h s.other).prefix_accepted
      rw [s.other_other] at hport hreceiver hsender
      refine ⟨?_, fun _ => ?_, fun hshut => ?_, fun hclosing => ?_, fun hclosed => ?_⟩
      · show d.received s.other <+: Function.update d.accepted s _ s.other.other
        rw [s.other_other, Function.update_self]
        exact hsender.trans (List.prefix_append _ _)
      · show Function.update d.accepted s _ s.other.other =
          d.received s.other ++ (Function.update d.inbox s.other _ s.other).waiting
        rw [s.other_other, Function.update_self, Function.update_self, hwaiting, hreceiver,
          List.append_assoc]
      · have hshut : (Function.update d.inbox s.other ((d.inbox s.other).append clone) s.other).closed =
          true := hshut
        rw [Function.update_self] at hshut
        exact absurd (hopen'.symm.trans hshut) Bool.false_ne_true
      · exact absurd (hopen'.symm.trans ((h s.other).closing hclosing)) Bool.false_ne_true
      · exfalso
        rcases hport hclosed with hshut | ⟨hshut, -⟩
        · exact Bool.false_ne_true (hopen'.symm.trans hshut)
        · exact Bool.false_ne_true (hopen.symm.trans hshut)
    · have hts : t = s := by
        cases t <;> cases s <;> first | rfl | exact absurd rfl ht
      subst hts
      have hinbox : Function.update d.inbox t.other ((d.inbox t.other).append clone) t = d.inbox t :=
        Function.update_of_ne ht _ _
      have haccepted : Function.update d.accepted t (d.accepted t ++ [clone]) t.other =
          d.accepted t.other := Function.update_of_ne t.other_ne _ _
      have hother : (Function.update d.inbox t.other ((d.inbox t.other).append clone) t.other).closed =
          (d.inbox t.other).closed := by
        rw [Function.update_self]
        rfl
      refine ⟨?_, ?_, ?_, ?_, ?_⟩
      · show d.received t <+: Function.update d.accepted t _ t.other
        rw [haccepted]
        exact (h t).prefix_accepted
      · show (Function.update d.inbox t.other _ t).closed = false →
          Function.update d.accepted t _ t.other = d.received t ++ (Function.update d.inbox t.other _ t).waiting
        rw [hinbox, haccepted]
        exact (h t).waiting
      · show (Function.update d.inbox t.other _ t).closed = true →
          (Function.update d.inbox t.other _ t).waiting = []
        rw [hinbox]
        exact (h t).dropped
      · show (d.port t).closing = true → (Function.update d.inbox t.other _ t).closed = true
        rw [hinbox]
        exact (h t).closing
      · show (d.port t).closed = true → (Function.update d.inbox t.other _ t).closed = true ∨
          ((Function.update d.inbox t.other _ t.other).closed = true ∧
            (Function.update d.inbox t.other _ t).waiting = [])
        rw [hinbox, hother]
        exact (h t).drained

theorem AllLossless.step {d : Duplex V} (h : d.AllLossless) (js : JsValues V) (l : DuplexLabel V) :
    (d.step js l).AllLossless := by
  cases l with
  | post side value =>
    show ((d.postMessage js side value).toOption.getD d).AllLossless
    cases hpost : d.postMessage js side value with
    | error error => exact h
    | ok d' =>
      unfold postMessage at hpost
      split at hpost
      · rw [← Except.ok.inj hpost]
        exact h
      · exact h.sendValue hpost
  | close side =>
    show (d.close side).AllLossless
    unfold Duplex.close
    split
    · exact h
    · refine (h.closeTransport side).setPort (fun _ => ?_) fun _ => ?_
      · rw [closeTransport_inbox]
      · rw [transportClosed_iff, closeTransport_inbox]
        exact Or.inl rfl
  | start side =>
    show (d.start side).AllLossless
    unfold Duplex.start
    split
    · exact h
    · rename_i hopen
      exact h.setPort (h side).closing fun hclosed => absurd hclosed hopen
  | receive side =>
    show (d.receiveMessageOnPort js side).AllLossless
    unfold receiveMessageOnPort
    split
    · exact h
    · exact h.receiveValue js side
  | pollReceive side =>
    show (d.pollReceive js side).AllLossless
    unfold pollReceive
    split
    · exact h
    · split
      · refine (h.closeTransport side).setPort (fun _ => ?_) fun _ => ?_
        · rw [closeTransport_inbox]
        · rw [transportClosed_iff, closeTransport_inbox]
          exact Or.inl rfl
      · split
        · exact h.receiveValue js side
        · exact h
  | settle side =>
    show (d.settle side).AllLossless
    unfold settle
    split
    · rename_i hclosed
      exact h.setPort (h side).closing fun _ => hclosed
    · exact h

/-! ## The messages of one side -/

/-- What the channel promises of the messages one side receives. -/
structure Orderly (js : JsValues V) (d : Duplex V) (s : Side) : Prop where
  /-- In order, and each once. -/
  prefix_accepted : d.received s <+: d.accepted s.other
  /-- Until this side closes, the next message it has not received is received next. -/
  receivable : (d.inbox s).closed = false → ∀ value rest,
    d.accepted s.other = d.received s ++ value :: rest →
      (d.port s).closed = false ∧ d.transportClosed s = false ∧
        (d.step js (.receive s)).received s = d.received s ++ [value]
  /-- Unless this side closed, its transport and its port report closed behind the last message. -/
  drained : (d.inbox s).closed = false → d.transportClosed s = true ∨ (d.port s).closed = true →
    d.received s = d.accepted s.other
  /-- After a close of either side, no post of this side queues anything. -/
  refused : (d.inbox s).closed = true ∨ (d.inbox s.other).closed = true → ∀ value,
    d.step js (.post s value) = d

theorem AllLossless.orderly {d : Duplex V} (h : d.AllLossless) (js : JsValues V) (s : Side) :
    d.Orderly js s := by
  have hdrained : (d.inbox s).closed = false → d.transportClosed s = true ∨ (d.port s).closed = true →
      (d.inbox s).waiting = [] := by
    intro hopen hclosed
    have hreport : (d.inbox s).closed = true ∨
        ((d.inbox s.other).closed = true ∧ (d.inbox s).waiting = []) :=
      hclosed.elim (d.transportClosed_iff s).mp (h s).drained
    rw [hopen] at hreport
    exact (hreport.resolve_left Bool.false_ne_true).2
  refine ⟨(h s).prefix_accepted, fun hopen value rest hnext => ?_, fun hopen hclosed => ?_,
    fun hshut value => ?_⟩
  · have hwaiting := (h s).waiting hopen
    rw [hnext] at hwaiting
    have hfirst : (d.inbox s).waiting = value :: rest := (List.append_cancel_left hwaiting).symm
    have hnot : ¬ (d.transportClosed s = true ∨ (d.port s).closed = true) := by
      intro hclosed
      rw [hdrained hopen hclosed] at hfirst
      cases hfirst
    rw [not_or, Bool.not_eq_true, Bool.not_eq_true] at hnot
    refine ⟨hnot.2, hnot.1, ?_⟩
    have hvalue := ((d.inbox s).receive_view js.undefined).1
    rw [hfirst, List.head?_cons] at hvalue
    show (d.receiveMessageOnPort js s).received s = _
    rw [receiveMessageOnPort, if_neg (by rw [hnot.2]; exact Bool.false_ne_true), Duplex.receiveValue]
    show Function.update d.received s _ s = _
    rw [Function.update_self, hvalue]
    rfl
  · rw [(h s).waiting hopen, hdrained hopen hclosed, List.append_nil]
  · show (d.postMessage js s value).toOption.getD d = d
    unfold postMessage
    split
    · rfl
    · rw [Duplex.sendValue, if_pos (by rwa [Bool.or_eq_true])]
      rfl

/-! ## Closed by a side -/

/-- A side has closed its inbox. -/
def Shut (d : Duplex V) : Prop := ∃ s, (d.inbox s).closed = true

theorem shut_congr {d d' : Duplex V} (h : ∀ s, (d'.inbox s).closed = (d.inbox s).closed) : d'.Shut ↔ d.Shut := by
  simp only [Shut, h]

theorem closeTransport_shut (d : Duplex V) (s : Side) : (d.closeTransport s).Shut :=
  ⟨s, by rw [closeTransport_inbox]⟩

theorem receiveValue_closed (js : JsValues V) (d : Duplex V) (s t : Side) :
    ((d.receiveValue js s).inbox t).closed = (d.inbox t).closed := by
  show (Function.update d.inbox s _ t).closed = _
  by_cases ht : t = s
  · subst ht
    rw [Function.update_self]
    exact (receive_spec js.undefined (d.inbox t)).2
  · rw [Function.update_of_ne ht]

theorem postMessage_closed {js : JsValues V} {s : Side} {value : V} {d d' : Duplex V}
    (h : d.postMessage js s value = .ok d') (t : Side) : (d'.inbox t).closed = (d.inbox t).closed := by
  unfold postMessage at h
  split at h
  · rw [← Except.ok.inj h]
  · rcases sendValue_cases h with ⟨-, rfl⟩ | ⟨-, -, clone, rfl⟩
    · rfl
    · show (Function.update d.inbox s.other _ t).closed = _
      by_cases ht : t = s.other
      · rw [ht, Function.update_self]
        rfl
      · rw [Function.update_of_ne ht]

/-- A port that closes has an inbox that is closed, its own or the other one. -/
theorem AllLossless.shut_of_port {d : Duplex V} (h : d.AllLossless) {s : Side}
    (hport : (d.port s).closing = true ∨ (d.port s).closed = true) : d.Shut := by
  rcases hport with hclosing | hclosed
  · exact ⟨s, (h s).closing hclosing⟩
  · rcases (h s).drained hclosed with hshut | ⟨hshut, -⟩
    · exact ⟨s, hshut⟩
    · exact ⟨s.other, hshut⟩

/-- Only a `close` closes an inbox. -/
theorem AllLossless.shut_step {d : Duplex V} (h : d.AllLossless) (js : JsValues V) (l : DuplexLabel V) :
    (d.step js l).Shut ↔ d.Shut ∨ ∃ side, l = .close side := by
  have hother : (∀ side, l ≠ .close side) → ((d.step js l).Shut ↔ d.Shut) →
      ((d.step js l).Shut ↔ d.Shut ∨ ∃ side, l = .close side) := by
    intro hne hiff
    rw [hiff, or_iff_left]
    rintro ⟨side, hclose⟩
    exact hne side hclose
  cases l with
  | post side value =>
    refine hother nofun (shut_congr fun t => ?_)
    show (((d.postMessage js side value).toOption.getD d).inbox t).closed = _
    cases hpost : d.postMessage js side value with
    | error error => rfl
    | ok d' => exact postMessage_closed hpost t
  | close side =>
    refine iff_of_true ?_ (.inr ⟨side, rfl⟩)
    show (d.close side).Shut
    unfold Duplex.close
    split
    · rename_i hport
      exact h.shut_of_port (by rwa [Bool.or_eq_true] at hport)
    · exact closeTransport_shut d side
  | start side =>
    refine hother nofun (shut_congr fun t => ?_)
    show ((d.start side).inbox t).closed = _
    unfold Duplex.start
    split <;> rfl
  | receive side =>
    refine hother nofun (shut_congr fun t => ?_)
    show ((d.receiveMessageOnPort js side).inbox t).closed = _
    unfold receiveMessageOnPort
    split
    · rfl
    · exact receiveValue_closed js d side t
  | pollReceive side =>
    refine hother nofun ?_
    show (d.pollReceive js side).Shut ↔ d.Shut
    unfold pollReceive
    split
    · exact Iff.rfl
    · split
      · rename_i hclosing
        exact iff_of_true (closeTransport_shut d side) (h.shut_of_port (.inl hclosing))
      · split
        · exact shut_congr (receiveValue_closed js d side)
        · exact Iff.rfl
  | settle side =>
    refine hother nofun (shut_congr fun t => ?_)
    show ((d.settle side).inbox t).closed = _
    unfold settle
    split <;> rfl

theorem AllLossless.shut_run {d : Duplex V} (h : d.AllLossless) (js : JsValues V) (ls : List (DuplexLabel V)) :
    (run (Duplex.step js) d ls).Shut ↔ d.Shut ∨ ∃ side, .close side ∈ ls := by
  induction ls generalizing d with
  | nil => simp
  | cons l ls ih =>
    rw [run_cons, ih (h.step js l), h.shut_step js l, or_assoc, ← exists_or]
    simp only [List.mem_cons, eq_comm]

/-- No local port is told that its peer has closed. -/
theorem step_peerClosed (js : JsValues V) (d : Duplex V) (l : DuplexLabel V) (s : Side) :
    ((d.step js l).port s).peerClosed = (d.port s).peerClosed := by
  have hset : ∀ (side : Side) (d : Duplex V) (port : LocalPort), port.peerClosed = (d.port side).peerClosed →
      ((d.setPort side port).port s).peerClosed = (d.port s).peerClosed := by
    intro side d port hport
    show (Function.update d.port side port s).peerClosed = _
    by_cases hs : s = side
    · rw [hs, Function.update_self, hport]
    · rw [Function.update_of_ne hs]
  cases l with
  | post side value =>
    show (((d.postMessage js side value).toOption.getD d).port s).peerClosed = _
    cases hpost : d.postMessage js side value with
    | error error => rfl
    | ok d' =>
      unfold postMessage at hpost
      split at hpost
      · rw [← Except.ok.inj hpost]
        rfl
      · rcases sendValue_cases hpost with ⟨-, rfl⟩ | ⟨-, -, clone, rfl⟩ <;> rfl
  | close side =>
    show ((d.close side).port s).peerClosed = _
    unfold Duplex.close
    split
    · rfl
    · exact hset side (d.closeTransport side) _ rfl
  | start side =>
    show ((d.start side).port s).peerClosed = _
    unfold Duplex.start
    split
    · rfl
    · exact hset side d _ rfl
  | receive side =>
    show ((d.receiveMessageOnPort js side).port s).peerClosed = _
    unfold receiveMessageOnPort
    split <;> rfl
  | pollReceive side =>
    show ((d.pollReceive js side).port s).peerClosed = _
    unfold pollReceive
    split
    · rfl
    · split
      · exact hset side (d.closeTransport side) _ rfl
      · split <;> rfl
  | settle side =>
    show ((d.settle side).port s).peerClosed = _
    unfold settle
    split
    · exact hset side d _ rfl
    · rfl

theorem AllLossless.refuses {d : Duplex V} (h : d.AllLossless) (js : JsValues V) (hshut : d.Shut) (s : Side)
    (value : V) : d.step js (.post s value) = d := by
  refine (h.orderly js s).refused ?_ value
  obtain ⟨t, ht⟩ := hshut
  by_cases hts : t = s
  · exact .inl (hts ▸ ht)
  · have hother : t = s.other := by
      cases t <;> cases s <;> first | rfl | exact absurd rfl hts
    exact .inr (hother ▸ ht)

/-- A post of an open channel that has room is queued. -/
theorem AllLossless.accepts {d : Duplex V} (h : d.AllLossless) (js : JsValues V) (hopen : ¬ d.Shut) {s : Side}
    (hpeer : (d.port s).peerClosed = false) (hroom : (d.inbox s.other).waiting.length < 1048576) {value clone : V}
    (hclone : js.structuredClone value = .ok clone) :
    (d.step js (.post s value)).accepted s = d.accepted s ++ [clone] := by
  have hinbox : ∀ t, ¬ (d.inbox t).closed = true := fun t ht => hopen ⟨t, ht⟩
  have hport : ¬ ((d.port s).closing || (d.port s).closed || (d.port s).peerClosed) = true := by
    rw [hpeer, Bool.or_false, Bool.or_eq_true]
    exact fun hport => hopen (h.shut_of_port hport)
  have hsend : d.postMessage js s value = .ok
      { d with
        inbox := Function.update d.inbox s.other ((d.inbox s.other).append clone)
        accepted := Function.update d.accepted s (d.accepted s ++ [clone]) } := by
    rw [Inbox.length_waiting] at hroom
    rw [postMessage, if_neg hport, Duplex.sendValue, if_neg, if_neg (by omega), hclone]
    rw [Bool.or_eq_true]
    exact fun hclosed => hclosed.elim (hinbox s) (hinbox s.other)
  show ((d.postMessage js s value).toOption.getD d).accepted s = _
  rw [hsend]
  exact Function.update_self s _ _

/-- In every state of every run, each side receives what the other has posted, in order and each
message once, up to the close of either side. Behind a `close` no post queues anything; before one,
a post is accepted where there is room for it. -/
theorem channel_orderly (js : JsValues V) (ls : List (DuplexLabel V)) (s : Side) :
    (run (step js) new ls).Orderly js s ∧
    ((∃ side, .close side ∈ ls) → ∀ value,
      (run (step js) new ls).step js (.post s value) = run (step js) new ls) ∧
    ((∀ side, .close side ∉ ls) → ((run (step js) new ls).inbox s.other).waiting.length < 1048576 →
      ∀ value clone, js.structuredClone value = .ok clone →
        ((run (step js) new ls).step js (.post s value)).accepted s = (run (step js) new ls).accepted s ++ [clone]) := by
  have hall : (run (step js) new ls).AllLossless :=
    run_preserves (P := AllLossless) (fun _ l h => h.step js l) new_lossless ls
  have hshut : (run (step js) new ls).Shut ↔ ∃ side, .close side ∈ ls := by
    rw [AllLossless.shut_run new_lossless js ls, or_iff_right]
    rintro ⟨side, hclosed⟩
    cases hclosed
  have hpeer : ((run (step js) new ls).port s).peerClosed = false :=
    run_preserves (P := fun d => (d.port s).peerClosed = false) (fun d l h => (step_peerClosed js d l s).trans h) rfl ls
  refine ⟨hall.orderly js s, fun hclosed value => hall.refuses js (hshut.mpr hclosed) s value, ?_⟩
  intro hopen hroom value clone hclone
  refine hall.accepts js (fun hnow => ?_) hpeer hroom hclone
  obtain ⟨side, hmem⟩ := hshut.mp hnow
  exact hopen side hmem

end Duplex

end TsonicNode.Worker.LocalChannel
