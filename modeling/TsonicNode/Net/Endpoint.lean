import Mathlib.Data.List.Basic
import TsonicNode.Lib.Run

/-!
# Connection endpoints

`TsonicNetEndpoint` with the calls of its owner and the callback of the
resolver. What the system answers is given with each call. `log` keeps what is
opened, closed, received and freed, and which addresses were tried; `Books`
says for each thing that it is held by the endpoint or was given back once.
-/

namespace TsonicNode.Net.Native

open TsonicNode.Lib

/-! ## The system -/

/-- `errno` of a call that failed. -/
structure Errno where
  value : Nat
  positive : 0 < value

def eIntr : Nat := 4

def eInProgress : Nat := 115

/-- `uv_translate_sys_error`. -/
def uvTranslateSysError (errno : Errno) : Int := -errno.value

def uvE2Big : Int := -7

def uvEInval : Int := -22

def uvEAddrNotAvail : Int := -99

def uvENoBufs : Int := -105

def uvECanceled : Int := -125

inductive Family
  | inet
  | inet6
  | other
  deriving DecidableEq

/-- An address of a list; `place` tells it from the others. -/
structure Address where
  family : Family
  place : Nat
  deriving DecidableEq

/-- An address that sockets can be made for. -/
def Address.isInet (address : Address) : Bool := address.family != .other

/-- What `socket` is answered, and then `setsockopt`, `bind` and `listen`, or `connect`. -/
structure Attempt where
  socket : Option Errno := none
  started : Option Errno := none

/-! ## The endpoint -/

inductive Event
  /-- The addresses that may be tried. -/
  | candidates (addresses : List Address)
  | tried (address : Address)
  | opened (descriptor : Nat)
  | closed (descriptor : Nat)
  /-- The list of the resolver. -/
  | received
  | freedList
  | freedEndpoint
  deriving DecidableEq

abbrev Log := List Event

namespace Event

def isOpened : Event → Bool
  | .opened _ => true
  | _ => false

def isClosed : Event → Bool
  | .closed _ => true
  | _ => false

def addresses : Event → List Address
  | .candidates addresses => addresses.filter Address.isInet
  | _ => []

def attempted : Event → List Address
  | .tried address => [address]
  | _ => []

end Event

namespace Log

def candidates (log : Log) : List Address := log.flatMap Event.addresses

def tried (log : Log) : List Address := log.flatMap Event.attempted

end Log

structure Endpoint where
  descriptor : Option Nat := none
  listener : Bool
  status : Int := 0
  resolving : Bool := false
  closed : Bool := false
  released : Bool := false
  /-- `addresses` is not `NULL`. -/
  retained : Bool := false
  nextAddress : List Address := []
  log : Log := []

namespace Endpoint

def note (endpoint : Endpoint) (event : Event) : Endpoint := { endpoint with log := endpoint.log ++ [event] }

/-- `release_addresses`. -/
def releaseAddresses (endpoint : Endpoint) : Endpoint :=
  { (if endpoint.retained then endpoint.note .freedList else endpoint) with retained := false, nextAddress := [] }

def closeDescriptor (endpoint : Endpoint) : Endpoint :=
  match endpoint.descriptor with
  | some descriptor => { endpoint.note (.closed descriptor) with descriptor := none }
  | none => endpoint

/-- `attempt_address`; a descriptor is told by how many were opened before it. -/
def attemptAddress (endpoint : Endpoint) (address : Address) (attempt : Attempt) : Endpoint :=
  let endpoint := endpoint.note (.tried address)
  match attempt.socket with
  | some errno => { endpoint with status := uvTranslateSysError errno }
  | none =>
    let descriptor := endpoint.log.countP Event.isOpened
    let endpoint := endpoint.note (.opened descriptor)
    match attempt.started with
    | none => { endpoint with descriptor := some descriptor, status := 1 }
    | some errno =>
      if !endpoint.listener && (errno.value == eInProgress || errno.value == eIntr) then
        { endpoint with descriptor := some descriptor, status := 0 }
      else { endpoint.note (.closed descriptor) with status := uvTranslateSysError errno }

/-- The loop of `next_address`. -/
def tryAddresses : (Nat → Attempt) → List Address → Endpoint → Endpoint
  | _, [], endpoint => endpoint.releaseAddresses
  | attempts, address :: rest, endpoint =>
    let endpoint := { endpoint with nextAddress := rest }
    if address.isInet then
      let endpoint := endpoint.attemptAddress address (attempts 0)
      if 0 ≤ endpoint.status then
        if endpoint.status = 1 then endpoint.releaseAddresses else endpoint
      else tryAddresses (fun index => attempts (index + 1)) rest endpoint
    else tryAddresses attempts rest endpoint

/-- `next_address`. -/
def tryNext (endpoint : Endpoint) (attempts : Nat → Attempt) : Endpoint :=
  let endpoint := if 0 ≤ endpoint.status then { endpoint with status := uvEAddrNotAvail } else endpoint
  tryAddresses attempts endpoint.nextAddress endpoint

/-- `uv_freeaddrinfo` of a list that is not the endpoint's. -/
def dropList (endpoint : Endpoint) (addresses : Option (List Address)) : Endpoint :=
  if addresses.isSome then (endpoint.note .received).note .freedList else endpoint

/-- `resolved`, the callback. -/
def resolved (endpoint : Endpoint) (status : Int) (addresses : Option (List Address))
    (attempts : Nat → Attempt) : Endpoint :=
  let endpoint := { endpoint with resolving := false }
  if endpoint.closed then
    let endpoint := endpoint.dropList addresses
    if endpoint.released then endpoint.note .freedEndpoint else endpoint
  else if status < 0 then { endpoint.dropList addresses with status }
  else if 4096 < (addresses.getD []).length then { endpoint.dropList addresses with status := uvE2Big }
  else
    let list := addresses.getD []
    let endpoint := if addresses.isSome then endpoint.note .received else endpoint
    let endpoint := { endpoint.note (.candidates list) with retained := addresses.isSome, nextAddress := list }
    endpoint.tryNext attempts

/-- What `tsonic_node_net_endpoint_new` makes of its arguments, and what it is answered. -/
inductive Start
  /-- No host, or a port or backlog out of range. -/
  | invalid
  | ipv4 (attempt : Attempt)
  /-- `unspecified`: a listener without a host, which falls back to `0.0.0.0`. -/
  | ipv6 (attempt : Attempt) (unspecified : Bool) (fallback : Attempt)
  /-- A name, with the status of the loop and of `uv_getaddrinfo`, and whether too many are pending. -/
  | name (loop : Int) (full : Bool) (status : Int)

/-- `tsonic_node_net_endpoint_new`. -/
def new (listener : Bool) : Start → Endpoint
  | .invalid => { listener, status := uvEInval }
  | .ipv4 attempt =>
    let endpoint : Endpoint := { listener }
    (endpoint.note (.candidates [⟨.inet, 0⟩])).attemptAddress ⟨.inet, 0⟩ attempt
  | .ipv6 attempt unspecified fallback =>
    let endpoint : Endpoint := { listener }
    let endpoint := (endpoint.note (.candidates [⟨.inet6, 0⟩, ⟨.inet, 1⟩])).attemptAddress ⟨.inet6, 0⟩ attempt
    if endpoint.status < 0 ∧ listener ∧ unspecified then endpoint.attemptAddress ⟨.inet, 1⟩ fallback
    else endpoint
  | .name loop full status =>
    if loop < 0 then { listener, status := loop }
    else if full then { listener, status := uvENoBufs }
    else if status < 0 then { listener, status }
    else { listener, resolving := true }

/-- `tsonic_node_net_endpoint_adopt` of an open descriptor. -/
def adopt : Endpoint :=
  { ({ listener := false } : Endpoint).note (.opened 0) with descriptor := some 0, status := 1 }

/-- `tsonic_node_net_endpoint_close`. -/
def close (endpoint : Endpoint) : Endpoint :=
  if endpoint.closed then endpoint
  else ({ endpoint with closed := true, status := uvECanceled }.closeDescriptor).releaseAddresses

/-- `tsonic_node_net_endpoint_free`. -/
def free (endpoint : Endpoint) : Endpoint :=
  let endpoint := { endpoint.close with released := true }
  if endpoint.resolving then endpoint else endpoint.note .freedEndpoint

/-- What `poll` is answered, and then `getsockopt`. -/
inductive PollAnswer
  | waiting
  | failed (errno : Errno)
  | ready
  /-- The error of the socket, or of `getsockopt`. -/
  | error (errno : Errno)

/-- `tsonic_node_net_endpoint_progress`. -/
def progress (endpoint : Endpoint) (answer : PollAnswer) (attempts : Nat → Attempt) : Endpoint :=
  if endpoint.status ≠ 0 ∨ endpoint.resolving then endpoint
  else if endpoint.descriptor = none then endpoint
  else
    match answer with
    | .waiting => endpoint
    | .ready => { endpoint with status := 1 }.releaseAddresses
    | .failed errno | .error errno =>
      { endpoint.closeDescriptor with status := uvTranslateSysError errno }.tryNext attempts

end Endpoint

/-- What happens to an endpoint. -/
inductive Call
  | resolved (status : Int) (addresses : Option (List Address)) (attempts : Nat → Attempt)
  | progress (answer : Endpoint.PollAnswer) (attempts : Nat → Attempt)
  | close
  | free

/-- The callback runs once, after the request; the owner does not use what it has freed. -/
def Endpoint.call (endpoint : Endpoint) : Call → Endpoint
  | .resolved status addresses attempts =>
    if endpoint.resolving then endpoint.resolved status addresses attempts else endpoint
  | .progress answer attempts => if endpoint.released then endpoint else endpoint.progress answer attempts
  | .close => if endpoint.released then endpoint else endpoint.close
  | .free => if endpoint.released then endpoint else endpoint.free

/-! ## Books -/

/-- Each descriptor is the endpoint's, or was closed once. -/
structure Descriptors (endpoint : Endpoint) : Prop where
  opened : ∀ descriptor, endpoint.log.count (.opened descriptor) =
    endpoint.log.count (.closed descriptor) + if endpoint.descriptor = some descriptor then 1 else 0
  once : ∀ descriptor, endpoint.log.count (.opened descriptor) =
    if descriptor < endpoint.log.countP Event.isOpened then 1 else 0
  now : endpoint.log.countP Event.isOpened =
    endpoint.log.countP Event.isClosed + if endpoint.descriptor = none then 0 else 1
  /-- At each moment. -/
  one : ∀ past, past <+: endpoint.log → past.countP Event.isClosed ≤ past.countP Event.isOpened ∧
    past.countP Event.isOpened ≤ past.countP Event.isClosed + 1

/-- So is the list, or was freed once. -/
structure Books (endpoint : Endpoint) : Prop extends Descriptors endpoint where
  lists : endpoint.log.count .received =
    endpoint.log.count .freedList + if endpoint.retained then 1 else 0

/-- The addresses are tried from the first one on. -/
def InOrder (log : Log) (next : List Address) : Prop :=
  log.tried ++ next.filter Address.isInet <+: log.candidates

section Descriptors

variable {endpoint : Endpoint} (h : Descriptors endpoint)

include h

/-- An event that opens and closes nothing. -/
theorem Descriptors.notes {event : Event} (hopened : event.isOpened = false) (hclosed : event.isClosed = false) :
    Descriptors (endpoint.note event) where
  opened descriptor := by
    have hopened : event ≠ .opened descriptor := by rintro rfl; cases hopened
    have hclosed : event ≠ .closed descriptor := by rintro rfl; cases hclosed
    simp only [Endpoint.note, List.count_append, List.count_singleton, beq_iff_eq, hopened, hclosed, if_false]
    exact h.opened descriptor
  once descriptor := by
    have hother : event ≠ .opened descriptor := by rintro rfl; cases hopened
    simp only [Endpoint.note, List.count_append, List.countP_append, List.count_singleton, List.countP_singleton,
      beq_iff_eq, hother, hopened, if_false, Bool.false_eq_true]
    exact h.once descriptor
  now := by
    simp only [Endpoint.note, List.countP_append, List.countP_singleton, hopened, hclosed, Bool.false_eq_true,
      if_false]
    exact h.now
  one past hpast := by
    rcases List.prefix_concat_iff.mp hpast with rfl | hpast
    · simp only [List.countP_append, List.countP_singleton, hopened, hclosed, Bool.false_eq_true, if_false]
      exact h.one endpoint.log (List.prefix_refl _)
    · exact h.one past hpast

/-- A descriptor is opened. -/
theorem Descriptors.opens (hnone : endpoint.descriptor = none) :
    Descriptors { endpoint.note (.opened (endpoint.log.countP Event.isOpened)) with
      descriptor := some (endpoint.log.countP Event.isOpened) } where
  opened descriptor := by
    have hopened := h.opened descriptor
    have honce := h.once descriptor
    rw [hnone] at hopened
    simp only [Endpoint.note, List.count_append, List.count_singleton, beq_iff_eq, Event.opened.injEq,
      reduceCtorEq, if_false, Option.some.injEq] at hopened ⊢
    split_ifs at honce ⊢ <;> omega
  once descriptor := by
    have honce := h.once descriptor
    simp only [Endpoint.note, List.count_append, List.countP_append, List.count_singleton, List.countP_singleton,
      beq_iff_eq, Event.opened.injEq, Event.isOpened, if_true]
    split_ifs at honce ⊢ <;> omega
  now := by
    have hnow := h.now
    rw [hnone] at hnow
    simp only [Endpoint.note, List.countP_append, List.countP_singleton, Event.isOpened, Event.isClosed, if_true,
      Bool.false_eq_true, if_false, reduceCtorEq] at hnow ⊢
    omega
  one past hpast := by
    rcases List.prefix_concat_iff.mp hpast with rfl | hpast
    · have hnow := h.now
      rw [hnone] at hnow
      simp only [List.countP_append, List.countP_singleton, Event.isOpened, Event.isClosed, if_true,
        Bool.false_eq_true, if_false] at hnow ⊢
      omega
    · exact h.one past hpast

/-- The descriptor is closed. -/
theorem Descriptors.closes {held : Nat} (hheld : endpoint.descriptor = some held) :
    Descriptors { endpoint.note (.closed held) with descriptor := none } where
  opened descriptor := by
    have hopened := h.opened descriptor
    rw [hheld] at hopened
    simp only [Endpoint.note, List.count_append, List.count_singleton, beq_iff_eq, Event.closed.injEq,
      reduceCtorEq, if_false, Option.some.injEq] at hopened ⊢
    omega
  once descriptor := by
    simp only [Endpoint.note, List.count_append, List.countP_append, List.count_singleton, List.countP_singleton,
      beq_iff_eq, reduceCtorEq, Event.isOpened, if_false, Bool.false_eq_true]
    exact h.once descriptor
  now := by
    have hnow := h.now
    rw [hheld] at hnow
    simp only [Endpoint.note, List.countP_append, List.countP_singleton, Event.isOpened, Event.isClosed, if_true,
      Bool.false_eq_true, if_false, reduceCtorEq] at hnow ⊢
    omega
  one past hpast := by
    rcases List.prefix_concat_iff.mp hpast with rfl | hpast
    · have hnow := h.now
      rw [hheld] at hnow
      simp only [List.countP_append, List.countP_singleton, Event.isOpened, Event.isClosed, if_true,
        Bool.false_eq_true, if_false, reduceCtorEq] at hnow ⊢
      omega
    · exact h.one past hpast

/-- Only the descriptor and the log matter. -/
theorem Descriptors.same {endpoint' : Endpoint} (hdescriptor : endpoint'.descriptor = endpoint.descriptor)
    (hlog : endpoint'.log = endpoint.log) : Descriptors endpoint' where
  opened := by
    rw [hlog, hdescriptor]
    exact h.opened
  once := by
    rw [hlog]
    exact h.once
  now := by
    rw [hlog, hdescriptor]
    exact h.now
  one := by
    rw [hlog]
    exact h.one

end Descriptors

theorem count_note (endpoint : Endpoint) (event other : Event) :
    (endpoint.note event).log.count other = endpoint.log.count other + if event = other then 1 else 0 := by
  simp only [Endpoint.note, List.count_append, List.count_singleton, beq_iff_eq]

section Books

variable {endpoint : Endpoint} (h : Books endpoint)

include h

theorem Books.notes {event : Event} (hopened : event.isOpened = false) (hclosed : event.isClosed = false)
    (hreceived : event ≠ .received) (hfreed : event ≠ .freedList) : Books (endpoint.note event) where
  toDescriptors := h.toDescriptors.notes hopened hclosed
  lists := by
    rw [count_note, count_note, if_neg hreceived, if_neg hfreed]
    exact h.lists

theorem Books.opens (hnone : endpoint.descriptor = none) :
    Books { endpoint.note (.opened (endpoint.log.countP Event.isOpened)) with
      descriptor := some (endpoint.log.countP Event.isOpened) } where
  toDescriptors := h.toDescriptors.opens hnone
  lists := by
    have hlists := h.lists
    simp only [Endpoint.note, List.count_append, List.count_singleton, beq_iff_eq, reduceCtorEq, if_false]
    exact hlists

theorem Books.closes {held : Nat} (hheld : endpoint.descriptor = some held) :
    Books { endpoint.note (.closed held) with descriptor := none } where
  toDescriptors := h.toDescriptors.closes hheld
  lists := by
    have hlists := h.lists
    simp only [Endpoint.note, List.count_append, List.count_singleton, beq_iff_eq, reduceCtorEq, if_false]
    exact hlists

/-- The list of the resolver is received. -/
theorem Books.receives (hnone : endpoint.retained = false) :
    Books { endpoint.note .received with retained := true } where
  toDescriptors := (h.toDescriptors.notes rfl rfl).same rfl rfl
  lists := by
    have hlists := h.lists
    rw [hnone] at hlists
    simp only [Endpoint.note, List.count_append, List.count_singleton, beq_iff_eq, reduceCtorEq, if_false, if_true,
      Bool.false_eq_true] at hlists ⊢
    omega

theorem Books.freesList (hheld : endpoint.retained = true) :
    Books { endpoint.note .freedList with retained := false } where
  toDescriptors := (h.toDescriptors.notes rfl rfl).same rfl rfl
  lists := by
    have hlists := h.lists
    rw [hheld] at hlists
    simp only [Endpoint.note, List.count_append, List.count_singleton, beq_iff_eq, reduceCtorEq, if_false, if_true,
      Bool.false_eq_true] at hlists ⊢
    omega

theorem Books.same {endpoint' : Endpoint} (hdescriptor : endpoint'.descriptor = endpoint.descriptor)
    (hlog : endpoint'.log = endpoint.log) (hretained : endpoint'.retained = endpoint.retained) :
    Books endpoint' where
  toDescriptors := h.toDescriptors.same hdescriptor hlog
  lists := by
    rw [hlog, hretained]
    exact h.lists

end Books

/-! ## Trying addresses -/

/-- What trying addresses leaves alone. -/
structure Frame (endpoint endpoint' : Endpoint) : Prop where
  resolving : endpoint'.resolving = endpoint.resolving
  closed : endpoint'.closed = endpoint.closed
  released : endpoint'.released = endpoint.released
  freed : endpoint'.log.count .freedEndpoint = endpoint.log.count .freedEndpoint
  received : endpoint'.log.count .received = endpoint.log.count .received
  candidates : endpoint'.log.candidates = endpoint.log.candidates

theorem Frame.refl (endpoint : Endpoint) : Frame endpoint endpoint := ⟨rfl, rfl, rfl, rfl, rfl, rfl⟩

theorem Frame.trans {endpoint endpoint' endpoint'' : Endpoint} (h : Frame endpoint endpoint')
    (h' : Frame endpoint' endpoint'') : Frame endpoint endpoint'' where
  resolving := h'.resolving.trans h.resolving
  closed := h'.closed.trans h.closed
  released := h'.released.trans h.released
  freed := h'.freed.trans h.freed
  received := h'.received.trans h.received
  candidates := h'.candidates.trans h.candidates

theorem candidates_note (endpoint : Endpoint) (event : Event) :
    (endpoint.note event).log.candidates = endpoint.log.candidates ++ event.addresses := by
  simp [Endpoint.note, Log.candidates]

theorem tried_note (endpoint : Endpoint) (event : Event) :
    (endpoint.note event).log.tried = endpoint.log.tried ++ event.attempted := by
  simp [Endpoint.note, Log.tried]

theorem Frame.notes (endpoint : Endpoint) {event : Event} (hfreed : event ≠ .freedEndpoint)
    (hreceived : event ≠ .received) (haddresses : event.addresses = []) :
    Frame endpoint (endpoint.note event) where
  resolving := rfl
  closed := rfl
  released := rfl
  freed := by rw [count_note, if_neg hfreed, Nat.add_zero]
  received := by rw [count_note, if_neg hreceived, Nat.add_zero]
  candidates := by rw [candidates_note, haddresses, List.append_nil]

/-- The status and the descriptor. -/
structure Standing (endpoint : Endpoint) : Prop where
  open_ : 0 ≤ endpoint.status → endpoint.descriptor ≠ none
  failed : endpoint.status < 0 → endpoint.descriptor = none
  bound : endpoint.status ≤ 1

/-- The list is given back. -/
structure Emptied (endpoint endpoint' : Endpoint) : Prop where
  books : Books endpoint'
  frame : Frame endpoint endpoint'
  descriptor : endpoint'.descriptor = endpoint.descriptor
  status : endpoint'.status = endpoint.status
  retained : endpoint'.retained = false
  nextAddress : endpoint'.nextAddress = []
  tried : endpoint'.log.tried = endpoint.log.tried

theorem Books.releases {endpoint : Endpoint} (h : Books endpoint) :
    Emptied endpoint endpoint.releaseAddresses := by
  unfold Endpoint.releaseAddresses
  split_ifs with hretained
  · refine ⟨(h.freesList hretained).same rfl rfl rfl, ?_, rfl, rfl, rfl, rfl, ?_⟩
    · exact (@Frame.notes endpoint .freedList (by decide) (by decide) rfl).trans ⟨rfl, rfl, rfl, rfl, rfl, rfl⟩
    · exact (tried_note endpoint .freedList).trans (List.append_nil _)
  · rw [Bool.not_eq_true] at hretained
    exact ⟨h.same rfl rfl hretained.symm, ⟨rfl, rfl, rfl, rfl, rfl, rfl⟩, rfl, rfl, rfl, rfl, rfl⟩

/-- An address was tried. -/
structure Tried (endpoint : Endpoint) (address : Address) (endpoint' : Endpoint) : Prop where
  books : Books endpoint'
  frame : Frame endpoint endpoint'
  standing : Standing endpoint'
  retained : endpoint'.retained = endpoint.retained
  nextAddress : endpoint'.nextAddress = endpoint.nextAddress
  tried : endpoint'.log.tried = endpoint.log.tried ++ [address]

theorem uvTranslateSysError_neg (errno : Errno) : uvTranslateSysError errno < 0 := by
  have := errno.positive
  unfold uvTranslateSysError
  omega

/-- A failure leaves no descriptor. -/
theorem standing_failed {endpoint : Endpoint} (hnone : endpoint.descriptor = none)
    (hstatus : endpoint.status < 0) : Standing endpoint where
  open_ hpos := by omega
  failed _ := hnone
  bound := by omega

theorem Books.attempts {endpoint : Endpoint} (h : Books endpoint) (hnone : endpoint.descriptor = none)
    (address : Address) (attempt : Attempt) :
    Tried endpoint address (endpoint.attemptAddress address attempt) := by
  have hnoted : Books (endpoint.note (.tried address)) := h.notes rfl rfl nofun nofun
  have hframe : Frame endpoint (endpoint.note (.tried address)) := .notes endpoint nofun nofun rfl
  have htried : (endpoint.note (.tried address)).log.tried = endpoint.log.tried ++ [address] := tried_note _ _
  unfold Endpoint.attemptAddress
  dsimp only
  split
  · rename_i errno _
    exact ⟨hnoted.same rfl rfl rfl, hframe.trans ⟨rfl, rfl, rfl, rfl, rfl, rfl⟩, standing_failed hnone (uvTranslateSysError_neg errno),
      rfl, rfl, htried⟩
  · have hopened := hnoted.opens hnone
    have hopenFrame := hframe.trans (@Frame.notes (endpoint.note (.tried address))
      (.opened ((endpoint.note (.tried address)).log.countP Event.isOpened)) nofun nofun rfl)
    generalize hdescriptor : (endpoint.note (.tried address)).log.countP Event.isOpened = descriptor at hopened hopenFrame
    have hopenTried : ((endpoint.note (.tried address)).note (.opened descriptor)).log.tried =
        endpoint.log.tried ++ [address] := (tried_note _ _).trans ((List.append_nil _).trans htried)
    split
    · exact ⟨hopened.same rfl rfl rfl, hopenFrame.trans ⟨rfl, rfl, rfl, rfl, rfl, rfl⟩,
        ⟨nofun, nofun, Int.le_refl 1⟩, rfl, rfl, hopenTried⟩
    · rename_i errno _
      split_ifs
      · exact ⟨hopened.same rfl rfl rfl, hopenFrame.trans ⟨rfl, rfl, rfl, rfl, rfl, rfl⟩,
          ⟨nofun, nofun, Int.zero_le_ofNat 1⟩, rfl, rfl, hopenTried⟩
      · have hclosed := hopened.closes rfl
        refine ⟨hclosed.same hnone rfl rfl, ?_, standing_failed hnone (uvTranslateSysError_neg errno), rfl, rfl, ?_⟩
        · exact (hopenFrame.trans (@Frame.notes _ (.closed descriptor) nofun nofun rfl)).trans
            ⟨rfl, rfl, rfl, rfl, rfl, rfl⟩
        · exact (tried_note _ (.closed descriptor)).trans ((List.append_nil _).trans hopenTried)

/-- The loop has found an address, or there is none left. -/
structure Searched (endpoint endpoint' : Endpoint) : Prop where
  books : Books endpoint'
  frame : Frame endpoint endpoint'
  standing : Standing endpoint'
  order : InOrder endpoint'.log endpoint'.nextAddress
  released : endpoint'.status ≠ 0 → endpoint'.retained = false
  emptied : endpoint'.retained = false → endpoint'.nextAddress = []

theorem Books.searches {endpoint : Endpoint} (h : Books endpoint) (hnone : endpoint.descriptor = none)
    (hstatus : endpoint.status < 0) {next : List Address} (horder : InOrder endpoint.log next)
    (hretained : endpoint.retained = false → next = []) (attempts : Nat → Attempt) :
    Searched endpoint (Endpoint.tryAddresses attempts next endpoint) := by
  induction next generalizing endpoint attempts with
  | nil =>
    obtain ⟨hbooks, hframe, hdescriptor, hsame, hreleased, hnext, htried⟩ := h.releases
    refine ⟨hbooks, hframe, standing_failed (hdescriptor.trans hnone) ?_, ?_, fun _ => hreleased, fun _ => hnext⟩
    · exact Int.lt_of_le_of_lt (Int.le_of_eq hsame) hstatus
    · show InOrder endpoint.releaseAddresses.log endpoint.releaseAddresses.nextAddress
      rw [InOrder, hnext, htried, hframe.candidates]
      exact horder
  | cons address rest ih =>
    have hheld : endpoint.retained = true := by
      by_contra hnot
      cases hretained (Bool.not_eq_true _ ▸ hnot)
    have hmoved : Books { endpoint with nextAddress := rest } := h.same rfl rfl rfl
    unfold Endpoint.tryAddresses
    dsimp only
    split
    · rename_i hinet
      obtain ⟨hbooks, hframe, hstanding, hsameRetained, hnext, htried⟩ :=
        hmoved.attempts hnone address (attempts 0)
      generalize Endpoint.attemptAddress _ address (attempts 0) = tried at *
      have hframe : Frame endpoint tried := ⟨hframe.resolving, hframe.closed, hframe.released, hframe.freed,
        hframe.received, hframe.candidates⟩
      have horder' : InOrder tried.log rest := by
        rw [InOrder, htried, hframe.candidates, List.append_assoc]
        rwa [InOrder, List.filter_cons_of_pos hinet] at horder
      split_ifs with hpos hone
      · obtain ⟨hbooks', hframe', hdescriptor', hsame', hreleased', hnext', htried'⟩ := hbooks.releases
        refine ⟨hbooks', hframe.trans hframe', ⟨?_, ?_, ?_⟩, ?_, fun _ => hreleased', fun _ => hnext'⟩
        · rw [hsame', hdescriptor']
          exact hstanding.open_
        · rw [hsame', hdescriptor']
          exact hstanding.failed
        · rw [hsame']
          exact hstanding.bound
        · rw [hnext', InOrder, htried', hframe'.candidates]
          exact (List.prefix_append_right_inj _ |>.mpr List.nil_prefix).trans horder'
      · refine ⟨hbooks, hframe, hstanding, hnext ▸ horder', fun hne => ?_, fun hnot => ?_⟩
        · have := hstanding.bound
          omega
        · rw [hsameRetained] at hnot
          cases hheld.symm.trans hnot
      · have hsearched := ih hbooks (hstanding.failed (by omega)) (by omega) horder'
          (fun hnot => by cases hheld.symm.trans (hsameRetained.symm.trans hnot)) fun index => attempts (index + 1)
        exact ⟨hsearched.books, hframe.trans hsearched.frame, hsearched.standing, hsearched.order,
          hsearched.released, hsearched.emptied⟩
    · rename_i hinet
      have horder' : InOrder endpoint.log rest := by
        rwa [InOrder, List.filter_cons_of_neg hinet] at horder
      have hsearched := ih hmoved hnone hstatus horder' (fun hnot => by cases hheld.symm.trans hnot) attempts
      obtain ⟨hresolving, hclosed, hreleased, hfreed, hreceived, hcandidates⟩ := hsearched.frame
      exact ⟨hsearched.books, ⟨hresolving, hclosed, hreleased, hfreed, hreceived, hcandidates⟩,
        hsearched.standing, hsearched.order, hsearched.released, hsearched.emptied⟩

theorem uvEAddrNotAvail_neg : uvEAddrNotAvail < 0 := by decide

theorem Books.searchesNext {endpoint : Endpoint} (h : Books endpoint) (hnone : endpoint.descriptor = none)
    (horder : InOrder endpoint.log endpoint.nextAddress)
    (hretained : endpoint.retained = false → endpoint.nextAddress = []) (attempts : Nat → Attempt) :
    Searched endpoint (endpoint.tryNext attempts) := by
  unfold Endpoint.tryNext
  dsimp only
  split_ifs with hpos
  · have hsearched := @Books.searches { endpoint with status := uvEAddrNotAvail } (h.same rfl rfl rfl) hnone
      uvEAddrNotAvail_neg endpoint.nextAddress horder hretained attempts
    obtain ⟨hresolving, hclosed, hreleased, hfreed, hreceived, hcandidates⟩ := hsearched.frame
    exact ⟨hsearched.books, ⟨hresolving, hclosed, hreleased, hfreed, hreceived, hcandidates⟩,
      hsearched.standing, hsearched.order, hsearched.released, hsearched.emptied⟩
  · exact h.searches hnone (by omega) horder hretained attempts

/-! ## The calls -/

/-- What holds of an endpoint between the calls. -/
structure Sound (endpoint : Endpoint) : Prop where
  books : Books endpoint
  order : InOrder endpoint.log endpoint.nextAddress
  connected : endpoint.status = 1 → endpoint.descriptor ≠ none ∧ endpoint.retained = false
  failed : endpoint.status < 0 → endpoint.descriptor = none
  waiting : endpoint.status = 0 → endpoint.resolving = false → endpoint.descriptor ≠ none
  bound : endpoint.status ≤ 1
  emptied : endpoint.retained = false → endpoint.nextAddress = []
  /-- At most one list is received. -/
  list : endpoint.log.count .received ≤ if endpoint.resolving then 0 else 1
  unresolved : endpoint.resolving = true →
    endpoint.descriptor = none ∧ endpoint.retained = false ∧ endpoint.log.candidates = [] ∧
      (endpoint.closed = false → endpoint.status = 0)
  closing : endpoint.closed = true → endpoint.descriptor = none ∧ endpoint.retained = false ∧ endpoint.status < 0
  releasing : endpoint.released = true → endpoint.closed = true
  freed : endpoint.log.count .freedEndpoint = if endpoint.released ∧ endpoint.resolving = false then 1 else 0

theorem Standing.connected {endpoint : Endpoint} (h : Standing endpoint) (hstatus : endpoint.status = 1) :
    endpoint.descriptor ≠ none := h.open_ (by omega)

/-- An endpoint in use, where an address was tried. -/
theorem Searched.sound {endpoint endpoint' : Endpoint} (h : Searched endpoint endpoint')
    (hresolving : endpoint.resolving = false) (hclosed : endpoint.closed = false)
    (hreleased : endpoint.released = false) (hlist : endpoint.log.count .received ≤ 1)
    (hfreed : endpoint.log.count .freedEndpoint = 0) : Sound endpoint' where
  books := h.books
  order := h.order
  connected hstatus := ⟨h.standing.connected hstatus, h.released (by omega)⟩
  failed := h.standing.failed
  waiting hstatus _ := h.standing.open_ (by omega)
  bound := h.standing.bound
  emptied := h.emptied
  list := by
    rw [h.frame.received, h.frame.resolving, hresolving]
    exact hlist
  unresolved hnot := by
    rw [h.frame.resolving, hresolving] at hnot
    cases hnot
  closing hnot := by
    rw [h.frame.closed, hclosed] at hnot
    cases hnot
  releasing hnot := by
    rw [h.frame.released, hreleased] at hnot
    cases hnot
  freed := by
    rw [h.frame.freed, hfreed, h.frame.released, hreleased]
    rfl

theorem books_start (listener : Bool) (status : Int) (resolving : Bool) :
    Books { listener, status, resolving } where
  opened _ := rfl
  once _ := rfl
  now := rfl
  one past hpast := by
    rw [List.prefix_nil.mp hpast]
    exact ⟨Nat.le_refl 0, Nat.zero_le 1⟩
  lists := rfl

/-- An endpoint that has failed at once. -/
theorem sound_failed (listener : Bool) {status : Int} (h : status < 0) : Sound { listener, status } where
  books := books_start listener status false
  order := List.prefix_refl _
  connected hstatus := by
    have hstatus : status = 1 := hstatus
    omega
  failed _ := rfl
  waiting hstatus := by
    have hstatus : status = 0 := hstatus
    omega
  bound := by
    show status ≤ 1
    omega
  emptied _ := rfl
  list := Nat.zero_le _
  unresolved := nofun
  closing := nofun
  releasing := nofun
  freed := rfl

theorem sound_resolving (listener : Bool) : Sound { listener, resolving := true } where
  books := books_start listener 0 true
  order := List.prefix_refl _
  connected := nofun
  failed := nofun
  waiting _ hnot := by cases hnot
  bound := Int.zero_le_ofNat 1
  emptied _ := rfl
  list := Nat.zero_le _
  unresolved _ := ⟨rfl, rfl, rfl, fun _ => rfl⟩
  closing := nofun
  releasing := nofun
  freed := rfl

/-- A host that is an address is searched like a list that is not the resolver's. -/
theorem Tried.searched {endpoint endpoint' : Endpoint} {address : Address} (h : Tried endpoint address endpoint')
    (hretained : endpoint.retained = false) (hnext : endpoint.nextAddress = [])
    (horder : endpoint.log.tried ++ [address] <+: endpoint.log.candidates) : Searched endpoint endpoint' where
  books := h.books
  frame := h.frame
  standing := h.standing
  order := by
    rw [InOrder, h.nextAddress, hnext, h.tried, h.frame.candidates, List.filter_nil, List.append_nil]
    exact horder
  released _ := h.retained.trans hretained
  emptied _ := h.nextAddress.trans hnext

theorem sound_new (listener : Bool) (start : Endpoint.Start) : Sound (Endpoint.new listener start) := by
  cases start with
  | invalid => exact sound_failed listener (by decide)
  | ipv4 attempt =>
    have hbooks : Books (({ listener } : Endpoint).note (.candidates [⟨.inet, 0⟩])) :=
      (books_start listener 0 false).notes rfl rfl nofun nofun
    exact ((hbooks.attempts rfl ⟨.inet, 0⟩ attempt).searched rfl rfl (List.prefix_refl _)).sound
      rfl rfl rfl (Nat.zero_le 1) rfl
  | ipv6 attempt unspecified fallback =>
    have hbooks : Books (({ listener } : Endpoint).note (.candidates [⟨.inet6, 0⟩, ⟨.inet, 1⟩])) :=
      (books_start listener 0 false).notes rfl rfl nofun nofun
    have hfirst := hbooks.attempts rfl ⟨.inet6, 0⟩ attempt
    have hbegins : [(⟨.inet6, 0⟩ : Address)] <+: [⟨.inet6, 0⟩, ⟨.inet, 1⟩] := ⟨[⟨.inet, 1⟩], rfl⟩
    unfold Endpoint.new
    dsimp only
    generalize Endpoint.attemptAddress _ _ attempt = first at hfirst
    split_ifs with hfallback
    · have hsecond := hfirst.books.attempts (hfirst.standing.failed hfallback.1) ⟨.inet, 1⟩ fallback
      have horder : first.log.tried ++ [⟨.inet, 1⟩] <+: first.log.candidates := by
        rw [hfirst.tried, hfirst.frame.candidates]
        exact List.prefix_refl _
      refine (hsecond.searched hfirst.retained hfirst.nextAddress horder).sound hfirst.frame.resolving
        hfirst.frame.closed hfirst.frame.released ?_ hfirst.frame.freed
      rw [hfirst.frame.received]
      exact Nat.zero_le 1
    · exact (hfirst.searched rfl rfl hbegins).sound rfl rfl rfl (Nat.zero_le 1) rfl
  | name loop full status =>
    unfold Endpoint.new
    dsimp only
    split_ifs with hloop hfull hstatus
    · exact sound_failed listener hloop
    · exact sound_failed listener (by decide)
    · exact sound_failed listener hstatus
    · exact sound_resolving listener

theorem sound_adopt : Sound Endpoint.adopt where
  books := (books_start false 0 false).opens rfl |>.same rfl rfl rfl
  order := List.prefix_refl _
  connected _ := ⟨nofun, rfl⟩
  failed := nofun
  waiting := nofun
  bound := Int.le_refl 1
  emptied _ := rfl
  list := Nat.zero_le _
  unresolved := nofun
  closing := nofun
  releasing := nofun
  freed := rfl

/-- The descriptor is given back. -/
theorem Books.closesDescriptor {endpoint : Endpoint} (h : Books endpoint) :
    Books endpoint.closeDescriptor ∧ Frame endpoint endpoint.closeDescriptor ∧
      endpoint.closeDescriptor.descriptor = none ∧
      endpoint.closeDescriptor.log.tried = endpoint.log.tried ∧
      endpoint.closeDescriptor.retained = endpoint.retained ∧
      endpoint.closeDescriptor.nextAddress = endpoint.nextAddress := by
  unfold Endpoint.closeDescriptor
  split
  · rename_i descriptor hheld
    refine ⟨h.closes hheld, ?_, rfl, (tried_note _ (.closed descriptor)).trans (List.append_nil _), rfl, rfl⟩
    exact (@Frame.notes endpoint (.closed descriptor) nofun nofun rfl).trans ⟨rfl, rfl, rfl, rfl, rfl, rfl⟩
  · rename_i hnone
    exact ⟨h, .refl endpoint, hnone, rfl, rfl, rfl⟩

section Calls

variable {endpoint : Endpoint} (h : Sound endpoint)

include h

theorem Sound.closes : Sound endpoint.close := by
  unfold Endpoint.close
  split_ifs with hclosed
  · exact h
  · rw [Bool.not_eq_true] at hclosed
    have hreleased : endpoint.released = false := by
      by_contra hnot
      cases hclosed.symm.trans (h.releasing (Bool.not_eq_false _ ▸ hnot))
    have hmarked : Books { endpoint with closed := true, status := uvECanceled } := h.books.same rfl rfl rfl
    obtain ⟨hbooks, hframe, hdescriptor, htried, hretained, hnext⟩ := hmarked.closesDescriptor
    obtain ⟨hbooks', hframe', hdescriptor', hstatus', hretained', hnext', htried'⟩ := hbooks.releases
    have hstatus : (Endpoint.closeDescriptor { endpoint with closed := true, status := uvECanceled }).status = uvECanceled := by
      unfold Endpoint.closeDescriptor
      split <;> rfl
    generalize Endpoint.closeDescriptor _ = middle at *
    have hwhole := hframe.trans hframe'
    have hlate : middle.releaseAddresses.status = uvECanceled := hstatus'.trans hstatus
    have hnone : middle.releaseAddresses.descriptor = none := hdescriptor'.trans hdescriptor
    refine ⟨hbooks', ?_, ?_, fun _ => hnone, ?_, ?_, fun _ => hnext', ?_, ?_, fun _ => ⟨hnone, hretained', ?_⟩, ?_, ?_⟩
    · rw [hnext', InOrder, htried', htried, hwhole.candidates]
      exact (List.prefix_append_right_inj _ |>.mpr List.nil_prefix).trans h.order
    · rw [hlate]
      nofun
    · rw [hlate]
      nofun
    · rw [hlate]
      decide
    · rw [hwhole.received, hwhole.resolving]
      exact h.list
    · intro hresolving
      rw [hwhole.resolving] at hresolving
      refine ⟨hnone, hretained', ?_, fun hnot => ?_⟩
      · rw [hwhole.candidates]
        exact (h.unresolved hresolving).2.2.1
      · rw [hwhole.closed] at hnot
        cases hnot
    · rw [hlate]
      decide
    · intro hnot
      rw [hwhole.released] at hnot
      cases hreleased.symm.trans hnot
    · rw [hwhole.freed, hwhole.released, hwhole.resolving]
      exact h.freed

omit h in
theorem close_closed (endpoint : Endpoint) : endpoint.close.closed = true := by
  unfold Endpoint.close
  split_ifs with hclosed
  · exact hclosed
  · unfold Endpoint.releaseAddresses Endpoint.closeDescriptor
    split <;> split <;> rfl

omit h in
theorem close_released (endpoint : Endpoint) : endpoint.close.released = endpoint.released := by
  unfold Endpoint.close
  split_ifs with hclosed
  · rfl
  · unfold Endpoint.releaseAddresses Endpoint.closeDescriptor
    split <;> split <;> rfl

theorem Sound.frees (hheld : endpoint.released = false) : Sound endpoint.free := by
  have hclosed := close_closed endpoint
  have hreleased := (close_released endpoint).trans hheld
  have hsound := h.closes
  have hnone : endpoint.close.log.count .freedEndpoint = 0 := by
    rw [hsound.freed, hreleased]
    rfl
  unfold Endpoint.free
  generalize endpoint.close = closed at *
  obtain ⟨hbooks, horder, hconnected, hfailed, hwaiting, hbound, hemptied, hlist, hunresolved, hclosing, -, -⟩ := hsound
  dsimp only
  split_ifs with hresolving
  · refine ⟨hbooks.same rfl rfl rfl, horder, hconnected, hfailed, hwaiting, hbound, hemptied, hlist, hunresolved,
      hclosing, fun _ => hclosed, ?_⟩
    show closed.log.count .freedEndpoint = if true = true ∧ closed.resolving = false then 1 else 0
    rw [hnone, hresolving]
    rfl
  · rw [Bool.not_eq_true] at hresolving
    have hbooks' : Books { closed with released := true } := hbooks.same rfl rfl rfl
    refine ⟨hbooks'.notes rfl rfl nofun nofun, ?_, hconnected, hfailed, hwaiting, hbound, hemptied, ?_, ?_,
      hclosing, fun _ => hclosed, ?_⟩
    · rw [InOrder, tried_note, candidates_note]
      show closed.log.tried ++ [] ++ closed.nextAddress.filter Address.isInet <+: closed.log.candidates ++ []
      rw [List.append_nil, List.append_nil]
      exact horder
    · rw [count_note]
      exact hlist
    · intro hnot
      cases hresolving.symm.trans hnot
    · rw [count_note]
      show closed.log.count .freedEndpoint + 1 = if true = true ∧ closed.resolving = false then 1 else 0
      rw [hnone, hresolving]
      rfl

theorem Sound.progresses (hheld : endpoint.released = false) (answer : Endpoint.PollAnswer)
    (attempts : Nat → Attempt) : Sound (endpoint.progress answer attempts) := by
  unfold Endpoint.progress
  split_ifs with hbusy hnone
  · exact h
  · exact h
  rw [not_or, not_not, Bool.not_eq_true] at hbusy
  obtain ⟨hstatus, hresolving⟩ := hbusy
  have hclosed : endpoint.closed = false := by
    by_contra hnot
    exact hnone (h.closing (Bool.not_eq_false _ ▸ hnot)).1
  have hlist : endpoint.log.count .received ≤ 1 := by
    have := h.list
    rwa [hresolving] at this
  have hfreed : endpoint.log.count .freedEndpoint = 0 := by
    rw [h.freed, hheld]
    rfl
  have hfails : ∀ errno, Sound
      (Endpoint.tryNext { endpoint.closeDescriptor with status := uvTranslateSysError errno } attempts) := by
    intro errno
    obtain ⟨hbooks, hframe, hdescriptor, htried, hretained, hnext⟩ := h.books.closesDescriptor
    refine (@Books.searchesNext { endpoint.closeDescriptor with status := uvTranslateSysError errno }
      (hbooks.same rfl rfl rfl) hdescriptor ?_ ?_ attempts).sound (hframe.resolving.trans hresolving)
      (hframe.closed.trans hclosed) (hframe.released.trans hheld) (Nat.le_trans (Nat.le_of_eq hframe.received) hlist)
      (hframe.freed.trans hfreed)
    · show InOrder endpoint.closeDescriptor.log endpoint.closeDescriptor.nextAddress
      rw [InOrder, htried, hnext, hframe.candidates]
      exact h.order
    · intro hnot
      exact hnext.trans (h.emptied (hretained.symm.trans hnot))
  cases answer with
  | waiting => exact h
  | failed errno => exact hfails errno
  | error errno => exact hfails errno
  | ready =>
    have hmarked : Books { endpoint with status := 1 } := h.books.same rfl rfl rfl
    obtain ⟨hbooks, hframe, hdescriptor, hsame, hretained, hnext, htried⟩ := hmarked.releases
    have hframe : Frame endpoint (Endpoint.releaseAddresses { endpoint with status := 1 }) :=
      ⟨hframe.resolving, hframe.closed, hframe.released, hframe.freed, hframe.received, hframe.candidates⟩
    have hopen : (Endpoint.releaseAddresses { endpoint with status := 1 }).descriptor ≠ none := by
      rw [hdescriptor]
      exact hnone
    refine (Searched.mk hbooks hframe ⟨fun _ => hopen, fun hneg => ?_, ?_⟩ ?_ (fun _ => hretained)
      fun _ => hnext).sound hresolving hclosed hheld hlist hfreed
    · rw [hsame] at hneg
      cases hneg
    · exact Int.le_of_eq hsame
    · rw [hnext, InOrder, htried, hframe.candidates]
      exact (List.prefix_append_right_inj _ |>.mpr List.nil_prefix).trans h.order

omit h in
/-- A list that comes too late is freed. -/
theorem Books.drops (hbooks : Books endpoint) (hretained : endpoint.retained = false)
    (addresses : Option (List Address)) :
    Books (endpoint.dropList addresses) ∧
      (endpoint.dropList addresses).log.count .received ≤ endpoint.log.count .received + 1 ∧
      (endpoint.dropList addresses).log.count .freedEndpoint = endpoint.log.count .freedEndpoint ∧
      (endpoint.dropList addresses).log.tried = endpoint.log.tried ∧
      (endpoint.dropList addresses).log.candidates = endpoint.log.candidates := by
  unfold Endpoint.dropList
  split_ifs
  · have hreceived := hbooks.receives hretained
    refine ⟨(hreceived.freesList rfl).same rfl rfl hretained, ?_, ?_, ?_, ?_⟩
    · rw [count_note, count_note]
      exact Nat.le_refl _
    · rw [count_note, count_note]
      rfl
    · rw [tried_note, tried_note]
      exact (List.append_nil _).trans (List.append_nil _)
    · rw [candidates_note, candidates_note]
      exact (List.append_nil _).trans (List.append_nil _)
  · exact ⟨hbooks, Nat.le_succ _, rfl, rfl, rfl⟩

omit h in
theorem dropList_fields (endpoint : Endpoint) (addresses : Option (List Address)) :
    (endpoint.dropList addresses).descriptor = endpoint.descriptor ∧
      (endpoint.dropList addresses).retained = endpoint.retained ∧
      (endpoint.dropList addresses).nextAddress = endpoint.nextAddress ∧
      (endpoint.dropList addresses).status = endpoint.status ∧
      (endpoint.dropList addresses).resolving = endpoint.resolving ∧
      (endpoint.dropList addresses).closed = endpoint.closed ∧
      (endpoint.dropList addresses).released = endpoint.released := by
  unfold Endpoint.dropList
  split_ifs <;> exact ⟨rfl, rfl, rfl, rfl, rfl, rfl, rfl⟩

/-- The callback of a closed endpoint frees what was left. -/
theorem Sound.resolvesClosed (hresolving : endpoint.resolving = true) (hclosed : endpoint.closed = true)
    (status : Int) (addresses : Option (List Address)) (attempts : Nat → Attempt) :
    Sound (endpoint.resolved status addresses attempts) := by
  obtain ⟨hdescriptor, hretained, hcandidates, -⟩ := h.unresolved hresolving
  have hmarked : Books { endpoint with resolving := false } := h.books.same rfl rfl rfl
  obtain ⟨hbooks, hreceived, hfreed, htried, hcandidates'⟩ := hmarked.drops hretained addresses
  obtain ⟨hdescriptor', hretained', hnext', hstatus', hresolving', hclosed', hreleased'⟩ :=
    dropList_fields { endpoint with resolving := false } addresses
  have hlist : endpoint.log.count .received ≤ 0 := by
    have := h.list
    rwa [hresolving] at this
  have hcount : endpoint.log.count .freedEndpoint = 0 := by
    rw [h.freed, if_neg fun hand => by cases hresolving.symm.trans hand.2]
  have hneg := (h.closing hclosed).2.2
  have horder : InOrder (Endpoint.dropList { endpoint with resolving := false } addresses).log
      (Endpoint.dropList { endpoint with resolving := false } addresses).nextAddress := by
    rw [InOrder, hnext', htried, hcandidates']
    exact h.order
  unfold Endpoint.resolved
  dsimp only
  rw [if_pos hclosed]
  generalize Endpoint.dropList { endpoint with resolving := false } addresses = dropped at *
  have hreleased' : dropped.released = endpoint.released := hreleased'
  have hstatus' : dropped.status = endpoint.status := hstatus'
  have hdescriptor' : dropped.descriptor = none := hdescriptor'.trans hdescriptor
  have hretained' : dropped.retained = false := hretained'.trans hretained
  have hresolving' : dropped.resolving = false := hresolving'
  have hnext' : dropped.nextAddress = [] := hnext'.trans (h.emptied hretained)
  have hreceived : dropped.log.count .received ≤ 1 := Nat.le_trans hreceived (Nat.succ_le_succ hlist)
  have hfreed : dropped.log.count .freedEndpoint = 0 := hfreed.trans hcount
  -- what the callback of a closed endpoint leaves but for the endpoint itself
  have hends : ∀ endpoint' : Endpoint, Books endpoint' → InOrder endpoint'.log endpoint'.nextAddress →
      endpoint'.descriptor = none → endpoint'.retained = false → endpoint'.nextAddress = [] →
      endpoint'.status = endpoint.status → endpoint'.resolving = false → endpoint'.log.count .received ≤ 1 →
      (endpoint'.released = true → endpoint'.closed = true) →
      endpoint'.log.count .freedEndpoint = (if endpoint'.released = true then 1 else 0) → Sound endpoint' := by
    intro endpoint' hbooks horder hdescriptor hretained hnext hstatus hresolving hreceived hreleasing hfreed
    refine ⟨hbooks, horder, fun hone => ?_, fun _ => hdescriptor, fun hzero => ?_, ?_, fun _ => hnext, ?_, fun hnot => ?_,
      fun _ => ⟨hdescriptor, hretained, hstatus ▸ hneg⟩, hreleasing, ?_⟩
    · omega
    · omega
    · omega
    · rw [hresolving]
      exact hreceived
    · cases hresolving.symm.trans hnot
    · rw [hfreed, hresolving]
      simp
  split_ifs with hreleased
  · refine hends _ (hbooks.notes rfl rfl nofun nofun) ?_ hdescriptor' hretained' hnext' hstatus' hresolving' ?_
      (fun _ => hclosed'.trans hclosed) ?_
    · rw [InOrder, tried_note, candidates_note]
      show dropped.log.tried ++ [] ++ dropped.nextAddress.filter Address.isInet <+: dropped.log.candidates ++ []
      rw [List.append_nil, List.append_nil]
      exact horder
    · rw [count_note]
      exact hreceived
    · rw [count_note, hfreed]
      exact (if_pos hreleased).symm
  · refine hends dropped hbooks horder hdescriptor' hretained' hnext' hstatus' hresolving' hreceived
      (fun hnot => absurd hnot hreleased) ?_
    rw [hfreed, if_neg hreleased]

/-- The callback of an endpoint in use fails, or begins with the first address. -/
theorem Sound.resolvesOpen (hresolving : endpoint.resolving = true) (hclosed : endpoint.closed = false)
    (status : Int) (addresses : Option (List Address)) (attempts : Nat → Attempt) :
    Sound (endpoint.resolved status addresses attempts) := by
  obtain ⟨hdescriptor, hretained, hcandidates, hstatus⟩ := h.unresolved hresolving
  have hmarked : Books { endpoint with resolving := false } := h.books.same rfl rfl rfl
  have hlist : endpoint.log.count .received ≤ 0 := by
    have := h.list
    rwa [hresolving] at this
  have hreleased : endpoint.released = false := by
    by_contra hnot
    cases hclosed.symm.trans (h.releasing (Bool.not_eq_false _ ▸ hnot))
  have hcount : endpoint.log.count .freedEndpoint = 0 := by
    rw [h.freed, hreleased]
    rfl
  have htried : endpoint.log.tried = [] := by
    have horder := h.order
    rw [InOrder, hcandidates] at horder
    exact (List.append_eq_nil_iff.mp (List.prefix_nil.mp horder)).1
  have hfails : ∀ status, status < 0 →
      Sound { Endpoint.dropList { endpoint with resolving := false } addresses with status } := by
    intro status hneg
    obtain ⟨hbooks, hreceived, hfreed, htried', hcandidates'⟩ := hmarked.drops hretained addresses
    obtain ⟨hdescriptor', hretained', hnext', -, hresolving', hclosed', hreleased'⟩ :=
      dropList_fields { endpoint with resolving := false } addresses
    generalize Endpoint.dropList { endpoint with resolving := false } addresses = dropped at *
    have hsearched : Searched dropped { dropped with status } := by
      refine ⟨hbooks.same rfl rfl rfl, ⟨rfl, rfl, rfl, rfl, rfl, rfl⟩,
        standing_failed (hdescriptor'.trans hdescriptor) hneg, ?_, fun _ => hretained'.trans hretained,
        fun _ => hnext'.trans (h.emptied hretained)⟩
      show InOrder dropped.log dropped.nextAddress
      rw [InOrder, htried', hcandidates', hnext']
      exact h.order
    exact hsearched.sound hresolving' (hclosed'.trans hclosed) (hreleased'.trans hreleased)
      (Nat.le_trans hreceived (Nat.succ_le_succ hlist)) (hfreed.trans hcount)
  unfold Endpoint.resolved
  dsimp only
  rw [if_neg (by rw [hclosed]; exact Bool.false_ne_true)]
  split_ifs with hneg hlong
  · exact hfails status hneg
  · exact hfails uvE2Big (by decide)
  -- the addresses of the list are the candidates
  · obtain ⟨list, rfl⟩ := Option.isSome_iff_exists.mp ‹addresses.isSome = true›
    have hbooks := @Books.notes _ (hmarked.receives hretained) (.candidates list) rfl rfl nofun nofun
    refine (@Books.searchesNext { ({ endpoint with resolving := false }.note .received).note (.candidates list) with
      retained := true, nextAddress := list } (hbooks.same rfl rfl rfl) hdescriptor ?_
        (fun hnot => Bool.noConfusion hnot) attempts).sound rfl hclosed hreleased ?_ ?_
    · show InOrder (({ endpoint with resolving := false }.note .received).note (.candidates list)).log list
      rw [InOrder, tried_note, candidates_note, tried_note, candidates_note]
      show endpoint.log.tried ++ [] ++ [] ++ list.filter Address.isInet <+:
        endpoint.log.candidates ++ [] ++ list.filter Address.isInet
      rw [htried, hcandidates]
      exact List.prefix_refl _
    · show (({ endpoint with resolving := false }.note .received).note (.candidates list)).log.count Event.received ≤ 1
      rw [count_note, count_note]
      exact Nat.succ_le_succ hlist
    · show (({ endpoint with resolving := false }.note .received).note (.candidates list)).log.count Event.freedEndpoint = 0
      rw [count_note, count_note]
      exact hcount
  · obtain rfl : addresses = none := by
      cases addresses with
      | none => rfl
      | some list => exact absurd rfl ‹¬ (some list).isSome = true›
    have hbooks := @Books.notes _ hmarked (.candidates []) rfl rfl nofun nofun
    refine (@Books.searchesNext { { endpoint with resolving := false }.note (.candidates []) with
      retained := false, nextAddress := [] } (hbooks.same rfl rfl hretained.symm) hdescriptor ?_ (fun _ => rfl)
        attempts).sound rfl hclosed hreleased ?_ ?_
    · show InOrder ({ endpoint with resolving := false }.note (.candidates [])).log []
      rw [InOrder, tried_note, candidates_note]
      show endpoint.log.tried ++ [] ++ [] <+: endpoint.log.candidates ++ []
      rw [htried, hcandidates]
      exact List.prefix_refl _
    · show ({ endpoint with resolving := false }.note (.candidates [])).log.count Event.received ≤ 1
      rw [count_note]
      exact Nat.le_trans hlist (Nat.zero_le 1)
    · show ({ endpoint with resolving := false }.note (.candidates [])).log.count Event.freedEndpoint = 0
      rw [count_note]
      exact hcount

theorem Sound.calls (call : Call) : Sound (endpoint.call call) := by
  cases call with
  | resolved status addresses attempts =>
    show Sound (if endpoint.resolving then endpoint.resolved status addresses attempts else endpoint)
    split_ifs with hresolving
    · cases hclosed : endpoint.closed with
      | true => exact h.resolvesClosed hresolving hclosed status addresses attempts
      | false => exact h.resolvesOpen hresolving hclosed status addresses attempts
    · exact h
  | progress answer attempts =>
    show Sound (if endpoint.released then endpoint else endpoint.progress answer attempts)
    split_ifs with hreleased
    · exact h
    · exact h.progresses (Bool.not_eq_true _ ▸ hreleased) answer attempts
  | close =>
    show Sound (if endpoint.released then endpoint else endpoint.close)
    split_ifs
    · exact h
    · exact h.closes
  | free =>
    show Sound (if endpoint.released then endpoint else endpoint.free)
    split_ifs with hreleased
    · exact h
    · exact h.frees (Bool.not_eq_true _ ▸ hreleased)

end Calls

/-! ## Runs -/

/-- How an endpoint comes to be. -/
inductive Creation
  | new (listener : Bool) (start : Endpoint.Start)
  | adopt

def Endpoint.created : Creation → Endpoint
  | .new listener start => Endpoint.new listener start
  | .adopt => Endpoint.adopt

theorem sound_created (creation : Creation) : Sound (Endpoint.created creation) := by
  cases creation with
  | new listener start => exact sound_new listener start
  | adopt => exact sound_adopt

theorem sound_run (creation : Creation) (calls : List Call) :
    Sound (run Endpoint.call (Endpoint.created creation) calls) :=
  @run_preserves _ _ Endpoint.call Sound (fun _ call h => Sound.calls h call) _ (sound_created creation) calls

/-! ## Who frees -/

/-- What the owner has freed, and whether the callback is to come. -/
def Endpoint.standing (endpoint : Endpoint) : Bool × Bool := (endpoint.released, endpoint.resolving)

theorem releaseAddresses_standing (endpoint : Endpoint) : endpoint.releaseAddresses.standing = endpoint.standing := by
  unfold Endpoint.releaseAddresses
  split_ifs <;> rfl

theorem closeDescriptor_standing (endpoint : Endpoint) : endpoint.closeDescriptor.standing = endpoint.standing := by
  unfold Endpoint.closeDescriptor
  split <;> rfl

theorem attemptAddress_standing (endpoint : Endpoint) (address : Address) (attempt : Attempt) :
    (endpoint.attemptAddress address attempt).standing = endpoint.standing := by
  unfold Endpoint.attemptAddress
  dsimp only
  split
  · rfl
  · split
    · rfl
    · split_ifs <;> rfl

theorem tryAddresses_standing (attempts : Nat → Attempt) (addresses : List Address) (endpoint : Endpoint) :
    (Endpoint.tryAddresses attempts addresses endpoint).standing = endpoint.standing := by
  induction addresses generalizing attempts endpoint with
  | nil => exact releaseAddresses_standing endpoint
  | cons address rest ih =>
    have htried : (Endpoint.attemptAddress { endpoint with nextAddress := rest } address (attempts 0)).standing =
        endpoint.standing := attemptAddress_standing _ _ _
    unfold Endpoint.tryAddresses
    dsimp only
    split_ifs
    · exact (releaseAddresses_standing _).trans htried
    · exact htried
    · exact (ih _ _).trans htried
    · exact ih _ _

theorem tryNext_standing (endpoint : Endpoint) (attempts : Nat → Attempt) :
    (endpoint.tryNext attempts).standing = endpoint.standing := by
  unfold Endpoint.tryNext
  refine (tryAddresses_standing _ _ _).trans ?_
  split_ifs <;> rfl

theorem close_standing (endpoint : Endpoint) : endpoint.close.standing = endpoint.standing := by
  unfold Endpoint.close
  split_ifs
  · rfl
  · exact (releaseAddresses_standing _).trans (closeDescriptor_standing _)

theorem progress_standing (endpoint : Endpoint) (answer : Endpoint.PollAnswer) (attempts : Nat → Attempt) :
    (endpoint.progress answer attempts).standing = endpoint.standing := by
  have hfails : ∀ status, (Endpoint.tryNext { endpoint.closeDescriptor with status } attempts).standing =
      endpoint.standing := fun status => (tryNext_standing _ _).trans (closeDescriptor_standing endpoint)
  unfold Endpoint.progress
  split_ifs
  · rfl
  · rfl
  · cases answer with
    | waiting => rfl
    | failed errno => exact hfails _
    | ready => exact releaseAddresses_standing _
    | error errno => exact hfails _

theorem dropList_standing (endpoint : Endpoint) (addresses : Option (List Address)) :
    (endpoint.dropList addresses).standing = endpoint.standing := by
  unfold Endpoint.dropList
  split_ifs <;> rfl

/-- The callback has come. -/
theorem resolved_standing (endpoint : Endpoint) (status : Int) (addresses : Option (List Address))
    (attempts : Nat → Attempt) :
    (endpoint.resolved status addresses attempts).standing = (endpoint.released, false) := by
  have hdropped : (Endpoint.dropList { endpoint with resolving := false } addresses).standing =
      (endpoint.released, false) := dropList_standing _ _
  unfold Endpoint.resolved
  dsimp only
  split_ifs
  · exact hdropped
  · exact hdropped
  · exact hdropped
  · exact hdropped
  · exact tryNext_standing _ _
  · exact tryNext_standing _ _

theorem free_standing (endpoint : Endpoint) : endpoint.free.standing = (true, endpoint.resolving) := by
  have hresolving : endpoint.close.resolving = endpoint.resolving := congrArg Prod.snd (close_standing endpoint)
  rw [← hresolving]
  unfold Endpoint.free
  dsimp only
  split_ifs <;> rfl

/-- The owner's `free` releases the endpoint, and only the callback ends the resolution. -/
theorem run_standing (endpoint : Endpoint) (calls : List Call) :
    ((run Endpoint.call endpoint calls).released = true ↔ endpoint.released = true ∨ .free ∈ calls) ∧
      ((run Endpoint.call endpoint calls).resolving = true ↔ endpoint.resolving = true ∧
        ∀ status addresses attempts, .resolved status addresses attempts ∉ calls) := by
  induction calls generalizing endpoint with
  | nil => simp
  | cons call calls ih =>
    rw [run_cons, (ih _).1, (ih _).2]
    have hkeeps : (endpoint.call call).standing = endpoint.standing →
        (endpoint.call call).released = endpoint.released ∧ (endpoint.call call).resolving = endpoint.resolving :=
      fun hsame => ⟨congrArg Prod.fst hsame, congrArg Prod.snd hsame⟩
    cases call with
    | resolved status addresses attempts =>
      have hcall : (endpoint.call (.resolved status addresses attempts)).standing = (endpoint.released, false) := by
        show (if endpoint.resolving then endpoint.resolved status addresses attempts else endpoint).standing = _
        split_ifs with hresolving
        · exact resolved_standing endpoint status addresses attempts
        · exact Prod.ext rfl (Bool.not_eq_true _ ▸ hresolving)
      rw [show (endpoint.call (.resolved status addresses attempts)).released = endpoint.released from
        congrArg Prod.fst hcall, show (endpoint.call (.resolved status addresses attempts)).resolving = false from
          congrArg Prod.snd hcall]
      refine ⟨by simp, fun h => absurd h.1 Bool.false_ne_true, fun h => absurd List.mem_cons_self (h.2 _ _ _)⟩
    | progress answer attempts =>
      obtain ⟨hreleased, hresolving⟩ := hkeeps (by
        show (if endpoint.released then endpoint else endpoint.progress answer attempts).standing = _
        split_ifs
        · rfl
        · exact progress_standing endpoint answer attempts)
      rw [hreleased, hresolving]
      simp
    | close =>
      obtain ⟨hreleased, hresolving⟩ := hkeeps (by
        show (if endpoint.released then endpoint else endpoint.close).standing = _
        split_ifs
        · rfl
        · exact close_standing endpoint)
      rw [hreleased, hresolving]
      simp
    | free =>
      have hcall : (endpoint.call .free).standing = (true, endpoint.resolving) := by
        show (if endpoint.released then endpoint else endpoint.free).standing = _
        split_ifs with hreleased
        · exact Prod.ext hreleased rfl
        · exact free_standing endpoint
      rw [show (endpoint.call .free).released = true from congrArg Prod.fst hcall,
        show (endpoint.call .free).resolving = endpoint.resolving from congrArg Prod.snd hcall]
      simp

theorem created_released (creation : Creation) : (Endpoint.created creation).released = false := by
  cases creation with
  | adopt => rfl
  | new listener start =>
    cases start with
    | invalid => rfl
    | ipv4 attempt => exact congrArg Prod.fst (attemptAddress_standing _ _ _)
    | ipv6 attempt unspecified fallback =>
      show (Endpoint.new listener (.ipv6 attempt unspecified fallback)).released = false
      unfold Endpoint.new
      dsimp only
      split_ifs
      · exact congrArg Prod.fst ((attemptAddress_standing _ _ _).trans (attemptAddress_standing _ _ _))
      · exact congrArg Prod.fst (attemptAddress_standing _ _ _)
    | name loop full status =>
      show (Endpoint.new listener (.name loop full status)).released = false
      unfold Endpoint.new
      dsimp only
      split_ifs <;> rfl

/-- Whatever the order of the calls and of the callback, the status tells what is held, and what is
held is given back once. The endpoint is released by `free`, and it resolves until the callback comes. -/
theorem endpoint_accounted (creation : Creation) (calls : List Call) :
    let endpoint := run Endpoint.call (Endpoint.created creation) calls
    (endpoint.status = 1 → endpoint.descriptor ≠ none ∧ endpoint.retained = false) ∧
    (endpoint.status < 0 → endpoint.descriptor = none) ∧
    (endpoint.status = 0 → endpoint.resolving = false → endpoint.descriptor ≠ none) ∧
    endpoint.log.tried <+: endpoint.log.candidates ∧
    (∀ past, past <+: endpoint.log → past.countP Event.isClosed ≤ past.countP Event.isOpened ∧
      past.countP Event.isOpened ≤ past.countP Event.isClosed + 1) ∧
    (∀ descriptor, endpoint.log.count (.opened descriptor) ≤ 1 ∧
      endpoint.log.count (.opened descriptor) = endpoint.log.count (.closed descriptor) +
        if endpoint.descriptor = some descriptor then 1 else 0) ∧
    (endpoint.log.count .received ≤ 1 ∧
      endpoint.log.count .received = endpoint.log.count .freedList + if endpoint.retained then 1 else 0) ∧
    (endpoint.log.count .freedEndpoint = if endpoint.released ∧ endpoint.resolving = false then 1 else 0) ∧
    (endpoint.released = true → endpoint.descriptor = none ∧ endpoint.retained = false) ∧
    (endpoint.released = true ↔ .free ∈ calls) ∧
    (endpoint.resolving = true ↔ (Endpoint.created creation).resolving = true ∧
      ∀ status addresses attempts, .resolved status addresses attempts ∉ calls) := by
  intro endpoint
  have h : Sound endpoint := sound_run creation calls
  obtain ⟨hreleased, hresolving⟩ := run_standing (Endpoint.created creation) calls
  refine ⟨h.connected, h.failed, h.waiting, ?_, h.books.one, ?_, ⟨?_, h.books.lists⟩, h.freed, ?_, ?_, hresolving⟩
  · exact (List.prefix_append _ _).trans h.order
  · intro descriptor
    refine ⟨?_, h.books.opened descriptor⟩
    rw [h.books.once descriptor]
    split_ifs <;> omega
  · apply Nat.le_trans h.list
    split_ifs <;> omega
  · intro hreleased
    obtain ⟨hdescriptor, hretained, -⟩ := h.closing (h.releasing hreleased)
    exact ⟨hdescriptor, hretained⟩
  · rw [created_released] at hreleased
    simpa using hreleased

/-- A listed name whose first address refuses, closed while the second is pending. -/
example : (run Endpoint.call (Endpoint.created (.new false (.name 0 false 0)))
    [.resolved 0 (some [⟨.inet6, 0⟩, ⟨.inet, 1⟩]) fun
      | 0 => { started := some ⟨111, by decide⟩ }
      | _ => { started := some ⟨eInProgress, by decide⟩ },
      .close, .free]).log =
    [.received, .candidates [⟨.inet6, 0⟩, ⟨.inet, 1⟩], .tried ⟨.inet6, 0⟩, .opened 0, .closed 0,
      .tried ⟨.inet, 1⟩, .opened 1, .closed 1, .freedList, .freedEndpoint] := by
  decide

end TsonicNode.Net.Native
