import TsonicNode.Http.Framing

/-!
# HTTP requests

`ClientRequest` buffers its headers and its body; `end` hands them to a native
request. What the native side answers to each of its calls, and what the checks
of the options answer, is a parameter; the options are any type. The callback is
left out.

`end_atomic` is about both ends of a connection.
-/

namespace TsonicNode.Http

open TsonicNode.Lib TsonicNode.Lib.Http

variable {Options : Type}

/-- A call of the native request. -/
inductive NativeCall (Options : Type) where
  | new (url : Bytes) (options : Options)
  | header (line : Bytes)
  | start (method body : Bytes) (present : Bool) (options : Options)

/-- The error each call of the native request raises, if it raises one. -/
abbrev NativeAnswer (Options : Type) := NativeCall Options → Option Error

/-- A native request with what it was given. -/
structure NativeRequest where
  url : Bytes
  lines : List Bytes := []
  method : Bytes := []
  body : Bytes := []
  present : Bool := false
  deriving DecidableEq, Repr

structure ClientState (Options : Type) where
  address : Bytes
  options : Options
  method : Bytes
  headers : List Field := []
  body : Bytes := []
  bodyPresent : Bool := false
  ended : Bool := false
  destroyed : Bool := false
  native : Option NativeRequest := none
  /-- How often the request stands in the list that is polled. -/
  requests : Nat := 0

abbrev ClientMethod (Options : Type) := EStateM Error (ClientState Options)

def maxMessageBytes : Nat := 268435456

def requireOpen : ClientMethod Options Unit := do
  let s ← get
  if s.ended || s.destroyed then throw ⟨"HTTP request is no longer writable"⟩ else pure ()

def clientWriteBuffer (value : Bytes) : ClientMethod Options Bool := do
  requireOpen
  let s ← get
  if (maxMessageBytes : Int) - s.body.length < value.length then
    throw ⟨"HTTP request body exceeds the runtime byte budget"⟩
  else
    modify fun s => { s with bodyPresent := true, body := s.body ++ value }
    return true

def ask (answer : NativeAnswer Options) (call : NativeCall Options) : Except Error Unit :=
  match answer call with
  | none => .ok ()
  | some error => .error error

def headerLine (header : Field) : Bytes :=
  if header.value = [] then header.name ++ ascii ";"
  else header.name ++ ascii ": " ++ header.value

/-- The headers the native request takes, one after another. -/
def addHeaders (answer : NativeAnswer Options) : List Field → NativeRequest →
    Except Error NativeRequest
  | [], native => .ok native
  | header :: headers, native => do
    ask answer (.header (headerLine header))
    addHeaders answer headers { native with lines := native.lines ++ [headerLine header] }

def startNative (answer : NativeAnswer Options) (s : ClientState Options) :
    Except Error NativeRequest := do
  ask answer (.new s.address s.options)
  let native ← addHeaders answer s.headers { url := s.address }
  ask answer (.start s.method s.body s.bodyPresent s.options)
  return { native with method := s.method, body := s.body, present := s.bodyPresent }

def clientEnd (answer : NativeAnswer Options) : ClientMethod Options Unit := do
  let s ← get
  if s.destroyed then throw ⟨"Cannot end a destroyed HTTP request"⟩
  else if s.ended then pure ()
  else
    match startNative answer s with
    | .error error => throw error
    | .ok native =>
      modify fun s =>
        { s with native := some native, ended := true, body := [], requests := s.requests + 1 }

def clientEndBuffer (answer : NativeAnswer Options) (value : Bytes) : ClientMethod Options Unit := do
  let _ ← clientWriteBuffer value
  clientEnd answer

/-! ## What the native side takes -/

/-- The native side refuses nothing of this request. -/
structure Accepted (answer : NativeAnswer Options) (s : ClientState Options) : Prop where
  new : answer (.new s.address s.options) = none
  headers : ∀ h ∈ s.headers, answer (.header (headerLine h)) = none
  start : answer (.start s.method s.body s.bodyPresent s.options) = none

theorem ask_eq (answer : NativeAnswer Options) (call : NativeCall Options) :
    (answer call = none ∧ ask answer call = .ok ()) ∨
      (answer call ≠ none ∧ ∃ error, ask answer call = .error error) := by
  unfold ask
  cases answer call with
  | none => exact Or.inl ⟨rfl, rfl⟩
  | some error => exact Or.inr ⟨fun h => (by cases h), error, rfl⟩

theorem addHeaders_eq (answer : NativeAnswer Options) (headers : List Field)
    (native : NativeRequest) :
    ((∀ h ∈ headers, answer (.header (headerLine h)) = none) ∧
        addHeaders answer headers native =
          .ok { native with lines := native.lines ++ headers.map headerLine }) ∨
      (¬ (∀ h ∈ headers, answer (.header (headerLine h)) = none) ∧
        ∃ error, addHeaders answer headers native = .error error) := by
  induction headers generalizing native with
  | nil =>
    left
    refine ⟨List.forall_mem_nil _, ?_⟩
    simp [addHeaders]
  | cons header headers ih =>
    unfold addHeaders
    obtain ⟨hanswer, hask⟩ | ⟨hanswer, error, hask⟩ := ask_eq answer (.header (headerLine header))
    · rw [hask]
      obtain ⟨hall, hadd⟩ | ⟨hall, error, hadd⟩ :=
        ih { native with lines := native.lines ++ [headerLine header] }
      · left
        refine ⟨List.forall_mem_cons.mpr ⟨hanswer, hall⟩, hadd.trans ?_⟩
        simp
      · right
        exact ⟨fun h => hall (List.forall_mem_cons.mp h).2, error, hadd⟩
    · right
      rw [hask]
      exact ⟨fun h => hanswer (List.forall_mem_cons.mp h).1, error, rfl⟩

theorem startNative_eq (answer : NativeAnswer Options) (s : ClientState Options) :
    (Accepted answer s ∧ ∃ native, startNative answer s = .ok native) ∨
      (¬ Accepted answer s ∧ ∃ error, startNative answer s = .error error) := by
  unfold startNative
  obtain ⟨hnew, hask⟩ | ⟨hnew, error, hask⟩ := ask_eq answer (.new s.address s.options)
  case inr =>
    right
    rw [hask]
    exact ⟨fun h => hnew h.new, error, rfl⟩
  obtain ⟨hheaders, hadd⟩ | ⟨hheaders, error, hadd⟩ :=
    addHeaders_eq answer s.headers { url := s.address }
  case inr =>
    right
    rw [hask, hadd]
    exact ⟨fun h => hheaders h.headers, error, rfl⟩
  obtain ⟨hstart, hlast⟩ | ⟨hstart, error, hlast⟩ :=
    ask_eq answer (.start s.method s.body s.bodyPresent s.options)
  case inr =>
    right
    rw [hask, hadd, hlast]
    exact ⟨fun h => hstart h.start, error, rfl⟩
  left
  rw [hask, hadd, hlast]
  exact ⟨⟨hnew, hheaders, hstart⟩, _, rfl⟩

/-! ## Ending a request -/

/-- The request takes the chunk. -/
def ClientState.Takes (s : ClientState Options) (value : Bytes) : Prop :=
  s.ended = false ∧ s.destroyed = false ∧ s.body.length + value.length ≤ maxMessageBytes

def ClientState.wrote (s : ClientState Options) (value : Bytes) : ClientState Options :=
  { s with bodyPresent := true, body := s.body ++ value }

theorem clientWriteBuffer_spec (s : ClientState Options) (value : Bytes) :
    wp (clientWriteBuffer value) (fun _ t => s.Takes value ∧ t = s.wrote value)
      (fun _ t => ¬ s.Takes value ∧ t = s) s := by
  unfold clientWriteBuffer requireOpen ClientState.Takes
  simp only [wp_bind, wp_get, wp_ite, wp_throw, wp_pure, wp_modify]
  cases hended : s.ended with
  | true => exact ⟨fun h => (by cases h.1), trivial⟩
  | false =>
    cases hdestroyed : s.destroyed with
    | true => exact ⟨fun h => (by cases h.2.1), trivial⟩
    | false =>
      rw [if_neg (by decide)]
      split
      case isTrue hlong =>
        refine ⟨fun h => ?_, trivial⟩
        omega
      case isFalse hlong =>
        refine ⟨⟨rfl, rfl, by omega⟩, ?_⟩
        unfold ClientState.wrote
        rw [hended, hdestroyed]

/-- `end` with a chunk raises before the chunk is taken, or behind it. -/
theorem clientEndBuffer_spec (answer : NativeAnswer Options) (s : ClientState Options)
    (value : Bytes) :
    wp (clientEndBuffer answer value) (fun _ _ => s.Takes value ∧ Accepted answer (s.wrote value))
      (fun _ t => (¬ s.Takes value ∧ t = s) ∨
        ((s.Takes value ∧ ¬ Accepted answer (s.wrote value)) ∧ t = s.wrote value)) s := by
  unfold clientEndBuffer
  simp only [wp_bind]
  refine wp_mono (clientWriteBuffer_spec s value) ?_ fun _ t ht => Or.inl ht
  rintro _ t ⟨htakes, rfl⟩
  unfold clientEnd
  simp only [wp_bind, wp_get, wp_ite, wp_throw, wp_pure]
  rw [if_neg (by show ¬ s.destroyed = true; rw [htakes.2.1]; exact Bool.false_ne_true),
    if_neg (by show ¬ s.ended = true; rw [htakes.1]; exact Bool.false_ne_true)]
  obtain ⟨hstart, native, hnative⟩ | ⟨hstart, error, hnative⟩ :=
    startNative_eq answer (s.wrote value)
  · rw [hnative]
    simp only [wp_modify]
    exact ⟨htakes, hstart⟩
  · rw [hnative]
    simp only [wp_throw]
    exact Or.inr ⟨⟨htakes, hstart⟩, trivial⟩

/-- `end` is atomic on failure: a raise leaves the request as it was. -/
def ClientEndAtomic (answer : NativeAnswer Options) (s : ClientState Options) (value : Bytes) :
    Prop :=
  ∀ error t, clientEndBuffer answer value s = .error error t → t = s

theorem clientEndAtomic_iff (answer : NativeAnswer Options) (s : ClientState Options)
    (value : Bytes) :
    ClientEndAtomic answer s value ↔
      (value = [] ∧ s.bodyPresent = true) ∨ ¬ s.Takes value ∨ Accepted answer (s.wrote value) := by
  have hspec := clientEndBuffer_spec answer s value
  constructor
  · intro hatomic
    by_contra hcontra
    obtain ⟨hvalue, hrest⟩ := not_or.mp hcontra
    obtain ⟨htakes, haccepted⟩ := not_or.mp hrest
    cases hm : clientEndBuffer answer value s with
    | ok a t => exact haccepted (wp_ok hspec hm).2
    | error error t =>
      obtain ⟨h, _⟩ | ⟨_, ht⟩ := wp_error hspec hm
      · exact htakes h
      · have hback : s.wrote value = s := ht.symm.trans (hatomic error t hm)
        have hbody : s.body ++ value = s.body := congrArg ClientState.body hback
        have hpresent : true = s.bodyPresent := congrArg ClientState.bodyPresent hback
        exact hvalue ⟨List.append_right_eq_self.mp hbody, hpresent.symm⟩
  · intro hcond error t hm
    obtain ⟨_, ht⟩ | ⟨⟨htakes, haccepted⟩, ht⟩ := wp_error hspec hm
    · exact ht
    · obtain ⟨rfl, hpresent⟩ | h | h := hcond
      · rw [ht, ClientState.wrote, List.append_nil, ← hpresent]
      · exact absurd htakes h
      · exact absurd h haccepted

/-- `end(chunk)` of a response and of a request leave no trace of a raise exactly if the chunk is
not taken, if it brings nothing new, or if nothing is there to raise behind it. -/
theorem end_atomic (casing : Casing) (s : ResponseState) (value : Bytes)
    (answer : NativeAnswer Options) (r : ClientState Options) (chunk : Bytes) :
    (EndAtomic casing s value ↔
        value = [] ∨ ¬ s.Takes value ∨ Sendable casing (s.appended value)) ∧
      (ClientEndAtomic answer r chunk ↔
        (chunk = [] ∧ r.bodyPresent = true) ∨ ¬ r.Takes chunk ∨
          Accepted answer (r.wrote chunk)) :=
  ⟨endAtomic_iff casing s value, clientEndAtomic_iff answer r chunk⟩

/-- A status that is refused and then corrected: the chunk is sent twice. -/
theorem chunk_sent_twice :
    ∃ s, s = afterCalls asciiCasing (newResponse {} false) [.setStatusCode 1000] ∧
      ∃ error t, endBuffer asciiCasing (ascii "x") s = .error error t ∧
        t.transport = s.transport ∧
        ∃ u, endBuffer asciiCasing (ascii "x") (finalState (setStatusCode 200 t)) = .ok () u ∧
          (readResponse false u.message).map Response.body = some (ascii "xx") :=
  ⟨_, rfl, _, _, rfl, rfl, _, rfl, by decide⟩

end TsonicNode.Http
