import TsonicNode.Lib.Effect
import TsonicNode.Lib.Http
import TsonicNode.Runtime

/-!
# HTTP responses

`ServerResponse` buffers its headers and its body; `end` checks and frames them
into one output, which `poll` hands to the transport. Strings are their bytes.
The system answers by data: each write and the end of the transport takes the
next of `answers`, and past the last one the transport would block.

`headResult` is the output up to the body and `frameBody` the body; both read
the response only.
-/

namespace TsonicNode.Http

open TsonicNode.Lib TsonicNode.Lib.Http

/-! ## Strings of the runtime -/

/-- `String.lower`, which knows the letters of every script. ASCII text keeps to ASCII. -/
structure Casing where
  lower : Bytes → Bytes
  lower_ascii : ∀ s : Bytes, (∀ b ∈ s, b < 128) → lower s = Lib.Http.lower s

def isSpace (b : UInt8) : Bool := b == 32 || (9 ≤ b && b ≤ 13) || (28 ≤ b && b ≤ 30)

/-- `String.strip`. -/
def strip (s : Bytes) : Bytes := ((s.dropWhile isSpace).reverse.dropWhile isSpace).reverse

/-- The digits of a number; an underscore stands between two of them only. -/
def atolDigits : Bool → Nat → Bytes → Option Nat
  | underscore, n, [] => if underscore then none else some n
  | underscore, n, b :: s =>
    if b = 95 then if underscore then none else atolDigits true n s
    else if 48 ≤ b ∧ b ≤ 57 then atolDigits false (n * 10 + (b.toNat - 48)) s
    else none

def atolUnsigned (s : Bytes) : Option Nat :=
  (atolDigits true 0 s).filter (· < 9223372036854775808)

/-- `Int` of a string. -/
def atol (value : Bytes) : Option Int :=
  match strip value with
  | [] => none
  | b :: s =>
    if b = 43 then (atolUnsigned s).map Int.ofNat
    else if b = 45 then (atolUnsigned s).map fun n => -Int.ofNat n
    else (atolUnsigned (b :: s)).map Int.ofNat

/-! ## The transport -/

inductive TransportAnswer where
  | blocked
  | failed (error : String)
  | accepted (count : Nat)
  deriving DecidableEq, Repr

/-- A transport as its peer sees it, and the answers to come. -/
structure HttpTransport where
  isOpen : Bool := true
  sent : Bytes := []
  answers : List TransportAnswer := []
  deriving DecidableEq, Repr

def HttpTransport.closed (t : HttpTransport) : Bool := !t.isOpen

def HttpTransport.close (t : HttpTransport) : HttpTransport := { t with isOpen := false }

/-- At most 65536 bytes are offered in one write. -/
def writeSome (bytes : Bytes) (offset : Nat) : EStateM Error HttpTransport Nat := fun t =>
  let count := min (bytes.length - offset) 65536
  if count = 0 then .ok 0 t
  else
    match t.answers with
    | [] => .ok 0 t
    | .blocked :: answers => .ok 0 { t with answers := answers }
    | .failed error :: answers => .error ⟨error⟩ { t with answers := answers }
    | .accepted written :: answers =>
      if min written count = 0 then
        .error ⟨"Unable to write HTTP response"⟩ { t with answers := answers }
      else
        .ok (min written count)
          { t with
            sent := t.sent ++ (bytes.drop offset).take (min written count)
            answers := answers }

/-- A TLS socket may raise, or stay open until its peer has seen the end. -/
def transportEnd : EStateM Error HttpTransport Unit := fun t =>
  match t.answers with
  | .failed error :: answers => .error ⟨error⟩ { t with answers := answers }
  | .blocked :: answers => .ok () { t with answers := answers }
  | _ => .ok () t.close

/-! ## The response -/

structure ResponseState where
  transport : HttpTransport
  statusCode : Int := 200
  headers : List Field := []
  body : Bytes := []
  finished : Bool := false
  output : Bytes := []
  offset : Nat := 0
  endSent : Bool := false
  headRequest : Bool := false
  statusMessage : Option Bytes := none
  deriving DecidableEq, Repr

abbrev Method := EStateM Error ResponseState

def checkToken {σ : Type} (value : Bytes) (role : String) : EStateM Error σ Unit := do
  if value = [] then throw ⟨"HTTP " ++ role ++ " cannot be empty"⟩
  else if value.all isTchar then pure ()
  else throw ⟨"HTTP " ++ role ++ " contains an invalid token character"⟩

def prohibited (b : UInt8) : Bool := (b < 32 && b != 9) || b == 127

def checkHeaderValue (value : Bytes) : Method Unit := do
  if value.any prohibited then
    throw ⟨"HTTP response value contains a prohibited control character"⟩
  else pure ()

def requireUnsent : Method Unit := do
  if (← get).finished then throw ⟨"Response headers have already been sent"⟩ else pure ()

/-- The first header of the same name is replaced. -/
def replaceHeader (casing : Casing) (header : Field) : List Field → List Field
  | [] => [header]
  | h :: headers =>
    if casing.lower h.name = casing.lower header.name then header :: headers
    else h :: replaceHeader casing header headers

def setHeader (casing : Casing) (name value : Bytes) : Method Unit := do
  requireUnsent
  checkToken name "response header name"
  checkHeaderValue value
  modify fun s => { s with headers := replaceHeader casing ⟨name, value⟩ s.headers }

def setStatusCode (value : Int) : Method Unit := modify fun s => { s with statusCode := value }

def writeHead (statusCode : Int) (statusMessage : Bytes) : Method Unit := do
  requireUnsent
  checkHeaderValue statusMessage
  setStatusCode statusCode
  modify fun s => { s with statusMessage := some statusMessage }

def bodyLimit : Nat := 64 * 1024 * 1024

def append (bytes : Bytes) : Method Unit := do
  let s ← get
  if s.finished then throw ⟨"Response has already ended"⟩
  else if bodyLimit < s.body.length + bytes.length then
    throw ⟨"HTTP response body exceeds the finite runtime limit"⟩
  else modify fun s => { s with body := s.body ++ bytes }

def writeBuffer (value : Bytes) : Method Bool := do
  append value
  return true

def destroy : Method Unit :=
  modify fun s =>
    { s with transport := s.transport.close, body := [], output := [], finished := true }

def onTransport {α : Type} (m : EStateM Error HttpTransport α) : Method α :=
  zoom ResponseState.transport (fun t s => { s with transport := t }) m

def pollWrite : Method Bool := do
  let s ← get
  let written ← onTransport (writeSome s.output s.offset)
  modify fun s => { s with offset := s.offset + written }
  let s ← get
  if s.offset = s.output.length ∧ s.endSent = false then
    onTransport transportEnd
    modify fun s => { s with endSent := true, output := [], offset := 0 }
  return written != 0

def poll : Method Bool := do
  let s ← get
  if !s.finished || s.transport.closed then return false
  else
    tryCatch pollWrite fun error => do
      destroy
      throw error

/-! ## The output -/

def defaultStatusMessage (status : Int) : Bytes :=
  if status = 200 then ascii "OK"
  else if status = 201 then ascii "Created"
  else if status = 204 then ascii "No Content"
  else if status = 301 then ascii "Moved Permanently"
  else if status = 302 then ascii "Found"
  else if status = 304 then ascii "Not Modified"
  else if status = 400 then ascii "Bad Request"
  else if status = 404 then ascii "Not Found"
  else if status = 405 then ascii "Method Not Allowed"
  else if status = 500 then ascii "Internal Server Error"
  else ascii "Status"

def ResponseState.reason (s : ResponseState) : Bytes :=
  s.statusMessage.getD (defaultStatusMessage s.statusCode)

/-- No body is written. -/
def ResponseState.noBody (s : ResponseState) : Bool :=
  s.headRequest || decide (s.statusCode < 200) || decide (s.statusCode = 204) ||
    decide (s.statusCode = 304)

/-- A status that never has a body. -/
def ResponseState.bare (s : ResponseState) : Bool :=
  decide (s.statusCode < 200) || decide (s.statusCode = 204) || decide (s.statusCode = 304)

/-- What the header loop of `_finish` has written and seen. -/
structure HeaderLoop where
  head : Bytes
  hasLength : Bool := false
  chunked : Bool := false
  deriving DecidableEq, Repr

def HeaderLoop.put (l : HeaderLoop) (header : Field) : HeaderLoop :=
  { l with head := l.head ++ (header.name ++ ascii ": " ++ header.value ++ crlf) }

/-- One header of the loop. -/
def putHeader (casing : Casing) (s : ResponseState) (l : HeaderLoop) (header : Field) :
    Except Error HeaderLoop :=
  let name := casing.lower header.name
  if name = ascii "connection" then .ok l
  else if name = ascii "transfer-encoding" then
    if casing.lower (strip header.value) ≠ ascii "chunked" then
      .error ⟨"HTTP response transfer coding must be chunked"⟩
    else if s.bare then .ok { l with chunked := true }
    else .ok ({ l with chunked := true }.put header)
  else if name = ascii "content-length" then
    if s.statusCode < 200 ∨ s.statusCode = 204 then .ok l
    else if s.noBody then .ok ({ l with hasLength := true }.put header)
    else
      match atol header.value with
      | none => .error ⟨"String is not convertible to integer with base 10"⟩
      | some length =>
        if length ≠ s.body.length then .error ⟨"Response Content-Length does not match its body"⟩
        else .ok ({ l with hasLength := true }.put header)
  else .ok (l.put header)

def firstLine (s : ResponseState) : Bytes :=
  ascii "HTTP/1.1 " ++ numeral 10 s.statusCode.toNat ++ ascii " " ++ s.reason ++ crlf

/-- The header loop behind the first line, or why it raises. -/
def headResult (casing : Casing) (s : ResponseState) : Except Error HeaderLoop :=
  if s.statusCode < 100 ∨ 999 < s.statusCode then
    .error ⟨"HTTP status code must be between 100 and 999"⟩
  else
    match s.headers.foldlM (putHeader casing s) { head := firstLine s } with
    | .error error => .error error
    | .ok l =>
      if l.hasLength ∧ l.chunked then
        .error ⟨"Response cannot combine Content-Length and Transfer-Encoding"⟩
      else .ok l

def chunkSizeLoop : Nat → Nat → Bytes → Bytes
  | 0, _, text => text
  | fuel + 1, value, text =>
    if value = 0 then text
    else chunkSizeLoop fuel (value >>> 4) ((ascii "0123456789abcdef").getD (value &&& 15) 0 :: text)

def chunkSize (value : Nat) : Bytes :=
  let text := chunkSizeLoop value value []
  if text = [] then ascii "0" else text

def frameBody (s : ResponseState) (chunked : Bool) : Bytes :=
  if s.noBody then []
  else if chunked then
    if s.body = [] then ascii "0" ++ crlf ++ crlf
    else chunkSize s.body.length ++ crlf ++ s.body ++ crlf ++ ascii "0" ++ crlf ++ crlf
  else s.body

def outputOf (s : ResponseState) (l : HeaderLoop) : Bytes :=
  let length :=
    if !l.hasLength && !l.chunked && !s.bare then
      ascii "Content-Length: " ++ numeral 10 s.body.length ++ crlf
    else []
  l.head ++ length ++ ascii "Connection: close" ++ crlf ++ crlf ++ frameBody s l.chunked

/-- `_finish`, which every form of `end` calls. -/
def finish (casing : Casing) (value : Bytes) : Method Unit := do
  append value
  let s ← get
  match headResult casing s with
  | .error error => throw error
  | .ok l =>
    modify fun s => { s with output := outputOf s l, body := [], finished := true }
    let _ ← poll

def endBuffer (casing : Casing) (value : Bytes) : Method Unit := finish casing value

end TsonicNode.Http
