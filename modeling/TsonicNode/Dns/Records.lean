import TsonicNode.Lib.Chase

/-!
# Answers of name servers

`tsonic_dns_collect_records` reads the answer section for the addresses of a name,
and follows the alias of a name that has none. What the C library gives of a
record is data here; memory that is not there is the parameter `Memory`.
-/

namespace TsonicNode.Dns

abbrev Bytes := List UInt8

def resultLimit : Nat := 4096
def byteLimit : Nat := 1024 * 1024

inductive AresStatus where
  | enodata | eformerr | eservfail | enotfound | enotimp | erefused | ebadquery | ebadname | ebadfamily | ebadresp
  | econnrefused | etimeout | eof | efile | enomem | edestruction | ebadstr | ebadflags | enoname | ebadhints
  | enotinitialized | ecancelled | eservice | enoserver
  | other (status : Int)
  deriving DecidableEq

/-- The names that `tsonic_dns_dns_failure` gives. -/
def AresStatus.code : AresStatus → String
  | .enodata => "ENODATA"
  | .eformerr => "EFORMERR"
  | .eservfail => "ESERVFAIL"
  | .enotfound => "ENOTFOUND"
  | .enotimp => "ENOTIMP"
  | .erefused => "EREFUSED"
  | .ebadquery => "EBADQUERY"
  | .ebadname => "EBADNAME"
  | .ebadfamily => "EBADFAMILY"
  | .ebadresp => "EBADRESP"
  | .econnrefused => "ECONNREFUSED"
  | .etimeout => "ETIMEOUT"
  | .eof => "EOF"
  | .efile => "EFILE"
  | .enomem => "ENOMEM"
  | .edestruction => "EDESTRUCTION"
  | .ebadstr => "EBADSTR"
  | .ebadflags => "EBADFLAGS"
  | .enoname => "ENONAME"
  | .ebadhints => "EBADHINTS"
  | .enotinitialized => "ENOTINITIALIZED"
  | .ecancelled => "ECANCELLED"
  | .eservice => "ESERVICE"
  | .enoserver => "ENOSERVER"
  | .other status => "EARES" ++ toString status

structure Failure where
  code : String
  message : String
  deriving DecidableEq

structure Result where
  value : Bytes
  family : Nat
  deriving DecidableEq

/-- `TsonicDnsRequest`, of what is written before it is ready. -/
structure Request where
  kind : Int
  lookupAll : Bool := false
  lookupOrder : Nat := 0
  failure : Option Failure := none
  capacity : Nat := 0
  values : List Result := []
  bytes : Nat := 0

/-- Whether memory is there: for more places than the capacity, for the next value, for the names visited. -/
structure Memory where
  grows : Nat → Bool
  copies : Nat → Bool
  visits : Bool

namespace Request

def failed (request : Request) : Bool := request.failure.isSome

theorem failed_of_none {request : Request} (h : request.failure = none) : request.failed = false := by
  unfold failed
  rw [h]
  rfl

theorem failed_of_some {request : Request} {failure : Failure} (h : request.failure = some failure) :
    request.failed = true := by
  unfold failed
  rw [h]
  rfl

/-- `tsonic_dns_request_fail`. -/
def fail (code message : String) (request : Request) : Request := { request with failure := some ⟨code, message⟩ }

/-- `tsonic_dns_dns_failure`; the texts of `ares_strerror` are a parameter. -/
def dnsFailure (strerror : AresStatus → String) (status : AresStatus) (request : Request) : Request :=
  request.fail status.code (strerror status)

/-- The array of the values has twice the places if it is full. -/
def enlarged (request : Request) : Request :=
  if request.values.length = request.capacity then
    { request with capacity := if request.capacity = 0 then 8 else request.capacity * 2 }
  else request

/-- `tsonic_dns_result_append`. -/
def append (memory : Memory) (value : Bytes) (request : Request) : Request × Bool :=
  if request.failed then (request, false)
  else
    let size := value.length + 1
    if resultLimit ≤ request.values.length ∨ byteLimit - request.bytes < size then
      (request.fail "ENOMEM" "DNS response exceeds the closed result limit", false)
    else
      if request.values.length = request.capacity ∧ !memory.grows request.capacity then
        (request.fail "ENOMEM" "Unable to allocate DNS results", false)
      else if !memory.copies request.values.length then
        (request.enlarged.fail "ENOMEM" "Unable to allocate DNS result text", false)
      else
        ({ request.enlarged with values := request.values ++ [⟨value, 0⟩], bytes := request.bytes + size }, true)

end Request

/-! ## Names -/

def stripDot (name : Bytes) : Bytes := if name.getLast? = some 46 then name.dropLast else name

def lower (byte : UInt8) : UInt8 := if 65 ≤ byte ∧ byte ≤ 90 then byte + 32 else byte

/-- `same_dns_name`. -/
def sameDnsName : Option Bytes → Option Bytes → Bool
  | some left, some right =>
    (stripDot left).length == (stripDot right).length &&
      ((stripDot left).zip (stripDot right)).all fun pair => lower pair.1 == lower pair.2
  | _, _ => false

/-! ## Records -/

inductive RecordType where
  | cname | a | aaaa | ptr | other
  deriving DecidableEq

/-- A record of the answer section, with the string or the address in print that its type has. -/
structure Record where
  internet : Bool
  name : Option Bytes
  type : RecordType
  text : Option Bytes

/-- The type of record that a query of the kind asks for. -/
def wants (kind : Int) (type : RecordType) : Bool :=
  (kind == 4 && type == .a) || (kind == 6 && type == .aaaa) || (kind == -1 && type == .ptr)

structure Message where
  queries : Nat
  /-- The name of the first query. -/
  question : Option Bytes
  answers : List Record

section
variable (strerror : AresStatus → String) (memory : Memory)

/-- The body of the inner loop; it sets the alias as it goes. -/
def visit (name : Bytes) (state : Request × Option Bytes) (record : Record) : Request × Option Bytes :=
  if state.1.failed then state
  else if !record.internet || !sameDnsName (some name) record.name then state
  else if record.type = .cname then
    match record.text with
    | none => (state.1.dnsFailure strerror .ebadresp, state.2)
    | some next =>
      if state.2.isSome && !sameDnsName state.2 (some next) then (state.1.dnsFailure strerror .ebadresp, state.2)
      else (state.1, some next)
  else if wants state.1.kind record.type then
    match record.text with
    | none => (state.1.dnsFailure strerror .ebadresp, state.2)
    | some text => ((state.1.append memory text).1, state.2)
  else state

/-- The outer loop, for as many steps as are left. -/
def collectSteps (answers : List Record) : Nat → List Bytes → Bytes → Request → Request
  | 0, _, _, request => request
  | steps + 1, visited, name, request =>
    if request.failed then request
    else if visited.any fun earlier => sameDnsName (some name) (some earlier) then request.dnsFailure strerror .ebadresp
    else
      let state := answers.foldl (visit strerror memory name) (request, none)
      if state.1.values.length ≠ 0 ∨ state.1.failed then state.1
      else
        match state.2 with
        | none => state.1.dnsFailure strerror .enodata
        | some next => collectSteps answers steps (visited ++ [name]) next state.1

/-- `tsonic_dns_collect_records`. -/
def collectRecords (records : Option Message) (request : Request) : Request :=
  match records with
  | none => request.dnsFailure strerror .ebadresp
  | some message =>
    if message.queries ≠ 1 then request.dnsFailure strerror .ebadresp
    else
      match message.question with
      | none => request.dnsFailure strerror .ebadresp
      | some name =>
        if message.answers.length > resultLimit then
          request.fail "ENOMEM" "DNS response exceeds the closed record limit"
        else if !memory.visits then request.dnsFailure strerror .enomem
        else
          let request := collectSteps strerror memory message.answers (message.answers.length + 1) [] name request
          if request.values.length = 0 ∧ !request.failed then request.dnsFailure strerror .ebadresp else request

end

end TsonicNode.Dns
