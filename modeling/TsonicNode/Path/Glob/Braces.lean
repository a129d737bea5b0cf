import TsonicNode.Runtime
import TsonicNode.Path.Components

/-!
# Expanding the braces of a pattern

`expand_braces` keeps a stack of texts, each with the place up to which it has
been scanned. `step` takes the last text: the first brace group behind that
place is replaced by each of its alternatives, and a text without one is a
result. `choices` reads the alternatives of a group, at its commas or as a
range.
-/

namespace TsonicNode.Path.Glob

open TsonicNode.Lib

/-! ## Limits -/

def expansionLimit : Int := 65536

def sourceLimit : Int := 16777216

def depthLimit : Int := 128

def requireSourceSize (size : Int) : Except Error Unit :=
  if size > sourceLimit then .error ⟨"Path glob generated-source budget exceeded"⟩ else .ok ()

def requireExpansionSize (count : Int) : Except Error Unit :=
  if count > expansionLimit then .error ⟨"Path glob expansion budget exceeded"⟩ else .ok ()

def requireDepth (depth : Int) : Except Error Unit :=
  if depth > depthLimit then .error ⟨"Path glob nesting budget exceeded"⟩ else .ok ()

/-! ## Ranges -/

def isDigit (byte : UInt8) : Bool := 48 ≤ byte && byte ≤ 57

/-- `startswith("-")`. -/
def isSigned (text : Bytes) : Bool := text.head? == some 45

/-- The bytes behind a sign. -/
def digits (text : Bytes) : Bytes := if isSigned text then text.drop 1 else text

/-- `_is_integer`. -/
def isInteger (text : Bytes) : Bool := digits text != [] && (digits text).all isDigit

/-- One more digit of an integer. -/
def addDigit (value : Nat) (byte : UInt8) : Except Error Nat :=
  let digit := byte.toNat - 48
  if value > (9007199254740991 - digit) / 10 then
    .error ⟨"Path glob range exceeds exact integer bounds"⟩
  else .ok (value * 10 + digit)

/-- `_integer`. -/
def integer (text : Bytes) : Except Error Int := do
  let value ← (digits text).foldlM addDigit 0
  return if isSigned text then -(value : Int) else value

/-- The digits of a number. -/
def decimal (number : Nat) : Bytes := (Nat.toDigits 10 number).map fun digit => digit.toNat.toUInt8

/-- `_padded`. -/
def padded (number : Int) (width : Nat) : Bytes :=
  let digits := decimal number.natAbs
  let zeros := width - digits.length - (if number < 0 then 1 else 0)
  (if number < 0 then [45] else []) ++ List.replicate zeros 48 ++ digits

/-- `split("..")`. -/
def splitDots : Bytes → List Bytes
  | [] => [[]]
  | [byte] => [[byte]]
  | first :: second :: rest =>
    if first = 46 ∧ second = 46 then [] :: splitDots rest
    else
      match splitDots (second :: rest) with
      | [] => [[first]]
      | part :: parts => (first :: part) :: parts

/-- One letter. -/
def isLetter (text : Bytes) : Bool :=
  match text with
  | [byte] => (65 ≤ byte && byte ≤ 90) || (97 ≤ byte && byte ≤ 122)
  | _ => false

/-- What a range is written with. -/
structure RangeBody where
  numeric : Bool
  first : Bytes
  last : Bytes
  /-- No or one integer. -/
  steps : List Bytes

/-- The checks of `_range`. -/
def rangeBody (body : Bytes) : Option RangeBody :=
  match splitDots body with
  | first :: last :: steps =>
    if 1 < steps.length ∨ ¬ steps.all isInteger then none
    else if isInteger first && isInteger last then some ⟨true, first, last, steps⟩
    else if isLetter first && isLetter last then some ⟨false, first, last, steps⟩
    else none
  | _ => none

namespace RangeBody

/-- Where a range starts or stops. -/
def bound (range : RangeBody) (text : Bytes) : Except Error Int :=
  if range.numeric then integer text else .ok ((text.headD 0).toNat : Int)

def stride (range : RangeBody) : Except Error Nat :=
  match range.steps with
  | [] => .ok 1
  | step :: _ => do
    let value ← integer step
    return max 1 value.natAbs

/-- A number with a leading zero. -/
def isPadded (text : Bytes) : Bool := 1 < (digits text).length && (digits text).head? == some 48

def width (range : RangeBody) : Nat :=
  if range.numeric && (isPadded range.first || isPadded range.last) then
    max range.first.length range.last.length
  else 0

/-- How many values there are. -/
def count (start stop : Int) (stride : Nat) : Nat := (stop - start).natAbs / stride + 1

/-- A value as it is written; a backslash is not. -/
def written (range : RangeBody) (value : Int) : Bytes :=
  if range.numeric then padded value range.width
  else if value = 92 then []
  else [value.toNat.toUInt8]

/-- The values from `start` to `stop`. -/
def values (range : RangeBody) (start stop : Int) (stride : Nat) : List Bytes :=
  (List.range (count start stop stride)).map fun index : Nat =>
    range.written (start + if stop ≥ start then ((index * stride : Nat) : Int)
      else -((index * stride : Nat) : Int))

end RangeBody

/-- `_range`. -/
def range (body : Bytes) : Except Error (Option (List Bytes)) :=
  match rangeBody body with
  | none => .ok none
  | some range => do
    let start ← range.bound range.first
    let stop ← range.bound range.last
    let stride ← range.stride
    requireExpansionSize (RangeBody.count start stop stride)
    return some (range.values start stop stride)

/-! ## Groups -/

/-- The loop of `_choices`: the texts between the commas at depth 0, of which `current` is what has
been read of the first. -/
def choicesFrom : Int → Bytes → Bytes → Except Error (List Bytes)
  | _, current, [] => .ok [current]
  | depth, current, byte :: rest =>
    if byte = 123 then do
      requireDepth (depth + 1)
      choicesFrom (depth + 1) (current ++ [byte]) rest
    else if byte = 125 then choicesFrom (depth - 1) (current ++ [byte]) rest
    else if byte = 44 ∧ depth = 0 then do
      let choices ← choicesFrom depth [] rest
      return current :: choices
    else choicesFrom depth (current ++ [byte]) rest

/-- `_choices`. -/
def choices (body : Bytes) : Except Error (Option (List Bytes)) := do
  let choices ← choicesFrom 0 [] body
  if 1 < choices.length then
    requireExpansionSize choices.length
    return some choices
  else range body

/-- The loop for the closing brace: what stands in front of it, and behind it. -/
def closing : Nat → Bytes → Except Error (Option (Bytes × Bytes))
  | _, [] => .ok none
  | depth, byte :: rest => do
    if byte = 123 then
      requireDepth (depth + 1)
      return (← closing (depth + 1) rest).map fun (body, suffix) => (byte :: body, suffix)
    else if byte = 125 then
      if depth = 1 then return some ([], rest)
      else return (← closing (depth - 1) rest).map fun (body, suffix) => (byte :: body, suffix)
    else return (← closing depth rest).map fun (body, suffix) => (byte :: body, suffix)

/-- A group that is replaced. -/
structure Group where
  before : Bytes
  alternatives : List Bytes
  suffix : Bytes

/-- The group that opens behind `before`, where `rest` follows the brace. -/
def groupAt (before rest : Bytes) : Except Error (Option Group) := do
  match ← closing 1 rest with
  | none => return none
  | some (body, suffix) =>
    match ← choices body with
    | none => return none
    | some alternatives => return some ⟨before, alternatives, suffix⟩

/-- The loop for the first group; a brace behind a `$` opens none. -/
def findGroup : Bytes → Bytes → Except Error (Option Group)
  | _, [] => .ok none
  | before, byte :: rest =>
    if byte ≠ 123 ∨ before.getLast? = some 36 then findGroup (before ++ [byte]) rest
    else do
      match ← groupAt before rest with
      | some group => return some group
      | none => findGroup (before ++ [byte]) rest

/-! ## The loop -/

/-- `_Expansion`. -/
structure Expansion where
  text : Bytes
  scan : Nat

structure Loop where
  /-- The last one first. -/
  pending : List Expansion
  result : List Bytes
  retainedBytes : Int

/-- One alternative is pushed. -/
def push (group : Group) (loop : Loop) (alternative : Bytes) : Except Error Loop := do
  let next := group.before ++ alternative ++ group.suffix
  let retainedBytes := loop.retainedBytes + next.length
  requireSourceSize retainedBytes
  requireExpansionSize (loop.result.length + loop.pending.length + 1)
  return { loop with pending := ⟨next, group.before.length⟩ :: loop.pending, retainedBytes }

/-- A turn of the loop with `work`. -/
def step (work : Expansion) (loop : Loop) : Except Error Loop := do
  let loop := { loop with retainedBytes := loop.retainedBytes - work.text.length }
  match ← findGroup (work.text.take work.scan) (work.text.drop work.scan) with
  | some group => group.alternatives.foldlM (push group) loop
  | none =>
    if work.text = [] then return loop
    else
      let retainedBytes := loop.retainedBytes + work.text.length
      requireSourceSize retainedBytes
      requireExpansionSize (loop.result.length + 1)
      return { loop with result := loop.result ++ [work.text], retainedBytes }

/-- The loop, for at most so many turns. -/
def expandLoop : Nat → Loop → Option (Except Error (List Bytes))
  | _, ⟨[], result, _⟩ => some (.ok result)
  | 0, _ => none
  | turns + 1, ⟨work :: pending, result, retainedBytes⟩ =>
    match step work ⟨pending, result, retainedBytes⟩ with
    | .error error => some (.error error)
    | .ok loop => expandLoop turns loop

/-- `expand_braces` ends with this outcome. -/
def Expands (pattern : Bytes) (outcome : Except Error (List Bytes)) : Prop :=
  ∃ turns, expandLoop turns ⟨[⟨pattern, 0⟩], [], pattern.length⟩ = some outcome

end TsonicNode.Path.Glob
