import TsonicNode.Path.Components

/-!
# Windows paths

The root of a Windows path and its lexical normalization. The capitals
`reserved_device` compares are those of ASCII, since no letter outside ASCII has
a letter of a reserved name as its capital.
-/

namespace TsonicNode.Path.Win32

open TsonicNode.Lib

/-! ## Roots -/

structure WindowsRoot where
  device : Bytes := []
  tailStart : Nat := 0
  displayEnd : Nat := 0
  absolute : Bool := false
  reserved : Bool := false
  deriving DecidableEq, Repr

def isSeparator (byte : UInt8) : Bool := byte == 47 || byte == 92

def isDrive (byte : UInt8) : Bool := (65 ≤ byte && byte ≤ 90) || (97 ≤ byte && byte ≤ 122)

def upper (byte : UInt8) : UInt8 := if 97 ≤ byte ∧ byte ≤ 122 then byte - 32 else byte

/-- `CON`, `PRN`, `AUX` and `NUL`. -/
def devices : List Bytes := [[67, 79, 78], [80, 82, 78], [65, 85, 88], [78, 85, 76]]

/-- `COM` and `LPT`, which a digit follows. -/
def ports : List Bytes := [[67, 79, 77], [76, 80, 84]]

/-- The digits one to three as superscripts. -/
def superscripts : List Bytes := [[0xC2, 0xB9], [0xC2, 0xB2], [0xC2, 0xB3]]

def reservedDevice (name : Bytes) : Bool :=
  let value := name.map upper
  if value ∈ devices then true
  else if value.take 3 ∈ ports then
    let suffix := value.drop 3
    if suffix ∈ superscripts then true
    else suffix.length == 1 && suffix.all fun digit => 49 ≤ digit && digit ≤ 57
  else false

/-- `find(":")`. -/
def colon (path : Bytes) : Option Nat := path.findIdx? (· == 58)

/-- Where a loop from `start` over the bytes with `p` stops. -/
def scan (p : UInt8 → Bool) (bytes : Bytes) (start : Nat) : Nat :=
  start + ((bytes.drop start).takeWhile p).length

def slice (bytes : Bytes) (start stop : Nat) : Bytes := (bytes.drop start).take (stop - start)

/-- The name in front of the colon, if it is a reserved device. -/
def reservedColon (text : Bytes) : Option Nat :=
  match colon text with
  | some colon => if 0 < colon ∧ reservedDevice (text.take colon) then some colon else none
  | none => none

/-- The root of a host and a share. -/
def namedRoot (host share : Bytes) (shareStart shareEnd displayEnd : Nat) (normalization : Bool) :
    WindowsRoot :=
  if normalization ∧ (host = [63] ∨ host = [46]) then
    match reservedColon share with
    | some colon =>
      { device := [92, 92, 63, 92] ++ share.take (colon + 1)
        tailStart := shareStart + colon + 1, displayEnd, absolute := true }
    | none => { device := [92, 92] ++ host, tailStart := 4, displayEnd, absolute := true }
  else { device := [92, 92] ++ host ++ [92] ++ share, tailStart := shareEnd, displayEnd, absolute := true }

/-- The root behind two separators. -/
def sharedRoot (path : Bytes) (normalization : Bool) : WindowsRoot :=
  let result : WindowsRoot := { absolute := true, tailStart := 1, displayEnd := 1 }
  let hostEnd := scan (!isSeparator ·) path 2
  if hostEnd = 2 ∨ hostEnd = path.length then result
  else
    let shareStart := scan isSeparator path hostEnd
    let shareEnd := scan (!isSeparator ·) path shareStart
    if shareEnd = shareStart then result
    else
      namedRoot (slice path 2 hostEnd) (slice path shareStart shareEnd) shareStart shareEnd
        (if shareEnd < path.length then shareEnd + 1 else shareEnd) normalization

/-- A drive letter and a colon. -/
def driveLike : Bytes → Bool
  | letter :: 58 :: _ => isDrive letter
  | _ => false

/-- `windows_root`. -/
def windowsRoot (path : Bytes) (normalization : Bool := false) : WindowsRoot :=
  match path with
  | [] => {}
  | first :: rest =>
    if isSeparator first then
      if rest.head?.any isSeparator then sharedRoot path normalization
      else { absolute := true, tailStart := 1, displayEnd := 1 }
    else if driveLike path then
      if (path.drop 2).head?.any isSeparator then
        { device := path.take 2, absolute := true, tailStart := 3, displayEnd := 3 }
      else { device := path.take 2, tailStart := 2, displayEnd := 2 }
    else if normalization then
      match reservedColon path with
      | some colon => { device := path.take (colon + 1), tailStart := colon + 1, reserved := true }
      | none => {}
    else {}

def isAbsolute (path : Bytes) : Bool := (windowsRoot path).absolute

/-! ## Normalization -/

/-- What stands between the separators. -/
def split (path : Bytes) : List Bytes := path.splitOnP isSeparator

/-- `_parts`. -/
def parts (path : Bytes) (allowParent : Bool) : List Bytes :=
  (split path).foldl
    (fun result value =>
      if isIdle value then result
      else if value = dotDot then
        if result ≠ [] ∧ result.getLast? ≠ some dotDot then result.dropLast
        else if allowParent then result ++ [value]
        else result
      else result ++ [value])
    []

def separator : Bytes := [92]

/-- `_join`. -/
def joinParts (parts : List Bytes) : Bytes :=
  parts.foldl (fun output part => (if output = [] then output else output ++ separator) ++ part) []

/-- A colon is the last byte, or a separator follows it. -/
def colonEnds : Bytes → Bool
  | [] => false
  | byte :: rest => (byte == 58 && rest.head?.all isSeparator) || colonEnds rest

def endsSeparated (path : Bytes) : Bool := path.getLast?.any isSeparator

/-- What follows the root in a normalized path. -/
def normalTail (parts : List Bytes) (absolute separated : Bool) : Bytes :=
  let tail := joinParts parts
  let tail := if tail = [] ∧ !absolute then dot else tail
  if tail ≠ [] ∧ separated then tail ++ separator else tail

def normalize (path : Bytes) : Bytes :=
  if path = [] then dot
  else if path.length = 1 then if path = [47] then separator else path
  else
    let root := windowsRoot path true
    let tail := normalTail (parts (path.drop root.tailStart) (!root.absolute)) root.absolute
      (endsSeparated path)
    let front := root.device ++ if root.absolute then separator else []
    let front := if root.reserved then dot ++ separator ++ front else front
    if !root.absolute ∧ root.device = [] ∧ (colon path).isSome ∧ (driveLike tail || colonEnds path)
    then dot ++ separator ++ tail
    else front ++ tail

end TsonicNode.Path.Win32
