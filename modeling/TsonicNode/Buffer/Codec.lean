import TsonicNode.Lib.Unicode
import TsonicNode.Runtime

/-!
# Byte encodings

`encodingName` reads the name of an encoding, `decodeBytes` turns bytes into
text. Text comes from the runtime's own decoders: the lossy one for UTF-8 and
`to_native_strict` for UTF-16, which raises on an unpaired surrogate; which
error it raises is the parameter `unpaired`.
-/

namespace TsonicNode.Buffer

open TsonicNode.Lib

abbrev Byte := UInt8

inductive Encoding where
  | utf8
  | utf16le
  | latin1
  | ascii
  | hex
  | base64
  | base64url
  deriving DecidableEq, Repr

/-- The name `encoding_name` answers with. -/
def Encoding.name : Encoding → Text
  | .utf8 => "utf8".toList
  | .utf16le => "utf16le".toList
  | .latin1 => "latin1".toList
  | .ascii => "ascii".toList
  | .hex => "hex".toList
  | .base64 => "base64".toList
  | .base64url => "base64url".toList

/-- The lower case of a character of an encoding's name. Outside ASCII only U+0130, with `i` for
its lower case, and the Kelvin sign, with `k`, can come to a letter of one, and no name has a `k`. -/
def lowerChar (c : Char) : Char := if c = Char.ofNat 0x130 then 'i' else c.toLower

def encodingName (value : Text) : Except Error Encoding :=
  let name := value.map lowerChar
  if name = "utf8".toList ∨ name = "utf-8".toList then .ok .utf8
  else if name = "ucs2".toList ∨ name = "ucs-2".toList ∨ name = "utf16le".toList ∨
      name = "utf-16le".toList then .ok .utf16le
  else if name = "binary".toList ∨ name = "latin1".toList then .ok .latin1
  else if name = "ascii".toList then .ok .ascii
  else if name = "hex".toList then .ok .hex
  else if name = "base64".toList then .ok .base64
  else if name = "base64url".toList then .ok .base64url
  else .error ⟨"Unsupported Buffer encoding: " ++ String.ofList value⟩

/-- The canonical names are read as themselves. -/
@[simp] theorem encodingName_name (encoding : Encoding) :
    encodingName encoding.name = .ok encoding := by
  cases encoding <;> rfl

/-! ## Decoding -/

/-- `text.replace(old, new)` for a single character. -/
def replaceChar (old : Char) (new : Text) (text : Text) : Text :=
  text.flatMap fun c => if c = old then new else [c]

def base64Digits : Text := "ABCDEFGHIJKLMNOPQRSTUVWXYZabcdefghijklmnopqrstuvwxyz0123456789+/".toList

def base64Digit (value : UInt8) : Char := base64Digits.getD value.toNat '='

/-- Standard base64, padded. -/
def b64encode : List Byte → Text
  | [] => []
  | [a] => [base64Digit (a >>> 2), base64Digit ((a &&& 3) <<< 4), '=', '=']
  | [a, b] =>
    [base64Digit (a >>> 2), base64Digit ((a &&& 3) <<< 4 ||| b >>> 4),
      base64Digit ((b &&& 15) <<< 2), '=']
  | a :: b :: c :: rest =>
    base64Digit (a >>> 2) :: base64Digit ((a &&& 3) <<< 4 ||| b >>> 4) ::
      base64Digit ((b &&& 15) <<< 2 ||| c >>> 6) :: base64Digit (c &&& 63) :: b64encode rest

def urlSafe (text : Text) : Text :=
  replaceChar '=' [] (replaceChar '/' ['_'] (replaceChar '+' ['-'] text))

def hexDigits : Text := "0123456789abcdef".toList

def decodeHex (bytes : List Byte) : Text :=
  bytes.flatMap fun (byte : Byte) =>
    [hexDigits.getD (byte >>> 4).toNat '0', hexDigits.getD (byte &&& 15).toNat '0']

/-- Little-endian code units; an odd last byte is left out. -/
def codeUnits : List Byte → List UInt16
  | low :: high :: rest => (low.toUInt16 ||| high.toUInt16 <<< 8) :: codeUnits rest
  | _ => []

/-- One character a byte; `ascii` drops the top bit. -/
def decodeScalars (encoding : Encoding) (bytes : List Byte) : Text :=
  bytes.map fun byte =>
    Char.ofNat (if encoding = .ascii then byte.toNat &&& 127 else byte.toNat)

section
variable (unpaired : List UInt16 → Error)

/-- `JsString(code_units).to_native_strict()`. -/
def toNativeStrict (units : List UInt16) : Except Error Text :=
  match strict units with
  | some text => .ok text
  | none => .error (unpaired units)

def decodeBytes (bytes : List Byte) (encoding : Text) : Except Error Text := do
  match ← encodingName encoding with
  | .utf8 => return lossy bytes
  | .base64 => return b64encode bytes
  | .base64url => return urlSafe (b64encode bytes)
  | .hex => return decodeHex bytes
  | .utf16le => toNativeStrict unpaired (codeUnits bytes)
  | name => return decodeScalars name bytes

end

/-- `decodeBytes` with a known encoding, without its error. -/
def decoded : Encoding → List Byte → Option Text
  | .utf8, bytes => some (lossy bytes)
  | .base64, bytes => some (b64encode bytes)
  | .base64url, bytes => some (urlSafe (b64encode bytes))
  | .hex, bytes => some (decodeHex bytes)
  | .utf16le, bytes => strict (codeUnits bytes)
  | .latin1, bytes => some (decodeScalars .latin1 bytes)
  | .ascii, bytes => some (decodeScalars .ascii bytes)

theorem decodeBytes_toOption (unpaired : List UInt16 → Error) {name : Text} {encoding : Encoding}
    (h : encodingName name = .ok encoding) (bytes : List Byte) :
    (decodeBytes unpaired bytes name).toOption = decoded encoding bytes := by
  simp only [decodeBytes, h, bind, Except.bind]
  cases encoding with
  | utf16le =>
    simp only [toNativeStrict, decoded]
    cases strict (codeUnits bytes) <;> rfl
  | utf8 | latin1 | ascii | hex | base64 | base64url => rfl

/-! ## Where an encoding may be cut -/

theorem replaceChar_append (old : Char) (new xs ys : Text) :
    replaceChar old new (xs ++ ys) = replaceChar old new xs ++ replaceChar old new ys :=
  List.flatMap_append

theorem urlSafe_append (xs ys : Text) : urlSafe (xs ++ ys) = urlSafe xs ++ urlSafe ys := by
  simp only [urlSafe, replaceChar_append]

theorem decodeHex_append (xs ys : List Byte) :
    decodeHex (xs ++ ys) = decodeHex xs ++ decodeHex ys := List.flatMap_append

theorem decodeScalars_append (encoding : Encoding) (xs ys : List Byte) :
    decodeScalars encoding (xs ++ ys) = decodeScalars encoding xs ++ decodeScalars encoding ys :=
  List.map_append

/-- Base64 goes three bytes at a time. -/
theorem b64encode_append {xs : List Byte} (h : xs.length % 3 = 0) (ys : List Byte) :
    b64encode (xs ++ ys) = b64encode xs ++ b64encode ys := by
  fun_induction b64encode xs with
  | case1 => rfl
  | case2 a => simp at h
  | case3 a b => simp at h
  | case4 a b c rest ih =>
    have hrest : rest.length % 3 = 0 := by
      simp only [List.length_cons] at h
      omega
    simp only [List.cons_append, b64encode, ih hrest]

theorem codeUnits_append {xs : List Byte} (h : xs.length % 2 = 0) (ys : List Byte) :
    codeUnits (xs ++ ys) = codeUnits xs ++ codeUnits ys := by
  fun_induction codeUnits xs with
  | case1 low high rest ih =>
    have hrest : rest.length % 2 = 0 := by
      simp only [List.length_cons] at h
      omega
    simp only [List.cons_append, codeUnits, ih hrest]
  | case2 xs hxs =>
    cases xs with
    | nil => rfl
    | cons a rest =>
      cases rest with
      | nil => simp at h
      | cons b rest => exact absurd rfl (hxs a b rest)

end TsonicNode.Buffer
