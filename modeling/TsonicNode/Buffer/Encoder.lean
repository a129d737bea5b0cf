import TsonicNode.Buffer.Codec
import TsonicNode.Lib.Http
import TsonicNode.Lib.Sextets

/-!
# Text as bytes

`encodeBytes` reads a text in an encoding, `encodedByteLength` says how many
bytes that takes without reading it. Hexadecimal digits are read in pairs up to
the first byte that is no digit; base64 digits are collected in an accumulator,
other bytes are skipped and the padding ends them.
-/

namespace TsonicNode.Buffer.Encoder

open TsonicNode.Lib
open TsonicNode.Lib.Http (forall_byte)

/-- `as_bytes` of a text. -/
def asBytes (value : Text) : List Byte := value.flatMap String.utf8EncodeChar

def charUnits (c : Char) : List UInt16 :=
  if c.toNat < 0x10000 then [UInt16.ofNat c.toNat]
  else
    [UInt16.ofNat (0xD800 + (c.toNat - 0x10000) / 0x400),
      UInt16.ofNat (0xDC00 + (c.toNat - 0x10000) % 0x400)]

/-- The code units of `JsString(value)`. -/
def jsString (value : Text) : List UInt16 := value.flatMap charUnits

def hexDigit (value : UInt8) : Int :=
  if value ≥ 48 ∧ value ≤ 57 then (value - 48).toNat
  else if value ≥ 65 ∧ value ≤ 70 then (value - 65).toNat + 10
  else if value ≥ 97 ∧ value ≤ 102 then (value - 97).toNat + 10
  else -1

def base64Digit (value : UInt8) : Int :=
  if value ≥ 65 ∧ value ≤ 90 then (value - 65).toNat
  else if value ≥ 97 ∧ value ≤ 122 then (value - 97).toNat + 26
  else if value ≥ 48 ∧ value ≤ 57 then (value - 48).toNat + 52
  else if value = 43 ∨ value = 45 then 62
  else if value = 47 ∨ value = 95 then 63
  else -1

def encodeHex : List Byte → List Byte
  | first :: second :: rest =>
    let high := hexDigit first
    let low := hexDigit second
    if high < 0 ∨ low < 0 then []
    else UInt8.ofNat (high.toNat <<< 4 ||| low.toNat) :: encodeHex rest
  | _ => []

/-- One digit is shifted in. -/
def shiftIn (accumulator : UInt32) (digit : Nat) : UInt32 := accumulator <<< 6 ||| UInt32.ofNat digit

def encodeBase64 (accumulator : UInt32) (bits : Nat) : List Byte → List Byte
  | [] => []
  | byte :: rest =>
    if byte = 61 then []
    else
      let digit := base64Digit byte
      if digit < 0 then encodeBase64 accumulator bits rest
      else
        let accumulator := shiftIn accumulator digit.toNat
        let bits := bits + 6
        if bits ≥ 8 then
          (accumulator >>> UInt32.ofNat (bits - 8) &&& 255).toUInt8 ::
            encodeBase64 accumulator (bits - 8) rest
        else encodeBase64 accumulator bits rest

def encodeUnits (encoding : Encoding) (units : List UInt16) : List Byte :=
  units.flatMap fun (unit : UInt16) =>
    (unit &&& 255).toUInt8 :: if encoding = .utf16le then [(unit >>> 8).toUInt8] else []

def encodeBytes (value encoding : Text) : Except Error (List Byte) := do
  match ← encodingName encoding with
  | .utf8 => return asBytes value
  | .hex => return encodeHex (asBytes value)
  | .base64 | .base64url => return encodeBase64 0 0 (asBytes value)
  | name => return encodeUnits name (jsString value)

/-- A length without the padding the text ends with. -/
def unpaddedLength (value : Text) (length : Nat) : Nat :=
  if length > 0 ∧ ['='].isSuffixOf value then
    if length - 1 > 0 ∧ ['=', '='].isSuffixOf value then length - 1 - 1 else length - 1
  else length

def encodedByteLength (value encoding : Text) : Except Error Nat := do
  let length := (jsString value).length
  match ← encodingName encoding with
  | .utf8 => return (asBytes value).length
  | .utf16le => return length * 2
  | .hex => return length / 2
  | .base64 | .base64url => return unpaddedLength value length * 3 / 4
  | _ => return length

/-! ## Bytes and units of a character -/

theorem utf8_ascii {c : Char} (h : c.toNat < 128) :
    String.utf8EncodeChar c = [UInt8.ofNat c.toNat] := if_pos (Nat.le_of_lt_succ h)

/-- A character outside ASCII has no byte below 128. -/
theorem utf8_high {c : Char} (h : 128 ≤ c.toNat) : ∀ b ∈ String.utf8EncodeChar c, 128 ≤ b.toNat := by
  have hbyte : ∀ n m k : Nat, 128 ≤ k → m + k ≤ 256 → 0 < m → 128 ≤ (UInt8.ofNat (n % m + k)).toNat := by
    intro n m k hk hmk hm
    have := Nat.mod_lt n hm
    rw [UInt8.toNat_ofNat_of_lt' (by show _ < 256; omega)]
    omega
  have hsmall : ¬ c.val.toNat ≤ 0x7f := Nat.not_le_of_lt h
  by_cases htwo : c.val.toNat ≤ 0x7ff
  · rw [show String.utf8EncodeChar c = _ from (if_neg hsmall).trans (if_pos htwo)]
    simp only [List.mem_cons, List.not_mem_nil, or_false, forall_eq_or_imp, forall_eq]
    exact ⟨hbyte _ _ _ (by omega) (by omega) (by omega), hbyte _ _ _ (by omega) (by omega) (by omega)⟩
  · by_cases hthree : c.val.toNat ≤ 0xffff
    · rw [show String.utf8EncodeChar c = _ from
        (if_neg hsmall).trans ((if_neg htwo).trans (if_pos hthree))]
      simp only [List.mem_cons, List.not_mem_nil, or_false, forall_eq_or_imp, forall_eq]
      exact ⟨hbyte _ _ _ (by omega) (by omega) (by omega), hbyte _ _ _ (by omega) (by omega) (by omega),
        hbyte _ _ _ (by omega) (by omega) (by omega)⟩
    · rw [show String.utf8EncodeChar c = _ from
        (if_neg hsmall).trans ((if_neg htwo).trans (if_neg hthree))]
      simp only [List.mem_cons, List.not_mem_nil, or_false, forall_eq_or_imp, forall_eq]
      exact ⟨hbyte _ _ _ (by omega) (by omega) (by omega), hbyte _ _ _ (by omega) (by omega) (by omega),
        hbyte _ _ _ (by omega) (by omega) (by omega), hbyte _ _ _ (by omega) (by omega) (by omega)⟩

theorem asBytes_cons (c : Char) (value : Text) :
    asBytes (c :: value) = String.utf8EncodeChar c ++ asBytes value := List.flatMap_cons

theorem asBytes_append (xs ys : Text) : asBytes (xs ++ ys) = asBytes xs ++ asBytes ys :=
  List.flatMap_append

theorem jsString_append (xs ys : Text) : jsString (xs ++ ys) = jsString xs ++ jsString ys :=
  List.flatMap_append

theorem length_charUnits_pos (c : Char) : 0 < (charUnits c).length := by
  unfold charUnits
  split
  · exact Nat.one_pos
  · exact Nat.two_pos

theorem charUnits_small {c : Char} (h : c.toNat < 256) : charUnits c = [UInt16.ofNat c.toNat] :=
  if_pos (by omega)

/-- An ASCII text has one byte a character. -/
theorem asBytes_ascii (value : Text) (h : ∀ c ∈ value, c.toNat < 128) :
    asBytes value = value.map fun c => UInt8.ofNat c.toNat := by
  induction value with
  | nil => rfl
  | cons c value ih =>
    rw [asBytes_cons, utf8_ascii (h c List.mem_cons_self), ih fun d hd => h d (List.mem_cons_of_mem c hd)]
    rfl

/-- A text of characters below 256 has one unit a character. -/
theorem jsString_small {value : Text} (h : ∀ c ∈ value, c.toNat < 256) :
    jsString value = value.map fun c => UInt16.ofNat c.toNat := by
  induction value with
  | nil => rfl
  | cons c value ih =>
    have hrest := ih fun d hd => h d (List.mem_cons_of_mem c hd)
    show charUnits c ++ jsString value = _
    rw [charUnits_small (h c List.mem_cons_self), hrest]
    rfl

/-- There are no more ASCII bytes than units. -/
theorem ascii_le_units (value : Text) :
    ((asBytes value).filter fun b => b.toNat < 128).length ≤ (jsString value).length := by
  induction value with
  | nil => exact Nat.le_refl 0
  | cons c value ih =>
    have hchar : ((String.utf8EncodeChar c).filter fun b => b.toNat < 128).length ≤ (charUnits c).length := by
      by_cases hascii : c.toNat < 128
      · rw [utf8_ascii hascii]
        exact Nat.le_trans (List.length_filter_le _ _) (length_charUnits_pos c)
      · rw [List.filter_eq_nil_iff.mpr fun b hb => by
          have := utf8_high (Nat.not_lt.mp hascii) b hb
          simpa using this]
        exact Nat.zero_le _
    show _ ≤ (charUnits c ++ jsString value).length
    rw [asBytes_cons, List.filter_append, List.length_append, List.length_append]
    exact Nat.add_le_add hchar ih

/-! ## Base64 digits -/

/-- The eight bits of the accumulator above the lowest `bits`. -/
def byteAt (accumulator : UInt32) (bits : Nat) : Byte := (accumulator >>> UInt32.ofNat bits &&& 255).toUInt8

/-- `encodeBase64` over the digits alone. -/
def feed (accumulator : UInt32) (bits : Nat) : List Nat → List Byte
  | [] => []
  | digit :: rest =>
    if bits + 6 ≥ 8 then
      byteAt (shiftIn accumulator digit) (bits + 6 - 8) :: feed (shiftIn accumulator digit) (bits + 6 - 8) rest
    else feed (shiftIn accumulator digit) (bits + 6) rest

/-- The digits that are read: those in front of the padding. -/
def values (bytes : List Byte) : List Nat :=
  ((bytes.takeWhile (· != 61)).filter (0 ≤ base64Digit ·)).map fun byte => (base64Digit byte).toNat

theorem encodeBase64_feed (accumulator : UInt32) (bits : Nat) (bytes : List Byte) :
    encodeBase64 accumulator bits bytes = feed accumulator bits (values bytes) := by
  induction bytes generalizing accumulator bits with
  | nil => rfl
  | cons byte rest ih =>
    rw [encodeBase64]
    by_cases hpadding : byte = 61
    · rw [if_pos hpadding, hpadding]
      rfl
    rw [if_neg hpadding]
    have htake : (byte :: rest).takeWhile (· != 61) = byte :: rest.takeWhile (· != 61) :=
      List.takeWhile_cons_of_pos (bne_iff_ne.mpr hpadding)
    by_cases hdigit : base64Digit byte < 0
    · have hvalues : values (byte :: rest) = values rest := by
        unfold values
        rw [htake, List.filter_cons_of_neg (by simpa using hdigit)]
      dsimp only
      rw [if_pos hdigit, ih, hvalues]
    · have hvalues : values (byte :: rest) = (base64Digit byte).toNat :: values rest := by
        unfold values
        rw [htake, List.filter_cons_of_pos (by simpa using hdigit)]
        rfl
      dsimp only
      rw [if_neg hdigit, hvalues, feed, ih, ih]
      rfl

theorem toNat_shiftIn (accumulator : UInt32) {digit : Nat} (h : digit < 64) :
    (shiftIn accumulator digit).toNat = accumulator.toNat % 67108864 * 64 + digit := by
  have hdigit : (UInt32.ofNat digit).toNat = digit := UInt32.toNat_ofNat_of_lt' (by show _ < 4294967296; omega)
  have hshift : accumulator.toNat <<< 6 % 4294967296 = (accumulator.toNat % 67108864) <<< 6 := by
    rw [Nat.shiftLeft_eq, Nat.shiftLeft_eq]
    omega
  unfold shiftIn
  rw [UInt32.toNat_or, UInt32.toNat_shiftLeft, hdigit]
  show accumulator.toNat <<< 6 % 4294967296 ||| digit = _
  rw [hshift, ← Nat.shiftLeft_add_eq_or_of_lt (show digit < 2 ^ 6 from h), Nat.shiftLeft_eq]

theorem toNat_byteAt (accumulator : UInt32) {bits : Nat} (h : bits < 32) :
    (byteAt accumulator bits).toNat = accumulator.toNat >>> bits % 256 := by
  have hbits : (UInt32.ofNat bits).toNat = bits := UInt32.toNat_ofNat_of_lt' (by show _ < 4294967296; omega)
  unfold byteAt
  rw [UInt32.toNat_toUInt8, UInt32.toNat_and, UInt32.toNat_shiftRight, hbits, Nat.mod_eq_of_lt h]
  show (_ &&& 2 ^ 8 - 1) % 256 = _
  rw [Nat.and_two_pow_sub_one_eq_mod]
  exact Nat.mod_mod _ _

/-- Only the bits of the last digits are in a byte. -/
theorem byteAt_eq {accumulator : UInt32} (bits : Nat) {n : Nat} (hbits : bits < 32)
    (h : accumulator.toNat >>> bits % 256 = n) : byteAt accumulator bits = UInt8.ofNat n := by
  rw [← h, ← toNat_byteAt accumulator hbits, UInt8.ofNat_toNat]

theorem feed_pack {digits : List Nat} (h : ∀ digit ∈ digits, digit < 64) (accumulator : UInt32) :
    feed accumulator 0 digits = pack digits := by
  fun_induction pack digits generalizing accumulator with
  | case1 a b c d rest ih =>
    simp only [List.mem_cons, forall_eq_or_imp] at h
    obtain ⟨ha, hb, hc, hd, hrest⟩ := h
    have h1 := toNat_shiftIn accumulator ha
    have h2 := toNat_shiftIn (shiftIn accumulator a) hb
    have h3 := toNat_shiftIn (shiftIn (shiftIn accumulator a) b) hc
    have h4 := toNat_shiftIn (shiftIn (shiftIn (shiftIn accumulator a) b) c) hd
    rw [← ih hrest (shiftIn (shiftIn (shiftIn (shiftIn accumulator a) b) c) d),
      ← byteAt_eq 4 (by decide) (show _ = a * 4 + b / 16 by rw [h2, h1]; omega),
      ← byteAt_eq 2 (by decide) (show _ = b % 16 * 16 + c / 4 by rw [h3, h2, h1]; omega),
      ← byteAt_eq 0 (by decide) (show _ = c % 4 * 64 + d by rw [h4, h3, h2, h1]; omega)]
    rfl
  | case2 a b c =>
    simp only [List.mem_cons, List.not_mem_nil, or_false, forall_eq_or_imp, forall_eq] at h
    obtain ⟨ha, hb, hc⟩ := h
    have h1 := toNat_shiftIn accumulator ha
    have h2 := toNat_shiftIn (shiftIn accumulator a) hb
    have h3 := toNat_shiftIn (shiftIn (shiftIn accumulator a) b) hc
    rw [← byteAt_eq 4 (by decide) (show _ = a * 4 + b / 16 by rw [h2, h1]; omega),
      ← byteAt_eq 2 (by decide) (show _ = b % 16 * 16 + c / 4 by rw [h3, h2, h1]; omega)]
    rfl
  | case3 a b =>
    simp only [List.mem_cons, List.not_mem_nil, or_false, forall_eq_or_imp, forall_eq] at h
    obtain ⟨ha, hb⟩ := h
    have h1 := toNat_shiftIn accumulator ha
    have h2 := toNat_shiftIn (shiftIn accumulator a) hb
    rw [← byteAt_eq 4 (by decide) (show _ = a * 4 + b / 16 by rw [h2, h1]; omega)]
    rfl
  | case4 digits hfour hthree htwo =>
    rcases digits with _ | ⟨a, _ | ⟨b, _ | ⟨c, _ | ⟨d, rest⟩⟩⟩⟩
    · rfl
    · rfl
    · exact absurd rfl (htwo a b)
    · exact absurd rfl (hthree a b c)
    · exact absurd rfl (hfour a b c d rest)

/-- A byte that is a digit is an ASCII one. -/
abbrev DigitByte (byte : Byte) : Prop :=
  base64Digit byte < 64 ∧ (0 ≤ base64Digit byte → byte.toNat < 128) ∧
    (¬ hexDigit byte < 0 → byte.toNat < 128)

/-- The parts of a byte that are written as digits. -/
abbrev SplitByte (a : Byte) : Prop :=
  (a >>> 2).toNat = a.toNat / 4 ∧ (a >>> 4).toNat = a.toNat / 16 ∧
    (a >>> 6).toNat = a.toNat / 64 ∧ (a &&& 63).toNat = a.toNat % 64 ∧
    ((a &&& 3) <<< 4).toNat = a.toNat % 4 * 16 ∧ ((a &&& 15) <<< 2).toNat = a.toNat % 16 * 4

/-- The two hexadecimal digits of a byte are read as the byte. -/
abbrev HexByte (byte : Byte) : Prop :=
  let high := hexDigits.getD (byte >>> 4).toNat '0'
  let low := hexDigits.getD (byte &&& 15).toNat '0'
  asBytes [high, low] = [UInt8.ofNat high.toNat, UInt8.ofNat low.toNat] ∧
    ¬ (hexDigit (UInt8.ofNat high.toNat) < 0 ∨ hexDigit (UInt8.ofNat low.toNat) < 0) ∧
    UInt8.ofNat ((hexDigit (UInt8.ofNat high.toNat)).toNat <<< 4 |||
      (hexDigit (UInt8.ofNat low.toNat)).toNat) = byte ∧
    (jsString [high, low]).length = 2

/-- A byte is the character and the unit of the same number. -/
abbrev ScalarByte (byte : Byte) : Prop :=
  (Char.ofNat byte.toNat).toNat = byte.toNat ∧ (UInt16.ofNat byte.toNat &&& 255).toUInt8 = byte

theorem byte_table (byte : Byte) : DigitByte byte ∧ SplitByte byte ∧ HexByte byte ∧ ScalarByte byte :=
  forall_byte (by decide +kernel) byte

theorem values_lt (bytes : List Byte) : ∀ digit ∈ values bytes, digit < 64 := by
  intro digit hdigit
  obtain ⟨byte, -, rfl⟩ := List.mem_map.mp hdigit
  have := (byte_table byte).1.1
  omega

theorem encodeBase64_eq (bytes : List Byte) : encodeBase64 0 0 bytes = pack (values bytes) := by
  rw [encodeBase64_feed, feed_pack (values_lt bytes)]

/-! ## The text of digits -/

/-- The character of a digit. -/
def digitChar (digit : Nat) : Char := base64Digits.getD digit '='

/-- The same, with the two last digits written as in URLs. -/
def urlChar (digit : Nat) : Char :=
  if digit = 62 then '-' else if digit = 63 then '_' else digitChar digit

def padding (bytes : List Byte) : Nat := (3 - bytes.length % 3) % 3

theorem base64Digit_eq (value : UInt8) : Buffer.base64Digit value = digitChar value.toNat := rfl

theorem toNat_high (a : Byte) : SplitByte a := (byte_table a).2.1

theorem toNat_middle (a b : Byte) : ((a &&& 3) <<< 4 ||| b >>> 4).toNat = a.toNat % 4 * 16 + b.toNat / 16 := by
  obtain ⟨-, -, -, -, hfour, -⟩ := toNat_high a
  obtain ⟨-, hhigh, -⟩ := toNat_high b
  have hb := b.toNat_lt
  rw [UInt8.toNat_or, hfour, hhigh, Nat.mul_comm,
    Nat.two_pow_add_eq_or_of_lt (i := 4) (show b.toNat / 16 < 2 ^ 4 by omega)]

theorem toNat_last (b c : Byte) : ((b &&& 15) <<< 2 ||| c >>> 6).toNat = b.toNat % 16 * 4 + c.toNat / 64 := by
  obtain ⟨-, -, -, -, -, htwo⟩ := toNat_high b
  obtain ⟨-, -, hhigh, -⟩ := toNat_high c
  have hc := c.toNat_lt
  rw [UInt8.toNat_or, htwo, hhigh, Nat.mul_comm,
    Nat.two_pow_add_eq_or_of_lt (i := 2) (show c.toNat / 64 < 2 ^ 2 by omega)]

theorem b64encode_eq (bytes : List Byte) :
    b64encode bytes = (unpack bytes).map digitChar ++ List.replicate (padding bytes) '=' := by
  fun_induction b64encode bytes with
  | case1 => rfl
  | case2 a =>
    obtain ⟨ha, -, -, -, hrest, -⟩ := toNat_high a
    rw [base64Digit_eq, base64Digit_eq, ha, hrest]
    rfl
  | case3 a b =>
    obtain ⟨ha, -⟩ := toNat_high a
    obtain ⟨-, -, -, -, -, hrest⟩ := toNat_high b
    rw [base64Digit_eq, base64Digit_eq, base64Digit_eq, ha, toNat_middle, hrest]
    rfl
  | case4 a b c rest ih =>
    obtain ⟨ha, -⟩ := toNat_high a
    obtain ⟨-, -, -, hc, -⟩ := toNat_high c
    have hpadding : padding (a :: b :: c :: rest) = padding rest := by
      unfold padding
      simp only [List.length_cons]
      omega
    rw [base64Digit_eq, base64Digit_eq, base64Digit_eq, base64Digit_eq, ha, toNat_middle, toNat_last, hc, ih,
      hpadding]
    rfl

/-- A digit written as a character of its own that is read as the digit. -/
abbrev Written (write : Nat → Char) (digit : Nat) : Prop :=
  (write digit).toNat < 128 ∧ write digit ≠ '=' ∧ UInt8.ofNat (write digit).toNat ≠ 61 ∧
    base64Digit (UInt8.ofNat (write digit).toNat) = digit

theorem digit_table (digit : Fin 64) : urlSafe [digitChar digit] = [urlChar digit] ∧
    Written digitChar digit ∧ Written urlChar digit ∧ digitChar digit ∈ base64Digits ∧
    base64Digits.idxOf (digitChar digit) = digit := by
  revert digit
  decide +kernel

theorem urlSafe_digits {digits : List Nat} (h : ∀ digit ∈ digits, digit < 64) (count : Nat) :
    urlSafe (digits.map digitChar ++ List.replicate count '=') = digits.map urlChar := by
  rw [urlSafe_append]
  have hpadding : urlSafe (List.replicate count '=') = [] := by
    induction count with
    | zero => rfl
    | succ count ih =>
      rw [List.replicate_succ, ← List.singleton_append, urlSafe_append, ih]
      rfl
  rw [hpadding, List.append_nil]
  induction digits with
  | nil => rfl
  | cons digit digits ih =>
    rw [List.map_cons, ← List.singleton_append, urlSafe_append, (digit_table ⟨digit, h digit List.mem_cons_self⟩).1,
      ih fun d hd => h d (List.mem_cons_of_mem digit hd)]
    rfl

/-- How digits may be written. -/
def Alphabet (write : Nat → Char) : Prop := ∀ digit < 64, Written write digit

theorem alphabet_digitChar : Alphabet digitChar := fun digit h => (digit_table ⟨digit, h⟩).2.1

theorem alphabet_urlChar : Alphabet urlChar := fun digit h => (digit_table ⟨digit, h⟩).2.2.1

section
variable {write : Nat → Char} {digits : List Nat}

theorem asBytes_digits (halphabet : Alphabet write) (h : ∀ digit ∈ digits, digit < 64) (count : Nat) :
    asBytes (digits.map write ++ List.replicate count '=') =
      digits.map (fun digit => UInt8.ofNat (write digit).toNat) ++ List.replicate count 61 := by
  rw [asBytes_append, asBytes_ascii, asBytes_ascii, List.map_map, List.map_replicate]
  · rfl
  · intro c hc
    rw [List.eq_of_mem_replicate hc]
    decide
  · intro c hc
    obtain ⟨digit, hdigit, rfl⟩ := List.mem_map.mp hc
    exact (halphabet digit (h digit hdigit)).1

theorem values_digits (halphabet : Alphabet write) (h : ∀ digit ∈ digits, digit < 64) (count : Nat) :
    values (digits.map (fun digit => UInt8.ofNat (write digit).toNat) ++ List.replicate count 61) = digits := by
  have htake : (digits.map (fun digit => UInt8.ofNat (write digit).toNat) ++
      List.replicate count 61).takeWhile (· != 61) =
        digits.map fun digit => UInt8.ofNat (write digit).toNat := by
    rw [List.takeWhile_append_of_pos]
    · cases count with
      | zero => exact List.append_nil _
      | succ count =>
        rw [List.replicate_succ, List.takeWhile_cons_of_neg (by decide), List.append_nil]
    · intro byte hbyte
      obtain ⟨digit, hdigit, rfl⟩ := List.mem_map.mp hbyte
      exact bne_iff_ne.mpr ((halphabet digit (h digit hdigit)).2.2.1)
  unfold values
  rw [htake, List.filter_eq_self.mpr, List.map_map]
  · refine (List.map_congr_left fun digit hdigit => ?_).trans (List.map_id digits)
    show (base64Digit _).toNat = digit
    rw [(halphabet digit (h digit hdigit)).2.2.2, Int.toNat_natCast]
  · intro byte hbyte
    obtain ⟨digit, hdigit, rfl⟩ := List.mem_map.mp hbyte
    rw [(halphabet digit (h digit hdigit)).2.2.2]
    exact decide_eq_true (Int.natCast_nonneg digit)

/-- Written digits, padded or not, are read as the bytes they pack. -/
theorem encodeBase64_digits (halphabet : Alphabet write) (h : ∀ digit ∈ digits, digit < 64) (count : Nat) :
    encodeBase64 0 0 (asBytes (digits.map write ++ List.replicate count '=')) = pack digits := by
  rw [encodeBase64_eq, asBytes_digits halphabet h, values_digits halphabet h]

theorem length_jsString_digits (halphabet : Alphabet write) (h : ∀ digit ∈ digits, digit < 64) :
    (jsString (digits.map write)).length = digits.length := by
  rw [jsString_small, List.length_map, List.length_map]
  intro c hc
  obtain ⟨digit, hdigit, rfl⟩ := List.mem_map.mp hc
  have := (halphabet digit (h digit hdigit)).1
  omega

end

/-! ## Lengths -/

theorem jsString_padding (text : Text) (count : Nat) :
    (jsString (text ++ List.replicate count '=')).length = (jsString text).length + count := by
  have hpadding : (jsString (List.replicate count '=')).length = count := by
    rw [jsString_small, List.length_map, List.length_replicate]
    intro c hc
    rw [List.eq_of_mem_replicate hc]
    decide
  rw [jsString_append, List.length_append, hpadding]

/-- The padding that is not counted is padding of the text. -/
theorem unpaddedLength_spec (value : Text) : ∃ text count, value = text ++ List.replicate count '=' ∧
    unpaddedLength value (jsString value).length = (jsString text).length := by
  unfold unpaddedLength
  by_cases hone : (jsString value).length > 0 ∧ ['='].isSuffixOf value
  · rw [if_pos hone]
    by_cases htwo : (jsString value).length - 1 > 0 ∧ ['=', '='].isSuffixOf value
    · rw [if_pos htwo]
      obtain ⟨text, htext⟩ := List.isSuffixOf_iff_suffix.mp htwo.2
      refine ⟨text, 2, htext.symm, ?_⟩
      rw [show value = text ++ List.replicate 2 '=' from htext.symm, jsString_padding]
      rfl
    · rw [if_neg htwo]
      obtain ⟨text, htext⟩ := List.isSuffixOf_iff_suffix.mp hone.2
      refine ⟨text, 1, htext.symm, ?_⟩
      rw [show value = text ++ List.replicate 1 '=' from htext.symm, jsString_padding]
      rfl
  · rw [if_neg hone]
    exact ⟨value, 0, (List.append_nil value).symm, rfl⟩

theorem suffix_digits {write : Nat → Char} {digits : List Nat} (halphabet : Alphabet write)
    (h : ∀ digit ∈ digits, digit < 64) : ¬ ['='] <:+ digits.map write := by
  intro hsuffix
  obtain ⟨digit, hdigit, heq⟩ := List.mem_map.mp (hsuffix.subset List.mem_cons_self)
  exact (halphabet digit (h digit hdigit)).2.1 heq

/-- Of written digits it counts the digits. -/
theorem unpaddedLength_digits {write : Nat → Char} {digits : List Nat} (halphabet : Alphabet write)
    (h : ∀ digit ∈ digits, digit < 64) {count : Nat} (hcount : count ≤ 2) :
    unpaddedLength (digits.map write ++ List.replicate count '=')
      (jsString (digits.map write ++ List.replicate count '=')).length = digits.length := by
  have hsuffix := suffix_digits halphabet h
  rw [jsString_padding, length_jsString_digits halphabet h]
  unfold unpaddedLength
  obtain rfl | rfl | rfl : count = 0 ∨ count = 1 ∨ count = 2 := by omega
  · rw [if_neg]
    · rfl
    · rintro ⟨-, hone⟩
      rw [List.replicate_zero, List.append_nil] at hone
      exact hsuffix (List.isSuffixOf_iff_suffix.mp hone)
  · have hone : ['='].isSuffixOf (digits.map write ++ List.replicate 1 '=') = true :=
      List.isSuffixOf_iff_suffix.mpr ⟨_, rfl⟩
    rw [if_pos ⟨by omega, hone⟩, if_neg]
    · rfl
    · rintro ⟨-, htwo⟩
      obtain ⟨text, htext⟩ := List.isSuffixOf_iff_suffix.mp htwo
      have hcut : text ++ ['='] ++ ['='] = digits.map write ++ ['='] := by
        rw [List.append_assoc]
        exact htext
      exact hsuffix ⟨text, List.append_cancel_right hcut⟩
  · have hone : ['='].isSuffixOf (digits.map write ++ List.replicate 2 '=') = true :=
      List.isSuffixOf_iff_suffix.mpr ⟨digits.map write ++ ['='], by rw [List.append_assoc]; rfl⟩
    have htwo : ['=', '='].isSuffixOf (digits.map write ++ List.replicate 2 '=') = true :=
      List.isSuffixOf_iff_suffix.mpr ⟨_, rfl⟩
    rw [if_pos ⟨by omega, hone⟩, if_pos ⟨by omega, htwo⟩]
    rfl

theorem values_length (bytes : List Byte) :
    (values bytes).length ≤ (bytes.filter fun b => b.toNat < 128).length := by
  have hascii : ∀ byte : Byte, 0 ≤ base64Digit byte → byte.toNat < 128 := fun byte =>
    (byte_table byte).1.2.1
  unfold values
  rw [List.length_map]
  refine Nat.le_trans ?_ (((List.takeWhile_prefix (· != 61)).sublist.filter _).length_le)
  rw [← List.countP_eq_length_filter, ← List.countP_eq_length_filter]
  exact List.countP_mono_left fun byte _ h => decide_eq_true (hascii byte (of_decide_eq_true h))

/-- The padding ends the digits. -/
theorem values_padding (bytes : List Byte) (count : Nat) :
    values (bytes ++ List.replicate count 61) = values bytes := by
  have htake : (bytes ++ List.replicate count 61).takeWhile (· != 61) = bytes.takeWhile (· != 61) := by
    induction bytes with
    | nil =>
      cases count with
      | zero => rfl
      | succ count => exact List.takeWhile_cons_of_neg (by decide)
    | cons byte bytes ih =>
      rw [List.cons_append, List.takeWhile_cons, List.takeWhile_cons, ih]
  unfold values
  rw [htake]

theorem length_encodeBase64_le (value : Text) :
    (encodeBase64 0 0 (asBytes value)).length ≤ unpaddedLength value (jsString value).length * 3 / 4 := by
  obtain ⟨text, count, rfl, hlength⟩ := unpaddedLength_spec value
  have hbytes : asBytes (text ++ List.replicate count '=') = asBytes text ++ List.replicate count 61 := by
    rw [asBytes_append, asBytes_ascii (List.replicate count '='), List.map_replicate]
    · rfl
    · intro c hc
      rw [List.eq_of_mem_replicate hc]
      decide
  rw [hlength, hbytes, encodeBase64_eq, values_padding, length_pack]
  have hvalues := values_length (asBytes text)
  have hunits := ascii_le_units text
  exact Nat.div_le_div_right (Nat.mul_le_mul_right 3 (Nat.le_trans hvalues hunits))

/-- Every pair of digits that is read is two ASCII bytes. -/
theorem length_encodeHex_le (bytes : List Byte) :
    (encodeHex bytes).length * 2 ≤ (bytes.filter fun b => b.toNat < 128).length := by
  have hascii : ∀ byte : Byte, ¬ hexDigit byte < 0 → byte.toNat < 128 := fun byte =>
    (byte_table byte).1.2.2
  fun_induction encodeHex bytes with
  | case1 first second rest high low hdigit => exact Nat.zero_le _
  | case2 first second rest high low hdigit ih =>
    rw [not_or] at hdigit
    rw [List.filter_cons_of_pos (p := fun b : Byte => b.toNat < 128) (decide_eq_true (hascii first hdigit.1)),
      List.filter_cons_of_pos (p := fun b : Byte => b.toNat < 128) (decide_eq_true (hascii second hdigit.2))]
    simp only [List.length_cons]
    omega
  | case3 => exact Nat.zero_le _

/-! ## Round trips -/

theorem decodeHex_cons (byte : Byte) (bytes : List Byte) :
    decodeHex (byte :: bytes) =
      [hexDigits.getD (byte >>> 4).toNat '0', hexDigits.getD (byte &&& 15).toNat '0'] ++ decodeHex bytes :=
  List.flatMap_cons

theorem encodeHex_decodeHex (bytes : List Byte) : encodeHex (asBytes (decodeHex bytes)) = bytes := by
  induction bytes with
  | nil => rfl
  | cons byte bytes ih =>
    obtain ⟨hbytes, hdigits, hvalue, -⟩ := (byte_table byte).2.2.1
    rw [decodeHex_cons, asBytes_append, hbytes]
    show encodeHex (_ :: _ :: asBytes (decodeHex bytes)) = _
    rw [encodeHex, if_neg hdigits, hvalue, ih]

theorem length_decodeHex (bytes : List Byte) : (jsString (decodeHex bytes)).length = bytes.length * 2 := by
  induction bytes with
  | nil => rfl
  | cons byte bytes ih =>
    obtain ⟨-, -, -, hunits⟩ := (byte_table byte).2.2.1
    rw [decodeHex_cons, jsString_append, List.length_append, hunits, ih, List.length_cons]
    omega

theorem latin1_small (bytes : List Byte) : ∀ c ∈ decodeScalars .latin1 bytes, c.toNat < 256 := by
  intro c hc
  obtain ⟨byte, -, rfl⟩ := List.mem_map.mp hc
  have hbyte := (byte_table byte).2.2.2.1
  show (Char.ofNat byte.toNat).toNat < 256
  rw [hbyte]
  exact byte.toNat_lt

theorem encodeUnits_latin1 (bytes : List Byte) :
    encodeUnits .latin1 (jsString (decodeScalars .latin1 bytes)) = bytes := by
  rw [jsString_small (latin1_small bytes)]
  induction bytes with
  | nil => rfl
  | cons byte bytes ih =>
    obtain ⟨hchar, hunit⟩ := (byte_table byte).2.2.2
    show (UInt16.ofNat (Char.ofNat byte.toNat).toNat &&& 255).toUInt8 :: encodeUnits .latin1 _ = _
    rw [hchar, hunit]
    exact congrArg (byte :: ·) ih

theorem encodeBase64_b64encode (bytes : List Byte) : encodeBase64 0 0 (asBytes (b64encode bytes)) = bytes := by
  rw [b64encode_eq, encodeBase64_digits alphabet_digitChar (unpack_lt bytes), pack_unpack]

theorem urlSafe_b64encode (bytes : List Byte) : urlSafe (b64encode bytes) = (unpack bytes).map urlChar := by
  rw [b64encode_eq, urlSafe_digits (unpack_lt bytes)]

theorem encodeBase64_urlSafe (bytes : List Byte) :
    encodeBase64 0 0 (asBytes (urlSafe (b64encode bytes))) = bytes := by
  have hdigits := encodeBase64_digits alphabet_urlChar (unpack_lt bytes) 0
  rw [List.replicate_zero, List.append_nil, pack_unpack] at hdigits
  rw [urlSafe_b64encode, hdigits]

theorem length_encodeUnits (encoding : Encoding) (units : List UInt16) :
    (encodeUnits encoding units).length = if encoding = .utf16le then units.length * 2 else units.length := by
  induction units with
  | nil => exact (ite_self 0).symm
  | cons unit units ih =>
    show (_ :: (if encoding = .utf16le then [(unit >>> 8).toUInt8] else []) ++
      encodeUnits encoding units).length = _
    rw [List.length_append, ih, List.length_cons, List.length_cons]
    split
    · rw [List.length_singleton]
      omega
    · rw [List.length_nil]
      omega

/-- As many bytes as are predicted, when the text came out of the decoder. -/
theorem length_packed (bytes : List Byte) : (unpack bytes).length * 3 / 4 = bytes.length := by
  rw [← length_pack, pack_unpack]

/-- `encodeBytes` with a known encoding. -/
def encoded : Encoding → Text → List Byte
  | .utf8, value => asBytes value
  | .hex, value => encodeHex (asBytes value)
  | .base64, value | .base64url, value => encodeBase64 0 0 (asBytes value)
  | encoding, value => encodeUnits encoding (jsString value)

/-- `encodedByteLength` with a known encoding. -/
def encodedLength : Encoding → Text → Nat
  | .utf8, value => (asBytes value).length
  | .utf16le, value => (jsString value).length * 2
  | .hex, value => (jsString value).length / 2
  | .base64, value | .base64url, value => unpaddedLength value (jsString value).length * 3 / 4
  | _, value => (jsString value).length

section
variable (unpaired : List UInt16 → Error) {name : Text} {encoding : Encoding}

theorem encodeBytes_eq (hname : encodingName name = .ok encoding) (value : Text) :
    encodeBytes value name = .ok (encoded encoding value) := by
  unfold encodeBytes
  rw [hname]
  cases encoding with
  | utf8 | utf16le | latin1 | ascii | hex | base64 | base64url => rfl

theorem encodedByteLength_eq (hname : encodingName name = .ok encoding) (value : Text) :
    encodedByteLength value name = .ok (encodedLength encoding value) := by
  unfold encodedByteLength
  rw [hname]
  cases encoding with
  | utf8 | utf16le | latin1 | ascii | hex | base64 | base64url => rfl

theorem decodeBytes_eq (hname : encodingName name = .ok encoding) {bytes : List Byte} {text : Text} :
    decodeBytes unpaired bytes name = .ok text ↔ decoded encoding bytes = some text := by
  have hoption := decodeBytes_toOption unpaired hname bytes
  constructor
  · intro h
    rw [← hoption, h]
    rfl
  · intro h
    rw [h] at hoption
    cases hresult : decodeBytes unpaired bytes name with
    | ok result =>
      rw [hresult] at hoption
      exact congrArg Except.ok (Option.some.inj hoption)
    | error error =>
      rw [hresult] at hoption
      cases hoption

theorem decode_encode (hencoding : encoding ∈ [.hex, .base64, .base64url, .latin1]) (bytes : List Byte) :
    ∃ text, decoded encoding bytes = some text ∧ encoded encoding text = bytes := by
  cases encoding with
  | hex => exact ⟨_, rfl, encodeHex_decodeHex bytes⟩
  | base64 => exact ⟨_, rfl, encodeBase64_b64encode bytes⟩
  | base64url => exact ⟨_, rfl, encodeBase64_urlSafe bytes⟩
  | latin1 => exact ⟨_, rfl, encodeUnits_latin1 bytes⟩
  | utf8 | utf16le | ascii => exact absurd hencoding (by decide)

theorem length_encoded_le (encoding : Encoding) (value : Text) :
    (encoded encoding value).length ≤ encodedLength encoding value := by
  cases encoding with
  | utf8 => exact Nat.le_refl _
  | utf16le => exact Nat.le_of_eq (length_encodeUnits .utf16le (jsString value))
  | latin1 => exact Nat.le_of_eq (length_encodeUnits .latin1 (jsString value))
  | ascii => exact Nat.le_of_eq (length_encodeUnits .ascii (jsString value))
  | hex =>
    have hbytes := length_encodeHex_le (asBytes value)
    have hunits := ascii_le_units value
    show (encodeHex (asBytes value)).length ≤ (jsString value).length / 2
    omega
  | base64 | base64url => exact length_encodeBase64_le value

theorem length_encoded (hencoding : encoding ∈ [.utf8, .utf16le, .latin1, .ascii]) (value : Text) :
    encodedLength encoding value = (encoded encoding value).length := by
  cases encoding with
  | utf8 => rfl
  | utf16le => exact (length_encodeUnits .utf16le (jsString value)).symm
  | latin1 => exact (length_encodeUnits .latin1 (jsString value)).symm
  | ascii => exact (length_encodeUnits .ascii (jsString value)).symm
  | hex | base64 | base64url => exact absurd hencoding (by decide)

theorem length_decoded (hencoding : encoding ∈ [.hex, .base64, .base64url]) {bytes : List Byte} {text : Text}
    (htext : decoded encoding bytes = some text) : encodedLength encoding text = bytes.length := by
  cases encoding with
  | hex =>
    obtain rfl := Option.some.inj htext
    show (jsString (decodeHex bytes)).length / 2 = _
    rw [length_decodeHex]
    omega
  | base64 =>
    obtain rfl := Option.some.inj htext
    show unpaddedLength (b64encode bytes) (jsString (b64encode bytes)).length * 3 / 4 = _
    rw [b64encode_eq, unpaddedLength_digits alphabet_digitChar (unpack_lt bytes), length_packed]
    unfold padding
    omega
  | base64url =>
    obtain rfl := Option.some.inj htext
    have hlength := unpaddedLength_digits alphabet_urlChar (unpack_lt bytes) (Nat.zero_le 2)
    rw [List.replicate_zero, List.append_nil] at hlength
    show unpaddedLength (urlSafe (b64encode bytes)) (jsString (urlSafe (b64encode bytes))).length * 3 / 4 = _
    rw [urlSafe_b64encode, hlength, length_packed]
  | utf8 | utf16le | latin1 | ascii => exact absurd hencoding (by decide)

/-- Bytes come back from their text, and the length a text takes is predicted: exactly where each
unit or byte counts, and never too short where some are skipped. -/
theorem codecs_agree (hname : encodingName name = .ok encoding) :
    (encoding ∈ [.hex, .base64, .base64url, .latin1] → ∀ bytes : List Byte,
      ∃ text, decodeBytes unpaired bytes name = .ok text ∧ encodeBytes text name = .ok bytes) ∧
    (∀ value : Text, ∃ bytes length, encodeBytes value name = .ok bytes ∧
      encodedByteLength value name = .ok length ∧ bytes.length ≤ length ∧
      (encoding ∈ [.utf8, .utf16le, .latin1, .ascii] → length = bytes.length)) ∧
    (encoding ∈ [.hex, .base64, .base64url] → ∀ (bytes : List Byte) (text : Text),
      decodeBytes unpaired bytes name = .ok text →
      ∃ encoded, encodeBytes text name = .ok encoded ∧
        encodedByteLength text name = .ok encoded.length) := by
  refine ⟨fun hencoding bytes => ?_, fun value => ?_, fun hencoding bytes text htext => ?_⟩
  · obtain ⟨text, htext, hbytes⟩ := decode_encode hencoding bytes
    refine ⟨text, (decodeBytes_eq unpaired hname).mpr htext, ?_⟩
    rw [encodeBytes_eq hname, hbytes]
  · exact ⟨_, _, encodeBytes_eq hname value, encodedByteLength_eq hname value,
      length_encoded_le encoding value, fun hencoding => length_encoded hencoding value⟩
  · have hmem : encoding ∈ [Encoding.hex, .base64, .base64url, .latin1] :=
      List.mem_of_mem_take (i := 3) hencoding
    have htext := (decodeBytes_eq unpaired hname).mp htext
    obtain ⟨text', htext', hbytes⟩ := decode_encode hmem bytes
    obtain rfl : text = text' := Option.some.inj (htext.symm.trans htext')
    refine ⟨bytes, ?_, ?_⟩
    · rw [encodeBytes_eq hname, hbytes]
    · rw [encodedByteLength_eq hname, length_decoded hencoding htext]

theorem codecs_agree_base64url :
    ∃ text, decodeBytes (fun _ => ⟨""⟩) [0, 251, 255] "BASE64URL".toList = .ok text ∧
      encodeBytes text "BASE64URL".toList = .ok [0, 251, 255] := by
  have hname : encodingName "BASE64URL".toList = .ok .base64url := by decide
  exact (codecs_agree (fun _ => ⟨""⟩) hname).1 (by decide) [0, 251, 255]

end

end TsonicNode.Buffer.Encoder
