import TsonicNode.Buffer.Encoder

/-!
# `btoa` and `atob`

`encodeBinaryString` writes the bytes of a text in base64. `decodeBinaryString`
leaves out white space, takes padding off whole groups, and refuses what is not
made of digits of the standard alphabet then.
-/

namespace TsonicNode.Buffer.Encoder

open TsonicNode.Lib
open TsonicNode.Lib.Http (forall_byte)

section
variable (unpaired : List UInt16 → Error)

/-- `btoa`. -/
def encodeBinaryString (value : Text) : Except Error Text := do
  if value.any (·.toNat > 255) then
    .error ⟨"btoa input contains a character outside the byte range"⟩
  else decodeBytes unpaired (← encodeBytes value "latin1".toList) "base64".toList

def isSpace (byte : Byte) : Bool := byte == 9 || byte == 10 || byte == 12 || byte == 13 || byte == 32

/-- `text[byte=:limit]`. -/
def bytePrefix (limit : Nat) : Text → Text
  | [] => []
  | c :: rest =>
    if (String.utf8EncodeChar c).length ≤ limit then
      c :: bytePrefix (limit - (String.utf8EncodeChar c).length) rest
    else []

/-- One padding byte less. -/
def trimEnd (bytes : List Byte) (last : Nat) : Nat :=
  if last > 0 ∧ bytes.getD (last - 1) 0 = 61 then last - 1 else last

/-- Where the digits end: before the padding of a text of whole groups. -/
def digitsEnd (bytes : List Byte) : Nat :=
  if bytes.length % 4 = 0 then trimEnd bytes (trimEnd bytes bytes.length) else bytes.length

/-- `atob`. -/
def decodeBinaryString (value : Text) : Except Error Text := do
  let compact : Text :=
    ((asBytes value).filter fun byte => !isSpace byte).map fun byte => Char.ofNat byte.toNat
  let bytes := asBytes compact
  let last := digitsEnd bytes
  if last % 4 = 1 then .error ⟨"atob input has an invalid encoded length"⟩
  else if (bytes.take last).any fun byte => base64Digit byte < 0 || byte == 45 || byte == 95 then
    .error ⟨"atob input contains an invalid base64 character"⟩
  else decodeBytes unpaired (← encodeBytes (bytePrefix last compact) "base64".toList) "latin1".toList

end

/-! ## The grammar -/

def isWhiteSpace (c : Char) : Bool := ['\t', '\n', '\x0c', '\r', ' '].contains c

/-- The text without the white space in it. -/
def stripped (value : Text) : Text := value.filter fun c => !isWhiteSpace c

def trimOne (text : Text) : Text := if text.getLast? = some '=' then text.dropLast else text

/-- The text without one or two padding characters, where it is one of whole groups. -/
def unpadded (text : Text) : Text := if text.length % 4 = 0 then trimOne (trimOne text) else text

/-- What is base64, forgivingly. -/
def Accepts (value : Text) : Prop :=
  (unpadded (stripped value)).length % 4 ≠ 1 ∧ ∀ c ∈ unpadded (stripped value), c ∈ base64Digits

/-- The bytes of a text that is accepted, as characters. -/
def binaryText (value : Text) : Text :=
  decodeScalars .latin1 (pack ((unpadded (stripped value)).map base64Digits.idxOf))

theorem trimOne_padding (text : Text) : ∃ count, text = trimOne text ++ List.replicate count '=' := by
  unfold trimOne
  by_cases hlast : text.getLast? = some '='
  · rw [if_pos hlast]
    exact ⟨1, (List.dropLast_append_getLast? '=' hlast).symm⟩
  · rw [if_neg hlast]
    exact ⟨0, (List.append_nil text).symm⟩

/-- What is taken off is padding. -/
theorem unpadded_padding (text : Text) : ∃ count, text = unpadded text ++ List.replicate count '=' := by
  unfold unpadded
  split
  · obtain ⟨one, hone⟩ := trimOne_padding text
    obtain ⟨two, htwo⟩ := trimOne_padding (trimOne text)
    refine ⟨two + one, ?_⟩
    rw [List.replicate_add, ← List.append_assoc, ← htwo, ← hone]
  · exact ⟨0, (List.append_nil text).symm⟩

theorem trimEnd_padding {bytes : List Byte} {last : Nat} (h : last ≤ bytes.length) :
    trimEnd bytes last ≤ bytes.length ∧
      ∀ byte ∈ bytes.take last, byte = 61 ∨ byte ∈ bytes.take (trimEnd bytes last) := by
  unfold trimEnd
  by_cases hlast : last > 0 ∧ bytes.getD (last - 1) 0 = 61
  · rw [if_pos hlast]
    refine ⟨by omega, fun byte hbyte => ?_⟩
    obtain ⟨place, rfl⟩ : ∃ place, last = place + 1 := ⟨last - 1, by omega⟩
    rw [List.take_succ_eq_append_getElem (by omega), List.mem_append, List.mem_singleton] at hbyte
    obtain hbyte | rfl := hbyte
    · exact .inr hbyte
    · left
      rw [← hlast.2, Nat.add_sub_cancel, List.getD_eq_getElem?_getD,
        List.getElem?_eq_getElem (by omega)]
      rfl
  · rw [if_neg hlast]
    exact ⟨h, fun byte hbyte => .inr hbyte⟩

theorem digitsEnd_padding (bytes : List Byte) :
    ∀ byte ∈ bytes, byte = 61 ∨ byte ∈ bytes.take (digitsEnd bytes) := by
  intro byte hbyte
  unfold digitsEnd
  split
  · obtain ⟨hone, hfirst⟩ := trimEnd_padding (Nat.le_refl bytes.length)
    obtain ⟨-, hsecond⟩ := trimEnd_padding hone
    rw [List.take_length] at hfirst
    obtain heq | hbyte := hfirst byte hbyte
    · exact .inl heq
    · exact hsecond byte hbyte
  · rw [List.take_length]
    exact .inr hbyte

/-! ## ASCII texts -/

/-- The byte of an ASCII character. -/
def code (c : Char) : Byte := UInt8.ofNat c.toNat

/-- What the checks make of an ASCII character is what they make of its byte. -/
abbrev AsciiChar (c : Char) : Prop :=
  isSpace (code c) = isWhiteSpace c ∧ Char.ofNat (code c).toNat = c ∧ (code c = 61 ↔ c = '=') ∧
    (decide (base64Digit (code c) < 0) || code c == 45 || code c == 95) = !base64Digits.contains c

theorem ascii_table {c : Char} (hc : c.toNat < 128) : AsciiChar c := by
  have htable : ∀ n : Fin 128, AsciiChar (Char.ofNat n) := by decide +kernel
  have hchar := htable ⟨c.toNat, hc⟩
  rwa [Char.ofNat_toNat] at hchar

theorem code_digit {c : Char} (hc : c.toNat < 128) :
    (decide (base64Digit (code c) < 0) || code c == 45 || code c == 95) = !base64Digits.contains c :=
  (ascii_table hc).2.2.2

section
variable {text : Text}

theorem compact_ascii (h : ∀ c ∈ text, c.toNat < 128) :
    ((asBytes text).filter fun byte => !isSpace byte).map (fun byte => Char.ofNat byte.toNat) =
      stripped text := by
  rw [asBytes_ascii text h]
  induction text with
  | nil => rfl
  | cons c text ih =>
    have hc := h c List.mem_cons_self
    have ih := ih fun d hd => h d (List.mem_cons_of_mem c hd)
    have hspace : isSpace (UInt8.ofNat c.toNat) = isWhiteSpace c := (ascii_table hc).1
    rw [List.map_cons, stripped]
    cases hwhite : isWhiteSpace c with
    | true =>
      rw [List.filter_cons_of_neg (by rw [hspace, hwhite]; decide),
        List.filter_cons_of_neg (by rw [hwhite]; decide)]
      exact ih
    | false =>
      rw [List.filter_cons_of_pos (by rw [hspace, hwhite]; decide),
        List.filter_cons_of_pos (by rw [hwhite]; decide), List.map_cons]
      have hchar : Char.ofNat (UInt8.ofNat c.toNat).toNat = c := (ascii_table hc).2.1
      rw [hchar]
      exact congrArg (c :: ·) ih

theorem bytePrefix_ascii (h : ∀ c ∈ text, c.toNat < 128) (limit : Nat) :
    bytePrefix limit text = text.take limit := by
  induction text generalizing limit with
  | nil => exact List.take_nil.symm
  | cons c text ih =>
    have hone : (String.utf8EncodeChar c).length = 1 := by
      rw [utf8_ascii (h c List.mem_cons_self)]
      rfl
    rw [bytePrefix, hone]
    cases limit with
    | zero => rfl
    | succ limit =>
      rw [if_pos (Nat.succ_le_succ (Nat.zero_le limit)), List.take_succ_cons,
        ih fun d hd => h d (List.mem_cons_of_mem c hd)]
      rfl

theorem trimEnd_ascii (h : ∀ c ∈ text, c.toNat < 128) {last : Nat} (hlast : last ≤ text.length) :
    trimOne (text.take last) = text.take (trimEnd (text.map code) last) := by
  cases last with
  | zero => rfl
  | succ place =>
    have hplace : place < text.length := hlast
    have hcode : (text.map code).getD place 0 = code text[place] := by
      rw [List.getD_eq_getElem?_getD, List.getElem?_map, List.getElem?_eq_getElem hplace]
      rfl
    have hget : (text.take (place + 1)).getLast? = some text[place] := by
      rw [List.take_succ_eq_append_getElem hplace, List.getLast?_concat]
    have hsame := (ascii_table (h text[place] (List.getElem_mem hplace))).2.2.1
    unfold trimOne trimEnd
    rw [hget, Nat.add_sub_cancel, hcode]
    by_cases hpadding : text[place] = '='
    · rw [if_pos (congrArg some hpadding), if_pos ⟨Nat.succ_pos place, hsame.mpr hpadding⟩,
        List.take_succ_eq_append_getElem hplace, List.dropLast_concat]
    · rw [if_neg (fun heq => hpadding (Option.some.inj heq)),
        if_neg (fun hbyte => hpadding (hsame.mp hbyte.2))]

theorem digitsEnd_ascii (h : ∀ c ∈ text, c.toNat < 128) :
    text.take (digitsEnd (text.map code)) = unpadded text ∧ digitsEnd (text.map code) ≤ text.length := by
  have hlength : (text.map code).length = text.length := List.length_map _
  unfold digitsEnd unpadded
  rw [hlength]
  by_cases hgroups : text.length % 4 = 0
  · rw [if_pos hgroups, if_pos hgroups]
    have hone := (trimEnd_padding (Nat.le_of_eq hlength.symm)).1
    have htwo := (trimEnd_padding hone).1
    rw [hlength] at hone htwo
    refine ⟨?_, htwo⟩
    rw [← trimEnd_ascii h hone, ← trimEnd_ascii h (Nat.le_refl _), List.take_length]
  · rw [if_neg hgroups, if_neg hgroups, List.take_length]
    exact ⟨rfl, Nat.le_refl _⟩

end

/-! ## What is accepted -/

section
variable {unpaired : List UInt16 → Error} {value : Text}

theorem digitChar_idxOf {c : Char} (h : c ∈ base64Digits) :
    digitChar (base64Digits.idxOf c) = c ∧ base64Digits.idxOf c < 64 := by
  have hlt : base64Digits.idxOf c < base64Digits.length := List.idxOf_lt_length_of_mem h
  refine ⟨?_, hlt⟩
  unfold digitChar
  rw [List.getD_eq_getElem?_getD, List.getElem?_eq_getElem hlt, List.getElem_idxOf hlt]
  rfl

theorem mem_stripped {c : Char} : c ∈ stripped value ↔ c ∈ value ∧ isWhiteSpace c = false := by
  unfold stripped
  rw [List.mem_filter, Bool.not_eq_true']

/-- The digits of an accepted text are read as the bytes they pack. -/
theorem encodeBytes_digits {digits : Text} (h : ∀ c ∈ digits, c ∈ base64Digits) :
    encodeBytes digits "base64".toList = .ok (pack (digits.map base64Digits.idxOf)) := by
  have hdigits : ∀ digit ∈ digits.map base64Digits.idxOf, digit < 64 := by
    intro digit hdigit
    obtain ⟨c, hc, rfl⟩ := List.mem_map.mp hdigit
    exact (digitChar_idxOf (h c hc)).2
  have hwritten : (digits.map base64Digits.idxOf).map digitChar = digits := by
    rw [List.map_map]
    exact (List.map_congr_left fun c hc => (digitChar_idxOf (h c hc)).1).trans (List.map_id digits)
  have hpack := encodeBase64_digits alphabet_digitChar hdigits 0
  rw [List.replicate_zero, List.append_nil, hwritten] at hpack
  have hname : encodingName "base64".toList = .ok .base64 := encodingName_name .base64
  rw [encodeBytes_eq hname]
  exact congrArg Except.ok hpack

theorem decodeBytes_latin1 (bytes : List Byte) :
    decodeBytes unpaired bytes "latin1".toList = .ok (decodeScalars .latin1 bytes) :=
  (decodeBytes_eq unpaired (encodingName_name .latin1)).mpr rfl

/-- On ASCII texts the checks are those of the grammar. -/
theorem decodeBinaryString_ascii (h : ∀ c ∈ value, c.toNat < 128) :
    decodeBinaryString unpaired value =
      if (unpadded (stripped value)).length % 4 = 1 then .error ⟨"atob input has an invalid encoded length"⟩
      else if (unpadded (stripped value)).any fun c => !base64Digits.contains c then
        .error ⟨"atob input contains an invalid base64 character"⟩
      else .ok (binaryText value) := by
  have hascii : ∀ c ∈ stripped value, c.toNat < 128 := fun c hc => h c (mem_stripped.mp hc).1
  have hbytes : asBytes (stripped value) = (stripped value).map code := asBytes_ascii _ hascii
  obtain ⟨htake, hle⟩ := digitsEnd_ascii hascii
  have hlast : digitsEnd ((stripped value).map code) = (unpadded (stripped value)).length := by
    rw [← htake, List.length_take, Nat.min_eq_left hle]
  have hchecked : ((stripped value).map code).take (unpadded (stripped value)).length =
      (unpadded (stripped value)).map code := by
    rw [← hlast, ← List.map_take, htake]
  have hsub : ∀ c ∈ unpadded (stripped value), c.toNat < 128 := fun c hc => by
    rw [← htake] at hc
    exact hascii c (List.mem_of_mem_take hc)
  have hany : ((unpadded (stripped value)).map code).any
      (fun byte => base64Digit byte < 0 || byte == 45 || byte == 95) =
        (unpadded (stripped value)).any fun c => !base64Digits.contains c := by
    generalize unpadded (stripped value) = digits at hsub
    induction digits with
    | nil => rfl
    | cons c digits ih =>
      rw [List.map_cons, List.any_cons, List.any_cons, code_digit (hsub c List.mem_cons_self),
        ih fun d hd => hsub d (List.mem_cons_of_mem c hd)]
  unfold decodeBinaryString
  dsimp only
  have htext : bytePrefix (unpadded (stripped value)).length (stripped value) = unpadded (stripped value) := by
    rw [bytePrefix_ascii hascii, ← hlast, htake]
  rw [compact_ascii h, hbytes, hlast, hchecked, hany, htext]
  by_cases hlength : (unpadded (stripped value)).length % 4 = 1
  · rw [if_pos hlength, if_pos hlength]
  rw [if_neg hlength, if_neg hlength]
  by_cases hforeign : ((unpadded (stripped value)).any fun c => !base64Digits.contains c) = true
  · rw [if_pos hforeign, if_pos hforeign]
  · rw [if_neg hforeign, if_neg hforeign]
    have hdigits : ∀ c ∈ unpadded (stripped value), c ∈ base64Digits := fun c hc => by
      by_contra hout
      refine hforeign (List.any_eq_true.mpr ⟨c, hc, ?_⟩)
      rw [Bool.not_eq_true', ← Bool.not_eq_true, List.contains_iff_mem]
      exact hout
    rw [encodeBytes_digits hdigits]
    show decodeBytes unpaired _ "latin1".toList = _
    exact decodeBytes_latin1 _

theorem base64Digit_high {byte : Byte} (h : 128 ≤ byte.toNat) :
    base64Digit byte < 0 ∧ isSpace byte = false ∧ byte ≠ 61 ∧ 128 ≤ (Char.ofNat byte.toNat).toNat :=
  forall_byte
    (motive := fun byte => 128 ≤ byte.toNat →
      base64Digit byte < 0 ∧ isSpace byte = false ∧ byte ≠ 61 ∧ 128 ≤ (Char.ofNat byte.toNat).toNat)
    (by decide +kernel) byte h

theorem utf8_nonempty (c : Char) : ∃ byte, byte ∈ String.utf8EncodeChar c := by
  have hlength : 0 < (String.utf8EncodeChar c).length := by
    rw [String.length_utf8EncodeChar]
    exact Char.utf8Size_pos c
  exact List.exists_mem_of_length_pos hlength

/-- A character outside ASCII is no digit wherever it stands. -/
theorem decodeBinaryString_foreign {c : Char} (hc : c ∈ value) (hhigh : 128 ≤ c.toNat) :
    ∃ error, decodeBinaryString unpaired value = .error error := by
  -- one of its bytes is a character of the compact text, and so one of that one's bytes is left
  obtain ⟨byte, hbyte⟩ := utf8_nonempty c
  have hbytehigh := utf8_high hhigh byte hbyte
  obtain ⟨-, hspace, -, hchar⟩ := base64Digit_high hbytehigh
  obtain ⟨last, hlast⟩ := utf8_nonempty (Char.ofNat byte.toNat)
  have hlasthigh := utf8_high hchar last hlast
  obtain ⟨hdigit, -, hpadding, -⟩ := base64Digit_high hlasthigh
  unfold decodeBinaryString
  dsimp only
  generalize hcompact : ((asBytes value).filter fun byte => !isSpace byte).map
    (fun byte => Char.ofNat byte.toNat) = compact
  have hmem : Char.ofNat byte.toNat ∈ compact := by
    rw [← hcompact]
    refine List.mem_map.mpr ⟨byte, List.mem_filter.mpr ⟨List.mem_flatMap.mpr ⟨c, hc, hbyte⟩, ?_⟩, rfl⟩
    rw [hspace]
    rfl
  have hkept : last ∈ (asBytes compact).take (digitsEnd (asBytes compact)) :=
    (digitsEnd_padding _ last (List.mem_flatMap.mpr ⟨_, hmem, hlast⟩)).resolve_left hpadding
  have hany : ((asBytes compact).take (digitsEnd (asBytes compact))).any
      (fun byte => base64Digit byte < 0 || byte == 45 || byte == 95) = true := by
    refine List.any_eq_true.mpr ⟨last, hkept, ?_⟩
    rw [decide_eq_true hdigit]
    rfl
  by_cases hlength : digitsEnd (asBytes compact) % 4 = 1
  · rw [if_pos hlength]
    exact ⟨_, rfl⟩
  · rw [if_neg hlength, if_pos hany]
    exact ⟨_, rfl⟩

theorem not_accepts_foreign {c : Char} (hc : c ∈ value) (hhigh : 128 ≤ c.toNat) : ¬ Accepts value := by
  have hspace : isWhiteSpace c = false := by
    by_contra hwhite
    rw [Bool.not_eq_false] at hwhite
    have hmem : c ∈ ['\t', '\n', '\x0c', '\r', ' '] := List.contains_iff_mem.mp hwhite
    have hsmall : ['\t', '\n', '\x0c', '\r', ' '].all (·.toNat < 128) = true := by decide
    exact absurd (of_decide_eq_true (List.all_eq_true.mp hsmall c hmem)) (Nat.not_lt.mpr hhigh)
  rintro ⟨-, hdigits⟩
  obtain ⟨count, hpadding⟩ := unpadded_padding (stripped value)
  have hstripped := mem_stripped.mpr ⟨hc, hspace⟩
  rw [hpadding, List.mem_append] at hstripped
  obtain hkept | hequals := hstripped
  · obtain ⟨hchar, hlt⟩ := digitChar_idxOf (hdigits c hkept)
    have hascii := (alphabet_digitChar _ hlt).1
    rw [hchar] at hascii
    omega
  · rw [List.eq_of_mem_replicate hequals] at hhigh
    exact absurd hhigh (by decide)

/-- Exactly the texts of the grammar are decoded. -/
theorem decodeBinaryString_spec (unpaired : List UInt16 → Error) (value : Text) :
    (Accepts value → decodeBinaryString unpaired value = .ok (binaryText value)) ∧
      (¬ Accepts value → ∃ error, decodeBinaryString unpaired value = .error error) := by
  by_cases hascii : ∀ c ∈ value, c.toNat < 128
  · rw [decodeBinaryString_ascii hascii]
    constructor
    · rintro ⟨hlength, hdigits⟩
      have hforeign : ¬ ((unpadded (stripped value)).any fun c => !base64Digits.contains c) = true := by
        intro hany
        obtain ⟨c, hc, hout⟩ := List.any_eq_true.mp hany
        rw [Bool.not_eq_true', ← Bool.not_eq_true, List.contains_iff_mem] at hout
        exact hout (hdigits c hc)
      rw [if_neg hlength, if_neg hforeign]
    · intro hnot
      split
      · exact ⟨_, rfl⟩
      · rename_i hlength
        have hforeign : ((unpadded (stripped value)).any fun c => !base64Digits.contains c) = true := by
          by_contra hnone
          refine hnot ⟨hlength, fun c hc => ?_⟩
          by_contra hout
          refine hnone (List.any_eq_true.mpr ⟨c, hc, ?_⟩)
          rw [Bool.not_eq_true', ← Bool.not_eq_true, List.contains_iff_mem]
          exact hout
        rw [if_pos hforeign]
        exact ⟨_, rfl⟩
  · simp only [not_forall, Nat.not_lt] at hascii
    obtain ⟨c, hc, hhigh⟩ := hascii
    exact ⟨fun haccepts => absurd haccepts (not_accepts_foreign hc hhigh),
      fun _ => decodeBinaryString_foreign hc hhigh⟩

end

/-! ## There and back -/

theorem trimOne_replicate (text : Text) (count : Nat) :
    trimOne (text ++ List.replicate (count + 1) '=') = text ++ List.replicate count '=' := by
  unfold trimOne
  rw [List.replicate_succ', ← List.append_assoc, List.getLast?_concat, if_pos rfl, List.dropLast_concat]

theorem trimOne_digits {digits : List Nat} (h : ∀ digit ∈ digits, digit < 64) :
    trimOne (digits.map digitChar) = digits.map digitChar := by
  unfold trimOne
  refine if_neg fun hlast => suffix_digits alphabet_digitChar h ?_
  exact ⟨_, List.dropLast_append_getLast? '=' hlast⟩

/-- The padding of written bytes is taken off, and nothing else. -/
theorem unpadded_b64encode (bytes : List Byte) :
    unpadded (stripped (b64encode bytes)) = (unpack bytes).map digitChar := by
  have hdigits := unpack_lt bytes
  have hwhite : ∀ digit < 64, isWhiteSpace (digitChar digit) = false := by decide +kernel
  have hstripped : stripped (b64encode bytes) = b64encode bytes := by
    refine List.filter_eq_self.mpr fun c hc => ?_
    rw [b64encode_eq, List.mem_append] at hc
    obtain hc | hc := hc
    · obtain ⟨digit, hdigit, rfl⟩ := List.mem_map.mp hc
      rw [hwhite digit (hdigits digit hdigit)]
      rfl
    · rw [List.eq_of_mem_replicate hc]
      rfl
  have hgroups : (b64encode bytes).length % 4 = 0 := by
    rw [b64encode_eq, List.length_append, List.length_map, List.length_replicate, length_unpack]
    unfold padding
    obtain hrest | hrest | hrest : bytes.length % 3 = 0 ∨ bytes.length % 3 = 1 ∨ bytes.length % 3 = 2 := by
      omega
    all_goals
      rw [hrest]
      omega
  rw [hstripped, unpadded, if_pos hgroups, b64encode_eq]
  obtain hcount | hcount | hcount : padding bytes = 0 ∨ padding bytes = 1 ∨ padding bytes = 2 := by
    unfold padding
    omega
  · rw [hcount, List.replicate_zero, List.append_nil, trimOne_digits hdigits, trimOne_digits hdigits]
  · rw [hcount, trimOne_replicate, List.replicate_zero, List.append_nil, trimOne_digits hdigits]
  · rw [hcount, trimOne_replicate, trimOne_replicate, List.replicate_zero, List.append_nil]

theorem accepts_b64encode (bytes : List Byte) :
    Accepts (b64encode bytes) ∧ binaryText (b64encode bytes) = decodeScalars .latin1 bytes := by
  have hdigits := unpack_lt bytes
  have hidx : ((unpack bytes).map digitChar).map base64Digits.idxOf = unpack bytes := by
    rw [List.map_map]
    exact (List.map_congr_left fun digit h => (digit_table ⟨digit, hdigits digit h⟩).2.2.2.2).trans (List.map_id _)
  unfold Accepts binaryText
  rw [unpadded_b64encode, hidx, pack_unpack]
  refine ⟨⟨?_, fun c hc => ?_⟩, rfl⟩
  · rw [List.length_map, length_unpack]
    omega
  · obtain ⟨digit, hdigit, rfl⟩ := List.mem_map.mp hc
    exact (digit_table ⟨digit, hdigits digit hdigit⟩).2.2.2.1

theorem encodeBinaryString_bytes (unpaired : List UInt16 → Error) {value : Text}
    (h : ∀ c ∈ value, c.toNat < 256) :
    encodeBinaryString unpaired value = .ok (b64encode (value.map code)) ∧
      decodeScalars .latin1 (value.map code) = value := by
  have hchar : ∀ c ∈ value, Char.ofNat (code c).toNat = c := fun c hc => by
    have hlt := h c hc
    unfold code
    rw [UInt8.toNat_ofNat_of_lt' hlt, Char.ofNat_toNat]
  have hback : decodeScalars .latin1 (value.map code) = value := by
    unfold decodeScalars
    rw [List.map_map]
    exact (List.map_congr_left fun c hc => hchar c hc).trans (List.map_id value)
  refine ⟨?_, hback⟩
  have hlatin1 : encodingName "latin1".toList = .ok .latin1 := encodingName_name .latin1
  have hbase64 : encodingName "base64".toList = .ok .base64 := encodingName_name .base64
  have hencoded : encoded .latin1 value = value.map code := by
    have hunits := encodeUnits_latin1 (value.map code)
    rw [hback] at hunits
    exact hunits
  have hbytes : value.any (·.toNat > 255) = false := by
    refine List.any_eq_false.mpr fun c hc => ?_
    rw [decide_eq_true_eq]
    have := h c hc
    omega
  unfold encodeBinaryString
  rw [if_neg (by rw [hbytes]; decide), encodeBytes_eq hlatin1, hencoded]
  show decodeBytes unpaired _ "base64".toList = _
  exact (decodeBytes_eq unpaired hbase64).mpr rfl

/-- `atob` decodes exactly what is base64, forgivingly, and undoes `btoa`. -/
theorem atob_spec (unpaired : List UInt16 → Error) :
    (∀ value, Accepts value → decodeBinaryString unpaired value = .ok (binaryText value)) ∧
    (∀ value, ¬ Accepts value → ∃ error, decodeBinaryString unpaired value = .error error) ∧
    (∀ value : Text, (∀ c ∈ value, c.toNat < 256) →
      ∃ written, encodeBinaryString unpaired value = .ok written ∧
        decodeBinaryString unpaired written = .ok value) := by
  refine ⟨fun value => (decodeBinaryString_spec unpaired value).1,
    fun value => (decodeBinaryString_spec unpaired value).2, fun value hvalue => ?_⟩
  obtain ⟨hwritten, hback⟩ := encodeBinaryString_bytes unpaired hvalue
  obtain ⟨haccepts, htext⟩ := accepts_b64encode (value.map code)
  refine ⟨_, hwritten, ?_⟩
  rw [(decodeBinaryString_spec unpaired _).1 haccepts, htext, hback]

/-- White space in the middle, and padding. -/
theorem atob_spec_spaced :
    decodeBinaryString (fun _ => ⟨""⟩) "Z g\n==".toList = .ok "f".toList := by
  have hdigits : unpadded (stripped "Z g\n==".toList) = ['Z', 'g'] := by decide
  have hall : ['Z', 'g'].all base64Digits.contains = true := by decide
  have haccepts : Accepts "Z g\n==".toList := by
    unfold Accepts
    rw [hdigits]
    exact ⟨by decide, fun c hc => List.contains_iff_mem.mp (List.all_eq_true.mp hall c hc)⟩
  have htext : binaryText "Z g\n==".toList = "f".toList := by decide
  rw [← htext]
  exact (atob_spec fun _ => ⟨""⟩).1 "Z g\n==".toList haccepts

end TsonicNode.Buffer.Encoder
