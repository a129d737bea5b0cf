import TsonicNode.Lib.Words
import TsonicNode.Buffer.Ranges

/-!
# Numbers in buffers

`writeUint` stores the bytes of a word and `readUint` gathers them again; the
whole numbers of one, two and four bytes go through `writeNumber`, which checks
their range, and the floating forms store their bits. The functions of each
width and order are these at their own values (`Form`). `numeric_access` says
that what is written is read, and that nothing else changes.
-/

namespace TsonicNode.Allocation

open TsonicNode.Lib

/-! ## Reading and writing -/

/-- Below the one bound or above the other, as a comparison of doubles has it. -/
def outside (low high : ℚ) : Number → Bool
  | .nan => false
  | .infinity _ => true
  | .finite value => value < low ∨ value > high

namespace Buffer

/-- The offset of so many bytes. -/
def checkedOffset (buffer : Buffer) (offset : Number) (width : Nat) : Action Nat :=
  checkedInteger offset ((buffer.length - width : Int) : ℚ) "offset"

def readUint (buffer : Buffer) (offset : Number) (width : Nat) (little : Bool) : Action (BitVec 64) := do
  let first ← buffer.checkedOffset offset width
  let memory ← get
  return Words.gather width little fun index => memory.byte buffer.storage (buffer.offset + first + index)

/-- With the sign of the uppermost bit, in two's complement. -/
def readInt (buffer : Buffer) (offset : Number) (width : Nat) (little : Bool) : Action (BitVec 64) := do
  let value ← buffer.readUint offset width little
  let bits := width * 8
  if bits < 64 ∧ value &&& 1#64 <<< (bits - 1) ≠ 0#64 then return value - 1#64 <<< bits
  else return value

def writeUint (buffer : Buffer) (value : BitVec 64) (offset : Number) (width : Nat) (little : Bool) :
    Action Unit := do
  let first ← buffer.checkedOffset offset width
  modify ((List.range width).foldl (storeByte buffer.storage (buffer.offset + first) fun index =>
    Words.part value (Words.shift width little index)))

def writeNumber (buffer : Buffer) (value offset : Number) (width : Nat) (little signed : Bool) : Action Unit := do
  let bits := width * 8 - if signed then 1 else 0
  let limit := 1#64 <<< bits
  let minimum := if signed then -limit else 0#64
  if outside minimum.toInt (limit - 1#64).toInt value then
    throw ⟨"Buffer numeric value is outside the valid range"⟩
  buffer.writeUint (BitVec.ofNat 64 value.toUint32) offset width little

/-- The whole number of so many bytes, with its sign or without one. -/
def readNumber (buffer : Buffer) (offset : Number) (width : Nat) (little signed : Bool) : Action Number := do
  if signed then return .finite (← buffer.readInt offset width little).toInt
  else return .finite (← buffer.readUint offset width little).toNat

/-- The bits of a number stand for it. -/
def writeFloat (buffer : Buffer) (bits : BitVec 32) (offset : Number) (little : Bool) : Action Unit :=
  buffer.writeUint (bits.setWidth 64) offset 4 little

def readFloat (buffer : Buffer) (offset : Number) (little : Bool) : Action (BitVec 32) := do
  return (← buffer.readUint offset 4 little).setWidth 32

def writeDouble (buffer : Buffer) (bits : BitVec 64) (offset : Number) (little : Bool) : Action Unit :=
  buffer.writeUint bits offset 8 little

def readDouble (buffer : Buffer) (offset : Number) (little : Bool) : Action (BitVec 64) :=
  buffer.readUint offset 8 little

/-! ### The functions of each width -/

section
variable (buffer : Buffer)

def readUint8 (offset : Number := 0) : Action Number := buffer.readNumber offset 1 true false

def readInt8 (offset : Number := 0) : Action Number := buffer.readNumber offset 1 true true

def readUint16Le (offset : Number := 0) : Action Number := buffer.readNumber offset 2 true false

def readUint16Be (offset : Number := 0) : Action Number := buffer.readNumber offset 2 false false

def readInt16Le (offset : Number := 0) : Action Number := buffer.readNumber offset 2 true true

def readInt16Be (offset : Number := 0) : Action Number := buffer.readNumber offset 2 false true

def readUint32Le (offset : Number := 0) : Action Number := buffer.readNumber offset 4 true false

def readUint32Be (offset : Number := 0) : Action Number := buffer.readNumber offset 4 false false

def readInt32Le (offset : Number := 0) : Action Number := buffer.readNumber offset 4 true true

def readInt32Be (offset : Number := 0) : Action Number := buffer.readNumber offset 4 false true

def readFloatLe (offset : Number := 0) : Action (BitVec 32) := buffer.readFloat offset true

def readFloatBe (offset : Number := 0) : Action (BitVec 32) := buffer.readFloat offset false

def readDoubleLe (offset : Number := 0) : Action (BitVec 64) := buffer.readDouble offset true

def readDoubleBe (offset : Number := 0) : Action (BitVec 64) := buffer.readDouble offset false

/-- The offset behind a number of so many bytes, once it is written. -/
def behind (offset : Number) (width : Nat) (write : Action Unit) : Action Number := do
  write
  return offset.plus width

def writeUint8 (value : Number) (offset : Number := 0) : Action Number :=
  behind offset 1 (buffer.writeNumber value offset 1 true false)

def writeInt8 (value : Number) (offset : Number := 0) : Action Number :=
  behind offset 1 (buffer.writeNumber value offset 1 true true)

def writeUint16Le (value : Number) (offset : Number := 0) : Action Number :=
  behind offset 2 (buffer.writeNumber value offset 2 true false)

def writeUint16Be (value : Number) (offset : Number := 0) : Action Number :=
  behind offset 2 (buffer.writeNumber value offset 2 false false)

def writeInt16Le (value : Number) (offset : Number := 0) : Action Number :=
  behind offset 2 (buffer.writeNumber value offset 2 true true)

def writeInt16Be (value : Number) (offset : Number := 0) : Action Number :=
  behind offset 2 (buffer.writeNumber value offset 2 false true)

def writeUint32Le (value : Number) (offset : Number := 0) : Action Number :=
  behind offset 4 (buffer.writeNumber value offset 4 true false)

def writeUint32Be (value : Number) (offset : Number := 0) : Action Number :=
  behind offset 4 (buffer.writeNumber value offset 4 false false)

def writeInt32Le (value : Number) (offset : Number := 0) : Action Number :=
  behind offset 4 (buffer.writeNumber value offset 4 true true)

def writeInt32Be (value : Number) (offset : Number := 0) : Action Number :=
  behind offset 4 (buffer.writeNumber value offset 4 false true)

def writeFloatLe (bits : BitVec 32) (offset : Number := 0) : Action Number :=
  behind offset 4 (buffer.writeFloat bits offset true)

def writeFloatBe (bits : BitVec 32) (offset : Number := 0) : Action Number :=
  behind offset 4 (buffer.writeFloat bits offset false)

def writeDoubleLe (bits : BitVec 64) (offset : Number := 0) : Action Number :=
  behind offset 8 (buffer.writeDouble bits offset true)

def writeDoubleBe (bits : BitVec 64) (offset : Number := 0) : Action Number :=
  behind offset 8 (buffer.writeDouble bits offset false)

end

/-- The bytes of a number. -/
def window (buffer : Buffer) (first width : Nat) : Buffer := ⟨buffer.storage, buffer.offset + first, width⟩

end Buffer

/-! ## Outcomes -/

/-- An offset with room behind it. -/
def Room (buffer : Buffer) (offset : Number) (width : Nat) : Prop :=
  ∃ first : Nat, offset = .finite first ∧ first + width ≤ buffer.length

section
variable {memory : Memory} {buffer : Buffer} {width : Nat}

theorem natCast_le_room {first : Nat} :
    (first : ℚ) ≤ ((buffer.length - width : Int) : ℚ) ↔ first + width ≤ buffer.length := by
  rw [← Int.cast_natCast first, Int.cast_le]
  omega

theorem checkedOffset_run {first : Nat} (h : first + width ≤ buffer.length) :
    buffer.checkedOffset (.finite first) width memory = .ok first memory :=
  checkedInteger_ok (natCast_le_room.mpr h) "offset"

theorem checkedOffset_error {offset : Number} (h : ¬ Room buffer offset width) :
    ∃ error, buffer.checkedOffset offset width memory = .error error memory := by
  refine checkedInteger_error ?_ "offset"
  rintro ⟨first, hoffset, hroom⟩
  exact h ⟨first, hoffset, natCast_le_room.mp hroom⟩

theorem Placed.window (h : Placed memory buffer) {first : Nat} (hroom : first + width ≤ buffer.length) :
    Placed memory (buffer.window first width) := by
  have := h.fits
  exact ⟨h.storage, by dsimp only [Buffer.window]; omega⟩

/-- A write stores the bytes of the word. -/
theorem writeUint_run (h : Placed memory buffer) {first : Nat} (hroom : first + width ≤ buffer.length)
    (value : BitVec 64) (little : Bool) :
    buffer.writeUint value (.finite first) width little memory =
      .ok ⟨⟩ (memory.overlay buffer.storage (buffer.offset + first) (Words.bytes width little value)) := by
  have hfits : buffer.offset + first + width ≤ memory.size buffer.storage := (h.window hroom).fits
  unfold Buffer.writeUint
  rw [bind_run, checkedOffset_run hroom]
  dsimp only
  rw [modify_run, stores_overlay hfits]
  rfl

theorem writeUint_error {offset : Number} (h : ¬ Room buffer offset width) (value : BitVec 64) (little : Bool) :
    ∃ error, buffer.writeUint value offset width little memory = .error error memory := by
  obtain ⟨error, hrun⟩ := @checkedOffset_error memory buffer width offset h
  refine ⟨error, ?_⟩
  unfold Buffer.writeUint
  rw [bind_run, hrun]

theorem readUint_run {first : Nat} (hroom : first + width ≤ buffer.length) (little : Bool) :
    buffer.readUint (.finite first) width little memory =
      .ok (Words.gather width little fun index => memory.byte buffer.storage (buffer.offset + first + index))
        memory := by
  unfold Buffer.readUint
  rw [bind_run, checkedOffset_run hroom]
  rfl

/-- What was written is read, as far as its bytes go. -/
theorem readUint_written (h : Placed memory buffer) (hwidth : width ≤ 8) {first : Nat}
    (hroom : first + width ≤ buffer.length) (value : BitVec 64) (little : Bool) :
    let memory' := memory.overlay buffer.storage (buffer.offset + first) (Words.bytes width little value)
    buffer.readUint (.finite first) width little memory' =
      .ok ((value.setWidth (8 * width)).setWidth 64) memory' := by
  intro memory'
  rw [readUint_run hroom, ← Words.gather_eq hwidth little value]
  congr 1
  refine Words.gather_congr fun index hindex => ?_
  have hfits : buffer.offset + first + (Words.bytes width little value).length ≤ memory.size buffer.storage := by
    rw [Words.length_bytes]
    exact (h.window hroom).fits
  rw [Memory.byte_overlay hfits, if_pos, Nat.add_sub_cancel_left,
    Words.getD_bytes hindex]
  rw [Words.length_bytes]
  exact ⟨rfl, Nat.le_add_right _ _, by omega⟩

end

/-! ## Whole numbers -/

/-- The bounds of the whole numbers of a width. -/
def lowest (width : Nat) (signed : Bool) : Int := if signed then -2 ^ (8 * width - 1) else 0

def highest (width : Nat) (signed : Bool) : Int := (if signed then 2 ^ (8 * width - 1) else 2 ^ (8 * width)) - 1

/-- The widths of the whole numbers. -/
def Whole (width : Nat) : Prop := width = 1 ∨ width = 2 ∨ width = 4

theorem Whole.le {width : Nat} (h : Whole width) : width ≤ 8 := by
  rcases h with rfl | rfl | rfl <;> decide

/-- The limits that are computed are the bounds. -/
theorem limits {width : Nat} (h : Whole width) (signed : Bool) :
    let limit := 1#64 <<< (width * 8 - if signed then 1 else 0)
    (if signed then -limit else 0#64).toInt = lowest width signed ∧ (limit - 1#64).toInt = highest width signed := by
  rcases h with rfl | rfl | rfl <;> cases signed <;> decide

section
variable {memory : Memory} {buffer : Buffer} {width : Nat}

theorem writeNumber_run (hwidth : Whole width) {value : Number} {signed : Bool}
    (hvalue : outside (lowest width signed) (highest width signed) value = false) (offset : Number) (little : Bool) :
    buffer.writeNumber value offset width little signed memory =
      buffer.writeUint (BitVec.ofNat 64 value.toUint32) offset width little memory := by
  obtain ⟨hminimum, hlimit⟩ := limits hwidth signed
  unfold Buffer.writeNumber
  dsimp only at hminimum hlimit ⊢
  rw [hminimum, hlimit, hvalue]
  rfl

theorem writeNumber_error (hwidth : Whole width) {value : Number} {signed : Bool}
    (hvalue : outside (lowest width signed) (highest width signed) value = true) (offset : Number) (little : Bool) :
    buffer.writeNumber value offset width little signed memory =
      .error ⟨"Buffer numeric value is outside the valid range"⟩ memory := by
  obtain ⟨hminimum, hlimit⟩ := limits hwidth signed
  unfold Buffer.writeNumber
  dsimp only at hminimum hlimit ⊢
  rw [hminimum, hlimit, hvalue]
  rfl

theorem inside_of_range {low high value : Int} (hlow : low ≤ value) (hhigh : value ≤ high) :
    outside low high (.finite value) = false := by
  simp only [outside, decide_eq_false_iff_not, not_or, not_lt, Int.cast_le]
  exact ⟨hlow, hhigh⟩

/-- The word of a whole number. -/
def word (value : Int) : BitVec 64 := BitVec.ofNat 64 (value % 4294967296).toNat

theorem toUint32_word (value : Int) : BitVec.ofNat 64 (Number.finite value).toUint32 = word value := by
  show BitVec.ofNat 64 (truncate value % 4294967296).toNat = word value
  rw [truncate_intCast]
  rfl

theorem toNat_low {bits : Nat} (hbits : bits ≤ 64) (value : BitVec 64) :
    ((value.setWidth bits).setWidth 64).toNat = value.toNat % 2 ^ bits := by
  rw [BitVec.toNat_setWidth, BitVec.toNat_setWidth]
  have hlt : value.toNat % 2 ^ bits < 2 ^ bits := Nat.mod_lt _ (Nat.two_pow_pos bits)
  have hle : 2 ^ bits ≤ 2 ^ 64 := Nat.pow_le_pow_right (by decide) hbits
  exact Nat.mod_eq_of_lt (hlt.trans_le hle)

theorem toNat_word (value : Int) : (word value).toNat = (value % 4294967296).toNat := by
  unfold word
  rw [BitVec.toNat_ofNat]
  omega

/-- Without a sign the low bytes are the number. -/
theorem unsigned_word (hwidth : Whole width) {value : Int} (hlow : 0 ≤ value) (hhigh : value < 2 ^ (8 * width)) :
    ((((word value).setWidth (8 * width)).setWidth 64).toNat : Int) = value := by
  have hle := hwidth.le
  rw [toNat_low (by omega), toNat_word]
  rcases hwidth with rfl | rfl | rfl <;> norm_num at hhigh ⊢ <;> omega

/-- The sign is the uppermost bit. -/
theorem sign_bit {bits : Nat} (hbits : 0 < bits) (hle : bits ≤ 64) {value : BitVec 64}
    (hvalue : value.toNat < 2 ^ bits) :
    value &&& 1#64 <<< (bits - 1) = 0#64 ↔ value.toNat < 2 ^ (bits - 1) := by
  rw [← BitVec.twoPow_eq, BitVec.and_twoPow, ← BitVec.testBit_toNat]
  by_cases hsign : value.toNat < 2 ^ (bits - 1)
  · rw [Nat.testBit_lt_two_pow hsign]
    simp [hsign]
  · have hbit : value.toNat.testBit (bits - 1) = true := by
      apply Nat.testBit_of_two_pow_le_and_two_pow_add_one_gt (not_lt.mp hsign)
      rwa [Nat.sub_add_cancel hbits]
    have hpower : BitVec.twoPow 64 (bits - 1) ≠ 0#64 := by
      intro hzero
      have := BitVec.toNat_twoPow_of_lt (show bits - 1 < 64 by omega)
      rw [hzero] at this
      exact absurd this.symm (Nat.two_pow_pos (bits - 1)).ne'
    simp [hbit, hsign, hpower]

/-- With the sign taken off they are the number too. -/
theorem signed_word (hwidth : Whole width) {value : Int} (hlow : -2 ^ (8 * width - 1) ≤ value)
    (hhigh : value < 2 ^ (8 * width - 1)) :
    let low := ((word value).setWidth (8 * width)).setWidth 64
    (if width * 8 < 64 ∧ low &&& 1#64 <<< (width * 8 - 1) ≠ 0#64 then low - 1#64 <<< (width * 8) else low).toInt =
      value := by
  intro low
  have hle := hwidth.le
  have hnat : low.toNat = (value % 4294967296).toNat % 2 ^ (8 * width) := by
    rw [toNat_low (by omega), toNat_word]
  have hpos : 0 < width * 8 := by
    rcases hwidth with rfl | rfl | rfl <;> decide
  have hlt : low.toNat < 2 ^ (width * 8) := by
    rw [hnat, Nat.mul_comm]
    exact Nat.mod_lt _ (Nat.two_pow_pos _)
  have hsign := sign_bit hpos (by omega) hlt
  have hpower : (1#64 <<< (width * 8)).toNat = 2 ^ (8 * width) := by
    rcases hwidth with rfl | rfl | rfl <;> rfl
  generalize low = low at *
  by_cases hnegative : low &&& 1#64 <<< (width * 8 - 1) = 0#64
  · rw [if_neg fun h => h.2 hnegative, BitVec.toInt_eq_toNat_cond]
    have hsmall := hsign.mp hnegative
    rcases hwidth with rfl | rfl | rfl <;> norm_num at * <;> omega
  · have hlarge := mt hsign.mpr hnegative
    have hwhole : width * 8 < 64 := by
      rcases hwidth with rfl | rfl | rfl <;> decide
    rw [if_pos ⟨hwhole, hnegative⟩, BitVec.toInt_eq_toNat_cond, BitVec.toNat_sub, hpower]
    rcases hwidth with rfl | rfl | rfl <;> norm_num at * <;> omega

end

/-! ## What is written is read -/

/-- The value is read behind the write, and only the bytes of the window change. -/
def RoundTrip {α : Type} (memory : Memory) (window : Buffer) (write : Action Unit) (read : Action α)
    (value : α) : Prop :=
  ∃ memory', write memory = .ok ⟨⟩ memory' ∧ Touches window memory memory' ∧ read memory' = .ok value memory'

/-- It raises then and only then, and a raise leaves the memory as it is. -/
def RaisesWhen (condition : Prop) (action : Action Unit) (memory : Memory) : Prop :=
  (condition → ∃ error, action memory = .error error memory) ∧
    (¬ condition → ∃ memory', action memory = .ok ⟨⟩ memory')

section
variable {memory : Memory} {buffer : Buffer} {width : Nat}

theorem roundTrip_word (h : Placed memory buffer) (hwidth : width ≤ 8) {first : Nat}
    (hroom : first + width ≤ buffer.length) (value : BitVec 64) (little : Bool) :
    RoundTrip memory (buffer.window first width) (buffer.writeUint value (.finite first) width little)
      (buffer.readUint (.finite first) width little) ((value.setWidth (8 * width)).setWidth 64) := by
  have hfits : buffer.offset + first + (Words.bytes width little value).length ≤ memory.size buffer.storage := by
    rw [Words.length_bytes]
    exact (h.window hroom).fits
  refine ⟨_, writeUint_run h hroom value little, ?_, readUint_written h hwidth hroom value little⟩
  have htouches := Memory.touches_overlay hfits
  rw [Words.length_bytes] at htouches
  exact htouches

theorem roundTrip_number (h : Placed memory buffer) (hwidth : Whole width) {first : Nat}
    (hroom : first + width ≤ buffer.length) (little signed : Bool) {value : Int}
    (hlow : lowest width signed ≤ value) (hhigh : value ≤ highest width signed) :
    RoundTrip memory (buffer.window first width)
      (buffer.writeNumber (.finite value) (.finite first) width little signed)
      (buffer.readNumber (.finite first) width little signed) (.finite value) := by
  obtain ⟨memory', hwrite, htouches, hread⟩ := roundTrip_word h hwidth.le hroom (word value) little
  refine ⟨memory', ?_, htouches, ?_⟩
  · rw [writeNumber_run hwidth (inside_of_range hlow hhigh), toUint32_word]
    exact hwrite
  · unfold Buffer.readNumber
    cases signed with
    | true =>
      have hvalue := @signed_word width hwidth value hlow (Int.le_sub_one_iff.mp hhigh)
      rw [if_pos rfl]
      unfold Buffer.readInt
      rw [bind_run, bind_run, hread]
      dsimp only at hvalue ⊢
      generalize ((word value).setWidth (8 * width)).setWidth 64 = low at hvalue
      rw [← hvalue]
      split_ifs <;> rfl
    | false =>
      have hvalue := @unsigned_word width hwidth value hlow (Int.le_sub_one_iff.mp hhigh)
      rw [if_neg Bool.false_ne_true, bind_run, hread]
      dsimp only
      rw [← Int.cast_natCast, hvalue]
      rfl

theorem roundTrip_float (h : Placed memory buffer) {first : Nat} (hroom : first + 4 ≤ buffer.length)
    (little : Bool) (bits : BitVec 32) :
    RoundTrip memory (buffer.window first 4) (buffer.writeFloat bits (.finite first) little)
      (buffer.readFloat (.finite first) little) bits := by
  obtain ⟨memory', hwrite, htouches, hread⟩ :=
    roundTrip_word h (by decide) hroom (bits.setWidth 64) little
  refine ⟨memory', hwrite, htouches, ?_⟩
  unfold Buffer.readFloat
  rw [bind_run, hread]
  have hbits : (((bits.setWidth 64).setWidth (8 * 4)).setWidth 64).setWidth 32 = bits := by
    apply BitVec.eq_of_toNat_eq
    simp only [BitVec.toNat_setWidth]
    have := bits.isLt
    omega
  exact congrArg (EStateM.Result.ok · memory') hbits

theorem roundTrip_double (h : Placed memory buffer) {first : Nat} (hroom : first + 8 ≤ buffer.length)
    (little : Bool) (bits : BitVec 64) :
    RoundTrip memory (buffer.window first 8) (buffer.writeDouble bits (.finite first) little)
      (buffer.readDouble (.finite first) little) bits := by
  have hbits : (bits.setWidth (8 * 8)).setWidth 64 = bits := by
    rw [BitVec.setWidth_setWidth_of_le _ (by decide), BitVec.setWidth_eq]
  have hword := roundTrip_word h le_rfl hroom bits little
  rw [hbits] at hword
  exact hword

theorem raises_uint (h : Placed memory buffer) (value : BitVec 64) (offset : Number) (little : Bool) :
    RaisesWhen (¬ Room buffer offset width) (buffer.writeUint value offset width little) memory := by
  refine ⟨fun hnone => writeUint_error hnone value little, fun hsome => ?_⟩
  obtain ⟨first, rfl, hroom⟩ := not_not.mp hsome
  exact ⟨_, writeUint_run h hroom value little⟩

theorem raises_number (h : Placed memory buffer) (hwidth : Whole width) (value offset : Number)
    (little signed : Bool) :
    RaisesWhen (outside (lowest width signed) (highest width signed) value = true ∨ ¬ Room buffer offset width)
      (buffer.writeNumber value offset width little signed) memory := by
  cases hvalue : outside (lowest width signed) (highest width signed) value with
  | true => exact ⟨fun _ => ⟨_, writeNumber_error hwidth hvalue offset little⟩, fun hnone => absurd (.inl rfl) hnone⟩
  | false =>
    obtain ⟨hraise, hreturn⟩ := @raises_uint memory buffer width h (BitVec.ofNat 64 value.toUint32) offset little
    unfold RaisesWhen
    rw [writeNumber_run hwidth hvalue]
    refine ⟨fun hnone => hraise (hnone.resolve_left Bool.false_ne_true), fun hsome => hreturn fun hnone => ?_⟩
    exact hsome (.inr hnone)

/-- What is written in the two orders reads backwards. -/
theorem bytes_written (h : Placed memory buffer) {first : Nat} (hroom : first + width ≤ buffer.length)
    {value : BitVec 64} {little : Bool} {memory' : Memory}
    (hwrite : buffer.writeUint value (.finite first) width little memory = .ok ⟨⟩ memory') :
    (buffer.window first width).bytes memory' = Words.bytes width little value := by
  rw [writeUint_run h hroom] at hwrite
  cases hwrite
  have hfits : buffer.offset + first + (Words.bytes width little value).length ≤ memory.size buffer.storage := by
    rw [Words.length_bytes]
    exact (h.window hroom).fits
  have hbytes := Memory.bytes_overlay hfits
  rw [Words.length_bytes] at hbytes
  exact hbytes

/-- Bytes that read backwards are the same word in the other order. -/
theorem readUint_reversed {first : Nat} (hroom : first + width ≤ buffer.length) {memory' : Memory}
    (hreversed : (buffer.window first width).bytes memory' = ((buffer.window first width).bytes memory).reverse) :
    ∃ value, buffer.readUint (.finite first) width true memory = .ok value memory ∧
      buffer.readUint (.finite first) width false memory' = .ok value memory' := by
  refine ⟨_, readUint_run hroom true, ?_⟩
  rw [readUint_run hroom, ← Words.gather_reverse]
  congr 1
  refine Words.gather_congr fun index hindex => ?_
  have hbyte := congrArg (fun bytes : List UInt8 => bytes.getD index 0) hreversed
  have hlength := (buffer.window first width).bytes_length memory
  have hwindow : (buffer.window first width).length = width := rfl
  rw [Buffer.getD_bytes (by omega), List.getD_eq_getElem?_getD, List.getElem?_reverse (by omega), hlength,
    hwindow, ← List.getD_eq_getElem?_getD, Buffer.getD_bytes (by omega)] at hbyte
  rw [Nat.sub_right_comm] at hbyte
  exact hbyte

end

/-! ## The functions of each width -/

/-- A write and the read of what it leaves, of so many bytes. -/
structure Form (α : Type) where
  width : Nat
  write : Buffer → α → Number → Action Number
  read : Buffer → Number → Action α

/-- The forms of whole numbers. -/
def wholes : Bool → List (Form Number)
  | false => [⟨1, @Buffer.writeUint8, @Buffer.readUint8⟩,
    ⟨2, @Buffer.writeUint16Le, @Buffer.readUint16Le⟩,
    ⟨2, @Buffer.writeUint16Be, @Buffer.readUint16Be⟩,
    ⟨4, @Buffer.writeUint32Le, @Buffer.readUint32Le⟩,
    ⟨4, @Buffer.writeUint32Be, @Buffer.readUint32Be⟩]
  | true => [⟨1, @Buffer.writeInt8, @Buffer.readInt8⟩,
    ⟨2, @Buffer.writeInt16Le, @Buffer.readInt16Le⟩,
    ⟨2, @Buffer.writeInt16Be, @Buffer.readInt16Be⟩,
    ⟨4, @Buffer.writeInt32Le, @Buffer.readInt32Le⟩,
    ⟨4, @Buffer.writeInt32Be, @Buffer.readInt32Be⟩]

def floats : List (Form (BitVec 32)) :=
  [⟨4, @Buffer.writeFloatLe, @Buffer.readFloatLe⟩, ⟨4, @Buffer.writeFloatBe, @Buffer.readFloatBe⟩]

def doubles : List (Form (BitVec 64)) :=
  [⟨8, @Buffer.writeDoubleLe, @Buffer.readDoubleLe⟩, ⟨8, @Buffer.writeDoubleBe, @Buffer.readDoubleBe⟩]

/-- A whole number within the bounds of a width. -/
def InRange (width : Nat) (signed : Bool) (value : Number) : Prop :=
  ∃ whole : Int, value = .finite whole ∧ lowest width signed ≤ whole ∧ whole ≤ highest width signed

/-- What fits is read where it was written, and the write gives the offset behind it; what is refused, and an offset
without room, raises with nothing written. -/
structure Form.Sound {α : Type} (form : Form α) (memory : Memory) (buffer : Buffer) (fits refused : α → Prop) : Prop where
  keeps : ∀ first : Nat, first + form.width ≤ buffer.length → ∀ value, fits value → ∃ memory',
    form.write buffer value (.finite first) memory = .ok (.finite (first + form.width : Nat)) memory' ∧
      Touches (buffer.window first form.width) memory memory' ∧
      form.read buffer (.finite first) memory' = .ok value memory'
  raises : ∀ value offset, refused value ∨ ¬ Room buffer offset form.width →
    ∃ error, form.write buffer value offset memory = .error error memory

section
variable {memory : Memory} {buffer : Buffer} {width : Nat}

/-- The functions of a width and an order. -/
def Form.whole (width : Nat) (little signed : Bool) : Form Number where
  width := width
  write buffer value offset := Buffer.behind offset width (buffer.writeNumber value offset width little signed)
  read buffer offset := buffer.readNumber offset width little signed

def Form.float (little : Bool) : Form (BitVec 32) where
  width := 4
  write buffer bits offset := Buffer.behind offset 4 (buffer.writeFloat bits offset little)
  read buffer offset := buffer.readFloat offset little

def Form.double (little : Bool) : Form (BitVec 64) where
  width := 8
  write buffer bits offset := Buffer.behind offset 8 (buffer.writeDouble bits offset little)
  read buffer offset := buffer.readDouble offset little

/-- A byte has one order. -/
theorem wholes_eq (signed : Bool) :
    wholes signed = [(1, true), (2, true), (2, false), (4, true), (4, false)].map fun (width, little) =>
      .whole width little signed := by
  cases signed <;> rfl

theorem mem_wholes {signed : Bool} {form : Form Number} (h : form ∈ wholes signed) :
    ∃ width little, Whole width ∧ form = .whole width little signed := by
  rw [wholes_eq] at h
  obtain ⟨⟨width, little⟩, hmem, rfl⟩ := List.mem_map.mp h
  refine ⟨width, little, ?_, rfl⟩
  simp only [List.mem_cons, List.not_mem_nil, Prod.mk.injEq, or_false] at hmem
  unfold Whole
  omega

theorem mem_floats {form : Form (BitVec 32)} (h : form ∈ floats) : ∃ little, form = .float little := by
  obtain ⟨little, -, rfl⟩ := List.mem_map.mp (show form ∈ [true, false].map Form.float from h)
  exact ⟨little, rfl⟩

theorem mem_doubles {form : Form (BitVec 64)} (h : form ∈ doubles) : ∃ little, form = .double little := by
  obtain ⟨little, -, rfl⟩ := List.mem_map.mp (show form ∈ [true, false].map Form.double from h)
  exact ⟨little, rfl⟩

theorem behind_run {write : Action Unit} {memory' : Memory} (h : write memory = .ok ⟨⟩ memory') (first : Nat) :
    Buffer.behind (.finite first) width write memory = .ok (.finite (first + width : Nat)) memory' := by
  unfold Buffer.behind
  rw [bind_run, h, ← Number.natCast_plus]
  rfl

theorem behind_error {write : Action Unit} {error : Error} (h : write memory = .error error memory)
    (offset : Number) : Buffer.behind offset width write memory = .error error memory := by
  unfold Buffer.behind
  rw [bind_run, h]

/-- A form is sound whose write and read, without the offset that it gives, are a round trip. -/
theorem Form.Sound.of_family {α : Type} {fits refused : α → Prop} {write : Buffer → α → Number → Action Unit}
    {read : Buffer → Number → Action α}
    (htrip : ∀ first : Nat, first + width ≤ buffer.length → ∀ value, fits value →
      RoundTrip memory (buffer.window first width) (write buffer value (.finite first)) (read buffer (.finite first))
        value)
    (hraises : ∀ value offset, refused value ∨ ¬ Room buffer offset width →
      ∃ error, write buffer value offset memory = .error error memory) :
    Form.Sound ⟨width, fun buffer value offset => Buffer.behind offset width (write buffer value offset), read⟩ memory
      buffer fits refused where
  keeps first hroom value hfits := by
    obtain ⟨memory', hwrite, htouches, hread⟩ := htrip first hroom value hfits
    exact ⟨memory', behind_run hwrite first, htouches, hread⟩
  raises value offset hrefused := by
    obtain ⟨error, hwrite⟩ := hraises value offset hrefused
    exact ⟨error, behind_error hwrite offset⟩

theorem wholes_sound (h : Placed memory buffer) {signed : Bool} {form : Form Number} (hform : form ∈ wholes signed) :
    form.Sound memory buffer (InRange form.width signed) fun value =>
      outside (lowest form.width signed) (highest form.width signed) value = true := by
  obtain ⟨width, little, hwidth, rfl⟩ := mem_wholes hform
  refine .of_family ?_ fun value offset => (raises_number h hwidth value offset little signed).1
  rintro first hroom _ ⟨value, rfl, hlow, hhigh⟩
  exact roundTrip_number h hwidth hroom little signed hlow hhigh

theorem floats_sound (h : Placed memory buffer) {form : Form (BitVec 32)} (hform : form ∈ floats) :
    form.Sound memory buffer (fun _ => True) fun _ => False := by
  obtain ⟨little, rfl⟩ := mem_floats hform
  refine .of_family (fun first hroom bits _ => roundTrip_float h hroom little bits) fun bits offset hrefused => ?_
  exact writeUint_error (hrefused.resolve_left id) (bits.setWidth 64) little

theorem doubles_sound (h : Placed memory buffer) {form : Form (BitVec 64)} (hform : form ∈ doubles) :
    form.Sound memory buffer (fun _ => True) fun _ => False := by
  obtain ⟨little, rfl⟩ := mem_doubles hform
  refine .of_family (fun first hroom bits _ => roundTrip_double h hroom little bits) fun bits offset hrefused => ?_
  exact writeUint_error (hrefused.resolve_left id) bits little

end

/-- Numbers in a buffer. -/
theorem numeric_access {memory : Memory} {buffer : Buffer} (h : Placed memory buffer) :
    (∀ width, Whole width → ∀ first : Nat, first + width ≤ buffer.length → ∀ (little signed : Bool) (value : Int),
      lowest width signed ≤ value → value ≤ highest width signed →
        RoundTrip memory (buffer.window first width)
          (buffer.writeNumber (.finite value) (.finite first) width little signed)
          (buffer.readNumber (.finite first) width little signed) (.finite value)) ∧
    (∀ first : Nat, first + 4 ≤ buffer.length → ∀ (little : Bool) (bits : BitVec 32),
      RoundTrip memory (buffer.window first 4) (buffer.writeFloat bits (.finite first) little)
        (buffer.readFloat (.finite first) little) bits) ∧
    (∀ first : Nat, first + 8 ≤ buffer.length → ∀ (little : Bool) (bits : BitVec 64),
      RoundTrip memory (buffer.window first 8) (buffer.writeDouble bits (.finite first) little)
        (buffer.readDouble (.finite first) little) bits) ∧
    -- the two orders
    (∀ width first : Nat, first + width ≤ buffer.length → ∀ (value : BitVec 64) (upwards downwards : Memory),
      buffer.writeUint value (.finite first) width true memory = .ok ⟨⟩ upwards →
      buffer.writeUint value (.finite first) width false memory = .ok ⟨⟩ downwards →
        (buffer.window first width).bytes downwards = ((buffer.window first width).bytes upwards).reverse) ∧
    (∀ width first : Nat, first + width ≤ buffer.length → ∀ memory' : Memory,
      (buffer.window first width).bytes memory' = ((buffer.window first width).bytes memory).reverse →
        ∃ value, buffer.readUint (.finite first) width true memory = .ok value memory ∧
          buffer.readUint (.finite first) width false memory' = .ok value memory') ∧
    -- the writes that raise
    (∀ (width : Nat) (value : BitVec 64) (offset : Number) (little : Bool),
      RaisesWhen (¬ Room buffer offset width) (buffer.writeUint value offset width little) memory) ∧
    (∀ width, Whole width → ∀ (value offset : Number) (little signed : Bool),
      RaisesWhen (outside (lowest width signed) (highest width signed) value = true ∨ ¬ Room buffer offset width)
        (buffer.writeNumber value offset width little signed) memory) ∧
    -- the functions of each width
    (∀ (signed : Bool), ∀ form ∈ wholes signed, form.Sound memory buffer (InRange form.width signed) fun value =>
      outside (lowest form.width signed) (highest form.width signed) value = true) ∧
    (∀ form ∈ floats, form.Sound memory buffer (fun _ => True) fun _ => False) ∧
    ∀ form ∈ doubles, form.Sound memory buffer (fun _ => True) fun _ => False := by
  refine ⟨fun width hwidth first hroom little signed value hlow hhigh => ?_,
    fun first hroom little bits => roundTrip_float h hroom little bits,
    fun first hroom little bits => roundTrip_double h hroom little bits,
    fun width first hroom value upwards downwards hup hdown => ?_,
    fun width first hroom memory' hreversed => readUint_reversed hroom hreversed,
    fun width value offset little => raises_uint h value offset little,
    fun width hwidth value offset little signed => raises_number h hwidth value offset little signed,
    fun signed form hform => wholes_sound h hform, fun form hform => floats_sound h hform,
    fun form hform => doubles_sound h hform⟩
  · exact roundTrip_number h hwidth hroom little signed hlow hhigh
  · rw [bytes_written h hroom hup, bytes_written h hroom hdown]
    exact Words.bytes_reverse width value

/-- The least number of two bytes, in the last two of three. -/
theorem numeric_access_last :
    RoundTrip { storages := [[1, 2, 3]] } ⟨0, 1, 2⟩
      (Buffer.writeNumber ⟨0, 0, 3⟩ (.finite (-32768 : Int)) (.finite (1 : Nat)) 2 false true)
      (Buffer.readNumber ⟨0, 0, 3⟩ (.finite (1 : Nat)) 2 false true) (.finite (-32768 : Int)) := by
  have hplaced : Placed { storages := [[1, 2, 3]] } ⟨0, 0, 3⟩ := ⟨by decide, by decide⟩
  exact (numeric_access hplaced).1 2 (.inr (.inl rfl)) 1 (by decide) false true (-32768) (by decide) (by decide)

end TsonicNode.Allocation
