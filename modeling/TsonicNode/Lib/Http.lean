import Mathlib.Tactic.Common
import Mathlib.Data.List.Basic

/-!
# The grammar of an HTTP/1.1 response

A reader of one whole response message: the status line, the fields, and the
body that the framing rules give to them. `readResponse` accepts a byte string
only if it is exactly one message; a `Content-Length` that is no plain number, a
transfer coding other than `chunked` and two framing fields are refused.

What a writer puts out is read back by `takeLine_line`, `readFields_render`,
`readNumber_numeral` and `readChunks_chunk`.
-/

namespace TsonicNode.Lib.Http

abbrev Bytes := List UInt8

/-- What holds of the 256 bytes. -/
@[elab_as_elim]
theorem forall_byte {motive : UInt8 → Prop} (h : ∀ n : Fin 256, motive (UInt8.ofNat n))
    (b : UInt8) : motive b := by
  have hb := h ⟨b.toNat, b.toNat_lt⟩
  rwa [UInt8.ofNat_toNat] at hb

/-- The bytes of a text. -/
def ascii (s : String) : Bytes := s.toUTF8.data.toList

def crlf : Bytes := [13, 10]

def lowerByte (b : UInt8) : UInt8 := if 65 ≤ b ∧ b ≤ 90 then b + 32 else b

/-- Letter case does not matter in names. -/
def lower (s : Bytes) : Bytes := s.map lowerByte

/-- A byte of a token. -/
def isTchar (b : UInt8) : Bool :=
  (65 ≤ b && b ≤ 90) || (97 ≤ b && b ≤ 122) || (48 ≤ b && b ≤ 57) ||
    ([33, 35, 36, 37, 38, 39, 42, 43, 45, 46, 94, 95, 96, 124, 126] : List UInt8).contains b

/-- A byte of a field value or a reason: no control character but the tab. -/
def isText (b : UInt8) : Bool := b == 9 || (32 ≤ b && b != 127)

def isOws (b : UInt8) : Bool := b == 32 || b == 9

/-- Without the whitespace around it. -/
def trim (s : Bytes) : Bytes := ((s.dropWhile isOws).reverse.dropWhile isOws).reverse

/-! ## Numbers -/

/-- The value of a digit. -/
def digitValue (b : UInt8) : Option Nat :=
  if 48 ≤ b ∧ b ≤ 57 then some (b.toNat - 48)
  else if 97 ≤ b ∧ b ≤ 102 then some (b.toNat - 87)
  else if 65 ≤ b ∧ b ≤ 70 then some (b.toNat - 55)
  else none

def readDigits (base : Nat) : Nat → Bytes → Option Nat
  | n, [] => some n
  | n, b :: s =>
    match digitValue b with
    | some d => if d < base then readDigits base (n * base + d) s else none
    | none => none

/-- One digit or more. -/
def readNumber (base : Nat) (s : Bytes) : Option Nat :=
  if s = [] then none else readDigits base 0 s

def digitByte (d : Nat) : UInt8 := if d < 10 then UInt8.ofNat (48 + d) else UInt8.ofNat (87 + d)

/-- The digits of `n` in front of `s`; `fuel` bounds their number. -/
def digits (base : Nat) : Nat → Nat → Bytes → Bytes
  | 0, _, s => s
  | fuel + 1, n, s => if n = 0 then s else digits base fuel (n / base) (digitByte (n % base) :: s)

def numeral (base n : Nat) : Bytes := if n = 0 then [48] else digits base n n []

theorem digitValue_digitByte {d : Nat} (h : d < 16) : digitValue (digitByte d) = some d := by
  have hall : ∀ e : Fin 16, digitValue (digitByte e) = some e.val := by decide
  exact hall ⟨d, h⟩

section
variable {base : Nat}

theorem digits_append (fuel n : Nat) (s t : Bytes) :
    digits base fuel n (s ++ t) = digits base fuel n s ++ t := by
  induction fuel generalizing n s with
  | zero => rfl
  | succ fuel ih =>
    unfold digits
    split
    · rfl
    · exact ih (n / base) (digitByte (n % base) :: s)

theorem readDigits_cons (n : Nat) (b : UInt8) (s : Bytes) :
    readDigits base n (b :: s) =
      match digitValue b with
      | some d => if d < base then readDigits base (n * base + d) s else none
      | none => none := rfl

theorem readDigits_append (n : Nat) (s t : Bytes) :
    readDigits base n (s ++ t) = (readDigits base n s).bind fun m => readDigits base m t := by
  induction s generalizing n with
  | nil => rfl
  | cons b s ih =>
    rw [List.cons_append, readDigits_cons, readDigits_cons]
    cases digitValue b with
    | none => rfl
    | some d =>
      dsimp only
      split
      · exact ih _
      · rfl

theorem readDigits_digits (h2 : 2 ≤ base) (h16 : base ≤ 16) (fuel n : Nat) (h : n ≤ fuel) :
    readDigits base 0 (digits base fuel n []) = some n := by
  induction fuel generalizing n with
  | zero =>
    have : n = 0 := by omega
    subst this
    rfl
  | succ fuel ih =>
    unfold digits
    split
    case isTrue hn => rw [hn]; rfl
    case isFalse hn =>
      have hlt : n / base < n := Nat.div_lt_self (by omega) (by omega)
      have hmod : n % base < base := Nat.mod_lt _ (by omega)
      have hsplit : digits base fuel (n / base) [digitByte (n % base)] =
          digits base fuel (n / base) [] ++ [digitByte (n % base)] := digits_append fuel _ [] _
      have hone : readDigits base (n / base) [digitByte (n % base)] = some n := by
        rw [readDigits_cons, digitValue_digitByte (by omega)]
        dsimp only
        rw [if_pos hmod, Nat.mul_comm, Nat.div_add_mod]
        rfl
      rw [hsplit, readDigits_append, ih _ (by omega)]
      exact hone

theorem digits_ne_nil (fuel n : Nat) (h : n ≤ fuel) (hn : n ≠ 0) (s : Bytes) :
    digits base fuel n s ≠ [] := by
  cases fuel with
  | zero => omega
  | succ fuel =>
    unfold digits
    rw [if_neg hn, show digitByte (n % base) :: s = [] ++ digitByte (n % base) :: s from rfl,
      digits_append]
    simp

theorem readNumber_numeral (h2 : 2 ≤ base) (h16 : base ≤ 16) (n : Nat) :
    readNumber base (numeral base n) = some n := by
  unfold readNumber numeral
  split
  case isTrue hn =>
    subst hn
    rw [if_neg (by simp), readDigits_cons, show digitValue 48 = some 0 from rfl]
    dsimp only
    rw [if_pos (by omega), Nat.zero_mul]
    rfl
  case isFalse hn =>
    rw [if_neg (digits_ne_nil n n (Nat.le_refl n) hn []), readDigits_digits h2 h16 n n (Nat.le_refl n)]

/-- A number is made of digits. -/
theorem digit_of_readDigits {n m : Nat} {s : Bytes} (h : readDigits base n s = some m) :
    ∀ b ∈ s, (digitValue b).isSome = true := by
  induction s generalizing n with
  | nil => exact fun b hb => by cases hb
  | cons c s ih =>
    rw [readDigits_cons] at h
    cases hc : digitValue c with
    | none => rw [hc] at h; cases h
    | some d =>
      rw [hc] at h
      dsimp only at h
      split at h
      · intro b hb
        obtain rfl | hb := List.mem_cons.mp hb
        · rw [hc]; rfl
        · exact ih h b hb
      · cases h

theorem digit_of_readNumber {n : Nat} {s : Bytes} (h : readNumber base s = some n) :
    ∀ b ∈ s, (digitValue b).isSome = true := by
  unfold readNumber at h
  split at h
  · cases h
  · exact digit_of_readDigits h

end

/-- No digit ends a line. -/
theorem digit_ne_crlf {b : UInt8} (h : (digitValue b).isSome = true) : b ≠ 13 ∧ b ≠ 10 := by
  constructor
  · rintro rfl
    cases h
  · rintro rfl
    cases h

/-! ## Lines -/

/-- The line up to the first CRLF and what follows; no other CR or LF ends or stands in a line. -/
def takeLine : Bytes → Option (Bytes × Bytes)
  | [] => none
  | [_] => none
  | b :: c :: rest =>
    if b = 13 ∧ c = 10 then some ([], rest)
    else if b = 13 ∨ b = 10 then none
    else (takeLine (c :: rest)).map fun (line, rest) => (b :: line, rest)

/-- Bytes that can stand in a line. -/
def Plain (line : Bytes) : Prop := ∀ b ∈ line, b ≠ 13 ∧ b ≠ 10

theorem takeLine_line {line : Bytes} (h : Plain line) (rest : Bytes) :
    takeLine (line ++ (crlf ++ rest)) = some (line, rest) := by
  induction line with
  | nil => rfl
  | cons b line ih =>
    have hb := h b List.mem_cons_self
    have hline := ih fun c hc => h c (List.mem_cons_of_mem b hc)
    obtain ⟨c, tail, htail⟩ : ∃ c tail, line ++ (crlf ++ rest) = c :: tail := by
      cases line with
      | nil => exact ⟨13, 10 :: rest, rfl⟩
      | cons c line => exact ⟨c, line ++ (crlf ++ rest), rfl⟩
    rw [List.cons_append, htail]
    unfold takeLine
    rw [if_neg fun hc => hb.1 hc.1, if_neg (not_or.mpr hb), ← htail, hline]
    rfl

theorem Plain.append {s t : Bytes} (hs : Plain s) (ht : Plain t) : Plain (s ++ t) := by
  intro b hb
  exact (List.mem_append.mp hb).elim (hs b) (ht b)

theorem plain_of_text {s : Bytes} (h : s.all isText = true) : Plain s := by
  intro b hb
  have hb := List.all_eq_true.mp h b hb
  constructor
  · rintro rfl
    cases hb
  · rintro rfl
    cases hb

theorem text_of_tchar {b : UInt8} : isTchar b = true → isText b = true :=
  forall_byte (by decide +kernel) b

theorem text_of_token {s : Bytes} (h : s.all isTchar = true) : s.all isText = true :=
  List.all_eq_true.mpr fun b hb => text_of_tchar (List.all_eq_true.mp h b hb)

/-! ## Fields -/

structure Field where
  name : Bytes
  value : Bytes
  deriving DecidableEq, Repr

/-- A field as it is written. -/
def Field.render (f : Field) : Bytes := f.name ++ ascii ": " ++ f.value ++ crlf

/-- A name is a token, a value text. -/
def Field.Valid (f : Field) : Prop :=
  f.name ≠ [] ∧ f.name.all isTchar = true ∧ f.value.all isText = true

/-- A field as it is read, without the whitespace around its value. -/
def Field.read (f : Field) : Field := ⟨f.name, trim f.value⟩

/-- The token before the first colon, and what follows it. -/
def readName : Bytes → Option (Bytes × Bytes)
  | [] => none
  | b :: s =>
    if b = 58 then some ([], s)
    else if isTchar b then (readName s).map fun (name, s) => (b :: name, s)
    else none

def readField (line : Bytes) : Option Field :=
  match readName line with
  | none => none
  | some (name, value) =>
    if name = [] then none else if value.all isText then some ⟨name, trim value⟩ else none

/-- The fields up to the empty line; `fuel` bounds their number. -/
def readFields : Nat → Bytes → Option (List Field × Bytes)
  | 0, _ => none
  | fuel + 1, bytes => do
    let (line, rest) ← takeLine bytes
    if line = [] then return ([], rest)
    else
      let field ← readField line
      let (fields, rest) ← readFields fuel rest
      return (field :: fields, rest)

theorem readName_name {name : Bytes} (h : name.all isTchar = true) (value : Bytes) :
    readName (name ++ 58 :: value) = some (name, value) := by
  induction name with
  | nil => rfl
  | cons b name ih =>
    rw [List.all_cons, Bool.and_eq_true] at h
    have hb : b ≠ 58 := by
      rintro rfl
      cases h.1
    rw [List.cons_append]
    unfold readName
    rw [if_neg hb, if_pos h.1, ih h.2]
    rfl

theorem trim_space (s : Bytes) : trim (32 :: s) = trim s := rfl

theorem readField_render {f : Field} (h : f.Valid) :
    readField (f.name ++ ascii ": " ++ f.value) = some f.read := by
  obtain ⟨hne, hname, hvalue⟩ := h
  have hline : f.name ++ ascii ": " ++ f.value = f.name ++ 58 :: (32 :: f.value) := by
    rw [show ascii ": " = [58, 32] from rfl]
    simp
  have htext : (32 :: f.value).all isText = true := by
    rw [List.all_cons, hvalue]
    rfl
  unfold readField
  rw [hline, readName_name hname]
  dsimp only
  rw [if_neg hne, if_pos htext, trim_space]
  rfl

theorem plain_field {f : Field} (h : f.Valid) : Plain (f.name ++ ascii ": " ++ f.value) :=
  have hcolon : Plain (ascii ": ") := plain_of_text (by decide)
  ((plain_of_text (text_of_token h.2.1)).append hcolon).append (plain_of_text h.2.2)

theorem readFields_render {fields : List Field} (h : ∀ f ∈ fields, f.Valid) (fuel : Nat)
    (hfuel : fields.length < fuel) (rest : Bytes) :
    readFields fuel (fields.flatMap Field.render ++ (crlf ++ rest)) =
      some (fields.map Field.read, rest) := by
  induction fields generalizing fuel with
  | nil =>
    cases fuel with
    | zero => omega
    | succ fuel => rfl
  | cons f fields ih =>
    cases fuel with
    | zero => omega
    | succ fuel =>
      have hf := h f List.mem_cons_self
      have htail := ih (fun g hg => h g (List.mem_cons_of_mem f hg)) fuel
        (by rw [List.length_cons] at hfuel; omega)
      have hline := takeLine_line (plain_field hf) (fields.flatMap Field.render ++ (crlf ++ rest))
      have hne : f.name ++ ascii ": " ++ f.value ≠ [] := by
        simp [hf.1]
      have hbytes : (f :: fields).flatMap Field.render ++ (crlf ++ rest) =
          (f.name ++ ascii ": " ++ f.value) ++
            (crlf ++ (fields.flatMap Field.render ++ (crlf ++ rest))) := by
        simp [Field.render]
      unfold readFields
      rw [hbytes, hline]
      dsimp only [Option.bind_eq_bind, Option.bind_some]
      rw [if_neg hne, readField_render hf]
      dsimp only [Option.bind_eq_bind, Option.bind_some]
      rw [htail]
      rfl

/-! ## The status line -/

def version : Bytes := ascii "HTTP/1.1"

/-- `HTTP/1.1`, three digits and a reason, which may be empty. -/
def readStatusLine (line : Bytes) : Option (Nat × Bytes) :=
  match line.drop 8 with
  | space :: a :: b :: c :: space' :: reason =>
    if line.take 8 = version ∧ space = 32 ∧ space' = 32 ∧ reason.all isText = true then
      (readNumber 10 [a, b, c]).map fun status => (status, reason)
    else none
  | _ => none

def statusLine (status : Nat) (reason : Bytes) : Bytes :=
  version ++ 32 :: (numeral 10 status ++ 32 :: reason)

theorem digits_zero (base fuel : Nat) (s : Bytes) : digits base fuel 0 s = s := by
  cases fuel <;> rfl

theorem length_numeral {status : Nat} (h : 100 ≤ status) (h' : status ≤ 999) :
    ∃ a b c, numeral 10 status = [a, b, c] := by
  have hdigits : numeral 10 status = digits 10 status status [] := if_neg (by omega)
  obtain ⟨fuel, rfl⟩ : ∃ fuel, status = fuel + 3 := ⟨status - 3, by omega⟩
  rw [hdigits]
  unfold digits
  rw [if_neg (by omega)]
  unfold digits
  rw [if_neg (by omega)]
  unfold digits
  rw [if_neg (by omega), show (fuel + 3) / 10 / 10 / 10 = 0 by omega, digits_zero]
  exact ⟨_, _, _, rfl⟩

theorem readStatusLine_render {status : Nat} (h : 100 ≤ status) (h' : status ≤ 999)
    {reason : Bytes} (hreason : reason.all isText = true) :
    readStatusLine (statusLine status reason) = some (status, reason) := by
  obtain ⟨a, b, c, hnum⟩ := length_numeral h h'
  have hread : readNumber 10 (numeral 10 status) = some status :=
    readNumber_numeral (by omega) (by omega) status
  unfold statusLine
  rw [hnum] at hread ⊢
  have hdrop : (version ++ 32 :: ([a, b, c] ++ 32 :: reason)).drop 8 =
      32 :: a :: b :: c :: 32 :: reason := rfl
  have htake : (version ++ 32 :: ([a, b, c] ++ 32 :: reason)).take 8 = version := rfl
  unfold readStatusLine
  rw [hdrop]
  dsimp only
  rw [if_pos ⟨htake, rfl, rfl, hreason⟩, hread]
  rfl

theorem plain_statusLine (status : Nat) {reason : Bytes} (hreason : reason.all isText = true) :
    Plain (statusLine status reason) := by
  have hversion : Plain version := plain_of_text (by decide)
  have hspace : ∀ {s : Bytes}, Plain s → Plain (32 :: s) := fun hs b hb => by
    obtain rfl | hb := List.mem_cons.mp hb
    · decide
    · exact hs b hb
  have hnum : Plain (numeral 10 status) := fun b hb =>
    digit_ne_crlf (digit_of_readNumber (readNumber_numeral (by omega) (by omega) status) b hb)
  exact hversion.append (hspace (hnum.append (hspace (plain_of_text hreason))))

/-! ## Framing -/

/-- How the body is delimited. -/
inductive Framing where
  | none
  | length (n : Nat)
  | chunked
  | untilClose
  deriving DecidableEq, Repr

/-- The values of the fields of this name. -/
def valuesOf (name : Bytes) (fields : List Field) : List Bytes :=
  (fields.filter fun f => lower f.name == name).map (·.value)

def contentLength : Bytes := ascii "content-length"

def transferEncoding : Bytes := ascii "transfer-encoding"

/-- No body follows the fields of this response. -/
def bodiless (head : Bool) (status : Nat) : Bool :=
  head || decide (status < 200) || decide (status = 204) || decide (status = 304)

/-- The framing the fields ask for, if they are no contradiction. -/
def framing (head : Bool) (status : Nat) (fields : List Field) : Option Framing :=
  match valuesOf contentLength fields, valuesOf transferEncoding fields with
  | [], [] => some (if bodiless head status then .none else .untilClose)
  | [value], [] =>
    (readNumber 10 value).map fun n => if bodiless head status then .none else .length n
  | [], [value] =>
    if lower value = ascii "chunked" then
      some (if bodiless head status then .none else .chunked)
    else none
  | _, _ => none

/-- Chunks up to the last one, which is empty, without trailers. -/
def readChunks : Nat → Bytes → Option Bytes
  | 0, _ => none
  | fuel + 1, bytes => do
    let (line, rest) ← takeLine bytes
    let size ← readNumber 16 line
    if size = 0 then (if rest = crlf then some [] else none)
    else if rest.length < size then none
    else if (rest.drop size).take 2 = crlf then
      (readChunks fuel (rest.drop (size + 2))).map (rest.take size ++ ·)
    else none

/-- The body, which is the whole rest. -/
def readBody : Framing → Bytes → Option Bytes
  | .none, rest => if rest = [] then some [] else none
  | .length n, rest => if rest.length = n then some rest else none
  | .chunked, rest => readChunks (rest.length + 1) rest
  | .untilClose, rest => some rest

structure Response where
  status : Nat
  reason : Bytes
  fields : List Field
  body : Bytes
  deriving DecidableEq, Repr

/-- Read exactly one response to a request, which may have been a HEAD request. -/
def readResponse (head : Bool) (bytes : Bytes) : Option Response := do
  let (line, rest) ← takeLine bytes
  let (status, reason) ← readStatusLine line
  let (fields, rest) ← readFields (rest.length + 1) rest
  let framing ← framing head status fields
  let body ← readBody framing rest
  return ⟨status, reason, fields, body⟩

/-- A message as it is written. -/
def renderHead (status : Nat) (reason : Bytes) (fields : List Field) : Bytes :=
  statusLine status reason ++ (crlf ++ (fields.flatMap Field.render ++ crlf))

theorem length_le_render (fields : List Field) :
    fields.length ≤ (fields.flatMap Field.render).length := by
  induction fields with
  | nil => exact Nat.le_refl 0
  | cons f fields ih =>
    have hf : 2 ≤ f.render.length := by
      unfold Field.render
      rw [List.length_append]
      exact Nat.le_add_left _ _
    rw [List.flatMap_cons, List.length_cons, List.length_append]
    omega

/-- Reading a written message comes down to reading its body. -/
theorem readResponse_render (head : Bool) {status : Nat} (h : 100 ≤ status) (h' : status ≤ 999)
    {reason : Bytes} (hreason : reason.all isText = true) {fields : List Field}
    (hfields : ∀ f ∈ fields, f.Valid) (rest : Bytes) :
    readResponse head (renderHead status reason fields ++ rest) =
      (framing head status (fields.map Field.read)).bind fun framing =>
        (readBody framing rest).map fun body =>
          ⟨status, reason, fields.map Field.read, body⟩ := by
  have hbytes : renderHead status reason fields ++ rest = statusLine status reason ++
      (crlf ++ (fields.flatMap Field.render ++ (crlf ++ rest))) := by
    simp [renderHead]
  have hline := takeLine_line (plain_statusLine status hreason)
    (fields.flatMap Field.render ++ (crlf ++ rest))
  have hlength := length_le_render fields
  have hread := readFields_render hfields
    ((fields.flatMap Field.render ++ (crlf ++ rest)).length + 1)
    (by rw [List.length_append]; omega) rest
  unfold readResponse
  rw [hbytes, hline]
  dsimp only [Option.bind_eq_bind, Option.bind_some]
  rw [readStatusLine_render h h' hreason]
  dsimp only [Option.bind_eq_bind, Option.bind_some]
  rw [hread]
  dsimp only [Option.bind_eq_bind, Option.bind_some]
  cases framing head status (fields.map Field.read) with
  | none => rfl
  | some framing =>
    dsimp only [Option.bind_some]
    cases readBody framing rest <;> rfl

/-! ## Chunks -/

/-- A chunk as it is written. -/
def renderChunk (data : Bytes) : Bytes := numeral 16 data.length ++ (crlf ++ (data ++ crlf))

def lastChunk : Bytes := ascii "0" ++ (crlf ++ crlf)

theorem plain_numeral (base n : Nat) (h2 : 2 ≤ base) (h16 : base ≤ 16) : Plain (numeral base n) :=
  fun b hb => digit_ne_crlf (digit_of_readNumber (readNumber_numeral h2 h16 n) b hb)

theorem readChunks_last (fuel : Nat) : readChunks (fuel + 1) lastChunk = some [] := rfl

theorem readChunks_chunk {data : Bytes} (h : data ≠ []) (fuel : Nat) (rest : Bytes) :
    readChunks (fuel + 1) (renderChunk data ++ rest) = (readChunks fuel rest).map (data ++ ·) := by
  have hbytes : renderChunk data ++ rest =
      numeral 16 data.length ++ (crlf ++ (data ++ (crlf ++ rest))) := by
    simp [renderChunk]
  have hline := takeLine_line (plain_numeral 16 data.length (by omega) (by omega))
    (data ++ (crlf ++ rest))
  have hpos : data.length ≠ 0 := fun h0 => h (List.eq_nil_of_length_eq_zero h0)
  have hcrlf : ((data ++ (crlf ++ rest)).drop data.length).take 2 = crlf := by
    rw [List.drop_left]
    rfl
  have hrest : (data ++ (crlf ++ rest)).drop (data.length + 2) = rest := by
    rw [← List.drop_drop, List.drop_left]
    rfl
  rw [readChunks, hbytes, hline]
  dsimp only [Option.bind_eq_bind, Option.bind_some]
  rw [readNumber_numeral (by omega) (by omega)]
  dsimp only [Option.bind_eq_bind, Option.bind_some]
  rw [if_neg hpos, if_neg (by rw [List.length_append]; omega), if_pos hcrlf, hrest, List.take_left]

end TsonicNode.Lib.Http
