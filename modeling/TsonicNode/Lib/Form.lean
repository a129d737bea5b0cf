import TsonicNode.Lib.Http

/-!
# Form encoding

`application/x-www-form-urlencoded`: a list of pairs of byte strings as one
string of safe bytes, and back. Reading undoes writing byte by byte
(`decode_encodeByte`), for a string (`decode_encode`), a pair (`readPair_pair`)
and a list (`parse_serialize`).
-/

namespace TsonicNode.Lib.Form

open TsonicNode.Lib.Http

abbrev Pair := Bytes × Bytes

/-- Written as it is. -/
def isSafe (b : UInt8) : Bool :=
  (65 ≤ b && b ≤ 90) || (97 ≤ b && b ≤ 122) || (48 ≤ b && b ≤ 57) ||
    ([42, 45, 46, 95] : List UInt8).contains b

def hexByte (d : Nat) : UInt8 := if d < 10 then UInt8.ofNat (48 + d) else UInt8.ofNat (55 + d)

def encodeByte (b : UInt8) : Bytes :=
  if b = 32 then [43]
  else if isSafe b then [b]
  else [37, hexByte (b.toNat / 16), hexByte (b.toNat % 16)]

def encode (s : Bytes) : Bytes := s.flatMap encodeByte

/-- What two digits stand for. -/
def unhex (h l : UInt8) : Option UInt8 :=
  match digitValue h, digitValue l with
  | some x, some y => some (UInt8.ofNat (x * 16 + y))
  | _, _ => none

def escaped : Bytes → Option UInt8
  | h :: l :: _ => unhex h l
  | _ => none

/-- `skip` bytes belong to a byte already read. A percent sign without two digits stands for
itself. -/
def decodeFrom : Nat → Bytes → Bytes
  | _, [] => []
  | skip + 1, _ :: s => decodeFrom skip s
  | 0, b :: s =>
    if b = 43 then 32 :: decodeFrom 0 s
    else if b = 37 then
      match escaped s with
      | some c => c :: decodeFrom 2 s
      | none => b :: decodeFrom 0 s
    else b :: decodeFrom 0 s

def decode (s : Bytes) : Bytes := decodeFrom 0 s

def pair (p : Pair) : Bytes := encode p.1 ++ 61 :: encode p.2

def serialize (ps : List Pair) : Bytes := List.intercalate [38] (ps.map pair)

/-- The value begins behind the first equals sign, if there is one. -/
def readPair (s : Bytes) : Pair :=
  (decode (s.takeWhile (· != 61)), decode ((s.dropWhile (· != 61)).drop 1))

def parse (s : Bytes) : List Pair := ((s.splitOn 38).filter (· ≠ [])).map readPair

/-! ## Round trips -/

theorem unhex_hexByte (b : UInt8) : unhex (hexByte (b.toNat / 16)) (hexByte (b.toNat % 16)) = some b :=
  forall_byte (by decide +kernel) b

theorem safe_ne {b : UInt8} : isSafe b = true → b ≠ 43 ∧ b ≠ 37 :=
  forall_byte (by decide +kernel) b

theorem decode_encodeByte (b : UInt8) (s : Bytes) : decode (encodeByte b ++ s) = b :: decode s := by
  unfold encodeByte
  by_cases hspace : b = 32
  · rw [if_pos hspace, hspace]
    rfl
  rw [if_neg hspace]
  cases hsafe : isSafe b with
  | true =>
    obtain ⟨hplus, hpercent⟩ := safe_ne hsafe
    rw [if_pos rfl]
    show decodeFrom 0 (b :: s) = _
    rw [decodeFrom, if_neg hplus, if_neg hpercent]
    rfl
  | false =>
    rw [if_neg Bool.false_ne_true]
    show decodeFrom 0 (37 :: hexByte (b.toNat / 16) :: hexByte (b.toNat % 16) :: s) = _
    rw [decodeFrom, if_neg (by decide), if_pos rfl, escaped, unhex_hexByte]
    rfl

theorem decode_encode (s : Bytes) : decode (encode s) = s := by
  induction s with
  | nil => rfl
  | cons b s ih =>
    show decode (encodeByte b ++ encode s) = _
    rw [decode_encodeByte, ih]

/-- No separator comes out of the encoder. -/
theorem encodeByte_plain (b : UInt8) : ∀ c ∈ encodeByte b, c ≠ 38 ∧ c ≠ 61 := by
  have hall : (encodeByte b).all (fun c => c != 38 && c != 61) = true :=
    forall_byte (by decide +kernel) b
  intro c hc
  have hplain := List.all_eq_true.mp hall c hc
  rw [Bool.and_eq_true, bne_iff_ne, bne_iff_ne] at hplain
  exact hplain

theorem encode_plain (s : Bytes) : ∀ c ∈ encode s, c ≠ 38 ∧ c ≠ 61 := by
  intro c hc
  obtain ⟨b, _, hcb⟩ := List.mem_flatMap.mp hc
  exact encodeByte_plain b c hcb

theorem readPair_pair (p : Pair) : readPair (pair p) = p := by
  have hkey : ∀ c ∈ encode p.1, (c != 61) = true := fun c hc =>
    bne_iff_ne.mpr (encode_plain p.1 c hc).2
  have htake : (pair p).takeWhile (· != 61) = encode p.1 := by
    unfold pair
    rw [List.takeWhile_append_of_pos hkey]
    simp
  have hdrop : (pair p).dropWhile (· != 61) = 61 :: encode p.2 := by
    unfold pair
    rw [List.dropWhile_append_of_pos hkey]
    simp
  unfold readPair
  rw [htake, hdrop, decode_encode]
  exact congrArg (Prod.mk p.1) (decode_encode p.2)

theorem pair_separate (p : Pair) : (38 : UInt8) ∉ pair p := by
  intro h
  obtain h | h := List.mem_append.mp h
  · exact (encode_plain p.1 38 h).1 rfl
  · obtain h | h := List.mem_cons.mp h
    · revert h
      decide
    · exact (encode_plain p.2 38 h).1 rfl

theorem parse_serialize (ps : List Pair) : parse (serialize ps) = ps := by
  unfold parse serialize
  cases ps with
  | nil => rfl
  | cons p ps =>
    have hsplit : (List.intercalate [38] ((p :: ps).map pair)).splitOn 38 = (p :: ps).map pair := by
      refine List.splitOn_intercalate 38 ?_ (by simp)
      intro s hs
      obtain ⟨q, _, rfl⟩ := List.mem_map.mp hs
      exact pair_separate q
    have hfilter : ((p :: ps).map pair).filter (· ≠ []) = (p :: ps).map pair := by
      rw [List.filter_eq_self]
      intro s hs
      obtain ⟨q, _, rfl⟩ := List.mem_map.mp hs
      simp [pair]
    rw [hsplit, hfilter, List.map_map]
    calc
      _ = (p :: ps).map id := List.map_congr_left fun q _ => readPair_pair q
      _ = p :: ps := List.map_id _

end TsonicNode.Lib.Form
