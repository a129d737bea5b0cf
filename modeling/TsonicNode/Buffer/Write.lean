import TsonicNode.Lib.Pieces
import TsonicNode.Buffer.Encoder
import TsonicNode.Buffer.Ranges

/-!
# Texts in buffers

`Buffer.write` stores a prefix of the bytes of a text. The pieces of an
encoding are what may not be cut: the bytes of a code point, the two bytes of a
code unit, and else each byte. `write_pieces` says that as many whole pieces
are stored as there is room for.
-/

namespace TsonicNode.Allocation

open TsonicNode.Lib
open TsonicNode.Lib.Http (forall_byte)
open TsonicNode.Buffer (Byte Encoding encodingName)
open TsonicNode.Buffer.Encoder (asBytes jsString encodeHex encodeBase64 encodeUnits encodeBytes)

/-! ## Writing -/

/-- Back over the bytes that go on with a code point. -/
def backUp (bytes : List Byte) : Nat → Nat
  | 0 => 0
  | count + 1 => if bytes.getD (count + 1) 0 &&& 0xC0 == 0x80 then backUp bytes count else count + 1

def writableByteCount (bytes : List Byte) (maximum : Nat) (encoding : Encoding) : Nat :=
  let count := min maximum bytes.length
  if encoding = .utf16le then count - count % 2
  else if encoding = .utf8 ∧ count < bytes.length then backUp bytes count
  else count

namespace Buffer

/-- The room from `first` on, and no more than a length that was asked for. -/
def writeLimit (buffer : Buffer) (first : Nat) : Option Number → Action Nat
  | none => return buffer.length - first
  | some length => return min (buffer.length - first) (← checkedInteger length buffer.length "length")

def write (buffer : Buffer) (value : Text) (offset : Number) (length : Option Number) (encoding : Text) :
    Action Nat := do
  let first ← checkedInteger offset buffer.length "offset"
  let maximum ← buffer.writeLimit first length
  match encodingName (if encoding = [] then "utf8".toList else encoding) with
  | .error error => throw error
  | .ok name =>
    match encodeBytes value name.name with
    | .error error => throw error
    | .ok bytes =>
      let count := writableByteCount bytes maximum name
      modify ((List.range count).foldl (storeByte buffer.storage (buffer.offset + first) fun index =>
        bytes.getD index 0))
      return count

end Buffer

/-! ## Pieces -/

/-- What may not be cut. -/
def pieces (value : Text) : Encoding → List (List Byte)
  | .utf8 => value.map String.utf8EncodeChar
  | .utf16le => (jsString value).map fun (unit : UInt16) => [(unit &&& 255).toUInt8, (unit >>> 8).toUInt8]
  | .hex => (encodeHex (asBytes value)).map ([·])
  | .base64 | .base64url => (encodeBase64 0 0 (asBytes value)).map ([·])
  | .latin1 | .ascii => (jsString value).map fun (unit : UInt16) => [(unit &&& 255).toUInt8]

theorem flatten_singletons (bytes : List Byte) : (bytes.map ([·])).flatten = bytes := by
  rw [← List.flatMap_def]
  exact List.flatMap_singleton' bytes

theorem encodeBytes_pieces (value : Text) (name : Encoding) :
    encodeBytes value name.name = .ok (pieces value name).flatten := by
  unfold encodeBytes
  rw [TsonicNode.Buffer.encodingName_name]
  cases name with
  | utf8 => rfl
  | utf16le =>
    refine congrArg Except.ok ?_
    rw [pieces, ← List.flatMap_def]
    rfl
  | hex => exact congrArg Except.ok (flatten_singletons _).symm
  | base64 => exact congrArg Except.ok (flatten_singletons _).symm
  | base64url => exact congrArg Except.ok (flatten_singletons _).symm
  | latin1 =>
    refine congrArg Except.ok ?_
    rw [pieces, ← List.flatMap_def]
    rfl
  | ascii =>
    refine congrArg Except.ok ?_
    rw [pieces, ← List.flatMap_def]
    rfl

/-- A byte that goes on with a code point. -/
def goesOn (byte : Byte) : Bool := byte &&& 0xC0 == 0x80

theorem goesOn_eq (byte : Byte) : goesOn byte = decide (0x80 ≤ byte.toNat ∧ byte.toNat < 0xC0) :=
  forall_byte (by decide +kernel) byte

theorem goesOn_ofNat {n : Nat} (h : n < 0x100) : goesOn (UInt8.ofNat n) = decide (0x80 ≤ n ∧ n < 0xC0) := by
  rw [goesOn_eq, UInt8.toNat_ofNat_of_lt' h]

/-- The first byte of a code point is its only one that starts one. -/
theorem marked_utf8 (c : Char) : Marked goesOn (String.utf8EncodeChar c) := by
  have hlead : ∀ n m k : Nat, 0 < m → 0xC0 ≤ k → m + k ≤ 0x100 → goesOn (UInt8.ofNat (n % m + k)) = false := by
    intro n m k hm hk hmk
    have := Nat.mod_lt n hm
    rw [goesOn_ofNat (by omega), decide_eq_false_iff_not]
    omega
  have htail : ∀ n : Nat, goesOn (UInt8.ofNat (n % 0x40 + 0x80)) = true := by
    intro n
    have := Nat.mod_lt n (show 0 < 0x40 by decide)
    rw [goesOn_ofNat (by omega), decide_eq_true_iff]
    omega
  by_cases hone : c.val.toNat ≤ 0x7f
  · rw [show String.utf8EncodeChar c = _ from if_pos hone]
    refine ⟨_, _, rfl, ?_, by simp⟩
    show goesOn (UInt8.ofNat c.val.toNat) = false
    rw [goesOn_ofNat (by omega), decide_eq_false_iff_not]
    omega
  · by_cases htwo : c.val.toNat ≤ 0x7ff
    · rw [show String.utf8EncodeChar c = _ from (if_neg hone).trans (if_pos htwo)]
      refine ⟨_, _, rfl, hlead _ _ _ (by omega) (by omega) (by omega), ?_⟩
      simp only [List.mem_cons, List.not_mem_nil, or_false, forall_eq]
      exact htail _
    · by_cases hthree : c.val.toNat ≤ 0xffff
      · rw [show String.utf8EncodeChar c = _ from (if_neg hone).trans ((if_neg htwo).trans (if_pos hthree))]
        refine ⟨_, _, rfl, hlead _ _ _ (by omega) (by omega) (by omega), ?_⟩
        simp only [List.mem_cons, List.not_mem_nil, or_false, forall_eq_or_imp, forall_eq]
        exact ⟨htail _, htail _⟩
      · rw [show String.utf8EncodeChar c = _ from (if_neg hone).trans ((if_neg htwo).trans (if_neg hthree))]
        refine ⟨_, _, rfl, hlead _ _ _ (by omega) (by omega) (by omega), ?_⟩
        simp only [List.mem_cons, List.not_mem_nil, or_false, forall_eq_or_imp, forall_eq]
        exact ⟨htail _, htail _, htail _⟩

/-- Backing up ends at the last start. -/
theorem backUp_greatest {pieces : List (List Byte)} (h : ∀ piece ∈ pieces, Marked goesOn piece) {count : Nat}
    (hcount : count < pieces.flatten.length) :
    IsGreatest {n | n ≤ count ∧ Starts pieces n} (backUp pieces.flatten count) := by
  induction count with
  | zero => exact ⟨⟨le_rfl, starts_zero pieces⟩, fun n hn => hn.1⟩
  | succ count ih =>
    have hbyte : pieces.flatten[count + 1]? = some (pieces.flatten.getD (count + 1) 0) := by
      rw [List.getD_eq_getElem _ _ hcount, List.getElem?_eq_getElem hcount]
    have hstart := starts_marked h hbyte
    unfold backUp
    split_ifs with hgoes
    · -- no piece starts here
      obtain ⟨⟨hle, hstarts⟩, hmax⟩ := ih (by omega)
      refine ⟨⟨by omega, hstarts⟩, fun n hn => hmax ⟨?_, hn.2⟩⟩
      rcases Nat.lt_or_ge n (count + 1) with hlt | hge
      · omega
      · obtain rfl : n = count + 1 := Nat.le_antisymm hn.1 hge
        have hfalse := hstart.mp hn.2
        rw [goesOn, hgoes] at hfalse
        cases hfalse
    · refine ⟨⟨le_rfl, hstart.mpr ?_⟩, fun n hn => hn.1⟩
      exact Bool.eq_false_of_not_eq_true hgoes

theorem length_singletons (bytes : List Byte) : ∀ piece ∈ bytes.map ([·]), piece.length = 1 := by
  intro piece hpiece
  obtain ⟨byte, -, rfl⟩ := List.mem_map.mp hpiece
  rfl

/-- The pieces of an encoding by code units or bytes have one width. -/
theorem length_pieces (value : Text) {name : Encoding} (h : name ≠ .utf8) :
    ∀ piece ∈ pieces value name, piece.length = if name = .utf16le then 2 else 1 := by
  cases name with
  | utf8 => exact absurd rfl h
  | utf16le =>
    intro piece hpiece
    obtain ⟨unit, -, rfl⟩ := List.mem_map.mp hpiece
    rfl
  | hex => exact length_singletons _
  | base64 => exact length_singletons _
  | base64url => exact length_singletons _
  | latin1 =>
    intro piece hpiece
    obtain ⟨unit, -, rfl⟩ := List.mem_map.mp hpiece
    rfl
  | ascii =>
    intro piece hpiece
    obtain ⟨unit, -, rfl⟩ := List.mem_map.mp hpiece
    rfl

/-- As many bytes are written as whole pieces have that fit. -/
theorem writableByteCount_greatest (value : Text) (name : Encoding) (maximum : Nat) :
    IsGreatest {n | n ≤ maximum ∧ Starts (pieces value name) n}
      (writableByteCount (pieces value name).flatten maximum name) := by
  have hlimit : {n | n ≤ maximum ∧ Starts (pieces value name) n} =
      {n | n ≤ min maximum (pieces value name).flatten.length ∧ Starts (pieces value name) n} := by
    ext n
    refine ⟨fun hn => ⟨le_min hn.1 hn.2.le, hn.2⟩, fun hn => ⟨hn.1.trans (min_le_left _ _), hn.2⟩⟩
  have hfits := min_le_right maximum (pieces value name).flatten.length
  rw [hlimit]
  unfold writableByteCount
  dsimp only
  generalize min maximum (pieces value name).flatten.length = count at *
  by_cases hutf8 : name = .utf8
  · subst hutf8
    have hmarked : ∀ piece ∈ pieces value .utf8, Marked goesOn piece := by
      intro piece hpiece
      obtain ⟨c, -, rfl⟩ := List.mem_map.mp hpiece
      exact marked_utf8 c
    rw [if_neg (by decide)]
    by_cases hcut : count < (pieces value .utf8).flatten.length
    · rw [if_pos ⟨rfl, hcut⟩]
      exact backUp_greatest hmarked hcut
    · obtain rfl : count = (pieces value .utf8).flatten.length := le_antisymm hfits (not_lt.mp hcut)
      rw [if_neg fun hcut => lt_irrefl _ hcut.2]
      exact ⟨⟨le_rfl, starts_length _⟩, fun n hn => hn.1⟩
  · have hwidth := length_pieces value hutf8
    by_cases hwide : name = .utf16le
    · rw [if_pos hwide] at hwidth ⊢
      exact greatest_uniform (by decide) hwidth hfits
    · rw [if_neg hwide] at hwidth ⊢
      rw [if_neg fun h => hutf8 h.1]
      have hgreatest := greatest_uniform (by decide) hwidth hfits
      rwa [Nat.mod_one, Nat.sub_zero] at hgreatest

/-! ## Calls -/

/-- The arguments are taken: the offset, how many bytes may be written from there, and the encoding. -/
structure Accepted (buffer : Buffer) (offset : Number) (length : Option Number) (encoding : Text)
    (first maximum : Nat) (name : Encoding) : Prop where
  offset : offset = .finite first
  room : first ≤ buffer.length
  maximum : length = none ∧ maximum = buffer.length - first ∨
    ∃ limit : Nat, length = some (.finite limit) ∧ limit ≤ buffer.length ∧
      maximum = min (buffer.length - first) limit
  name : encodingName (if encoding = [] then "utf8".toList else encoding) = .ok name

section
variable {memory : Memory} {buffer : Buffer} {value : Text} {offset : Number} {length : Option Number}
  {encoding : Text} {first maximum : Nat} {name : Encoding}

theorem writeLimit_run (h : Accepted buffer offset length encoding first maximum name) :
    buffer.writeLimit first length memory = .ok maximum memory := by
  rcases h.maximum with ⟨rfl, rfl⟩ | ⟨limit, rfl, hlimit, rfl⟩
  · rfl
  · have hnumber : (limit : ℚ) ≤ buffer.length := by exact_mod_cast hlimit
    rw [Buffer.writeLimit, bind_run, checkedInteger_ok hnumber]
    rfl

theorem write_run (h : Accepted buffer offset length encoding first maximum name) (hplaced : Placed memory buffer)
    (value : Text) :
    let bytes := (pieces value name).flatten
    let count := writableByteCount bytes maximum name
    buffer.write value offset length encoding memory =
      .ok count (memory.overlay buffer.storage (buffer.offset + first) (bytes.take count)) := by
  intro bytes count
  have hoffset : (first : ℚ) ≤ buffer.length := by exact_mod_cast h.room
  have hgreatest := writableByteCount_greatest value name maximum
  have hcount : count ≤ bytes.length := hgreatest.1.2.le
  have hmaximum : maximum ≤ buffer.length - first := by
    rcases h.maximum with ⟨-, hmaximum⟩ | ⟨limit, -, -, hmaximum⟩
    · exact hmaximum.le
    · exact hmaximum ▸ min_le_left _ _
  have hfits : buffer.offset + first + count ≤ memory.size buffer.storage := by
    have hle : count ≤ maximum := hgreatest.1.1
    have := h.room
    have := hplaced.fits
    omega
  have hbytes : (List.range count).map (fun index => bytes.getD index 0) = bytes.take count := by
    refine List.ext_getElem (by simp [hcount]) fun index hindex _ => ?_
    simp only [List.length_map, List.length_range] at hindex
    simp only [List.getElem_map, List.getElem_range, List.getElem_take]
    exact List.getD_eq_getElem _ _ (by omega)
  have hoffset' := h.offset
  subst hoffset'
  unfold Buffer.write
  rw [bind_run, checkedInteger_ok hoffset]
  dsimp only
  rw [bind_run, writeLimit_run h]
  dsimp only
  rw [h.name]
  dsimp only
  rw [encodeBytes_pieces]
  dsimp only
  rw [bind_run, modify_run, stores_overlay hfits, hbytes]
  rfl

/-- A call whose arguments are not taken raises before it stores. -/
theorem write_error (h : ¬ ∃ first maximum name, Accepted buffer offset length encoding first maximum name)
    (value : Text) : ∃ error, buffer.write value offset length encoding memory = .error error memory := by
  unfold Buffer.write
  rw [bind_run]
  by_cases hoffset : ∃ first : Nat, offset = .finite first ∧ (first : ℚ) ≤ buffer.length
  · obtain ⟨first, rfl, hroom⟩ := hoffset
    rw [checkedInteger_ok hroom]
    dsimp only
    rw [bind_run]
    have hroom : first ≤ buffer.length := by exact_mod_cast hroom
    by_cases hlength : ∃ maximum, length = none ∧ maximum = buffer.length - first ∨
        ∃ limit : Nat, length = some (.finite limit) ∧ limit ≤ buffer.length ∧
          maximum = min (buffer.length - first) limit
    · obtain ⟨maximum, hmaximum⟩ := hlength
      cases hname : encodingName (if encoding = [] then "utf8".toList else encoding) with
      | ok name => exact absurd ⟨first, maximum, name, rfl, hroom, hmaximum, hname⟩ h
      | error error =>
        refine ⟨error, ?_⟩
        rcases hmaximum with ⟨rfl, -⟩ | ⟨limit, rfl, hlimit, -⟩
        · rfl
        · have hnumber : (limit : ℚ) ≤ buffer.length := by exact_mod_cast hlimit
          rw [Buffer.writeLimit, bind_run, checkedInteger_ok hnumber]
          rfl
    · cases length with
      | none => exact absurd ⟨_, .inl ⟨rfl, rfl⟩⟩ hlength
      | some limit =>
        have hlimit : ¬ ∃ value : Nat, limit = .finite value ∧ (value : ℚ) ≤ buffer.length := by
          rintro ⟨limit, rfl, hlimit⟩
          exact hlength ⟨_, .inr ⟨limit, rfl, by exact_mod_cast hlimit, rfl⟩⟩
        obtain ⟨error, hrun⟩ := @checkedInteger_error memory limit buffer.length hlimit "length"
        refine ⟨error, ?_⟩
        rw [Buffer.writeLimit, bind_run, hrun]
  · obtain ⟨error, hrun⟩ := @checkedInteger_error memory offset buffer.length hoffset "offset"
    exact ⟨error, by rw [hrun]⟩

end

/-- A text is stored as far as whole pieces of it fit. -/
theorem write_pieces {memory : Memory} {buffer : Buffer} (hplaced : Placed memory buffer) (value : Text)
    (offset : Number) (length : Option Number) (encoding : Text) :
    (∀ first maximum name, Accepted buffer offset length encoding first maximum name →
      encodeBytes value name.name = .ok (pieces value name).flatten ∧
      ∃ count, IsGreatest {n | n ≤ maximum ∧ Starts (pieces value name) n} count ∧
        buffer.write value offset length encoding memory =
          .ok count (memory.overlay buffer.storage (buffer.offset + first) ((pieces value name).flatten.take count))) ∧
    ((¬ ∃ first maximum name, Accepted buffer offset length encoding first maximum name) →
      ∃ error, buffer.write value offset length encoding memory = .error error memory) := by
  refine ⟨fun first maximum name h => ⟨encodeBytes_pieces value name, ?_⟩, fun h => write_error h value⟩
  exact ⟨_, writableByteCount_greatest value name maximum, write_run h hplaced value⟩

/-- Five bytes hold one of two euro signs. -/
theorem write_pieces_euro :
    Buffer.write ⟨0, 0, 5⟩ ['€', '€'] (.finite (0 : Nat)) (some (.finite (5 : Nat))) []
        { storages := [[0, 0, 0, 0, 0]] } =
      .ok 3 { storages := [[0xE2, 0x82, 0xAC, 0, 0]] } := by
  have hplaced : Placed { storages := [[0, 0, 0, 0, 0]] } ⟨0, 0, 5⟩ := ⟨by decide, by decide⟩
  have haccepted : Accepted ⟨0, 0, 5⟩ (.finite (0 : Nat)) (some (.finite (5 : Nat))) [] 0 5 .utf8 :=
    ⟨rfl, by decide, .inr ⟨5, rfl, by decide, by decide⟩, rfl⟩
  obtain ⟨-, count, hgreatest, hwrite⟩ := (write_pieces hplaced ['€', '€'] _ _ []).1 0 5 .utf8 haccepted
  have hthree : IsGreatest {n | n ≤ 5 ∧ Starts (pieces ['€', '€'] .utf8) n} 3 := by
    refine ⟨⟨by decide, 1, rfl⟩, ?_⟩
    rintro n ⟨hn, k, rfl⟩
    rcases k with _ | _ | k
    · decide
    · decide
    · exact absurd hn (by simp [pieces, String.utf8EncodeChar])
  obtain rfl : count = 3 := hgreatest.unique hthree
  exact hwrite

end TsonicNode.Allocation
