import Mathlib.Data.List.GetD
import TsonicNode.Buffer.Codec
import TsonicNode.Lib.Number
import TsonicNode.Lib.Overlap

/-!
# Searching bytes

`searchBytes` looks for a needle with the table of its borders, in units of one
byte or of two. A search forward stops at the first match, a search backward
runs to the last start it may have and keeps the last match. The loops are given
fuel; as many steps as the needle has bytes are enough.
-/

namespace TsonicNode.Buffer

open TsonicNode.Lib

def searchOffset (value : Option Number) (length : Int) (reverse : Bool) : Int :=
  let resolve (result : Int) : Int := if result < 0 then result + length else result
  match value with
  | none | some .nan => if reverse then length else 0
  | some (.infinity negative) => resolve (if negative then -2147483648 else 2147483647)
  | some (.finite number) => resolve (truncate (min (max number (-2147483648)) 2147483647))

def unit (bytes : List Byte) (width index : Nat) : UInt16 :=
  let result := (bytes.getD (index * width) 0).toUInt16
  if width = 2 then result ||| (bytes.getD (index * width + 1) 0).toUInt16 <<< 8 else result

section
variable (needle : Nat → UInt16) (fuel : Nat)

/-- The inner loop of both loops: to shorter borders until one goes on with `nextUnit`. -/
def fallBack (prefixes : List Nat) (nextUnit : UInt16) : Nat → Nat → Option Nat
  | 0, _ => none
  | fuel + 1, matched =>
    if matched > 0 ∧ nextUnit ≠ needle matched then
      fallBack prefixes nextUnit fuel (prefixes.getD (matched - 1) 0)
    else some matched

def advance (prefixes : List Nat) (nextUnit : UInt16) (matched : Nat) : Option Nat := do
  let matched ← fallBack needle prefixes nextUnit fuel matched
  return if nextUnit = needle matched then matched + 1 else matched

/-- The table of borders from `index` on, for as many units as are left. -/
def prefixesFrom : Nat → Nat → Nat → List Nat → Option (List Nat)
  | 0, _, _, prefixes => some prefixes
  | left + 1, index, matched, prefixes => do
    let matched ← advance needle fuel prefixes (needle index) matched
    prefixesFrom left (index + 1) matched (prefixes ++ [matched])

/-- The scan of the haystack from `index` on, with the last match found. -/
def scan (haystack : Nat → UInt16) (width count : Nat) (reverse : Bool) (prefixes : List Nat) :
    Nat → Nat → Nat → Int → Option Int
  | 0, _, _, result => some result
  | left + 1, index, matched, result => do
    let matched ← advance needle fuel prefixes (haystack index) matched
    if matched = count then
      let result : Int := ((index + 1 - count) * width : Nat)
      if reverse then
        scan haystack width count reverse prefixes left (index + 1) (prefixes.getD (matched - 1) 0) result
      else return result
    else scan haystack width count reverse prefixes left (index + 1) matched result

end

def searchBytes (fuel : Nat) (haystack needle : List Byte) (byteOffset : Option Number)
    (reverse wide : Bool) : Option Int :=
  let offset := searchOffset byteOffset haystack.length reverse
  if needle.length = 0 then some (min (max offset 0) haystack.length)
  else if reverse ∧ offset < 0 then some (-1)
  else
    let offset := (if reverse then offset else max offset 0).toNat
    let width := if wide then 2 else 1
    let count := needle.length / width
    let length := haystack.length / width
    if count = 0 ∨ count > length then some (-1)
    else if !reverse ∧ offset + needle.length > haystack.length then some (-1)
    else do
      let first := if reverse then 0 else offset / width
      let lastStart := if reverse then min (offset / width) (length - count) else length - count
      let prefixes ← prefixesFrom (unit needle width) fuel (count - 1) 1 0 [0]
      scan (unit needle width) fuel (unit haystack width) width count reverse prefixes
        (lastStart + count - first) first 0 (-1)

/-- The loop of a search backward, over the first `left` bytes. -/
def lastEqual (haystack : List Byte) (needle : Byte) : Nat → Int
  | 0 => -1
  | left + 1 => if haystack.getD left 0 = needle then left else lastEqual haystack needle left

/-- The loop of a search forward, over the `left` bytes from `index` on. -/
def firstEqual (haystack : List Byte) (needle : Byte) : Nat → Nat → Int
  | 0, _ => -1
  | left + 1, index =>
    if haystack.getD index 0 = needle then index else firstEqual haystack needle left (index + 1)

/-- The byte a number stands for. -/
def byteOf (value : Number) : Byte := UInt8.ofNat (value.toUint32 &&& 255)

def searchNumber (haystack : List Byte) (value : Number) (byteOffset : Option Number)
    (reverse : Bool) : Int :=
  let offset := searchOffset byteOffset haystack.length reverse
  if reverse then lastEqual haystack (byteOf value) (min offset (haystack.length - 1) + 1).toNat
  else
    firstEqual haystack (byteOf value) (haystack.length - (max offset 0).toNat) (max offset 0).toNat

/-! ## The answer -/

/-- Where the needle occurs, among the places a search may answer with. -/
def places (haystack needle : List Byte) (offset : Int) (reverse wide : Bool) : Set Nat :=
  {p | needle <+: haystack.drop p ∧ (wide = true → 2 ∣ p) ∧
    if reverse then (p : Int) ≤ offset else offset ≤ p}

/-- The last of the places for a search backward, the first for one forward, `-1` where there is
none. -/
def Answers (reverse : Bool) (places : Set Nat) (result : Int) : Prop :=
  (places = ∅ ∧ result = -1) ∨
    ∃ p : Nat, result = p ∧ if reverse then IsGreatest places p else IsLeast places p

theorem Answers.unique {reverse : Bool} {places : Set Nat} {result other : Int}
    (h : Answers reverse places result) (hother : Answers reverse places other) : result = other := by
  obtain ⟨hnone, rfl⟩ | ⟨p, rfl, hp⟩ := h
  · obtain ⟨-, rfl⟩ | ⟨q, rfl, hq⟩ := hother
    · rfl
    · have hmem : q ∈ places := by
        cases reverse with
        | true => exact hq.1
        | false => exact hq.1
      rw [hnone] at hmem
      exact absurd hmem (Set.notMem_empty q)
  · obtain ⟨hnone, rfl⟩ | ⟨q, rfl, hq⟩ := hother
    · have hmem : p ∈ places := by
        cases reverse with
        | true => exact hp.1
        | false => exact hp.1
      rw [hnone] at hmem
      exact absurd hmem (Set.notMem_empty p)
    · cases reverse with
      | true => rw [hp.unique hq]
      | false => rw [hp.unique hq]

/-! ## The table of borders -/

section
variable {needle : Nat → UInt16} (fuel : Nat) {prefixes : List Nat}

/-- Each entry is the longest border of as many units as stand before its end. -/
def Tabled (needle : Nat → UInt16) (prefixes : List Nat) : Prop :=
  ∀ i < prefixes.length, Longest needle needle 1 i (i + 1) (prefixes.getD i 0)

theorem fallBack_resumes {text : Nat → UInt16} {start stop matched : Nat}
    (htable : Tabled needle prefixes) (hmatched : Overlap needle text start stop matched)
    (hle : matched ≤ prefixes.length) (hfuel : matched < fuel) :
    ∃ k, fallBack needle prefixes (text stop) fuel matched = some k ∧
      Resumes needle text start stop matched k := by
  induction fuel generalizing matched with
  | zero => exact absurd hfuel (Nat.not_lt_zero matched)
  | succ fuel ih =>
    rw [fallBack]
    by_cases hgoes : matched > 0 ∧ text stop ≠ needle matched
    · rw [if_pos hgoes]
      have hborder : Longest needle needle 1 (matched - 1) matched (prefixes.getD (matched - 1) 0) := by
        have hentry := htable (matched - 1) (by omega)
        rwa [Nat.sub_add_cancel hgoes.1] at hentry
      obtain ⟨hlt, hoverlap, -⟩ := hmatched.falls hgoes.1 hborder
      obtain ⟨k, hk, hresumes⟩ := ih hoverlap (by omega) (by omega)
      exact ⟨k, hk, hresumes.of_fall hmatched hgoes.1 hborder hgoes.2⟩
    · rw [if_neg hgoes]
      refine ⟨matched, rfl, hmatched, Nat.le_refl matched, ?_, fun j hj _ _ => hj⟩
      by_cases hzero : matched = 0
      · exact .inl hzero
      · exact .inr (not_not.mp fun hne => hgoes ⟨Nat.pos_of_ne_zero hzero, hne⟩)

/-- One unit further, in the needle itself or in the haystack. -/
theorem advance_longest {text : Nat → UInt16} {start limit stop matched : Nat}
    (htable : Tabled needle prefixes) (hmatched : Longest needle text start limit stop matched)
    (hle : limit ≤ prefixes.length) (hfuel : limit < fuel) :
    ∃ k, advance needle fuel prefixes (text stop) matched = some k ∧
      Longest needle text start (limit + 1) (stop + 1) k := by
  have hlimit := hmatched.1.1
  obtain ⟨k, hk, hresumes⟩ :=
    fallBack_resumes fuel htable hmatched.1.2 (by omega) (by omega)
  refine ⟨_, ?_, hresumes.longest_succ hmatched⟩
  unfold advance
  rw [hk]
  rfl

theorem Tabled.snoc {k : Nat} (htable : Tabled needle prefixes)
    (hk : Longest needle needle 1 prefixes.length (prefixes.length + 1) k) :
    Tabled needle (prefixes ++ [k]) := by
  intro i hi
  rw [List.length_append, List.length_singleton] at hi
  obtain hi | rfl := Nat.lt_succ_iff_lt_or_eq.mp hi
  · rw [List.getD_append _ _ _ _ hi]
    exact htable i hi
  · rw [List.getD_append_right _ _ _ _ (Nat.le_refl _), Nat.sub_self]
    exact hk

theorem prefixesFrom_tabled (left : Nat) {matched : Nat} (htable : Tabled needle prefixes)
    (hmatched : Longest needle needle 1 (prefixes.length - 1) prefixes.length matched)
    (hpos : 0 < prefixes.length) (hfuel : prefixes.length + left ≤ fuel) :
    ∃ table, prefixesFrom needle fuel left prefixes.length matched prefixes = some table ∧
      table.length = prefixes.length + left ∧ Tabled needle table := by
  induction left generalizing matched prefixes with
  | zero => exact ⟨prefixes, rfl, rfl, htable⟩
  | succ left ih =>
    obtain ⟨k, hk, hlongest⟩ := advance_longest fuel htable hmatched (by omega) (by omega)
    rw [Nat.sub_add_cancel hpos] at hlongest
    have hlength : (prefixes ++ [k]).length = prefixes.length + 1 := by simp
    have hnext : Longest needle needle 1 ((prefixes ++ [k]).length - 1) (prefixes ++ [k]).length k := by
      rw [hlength]
      exact hlongest
    obtain ⟨table, htable', hcount, htabled⟩ := ih (htable.snoc hlongest) hnext (by omega) (by omega)
    refine ⟨table, ?_, by omega, htabled⟩
    rw [prefixesFrom, hk]
    rw [hlength] at htable'
    exact htable'

/-! ## The scan -/

variable {text : Nat → UInt16} {count first stop matched : Nat} {result : Int}

/-- The matches that lie between two places. -/
def matches_ (needle text : Nat → UInt16) (count first stop : Nat) : Set Nat :=
  {q | first ≤ q ∧ q + count ≤ stop ∧ ∀ d < count, text (q + d) = needle d}

/-- A match ends at a place where the whole needle overlaps. -/
theorem matches_succ {q : Nat} :
    q ∈ matches_ needle text count first (stop + 1) ↔ q ∈ matches_ needle text count first stop ∨
      (q = stop + 1 - count ∧ Overlap needle text first (stop + 1) count) := by
  constructor
  · rintro ⟨hq, hend, hunits⟩
    by_cases hlast : q + count ≤ stop
    · exact .inl ⟨hq, hlast, hunits⟩
    · have hplace : q = stop + 1 - count := by omega
      refine .inr ⟨hplace, by omega, fun d hd => ?_⟩
      rw [← hplace]
      exact hunits d hd
  · rintro (⟨hq, hend, hunits⟩ | ⟨rfl, hle, hunits⟩)
    · exact ⟨hq, by omega, hunits⟩
    · exact ⟨by omega, by omega, hunits⟩

/-- What one unit does: the whole needle matches there, or no match ends there. -/
theorem scan_unit (htable : Tabled needle prefixes) (hlength : prefixes.length = count)
    (hcount : 0 < count) (hfuel : count ≤ fuel)
    (hmatched : Longest needle text first (count - 1) stop matched) :
    ∃ k, advance needle fuel prefixes (text stop) matched = some k ∧
      ((k = count ∧ first + count ≤ stop + 1 ∧
          stop + 1 - count ∈ matches_ needle text count first (stop + 1) ∧
          Longest needle text first (count - 1) (stop + 1) (prefixes.getD (count - 1) 0)) ∨
        (k ≠ count ∧ Longest needle text first (count - 1) (stop + 1) k ∧
          matches_ needle text count first (stop + 1) = matches_ needle text count first stop)) := by
  have hfirst : first ≤ stop := by
    have := hmatched.1.2.1
    omega
  obtain ⟨k, hk, hlongest⟩ := advance_longest fuel htable hmatched (by omega) (by omega)
  rw [Nat.sub_add_cancel hcount] at hlongest
  refine ⟨k, hk, ?_⟩
  by_cases hwhole : k = count
  · subst hwhole
    have hoverlap := hlongest.1.2
    have hborder : Longest needle needle 1 (k - 1) k (prefixes.getD (k - 1) 0) := by
      have hentry := htable (k - 1) (by omega)
      rwa [Nat.sub_add_cancel hcount] at hentry
    obtain ⟨hlt, hfalls, hnext⟩ := hoverlap.falls hcount hborder
    refine .inl ⟨rfl, hoverlap.1, matches_succ.mpr (.inr ⟨rfl, hoverlap⟩), ⟨?_, ?_⟩⟩
    · exact ⟨by omega, hfalls⟩
    · rintro j ⟨hj, hjoverlap⟩
      exact hnext j (by omega) hjoverlap
  · have hle : k ≤ count - 1 := by
      have := hlongest.1.1
      omega
    refine .inr ⟨hwhole, hlongest.below hle (by omega), Set.ext fun q => ?_⟩
    rw [matches_succ]
    constructor
    · rintro (hq | ⟨-, hoverlap⟩)
      · exact hq
      · have := hlongest.2 ⟨Nat.le_refl count, hoverlap⟩
        omega
    · exact .inl

theorem scan_forward (width left : Nat) (htable : Tabled needle prefixes) (hlength : prefixes.length = count)
    (hcount : 0 < count) (hfuel : count ≤ fuel)
    (hmatched : Longest needle text first (count - 1) stop matched)
    (hnone : matches_ needle text count first stop = ∅) :
    ∃ found : Int, scan needle fuel text width count false prefixes left stop matched (-1) = some found ∧
      ((matches_ needle text count first (stop + left) = ∅ ∧ found = -1) ∨
        ∃ q, IsLeast (matches_ needle text count first (stop + left)) q ∧ found = (q * width : Nat)) := by
  induction left generalizing stop matched with
  | zero => exact ⟨-1, rfl, .inl ⟨hnone, rfl⟩⟩
  | succ left ih =>
    obtain ⟨k, hk, ⟨rfl, hle, hmem, -⟩ | ⟨hne, hlongest, hsame⟩⟩ :=
      scan_unit fuel htable hlength hcount hfuel hmatched
    · refine ⟨((stop + 1 - k) * width : Nat), ?_, .inr ⟨stop + 1 - k, ⟨⟨hmem.1, ?_, hmem.2.2⟩, ?_⟩, rfl⟩⟩
      · rw [scan, hk]
        exact if_pos rfl
      · omega
      · rintro q ⟨hq, hend, hunits⟩
        -- a match to the left of this one would have ended before
        by_contra hlt
        have hmem' : q ∈ matches_ needle text k first stop := ⟨hq, by omega, hunits⟩
        rw [hnone] at hmem'
        exact hmem'
    · obtain ⟨found, hfound, hanswer⟩ := ih hlongest (hsame.trans hnone)
      refine ⟨found, ?_, ?_⟩
      · rw [scan, hk]
        exact (if_neg hne).trans hfound
      · rwa [show stop + (left + 1) = stop + 1 + left by omega]

theorem scan_backward (width left : Nat) (htable : Tabled needle prefixes) (hlength : prefixes.length = count)
    (hcount : 0 < count) (hfuel : count ≤ fuel)
    (hmatched : Longest needle text first (count - 1) stop matched)
    (hlast : (matches_ needle text count first stop = ∅ ∧ result = -1) ∨
      ∃ q, IsGreatest (matches_ needle text count first stop) q ∧ result = (q * width : Nat)) :
    ∃ found : Int, scan needle fuel text width count true prefixes left stop matched result = some found ∧
      ((matches_ needle text count first (stop + left) = ∅ ∧ found = -1) ∨
        ∃ q, IsGreatest (matches_ needle text count first (stop + left)) q ∧
          found = (q * width : Nat)) := by
  induction left generalizing stop matched result with
  | zero => exact ⟨result, rfl, hlast⟩
  | succ left ih =>
    obtain ⟨k, hk, ⟨rfl, hle, hmem, hlongest⟩ | ⟨hne, hlongest, hsame⟩⟩ :=
      scan_unit fuel htable hlength hcount hfuel hmatched
    · have hgreatest : IsGreatest (matches_ needle text k first (stop + 1)) (stop + 1 - k) :=
        ⟨hmem, fun q hq => by
          have := hq.2.1
          omega⟩
      obtain ⟨found, hfound, hanswer⟩ := ih hlongest (.inr ⟨stop + 1 - k, hgreatest, rfl⟩)
      refine ⟨found, ?_, ?_⟩
      · rw [scan, hk]
        exact (if_pos rfl).trans hfound
      · rwa [show stop + (left + 1) = stop + 1 + left by omega]
    · obtain ⟨found, hfound, hanswer⟩ := ih hlongest (hsame.symm ▸ hlast)
      refine ⟨found, ?_, ?_⟩
      · rw [scan, hk]
        exact (if_neg hne).trans hfound
      · rwa [show stop + (left + 1) = stop + 1 + left by omega]

end

/-! ## Units and bytes -/

theorem toNat_wideUnit (low high : Byte) :
    (low.toUInt16 ||| high.toUInt16 <<< 8).toNat = high.toNat <<< 8 + low.toNat := by
  have hlow : low.toNat < 2 ^ 8 := low.toNat_lt
  have hhigh : high.toNat <<< 8 < 2 ^ 16 := by
    rw [Nat.shiftLeft_eq]
    have := high.toNat_lt
    omega
  rw [UInt16.toNat_or, UInt16.toNat_shiftLeft, UInt8.toNat_toUInt16, UInt8.toNat_toUInt16,
    show (8 : UInt16).toNat % 16 = 8 from rfl, Nat.mod_eq_of_lt hhigh, Nat.or_comm,
    ← Nat.shiftLeft_add_eq_or_of_lt hlow]

theorem wideUnit_inj {low high low' high' : Byte} :
    low.toUInt16 ||| high.toUInt16 <<< 8 = low'.toUInt16 ||| high'.toUInt16 <<< 8 ↔
      low = low' ∧ high = high' := by
  constructor
  · intro h
    have hnat := congrArg UInt16.toNat h
    rw [toNat_wideUnit, toNat_wideUnit, Nat.shiftLeft_eq, Nat.shiftLeft_eq] at hnat
    have hlow := low.toNat_lt
    have hlow' := low'.toNat_lt
    exact ⟨UInt8.toNat_inj.mp (by omega), UInt8.toNat_inj.mp (by omega)⟩
  · rintro ⟨rfl, rfl⟩
    rfl

/-- The width of a unit, in bytes. -/
abbrev unitWidth (wide : Bool) : Nat := if wide then 2 else 1

theorem unit_inj {xs ys : List Byte} {wide : Bool} {i j : Nat} :
    unit xs (unitWidth wide) i = unit ys (unitWidth wide) j ↔
      ∀ b < unitWidth wide, xs.getD (i * unitWidth wide + b) 0 = ys.getD (j * unitWidth wide + b) 0 := by
  cases wide with
  | false =>
    show (xs.getD (i * 1) 0).toUInt16 = (ys.getD (j * 1) 0).toUInt16 ↔ _
    constructor
    · intro h b hb
      obtain rfl : b = 0 := Nat.lt_one_iff.mp hb
      exact UInt8.toUInt16_inj.mp h
    · intro h
      exact congrArg UInt8.toUInt16 (h 0 Nat.one_pos)
  | true =>
    show (xs.getD (i * 2) 0).toUInt16 ||| (xs.getD (i * 2 + 1) 0).toUInt16 <<< 8 =
      (ys.getD (j * 2) 0).toUInt16 ||| (ys.getD (j * 2 + 1) 0).toUInt16 <<< 8 ↔ _
    rw [wideUnit_inj]
    constructor
    · rintro ⟨hlow, hhigh⟩ b hb
      obtain rfl | rfl : b = 0 ∨ b = 1 := by
        have : b < 2 := hb
        omega
      · exact hlow
      · exact hhigh
    · intro h
      exact ⟨h 0 Nat.two_pos, h 1 Nat.one_lt_two⟩

theorem occurs_iff {haystack needle : List Byte} {p : Nat} (hend : p + needle.length ≤ haystack.length) :
    needle <+: haystack.drop p ↔
      ∀ i < needle.length, haystack.getD (p + i) 0 = needle.getD i 0 := by
  rw [List.prefix_iff_getElem?]
  constructor
  · intro h i hi
    have hitem := h i hi
    rw [List.getElem?_drop, List.getElem?_eq_getElem (by omega)] at hitem
    rw [List.getD_eq_getElem _ _ (by omega), List.getD_eq_getElem _ _ hi]
    exact Option.some.inj hitem
  · intro h i hi
    have hitem := h i hi
    rw [List.getD_eq_getElem _ _ (by omega), List.getD_eq_getElem _ _ hi] at hitem
    rw [List.getElem?_drop, List.getElem?_eq_getElem (by omega), hitem]

theorem length_of_occurs {haystack needle : List Byte} {p : Nat} (h : needle <+: haystack.drop p)
    (hneedle : needle ≠ []) : p + needle.length ≤ haystack.length := by
  have hle := h.length_le
  have hpos := List.length_pos_iff.mpr hneedle
  rw [List.length_drop] at hle
  omega

/-- A match unit by unit is one byte by byte. -/
theorem units_eq_iff {haystack needle : List Byte} {wide : Bool} {count q : Nat}
    (hcount : count * unitWidth wide = needle.length)
    (hend : q * unitWidth wide + needle.length ≤ haystack.length) :
    (∀ d < count, unit haystack (unitWidth wide) (q + d) = unit needle (unitWidth wide) d) ↔
      needle <+: haystack.drop (q * unitWidth wide) := by
  have hpos : 0 < unitWidth wide := by
    cases wide <;> decide
  rw [occurs_iff hend]
  constructor
  · intro h i hi
    have hd : i / unitWidth wide < count := (Nat.div_lt_iff_lt_mul hpos).mpr (by omega)
    have hbyte := unit_inj.mp (h _ hd) (i % unitWidth wide) (Nat.mod_lt _ hpos)
    rwa [Nat.add_mul, Nat.add_assoc, Nat.div_add_mod'] at hbyte
  · intro h d hd
    rw [unit_inj]
    intro b hb
    have hlt : d * unitWidth wide + b < needle.length := by
      have := Nat.mul_le_mul_right (unitWidth wide) (Nat.succ_le_of_lt hd)
      rw [Nat.succ_mul] at this
      omega
    have hbyte := h _ hlt
    rwa [← Nat.add_assoc, ← Nat.add_mul] at hbyte

/-! ## The search -/

section
variable {haystack needle : List Byte} {offset : Int} {reverse wide : Bool}

theorem places_empty (hneedle : needle ≠ [])
    (h : ∀ p, p + needle.length ≤ haystack.length → ¬ if reverse then (p : Int) ≤ offset else offset ≤ p) :
    places haystack needle offset reverse wide = ∅ := by
  refine Set.eq_empty_of_forall_notMem fun p hp => ?_
  exact h p (length_of_occurs hp.1 hneedle) hp.2.2

/-- The places are where the matches in units begin. -/
theorem places_eq {count : Nat} (first stop : Nat) (hneedle : needle ≠ [])
    (hcount : count * unitWidth wide = needle.length) (hstop : stop * unitWidth wide ≤ haystack.length)
    (hrange : ∀ q, q * unitWidth wide + needle.length ≤ haystack.length →
      ((if reverse then ((q * unitWidth wide : Nat) : Int) ≤ offset else offset ≤ (q * unitWidth wide : Nat)) ↔
        first ≤ q ∧ q + count ≤ stop)) :
    places haystack needle offset reverse wide =
      (· * unitWidth wide) '' matches_ (unit needle (unitWidth wide)) (unit haystack (unitWidth wide))
        count first stop := by
  ext p
  constructor
  · rintro ⟨hoccurs, haligned, hoffset⟩
    obtain ⟨q, rfl⟩ : ∃ q, q * unitWidth wide = p := by
      cases wide with
      | false => exact ⟨p, Nat.mul_one p⟩
      | true =>
        obtain ⟨q, rfl⟩ := haligned rfl
        exact ⟨q, Nat.mul_comm q 2⟩
    have hend := length_of_occurs hoccurs hneedle
    obtain ⟨hfirst, hlast⟩ := (hrange q hend).mp hoffset
    exact ⟨q, ⟨hfirst, hlast, (units_eq_iff hcount hend).mpr hoccurs⟩, rfl⟩
  · rintro ⟨q, ⟨hfirst, hlast, hunits⟩, rfl⟩
    have hend : q * unitWidth wide + needle.length ≤ haystack.length := by
      have := Nat.mul_le_mul_right (unitWidth wide) hlast
      rw [Nat.add_mul, hcount] at this
      omega
    refine ⟨(units_eq_iff hcount hend).mp hunits, ?_, (hrange q hend).mpr ⟨hfirst, hlast⟩⟩
    rintro rfl
    exact Nat.dvd_mul_left 2 q

theorem unitWidth_pos (wide : Bool) : 0 < unitWidth wide := by
  cases wide <;> decide

theorem count_mul (needle : List Byte) (wide : Bool) (heven : wide = true → 2 ∣ needle.length) :
    needle.length / unitWidth wide * unitWidth wide = needle.length := by
  cases wide with
  | false => exact (Nat.mul_one _).trans (Nat.div_one _)
  | true => exact Nat.div_mul_cancel (heven rfl)

/-- The table of a needle, found with as much fuel as it has units. -/
theorem prefixes_found (unit : Nat → UInt16) {count fuel : Nat} (hcount : 0 < count) (hfuel : count ≤ fuel) :
    ∃ table, prefixesFrom unit fuel (count - 1) 1 0 [0] = some table ∧ table.length = count ∧
      Tabled unit table := by
  have hzero : Longest unit unit 1 0 1 0 :=
    ⟨⟨Nat.le_refl 0, overlap_zero.mpr (Nat.le_refl 1)⟩, fun j hj => hj.1⟩
  have htabled : Tabled unit [0] := by
    intro i hi
    obtain rfl : i = 0 := Nat.lt_one_iff.mp hi
    exact hzero
  obtain ⟨table, htable, hlength, htabled⟩ :=
    prefixesFrom_tabled fuel (count - 1) htabled hzero Nat.one_pos
      (by rw [List.length_singleton]; omega)
  refine ⟨table, htable, ?_, htabled⟩
  rw [hlength, List.length_singleton]
  omega

/-- Before the first unit nothing overlaps. -/
theorem longest_start {pattern text : Nat → UInt16} {limit first : Nat} :
    Longest pattern text first limit first 0 := by
  refine ⟨⟨Nat.zero_le _, overlap_zero.mpr (Nat.le_refl first)⟩, ?_⟩
  rintro j ⟨-, hj⟩
  have := hj.1
  omega

theorem place_le {q : Nat} (heven : wide = true → 2 ∣ offset) :
    (max offset 0).toNat / unitWidth wide ≤ q ↔ offset ≤ (q * unitWidth wide : Nat) := by
  cases wide with
  | false =>
    show (max offset 0).toNat / 1 ≤ q ↔ offset ≤ (q * 1 : Nat)
    omega
  | true =>
    have heven := heven rfl
    show (max offset 0).toNat / 2 ≤ q ↔ offset ≤ (q * 2 : Nat)
    omega

theorem le_place (wide : Bool) (q : Nat) (hoffset : 0 ≤ offset) :
    q ≤ offset.toNat / unitWidth wide ↔ ((q * unitWidth wide : Nat) : Int) ≤ offset := by
  rw [Nat.le_div_iff_mul_le (unitWidth_pos wide)]
  omega

/-- A match leaves room for its own units. -/
theorem room_of_end {count q : Nat} (hcount : count * unitWidth wide = needle.length)
    (hend : q * unitWidth wide + needle.length ≤ haystack.length) :
    q + count ≤ haystack.length / unitWidth wide := by
  rw [Nat.le_div_iff_mul_le (unitWidth_pos wide), Nat.add_mul]
  omega

theorem places_short {count : Nat} (hneedle : needle ≠ []) (hcount : count * unitWidth wide = needle.length)
    (hshort : count > haystack.length / unitWidth wide) :
    places haystack needle offset reverse wide = ∅ := by
  refine places_empty hneedle fun p hp _ => ?_
  have := (Nat.div_lt_iff_lt_mul (unitWidth_pos wide)).mp hshort
  omega

theorem starts_mono : Monotone (· * unitWidth wide) := fun _ _ h => Nat.mul_le_mul_right _ h

theorem searchBytes_forward {byteOffset : Option Number} {fuel : Nat} (hneedle : needle ≠ [])
    (hoffset : searchOffset byteOffset haystack.length false = offset)
    (heven : wide = true → 2 ∣ needle.length ∧ 2 ∣ offset) (hfuel : needle.length ≤ fuel) :
    ∃ result, searchBytes fuel haystack needle byteOffset false wide = some result ∧
      Answers false (places haystack needle offset false wide) result := by
  have hpos := unitWidth_pos wide
  have hcount := count_mul needle wide fun h => (heven h).1
  have hlength := List.length_pos_iff.mpr hneedle
  unfold searchBytes
  simp only [hoffset, Bool.false_eq_true, false_and, if_false, Bool.not_false, true_and]
  rw [if_neg (fun h => hneedle (List.length_eq_zero_iff.mp h))]
  generalize hunits : needle.length / unitWidth wide = count at hcount ⊢
  have hcountpos : 0 < count := by
    refine Nat.pos_of_ne_zero fun h => ?_
    rw [h, Nat.zero_mul] at hcount
    omega
  by_cases hshort : count = 0 ∨ count > haystack.length / unitWidth wide
  · rw [if_pos hshort]
    exact ⟨-1, rfl, .inl ⟨places_short hneedle hcount (hshort.resolve_left hcountpos.ne'), rfl⟩⟩
  rw [if_neg hshort]
  generalize hplace : (max offset 0).toNat = place
  by_cases hlate : place + needle.length > haystack.length
  · rw [if_pos hlate]
    refine ⟨-1, rfl, .inl ⟨places_empty hneedle fun p hp hle => ?_, rfl⟩⟩
    have hle : offset ≤ p := hle
    omega
  rw [if_neg hlate]
  have hcountfuel : count ≤ fuel := by
    have := Nat.le_mul_of_pos_right count hpos
    omega
  obtain ⟨table, htable, htablelength, htabled⟩ :=
    prefixes_found (unit needle (unitWidth wide)) hcountpos hcountfuel
  have hnone : matches_ (unit needle (unitWidth wide)) (unit haystack (unitWidth wide)) count
      (place / unitWidth wide) (place / unitWidth wide) = ∅ :=
    Set.eq_empty_of_forall_notMem fun q hq => by
      have hfirst := hq.1
      have hlast := hq.2.1
      omega
  obtain ⟨found, hfound, hanswer⟩ := scan_forward fuel (unitWidth wide)
    (haystack.length / unitWidth wide - count + count - place / unitWidth wide) htabled htablelength hcountpos hcountfuel longest_start hnone
  have hfirst : place / unitWidth wide ≤ haystack.length / unitWidth wide :=
    Nat.div_le_div_right (by omega)
  rw [show place / unitWidth wide +
    (haystack.length / unitWidth wide - count + count - place / unitWidth wide) =
      haystack.length / unitWidth wide by omega] at hanswer
  have hplaces : places haystack needle offset false wide = _ :=
    places_eq (place / unitWidth wide) (haystack.length / unitWidth wide) hneedle hcount
      (Nat.div_mul_le_self _ _) fun q hend => by
        rw [← hplace, place_le fun h => (heven h).2]
        exact ⟨fun h => ⟨h, room_of_end hcount hend⟩, fun h => h.1⟩
  refine ⟨found, ?_, ?_⟩
  · rw [htable]
    exact hfound
  · rw [hplaces]
    obtain ⟨hempty, rfl⟩ | ⟨q, hq, rfl⟩ := hanswer
    · exact .inl ⟨by rw [hempty, Set.image_empty], rfl⟩
    · exact .inr ⟨_, rfl, starts_mono.map_isLeast hq⟩

theorem searchBytes_backward {byteOffset : Option Number} {fuel : Nat} (hneedle : needle ≠ [])
    (hoffset : searchOffset byteOffset haystack.length true = offset)
    (heven : wide = true → 2 ∣ needle.length) (hfuel : needle.length ≤ fuel) :
    ∃ result, searchBytes fuel haystack needle byteOffset true wide = some result ∧
      Answers true (places haystack needle offset true wide) result := by
  have hpos := unitWidth_pos wide
  have hcount := count_mul needle wide heven
  have hlength := List.length_pos_iff.mpr hneedle
  unfold searchBytes
  simp only [hoffset, true_and, if_true, Bool.not_true, Bool.false_eq_true, false_and, if_false]
  rw [if_neg (fun h => hneedle (List.length_eq_zero_iff.mp h))]
  by_cases hback : offset < 0
  · rw [if_pos hback]
    refine ⟨-1, rfl, .inl ⟨places_empty hneedle fun p hp hle => ?_, rfl⟩⟩
    have hle : (p : Int) ≤ offset := hle
    omega
  rw [if_neg hback]
  generalize hunits : needle.length / unitWidth wide = count at hcount ⊢
  have hcountpos : 0 < count := by
    refine Nat.pos_of_ne_zero fun h => ?_
    rw [h, Nat.zero_mul] at hcount
    omega
  have hcountfuel : count ≤ fuel := by
    have := Nat.le_mul_of_pos_right count hpos
    omega
  by_cases hshort : count = 0 ∨ count > haystack.length / unitWidth wide
  · rw [if_pos hshort]
    exact ⟨-1, rfl, .inl ⟨places_short hneedle hcount (hshort.resolve_left hcountpos.ne'), rfl⟩⟩
  rw [if_neg hshort]
  obtain ⟨table, htable, htablelength, htabled⟩ :=
    prefixes_found (unit needle (unitWidth wide)) hcountpos hcountfuel
  have hnone : matches_ (unit needle (unitWidth wide)) (unit haystack (unitWidth wide)) count 0 0 = ∅ :=
    Set.eq_empty_of_forall_notMem fun q hq => by
      have := hq.2.1
      omega
  generalize hlast : min (offset.toNat / unitWidth wide) (haystack.length / unitWidth wide - count) + count =
    stop
  obtain ⟨found, hfound, hanswer⟩ := scan_backward fuel (unitWidth wide) stop htabled htablelength
    hcountpos hcountfuel longest_start (.inl ⟨hnone, rfl⟩)
  rw [Nat.zero_add] at hanswer
  have hplaces : places haystack needle offset true wide = _ :=
    places_eq 0 stop hneedle hcount (by
      rw [← Nat.le_div_iff_mul_le hpos]
      omega) fun q hend => by
        have hroom := room_of_end hcount hend
        have hplace := le_place wide q (not_lt.mp hback)
        rw [← hlast]
        constructor
        · intro h
          have := hplace.mpr h
          omega
        · intro h
          exact hplace.mp (by omega)
  refine ⟨found, ?_, ?_⟩
  · rw [htable]
    exact hfound
  · rw [hplaces]
    obtain ⟨hempty, rfl⟩ | ⟨q, hq, rfl⟩ := hanswer
    · exact .inl ⟨by rw [hempty, Set.image_empty], rfl⟩
    · exact .inr ⟨_, rfl, starts_mono.map_isGreatest hq⟩

/-! ## One byte -/

theorem lastEqual_spec (haystack : List Byte) (byte : Byte) (left : Nat) :
    (lastEqual haystack byte left = -1 ∧ ∀ i < left, haystack.getD i 0 ≠ byte) ∨
      ∃ i < left, lastEqual haystack byte left = i ∧ haystack.getD i 0 = byte ∧
        ∀ j < left, haystack.getD j 0 = byte → j ≤ i := by
  induction left with
  | zero => exact .inl ⟨rfl, fun i hi => absurd hi (Nat.not_lt_zero i)⟩
  | succ left ih =>
    rw [lastEqual]
    by_cases hbyte : haystack.getD left 0 = byte
    · rw [if_pos hbyte]
      exact .inr ⟨left, Nat.lt_succ_self left, rfl, hbyte, fun j hj _ => Nat.lt_succ_iff.mp hj⟩
    · rw [if_neg hbyte]
      have hrest : ∀ j < left + 1, haystack.getD j 0 = byte → j < left := fun j hj hjbyte =>
        lt_of_le_of_ne (Nat.lt_succ_iff.mp hj) fun heq => hbyte (heq ▸ hjbyte)
      obtain ⟨hnone, hother⟩ | ⟨i, hi, hlast, hibyte, hother⟩ := ih
      · exact .inl ⟨hnone, fun j hj hjbyte => hother j (hrest j hj hjbyte) hjbyte⟩
      · exact .inr ⟨i, by omega, hlast, hibyte, fun j hj hjbyte => hother j (hrest j hj hjbyte) hjbyte⟩

theorem firstEqual_spec (haystack : List Byte) (byte : Byte) (left index : Nat) :
    (firstEqual haystack byte left index = -1 ∧
        ∀ i, index ≤ i → i < index + left → haystack.getD i 0 ≠ byte) ∨
      ∃ i, index ≤ i ∧ i < index + left ∧ firstEqual haystack byte left index = i ∧
        haystack.getD i 0 = byte ∧
        ∀ j, index ≤ j → j < index + left → haystack.getD j 0 = byte → i ≤ j := by
  induction left generalizing index with
  | zero => exact .inl ⟨rfl, fun i hi hlt => by omega⟩
  | succ left ih =>
    rw [firstEqual]
    by_cases hbyte : haystack.getD index 0 = byte
    · rw [if_pos hbyte]
      exact .inr ⟨index, Nat.le_refl index, by omega, rfl, hbyte, fun j hj _ _ => hj⟩
    · rw [if_neg hbyte]
      have hrest : ∀ j, index ≤ j → haystack.getD j 0 = byte → index + 1 ≤ j := fun j hj hjbyte =>
        lt_of_le_of_ne hj fun heq => hbyte (heq ▸ hjbyte)
      obtain ⟨hnone, hother⟩ | ⟨i, hi, hlt, hfirst, hibyte, hother⟩ := ih (index + 1)
      · exact .inl ⟨hnone, fun j hj hlt hjbyte => hother j (hrest j hj hjbyte) (by omega) hjbyte⟩
      · exact .inr ⟨i, by omega, by omega, hfirst, hibyte, fun j hj hlt hjbyte =>
          hother j (hrest j hj hjbyte) (by omega) hjbyte⟩

theorem mem_places_byte {byte : Byte} {p : Nat} :
    p ∈ places haystack [byte] offset reverse false ↔ (p < haystack.length ∧ haystack.getD p 0 = byte) ∧
      if reverse then (p : Int) ≤ offset else offset ≤ p := by
  have hbyte : [byte] <+: haystack.drop p ↔ p < haystack.length ∧ haystack.getD p 0 = byte := by
    constructor
    · intro h
      have hend := length_of_occurs h (List.cons_ne_nil byte [])
      exact ⟨hend, (occurs_iff hend).mp h 0 Nat.one_pos⟩
    · rintro ⟨hend, hitem⟩
      refine (occurs_iff (by exact hend)).mpr fun i hi => ?_
      obtain rfl : i = 0 := Nat.lt_one_iff.mp hi
      exact hitem
  constructor
  · rintro ⟨hoccurs, -, hoffset⟩
    exact ⟨hbyte.mp hoccurs, hoffset⟩
  · rintro ⟨hitem, hoffset⟩
    exact ⟨hbyte.mpr hitem, fun h => absurd h Bool.false_ne_true, hoffset⟩

theorem searchNumber_answers (value : Number) (byteOffset : Option Number) (reverse : Bool) :
    Answers reverse
      (places haystack [byteOf value] (searchOffset byteOffset haystack.length reverse) reverse false)
      (searchNumber haystack value byteOffset reverse) := by
  unfold searchNumber
  dsimp only
  generalize searchOffset byteOffset haystack.length reverse = offset
  cases reverse with
  | true =>
    rw [if_pos rfl]
    have hrange : ∀ i, i < (min offset (haystack.length - 1) + 1).toNat ↔
        i < haystack.length ∧ (i : Int) ≤ offset := by
      intro i
      omega
    obtain ⟨hnone, hother⟩ | ⟨i, hi, hlast, hbyte, hother⟩ :=
      lastEqual_spec haystack (byteOf value) (min offset (haystack.length - 1) + 1).toNat
    · refine .inl ⟨Set.eq_empty_of_forall_notMem fun p hp => ?_, hnone⟩
      obtain ⟨⟨hp, hitem⟩, hoffset⟩ := mem_places_byte.mp hp
      exact hother p ((hrange p).mpr ⟨hp, hoffset⟩) hitem
    · obtain ⟨hlt, hoffset⟩ := (hrange i).mp hi
      refine .inr ⟨i, hlast, mem_places_byte.mpr ⟨⟨hlt, hbyte⟩, hoffset⟩, fun p hp => ?_⟩
      obtain ⟨⟨hp, hitem⟩, hpoffset⟩ := mem_places_byte.mp hp
      exact hother p ((hrange p).mpr ⟨hp, hpoffset⟩) hitem
  | false =>
    rw [if_neg Bool.false_ne_true]
    generalize hplace : (max offset 0).toNat = place
    have hrange : ∀ i, (place ≤ i ∧ i < place + (haystack.length - place)) ↔
        i < haystack.length ∧ offset ≤ (i : Int) := by
      intro i
      omega
    obtain ⟨hnone, hother⟩ | ⟨i, hi, hend, hfirst, hbyte, hother⟩ :=
      firstEqual_spec haystack (byteOf value) (haystack.length - place) place
    · refine .inl ⟨Set.eq_empty_of_forall_notMem fun p hp => ?_, hnone⟩
      obtain ⟨⟨hp, hitem⟩, hoffset⟩ := mem_places_byte.mp hp
      obtain ⟨hle, hlt⟩ := (hrange p).mpr ⟨hp, hoffset⟩
      exact hother p hle hlt hitem
    · obtain ⟨hlt, hoffset⟩ := (hrange i).mp ⟨hi, hend⟩
      refine .inr ⟨i, hfirst, mem_places_byte.mpr ⟨⟨hlt, hbyte⟩, hoffset⟩, fun p hp => ?_⟩
      obtain ⟨⟨hp, hitem⟩, hpoffset⟩ := mem_places_byte.mp hp
      obtain ⟨hle, hplt⟩ := (hrange p).mpr ⟨hp, hpoffset⟩
      exact hother p hle hplt hitem

end

/-! ## The offset -/

/-- Where an offset points: to a place, or below or above all of them. -/
inductive Target where
  | below
  | place (index : Int)
  | above

/-- The target is no later than a place. -/
def Target.AtMost (p : Nat) : Target → Prop
  | .below => True
  | .place index => index ≤ p
  | .above => False

/-- The target is no earlier than a place. -/
def Target.AtLeast (p : Nat) : Target → Prop
  | .below => False
  | .place index => p ≤ index
  | .above => True

/-- Where a search begins: at the offset without its fraction, counted from the end if it is
negative, and at its own end without one. -/
def resolved : Option Number → Nat → Bool → Target
  | none, length, reverse | some .nan, length, reverse => .place (if reverse then length else 0)
  | some (.infinity negative), _, _ => if negative then .below else .above
  | some (.finite number), length, _ =>
    .place (if truncate number < 0 then truncate number + length else truncate number)

/-- Clamping an offset moves it over no place of a haystack shorter than 2147483648 bytes. -/
theorem searchOffset_resolved {length p : Nat} (hlength : length < 2147483648) (hp : p < length)
    (byteOffset : Option Number) (reverse : Bool) :
    (searchOffset byteOffset length reverse ≤ p ↔ (resolved byteOffset length reverse).AtMost p) ∧
      ((p : Int) ≤ searchOffset byteOffset length reverse ↔
        (resolved byteOffset length reverse).AtLeast p) := by
  rcases byteOffset with _ | (_ | negative | number)
  · exact ⟨Iff.rfl, Iff.rfl⟩
  · exact ⟨Iff.rfl, Iff.rfl⟩
  · cases negative with
    | true =>
      simp only [searchOffset, resolved, Target.AtMost, Target.AtLeast, if_true, iff_true, iff_false]
      omega
    | false =>
      simp only [searchOffset, resolved, Target.AtMost, Target.AtLeast, Bool.false_eq_true, if_false,
        iff_true, iff_false]
      omega
  · have hclamp := truncate_clamp number (-2147483648) 2147483647
    push_cast at hclamp
    simp only [searchOffset, resolved, Target.AtMost, Target.AtLeast, hclamp]
    omega

/-! ## Both searches -/

/-- A search finds the first place at or after its offset at which the needle occurs, or the last at
or before it, and the search for a number is the search for its byte. -/
theorem search_naive (haystack : List Byte) (hsize : haystack.length < 2147483648)
    (byteOffset : Option Number) (reverse : Bool) :
    (∀ p < haystack.length,
      (searchOffset byteOffset haystack.length reverse ≤ p ↔
          (resolved byteOffset haystack.length reverse).AtMost p) ∧
        ((p : Int) ≤ searchOffset byteOffset haystack.length reverse ↔
          (resolved byteOffset haystack.length reverse).AtLeast p)) ∧
    (∀ (needle : List Byte) (wide : Bool) (fuel : Nat), needle ≠ [] →
      (wide = true → 2 ∣ needle.length ∧ 2 ∣ searchOffset byteOffset haystack.length reverse) →
      needle.length ≤ fuel →
      ∃ result, searchBytes fuel haystack needle byteOffset reverse wide = some result ∧
        Answers reverse
          (places haystack needle (searchOffset byteOffset haystack.length reverse) reverse wide) result) ∧
    (∀ (value : Number) (fuel : Nat), 1 ≤ fuel →
      searchBytes fuel haystack [byteOf value] byteOffset reverse false =
        some (searchNumber haystack value byteOffset reverse)) := by
  have hbytes : ∀ (needle : List Byte) (wide : Bool) (fuel : Nat), needle ≠ [] →
      (wide = true → 2 ∣ needle.length ∧ 2 ∣ searchOffset byteOffset haystack.length reverse) →
      needle.length ≤ fuel →
      ∃ result, searchBytes fuel haystack needle byteOffset reverse wide = some result ∧
        Answers reverse
          (places haystack needle (searchOffset byteOffset haystack.length reverse) reverse wide) result := by
    intro needle wide fuel hneedle heven hfuel
    cases reverse with
    | true => exact searchBytes_backward hneedle rfl (fun h => (heven h).1) hfuel
    | false => exact searchBytes_forward hneedle rfl heven hfuel
  refine ⟨fun p hp => searchOffset_resolved hsize hp byteOffset reverse, hbytes, fun value fuel hfuel => ?_⟩
  obtain ⟨result, hresult, hanswer⟩ := hbytes [byteOf value] false fuel (List.cons_ne_nil _ _)
    (fun h => absurd h Bool.false_ne_true) hfuel
  rw [hresult, hanswer.unique (searchNumber_answers value byteOffset reverse)]

theorem search_naive_wide :
    ∃ result, searchBytes 4 [1, 0, 1, 0, 1, 0] [1, 0, 1, 0] none true true = some result ∧
      Answers true (places [1, 0, 1, 0, 1, 0] [1, 0, 1, 0] 6 true true) result :=
  (search_naive [1, 0, 1, 0, 1, 0] (by decide) none true).2.1 [1, 0, 1, 0] true 4 (by decide)
    (fun _ => ⟨by decide, by decide⟩) (by decide)

end TsonicNode.Buffer
