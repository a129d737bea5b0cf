import TsonicNode.Lib.Chunked

/-!
# Decoding UTF-8 and UTF-16

`lossy` decodes UTF-8, writing one U+FFFD for each maximal ill-formed subpart;
`strict` decodes UTF-16 code units and fails on an unpaired surrogate. The
lemmas `lossy_append` and `strict_append` say where a text may be cut: where no
sequence of the one part goes on in the other.
-/

namespace TsonicNode.Lib

/-! ## UTF-8 -/

/-- The bytes that may stand at one place of a sequence. -/
structure ByteRange where
  low : UInt8
  high : UInt8

def ByteRange.Has (r : ByteRange) (b : UInt8) : Prop := r.low ≤ b ∧ b ≤ r.high

instance (r : ByteRange) (b : UInt8) : Decidable (r.Has b) :=
  inferInstanceAs (Decidable (_ ∧ _))

/-- The bytes `80..BF`. -/
def tailRange : ByteRange := ⟨0x80, 0xBF⟩

/-- What follows the lead byte of a well-formed sequence, place by place. -/
def trail (lead : UInt8) : List ByteRange :=
  if lead < 0xC2 then []
  else if lead ≤ 0xDF then [tailRange]
  else if lead = 0xE0 then [⟨0xA0, 0xBF⟩, tailRange]
  else if lead = 0xED then [⟨0x80, 0x9F⟩, tailRange]
  else if lead ≤ 0xEF then [tailRange, tailRange]
  else if lead = 0xF0 then [⟨0x90, 0xBF⟩, tailRange, tailRange]
  else if lead ≤ 0xF3 then [tailRange, tailRange, tailRange]
  else if lead = 0xF4 then [⟨0x80, 0x8F⟩, tailRange, tailRange]
  else []

/-- How many of the bytes stand where the ranges allow them. -/
def matched : List ByteRange → List UInt8 → Nat
  | r :: rs, b :: bs => if r.Has b then matched rs bs + 1 else 0
  | _, _ => 0

/-- The scalar value of a well-formed sequence. -/
def scalar (lead : UInt8) (rest : List UInt8) : Nat :=
  let bits := if rest.length = 1 then 0x1F else if rest.length = 2 then 0x0F else 0x07
  rest.foldl (fun value b => value * 64 + (b.toNat &&& 0x3F)) (lead.toNat &&& bits)

/-- What a text starting with `lead` starts with: how many further bytes belong to it, and the
character written for it. -/
def first (lead : UInt8) (rest : List UInt8) : Nat × Char :=
  let ranges := trail lead
  let length := matched ranges rest
  (length,
    if lead < 0x80 then Char.ofNat lead.toNat
    else if ranges ≠ [] ∧ length = ranges.length then Char.ofNat (scalar lead (rest.take length))
    else '\uFFFD')

/-- `lossy` when the next `skip` bytes belong to a character already written. -/
def lossyFrom : Nat → List UInt8 → List Char
  | _, [] => []
  | skip + 1, _ :: rest => lossyFrom skip rest
  | 0, lead :: rest => (first lead rest).2 :: lossyFrom (first lead rest).1 rest

def lossy (bytes : List UInt8) : List Char := lossyFrom 0 bytes

/-- No sequence of `front` goes on in `back`. -/
def Separate (front back : List UInt8) : Prop :=
  ∀ lead rest, (lead :: rest) <:+ front →
    matched (trail lead) (rest ++ back) = matched (trail lead) rest

theorem matched_le_length (rs : List ByteRange) (bs : List UInt8) :
    matched rs bs ≤ bs.length := by
  induction rs generalizing bs with
  | nil => simp [matched]
  | cons r rs ih =>
    cases bs with
    | nil => simp [matched]
    | cons b bs =>
      simp only [matched, List.length_cons]
      split
      · have := ih bs
        omega
      · omega

theorem first_append {lead : UInt8} {rest back : List UInt8}
    (h : matched (trail lead) (rest ++ back) = matched (trail lead) rest) :
    first lead (rest ++ back) = first lead rest := by
  have hle := matched_le_length (trail lead) rest
  simp only [first, h, List.take_append_of_le_length hle]

theorem lossyFrom_append {front back : List UInt8} (h : Separate front back) (skip : Nat)
    (hskip : skip ≤ front.length) :
    lossyFrom skip (front ++ back) = lossyFrom skip front ++ lossy back := by
  induction front generalizing skip with
  | nil =>
    have : skip = 0 := by simpa using hskip
    subst this
    rfl
  | cons lead rest ih =>
    have hrest : Separate rest back := fun l r hsuffix =>
      h l r (hsuffix.trans (List.suffix_cons lead rest))
    cases skip with
    | succ skip =>
      simp only [List.cons_append, lossyFrom]
      exact ih hrest skip (by simpa using hskip)
    | zero =>
      have hfirst := first_append (h lead rest (List.suffix_refl _))
      have hle : (first lead rest).1 ≤ rest.length := matched_le_length _ _
      simp only [List.cons_append, lossyFrom, hfirst]
      rw [ih hrest _ hle]

/-- A text is decoded piece by piece where it is cut between sequences. -/
theorem lossy_append {front back : List UInt8} (h : Separate front back) :
    lossy (front ++ back) = lossy front ++ lossy back :=
  lossyFrom_append h 0 (Nat.zero_le _)

/-- Every byte after a lead byte is one of `80..BF`. -/
theorem trail_tail {lead b : UInt8} {r : ByteRange} (hr : r ∈ trail lead) (hb : r.Has b) :
    tailRange.Has b := by
  obtain ⟨hlow, hhigh⟩ := hb
  have key : 0x80 ≤ r.low ∧ r.high ≤ 0xBF := by
    unfold trail at hr
    split_ifs at hr <;> simp only [List.mem_cons, List.not_mem_nil, or_false] at hr
    all_goals rcases hr with rfl | rfl | rfl <;> decide
  exact ⟨UInt8.le_trans key.1 hlow, UInt8.le_trans hhigh key.2⟩

/-- A byte outside `80..BF` ends the sequence in front of it. -/
theorem matched_append_of_head {rs : List ByteRange} {b : UInt8} (hb : ∀ r ∈ rs, ¬ r.Has b)
    (bs back : List UInt8) : matched rs (bs ++ b :: back) = matched rs bs := by
  induction rs generalizing bs with
  | nil => simp [matched]
  | cons r rs ih =>
    cases bs with
    | nil => simp [matched, hb r (by simp)]
    | cons c bs =>
      simp only [List.cons_append, matched]
      rw [ih (fun r' hr' => hb r' (by simp [hr'])) bs]

theorem separate_of_head {front back : List UInt8} {b : UInt8} (hb : ¬ tailRange.Has b) :
    Separate front (b :: back) := fun _ rest _ =>
  matched_append_of_head (fun _ hr h => hb (trail_tail hr h)) rest back

/-- A sequence that is complete or already broken takes nothing of what follows. -/
theorem matched_append_of_closed {rs : List ByteRange} {bs : List UInt8}
    (h : rs.length ≤ bs.length ∨ matched rs bs < bs.length) (back : List UInt8) :
    matched rs (bs ++ back) = matched rs bs := by
  induction rs generalizing bs with
  | nil => simp [matched]
  | cons r rs ih =>
    cases bs with
    | nil => simp at h
    | cons b bs =>
      simp only [List.cons_append, matched]
      split
      · rename_i hr
        rw [ih]
        rcases h with h | h
        · exact .inl (by simpa using h)
        · exact .inr (by simpa [matched, hr] using h)
      · rfl

/-! ## UTF-16 -/

def isHighSurrogate (unit : UInt16) : Bool := 0xD800 ≤ unit && unit ≤ 0xDBFF

def isLowSurrogate (unit : UInt16) : Bool := 0xDC00 ≤ unit && unit ≤ 0xDFFF

/-- The character of a surrogate pair. -/
def surrogatePair (high low : UInt16) : Char :=
  Char.ofNat (0x10000 + (high.toNat - 0xD800) * 0x400 + (low.toNat - 0xDC00))

/-- Decode code units; an unpaired surrogate fails. -/
def strict : List UInt16 → Option (List Char)
  | [] => some []
  | [unit] =>
    if isHighSurrogate unit || isLowSurrogate unit then none
    else some [Char.ofNat unit.toNat]
  | unit :: next :: rest =>
    if isHighSurrogate unit then
      if isLowSurrogate next then (strict rest).map (surrogatePair unit next :: ·) else none
    else if isLowSurrogate unit then none
    else (strict (next :: rest)).map (Char.ofNat unit.toNat :: ·)
termination_by structural units => units

theorem not_low_of_high {unit : UInt16} (h : isHighSurrogate unit = true) :
    isLowSurrogate unit = false := by
  simp only [isHighSurrogate, Bool.and_eq_true, decide_eq_true_eq] at h
  simp only [isLowSurrogate, Bool.and_eq_false_iff, decide_eq_false_iff_not]
  left
  intro hle
  exact absurd (UInt16.le_trans hle h.2) (by decide)

/-- Code units are decoded piece by piece where no surrogate pair is cut. -/
theorem strict_append {front back : List UInt16}
    (h : ∀ unit next, front.getLast? = some unit → back.head? = some next →
      isHighSurrogate unit = true → isLowSurrogate next = false) :
    strict (front ++ back) = andThen (strict front) (strict back) := by
  fun_induction strict front with
  | case1 => rw [List.nil_append, some_nil_andThen]
  | case2 unit hunit =>
    cases back with
    | nil => simp [strict, hunit]
    | cons next rest =>
      simp only [List.cons_append, List.nil_append, strict, andThen_none]
      cases hhigh : isHighSurrogate unit with
      | true => simp [h unit next rfl rfl hhigh]
      | false =>
        rw [hhigh, Bool.false_or] at hunit
        simp [hunit]
  | case3 unit hunit =>
    simp only [Bool.or_eq_true, not_or, Bool.not_eq_true] at hunit
    cases back with
    | nil => simp [strict, hunit]
    | cons next rest =>
      simp only [List.cons_append, List.nil_append, strict, hunit.1, hunit.2]
      cases strict (next :: rest) <;> simp
  | case4 unit next rest hhigh hlow ih =>
    have hrest : ∀ u n, rest.getLast? = some u → back.head? = some n →
        isHighSurrogate u = true → isLowSurrogate n = false := by
      intro u n hu
      cases rest with
      | nil => cases hu
      | cons a rest => exact h u n (by simpa [List.getLast?_cons_cons] using hu)
    simp only [List.cons_append, strict, hhigh, hlow, if_true, ih hrest]
    exact andThen_map _ (fun _ _ => rfl) _ _
  | case5 unit next rest hhigh hlow => simp [strict, hhigh, hlow]
  | case6 unit next rest hhigh hlow => simp [strict, hhigh, hlow]
  | case7 unit next rest hhigh hlow ih =>
    have hrest : ∀ u n, (next :: rest).getLast? = some u → back.head? = some n →
        isHighSurrogate u = true → isLowSurrogate n = false :=
      fun u n hu => h u n (by rw [List.getLast?_cons_cons]; exact hu)
    have ih := ih hrest
    rw [List.cons_append] at ih
    simp only [List.cons_append, strict, hhigh, hlow, ih]
    exact andThen_map _ (fun _ _ => rfl) _ _

end TsonicNode.Lib
