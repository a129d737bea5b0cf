import TsonicNode.Buffer.Codec

/-!
# The stream decoder

`StreamDecoder.write` decodes what it can of the bytes received so far and
holds the rest back; `end_` decodes what is left. `streamed_eq` says that the
chunks do not matter: a place where `write` cuts is a safe one for every
encoding (`boundary_safeCut`).
-/

namespace TsonicNode.Stream

open TsonicNode.Lib TsonicNode.Buffer

def isContinuation (byte : Byte) : Bool := byte &&& 0xC0 == 0x80

/-- How many bytes a sequence with this lead byte has, 0 when none has. -/
def needed (lead : Byte) : Nat :=
  if lead ≥ 0xC2 ∧ lead ≤ 0xDF then 2
  else if lead ≥ 0xE0 ∧ lead ≤ 0xEF then 3
  else if lead ≥ 0xF0 ∧ lead ≤ 0xF4 then 4
  else 0

/-- Walk back over continuation bytes, three at most. -/
def walkBack (bytes : List Byte) (stop : Nat) : Nat → Nat
  | 0 => 0
  | start + 1 =>
    if stop - (start + 1) < 4 ∧ isContinuation (bytes.getD (start + 1) 0) = true then
      walkBack bytes stop start
    else start + 1

/-- A second byte that this lead byte excludes. -/
def excluded (lead second : Byte) : Bool :=
  (lead == 0xE0 && second < 0xA0) || (lead == 0xED && second > 0x9F) ||
    (lead == 0xF0 && second < 0x90) || (lead == 0xF4 && second > 0x8F)

def utf8Boundary (bytes : List Byte) : Nat :=
  let stop := bytes.length
  if stop = 0 then stop
  else
    let start := walkBack bytes stop (stop - 1)
    let lead := bytes.getD start 0
    if needed lead = 0 ∨ stop - start ≥ needed lead then stop
    else if (bytes.drop (start + 1)).any fun byte => !isContinuation byte then stop
    else if start + 1 < stop ∧ excluded lead (bytes.getD (start + 1) 0) = true then stop
    else start

/-- The code unit in front of `boundary`. -/
def lastUnit (bytes : List Byte) (boundary : Nat) : UInt16 :=
  (bytes.getD (boundary - 2) 0).toUInt16 ||| (bytes.getD (boundary - 1) 0).toUInt16 <<< 8

def utf16Boundary (bytes : List Byte) : Nat :=
  let boundary := bytes.length - bytes.length % 2
  if boundary ≥ 2 ∧ isHighSurrogate (lastUnit bytes boundary) = true then boundary - 2
  else boundary

/-- Where `write` cuts. -/
def boundary (name : Encoding) (bytes : List Byte) : Nat :=
  match name with
  | .utf8 => utf8Boundary bytes
  | .utf16le => utf16Boundary bytes
  | .base64 | .base64url => bytes.length - bytes.length % 3
  | _ => bytes.length

structure StreamDecoder where
  name : Encoding
  pending : List Byte

section
variable (unpaired : List UInt16 → Error)

namespace StreamDecoder

def new (name : Text) : Except Error StreamDecoder := do
  return ⟨← encodingName name, []⟩

def write (value : List Byte) : EStateM Error StreamDecoder Text := do
  let decoder ← get
  let bytes := decoder.pending ++ value
  let stop := boundary decoder.name bytes
  let output ← ofExcept (decodeBytes unpaired (bytes.take stop) decoder.name.name)
  modify fun decoder => { decoder with pending := bytes.drop stop }
  return output

def end_ : EStateM Error StreamDecoder Text := do
  let decoder ← get
  let output ← ofExcept (decodeBytes unpaired decoder.pending decoder.name.name)
  modify fun decoder => { decoder with pending := [] }
  return output

/-- One `write` for each chunk and the `end`, up to the first that raises. -/
def writeAll : List (List Byte) → EStateM Error StreamDecoder Text
  | [] => end_ unpaired
  | chunk :: chunks => do
    let output ← write unpaired chunk
    let rest ← writeAll chunks
    return output ++ rest

end StreamDecoder

/-- What a fresh decoder makes of the chunks. -/
def streamed (name : Text) (chunks : List (List Byte)) : Except Error Text := do
  match StreamDecoder.writeAll unpaired chunks (← StreamDecoder.new name) with
  | .ok text _ => .ok text
  | .error e _ => .error e

end

/-! ## UTF-8 -/

/-- A statement about a byte is checked on all of them. -/
theorem byte_forall {P : Byte → Prop} (h : ∀ n : Fin 256, P (UInt8.ofNat n.val)) (b : Byte) :
    P b := by
  have := h ⟨b.toNat, b.toNat_lt⟩
  simpa using this

theorem isContinuation_iff (b : Byte) : isContinuation b = true ↔ tailRange.Has b := by
  revert b
  apply byte_forall
  decide +kernel

theorem needed_eq (lead : Byte) :
    needed lead = if (trail lead).length = 0 then 0 else (trail lead).length + 1 := by
  revert lead
  apply byte_forall
  decide +kernel

theorem not_tail_of_needed {lead : Byte} (h : needed lead ≠ 0) : ¬ tailRange.Has lead := by
  revert lead
  apply byte_forall
  decide +kernel

theorem trail_length_le (lead : Byte) : (trail lead).length ≤ 3 := by
  revert lead
  apply byte_forall
  decide +kernel

/-- Bytes that all match are continuation bytes. -/
theorem isContinuation_of_matched {lead : Byte} {bs : List Byte}
    (h : matched (trail lead) bs = bs.length) : ∀ b ∈ bs, isContinuation b = true := by
  have key : ∀ (rs : List ByteRange) (bs : List Byte), matched rs bs = bs.length →
      ∀ b ∈ bs, ∃ r ∈ rs, r.Has b := by
    intro rs
    induction rs with
    | nil =>
      intro bs h b hb
      cases bs with
      | nil => cases hb
      | cons c bs => simp [matched] at h
    | cons r rs ih =>
      intro bs h b hb
      cases bs with
      | nil => cases hb
      | cons c bs =>
        simp only [matched, List.length_cons] at h
        split at h
        · rename_i hc
          rcases List.mem_cons.mp hb with rfl | hb
          · exact ⟨r, by simp, hc⟩
          · obtain ⟨r', hr', hb'⟩ := ih bs (by omega) b hb
            exact ⟨r', by simp [hr'], hb'⟩
        · omega
  intro b hb
  obtain ⟨r, hr, hb'⟩ := key _ _ h b hb
  exact (isContinuation_iff b).mpr (trail_tail hr hb')

/-- A second byte that matches is not excluded. -/
theorem not_excluded_of_matched {lead second : Byte} {rest : List Byte}
    (h : matched (trail lead) (second :: rest) = rest.length + 1) :
    excluded lead second = false := by
  have hhead : ∀ r rs, trail lead = r :: rs → r.Has second := by
    intro r rs hr
    rw [hr, matched] at h
    split at h
    · assumption
    · omega
  by_contra hex
  simp only [excluded, Bool.not_eq_false, Bool.or_eq_true, Bool.and_eq_true, beq_iff_eq,
    decide_eq_true_eq] at hex
  rcases hex with ((⟨rfl, hs⟩ | ⟨rfl, hs⟩) | ⟨rfl, hs⟩) | ⟨rfl, hs⟩
  · exact absurd (UInt8.lt_of_lt_of_le hs (hhead _ _ rfl).1) (UInt8.lt_irrefl _)
  · exact absurd (UInt8.lt_of_lt_of_le hs (hhead _ _ rfl).2) (UInt8.lt_irrefl _)
  · exact absurd (UInt8.lt_of_lt_of_le hs (hhead _ _ rfl).1) (UInt8.lt_irrefl _)
  · exact absurd (UInt8.lt_of_lt_of_le hs (hhead _ _ rfl).2) (UInt8.lt_irrefl _)

/-- From the continuation bytes behind a lead byte the walk ends at the lead byte. -/
theorem walkBack_eq {front rest : List Byte} {lead : Byte} (hlead : isContinuation lead = false)
    (hrest : ∀ b ∈ rest, isContinuation b = true) (hlen : rest.length < 4) :
    ∀ n ≤ rest.length, walkBack (front ++ lead :: rest) (front.length + 1 + rest.length)
      (front.length + n) = front.length := by
  intro n
  induction n with
  | zero =>
    intro _
    cases hf : front.length with
    | zero => rfl
    | succ k =>
      have hget : (front ++ lead :: rest).getD (k + 1) 0 = lead := by
        rw [← hf]
        simp
      show walkBack _ _ (k + 1) = _
      rw [walkBack, hget, if_neg (by simp [hlead])]
  | succ n ih =>
    intro hn
    have hget : (front ++ lead :: rest).getD (front.length + n + 1) 0 = rest.getD n 0 := by
      simp only [List.getD_eq_getElem?_getD]
      rw [List.getElem?_append_right (by omega)]
      have : front.length + n + 1 - front.length = n + 1 := by omega
      rw [this, List.getElem?_cons_succ]
    have hcont : isContinuation (rest.getD n 0) = true := by
      have hlt : n < rest.length := hn
      rw [List.getD_eq_getElem?_getD, List.getElem?_eq_getElem hlt, Option.getD_some]
      exact hrest _ (List.getElem_mem hlt)
    have hclose : front.length + 1 + rest.length - (front.length + n + 1) < 4 := by omega
    show walkBack _ _ (front.length + n + 1) = _
    rw [walkBack, hget, if_pos ⟨hclose, hcont⟩]
    exact ih (by omega)

/-- A sequence left open at the end is held back from its lead byte on. -/
theorem utf8Boundary_open {front rest : List Byte} {lead : Byte}
    (hopen : rest.length < (trail lead).length)
    (hmatched : matched (trail lead) rest = rest.length) :
    utf8Boundary (front ++ lead :: rest) = front.length := by
  have htrail := trail_length_le lead
  have hneeded : needed lead = (trail lead).length + 1 := by
    rw [needed_eq, if_neg (by omega)]
  have hcont := isContinuation_of_matched hmatched
  have hlead : isContinuation lead = false := by
    by_contra h
    rw [Bool.not_eq_false] at h
    exact not_tail_of_needed (by omega) ((isContinuation_iff lead).mp h)
  have hlength : (front ++ lead :: rest).length = front.length + 1 + rest.length := by
    simp only [List.length_append, List.length_cons]
    omega
  have hwalk := @walkBack_eq front rest lead hlead hcont (by omega) rest.length (Nat.le_refl _)
  have hstart : front.length + 1 + rest.length - 1 = front.length + rest.length := by omega
  have hget : (front ++ lead :: rest).getD front.length 0 = lead := by simp
  have hdrop : (front ++ lead :: rest).drop (front.length + 1) = rest := by
    rw [show front ++ lead :: rest = (front ++ [lead]) ++ rest by simp]
    exact List.drop_left' (by simp)
  have hloop : (rest.any fun byte => !isContinuation byte) = false := by
    simp only [List.any_eq_false, Bool.not_eq_true, Bool.not_eq_false']
    exact hcont
  have hsecond : ¬ (front.length + 1 < front.length + 1 + rest.length ∧
      excluded lead ((front ++ lead :: rest).getD (front.length + 1) 0) = true) := by
    rintro ⟨hlt, hex⟩
    cases rest with
    | nil => simp at hlt
    | cons second rest =>
      have hget : (front ++ lead :: second :: rest).getD (front.length + 1) 0 = second := by
        rw [List.getD_eq_getElem?_getD, List.getElem?_append_right (by omega)]
        simp
      rw [hget, not_excluded_of_matched hmatched] at hex
      cases hex
  simp only [utf8Boundary, hlength, hstart, hwalk, hget, hdrop, hloop, hneeded]
  rw [if_neg (by omega), if_neg (by omega), if_neg (by decide), if_neg hsecond]

/-- The boundary is the end or stands in front of a lead byte. -/
theorem utf8Boundary_cases (bytes : List Byte) :
    utf8Boundary bytes = bytes.length ∨
      ∃ front lead rest, bytes = front ++ lead :: rest ∧ utf8Boundary bytes = front.length ∧
        ¬ tailRange.Has lead := by
  have hwalk : ∀ start, walkBack bytes bytes.length start ≤ start := by
    intro start
    induction start with
    | zero => exact Nat.le_refl _
    | succ start ih =>
      rw [walkBack]
      split
      · omega
      · exact Nat.le_refl _
  by_cases hstop : bytes.length = 0
  · left
    rw [utf8Boundary, if_pos hstop]
  · have hlt : walkBack bytes bytes.length (bytes.length - 1) < bytes.length := by
      have := hwalk (bytes.length - 1)
      omega
    simp only [utf8Boundary, if_neg hstop]
    split_ifs with hneeded hcont hsecond
    · exact .inl rfl
    · exact .inl rfl
    · exact .inl rfl
    · right
      refine ⟨bytes.take _, bytes.getD _ 0,
        bytes.drop (walkBack bytes bytes.length (bytes.length - 1) + 1), ?_,
        (List.length_take_of_le (Nat.le_of_lt hlt)).symm,
        not_tail_of_needed fun h => hneeded (.inl h)⟩
      rw [List.getD_eq_getElem?_getD, List.getElem?_eq_getElem hlt, Option.getD_some,
        ← List.drop_eq_getElem_cons hlt, List.take_append_drop]

theorem utf8_safeCut (bytes : List Byte) :
    SafeCut (decoded .utf8) (bytes.take (utf8Boundary bytes)) (bytes.drop (utf8Boundary bytes)) := by
  intro tail
  have key : Separate (bytes.take (utf8Boundary bytes))
      (bytes.drop (utf8Boundary bytes) ++ tail) := by
    rcases utf8Boundary_cases bytes with hend | ⟨front, lead, rest, hbytes, hcut, hlead⟩
    · rw [hend, List.take_length, List.drop_length, List.nil_append]
      rintro lead rest ⟨front, rfl⟩
      apply matched_append_of_closed
      by_contra hopen
      simp only [not_or, Nat.not_le, Nat.not_lt] at hopen
      have hmatched := Nat.le_antisymm (matched_le_length _ _) hopen.2
      rw [utf8Boundary_open hopen.1 hmatched] at hend
      simp at hend
    · rw [hcut, hbytes, List.drop_left, List.cons_append]
      exact separate_of_head hlead
  simp only [decoded, lossy_append key, andThen_some]

/-! ## UTF-16 -/

theorem bytes_split (bytes : List Byte) :
    bytes.length < 2 ∨ ∃ front low high odd, bytes = front ++ low :: high :: odd ∧
      front.length % 2 = 0 ∧ odd.length < 2 := by
  match bytes with
  | [] => exact .inl (by decide)
  | [a] => exact .inl (by simp)
  | a :: b :: rest =>
    right
    rcases bytes_split rest with hrest | ⟨front, low, high, odd, rfl, hfront, hodd⟩
    · exact ⟨[], a, b, rest, rfl, rfl, hrest⟩
    · exact ⟨a :: b :: front, low, high, odd, rfl, by simp only [List.length_cons]; omega, hodd⟩

theorem utf16Boundary_eq {front odd : List Byte} {low high : Byte} (hfront : front.length % 2 = 0)
    (hodd : odd.length < 2) :
    utf16Boundary (front ++ low :: high :: odd) =
      if isHighSurrogate (low.toUInt16 ||| high.toUInt16 <<< 8) = true then front.length
      else front.length + 2 := by
  have hlength : (front ++ low :: high :: odd).length -
      (front ++ low :: high :: odd).length % 2 = front.length + 2 := by
    simp only [List.length_append, List.length_cons]
    omega
  have hlow : (front ++ low :: high :: odd).getD (front.length + 2 - 2) 0 = low := by simp
  have hhigh : (front ++ low :: high :: odd).getD (front.length + 2 - 1) 0 = high := by
    rw [List.getD_eq_getElem?_getD, List.getElem?_append_right (by omega)]
    rw [show front.length + 2 - 1 - front.length = 1 by omega]
    rfl
  simp only [utf16Boundary, hlength, lastUnit, hlow, hhigh]
  split_ifs with hboth hhigh hhigh
  · rfl
  · exact absurd hboth.2 hhigh
  · exact absurd ⟨Nat.le_add_left 2 _, hhigh⟩ hboth
  · rfl

theorem utf16_safeCut (bytes : List Byte) :
    SafeCut (decoded .utf16le) (bytes.take (utf16Boundary bytes))
      (bytes.drop (utf16Boundary bytes)) := by
  intro tail
  rcases bytes_split bytes with hshort | ⟨front, low, high, odd, rfl, hfront, hodd⟩
  · have hzero : utf16Boundary bytes = 0 := by
      have : bytes.length - bytes.length % 2 = 0 := by omega
      simp [utf16Boundary, this]
    rw [hzero]
    simp only [List.take_zero, List.drop_zero, List.nil_append]
    exact (some_nil_andThen _).symm
  · rw [utf16Boundary_eq hfront hodd]
    split
    · rename_i hsurrogate
      simp only [List.take_left, List.drop_left, decoded]
      rw [codeUnits_append hfront]
      apply strict_append
      intro unit next _ hnext _
      simp only [List.cons_append, codeUnits, List.head?_cons, Option.some.injEq] at hnext
      rw [← hnext]
      exact not_low_of_high hsurrogate
    · rename_i hsurrogate
      rw [show front ++ low :: high :: odd = (front ++ [low, high]) ++ odd by simp,
        List.take_left' (by simp), List.drop_left' (by simp)]
      simp only [decoded]
      rw [codeUnits_append (by simp only [List.length_append, List.length_cons, List.length_nil]; omega)]
      apply strict_append
      intro unit next hunit _ hhigh
      simp only [codeUnits_append hfront, codeUnits, List.getLast?_append, List.getLast?_singleton,
        Option.some_or, Option.some.injEq] at hunit
      rw [hunit] at hsurrogate
      exact absurd hhigh hsurrogate

/-! ## Every encoding -/

/-- Wherever `write` cuts, the decoding of the whole splits. -/
theorem boundary_safeCut (name : Encoding) (bytes : List Byte) :
    SafeCut (decoded name) (bytes.take (boundary name bytes))
      (bytes.drop (boundary name bytes)) := by
  have hthree : (bytes.take (bytes.length - bytes.length % 3)).length % 3 = 0 := by
    rw [List.length_take]
    omega
  cases name with
  | utf8 => exact utf8_safeCut bytes
  | utf16le => exact utf16_safeCut bytes
  | latin1 | ascii => exact safeCut_of_append (decodeScalars_append _) _ _
  | hex => exact safeCut_of_append decodeHex_append _ _
  | base64 =>
    intro tail
    simp only [decoded, boundary, b64encode_append hthree, andThen_some]
  | base64url =>
    intro tail
    simp only [decoded, boundary, b64encode_append hthree, urlSafe_append, andThen_some]

/-! ## Chunks -/

section
variable (unpaired : List UInt16 → Error)

/-- The value a computation returns, if it does. -/
def value : EStateM.Result Error StreamDecoder Text → Option Text
  | .ok text _ => some text
  | .error _ _ => none

theorem value_end (decoder : StreamDecoder) :
    value (StreamDecoder.end_ unpaired decoder) = decoded decoder.name decoder.pending := by
  rw [← decodeBytes_toOption unpaired (encodingName_name decoder.name)]
  simp only [StreamDecoder.end_, bind_run, get_run]
  cases decodeBytes unpaired decoder.pending decoder.name.name <;> rfl

/-- `write` decodes the bytes in front of the boundary and keeps the rest, or raises. -/
theorem write_eq (decoder : StreamDecoder) (chunk : List Byte) :
    let bytes := decoder.pending ++ chunk
    let stop := boundary decoder.name bytes
    match decoded decoder.name (bytes.take stop) with
    | some text => StreamDecoder.write unpaired chunk decoder =
        .ok text ⟨decoder.name, bytes.drop stop⟩
    | none => ∃ e, StreamDecoder.write unpaired chunk decoder = .error e decoder := by
  intro bytes stop
  rw [← decodeBytes_toOption unpaired (encodingName_name decoder.name)]
  simp only [StreamDecoder.write, bind_run, get_run]
  cases h : decodeBytes unpaired (bytes.take stop) decoder.name.name with
  | ok text => rfl
  | error e => exact ⟨e, rfl⟩

theorem value_writeAll (chunks : List (List Byte)) (decoder : StreamDecoder) :
    value (StreamDecoder.writeAll unpaired chunks decoder) =
      feed (decoded decoder.name) (boundary decoder.name) decoder.pending chunks := by
  induction chunks generalizing decoder with
  | nil => exact value_end unpaired decoder
  | cons chunk chunks ih =>
    have hwrite := write_eq unpaired decoder chunk
    simp only at hwrite
    simp only [StreamDecoder.writeAll, bind_run, feed]
    split at hwrite
    · rename_i text htext
      rw [htext, hwrite]
      simp only
      have ih := ih ⟨decoder.name, (decoder.pending ++ chunk).drop
        (boundary decoder.name (decoder.pending ++ chunk))⟩
      simp only at ih
      rw [← ih]
      cases StreamDecoder.writeAll unpaired chunks _ <;> rfl
    · rename_i hnone
      obtain ⟨e, hwrite⟩ := hwrite
      rw [hnone, hwrite]
      rfl

theorem streamed_toOption (name : Text) (chunks : List (List Byte)) :
    (streamed unpaired name chunks).toOption =
      (decodeBytes unpaired chunks.flatten name).toOption := by
  cases hname : encodingName name with
  | error e => simp [streamed, StreamDecoder.new, decodeBytes, hname, bind, Except.bind]
  | ok encoding =>
    have hall := value_writeAll unpaired chunks ⟨encoding, []⟩
    rw [feed_eq (boundary_safeCut encoding), List.nil_append] at hall
    rw [decodeBytes_toOption unpaired hname, ← hall]
    simp only [streamed, StreamDecoder.new, hname, bind, Except.bind, pure, Except.pure]
    cases StreamDecoder.writeAll unpaired chunks ⟨encoding, []⟩ <;> rfl

theorem toOption_eq_some {ε α : Type} {x : Except ε α} {a : α} :
    x.toOption = some a ↔ x = .ok a := by
  cases x <;> simp [Except.toOption]

theorem toOption_eq_none {ε α : Type} {x : Except ε α} :
    x.toOption = none ↔ ∃ e, x = .error e := by
  cases x <;> simp [Except.toOption]

/-- **Decoding a stream does not depend on its chunks.** Every split of the bytes gives the text of
the whole, raises exactly when decoding the whole does, and only `utf16le` can. -/
theorem streamed_eq (name : Text) (chunks : List (List Byte)) :
    (∀ text, streamed unpaired name chunks = .ok text ↔
      decodeBytes unpaired chunks.flatten name = .ok text) ∧
    ((∃ e, streamed unpaired name chunks = .error e) ↔
      ∃ e, decodeBytes unpaired chunks.flatten name = .error e) ∧
    (∀ encoding, encodingName name = .ok encoding →
      (∃ e, streamed unpaired name chunks = .error e) → encoding = .utf16le) := by
  have h := streamed_toOption unpaired name chunks
  have hfail : (∃ e, streamed unpaired name chunks = .error e) ↔
      ∃ e, decodeBytes unpaired chunks.flatten name = .error e := by
    rw [← toOption_eq_none, ← toOption_eq_none, h]
  refine ⟨fun text => ?_, hfail, fun encoding hname hraised => ?_⟩
  · rw [← toOption_eq_some, ← toOption_eq_some, h]
  · rw [← toOption_eq_none, h, decodeBytes_toOption unpaired hname] at hraised
    cases encoding with
    | utf16le => rfl
    | utf8 | latin1 | ascii | hex | base64 | base64url => cases hraised

end

end TsonicNode.Stream
