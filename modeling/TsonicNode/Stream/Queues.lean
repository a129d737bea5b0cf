import TsonicNode.Buffer.Encoder

/-!
# The queues of a read buffer

`ByteQueue` holds what was read as the chunks it came in, `TextQueue` holds
decoded text; both cache how much they hold, in bytes and in UTF-16 units. A
chunk of text keeps the text it was appended as and moves its start. `take_spec`
is what each says of `take`: what comes out and what stays is what was there,
and a `take` that raises changes nothing.
-/

namespace TsonicNode.Stream

open TsonicNode.Lib TsonicNode.Buffer
open TsonicNode.Buffer.Encoder (asBytes asBytes_append asBytes_cons charUnits jsString)

/-- The exact source range. -/
def exactRange : Nat := 9007199254740991

/-- What `popleft` raises. -/
def dequeEmpty : Error := ⟨"IndexError: Deque is empty"⟩

/-! ## Bytes -/

structure ByteQueue where
  chunks : List (List Byte) := []
  length : Nat := 0

namespace ByteQueue

def append (value : List Byte) : EStateM Error ByteQueue Unit := do
  if value.length = 0 then return ()
  else if value.length > exactRange - (← get).length then
    throw ⟨"Stream buffered byte count exceeds the exact source range"⟩
  else
    modify fun queue =>
      { queue with chunks := queue.chunks ++ [value], length := queue.length + value.length }

/-- The loop of `take`: so many bytes are still to be copied. -/
def copyRest : Nat → EStateM Error (List (List Byte)) (List Byte)
  | 0, chunks => .ok [] chunks
  | _ + 1, [] => .error dequeEmpty []
  | missing + 1, next :: chunks =>
    let count := min next.length (missing + 1)
    if count < next.length then .ok (next.take count) (next.drop count :: chunks)
    else
      match copyRest (missing + 1 - count) chunks with
      | .ok rest chunks => .ok (next.take count ++ rest) chunks
      | .error e chunks => .error e chunks

def take (size : Int) : EStateM Error ByteQueue (Option (List Byte)) := do
  let queue ← get
  if size < 0 ∨ size > queue.length then throw ⟨"Stream read exceeds its retained bytes"⟩
  else if size = 0 then return none
  else
    match queue.chunks with
    | [] => throw dequeEmpty
    | first :: chunks =>
      let count := size.toNat
      set (⟨chunks, queue.length - count⟩ : ByteQueue)
      if first.length = count then return some first
      else if first.length > count then
        modify fun queue => { queue with chunks := first.drop count :: queue.chunks }
        return some (first.take count)
      else
        let rest ← zoom ByteQueue.chunks (fun left queue => { queue with chunks := left })
          (copyRest (count - first.length))
        return some (first ++ rest)

/-- No chunk is empty, and the length is that of the chunks. -/
structure Sound (queue : ByteQueue) : Prop where
  filled : [] ∉ queue.chunks
  length : queue.length = queue.chunks.flatten.length

theorem sound_new : Sound {} := ⟨List.not_mem_nil, rfl⟩

theorem append_spec {queue : ByteQueue} (h : queue.Sound) (value : List Byte) :
    wp (append value)
      (fun _ queue' => queue'.Sound ∧ queue'.chunks.flatten = queue.chunks.flatten ++ value)
      (fun _ queue' => queue' = queue) queue := by
  by_cases hempty : value.length = 0
  · have hvalue := List.eq_nil_of_length_eq_zero hempty
    simp [append, hvalue, h]
  · by_cases hlong : value.length > exactRange - queue.length
    · simp [append, hempty, hlong]
    · simp only [append, hempty, if_false, wp_bind, wp_get, wp_ite, hlong, wp_modify]
      refine ⟨⟨?_, ?_⟩, ?_⟩
      · intro hmem
        rcases List.mem_append.mp hmem with hmem | hmem
        · exact h.filled hmem
        · rw [List.mem_singleton] at hmem
          exact hempty (by rw [← hmem]; rfl)
      · simp [h.length]
      · simp

/-- The copy takes from the front and leaves what is behind. -/
theorem copyRest_eq {missing : Nat} {chunks : List (List Byte)} (h : missing ≤ chunks.flatten.length)
    (hfilled : [] ∉ chunks) :
    ∃ left, copyRest missing chunks = .ok (chunks.flatten.take missing) left ∧
      left.flatten = chunks.flatten.drop missing ∧ [] ∉ left := by
  induction chunks generalizing missing with
  | nil =>
    have hzero : missing = 0 := by simpa using h
    subst hzero
    exact ⟨[], rfl, rfl, List.not_mem_nil⟩
  | cons next chunks ih =>
    cases missing with
    | zero => exact ⟨next :: chunks, rfl, rfl, hfilled⟩
    | succ missing =>
      simp only [List.flatten_cons, List.length_append] at h ⊢
      have hrest : [] ∉ chunks := fun hmem => hfilled (List.mem_cons_of_mem next hmem)
      by_cases hlong : missing + 1 < next.length
      · have hcount : min next.length (missing + 1) = missing + 1 := by omega
        refine ⟨next.drop (missing + 1) :: chunks, ?_, ?_, ?_⟩
        · simp only [copyRest, hcount, if_pos hlong]
          rw [List.take_append_of_le_length (by omega)]
        · rw [List.flatten_cons, List.drop_append_of_le_length (by omega)]
        · intro hmem
          rcases List.mem_cons.mp hmem with hnil | hmem
          · have := congrArg List.length hnil
            simp only [List.length_nil, List.length_drop] at this
            omega
          · exact hrest hmem
      · have hcount : min next.length (missing + 1) = next.length := by omega
        obtain ⟨left, hcopy, hleft, hfilled⟩ := @ih (missing + 1 - next.length) (by omega) hrest
        refine ⟨left, ?_, ?_, hfilled⟩
        · simp only [copyRest, hcount, if_neg (Nat.lt_irrefl _), hcopy, List.take_length]
          rw [List.take_append, List.take_of_length_le (Nat.not_lt.mp hlong)]
        · rw [hleft, List.drop_append, List.drop_eq_nil_of_le (Nat.not_lt.mp hlong), List.nil_append]

/-- **What `take` gives.** So many bytes from the front, in the order they came in; where it raises
there are not as many, and the queue stays as it was. -/
theorem take_spec {queue : ByteQueue} (h : queue.Sound) (size : Int) :
    wp (take size)
      (fun bytes queue' => queue'.Sound ∧
        bytes.getD [] ++ queue'.chunks.flatten = queue.chunks.flatten ∧
        (bytes.getD []).length = size ∧ (bytes = none ↔ size = 0))
      (fun _ queue' => queue' = queue ∧ ¬ (0 ≤ size ∧ size ≤ queue.length)) queue := by
  by_cases hrange : size < 0 ∨ size > queue.length
  · simp only [take, wp_bind, wp_get, wp_ite, if_pos hrange, wp_throw, true_and]
    omega
  by_cases hzero : size = 0
  · simp [take, hzero, h]
  obtain ⟨chunks, length⟩ := queue
  obtain ⟨count, rfl⟩ := Int.eq_ofNat_of_zero_le (a := size) (by omega)
  have hlength := h.length
  simp only at hlength hrange
  cases chunks with
  | nil =>
    simp only [List.flatten_nil, List.length_nil] at hlength
    omega
  | cons first chunks =>
    have hrest : [] ∉ chunks := fun hmem => h.filled (List.mem_cons_of_mem first hmem)
    simp only [List.flatten_cons, List.length_append] at hlength
    simp only [take, wp_bind, wp_get, wp_ite, if_neg hrange, if_neg hzero, wp_set,
      Int.toNat_natCast]
    by_cases hequal : first.length = count
    · simp only [if_pos hequal, wp_pure, Option.getD_some, reduceCtorEq, hzero]
      refine ⟨⟨hrest, ?_⟩, rfl, ?_, trivial⟩
      · show length - count = chunks.flatten.length
        omega
      · omega
    by_cases hlong : first.length > count
    · simp only [if_neg hequal, if_pos hlong, wp_modify, wp_pure, Option.getD_some, reduceCtorEq,
        hzero]
      refine ⟨⟨?_, ?_⟩, ?_, ?_, trivial⟩
      · intro hmem
        rcases List.mem_cons.mp hmem with hnil | hmem
        · have := congrArg List.length hnil
          simp only [List.length_nil, List.length_drop] at this
          omega
        · exact hrest hmem
      · simp only [List.flatten_cons, List.length_append, List.length_drop]
        omega
      · rw [List.flatten_cons, ← List.append_assoc, List.take_append_drop, List.flatten_cons]
      · rw [List.length_take]
        omega
    · obtain ⟨left, hcopy, hleft, hfilled⟩ :=
        @copyRest_eq (count - first.length) chunks (by omega) hrest
      have hrun : wp (copyRest (count - first.length)) (fun rest left' =>
          rest = chunks.flatten.take (count - first.length) ∧ left' = left) (fun _ _ => False) chunks :=
        (wp_of_ok hcopy).mpr ⟨rfl, rfl⟩
      rw [if_neg hequal, if_neg hlong, wp_zoom]
      apply wp_mono hrun
      · rintro rest left' ⟨rfl, rfl⟩
        simp only [wp_pure, Option.getD_some, reduceCtorEq, hzero]
        refine ⟨⟨hfilled, ?_⟩, ?_, ?_, trivial⟩
        · simp only [hleft, List.length_drop]
          omega
        · rw [hleft, List.append_assoc, List.take_append_drop, List.flatten_cons]
        · simp only [List.length_append, List.length_take]
          omega
      · intro _ _ hfalse
        exact hfalse.elim

/-- Everything may be taken at once. -/
theorem take_all {queue : ByteQueue} (h : queue.Sound) (hpos : 0 < queue.length) :
    ∃ left, take queue.length queue = .ok (some queue.chunks.flatten) left ∧ left.length = 0 := by
  have hspec := take_spec h queue.length
  unfold wp at hspec
  cases hrun : take queue.length queue with
  | error e left =>
    rw [hrun] at hspec
    exact absurd ⟨by omega, Int.le_refl _⟩ hspec.2
  | ok value left =>
    rw [hrun] at hspec
    obtain ⟨hsound, hcontent, hcount, hvalue⟩ := hspec
    cases value with
    | none =>
      have := hvalue.mp rfl
      omega
    | some value =>
      simp only [Option.getD_some] at hcontent hcount
      have hleft : left.chunks.flatten = [] := by
        apply List.eq_nil_of_length_eq_zero
        have hsum := congrArg List.length hcontent
        rw [List.length_append, ← h.length] at hsum
        omega
      rw [hleft, List.append_nil] at hcontent
      rw [hcontent]
      exact ⟨left, rfl, by rw [hsound.length, hleft]; rfl⟩

end ByteQueue

/-! ## Text -/

structure TextChunk where
  storage : Text
  /-- The byte the rest of the storage starts at. -/
  start : Nat
  length : Nat

def unitLength : Text → Nat
  | [] => 0
  | point :: text => (if point.toNat > 0xFFFF then 2 else 1) + unitLength text

/-- The bytes of a character, by the first of them. -/
def sequenceLength (lead : Byte) : Nat :=
  if lead < 0x80 then 1 else if lead < 0xE0 then 2 else if lead < 0xF0 then 3 else 4

/-- The loop of `_end_byte`. -/
def endByte (bytes : List Byte) (offset : Nat) : Nat → Except Error Nat
  | 0 => .ok offset
  | remaining + 1 =>
    let size := sequenceLength (bytes.getD offset 0)
    if size ≠ 4 then endByte bytes (offset + size) remaining
    else
      match remaining with
      | 0 => .error ⟨"Decoded stream read would split a surrogate pair; native" ++
          " strings cannot represent that result"⟩
      | remaining + 1 => endByte bytes (offset + size) remaining

theorem endByte_step {bytes : List Byte} {offset remaining : Nat}
    (h : sequenceLength (bytes.getD offset 0) ≠ 4) :
    endByte bytes offset (remaining + 1) =
      endByte bytes (offset + sequenceLength (bytes.getD offset 0)) remaining := by
  cases remaining <;> exact if_pos h

theorem endByte_pair {bytes : List Byte} {offset remaining : Nat}
    (h : sequenceLength (bytes.getD offset 0) = 4) :
    endByte bytes offset (remaining + 2) = endByte bytes (offset + 4) remaining := by
  rw [← h]
  exact if_neg (not_not_intro h)

theorem endByte_half {bytes : List Byte} {offset : Nat}
    (h : sequenceLength (bytes.getD offset 0) = 4) : ∃ e, endByte bytes offset 1 = .error e :=
  ⟨_, if_neg (not_not_intro h)⟩

def TextChunk.endByte (chunk : TextChunk) (units : Nat) : Except Error Nat :=
  Stream.endByte (asBytes chunk.storage) chunk.start units

/-- The text behind so many bytes. -/
def dropBytes : Nat → Text → Text
  | 0, text => text
  | _ + 1, [] => []
  | count + 1, c :: text => dropBytes (count + 1 - c.utf8Size) text

/-- The text in front of so many bytes. -/
def takeBytes : Nat → Text → Text
  | 0, _ => []
  | _ + 1, [] => []
  | count + 1, c :: text => c :: takeBytes (count + 1 - c.utf8Size) text

namespace TextChunk

/-- What the chunk still holds. -/
def held (chunk : TextChunk) : Text := dropBytes chunk.start chunk.storage

/-- `storage[byte = start : stop]`. -/
def slice (chunk : TextChunk) (stop : Nat) : Text := takeBytes (stop - chunk.start) chunk.held

end TextChunk

structure TextQueue where
  chunks : List TextChunk := []
  length : Nat := 0

namespace TextQueue

def append (text : Text) : EStateM Error TextQueue Unit := do
  let units := unitLength text
  if units = 0 then return ()
  else if units > exactRange - (← get).length then
    throw ⟨"Stream decoded length exceeds the exact source range"⟩
  else
    modify fun queue =>
      { queue with chunks := queue.chunks ++ [⟨text, 0, units⟩], length := queue.length + units }

/-- The first loop of `take`: every cut is tried before anything is taken. -/
def tryCuts : Nat → List TextChunk → Except Error Unit
  | _, [] => .ok ()
  | remaining, chunk :: chunks => do
    let count := min remaining chunk.length
    let _ ← chunk.endByte count
    if remaining - count = 0 then return () else tryCuts (remaining - count) chunks

/-- The second loop of `take`. -/
def takeRest : Nat → EStateM Error (List TextChunk) Text
  | 0, chunks => .ok [] chunks
  | _ + 1, [] => .error dequeEmpty []
  | remaining + 1, chunk :: chunks =>
    let count := min (remaining + 1) chunk.length
    match chunk.endByte count with
    | .error e => .error e chunks
    | .ok stop =>
      let output := chunk.slice stop
      -- a chunk that is cut is the last one the loop comes to
      if count < chunk.length then
        .ok output (⟨chunk.storage, stop, chunk.length - count⟩ :: chunks)
      else
        match takeRest (remaining + 1 - count) chunks with
        | .ok rest chunks => .ok (output ++ rest) chunks
        | .error e chunks => .error e chunks

def take (size : Int) : EStateM Error TextQueue (Option Text) := do
  let queue ← get
  if size < 0 ∨ size > queue.length then throw ⟨"Stream read exceeds its retained text"⟩
  else if size = 0 then return none
  else
    ofExcept (tryCuts size.toNat queue.chunks)
    let output ← zoom TextQueue.chunks (fun left queue => { queue with chunks := left })
      (takeRest size.toNat)
    modify fun queue => { queue with length := queue.length - size.toNat }
    return some output

end TextQueue

/-! ## Cuts in a text -/

theorem unitLength_append (front back : Text) :
    unitLength (front ++ back) = unitLength front + unitLength back := by
  induction front with
  | nil => exact (Nat.zero_add _).symm
  | cons c front ih =>
    simp only [List.cons_append, unitLength, ih]
    omega

/-- The units counted are those of the text as UTF-16. -/
theorem unitLength_eq (text : Text) : unitLength text = (jsString text).length := by
  induction text with
  | nil => rfl
  | cons c text ih =>
    show _ = (charUnits c ++ jsString text).length
    rw [unitLength, List.length_append, ih]
    congr 1
    unfold charUnits
    split_ifs
    · omega
    · rfl
    · rfl
    · omega

theorem unitLength_pos {text : Text} (h : text ≠ []) : 0 < unitLength text := by
  cases text with
  | nil => exact absurd rfl h
  | cons c text =>
    rw [unitLength]
    split <;> omega

theorem sequenceLength_toNat (lead : Byte) :
    sequenceLength lead = if lead.toNat < 128 then 1 else if lead.toNat < 224 then 2
      else if lead.toNat < 240 then 3 else 4 := rfl

/-- The first byte of a character tells how many it has. -/
theorem encodeChar_lead (c : Char) :
    ∃ lead tail, String.utf8EncodeChar c = lead :: tail ∧ sequenceLength lead = c.utf8Size := by
  have hlead : ∀ n k m : Nat, 0 < m → m + k ≤ 256 → (UInt8.ofNat (n % m + k)).toNat = n % m + k := by
    intro n k m hm hk
    have := Nat.mod_lt n hm
    exact UInt8.toNat_ofNat_of_lt' (by show _ < 256; omega)
  by_cases hone : c.val.toNat ≤ 0x7f
  · refine ⟨_, _, if_pos hone, ?_⟩
    have hbyte : (UInt8.ofNat c.val.toNat).toNat = c.val.toNat :=
      UInt8.toNat_ofNat_of_lt' (by show _ < 256; omega)
    rw [Char.utf8Size_eq_one_iff.mpr hone, sequenceLength_toNat, hbyte]
    exact if_pos (by omega)
  by_cases htwo : c.val.toNat ≤ 0x7ff
  · refine ⟨_, _, (if_neg hone).trans (if_pos htwo), ?_⟩
    rw [Char.utf8Size_eq_two_iff.mpr ⟨Nat.not_le.mp hone, htwo⟩, sequenceLength_toNat,
      hlead _ _ _ (by omega) (by omega), if_neg (by omega), if_pos (by omega)]
  by_cases hthree : c.val.toNat ≤ 0xffff
  · refine ⟨_, _, (if_neg hone).trans ((if_neg htwo).trans (if_pos hthree)), ?_⟩
    rw [Char.utf8Size_eq_three_iff.mpr ⟨Nat.not_le.mp htwo, hthree⟩, sequenceLength_toNat,
      hlead _ _ _ (by omega) (by omega), if_neg (by omega), if_neg (by omega), if_pos (by omega)]
  · refine ⟨_, _, (if_neg hone).trans ((if_neg htwo).trans (if_neg hthree)), ?_⟩
    rw [Char.utf8Size_eq_four_iff.mpr (Nat.not_le.mp hthree), sequenceLength_toNat,
      hlead _ _ _ (by omega) (by omega), if_neg (by omega), if_neg (by omega), if_neg (by omega)]

theorem length_asBytes_cons (c : Char) (text : Text) :
    (asBytes (c :: text)).length = c.utf8Size + (asBytes text).length := by
  rw [asBytes_cons, List.length_append, String.length_utf8EncodeChar]

theorem dropBytes_cons (c : Char) (text : Text) (count : Nat) :
    dropBytes (c.utf8Size + count) (c :: text) = dropBytes count text := by
  have hpos := c.utf8Size_pos
  obtain ⟨n, hn⟩ := Nat.exists_eq_succ_of_ne_zero (n := c.utf8Size + count) (by omega)
  rw [hn, dropBytes, ← Nat.succ_eq_add_one, ← hn, Nat.add_sub_cancel_left]

theorem takeBytes_cons (c : Char) (text : Text) (count : Nat) :
    takeBytes (c.utf8Size + count) (c :: text) = c :: takeBytes count text := by
  have hpos := c.utf8Size_pos
  obtain ⟨n, hn⟩ := Nat.exists_eq_succ_of_ne_zero (n := c.utf8Size + count) (by omega)
  rw [hn, takeBytes, ← Nat.succ_eq_add_one, ← hn, Nat.add_sub_cancel_left]

theorem dropBytes_append (front back : Text) :
    dropBytes (asBytes front).length (front ++ back) = back := by
  induction front with
  | nil => cases back <;> rfl
  | cons c front ih => rw [length_asBytes_cons, List.cons_append, dropBytes_cons, ih]

theorem takeBytes_append (front back : Text) :
    takeBytes (asBytes front).length (front ++ back) = front := by
  induction front with
  | nil => cases back <;> rfl
  | cons c front ih => rw [length_asBytes_cons, List.cons_append, takeBytes_cons, ih]

/-- The size read at the start of a character is its size, 4 for a surrogate pair. -/
theorem sequenceLength_at (front text : Text) (c : Char) :
    sequenceLength ((asBytes (front ++ c :: text)).getD (asBytes front).length 0) = c.utf8Size := by
  obtain ⟨lead, tail, hbytes, hlength⟩ := encodeChar_lead c
  rw [asBytes_append, asBytes_cons, hbytes, List.getD_eq_getElem?_getD,
    List.getElem?_append_right (Nat.le_refl _), Nat.sub_self]
  exact hlength

theorem utf8Size_four {c : Char} : c.utf8Size = 4 ↔ c.toNat > 0xFFFF := Char.utf8Size_eq_four_iff

theorem length_asBytes_snoc (front : Text) (c : Char) :
    (asBytes (front ++ [c])).length = (asBytes front).length + c.utf8Size := by
  rw [asBytes_append, List.length_append, length_asBytes_cons]
  rfl

/-- Units at the end of a part of the text lead to the byte at its end. -/
theorem endByte_append (front text back : Text) :
    endByte (asBytes (front ++ text ++ back)) (asBytes front).length (unitLength text) =
      .ok (asBytes (front ++ text)).length := by
  induction text generalizing front with
  | nil => rw [List.append_nil, unitLength, endByte]
  | cons c text ih =>
    have hsize := sequenceLength_at front (text ++ back) c
    have hnext := ih (front ++ [c])
    simp only [List.append_assoc, List.cons_append, List.nil_append, length_asBytes_snoc] at hnext ⊢
    by_cases hpair : c.toNat > 0xFFFF
    · rw [utf8Size_four.mpr hpair] at hsize hnext
      rw [unitLength, if_pos hpair, Nat.add_comm 2, endByte_pair hsize, hnext]
    · have hsmall : c.utf8Size ≠ 4 := mt utf8Size_four.mp hpair
      rw [unitLength, if_neg hpair, Nat.add_comm 1, endByte_step (by rw [hsize]; exact hsmall),
        hsize, hnext]

/-- Wherever the walk ends, it has the units asked for in front of it. -/
theorem endByte_ok {front text : Text} {units stop : Nat} (hunits : units ≤ unitLength text)
    (h : endByte (asBytes (front ++ text)) (asBytes front).length units = .ok stop) :
    ∃ taken left, text = taken ++ left ∧ unitLength taken = units ∧
      stop = (asBytes (front ++ taken)).length := by
  induction text generalizing front units with
  | nil =>
    have hzero : units = 0 := Nat.le_zero.mp hunits
    subst hzero
    rw [endByte] at h
    exact ⟨[], [], rfl, rfl, by rw [List.append_nil]; exact (Except.ok.inj h).symm⟩
  | cons c text ih =>
    cases units with
    | zero =>
      rw [endByte] at h
      exact ⟨[], c :: text, rfl, rfl, by rw [List.append_nil]; exact (Except.ok.inj h).symm⟩
    | succ units =>
      have hsize := sequenceLength_at front text c
      have hnext : ∀ rest, front ++ c :: rest = front ++ [c] ++ rest := fun rest => by simp
      rw [unitLength] at hunits
      by_cases hpair : c.toNat > 0xFFFF
      · rw [if_pos hpair] at hunits
        rw [utf8Size_four.mpr hpair] at hsize
        cases units with
        | zero =>
          obtain ⟨e, herror⟩ := endByte_half hsize
          rw [herror] at h
          cases h
        | succ units =>
          rw [endByte_pair hsize, ← utf8Size_four.mpr hpair, ← length_asBytes_snoc, hnext] at h
          obtain ⟨taken, left, rfl, htaken, hstop⟩ := ih (by omega) h
          refine ⟨c :: taken, left, rfl, ?_, by rw [hnext]; exact hstop⟩
          rw [unitLength, if_pos hpair, htaken]
          omega
      · rw [if_neg hpair] at hunits
        have hsmall : c.utf8Size ≠ 4 := mt utf8Size_four.mp hpair
        rw [endByte_step (by rw [hsize]; exact hsmall), hsize, ← length_asBytes_snoc, hnext] at h
        obtain ⟨taken, left, rfl, htaken, hstop⟩ := ih (by omega) h
        refine ⟨c :: taken, left, rfl, ?_, by rw [hnext]; exact hstop⟩
        rw [unitLength, if_neg hpair, htaken]
        omega

/-! ## What the text queue gives -/

namespace TextChunk

/-- The start is the start of a character, and the length counts what is held from there. -/
structure Sound (chunk : TextChunk) : Prop where
  cut : ∃ front, chunk.storage = front ++ chunk.held ∧ chunk.start = (asBytes front).length
  length : chunk.length = unitLength chunk.held

theorem held_at (front text : Text) (length : Nat) :
    held ⟨front ++ text, (asBytes front).length, length⟩ = text := dropBytes_append front text

theorem sound_at (front text : Text) :
    Sound ⟨front ++ text, (asBytes front).length, unitLength text⟩ :=
  ⟨⟨front, by rw [held_at], rfl⟩, by rw [held_at]⟩

/-- A cut that is found divides what is held. -/
theorem Sound.divided {chunk : TextChunk} (h : chunk.Sound) {units stop : Nat}
    (hunits : units ≤ chunk.length) (hstop : chunk.endByte units = .ok stop) :
    ∃ taken left, chunk.held = taken ++ left ∧ unitLength taken = units ∧ chunk.slice stop = taken ∧
      held ⟨chunk.storage, stop, chunk.length - units⟩ = left ∧
      Sound ⟨chunk.storage, stop, chunk.length - units⟩ := by
  obtain ⟨⟨front, hstorage, hstart⟩, hlength⟩ := h
  rw [TextChunk.endByte, hstart, hstorage] at hstop
  rw [hlength] at hunits
  obtain ⟨taken, left, hheld, htaken, rfl⟩ := endByte_ok hunits hstop
  have hleft : chunk.length - units = unitLength left := by
    rw [hlength, hheld, unitLength_append]
    omega
  have hwhole : chunk.storage = front ++ taken ++ left := by
    rw [hstorage, hheld, List.append_assoc]
  refine ⟨taken, left, hheld, htaken, ?_, ?_, ?_⟩
  · rw [slice, hstart, asBytes_append, List.length_append, Nat.add_sub_cancel_left, hheld,
      takeBytes_append]
  · rw [hwhole, held_at]
  · rw [hwhole, hleft]
    exact sound_at _ _

/-- Everything held may be taken. -/
theorem Sound.endByte_all {chunk : TextChunk} (h : chunk.Sound) :
    ∃ stop, chunk.endByte chunk.length = .ok stop := by
  obtain ⟨⟨front, hstorage, hstart⟩, hlength⟩ := h
  have hend := endByte_append front chunk.held []
  rw [List.append_nil, ← hstorage, ← hstart, ← hlength] at hend
  exact ⟨_, hend⟩

end TextChunk

namespace TextQueue

def held (queue : TextQueue) : Text := queue.chunks.flatMap TextChunk.held

structure Sound (queue : TextQueue) : Prop where
  chunks : ∀ chunk ∈ queue.chunks, chunk.Sound
  length : queue.length = unitLength queue.held

theorem sound_new : Sound {} := ⟨fun _ h => (List.not_mem_nil h).elim, rfl⟩

theorem append_spec {queue : TextQueue} (h : queue.Sound) (text : Text) :
    wp (append text) (fun _ queue' => queue'.Sound ∧ queue'.held = queue.held ++ text)
      (fun _ queue' => queue' = queue ∧ unitLength text > exactRange - queue.length) queue := by
  by_cases hempty : unitLength text = 0
  · have htext : text = [] := by
      by_contra hne
      have := unitLength_pos hne
      omega
    subst htext
    simp only [append, hempty, if_true, wp_pure, List.append_nil, and_true]
    exact h
  · by_cases hlong : unitLength text > exactRange - queue.length
    · simp only [append, hempty, if_false, wp_bind, wp_get, wp_ite, hlong, if_true, wp_throw,
        true_and]
    · simp only [append, hempty, if_false, wp_bind, wp_get, wp_ite, hlong, wp_modify]
      have hnew := TextChunk.sound_at [] text
      have hheld : TextChunk.held ⟨text, 0, unitLength text⟩ = text := TextChunk.held_at [] text _
      have hall : held ⟨queue.chunks ++ [⟨text, 0, unitLength text⟩],
          queue.length + unitLength text⟩ = queue.held ++ text := by
        simp only [held, List.flatMap_append, List.flatMap_cons, List.flatMap_nil, List.append_nil,
          hheld]
      refine ⟨⟨?_, ?_⟩, hall⟩
      · intro chunk hchunk
        rcases List.mem_append.mp hchunk with hchunk | hchunk
        · exact h.chunks chunk hchunk
        · rw [List.mem_singleton] at hchunk
          rw [hchunk]
          exact hnew
      · rw [hall, unitLength_append, h.length]

/-- Where every cut is found, the second loop finds them again. -/
theorem takeRest_eq {remaining : Nat} {chunks : List TextChunk} (h : ∀ chunk ∈ chunks, chunk.Sound)
    (hremaining : remaining ≤ unitLength (chunks.flatMap TextChunk.held))
    (hcuts : 0 < remaining → tryCuts remaining chunks = .ok ()) :
    ∃ output left, takeRest remaining chunks = .ok output left ∧
      output ++ left.flatMap TextChunk.held = chunks.flatMap TextChunk.held ∧
      unitLength output = remaining ∧ ∀ chunk ∈ left, chunk.Sound := by
  induction chunks generalizing remaining with
  | nil =>
    have hzero : remaining = 0 := Nat.le_zero.mp hremaining
    subst hzero
    exact ⟨[], [], rfl, rfl, rfl, h⟩
  | cons chunk chunks ih =>
    cases remaining with
    | zero => exact ⟨[], chunk :: chunks, rfl, rfl, rfl, h⟩
    | succ remaining =>
      have hchunk := h chunk List.mem_cons_self
      have hrest : ∀ c ∈ chunks, c.Sound := fun c hc => h c (List.mem_cons_of_mem chunk hc)
      rw [List.flatMap_cons, unitLength_append, ← hchunk.length] at hremaining
      have hcuts := hcuts (Nat.succ_pos remaining)
      rw [tryCuts] at hcuts
      cases hstop : chunk.endByte (min (remaining + 1) chunk.length) with
      | error e =>
        rw [hstop] at hcuts
        cases hcuts
      | ok stop =>
        obtain ⟨taken, left, hheld, htaken, hslice, hleft, hsound⟩ :=
          hchunk.divided (Nat.min_le_right _ _) hstop
        simp only [hstop, bind, Except.bind] at hcuts
        by_cases hcut : min (remaining + 1) chunk.length < chunk.length
        · have hcount : min (remaining + 1) chunk.length = remaining + 1 := by omega
          refine ⟨taken, ⟨chunk.storage, stop,
            chunk.length - min (remaining + 1) chunk.length⟩ :: chunks, ?_, ?_, ?_, ?_⟩
          · simp only [takeRest, hstop, hslice]
            exact if_pos hcut
          · rw [List.flatMap_cons, hleft, List.flatMap_cons, hheld, List.append_assoc]
          · omega
          · intro c hc
            rcases List.mem_cons.mp hc with rfl | hc
            · exact hsound
            · exact hrest c hc
        · have hcount : min (remaining + 1) chunk.length = chunk.length := by omega
          have hnil : left = [] := by
            by_contra hne
            have hpos := unitLength_pos hne
            have hsum := hchunk.length
            rw [hheld, unitLength_append] at hsum
            omega
          have hcuts : 0 < remaining + 1 - min (remaining + 1) chunk.length →
              tryCuts (remaining + 1 - min (remaining + 1) chunk.length) chunks = .ok () := by
            intro hpos
            rw [if_neg (by omega)] at hcuts
            exact hcuts
          obtain ⟨output, left', hrun, houtput, hunits, hsound⟩ := ih hrest (by omega) hcuts
          refine ⟨taken ++ output, left', ?_, ?_, ?_, hsound⟩
          · simp only [takeRest, hstop, hslice, hrun]
            exact if_neg hcut
          · rw [List.append_assoc, houtput, List.flatMap_cons, hheld, hnil, List.append_nil]
          · rw [unitLength_append, hunits, htaken]
            omega

/-- The first loop finds every cut where everything is asked for. -/
theorem tryCuts_all {chunks : List TextChunk} (h : ∀ chunk ∈ chunks, chunk.Sound) :
    tryCuts (unitLength (chunks.flatMap TextChunk.held)) chunks = .ok () := by
  induction chunks with
  | nil => rfl
  | cons chunk chunks ih =>
    have hchunk := h chunk List.mem_cons_self
    obtain ⟨stop, hstop⟩ := hchunk.endByte_all
    rw [List.flatMap_cons, unitLength_append, ← hchunk.length, tryCuts]
    have hcount : min (chunk.length + unitLength (chunks.flatMap TextChunk.held)) chunk.length =
        chunk.length := by omega
    simp only [hcount, hstop, bind, Except.bind, Nat.add_sub_cancel_left]
    split
    · rfl
    · exact ih fun c hc => h c (List.mem_cons_of_mem chunk hc)

/-- **What `take` gives.** So many units from the front; where it raises the queue stays as it was,
and everything held was not asked for. -/
theorem take_spec {queue : TextQueue} (h : queue.Sound) (size : Int) :
    wp (take size)
      (fun text queue' => queue'.Sound ∧ text.getD [] ++ queue'.held = queue.held ∧
        unitLength (text.getD []) = size ∧ (text = none ↔ size = 0))
      (fun _ queue' => queue' = queue ∧ size ≠ queue.length) queue := by
  by_cases hrange : size < 0 ∨ size > queue.length
  · simp only [take, wp_bind, wp_get, wp_ite, if_pos hrange, wp_throw, true_and]
    omega
  by_cases hzero : size = 0
  · subst hzero
    simp only [take, wp_bind, wp_get, wp_ite, if_neg hrange, if_true, wp_pure]
    exact ⟨h, rfl, rfl, trivial⟩
  obtain ⟨units, rfl⟩ := Int.eq_ofNat_of_zero_le (a := size) (by omega)
  have hle : units ≤ unitLength (queue.chunks.flatMap TextChunk.held) := by
    have := h.length
    rw [held] at this
    omega
  simp only [take, wp_bind, wp_get, wp_ite, if_neg hrange, if_neg hzero, Int.toNat_natCast]
  cases hcuts : tryCuts units queue.chunks with
  | error e =>
    simp only [ofExcept, wp_throw, true_and]
    intro hall
    have := tryCuts_all h.chunks
    rw [show unitLength (queue.chunks.flatMap TextChunk.held) = units by
      have := h.length
      rw [held] at this
      omega, hcuts] at this
    cases this
  | ok =>
    obtain ⟨output, left, hrun, hheld, hunits, hsound⟩ := takeRest_eq h.chunks hle fun _ => hcuts
    rw [ofExcept, wp_pure, wp_zoom, wp_of_ok hrun]
    simp only [wp_modify, wp_pure, Option.getD_some, reduceCtorEq, hzero]
    refine ⟨⟨hsound, ?_⟩, hheld, by omega, trivial⟩
    have hlength := h.length
    rw [held, ← hheld, unitLength_append] at hlength
    show queue.length - units = unitLength (left.flatMap TextChunk.held)
    omega

/-- Everything may be taken at once. -/
theorem take_all {queue : TextQueue} (h : queue.Sound) (hpos : 0 < queue.length) :
    ∃ left, take queue.length queue = .ok (some queue.held) left ∧ left.length = 0 := by
  have hspec := take_spec h queue.length
  unfold wp at hspec
  cases hrun : take queue.length queue with
  | error e left =>
    rw [hrun] at hspec
    exact absurd rfl hspec.2
  | ok value left =>
    rw [hrun] at hspec
    obtain ⟨hsound, hcontent, hcount, hvalue⟩ := hspec
    cases value with
    | none =>
      have := hvalue.mp rfl
      omega
    | some value =>
      simp only [Option.getD_some] at hcontent hcount
      have hleft : left.held = [] := by
        by_contra hne
        have hunits := unitLength_pos hne
        have hsum := h.length
        rw [← hcontent, unitLength_append] at hsum
        omega
      rw [hleft, List.append_nil] at hcontent
      rw [hcontent]
      exact ⟨left, rfl, by rw [hsound.length, hleft]; rfl⟩

end TextQueue

end TsonicNode.Stream
