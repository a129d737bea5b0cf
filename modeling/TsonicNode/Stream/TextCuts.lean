import TsonicNode.Stream.Queues

/-!
# Cuts of a text queue

A read of a text queue gives exactly the units asked for, or raises and leaves
the queue as it was. `SplitsPair` says of the UTF-16 units that the cut falls
into a surrogate pair; a text has no such cut between its characters
(`splitsPair_iff`), and the first loop of `take` fails at no other one
(`tryCuts_iff`). `reads` are the bytes that a cut looks at.
-/

namespace TsonicNode.Stream

open TsonicNode.Lib TsonicNode.Buffer
open TsonicNode.Buffer.Encoder (asBytes asBytes_append asBytes_cons charUnits jsString jsString_append)

/-! ## Surrogate pairs -/

/-- The cut falls between the two halves of a surrogate pair. -/
def SplitsPair (units : List UInt16) (cut : Nat) : Prop :=
  ∃ front high low back, units = front ++ high :: low :: back ∧ isHighSurrogate high = true ∧
    isLowSurrogate low = true ∧ cut = front.length + 1

theorem charUnits_pair {c : Char} (h : c.toNat > 0xFFFF) :
    ∃ high low, charUnits c = [high, low] ∧ isHighSurrogate high = true ∧ isLowSurrogate low = true := by
  have hvalid : c.toNat < 0x110000 := by
    have := c.valid
    rcases this with hsmall | hlarge
    · exact Nat.lt_trans hsmall (by decide)
    · exact hlarge.2
  refine ⟨_, _, if_neg (by omega), ?_, ?_⟩
  · simp only [isHighSurrogate, Bool.and_eq_true, decide_eq_true_eq, UInt16.le_iff_toNat_le]
    rw [UInt16.toNat_ofNat_of_lt' (by show _ < 65536; omega)]
    exact ⟨Nat.le_add_right 0xD800 _, by show _ ≤ 0xDBFF; omega⟩
  · simp only [isLowSurrogate, Bool.and_eq_true, decide_eq_true_eq, UInt16.le_iff_toNat_le]
    rw [UInt16.toNat_ofNat_of_lt' (by show _ < 65536; omega)]
    exact ⟨Nat.le_add_right 0xDC00 _, by show _ ≤ 0xDFFF; omega⟩

theorem not_high_single {c : Char} (h : ¬ c.toNat > 0xFFFF) : isHighSurrogate (UInt16.ofNat c.toNat) = false := by
  simp only [isHighSurrogate, Bool.and_eq_false_iff, decide_eq_false_iff_not, UInt16.le_iff_toNat_le]
  rw [UInt16.toNat_ofNat_of_lt' (by show _ < 65536; omega)]
  show ¬ 0xD800 ≤ c.toNat ∨ ¬ c.toNat ≤ 0xDBFF
  rcases c.valid with hsmall | hlarge
  · exact .inl (Nat.not_le.mpr hsmall)
  · refine .inr (Nat.not_le.mpr (Nat.lt_trans ?_ hlarge.1))
    decide

theorem not_high_of_low {unit : UInt16} (h : isLowSurrogate unit = true) : isHighSurrogate unit = false := by
  cases hhigh : isHighSurrogate unit with
  | false => rfl
  | true =>
    rw [not_low_of_high hhigh] at h
    exact h.symm

/-- No text ends with the first half of a pair. -/
theorem not_high_last {text : Text} {front : List UInt16} {unit : UInt16}
    (h : jsString text = front ++ [unit]) : isHighSurrogate unit = false := by
  obtain rfl | ⟨text, c, rfl⟩ := List.eq_nil_or_concat' text
  · cases front <;> cases h
  rw [jsString_append, show jsString [c] = charUnits c ++ [] from rfl, List.append_nil] at h
  by_cases hpair : c.toNat > 0xFFFF
  · obtain ⟨high, low, hunits, -, hlow⟩ := charUnits_pair hpair
    rw [hunits, show [high, low] = [high] ++ [low] from rfl, ← List.append_assoc] at h
    rw [← List.singleton_inj.mp (List.append_inj' h rfl).2]
    exact not_high_of_low hlow
  · have hunits : charUnits c = [UInt16.ofNat c.toNat] := if_pos (by omega)
    rw [hunits] at h
    rw [← List.singleton_inj.mp (List.append_inj' h rfl).2]
    exact not_high_single hpair

/-- Every cut falls between two characters, or into one that has two units. -/
theorem cut_cases {text : Text} {cut : Nat} (h : cut ≤ unitLength text) :
    (∃ taken left, text = taken ++ left ∧ unitLength taken = cut) ∨
      ∃ front c back, text = front ++ c :: back ∧ c.toNat > 0xFFFF ∧ cut = unitLength front + 1 := by
  induction text generalizing cut with
  | nil => exact .inl ⟨[], [], rfl, (Nat.le_zero.mp h).symm⟩
  | cons c text ih =>
    by_cases hzero : cut = 0
    · exact .inl ⟨[], c :: text, rfl, hzero.symm⟩
    by_cases hinside : c.toNat > 0xFFFF ∧ cut = 1
    · exact .inr ⟨[], c, text, rfl, hinside.1, hinside.2⟩
    have hbehind : (if c.toNat > 0xFFFF then 2 else 1) ≤ cut := by
      split
      case isTrue hpair => have := fun h => hinside ⟨hpair, h⟩; omega
      case isFalse => omega
    rw [unitLength] at h
    rcases @ih (cut - if c.toNat > 0xFFFF then 2 else 1) (by omega) with
      ⟨taken, left, rfl, htaken⟩ | ⟨front, d, back, rfl, hpair, hcut⟩
    · exact .inl ⟨c :: taken, left, rfl, by rw [unitLength]; omega⟩
    · exact .inr ⟨c :: front, d, back, rfl, hpair, by rw [unitLength]; omega⟩

/-- The units of a text can be cut where its characters can. -/
theorem splitsPair_iff {text : Text} {cut : Nat} (h : cut ≤ unitLength text) :
    SplitsPair (jsString text) cut ↔ ¬ ∃ taken left, text = taken ++ left ∧ unitLength taken = cut := by
  constructor
  · rintro ⟨front, high, low, back, hunits, hhigh, -, hcut⟩ ⟨taken, left, rfl, htaken⟩
    have hsplit : jsString taken ++ jsString left = (front ++ [high]) ++ low :: back := by
      rw [← jsString_append, hunits, List.append_assoc]
      rfl
    have hlength : (jsString taken).length = (front ++ [high]).length := by
      rw [← unitLength_eq, htaken, hcut, List.length_append]
      rfl
    rw [not_high_last (List.append_inj hsplit hlength).1] at hhigh
    cases hhigh
  · intro hnone
    obtain ⟨front, c, back, rfl, hpair, hcut⟩ := (cut_cases h).resolve_left hnone
    obtain ⟨high, low, hunits, hhigh, hlow⟩ := charUnits_pair hpair
    refine ⟨jsString front, high, low, jsString back, ?_, hhigh, hlow, by rw [hcut, unitLength_eq]⟩
    rw [jsString_append, show jsString (c :: back) = charUnits c ++ jsString back from rfl, hunits]
    rfl

/-! ## The bytes of a cut -/

/-- The bytes that the loop of `_end_byte` looks at. -/
def endByteReads (bytes : List Byte) (offset : Nat) : Nat → List Nat
  | 0 => []
  | remaining + 1 =>
    let size := sequenceLength (bytes.getD offset 0)
    offset :: if size ≠ 4 then endByteReads bytes (offset + size) remaining
      else
        match remaining with
        | 0 => []
        | remaining + 1 => endByteReads bytes (offset + size) remaining

theorem endByteReads_step {bytes : List Byte} {offset remaining : Nat}
    (h : sequenceLength (bytes.getD offset 0) ≠ 4) :
    endByteReads bytes offset (remaining + 1) =
      offset :: endByteReads bytes (offset + sequenceLength (bytes.getD offset 0)) remaining := by
  cases remaining <;> exact congrArg (offset :: ·) (if_pos h)

theorem endByteReads_half {bytes : List Byte} {offset : Nat}
    (h : sequenceLength (bytes.getD offset 0) = 4) : endByteReads bytes offset 1 = [offset] :=
  congrArg (offset :: ·) (if_neg (not_not_intro h))

theorem endByteReads_pair {bytes : List Byte} {offset remaining : Nat}
    (h : sequenceLength (bytes.getD offset 0) = 4) :
    endByteReads bytes offset (remaining + 2) = offset :: endByteReads bytes (offset + 4) remaining := by
  rw [← h]
  exact congrArg (offset :: ·) (if_neg (not_not_intro h))

/-- Each of them is a byte of the text. -/
theorem endByteReads_lt {front text : Text} {units : Nat} (hunits : units ≤ unitLength text) :
    ∀ offset ∈ endByteReads (asBytes (front ++ text)) (asBytes front).length units,
      offset < (asBytes (front ++ text)).length := by
  induction text generalizing front units with
  | nil =>
    obtain rfl := Nat.le_zero.mp hunits
    exact fun offset h => absurd h List.not_mem_nil
  | cons c text ih =>
    have hfirst : (asBytes front).length < (asBytes (front ++ c :: text)).length := by
      have := c.utf8Size_pos
      rw [asBytes_append, List.length_append, length_asBytes_cons]
      omega
    have hsize := sequenceLength_at front text c
    have hnext : front ++ c :: text = front ++ [c] ++ text := by simp
    intro offset hoffset
    rw [unitLength] at hunits
    by_cases hpair : c.toNat > 0xFFFF
    · rw [if_pos hpair] at hunits
      rw [utf8Size_four.mpr hpair] at hsize
      rcases units with _ | _ | units
      · exact absurd hoffset List.not_mem_nil
      · rw [endByteReads_half hsize] at hoffset
        rw [List.mem_singleton.mp hoffset]
        exact hfirst
      · rw [endByteReads_pair hsize, ← utf8Size_four.mpr hpair, ← length_asBytes_snoc] at hoffset
        rcases List.mem_cons.mp hoffset with rfl | hoffset
        · exact hfirst
        · rw [hnext] at hoffset ⊢
          exact ih (by omega) offset hoffset
    · rw [if_neg hpair] at hunits
      cases units with
      | zero => exact absurd hoffset List.not_mem_nil
      | succ units =>
        rw [endByteReads_step (by rw [hsize]; exact mt utf8Size_four.mp hpair), hsize,
          ← length_asBytes_snoc] at hoffset
        rcases List.mem_cons.mp hoffset with rfl | hoffset
        · exact hfirst
        · rw [hnext] at hoffset ⊢
          exact ih (by omega) offset hoffset

namespace TextChunk

/-- The bytes that a cut of the chunk looks at. -/
def reads (chunk : TextChunk) (units : Nat) : List Nat :=
  endByteReads (asBytes chunk.storage) chunk.start units

/-- Cuts of the chunk stay within its bytes. -/
structure Bounded (chunk : TextChunk) : Prop where
  reads : ∀ units ≤ chunk.length, ∀ offset ∈ chunk.reads units, offset < (asBytes chunk.storage).length
  slice : ∀ units ≤ chunk.length, ∀ stop, chunk.endByte units = .ok stop →
    chunk.start ≤ stop ∧ stop ≤ (asBytes chunk.storage).length

theorem Sound.bounded {chunk : TextChunk} (h : chunk.Sound) : chunk.Bounded := by
  obtain ⟨⟨front, hstorage, hstart⟩, hlength⟩ := h
  constructor
  · intro units hunits
    rw [TextChunk.reads, hstart, hstorage]
    rw [hlength] at hunits
    exact endByteReads_lt hunits
  · intro units hunits stop hstop
    rw [TextChunk.endByte, hstart, hstorage] at hstop
    rw [hlength] at hunits
    obtain ⟨taken, left, hheld, -, rfl⟩ := endByte_ok hunits hstop
    rw [hstart, hstorage, hheld, ← List.append_assoc]
    simp only [asBytes_append, List.length_append]
    omega

/-- A cut between characters is found. -/
theorem Sound.endByte_cut {chunk : TextChunk} (h : chunk.Sound) {taken left : Text}
    (hheld : chunk.held = taken ++ left) : ∃ stop, chunk.endByte (unitLength taken) = .ok stop := by
  obtain ⟨⟨front, hstorage, hstart⟩, -⟩ := h
  have hend := endByte_append front taken left
  rw [List.append_assoc, ← hheld, ← hstorage, ← hstart] at hend
  exact ⟨_, hend⟩

end TextChunk

/-! ## Reads -/

namespace TextQueue

/-- Characters in front of a cut are those of the chunks in front of it and of the one it falls into. -/
theorem cut_in {text rest taken left : Text} (h : text ++ rest = taken ++ left)
    (hle : unitLength taken ≤ unitLength text) : ∃ back, text = taken ++ back := by
  rcases List.append_eq_append_iff.mp h with ⟨back, htaken, -⟩ | ⟨back, htext, -⟩
  · have hnil : back = [] := by
      by_contra hne
      have := unitLength_pos hne
      rw [htaken, unitLength_append] at hle
      omega
    exact ⟨[], by rw [htaken, hnil, List.append_nil, List.append_nil]⟩
  · exact ⟨back, htext⟩

theorem cut_behind {text rest taken left : Text} (h : text ++ rest = taken ++ left)
    (hle : unitLength text ≤ unitLength taken) : ∃ back, taken = text ++ back ∧ rest = back ++ left := by
  rcases List.append_eq_append_iff.mp h with ⟨back, htaken, hrest⟩ | ⟨back, htext, hleft⟩
  · exact ⟨back, htaken, hrest⟩
  · have hnil : back = [] := by
      by_contra hne
      have := unitLength_pos hne
      rw [htext, unitLength_append] at hle
      omega
    rw [hnil, List.append_nil] at htext
    rw [hnil, List.nil_append] at hleft
    exact ⟨[], by rw [htext, List.append_nil], by rw [hleft, List.nil_append]⟩

/-- The first loop of `take` fails only at a cut into a character. -/
theorem tryCuts_cut {chunks : List TextChunk} (h : ∀ chunk ∈ chunks, chunk.Sound) {taken left : Text}
    (hheld : chunks.flatMap TextChunk.held = taken ++ left) : tryCuts (unitLength taken) chunks = .ok () := by
  induction chunks generalizing taken with
  | nil => rfl
  | cons chunk chunks ih =>
    have hchunk := h chunk List.mem_cons_self
    rw [List.flatMap_cons] at hheld
    rw [tryCuts]
    by_cases hshort : unitLength taken ≤ chunk.length
    · obtain ⟨back, hback⟩ := cut_in hheld (by rw [← hchunk.length]; exact hshort)
      obtain ⟨stop, hstop⟩ := hchunk.endByte_cut hback
      simp only [Nat.min_eq_left hshort, hstop, bind, Except.bind, Nat.sub_self, if_true]
      rfl
    · obtain ⟨back, rfl, hrest⟩ := cut_behind hheld (by rw [← hchunk.length]; omega)
      obtain ⟨stop, hstop⟩ := hchunk.endByte_all
      rw [unitLength_append, ← hchunk.length] at hshort ⊢
      simp only [Nat.min_eq_right (Nat.le_add_right chunk.length _), hstop, bind, Except.bind,
        Nat.add_sub_cancel_left]
      rw [if_neg (by omega)]
      exact ih (fun c hc => h c (List.mem_cons_of_mem chunk hc)) hrest

/-- A read that ends between characters does not raise. -/
theorem Sound.take_cut {queue : TextQueue} (h : queue.Sound) {taken left : Text}
    (hheld : queue.held = taken ++ left) :
    wp (take (unitLength taken)) (fun _ _ => True) (fun _ _ => False) queue := by
  have hle : unitLength taken ≤ queue.length := by
    rw [h.length, hheld, unitLength_append]
    exact Nat.le_add_right _ _
  have hrange : ¬ ((unitLength taken : Int) < 0 ∨ (unitLength taken : Int) > queue.length) := by omega
  by_cases hzero : (unitLength taken : Int) = 0
  · simp only [take, wp_bind, wp_get, wp_ite, if_neg hrange, if_pos hzero, wp_pure]
  · have hcuts := tryCuts_cut h.chunks hheld
    have hunits : unitLength taken ≤ unitLength (queue.chunks.flatMap TextChunk.held) := by
      rw [h.length] at hle
      exact hle
    obtain ⟨output, left, hrun, -⟩ := takeRest_eq h.chunks hunits fun _ => hcuts
    simp only [take, wp_bind, wp_get, wp_ite, if_neg hrange, if_neg hzero, Int.toNat_natCast, hcuts]
    rw [ofExcept, wp_pure, wp_zoom, wp_of_ok hrun]
    simp only [wp_modify, wp_pure]

/-- What a read of so many units is to do. -/
def Reads (queue : TextQueue) (count : Nat) : Prop :=
  (SplitsPair (jsString queue.held) count → ∃ e, take count queue = .error e queue) ∧
    (¬ SplitsPair (jsString queue.held) count → ∃ text left, take count queue = .ok text left ∧
      jsString (text.getD []) = (jsString queue.held).take count ∧
      jsString left.held = (jsString queue.held).drop count)

theorem Sound.reads {queue : TextQueue} (h : queue.Sound) {count : Nat} (hcount : count ≤ queue.length) :
    queue.Reads count := by
  have hspec := take_spec h count
  have hle : count ≤ unitLength queue.held := by rw [← h.length]; exact hcount
  unfold wp at hspec
  constructor
  · intro hsplits
    cases hrun : take count queue with
    | error e left =>
      rw [hrun] at hspec
      exact ⟨e, by rw [hspec.1]⟩
    | ok text left =>
      rw [hrun] at hspec
      obtain ⟨-, hheld, hunits, -⟩ := hspec
      exact absurd ⟨_, _, hheld.symm, Int.ofNat.inj hunits⟩ ((splitsPair_iff hle).mp hsplits)
  · intro hwhole
    have hcut : ∃ taken left, queue.held = taken ++ left ∧ unitLength taken = count := by
      by_contra hnone
      exact hwhole ((splitsPair_iff hle).mpr hnone)
    obtain ⟨taken, behind, hbehind, rfl⟩ := hcut
    have hreturns := h.take_cut hbehind
    unfold wp at hreturns
    cases hrun : take (unitLength taken) queue with
    | error e left =>
      rw [hrun] at hreturns
      exact hreturns.elim
    | ok text left =>
      rw [hrun] at hspec
      obtain ⟨-, hheld, hunits, -⟩ := hspec
      have hlength : (jsString (text.getD [])).length = unitLength taken := by
        rw [← unitLength_eq]
        exact Int.ofNat.inj hunits
      refine ⟨text, left, rfl, ?_, ?_⟩
      · rw [← hheld, jsString_append, List.take_left' hlength]
      · rw [← hheld, jsString_append, List.drop_left' hlength]

/-! ## Runs -/

def clear : EStateM Error TextQueue Unit := set ({} : TextQueue)

inductive Call
  | append (text : Text)
  | take (size : Int)
  | clear

/-- The queue after a call, whether it returns or raises. -/
def perform (queue : TextQueue) (call : Call) : TextQueue :=
  match call with
  | .append text => finalState (append text queue)
  | .take size => finalState (take size queue)
  | .clear => finalState (clear queue)

/-- The queue after calls on a new one. -/
def after (calls : List Call) : TextQueue := calls.foldl perform {}

theorem Sound.perform {queue : TextQueue} (h : queue.Sound) (call : Call) : (queue.perform call).Sound := by
  cases call with
  | append text =>
    refine wp_final (wp_mono (append_spec h text) (fun _ _ h' => h'.1) fun _ _ h' => ?_)
    rw [h'.1]
    exact h
  | take size =>
    refine wp_final (wp_mono (take_spec h size) (fun _ _ h' => h'.1) fun _ _ h' => ?_)
    rw [h'.1]
    exact h
  | clear => exact sound_new

theorem after_sound (calls : List Call) : (after calls).Sound := by
  have hrun : ∀ (calls : List Call) (queue : TextQueue), queue.Sound → (calls.foldl perform queue).Sound := by
    intro calls
    induction calls with
    | nil => exact fun queue h => h
    | cons call calls ih => exact fun queue h => ih _ (h.perform call)
  exact hrun calls {} sound_new

/-- **Reads are atomic on surrogate pairs.** -/
theorem after_reads (calls : List Call) :
    (after calls).length = (jsString (after calls).held).length ∧
      (∀ chunk ∈ (after calls).chunks, chunk.Bounded) ∧
      ∀ count ≤ (after calls).length, (after calls).Reads count := by
  have h := after_sound calls
  exact ⟨by rw [h.length, unitLength_eq], fun chunk hchunk => (h.chunks chunk hchunk).bounded,
    fun count hcount => h.reads hcount⟩

end TextQueue

end TsonicNode.Stream
