import Mathlib.Tactic.Common

/-!
# Lines of a text

A line ends with LF, CR or CRLF, which is one ending. `Split` says which lines
a text has and what stands behind the last ending; `next` finds them byte by
byte, and remembers whether the last one was a CR (`split_iff`).
-/

namespace TsonicNode.Lib.Lines

abbrev Bytes := List UInt8

/-- Without a byte that ends a line. -/
def Plain (line : Bytes) : Prop := ∀ byte ∈ line, byte ≠ 10 ∧ byte ≠ 13

/-- What ends a line in front of a text; a CR in front of an LF is half of an ending. -/
def Ends (ending text : Bytes) : Prop :=
  ending = [10] ∨ ending = [13, 10] ∨ ending = [13] ∧ text.head? ≠ some 10

/-- The lines of a text, and what stands behind them. -/
inductive Split : Bytes → List Bytes → Bytes → Prop
  | rest {line : Bytes} : Plain line → Split line [] line
  | line {line ending text : Bytes} {lines : List Bytes} {rest : Bytes} : Plain line → Ends ending text →
      Split text lines rest → Split (line ++ (ending ++ text)) (line :: lines) rest

/-! ## Byte by byte -/

structure State where
  lines : List Bytes := []
  rest : Bytes := []
  /-- The last byte was a CR. -/
  carriageReturn : Bool := false

def next (state : State) (byte : UInt8) : State :=
  if byte = 13 then ⟨state.lines ++ [state.rest], [], true⟩
  else if byte = 10 then
    if state.carriageReturn then { state with carriageReturn := false }
    else ⟨state.lines ++ [state.rest], [], false⟩
  else ⟨state.lines, state.rest ++ [byte], false⟩

def feed (state : State) (text : Bytes) : State := text.foldl next state

theorem feed_append (state : State) (front back : Bytes) :
    feed state (front ++ back) = feed (feed state front) back := List.foldl_append

section
variable {state : State} {text : Bytes}

/-- The same state behind more lines. -/
def State.behind (before : List Bytes) (state : State) : State := { state with lines := before ++ state.lines }

theorem next_behind (before : List Bytes) (byte : UInt8) :
    next (state.behind before) byte = (next state byte).behind before := by
  unfold next State.behind
  dsimp only
  split_ifs
  · rw [List.append_assoc]
  · rfl
  · rw [List.append_assoc]
  · rfl

/-- The lines that were found before stay in front. -/
theorem feed_behind (before : List Bytes) : feed (state.behind before) text = (feed state text).behind before := by
  induction text generalizing state with
  | nil => rfl
  | cons byte text ih =>
    show feed (next (state.behind before) byte) text = (feed (next state byte) text).behind before
    rw [next_behind]
    exact ih

theorem next_plain {byte : UInt8} (h : byte ≠ 10 ∧ byte ≠ 13) :
    next state byte = ⟨state.lines, state.rest ++ [byte], false⟩ := by
  rw [next, if_neg h.2, if_neg h.1]

/-- What ends no line belongs to the line. -/
theorem feed_plain {line : Bytes} (h : Plain line) :
    (feed state line).lines = state.lines ∧ (feed state line).rest = state.rest ++ line ∧
      ((feed state line).carriageReturn = true → line = [] ∧ state.carriageReturn = true) := by
  induction line generalizing state with
  | nil => exact ⟨rfl, (List.append_nil _).symm, fun hcr => ⟨rfl, hcr⟩⟩
  | cons byte line ih =>
    have hbyte := h byte List.mem_cons_self
    obtain ⟨hlines, hrest, hcr⟩ := @ih (next state byte) fun other hother => h other (List.mem_cons_of_mem _ hother)
    rw [next_plain hbyte] at hlines hrest hcr
    rw [show feed state (byte :: line) = feed (next state byte) line from rfl, next_plain hbyte]
    refine ⟨hlines, ?_, fun hfeed => ?_⟩
    · rw [hrest, List.append_assoc]
      rfl
    · exact absurd (hcr hfeed).2 Bool.false_ne_true

/-- The lines are found behind those that were found before. -/
theorem feed_split {lines : List Bytes} {rest : Bytes} (h : Split text lines rest) (hrest : state.rest = [])
    (hcr : state.carriageReturn = true → text.head? ≠ some 10) :
    (feed state text).lines = state.lines ++ lines ∧ (feed state text).rest = rest := by
  induction h generalizing state with
  | rest hplain =>
    obtain ⟨hlines, hline, -⟩ := @feed_plain state _ hplain
    rw [hlines, hline, hrest, List.append_nil]
    exact ⟨rfl, rfl⟩
  | @line line ending text lines rest hplain hending _ ih =>
    obtain ⟨hlines, hline, hlast⟩ := @feed_plain state _ hplain
    rw [hrest, List.nil_append] at hline
    rw [feed_append, feed_append]
    generalize feed state line = middle at hlines hline hlast
    obtain ⟨before, current, last⟩ := middle
    obtain rfl : before = state.lines := hlines
    obtain rfl : current = line := hline
    -- the line ends once, whatever ends it
    have hended : ∃ after, feed ⟨state.lines, current, last⟩ ending = ⟨state.lines ++ [current], [], after⟩ ∧
        (after = true → text.head? ≠ some 10) := by
      rcases hending with rfl | rfl | ⟨rfl, hhead⟩
      · have hfirst : last = false := by
          cases last with
          | false => rfl
          | true =>
            obtain ⟨rfl, hbefore⟩ := hlast rfl
            exact absurd rfl (hcr hbefore)
        subst hfirst
        exact ⟨false, rfl, fun h => absurd h Bool.false_ne_true⟩
      · exact ⟨false, rfl, fun h => absurd h Bool.false_ne_true⟩
      · exact ⟨true, rfl, fun _ => hhead⟩
    obtain ⟨after, hfeed, hafter⟩ := hended
    rw [hfeed]
    obtain ⟨hlines, hrest⟩ := @ih ⟨state.lines ++ [current], [], after⟩ rfl hafter
    rw [hlines, hrest, List.append_assoc]
    exact ⟨rfl, rfl⟩

end

/-- One byte in front of a text. -/
theorem split_cons {byte : UInt8} {text : Bytes} {lines : List Bytes} {rest : Bytes} (h : byte ≠ 10 ∧ byte ≠ 13)
    (hsplit : Split text lines rest) : ∃ lines rest, Split (byte :: text) lines rest := by
  have hcons : ∀ line : Bytes, Plain line → Plain (byte :: line) := by
    intro line hline other hother
    rcases List.mem_cons.mp hother with rfl | hother
    · exact h
    · exact hline other hother
  cases hsplit with
  | rest hplain => exact ⟨_, _, .rest (hcons _ hplain)⟩
  | line hplain hending hsplit => exact ⟨_, _, .line (hcons _ hplain) hending hsplit⟩

/-- Every text has lines. -/
theorem exists_split (text : Bytes) : ∃ lines rest, Split text lines rest := by
  induction hlength : text.length using Nat.strongRecOn generalizing text with
  | ind length ih =>
    have hplain : Plain [] := by simp [Plain]
    subst hlength
    cases text with
    | nil => exact ⟨_, _, .rest hplain⟩
    | cons byte text =>
      obtain ⟨lines, rest, hsplit⟩ := ih text.length (by simp) text rfl
      by_cases hlf : byte = 10
      · subst hlf
        exact ⟨_, _, .line hplain (.inl rfl) hsplit⟩
      · by_cases hcr : byte = 13
        · subst hcr
          by_cases hhead : text.head? = some 10
          · cases text with
            | nil => cases hhead
            | cons other text =>
              obtain rfl : other = 10 := Option.some.inj hhead
              obtain ⟨lines, rest, hsplit⟩ :=
                ih text.length (by rw [List.length_cons, List.length_cons]; omega) text rfl
              exact ⟨_, _, .line hplain (.inr (.inl rfl)) hsplit⟩
          · exact ⟨_, _, .line hplain (.inr (.inr ⟨rfl, hhead⟩)) hsplit⟩
        · exact split_cons ⟨hlf, hcr⟩ hsplit

/-- What is found byte by byte are the lines. -/
theorem split_iff {text : Bytes} {lines : List Bytes} {rest : Bytes} :
    Split text lines rest ↔ lines = (feed {} text).lines ∧ rest = (feed {} text).rest := by
  have hfound : ∀ lines rest, Split text lines rest → lines = (feed {} text).lines ∧ rest = (feed {} text).rest := by
    intro lines rest h
    obtain ⟨hlines, hrest⟩ := @feed_split {} _ _ _ h rfl fun hcr => absurd hcr Bool.false_ne_true
    rw [hlines, hrest]
    exact ⟨rfl, rfl⟩
  refine ⟨hfound lines rest, ?_⟩
  rintro ⟨rfl, rfl⟩
  obtain ⟨lines, rest, hsplit⟩ := exists_split text
  obtain ⟨hlines, hrest⟩ := hfound lines rest hsplit
  rwa [← hlines, ← hrest]

end TsonicNode.Lib.Lines
