import TsonicNode.Lib.Lines
import TsonicNode.Runtime

/-!
# The lines of an interface

`LineBuffer.feed` cuts what is read into lines, `take` hands them out. A string
is here the bytes of its UTF-8, where the two bytes that end a line are
characters of their own. `run_lines` says that the lines do not depend on how
the text was split, and that a feed raises only when a bound is exceeded.
-/

namespace TsonicNode.Readline

open TsonicNode.Lib
open TsonicNode.Lib.Lines (Bytes Split)

structure InputLine where
  text : Bytes
  terminated : Bool
  deriving DecidableEq

structure LineBuffer where
  complete : List Bytes := []
  current : Bytes := []
  bytes : Int := 0
  /-- When the CR was read that is the last byte so far. -/
  carriageReturn : Option Int := none
  finished : Bool := false
  deriving DecidableEq

namespace LineBuffer

abbrev Action := EStateM Error LineBuffer

def append (text : Bytes) : Action Unit := do
  let buffer ← get
  if (text.length : Int) > 16777216 - buffer.current.length ∨ (text.length : Int) > 67108864 - buffer.bytes then
    throw ⟨"Readline input exceeds its retained text budget"⟩
  set { buffer with current := buffer.current ++ text, bytes := buffer.bytes + text.length }

def emit : Action Unit := do
  let buffer ← get
  if buffer.complete.length ≥ 1048576 then throw ⟨"Readline input exceeds its pending line budget"⟩
  set { buffer with complete := buffer.complete ++ [buffer.current], current := [] }

/-- The LF is the second half of an ending. -/
def joins (buffer : LineBuffer) (byte : UInt8) (now : Int) : Bool :=
  byte == 10 && buffer.carriageReturn.any fun time => now - time ≤ 100000000

/-- The loop of `feed`, with the bytes from `start` on. -/
def scan (now : Int) (line : Bytes) : Bytes → Action Unit
  | [] => append line
  | byte :: text => do
    if byte ≠ 10 ∧ byte ≠ 13 then
      modify fun buffer => { buffer with carriageReturn := none }
      scan now (line ++ [byte]) text
    else do
      append line
      if (← get).joins byte now then modify fun buffer => { buffer with carriageReturn := none }
      else do
        emit
        modify fun buffer => { buffer with carriageReturn := if byte = 13 then some now else none }
      scan now [] text

def feed (text : Bytes) (now : Int) : Action Unit := do
  if (← get).finished then throw ⟨"Cannot append line input after EOF"⟩
  scan now [] text

def finish : Action Unit := modify fun buffer => { buffer with finished := true }

def take : Action (Option InputLine) := do
  let buffer ← get
  match buffer.complete with
  | line :: complete => do
    set { buffer with complete := complete, bytes := buffer.bytes - line.length }
    return some ⟨line, true⟩
  | [] =>
    if buffer.finished ∧ buffer.current ≠ [] then do
      set { buffer with current := [], bytes := buffer.bytes - buffer.current.length }
      return some ⟨buffer.current, false⟩
    else return none

def clear : Action Unit := modify fun buffer => { buffer with complete := [], bytes := buffer.current.length }

end LineBuffer

/-! ## Runs -/

inductive Call
  | feed (text : Bytes) (now : Int)
  | take
  | finish

/-- A call, and the line that is taken. -/
def Call.act : Call → LineBuffer.Action (List InputLine)
  | .feed text now => do
    LineBuffer.feed text now
    return []
  | .take => return (← LineBuffer.take).toList
  | .finish => do
    LineBuffer.finish
    return []

/-- The lines that are taken. -/
def run : List Call → LineBuffer.Action (List InputLine)
  | [] => return []
  | call :: calls => return (← call.act) ++ (← run calls)

/-- The whole text. -/
def fed : List Call → Bytes
  | [] => []
  | .feed text _ :: calls => text ++ fed calls
  | _ :: calls => fed calls

def times : List Call → List Int
  | [] => []
  | .feed _ now :: calls => now :: times calls
  | _ :: calls => times calls

/-- No two feeds are further apart than the delay between CR and LF. -/
def Near (times : List Int) : Prop := ∀ time ∈ times, ∀ later ∈ times, later - time ≤ 100000000

/-! ## When the feeds come -/

/-- When the CR was fed that is the last byte, behind a text and its time. -/
def returnAfter (last : Option Int) (feed : Bytes × Int) : Option Int :=
  match feed.1.getLast? with
  | none => last
  | some byte => if byte = 13 then some feed.2 else none

/-- When the CR was fed that is the last byte of these texts. -/
def lastReturn (feeds : List (Bytes × Int)) : Option Int := feeds.foldl returnAfter none

/-- An LF that begins a feed comes within the delay where it follows a CR. -/
def Prompt (feeds : List (Bytes × Int)) : Prop :=
  ∀ past text now, past ++ [(10 :: text, now)] <+: feeds → ∀ time, lastReturn past = some time → now - time ≤ 100000000

/-- The texts of a run and their times. -/
def feeds : List Call → List (Bytes × Int)
  | [] => []
  | .feed text now :: calls => (text, now) :: feeds calls
  | _ :: calls => feeds calls

theorem times_eq (calls : List Call) : times calls = (feeds calls).map Prod.snd := by
  induction calls with
  | nil => rfl
  | cons call calls ih =>
    cases call with
    | feed text now => exact congrArg (now :: ·) ih
    | take => exact ih
    | finish => exact ih

theorem lastReturn_concat (feeds : List (Bytes × Int)) (feed : Bytes × Int) :
    lastReturn (feeds ++ [feed]) = returnAfter (lastReturn feeds) feed := by
  rw [lastReturn, List.foldl_append]
  rfl

theorem returnAfter_mem {feeds : List (Bytes × Int)} {last : Option Int} {time : Int}
    (h : feeds.foldl returnAfter last = some time) : last = some time ∨ time ∈ feeds.map Prod.snd := by
  induction feeds generalizing last with
  | nil => exact .inl h
  | cons feed feeds ih =>
    rcases ih h with hlast | hmem
    · unfold returnAfter at hlast
      split at hlast
      · exact .inl hlast
      · split_ifs at hlast
        cases hlast
        exact .inr List.mem_cons_self
    · exact .inr (List.mem_cons_of_mem _ hmem)

theorem lastReturn_mem {feeds : List (Bytes × Int)} {time : Int} (h : lastReturn feeds = some time) :
    time ∈ feeds.map Prod.snd :=
  (returnAfter_mem h).resolve_left nofun

/-- Feeds that are near are prompt. -/
theorem Near.prompt {feeds : List (Bytes × Int)} (h : Near (feeds.map Prod.snd)) : Prompt feeds := by
  intro past text now hprefix time htime
  have hmap : past.map Prod.snd ++ [now] <+: feeds.map Prod.snd := by
    have hmap := hprefix.map Prod.snd
    rw [List.map_append] at hmap
    exact hmap
  exact h time (hmap.subset (List.mem_append_left _ (lastReturn_mem htime))) now
    (hmap.subset (List.mem_append_right _ List.mem_cons_self))

/-- The next feed is prompt. -/
def Follows (feeds : List (Bytes × Int)) (text : Bytes) (now : Int) : Prop :=
  text.head? = some 10 → ∀ time, lastReturn feeds = some time → now - time ≤ 100000000

theorem Prompt.follows {past rest : List (Bytes × Int)} {text : Bytes} {now : Int}
    (h : Prompt (past ++ (text, now) :: rest)) : Follows past text now := by
  intro hhead
  obtain ⟨text, rfl⟩ := List.head?_eq_some_iff.mp hhead
  exact h past text now ⟨rest, by rw [List.append_assoc]; rfl⟩

theorem Prompt.before {past rest : List (Bytes × Int)} (h : Prompt (past ++ rest)) : Prompt past :=
  fun before text now hfront => h before text now (hfront.trans (List.prefix_append _ _))

/-! ## What is held -/

/-- The bounds on the lines that are held. -/
structure Within (pending : List Bytes) (rest : Bytes) : Prop where
  count : pending.length ≤ 1048576
  retained : pending.flatten.length + rest.length ≤ 67108864
  lines : ∀ line ∈ pending, line.length ≤ 16777216
  rest : rest.length ≤ 16777216

namespace LineBuffer

/-- The counter counts the bytes of the lines that are held. -/
def Counted (buffer : LineBuffer) : Prop := buffer.bytes = buffer.complete.flatten.length + buffer.current.length

/-- What was found so far. -/
def found (buffer : LineBuffer) : Lines.State :=
  ⟨buffer.complete, buffer.current, buffer.carriageReturn.isSome⟩

/-! ## The counter -/

section
variable {buffer : LineBuffer}

theorem wp_append (h : buffer.Counted) (text : Bytes) :
    wp (append text) (fun _ after => after.Counted) (fun _ after => after.Counted) buffer := by
  unfold append
  simp only [wp_bind, wp_get, wp_ite, wp_throw, wp_set]
  split_ifs with hbudget
  · exact h
  · unfold Counted at h ⊢
    rw [List.length_append]
    push_cast
    omega

theorem wp_emit (h : buffer.Counted) : wp emit (fun _ after => after.Counted) (fun _ after => after.Counted) buffer := by
  unfold emit
  simp only [wp_bind, wp_get, wp_ite, wp_throw, wp_set]
  split_ifs with hbudget
  · exact h
  · unfold Counted at h ⊢
    simp only [List.flatten_append, List.flatten_cons, List.flatten_nil, List.append_nil, List.length_append,
      List.length_nil]
    omega

theorem wp_scan (h : buffer.Counted) (now : Int) (line text : Bytes) :
    wp (scan now line text) (fun _ after => after.Counted) (fun _ after => after.Counted) buffer := by
  induction text generalizing buffer line with
  | nil => exact wp_append h line
  | cons byte text ih =>
    unfold scan
    simp only [wp_ite, wp_bind, wp_modify, wp_get]
    by_cases hplain : byte ≠ 10 ∧ byte ≠ 13
    · rw [if_pos hplain]
      exact ih (by exact h) (line ++ [byte])
    · rw [if_neg hplain]
      refine wp_mono (wp_append h line) (fun _ middle hmiddle => ?_) fun _ _ hafter => hafter
      by_cases hjoins : middle.joins byte now = true
      · rw [if_pos hjoins]
        exact ih (by exact hmiddle) []
      · rw [if_neg hjoins]
        exact wp_mono (wp_emit hmiddle) (fun _ last hlast => ih (by exact hlast) []) fun _ _ hafter => hafter

theorem wp_feed (h : buffer.Counted) (text : Bytes) (now : Int) :
    wp (feed text now) (fun _ after => after.Counted) (fun _ after => after.Counted) buffer := by
  unfold feed
  simp only [wp_bind, wp_get, wp_ite, wp_throw]
  split_ifs with hfinished
  · exact h
  · exact wp_scan h now [] text

theorem wp_take (h : buffer.Counted) :
    wp take (fun _ after => after.Counted) (fun _ after => after.Counted) buffer := by
  unfold Counted at h
  unfold take
  simp only [wp_bind, wp_get]
  cases hcomplete : buffer.complete with
  | cons line complete =>
    simp only [wp_bind, wp_set, wp_pure]
    rw [hcomplete, List.flatten_cons, List.length_append] at h
    unfold Counted
    dsimp only
    omega
  | nil =>
    simp only [wp_ite, wp_bind, wp_set, wp_pure]
    rw [hcomplete] at h
    split_ifs with hrest
    · unfold Counted
      simp only [List.flatten_nil, List.length_nil] at h ⊢
      omega
    · unfold Counted
      rw [hcomplete]
      exact h

end

end LineBuffer

/-! ## The bounds -/

theorem Within.of_next {state : Lines.State} {byte : UInt8}
    (h : Within (Lines.next state byte).lines (Lines.next state byte).rest) : Within state.lines state.rest := by
  have hemit : Within (state.lines ++ [state.rest]) [] → Within state.lines state.rest := by
    rintro ⟨hcount, hretained, hlines, -⟩
    simp only [List.length_append, List.flatten_append, List.flatten_cons, List.flatten_nil, List.append_nil,
      List.length_nil, List.length_cons] at hcount hretained
    exact ⟨by omega, by omega, fun line hline => hlines line (List.mem_append_left _ hline),
      hlines _ (List.mem_append_right _ List.mem_cons_self)⟩
  unfold Lines.next at h
  split_ifs at h with hcr hlf hjoins
  · exact hemit h
  · exact h
  · exact hemit h
  · obtain ⟨hcount, hretained, hlines, hrest⟩ := h
    simp only [List.length_append, List.length_cons, List.length_nil] at hretained hrest
    exact ⟨hcount, by omega, hlines, by omega⟩

/-- What is held only grows. -/
theorem Within.of_feed {state : Lines.State} {text : Bytes}
    (h : Within (Lines.feed state text).lines (Lines.feed state text).rest) : Within state.lines state.rest := by
  induction text generalizing state with
  | nil => exact h
  | cons byte text ih => exact Within.of_next (@ih (Lines.next state byte) h)

namespace LineBuffer

section
variable {buffer : LineBuffer}

/-- A text is appended within the bounds, or not at all. -/
theorem append_run (hcounted : buffer.Counted) (hwithin : Within buffer.complete buffer.current) (text : Bytes) :
    (Within buffer.complete (buffer.current ++ text) →
      append text buffer =
        .ok ⟨⟩ { buffer with current := buffer.current ++ text, bytes := buffer.bytes + text.length }) ∧
    (¬ Within buffer.complete (buffer.current ++ text) → ∃ error after, append text buffer = .error error after) := by
  unfold Counted at hcounted
  have hrun : append text buffer =
      if (text.length : Int) > 16777216 - buffer.current.length ∨ (text.length : Int) > 67108864 - buffer.bytes then
        .error ⟨"Readline input exceeds its retained text budget"⟩ buffer
      else
        .ok ⟨⟩ { buffer with current := buffer.current ++ text, bytes := buffer.bytes + text.length } := by
    unfold append
    rw [bind_run, get_run]
    dsimp only
    split_ifs <;> rfl
  rw [hrun]
  refine ⟨fun h => if_neg ?_, fun h => ?_⟩
  · have hretained := h.retained
    have hrest := h.rest
    rw [List.length_append] at hretained hrest
    omega
  · by_cases hbudget : (text.length : Int) > 16777216 - buffer.current.length ∨
        (text.length : Int) > 67108864 - buffer.bytes
    · exact ⟨_, _, if_pos hbudget⟩
    · refine absurd ⟨hwithin.count, ?_, hwithin.lines, ?_⟩ h
      · rw [List.length_append]
        omega
      · rw [List.length_append]
        omega

theorem emit_run (hwithin : Within buffer.complete buffer.current) :
    (Within (buffer.complete ++ [buffer.current]) [] →
      emit buffer = .ok ⟨⟩ { buffer with complete := buffer.complete ++ [buffer.current], current := [] }) ∧
    (¬ Within (buffer.complete ++ [buffer.current]) [] → ∃ error after, emit buffer = .error error after) := by
  have hrun : emit buffer =
      if buffer.complete.length ≥ 1048576 then
        .error ⟨"Readline input exceeds its pending line budget"⟩ buffer
      else .ok ⟨⟩ { buffer with complete := buffer.complete ++ [buffer.current], current := [] } := by
    unfold emit
    rw [bind_run, get_run]
    dsimp only
    split_ifs <;> rfl
  rw [hrun]
  refine ⟨fun h => if_neg ?_, fun h => ?_⟩
  · have hcount := h.count
    rw [List.length_append, List.length_cons, List.length_nil] at hcount
    omega
  · by_cases hbudget : buffer.complete.length ≥ 1048576
    · exact ⟨_, _, if_pos hbudget⟩
    · have hretained := hwithin.retained
      refine absurd ⟨?_, ?_, ?_, Nat.zero_le _⟩ h
      · rw [List.length_append, List.length_cons, List.length_nil]
        omega
      · simp only [List.flatten_append, List.flatten_cons, List.flatten_nil, List.append_nil, List.length_append,
          List.length_nil]
        omega
      · intro line hline
        rcases List.mem_append.mp hline with hline | hline
        · exact hwithin.lines line hline
        · rw [List.mem_singleton.mp hline]
          exact hwithin.rest

end

/-- A scan leaves what was found, or raises where that exceeds the bounds. -/
structure Scanned (now : Int) (text : Bytes) (buffer : LineBuffer) (result : Lines.State)
    (outcome : EStateM.Result Error LineBuffer Unit) : Prop where
  returns : Within result.lines result.rest → ∃ after, outcome = .ok ⟨⟩ after ∧ after.found = result ∧
    after.finished = buffer.finished ∧ ∀ time, after.carriageReturn = some time →
      text.getLast? = some 13 ∧ time = now ∨ text = [] ∧ buffer.carriageReturn = some time
  raises : ¬ Within result.lines result.rest → ∃ error after, outcome = .error error after

section
variable {now : Int} {text : Bytes} {buffer : LineBuffer} {result : Lines.State}
  {outcome : EStateM.Result Error LineBuffer Unit}

theorem Scanned.raised (hnot : ¬ Within result.lines result.rest) (hraise : ∃ error after, outcome = .error error after) :
    Scanned now text buffer result outcome :=
  ⟨fun hwithin => absurd hwithin hnot, fun _ => hraise⟩

/-- A scan from a state behind the first byte. -/
theorem Scanned.before {middle : LineBuffer} (h : Scanned now text middle result outcome) {byte : UInt8}
    (hfinished : middle.finished = buffer.finished)
    (htime : ∀ time, middle.carriageReturn = some time → byte = 13 ∧ time = now) :
    Scanned now (byte :: text) buffer result outcome where
  returns hwithin := by
    obtain ⟨after, hrun, hfound, hsame, hafter⟩ := h.returns hwithin
    refine ⟨after, hrun, hfound, hsame.trans hfinished, fun time hcr => .inl ?_⟩
    rcases hafter time hcr with ⟨hlast, hnow⟩ | ⟨rfl, hmiddle⟩
    · rw [List.getLast?_cons, hlast]
      exact ⟨rfl, hnow⟩
    · obtain ⟨rfl, hnow⟩ := htime time hmiddle
      exact ⟨rfl, hnow⟩
  raises := h.raises

/-- Within the delay, an LF behind a CR is the second half of an ending. -/
theorem joins_iff {byte : UInt8}
    (hprompt : byte = 10 → ∀ time, buffer.carriageReturn = some time → now - time ≤ 100000000) :
    buffer.joins byte now = true ↔ byte = 10 ∧ buffer.carriageReturn.isSome = true := by
  unfold joins
  rw [Bool.and_eq_true, beq_iff_eq]
  refine and_congr_right fun hbyte => ?_
  cases hcr : buffer.carriageReturn with
  | none => rfl
  | some time =>
    have hwithin : decide (now - time ≤ 100000000) = true := decide_eq_true (hprompt hbyte time hcr)
    simpa only [Option.isSome_some, Option.any_some, iff_true] using hwithin

theorem scan_run (hcounted : buffer.Counted) (hwithin : Within buffer.complete buffer.current) (line text : Bytes)
    (hprompt : text.head? = some 10 → ∀ time, buffer.carriageReturn = some time → now - time ≤ 100000000) :
    Scanned now text buffer
      (Lines.feed ⟨buffer.complete, buffer.current ++ line, buffer.carriageReturn.isSome⟩ text)
      (scan now line text buffer) := by
  induction text generalizing buffer line with
  | nil =>
    obtain ⟨hok, herror⟩ := append_run hcounted hwithin line
    exact ⟨fun h => ⟨_, hok h, rfl, rfl, fun time hcr => .inr ⟨rfl, hcr⟩⟩, herror⟩
  | cons byte text ih =>
    have hfeed : Lines.feed ⟨buffer.complete, buffer.current ++ line, buffer.carriageReturn.isSome⟩ (byte :: text) =
        Lines.feed (Lines.next ⟨buffer.complete, buffer.current ++ line, buffer.carriageReturn.isSome⟩ byte) text := rfl
    have hnone : ∀ time, (none : Option Int) = some time → now - time ≤ 100000000 := by
      intro time htime
      cases htime
    have hjoin : buffer.joins byte now = true ↔ byte = 10 ∧ buffer.carriageReturn.isSome = true :=
      joins_iff fun hbyte => hprompt (congrArg some hbyte)
    rw [hfeed]
    unfold scan
    by_cases hplain : byte ≠ 10 ∧ byte ≠ 13
    · rw [if_pos hplain, Lines.next_plain hplain, List.append_assoc, bind_run, modify_run]
      refine (@ih { buffer with carriageReturn := none } hcounted hwithin (line ++ [byte]) fun _ => hnone).before rfl ?_
      intro time htime
      cases htime
    · rw [if_neg hplain, bind_run]
      obtain ⟨hok, herror⟩ := append_run hcounted hwithin line
      by_cases hline : Within buffer.complete (buffer.current ++ line)
      · have hmiddle := wp_ok (wp_append hcounted line) (hok hline)
        rw [hok hline]
        dsimp only
        rw [bind_run, get_run]
        dsimp only
        by_cases hjoins : buffer.joins byte now = true
        · -- the line has ended already
          obtain ⟨hlf, hcr⟩ := hjoin.mp hjoins
          have hnext : Lines.next ⟨buffer.complete, buffer.current ++ line, buffer.carriageReturn.isSome⟩ byte =
              ⟨buffer.complete, buffer.current ++ line ++ [], false⟩ := by
            rw [Lines.next, hcr, hlf, List.append_nil]
            rfl
          rw [if_pos (by exact hjoins), bind_run, modify_run, hnext]
          refine (@ih { buffer with
            current := buffer.current ++ line, bytes := buffer.bytes + line.length, carriageReturn := none }
            hmiddle hline [] fun _ => hnone).before rfl ?_
          intro time htime
          cases htime
        · have hnext : Lines.next ⟨buffer.complete, buffer.current ++ line, buffer.carriageReturn.isSome⟩ byte =
              ⟨buffer.complete ++ [buffer.current ++ line], [] ++ [], (if byte = 13 then some now else none).isSome⟩ := by
            rw [hjoin] at hjoins
            unfold Lines.next
            by_cases hcr : byte = 13
            · rw [if_pos hcr, if_pos hcr]
              rfl
            · have hlf : byte = 10 := by
                by_contra hlf
                exact hplain ⟨hlf, hcr⟩
              rw [if_neg hcr, if_pos hlf, if_neg hcr, if_neg fun hsome => hjoins ⟨hlf, hsome⟩]
              rfl
          rw [if_neg (by exact hjoins), bind_run]
          obtain ⟨hok', herror'⟩ := @emit_run { buffer with
            current := buffer.current ++ line, bytes := buffer.bytes + line.length } hline
          by_cases hemit : Within (buffer.complete ++ [buffer.current ++ line]) []
          · have hlast := wp_ok (wp_emit hmiddle) (hok' hemit)
            rw [hok' hemit]
            dsimp only
            rw [bind_run, modify_run, hnext]
            refine (@ih { buffer with
              complete := buffer.complete ++ [buffer.current ++ line], current := [],
              bytes := buffer.bytes + line.length, carriageReturn := if byte = 13 then some now else none }
              hlast hemit [] ?_).before rfl ?_
            · intro _ time htime
              dsimp only at htime
              split_ifs at htime
              cases htime
              omega
            · intro time htime
              dsimp only at htime
              split_ifs at htime with hreturn
              cases htime
              exact ⟨hreturn, rfl⟩
          · obtain ⟨error, after, hraise⟩ := herror' hemit
            refine .raised (fun h => hemit ?_) ⟨error, after, by rw [hraise]⟩
            rw [hnext] at h
            exact h.of_feed
      · obtain ⟨error, after, hraise⟩ := herror hline
        refine .raised (fun h => hline h.of_feed.of_next) ⟨error, after, by rw [hraise]⟩

end

/-! ## Calls -/

/-- What is handed out of the lines and what stands behind them. -/
def inputLines (lines : List Bytes) (rest : Bytes) (finished : Bool) : List InputLine :=
  lines.map (⟨·, true⟩) ++ if finished = true ∧ rest ≠ [] then [⟨rest, false⟩] else []

/-- What can still be taken. -/
def left (buffer : LineBuffer) : List InputLine := inputLines buffer.complete buffer.current buffer.finished

structure Sound (feeds : List (Bytes × Int)) (buffer : LineBuffer) : Prop where
  counted : buffer.Counted
  within : Within buffer.complete buffer.current
  time : ∀ time, buffer.carriageReturn = some time → lastReturn feeds = some time

section
variable {buffer : LineBuffer}

theorem take_cons {line : Bytes} {complete : List Bytes} (h : buffer.complete = line :: complete) :
    take buffer = .ok (some ⟨line, true⟩) { buffer with complete := complete, bytes := buffer.bytes - line.length } := by
  unfold take
  rw [bind_run, get_run]
  dsimp only
  rw [h]
  rfl

theorem take_last (h : buffer.complete = []) (hfinished : buffer.finished = true) (hcurrent : buffer.current ≠ []) :
    take buffer = .ok (some ⟨buffer.current, false⟩)
      { buffer with current := [], bytes := buffer.bytes - buffer.current.length } := by
  unfold take
  rw [bind_run, get_run]
  dsimp only
  rw [h]
  dsimp only
  rw [if_pos ⟨hfinished, hcurrent⟩]
  rfl

theorem take_none (h : buffer.complete = []) (hrest : ¬ (buffer.finished = true ∧ buffer.current ≠ [])) :
    take buffer = .ok none buffer := by
  unfold take
  rw [bind_run, get_run]
  dsimp only
  rw [h]
  dsimp only
  rw [if_neg hrest]
  rfl

/-- The lines are taken one after the other. -/
theorem take_left : ∃ after, take buffer = .ok buffer.left.head? after ∧ after.left = buffer.left.tail := by
  unfold left inputLines
  cases hcomplete : buffer.complete with
  | cons line complete => exact ⟨_, take_cons hcomplete, rfl⟩
  | nil =>
    by_cases hrest : buffer.finished = true ∧ buffer.current ≠ []
    · rw [if_pos hrest]
      refine ⟨_, take_last hcomplete hrest.1 hrest.2, ?_⟩
      dsimp only
      rw [hcomplete, if_neg fun h => h.2 rfl]
      rfl
    · rw [if_neg hrest]
      refine ⟨_, take_none hcomplete hrest, ?_⟩
      rw [hcomplete, if_neg hrest]
      rfl

theorem Sound.take {feeds : List (Bytes × Int)} (h : Sound feeds buffer) {line : Option InputLine} {after : LineBuffer}
    (hrun : LineBuffer.take buffer = .ok line after) : Sound feeds after := by
  obtain ⟨hcounted, hwithin, htime⟩ := h
  have hcounted' := wp_ok (wp_take hcounted) hrun
  have hsame : after = buffer ∨ Within after.complete after.current ∧ after.carriageReturn = buffer.carriageReturn := by
    cases hcomplete : buffer.complete with
    | cons line complete =>
      rw [take_cons hcomplete] at hrun
      cases hrun
      obtain ⟨hcount, hretained, hlines, hrest⟩ := hwithin
      rw [hcomplete] at hcount hretained hlines
      rw [List.length_cons] at hcount
      rw [List.flatten_cons, List.length_append] at hretained
      refine .inr ⟨⟨?_, ?_, fun other hother => hlines other (List.mem_cons_of_mem _ hother), hrest⟩, rfl⟩
      · dsimp only
        omega
      · dsimp only
        omega
    | nil =>
      by_cases hrest : buffer.finished = true ∧ buffer.current ≠ []
      · rw [take_last hcomplete hrest.1 hrest.2] at hrun
        cases hrun
        obtain ⟨hcount, hretained, hlines, -⟩ := hwithin
        refine .inr ⟨⟨hcount, ?_, hlines, Nat.zero_le _⟩, rfl⟩
        dsimp only
        rw [List.length_nil]
        omega
      · rw [take_none hcomplete hrest] at hrun
        cases hrun
        exact .inl rfl
  rcases hsame with rfl | ⟨hwithin', hcr⟩
  · exact ⟨hcounted, hwithin, htime⟩
  · exact ⟨hcounted', hwithin', fun time hafter => htime time (hcr ▸ hafter)⟩

/-- What a feed does that is prompt. -/
theorem feed_run {feeds : List (Bytes × Int)} (h : Sound feeds buffer) {text : Bytes} {now : Int}
    (hfollows : Follows feeds text now) (hfinished : buffer.finished = false) :
    Scanned now text buffer (Lines.feed buffer.found text) (feed text now buffer) := by
  have hscan := scan_run h.counted h.within [] text fun hhead time htime => hfollows hhead time (h.time time htime)
  have hfeed : feed text now buffer = scan now [] text buffer := by
    unfold feed
    rw [bind_run, get_run]
    dsimp only
    rw [hfinished]
    rfl
  rw [List.append_nil] at hscan
  rw [hfeed]
  exact hscan

theorem feed_finished (hfinished : buffer.finished = true) (text : Bytes) (now : Int) :
    feed text now buffer = .error ⟨"Cannot append line input after EOF"⟩ buffer := by
  unfold feed
  rw [bind_run, get_run]
  dsimp only
  rw [hfinished]
  rfl

end

/-! ## Every split -/

/-- What a run leaves and hands out, of what was found at its beginning and in its text. -/
structure Found (feeds : List (Bytes × Int)) (start : LineBuffer) (text : Bytes) (taken : List InputLine)
    (after : LineBuffer) : Prop where
  sound : Sound feeds after
  /-- Nothing is fed when the input has ended. -/
  ended : start.finished = true → after.finished = true ∧ text = []
  lines : taken ++ after.left =
    inputLines (Lines.feed start.found text).lines (Lines.feed start.found text).rest after.finished
  /-- What is still held, while the input goes on. -/
  held : after.finished = false → taken.length ≤ (Lines.feed start.found text).lines.length ∧
    Lines.feed start.found text = after.found.behind ((Lines.feed start.found text).lines.take taken.length)

theorem run_cons (call : Call) (calls : List Call) {buffer after : LineBuffer} {taken : List InputLine}
    (hrun : run (call :: calls) buffer = .ok taken after) :
    ∃ first middle rest, call.act buffer = .ok first middle ∧ run calls middle = .ok rest after ∧
      taken = first ++ rest := by
  unfold run at hrun
  rw [bind_run] at hrun
  cases hact : call.act buffer with
  | error error middle =>
    rw [hact] at hrun
    cases hrun
  | ok first middle =>
    rw [hact] at hrun
    dsimp only at hrun
    rw [bind_run] at hrun
    cases hrest : run calls middle with
    | error error last =>
      rw [hrest] at hrun
      cases hrun
    | ok rest last =>
      rw [hrest] at hrun
      cases hrun
      exact ⟨first, middle, rest, rfl, hrest, rfl⟩

theorem act_feed {text : Bytes} {now : Int} {buffer middle : LineBuffer} {first : List InputLine}
    (hact : (Call.feed text now).act buffer = .ok first middle) :
    first = [] ∧ feed text now buffer = .ok ⟨⟩ middle := by
  rw [Call.act, bind_run] at hact
  cases hfeed : feed text now buffer with
  | error error last =>
    rw [hfeed] at hact
    cases hact
  | ok value last =>
    rw [hfeed] at hact
    cases hact
    exact ⟨rfl, rfl⟩

theorem act_take {buffer middle : LineBuffer} {first : List InputLine}
    (hact : Call.take.act buffer = .ok first middle) :
    ∃ line, first = line.toList ∧ take buffer = .ok line middle := by
  rw [Call.act, bind_run] at hact
  cases htake : take buffer with
  | error error last =>
    rw [htake] at hact
    cases hact
  | ok line last =>
    rw [htake] at hact
    cases hact
    exact ⟨line, rfl, rfl⟩

section
variable {calls : List Call} {buffer after : LineBuffer} {past : List (Bytes × Int)} {taken : List InputLine}

theorem found_feed (h : Sound past buffer) {text : Bytes} {now : Int} (hfollows : Follows past text now)
    {middle : LineBuffer} (hfeed : feed text now buffer = .ok ⟨⟩ middle) :
    buffer.finished = false ∧ Sound (past ++ [(text, now)]) middle ∧ middle.found = Lines.feed buffer.found text := by
  cases hfinished : buffer.finished with
  | true =>
    rw [feed_finished hfinished] at hfeed
    cases hfeed
  | false =>
    have hscanned := feed_run h hfollows hfinished
    have hwithin : Within (Lines.feed buffer.found text).lines (Lines.feed buffer.found text).rest := by
      by_contra hnot
      obtain ⟨error, last, hraise⟩ := hscanned.raises hnot
      rw [hraise] at hfeed
      cases hfeed
    obtain ⟨last, hrun, hfound, -, htime⟩ := hscanned.returns hwithin
    rw [hrun] at hfeed
    cases hfeed
    have hcounted := wp_ok (wp_feed h.counted text now) hrun
    refine ⟨rfl, ⟨hcounted, ?_, fun time hcr => ?_⟩, hfound⟩
    · rw [← hfound] at hwithin
      exact hwithin
    · rw [lastReturn_concat, returnAfter]
      rcases htime time hcr with ⟨hlast, rfl⟩ | ⟨rfl, hcr⟩
      · rw [hlast]
        exact if_pos rfl
      · exact h.time time hcr

theorem run_found (h : Sound past buffer) (hprompt : Prompt (past ++ feeds calls))
    (hrun : run calls buffer = .ok taken after) : Found (past ++ feeds calls) buffer (fed calls) taken after := by
  induction calls generalizing buffer past taken with
  | nil =>
    cases hrun
    rw [feeds, List.append_nil]
    exact ⟨h, fun hfinished => ⟨hfinished, rfl⟩, rfl, fun _ => ⟨Nat.zero_le _, rfl⟩⟩
  | cons call calls ih =>
    obtain ⟨first, middle, rest, hact, hrest, rfl⟩ := run_cons call calls hrun
    cases call with
    | feed text now =>
      obtain ⟨rfl, hfeed⟩ := act_feed hact
      have hfeeds : past ++ feeds (.feed text now :: calls) = past ++ [(text, now)] ++ feeds calls := by
        rw [List.append_assoc]
        rfl
      obtain ⟨hgoing, hmiddle, hfound⟩ := found_feed h hprompt.follows hfeed
      rw [hfeeds] at hprompt ⊢
      obtain ⟨hsound, -, hlines, hheld⟩ := ih hmiddle hprompt hrest
      have hfed : Lines.feed buffer.found (fed (.feed text now :: calls)) = Lines.feed middle.found (fed calls) := by
        rw [hfound]
        exact Lines.feed_append _ _ _
      refine ⟨hsound, fun hfinished => ?_, ?_, ?_⟩
      · rw [hgoing] at hfinished
        cases hfinished
      · rw [hfed]
        exact hlines
      · rw [hfed]
        exact hheld
    | take =>
      obtain ⟨line, rfl, htake⟩ := act_take hact
      have hmiddle : Sound past middle := h.take htake
      obtain ⟨hsound, hended, hlines, hheld⟩ := ih hmiddle hprompt hrest
      cases hcomplete : buffer.complete with
      | cons first complete =>
        -- a line that has ended
        rw [take_cons hcomplete] at htake
        cases htake
        have hfound : buffer.found = Lines.State.behind [first] { buffer with
            complete := complete, bytes := buffer.bytes - first.length }.found := by
          unfold found
          rw [hcomplete]
          rfl
        rw [show fed (.take :: calls) = fed calls from rfl]
        refine ⟨hsound, hended, ?_, fun hgoing => ?_⟩
        · rw [hfound, Lines.feed_behind, List.append_assoc, hlines]
          rfl
        · obtain ⟨hlength, hstate⟩ := hheld hgoing
          rw [hfound, Lines.feed_behind]
          refine ⟨?_, ?_⟩
          · rw [Lines.State.behind, List.length_append, List.length_append]
            exact Nat.add_le_add_left hlength 1
          · conv_lhs => rw [hstate]
            rfl
      | nil =>
        by_cases hlast : buffer.finished = true ∧ buffer.current ≠ []
        · -- what stands behind the last ending
          rw [take_last hcomplete hlast.1 hlast.2] at htake
          cases htake
          obtain ⟨hfinished, hfed⟩ := hended hlast.1
          rw [show fed (.take :: calls) = fed calls from rfl]
          rw [hfed] at hlines ⊢
          refine ⟨hsound, fun _ => ⟨hfinished, rfl⟩, ?_, fun hgoing => ?_⟩
          · have hempty : rest ++ after.left = [] := by
              rw [hlines]
              simp [inputLines, found, Lines.feed, hcomplete]
            have hall : inputLines (Lines.feed buffer.found []).lines (Lines.feed buffer.found []).rest after.finished =
                [⟨buffer.current, false⟩] := by
              simp [inputLines, found, Lines.feed, hcomplete, hfinished, hlast.2]
            rw [List.append_assoc, hempty, hall]
            rfl
          · rw [hfinished] at hgoing
            cases hgoing
        · rw [take_none hcomplete hlast] at htake
          cases htake
          exact ⟨hsound, hended, hlines, hheld⟩
    | finish =>
      obtain ⟨rfl, rfl⟩ : first = [] ∧ middle = { buffer with finished := true } := by
        cases hact
        exact ⟨rfl, rfl⟩
      obtain ⟨hsound, hended, hlines, hheld⟩ := @ih { buffer with finished := true } _ _
        ⟨h.counted, h.within, h.time⟩ hprompt hrest
      obtain ⟨hfinished, hfed⟩ := hended rfl
      refine ⟨hsound, fun _ => ⟨hfinished, hfed⟩, hlines, fun hgoing => ?_⟩
      rw [hfinished] at hgoing
      cases hgoing

end

/-- A feed raises when what is held would exceed the bounds. -/
theorem returns_iff {past : List (Bytes × Int)} {buffer : LineBuffer} (h : Sound past buffer) {text : Bytes}
    {now : Int} (hfollows : Follows past text now) (hfinished : buffer.finished = false) :
    (∃ after, feed text now buffer = .ok ⟨⟩ after) ↔
      Within (Lines.feed buffer.found text).lines (Lines.feed buffer.found text).rest := by
  have hscanned := feed_run h hfollows hfinished
  constructor
  · rintro ⟨after, hrun⟩
    by_contra hnot
    obtain ⟨error, last, hraise⟩ := hscanned.raises hnot
    rw [hraise] at hrun
    cases hrun
  · intro hwithin
    obtain ⟨after, hrun, -⟩ := hscanned.returns hwithin
    exact ⟨after, hrun⟩

/-! ## The counter in every state -/

inductive Operation
  | call (call : Call)
  | clear

/-- The state an operation leaves, also where it raises. -/
def perform (buffer : LineBuffer) : Operation → LineBuffer
  | .call call => finalState (call.act buffer)
  | .clear => finalState (clear buffer)

theorem counted_perform {buffer : LineBuffer} (h : buffer.Counted) (operation : Operation) :
    (buffer.perform operation).Counted := by
  cases operation with
  | clear =>
    show (buffer.current.length : Int) = ([] : List Bytes).flatten.length + buffer.current.length
    rw [List.flatten_nil, List.length_nil]
    omega
  | call call =>
    cases call with
    | feed text now => exact wp_final (wp_bind _ _ ▸ wp_feed h text now)
    | take => exact wp_final (wp_bind _ _ ▸ wp_take h)
    | finish => exact h

theorem counted_after (operations : List Operation) : (operations.foldl perform {}).Counted := by
  have hstart : (({} : LineBuffer)).Counted := rfl
  revert hstart
  generalize ({} : LineBuffer) = buffer
  induction operations generalizing buffer with
  | nil => exact id
  | cons operation operations ih => exact fun h => ih _ (counted_perform h operation)

end LineBuffer

/-- A line of more bytes than the bound is not taken. -/
theorem LineBuffer.feed_long {text : Bytes} (hplain : Lines.Plain text) (hlong : text.length > 16777216) (now : Int) :
    LineBuffer.feed text now {} = .error ⟨"Readline input exceeds its retained text budget"⟩ {} := by
  have hscan : ∀ line : Bytes, LineBuffer.scan now line text {} = LineBuffer.append (line ++ text) {} := by
    clear hlong
    induction text with
    | nil => intro line; rw [List.append_nil]; rfl
    | cons byte text ih =>
      intro line
      have hrest := ih (fun other hother => hplain other (List.mem_cons_of_mem _ hother)) (line ++ [byte])
      rw [List.append_assoc] at hrest
      rw [LineBuffer.scan, if_pos (hplain byte List.mem_cons_self)]
      exact hrest
  have hbudget : (text.length : Int) > 16777216 - ([] : Bytes).length := by
    rw [List.length_nil]
    omega
  have hfeed : LineBuffer.feed text now {} = LineBuffer.append text {} := hscan []
  rw [hfeed, LineBuffer.append, bind_run, get_run]
  dsimp only
  rw [if_pos (.inl hbudget)]
  rfl

section
variable {calls : List Call} {taken : List InputLine} {after : LineBuffer}

theorem found_start (hnear : Near (times calls)) (hrun : run calls {} = .ok taken after) :
    LineBuffer.Found (feeds calls) {} (fed calls) taken after := by
  have hstart : LineBuffer.Sound [] {} :=
    ⟨rfl, ⟨Nat.zero_le _, Nat.zero_le _, by simp, Nat.zero_le _⟩, fun time htime => by cases htime⟩
  rw [times_eq] at hnear
  exact LineBuffer.run_found hstart hnear.prompt hrun

/-- What a further text makes of what is held is what it makes of the lines, without those that were taken. -/
theorem found_further (h : LineBuffer.Found (feeds calls) {} (fed calls) taken after) (hgoing : after.finished = false)
    (text : Bytes) :
    (Lines.feed {} (fed calls ++ text)).lines.drop taken.length = (Lines.feed after.found text).lines ∧
      (Lines.feed {} (fed calls ++ text)).rest = (Lines.feed after.found text).rest := by
  obtain ⟨hlength, hstate⟩ := h.held hgoing
  have hfurther : Lines.feed {} (fed calls ++ text) =
      (Lines.feed after.found text).behind ((Lines.feed {} (fed calls)).lines.take taken.length) := by
    rw [Lines.feed_append, ← Lines.feed_behind]
    exact congrArg (Lines.feed · text) hstate
  rw [hfurther]
  refine ⟨?_, rfl⟩
  have htaken : ((Lines.feed {} (fed calls)).lines.take taken.length).length = taken.length := by
    rw [List.length_take]
    exact Nat.min_eq_left hlength
  rw [Lines.State.behind, List.drop_append_of_le_length (Nat.le_of_eq htaken.symm), List.drop_of_length_le
    (Nat.le_of_eq htaken)]
  rfl

end

/-- However a text is fed, its lines are taken; a feed raises only where a bound is exceeded. -/
theorem run_lines (calls : List Call) (hnear : Near (times calls)) :
    (∀ taken after, run calls {} = .ok taken after → ∃ lines rest, Split (fed calls) lines rest ∧
      taken ++ after.left = LineBuffer.inputLines lines rest after.finished ∧
      (after.finished = false → after.complete = lines.drop taken.length ∧ after.current = rest)) ∧
    (∀ buffer : LineBuffer,
      ∃ after, LineBuffer.take buffer = .ok buffer.left.head? after ∧ after.left = buffer.left.tail) ∧
    (∀ taken after text now, run calls {} = .ok taken after → after.finished = false →
      (∀ time ∈ times calls, now - time ≤ 100000000) →
        ((∃ last, LineBuffer.feed text now after = .ok ⟨⟩ last) ↔
          ∃ lines rest, Split (fed calls ++ text) lines rest ∧ Within (lines.drop taken.length) rest)) ∧
    ∀ operations : List LineBuffer.Operation, (operations.foldl LineBuffer.perform {}).Counted := by
  refine ⟨fun taken after hrun => ?_, fun buffer => LineBuffer.take_left, fun taken after text now hrun hgoing htime => ?_,
    LineBuffer.counted_after⟩
  · have hfound := found_start hnear hrun
    refine ⟨_, _, Lines.split_iff.mpr ⟨rfl, rfl⟩, hfound.lines, fun hgoing => ?_⟩
    obtain ⟨hlines, hrest⟩ := found_further hfound hgoing []
    rw [List.append_nil] at hlines hrest
    exact ⟨hlines.symm, hrest.symm⟩
  · have hfound := found_start hnear hrun
    obtain ⟨hlines, hrest⟩ := found_further hfound hgoing text
    have hfollows : Follows (feeds calls) text now := by
      intro _ time hlast
      refine htime time ?_
      rw [times_eq]
      exact lastReturn_mem hlast
    rw [LineBuffer.returns_iff hfound.sound hfollows hgoing, ← hlines, ← hrest]
    constructor
    · intro hwithin
      exact ⟨_, _, Lines.split_iff.mpr ⟨rfl, rfl⟩, hwithin⟩
    · rintro ⟨lines, rest, hsplit, hwithin⟩
      obtain ⟨rfl, rfl⟩ := Lines.split_iff.mp hsplit
      exact hwithin

/-- A CR, and the LF behind it in the next feed. -/
theorem run_lines_halved :
    ∃ lines rest, Split [97, 13, 10, 98] lines rest ∧
      [⟨[97], true⟩, ⟨[98], false⟩] = LineBuffer.inputLines lines rest true := by
  have hnear : Near (times [.feed [97, 13] 0, .take, .feed [10, 98] 100000000, .finish, .take]) := by
    unfold Near times
    decide
  obtain ⟨lines, rest, hsplit, hlines, -⟩ := (run_lines _ hnear).1 [⟨[97], true⟩, ⟨[98], false⟩]
    { bytes := 0, finished := true } rfl
  exact ⟨lines, rest, hsplit, hlines⟩

/-- A line of more bytes than the bound. -/
theorem run_lines_long : ¬ ∀ calls, Near (times calls) → ∃ taken after lines rest, run calls {} = .ok taken after ∧
    Split (fed calls) lines rest ∧ taken ++ after.left = LineBuffer.inputLines lines rest after.finished := by
  intro hall
  have hraise : ∀ text : Bytes, text = List.replicate 16777217 97 → False := by
    intro text htext
    have hplain : Lines.Plain text := by
      intro byte hbyte
      rw [htext] at hbyte
      obtain rfl := List.eq_of_mem_replicate hbyte
      exact ⟨by decide, by decide⟩
    have hlength : text.length > 16777216 := by
      rw [htext, List.length_replicate]
      decide
    have hnear : Near (times [.feed text 0]) := by
      show Near [0]
      unfold Near
      decide
    obtain ⟨taken, after, -, -, hrun, -, -⟩ := hall _ hnear
    obtain ⟨first, middle, rest, hact, -, -⟩ := LineBuffer.run_cons _ _ hrun
    obtain ⟨-, hfeed⟩ := LineBuffer.act_feed hact
    rw [LineBuffer.feed_long hplain hlength] at hfeed
    cases hfeed
  exact hraise _ rfl

end TsonicNode.Readline
