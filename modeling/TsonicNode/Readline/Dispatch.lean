import TsonicNode.Readline.Closing

/-!
# The dispatch of lines

`Balanced` says that one loop of `_dispatch` runs where the flag is set,
`Remembers` what the history holds, `Accounts` that the lines given away and
those still held are the lines of the input. Few pieces change what these are
about (`Idle`), and a run keeps all three (`lines_dispatched`).
-/

namespace TsonicNode.Readline

open TsonicNode.Lib TsonicNode.Internal
open TsonicNode.Lib.Lines (Bytes Split)

variable {Callback : Type}

/-! ## What is told of a run -/

def Entry.line : Entry Callback → Option InputLine
  | .delivered line _ _ _ _ => some line
  | _ => none

/-- The question that a line is for. -/
def Entry.answers : Entry Callback → Option Callback
  | .delivered _ _ (.question callback) _ _ => some callback
  | _ => none

/-- The question that is called. -/
def Entry.asks : Entry Callback → Option Callback
  | .asked callback _ => some callback
  | _ => none

/-- A line that has ended is for the question that waits, any other for the listeners. -/
def Receiver.of (line : InputLine) (pending : Option Callback) : Receiver Callback :=
  match line.terminated, pending with
  | true, some callback => .question callback
  | _, _ => .listeners

/-- A line is given away as it should be. -/
def Entry.fair : Entry Callback → Prop
  | .delivered line pending receiver paused closed => paused = false ∧ closed = false ∧ receiver = .of line pending
  | _ => True

def Code.loops : Code Callback → Nat
  | .loop => 1
  | _ => 0

/-- The pieces that do more than call. -/
def Code.busy : Code Callback → Bool
  | .closing _ => true
  | .feed _ => true
  | .finish => true
  | .dispatch => true
  | .loop => true
  | _ => false

namespace System

def delivered (system : System Callback) : List InputLine := system.given.filterMap Entry.line

def loops (system : System Callback) : Nat := (system.stack.map Code.loops).sum

/-- One loop runs where the flag is set, with those that are on the stack no longer. -/
def Balanced (bound : Nat) (system : System Callback) : Prop :=
  system.loops + bound = if system.interface.dispatching then 1 else 0

/-- The history keeps to the limit it was given, and to the rule. -/
structure Remembers (size : Nat) (unique : Bool) (interface : Interface Callback) : Prop where
  options : interface.historySize = size ∧ interface.uniqueHistory = unique
  length : interface.history.length ≤ size
  nodup : unique = true → interface.history.Nodup

/-- What is known while the interface is open. -/
structure Accounts (system : System Callback) : Prop where
  fair : ∀ entry ∈ system.given, entry.fair
  asked : system.given.filterMap Entry.asks = system.given.filterMap Entry.answers
  lines : system.interface.closed = false → system.delivered ++ system.interface.lines.left =
    LineBuffer.inputLines system.completed system.rest system.interface.lines.finished
  rest : system.interface.closed = false → system.interface.lines.finished = false →
    system.interface.lines.current = system.rest
  text : system.interface.closed = false → system.refused = false → Prompt system.feeds →
    LineBuffer.Sound system.feeds system.interface.lines ∧
      ∃ carriageReturn, Lines.feed {} system.fed = ⟨system.completed, system.rest, carriageReturn⟩ ∧
        (system.interface.lines.finished = false →
          carriageReturn = system.interface.lines.carriageReturn.isSome)

/-! ## Idle pieces -/

/-- What most pieces leave alone. -/
def books (system : System Callback) :=
  ((system.interface.lines, system.interface.history, system.interface.historySize, system.interface.uniqueHistory,
    system.interface.closed), system.completed, system.rest, system.feeds, system.refused, system.given)

structure Idle (system after : System Callback) : Prop where
  books : after.books = system.books
  dispatching : after.interface.dispatching = system.interface.dispatching
  loops : after.loops = system.loops

section
variable {system after : System Callback}

theorem Idle.refl (system : System Callback) : Idle system system := ⟨rfl, rfl, rfl⟩

theorem Idle.same (h : Idle system after) {last : System Callback} (hbooks : last.books = after.books)
    (hdispatching : last.interface.dispatching = after.interface.dispatching) (hstack : last.stack = after.stack) :
    Idle system last where
  books := hbooks.trans h.books
  dispatching := hdispatching.trans h.dispatching
  loops := by
    unfold System.loops
    rw [hstack]
    exact h.loops

theorem Idle.calls (h : Idle system after) {last : System Callback} {codes : List (Code Callback)}
    (hbooks : last.books = after.books) (hdispatching : last.interface.dispatching = after.interface.dispatching)
    (hstack : last.stack = codes ++ after.stack) (hloops : (codes.map Code.loops).sum = 0) : Idle system last where
  books := hbooks.trans h.books
  dispatching := hdispatching.trans h.dispatching
  loops := by
    unfold System.loops
    rw [hstack, List.map_append, List.sum_append, hloops, Nat.zero_add]
    exact h.loops

theorem given_note {entry : Entry Callback} (hgives : entry.gives = false) (system : System Callback) :
    (system.note entry).given = system.given := by
  show (system.record ++ [entry]).filter Entry.gives = _
  rw [List.filter_append, List.filter_singleton, hgives]
  exact List.append_nil _

theorem Idle.note (h : Idle system after) {entry : Entry Callback} (hgives : entry.gives = false) :
    Idle system (after.note entry) where
  books := by
    have hnote : (after.note entry).books = after.books := by
      unfold System.books
      rw [given_note hgives]
      rfl
    exact hnote.trans h.books
  dispatching := h.dispatching
  loops := h.loops

end

theorem emit_idle (system : System Callback) (event : Event) (arguments : Arguments)
    (rest : List (Listener Callback)) : Idle system (system.emit event arguments rest) := by
  unfold System.emit
  dsimp only
  split
  · exact (Idle.refl system).same rfl rfl rfl
  · rename_i listener rest' hnext
    have hfired : Idle system { system with
        interface.events := system.interface.events.put
          ((system.interface.events.of event).nextCallback rest).1 event } := (Idle.refl system).same rfl rfl rfl
    have hnoted := @Idle.note _ _ _ hfired (.called event listener.callback system.interface.closed) rfl
    exact hnoted.calls rfl rfl rfl rfl

theorem perform_idle (now : Int) (system : System Callback) {code : Code Callback} (hbusy : code.busy = false) :
    Idle system (system.perform now code) := by
  have hrefl : Idle system system := .refl system
  cases code with
  | output text =>
    dsimp only [System.perform]
    split
    · exact Idle.calls (hrefl.note rfl) rfl rfl rfl rfl
    · exact hrefl
  | polled =>
    dsimp only [System.perform]
    split
    · exact hrefl.calls rfl rfl rfl rfl
    · exact hrefl
  | emit event arguments rest => exact emit_idle system event arguments rest
  | ask query callback => exact hrefl.calls rfl rfl rfl rfl
  | paused => exact hrefl.calls rfl rfl rfl rfl
  | resumed => exact hrefl.calls rfl rfl rfl rfl
  | outside => exact hrefl.calls rfl rfl rfl rfl
  | outputPrompt => exact hrefl.calls rfl rfl rfl rfl
  | pause =>
    dsimp only [System.perform]
    split
    · exact hrefl
    · exact hrefl.calls rfl rfl rfl rfl
  | resume =>
    dsimp only [System.perform]
    split
    · exact hrefl
    · exact hrefl.calls rfl rfl rfl rfl
  | close =>
    dsimp only [System.perform]
    split
    · exact hrefl
    · exact hrefl.calls rfl rfl rfl rfl
  | poll =>
    dsimp only [System.perform]
    split
    · exact hrefl
    · exact hrefl.calls rfl rfl rfl rfl
  | _ => cases hbusy

section
variable (unpaired : List UInt16 → Error) (same : Callback → Callback → Bool)

/-- What outside code does is idle, unless it ends. -/
theorem act_idle (system : System Callback) {action : Action Callback} (hreturn : action ≠ .return)
    (hraise : action ≠ .raise) : Idle system (system.act unpaired same action) := by
  have hrefl : Idle system system := .refl system
  cases action with
  | question query callback =>
    dsimp only [System.act]
    split
    · exact hrefl
    · split
      · exact hrefl.calls rfl rfl rfl rfl
      · exact hrefl.calls rfl rfl rfl rfl
  | on event callback once =>
    dsimp only [System.act]
    split
    · exact hrefl.same rfl rfl rfl
    · exact hrefl
  | data value =>
    dsimp only [System.act]
    split
    · exact hrefl
    · split
      · exact hrefl.calls rfl rfl rfl rfl
      · split
        · exact hrefl.same rfl rfl rfl
        · exact hrefl.calls rfl rfl rfl rfl
  | inputEnd =>
    dsimp only [System.act]
    split
    · exact hrefl
    · split
      · exact hrefl.same rfl rfl rfl
      · split
        · exact hrefl.same rfl rfl rfl
        · exact hrefl.calls rfl rfl rfl rfl
  | inputClose =>
    dsimp only [System.act]
    split
    · exact hrefl
    · split
      · exact hrefl.same rfl rfl rfl
      · exact hrefl.calls rfl rfl rfl rfl
  | inputError error =>
    dsimp only [System.act]
    split
    · exact hrefl
    · split
      · exact hrefl
      · exact hrefl.calls rfl rfl rfl rfl
  | setPrompt value => exact hrefl.same rfl rfl rfl
  | off event callback => exact hrefl.same rfl rfl rfl
  | «return» => exact absurd rfl hreturn
  | raise => exact absurd rfl hraise
  | go now => exact hrefl
  | pause => exact hrefl.calls rfl rfl rfl rfl
  | resume => exact hrefl.calls rfl rfl rfl rfl
  | close => exact hrefl.calls rfl rfl rfl rfl
  | poll => exact hrefl.calls rfl rfl rfl rfl
  | _ =>
    dsimp only [System.act]
    split
    · exact hrefl
    · exact hrefl.calls rfl rfl rfl rfl

end

/-! ## Errors -/

theorem books_raise (system : System Callback) : system.raise.books = system.books := by
  obtain ⟨dispatching, stack, -, hraise⟩ := raise_cases system
  rw [hraise]
  rfl

theorem Balanced.raise {system : System Callback} (h : Balanced 0 system) : Balanced 0 system.raise := by
  have hunwind : ∀ (stack : List (Code Callback)) (interface : Interface Callback),
      (stack.map Code.loops).sum = (if interface.dispatching then 1 else 0) →
      ((unwind interface stack).2.map Code.loops).sum =
        if (unwind interface stack).1.dispatching then 1 else 0 := by
    intro stack
    induction stack with
    | nil => exact fun _ hstack => hstack
    | cons code stack ih =>
      intro interface hstack
      rw [List.map_cons, List.sum_cons] at hstack
      cases code with
      | outside =>
        show ((Code.outside :: stack).map Code.loops).sum = _
        rw [List.map_cons, List.sum_cons]
        exact hstack
      | loop =>
        refine ih { interface with dispatching := false } ?_
        rw [if_neg Bool.false_ne_true]
        have hone : Code.loops (.loop : Code Callback) = 1 := rfl
        split at hstack <;> omega
      | _ => exact ih interface ((Nat.zero_add _).symm.trans hstack)
  exact hunwind system.stack system.interface h

end System

/-! ## The line buffer -/

namespace LineBuffer

/-- What a feed does to the lines that are held, also where it raises. -/
def Grows (buffer after : LineBuffer) : Prop := buffer.complete <+: after.complete ∧ after.finished = buffer.finished

theorem Grows.trans {first second third : LineBuffer} (h : Grows first second) (h' : Grows second third) :
    Grows first third := ⟨h.1.trans h'.1, h'.2.trans h.2⟩

section
variable {buffer : LineBuffer}

theorem append_grows (text : Bytes) :
    wp (append text) (fun _ after => Grows buffer after) (fun _ after => Grows buffer after) buffer := by
  unfold append
  simp only [wp_bind, wp_get, wp_ite, wp_throw, wp_set]
  split_ifs
  · exact ⟨List.prefix_refl _, rfl⟩
  · exact ⟨List.prefix_refl _, rfl⟩

theorem emit_grows : wp emit (fun _ after => Grows buffer after) (fun _ after => Grows buffer after) buffer := by
  unfold emit
  simp only [wp_bind, wp_get, wp_ite, wp_throw, wp_set]
  split_ifs
  · exact ⟨List.prefix_refl _, rfl⟩
  · exact ⟨List.prefix_append _ _, rfl⟩

theorem scan_grows (now : Int) (line text : Bytes) :
    wp (scan now line text) (fun _ after => Grows buffer after) (fun _ after => Grows buffer after) buffer := by
  induction text generalizing buffer line with
  | nil => exact append_grows line
  | cons byte text ih =>
    have hnext : ∀ (line : Bytes) (middle : LineBuffer), Grows buffer middle →
        wp (scan now line text) (fun _ after => Grows buffer after) (fun _ after => Grows buffer after) middle :=
      fun line middle hmiddle => wp_mono (ih line) (fun _ _ h => hmiddle.trans h) fun _ _ h => hmiddle.trans h
    unfold scan
    simp only [wp_ite, wp_bind, wp_modify, wp_get]
    by_cases hplain : byte ≠ 10 ∧ byte ≠ 13
    · rw [if_pos hplain]
      exact hnext _ _ ⟨List.prefix_refl _, rfl⟩
    · rw [if_neg hplain]
      refine wp_mono (append_grows line) (fun _ middle hmiddle => ?_) fun _ _ h => h
      by_cases hjoins : middle.joins byte now = true
      · rw [if_pos hjoins]
        exact hnext _ _ hmiddle
      · rw [if_neg hjoins]
        exact wp_mono emit_grows (fun _ last hlast => hnext _ _ (hmiddle.trans hlast)) fun _ _ h => hmiddle.trans h

theorem feed_grows (text : Bytes) (now : Int) : Grows buffer (finalState (feed text now buffer)) := by
  refine wp_final ?_
  unfold feed
  simp only [wp_bind, wp_get, wp_ite, wp_throw]
  split_ifs
  · exact ⟨List.prefix_refl _, rfl⟩
  · exact scan_grows now [] text

/-- The next line is taken, and nothing else changes. -/
theorem take_cases (buffer : LineBuffer) :
    buffer.left = [] ∧ take buffer = .ok none buffer ∨
      ∃ line after, take buffer = .ok (some line) after ∧ buffer.left = line :: after.left ∧
        after.finished = buffer.finished ∧ after.carriageReturn = buffer.carriageReturn ∧
        (buffer.finished = false → after.current = buffer.current) := by
  cases hcomplete : buffer.complete with
  | cons line complete =>
    refine .inr ⟨_, _, take_cons hcomplete, ?_, rfl, rfl, fun _ => rfl⟩
    unfold left inputLines
    rw [hcomplete]
    rfl
  | nil =>
    by_cases hrest : buffer.finished = true ∧ buffer.current ≠ []
    · refine .inr ⟨_, _, take_last hcomplete hrest.1 hrest.2, ?_, rfl, rfl, fun hgoing => ?_⟩
      · unfold left inputLines
        dsimp only
        rw [hcomplete, if_pos hrest, if_neg fun h => h.2 rfl]
        rfl
      · rw [hrest.1] at hgoing
        cases hgoing
    · refine .inl ⟨?_, take_none hcomplete hrest⟩
      unfold left inputLines
      rw [hcomplete, if_neg hrest]
      rfl

end

end LineBuffer

/-! ## History -/

namespace Interface

theorem retain_length {size : Nat} {unique : Bool} {text : Bytes} {retained : List Bytes}
    (h : retained.length ≤ size) (history : List Bytes) : (retain size unique text retained history).length ≤ size := by
  induction history generalizing retained with
  | nil => exact h
  | cons previous history ih =>
    unfold retain
    split_ifs with hfull hkeep
    · exact h
    · refine ih ?_
      rw [List.length_append, List.length_singleton]
      omega
    · exact ih h

/-- What is retained comes from the text and from what of the history is behind. -/
theorem retain_nodup {size : Nat} {text : Bytes} {retained history : List Bytes} (hretained : retained.Nodup)
    (hhistory : history.Nodup) (hapart : ∀ line ∈ retained, line = text ∨ line ∉ history) :
    (retain size true text retained history).Nodup := by
  induction history generalizing retained with
  | nil => exact hretained
  | cons previous history ih =>
    rw [List.nodup_cons] at hhistory
    have hbehind : ∀ line ∈ retained, line = text ∨ line ∉ history := by
      intro line hline
      exact (hapart line hline).imp_right fun hnew hmem => hnew (List.mem_cons_of_mem _ hmem)
    unfold retain
    split_ifs with hfull hkeep
    · exact hretained
    · have hother : previous ≠ text := by simpa using hkeep
      have hnew : previous ∉ retained := by
        intro hmem
        rcases hapart previous hmem with htext | hnot
        · exact hother htext
        · exact hnot List.mem_cons_self
      refine ih ?_ hhistory.2 ?_
      · rw [List.nodup_append]
        refine ⟨hretained, List.nodup_singleton _, fun line hline other hsame => ?_⟩
        rw [List.mem_singleton.mp hsame]
        rintro rfl
        exact hnew hline
      · intro line hline
        rcases List.mem_append.mp hline with hline | hline
        · exact hbehind line hline
        · rw [List.mem_singleton.mp hline]
          exact .inr hhistory.1
    · exact ih hretained hhistory.2 hbehind

end Interface

namespace System

theorem Remembers.remember {size : Nat} {unique : Bool} {interface : Interface Callback}
    (h : Remembers size unique interface) (text : Bytes) : Remembers size unique (interface.remember text) := by
  obtain ⟨⟨hsize, hunique⟩, hlength, hnodup⟩ := h
  unfold Interface.remember
  split_ifs with hoff hsame
  · exact ⟨⟨hsize, hunique⟩, hlength, hnodup⟩
  · exact ⟨⟨hsize, hunique⟩, hlength, hnodup⟩
  · rw [hsize, hunique]
    refine ⟨⟨rfl, rfl⟩, Interface.retain_length ?_ _, fun hon => ?_⟩
    · simp only [Bool.or_eq_true, decide_eq_true_eq, not_or] at hoff
      show 1 ≤ size
      omega
    · rw [hon]
      refine Interface.retain_nodup (List.nodup_singleton text) (hnodup hon) fun line hline => ?_
      exact .inl (List.mem_singleton.mp hline)

/-! ## Busy pieces -/

/-- The question is called, or the emission is about to begin. -/
def receives (system : System Callback) (line : InputLine) : Receiver Callback → Code Callback
  | .question _ => .outside
  | .listeners => .emit .lines (.line line.text) system.interface.events.lines.entries

/-- What a line given away adds to the record. -/
def giving (line : InputLine) (pending : Option Callback) : List (Entry Callback) :=
  .delivered line pending (.of line pending) false false ::
    match Receiver.of line pending with
    | .question callback => [.asked callback false]
    | .listeners => []

/-- The loop of `_dispatch` ends, or gives the next line away. -/
theorem loop_cases (system : System Callback) :
    (system.loop.books = system.books ∧ system.loop.stack = system.stack ∧
      system.loop.interface.dispatching = false ∧
      (system.interface.paused = false → system.interface.closed = false → system.interface.lines.left = [])) ∨
    ∃ line lines, system.interface.paused = false ∧ system.interface.closed = false ∧
      LineBuffer.take system.interface.lines = .ok (some line) lines ∧
      system.loop.books = { system with
        interface := { system.interface with lines }.remember line.text,
        record := system.record ++ giving line system.interface.callback }.books ∧
      system.loop.stack = system.receives line (.of line system.interface.callback) :: .loop :: system.stack ∧
      system.loop.interface.dispatching = system.interface.dispatching := by
  unfold System.loop
  dsimp only
  by_cases hstill : (system.interface.paused || system.interface.closed) = true
  · rw [if_pos hstill]
    refine .inl ⟨rfl, rfl, rfl, fun hpaused hclosed => ?_⟩
    rw [hpaused, hclosed] at hstill
    cases hstill
  · rw [if_neg hstill]
    obtain ⟨hpaused, hclosed⟩ : system.interface.paused = false ∧ system.interface.closed = false := by
      simpa using hstill
    rcases LineBuffer.take_cases system.interface.lines with ⟨hleft, htake⟩ | ⟨line, lines, htake, -⟩
    · rw [htake]
      exact .inl ⟨rfl, rfl, rfl, fun _ _ => hleft⟩
    · right
      refine ⟨line, lines, hpaused, hclosed, htake, ?_⟩
      obtain ⟨history, hremember⟩ := remember_cases { system.interface with lines } line.text
      rw [htake]
      dsimp only
      rw [hremember]
      dsimp only
      split
      · rename_i callback hterminated hcallback
        have hof : Receiver.of line system.interface.callback = .question callback := by
          unfold Receiver.of
          rw [hterminated, hcallback]
        have hgiving : giving line system.interface.callback = [.delivered line (some callback) (.question callback)
            system.interface.paused system.interface.closed, .asked callback system.interface.closed] := by
          rw [giving, hof, hpaused, hclosed, hcallback]
        rw [hgiving, hof]
        refine ⟨?_, rfl, rfl⟩
        simp [books, given, note, push]
      · rename_i hnone
        have hof : Receiver.of line system.interface.callback = .listeners := by
          unfold Receiver.of
          split
          · rename_i callback hterminated hcallback
            exact absurd hcallback (hnone callback hterminated)
          · rfl
        have hgiving : giving line system.interface.callback = [.delivered line system.interface.callback .listeners
            system.interface.paused system.interface.closed] := by
          rw [giving, hof, hpaused, hclosed]
        rw [hgiving, hof]
        exact ⟨rfl, rfl, rfl⟩

theorem Balanced.loop {system : System Callback} (h : Balanced 1 system) : Balanced 0 system.loop := by
  unfold Balanced loops at h ⊢
  rcases loop_cases system with ⟨-, hstack, hdispatching, -⟩ | ⟨line, lines, -, -, -, -, hstack, hdispatching⟩
  · have hnone : (system.stack.map Code.loops).sum = 0 := by split at h <;> omega
    rw [hstack, hdispatching, hnone]
    rfl
  · rw [hstack, hdispatching, List.map_cons, List.map_cons, List.sum_cons, List.sum_cons]
    have hreceives : (system.receives line (.of line system.interface.callback)).loops = 0 := by
      cases Receiver.of line system.interface.callback <;> rfl
    have hone : Code.loops (.loop : Code Callback) = 1 := rfl
    omega

/-- The flag is set with the loop, and nothing else touches either. -/
theorem Balanced.perform {system : System Callback} {code : Code Callback} (h : Balanced code.loops system)
    (now : Int) : Balanced 0 (system.perform now code) := by
  have hidle : code.busy = false → code.loops = 0 → Balanced 0 (system.perform now code) := by
    intro hbusy hloops
    obtain ⟨-, hdispatching, hsame⟩ := perform_idle now system hbusy
    unfold Balanced at h ⊢
    rw [hloops] at h
    rw [hsame, hdispatching]
    exact h
  cases code with
  | closing =>
    show 0 + system.loops + 0 = _
    rw [Nat.zero_add]
    exact h
  | feed text =>
    dsimp only [System.perform, System.feed]
    split
    · exact h
    · exact Balanced.raise h
  | finish => exact h
  | dispatch =>
    dsimp only [System.perform]
    split
    · exact h
    · rename_i hstill
      have hoff : system.interface.dispatching = false := by
        cases hflag : system.interface.dispatching with
        | false => rfl
        | true => simp [hflag] at hstill
      unfold Balanced at h
      rw [hoff] at h
      show 1 + system.loops + 0 = 1
      have hnone : system.loops + 0 = 0 := h
      omega
  | loop => exact h.loop
  | _ => exact hidle rfl rfl

section
variable {size : Nat} {unique : Bool} {system : System Callback}

theorem Remembers.books {after : System Callback} (h : Remembers size unique system.interface)
    (hbooks : after.books = system.books) : Remembers size unique after.interface := by
  unfold System.books at hbooks
  simp only [Prod.mk.injEq] at hbooks
  obtain ⟨⟨-, hhistory, hsize, hunique, -⟩, -⟩ := hbooks
  constructor
  · rw [hsize, hunique]
    exact h.options
  · rw [hhistory]
    exact h.length
  · rw [hhistory]
    exact h.nodup

theorem Remembers.perform (h : Remembers size unique system.interface) (now : Int) (code : Code Callback) :
    Remembers size unique (system.perform now code).interface := by
  cases hbusy : code.busy with
  | false => exact h.books (perform_idle now system hbusy).books
  | true =>
    cases code with
    | closing => exact ⟨h.options, h.length, h.nodup⟩
    | feed text =>
      dsimp only [System.perform, System.feed]
      split
      · exact ⟨h.options, h.length, h.nodup⟩
      · refine Remembers.books ?_ (books_raise _)
        exact ⟨h.options, h.length, h.nodup⟩
    | finish => exact ⟨h.options, h.length, h.nodup⟩
    | dispatch =>
      dsimp only [System.perform]
      split
      · exact h
      · exact ⟨h.options, h.length, h.nodup⟩
    | loop =>
      show Remembers size unique system.loop.interface
      rcases loop_cases system with ⟨hbooks, -⟩ | ⟨line, lines, -, -, -, hbooks, -⟩
      · exact h.books hbooks
      · refine Remembers.books ?_ hbooks
        have hlines : Remembers size unique { system.interface with lines } := ⟨h.options, h.length, h.nodup⟩
        exact hlines.remember line.text
    | _ => cases hbusy

end

/-! ## Accounts -/

theorem Accounts.books {system after : System Callback} (h : Accounts system) (hbooks : after.books = system.books) :
    Accounts after := by
  unfold System.books at hbooks
  simp only [Prod.mk.injEq] at hbooks
  obtain ⟨⟨hlines, -, -, -, hclosed⟩, hcompleted, hrest, hfeeds, hrefused, hgiven⟩ := hbooks
  constructor
  · rw [hgiven]
    exact h.fair
  · rw [hgiven]
    exact h.asked
  · unfold delivered
    rw [hgiven, hlines, hclosed, hcompleted, hrest]
    exact h.lines
  · rw [hlines, hclosed, hrest]
    exact h.rest
  · unfold fed
    rw [hlines, hclosed, hcompleted, hrest, hfeeds, hrefused]
    exact h.text

theorem giving_cases (line : InputLine) (pending : Option Callback) :
    (giving line pending).filter Entry.gives = giving line pending ∧
      (∀ entry ∈ giving line pending, entry.fair) ∧
      (giving line pending).filterMap Entry.asks = (giving line pending).filterMap Entry.answers ∧
      (giving line pending).filterMap Entry.line = [line] := by
  unfold giving
  cases hof : Receiver.of line pending with
  | question callback =>
    refine ⟨rfl, fun entry hentry => ?_, rfl, rfl⟩
    rcases List.mem_cons.mp hentry with rfl | hentry
    · exact ⟨rfl, rfl, hof.symm⟩
    · rw [List.mem_singleton.mp hentry]
      trivial
  | listeners =>
    refine ⟨rfl, fun entry hentry => ?_, rfl, rfl⟩
    rw [List.mem_singleton.mp hentry]
    exact ⟨rfl, rfl, hof.symm⟩

/-- The next line is given away. -/
theorem Accounts.gives {system after : System Callback} (h : Accounts system) {line : InputLine} {lines : LineBuffer}
    (pending : Option Callback) (htake : LineBuffer.take system.interface.lines = .ok (some line) lines)
    (hlines : after.interface.lines = lines) (hclosed : after.interface.closed = system.interface.closed)
    (hgiven : after.given = system.given ++ giving line pending)
    (hsame : (after.completed, after.rest, after.feeds, after.refused) =
      (system.completed, system.rest, system.feeds, system.refused)) : Accounts after := by
  simp only [Prod.mk.injEq] at hsame
  obtain ⟨hcompleted, hrest, hfeeds, hrefused⟩ := hsame
  obtain ⟨-, hfair, hasked, hline⟩ := giving_cases line pending
  obtain ⟨hleft, hfinished, hcr, hcurrent⟩ : system.interface.lines.left = line :: lines.left ∧
      lines.finished = system.interface.lines.finished ∧
      lines.carriageReturn = system.interface.lines.carriageReturn ∧
      (system.interface.lines.finished = false → lines.current = system.interface.lines.current) := by
    rcases LineBuffer.take_cases system.interface.lines with ⟨-, hnone⟩ | ⟨line', lines', hsome, hrest⟩
    · rw [hnone] at htake
      cases htake
    · rw [hsome] at htake
      cases htake
      exact hrest
  constructor
  · intro entry hentry
    rw [hgiven] at hentry
    rcases List.mem_append.mp hentry with hentry | hentry
    · exact h.fair entry hentry
    · exact hfair entry hentry
  · rw [hgiven, List.filterMap_append, List.filterMap_append, h.asked, hasked]
  · intro hopen
    rw [hclosed] at hopen
    rw [hlines, hfinished, hcompleted, hrest, ← h.lines hopen, hleft]
    unfold delivered
    rw [hgiven, List.filterMap_append, hline, List.append_assoc]
    rfl
  · intro hopen hgoing
    rw [hclosed] at hopen
    rw [hlines, hfinished] at hgoing
    rw [hlines, hrest, hcurrent hgoing]
    exact h.rest hopen hgoing
  · intro hopen hkept hprompt
    rw [hclosed] at hopen
    rw [hrefused] at hkept
    rw [hfeeds] at hprompt
    obtain ⟨hsound, carriageReturn, hfeed, hsame⟩ := h.text hopen hkept hprompt
    unfold fed at hfeed ⊢
    rw [hlines, hfeeds, hcompleted, hrest, hfinished, hcr]
    exact ⟨hsound.take htake, carriageReturn, hfeed, hsame⟩

theorem Accounts.loop {system : System Callback} (h : Accounts system) : Accounts system.loop := by
  rcases loop_cases system with ⟨hbooks, -⟩ | ⟨line, lines, -, hclosed, htake, hbooks, -⟩
  · exact h.books hbooks
  · obtain ⟨history, hremember⟩ := remember_cases { system.interface with lines } line.text
    refine Accounts.books ?_ hbooks
    rw [hremember]
    refine h.gives system.interface.callback htake rfl rfl ?_ rfl
    show (system.record ++ giving line system.interface.callback).filter Entry.gives = _
    rw [List.filter_append, (giving_cases line system.interface.callback).1]
    rfl

/-- While the input goes on, the lines that have ended are those given away and those held. -/
theorem Accounts.split {system : System Callback} (h : Accounts system) (hopen : system.interface.closed = false)
    (hgoing : system.interface.lines.finished = false) :
    ∃ taken, system.completed = taken ++ system.interface.lines.complete ∧
      system.delivered = taken.map (⟨·, true⟩) := by
  have hlines := h.lines hopen
  unfold LineBuffer.left LineBuffer.inputLines at hlines
  rw [hgoing, if_neg fun hrest => Bool.noConfusion hrest.1, if_neg fun hrest => Bool.noConfusion hrest.1,
    List.append_nil, List.append_nil] at hlines
  obtain ⟨taken, held, hcompleted, htaken, hheld⟩ := List.map_eq_append_iff.mp hlines.symm
  have hinj : Function.Injective fun line : Bytes => (⟨line, true⟩ : InputLine) := by
    intro line other hsame
    exact congrArg InputLine.text hsame
  rw [List.map_injective_iff.mpr hinj hheld] at hcompleted
  exact ⟨taken, hcompleted, htaken.symm⟩

theorem fed_feed {system after : System Callback} {text : Bytes} {now : Int}
    (h : after.feeds = system.feeds ++ [(text, now)]) : after.fed = system.fed ++ text := by
  unfold fed
  rw [h, List.flatMap_append, List.flatMap_singleton]

/-- What a feed appends to the lines that are held. -/
theorem Accounts.feeds {system : System Callback} (h : Accounts system) (text : Bytes) (now : Int)
    {lines : LineBuffer} (houtcome : finalState (LineBuffer.feed text now system.interface.lines) = lines) :
    Accounts { system with
      interface.lines := lines,
      completed := system.completed ++ lines.complete.drop system.interface.lines.complete.length,
      rest := if system.interface.lines.finished then system.rest else lines.current,
      feeds := system.feeds ++ [(text, now)],
      refused := system.refused || !returned (LineBuffer.feed text now system.interface.lines) } := by
  cases hfinished : system.interface.lines.finished with
  | true =>
    rw [LineBuffer.feed_finished hfinished] at houtcome ⊢
    obtain rfl : system.interface.lines = lines := houtcome
    refine ⟨h.fair, h.asked, fun hopen => ?_, fun _ hgoing => ?_, fun _ hkept => ?_⟩
    · rw [List.drop_length, List.append_nil, if_pos rfl]
      exact h.lines hopen
    · rw [hfinished] at hgoing
      cases hgoing
    · rw [Bool.or_eq_false_iff] at hkept
      cases hkept.2
  | false =>
    have hfeed : LineBuffer.Grows system.interface.lines _ := LineBuffer.feed_grows text now
    rw [houtcome] at hfeed
    obtain ⟨hgrows, hgoing⟩ := hfeed
    rw [hfinished] at hgoing
    obtain ⟨more, hmore⟩ := hgrows
    have hdrop : lines.complete.drop system.interface.lines.complete.length = more := by
      rw [← hmore, List.drop_left]
    rw [hdrop, if_neg Bool.false_ne_true]
    refine ⟨h.fair, h.asked, fun hopen => ?_, fun _ _ => rfl, fun hopen hkept hprompt => ?_⟩
    · obtain ⟨taken, hcompleted, hdelivered⟩ := h.split hopen hfinished
      show system.delivered ++ lines.left = LineBuffer.inputLines (system.completed ++ more) lines.current lines.finished
      unfold LineBuffer.left LineBuffer.inputLines
      rw [hdelivered, hcompleted, ← hmore]
      simp only [List.map_append, List.append_assoc]
    · obtain ⟨hkept, hreturned⟩ := Bool.or_eq_false_iff.mp hkept
      have hrun : LineBuffer.feed text now system.interface.lines = .ok ⟨⟩ lines := by
        cases hout : LineBuffer.feed text now system.interface.lines with
        | error error after =>
          rw [hout] at hreturned
          cases hreturned
        | ok value after =>
          rw [hout] at houtcome
          cases houtcome
          rfl
      obtain ⟨hsound, carriageReturn, hfed, hcr⟩ := h.text hopen hkept hprompt.before
      obtain ⟨-, hsound', hfound⟩ := LineBuffer.found_feed hsound hprompt.follows hrun
      obtain ⟨taken, hcompleted, -⟩ := h.split hopen hfinished
      refine ⟨hsound', lines.carriageReturn.isSome, ?_, fun _ => rfl⟩
      -- the lines given away stand in front
      have hstate : Lines.feed {} system.fed = system.interface.lines.found.behind taken := by
        rw [hfed, hcompleted, hcr hfinished, ← h.rest hopen hfinished]
        rfl
      rw [fed_feed rfl, Lines.feed_append, hstate, Lines.feed_behind, ← hfound, hcompleted, List.append_assoc, hmore]
      rfl

/-- The input ends: what stands behind the last line is a line, too. -/
theorem Accounts.finishes {system : System Callback} (h : Accounts system) :
    Accounts { system with interface.lines := { system.interface.lines with finished := true } } := by
  refine ⟨h.fair, h.asked, fun hopen => ?_, fun _ hgoing => Bool.noConfusion hgoing, fun hopen hkept hprompt => ?_⟩
  · cases hfinished : system.interface.lines.finished with
    | true =>
      have hlines := h.lines hopen
      unfold LineBuffer.left at hlines
      rw [hfinished] at hlines
      exact hlines
    | false =>
      obtain ⟨taken, hcompleted, hdelivered⟩ := h.split hopen hfinished
      show system.delivered ++ LineBuffer.inputLines system.interface.lines.complete
        system.interface.lines.current true = LineBuffer.inputLines system.completed system.rest true
      unfold LineBuffer.inputLines
      rw [hdelivered, hcompleted, h.rest hopen hfinished, List.map_append, List.append_assoc]
  · obtain ⟨hsound, carriageReturn, hfed, -⟩ := h.text hopen hkept hprompt
    exact ⟨⟨hsound.counted, hsound.within, hsound.time⟩, carriageReturn, hfed,
      fun hgoing => Bool.noConfusion hgoing⟩

theorem Accounts.perform {system : System Callback} (h : Accounts system) (now : Int) (code : Code Callback) :
    Accounts (system.perform now code) := by
  cases hbusy : code.busy with
  | false => exact h.books (perform_idle now system hbusy).books
  | true =>
    cases code with
    | closing emitted =>
      have hgiven : (system.closing emitted).given = system.given := given_note rfl _
      refine ⟨?_, ?_, fun hopen => Bool.noConfusion hopen, fun hopen => Bool.noConfusion hopen,
        fun hopen => Bool.noConfusion hopen⟩
      · show ∀ entry ∈ (system.closing emitted).given, entry.fair
        rw [hgiven]
        exact h.fair
      · show (system.closing emitted).given.filterMap Entry.asks =
          (system.closing emitted).given.filterMap Entry.answers
        rw [hgiven]
        exact h.asked
    | feed text =>
      have hfed := h.feeds text now rfl
      dsimp only [System.perform, System.feed]
      split
      · exact hfed
      · exact hfed.books (books_raise _)
    | finish => exact h.finishes
    | dispatch =>
      dsimp only [System.perform]
      split
      · exact h
      · exact h.books rfl
    | loop => exact h.loop
    | _ => cases hbusy

/-! ## Runs -/

structure Orderly (size : Nat) (unique : Bool) (system : System Callback) : Prop where
  balanced : Balanced 0 system
  remembers : Remembers size unique system.interface
  accounts : Accounts system

section
variable (unpaired : List UInt16 → Error) (same : Callback → Callback → Bool) {size : Nat} {unique : Bool}
  {system : System Callback}

theorem Orderly.idle {after : System Callback} (h : Orderly size unique system) (hidle : Idle system after) :
    Orderly size unique after where
  balanced := by
    have hbalanced := h.balanced
    unfold Balanced at hbalanced ⊢
    rw [hidle.loops, hidle.dispatching]
    exact hbalanced
  remembers := h.remembers.books hidle.books
  accounts := h.accounts.books hidle.books

/-- The code outside ends; below it is what called it. -/
theorem Orderly.leaves (h : Orderly size unique system)
    (hstack : system.stack = [] ∨ ∃ stack, system.stack = .outside :: stack) :
    Orderly size unique { system with stack := system.stack.tail } := by
  refine h.idle ⟨rfl, rfl, ?_⟩
  unfold loops
  rcases hstack with hstack | ⟨stack, hstack⟩
  · rw [hstack]
    rfl
  · rw [hstack]
    exact (Nat.zero_add _).symm

theorem Orderly.step (h : Orderly size unique system) (action : Action Callback) :
    Orderly size unique (system.step unpaired same action) := by
  rcases step_cases unpaired same system action with ⟨hstack, hact⟩ | ⟨now, code, stack, hstack, -, hgo⟩ | hstill
  · have hleaves := h.leaves hstack
    rw [hact]
    cases action with
    | «return» => exact hleaves
    | raise =>
      exact ⟨hleaves.balanced.raise, hleaves.remembers.books (books_raise _), hleaves.accounts.books (books_raise _)⟩
    | _ => exact h.idle (act_idle unpaired same system (fun hsame => by cases hsame) fun hsame => by cases hsame)
  · have hpopped : Balanced code.loops { system with stack } := by
      have hbalanced := h.balanced
      unfold Balanced loops at hbalanced ⊢
      rw [hstack, List.map_cons, List.sum_cons] at hbalanced
      show (stack.map Code.loops).sum + code.loops = if system.interface.dispatching then 1 else 0
      omega
    have hremembers : Remembers size unique ({ system with stack } : System Callback).interface := h.remembers
    have haccounts : Accounts { system with stack } := h.accounts.books rfl
    rw [hgo]
    exact ⟨hpopped.perform now, hremembers.perform now code, haccounts.perform now code⟩
  · rw [hstill]
    exact h

theorem Orderly.new {options : ReadLineOptions} {start : System Callback} (hstart : System.new options = .ok start) :
    ∃ size, options.checkedHistorySize = .ok size ∧
      Orderly size (options.removeHistoryDuplicates.getD false) start := by
  unfold System.new at hstart
  cases hsize : options.checkedHistorySize with
  | error error =>
    rw [hsize] at hstart
    cases hstart
  | ok historySize =>
    rw [hsize] at hstart
    cases hstart
    refine ⟨historySize, rfl, rfl, ⟨⟨rfl, rfl⟩, Nat.zero_le _, fun _ => List.nodup_nil⟩, ?_⟩
    refine ⟨fun entry hentry => absurd hentry List.not_mem_nil, rfl, fun _ => rfl, fun _ _ => rfl, fun _ _ _ => ?_⟩
    refine ⟨⟨rfl, ⟨Nat.zero_le _, Nat.zero_le _, fun line hline => absurd hline List.not_mem_nil, Nat.zero_le _⟩,
      fun time htime => ?_⟩, false, rfl, fun _ => rfl⟩
    cases htime

/-- In an open interface that is not paused, a loop gives the next line away. -/
theorem delivers {stack : List (Code Callback)} (hstack : system.stack = .loop :: stack)
    (hpaused : system.interface.paused = false) (hclosed : system.interface.closed = false) {line : InputLine}
    {lines : List InputLine} (hleft : system.interface.lines.left = line :: lines) (now : Int) :
    let after := system.step unpaired same (.go now)
    after.delivered = system.delivered ++ [line] ∧ after.interface.lines.left = lines ∧
      after.stack = system.receives line (.of line system.interface.callback) :: .loop :: stack := by
  have hgo : system.step unpaired same (.go now) = { system with stack }.loop := by
    unfold System.step
    rw [hstack]
    rfl
  rw [hgo]
  rcases loop_cases { system with stack } with ⟨-, -, -, hnone⟩ | ⟨line', lines', -, -, htake, hbooks, hafter, -⟩
  · have hempty : system.interface.lines.left = [] := hnone hpaused hclosed
    rw [hempty] at hleft
    cases hleft
  · have htaken : system.interface.lines.left = line' :: lines'.left := by
      rcases LineBuffer.take_cases system.interface.lines with ⟨-, hrun⟩ | ⟨other, others, hrun, hothers, -⟩
      · rw [show LineBuffer.take system.interface.lines = _ from hrun] at htake
        cases htake
      · rw [show LineBuffer.take system.interface.lines = _ from hrun] at htake
        cases htake
        exact hothers
    rw [htaken] at hleft
    cases hleft
    unfold books at hbooks
    simp only [Prod.mk.injEq] at hbooks
    obtain ⟨⟨hlines, -⟩, -, -, -, -, hgiven⟩ := hbooks
    refine ⟨?_, ?_, hafter⟩
    · have hfilter : (system.record ++ giving line system.interface.callback).filter Entry.gives =
          system.given ++ giving line system.interface.callback := by
        rw [List.filter_append, (giving_cases line system.interface.callback).1]
        rfl
      unfold delivered
      rw [hgiven]
      show ((system.record ++ giving line system.interface.callback).filter Entry.gives).filterMap Entry.line = _
      rw [hfilter, List.filterMap_append, (giving_cases line system.interface.callback).2.2.2]
    · obtain ⟨history, hremember⟩ := remember_cases { system.interface with lines := lines' } line.text
      rw [hlines]
      show (({ system.interface with lines := lines' } : Interface Callback).remember line.text).lines.left = _
      rw [hremember]

/-- A poll reaches the loop, where nothing else is going on. -/
theorem Orderly.polls (h : Orderly size unique system) (hstack : system.stack = [])
    (hpaused : system.interface.paused = false) (hclosed : system.interface.closed = false) (now : Int) :
    Lib.run (System.step unpaired same) system [.poll, .go now, .go now] =
      { system with interface.dispatching := true, stack := [.loop, .polled] } := by
  have hidle : system.interface.dispatching = false := by
    have hbalanced := h.balanced
    unfold Balanced loops at hbalanced
    rw [hstack] at hbalanced
    cases hflag : system.interface.dispatching with
    | false => rfl
    | true =>
      rw [hflag] at hbalanced
      cases hbalanced
  simp only [run_cons, run_nil, System.step, hstack, System.act, System.push, System.perform, List.append_nil,
    List.cons_append, List.nil_append, hpaused, hclosed, hidle, Bool.or_false, Bool.false_eq_true, if_false]

end

end System

/-- In every run, while the interface is open: the lines given away and those held are the lines of the input,
in order and once each; a line that has ended was for the question of that moment, any other for the listeners;
none was given away in a pause; and whoever raised, a poll gives the next line away. The history keeps to its
limit, and holds no line twice where duplicates are removed. -/
theorem lines_dispatched (unpaired : List UInt16 → Error) (same : Callback → Callback → Bool)
    {options : ReadLineOptions} {start : System Callback} (hstart : System.new options = .ok start)
    (actions : List (System.Action Callback)) :
    let system := Lib.run (System.step unpaired same) start actions
    (system.interface.closed = false → system.delivered ++ system.interface.lines.left =
        LineBuffer.inputLines system.completed system.rest system.interface.lines.finished ∧
      (system.refused = false → Prompt system.feeds → Split system.fed system.completed system.rest)) ∧
    (∀ entry ∈ system.given, entry.fair) ∧
    system.given.filterMap Entry.asks = system.given.filterMap Entry.answers ∧
    (∀ stack line lines now, system.stack = .loop :: stack → system.interface.paused = false →
      system.interface.closed = false → system.interface.lines.left = line :: lines →
      let after := system.step unpaired same (.go now)
      after.delivered = system.delivered ++ [line] ∧ after.interface.lines.left = lines ∧
        after.stack = system.receives line (.of line system.interface.callback) :: .loop :: stack) ∧
    (∀ line lines now, system.stack = [] → system.interface.paused = false → system.interface.closed = false →
      system.interface.lines.left = line :: lines →
      (Lib.run (System.step unpaired same) system [.poll, .go now, .go now, .go now]).delivered =
        system.delivered ++ [line]) ∧
    ∃ size, options.checkedHistorySize = .ok size ∧ system.interface.history.length ≤ size ∧
      (options.removeHistoryDuplicates = some true → system.interface.history.Nodup) := by
  intro system
  obtain ⟨size, hsize, hnew⟩ := System.Orderly.new hstart
  have horderly : System.Orderly size (options.removeHistoryDuplicates.getD false) system :=
    run_preserves (fun _ action h => h.step unpaired same action) hnew actions
  have haccounts := horderly.accounts
  refine ⟨fun hopen => ⟨haccounts.lines hopen, fun hkept hprompt => ?_⟩, haccounts.fair, haccounts.asked, ?_, ?_,
    size, hsize, horderly.remembers.length, fun hunique => ?_⟩
  · obtain ⟨-, carriageReturn, hfed, -⟩ := haccounts.text hopen hkept hprompt
    rw [Lines.split_iff, hfed]
    exact ⟨rfl, rfl⟩
  · intro stack line lines now hstack hpaused hclosed hleft
    exact System.delivers unpaired same hstack hpaused hclosed hleft now
  · intro line lines now hstack hpaused hclosed hleft
    have hpoll := horderly.polls unpaired same hstack hpaused hclosed now
    rw [show [System.Action.poll, .go now, .go now, .go now] = [.poll, .go now, .go now] ++ [.go now] from rfl,
      run_append, hpoll]
    have hlooping : ({ system with interface.dispatching := true, stack := [.loop, .polled] } : System Callback).stack =
        .loop :: [.polled] := rfl
    exact (System.delivers unpaired same hlooping hpaused hclosed hleft now).1
  · refine horderly.remembers.nodup ?_
    rw [hunique]
    rfl

/-- Two lines: a question takes the first one and raises, and a poll gives the second one to the listeners. -/
theorem lines_dispatched_raising :
    ∃ start : System Unit, System.new {} = .ok start ∧
      let system := Lib.run (System.step (fun _ => ⟨""⟩) fun _ _ => true) start [.question [] (), .go 0, .go 0, .go 0,
        .write [97, 10, 98, 10], .go 0, .go 0, .go 0, .go 0, .raise]
      system.delivered = [⟨[97], true⟩] ∧ system.delivered ++ system.interface.lines.left =
        LineBuffer.inputLines system.completed system.rest system.interface.lines.finished ∧
      (Lib.run (System.step (fun _ => ⟨""⟩) fun _ _ => true) system [.poll, .go 0, .go 0, .go 0]).delivered =
        system.delivered ++ [⟨[98], true⟩] := by
  refine ⟨_, rfl, ?_⟩
  obtain ⟨hlines, -, -, -, hpoll, -⟩ := lines_dispatched (fun _ => ⟨""⟩) (fun _ _ => true)
    (rfl : (System.new {} : Except Error (System Unit)) = .ok _) [.question [] (), .go 0, .go 0, .go 0,
      .write [97, 10, 98, 10], .go 0, .go 0, .go 0, .go 0, .raise]
  exact ⟨rfl, (hlines rfl).1, hpoll ⟨[98], true⟩ [] 0 rfl rfl rfl rfl⟩

end TsonicNode.Readline
