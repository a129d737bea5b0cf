import TsonicNode.Readline.Dispatch

/-!
# The lines of a stream of bytes

Where nobody writes to an interface and the input gives chunks of bytes, the
texts that are fed are the decoding of the chunks (`Intake`). Where nobody pauses
or closes it either, it closes once the last line is given away (`Unhurried`):
`_poll` closes at the end of the input whatever lines are held, so this needs that
no loop of `_dispatch` ends early.
-/

namespace TsonicNode.Readline

open TsonicNode.Lib TsonicNode.Internal
open TsonicNode.Stream (StreamChunk StreamDecoder)
open TsonicNode.Buffer (decoded)
open TsonicNode.Buffer.Encoder (asBytes asBytes_append)
open TsonicNode.Lib.Lines (Bytes Split)

variable {Callback : Type}

/-! ## What the interface takes in -/

/-- A text or the end of the input. -/
def Code.takesIn : Code Callback → Bool
  | .feed _ => true
  | .finish => true
  | _ => false

/-- Leads to the end of the interface, or to a pause. -/
def Code.closes : Code Callback → Bool
  | .pause => true
  | .paused => true
  | .close => true
  | .closing _ => true
  | _ => false

def Code.plain : Code Callback → Bool
  | .polled => false
  | code => !code.takesIn && !code.closes

namespace System

/-- Nothing of the interface's own is in progress. -/
def atRest (system : System Callback) : Bool :=
  match system.stack with
  | [] => true
  | .outside :: _ => true
  | _ => false

/-- The bytes that an action gives; after the end of the input a feed raises. -/
def takes (system : System Callback) : Action Callback → List UInt8
  | .data (.buffer bytes) =>
    if system.atRest && decide (.data ∈ system.subscriptions) && !system.interface.closed &&
      !system.interface.lines.finished then bytes
    else []
  | _ => []

section
variable (unpaired : List UInt16 → Error) (same : Callback → Callback → Bool)

/-- The chunks of a run. -/
def received (system : System Callback) : List (Action Callback) → List (List UInt8)
  | [] => []
  | action :: actions => system.takes action :: received (system.step unpaired same action) actions

end

/-- The text comes from the input, in bytes. -/
def Action.bytewise : Action Callback → Bool
  | .write _ => false
  | .data (.text _) => false
  | _ => true

/-- Nobody pauses or closes the interface; its input closes after the end. -/
def Steady (system : System Callback) : Action Callback → Prop
  | .pause => False
  | .close => False
  | .inputClose => system.interface.lines.finished = true
  | _ => True

/-! ## What a piece puts on the stack -/

structure Pushes (free : Prop) (system after : System Callback) : Prop where
  stack : ∃ codes, after.stack = codes ++ system.stack ∧
    ∀ code ∈ codes, code.plain = true ∨ (free ∧ code.closes = true)
  decoder : after.interface.decoder = system.interface.decoder
  paused : after.interface.paused = true → system.interface.paused = true ∨ free

section
variable {free : Prop} {system after : System Callback}

theorem Pushes.refl (free : Prop) (system : System Callback) : Pushes free system system :=
  ⟨⟨[], rfl, fun _ hcode => absurd hcode List.not_mem_nil⟩, rfl, .inl⟩

theorem Pushes.calls (codes : List (Code Callback)) (hstack : after.stack = codes ++ system.stack)
    (hdecoder : after.interface.decoder = system.interface.decoder)
    (hpaused : after.interface.paused = system.interface.paused) (hcodes : codes.all Code.plain = true) :
    Pushes free system after where
  stack := ⟨codes, hstack, fun code hcode => .inl (List.all_eq_true.mp hcodes code hcode)⟩
  decoder := hdecoder
  paused := fun h => .inl (hpaused ▸ h)

theorem Pushes.ends (codes : List (Code Callback)) (hfree : free) (hstack : after.stack = codes ++ system.stack)
    (hdecoder : after.interface.decoder = system.interface.decoder)
    (hcodes : codes.all (fun code => code.plain || code.closes) = true) : Pushes free system after where
  stack := by
    refine ⟨codes, hstack, fun code hcode => ?_⟩
    rcases Bool.or_eq_true_iff.mp (List.all_eq_true.mp hcodes code hcode) with h | h
    · exact .inl h
    · exact .inr ⟨hfree, h⟩
  decoder := hdecoder
  paused := fun _ => .inr hfree

end

/-- The pieces but those that take something in, poll or give lines away. -/
theorem perform_pushes (now : Int) (system : System Callback) {code : Code Callback} (htakes : code.takesIn = false)
    (hpoll : code ≠ .poll) (hloop : code ≠ .loop) :
    Pushes (code.closes = true ∨ code = .polled ∧ system.interface.lines.finished = true) system
      (system.perform now code) := by
  cases code with
  | outside => exact .calls [.outside] rfl rfl rfl rfl
  | output text =>
    dsimp only [System.perform]
    split
    · exact .calls [.outside] rfl rfl rfl rfl
    · exact .refl _ _
  | outputPrompt => exact .calls [.output system.interface.prompt] rfl rfl rfl rfl
  | ask query callback => exact .calls [.resume] rfl rfl rfl rfl
  | pause =>
    dsimp only [System.perform]
    split
    · exact .refl _ _
    · exact .ends [.outside, .paused] (.inl rfl) rfl rfl rfl
  | paused => exact .ends [.emit .pause .nothing _] (.inl rfl) rfl rfl rfl
  | resume =>
    dsimp only [System.perform]
    split
    · exact .refl _ _
    · exact .calls [.outside, .resumed] rfl rfl rfl rfl
  | resumed =>
    refine ⟨⟨[.emit .resume .nothing _], rfl, fun code hcode => ?_⟩, rfl, fun hpaused => Bool.noConfusion hpaused⟩
    rw [List.mem_singleton.mp hcode]
    exact .inl rfl
  | close =>
    dsimp only [System.perform]
    split
    · exact .refl _ _
    · exact .ends [.pause, .closing _] (.inl rfl) rfl rfl rfl
  | closing emitted => exact .ends [.emit .close .nothing _] (.inl rfl) rfl rfl rfl
  | feed text => cases htakes
  | finish => cases htakes
  | dispatch =>
    dsimp only [System.perform]
    split
    · exact .refl _ _
    · exact .calls [.loop] rfl rfl rfl rfl
  | loop => exact absurd rfl hloop
  | poll => exact absurd rfl hpoll
  | polled =>
    dsimp only [System.perform]
    split
    · rename_i hfinished
      exact .ends [.close] (.inr ⟨rfl, hfinished⟩) rfl rfl rfl
    · exact .refl _ _
  | emit event arguments rest =>
    dsimp only [System.perform, System.emit]
    split
    · exact .calls [] rfl rfl rfl rfl
    · rename_i listener rest' _
      exact .calls [.outside, .emit event arguments rest'] rfl rfl rfl rfl

section
variable (unpaired : List UInt16 → Error) (same : Callback → Callback → Bool)

theorem act_pushes (system : System Callback) {action : Action Callback} (hreturn : action ≠ .return)
    (hraise : action ≠ .raise) (hwrite : action.bytewise = true) (hdata : ∀ value, action ≠ .data value)
    (hend : action ≠ .inputEnd) : Pushes (¬ Steady system action) system (system.act unpaired same action) := by
  cases action with
  | question query callback =>
    dsimp only [System.act]
    split
    · exact .refl _ _
    · split
      · exact .calls [.output _, .resume] rfl rfl rfl rfl
      · exact .calls [.output _, .ask query callback] rfl rfl rfl rfl
  | write text => cases hwrite
  | prompt =>
    dsimp only [System.act]
    split
    · exact .refl _ _
    · exact .calls [.resume, .outputPrompt] rfl rfl rfl rfl
  | setPrompt value => exact .calls [] rfl rfl rfl rfl
  | pause => exact .ends [.pause] (fun h => h) rfl rfl rfl
  | resume => exact .calls [.resume] rfl rfl rfl rfl
  | close => exact .ends [.close] (fun h => h) rfl rfl rfl
  | on event callback once =>
    dsimp only [System.act]
    split
    · exact .calls [] rfl rfl rfl rfl
    · exact .refl _ _
  | off event callback => exact .calls [] rfl rfl rfl rfl
  | data value => exact absurd rfl (hdata value)
  | inputEnd => exact absurd rfl hend
  | inputClose =>
    dsimp only [System.act]
    split
    · exact .refl _ _
    · split
      · exact .calls [] rfl rfl rfl rfl
      · rename_i hgoing
        exact .ends [.close] hgoing rfl rfl rfl
  | inputError error =>
    dsimp only [System.act]
    split
    · exact .refl _ _
    · split
      · exact .refl _ _
      · exact .calls [.emit .errors (.error error) _] rfl rfl rfl rfl
  | poll => exact .calls [.poll] rfl rfl rfl rfl
  | «return» => exact absurd rfl hreturn
  | raise => exact absurd rfl hraise
  | go now => exact .refl _ _

end

/-! ## Intake -/

/-- The decoding of what was taken in is the text, whatever follows, with what the decoder holds back. -/
def Decodes (input text : Bytes) (decoder : StreamDecoder) : Prop :=
  decoder.name = .utf8 ∧ ∃ front, asBytes front = text ∧
    ∀ tail, lossy (input ++ tail) = front ++ lossy (decoder.pending ++ tail)

/-- What was fed, and what waits at the top of the stack, is the decoding of what was taken in. -/
inductive Intake (input : Bytes) (system : System Callback) : List (Code Callback) → Prop
  | idle {stack : List (Code Callback)} : (∀ code ∈ stack, code.takesIn = false) →
      (system.interface.closed = false → system.refused = false →
        (system.interface.lines.finished = false → Decodes input system.fed system.interface.decoder) ∧
        (system.interface.lines.finished = true → asBytes (lossy input) = system.fed)) → Intake input system stack
  | text {stack : List (Code Callback)} {text : Bytes} : (∀ code ∈ stack, code.takesIn = false) →
      (system.interface.closed = false → system.refused = false → system.interface.lines.finished = false →
        Decodes input (system.fed ++ text) system.interface.decoder) → Intake input system (.feed text :: stack)
  | last {stack : List (Code Callback)} {text : Bytes} : (∀ code ∈ stack, code.takesIn = false) →
      (system.interface.closed = false → system.refused = false → system.interface.lines.finished = false →
        asBytes (lossy input) = system.fed ++ text) → Intake input system (.feed text :: .finish :: stack)
  | finish {stack : List (Code Callback)} : (∀ code ∈ stack, code.takesIn = false) →
      (system.interface.closed = false → system.refused = false → asBytes (lossy input) = system.fed) →
      Intake input system (.finish :: stack)

section
variable {input : Bytes} {system after : System Callback} {stack : List (Code Callback)}

/-- Where outside code runs, nothing waits. -/
theorem Intake.rests (h : Intake input system system.stack)
    (hstack : system.stack = [] ∨ ∃ stack, system.stack = .outside :: stack) :
    (∀ code ∈ system.stack, code.takesIn = false) ∧
      (system.interface.closed = false → system.refused = false →
        (system.interface.lines.finished = false → Decodes input system.fed system.interface.decoder) ∧
        (system.interface.lines.finished = true → asBytes (lossy input) = system.fed)) := by
  generalize hwhole : system.stack = whole at h
  cases h with
  | idle hnone htext => exact ⟨hnone, htext⟩
  | text | last | finish =>
    rw [hwhole] at hstack
    rcases hstack with hstack | ⟨stack, hstack⟩ <;> cases hstack

theorem books_fields (h : after.books = system.books) :
    after.interface.lines = system.interface.lines ∧ after.interface.closed = system.interface.closed ∧
      after.fed = system.fed ∧ after.refused = system.refused := by
  unfold books at h
  simp only [Prod.mk.injEq] at h
  obtain ⟨⟨hlines, -, -, -, hclosed⟩, -, -, hfeeds, hrefused, -⟩ := h
  exact ⟨hlines, hclosed, congrArg (List.flatMap Prod.fst) hfeeds, hrefused⟩

/-- A piece that takes nothing in. -/
theorem Intake.goes (hnone : ∀ code ∈ stack, code.takesIn = false)
    (htext : system.interface.closed = false → system.refused = false →
      (system.interface.lines.finished = false → Decodes input system.fed system.interface.decoder) ∧
      (system.interface.lines.finished = true → asBytes (lossy input) = system.fed))
    (hfinished : after.interface.lines.finished = system.interface.lines.finished)
    (hclosed : after.interface.closed = false → system.interface.closed = false) (hfed : after.fed = system.fed)
    (hrefused : after.refused = system.refused) (hdecoder : after.interface.decoder = system.interface.decoder)
    (hstack : ∃ codes, after.stack = codes ++ stack ∧ ∀ code ∈ codes, code.takesIn = false) :
    Intake input after after.stack := by
  obtain ⟨codes, hstack, hcodes⟩ := hstack
  refine .idle (fun code hcode => ?_) fun hopen hkept => ?_
  · rw [hstack] at hcode
    exact (List.mem_append.mp hcode).elim (hcodes code) (hnone code)
  · rw [hrefused] at hkept
    rw [hfinished, hfed, hdecoder]
    exact htext (hclosed hopen) hkept

end

section
variable {input : Bytes} {system : System Callback}

theorem takesIn_of_plain {code : Code Callback} {free : Prop} (h : code.plain = true ∨ (free ∧ code.closes = true)) :
    code.takesIn = false := by
  cases code with
  | feed text => rcases h with h | h <;> simp [Code.plain, Code.takesIn, Code.closes] at h
  | finish => rcases h with h | h <;> simp [Code.plain, Code.takesIn, Code.closes] at h
  | _ => rfl

/-- An error leaves what called outside. -/
theorem unwind_rests (interface : Interface Callback) (stack : List (Code Callback)) :
    (unwind interface stack).2 = [] ∨ ∃ rest, (unwind interface stack).2 = .outside :: rest := by
  induction stack generalizing interface with
  | nil => exact .inl rfl
  | cons code stack ih =>
    cases code with
    | outside => exact .inr ⟨stack, rfl⟩
    | loop => exact ih { interface with dispatching := false }
    | _ => exact ih interface

/-- A feed hands the whole text over, or raises; it raises behind the end. -/
theorem feed_cases (text : Bytes) (now : Int) (system : System Callback) :
    (system.interface.lines.finished = false ∧ (system.feed text now).stack = system.stack ∧
      (system.feed text now).fed = system.fed ++ text ∧ (system.feed text now).refused = system.refused ∧
      (system.feed text now).interface.closed = system.interface.closed ∧
      (system.feed text now).interface.lines.finished = false ∧
      (system.feed text now).interface.decoder = system.interface.decoder) ∨
    ((system.feed text now).refused = true ∧ (system.feed text now).stack <:+ system.stack ∧
      ((system.feed text now).stack = [] ∨ ∃ rest, (system.feed text now).stack = .outside :: rest)) := by
  have hgrows : LineBuffer.Grows system.interface.lines _ := LineBuffer.feed_grows text now
  unfold System.feed
  dsimp only
  split
  · rename_i hreturned
    left
    have hgoing : system.interface.lines.finished = false := by
      cases hfinished : system.interface.lines.finished with
      | false => rfl
      | true =>
        rw [LineBuffer.feed_finished hfinished] at hreturned
        cases hreturned
    refine ⟨hgoing, rfl, fed_feed rfl, ?_, rfl, hgrows.2.trans hgoing, rfl⟩
    show (system.refused || !returned (LineBuffer.feed text now system.interface.lines)) = _
    rw [hreturned]
    exact Bool.or_false _
  · rename_i hraised
    right
    refine ⟨?_, (unwind_cases _ _).choose_spec.2, unwind_rests _ _⟩
    show (system.refused || !returned (LineBuffer.feed text now system.interface.lines)) = true
    rw [Bool.eq_false_of_not_eq_true hraised]
    exact Bool.or_true _

/-- A poll goes on only where nothing stands in its way. -/
theorem perform_poll (now : Int) (system : System Callback) :
    (system.perform now .poll = system ∧ (system.interface.closed = true ∨ system.interface.paused = true ∨
        system.interface.dispatching = true)) ∨
      (system.perform now .poll = system.push [.dispatch, .polled] ∧ system.interface.closed = false ∧
        system.interface.paused = false ∧ system.interface.dispatching = false) := by
  dsimp only [System.perform]
  split
  · rename_i hstill
    simp only [Bool.or_eq_true, or_assoc] at hstill
    exact .inl ⟨rfl, hstill⟩
  · rename_i hgoes
    simp only [Bool.or_eq_true, not_or, Bool.not_eq_true, and_assoc] at hgoes
    exact .inr ⟨rfl, hgoes⟩

theorem perform_dispatch (now : Int) (system : System Callback) :
    (system.perform now .dispatch = system ∧ (system.interface.dispatching = true ∨ system.interface.paused = true ∨
        system.interface.closed = true)) ∨
      (system.perform now .dispatch = { system with interface.dispatching := true }.push [.loop] ∧
        system.interface.dispatching = false ∧ system.interface.paused = false ∧ system.interface.closed = false) := by
  dsimp only [System.perform]
  split
  · rename_i hstill
    simp only [Bool.or_eq_true, or_assoc] at hstill
    exact .inl ⟨rfl, hstill⟩
  · rename_i hgoes
    simp only [Bool.or_eq_true, not_or, Bool.not_eq_true, and_assoc] at hgoes
    exact .inr ⟨rfl, hgoes⟩

/-- A loop leaves the decoder and the pause alone. -/
theorem loop_aside (system : System Callback) :
    system.loop.interface.decoder = system.interface.decoder ∧
      system.loop.interface.paused = system.interface.paused := by
  unfold System.loop
  dsimp only
  split
  · exact ⟨rfl, rfl⟩
  · split
    · rename_i lines _
      obtain ⟨dispatching, stack, -, hraise⟩ := raise_cases ({ system with interface.lines := lines }.push [.loop])
      rw [hraise]
      exact ⟨rfl, rfl⟩
    · exact ⟨rfl, rfl⟩
    · rename_i line lines _
      obtain ⟨history, hremember⟩ := remember_cases { system.interface with lines } line.text
      rw [hremember]
      dsimp only
      split <;> exact ⟨rfl, rfl⟩

/-- A loop goes on with the same input, whatever it gives away. -/
theorem loop_input (system : System Callback) :
    system.loop.interface.lines.finished = system.interface.lines.finished ∧
      system.loop.interface.closed = system.interface.closed ∧ system.loop.fed = system.fed ∧
      system.loop.refused = system.refused ∧
      ∃ codes, system.loop.stack = codes ++ system.stack ∧
        (codes = [] ∨ ∃ code, code.plain = true ∧ codes = [code, .loop]) := by
  rcases loop_cases system with ⟨hbooks, hstack, -⟩ | ⟨line, lines, -, -, htake, hbooks, hstack, -⟩
  · obtain ⟨hlines, hclosed, hfed, hrefused⟩ := books_fields hbooks
    rw [hlines]
    exact ⟨rfl, hclosed, hfed, hrefused, [], hstack, .inl rfl⟩
  · obtain ⟨history, hremember⟩ := remember_cases { system.interface with lines } line.text
    obtain ⟨hlines, hclosed, hfed, hrefused⟩ := books_fields hbooks
    rw [hremember] at hlines hclosed
    have hfinished : lines.finished = system.interface.lines.finished := by
      rcases LineBuffer.take_cases system.interface.lines with ⟨-, hrun⟩ | ⟨other, others, hrun, -, hfinished, -⟩
      · rw [show LineBuffer.take system.interface.lines = _ from hrun] at htake
        cases htake
      · rw [show LineBuffer.take system.interface.lines = _ from hrun] at htake
        cases htake
        exact hfinished
    rw [hlines]
    refine ⟨hfinished, hclosed, hfed, hrefused, [_, .loop], hstack, .inr ⟨_, ?_, rfl⟩⟩
    cases Receiver.of line system.interface.callback <;> rfl

theorem feed_paused (text : Bytes) (now : Int) (system : System Callback) :
    (system.feed text now).interface.paused = system.interface.paused := by
  have hraise : ∀ system : System Callback, system.raise.interface.paused = system.interface.paused := by
    intro system
    obtain ⟨dispatching, stack, -, hraise⟩ := raise_cases system
    rw [hraise]
  unfold System.feed
  dsimp only
  split
  · rfl
  · exact hraise _

/-- Behind the end a feed adds nothing, and raises. -/
theorem feed_ended (text : Bytes) (now : Int) {system : System Callback}
    (hfinished : system.interface.lines.finished = true) :
    (system.feed text now).completed = system.completed ∧ (system.feed text now).rest = system.rest ∧
      (system.feed text now).given = system.given ∧ (system.feed text now).refused = true := by
  have hraise : ∀ system : System Callback, system.raise.completed = system.completed ∧
      system.raise.rest = system.rest ∧ system.raise.given = system.given ∧ system.raise.refused = system.refused := by
    intro system
    obtain ⟨dispatching, stack, -, hraise⟩ := raise_cases system
    rw [hraise]
    exact ⟨rfl, rfl, rfl, rfl⟩
  unfold System.feed
  dsimp only
  rw [LineBuffer.feed_finished hfinished, if_pos hfinished]
  obtain ⟨hcompleted, hrest, hgiven, hrefused⟩ := hraise { system with
    completed := system.completed ++ system.interface.lines.complete.drop system.interface.lines.complete.length,
    feeds := system.feeds ++ [(text, now)], refused := system.refused || true }
  refine ⟨hcompleted.trans ?_, hrest, hgiven, hrefused.trans (Bool.or_true _)⟩
  rw [List.drop_length, List.append_nil]

/-- The interface's own piece keeps the account of what was taken in. -/
theorem Intake.perform {code : Code Callback} {stack : List (Code Callback)} (now : Int)
    (h : Intake input system (code :: stack)) :
    Intake input ({ system with stack }.perform now code) ({ system with stack }.perform now code).stack := by
  generalize hcodes : code :: stack = whole at h
  cases h with
  | text hnone htext =>
    cases hcodes
    rename_i text
    rcases feed_cases text now { system with stack } with
      ⟨hgoing, hstack, hfed, hrefused, hclosed, hfinished, hdecoder⟩ | ⟨hrefused, hsuffix, -⟩
    · rw [show (System.perform now { system with stack } (.feed text)).stack = stack from hstack]
      refine .idle hnone fun hopen hkept => ⟨fun _ => ?_, fun hended => ?_⟩
      · have htaken := htext (hclosed.symm.trans hopen) (hrefused.symm.trans hkept) hgoing
        rw [show (System.perform now { system with stack } (.feed text)).fed = system.fed ++ text from hfed,
          show (System.perform now { system with stack } (.feed text)).interface.decoder = _ from hdecoder]
        exact htaken
      · exact absurd (hfinished.symm.trans hended) Bool.false_ne_true
    · refine .idle (fun code hcode => hnone code (hsuffix.subset hcode)) fun _ hkept => ?_
      exact absurd (hkept.symm.trans hrefused) Bool.false_ne_true
  | last hnone htext =>
    cases hcodes
    rename_i rest text
    rcases feed_cases text now { system with stack := .finish :: rest } with
      ⟨hgoing, hstack, hfed, hrefused, hclosed, -⟩ | ⟨hrefused, hsuffix, hrests⟩
    · rw [show (System.perform now { system with stack := .finish :: rest } (.feed text)).stack = .finish :: rest from
        hstack]
      refine .finish hnone fun hopen hkept => ?_
      exact (htext (hclosed.symm.trans hopen) (hrefused.symm.trans hkept) hgoing).trans hfed.symm
    · refine .idle (fun code hcode => ?_) fun _ hkept => absurd (hkept.symm.trans hrefused) Bool.false_ne_true
      -- the end is given up with the text
      rcases List.suffix_cons_iff.mp hsuffix with hwhole | hbelow
      · rw [hwhole] at hrests
        rcases hrests with hrests | ⟨below, hrests⟩ <;> cases hrests
      · exact hnone code (hbelow.subset hcode)
  | finish hnone htext =>
    cases hcodes
    exact .idle hnone fun hopen hkept => ⟨fun hgoing => Bool.noConfusion hgoing, fun _ => htext hopen hkept⟩
  | idle hnone htext =>
    cases hcodes
    have htakes : code.takesIn = false := hnone code List.mem_cons_self
    replace hnone : ∀ code ∈ stack, code.takesIn = false := fun code hcode => hnone code (List.mem_cons_of_mem _ hcode)
    by_cases hpoll : code = .poll
    · subst hpoll
      rcases perform_poll now { system with stack } with ⟨hpoll, -⟩ | ⟨hpoll, -⟩
      · rw [hpoll]
        exact .goes hnone htext rfl (fun hopen => hopen) rfl rfl rfl ⟨[], rfl, fun _ hcode => by cases hcode⟩
      · rw [hpoll]
        refine .goes hnone htext rfl (fun hopen => hopen) rfl rfl rfl ⟨[.dispatch, .polled], rfl, ?_⟩
        simp [Code.takesIn]
    by_cases hloop : code = .loop
    · subst hloop
      obtain ⟨hfinished, hclosed, hfed, hrefused, codes, hcodes, hgives⟩ := loop_input { system with stack }
      refine Intake.goes hnone htext hfinished (fun hopen => hclosed.symm.trans hopen) hfed hrefused
        (loop_aside { system with stack }).1 ⟨codes, hcodes, fun code hcode => ?_⟩
      rcases hgives with rfl | ⟨given, hplain, rfl⟩
      · cases hcode
      · rcases List.mem_cons.mp hcode with rfl | hcode
        · exact @takesIn_of_plain _ _ False (.inl hplain)
        · rw [List.mem_singleton.mp hcode]
          rfl
    have hpushes := perform_pushes now { system with stack } htakes hpoll hloop
    have hstack : ∃ codes, ({ system with stack }.perform now code).stack = codes ++ stack ∧
        ∀ code ∈ codes, code.takesIn = false := by
      obtain ⟨codes, hstack, hcodes⟩ := hpushes.stack
      exact ⟨codes, hstack, fun code hcode => takesIn_of_plain (hcodes code hcode)⟩
    cases hbusy : code.busy with
    | false =>
      obtain ⟨hlines, hclosed, hfed, hrefused⟩ := books_fields (perform_idle now { system with stack } hbusy).books
      exact Intake.goes hnone htext (congrArg LineBuffer.finished hlines) (fun hopen => hclosed.symm.trans hopen) hfed
        hrefused hpushes.decoder hstack
    | true =>
      cases code with
      | closing =>
        obtain ⟨codes, hcodes, hplain⟩ := hstack
        refine .idle (fun code hcode => ?_) fun hopen => Bool.noConfusion hopen
        rw [hcodes] at hcode
        exact (List.mem_append.mp hcode).elim (hplain code) (hnone code)
      | dispatch =>
        rcases perform_dispatch now { system with stack } with ⟨hdispatch, -⟩ | ⟨hdispatch, -⟩
        · rw [hdispatch]
          exact .goes hnone htext rfl (fun hopen => hopen) rfl rfl rfl ⟨[], rfl, fun _ hcode => by cases hcode⟩
        · rw [hdispatch]
          refine .goes hnone htext rfl (fun hopen => hopen) rfl rfl rfl ⟨[.loop], rfl, ?_⟩
          simp [Code.takesIn]
      | loop => exact absurd rfl hloop
      | feed text => cases htakes
      | finish => cases htakes
      | _ => cases hbusy

/-- Bytes are decoded but for those that the decoder holds back. -/
theorem Decodes.write (unpaired : List UInt16 → Error) {text : Bytes} {decoder : StreamDecoder}
    (h : Decodes input text decoder) (bytes : List UInt8) :
    ∃ more after, StreamDecoder.write unpaired bytes decoder = .ok more after ∧
      Decodes (input ++ bytes) (text ++ asBytes more) after := by
  obtain ⟨hname, front, hfront, hinput⟩ := h
  have hcut := @Stream.ReadBuffer.write_cut unpaired decoder bytes
  cases hrun : StreamDecoder.write unpaired bytes decoder with
  | error error after =>
    rw [wp_of_error hrun, hname] at hcut
    cases hcut.2
  | ok more after =>
    rw [wp_of_ok hrun, hname] at hcut
    obtain ⟨-, hname', htail⟩ := hcut
    refine ⟨more, after, rfl, hname', front ++ more, ?_, fun tail => ?_⟩
    · rw [asBytes_append, hfront]
    · have hmore : more ++ lossy (after.pending ++ tail) = lossy (decoder.pending ++ (bytes ++ tail)) :=
        Option.some.inj (htail tail)
      rw [List.append_assoc, hinput, List.append_assoc, hmore]

theorem Decodes.end_ (unpaired : List UInt16 → Error) {text : Bytes} {decoder : StreamDecoder}
    (h : Decodes input text decoder) :
    ∃ more after, StreamDecoder.end_ unpaired decoder = .ok more after ∧ asBytes (lossy input) = text ++ asBytes more := by
  obtain ⟨hname, front, hfront, hinput⟩ := h
  have hend := @Stream.ReadBuffer.end_all unpaired decoder
  cases hrun : StreamDecoder.end_ unpaired decoder with
  | error error after =>
    rw [wp_of_error hrun, hname] at hend
    cases hend.2
  | ok more after =>
    rw [wp_of_ok hrun, hname] at hend
    refine ⟨more, after, rfl, ?_⟩
    have hmore : lossy decoder.pending = more := Option.some.inj hend.1
    have hwhole := hinput []
    rw [List.append_nil, List.append_nil, hmore] at hwhole
    rw [hwhole, asBytes_append, hfront]

/-- Outside code acts, or the interface goes on and takes no bytes. -/
theorem step_takes (unpaired : List UInt16 → Error) (same : Callback → Callback → Bool) (system : System Callback)
    (action : Action Callback) :
    ((system.stack = [] ∨ ∃ stack, system.stack = .outside :: stack) ∧ system.atRest = true ∧
        system.step unpaired same action = system.act unpaired same action) ∨
      (system.takes action = [] ∧ (system.step unpaired same action = system ∨
        ∃ now code stack, system.stack = code :: stack ∧ code ≠ .outside ∧
          system.step unpaired same action = { system with stack }.perform now code)) := by
  by_cases hrest : system.atRest = true
  · left
    unfold atRest at hrest
    unfold atRest step
    split at hrest
    · rename_i hstack
      rw [hstack]
      exact ⟨.inl rfl, rfl, rfl⟩
    · rename_i stack hstack
      rw [hstack]
      exact ⟨.inr ⟨stack, rfl⟩, rfl, rfl⟩
    · cases hrest
  · right
    have htakes : system.takes action = [] := by
      unfold takes
      rw [Bool.eq_false_of_not_eq_true hrest]
      split <;> rfl
    refine ⟨htakes, ?_⟩
    rcases step_cases unpaired same system action with ⟨hstack, -⟩ | hgo | hstill
    · refine absurd ?_ hrest
      unfold atRest
      rcases hstack with hstack | ⟨stack, hstack⟩ <;> rw [hstack]
    · exact .inr hgo
    · exact .inl hstill

/-- A chunk is decoded and waits to be fed. -/
theorem intake_data (unpaired : List UInt16 → Error) (same : Callback → Callback → Bool) (hrest : system.atRest = true)
    (hnone : ∀ code ∈ system.stack, code.takesIn = false)
    (htext : system.interface.closed = false → system.refused = false →
      (system.interface.lines.finished = false → Decodes input system.fed system.interface.decoder) ∧
      (system.interface.lines.finished = true → asBytes (lossy input) = system.fed)) (bytes : List UInt8) :
    Intake (input ++ system.takes (.data (.buffer bytes))) (system.act unpaired same (.data (.buffer bytes)))
      (system.act unpaired same (.data (.buffer bytes))).stack := by
  by_cases hdeaf : (decide (.data ∉ system.subscriptions) || system.interface.closed) = true
  · have htakes : system.takes (.data (.buffer bytes)) = [] := by
      refine if_neg fun htakes => ?_
      simp only [Bool.or_eq_true, Bool.and_eq_true, decide_eq_true_eq, Bool.not_eq_true'] at hdeaf htakes
      rcases hdeaf with hdeaf | hdeaf
      · exact hdeaf htakes.1.1.2
      · exact Bool.false_ne_true (htakes.1.2.symm.trans hdeaf)
    rw [htakes, List.append_nil]
    dsimp only [System.act]
    rw [if_pos hdeaf]
    exact .idle hnone htext
  · obtain ⟨hlistens, hopen⟩ : .data ∈ system.subscriptions ∧ system.interface.closed = false := by simpa using hdeaf
    have hdispatch : ∀ code ∈ .dispatch :: system.stack, code.takesIn = false := by
      intro code hcode
      rcases List.mem_cons.mp hcode with rfl | hcode
      · rfl
      · exact hnone code hcode
    dsimp only [System.act]
    rw [if_neg hdeaf]
    cases hfinished : system.interface.lines.finished with
    | true =>
      have htakes : system.takes (.data (.buffer bytes)) = [] := by
        refine if_neg fun htakes => ?_
        rw [hfinished, Bool.not_true, Bool.and_false] at htakes
        exact Bool.false_ne_true htakes
      rw [htakes, List.append_nil]
      split
      · refine .idle hnone fun hopen hkept => ⟨fun hgoing => ?_, fun hended => (htext hopen hkept).2 hended⟩
        exact absurd (hgoing.symm.trans hfinished) Bool.false_ne_true
      · refine .text hdispatch fun _ _ hgoing => ?_
        exact absurd (hgoing.symm.trans hfinished) Bool.false_ne_true
    | false =>
      have htakes : system.takes (.data (.buffer bytes)) = bytes := by
        unfold takes
        rw [hrest, hopen, hfinished, decide_eq_true hlistens]
        rfl
      rw [htakes]
      split
      · rename_i error decoder hrun
        refine .idle hnone fun hopen hkept => ⟨fun _ => ?_, fun hended => ?_⟩
        · obtain ⟨more, after, hwrite, -⟩ := ((htext hopen hkept).1 hfinished).write unpaired bytes
          rw [hwrite] at hrun
          cases hrun
        · exact absurd (hfinished.symm.trans hended) Bool.false_ne_true
      · rename_i text decoder hrun
        refine .text hdispatch fun hopen hkept _ => ?_
        obtain ⟨more, after, hwrite, hdecodes⟩ := ((htext hopen hkept).1 hfinished).write unpaired bytes
        rw [hwrite] at hrun
        cases hrun
        exact hdecodes

/-- At the end, what the decoder holds back waits to be fed. -/
theorem intake_end (unpaired : List UInt16 → Error) (same : Callback → Callback → Bool)
    (hnone : ∀ code ∈ system.stack, code.takesIn = false)
    (htext : system.interface.closed = false → system.refused = false →
      (system.interface.lines.finished = false → Decodes input system.fed system.interface.decoder) ∧
      (system.interface.lines.finished = true → asBytes (lossy input) = system.fed)) :
    Intake input (system.act unpaired same .inputEnd) (system.act unpaired same .inputEnd).stack := by
  dsimp only [System.act]
  split
  · exact .idle hnone htext
  · split
    · exact .idle hnone htext
    · split
      · rename_i error decoder hrun
        refine .idle hnone fun hopen hkept => ⟨fun hgoing => ?_, fun hended => (htext hopen hkept).2 hended⟩
        obtain ⟨more, after, hend, -⟩ := ((htext hopen hkept).1 hgoing).end_ unpaired
        rw [show StreamDecoder.end_ unpaired system.interface.decoder = _ from hend] at hrun
        cases hrun
      · rename_i text decoder hrun
        refine .last (fun code hcode => ?_) fun hopen hkept hgoing => ?_
        · rcases List.mem_cons.mp hcode with rfl | hcode
          · rfl
          · exact hnone code hcode
        · obtain ⟨more, after, hend, htaken⟩ := ((htext hopen hkept).1 hgoing).end_ unpaired
          rw [show StreamDecoder.end_ unpaired system.interface.decoder = _ from hend] at hrun
          cases hrun
          exact htaken

/-- A step keeps the account of what was taken in. -/
theorem Intake.step (unpaired : List UInt16 → Error) (same : Callback → Callback → Bool)
    (h : Intake input system system.stack) {action : Action Callback} (hbytes : action.bytewise = true) :
    Intake (input ++ system.takes action) (system.step unpaired same action)
      (system.step unpaired same action).stack := by
  rcases step_takes unpaired same system action with
    ⟨hstack, hrest, hact⟩ | ⟨htakes, hstill | ⟨now, code, stack, hstack, -, hgo⟩⟩
  · rw [hact]
    obtain ⟨hnone, htext⟩ := h.rests hstack
    have htail : ∀ code ∈ system.stack.tail, code.takesIn = false :=
      fun code hcode => hnone code (List.mem_of_mem_tail hcode)
    have hother : action ≠ .return → action ≠ .raise → (∀ value, action ≠ .data value) → action ≠ .inputEnd →
        Intake (input ++ system.takes action) (system.act unpaired same action)
          (system.act unpaired same action).stack := by
      intro hreturn hraise hdata hend
      have htakes : system.takes action = [] := by
        unfold takes
        split
        · exact absurd rfl (hdata _)
        · rfl
      have hpushes := act_pushes unpaired same system hreturn hraise hbytes hdata hend
      obtain ⟨hlines, hclosed, hfed, hrefused⟩ := books_fields (act_idle unpaired same system hreturn hraise).books
      obtain ⟨codes, hcodes, hplain⟩ := hpushes.stack
      rw [htakes, List.append_nil]
      exact .goes hnone htext (congrArg LineBuffer.finished hlines) (fun hopen => hclosed.symm.trans hopen) hfed
        hrefused hpushes.decoder ⟨codes, hcodes, fun code hcode => takesIn_of_plain (hplain code hcode)⟩
    cases action with
    | write text => cases hbytes
    | «return» =>
      rw [show system.takes .return = [] from rfl, List.append_nil]
      exact .idle htail htext
    | raise =>
      rw [show system.takes .raise = [] from rfl, List.append_nil]
      obtain ⟨dispatching, stack, hsuffix, hraise⟩ := raise_cases { system with stack := system.stack.tail }
      rw [show system.act unpaired same .raise = _ from hraise]
      exact .idle (fun code hcode => htail code (hsuffix.subset hcode)) htext
    | data value =>
      cases value with
      | text text => cases hbytes
      | buffer bytes => exact intake_data unpaired same hrest hnone htext bytes
    | inputEnd =>
      rw [show system.takes .inputEnd = [] from rfl, List.append_nil]
      exact intake_end unpaired same hnone htext
    | _ => exact hother (fun h => by cases h) (fun h => by cases h) (fun _ h => by cases h) fun h => by cases h
  · rw [htakes, List.append_nil, hstill]
    exact h
  · rw [htakes, List.append_nil, hgo]
    rw [hstack] at h
    exact h.perform now

end

/-! ## Polls -/

/-- Only a loop stands above a poll that has begun. -/
def Covered : List (Code Callback) → Prop
  | [] => True
  | code :: stack => (stack.head? = some .polled → code = .loop) ∧ Covered stack

/-- A poll begins where nothing stands in its way, and goes on when its loop has no line left. -/
inductive Polls (system : System Callback) : List (Code Callback) → Prop
  | begins {stack : List (Code Callback)} : system.interface.closed = false → system.interface.paused = false →
      system.interface.dispatching = false → Covered (.polled :: stack) → Polls system (.dispatch :: .polled :: stack)
  | goes {stack : List (Code Callback)} : Covered stack →
      (stack.head? = some .polled → system.interface.lines.finished = true → system.interface.lines.left = []) →
      Polls system stack

section
variable {system : System Callback} {stack codes : List (Code Callback)}

theorem Covered.suffix {below : List (Code Callback)} (h : Covered stack) (hbelow : below <:+ stack) :
    Covered below := by
  induction stack with
  | nil =>
    rw [List.suffix_nil.mp hbelow]
    exact h
  | cons code stack ih =>
    rcases List.suffix_cons_iff.mp hbelow with rfl | hbelow
    · exact h
    · exact ih h.2 hbelow

theorem Covered.push (h : Covered stack) (hhead : stack.head? ≠ some .polled) (hcodes : ∀ code ∈ codes, code ≠ .polled) :
    Covered (codes ++ stack) ∧ (codes ++ stack).head? ≠ some .polled := by
  induction codes with
  | nil => exact ⟨h, hhead⟩
  | cons code codes ih =>
    obtain ⟨hcovered, hnext⟩ := ih fun code hcode => hcodes code (List.mem_cons_of_mem _ hcode)
    exact ⟨⟨fun hpolled => absurd hpolled hnext, hcovered⟩,
      fun hpolled => hcodes code List.mem_cons_self (Option.some.inj hpolled)⟩

/-- What is put on a stack that no poll waits on. -/
theorem Polls.push (hstack : system.stack = codes ++ stack) (h : Covered stack) (hhead : stack.head? ≠ some .polled)
    (hcodes : ∀ code ∈ codes, code ≠ .polled) : Polls system system.stack := by
  obtain ⟨hcovered, hnext⟩ := h.push hhead hcodes
  rw [hstack]
  exact .goes hcovered fun hpolled => absurd hpolled hnext

theorem not_polled_of_plain {code : Code Callback} {free : Prop} (h : code.plain = true ∨ (free ∧ code.closes = true)) :
    code ≠ .polled := by
  rintro rfl
  rcases h with h | h
  · cases h
  · cases h.2

/-- The lines that are left when the input has ended stay none. -/
theorem perform_drained (now : Int) {code : Code Callback} (hfinished : system.interface.lines.finished = true)
    (hleft : system.interface.lines.left = []) :
    (system.perform now code).interface.lines.finished = true ∧ (system.perform now code).interface.lines.left = [] := by
  cases hbusy : code.busy with
  | false =>
    rw [(books_fields (perform_idle now system hbusy).books).1]
    exact ⟨hfinished, hleft⟩
  | true =>
    cases code with
    | closing =>
      refine ⟨hfinished, ?_⟩
      show LineBuffer.inputLines [] system.interface.lines.current system.interface.lines.finished = []
      exact (List.append_eq_nil_iff.mp hleft).2
    | feed text =>
      have hsame : (System.feed text now system).interface.lines = system.interface.lines := by
        unfold System.feed
        dsimp only
        rw [LineBuffer.feed_finished hfinished]
        exact (books_fields (books_raise _)).1
      show (System.feed text now system).interface.lines.finished = true ∧ _
      rw [show (system.perform now (.feed text)).interface.lines = _ from hsame, hsame]
      exact ⟨hfinished, hleft⟩
    | finish =>
      refine ⟨rfl, ?_⟩
      show LineBuffer.inputLines system.interface.lines.complete system.interface.lines.current true = []
      rw [← hfinished]
      exact hleft
    | dispatch =>
      rcases perform_dispatch now system with ⟨hdispatch, -⟩ | ⟨hdispatch, -⟩
      · rw [hdispatch]
        exact ⟨hfinished, hleft⟩
      · rw [hdispatch]
        exact ⟨hfinished, hleft⟩
    | loop =>
      rcases loop_cases system with ⟨hbooks, -⟩ | ⟨line, lines, -, -, htake, -⟩
      · rw [show (system.perform now .loop).interface.lines = _ from (books_fields hbooks).1]
        exact ⟨hfinished, hleft⟩
      · rcases LineBuffer.take_cases system.interface.lines with ⟨-, hrun⟩ | ⟨other, others, -, hothers, -⟩
        · rw [show LineBuffer.take system.interface.lines = _ from hrun] at htake
          cases htake
        · rw [hleft] at hothers
          cases hothers
    | _ => cases hbusy

end

/-! ## The end -/

/-- The interface is closed or paused, or about to be. -/
def Stirs (system : System Callback) : Prop :=
  system.interface.closed = true ∨ system.interface.paused = true ∨ ∃ code ∈ system.stack, code.closes = true

/-- Every line of the input was given away. -/
def Final (input : Bytes) (system : System Callback) : Prop :=
  system.delivered = LineBuffer.inputLines system.completed system.rest true ∧
    (system.refused = false → Prompt system.feeds → Split (asBytes (lossy input)) system.completed system.rest)

structure Unhurried (input : Bytes) (system : System Callback) : Prop where
  polls : Polls system system.stack
  calm : system.Stirs → system.interface.lines.finished = true ∧ system.interface.lines.left = []
  final : system.interface.closed = true → Final input system

section
variable {input : Bytes} {system : System Callback} {code : Code Callback} {stack : List (Code Callback)}

theorem Unhurried.polls_perform (h : Unhurried input system) (hstack : system.stack = code :: stack) (now : Int) :
    Polls ({ system with stack }.perform now code) ({ system with stack }.perform now code).stack := by
  have hpolls := h.polls
  rw [hstack] at hpolls
  generalize hcodes : code :: stack = whole at hpolls
  cases hpolls with
  | begins hclosed hpaused hdispatching hcovered =>
    cases hcodes
    rename_i rest
    rcases perform_dispatch now { system with stack := .polled :: rest } with ⟨-, hstill⟩ | ⟨hdispatch, -⟩
    · rcases hstill with hstill | hstill | hstill
      · exact absurd (hdispatching.symm.trans hstill) Bool.false_ne_true
      · exact absurd (hpaused.symm.trans hstill) Bool.false_ne_true
      · exact absurd (hclosed.symm.trans hstill) Bool.false_ne_true
    · rw [hdispatch]
      exact .goes ⟨fun _ => rfl, hcovered⟩ fun hpolled => by cases hpolled
  | goes hcovered hhead =>
    cases hcodes
    obtain ⟨habove, hcovered⟩ := hcovered
    by_cases hloop : code = .loop
    · subst hloop
      show Polls (System.loop { system with stack }) (System.loop { system with stack }).stack
      rcases loop_cases { system with stack } with ⟨hbooks, hsame, -, hnone⟩ | ⟨line, lines, -, -, -, -, hcalls, -⟩
      · rw [hsame]
        refine .goes hcovered fun _ hfinished => ?_
        rw [(books_fields hbooks).1]
        by_cases hstirs : system.Stirs
        · exact (h.calm hstirs).2
        · unfold Stirs at hstirs
          simp only [not_or, Bool.not_eq_true] at hstirs
          exact hnone hstirs.2.1 hstirs.1
      · refine @Polls.push _ _ (.loop :: stack) [_] hcalls ⟨fun _ => rfl, hcovered⟩ (fun hpolled => by cases hpolled)
          fun code hcode => ?_
        rw [List.mem_singleton.mp hcode]
        cases Receiver.of line system.interface.callback <;> exact fun hpolled => by cases hpolled
    have hbare : stack.head? ≠ some .polled := fun hpolled => hloop (habove hpolled)
    have hkept : Polls { system with stack } stack := .goes hcovered fun hpolled => absurd hpolled hbare
    by_cases hpoll : code = .poll
    · subst hpoll
      rcases perform_poll now { system with stack } with ⟨hpoll, -⟩ | ⟨hpoll, hclosed, hpaused, hdispatching⟩
      · rw [hpoll]
        exact hkept
      · rw [hpoll]
        exact .begins hclosed hpaused hdispatching ⟨fun hpolled => absurd hpolled hbare, hcovered⟩
    cases htakes : code.takesIn with
    | false =>
      obtain ⟨codes, hcodes, hplain⟩ := (perform_pushes now { system with stack } htakes hpoll hloop).stack
      exact Polls.push hcodes hcovered hbare fun code hcode => not_polled_of_plain (hplain code hcode)
    | true =>
      cases code with
      | feed text =>
        show Polls (System.feed text now { system with stack }) (System.feed text now { system with stack }).stack
        rcases feed_cases text now { system with stack } with ⟨-, hsame, -⟩ | ⟨-, hsuffix, hrests⟩
        · rw [hsame]
          exact .goes hcovered fun hpolled => absurd hpolled hbare
        · refine .goes (hcovered.suffix hsuffix) fun hpolled => ?_
          rcases hrests with hrests | ⟨rest, hrests⟩
          · rw [hrests] at hpolled
            cases hpolled
          · rw [hrests] at hpolled
            cases hpolled
      | finish => exact .goes hcovered fun hpolled => absurd hpolled hbare
      | _ => cases htakes

/-- No other piece leads to a pause or to the end. -/
theorem stirs_perform (hstack : system.stack = code :: stack) (hbefore : ¬ system.Stirs)
    (hends : ¬ (code = .polled ∧ system.interface.lines.finished = true)) (now : Int) :
    ¬ ({ system with stack }.perform now code).Stirs := by
  unfold Stirs at hbefore
  rw [hstack] at hbefore
  simp only [not_or, Bool.not_eq_true, not_exists, not_and] at hbefore
  obtain ⟨hclosed, hpaused, hcalm⟩ := hbefore
  have hcode : code.closes = false := hcalm code List.mem_cons_self
  replace hcalm : ∀ code ∈ stack, code.closes = false := fun code hmem => hcalm code (List.mem_cons_of_mem _ hmem)
  have hgoes : ∀ {after : System Callback} (codes : List (Code Callback)), after.interface.closed = false →
      after.interface.paused = false → after.stack = codes ++ stack → (∀ code ∈ codes, code.closes = false) →
      ¬ after.Stirs := by
    intro after codes hclosed hpaused hafter hcodes hstirs
    rcases hstirs with hstirs | hstirs | ⟨other, hmem, hstirs⟩
    · exact Bool.false_ne_true (hclosed.symm.trans hstirs)
    · exact Bool.false_ne_true (hpaused.symm.trans hstirs)
    · rw [hafter] at hmem
      rcases List.mem_append.mp hmem with hmem | hmem
      · exact Bool.false_ne_true ((hcodes other hmem).symm.trans hstirs)
      · exact Bool.false_ne_true ((hcalm other hmem).symm.trans hstirs)
  have hplain : ∀ {code : Code Callback}, code.plain = true → code.closes = false := by
    intro code hplain
    cases code <;> first | rfl | cases hplain
  have hopen : ({ system with stack }.perform now code).interface.closed = false := by
    rcases perform_cases now { system with stack } code with ⟨emitted, rfl⟩ | hquiet
    · cases hcode
    · exact (congrArg Prod.fst hquiet.view).trans hclosed
  by_cases hloop : code = .loop
  · subst hloop
    obtain ⟨-, -, -, -, codes, hcodes, hgives⟩ := loop_input { system with stack }
    refine hgoes codes hopen ((loop_aside _).2.trans hpaused) hcodes fun code hmem => ?_
    rcases hgives with rfl | ⟨given, hgiven, rfl⟩
    · cases hmem
    · rcases List.mem_cons.mp hmem with rfl | hmem
      · exact hplain hgiven
      · rw [List.mem_singleton.mp hmem]
        rfl
  by_cases hpoll : code = .poll
  · subst hpoll
    rcases perform_poll now { system with stack } with ⟨hpoll, -⟩ | ⟨hpoll, -⟩
    · rw [hpoll]
      exact hgoes [] hclosed hpaused rfl fun _ hmem => by cases hmem
    · rw [hpoll]
      exact hgoes [.dispatch, .polled] hclosed hpaused rfl (by simp [Code.closes])
  cases htakes : code.takesIn with
  | false =>
    have hpushes := perform_pushes now { system with stack } htakes hpoll hloop
    have hnot : ¬ (code.closes = true ∨ code = .polled ∧ system.interface.lines.finished = true) := by
      rintro (hcloses | hpolled)
      · exact Bool.false_ne_true (hcode.symm.trans hcloses)
      · exact hends hpolled
    obtain ⟨codes, hcodes, hkinds⟩ := hpushes.stack
    refine hgoes codes hopen ?_ hcodes fun code hmem => ?_
    · refine Bool.eq_false_of_not_eq_true fun hafter => ?_
      rcases hpushes.paused hafter with hafter | hfree
      · exact Bool.false_ne_true (hpaused.symm.trans hafter)
      · exact hnot hfree
    · rcases hkinds code hmem with hkind | ⟨hfree, -⟩
      · exact hplain hkind
      · exact absurd hfree hnot
  | true =>
    cases code with
    | feed text =>
      have hstill := feed_paused text now { system with stack }
      rcases feed_cases text now { system with stack } with ⟨-, hafter, -⟩ | ⟨-, hsuffix, -⟩
      · exact hgoes [] hopen (hstill.trans hpaused) hafter fun _ hmem => by cases hmem
      · rintro (hstirs | hstirs | ⟨other, hmem, hstirs⟩)
        · exact Bool.false_ne_true (hopen.symm.trans hstirs)
        · exact Bool.false_ne_true ((hstill.trans hpaused).symm.trans hstirs)
        · exact Bool.false_ne_true ((hcalm other (hsuffix.subset hmem)).symm.trans hstirs)
    | finish => exact hgoes [] hopen hpaused rfl fun _ hmem => by cases hmem
    | _ => cases htakes

/-- The interface pauses and closes behind the last line. -/
theorem Unhurried.calm_perform (h : Unhurried input system) (hstack : system.stack = code :: stack) (now : Int)
    (hstirs : ({ system with stack }.perform now code).Stirs) :
    ({ system with stack }.perform now code).interface.lines.finished = true ∧
      ({ system with stack }.perform now code).interface.lines.left = [] := by
  by_cases hbefore : system.Stirs
  · exact perform_drained now (h.calm hbefore).1 (h.calm hbefore).2
  by_cases hends : code = .polled ∧ system.interface.lines.finished = true
  · obtain ⟨rfl, hfinished⟩ := hends
    have hpolls := h.polls
    rw [hstack] at hpolls
    cases hpolls with
    | goes hcovered hhead => exact perform_drained now hfinished (hhead rfl hfinished)
  · exact absurd hstirs (stirs_perform hstack hbefore hends now)

theorem Final.books {after : System Callback} (h : Final input system) (hbooks : after.books = system.books) :
    Final input after := by
  unfold System.books at hbooks
  simp only [Prod.mk.injEq] at hbooks
  obtain ⟨-, hcompleted, hrest, hfeeds, hrefused, hgiven⟩ := hbooks
  unfold Final System.delivered
  rw [hcompleted, hrest, hfeeds, hrefused, hgiven]
  exact h

/-- Nothing is left to give away where the interface closes, and later nothing is given away. -/
theorem Unhurried.final_perform (h : Unhurried input system) (haccounts : Accounts system)
    (hintake : Intake input system system.stack) (hstack : system.stack = code :: stack) (now : Int)
    (hclosed : ({ system with stack }.perform now code).interface.closed = true) :
    Final input ({ system with stack }.perform now code) := by
  by_cases hclosing : ∃ emitted, code = .closing emitted
  · obtain ⟨emitted, rfl⟩ := hclosing
    have hfinal : Final input system := by
      cases hopen : system.interface.closed with
      | true => exact h.final hopen
      | false =>
        obtain ⟨hfinished, hleft⟩ := h.calm (.inr (.inr ⟨.closing emitted, hstack ▸ List.mem_cons_self, rfl⟩))
        constructor
        · have hlines := haccounts.lines hopen
          rw [hleft, List.append_nil, hfinished] at hlines
          exact hlines
        · intro hkept hprompt
          obtain ⟨-, carriageReturn, hfed, -⟩ := haccounts.text hopen hkept hprompt
          rw [hstack] at hintake
          cases hintake with
          | idle hnone htext =>
            rw [(htext hopen hkept).2 hfinished, Lines.split_iff, hfed]
            exact ⟨rfl, rfl⟩
    have hgiven : (({ system with stack } : System Callback).perform now (.closing emitted)).given = system.given :=
      given_note rfl _
    unfold Final System.delivered
    rw [hgiven]
    exact hfinal
  · have hbefore : system.interface.closed = true := by
      rcases perform_cases now { system with stack } code with hcode | hquiet
      · exact absurd hcode hclosing
      · exact (congrArg Prod.fst hquiet.view).symm.trans hclosed
    have hfinal := h.final hbefore
    have hfinished := (h.calm (.inl hbefore)).1
    cases hbusy : code.busy with
    | false => exact Final.books hfinal (perform_idle now { system with stack } hbusy).books
    | true =>
      cases code with
      | closing emitted => exact absurd ⟨emitted, rfl⟩ hclosing
      | feed text =>
        obtain ⟨hcompleted, hrest, hgiven, hrefused⟩ := @feed_ended _ text now { system with stack } hfinished
        show Final input (System.feed text now { system with stack })
        unfold Final System.delivered
        rw [hcompleted, hrest, hgiven]
        exact ⟨hfinal.1, fun hkept => absurd (hkept.symm.trans hrefused) Bool.false_ne_true⟩
      | finish => exact hfinal
      | dispatch =>
        rcases perform_dispatch now { system with stack } with ⟨hdispatch, -⟩ | ⟨hdispatch, -⟩
        · rw [hdispatch]
          exact hfinal
        · rw [hdispatch]
          exact hfinal
      | loop =>
        rcases loop_cases { system with stack } with ⟨hbooks, -⟩ | ⟨line, lines, -, hopen, -⟩
        · exact Final.books hfinal hbooks
        · exact absurd (hopen.symm.trans hbefore) Bool.false_ne_true
      | _ => cases hbusy

theorem Unhurried.perform (h : Unhurried input system) (haccounts : Accounts system)
    (hintake : Intake input system system.stack) (hstack : system.stack = code :: stack) (now : Int) :
    Unhurried input ({ system with stack }.perform now code) where
  polls := h.polls_perform hstack now
  calm := h.calm_perform hstack now
  final := h.final_perform haccounts hintake hstack now

/-- What outside code puts on the stack. -/
theorem act_stack (unpaired : List UInt16 → Error) (same : Callback → Callback → Bool) (system : System Callback)
    {action : Action Callback} (hreturn : action ≠ .return) (hraise : action ≠ .raise)
    (hbytes : action.bytewise = true) (hsteady : Steady system action) :
    (∃ codes, (system.act unpaired same action).stack = codes ++ system.stack ∧
      ∀ code ∈ codes, code ≠ .polled ∧ code.closes = false) ∧
      ((system.act unpaired same action).interface.paused = true → system.interface.paused = true) := by
  have hnone : ∀ code ∈ ([] : List (Code Callback)), code ≠ .polled ∧ code.closes = false :=
    fun _ hcode => by cases hcode
  by_cases hdata : ∃ value, action = .data value
  · obtain ⟨value, rfl⟩ := hdata
    dsimp only [System.act]
    split
    · exact ⟨⟨[], rfl, hnone⟩, fun h => h⟩
    · split
      · cases hbytes
      · split
        · exact ⟨⟨[], rfl, hnone⟩, fun h => h⟩
        · exact ⟨⟨[.feed _, .dispatch], rfl, by simp [Code.closes]⟩, fun h => h⟩
  by_cases hend : action = .inputEnd
  · subst hend
    dsimp only [System.act]
    split
    · exact ⟨⟨[], rfl, hnone⟩, fun h => h⟩
    · split
      · exact ⟨⟨[], rfl, hnone⟩, fun h => h⟩
      · split
        · exact ⟨⟨[], rfl, hnone⟩, fun h => h⟩
        · exact ⟨⟨[.feed _, .finish, .poll], rfl, by simp [Code.closes]⟩, fun h => h⟩
  have hpushes := act_pushes unpaired same system hreturn hraise hbytes (fun value h => hdata ⟨value, h⟩) hend
  obtain ⟨codes, hcodes, hkinds⟩ := hpushes.stack
  refine ⟨⟨codes, hcodes, fun code hmem => ⟨not_polled_of_plain (hkinds code hmem), ?_⟩⟩, fun hpaused => ?_⟩
  · rcases hkinds code hmem with hplain | ⟨hfree, -⟩
    · cases code <;> first | rfl | cases hplain
    · exact absurd hsteady hfree
  · exact (hpushes.paused hpaused).resolve_right fun hfree => hfree hsteady

theorem Unhurried.step (unpaired : List UInt16 → Error) (same : Callback → Callback → Bool)
    (h : Unhurried input system) (haccounts : Accounts system) (hintake : Intake input system system.stack)
    {action : Action Callback} (hbytes : action.bytewise = true) (hsteady : Steady system action) :
    Unhurried (input ++ system.takes action) (system.step unpaired same action) := by
  rcases step_takes unpaired same system action with
    ⟨hstack, hrest, hact⟩ | ⟨htakes, hstill | ⟨now, code, stack, hstack, -, hgo⟩⟩
  · rw [hact]
    obtain ⟨hcovered, hhead⟩ : Covered system.stack ∧ system.stack.head? ≠ some .polled := by
      have hpolls := h.polls
      generalize hwhole : system.stack = whole at hpolls
      cases hpolls with
      | begins =>
        rw [hwhole] at hstack
        rcases hstack with hstack | ⟨stack, hstack⟩ <;> cases hstack
      | goes hcovered =>
        refine ⟨hcovered, fun hpolled => ?_⟩
        rw [hwhole] at hstack
        rcases hstack with rfl | ⟨stack, rfl⟩ <;> cases hpolled
    have hfinal : system.interface.closed = true → Final (input ++ system.takes action) system := by
      intro hclosed
      have htakes : system.takes action = [] := by
        unfold takes
        split
        · rw [hclosed, Bool.not_true, Bool.and_false, Bool.false_and, if_neg Bool.false_ne_true]
        · rfl
      rw [htakes, List.append_nil]
      exact h.final hclosed
    by_cases hreturn : action = .return
    · subst hreturn
      refine ⟨.goes (hcovered.suffix (List.tail_suffix _)) fun hpolled => ?_, fun hstirs => h.calm ?_, hfinal⟩
      · -- a poll that has begun stands below its loop
        rcases hstack with hstack | ⟨stack, hstack⟩
        · rw [show (system.act unpaired same .return).stack = system.stack.tail from rfl, hstack] at hpolled
          cases hpolled
        · rw [show (system.act unpaired same .return).stack = system.stack.tail from rfl, hstack] at hpolled
          rw [hstack] at hcovered
          cases hcovered.1 hpolled
      · exact hstirs.imp_right (Or.imp_right fun ⟨code, hmem, hcloses⟩ => ⟨code, List.mem_of_mem_tail hmem, hcloses⟩)
    by_cases hraise : action = .raise
    · subst hraise
      obtain ⟨dispatching, stack, hsuffix, hsame⟩ := raise_cases { system with stack := system.stack.tail }
      have hrests : (system.act unpaired same .raise).stack = [] ∨
          ∃ rest, (system.act unpaired same .raise).stack = .outside :: rest :=
        unwind_rests system.interface system.stack.tail
      rw [show system.act unpaired same .raise = _ from hsame] at hrests ⊢
      have hbelow : stack <:+ system.stack := hsuffix.trans (List.tail_suffix _)
      refine ⟨.goes (hcovered.suffix hbelow) fun hpolled => ?_, fun hstirs => h.calm ?_, hfinal⟩
      · rcases hrests with rfl | ⟨rest, rfl⟩ <;> cases hpolled
      · exact hstirs.imp_right (Or.imp_right fun ⟨code, hmem, hcloses⟩ => ⟨code, hbelow.subset hmem, hcloses⟩)
    obtain ⟨⟨codes, hcodes, hkinds⟩, hpaused⟩ := act_stack unpaired same system hreturn hraise hbytes hsteady
    have hidle := act_idle unpaired same system hreturn hraise
    obtain ⟨hlines, hclosed, -, -⟩ := books_fields hidle.books
    refine ⟨Polls.push hcodes hcovered hhead fun code hmem => (hkinds code hmem).1, fun hstirs => ?_, fun hafter => ?_⟩
    · rw [hlines]
      refine h.calm ?_
      rcases hstirs with hstirs | hstirs | ⟨code, hmem, hcloses⟩
      · exact .inl (hclosed.symm.trans hstirs)
      · exact .inr (.inl (hpaused hstirs))
      · rw [hcodes] at hmem
        rcases List.mem_append.mp hmem with hmem | hmem
        · exact absurd ((hkinds code hmem).2.symm.trans hcloses) Bool.false_ne_true
        · exact .inr (.inr ⟨code, hmem, hcloses⟩)
    · exact (hfinal (hclosed.symm.trans hafter)).books hidle.books
  · rw [htakes, List.append_nil, hstill]
    exact h
  · rw [htakes, List.append_nil, hgo]
    exact h.perform haccounts hintake hstack now

/-- What is known of a run whose text comes from the input. -/
structure Streams (size : Nat) (unique : Bool) (input : Bytes) (system : System Callback) : Prop where
  orderly : Orderly size unique system
  intake : Intake input system system.stack

end

section
variable (unpaired : List UInt16 → Error) (same : Callback → Callback → Bool) {size : Nat} {unique : Bool}
  {input : Bytes} {system : System Callback}

theorem Streams.run (h : Streams size unique input system) {actions : List (Action Callback)}
    (hbytes : ∀ action ∈ actions, action.bytewise = true) :
    Streams size unique (input ++ (system.received unpaired same actions).flatten)
      (Lib.run (System.step unpaired same) system actions) := by
  induction actions generalizing input system with
  | nil =>
    rw [show (system.received unpaired same []).flatten = [] from rfl, List.append_nil]
    exact h
  | cons action actions ih =>
    have hstep : Streams size unique (input ++ system.takes action) (system.step unpaired same action) :=
      ⟨h.orderly.step unpaired same action, h.intake.step unpaired same (hbytes action List.mem_cons_self)⟩
    have hrun := ih hstep fun other hmem => hbytes other (List.mem_cons_of_mem _ hmem)
    rw [List.append_assoc] at hrun
    exact hrun

theorem Unhurried.run (h : Unhurried input system) (hstreams : Streams size unique input system)
    {actions : List (Action Callback)} (hbytes : ∀ action ∈ actions, action.bytewise = true)
    (hsteady : Meets (System.step unpaired same) Steady system actions) :
    Unhurried (input ++ (system.received unpaired same actions).flatten)
      (Lib.run (System.step unpaired same) system actions) := by
  induction actions generalizing input system with
  | nil =>
    rw [show (system.received unpaired same []).flatten = [] from rfl, List.append_nil]
    exact h
  | cons action actions ih =>
    have hbyte := hbytes action List.mem_cons_self
    have hstep : Streams size unique (input ++ system.takes action) (system.step unpaired same action) :=
      ⟨hstreams.orderly.step unpaired same action, hstreams.intake.step unpaired same hbyte⟩
    have hrun := ih (h.step unpaired same hstreams.orderly.accounts hstreams.intake hbyte hsteady.1) hstep
      (fun other hmem => hbytes other (List.mem_cons_of_mem _ hmem)) hsteady.2
    rw [List.append_assoc] at hrun
    exact hrun

theorem Streams.new {options : ReadLineOptions} {start : System Callback} (hstart : System.new options = .ok start) :
    ∃ size unique, Streams size unique [] start ∧ Unhurried [] start := by
  obtain ⟨size, -, horderly⟩ := Orderly.new hstart
  unfold System.new at hstart
  cases hsize : options.checkedHistorySize with
  | error error =>
    rw [hsize] at hstart
    cases hstart
  | ok historySize =>
    rw [hsize] at hstart
    cases hstart
    refine ⟨size, _, ⟨horderly, .idle (fun _ hmem => by cases hmem) fun _ _ => ⟨fun _ => ?_, fun hended => by cases hended⟩⟩,
      .goes trivial (fun hpolled => by cases hpolled), ?_, fun hclosed => by cases hclosed⟩
    · exact ⟨rfl, [], rfl, fun _ => rfl⟩
    · rintro (hstirs | hstirs | ⟨code, hmem, -⟩)
      · cases hstirs
      · cases hstirs
      · cases hmem

end

end System

/-- However the bytes of the input are cut into chunks, and whatever is called in between: where nothing else is
written, nothing was refused and each LF followed its CR within the delay, the lines an open interface has given away
and those it holds are the lines of the decoded text, up to what the decoder holds back before the end, whenever its
functions are not in the middle of a piece. Where nobody pauses or closes the interface, it closes only behind the end of
the input, and then every line was given away. -/
theorem stream_lines (unpaired : List UInt16 → Error) (same : Callback → Callback → Bool)
    {options : ReadLineOptions} {start : System Callback} (hstart : System.new options = .ok start)
    (actions : List (System.Action Callback)) (hbytes : ∀ action ∈ actions, action.bytewise = true) :
    let system := Lib.run (System.step unpaired same) start actions
    let input := (start.received unpaired same actions).flatten
    (system.interface.closed = false → system.refused = false → Prompt system.feeds → system.atRest = true →
      system.delivered ++ system.interface.lines.left =
        LineBuffer.inputLines system.completed system.rest system.interface.lines.finished ∧
      ∃ text, lossy input = text ++ (if system.interface.lines.finished then [] else
        lossy system.interface.decoder.pending) ∧ Split (asBytes text) system.completed system.rest) ∧
    (Meets (System.step unpaired same) System.Steady start actions → system.interface.closed = true →
      system.interface.lines.finished = true ∧
      system.delivered = LineBuffer.inputLines system.completed system.rest true ∧
      (system.refused = false → Prompt system.feeds → Split (asBytes (lossy input)) system.completed system.rest)) := by
  intro system input
  obtain ⟨size, unique, hstreams, hunhurried⟩ := System.Streams.new hstart
  obtain ⟨horderly, hintake⟩ : System.Streams size unique input system := hstreams.run unpaired same hbytes
  refine ⟨fun hopen hkept hprompt hrest => ⟨horderly.accounts.lines hopen, ?_⟩, fun hsteady hclosed => ?_⟩
  · obtain ⟨-, carriageReturn, hfed, -⟩ := horderly.accounts.text hopen hkept hprompt
    have hsplit : Split system.fed system.completed system.rest := by
      rw [Lines.split_iff, hfed]
      exact ⟨rfl, rfl⟩
    have hstack : system.stack = [] ∨ ∃ stack, system.stack = .outside :: stack := by
      unfold System.atRest at hrest
      split at hrest
      · rename_i hstack
        exact .inl hstack
      · rename_i stack hstack
        exact .inr ⟨stack, hstack⟩
      · cases hrest
    obtain ⟨hgoing, hended⟩ := (hintake.rests hstack).2 hopen hkept
    cases hfinished : system.interface.lines.finished with
    | true =>
      refine ⟨lossy input, (List.append_nil _).symm, ?_⟩
      rw [hended hfinished]
      exact hsplit
    | false =>
      obtain ⟨-, front, hfront, htail⟩ := hgoing hfinished
      refine ⟨front, ?_, ?_⟩
      · have hwhole := htail []
        rw [List.append_nil, List.append_nil] at hwhole
        exact hwhole
      · rw [hfront]
        exact hsplit
  · have hrun : System.Unhurried input system := hunhurried.run unpaired same hstreams hbytes hsteady
    exact ⟨(hrun.calm (.inl hclosed)).1, hrun.final hclosed⟩

/-- A character in two chunks, and a last line that does not end. -/
def cutInput : List (System.Action Unit) :=
  [.data (.buffer [0xC3]), .go 0, .go 0, .go 0, .data (.buffer [0xA9, 10]), .go 0, .go 0, .go 0, .go 0, .go 0,
    .data (.buffer [98]), .go 0, .go 0, .go 0, .inputEnd, .go 0, .go 0, .go 0, .go 0, .go 0, .go 0, .go 0, .go 0,
    .go 0, .go 0, .go 0, .return, .go 0, .go 0, .go 0, .go 0]

theorem stream_lines_cut :
    ∃ start : System Unit, System.new {} = .ok start ∧
      let system := Lib.run (System.step (fun _ => ⟨""⟩) fun _ _ => true) start cutInput
      system.interface.closed = true ∧ system.delivered = [⟨[0xC3, 0xA9], true⟩, ⟨[98], false⟩] ∧
        Split (asBytes (lossy [0xC3, 0xA9, 10, 98])) system.completed system.rest := by
  refine ⟨_, rfl, rfl, rfl, ?_⟩
  have hbytes : ∀ action ∈ cutInput, action.bytewise = true := fun action hmem =>
    List.all_eq_true.mp (rfl : cutInput.all System.Action.bytewise = true) action hmem
  have hnear : Near [0, 0, 0, 0] := by
    unfold Near
    decide
  refine ((stream_lines (fun _ => ⟨""⟩) (fun _ _ => true)
    (rfl : (System.new {} : Except Error (System Unit)) = .ok _) cutInput hbytes).2 ?_ rfl).2.2 rfl (Near.prompt hnear)
  simp [cutInput, Meets, System.Steady]

end TsonicNode.Readline
