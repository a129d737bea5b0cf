import TsonicNode.Tls.Socket

/-!
# The life of a TLS socket

`progress_socket` empties the failure slot before the error's listeners run, and
a read of a socket whose native side has failed fills it again; and it looks for
an end of the read or the write side before it looks for the close. So an error
may come twice or behind `close`, and `end` and `finish` behind `close`.
`Fitting` leaves out the steps from which this comes. In a run of other steps
every event of the socket's life comes once and nothing after `close`
(`life_orderly`): `Account` says what the socket's flags have to do with what was
emitted, and each piece of `progress_socket` keeps it.
-/

namespace TsonicNode.Tls

open TsonicNode.Lib

/-- What the listeners are promised. -/
structure Orderly (log : List Event) : Prop where
  secure : log.count .secure ≤ 1
  ended : log.count .ended ≤ 1
  finish : log.count .finish ≤ 1
  close : log.count .close ≤ 1
  error : log.countP Event.isError ≤ 1
  last : ∀ before after, log = before ++ .close :: after → after = []

namespace Socket

/-- The native side has failed, and its error was delivered or the close was. -/
def Late (socket : Socket) : Prop :=
  socket.native.failed = true ∧
    (socket.closeNotified = true ∨ socket.hadError = true ∧ socket.failure = none)

/-- An end of the read or the write side that still has to be emitted. -/
def Owes (socket : Socket) : Prop :=
  socket.native.readEnded = true ∧ socket.endNotified = false ∧ socket.hadError = false ∨
    socket.native.writeEnded = true ∧ socket.finishNotified = false

end Socket

/-- The steps that lead to no event out of its order: the program does not read from a socket whose
failure it has been told, and when the close is emitted no end is left to be. -/
def Fitting (system : System) : Move → Prop
  | .goOn _ => system.point = .closing → system.socket.closed = true →
      system.socket.closeNotified = false → ¬ system.socket.Owes
  | .call (.read _) => system.callable = true → ¬ system.socket.Late
  | _ => True

/-! ## What a piece leaves as it is -/

/-- A later state of the native socket. -/
structure Native.Later (native native' : Native) : Prop where
  lost : native.Lost → native'.Lost
  closed : native.closed = true → native'.closed = true ∧ native'.failed = native.failed ∧
    native'.readEnded = native.readEnded ∧ native'.writeEnded = native.writeEnded

namespace Native

variable {native : Native}

theorem Later.of_outcome {α : Type} {result : Except (Option String) α × Native}
    (houtcome : native.Lost → Outcome result) (hclosed : native.closed = true → result.2 = native) :
    native.Later result.2 where
  lost h := (houtcome h).lost
  closed h := by
    rw [hclosed h]
    exact ⟨h, rfl, rfl, rfl⟩

theorem progress_later (answers : ProgressAnswers) (native : Native) :
    native.Later (native.progress answers).2 :=
  .of_outcome (progress_outcome answers) fun h => by rw [progress_closed h]

theorem read_later (answers : ReadAnswers) (native : Native) : native.Later (native.read answers).2 :=
  .of_outcome (read_outcome answers) read_closed

theorem peek_later (answers : ReadAnswers) (native : Native) : native.Later (native.peek answers).2 :=
  .of_outcome (peek_outcome answers) fun h => by
    unfold peek
    rw [progress_closed h]
    cases native.failed with
    | true => rfl
    | false =>
      rw [if_neg Bool.false_ne_true]
      dsimp only
      rw [if_pos (Or.inr h)]

theorem endWrites_later (answers : ProgressAnswers) (native : Native) :
    native.Later (native.endWrites answers).2 where
  lost h := (@progress_outcome answers { native with ending := true } h).lost
  closed h := by
    unfold endWrites
    rw [@progress_closed answers { native with ending := true } h]
    exact ⟨h, rfl, rfl, rfl⟩

theorem finishResponse_later (answers : ProgressAnswers) (native : Native) :
    native.Later (native.finishResponse answers).2 where
  lost h := (endWrites_later answers { native with closeAfterFlush := true }).lost h
  closed h := (endWrites_later answers { native with closeAfterFlush := true }).closed h

theorem write_later (length : Nat) (allocated : Bool) (native : Native) :
    native.Later (native.write length allocated).2 := by
  unfold write
  dsimp only
  split_ifs <;> exact ⟨id, fun h => ⟨h, rfl, rfl, rfl⟩⟩

theorem destroy_later (native : Native) : native.Later native.destroy where
  lost _ _ := rfl
  closed _ := ⟨rfl, rfl, rfl, rfl⟩

/-- A read that raises closes the socket, and raises on a closed one only if that has failed. -/
theorem read_raises {answers : ReadAnswers} {error : Option String} {native' : Native}
    (hlost : native.Lost) (h : native.read answers = (.error error, native')) :
    native.failed = true ∨ native.closed = false := by
  by_contra hnot
  rw [not_or, Bool.not_eq_true, Bool.not_eq_false] at hnot
  have hfailed := (read_outcome answers hlost).failed.mp ⟨error, by rw [h]⟩
  rw [read_closed hnot.2, hnot.1] at hfailed
  cases hfailed

end Native

namespace Socket

/-- A later state of the socket: nothing was emitted, and no failure was recorded. -/
structure Quiet (socket socket' : Socket) : Prop where
  native : socket.native.Later socket'.native
  secure : socket'.secureNotified = socket.secureNotified
  ended : socket'.endNotified = socket.endNotified
  finish : socket'.finishNotified = socket.finishNotified
  close : socket'.closeNotified = socket.closeNotified
  failure : socket'.failure = socket.failure
  hadError : socket'.hadError = socket.hadError

/-- A piece that only replaces the native socket, as far as events are concerned. -/
theorem Quiet.same {socket socket' : Socket} (hnative : socket'.native = socket.native)
    (hsecure : socket'.secureNotified = socket.secureNotified)
    (hended : socket'.endNotified = socket.endNotified)
    (hfinish : socket'.finishNotified = socket.finishNotified)
    (hclose : socket'.closeNotified = socket.closeNotified)
    (hfailure : socket'.failure = socket.failure) (hhadError : socket'.hadError = socket.hadError) :
    Quiet socket socket' where
  native := by
    rw [hnative]
    exact ⟨id, fun h => ⟨h, rfl, rfl, rfl⟩⟩
  secure := hsecure
  ended := hended
  finish := hfinish
  close := hclose
  failure := hfailure
  hadError := hhadError

theorem Quiet.trans {a b c : Socket} (h : Quiet a b) (h' : Quiet b c) : Quiet a c where
  native := {
    lost := fun hlost => h'.native.lost (h.native.lost hlost)
    closed := fun hclosed => by
      obtain ⟨hb, hfailed, hread, hwrite⟩ := h.native.closed hclosed
      obtain ⟨hc, hfailed', hread', hwrite'⟩ := h'.native.closed hb
      exact ⟨hc, hfailed'.trans hfailed, hread'.trans hread, hwrite'.trans hwrite⟩ }
  secure := h'.secure.trans h.secure
  ended := h'.ended.trans h.ended
  finish := h'.finish.trans h.finish
  close := h'.close.trans h.close
  failure := h'.failure.trans h.failure
  hadError := h'.hadError.trans h.hadError

/-- A failure may be recorded: the close was not emitted, nor an earlier failure. -/
def MayFail (socket : Socket) : Prop :=
  socket.closeNotified = false ∧ (socket.hadError = true → socket.failure ≠ none)

theorem MayFail.quiet {socket socket' : Socket} (h : socket.MayFail) (hquiet : Quiet socket socket') :
    socket'.MayFail := by
  unfold MayFail
  rw [hquiet.close, hquiet.hadError, hquiet.failure]
  exact h

end Socket

/-! ## What was emitted -/

/-- What the flags of the socket say about what was emitted. -/
structure Account (socket : Socket) (log : List Event) : Prop where
  lost : socket.native.Lost
  secure : log.count .secure ≤ socket.secureNotified.toNat
  ended : log.count .ended ≤ socket.endNotified.toNat
  finish : log.count .finish ≤ socket.finishNotified.toNat
  /-- Errors that were delivered, or wait, are recorded. -/
  errors : log.countP Event.isError + socket.failure.isSome.toNat = socket.hadError.toNat
  failed : socket.hadError = true → socket.closed = true
  closed : socket.closeNotified = true → socket.closed = true
  unclosed : socket.closeNotified = false → .close ∉ log
  settled : socket.closeNotified = true → socket.failure = none ∧ ¬ socket.Owes ∧
    ∃ before, log = before ++ [.close] ∧ .close ∉ before

namespace Account

variable {socket socket' : Socket} {log : List Event}

theorem orderly (h : Account socket log) : Orderly log := by
  have hbool : ∀ b : Bool, b.toNat ≤ 1 := fun b => by cases b <;> decide
  have hcloses : log.count .close ≤ 1 ∧ ∀ before after, log = before ++ .close :: after → after = [] := by
    cases hclose : socket.closeNotified with
    | false =>
      have hnone := h.unclosed hclose
      refine ⟨by rw [List.count_eq_zero.mpr hnone]; exact Nat.zero_le _, ?_⟩
      rintro before after rfl
      exact absurd (List.mem_append_right _ List.mem_cons_self) hnone
    | true =>
      obtain ⟨-, -, before, rfl, hbefore⟩ := h.settled hclose
      refine ⟨?_, ?_⟩
      · rw [List.count_append, List.count_eq_zero.mpr hbefore]
        decide
      · intro front after heq
        rcases List.eq_nil_or_concat after with rfl | ⟨middle, event, rfl⟩
        · rfl
        · rw [List.concat_eq_append, ← List.cons_append, ← List.append_assoc] at heq
          obtain ⟨rfl, -⟩ := List.append_inj' heq rfl
          exact absurd (List.mem_append_right _ List.mem_cons_self) hbefore
  exact {
    secure := h.secure.trans (hbool _)
    ended := h.ended.trans (hbool _)
    finish := h.finish.trans (hbool _)
    close := hcloses.1
    error := (Nat.le_add_right ..).trans (h.errors.le.trans (hbool _))
    last := hcloses.2 }

/-- An open socket may fail. -/
theorem mayFail (h : Account socket log) (hopen : socket.closed = false) : socket.MayFail := by
  constructor
  · rw [← Bool.not_eq_true]
    intro hclose
    rw [h.closed hclose] at hopen
    cases hopen
  · intro hhadError
    rw [h.failed hhadError] at hopen
    cases hopen

theorem quiet (h : Account socket log) (hquiet : socket.Quiet socket') : Account socket' log where
  lost := hquiet.native.lost h.lost
  secure := by rw [hquiet.secure]; exact h.secure
  ended := by rw [hquiet.ended]; exact h.ended
  finish := by rw [hquiet.finish]; exact h.finish
  errors := by rw [hquiet.failure, hquiet.hadError]; exact h.errors
  failed hhadError := (hquiet.native.closed (h.failed (hquiet.hadError ▸ hhadError))).1
  closed hclose := (hquiet.native.closed (h.closed (hquiet.close ▸ hclose))).1
  unclosed hclose := h.unclosed (hquiet.close ▸ hclose)
  settled hclose := by
    rw [hquiet.close] at hclose
    obtain ⟨hfailure, howes, hlog⟩ := h.settled hclose
    obtain ⟨-, -, hread, hwrite⟩ := hquiet.native.closed (h.closed hclose)
    refine ⟨hquiet.failure.trans hfailure, ?_, hlog⟩
    unfold Socket.Owes
    rw [hread, hwrite, hquiet.ended, hquiet.finish, hquiet.hadError]
    exact howes

theorem fail (h : Account socket log) (hmay : socket.MayFail) (error : Error) :
    Account (socket.fail error) log := by
  obtain ⟨hclose, hfailure⟩ := hmay
  refine ⟨fun _ => rfl, h.secure, h.ended, h.finish, ?_, fun _ => rfl, fun _ => rfl, h.unclosed, ?_⟩
  · show log.countP Event.isError + (socket.failure.or (some error)).isSome.toNat = Bool.toNat true
    have herrors := h.errors
    cases hhad : socket.hadError with
    | false =>
      rw [hhad] at herrors
      have : log.countP Event.isError = 0 := Nat.le_zero.mp ((Nat.le_add_right ..).trans herrors.le)
      rw [this]
      cases socket.failure <;> rfl
    | true =>
      obtain ⟨first, hfirst⟩ := Option.ne_none_iff_exists'.mp (hfailure hhad)
      rw [hfirst, hhad] at herrors
      rw [hfirst]
      exact herrors
  · exact fun hnotified => absurd hnotified (by rw [Bool.not_eq_true]; exact hclose)

/-- While the close was not emitted, nothing is settled. -/
theorem not_settled {P : Prop} (hclose : socket.closeNotified = false) :
    socket.closeNotified = true → P := by
  intro hnotified
  rw [hclose] at hnotified
  cases hnotified

theorem unclosed_append (h : Account socket log) (hclose : socket.closeNotified = false)
    {event : Event} (hevent : event ≠ .close) : .close ∉ log ++ [event] := by
  intro hmem
  rcases List.mem_append.mp hmem with hmem | hmem
  · exact h.unclosed hclose hmem
  · exact hevent (List.mem_singleton.mp hmem).symm

/-- An event that has no flag. -/
theorem plain (h : Account socket log) (hclose : socket.closeNotified = false) {event : Event}
    (hevent : event = .data ∨ event = .readable ∨ event = .drain ∨ event = .timeout) :
    Account socket (log ++ [event]) := by
  refine ⟨h.lost, ?_, ?_, ?_, ?_, h.failed, h.closed, ?_, ?_⟩
  · rw [List.count_append]
    rcases hevent with rfl | rfl | rfl | rfl <;> exact h.secure
  · rw [List.count_append]
    rcases hevent with rfl | rfl | rfl | rfl <;> exact h.ended
  · rw [List.count_append]
    rcases hevent with rfl | rfl | rfl | rfl <;> exact h.finish
  · rw [List.countP_append]
    rcases hevent with rfl | rfl | rfl | rfl <;> exact h.errors
  · rcases hevent with rfl | rfl | rfl | rfl <;> exact fun _ => h.unclosed_append hclose (by decide)
  · exact not_settled hclose

/-- The handshake is reported. -/
theorem emitSecure (h : Account socket log) (hclose : socket.closeNotified = false)
    (hsecure : log.count .secure = 0) (hnotified : socket.secureNotified = true) :
    Account socket (log ++ [.secure]) := by
  refine ⟨h.lost, ?_, ?_, ?_, ?_, h.failed, h.closed, fun _ => h.unclosed_append hclose (by decide),
    not_settled hclose⟩
  · rw [List.count_append, hsecure, hnotified]
    decide
  · rw [List.count_append]
    exact h.ended
  · rw [List.count_append]
    exact h.finish
  · rw [List.countP_append]
    exact h.errors

/-- The end of the read side is reported. -/
theorem emitEnded (h : Account socket log) (hclose : socket.closeNotified = false)
    (hended : log.count .ended = 0) (hnotified : socket.endNotified = true) :
    Account socket (log ++ [.ended]) := by
  refine ⟨h.lost, ?_, ?_, ?_, ?_, h.failed, h.closed, fun _ => h.unclosed_append hclose (by decide),
    not_settled hclose⟩
  · rw [List.count_append]
    exact h.secure
  · rw [List.count_append, hended, hnotified]
    decide
  · rw [List.count_append]
    exact h.finish
  · rw [List.countP_append]
    exact h.errors

/-- The end of the write side is reported. -/
theorem emitFinish (h : Account socket log) (hclose : socket.closeNotified = false)
    (hfinish : socket.finishNotified = false) :
    Account { socket with finishNotified := true } (log ++ [.finish]) := by
  have hnone : log.count .finish = 0 := by
    have := h.finish
    rw [hfinish] at this
    exact Nat.le_zero.mp this
  refine ⟨h.lost, ?_, ?_, ?_, ?_, h.failed, h.closed, fun _ => h.unclosed_append hclose (by decide),
    not_settled hclose⟩
  · rw [List.count_append]
    exact h.secure
  · rw [List.count_append]
    exact h.ended
  · rw [List.count_append, hnone]
    exact Nat.le_refl 1
  · rw [List.countP_append]
    exact h.errors

/-- The failure is delivered, to listeners or raised. -/
theorem deliver (h : Account socket log) (hclose : socket.closeNotified = false) {error : Error}
    (hfailure : socket.failure = some error) {event : Event} (hevent : event.isError = true) :
    Account { socket with failure := none } (log ++ [event]) := by
  have hcount : ∀ other, other.isError = false → List.count other [event] = 0 := by
    intro other hother
    refine List.count_eq_zero.mpr fun hmem => ?_
    rw [List.mem_singleton.mp hmem, hevent] at hother
    cases hother
  refine ⟨h.lost, ?_, ?_, ?_, ?_, h.failed, h.closed, fun _ => h.unclosed_append hclose ?_,
    not_settled hclose⟩
  · rw [List.count_append, hcount _ rfl]
    exact h.secure
  · rw [List.count_append, hcount _ rfl]
    exact h.ended
  · rw [List.count_append, hcount _ rfl]
    exact h.finish
  · have herrors := h.errors
    rw [hfailure] at herrors
    rw [List.countP_append, List.countP_singleton, if_pos hevent]
    exact herrors
  · rintro rfl
    cases hevent

/-- The close is emitted. -/
theorem emitClose (h : Account socket log) (hclosed : socket.closed = true)
    (hclose : socket.closeNotified = false) (hfailure : socket.failure = none)
    (howes : ¬ socket.Owes) :
    Account { socket with closeNotified := true } (log ++ [.close]) := by
  refine ⟨h.lost, ?_, ?_, ?_, ?_, h.failed, fun _ => hclosed, ?_,
    fun _ => ⟨hfailure, howes, log, rfl, h.unclosed hclose⟩⟩
  · rw [List.count_append]
    exact h.secure
  · rw [List.count_append]
    exact h.ended
  · rw [List.count_append]
    exact h.finish
  · rw [List.countP_append]
    exact h.errors
  · rintro ⟨⟩

end Account

/-! ## The pieces -/

namespace Socket

variable {socket : Socket} {log : List Event}

theorem Quiet.of_native {native : Native} (h : socket.native.Later native) :
    Quiet socket { socket with native } :=
  ⟨h, rfl, rfl, rfl, rfl, rfl, rfl⟩

theorem progress_quiet (answers : ProgressAnswers) (socket : Socket) :
    Quiet socket (socket.progress answers).2 := by
  have hlater := Native.progress_later answers socket.native
  unfold progress
  split <;> rename_i heq <;> rw [heq] at hlater <;> exact .of_native hlater

theorem peek_quiet (answers : Native.ReadAnswers) (socket : Socket) :
    Quiet socket (socket.peek answers).2 := by
  have hlater := Native.peek_later answers socket.native
  unfold peek
  split <;> rename_i heq <;> rw [heq] at hlater <;> exact .of_native hlater

theorem schedule_quiet (socket : Socket) : Quiet socket socket.schedule :=
  .same rfl rfl rfl rfl rfl rfl rfl

theorem endWrites_quiet (answers : ProgressAnswers) (socket : Socket) :
    Quiet socket (socket.endWrites answers).2 := by
  have hlater := Native.endWrites_later answers socket.native
  unfold endWrites
  split <;> rename_i heq <;> rw [heq] at hlater
  · exact .of_native hlater
  · exact (Quiet.of_native hlater).trans (schedule_quiet _)

theorem finishResponse_quiet (answers : ProgressAnswers) (socket : Socket) :
    Quiet socket (socket.finishResponse answers).2 := by
  have hlater := Native.finishResponse_later answers socket.native
  unfold finishResponse
  split <;> rename_i heq <;> rw [heq] at hlater
  · exact .of_native hlater
  · exact (Quiet.of_native hlater).trans (schedule_quiet _)

theorem write_quiet (length : Nat) (allocated : Bool) (socket : Socket) :
    Quiet socket (socket.write length allocated).2 := by
  have hlater := Native.write_later length allocated socket.native
  unfold write
  split <;> rename_i heq <;> rw [heq] at hlater
  · exact .of_native hlater
  · exact ⟨hlater, rfl, rfl, rfl, rfl, rfl, rfl⟩

theorem destroy_quiet (socket : Socket) : Quiet socket socket.destroy :=
  ⟨Native.destroy_later socket.native, rfl, rfl, rfl, rfl, rfl, rfl⟩

theorem setNoDelay_quiet (enabled : Bool) (status : Int) (socket : Socket) :
    Quiet socket (socket.setNoDelay enabled status).2 := by
  unfold setNoDelay
  dsimp only
  split <;> exact .same rfl rfl rfl rfl rfl rfl rfl

theorem setTimeout_quiet (timeout now : ℚ) (socket : Socket) :
    Quiet socket (socket.setTimeout timeout now).2 := by
  unfold setTimeout
  split_ifs <;> exact .same rfl rfl rfl rfl rfl rfl rfl

theorem noteActivity_quiet (now : ℚ) (socket : Socket) : Quiet socket (socket.noteActivity now) := by
  unfold noteActivity
  split_ifs <;> exact .same rfl rfl rfl rfl rfl rfl rfl

theorem latestActivity_quiet (now : ℚ) (socket : Socket) : Quiet socket (socket.latestActivity now) := by
  unfold latestActivity
  split_ifs <;> exact .same rfl rfl rfl rfl rfl rfl rfl

/-- A read: the failure it may record was not to be expected. -/
theorem read_account (h : Account socket log) (answers : Native.ReadAnswers) (hlate : ¬ socket.Late) :
    Account (socket.read answers).2 log := by
  have hlater := Native.read_later answers socket.native
  unfold read
  dsimp only
  split
  · rename_i error native heq
    rw [heq] at hlater
    have hquiet : Quiet socket { socket with readableNotified := false, native } :=
      ⟨hlater, rfl, rfl, rfl, rfl, rfl, rfl⟩
    have hmay : socket.MayFail := by
      rcases Native.read_raises h.lost heq with hfailed | hopen
      · unfold Late at hlate
        rw [not_and, not_or, Bool.not_eq_true, not_and] at hlate
        exact hlate hfailed
      · exact h.mayFail hopen
    exact (h.quiet hquiet).fail (hmay.quiet hquiet) _
  · rename_i count native heq
    rw [heq] at hlater
    exact h.quiet ⟨hlater, rfl, rfl, rfl, rfl, rfl, rfl⟩

theorem perform_account (h : Account socket log) {call : Call}
    (hfits : ∀ answers, call = .read answers → ¬ socket.Late) :
    Account (socket.perform call) log := by
  cases call with
  | read answers => exact read_account h answers (hfits answers rfl)
  | write length allocated => exact h.quiet (write_quiet ..)
  | endWrites answers => exact h.quiet (endWrites_quiet ..)
  | finishResponse answers => exact h.quiet (finishResponse_quiet ..)
  | destroy => exact h.quiet (destroy_quiet _)
  | pause => exact h.quiet (.same rfl rfl rfl rfl rfl rfl rfl)
  | resume => exact h.quiet (.same rfl rfl rfl rfl rfl rfl rfl)
  | onData =>
    refine h.quiet ?_
    show Quiet socket socket.onData
    unfold onData
    split_ifs <;> exact .same rfl rfl rfl rfl rfl rfl rfl
  | setNoDelay enabled status => exact h.quiet (setNoDelay_quiet ..)
  | setTimeout timeout now => exact h.quiet (setTimeout_quiet ..)

end Socket

/-! ## The run -/

/-- The invariant of a run. -/
structure Sound (system : System) : Prop where
  account : Account system.socket system.log
  /-- Between the check for the failure and that for the close there is none. -/
  closing : system.point = .closing → system.socket.failure = none ∧
    (system.listening = true → system.socket.hadError = true)

namespace Sound

variable {system : System} {socket : Socket}

theorem start (opening : Opening) : Sound (.start opening) where
  account := by
    refine ⟨?_, Nat.zero_le _, Nat.zero_le _, Nat.zero_le _, rfl, nofun, nofun, fun _ => nofun, nofun⟩
    rintro hfailed
    unfold System.start at hfailed
    dsimp only at hfailed
    split at hfailed <;> cases hfailed
  closing := nofun

/-- The check is passed, and another one comes next. -/
theorem pass {point : Point} (h : Account socket system.log) (hpoint : point ≠ .closing) :
    Sound (system.pass point socket) :=
  ⟨h, fun hclosing => absurd hclosing hpoint⟩

/-- An event is emitted, and another check comes next. -/
theorem emit {event : Event} {point : Point} (h : Account socket (system.log ++ [event]))
    (hpoint : point ≠ .closing) : Sound (system.emit event point socket) :=
  ⟨h, fun hclosing => absurd hclosing hpoint⟩

theorem advance (h : Account socket system.log) (answers : Answers) :
    Account (socket.advance answers) system.log := by
  unfold Socket.advance
  split_ifs with hclosed htime
  · exact h
  · exact h.fail (h.mayFail (by simpa using hclosed)) _
  · have hquiet := socket.progress_quiet answers.progress
    have hmay := h.mayFail (by simpa using hclosed)
    split <;> rename_i heq <;> rw [heq] at hquiet
    · exact (h.quiet hquiet).fail (hmay.quiet hquiet) _
    · exact h.quiet hquiet

/-- The handshake's end, up to its event. -/
theorem secured (h : Account socket system.log) (hopen : socket.closed = false)
    (hnotified : socket.secureNotified = false) (answers : Answers) :
    Account (socket.secured answers) system.log ∧ (socket.secured answers).closeNotified = false ∧
      (socket.secured answers).secureNotified = true ∧ system.log.count .secure = 0 := by
  have hnone : system.log.count .secure = 0 := by
    have := h.secure
    rw [hnotified] at this
    exact Nat.le_zero.mp this
  have hmay : Socket.MayFail
      { socket with secureNotified := true, nativeOwner := false, serverErrors := false } := h.mayFail hopen
  have hflag : Account { socket with secureNotified := true, nativeOwner := false, serverErrors := false }
      system.log :=
    ⟨h.lost, hnone.le.trans (Nat.zero_le _), h.ended, h.finish, h.errors, h.failed, h.closed, h.unclosed,
      h.settled⟩
  unfold Socket.secured
  dsimp only
  split
  · exact ⟨hflag, hmay.1, rfl, hnone⟩
  · rename_i enabled _
    have hquiet := Socket.setNoDelay_quiet enabled answers.noDelay
      { socket with secureNotified := true, nativeOwner := false, serverErrors := false }
    split <;> rename_i heq <;> rw [heq] at hquiet
    · exact ⟨(hflag.quiet hquiet).fail (hmay.quiet hquiet) _, hquiet.close.trans hmay.1, hquiet.secure, hnone⟩
    · exact ⟨hflag.quiet hquiet, hquiet.close.trans hmay.1, hquiet.secure, hnone⟩

/-- The end of the read side, with its event. -/
theorem endReads (h : Account socket system.log) (hread : socket.native.readEnded = true)
    (hended : socket.endNotified = false) (hhadError : socket.hadError = false) (answers : Answers) :
    Account (socket.endReads answers) (system.log ++ [.ended]) := by
  have hnone : system.log.count .ended = 0 := by
    have := h.ended
    rw [hended] at this
    exact Nat.le_zero.mp this
  have hclose : socket.closeNotified = false := by
    rw [← Bool.not_eq_true]
    exact fun hclose => (h.settled hclose).2.1 (.inl ⟨hread, hended, hhadError⟩)
  have hmay : Socket.MayFail { socket with endNotified := true } :=
    ⟨hclose, fun hhad => absurd hhad (by rw [Bool.not_eq_true]; exact hhadError)⟩
  have hflag : Account { socket with endNotified := true } system.log :=
    ⟨h.lost, h.secure, hnone.le.trans (Nat.zero_le _), h.finish, h.errors, h.failed, h.closed, h.unclosed,
      Account.not_settled hclose⟩
  unfold Socket.endReads
  dsimp only
  split
  · exact hflag.emitEnded hclose hnone rfl
  · have hquiet := Socket.endWrites_quiet answers.progress { socket with endNotified := true }
    split <;> rename_i heq <;> rw [heq] at hquiet
    · exact ((hflag.quiet hquiet).fail (hmay.quiet hquiet) _).emitEnded (hquiet.close.trans hclose) hnone
        hquiet.ended
    · exact (hflag.quiet hquiet).emitEnded (hquiet.close.trans hclose) hnone hquiet.ended

theorem closeNotified_of_open (h : Account socket system.log) (hopen : socket.closed = false) :
    socket.closeNotified = false :=
  (h.mayFail hopen).1

/-- A read of the loop. -/
theorem flowing (h : Account socket system.log) (hopen : socket.closed = false)
    (answers : Native.ReadAnswers) : Account (socket.read answers).2 system.log ∧
      (socket.read answers).2.closeNotified = false ∧
      ((∃ error, (socket.read answers).1 = .error error) → (socket.read answers).2.MayFail) := by
  have hlate : ¬ socket.Late := fun hlate => by
    rw [Socket.closed, h.lost hlate.1] at hopen
    cases hopen
  refine ⟨Socket.read_account h answers hlate, ?_, ?_⟩
  · unfold Socket.read
    dsimp only
    split <;> exact (h.mayFail hopen).1
  · unfold Socket.read
    dsimp only
    split
    · rename_i error native _
      refine fun _ => ⟨(h.mayFail hopen).1, fun _ => ?_⟩
      show socket.failure.or (some _) ≠ none
      cases socket.failure <;> nofun
    · rintro ⟨error, ⟨⟩⟩

/-- One step of `progress_socket`, check by check. -/
theorem goOn (h : Sound system) (answers : Answers) (hfits : Fitting system (.goOn answers)) :
    Sound (system.goOn answers) := by
  have haccount := h.account
  unfold System.goOn
  dsimp only
  cases hpoint : system.point with
  | idle => exact pass ((advance haccount answers).quiet (Socket.noteActivity_quiet ..)) nofun
  | secure =>
    dsimp only
    split_ifs with hready hclosed
    · exact pass (secured haccount (by simp_all) (by simp_all) answers).1 nofun
    · obtain ⟨hsecured, hclose, hnotified, hnone⟩ := secured haccount (by simp_all) (by simp_all) answers
      refine emit ?_ nofun
      exact (hsecured.emitSecure hclose hnone hnotified).quiet (.same rfl rfl rfl rfl rfl rfl rfl)
    · exact pass haccount nofun
  | reading =>
    dsimp only
    split_ifs with hready hpaused hflowing
    · exact pass haccount nofun
    · have hopen : system.socket.closed = false := by simp_all
      have hquiet := Socket.peek_quiet answers.read system.socket
      have hmay := haccount.mayFail hopen
      split <;> rename_i heq <;> rw [heq] at hquiet
      · exact pass ((haccount.quiet hquiet).fail (hmay.quiet hquiet) _) nofun
      · split_ifs
        · refine emit ?_ nofun
          exact ((haccount.quiet hquiet).plain (hmay.quiet hquiet).1 (.inr (.inl rfl))).quiet
            (.same rfl rfl rfl rfl rfl rfl rfl)
        · exact pass (haccount.quiet hquiet) nofun
    · exact pass haccount nofun
    · exact pass haccount nofun
  | flowing received =>
    dsimp only
    split_ifs with hloop
    · obtain ⟨hread, hclose, hmay⟩ := flowing haccount (by simp_all) answers.read
      split <;> rename_i heq <;> rw [heq] at hread hclose hmay
      · exact pass (hread.fail (hmay ⟨_, rfl⟩) _) nofun
      · exact pass hread nofun
      · exact emit (hread.plain hclose (.inl rfl)) nofun
    · exact pass haccount nofun
  | drain =>
    dsimp only
    split_ifs with hdrain
    · have hclose := closeNotified_of_open haccount (by simp_all)
      refine emit ?_ nofun
      exact (haccount.plain hclose (.inr (.inr (.inl rfl)))).quiet (.same rfl rfl rfl rfl rfl rfl rfl)
    · exact pass haccount nofun
  | ending =>
    dsimp only
    split_ifs with hended
    · exact emit (endReads haccount (by simp_all) (by simp_all) (by simp_all) answers) nofun
    · exact pass haccount nofun
  | finishing =>
    dsimp only
    split_ifs with hfinish
    · rw [Bool.and_eq_true, Bool.not_eq_true'] at hfinish
      have hclose : system.socket.closeNotified = false := by
        rw [← Bool.not_eq_true]
        exact fun hclose => (haccount.settled hclose).2.1 (.inr hfinish)
      exact emit (haccount.emitFinish hclose hfinish.2) nofun
    · exact pass haccount nofun
  | timeout =>
    dsimp only
    split_ifs with harmed hlate
    · have hquiet := Socket.latestActivity_quiet answers.now system.socket
      have hclose := closeNotified_of_open haccount (by simp_all)
      refine emit ?_ nofun
      exact ((haccount.quiet hquiet).plain (hquiet.close.trans hclose) (.inr (.inr (.inr rfl)))).quiet
        (.same rfl rfl rfl rfl rfl rfl rfl)
    · exact pass (haccount.quiet (Socket.latestActivity_quiet ..)) nofun
    · exact pass haccount nofun
  | failure =>
    dsimp only
    cases hfailure : system.socket.failure with
    | none => exact ⟨haccount, fun _ => ⟨hfailure, nofun⟩⟩
    | some error =>
      have hclose : system.socket.closeNotified = false := by
        rw [← Bool.not_eq_true]
        intro hclose
        rw [(haccount.settled hclose).1] at hfailure
        cases hfailure
      have hhadError : system.socket.hadError = true := by
        have herrors := haccount.errors
        rw [hfailure] at herrors
        cases hhad : system.socket.hadError with
        | true => rfl
        | false =>
          rw [hhad] at herrors
          cases herrors
      dsimp only
      split_ifs
      · refine ⟨?_, fun _ => ⟨rfl, fun _ => hhadError⟩⟩
        exact (haccount.deliver hclose hfailure rfl).quiet (.same rfl rfl rfl rfl rfl rfl rfl)
      · exact ⟨haccount.deliver hclose hfailure rfl, fun _ => ⟨rfl, fun _ => hhadError⟩⟩
      · exact emit (haccount.deliver hclose hfailure rfl) nofun
  | closing =>
    dsimp only
    split_ifs with hclosed
    · rw [Bool.and_eq_true, Bool.not_eq_true'] at hclosed
      refine emit ?_ nofun
      exact haccount.emitClose hclosed.1 hclosed.2 (h.closing hpoint).1 (hfits hpoint hclosed.1 hclosed.2)
    · exact pass haccount nofun

/-- Between the failure's listeners and the close no call leaves a failure. -/
theorem call (h : Sound system) {call : Call} (hcallable : system.callable = true)
    (hfits : Fitting system (.call call)) :
    Sound { system with socket := system.socket.perform call } := by
  have haccount : Account (system.socket.perform call) system.log := by
    refine Socket.perform_account h.account ?_
    rintro answers rfl
    exact hfits hcallable
  refine ⟨haccount, fun hclosing => ?_⟩
  obtain ⟨hfailure, hhadError⟩ := h.closing hclosing
  have hlistening : system.listening = true := by
    unfold System.callable at hcallable
    rw [hclosing] at hcallable
    exact hcallable
  have hbefore := h.account.errors
  have hafter := haccount.errors
  rw [hfailure, hhadError hlistening] at hbefore
  dsimp only
  cases hleft : (system.socket.perform call).failure with
  | none =>
    refine ⟨rfl, fun _ => ?_⟩
    rw [hleft] at hafter
    cases hhad : (system.socket.perform call).hadError with
    | true => rfl
    | false =>
      rw [hhad] at hafter
      exact absurd (hbefore.symm.trans hafter) (by decide)
  | some error =>
    rw [hleft] at hafter
    have hmost : (system.socket.perform call).hadError.toNat ≤ 1 := Bool.toNat_le _
    have hbefore : system.log.countP Event.isError = 1 := hbefore
    have hafter : system.log.countP Event.isError + 1 = (system.socket.perform call).hadError.toNat :=
      hafter
    omega

theorem prune (h : Sound system) : Sound { system with socket := system.socket.prune } := by
  have hprune : system.socket.Quiet system.socket.prune := by
    unfold Socket.prune
    split <;> exact .same rfl rfl rfl rfl rfl rfl rfl
  refine ⟨h.account.quiet hprune, fun hclosing => ?_⟩
  rw [hprune.failure, hprune.hadError]
  exact h.closing hclosing

theorem step (h : Sound system) (move : Move) (hfits : Fitting system move) :
    Sound (system.step move) := by
  cases move with
  | goOn answers => exact h.goOn answers hfits
  | call call =>
    unfold System.step
    dsimp only
    split
    · rename_i hcallable
      exact h.call hcallable hfits
    · exact h
  | prune =>
    unfold System.step
    dsimp only
    split
    · exact h.prune
    · exact h

end Sound

/-- In every run whose steps fit, the events of a socket's life come once and nothing comes after the
close. -/
theorem life_orderly (opening : Opening) (moves : List Move)
    (h : Meets System.step Fitting (.start opening) moves) :
    Orderly (run System.step (.start opening) moves).log := by
  have hsound : Sound (run System.step (.start opening) moves) :=
    run_invariant (P := Sound) (fun _ move hsound hfits => hsound.step move hfits) (.start opening) h
  exact hsound.account.orderly

/-- A client whose connection is refused, up to the failure's listeners. -/
def refused : List Move :=
  [.goOn { progress := { endpoint := -1, strerror := "connection refused" } }, .goOn {}, .goOn {},
    .goOn {}, .goOn {}, .goOn {}, .goOn { errorListeners := true }]

/-- They destroy the socket, and it is closed. -/
theorem life_orderly_refused :
    Orderly (run System.step (.start ⟨false, false, 0⟩) (refused ++ [.call .destroy, .goOn {}])).log := by
  refine life_orderly ⟨false, false, 0⟩ (refused ++ [.call .destroy, .goOn {}]) ?_
  refine ⟨nofun, nofun, nofun, nofun, nofun, nofun, nofun, trivial, ?_, trivial⟩
  rintro - - - (⟨hread, -⟩ | ⟨hwrite, -⟩)
  · cases hread
  · cases hwrite

/-- They read, and the failure is kept for the next call. -/
def refusedRead : List Move :=
  refused ++ [.call (.read {}), .goOn {}, .prune, .goOn {}, .goOn {}, .goOn {}, .goOn {}, .goOn {},
    .goOn {}, .goOn { errorListeners := true }]

/-- It comes again, behind the close. -/
theorem life_disorderly :
    ¬ ∀ opening moves, Orderly (run System.step (.start opening) moves).log := by
  intro h
  have hlog : (run System.step (.start ⟨false, false, 0⟩) refusedRead).log = [.error, .close, .error] := by
    decide
  have herror := (h ⟨false, false, 0⟩ refusedRead).error
  rw [hlog] at herror
  exact absurd herror (by decide)

end TsonicNode.Tls
