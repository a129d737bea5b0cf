import TsonicNode.Stream.WriteEventsRefine

/-!
# The stream's operations do what their views say

Between operations a stream `Rests`: it owns the reservations of its pending
completions and of its events. From there every operation acts on the view as
the function of the same name, unless it raises before anything has happened
(`write_refines`, `end_refines`, `close_refines`, ..).
-/

namespace TsonicNode.Stream

open TsonicNode.Lib TsonicNode.Internal

/-- The completions that have been neither delivered nor given up. -/
def WritableState.pending (state : WritableState) : List StreamCompletion :=
  Writable.completions state.chunks ++ state.events.endCompletions

def WritableState.held (state : WritableState) : List ReservationId :=
  state.pending.map StreamCompletion.reservation

/-- A stream between operations, with the view `v`. -/
structure Rests (v : View) (w : World) : Prop where
  owns : Owns w.state.held w
  kept : Kept w
  view : w.view = v

theorem Done.rests {v : View} {w : World} (h : Done v.state.held v w) : Rests v w := by
  have hstate := World.state_of_view h.view
  exact ⟨by rw [hstate]; exact h.owns, h.ready.kept, h.view⟩

theorem View.SameBut.held {v v' : View} (h : v.SameBut v') : v'.state.held = v.state.held := by
  unfold WritableState.held WritableState.pending
  rw [h.ends, h.state]

theorem View.fail_held (error : TsError) (completed : Nat) (v : View) :
    (v.fail error completed).state.held = [] := by
  obtain ⟨hchunks, hends, -⟩ := v.fail_state error completed
  unfold WritableState.held WritableState.pending
  rw [hchunks, hends]
  rfl

section
variable {held : List ReservationId} {w : World}

/-! ## Completions -/

theorem new_spec (callback : WriteCallback) (h : Owns held w) :
    wp (StreamCompletion.new callback)
      (fun completion w' => completion.callback = callback ∧
        Owns (completion.reservation :: held) w' ∧ w'.view = w.view ∧
        w'.reservations = w.reservations)
      (fun _ w' => w' = w) w := by
  simp only [StreamCompletion.new, wp_bind, wp_pure]
  refine wp_mono (reserve_spec h) ?_ (fun _ _ h => h)
  rintro r w₁ ⟨h₁, hview, hres⟩
  exact ⟨trivial, h₁, hview, hres⟩

/-- The completion of an optional callback, of a stream that stays ready. -/
theorem newCompletion_spec (callback : Option WriteCallback) {v : View} (h : Done held v w) :
    wp (Writable.newCompletion callback)
      (fun completion w' => completion.map StreamCompletion.callback = callback ∧
        Done (completion.toList.map StreamCompletion.reservation ++ held) v w')
      (fun _ w' => w' = w) w := by
  cases callback with
  | none =>
    simp only [Writable.newCompletion, wp_pure]
    exact ⟨rfl, h⟩
  | some callback =>
    simp only [Writable.newCompletion, wp_bind, wp_pure]
    refine wp_mono (new_spec callback h.owns) ?_ (fun _ _ h => h)
    rintro completion w₁ ⟨hcallback, h₁, hview, hres⟩
    refine ⟨congrArg some hcallback, h₁, h.ready.of_same hres ?_, hview.trans h.view⟩
    rw [World.state_of_view hview]
    rfl

theorem retainEnd_done (callback : WriteCallback) {v : View}
    (h : Done (v.state.held ++ held) v w) :
    wp (WriteEvents.retainEnd callback)
      (fun _ w' => ∃ completion : StreamCompletion, completion.callback = callback ∧
        Done ((v.retainEnd completion).state.held ++ held) (v.retainEnd completion) w')
      (fun _ w' => w' = w) w := by
  obtain ⟨howns, hready, rfl⟩ := h
  simp only [WriteEvents.retainEnd, wp_bind, wp_get]
  refine wp_mono (new_spec callback howns) ?_ (fun _ _ h => h)
  rintro completion w₁ ⟨hcallback, h₁, hview₁, hres₁⟩
  have hstate : w₁.state = w.state := World.state_of_view hview₁
  have hready₁ : Ready w₁ := hready.of_same hres₁ (by rw [hstate])
  have hcomplete : ∀ error : TsError, Always (completion.complete (some error))
      (fun _ => Done (w.view.state.held ++ held)
        (w.view.completeAll (some error) [completion])) w₁ := by
    intro error
    refine wp_mono (commit_spec h₁ _) ?_ (fun _ _ h => h.elim)
    rintro - w₂ ⟨h₂, hview₂, hres₂⟩
    refine ⟨h₂, hready₁.of_same hres₂ ?_, ?_⟩
    · rw [World.state_of_view hview₂]
      rfl
    · rw [hview₂, hview₁]
      rfl
  simp only [hstate]
  cases herror : w.state.events.error with
  | some error =>
    have hgoal : w.view.retainEnd completion = w.view.completeAll (some error) [completion] := by
      have he : w.view.state.events.error = some error := herror
      unfold View.retainEnd
      rw [he]
    refine wp_mono (hcomplete error) ?_ (fun _ _ h => h.elim)
    rintro - w₂ hdone
    exact ⟨completion, hcallback, by rw [hgoal]; exact hdone⟩
  | none =>
    have he : w.view.state.events.error = none := herror
    simp only [wp_ite, wp_setEvents]
    split_ifs with hdestroyed hfinished
    · have hgoal : w.view.retainEnd completion =
          w.view.completeAll (some (errorNew "Cannot end a destroyed stream")) [completion] := by
        unfold View.retainEnd
        rw [he]
        exact if_pos hdestroyed
      refine wp_mono (hcomplete _) ?_ (fun _ _ h => h.elim)
      rintro - w₂ hdone
      exact ⟨completion, hcallback, by rw [hgoal]; exact hdone⟩
    · have hgoal : w.view.retainEnd completion = w.view.completeAll
          (some (errorNew "Cannot call end after the stream finished")) [completion] := by
        unfold View.retainEnd
        rw [he]
        exact (if_neg hdestroyed).trans (if_pos hfinished)
      refine wp_mono (hcomplete _) ?_ (fun _ _ h => h.elim)
      rintro - w₂ hdone
      exact ⟨completion, hcallback, by rw [hgoal]; exact hdone⟩
    · have hgoal : w.view.retainEnd completion = w.view.setEvents (fun events =>
          { events with endCompletions := events.endCompletions ++ [completion] }) := by
        unfold View.retainEnd
        rw [he]
        exact (if_neg hdestroyed).trans (if_neg hfinished)
      refine ⟨completion, hcallback, ?_⟩
      rw [hgoal]
      refine ⟨(h₁.state _).perm ?_, hready₁.of_same rfl rfl, ?_⟩
      · simp only [WritableState.held, WritableState.pending, View.setEvents, View.setState,
          World.view, List.map_append, List.map_cons, List.map_nil, List.append_assoc]
        rw [← List.append_assoc, ← List.append_assoc]
        exact List.perm_middle.symm
      · rw [← hview₁]
        rfl

/-! ## Failing and flushing -/

/-- `_fail` on requests of which the first `completed` are done. -/
theorem Done.failStream {v : View} {pending : List StreamCompletion} (error : TsError)
    (completed : Nat) (hd : Done (pending.map StreamCompletion.reservation ++ held) v w)
    (hpending : Writable.completions (v.state.chunks.drop completed) ++
      v.state.events.endCompletions = pending) :
    Always (Writable.fail error completed) (fun _ => Done held (v.fail error completed)) w := by
  rw [← hpending, List.map_append, List.append_assoc] at hd
  refine Always.bind (hd.modify rfl) fun _ w₁ h₁ => wp_read ?_
  rw [h₁.state]
  refine Always.bind (h₁.completeAll (some error) _) fun _ w₂ h₂ => ?_
  refine Always.bind (h₂.modify rfl) fun _ w₃ h₃ => ?_
  refine Always.bind (h₃.completeEnd (some error) rfl) fun _ w₄ h₄ => ?_
  refine Always.bind (h₄.fail error) fun _ w₅ h₅ => wp_read ?_
  have h₅ : Done held ((v.refuse error completed).failEvents error) w₅ := h₅
  simp only [h₅.state, View.fail]
  split_ifs
  · exact Always.bind (h₅.modify rfl) fun _ w₆ h₆ => h₆.close
  · exact h₅

theorem Done.flushFrom (requests : List WriteRequest) (completed : Nat)
    (answers : List (Int × Nat)) {v : View} (hrequests : v.state.chunks.drop completed = requests)
    (hd : Done ((Writable.completions requests ++
      v.state.events.endCompletions).map StreamCompletion.reservation ++ held) v w) :
    Always (Writable.flushFrom requests completed answers)
      (fun whole w' => whole = (v.flushFrom requests completed answers).1 ∧
        Done ((if whole then v.state.events.endCompletions.map StreamCompletion.reservation else [])
          ++ held) (v.flushFrom requests completed answers).2 w') w := by
  induction requests generalizing completed answers v w with
  | nil => exact ⟨rfl, hd⟩
  | cons request requests ih =>
    refine wp_read ?_
    unfold View.flushFrom
    rw [hd.state]
    rcases hwrite : v.state.file.write request.chunk v.state.position answers with
      ⟨_ | count, file, answers'⟩
    · rw [← hrequests] at hd
      simp only [hwrite]
      refine Always.bind (hd.modify rfl) fun _ w₁ h₁ => ?_
      refine Always.bind (h₁.failStream _ completed rfl) fun _ w₂ h₂ => ?_
      exact ⟨rfl, h₂⟩
    · have hcons : Writable.completions (request :: requests) =
          Writable.completions [request] ++ Writable.completions requests :=
        List.filterMap_append (l := [request])
      rw [hcons, List.append_assoc, List.map_append, List.append_assoc] at hd
      simp only [hwrite]
      refine Always.bind (hd.modify rfl) fun _ w₁ h₁ => ?_
      refine Always.bind (h₁.completeAll none _) fun _ w₂ h₂ => ?_
      refine ih (completed + 1) answers' ?_ h₂
      calc v.state.chunks.drop (completed + 1) = (v.state.chunks.drop completed).tail := by
            rw [List.tail_drop]
        _ = requests := by rw [hrequests, List.tail_cons]

theorem Done.flush_ {v : View} (answers : Answers) (hd : Done held v w)
    (hheld : v.state.held = held) :
    Always (Writable.flush_ answers)
      (fun _ => Done (v.flush_ answers).state.held (v.flush_ answers)) w := by
  subst hheld
  have hheld : v.state.held = (Writable.completions v.state.chunks ++
      v.state.events.endCompletions).map StreamCompletion.reservation ++ [] :=
    (List.append_nil _).symm
  refine wp_read ?_
  simp only [hd.state, View.flush_]
  split_ifs with h
  · exact hd
  · rw [hheld] at hd
    refine Always.bind (Done.flushFrom _ 0 answers.writes rfl hd) fun whole w₁ h₁ => ?_
    obtain ⟨rfl, h₁⟩ := h₁
    obtain ⟨v', ⟨hwrote, hflush⟩ | ⟨done, -, -, error, -, -, hflush⟩⟩ :=
      v.flushFrom_cases v.state.chunks 0 answers.writes
    · simp only [hflush, if_true, List.append_nil] at h₁ ⊢
      have hends : v.state.events.endCompletions = v'.state.events.endCompletions := by
        rw [hwrote.state]
      rw [hends] at h₁
      refine Always.bind (h₁.modify rfl) fun _ w₂ h₂ => wp_read ?_
      simp only [h₂.state]
      split_ifs with hdrain
      · refine Always.bind (h₂.modify rfl) fun _ w₃ h₃ => ?_
        rw [(View.drain_same _).held]
        exact h₃.drain
      · exact h₂
    · simp only [hflush, Bool.false_eq_true, if_false, List.append_nil] at h₁ ⊢
      rw [View.fail_held]
      exact h₁

/-! ## Closing the descriptor -/

/-- The outcome of what may raise: whether it did, and the view it left. -/
abbrev Ends (held : List ReservationId) (r : Option Error × View) (m : M Unit) (w : World) : Prop :=
  wp m (fun _ w' => r.1 = none ∧ Done held r.2 w') (fun e w' => r.1 = some e ∧ Done held r.2 w') w

theorem Done.closeDescriptor {v : View} (answers : Answers) (hd : Done held v w) :
    Ends held (v.closeDescriptor answers) (Writable.closeDescriptor answers) w := by
  unfold Writable.closeDescriptor View.closeDescriptor
  refine Always.bind (hd.modify rfl) fun _ w₁ h₁ => wp_read ?_
  simp only [h₁.state, wp_ite]
  split_ifs with h
  · generalize (v.setState fun state => { state with closed := true }).state.file.close answers =
      result
    rcases result with ⟨error | ⟨⟩, file⟩
    · exact Always.bind (h₁.modify rfl) fun _ w₂ h₂ => ⟨rfl, h₂⟩
    · exact Always.bind (h₁.modify rfl) fun _ w₂ h₂ => ⟨rfl, h₂⟩
  · exact ⟨rfl, h₁⟩

theorem View.closeDescriptor_held (answers : Answers) (v : View) :
    (v.closeDescriptor answers).2.state.held = v.state.held := by
  rw [View.closeDescriptor_view]
  rfl

theorem Done.complete {v : View} (answers : Answers) (hd : Done held v w) :
    Ends held (v.complete answers) (Writable.complete answers) w := by
  simp only [Ends, Writable.complete, View.complete, wp_bind, wp_get, wp_ite, wp_throw, hd.state]
  split_ifs with hchunks hflush hauto
  · exact ⟨rfl, hd⟩
  · rcases v.state.file.flush answers with error | ⟨⟩
    · exact ⟨rfl, hd⟩
    · exact hd.closeDescriptor answers
  · rcases v.state.file.flush answers with error | ⟨⟩
    · exact ⟨rfl, hd⟩
    · exact ⟨rfl, hd⟩
  · exact hd.closeDescriptor answers
  · exact ⟨rfl, hd⟩

/-! ## The operations -/

/-- A stream with all its capacity, holding what it should. -/
abbrev Prepared (v : View) (w : World) : Prop := Done v.state.held v w

theorem Rests.prepare {v : View} (h : Rests v w) (hl : v.Lawful) :
    wp WriteEvents.prepare (fun _ => Prepared v) (fun _ => Rests v) w := by
  obtain ⟨howns, hkept, rfl⟩ := h
  refine wp_mono (prepare_spec howns hkept hl) (fun _ _ h => h) ?_
  rintro - w₁ ⟨h₁, hview, hres⟩
  have hstate : w₁.state = w.state := World.state_of_view hview
  refine ⟨by rw [hstate]; exact h₁, ?_, hview⟩
  exact ⟨by rw [hstate, hres]; exact hkept.finish, by rw [hstate, hres]; exact hkept.close⟩

/-- `_write` once the completion of its callback has been made. -/
theorem Done.written {v : View} {value : List UInt8} {completion : Option StreamCompletion}
    (answers : Answers)
    (hd : Done (completion.toList.map StreamCompletion.reservation ++ v.state.held) v w) :
    Always (Writable.written value completion answers)
      (fun _ => Prepared (v.write value completion answers)) w := by
  unfold Writable.written View.write
  refine wp_read ?_
  rw [hd.state]
  by_cases hwritable : ¬ v.state.writable = true
  · rw [if_pos hwritable, if_pos hwritable]
    refine Always.bind (hd.completeAll _ _) fun _ w₁ h₁ => wp_read ?_
    simp only [h₁.state, wp_ite]
    split_ifs with hdestroyed
    · exact h₁
    · have h₁' : Done (v.state.pending.map StreamCompletion.reservation ++ []) _ w₁ :=
        h₁.perm (.of_eq (List.append_nil _).symm)
      refine Always.bind (h₁'.failStream _ 0 rfl) fun _ w₂ h₂ => ?_
      unfold Prepared
      rw [View.fail_held]
      exact h₂
  · rw [if_neg hwritable, if_neg hwritable]
    have hmove : (completion.toList.map StreamCompletion.reservation ++ v.state.held).Perm
        (v.accept value completion).state.held := by
      have hone : Writable.completions [⟨value, completion⟩] = completion.toList := by
        cases completion <;> rfl
      simp only [WritableState.held, WritableState.pending, View.accept, View.setState_state,
        Writable.completions, List.filterMap_append, List.map_append, List.append_assoc] at hone ⊢
      rw [hone]
      exact List.perm_append_comm_assoc ..
    have haccept : Always (Stream.setState fun state =>
        { state with
          chunks := state.chunks ++ [⟨value, completion⟩]
          bufferedBytes := state.bufferedBytes + value.length })
        (fun _ => Prepared (v.accept value completion)) w :=
      (hd.modify rfl).then fun _ _ h₁ => h₁.perm hmove
    refine Always.bind haccept fun _ w₁ h₁ => wp_read ?_
    simp only [h₁.state, wp_ite]
    split_ifs with hcorked
    · refine Always.bind (h₁.flush_ answers rfl) fun _ w₂ h₂ => wp_read ?_
      rw [h₂.state]
      exact Always.bind (h₂.modify rfl) fun _ w₃ h₃ => wp_read h₃
    · refine wp_read ?_
      rw [h₁.state]
      exact Always.bind (h₁.modify rfl) fun _ w₂ h₂ => wp_read h₂

theorem Rests.write {v : View} (value : List UInt8) (callback : Option WriteCallback)
    (answers : Answers) (h : Rests v w) (hl : v.Lawful) :
    wp (Writable.write value callback answers)
      (fun _ w' => ∃ completion : Option StreamCompletion,
        completion.map StreamCompletion.callback = callback ∧
        Prepared (v.write value completion answers) w')
      (fun _ => Rests v) w := by
  unfold Writable.write
  rw [wp_bind]
  refine wp_mono (h.prepare hl) (fun _ w₁ h₁ => wp_read ?_) (fun _ _ h => h)
  rw [wp_ite]
  split_ifs with hsize
  · exact h₁.rests
  · rw [wp_bind]
    refine wp_mono (newCompletion_spec callback h₁) (fun completion w₂ h₂ => ?_) ?_
    · obtain ⟨hcallback, h₂⟩ := h₂
      refine wp_mono (wp_read (h₂.written answers)) (fun _ w₃ h₃ => ⟨completion, hcallback, h₃⟩)
        (fun _ _ h => h.elim)
    · rintro - w₂ rfl
      exact h₁.rests

theorem View.complete_held (answers : Answers) (v : View) :
    (v.complete answers).2.state.held = v.state.held := by
  unfold View.complete
  split
  · rfl
  · split
    · rfl
    · split
      · exact v.closeDescriptor_held answers
      · rfl

theorem Done.settle {v : View} (answers : Answers) (hd : Prepared v w) :
    Always (Writable.settle answers) (fun _ => Prepared (v.settle answers)) w := by
  have hcomplete := Done.complete answers hd
  have hheld := v.complete_held answers
  unfold Writable.settle View.settle
  generalize v.complete answers = result at hcomplete hheld ⊢
  obtain ⟨raised, v'⟩ := result
  change v'.state.held = _ at hheld
  rw [← hheld] at hcomplete
  simp only [Always, wp_bind, wp_tryCatch, wp_pure]
  refine wp_mono hcomplete ?_ ?_
  · rintro - w₁ ⟨hnone, h₁⟩
    obtain rfl : raised = none := hnone
    refine wp_mono h₁.finish (fun _ w₂ h₂ => ?_) (fun _ _ h => h)
    simp only [wp_get, h₂.state, wp_ite, wp_pure]
    split_ifs
    · refine (h₂.close).then fun _ w₃ h₃ => ?_
      rw [Prepared, (View.closeEvents_same _).held, (View.finishEvents_same _).held]
      exact h₃
    · rw [Prepared, (View.finishEvents_same _).held]
      exact h₂
  · rintro error w₁ ⟨hsome, h₁⟩
    obtain rfl : raised = some error := hsome
    have h₁' : Done (v'.state.pending.map StreamCompletion.reservation ++ []) v' w₁ :=
      h₁.perm (.of_eq (List.append_nil _).symm)
    refine (h₁'.failStream _ 0 rfl).then fun _ w₂ h₂ => ?_
    rw [Prepared, View.fail_held]
    exact h₂

theorem Done.finishStream {v : View} (answers : Answers) (hd : Prepared v w) :
    Always (Writable.finish answers) (fun _ => Prepared (v.finish answers)) w := by
  unfold Writable.finish View.finish
  refine wp_read ?_
  simp only [hd.state]
  by_cases hover : v.state.failed = true ∨ v.state.destroyed = true
  · rw [if_pos hover, if_pos hover]
    exact hd
  · rw [if_neg hover, if_neg hover]
    by_cases hended : v.state.ended = true
    · rw [if_pos hended, if_pos hended]
      exact hd
    · rw [if_neg hended, if_neg hended]
      refine Always.bind (hd.modify rfl) fun _ w₁ h₁ => ?_
      refine Always.bind (h₁.flush_ answers rfl) fun _ w₂ h₂ => wp_read ?_
      simp only [h₂.state, wp_ite]
      split_ifs
      · exact h₂
      · exact h₂.settle answers

theorem Rests.retainEnd {v : View} (callback : Option WriteCallback) (h : Rests v w)
    (hl : v.Lawful) :
    wp (Writable.retainEnd callback)
      (fun _ w' => ∃ completion : Option StreamCompletion,
        completion.map StreamCompletion.callback = callback ∧
        Prepared (v.retainEnds completion) w')
      (fun _ => Rests v) w := by
  unfold Writable.retainEnd
  rw [wp_bind]
  refine wp_mono (h.prepare hl) (fun _ w₁ h₁ => ?_) (fun _ _ h => h)
  cases callback with
  | none => exact ⟨none, rfl, h₁⟩
  | some callback =>
    have h₁' : Done (v.state.held ++ []) v w₁ := h₁.perm (.of_eq (List.append_nil _).symm)
    refine wp_mono (retainEnd_done callback h₁') ?_ ?_
    · rintro - w₂ ⟨completion, hcallback, h₂⟩
      exact ⟨some completion, congrArg some hcallback, h₂.perm (.of_eq (List.append_nil _))⟩
    · rintro - w₂ rfl
      exact h₁.rests

theorem Rests.end_ {v : View} (callback : Option WriteCallback) (answers : Answers)
    (h : Rests v w) (hl : v.Lawful) :
    wp (Writable.end_ callback answers)
      (fun _ w' => ∃ completion : Option StreamCompletion,
        completion.map StreamCompletion.callback = callback ∧
        Prepared ((v.retainEnds completion).finish answers) w')
      (fun _ => Rests v) w := by
  unfold Writable.end_
  rw [wp_bind]
  refine wp_mono (h.retainEnd callback hl) ?_ (fun _ _ h => h)
  rintro - w₁ ⟨completion, hcallback, h₁⟩
  exact wp_mono (h₁.finishStream answers) (fun _ _ h₂ => ⟨completion, hcallback, h₂⟩)
    (fun _ _ h => h.elim)

theorem View.retainEnds_lawful {completion : Option StreamCompletion} {v : View} (hl : v.Lawful) :
    (v.retainEnds completion).Lawful := by
  cases completion with
  | none => exact hl
  | some completion =>
    have hstate := v.retainEnd_state completion
    refine ⟨?_, ?_, ?_, ?_⟩ <;> rw [View.retainEnds, hstate]
    · exact hl.queued
    · exact hl.closed
    · exact hl.spent
    · exact hl.finished

theorem Rests.endChunk {v : View} (value : List UInt8) (callback : Option WriteCallback)
    (answers : Answers) (h : Rests v w) (hl : v.Lawful) :
    wp (Writable.endChunk value callback answers)
      (fun _ w' => ∃ completion : Option StreamCompletion,
        completion.map StreamCompletion.callback = callback ∧
        Prepared (((v.retainEnds completion).write value none answers).finish answers) w')
      (fun _ w' => Rests v w' ∨ ∃ completion : Option StreamCompletion,
        completion.map StreamCompletion.callback = callback ∧
        Rests (v.retainEnds completion) w') w := by
  unfold Writable.endChunk
  rw [wp_bind]
  refine wp_mono (h.retainEnd callback hl) ?_ (fun _ _ h => .inl h)
  rintro - w₁ ⟨completion, hcallback, h₁⟩
  rw [wp_bind]
  refine wp_mono (h₁.rests.write value none answers (View.retainEnds_lawful hl)) ?_
    (fun _ _ h => .inr ⟨completion, hcallback, h⟩)
  rintro - w₂ ⟨none', hnone, h₂⟩
  obtain rfl : none' = none := Option.map_eq_none_iff.mp hnone
  exact wp_mono (h₂.finishStream answers) (fun _ _ h₃ => ⟨completion, hcallback, h₃⟩)
    (fun _ _ h => h.elim)

theorem Rests.uncork {v : View} (answers : Answers) (h : Rests v w) (hl : v.Lawful) :
    wp (Writable.uncork answers) (fun _ => Prepared (v.uncork answers)) (fun _ => Rests v) w := by
  unfold Writable.uncork View.uncork
  rw [wp_bind]
  refine wp_mono (h.prepare hl) (fun _ w₁ h₁ => wp_read ?_) (fun _ _ h => h)
  simp only [h₁.state, wp_ite, wp_pure]
  by_cases hcorked : v.state.corked > 0
  · rw [if_pos hcorked, if_pos hcorked]
    refine Always.bind (h₁.modify rfl) fun _ w₂ h₂ => wp_read ?_
    simp only [h₂.state, wp_ite, wp_pure]
    split_ifs
    · exact wp_mono (h₂.flush_ answers rfl) (fun _ _ h => h) (fun _ _ h => h.elim)
    · exact h₂
  · rw [if_neg hcorked, if_neg hcorked]
    exact h₁

/-- On a prepared stream, `end` without a callback cannot raise. -/
theorem Done.end_ {v : View} (answers : Answers) (hd : Prepared v w) (hl : v.Lawful) :
    Always (Writable.end_ none answers) (fun _ => Prepared (v.finish answers)) w := by
  unfold Writable.end_ Writable.retainEnd
  refine Always.bind ?_ fun _ w₁ h₁ => Done.finishStream answers h₁
  exact Always.bind (Done.prepare hd hl) fun _ w₁ h₁ => h₁

theorem Done.closeFinally {v : View} (answers : Answers) (hd : Prepared v w) :
    wp (Writable.closeFinally answers)
      (fun _ w' => (v.closeFinally answers).1 = none ∧ Prepared (v.closeFinally answers).2 w')
      (fun _ w' => (v.closeFinally answers).1.isSome ∧ Prepared (v.closeFinally answers).2 w')
      w := by
  have hclose : ∀ {v' w'}, Prepared v' w' →
      Always WriteEvents.close (fun _ => Prepared v'.closeEvents) w' := by
    intro v' w' h
    refine (Done.close h).then fun _ w₁ h₁ => ?_
    rw [Prepared, (View.closeEvents_same _).held]
    exact h₁
  unfold Writable.closeFinally View.closeFinally
  refine wp_read ?_
  simp only [hd.state, wp_ite, wp_bind]
  split_ifs with hclosed
  · exact wp_mono (hclose hd) (fun _ _ h => ⟨rfl, h⟩) (fun _ _ h => h.elim)
  · have hdescriptor := Done.closeDescriptor answers hd
    have hheld := v.closeDescriptor_held answers
    generalize v.closeDescriptor answers = result at hdescriptor hheld ⊢
    obtain ⟨raised, v'⟩ := result
    change v'.state.held = _ at hheld
    rw [← hheld] at hdescriptor
    refine wp_mono hdescriptor ?_ ?_
    · rintro - w₁ ⟨hnone, h₁⟩
      obtain rfl : raised = none := hnone
      exact wp_mono (hclose h₁) (fun _ _ h => ⟨rfl, h⟩) (fun _ _ h => h.elim)
    · rintro error w₁ ⟨hsome, h₁⟩
      obtain rfl : raised = some error := hsome
      exact ⟨rfl, h₁⟩

/-- `close` once it has been prepared. -/
theorem Done.closeStream {v : View} (answers : Answers) (hd : Prepared v w) (hl : v.Lawful) :
    wp (tryFinally (Writable.end_ none answers) (Writable.closeFinally answers))
      (fun _ w' => (v.close answers).1 = none ∧ Prepared (v.close answers).2 w')
      (fun _ w' => (v.close answers).1.isSome ∧ Prepared (v.close answers).2 w') w := by
  rw [wp_tryFinally]
  refine wp_mono (Done.end_ answers hd hl) (fun _ w₁ h₁ => ?_) (fun _ _ h => h.elim)
  exact wp_mono (Done.closeFinally answers h₁) (fun _ _ h => h) (fun _ _ h => h)

theorem Done.release {v : View} (answers : Answers) (hd : Done held v w) :
    Always (tryCatch (Writable.closeDescriptor answers)
        fun failure => WriteEvents.fail (errorNew failure.message))
      (fun _ => Done held (v.release answers)) w := by
  have hdescriptor := hd.closeDescriptor answers
  unfold View.release
  generalize v.closeDescriptor answers = result at hdescriptor ⊢
  obtain ⟨raised, v'⟩ := result
  simp only [Always, wp_tryCatch]
  refine wp_mono hdescriptor ?_ ?_
  · rintro - w₁ ⟨hnone, h₁⟩
    obtain rfl : raised = none := hnone
    exact h₁
  · rintro failure w₁ ⟨hsome, h₁⟩
    obtain rfl : raised = some failure := hsome
    exact h₁.fail _

theorem Rests.destroy {v : View} (error : Option TsError) (answers : Answers) (h : Rests v w)
    (hl : v.Lawful) :
    wp (Writable.destroy error answers) (fun _ => Rests (v.destroy error answers))
      (fun _ => Rests v) w := by
  unfold Writable.destroy View.destroy
  refine wp_read ?_
  have hstate := World.state_of_view h.view
  rw [hstate]
  by_cases hdestroyed : v.state.destroyed = true
  · rw [if_pos hdestroyed, if_pos hdestroyed]
    exact h
  · rw [if_neg hdestroyed, if_neg hdestroyed, wp_bind]
    refine wp_mono (h.prepare hl) (fun _ w₁ h₁ => ?_) (fun _ _ h => h)
    have h₁' : Done ((Writable.completions v.state.chunks).map StreamCompletion.reservation ++
        (v.state.events.endCompletions.map StreamCompletion.reservation ++ [])) v w₁ := by
      refine h₁.perm (.of_eq ?_)
      rw [List.append_nil, ← List.map_append]
      rfl
    refine Always.bind h₁'.cancel fun _ w₂ h₂ => wp_read ?_
    rw [h₂.state]
    refine Always.bind (h₂.completeAll _ _) fun _ w₃ h₃ => ?_
    refine Always.bind (h₃.modify rfl) fun _ w₄ h₄ => ?_
    refine Always.bind (h₄.completeEnd _ rfl) fun _ w₅ h₅ => ?_
    have hheld : (v.destroy error answers).state.held = [] := by
      obtain ⟨hchunks, hends⟩ := v.destroy_state error answers hdestroyed
      unfold WritableState.held WritableState.pending
      rw [hchunks, hends]
      rfl
    have hview : v.destroy error answers = _ := if_neg hdestroyed
    rw [← hview]
    have hlast : ∀ {w'}, Done [] ((v.cancel.abandon (v.destruction error)).failEventsWith error) w' →
        Always (do
          tryCatch (Writable.closeDescriptor answers)
            fun failure => WriteEvents.fail (errorNew failure.message)
          WriteEvents.close) (fun _ => Rests (v.destroy error answers)) w' := by
      intro w' h'
      refine Always.bind (h'.release answers) fun _ w₆ h₆ => ?_
      refine (h₆.close).then fun _ w₇ h₇ => Done.rests ?_
      rw [hheld, hview]
      exact h₇
    cases error with
    | none => exact wp_mono (hlast h₅) (fun _ _ h => h) (fun _ _ h => h.elim)
    | some error =>
      refine wp_mono (Always.bind (h₅.fail error) fun _ w₆ h₆ => hlast h₆) (fun _ _ h => h)
        (fun _ _ h => h.elim)

/-! ## Events -/

theorem Rests.setEvents {v : View} {f : WriteEventState → WriteEventState} (h : Rests v w)
    (hends : (f v.state.events).endCompletions = v.state.events.endCompletions)
    (hkept : Kept { w with state := { v.state with events := f v.state.events } }) :
    Always (Stream.setEvents f) (fun _ => Rests (v.setEvents f)) w := by
  have hstate := World.state_of_view h.view
  obtain ⟨howns, -, rfl⟩ := h
  have hheld : (w.view.setEvents f).state.held = w.state.held := by
    unfold WritableState.held WritableState.pending
    rw [View.setEvents_state, hends]
    rfl
  refine ⟨?_, hkept, rfl⟩
  show Owns (w.view.setEvents f).state.held _
  rw [hheld]
  exact howns.state _

theorem Rests.emit {v : View} (event : Event) (h : Rests v w) :
    Always (WriteEvents.emit event) (fun _ => Rests (v.emit event)) w := by
  have hstate := World.state_of_view h.view
  refine h.setEvents rfl ?_
  rw [← hstate]
  exact ⟨h.kept.finish, h.kept.close⟩

theorem Rests.invokeComplete {v : View} (h : Rests v w)
    (hready : v.state.events.finishScheduled = true) (hfinished : v.state.events.finished = false) :
    Always (WriteEvents.invoke .complete) (fun _ => Rests (v.invoke .complete)) w := by
  obtain ⟨howns, hkept, rfl⟩ := h
  unfold WriteEvents.invoke View.invoke
  refine wp_read ?_
  dsimp only
  by_cases hover : w.state.events.error.isSome = true ∨ w.state.events.closed = true ∨
      w.state.events.cancelled = true
  · have hover' : w.view.state.events.error.isSome = true ∨ w.view.state.events.closed = true ∨
      w.view.state.events.cancelled = true := hover
    rw [if_pos hover, if_pos hover']
    exact ⟨howns, hkept, rfl⟩
  · have hover' : ¬ (w.view.state.events.error.isSome = true ∨ w.view.state.events.closed = true ∨
      w.view.state.events.cancelled = true) := hover
    rw [if_neg hover, if_neg hover']
    simp only [not_or, Bool.not_eq_true, Option.isSome_eq_false_iff, Option.isNone_iff_eq_none]
      at hover
    have hreserved := hkept.finish hready hfinished hover.1 hover.2.2
    simp only [WriteEvents.completeEnd, wp_bind, wp_setEvents, wp_get]
    have howns₁ : Owns (w.state.events.endCompletions.map StreamCompletion.reservation ++
        (Writable.completions w.state.chunks).map StreamCompletion.reservation) w := by
      refine howns.perm ?_
      rw [WritableState.held, WritableState.pending, List.map_append]
      exact List.perm_append_comm
    refine wp_mono (completeAll_spec none w.state.events.endCompletions (howns₁.state _)) ?_
      (fun _ _ h => h.elim)
    rintro - w₁ ⟨h₁, hview₁, hres₁⟩
    refine wp_mono (reserveEvent_spec h₁ (by rw [hres₁]; exact hreserved)) ?_
      (fun _ _ h => h.elim)
    rintro r w₂ ⟨h₂, hview₂, hres₂⟩
    refine wp_mono (commit_spec h₂ _) ?_ (fun _ _ h => h.elim)
    rintro - w₃ ⟨h₃, hview₃, hres₃⟩
    have hview : w₃.view = w.view.finishing := by
      rw [hview₃, hview₂, hview₁]
      rfl
    have hstate := World.state_of_view hview
    refine wp_mono (queueClose_spec h₃ ?_) ?_ (fun _ _ h => h.elim)
    · rw [hstate, hres₃, hres₂, hres₁]
      exact hkept.close
    · rintro - w₄ ⟨h₄, hview₄, -, hclose₄⟩
      rw [hview] at hview₄
      have hstate₄ := World.state_of_view hview₄
      obtain ⟨hevents, hqueued⟩ := w.view.finishing.queueClose_events
      refine ⟨?_, ⟨fun _ hf => ?_, fun hcs hcq => ?_⟩, hview₄⟩
      · rw [hstate₄, (View.queueClose_same _).held]
        refine h₄.perm (.of_eq ?_)
        rw [WritableState.held, WritableState.pending]
        exact congrArg _ (List.append_nil _).symm
      · rw [hstate₄, hevents] at hf
        cases hf
      · rw [hclose₄ hcq, hres₃, hres₂, hres₁]
        rw [hstate₄] at hcs hcq
        rw [hevents] at hcs
        exact hkept.close hcs (hqueued hcq)

theorem Rests.invoke {v : View} {event : Event} (h : Rests v w)
    (hcomplete : event = .complete →
      v.state.events.finishScheduled = true ∧ v.state.events.finished = false)
    (hclose : event = .close → v.state.events.closeQueued = true ∧
      (v.state.events.finished = true ∨ v.state.events.error.isSome = true ∨
        v.state.events.cancelled = true)) :
    Always (WriteEvents.invoke event) (fun _ => Rests (v.invoke event)) w := by
  have hstate := World.state_of_view h.view
  cases event with
  | complete => exact h.invokeComplete (hcomplete rfl).1 (hcomplete rfl).2
  | error => exact wp_read (h.emit .error)
  | drain =>
    refine wp_read (Always.bind (h.setEvents rfl ?_) fun _ w₁ h₁ => ?_)
    · rw [← hstate]
      exact ⟨h.kept.finish, h.kept.close⟩
    · rw [hstate]
      by_cases hover : v.state.events.error.isSome = true ∨
          v.state.events.finishScheduled = true ∨ v.state.events.cancelled = true
      · have hview : v.invoke .drain = _ := if_pos hover
        rw [if_pos hover, hview]
        exact h₁
      · have hview : v.invoke .drain = _ := if_neg hover
        rw [if_neg hover, hview]
        exact h₁.emit .drain
  | finish =>
    refine wp_read ?_
    rw [hstate]
    unfold View.invoke
    dsimp only
    by_cases hover : v.state.events.error.isSome = true ∨ v.state.events.cancelled = true
    · rw [if_pos hover, if_pos hover]
      exact h
    · rw [if_neg hover, if_neg hover]
      refine Always.bind (h.setEvents rfl ?_) fun _ w₁ h₁ => h₁.emit .finish
      rw [← hstate]
      exact ⟨fun _ hf => (Bool.noConfusion hf), h.kept.close⟩
  | close =>
    obtain ⟨howns, -, rfl⟩ := h
    obtain ⟨hqueued, hover⟩ := hclose rfl
    refine wp_read ?_
    simp only [WriteEvents.clearReservations, wp_bind, wp_setEvents]
    refine wp_mono (discard_spec (howns.state _)) ?_ (fun _ _ h => h.elim)
    rintro - w₁ ⟨h₁, hview₁, -⟩
    refine wp_mono (discard_spec h₁) ?_ (fun _ _ h => h.elim)
    rintro - w₂ ⟨h₂, hview₂, -⟩
    refine wp_mono (discard_spec h₂) ?_ (fun _ _ h => h.elim)
    rintro - w₃ ⟨h₃, hview₃, -⟩
    refine wp_mono (discard_spec h₃) ?_ (fun _ _ h => h.elim)
    rintro - w₄ ⟨h₄, hview₄, -⟩
    refine wp_mono (discard_spec h₄) ?_ (fun _ _ h => h.elim)
    rintro - w₅ ⟨h₅, hview₅, -⟩
    have hview : w₅.view = w.view.setEvents fun events => { events with closed := true } := by
      rw [hview₅, hview₄, hview₃, hview₂, hview₁]
      rfl
    have hstate₅ := World.state_of_view hview
    refine Rests.emit .close ⟨?_, ⟨fun _ hf he hca => ?_, fun _ hcq => ?_⟩, hview⟩
    · rw [hstate₅]
      exact h₅
    · rw [hstate₅] at hf he hca
      have hf : w.state.events.finished = false := hf
      have he : w.state.events.error = none := he
      have hca : w.state.events.cancelled = false := hca
      simp [World.view, hf, he, hca] at hover
    · rw [hstate₅] at hcq
      exact absurd (hqueued.symm.trans hcq) (by decide)

end

end TsonicNode.Stream
