import TsonicNode.Stream.WritableCallbacks

/-!
# The bytes of a writable stream

Where the bytes of the accepted chunks are. `transfer_took` says what one
buffer adds to what the descriptor has taken, `flushFrom_poured` what the loop
of `_flush` adds, and `Account` is the invariant of the operations: the counter
of buffered bytes, the position and the transfers fit the chunks. `Tally`
counts the `drain` events of an open stream, and `Owing` follows a write that
returned `false` until its `drain`.
-/

namespace TsonicNode.Stream

open TsonicNode.Lib TsonicNode.Internal

/-! ## One buffer -/

namespace DescriptorState

/-- The bytes the descriptor has taken, in order. -/
def handed (file : DescriptorState) : List UInt8 := file.transfers.flatMap Prod.snd

/-- Each transfer goes to where the ones before it end. -/
def Laid (start : Option Int) (file : DescriptorState) : Prop :=
  ∀ before transfer after, file.transfers = before ++ transfer :: after →
    transfer.1 = start.map (· + ((before.flatMap Prod.snd).length : Int))

/-- The descriptor takes some more bytes. -/
structure Took (start : Option Int) (bytes : List UInt8) (file file' : DescriptorState) : Prop where
  handed : file'.handed = file.handed ++ bytes
  laid : file.Laid start → file'.Laid start

theorem Took.trans {start : Option Int} {bytes bytes' : List UInt8}
    {file file' file'' : DescriptorState} (h : Took start bytes file file')
    (h' : Took start bytes' file' file'') : Took start (bytes ++ bytes') file file'' :=
  ⟨by rw [h'.handed, h.handed, List.append_assoc], h'.laid ∘ h.laid⟩

/-- Nothing is transferred. -/
theorem Took.nothing {start : Option Int} {file file' : DescriptorState}
    (h : file'.transfers = file.transfers) : Took start [] file file' where
  handed := by rw [DescriptorState.handed, DescriptorState.handed, h, List.append_nil]
  laid hlaid := by
    unfold Laid at hlaid ⊢
    rw [h]
    exact hlaid

/-- A transfer right behind the others. -/
theorem Took.transfer {start offset : Option Int} {bytes : List UInt8}
    {file file' : DescriptorState} (h : file'.transfers = file.transfers ++ [(offset, bytes)])
    (hoffset : offset = start.map (· + (file.handed.length : Int))) :
    Took start bytes file file' where
  handed := by simp [DescriptorState.handed, h]
  laid hlaid := by
    intro before transfer after heq
    rw [h] at heq
    rcases List.eq_nil_or_concat after with rfl | ⟨after, last, rfl⟩
    · obtain ⟨hbefore, hone⟩ := List.append_inj' heq (by simp)
      obtain rfl : (offset, bytes) = transfer := List.singleton_inj.mp hone
      rw [← hbefore]
      exact hoffset
    · rw [List.concat_eq_append, ← List.cons_append, ← List.append_assoc] at heq
      exact hlaid before transfer after (List.append_inj' heq (by simp)).1

/-- The transfers of one buffer add a part of it to what the descriptor took, all of it when they
come to its end. -/
theorem transfer_took {start : Option Int} {bytes : List UInt8} {offset : Option Int}
    (answers : List (Int × Nat)) {count : Nat} {file : DescriptorState}
    (hoffset : offset.map (· + (count : Int)) = start.map (· + (file.handed.length : Int)))
    (hcount : count ≤ bytes.length) :
    ∃ piece, piece <+: bytes.drop count ∧
      Took start piece file (transfer bytes offset answers count file).2.1 ∧
      ∀ total, (transfer bytes offset answers count file).1 = .ok total →
        total = bytes.length ∧ piece = bytes.drop count := by
  induction answers generalizing count file with
  | nil =>
    unfold transfer
    by_cases hend : bytes.length ≤ count
    · rw [if_pos hend]
      refine ⟨[], List.nil_prefix, .nothing rfl, ?_⟩
      rintro total ⟨⟩
      exact ⟨by omega, (List.drop_eq_nil_iff.mpr hend).symm⟩
    · rw [if_neg hend]
      refine ⟨bytes.drop count, List.prefix_refl _, .transfer rfl hoffset, ?_⟩
      rintro total ⟨⟩
      exact ⟨rfl, rfl⟩
  | cons answer answers ih =>
    obtain ⟨written, errno⟩ := answer
    unfold transfer
    by_cases hend : bytes.length ≤ count
    · rw [if_pos hend]
      refine ⟨[], List.nil_prefix, .nothing rfl, ?_⟩
      rintro total ⟨⟩
      exact ⟨by omega, (List.drop_eq_nil_iff.mpr hend).symm⟩
    · rw [if_neg hend]
      by_cases hwritten : written ≤ 0
      · dsimp only
        rw [if_pos hwritten]
        refine ⟨[], List.nil_prefix, .nothing rfl, ?_⟩
        rintro total ⟨⟩
      · dsimp only
        rw [if_neg hwritten]
        generalize htaken : min written.toNat (bytes.length - count) = taken
        have hfits : count + taken ≤ bytes.length := by omega
        have hlength : ((bytes.drop count).take taken).length = taken := by
          rw [List.length_take, List.length_drop]
          omega
        -- the transfer itself, and what the ones after it do
        have hfirst : Took start ((bytes.drop count).take taken) file
            { file with
              bytesWritten := file.bytesWritten + taken
              transfers := file.transfers ++
                [(offset.map (· + (count : Int)), (bytes.drop count).take taken)] } :=
          .transfer rfl hoffset
        obtain ⟨piece, hpiece, htook, htotal⟩ := @ih (count + taken)
          { file with
            bytesWritten := file.bytesWritten + taken
            transfers := file.transfers ++
              [(offset.map (· + (count : Int)), (bytes.drop count).take taken)] }
          (by
            rw [hfirst.handed, List.length_append, hlength]
            cases offset <;> cases start <;> simp at hoffset ⊢
            omega) hfits
        have hsplit : bytes.drop count =
            (bytes.drop count).take taken ++ bytes.drop (count + taken) := by
          rw [← List.drop_drop, List.take_append_drop]
        refine ⟨(bytes.drop count).take taken ++ piece, ?_, hfirst.trans htook, ?_⟩
        · conv_rhs => rw [hsplit]
          exact List.prefix_append_right_inj _ |>.mpr hpiece
        · intro total hok
          obtain ⟨rfl, rfl⟩ := htotal total hok
          exact ⟨rfl, hsplit.symm⟩

theorem write_took {start : Option Int} {bytes : List UInt8} {offset : Option Int}
    (answers : List (Int × Nat)) {file : DescriptorState}
    (hoffset : offset = start.map (· + (file.handed.length : Int))) :
    ∃ piece, piece <+: bytes ∧ Took start piece file (file.write bytes offset answers).2.1 ∧
      ∀ total, (file.write bytes offset answers).1 = .ok total →
        total = bytes.length ∧ piece = bytes := by
  unfold write
  by_cases hopen : file.isOpen = false
  · rw [if_pos hopen]
    refine ⟨[], List.nil_prefix, .nothing rfl, ?_⟩
    rintro total ⟨⟩
  · rw [if_neg hopen]
    have h := @transfer_took start bytes offset answers 0 file (by rw [← hoffset]; cases offset <;> simp) (Nat.zero_le _)
    rwa [List.drop_zero] at h

theorem close_transfers (answers : Answers) (file : DescriptorState) :
    (file.close answers).2.transfers = file.transfers := by
  unfold close
  split
  · rfl
  · dsimp only
    split <;> rfl

end DescriptorState

/-! ## The counters -/

namespace View

/-- The bytes of some requests. -/
def size (requests : List WriteRequest) : Nat :=
  (requests.map WriteRequest.chunk).flatten.length

@[simp] theorem size_nil : size [] = 0 := rfl

@[simp] theorem size_cons (request : WriteRequest) (requests : List WriteRequest) :
    size (request :: requests) = request.chunk.length + size requests :=
  List.length_append

@[simp] theorem size_append (requests requests' : List WriteRequest) :
    size (requests ++ requests') = size requests + size requests' := by
  unfold size
  rw [List.map_append, List.flatten_append, List.length_append]

/-- The position is behind the chunks that were written to their end, each transfer behind the ones
before it. -/
structure Placed (start : Option Int) (v : View) : Prop where
  position : v.state.position = start.map (· + (v.state.file.whole.flatten.length : Int))
  laid : v.state.file.Laid start

/-- The loop of `_flush` hands the chunks over from the first on; it comes to their end or fails. -/
theorem flushFrom_poured {start : Option Int} (requests : List WriteRequest) (completed : Nat)
    (answers : List (Int × Nat)) {v : View} (hplaced : v.Placed start)
    (heven : v.state.file.handed = v.state.file.whole.flatten)
    (hbuffered : v.state.bufferedBytes = size requests) :
    ∃ piece, piece <+: (requests.map WriteRequest.chunk).flatten ∧
      (v.flushFrom requests completed answers).2.Placed start ∧
      (v.flushFrom requests completed answers).2.state.file.handed =
        v.state.file.handed ++ piece ∧
      (v.flushFrom requests completed answers).2.state.bufferedBytes = 0 ∧
      ((v.flushFrom requests completed answers).1 = true →
        piece = (requests.map WriteRequest.chunk).flatten) := by
  induction requests generalizing completed answers v with
  | nil => exact ⟨[], List.prefix_refl _, hplaced, (List.append_nil _).symm, hbuffered, fun _ => rfl⟩
  | cons request requests ih =>
    obtain ⟨piece, hpiece, htook, htotal⟩ := @DescriptorState.write_took start request.chunk
      v.state.position answers v.state.file (by rw [heven]; exact hplaced.position)
    have hwrite := DescriptorState.write_cases request.chunk v.state.position answers v.state.file
    unfold flushFrom
    generalize v.state.file.write request.chunk v.state.position answers = result
      at htook htotal hwrite ⊢
    rcases result with ⟨error | count, file, answers'⟩
    · obtain ⟨-, hwhole⟩ := hwrite
      dsimp only at hwhole htook ⊢
      refine ⟨piece, ?_, ⟨?_, ?_⟩, ?_, ?_, fun h => by cases h⟩
      · exact hpiece.trans (List.prefix_append _ _)
      · rw [fail_same]
        exact hplaced.position.trans (by rw [← hwhole]; rfl)
      · rw [fail_same]
        exact htook.laid hplaced.laid
      · rw [fail_same]
        exact htook.handed
      · rw [fail_same]
    · obtain ⟨-, hwhole⟩ := hwrite
      obtain ⟨rfl, rfl⟩ := htotal count rfl
      dsimp only at hwhole htook ⊢
      have hflatten : file.whole.flatten = v.state.file.whole.flatten ++ request.chunk := by
        rw [hwhole, List.flatten_append, List.flatten_singleton]
      obtain ⟨piece, hprefix, hplaced', hhanded, hempty, hall⟩ :=
        ih (completed + 1) answers' (v := (v.setState fun state =>
          { state with
            file
            bytesWritten := state.bytesWritten + request.chunk.length
            bufferedBytes := state.bufferedBytes - request.chunk.length
            position := state.position.map (· + (request.chunk.length : Int)) }).completeAll none
              (Writable.completions [request]))
          ⟨by
            simp only [completeAll_state, setState_state, hplaced.position, hflatten]
            cases start <;> simp [Int.add_assoc], htook.laid hplaced.laid⟩
          (by
            simp only [completeAll_state, setState_state, htook.handed, hflatten, heven])
          (by
            simp only [completeAll_state, setState_state, hbuffered, size_cons]
            omega)
      refine ⟨request.chunk ++ piece, ?_, hplaced', ?_, hempty, fun hdone => ?_⟩
      · rw [List.map_cons, List.flatten_cons]
        exact (List.prefix_append_right_inj _).mpr hprefix
      · rw [hhanded]
        simp only [completeAll_state, setState_state, htook.handed, List.append_assoc]
      · rw [List.map_cons, List.flatten_cons, hall hdone]

/-- Where the accepted bytes are. -/
structure Account (start : Option Int) (accepted : List (List UInt8)) (v : View) : Prop where
  buffered : v.state.bufferedBytes = size v.state.chunks
  placed : v.Placed start
  handed : v.state.file.handed <+: accepted.flatten
  even : v.state.failed = false → v.state.file.handed = v.state.file.whole.flatten
  kept : v.state.failed = false → v.state.events.cancelled = false →
    v.state.file.whole ++ v.state.chunks.map WriteRequest.chunk = accepted

/-- Nothing happens to the bytes. -/
structure Alike (v v' : View) : Prop where
  whole : v'.state.file.whole = v.state.file.whole
  transfers : v'.state.file.transfers = v.state.file.transfers
  position : v'.state.position = v.state.position
  chunks : v'.state.chunks = v.state.chunks
  buffered : v'.state.bufferedBytes = v.state.bufferedBytes
  failed : v'.state.failed = v.state.failed
  cancelled : v'.state.events.cancelled = v.state.events.cancelled

theorem Alike.refl (v : View) : Alike v v := ⟨rfl, rfl, rfl, rfl, rfl, rfl, rfl⟩

theorem Alike.trans {v v' v'' : View} (h : Alike v v') (h' : Alike v' v'') : Alike v v'' where
  whole := h'.whole.trans h.whole
  transfers := h'.transfers.trans h.transfers
  position := h'.position.trans h.position
  chunks := h'.chunks.trans h.chunks
  buffered := h'.buffered.trans h.buffered
  failed := h'.failed.trans h.failed
  cancelled := h'.cancelled.trans h.cancelled

theorem SameBut.alike {v v' : View} (h : SameBut v v')
    (hcancelled : v'.state.events.cancelled = v.state.events.cancelled) : Alike v v' := by
  have hstate := h.state
  constructor
  · rw [hstate]
  · rw [hstate]
  · rw [hstate]
  · rw [hstate]
  · rw [hstate]
  · rw [hstate]
  · exact hcancelled

theorem closeEvents_alike (v : View) : Alike v v.closeEvents :=
  (closeEvents_same v).alike (closeEvents_cancelled v)

theorem finishEvents_alike (v : View) : Alike v v.finishEvents :=
  (finishEvents_same v).alike (Moves.cancelled (.single (.finish v)))

theorem drain_alike (v : View) : Alike v v.drain :=
  (drain_same v).alike (Moves.cancelled (.single (.drain v)))

theorem failEvents_alike (error : TsError) (v : View) : Alike v (v.failEvents error) :=
  (failEvents_same error v).alike (Moves.cancelled (.single (.fail v error)))

theorem closeDescriptor_alike (answers : Answers) (v : View) :
    Alike v (v.closeDescriptor answers).2 := by
  rw [closeDescriptor_view]
  refine ⟨?_, ?_, rfl, rfl, rfl, rfl, rfl⟩
  · rw [setState_state]
    split
    · exact v.state.file.close_whole answers
    · rfl
  · rw [setState_state]
    split
    · exact v.state.file.close_transfers answers
    · rfl

theorem retainEnds_alike (completion : Option StreamCompletion) (v : View) :
    Alike v (v.retainEnds completion) := by
  have hstate := v.retainEnds_state completion
  constructor <;> rw [hstate]

theorem release_alike (answers : Answers) (v : View) : Alike v (v.release answers) := by
  have hdescriptor := v.closeDescriptor_alike answers
  unfold release
  generalize v.closeDescriptor answers = result at hdescriptor ⊢
  obtain ⟨_ | failure, v'⟩ := result
  · exact hdescriptor
  · exact hdescriptor.trans (failEvents_alike _ _)

/-- A started event does nothing to the bytes. -/
theorem deliver_alike (entry : Entry) (v : View) : Alike v (v.deliver entry) := by
  cases entry with
  | completion callback error => exact { Alike.refl v with }
  | foreign => exact { Alike.refl v with }
  | event event =>
    cases event with
    | complete =>
      unfold deliver invoke
      dsimp only
      split
      · exact { Alike.refl v with }
      · refine { SameBut.alike (queueClose_same (v.started (.event .complete)).finishing) ?_ with }
        rw [(v.started (.event .complete)).finishing.queueClose_events.1]
    | error => exact { Alike.refl v with }
    | finish =>
      unfold deliver invoke
      dsimp only
      split <;> exact { Alike.refl v with }
    | drain =>
      unfold deliver invoke
      dsimp only
      split <;> exact { Alike.refl v with }
    | close => exact { Alike.refl v with }

section
variable {start : Option Int} {accepted : List (List UInt8)} {v v' : View}

theorem Alike.handed (h : Alike v v') : v'.state.file.handed = v.state.file.handed := by
  rw [DescriptorState.handed, h.transfers]
  rfl

theorem Placed.same (h : v.Placed start) (hwhole : v'.state.file.whole = v.state.file.whole)
    (htransfers : v'.state.file.transfers = v.state.file.transfers)
    (hposition : v'.state.position = v.state.position) : v'.Placed start where
  position := by rw [hposition, hwhole, h.position]
  laid := (DescriptorState.Took.nothing htransfers).laid h.laid

theorem Account.alike (h : v.Account start accepted) (ha : Alike v v') :
    v'.Account start accepted where
  buffered := by rw [ha.buffered, ha.chunks, h.buffered]
  placed := h.placed.same ha.whole ha.transfers ha.position
  handed := by rw [ha.handed]; exact h.handed
  even := by rw [ha.failed, ha.handed, ha.whole]; exact h.even
  kept := by rw [ha.failed, ha.cancelled, ha.whole, ha.chunks]; exact h.kept

/-- A stream that gives its chunks up. -/
theorem Account.give_up (h : v.Account start accepted) {v' : View}
    (hwhole : v'.state.file.whole = v.state.file.whole)
    (htransfers : v'.state.file.transfers = v.state.file.transfers)
    (hposition : v'.state.position = v.state.position) (hchunks : v'.state.chunks = [])
    (hbuffered : v'.state.bufferedBytes = 0)
    (hstopped : v'.state.failed = true ∨
      v'.state.failed = v.state.failed ∧ v'.state.events.cancelled = true) :
    v'.Account start accepted where
  buffered := by rw [hbuffered, hchunks]; rfl
  placed := h.placed.same hwhole htransfers hposition
  handed := by
    unfold DescriptorState.handed
    rw [htransfers]
    exact h.handed
  even hfailed := by
    rcases hstopped with hf | ⟨hf, -⟩
    · rw [hf] at hfailed
      cases hfailed
    · unfold DescriptorState.handed
      rw [htransfers, hwhole]
      exact h.even (hf.symm.trans hfailed)
  kept hfailed hcancelled := by
    rcases hstopped with hf | ⟨-, hc⟩
    · rw [hf] at hfailed
      cases hfailed
    · rw [hc] at hcancelled
      cases hcancelled

theorem Account.fail (h : v.Account start accepted) (error : TsError) (completed : Nat) :
    (v.fail error completed).Account start accepted := by
  have hstate := v.fail_same error completed
  refine h.give_up ?_ ?_ ?_ ?_ ?_ (.inl ?_) <;> rw [hstate]

/-- A chunk joins the ones that wait. -/
theorem Account.accept (h : v.Account start accepted) (value : List UInt8)
    (completion : Option StreamCompletion) :
    (v.accept value completion).Account start (accepted ++ [value]) where
  buffered := by
    show v.state.bufferedBytes + value.length = (size (v.state.chunks ++ [⟨value, completion⟩]) : Nat)
    rw [h.buffered, size_append, size_cons, size_nil, Nat.add_zero]
    exact (Int.natCast_add _ _).symm
  placed := h.placed.same rfl rfl rfl
  handed := by
    rw [List.flatten_append]
    exact h.handed.trans (List.prefix_append _ _)
  even := h.even
  kept hfailed hcancelled := by
    rw [← h.kept hfailed hcancelled]
    simp [View.accept]

/-- What `_flush` hands over is what waits first. -/
theorem Account.flush (h : v.Account start accepted) (answers : Answers)
    (hempty : v.state.events.cancelled = true → v.state.chunks = []) :
    (v.flush_ answers).Account start accepted := by
  by_cases hskip : v.state.hasDescriptor = false ∨ v.state.failed = true
  · have hflush : v.flush_ answers = v := if_pos (by simpa using hskip)
    rw [hflush]
    exact h
  · simp only [not_or, Bool.not_eq_true, Bool.not_eq_false] at hskip
    obtain ⟨hdescriptor, hfailed⟩ := hskip
    obtain ⟨piece, hpiece, hplaced, hhanded, hbuffered, hall⟩ :=
      flushFrom_poured v.state.chunks 0 answers.writes h.placed (h.even hfailed) h.buffered
    -- what is handed over now, behind what was handed over before, is still of the accepted bytes
    have hprefix : v.state.file.handed ++ piece <+: accepted.flatten := by
      cases hcancelled : v.state.events.cancelled with
      | true =>
        rw [hempty hcancelled] at hpiece
        obtain rfl := List.prefix_nil.mp hpiece
        rw [List.append_nil]
        exact h.handed
      | false =>
        rw [← h.kept hfailed hcancelled, List.flatten_append, h.even hfailed]
        exact (List.prefix_append_right_inj _).mpr hpiece
    unfold View.flush_
    rw [if_neg (by simp [hdescriptor, hfailed])]
    obtain ⟨v', ⟨hwrote, heq⟩ | ⟨done, request, left, error, hchunks, hwrote, heq⟩⟩ :=
      flushFrom_cases v.state.chunks 0 answers.writes v
    · rw [heq] at hplaced hhanded hbuffered hall ⊢
      obtain rfl := hall rfl
      have hemptied : ∀ drain, (v'.setState fun state =>
          { state with chunks := [], needDrain := drain }).Account start accepted := fun drain =>
        { buffered := hbuffered
          placed := hplaced.same rfl rfl rfl
          handed := hhanded ▸ hprefix
          even := fun _ => by
            show v'.state.file.handed = v'.state.file.whole.flatten
            rw [hhanded, hwrote.whole, List.flatten_append, h.even hfailed]
          kept := fun _ hcancelled => by
            have hopen : v.state.events.cancelled = false := by
              rw [← hcancelled, setState_state, hwrote.state]
            show v'.state.file.whole ++ [] = accepted
            rw [hwrote.whole, List.append_nil, h.kept hfailed hopen] }
      dsimp only
      split
      · exact (hemptied false).alike (drain_alike _)
      · exact hemptied v'.state.needDrain
    · rw [heq] at hplaced hhanded hbuffered ⊢
      obtain ⟨hnone, -, hstopped⟩ := v'.fail_state error (0 + done.length)
      exact
        { buffered := by rw [hnone]; exact hbuffered
          placed := hplaced
          handed := hhanded ▸ hprefix
          even := fun hf => by rw [hstopped] at hf; cases hf
          kept := fun hf => by rw [hstopped] at hf; cases hf }

/-- A chunk that an open stream takes is accepted; one that is refused fails the stream. -/
theorem Account.write (h : v.Account start accepted) (value : List UInt8)
    (completion : Option StreamCompletion) (answers : Answers) :
    (v.write value completion answers).Account start
      (if v.state.writable then accepted ++ [value] else accepted) := by
  unfold View.write
  by_cases hwritable : v.state.writable = true
  · rw [if_neg (not_not.mpr hwritable), if_pos hwritable]
    have haccept := h.accept value completion
    have hopen : ¬ v.state.events.cancelled = true := by
      intro hc
      simp [WritableState.writable, hc] at hwritable
    have hwritten : (if (v.accept value completion).state.corked = 0 then
        (v.accept value completion).flush_ answers else v.accept value completion).Account start
          (accepted ++ [value]) := by
      split
      · exact haccept.flush answers fun hc => absurd hc hopen
      · exact haccept
    dsimp only
    generalize (if (v.accept value completion).state.corked = 0 then
        (v.accept value completion).flush_ answers else v.accept value completion) = v' at hwritten ⊢
    exact hwritten.alike { Alike.refl v' with }
  · rw [if_pos hwritable, if_neg hwritable]
    dsimp only
    generalize v.state.failure "Cannot write to an ended, closed or failed stream" = error
    have hreported : (v.completeAll (some error) completion.toList).Account start accepted :=
      h.alike { Alike.refl v with }
    split
    · exact hreported.fail error 0
    · exact hreported

theorem Account.settle (h : v.Account start accepted) (answers : Answers) :
    (v.settle answers).Account start accepted := by
  have hview := v.complete_view answers
  have hdescriptor := h.alike (v.closeDescriptor_alike answers)
  unfold View.settle
  generalize v.complete answers = result at hview ⊢
  obtain ⟨raised, v'⟩ := result
  have h' : v'.Account start accepted := by
    rcases hview with ⟨rfl, -⟩ | rfl
    · exact h
    · exact hdescriptor
  cases raised with
  | some error => exact h'.fail _ 0
  | none =>
    have hfinished := h'.alike (finishEvents_alike v')
    dsimp only
    split
    · exact hfinished.alike (closeEvents_alike _)
    · exact hfinished

theorem Account.finish (h : v.Account start accepted) (answers : Answers) (hr : v.Rest) :
    (v.finish answers).Account start accepted := by
  unfold View.finish
  split
  · exact h
  · split
    · exact h
    · have hquiet : (v.setState fun state => { state with ended := true, corked := 0 }).Account
          start accepted := h.alike { Alike.refl v with }
      have hflushed := hquiet.flush answers fun hc => hr.phase.empty (.inr (.inr hc))
      dsimp only
      split
      · exact hflushed
      · exact hflushed.settle answers

theorem Account.uncork (h : v.Account start accepted) (answers : Answers) (hr : v.Rest) :
    (v.uncork answers).Account start accepted := by
  unfold View.uncork
  split
  · have hquiet : (v.setState fun state => { state with corked := state.corked - 1 }).Account
        start accepted := h.alike { Alike.refl v with }
    dsimp only
    split
    · exact hquiet.flush answers fun hc => hr.phase.empty (.inr (.inr hc))
    · exact hquiet
  · exact h

theorem Account.close (h : v.Account start accepted) (answers : Answers) (hr : v.Rest) :
    (v.close answers).2.Account start accepted := by
  have hfinished := h.finish answers hr
  have hdescriptor := hfinished.alike (closeDescriptor_alike answers _)
  unfold View.close closeFinally
  split
  · rename_i heq
    split at heq
    · cases heq
    · rw [heq] at hdescriptor
      exact hdescriptor
  · rename_i heq
    split at heq
    · cases heq
      exact hfinished.alike (closeEvents_alike _)
    · rw [heq] at hdescriptor
      exact hdescriptor.alike (closeEvents_alike _)

theorem failEventsWith_alike (error : Option TsError) (v : View) :
    Alike v (v.failEventsWith error) := by
  cases error with
  | none => exact .refl v
  | some error => exact failEvents_alike error v

theorem Account.destroy (h : v.Account start accepted) (error : Option TsError)
    (answers : Answers) : (v.destroy error answers).Account start accepted := by
  unfold View.destroy
  split
  · exact h
  · have habandon : (v.cancel.abandon (v.destruction error)).Account start accepted :=
      h.give_up rfl rfl rfl rfl rfl (.inr ⟨rfl, rfl⟩)
    have hfailed := habandon.alike (failEventsWith_alike error _)
    have hreleased := hfailed.alike (release_alike answers _)
    exact hreleased.alike (closeEvents_alike _)

end

end View

/-- Every step accounts for the bytes of the chunks that were accepted. -/
theorem Outcome.account {start : Option Int} {s : System} {label : Label} {v' : View}
    {h' : History} (houtcome : Outcome s label v' h') (hr : s.world.view.Rest)
    (ha : s.world.view.Account start (s.history.accepted.map Prod.fst)) :
    v'.Account start (h'.accepted.map Prod.fst) := by
  -- the history takes a chunk in exactly when the stream does
  have haccepted : ∀ (v : View) (value : List UInt8) (callback : Option WriteCallback)
      (history : History), v.Account start (if s.world.state.writable then
          s.history.accepted.map Prod.fst ++ [value] else s.history.accepted.map Prod.fst) →
      history.accepted = (if s.world.state.writable then
        s.history.accepted ++ [(value, callback)] else s.history.accepted) →
      v.Account start (history.accepted.map Prod.fst) := by
    intro v value callback history hv hhistory
    rw [hhistory]
    split at hv
    · rename_i hwritable
      rw [if_pos hwritable, List.map_append]
      exact hv
    · rename_i hwritable
      rw [if_neg hwritable]
      exact hv
  cases houtcome with
  | write completion hcallback hadmits =>
    exact haccepted _ _ _ _ (ha.write _ completion _) rfl
  | «end» completion hcallback =>
    exact (ha.alike (View.retainEnds_alike completion _)).finish _
      (View.retainEnds_goes completion hr).rest
  | @endChunk value given answers completion hcallback hadmits =>
    have hrest := (View.retainEnds_goes completion hr).rest
    have hwritten := (ha.alike (View.retainEnds_alike completion _)).write value none answers
    have hwritable : (s.world.view.retainEnds completion).state.writable =
        s.world.state.writable := by
      rw [View.retainEnds_state]
      rfl
    rw [hwritable] at hwritten
    exact haccepted _ value none _
      (hwritten.finish answers (View.write_goes value none answers hrest).rest) rfl
  | endChunkRaised completion hcallback => exact ha.alike (View.retainEnds_alike completion _)
  | cork => exact ha.alike { View.Alike.refl s.world.view with }
  | uncork => exact ha.uncork _ hr
  | close => exact ha.close _ hr
  | closeRaised => exact ha
  | destroy => exact ha.destroy _ _
  | raised => exact ha
  | deliver hnext => exact ha.alike (View.deliver_alike _ _)
  | other => exact ha.alike { View.Alike.refl s.world.view with }
  | idle => exact ha

end TsonicNode.Stream
