import TsonicNode.Http.Messages

/-!
# The end of a response

`putHeader_eq` says what one header does to the header loop and when it raises,
`foldlM_putHeader` what all of them do. `headResult_eq` puts this together: the
head is written exactly when the response is `Sendable`, and then it is
`headOf`. `finish_spec` lists the ways in which `_finish` can go.
-/

namespace TsonicNode.Http

open TsonicNode.Lib TsonicNode.Lib.Http

variable {casing : Casing} {s : ResponseState}

/-- The loop compares names in lower case. -/
def named (casing : Casing) (name : Bytes) (header : Field) : Bool :=
  decide (casing.lower header.name = name)

/-- The status drops a length. -/
def ResponseState.lengthless (s : ResponseState) : Bool :=
  decide (s.statusCode < 200) || decide (s.statusCode = 204)

/-- The loop writes this header. -/
def kept (casing : Casing) (s : ResponseState) (header : Field) : Bool :=
  !named casing (ascii "connection") header &&
    !(named casing transferEncoding header && s.bare) &&
    !(named casing contentLength header && s.lengthless)

/-- The loop does not raise at this header. -/
def Fits (casing : Casing) (s : ResponseState) (header : Field) : Prop :=
  (named casing transferEncoding header = true →
      casing.lower (strip header.value) = ascii "chunked") ∧
    (named casing contentLength header = true → s.noBody = false →
      atol header.value = some (s.body.length : Int))

def HeaderLoop.next (casing : Casing) (s : ResponseState) (l : HeaderLoop) (header : Field) :
    HeaderLoop :=
  { head := l.head ++ if kept casing s header then header.render else []
    hasLength := l.hasLength || (kept casing s header && named casing contentLength header)
    chunked := l.chunked || named casing transferEncoding header }

theorem noBody_of_lengthless (h : s.lengthless = true) : s.noBody = true := by
  unfold ResponseState.lengthless at h
  unfold ResponseState.noBody
  obtain h | h := (Bool.or_eq_true _ _).mp h <;> simp [h]

theorem noBody_eq : s.noBody = (s.headRequest || s.bare) := by
  unfold ResponseState.noBody ResponseState.bare
  simp only [Bool.or_assoc]

theorem putHeader_eq (casing : Casing) (s : ResponseState) (l : HeaderLoop) (header : Field) :
    (Fits casing s header ∧ putHeader casing s l header = .ok (l.next casing s header)) ∨
      (¬ Fits casing s header ∧ ∃ error, putHeader casing s l header = .error error) := by
  unfold putHeader HeaderLoop.next Fits kept named
  generalize casing.lower header.name = name
  by_cases hconnection : name = ascii "connection"
  · left
    subst hconnection
    simp [show ascii "connection" ≠ transferEncoding by decide,
      show ascii "connection" ≠ contentLength by decide]
  by_cases htransfer : name = transferEncoding
  · subst htransfer
    have hne : transferEncoding ≠ contentLength := by decide
    by_cases hvalue : casing.lower (strip header.value) = ascii "chunked"
    · left
      cases hbare : s.bare <;>
        simp [hconnection, hne, hvalue, HeaderLoop.put, Field.render,
          show ascii "transfer-encoding" = transferEncoding from rfl]
    · right
      simp [hconnection, hvalue, show ascii "transfer-encoding" = transferEncoding from rfl]
  by_cases hlength : name = contentLength
  · subst hlength
    have hne : contentLength ≠ ascii "transfer-encoding" := by decide
    by_cases hless : s.lengthless = true
    · left
      have hbody := noBody_of_lengthless hless
      have hstatus : s.statusCode < 200 ∨ s.statusCode = 204 := by
        simpa [ResponseState.lengthless] using hless
      simp [hconnection, htransfer, hne, hless, hbody, hstatus,
        show ascii "content-length" = contentLength from rfl]
    · have hstatus : ¬ (s.statusCode < 200 ∨ s.statusCode = 204) := by
        simpa [ResponseState.lengthless] using hless
      rw [Bool.not_eq_true] at hless
      cases hbody : s.noBody with
      | true =>
        left
        simp [hconnection, htransfer, hne, hless, hstatus, HeaderLoop.put, Field.render,
          show ascii "content-length" = contentLength from rfl]
      | false =>
        cases hatol : atol header.value with
        | none =>
          right
          simp [hconnection, htransfer, hne, hstatus,
            show ascii "content-length" = contentLength from rfl]
        | some length =>
          by_cases heq : length = (s.body.length : Int)
          · left
            simp [hconnection, htransfer, hne, hless, hstatus, heq, HeaderLoop.put, Field.render,
              show ascii "content-length" = contentLength from rfl]
          · right
            simp [hconnection, htransfer, hne, hstatus, heq,
              show ascii "content-length" = contentLength from rfl]
  · left
    have ht : name ≠ ascii "transfer-encoding" := htransfer
    have hl : name ≠ ascii "content-length" := hlength
    simp [hconnection, htransfer, hlength, ht, hl, HeaderLoop.put, Field.render]

/-- What the loop has written and seen behind these headers. -/
def HeaderLoop.after (casing : Casing) (s : ResponseState) (l : HeaderLoop)
    (headers : List Field) : HeaderLoop :=
  { head := l.head ++ (headers.filter (kept casing s)).flatMap Field.render
    hasLength := l.hasLength || headers.any fun h => kept casing s h && named casing contentLength h
    chunked := l.chunked || headers.any (named casing transferEncoding) }

theorem HeaderLoop.after_next (l : HeaderLoop) (header : Field) (headers : List Field) :
    (l.next casing s header).after casing s headers = l.after casing s (header :: headers) := by
  unfold HeaderLoop.after HeaderLoop.next
  rw [List.filter_cons, List.any_cons, List.any_cons]
  cases kept casing s header <;> simp [Bool.or_assoc]

/-- The loop gets through exactly the headers that all fit. -/
theorem foldlM_putHeader (casing : Casing) (s : ResponseState) (headers : List Field)
    (l : HeaderLoop) :
    ((∀ h ∈ headers, Fits casing s h) ∧
        headers.foldlM (putHeader casing s) l = .ok (l.after casing s headers)) ∨
      (¬ (∀ h ∈ headers, Fits casing s h) ∧
        ∃ error, headers.foldlM (putHeader casing s) l = .error error) := by
  induction headers generalizing l with
  | nil =>
    left
    refine ⟨List.forall_mem_nil _, ?_⟩
    simp [HeaderLoop.after, pure, Except.pure]
  | cons header headers ih =>
    rw [List.foldlM_cons]
    obtain ⟨hfits, hput⟩ | ⟨hfits, error, hput⟩ := putHeader_eq casing s l header
    · rw [hput]
      obtain ⟨hall, hfold⟩ | ⟨hall, error, hfold⟩ := ih (l.next casing s header)
      · left
        refine ⟨List.forall_mem_cons.mpr ⟨hfits, hall⟩, ?_⟩
        rw [← HeaderLoop.after_next]
        exact hfold
      · right
        exact ⟨fun h => hall (List.forall_mem_cons.mp h).2, error, hfold⟩
    · right
      rw [hput]
      exact ⟨fun h => hfits (List.forall_mem_cons.mp h).1, error, rfl⟩

/-- A `Content-Length` is written. -/
def hasLength (casing : Casing) (s : ResponseState) : Bool :=
  s.headers.any fun h => kept casing s h && named casing contentLength h

/-- The body is to be sent in chunks. -/
def chunked (casing : Casing) (s : ResponseState) : Bool :=
  s.headers.any (named casing transferEncoding)

/-- The response can be sent: `_finish` raises for nothing in it. -/
structure Sendable (casing : Casing) (s : ResponseState) : Prop where
  status : 100 ≤ s.statusCode ∧ s.statusCode ≤ 999
  fits : ∀ h ∈ s.headers, Fits casing s h
  single : ¬ (hasLength casing s = true ∧ chunked casing s = true)

/-- The head of a response that can be sent. -/
def headOf (casing : Casing) (s : ResponseState) : HeaderLoop :=
  { head := firstLine s ++ (s.headers.filter (kept casing s)).flatMap Field.render
    hasLength := hasLength casing s
    chunked := chunked casing s }

theorem after_firstLine (casing : Casing) (s : ResponseState) :
    HeaderLoop.after casing s { head := firstLine s } s.headers = headOf casing s := by
  unfold HeaderLoop.after headOf hasLength chunked
  simp

/-- The head is written exactly for the responses that can be sent. -/
theorem headResult_eq (casing : Casing) (s : ResponseState) :
    (Sendable casing s ∧ headResult casing s = .ok (headOf casing s)) ∨
      (¬ Sendable casing s ∧ ∃ error, headResult casing s = .error error) := by
  unfold headResult
  by_cases hstatus : s.statusCode < 100 ∨ 999 < s.statusCode
  · right
    rw [if_pos hstatus]
    refine ⟨fun h => ?_, _, rfl⟩
    have := h.status
    omega
  rw [if_neg hstatus]
  obtain ⟨hfits, hfold⟩ | ⟨hfits, error, hfold⟩ :=
    foldlM_putHeader casing s s.headers { head := firstLine s }
  · rw [hfold, after_firstLine]
    dsimp only
    by_cases hboth : (headOf casing s).hasLength = true ∧ (headOf casing s).chunked = true
    · right
      rw [if_pos hboth]
      exact ⟨fun h => h.single hboth, _, rfl⟩
    · left
      rw [if_neg hboth]
      exact ⟨⟨by omega, hfits, hboth⟩, rfl⟩
  · right
    rw [hfold]
    exact ⟨fun h => hfits h.fits, error, rfl⟩

/-! ## Sending -/

/-- What has been sent and what is still to be sent. -/
def ResponseState.message (s : ResponseState) : Bytes :=
  s.transport.sent ++ s.output.drop s.offset

theorem writeSome_spec (bytes : Bytes) (offset : Nat) (h : offset ≤ bytes.length)
    (t : HttpTransport) :
    wp (writeSome bytes offset)
      (fun n t' => offset + n ≤ bytes.length ∧
        t'.sent = t.sent ++ (bytes.drop offset).take n)
      (fun _ _ => True) t := by
  unfold wp writeSome
  dsimp only
  by_cases hcount : min (bytes.length - offset) 65536 = 0
  · rw [if_pos hcount]
    exact ⟨by omega, by simp⟩
  · rw [if_neg hcount]
    cases t.answers with
    | nil => exact ⟨by omega, by simp⟩
    | cons answer answers =>
      cases answer with
      | blocked => exact ⟨by omega, by simp⟩
      | failed error => trivial
      | accepted written =>
        dsimp only
        by_cases hnone : min written (min (bytes.length - offset) 65536) = 0
        · rw [if_pos hnone]
          trivial
        · rw [if_neg hnone]
          exact ⟨by omega, rfl⟩

theorem transportEnd_spec (t : HttpTransport) :
    wp transportEnd (fun _ t' => t'.sent = t.sent) (fun _ _ => True) t := by
  unfold wp transportEnd
  cases t.answers with
  | nil => rfl
  | cons answer answers => cases answer <;> trivial

/-- A write moves bytes from the output to the peer. -/
theorem pollWrite_spec (s : ResponseState) (h : s.offset ≤ s.output.length) :
    wp pollWrite (fun _ t => t.message = s.message) (fun _ _ => True) s := by
  unfold pollWrite onTransport
  simp only [wp_bind, wp_get, wp_zoom, wp_modify, wp_ite, wp_pure]
  refine wp_mono (writeSome_spec s.output s.offset h s.transport) ?_ fun _ _ _ => trivial
  rintro n t ⟨hlength, hsent⟩
  have hkeeps : t.sent ++ s.output.drop (s.offset + n) = s.message := by
    unfold ResponseState.message
    rw [hsent, List.append_assoc, ← List.drop_drop, List.take_append_drop]
  split
  case isTrue hend =>
    refine wp_mono (transportEnd_spec t) ?_ fun _ _ _ => trivial
    intro _ t' hsent'
    have hall : s.output.drop (s.offset + n) = [] := List.drop_eq_nil_of_le (by
      have := hend.1
      omega)
    rw [hall] at hkeeps
    simp only [ResponseState.message, hsent', List.drop_nil]
    exact hkeeps
  case isFalse => exact hkeeps

/-- A poll that raises has closed the transport. -/
theorem poll_spec (s : ResponseState) :
    wp poll (fun _ t => s.offset ≤ s.output.length → t.message = s.message)
      (fun _ t => t.transport ≠ s.transport) s := by
  have hwrite : wp pollWrite (fun _ t => s.offset ≤ s.output.length → t.message = s.message)
      (fun _ _ => True) s := by
    by_cases h : s.offset ≤ s.output.length
    · exact wp_mono (pollWrite_spec s h) (fun _ _ ht _ => ht) fun _ _ ht => ht
    · exact wp_of_forall (fun _ _ hoffset => absurd hoffset h) fun _ _ => trivial
  unfold poll
  simp only [wp_bind, wp_get, wp_ite, wp_pure, wp_tryCatch]
  split
  case isTrue => exact fun _ => trivial
  case isFalse hopen =>
    refine wp_mono hwrite (fun _ _ ht => ht) ?_
    intro error t _
    unfold destroy
    simp only [wp_modify, wp_throw]
    intro heq
    have hclosed : s.transport.isOpen = false := by rw [← heq]; rfl
    exact hopen (by rw [HttpTransport.closed, hclosed]; simp)

/-! ## Ending -/

def ResponseState.appended (s : ResponseState) (value : Bytes) : ResponseState :=
  { s with body := s.body ++ value }

/-- The response takes the chunk. -/
def ResponseState.Takes (s : ResponseState) (value : Bytes) : Prop :=
  s.finished = false ∧ s.body.length + value.length ≤ bodyLimit

theorem append_spec (s : ResponseState) (value : Bytes) :
    wp (append value) (fun _ t => s.Takes value ∧ t = s.appended value)
      (fun _ t => ¬ s.Takes value ∧ t = s) s := by
  unfold append ResponseState.Takes
  simp only [wp_bind, wp_get, wp_ite, wp_throw, wp_modify]
  split
  case isTrue hfinished =>
    exact ⟨fun h => Bool.false_ne_true (h.1.symm.trans hfinished), trivial⟩
  case isFalse hfinished =>
    split
    case isTrue hlong =>
      refine ⟨fun h => ?_, trivial⟩
      omega
    case isFalse hlong => exact ⟨⟨Bool.eq_false_iff.mpr hfinished, by omega⟩, rfl⟩

/-- How `_finish` ends: with the whole output under way, before the chunk is taken, behind it, or
in the transport. -/
theorem finish_spec (casing : Casing) (s : ResponseState) (value : Bytes) :
    wp (finish casing value)
      (fun _ t => (s.Takes value ∧ Sendable casing (s.appended value)) ∧
        (s.offset = 0 → t.message =
          s.transport.sent ++ outputOf (s.appended value) (headOf casing (s.appended value))))
      (fun _ t =>
        ((s.Takes value ∧ Sendable casing (s.appended value)) ∧ t.transport ≠ s.transport) ∨
        (¬ s.Takes value ∧ t = s) ∨
        ((s.Takes value ∧ ¬ Sendable casing (s.appended value)) ∧ t = s.appended value)) s := by
  unfold finish
  simp only [wp_bind]
  refine wp_mono (append_spec s value) ?_ fun _ t ht => Or.inr (Or.inl ht)
  rintro _ t ⟨htakes, rfl⟩
  simp only [wp_get]
  obtain ⟨hsend, hhead⟩ | ⟨hsend, error, hhead⟩ := headResult_eq casing (s.appended value)
  · rw [hhead]
    simp only [wp_bind, wp_modify, wp_pure]
    refine wp_mono (poll_spec _) ?_ fun _ t ht => Or.inl ⟨⟨htakes, hsend⟩, ht⟩
    intro _ t ht
    refine ⟨⟨htakes, hsend⟩, fun hoffset => (ht ?_).trans ?_⟩
    · show s.offset ≤ _
      omega
    · simp only [ResponseState.message, ResponseState.appended, hoffset, List.drop_zero]
  · rw [hhead]
    simp only [wp_throw]
    exact Or.inr (Or.inr ⟨⟨htakes, hsend⟩, trivial⟩)

/-- `end` is atomic on failure: a raise before the transport is called leaves the response as it
was. -/
def EndAtomic (casing : Casing) (s : ResponseState) (value : Bytes) : Prop :=
  ∀ error t, endBuffer casing value s = .error error t → t.transport = s.transport → t = s

theorem endAtomic_iff (casing : Casing) (s : ResponseState) (value : Bytes) :
    EndAtomic casing s value ↔
      value = [] ∨ ¬ s.Takes value ∨ Sendable casing (s.appended value) := by
  have hspec := finish_spec casing s value
  constructor
  · intro hatomic
    by_contra hcontra
    obtain ⟨hvalue, hrest⟩ := not_or.mp hcontra
    obtain ⟨htakes, hsend⟩ := not_or.mp hrest
    cases hm : endBuffer casing value s with
    | ok a t => exact hsend (wp_ok hspec hm).1.2
    | error error t =>
      obtain ⟨h, _⟩ | ⟨h, _⟩ | ⟨_, ht⟩ := wp_error hspec hm
      · exact hsend h.2
      · exact htakes h
      · have hback := hatomic error t hm (by rw [ht]; rfl)
        rw [ht] at hback
        have hbody : s.body ++ value = s.body := congrArg ResponseState.body hback
        exact hvalue (List.append_right_eq_self.mp hbody)
  · intro hcond error t hm htransport
    obtain ⟨_, hchanged⟩ | ⟨_, ht⟩ | ⟨⟨htakes, hsend⟩, ht⟩ := wp_error hspec hm
    · exact absurd htransport hchanged
    · exact ht
    · obtain rfl | h | h := hcond
      · rw [ht, ResponseState.appended, List.append_nil]
      · exact absurd htakes h
      · exact absurd h hsend

end TsonicNode.Http
