import TsonicNode.Lib.Http

/-!
# Feeding the request parser

The bridge to llhttp: `feed` looks for the end of the header lines with a window
over the last four bytes, then hands the bytes to llhttp, whose callbacks collect
the target, the body and the number of bytes in fields. llhttp itself is the
parameter `Llhttp`; allocation does not fail.

`verdict` says of all bytes together what becomes of them. `feed_fed` is the step
of a feed, and `outcome_eq` the run: any way of cutting the bytes into feeds comes
to the verdict.
-/

namespace TsonicNode.Http

open TsonicNode.Lib.Http

/-! ## llhttp -/

/-- What llhttp tells its callbacks; a callback may be told about a part of a target, a field or a
body. -/
inductive Event where
  | url (bytes : Bytes)
  | field (bytes : Bytes)
  | body (bytes : Bytes)
  | complete
  deriving DecidableEq, Repr

/-- How a call of `llhttp_execute` ends. -/
inductive Ending (State : Type) where
  | running (parser : State)
  | paused (parser : State)
  | refused
  deriving DecidableEq, Repr

/-- All that some events tell. -/
structure Told where
  url : Bytes := []
  fields : Nat := 0
  body : Bytes := []
  complete : Bool := false
  deriving DecidableEq, Repr

def Told.append (a b : Told) : Told :=
  ⟨a.url ++ b.url, a.fields + b.fields, a.body ++ b.body, a.complete || b.complete⟩

def Event.told : Event → Told
  | .url bytes => { url := bytes }
  | .field bytes => { fields := bytes.length }
  | .body bytes => { body := bytes }
  | .complete => { complete := true }

def told : List Event → Told
  | [] => {}
  | event :: events => event.told.append (told events)

def isBlank (b : UInt8) : Bool := b == 13 || b == 10

/-- The blank line behind the header lines. -/
def headerEnd : Bytes := crlf ++ crlf

/-- The header section has ended: behind blank lines in front of the request, a line is followed
by an empty one. -/
def HeaderEnded (bytes : Bytes) : Prop := headerEnd <:+: bytes.dropWhile isBlank

/-- llhttp, set up to pause at the end of a message, as long as no callback objects. -/
structure Llhttp where
  State : Type
  init : State
  execute : State → Bytes → List Event × Ending State
  method : State → Bytes
  execute_nil : ∀ s, execute s [] = ([], .running s)
  /-- Bytes that are refused are refused with anything behind them. -/
  execute_refused : ∀ s a b, (execute s a).2 = .refused → (execute s (a ++ b)).2 = .refused
  /-- Nothing is read behind a message that is complete. -/
  execute_paused : ∀ s a b t, (execute s a).2 = .paused t →
    told (execute s (a ++ b)).1 = told (execute s a).1 ∧ (execute s (a ++ b)).2 = .paused t
  /-- The bytes may be cut in two. -/
  execute_running : ∀ s a b t, (execute s a).2 = .running t →
    (execute s (a ++ b)).2 = (execute t b).2 ∧
      ((execute t b).2 ≠ .refused →
        told (execute s (a ++ b)).1 = (told (execute s a).1).append (told (execute t b).1))
  /-- It pauses at the end of a message, which comes behind the header section. -/
  complete_iff : ∀ s a, (execute s a).2 ≠ .refused →
    ((told (execute s a).1).complete = true ↔ ∃ t, (execute s a).2 = .paused t)
  headerEnded : ∀ a t, (execute init a).2 = .paused t → HeaderEnded a

/-! ## The bridge -/

def headerLimit : Nat := 64 * 1024

def requestBodyLimit : Nat := 256 * 1024 * 1024

structure HttpRequestParser (L : Llhttp) where
  parser : L.State := L.init
  url : Bytes := []
  body : Bytes := []
  headerBytes : Nat := 0
  fieldBytes : Nat := 0
  /-- The last four bytes, as one unsigned number. -/
  delimiter : Nat := 0
  headersComplete : Bool := false
  complete : Bool := false

variable {L : Llhttp}

/-- A callback and whether it agrees. -/
def receive (p : HttpRequestParser L) : Event → HttpRequestParser L × Bool
  | .url bytes =>
    if headerLimit - p.url.length < bytes.length then (p, false)
    else ({ p with url := p.url ++ bytes }, true)
  | .field bytes =>
    if headerLimit - p.fieldBytes < bytes.length then (p, false)
    else ({ p with fieldBytes := p.fieldBytes + bytes.length }, true)
  | .body bytes =>
    if requestBodyLimit - p.body.length < bytes.length then (p, false)
    else ({ p with body := p.body ++ bytes }, true)
  | .complete => ({ p with complete := true }, true)

/-- The callbacks of one execution, up to one that objects. -/
def receiveAll : List Event → HttpRequestParser L → HttpRequestParser L × Bool
  | [], p => (p, true)
  | event :: events, p =>
    match receive p event with
    | (p, true) => receiveAll events p
    | (p, false) => (p, false)

/-- The loop over the bytes of a feed, and whether the headers kept to their budget. -/
def scan : Bytes → HttpRequestParser L → HttpRequestParser L × Bool
  | [], p => (p, true)
  | b :: bytes, p =>
    if p.headersComplete then (p, true)
    else if headerLimit < p.headerBytes + 1 then
      ({ p with headerBytes := p.headerBytes + 1 }, false)
    else
      let delimiter := (p.delimiter <<< 8 ||| b.toNat) % 0x100000000
      scan bytes
        { p with
          headerBytes := p.headerBytes + 1
          delimiter := delimiter
          headersComplete := decide (delimiter = 0x0d0a0d0a) }

/-- `tsonic_node_http_parser_feed`. -/
def feed (p : HttpRequestParser L) (bytes : Bytes) : HttpRequestParser L × Int :=
  if p.complete then (p, 1)
  else
    match scan bytes p with
    | (p, false) => (p, -1)
    | (p, true) =>
      let executed := L.execute p.parser bytes
      match receiveAll executed.1 p with
      | (p, false) => (p, -1)
      | (p, true) =>
        match executed.2 with
        | .running parser => ({ p with parser := parser }, 0)
        | .paused parser => ({ p with parser := parser }, if p.complete then 1 else -1)
        | .refused => (p, -1)

inductive Outcome where
  | complete (method target body : Bytes)
  | incomplete
  | failed
  deriving DecidableEq, Repr

def HttpRequestParser.outcome (p : HttpRequestParser L) : Outcome :=
  if p.complete then .complete (L.method p.parser) p.url p.body else .incomplete

/-- The feeds of a connection, which is closed when one fails. -/
def feedAll (p : HttpRequestParser L) : List Bytes → Outcome
  | [] => p.outcome
  | bytes :: pieces =>
    match feed p bytes with
    | (p, status) => if status < 0 then .failed else feedAll p pieces

def outcome (L : Llhttp) (pieces : List Bytes) : Outcome := feedAll ({} : HttpRequestParser L) pieces

/-! ## The verdict -/

/-- The blank line is found within the budget, or the budget is not used up. -/
def Scannable (bytes : Bytes) : Prop :=
  bytes.length ≤ headerLimit ∨ headerEnd <:+: bytes.take headerLimit

instance (bytes : Bytes) : Decidable (Scannable bytes) :=
  inferInstanceAs (Decidable (bytes.length ≤ headerLimit ∨ headerEnd <:+: bytes.take headerLimit))

/-- What was told is within its budgets. -/
def Told.Fits (t : Told) : Prop :=
  t.url.length ≤ headerLimit ∧ t.fields ≤ headerLimit ∧ t.body.length ≤ requestBodyLimit

instance (t : Told) : Decidable t.Fits :=
  inferInstanceAs (Decidable (t.url.length ≤ headerLimit ∧ t.fields ≤ headerLimit ∧
    t.body.length ≤ requestBodyLimit))

/-- What becomes of these bytes. -/
def verdict (L : Llhttp) (bytes : Bytes) : Outcome :=
  if Scannable bytes ∧ (told (L.execute L.init bytes).1).Fits then
    match (L.execute L.init bytes).2 with
    | .running _ => .incomplete
    | .paused parser =>
      .complete (L.method parser) (told (L.execute L.init bytes).1).url
        (told (L.execute L.init bytes).1).body
    | .refused => .failed
  else .failed

/-! ## The window -/

def pack (a b c d : UInt8) : Nat :=
  a.toNat * 16777216 + b.toNat * 65536 + c.toNat * 256 + d.toNat

theorem pack_shift (a b c d e : UInt8) :
    (pack a b c d <<< 8 ||| e.toNat) % 0x100000000 = pack b c d e := by
  have ha := a.toNat_lt
  have hb := b.toNat_lt
  have hc := c.toNat_lt
  have hd := d.toNat_lt
  have he := e.toNat_lt
  rw [← Nat.shiftLeft_add_eq_or_of_lt he, Nat.shiftLeft_eq]
  unfold pack
  omega

theorem pack_eq {a b c d : UInt8} : pack a b c d = 0x0d0a0d0a ↔ [a, b, c, d] = headerEnd := by
  have ha := a.toNat_lt
  have hb := b.toNat_lt
  have hc := c.toNat_lt
  have hd := d.toNat_lt
  have hbyte : ∀ x y : UInt8, x = y ↔ x.toNat = y.toNat := fun x y => UInt8.toNat_inj.symm
  rw [show headerEnd = [13, 10, 13, 10] from rfl]
  simp only [List.cons.injEq, and_true, hbyte]
  unfold pack
  have h13 : (13 : UInt8).toNat = 13 := rfl
  have h10 : (10 : UInt8).toNat = 10 := rfl
  omega

/-- The last four bytes; before the first ones stand zeros. -/
def Window (delimiter : Nat) (seen : Bytes) : Prop :=
  ∃ front a b c d, [0, 0, 0, 0] ++ seen = front ++ [a, b, c, d] ∧ delimiter = pack a b c d

theorem Window.next {delimiter : Nat} {seen : Bytes} (h : Window delimiter seen) (e : UInt8) :
    Window ((delimiter <<< 8 ||| e.toNat) % 0x100000000) (seen ++ [e]) := by
  obtain ⟨front, a, b, c, d, hseen, rfl⟩ := h
  refine ⟨front ++ [a], b, c, d, e, ?_, pack_shift a b c d e⟩
  rw [← List.append_assoc, hseen]
  simp

/-- The window shows the blank line exactly when it has just gone by. -/
theorem Window.matches {delimiter : Nat} {seen : Bytes} (h : Window delimiter seen) :
    delimiter = 0x0d0a0d0a ↔ headerEnd <:+ seen := by
  obtain ⟨front, a, b, c, d, hseen, rfl⟩ := h
  rw [pack_eq]
  have hlast : [a, b, c, d] <:+ [0, 0, 0, 0] ++ seen := ⟨front, hseen.symm⟩
  constructor
  · intro hmatch
    rw [hmatch] at hlast
    obtain hsuffix | ⟨front, hfront⟩ :=
      List.suffix_or_suffix_of_suffix hlast (List.suffix_append [0, 0, 0, 0] seen)
    · exact hsuffix
    · -- too few bytes: the first of the four would be a zero
      cases front with
      | nil => exact ⟨[], hfront.symm⟩
      | cons x front =>
        exfalso
        obtain ⟨rest, hrest⟩ := hlast
        rw [← hfront, ← List.append_assoc] at hrest
        have hzeros := List.append_cancel_right hrest
        have hx : x ∈ ([0, 0, 0, 0] : Bytes) := by
          rw [← hzeros]
          simp
        have hx' : x = 13 := (List.cons.inj hfront).1
        rw [hx'] at hx
        revert hx
        decide
  · intro hsuffix
    have hend : headerEnd <:+ [0, 0, 0, 0] ++ seen :=
      List.suffix_append_of_suffix hsuffix
    exact (List.suffix_of_suffix_length_le hlast hend (Nat.le_refl 4)).eq_of_length rfl

/-! ## The scan -/

/-- The scanner behind these bytes. -/
structure Scanned (p : HttpRequestParser L) (seen : Bytes) : Prop where
  found : p.headersComplete = true → headerEnd <:+: seen.take headerLimit
  absent : p.headersComplete = false → ¬ headerEnd <:+: seen
  count : p.headersComplete = false → p.headerBytes = seen.length ∧ seen.length ≤ headerLimit
  window : p.headersComplete = false → Window p.delimiter seen

theorem take_within (seen bytes : Bytes) :
    seen.take headerLimit <:+: (seen ++ bytes).take headerLimit := by
  rw [List.take_append]
  exact List.infix_append_left

theorem scan_spec (bytes : Bytes) {p : HttpRequestParser L} {seen : Bytes} (h : Scanned p seen) :
    ((scan bytes p).2 = true ∧ Scanned (scan bytes p).1 (seen ++ bytes) ∧
        Scannable (seen ++ bytes)) ∨
      ((scan bytes p).2 = false ∧ ¬ Scannable (seen ++ bytes)) := by
  induction bytes generalizing p seen with
  | nil =>
    left
    rw [List.append_nil]
    refine ⟨rfl, h, ?_⟩
    cases hc : p.headersComplete with
    | true => exact Or.inr (h.found hc)
    | false => exact Or.inl (h.count hc).2
  | cons b bytes ih =>
    unfold scan
    cases hc : p.headersComplete with
    | true =>
      left
      rw [if_pos rfl]
      have hfound := (h.found hc).trans (take_within seen (b :: bytes))
      refine ⟨rfl, ⟨fun _ => hfound, ?_, ?_, ?_⟩, Or.inr hfound⟩
      all_goals
        intro hopen
        rw [hc] at hopen
        cases hopen
    | false =>
      rw [if_neg Bool.false_ne_true]
      obtain ⟨hcount, hle⟩ := h.count hc
      have happend : seen ++ b :: bytes = seen ++ [b] ++ bytes := by simp
      by_cases hover : headerLimit < p.headerBytes + 1
      · right
        rw [if_pos hover]
        refine ⟨rfl, ?_⟩
        rintro (hshort | hfound)
        · rw [List.length_append, List.length_cons] at hshort
          omega
        · have hfull : (seen ++ b :: bytes).take headerLimit = seen := by
            rw [show headerLimit = seen.length by omega, List.take_left]
          rw [hfull] at hfound
          exact h.absent hc hfound
      · rw [if_neg hover, happend]
        apply ih
        have hlength : (seen ++ [b]).length ≤ headerLimit := by
          rw [List.length_append, List.length_singleton]
          omega
        have hwindow := (h.window hc).next b
        refine ⟨fun hmatch => ?_, fun hopen => ?_, fun _ => ⟨?_, hlength⟩, fun _ => hwindow⟩
        · rw [List.take_of_length_le hlength]
          exact (hwindow.matches.mp (of_decide_eq_true hmatch)).isInfix
        · rw [List.infix_concat_iff]
          rintro (hsuffix | hinfix)
          · exact of_decide_eq_false hopen (hwindow.matches.mpr hsuffix)
          · exact h.absent hc hinfix
        · rw [List.length_append, List.length_singleton, ← hcount]

/-! ## The callbacks -/

def HttpRequestParser.told (p : HttpRequestParser L) : Told :=
  ⟨p.url, p.fieldBytes, p.body, p.complete⟩

theorem Told.append_assoc (a b c : Told) : (a.append b).append c = a.append (b.append c) := by
  unfold Told.append
  simp [Nat.add_assoc, Bool.or_assoc]

theorem Told.nil_append (a : Told) : Told.append {} a = a := by
  unfold Told.append
  simp

theorem Told.append_nil (a : Told) : a.append {} = a := by
  unfold Told.append
  simp

theorem Told.Fits.left {a b : Told} (h : (a.append b).Fits) : a.Fits := by
  obtain ⟨hurl, hfields, hbody⟩ := h
  simp only [Told.append, List.length_append] at hurl hfields hbody
  exact ⟨by omega, by omega, by omega⟩

/-- One callback: it agrees exactly if what it adds fits. -/
theorem receive_spec (p : HttpRequestParser L) (event : Event) (hp : p.told.Fits) :
    ((receive p event).2 = true ∧ (p.told.append event.told).Fits ∧
        (receive p event).1.told = p.told.append event.told) ∨
      ((receive p event).2 = false ∧ ¬ (p.told.append event.told).Fits) := by
  obtain ⟨hurl, hfields, hbody⟩ := hp
  simp only [HttpRequestParser.told] at hurl hfields hbody
  cases event with
  | url bytes =>
    by_cases hover : headerLimit - p.url.length < bytes.length
    · right
      refine ⟨by simp [receive, hover], fun h => ?_⟩
      have := h.1
      simp only [Told.append, HttpRequestParser.told, Event.told, List.length_append] at this
      omega
    · left
      refine ⟨by simp [receive, hover], ⟨?_, ?_, ?_⟩, ?_⟩
      all_goals
        simp [receive, hover, Told.append, HttpRequestParser.told, Event.told]
        try omega
  | field bytes =>
    by_cases hover : headerLimit - p.fieldBytes < bytes.length
    · right
      refine ⟨by simp [receive, hover], fun h => ?_⟩
      have := h.2.1
      simp only [Told.append, HttpRequestParser.told, Event.told] at this
      omega
    · left
      refine ⟨by simp [receive, hover], ⟨?_, ?_, ?_⟩, ?_⟩
      all_goals
        simp [receive, hover, Told.append, HttpRequestParser.told, Event.told]
        try omega
  | body bytes =>
    by_cases hover : requestBodyLimit - p.body.length < bytes.length
    · right
      refine ⟨by simp [receive, hover], fun h => ?_⟩
      have := h.2.2
      simp only [Told.append, HttpRequestParser.told, Event.told, List.length_append] at this
      omega
    · left
      refine ⟨by simp [receive, hover], ⟨?_, ?_, ?_⟩, ?_⟩
      all_goals
        simp [receive, hover, Told.append, HttpRequestParser.told, Event.told]
        try omega
  | complete =>
    left
    refine ⟨rfl, ⟨?_, ?_, ?_⟩, ?_⟩
    all_goals simp [receive, Told.append, HttpRequestParser.told, Event.told]
    · exact hurl
    · exact hfields
    · exact hbody

theorem receive_scanned {p : HttpRequestParser L} (event : Event) {seen : Bytes}
    (h : Scanned p seen) : Scanned (receive p event).1 seen := by
  cases event with
  | complete => exact { h with }
  | url bytes | field bytes | body bytes =>
    unfold receive
    dsimp only
    split
    · exact h
    · exact { h with }

theorem receiveAll_spec (events : List Event) (p : HttpRequestParser L) (hp : p.told.Fits) :
    ((receiveAll events p).2 = true ∧ (p.told.append (told events)).Fits ∧
        (receiveAll events p).1.told = p.told.append (told events) ∧
        ∀ seen, Scanned p seen → Scanned (receiveAll events p).1 seen) ∨
      ((receiveAll events p).2 = false ∧ ¬ (p.told.append (told events)).Fits) := by
  induction events generalizing p with
  | nil =>
    left
    rw [show told [] = {} from rfl, Told.append_nil]
    exact ⟨rfl, hp, rfl, fun seen h => h⟩
  | cons event events ih =>
    rw [show told (event :: events) = event.told.append (told events) from rfl,
      ← Told.append_assoc]
    obtain ⟨hagrees, hfits, htold⟩ | ⟨hobjects, hfits⟩ := receive_spec p event hp
    · have hstep : receiveAll (event :: events) p = receiveAll events (receive p event).1 := by
        rw [receiveAll]
        split
        case h_1 p' hr => rw [hr]
        case h_2 p' hr =>
          rw [hr] at hagrees
          cases hagrees
      rw [hstep, ← htold]
      obtain ⟨hall, hfits', htold', hscan⟩ | hobjects :=
        ih (receive p event).1 (by rw [htold]; exact hfits)
      · exact Or.inl ⟨hall, hfits', htold', fun seen h => hscan seen (receive_scanned event h)⟩
      · exact Or.inr hobjects
    · right
      have hstep : (receiveAll (event :: events) p).2 = false := by
        rw [receiveAll]
        split
        case h_1 p' hr =>
          rw [hr] at hobjects
          cases hobjects
        case h_2 => rfl
      exact ⟨hstep, fun h => hfits h.left⟩

/-! ## A feed -/

/-- The parser is in the middle of these bytes. -/
structure Fed (p : HttpRequestParser L) (seen : Bytes) : Prop where
  scanned : Scanned p seen
  scannable : Scannable seen
  running : (L.execute L.init seen).2 = .running p.parser
  told : p.told = told (L.execute L.init seen).1
  fits : p.told.Fits

/-- The parser has met the end of the message in these bytes. -/
structure Completed (p : HttpRequestParser L) (seen : Bytes) : Prop where
  scannable : Scannable seen
  paused : (L.execute L.init seen).2 = .paused p.parser
  told : p.told = told (L.execute L.init seen).1
  fits : p.told.Fits

theorem Fed.unfinished {p : HttpRequestParser L} {seen : Bytes} (h : Fed p seen) :
    p.complete = false := by
  cases hc : p.complete with
  | false => rfl
  | true =>
    have htold : (Http.told (L.execute L.init seen).1).complete = true := by
      rw [← h.told]
      exact hc
    obtain ⟨t, ht⟩ := (L.complete_iff L.init seen (by rw [h.running]; simp)).mp htold
    rw [h.running] at ht
    cases ht

theorem Completed.finished {p : HttpRequestParser L} {seen : Bytes} (h : Completed p seen) :
    p.complete = true := by
  have htold := (L.complete_iff L.init seen (by rw [h.paused]; simp)).mpr ⟨_, h.paused⟩
  rw [← h.told] at htold
  exact htold

theorem Fed.verdict {p : HttpRequestParser L} {seen : Bytes} (h : Fed p seen) :
    verdict L seen = .incomplete := by
  unfold Http.verdict
  rw [if_pos ⟨h.scannable, by rw [← h.told]; exact h.fits⟩, h.running]

theorem Completed.verdict {p : HttpRequestParser L} {seen : Bytes} (h : Completed p seen) :
    verdict L seen = p.outcome := by
  unfold Http.verdict HttpRequestParser.outcome
  rw [if_pos ⟨h.scannable, by rw [← h.told]; exact h.fits⟩, h.paused, if_pos h.finished, ← h.told]
  rfl

theorem verdict_failed {seen : Bytes} :
    verdict L seen = .failed ↔
      ¬ Scannable seen ∨ ¬ (told (L.execute L.init seen).1).Fits ∨
        (L.execute L.init seen).2 = .refused := by
  unfold verdict
  by_cases hfits : Scannable seen ∧ (told (L.execute L.init seen).1).Fits
  · rw [if_pos hfits]
    cases hend : (L.execute L.init seen).2 with
    | refused => simp
    | running t => simp [hfits.1, hfits.2]
    | paused t => simp [hfits.1, hfits.2]
  · rw [if_neg hfits, not_and_or] at *
    simp only [true_iff]
    exact hfits.imp_right Or.inl

theorem scannable_of_append {seen bytes : Bytes} (h : Scannable (seen ++ bytes)) :
    Scannable seen := by
  by_cases hlength : seen.length ≤ headerLimit
  · exact Or.inl hlength
  · right
    obtain hshort | hfound := h
    · rw [List.length_append] at hshort
      omega
    · rwa [List.take_append_of_le_length (by omega)] at hfound

/-- What has failed has failed with anything behind it. -/
theorem verdict_failed_append {seen : Bytes} (h : verdict L seen = .failed) (bytes : Bytes) :
    verdict L (seen ++ bytes) = .failed := by
  rw [verdict_failed] at h ⊢
  obtain h | h | h := h
  · exact Or.inl fun hs => h (scannable_of_append hs)
  · cases hend : (L.execute L.init seen).2 with
    | refused => exact Or.inr (Or.inr (L.execute_refused _ _ _ hend))
    | paused t =>
      rw [(L.execute_paused _ seen bytes t hend).1]
      exact Or.inr (Or.inl h)
    | running t =>
      obtain ⟨hboth, htold⟩ := L.execute_running _ seen bytes t hend
      by_cases hrefused : (L.execute t bytes).2 = .refused
      · exact Or.inr (Or.inr (hboth.trans hrefused))
      · rw [htold hrefused]
        exact Or.inr (Or.inl fun hf => h hf.left)
  · exact Or.inr (Or.inr (L.execute_refused _ _ _ h))

/-- A message is complete only within its budget, and no byte behind it can change that. -/
theorem Completed.append {p : HttpRequestParser L} {seen : Bytes} (h : Completed p seen)
    (bytes : Bytes) : Completed p (seen ++ bytes) := by
  obtain ⟨htold, hpaused⟩ := L.execute_paused _ seen bytes _ h.paused
  refine ⟨?_, hpaused, h.told.trans htold.symm, h.fits⟩
  have hended : headerEnd <:+: seen :=
    (L.headerEnded _ _ h.paused).trans (List.dropWhile_suffix _).isInfix
  right
  refine List.IsInfix.trans ?_ (take_within seen bytes)
  obtain hshort | hfound := h.scannable
  · rwa [List.take_of_length_le hshort]
  · exact hfound

theorem scan_keeps (bytes : Bytes) (p : HttpRequestParser L) :
    (scan bytes p).1.parser = p.parser ∧ (scan bytes p).1.told = p.told := by
  induction bytes generalizing p with
  | nil => exact ⟨rfl, rfl⟩
  | cons b bytes ih =>
    unfold scan
    split
    · exact ⟨rfl, rfl⟩
    · split
      · exact ⟨rfl, rfl⟩
      · obtain ⟨hparser, htold⟩ := ih
          { p with
            headerBytes := p.headerBytes + 1
            delimiter := (p.delimiter <<< 8 ||| b.toNat) % 0x100000000
            headersComplete := decide ((p.delimiter <<< 8 ||| b.toNat) % 0x100000000 = 0x0d0a0d0a) }
        exact ⟨hparser, htold⟩

/-- A feed goes on, completes the message or fails, and fails exactly as the verdict does. -/
theorem feed_fed {p : HttpRequestParser L} {seen : Bytes} (h : Fed p seen) (bytes : Bytes) :
    ((feed p bytes).2 = 0 ∧ Fed (feed p bytes).1 (seen ++ bytes)) ∨
      ((feed p bytes).2 = 1 ∧ Completed (feed p bytes).1 (seen ++ bytes)) ∨
      ((feed p bytes).2 = -1 ∧ verdict L (seen ++ bytes) = .failed) := by
  obtain ⟨hending, htold⟩ := L.execute_running _ seen bytes _ h.running
  unfold feed
  rw [h.unfinished, if_neg Bool.false_ne_true, verdict_failed]
  obtain ⟨hparser, hkept⟩ := scan_keeps bytes p
  have hscan := scan_spec bytes h.scanned
  rcases hs : scan bytes p with ⟨q, kept⟩
  rw [hs] at hscan hparser hkept
  dsimp only at hparser hkept
  obtain ⟨rfl, hscanned, hscannable⟩ | ⟨rfl, hscannable⟩ := hscan
  case inr => exact Or.inr (Or.inr ⟨rfl, Or.inl hscannable⟩)
  dsimp only at hscanned ⊢
  rw [hparser]
  rcases he : L.execute p.parser bytes with ⟨events, ending⟩
  rw [he] at hending htold
  dsimp only at hending htold ⊢
  by_cases hrefused : ending = .refused
  · -- whether a callback objects first or not, the feed fails
    subst hrefused
    right
    right
    refine ⟨?_, Or.inr (Or.inr hending)⟩
    rcases receiveAll events q with ⟨r, agreed⟩
    cases agreed <;> rfl
  have hboth := htold hrefused
  rw [← h.told, ← hkept] at hboth
  rw [hboth]
  have hall := receiveAll_spec events q (by rw [hkept]; exact h.fits)
  rcases hr : receiveAll events q with ⟨r, agreed⟩
  rw [hr] at hall
  obtain ⟨rfl, hfits, hrtold, hrscan⟩ | ⟨rfl, hfits⟩ := hall
  case inr => exact Or.inr (Or.inr ⟨rfl, Or.inr (Or.inl hfits)⟩)
  dsimp only at hrtold hrscan ⊢
  have hr' := hrscan _ hscanned
  cases ending with
  | refused => exact absurd rfl hrefused
  | running t =>
    left
    exact ⟨rfl, { hr' with }, hscannable, hending, hrtold.trans hboth.symm,
      by rw [← hrtold] at hfits; exact hfits⟩
  | paused t =>
    right
    left
    have hdone : Completed { r with parser := t } (seen ++ bytes) :=
      ⟨hscannable, hending, hrtold.trans hboth.symm, by rw [← hrtold] at hfits; exact hfits⟩
    have hfinished : r.complete = true := hdone.finished
    exact ⟨if_pos hfinished, hdone⟩

theorem feed_completed {p : HttpRequestParser L} {seen : Bytes} (h : Completed p seen)
    (bytes : Bytes) : feed p bytes = (p, 1) := by
  unfold feed
  rw [if_pos h.finished]

/-! ## All feeds -/

theorem feedAll_completed (pieces : List Bytes) {p : HttpRequestParser L} {seen : Bytes}
    (h : Completed p seen) : feedAll p pieces = verdict L (seen ++ pieces.flatten) := by
  induction pieces generalizing seen with
  | nil =>
    rw [List.flatten_nil, List.append_nil, h.verdict]
    rfl
  | cons bytes pieces ih =>
    unfold feedAll
    rw [feed_completed h, List.flatten_cons, ← List.append_assoc]
    exact ih (h.append bytes)

theorem feedAll_fed (pieces : List Bytes) {p : HttpRequestParser L} {seen : Bytes}
    (h : Fed p seen) : feedAll p pieces = verdict L (seen ++ pieces.flatten) := by
  induction pieces generalizing p seen with
  | nil =>
    rw [List.flatten_nil, List.append_nil, h.verdict]
    unfold feedAll HttpRequestParser.outcome
    rw [h.unfinished, if_neg Bool.false_ne_true]
  | cons bytes pieces ih =>
    unfold feedAll
    rw [List.flatten_cons, ← List.append_assoc]
    have hfeed := feed_fed h bytes
    rcases hf : feed p bytes with ⟨q, status⟩
    rw [hf] at hfeed
    obtain ⟨rfl, hfed⟩ | ⟨rfl, hdone⟩ | ⟨rfl, hfailed⟩ := hfeed
    · exact ih hfed
    · exact feedAll_completed pieces hdone
    · rw [verdict_failed_append hfailed]
      rfl

theorem new_fed (L : Llhttp) : Fed ({} : HttpRequestParser L) [] where
  scanned :=
    { found := fun h => by cases h
      absent := fun _ => by decide
      count := fun _ => ⟨rfl, Nat.zero_le _⟩
      window := fun _ => ⟨[], 0, 0, 0, 0, rfl, rfl⟩ }
  scannable := Or.inl (Nat.zero_le _)
  running := by rw [L.execute_nil]
  told := by
    rw [L.execute_nil]
    rfl
  fits := ⟨Nat.zero_le _, Nat.zero_le _, Nat.zero_le _⟩

/-- However the bytes are cut into feeds, they come to their verdict. -/
theorem outcome_eq (L : Llhttp) (pieces : List Bytes) :
    outcome L pieces = verdict L pieces.flatten :=
  feedAll_fed pieces (new_fed L)

/-! ## The header budget -/

/-- More bytes than the budget were fed before the header section ended. -/
def OverBudget (bytes : Bytes) : Prop :=
  headerLimit < bytes.length ∧ ¬ HeaderEnded (bytes.take headerLimit)

/-- The blank line the scanner looks for stands in front of the request, among the blank lines
llhttp skips. -/
def BlankFront (bytes : Bytes) : Prop :=
  headerEnd <:+: (bytes.take headerLimit).takeWhile isBlank

/-- llhttp refuses the bytes, or tells of more than the other budgets allow. -/
def Refused (L : Llhttp) (bytes : Bytes) : Prop :=
  (L.execute L.init bytes).2 = .refused ∨ ¬ (told (L.execute L.init bytes).1).Fits

/-- The blank line does not lie across the front of the request. -/
theorem headerEnd_within (bytes : Bytes) :
    headerEnd <:+: bytes ↔
      headerEnd <:+: bytes.takeWhile isBlank ∨ headerEnd <:+: bytes.dropWhile isBlank := by
  conv => lhs; rw [← List.takeWhile_append_dropWhile (p := isBlank) (l := bytes)]
  rw [List.infix_append_iff_ne_nil]
  constructor
  · rintro (h | h | ⟨x, y, _, hy, hxy, _, ⟨rest, hrest⟩⟩)
    · exact Or.inl h
    · exact Or.inr h
    · exfalso
      obtain ⟨b, y', rfl⟩ := List.exists_cons_of_ne_nil hy
      have hblank : ∀ c ∈ headerEnd, isBlank c = true := by simp [headerEnd, crlf, isBlank]
      have hb : isBlank b = true := hblank b (by rw [hxy]; simp)
      have hfirst := List.head_dropWhile_not isBlank (l := bytes) (by rw [← hrest]; simp)
      simp only [← hrest] at hfirst
      exact Bool.false_ne_true (hfirst.symm.trans hb)
  · rintro (h | h)
    · exact Or.inl h
    · exact Or.inr (Or.inl h)

theorem scannable_iff {bytes : Bytes} (h : OverBudget bytes) :
    Scannable bytes ↔ BlankFront bytes := by
  obtain ⟨hlength, hended⟩ := h
  unfold Scannable
  rw [headerEnd_within]
  constructor
  · rintro (hshort | hfront | hlines)
    · omega
    · exact hfront
    · exact absurd hlines hended
  · exact fun hfront => Or.inr (Or.inl hfront)

/-- However a request is cut, its outcome is the same; and it fails once it is over its budget,
unless the blank line in front of it has hidden its header section from the scanner. -/
theorem feeds_bounded (L : Llhttp) (bytes : Bytes) :
    (∀ pieces, pieces.flatten = bytes →
        outcome L pieces = outcome L [bytes] ∧ (OverBudget bytes → outcome L pieces = .failed)) ↔
      (OverBudget bytes → ¬ BlankFront bytes ∨ Refused L bytes) := by
  have hwhole : ∀ pieces, pieces.flatten = bytes → outcome L pieces = verdict L bytes := by
    intro pieces hpieces
    rw [outcome_eq, hpieces]
  have hsingle : outcome L [bytes] = verdict L bytes := hwhole [bytes] (by simp)
  have hfailed : OverBudget bytes →
      (verdict L bytes = .failed ↔ ¬ BlankFront bytes ∨ Refused L bytes) := by
    intro hover
    rw [verdict_failed, scannable_iff hover]
    unfold Refused
    tauto
  constructor
  · intro h hover
    rw [← hfailed hover, ← hsingle]
    exact (h [bytes] (by simp)).2 hover
  · intro h pieces hpieces
    rw [hwhole pieces hpieces, hsingle]
    exact ⟨rfl, fun hover => (hfailed hover).mpr (h hover)⟩

/-! ## A request without a body -/

inductive Phase where
  | blank
  | method
  | target
  | version
  | lineEnd
  | fieldStart
  | name
  | gap
  | value
  | last
  deriving DecidableEq, Repr

/-- What one byte does: the next phase with what is told, or the end of the message; `none`
refuses it. -/
inductive Move where
  | next (phase : Phase) (events : List Event)
  | finish

def Phase.move : Phase → UInt8 → Option Move
  | .blank, b => some (if isBlank b then .next .blank [] else .next .method [])
  | .method, b => some (.next (if b = 32 then .target else .method) [])
  | .target, b => some (if b = 32 then .next .version [] else .next .target [.url [b]])
  | .version, b => some (.next (if b = 13 then .lineEnd else .version) [])
  | .lineEnd, b => if b = 10 then some (.next .fieldStart []) else none
  | .fieldStart, b => some (if b = 13 then .next .last [] else .next .name [.field [b]])
  | .name, b => some (if b = 58 then .next .gap [] else .next .name [.field [b]])
  | .gap, b =>
    some (if b = 32 then .next .gap []
      else if b = 13 then .next .lineEnd [] else .next .value [.field [b]])
  | .value, b => some (if b = 13 then .next .lineEnd [] else .next .value [.field [b]])
  | .last, b => if b = 10 then some .finish else none

def executePhase : Phase → Bytes → List Event × Ending Phase
  | phase, [] => ([], .running phase)
  | phase, b :: bytes =>
    match phase.move b with
    | none => ([], .refused)
    | some .finish => ([.complete], .paused phase)
    | some (.next phase events) =>
      (events ++ (executePhase phase bytes).1, (executePhase phase bytes).2)

theorem told_append (a b : List Event) : told (a ++ b) = (told a).append (told b) := by
  induction a with
  | nil => exact (Told.nil_append _).symm
  | cons event a ih =>
    show event.told.append (told (a ++ b)) = (event.told.append (told a)).append (told b)
    rw [ih, Told.append_assoc]

theorem executePhase_append (phase : Phase) (a b : Bytes) :
    executePhase phase (a ++ b) =
      match (executePhase phase a).2 with
      | .running t => ((executePhase phase a).1 ++ (executePhase t b).1, (executePhase t b).2)
      | .paused t => ((executePhase phase a).1, .paused t)
      | .refused => ((executePhase phase a).1, .refused) := by
  induction a generalizing phase with
  | nil => rfl
  | cons c a ih =>
    rw [List.cons_append, executePhase, executePhase]
    cases phase.move c with
    | none => rfl
    | some move =>
      cases move with
      | finish => rfl
      | next phase events =>
        dsimp only
        rw [ih]
        cases (executePhase phase a).2 with
        | running t => simp
        | paused t => rfl
        | refused => rfl

/-- Where the request stands in this phase. -/
def Phase.At : Phase → Bytes → Prop
  | .blank, request => request = []
  | .lineEnd, request => [13] <:+ request
  | .fieldStart, request => [13, 10] <:+ request
  | .last, request => [13, 10, 13] <:+ request
  | _, request => request ≠ []

theorem suffix_concat {s t : Bytes} (h : s <:+ t) (b : UInt8) : s ++ [b] <:+ t ++ [b] := by
  obtain ⟨front, rfl⟩ := h
  exact ⟨front, by simp⟩

theorem suffix_last (t : Bytes) (b : UInt8) : [b] <:+ t ++ [b] := List.suffix_append t [b]

theorem Phase.At.ne_nil {phase : Phase} (hphase : phase ≠ .blank) {request : Bytes}
    (h : phase.At request) : request ≠ [] := by
  rintro rfl
  cases phase with
  | blank => exact hphase rfl
  | lineEnd | fieldStart | last =>
    have := List.IsSuffix.length_le h
    simp at this
  | method | target | version | name | gap | value => exact h rfl

/-- A byte of the request takes it to where the next phase stands, or to the blank line. -/
theorem Phase.At.move {phase : Phase} (hphase : phase ≠ .blank) {request : Bytes}
    (h : phase.At request) (b : UInt8) :
    (∀ next events, phase.move b = some (.next next events) →
        next ≠ .blank ∧ next.At (request ++ [b])) ∧
      (phase.move b = some .finish → headerEnd <:+ request ++ [b]) := by
  have hne : request ++ [b] ≠ [] := by simp
  refine ⟨fun next events hmove => ?_, fun hmove => ?_⟩
  · cases phase with
    | blank => exact absurd rfl hphase
    | method =>
      cases hmove
      split <;> exact ⟨by decide, hne⟩
    | target | name =>
      dsimp only [Phase.move] at hmove
      split at hmove <;> cases hmove <;> exact ⟨by decide, hne⟩
    | version =>
      cases hmove
      split
      case isTrue hb => exact ⟨by decide, hb ▸ suffix_last request b⟩
      case isFalse => exact ⟨by decide, hne⟩
    | value =>
      dsimp only [Phase.move] at hmove
      split at hmove
      case isTrue hb =>
        cases hmove
        exact ⟨by decide, hb ▸ suffix_last request b⟩
      case isFalse =>
        cases hmove
        exact ⟨by decide, hne⟩
    | gap =>
      dsimp only [Phase.move] at hmove
      split at hmove
      case isTrue =>
        cases hmove
        exact ⟨by decide, hne⟩
      case isFalse =>
        split at hmove
        case isTrue hb =>
          cases hmove
          exact ⟨by decide, hb ▸ suffix_last request b⟩
        case isFalse =>
          cases hmove
          exact ⟨by decide, hne⟩
    | lineEnd =>
      dsimp only [Phase.move] at hmove
      split at hmove
      case isTrue hb =>
        cases hmove
        exact ⟨by decide, hb ▸ suffix_concat h b⟩
      case isFalse => cases hmove
    | fieldStart =>
      dsimp only [Phase.move] at hmove
      split at hmove
      case isTrue hb =>
        cases hmove
        exact ⟨by decide, hb ▸ suffix_concat h b⟩
      case isFalse =>
        cases hmove
        exact ⟨by decide, hne⟩
    | last =>
      dsimp only [Phase.move] at hmove
      split at hmove <;> cases hmove
  · cases phase with
    | last =>
      dsimp only [Phase.move] at hmove
      split at hmove
      case isTrue hb => exact hb ▸ suffix_concat h b
      case isFalse => cases hmove
    | method | version => cases hmove
    | blank | target | name | value | lineEnd | fieldStart | gap =>
      dsimp only [Phase.move] at hmove
      repeat' split at hmove
      all_goals cases hmove

/-- The message ends behind the blank line. -/
theorem executePhase_ended {phase : Phase} {seen : Bytes}
    (h : phase.At (seen.dropWhile isBlank)) (bytes : Bytes) {t : Phase}
    (hpaused : (executePhase phase bytes).2 = .paused t) : HeaderEnded (seen ++ bytes) := by
  induction bytes generalizing phase seen with
  | nil => cases hpaused
  | cons b bytes ih =>
    rw [executePhase] at hpaused
    have happend : seen ++ b :: bytes = seen ++ [b] ++ bytes := by simp
    have hdrop : (seen ++ [b]).dropWhile isBlank =
        if seen.dropWhile isBlank = [] then [b].dropWhile isBlank
        else seen.dropWhile isBlank ++ [b] := by
      rw [List.dropWhile_append]
      simp only [List.isEmpty_iff]
    rw [happend]
    by_cases hphase : phase = .blank
    · subst hphase
      have hnone : seen.dropWhile isBlank = [] := h
      rw [if_pos hnone] at hdrop
      dsimp only [Phase.move] at hpaused
      cases hb : isBlank b with
      | true =>
        rw [hb] at hpaused
        refine @ih .blank (seen ++ [b]) ?_ hpaused
        rw [hdrop]
        simp [Phase.At, hb]
      | false =>
        rw [hb] at hpaused
        refine @ih .method (seen ++ [b]) ?_ hpaused
        rw [hdrop]
        simp [Phase.At, hb]
    · rw [if_neg (h.ne_nil hphase)] at hdrop
      obtain ⟨hnext, hfinish⟩ := h.move hphase b
      cases hmove : phase.move b with
      | none =>
        rw [hmove] at hpaused
        cases hpaused
      | some move =>
        rw [hmove] at hpaused
        cases move with
        | finish =>
          have hsuffix := hfinish hmove
          rw [← hdrop] at hsuffix
          unfold HeaderEnded
          rw [List.dropWhile_append]
          split
          case isTrue hempty =>
            rw [List.isEmpty_iff.mp hempty] at hsuffix
            have := List.IsSuffix.length_le hsuffix
            simp [headerEnd, crlf] at this
          case isFalse => exact hsuffix.isInfix.trans List.infix_append_left
        | next next events =>
          obtain ⟨_, hat⟩ := hnext next events hmove
          exact ih (by rw [hdrop]; exact hat) hpaused

theorem executePhase_complete (phase : Phase) (bytes : Bytes)
    (h : (executePhase phase bytes).2 ≠ .refused) :
    (told (executePhase phase bytes).1).complete = true ↔
      ∃ t, (executePhase phase bytes).2 = .paused t := by
  have hmoves : ∀ (phase next : Phase) (b : UInt8) (events : List Event),
      phase.move b = some (.next next events) → (told events).complete = false := by
    intro phase next b events hmove
    cases phase
    all_goals
      dsimp only [Phase.move] at hmove
      repeat' split at hmove
      all_goals cases hmove <;> rfl
  induction bytes generalizing phase with
  | nil => exact iff_of_false Bool.false_ne_true (by rintro ⟨t, ht⟩; cases ht)
  | cons b bytes ih =>
    rw [executePhase] at h ⊢
    cases hmove : phase.move b with
    | none =>
      rw [hmove] at h
      exact absurd rfl h
    | some move =>
      rw [hmove] at h
      cases move with
      | finish => exact iff_of_true rfl ⟨phase, rfl⟩
      | next next events =>
        dsimp only at h ⊢
        rw [told_append, Told.append, hmoves phase next b events hmove, Bool.false_or]
        exact ih next h

/-- A parser of requests without a body that tells its callbacks byte by byte. It stands in for
llhttp where one is to be run. -/
def headOnly : Llhttp where
  State := Phase
  init := .blank
  execute := executePhase
  method := fun _ => ascii "GET"
  execute_nil := fun _ => rfl
  execute_refused := fun s a b h => by rw [executePhase_append, h]
  execute_paused := fun s a b t h => by
    rw [executePhase_append, h]
    exact ⟨rfl, rfl⟩
  execute_running := fun s a b t h => by
    rw [executePhase_append, h]
    exact ⟨rfl, fun _ => told_append _ _⟩
  complete_iff := executePhase_complete
  headerEnded := fun a t h => @executePhase_ended .blank [] rfl a t h

/-- Blank lines, and a request with a target and a field of these lengths. -/
def hiddenRequest (n m : Nat) : Bytes :=
  headerEnd ++ (ascii "GET /" ++ (List.replicate n 97 ++ (ascii " HTTP/1.1\r\nX: " ++
    (List.replicate (m + 1) 98 ++ headerEnd))))

theorem executePhase_target (n : Nat) :
    executePhase .target (List.replicate n 97) =
      (List.replicate n (.url [97]), .running .target) := by
  induction n with
  | zero => rfl
  | succ n ih =>
    rw [List.replicate_succ, executePhase, show Phase.move .target 97 = some (.next .target [.url [97]]) from rfl]
    dsimp only
    rw [ih]
    rfl

theorem executePhase_value (n : Nat) :
    executePhase .value (List.replicate n 98) =
      (List.replicate n (.field [98]), .running .value) := by
  induction n with
  | zero => rfl
  | succ n ih =>
    rw [List.replicate_succ, executePhase, show Phase.move .value 98 = some (.next .value [.field [98]]) from rfl]
    dsimp only
    rw [ih]
    rfl

theorem told_urls (n : Nat) : told (List.replicate n (.url [97])) = { url := List.replicate n 97 } := by
  induction n with
  | zero => rfl
  | succ n ih =>
    rw [List.replicate_succ]
    unfold told
    rw [ih]
    rfl

theorem told_fields (n : Nat) : told (List.replicate n (.field [98])) = { fields := n } := by
  induction n with
  | zero => rfl
  | succ n ih =>
    rw [List.replicate_succ]
    unfold told
    rw [ih]
    simp [Event.told, Told.append, Nat.add_comm]

theorem executePhase_hidden (n m : Nat) :
    told (executePhase .blank (hiddenRequest n m)).1 =
        ⟨47 :: List.replicate n 97, m + 2, [], true⟩ ∧
      (executePhase .blank (hiddenRequest n m)).2 = .paused .last := by
  have hfront : executePhase .blank headerEnd = ([], .running .blank) := rfl
  have hmethod : executePhase .blank (ascii "GET /") = ([.url [47]], .running .target) := rfl
  have hversion : executePhase .target (ascii " HTTP/1.1\r\nX: ") =
      ([.field [88]], .running .gap) := rfl
  have hvalue : executePhase .gap (List.replicate (m + 1) 98) =
      (.field [98] :: List.replicate m (.field [98]), .running .value) := by
    rw [List.replicate_succ, executePhase,
      show Phase.move .gap 98 = some (.next .value [.field [98]]) from rfl]
    dsimp only
    rw [executePhase_value]
    rfl
  have hend : executePhase .value headerEnd = ([.complete], .paused .last) := rfl
  unfold hiddenRequest
  rw [executePhase_append, hfront]
  dsimp only
  rw [executePhase_append, hmethod]
  dsimp only
  rw [executePhase_append, executePhase_target]
  dsimp only
  rw [executePhase_append, hversion]
  dsimp only
  rw [executePhase_append, hvalue]
  dsimp only
  rw [hend]
  refine ⟨?_, rfl⟩
  rw [← List.replicate_succ]
  simp only [told_append, told_urls, told_fields, List.nil_append]
  simp [told, Event.told, Told.append]
  omega

theorem hidden_overBudget {n m : Nat} (h : headerLimit ≤ n + m) : OverBudget (hiddenRequest n m) := by
  have hlimit : headerLimit = 65532 + 4 := rfl
  -- behind the blank front, up to the second blank line
  have hlines : ∀ lines : Bytes, lines = ascii "GET /" ++ (List.replicate n 97 ++
      (ascii " HTTP/1.1\r\nX: " ++ List.replicate (m + 1) 98)) →
      headerLimit ≤ lines.length ∧ lines.count 13 = 1 ∧ lines.head? = some 71 := by
    rintro lines rfl
    have hget : (ascii "GET /").length = 5 := rfl
    have hget13 : (ascii "GET /").count 13 = 0 := by decide
    have hversion : (ascii " HTTP/1.1\r\nX: ").length = 14 := by decide
    have hversion13 : (ascii " HTTP/1.1\r\nX: ").count 13 = 1 := by decide
    refine ⟨?_, ?_, rfl⟩
    · simp only [List.length_append, List.length_replicate, hget, hversion]
      omega
    · simp only [List.count_append, List.count_replicate, hget13, hversion13]
      simp
  generalize hl : ascii "GET /" ++ (List.replicate n 97 ++
      (ascii " HTTP/1.1\r\nX: " ++ List.replicate (m + 1) 98)) = lines at hlines
  obtain ⟨hlength, hcount, hhead⟩ := hlines lines rfl
  have hbytes : hiddenRequest n m = headerEnd ++ (lines ++ headerEnd) := by
    rw [← hl, hiddenRequest]
    simp
  have htake : (hiddenRequest n m).take headerLimit = headerEnd ++ lines.take 65532 := by
    rw [hbytes, List.take_append, List.take_append]
    have hzero : 65536 - 4 - lines.length = 0 := by omega
    simp [headerLimit, headerEnd, crlf, hzero]
  refine ⟨?_, fun hended => ?_⟩
  · rw [hbytes]
    simp only [List.length_append]
    have : headerEnd.length = 4 := rfl
    omega
  · have hdrop : (headerEnd ++ lines.take 65532).dropWhile isBlank = lines.take 65532 := by
      obtain ⟨rest, rfl⟩ : ∃ rest, lines = 71 :: rest := by
        cases lines with
        | nil => cases hhead
        | cons b rest =>
          cases hhead
          exact ⟨rest, rfl⟩
      rfl
    unfold HeaderEnded at hended
    rw [htake, hdrop] at hended
    have htwo := (hended.sublist.trans (List.take_sublist _ _)).count_le 13
    rw [hcount] at htwo
    revert htwo
    decide

theorem hidden_scannable (n m : Nat) : Scannable (hiddenRequest n m) := by
  right
  unfold hiddenRequest
  rw [List.take_append, List.take_of_length_le (by decide)]
  exact List.infix_append_left

theorem hidden_verdict {n m : Nat} (hn : n < headerLimit) (hm : m + 1 < headerLimit) :
    verdict headOnly (hiddenRequest n m) =
      .complete (ascii "GET") (47 :: List.replicate n 97) [] := by
  obtain ⟨htold, hpaused⟩ := executePhase_hidden n m
  have htold' : told (headOnly.execute headOnly.init (hiddenRequest n m)).1 =
      ⟨47 :: List.replicate n 97, m + 2, [], true⟩ := htold
  have hpaused' : (headOnly.execute headOnly.init (hiddenRequest n m)).2 = .paused .last := hpaused
  have hfits : Told.Fits ⟨47 :: List.replicate n 97, m + 2, [], true⟩ := by
    refine ⟨?_, hm, Nat.zero_le _⟩
    rw [List.length_cons, List.length_replicate]
    exact hn
  unfold verdict
  rw [htold', hpaused', if_pos ⟨hidden_scannable n m, hfits⟩]
  rfl

/-- Blank lines hide a request head of more than 80000 bytes from the header budget. -/
theorem budget_evaded :
    OverBudget (hiddenRequest 40000 40000) ∧
      outcome headOnly [hiddenRequest 40000 40000] =
        .complete (ascii "GET") (47 :: List.replicate 40000 97) [] := by
  refine ⟨hidden_overBudget (by decide), ?_⟩
  rw [outcome_eq, List.flatten_cons, List.flatten_nil, List.append_nil]
  exact hidden_verdict (by decide) (by decide)

end TsonicNode.Http
