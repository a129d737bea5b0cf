import TsonicNode.Http.Head
import TsonicNode.Lib.Run
import Mathlib.Data.List.TakeWhile

/-!
# What a response looks like to its reader

`Supply` is what a handler has asked for and `Supply.response` the message its
client should read. `Supplies` relates a response to its supply; every call keeps
it (`perform_supplies`). The rest reads the output of a response that has ended:
`outputOf_render` brings it into the form of the grammar, and `framing_*` finds
the framing of each kind of head.
-/

namespace TsonicNode.Http

open TsonicNode.Lib TsonicNode.Lib.Http

/-! ## The supply -/

structure Supply where
  status : Int := 200
  reason : Option Bytes := none
  fields : List Field := []
  body : Bytes := []
  deriving DecidableEq, Repr

/-- What a handler calls before it ends the response. -/
inductive Call where
  | setHeader (name value : Bytes)
  | setStatusCode (value : Int)
  | writeHead (statusCode : Int) (statusMessage : Bytes)
  | writeBuffer (value : Bytes)
  deriving DecidableEq, Repr

instance (f : Field) : Decidable f.Valid :=
  inferInstanceAs (Decidable (f.name ≠ [] ∧ f.name.all isTchar = true ∧ f.value.all isText = true))

def sameName (f g : Field) : Bool := decide (lower g.name = lower f.name)

/-- A field takes the place of the one of its name. -/
def putField (field : Field) (fields : List Field) : List Field :=
  if fields.any (sameName field) then fields.map fun f => if sameName field f then field else f
  else fields ++ [field]

/-- What is supplied behind a call; a call that is refused supplies nothing. -/
def Supply.after (p : Supply) : Call → Supply
  | .setHeader name value =>
    if Field.Valid ⟨name, value⟩ then { p with fields := putField ⟨name, value⟩ p.fields } else p
  | .setStatusCode value => { p with status := value }
  | .writeHead statusCode statusMessage =>
    if statusMessage.all isText then { p with status := statusCode, reason := some statusMessage }
    else p
  | .writeBuffer value =>
    if p.body.length + value.length ≤ bodyLimit then { p with body := p.body ++ value } else p

def Supply.lengthless (p : Supply) : Bool := decide (p.status < 200) || decide (p.status = 204)

def Supply.bare (p : Supply) : Bool :=
  decide (p.status < 200) || decide (p.status = 204) || decide (p.status = 304)

def isLength (f : Field) : Bool := decide (lower f.name = contentLength)

def isCoding (f : Field) : Bool := decide (lower f.name = transferEncoding)

/-- The message carries this field. What was asked of the connection is not passed on, and some
statuses go without framing. -/
def Supply.carries (p : Supply) (f : Field) : Bool :=
  decide (lower f.name ≠ ascii "connection") && !(isCoding f && p.bare) &&
    !(isLength f && p.lengthless)

/-- The fields the message carries, as they are read. -/
def Supply.carried (p : Supply) : List Field := (p.fields.filter p.carries).map Field.read

/-- The length the message carries by itself. -/
def Supply.ownLength (p : Supply) : List Field :=
  if p.bare || p.fields.any (fun f => isLength f || isCoding f) then []
  else [⟨ascii "Content-Length", numeral 10 p.body.length⟩]

/-- The fields of the message. -/
def Supply.wire (p : Supply) : List Field :=
  p.fields.filter p.carries ++ p.ownLength ++ [⟨ascii "Connection", ascii "close"⟩]

/-- The message that is to be read, in answer to a HEAD request or to another one. -/
def Supply.response (head : Bool) (p : Supply) : Response :=
  { status := p.status.toNat
    reason := p.reason.getD (defaultStatusMessage p.status)
    fields := p.wire.map Field.read
    body := if head || p.bare then [] else p.body }

/-- The framing fields the message carries are a plain decimal number and the ASCII word
`chunked`. -/
def Supply.PlainFraming (p : Supply) : Prop :=
  ∀ f ∈ p.fields, p.carries f = true →
    (isLength f = true → (readNumber 10 (trim f.value)).isSome = true) ∧
      (isCoding f = true → lower (trim f.value) = ascii "chunked")

def perform (casing : Casing) : Call → Method Unit
  | .setHeader name value => setHeader casing name value
  | .setStatusCode value => setStatusCode value
  | .writeHead statusCode statusMessage => writeHead statusCode statusMessage
  | .writeBuffer value => do
    let _ ← writeBuffer value

/-- The response behind these calls; the handler goes on when one is refused. -/
def afterCalls (casing : Casing) (s : ResponseState) (calls : List Call) : ResponseState :=
  run (fun s call => finalState (perform casing call s)) s calls

/-! ## Letters -/

theorem ascii_of_tchar {b : UInt8} : isTchar b = true → b < 128 :=
  forall_byte (by decide +kernel) b

theorem lower_name (casing : Casing) {f : Field} (h : f.Valid) :
    casing.lower f.name = lower f.name :=
  casing.lower_ascii f.name fun b hb => ascii_of_tchar (List.all_eq_true.mp h.2.1 b hb)

theorem prohibited_eq (b : UInt8) : prohibited b = !isText b :=
  forall_byte (by decide +kernel) b

theorem any_prohibited (value : Bytes) : value.any prohibited = !value.all isText := by
  induction value with
  | nil => rfl
  | cons b value ih => rw [List.any_cons, List.all_cons, ih, prohibited_eq, Bool.not_and]

theorem isSpace_of_text {b : UInt8} : isText b = true → isSpace b = isOws b :=
  forall_byte (by decide +kernel) b

theorem dropWhile_of_text {s : Bytes} (h : s.all isText = true) :
    s.dropWhile isSpace = s.dropWhile isOws ∧ (s.dropWhile isOws).all isText = true := by
  induction s with
  | nil => exact ⟨rfl, rfl⟩
  | cons b s ih =>
    have hb := (Bool.and_eq_true _ _).mp h
    rw [List.dropWhile_cons, List.dropWhile_cons, isSpace_of_text hb.1]
    split
    · exact ih hb.2
    · exact ⟨rfl, h⟩

/-- In a header value only blanks and tabs are whitespace. -/
theorem strip_eq_trim {s : Bytes} (h : s.all isText = true) : strip s = trim s := by
  obtain ⟨hfront, htext⟩ := dropWhile_of_text h
  have htext' : (s.dropWhile isOws).reverse.all isText = true := by rwa [List.all_reverse]
  unfold strip trim
  rw [hfront, (dropWhile_of_text htext').1]

/-! ## Numbers -/

theorem byte_of_digit {b : UInt8} : ∀ d, digitValue b = some d → d < 10 →
    b ≠ 95 ∧ (48 ≤ b ∧ b ≤ 57) ∧ b.toNat - 48 = d := by
  have hall : ∀ b : UInt8, ((digitValue b).all fun d => decide (d < 10 →
      b ≠ 95 ∧ (48 ≤ b ∧ b ≤ 57) ∧ b.toNat - 48 = d)) = true :=
    forall_byte (by decide +kernel)
  intro d hd
  have hb := hall b
  rw [hd] at hb
  exact of_decide_eq_true hb

theorem atolDigits_plain {s : Bytes} {n m : Nat} (h : readDigits 10 n s = some m) :
    atolDigits false n s = some m := by
  induction s generalizing n with
  | nil => exact h
  | cons b s ih =>
    rw [readDigits_cons] at h
    cases hd : digitValue b with
    | none => rw [hd] at h; cases h
    | some d =>
      rw [hd] at h
      dsimp only at h
      split at h
      case isFalse => cases h
      case isTrue hlt =>
        obtain ⟨hne, hrange, hvalue⟩ := byte_of_digit d hd hlt
        unfold atolDigits
        rw [if_neg hne, if_pos hrange, hvalue]
        exact ih h

/-- A plain number is read alike by the lenient parse and by the grammar. -/
theorem atol_plain {value : Bytes} {n : Nat} {k : Int} (htext : value.all isText = true)
    (hplain : readNumber 10 (trim value) = some n) (hatol : atol value = some k) : k = n := by
  unfold atol at hatol
  rw [strip_eq_trim htext] at hatol
  unfold readNumber at hplain
  split at hplain
  case isTrue => cases hplain
  case isFalse hne =>
    obtain ⟨b, s, hvalue⟩ := List.exists_cons_of_ne_nil hne
    rw [hvalue] at hatol hplain
    have hdigits : atolDigits true 0 (b :: s) = some n := by
      have hfalse := atolDigits_plain hplain
      unfold atolDigits at hfalse ⊢
      split at hfalse
      case isTrue h95 =>
        have hb := digit_of_readDigits hplain b List.mem_cons_self
        rw [h95] at hb
        cases hb
      case isFalse h95 =>
        rw [if_neg h95]
        exact hfalse
    have hb := digit_of_readDigits hplain b List.mem_cons_self
    have hplus : b ≠ 43 := fun h => by
      rw [h] at hb
      cases hb
    have hminus : b ≠ 45 := fun h => by
      rw [h] at hb
      cases hb
    dsimp only at hatol
    rw [if_neg hplus, if_neg hminus, atolUnsigned, hdigits] at hatol
    obtain ⟨m, hm, rfl⟩ := Option.map_eq_some_iff.mp hatol
    obtain ⟨hm, _⟩ := Option.filter_eq_some_iff.mp hm
    cases hm
    rfl

/-! ## The calls -/

/-- No two fields have one name. -/
def Distinct (fields : List Field) : Prop := fields.Pairwise fun f g => lower f.name ≠ lower g.name

theorem map_of_absent {field : Field} {fields : List Field}
    (h : fields.any (sameName field) = false) :
    (fields.map fun f => if sameName field f then field else f) = fields := by
  rw [List.any_eq_false] at h
  calc
    _ = fields.map id := List.map_congr_left fun f hf => if_neg (h f hf)
    _ = fields := List.map_id fields

/-- Replacing the first header of a name replaces the only one. -/
theorem replaceHeader_eq (casing : Casing) {field : Field} (hfield : field.Valid)
    {fields : List Field} (hvalid : ∀ f ∈ fields, f.Valid) (hdistinct : Distinct fields) :
    replaceHeader casing field fields = putField field fields := by
  unfold putField
  induction fields with
  | nil => rfl
  | cons f fields ih =>
    obtain ⟨hhead, htail⟩ := List.pairwise_cons.mp hdistinct
    have ih := ih (fun g hg => hvalid g (List.mem_cons_of_mem f hg)) htail
    unfold replaceHeader
    rw [lower_name casing (hvalid f List.mem_cons_self), lower_name casing hfield]
    by_cases hsame : lower f.name = lower field.name
    · have hf : sameName field f = true := decide_eq_true hsame
      have habsent : fields.any (sameName field) = false := by
        rw [List.any_eq_false]
        intro g hg hgf
        exact hhead g hg (hsame.trans (of_decide_eq_true hgf).symm)
      rw [if_pos hsame, List.any_cons, hf, Bool.true_or, if_pos rfl, List.map_cons, if_pos hf,
        map_of_absent habsent]
    · have hf : sameName field f = false := decide_eq_false hsame
      have hkept : (if sameName field f = true then field else f) = f :=
        if_neg (by rw [hf]; exact Bool.false_ne_true)
      rw [if_neg hsame, ih, List.any_cons, hf, Bool.false_or, List.map_cons, hkept]
      split <;> rfl

theorem putField_valid {field : Field} (hfield : field.Valid) {fields : List Field}
    (hvalid : ∀ f ∈ fields, f.Valid) : ∀ f ∈ putField field fields, f.Valid := by
  unfold putField
  intro f hf
  split at hf
  · obtain ⟨g, hg, rfl⟩ := List.mem_map.mp hf
    split
    · exact hfield
    · exact hvalid g hg
  · obtain hf | hf := List.mem_append.mp hf
    · exact hvalid f hf
    · rw [List.mem_singleton.mp hf]
      exact hfield

theorem putField_distinct {field : Field} {fields : List Field} (hdistinct : Distinct fields) :
    Distinct (putField field fields) := by
  unfold putField
  split
  case isTrue =>
    have hname : ∀ f : Field, lower (if sameName field f then field else f).name = lower f.name := by
      intro f
      split
      case isTrue h => exact (of_decide_eq_true h).symm
      case isFalse => rfl
    unfold Distinct
    rw [List.pairwise_map]
    refine hdistinct.imp ?_
    intro f g h
    rw [hname, hname]
    exact h
  case isFalse habsent =>
    refine List.pairwise_append.mpr ⟨hdistinct, List.pairwise_singleton _ _, ?_⟩
    intro f hf g hg heq
    rw [List.mem_singleton.mp hg] at heq
    exact habsent (List.any_eq_true.mpr ⟨f, hf, decide_eq_true heq⟩)

/-- The response holds what was supplied, and nothing of it is sent yet. -/
structure Supplies (transport : HttpTransport) (head : Bool) (s : ResponseState) (p : Supply) :
    Prop where
  status : s.statusCode = p.status
  reason : s.statusMessage = p.reason
  fields : s.headers = p.fields
  body : s.body = p.body
  transport : s.transport = transport
  headRequest : s.headRequest = head
  unfinished : s.finished = false
  offset : s.offset = 0
  valid : ∀ f ∈ p.fields, f.Valid
  distinct : Distinct p.fields
  text : ∀ m, p.reason = some m → m.all isText = true

section
variable {transport : HttpTransport} {head : Bool} {s : ResponseState} {p : Supply}

theorem requireUnsent_spec (h : s.finished = false) :
    wp requireUnsent (fun _ t => t = s) (fun _ _ => False) s := by
  unfold requireUnsent
  simp only [wp_bind, wp_get, wp_ite, wp_pure]
  rw [if_neg (by rw [h]; exact Bool.false_ne_true)]
  trivial

theorem checkToken_spec (value : Bytes) (role : String) :
    wp (checkToken value role) (fun _ t => (value ≠ [] ∧ value.all isTchar = true) ∧ t = s)
      (fun _ t => ¬ (value ≠ [] ∧ value.all isTchar = true) ∧ t = s) s := by
  unfold checkToken
  simp only [wp_ite, wp_throw, wp_pure]
  split
  case isTrue h => exact ⟨fun hc => hc.1 h, trivial⟩
  case isFalse hne =>
    split
    case isTrue h => exact ⟨⟨hne, h⟩, trivial⟩
    case isFalse h => exact ⟨fun hc => h hc.2, trivial⟩

theorem checkHeaderValue_spec (value : Bytes) :
    wp (checkHeaderValue value) (fun _ t => value.all isText = true ∧ t = s)
      (fun _ t => ¬ value.all isText = true ∧ t = s) s := by
  unfold checkHeaderValue
  simp only [wp_ite, wp_throw, wp_pure, any_prohibited]
  cases value.all isText with
  | true => exact ⟨rfl, trivial⟩
  | false => exact ⟨Bool.false_ne_true, trivial⟩

theorem setHeader_supplies (casing : Casing) (name value : Bytes) (h : Supplies transport head s p) :
    wp (setHeader casing name value)
      (fun _ t => Supplies transport head t (p.after (.setHeader name value)))
      (fun _ t => Supplies transport head t (p.after (.setHeader name value))) s := by
  unfold setHeader
  simp only [wp_bind]
  refine wp_mono (requireUnsent_spec h.unfinished) ?_ (fun _ _ hf => hf.elim)
  rintro _ t rfl
  dsimp only [Supply.after]
  refine wp_mono (checkToken_spec name _) ?_ ?_
  · rintro _ t ⟨⟨hne, hname⟩, rfl⟩
    refine wp_mono (checkHeaderValue_spec value) ?_ ?_
    · rintro _ t ⟨hvalue, rfl⟩
      have hfield : Field.Valid ⟨name, value⟩ := ⟨hne, hname, hvalue⟩
      simp only [wp_modify]
      rw [if_pos hfield]
      exact { h with
        fields := by
          show replaceHeader casing ⟨name, value⟩ t.headers = putField ⟨name, value⟩ p.fields
          rw [h.fields, replaceHeader_eq casing hfield h.valid h.distinct]
        valid := putField_valid hfield h.valid
        distinct := putField_distinct h.distinct }
    · rintro _ t ⟨hvalue, rfl⟩
      rw [if_neg fun hf : Field.Valid ⟨name, value⟩ => hvalue hf.2.2]
      exact h
  · rintro _ t ⟨hname, rfl⟩
    rw [if_neg fun hf : Field.Valid ⟨name, value⟩ => hname ⟨hf.1, hf.2.1⟩]
    exact h

theorem writeHead_supplies (statusCode : Int) (statusMessage : Bytes)
    (h : Supplies transport head s p) :
    wp (writeHead statusCode statusMessage)
      (fun _ t => Supplies transport head t (p.after (.writeHead statusCode statusMessage)))
      (fun _ t => Supplies transport head t (p.after (.writeHead statusCode statusMessage))) s := by
  unfold writeHead setStatusCode
  simp only [wp_bind]
  refine wp_mono (requireUnsent_spec h.unfinished) ?_ (fun _ _ hf => hf.elim)
  rintro _ t rfl
  dsimp only [Supply.after]
  refine wp_mono (checkHeaderValue_spec statusMessage) ?_ ?_
  · rintro _ t ⟨hmessage, rfl⟩
    simp only [wp_modify]
    rw [if_pos hmessage]
    exact { h with
      status := rfl
      reason := rfl
      text := fun m hm => by
        cases hm
        exact hmessage }
  · rintro _ t ⟨hmessage, rfl⟩
    rw [if_neg hmessage]
    exact h

theorem appended_supplies {value : Bytes} (h : Supplies transport head s p)
    (htakes : s.Takes value) :
    Supplies transport head (s.appended value) (p.after (.writeBuffer value)) := by
  dsimp only [Supply.after]
  rw [if_pos (by rw [← h.body]; exact htakes.2)]
  exact { h with body := congrArg (· ++ value) h.body }

theorem append_supplies (value : Bytes) (h : Supplies transport head s p) :
    wp (append value)
      (fun _ t => Supplies transport head t (p.after (.writeBuffer value)))
      (fun _ t => Supplies transport head t (p.after (.writeBuffer value))) s := by
  refine wp_mono (append_spec s value) ?_ ?_
  · rintro _ t ⟨htakes, rfl⟩
    exact appended_supplies h htakes
  · rintro _ t ⟨htakes, rfl⟩
    dsimp only [Supply.after]
    rw [if_neg fun hl => htakes ⟨h.unfinished, by rw [h.body]; exact hl⟩]
    exact h

/-- A call leaves the response with what it has supplied, also when it raises. -/
theorem perform_supplies (casing : Casing) (call : Call) (h : Supplies transport head s p) :
    Supplies transport head (finalState (perform casing call s)) (p.after call) := by
  refine wp_final (P := fun t => Supplies transport head t (p.after call)) ?_
  cases call with
  | setHeader name value => exact setHeader_supplies casing name value h
  | setStatusCode value => exact { h with status := rfl }
  | writeHead statusCode statusMessage => exact writeHead_supplies statusCode statusMessage h
  | writeBuffer value =>
    unfold perform writeBuffer
    simp only [wp_bind, wp_pure]
    exact append_supplies value h

theorem afterCalls_supplies (casing : Casing) (calls : List Call)
    (h : Supplies transport head s p) :
    Supplies transport head (afterCalls casing s calls) (run Supply.after p calls) := by
  unfold afterCalls
  induction calls generalizing s p with
  | nil => exact h
  | cons call calls ih => exact ih (perform_supplies casing call h)

/-! ## The output -/

theorem bare_eq (h : Supplies transport head s p) : s.bare = p.bare := by
  unfold ResponseState.bare Supply.bare
  rw [h.status]

theorem lengthless_eq (h : Supplies transport head s p) : s.lengthless = p.lengthless := by
  unfold ResponseState.lengthless Supply.lengthless
  rw [h.status]

theorem kept_eq (casing : Casing) (h : Supplies transport head s p) {f : Field} (hf : f ∈ p.fields) :
    kept casing s f = p.carries f := by
  unfold kept named Supply.carries isCoding isLength
  rw [lower_name casing (h.valid f hf), bare_eq h, lengthless_eq h, decide_not]

theorem chunked_eq (casing : Casing) (h : Supplies transport head s p) :
    chunked casing s = p.fields.any isCoding := by
  unfold chunked
  rw [h.fields, Bool.eq_iff_iff, List.any_eq_true, List.any_eq_true]
  refine exists_congr fun f => and_congr_right fun hf => ?_
  unfold named isCoding
  rw [lower_name casing (h.valid f hf)]

theorem hasLength_eq (casing : Casing) (h : Supplies transport head s p) :
    hasLength casing s = (p.fields.filter p.carries).any isLength := by
  unfold hasLength
  rw [h.fields, List.any_filter, Bool.eq_iff_iff, List.any_eq_true, List.any_eq_true]
  refine exists_congr fun f => and_congr_right fun hf => ?_
  rw [kept_eq casing h hf]
  unfold named isLength
  rw [lower_name casing (h.valid f hf)]

/-- A status that carries framing carries all of it. -/
theorem carries_of_length (hbare : p.bare = false) {f : Field} (hf : isLength f = true) :
    p.carries f = true := by
  have hname : lower f.name = contentLength := of_decide_eq_true hf
  have hless : p.lengthless = false := by
    unfold Supply.bare at hbare
    exact (Bool.or_eq_false_iff.mp hbare).1
  unfold Supply.carries
  rw [hbare, hless, hname, Bool.and_false, Bool.and_false]
  rfl

theorem carries_of_coding (hbare : p.bare = false) {f : Field} (hf : isCoding f = true) :
    p.carries f = true := by
  have hname : lower f.name = transferEncoding := of_decide_eq_true hf
  have hlength : isLength f = false := by
    unfold isLength
    rw [hname]
    rfl
  unfold Supply.carries
  rw [hbare, hlength, hname, Bool.and_false]
  rfl

theorem ownLength_eq (casing : Casing) (h : Supplies transport head s p) :
    p.ownLength =
      if !hasLength casing s && !chunked casing s && !s.bare then
        [⟨ascii "Content-Length", numeral 10 p.body.length⟩]
      else [] := by
  unfold Supply.ownLength
  rw [chunked_eq casing h, hasLength_eq casing h, bare_eq h]
  cases hbare : p.bare with
  | true => simp
  | false =>
    have hany : (p.fields.any fun f => isLength f || isCoding f) =
        ((p.fields.filter p.carries).any isLength || p.fields.any isCoding) := by
      rw [Bool.eq_iff_iff, Bool.or_eq_true, List.any_filter]
      simp only [List.any_eq_true, Bool.or_eq_true, Bool.and_eq_true]
      constructor
      · rintro ⟨f, hf, hl | hc⟩
        · exact Or.inl ⟨f, hf, carries_of_length hbare hl, hl⟩
        · exact Or.inr ⟨f, hf, hc⟩
      · rintro (⟨f, hf, _, hl⟩ | ⟨f, hf, hc⟩)
        · exact ⟨f, hf, Or.inl hl⟩
        · exact ⟨f, hf, Or.inr hc⟩
    rw [hany]
    cases (p.fields.filter p.carries).any isLength <;> cases p.fields.any isCoding <;> rfl

/-- The output is a head of the grammar and a body. -/
theorem outputOf_render (casing : Casing) (h : Supplies transport head s p) :
    outputOf s (headOf casing s) =
      renderHead p.status.toNat (p.reason.getD (defaultStatusMessage p.status)) p.wire ++
        frameBody s (chunked casing s) := by
  have hfirst : firstLine s =
      statusLine p.status.toNat (p.reason.getD (defaultStatusMessage p.status)) ++ crlf := by
    unfold firstLine ResponseState.reason statusLine
    rw [h.status, h.reason, show ascii "HTTP/1.1 " = version ++ [32] by decide,
      show ascii " " = [32] by decide]
    simp
  have hkept : s.headers.filter (kept casing s) = p.fields.filter p.carries := by
    rw [h.fields]
    exact List.filter_congr fun f hf => kept_eq casing h hf
  have hown : p.ownLength.flatMap Field.render =
      if !hasLength casing s && !chunked casing s && !s.bare then
        ascii "Content-Length: " ++ numeral 10 s.body.length ++ crlf
      else [] := by
    rw [ownLength_eq casing h, h.body,
      show ascii "Content-Length: " = ascii "Content-Length" ++ ascii ": " by decide]
    split
    · simp [Field.render]
    · rfl
  unfold outputOf headOf renderHead Supply.wire
  dsimp only
  rw [hfirst, hkept, ← hown, List.flatMap_append, List.flatMap_append,
    show ascii "Connection: close" = ascii "Connection" ++ (ascii ": " ++ ascii "close") by decide]
  simp [Field.render]

theorem numeral_digits (n : Nat) : ∀ b ∈ numeral 10 n, (digitValue b).isSome = true :=
  digit_of_readNumber (readNumber_numeral (by omega) (by omega) n)

theorem text_of_digit {b : UInt8} : (digitValue b).isSome = true → isText b = true :=
  forall_byte (by decide +kernel) b

theorem not_ows_of_digit {b : UInt8} : (digitValue b).isSome = true → isOws b = false :=
  forall_byte (by decide +kernel) b

theorem trim_numeral (n : Nat) : trim (numeral 10 n) = numeral 10 n := by
  have hows : ∀ b ∈ numeral 10 n, ¬ isOws b = true := fun b hb => by
    rw [not_ows_of_digit (numeral_digits n b hb)]
    exact Bool.false_ne_true
  have hfront : (numeral 10 n).dropWhile isOws = numeral 10 n :=
    List.dropWhile_eq_self_iff.mpr fun _ => hows _ (List.getElem_mem _)
  have hback : (numeral 10 n).reverse.dropWhile isOws = (numeral 10 n).reverse :=
    List.dropWhile_eq_self_iff.mpr fun _ => hows _ (List.mem_reverse.mp (List.getElem_mem _))
  unfold trim
  rw [hfront, hback, List.reverse_reverse]

theorem wire_valid (hvalid : ∀ f ∈ p.fields, f.Valid) : ∀ f ∈ p.wire, f.Valid := by
  have hclose : Field.Valid ⟨ascii "Connection", ascii "close"⟩ := by decide
  have hlength : Field.Valid ⟨ascii "Content-Length", numeral 10 p.body.length⟩ :=
    ⟨show ascii "Content-Length" ≠ [] by decide,
      show (ascii "Content-Length").all isTchar = true by decide,
      List.all_eq_true.mpr fun b hb => text_of_digit (numeral_digits p.body.length b hb)⟩
  intro f hf
  unfold Supply.wire Supply.ownLength at hf
  obtain hf | hf := List.mem_append.mp hf
  · obtain hf | hf := List.mem_append.mp hf
    · exact hvalid f (List.mem_filter.mp hf).1
    · split at hf
      · cases hf
      · rw [List.mem_singleton.mp hf]
        exact hlength
  · rw [List.mem_singleton.mp hf]
    exact hclose

theorem default_text (status : Int) : (defaultStatusMessage status).all isText = true := by
  unfold defaultStatusMessage
  repeat' split
  all_goals decide

theorem bodiless_eq (hlow : 100 ≤ p.status) (head : Bool) :
    bodiless head p.status.toNat = (head || p.bare) := by
  unfold bodiless Supply.bare
  have h200 : decide (p.status.toNat < 200) = decide (p.status < 200) := by
    rw [decide_eq_decide]
    omega
  have h204 : decide (p.status.toNat = 204) = decide (p.status = 204) := by
    rw [decide_eq_decide]
    omega
  have h304 : decide (p.status.toNat = 304) = decide (p.status = 304) := by
    rw [decide_eq_decide]
    omega
  rw [h200, h204, h304]
  simp only [Bool.or_assoc]

/-! ## The framing -/

theorem valuesOf_read (name : Bytes) (fields : List Field) :
    valuesOf name (fields.map Field.read) =
      (fields.filter fun f => lower f.name == name).map fun f => trim f.value := by
  unfold valuesOf
  rw [List.filter_map, List.map_map]
  rfl

/-- A name has one value at most. -/
theorem values_of_distinct {fields : List Field} (h : Distinct fields) (name : Bytes) :
    ((∀ f ∈ fields, lower f.name ≠ name) ∧ valuesOf name (fields.map Field.read) = []) ∨
      ∃ f ∈ fields, lower f.name = name ∧
        valuesOf name (fields.map Field.read) = [trim f.value] := by
  rw [valuesOf_read]
  induction fields with
  | nil => exact Or.inl ⟨List.forall_mem_nil _, rfl⟩
  | cons f fields ih =>
    obtain ⟨hhead, htail⟩ := List.pairwise_cons.mp h
    rw [List.filter_cons]
    by_cases hname : lower f.name = name
    · right
      have habsent : (fields.filter fun g => lower g.name == name) = [] := by
        rw [List.filter_eq_nil_iff]
        intro g hg hgn
        exact hhead g hg (hname.trans (beq_iff_eq.mp hgn).symm)
      rw [if_pos (beq_iff_eq.mpr hname), habsent]
      exact ⟨f, List.mem_cons_self, hname, rfl⟩
    · rw [if_neg (by simpa using hname)]
      obtain ⟨hall, hnone⟩ | ⟨g, hg, hgn, hone⟩ := ih htail
      · exact Or.inl ⟨List.forall_mem_cons.mpr ⟨hname, hall⟩, hnone⟩
      · exact Or.inr ⟨g, List.mem_cons_of_mem f hg, hgn, hone⟩

/-- The framing fields of the message are those it carries and its own length. -/
theorem valuesOf_wire (name : Bytes) (hname : ascii "connection" ≠ name) :
    valuesOf name (p.wire.map Field.read) =
      valuesOf name p.carried ++ valuesOf name (p.ownLength.map Field.read) := by
  have hclose : (lower (ascii "Connection") == name) = false := by
    rw [show lower (ascii "Connection") = ascii "connection" by decide]
    exact beq_false_of_ne hname
  unfold Supply.wire Supply.carried
  rw [valuesOf_read, valuesOf_read, valuesOf_read, List.filter_append, List.filter_append,
    List.map_append, List.map_append]
  simp [hclose]

theorem valuesOf_ownLength :
    valuesOf transferEncoding (p.ownLength.map Field.read) = [] ∧
      valuesOf contentLength (p.ownLength.map Field.read) =
        p.ownLength.map fun _ => numeral 10 p.body.length := by
  rw [valuesOf_read, valuesOf_read]
  unfold Supply.ownLength
  split
  · exact ⟨rfl, rfl⟩
  · have hlength : lower (ascii "Content-Length") = contentLength := by decide
    have hne : (contentLength == transferEncoding) = false := by decide
    simp [hlength, hne, trim_numeral]

theorem chunkSizeLoop_eq (fuel value : Nat) (text : Bytes) :
    chunkSizeLoop fuel value text = digits 16 fuel value text := by
  have hdigit : ∀ d : Fin 16, (ascii "0123456789abcdef").getD d 0 = digitByte d := by decide
  induction fuel generalizing value text with
  | zero => rfl
  | succ fuel ih =>
    unfold chunkSizeLoop digits
    split
    · rfl
    · have hmod : value &&& 15 = value % 16 := Nat.and_two_pow_sub_one_eq_mod value 4
      have hshift : value >>> 4 = value / 16 := Nat.shiftRight_eq_div_pow value 4
      rw [hmod, hshift, ih, hdigit ⟨value % 16, Nat.mod_lt _ (by omega)⟩]

theorem chunkSize_eq (value : Nat) : chunkSize value = numeral 16 value := by
  unfold chunkSize numeral
  rw [chunkSizeLoop_eq]
  dsimp only
  by_cases hvalue : value = 0
  · subst hvalue
    rfl
  · rw [if_neg (digits_ne_nil value value (Nat.le_refl value) hvalue []), if_neg hvalue]

theorem frameBody_chunked (h : s.noBody = false) :
    frameBody s true = if s.body = [] then lastChunk else renderChunk s.body ++ lastChunk := by
  unfold frameBody
  rw [h, if_neg Bool.false_ne_true, if_pos rfl, chunkSize_eq]
  split
  · rfl
  · simp [renderChunk, lastChunk]

theorem readBody_chunked (h : s.noBody = false) :
    readBody .chunked (frameBody s true) = some s.body := by
  rw [frameBody_chunked h]
  unfold readBody
  dsimp only
  by_cases hbody : s.body = []
  · rw [if_pos hbody, hbody]
    exact readChunks_last _
  · rw [if_neg hbody]
    have hpos : 0 < (renderChunk s.body ++ lastChunk).length := by
      rw [List.length_append]
      have : 0 < lastChunk.length := by decide
      omega
    obtain ⟨fuel, hfuel⟩ : ∃ fuel, (renderChunk s.body ++ lastChunk).length = fuel + 1 :=
      ⟨_, (Nat.succ_pred_eq_of_pos hpos).symm⟩
    rw [hfuel, readChunks_chunk hbody, readChunks_last]
    simp

theorem mem_carried (name : Bytes) {v : Bytes} :
    v ∈ valuesOf name p.carried ↔
      ∃ f ∈ p.fields, p.carries f = true ∧ lower f.name = name ∧ trim f.value = v := by
  unfold Supply.carried
  rw [valuesOf_read]
  simp only [List.mem_map, List.mem_filter, beq_iff_eq, and_assoc]

theorem plainFraming_iff :
    p.PlainFraming ↔
      (∀ v ∈ valuesOf contentLength p.carried, (readNumber 10 v).isSome = true) ∧
        ∀ v ∈ valuesOf transferEncoding p.carried, lower v = ascii "chunked" := by
  constructor
  · intro h
    constructor
    · intro v hv
      obtain ⟨f, hf, hcarries, hname, rfl⟩ := (mem_carried contentLength).mp hv
      exact (h f hf hcarries).1 (decide_eq_true hname)
    · intro v hv
      obtain ⟨f, hf, hcarries, hname, rfl⟩ := (mem_carried transferEncoding).mp hv
      exact (h f hf hcarries).2 (decide_eq_true hname)
  · rintro ⟨hlength, hcoding⟩ f hf hcarries
    constructor
    · intro hname
      exact hlength _ ((mem_carried contentLength).mpr
        ⟨f, hf, hcarries, of_decide_eq_true hname, rfl⟩)
    · intro hname
      exact hcoding _ ((mem_carried transferEncoding).mpr
        ⟨f, hf, hcarries, of_decide_eq_true hname, rfl⟩)

theorem carried_values (hdistinct : Distinct p.fields) (name : Bytes) :
    ((∀ f ∈ p.fields, p.carries f = true → lower f.name ≠ name) ∧
        valuesOf name p.carried = []) ∨
      ∃ f ∈ p.fields, p.carries f = true ∧ lower f.name = name ∧
        valuesOf name p.carried = [trim f.value] := by
  obtain ⟨hall, hnone⟩ | ⟨f, hf, hname, hone⟩ :=
    values_of_distinct (hdistinct.filter p.carries) name
  · exact Or.inl ⟨fun f hf hcarries => hall f (List.mem_filter.mpr ⟨hf, hcarries⟩), hnone⟩
  · obtain ⟨hf, hcarries⟩ := List.mem_filter.mp hf
    exact Or.inr ⟨f, hf, hcarries, hname, hone⟩

/-- The framing found in the message, and what it makes of the body. -/
def Supply.Framed (head : Bool) (p : Supply) (rest : Bytes) : Prop :=
  ∃ found, framing head p.status.toNat (p.wire.map Field.read) = some found ∧
    readBody found rest = some (if head || p.bare then [] else p.body)

theorem frameBody_noBody (h : s.noBody = true) (coding : Bool) : frameBody s coding = [] := by
  unfold frameBody
  rw [if_pos h]

theorem noBody_supplied (h : Supplies transport head s p) : s.noBody = (head || p.bare) := by
  rw [noBody_eq, h.headRequest, bare_eq h]

theorem framing_length (casing : Casing) (h : Supplies transport head s p)
    (hsend : Sendable casing s) {f : Field} (hf : f ∈ p.fields) (hcarries : p.carries f = true)
    (hname : lower f.name = contentLength)
    (hvalues : valuesOf contentLength p.carried = [trim f.value]) :
    (p.PlainFraming ∧ p.Framed head (frameBody s (chunked casing s))) ∨
      (¬ p.PlainFraming ∧ framing head p.status.toNat (p.wire.map Field.read) = none) := by
  have hlength : hasLength casing s = true := by
    rw [hasLength_eq casing h]
    exact List.any_eq_true.mpr ⟨f, List.mem_filter.mpr ⟨hf, hcarries⟩, decide_eq_true hname⟩
  have hchunked : chunked casing s = false :=
    Bool.eq_false_iff.mpr fun hc => hsend.single ⟨hlength, hc⟩
  have hown : p.ownLength = [] := by
    rw [ownLength_eq casing h, hlength]
    rfl
  have hcoding : valuesOf transferEncoding p.carried = [] := by
    rw [List.eq_nil_iff_forall_not_mem]
    intro v hv
    obtain ⟨g, hg, _, hgname, _⟩ := (mem_carried transferEncoding).mp hv
    rw [chunked_eq casing h, List.any_eq_false] at hchunked
    exact hchunked g hg (decide_eq_true hgname)
  have hlengths : valuesOf contentLength (p.wire.map Field.read) = [trim f.value] := by
    rw [valuesOf_wire _ (by decide), hown, hvalues]
    rfl
  have hcodings : valuesOf transferEncoding (p.wire.map Field.read) = [] := by
    rw [valuesOf_wire _ (by decide), hown, hcoding]
    rfl
  have hframing : framing head p.status.toNat (p.wire.map Field.read) =
      (readNumber 10 (trim f.value)).map fun n =>
        if head || p.bare then .none else .length n := by
    unfold framing
    rw [hlengths, hcodings, bodiless_eq (by rw [← h.status]; exact hsend.status.1)]
  rw [plainFraming_iff, hvalues, hcoding, hframing]
  cases hread : readNumber 10 (trim f.value) with
  | none =>
    right
    refine ⟨fun hplain => ?_, rfl⟩
    have hsome := hplain.1 _ (List.mem_singleton.mpr rfl)
    rw [hread] at hsome
    cases hsome
  | some n =>
    left
    refine ⟨⟨fun v hv => ?_, List.forall_mem_nil _⟩, _, hframing.trans (by rw [hread]; rfl), ?_⟩
    · rw [List.mem_singleton.mp hv, hread]
      rfl
    · have hbody := noBody_supplied h
      cases hno : head || p.bare with
      | true =>
        rw [hno] at hbody
        rw [frameBody_noBody hbody]
        rfl
      | false =>
        rw [hno] at hbody
        have hfits := (hsend.fits f (by rw [h.fields]; exact hf)).2
          (decide_eq_true ((lower_name casing (h.valid f hf)).trans hname)) hbody
        have hn : (s.body.length : Int) = n := atol_plain (h.valid f hf).2.2 hread hfits
        have hframe : frameBody s (chunked casing s) = s.body := by
          unfold frameBody
          rw [hbody, hchunked]
          rfl
        rw [hframe, ← h.body]
        exact if_pos (by omega)

theorem bare_of_coding {f : Field} (hcarries : p.carries f = true)
    (hname : lower f.name = transferEncoding) : p.bare = false := by
  have hcoding : isCoding f = true := decide_eq_true hname
  unfold Supply.carries at hcarries
  rw [hcoding] at hcarries
  cases hbare : p.bare with
  | true =>
    rw [hbare] at hcarries
    simp at hcarries
  | false => rfl

theorem framing_coding (casing : Casing) (h : Supplies transport head s p)
    (hsend : Sendable casing s) {f : Field} (hf : f ∈ p.fields) (hcarries : p.carries f = true)
    (hname : lower f.name = transferEncoding)
    (hlength : valuesOf contentLength p.carried = [])
    (hvalues : valuesOf transferEncoding p.carried = [trim f.value]) :
    (p.PlainFraming ∧ p.Framed head (frameBody s (chunked casing s))) ∨
      (¬ p.PlainFraming ∧ framing head p.status.toNat (p.wire.map Field.read) = none) := by
  have hbare := bare_of_coding hcarries hname
  have hchunked : chunked casing s = true := by
    rw [chunked_eq casing h]
    exact List.any_eq_true.mpr ⟨f, hf, decide_eq_true hname⟩
  have hown : p.ownLength = [] := by
    rw [ownLength_eq casing h, hchunked]
    simp
  have hlengths : valuesOf contentLength (p.wire.map Field.read) = [] := by
    rw [valuesOf_wire _ (by decide), hown, hlength]
    rfl
  have hcodings : valuesOf transferEncoding (p.wire.map Field.read) = [trim f.value] := by
    rw [valuesOf_wire _ (by decide), hown, hvalues]
    rfl
  have hframing : framing head p.status.toNat (p.wire.map Field.read) =
      if lower (trim f.value) = ascii "chunked" then
        some (if head || p.bare then .none else .chunked)
      else none := by
    unfold framing
    rw [hlengths, hcodings, bodiless_eq (by rw [← h.status]; exact hsend.status.1)]
  rw [plainFraming_iff, hlength, hvalues]
  by_cases hword : lower (trim f.value) = ascii "chunked"
  · left
    rw [if_pos hword] at hframing
    refine ⟨⟨List.forall_mem_nil _, fun v hv => ?_⟩, _, hframing, ?_⟩
    · rw [List.mem_singleton.mp hv]
      exact hword
    · have hbody := noBody_supplied h
      cases hno : head || p.bare with
      | true =>
        rw [hno] at hbody
        rw [frameBody_noBody hbody]
        rfl
      | false =>
        rw [hno] at hbody
        rw [hchunked, ← h.body]
        exact readBody_chunked hbody
  · right
    rw [if_neg hword] at hframing
    exact ⟨fun hplain => hword (hplain.2 _ (List.mem_singleton.mpr rfl)), hframing⟩

theorem framing_own (casing : Casing) (h : Supplies transport head s p)
    (hsend : Sendable casing s) (hlength : valuesOf contentLength p.carried = [])
    (hcoding : valuesOf transferEncoding p.carried = []) :
    p.PlainFraming ∧ p.Framed head (frameBody s (chunked casing s)) := by
  have hbodiless := bodiless_eq (p := p) (by rw [← h.status]; exact hsend.status.1) head
  have hbody := noBody_supplied h
  have hcodings : valuesOf transferEncoding (p.wire.map Field.read) = [] := by
    rw [valuesOf_wire _ (by decide), hcoding, valuesOf_ownLength.1]
    rfl
  have hlengths : valuesOf contentLength (p.wire.map Field.read) =
      p.ownLength.map fun _ => numeral 10 p.body.length := by
    rw [valuesOf_wire _ (by decide), hlength, valuesOf_ownLength.2]
    rfl
  refine ⟨?_, ?_⟩
  · rw [plainFraming_iff, hlength, hcoding]
    exact ⟨List.forall_mem_nil _, List.forall_mem_nil _⟩
  unfold Supply.Framed framing
  rw [hlengths, hcodings, hbodiless]
  cases hbare : p.bare with
  | true =>
    -- neither a length nor a body
    have hown : p.ownLength = [] := by
      unfold Supply.ownLength
      rw [hbare]
      rfl
    rw [hbare, Bool.or_true] at hbody
    rw [hown, frameBody_noBody hbody, Bool.or_true]
    exact ⟨_, rfl, rfl⟩
  | false =>
    have hany : (p.fields.any fun f => isLength f || isCoding f) = false := by
      rw [List.any_eq_false]
      intro f hf hframes
      obtain hl | hc := (Bool.or_eq_true _ _).mp hframes
      · have hmem := (mem_carried (p := p) contentLength).mpr
          ⟨f, hf, carries_of_length hbare hl, of_decide_eq_true hl, rfl⟩
        rw [hlength] at hmem
        cases hmem
      · have hmem := (mem_carried (p := p) transferEncoding).mpr
          ⟨f, hf, carries_of_coding hbare hc, of_decide_eq_true hc, rfl⟩
        rw [hcoding] at hmem
        cases hmem
    have hown : p.ownLength = [⟨ascii "Content-Length", numeral 10 p.body.length⟩] := by
      unfold Supply.ownLength
      rw [hbare, hany]
      rfl
    have hchunked : chunked casing s = false := by
      rw [chunked_eq casing h, List.any_eq_false]
      intro f hf hc
      rw [List.any_eq_false] at hany
      exact hany f hf (by rw [hc, Bool.or_true])
    rw [hbare, Bool.or_false] at hbody
    rw [hown, hchunked, Bool.or_false]
    simp only [List.map_cons, List.map_nil]
    rw [readNumber_numeral (by omega) (by omega)]
    cases head with
    | true =>
      rw [frameBody_noBody hbody]
      exact ⟨_, rfl, rfl⟩
    | false =>
      have hframe : frameBody s false = s.body := by
        unfold frameBody
        rw [hbody]
        rfl
      rw [hframe, ← h.body]
      exact ⟨_, rfl, if_pos rfl⟩

/-- The message is framed as its body is, unless the framing fields it carries are not plain. -/
theorem framing_wire (casing : Casing) (h : Supplies transport head s p)
    (hsend : Sendable casing s) :
    (p.PlainFraming ∧ p.Framed head (frameBody s (chunked casing s))) ∨
      (¬ p.PlainFraming ∧ framing head p.status.toNat (p.wire.map Field.read) = none) := by
  obtain ⟨_, hlength⟩ | ⟨f, hf, hcarries, hname, hvalues⟩ :=
    carried_values h.distinct contentLength
  · obtain ⟨_, hcoding⟩ | ⟨f, hf, hcarries, hname, hvalues⟩ :=
      carried_values h.distinct transferEncoding
    · exact Or.inl (framing_own casing h hsend hlength hcoding)
    · exact framing_coding casing h hsend hf hcarries hname hlength hvalues
  · exact framing_length casing h hsend hf hcarries hname hvalues

end

/-- A new response over this transport. -/
def newResponse (transport : HttpTransport) (head : Bool) : ResponseState :=
  { transport := transport, headRequest := head }

theorem newResponse_supplies (transport : HttpTransport) (head : Bool) :
    Supplies transport head (newResponse transport head) {} where
  status := rfl
  reason := rfl
  fields := rfl
  body := rfl
  transport := rfl
  headRequest := rfl
  unfinished := rfl
  offset := rfl
  valid := List.forall_mem_nil _
  distinct := List.Pairwise.nil
  text := fun _ h => by cases h

/-- A response that has ended reads as the message that was supplied exactly if its framing fields
are plain. -/
theorem message_reads (casing : Casing) (transport : HttpTransport) (head : Bool)
    (calls : List Call) (value : Bytes) (t : ResponseState) (hfresh : transport.sent = [])
    (hend : endBuffer casing value (afterCalls casing (newResponse transport head) calls) =
      .ok () t) :
    readResponse head t.message =
        some ((run Supply.after {} (calls ++ [.writeBuffer value])).response head) ↔
      (run Supply.after {} (calls ++ [.writeBuffer value])).PlainFraming := by
  have hs := afterCalls_supplies casing calls (newResponse_supplies transport head)
  obtain ⟨⟨htakes, hsend⟩, hmessage⟩ := wp_ok (finish_spec casing _ value) hend
  have hmessage := hmessage hs.offset
  have hu := appended_supplies hs htakes
  rw [run_append, run_cons, run_nil]
  generalize (afterCalls casing (newResponse transport head) calls).appended value = u at *
  generalize (run Supply.after {} calls).after (.writeBuffer value) = p at *
  have hreason : (p.reason.getD (defaultStatusMessage p.status)).all isText = true := by
    cases hr : p.reason with
    | none => exact default_text p.status
    | some m => exact hu.text m hr
  have hstatus : 100 ≤ p.status.toNat ∧ p.status.toNat ≤ 999 := by
    have := hsend.status
    rw [hu.status] at this
    omega
  rw [hmessage, hs.transport, hfresh, List.nil_append, outputOf_render casing hu,
    readResponse_render head hstatus.1 hstatus.2 hreason (wire_valid hu.valid)]
  obtain ⟨hplain, found, hfound, hbody⟩ | ⟨hplain, hnone⟩ := framing_wire casing hu hsend
  · rw [hfound, Option.bind_some, hbody]
    exact iff_of_true rfl hplain
  · rw [hnone]
    exact iff_of_false (fun h => by cases h) hplain

/-- Lower case of ASCII letters only. -/
def asciiCasing : Casing := ⟨Lib.Http.lower, fun _ _ => rfl⟩

theorem message_reads_length :
    ∃ t, endBuffer asciiCasing (ascii "x") (afterCalls asciiCasing (newResponse {} false)
        [.setHeader (ascii "Content-Length") (ascii " 1")]) = .ok () t ∧
      (readResponse false t.message =
          some ((run Supply.after {} ([.setHeader (ascii "Content-Length") (ascii " 1")] ++
            [.writeBuffer (ascii "x")])).response false) ↔
        (run Supply.after {} ([.setHeader (ascii "Content-Length") (ascii " 1")] ++
          [.writeBuffer (ascii "x")])).PlainFraming) :=
  ⟨_, rfl, message_reads asciiCasing {} false _ _ _ rfl rfl⟩

/-- The lenient parse takes `+1` for the length of one byte, and the head carries it as it is. -/
theorem signed_length_unread :
    ∃ t, endBuffer asciiCasing (ascii "x") (afterCalls asciiCasing (newResponse {} false)
        [.setHeader (ascii "Content-Length") (ascii "+1")]) = .ok () t ∧
      t.message = ascii "HTTP/1.1 200 OK\r\nContent-Length: +1\r\nConnection: close\r\n\r\nx" ∧
      readResponse false t.message = none :=
  ⟨_, rfl, by decide, by decide⟩

end TsonicNode.Http
