import TsonicNode.Compression.Output

/-!
# Codec writes

`write_zlib`, `write_brotli` and the loop of `codec_params` are the loop of
`Output` with another engine each. The engines are zlib and Brotli, which are
parameters here; `codec_write_exact` says that a write comes to an end and
succeeds exactly when its engine does within the limit.
-/

namespace TsonicNode.Compression

/-! ## zlib -/

inductive Status where
  | ok
  | streamEnd
  | needDict
  | bufError
  | error
  deriving DecidableEq

/-- What a call of `deflate` or `inflate` leaves. -/
structure ZReply (Z : Type) where
  stream : Z
  consumed : Nat
  piece : List UInt8
  status : Status

/-- zlib. `nextMember` is `inflateReset2` and the header after it, `headerDone`
what the header says. -/
structure Zlib (Z : Type) where
  deflate : Z → List UInt8 → Int → Nat → ZReply Z
  inflate : Z → List UInt8 → Int → Nat → ZReply Z
  inflateSetDictionary : Z → List UInt8 → Status × Z
  nextMember : Z → Int → Option Z
  headerDone : Z → Int
  message : Z → Option String
  deflateParams : Z → Int → Int → Nat → ZReply Z

/-- The engine of a mode. -/
def Zlib.step {Z : Type} (zlib : Zlib Z) (compress : Bool) (stream : Z) (input : List UInt8) (flush : Int)
    (space : Nat) : ZReply Z :=
  if compress then zlib.deflate stream input flush space else zlib.inflate stream input flush space

/-- What a write relies on of zlib: it keeps to its input and its space, and a
call that asks for a dictionary, or the first of a member that ends the stream,
has consumed input or produced output. -/
structure Zlib.Lawful {Z : Type} (zlib : Zlib Z) : Prop where
  fits : ∀ compress stream input flush space,
    (zlib.step compress stream input flush space).piece.length ≤ space
  consumes : ∀ compress stream input flush space,
    (zlib.step compress stream input flush space).consumed ≤ input.length
  dictionary_progress : ∀ compress stream input flush space,
    (zlib.step compress stream input flush space).status = .needDict →
      0 < (zlib.step compress stream input flush space).consumed +
        (zlib.step compress stream input flush space).piece.length
  member_progress : ∀ compress stream bits member input flush space,
    zlib.nextMember stream bits = some member → input ≠ [] →
      (zlib.step compress member input flush space).status = .streamEnd →
        0 < (zlib.step compress member input flush space).consumed +
          (zlib.step compress member input flush space).piece.length
  params_fits : ∀ stream level strategy space,
    (zlib.deflateParams stream level strategy space).piece.length ≤ space

def zFinish : Int := 4

def compressing (mode : Nat) : Bool := mode == 1 || mode == 3 || mode == 5 || mode == 8

/-- What `write_zlib` works on. -/
structure ZSession (Z : Type) where
  finished : Bool
  stream : Z
  input : List UInt8
  consumed : Nat := 0

section Zlib

variable {Z : Type} (zlib : Zlib Z) (mode : Nat) (bits : Int) (dictionary : List UInt8) (flush : Int)

/-- `if (codec->finished)`. -/
def zlibOpening (session : ZSession Z) : Opening (ZSession Z) :=
  if session.finished then
    if zlib.headerDone session.stream ≠ 1 ∨ session.input = [] ∨ session.input.head? = some 0 then
      .closed session
    else
      match zlib.nextMember session.stream bits with
      | none => .failed "Unable to start the next gzip member"
      | some stream => .ready { session with stream := stream, finished := false }
  else .ready session

/-- What follows a status, behind the dictionary. -/
def zlibVerdict (session : ZSession Z) (status : Status) (consumed produced space : Nat) :
    Verdict (ZSession Z) :=
  if status = .streamEnd then .goesOn { session with finished := true }
  else if status ≠ .ok ∧ status ≠ .bufError then
    .failed ((zlib.message session.stream).getD "Compression codec rejected its input")
  else if flush ≠ zFinish ∧ session.input = [] ∧ produced ≠ space then .finished session
  else if consumed = 0 ∧ produced = 0 then
    .failed "Compressed input ended before the stream was complete"
  else .goesOn session

def zlibCall (session : ZSession Z) (space : Nat) : Reply (ZSession Z) :=
  let reply := zlib.step (compressing mode) session.stream session.input flush space
  let session :=
    { session with
      stream := reply.stream
      input := session.input.drop reply.consumed
      consumed := session.consumed + reply.consumed }
  let verdict :=
    if reply.status = .needDict ∧ dictionary ≠ [] then
      let applied := zlib.inflateSetDictionary reply.stream dictionary
      let session := { session with stream := applied.2 }
      if applied.1 = .ok then .goesOn session
      else zlibVerdict zlib flush session applied.1 reply.consumed reply.piece.length space
    else zlibVerdict zlib flush session reply.status reply.consumed reply.piece.length space
  ⟨session, reply.piece, verdict⟩

def zlibDriver : Driver (ZSession Z) where
  opening := zlibOpening zlib bits
  call := zlibCall zlib mode dictionary flush

/-- The loop of `codec_params`. -/
def paramsDriver (level strategy : Int) : Driver Z where
  opening := .ready
  call stream space :=
    let reply := zlib.deflateParams stream level strategy space
    let verdict :=
      if reply.status = .ok then .finished reply.stream
      else if reply.status ≠ .bufError ∨ reply.piece.length ≠ space then
        .failed "Unable to update compression parameters"
      else .goesOn reply.stream
    ⟨reply.stream, reply.piece, verdict⟩

end Zlib

/-! ## Brotli -/

inductive DecoderResult where
  | error
  | success
  | needsMoreInput
  | needsMoreOutput
  deriving DecidableEq

structure BReply (B : Type) where
  state : B
  consumed : Nat
  piece : List UInt8

/-- Brotli, its encoder and its decoder. -/
structure Brotli (B : Type) where
  compressStream : B → Int → List UInt8 → Nat → Option (BReply B)
  isFinished : B → Bool
  hasMoreOutput : B → Bool
  decompressStream : B → List UInt8 → Nat → DecoderResult × BReply B
  errorString : B → String

structure Brotli.Lawful {B : Type} (brotli : Brotli B) : Prop where
  compress_fits : ∀ state flush input space reply,
    brotli.compressStream state flush input space = some reply →
      reply.piece.length ≤ space ∧ reply.consumed ≤ input.length
  decompress_fits : ∀ state input space,
    (brotli.decompressStream state input space).2.piece.length ≤ space ∧
      (brotli.decompressStream state input space).2.consumed ≤ input.length

def brotliFinish : Int := 2

structure BSession (B : Type) where
  finished : Bool
  state : B
  input : List UInt8
  consumed : Nat := 0

section Brotli

variable {B : Type} (brotli : Brotli B) (mode : Nat) (flush : Int)

def brotliOpening (session : BSession B) : Opening (BSession B) :=
  if session.finished then .closed session else .ready session

/-- `if (available_input == before_input && produced == 0u)`. -/
def brotliProgress (session : BSession B) (consumed produced : Nat) : Verdict (BSession B) :=
  if consumed = 0 ∧ produced = 0 then .failed "Brotli input ended before the stream was complete"
  else .goesOn session

/-- One call; the codec has an encoder exactly when its mode compresses. -/
def brotliCall (session : BSession B) (space : Nat) : Reply (BSession B) :=
  if mode = 8 then
    match brotli.compressStream session.state flush session.input space with
    | none => ⟨session, [], .failed "Brotli compression failed"⟩
    | some reply =>
      let called :=
        { session with
          state := reply.state
          input := session.input.drop reply.consumed
          consumed := session.consumed + reply.consumed }
      let session := { called with finished := brotli.isFinished reply.state }
      let verdict :=
        if session.finished ∨
            (flush ≠ brotliFinish ∧ session.input = [] ∧ brotli.hasMoreOutput reply.state = false) then
          .finished session
        else brotliProgress session reply.consumed reply.piece.length
      ⟨called, reply.piece, verdict⟩
  else
    let decoded := brotli.decompressStream session.state session.input space
    let status := decoded.1
    let reply := decoded.2
    let called :=
      { session with
        state := reply.state
        input := session.input.drop reply.consumed
        consumed := session.consumed + reply.consumed }
    let session := { called with finished := status == .success }
    let verdict :=
      if session.finished ∨
          (status = .needsMoreInput ∧ session.input = [] ∧ flush ≠ brotliFinish) then
        .finished session
      else if status = .error then .failed (brotli.errorString reply.state)
      else brotliProgress session reply.consumed reply.piece.length
    ⟨called, reply.piece, verdict⟩

def brotliDriver : Driver (BSession B) where
  opening := brotliOpening
  call := brotliCall brotli mode flush

end Brotli

/-! ## Writes -/

/-- A codec, with the limits that `new_codec` accepts. -/
structure Codec (Z B : Type) where
  mode : Nat
  bits : Int
  finished : Bool := false
  failed : Bool := false
  maximum : Nat
  chunkSize : Nat
  dictionary : List UInt8 := []
  zlib : Z
  brotli : B
  configured : codecOutputInit maximum chunkSize = .ok { limit := maximum, chunkSize := chunkSize }

/-- What a write leaves and returns. -/
structure Written (Z B : Type) where
  codec : Codec Z B
  consumed : Nat
  result : Except String (List UInt8)

namespace Codec

variable {Z B : Type}

/-- The checks in front of a write. -/
def accepts (codec : Codec Z B) (input : List UInt8) (flush : Int) : Bool :=
  !codec.failed && input.length ≤ 4294967295 && 0 ≤ flush && flush ≤ (if codec.mode < 8 then 5 else brotliFinish) &&
    !(codec.finished && compressing codec.mode && input.length != 0)

def zlibSession (codec : Codec Z B) (input : List UInt8) : ZSession Z := ⟨codec.finished, codec.zlib, input, 0⟩

def brotliSession (codec : Codec Z B) (input : List UInt8) : BSession B :=
  ⟨codec.finished, codec.brotli, input, 0⟩

/-- The codec behind a loop. -/
def leaveZlib (codec : Codec Z B) (session : ZSession Z) : Codec Z B :=
  { codec with finished := session.finished, zlib := session.stream }

def leaveBrotli (codec : Codec Z B) (session : BSession B) : Codec Z B :=
  { codec with finished := session.finished, brotli := session.state }

def leaveParams (codec : Codec Z B) (stream : Z) : Codec Z B := { codec with zlib := stream }

/-- What a codec call makes of the loop's result. -/
def written {σ : Type} (leave : σ → Codec Z B) (consumed : σ → Nat) : Result σ → Written Z B
  | .succeeded session output => ⟨leave session, consumed session, .ok output.bytes⟩
  | .failed session message =>
    ⟨{ leave session with failed := true }, consumed session, .error message⟩

/-- `codec_write`, with a bound on the turns of its loop. -/
def write (realloc : Realloc) (zlib : Zlib Z) (brotli : Brotli B) (codec : Codec Z B) (input : List UInt8)
    (flush : Int) (turns : Nat) : Option (Written Z B × List Event) :=
  if codec.accepts input flush then
    match codecOutputInit codec.maximum codec.chunkSize with
    | .error message => some (⟨codec, 0, .error message⟩, [])
    | .ok output =>
      if codec.mode < 8 then
        (drive realloc (zlibDriver zlib codec.mode codec.bits codec.dictionary flush) turns
          (codec.zlibSession input) output []).map fun ended =>
            (written codec.leaveZlib ZSession.consumed ended.1, ended.2)
      else
        (drive realloc (brotliDriver brotli codec.mode flush) turns
          (codec.brotliSession input) output []).map fun ended =>
            (written codec.leaveBrotli BSession.consumed ended.1, ended.2)
  else some (⟨codec, 0, .error "Invalid compression write or closed engine"⟩, [])

/-- `codec_params`, with a bound on the turns of its loop. -/
def params (realloc : Realloc) (zlib : Zlib Z) (codec : Codec Z B) (level strategy : Int) (turns : Nat) :
    Option (Written Z B × List Event) :=
  if codec.failed || codec.finished || codec.mode ≥ 8 || !compressing codec.mode || level < -1 ||
      level > 9 || strategy < 0 || strategy > 4 then
    some (⟨codec, 0, .error "Invalid compression parameter update"⟩, [])
  else
    match codecOutputInit codec.maximum codec.chunkSize with
    | .error message => some (⟨codec, 0, .error message⟩, [])
    | .ok output =>
      (drive realloc (paramsDriver zlib level strategy) turns codec.zlib output []).map fun ended =>
        (written codec.leaveParams (fun _ => 0) ended.1, ended.2)

/-- The engine of an accepted write comes to success with some pieces. -/
def Succeeds (zlib : Zlib Z) (brotli : Brotli B) (codec : Codec Z B) (input : List UInt8) (flush : Int)
    (calls : List (Nat × List UInt8)) : Prop :=
  codec.accepts input flush = true ∧
    if codec.mode < 8 then
      Delivers (zlibDriver zlib codec.mode codec.bits codec.dictionary flush) (codec.zlibSession input) calls
    else Delivers (brotliDriver brotli codec.mode flush) (codec.brotliSession input) calls

end Codec

/-! ## The engines advance -/

section Engines

variable {Z B : Type}

theorem zlibVerdict_goesOn {zlib : Zlib Z} {flush : Int} {session next : ZSession Z} {status : Status}
    {consumed produced space : Nat}
    (h : zlibVerdict zlib flush session status consumed produced space = .goesOn next) :
    status = .streamEnd ∧ next = { session with finished := true } ∨
      0 < consumed + produced ∧ next = session := by
  unfold zlibVerdict at h
  by_cases hend : status = .streamEnd
  · rw [if_pos hend] at h
    cases h
    exact .inl ⟨hend, rfl⟩
  rw [if_neg hend] at h
  by_cases herror : status ≠ .ok ∧ status ≠ .bufError
  · rw [if_pos herror] at h
    cases h
  rw [if_neg herror] at h
  by_cases hdone : flush ≠ zFinish ∧ session.input = [] ∧ produced ≠ space
  · rw [if_pos hdone] at h
    cases h
  rw [if_neg hdone] at h
  by_cases hstuck : consumed = 0 ∧ produced = 0
  · rw [if_pos hstuck] at h
    cases h
  · rw [if_neg hstuck] at h
    cases h
    exact .inr ⟨by omega, rfl⟩

/-- How far a session is from its end: what is not consumed, and that it is not
known to be finished. -/
def ZSession.distance (session : ZSession Z) : Nat :=
  2 * session.input.length + if session.finished then 0 else 1

theorem ZSession.distance_le (session : ZSession Z) :
    session.distance ≤ 2 * session.input.length + 1 := by
  unfold ZSession.distance
  split <;> omega

/-- A call behind which the loop goes on got further, or ended the stream. -/
theorem zlibCall_goesOn {zlib : Zlib Z} (h : zlib.Lawful) {mode : Nat} {dictionary : List UInt8} {flush : Int}
    {ready next : ZSession Z} {space : Nat}
    (hverdict : (zlibCall zlib mode dictionary flush ready space).verdict = .goesOn next) :
    next.input = ready.input.drop
        (zlib.step (compressing mode) ready.stream ready.input flush space).consumed ∧
      (0 < (zlib.step (compressing mode) ready.stream ready.input flush space).consumed +
          (zlib.step (compressing mode) ready.stream ready.input flush space).piece.length ∨
        (zlib.step (compressing mode) ready.stream ready.input flush space).status = .streamEnd ∧
          next.finished = true) := by
  unfold zlibCall at hverdict
  simp only at hverdict
  by_cases hdictionary : (zlib.step (compressing mode) ready.stream ready.input flush space).status = .needDict ∧
      dictionary ≠ []
  · have hprogress := h.dictionary_progress _ _ _ _ _ hdictionary.1
    rw [if_pos hdictionary] at hverdict
    split at hverdict
    case isTrue =>
      cases hverdict
      exact ⟨rfl, .inl hprogress⟩
    case isFalse =>
      rcases zlibVerdict_goesOn hverdict with ⟨-, rfl⟩ | ⟨-, rfl⟩
      · exact ⟨rfl, .inl hprogress⟩
      · exact ⟨rfl, .inl hprogress⟩
  · rw [if_neg hdictionary] at hverdict
    rcases zlibVerdict_goesOn hverdict with ⟨hend, rfl⟩ | ⟨hprogress, rfl⟩
    · exact ⟨rfl, .inr ⟨hend, rfl⟩⟩
    · exact ⟨rfl, .inl hprogress⟩

theorem zlib_advances {zlib : Zlib Z} (h : zlib.Lawful) (mode : Nat) (bits : Int)
    (dictionary : List UInt8) (flush : Int) :
    (zlibDriver zlib mode bits dictionary flush).Advances ZSession.distance where
  fits session space := h.fits _ _ _ _ _
  nearer session ready space next _ hopening hverdict := by
    obtain ⟨hinput, hgoes⟩ := zlibCall_goesOn h hverdict
    have hconsumed := h.consumes (compressing mode) ready.stream ready.input flush space
    have hlength : next.input.length = ready.input.length -
        (zlib.step (compressing mode) ready.stream ready.input flush space).consumed := by
      rw [hinput, List.length_drop]
    have hnext := next.distance_le
    have hpiece : ((zlibDriver zlib mode bits dictionary flush).call ready space).piece =
        (zlib.step (compressing mode) ready.stream ready.input flush space).piece := rfl
    rw [hpiece]
    have hopening : zlibOpening zlib bits session = .ready ready := hopening
    unfold zlibOpening at hopening
    by_cases hfinished : session.finished = true
    · -- the next member: its first call gets further in any case
      rw [if_pos hfinished] at hopening
      split at hopening
      case isTrue => cases hopening
      case isFalse hmore =>
        cases hmember : zlib.nextMember session.stream bits with
        | none =>
          rw [hmember] at hopening
          cases hopening
        | some member =>
          rw [hmember] at hopening
          cases hopening
          have hprogress : 0 < (zlib.step (compressing mode) member session.input flush space).consumed +
              (zlib.step (compressing mode) member session.input flush space).piece.length := by
            rcases hgoes with hprogress | ⟨hend, -⟩
            · exact hprogress
            · exact h.member_progress _ _ _ _ _ _ _ hmember (fun hnil => hmore (.inr (.inl hnil))) hend
          have hhere : session.distance = 2 * session.input.length := by
            rw [ZSession.distance, if_pos hfinished]
            rfl
          dsimp only at hlength hconsumed hprogress ⊢
          omega
    · rw [if_neg hfinished] at hopening
      cases hopening
      have hhere : session.distance = 2 * session.input.length + 1 := by
        rw [ZSession.distance, if_neg hfinished]
      rcases hgoes with hprogress | ⟨-, hend⟩
      · omega
      · have hended : next.distance = 2 * next.input.length := by
          rw [ZSession.distance, if_pos hend]
          rfl
        omega

theorem params_advances {zlib : Zlib Z} (h : zlib.Lawful) (level strategy : Int) :
    (paramsDriver zlib level strategy).Advances fun _ => 0 where
  fits stream space := h.params_fits _ _ _ _
  nearer stream ready space next hspace hopening hverdict := by
    cases hopening
    simp only [paramsDriver] at hverdict ⊢
    split at hverdict
    case isTrue => cases hverdict
    case isFalse =>
      split at hverdict
      case isTrue => cases hverdict
      case isFalse hfull =>
        have hpiece : (zlib.deflateParams stream level strategy space).piece.length = space := by
          by_contra hne
          exact hfull (.inr hne)
        omega

theorem brotliProgress_goesOn {session next : BSession B} {consumed produced : Nat}
    (h : brotliProgress session consumed produced = .goesOn next) :
    0 < consumed + produced ∧ next = session := by
  unfold brotliProgress at h
  by_cases hstuck : consumed = 0 ∧ produced = 0
  · rw [if_pos hstuck] at h
    cases h
  · rw [if_neg hstuck] at h
    cases h
    exact ⟨by omega, rfl⟩

theorem brotli_advances {brotli : Brotli B} (h : brotli.Lawful) (mode : Nat) (flush : Int) :
    (brotliDriver brotli mode flush).Advances fun session => 2 * session.input.length where
  fits session space := by
    simp only [brotliDriver, brotliCall]
    split
    case isTrue =>
      cases hreply : brotli.compressStream session.state flush session.input space with
      | none => exact Nat.zero_le _
      | some reply => exact (h.compress_fits _ _ _ _ _ hreply).1
    case isFalse => exact (h.decompress_fits _ _ _).1
  nearer session ready space next _ hopening hverdict := by
    have hready : ready = session := by
      simp only [brotliDriver, brotliOpening] at hopening
      split at hopening
      case isTrue => cases hopening
      case isFalse =>
        cases hopening
        rfl
    subst hready
    simp only [brotliDriver, brotliCall] at hverdict ⊢
    split at hverdict
    case isTrue hmode =>
      rw [if_pos hmode]
      cases hreply : brotli.compressStream ready.state flush ready.input space with
      | none =>
        rw [hreply] at hverdict
        cases hverdict
      | some reply =>
        rw [hreply] at hverdict
        simp only at hverdict
        split at hverdict
        case isTrue => cases hverdict
        case isFalse =>
          obtain ⟨hprogress, rfl⟩ := brotliProgress_goesOn hverdict
          have hconsumed := (h.compress_fits _ _ _ _ _ hreply).2
          simp only [List.length_drop]
          omega
    case isFalse hmode =>
      rw [if_neg hmode]
      split at hverdict
      case isTrue => cases hverdict
      case isFalse =>
        split at hverdict
        case isTrue => cases hverdict
        case isFalse =>
          obtain ⟨hprogress, rfl⟩ := brotliProgress_goesOn hverdict
          have hconsumed := (h.decompress_fits ready.state ready.input space).2
          simp only [List.length_drop]
          omega

end Engines

/-! ## Codec calls -/

section Calls

variable {Z B : Type} {realloc : Realloc} {zlib : Zlib Z} {brotli : Brotli B}

/-- What a call relies on of the limits of its codec. -/
theorem Codec.holds (codec : Codec Z B) :
    Output.Holds { limit := codec.maximum, chunkSize := codec.chunkSize } [] := by
  have hconfigured := codec.configured
  unfold codecOutputInit at hconfigured
  split at hconfigured
  case isTrue => cases hconfigured
  case isFalse hlimits =>
    refine ⟨?_, Nat.le_refl 0, Nat.zero_le _, rfl⟩
    dsimp only
    omega

/-- A call as its caller sees it: it succeeds exactly when the engine does within
the limit and no allocation is refused, returns all the pieces, and stays within
the limit and the spaces offered. -/
def Exact (succeeds : List (Nat × List UInt8) → Prop) (maximum : Nat) (out : Written Z B)
    (events : List Event) : Prop :=
  ((∃ data, out.result = .ok data) ↔ succeeds (calls events) ∧
      (delivered (calls events)).length ≤ maximum ∧ ∀ capacity, .refused capacity ∉ events) ∧
    (∀ data, out.result = .ok data → data = delivered (calls events)) ∧
    ∀ event ∈ events, event.Within maximum

theorem exact_of_bounded {σ : Type} {driver : Driver σ} {session : σ} {maximum : Nat} {result : Result σ}
    {events : List Event} (h : Bounded driver session [] maximum result events) (leave : σ → Codec Z B)
    (consumed : σ → Nat) :
    Exact (Delivers driver session) maximum (Codec.written leave consumed result) events := by
  have hsucceeds := h.succeeds
  rw [List.length_nil, Nat.zero_add] at hsucceeds
  refine ⟨?_, fun data hdata => ?_, h.within⟩
  · rw [← hsucceeds]
    cases result with
    | succeeded last output => exact ⟨fun _ => ⟨last, output, rfl⟩, fun _ => ⟨output.bytes, rfl⟩⟩
    | failed last message => exact ⟨fun ⟨_, hok⟩ => (by cases hok), fun ⟨_, _, hok⟩ => (by cases hok)⟩
  · cases result with
    | succeeded last output =>
      cases hdata
      rw [h.returns last output rfl, List.nil_append]
    | failed last message => cases hdata

/-- A call that is rejected. -/
theorem exact_rejected {succeeds : List (Nat × List UInt8) → Prop} {maximum : Nat} {codec : Codec Z B}
    {message : String} (h : ¬ succeeds []) :
    Exact succeeds maximum (⟨codec, 0, .error message⟩ : Written Z B) [] :=
  ⟨⟨fun ⟨_, hok⟩ => (by cases hok), fun hsucceeds => absurd hsucceeds.1 h⟩, fun _ hok => (by cases hok),
    fun _ hevent => absurd hevent List.not_mem_nil⟩

/-- Every write comes to an end and is exact. -/
theorem codec_write_exact (hrealloc : realloc.Lawful) (hzlib : zlib.Lawful) (hbrotli : brotli.Lawful)
    (codec : Codec Z B) (input : List UInt8) (flush : Int) :
    ∃ turns out events,
      (∀ more, codec.write realloc zlib brotli input flush (turns + more) = some (out, events)) ∧
        Exact (codec.Succeeds zlib brotli input flush) codec.maximum out events := by
  by_cases haccepts : codec.accepts input flush = true
  case neg =>
    exact ⟨0, ⟨codec, 0, .error "Invalid compression write or closed engine"⟩, [],
      fun more => by rw [Codec.write, if_neg haccepts], exact_rejected fun h => haccepts h.1⟩
  by_cases hmode : codec.mode < 8
  · obtain ⟨turns, result, events, hturns, hbounded⟩ := drive_bounded hrealloc
      (zlib_advances hzlib codec.mode codec.bits codec.dictionary flush) _ (codec.zlibSession input) _ [] []
      codec.holds (Nat.lt_succ_self _)
    have hsucceeds : codec.Succeeds zlib brotli input flush = Delivers
        (zlibDriver zlib codec.mode codec.bits codec.dictionary flush) (codec.zlibSession input) := by
      funext calls
      simp only [Codec.Succeeds, haccepts, if_pos hmode, true_and]
    rw [hsucceeds]
    refine ⟨turns, _, events, fun more => ?_, exact_of_bounded hbounded codec.leaveZlib ZSession.consumed⟩
    simp only [Codec.write, if_pos haccepts, codec.configured, if_pos hmode, hturns more]
    rfl
  · obtain ⟨turns, result, events, hturns, hbounded⟩ := drive_bounded hrealloc
      (brotli_advances hbrotli codec.mode flush) _ (codec.brotliSession input) _ [] []
      codec.holds (Nat.lt_succ_self _)
    have hsucceeds : codec.Succeeds zlib brotli input flush = Delivers
        (brotliDriver brotli codec.mode flush) (codec.brotliSession input) := by
      funext calls
      simp only [Codec.Succeeds, haccepts, if_neg hmode, true_and]
    rw [hsucceeds]
    refine ⟨turns, _, events, fun more => ?_, exact_of_bounded hbounded codec.leaveBrotli BSession.consumed⟩
    simp only [Codec.write, if_pos haccepts, codec.configured, if_neg hmode, hturns more]
    rfl

/-- The same holds of a change of parameters. -/
theorem codec_params_exact (hrealloc : realloc.Lawful) (hzlib : zlib.Lawful) (codec : Codec Z B)
    (level strategy : Int)
    (haccepts : (codec.failed || codec.finished || codec.mode ≥ 8 || !compressing codec.mode || level < -1 ||
      level > 9 || strategy < 0 || strategy > 4) = false) :
    ∃ turns out events,
      (∀ more, codec.params realloc zlib level strategy (turns + more) = some (out, events)) ∧
        Exact (Delivers (paramsDriver zlib level strategy) codec.zlib) codec.maximum out events := by
  obtain ⟨turns, result, events, hturns, hbounded⟩ := drive_bounded hrealloc
    (params_advances hzlib level strategy) _ codec.zlib _ [] [] codec.holds (Nat.lt_succ_self _)
  refine ⟨turns, _, events, fun more => ?_, exact_of_bounded hbounded codec.leaveParams fun _ => 0⟩
  simp only [Codec.params, haccepts, codec.configured, hturns more]
  rfl

end Calls

/-! An engine that writes one piece, and a `realloc` that grants so much. -/

def sampleZlib : Zlib Unit where
  deflate _ input _ space := ⟨(), input.length, List.replicate (min space 64) 120, .streamEnd⟩
  inflate _ input _ space := ⟨(), input.length, List.replicate (min space 64) 120, .streamEnd⟩
  inflateSetDictionary _ _ := (.ok, ())
  nextMember _ _ := none
  headerDone _ := 0
  message _ := none
  deflateParams _ _ _ _ := ⟨(), 0, [], .ok⟩

theorem sampleZlib_lawful : sampleZlib.Lawful where
  fits compress stream input flush space := by
    cases compress
    all_goals exact Nat.le_trans (Nat.le_of_eq List.length_replicate) (Nat.min_le_left space 64)
  consumes compress stream input flush space := by
    cases compress
    all_goals exact Nat.le_refl _
  dictionary_progress compress stream input flush space h := by
    cases compress
    all_goals cases h
  member_progress compress stream bits member input flush space h := by cases h
  params_fits stream level strategy space := Nat.zero_le _

def sampleBrotli : Brotli Unit where
  compressStream _ _ _ _ := none
  isFinished _ := false
  hasMoreOutput _ := false
  decompressStream _ _ _ := (.error, ⟨(), 0, []⟩)
  errorString _ := "FORMAT"

theorem sampleBrotli_lawful : sampleBrotli.Lawful where
  compress_fits state flush input space reply h := by cases h
  decompress_fits state input space := ⟨Nat.zero_le _, Nat.zero_le _⟩

/-- New bytes are zero, and nothing is granted above `most`. -/
def padded (most : Nat) : Realloc := fun data capacity =>
  if capacity ≤ most then some (data.take capacity ++ List.replicate (capacity - data.length) 0) else none

theorem padded_lawful (most : Nat) : (padded most).Lawful where
  length data capacity granted h := by
    unfold padded at h
    split at h
    case isTrue =>
      cases h
      rw [List.length_append, List.length_take, List.length_replicate]
      omega
    case isFalse => cases h
  keeps data capacity granted h hle := by
    unfold padded at h
    split at h
    case isTrue =>
      cases h
      rw [List.take_of_length_le hle, List.take_left]
    case isFalse => cases h

def sampleCodec : Codec Unit Unit where
  mode := 1
  bits := 15
  maximum := 128
  chunkSize := 64
  zlib := ()
  brotli := ()
  configured := rfl

theorem codec_write_exact_deflated :
    ∃ turns out events,
      (∀ more, sampleCodec.write (padded 128) sampleZlib sampleBrotli [104, 105] zFinish (turns + more) =
        some (out, events)) ∧
        Exact (sampleCodec.Succeeds sampleZlib sampleBrotli [104, 105] zFinish) 128 out events :=
  codec_write_exact (padded_lawful 128) sampleZlib_lawful sampleBrotli_lawful sampleCodec [104, 105] zFinish

/-- The engine has ended its stream within the limit, and the loop asks for more
memory before it notices. -/
theorem codec_write_refused :
    ∃ out events,
      sampleCodec.write (padded 64) sampleZlib sampleBrotli [104, 105] zFinish 2 = some (out, events) ∧
        sampleCodec.Succeeds sampleZlib sampleBrotli [104, 105] zFinish (calls events) ∧
        (delivered (calls events)).length ≤ sampleCodec.maximum ∧
        ¬ ∃ data, out.result = .ok data :=
  ⟨⟨{ sampleCodec with finished := true, failed := true }, 2, .error "Unable to allocate compression output"⟩,
    [.allocated 64, .called (.data 0 64) 64 (List.replicate 64 120), .refused 128], rfl,
    ⟨rfl, ⟨⟨false, (), [104, 105], 0⟩, rfl, rfl, ⟨true, (), [], 2⟩, rfl⟩⟩, by decide, fun ⟨_, h⟩ => (by cases h)⟩

end TsonicNode.Compression
