import Mathlib.Data.List.Induction
import TsonicNode.Stream.Decoder
import TsonicNode.Stream.Queues

/-!
# The read buffer

A readable stream keeps what it has read in a `ReadBuffer`: bytes until an
encoding is set, from then on what the decoder makes of them. A `History` is a
buffer with what was appended to it and taken from it; `Tracks` says that what
was taken and what is held are the bytes appended, those behind the setting of
the encoding decoded as one text, and every operation keeps it that does not
fail half-way (`Tracks.steps`).
-/

namespace TsonicNode.Stream

open TsonicNode.Lib TsonicNode.Buffer
open TsonicNode.Buffer.Encoder (jsString)

inductive StreamChunk where
  | text (value : Text)
  | buffer (value : List Byte)

/-- Bytes of a buffer, UTF-16 units of a text. -/
def StreamChunk.length : StreamChunk → Nat
  | text value => (jsString value).length
  | buffer value => value.length

structure ReadBuffer where
  bytes : ByteQueue := {}
  text : TextQueue := {}
  decoder : Option StreamDecoder := none
  finished : Bool := false

namespace ReadBuffer

/-- `__len__`. -/
def length (buffer : ReadBuffer) : Nat :=
  if buffer.decoder.isSome then buffer.text.length else buffer.bytes.length

abbrev Action := EStateM Error ReadBuffer

def onBytes {α : Type} (m : EStateM Error ByteQueue α) : Action α :=
  zoom ReadBuffer.bytes (fun bytes buffer => { buffer with bytes }) m

def onText {α : Type} (m : EStateM Error TextQueue α) : Action α :=
  zoom ReadBuffer.text (fun text buffer => { buffer with text }) m

/-- A call of the buffer's own decoder, whose text is appended. -/
def decode (call : EStateM Error StreamDecoder Text) (decoder : StreamDecoder) : Action Unit :=
  match call decoder with
  | .ok text decoder => do
    modify fun buffer => { buffer with decoder := some decoder }
    onText (TextQueue.append text)
  | .error e decoder => do
    modify fun buffer => { buffer with decoder := some decoder }
    throw e

/-- A call of a decoder that the buffer does not have yet. -/
def convert (call : EStateM Error StreamDecoder Text) (decoder : StreamDecoder) :
    Action StreamDecoder :=
  match call decoder with
  | .ok text decoder => do
    onText (TextQueue.append text)
    return decoder
  | .error e _ => throw e

section
variable (unpaired : List UInt16 → Error)

def append (value : List Byte) : Action Unit := do
  let buffer ← get
  if buffer.finished = true then throw ⟨"Cannot append bytes after readable EOF"⟩
  else
    match buffer.decoder with
    | some decoder => decode (StreamDecoder.write unpaired value) decoder
    | none => onBytes (ByteQueue.append value)

def finish : Action Unit := do
  let buffer ← get
  if buffer.finished = true then return ()
  else
    match buffer.decoder with
    | some decoder => decode (StreamDecoder.end_ unpaired) decoder
    | none => pure ()
    modify fun buffer => { buffer with finished := true }

/-- The loop of `set_encoding`: one turn takes everything. -/
def drain (decoder : StreamDecoder) : Action StreamDecoder := do
  let buffer ← get
  if buffer.bytes.length = 0 then return decoder
  else
    let bytes ← onBytes (ByteQueue.take buffer.bytes.length)
    convert (StreamDecoder.write unpaired (bytes.getD [])) decoder

def setEncoding (name : Text) : Action Unit := do
  let decoder ← ofExcept (StreamDecoder.new name)
  let decoder ← drain unpaired decoder
  let decoder ← if (← get).finished = true then convert (StreamDecoder.end_ unpaired) decoder
    else pure decoder
  modify fun buffer => { buffer with decoder := some decoder }

end

def take (size : Int) : Action (Option StreamChunk) := do
  if size = 0 then return none
  else if (← get).decoder.isSome = true then
    let text ← onText (TextQueue.take size)
    return text.map .text
  else
    let bytes ← onBytes (ByteQueue.take size)
    return bytes.map .buffer

/-- What a `take` of everything gives. -/
def held (buffer : ReadBuffer) : StreamChunk :=
  if buffer.decoder.isSome then .text buffer.text.held else .buffer buffer.bytes.chunks.flatten

/-! ## Histories -/

inductive Operation where
  | append (value : List Byte)
  | take (size : Int)
  | setEncoding (name : Text)
  | finish

namespace Operation

/-- The bytes handed over. -/
def bytes : Operation → List Byte
  | append value => value
  | _ => []

/-- The encoding asked for. -/
def encodings : Operation → List Text
  | setEncoding name => [name]
  | _ => []

end Operation

/-- A buffer with what the operations that returned took from it and gave to it. -/
structure History where
  buffer : ReadBuffer := {}
  taken : List StreamChunk := []
  appended : List Byte := []
  encodings : List Text := []

section
variable (unpaired : List UInt16 → Error)

def perform : Operation → Action (Option StreamChunk)
  | .append value => do
    ReadBuffer.append unpaired value
    return none
  | .take size => ReadBuffer.take size
  | .setEncoding name => do
    ReadBuffer.setEncoding unpaired name
    return none
  | .finish => do
    ReadBuffer.finish unpaired
    return none

/-- An operation that raises takes and gives nothing. -/
def History.step (history : History) (operation : Operation) : History :=
  match perform unpaired operation history.buffer with
  | .ok chunk buffer =>
    ⟨buffer, history.taken ++ chunk.toList, history.appended ++ operation.bytes,
      history.encodings ++ operation.encodings⟩
  | .error _ buffer => { history with buffer }

def History.run (operations : List Operation) : History :=
  operations.foldl (History.step unpaired) {}

end

/-! ## What an operation keeps -/

/-- The text still fits behind what is held. -/
def Fits (buffer : ReadBuffer) (text : Text) : Prop :=
  (jsString text).length ≤ exactRange - buffer.text.length

instance (buffer : ReadBuffer) (text : Text) : Decidable (Fits buffer text) :=
  inferInstanceAs (Decidable (_ ≤ _))

/-- The decoding of all bytes but those the decoder would hold back. -/
def whole (encoding : Encoding) (bytes : List Byte) : Option Text :=
  Buffer.decoded encoding (bytes.take (boundary encoding bytes))

/-- The operation does not fail between taking bytes and giving their text: what is decoded fits,
and bytes are converted to an encoding only where they have a text in it. -/
def Converts (buffer : ReadBuffer) : Operation → Prop
  | .append value => ∀ decoder text, buffer.decoder = some decoder →
      whole decoder.name (decoder.pending ++ value) = some text → Fits buffer text
  | .take _ => True
  | .setEncoding name => ∀ encoding, encodingName name = .ok encoding →
      ∃ text, Fits buffer text ∧
        if buffer.finished then Buffer.decoded encoding buffer.bytes.chunks.flatten = some text
        else whole encoding buffer.bytes.chunks.flatten = some text
  | .finish => ∀ decoder text, buffer.decoder = some decoder →
      Buffer.decoded decoder.name decoder.pending = some text → Fits buffer text

/-- Taken and held are what was appended. -/
structure Tracks (history : History) : Prop where
  bytes : history.buffer.bytes.Sound
  text : history.buffer.text.Sound
  raw : history.buffer.decoder = none → history.encodings = [] ∧ history.buffer.text.held = [] ∧
    ∃ buffers : List (List Byte), history.taken = buffers.map .buffer ∧
      buffers.flatten ++ history.buffer.bytes.chunks.flatten = history.appended
  converted : ∀ decoder, history.buffer.decoder = some decoder →
    history.buffer.bytes.chunks = [] ∧
    ∃ name, history.encodings = [name] ∧ encodingName name = .ok decoder.name ∧
    ∃ (buffers : List (List Byte)) (texts : List Text) (rest : List Byte),
      history.taken = buffers.map .buffer ++ texts.map .text ∧
      buffers.flatten ++ rest = history.appended ∧
      (history.buffer.finished = false → ∀ tail,
        andThen (some (texts.flatten ++ history.buffer.text.held))
          (Buffer.decoded decoder.name (decoder.pending ++ tail)) =
        Buffer.decoded decoder.name (rest ++ tail)) ∧
      (history.buffer.finished = true → decoder.pending = [] ∧
        Buffer.decoded decoder.name rest = some (texts.flatten ++ history.buffer.text.held))

theorem tracks_new : Tracks {} where
  bytes := ByteQueue.sound_new
  text := TextQueue.sound_new
  raw := fun _ => ⟨rfl, rfl, [], rfl, rfl⟩
  converted := fun _ h => by cases h

section
variable {unpaired : List UInt16 → Error} {history : History} {operation : Operation}

theorem step_of_wp {P : History → Prop}
    (h : wp (perform unpaired operation)
      (fun chunk buffer => P ⟨buffer, history.taken ++ chunk.toList,
        history.appended ++ operation.bytes, history.encodings ++ operation.encodings⟩)
      (fun _ buffer => P { history with buffer }) history.buffer) :
    P (history.step unpaired operation) := by
  unfold History.step
  unfold wp at h
  cases hrun : perform unpaired operation history.buffer with
  | ok chunk buffer =>
    rw [hrun] at h
    exact h
  | error e buffer =>
    rw [hrun] at h
    exact h

/-- A `take` only moves what it takes. -/
theorem Tracks.takes (h : Tracks history) (size : Int) :
    Tracks (history.step unpaired (.take size)) := by
  obtain ⟨⟨bytes, text, decoder, finished⟩, taken, appended, encodings⟩ := history
  apply step_of_wp
  simp only [perform, take, wp_ite, wp_bind, wp_get, wp_pure, onText, onBytes, wp_zoom,
    Operation.bytes, Operation.encodings, List.append_nil, Option.toList]
  split
  · exact h
  cases decoder with
  | none =>
    obtain ⟨hnone, hheld, buffers, htaken, happended⟩ := h.raw rfl
    simp only at htaken happended
    simp only [Option.isSome_none, Bool.false_eq_true, if_false]
    apply wp_mono (ByteQueue.take_spec h.bytes size)
    · rintro value queue ⟨hsound, hcontent, -, -⟩
      refine ⟨hsound, h.text, fun _ => ⟨hnone, hheld, buffers ++ value.toList, ?_, ?_⟩,
        fun d hd => by cases hd⟩
      · cases value <;> simp [htaken]
      · rw [← happended, ← hcontent]
        cases value <;> simp
    · rintro e queue ⟨rfl, -⟩
      exact h
  | some decoder =>
    obtain ⟨hempty, name, hname, hencoding, buffers, texts, rest, htaken, happended, hopen, hclosed⟩ :=
      h.converted decoder rfl
    simp only at htaken
    simp only [Option.isSome_some, if_true]
    apply wp_mono (TextQueue.take_spec h.text size)
    · rintro value queue ⟨hsound, hcontent, -, -⟩
      have hout : (texts ++ value.toList).flatten ++ queue.held = texts.flatten ++ text.held := by
        rw [← hcontent]
        cases value <;> simp
      refine ⟨h.bytes, hsound, (fun hd => by cases hd), fun d hd => ?_⟩
      obtain rfl := Option.some.inj hd
      refine ⟨hempty, name, hname, hencoding, buffers, texts ++ value.toList, rest, ?_, happended, ?_, ?_⟩
      · cases value <;> simp [htaken]
      · rw [hout]
        exact hopen
      · rw [hout]
        exact hclosed
    · rintro e queue ⟨rfl, -⟩
      exact h

/-- What a decoder's `write` gives: the text of what it does not hold back. -/
theorem write_cut (decoder : StreamDecoder) (value : List Byte) :
    wp (StreamDecoder.write unpaired value)
      (fun text decoder' => whole decoder.name (decoder.pending ++ value) = some text ∧
        decoder'.name = decoder.name ∧ ∀ tail,
          andThen (some text) (Buffer.decoded decoder.name (decoder'.pending ++ tail)) =
            Buffer.decoded decoder.name (decoder.pending ++ (value ++ tail)))
      (fun _ decoder' => decoder' = decoder ∧
        whole decoder.name (decoder.pending ++ value) = none) decoder := by
  have hwrite := write_eq unpaired decoder value
  simp only at hwrite
  cases hwhole : whole decoder.name (decoder.pending ++ value) with
  | some text =>
    rw [whole] at hwhole
    rw [hwhole] at hwrite
    rw [wp_of_ok hwrite]
    refine ⟨rfl, rfl, fun tail => ?_⟩
    have hcut := boundary_safeCut decoder.name (decoder.pending ++ value) tail
    rw [hwhole, ← List.append_assoc, List.take_append_drop, List.append_assoc] at hcut
    exact hcut.symm
  | none =>
    rw [whole] at hwhole
    rw [hwhole] at hwrite
    obtain ⟨e, hwrite⟩ := hwrite
    rw [wp_of_error hwrite]
    exact ⟨rfl, rfl⟩

theorem end_all (decoder : StreamDecoder) :
    wp (StreamDecoder.end_ unpaired)
      (fun text decoder' => Buffer.decoded decoder.name decoder.pending = some text ∧
        decoder' = ⟨decoder.name, []⟩)
      (fun _ decoder' => decoder' = decoder ∧
        Buffer.decoded decoder.name decoder.pending = none) decoder := by
  rw [← decodeBytes_toOption unpaired (encodingName_name decoder.name)]
  simp only [StreamDecoder.end_, wp_bind, wp_get]
  cases decodeBytes unpaired decoder.pending decoder.name.name with
  | ok text =>
    simp only [ofExcept, wp_pure, wp_modify]
    exact ⟨rfl, trivial⟩
  | error e =>
    simp only [ofExcept, wp_throw]
    exact ⟨trivial, rfl⟩

theorem wp_decode {call : EStateM Error StreamDecoder Text} {decoder : StreamDecoder}
    {Q : Unit → ReadBuffer → Prop} {E : Error → ReadBuffer → Prop} {buffer : ReadBuffer} :
    wp (decode call decoder) Q E buffer =
      wp call (fun text decoder =>
          wp (TextQueue.append text) (fun a text => Q a { buffer with decoder := some decoder, text })
            (fun e text => E e { buffer with decoder := some decoder, text }) buffer.text)
        (fun e decoder => E e { buffer with decoder := some decoder }) decoder := by
  unfold decode
  simp only [wp]
  cases call decoder with
  | ok text decoder =>
    show wp (onText (TextQueue.append text)) Q E { buffer with decoder := some decoder } = _
    rw [onText, wp_zoom]
    rfl
  | error e decoder => rfl

theorem wp_convert {call : EStateM Error StreamDecoder Text} {decoder : StreamDecoder}
    {Q : StreamDecoder → ReadBuffer → Prop} {E : Error → ReadBuffer → Prop} {buffer : ReadBuffer} :
    wp (convert call decoder) Q E buffer =
      wp call (fun text decoder =>
          wp (TextQueue.append text) (fun _ text => Q decoder { buffer with text })
            (fun e text => E e { buffer with text }) buffer.text)
        (fun e _ => E e buffer) decoder := by
  unfold convert
  simp only [wp]
  cases call decoder with
  | ok text decoder =>
    show wp (onText (TextQueue.append text) >>= fun _ => pure decoder) Q E buffer = _
    rw [wp_bind, onText, wp_zoom]
    rfl
  | error e decoder => rfl

/-- An `append` gives the buffer its bytes, or leaves it as it was. -/
theorem Tracks.appends (h : Tracks history) {value : List Byte}
    (hconverts : Converts history.buffer (.append value)) :
    Tracks (history.step unpaired (.append value)) := by
  obtain ⟨⟨bytes, text, decoder, finished⟩, taken, appended, encodings⟩ := history
  apply step_of_wp
  simp only [perform, append, wp_ite, wp_bind, wp_get, wp_pure, wp_throw, Operation.bytes,
    Operation.encodings, List.append_nil, Option.toList]
  cases finished with
  | true => exact h
  | false =>
    simp only [Bool.false_eq_true, if_false]
    cases decoder with
    | none =>
      obtain ⟨hnone, hheld, buffers, htaken, happended⟩ := h.raw rfl
      simp only at htaken happended
      simp only [onBytes, wp_zoom]
      apply wp_mono (ByteQueue.append_spec h.bytes value)
      · rintro - queue ⟨hsound, hcontent⟩
        refine ⟨hsound, h.text, fun _ => ⟨hnone, hheld, buffers, htaken, ?_⟩, fun d hd => by cases hd⟩
        rw [← happended, hcontent, List.append_assoc]
      · rintro e queue rfl
        exact h
    | some decoder =>
      obtain ⟨hempty, name, hname, hencoding, buffers, texts, rest, htaken, happended, hopen, -⟩ :=
        h.converted decoder rfl
      simp only at htaken happended
      simp only [wp_decode]
      apply wp_mono (write_cut decoder value)
      · rintro output next ⟨hwhole, hnext, htail⟩
        have hfits := hconverts decoder output rfl hwhole
        rw [Fits, ← unitLength_eq] at hfits
        apply wp_mono (TextQueue.append_spec h.text output)
        · rintro - queue ⟨hsound, hcontent⟩
          refine ⟨h.bytes, hsound, (fun hd => by cases hd), fun d hd => ?_⟩
          obtain rfl := Option.some.inj hd
          refine ⟨hempty, name, hname, by rw [hnext]; exact hencoding, buffers, texts, rest ++ value,
            htaken, ?_, fun _ tail => ?_, fun hd => by cases hd⟩
          · rw [← happended, List.append_assoc]
          · rw [hcontent, hnext, List.append_assoc, ← hopen rfl, ← htail, ← andThen_assoc,
              andThen_some, List.append_assoc]
        · rintro e queue ⟨-, hlong⟩
          exact absurd hlong (Nat.not_lt.mpr hfits)
      · rintro e next ⟨rfl, -⟩
        exact h

/-- The end gives the text of what the decoder still held back. -/
theorem Tracks.finishes (h : Tracks history) (hconverts : Converts history.buffer .finish) :
    Tracks (history.step unpaired .finish) := by
  obtain ⟨⟨bytes, text, decoder, finished⟩, taken, appended, encodings⟩ := history
  apply step_of_wp
  simp only [perform, finish, wp_ite, wp_bind, wp_get, wp_pure, Operation.bytes,
    Operation.encodings, List.append_nil, Option.toList]
  cases finished with
  | true => exact h
  | false =>
    simp only [Bool.false_eq_true, if_false]
    cases decoder with
    | none => exact ⟨h.bytes, h.text, h.raw, fun d hd => by cases hd⟩
    | some decoder =>
      obtain ⟨hempty, name, hname, hencoding, buffers, texts, rest, htaken, happended, hopen, -⟩ :=
        h.converted decoder rfl
      simp only at htaken happended
      simp only [wp_bind, wp_decode, wp_modify]
      apply wp_mono (end_all decoder)
      · rintro output next ⟨hall, rfl⟩
        have hfits := hconverts decoder output rfl hall
        rw [Fits, ← unitLength_eq] at hfits
        apply wp_mono (TextQueue.append_spec h.text output)
        · rintro - queue ⟨hsound, hcontent⟩
          refine ⟨h.bytes, hsound, (fun hd => by cases hd), fun d hd => ?_⟩
          obtain rfl := Option.some.inj hd
          refine ⟨hempty, name, hname, hencoding, buffers, texts, rest, htaken, happended,
            (fun hd => by cases hd), fun _ => ⟨rfl, ?_⟩⟩
          have hrest := hopen rfl []
          rw [List.append_nil, List.append_nil, hall, andThen_some, List.append_assoc] at hrest
          rw [hcontent]
          exact hrest.symm
        · rintro e queue ⟨-, hlong⟩
          exact absurd hlong (Nat.not_lt.mpr hfits)
      · rintro e next ⟨rfl, -⟩
        exact h

theorem decoded_nil (encoding : Encoding) : Buffer.decoded encoding [] = some [] := by
  cases encoding <;> rfl

/-- The loop of `set_encoding` converts all bytes held, and the decoder holds the rest back. -/
theorem drain_spec {buffer : ReadBuffer} (hbytes : buffer.bytes.Sound) (htext : buffer.text.Sound)
    {encoding : Encoding} {output : Text} (hwhole : whole encoding buffer.bytes.chunks.flatten = some output)
    (hfits : Fits buffer output) :
    wp (drain unpaired ⟨encoding, []⟩)
      (fun decoder buffer' => decoder.name = encoding ∧
        (∃ bytes text, buffer' = { buffer with bytes, text } ∧ bytes.Sound ∧ bytes.chunks = [] ∧
          text.Sound ∧ text.held = buffer.text.held ++ output) ∧
        ∀ tail, andThen (some output) (Buffer.decoded encoding (decoder.pending ++ tail)) =
          Buffer.decoded encoding (buffer.bytes.chunks.flatten ++ tail))
      (fun _ _ => False) buffer := by
  have hempty : ∀ queue : ByteQueue, queue.Sound → queue.chunks.flatten = [] → queue.chunks = [] := by
    intro queue hqueue hflat
    cases hchunks : queue.chunks with
    | nil => rfl
    | cons chunk chunks =>
      rw [hchunks, List.flatten_cons] at hflat
      have hnil := (List.append_eq_nil_iff.mp hflat).1
      exact absurd (by rw [hchunks, hnil]; exact List.mem_cons_self) hqueue.filled
  simp only [drain, wp_bind, wp_get, wp_ite]
  split
  · rename_i hzero
    have hflat : buffer.bytes.chunks.flatten = [] := by
      apply List.eq_nil_of_length_eq_zero
      rw [← hbytes.length, hzero]
    rw [whole, hflat, List.take_nil, decoded_nil] at hwhole
    obtain rfl := Option.some.inj hwhole
    rw [wp_pure]
    refine ⟨rfl, ⟨buffer.bytes, buffer.text, rfl, hbytes, hempty _ hbytes hflat, htext,
      (List.append_nil _).symm⟩, fun tail => ?_⟩
    rw [hflat, some_nil_andThen]
  · rw [onBytes, wp_zoom]
    apply wp_mono (ByteQueue.take_spec hbytes buffer.bytes.length)
    · rintro value queue ⟨hsound, hcontent, hlength, -⟩
      have hleft : queue.chunks.flatten = [] := by
        apply List.eq_nil_of_length_eq_zero
        have hcount := congrArg List.length hcontent
        rw [List.length_append, ← hbytes.length] at hcount
        omega
      rw [hleft, List.append_nil] at hcontent
      rw [wp_convert, hcontent]
      apply wp_mono (write_cut ⟨encoding, []⟩ buffer.bytes.chunks.flatten)
      · rintro text decoder ⟨htext', hname, htail⟩
        obtain rfl := Option.some.inj (hwhole.symm.trans htext')
        rw [Fits, ← unitLength_eq] at hfits
        apply wp_mono (TextQueue.append_spec htext output)
        · rintro - texts ⟨htexts, hheld⟩
          exact ⟨hname, ⟨queue, texts, rfl, hsound, hempty _ hsound hleft, htexts, hheld⟩, htail⟩
        · rintro e texts ⟨-, hlong⟩
          exact absurd hlong (Nat.not_lt.mpr hfits)
      · rintro e decoder ⟨-, hnone⟩
        rw [show (⟨encoding, []⟩ : StreamDecoder).pending = [] from rfl, List.nil_append] at hnone
        rw [hnone] at hwhole
        cases hwhole
    · rintro e queue ⟨-, hrange⟩
      exact hrange ⟨by omega, Int.le_refl _⟩

/-- Where everything has a text, so has what is not held back, and it is no longer. -/
theorem whole_of_decoded {encoding : Encoding} {bytes : List Byte} {total : Text}
    (h : Buffer.decoded encoding bytes = some total) :
    ∃ output rest, whole encoding bytes = some output ∧ total = output ++ rest := by
  have hcut := boundary_safeCut encoding bytes []
  rw [List.append_nil, List.take_append_drop, h] at hcut
  cases hwhole : Buffer.decoded encoding (bytes.take (boundary encoding bytes)) with
  | none =>
    rw [hwhole, andThen_none] at hcut
    cases hcut
  | some output =>
    cases hback : Buffer.decoded encoding (bytes.drop (boundary encoding bytes)) with
    | none =>
      rw [hback, none_andThen] at hcut
      cases hcut
    | some rest =>
      rw [hwhole, hback, andThen_some] at hcut
      exact ⟨output, rest, hwhole, Option.some.inj hcut⟩

/-- Setting an encoding decodes what is held, at its end to the end. -/
theorem Tracks.encodes (h : Tracks history) (hraw : history.buffer.decoder = none) {name : Text}
    (hconverts : Converts history.buffer (.setEncoding name)) :
    Tracks (history.step unpaired (.setEncoding name)) := by
  obtain ⟨⟨bytes, text, decoder, finished⟩, taken, appended, encodings⟩ := history
  obtain rfl : decoder = none := hraw
  obtain ⟨hnone, hheld, buffers, htaken, happended⟩ := h.raw rfl
  simp only at hnone hheld htaken happended
  apply step_of_wp
  simp only [perform, setEncoding, wp_bind, wp_pure, wp_get, wp_ite, Operation.bytes,
    Operation.encodings, List.append_nil, Option.toList]
  cases hname : encodingName name with
  | error e =>
    have hnew : StreamDecoder.new name = .error e := by
      rw [StreamDecoder.new, hname]
      rfl
    rw [hnew, ofExcept, wp_throw]
    exact h
  | ok encoding =>
    have hnew : StreamDecoder.new name = .ok ⟨encoding, []⟩ := by
      rw [StreamDecoder.new, hname]
      rfl
    obtain ⟨total, hfits, hdecoded⟩ := hconverts encoding hname
    have hstart : ∃ output rest, whole encoding bytes.chunks.flatten = some output ∧
        total = output ++ rest := by
      cases finished with
      | true => exact whole_of_decoded hdecoded
      | false => exact ⟨total, [], hdecoded, (List.append_nil _).symm⟩
    obtain ⟨output, rest, hwhole, htotal⟩ := hstart
    have hlengths : (jsString output).length + (jsString rest).length = (jsString total).length := by
      rw [htotal, Encoder.jsString_append, List.length_append]
    rw [hnew, ofExcept, wp_pure]
    apply wp_mono (drain_spec h.bytes h.text hwhole (by unfold Fits at hfits ⊢; omega))
    · rintro decoder buffer ⟨hdecoder, ⟨bytes', text', rfl, hbytes, hempty, htext, houtput⟩, htail⟩
      simp only at htext houtput hempty hbytes htail
      rw [hheld, List.nil_append] at houtput
      cases finished with
      | false =>
        simp only [Bool.false_eq_true, if_false, wp_modify]
        refine ⟨hbytes, htext, (fun hd => by cases hd), fun d hd => ?_⟩
        obtain rfl := Option.some.inj hd
        refine ⟨hempty, name, by rw [hnone]; rfl, by rw [hdecoder]; exact hname, buffers, [],
          bytes.chunks.flatten, by rw [htaken]; simp, happended, fun _ tail => ?_, fun hd => by cases hd⟩
        rw [List.flatten_nil, List.nil_append, houtput, hdecoder]
        exact htail tail
      | true =>
        have hall : andThen (some output) (Buffer.decoded decoder.name decoder.pending) = some total := by
          have htail := htail []
          rw [List.append_nil, List.append_nil, ← hdecoder] at htail
          rw [htail, hdecoder]
          exact hdecoded
        simp only [if_true, wp_convert, wp_modify]
        apply wp_mono (end_all decoder)
        · rintro last next ⟨hlast, rfl⟩
          rw [hlast, andThen_some, Option.some.injEq] at hall
          have hroom : unitLength last ≤ exactRange - text'.length := by
            have hnothing := h.text.length
            have hunits := htext.length
            simp only [hheld, unitLength] at hnothing
            simp only [Fits, ← unitLength_eq, ← hall, unitLength_append] at hfits
            rw [houtput] at hunits
            omega
          apply wp_mono (TextQueue.append_spec htext last)
          · rintro - queue ⟨hsound, hcontent⟩
            refine ⟨hbytes, hsound, (fun hd => by cases hd), fun d hd => ?_⟩
            obtain rfl := Option.some.inj hd
            refine ⟨hempty, name, by rw [hnone]; rfl, by rw [← hdecoder] at hname; exact hname, buffers, [],
              bytes.chunks.flatten, by rw [htaken]; simp, happended, (fun hd => by cases hd), fun _ => ⟨rfl, ?_⟩⟩
            rw [List.flatten_nil, List.nil_append, hcontent, houtput, hall, hdecoder]
            exact hdecoded
          · rintro e queue ⟨-, hlong⟩
            exact absurd hlong (Nat.not_lt.mpr hroom)
        · rintro e next ⟨-, hfail⟩
          rw [hfail, none_andThen] at hall
          cases hall
    · rintro e buffer hfalse
      exact hfalse.elim

/-! ## Runs -/

/-- Every operation of the run converts what it takes. -/
def Smooth (unpaired : List UInt16 → Error) (operations : List Operation) : Prop :=
  ∀ before operation after, operations = before ++ operation :: after →
    Converts (History.run unpaired before).buffer operation

theorem run_snoc (operations : List Operation) (operation : Operation) :
    History.run unpaired (operations ++ [operation]) =
      (History.run unpaired operations).step unpaired operation := by
  rw [History.run, List.foldl_append]
  rfl

/-- The encodings set are no more than those asked for. -/
theorem length_encodings (operations : List Operation) :
    (History.run unpaired operations).encodings.length ≤ (operations.flatMap Operation.encodings).length := by
  induction operations using List.reverseRecOn with
  | nil => exact Nat.le_refl 0
  | append_singleton operations operation ih =>
    rw [run_snoc, List.flatMap_append, List.length_append, List.flatMap_singleton, History.step]
    split
    · rw [List.length_append]
      omega
    · exact Nat.le_trans ih (Nat.le_add_right _ _)

theorem tracks_run {operations : List Operation} (hsmooth : Smooth unpaired operations)
    (honce : (operations.flatMap Operation.encodings).length ≤ 1) :
    Tracks (History.run unpaired operations) := by
  induction operations using List.reverseRecOn with
  | nil => exact tracks_new
  | append_singleton operations operation ih =>
    rw [List.flatMap_append, List.length_append, List.flatMap_singleton] at honce
    have hbefore : Smooth unpaired operations := fun before op after hsplit =>
      hsmooth before op (after ++ [operation]) (by rw [hsplit]; simp)
    have htracks := ih hbefore (by omega)
    have hconverts := hsmooth operations operation [] rfl
    rw [run_snoc]
    cases operation with
    | append value => exact htracks.appends hconverts
    | take size => exact htracks.takes size
    | finish => exact htracks.finishes hconverts
    | setEncoding name =>
      have hnone : (History.run unpaired operations).buffer.decoder = none := by
        by_contra hsome
        obtain ⟨decoder, hdecoder⟩ := Option.ne_none_iff_exists'.mp hsome
        obtain ⟨-, name', hnames, -⟩ := htracks.converted decoder hdecoder
        have hcount := @length_encodings unpaired operations
        rw [hnames] at hcount
        simp only [Operation.encodings, List.length_cons, List.length_nil] at honce hcount
        omega
      exact htracks.encodes hnone hconverts

/-- A `take` of the length gives everything, and leaves nothing. -/
theorem Tracks.take_all (h : Tracks history) (hpos : 0 < history.buffer.length) :
    ∃ left, take history.buffer.length history.buffer = .ok (some history.buffer.held) left ∧
      left.length = 0 := by
  obtain ⟨⟨bytes, text, decoder, finished⟩, taken, appended, encodings⟩ := history
  have hsize : ((length ⟨bytes, text, decoder, finished⟩ : Nat) : Int) ≠ 0 := by
    simp only at hpos
    omega
  simp only [take, if_neg hsize, bind_run, get_run]
  cases decoder with
  | none =>
    obtain ⟨left, hrun, hleft⟩ := ByteQueue.take_all h.bytes hpos
    refine ⟨⟨left, text, none, finished⟩, ?_, hleft⟩
    simp only [Option.isSome_none, Bool.false_eq_true, if_false, onBytes, zoom, bind_run]
    rw [show length ⟨bytes, text, none, finished⟩ = bytes.length from rfl, hrun]
    rfl
  | some decoder =>
    obtain ⟨left, hrun, hleft⟩ := TextQueue.take_all h.text hpos
    refine ⟨⟨bytes, left, some decoder, finished⟩, ?_, hleft⟩
    simp only [Option.isSome_some, if_true, onText, zoom, bind_run]
    rw [show length ⟨bytes, text, some decoder, finished⟩ = text.length from rfl, hrun]
    rfl

/-- **A read buffer converts what it holds.** What was taken and what is held are the bytes taken
before the encoding was set and the decoding of all others as one text. -/
structure Converted (history : History) : Prop where
  raw : history.buffer.decoder = none → ∃ buffers : List (List Byte),
    history.taken = buffers.map .buffer ∧
      buffers.flatten ++ history.buffer.bytes.chunks.flatten = history.appended
  decoded : ∀ decoder, history.buffer.decoder = some decoder →
    ∃ name, history.encodings = [name] ∧ encodingName name = .ok decoder.name ∧
    ∃ (buffers : List (List Byte)) (texts : List Text) (rest : List Byte),
      history.taken = buffers.map .buffer ++ texts.map .text ∧
      buffers.flatten ++ rest = history.appended ∧
      andThen (some (texts.flatten ++ history.buffer.text.held))
        (Buffer.decoded decoder.name decoder.pending) = Buffer.decoded decoder.name rest ∧
      (history.buffer.finished = true →
        Buffer.decoded decoder.name rest = some (texts.flatten ++ history.buffer.text.held))
  length : history.buffer.length = history.buffer.held.length
  /-- The length may be taken at once, and is all there is. -/
  deliverable : 0 < history.buffer.length →
    ∃ left, take history.buffer.length history.buffer = .ok (some history.buffer.held) left ∧
      left.length = 0
  filled : [] ∉ history.buffer.bytes.chunks

theorem Tracks.converts (h : Tracks history) : Converted history where
  raw hdecoder := (h.raw hdecoder).2.2
  decoded decoder hdecoder := by
    obtain ⟨-, name, hnames, hname, buffers, texts, rest, htaken, happended, hopen, hclosed⟩ :=
      h.converted decoder hdecoder
    refine ⟨name, hnames, hname, buffers, texts, rest, htaken, happended, ?_, fun hend => (hclosed hend).2⟩
    cases hfinished : history.buffer.finished with
    | false =>
      have hrest := hopen hfinished []
      rw [List.append_nil, List.append_nil] at hrest
      exact hrest
    | true =>
      obtain ⟨hpending, hrest⟩ := hclosed hfinished
      rw [hpending, decoded_nil, andThen_some, List.append_nil, hrest]
  length := by
    rw [length, held]
    cases history.buffer.decoder with
    | none => exact h.bytes.length
    | some decoder => exact h.text.length.trans (unitLength_eq _)
  deliverable := h.take_all
  filled := h.bytes.filled

end

/-- **Every run converts what it was given**, if its operations convert what they take and at most
one sets an encoding. -/
theorem run_converted (unpaired : List UInt16 → Error) (operations : List Operation)
    (honce : (operations.flatMap Operation.encodings).length ≤ 1) (hsmooth : Smooth unpaired operations) :
    Converted (History.run unpaired operations) :=
  (tracks_run hsmooth honce).converts

/-- The lone surrogate raises when the bytes are out of the queue: the letter in front of it and the
bytes are gone. -/
theorem run_unconverted : ¬ ∀ (unpaired : List UInt16 → Error) (operations : List Operation),
    (operations.flatMap Operation.encodings).length ≤ 1 → Converted (History.run unpaired operations) := by
  intro hall
  have h := hall (fun _ => ⟨"unpaired"⟩)
    [.append [0x41, 0x00, 0x00, 0xDC], .setEncoding "utf16le".toList] (by decide)
  obtain ⟨buffers, htaken, happended⟩ := h.raw rfl
  have hnone : buffers = [] := List.map_eq_nil_iff.mp htaken.symm
  rw [hnone] at happended
  cases happended

theorem smooth_nil (unpaired : List UInt16 → Error) : Smooth unpaired [] := by
  intro before operation after hsplit
  simp at hsplit

theorem Smooth.snoc {unpaired : List UInt16 → Error} {operations : List Operation}
    (h : Smooth unpaired operations) (operation : Operation)
    (hconverts : Converts (History.run unpaired operations).buffer operation) :
    Smooth unpaired (operations ++ [operation]) := by
  intro before op after hsplit
  rcases List.eq_nil_or_concat after with rfl | ⟨rest, last, rfl⟩
  · obtain ⟨rfl, hop⟩ := List.append_inj' hsplit rfl
    obtain rfl := List.cons.inj hop |>.1
    exact hconverts
  · rw [List.concat_eq_append, ← List.cons_append, ← List.append_assoc] at hsplit
    obtain ⟨rfl, -⟩ := List.append_inj' hsplit rfl
    exact h before op rest rfl

/-- The euro sign in two reads around the setting of the encoding. -/
theorem run_converted_euro : Converted (History.run (fun _ => ⟨"unpaired"⟩)
    [.append [0x41, 0xE2, 0x82], .take 1, .setEncoding "utf8".toList, .append [0xAC], .finish]) := by
  have htaken : Smooth (fun _ => ⟨"unpaired"⟩) [.append [0x41, 0xE2, 0x82], .take 1] :=
    ((smooth_nil _).snoc (.append _) fun d t hd => by cases hd).snoc (.take 1) trivial
  have hset := htaken.snoc (.setEncoding "utf8".toList) fun encoding hencoding => by
    obtain rfl : Encoding.utf8 = encoding := Except.ok.inj hencoding
    exact ⟨[], by decide, rfl⟩
  have hlast := hset.snoc (.append [0xAC]) fun decoder text hdecoder htext => by
    obtain rfl := Option.some.inj hdecoder
    obtain rfl := Option.some.inj htext
    decide
  have hend := hlast.snoc .finish fun decoder text hdecoder htext => by
    obtain rfl := Option.some.inj hdecoder
    obtain rfl := Option.some.inj htext
    decide
  exact run_converted _ _ (by decide) hend

end ReadBuffer

end TsonicNode.Stream
