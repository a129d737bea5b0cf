import TsonicNode.Path.Posix
import TsonicNode.Url.Bridge

/-!
# File URLs

`path_to_file_url` escapes a resolved path and sets it as the pathname of a file
URL; `file_url_to_path` decodes the pathname again. What the library makes of a
pathname is modelled from its source (`parsePath`); the rest of it is a
parameter (`FileUrls`). `encode_byte` says what becomes of one byte on the way
through both encodings, and `parsePath_encode` that the library does nothing
else to an escaped path that is resolved.
-/

namespace TsonicNode.Url

open TsonicNode.Lib
open TsonicNode.Lib.Http (forall_byte)
open TsonicNode.Path (dot dotDot)
open TsonicNode.Path.Posix (isAbsolute endsSlash slash)

/-! ## The library's path parser, for a file URL -/

/-- `is_ascii_tab_or_newline`. -/
def isAsciiTabOrNewline (b : UInt8) : Bool := b == 13 || b == 10 || b == 9

def isAlpha (b : UInt8) : Bool := (65 ≤ b && b ≤ 90) || (97 ≤ b && b ≤ 122)

def isWindowsDriveLetter : Bytes → Bool
  | [letter, mark] => isAlpha letter && (mark == 58 || mark == 124)
  | letter :: mark :: next :: _ =>
    isAlpha letter && (mark == 58 || mark == 124) && (next == 47 || next == 92 || next == 63 || next == 35)
  | _ => false

def isNormalizedWindowsDriveLetter (input : Bytes) : Bool :=
  match input with
  | [letter, mark] => isAlpha letter && mark == 58
  | _ => false

/-- The letters of an escape in either case. -/
def lowered (b : UInt8) : UInt8 := if 65 ≤ b && b ≤ 90 then b ||| 0x20 else b

def isDoubleDotPathSegment (input : Bytes) : Bool :=
  [[46, 46], [37, 50, 101, 46], [46, 37, 50, 101], [37, 50, 101, 37, 50, 101]].contains (input.map lowered)

def isSingleDotPathSegment (input : Bytes) : Bool :=
  input == [46] || input == [37, 50, 101] || input == [37, 50, 69]

/-- `PATH_PERCENT_ENCODE`. -/
def pathPercentEncode (b : UInt8) : Bool :=
  b ≤ 0x20 || b == 0x22 || b == 0x23 || b == 0x3C || b == 0x3E || b == 0x3F || b == 0x5E || b == 0x60 || b == 0x7B ||
    b == 0x7D || 0x7E < b

def digits : Bytes := [48, 49, 50, 51, 52, 53, 54, 55, 56, 57, 65, 66, 67, 68, 69, 70]

/-- A byte as an escape. -/
def escapedByte (b : UInt8) : Bytes := [37, digits.getD (b >>> 4).toNat 0, digits.getD (b &&& 15).toNat 0]

def percentEncode (input : Bytes) : Bytes :=
  input.flatMap fun b => if pathPercentEncode b then escapedByte b else [b]

/-- `path_signature`: 1 for what needs encoding, 2 for a backslash, 4 for a dot, 8 for a percent sign. -/
def pathSignature (input : Bytes) : Nat :=
  input.foldl (fun accumulator b =>
    accumulator |||
      if pathPercentEncode b then 1 else if b = 37 then 8 else if b = 46 then 4 else if b = 92 then 2 else 0) 0

/-- Behind no slash stands a dot that is a segment, or two that begin one. -/
def dotIsFile : Bytes → Bool
  | 47 :: 46 :: rest => !(rest == [] || rest.head? == some 46 || rest.head? == some 47) && dotIsFile rest
  | _ :: rest => dotIsFile rest
  | [] => true

/-- The path goes into the URL as it is. -/
def trivialPath (input : Bytes) : Bool :=
  !isWindowsDriveLetter input &&
    (pathSignature input == 0 || (pathSignature input == 4 && input.head? != some 46 && dotIsFile input))

/-- The last segment is removed, if it is no drive. -/
def shortenPath (path : Bytes) : Bytes :=
  if path ≠ [] ∧ 47 ∉ path.tail ∧ isNormalizedWindowsDriveLetter path.tail then path
  else if 47 ∈ path then ((path.reverse.dropWhile (· != 47)).drop 1).reverse
  else path

/-- What one segment does to the path so far. -/
def appendSegment (path segment : Bytes) (last : Bool) : Bytes :=
  if isDoubleDotPathSegment segment then
    let path := shortenPath path
    if last then path ++ [47] else path
  else if isSingleDotPathSegment segment then if last then path ++ [47] else path
  else if path = [] ∧ isWindowsDriveLetter segment then path ++ 47 :: segment.take 1 ++ 58 :: segment.drop 2
  else path ++ 47 :: segment

def appendSegments (path : Bytes) : List Bytes → Bytes
  | [] => path
  | [segment] => appendSegment path (percentEncode segment) true
  | segment :: rest => appendSegments (appendSegment path (percentEncode segment) false) rest

def consumePreparedPath (input : Bytes) : Bytes :=
  if trivialPath input then 47 :: input
  else appendSegments [] (input.splitOnP fun b => b == 47 || b == 92)

/-- `parse_path` of a file URL whose path was cleared. -/
def parsePath (input : Bytes) : Bytes :=
  match input.filter fun b => !isAsciiTabOrNewline b with
  | [] => [47]
  | b :: rest => consumePreparedPath (if b = 47 ∨ b = 92 then rest else b :: rest)

/-! ## The functions of the source -/

/-- `file:///`. -/
def emptyFileUrl : Bytes := [102, 105, 108, 101, 58, 47, 47, 47]

/-- `file:`. -/
def fileProtocol : Bytes := [102, 105, 108, 101, 58]

/-- `localhost`. -/
def localhost : Bytes := [108, 111, 99, 97, 108, 104, 111, 115, 116]

/-- The parts of the library that file URLs rest on. -/
structure FileUrls (ada : Ada) where
  parse : Bytes → Option ada.Address
  protocol : ada.Address → Bytes
  hostname : ada.Address → Bytes
  pathname : ada.Address → Bytes
  parse_file : ∃ url, parse emptyFileUrl = some url ∧ protocol url = fileProtocol ∧ hostname url = []
  set_pathname : ∀ url text, protocol url = fileProtocol →
    protocol (ada.set .pathname url text) = fileProtocol ∧
      hostname (ada.set .pathname url text) = hostname url ∧ pathname (ada.set .pathname url text) = parsePath text

/-- The bytes that `path_to_file_url` escapes itself. -/
def escapes (b : UInt8) : Bool :=
  b == 0 || b == 9 || b == 10 || b == 13 || b == 32 || b == 34 || b == 35 || b == 37 || b == 63 || b == 91 || b == 92 ||
    b == 93 || b == 94 || b == 124 || b == 126

def escape (absolute : Bytes) : Bytes :=
  absolute.flatMap fun b => if escapes b then escapedByte b else [b]

/-- The resolved path, with a slash at its end if the path has one. -/
def absolutePath (cwd path : Bytes) : Bytes :=
  let absolute := Path.Posix.resolve cwd [path]
  if endsSlash path && !endsSlash absolute then absolute ++ slash else absolute

section Functions

variable {ada : Ada}

/-- The number of the error behind the messages is left out. -/
def pathToFileUrl (files : FileUrls ada) (cwd path : Utf8) : Except String (UrlState ada) :=
  match files.parse emptyFileUrl with
  | none => .error "Unable to parse URL: "
  | some url =>
    match setField (newState url) .pathname (escape (absolutePath cwd path)) with
    | (result, true) => .ok result
    | (_, false) => .error "Unable to update URL: "

def hexDigit (value : UInt8) : Except String UInt8 :=
  if 48 ≤ value ∧ value ≤ 57 then .ok (value - 48)
  else if 65 ≤ value ∧ value ≤ 70 then .ok (value - 65 + 10)
  else if 97 ≤ value ∧ value ≤ 102 then .ok (value - 97 + 10)
  else .error "Invalid percent escape in file URL"

/-- The loop of `file_url_to_path_buffer`. -/
def decodePath : Bytes → Except String Bytes
  | [] => .ok []
  | 37 :: high :: low :: rest => do
    let high ← hexDigit high
    let low ← hexDigit low
    let byte := high <<< 4 ||| low
    if byte = 47 then throw "A file URL cannot contain an encoded path separator"
    return byte :: (← decodePath rest)
  | byte :: rest => do
    if byte = 37 then throw "Invalid percent escape in file URL"
    return byte :: (← decodePath rest)

def fileUrlToPathBuffer (files : FileUrls ada) (state : UrlState ada) : Except String Bytes :=
  match state.url with
  | none => .error "Unable to read URL: "
  | some url =>
    if files.protocol url ≠ fileProtocol then .error "fileURLToPath requires the file: protocol"
    else if files.hostname url ≠ [] ∧ files.hostname url ≠ localhost then
      .error "A POSIX file URL cannot have a remote hostname"
    else decodePath (files.pathname url)

def fileUrlToPath (files : FileUrls ada) (state : UrlState ada) : Except String Utf8 := do
  let bytes ← fileUrlToPathBuffer files state
  if h : WellFormed bytes then return ⟨bytes, h⟩ else throw "invalid UTF-8"

end Functions

/-! ## Both encodings -/

/-- A byte on its way through both encodings: as it is, or as an escape, which a slash never is. -/
theorem encode_byte (b : UInt8) :
    (percentEncode (if escapes b then escapedByte b else [b]) = [b] ∧ b ≠ 37) ∨
      (percentEncode (if escapes b then escapedByte b else [b]) = escapedByte b ∧ b ≠ 47) :=
  forall_byte (by decide +kernel) b

theorem escape_byte (b : UInt8) :
    ((if escapes b then escapedByte b else [b]) = [b] ∧ b ≠ 37) ∨
      ((if escapes b then escapedByte b else [b]) = escapedByte b ∧ b ≠ 47) :=
  forall_byte (by decide +kernel) b

/-- What stands for a byte has no separator in it, no vertical bar, and nothing the library drops. -/
theorem escape_plain (b : UInt8) : ∀ c ∈ (if escapes b then escapedByte b else [b]),
    isAsciiTabOrNewline c = false ∧ (b ≠ 47 → (c == 47 || c == 92) = false) := by
  have hall : (if escapes b then escapedByte b else [b]).all
      (fun c => !isAsciiTabOrNewline c && (b == 47 || !(c == 47 || c == 92))) = true :=
    forall_byte (by decide +kernel) b
  intro c hc
  have hplain := List.all_eq_true.mp hall c hc
  rw [Bool.and_eq_true, Bool.or_eq_true, Bool.not_eq_true', Bool.not_eq_true', beq_iff_eq] at hplain
  exact ⟨hplain.1, fun hb => hplain.2.resolve_left hb⟩

theorem encode_plain_byte (b : UInt8) :
    ∀ c ∈ percentEncode (if escapes b then escapedByte b else [b]), c ≠ 124 := by
  have hall : (percentEncode (if escapes b then escapedByte b else [b])).all (· != 124) = true :=
    forall_byte (by decide +kernel) b
  intro c hc
  exact bne_iff_ne.mp (List.all_eq_true.mp hall c hc)

theorem hexDigit_digits (b : UInt8) : hexDigit (digits.getD (b >>> 4).toNat 0) = .ok (b >>> 4) ∧
    hexDigit (digits.getD (b &&& 15).toNat 0) = .ok (b &&& 15) ∧ (b >>> 4) <<< 4 ||| (b &&& 15) = b :=
  forall_byte (by decide +kernel) b

theorem decodePath_escapedByte {b : UInt8} (hb : b ≠ 47) (rest : Bytes) :
    decodePath (escapedByte b ++ rest) = (decodePath rest).map (b :: ·) := by
  obtain ⟨hhigh, hlow, hbyte⟩ := hexDigit_digits b
  unfold escapedByte
  rw [List.cons_append, List.cons_append, List.cons_append, List.nil_append, decodePath, hhigh, hlow]
  change (if (b >>> 4) <<< 4 ||| (b &&& 15) = 47 then _ else _) = _
  rw [hbyte, if_neg hb]
  rfl

theorem decodePath_byte {b : UInt8} (hb : b ≠ 37) (rest : Bytes) :
    decodePath (b :: rest) = (decodePath rest).map (b :: ·) := by
  rw [decodePath]
  · rw [if_neg hb]
    rfl
  · exact fun _ _ _ heq _ => hb heq

/-- A text of which each byte stands for itself or is escaped is decoded. -/
theorem decodePath_flatMap {encode : UInt8 → Bytes}
    (hencode : ∀ b, (encode b = [b] ∧ b ≠ 37) ∨ (encode b = escapedByte b ∧ b ≠ 47)) (text : Bytes) :
    decodePath (text.flatMap encode) = .ok text := by
  induction text with
  | nil => rfl
  | cons b text ih =>
    rw [List.flatMap_cons]
    rcases hencode b with ⟨hb, hne⟩ | ⟨hb, hne⟩
    · rw [hb, List.singleton_append, decodePath_byte hne, ih]
      rfl
    · rw [hb, decodePath_escapedByte hne, ih]
      rfl

theorem decodePath_escape (text : Bytes) : decodePath (escape text) = .ok text :=
  decodePath_flatMap escape_byte text

theorem percentEncode_escape (text : Bytes) : percentEncode (escape text) =
    text.flatMap fun b => percentEncode (if escapes b then escapedByte b else [b]) := by
  unfold percentEncode escape
  rw [List.flatMap_assoc]

theorem decodePath_encode (text : Bytes) : decodePath (percentEncode (escape text)) = .ok text := by
  rw [percentEncode_escape]
  exact decodePath_flatMap encode_byte text

/-! ## What the library makes of an escaped path -/

theorem lowered_byte (b : UInt8) : (lowered b = 46 → b = 46) ∧ (lowered b = 37 → b = 37) ∧ (lowered b = 50 → b = 50) ∧
    (lowered b = 101 → b = 101 ∨ b = 69) :=
  forall_byte (by decide +kernel) b

theorem lowered_dot {text : Bytes} (h : text.map lowered = [46]) : text = [46] := by
  obtain ⟨a, rfl, ha⟩ := List.map_eq_singleton_iff.mp h
  rw [(lowered_byte a).1 ha]

theorem lowered_escape {text : Bytes} (h : text.map lowered = [37, 50, 101]) :
    text = [37, 50, 101] ∨ text = [37, 50, 69] := by
  obtain ⟨a, b, c, rfl⟩ := List.length_eq_three.mp ((List.length_map lowered).symm.trans (congrArg List.length h))
  obtain ⟨ha, hb, hc⟩ : lowered a = 37 ∧ lowered b = 50 ∧ lowered c = 101 := by simpa using h
  rw [(lowered_byte a).2.1 ha, (lowered_byte b).2.2.1 hb]
  rcases (lowered_byte c).2.2.2 hc with rfl | rfl
  · exact .inl rfl
  · exact .inr rfl

/-- A double dot, encoded or not, is decoded to one. -/
theorem decodePath_doubleDot {segment : Bytes} (h : isDoubleDotPathSegment segment = true) :
    decodePath segment = .ok dotDot := by
  have hmem := List.contains_iff_mem.mp h
  simp only [List.mem_cons, List.not_mem_nil, or_false] at hmem
  rcases hmem with hmap | hmap | hmap | hmap
  · obtain ⟨x, y, rfl, hx, hy⟩ := List.map_eq_append_iff.mp (hmap.trans (show _ = [46] ++ [46] from rfl))
    rw [lowered_dot hx, lowered_dot hy]
    rfl
  · obtain ⟨x, y, rfl, hx, hy⟩ := List.map_eq_append_iff.mp (hmap.trans (show _ = [37, 50, 101] ++ [46] from rfl))
    rw [lowered_dot hy]
    rcases lowered_escape hx with rfl | rfl <;> rfl
  · obtain ⟨x, y, rfl, hx, hy⟩ := List.map_eq_append_iff.mp (hmap.trans (show _ = [46] ++ [37, 50, 101] from rfl))
    rw [lowered_dot hx]
    rcases lowered_escape hy with rfl | rfl <;> rfl
  · obtain ⟨x, y, rfl, hx, hy⟩ := List.map_eq_append_iff.mp
      (hmap.trans (show _ = [37, 50, 101] ++ [37, 50, 101] from rfl))
    rcases lowered_escape hx with rfl | rfl
    · rcases lowered_escape hy with rfl | rfl <;> rfl
    · rcases lowered_escape hy with rfl | rfl <;> rfl

theorem decodePath_singleDot {segment : Bytes} (h : isSingleDotPathSegment segment = true) :
    decodePath segment = .ok dot := by
  unfold isSingleDotPathSegment at h
  simp only [Bool.or_eq_true, beq_iff_eq] at h
  rcases h with (rfl | rfl) | rfl <;> rfl

/-- A drive is left as it stands, when it stands with a colon. -/
theorem take_drive {segment : Bytes} (hbar : 124 ∉ segment) (h : isWindowsDriveLetter segment = true) :
    segment.take 1 ++ 58 :: segment.drop 2 = segment := by
  match segment with
  | [] => cases h
  | [_] => cases h
  | letter :: mark :: rest =>
    have hmark : (mark == 58 || mark == 124) = true := by
      cases rest with
      | nil => exact ((Bool.and_eq_true _ _).mp h).2
      | cons next rest => exact ((Bool.and_eq_true _ _).mp ((Bool.and_eq_true _ _).mp h).1).2
    have hcolon : mark = 58 := by
      rcases (Bool.or_eq_true _ _).mp hmark with hmark | hmark
      · exact eq_of_beq hmark
      · rw [eq_of_beq hmark] at hbar
        exact absurd (List.mem_cons_of_mem letter List.mem_cons_self) hbar
    rw [hcolon]
    rfl

theorem bar_encode (text : Bytes) : 124 ∉ percentEncode (escape text) := by
  rw [percentEncode_escape]
  intro hmem
  obtain ⟨b, -, hb⟩ := List.mem_flatMap.mp hmem
  exact encode_plain_byte b 124 hb rfl

/-- A segment that is no dot segment is appended as it stands. -/
theorem appendSegment_encode {segment : Bytes} (hdot : segment ≠ dot) (hdotDot : segment ≠ dotDot) (path : Bytes)
    (last : Bool) :
    appendSegment path (percentEncode (escape segment)) last = path ++ 47 :: percentEncode (escape segment) := by
  have hdouble : ¬ isDoubleDotPathSegment (percentEncode (escape segment)) = true := fun h =>
    hdotDot (Except.ok.inj ((decodePath_encode segment).symm.trans (decodePath_doubleDot h)))
  have hsingle : ¬ isSingleDotPathSegment (percentEncode (escape segment)) = true := fun h =>
    hdot (Except.ok.inj ((decodePath_encode segment).symm.trans (decodePath_singleDot h)))
  unfold appendSegment
  rw [if_neg hdouble, if_neg hsingle]
  split_ifs with hdrive
  · rw [List.append_assoc, List.cons_append, take_drive (bar_encode segment) hdrive.2]
  · rfl

theorem appendSegments_encode {segments : List Bytes} (hne : segments ≠ [])
    (h : ∀ segment ∈ segments, segment ≠ dot ∧ segment ≠ dotDot) (path : Bytes) :
    appendSegments path (segments.map escape) =
      path ++ segments.flatMap fun segment => 47 :: percentEncode (escape segment) := by
  induction segments generalizing path with
  | nil => exact absurd rfl hne
  | cons segment rest ih =>
    obtain ⟨hdot, hdotDot⟩ := h segment List.mem_cons_self
    cases rest with
    | nil =>
      rw [List.map_singleton, appendSegments, appendSegment_encode hdot hdotDot, List.flatMap_singleton]
    | cons next rest =>
      change appendSegments (appendSegment path (percentEncode (escape segment)) false) ((next :: rest).map escape) = _
      rw [appendSegment_encode hdot hdotDot, ih (List.cons_ne_nil _ _) fun other hmem =>
        h other (List.mem_cons_of_mem segment hmem), List.append_assoc]
      rfl

theorem escape_cons (b : UInt8) (text : Bytes) :
    escape (b :: text) = (if escapes b then escapedByte b else [b]) ++ escape text :=
  List.flatMap_cons

/-- The escaped segments are those of the escaped text. -/
theorem split_escape (text : Bytes) :
    (escape text).splitOnP (fun b => b == 47 || b == 92) = (Path.Posix.split text).map escape := by
  induction text with
  | nil => rfl
  | cons b text ih =>
    rw [escape_cons]
    by_cases hb : b = 47
    · subst hb
      have hsplit : Path.Posix.split (47 :: text) = [] :: Path.Posix.split text := Segments.splitOnP_sep_cons rfl text
      rw [hsplit, List.map_cons, ← ih]
      exact Segments.splitOnP_sep_cons rfl (escape text)
    · have hjoint : Segments.Joint (fun b => b == 47 || b == 92) (if escapes b then escapedByte b else [b]) :=
        fun c hc => (escape_plain b c hc).2 hb
      obtain ⟨first, rest, hsplit, hcons⟩ := Segments.splitOnP_joint_cons (show Path.Posix.isSlash b = false by
        simpa [Path.Posix.isSlash] using hb) text
      rw [Segments.splitOnP_joint_prefix hjoint, ih, Path.Posix.split, Path.Posix.split, hcons, hsplit]
      rw [List.map_cons, List.map_cons, List.modifyHead_cons, escape_cons]

theorem flatMap_split (text : Bytes) : ((Path.Posix.split text).flatMap fun segment => 47 :: segment) = 47 :: text :=
  Segments.flatMap_splitOnP (fun _ hc => eq_of_beq hc) text

/-- The library takes an escaped path without dot segments as it is, or encodes what is left to encode. -/
theorem parsePath_escape {rest : Bytes}
    (h : ∀ segment ∈ Path.Posix.split rest, segment ≠ dot ∧ segment ≠ dotDot) :
    parsePath (escape (47 :: rest)) = escape (47 :: rest) ∨
      parsePath (escape (47 :: rest)) = percentEncode (escape (47 :: rest)) := by
  have hkept : (escape (47 :: rest)).filter (fun b => !isAsciiTabOrNewline b) = escape (47 :: rest) := by
    refine List.filter_eq_self.mpr fun c hc => ?_
    obtain ⟨b, -, hb⟩ := List.mem_flatMap.mp hc
    rw [(escape_plain b c hb).1]
    rfl
  have hhead : escape (47 :: rest) = 47 :: escape rest := escape_cons 47 rest
  unfold parsePath
  rw [hkept, hhead]
  change consumePreparedPath (escape rest) = _ ∨ consumePreparedPath (escape rest) = _
  unfold consumePreparedPath
  split_ifs
  · exact .inl rfl
  · right
    have hsplit : Path.Posix.split rest ≠ [] := List.splitOnP_ne_nil _ rest
    rw [split_escape, appendSegments_encode hsplit h, List.nil_append]
    rw [← hhead, ← flatMap_split rest, percentEncode_escape, List.flatMap_assoc]
    refine List.flatMap_congr fun segment _ => ?_
    rw [percentEncode_escape]
    rfl

/-! ## The path -/

/-- A path that is resolved, with or without a slash at its end. -/
theorem absolutePath_eq {cwd : Bytes} (hcwd : isAbsolute cwd = true) (path : Bytes) :
    ∃ trailing, absolutePath cwd path =
      Path.Posix.render true trailing (Path.Posix.locate (Path.Posix.locate [] cwd) path) := by
  obtain ⟨hclean, hresolve⟩ := Path.Posix.resolve_eq hcwd [path]
  rw [List.foldl_cons, List.foldl_nil] at hclean hresolve
  unfold absolutePath
  rw [hresolve]
  dsimp only
  split_ifs with hslash
  · refine ⟨true, ?_⟩
    obtain ⟨-, hends⟩ := (Bool.and_eq_true _ _).mp hslash
    rw [Path.Posix.endsSlash_render hclean false] at hends
    have hne : Path.Posix.locate (Path.Posix.locate [] cwd) path ≠ [] := by
      intro heq
      rw [heq] at hends
      cases hends
    rw [Path.Posix.render, Path.Posix.render, if_neg hne, if_neg hne, if_neg Bool.false_ne_true, if_pos rfl,
      List.append_nil]
  · exact ⟨false, rfl⟩

theorem split_render {cs : List Bytes} (h : Path.Posix.Clean true cs) (trailing : Bool) :
    ∃ rest, Path.Posix.render true trailing cs = 47 :: rest ∧
      ∀ segment ∈ Path.Posix.split rest, segment ∈ cs ∨ segment = [] := by
  cases cs with
  | nil =>
    refine ⟨[], rfl, fun segment hmem => .inr ?_⟩
    exact List.mem_singleton.mp hmem
  | cons c cs =>
    refine ⟨Segments.joined 47 (c :: cs) ++ if trailing then slash else [], ?_, fun segment hmem => ?_⟩
    · rw [Path.Posix.render, if_neg (List.cons_ne_nil c cs), if_pos rfl, List.append_assoc]
      rfl
    · rw [Path.Posix.split_trailing, Path.Posix.split_joined h] at hmem
      rcases List.mem_append.mp hmem with hmem | hmem
      · exact .inl hmem
      · cases trailing with
        | true => exact .inr (List.mem_singleton.mp hmem)
        | false => cases hmem

/-! ## Well-formed paths -/

theorem slash_ends (b : UInt8) : ∀ r ∈ trail b, ¬ r.Has 47 := by
  intro r hr hhas
  have htail := trail_tail hr hhas
  revert htail
  decide

/-- A slash stands between sequences. -/
theorem wellFormedFrom_slash (n : Nat) {x : Bytes} (hn : n ≤ x.length) (y : Bytes) :
    wellFormedFrom n (x ++ 47 :: y) = (wellFormedFrom n x && wellFormedFrom 0 y) := by
  induction x generalizing n with
  | nil =>
    obtain rfl : n = 0 := Nat.le_zero.mp hn
    rfl
  | cons b x ih =>
    cases n with
    | succ n => exact ih n (Nat.le_of_succ_le_succ hn)
    | zero =>
      have hnext : u8Next b (x ++ 47 :: y) = u8Next b x := by
        unfold u8Next
        rw [matched_append_of_head (slash_ends b)]
      have hle : (u8Next b x).1 ≤ x.length := matched_le_length _ _
      rw [List.cons_append, wellFormedFrom, wellFormedFrom, hnext, ih _ hle, Bool.and_assoc]

theorem wellFormed_slash (x y : Bytes) : WellFormed (x ++ 47 :: y) ↔ WellFormed x ∧ WellFormed y := by
  unfold WellFormed
  rw [wellFormedFrom_slash 0 (Nat.zero_le _), Bool.and_eq_true]

theorem wellFormed_segments (segments : List Bytes) :
    WellFormed (segments.flatMap fun segment => 47 :: segment) ↔ ∀ segment ∈ segments, WellFormed segment := by
  have hfront : ∀ y, WellFormed (47 :: y) ↔ WellFormed y := fun y =>
    (wellFormed_slash [] y).trans ⟨And.right, fun h => ⟨rfl, h⟩⟩
  induction segments with
  | nil => exact ⟨fun _ _ hmem => absurd hmem List.not_mem_nil, fun _ => rfl⟩
  | cons segment segments ih =>
    rw [List.flatMap_cons, List.cons_append, hfront, List.forall_mem_cons]
    refine Iff.trans ?_ (and_congr_right fun _ => ih)
    cases segments with
    | nil => exact ⟨fun h => ⟨List.append_nil segment ▸ h, rfl⟩, fun h => (List.append_nil segment).symm ▸ h.1⟩
    | cons next segments => rw [List.flatMap_cons, List.cons_append, wellFormed_slash, hfront]

theorem wellFormed_split (text : Bytes) : WellFormed text ↔ ∀ segment ∈ Path.Posix.split text, WellFormed segment := by
  rw [← wellFormed_segments, flatMap_split]
  exact ((wellFormed_slash [] text).trans ⟨And.right, fun h => ⟨rfl, h⟩⟩).symm

theorem mem_locate {start : List Bytes} {path segment : Bytes} (h : segment ∈ Path.Posix.locate start path) :
    segment ∈ start ∨ segment ∈ Path.Posix.split path := by
  rcases Segments.mem_visits h with hstart | hpath
  · split_ifs at hstart with habsolute
    · exact absurd hstart List.not_mem_nil
    · exact .inl hstart
  · exact .inr hpath

/-- What `path_to_file_url` escapes: a slash and what is behind it, well formed and without dot segments. -/
theorem absolutePath_spec (cwd path : Utf8) (hcwd : isAbsolute cwd = true) :
    ∃ rest, absolutePath cwd path = 47 :: rest ∧ WellFormed (absolutePath cwd path) ∧
      ∀ segment ∈ Path.Posix.split rest, segment ≠ dot ∧ segment ≠ dotDot := by
  obtain ⟨trailing, heq⟩ := absolutePath_eq hcwd path
  have hclean := (Path.Posix.resolve_eq hcwd [path.1]).1
  obtain ⟨rest, hrender, hsegments⟩ := split_render hclean trailing
  rw [List.foldl_cons, List.foldl_nil] at hclean hrender hsegments
  have hstays := Segments.Settled.stays hclean.settled
  refine ⟨rest, heq.trans hrender, ?_, fun segment hmem => ?_⟩
  · rw [heq, hrender, ← flatMap_split, wellFormed_segments]
    intro segment hmem
    rcases hsegments segment hmem with hplace | rfl
    · rcases mem_locate hplace with hstart | hpath
      · rcases mem_locate hstart with hnone | hcwd
        · exact absurd hnone List.not_mem_nil
        · exact (wellFormed_split _).mp cwd.2 segment hcwd
      · exact (wellFormed_split _).mp path.2 segment hpath
    · rfl
  · rcases hsegments segment hmem with hplace | rfl
    · refine ⟨?_, (hstays segment hplace).2⟩
      rintro rfl
      cases (hstays dot hplace).1
    · exact ⟨nofun, nofun⟩

/-! ## The round trip -/

section RoundTrip

variable {ada : Ada}

/-- The pathname of a URL that was made from a path is decoded to the resolved path. -/
theorem decodePath_parsePath (cwd path : Utf8) (hcwd : isAbsolute cwd = true) :
    decodePath (parsePath (escape (absolutePath cwd path))) = .ok (absolutePath cwd path) := by
  obtain ⟨rest, heq, -, hsegments⟩ := absolutePath_spec cwd path hcwd
  rw [heq]
  rcases parsePath_escape hsegments with hparse | hparse
  · rw [hparse]
    exact decodePath_escape _
  · rw [hparse]
    exact decodePath_encode _

/-- `path_to_file_url` raises for a text that is too large for the library; otherwise `file_url_to_path`
gives the resolved path back, with a slash at its end if the path had one. -/
theorem file_url_round_trip (files : FileUrls ada) (cwd path : Utf8) (hcwd : isAbsolute cwd = true) :
    if TooLarge ada (escape (absolutePath cwd path)) then
      pathToFileUrl files cwd path = .error "Unable to update URL: "
    else
      ∃ url resolved, pathToFileUrl files cwd path = .ok url ∧ fileUrlToPath files url = .ok resolved ∧
        resolved.1 =
          if endsSlash path && !endsSlash (Path.Posix.resolve cwd [path.1]) then
            Path.Posix.resolve cwd [path.1] ++ slash
          else Path.Posix.resolve cwd [path.1] := by
  obtain ⟨url, hparse, hprotocol, hhostname⟩ := files.parse_file
  obtain ⟨hprotocol', hhostname', hpathname⟩ :=
    files.set_pathname url (escape (absolutePath cwd path)) hprotocol
  obtain ⟨-, -, hwellFormed, -⟩ := absolutePath_spec cwd path hcwd
  by_cases hlarge : TooLarge ada (escape (absolutePath cwd path))
  · rw [if_pos hlarge]
    unfold pathToFileUrl setField
    rw [hparse]
    dsimp only
    rw [if_pos hlarge]
  · rw [if_neg hlarge]
    let result : UrlState ada :=
      { newState url with url := some (ada.set .pathname url (escape (absolutePath cwd path))) }
    refine ⟨result, ⟨absolutePath cwd path, hwellFormed⟩, ?_, ?_, rfl⟩
    · unfold pathToFileUrl setField
      rw [hparse]
      dsimp only
      rw [if_neg hlarge]
      rfl
    · have hbuffer : fileUrlToPathBuffer files result = .ok (absolutePath cwd path) := by
        change (if files.protocol (ada.set .pathname url (escape (absolutePath cwd path))) ≠ fileProtocol then _
          else _) = _
        rw [if_neg (not_not.mpr hprotocol'), hhostname', hhostname, if_neg fun hremote => hremote.1 rfl, hpathname]
        exact decodePath_parsePath cwd path hcwd
      unfold fileUrlToPath
      rw [hbuffer]
      exact dif_pos hwellFormed

end RoundTrip

/-! ## URLs of which the pathname is of interest -/

structure PathUrl where
  pathname : Bytes
  search : Bytes

def pathUrls : Ada where
  Address := PathUrl
  maxInputLength := 4294967295
  setHref := fun _ _ => none
  set := fun setter url text =>
    if setter = .search ∧ url.pathname.length + (marked text).length ≤ 4294967295 then
      { url with search := marked text }
    else if setter = .pathname then { url with pathname := parsePath text }
    else url
  search := PathUrl.search
  hrefLength := fun url query => url.pathname.length + (marked query).length
  precedes := fun key key' => decide (key < key')
  search_set := fun setter url text h => by
    rw [if_neg fun hset => h hset.1]
    split_ifs <;> rfl
  set_search_long := fun url query h => by
    rw [if_neg fun hset => absurd hset.2 (Nat.not_le_of_lt h)]
    rfl
  set_search_serialized := fun url params h => by rw [if_pos ⟨rfl, h⟩]

def pathFiles : FileUrls pathUrls where
  parse := fun text => if text = emptyFileUrl then some ⟨[47], []⟩ else none
  protocol := fun _ => fileProtocol
  hostname := fun _ => []
  pathname := PathUrl.pathname
  parse_file := ⟨_, rfl, rfl, rfl⟩
  set_pathname := fun _ _ _ => ⟨rfl, rfl, rfl⟩

def rootPath : Utf8 := ⟨[47], by decide⟩

/-- `C|/%2e\é/`, relative to the current directory. -/
def oddPath : Utf8 := ⟨[67, 124, 47, 37, 50, 101, 92, 195, 169, 47], by decide⟩

theorem file_url_round_trip_odd :
    ∃ url resolved, pathToFileUrl pathFiles rootPath oddPath = .ok url ∧ fileUrlToPath pathFiles url = .ok resolved ∧
      resolved.1 = 47 :: oddPath.1 := by
  have hround := file_url_round_trip pathFiles rootPath oddPath rfl
  rw [if_neg (by decide)] at hround
  obtain ⟨url, resolved, hurl, hresolved, heq⟩ := hround
  exact ⟨url, resolved, hurl, hresolved, heq.trans (by decide)⟩

end TsonicNode.Url
