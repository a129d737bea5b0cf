import TsonicNode.Path.Normalize
import TsonicNode.Path.Posix

/-!
# Taking a path apart and putting it together

`parse` finds the root, the directory and the base of a path from its end, and
`formatPath` joins them again. What comes out is the path without the separators
at its end, and with one separator where the base begins (`formatPath_parse`):
its words are those of the path, so it is normalized to the same path up to a
separator at the end.
-/

namespace TsonicNode.Path

open TsonicNode.Lib

structure PathParts where
  root : Bytes
  directory : Bytes
  base : Bytes
  name : Bytes
  extension : Bytes

/-- A loop back from `stop` over the bytes with `p`, down to `floor`. -/
def backWhile (p : UInt8 → Bool) (bytes : Bytes) (floor : Nat) : Nat → Nat
  | 0 => 0
  | stop + 1 =>
    if floor < stop + 1 ∧ p (bytes.getD stop 0) = true then backWhile p bytes floor stop else stop + 1

/-- `rfind` of a byte. -/
def rfind (byte : UInt8) (text : Bytes) : Int :=
  match text.reverse.findIdx? (· == byte) with
  | some index => text.length - 1 - index
  | none => -1

/-- `format_path`, with the separator of the platform. -/
def formatPath (separator : Bytes) (parts : PathParts) : Bytes :=
  let extension := if parts.extension ≠ [] ∧ parts.extension.head? ≠ some 46 then 46 :: parts.extension
    else parts.extension
  let base := if parts.base ≠ [] then parts.base else parts.name ++ extension
  let directory := if parts.directory ≠ [] then parts.directory else parts.root
  if directory = [] then base
  else if directory = parts.root then directory ++ base
  else directory ++ separator ++ base

/-- A base that is there is what is written behind the directory. -/
theorem formatPath_base (separator : Bytes) {parts : PathParts}
    (h : parts.base = [] → parts.name = [] ∧ parts.extension = []) :
    formatPath separator parts =
      let directory := if parts.directory ≠ [] then parts.directory else parts.root
      if directory = [] then parts.base
      else if directory = parts.root then directory ++ parts.base
      else directory ++ separator ++ parts.base := by
  by_cases hbase : parts.base = []
  · obtain ⟨hname, hextension⟩ := h hbase
    simp only [formatPath, hbase, hname, hextension, ne_eq, not_true_eq_false, if_false, false_and,
      List.append_nil]
  · simp only [formatPath, hbase, ne_eq, not_false_eq_true, if_true]

/-! ## Where the loops stop -/

theorem backWhile_eq {p : UInt8 → Bool} {bytes x v w : Bytes} {floor stop : Nat}
    (hbytes : bytes = x ++ (v ++ w)) (hstop : stop = x.length + v.length) (hfloor : floor ≤ x.length)
    (hv : ∀ b ∈ v, p b = true) (hx : floor = x.length ∨ ∀ b, x.getLast? = some b → p b = false) :
    backWhile p bytes floor stop = x.length := by
  subst hbytes hstop
  induction v using List.reverseRecOn generalizing w with
  | nil =>
    rcases List.eq_nil_or_concat x with rfl | ⟨y, b, rfl⟩
    · rfl
    · have hlength : (y.concat b).length = y.length + 1 := by simp
      rw [List.length_nil, Nat.add_zero, hlength, backWhile, if_neg]
      rintro ⟨hlt, hb⟩
      have hget : (y.concat b ++ ([] ++ w)).getD y.length 0 = b := by simp
      rw [hget] at hb
      rcases hx with hx | hx
      · omega
      · exact Bool.false_ne_true ((hx b (by simp)).symm.trans hb)
  | append_singleton v b ih =>
    have hget : (x ++ (v ++ [b] ++ w)).getD (x.length + v.length) 0 = b := by
      rw [← List.append_assoc, ← List.append_assoc, List.append_assoc _ [b],
        ← List.length_append, List.getD_eq_getElem?_getD, List.getElem?_append_right (Nat.le_refl _),
        Nat.sub_self]
      rfl
    have hb : p b = true := hv b (by simp)
    rw [List.length_append, List.length_singleton, ← Nat.add_assoc, backWhile, hget,
      if_pos ⟨by omega, hb⟩, List.append_assoc v [b] w]
    exact ih fun c hc => hv c (by simp [hc])

theorem rfind_none {byte : UInt8} {text : Bytes} (h : byte ∉ text) : rfind byte text = -1 := by
  rw [rfind, List.findIdx?_eq_none_iff.mpr fun b hb => ?_]
  rw [beq_eq_false_iff_ne]
  rintro rfl
  exact h (List.mem_reverse.mp hb)

theorem rfind_append {byte : UInt8} {last : Bytes} (h : byte ∉ last) (front : Bytes) :
    rfind byte (front ++ byte :: last) = front.length := by
  have hlast : ∀ b ∈ last.reverse, (b == byte) = false := fun b hb => by
    rw [beq_eq_false_iff_ne]
    rintro rfl
    exact h (List.mem_reverse.mp hb)
  rw [rfind, List.reverse_append, List.reverse_cons, List.append_assoc, List.findIdx?_append,
    List.findIdx?_eq_none_iff.mpr hlast, List.singleton_append, List.findIdx?_cons, beq_self_eq_true]
  simp only [Option.none_or, if_true, Option.map_some, List.length_reverse, List.length_append,
    List.length_cons]
  omega

/-! ## POSIX paths -/

namespace Posix

open Win32 (slice)

/-- `_base_end`. -/
def baseEnd (path : Bytes) : Nat := backWhile isSlash path 0 path.length

def basename (path : Bytes) (suffix : Bytes := []) : Bytes :=
  if path = [] then []
  else if suffix ≠ [] ∧ suffix = path then []
  else
    let stop := baseEnd path
    let index := rfind 47 (path.take stop)
    let result := slice path (index + 1).toNat stop
    if suffix ≠ [] ∧ suffix.length ≤ path.length ∧ result <:+ suffix ∧ suffix ≠ result then
      path.drop (index + 1).toNat
    else if suffix ≠ [] ∧ suffix <:+ result ∧ result ≠ suffix then
      result.take (result.length - suffix.length)
    else result

def dirname (path : Bytes) : Bytes :=
  if path = [] then dot
  else
    let index := rfind 47 (path.take (baseEnd path))
    if index < 0 then (if isAbsolute path then slash else dot)
    else if index = 0 then slash
    else if index = 1 ∧ [47, 47] <+: path then [47, 47]
    else path.take index.toNat

def extname (path : Bytes) : Bytes :=
  let base := basename path
  let index := rfind 46 base
  if index ≤ 0 ∨ base = dotDot then [] else base.drop index.toNat

def parse (path : Bytes) : PathParts :=
  let root := if isAbsolute path then slash else []
  let stop := baseEnd path
  let start := (rfind 47 (path.take stop) + 1).toNat
  let directory := if start > 1 then path.take (start - 1) else root
  let base := basename path
  let extension := extname base
  let name := if extension ≠ [] then base.take (base.length - extension.length) else base
  { root, directory, base, name, extension }

section
variable {front last s : Bytes} (hlast : Joint last) (hs : ∀ b ∈ s, isSlash b = true)
  (hnil : last = [] → front = []) (hfront : front = [] ∨ ∃ rest, front = rest ++ slash)

include hlast hs hnil in
theorem baseEnd_eq : baseEnd (front ++ (last ++ s)) = (front ++ last).length := by
  apply backWhile_eq (v := s) (w := []) (by simp) (by simp only [List.length_append]; omega)
    (Nat.zero_le _) hs
  right
  intro b hb
  by_cases hempty : last = []
  · rw [hempty, hnil hempty] at hb
    cases hb
  · rw [List.getLast?_append_of_ne_nil front hempty] at hb
    exact hlast b (List.mem_of_getLast? hb)

theorem slash_notMem {text : Bytes} (h : Joint text) : 47 ∉ text := fun hmem =>
  Bool.false_ne_true ((h 47 hmem).symm.trans rfl)

include hlast hfront in
theorem start_eq : (rfind 47 (front ++ last) + 1).toNat = front.length := by
  rcases hfront with rfl | ⟨rest, rfl⟩
  · rw [List.nil_append, rfind_none (slash_notMem hlast)]
    rfl
  · rw [slash, List.append_assoc, List.singleton_append, rfind_append (slash_notMem hlast),
      List.length_append]
    rfl

include hlast hs hnil hfront in
theorem basename_eq : basename (front ++ (last ++ s)) = last := by
  by_cases hpath : front ++ (last ++ s) = []
  · rw [basename, if_pos hpath]
    exact (List.append_eq_nil_iff.mp (List.append_eq_nil_iff.mp hpath).2).1.symm
  · rw [basename, if_neg hpath, if_neg (fun h => h.1 rfl)]
    simp only [ne_eq, not_true_eq_false, false_and, if_false]
    rw [baseEnd_eq hlast hs hnil, ← List.append_assoc, List.take_left' rfl, start_eq hlast hfront, slice,
      List.append_assoc, List.drop_left' rfl, List.length_append, Nat.add_sub_cancel_left,
      List.take_left' rfl]

include hlast hs hnil hfront in
theorem formatPath_eq {root directory : Bytes}
    (hroot : root = if isAbsolute (front ++ (last ++ s)) then slash else [])
    (hdirectory : directory = if front.length > 1 then front.dropLast else root) :
    formatPath slash (parse (front ++ (last ++ s))) =
      if directory = [] then last
      else if directory = root then directory ++ last
      else directory ++ slash ++ last := by
  have hstart : (rfind 47 ((front ++ (last ++ s)).take (baseEnd (front ++ (last ++ s)))) + 1).toNat =
      front.length := by
    rw [baseEnd_eq hlast hs hnil, ← List.append_assoc, List.take_left' rfl, start_eq hlast hfront]
  have hbase := basename_eq hlast hs hnil hfront
  have htake : front.length > 1 → (front ++ (last ++ s)).take (front.length - 1) = front.dropLast := by
    intro hlong
    rw [List.take_append_of_le_length (by omega), List.dropLast_eq_take]
  rw [formatPath_base slash]
  · simp only [parse, hstart, hbase, ← hroot]
    have heq : (if front.length > 1 then (front ++ (last ++ s)).take (front.length - 1) else root) =
        directory := by
      rw [hdirectory]
      split
      · exact htake ‹_›
      · rfl
    rw [heq]
    by_cases hempty : directory = []
    · have hnone : root = [] := by
        rw [hempty] at hdirectory
        split at hdirectory
        · rename_i hlong
          have := congrArg List.length hdirectory
          rw [List.length_dropLast, List.length_nil] at this
          omega
        · exact hdirectory.symm
      simp only [hempty, hnone, ne_eq, not_true_eq_false, if_false, if_true]
    · simp only [ne_eq, hempty, not_false_eq_true, if_true, if_false]
  · intro hempty
    have hempty : basename (front ++ (last ++ s)) = [] := hempty
    simp only [parse, hempty]
    exact ⟨rfl, rfl⟩

include hlast hs hnil hfront in
/-- The path without the separators at its end; one of two at its beginning is lost. -/
theorem formatPath_parse :
    ((last = [] → s = []) ∧ formatPath slash (parse (front ++ (last ++ s))) = front ++ last) ∨
      (front = [47, 47] ∧ formatPath slash (parse (front ++ (last ++ s))) = slash ++ last) ∨
      (front = [] ∧ last = [] ∧ s ≠ [] ∧ formatPath slash (parse (front ++ (last ++ s))) = slash) := by
  rw [formatPath_eq hlast hs hnil hfront rfl rfl]
  rcases hfront with rfl | ⟨rest, rfl⟩
  · rw [if_neg (show ¬ ([] : Bytes).length > 1 by decide)]
    by_cases hempty : last = []
    · subst hempty
      cases s with
      | nil => exact .inl ⟨fun _ => rfl, rfl⟩
      | cons b s =>
        have hb := hs b List.mem_cons_self
        rw [isSlash, beq_iff_eq] at hb
        subst hb
        exact .inr (.inr ⟨rfl, rfl, List.cons_ne_nil _ _, rfl⟩)
    · obtain ⟨b, rest, rfl⟩ := List.exists_cons_of_ne_nil hempty
      have hb : isSlash b = false := hlast b List.mem_cons_self
      have hroot : isAbsolute ([] ++ (b :: rest ++ s)) = false := hb
      rw [hroot]
      exact .inl ⟨fun h => absurd h hempty, rfl⟩
  · have hne : last ≠ [] := fun h => absurd (hnil h) (by simp [slash])
    have hlength : (rest ++ slash).length = rest.length + 1 := List.length_append
    have hdrop : (rest ++ slash).dropLast = rest := List.dropLast_concat
    rw [hlength, hdrop]
    by_cases hrest : rest = []
    · subst hrest
      exact .inl ⟨fun h => absurd h hne, rfl⟩
    · have hpos := List.length_pos_of_ne_nil hrest
      rw [if_pos (show rest.length + 1 > 1 by omega), if_neg hrest]
      by_cases hone : rest = if isAbsolute (rest ++ slash ++ (last ++ s)) then slash else []
      · have hslash : rest = slash := by
          split at hone
          · exact hone
          · exact absurd hone hrest
        rw [if_pos hone, hslash]
        exact .inr (.inl ⟨rfl, rfl⟩)
      · rw [if_neg hone]
        exact .inl ⟨fun h => absurd h hne, rfl⟩

end

theorem resolved_words (path : Bytes) :
    resolved path = Segments.resolve dotDot isIdle (!isAbsolute path) (Segments.words isSlash path) :=
  (Segments.resolve_filter (fun c hc => by
    rw [Bool.not_eq_false', List.isEmpty_iff] at hc
    rw [hc]
    rfl) (split path)).symm

/-- Paths with the same root and the same words, one of them perhaps with a separator at its end. -/
theorem normalize_words {path path' : Bytes} (habsolute : isAbsolute path = isAbsolute path')
    (hwords : Segments.words isSlash path = Segments.words isSlash path')
    (hends : endsSlash path' = true → endsSlash path = true) :
    normalize path = normalize path' ∨ normalize path = normalize path' ++ slash := by
  rw [normalize_eq, normalize_eq, resolved_words, resolved_words, habsolute, hwords]
  generalize Segments.resolve dotDot isIdle (!isAbsolute path') (Segments.words isSlash path') = cs
  cases hpath : endsSlash path with
  | false =>
    cases hpath' : endsSlash path' with
    | false => exact .inl rfl
    | true => exact absurd (hpath.symm.trans (hends hpath')) Bool.false_ne_true
  | true =>
    cases endsSlash path' with
    | true => exact .inl rfl
    | false =>
      cases cs with
      | nil => cases isAbsolute path' <;> simp [render]
      | cons c cs =>
        right
        simp [render]

/-- **Taking apart and putting together keeps what a path is normalized to**, up to a separator at
the end. -/
theorem normalize_formatPath (path : Bytes) :
    normalize path = normalize (formatPath slash (parse path)) ∨
      normalize path = normalize (formatPath slash (parse path)) ++ slash := by
  obtain ⟨front, last, s, rfl, hlast, hs, hnil, hfront⟩ := Segments.exists_last isSlash path
  have hfront' : front = [] ∨ ∃ rest, front = rest ++ slash := by
    refine hfront.imp_right ?_
    rintro ⟨rest, b, rfl, hb⟩
    rw [isSlash, beq_iff_eq] at hb
    exact ⟨rest, by rw [hb]; rfl⟩
  have hword : Segments.words isSlash (front ++ (last ++ s)) = Segments.words isSlash (front ++ last) := by
    rw [← List.append_assoc, Segments.words_append_seps hs]
  rcases formatPath_parse hlast hs hnil hfront' with ⟨hempty, heq⟩ | ⟨rfl, heq⟩ | ⟨rfl, rfl, hsne, heq⟩
  · rw [heq]
    by_cases hne : last = []
    · rw [hempty hne, hnil hne, hne]
      exact .inl rfl
    · apply normalize_words _ hword
      · rw [endsSlash_append hne hlast]
        exact fun h => Bool.noConfusion h
      · obtain ⟨b, rest, hcons⟩ := List.exists_cons_of_ne_nil (List.append_ne_nil_of_right_ne_nil front hne)
        rw [← List.append_assoc, hcons]
        rfl
  · have hne : last ≠ [] := fun h => absurd (hnil h) (List.cons_ne_nil _ _)
    rw [heq]
    apply normalize_words
    · rfl
    · rw [hword]
      exact Segments.words_cons rfl (slash ++ last)
    · rw [endsSlash_append hne hlast]
      exact fun h => Bool.noConfusion h
  · rw [heq, List.nil_append, List.nil_append]
    apply normalize_words
    · obtain ⟨b, rest, rfl⟩ := List.exists_cons_of_ne_nil hsne
      have hb : isSlash b = true := hs b List.mem_cons_self
      rw [isSlash, beq_iff_eq] at hb
      rw [hb]
      rfl
    · rw [Segments.words_seps hs]
      rfl
    · intro _
      obtain ⟨rest, b, rfl⟩ := (List.eq_nil_or_concat s).resolve_left hsne
      have hb := hs b (by simp)
      rw [isSlash, beq_iff_eq] at hb
      simp [endsSlash, hb]

end Posix

end TsonicNode.Path
