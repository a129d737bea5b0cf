import TsonicNode.Lib.Http
import TsonicNode.Path.Resolve

/-!
# Relative Windows paths

When the relative path from one path to another leads there. `Viewed` is how the
written path of a place is read again; `find_relative` walks from a place along
a relative path, and `resolve_written` reads the path of a place behind another
path. `Comparable` leaves out what `relative` cannot write: a target without a
device where the source has one, the bare root of a namespace, and a way on
whose first component reads as a drive.
-/

namespace TsonicNode.Path.Win32

open TsonicNode.Lib

/-! ## Letter case -/

/-- What is assumed of `lower()`: separators and the hosts of namespaces stand for themselves and
come from nothing else, what they part is lowered apart, and nothing is lowered to nothing. -/
structure Lowering (lower : Bytes → Bytes) : Prop where
  mark : ∀ (x : Bytes) (b : UInt8) (y : Bytes), b ∈ [92, 63, 46] →
    lower (x ++ b :: y) = lower x ++ b :: lower y
  mem : ∀ (x : Bytes) (b : UInt8), b ∈ [92, 63, 46] → b ∈ lower x → b ∈ x
  nil : ∀ x : Bytes, lower x = [] ↔ x = []

/-- Components, each behind a separator. -/
def separated (cs : List Bytes) : Bytes := cs.flatMap fun c => 92 :: c

theorem separated_cons (c : Bytes) (cs : List Bytes) : separated (c :: cs) = 92 :: (c ++ separated cs) := rfl

/-- Components behind a root. -/
def below (cs : List Bytes) : Bytes := if cs = [] then separator else separated cs

namespace Lowering

variable {lower : Bytes → Bytes} (h : Lowering lower)

include h

theorem lower_nil : lower [] = [] := (h.nil []).mpr rfl

theorem separated (x : Bytes) (cs : List Bytes) :
    lower (x ++ Win32.separated cs) = lower x ++ Win32.separated (cs.map lower) := by
  induction cs generalizing x with
  | nil => simp [Win32.separated]
  | cons c cs ih =>
    rw [separated_cons, h.mark x 92 _ (by decide), ih c, List.map_cons, separated_cons]

theorem below (x : Bytes) (cs : List Bytes) : lower (x ++ Win32.below cs) = lower x ++ Win32.below (cs.map lower) := by
  unfold Win32.below
  by_cases hcs : cs = []
  · rw [if_pos hcs, if_pos (by rw [hcs]; rfl), separator, h.mark x 92 [] (by decide), h.lower_nil]
  · rw [if_neg hcs, if_neg (mt List.map_eq_nil_iff.mp hcs), h.separated]

/-- The host of a namespace is lowered from nothing else. -/
theorem mark_eq {x : Bytes} {b : UInt8} (hb : b ∈ [92, 63, 46]) (hx : lower x = [b]) : x = [b] := by
  obtain ⟨front, rest, rfl⟩ := List.append_of_mem (h.mem x b hb (by rw [hx]; exact List.mem_cons_self))
  rw [h.mark front b rest hb] at hx
  have hlength := congrArg List.length hx
  rw [List.length_append, List.length_cons, List.length_singleton] at hlength
  have hfront : lower front = [] := List.length_eq_zero_iff.mp (by omega)
  have hrest : lower rest = [] := List.length_eq_zero_iff.mp (by omega)
  rw [(h.nil front).mp hfront, (h.nil rest).mp hrest]
  rfl

theorem mark_self {b : UInt8} (hb : b ∈ [92, 63, 46]) : lower [b] = [b] := by
  have := h.mark [] b [] hb
  rwa [h.lower_nil] at this

/-- The host of a device is a part of it that is lowered apart. -/
theorem host_eq {host host' share share' : Bytes} (hhost : Joint host) (hhost' : Joint host')
    (heq : lower ([92, 92] ++ host ++ [92] ++ share) = lower ([92, 92] ++ host' ++ [92] ++ share')) :
    lower host = lower host' ∧ lower share = lower share' := by
  have hparts : ∀ host share : Bytes, lower ([92, 92] ++ host ++ [92] ++ share) =
      92 :: 92 :: (lower host ++ 92 :: lower share) := by
    intro host share
    have hfirst := h.mark [] 92 (92 :: (host ++ 92 :: share)) (by decide)
    have hsecond := h.mark [] 92 (host ++ 92 :: share) (by decide)
    rw [List.nil_append, h.lower_nil, List.nil_append] at hfirst hsecond
    rw [hsecond, h.mark host 92 share (by decide)] at hfirst
    simpa using hfirst
  have hjoint : ∀ host : Bytes, Joint host → 92 ∉ lower host := by
    intro host hhost hmem
    have := hhost 92 (h.mem host 92 (by decide) hmem)
    cases this
  rw [hparts, hparts, List.cons.injEq, List.cons.injEq] at heq
  have hsplit := List.append_eq_append_iff.mp heq.2.2
  rcases hsplit with ⟨more, hmore, hrest⟩ | ⟨more, hmore, hrest⟩
  · cases more with
    | nil =>
      rw [List.append_nil] at hmore
      exact ⟨hmore.symm, (List.cons.inj hrest).2⟩
    | cons b more =>
      rw [List.cons_append, List.cons.injEq] at hrest
      rw [← hrest.1] at hmore
      exact absurd (by rw [hmore]; simp) (hjoint host' hhost')
  · cases more with
    | nil =>
      rw [List.append_nil] at hmore
      exact ⟨hmore, (List.cons.inj hrest).2.symm⟩
    | cons b more =>
      rw [List.cons_append, List.cons.injEq] at hrest
      rw [← hrest.1] at hmore
      exact absurd (by rw [hmore]; simp) (hjoint host hhost)

end Lowering

/-! ## What is found -/

namespace Found

variable {lower : Bytes → Bytes}

theorem take_site {found : Found} (h : Site found.device found.absolute) (part : Bytes) :
    Site (found.take lower part).device (found.take lower part).absolute := by
  have hroot := resolveRoot_site part
  unfold take
  dsimp only
  split_ifs with hempty hskip habsolute hdevice hdevice
  · exact h
  · exact h
  · show Site (resolveRoot part).device found.absolute
    rw [habsolute]
    exact hroot.absolute
  · exact h
  · exact hroot
  · show Site found.device (resolveRoot part).absolute
    rw [Bool.not_eq_true] at habsolute
    rw [habsolute] at h
    cases (resolveRoot part).absolute with
    | true => exact h.absolute
    | false => exact h

theorem gather_site {found : Found} (h : Site found.device found.absolute) (part : Bytes) :
    Site (found.gather lower part).device (found.gather lower part).absolute := by
  unfold gather
  split
  · exact h
  · exact take_site h part

/-- More tail behind. -/
def behind (found : Found) (tail : Bytes) : Found := { found with tail := found.tail ++ tail }

theorem take_behind (found : Found) (part tail : Bytes) :
    (found.behind tail).take lower part = (found.take lower part).behind tail := by
  unfold take behind
  dsimp only
  split_ifs <;> simp

theorem gather_behind (found : Found) (part tail : Bytes) :
    (found.behind tail).gather lower part = (found.gather lower part).behind tail := by
  unfold gather
  show (if found.done = true then found.behind tail else (found.behind tail).take lower part) = _
  split
  · rfl
  · exact take_behind found part tail

/-- A tail is empty, or a separator ends it. -/
def Ended (found : Found) : Prop := found.tail = [] ∨ ∃ front, found.tail = front ++ separator

theorem take_ended {found : Found} (h : found.Ended) (part : Bytes) : (found.take lower part).Ended := by
  unfold take
  dsimp only
  split_ifs
  · exact h
  · exact h
  · exact h
  · exact h
  all_goals
    right
    rcases h with h | ⟨front, h⟩
    · exact ⟨part.drop (resolveRoot part).tailStart, by rw [h, List.append_nil]⟩
    · exact ⟨part.drop (resolveRoot part).tailStart ++ separator ++ front, by rw [h]; simp⟩

theorem gather_ended {found : Found} (h : found.Ended) (part : Bytes) : (found.gather lower part).Ended := by
  unfold gather
  split
  · exact h
  · exact take_ended h part

/-- Where no device was found, no path has one. -/
theorem take_device {found : Found} {part : Bytes} (h : (found.take lower part).device = []) :
    found.device = [] ∧ (part = [] ∨ (resolveRoot part).device = []) := by
  unfold take at h
  dsimp only at h
  split_ifs at h with hempty hskip habsolute hdevice hdevice
  · exact ⟨h, .inl hempty⟩
  · exact absurd h hskip.2.1
  · exact ⟨hdevice, .inr h⟩
  · exact absurd h hdevice
  · exact ⟨hdevice, .inr h⟩
  · exact absurd h hdevice

theorem gather_device {found : Found} {part : Bytes} (h : (found.gather lower part).device = []) :
    found.device = [] ∧ (part = [] ∨ (resolveRoot part).device = []) := by
  unfold gather at h
  split at h
  · rename_i hdone
    rw [done, h] at hdone
    simp at hdone
  · exact take_device h

/-- An absolute path without a device stays what it is behind paths without one. -/
theorem gather_deviceless {found : Found} (hdevice : found.device = []) (habsolute : found.absolute = true)
    {part : Bytes} (hpart : part = [] ∨ (resolveRoot part).device = []) :
    found.gather lower part = found := by
  obtain ⟨device, tail, absolute⟩ := found
  obtain rfl : device = [] := hdevice
  obtain rfl : absolute = true := habsolute
  rcases hpart with rfl | hpart
  · rfl
  · unfold gather take
    simp [done, hpart]

end Found

section Find

variable {env : Env} {lower : Bytes → Bytes}

theorem find_one (path : Bytes) : find env lower [path] =
    (Found.gather lower {} path).gather lower
      (env.directory lower (Found.gather lower {} path).device) := rfl

theorem find_two (path rel : Bytes) : find env lower [path, rel] =
    ((Found.gather lower {} rel).gather lower path).gather lower
      (env.directory lower ((Found.gather lower {} rel).gather lower path).device) := rfl

theorem find_site (path : Bytes) :
    Site (find env lower [path]).device (find env lower [path]).absolute := by
  have hnone : Site ({} : Found).device ({} : Found).absolute := .none false
  rw [find_one]
  exact Found.gather_site (Found.gather_site hnone path) _

theorem find_ended (path : Bytes) : (find env lower [path]).Ended := by
  have hnone : ({} : Found).Ended := .inl rfl
  rw [find_one]
  exact Found.gather_ended (Found.gather_ended hnone path) _

/-- Behind a relative path without a device nothing is found but its tail. -/
theorem find_relative {rel : Bytes} (hne : rel ≠ []) (hloose : Loose rel) (path : Bytes) :
    find env lower [path, rel] = (find env lower [path]).behind (rel ++ separator) := by
  have hroot := resolveRoot_plain hloose
  have hfirst : Found.gather lower {} rel = Found.behind {} (rel ++ separator) := by
    show Found.take lower {} rel = _
    unfold Found.take
    dsimp only
    rw [if_neg hne, if_neg fun h => h.1 hroot.device, if_pos rfl, if_neg Bool.false_ne_true, hroot.device,
      hroot.tailStart, hroot.absolute]
    simp [Found.behind]
  rw [find_two, hfirst, Found.gather_behind, Found.gather_behind]
  rfl

end Find

/-! ## Components -/

theorem parts_eq_visit (path : Bytes) :
    parts path false = (split path).foldl (Segments.visit dotDot isIdle) [] :=
  Segments.resolve_eq_visit isIdle_dotDot (split path)

theorem parts_separator (path : Bytes) (allowParent : Bool) :
    parts (path ++ separator) allowParent = parts path allowParent :=
  parts_append_trailer path allowParent true

/-- A relative tail is walked from the place in front of it. -/
theorem Found.components_behind {found : Found} (habsolute : found.absolute = true)
    (hended : found.Ended) (rel : Bytes) :
    (found.behind (rel ++ separator)).components =
      (split rel).foldl (Segments.visit dotDot isIdle) found.components := by
  have hcomponents : ∀ tail, parts tail (!found.absolute) = parts tail false := by
    intro tail
    rw [habsolute]
    rfl
  show parts (found.tail ++ (rel ++ separator)) (!found.absolute) = _
  rw [components, hcomponents, hcomponents, ← List.append_assoc, parts_separator]
  rcases hended with h | ⟨front, h⟩
  · rw [h, List.nil_append]
    exact parts_eq_visit rel
  · rw [h, parts_separator, parts_eq_visit, parts_eq_visit front, separator, List.append_assoc,
      List.singleton_append, split_cons_sep (by decide), List.foldl_append]

theorem clean_tail {cs : List Bytes} {c : Bytes} (h : Clean false (c :: cs)) : Clean false cs where
  settled := ⟨0, cs, rfl, fun _ => rfl, fun d hd =>
    Segments.Settled.stays h.settled d (List.mem_cons_of_mem c hd)⟩
  idle d hd := h.idle d (List.mem_cons_of_mem c hd)
  joint d hd := h.joint d (List.mem_cons_of_mem c hd)

theorem clean_behind {cs ds : List Bytes} (h : Clean false (cs ++ ds)) : Clean false ds := by
  induction cs with
  | nil => exact h
  | cons c cs ih => exact ih (clean_tail h)

theorem parts_joinParts {cs : List Bytes} (h : Clean false cs) : parts (joinParts cs) false = cs := by
  have htail : normalTail cs true false = joinParts cs := by
    cases cs with
    | nil => rfl
    | cons c cs =>
      rw [normalTail_cons (h.ne_nil c List.mem_cons_self), joinParts_cons (h.ne_nil c List.mem_cons_self)]
      simp [trailer]
  have := @parts_normalTail true cs h false
  rwa [htail] at this

/-- Components behind a separator are read again. -/
theorem separator_joinParts {cs : List Bytes} (h : ∀ c ∈ cs, c ≠ []) :
    92 :: joinParts cs = below cs := by
  cases cs with
  | nil => rfl
  | cons c cs =>
    rw [joinParts_cons (h c List.mem_cons_self)]
    rfl

theorem parts_below {cs : List Bytes} (h : Clean false cs) : parts (below cs) false = cs := by
  rw [← separator_joinParts h.ne_nil, parts_sep_cons (by decide), parts_joinParts h]

theorem parts_separated {cs : List Bytes} (h : Clean false cs) : parts (separated cs) false = cs := by
  cases cs with
  | nil => decide
  | cons c cs =>
    have := parts_below h
    rwa [below, if_neg (List.cons_ne_nil c cs)] at this

theorem bound_below (cs : List Bytes) : Bound (below cs) := by
  cases cs <;> exact bound_cons (by decide) _

theorem bound_separated (cs : List Bytes) : Bound (separated cs) := by
  cases cs with
  | nil => exact bound_nil
  | cons c cs => exact bound_cons (by decide) _

theorem Found.clean {found : Found} (habsolute : found.absolute = true) : Clean false found.components := by
  show Clean false (parts found.tail (!found.absolute))
  rw [habsolute]
  exact parts_clean found.tail false

theorem Found.written_absolute {found : Found} (habsolute : found.absolute = true) :
    found.written = found.device ++ below found.components := by
  have hclean := Found.clean habsolute
  rw [written, habsolute]
  have hne : found.device ++ separator ++ joinParts found.components ≠ [] := by simp [separator]
  simp only [if_true, hne, if_false]
  rw [List.append_assoc, separator, List.singleton_append, separator_joinParts hclean.ne_nil]

/-- How the written path of a place is read again: with the components `front` in its device, the
others behind it. -/
structure Viewed (found : Found) (front rest : List Bytes) : Prop where
  components : found.components = front ++ rest
  device : (windowsRoot found.written).device = found.device ++ separated front
  tail : parts (found.written.drop (windowsRoot found.written).tailStart) false = rest
  /-- Only a namespace has a component in its device, and it has one. -/
  front : front = [] ∧ ¬ (∃ host, isSpace host ∧ found.device = [92, 92] ++ host) ∨
    ∃ c host, front = [c] ∧ isSpace host ∧ found.device = [92, 92] ++ host

/-- The root of a namespace. -/
def Found.Bare (found : Found) : Prop :=
  (∃ host, isSpace host ∧ found.device = [92, 92] ++ host) ∧ found.components = []

theorem head_joinParts {cs : List Bytes} (h : Clean false cs) :
    (joinParts cs).head?.any isSeparator = false := by
  cases cs with
  | nil => rfl
  | cons c cs =>
    obtain ⟨b, c, rfl⟩ := List.exists_cons_of_ne_nil (h.ne_nil c List.mem_cons_self)
    rw [joinParts_cons (List.cons_ne_nil b c)]
    exact h.joint (b :: c) List.mem_cons_self b List.mem_cons_self

/-- A place but for the root of a namespace is read again. -/
theorem viewed {found : Found} (habsolute : found.absolute = true)
    (hsite : Site found.device found.absolute) (hbare : ¬ found.Bare) :
    ∃ front rest, Viewed found front rest := by
  have hclean := Found.clean habsolute
  have hwritten := Found.written_absolute habsolute
  obtain ⟨device, tail, absolute⟩ := found
  obtain rfl : absolute = true := habsolute
  generalize hcs : Found.components ⟨device, tail, true⟩ = cs at hclean hwritten
  have hrest : below cs = 92 :: joinParts cs := (separator_joinParts hclean.ne_nil).symm
  have hsite : Site device true := hsite
  cases hsite with
  | none =>
    have hroot : (windowsRoot (92 :: joinParts cs)).Is [] 1 true false :=
      root_slash (by decide) (head_joinParts hclean)
    rw [hrest] at hwritten
    refine ⟨[], cs, hcs, ?_, ?_, .inl ⟨rfl, ?_⟩⟩
    · rw [hwritten]
      exact hroot.device
    · rw [hwritten, List.nil_append, hroot.tailStart]
      exact parts_joinParts hclean
    · rintro ⟨host, -, h⟩
      cases h
  | drive letter _ hletter =>
    have hroot := windowsRoot_drive hletter (92 :: joinParts cs) false
    rw [hrest] at hwritten
    refine ⟨[], cs, hcs, ?_, ?_, .inl ⟨rfl, ?_⟩⟩
    · rw [hwritten]
      exact hroot.device
    · rw [hwritten]
      have hstart : (windowsRoot ([letter, 58] ++ 92 :: joinParts cs)).tailStart = 3 := hroot.tailStart
      rw [hstart]
      exact parts_joinParts hclean
    · rintro ⟨host, -, h⟩
      rcases List.cons.inj h with ⟨-, h⟩
      rcases List.cons.inj h with ⟨h, -⟩
      cases h
  | share host share hhost hshare hne hsne hname =>
    obtain ⟨displayEnd, hroot⟩ := windowsRoot_named hhost hshare hne hsne (bound_below cs) false
    have hpath : [92, 92] ++ host ++ [92] ++ share ++ below cs = sharedPath host share (below cs) := by
      simp [sharedPath]
    rw [hpath] at hwritten
    rw [namedRoot, if_neg fun h => Bool.false_ne_true h.1] at hroot
    refine ⟨[], cs, hcs, ?_, ?_, .inl ⟨rfl, ?_⟩⟩
    · rw [hwritten, hroot]
      exact (List.append_nil _).symm
    · rw [hwritten, hroot]
      dsimp only
      rw [drop_after]
      exact parts_below hclean
    · rintro ⟨other, hother, h⟩
      refine absurd (congrArg List.length h) ?_
      have hpos := List.length_pos_of_ne_nil hne
      rcases hother with rfl | rfl <;> simp <;> omega
  | space host hhost =>
    cases cs with
    | nil => exact absurd ⟨⟨host, hhost, rfl⟩, hcs⟩ hbare
    | cons c cs =>
      have hcne := hclean.ne_nil c List.mem_cons_self
      obtain ⟨displayEnd, hroot⟩ := windowsRoot_named (joint_isSpace hhost)
        (hclean.joint c List.mem_cons_self) (by rcases hhost with rfl | rfl <;> exact List.cons_ne_nil _ _) hcne
        (bound_separated cs) false
      have hpath : [92, 92] ++ host ++ below (c :: cs) = sharedPath host c (separated cs) := by
        rw [below, if_neg (List.cons_ne_nil c cs), separated_cons]
        simp [sharedPath]
      rw [hpath] at hwritten
      rw [namedRoot, if_neg fun h => Bool.false_ne_true h.1] at hroot
      refine ⟨[c], cs, hcs, ?_, ?_, .inr ⟨c, host, rfl, hhost, rfl⟩⟩
      · rw [hwritten, hroot]
        simp [separated]
      · rw [hwritten, hroot]
        dsimp only
        rw [drop_after]
        exact parts_separated (clean_tail hclean)

/-- A place but for the root of a namespace is read again as a path to resolve. -/
theorem take_written {found : Found} (habsolute : found.absolute = true)
    (hsite : Site found.device found.absolute) (hbare : ¬ found.Bare) (lower : Bytes → Bytes) :
    (Found.take lower {} found.written).device = found.device ∧
      (Found.take lower {} found.written).absolute = true ∧
      (Found.take lower {} found.written).components = found.components := by
  have hclean := Found.clean habsolute
  have hwritten := Found.written_absolute habsolute
  have hrest := separator_joinParts hclean.ne_nil
  have hnonempty : found.written ≠ [] := by
    rw [hwritten, ← hrest]
    simp
  -- what the root of the written path has to be
  have hread : (resolveRoot found.written).device = found.device →
      (resolveRoot found.written).absolute = true →
      parts (found.written.drop (resolveRoot found.written).tailStart) false = found.components →
      (Found.take lower {} found.written).device = found.device ∧
        (Found.take lower {} found.written).absolute = true ∧
        (Found.take lower {} found.written).components = found.components := by
    intro hdevice hroot htail
    unfold Found.take
    dsimp only
    rw [if_neg hnonempty, if_neg fun h => h.2.1 rfl, if_pos rfl, if_neg Bool.false_ne_true]
    refine ⟨hdevice, hroot, ?_⟩
    show parts (_ ++ separator ++ []) (!(resolveRoot found.written).absolute) = _
    rw [hroot, List.append_nil, parts_separator]
    exact htail
  obtain ⟨device, tail, absolute⟩ := found
  obtain rfl : absolute = true := habsolute
  have hsite : Site device true := hsite
  generalize hcs : Found.components ⟨device, tail, true⟩ = cs at hclean hwritten hread hrest
  cases hsite with
  | none =>
    have hroot : (windowsRoot (92 :: joinParts cs)).Is [] 1 true false :=
      root_slash (by decide) (head_joinParts hclean)
    have hresolve := resolveRoot_other hroot (by decide)
    rw [List.nil_append, ← hrest] at hwritten
    rw [hwritten] at hread
    rw [hwritten]
    exact hread hresolve.device hresolve.absolute (by rw [hresolve.tailStart]; exact parts_joinParts hclean)
  | drive letter _ hletter =>
    have hresolve := resolveRoot_other (windowsRoot_drive hletter (92 :: joinParts cs) false)
      (drive_begins letter)
    rw [← hrest] at hwritten
    rw [hwritten] at hread
    rw [hwritten]
    exact hread hresolve.device hresolve.absolute
      (by
        have hstart : (resolveRoot ([letter, 58] ++ 92 :: joinParts cs)).tailStart = 3 := hresolve.tailStart
        rw [hstart]
        exact parts_joinParts hclean)
  | share host share hhost hshare hne hsne hname =>
    obtain ⟨displayEnd, hroot⟩ := windowsRoot_named hhost hshare hne hsne (bound_below cs) false
    have hpath : [92, 92] ++ host ++ [92] ++ share ++ below cs = sharedPath host share (below cs) := by
      simp [sharedPath]
    rw [namedRoot, if_neg fun h => Bool.false_ne_true h.1] at hroot
    have his : (windowsRoot (sharedPath host share (below cs))).Is ([92, 92] ++ host ++ [92] ++ share)
        (3 + host.length + share.length) true false := by
      rw [hroot]
      exact ⟨rfl, rfl, rfl, rfl⟩
    have hresolve := resolveRoot_other his (share_begins hhost hname)
    rw [hpath] at hwritten
    rw [hwritten] at hread
    rw [hwritten]
    exact hread hresolve.device hresolve.absolute
      (by rw [hresolve.tailStart, drop_after]; exact parts_below hclean)
  | space host hhost =>
    cases cs with
    | nil => exact absurd ⟨⟨host, hhost, rfl⟩, hcs⟩ hbare
    | cons c cs =>
      obtain ⟨displayEnd, hroot⟩ := windowsRoot_named (joint_isSpace hhost)
        (hclean.joint c List.mem_cons_self) (by rcases hhost with rfl | rfl <;> exact List.cons_ne_nil _ _)
        (hclean.ne_nil c List.mem_cons_self) (bound_separated cs) false
      have hpath : [92, 92] ++ host ++ below (c :: cs) = sharedPath host c (separated cs) := by
        rw [below, if_neg (List.cons_ne_nil c cs), separated_cons]
        simp [sharedPath]
      rw [namedRoot, if_neg fun h => Bool.false_ne_true h.1] at hroot
      have hresolve : resolveRoot (sharedPath host c (separated cs)) =
          { device := [92, 92] ++ host, tailStart := 4, displayEnd, absolute := true } := by
        rw [resolveRoot, hroot]
        rcases hhost with rfl | rfl
        · exact if_pos (.inl ⟨c, rfl⟩)
        · exact if_pos (.inr ⟨c, rfl⟩)
      rw [hpath] at hwritten
      rw [hwritten, hresolve] at hread
      rw [hwritten]
      refine hread rfl rfl ?_
      have hdrop : (sharedPath host c (separated cs)).drop 4 = c ++ separated cs := by
        rcases hhost with rfl | rfl <;> rfl
      dsimp only
      rw [hdrop, separated, ← joinParts_cons (hclean.ne_nil c List.mem_cons_self)]
      exact parts_joinParts hclean

/-- The written path of a place leads there from any path, if it has a device or neither has one. -/
theorem resolve_written {env : Env} {lower : Bytes → Bytes} {found : Found}
    (habsolute : found.absolute = true) (hsite : Site found.device found.absolute)
    (hbare : ¬ found.Bare) {path : Bytes}
    (hdevice : found.device = [] → (find env lower [path]).device = []) :
    resolve env lower [path, found.written] = found.written := by
  obtain ⟨htake, htakeAbsolute, hcomponents⟩ := take_written habsolute hsite hbare lower
  have hfind : find env lower [path, found.written] = Found.take lower {} found.written := by
    have hfirst : Found.gather lower {} found.written = Found.take lower {} found.written := rfl
    rw [find_two, hfirst]
    by_cases hnone : found.device = []
    · have hpath := hdevice hnone
      rw [hnone] at htake
      rw [find_one] at hpath
      obtain ⟨hbefore, hdirectory⟩ := Found.gather_device hpath
      obtain ⟨-, hpart⟩ := Found.gather_device hbefore
      rw [hbefore] at hdirectory
      rw [Found.gather_deviceless htake htakeAbsolute hpart, htake,
        Found.gather_deviceless htake htakeAbsolute hdirectory]
    · have hdone : (Found.take lower {} found.written).done = true := by
        rw [Found.done, htakeAbsolute, htake]
        simpa using hnone
      unfold Found.gather
      rw [if_pos hdone, if_pos hdone]
  rw [resolve, hfind, Found.written_absolute htakeAbsolute, htake, hcomponents,
    ← Found.written_absolute habsolute]

/-! ## The law -/

theorem shared_spec (lower : Bytes → Bytes) (source target : List Bytes) :
    (source.take (shared lower source target)).map lower =
      (target.take (shared lower source target)).map lower ∧
      shared lower source target ≤ source.length := by
  induction source generalizing target with
  | nil => simp [shared]
  | cons a source ih =>
    cases target with
    | nil => simp [shared]
    | cons b target =>
      rw [shared]
      split_ifs with hab
      · obtain ⟨htake, hle⟩ := ih target
        rw [List.take_succ_cons, List.take_succ_cons, List.map_cons, List.map_cons, hab, htake,
          List.length_cons]
        exact ⟨rfl, by omega⟩
      · simp

theorem shared_self (lower : Bytes → Bytes) (source : List Bytes) :
    shared lower source source = source.length := by
  induction source with
  | nil => rfl
  | cons a source ih => rw [shared, if_pos rfl, ih, List.length_cons]

/-- The pairs of places `relative` writes a way between. -/
structure Comparable (lower : Bytes → Bytes) (source target : Found) : Prop where
  sourceAbsolute : source.absolute = true
  targetAbsolute : target.absolute = true
  /-- Only from a place without a device a path without one leads to its place. -/
  device : target.device = [] → source.device = []
  /-- The root of a namespace is written as a path that is read otherwise. -/
  bare : target.Bare → source.Bare ∧ source.device = target.device
  /-- Where the way on begins at the source, it does not read as a drive. -/
  drive : lower source.device = lower target.device → ∀ front c rest,
    target.components = front ++ c :: rest →
      front.map lower = source.components.map lower → driveLike c = false

/-- Places with the same device up to letter case, read again, have namespaces alike. -/
theorem Viewed.fronts {lower : Bytes → Bytes} (hlower : Lowering lower) {source target : Found}
    {front front' rest rest' : List Bytes} (hsource : Viewed source front rest)
    (htarget : Viewed target front' rest') (hsite : Site target.device true)
    (hdevice : lower (source.device ++ separated front) = lower (target.device ++ separated front'))
    (hfront : front ≠ []) :
    front' ≠ [] ∧ front.map lower = front'.map lower ∧ lower source.device = lower target.device := by
  obtain ⟨rfl, -⟩ | ⟨c, host, rfl, hhost, hspace⟩ := hsource.front
  · exact absurd rfl hfront
  have hself : lower host = host := by
    rcases hhost with rfl | rfl <;> exact hlower.mark_self (by decide)
  have hpath : ∀ (host c : Bytes), [92, 92] ++ host ++ separated [c] = [92, 92] ++ host ++ [92] ++ c := by
    intro host c
    simp [separated]
  rw [hspace, hpath] at hdevice
  obtain ⟨rfl, hnot⟩ | ⟨c', host', rfl, hhost', hspace'⟩ := htarget.front
  · exfalso
    rw [separated, List.flatMap_nil, List.append_nil] at hdevice
    have hmem : 92 ∈ target.device := by
      refine hlower.mem _ 92 (by decide) ?_
      rw [← hdevice]
      have := hlower.mark [] 92 (92 :: (host ++ 92 :: c)) (by decide)
      rw [show [92, 92] ++ host ++ [92] ++ c = [] ++ 92 :: 92 :: (host ++ 92 :: c) by simp, this]
      simp
    generalize hdev : target.device = device at hsite hdevice hmem hnot
    cases hsite with
    | none => cases hmem
    | drive letter _ hletter =>
      rcases List.mem_cons.mp hmem with rfl | hmem
      · cases hletter
      · cases List.mem_singleton.mp hmem
    | share other share hother hshare hne hsne hname =>
      have hlow := (hlower.host_eq (joint_isSpace hhost) hother hdevice).1
      rw [hself] at hlow
      refine hname ?_
      rcases hhost with rfl | rfl
      · exact .inl (hlower.mark_eq (by decide) hlow.symm)
      · exact .inr (hlower.mark_eq (by decide) hlow.symm)
    | space other hother => exact hnot ⟨other, hother, rfl⟩
  · rw [hspace', hpath] at hdevice
    obtain ⟨hlow, hc⟩ := hlower.host_eq (joint_isSpace hhost) (joint_isSpace hhost') hdevice
    have hself' : lower host' = host' := by
      rcases hhost' with rfl | rfl <;> exact hlower.mark_self (by decide)
    rw [hself, hself'] at hlow
    refine ⟨List.cons_ne_nil _ _, by rw [List.map_singleton, List.map_singleton, hc], ?_⟩
    rw [hspace, hspace', hlow]

section Law

variable {env : Env} {lower : Bytes → Bytes} (hlower : Lowering lower)

/-- From the source back to what is shared, and on to the target. -/
theorem find_back {path : Bytes} {front common back rest : List Bytes}
    (habsolute : (find env lower [path]).absolute = true)
    (hcomponents : (find env lower [path]).components = front ++ (common ++ back))
    (hrest : Clean false rest)
    (hloose : back = [] → ∀ c ∈ rest.head?, driveLike c = false) :
    (find env lower [path, joinParts (List.replicate back.length dotDot ++ rest)]).written =
      (find env lower [path]).device ++ below (front ++ (common ++ rest)) := by
  have hend : ∀ found : Found, found.absolute = true → found.device = (find env lower [path]).device →
      found.components = front ++ (common ++ rest) →
      found.written = (find env lower [path]).device ++ below (front ++ (common ++ rest)) := by
    intro found hfound hdevice hfoundComponents
    rw [Found.written_absolute hfound, hdevice, hfoundComponents]
  cases hway : List.replicate back.length dotDot ++ rest with
  | nil =>
    obtain ⟨hback, rfl⟩ := List.append_eq_nil_iff.mp hway
    obtain rfl : back = [] := by
      cases back with
      | nil => rfl
      | cons c back => cases hback
    exact hend _ habsolute rfl hcomponents
  | cons c cs =>
    have hmem : ∀ d ∈ c :: cs, d ≠ [] ∧ Joint d := by
      intro d hd
      rw [← hway] at hd
      rcases List.mem_append.mp hd with hd | hd
      · rw [List.eq_of_mem_replicate hd]
        exact ⟨by decide, fun b hb => by
          simp only [dotDot, List.mem_cons, List.not_mem_nil, or_false, or_self] at hb
          rw [hb]
          rfl⟩
      · exact ⟨hrest.ne_nil d hd, hrest.joint d hd⟩
    have hfirst : driveLike c = false := by
      cases back with
      | nil =>
        rw [List.length_nil, List.replicate_zero, List.nil_append] at hway
        exact hloose rfl c (by rw [hway]; rfl)
      | cons d back =>
        rw [List.length_cons, List.replicate_succ, List.cons_append, List.cons.injEq] at hway
        rw [← hway.1]
        decide
    have hjoin := joinParts_cons (hmem c List.mem_cons_self).1 cs
    have hsplit : split (joinParts (c :: cs)) = c :: cs := by
      rw [hjoin]
      exact split_joined (hmem c List.mem_cons_self).2 fun d hd => (hmem d (List.mem_cons_of_mem c hd)).2
    have hplain : Loose (joinParts (c :: cs)) := by
      rw [hjoin]
      refine ⟨?_, ?_⟩
      · obtain ⟨b, c, rfl⟩ := List.exists_cons_of_ne_nil (hmem c List.mem_cons_self).1
        exact (hmem (b :: c) List.mem_cons_self).2 b List.mem_cons_self
      · show driveLike (c ++ separated cs) = false
        rw [driveLike_append (hmem c List.mem_cons_self).1 (bound_separated cs)]
        exact hfirst
    have hne : joinParts (c :: cs) ≠ [] := by
      rw [hjoin]
      exact fun h => (hmem c List.mem_cons_self).1 (List.append_eq_nil_iff.mp h).1
    rw [find_relative hne hplain]
    refine hend _ habsolute rfl ?_
    rw [Found.components_behind habsolute (find_ended path), hsplit, ← hway, List.foldl_append,
      hcomponents, ← List.append_assoc, Segments.visits_up isIdle_dotDot,
      Segments.visits_stays (Segments.Settled.stays hrest.settled), List.append_assoc]

/-- The bare root of a namespace is read as a separator and a host. -/
theorem windowsRoot_bare {found : Found} (habsolute : found.absolute = true) (hbare : found.Bare) :
    (windowsRoot found.written).device = [] := by
  obtain ⟨⟨host, hhost, hdevice⟩, hcomponents⟩ := hbare
  rw [Found.written_absolute habsolute, hdevice, hcomponents]
  rcases hhost with rfl | rfl <;> decide

include hlower in
/-- Between places whose devices are not alike the way is the whole target. -/
theorem lower_device_bare {source target : Found} (habsolute : source.absolute = true) (hbare : source.Bare)
    (hdevice : target.device = [] → source.device = []) {front rest : List Bytes}
    (htarget : Viewed target front rest) :
    lower (windowsRoot source.written).device ≠ lower (windowsRoot target.written).device := by
  rw [windowsRoot_bare habsolute hbare, htarget.device, hlower.lower_nil]
  intro h
  obtain ⟨⟨host, -, hsource⟩, -⟩ := hbare
  have hnil := List.append_eq_nil_iff.mp ((hlower.nil _).mp h.symm)
  have := hdevice hnil.1
  rw [hsource] at this
  cases this

/-- Between paths that resolve alike there is nothing to write. -/
theorem relative_self {fromPath toPath : Bytes}
    (h : resolve env lower [fromPath] = resolve env lower [toPath]) :
    relative env lower fromPath toPath = [] := by
  unfold relative
  dsimp only
  rw [h, if_neg (not_not_intro rfl), shared_self, Nat.sub_self, List.drop_length, List.replicate_zero,
    List.append_nil]
  exact if_neg fun hand => hand.2.2.1 (List.length_eq_zero_iff.mp hand.1)

/-- The relative path between two places, by how each of them is read. -/
theorem relative_viewed {fromPath toPath : Bytes} {front front' rest rest' : List Bytes}
    (hsource : Viewed (find env lower [fromPath]) front rest)
    (htarget : Viewed (find env lower [toPath]) front' rest')
    (hdevice : lower ((find env lower [fromPath]).device ++ separated front) =
      lower ((find env lower [toPath]).device ++ separated front')) :
    (relative env lower fromPath toPath = (find env lower [toPath]).written ∨
      relative env lower fromPath toPath = joinParts
        (List.replicate (rest.length - shared lower rest rest') dotDot ++
          rest'.drop (shared lower rest rest'))) := by
  have hresolve : ∀ path, resolve env lower [path] = (find env lower [path]).written := fun _ => rfl
  unfold relative
  dsimp only
  rw [hresolve, hresolve, hsource.device, htarget.device, hsource.tail, htarget.tail,
    if_neg (not_not_intro hdevice)]
  split_ifs
  · exact .inl rfl
  · exact .inr rfl

include hlower in
/-- From a path the relative path to another leads, up to letter case, where that one does. -/
theorem relative_leads {fromPath toPath : Bytes}
    (h : Comparable lower (find env lower [fromPath]) (find env lower [toPath])) :
    lower (resolve env lower [fromPath, relative env lower fromPath toPath]) =
      lower (resolve env lower [toPath]) := by
  have hresolve : ∀ path, resolve env lower [path] = (find env lower [path]).written := fun _ => rfl
  have hsourceSite := @find_site env lower fromPath
  have htargetSite := @find_site env lower toPath
  by_cases hbare : (find env lower [toPath]).Bare
  · obtain ⟨hsourceBare, hdevice⟩ := h.bare hbare
    have hsame : resolve env lower [fromPath] = resolve env lower [toPath] := by
      rw [hresolve, hresolve, Found.written_absolute h.sourceAbsolute,
        Found.written_absolute h.targetAbsolute, hdevice, hsourceBare.2, hbare.2]
    rw [relative_self hsame]
    exact congrArg lower hsame
  have hwhole : relative env lower fromPath toPath = (find env lower [toPath]).written →
      lower (resolve env lower [fromPath, relative env lower fromPath toPath]) =
        lower (resolve env lower [toPath]) := by
    intro hrelative
    rw [hrelative, resolve_written h.targetAbsolute htargetSite hbare h.device, hresolve]
  obtain ⟨front', rest', htarget⟩ := viewed h.targetAbsolute htargetSite hbare
  by_cases hsourceBare : (find env lower [fromPath]).Bare
  · exact hwhole (if_pos (lower_device_bare hlower h.sourceAbsolute hsourceBare h.device htarget))
  obtain ⟨front, rest, hsource⟩ := viewed h.sourceAbsolute hsourceSite hsourceBare
  by_cases hdevices : lower ((find env lower [fromPath]).device ++ separated front) =
      lower ((find env lower [toPath]).device ++ separated front')
  swap
  · refine hwhole (if_pos ?_)
    rw [hresolve, hresolve, hsource.device, htarget.device]
    exact hdevices
  rcases relative_viewed hsource htarget hdevices with hrelative | hrelative
  · exact hwhole hrelative
  rw [h.sourceAbsolute] at hsourceSite
  rw [h.targetAbsolute] at htargetSite
  have hfronts : front.map lower = front'.map lower ∧
      lower (find env lower [fromPath]).device = lower (find env lower [toPath]).device := by
    by_cases hfront : front = []
    · have hfront' : front' = [] := by
        by_contra hne
        exact (htarget.fronts hlower hsource hsourceSite hdevices.symm hne).1 hfront
      rw [hfront, hfront', separated, List.flatMap_nil, List.append_nil, List.append_nil] at hdevices
      rw [hfront, hfront']
      exact ⟨rfl, hdevices⟩
    · exact (hsource.fronts hlower htarget htargetSite hdevices hfront).2
  obtain ⟨hfrontLower, hdevice⟩ := hfronts
  obtain ⟨hshared, -⟩ := shared_spec lower rest rest'
  generalize shared lower rest rest' = count at hrelative hshared
  have hsourceComponents : (find env lower [fromPath]).components =
      front ++ (rest.take count ++ rest.drop count) := by
    rw [List.take_append_drop, hsource.components]
  have htargetComponents : (find env lower [toPath]).components =
      front' ++ (rest'.take count ++ rest'.drop count) := by
    rw [List.take_append_drop, htarget.components]
  have hclean : Clean false (rest'.drop count) := by
    have := Found.clean h.targetAbsolute
    rw [htargetComponents, ← List.append_assoc] at this
    exact clean_behind this
  have hloose : rest.drop count = [] → ∀ c ∈ (rest'.drop count).head?, driveLike c = false := by
    intro hnone c hc
    obtain ⟨more, hmore⟩ := List.head?_eq_some_iff.mp hc
    refine h.drive hdevice (front' ++ rest'.take count) c more ?_ ?_
    · rw [htargetComponents, hmore, List.append_assoc]
    · rw [hsourceComponents, hnone, List.append_nil, List.map_append, List.map_append, hfrontLower, hshared]
  have hback := find_back h.sourceAbsolute hsourceComponents hclean hloose
  rw [List.length_drop, ← hrelative] at hback
  calc lower (resolve env lower [fromPath, relative env lower fromPath toPath])
      = lower ((find env lower [fromPath]).device ++ below (front ++ (rest.take count ++ rest'.drop count))) :=
        congrArg lower hback
    _ = lower ((find env lower [toPath]).device ++ below (find env lower [toPath]).components) := by
        rw [hlower.below, hlower.below, hdevice, htargetComponents]
        simp only [List.map_append, hfrontLower, hshared]
    _ = lower (resolve env lower [toPath]) := by
        rw [hresolve, Found.written_absolute h.targetAbsolute]

end Law

section Ascii

open Lib.Http (ascii lower lowerByte)

/-- Text in ASCII. -/
theorem lowering_ascii : Lowering lower where
  mark x b y hb := by
    have hself : lowerByte b = b := by
      simp only [List.mem_cons, List.not_mem_nil, or_false] at hb
      rcases hb with rfl | rfl | rfl <;> rfl
    rw [lower, List.map_append, List.map_cons, hself]
    rfl
  mem x b hb hmem := by
    obtain ⟨c, hc, heq⟩ := List.mem_map.mp hmem
    rw [lowerByte] at heq
    split_ifs at heq with hletter
    · exfalso
      simp only [List.mem_cons, List.not_mem_nil, or_false] at hb
      obtain ⟨hlow, hhigh⟩ := hletter
      rcases hb with rfl | rfl | rfl <;> grind
    · exact heq ▸ hc
  nil x := List.map_eq_nil_iff

/-- From `C:\\Src\\a` to `c:\\src\\b` with the current directory `C:\\`. -/
theorem relative_leads_sibling :
    lower (resolve ⟨ascii "C:\\", fun _ => none⟩ lower
        [ascii "C:\\Src\\a",
          relative ⟨ascii "C:\\", fun _ => none⟩ lower (ascii "C:\\Src\\a") (ascii "c:\\src\\b")]) =
      lower (resolve ⟨ascii "C:\\", fun _ => none⟩ lower [ascii "c:\\src\\b"]) := by
  refine relative_leads lowering_ascii ⟨by decide, by decide, by decide, ?_, ?_⟩
  · rintro ⟨-, h⟩
    exact absurd h (by decide)
  · intro _ front c rest htarget hfront
    have hlength := congrArg List.length hfront
    have htotal := congrArg List.length htarget
    have hsource : (find ⟨ascii "C:\\", fun _ => none⟩ lower [ascii "C:\\Src\\a"]).components.length = 2 := by
      decide
    have hcount : (find ⟨ascii "C:\\", fun _ => none⟩ lower [ascii "c:\\src\\b"]).components.length = 2 := by
      decide
    rw [List.length_map, List.length_map, hsource] at hlength
    rw [hcount, List.length_append, List.length_cons] at htotal
    omega

/-- A target without a device is resolved to the device of the source; the root of a namespace and a
component that reads as a drive are not written so that they are read again. -/
theorem relative_leads_elsewhere : Lowering lower ∧
    resolve ⟨ascii "/", fun _ => none⟩ lower [ascii "C:\\a",
        relative ⟨ascii "/", fun _ => none⟩ lower (ascii "C:\\a") (ascii "\\b")] = ascii "C:\\b" ∧
      resolve ⟨ascii "/", fun _ => none⟩ lower [ascii "\\b"] = ascii "\\b" ∧
    resolve ⟨ascii "C:\\", fun _ => none⟩ lower [ascii "C:\\a",
        relative ⟨ascii "C:\\", fun _ => none⟩ lower (ascii "C:\\a") (ascii "\\\\?\\b\\..")] = ascii "C:\\?" ∧
      resolve ⟨ascii "C:\\", fun _ => none⟩ lower [ascii "\\\\?\\b\\.."] = ascii "\\\\?\\" ∧
    resolve ⟨ascii "C:\\", fun _ => none⟩ lower [ascii "C:\\",
        relative ⟨ascii "C:\\", fun _ => none⟩ lower (ascii "C:\\") (ascii "C:\\D:")] = ascii "D:\\" ∧
      resolve ⟨ascii "C:\\", fun _ => none⟩ lower [ascii "C:\\D:"] = ascii "C:\\D:" :=
  ⟨lowering_ascii, by decide, by decide, by decide, by decide, by decide, by decide⟩

end Ascii

end TsonicNode.Path.Win32
