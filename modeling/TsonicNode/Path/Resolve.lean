import TsonicNode.Path.Normalize

/-!
# Resolving Windows paths

`resolve` and `relative` of the Windows dialect. The current directories are an
`Env`, and `lower` is a parameter. `find` runs through the paths from the last
one back, and `Found` is what it has found: a device, a tail and whether the
tail is absolute. `Site` lists the devices there are.
-/

namespace TsonicNode.Path.Win32

open TsonicNode.Lib

/-! ## The source -/

/-- `windows_resolve_root`. -/
def resolveRoot (path : Bytes) : WindowsRoot :=
  let result := windowsRoot path
  if [92, 92, 63, 92] <+: result.device ∨ [92, 92, 46, 92] <+: result.device then
    { result with device := result.device.take 3, tailStart := 4 }
  else result

/-- `cwd()`, and the current directories of the drives (`environment("=" + device)`). -/
structure Env where
  cwd : Bytes
  drive : Bytes → Option Bytes

/-- What `_resolve` has found so far. -/
structure Found where
  device : Bytes := []
  tail : Bytes := []
  absolute : Bool := false

namespace Found

variable (lower : Bytes → Bytes)

/-- One more path in front. -/
def take (found : Found) (part : Bytes) : Found :=
  if part = [] then found
  else
    let root := resolveRoot part
    if root.device ≠ [] ∧ found.device ≠ [] ∧ lower found.device ≠ lower root.device then found
    else
      let device := if found.device = [] then root.device else found.device
      if found.absolute then { found with device }
      else
        { device, tail := part.drop root.tailStart ++ separator ++ found.tail, absolute := root.absolute }

def done (found : Found) : Bool := found.absolute && found.device != []

/-- The loop breaks when a device and an absolute path are found. -/
def gather (found : Found) (part : Bytes) : Found := if found.done then found else found.take lower part

def components (found : Found) : List Bytes := parts found.tail (!found.absolute)

def written (found : Found) : Bytes :=
  let result := found.device ++ (if found.absolute then separator else []) ++ joinParts found.components
  if result = [] then dot else result

end Found

/-- The directory of the device that was found, or the current one. -/
def Env.directory (env : Env) (lower : Bytes → Bytes) (device : Bytes) : Bytes :=
  if device = [] then env.cwd
  else
    let part := match env.drive device with
      | some selected => if selected = [] then env.cwd else selected
      | none => env.cwd
    if 3 ≤ part.length ∧ part[2]? = some 92 ∧ lower (part.take 2) ≠ lower device then
      device ++ separator
    else part

/-- The loop of `_resolve`. -/
def find (env : Env) (lower : Bytes → Bytes) (parts : List Bytes) : Found :=
  let found := parts.reverse.foldl (Found.gather lower) {}
  found.gather lower (env.directory lower found.device)

/-- `resolve`. -/
def resolve (env : Env) (lower : Bytes → Bytes) (parts : List Bytes) : Bytes :=
  (find env lower parts).written

/-- How many components two tails share. -/
def shared (lower : Bytes → Bytes) : List Bytes → List Bytes → Nat
  | a :: source, b :: target => if lower a = lower b then shared lower source target + 1 else 0
  | _, _ => 0

def relative (env : Env) (lower : Bytes → Bytes) (fromPath toPath : Bytes) : Bytes :=
  let source := resolve env lower [fromPath]
  let target := resolve env lower [toPath]
  let sourceRoot := windowsRoot source
  let targetRoot := windowsRoot target
  if lower sourceRoot.device ≠ lower targetRoot.device then target
  else
    let sourceTail := parts (source.drop sourceRoot.tailStart) false
    let targetTail := parts (target.drop targetRoot.tailStart) false
    let common := shared lower sourceTail targetTail
    if common = 0 ∧ sourceRoot.device = [] ∧ sourceTail ≠ [] ∧ targetTail ≠ [] then target
    else
      joinParts (List.replicate (sourceTail.length - common) dotDot ++ targetTail.drop common)

/-! ## Devices -/

/-- The host of a namespace. -/
def isSpace (host : Bytes) : Prop := host = [63] ∨ host = [46]

/-- The devices of a resolved path; a share and a namespace are absolute. -/
inductive Site : Bytes → Bool → Prop
  | none (absolute : Bool) : Site [] absolute
  | drive (letter : UInt8) (absolute : Bool) (h : isDrive letter = true) : Site [letter, 58] absolute
  | share (host share : Bytes) (hhost : Joint host) (hshare : Joint share) (hne : host ≠ [])
      (hsne : share ≠ []) (hname : ¬ isSpace host) : Site ([92, 92] ++ host ++ [92] ++ share) true
  | space (host : Bytes) (h : isSpace host) : Site ([92, 92] ++ host) true

theorem Site.absolute {device : Bytes} {absolute : Bool} (h : Site device absolute) :
    Site device true := by
  cases h with
  | none => exact .none true
  | drive letter _ h => exact .drive letter true h
  | share host share hhost hshare hne hsne hname => exact .share host share hhost hshare hne hsne hname
  | space host h => exact .space host h

theorem resolveRoot_other {path device : Bytes} {tailStart : Nat} {absolute : Bool}
    (h : (windowsRoot path).Is device tailStart absolute false)
    (hspace : ¬ ([92, 92, 63, 92] <+: device ∨ [92, 92, 46, 92] <+: device)) :
    (resolveRoot path).Is device tailStart absolute false := by
  rw [← h.device] at hspace
  rw [resolveRoot]
  rwa [if_neg hspace]

theorem joint_isSpace {host : Bytes} (h : isSpace host) : Joint host := by
  rcases h with rfl | rfl <;> · intro b hb; rw [List.mem_singleton.mp hb]; rfl

/-- The device of a share begins no namespace. -/
theorem share_begins {host share : Bytes} (hhost : Joint host) (hname : ¬ isSpace host) :
    ¬ ([92, 92, 63, 92] <+: [92, 92] ++ host ++ [92] ++ share ∨
      [92, 92, 46, 92] <+: [92, 92] ++ host ++ [92] ++ share) := by
  have hsplit : ∀ b : UInt8, isSeparator b = false →
      [92, 92, b, 92] <+: [92, 92] ++ host ++ [92] ++ share → host = [b] := by
    intro b hb hprefix
    obtain ⟨rest, hrest⟩ := hprefix
    have heq : b :: 92 :: rest = host ++ 92 :: share := by simpa using hrest
    cases host with
    | nil =>
      rw [List.nil_append, List.cons.injEq] at heq
      rw [heq.1] at hb
      cases hb
    | cons c host =>
      rw [List.cons_append, List.cons.injEq] at heq
      cases host with
      | nil => rw [heq.1]
      | cons d host =>
        rw [List.cons_append, List.cons.injEq] at heq
        have := hhost d (by simp)
        rw [← heq.2.1] at this
        cases this
  rintro (h | h)
  · exact hname (.inl (hsplit 63 rfl h))
  · exact hname (.inr (hsplit 46 rfl h))

theorem resolveRoot_named {path host share : Bytes} {shareStart shareEnd displayEnd : Nat}
    (h : windowsRoot path = namedRoot host share shareStart shareEnd displayEnd false)
    (hhost : Joint host) (hshare : Joint share) (hne : host ≠ []) (hsne : share ≠ []) :
    Site (resolveRoot path).device (resolveRoot path).absolute := by
  have hroot : (windowsRoot path).Is ([92, 92] ++ host ++ [92] ++ share) shareEnd true false := by
    rw [h, namedRoot, if_neg fun hand => Bool.false_ne_true hand.1]
    exact ⟨rfl, rfl, rfl, rfl⟩
  by_cases hspace : isSpace host
  · have hdevice : (resolveRoot path).device = [92, 92] ++ host := by
      rw [resolveRoot]
      rw [hroot.device]
      rcases hspace with rfl | rfl
      · rw [if_pos (.inl ⟨share, rfl⟩)]
        rfl
      · rw [if_pos (.inr ⟨share, rfl⟩)]
        rfl
    have habsolute : (resolveRoot path).absolute = true := by
      rw [resolveRoot]
      split <;> exact hroot.absolute
    rw [hdevice, habsolute]
    exact .space host hspace
  · have hresolve := resolveRoot_other hroot (share_begins hhost hspace)
    rw [hresolve.device, hresolve.absolute]
    exact .share host share hhost hshare hne hsne hspace

theorem resolveRoot_plain {path : Bytes} (h : Loose path) : (resolveRoot path).Is [] 0 false false := by
  refine resolveRoot_other ?_ (by decide)
  cases path with
  | nil => exact ⟨rfl, rfl, rfl, rfl⟩
  | cons first rest =>
    have hfirst : isSeparator first = false := h.1
    simp only [windowsRoot, hfirst, h.2, Bool.false_eq_true, if_false]
    exact ⟨rfl, rfl, rfl, rfl⟩

theorem drive_begins (letter : UInt8) :
    ¬ ([92, 92, 63, 92] <+: [letter, 58] ∨ [92, 92, 46, 92] <+: [letter, 58]) := by
  rintro (⟨rest, h⟩ | ⟨rest, h⟩) <;> cases congrArg List.length h

/-- Each path has one of the devices. -/
theorem resolveRoot_site (path : Bytes) :
    Site (resolveRoot path).device (resolveRoot path).absolute := by
  cases hfirst : path.head?.any isSeparator with
  | true =>
    cases path with
    | nil => cases hfirst
    | cons first rest =>
      have hslash : ∀ root : (windowsRoot (first :: rest)).Is [] 1 true false,
          Site (resolveRoot (first :: rest)).device (resolveRoot (first :: rest)).absolute := by
        intro root
        have hresolve := resolveRoot_other root (by decide)
        rw [hresolve.device, hresolve.absolute]
        exact .none true
      cases hsecond : rest.head?.any isSeparator with
      | false => exact hslash (root_slash hfirst hsecond)
      | true =>
        have hroot : windowsRoot (first :: rest) = sharedRoot (first :: rest) false := by
          have hsep : isSeparator first = true := hfirst
          simp only [windowsRoot, hsep, hsecond, if_true]
        rcases sharedRoot_cases (first :: rest) false with
          h | ⟨_, _, _, _, _, hhost, hshare, hne, hsne, hnamed⟩
        · exact hslash (hroot ▸ h)
        · exact resolveRoot_named (hroot.trans hnamed) hhost hshare hne hsne
  | false =>
    cases hdrive : driveLike path with
    | true =>
      obtain ⟨letter, rest, rfl, hletter⟩ := driveLike_spec hdrive
      have hresolve := resolveRoot_other (windowsRoot_drive hletter rest false) (drive_begins letter)
      rw [hresolve.device, hresolve.absolute]
      exact .drive letter _ hletter
    | false =>
      have hresolve := resolveRoot_plain ⟨hfirst, hdrive⟩
      rw [hresolve.device, hresolve.absolute]
      exact .none false

end TsonicNode.Path.Win32
