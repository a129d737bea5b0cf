import TsonicNode.Path.Posix

/-!
# Dot segments of a legacy URL

`_remove_dots` goes through the segments from the last to the first and counts
the parents it has met and not yet used. `forward` goes from the first to the
last and takes back what it walked; `remove_dots_forward` says that both come to
the same segments.
-/

namespace TsonicNode.Url.Legacy

open TsonicNode.Lib
open TsonicNode.Path (dot dotDot)
open TsonicNode.Path.Posix (endsSlash)

def join (path : List Path.Bytes) : Path.Bytes := Segments.joined 47 path

def isDot (segment : Path.Bytes) : Bool := segment == dot

/-- What the loop of `_remove_dots` keeps. -/
structure Scan where
  reverse : List Path.Bytes := []
  parents : Nat := 0

/-- One turn of the loop. -/
def Scan.step (scan : Scan) (segment : Path.Bytes) : Scan :=
  if isDot segment then scan
  else if segment == dotDot then { scan with parents := scan.parents + 1 }
  else if scan.parents ≠ 0 then { scan with parents := scan.parents - 1 }
  else { scan with reverse := scan.reverse ++ [segment] }

/-- The loop, from the last segment to the first. -/
def scanDots (path : List Path.Bytes) : Scan := path.reverse.foldl Scan.step {}

def removeDots (path : List Path.Bytes) (rooted removeAll trailing : Bool) : List Path.Bytes :=
  let scan := scanDots path
  let reverse :=
    if !rooted && !removeAll then scan.reverse ++ List.replicate scan.parents dotDot else scan.reverse
  let result := if rooted && (reverse.isEmpty || reverse.getLast? != some []) then [[]] else []
  let result := result ++ reverse.reverse
  if trailing && !endsSlash (join result) then result ++ [[]] else result

/-- From the first segment to the last, with a stack. -/
def forward (path : List Path.Bytes) (rooted removeAll trailing : Bool) : List Path.Bytes :=
  let stack := Segments.resolve dotDot isDot true path
  let stack := if rooted || removeAll then stack.dropWhile (· == dotDot) else stack
  let stack := if rooted && stack.head? != some [] then [] :: stack else stack
  if trailing && !endsSlash (join stack) then stack ++ [[]] else stack

theorem scanDots_cons (segment : Path.Bytes) (path : List Path.Bytes) :
    scanDots (segment :: path) = (scanDots path).step segment := by
  simp [scanDots]

/-- What the stack holds is the parents left and then what was kept. -/
theorem resolve_scan (path : List Path.Bytes) :
    Segments.resolve dotDot isDot true path =
        List.replicate (scanDots path).parents dotDot ++ (scanDots path).reverse.reverse ∧
      ∀ c ∈ (scanDots path).reverse.reverse, Segments.Stays dotDot isDot c := by
  have hup : isDot dotDot = false := by decide
  induction path with
  | nil => exact ⟨rfl, by simp [scanDots]⟩
  | cons segment path ih =>
    obtain ⟨hresolve, hstays⟩ := ih
    rw [scanDots_cons]
    generalize scanDots path = scan at hresolve hstays ⊢
    unfold Scan.step
    by_cases hidle : isDot segment = true
    · rw [if_pos hidle, Segments.resolve_idle_cons hidle]
      exact ⟨hresolve, hstays⟩
    rw [if_neg hidle]
    by_cases hparent : (segment == dotDot) = true
    · rw [if_pos hparent, beq_iff_eq.mp hparent]
      exact ⟨Segments.resolve_up_cons hup hresolve hstays, hstays⟩
    have hsegment : Segments.Stays dotDot isDot segment :=
      ⟨Bool.eq_false_iff.mpr hidle, fun h => hparent (beq_iff_eq.mpr h)⟩
    rw [if_neg hparent, Segments.resolve_stays_cons hup hresolve hstays hsegment]
    by_cases hparents : scan.parents = 0
    · rw [if_pos hparents, if_neg (not_not_intro hparents), hparents]
      refine ⟨by simp, fun c hc => ?_⟩
      rcases List.mem_append.mp (List.mem_reverse.mp hc) with hc | hc
      · exact hstays c (List.mem_reverse.mpr hc)
      · rw [List.mem_singleton.mp hc]
        exact hsegment
    · rw [if_neg hparents, if_pos hparents]
      exact ⟨rfl, hstays⟩

/-- Only parents are dropped, and all of them. -/
theorem dropWhile_parents (n : Nat) {rest : List Path.Bytes}
    (h : ∀ c ∈ rest, Segments.Stays dotDot isDot c) :
    (List.replicate n dotDot ++ rest).dropWhile (· == dotDot) = rest := by
  induction n with
  | zero =>
    cases rest with
    | nil => rfl
    | cons c rest =>
      have hc : ¬(c == dotDot) = true := fun hc => (h c List.mem_cons_self).2 (beq_iff_eq.mp hc)
      exact List.dropWhile_cons_of_neg hc
  | succ n ih => exact ih

/-- What is kept, read from its end. -/
theorem reverse_parents (path : List Path.Bytes) (rooted removeAll : Bool) :
    (if !rooted && !removeAll then (scanDots path).reverse ++ List.replicate (scanDots path).parents dotDot
        else (scanDots path).reverse).reverse =
      if rooted || removeAll then (Segments.resolve dotDot isDot true path).dropWhile (· == dotDot)
        else Segments.resolve dotDot isDot true path := by
  obtain ⟨hresolve, hstays⟩ := resolve_scan path
  rw [hresolve, dropWhile_parents _ hstays]
  cases rooted <;> cases removeAll <;> simp

theorem root_head (reverse : List Path.Bytes) :
    (reverse.isEmpty || reverse.getLast? != some []) = (reverse.reverse.head? != some []) := by
  cases reverse with
  | nil => rfl
  | cons c reverse => rw [List.head?_reverse, List.isEmpty_cons, Bool.false_or]

theorem remove_dots_forward (path : List Path.Bytes) (rooted removeAll trailing : Bool) :
    removeDots path rooted removeAll trailing = forward path rooted removeAll trailing := by
  unfold removeDots forward
  simp only [root_head, reverse_parents]
  generalize (if rooted || removeAll then (Segments.resolve dotDot isDot true path).dropWhile (· == dotDot)
    else Segments.resolve dotDot isDot true path) = stack
  cases hroot : rooted && stack.head? != some [] <;> rfl

end TsonicNode.Url.Legacy
