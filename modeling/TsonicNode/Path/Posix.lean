import TsonicNode.Path.Components

/-!
# POSIX paths

`normalize`, `resolve` and `relative`. The current directory is a parameter.

A path denotes a place, the list of the names that lead there from the root:
`locate` walks it from a directory. `normalize_canonical` says what a normalized
path looks like and that it denotes the same place, and `resolve_eq` that
`resolve` writes the place its arguments lead to, from which the law of
`relative` follows.
-/

namespace TsonicNode.Path.Posix

open TsonicNode.Lib

/-! ## The functions of the source -/

def isSlash (byte : UInt8) : Bool := byte == 47

def slash : Bytes := [47]

/-- `startswith("/")`. -/
def isAbsolute (path : Bytes) : Bool := path.head? == some 47

/-- `endswith("/")`. -/
def endsSlash (path : Bytes) : Bool := path.getLast? == some 47

/-- `split("/")`. -/
def split (path : Bytes) : List Bytes := path.splitOnP isSlash

/-- `_append_component`. -/
def appendComponent (output component : Bytes) : Bytes :=
  (if output ≠ [] ∧ !endsSlash output then output ++ slash else output) ++ component

/-- `_components`. -/
def components (path : Bytes) : List Bytes := (split path).filter (· ≠ [])

def normalize (path : Bytes) : Bytes :=
  if path = [] then dot
  else
    let absolute := isAbsolute path
    let trailing := endsSlash path
    let components := (split path).foldl
      (fun components component =>
        if isIdle component then components
        else if component = dotDot then
          if components ≠ [] ∧ components.getLast? ≠ some dotDot then components.dropLast
          else if !absolute then components ++ [component]
          else components
        else components ++ [component])
      []
    let result := components.foldl appendComponent (if absolute then slash else [])
    let result := if result = [] then (if absolute then slash else dot) else result
    if trailing ∧ result ≠ slash then result ++ slash else result

/-- The loop of `resolve` over the paths from the last one on. -/
def gather : List Bytes → Bytes → Bytes
  | [], resolved => resolved
  | part :: rest, resolved =>
    if part = [] then gather rest resolved
    else
      let resolved := if resolved ≠ [] then part ++ slash ++ resolved else part
      if isAbsolute part then resolved else gather rest resolved

/-- Separators at the end are dropped, down to one byte; the path stands backwards. -/
def trimBack : Bytes → Bytes
  | last :: before :: rest => if last = 47 then trimBack (before :: rest) else last :: before :: rest
  | path => path

def resolve (cwd : Bytes) (parts : List Bytes) : Bytes :=
  let normalized := (trimBack (normalize (gather (parts.reverse ++ [cwd]) [])).reverse).reverse
  if isAbsolute normalized then normalized else slash ++ normalized

/-- How many components two lists begin with in common. -/
def shared : List Bytes → List Bytes → Nat
  | a :: source, b :: target => if a = b then shared source target + 1 else 0
  | _, _ => 0

def relative (cwd fromPath toPath : Bytes) : Bytes :=
  let source := components (resolve cwd [fromPath])
  let target := components (resolve cwd [toPath])
  let common := shared source target
  (target.drop common).foldl appendComponent
    ((List.replicate (source.length - common) dotDot).foldl appendComponent [])

/-! ## Components -/

abbrev Joint (value : Bytes) : Prop := Segments.Joint isSlash value

theorem endsSlash_append {x c : Bytes} (hne : c ≠ []) (hc : Joint c) : endsSlash (x ++ c) = false := by
  rw [endsSlash, List.getLast?_append_of_ne_nil x hne, List.getLast?_eq_some_getLast hne]
  have hlast := hc _ (List.getLast_mem hne)
  simpa [isSlash] using hlast

/-- Behind a text that ends with no separator, every component gets one in front. -/
theorem foldl_append {cs : List Bytes} (hne : ∀ c ∈ cs, c ≠ []) (hcs : ∀ c ∈ cs, Joint c)
    {output : Bytes} (houtput : output ≠ []) (hends : endsSlash output = false) :
    cs.foldl appendComponent output = output ++ cs.flatMap fun c => 47 :: c := by
  induction cs generalizing output with
  | nil => simp
  | cons c cs ih =>
    have hc := hne c List.mem_cons_self
    have happend : appendComponent output c = output ++ slash ++ c := by
      rw [appendComponent, if_pos ⟨houtput, by rw [hends]; rfl⟩]
    rw [List.foldl_cons, happend, ih (fun d hd => hne d (List.mem_cons_of_mem c hd))
      (fun d hd => hcs d (List.mem_cons_of_mem c hd)) (by simp [hc])
      (endsSlash_append hc (hcs c List.mem_cons_self))]
    simp [slash]

/-- Components written from a root or from nothing. -/
theorem foldl_root {cs : List Bytes} (hne : ∀ c ∈ cs, c ≠ []) (hcs : ∀ c ∈ cs, Joint c)
    (absolute : Bool) :
    cs.foldl appendComponent (if absolute then slash else []) =
      (if absolute then slash else []) ++ Segments.joined 47 cs := by
  cases cs with
  | nil => simp [Segments.joined]
  | cons c cs =>
    have hc := hne c List.mem_cons_self
    have happend : appendComponent (if absolute then slash else []) c =
        (if absolute then slash else []) ++ c := by
      rw [appendComponent, if_neg]
      cases absolute <;> simp [slash, endsSlash]
    rw [List.foldl_cons, happend, foldl_append (fun d hd => hne d (List.mem_cons_of_mem c hd))
      (fun d hd => hcs d (List.mem_cons_of_mem c hd)) (by simp [hc])
      (endsSlash_append hc (hcs c List.mem_cons_self)), Segments.joined]
    simp

/-! ## What normalization writes -/

/-- The components that are left. -/
def resolved (path : Bytes) : List Bytes :=
  Segments.resolve dotDot isIdle (!isAbsolute path) (split path)

/-- A list of components as a path. -/
def render (absolute trailing : Bool) (cs : List Bytes) : Bytes :=
  if cs = [] then if absolute then slash else dot ++ if trailing then slash else []
  else (if absolute then slash else []) ++ Segments.joined 47 cs ++ if trailing then slash else []

/-- What normalization leaves. -/
structure Clean (absolute : Bool) (cs : List Bytes) : Prop where
  settled : Segments.Settled dotDot isIdle (!absolute) cs
  idle : ∀ c ∈ cs, isIdle c = false
  joint : ∀ c ∈ cs, Joint c

theorem resolved_clean (path : Bytes) : Clean (isAbsolute path) (resolved path) where
  settled := Segments.resolve_settled isIdle_dotDot (split path)
  idle _ hc := (Segments.mem_resolve hc).2
  joint c hc := Segments.joint_splitOnP path c (Segments.mem_resolve hc).1

theorem Clean.ne_nil {absolute : Bool} {cs : List Bytes} (h : Clean absolute cs) :
    ∀ c ∈ cs, c ≠ [] := by
  rintro _ hc rfl
  exact Bool.noConfusion (h.idle [] hc)

theorem joined_ne_nil {c : Bytes} (hc : c ≠ []) (cs : List Bytes) : Segments.joined 47 (c :: cs) ≠ [] := by
  rw [Segments.joined]
  exact fun h => hc (List.append_eq_nil_iff.mp h).1

/-- A joined text begins with no slash. -/
theorem isAbsolute_joined {absolute : Bool} {c : Bytes} {cs : List Bytes} (h : Clean absolute (c :: cs))
    (rest : Bytes) : isAbsolute (Segments.joined 47 (c :: cs) ++ rest) = false := by
  obtain ⟨b, c, rfl⟩ := List.exists_cons_of_ne_nil (h.ne_nil c List.mem_cons_self)
  have hb := h.joint (b :: c) List.mem_cons_self b List.mem_cons_self
  simpa [Segments.joined, isAbsolute, isSlash] using hb

/-- Nor does it end with one. -/
theorem endsSlash_joined {c : Bytes} {cs : List Bytes} (hne : ∀ d ∈ c :: cs, d ≠ [])
    (hjoint : ∀ d ∈ c :: cs, Joint d) (x : Bytes) :
    endsSlash (x ++ Segments.joined 47 (c :: cs)) = false := by
  induction cs generalizing c x with
  | nil =>
    rw [Segments.joined, List.flatMap_nil, List.append_nil]
    exact endsSlash_append (hne c List.mem_cons_self) (hjoint c List.mem_cons_self)
  | cons d cs ih =>
    have hd := ih (fun e he => hne e (List.mem_cons_of_mem c he))
      (fun e he => hjoint e (List.mem_cons_of_mem c he)) (x ++ c ++ slash)
    simpa [Segments.joined, slash] using hd

theorem normalize_eq (path : Bytes) :
    normalize path = render (isAbsolute path) (endsSlash path) (resolved path) := by
  have hclean := resolved_clean path
  by_cases hpath : path = []
  · subst hpath
    rfl
  · rw [normalize, if_neg hpath]
    change (let result := (resolved path).foldl appendComponent (if isAbsolute path then slash else [])
      let result := if result = [] then (if isAbsolute path then slash else dot) else result
      if endsSlash path ∧ result ≠ slash then result ++ slash else result) = _
    rw [foldl_root hclean.ne_nil hclean.joint]
    generalize resolved path = cs at hclean
    cases cs with
    | nil => cases isAbsolute path <;> cases endsSlash path <;> rfl
    | cons c cs =>
      have hjoined := joined_ne_nil (hclean.ne_nil c List.mem_cons_self) cs
      have hroot : (if isAbsolute path then slash else []) ++ Segments.joined 47 (c :: cs) ≠ slash := by
        intro heq
        have hends := endsSlash_joined hclean.ne_nil hclean.joint (if isAbsolute path then slash else [])
        rw [heq] at hends
        cases hends
      have hne : (if isAbsolute path then slash else []) ++ Segments.joined 47 (c :: cs) ≠ [] :=
        fun heq => hjoined (List.append_eq_nil_iff.mp heq).2
      rw [render, if_neg (List.cons_ne_nil c cs)]
      simp only [hne, if_false, ne_eq, hroot, not_false_eq_true, and_true]
      split_ifs <;> simp

theorem split_trailing (x : Bytes) (trailing : Bool) :
    split (x ++ if trailing then slash else []) = split x ++ if trailing then [[]] else [] := by
  cases trailing with
  | false => simp
  | true => exact List.splitOnP_append_cons x [] (by decide)

theorem split_joined {absolute : Bool} {c : Bytes} {cs : List Bytes} (h : Clean absolute (c :: cs)) :
    split (Segments.joined 47 (c :: cs)) = c :: cs :=
  Segments.splitOnP_joined (by decide) (h.joint c List.mem_cons_self)
    fun d hd => h.joint d (List.mem_cons_of_mem c hd)

theorem split_root {absolute : Bool} {c : Bytes} {cs : List Bytes} (h : Clean absolute (c :: cs)) :
    split (slash ++ Segments.joined 47 (c :: cs)) = [] :: c :: cs := by
  have hsep : isSlash 47 = true := rfl
  conv => rhs; rw [← split_joined h]
  exact Segments.splitOnP_sep_cons hsep (Segments.joined 47 (c :: cs))

/-- Reading a path that was written gives the components again. -/
theorem resolved_render {absolute : Bool} {cs : List Bytes} (h : Clean absolute cs) (trailing : Bool) :
    isAbsolute (render absolute trailing cs) = absolute ∧
      resolved (render absolute trailing cs) = cs := by
  cases cs with
  | nil => cases absolute <;> cases trailing <;> decide
  | cons c cs =>
    have htrailing : ∀ e ∈ (if trailing then [[]] else [] : List Bytes), isIdle e = true := by
      cases trailing <;> decide
    have habsolute : isAbsolute (render absolute trailing (c :: cs)) = absolute := by
      rw [render, if_neg (List.cons_ne_nil c cs)]
      cases absolute with
      | true => rfl
      | false => exact isAbsolute_joined h _
    refine ⟨habsolute, ?_⟩
    rw [resolved, habsolute, render, if_neg (List.cons_ne_nil c cs), split_trailing,
      Segments.resolve_append_idle _ htrailing]
    cases absolute with
    | true =>
      rw [if_pos rfl, split_root h, Segments.resolve_idle_cons rfl]
      exact Segments.resolve_of_settled isIdle_dotDot h.settled
    | false =>
      rw [if_neg Bool.false_ne_true, List.nil_append, split_joined h]
      exact Segments.resolve_of_settled isIdle_dotDot h.settled

theorem endsSlash_render {absolute : Bool} {cs : List Bytes} (h : Clean absolute cs) (trailing : Bool) :
    endsSlash (render absolute trailing cs) = (trailing || (absolute && decide (cs = []))) := by
  cases cs with
  | nil => cases absolute <;> cases trailing <;> rfl
  | cons c cs =>
    rw [render, if_neg (List.cons_ne_nil c cs), decide_eq_false (List.cons_ne_nil c cs), Bool.and_false,
      Bool.or_false]
    cases trailing with
    | true => simp [slash, endsSlash]
    | false =>
      rw [if_neg Bool.false_ne_true, List.append_nil]
      exact endsSlash_joined h.ne_nil h.joint _

theorem normalize_render {absolute : Bool} {cs : List Bytes} (h : Clean absolute cs) (trailing : Bool) :
    normalize (render absolute trailing cs) = render absolute trailing cs := by
  rw [normalize_eq, (resolved_render h trailing).1, (resolved_render h trailing).2,
    endsSlash_render h]
  cases cs with
  | nil => cases absolute <;> cases trailing <;> rfl
  | cons c cs => rw [decide_eq_false (List.cons_ne_nil c cs), Bool.and_false, Bool.or_false]

/-! ## The canonical form -/

/-- What stands between the slashes, but for the root and one slash at the end. -/
def entries (path : Bytes) : List Bytes :=
  let rest := if isAbsolute path then path.tail else path
  if rest = [] then [] else split (if endsSlash rest then rest.dropLast else rest)

/-- Where a path leads from a directory. -/
def locate (start : List Bytes) (path : Bytes) : List Bytes :=
  (split path).foldl (Segments.visit dotDot isIdle) (if isAbsolute path then [] else start)

/-- `result` is the canonical form of `path`. -/
structure Canonical (path result : Bytes) : Prop where
  nonempty : [] ∉ entries result
  dots : dot ∈ entries result → result = dot ∨ result = dot ++ slash
  climbs : ∃ n rest, entries result = List.replicate n dotDot ++ rest ∧ dotDot ∉ rest ∧
    (isAbsolute result = true → n = 0)
  absolute : isAbsolute result = isAbsolute path
  trailing : endsSlash result = true ↔ endsSlash path = true ∨ result = slash
  location : ∀ start, locate start result = locate start path
  idempotent : normalize result = result

theorem entries_render {absolute : Bool} {cs : List Bytes} (h : Clean absolute cs) (hne : cs ≠ [])
    (trailing : Bool) : entries (render absolute trailing cs) = cs := by
  obtain ⟨c, cs, rfl⟩ := List.exists_cons_of_ne_nil hne
  have hjoined := joined_ne_nil (h.ne_nil c List.mem_cons_self) cs
  have hrest : (if isAbsolute (render absolute trailing (c :: cs)) then
      (render absolute trailing (c :: cs)).tail else render absolute trailing (c :: cs)) =
      Segments.joined 47 (c :: cs) ++ if trailing then slash else [] := by
    rw [(resolved_render h trailing).1, render, if_neg hne]
    cases absolute <;> rfl
  have hends := endsSlash_joined h.ne_nil h.joint []
  rw [List.nil_append] at hends
  rw [entries, hrest, if_neg fun heq => hjoined (List.append_eq_nil_iff.mp heq).1]
  cases trailing with
  | false =>
    rw [if_neg Bool.false_ne_true, List.append_nil, if_neg (by simp [hends]), split_joined h]
  | true =>
    have hslash : endsSlash (Segments.joined 47 (c :: cs) ++ slash) = true := by
      simp [endsSlash, slash]
    rw [if_pos rfl, if_pos hslash, slash, List.dropLast_concat, split_joined h]

/-- A normalized path leads where the path leads. -/
theorem locate_normalize (start : List Bytes) (path : Bytes) :
    locate start (normalize path) = locate start path := by
  have hclean := resolved_clean path
  have hread := resolved_render hclean (endsSlash path)
  have hplace : ∀ path, (resolved path).foldl (Segments.visit dotDot isIdle)
      (if isAbsolute path then [] else start) = locate start path := by
    intro path
    refine Segments.visit_resolve isIdle_dotDot (fun hclimbs => ?_) (split path)
    rw [if_pos (by simpa using hclimbs)]
  rw [← hplace, ← hplace path, normalize_eq, hread.1, hread.2]

/-- Where nothing is left. -/
theorem render_nil (absolute trailing : Bool) :
    [] ∉ entries (render absolute trailing []) ∧
      (dot ∈ entries (render absolute trailing []) →
        render absolute trailing [] = dot ∨ render absolute trailing [] = dot ++ slash) ∧
      dotDot ∉ entries (render absolute trailing []) ∧
      (endsSlash (render absolute trailing []) = true ↔
        trailing = true ∨ render absolute trailing [] = slash) := by
  cases absolute <;> cases trailing <;> decide

/-- Normalization computes the canonical form. -/
theorem normalize_canonical (path : Bytes) : Canonical path (normalize path) := by
  have hclean := resolved_clean path
  have hends := endsSlash_render hclean (endsSlash path)
  have hlocation := fun start => locate_normalize start path
  have habsolute := (resolved_render hclean (endsSlash path)).1
  have hidempotent := normalize_render hclean (endsSlash path)
  rw [← normalize_eq] at hends habsolute hidempotent
  by_cases hcs : resolved path = []
  · have hnil := render_nil (isAbsolute path) (endsSlash path)
    rw [← hcs, ← normalize_eq] at hnil
    obtain ⟨hne, hdots, hclimbs, htrailing⟩ := hnil
    refine ⟨hne, hdots, ⟨0, entries (normalize path), rfl, hclimbs, fun _ => rfl⟩, habsolute, htrailing,
      hlocation, hidempotent⟩
  · have hentries : entries (normalize path) = resolved path := by
      rw [normalize_eq]
      exact entries_render hclean hcs _
    have hslash : normalize path ≠ slash := by
      intro heq
      rw [heq] at hentries
      exact hcs hentries.symm
    rw [decide_eq_false hcs, Bool.and_false, Bool.or_false] at hends
    refine ⟨?_, fun hdot => ?_, ?_, habsolute, ?_, hlocation, hidempotent⟩
    · rw [hentries]
      exact fun hnil => hclean.ne_nil [] hnil rfl
    · rw [hentries] at hdot
      exact Bool.noConfusion (hclean.idle dot hdot)
    · obtain ⟨n, rest, heq, hn, hrest⟩ := hclean.settled
      refine ⟨n, rest, by rw [hentries, heq], fun hmem => (hrest dotDot hmem).2 rfl, fun habs => ?_⟩
      rw [habsolute] at habs
      exact hn (by rw [habs]; rfl)
    · rw [hends, or_iff_left hslash]

/-! ## Resolving -/

theorem split_slash (x y : Bytes) : split (x ++ slash ++ y) = split x ++ split y := by
  rw [List.append_assoc]
  exact List.splitOnP_append_cons x y (by decide)

theorem locate_nil (start : List Bytes) : locate start [] = start := rfl

theorem locate_slash {part : Bytes} (hpart : part ≠ []) {rest : Bytes} (hrest : isAbsolute rest = false)
    (start : List Bytes) : locate start (part ++ slash ++ rest) = locate (locate start part) rest := by
  have habsolute : isAbsolute (part ++ slash ++ rest) = isAbsolute part := by
    obtain ⟨b, part, rfl⟩ := List.exists_cons_of_ne_nil hpart
    rfl
  rw [locate, habsolute, split_slash, List.foldl_append]
  rw [locate, hrest]
  rfl

theorem locate_absolute {part : Bytes} (h : isAbsolute part = true) (start start' : List Bytes) :
    locate start part = locate start' part := by
  rw [locate, locate, if_pos h, if_pos h]

theorem isAbsolute_slash {part : Bytes} (hpart : part ≠ []) (rest : Bytes) :
    isAbsolute (part ++ slash ++ rest) = isAbsolute part := by
  obtain ⟨b, part, rfl⟩ := List.exists_cons_of_ne_nil hpart
  rfl

/-- What is gathered leads where the paths lead one behind the other. -/
theorem gather_spec {cwd : Bytes} (hcwd : isAbsolute cwd = true) (parts : List Bytes) {resolved : Bytes}
    (hresolved : isAbsolute resolved = false) :
    isAbsolute (gather (parts ++ [cwd]) resolved) = true ∧
      locate [] (gather (parts ++ [cwd]) resolved) =
        locate (parts.reverse.foldl locate (locate [] cwd)) resolved := by
  have hjoin : ∀ (part : Bytes), part ≠ [] → ∀ resolved, isAbsolute resolved = false →
      isAbsolute (if resolved ≠ [] then part ++ slash ++ resolved else part) = isAbsolute part ∧
        ∀ start, locate start (if resolved ≠ [] then part ++ slash ++ resolved else part) =
          locate (locate start part) resolved := by
    intro part hpart resolved hresolved
    split_ifs with hnil
    · exact ⟨isAbsolute_slash hpart resolved, locate_slash hpart hresolved⟩
    · rw [not_not] at hnil
      subst hnil
      exact ⟨rfl, fun start => rfl⟩
  induction parts generalizing resolved with
  | nil =>
    have hne : cwd ≠ [] := by
      rintro rfl
      cases hcwd
    obtain ⟨habsolute, hlocate⟩ := hjoin cwd hne resolved hresolved
    rw [List.nil_append, gather, if_neg hne]
    dsimp only
    rw [if_pos hcwd]
    exact ⟨habsolute.trans hcwd, hlocate []⟩
  | cons part parts ih =>
    rw [List.reverse_cons, List.foldl_append, List.cons_append, gather]
    by_cases hpart : part = []
    · rw [if_pos hpart, hpart]
      exact ih hresolved
    · obtain ⟨habsolute, hlocate⟩ := hjoin part hpart resolved hresolved
      rw [if_neg hpart]
      dsimp only
      by_cases hroot : isAbsolute part = true
      · rw [if_pos hroot]
        refine ⟨habsolute.trans hroot, (hlocate []).trans ?_⟩
        rw [locate_absolute hroot []]
        rfl
      · have hrelative := ih (habsolute.trans (by simpa using hroot))
        rw [if_neg hroot]
        exact ⟨hrelative.1, hrelative.2.trans (hlocate _)⟩

theorem trimBack_ends {path : Bytes} (h : endsSlash path = false) :
    (trimBack path.reverse).reverse = path := by
  have hsame : trimBack path.reverse = path.reverse := by
    rw [endsSlash, ← List.head?_reverse] at h
    cases hpath : path.reverse with
    | nil => rfl
    | cons last rest =>
      rw [hpath] at h
      cases rest with
      | nil => rfl
      | cons before rest => rw [trimBack, if_neg (by simpa using h)]
  rw [hsame, List.reverse_reverse]

theorem trimBack_slash {path : Bytes} (hne : path ≠ []) (h : endsSlash path = false) :
    (trimBack (path ++ slash).reverse).reverse = path := by
  have hdrop : trimBack (path ++ slash).reverse = trimBack path.reverse := by
    rw [slash, List.reverse_append, List.reverse_singleton, List.singleton_append]
    obtain ⟨before, rest, hpath⟩ := List.exists_cons_of_ne_nil (List.reverse_ne_nil_iff.mpr hne)
    rw [hpath, trimBack, if_pos rfl]
  rw [hdrop, trimBack_ends h]

/-- Behind its root, no slash ends a path that is resolved. -/
theorem trim_render {cs : List Bytes} (h : Clean true cs) (trailing : Bool) :
    (trimBack (render true trailing cs).reverse).reverse = render true false cs := by
  cases cs with
  | nil => rfl
  | cons c cs =>
    have hends := endsSlash_joined h.ne_nil h.joint slash
    have hfalse : render true false (c :: cs) = slash ++ Segments.joined 47 (c :: cs) := by
      rw [render, if_neg (List.cons_ne_nil c cs), if_pos rfl, if_neg Bool.false_ne_true, List.append_nil]
    cases trailing with
    | false => rw [hfalse, trimBack_ends hends]
    | true =>
      have htrue : render true true (c :: cs) = slash ++ Segments.joined 47 (c :: cs) ++ slash := by
        rw [render, if_neg (List.cons_ne_nil c cs), if_pos rfl]
      rw [htrue, trimBack_slash (by simp [slash]) hends, hfalse]

/-- The names on the way to a place. -/
theorem clean_locate {path : Bytes} (h : isAbsolute path = true) : Clean true (locate [] path) := by
  have hclean := resolved_clean path
  rw [h] at hclean
  have hplace : resolved path = locate [] path := by
    rw [resolved, h, locate, if_pos h]
    exact Segments.resolve_eq_visit isIdle_dotDot (split path)
  rwa [hplace] at hclean

/-- `resolve` writes the place its arguments lead to. -/
theorem resolve_eq {cwd : Bytes} (hcwd : isAbsolute cwd = true) (parts : List Bytes) :
    Clean true (parts.foldl locate (locate [] cwd)) ∧
      resolve cwd parts = render true false (parts.foldl locate (locate [] cwd)) := by
  obtain ⟨habsolute, hlocate⟩ := gather_spec hcwd parts.reverse (show isAbsolute [] = false from rfl)
  rw [List.reverse_reverse, locate_nil] at hlocate
  have hclean := clean_locate habsolute
  have hplace : resolved (gather (parts.reverse ++ [cwd]) []) = parts.foldl locate (locate [] cwd) := by
    rw [← hlocate, resolved, habsolute, locate, if_pos habsolute]
    exact Segments.resolve_eq_visit isIdle_dotDot _
  rw [hlocate] at hclean
  refine ⟨hclean, ?_⟩
  rw [resolve, normalize_eq, hplace, habsolute, trim_render hclean]
  rw [(resolved_render hclean false).1, if_pos rfl]

/-! ## Relative paths -/

theorem components_render {cs : List Bytes} (h : Clean true cs) :
    components (render true false cs) = cs := by
  cases cs with
  | nil => decide
  | cons c cs =>
    rw [render, if_neg (List.cons_ne_nil c cs), if_pos rfl, if_neg Bool.false_ne_true,
      List.append_nil, components, split_root h, List.filter_cons_of_neg (by simp)]
    exact List.filter_eq_self.mpr fun d hd => by simpa using h.ne_nil d hd

theorem shared_spec (source target : List Bytes) :
    source.take (shared source target) = target.take (shared source target) ∧
      shared source target ≤ source.length := by
  induction source generalizing target with
  | nil => simp [shared]
  | cons a source ih =>
    cases target with
    | nil => simp [shared]
    | cons b target =>
      rw [shared]
      split_ifs with hab
      · obtain ⟨htake, hle⟩ := ih target
        rw [List.take_succ_cons, List.take_succ_cons, hab, htake, List.length_cons]
        exact ⟨rfl, by omega⟩
      · simp

/-- Walking joined components is walking them one by one. -/
theorem locate_joined {cs : List Bytes} (hne : ∀ c ∈ cs, c ≠ []) (hcs : ∀ c ∈ cs, Joint c)
    (start : List Bytes) :
    isAbsolute (Segments.joined 47 cs) = false ∧
      locate start (Segments.joined 47 cs) = cs.foldl (Segments.visit dotDot isIdle) start := by
  cases cs with
  | nil => exact ⟨rfl, rfl⟩
  | cons c cs =>
    have habsolute : isAbsolute (Segments.joined 47 (c :: cs)) = false := by
      obtain ⟨b, c, rfl⟩ := List.exists_cons_of_ne_nil (hne c List.mem_cons_self)
      have hb := hcs (b :: c) List.mem_cons_self b List.mem_cons_self
      simpa [Segments.joined, isAbsolute, isSlash] using hb
    have hsplit : split (Segments.joined 47 (c :: cs)) = c :: cs :=
      Segments.splitOnP_joined (by decide) (hcs c List.mem_cons_self)
        fun d hd => hcs d (List.mem_cons_of_mem c hd)
    rw [locate, habsolute, hsplit]
    exact ⟨rfl, rfl⟩

theorem joint_dotDot : Joint dotDot := by
  intro b hb
  simp only [dotDot, List.mem_cons, List.not_mem_nil, or_false, or_self] at hb
  rw [hb]
  rfl

/-- What `relative` writes: back to what is shared and on to the target. -/
theorem relative_eq {cwd : Bytes} (hcwd : isAbsolute cwd = true) (fromPath toPath : Bytes) :
    isAbsolute (relative cwd fromPath toPath) = false ∧
      locate (locate (locate [] cwd) fromPath) (relative cwd fromPath toPath) =
        locate (locate [] cwd) toPath := by
  obtain ⟨hsource, hsource_eq⟩ := resolve_eq hcwd [fromPath]
  obtain ⟨htarget, htarget_eq⟩ := resolve_eq hcwd [toPath]
  rw [relative, hsource_eq, htarget_eq, components_render hsource, components_render htarget]
  dsimp only [List.foldl_cons, List.foldl_nil] at hsource htarget ⊢
  generalize locate (locate [] cwd) fromPath = source at hsource
  generalize locate (locate [] cwd) toPath = target at htarget
  obtain ⟨hshared, hle⟩ := shared_spec source target
  generalize shared source target = common at hshared hle
  have hmem : ∀ c ∈ List.replicate (source.length - common) dotDot ++ target.drop common,
      c ≠ [] ∧ Joint c := by
    intro c hc
    rcases List.mem_append.mp hc with hc | hc
    · rw [List.eq_of_mem_replicate hc]
      exact ⟨by decide, joint_dotDot⟩
    · have hc := List.mem_of_mem_drop hc
      exact ⟨htarget.ne_nil c hc, htarget.joint c hc⟩
  have hwritten := foldl_root (fun c hc => (hmem c hc).1) (fun c hc => (hmem c hc).2) false
  rw [List.foldl_append, if_neg Bool.false_ne_true, List.nil_append] at hwritten
  obtain ⟨habsolute, hplace⟩ := locate_joined (fun c hc => (hmem c hc).1) (fun c hc => (hmem c hc).2) source
  rw [hwritten]
  refine ⟨habsolute, hplace.trans ?_⟩
  -- back to what is shared
  have hback : (List.replicate (source.length - common) dotDot).foldl (Segments.visit dotDot isIdle) source =
      source.take common := by
    have := Segments.visits_up isIdle_dotDot (source.take common) (source.drop common)
    rwa [List.take_append_drop, List.length_drop] at this
  have hnames := Segments.Settled.stays htarget.settled
  rw [List.foldl_append, hback, hshared,
    Segments.visits_stays fun c hc => hnames c (List.mem_of_mem_drop hc), List.take_append_drop]

/-- From a path, the relative path to another leads where that one does. -/
theorem resolve_relative {cwd : Bytes} (hcwd : isAbsolute cwd = true) (fromPath toPath : Bytes) :
    resolve cwd [fromPath, relative cwd fromPath toPath] = resolve cwd [toPath] ∧
      isAbsolute (relative cwd fromPath toPath) = false := by
  obtain ⟨habsolute, hplace⟩ := relative_eq hcwd fromPath toPath
  refine ⟨?_, habsolute⟩
  rw [(resolve_eq hcwd _).2, (resolve_eq hcwd _).2, List.foldl_cons, List.foldl_cons, List.foldl_nil,
    hplace]
  rfl

/-- From `a/b` to `a/c` in `/`. -/
theorem resolve_relative_sibling :
    resolve slash [[97, 47, 98], relative slash [97, 47, 98] [97, 47, 99]] = resolve slash [[97, 47, 99]] ∧
      isAbsolute (relative slash [97, 47, 98] [97, 47, 99]) = false :=
  resolve_relative rfl [97, 47, 98] [97, 47, 99]

end TsonicNode.Path.Posix
