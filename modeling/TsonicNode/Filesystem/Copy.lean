import TsonicNode.Runtime
import TsonicNode.Lib.Number
import TsonicNode.Path.Format

/-!
# Copying a tree

`CopyTraversal` keeps the entries that are still to do on one stack; a directory
that was entered leaves an entry of its own under those of its names, which
applies its mode when it comes up. The file system is the parameter `System`,
whose calls may change the world and raise as they like. The log is what happens
to directories, for the statements.
-/

namespace TsonicNode.Filesystem

open TsonicNode.Lib
open TsonicNode.Path (Bytes)
open TsonicNode.Path.Posix (isAbsolute endsSlash slash dirname)

/-- What a copy reads of `Stats`. -/
structure Stats where
  mode : Nat
  device : Int
  inode : Int
  file : Bool
  directory : Bool
  symbolicLink : Bool
  atimeMs : Number
  mtimeMs : Number

/-- Calls of the system on a world. -/
structure System (World : Type) where
  cwd : EStateM Error World Bytes
  stat : Bytes → EStateM Error World Stats
  lstat : Bytes → EStateM Error World Stats
  statIfPresent : Bytes → Bool → EStateM Error World (Option Stats)
  makeDirectory : Bytes → Bool → EStateM Error World Unit
  readDirectoryNames : Bytes → EStateM Error World (List Bytes)
  readLink : Bytes → EStateM Error World Bytes
  unlink : Bytes → EStateM Error World Unit
  symbolicLink : Bytes → Bytes → EStateM Error World Unit
  copyFile : Bytes → Bytes → Nat → EStateM Error World Unit
  chmod : Bytes → Nat → EStateM Error World Unit
  utimes : Bytes → Number → Number → EStateM Error World Unit

structure CopyOptions (World : Type) where
  dereference : Option Bool := none
  errorOnExist : Option Bool := none
  force : Option Bool := none
  mode : Option Number := none
  preserveTimestamps : Option Bool := none
  recursive : Option Bool := none
  verbatimSymlinks : Option Bool := none
  filter : Option (Bytes → Bytes → EStateM Error World Bool) := none

/-- `Path / name`. -/
def joinPath (base name : Bytes) : Bytes := base ++ (if endsSlash base then [] else slash) ++ name

/-- An entry to copy or, with a mode, a directory to finish; nothing is applied
for a negative one. -/
structure CopyEntry where
  source : Bytes
  destination : Bytes
  finishMode : Option Int

/-- The entry for a name in a directory. -/
def CopyEntry.inside (entry : CopyEntry) (name : Bytes) : CopyEntry :=
  ⟨joinPath entry.source name, joinPath entry.destination name, none⟩

/-- What happens to directories of the destination. -/
inductive Event where
  | created (destination : Bytes) (mode : Nat)
  | entered (destination : Bytes) (source : Stats)
  | attempted (destination : Bytes) (mode : Nat)
  | finished (destination : Bytes)

/-- What a traversal changes; the last entry and the last ancestor stand first. -/
structure Copy (World : Type) where
  pending : List CopyEntry
  ancestors : List Stats
  world : World
  log : List Event

/-- What a traversal is made with. -/
structure Settings (World : Type) where
  system : System World
  options : CopyOptions World
  mode : Nat
  asynchronous : Bool

abbrev Action (World : Type) := EStateM Error (Copy World)

/-- `_same`. -/
def same (left right : Stats) : Bool :=
  left.inode != 0 && left.device != 0 && left.inode == right.inode && left.device == right.device

/-- `checked_path`. -/
def checkedPath (path : Bytes) : Except Error Unit :=
  if 0 ∈ path then .error ⟨"A filesystem path cannot contain a null character"⟩ else .ok ()

/-- `checked_integer(options.mode, 7, "copy mode")`. -/
def copyMode : Option Number → Except Error Nat
  | none => .ok 0
  | some mode =>
    match mode.between 0 7 with
    | none => .error ⟨"Invalid copy mode"⟩
    | some value =>
      if (truncate value : ℚ) ≠ value then .error ⟨"copy mode must be an integer"⟩
      else .ok (truncate value).toNat

section Calls

variable {World α : Type}

/-- A call of the system. -/
def call (operation : EStateM Error World α) : Action World α :=
  zoom Copy.world (fun world copy => { copy with world := world }) operation

def record (event : Event) : Action World Unit :=
  modify fun copy => { copy with log := copy.log ++ [event] }

def raiseIf (condition : Bool) (message : String) : Action World Unit :=
  if condition then throw ⟨message⟩ else pure ()

end Calls

namespace Settings

variable {World : Type} (settings : Settings World)

/-- `_absolute`. -/
def absolute (path : Bytes) : Action World Bytes := do
  let cwd ← call settings.system.cwd
  return Path.Posix.resolve cwd [path]

/-- `_within`. -/
def within (source destination : Bytes) : Action World Bool := do
  let parent ← settings.absolute source
  let child ← settings.absolute destination
  return child == parent || (parent ++ if endsSlash parent then [] else slash).isPrefixOf child

/-- `chmod` of a directory that was created. -/
def applyMode (destination : Bytes) (mode : Nat) : Action World Unit := do
  record (.attempted destination mode)
  call (settings.system.chmod destination mode)

/-- The loop of `next` over the entries that are left. -/
def nextLoop : List CopyEntry → Action World (Option CopyEntry)
  | [] => return none
  | entry :: rest => do
    modify fun copy => { copy with pending := rest }
    match entry.finishMode with
    | none => return some entry
    | some mode => do
      (if 0 ≤ mode then settings.applyMode entry.destination mode.toNat else pure ())
      modify fun copy => { copy with ancestors := copy.ancestors.tail }
      record (.finished entry.destination)
      nextLoop rest

def next : Action World (Option CopyEntry) := do
  let copy ← get
  settings.nextLoop copy.pending

/-- The loop of `finish`. -/
def finishLoop : List CopyEntry → Action World Unit
  | [] => return
  | entry :: rest => do
    modify fun copy => { copy with pending := rest }
    match entry.finishMode with
    | none => finishLoop rest
    | some mode => do
      (if 0 ≤ mode then settings.applyMode entry.destination mode.toNat else pure ())
      finishLoop rest

def finish : Action World Unit := do
  let copy ← get
  settings.finishLoop copy.pending

/-- The loop over the parents of the destination; `dirname` of an absolute path
is shorter as long as it is another one. -/
def checkParents (source : Stats) : Nat → Bytes → Action World Unit
  | 0, _ => return
  | turns + 1, parent => do
    let stats ← call (settings.system.statIfPresent parent true)
    raiseIf (stats.any (same source)) "cp: EINVAL: destination parent aliases the source"
    if dirname parent = parent then return
    else checkParents source turns (dirname parent)

/-- `if destination`. -/
def checkOperands (source : Stats) : Option Stats → Action World Unit
  | none => pure ()
  | some destination => do
    raiseIf (same source destination) "cp: EINVAL: source and destination are the same"
    raiseIf (source.directory != destination.directory)
      "cp: incompatible directory and non-directory operands"

/-- `if source.is_directory()`. -/
def checkDirectory (entry : CopyEntry) (source : Stats) : Action World Unit := do
  raiseIf (settings.options.recursive != some true) "cp: EISDIR: recursive option is required"
  raiseIf (← settings.within entry.source entry.destination) "cp: EINVAL: cannot copy a directory into itself"
  let copy ← get
  raiseIf (copy.ancestors.any (same source)) "cp: ELOOP: symbolic link creates a directory cycle"
  let parent ← settings.absolute (dirname entry.destination)
  settings.checkParents source (parent.length + 1) parent

/-- The directory of the destination, unless it is there. -/
def create (entry : CopyEntry) (permissions : Nat) : Option Stats → Action World Unit
  | none => do
    call (settings.system.makeDirectory entry.destination false)
    record (.created entry.destination permissions)
  | some _ =>
    raiseIf (settings.asynchronous && settings.options.errorOnExist == some true &&
      settings.options.force == some false) "cp: EEXIST: destination directory exists"

/-- `_directory`. -/
def directory (entry : CopyEntry) (source : Stats) (destination : Option Stats) : Action World Unit := do
  let permissions := source.mode &&& 0o7777
  settings.create entry permissions destination
  modify fun copy => { copy with
    ancestors := source :: copy.ancestors
    pending := { entry with finishMode := some (if destination.isNone then permissions else -1) } ::
      copy.pending }
  record (.entered entry.destination source)
  let names ← call (settings.system.readDirectoryNames entry.source)
  modify fun copy => { copy with pending := names.map entry.inside ++ copy.pending }

/-- What is there is kept, or goes. -/
def keeps (entry : CopyEntry) : Option Stats → Action World Bool
  | none => pure false
  | some _ =>
    if !settings.options.force.getD true then do
      raiseIf (settings.options.errorOnExist == some true) "cp: EEXIST: destination exists"
      return true
    else do
      call (settings.system.unlink entry.destination)
      return false

/-- `if preserve_timestamps`. -/
def preserve (entry : CopyEntry) (permissions : Nat) : Action World Unit := do
  (if permissions &&& 0o200 = 0 then call (settings.system.chmod entry.destination (permissions ||| 0o200))
    else pure ())
  let updated ← call (settings.system.stat entry.source)
  call (settings.system.utimes entry.destination updated.atimeMs updated.mtimeMs)

/-- `_file`. -/
def copyFile (entry : CopyEntry) (source : Stats) (destination : Option Stats) : Action World Unit := do
  let permissions := source.mode &&& 0o7777
  let kept ← settings.keeps entry destination
  if kept then return
  else do
    call (settings.system.copyFile entry.source entry.destination settings.mode)
    (if settings.options.preserveTimestamps == some true then settings.preserve entry permissions else pure ())
    call (settings.system.chmod entry.destination permissions)

/-- A link that is there goes, unless one of the two targets is inside of the other. -/
def replaceLink (entry : CopyEntry) (target : Bytes) : Option Stats → Action World Unit
  | none => pure ()
  | some destination => do
    raiseIf (!destination.symbolicLink) "cp: EEXIST: symlink destination already exists"
    let read ← call (settings.system.readLink entry.destination)
    let previous ← (if isAbsolute read then pure read
      else settings.absolute (joinPath (dirname entry.destination) read))
    let sourceStat ← call (settings.system.statIfPresent entry.source true)
    let inside ← (if sourceStat.any Stats.directory then settings.within target previous else pure false)
    raiseIf inside "cp: EINVAL: symlink destination is inside source"
    let destinationStat ← call (settings.system.stat entry.destination)
    let inside ← (if destinationStat.directory then settings.within previous target else pure false)
    raiseIf inside "cp: EINVAL: symlink source is inside destination"
    call (settings.system.unlink entry.destination)

/-- `_link`. -/
def link (entry : CopyEntry) (destination : Option Stats) : Action World Unit := do
  let read ← call (settings.system.readLink entry.source)
  let target ← (if !settings.options.verbatimSymlinks.getD false && !isAbsolute read then
    settings.absolute (joinPath (dirname entry.source) read) else pure read)
  settings.replaceLink entry target destination
  call (settings.system.symbolicLink target entry.destination)

def accept (entry : CopyEntry) : Action World Unit := do
  let follow := settings.options.dereference.getD false
  let source ← call (if follow then settings.system.stat entry.source else settings.system.lstat entry.source)
  let destination ← call (settings.system.statIfPresent entry.destination follow)
  checkOperands source destination
  (if source.directory then settings.checkDirectory entry source else pure ())
  call (settings.system.makeDirectory (dirname entry.destination) true)
  if source.directory then settings.directory entry source destination
  else if source.symbolicLink then settings.link entry destination
  else if source.file || source.mode &&& 0o170000 == 0o020000 || source.mode &&& 0o170000 == 0o060000 then
    settings.copyFile entry source destination
  else throw ⟨"cp: EINVAL: unsupported filesystem object"⟩

/-- The filter, where there is one. -/
def accepts (entry : CopyEntry) : Action World Bool :=
  match settings.options.filter with
  | none => pure true
  | some filter => call (filter entry.source entry.destination)

/-- Turns of the loop of `copy_tree`; true when it returns. -/
def traverse : Nat → Action World Bool
  | 0 => return false
  | turns + 1 => do
    match ← settings.next with
    | none => return true
    | some entry => do
      let accepted ← settings.accepts entry
      (if accepted then settings.accept entry else pure ())
      traverse turns

/-- `try` the loop and `finally` finish; `none` when there are turns to come. -/
def run (turns : Nat) (start : Copy World) : Option (EStateM.Result Error (Copy World) Unit) :=
  match settings.traverse turns start with
  | .ok false _ => none
  | .ok true copy => some (settings.finish copy)
  | .error error copy =>
    match settings.finish copy with
    | .ok _ copy => some (.error error copy)
    | .error error copy => some (.error error copy)

end Settings

variable {World : Type}

/-- `CopyTraversal.__init__`. -/
def Copy.start (source destination : Bytes) (world : World) : Copy World :=
  ⟨[⟨source, destination, none⟩], [], world, []⟩

def Settings.make (system : System World) (options : CopyOptions World) (asynchronous : Bool)
    (source destination : Bytes) : Except Error (Settings World) := do
  checkedPath source
  checkedPath destination
  let mode ← copyMode options.mode
  return ⟨system, options, mode, asynchronous⟩

/-- `copy_tree`, or with `asynchronous` the one of the promises, for a number of turns. -/
def copyTree (system : System World) (options : CopyOptions World) (asynchronous : Bool)
    (source destination : Bytes) (turns : Nat) (world : World) :
    Option (EStateM.Result Error (Copy World) Unit) :=
  match Settings.make system options asynchronous source destination with
  | .error error => some (.error error ⟨[], [], world, []⟩)
  | .ok settings => settings.run turns (.start source destination world)

/-! ## The parents of the destination -/

section Parents

theorem rfind_lt {byte : UInt8} {text : Bytes} (h : 0 ≤ Path.rfind byte text) :
    (Path.rfind byte text).toNat < text.length := by
  unfold Path.rfind at h ⊢
  cases hfind : text.reverse.findIdx? (· == byte) with
  | none =>
    simp only [hfind] at h
    omega
  | some index =>
    have hlt := (List.findIdx?_eq_some_iff_getElem.mp hfind).1
    rw [List.length_reverse] at hlt
    simp only
    omega

/-- `dirname` of an absolute path is absolute, and shorter unless it is the same. -/
theorem dirname_absolute {path : Bytes} (h : isAbsolute path = true) :
    isAbsolute (dirname path) = true ∧ (dirname path = path ∨ (dirname path).length < path.length) := by
  cases path with
  | nil => cases h
  | cons first rest =>
    have hfirst : first = 47 := Option.some.inj (beq_iff_eq.mp h)
    subst hfirst
    have hslash : isAbsolute slash = true ∧ (slash = 47 :: rest ∨ slash.length < (47 :: rest).length) := by
      refine ⟨rfl, ?_⟩
      cases rest with
      | nil => exact .inl rfl
      | cons second rest => exact .inr (Nat.succ_lt_succ (Nat.succ_pos _))
    unfold dirname
    rw [if_neg (List.cons_ne_nil _ _)]
    simp only [h, if_true]
    split
    case isTrue => exact hslash
    case isFalse hneg =>
      split
      case isTrue => exact hslash
      case isFalse hzero =>
        split
        case isTrue hdouble =>
          obtain ⟨tail, htail⟩ := hdouble.2
          refine ⟨rfl, ?_⟩
          rw [← htail]
          cases tail with
          | nil => exact .inl rfl
          | cons third tail => exact .inr (by simp)
        case isFalse =>
          have hlt := rfind_lt (Int.not_lt.mp hneg)
          have hlength := List.length_take_le' (Path.Posix.baseEnd (47 :: rest)) (47 :: rest)
          refine ⟨?_, .inr ?_⟩
          · obtain ⟨n, hn⟩ : ∃ n, (Path.rfind 47 ((47 :: rest).take (Path.Posix.baseEnd (47 :: rest)))).toNat =
                n + 1 := Nat.exists_eq_succ_of_ne_zero (by omega)
            rw [hn, List.take_succ_cons]
            rfl
          · rw [List.length_take]
            omega

/-- More turns than the length of an absolute path change nothing. -/
theorem checkParents_enough {World : Type} (settings : Settings World) (source : Stats) (turns : Nat)
    {parent : Bytes} (habsolute : isAbsolute parent = true) (hturns : parent.length < turns) :
    settings.checkParents source (turns + 1) parent = settings.checkParents source turns parent := by
  induction turns generalizing parent with
  | zero => exact absurd hturns (Nat.not_lt_zero _)
  | succ turns ih =>
    obtain ⟨hnext, hshorter⟩ := dirname_absolute habsolute
    have hturn : ∀ turns, settings.checkParents source (turns + 1) parent =
        call (settings.system.statIfPresent parent true) >>= fun stats =>
          raiseIf (stats.any (same source)) "cp: EINVAL: destination parent aliases the source" >>= fun _ =>
            if dirname parent = parent then pure () else settings.checkParents source turns (dirname parent) :=
      fun _ => rfl
    rw [hturn, hturn]
    by_cases hsame : dirname parent = parent
    · simp only [if_pos hsame]
    · have hlt := hshorter.resolve_left hsame
      rw [ih hnext (Nat.lt_of_lt_of_le hlt (Nat.le_of_lt_succ hturns))]

end Parents

end TsonicNode.Filesystem
