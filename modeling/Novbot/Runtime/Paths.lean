import Novbot.Lib.FileTree
import Novbot.Runtime.Grant

/-!
# Paths of host calls

`resolve` and `glob_matches` of `novbot-skill-runtime/src/path.rs` over a file tree.  The
operating system resolves a path with at most forty links, for the process that opens it
and for the library call that makes it canonical.

A path whose parent is canonical is what it says (`own_of_canonical`).  A parent that
cannot be made canonical stays as it was written from some component on
(`existingPrefix`), links included.
-/

namespace Novbot.Runtime

open Text FileTree

/-! ## The operating system -/

/-- The root directory. -/
structure FileSystem where
  entries : List (Name × Tree)
  named : (Tree.dir entries).named = true

namespace FileSystem

variable (fs : FileSystem)

def root : Tree := .dir fs.entries

/-- `MAXSYMLINKS`. -/
def maxLinks : Nat := 40

/-- `fs::canonicalize`. -/
def canonicalize (path : List Name) : Except Errno Path := walk fs.root true maxLinks [] path

/-- Where a path is, when its last component is not followed. -/
def locate (path : List Name) : Except Errno Path := walk fs.root false maxLinks [] path

/-- `fs::symlink_metadata`. -/
def symlinkMetadata (path : List Name) : Except Errno Tree := do
  let location ← fs.locate path
  match fs.root.descend location with
  | some tree => .ok tree
  | none => .error .notFound

/-- `fs::read_dir`. -/
def readDir (path : List Name) : Except Errno (List (Name × Tree)) := do
  let location ← fs.canonicalize path
  match fs.root.descend location with
  | some (.dir entries) => .ok entries
  | some _ => .error .notDirectory
  | none => .error .notFound

/-- `open` with `O_NOFOLLOW`, and a read of the whole file: where the file is, and its
bytes. -/
def readNofollow (path : List Name) : Except Errno (Path × List UInt8) := do
  let location ← fs.locate path
  match fs.root.descend location with
  | some (.file (some content)) => .ok (location, content)
  | some (.file none) => .error .permissionDenied
  | some (.dir _) => .error .isDirectory
  | some (.link _) => .error .tooManyLinks
  | none => .error .notFound

end FileSystem

/-- `display_path`. -/
def displayPath (path : Path) : List Char :=
  if path = [] then ['/'] else path.flatMap ('/' :: ·)

/-! ## Resolution -/

/-- One round of the loop of `lexical_normalize`. -/
def lexicalPart (parts : Path) (part : Name) : Option Path :=
  if part = [] ∨ part = ['.'] then some parts
  else if part = ['.', '.'] then some parts.dropLast
  else if part.contains '\x00' || part.contains '~' || part.contains '\\' then none
  else some (parts ++ [part])

def lexicalNormalize (raw : List Char) : Option Path :=
  if raw.head? = some '/' then (split '/' raw).tail.foldlM lexicalPart [] else none

section
variable (fs : FileSystem)

/-- `canonicalize_existing_prefix`, of a path that is given from its end. -/
def existingPrefix : List Name → Path
  | [] =>
    match fs.canonicalize [] with
    | .ok real => real
    | .error _ => []
  | name :: parents =>
    match fs.canonicalize (name :: parents).reverse with
    | .ok real => real
    | .error _ => existingPrefix parents ++ [name]

def canonicalOwn (lexical : Path) : Path :=
  match lexical.reverse with
  | [] => []
  | name :: parents => existingPrefix fs parents ++ [name]

structure Resolved where
  /-- The real path of the parent with the last component. -/
  own : Path
  /-- The target of a symbolic link, or `own`. -/
  scope : Path
  finalSymlink : Bool
  /-- The target of the link could not be resolved. -/
  brokenSymlink : Bool
  deriving DecidableEq, Repr

def isSymlink (path : Path) : Bool :=
  match fs.symlinkMetadata path with
  | .ok tree => tree.isLink
  | .error _ => false

/-- `follow_target`, of the components of an absolute path. -/
def followTarget (path : List Name) : Option Path :=
  match fs.canonicalize path with
  | .ok real => some real
  | .error _ =>
    match path.foldlM lexicalPart [] with
    | none => none
    | some lexical =>
      let own := canonicalOwn fs lexical
      if isSymlink fs own then none else some own

/-- The components of a link's target, from the root. -/
def absoluteTarget (own : Path) (target : List Char) : List Name :=
  if target.head? = some '/' then (split '/' target).tail else own.dropLast ++ split '/' target

def resolve (raw : List Char) : Option Resolved :=
  if rejectSyntax raw then none
  else
    match lexicalNormalize raw with
    | none => none
    | some lexical =>
      let own := canonicalOwn fs lexical
      match fs.symlinkMetadata own with
      | .ok (.link target) =>
        match followTarget fs (absoluteTarget own target) with
        | some scope => some ⟨own, scope, true, false⟩
        | none => some ⟨own, own, true, true⟩
      | _ => some ⟨own, own, false, false⟩

/-! ## Globs -/

def isMeta (ch : Char) : Bool := ch == '*' || ch == '?'

def hasMeta (pattern : List Char) : Bool := pattern.any isMeta

def trimSlash (path : List Char) : List Char :=
  if path.length > 1 then trimEndMatches (· == '/') path else path

def segments (path : List Char) : List Name := (split '/' (trimSlash path)).filter (· ≠ [])

/-- The rest of a pattern after a `*`: it matches some end of the segment. -/
def matchesTail (rest : List UInt8 → Bool) : List UInt8 → Bool
  | [] => rest []
  | byte :: segment => rest (byte :: segment) || matchesTail rest segment

/-- `segment_match`, on bytes. -/
def segmentMatch : List UInt8 → List UInt8 → Bool
  | [], segment => segment.isEmpty
  | byte :: pattern, segment =>
    if byte = '*'.toUInt8 then matchesTail (segmentMatch pattern) segment
    else
      match segment with
      | [] => false
      | first :: segment =>
        (byte = '?'.toUInt8 || byte = first) && segmentMatch pattern segment

/-- The rest of a pattern after a `**`: it matches some end of the path. -/
def matchesEnd (rest : List Name → Bool) : List Name → Bool
  | [] => rest []
  | segment :: path => rest (segment :: path) || matchesEnd rest path

def segmentsMatch : List Name → List Name → Bool
  | [], path => path.isEmpty
  | first :: pattern, path =>
    if first = ['*', '*'] then
      if pattern = [] then true else matchesEnd (segmentsMatch pattern) path
    else
      match path with
      | [] => false
      | segment :: path =>
        segmentMatch (utf8 first) (utf8 segment) && segmentsMatch pattern path

def canonicalLiteral (pattern : List Char) : Option (List Char) :=
  (resolve fs pattern).map fun resolved => displayPath resolved.own

def canonicalPattern (pattern : List Char) : List Char :=
  let segments := segments pattern
  let plain := segments.takeWhile fun segment => !hasMeta segment
  let head := displayPath plain
  let head := trimSlash ((canonicalLiteral fs head).getD head)
  (segments.drop plain.length).foldl
    (fun out segment => (if out = ['/'] then [] else out) ++ '/' :: segment) head

def globMatches (pattern : List Char) (candidate : Path) : Bool :=
  let text := displayPath candidate
  if !hasMeta pattern then canonicalLiteral fs pattern = some text
  else segmentsMatch (segments (canonicalPattern fs pattern)) (segments text)

end

/-! ## What a resolved path names -/

variable {fs : FileSystem}

theorem descend_of_symlinkMetadata {path : List Name} {tree : Tree}
    (h : fs.symlinkMetadata path = .ok tree) :
    ∃ location, fs.locate path = .ok location ∧ fs.root.descend location = some tree := by
  cases hlocate : fs.locate path with
  | error err => simp [FileSystem.symlinkMetadata, hlocate, bind, Except.bind] at h
  | ok location =>
    refine ⟨location, rfl, ?_⟩
    cases hfound : fs.root.descend location with
    | none => simp [FileSystem.symlinkMetadata, hlocate, hfound, bind, Except.bind] at h
    | some found =>
      simp only [FileSystem.symlinkMetadata, hlocate, hfound, bind, Except.bind] at h
      cases h
      rfl

/-- The last component of a normalised path is a plain name. -/
theorem plain_of_normalize {raw : List Char} {lexical : Path}
    (h : lexicalNormalize raw = some lexical) : ∀ name ∈ lexical, Plain name := by
  have hfold : ∀ (rest : List Name) (parts result : Path), (∀ name ∈ parts, Plain name) →
      rest.foldlM lexicalPart parts = some result → ∀ name ∈ result, Plain name := by
    intro rest
    induction rest with
    | nil =>
      intro parts result hparts hresult
      cases hresult
      exact hparts
    | cons part rest ih =>
      intro parts result hparts hresult
      rw [List.foldlM_cons] at hresult
      obtain ⟨next, hnext, hrest⟩ := Option.bind_eq_some_iff.mp hresult
      refine ih next result ?_ hrest
      unfold lexicalPart at hnext
      split at hnext
      · cases hnext
        exact hparts
      · next hhere =>
        split at hnext
        · cases hnext
          exact fun name hname => hparts name (List.mem_of_mem_dropLast hname)
        · next hup =>
          split at hnext
          · cases hnext
          · cases hnext
            intro name hname
            rcases List.mem_append.mp hname with hname | hname
            · exact hparts name hname
            · rw [List.mem_singleton.mp hname]
              rw [not_or] at hhere
              exact ⟨hhere.1, hhere.2, hup⟩
  unfold lexicalNormalize at h
  split at h
  · exact hfold _ _ _ (fun _ hname => absurd hname List.not_mem_nil) h
  · cases h

theorem existingPrefix_of_canonical {parents : List Name} {real : Path}
    (hreal : fs.canonicalize parents.reverse = .ok real) : existingPrefix fs parents = real := by
  cases parents with
  | nil =>
    rw [List.reverse_nil] at hreal
    rw [existingPrefix, hreal]
  | cons parent parents => rw [existingPrefix, hreal]

/-- A path with a canonical parent is where it says. -/
theorem own_of_canonical {parents : List Name} {name : Name} {real : Path} (hplain : Plain name)
    (hreal : fs.canonicalize parents.reverse = .ok real) {location : Path}
    (hlocate : fs.locate (existingPrefix fs parents ++ [name]) = .ok location) :
    location = real ++ [name] := by
  rw [existingPrefix_of_canonical hreal] at hlocate
  exact walk_in_real (real_of_walk .root hreal) hplain hlocate

end Novbot.Runtime
