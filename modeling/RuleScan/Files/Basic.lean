import RuleScan.Error
import RuleScan.Files.Path
import RuleScan.Table

/-!
# File systems

A file system is a table of nodes by location, the list of names that leads from the
root to them. Paths are resolved by walking: a name steps into a directory, `..` steps
back, and a symbolic link is replaced by its target. The number of links replaced in
one resolution is limited, so a walk around a loop of links ends with a fault.

Operations that change the system either succeed or leave it as it was.

## Main results

* `node?_insert` — an insertion is seen at its own location only.
* `resolve_empty` — the empty path leads nowhere.
-/

namespace RuleScan

/-- The names that lead from the root to a node. -/
abbrev Location := List String

/-- What a file system holds at a location. -/
inductive Node where
  | file (content : Bytes)
  | directory
  | link (target : Path)
  | device
  deriving DecidableEq

/-- Nodes by location, and the location that relative paths start from. -/
structure FileSystem where
  nodes : Table Location Node
  current : Location
  deriving Inhabited

namespace FileSystem

/-- The node at a location; the root is always a directory. -/
def node? (fs : FileSystem) (loc : Location) : Option Node :=
  if loc = [] then some .directory else fs.nodes.get? loc

/-- Puts a node at a location. -/
def insert (fs : FileSystem) (loc : Location) (node : Node) : FileSystem :=
  { fs with nodes := fs.nodes.insert loc node }

/-- Removes the node at a location. -/
def erase (fs : FileSystem) (loc : Location) : FileSystem :=
  { fs with nodes := fs.nodes.erase loc }

theorem node?_insert (fs : FileSystem) {loc : Location} (hloc : loc ≠ []) (node : Node)
    (other : Location) :
    (fs.insert loc node).node? other = if other = loc then some node else fs.node? other := by
  simp only [node?, insert, Table.get?_insert]
  by_cases h : other = loc
  · simp [h, hloc]
  · simp [h]

/-! ## Resolving paths -/

/-- A location, and the node there if there is one. -/
structure Resolved where
  location : Location
  node : Option Node

/-- The most links that one resolution replaces. -/
def linkLimit : Nat := 40

/--
Walks along segments from a directory. `follow` continues at the target of a link; the
last segment is followed only if `last` holds.
-/
def walkWith (fs : FileSystem) (follow : Location → List String → Except FileFault Resolved)
    (last : Bool) : Location → List String → Except FileFault Resolved
  | loc, [] => .ok ⟨loc, fs.node? loc⟩
  | loc, name :: rest =>
    if Path.isIdle name then walkWith fs follow last loc rest
    else if name = ".." then walkWith fs follow last loc.dropLast rest
    else
      match fs.node? (loc ++ [name]) with
      | none => if rest = [] then .ok ⟨loc ++ [name], none⟩ else .error .notFound
      | some .directory => walkWith fs follow last (loc ++ [name]) rest
      | some (.link target) =>
        if rest = [] ∧ last = false then .ok ⟨loc ++ [name], some (.link target)⟩
        else if target.isAbsolute then follow [] (target.segments ++ rest)
        else follow loc (target.segments ++ rest)
      | some node =>
        if rest = [] then .ok ⟨loc ++ [name], some node⟩ else .error .notDirectory

/-- Walks along segments, replacing at most so many links. -/
def walk (fs : FileSystem) (last : Bool) : Nat → Location → List String → Except FileFault Resolved
  | 0 => walkWith fs (fun _ _ => .error .tooManyLinks) last
  | links + 1 => walkWith fs (walk fs last links) last

/-- Resolves a path; a link at its end is followed only if `last` holds. -/
def resolve (fs : FileSystem) (p : Path) (last : Bool) : Except FileFault Resolved :=
  if p.isEmpty then .error .notFound
  else fs.walk last linkLimit (if p.isAbsolute then [] else fs.current) p.segments

theorem resolve_empty (fs : FileSystem) (last : Bool) :
    fs.resolve "" last = .error .notFound := rfl

/-! ## Reading -/

/-- The node at a path, which may be a link. -/
def nodeAt (fs : FileSystem) (p : Path) : Except FileFault Node := do
  match (← fs.resolve p false).node with
  | some node => pure node
  | none => .error .notFound

/-- The node that a path leads to, behind all links. -/
def targetAt (fs : FileSystem) (p : Path) : Except FileFault Node := do
  match (← fs.resolve p true).node with
  | some node => pure node
  | none => .error .notFound

/-- Whether there is anything at a path, be it a link that leads nowhere. -/
def exists? (fs : FileSystem) (p : Path) : Bool := (fs.nodeAt p).toOption.isSome

/-- Whether a path leads to a directory. -/
def isDirectory (fs : FileSystem) (p : Path) : Bool :=
  match fs.targetAt p with
  | .ok .directory => true
  | _ => false

/-- The bytes that a path leads to; a device has none. -/
def readFile (fs : FileSystem) (p : Path) : Except FileFault Bytes := do
  match ← fs.targetAt p with
  | .file content => pure content
  | .directory => .error .isDirectory
  | _ => pure []

/-- The text that a path leads to. -/
def readText (fs : FileSystem) (p : Path) : Except FileFault String := do
  match Utf8.decode? (← fs.readFile p) with
  | some text => pure text
  | none => .error .notText

/-- The text of a location as a path from the root. -/
def pathOf (loc : Location) : Path := "/" ++ String.intercalate "/" loc

/-- The path, free of links, of what a path leads to. -/
def canonical (fs : FileSystem) (p : Path) : Except FileFault Path := do
  let r ← fs.resolve p true
  match r.node with
  | some _ => pure (pathOf r.location)
  | none => .error .notFound

/-- The name of a location inside a directory. -/
def nameIn (directory loc : Location) : Option String :=
  match loc.getLast? with
  | some name => if loc.dropLast = directory then some name else none
  | none => none

/-- The names in the directory that a path leads to, sorted. -/
def namesIn (fs : FileSystem) (p : Path) : List String :=
  match fs.resolve p true with
  | .ok r => (fs.nodes.keys.filterMap (nameIn r.location)).mergeSort (· ≤ ·)
  | .error _ => []

/-! ## Changing -/

/-- Creates an empty file where there is nothing yet. -/
def createFile (fs : FileSystem) (p : Path) : Except FileFault FileSystem := do
  let r ← fs.resolve p false
  match r.node with
  | some _ => .error .alreadyExists
  | none => pure (fs.insert r.location (.file []))

/-- Writes the content of a file, which is created if need be. -/
def writeFile (fs : FileSystem) (p : Path) (content : Bytes) : Except FileFault FileSystem := do
  let r ← fs.resolve p true
  match r.node with
  | some .directory => .error .isDirectory
  | some .device => pure fs
  | _ => pure (fs.insert r.location (.file content))

/-- Whether a slash stands at the end of a path, as it may for a directory only. -/
def endsInSlash (p : Path) : Bool := p.toList.getLast? == some '/'

/-- A path without the slashes at its end. -/
def dropTrailingSlashes (p : Path) : Path :=
  String.ofList (p.toList.reverse.dropWhile (· == '/')).reverse

/--
Resolves a path to the entry that its last name stands for: a link there is not
followed, not even if slashes come after it.
-/
def resolveEntry (fs : FileSystem) (p : Path) : Except FileFault Resolved :=
  let trimmed := dropTrailingSlashes p
  fs.resolve (if trimmed.isEmpty then p else trimmed) false

/-- Creates a directory where there is nothing yet; slashes at the end do not count. -/
def createDirectory (fs : FileSystem) (p : Path) : Except FileFault FileSystem := do
  let r ← fs.resolveEntry p
  match r.node with
  | some _ => .error .alreadyExists
  | none => pure (fs.insert r.location .directory)

/-- Creates a link where there is nothing yet; it must have a target. -/
def createLink (fs : FileSystem) (p target : Path) : Except FileFault FileSystem := do
  if target.isEmpty then .error .notFound
  let r ← fs.resolveEntry p
  match r.node with
  | some _ => .error .alreadyExists
  | none => if endsInSlash p then .error .notFound else pure (fs.insert r.location (.link target))

/-- Removes a file or a link; with a slash at the end neither is what the path asks for. -/
def removeFile (fs : FileSystem) (p : Path) : Except FileFault FileSystem := do
  let r ← fs.resolveEntry p
  match r.node with
  | none => .error .notFound
  | some .directory => .error .isDirectory
  | some _ => if endsInSlash p then .error .notDirectory else pure (fs.erase r.location)

/--
Creates a directory and those above it as far as they are missing. A directory that is
there already is fine. What was created before a fault stays. The budget bounds the
number of directories; the text of a path gets shorter with each step upwards.
-/
def createAll (fs : FileSystem) : Nat → Path → Except FileFault Unit × FileSystem
  | 0, _ => (.error .notFound, fs)
  | budget + 1, p =>
    if p.isEmpty then (.ok (), fs)
    else
      match fs.createDirectory p with
      | .ok fs => (.ok (), fs)
      | .error .notFound =>
        match p.parent? with
        | none => (.error .notFound, fs)
        | some above =>
          match fs.createAll budget above with
          | (.error e, fs) => (.error e, fs)
          | (.ok (), fs) =>
            match fs.createDirectory p with
            | .ok fs => (.ok (), fs)
            | .error e => if fs.isDirectory p then (.ok (), fs) else (.error e, fs)
      | .error e => if fs.isDirectory p then (.ok (), fs) else (.error e, fs)

/-- Makes sure that a path leads to a directory. -/
def ensureDirectory (fs : FileSystem) (p : Path) : Except FileFault Unit × FileSystem :=
  fs.createAll (p.length + 1) p

end FileSystem

end RuleScan
