import RuleScan.Files.Basic

/-!
# The disk

A program that runs over a file system as a value needs the part of the disk that it
will look at, and afterwards the disk has to be brought in line with the value. This
module does both, and nothing else: a survey walks along paths and takes down what is
there; a commit writes what was added.

A link is taken down with the path that it finally leads to. A link to something that
does not exist leads to a name that nothing can have, and a link that cannot be
followed for another reason leads to itself.
-/

namespace RuleScan.Disk

/-- What was taken down, and the directories taken down with everything in them. -/
structure Survey where
  files : FileSystem
  complete : List Location

/-- The names that a path from the root leads through. -/
def locationOf (p : Path) : Location := p.segments.filter fun s => !Path.isIdle s

/-- The kind of what is at a location, links not followed. -/
def kind? (loc : Location) : IO (Option IO.FS.FileType) := do
  try
    let here ← IO.currentDir
    return some (← (here / FileSystem.pathOf loc).symlinkMetadata).type
  catch _ => return none

/-- The names in a directory. -/
def names (loc : Location) : IO (List String) := do
  try
    let here ← IO.currentDir
    return (← (here / FileSystem.pathOf loc).readDir).toList.map fun entry => entry.fileName
  catch _ => return []

/-- A path at which there can be nothing. -/
def nowhere : Path := "/\x00"

/-- The path that a link leads to. -/
def target (loc : Location) : IO Path := do
  try
    return (← IO.FS.realPath (FileSystem.pathOf loc)).toString
  catch
    | .noFileOrDirectory .. => return nowhere
    | _ => return FileSystem.pathOf loc

/-- The bytes of a regular file. -/
def content (loc : Location) : IO Bytes := do
  return (← IO.FS.readBinFile (FileSystem.pathOf loc)).toList

/-- How far a survey goes. -/
structure Extent where
  /-- Directories are taken down with everything in them. -/
  deep : Bool
  /-- Links at the end of a path are followed. -/
  follow : Bool

mutual

/-- Takes down what a path leads to, and everything on the way. -/
partial def walk (extent : Extent) (s : Survey) (loc : Location) : List String → IO Survey
  | [] => if extent.deep then fill extent s loc else return s
  | name :: rest => do
    if Path.isIdle name then walk extent s loc rest
    else if name = ".." then walk extent s loc.dropLast rest
    else
      let next := loc ++ [name]
      match ← kind? next with
      | none => return s
      | some .dir =>
        let node := ((s.files.node? next).getD .directory)
        walk extent { s with files := s.files.insert next node } next rest
      | some .file => do
        if rest.isEmpty then
          return { s with files := s.files.insert next (.file (← content next)) }
        else if (s.files.node? next).isSome then return s
        else return { s with files := s.files.insert next (.file []) }
      | some .other => return { s with files := s.files.insert next .device }
      | some .symlink =>
        let target ← target next
        let s := { s with files := s.files.insert next (.link target) }
        if (rest.isEmpty && !extent.follow) || target == FileSystem.pathOf next then return s
        else walk extent s [] (locationOf target ++ rest)

/-- Takes down everything in a directory, once. -/
partial def fill (extent : Extent) (s : Survey) (loc : Location) : IO Survey := do
  if s.complete.contains loc then return s
  else
    let mut s := { s with complete := loc :: s.complete }
    for name in ← names loc do
      s ← walk extent s loc [name]
    return s

end

/-- Takes down what several paths lead to. -/
def survey (extent : Extent) (s : Survey) (paths : List Path) : IO Survey :=
  paths.foldlM (fun s p =>
    walk extent s (if p.isAbsolute then [] else s.files.current) p.segments) s

/-- A survey in which nothing but the directory for relative paths was taken down. -/
def start : IO Survey := do
  let here := locationOf (← IO.FS.realPath (← IO.currentDir)).toString
  let s : Survey := ⟨⟨∅, here⟩, []⟩
  walk ⟨false, true⟩ s [] here

/-- Writes a node; a reference to a file shares the content of that file. -/
def writeNode (loc : Location) : Node → IO Unit
  | .directory => IO.FS.createDirAll (FileSystem.pathOf loc)
  | .file bytes => IO.FS.writeBinFile (FileSystem.pathOf loc) ⟨bytes.toArray⟩
  | .link target => IO.FS.hardLink target (FileSystem.pathOf loc)
  | .device => return ()

/-- Whether a node refers to another. -/
def isLink : Node → Bool
  | .link _ => true
  | _ => false

/-- Brings the disk in line with a value that grew out of another; references come last. -/
def commit (before after : FileSystem) : IO Unit := do
  let added := after.nodes.entries.filter fun (loc, node) => before.node? loc != some node
  for (loc, node) in added.filter fun entry => !isLink entry.2 do writeNode loc node
  for (loc, node) in added.filter fun entry => isLink entry.2 do writeNode loc node

end RuleScan.Disk
