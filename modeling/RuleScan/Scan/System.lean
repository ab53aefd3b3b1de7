import RuleScan.Output

/-!
# The system under a scan

A file system says what there is. What a scan gets of it also depends on the system it
runs on: listing a directory may meet faults, which hide some of the names or all of
them, and a reference to an earlier file may be refused. Two contents count as the same
if they have the same hash, so that, too, is up to the system.

## Main definitions

* `Listing` — what comes of listing a directory.
* `System` — what a scan relies on besides the files.
-/

namespace RuleScan.Scan

/-- What comes of listing a directory with these names. No name is found that is not there, and
none is missed unless a fault is told. -/
structure Listing (all : List String) where
  names : List String
  /-- The faults that were met, in the words of the system. -/
  faults : List String
  sublist : names.Sublist all
  complete : faults = [] → names = all

/-- All the names of a directory. -/
def Listing.whole (all : List String) : Listing all := ⟨all, [], .refl all, fun _ => rfl⟩

/-- What a scan relies on besides the files themselves. -/
structure System where
  /-- By which contents are told apart. -/
  hash : Bytes → Bytes
  list : (files : FileSystem) → (p : Path) → Listing (files.namesIn p)
  references : References

/-- A system where every directory can be listed and every link be created, with a hash that has
no collisions. -/
def System.plain : System := ⟨id, fun files p => .whole (files.namesIn p), .plain⟩

end RuleScan.Scan
