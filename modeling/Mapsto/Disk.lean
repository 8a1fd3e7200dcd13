/-!
# `Mapsto.Disk` — what a program sees of the file system

A path is a text, and many texts may lead to the same place. All that running a program needs to know of
a file system is the canonical spelling of a path and what stands at each canonical path. There are
finitely many of those.

A file is opened by the whole text of its path at once, and that text must be shorter than `openLimit`.
The canonical spelling is found one component at a time, so that a path of any length has one if it
leads to something.
-/

namespace Mapsto

/-- What stands at a path. -/
inductive Entry where
  | directory
  | file (content : ByteArray)
  /-- Neither a directory nor a file, such as a device. -/
  | other

/-- What a program sees of the file system. -/
structure Disk where
  /-- The canonical spelling of a path that leads to something. -/
  canonical? : String → Option String
  /-- What stands at the canonical paths. -/
  entries : List (String × Entry)

namespace Disk

/-- What stands at a canonical path. -/
def get? (d : Disk) (path : String) : Option Entry :=
  (d.entries.find? fun e => e.1 == path).map (·.2)

/-- Nothing is opened by a path of this many bytes or more. -/
def openLimit : Nat := 4096

/-- What is found on opening a path. -/
def opened? (d : Disk) (path : String) : Option Entry :=
  if path.utf8ByteSize < openLimit then (d.canonical? path).bind d.get? else none

end Disk

end Mapsto
