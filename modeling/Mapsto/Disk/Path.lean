/-!
# `Mapsto.Disk.Path` — paths as texts

The components of a path are what stands between its slashes. The directory that holds the last
component is found without looking at any file: empty components and single dots do not count, except
for a dot at the very start of a relative path.
-/

namespace Mapsto.Path

/-- What stands between the slashes of a path, in order. The first component of an absolute path is
empty, and so is the last one of a path that ends in a slash. -/
def components (path : String) : List String :=
  (go path.toList).map String.ofList
where
  /-- Cuts characters at slashes. There is always at least one piece. -/
  go : List Char → List (List Char)
    | [] => [[]]
    | c :: cs =>
      if c = '/' then [] :: go cs
      else
        match go cs with
        | [] => [[c]]
        | piece :: pieces => (c :: piece) :: pieces

/-- Whether a path starts at the root. -/
def isAbsolute (path : String) : Bool :=
  match path.toList with
  | '/' :: _ => true
  | _ => false

/-- Puts components together again. -/
def ofComponents (absolute : Bool) (names : List String) : String :=
  (if absolute then "/" else "") ++ "/".intercalate names

/-- The components that count. -/
def significant (path : String) : List String :=
  match components path with
  | "." :: rest => "." :: rest.filter fun c => c != "" && c != "."
  | names => names.filter fun c => c != "" && c != "."

/-- The directory that holds the last component of a path. The root and the empty path have none. -/
def parent? (path : String) : Option String :=
  match significant path with
  | [] => none
  | names => some (ofComponents (isAbsolute path) names.dropLast)

/-- A path as seen from a directory: an absolute path stands for itself. -/
def join (directory path : String) : String :=
  if isAbsolute path ∨ directory = "" then path
  else if directory.toList.getLast? = some '/' then directory ++ path
  else directory ++ "/" ++ path

end Mapsto.Path
