import Mapsto.Disk
import Mapsto.Disk.Path

/-!
# `Mapsto.Disk.Tree` — directories, files and links

A tree of files lists what stands at each place. Going along a path starts at the root or at the working
directory and takes one component at a time; whatever is gone through has to be a directory, also when
only a dot or a slash follows it. A link stands for the path it holds, seen from the directory that holds
the link. Links may lead to links, in a circle too: a path that goes through more than `maxLinks` of them
leads nowhere.
-/

namespace Mapsto

/-- A place in a tree: the names on the way to it from the root. -/
abbrev Place := List String

/-- The path of a place. -/
def Place.path (place : Place) : String :=
  Path.ofComponents true place

/-- What can stand at a place. -/
inductive Node where
  | entry (e : Entry)
  | link (target : String)

/-- Directories, files and links, with a working directory. The root is a directory in any case. -/
structure FileTree where
  workingDirectory : Place
  nodes : List (Place × Node)

namespace FileTree

/-- What stands at a place. -/
def node? (tree : FileTree) : Place → Option Node
  | [] => some (.entry .directory)
  | place => (tree.nodes.find? fun n => n.1 == place).map (·.2)

/-- Whether a place is a directory. -/
def isDirectory (tree : FileTree) (place : Place) : Bool :=
  match tree.node? place with
  | some (.entry .directory) => true
  | _ => false

/-- Puts something at a place. What is there already stays. -/
def insert (tree : FileTree) (place : Place) (node : Node) : FileTree :=
  match tree.node? place with
  | some _ => tree
  | none => { tree with nodes := tree.nodes ++ [(place, node)] }

/-- Makes directories of all places on the way to a place. -/
def insertParents (tree : FileTree) (place : Place) : FileTree :=
  (List.range place.length).foldl (fun t n => t.insert (place.take n) (.entry .directory)) tree

/-- Puts something at a place, with the directories on the way. -/
def add (tree : FileTree) (place : Place) (node : Node) : FileTree :=
  (tree.insertParents place).insert place node

/-- How many links a path may go through. -/
def maxLinks : Nat := 40

/-- Where a path starts. -/
def start (directory : Place) (path : String) : Place :=
  if Path.isAbsolute path then [] else directory

/-- Goes along components from a place. `follow` goes on behind a link. -/
def walk (tree : FileTree) (follow : Place → List String → Option Place) :
    Place → List String → Option Place
  | place, [] => some place
  | place, name :: rest =>
    if !tree.isDirectory place then none
    else if name = "" ∨ name = "." then walk tree follow place rest
    else if name = ".." then walk tree follow place.dropLast rest
    else
      match tree.node? (place ++ [name]) with
      | none => none
      | some (.entry _) => walk tree follow (place ++ [name]) rest
      | some (.link target) => follow (start place target) (Path.components target ++ rest)

/-- Goes along components through at most `n` links. -/
def walkWithin (tree : FileTree) : Nat → Place → List String → Option Place
  | 0 => tree.walk fun _ _ => none
  | n + 1 => tree.walk (tree.walkWithin n)

/-- The place that a path leads to. -/
def resolve (tree : FileTree) (path : String) : Option Place :=
  if path = "" then none
  else tree.walkWithin maxLinks (start tree.workingDirectory path) (Path.components path)

/-- What a program sees of a tree. -/
def disk (tree : FileTree) : Disk where
  canonical? := fun path => (tree.resolve path).map Place.path
  entries := (Place.path [], .directory) :: tree.nodes.filterMap fun n =>
    match n.2 with
    | .entry e => some (n.1.path, e)
    | .link _ => none

end FileTree

end Mapsto
