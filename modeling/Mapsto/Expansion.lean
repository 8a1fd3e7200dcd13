import Mapsto.Directive
import Mapsto.Disk
import Mapsto.Disk.Path
import Mapsto.Text.Lines

/-!
# `Mapsto.Expansion` — texts with other texts in them

The one instruction is `!include(path)`: the lines of the file take the place of the line. They are
looked at in turn, so that they may include others, and relative paths in them start from the directory
of their own file. A file is included once in a pass; where it is asked for again, nothing takes the
place of the line.

`expandLines` works on one list of lines that are still to be looked at, and puts the lines of an included
file in front of them. **Termination.** A file that is included is visited from then on, so its lines move
from the lines that may still come (`remaining`) to the lines at hand, while the line that asked for it is
used up (`remaining_add_le`): every line of every file is looked at once at most.
-/

namespace Mapsto

/-- A line of a text, with the text it came from and its number there. -/
structure Line where
  text : List Char
  origin : String
  number : Nat

/-- An instruction that cannot be carried out, and where it stands. -/
structure ExpansionError where
  origin : String
  line : Nat
  cause : DirectiveError

/-- The wording of an expansion error. -/
def ExpansionError.message (e : ExpansionError) : String :=
  e.origin ++ ":" ++ Nat.repr e.line ++ ": " ++ e.cause.message

namespace Expansion

open Text

/-- Numbers the lines of a text. -/
def numbered (origin : String) (texts : List (List Char)) : List Line :=
  texts.mapIdx fun i text => ⟨text, origin, i + 1⟩

/-- The lines of a text that is included: the last one is ended too. -/
def includedLines (origin : String) (text : String) : List Line :=
  numbered origin (lines (terminated text.toList))

/-- How many lines including something adds. -/
def lineCount : Entry → Nat
  | .file content =>
    match String.fromUTF8? content with
    | some text => (lines (terminated text.toList)).length
    | none => 0
  | _ => 0

/-- How many lines all entries that were not visited can still add. -/
def remaining (visited : List String) : List (String × Entry) → Nat
  | [] => 0
  | e :: rest => (if e.1 ∈ visited then 0 else lineCount e.2) + remaining visited rest

theorem remaining_cons_le (path : String) (visited : List String) (entries : List (String × Entry)) :
    remaining (path :: visited) entries ≤ remaining visited entries := by
  induction entries with
  | nil => exact Nat.le_refl _
  | cons e rest ih =>
    simp only [remaining]
    by_cases hv : e.1 ∈ visited
    · rw [if_pos hv, if_pos (List.mem_cons_of_mem _ hv)]
      omega
    · rw [if_neg hv]
      split <;> omega

/-- **Visiting moves lines.** What an entry adds when it is visited is missing from what may still come. -/
theorem remaining_add_le {path : String} {visited : List String} {entries : List (String × Entry)}
    {e : String × Entry} (hfind : entries.find? (fun e => e.1 == path) = some e) (hv : path ∉ visited) :
    remaining (path :: visited) entries + lineCount e.2 ≤ remaining visited entries := by
  induction entries with
  | nil => cases hfind
  | cons head rest ih =>
    simp only [remaining]
    by_cases hp : head.1 = path
    · rw [List.find?_cons_of_pos (by simpa using hp)] at hfind
      obtain rfl := Option.some.inj hfind
      have hle := remaining_cons_le path visited rest
      rw [if_pos (by rw [hp]; exact List.mem_cons_self), if_neg (by rw [hp]; exact hv)]
      omega
    · rw [List.find?_cons_of_neg (by simpa using hp)] at hfind
      have hle := ih hfind
      by_cases hm : head.1 ∈ visited
      · rw [if_pos hm, if_pos (List.mem_cons_of_mem _ hm)]
        omega
      · rw [if_neg hm, if_neg (by simp [hp, hm])]
        omega

/-- The path an included file is looked for at. -/
def targetPath (origin target : String) : String :=
  Path.join ((Path.parent? origin).getD "") target

/-- The canonical path of an included file and its content. -/
def find (disk : Disk) (origin target : String) : Except DirectiveError (String × ByteArray) :=
  if target = "" then .error .emptyTarget
  else
    match disk.canonical? (targetPath origin target) with
    | none => .error (.targetNotFound target)
    | some path =>
      match disk.get? path with
      | some .directory => .error (.targetIsDirectory target)
      | some (.file content) => .ok (path, content)
      | _ => .error (.targetNotAFile target)

/-- **What is found** is the file at the canonical spelling of the target, seen from the directory of the text. -/
theorem find_eq_ok_iff {disk : Disk} {origin target path : String} {content : ByteArray} :
    find disk origin target = .ok (path, content) ↔
      target ≠ "" ∧ disk.canonical? (targetPath origin target) = some path ∧
        disk.get? path = some (.file content) := by
  unfold find
  constructor
  · intro h
    split at h
    · cases h
    rename_i htarget
    split at h
    · cases h
    rename_i found hpath
    split at h
    · cases h
    · rename_i hentry
      cases h
      exact ⟨htarget, hpath, hentry⟩
    · cases h
  · rintro ⟨htarget, hpath, hentry⟩
    simp only [if_neg htarget, hpath, hentry]

/-- The canonical path and the lines of the file that a line includes, or nothing if that file was
visited before. -/
def splice (disk : Disk) (visited : List String) (line : Line) :
    Except DirectiveError (Option (String × List Line)) :=
  match Directive.parse (trim line.text) with
  | .error e => .error e
  | .ok ⟨name, target⟩ =>
    if name ≠ "include" then .error (.unknownName name)
    else
      match find disk line.origin target with
      | .error e => .error e
      | .ok (path, content) =>
        if path ∈ visited then .ok none
        else
          match String.fromUTF8? content with
          | none => .error (.targetUnreadable target)
          | some text => .ok (some (path, includedLines path text))

/-- A file that takes the place of a line was not visited before, and its lines are no longer among
those that may still come. -/
theorem remaining_of_splice {disk : Disk} {visited : List String} {line : Line} {path : String}
    {included : List Line} (h : splice disk visited line = .ok (some (path, included))) :
    remaining (path :: visited) disk.entries + included.length ≤ remaining visited disk.entries := by
  unfold splice at h
  split at h
  · cases h
  split at h
  · cases h
  split at h
  · cases h
  rename_i hfound
  split at h
  · cases h
  rename_i hv
  split at h
  · cases h
  rename_i text htext
  cases h
  obtain ⟨-, -, hget⟩ := find_eq_ok_iff.mp hfound
  simp only [Disk.get?, Option.map_eq_some_iff] at hget
  obtain ⟨e, he, hentry⟩ := hget
  have hle := remaining_add_le he hv
  simp only [hentry, lineCount, htext] at hle
  simpa [includedLines, numbered] using hle

/-- The lines that are left when all instructions are carried out, or the first that cannot be. -/
def expandLines (disk : Disk) (visited : List String) (pending : List Line) :
    Except ExpansionError (List (List Char)) :=
  match pending with
  | [] => .ok []
  | line :: rest =>
    if Directive.isDirective line.text then
      match h : splice disk visited line with
      | .error cause => .error ⟨line.origin, line.number, cause⟩
      | .ok none => expandLines disk visited rest
      | .ok (some (path, included)) =>
        have := remaining_of_splice h
        expandLines disk (path :: visited) (included ++ rest)
    else
      match expandLines disk visited rest with
      | .ok texts => .ok (line.text :: texts)
      | .error e => .error e
termination_by pending.length + remaining visited disk.entries
decreasing_by
  all_goals simp only [List.length_cons, List.length_append]
  all_goals omega

end Expansion

/-- Carries out all instructions in a text that was read from `origin`, which need not exist. -/
def expand (disk : Disk) (source origin : String) : Except ExpansionError String :=
  let visited := (disk.canonical? origin).toList
  match Expansion.expandLines disk visited (Expansion.numbered origin (Text.lines source.toList)) with
  | .ok texts => .ok (String.ofList texts.flatten)
  | .error e => .error e

end Mapsto
