import Mapsto.Expansion
import Mapsto.Proofs.Disk.WellFormed

/-!
# `Mapsto.Proofs.Expansion.Target` — which file an instruction names

A target is a path as seen from the directory of the text it stands in. On a tree of files `find` finds the file
that this path leads to, under the path of its place (`find_disk_eq_ok_iff`).

For the text that the program was called with, the directory is one that its path names
(`find_disk_relative_iff`). For a text that was itself found (`exists_origin_of_find`), it is the directory that
holds the file, whatever path the file was asked for by (`find_disk_inside_iff`): a link to the file elsewhere
does not move it.
-/

namespace Mapsto.Expansion

open FileTree

variable {tree : FileTree} {origin target path : String} {content : ByteArray}

/-- **What is found** on a tree of files: the file that the target leads to, under the path of its place. -/
theorem find_disk_eq_ok_iff (h : tree.WellFormed) :
    find tree.disk origin target = .ok (path, content) ↔
      target ≠ "" ∧ ∃ place, tree.resolve (targetPath origin target) = some place ∧ place.path = path ∧
        tree.node? place = some (.entry (.file content)) := by
  rw [find_eq_ok_iff]
  constructor
  · rintro ⟨htarget, hpath, hentry⟩
    obtain ⟨place, hplace, rfl⟩ := Option.map_eq_some_iff.mp hpath
    exact ⟨htarget, place, hplace, rfl, (h.get?_path (h.firm_of_resolve hplace)).mp hentry⟩
  · rintro ⟨htarget, place, hplace, rfl, hentry⟩
    refine ⟨htarget, Option.map_eq_some_iff.mpr ⟨place, hplace, rfl⟩, ?_⟩
    exact (h.get?_path (h.firm_of_resolve hplace)).mpr hentry

/-- **Relative targets.** The directory of the text leads somewhere, and from there the target leads to the
file. -/
theorem find_disk_relative_iff (h : tree.WellFormed) (htarget : Path.isAbsolute target = false) :
    find tree.disk origin target = .ok (path, content) ↔
      target ≠ "" ∧ ∃ home place i j, i + j ≤ maxLinks ∧
        tree.Leads i (start tree.workingDirectory ((Path.parent? origin).getD ""))
          (Path.components ((Path.parent? origin).getD "")) home ∧
        tree.Leads j home (Path.components target) place ∧ place.path = path ∧
        tree.node? place = some (.entry (.file content)) := by
  rw [find_disk_eq_ok_iff h]
  refine and_congr_right fun hne => ?_
  simp only [targetPath, resolve_join_iff hne htarget]
  constructor
  · rintro ⟨place, ⟨home, i, j, hlinks, hhome, hplace⟩, hpath, hentry⟩
    exact ⟨home, place, i, j, hlinks, hhome, hplace, hpath, hentry⟩
  · rintro ⟨home, place, i, j, hlinks, hhome, hplace, hpath, hentry⟩
    exact ⟨place, ⟨home, i, j, hlinks, hhome, hplace⟩, hpath, hentry⟩

/-! ## Texts that were found -/

variable {directory : Place} {name : String}

/-- The directory of a place in a tree is the one that holds it. -/
theorem parent?_path (h : tree.Firm (directory ++ [name])) :
    Path.parent? (Place.path (directory ++ [name])) = some directory.path := by
  have hne : directory ++ [name] ≠ [] := List.append_ne_nil_of_right_ne_nil _ (List.cons_ne_nil _ _)
  have hcount : (directory ++ [name]).filter (fun c => c != "" && c != ".") = directory ++ [name] := by
    refine List.filter_eq_self.mpr fun c hc => ?_
    obtain ⟨⟨hblank, hdot, -⟩, -⟩ := h.isEntryName c hc
    simp [hblank, hdot]
  have hsignificant : Path.significant (Place.path (directory ++ [name])) = directory ++ [name] := by
    rw [Path.significant, Place.components_path_of_ne_nil h.spelled hne]
    exact hcount
  rw [Path.parent?, hsignificant]
  split
  · contradiction
  · rw [Place.isAbsolute_path, List.dropLast_concat]
    rfl

/-- Seen from the file at a place, a path leads to where it leads from the directory that holds the file. -/
theorem resolve_targetPath_iff (h : tree.Firm (directory ++ [name])) (htarget : target ≠ "") {place : Place} :
    tree.resolve (targetPath (Place.path (directory ++ [name])) target) = some place ↔
      ∃ links, links ≤ maxLinks ∧ tree.Leads links (start directory target) (Path.components target) place := by
  rw [targetPath, parent?_path h, Option.getD_some]
  by_cases habsolute : Path.isAbsolute target = true
  · have hjoin : Path.join directory.path target = target := if_pos (.inl habsolute)
    have hstart : ∀ home, start home target = [] := fun home => if_pos habsolute
    rw [hjoin, resolve_eq_some_iff, and_iff_right htarget, hstart, hstart]
  · have hrelative : Path.isAbsolute target = false := Bool.eq_false_iff.mpr habsolute
    have hstart : start directory target = directory := if_neg habsolute
    have hroot : start tree.workingDirectory directory.path = [] := if_pos directory.isAbsolute_path
    have hdirectory : tree.Firm directory := by simpa using h.dropLast
    rw [resolve_join_iff htarget hrelative, hstart, hroot]
    constructor
    · rintro ⟨home, i, j, hlinks, hhome, hplace⟩
      obtain rfl := hhome.unique hdirectory.leads_path
      exact ⟨j, by omega, hplace⟩
    · rintro ⟨links, hlinks, hplace⟩
      exact ⟨directory, 0, links, by omega, hdirectory.leads_path, hplace⟩

/-- **Targets in texts that were found.** The target leads to the file from the directory that holds the text. -/
theorem find_disk_inside_iff (h : tree.WellFormed) (horigin : tree.Firm (directory ++ [name])) :
    find tree.disk (Place.path (directory ++ [name])) target = .ok (path, content) ↔
      target ≠ "" ∧ ∃ place links, links ≤ maxLinks ∧
        tree.Leads links (start directory target) (Path.components target) place ∧ place.path = path ∧
        tree.node? place = some (.entry (.file content)) := by
  rw [find_disk_eq_ok_iff h]
  refine and_congr_right fun htarget => ?_
  simp only [resolve_targetPath_iff horigin htarget]
  constructor
  · rintro ⟨place, ⟨links, hlinks, hplace⟩, hpath, hentry⟩
    exact ⟨place, links, hlinks, hplace, hpath, hentry⟩
  · rintro ⟨place, links, hlinks, hplace, hpath, hentry⟩
    exact ⟨place, ⟨links, hlinks, hplace⟩, hpath, hentry⟩

-- `part` is looked for beside the file that the link leads to, and not beside the link.
example :
    let empty : Entry := .file ⟨#[]⟩
    let tree : FileTree := ⟨[], [(["link"], .link "in/main"), (["in"], .entry .directory),
      (["in", "main"], .entry empty), (["in", "part"], .entry empty)]⟩
    let found origin target := (find tree.disk origin target).toOption.map (·.1)
    found "-" "link" = some "/in/main" ∧ found "/in/main" "part" = some "/in/part" := by
  decide +kernel

/-- What is found is a file in a directory, so that its own instructions are as in `find_disk_inside_iff`. -/
theorem exists_origin_of_find (h : tree.WellFormed) (hfind : find tree.disk origin target = .ok (path, content)) :
    ∃ directory name, path = Place.path (directory ++ [name]) ∧ tree.Firm (directory ++ [name]) := by
  obtain ⟨-, place, hplace, rfl, hentry⟩ := (find_disk_eq_ok_iff h).mp hfind
  cases h.firm_of_resolve hplace with
  | root => cases hentry
  | inside hdirectory hisDirectory hname hslash hnode =>
      exact ⟨_, _, rfl, .inside hdirectory hisDirectory hname hslash hnode⟩

end Mapsto.Expansion
