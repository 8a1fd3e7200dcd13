import Mapsto.Disk.Tree

/-!
# `Mapsto.Proofs.Disk.Components` — paths and their components

A slash ends a component and is part of none. So a path that was put together of components has these components
(`components_intercalate`), and one that was joined to a directory has those of both (`join_cases`). The path of a
place has the names on the way to it, behind a blank one for the root; where the names hold no slashes, it
belongs to one place only (`Place.path_injective`).
-/

namespace Mapsto

namespace Path

theorem go_ne_nil (cs : List Char) : components.go cs ≠ [] := by
  cases cs with
  | nil => nofun
  | cons c cs =>
      rw [components.go]
      split
      · nofun
      · split <;> nofun

/-- A slash ends a component. -/
theorem go_append_slash (first second : List Char) :
    components.go (first ++ '/' :: second) = components.go first ++ components.go second := by
  induction first with
  | nil => rfl
  | cons c first ih =>
      rw [List.cons_append, components.go, components.go, ih]
      by_cases hc : c = '/'
      · rw [if_pos hc, if_pos hc, List.cons_append]
      · rw [if_neg hc, if_neg hc]
        cases hfirst : components.go first with
        | nil => exact absurd hfirst (go_ne_nil first)
        | cons piece pieces => rfl

/-- No slash is part of a component. -/
theorem slash_not_mem_of_mem_components {path name : String} (h : name ∈ components path) :
    '/' ∉ name.toList := by
  have hgo : ∀ cs : List Char, ∀ piece ∈ components.go cs, '/' ∉ piece := by
    intro cs
    induction cs with
    | nil =>
        intro piece hpiece
        rw [List.mem_singleton.mp hpiece]
        exact List.not_mem_nil
    | cons c cs ih =>
        rw [components.go]
        split
        · exact List.forall_mem_cons.mpr ⟨List.not_mem_nil, ih⟩
        · rename_i hc
          have hc' : '/' ≠ c := fun heq => hc heq.symm
          split
          · exact List.forall_mem_singleton.mpr fun hmem => hc' (List.mem_singleton.mp hmem)
          · rename_i piece pieces hpieces
            rw [hpieces] at ih
            obtain ⟨hpiece, hrest⟩ := List.forall_mem_cons.mp ih
            refine List.forall_mem_cons.mpr ⟨fun hmem => ?_, hrest⟩
            exact (List.mem_cons.mp hmem).elim hc' hpiece
  obtain ⟨piece, hpiece, rfl⟩ := List.mem_map.mp h
  rw [String.toList_ofList]
  exact hgo _ piece hpiece

theorem components_append_slash (first second : String) :
    components (first ++ "/" ++ second) = components first ++ components second := by
  have htext : (first ++ "/" ++ second).toList = first.toList ++ '/' :: second.toList := by
    simp [String.toList_append]
  rw [components, htext, go_append_slash, List.map_append]
  rfl

theorem components_ne_nil (path : String) : components path ≠ [] := by
  rw [components, ne_eq, List.map_eq_nil_iff]
  exact go_ne_nil _

theorem components_of_slash_not_mem {name : String} (h : '/' ∉ name.toList) : components name = [name] := by
  have hgo : ∀ cs : List Char, '/' ∉ cs → components.go cs = [cs] := by
    intro cs hcs
    induction cs with
    | nil => rfl
    | cons c cs ih =>
        obtain ⟨hc, hrest⟩ := not_or.mp (fun hmem => hcs (List.mem_cons.mpr hmem))
        rw [components.go, if_neg (fun heq => hc heq.symm), ih hrest]
  rw [components, hgo _ h, List.map_singleton, String.ofList_toList]

theorem components_intercalate {names : List String} (hne : names ≠ []) (h : ∀ name ∈ names, '/' ∉ name.toList) :
    components ("/".intercalate names) = names := by
  induction names with
  | nil => exact absurd rfl hne
  | cons name rest ih =>
      obtain ⟨hname, hrest⟩ := List.forall_mem_cons.mp h
      cases rest with
      | nil => rw [String.intercalate_singleton, components_of_slash_not_mem hname]
      | cons next rest =>
          rw [String.intercalate_cons_cons, components_append_slash, components_of_slash_not_mem hname,
            ih (List.cons_ne_nil _ _) hrest]
          rfl

theorem isAbsolute_append {first : String} (h : first ≠ "") (second : String) :
    isAbsolute (first ++ second) = isAbsolute first := by
  unfold isAbsolute
  rw [String.toList_append]
  cases hfirst : first.toList with
  | nil => exact absurd (String.toList_eq_nil_iff.mp hfirst) h
  | cons c cs =>
      by_cases hc : c = '/'
      · subst hc
        rfl
      · simp [hc]

/-- A path that is joined to a directory begins where the directory does. Its components are those of both, but
for the blank one behind a slash at the end of the directory. -/
theorem join_cases {directory path : String} (hdirectory : directory ≠ "") (hpath : isAbsolute path = false) :
    join directory path ≠ "" ∧ isAbsolute (join directory path) = isAbsolute directory ∧
      (components (join directory path) = components directory ++ components path ∨
        ∃ names, components directory = names ++ [""] ∧
          components (join directory path) = names ++ components path) := by
  have hne : ∀ {second : String}, directory ++ second ≠ "" := by
    intro second h
    exact hdirectory (String.append_eq_empty_iff.mp h).1
  unfold join
  rw [if_neg (by simp [hpath, hdirectory])]
  split
  · rename_i hslash
    obtain ⟨cs, hcs⟩ := List.getLast?_eq_some_iff.mp hslash
    have hended : directory = String.ofList cs ++ "/" := by
      rw [← String.toList_inj, hcs, String.toList_append, String.toList_ofList]
      rfl
    refine ⟨hne, isAbsolute_append hdirectory path, .inr ⟨components (String.ofList cs), ?_, ?_⟩⟩
    · have hcomponents := components_append_slash (String.ofList cs) ""
      rwa [String.append_empty, ← hended] at hcomponents
    · rw [hended, components_append_slash]
  · refine ⟨?_, ?_, .inl (components_append_slash directory path)⟩
    · rw [String.append_assoc]
      exact hne
    · rw [String.append_assoc, isAbsolute_append hdirectory]

end Path

namespace Place

/-- The names on the way to a place can be told apart in its path. -/
def Spelled (place : Place) : Prop := ∀ name ∈ place, name ≠ "" ∧ '/' ∉ name.toList

theorem Spelled.take {place : Place} (h : place.Spelled) (n : Nat) : Spelled (place.take n) :=
  fun name hname => h name (List.mem_of_mem_take hname)

theorem isAbsolute_path (place : Place) : Path.isAbsolute place.path = true := by
  unfold Path.isAbsolute path Path.ofComponents
  rw [String.toList_append]
  rfl

theorem path_ne_empty (place : Place) : place.path ≠ "" := by
  intro h
  have habsolute := place.isAbsolute_path
  rw [h] at habsolute
  cases habsolute

theorem components_path (place : Place) :
    Path.components place.path = "" :: Path.components ("/".intercalate place) := by
  have hpath : place.path = "" ++ "/" ++ "/".intercalate place := by
    rw [String.empty_append]
    rfl
  rw [hpath, Path.components_append_slash]
  rfl

theorem components_path_of_ne_nil {place : Place} (h : place.Spelled) (hne : place ≠ []) :
    Path.components place.path = "" :: place := by
  rw [components_path, Path.components_intercalate hne fun name hname => (h name hname).2]

/-- Places with the same path are the same. -/
theorem path_injective {place other : Place} (h : place.Spelled) (hother : other.Spelled)
    (heq : place.path = other.path) : place = other := by
  have hroot : ∀ {place : Place}, place.Spelled → place.path = Place.path [] → place = [] := by
    intro place h heq
    refine Classical.byContradiction fun hne => ?_
    have hcomponents := components_path_of_ne_nil h hne
    rw [heq] at hcomponents
    have hnames : place = [""] := (List.cons.inj hcomponents).2.symm
    exact (h "" (by rw [hnames]; exact List.mem_singleton_self _)).1 rfl
  by_cases hne : place = []
  · subst hne
    exact (hroot hother heq.symm).symm
  by_cases hne' : other = []
  · subst hne'
    exact hroot h heq
  · have hcomponents := components_path_of_ne_nil h hne
    rw [heq, components_path_of_ne_nil hother hne'] at hcomponents
    exact (List.cons.inj hcomponents).2.symm

end Place

end Mapsto
