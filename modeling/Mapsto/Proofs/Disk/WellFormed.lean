import Mapsto.Proofs.Disk.Leads

/-!
# `Mapsto.Proofs.Disk.WellFormed` — canonical spellings

From a working directory that can be reached, places are reached only along directories (`Leads.firm`), and the
path of such a place leads to it, and through no link (`Firm.leads_path`): the canonical spelling of a path is
canonical itself (`canonical?_canonical`), and what stands there is what stands at the place (`get?_path`).

Every tree that begins with a working directory and is built with `add` is of this kind
(`wellFormed_workingDirectory`, `WellFormed.add`).
-/

namespace Mapsto.FileTree

variable {tree : FileTree}

/-- A place that can be reached: what is on the way to it are directories, and what stands there is no link. -/
inductive Firm (tree : FileTree) : Place → Prop where
  | root : Firm tree []
  | inside {place : Place} {name : String} {e : Entry} (hplace : Firm tree place)
      (hdirectory : tree.isDirectory place = true) (hname : IsEntryName name) (hslash : '/' ∉ name.toList)
      (hentry : tree.node? (place ++ [name]) = some (.entry e)) : Firm tree (place ++ [name])

namespace Firm

variable {place : Place}

theorem dropLast (h : tree.Firm place) : tree.Firm place.dropLast := by
  cases h with
  | root => exact root
  | inside hplace _ _ _ _ => rwa [List.dropLast_concat]

theorem isEntryName (h : tree.Firm place) : ∀ name ∈ place, IsEntryName name ∧ '/' ∉ name.toList := by
  induction h with
  | root => exact List.forall_mem_nil _
  | inside _ _ hname hslash _ ih =>
      exact List.forall_mem_append.mpr ⟨ih, List.forall_mem_singleton.mpr ⟨hname, hslash⟩⟩

theorem spelled (h : tree.Firm place) : place.Spelled :=
  fun name hmem => ⟨(h.isEntryName name hmem).1.1, (h.isEntryName name hmem).2⟩

theorem exists_entry (h : tree.Firm place) : ∃ e, tree.node? place = some (.entry e) := by
  cases h with
  | root => exact ⟨.directory, rfl⟩
  | inside _ _ _ _ hentry => exact ⟨_, hentry⟩

theorem start (h : tree.Firm place) (path : String) : tree.Firm (FileTree.start place path) := by
  unfold FileTree.start
  split
  · exact root
  · exact h

/-- The names on the way to a place lead to it from the root. -/
theorem leads (h : tree.Firm place) : tree.Leads 0 [] place place := by
  induction h with
  | root => exact .here []
  | inside _ hdirectory hname _ hentry ih => exact ih.append (.entry hdirectory hname hentry (.here _))

/-- The path of a place leads to it, through no link. -/
theorem leads_path (h : tree.Firm place) : tree.Leads 0 [] (Path.components place.path) place := by
  by_cases hne : place = []
  · subst hne
    exact .stay rfl (.inl rfl) (.stay rfl (.inl rfl) (.here []))
  · rw [Place.components_path_of_ne_nil h.spelled hne]
    exact .stay rfl (.inl rfl) h.leads

theorem resolve_path (h : tree.Firm place) : tree.resolve place.path = some place := by
  have hstart : FileTree.start tree.workingDirectory place.path = [] := if_pos place.isAbsolute_path
  rw [resolve_eq_some_iff, hstart]
  exact ⟨place.path_ne_empty, 0, Nat.zero_le _, h.leads_path⟩

end Firm

/-- **Step by step.** Whatever can be reached from a place that can be reached can be reached. -/
theorem Leads.firm {n : Nat} {place last : Place} {names : List String} (h : tree.Leads n place names last)
    (hplace : tree.Firm place) (hnames : ∀ name ∈ names, '/' ∉ name.toList) : tree.Firm last := by
  induction h with
  | here place => exact hplace
  | stay _ _ _ ih => exact ih hplace (List.forall_mem_cons.mp hnames).2
  | up _ _ ih => exact ih hplace.dropLast (List.forall_mem_cons.mp hnames).2
  | entry hdirectory hname hentry _ ih =>
      obtain ⟨hslash, hrest⟩ := List.forall_mem_cons.mp hnames
      exact ih (.inside hplace hdirectory hname hslash hentry) hrest
  | link _ _ _ _ ih =>
      refine ih (hplace.start _) (List.forall_mem_append.mpr ⟨?_, (List.forall_mem_cons.mp hnames).2⟩)
      exact fun name hname => Path.slash_not_mem_of_mem_components hname

/-- Files and directories have names that can be told apart, and the working directory can be reached. -/
structure WellFormed (tree : FileTree) : Prop where
  spelled : ∀ n ∈ tree.nodes, n.1.Spelled
  workingDirectory : tree.Firm tree.workingDirectory

section WellFormed

variable (h : tree.WellFormed)

include h

theorem WellFormed.firm_of_resolve {path : String} {place : Place} (hplace : tree.resolve path = some place) :
    tree.Firm place := by
  obtain ⟨-, n, -, hleads⟩ := resolve_eq_some_iff.mp hplace
  exact hleads.firm (h.workingDirectory.start path) fun _ hname => Path.slash_not_mem_of_mem_components hname

/-- **Canonical spellings.** The canonical spelling of a path is its own canonical spelling. -/
theorem WellFormed.canonical?_canonical {path spelling : String} (hpath : tree.disk.canonical? path = some spelling) :
    tree.disk.canonical? spelling = some spelling := by
  obtain ⟨place, hplace, rfl⟩ := Option.map_eq_some_iff.mp hpath
  exact Option.map_eq_some_iff.mpr ⟨place, (h.firm_of_resolve hplace).resolve_path, rfl⟩

omit h in
/-- Among nodes with names that can be told apart, the first at a place is the first at its path. -/
theorem find?_filterMap_path {nodes : List (Place × Node)} (hnodes : ∀ n ∈ nodes, n.1.Spelled) {place : Place}
    (hplace : place.Spelled) {e : Entry}
    (he : (nodes.find? fun n => n.1 == place).map (·.2) = some (.entry e)) :
    ((nodes.filterMap fun n =>
      match n.2 with
      | .entry e => some (n.1.path, e)
      | .link _ => none).find? fun n => n.1 == place.path).map (·.2) = some e := by
  induction nodes with
  | nil => cases he
  | cons n rest ih =>
      obtain ⟨hn, hrest⟩ := List.forall_mem_cons.mp hnodes
      obtain ⟨held, node⟩ := n
      by_cases hsame : held = place
      · rw [List.find?_cons_of_pos (by simpa using hsame)] at he
        obtain rfl : node = .entry e := Option.some.inj he
        simp only [List.filterMap_cons]
        rw [List.find?_cons_of_pos (by simp [hsame])]
        rfl
      · rw [List.find?_cons_of_neg (by simpa using hsame)] at he
        cases node with
        | link target =>
            exact ih hrest he
        | entry e' =>
            have hpath : held.path ≠ place.path := fun heq => hsame (Place.path_injective hn hplace heq)
            simp only [List.filterMap_cons]
            rw [List.find?_cons_of_neg (by simpa using hpath)]
            exact ih hrest he

/-- At the path of a place stands what stands at the place. -/
theorem WellFormed.get?_path {place : Place} (hplace : tree.Firm place) {e : Entry} :
    tree.disk.get? place.path = some e ↔ tree.node? place = some (.entry e) := by
  have hget : ∀ {e : Entry}, tree.node? place = some (.entry e) → tree.disk.get? place.path = some e := by
    intro e he
    simp only [Disk.get?, disk]
    by_cases hroot : place = []
    · subst hroot
      rw [List.find?_cons_of_pos (by simp)]
      cases he
      rfl
    · have hpath : Place.path [] ≠ place.path :=
        fun heq => hroot (Place.path_injective hplace.spelled (List.forall_mem_nil _) heq.symm)
      rw [List.find?_cons_of_neg (by simpa using hpath)]
      refine find?_filterMap_path h.spelled hplace.spelled ?_
      rwa [node?] at he
      exact hroot
  constructor
  · intro he
    obtain ⟨e', he'⟩ := hplace.exists_entry
    rwa [Option.some.inj (he.symm.trans (hget he'))]
  · exact hget

end WellFormed

/-! ## Trees that are built -/

theorem isDirectory_iff {place : Place} :
    tree.isDirectory place = true ↔ tree.node? place = some (.entry .directory) := by
  unfold isDirectory
  split
  · rename_i hplace
    exact iff_of_true rfl hplace
  · rename_i hplace
    exact iff_of_false Bool.false_ne_true hplace

/-- What stands at a place of one tree stands there in the other. -/
def Within (tree larger : FileTree) : Prop :=
  ∀ ⦃place : Place⦄ ⦃node : Node⦄, tree.node? place = some node → larger.node? place = some node

theorem Firm.within {larger : FileTree} (hlarger : tree.Within larger) {place : Place} (h : tree.Firm place) :
    larger.Firm place := by
  induction h with
  | root => exact root
  | inside _ hdirectory hname hslash hentry ih =>
      exact inside ih (isDirectory_iff.mpr (hlarger (isDirectory_iff.mp hdirectory))) hname hslash (hlarger hentry)

/-- Behind one more node, what stands at a place stands there still. -/
theorem node?_concat (tree : FileTree) (place : Place) (node : Node) {other : Place} (hne : other ≠ []) :
    node? { tree with nodes := tree.nodes ++ [(place, node)] } other =
      (tree.node? other).or (if place = other then some node else none) := by
  rw [node?, node?, List.find?_append, Option.map_or]
  · by_cases hsame : place = other
    · rw [if_pos hsame, List.find?_cons_of_pos (by simpa using hsame), Option.map_some]
    · rw [if_neg hsame, List.find?_cons_of_neg (by simpa using hsame), List.find?_nil, Option.map_none]
  · exact hne
  · exact hne

/-- **Step lemma.** Putting something at a place changes what stands there if nothing did, and nothing else. -/
theorem node?_insert (tree : FileTree) (place : Place) (node : Node) (other : Place) :
    (tree.insert place node).node? other = (tree.node? other).or (if place = other then some node else none) := by
  unfold insert
  split
  · rename_i held hplace
    by_cases hsame : place = other
    · rw [← hsame, hplace, Option.some_or]
    · rw [if_neg hsame, Option.or_none]
  · rename_i hplace
    by_cases hne : other = []
    · rw [hne]
      rfl
    · exact node?_concat tree place node hne

/-- **Run lemma.** Adding something makes directories of the places on the way where nothing stood, puts it where
nothing stood, and changes nothing else. -/
theorem node?_add (tree : FileTree) (place : Place) (node : Node) (other : Place) :
    (tree.add place node).node? other =
      ((tree.node? other).or
        (if ∃ n, n < place.length ∧ place.take n = other then some (.entry .directory) else none)).or
          (if place = other then some node else none) := by
  have hparents : ∀ (tree : FileTree) (lengths : List Nat),
      (lengths.foldl (fun t n => t.insert (place.take n) (.entry .directory)) tree).node? other =
        (tree.node? other).or (if ∃ n ∈ lengths, place.take n = other then some (.entry .directory) else none) := by
    intro tree lengths
    induction lengths generalizing tree with
    | nil => simp
    | cons n lengths ih =>
        rw [List.foldl_cons, ih, node?_insert, Option.or_assoc]
        by_cases hn : place.take n = other
        · simp [hn]
        · simp [hn]
  rw [add, node?_insert, insertParents, hparents]
  simp only [List.mem_range]

theorem within_add (tree : FileTree) (place : Place) (node : Node) : tree.Within (tree.add place node) := by
  intro other held hheld
  rw [node?_add, hheld, Option.some_or, Option.some_or]

theorem workingDirectory_insert (tree : FileTree) (place : Place) (node : Node) :
    (tree.insert place node).workingDirectory = tree.workingDirectory := by
  unfold insert
  split <;> rfl

theorem workingDirectory_add (tree : FileTree) (place : Place) (node : Node) :
    (tree.add place node).workingDirectory = tree.workingDirectory := by
  rw [add, workingDirectory_insert]
  exact List.foldlRecOn (motive := fun t : FileTree => t.workingDirectory = tree.workingDirectory) _ _ rfl
    fun t h n _ => (workingDirectory_insert t _ _).trans h

theorem spelled_insert (h : ∀ n ∈ tree.nodes, n.1.Spelled) {place : Place} (hplace : place.Spelled) (node : Node) :
    ∀ n ∈ (tree.insert place node).nodes, n.1.Spelled := by
  unfold insert
  split
  · exact h
  · exact List.forall_mem_append.mpr ⟨h, List.forall_mem_singleton.mpr hplace⟩

theorem spelled_add (h : ∀ n ∈ tree.nodes, n.1.Spelled) {place : Place} (hplace : place.Spelled) (node : Node) :
    ∀ n ∈ (tree.add place node).nodes, n.1.Spelled := by
  refine spelled_insert ?_ hplace node
  exact List.foldlRecOn (motive := fun t : FileTree => ∀ n ∈ t.nodes, n.1.Spelled) _ _ h
    fun t h n _ => spelled_insert h (hplace.take n) _

/-- A tree to which something is added is as well formed as before. -/
theorem WellFormed.add (h : tree.WellFormed) {place : Place} (hplace : place.Spelled) (node : Node) :
    (tree.add place node).WellFormed where
  spelled := spelled_add h.spelled hplace node
  workingDirectory := by
    rw [workingDirectory_add]
    exact h.workingDirectory.within (within_add tree place node)

theorem Firm.of_isDirectory {place : Place} (hnames : ∀ name ∈ place, IsEntryName name ∧ '/' ∉ name.toList)
    (h : ∀ n, tree.isDirectory (place.take n) = true) : tree.Firm place := by
  have hfirm : ∀ n, tree.Firm (place.take n) := by
    intro n
    induction n with
    | zero => exact root
    | succ n ih =>
        by_cases hn : n < place.length
        · have hnext := h (n + 1)
          obtain ⟨hname, hslash⟩ := hnames place[n] (List.getElem_mem hn)
          rw [List.take_succ_eq_append_getElem hn] at hnext ⊢
          exact inside ih (h n) hname hslash (isDirectory_iff.mp hnext)
        · rwa [List.take_of_length_le (Nat.le_succ_of_le (Nat.not_lt.mp hn)),
            ← List.take_of_length_le (Nat.not_lt.mp hn)]
  simpa using hfirm place.length

/-- The tree that holds a working directory only is well formed. -/
theorem wellFormed_workingDirectory {place : Place}
    (hnames : ∀ name ∈ place, IsEntryName name ∧ '/' ∉ name.toList) :
    (add ⟨place, []⟩ place (.entry .directory)).WellFormed where
  spelled := by
    refine spelled_add (List.forall_mem_nil _) ?_ _
    exact fun name hname => ⟨(hnames name hname).1.1, (hnames name hname).2⟩
  workingDirectory := by
    rw [workingDirectory_add]
    refine .of_isDirectory hnames fun n => isDirectory_iff.mpr ?_
    have hempty : ∀ other,
        node? ⟨place, []⟩ other = none ∨ node? ⟨place, []⟩ other = some (.entry .directory) := by
      intro other
      cases other with
      | nil => exact .inr rfl
      | cons _ _ => exact .inl rfl
    rw [node?_add]
    obtain hnode | hnode := hempty (place.take n)
    · rw [hnode, Option.none_or]
      by_cases hn : n < place.length
      · rw [if_pos ⟨n, hn, rfl⟩, Option.some_or]
      · rw [if_pos (List.take_of_length_le (Nat.not_lt.mp hn)).symm]
        split <;> rfl
    · rw [hnode, Option.some_or, Option.some_or]

end Mapsto.FileTree
