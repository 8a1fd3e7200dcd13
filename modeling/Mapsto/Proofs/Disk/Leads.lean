import Mapsto.Proofs.Disk.Components

/-!
# `Mapsto.Proofs.Disk.Leads` — where paths lead

To find the canonical spelling of a path, a tree is gone through component by component, with a budget of links
that is handed from one walk to the next. `Leads` says the same without a budget: the components lead from one
place to another, through so many links. `walkWithin_eq_some_iff` is that both agree.

**Paths in two parts.** A walk along some components and then others is a walk along the first ones, and one
along the others from where it ended (`leads_append_iff`); the links of both count. So a path that was joined to
a directory leads from the place of the directory on (`resolve_join_iff`).
-/

namespace Mapsto

namespace FileTree

/-- A component that stands for something in a directory. -/
def IsEntryName (name : String) : Prop := name ≠ "" ∧ name ≠ "." ∧ name ≠ ".."

variable {tree : FileTree}

/-- The components `names` lead from `place` to `last`, through `n` links. -/
inductive Leads (tree : FileTree) : (n : Nat) → (place : Place) → (names : List String) → (last : Place) → Prop where
  | here (place : Place) : Leads tree 0 place [] place
  | stay {n : Nat} {place last : Place} {name : String} {rest : List String}
      (hdirectory : tree.isDirectory place = true) (hname : name = "" ∨ name = ".")
      (h : Leads tree n place rest last) : Leads tree n place (name :: rest) last
  | up {n : Nat} {place last : Place} {rest : List String} (hdirectory : tree.isDirectory place = true)
      (h : Leads tree n place.dropLast rest last) : Leads tree n place (".." :: rest) last
  | entry {n : Nat} {place last : Place} {name : String} {rest : List String} {e : Entry}
      (hdirectory : tree.isDirectory place = true) (hname : IsEntryName name)
      (hentry : tree.node? (place ++ [name]) = some (.entry e))
      (h : Leads tree n (place ++ [name]) rest last) : Leads tree n place (name :: rest) last
  | link {n : Nat} {place last : Place} {name target : String} {rest : List String}
      (hdirectory : tree.isDirectory place = true) (hname : IsEntryName name)
      (hlink : tree.node? (place ++ [name]) = some (.link target))
      (h : Leads tree n (start place target) (Path.components target ++ rest) last) :
      Leads tree (n + 1) place (name :: rest) last

namespace Leads

variable {n i j : Nat} {place middle last : Place} {name : String} {first second rest : List String}

theorem nil_iff : tree.Leads n place [] last ↔ n = 0 ∧ last = place := by
  constructor
  · rintro ⟨⟩
    exact ⟨rfl, rfl⟩
  · rintro ⟨rfl, rfl⟩
    exact here last

theorem isDirectory_of_cons (h : tree.Leads n place (name :: rest) last) : tree.isDirectory place = true := by
  cases h <;> assumption

/-- A blank component leads nowhere else, but only a directory can be followed by one. -/
theorem stay_iff (hname : name = "" ∨ name = ".") :
    tree.Leads n place (name :: rest) last ↔ tree.isDirectory place = true ∧ tree.Leads n place rest last := by
  constructor
  · intro h
    cases h with
    | stay hdirectory _ h => exact ⟨hdirectory, h⟩
    | up _ _ => exact absurd hname (by decide)
    | entry _ hentry _ _ => exact absurd hname (not_or.mpr ⟨hentry.1, hentry.2.1⟩)
    | link _ hentry _ _ => exact absurd hname (not_or.mpr ⟨hentry.1, hentry.2.1⟩)
  · rintro ⟨hdirectory, h⟩
    exact stay hdirectory hname h

theorem up_iff :
    tree.Leads n place (".." :: rest) last ↔
      tree.isDirectory place = true ∧ tree.Leads n place.dropLast rest last := by
  constructor
  · intro h
    cases h with
    | stay _ hname _ => exact absurd hname (by decide)
    | up hdirectory h => exact ⟨hdirectory, h⟩
    | entry _ hname _ _ => exact absurd rfl hname.2.2
    | link _ hname _ _ => exact absurd rfl hname.2.2
  · rintro ⟨hdirectory, h⟩
    exact up hdirectory h

/-- A name leads to what stands there, and where that is a link, to where the link leads. -/
theorem name_iff (hname : IsEntryName name) :
    tree.Leads n place (name :: rest) last ↔ tree.isDirectory place = true ∧
      ((∃ e, tree.node? (place ++ [name]) = some (.entry e) ∧ tree.Leads n (place ++ [name]) rest last) ∨
        ∃ target m, tree.node? (place ++ [name]) = some (.link target) ∧ n = m + 1 ∧
          tree.Leads m (start place target) (Path.components target ++ rest) last) := by
  constructor
  · intro h
    cases h with
    | stay _ hblank _ => exact absurd hblank (not_or.mpr ⟨hname.1, hname.2.1⟩)
    | up _ _ => exact absurd rfl hname.2.2
    | entry hdirectory _ hentry h => exact ⟨hdirectory, .inl ⟨_, hentry, h⟩⟩
    | link hdirectory _ hlink h => exact ⟨hdirectory, .inr ⟨_, _, hlink, rfl, h⟩⟩
  · rintro ⟨hdirectory, ⟨e, hentry, h⟩ | ⟨target, m, hlink, rfl, h⟩⟩
    · exact entry hdirectory hname hentry h
    · exact link hdirectory hname hlink h

/-! ## Some components and then others -/

theorem append (h : tree.Leads i place first middle) (h' : tree.Leads j middle second last) :
    tree.Leads (i + j) place (first ++ second) last := by
  induction h with
  | here place => rwa [Nat.zero_add]
  | stay hdirectory hname _ ih => exact stay hdirectory hname (ih h')
  | up hdirectory _ ih => exact up hdirectory (ih h')
  | entry hdirectory hname hentry _ ih => exact entry hdirectory hname hentry (ih h')
  | link hdirectory hname hlink _ ih =>
      have hbehind := ih h'
      rw [List.append_assoc] at hbehind
      rw [Nat.add_right_comm]
      exact link hdirectory hname hlink hbehind

theorem exists_of_append (h : tree.Leads n place (first ++ second) last) :
    ∃ middle i j, n = i + j ∧ tree.Leads i place first middle ∧ tree.Leads j middle second last := by
  generalize hnames : first ++ second = names at h
  -- Where the first components are used up, all of the walk belongs to the others.
  have hnone : ∀ {n : Nat} {place last : Place}, tree.Leads n place second last →
      ∃ middle i j, n = i + j ∧ tree.Leads i place [] middle ∧ tree.Leads j middle second last :=
    fun h => ⟨_, 0, _, (Nat.zero_add _).symm, here _, h⟩
  induction h generalizing first with
  | here place =>
      obtain ⟨rfl, rfl⟩ := List.append_eq_nil_iff.mp hnames
      exact hnone (here place)
  | stay hdirectory hname h ih =>
      obtain ⟨rfl, rfl⟩ | ⟨first, rfl, hrest⟩ := List.append_eq_cons_iff.mp hnames
      · exact hnone (stay hdirectory hname h)
      · obtain ⟨middle, i, j, hn, hfirst, hsecond⟩ := ih hrest.symm
        exact ⟨middle, i, j, hn, stay hdirectory hname hfirst, hsecond⟩
  | up hdirectory h ih =>
      obtain ⟨rfl, rfl⟩ | ⟨first, rfl, hrest⟩ := List.append_eq_cons_iff.mp hnames
      · exact hnone (up hdirectory h)
      · obtain ⟨middle, i, j, hn, hfirst, hsecond⟩ := ih hrest.symm
        exact ⟨middle, i, j, hn, up hdirectory hfirst, hsecond⟩
  | entry hdirectory hname hentry h ih =>
      obtain ⟨rfl, rfl⟩ | ⟨first, rfl, hrest⟩ := List.append_eq_cons_iff.mp hnames
      · exact hnone (entry hdirectory hname hentry h)
      · obtain ⟨middle, i, j, hn, hfirst, hsecond⟩ := ih hrest.symm
        exact ⟨middle, i, j, hn, entry hdirectory hname hentry hfirst, hsecond⟩
  | link hdirectory hname hlink h ih =>
      obtain ⟨rfl, rfl⟩ | ⟨first, rfl, hrest⟩ := List.append_eq_cons_iff.mp hnames
      · exact hnone (link hdirectory hname hlink h)
      · obtain ⟨middle, i, j, rfl, hfirst, hsecond⟩ := ih (by rw [List.append_assoc, hrest])
        exact ⟨middle, i + 1, j, Nat.add_right_comm i j 1, link hdirectory hname hlink hfirst, hsecond⟩

end Leads

/-- **Paths in two parts.** Some components and then others lead to where the others lead from the place that
the first ones lead to. -/
theorem leads_append_iff {n : Nat} {place last : Place} {first second : List String} :
    tree.Leads n place (first ++ second) last ↔
      ∃ middle i j, n = i + j ∧ tree.Leads i place first middle ∧ tree.Leads j middle second last := by
  constructor
  · exact Leads.exists_of_append
  · rintro ⟨middle, i, j, rfl, hfirst, hsecond⟩
    exact hfirst.append hsecond

/-! ## The walk -/

/-- **Step lemma.** If going on behind a link is a matter of fewer than `m` links, a walk is one of `m` links
at most. -/
theorem walk_eq_some_iff {follow : Place → List String → Option Place} {m : Nat} {last : Place}
    (hfollow : ∀ place names, follow place names = some last ↔ ∃ n, n < m ∧ tree.Leads n place names last)
    {place : Place} {names : List String} :
    tree.walk follow place names = some last ↔ ∃ n, n ≤ m ∧ tree.Leads n place names last := by
  induction names generalizing place with
  | nil =>
      simp only [walk, Leads.nil_iff, Option.some.injEq]
      constructor
      · exact fun h => ⟨0, Nat.zero_le m, rfl, h.symm⟩
      · exact fun ⟨_, _, _, h⟩ => h.symm
  | cons name rest ih =>
      rw [walk]
      by_cases hdirectory : tree.isDirectory place = true
      case neg =>
        rw [if_pos (by simp [hdirectory])]
        exact iff_of_false nofun fun ⟨_, _, h⟩ => hdirectory h.isDirectory_of_cons
      rw [if_neg (by simp [hdirectory])]
      by_cases hblank : name = "" ∨ name = "."
      · simp only [if_pos hblank, ih, Leads.stay_iff hblank, hdirectory, true_and]
      rw [if_neg hblank]
      by_cases hup : name = ".."
      · subst hup
        simp only [if_true, ih, Leads.up_iff, hdirectory, true_and]
      have hname : IsEntryName name := ⟨fun h => hblank (.inl h), fun h => hblank (.inr h), hup⟩
      simp only [if_neg hup, Leads.name_iff hname, hdirectory, true_and]
      rcases hnode : tree.node? (place ++ [name]) with _ | ⟨e | target⟩
      · simp
      · simp [ih]
      · simp only [hfollow]
        constructor
        · rintro ⟨n, hn, h⟩
          exact ⟨n + 1, hn, .inr ⟨target, n, rfl, rfl, h⟩⟩
        · rintro ⟨n, hn, ⟨e, hentry, _⟩ | ⟨_, n, ⟨⟩, rfl, h⟩⟩
          · cases hentry
          · exact ⟨n, hn, h⟩

/-- **Run lemma.** A walk of `n` links at most finds the place that the components lead to through no more
links. -/
theorem walkWithin_eq_some_iff {n : Nat} {place last : Place} {names : List String} :
    tree.walkWithin n place names = some last ↔ ∃ links, links ≤ n ∧ tree.Leads links place names last := by
  induction n generalizing place names with
  | zero =>
      refine walk_eq_some_iff fun _ _ => iff_of_false (Option.some_ne_none _).symm ?_
      exact fun ⟨_, h, _⟩ => Nat.not_lt_zero _ h
  | succ n ih => exact walk_eq_some_iff fun place names => by simp only [ih, Nat.lt_succ_iff]

/-- Components lead to one place only. -/
theorem Leads.unique {i j : Nat} {place last last' : Place} {names : List String}
    (h : tree.Leads i place names last) (h' : tree.Leads j place names last') : last = last' := by
  have hlast := walkWithin_eq_some_iff.mpr ⟨i, Nat.le_max_left i j, h⟩
  have hlast' := walkWithin_eq_some_iff.mpr ⟨j, Nat.le_max_right i j, h'⟩
  exact Option.some.inj (hlast.symm.trans hlast')

/-! ## Joined paths -/

theorem leads_concat_blank_iff {n : Nat} {place last : Place} {names : List String} :
    tree.Leads n place (names ++ [""]) last ↔ tree.Leads n place names last ∧ tree.isDirectory last = true := by
  simp only [leads_append_iff, Leads.stay_iff (.inl rfl), Leads.nil_iff]
  constructor
  · rintro ⟨_, _, _, rfl, h, hdirectory, rfl, rfl⟩
    exact ⟨h, hdirectory⟩
  · rintro ⟨h, hdirectory⟩
    exact ⟨last, n, 0, rfl, h, hdirectory, rfl, rfl⟩

theorem Leads.isDirectory_of_components {n : Nat} {place last : Place} {path : String}
    (h : tree.Leads n place (Path.components path) last) : tree.isDirectory place = true := by
  obtain ⟨name, rest, hnames⟩ := List.exists_cons_of_ne_nil (Path.components_ne_nil path)
  rw [hnames] at h
  exact h.isDirectory_of_cons

theorem resolve_eq_some_iff {path : String} {place : Place} :
    tree.resolve path = some place ↔ path ≠ "" ∧ ∃ links, links ≤ maxLinks ∧
      tree.Leads links (start tree.workingDirectory path) (Path.components path) place := by
  unfold resolve
  by_cases hpath : path = ""
  · rw [if_pos hpath]
    exact iff_of_false nofun fun h => h.1 hpath
  · rw [if_neg hpath, walkWithin_eq_some_iff]
    exact (and_iff_right hpath).symm

/-- **Joined paths.** A relative path that is joined to a directory leads to where it leads from the place of the
directory. The empty text stands for the working directory. -/
theorem resolve_join_iff {directory path : String} (hne : path ≠ "") (hpath : Path.isAbsolute path = false)
    {place : Place} :
    tree.resolve (Path.join directory path) = some place ↔
      ∃ home i j, i + j ≤ maxLinks ∧
        tree.Leads i (start tree.workingDirectory directory) (Path.components directory) home ∧
        tree.Leads j home (Path.components path) place := by
  rw [resolve_eq_some_iff]
  by_cases hdirectory : directory = ""
  · have hjoin : Path.join directory path = path := if_pos (.inr hdirectory)
    have hstart : start tree.workingDirectory path = tree.workingDirectory := if_neg (by simp [hpath])
    rw [hjoin, hstart, hdirectory]
    constructor
    · rintro ⟨-, j, hj, h⟩
      exact ⟨_, 0, j, (Nat.zero_add j).symm ▸ hj, .stay h.isDirectory_of_components (.inl rfl) (.here _), h⟩
    · rintro ⟨home, i, j, hlinks, hhome, h⟩
      obtain ⟨-, rfl, rfl⟩ := (Leads.stay_iff (.inl rfl)).trans (and_congr_right' Leads.nil_iff) |>.mp hhome
      exact ⟨hne, j, by omega, h⟩
  obtain ⟨hjoin, habsolute, hcomponents⟩ := Path.join_cases hdirectory hpath
  have hstart : start tree.workingDirectory (Path.join directory path) = start tree.workingDirectory directory := by
    rw [start, habsolute, start]
  rw [and_iff_right hjoin, hstart]
  obtain hcomponents | ⟨names, hnames, hcomponents⟩ := hcomponents
  · simp only [hcomponents, leads_append_iff]
    constructor
    · rintro ⟨_, hlinks, home, i, j, rfl, hhome, h⟩
      exact ⟨home, i, j, hlinks, hhome, h⟩
    · rintro ⟨home, i, j, hlinks, hhome, h⟩
      exact ⟨_, hlinks, home, i, j, rfl, hhome, h⟩
  · simp only [hcomponents, hnames, leads_concat_blank_iff]
    simp only [leads_append_iff]
    constructor
    · rintro ⟨_, hlinks, home, i, j, rfl, hhome, h⟩
      exact ⟨home, i, j, hlinks, ⟨hhome, h.isDirectory_of_components⟩, h⟩
    · rintro ⟨home, i, j, hlinks, ⟨hhome, -⟩, h⟩
      exact ⟨_, hlinks, home, i, j, rfl, hhome, h⟩

end FileTree

end Mapsto
