import Mapsto.Proofs.Expansion.Plain

/-!
# `Mapsto.Proofs.Expansion.DepthFirst` — one list of lines, or a tree of files

`expandLines` has one list of lines to look at, in which the lines of many files follow each other. What it
should do is said here file by file: `walk` goes through the lines of one text, and where a line includes a
file it goes through the lines of that file, with that file's own name and its own line numbers, before it
goes on. The files that were visited are handed from one walk to the next. A walk does not stop at a line
that is wrong, so that the lines it meets, and their order, are known without asking which of them is the
first bad one. Both find files with `find`; `find_eq_ok_iff` says what that is.

**Simulation** (`expandLines_walk`). Where the lines at hand are those of one text and then others,
`expandLines` does what a walk through the text does, and goes on with the others where the walk has ended.
-/

namespace Mapsto.Expansion

open Text

/-! ## Lines with an end -/

/-- A line with an end of line, whether it had one or not. -/
def ended (line : List Char) : List Char :=
  if line.getLast? = some '\n' then line else line ++ ['\n']

theorem ended_cons {c : Char} {line : List Char} (h : line ≠ []) : ended (c :: line) = c :: ended line := by
  unfold ended
  rw [List.getLast?_cons_of_ne_nil h]
  split <;> rfl

theorem terminated_cons {c : Char} {cs : List Char} (h : cs ≠ []) :
    terminated (c :: cs) = c :: terminated cs := by
  unfold terminated
  rw [List.getLast?_cons_of_ne_nil h]
  cases hlast : cs.getLast? with
  | none => exact absurd (List.getLast?_eq_none_iff.mp hlast) h
  | some last =>
      show (if last = '\n' then _ else _) = c :: (if last = '\n' then _ else _)
      split <;> rfl

theorem lines_cons_newline (cs : List Char) : lines ('\n' :: cs) = ['\n'] :: lines cs :=
  @splitAfter_cons_of_end Char (· == '\n') '\n' (BEq.refl '\n') cs

theorem lines_cons {c : Char} (hc : c ≠ '\n') (cs : List Char) :
    lines (c :: cs) = (c :: (lines cs).headD []) :: (lines cs).tail :=
  @splitAfter_cons_of_not_end Char (· == '\n') c (fun h => hc (eq_of_beq h)) cs

/-- A text that is not empty has a first line, and that is not empty. -/
theorem exists_lines_eq_cons {cs : List Char} (h : cs ≠ []) :
    ∃ line rest, lines cs = line :: rest ∧ line ≠ [] := by
  obtain ⟨c, cs, rfl⟩ := List.exists_cons_of_ne_nil h
  by_cases hc : c = '\n'
  · subst hc
    exact ⟨_, _, lines_cons_newline cs, List.cons_ne_nil _ _⟩
  · exact ⟨_, _, lines_cons hc cs, List.cons_ne_nil _ _⟩

/-- Only the last line of a text may lack an end: to end the text is to end every line. -/
theorem lines_terminated (cs : List Char) : lines (terminated cs) = (lines cs).map ended := by
  induction cs with
  | nil => rfl
  | cons c cs ih =>
      by_cases hcs : cs = []
      · subst hcs
        by_cases hc : c = '\n'
        · subst hc
          rfl
        · have hterminated : terminated [c] = [c, '\n'] := if_neg hc
          have hended : ended [c] = [c, '\n'] := if_neg fun h => hc (Option.some.inj h)
          rw [hterminated, lines_cons hc, lines_cons hc]
          exact congrArg (· :: []) hended.symm
      · rw [terminated_cons hcs]
        obtain ⟨line, rest, hlines, hline⟩ := exists_lines_eq_cons hcs
        by_cases hc : c = '\n'
        · subst hc
          rw [lines_cons_newline, lines_cons_newline, ih]
          rfl
        · rw [lines_cons hc, lines_cons hc, ih, hlines]
          simp only [List.map_cons, List.headD_cons, List.tail_cons, ended_cons hline]

/-! ## Walks -/

/-- What a line of a text asks for. -/
inductive Request where
  /-- The line is no instruction and stays. -/
  | keep
  /-- The line includes a file that was visited before. -/
  | nothing
  /-- The line includes a file with this path and these lines. -/
  | file (path : String) (texts : List (List Char))
  | bad (cause : DirectiveError)

/-- What a line asks for that stands in a text with this origin. -/
def request (disk : Disk) (visited : List String) (origin : String) (text : List Char) : Request :=
  if Directive.isDirective text then
    match Directive.parse (trim text) with
    | .error cause => .bad cause
    | .ok ⟨name, target⟩ =>
      if name ≠ "include" then .bad (.unknownName name)
      else
        match find disk origin target with
        | .error cause => .bad cause
        | .ok (path, content) =>
          if path ∈ visited then .nothing
          else
            match String.fromUTF8? content with
            | none => .bad (.targetUnreadable target)
            | some source => .file path ((lines source.toList).map ended)
  else .keep

/-- What is met on a walk: lines that stay, and instructions that cannot be carried out. -/
abbrev Met := Except ExpansionError (List Char)

/-- A walk through lines when some files were visited before. -/
structure Walk (visited : List String) where
  met : List Met
  /-- The files that were visited when the walk ends. -/
  after : List String
  subset : visited ⊆ after

theorem remaining_le_of_subset {visited after : List String} (h : visited ⊆ after)
    (entries : List (String × Entry)) : remaining after entries ≤ remaining visited entries := by
  induction entries with
  | nil => exact Nat.le_refl _
  | cons e rest ih =>
      simp only [remaining]
      by_cases hv : e.1 ∈ visited
      · rw [if_pos hv, if_pos (h hv)]
        omega
      · rw [if_neg hv]
        split <;> omega

/-- A line that is an instruction asks for what `splice` gives for it. -/
theorem splice_of_request (disk : Disk) (visited : List String) (line : Line)
    (hdirective : Directive.isDirective line.text = true) :
    splice disk visited line =
      match request disk visited line.origin line.text with
      | .keep | .nothing => .ok none
      | .file path texts => .ok (some (path, numbered path texts))
      | .bad cause => .error cause := by
  unfold splice request
  rw [if_pos hdirective]
  rcases Directive.parse (trim line.text) with cause | ⟨name, target⟩
  · rfl
  by_cases hname : name ≠ "include"
  · simp only [if_pos hname]
  simp only [if_neg hname]
  rcases find disk line.origin target with cause | ⟨path, content⟩
  · rfl
  by_cases hvisited : path ∈ visited
  · simp only [if_pos hvisited]
  simp only [if_neg hvisited]
  cases String.fromUTF8? content with
  | none => rfl
  | some source => simp only [includedLines, lines_terminated]

/-- Exactly the lines that are no instructions stay. -/
theorem request_eq_keep_iff {disk : Disk} {visited : List String} {origin : String} {text : List Char} :
    request disk visited origin text = .keep ↔ ¬ Directive.isDirective text = true := by
  unfold request
  constructor
  · intro h hdirective
    rw [if_pos hdirective] at h
    split at h
    · cases h
    split at h
    · cases h
    split at h
    · cases h
    split at h
    · cases h
    split at h <;> cases h
  · exact fun h => if_neg h

/-- The lines of a file are gone from those that may still come when the file is visited. -/
theorem remaining_of_request {disk : Disk} {visited : List String} {origin path : String}
    {text : List Char} {texts : List (List Char)}
    (h : request disk visited origin text = .file path texts) :
    remaining (path :: visited) disk.entries + texts.length ≤ remaining visited disk.entries := by
  have hdirective : Directive.isDirective text = true := by
    refine Decidable.byContradiction fun hno => ?_
    rw [request_eq_keep_iff.mpr hno] at h
    cases h
  have hsplice := splice_of_request disk visited ⟨text, origin, 0⟩ hdirective
  rw [h] at hsplice
  have hle := remaining_of_splice hsplice
  rwa [numbered, List.length_mapIdx] at hle

/-- Goes through the lines of a text, of which the first one has the given number, and through those of
the files that are included where they are included. -/
def walk (disk : Disk) (visited : List String) (origin : String) (number : Nat) :
    List (List Char) → Walk visited
  | [] => ⟨[], visited, List.Subset.refl visited⟩
  | text :: rest =>
    match h : request disk visited origin text with
    | .keep =>
      let behind := walk disk visited origin (number + 1) rest
      { behind with met := .ok text :: behind.met }
    | .nothing => walk disk visited origin (number + 1) rest
    | .bad cause =>
      let behind := walk disk visited origin (number + 1) rest
      { behind with met := .error ⟨origin, number, cause⟩ :: behind.met }
    | .file path texts =>
      have hfile := remaining_of_request h
      let inside := walk disk (path :: visited) path 1 texts
      have hinside : visited ⊆ inside.after :=
        List.Subset.trans (List.subset_cons_self path visited) inside.subset
      have hle := remaining_le_of_subset hinside disk.entries
      let behind := walk disk inside.after origin (number + 1) rest
      { met := inside.met ++ behind.met
        after := behind.after
        subset := List.Subset.trans hinside behind.subset }
termination_by texts => (remaining visited disk.entries, texts.length)
decreasing_by
  · exact .right _ (Nat.lt_succ_self _)
  · exact .right _ (Nat.lt_succ_self _)
  · exact .right _ (Nat.lt_succ_self _)
  · -- A file without lines takes none away, but then there is nothing to go through.
    cases texts with
    | nil => exact .right' _ (Nat.le_of_add_right_le hfile) (Nat.succ_pos _)
    | cons text texts =>
        rw [List.length_cons] at hfile
        exact .left _ _ (by omega)
  · exact .right' _ hle (Nat.lt_succ_self _)

/-! ## Simulation -/

/-- The lines of a text, numbered from a number on. -/
def numberedFrom (origin : String) : (number : Nat) → List (List Char) → List Line
  | _, [] => []
  | number, text :: rest => ⟨text, origin, number⟩ :: numberedFrom origin (number + 1) rest

theorem numbered_eq_numberedFrom (origin : String) (texts : List (List Char)) :
    numbered origin texts = numberedFrom origin 1 texts := by
  have hshift : ∀ number, texts.mapIdx (fun i text => (⟨text, origin, i + number⟩ : Line)) =
      numberedFrom origin number texts := by
    induction texts with
    | nil => exact fun _ => List.mapIdx_nil
    | cons text rest ih =>
        intro number
        rw [List.mapIdx_cons, numberedFrom, ← ih, Nat.zero_add]
        simp only [Nat.add_right_comm _ 1 number, Nat.add_assoc]
  exact hshift 1

/-- Goes on with a result behind what was met: the lines that stay are put in front of it, and an
instruction that cannot be carried out ends it all. -/
def resume : List Met → Except ExpansionError (List (List Char)) → Except ExpansionError (List (List Char))
  | [], result => result
  | .ok text :: met, result =>
    match resume met result with
    | .ok texts => .ok (text :: texts)
    | .error e => .error e
  | .error e :: _, _ => .error e

theorem resume_append (first second : List Met) (result : Except ExpansionError (List (List Char))) :
    resume (first ++ second) result = resume first (resume second result) := by
  induction first with
  | nil => rfl
  | cons m first ih =>
      cases m with
      | ok text =>
          simp only [List.cons_append, resume]
          rw [ih]
      | error e => rfl

/-- `expandLines` does what the first line asks for. -/
theorem expandLines_cons (disk : Disk) (visited : List String) (line : Line) (pending : List Line) :
    expandLines disk visited (line :: pending) =
      match request disk visited line.origin line.text with
      | .keep => resume [.ok line.text] (expandLines disk visited pending)
      | .nothing => expandLines disk visited pending
      | .bad cause => .error ⟨line.origin, line.number, cause⟩
      | .file path texts => expandLines disk (path :: visited) (numberedFrom path 1 texts ++ pending) := by
  rw [expandLines]
  by_cases hdirective : Directive.isDirective line.text = true
  · rw [if_pos hdirective]
    have hsplice := splice_of_request disk visited line hdirective
    cases hrequest : request disk visited line.origin line.text with
    | keep => exact absurd hdirective (request_eq_keep_iff.mp hrequest)
    | nothing =>
        rw [hrequest] at hsplice
        split <;> simp_all
    | bad cause =>
        rw [hrequest] at hsplice
        split <;> simp_all
    | file path texts =>
        rw [hrequest] at hsplice
        split <;> simp_all [numbered_eq_numberedFrom]
  · rw [if_neg hdirective, request_eq_keep_iff.mpr hdirective]
    rfl

/-- **Simulation.** Where the lines at hand start with the lines of a text, `expandLines` walks through
the text first. -/
theorem expandLines_walk (disk : Disk) (visited : List String) (origin : String) (number : Nat)
    (texts : List (List Char)) (pending : List Line) :
    expandLines disk visited (numberedFrom origin number texts ++ pending) =
      resume (walk disk visited origin number texts).met
        (expandLines disk (walk disk visited origin number texts).after pending) := by
  fun_induction walk disk visited origin number texts generalizing pending with
  | case1 => rfl
  | case2 visited origin number text rest h behind ih =>
      rw [numberedFrom, List.cons_append, expandLines_cons, h, ih]
      rfl
  | case3 visited origin number text rest h ih =>
      rw [numberedFrom, List.cons_append, expandLines_cons, h, ih]
  | case4 visited origin number text rest cause h behind ih =>
      rw [numberedFrom, List.cons_append, expandLines_cons, h]
      rfl
  | case5 visited origin number text rest path texts h _ inside _ _ behind ihInside ihBehind =>
      rw [numberedFrom, List.cons_append, expandLines_cons, h]
      simp only
      rw [ihInside, ihBehind, resume_append]

/-! ## Whole texts -/

theorem resume_map_ok (kept texts : List (List Char)) :
    resume (kept.map .ok) (.ok texts) = .ok (kept ++ texts) := by
  induction kept with
  | nil => rfl
  | cons text kept ih =>
      rw [List.map_cons, resume, ih]
      rfl

/-- The first instruction that cannot be carried out is the one that counts. -/
theorem resume_map_ok_append_error (kept : List (List Char)) (e : ExpansionError) (behind : List Met)
    (result : Except ExpansionError (List (List Char))) :
    resume (kept.map .ok ++ .error e :: behind) result = .error e := by
  induction kept with
  | nil => rfl
  | cons text kept ih =>
      rw [List.map_cons, List.cons_append, resume, ih]

/-- All that is met stays, or something is the first that is wrong. -/
theorem exists_eq_map_ok_or (met : List Met) :
    (∃ kept : List (List Char), met = kept.map .ok) ∨
      ∃ (kept : List (List Char)) (e : ExpansionError) (behind : List Met),
        met = kept.map .ok ++ .error e :: behind := by
  induction met with
  | nil => exact .inl ⟨[], rfl⟩
  | cons m met ih =>
      cases m with
      | error e => exact .inr ⟨[], e, met, rfl⟩
      | ok text =>
          obtain ⟨kept, rfl⟩ | ⟨kept, e, behind, rfl⟩ := ih
          · exact .inl ⟨text :: kept, rfl⟩
          · exact .inr ⟨text :: kept, e, behind, rfl⟩

theorem resume_eq_ok_iff {met : List Met} {texts : List (List Char)} :
    resume met (.ok []) = .ok texts ↔ met = texts.map .ok := by
  constructor
  · intro h
    obtain ⟨kept, rfl⟩ | ⟨kept, e, behind, rfl⟩ := exists_eq_map_ok_or met
    · rw [resume_map_ok, List.append_nil] at h
      rw [Except.ok.inj h]
    · rw [resume_map_ok_append_error] at h
      cases h
  · rintro rfl
    rw [resume_map_ok, List.append_nil]

theorem resume_eq_error_iff {met : List Met} {e : ExpansionError} :
    resume met (.ok []) = .error e ↔
      ∃ (kept : List (List Char)) (behind : List Met), met = kept.map .ok ++ .error e :: behind := by
  constructor
  · intro h
    obtain ⟨kept, rfl⟩ | ⟨kept, e', behind, rfl⟩ := exists_eq_map_ok_or met
    · rw [resume_map_ok] at h
      cases h
    · rw [resume_map_ok_append_error] at h
      rw [Except.error.inj h]
      exact ⟨kept, behind, rfl⟩
  · rintro ⟨kept, behind, rfl⟩
    exact resume_map_ok_append_error kept e behind (.ok [])

/-- The walk through a text and all that it includes. Its origin counts as visited, if it exists. -/
def walkText (disk : Disk) (source origin : String) : Walk (disk.canonical? origin).toList :=
  walk disk (disk.canonical? origin).toList origin 1 (lines source.toList)

end Mapsto.Expansion

namespace Mapsto

open Expansion

theorem expand_eq_resume (disk : Disk) (source origin : String) :
    expand disk source origin =
      (resume (walkText disk source origin).met (.ok [])).map fun texts => String.ofList texts.flatten := by
  have hwalk := expandLines_walk disk (disk.canonical? origin).toList origin 1 (Text.lines source.toList) []
  rw [List.append_nil, ← numbered_eq_numberedFrom, expandLines] at hwalk
  simp only [expand]
  rw [hwalk, walkText]
  split
  · rename_i hresume
    rw [hresume]
    rfl
  · rename_i hresume
    rw [hresume]
    rfl

/-- **Expansion is recursive inclusion.** A text is expanded to the lines that stay on the walk through it
and through the files it includes, if nothing is wrong on that walk; and else the first thing that is
wrong on it is the error. -/
theorem expand_depthFirst (disk : Disk) (source origin : String) :
    (∀ expanded, expand disk source origin = .ok expanded ↔
      ∃ kept : List (List Char), (walkText disk source origin).met = kept.map .ok ∧
        String.ofList kept.flatten = expanded) ∧
    (∀ e, expand disk source origin = .error e ↔
      ∃ (kept : List (List Char)) (behind : List Met),
        (walkText disk source origin).met = kept.map .ok ++ .error e :: behind) := by
  rw [expand_eq_resume]
  simp only [← resume_eq_error_iff, ← resume_eq_ok_iff]
  cases resume (walkText disk source origin).met (.ok []) with
  | ok texts => simp [Except.map]
  | error e => simp [Except.map]

end Mapsto
