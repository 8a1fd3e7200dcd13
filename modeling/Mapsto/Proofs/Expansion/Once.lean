import Mathlib.Data.List.Nodup
import Mathlib.Data.List.Perm.Basic
import Mapsto.Proofs.Expansion.Loop
import Mapsto.Proofs.Text.Lines

/-!
# `Mapsto.Proofs.Expansion.Once` — every file once, and no line lost

What the loop of `Mapsto.Proofs.Expansion.Loop` does to its list of lines is followed here by three
conditions that every round keeps:

* no file is among those that were put in twice, nor is the file that the text was read from
  (`invariant_apart`);
* the texts in the list are lines, so that putting them together does not make two of them one
  (`invariant_areLines`);
* every line in the list can be given the text that it comes from, such that the lines that stay and the
  lines that come from one text and were not looked at are, in order, those lines of that text that are
  no instructions (`invariant_accounted`).

At the end no line is left to be looked at, and the last condition says which lines there are: all that
are no instructions, of the text and of every file that was put in, and those of one text are in the
order that they had there (`expand_includes_once`).
-/

namespace Mapsto.Expansion

open Text

/-! ## Texts -/

/-- The text of the file at a canonical path. -/
def fileText? (disk : Disk) (path : String) : Option String :=
  match disk.get? path with
  | some (.file content) => String.fromUTF8? content
  | _ => none

/-- The lines of the file at a canonical path, each with an end. -/
def fileLines (disk : Disk) (path : String) : List (List Char) :=
  match fileText? disk path with
  | some text => (lines text.toList).map ended
  | none => []

/-- The lines that are no instructions. -/
def programLines (texts : List (List Char)) : List (List Char) :=
  texts.filter fun text => !Directive.isDirective text

/-- The lines of the source, or those of a file. -/
def linesOf (disk : Disk) (source : String) : Option String → List (List Char)
  | none => lines source.toList
  | some path => fileLines disk path

/-- A line that includes a file includes all lines of that file, and the file was not visited. -/
theorem of_request_eq_file {disk : Disk} {visited : List String} {origin path : String} {text : List Char}
    {texts : List (List Char)} (h : request disk visited origin text = .file path texts) :
    path ∉ visited ∧ (fileText? disk path).isSome ∧ texts = fileLines disk path := by
  unfold request at h
  split at h
  case isFalse => cases h
  split at h
  · cases h
  split at h
  · cases h
  split at h
  · cases h
  rename_i found content hfind
  split at h
  · cases h
  rename_i hvisited
  split at h
  · cases h
  rename_i source htext
  have hfile : fileText? disk found = some source := by
    obtain ⟨-, -, hget⟩ := find_eq_ok_iff.mp hfind
    simp only [fileText?, hget, htext]
  obtain ⟨hpath, htexts⟩ := Request.file.inj h
  rw [← hpath, ← htexts]
  refine ⟨hvisited, ?_, ?_⟩
  · rw [hfile]
    rfl
  · simp only [fileLines, hfile]

theorem isDirective_of_request_ne_keep {disk : Disk} {visited : List String} {origin : String}
    {text : List Char} (h : request disk visited origin text ≠ .keep) :
    Directive.isDirective text = true := by
  by_contra hno
  exact h (request_eq_keep_iff.mpr hno)

namespace Loop

variable {disk : Disk} {home : Option String}

/-! ## Files -/

/-- **Every file once.** No file is put in twice, the home of the text is not put in, and whatever is put in
is a file with a text. -/
theorem invariant_apart :
    Invariant disk home fun _ _ spliced =>
      (spliced ++ home.toList).Nodup ∧ ∀ path ∈ spliced, (fileText? disk path).isSome := by
  rintro kept line rest spliced ⟨hnodup, htexts⟩
  cases hrequest : request disk (spliced ++ home.toList) line.origin line.text with
  | keep => exact ⟨hnodup, htexts⟩
  | nothing => exact ⟨hnodup, htexts⟩
  | bad cause => exact ⟨hnodup, htexts⟩
  | file path texts =>
      obtain ⟨hpath, htext, -⟩ := of_request_eq_file hrequest
      exact ⟨List.nodup_cons.mpr ⟨hpath, hnodup⟩, List.forall_mem_cons.mpr ⟨htext, htexts⟩⟩

/-! ## Lines -/

/-- The lines of a file all have an end. -/
theorem isEnded_of_mem_fileLines {path : String} : ∀ line ∈ fileLines disk path, IsEnded line := by
  unfold fileLines
  split
  · intro line hline
    obtain ⟨line, hmem, rfl⟩ := List.mem_map.mp hline
    exact (areLines_lines _).isEnded_ended line hmem
  · exact nofun

theorem invariant_areLines :
    Invariant disk home fun kept pending _ => AreLines (kept.map Line.text ++ pending.map Line.text) := by
  intro kept line rest spliced h
  rw [List.map_cons] at h
  cases hrequest : request disk (spliced ++ home.toList) line.origin line.text with
  | keep =>
      simp only [List.map_append, List.map_cons, List.map_nil, List.append_assoc, List.singleton_append]
      exact h
  | nothing => exact h.remove
  | bad cause => exact h.remove
  | file path texts =>
      obtain ⟨-, -, rfl⟩ := of_request_eq_file hrequest
      simp only [List.map_append, map_text_numbered]
      exact h.replace isEnded_of_mem_fileLines

end Loop

/-! ## Where lines come from -/

/-- Lines, each with the text that it comes from: the source, or the file at a path. -/
abbrev Tagged := List (Option String × List Char)

namespace Tagged

/-- The lines that come from one text, in order. -/
def ofText (tagged : Tagged) (text : Option String) : List (List Char) :=
  (tagged.filter fun line => line.1 = text).map Prod.snd

theorem ofText_append (first second : Tagged) (text : Option String) :
    ofText (first ++ second) text = ofText first text ++ ofText second text := by
  rw [ofText, List.filter_append, List.map_append]
  rfl

theorem ofText_cons (tag : Option String) (line : List Char) (tagged : Tagged) (text : Option String) :
    ofText ((tag, line) :: tagged) text = (if tag = text then [line] else []) ++ ofText tagged text := by
  by_cases h : tag = text
  · rw [ofText, List.filter_cons_of_pos (by simpa using h), if_pos h]
    rfl
  · rw [ofText, List.filter_cons_of_neg (by simpa using h), if_neg h]
    rfl

/-- Lines of one text. -/
theorem ofText_map_mk (tag : Option String) (lines : List (List Char)) (text : Option String) :
    ofText (lines.map (Prod.mk tag)) text = if tag = text then lines else [] := by
  induction lines with
  | nil => exact (ite_self _).symm
  | cons line lines ih =>
      rw [List.map_cons, ofText_cons, ih]
      by_cases h : tag = text
      · simp only [if_pos h, List.singleton_append]
      · simp only [if_neg h, List.nil_append]

/-- Going by the texts one finds every line once. -/
theorem perm_flatMap_ofText {texts : List (Option String)} (htexts : texts.Nodup) {tagged : Tagged}
    (hcovered : ∀ line ∈ tagged, line.1 ∈ texts) :
    (tagged.map Prod.snd).Perm (texts.flatMap (ofText tagged)) := by
  induction texts generalizing tagged with
  | nil =>
      have hnil : tagged = [] := List.eq_nil_iff_forall_not_mem.mpr fun line hline => nomatch hcovered line hline
      rw [hnil]
      exact List.Perm.nil
  | cons text texts ih =>
      obtain ⟨htext, htexts⟩ := List.nodup_cons.mp htexts
      let others : Tagged := tagged.filter fun line => !decide (line.1 = text)
      have hothers : ∀ line ∈ others, line.1 ∈ texts := by
        intro line hline
        obtain ⟨hmem, hne⟩ := List.mem_filter.mp hline
        obtain rfl | h := List.mem_cons.mp (hcovered line hmem)
        · simp at hne
        · exact h
      -- The lines of another text are all among the others.
      have hsame : texts.flatMap (ofText others) = texts.flatMap (ofText tagged) := by
        refine List.flatMap_congr fun other hother => ?_
        have hne : other ≠ text := fun h => htext (h ▸ hother)
        simp only [ofText, others, List.filter_filter]
        refine congrArg (List.map Prod.snd) (List.filter_congr fun line _ => ?_)
        by_cases h : line.1 = other
        · simp [h, hne]
        · simp [h]
      have hsplit : (tagged.map Prod.snd).Perm (ofText tagged text ++ others.map Prod.snd) := by
        rw [ofText, ← List.map_append]
        exact (List.filter_append_perm _ tagged).symm.map Prod.snd
      rw [List.flatMap_cons, ← hsame]
      exact hsplit.trans ((ih htexts hothers).append_left _)

end Tagged

theorem programLines_append (first second : List (List Char)) :
    programLines (first ++ second) = programLines first ++ programLines second :=
  List.filter_append ..

theorem programLines_singleton (line : List Char) :
    programLines [line] = if Directive.isDirective line then [] else [line] := by
  cases h : Directive.isDirective line <;> simp [programLines, h]

/-- What should come from a text, when some files were put in: the lines that are no instructions, if it
is the source or one of these files, and nothing otherwise. -/
def wantedLines (disk : Disk) (source : String) (spliced : List String) (text : Option String) :
    List (List Char) :=
  if text ∈ none :: spliced.map some then programLines (linesOf disk source text) else []

/-- Every line comes from a text such that the lines of one text that stay, and behind them those that were
not looked at, are in order what should come from it. -/
def Accounted (disk : Disk) (source : String) (kept pending : List Line) (spliced : List String) : Prop :=
  ∃ stayed waiting : Tagged,
    stayed.map Prod.snd = kept.map Line.text ∧ waiting.map Prod.snd = pending.map Line.text ∧
      ∀ text, stayed.ofText text ++ programLines (waiting.ofText text) =
        wantedLines disk source spliced text

/-- An instruction that is taken out was not wanted. -/
theorem Accounted.remove {disk : Disk} {source : String} {kept rest : List Line} {line : Line}
    {spliced : List String} (hline : Directive.isDirective line.text = true)
    (h : Accounted disk source kept (line :: rest) spliced) : Accounted disk source kept rest spliced := by
  obtain ⟨stayed, waiting, hstayed, hwaiting, hwanted⟩ := h
  obtain ⟨⟨tag, text⟩, waiting, rfl, htext, hrest⟩ := List.map_eq_cons_iff.mp hwaiting
  obtain rfl : text = line.text := htext
  refine ⟨stayed, waiting, hstayed, hrest, fun t => ?_⟩
  have hnone : programLines (if tag = t then [line.text] else []) = [] := by
    split
    · rw [programLines_singleton, if_pos hline]
    · rfl
  rw [← hwanted t, Tagged.ofText_cons, programLines_append, hnone, List.nil_append]

/-- **Nothing is lost.** Every round keeps account of all lines. -/
theorem Loop.invariant_accounted {disk : Disk} {home : Option String} (source : String) :
    Invariant disk home (Accounted disk source) := by
  intro kept line rest spliced h
  cases hrequest : request disk (spliced ++ home.toList) line.origin line.text with
  | keep =>
      have hline : ¬ Directive.isDirective line.text = true := request_eq_keep_iff.mp hrequest
      obtain ⟨stayed, waiting, hstayed, hwaiting, hwanted⟩ := h
      obtain ⟨⟨tag, text⟩, waiting, rfl, htext, hrest⟩ := List.map_eq_cons_iff.mp hwaiting
      obtain rfl : text = line.text := htext
      refine ⟨stayed ++ [(tag, line.text)], waiting, ?_, hrest, fun t => ?_⟩
      · rw [List.map_append, List.map_append, hstayed]
        rfl
      · have hpiece : programLines (if tag = t then [line.text] else []) =
            if tag = t then [line.text] else [] := by
          split
          · rw [programLines_singleton, if_neg hline]
          · rfl
        rw [← hwanted t, Tagged.ofText_append, Tagged.ofText_cons, Tagged.ofText_cons, programLines_append,
          hpiece, List.append_assoc, List.append_assoc]
        rfl
  | nothing => exact h.remove (isDirective_of_request_ne_keep (by rw [hrequest]; nofun))
  | bad cause => exact h.remove (isDirective_of_request_ne_keep (by rw [hrequest]; nofun))
  | file path texts =>
      obtain ⟨hvisited, -, rfl⟩ := of_request_eq_file hrequest
      have hpath : some path ∉ none :: spliced.map some := by
        simpa using fun h => hvisited (List.mem_append_left _ h)
      obtain ⟨stayed, waiting, hstayed, hwaiting, hwanted⟩ :=
        h.remove (isDirective_of_request_ne_keep (by rw [hrequest]; nofun))
      refine ⟨stayed, (fileLines disk path).map (Prod.mk (some path)) ++ waiting, hstayed, ?_, fun t => ?_⟩
      · rw [List.map_append, List.map_append, map_text_numbered, hwaiting, List.map_map]
        exact congrArg (· ++ rest.map Line.text) (List.map_id _)
      · have hbefore := hwanted t
        rw [wantedLines] at hbefore ⊢
        rw [Tagged.ofText_append, Tagged.ofText_map_mk, programLines_append]
        by_cases ht : some path = t
        · -- So far there was nothing from this file.
          subst ht
          rw [if_neg hpath] at hbefore
          obtain ⟨hstay, hwait⟩ := List.append_eq_nil_iff.mp hbefore
          rw [hstay, hwait, List.append_nil, List.nil_append, if_pos rfl, if_pos (by simp)]
          rfl
        · have hmem : t ∈ none :: (path :: spliced).map some ↔ t ∈ none :: spliced.map some := by
            simp only [List.map_cons, List.mem_cons, Ne.symm ht, false_or]
          simp only [if_neg ht, hmem]
          exact hbefore

/-! ## Whole texts -/

/-- A loop that came from the start of a text: no file was put in twice, the list is one of lines, and every
line is accounted for. -/
structure Loop.Sound (disk : Disk) (source origin : String) (kept pending : List Line)
    (spliced : List String) : Prop where
  nodup : (spliced ++ (disk.canonical? origin).toList).Nodup
  isSome_fileText? : ∀ path ∈ spliced, (fileText? disk path).isSome
  areLines : AreLines (kept.map Line.text ++ pending.map Line.text)
  accounted : Accounted disk source kept pending spliced

/-- In front of the first line of a text nothing is put in, and all lines come from the source. -/
theorem accounted_numbered (disk : Disk) (source origin : String) :
    Accounted disk source [] (numbered origin (lines source.toList)) [] := by
  refine ⟨[], (lines source.toList).map (Prod.mk none), rfl, ?_, fun text => ?_⟩
  · rw [map_text_numbered, List.map_map]
    exact List.map_id _
  · rw [Tagged.ofText_map_mk, wantedLines]
    by_cases h : none = text
    · subst h
      rw [if_pos rfl, if_pos List.mem_cons_self]
      rfl
    · rw [if_neg h, if_neg (by simpa using Ne.symm h)]
      rfl

/-- After any number of rounds the loop is sound, and where it has ended no line is left. -/
theorem Loop.run_start_sound (disk : Disk) (source origin : String) (rounds : Nat) :
    let status := (start source origin).run disk (disk.canonical? origin) rounds
    ∃ kept pending, status.loop = between kept pending status.loop.spliced ∧
      Sound disk source origin kept pending status.loop.spliced ∧
        ∀ loop, status = .ended loop → pending = [] := by
  intro status
  have hnodup : ([] ++ (disk.canonical? origin).toList).Nodup := by
    cases disk.canonical? origin <;> simp
  have hlines : AreLines (([] : List Line).map Line.text ++
      (numbered origin (Text.lines source.toList)).map Line.text) := by
    rw [map_text_numbered]
    exact areLines_lines _
  have hinvariant : Invariant disk (disk.canonical? origin) _ :=
    invariant_apart.and (invariant_areLines.and (invariant_accounted source))
  obtain ⟨kept, pending, spliced, hloop, ⟨⟨hapart, hfiles⟩, hkept, hwanted⟩, hended⟩ :=
    hinvariant.run rounds ⟨⟨hnodup, nofun⟩, hlines, accounted_numbered disk source origin⟩
  have hspliced : status.loop.spliced = spliced := congrArg Loop.spliced hloop
  rw [hspliced]
  exact ⟨kept, pending, hloop, ⟨hapart, hfiles, hkept, hwanted⟩, hended⟩

/-- Where every line is accounted for and none is left, the lines that stay are those of the source and of
the files that were put in. -/
theorem Accounted.perm {disk : Disk} {source : String} {stayed : Tagged} {spliced : List String}
    (hspliced : spliced.Nodup)
    (hwanted : ∀ text, stayed.ofText text = wantedLines disk source spliced text) :
    (stayed.map Prod.snd).Perm (programLines (lines source.toList) ++
      spliced.flatMap fun path => programLines (fileLines disk path)) := by
  have hnodup : (none :: spliced.map some).Nodup :=
    List.nodup_cons.mpr ⟨by simp, hspliced.map fun _ _ => Option.some.inj⟩
  have hcovered : ∀ line ∈ stayed, line.1 ∈ none :: spliced.map some := by
    intro line hline
    by_contra hno
    have hnone : stayed.ofText line.1 = [] := by
      rw [hwanted, wantedLines, if_neg hno]
    have hmem : line.2 ∈ stayed.ofText line.1 :=
      List.mem_map_of_mem (List.mem_filter.mpr ⟨hline, decide_eq_true rfl⟩)
    rw [hnone] at hmem
    exact List.not_mem_nil hmem
  have htexts : (none :: spliced.map some).flatMap stayed.ofText =
      (none :: spliced.map some).flatMap fun text => programLines (linesOf disk source text) :=
    List.flatMap_congr fun text htext => by rw [hwanted, wantedLines, if_pos htext]
  have hperm := Tagged.perm_flatMap_ofText hnodup hcovered
  rw [htexts, List.flatMap_cons, List.flatMap_map] at hperm
  exact hperm

end Mapsto.Expansion

namespace Mapsto

open Expansion Text

/-- **Every file once, and nothing lost.** The loop stops, and comes to what the text is expanded to. At no
time has it put in a file twice, or the file that the text was read from. Where it comes to a text, every
line of that text can be given the source or a file that was put in, such that the lines that belong to
one of these are, in order, its lines that are no instructions; and together that is all lines. -/
theorem expand_includes_once (disk : Disk) (source origin : String) :
    let home := disk.canonical? origin
    let status (rounds : Nat) := (Loop.start source origin).run disk home rounds
    let stopped := status (Loop.roundsFor disk source)
    stopped.result?.map (Except.map fun texts => String.ofList texts.flatten) =
        some (expand disk source origin) ∧
      (∀ rounds, ((status rounds).loop.spliced ++ home.toList).Nodup ∧
        ∀ path ∈ (status rounds).loop.spliced, (fileText? disk path).isSome) ∧
      ∀ expanded, expand disk source origin = .ok expanded →
        (∃ tagged : Tagged, tagged.map Prod.snd = lines expanded.toList ∧
          ∀ text, tagged.ofText text = wantedLines disk source stopped.loop.spliced text) ∧
        (lines expanded.toList).Perm (programLines (lines source.toList) ++
          stopped.loop.spliced.flatMap fun path => programLines (fileLines disk path)) := by
  intro home status stopped
  have hstopped : stopped.result?.map (Except.map fun texts => String.ofList texts.flatten) =
      some (expand disk source origin) := Loop.run_start disk source origin
  refine ⟨hstopped, ?_, ?_⟩
  · intro rounds
    obtain ⟨kept, pending, -, hsound, -⟩ := Loop.run_start_sound disk source origin rounds
    exact ⟨hsound.nodup, hsound.isSome_fileText?⟩
  · intro expanded hexpanded
    obtain ⟨kept, pending, hloop, hsound, hended⟩ :
        ∃ kept pending, stopped.loop = Loop.between kept pending stopped.loop.spliced ∧
          Loop.Sound disk source origin kept pending stopped.loop.spliced ∧
            ∀ loop, stopped = .ended loop → pending = [] :=
      Loop.run_start_sound disk source origin (Loop.roundsFor disk source)
    rw [hexpanded] at hstopped
    cases hstatus : stopped with
    | running loop =>
        rw [hstatus] at hstopped
        cases hstopped
    | failed e loop =>
        rw [hstatus] at hstopped
        cases hstopped
    | ended loop =>
        obtain rfl : pending = [] := hended loop hstatus
        rw [hstatus] at hstopped hloop hsound
        have hlines : lines expanded.toList = kept.map Line.text := by
          obtain rfl : String.ofList (loop.lines.map Line.text).flatten = expanded :=
            Except.ok.inj (Option.some.inj hstopped)
          have hkept : loop.lines = kept := (congrArg Loop.lines hloop).trans (List.append_nil kept)
          have hareLines := hsound.areLines
          rw [List.map_nil, List.append_nil] at hareLines
          rw [String.toList_ofList, hkept, hareLines.lines_flatten]
        obtain ⟨stayed, waiting, hstayed, hwaiting, hwanted⟩ := hsound.accounted
        obtain rfl : waiting = [] := List.map_eq_nil_iff.mp hwaiting
        have hof : ∀ text, stayed.ofText text = wantedLines disk source loop.spliced text :=
          fun text => (List.append_nil _).symm.trans (hwanted text)
        rw [hlines, ← hstayed]
        exact ⟨⟨stayed, rfl, hof⟩, Accounted.perm (List.nodup_append.mp hsound.nodup).1 hof⟩

/-- A file that includes itself by way of another one, which includes itself too. -/
example :
    let disk : Disk := ⟨some, [("a", .file "!include(b)\nx = 1".toUTF8),
      ("b", .file "!include(a)\n!include(b)\ny = 2".toUTF8)]⟩
    (expand disk "!include(b)\nx = 1" "a").toOption = some "y = 2\nx = 1" := by
  decide +kernel

end Mapsto
