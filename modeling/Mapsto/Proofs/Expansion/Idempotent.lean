import Mapsto.Proofs.Text.Lines

/-!
# `Mapsto.Proofs.Expansion.Idempotent` — expanding twice is expanding once

Expansion leaves a list of lines of which none is an instruction, and puts them together. The text that this
gives is read again as lines. Were the end of one piece missing, it would make one line with the next piece,
and that line could be an instruction although neither of the two is. This does not happen: the lines of a
file all have an end when they take the place of a line, and of the text itself only the last line may have
none, behind which nothing is put (`expandLines_areLines`). So the lines of the text are those that were
left, and expanding the text again finds nothing to do, whatever files there are then and wherever the text
is said to come from (`expand_idempotent`).
-/

namespace Mapsto

open Text

namespace Expansion

/-- The lines that take the place of an instruction all have an end. -/
theorem isEnded_of_splice {disk : Disk} {visited : List String} {line : Line} {path : String}
    {included : List Line} (h : splice disk visited line = .ok (some (path, included))) :
    ∀ text ∈ included.map Line.text, IsEnded text := by
  unfold splice at h
  split at h
  · cases h
  split at h
  · cases h
  split at h
  · cases h
  split at h
  · cases h
  split at h
  · cases h
  rename_i source _
  cases h
  rw [includedLines, map_text_numbered, lines_terminated]
  intro text htext
  obtain ⟨line, hline, rfl⟩ := List.mem_map.mp htext
  exact (areLines_lines source.toList).isEnded_ended line hline

/-- **Lines stay lines.** If the texts at hand are the lines of a text, then so are those that are left, and
none of these is an instruction. -/
theorem expandLines_areLines {disk : Disk} {visited : List String} {pending : List Line}
    {texts : List (List Char)} (h : expandLines disk visited pending = .ok texts)
    (hpending : AreLines (pending.map Line.text)) :
    AreLines texts ∧ ∀ text ∈ texts, Directive.isDirective text = false := by
  fun_induction expandLines disk visited pending generalizing texts with
  | case1 visited =>
      cases h
      exact ⟨.nil, nofun⟩
  | case2 visited line rest hdirective cause hsplice => cases h
  | case3 visited line rest hdirective hsplice ih =>
      rw [List.map_cons] at hpending
      exact ih h hpending.tail
  | case4 visited line rest hdirective path included hsplice _ ih =>
      rw [List.map_cons] at hpending
      refine ih h ?_
      rw [List.map_append]
      exact AreLines.append_of_isEnded (isEnded_of_splice hsplice) hpending.tail
  | case5 visited line rest hdirective kept hrest ih =>
      cases h
      rw [List.map_cons] at hpending
      obtain ⟨hkept, hnone⟩ := ih hrest hpending.tail
      have hline : Directive.isDirective line.text = false := Bool.eq_false_iff.mpr hdirective
      refine ⟨?_, List.forall_mem_cons.mpr ⟨hline, hnone⟩⟩
      generalize hbehind : rest.map Line.text = behind at hpending
      cases hpending with
      | cons hended _ => exact .cons hended hkept
      | last hne hend =>
          -- A line without an end is the last one, so nothing is left behind it.
          obtain rfl : rest = [] := List.map_eq_nil_iff.mp hbehind
          rw [expandLines] at hrest
          cases hrest
          exact .last hne hend
  | case6 visited line rest hdirective e hrest ih => cases h

end Expansion

open Expansion

/-- What a text is expanded to has no instructions. -/
theorem plain_of_expand {disk : Disk} {source origin expanded : String}
    (h : expand disk source origin = .ok expanded) : Plain expanded := by
  simp only [expand] at h
  split at h
  · rename_i texts htexts
    cases h
    have hpending : AreLines ((numbered origin (lines source.toList)).map Line.text) := by
      rw [map_text_numbered]
      exact areLines_lines source.toList
    obtain ⟨hlines, hnone⟩ := expandLines_areLines htexts hpending
    unfold Plain
    rw [String.toList_ofList, hlines.lines_flatten]
    exact hnone
  · cases h

/-- **Expansion is idempotent.** What a text is expanded to has no instructions and is expanded to itself,
whatever files there are then and wherever it is said to come from. And the texts without instructions are
exactly those that are expanded to themselves. -/
theorem expand_idempotent (disk : Disk) (source origin : String) :
    (∀ expanded, expand disk source origin = .ok expanded →
      Plain expanded ∧ ∀ disk' origin', expand disk' expanded origin' = .ok expanded) ∧
    (expand disk source origin = .ok source ↔ Plain source) := by
  constructor
  · intro expanded h
    have hplain : Plain expanded := plain_of_expand h
    exact ⟨hplain, fun disk' origin' => expand_plain disk' origin' hplain⟩
  · constructor
    · intro h
      exact plain_of_expand h
    · intro h
      exact expand_plain disk origin h

/-- A file without an end of line between two lines, and a line behind it that has none either. -/
example :
    let disk : Disk := ⟨some, [("a", .file "x := 1\n!".toUTF8)]⟩
    (expand disk "!include(a)\n(x)" "b").toOption = some "x := 1\n!\n(x)" ∧ Plain "x := 1\n!\n(x)" := by
  decide +kernel

end Mapsto
