import Mapsto.Proofs.Expansion.DepthFirst

/-!
# `Mapsto.Proofs.Text.Lines` — lists that are the lines of a text

A list of pieces is the list of lines of the text that they make up exactly if each piece but the last
ends with its only end of line, and the last one does too or has none (`AreLines`, `lines_flatten`). Taking
lines out of such a list, and putting lines in that have an end, gives another one (`AreLines.replace`).
-/

namespace Mapsto.Text

open Expansion (ended)

/-- A line with an end. -/
def IsEnded (line : List Char) : Prop := ∃ body, '\n' ∉ body ∧ line = body ++ ['\n']

/-- The pieces are the lines of a text. -/
inductive AreLines : List (List Char) → Prop where
  | nil : AreLines []
  /-- The last line has no end. -/
  | last {line : List Char} (hline : line ≠ []) (hend : '\n' ∉ line) : AreLines [line]
  | cons {line : List Char} {rest : List (List Char)} (hline : IsEnded line) (hrest : AreLines rest) :
      AreLines (line :: rest)

/-! ## The lines of a text -/

/-- A text without an end of line is one line. -/
theorem lines_of_newline_not_mem {line : List Char} (hline : line ≠ []) (hend : '\n' ∉ line) :
    lines line = [line] := by
  induction line with
  | nil => exact absurd rfl hline
  | cons c cs ih =>
      rw [List.mem_cons, not_or] at hend
      rw [Expansion.lines_cons (Ne.symm hend.1)]
      cases cs with
      | nil => rfl
      | cons c' cs =>
          rw [ih (List.cons_ne_nil c' cs) hend.2]
          rfl

/-- The first end of line in a text ends its first line. -/
theorem lines_append_newline {body : List Char} (hbody : '\n' ∉ body) (cs : List Char) :
    lines (body ++ '\n' :: cs) = (body ++ ['\n']) :: lines cs := by
  induction body with
  | nil => exact Expansion.lines_cons_newline cs
  | cons c body ih =>
      rw [List.mem_cons, not_or] at hbody
      rw [List.cons_append, Expansion.lines_cons (Ne.symm hbody.1), ih hbody.2]
      rfl

theorem areLines_lines (cs : List Char) : AreLines (lines cs) := by
  induction hlen : cs.length using Nat.strongRecOn generalizing cs with
  | ind len ih =>
      by_cases hmem : '\n' ∈ cs
      · obtain ⟨body, rest, rfl, hbody⟩ := List.eq_append_cons_of_mem hmem
        rw [lines_append_newline hbody]
        refine .cons ⟨body, hbody, rfl⟩ (ih rest.length ?_ rest rfl)
        rw [← hlen, List.length_append, List.length_cons]
        omega
      · by_cases hcs : cs = []
        · subst hcs
          exact .nil
        · rw [lines_of_newline_not_mem hcs hmem]
          exact .last hcs hmem

namespace AreLines

variable {ls : List (List Char)}

/-- **Reading back.** Lines that are put together have the same lines. -/
theorem lines_flatten (h : AreLines ls) : lines ls.flatten = ls := by
  induction h with
  | nil => rfl
  | last hline hend =>
      rw [List.flatten_singleton]
      exact lines_of_newline_not_mem hline hend
  | cons hline hrest ih =>
      obtain ⟨body, hbody, rfl⟩ := hline
      rw [List.flatten_cons, List.append_assoc, List.singleton_append, lines_append_newline hbody, ih]

/-- Each of the lines is one line. -/
theorem lines_eq_singleton (h : AreLines ls) : ∀ line ∈ ls, lines line = [line] := by
  induction h with
  | nil => exact nofun
  | last hline hend => exact List.forall_mem_singleton.mpr (lines_of_newline_not_mem hline hend)
  | cons hline hrest ih =>
      obtain ⟨body, hbody, rfl⟩ := hline
      exact List.forall_mem_cons.mpr ⟨lines_append_newline hbody [], ih⟩

/-- A line that got an end, if it had none, has one. -/
theorem isEnded_ended (h : AreLines ls) : ∀ line ∈ ls, IsEnded (ended line) := by
  induction h with
  | nil => exact nofun
  | @last line hline hend =>
      refine List.forall_mem_singleton.mpr ⟨line, hend, if_neg ?_⟩
      exact fun hlast => hend (List.mem_of_getLast? hlast)
  | cons hline hrest ih =>
      obtain ⟨body, hbody, rfl⟩ := hline
      refine List.forall_mem_cons.mpr ⟨⟨body, hbody, if_pos ?_⟩, ih⟩
      rw [List.getLast?_append, List.getLast?_singleton, Option.some_or]

theorem append_of_isEnded {included : List (List Char)} (hincluded : ∀ line ∈ included, IsEnded line)
    (h : AreLines ls) : AreLines (included ++ ls) := by
  induction included with
  | nil => exact h
  | cons line included ih =>
      obtain ⟨hline, hincluded⟩ := List.forall_mem_cons.mp hincluded
      exact .cons hline (ih hincluded)

theorem tail {line : List Char} {rest : List (List Char)} (h : AreLines (line :: rest)) :
    AreLines rest := by
  cases h with
  | last => exact .nil
  | cons _ hrest => exact hrest

/-- Lines with an end may take the place of any line. -/
theorem replace {included kept rest : List (List Char)} {line : List Char}
    (hincluded : ∀ line ∈ included, IsEnded line) (h : AreLines (kept ++ line :: rest)) :
    AreLines (kept ++ (included ++ rest)) := by
  induction kept with
  | nil =>
      rw [List.nil_append] at h ⊢
      exact append_of_isEnded hincluded h.tail
  | cons first kept ih =>
      -- The first line is not the last one, so it has an end.
      generalize hbehind : kept ++ line :: rest = behind at ih
      rw [List.cons_append, hbehind] at h
      cases h with
      | last => cases kept <;> cases hbehind
      | cons hline hrest => exact .cons hline (ih hrest)

theorem remove {kept rest : List (List Char)} {line : List Char} (h : AreLines (kept ++ line :: rest)) :
    AreLines (kept ++ rest) := by
  have hreplaced : AreLines (kept ++ ([] ++ rest)) := h.replace nofun
  rwa [List.nil_append] at hreplaced

end AreLines

end Mapsto.Text
