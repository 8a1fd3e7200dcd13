/-!
# `Mapsto.Text.Lines` — texts as lines

A line keeps the mark that ends it; only the last line of a text may have none. Joining the lines gives
the text back (`flatten_splitAfter`).
-/

namespace Mapsto.Text

/-- Cuts a list behind every element that ends a piece. No piece is empty. -/
def splitAfter {α : Type} (ends : α → Bool) : List α → List (List α)
  | [] => []
  | a :: as =>
    if ends a then [a] :: splitAfter ends as
    else
      match splitAfter ends as with
      | [] => [[a]]
      | piece :: pieces => (a :: piece) :: pieces

/-- **Nothing is lost.** The pieces of a list make up the list. -/
@[simp] theorem flatten_splitAfter {α : Type} (ends : α → Bool) (as : List α) :
    (splitAfter ends as).flatten = as := by
  induction as with
  | nil => rfl
  | cons a as ih =>
    simp only [splitAfter]
    split
    · simp [ih]
    · split
      · rename_i h
        rw [h] at ih
        simpa using ih
      · rename_i h
        rw [h] at ih
        simpa using ih

/-- The lines of a text, each with its end of line. -/
def lines (cs : List Char) : List (List Char) :=
  splitAfter (· == '\n') cs

/-- A text of which the last line has an end of line too. -/
def terminated (cs : List Char) : List Char :=
  match cs.getLast? with
  | none => []
  | some c => if c = '\n' then cs else cs ++ ['\n']

end Mapsto.Text
