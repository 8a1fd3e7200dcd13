import Mapsto.Expansion

/-!
# `Mapsto.Proofs.Expansion.Plain` — texts without instructions

A text of which no line is an instruction is expanded to itself, wherever it comes from
(`expand_plain`), and putting two such texts one under the other gives a third (`Plain.append_newline`).
For the second, the lines of the joined text have to be known: the last line of the first text gets an
end of line, if it has none, and that makes no instruction of it.
-/

namespace Mapsto

open Text

/-- A text of which no line is an instruction. -/
def Plain (source : String) : Prop :=
  ∀ line ∈ lines source.toList, Directive.isDirective line = false

instance (source : String) : Decidable (Plain source) :=
  inferInstanceAs (Decidable (∀ line ∈ lines source.toList, Directive.isDirective line = false))

/-! ## Expansion -/

namespace Expansion

theorem expandLines_plain (disk : Disk) (visited : List String) {pending : List Line}
    (h : ∀ line ∈ pending, Directive.isDirective line.text = false) :
    expandLines disk visited pending = .ok (pending.map Line.text) := by
  induction pending with
  | nil =>
      rw [expandLines]
      rfl
  | cons line rest ih =>
      obtain ⟨hline, hrest⟩ := List.forall_mem_cons.mp h
      rw [expandLines, hline, ih hrest]
      rfl

theorem map_text_numbered (origin : String) (texts : List (List Char)) :
    (numbered origin texts).map Line.text = texts := by
  refine List.ext_getElem? fun i => ?_
  unfold numbered
  rw [List.getElem?_map, List.getElem?_mapIdx, Option.map_map]
  exact Option.map_id'

end Expansion

/-- A text without instructions is expanded to itself. -/
theorem expand_plain (disk : Disk) {source : String} (origin : String) (h : Plain source) :
    expand disk source origin = .ok source := by
  have hlines : ∀ line ∈ Expansion.numbered origin (lines source.toList),
      Directive.isDirective line.text = false := by
    intro line hline
    have hmem := List.mem_map_of_mem (f := Line.text) hline
    rw [Expansion.map_text_numbered] at hmem
    exact h _ hmem
  simp only [expand]
  rw [Expansion.expandLines_plain disk _ hlines, Expansion.map_text_numbered]
  simp only [lines, flatten_splitAfter, String.ofList_toList]

/-! ## Two texts -/

namespace Text

/-- A blank behind a text is trimmed off. -/
theorem trim_append_blank {c : Char} (hc : isBlank c = true) (cs : List Char) :
    trim (cs ++ [c]) = trim cs := by
  have hright : ∀ cs : List Char, trimRight (cs ++ [c]) = trimRight cs := by
    intro cs
    unfold trimRight
    rw [List.reverse_append, List.reverse_singleton, List.singleton_append, List.dropWhile_cons_of_pos hc]
  unfold trim
  induction cs with
  | nil =>
      rw [List.nil_append, List.dropWhile_cons_of_pos hc]
  | cons x cs ih =>
      rw [List.cons_append]
      by_cases hx : isBlank x = true
      · rw [List.dropWhile_cons_of_pos hx, List.dropWhile_cons_of_pos hx, ih]
      · rw [List.dropWhile_cons_of_neg hx, List.dropWhile_cons_of_neg hx, ← List.cons_append, hright]

variable {α : Type} {ends : α → Bool}

theorem splitAfter_cons_of_end {a : α} (ha : ends a = true) (as : List α) :
    splitAfter ends (a :: as) = [a] :: splitAfter ends as := by
  rw [splitAfter, if_pos ha]

/-- An element that ends nothing belongs to the piece behind it, if there is one. -/
theorem splitAfter_cons_of_not_end {a : α} (ha : ¬ ends a = true) (as : List α) :
    splitAfter ends (a :: as) =
      (a :: (splitAfter ends as).headD []) :: (splitAfter ends as).tail := by
  rw [splitAfter, if_neg ha]
  cases splitAfter ends as <;> rfl

/-- An end behind a list ends its last piece, or is a piece of its own. -/
theorem splitAfter_append_end (ends : α → Bool) {e : α} (he : ends e = true) (as : List α) :
    splitAfter ends (as ++ [e]) = splitAfter ends as ++ [[e]] ∨
      ∃ init last, splitAfter ends as = init ++ [last] ∧
        splitAfter ends (as ++ [e]) = init ++ [last ++ [e]] := by
  induction as with
  | nil =>
      left
      exact splitAfter_cons_of_end he []
  | cons a as ih =>
      rw [List.cons_append]
      by_cases ha : ends a = true
      · rw [splitAfter_cons_of_end ha, splitAfter_cons_of_end ha]
        obtain h | ⟨init, last, has, h⟩ := ih
        · left
          rw [h, List.cons_append]
        · right
          exact ⟨[a] :: init, last, by rw [has, List.cons_append], by rw [h, List.cons_append]⟩
      · rw [splitAfter_cons_of_not_end ha, splitAfter_cons_of_not_end ha]
        obtain h | ⟨init, last, has, h⟩ := ih
        · rw [h]
          cases splitAfter ends as with
          | nil =>
              right
              exact ⟨[], [a], rfl, rfl⟩
          | cons piece pieces =>
              left
              rfl
        · right
          rw [has, h]
          cases init with
          | nil => exact ⟨[], a :: last, rfl, rfl⟩
          | cons piece pieces => exact ⟨(a :: piece) :: pieces, last, rfl, rfl⟩

/-- What follows an end is cut on its own. -/
theorem splitAfter_append (ends : α → Bool) {e : α} (he : ends e = true) (as bs : List α) :
    splitAfter ends (as ++ e :: bs) = splitAfter ends (as ++ [e]) ++ splitAfter ends bs := by
  induction as with
  | nil =>
      rw [List.nil_append, List.nil_append, splitAfter_cons_of_end he, splitAfter_cons_of_end he]
      rfl
  | cons a as ih =>
      rw [List.cons_append, List.cons_append]
      by_cases ha : ends a = true
      · rw [splitAfter_cons_of_end ha, splitAfter_cons_of_end ha, ih, List.cons_append]
      · rw [splitAfter_cons_of_not_end ha, splitAfter_cons_of_not_end ha, ih]
        -- The piece that `a` joins is there already: an end follows.
        obtain h | ⟨init, last, -, h⟩ := splitAfter_append_end ends he as
        · rw [h]
          cases splitAfter ends as <;> rfl
        · rw [h]
          cases init <;> rfl

/-- **The lines of joined texts.** They are the lines of the two texts, but the last line of the first
may have got its end of line from the joint, and the joint may be a line of its own. -/
theorem mem_lines_append_newline {as bs line : List Char} (h : line ∈ lines (as ++ '\n' :: bs)) :
    line ∈ lines as ∨ line = ['\n'] ∨ (∃ last ∈ lines as, line = last ++ ['\n']) ∨ line ∈ lines bs := by
  have hsplit : lines (as ++ '\n' :: bs) = lines (as ++ ['\n']) ++ lines bs :=
    splitAfter_append (· == '\n') (BEq.refl '\n') as bs
  rw [hsplit, List.mem_append] at h
  obtain h | h := h
  · obtain hpieces | ⟨init, last, has, hpieces⟩ := splitAfter_append_end (· == '\n') (BEq.refl '\n') as
    · rw [lines, hpieces, List.mem_append, List.mem_singleton] at h
      exact h.imp_right .inl
    · rw [lines, hpieces, List.mem_append, List.mem_singleton] at h
      rw [lines, has]
      obtain h | h := h
      · exact .inl (List.mem_append_left _ h)
      · exact .inr (.inr (.inl ⟨last, List.mem_concat_self, h⟩))
  · exact .inr (.inr (.inr h))

end Text

/-- An end of line behind a line makes no difference to what the line is. -/
theorem Directive.isDirective_append_newline (line : List Char) :
    Directive.isDirective (line ++ ['\n']) = Directive.isDirective line := by
  have hblank : isBlank '\n' = true := by decide
  unfold Directive.isDirective
  rw [trim_append_blank hblank]

/-- **Texts one under the other.** Joining texts without instructions makes none. -/
theorem Plain.append_newline {a b : String} (ha : Plain a) (hb : Plain b) : Plain (a ++ "\n" ++ b) := by
  intro line hline
  have htext : (a ++ "\n" ++ b).toList = a.toList ++ '\n' :: b.toList := by
    rw [String.toList_append, String.toList_append, List.append_assoc]
    rfl
  rw [htext] at hline
  obtain h | rfl | ⟨last, hlast, rfl⟩ | h := mem_lines_append_newline hline
  · exact ha line h
  · decide
  · rw [Directive.isDirective_append_newline]
    exact ha last hlast
  · exact hb line h

end Mapsto
