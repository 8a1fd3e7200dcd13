import Mapsto.Proofs.Lexer.Words

/-!
# `Mapsto.Proofs.Lexer.Division` — a text as layout and words

`Divided offset text items` says that a text is a sequence of words with layout in front of each of them
and behind the last: layout is blanks and comments (`IsLayout`), a word is what stands there
(`Stands`), and the items are what was read, each with the place of its word when the text starts at
byte `offset`. Scanning a text divides it in this way (`Cursor.scan_divided`), and there is no other
way to do it (`Divided.scan_eq`).
-/

namespace Mapsto.Lexer

/-! ## Layout -/

/-- Nothing, or a comment that goes on up to the end of its line, which is not part of it. -/
def IsComment (comment follow : List Char) : Prop :=
  comment = [] ∨ ∃ body, comment = '#' :: body ∧ '\n' ∉ body ∧ ∀ c ∈ follow.head?, c = '\n'

/-- Layout in front of `follow`: blanks, and maybe a comment behind them. -/
def IsLayout (gap follow : List Char) : Prop :=
  ∃ blanks comment, gap = blanks ++ comment ∧ (∀ c ∈ blanks, IsBlank c) ∧ IsComment comment follow

theorem IsLayout.nil (follow : List Char) : IsLayout [] follow :=
  ⟨[], [], rfl, nofun, .inl rfl⟩

theorem IsLayout.cons {c : Char} {gap follow : List Char} (hc : IsBlank c) (h : IsLayout gap follow) :
    IsLayout (c :: gap) follow := by
  obtain ⟨blanks, comment, rfl, hblanks, hcomment⟩ := h
  exact ⟨c :: blanks, comment, rfl, List.forall_mem_cons.mpr ⟨hc, hblanks⟩, hcomment⟩

/-- There are no ends of lines in layout. -/
theorem IsLayout.newline_not_mem {gap follow : List Char} (h : IsLayout gap follow) : '\n' ∉ gap := by
  obtain ⟨blanks, comment, rfl, hblanks, rfl | ⟨body, rfl, hbody, -⟩⟩ := h
  · rw [List.append_nil]
    exact fun hmem => absurd (hblanks _ hmem) (by decide)
  · intro hmem
    rcases List.mem_append.mp hmem with hmem | hmem
    · exact absurd (hblanks _ hmem) (by decide)
    · rcases List.mem_cons.mp hmem with h | hmem
      · exact absurd h (by decide)
      · exact hbody hmem

theorem gap_cons_of_isBlank {c : Char} (h : IsBlank c) (cs : List Char) :
    gap false (c :: cs) = gap false cs + 1 := if_pos h

theorem gap_cons_comment (cs : List Char) : gap false ('#' :: cs) = gap true cs + 1 := rfl

theorem gap_cons_of_not_startsLayout {c : Char} (h : ¬ StartsLayout c) (cs : List Char) :
    gap false (c :: cs) = 0 :=
  (if_neg fun hc => h (.inl hc)).trans (if_neg fun hc => h (.inr hc))

/-- Inside a comment, `gap` takes all that is left of the line. -/
theorem exists_gap_true (cs : List Char) :
    ∃ body follow, cs = body ++ follow ∧ gap true cs = body.length ∧ '\n' ∉ body ∧
      ∀ c ∈ follow.head?, c = '\n' := by
  induction cs with
  | nil => exact ⟨[], [], rfl, rfl, nofun, nofun⟩
  | cons c cs ih =>
      by_cases hc : c = '\n'
      · refine ⟨[], c :: cs, rfl, ?_, nofun, ?_⟩
        · rw [gap, if_pos hc]
          rfl
        · rintro x ⟨⟩
          exact hc
      · obtain ⟨body, follow, hcs, hgap, hbody, hfollow⟩ := ih
        refine ⟨c :: body, follow, by rw [hcs]; rfl, ?_, ?_, hfollow⟩
        · rw [gap, if_neg hc, hgap]
          rfl
        · exact List.not_mem_cons_of_ne_of_not_mem (fun h => hc h.symm) hbody

/-- `gap` takes layout, and as much of it as there is. -/
theorem exists_gap_false (cs : List Char) :
    ∃ blank follow, cs = blank ++ follow ∧ gap false cs = blank.length ∧ IsLayout blank follow ∧
      ∀ c ∈ follow.head?, ¬ StartsLayout c := by
  induction cs with
  | nil => exact ⟨[], [], rfl, rfl, .nil [], nofun⟩
  | cons c cs ih =>
      by_cases hblank : IsBlank c
      · obtain ⟨blank, follow, hcs, hgap, hlayout, hfollow⟩ := ih
        refine ⟨c :: blank, follow, by rw [hcs]; rfl, ?_, hlayout.cons hblank, hfollow⟩
        rw [gap_cons_of_isBlank hblank, hgap]
        rfl
      by_cases hcomment : c = '#'
      · subst hcomment
        obtain ⟨body, follow, hcs, hgap, hbody, hfollow⟩ := exists_gap_true cs
        refine ⟨'#' :: body, follow, by rw [hcs]; rfl, ?_, ?_, ?_⟩
        · rw [gap_cons_comment, hgap]
          rfl
        · exact ⟨[], '#' :: body, rfl, nofun, .inr ⟨body, rfl, hbody, hfollow⟩⟩
        · intro x hx
          rw [hfollow x hx]
          decide
      · have hc : ¬ StartsLayout c := fun h => h.elim hblank hcomment
        refine ⟨[], c :: cs, rfl, gap_cons_of_not_startsLayout hc cs, .nil _, ?_⟩
        rintro x ⟨⟩
        exact hc

theorem gap_true_append {body follow : List Char} (hbody : '\n' ∉ body)
    (hfollow : ∀ c ∈ follow.head?, c = '\n') : gap true (body ++ follow) = body.length := by
  induction body with
  | nil =>
      cases follow with
      | nil => rfl
      | cons c follow => exact if_pos (hfollow c rfl)
  | cons c body ih =>
      have hc : c ≠ '\n' := fun h => hbody (h ▸ List.mem_cons_self)
      rw [List.cons_append, gap, if_neg hc, ih (fun h => hbody (List.mem_cons_of_mem c h))]
      rfl

/-- Layout in front of what does not start with layout is what `gap` takes. -/
theorem IsLayout.gap_append {blank follow : List Char} (h : IsLayout blank follow)
    (hfollow : ∀ c ∈ follow.head?, ¬ StartsLayout c) : gap false (blank ++ follow) = blank.length := by
  obtain ⟨blanks, comment, rfl, hblanks, hcomment⟩ := h
  have hcomment : gap false (comment ++ follow) = comment.length := by
    rcases hcomment with rfl | ⟨body, rfl, hbody, hline⟩
    · cases follow with
      | nil => rfl
      | cons c follow => exact gap_cons_of_not_startsLayout (hfollow c rfl) follow
    · rw [List.cons_append, gap_cons_comment, gap_true_append hbody hline]
      rfl
  induction blanks with
  | nil => exact hcomment
  | cons c blanks ih =>
      obtain ⟨hc, hblanks⟩ := List.forall_mem_cons.mp hblanks
      simp only [List.cons_append]
      rw [gap_cons_of_isBlank hc, ih hblanks]
      rfl

/-! ## Words with layout around them -/

open Cursor (byteLength)

/-- The items are the words of a text that starts at a byte, each with its place; between them there is
layout. -/
inductive Divided : Nat → List Char → List (Spanned (Except LexError Token)) → Prop where
  | nil {offset : Nat} {gap : List Char} (hgap : IsLayout gap []) : Divided offset gap []
  | cons {offset : Nat} {gap word follow : List Char} {value : Except LexError Token}
      {items : List (Spanned (Except LexError Token))} (hgap : IsLayout gap (word ++ follow))
      (hword : Stands word follow value)
      (hrest : Divided (offset + byteLength gap + byteLength word) follow items) :
      Divided offset (gap ++ (word ++ follow))
        (⟨value, ⟨offset + byteLength gap, offset + byteLength gap + byteLength word⟩⟩ :: items)

end Mapsto.Lexer

namespace Mapsto.Cursor

open Lexer

theorem advance_append (first second : List Char) (offset : Nat) :
    advance ⟨first ++ second, offset⟩ first.length = ⟨second, offset + byteLength first⟩ := by
  unfold advance
  rw [List.drop_left, List.take_left]

theorem skipLayout_append {gap follow : List Char} (hgap : IsLayout gap follow)
    (hfollow : ∀ c ∈ follow.head?, ¬ StartsLayout c) (offset : Nat) :
    skipLayout ⟨gap ++ follow, offset⟩ = ⟨follow, offset + byteLength gap⟩ := by
  unfold skipLayout
  rw [hgap.gap_append hfollow, advance_append]

variable {gap word follow : List Char} {value : Except LexError Token}

theorem skipLayout_of_stands (hgap : IsLayout gap (word ++ follow)) (hword : Stands word follow value)
    (offset : Nat) :
    skipLayout ⟨gap ++ (word ++ follow), offset⟩ = ⟨word ++ follow, offset + byteLength gap⟩ := by
  refine skipLayout_append hgap ?_ offset
  obtain ⟨c, cs, rfl, hc⟩ := hword.exists_cons
  rintro x ⟨⟩
  exact hc

/-- Behind layout, what stands there is read. -/
theorem next_of_stands (hgap : IsLayout gap (word ++ follow)) (hword : Stands word follow value)
    (offset : Nat) :
    next ⟨gap ++ (word ++ follow), offset⟩ =
      (⟨value, ⟨offset + byteLength gap, offset + byteLength gap + byteLength word⟩⟩,
        ⟨follow, offset + byteLength gap + byteLength word⟩) := by
  simp only [next, skipLayout_of_stands hgap hword, hword.munch_eq, advance_append]

/-- **Scanning divides a text** into words and layout. -/
theorem scan_divided (c : Cursor) : Divided c.offset c.rest c.scan := by
  induction hlen : c.rest.length using Nat.strongRecOn generalizing c with
  | ind len ih =>
      obtain ⟨text, offset⟩ := c
      obtain ⟨gap, follow, rfl, -, hgap, hfollow⟩ := exists_gap_false text
      have hskip := skipLayout_append hgap hfollow offset
      cases follow with
      | nil =>
          rw [scan_of_nil (by rw [hskip])]
          rw [List.append_nil]
          exact .nil hgap
      | cons x xs =>
          obtain ⟨word, follow, hsplit, -, hword⟩ := exists_stands (hfollow x rfl) xs
          have hrest : (skipLayout ⟨gap ++ x :: xs, offset⟩).rest = x :: xs := by rw [hskip]
          have hshorter : (next ⟨gap ++ x :: xs, offset⟩).2.rest.length < len :=
            hlen ▸ next_rest_length hrest
          rw [scan_of_cons hrest]
          generalize (munch (x :: xs)).1 = value at hword
          rw [hsplit] at hgap hshorter ⊢
          rw [next_of_stands hgap hword] at hshorter ⊢
          exact .cons hgap hword (ih _ hshorter _ rfl)

end Mapsto.Cursor

namespace Mapsto.Lexer

/-- **One division.** However a text is divided, the items are what scanning gives. -/
theorem Divided.scan_eq {offset : Nat} {text : List Char} {items : List (Spanned (Except LexError Token))}
    (h : Divided offset text items) : Cursor.scan ⟨text, offset⟩ = items := by
  induction h with
  | @nil offset gap hgap =>
      have hskip := Cursor.skipLayout_append hgap nofun offset
      rw [List.append_nil] at hskip
      exact Cursor.scan_of_nil (by rw [hskip])
  | @cons offset gap word follow value items hgap hword hrest ih =>
      obtain ⟨c, cs, hc, -⟩ := hword.exists_cons
      have hrest : (Cursor.skipLayout ⟨gap ++ (word ++ follow), offset⟩).rest = c :: (cs ++ follow) := by
        rw [Cursor.skipLayout_of_stands hgap hword, hc]
        rfl
      rw [Cursor.scan_of_cons hrest, Cursor.next_of_stands hgap hword, ih]

end Mapsto.Lexer
