import Mathlib.Data.List.Forall2
import Mapsto.Proofs.Lexer.Scan

/-!
# `Mapsto.Proofs.Lexer.Lines` — no token goes beyond the end of its line

Whatever is read in front of an end of line is read as if the text stopped there: layout, names and
numerals stop at it, and no keyword or operator contains it. The one thing that shows what follows is
the message about a malformed operator, which quotes the characters behind its first one; `outline`
leaves that quotation out. So a text is read line by line (`Cursor.scan_withLine`), and what is found in
two texts one under the other is what is found in each of them (`Lexed.ofString_local`).
-/

namespace Mapsto

/-- A lexical error without the characters that a malformed operator quotes. -/
def LexError.outline : LexError → LexError
  | unexpectedCharacter c => .unexpectedCharacter c
  | malformedOperator expected _ => .malformedOperator expected ""

namespace Lexer

open Text

/-- An item that was read, without the characters that a malformed operator quotes. -/
def outline : Except LexError Token → Except LexError Token
  | .ok token => .ok token
  | .error e => .error e.outline

/-! ## The single questions -/

theorem gap_append_newline (inComment : Bool) (a b : List Char) :
    gap inComment (a ++ '\n' :: b) = gap inComment a := by
  fun_induction gap inComment a with
  | case1 inComment => cases inComment <;> rfl
  | case2 cs => rfl
  | case3 c cs hc ih => rw [List.cons_append, gap, if_neg hc, ih]
  | case4 c cs hc ih => rw [List.cons_append, gap, if_pos hc, ih]
  | case5 cs hc ih => rw [List.cons_append, gap, if_neg hc, if_pos rfl, ih]
  | case6 c cs hc hc' => rw [List.cons_append, gap, if_neg hc, if_neg hc']

theorem isPrefixOf_append_newline {w : List Char} (hw : '\n' ∉ w) (a b : List Char) :
    w.isPrefixOf (a ++ '\n' :: b) = w.isPrefixOf a := by
  induction w generalizing a with
  | nil => cases a <;> rfl
  | cons x w ih =>
      have hx : x ≠ '\n' := fun h => hw (h ▸ List.mem_cons_self)
      have hw' : '\n' ∉ w := fun h => hw (List.mem_cons_of_mem x h)
      cases a with
      | nil =>
          show ((x == '\n') && w.isPrefixOf b) = false
          rw [beq_false_of_ne hx, Bool.false_and]
      | cons y a =>
          show ((x == y) && w.isPrefixOf (a ++ '\n' :: b)) = ((x == y) && w.isPrefixOf a)
          rw [ih hw']

theorem takeWhile_append_newline {p : Char → Bool} (hp : p '\n' = false) (a b : List Char) :
    (a ++ '\n' :: b).takeWhile p = a.takeWhile p := by
  induction a with
  | nil => exact List.takeWhile_cons_of_neg (by rw [hp]; exact Bool.false_ne_true)
  | cons x a ih =>
      rw [List.cons_append, List.takeWhile_cons, List.takeWhile_cons, ih]

theorem dropWhile_append_newline {p : Char → Bool} (hp : p '\n' = false) (a b : List Char) :
    (a ++ '\n' :: b).dropWhile p = a.dropWhile p ++ '\n' :: b := by
  induction a with
  | nil => exact List.dropWhile_cons_of_neg (by rw [hp]; exact Bool.false_ne_true)
  | cons x a ih =>
      rw [List.cons_append, List.dropWhile_cons, List.dropWhile_cons, ih]
      split <;> rfl

theorem numeral_append_newline (a b : List Char) : numeral (a ++ '\n' :: b) = numeral a := by
  have hdigit : isDigit '\n' = false := by decide
  unfold numeral
  rw [takeWhile_append_newline hdigit, dropWhile_append_newline hdigit]
  cases a.dropWhile isDigit with
  | nil => rfl
  | cons x rest =>
      rw [List.cons_append]
      split
      · rename_i heq
        obtain ⟨rfl, rfl⟩ := List.cons.inj heq
        rw [takeWhile_append_newline hdigit]
        rfl
      · rename_i hne
        split
        · rename_i heq
          obtain ⟨rfl, rfl⟩ := List.cons.inj heq
          exact absurd rfl (hne _)
        · rfl

theorem keyword?_append_newline (a b : List Char) : keyword? (a ++ '\n' :: b) = keyword? a := by
  unfold keyword? keywords
  simp only [List.find?_cons, List.find?_nil, isPrefixOf_append_newline (show '\n' ∉ "if".toList by decide),
    isPrefixOf_append_newline (show '\n' ∉ "then".toList by decide),
    isPrefixOf_append_newline (show '\n' ∉ "else".toList by decide)]

theorem operator_append_newline {expected : String} (hexpected : '\n' ∉ expected.toList) (token : Token)
    (a b : List Char) :
    (operator expected token (a ++ '\n' :: b)).2 = (operator expected token a).2 ∧
      outline (operator expected token (a ++ '\n' :: b)).1 = outline (operator expected token a).1 := by
  unfold operator
  rw [isPrefixOf_append_newline hexpected]
  split
  · exact ⟨rfl, rfl⟩
  · exact ⟨rfl, rfl⟩

/-- **Line by line.** What stands at a place, and how long it is, is decided before the end of the line. -/
theorem munch_append_newline (c : Char) (cs b : List Char) :
    (munch (c :: cs ++ '\n' :: b)).2 = (munch (c :: cs)).2 ∧
      outline (munch (c :: cs ++ '\n' :: b)).1 = outline (munch (c :: cs)).1 := by
  have hname : isNameChar '\n' = false := by decide
  -- All that is asked of the characters has the same answer with and without the next line.
  have hk := keyword?_append_newline (c :: cs) b
  have hn := numeral_append_newline (c :: cs) b
  have ht := takeWhile_append_newline hname (c :: cs) b
  simp only [List.cons_append] at hk hn ht ⊢
  simp only [munch, hk, hn, ht]
  split
  · exact operator_append_newline (by decide) .binding (c :: cs) b
  split
  · exact operator_append_newline (by decide) .mapsTo (c :: cs) b
  · exact ⟨rfl, rfl⟩

theorem munch_newline (b : List Char) : munch ('\n' :: b) = (.ok .endLine, 1) := by
  have hk : keyword? ('\n' :: b) = none := keyword?_append_newline [] b
  have ha : isAlphabetic '\n' = false := by decide
  have hd : isDigit '\n' = false := by decide
  simp only [munch, hk, ha, hd]
  rfl

end Lexer

/-- An item that was read, with its place, without the characters that a malformed operator quotes. -/
def Spanned.outline (item : Spanned (Except LexError Token)) : Spanned (Except LexError Token) :=
  ⟨Lexer.outline item.value, item.span⟩

namespace Cursor

open Lexer

/-- A place with another line behind the text. -/
def withLine (c : Cursor) (b : List Char) : Cursor := ⟨c.rest ++ '\n' :: b, c.offset⟩

theorem advance_withLine {c : Cursor} {n : Nat} (h : n ≤ c.rest.length) (b : List Char) :
    (c.withLine b).advance n = (c.advance n).withLine b := by
  unfold advance withLine
  rw [List.drop_append_of_le_length h, List.take_append_of_le_length h]

theorem skipLayout_withLine (c : Cursor) (b : List Char) :
    (c.withLine b).skipLayout = c.skipLayout.withLine b := by
  unfold skipLayout
  rw [show (c.withLine b).rest = c.rest ++ '\n' :: b from rfl, gap_append_newline]
  exact advance_withLine (gap_le false c.rest) b

theorem next_withLine {c : Cursor} {x : Char} {xs : List Char} (h : c.skipLayout.rest = x :: xs)
    (b : List Char) :
    (c.withLine b).next.1.outline = c.next.1.outline ∧ (c.withLine b).next.2 = c.next.2.withLine b := by
  obtain ⟨hlen, hitem⟩ := munch_append_newline x xs b
  have hrest : (c.skipLayout.withLine b).rest = x :: xs ++ '\n' :: b := by
    show c.skipLayout.rest ++ '\n' :: b = _
    rw [h]
  -- The item ends inside the text, so the line that was added is still behind it.
  have hle := munch_le c.skipLayout.rest
  have hstop : (c.skipLayout.withLine b).advance (munch (c.skipLayout.withLine b).rest).2 =
      (c.skipLayout.advance (munch c.skipLayout.rest).2).withLine b := by
    rw [hrest, hlen, ← h]
    exact advance_withLine hle b
  constructor
  · simp only [Spanned.outline, next, skipLayout_withLine, hstop]
    rw [hrest, hitem, ← h]
    rfl
  · show (c.withLine b).skipLayout.advance _ = _
    rw [skipLayout_withLine, hstop]
    rfl

/-- The end of the line is read as a token of one byte, and reading goes on behind it. -/
theorem next_withLine_of_nil {c : Cursor} (h : c.skipLayout.rest = []) (b : List Char) :
    (c.withLine b).skipLayout.rest = '\n' :: b ∧
      (c.withLine b).next =
        (⟨.ok .endLine, ⟨c.skipLayout.offset, c.skipLayout.offset + 1⟩⟩, ⟨b, c.skipLayout.offset + 1⟩) := by
  have hrest : (c.skipLayout.withLine b).rest = '\n' :: b := by
    show c.skipLayout.rest ++ '\n' :: b = _
    rw [h]
    rfl
  rw [skipLayout_withLine]
  refine ⟨hrest, ?_⟩
  simp only [next, skipLayout_withLine, hrest, munch_newline, advance]
  rfl

/-- What was read and what is left to be read make up the bytes of the text. -/
theorem offset_advance (c : Cursor) (n : Nat) :
    (c.advance n).offset + byteLength (c.advance n).rest = c.offset + byteLength c.rest := by
  show c.offset + byteLength (c.rest.take n) + byteLength (c.rest.drop n) = _
  rw [Nat.add_assoc, ← byteLength_append, List.take_append_drop]

theorem offset_skipLayout (c : Cursor) :
    c.skipLayout.offset + byteLength c.skipLayout.rest = c.offset + byteLength c.rest :=
  offset_advance c _

theorem offset_next (c : Cursor) :
    c.next.2.offset + byteLength c.next.2.rest = c.offset + byteLength c.rest :=
  (offset_advance c.skipLayout _).trans (offset_skipLayout c)

/-- **A text is read line by line**: what is in front of an end of line, then the end of the line, then
what is behind it. -/
theorem scan_withLine (c : Cursor) (b : List Char) :
    ∃ items, items.map Spanned.outline = c.scan.map Spanned.outline ∧
      (c.withLine b).scan =
        items ++ ⟨.ok .endLine, ⟨c.offset + byteLength c.rest, c.offset + byteLength c.rest + 1⟩⟩ ::
          scan ⟨b, c.offset + byteLength c.rest + 1⟩ := by
  induction hlen : c.rest.length using Nat.strongRecOn generalizing c with
  | ind len ih =>
      cases h : c.skipLayout.rest with
      | nil =>
          -- Nothing is left but the end of the line.
          obtain ⟨hrest, hnext⟩ := next_withLine_of_nil h b
          have hoffset := offset_skipLayout c
          rw [h] at hoffset
          refine ⟨[], by rw [scan_of_nil h], ?_⟩
          rw [scan_of_cons hrest, hnext, ← hoffset]
          rfl
      | cons x xs =>
          obtain ⟨hitem, hnext⟩ := next_withLine h b
          have hlt : c.next.2.rest.length < len := hlen ▸ next_rest_length h
          obtain ⟨items, hitems, hscan⟩ := ih _ hlt c.next.2 rfl
          have hrest : (c.withLine b).skipLayout.rest = x :: (xs ++ '\n' :: b) := by
            rw [skipLayout_withLine]
            show c.skipLayout.rest ++ '\n' :: b = _
            rw [h]
            rfl
          refine ⟨(c.withLine b).next.1 :: items, ?_, ?_⟩
          · rw [scan_of_cons h, List.map_cons, List.map_cons, hitem, hitems]
          · rw [scan_of_cons hrest, hnext, hscan, offset_next]
            rfl

end Cursor

/-- A lexical error with its place, without the characters that a malformed operator quotes. -/
def Spanned.errorOutline (e : Spanned LexError) : Spanned LexError := ⟨e.value.outline, e.span⟩

/-! ## Tokens and mistakes -/

namespace Lexed

variable (xs ys : List (Spanned (Except LexError Token)))

theorem ofItems_append :
    ofItems (xs ++ ys) =
      ⟨(ofItems xs).tokens ++ (ofItems ys).tokens, (ofItems xs).errors ++ (ofItems ys).errors⟩ := by
  induction xs with
  | nil => rfl
  | cons x xs ih =>
      obtain ⟨value, span⟩ := x
      cases value with
      | ok token => simp only [List.cons_append, ofItems, ih]
      | error e => simp only [List.cons_append, ofItems, ih]

theorem ofItems_outline :
    ofItems (xs.map Spanned.outline) =
      ⟨(ofItems xs).tokens, (ofItems xs).errors.map Spanned.errorOutline⟩ := by
  induction xs with
  | nil => rfl
  | cons x xs ih =>
      obtain ⟨value, span⟩ := x
      cases value with
      | ok token => simp only [List.map_cons, Spanned.outline, Lexer.outline, ofItems, ih]
      | error e =>
          simp only [List.map_cons, Spanned.outline, Lexer.outline, ofItems, ih]
          rfl

theorem ofItems_moved (n : Nat) :
    ofItems (xs.map (Spanned.moved n)) =
      ⟨(ofItems xs).tokens.map (Spanned.moved n), (ofItems xs).errors.map (Spanned.moved n)⟩ := by
  induction xs with
  | nil => rfl
  | cons x xs ih =>
      obtain ⟨value, span⟩ := x
      cases value with
      | ok token =>
          simp only [List.map_cons, Spanned.moved, ofItems, ih]
      | error e => simp only [List.map_cons, Spanned.moved, ofItems, ih]

/-- **A text of two parts** has the tokens of the first, an end of line, and the tokens of the second,
moved; and it has the mistakes of the first, up to what they quote, and those of the second, moved. -/
theorem ofString_append_newline (a b : String) :
    let width := Cursor.byteLength a.toList
    (ofString (a ++ "\n" ++ b)).tokens =
        (ofString a).tokens ++ ⟨.endLine, ⟨width, width + 1⟩⟩ ::
          (ofString b).tokens.map (Spanned.moved (width + 1)) ∧
      ∃ errors, errors.map Spanned.errorOutline = (ofString a).errors.map Spanned.errorOutline ∧
        (ofString (a ++ "\n" ++ b)).errors =
          errors ++ (ofString b).errors.map (Spanned.moved (width + 1)) := by
  intro width
  have hcursor : Cursor.ofString (a ++ "\n" ++ b) = (Cursor.ofString a).withLine b.toList := by
    unfold Cursor.ofString Cursor.withLine
    simp
  have hmoved : (⟨b.toList, (Cursor.ofString a).offset + width + 1⟩ : Cursor) =
      (Cursor.ofString b).moved (width + 1) := by
    unfold Cursor.ofString Cursor.moved
    rw [Nat.zero_add, Nat.zero_add]
  obtain ⟨items, hitems, hscan⟩ := (Cursor.ofString a).scan_withLine b.toList
  -- what was read in front of the end of line has the tokens of `a`, and its mistakes up to quotations
  have ha := ofItems_outline items
  rw [hitems, ofItems_outline] at ha
  obtain ⟨htokens, herrors⟩ := Lexed.mk.inj ha
  have hjoined : ofString (a ++ "\n" ++ b) = ofItems (items ++ ⟨.ok .endLine, ⟨width, width + 1⟩⟩ ::
      (Cursor.ofString b).scan.map (Spanned.moved (width + 1))) := by
    rw [ofString, hcursor, hscan, ← Cursor.scan_moved, ← hmoved]
    simp only [show (Cursor.ofString a).offset = 0 from rfl, Nat.zero_add]
    rfl
  rw [hjoined, ofItems_append]
  simp only [ofItems, ofItems_moved]
  constructor
  · rw [← htokens]
    rfl
  · exact ⟨(ofItems items).errors, herrors.symm, rfl⟩

end Lexed

/-! ## Mistakes of the same kind -/

/-- The same mistake, except for the characters that a malformed operator quotes. -/
inductive LexError.Alike : LexError → LexError → Prop where
  | unexpectedCharacter (c : Char) : Alike (.unexpectedCharacter c) (.unexpectedCharacter c)
  | malformedOperator (expected found found' : String) :
    Alike (.malformedOperator expected found) (.malformedOperator expected found')

theorem LexError.alike_of_outline_eq {e e' : LexError} (h : e.outline = e'.outline) : e.Alike e' := by
  cases e with
  | unexpectedCharacter c =>
      cases e' with
      | unexpectedCharacter c' =>
          obtain rfl := LexError.unexpectedCharacter.inj h
          exact .unexpectedCharacter c
      | malformedOperator expected' found' => cases h
  | malformedOperator expected found =>
      cases e' with
      | unexpectedCharacter c' => cases h
      | malformedOperator expected' found' =>
          obtain ⟨rfl, -⟩ := LexError.malformedOperator.inj h
          exact .malformedOperator expected found found'

/-- Mistakes of the same kind at the same places. -/
def Spanned.ErrorAlike (e e' : Spanned LexError) : Prop := e.value.Alike e'.value ∧ e.span = e'.span

theorem forall₂_alike_of_map_errorOutline_eq {errors errors' : List (Spanned LexError)}
    (h : errors.map Spanned.errorOutline = errors'.map Spanned.errorOutline) :
    List.Forall₂ Spanned.ErrorAlike errors errors' := by
  rw [← List.forall₂_eq_eq_eq, List.forall₂_map_left_iff, List.forall₂_map_right_iff] at h
  refine h.imp fun e e' he => ?_
  obtain ⟨hvalue, hspan⟩ := Spanned.mk.inj he
  exact ⟨LexError.alike_of_outline_eq hvalue, hspan⟩

/-- **Reading is local to lines.** Where a text is cut at an end of line, its tokens are those of the part
in front, the end of line as a token of one byte, and those of the part behind, moved. Its mistakes are
those of both parts, the second ones moved; of the first ones a malformed operator may quote other
characters, because it quotes what follows. -/
theorem Lexed.ofString_local (a b : String) :
    (ofString (a ++ "\n" ++ b)).tokens =
        (ofString a).tokens ++ ⟨.endLine, ⟨a.utf8ByteSize, a.utf8ByteSize + 1⟩⟩ ::
          (ofString b).tokens.map (Spanned.moved (a.utf8ByteSize + 1)) ∧
      ∃ errors, List.Forall₂ Spanned.ErrorAlike errors (ofString a).errors ∧
        (ofString (a ++ "\n" ++ b)).errors =
          errors ++ (ofString b).errors.map (Spanned.moved (a.utf8ByteSize + 1)) := by
  obtain ⟨htokens, errors, houtline, herrors⟩ := ofString_append_newline a b
  have hwidth : Cursor.byteLength a.toList = a.utf8ByteSize := by
    rw [Cursor.byteLength_eq_utf8ByteSize, String.ofList_toList]
  rw [hwidth] at htokens herrors
  exact ⟨htokens, errors, forall₂_alike_of_map_errorOutline_eq houtline, herrors⟩

/-- An operator that is cut off by the end of a line quotes the line behind it. -/
example :
    (Lexed.ofString "é :").errors = [⟨.malformedOperator ":=" ":", ⟨3, 4⟩⟩] ∧
      (Lexed.ofString "é :\n= |").errors =
        [⟨.malformedOperator ":=" ":\n", ⟨3, 4⟩⟩, ⟨.unexpectedCharacter '=', ⟨5, 6⟩⟩,
          ⟨.malformedOperator "|->" "|", ⟨7, 8⟩⟩] := by
  decide +kernel

end Mapsto
