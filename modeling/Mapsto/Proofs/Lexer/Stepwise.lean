import Mapsto.Proofs.Lexer.Lines
import Mapsto.Proofs.Lexer.Spelling

/-!
# `Mapsto.Proofs.Lexer.Stepwise` — the lexer one character at a time

A `Cursor` moves over many characters at once, and its characters and its count of bytes move together. Here
the two are moved apart from each other, one character at a time (`Reader.readChar`): an iterator has the
characters that are left, a position is counted beside it, and where operators and keywords are looked for,
the text is cut at that position. Cutting a text where no character starts brings a call to a standstill: it
comes to nothing (`Reader.rest?`), and so does reading a whole text when it takes more rounds than there are
characters, and one more (`Reader.tokenise`).

**Invariant.** The characters that are left are those of the text behind the position (`Reader.InStep`). Every
loop reads a number of characters that is known from the characters that are left (`advance`), and that keeps
the invariant. So no call comes to a standstill, and each does what the cursor does (`nextToken_eq`). What the
calls give, one after the other, are the items of the text and then its end (`calls_inStep`).
-/

namespace Mapsto

open Text Lexer
open Cursor (byteLength byteLength_append)

/-- A lexer in the middle of a text. -/
structure Reader where
  input : String
  /-- The characters that its iterator has not given yet. -/
  left : List Char
  /-- How many bytes it has counted. -/
  position : Nat

namespace Reader

/-! ## Steps -/

/-- A lexer at the start of a text. -/
def ofString (s : String) : Reader := ⟨s, s.toList, 0⟩

/-- Takes a character from the iterator, if there is one, and counts its bytes. -/
def readChar (r : Reader) : Reader :=
  match r.left with
  | [] => r
  | c :: cs => { r with left := cs, position := r.position + c.utf8Size }

/-- The next character. -/
def peek? (r : Reader) : Option Char := r.left.head?

/-- The text behind the position; nothing if no character starts there. -/
def rest? (r : Reader) : Option (List Char) :=
  if String.Pos.Raw.IsValid r.input ⟨r.position⟩ then some (textFrom r.input r.position) else none

def readChars : Nat → Reader → Reader
  | 0, r => r
  | n + 1, r => readChars n r.readChar

theorem readChar_left_length {r : Reader} {c : Char} (h : r.peek? = some c) :
    r.readChar.left.length < r.left.length := by
  obtain ⟨cs, hleft⟩ := List.head?_eq_some_iff.mp h
  unfold readChar
  rw [hleft]
  exact Nat.lt_succ_self _

/-- Reads characters as long as the next one has a property. -/
def readWhile (p : Char → Bool) (r : Reader) : List Char × Reader :=
  match h : r.peek? with
  | none => ([], r)
  | some c =>
    if p c then
      have := readChar_left_length h
      let (word, stop) := readWhile p r.readChar
      (c :: word, stop)
    else ([], r)
termination_by r.left.length

/-- Reads an operator of which the first character is next. -/
def readOperator (expected : String) (token : Token) (r : Reader) :
    Option (Except LexError Token × Reader) := do
  let rest ← r.rest?
  if expected.toList.isPrefixOf rest then some (.ok token, readChars expected.toList.length r)
  else
    let found := String.ofList (rest.take expected.toList.length)
    some (.error (.malformedOperator expected found), r.readChar)

/-- Reads a keyword, if one is next. -/
def readKeyword (r : Reader) : Option (Option Token × Reader) := do
  let rest ← r.rest?
  match keywords.find? fun k => k.1.toList.isPrefixOf rest with
  | none => some (none, r)
  | some (word, token) => some (some token, readChars word.toList.length r)

/-- Reads digits, a point behind them, and digits behind that. -/
def readNumber (r : Reader) : Token × Reader :=
  let (digits, stop) := r.readWhile isDigit
  match stop.peek? with
  | some '.' =>
    let (places, stop) := stop.readChar.readWhile isDigit
    (.number (String.ofList (digits ++ '.' :: places)), stop)
  | _ => (.number (String.ofList digits), stop)

def readIdentifier (r : Reader) : Token × Reader :=
  let (name, stop) := r.readWhile isNameChar
  (.identifier (String.ofList name), stop)

/-- Reads what stands behind layout. -/
def readItem (r : Reader) : Option (Except LexError Token × Reader) :=
  match r.peek? with
  | none => some (.ok .eof, r)
  | some c =>
    if c = ':' then r.readOperator ":=" .binding
    else if c = '|' then r.readOperator "|->" .mapsTo
    else do
      match ← r.readKeyword with
      | (some token, stop) => some (.ok token, stop)
      | (none, r) =>
        if isAlphabetic c then
          let (token, stop) := r.readIdentifier
          some (.ok token, stop)
        else if isDigit c then
          let (token, stop) := r.readNumber
          some (.ok token, stop)
        else
          match symbol? c with
          | some token => some (.ok token, r.readChar)
          | none => some (.error (.unexpectedCharacter c), r.readChar)

/-! ## Moving over many characters -/

/-- Moves over a number of characters at once. -/
def advance (r : Reader) (n : Nat) : Reader :=
  { r with left := r.left.drop n, position := r.position + byteLength (r.left.take n) }

theorem readChar_eq (r : Reader) : r.readChar = r.advance 1 := by
  obtain ⟨input, left, position⟩ := r
  cases left <;> rfl

theorem advance_advance (m n : Nat) (r : Reader) : (r.advance m).advance n = r.advance (m + n) := by
  simp only [advance, List.drop_drop, Nat.add_assoc, ← byteLength_append, List.take_add]

theorem readChars_eq (n : Nat) (r : Reader) : readChars n r = r.advance n := by
  induction n generalizing r with
  | zero => rfl
  | succ n ih => rw [readChars, ih, readChar_eq, advance_advance, Nat.add_comm]

theorem readWhile_eq (p : Char → Bool) (r : Reader) :
    r.readWhile p = (r.left.takeWhile p, r.advance (r.left.takeWhile p).length) := by
  fun_induction readWhile p r with
  | case1 r h =>
      have hleft : r.left = [] := List.head?_eq_none_iff.mp h
      rw [hleft]
      rfl
  | case2 r c h hc _ word stop hread ih =>
      obtain ⟨cs, hleft⟩ := List.head?_eq_some_iff.mp h
      rw [hread] at ih
      obtain ⟨rfl, rfl⟩ := Prod.mk.inj ih
      have hread : r.readChar.left = cs := by rw [readChar_eq, advance, hleft, List.drop_one, List.tail_cons]
      rw [hread, hleft, List.takeWhile_cons_of_pos hc, readChar_eq, advance_advance, List.length_cons,
        Nat.add_comm]
  | case3 r c h hc =>
      obtain ⟨cs, hleft⟩ := List.head?_eq_some_iff.mp h
      rw [hleft, List.takeWhile_cons_of_neg hc]
      rfl

theorem drop_takeWhile_length (p : Char → Bool) (cs : List Char) :
    cs.drop (cs.takeWhile p).length = cs.dropWhile p := by
  have hdrop : ((cs.takeWhile p) ++ (cs.dropWhile p)).drop (cs.takeWhile p).length = cs.dropWhile p :=
    List.drop_left
  rwa [List.takeWhile_append_dropWhile] at hdrop

/-! ## Layout -/

/-- What is read while the next character has a property is not empty if the next character has it. -/
theorem readWhile_left_length {p : Char → Bool} {r : Reader} {c : Char} (h : r.peek? = some c)
    (hc : p c = true) : (r.readWhile p).2.left.length < r.left.length := by
  obtain ⟨cs, hleft⟩ := List.head?_eq_some_iff.mp h
  rw [readWhile_eq, advance, drop_takeWhile_length, hleft, List.dropWhile_cons_of_pos hc]
  exact Nat.lt_succ_of_le (List.dropWhile_sublist p).length_le

/-- Reads blanks, and comments up to the ends of their lines. -/
def skipLayout (r : Reader) : Reader :=
  match h : r.peek? with
  | none => r
  | some c =>
    if c = ' ' ∨ c = '\t' ∨ c = '\r' then
      have := readChar_left_length h
      skipLayout r.readChar
    else if hc : c = '#' then
      have := readWhile_left_length (p := (· != '\n')) h (hc ▸ by decide)
      skipLayout (r.readWhile (· != '\n')).2
    else r
termination_by r.left.length

/-- Inside a comment, layout goes on up to the end of the line. -/
theorem gap_true_eq (cs : List Char) : gap true cs = (cs.takeWhile (· != '\n')).length := by
  induction cs with
  | nil => rfl
  | cons c cs ih =>
      by_cases hc : c = '\n'
      · subst hc
        rfl
      · have hne : (c != '\n') = true := bne_iff_ne.mpr hc
        rw [gap, if_neg hc, List.takeWhile_cons, if_pos hne, List.length_cons, ih]

/-- Behind a comment there is no more layout: its line ends there. -/
theorem gap_dropWhile_comment (cs : List Char) : gap false (cs.dropWhile (· != '\n')) = 0 := by
  cases hrest : cs.dropWhile (· != '\n') with
  | nil => rfl
  | cons c rest =>
      have hc := head?_dropWhile_eq_false (· != '\n') cs c (by rw [hrest]; rfl)
      obtain rfl : c = '\n' := bne_eq_false_iff_eq.mp hc
      rfl

theorem skipLayout_eq (r : Reader) : r.skipLayout = r.advance (gap false r.left) := by
  fun_induction skipLayout r with
  | case1 r h =>
      have hleft : r.left = [] := List.head?_eq_none_iff.mp h
      rw [hleft]
      rfl
  | case2 r c h hc _ ih =>
      obtain ⟨cs, hleft⟩ := List.head?_eq_some_iff.mp h
      have hread : (r.advance 1).left = cs := by rw [advance, hleft, List.drop_one, List.tail_cons]
      rw [ih, readChar_eq, advance_advance, hread, hleft, gap, if_pos hc, Nat.add_comm]
  | case3 r h _ _ ih =>
      obtain ⟨cs, hleft⟩ := List.head?_eq_some_iff.mp h
      have hcomment : (r.left.takeWhile (· != '\n')).length = gap true cs + 1 := by
        rw [hleft, gap_true_eq]
        rfl
      have hread : (r.readWhile (· != '\n')).2.left = r.left.dropWhile (· != '\n') := by
        rw [readWhile_eq, advance, drop_takeWhile_length]
      rw [ih, hread, gap_dropWhile_comment, readWhile_eq, advance_advance, Nat.add_zero, hcomment, hleft]
      rfl
  | case4 r c h hc hno =>
      obtain ⟨cs, hleft⟩ := List.head?_eq_some_iff.mp h
      rw [hleft, gap, if_neg hc, if_neg hno]
      rfl

/-! ## Items -/

theorem readNumber_eq (r : Reader) :
    r.readNumber = (.number (String.ofList (numeral r.left)), r.advance (numeral r.left).length) := by
  have hstop : (r.readWhile isDigit).2.left = r.left.dropWhile isDigit := by
    rw [readWhile_eq, advance, drop_takeWhile_length]
  unfold readNumber numeral
  split
  rename_i digits stop hread
  rw [hread] at hstop
  rw [readWhile_eq] at hread
  obtain ⟨rfl, rfl⟩ := Prod.mk.inj hread
  rw [← hstop]
  split
  · rename_i hpoint
    obtain ⟨rest, hrest⟩ := List.head?_eq_some_iff.mp hpoint
    have hplaces : (r.advance ((r.left.takeWhile isDigit).length + 1)).left = rest := by
      rw [← advance_advance, advance, hrest, List.drop_one, List.tail_cons]
    simp only [readWhile_eq, readChar_eq, hplaces, hrest, advance_advance, List.length_append,
      List.length_cons, Nat.add_assoc, Nat.add_comm 1]
  · rename_i hno
    have hnone : ∀ rest, (r.advance (r.left.takeWhile isDigit).length).left ≠ '.' :: rest :=
      fun rest hrest => hno (List.head?_eq_some_iff.mpr ⟨rest, hrest⟩)
    split
    · rename_i rest hrest
      exact absurd hrest (hnone rest)
    · rw [List.append_nil]

theorem readIdentifier_eq (r : Reader) :
    r.readIdentifier =
      (.identifier (String.ofList (r.left.takeWhile isNameChar)),
        r.advance (r.left.takeWhile isNameChar).length) := by
  unfold readIdentifier
  rw [readWhile_eq]

/-! ## The invariant -/

/-- The characters that are left are those behind the position. -/
def InStep (r : Reader) : Prop :=
  ∃ before, r.input.toList = before ++ r.left ∧ r.position = byteLength before

theorem inStep_ofString (s : String) : (ofString s).InStep := ⟨[], rfl, rfl⟩

namespace InStep

variable {r : Reader}

theorem advance (h : r.InStep) (n : Nat) : (r.advance n).InStep := by
  obtain ⟨before, hinput, hposition⟩ := h
  refine ⟨before ++ r.left.take n, ?_, ?_⟩
  · show r.input.toList = before ++ r.left.take n ++ r.left.drop n
    rw [List.append_assoc, List.take_append_drop, hinput]
  · rw [byteLength_append, ← hposition]
    rfl

theorem holds (h : r.InStep) : (Span.point r.position).Holds r.input [] r.left := by
  obtain ⟨before, hinput, hposition⟩ := h
  exact ⟨before, hinput, by rw [hposition]; rfl⟩

/-- The position is where a character starts, or the end. -/
theorem isValid (h : r.InStep) : String.Pos.Raw.IsValid r.input ⟨r.position⟩ := h.holds.onBoundaries.1

theorem left_eq (h : r.InStep) : r.left = textFrom r.input r.position := h.holds.textFrom_start.symm

/-- Cutting the text at the position gives the characters that are left. -/
theorem rest?_eq (h : r.InStep) : r.rest? = some r.left := by
  rw [rest?, if_pos h.isValid, ← h.left_eq]

theorem readOperator_eq (h : r.InStep) (expected : String) (token : Token) :
    r.readOperator expected token =
      some ((operator expected token r.left).1, r.advance (operator expected token r.left).2) := by
  unfold readOperator operator
  rw [h.rest?_eq, readChars_eq, readChar_eq]
  show (if _ then _ else _) = _
  split <;> rfl

theorem readKeyword_eq (h : r.InStep) :
    r.readKeyword =
      match keyword? r.left with
      | none => some (none, r)
      | some (word, token) => some (some token, r.advance word.toList.length) := by
  unfold readKeyword keyword?
  rw [h.rest?_eq]
  simp only [readChars_eq]
  rfl

/-- **One item.** No step comes to a standstill, and the item is the one that stands there. -/
theorem readItem_eq (h : r.InStep) :
    r.readItem = some ((munch r.left).1, r.advance (munch r.left).2) := by
  have hpeek : r.peek? = r.left.head? := rfl
  unfold readItem
  rw [hpeek]
  cases hleft : r.left with
  | nil => rfl
  | cons c cs =>
      simp only [List.head?_cons, munch, h.readOperator_eq, h.readKeyword_eq, hleft]
      split
      · rfl
      split
      · rfl
      cases hkeyword : keyword? (c :: cs) with
      | some k => rfl
      | none =>
          show (if _ then _ else _) = _
          split
          · rw [readIdentifier_eq, hleft]
          split
          · rw [readNumber_eq, hleft]
          rw [readChar_eq]
          cases symbol? c <;> rfl

end InStep

/-! ## Calls -/

/-- Reads the next token, or a mistake, of which the place is not told. -/
def nextToken (r : Reader) : Option (Except LexError (Spanned Token) × Reader) := do
  let start := r.skipLayout
  let (item, stop) ← start.readItem
  some (item.map fun token => ⟨token, ⟨start.position, stop.position⟩⟩, stop)

/-- A lexer after so many calls. -/
def afterCalls : (calls : Nat) → Reader → Option Reader
  | 0, r => some r
  | calls + 1, r => do
    let r ← afterCalls calls r
    let (_, stop) ← r.nextToken
    some stop

/-- Reads a whole text in so many rounds. Layout is skipped first, so that a mistake gets the place behind
it; the call skips it once more. -/
def tokenise : (rounds : Nat) → Reader → Option Lexed
  | 0, _ => none
  | rounds + 1, r => do
    let start := r.skipLayout
    match ← start.nextToken with
    | (.ok token, stop) =>
      if token.value = .eof then some ⟨[], []⟩
      else
        let lexed ← tokenise rounds stop
        some { lexed with tokens := token :: lexed.tokens }
    | (.error e, stop) =>
      let lexed ← tokenise rounds stop
      some { lexed with errors := ⟨e, ⟨start.position, stop.position⟩⟩ :: lexed.errors }

/-- The place of a lexer, without its text. -/
def cursor (r : Reader) : Cursor := ⟨r.left, r.position⟩

end Reader

/-- What a call tells of an item: a token with its place, or a mistake. -/
def Spanned.told (item : Spanned (Except LexError Token)) : Except LexError (Spanned Token) :=
  item.value.map fun token => ⟨token, item.span⟩

namespace Reader

/-- **One call.** A call does what the cursor does. -/
theorem nextToken_eq {r : Reader} (h : r.InStep) :
    ∃ stop, r.nextToken = some (r.cursor.next.1.told, stop) ∧ stop.InStep ∧ stop.input = r.input ∧
      stop.cursor = r.cursor.next.2 := by
  have hstart : r.skipLayout = r.advance (gap false r.left) := r.skipLayout_eq
  have hin : r.skipLayout.InStep := hstart ▸ h.advance _
  refine ⟨r.skipLayout.advance (munch r.skipLayout.left).2, ?_, hin.advance _, ?_, ?_⟩
  · simp only [nextToken, hin.readItem_eq]
    rw [hstart]
    rfl
  · rw [hstart]
    rfl
  · rw [hstart]
    rfl

end Reader

/-! ## One call after the other -/

namespace Cursor

/-- A cursor after so many items. -/
def afterCalls : (calls : Nat) → Cursor → Cursor
  | 0, c => c
  | calls + 1, c => (afterCalls calls c).next.2

/-- Layout is skipped at once. -/
theorem skipLayout_skipLayout (c : Cursor) : c.skipLayout.skipLayout = c.skipLayout := by
  obtain ⟨text, offset⟩ := c
  obtain ⟨gap, follow, rfl, -, hgap, hfollow⟩ := exists_gap_false text
  rw [skipLayout_append hgap hfollow]
  exact skipLayout_append (.nil follow) hfollow _

theorem next_skipLayout (c : Cursor) : c.skipLayout.next = c.next := by
  rw [next, skipLayout_skipLayout, next]

/-- Where nothing is left but layout, the end is read, and nothing is left behind it. -/
theorem next_of_nil {c : Cursor} (h : c.skipLayout.rest = []) :
    c.next = (⟨.ok .eof, .point (c.offset + byteLength c.rest)⟩, c.skipLayout) := by
  have hoffset := offset_skipLayout c
  rw [h] at hoffset
  simp only [next, h, munch, ← hoffset]
  rfl

/-- What is to be read behind an item is what was to be read, without the item. -/
theorem scan_next (c : Cursor) : c.next.2.scan = c.scan.tail := by
  cases h : c.skipLayout.rest with
  | nil => rw [next_of_nil h, scan_of_nil h, scan_of_nil (by rw [skipLayout_skipLayout, h]), List.tail_nil]
  | cons x xs => rw [scan_of_cons h, List.tail_cons]

/-- The next item is the first of those that are to be read, and the end if there are none. -/
theorem next_eq_head (c : Cursor) :
    c.next.1 = c.scan.head?.getD ⟨.ok .eof, .point (c.offset + byteLength c.rest)⟩ := by
  cases h : c.skipLayout.rest with
  | nil =>
      rw [scan_of_nil h, next_of_nil h]
      rfl
  | cons x xs =>
      rw [scan_of_cons h]
      rfl

/-- Where something is left behind layout, reading takes characters. -/
theorem exists_taken {c : Cursor} {x : Char} {xs : List Char} (h : c.skipLayout.rest = x :: xs) :
    ∃ taken, taken ≠ [] ∧ c.rest = taken ++ c.next.2.rest := by
  have hsuffix : c.next.2.rest <:+ c.rest := (List.drop_suffix _ _).trans (List.drop_suffix _ _)
  obtain ⟨taken, htaken⟩ := hsuffix
  refine ⟨taken, ?_, htaken.symm⟩
  rintro rfl
  have hshorter := next_rest_length h
  rw [← htaken, List.nil_append] at hshorter
  exact absurd hshorter (Nat.lt_irrefl _)

theorem scan_afterCalls (calls : Nat) (c : Cursor) : (afterCalls calls c).scan = c.scan.drop calls := by
  induction calls with
  | zero => rfl
  | succ calls ih => rw [afterCalls, scan_next, ih, List.tail_drop]

theorem offset_afterCalls (calls : Nat) (c : Cursor) :
    (afterCalls calls c).offset + byteLength (afterCalls calls c).rest = c.offset + byteLength c.rest := by
  induction calls with
  | zero => rfl
  | succ calls ih => rw [afterCalls, offset_next, ih]

/-- After so many calls, the next item of a text is read, or its end. -/
theorem next_afterCalls (calls : Nat) (s : String) :
    (afterCalls calls (.ofString s)).next.1 =
      (Lexed.ofString s).items[calls]?.getD ⟨.ok .eof, .point s.utf8ByteSize⟩ := by
  have hsize : (Cursor.ofString s).offset + byteLength (Cursor.ofString s).rest = s.utf8ByteSize := by
    rw [byteLength_eq_utf8ByteSize]
    show 0 + (String.ofList s.toList).utf8ByteSize = _
    rw [Nat.zero_add, String.ofList_toList]
  rw [next_eq_head, scan_afterCalls, offset_afterCalls, hsize, List.head?_drop, Lexed.items_ofString]

end Cursor

/-- No item is the end. -/
theorem Lexer.Divided.ne_eof {offset : Nat} {text : List Char} {items : List (Spanned (Except LexError Token))}
    (h : Divided offset text items) : ∀ item ∈ items, item.value ≠ .ok .eof := by
  induction h with
  | nil _ => nofun
  | cons hgap hword hrest ih =>
      refine List.forall_mem_cons.mpr ⟨?_, ih⟩
      rintro rfl
      exact hword.wellFormed

namespace Reader

/-- **A whole text.** Reading item by item ends, and gives the items that are to be read. -/
theorem tokenise_eq {r : Reader} (h : r.InStep) {rounds : Nat} (hrounds : r.left.length < rounds) :
    tokenise rounds r = some (Lexed.ofItems r.cursor.scan) := by
  induction rounds generalizing r with
  | zero => exact absurd hrounds (Nat.not_lt_zero _)
  | succ rounds ih =>
      have hstart : r.skipLayout = r.advance (gap false r.left) := r.skipLayout_eq
      have hcursor : r.skipLayout.cursor = r.cursor.skipLayout := by rw [hstart]; rfl
      have hin : r.skipLayout.InStep := hstart ▸ h.advance _
      obtain ⟨stop, hcall, hstop, -, hbehind⟩ := nextToken_eq hin
      rw [hcursor, Cursor.next_skipLayout] at hcall hbehind
      cases hrest : r.cursor.skipLayout.rest with
      | nil =>
          rw [Cursor.next_of_nil hrest] at hcall
          simp only [tokenise, hcall]
          rw [Cursor.scan_of_nil hrest]
          rfl
      | cons x xs =>
          have hscan := Cursor.scan_of_cons hrest
          have hshorter : stop.left.length < r.left.length := by
            have hlt := Cursor.next_rest_length hrest
            rw [← hbehind] at hlt
            exact hlt
          have hlexed := ih hstop (by omega)
          have hitem : r.cursor.next.1.value ≠ .ok .eof :=
            (Cursor.scan_divided r.cursor).ne_eof _ (hscan ▸ List.mem_cons_self)
          have hend : stop.position = r.cursor.next.1.span.stop := congrArg Cursor.offset hbehind
          have hfront : r.skipLayout.position = r.cursor.next.1.span.start := congrArg Cursor.offset hcursor
          rw [hbehind] at hlexed
          simp only [tokenise, hcall]
          rw [hscan]
          generalize r.cursor.next.1 = item at hitem hend hfront
          obtain ⟨value, span⟩ := item
          cases value with
          | ok token =>
              have htoken : token ≠ .eof := fun heq => hitem (heq ▸ rfl)
              simp only [Spanned.told, Except.map, bind, Option.bind, if_neg htoken, hlexed]
              rfl
          | error e =>
              simp only [Spanned.told, Except.map, bind, Option.bind, hlexed, hfront, hend]
              rfl

/-- After any number of calls a lexer stands where the cursor stands. -/
theorem exists_afterCalls (s : String) (calls : Nat) :
    ∃ r, afterCalls calls (ofString s) = some r ∧ r.InStep ∧ r.input = s ∧
      r.cursor = Cursor.afterCalls calls (.ofString s) := by
  induction calls with
  | zero => exact ⟨ofString s, rfl, inStep_ofString s, rfl, rfl⟩
  | succ calls ih =>
      obtain ⟨r, hafter, hr, hinput, hcursor⟩ := ih
      obtain ⟨stop, hcall, hstop, hsame, hbehind⟩ := nextToken_eq hr
      refine ⟨stop, ?_, hstop, hsame.trans hinput, ?_⟩
      · simp only [afterCalls, hafter, hcall, bind, Option.bind]
      · rw [hbehind, hcursor]
        rfl

/-- A call of a lexer of a text, after so many others. -/
structure IsCall (s : String) (calls : Nat) (r : Reader) (result : Except LexError (Spanned Token))
    (stop : Reader) : Prop where
  reached : afterCalls calls (ofString s) = some r
  ends : r.nextToken = some (result, stop)
  /-- The position is a boundary of characters of the text. -/
  boundary : String.Pos.Raw.IsValid s ⟨r.position⟩
  /-- The iterator still has what the text has behind the position. -/
  left : r.left = textFrom s r.position
  /-- If the call does not give the end, it takes a character at least. -/
  progress : (∀ span, result ≠ .ok ⟨.eof, span⟩) → ∃ taken, taken ≠ [] ∧ r.left = taken ++ stop.left
  /-- The calls give the items of the text in their order, and then the end. -/
  order : result =
    ((Lexed.ofString s).items.map Spanned.told)[calls]?.getD (.ok ⟨.eof, .point s.utf8ByteSize⟩)
  /-- The cursor stands at the same place, and gives the same. -/
  cursor : r.cursor = Cursor.afterCalls calls (.ofString s) ∧
    result = (Cursor.afterCalls calls (.ofString s)).next.1.told

/-- **Iterator and position stay together.** After any number of calls the characters that are left are those
of the text behind the position, and the next call ends, with an item for which it took a character or with
the end. The calls give what reading the whole text gives, tokens and mistakes in the order of their places,
and the end from then on. Since cutting the text between the bytes of a character would bring a call to a
standstill, that does not happen; nor does reading the whole text go on for ever. -/
theorem calls_inStep (s : String) :
    (∀ calls, ∃ r result stop, IsCall s calls r result stop) ∧
      tokenise (s.toList.length + 1) (ofString s) = some (Lexed.ofString s) := by
  refine ⟨?_, tokenise_eq (inStep_ofString s) (Nat.lt_succ_self _)⟩
  intro calls
  obtain ⟨r, hafter, hr, rfl, hcursor⟩ := exists_afterCalls s calls
  obtain ⟨stop, hcall, -, -, hbehind⟩ := nextToken_eq hr
  refine ⟨r, _, stop, hafter, hcall, hr.isValid, hr.left_eq, ?_, ?_, hcursor, hcursor ▸ rfl⟩
  · intro hend
    cases hrest : r.cursor.skipLayout.rest with
    | nil =>
        rw [Cursor.next_of_nil hrest] at hend
        exact absurd rfl (hend _)
    | cons x xs =>
        obtain ⟨taken, hne, htaken⟩ := Cursor.exists_taken hrest
        rw [← hbehind] at htaken
        exact ⟨taken, hne, htaken⟩
  · rw [hcursor, Cursor.next_afterCalls, List.getElem?_map]
    cases (Lexed.ofString r.input).items[calls]? <;> rfl

/-- Behind a letter of two bytes an operator is cut off by the end; and the end is given again. -/
example :
    let result calls := (afterCalls calls (ofString "é |")).bind fun r => r.nextToken.map Prod.fst
    result 1 = some (.error (.malformedOperator "|->" "|")) ∧ result 3 = some (.ok ⟨.eof, .point 4⟩) := by
  decide +kernel

end Reader

end Mapsto
