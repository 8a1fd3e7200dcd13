import Mathlib.Data.String.Basic
import Mapsto.Proofs.Lexer.Division

/-!
# `Mapsto.Proofs.Lexer.Exact` — nothing of a text is lost, and every place is right

What is known about the division of a text into words and layout (`Mapsto.Proofs.Lexer.Division`) is said
here about the tokens and the mistakes of a whole text, with places as bytes of the text itself:
`Lexed.Exact` lists it. The tokens and the mistakes come as two lists; `Lexed.items` puts them together
again by their places, which is the order in which they were read (`items_ofItems`), because every word
lies behind the one before it.

A word at a place of a text is `Span.Holds`: from it follow the boundaries, the slice and the characters
in front and behind, for words and for the gaps between them alike.
-/

namespace Mapsto

open Lexer
open Cursor (byteLength byteLength_eq_utf8ByteSize)

/-! ## Places in a text -/

/-- The part of a text in a span. -/
def Span.slice (span : Span) (s : String) : String :=
  String.Pos.Raw.extract s ⟨span.start⟩ ⟨span.stop⟩

/-- The characters of a text from a byte on. -/
def textFrom (s : String) (n : Nat) : List Char :=
  (Span.slice ⟨n, s.utf8ByteSize⟩ s).toList

/-- Both ends of a span are boundaries of characters of a text. -/
def Span.OnBoundaries (span : Span) (s : String) : Prop :=
  String.Pos.Raw.IsValid s ⟨span.start⟩ ∧ String.Pos.Raw.IsValid s ⟨span.stop⟩

/-- The stretches in front of, between and behind spans, from a byte up to another one. -/
def Span.gaps (stop : Nat) : (start : Nat) → List Span → List Span
  | start, [] => [⟨start, stop⟩]
  | start, span :: rest => ⟨start, span.start⟩ :: gaps stop span.stop rest

/-- A text has `word` in a span, and `follow` behind it. -/
def Span.Holds (span : Span) (s : String) (word follow : List Char) : Prop :=
  ∃ before, s.toList = before ++ (word ++ follow) ∧
    span = ⟨byteLength before, byteLength before + byteLength word⟩

theorem slice_append (before word after : List Char) :
    Span.slice ⟨byteLength before, byteLength before + byteLength word⟩
      (String.ofList (before ++ (word ++ after))) = String.ofList word := by
  rw [Span.slice, ← List.append_assoc]
  simp only [byteLength_eq_utf8ByteSize, String.utf8ByteSize_ofList]
  exact String.extract_of_valid before word after

theorem isValid_append (before after : List Char) :
    String.Pos.Raw.IsValid (String.ofList (before ++ after)) ⟨byteLength before⟩ := by
  rw [String.Pos.Raw.isValid_iff_exists_append]
  refine ⟨String.ofList before, String.ofList after, String.ofList_append, ?_⟩
  rw [byteLength_eq_utf8ByteSize]
  rfl

namespace Span.Holds

variable {span : Span} {s : String} {word follow : List Char}

theorem exists_eq_ofList (h : span.Holds s word follow) :
    ∃ before, s = String.ofList (before ++ (word ++ follow)) ∧
      span = ⟨byteLength before, byteLength before + byteLength word⟩ := by
  obtain ⟨before, hs, hspan⟩ := h
  exact ⟨before, by rw [← hs, String.ofList_toList], hspan⟩

theorem slice_eq (h : span.Holds s word follow) : span.slice s = String.ofList word := by
  obtain ⟨before, rfl, rfl⟩ := h.exists_eq_ofList
  exact slice_append before word follow

theorem onBoundaries (h : span.Holds s word follow) : span.OnBoundaries s := by
  obtain ⟨before, rfl, rfl⟩ := h.exists_eq_ofList
  refine ⟨isValid_append before (word ++ follow), ?_⟩
  rw [← List.append_assoc]
  have hstop := isValid_append (before ++ word) follow
  rw [Cursor.byteLength_append] at hstop
  exact hstop

theorem textFrom_start (h : span.Holds s word follow) : textFrom s span.start = word ++ follow := by
  obtain ⟨before, rfl, rfl⟩ := h.exists_eq_ofList
  have hslice := slice_append before (word ++ follow) []
  rw [List.append_nil, ← Cursor.byteLength_append, byteLength_eq_utf8ByteSize (before ++ _)] at hslice
  rw [textFrom, hslice, String.toList_ofList]

theorem textFrom_stop (h : span.Holds s word follow) : textFrom s span.stop = follow := by
  obtain ⟨before, hs, rfl⟩ := h
  have hbehind : Span.Holds ⟨byteLength before + byteLength word, byteLength before + byteLength word + 0⟩ s
      [] follow := ⟨before ++ word, by rw [hs]; simp, by rw [Cursor.byteLength_append]; rfl⟩
  exact hbehind.textFrom_start

theorem start_lt_stop (h : span.Holds s word follow) (hword : word ≠ []) : span.start < span.stop := by
  obtain ⟨before, -, rfl⟩ := h
  obtain ⟨c, cs, rfl⟩ := List.exists_cons_of_ne_nil hword
  have hc := Char.utf8Size_pos c
  show byteLength before < byteLength before + (c.utf8Size + byteLength cs)
  omega

end Span.Holds

/-! ## Divisions and places -/

namespace Lexer.Divided

variable {s : String} {offset : Nat} {text : List Char} {items : List (Spanned (Except LexError Token))}

/-- Every item of a division is a word of the text. -/
theorem exists_holds (h : Divided offset text items) {before : List Char} (hs : s.toList = before ++ text)
    (hoffset : offset = byteLength before) :
    ∀ item ∈ items, ∃ word follow, item.span.Holds s word follow ∧ Stands word follow item.value := by
  induction h generalizing before with
  | nil _ => nofun
  | @cons offset gap word follow value items hgap hword hrest ih =>
      subst hoffset
      refine List.forall_mem_cons.mpr ⟨⟨word, follow, ⟨before ++ gap, ?_, ?_⟩, hword⟩, ?_⟩
      · rw [hs, List.append_assoc]
      · rw [Cursor.byteLength_append]
      · refine @ih (before ++ gap ++ word) ?_ ?_
        · rw [hs]
          simp only [List.append_assoc]
        · rw [Cursor.byteLength_append, Cursor.byteLength_append]

/-- Every gap of a division is layout. -/
theorem exists_gap_holds (h : Divided offset text items) {before : List Char}
    (hs : s.toList = before ++ text) (hoffset : offset = byteLength before) :
    ∀ span ∈ Span.gaps (offset + byteLength text) offset (items.map Spanned.span),
      ∃ gap follow, span.Holds s gap follow ∧ IsLayout gap follow := by
  induction h generalizing before with
  | @nil offset gap hgap =>
      subst hoffset
      refine List.forall_mem_singleton.mpr ⟨gap, [], ⟨before, by rw [hs, List.append_nil], rfl⟩, hgap⟩
  | @cons offset gap word follow value items hgap hword hrest ih =>
      subst hoffset
      refine List.forall_mem_cons.mpr ⟨⟨gap, word ++ follow, ⟨before, hs, rfl⟩, hgap⟩, ?_⟩
      have htail := @ih (before ++ gap ++ word) (by rw [hs]; simp only [List.append_assoc])
        (by rw [Cursor.byteLength_append, Cursor.byteLength_append])
      simp only [Cursor.byteLength_append, ← Nat.add_assoc] at htail ⊢
      exact htail

/-- No item of a division starts in front of the text. -/
theorem offset_le (h : Divided offset text items) : ∀ item ∈ items, offset ≤ item.span.start := by
  induction h with
  | nil _ => nofun
  | cons hgap hword hrest ih =>
      refine List.forall_mem_cons.mpr ⟨Nat.le_add_right _ _, fun item hitem => ?_⟩
      have hle := ih item hitem
      omega

/-- The words of a division lie one behind the other. -/
theorem pairwise (h : Divided offset text items) :
    items.Pairwise fun a b => a.span.start < b.span.start ∧ a.span.stop ≤ b.span.start := by
  induction h with
  | nil _ => exact List.Pairwise.nil
  | @cons offset gap word follow value items hgap hword hrest ih =>
      refine List.pairwise_cons.mpr ⟨fun item hitem => ?_, ih⟩
      have hle := hrest.offset_le item hitem
      obtain ⟨c, cs, rfl, -⟩ := hword.exists_cons
      have hc := Char.utf8Size_pos c
      simp only [byteLength] at hle ⊢
      exact ⟨by omega, hle⟩

end Lexer.Divided

/-! ## Ends of lines -/

/-- The places of the ends of lines in characters that start at a byte. -/
def newlineSpans : (offset : Nat) → List Char → List Span
  | _, [] => []
  | offset, c :: cs =>
    if c = '\n' then ⟨offset, offset + 1⟩ :: newlineSpans (offset + 1) cs
    else newlineSpans (offset + c.utf8Size) cs

theorem newlineSpans_append {cs : List Char} (h : '\n' ∉ cs) (offset : Nat) (follow : List Char) :
    newlineSpans offset (cs ++ follow) = newlineSpans (offset + byteLength cs) follow := by
  induction cs generalizing offset with
  | nil => rfl
  | cons c cs ih =>
      have hc : c ≠ '\n' := fun hc => h (hc ▸ List.mem_cons_self)
      rw [List.cons_append, newlineSpans, if_neg hc, ih (fun hmem => h (List.mem_cons_of_mem c hmem)),
        byteLength, Nat.add_assoc]

/-- Whether an item is an end of line. -/
def Spanned.isEndLine (item : Spanned (Except LexError Token)) : Bool :=
  match item.value with
  | .ok .endLine => true
  | _ => false

theorem Spanned.isEndLine_eq_true_iff {item : Spanned (Except LexError Token)} :
    item.isEndLine = true ↔ item.value = .ok .endLine := by
  unfold isEndLine
  split
  · rename_i h
    exact iff_of_true rfl h
  · rename_i h
    exact iff_of_false Bool.false_ne_true h

theorem Lexer.Divided.newlineSpans_eq {offset : Nat} {text : List Char}
    {items : List (Spanned (Except LexError Token))} (h : Divided offset text items) :
    (items.filter Spanned.isEndLine).map Spanned.span = newlineSpans offset text := by
  induction h with
  | @nil offset gap hgap =>
      have hgap := newlineSpans_append hgap.newline_not_mem offset []
      rw [List.append_nil] at hgap
      exact hgap.symm
  | @cons offset gap word follow value items hgap hword hrest ih =>
      rw [newlineSpans_append hgap.newline_not_mem]
      obtain ⟨rfl, rfl⟩ | ⟨hword, hvalue⟩ := hword.newline_cases
      · rw [List.filter_cons_of_pos rfl, List.map_cons, ih]
        rfl
      · rw [newlineSpans_append hword, ← ih, List.filter_cons_of_neg]
        rw [Spanned.isEndLine_eq_true_iff]
        exact hvalue

/-! ## Tokens and mistakes of a whole text -/

namespace Lexed

variable {xs : List (Spanned (Except LexError Token))}

/-- The tokens and the mistakes together, in the order of the places where they start. -/
def items (lexed : Lexed) : List (Spanned (Except LexError Token)) :=
  List.merge (lexed.tokens.map fun t => ⟨.ok t.value, t.span⟩)
    (lexed.errors.map fun e => ⟨.error e.value, e.span⟩)
    fun a b => decide (a.span.start ≤ b.span.start)

theorem mem_tokens_ofItems {t : Spanned Token} :
    t ∈ (ofItems xs).tokens ↔ ⟨.ok t.value, t.span⟩ ∈ xs := by
  induction xs with
  | nil => simp [ofItems]
  | cons x xs ih =>
      obtain ⟨value, span⟩ := x
      obtain ⟨token, place⟩ := t
      cases value with
      | ok token' => simp only [ofItems, List.mem_cons, ih, Spanned.mk.injEq, Except.ok.injEq]
      | error e => simp [ofItems, ih]

theorem mem_errors_ofItems {e : Spanned LexError} :
    e ∈ (ofItems xs).errors ↔ ⟨.error e.value, e.span⟩ ∈ xs := by
  induction xs with
  | nil => simp [ofItems]
  | cons x xs ih =>
      obtain ⟨value, span⟩ := x
      obtain ⟨error, place⟩ := e
      cases value with
      | ok token => simp [ofItems, ih]
      | error e' => simp only [ofItems, List.mem_cons, ih, Spanned.mk.injEq, Except.error.injEq]

/-- Items that start one behind the other are put together as they were. -/
theorem items_ofItems (h : xs.Pairwise fun a b => a.span.start < b.span.start) :
    (ofItems xs).items = xs := by
  induction xs with
  | nil => exact List.nil_merge []
  | cons x xs ih =>
      obtain ⟨hx, hxs⟩ := List.pairwise_cons.mp h
      have ih := ih hxs
      obtain ⟨value, span⟩ := x
      unfold items at ih ⊢
      cases value with
      | ok token =>
          -- The token starts in front of every mistake.
          have herrors : ∀ e ∈ (ofItems xs).errors, span.start < e.span.start :=
            fun e he => hx _ (mem_errors_ofItems.mp he)
          simp only [ofItems, List.map_cons]
          cases hes : (ofItems xs).errors with
          | nil =>
              rw [hes] at ih
              simp only [List.map_nil, List.merge_right] at ih ⊢
              rw [ih]
          | cons e es =>
              rw [hes] at ih herrors
              have hlt := herrors e List.mem_cons_self
              rw [List.map_cons] at ih ⊢
              rw [List.cons_merge_cons, if_pos (by simpa using Nat.le_of_lt hlt), ih]
      | error error =>
          -- And a mistake in front of every token.
          have htokens : ∀ t ∈ (ofItems xs).tokens, span.start < t.span.start :=
            fun t ht => hx _ (mem_tokens_ofItems.mp ht)
          simp only [ofItems, List.map_cons]
          cases hts : (ofItems xs).tokens with
          | nil =>
              rw [hts] at ih
              simp only [List.map_nil, List.nil_merge] at ih ⊢
              rw [ih]
          | cons t ts =>
              rw [hts] at ih htokens
              have hlt := htokens t List.mem_cons_self
              rw [List.map_cons] at ih ⊢
              rw [List.cons_merge_cons, if_neg (by simpa using hlt), ih]

theorem filter_endLine_ofItems :
    ((ofItems xs).tokens.filter fun t => t.value = .endLine).map Spanned.span =
      (xs.filter Spanned.isEndLine).map Spanned.span := by
  induction xs with
  | nil => rfl
  | cons x xs ih =>
      obtain ⟨value, span⟩ := x
      cases value with
      | ok token =>
          by_cases htoken : token = .endLine
          · subst htoken
            rw [List.filter_cons_of_pos rfl, List.map_cons, ← ih]
            rfl
          · rw [List.filter_cons_of_neg (by simpa [Spanned.isEndLine_eq_true_iff] using htoken), ← ih]
            simp only [ofItems]
            rw [List.filter_cons_of_neg (by simpa using htoken)]
      | error e =>
          rw [List.filter_cons_of_neg Bool.false_ne_true, ← ih]
          rfl

/-- The tokens and mistakes of a text, as they should be. -/
structure Exact (lexed : Lexed) (s : String) : Prop where
  /-- No item is empty, and every item lies on characters of the text. -/
  places : ∀ item ∈ lexed.items, item.span.start < item.span.stop ∧ item.span.OnBoundaries s
  /-- The items start one behind the other and do not overlap. -/
  order : lexed.items.Pairwise fun a b => a.span.start < b.span.start ∧ a.span.stop ≤ b.span.start
  /-- At the place of a token stands its lexeme. -/
  lexeme : ∀ t ∈ lexed.tokens, t.span.slice s = t.value.lexeme
  /-- A mistake is one character. -/
  mistake : ∀ e ∈ lexed.errors, ∃ c, e.span.slice s = String.singleton c
  /-- In front of the items, between them and behind them there is layout. -/
  layout : ∀ gap ∈ Span.gaps s.utf8ByteSize 0 (lexed.items.map Spanned.span),
    gap.OnBoundaries s ∧ IsLayout (gap.slice s).toList (textFrom s gap.stop)
  /-- Where a keyword stands, it is read. -/
  keyword : ∀ item ∈ lexed.items, ∀ k ∈ keywords,
    k.1.toList <+: textFrom s item.span.start → item.value = .ok k.2
  /-- A name starts with a letter, and could not go on. -/
  identifier : ∀ t ∈ lexed.tokens, ∀ name, t.value = .identifier name →
    (∃ c cs, name.toList = c :: cs ∧ Text.isAlphabetic c = true ∧ ∀ x ∈ cs, isNameChar x = true) ∧
      ∀ x ∈ (textFrom s t.span.stop).head?, isNameChar x = false
  /-- A numeral is a run of digits, or two with a point between them, the second maybe empty; and it could
  not go on. -/
  number : ∀ t ∈ lexed.tokens, ∀ digits, t.value = .number digits →
    ∃ whole : List Char, whole ≠ [] ∧ (∀ x ∈ whole, Text.isDigit x = true) ∧
      (digits.toList = whole ∧
          (∀ x ∈ (textFrom s t.span.stop).head?, Text.isDigit x = false ∧ x ≠ '.') ∨
        ∃ places, digits.toList = whole ++ '.' :: places ∧ (∀ x ∈ places, Text.isDigit x = true) ∧
          ∀ x ∈ (textFrom s t.span.stop).head?, Text.isDigit x = false)
  /-- A `:` or `|` is read as the operator that starts with it, if that stands there, and else as a
  mistake. -/
  operator : ∀ item ∈ lexed.items, ∀ op ∈ operators,
    (textFrom s item.span.start).head? = op.1.toList.head? →
      (op.1.toList <+: textFrom s item.span.start → item.value = .ok op.2) ∧
      (¬ op.1.toList <+: textFrom s item.span.start →
        ∃ found, item.value = .error (.malformedOperator op.1 found))
  /-- With the character of any other mistake nothing starts. -/
  unexpected : ∀ e ∈ lexed.errors, ∀ c, e.value = .unexpectedCharacter c →
    e.span.slice s = String.singleton c ∧ StartsNothing c
  /-- The tokens for ends of lines are those of the ends of lines in the text, one for each. -/
  endLines : (lexed.tokens.filter fun t => t.value = .endLine).map Spanned.span = newlineSpans 0 s.toList

/-! ## Reading a whole text -/

variable {s : String}

theorem divided_ofString (s : String) : Divided 0 s.toList (Cursor.ofString s).scan :=
  Cursor.scan_divided (Cursor.ofString s)

theorem items_ofString (s : String) : (ofString s).items = (Cursor.ofString s).scan :=
  items_ofItems ((divided_ofString s).pairwise.imp And.left)

/-- Every item is what stands at its place. -/
theorem exists_holds_of_mem_items {item : Spanned (Except LexError Token)} (h : item ∈ (ofString s).items) :
    ∃ word follow, item.span.Holds s word follow ∧ Stands word follow item.value := by
  rw [items_ofString] at h
  exact (divided_ofString s).exists_holds (List.nil_append s.toList).symm rfl item h

theorem exists_holds_of_mem_tokens {t : Spanned Token} (h : t ∈ (ofString s).tokens) :
    ∃ word follow, t.span.Holds s word follow ∧ Stands word follow (.ok t.value) := by
  have hitem := mem_tokens_ofItems.mp h
  exact (divided_ofString s).exists_holds (List.nil_append s.toList).symm rfl _ hitem

theorem exists_holds_of_mem_errors {e : Spanned LexError} (h : e ∈ (ofString s).errors) :
    ∃ word follow, e.span.Holds s word follow ∧ Stands word follow (.error e.value) := by
  have hitem := mem_errors_ofItems.mp h
  exact (divided_ofString s).exists_holds (List.nil_append s.toList).symm rfl _ hitem

/-- Every gap between the items is layout. -/
theorem exists_holds_of_mem_gaps {gap : Span}
    (h : gap ∈ Span.gaps s.utf8ByteSize 0 ((ofString s).items.map Spanned.span)) :
    ∃ blank follow, gap.Holds s blank follow ∧ IsLayout blank follow := by
  have hgaps := (divided_ofString s).exists_gap_holds (List.nil_append s.toList).symm rfl
  rw [Nat.zero_add, byteLength_eq_utf8ByteSize, String.ofList_toList, ← items_ofString] at hgaps
  exact hgaps gap h

/-- **Exactness of reading.** The tokens and mistakes of every text lie in it one behind the other, with
nothing but layout around them; each is what stands at its place, and the longest that can. -/
theorem ofString_exact (s : String) : (ofString s).Exact s := by
  constructor
  case places =>
    intro item hitem
    obtain ⟨word, follow, hplace, hword⟩ := exists_holds_of_mem_items hitem
    obtain ⟨c, cs, rfl, -⟩ := hword.exists_cons
    exact ⟨hplace.start_lt_stop (List.cons_ne_nil c cs), hplace.onBoundaries⟩
  case order =>
    rw [items_ofString]
    exact (divided_ofString s).pairwise
  case lexeme =>
    intro t ht
    obtain ⟨word, follow, hplace, hword⟩ := exists_holds_of_mem_tokens ht
    rw [hplace.slice_eq, hword.eq_lexeme, String.ofList_toList]
  case mistake =>
    intro e he
    obtain ⟨word, follow, hplace, hword⟩ := exists_holds_of_mem_errors he
    obtain ⟨c, rfl⟩ := hword.eq_singleton
    exact ⟨c, hplace.slice_eq⟩
  case layout =>
    intro gap hgap
    obtain ⟨blank, follow, hplace, hlayout⟩ := exists_holds_of_mem_gaps hgap
    rw [hplace.slice_eq, hplace.textFrom_stop, String.toList_ofList]
    exact ⟨hplace.onBoundaries, hlayout⟩
  case keyword =>
    intro item hitem k hk hprefix
    obtain ⟨word, follow, hplace, hword⟩ := exists_holds_of_mem_items hitem
    rw [hplace.textFrom_start] at hprefix
    obtain ⟨rest, hrest⟩ := hprefix
    exact hword.unique (.keyword rest hk) hrest.symm
  case identifier =>
    intro t ht name hname
    obtain ⟨word, follow, hplace, hword⟩ := exists_holds_of_mem_tokens ht
    rw [hplace.textFrom_stop]
    rw [hname] at hword
    exact hword.identifier_cases
  case number =>
    intro t ht digits hdigits
    obtain ⟨word, follow, hplace, hword⟩ := exists_holds_of_mem_tokens ht
    rw [hplace.textFrom_stop]
    rw [hdigits] at hword
    exact hword.number_cases
  case operator =>
    intro item hitem op hop hhead
    obtain ⟨word, follow, hplace, hword⟩ := exists_holds_of_mem_items hitem
    rw [hplace.textFrom_start] at hhead ⊢
    exact hword.operator_cases hop hhead
  case unexpected =>
    intro e he c hc
    obtain ⟨word, follow, hplace, hword⟩ := exists_holds_of_mem_errors he
    rw [hplace.slice_eq]
    rw [hc] at hword
    cases hword with
    | unexpected _ hnothing => exact ⟨rfl, hnothing⟩
  case endLines =>
    rw [← (divided_ofString s).newlineSpans_eq]
    exact filter_endLine_ofItems

end Lexed

end Mapsto
