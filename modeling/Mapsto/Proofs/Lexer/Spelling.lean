import Mapsto.Proofs.Lexer.Exact

/-!
# `Mapsto.Proofs.Lexer.Spelling` — tokens that are written and read again

Not every token can be written: a name that starts with a keyword would be read as the keyword.
`Token.WellFormed` says which tokens can. They are the ones that come out of texts
(`Lexed.wellFormed_of_mem_tokens`), and where the lexeme of one stands in front of something that could
not make it longer, it is read again (`Token.WellFormed.stands`).

`words` is what is read of a text, without places. So a text that is put together from lexemes, blanks and
other texts is read by rewriting from left to right (`words_blank`, `words_fixed`, `words_lexeme`). The
first use is a text of lexemes with spaces between them (`Lexed.ofString_spaced`).
-/

namespace Mapsto

open Text Lexer

/-! ## Tokens that can be written -/

namespace Lexer

/-- A letter and characters that go on with a name, without a keyword in front. -/
def IsName (cs : List Char) : Prop :=
  (∃ c rest, cs = c :: rest ∧ isAlphabetic c = true ∧ ∀ x ∈ rest, isNameChar x = true) ∧
    ∀ k ∈ keywords, ¬ k.1.toList <+: cs

/-- Digits, maybe with a point and more digits behind them. -/
def IsNumeral (cs : List Char) : Prop :=
  ∃ digits, digits ≠ [] ∧ (∀ x ∈ digits, isDigit x = true) ∧
    (cs = digits ∨ ∃ places, cs = digits ++ '.' :: places ∧ ∀ x ∈ places, isDigit x = true)

/-- A text that could not go on with a name or a numeral. -/
def Delimited (follow : List Char) : Prop := ∀ x ∈ follow.head?, isNameChar x = false ∧ x ≠ '.'

end Lexer

/-- Whether a token can be written. -/
def Token.WellFormed : Token → Prop
  | .identifier name => IsName name.toList
  | .number lexeme => IsNumeral lexeme.toList
  | .eof => False
  | _ => True

namespace Lexer

/-- What stands somewhere can be written. -/
theorem Stands.wellFormed {word follow : List Char} {token : Token}
    (h : Stands word follow (.ok token)) : token.WellFormed := by
  obtain hfixed | ⟨c, cs, rfl, hc, hcs, -, hkeyword⟩ | ⟨digits, hne, hdigits, hpoint⟩ := h.fixed_or_free
  · simp only [fixed, List.mem_cons, List.not_mem_nil, or_false] at hfixed
    rcases hfixed with rfl | rfl | rfl | rfl | rfl | rfl | rfl | rfl | rfl | rfl | rfl | rfl | rfl <;>
      trivial
  · refine ⟨⟨c, cs, String.toList_ofList, hc, hcs⟩, fun k hk hprefix => hkeyword k hk ?_⟩
    rw [String.toList_ofList] at hprefix
    exact hprefix.trans (List.prefix_append _ _)
  · obtain ⟨rfl, -⟩ | ⟨places, rfl, hplaces, -⟩ := hpoint
    · exact ⟨digits, hne, hdigits, .inl String.toList_ofList⟩
    · exact ⟨digits, hne, hdigits, .inr ⟨places, String.toList_ofList, hplaces⟩⟩

/-- A keyword does not begin with a name and go on behind it. -/
theorem IsName.not_keyword_append {cs follow : List Char} (h : IsName cs) (hfollow : Delimited follow) :
    ∀ k ∈ keywords, ¬ k.1.toList <+: cs ++ follow := by
  intro k hk hprefix
  have hletters : ∀ k ∈ keywords, k.1.toList.all isNameChar = true := by decide
  obtain hlonger | ⟨rest, hrest⟩ := List.prefix_or_prefix_of_prefix hprefix (List.prefix_append cs follow)
  · exact h.2 k hk hlonger
  · rw [← hrest, List.prefix_append_right_inj] at hprefix
    cases rest with
    | nil =>
        rw [List.append_nil] at hrest
        exact h.2 k hk (hrest ▸ List.prefix_refl cs)
    | cons x rest =>
        obtain ⟨behind, rfl⟩ := hprefix
        have hx : x ∈ k.1.toList := hrest ▸ List.mem_append_right cs List.mem_cons_self
        exact absurd (List.all_eq_true.mp (hletters k hk) x hx) (Bool.eq_false_iff.mp (hfollow x rfl).1)

theorem delimited_nil : Delimited [] := nofun

theorem delimited_cons {c : Char} (h : isNameChar c = false ∧ c ≠ '.') (cs : List Char) :
    Delimited (c :: cs) := by
  rintro x ⟨⟩
  exact h

theorem Delimited.not_isDigit {follow : List Char} (h : Delimited follow) :
    ∀ x ∈ follow.head?, isDigit x = false ∧ x ≠ '.' := by
  intro x hx
  refine ⟨Bool.eq_false_iff.mpr fun hdigit => ?_, (h x hx).2⟩
  exact absurd (isNameChar_of_isDigit hdigit) (Bool.eq_false_iff.mp (h x hx).1)

end Lexer

/-- A token that is always written the same is read whatever follows. -/
theorem Lexer.stands_of_mem_fixed {token : Token} (h : token ∈ fixed) (follow : List Char) :
    Stands token.lexeme.toList follow (.ok token) := by
  simp only [fixed, List.mem_cons, List.not_mem_nil, or_false] at h
  rcases h with rfl | rfl | rfl | rfl | rfl | rfl | rfl | rfl | rfl | rfl | rfl | rfl | rfl
  · exact .symbol follow rfl
  · exact .symbol follow rfl
  · exact .symbol follow rfl
  · exact .symbol follow rfl
  · exact .symbol follow rfl
  · exact @Stands.operator (":=", .binding) follow (by decide)
  · exact @Stands.operator ("|->", .mapsTo) follow (by decide)
  · exact .symbol follow rfl
  · exact .symbol follow rfl
  · exact .symbol follow rfl
  · exact @Stands.keyword ("if", .ifWord) follow (by decide)
  · exact @Stands.keyword ("then", .thenWord) follow (by decide)
  · exact @Stands.keyword ("else", .elseWord) follow (by decide)

/-- The lexeme of a token that can be written is read as the token. -/
theorem Token.WellFormed.stands {token : Token} (h : token.WellFormed) {follow : List Char}
    (hfollow : Delimited follow) : Stands token.lexeme.toList follow (.ok token) := by
  cases token with
  | identifier name =>
      obtain ⟨⟨c, cs, hname, hc, hcs⟩, -⟩ := id h
      have hkeyword := IsName.not_keyword_append h hfollow
      rw [hname] at hkeyword
      have hstands := Stands.identifier hc hcs (fun x hx => (hfollow x hx).1) hkeyword
      rw [← hname, String.ofList_toList] at hstands
      exact hstands
  | number lexeme =>
      obtain ⟨digits, hne, hdigits, hpoint⟩ := h
      show Stands lexeme.toList follow (.ok (.number lexeme))
      rw [← @String.ofList_toList lexeme, String.toList_ofList]
      rcases hpoint with hlexeme | ⟨places, hlexeme, hplaces⟩
      · rw [hlexeme]
        exact .whole hne hdigits hfollow.not_isDigit
      · rw [hlexeme]
        exact .decimal hne hdigits hplaces fun x hx => (hfollow.not_isDigit x hx).1
  | eof => exact absurd h id
  | _ => exact stands_of_mem_fixed (by decide) follow

/-! ## Words -/

namespace Lexer

/-- What is read of a text, without places. -/
def words (cs : List Char) : List (Except LexError Token) := (Cursor.scan ⟨cs, 0⟩).map Spanned.value

theorem Divided.words_eq {offset : Nat} {text : List Char} {items : List (Spanned (Except LexError Token))}
    (h : Divided offset text items) : words text = items.map Spanned.value := by
  have hmoved := Cursor.scan_moved offset ⟨text, 0⟩
  rw [Cursor.moved, Nat.zero_add, h.scan_eq] at hmoved
  rw [hmoved, List.map_map]
  rfl

theorem words_nil : words [] = [] := (@Divided.nil 0 [] (.nil [])).words_eq

theorem words_append {word follow : List Char} {value : Except LexError Token}
    (h : Stands word follow value) : words (word ++ follow) = value :: words follow := by
  have hfollow := Cursor.scan_divided ⟨follow, 0 + Cursor.byteLength [] + Cursor.byteLength word⟩
  have hword := Divided.cons (.nil (word ++ follow)) h hfollow
  rw [List.nil_append] at hword
  rw [hword.words_eq, hfollow.words_eq, List.map_cons]

theorem Divided.cons_blank {c : Char} (hc : IsBlank c) {offset : Nat} {text : List Char}
    {items : List (Spanned (Except LexError Token))} (h : Divided (offset + c.utf8Size) text items) :
    Divided offset (c :: text) items := by
  cases h with
  | nil hgap => exact .nil (hgap.cons hc)
  | @cons _ gap word follow value items hgap hword hrest =>
      have hcons := @Divided.cons offset (c :: gap) word follow value items (hgap.cons hc) hword
      simp only [Cursor.byteLength, ← Nat.add_assoc] at hcons
      exact hcons hrest

theorem words_blank {c : Char} (hc : IsBlank c) (cs : List Char) : words (c :: cs) = words cs := by
  have hcs := Cursor.scan_divided ⟨cs, 0 + c.utf8Size⟩
  rw [hcs.words_eq, (hcs.cons_blank hc).words_eq]

/-- Anything may follow a token that is always written the same. -/
theorem words_fixed {token : Token} (h : token ∈ fixed) (follow : List Char) :
    words (token.lexeme.toList ++ follow) = .ok token :: words follow :=
  words_append (stands_of_mem_fixed h follow)

/-- A name or a numeral has to end. -/
theorem words_lexeme {token : Token} (h : token.WellFormed) {follow : List Char}
    (hfollow : Delimited follow) : words (token.lexeme.toList ++ follow) = .ok token :: words follow :=
  words_append (h.stands hfollow)

end Lexer

/-! ## Whole texts -/

namespace Lexed

/-- What comes out of a text can be written. -/
theorem wellFormed_of_mem_tokens {s : String} {t : Spanned Token} (h : t ∈ (ofString s).tokens) :
    t.value.WellFormed := by
  obtain ⟨word, follow, -, hword⟩ := exists_holds_of_mem_tokens h
  exact hword.wellFormed

/-- A text that is read without a mistake has the tokens that are read. -/
theorem ofItems_of_values {xs : List (Spanned (Except LexError Token))} {ts : List Token}
    (h : xs.map Spanned.value = ts.map .ok) :
    (ofItems xs).errors = [] ∧ (ofItems xs).tokens.map Spanned.value = ts := by
  induction ts generalizing xs with
  | nil =>
      rw [List.map_eq_nil_iff.mp h]
      exact ⟨rfl, rfl⟩
  | cons t ts ih =>
      obtain ⟨⟨value, span⟩, rest, rfl, hvalue, hrest⟩ := List.map_eq_cons_iff.mp h
      obtain rfl : value = .ok t := hvalue
      obtain ⟨herrors, htokens⟩ := ih hrest
      exact ⟨herrors, congrArg (t :: ·) htokens⟩

theorem ofString_of_words {s : String} {ts : List Token} (h : words s.toList = ts.map .ok) :
    (ofString s).errors = [] ∧ (ofString s).tokens.map Spanned.value = ts :=
  ofItems_of_values h

end Lexed

/-! ## Lexemes with spaces between them -/

/-- Tokens in writing: their lexemes, with a space between one and the next. -/
def Token.spaced (ts : List Token) : String := " ".intercalate (ts.map lexeme)

/-- Behind every lexeme there is a space or the end of the text, and no token reaches beyond that. -/
theorem Token.words_spaced : {ts : List Token} → (∀ t ∈ ts, t.WellFormed) →
    words (spaced ts).toList = ts.map .ok
  | [], _ => words_nil
  | [t], h => by
      have ht := words_lexeme (h t List.mem_cons_self) delimited_nil
      rw [List.append_nil, words_nil] at ht
      rw [spaced, List.map_singleton, String.intercalate_singleton, ht, List.map_singleton]
  | t :: t' :: ts, h => by
      obtain ⟨ht, hts⟩ := List.forall_mem_cons.mp h
      have hrest := words_spaced hts
      have hspace : ∀ cs, Delimited (" ".toList ++ cs) := delimited_cons (by decide)
      have hskip : ∀ cs, words (" ".toList ++ cs) = words cs := words_blank (.inl rfl)
      rw [spaced, List.map_cons] at hrest ⊢
      rw [List.map_cons, String.intercalate_cons_cons]
      simp only [String.toList_append, List.append_assoc]
      rw [words_lexeme ht (hspace _), hskip, hrest]
      rfl

/-- **Lexemes are read back.** Tokens that are written with spaces between them come out again, without a
mistake, exactly if each of them can be written. Those that come out of a text, whatever its mistakes, are
such tokens; so writing them and reading them again changes nothing. -/
theorem Lexed.ofString_spaced :
    (∀ ts : List Token, (∀ t ∈ ts, t.WellFormed) ↔
      (ofString (Token.spaced ts)).errors = [] ∧
        (ofString (Token.spaced ts)).tokens.map Spanned.value = ts) ∧
    (∀ s, ∀ t ∈ (ofString s).tokens, t.value.WellFormed) ∧
    ∀ s, let read := (ofString s).tokens.map Spanned.value
      (ofString (Token.spaced read)).errors = [] ∧
        (ofString (Token.spaced read)).tokens.map Spanned.value = read := by
  refine ⟨fun ts => ⟨fun hts => ?_, ?_⟩, fun s t => wellFormed_of_mem_tokens, ?_⟩
  · exact ofString_of_words (Token.words_spaced hts)
  · rintro ⟨-, hread⟩ t ht
    rw [← hread] at ht
    obtain ⟨placed, hplaced, rfl⟩ := List.mem_map.mp ht
    exact wellFormed_of_mem_tokens hplaced
  · intro s read
    have hread : ∀ t ∈ read, t.WellFormed := List.forall_mem_map.mpr fun t => wellFormed_of_mem_tokens
    exact ofString_of_words (Token.words_spaced hread)

/-- A keyword is cut off a name, and a second point and a bar are mistakes. What was read has them no more. -/
example :
    let read := (Lexed.ofString "iffy 1.5.2|").tokens.map Spanned.value
    read = [.ifWord, .identifier "fy", .number "1.5", .number "2"] ∧ Token.spaced read = "if fy 1.5 2" := by
  decide +kernel

end Mapsto
