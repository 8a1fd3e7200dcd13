import Mapsto.Proofs.Grammar.Printed

/-!
# `Mapsto.Proofs.Grammar.RoundTrip` — programs that are printed and read again

The printer writes characters. They are read as the tokens that `Expr.tokens` lists (`words_text`), since
behind every name and numeral the printer writes a blank or a parenthesis. With what is known of these
tokens (`Parser.parse_tokens`) a program that came out of a text is printed as a text that it comes out of
again.
-/

namespace Mapsto

open Lexer

/-! ## What the printer writes between the parts of a tree -/

theorem Operator.lexeme_token (op : Operator) : op.token.lexeme = op.symbol := by
  cases op <;> rfl

namespace Lexer

variable (follow : List Char)

theorem words_space : words (" ".toList ++ follow) = words follow := words_blank (.inl rfl) follow

theorem words_open : words ("(".toList ++ follow) = .ok .leftParen :: words follow :=
  @words_fixed .leftParen (by decide) follow

theorem words_close : words (")".toList ++ follow) = .ok .rightParen :: words follow :=
  @words_fixed .rightParen (by decide) follow

theorem words_operator (op : Operator) :
    words (op.symbol.toList ++ follow) = .ok op.token :: words follow := by
  rw [← op.lexeme_token]
  exact words_fixed (by cases op <;> decide) follow

theorem words_if : words ("(if ".toList ++ follow) = .ok .leftParen :: .ok .ifWord :: words follow := by
  rw [show "(if ".toList = "(".toList ++ (Token.ifWord.lexeme.toList ++ " ".toList) from rfl]
  simp only [List.append_assoc]
  rw [words_open, words_fixed (by decide), words_space]

theorem words_then : words (" then ".toList ++ follow) = .ok .thenWord :: words follow := by
  rw [show " then ".toList = " ".toList ++ (Token.thenWord.lexeme.toList ++ " ".toList) from rfl]
  simp only [List.append_assoc]
  rw [words_space, words_fixed (by decide), words_space]

theorem words_else : words (" else ".toList ++ follow) = .ok .elseWord :: words follow := by
  rw [show " else ".toList = " ".toList ++ (Token.elseWord.lexeme.toList ++ " ".toList) from rfl]
  simp only [List.append_assoc]
  rw [words_space, words_fixed (by decide), words_space]

theorem words_name {name : String} (h : IsName name.toList) {follow : List Char}
    (hfollow : Delimited follow) :
    words (name.toList ++ follow) = .ok (.identifier name) :: words follow :=
  @words_lexeme (.identifier name) h follow hfollow

theorem words_integer {n : Int64} (h : 0 ≤ n.toInt) {follow : List Char} (hfollow : Delimited follow) :
    words ((Int.repr n.toInt).toList ++ follow) = .ok (.number (Int.repr n.toInt)) :: words follow := by
  obtain ⟨cs, hcs, hne, hdigits, -⟩ := Decimal.exists_digits h
  refine @words_lexeme (.number (Int.repr n.toInt)) ⟨cs, hne, hdigits, .inl ?_⟩ follow hfollow
  rw [hcs, String.toList_ofList]

end Lexer

/-! ## Reading what is printed -/

/-- **The text of a tree** is read as its tokens, whatever stands behind it that could not go on with a
name. -/
theorem Expr.words_text {e : Expr} (hwritten : e.Written) (hlegible : e.Legible) {follow : List Char}
    (hfollow : Delimited follow) :
    words (e.text.toList ++ follow) = e.tokens.map .ok ++ words follow := by
  have hspace : ∀ cs, Delimited (" ".toList ++ cs) := delimited_cons (by decide)
  have hclose : ∀ cs, Delimited (")".toList ++ cs) := delimited_cons (by decide)
  induction e generalizing follow with
  | integer n => exact words_integer hwritten hfollow
  | float x => exact absurd hlegible id
  | var name => exact words_name hwritten hfollow
  | binding name value ih =>
      obtain ⟨hname, hvalue⟩ := hwritten
      simp only [text, String.toList_append, List.append_assoc]
      rw [words_name hname (hspace _), words_space, words_fixed (by decide), words_space,
        ih hvalue hlegible hfollow]
      rfl
  | function parameter body ih =>
      obtain ⟨hparameter, hbody⟩ := hwritten
      simp only [text, String.toList_append, List.append_assoc]
      rw [words_open, words_name hparameter (hspace _), words_space, words_fixed (by decide), words_space,
        ih hbody hlegible (hclose _), words_close]
      simp [tokens]
  | call callee argument ih₁ ih₂ =>
      obtain ⟨-, hcallee, hargument⟩ := hwritten
      have hopen : ∀ cs, Delimited ("(".toList ++ cs) := delimited_cons (by decide)
      simp only [text, String.toList_append, List.append_assoc]
      rw [ih₁ hcallee hlegible.1 (hopen _), words_open, ih₂ hargument hlegible.2 (hclose _), words_close]
      simp [tokens]
  | binary op left right ih₁ ih₂ =>
      obtain ⟨-, hl, hr⟩ := hlegible
      simp only [text, String.toList_append, List.append_assoc]
      rw [words_open, ih₁ hwritten.1 hl (hspace _), words_space, words_operator, words_space,
        ih₂ hwritten.2 hr (hclose _), words_close]
      simp [tokens]
  | ifElse condition consequence alternative ih₁ ih₂ ih₃ =>
      obtain ⟨hc, ht, he⟩ := hwritten
      obtain ⟨hc', ht', he'⟩ := hlegible
      have hthen : ∀ cs, Delimited (" then ".toList ++ cs) := delimited_cons (by decide)
      have helse : ∀ cs, Delimited (" else ".toList ++ cs) := delimited_cons (by decide)
      simp only [text, String.toList_append, List.append_assoc]
      rw [words_if, ih₁ hc hc' (hthen _), words_then, ih₂ ht ht' (helse _), words_else,
        ih₃ he he' (hclose _), words_close]
      simp [tokens]

/-- The text of a program is read as its tokens. -/
theorem Program.words_text : {p : Program} → (∀ e ∈ p, e.Written) → (∀ e ∈ p, e.Legible) →
    words (Program.text p).toList = (Program.tokens p).map .ok
  | [], _, _ => words_nil
  | [e], hwritten, hlegible => by
      have he := e.words_text (hwritten e List.mem_cons_self) (hlegible e List.mem_cons_self) delimited_nil
      rw [List.append_nil, words_nil, List.append_nil] at he
      rw [Program.text, List.map_singleton, String.intercalate_singleton, he, Program.tokens,
        List.map_singleton, List.intercalate_singleton]
  | e :: e' :: p, hwritten, hlegible => by
      obtain ⟨hwritten, hwrittens⟩ := List.forall_mem_cons.mp hwritten
      obtain ⟨hlegible, hlegibles⟩ := List.forall_mem_cons.mp hlegible
      have hrest := Program.words_text hwrittens hlegibles
      have hline : ∀ cs, Delimited ("\n".toList ++ cs) := delimited_cons (by decide)
      have hnewline : ∀ cs, words ("\n".toList ++ cs) = .ok .endLine :: words cs :=
        @words_fixed .endLine (by decide)
      rw [Program.text, List.map_cons] at hrest ⊢
      rw [List.map_cons, String.intercalate_cons_cons]
      simp only [String.toList_append, List.append_assoc]
      rw [e.words_text hwritten hlegible (hline _), hnewline, hrest]
      simp [Program.tokens, List.intercalate_cons_cons]

/-- What parsing tokens that can be written gives is written. -/
theorem Parser.written_of_parse {ts : Tokens} {p : Program} (h : Program.parse ts = .ok p)
    (hts : ∀ t ∈ ts, t.value.WellFormed) : ∀ e ∈ p, e.Written := by
  rw [parse_eq_ok_iff_derives, Grammar.derives_program_nil_iff] at h
  obtain ⟨⟨d, hcovers, -, rfl⟩, -⟩ := h
  refine d.written ?_
  rw [hcovers.yield_eq]
  exact List.forall_mem_map.mpr hts

/-- **Printing and reading.** A program that came out of a text, without decimals and without bindings as
operands, and not more than half as high as is allowed, is printed as a text without mistakes, and comes
out of it again. -/
theorem Program.parse_text {s : String} {p : Program} (h : Program.parse (Lexed.ofString s).tokens = .ok p)
    (hlegible : ∀ e ∈ p, e.Legible) (hheight : ∀ e ∈ p, e.height ≤ 128) :
    (Lexed.ofString (Program.text p)).errors = [] ∧
      Program.parse (Lexed.ofString (Program.text p)).tokens = .ok p := by
  have hwritten := Parser.written_of_parse h fun t ht => Lexed.wellFormed_of_mem_tokens ht
  obtain ⟨herrors, htokens⟩ := Lexed.ofString_of_words (Program.words_text hwritten hlegible)
  exact ⟨herrors, Parser.parse_tokens hwritten hlegible hheight htokens⟩

/-- A function with a choice in it, and a use of it with a binding as an argument. -/
theorem Program.parse_text_choice :
    let s := "f := a |-> if a > 1 then a - 2 * 3 else f(a)\nf(1)(y := 2) # two"
    let p : Program :=
      [.binding "f" (.function "a" (.ifElse (.binary .greater (.var "a") (.integer 1))
        (.binary .subtract (.var "a") (.binary .multiply (.integer 2) (.integer 3)))
        (.call (.var "f") (.var "a")))),
       .call (.call (.var "f") (.integer 1)) (.binding "y" (.integer 2))]
    Program.parse (Lexed.ofString s).tokens = .ok p ∧ (∀ e ∈ p, e.Legible) ∧ (∀ e ∈ p, e.height ≤ 128) ∧
      (Lexed.ofString (Program.text p)).errors = [] ∧
      Program.parse (Lexed.ofString (Program.text p)).tokens = .ok p := by
  intro s p
  have hwords : Grammar.values (Lexed.ofString s).tokens =
      [.identifier "f", .binding, .identifier "a", .mapsTo, .ifWord, .identifier "a", .greater, .number "1",
        .thenWord, .identifier "a", .minus, .number "2", .star, .number "3", .elseWord, .identifier "f",
        .leftParen, .identifier "a", .rightParen, .endLine, .identifier "f", .leftParen, .number "1",
        .rightParen, .leftParen, .identifier "y", .binding, .number "2", .rightParen] := by
    decide +kernel
  have hparse : Program.parse (Lexed.ofString s).tokens = .ok p := by
    let place (t : Token) : Spanned Token := ⟨t, .point 0⟩
    have hplaced : ∀ ts : List Token, Grammar.values (ts.map place) = ts := by
      intro ts
      rw [Grammar.values, List.map_map]
      exact List.map_id ts
    rw [← hplaced (_ :: _)] at hwords
    rw [Parser.parse_congr_values hwords]
    rfl
  have hlegible : ∀ e ∈ p, e.Legible := by
    simp [p, Expr.Legible, Expr.IsBinding]
  have hheight : ∀ e ∈ p, e.height ≤ 128 := by decide
  exact ⟨hparse, hlegible, hheight, Program.parse_text hparse hlegible hheight⟩

end Mapsto
