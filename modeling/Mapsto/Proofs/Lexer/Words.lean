import Mapsto.Proofs.Lexer.Scan

/-!
# `Mapsto.Proofs.Lexer.Words` — what stands at a place of a text

`Stands word follow value` says, without a lexer, what is read where a text goes on with `word` and then
with `follow`: a keyword wherever one stands, a name or a numeral that cannot go on, a sign, an operator
with all of its characters, or a mistake of one character. The rule for a mistake says of its character
that nothing else starts with it.

`munch` reads exactly this: where layout ends something stands (`exists_stands`), and it reads what stands
there (`Stands.munch_eq`). So what is said of tokens and mistakes in other modules is said by cases of
`Stands`, and `munch` is not opened again.
-/

namespace Mapsto.Lexer

open Text

/-! ## Characters -/

/-- The characters that layout is made of, comments apart. -/
def IsBlank (c : Char) : Prop := c = ' ' ∨ c = '\t' ∨ c = '\r'

instance (c : Char) : Decidable (IsBlank c) :=
  inferInstanceAs (Decidable (c = ' ' ∨ c = '\t' ∨ c = '\r'))

/-- Whether layout starts with a character. -/
def StartsLayout (c : Char) : Prop := IsBlank c ∨ c = '#'

instance (c : Char) : Decidable (StartsLayout c) := inferInstanceAs (Decidable (IsBlank c ∨ c = '#'))

/-- The operators of more than one character. -/
def operators : List (String × Token) := [(":=", .binding), ("|->", .mapsTo)]

/-- The first characters of operators of more than one character. -/
def StartsOperator (c : Char) : Prop := c = ':' ∨ c = '|'

theorem startsOperator_of_head? {op : String × Token} (hop : op ∈ operators) {c : Char}
    (hc : op.1.toList.head? = some c) : StartsOperator c := by
  simp only [operators, List.mem_cons, List.not_mem_nil, or_false] at hop
  rcases hop with rfl | rfl
  · exact .inl (Option.some.inj hc).symm
  · exact .inr (Option.some.inj hc).symm

theorem StartsOperator.not_startsLayout {c : Char} (h : StartsOperator c) : ¬ StartsLayout c := by
  rcases h with rfl | rfl <;> decide

theorem toNat_le_of_isDigit {c : Char} (h : isDigit c = true) : 0x30 ≤ c.toNat ∧ c.toNat ≤ 0x39 := by
  simp only [isDigit, Bool.and_eq_true, decide_eq_true_eq] at h
  exact h

/-- No letter is a digit. -/
theorem isAlphabetic_of_isDigit {c : Char} (h : isDigit c = true) : isAlphabetic c = false :=
  inRanges_of_lt (Nat.lt_of_le_of_lt (toNat_le_of_isDigit h).2 (by decide))

/-- A name may go on with a digit. -/
theorem isNameChar_of_isDigit {c : Char} (h : isDigit c = true) : isNameChar c = true := by
  have hnumeric : isNumeric c = true := by
    obtain ⟨hlo, hhi⟩ := toNat_le_of_isDigit h
    exact inRanges_of_mem_head hlo hhi
  simp [isNameChar, hnumeric]

/-- The tokens of one character, with their characters. -/
def symbols : List (Char × Token) :=
  [('\n', .endLine), ('(', .leftParen), (')', .rightParen), ('+', .plus), ('-', .minus), ('*', .star),
   ('/', .slash), ('>', .greater)]

/-- The tokens that are always written the same. -/
def fixed : List Token :=
  [.plus, .minus, .star, .slash, .greater, .binding, .mapsTo, .leftParen, .rightParen, .endLine, .ifWord,
   .thenWord, .elseWord]

theorem mem_symbols_of_symbol? {c : Char} {token : Token} (h : symbol? c = some token) :
    (c, token) ∈ symbols := by
  unfold symbol? at h
  split at h <;> cases h <;> decide

/-! ## Keywords -/

theorem keyword?_eq_none_iff {cs : List Char} :
    keyword? cs = none ↔ ∀ k ∈ keywords, ¬ k.1.toList <+: cs := by
  unfold keyword?
  rw [List.find?_eq_none]
  simp only [List.isPrefixOf_iff_prefix]

/-- No keyword starts with a character that is not the first one of a keyword. -/
theorem keyword?_cons_eq_none {c : Char} (h : c ∉ ['i', 't', 'e']) (cs : List Char) :
    keyword? (c :: cs) = none := by
  rw [keyword?_eq_none_iff]
  have hhead : ∀ k ∈ keywords, k.1.toList.head? ∈ [some 'i', some 't', some 'e'] := by decide
  rintro k hk ⟨rest, heq⟩
  have hk := hhead k hk
  cases hword : k.1.toList with
  | nil =>
      rw [hword] at hk
      exact absurd hk (by decide)
  | cons x ks =>
      rw [hword] at hk heq
      obtain ⟨rfl, -⟩ := List.cons.inj heq
      exact h (by simpa using hk)

theorem not_mem_keywordStarts_of_isAlphabetic {c : Char} (h : isAlphabetic c = false) :
    c ∉ ['i', 't', 'e'] := by
  intro hmem
  have hall : ['i', 't', 'e'].all isAlphabetic = true := by decide
  rw [List.all_eq_true.mp hall c hmem] at h
  cases h

/-! ## What stands at a place -/

/-- Nothing at all starts with a character. -/
structure StartsNothing (c : Char) : Prop where
  not_layout : ¬ StartsLayout c
  not_operator : ¬ StartsOperator c
  not_alphabetic : isAlphabetic c = false
  not_digit : isDigit c = false
  not_symbol : symbol? c = none

/-- What is read where a text goes on with `word`, which is all of it, and then with `follow`. -/
inductive Stands : (word follow : List Char) → Except LexError Token → Prop where
  | keyword {k : String × Token} (follow : List Char) (hk : k ∈ keywords) :
      Stands k.1.toList follow (.ok k.2)
  | identifier {c : Char} {cs follow : List Char} (hc : isAlphabetic c = true)
      (hcs : ∀ x ∈ cs, isNameChar x = true) (hfollow : ∀ x ∈ follow.head?, isNameChar x = false)
      (hkeyword : ∀ k ∈ keywords, ¬ k.1.toList <+: c :: cs ++ follow) :
      Stands (c :: cs) follow (.ok (.identifier (String.ofList (c :: cs))))
  | whole {digits follow : List Char} (hne : digits ≠ []) (hdigits : ∀ x ∈ digits, isDigit x = true)
      (hfollow : ∀ x ∈ follow.head?, isDigit x = false ∧ x ≠ '.') :
      Stands digits follow (.ok (.number (String.ofList digits)))
  | decimal {digits places follow : List Char} (hne : digits ≠ [])
      (hdigits : ∀ x ∈ digits, isDigit x = true) (hplaces : ∀ x ∈ places, isDigit x = true)
      (hfollow : ∀ x ∈ follow.head?, isDigit x = false) :
      Stands (digits ++ '.' :: places) follow (.ok (.number (String.ofList (digits ++ '.' :: places))))
  | symbol {c : Char} {token : Token} (follow : List Char) (h : symbol? c = some token) :
      Stands [c] follow (.ok token)
  | operator {op : String × Token} (follow : List Char) (hop : op ∈ operators) :
      Stands op.1.toList follow (.ok op.2)
  | malformed {op : String × Token} {c : Char} {follow : List Char} (hop : op ∈ operators)
      (hc : op.1.toList.head? = some c) (h : ¬ op.1.toList <+: c :: follow) :
      Stands [c] follow
        (.error (.malformedOperator op.1 (String.ofList ((c :: follow).take op.1.toList.length))))
  | unexpected {c : Char} (follow : List Char) (h : StartsNothing c) :
      Stands [c] follow (.error (.unexpectedCharacter c))

/-! ## Reading -/

theorem head?_dropWhile_eq_false (p : Char → Bool) (cs : List Char) :
    ∀ x ∈ (cs.dropWhile p).head?, p x = false := by
  intro x hx
  have hhead := List.head?_dropWhile_not p cs
  rw [hx] at hhead
  simpa using hhead

theorem of_mem_takeWhile {p : Char → Bool} {cs : List Char} {x : Char} (h : x ∈ cs.takeWhile p) :
    p x = true :=
  List.all_eq_true.mp List.all_takeWhile x h

/-- What is read as an operator stands there, if its first character does. -/
theorem exists_stands_operator (op : String × Token) (hop : op ∈ operators) {c : Char} (cs : List Char)
    (hc : op.1.toList.head? = some c) :
    ∃ word follow, c :: cs = word ++ follow ∧ (operator op.1 op.2 (c :: cs)).2 = word.length ∧
      Stands word follow (operator op.1 op.2 (c :: cs)).1 := by
  unfold operator
  split
  · rename_i h
    obtain ⟨follow, hfollow⟩ := List.isPrefixOf_iff_prefix.mp h
    exact ⟨op.1.toList, follow, hfollow.symm, rfl, .operator follow hop⟩
  · rename_i h
    exact ⟨[c], cs, rfl, rfl, .malformed hop hc fun hpre => h (List.isPrefixOf_iff_prefix.mpr hpre)⟩

/-- A numeral takes all digits, a point behind them, and all digits behind that. -/
theorem exists_stands_numeral {c : Char} (hc : isDigit c = true) (cs : List Char) :
    ∃ follow, c :: cs = numeral (c :: cs) ++ follow ∧
      Stands (numeral (c :: cs)) follow (.ok (.number (String.ofList (numeral (c :: cs))))) := by
  have hsplit : (c :: cs).takeWhile isDigit ++ (c :: cs).dropWhile isDigit = c :: cs :=
    List.takeWhile_append_dropWhile
  have hdigits : ∀ x ∈ (c :: cs).takeWhile isDigit, isDigit x = true := fun x => of_mem_takeWhile
  have hne : (c :: cs).takeWhile isDigit ≠ [] := by
    rw [List.takeWhile_cons_of_pos hc]
    exact List.cons_ne_nil _ _
  have hstop := head?_dropWhile_eq_false isDigit (c :: cs)
  unfold numeral
  split
  · rename_i rest hrest
    refine ⟨rest.dropWhile isDigit, ?_, .decimal hne hdigits (fun x => of_mem_takeWhile) ?_⟩
    · rw [List.append_assoc, List.cons_append, List.takeWhile_append_dropWhile, ← hrest, hsplit]
    · exact head?_dropWhile_eq_false isDigit rest
  · rename_i hpoint
    rw [List.append_nil]
    refine ⟨(c :: cs).dropWhile isDigit, hsplit.symm, .whole hne hdigits fun x hx => ⟨hstop x hx, ?_⟩⟩
    rintro rfl
    obtain ⟨rest, hrest⟩ := List.head?_eq_some_iff.mp hx
    exact hpoint rest hrest

/-- **Something stands everywhere.** Where layout ends and the text does not, `munch` takes the characters
of what stands there. -/
theorem exists_stands {c : Char} (hc : ¬ StartsLayout c) (cs : List Char) :
    ∃ word follow, c :: cs = word ++ follow ∧ (munch (c :: cs)).2 = word.length ∧
      Stands word follow (munch (c :: cs)).1 := by
  simp only [munch]
  split
  · rename_i h
    exact exists_stands_operator (":=", .binding) (by decide) cs (h ▸ rfl)
  rename_i hcolon
  split
  · rename_i h
    exact exists_stands_operator ("|->", .mapsTo) (by decide) cs (h ▸ rfl)
  rename_i hbar
  split
  · rename_i word token h
    have hmem : (word, token) ∈ keywords := List.mem_of_find?_eq_some h
    have hprefix := List.find?_some h
    obtain ⟨follow, hfollow⟩ := List.isPrefixOf_iff_prefix.mp hprefix
    exact ⟨word.toList, follow, hfollow.symm, rfl, .keyword follow hmem⟩
  rename_i hkeyword
  split
  · rename_i halpha
    have htake : (c :: cs).takeWhile isNameChar = c :: cs.takeWhile isNameChar :=
      List.takeWhile_cons_of_pos (isNameChar_of_isAlphabetic halpha)
    have hsplit : c :: cs = c :: cs.takeWhile isNameChar ++ cs.dropWhile isNameChar := by
      rw [List.cons_append, List.takeWhile_append_dropWhile]
    simp only [htake]
    refine ⟨c :: cs.takeWhile isNameChar, cs.dropWhile isNameChar, hsplit, rfl, ?_⟩
    refine .identifier halpha (fun x => of_mem_takeWhile) (head?_dropWhile_eq_false isNameChar cs) ?_
    rw [← hsplit]
    exact keyword?_eq_none_iff.mp hkeyword
  rename_i halpha
  split
  · rename_i hdigit
    obtain ⟨follow, hfollow, hstands⟩ := exists_stands_numeral hdigit cs
    exact ⟨_, follow, hfollow, rfl, hstands⟩
  rename_i hdigit
  split
  · rename_i token h
    exact ⟨[c], cs, rfl, rfl, .symbol cs h⟩
  · rename_i h
    refine ⟨[c], cs, rfl, rfl, .unexpected cs ⟨hc, ?_, ?_, ?_, h⟩⟩
    · rintro (rfl | rfl)
      · exact hcolon rfl
      · exact hbar rfl
    · exact Bool.eq_false_iff.mpr halpha
    · exact Bool.eq_false_iff.mpr hdigit

theorem takeWhile_append_of_head? {p : Char → Bool} {cs follow : List Char} (hcs : ∀ x ∈ cs, p x = true)
    (hfollow : ∀ x ∈ follow.head?, p x = false) :
    (cs ++ follow).takeWhile p = cs ∧ (cs ++ follow).dropWhile p = follow := by
  rw [List.takeWhile_append_of_pos hcs, List.dropWhile_append_of_pos hcs]
  cases follow with
  | nil => exact ⟨List.append_nil cs, rfl⟩
  | cons y follow =>
      have hy : ¬ p y = true := Bool.eq_false_iff.mp (hfollow y rfl)
      rw [List.takeWhile_cons_of_neg hy, List.dropWhile_cons_of_neg hy]
      exact ⟨List.append_nil cs, rfl⟩

theorem not_startsOperator_of_isNameChar {c : Char} (h : isNameChar c = true) : ¬ StartsOperator c := by
  rintro (rfl | rfl)
  · exact absurd h (by decide)
  · exact absurd h (by decide)

/-- Where a digit stands, a numeral is read. -/
theorem munch_of_isDigit {c : Char} (hc : isDigit c = true) (cs : List Char) :
    munch (c :: cs) = (.ok (.number (String.ofList (numeral (c :: cs)))), (numeral (c :: cs)).length) := by
  have halpha := isAlphabetic_of_isDigit hc
  have hop := not_startsOperator_of_isNameChar (isNameChar_of_isDigit hc)
  have hkeyword := keyword?_cons_eq_none (not_mem_keywordStarts_of_isAlphabetic halpha) cs
  simp only [munch, if_neg (fun h => hop (.inl h)), if_neg (fun h => hop (.inr h)), hkeyword, halpha, hc]
  rfl

namespace Stands

variable {word follow : List Char}

/-- **Exactness.** `munch` reads what stands at a place. -/
theorem munch_eq {value : Except LexError Token} (h : Stands word follow value) :
    munch (word ++ follow) = (value, word.length) := by
  cases h with
  | keyword follow hk =>
      simp only [keywords, List.mem_cons, List.not_mem_nil, or_false] at hk
      rcases hk with rfl | rfl | rfl
      · rfl
      · rfl
      · rfl
  | @identifier c cs follow hc hcs hfollow hkeyword =>
      have hop := not_startsOperator_of_isNameChar (isNameChar_of_isAlphabetic hc)
      have hname : ∀ x ∈ c :: cs, isNameChar x = true :=
        List.forall_mem_cons.mpr ⟨isNameChar_of_isAlphabetic hc, hcs⟩
      have htake := (takeWhile_append_of_head? hname hfollow).1
      have hnone : keyword? (c :: (cs ++ follow)) = none := keyword?_eq_none_iff.mpr hkeyword
      rw [List.cons_append] at htake ⊢
      simp only [munch, if_neg (fun h => hop (.inl h)), if_neg (fun h => hop (.inr h)), hnone, hc, htake]
      rfl
  | whole hne hdigits hfollow =>
      obtain ⟨c, cs, rfl⟩ := List.exists_cons_of_ne_nil hne
      obtain ⟨htake, hdrop⟩ := takeWhile_append_of_head? hdigits fun x hx => (hfollow x hx).1
      have hnumeral : numeral (c :: cs ++ follow) = c :: cs := by
        unfold numeral
        rw [htake, hdrop]
        split
        · exact absurd rfl (hfollow '.' rfl).2
        · exact List.append_nil _
      have hmunch := munch_of_isDigit (hdigits c List.mem_cons_self) (cs ++ follow)
      rw [← List.cons_append, hnumeral] at hmunch
      exact hmunch
  | @decimal digits places follow hne hdigits hplaces hfollow =>
      obtain ⟨c, cs, rfl⟩ := List.exists_cons_of_ne_nil hne
      have hpoint : ∀ x ∈ ('.' :: (places ++ follow)).head?, isDigit x = false := by
        rintro x ⟨⟩
        decide
      obtain ⟨htake, hdrop⟩ := takeWhile_append_of_head? hdigits hpoint
      have hnumeral : numeral (c :: cs ++ '.' :: (places ++ follow)) = c :: cs ++ '.' :: places := by
        unfold numeral
        rw [htake, hdrop]
        simp only [(takeWhile_append_of_head? hplaces hfollow).1]
      have hmunch := munch_of_isDigit (hdigits c List.mem_cons_self) (cs ++ '.' :: (places ++ follow))
      rw [← List.cons_append, hnumeral] at hmunch
      rw [List.append_assoc]
      exact hmunch
  | symbol follow h =>
      have hmem := mem_symbols_of_symbol? h
      simp only [symbols, List.mem_cons, Prod.mk.injEq, List.not_mem_nil, or_false] at hmem
      rcases hmem with ⟨rfl, rfl⟩ | ⟨rfl, rfl⟩ | ⟨rfl, rfl⟩ | ⟨rfl, rfl⟩ | ⟨rfl, rfl⟩ | ⟨rfl, rfl⟩ |
        ⟨rfl, rfl⟩ | ⟨rfl, rfl⟩ <;> rfl
  | operator follow hop =>
      simp only [operators, List.mem_cons, List.not_mem_nil, or_false] at hop
      rcases hop with rfl | rfl
      · rfl
      · rfl
  | @malformed op c follow hop hc h =>
      simp only [operators, List.mem_cons, List.not_mem_nil, or_false] at hop
      have hno := fun hpre => h (List.isPrefixOf_iff_prefix.mp hpre)
      rcases hop with rfl | rfl
      · obtain rfl : ':' = c := Option.some.inj hc
        exact if_neg hno
      · obtain rfl : '|' = c := Option.some.inj hc
        exact if_neg hno
  | @unexpected c follow h =>
      have hkeyword := keyword?_cons_eq_none (not_mem_keywordStarts_of_isAlphabetic h.not_alphabetic) follow
      rw [List.singleton_append]
      simp only [munch, if_neg (fun hc => h.not_operator (.inl hc)),
        if_neg (fun hc => h.not_operator (.inr hc)), hkeyword, h.not_alphabetic, h.not_digit, h.not_symbol]
      rfl

/-- One thing stands at a place. -/
theorem unique {word' follow' : List Char} {value value' : Except LexError Token}
    (h : Stands word follow value) (h' : Stands word' follow' value')
    (heq : word ++ follow = word' ++ follow') : value = value' := by
  have hmunch := h.munch_eq
  rw [heq, h'.munch_eq] at hmunch
  exact (Prod.mk.inj hmunch).1.symm

/-- What stands at a place has a first character, and layout does not start with it. -/
theorem exists_cons {value : Except LexError Token} (h : Stands word follow value) :
    ∃ c cs, word = c :: cs ∧ ¬ StartsLayout c := by
  have hname : ∀ {c : Char}, isNameChar c = true → ¬ StartsLayout c := by
    rintro c hc ((rfl | rfl | rfl) | rfl) <;> exact absurd hc (by decide)
  cases h with
  | keyword follow hk =>
      simp only [keywords, List.mem_cons, List.not_mem_nil, or_false] at hk
      rcases hk with rfl | rfl | rfl
      · exact ⟨'i', _, rfl, by decide⟩
      · exact ⟨'t', _, rfl, by decide⟩
      · exact ⟨'e', _, rfl, by decide⟩
  | identifier hc _ _ _ => exact ⟨_, _, rfl, hname (isNameChar_of_isAlphabetic hc)⟩
  | whole hne hdigits _ =>
      obtain ⟨c, cs, rfl⟩ := List.exists_cons_of_ne_nil hne
      exact ⟨c, cs, rfl, hname (isNameChar_of_isDigit (hdigits c List.mem_cons_self))⟩
  | decimal hne hdigits _ _ =>
      obtain ⟨c, cs, rfl⟩ := List.exists_cons_of_ne_nil hne
      exact ⟨c, _, rfl, hname (isNameChar_of_isDigit (hdigits c List.mem_cons_self))⟩
  | symbol follow h =>
      have hall : ∀ x ∈ symbols, ¬ StartsLayout x.1 := by decide
      exact ⟨_, _, rfl, hall _ (mem_symbols_of_symbol? h)⟩
  | operator follow hop =>
      simp only [operators, List.mem_cons, List.not_mem_nil, or_false] at hop
      rcases hop with rfl | rfl
      · exact ⟨':', _, rfl, by decide⟩
      · exact ⟨'|', _, rfl, by decide⟩
  | malformed hop hc h =>
      exact ⟨_, _, rfl, (startsOperator_of_head? hop hc).not_startsLayout⟩
  | unexpected follow h => exact ⟨_, _, rfl, h.not_layout⟩

/-- A token stands where its lexeme does. -/
theorem eq_lexeme {token : Token} (h : Stands word follow (.ok token)) : word = token.lexeme.toList := by
  have hkeyword : ∀ k ∈ keywords, k.1 = k.2.lexeme := by decide
  have hoperator : ∀ op ∈ operators, op.1 = op.2.lexeme := by decide
  have hsymbol : ∀ x ∈ symbols, [x.1] = x.2.lexeme.toList := by decide
  cases h with
  | keyword follow hk => rw [hkeyword _ hk]
  | identifier _ _ _ _ => exact String.toList_ofList.symm
  | whole _ _ _ => exact String.toList_ofList.symm
  | decimal _ _ _ _ => exact String.toList_ofList.symm
  | symbol follow h => exact hsymbol _ (mem_symbols_of_symbol? h)
  | operator follow hop => rw [hoperator _ hop]

/-- A mistake is one character. -/
theorem eq_singleton {e : LexError} (h : Stands word follow (.error e)) : ∃ c, word = [c] := by
  cases h with
  | malformed _ _ _ => exact ⟨_, rfl⟩
  | unexpected _ _ => exact ⟨_, rfl⟩

/-- A token is always written the same, or a name, or a numeral. -/
theorem fixed_or_free {token : Token} (h : Stands word follow (.ok token)) :
    token ∈ fixed ∨
      (∃ c cs, token = .identifier (String.ofList (c :: cs)) ∧ isAlphabetic c = true ∧
        (∀ x ∈ cs, isNameChar x = true) ∧ (∀ x ∈ follow.head?, isNameChar x = false) ∧
        ∀ k ∈ keywords, ¬ k.1.toList <+: c :: cs ++ follow) ∨
      ∃ digits, digits ≠ [] ∧ (∀ x ∈ digits, isDigit x = true) ∧
        (token = .number (String.ofList digits) ∧
            (∀ x ∈ follow.head?, isDigit x = false ∧ x ≠ '.') ∨
          ∃ places, token = .number (String.ofList (digits ++ '.' :: places)) ∧
            (∀ x ∈ places, isDigit x = true) ∧ ∀ x ∈ follow.head?, isDigit x = false) := by
  cases h with
  | keyword _ hk =>
      have hall : ∀ k ∈ keywords, k.2 ∈ fixed := by decide
      exact .inl (hall _ hk)
  | identifier hc hcs hfollow hkeyword => exact .inr (.inl ⟨_, _, rfl, hc, hcs, hfollow, hkeyword⟩)
  | whole hne hdigits hfollow => exact .inr (.inr ⟨_, hne, hdigits, .inl ⟨rfl, hfollow⟩⟩)
  | decimal hne hdigits hplaces hfollow =>
      exact .inr (.inr ⟨_, hne, hdigits, .inr ⟨_, rfl, hplaces, hfollow⟩⟩)
  | symbol _ hsymbol =>
      have hall : ∀ x ∈ symbols, x.2 ∈ fixed := by decide
      exact .inl (hall _ (mem_symbols_of_symbol? hsymbol))
  | operator _ hop =>
      have hall : ∀ op ∈ operators, op.2 ∈ fixed := by decide
      exact .inl (hall _ hop)

/-- A name starts with a letter and could not go on. -/
theorem identifier_cases {name : String} (h : Stands word follow (.ok (.identifier name))) :
    (∃ c cs, name.toList = c :: cs ∧ isAlphabetic c = true ∧ ∀ x ∈ cs, isNameChar x = true) ∧
      ∀ x ∈ follow.head?, isNameChar x = false := by
  obtain hfixed | ⟨c, cs, hname, hc, hcs, hfollow, -⟩ | ⟨_, _, _, ⟨hname, _⟩ | ⟨_, hname, _⟩⟩ :=
    h.fixed_or_free
  · simp [fixed] at hfixed
  · cases hname
    exact ⟨⟨c, cs, String.toList_ofList, hc, hcs⟩, hfollow⟩
  · cases hname
  · cases hname

/-- A numeral is digits, maybe with a point among them, and could not go on. -/
theorem number_cases {lexeme : String} (h : Stands word follow (.ok (.number lexeme))) :
    ∃ digits : List Char, digits ≠ [] ∧ (∀ x ∈ digits, isDigit x = true) ∧
      (lexeme.toList = digits ∧ (∀ x ∈ follow.head?, isDigit x = false ∧ x ≠ '.') ∨
        ∃ places, lexeme.toList = digits ++ '.' :: places ∧ (∀ x ∈ places, isDigit x = true) ∧
          ∀ x ∈ follow.head?, isDigit x = false) := by
  obtain hfixed | ⟨_, _, hnumber, _⟩ | ⟨digits, hne, hdigits, hpoint⟩ := h.fixed_or_free
  · simp [fixed] at hfixed
  · cases hnumber
  · refine ⟨digits, hne, hdigits, ?_⟩
    rcases hpoint with ⟨hnumber, hfollow⟩ | ⟨places, hnumber, hplaces, hfollow⟩
    · cases hnumber
      exact .inl ⟨String.toList_ofList, hfollow⟩
    · cases hnumber
      exact .inr ⟨places, String.toList_ofList, hplaces, hfollow⟩

/-- Where a text goes on with the first character of an operator, the operator is read if it stands there,
and else a mistake. -/
theorem operator_cases {value : Except LexError Token} (h : Stands word follow value)
    {op : String × Token} (hop : op ∈ operators)
    (hhead : (word ++ follow).head? = op.1.toList.head?) :
    (op.1.toList <+: word ++ follow → value = .ok op.2) ∧
      (¬ op.1.toList <+: word ++ follow → ∃ found, value = .error (.malformedOperator op.1 found)) := by
  constructor
  · rintro ⟨rest, hrest⟩
    exact h.unique (.operator rest hop) hrest.symm
  · intro hno
    obtain ⟨c, cs, rfl, -⟩ := h.exists_cons
    exact ⟨_, h.unique (.malformed hop hhead.symm hno) rfl⟩

/-- An end of line is a token of its own, and inside of nothing. -/
theorem newline_cases {value : Except LexError Token} (h : Stands word follow value) :
    word = ['\n'] ∧ value = .ok .endLine ∨ '\n' ∉ word ∧ value ≠ .ok .endLine := by
  have hdigit : ∀ {digits : List Char}, (∀ x ∈ digits, isDigit x = true) → '\n' ∉ digits :=
    fun hdigits hmem => absurd (hdigits _ hmem) (by decide)
  cases h with
  | keyword follow hk =>
      have hall : ∀ k ∈ keywords, '\n' ∉ k.1.toList ∧ k.2 ≠ .endLine := by decide
      exact .inr ⟨(hall _ hk).1, fun h => (hall _ hk).2 (Except.ok.inj h)⟩
  | identifier hc hcs _ _ =>
      refine .inr ⟨fun hmem => ?_, nofun⟩
      rcases List.mem_cons.mp hmem with rfl | hmem
      · exact absurd hc (by decide)
      · exact absurd (hcs _ hmem) (by decide)
  | whole _ hdigits _ => exact .inr ⟨hdigit hdigits, nofun⟩
  | decimal _ hdigits hplaces _ =>
      refine .inr ⟨fun hmem => ?_, nofun⟩
      rcases List.mem_append.mp hmem with hmem | hmem
      · exact hdigit hdigits hmem
      · rcases List.mem_cons.mp hmem with h | hmem
        · exact absurd h (by decide)
        · exact hdigit hplaces hmem
  | symbol follow h =>
      have hmem := mem_symbols_of_symbol? h
      simp only [symbols, List.mem_cons, Prod.mk.injEq, List.not_mem_nil, or_false] at hmem
      rcases hmem with ⟨rfl, rfl⟩ | ⟨rfl, rfl⟩ | ⟨rfl, rfl⟩ | ⟨rfl, rfl⟩ | ⟨rfl, rfl⟩ | ⟨rfl, rfl⟩ |
        ⟨rfl, rfl⟩ | ⟨rfl, rfl⟩
      · exact .inl ⟨rfl, rfl⟩
      all_goals exact .inr ⟨by decide, nofun⟩
  | operator follow hop =>
      have hall : ∀ op ∈ operators, '\n' ∉ op.1.toList ∧ op.2 ≠ .endLine := by decide
      exact .inr ⟨(hall _ hop).1, fun h => (hall _ hop).2 (Except.ok.inj h)⟩
  | malformed hop hc _ =>
      refine .inr ⟨fun hmem => ?_, nofun⟩
      have hstart := startsOperator_of_head? hop hc
      rw [← List.mem_singleton.mp hmem] at hstart
      rcases hstart with h | h <;> exact absurd h (by decide)
  | unexpected follow h =>
      refine .inr ⟨fun hmem => ?_, nofun⟩
      have hsymbol := h.not_symbol
      rw [← List.mem_singleton.mp hmem] at hsymbol
      cases hsymbol

end Stands

end Mapsto.Lexer
