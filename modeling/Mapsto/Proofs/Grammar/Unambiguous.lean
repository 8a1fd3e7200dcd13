import Mapsto.Proofs.Grammar

/-!
# `Mapsto.Proofs.Grammar.Unambiguous` — every text has one derivation at most

Reading from the left, each repetition goes on as long as it can, and a name in front of `:=` or `|->` is
never an operand. `Maximal` says this of a derivation and the tokens behind it. Two facts about it carry
the rest:

* a maximal derivation, and where it ends, are determined by the tokens (`Maximal.unique`), one token of
  look-ahead being enough to tell the rules of a category apart;
* in a whole program, greed is all that is needed for it (`maximal_of_greedy`): the other ways to go on
  are ruled out by what can stand behind an expression.
-/

namespace Mapsto.Grammar

/-! ## First tokens -/

/-- The tokens that a factor, and so a term, can start with. -/
def StartsFactor : Token → Prop
  | .number _ => True
  | .identifier _ => True
  | .leftParen => True
  | _ => False

/-- The tokens that an expression can start with. -/
def StartsExpression (t : Token) : Prop := t = .ifWord ∨ StartsFactor t

namespace Derivation

theorem exists_head_factor (d : Derivation .factor) : ∃ t ts, d.yield = t :: ts ∧ StartsFactor t := by
  cases d with
  | number lexeme literal h => exact ⟨_, _, rfl, trivial⟩
  | application name arguments => exact ⟨_, _, rfl, trivial⟩
  | group inner => exact ⟨_, _, rfl, trivial⟩

theorem exists_head_term (d : Derivation .term) : ∃ t ts, d.yield = t :: ts ∧ StartsFactor t := by
  cases d with
  | product first rest =>
    obtain ⟨t, ts, h, ht⟩ := exists_head_factor first
    exact ⟨t, ts ++ rest.yield, by rw [yield, h]; rfl, ht⟩

theorem exists_head_expression (d : Derivation .expression) :
    ∃ t ts, d.yield = t :: ts ∧ StartsExpression t := by
  cases d with
  | binding name value => exact ⟨_, _, rfl, .inr trivial⟩
  | function parameter body => exact ⟨_, _, rfl, .inr trivial⟩
  | ifElse condition consequence alternative => exact ⟨_, _, rfl, .inl rfl⟩
  | sum first rest =>
    obtain ⟨t, ts, h, ht⟩ := exists_head_term first
    exact ⟨t, ts ++ rest.yield, by rw [yield, h]; rfl, .inr ht⟩

end Derivation

/-! ## Maximal derivations -/

/-- A name and one of the signs that make an expression of its own out of it. -/
def OpensBinder : List Token → Prop
  | .identifier _ :: .binding :: _ => True
  | .identifier _ :: .mapsTo :: _ => True
  | _ => False

namespace Derivation

/-- No repetition of a derivation could go on, and no operand is the name of a binding or a function, when
`follow` comes behind the derivation. -/
def Maximal {c : Category} : Derivation c → (follow : List Token) → Prop
  | endOfText, follow => follow = []
  | lineEnd rest, follow => rest.Maximal follow
  | statement first rest, follow => first.Maximal (rest.yield ++ follow) ∧ rest.Maximal follow
  | binding _ value, follow => value.Maximal follow
  | function _ body, follow => body.Maximal follow
  | ifElse condition consequence alternative, follow =>
    condition.Maximal (.thenWord :: consequence.yield ++ .elseWord :: alternative.yield ++ follow) ∧
      consequence.Maximal (.elseWord :: alternative.yield ++ follow) ∧ alternative.Maximal follow
  | sum first rest, follow =>
    ¬ OpensBinder (first.yield ++ (rest.yield ++ follow)) ∧
      first.Maximal (rest.yield ++ follow) ∧ rest.Maximal follow
  | noTerm, follow => ∀ op : Operator, op.joinsTerms = true → follow.head? ≠ some op.token
  | andTerm _ _ right rest, follow => right.Maximal (rest.yield ++ follow) ∧ rest.Maximal follow
  | product first rest, follow => first.Maximal (rest.yield ++ follow) ∧ rest.Maximal follow
  | noFactor, follow => ∀ op : Operator, op.joinsTerms = false → follow.head? ≠ some op.token
  | andFactor _ _ right rest, follow => right.Maximal (rest.yield ++ follow) ∧ rest.Maximal follow
  | number _ _ _, _ => True
  | application _ arguments, follow => arguments.Maximal follow
  | group inner, follow => inner.Maximal (.rightParen :: follow)
  | noArgument, follow => follow.head? ≠ some .leftParen
  | andArgument argument rest, follow =>
    argument.Maximal (.rightParen :: rest.yield ++ follow) ∧ rest.Maximal follow

end Derivation

/-! ## Unique readings -/

theorem operator_token_injective {op op' : Operator} (h : op.token = op'.token) : op = op' := by
  cases op <;> cases op' <;> first | rfl | cases h

theorem not_startsFactor_ifWord {t : Token} (h : StartsFactor t) : t ≠ .ifWord := by
  rintro rfl
  exact h

theorem not_startsExpression_endLine {t : Token} (h : StartsExpression t) : t ≠ .endLine := by
  rintro rfl
  rcases h with h | h
  · cases h
  · exact h

/-- **One reading.** What is derived with maximal repetitions from the start of a text, and where that
ends, is determined by the text. -/
theorem Derivation.Maximal.unique {c : Category} {d d' : Derivation c} {follow follow' : List Token}
    (hd : d.Maximal follow) (hd' : d'.Maximal follow')
    (h : d.yield ++ follow = d'.yield ++ follow') : d = d' ∧ follow = follow' := by
  -- By induction on `d`. Its first rule and that of `d'` are the same, since one token tells the rules
  -- of a category apart, and then their parts agree from left to right.
  induction d generalizing follow follow' with
  | endOfText =>
    obtain rfl : follow = [] := hd
    cases d' with
    | endOfText => exact ⟨rfl, h⟩
    | lineEnd rest => cases h
    | statement first rest =>
      obtain ⟨t, ts, ht, -⟩ := first.exists_head_expression
      simp [yield, ht] at h
  | lineEnd rest ih =>
    cases d' with
    | endOfText =>
      obtain rfl : follow' = [] := hd'
      cases h
    | lineEnd rest' =>
      obtain ⟨rfl, hf⟩ := ih hd (show rest'.Maximal follow' from hd') (List.cons.inj h).2
      exact ⟨rfl, hf⟩
    | statement first rest' =>
      obtain ⟨t, ts, ht, hs⟩ := first.exists_head_expression
      simp only [yield, ht, List.cons_append] at h
      exact absurd (List.cons.inj h).1.symm (not_startsExpression_endLine hs)
  | statement first rest ihf ihr =>
    cases d' with
    | endOfText =>
      obtain rfl : follow' = [] := hd'
      obtain ⟨t, ts, ht, -⟩ := first.exists_head_expression
      simp [yield, ht] at h
    | lineEnd rest' =>
      obtain ⟨t, ts, ht, hs⟩ := first.exists_head_expression
      simp only [yield, ht, List.cons_append] at h
      exact absurd (List.cons.inj h).1 (not_startsExpression_endLine hs)
    | statement first' rest' =>
      simp only [yield, List.append_assoc] at h
      obtain ⟨rfl, hr⟩ := ihf hd.1 hd'.1 h
      obtain ⟨rfl, hf⟩ := ihr hd.2 hd'.2 hr
      exact ⟨rfl, hf⟩
  | binding name value ih =>
    cases d' with
    | binding name' value' =>
      simp only [yield, List.cons_append, List.cons.injEq, Token.identifier.injEq, true_and] at h
      obtain ⟨rfl, hv⟩ := h
      obtain ⟨rfl, hf⟩ := ih hd (show value'.Maximal follow' from hd') hv
      exact ⟨rfl, hf⟩
    | function parameter body => simp [yield] at h
    | ifElse condition consequence alternative => simp [yield] at h
    | sum first rest =>
      refine absurd ?_ hd'.1
      rw [← List.append_assoc]
      exact h ▸ trivial
  | function parameter body ih =>
    cases d' with
    | binding name value => simp [yield] at h
    | function parameter' body' =>
      simp only [yield, List.cons_append, List.cons.injEq, Token.identifier.injEq, true_and] at h
      obtain ⟨rfl, hb⟩ := h
      obtain ⟨rfl, hf⟩ := ih hd (show body'.Maximal follow' from hd') hb
      exact ⟨rfl, hf⟩
    | ifElse condition consequence alternative => simp [yield] at h
    | sum first rest =>
      refine absurd ?_ hd'.1
      rw [← List.append_assoc]
      exact h ▸ trivial
  | ifElse condition consequence alternative ihc iht ihe =>
    cases d' with
    | binding name value => simp [yield] at h
    | function parameter body => simp [yield] at h
    | ifElse condition' consequence' alternative' =>
      simp only [yield, List.cons_append, List.append_assoc, List.cons.injEq, true_and] at h
      obtain ⟨rfl, ht⟩ := ihc hd.1 hd'.1 (by simpa using h)
      simp only [List.cons_append, List.cons.injEq, true_and] at ht
      obtain ⟨rfl, he⟩ := iht hd.2.1 hd'.2.1 (by simpa using ht)
      simp only [List.cons_append, List.cons.injEq, true_and] at he
      obtain ⟨rfl, hf⟩ := ihe hd.2.2 hd'.2.2 he
      exact ⟨rfl, hf⟩
    -- No term starts with a keyword.
    | sum first rest =>
      obtain ⟨t, ts, ht, hs⟩ := first.exists_head_term
      simp only [yield, ht, List.cons_append] at h
      exact absurd (List.cons.inj h).1.symm (not_startsFactor_ifWord hs)
  | sum first rest ihf ihr =>
    cases d' with
    | binding name value =>
      refine absurd ?_ hd.1
      rw [← List.append_assoc]
      exact h.symm ▸ trivial
    | function parameter body =>
      refine absurd ?_ hd.1
      rw [← List.append_assoc]
      exact h.symm ▸ trivial
    | ifElse condition consequence alternative =>
      obtain ⟨t, ts, ht, hs⟩ := first.exists_head_term
      simp only [yield, ht, List.cons_append] at h
      exact absurd (List.cons.inj h).1 (not_startsFactor_ifWord hs)
    | sum first' rest' =>
      simp only [yield, List.append_assoc] at h
      obtain ⟨rfl, hr⟩ := ihf hd.2.1 hd'.2.1 h
      obtain ⟨rfl, hf⟩ := ihr hd.2.2 hd'.2.2 hr
      exact ⟨rfl, hf⟩
  -- A repetition that ends where another one goes on is not maximal.
  | noTerm =>
    cases d' with
    | noTerm => exact ⟨rfl, h⟩
    | andTerm op hop right rest => exact absurd (congrArg List.head? h) (hd op hop)
  | andTerm op hop right rest ihf ihr =>
    cases d' with
    | noTerm => exact absurd (congrArg List.head? h.symm) (hd' op hop)
    | andTerm op' hop' right' rest' =>
      simp only [yield, List.cons_append, List.append_assoc, List.cons.injEq] at h
      obtain rfl := operator_token_injective h.1
      obtain ⟨rfl, hr⟩ := ihf hd.1 hd'.1 h.2
      obtain ⟨rfl, hf⟩ := ihr hd.2 hd'.2 hr
      exact ⟨rfl, hf⟩
  | product first rest ihf ihr =>
    cases d' with
    | product first' rest' =>
      simp only [yield, List.append_assoc] at h
      obtain ⟨rfl, hr⟩ := ihf hd.1 hd'.1 h
      obtain ⟨rfl, hf⟩ := ihr hd.2 hd'.2 hr
      exact ⟨rfl, hf⟩
  | noFactor =>
    cases d' with
    | noFactor => exact ⟨rfl, h⟩
    | andFactor op hop right rest => exact absurd (congrArg List.head? h) (hd op hop)
  | andFactor op hop right rest ihf ihr =>
    cases d' with
    | noFactor => exact absurd (congrArg List.head? h.symm) (hd' op hop)
    | andFactor op' hop' right' rest' =>
      simp only [yield, List.cons_append, List.append_assoc, List.cons.injEq] at h
      obtain rfl := operator_token_injective h.1
      obtain ⟨rfl, hr⟩ := ihf hd.1 hd'.1 h.2
      obtain ⟨rfl, hf⟩ := ihr hd.2 hd'.2 hr
      exact ⟨rfl, hf⟩
  | number lexeme literal hl =>
    cases d' with
    | number lexeme' literal' hl' =>
      simp only [yield, List.cons_append, List.cons.injEq, Token.number.injEq] at h
      obtain ⟨rfl, hf⟩ := h
      -- A lexeme denotes one literal.
      obtain rfl := Option.some.inj (hl.symm.trans hl')
      exact ⟨rfl, hf⟩
    | application name arguments => simp [yield] at h
    | group inner => simp [yield] at h
  | application name arguments ih =>
    cases d' with
    | number lexeme literal hl => simp [yield] at h
    | application name' arguments' =>
      simp only [yield, List.cons_append, List.cons.injEq, Token.identifier.injEq] at h
      obtain ⟨rfl, ha⟩ := h
      obtain ⟨rfl, hf⟩ := ih hd (show arguments'.Maximal follow' from hd') ha
      exact ⟨rfl, hf⟩
    | group inner => simp [yield] at h
  | group inner ih =>
    cases d' with
    | number lexeme literal hl => simp [yield] at h
    | application name arguments => simp [yield] at h
    | group inner' =>
      simp only [yield, List.cons_append, List.append_assoc, List.cons.injEq, true_and] at h
      obtain ⟨rfl, hf⟩ := ih hd (show inner'.Maximal (.rightParen :: follow') from hd') h
      exact ⟨rfl, (List.cons.inj hf).2⟩
  | noArgument =>
    cases d' with
    | noArgument => exact ⟨rfl, h⟩
    | andArgument argument rest => exact absurd (congrArg List.head? h) hd
  | andArgument argument rest iha ihr =>
    cases d' with
    | noArgument => exact absurd (congrArg List.head? h.symm) hd'
    | andArgument argument' rest' =>
      simp only [yield, List.cons_append, List.append_assoc, List.cons.injEq, true_and] at h
      obtain ⟨rfl, hr⟩ := iha hd.1 hd'.1 h
      obtain ⟨rfl, hf⟩ := ihr hd.2 hd'.2 (List.cons.inj hr).2
      exact ⟨rfl, hf⟩

/-! ## What can stand behind a derivation

The converse of greed would be false of a part alone: `a` in front of `+` is greedy, and not maximal.
Behind a whole expression there is the end of the text, the end of a line, the next expression, a
closing parenthesis or a keyword.-/

/-- No sign that makes a binding or a function stands in front. -/
def NoSign (follow : List Token) : Prop :=
  follow.head? ≠ some .binding ∧ follow.head? ≠ some .mapsTo

/-- What may stand behind a derivation of a category. -/
def Category.Follow : Category → List Token → Prop
  | program, follow => follow = []
  | expression, follow => (∀ op : Operator, follow.head? ≠ some op.token) ∧ NoSign follow
  | terms, follow => (∀ op : Operator, follow.head? ≠ some op.token) ∧ NoSign follow
  | term, follow =>
    (∀ op : Operator, op.joinsTerms = false → follow.head? ≠ some op.token) ∧ NoSign follow
  | factors, follow =>
    (∀ op : Operator, op.joinsTerms = false → follow.head? ≠ some op.token) ∧ NoSign follow
  | factor, follow => NoSign follow
  | arguments, follow => NoSign follow

/-- A token that is neither an operator nor a sign may stand behind an expression. -/
theorem follow_expression_cons {t : Token} {ts : List Token} (hop : ∀ op : Operator, t ≠ op.token)
    (hb : t ≠ .binding) (hm : t ≠ .mapsTo) : Category.expression.Follow (t :: ts) := by
  refine ⟨fun op h => hop op (Option.some.inj h), ?_, ?_⟩
  · exact fun h => hb (Option.some.inj h)
  · exact fun h => hm (Option.some.inj h)

/-- The tokens that only ever end something. -/
def closers : List Token := [.thenWord, .elseWord, .rightParen, .endLine]

theorem follow_expression_closer {t : Token} {ts : List Token} (ht : t ∈ closers) :
    Category.expression.Follow (t :: ts) := by
  refine follow_expression_cons ?_ ?_ ?_
  · rintro op rfl
    cases op <;> exact absurd ht (by decide)
  · rintro rfl
    exact absurd ht (by decide)
  · rintro rfl
    exact absurd ht (by decide)

theorem follow_expression_nil : Category.expression.Follow [] :=
  ⟨nofun, nofun, nofun⟩

theorem noSign_operator (op : Operator) (ts : List Token) : NoSign (op.token :: ts) := by
  cases op <;> exact ⟨nofun, nofun⟩

namespace Derivation

/-- Behind a term there is an operator that joins terms, or what is behind the whole sum. -/
theorem follow_term_terms (d : Derivation .terms) {follow : List Token}
    (h : Category.terms.Follow follow) : Category.term.Follow (d.yield ++ follow) := by
  cases d with
  | noTerm => exact ⟨fun op _ => h.1 op, h.2⟩
  | andTerm op hop right rest =>
      -- The operator in front joins terms, so it is none of those that join factors.
      refine ⟨fun op' hop' heq => ?_, noSign_operator op _⟩
      obtain rfl := operator_token_injective (Option.some.inj heq)
      rw [hop] at hop'
      cases hop'

/-- Behind a factor there is an operator, or what is behind the whole product. -/
theorem follow_factor_factors (d : Derivation .factors) {follow : List Token}
    (h : Category.factors.Follow follow) : Category.factor.Follow (d.yield ++ follow) := by
  cases d with
  | noFactor => exact h.2
  | andFactor op hop right rest => exact noSign_operator op _

theorem noSign_arguments (d : Derivation .arguments) {follow : List Token} (h : NoSign follow) :
    NoSign (d.yield ++ follow) := by
  cases d with
  | noArgument => exact h
  | andArgument argument rest => exact ⟨nofun, nofun⟩

/-- A term is no binding and no function. -/
theorem not_opensBinder_term (d : Derivation .term) {follow : List Token}
    (h : Category.term.Follow follow) : ¬ OpensBinder (d.yield ++ follow) := by
  cases d with
  | product first rest =>
      have hf := rest.follow_factor_factors h
      rw [yield, List.append_assoc]
      cases first with
      | number lexeme literal hl => exact fun h => h
      | application name arguments =>
          have hs := arguments.noSign_arguments hf
          rw [yield, List.cons_append]
          -- A name is followed by an argument, or by what follows the term; neither is a sign.
          intro hb
          unfold OpensBinder at hb
          split at hb
          · rename_i heq
            exact hs.1 (congrArg List.head? (List.cons.inj heq).2)
          · rename_i heq
            exact hs.2 (congrArg List.head? (List.cons.inj heq).2)
          · exact hb
      | group inner => exact fun h => h

/-- Behind a statement there is the end of the text, the end of a line or another statement. -/
theorem follow_expression_program (d : Derivation .program) : Category.expression.Follow d.yield := by
  cases d with
  | endOfText => exact follow_expression_nil
  | lineEnd rest =>
      exact follow_expression_closer (by decide)
  | statement first rest =>
      obtain ⟨t, ts, ht, hs⟩ := first.exists_head_expression
      rw [yield, ht, List.cons_append]
      refine follow_expression_cons ?_ ?_ ?_
      · rintro op rfl
        cases op <;> rcases hs with hs | hs <;> trivial
      · rintro rfl
        rcases hs with hs | hs <;> trivial
      · rintro rfl
        rcases hs with hs | hs <;> trivial

/-- **Greed is enough.** In a place where a derivation can end, nothing but an argument could go on. -/
theorem maximal_of_greedy {c : Category} {d : Derivation c} {follow : List Token}
    (h : d.Greedy follow) (hf : c.Follow follow) : d.Maximal follow := by
  induction d generalizing follow with
  | endOfText => exact hf
  | lineEnd rest ih => exact ih h hf
  | statement first rest ihf ihr =>
      -- Behind a statement there is the rest of the program, and behind that nothing.
      obtain rfl : follow = [] := hf
      refine ⟨ihf h.1 ?_, ihr h.2 rfl⟩
      rw [List.append_nil]
      exact rest.follow_expression_program
  | binding name value ih => exact ih h hf
  | function parameter body ih => exact ih h hf
  | ifElse condition consequence alternative ihc iht ihe =>
      refine ⟨ihc h.1 ?_, iht h.2.1 ?_, ihe h.2.2 hf⟩
      · exact follow_expression_closer (by decide)
      · exact follow_expression_closer (by decide)
  | sum first rest ihf ihr =>
      have hterm := rest.follow_term_terms hf
      exact ⟨first.not_opensBinder_term hterm, ihf h.1 hterm, ihr h.2 hf⟩
  | noTerm => exact fun op _ => hf.1 op
  | andTerm op hop right rest ihf ihr => exact ⟨ihf h.1 (rest.follow_term_terms hf), ihr h.2 hf⟩
  | product first rest ihf ihr => exact ⟨ihf h.1 (rest.follow_factor_factors hf), ihr h.2 hf⟩
  | noFactor => exact hf.1
  | andFactor op hop right rest ihf ihr =>
      exact ⟨ihf h.1 (rest.follow_factor_factors hf), ihr h.2 hf⟩
  | number lexeme literal hl => trivial
  | application name arguments ih => exact ih h hf
  | group inner ih =>
      exact ih h (follow_expression_closer (by decide))
  | noArgument => exact h
  | andArgument argument rest iha ihr =>
      refine ⟨iha h.1 ?_, ihr h.2 hf⟩
      exact follow_expression_closer (by decide)

/-- A maximal derivation is greedy. -/
theorem Maximal.greedy {c : Category} {d : Derivation c} {follow : List Token}
    (h : d.Maximal follow) : d.Greedy follow := by
  induction d generalizing follow with
  | endOfText => trivial
  | lineEnd rest ih => exact ih h
  | statement first rest ihf ihr => exact ⟨ihf h.1, ihr h.2⟩
  | binding name value ih => exact ih h
  | function parameter body ih => exact ih h
  | ifElse condition consequence alternative ihc iht ihe => exact ⟨ihc h.1, iht h.2.1, ihe h.2.2⟩
  | sum first rest ihf ihr => exact ⟨ihf h.2.1, ihr h.2.2⟩
  | noTerm => trivial
  | andTerm op hop right rest ihf ihr => exact ⟨ihf h.1, ihr h.2⟩
  | product first rest ihf ihr => exact ⟨ihf h.1, ihr h.2⟩
  | noFactor => trivial
  | andFactor op hop right rest ihf ihr => exact ⟨ihf h.1, ihr h.2⟩
  | number lexeme literal hl => trivial
  | application name arguments ih => exact ih h
  | group inner ih => exact ih h
  | noArgument => exact h
  | andArgument argument rest iha ihr => exact ⟨iha h.1, ihr h.2⟩

end Derivation

end Mapsto.Grammar
