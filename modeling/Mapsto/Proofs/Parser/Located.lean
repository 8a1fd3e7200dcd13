import Mapsto.Proofs.Lexer.Exact
import Mapsto.Proofs.Parser.Steps

/-!
# `Mapsto.Proofs.Parser.Located` — mistakes point at the text

What a parser has left to read is always the end of the tokens it began with. So the tokens that a step sees
or has just taken, and those that it was given as the start of a tree, are tokens of the text, at their places
there; and the complaints that it makes are made from such tokens, or from the place behind the last one.
`Blames` lists them, each with what is left to read when it is made: an unexpected token is still there, an
end of line in the place of an expression has just been taken, and nothing is left where something is
missing at the end.

`Located` says this of one step, and there is a lemma for each rule. What a mistake says about characters of
the text follows from what reading says about tokens (`Mapsto.Proofs.Lexer.Exact`): its place is a stretch of
the text, and what it quotes stands there (`program_error_pointsInto`).
-/

namespace Mapsto

/-! ## What a mistake is about -/

namespace ParseError

/-- The place that a mistake gives. -/
def span : ParseError → Span
  | unexpected token => token.span
  | expected _ got => got.span
  | expectedExpression got => got.span
  | unexpectedEnd _ span => span
  | invalidNumber _ span => span
  | tooDeeplyNested _ span => span

/-- The token that a mistake quotes. -/
def token? : ParseError → Option (Spanned Token)
  | unexpected token => some token
  | expected _ got => some got
  | expectedExpression got => some got
  | unexpectedEnd _ _ => none
  | invalidNumber lexeme span => some ⟨.number lexeme, span⟩
  | tooDeeplyNested _ _ => none

end ParseError

namespace Parser

variable {α β : Type} {s : Setting} {all ts : Tokens}

/-- What a mistake may say that is missing: an expression, or a token that a rule asks for. -/
def wanted : List String := "an expression" :: [Token.rightParen, .thenWord, .elseWord].map Token.describe

/-- The mistakes that may be found in the tokens `all` where those of `left` are still to be read. -/
inductive Blames (s : Setting) (all : Tokens) : (left : Tokens) → ParseError → Prop where
  | unexpected {token : Spanned Token} {rest : Tokens} (h : token :: rest <:+ all) :
      Blames s all (token :: rest) (.unexpected token)
  | expected {what : String} (hwhat : what ∈ wanted) {token : Spanned Token} {rest : Tokens}
      (h : token :: rest <:+ all) : Blames s all (token :: rest) (.expected what token)
  | expectedExpression {span : Span} {left : Tokens} (h : ⟨.endLine, span⟩ :: left <:+ all) :
      Blames s all left (.expectedExpression ⟨.endLine, span⟩)
  | unexpectedEnd {what : String} (hwhat : what ∈ wanted) : Blames s all [] (.unexpectedEnd what s.atEnd)
  | invalidNumber {lexeme : String} {span : Span} {left : Tokens}
      (h : ⟨.number lexeme, span⟩ :: left <:+ all) : Blames s all left (.invalidNumber lexeme span)
  | tooDeep {start : Tokens} (left : Tokens) (h : start <:+ all) : Blames s all left (tooDeep s start)

/-- A step leaves an end of the tokens `all`, with a result that is `Good` there or with a mistake that may be
found there. -/
inductive Located (s : Setting) (all : Tokens) (Good : α → Tokens → Prop) :
    EStateM.Result ParseError Tokens α → Prop where
  | ok (a : α) (rest : Tokens) (hrest : rest <:+ all) (h : Good a rest) : Located s all Good (.ok a rest)
  | error (e : ParseError) (rest : Tokens) (h : Blames s all rest e) : Located s all Good (.error e rest)

/-- Of a tree nothing has to be known. -/
abbrev Anything : α → Tokens → Prop := fun _ _ => True

/-- An end of line has just been taken. -/
def Item.JustTaken (all : Tokens) : Item → Tokens → Prop
  | expr _, _ => True
  | lineEnd got, rest => got.value = .endLine ∧ got :: rest <:+ all

theorem suffix_of_cons {token : Spanned Token} {rest : Tokens} (h : token :: rest <:+ all) : rest <:+ all :=
  (List.suffix_cons token rest).trans h

theorem Blames.of_lineEnd {got : Spanned Token} {rest : Tokens} (h : (Item.lineEnd got).JustTaken all rest) :
    Blames s all rest (.expectedExpression got) := by
  obtain ⟨value, span⟩ := got
  obtain ⟨rfl, hrest⟩ := h
  exact .expectedExpression hrest

namespace Located

variable {Good : α → Tokens → Prop} {Good' : β → Tokens → Prop}

/-- **One step after the other.** The second step begins where the first one has left off. -/
theorem bind {p : Parse α} {f : α → Parse β} (hp : Located s all Good (p ts))
    (hf : ∀ a rest, rest <:+ all → Good a rest → Located s all Good' (f a rest)) :
    Located s all Good' ((p >>= f) ts) := by
  rw [bind_apply]
  generalize p ts = first at hp
  cases hp with
  | ok a rest hrest h => exact hf a rest hrest h
  | error e rest h => exact .error e rest h

/-- A tree where an expression may stand. -/
theorem found {p : Parse Measured} (h : Located s all Anything (p ts)) :
    Located s all (Item.JustTaken all) ((p >>= fun tree => pure (.expr tree)) ts) := by
  refine h.bind ?_
  intro tree rest hrest _
  exact .ok _ rest hrest trivial

end Located

/-! ## The rules of the grammar -/

theorem located_expect (want : Token) (hwant : want.describe ∈ wanted) (hts : ts <:+ all) :
    Located s all Anything (expect s want ts) := by
  unfold expect
  rw [get_bind_apply]
  cases ts with
  | nil => exact .error _ [] (.unexpectedEnd hwant)
  | cons token rest =>
      by_cases htoken : token.value = want
      · simp only [if_pos htoken]
        exact .ok _ rest (suffix_of_cons hts) trivial
      · simp only [if_neg htoken]
        exact .error _ _ (.expected hwant hts)

theorem located_checked {start : Tokens} (hstart : start <:+ all) (tree : Measured) (hts : ts <:+ all) :
    Located s all Anything (checked s start tree ts) := by
  unfold checked
  by_cases hheight : s.limit < tree.height
  · rw [if_pos hheight]
    exact .error _ ts (.tooDeep ts hstart)
  · rw [if_neg hheight]
    exact .ok tree ts hts trivial

section Rules

variable {sub : Parse Measured} (hsub : ∀ ts, ts <:+ all → Located s all Anything (sub ts))

include hsub

theorem located_arguments {start : Tokens} (hstart : start <:+ all) (clock : Tokens) (callee : Measured)
    (hts : ts <:+ all) : Located s all Anything (arguments s sub start clock callee ts) := by
  induction clock generalizing callee ts with
  | nil => exact .ok callee ts hts trivial
  | cons c clock ih =>
      rw [arguments, get_bind_apply]
      split
      · rename_i rest
        simp only [set_bind_apply]
        refine (hsub rest (suffix_of_cons hts)).bind ?_
        intro argument after hafter _
        refine (located_expect .rightParen (by decide) hafter).bind ?_
        intro _ behind hbehind _
        refine (located_checked hstart _ hbehind).bind ?_
        intro call left hleft _
        exact ih call hleft
      · exact .ok callee ts hts trivial

theorem located_factor (hts : ts <:+ all) : Located s all (Item.JustTaken all) (factor s sub ts) := by
  unfold factor
  rw [get_bind_apply]
  cases ts with
  | nil => exact .error _ [] (.unexpectedEnd (by decide))
  | cons token rest =>
      have hrest := suffix_of_cons hts
      obtain ⟨value, span⟩ := token
      cases value with
      | number lexeme =>
          simp only [set_bind_apply]
          cases literal? lexeme with
          | some e => exact .ok _ rest hrest trivial
          | none => exact .error _ rest (.invalidNumber hts)
      | identifier name =>
          simp only [set_bind_apply]
          exact (located_arguments hsub hts rest _ hrest).found
      | leftParen =>
          simp only [set_bind_apply]
          refine (hsub rest hrest).bind ?_
          intro tree after hafter _
          refine (located_expect .rightParen (by decide) hafter).bind ?_
          intro _ behind hbehind _
          exact .ok _ behind hbehind trivial
      | endLine => exact .ok _ rest hrest ⟨rfl, hts⟩
      | _ => exact .error _ _ (.unexpected hts)

omit hsub

section Chains

variable {operator? : Token → Option Operator} {operand : Parse Item}
  (hoperand : ∀ ts, ts <:+ all → Located s all (Item.JustTaken all) (operand ts))

include hoperand

theorem located_chain {start : Tokens} (hstart : start <:+ all) (clock : Tokens) (left : Measured)
    (hts : ts <:+ all) : Located s all Anything (chain s operator? operand start clock left ts) := by
  induction clock generalizing left ts with
  | nil => exact .ok left ts hts trivial
  | cons c clock ih =>
      rw [chain, get_bind_apply]
      cases ts with
      | nil => exact .ok left [] hts trivial
      | cons token rest =>
          cases hoperator : operator? token.value with
          | none =>
              simp only [hoperator]
              exact .ok left _ hts trivial
          | some op =>
              simp only [hoperator, set_bind_apply]
              refine (hoperand rest (suffix_of_cons hts)).bind ?_
              intro item after hafter htaken
              cases item with
              | lineEnd got => exact .error _ after (.of_lineEnd htaken)
              | expr right =>
                  refine (located_checked hstart _ hafter).bind ?_
                  intro tree behind hbehind _
                  exact ih tree hbehind

theorem located_leftAssociative (ts : Tokens) (hts : ts <:+ all) :
    Located s all (Item.JustTaken all) (leftAssociative s operator? operand ts) := by
  unfold leftAssociative
  rw [get_bind_apply]
  refine (hoperand ts hts).bind ?_
  intro item rest hrest htaken
  cases item with
  | lineEnd got => exact .ok _ rest hrest htaken
  | expr left => exact (located_chain hoperand hts rest left hrest).found

end Chains

include hsub

theorem located_sum (hts : ts <:+ all) : Located s all (Item.JustTaken all) (sum s sub ts) :=
  located_leftAssociative (located_leftAssociative fun _ hts => located_factor hsub hts) ts hts

/-- A binding or a function, behind its sign: one expression, and a node on top of it. -/
theorem located_headed {start : Tokens} (hstart : start <:+ all) (make : Measured → Measured)
    (hts : ts <:+ all) :
    Located s all (Item.JustTaken all)
      ((do
        let below ← sub
        let tree ← checked s start (make below)
        pure (.expr tree) : Parse Item) ts) := by
  refine (hsub ts hts).bind ?_
  intro below rest hrest _
  exact (located_checked hstart (make below) hrest).found

theorem located_expression (ts : Tokens) (hts : ts <:+ all) :
    Located s all (Item.JustTaken all) (expression s sub ts) := by
  rcases startsSum_or ts with ⟨name, span, span', rest, rfl⟩ | ⟨parameter, span, span', rest, rfl⟩ |
    ⟨span, rest, rfl⟩ | hstarts
  · exact located_headed hsub hts (fun value => ⟨.binding name value.expr, value.height + 1⟩)
      (suffix_of_cons (suffix_of_cons hts))
  · exact located_headed hsub hts (fun body => ⟨.function parameter body.expr, body.height + 1⟩)
      (suffix_of_cons (suffix_of_cons hts))
  · unfold expression
    rw [get_bind_apply]
    simp only [set_bind_apply]
    refine (hsub rest (suffix_of_cons hts)).bind ?_
    intro condition ts₁ h₁ _
    refine (located_expect .thenWord (by decide) h₁).bind ?_
    intro _ ts₂ h₂ _
    refine (hsub ts₂ h₂).bind ?_
    intro consequence ts₃ h₃ _
    refine (located_expect .elseWord (by decide) h₃).bind ?_
    intro _ ts₄ h₄ _
    exact located_headed hsub hts (fun alternative =>
      ⟨.ifElse condition.expr consequence.expr alternative.expr,
        max (max condition.height consequence.height) alternative.height + 1⟩) h₄
  · rw [expression_of_startsSum hstarts]
    exact located_sum hsub hts

end Rules

/-! ## Whole texts -/

theorem located_required (n : Nat) (ts : Tokens) (hts : ts <:+ all) :
    Located s all Anything (required s n ts) := by
  induction n generalizing ts with
  | zero => exact .error _ ts (.tooDeep ts hts)
  | succ n ih =>
      refine (located_expression ih ts hts).bind ?_
      intro item rest hrest htaken
      cases item with
      | expr tree => exact .ok tree rest hrest trivial
      | lineEnd got => exact .error _ rest (.of_lineEnd htaken)

/-- Wherever the expressions of a text are begun to be parsed, mistakes are about tokens of the text. -/
theorem located_statements (clock : Tokens) (hts : ts <:+ all) :
    Located s all Anything (statements s clock ts) := by
  induction clock generalizing ts with
  | nil => exact .ok [] ts hts trivial
  | cons c clock ih =>
      rw [statements, get_bind_apply]
      cases ts with
      | nil => exact .ok [] [] hts trivial
      | cons token rest =>
          refine (located_expression (located_required s.limit) _ hts).bind ?_
          intro item after hafter _
          cases item with
          | lineEnd got => exact ih hafter
          | expr tree =>
              refine (ih hafter).bind ?_
              intro program left hleft _
              exact .ok _ left hleft trivial

end Parser

/-! ## Places in a text -/

/-- A span is a stretch of a text, which may have no width. -/
def Span.Within (span : Span) (s : String) : Prop :=
  span.start ≤ span.stop ∧ span.stop ≤ s.utf8ByteSize ∧ span.OnBoundaries s

variable {s : String}

theorem Span.Within.point {span : Span} (h : span.Within s) : (Span.point span.stop).Within s :=
  ⟨Nat.le_refl _, h.2.1, h.2.2.2, h.2.2.2⟩

theorem Lexed.within_of_mem_tokens {t : Spanned Token} (h : t ∈ (ofString s).tokens) : t.span.Within s := by
  obtain ⟨word, follow, hplace, hword⟩ := exists_holds_of_mem_tokens h
  obtain ⟨c, cs, rfl, -⟩ := hword.exists_cons
  have hlt := hplace.start_lt_stop (List.cons_ne_nil c cs)
  have hboundaries := hplace.onBoundaries
  exact ⟨Nat.le_of_lt hlt, hboundaries.2.le_utf8ByteSize, hboundaries⟩

theorem Lexed.slice_of_mem_tokens {t : Spanned Token} (h : t ∈ (ofString s).tokens) :
    t.span.slice s = t.value.lexeme := by
  obtain ⟨word, follow, hplace, hword⟩ := exists_holds_of_mem_tokens h
  rw [hplace.slice_eq, hword.eq_lexeme, String.ofList_toList]

/-- What a mistake says about a text with these tokens, where those of `left` are still to be read. -/
structure ParseError.PointsInto (e : ParseError) (s : String) (tokens left : Parser.Tokens) : Prop where
  /-- It gives a place in the text. -/
  place : e.span.Within s
  /-- The token that it quotes is one of the text, and is what stands at that place. -/
  quoted : ∀ t, e.token? = some t → t ∈ tokens ∧ t.span = e.span ∧ e.span.slice s = t.value.lexeme
  /-- In the place of an expression that is required there is an end of line. -/
  lineEnd : ∀ got, e = .expectedExpression got → got.value = .endLine
  /-- Something is missing at the end only if nothing is left, and the place is behind the last token. -/
  atEnd : ∀ what span, e = .unexpectedEnd what span →
    left = [] ∧ ∃ last, tokens.getLast? = some last ∧ span = .point last.span.stop
  /-- What is too deep starts at a token, or at the end. -/
  deep : ∀ limit span, e = .tooDeeplyNested limit span →
    (∃ t ∈ tokens, span = t.span) ∨ ∃ last, tokens.getLast? = some last ∧ span = .point last.span.stop

namespace Parser

/-- Where a mistake quotes a token of the text and gives its place, the rest follows from what is known of
tokens. -/
theorem pointsInto_of_token? {e : ParseError} {t : Spanned Token} {left : Tokens}
    (ht : t ∈ (Lexed.ofString s).tokens) (htoken : e.token? = some t) (hspan : t.span = e.span)
    (hline : ∀ got, e = .expectedExpression got → got.value = .endLine) :
    e.PointsInto s (Lexed.ofString s).tokens left where
  place := hspan ▸ Lexed.within_of_mem_tokens ht
  quoted := by
    intro t' ht'
    obtain rfl : t = t' := Option.some.inj (htoken.symm.trans ht')
    exact ⟨ht, hspan, hspan ▸ Lexed.slice_of_mem_tokens ht⟩
  lineEnd := hline
  atEnd := by
    rintro what span rfl
    cases htoken
  deep := by
    rintro limit span rfl
    cases htoken

/-- A mistake that may be found in the tokens of a text points into the text. -/
theorem Blames.pointsInto {setting : Setting} {left : Tokens} {e : ParseError}
    (h : Blames setting (Lexed.ofString s).tokens left e)
    (hend : setting.atEnd = endOf (Lexed.ofString s).tokens) (hne : (Lexed.ofString s).tokens ≠ []) :
    e.PointsInto s (Lexed.ofString s).tokens left := by
  let last := (Lexed.ofString s).tokens.getLast hne
  have hlast : (Lexed.ofString s).tokens.getLast? = some last := List.getLast?_eq_some_getLast hne
  have hatEnd : setting.atEnd = .point last.span.stop := by
    rw [hend, endOf, hlast]
    rfl
  have hwithin : setting.atEnd.Within s := by
    rw [hatEnd]
    exact (Lexed.within_of_mem_tokens (List.mem_of_getLast? hlast)).point
  cases h with
  | unexpected h => exact pointsInto_of_token? (h.subset List.mem_cons_self) rfl rfl nofun
  | expected _ h => exact pointsInto_of_token? (h.subset List.mem_cons_self) rfl rfl nofun
  | expectedExpression h =>
      refine pointsInto_of_token? (h.subset List.mem_cons_self) rfl rfl ?_
      rintro _ ⟨⟩
      rfl
  | invalidNumber h => exact pointsInto_of_token? (h.subset List.mem_cons_self) rfl rfl nofun
  | unexpectedEnd _ =>
      refine ⟨hwithin, nofun, nofun, ?_, nofun⟩
      rintro _ _ ⟨⟩
      exact ⟨rfl, last, hlast, hatEnd⟩
  | @tooDeep start left hstart =>
      cases start with
      | nil =>
          refine ⟨hwithin, nofun, nofun, nofun, ?_⟩
          rintro _ _ ⟨⟩
          exact .inr ⟨last, hlast, hatEnd⟩
      | cons token rest =>
          have hmem : token ∈ (Lexed.ofString s).tokens := hstart.subset List.mem_cons_self
          refine ⟨Lexed.within_of_mem_tokens hmem, nofun, nofun, nofun, ?_⟩
          rintro _ _ ⟨⟩
          exact .inl ⟨token, hmem, rfl⟩

/-- A mistake that ends the parsing of a whole text may be found in its tokens where the parser stands. -/
theorem blames_of_program {tokens : Tokens} {e : ParseError} {p : Parser}
    (h : (ofTokens tokens).program = (.error e, p)) :
    Blames ⟨maxDepth, endOf tokens⟩ tokens p.tokens e := by
  have hlocated := located_statements (s := ⟨maxDepth, endOf tokens⟩) tokens (List.suffix_refl tokens)
  unfold program programWithin ofTokens at h
  simp only at h
  generalize statements ⟨maxDepth, endOf tokens⟩ tokens tokens = result at h hlocated
  cases hlocated with
  | ok program rest => cases h
  | error e' rest hblames =>
      cases h
      exact hblames

/-- **Mistakes point at the text.** A mistake that is found in the tokens of a text gives a place on boundaries
of its characters. If it quotes a token, that token stands there; and what stands where an expression is
required, but is none, is an end of line. Something is missing at the end only where every token has been
read, and the place is that behind the last one; whatever is too deep starts at a token, or there. -/
theorem program_error_pointsInto {e : ParseError} {p : Parser}
    (h : (ofTokens (Lexed.ofString s).tokens).program = (.error e, p)) :
    e.PointsInto s (Lexed.ofString s).tokens p.tokens := by
  have hne : (Lexed.ofString s).tokens ≠ [] := by
    intro hnil
    rw [hnil] at h
    cases h
  exact (blames_of_program h).pointsInto rfl hne

/-- The second operand is missing, behind a letter of two bytes. -/
theorem program_error_pointsInto_lineEnd :
    let s := "é := 3 *\n4"
    let e : ParseError := .expectedExpression ⟨.endLine, ⟨9, 10⟩⟩
    let p : Parser := ⟨[⟨.number "4", ⟨10, 11⟩⟩], .point 11⟩
    (ofTokens (Lexed.ofString s).tokens).program = (.error e, p) ∧
      e.PointsInto s (Lexed.ofString s).tokens p.tokens := by
  intro s e p
  have htokens : (Lexed.ofString s).tokens =
      [⟨.identifier "é", ⟨0, 2⟩⟩, ⟨.binding, ⟨3, 5⟩⟩, ⟨.number "3", ⟨6, 7⟩⟩, ⟨.star, ⟨8, 9⟩⟩,
        ⟨.endLine, ⟨9, 10⟩⟩, ⟨.number "4", ⟨10, 11⟩⟩] := by
    decide +kernel
  have h : (ofTokens (Lexed.ofString s).tokens).program = (.error e, p) := by
    rw [htokens]
    rfl
  exact ⟨h, program_error_pointsInto h⟩

end Parser

end Mapsto
