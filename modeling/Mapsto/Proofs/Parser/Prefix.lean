import Mapsto.Proofs.Parser.Steps

/-!
# `Mapsto.Proofs.Parser.Prefix` — parsing the first tokens of a text

When more tokens are put behind a text, the parser does the same as before until it has read all of the text
there was. It looks at most one token beyond those that it takes, so what it has found before it comes to
the last token stays as it is, results and mistakes alike. What may change is the end: an expression that took the
last token may go on, and whatever is missing at the end of a text may still come (`Undecided`).

`Extends` says this of one step, and there is a lemma for each rule. A mistake that was found at a token
that stands there is never undecided: no rule goes on to look at a token after a result that took the last
one. So such a mistake is the one that is found whatever follows (`program_append_of_isAtToken`). An end of
line where an expression has to stand needs care, because it is reported after it was taken: it is a result
that stays although nothing is left (`Item.IsLineEnd`).
-/

namespace Mapsto

/-- Whether a mistake was found at a token that stands there. The others are about what is missing at the end
of a text, and about depth. -/
def ParseError.isAtToken : ParseError → Bool
  | unexpected _ => true
  | expected _ _ => true
  | expectedExpression _ => true
  | invalidNumber _ _ => true
  | unexpectedEnd _ _ => false
  | tooDeeplyNested _ _ => false

namespace Parser

variable {α β : Type}

/-! ## Steps with more tokens behind -/

/-- What may change if more tokens follow: a result that took the last token, unless it is settled, and a
mistake that was not found at a token. -/
inductive Undecided (Settled : α → Prop) : EStateM.Result ParseError Tokens α → Prop where
  | ok (a : α) (h : ¬ Settled a) : Undecided Settled (.ok a [])
  | error (e : ParseError) (rest : Tokens) (h : e.isAtToken = false) : Undecided Settled (.error e rest)

/-- The second end of a step is the first one, with the tokens `more` behind, unless the first one is
undecided. A result leaves fewer than `n` tokens of the text. -/
inductive Extends (more : Tokens) (n : Nat) (Settled : α → Prop) :
    EStateM.Result ParseError Tokens α → EStateM.Result ParseError Tokens α → Prop where
  | ok (a : α) (rest : Tokens) (hrest : rest.length < n) :
    Extends more n Settled (.ok a rest) (.ok a (rest ++ more))
  | error (e : ParseError) (rest : Tokens) : Extends more n Settled (.error e rest) (.error e (rest ++ more))
  | undecided {r : EStateM.Result ParseError Tokens α} (r' : EStateM.Result ParseError Tokens α)
    (h : Undecided Settled r) : Extends more n Settled r r'

/-- No result is settled as long as it may be that it goes on. -/
abbrev Never : α → Prop := fun _ => False

/-- An end of line is the whole of what stands where an expression may stand. -/
def Item.IsLineEnd : Item → Prop
  | expr _ => False
  | lineEnd _ => True

variable {more ts : Tokens} {n m : Nat} {Settled : α → Prop} {Settled' : β → Prop}

theorem Undecided.bind {p : Parse α} {f : α → Parse β} (hp : Undecided Settled (p ts))
    (hf : ∀ a, ¬ Settled a → Undecided Settled' (f a [])) : Undecided Settled' ((p >>= f) ts) := by
  rw [bind_apply]
  generalize p ts = first at hp
  cases hp with
  | ok a h => exact hf a h
  | error e rest h => exact .error e rest h

theorem Extends.mono {r r' : EStateM.Result ParseError Tokens α} (h : Extends more n Settled r r')
    (hnm : n ≤ m) : Extends more m Settled r r' := by
  cases h with
  | ok a rest hrest => exact .ok a rest (Nat.lt_of_lt_of_le hrest hnm)
  | error e rest => exact .error e rest
  | undecided _ h => exact .undecided _ h

/-- **One step after the other.** Where the first step may have come to something else, the second one must
have found nothing that is certain. -/
theorem Extends.bind {p p' : Parse α} {f f' : α → Parse β} {ts' : Tokens}
    (hp : Extends more n Settled (p ts) (p' ts'))
    (hf : ∀ a rest, rest.length < n → Extends more m Settled' (f a rest) (f' a (rest ++ more)))
    (hend : ∀ a, ¬ Settled a → Undecided Settled' (f a [])) :
    Extends more m Settled' ((p >>= f) ts) ((p' >>= f') ts') := by
  rw [bind_apply, bind_apply]
  generalize p ts = first at hp
  generalize p' ts' = first' at hp
  cases hp with
  | ok a rest hrest => exact hf a rest hrest
  | error e rest => exact .error e rest
  | undecided _ h =>
      refine .undecided _ ?_
      cases h with
      | ok a h => exact hend a h
      | error e rest h => exact .error e rest h

/-- A tree where an expression may stand. -/
theorem Extends.found {p p' : Parse Measured} {ts' : Tokens} (h : Extends more n Never (p ts) (p' ts')) :
    Extends more n Item.IsLineEnd ((p >>= fun tree => pure (.expr tree)) ts)
      ((p' >>= fun tree => pure (.expr tree)) ts') := by
  refine h.bind ?_ ?_
  · intro tree rest hrest
    exact .ok _ rest hrest
  · intro tree _
    exact .ok _ id

section Rules

variable {s s' : Setting} (hlimit : s.limit = s'.limit) {sub sub' : Parse Measured}
  (hsub : ∀ ts, Extends more ts.length Never (sub ts) (sub' (ts ++ more)))

/-! ## Where no token is left -/

/-- A token that is missing may still come. -/
theorem undecided_expect (want : Token) (f : Unit → Parse β) :
    Undecided Settled' ((expect s want >>= f) []) :=
  .error _ [] rfl

theorem undecided_checked (start : Tokens) (tree : Measured) : Undecided Never (checked s start tree []) := by
  unfold checked
  by_cases hheight : s.limit < tree.height
  · rw [if_pos hheight]
    cases start with
    | nil => exact .error _ [] rfl
    | cons token start => exact .error _ [] rfl
  · rw [if_neg hheight]
    exact .ok tree id

theorem arguments_nil_apply (start clock : Tokens) (callee : Measured) :
    arguments s sub start clock callee [] = .ok callee [] := by
  cases clock <;> rfl

theorem chain_nil_apply (operator? : Token → Option Operator) (operand : Parse Item) (start clock : Tokens)
    (left : Measured) : chain s operator? operand start clock left [] = .ok left [] := by
  cases clock <;> rfl

theorem undecided_tree {p : Parse Measured} (h : Undecided Never (p ts)) :
    Undecided Item.IsLineEnd ((p >>= fun tree => pure (.expr tree)) ts) := by
  refine h.bind fun tree _ => ?_
  exact .ok _ id

/-! ## The rules of the grammar -/

theorem extends_expect (want : Token) (ts : Tokens) :
    Extends more ts.length (fun _ => True) (expect s want ts) (expect s' want (ts ++ more)) := by
  cases ts with
  | nil => exact .undecided _ (.error _ [] rfl)
  | cons token rest =>
      rw [List.cons_append]
      unfold expect
      rw [get_bind_apply, get_bind_apply]
      by_cases htoken : token.value = want
      · simp only [if_pos htoken]
        exact .ok _ rest (Nat.lt_succ_self _)
      · simp only [if_neg htoken]
        exact .error _ (token :: rest)

include hlimit

theorem extends_checked (start start' : Tokens) (tree : Measured) (ts : Tokens) :
    Extends more (ts.length + 1) Never (checked s start tree ts) (checked s' start' tree (ts ++ more)) := by
  unfold checked
  rw [hlimit]
  by_cases hheight : s'.limit < tree.height
  · rw [if_pos hheight, if_pos hheight]
    cases start with
    | nil => exact .undecided _ (.error _ ts rfl)
    | cons token start => exact .undecided _ (.error _ ts rfl)
  · rw [if_neg hheight, if_neg hheight]
    exact .ok tree ts (Nat.lt_succ_self _)

include hsub

theorem extends_arguments (start start' clock clock' : Tokens) (callee : Measured) {ts : Tokens}
    (hclock : ts.length ≤ clock.length) (hclock' : (ts ++ more).length ≤ clock'.length) :
    Extends more (ts.length + 1) Never (arguments s sub start clock callee ts)
      (arguments s' sub' start' clock' callee (ts ++ more)) := by
  -- No round gives tokens back, so that both clocks stay long enough.
  induction clock generalizing clock' callee ts with
  | nil =>
      obtain rfl := List.eq_nil_of_length_eq_zero (Nat.le_zero.mp hclock)
      rw [arguments_nil_apply]
      exact .undecided _ (.ok callee id)
  | cons c clock ih =>
      cases ts with
      | nil =>
          rw [arguments_nil_apply]
          exact .undecided _ (.ok callee id)
      | cons token rest =>
          simp only [List.cons_append, List.length_cons, List.length_append] at hclock hclock'
          obtain ⟨c', clock', rfl⟩ := List.exists_cons_of_length_pos (l := clock') (by omega)
          rw [List.length_cons] at hclock'
          rw [List.cons_append, arguments, arguments, get_bind_apply, get_bind_apply]
          obtain ⟨value, span⟩ := token
          cases value with
          | leftParen =>
              simp only [set_bind_apply]
              refine (hsub rest).bind ?_ fun _ _ => undecided_expect _ _
              intro argument after hafter
              refine (extends_expect .rightParen after).bind ?_ fun _ h => absurd trivial h
              intro _ behind hbehind
              refine (extends_checked hlimit start start' _ behind).bind ?_ ?_
              · intro call left hleft
                have hmore : (left ++ more).length ≤ clock'.length := by
                  rw [List.length_append]
                  omega
                refine (ih clock' call (by omega) hmore).mono ?_
                rw [List.length_cons]
                omega
              · intro call _
                rw [arguments_nil_apply]
                exact .ok call id
          | _ => exact .ok callee (_ :: rest) (Nat.lt_succ_self _)

theorem extends_factor (ts : Tokens) :
    Extends more ts.length Item.IsLineEnd (factor s sub ts) (factor s' sub' (ts ++ more)) := by
  cases ts with
  | nil => exact .undecided _ (.error _ [] rfl)
  | cons token rest =>
      rw [List.cons_append]
      unfold factor
      rw [get_bind_apply, get_bind_apply]
      obtain ⟨value, span⟩ := token
      cases value with
      | number lexeme =>
          simp only [set_bind_apply]
          cases literal? lexeme with
          | some e => exact .ok _ rest (Nat.lt_succ_self _)
          | none => exact .error _ rest
      | identifier name =>
          simp only [set_bind_apply]
          exact (extends_arguments hlimit hsub _ _ _ _ _ (Nat.le_refl _) (Nat.le_refl _)).found
      | leftParen =>
          simp only [set_bind_apply]
          refine (hsub rest).bind ?_ fun _ _ => undecided_expect _ _
          intro tree after hafter
          refine (extends_expect .rightParen after).bind ?_ fun _ h => absurd trivial h
          intro _ behind hbehind
          refine .ok _ behind ?_
          rw [List.length_cons]
          omega
      | endLine => exact .ok _ rest (Nat.lt_succ_self _)
      | _ => exact .error _ (_ :: rest)

omit hsub

variable {operator? : Token → Option Operator} {operand operand' : Parse Item}
  (hoperand : ∀ ts, Extends more ts.length Item.IsLineEnd (operand ts) (operand' (ts ++ more)))

include hoperand

theorem extends_chain (start start' clock clock' : Tokens) (left : Measured) {ts : Tokens}
    (hclock : ts.length ≤ clock.length) (hclock' : (ts ++ more).length ≤ clock'.length) :
    Extends more (ts.length + 1) Never (chain s operator? operand start clock left ts)
      (chain s' operator? operand' start' clock' left (ts ++ more)) := by
  induction clock generalizing clock' left ts with
  | nil =>
      obtain rfl := List.eq_nil_of_length_eq_zero (Nat.le_zero.mp hclock)
      rw [chain_nil_apply]
      exact .undecided _ (.ok left id)
  | cons c clock ih =>
      cases ts with
      | nil =>
          rw [chain_nil_apply]
          exact .undecided _ (.ok left id)
      | cons token rest =>
          simp only [List.cons_append, List.length_cons, List.length_append] at hclock hclock'
          obtain ⟨c', clock', rfl⟩ := List.exists_cons_of_length_pos (l := clock') (by omega)
          rw [List.length_cons] at hclock'
          rw [List.cons_append, chain, chain, get_bind_apply, get_bind_apply]
          cases hoperator : operator? token.value with
          | none =>
              simp only [hoperator]
              exact .ok left (token :: rest) (Nat.lt_succ_self _)
          | some op =>
              simp only [hoperator, set_bind_apply]
              refine (hoperand rest).bind ?_ ?_
              · intro item after hafter
                cases item with
                | lineEnd got => exact .error _ after
                | expr right =>
                    refine (extends_checked hlimit start start' _ after).bind ?_ ?_
                    · intro tree behind hbehind
                      have hmore : (behind ++ more).length ≤ clock'.length := by
                        rw [List.length_append]
                        omega
                      refine (ih clock' tree (by omega) hmore).mono ?_
                      rw [List.length_cons]
                      omega
                    · intro tree _
                      rw [chain_nil_apply]
                      exact .ok tree id
              · intro item hitem
                cases item with
                | lineEnd got => exact absurd trivial hitem
                | expr right =>
                    refine (undecided_checked start _).bind fun tree _ => ?_
                    rw [chain_nil_apply]
                    exact .ok tree id

theorem extends_leftAssociative (ts : Tokens) :
    Extends more ts.length Item.IsLineEnd (leftAssociative s operator? operand ts)
      (leftAssociative s' operator? operand' (ts ++ more)) := by
  unfold leftAssociative
  rw [get_bind_apply, get_bind_apply]
  refine (hoperand ts).bind ?_ ?_
  · intro item rest hrest
    cases item with
    | lineEnd got => exact .ok _ rest hrest
    | expr left =>
        have hchain : Extends more (rest.length + 1) Never
            (chain s operator? operand ts rest left rest)
            (chain s' operator? operand' (ts ++ more) (rest ++ more) left (rest ++ more)) :=
          extends_chain hlimit hoperand ts (ts ++ more) rest (rest ++ more) left (Nat.le_refl _)
            (Nat.le_refl _)
        exact (hchain.mono hrest).found
  · intro item hitem
    cases item with
    | lineEnd got => exact absurd trivial hitem
    | expr left =>
        refine undecided_tree (p := chain s operator? operand ts [] left) ?_
        rw [chain_nil_apply]
        exact .ok left id

omit hoperand

include hsub

theorem extends_term (ts : Tokens) :
    Extends more ts.length Item.IsLineEnd (term s sub ts) (term s' sub' (ts ++ more)) :=
  extends_leftAssociative hlimit (extends_factor hlimit hsub) ts

theorem extends_sum (ts : Tokens) :
    Extends more ts.length Item.IsLineEnd (sum s sub ts) (sum s' sub' (ts ++ more)) :=
  extends_leftAssociative hlimit (extends_term hlimit hsub) ts

omit hlimit hsub

/-- Whether a sum starts is known from the first two tokens, or from the first one, if that is no name. -/
theorem StartsSum.append (h : StartsSum ts) (hne : ts ≠ [])
    (hname : ∀ name span, ts ≠ [⟨.identifier name, span⟩]) (more : Tokens) : StartsSum (ts ++ more) := by
  obtain ⟨token, rest, rfl⟩ := List.exists_cons_of_ne_nil hne
  rw [List.cons_append]
  constructor
  · intro name span span' mid heq
    cases rest with
    | nil => exact hname name span (congrArg (· :: []) (List.cons.inj heq).1)
    | cons second rest =>
        cases heq
        exact h.not_binding name span span' rest rfl
  · intro name span span' mid heq
    cases rest with
    | nil => exact hname name span (congrArg (· :: []) (List.cons.inj heq).1)
    | cons second rest =>
        cases heq
        exact h.not_function name span span' rest rfl
  · intro span mid heq
    obtain ⟨rfl, -⟩ := List.cons.inj heq
    exact h.not_ifElse span rest rfl

include hlimit hsub

/-- A binding or a function, behind its sign: one expression, and a node on top of it. -/
theorem extends_headed (start start' : Tokens) (make : Measured → Measured) (ts : Tokens) :
    Extends more ts.length Item.IsLineEnd
      ((do
        let below ← sub
        let tree ← checked s start (make below)
        pure (.expr tree) : Parse Item) ts)
      ((do
        let below ← sub'
        let tree ← checked s' start' (make below)
        pure (.expr tree) : Parse Item) (ts ++ more)) := by
  refine (hsub ts).bind ?_ ?_
  · intro below rest hrest
    exact ((extends_checked hlimit start start' (make below) rest).mono hrest).found
  · intro below _
    exact undecided_tree (undecided_checked start (make below))

theorem extends_ifElse (start start' : Tokens) (ts : Tokens) :
    Extends more ts.length Item.IsLineEnd
      ((do
        let condition ← sub
        expect s .thenWord
        let consequence ← sub
        expect s .elseWord
        let alternative ← sub
        let tree ← checked s start
          ⟨.ifElse condition.expr consequence.expr alternative.expr,
            max (max condition.height consequence.height) alternative.height + 1⟩
        pure (.expr tree) : Parse Item) ts)
      ((do
        let condition ← sub'
        expect s' .thenWord
        let consequence ← sub'
        expect s' .elseWord
        let alternative ← sub'
        let tree ← checked s' start'
          ⟨.ifElse condition.expr consequence.expr alternative.expr,
            max (max condition.height consequence.height) alternative.height + 1⟩
        pure (.expr tree) : Parse Item) (ts ++ more)) := by
  refine (hsub ts).bind ?_ fun _ _ => undecided_expect _ _
  intro condition ts₁ h₁
  refine (extends_expect .thenWord ts₁).bind ?_ fun _ h => absurd trivial h
  intro _ ts₂ h₂
  refine (hsub ts₂).bind ?_ fun _ _ => undecided_expect _ _
  intro consequence ts₃ h₃
  refine (extends_expect .elseWord ts₃).bind ?_ fun _ h => absurd trivial h
  intro _ ts₄ h₄
  have hlast := extends_headed hlimit hsub start start' (fun alternative =>
    ⟨.ifElse condition.expr consequence.expr alternative.expr,
      max (max condition.height consequence.height) alternative.height + 1⟩) ts₄
  exact hlast.mono (by omega)

theorem extends_expression (ts : Tokens) :
    Extends more ts.length Item.IsLineEnd (expression s sub ts) (expression s' sub' (ts ++ more)) := by
  rcases startsSum_or ts with ⟨name, span, span', rest, rfl⟩ | ⟨parameter, span, span', rest, rfl⟩ |
    ⟨span, rest, rfl⟩ | hstarts
  · have hbinding := extends_headed hlimit hsub (⟨.identifier name, span⟩ :: ⟨.binding, span'⟩ :: rest)
      (⟨.identifier name, span⟩ :: ⟨.binding, span'⟩ :: (rest ++ more))
      (fun value => ⟨.binding name value.expr, value.height + 1⟩) rest
    refine hbinding.mono ?_
    simp only [List.length_cons]
    omega
  · have hfunction := extends_headed hlimit hsub (⟨.identifier parameter, span⟩ :: ⟨.mapsTo, span'⟩ :: rest)
      (⟨.identifier parameter, span⟩ :: ⟨.mapsTo, span'⟩ :: (rest ++ more))
      (fun body => ⟨.function parameter body.expr, body.height + 1⟩) rest
    refine hfunction.mono ?_
    simp only [List.length_cons]
    omega
  · have hchoice := extends_ifElse hlimit hsub (⟨.ifWord, span⟩ :: rest)
      (⟨.ifWord, span⟩ :: (rest ++ more)) rest
    exact hchoice.mono (Nat.le_succ _)
  · by_cases hne : ts = []
    · subst hne
      exact .undecided _ (.error _ [] rfl)
    by_cases hname : ∃ name span, ts = [⟨.identifier name, span⟩]
    · -- With another token behind it, a name may start a binding or a function, or be applied.
      obtain ⟨name, span, rfl⟩ := hname
      exact .undecided _ (.ok (Item.expr ⟨.var name, 1⟩) id)
    · have hmore : StartsSum (ts ++ more) :=
        hstarts.append hne (fun name span heq => hname ⟨name, span, heq⟩) more
      rw [expression_of_startsSum hstarts, expression_of_startsSum hmore]
      exact extends_sum hlimit hsub ts

omit hsub

/-! ## Whole texts -/

theorem extends_required (places : Nat) (ts : Tokens) :
    Extends more ts.length Never (required s places ts) (required s' places (ts ++ more)) := by
  induction places generalizing ts with
  | zero =>
      cases ts with
      | nil => exact .undecided _ (.error _ [] rfl)
      | cons token rest => exact .undecided _ (.error _ (token :: rest) rfl)
  | succ places ih =>
      refine (extends_expression hlimit ih ts).bind ?_ ?_
      · intro item rest hrest
        cases item with
        | expr tree => exact .ok tree rest hrest
        | lineEnd got => exact .error _ rest
      · intro item hitem
        cases item with
        | expr tree => exact .ok tree id
        | lineEnd got => exact absurd trivial hitem

theorem extends_statements (clock clock' : Tokens) {ts : Tokens} (hclock : ts.length ≤ clock.length)
    (hclock' : (ts ++ more).length ≤ clock'.length) :
    Extends more (ts.length + 1) Never (statements s clock ts) (statements s' clock' (ts ++ more)) := by
  have hnil : ∀ clock : Tokens, statements s clock [] = .ok [] [] := by
    intro clock
    cases clock <;> rfl
  induction clock generalizing clock' ts with
  | nil =>
      obtain rfl := List.eq_nil_of_length_eq_zero (Nat.le_zero.mp hclock)
      exact .undecided _ (.ok [] id)
  | cons c clock ih =>
      cases ts with
      | nil =>
          rw [hnil]
          exact .undecided _ (.ok [] id)
      | cons token rest =>
          have hrequired : ∀ ts : Tokens, Extends more ts.length Never (required s s.limit ts)
              (required s' s.limit (ts ++ more)) := extends_required hlimit s.limit
          have hexpression := extends_expression hlimit hrequired (token :: rest)
          simp only [List.cons_append, List.length_cons, List.length_append] at hclock hclock'
          obtain ⟨c', clock', rfl⟩ := List.exists_cons_of_length_pos (l := clock') (by omega)
          rw [List.length_cons] at hclock'
          rw [List.cons_append, statements, statements, get_bind_apply, get_bind_apply, ← hlimit]
          refine hexpression.bind ?_ ?_
          · intro item after hafter
            rw [List.length_cons] at hafter
            have hmore : (after ++ more).length ≤ clock'.length := by
              rw [List.length_append]
              omega
            have hrest := (ih clock' (by omega) hmore).mono
              (by rw [List.length_cons]; omega : after.length + 1 ≤ (token :: rest).length + 1)
            cases item with
            | lineEnd got => exact hrest
            | expr tree =>
                refine hrest.bind ?_ ?_
                · intro program left hleft
                  exact .ok (tree.expr :: program) left hleft
                · intro program _
                  exact .ok (tree.expr :: program) id
          · intro item hitem
            cases item with
            | lineEnd got => exact absurd trivial hitem
            | expr tree =>
                have hnone : Undecided Never (statements s clock []) := by
                  rw [hnil]
                  exact .ok [] id
                refine hnone.bind ?_
                intro program _
                exact .ok (tree.expr :: program) id

end Rules

/-- **A mistake that was found stays.** If the parser finds a mistake at a token that stands there, then it finds
the same mistake there whatever tokens follow, and leaves the same tokens and those that follow. -/
theorem program_append_of_isAtToken (ts more : Tokens) {e : ParseError}
    (h : (ofTokens ts).program.1 = .error e) (hfound : e.isAtToken = true) :
    (ofTokens (ts ++ more)).program =
      (.error e, ⟨(ofTokens ts).program.2.tokens ++ more, endOf (ts ++ more)⟩) := by
  have hlimit : (⟨maxDepth, endOf ts⟩ : Setting).limit = (⟨maxDepth, endOf (ts ++ more)⟩ : Setting).limit :=
    rfl
  have hextends : Extends more (ts.length + 1) Never (statements ⟨maxDepth, endOf ts⟩ ts ts)
      (statements ⟨maxDepth, endOf (ts ++ more)⟩ (ts ++ more) (ts ++ more)) :=
    extends_statements hlimit ts (ts ++ more) (Nat.le_refl _) (Nat.le_refl _)
  unfold program programWithin ofTokens at h ⊢
  simp only at h ⊢
  generalize statements ⟨maxDepth, endOf ts⟩ ts ts = first at h hextends ⊢
  generalize statements ⟨maxDepth, endOf (ts ++ more)⟩ (ts ++ more) (ts ++ more) = second at hextends ⊢
  cases hextends with
  | ok p rest => cases h
  | error e' rest =>
      cases h
      rfl
  | undecided _ hundecided =>
      cases hundecided with
      | ok p => cases h
      | error e' rest hopen =>
          cases h
          rw [hfound] at hopen
          cases hopen

/-- An end of line behind an operator, with an operand on the next line. The mistake is the last token of the
text. -/
theorem program_append_lineEnd :
    let ts : Tokens := [⟨.number "1", ⟨0, 1⟩⟩, ⟨.plus, ⟨2, 3⟩⟩, ⟨.endLine, ⟨3, 4⟩⟩]
    let more : Tokens := [⟨.number "2", ⟨4, 5⟩⟩]
    let e : ParseError := .expectedExpression ⟨.endLine, ⟨3, 4⟩⟩
    (ofTokens ts).program.1 = .error e ∧ e.isAtToken = true ∧
      (ofTokens (ts ++ more)).program = (.error e, ⟨more, .point 5⟩) := by
  intro ts more e
  have h : (ofTokens ts).program.1 = .error e := rfl
  refine ⟨h, rfl, ?_⟩
  exact program_append_of_isAtToken ts more h rfl

/-- What is missing at the end may follow. -/
example :
    let ts : Tokens := [⟨.identifier "f", ⟨0, 1⟩⟩, ⟨.leftParen, ⟨1, 2⟩⟩, ⟨.identifier "x", ⟨2, 3⟩⟩]
    Program.parse ts = .error (.unexpectedEnd "`)`" (.point 3)) ∧
      Program.parse (ts ++ [⟨.rightParen, ⟨3, 4⟩⟩]) = .ok [.call (.var "f") (.var "x")] :=
  ⟨rfl, rfl⟩

end Parser

end Mapsto
