import Mapsto.Expr.Printer
import Mapsto.Proofs.Decimal.Integer
import Mapsto.Proofs.Grammar.Lines
import Mapsto.Proofs.Lexer.Spelling

/-!
# `Mapsto.Proofs.Grammar.Printed` — the tokens of a tree

Which trees do texts stand for, and which of them can be written in such a way that the same tree is read
again?

**Written trees.** Not every tree comes out of a text: names are as tokens have them, no literal is
negative, and only a name, or a name with arguments, is applied to something. `Expr.Written` says so, and
`Derivation.written` that every derivation of tokens that can be written stands for such a tree.

**Legible trees.** The printer puts no parentheses around a binding, which as an operand would take in
what stands behind it, and it may print a decimal in another form than it was read in. A tree without these
two (`Expr.Legible`) is read again from its tokens (`readsBack_of_legible`). The parentheses around an
operation are a required place; those around a function or a choice come on top of the place that its parts
stand in. So a tree of height `n` needs less than `2 * n` places, and half the height that is allowed is
never too deep.
-/

namespace Mapsto

open Lexer

namespace Expr

/-- A name, or a name with arguments. -/
def IsCall : Expr → Prop
  | .var _ => True
  | .call _ _ => True
  | _ => False

def IsBinding : Expr → Prop
  | .binding _ _ => True
  | _ => False

/-- A tree that some text may stand for. -/
def Written : Expr → Prop
  | .integer n => 0 ≤ n.toInt
  | .float _ => True
  | .var name => IsName name.toList
  | .binding name value => IsName name.toList ∧ value.Written
  | .function parameter body => IsName parameter.toList ∧ body.Written
  | .call callee argument => callee.IsCall ∧ callee.Written ∧ argument.Written
  | .binary _ left right => left.Written ∧ right.Written
  | .ifElse condition consequence alternative =>
    condition.Written ∧ consequence.Written ∧ alternative.Written

/-- No decimal stands in a tree, and no binding is an operand. -/
def Legible : Expr → Prop
  | .integer _ => True
  | .float _ => False
  | .var _ => True
  | .binding _ value => value.Legible
  | .function _ body => body.Legible
  | .call callee argument => callee.Legible ∧ argument.Legible
  | .binary _ left right => (¬ left.IsBinding ∧ ¬ right.IsBinding) ∧ left.Legible ∧ right.Legible
  | .ifElse condition consequence alternative =>
    condition.Legible ∧ consequence.Legible ∧ alternative.Legible

/-- The tokens that a tree is printed as. -/
def tokens : Expr → List Token
  | .integer n => [.number (Int.repr n.toInt)]
  | .float x => [.number (literalStyle.text x)]
  | .var name => [.identifier name]
  | .binding name value => .identifier name :: .binding :: value.tokens
  | .function parameter body =>
    .leftParen :: .identifier parameter :: .mapsTo :: body.tokens ++ [.rightParen]
  | .call callee argument => callee.tokens ++ .leftParen :: argument.tokens ++ [.rightParen]
  | .binary op left right =>
    .leftParen :: left.tokens ++ op.token :: right.tokens ++ [.rightParen]
  | .ifElse condition consequence alternative =>
    .leftParen :: .ifWord :: condition.tokens ++ .thenWord :: consequence.tokens ++
      .elseWord :: alternative.tokens ++ [.rightParen]

end Expr

/-- The tokens that a program is printed as: an end of line stands between its expressions. -/
def Program.tokens (program : Program) : List Token :=
  [Token.endLine].intercalate (program.map Expr.tokens)

/-! ## Literals -/

theorem Lexer.point_not_mem_of_isDigit {cs : List Char} (h : ∀ c ∈ cs, Text.isDigit c = true) :
    '.' ∉ cs :=
  fun hmem => absurd (h '.' hmem) (by decide)

/-- A numeral that can be written stands for no negative integer. -/
theorem Parser.written_of_literal? {lexeme : String} {e : Expr} (hlexeme : IsNumeral lexeme.toList)
    (h : literal? lexeme = some e) : e.Written := by
  obtain ⟨digits, hne, hdigits, hcs | ⟨places, hcs, -⟩⟩ := hlexeme
  · rw [literal?, hcs, if_neg (point_not_mem_of_isDigit hdigits), Option.map_eq_some_iff] at h
    obtain ⟨n, hn, rfl⟩ := h
    rw [← @String.ofList_toList lexeme, hcs] at hn
    exact Decimal.zero_le_toInt_of_readInteger hne hdigits hn
  · have hpoint : '.' ∈ lexeme.toList := by
      rw [hcs]
      exact List.mem_append_right _ List.mem_cons_self
    rw [literal?, if_pos hpoint, Option.map_eq_some_iff] at h
    obtain ⟨x, -, rfl⟩ := h
    trivial

/-- The text of an integer is a numeral that stands for it. -/
theorem Parser.literal?_repr {n : Int64} (h : 0 ≤ n.toInt) :
    literal? (Int.repr n.toInt) = some (.integer n) := by
  obtain ⟨cs, hcs, -, hdigits, -⟩ := Decimal.exists_digits h
  rw [literal?, Decimal.readInteger_repr h, hcs, String.toList_ofList,
    if_neg (point_not_mem_of_isDigit hdigits)]
  rfl

namespace Grammar

/-! ## Trees of derivations -/

/-- What is known of the meaning of tokens that can be written. What is repeated keeps it up. -/
def Category.Written : (c : Category) → c.Meaning → Prop
  | program, p => ∀ e ∈ p, e.Written
  | expression, e => e.Written
  | term, e => e.Written
  | factor, e => e.Written
  | terms, f => ∀ e : Expr, e.Written → (f e).Written
  | factors, f => ∀ e : Expr, e.Written → (f e).Written
  | arguments, f => ∀ e : Expr, e.IsCall → e.Written → (f e).Written

/-- **Written trees.** Tokens that can be written stand for a written tree. -/
theorem Derivation.written {c : Category} (d : Derivation c) (h : ∀ t ∈ d.yield, t.WellFormed) :
    c.Written d.tree := by
  induction d with
  | endOfText => nofun
  | lineEnd rest ih => exact ih (List.forall_mem_cons.mp h).2
  | statement first rest ih₁ ih₂ =>
      obtain ⟨hfirst, hrest⟩ := List.forall_mem_append.mp h
      exact List.forall_mem_cons.mpr ⟨ih₁ hfirst, ih₂ hrest⟩
  | binding name value ih =>
      obtain ⟨hname, hvalue⟩ := List.forall_mem_cons.mp h
      exact ⟨hname, ih (List.forall_mem_cons.mp hvalue).2⟩
  | function parameter body ih =>
      obtain ⟨hparameter, hbody⟩ := List.forall_mem_cons.mp h
      exact ⟨hparameter, ih (List.forall_mem_cons.mp hbody).2⟩
  | ifElse condition consequence alternative ih₁ ih₂ ih₃ =>
      simp only [yield, List.forall_mem_cons, List.forall_mem_append] at h
      exact ⟨ih₁ h.1.1.2, ih₂ h.1.2.2, ih₃ h.2.2⟩
  | sum first rest ih₁ ih₂ =>
      obtain ⟨hfirst, hrest⟩ := List.forall_mem_append.mp h
      exact ih₂ hrest _ (ih₁ hfirst)
  | noTerm => exact fun e he => he
  | andTerm op hop right rest ih₁ ih₂ =>
      simp only [yield, List.forall_mem_cons, List.forall_mem_append] at h
      exact fun e he => ih₂ h.2 _ ⟨he, ih₁ h.1.2⟩
  | product first rest ih₁ ih₂ =>
      obtain ⟨hfirst, hrest⟩ := List.forall_mem_append.mp h
      exact ih₂ hrest _ (ih₁ hfirst)
  | noFactor => exact fun e he => he
  | andFactor op hop right rest ih₁ ih₂ =>
      simp only [yield, List.forall_mem_cons, List.forall_mem_append] at h
      exact fun e he => ih₂ h.2 _ ⟨he, ih₁ h.1.2⟩
  | number lexeme literal hl => exact Parser.written_of_literal? (h (.number lexeme) List.mem_cons_self) hl
  | application name arguments ih =>
      obtain ⟨hname, harguments⟩ := List.forall_mem_cons.mp h
      exact ih harguments (.var name) trivial hname
  | group inner ih => exact ih (List.forall_mem_append.mp (List.forall_mem_cons.mp h).2).1
  | noArgument => exact fun e _ he => he
  | andArgument argument rest ih₁ ih₂ =>
      simp only [yield, List.forall_mem_cons, List.forall_mem_append] at h
      exact fun e hcall he => ih₂ h.2.2 _ trivial ⟨hcall, he, ih₁ h.1.2⟩

/-! ## Reading a list of tokens -/

/-- A derivation with at most `k` required places inside one another has these tokens and this meaning,
and is greedy wherever no `(` comes behind it. -/
def Readable (k : Nat) (c : Category) (ts : List Token) (m : c.Meaning) : Prop :=
  ∃ d : Derivation c, d.yield = ts ∧ d.tree = m ∧ d.nesting ≤ k ∧
    ∀ follow : List Token, follow.head? ≠ some .leftParen → d.Greedy follow

namespace Readable

variable {k : Nat} {ts us vs : List Token} {name : String}

theorem binding {value : Expr} (h : Readable k .expression ts value) :
    Readable (k + 1) .expression (.identifier name :: .binding :: ts) (.binding name value) := by
  obtain ⟨d, rfl, rfl, hn, hgreedy⟩ := h
  exact ⟨.binding name d, rfl, rfl, Nat.succ_le_succ hn, hgreedy⟩

theorem function {body : Expr} (h : Readable k .expression ts body) :
    Readable (k + 1) .expression (.identifier name :: .mapsTo :: ts) (.function name body) := by
  obtain ⟨d, rfl, rfl, hn, hgreedy⟩ := h
  exact ⟨.function name d, rfl, rfl, Nat.succ_le_succ hn, hgreedy⟩

theorem ifElse {condition consequence alternative : Expr} (hc : Readable k .expression ts condition)
    (ht : Readable k .expression us consequence) (he : Readable k .expression vs alternative) :
    Readable (k + 1) .expression (.ifWord :: ts ++ .thenWord :: us ++ .elseWord :: vs)
      (.ifElse condition consequence alternative) := by
  obtain ⟨c, rfl, rfl, hnc, hgreedyc⟩ := hc
  obtain ⟨t, rfl, rfl, hnt, hgreedyt⟩ := ht
  obtain ⟨e, rfl, rfl, hne, hgreedye⟩ := he
  refine ⟨.ifElse c t e, rfl, rfl, Nat.succ_le_succ ?_, fun follow hfollow => ?_⟩
  · exact Nat.max_le.mpr ⟨Nat.max_le.mpr ⟨hnc, hnt⟩, hne⟩
  · exact ⟨hgreedyc _ nofun, hgreedyt _ nofun, hgreedye follow hfollow⟩

/-- A factor alone is an expression. -/
theorem expression {e : Expr} (h : Readable k .factor ts e) : Readable k .expression ts e := by
  obtain ⟨d, rfl, rfl, hn, hgreedy⟩ := h
  refine ⟨.sum (.product d .noFactor) .noTerm, ?_, rfl, ?_, fun follow hfollow => ?_⟩
  · simp
  · simpa using hn
  · exact ⟨⟨hgreedy _ hfollow, trivial⟩, trivial⟩

/-- Two factors with an operator between them are an expression, however tightly it binds. -/
theorem binary (op : Operator) {left right : Expr} (hl : Readable k .factor ts left)
    (hr : Readable k .factor us right) :
    Readable k .expression (ts ++ op.token :: us) (.binary op left right) := by
  have hsign : ∀ vs : List Token, (op.token :: vs).head? ≠ some .leftParen := by
    intro vs
    cases op <;> nofun
  obtain ⟨l, rfl, rfl, hnl, hgreedyl⟩ := hl
  obtain ⟨r, rfl, rfl, hnr, hgreedyr⟩ := hr
  cases hop : op.joinsTerms with
  | true =>
      refine ⟨.sum (.product l .noFactor) (.andTerm op hop (.product r .noFactor) .noTerm), ?_, rfl, ?_,
        fun follow hfollow => ?_⟩
      · simp
      · simpa using ⟨hnl, hnr⟩
      · exact ⟨⟨hgreedyl _ (hsign _), trivial⟩, ⟨hgreedyr _ hfollow, trivial⟩, trivial⟩
  | false =>
      refine ⟨.sum (.product l (.andFactor op hop r .noFactor)) .noTerm, ?_, rfl, ?_,
        fun follow hfollow => ?_⟩
      · simp
      · simpa using ⟨hnl, hnr⟩
      · exact ⟨⟨hgreedyl _ (hsign _), hgreedyr _ hfollow, trivial⟩, trivial⟩

theorem number {lexeme : String} {e : Expr} (h : Parser.literal? lexeme = some e) :
    Readable k .factor [.number lexeme] e :=
  ⟨.number lexeme e h, rfl, rfl, Nat.zero_le k, fun _ _ => trivial⟩

theorem group {e : Expr} (h : Readable k .expression ts e) :
    Readable (k + 1) .factor (.leftParen :: ts ++ [.rightParen]) e := by
  obtain ⟨d, rfl, rfl, hn, hgreedy⟩ := h
  exact ⟨.group d, rfl, rfl, Nat.succ_le_succ hn, fun _ _ => hgreedy _ nofun⟩

theorem application {f : Expr → Expr} (h : Readable k .arguments ts f) :
    Readable k .factor (.identifier name :: ts) (f (.var name)) := by
  obtain ⟨d, rfl, rfl, hn, hgreedy⟩ := h
  exact ⟨.application name d, rfl, rfl, hn, hgreedy⟩

theorem noArgument : Readable k .arguments [] id :=
  ⟨.noArgument, rfl, rfl, Nat.zero_le k, fun _ hfollow => hfollow⟩

theorem andArgument {argument : Expr} {f : Expr → Expr} (h : Readable k .expression ts argument)
    (hrest : Readable (k + 1) .arguments us f) :
    Readable (k + 1) .arguments (.leftParen :: ts ++ .rightParen :: us)
      (fun callee => f (.call callee argument)) := by
  obtain ⟨d, rfl, rfl, hn, hgreedy⟩ := h
  obtain ⟨rest, rfl, rfl, hnrest, hgreedyrest⟩ := hrest
  refine ⟨.andArgument d rest, rfl, rfl, Nat.max_le.mpr ⟨Nat.succ_le_succ hn, hnrest⟩, ?_⟩
  exact fun follow hfollow => ⟨hgreedy _ nofun, hgreedyrest follow hfollow⟩

theorem statement {e : Expr} (h : Readable k .expression ts e) : Readable k .program ts [e] := by
  obtain ⟨d, rfl, rfl, hn, hgreedy⟩ := h
  refine ⟨.statement d .endOfText, List.append_nil _, rfl, ?_, fun follow hfollow => ⟨?_, trivial⟩⟩
  · exact Nat.max_le.mpr ⟨hn, Nat.zero_le k⟩
  · exact hgreedy follow hfollow

theorem line {e : Expr} {p : Program} (h : Readable k .expression ts e) (hrest : Readable k .program us p) :
    Readable k .program (ts ++ .endLine :: us) (e :: p) := by
  obtain ⟨d, rfl, rfl, hn, hgreedy⟩ := h
  obtain ⟨rest, rfl, rfl, hnrest, hgreedyrest⟩ := hrest
  refine ⟨.statement d (.lineEnd rest), rfl, rfl, Nat.max_le.mpr ⟨hn, hnrest⟩, fun follow hfollow => ?_⟩
  exact ⟨hgreedy _ nofun, hgreedyrest follow hfollow⟩

end Readable

/-! ## Reading the tokens of a tree -/

/-- The ways in which the tokens of a tree can be read: where an expression stands; where an operand does,
if the tree is no binding; and with arguments behind them, if it can take some. -/
structure ReadsBack (k : Nat) (e : Expr) : Prop where
  expression : Readable k .expression e.tokens e
  factor : ¬ e.IsBinding → Readable k .factor e.tokens e
  call : e.IsCall → ∀ (ts : List Token) (f : Expr → Expr),
    Readable k .arguments ts f → Readable k .factor (e.tokens ++ ts) (f e)

theorem ReadsBack.of_factor {k : Nat} {e : Expr} (h : Readable k .factor e.tokens e) (hcall : ¬ e.IsCall) :
    ReadsBack k e where
  expression := h.expression
  factor := fun _ => h
  call := fun h => absurd h hcall

theorem ReadsBack.of_call {k : Nat} {e : Expr} (h : ∀ (ts : List Token) (f : Expr → Expr),
    Readable k .arguments ts f → Readable k .factor (e.tokens ++ ts) (f e)) : ReadsBack k e := by
  have hfactor := h [] id .noArgument
  rw [List.append_nil] at hfactor
  exact ⟨hfactor.expression, fun _ => hfactor, fun _ => h⟩

/-- **Trees are read from their tokens.** A legible tree needs two required places for each node on the
way down to a leaf, at most. -/
theorem readsBack_of_legible {e : Expr} {k : Nat} (hwritten : e.Written) (hlegible : e.Legible)
    (hk : 2 * e.height ≤ k + 2) : ReadsBack k e := by
  induction e generalizing k with
  | integer n => exact .of_factor (.number (Parser.literal?_repr hwritten)) id
  | float x => exact absurd hlegible id
  | var name => exact .of_call fun ts f h => h.application
  | binding name value ih =>
      have hpos := value.height_pos
      rw [Expr.height] at hk
      obtain ⟨j, rfl⟩ : ∃ j, k = j + 1 := ⟨k - 1, by omega⟩
      refine ⟨.binding (ih hwritten.2 hlegible (by omega)).expression, fun h => absurd trivial h, fun h => absurd h id⟩
  | function parameter body ih =>
      have hpos := body.height_pos
      rw [Expr.height] at hk
      -- One place for the group, and one for the body.
      obtain ⟨j, rfl⟩ : ∃ j, k = j + 1 + 1 := ⟨k - 2, by omega⟩
      exact .of_factor (ih hwritten.2 hlegible (by omega)).expression.function.group id
  | call callee argument ih₁ ih₂ =>
      obtain ⟨hcall, hcallee, hargument⟩ := hwritten
      have hpos := argument.height_pos
      rw [Expr.height] at hk
      obtain ⟨j, rfl⟩ : ∃ j, k = j + 1 := ⟨k - 1, by omega⟩
      refine .of_call fun ts f h => ?_
      -- The name at the bottom takes all arguments at once: this one comes in front of those behind it.
      have hrest := (ih₂ hargument hlegible.2 (by omega)).expression.andArgument h
      have hfactor := (ih₁ hcallee hlegible.1 (by omega)).call hcall _ _ hrest
      simpa [Expr.tokens] using hfactor
  | binary op left right ih₁ ih₂ =>
      obtain ⟨⟨hl, hr⟩, hlegible⟩ := hlegible
      have hpos := left.height_pos
      rw [Expr.height] at hk
      obtain ⟨j, rfl⟩ : ∃ j, k = j + 1 := ⟨k - 1, by omega⟩
      have hleft : Readable j .factor left.tokens left := (ih₁ hwritten.1 hlegible.1 (by omega)).factor hl
      have hright : Readable j .factor right.tokens right := (ih₂ hwritten.2 hlegible.2 (by omega)).factor hr
      exact .of_factor (hleft.binary op hright).group id
  | ifElse condition consequence alternative ih₁ ih₂ ih₃ =>
      obtain ⟨hc, ht, he⟩ := hwritten
      obtain ⟨hc', ht', he'⟩ := hlegible
      have hpos := alternative.height_pos
      rw [Expr.height] at hk
      obtain ⟨j, rfl⟩ : ∃ j, k = j + 1 + 1 := ⟨k - 2, by omega⟩
      have hcondition : Readable j .expression condition.tokens condition :=
        (ih₁ hc hc' (by omega)).expression
      have hconsequence : Readable j .expression consequence.tokens consequence :=
        (ih₂ ht ht' (by omega)).expression
      have halternative : Readable j .expression alternative.tokens alternative :=
        (ih₃ he he' (by omega)).expression
      exact .of_factor (hcondition.ifElse hconsequence halternative).group id

/-- A program is read from its tokens if its expressions are: between two of them there is an end of
line. -/
theorem readable_program {k : Nat} : {p : Program} → (∀ e ∈ p, Readable k .expression e.tokens e) →
    Readable k .program (Program.tokens p) p
  | [], _ => ⟨.endOfText, rfl, rfl, Nat.zero_le k, fun _ _ => trivial⟩
  | [e], h => by
      rw [Program.tokens, List.map_singleton, List.intercalate_singleton]
      exact (h e List.mem_cons_self).statement
  | e :: e' :: p, h => by
      obtain ⟨he, hp⟩ := List.forall_mem_cons.mp h
      have hline := he.line (readable_program hp)
      rw [Program.tokens, List.map_cons, List.map_cons, List.intercalate_cons_cons, List.append_assoc]
      exact hline

end Grammar

/-- **The tokens of a program are the program.** Tokens that are printed for legible trees of half the
height that is allowed are accepted, and stand for these trees. -/
theorem Parser.parse_tokens {p : Program} {ts : Tokens} (hwritten : ∀ e ∈ p, e.Written)
    (hlegible : ∀ e ∈ p, e.Legible) (hheight : ∀ e ∈ p, e.height ≤ 128)
    (hts : ts.map Spanned.value = Program.tokens p) : Program.parse ts = .ok p := by
  rw [parse_eq_ok_iff_derives, Grammar.derives_program_nil_iff]
  have hreadable : ∀ e ∈ p, Grammar.Readable 254 .expression e.tokens e := by
    intro e he
    have hle := hheight e he
    exact (Grammar.readsBack_of_legible (hwritten e he) (hlegible e he) (by omega)).expression
  obtain ⟨d, hyield, rfl, hn, hgreedy⟩ := Grammar.readable_program hreadable
  refine ⟨⟨d, ⟨hyield.trans hts.symm, hgreedy [] nofun⟩, ?_, rfl⟩, fun e he => ?_⟩
  · exact Nat.le_trans hn (by decide)
  · exact Nat.le_trans (hheight e he) (by decide)

end Mapsto
