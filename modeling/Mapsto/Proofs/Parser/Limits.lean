import Mapsto.Proofs.Parser.Counted

/-!
# `Mapsto.Proofs.Parser.Limits` — the limits on depth only reject

The counting parser compares two counters with a limit: how many required places are open, and how high the
tree is that was put together last. The counters are right. Every rule leaves as many places open as it found,
also when it fails, and has noted the height of the tree that it returns (`Counted.balanced`); and with a
limit it does what the rule of the plain parser does (`Counted.mirrored`).

So it is known what the limits do. A parser without them comes to the same, or the one with limits complains
that something is too deep; and it does so about a program exactly if a tree is too high, or too many
required places lie one inside the other (`Program.limits_only_reject`).
-/

namespace Mapsto

namespace Parser

/-- The tree that was found, if one was. -/
def Found.tree? : Found → Option Expr
  | tree e => some e
  | lineEnd _ => none

namespace Counted

variable {α β : Type}

/-! ## Rules -/

/-- A step that ends whenever fewer than `fuel` tokens are left. It leaves as many places open as it found,
also when it fails; and if it returns a tree, the height noted is that of the tree. -/
def Keeps (tree? : α → Option Expr) (fuel : Nat) (step : Counted α) : Prop :=
  ∀ c : Counter, c.tokens.length < fuel →
    ∃ result c', step c = some (result, c') ∧ c'.nesting = c.nesting ∧
      ∀ a e, result = .ok a → tree? a = some e → c'.height = e.height

/-- All rules of the parser keep their counters. -/
structure Balanced (s : Checks) (fuel : Nat) : Prop where
  required : Keeps some fuel (required s fuel)
  expression : Keeps Found.tree? fuel (expression s (Counted.required s fuel))
  binding : ∀ start name, Keeps some fuel (headed s (Counted.required s fuel) start (.binding name))
  function : ∀ start parameter,
    Keeps some fuel (headed s (Counted.required s fuel) start (.function parameter))
  ifElse : ∀ start, Keeps some fuel (ifElse s (Counted.required s fuel) start)
  sum : Keeps Found.tree? fuel (sum s (Counted.required s fuel))
  term : Keeps Found.tree? fuel (term s (Counted.required s fuel))
  factor : Keeps Found.tree? fuel (factor s (Counted.required s fuel))
  application : ∀ start name, Keeps some fuel (application s (Counted.required s fuel) start name)

/-- Whenever fewer than `fuel` tokens are left, a counted step comes to what a plain one comes to, and
leaves the same tokens. What the plain step returns has the height in it that the counted one has noted. -/
def Mirrors (view : α → Nat → β) (fuel : Nat) (step : Counted α) (p : Counter → Parse β) : Prop :=
  ∀ c : Counter, c.tokens.length < fuel →
    ∃ result c', step c = some (result, c') ∧
      p c c.tokens = match result with
        | .ok a => .ok (view a c'.height) c'.tokens
        | .error e => .error e c'.tokens

/-- All rules of the plain parser are mirrored, where as many places may be opened as are not open yet. -/
structure Mirrored (setting : Setting) (s : Checks) (fuel : Nat) : Prop where
  required : Mirrors Measured.mk fuel (required s fuel) fun c =>
    Parser.required setting (setting.limit - c.nesting)
  expression : Mirrors Found.item fuel (expression s (Counted.required s fuel)) fun c =>
    Parser.expression setting (Parser.required setting (setting.limit - c.nesting))
  sum : Mirrors Found.item fuel (sum s (Counted.required s fuel)) fun c =>
    Parser.sum setting (Parser.required setting (setting.limit - c.nesting))
  term : Mirrors Found.item fuel (term s (Counted.required s fuel)) fun c =>
    Parser.term setting (Parser.required setting (setting.limit - c.nesting))
  factor : Mirrors Found.item fuel (factor s (Counted.required s fuel)) fun c =>
    Parser.factor setting (Parser.required setting (setting.limit - c.nesting))
  application : ∀ start name,
    Mirrors Measured.mk fuel (application s (Counted.required s fuel) start name) fun c =>
      Parser.arguments setting (Parser.required setting (setting.limit - c.nesting)) start c.tokens
        ⟨.var name, 1⟩

section Rules

variable {s : Checks} {limit fuel : Nat}

theorem keeps_of_tracksTree {step : Counted Expr} {p : Counter → Parse Measured}
    (h : ∀ c : Counter, c.tokens.length < fuel → ∃ total n,
      Tracks s limit total c.nesting Measured.mk (Measures n) (step c) (p c c.tokens)) :
    Keeps some fuel step := by
  intro c hc
  obtain ⟨total, n, htracks⟩ := h c hc
  obtain ⟨result, c', hended, hnesting, hgood⟩ := htracks.ends
  refine ⟨result, c', hended, hnesting, ?_⟩
  rintro e _ he ⟨⟩
  exact (hgood e he).1

theorem keeps_of_tracksItem {step : Counted Found} {p : Counter → Parse Item}
    (h : ∀ c : Counter, c.tokens.length < fuel → ∃ total n,
      Tracks s limit total c.nesting Found.item (Found.Measures n) (step c) (p c c.tokens)) :
    Keeps Found.tree? fuel step := by
  intro c hc
  obtain ⟨total, n, htracks⟩ := h c hc
  obtain ⟨result, c', hended, hnesting, hgood⟩ := htracks.ends
  refine ⟨result, c', hended, hnesting, ?_⟩
  intro found e hfound he
  cases found with
  | lineEnd token => cases he
  | tree _ =>
      cases he
      exact (hgood (.tree e) hfound).1

/-- Where there is a limit, the plain step stops only where the counted one does. -/
theorem mirrors_of_tracks (hs : s.limit = some limit) {view : α → Nat → β} {step : Counted α}
    {p : Counter → Parse β}
    (h : ∀ c : Counter, c.tokens.length < fuel → ∃ total Good,
      Tracks s limit total c.nesting view Good (step c) (p c c.tokens)) :
    Mirrors view fuel step p := by
  intro c hc
  obtain ⟨total, Good, htracks⟩ := h c hc
  generalize step c = counted at htracks
  generalize p c c.tokens = plain at htracks
  cases htracks with
  | ok a c' => exact ⟨.ok a, c', rfl, rfl⟩
  | error e c' => exact ⟨.error e, c', rfl, rfl⟩
  | beyond result c' span rest hfree =>
      rw [hs] at hfree
      cases hfree

/-- The required places below a rule that is entered with the counters `c`. -/
theorem tracks_below (hlimit : ∀ l, s.limit = some l → l = limit) {c : Counter}
    (hc : c.tokens.length < fuel) (c' : Counter) (hc' : c'.nesting = c.nesting)
    (hlength : c'.tokens.length < c.tokens.length + 1) :
    TracksTree s limit (c.nesting + c.tokens.length + 1) c.nesting c'.tokens.length (required s fuel)
      (Parser.required (plain s limit) (limit - c.nesting)) c' :=
  tracks_places hlimit hc (Nat.le_succ _) c' hc' hlength

/-- There are no fewer than the tokens below the rule. -/
theorem length_below (c : Counter) : c.tokens.length + 1 ≤ c.nesting + c.tokens.length + 1 :=
  Nat.succ_le_succ (Nat.le_add_left _ _)

end Rules

/-- **The counters are right.** -/
theorem balanced (s : Checks) (fuel : Nat) : Balanced s fuel := by
  have hlimit : ∀ l, s.limit = some l → l = s.limit.getD 0 := by
    intro l hl
    rw [hl]
    rfl
  exact {
    required := keeps_of_tracksTree fun c hc =>
      ⟨_, _, tracks_required hlimit fuel hc (Nat.le_refl _)⟩
    expression := keeps_of_tracksItem fun c hc =>
      ⟨_, _, tracks_expression hlimit (length_below c) (tracks_below hlimit hc) rfl (Nat.le_succ _)⟩
    binding := fun start name => keeps_of_tracksTree fun c hc =>
      ⟨_, _, tracks_headed hlimit (length_below c) (tracks_below hlimit hc) start (.binding name)
        (fun _ => rfl) rfl (Nat.lt_succ_self _)⟩
    function := fun start parameter => keeps_of_tracksTree fun c hc =>
      ⟨_, _, tracks_headed hlimit (length_below c) (tracks_below hlimit hc) start (.function parameter)
        (fun _ => rfl) rfl (Nat.lt_succ_self _)⟩
    ifElse := fun start => keeps_of_tracksTree fun c hc =>
      ⟨_, _, tracks_ifElse hlimit (length_below c) (tracks_below hlimit hc) start rfl
        (Nat.lt_succ_self _)⟩
    sum := keeps_of_tracksItem fun c hc =>
      ⟨_, _, tracks_sum hlimit (length_below c) (tracks_below hlimit hc) rfl (Nat.le_succ _)⟩
    term := keeps_of_tracksItem fun c hc =>
      ⟨_, _, tracks_term hlimit (length_below c) (tracks_below hlimit hc) rfl (Nat.le_succ _)⟩
    factor := keeps_of_tracksItem fun c hc =>
      ⟨_, _, tracks_factor hlimit (length_below c) (tracks_below hlimit hc) rfl (Nat.le_succ _)⟩
    application := fun start name => keeps_of_tracksTree fun c hc =>
      ⟨_, _, tracks_application hlimit (length_below c) (tracks_below hlimit hc) start name rfl
        (Nat.lt_succ_self _)⟩ }

/-- **With a limit** the rules are those of the plain parser. -/
theorem mirrored (setting : Setting) (fuel : Nat) :
    Mirrored setting ⟨some setting.limit, setting.atEnd⟩ fuel := by
  have hlimit : ∀ l, (⟨some setting.limit, setting.atEnd⟩ : Checks).limit = some l → l = setting.limit := by
    rintro _ ⟨⟩
    rfl
  exact {
    required := mirrors_of_tracks rfl fun c hc =>
      ⟨_, _, tracks_required hlimit fuel hc (Nat.le_refl _)⟩
    expression := mirrors_of_tracks rfl fun c hc =>
      ⟨_, _, tracks_expression hlimit (length_below c) (tracks_below hlimit hc) rfl (Nat.le_succ _)⟩
    sum := mirrors_of_tracks rfl fun c hc =>
      ⟨_, _, tracks_sum hlimit (length_below c) (tracks_below hlimit hc) rfl (Nat.le_succ _)⟩
    term := mirrors_of_tracks rfl fun c hc =>
      ⟨_, _, tracks_term hlimit (length_below c) (tracks_below hlimit hc) rfl (Nat.le_succ _)⟩
    factor := mirrors_of_tracks rfl fun c hc =>
      ⟨_, _, tracks_factor hlimit (length_below c) (tracks_below hlimit hc) rfl (Nat.le_succ _)⟩
    application := fun start name => mirrors_of_tracks rfl fun c hc =>
      ⟨_, _, tracks_application hlimit (length_below c) (tracks_below hlimit hc) start name rfl
        (Nat.lt_succ_self _)⟩ }

/-! ## Whole texts -/

/-- Parses a whole text, with a limit on depth or without one. -/
def parse (limit : Option Nat) (ts : Tokens) : Option (Except ParseError Program) :=
  (statements ⟨limit, endOf ts⟩ ts.length ts ⟨ts, 0, 0⟩).map Prod.fst

/-- What a plain parser with a limit makes of a text, one that counts makes of it too, if it has the same
limit. If it has none, the plain parser may stop because of depth, but only with a limit that is no greater
than the number of tokens. -/
theorem parse_eq_some (ts : Tokens) (limit? : Option Nat) (limit : Nat)
    (hlimit : ∀ l, limit? = some l → l = limit) :
    ∃ result, parse limit? ts = some result ∧
      (((ofTokens ts).programWithin limit).1 = result ∨
        limit? = none ∧ limit ≤ ts.length ∧
          ∃ span, ((ofTokens ts).programWithin limit).1 = .error (.tooDeeplyNested limit span)) := by
  have htracks : Tracks ⟨limit?, endOf ts⟩ limit ts.length 0 (fun p _ => p) (fun _ _ => True)
      (statements ⟨limit?, endOf ts⟩ ts.length ts ⟨ts, 0, 0⟩)
      (Parser.statements (plain ⟨limit?, endOf ts⟩ limit) ts ts) :=
    tracks_statements hlimit ts.length ts rfl (Nat.le_refl _) (Nat.le_refl _)
  unfold parse programWithin ofTokens
  simp only
  generalize statements ⟨limit?, endOf ts⟩ ts.length ts ⟨ts, 0, 0⟩ = counted at htracks
  generalize Parser.statements (plain ⟨limit?, endOf ts⟩ limit) ts ts = plain at htracks
  cases htracks with
  | ok p c' => exact ⟨.ok p, rfl, .inl rfl⟩
  | error e c' => exact ⟨.error e, rfl, .inl rfl⟩
  | beyond result c' span rest hfree hlimit => exact ⟨result, rfl, .inr ⟨hfree, hlimit, span, rfl⟩⟩

/-- **Without a limit** a parser accepts what the grammar has a derivation of. -/
theorem exists_covers_of_parse {ts : Tokens} {p : Program} (h : parse none ts = some (.ok p)) :
    ∃ d : Grammar.Derivation .program, d.Covers ts ∧ d.tree = p := by
  -- A limit beyond the number of tokens is none.
  obtain ⟨result, hresult, hplain⟩ := parse_eq_some ts none (ts.length + 1) nofun
  cases hresult.symm.trans h
  rcases hplain with hok | ⟨-, hle, -⟩
  · obtain ⟨rest, hstatements⟩ := programWithin_eq_ok_iff.mp hok
    obtain ⟨hderives, -⟩ := (statements_eq_ok_iff (Nat.le_add_left _ _) (Nat.le_refl _)).mp hstatements
    obtain rfl := hderives.rest_eq_nil
    obtain ⟨d, hcovers, -, htree⟩ := Grammar.derives_program_nil_iff.mp hderives
    exact ⟨d, hcovers, htree⟩
  · exact absurd hle (Nat.not_succ_le_self _)

end Counted

/-- A text that has a derivation is accepted exactly if the derivation is within the limits. -/
theorem parse_tree_eq_ok_iff {ts : Tokens} {d : Grammar.Derivation .program} (hcovers : d.Covers ts) :
    Program.parse ts = .ok d.tree ↔ (∀ e ∈ d.tree, e.height ≤ maxDepth) ∧ d.nesting ≤ maxDepth := by
  rw [parse_eq_ok_iff_derives, Grammar.derives_program_nil_iff]
  constructor
  · rintro ⟨⟨d', hcovers', hnesting, -⟩, hheights⟩
    obtain rfl := hcovers.unique hcovers'
    exact ⟨hheights, hnesting⟩
  · rintro ⟨hheights, hnesting⟩
    exact ⟨⟨d, hcovers, hnesting, rfl⟩, hheights⟩

end Parser

/-- **The limits only reject.** With them every rule of the parser leaves the number of open places as it was,
has noted the height of the tree it returns, and does what the plain rule does. A parser without limits comes
to the same as the one with limits, or that one complains about depth. A program that is accepted without
limits has a derivation; and the complaint about depth is made exactly if one of its trees is higher than
256 or some place in it lies under more than 256 required ones. -/
theorem Program.limits_only_reject :
    (∀ s fuel, Parser.Counted.Balanced s fuel) ∧
    (∀ setting fuel, Parser.Counted.Mirrored setting ⟨some setting.limit, setting.atEnd⟩ fuel) ∧
    ∀ ts : Parser.Tokens,
      Parser.Counted.parse (some 256) ts = some (Program.parse ts) ∧
      ∃ free, Parser.Counted.parse none ts = some free ∧
        (Program.parse ts = free ∨ ∃ span, Program.parse ts = .error (.tooDeeplyNested 256 span)) ∧
        ∀ p, free = .ok p → ∃ d : Grammar.Derivation .program, d.Covers ts ∧ d.tree = p ∧
          ((∃ span, Program.parse ts = .error (.tooDeeplyNested 256 span)) ↔
            (∃ e ∈ p, 256 < e.height) ∨ 256 < d.nesting) := by
  refine ⟨Parser.Counted.balanced, Parser.Counted.mirrored, ?_⟩
  intro ts
  have hsame : ∀ l, some 256 = some l → l = 256 := by
    rintro _ ⟨⟩
    rfl
  obtain ⟨limited, hlimited, hplain⟩ := Parser.Counted.parse_eq_some ts (some 256) 256 hsame
  obtain ⟨free, hfree, hcompare⟩ := Parser.Counted.parse_eq_some ts none 256 nofun
  have hreject : Program.parse ts = free ∨ ∃ span, Program.parse ts = .error (.tooDeeplyNested 256 span) :=
    hcompare.imp_right fun h => h.2.2
  refine ⟨?_, free, hfree, hreject, ?_⟩
  · rcases hplain with hplain | ⟨hnone, -⟩
    · rw [hlimited]
      exact congrArg some hplain.symm
    · cases hnone
  · rintro p rfl
    obtain ⟨d, hcovers, rfl⟩ := Parser.Counted.exists_covers_of_parse hfree
    refine ⟨d, hcovers, rfl, ?_⟩
    have haccepts := Parser.parse_tree_eq_ok_iff hcovers
    constructor
    · rintro ⟨span, herror⟩
      refine Classical.byContradiction fun hwithin => ?_
      obtain ⟨hheights, hnesting⟩ := not_or.mp hwithin
      have hheight : ∀ e ∈ d.tree, e.height ≤ 256 :=
        fun e he => Nat.not_lt.mp fun hlt => hheights ⟨e, he, hlt⟩
      cases herror.symm.trans (haccepts.mpr ⟨hheight, Nat.not_lt.mp hnesting⟩)
    · intro hbeyond
      refine hreject.resolve_left fun hok => ?_
      obtain ⟨hheights, hnesting⟩ := haccepts.mp hok
      rcases hbeyond with ⟨e, he, hheight⟩ | hnesting'
      · exact absurd hheight (Nat.not_lt.mpr (hheights e he))
      · exact absurd hnesting' (Nat.not_lt.mpr hnesting)

/-- A call is accepted without limits and with them, because nothing in it is too deep. -/
theorem Program.limits_only_reject_call :
    let ts : Parser.Tokens :=
      [⟨.identifier "f", .point 0⟩, ⟨.leftParen, .point 1⟩, ⟨.identifier "x", .point 2⟩,
        ⟨.rightParen, .point 3⟩]
    Parser.Counted.parse none ts = some (.ok [.call (.var "f") (.var "x")]) ∧
      Program.parse ts = .ok [.call (.var "f") (.var "x")] ∧
      ∃ d : Grammar.Derivation .program, d.Covers ts ∧ d.nesting ≤ 256 := by
  intro ts
  have hfree : Parser.Counted.parse none ts = some (.ok [.call (.var "f") (.var "x")]) := rfl
  have hlimited : Program.parse ts = .ok [.call (.var "f") (.var "x")] := rfl
  obtain ⟨-, -, htexts⟩ := limits_only_reject
  obtain ⟨-, free, hsome, -, haccepted⟩ := htexts ts
  have hok : free = .ok [.call (.var "f") (.var "x")] := Option.some.inj (hsome.symm.trans hfree)
  obtain ⟨d, hcovers, -, hdepth⟩ := haccepted _ hok
  refine ⟨hfree, hlimited, d, hcovers, Nat.not_lt.mp fun hnesting => ?_⟩
  obtain ⟨span, herror⟩ := hdepth.mpr (.inr hnesting)
  cases herror.symm.trans hlimited

end Mapsto
