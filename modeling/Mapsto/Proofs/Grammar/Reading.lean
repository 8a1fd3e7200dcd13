import Mapsto.Proofs.Grammar.Unambiguous

/-!
# `Mapsto.Proofs.Grammar.Reading` — derivations of the start of a token list

A parser reads from the front of a list and leaves the rest. `Derives k c ts m rest` says the same of
the grammar: a maximal derivation of category `c`, with at most `k` required places one inside the other
and with the meaning `m`, reads `ts` up to `rest`. The grammar's rules become one equation for each
category (`derives_expression_iff` and so on), in which the parts of a rule read one after the other;
what a parser has to be compared with are these equations.
-/

namespace Mapsto.Grammar

open Mapsto.Parser (Tokens)

/-- The tokens without their places. -/
def values (ts : Tokens) : List Token := ts.map Spanned.value

@[simp] theorem values_nil : values [] = [] := rfl

@[simp] theorem values_cons (t : Spanned Token) (ts : Tokens) :
    values (t :: ts) = t.value :: values ts := rfl

@[simp] theorem values_append (ts us : Tokens) : values (ts ++ us) = values ts ++ values us :=
  List.map_append

/-! ## Reading a word -/

/-- The tokens `ts` start with the word `w`, and `rest` is behind it. -/
def Reads (ts : Tokens) (w : List Token) (rest : Tokens) : Prop :=
  ∃ used, ts = used ++ rest ∧ values used = w

theorem Reads.values_eq {ts rest : Tokens} {w : List Token} (h : Reads ts w rest) :
    values ts = w ++ values rest := by
  obtain ⟨used, rfl, rfl⟩ := h
  exact values_append used rest

theorem Reads.length_eq {ts rest : Tokens} {w : List Token} (h : Reads ts w rest) :
    ts.length = w.length + rest.length := by
  obtain ⟨used, rfl, rfl⟩ := h
  simp [values]

theorem reads_nil_iff {ts rest : Tokens} : Reads ts [] rest ↔ rest = ts := by
  constructor
  · rintro ⟨used, rfl, h⟩
    rw [List.map_eq_nil_iff.mp h, List.nil_append]
  · rintro rfl
    exact ⟨[], rfl, rfl⟩

theorem reads_cons_iff {ts rest : Tokens} {t : Token} {w : List Token} :
    Reads ts (t :: w) rest ↔ ∃ span mid, ts = ⟨t, span⟩ :: mid ∧ Reads mid w rest := by
  constructor
  · rintro ⟨used, rfl, h⟩
    cases used with
    | nil => cases h
    | cons u used =>
        obtain ⟨rfl, rfl⟩ := List.cons.inj h
        exact ⟨u.span, used ++ rest, rfl, used, rfl, rfl⟩
  · rintro ⟨span, mid, rfl, used, rfl, rfl⟩
    exact ⟨⟨t, span⟩ :: used, rfl, rfl⟩

theorem Reads.cons {ts rest : Tokens} {w : List Token} (h : Reads ts w rest) (t : Token) (span : Span) :
    Reads (⟨t, span⟩ :: ts) (t :: w) rest :=
  reads_cons_iff.mpr ⟨span, ts, rfl, h⟩

theorem reads_append_iff {ts rest : Tokens} {w w' : List Token} :
    Reads ts (w ++ w') rest ↔ ∃ mid, Reads ts w mid ∧ Reads mid w' rest := by
  constructor
  · rintro ⟨used, rfl, h⟩
    obtain ⟨u, u', rfl, rfl, rfl⟩ := List.map_eq_append_iff.mp h
    exact ⟨u' ++ rest, ⟨u, List.append_assoc u u' rest, rfl⟩, u', rfl, rfl⟩
  · rintro ⟨mid, ⟨u, rfl, rfl⟩, u', rfl, rfl⟩
    exact ⟨u ++ u', (List.append_assoc u u' rest).symm, values_append u u'⟩

/-- The word that is read from the front of a list is determined by where the reading ends. -/
theorem reads_values {ts : Tokens} {w : List Token} : Reads ts w [] ↔ values ts = w := by
  constructor
  · intro h
    simpa using h.values_eq
  · rintro rfl
    exact ⟨ts, (List.append_nil ts).symm, rfl⟩

/-! ## Reading with a derivation -/

/-- A maximal derivation with the meaning `m`, and with no more than `k` required places one inside the
other, reads `ts` up to `rest`. -/
def Derives (k : Nat) (c : Category) (ts : Tokens) (m : c.Meaning) (rest : Tokens) : Prop :=
  ∃ d : Derivation c, Reads ts d.yield rest ∧ d.Maximal (values rest) ∧ d.nesting ≤ k ∧ d.tree = m

variable {k : Nat} {ts rest : Tokens}

theorem Derives.length_le {c : Category} {m : c.Meaning} (h : Derives k c ts m rest) :
    rest.length ≤ ts.length := by
  obtain ⟨d, hr, -⟩ := h
  have := hr.length_eq
  omega

/-- An expression takes at least one token. -/
theorem Derives.length_lt {e : Expr} (h : Derives k .expression ts e rest) :
    rest.length < ts.length := by
  obtain ⟨d, hr, -⟩ := h
  obtain ⟨t, w, hw, -⟩ := d.exists_head_expression
  have := hr.length_eq
  rw [hw, List.length_cons] at this
  omega

/-- An expression in a required place: the place itself counts among the `k` that may be open. -/
def Requires (k : Nat) (ts : Tokens) (e : Expr) (rest : Tokens) : Prop :=
  ∃ j < k, Derives j .expression ts e rest

theorem Derives.mono {c : Category} {j : Nat} {m : c.Meaning} (h : Derives j c ts m rest) (hjk : j ≤ k) :
    Derives k c ts m rest := by
  obtain ⟨d, hr, hmax, hn, hm⟩ := h
  exact ⟨d, hr, hmax, Nat.le_trans hn hjk, hm⟩

theorem not_requires_zero {e : Expr} : ¬ Requires 0 ts e rest := by
  rintro ⟨j, hj, -⟩
  exact Nat.not_lt_zero j hj

theorem requires_succ_iff {e : Expr} : Requires (k + 1) ts e rest ↔ Derives k .expression ts e rest := by
  constructor
  · rintro ⟨j, hj, h⟩
    exact h.mono (Nat.le_of_lt_succ hj)
  · intro h
    exact ⟨k, Nat.lt_succ_self k, h⟩

theorem Derivation.requires {d : Derivation .expression} (hr : Reads ts d.yield rest)
    (hmax : d.Maximal (values rest)) (hn : d.nesting < k) : Requires k ts d.tree rest :=
  ⟨d.nesting, hn, d, hr, hmax, Nat.le_refl _, rfl⟩

theorem Requires.exists_derivation {e : Expr} (h : Requires k ts e rest) :
    ∃ d : Derivation .expression,
      Reads ts d.yield rest ∧ d.Maximal (values rest) ∧ d.nesting < k ∧ d.tree = e := by
  obtain ⟨j, hj, d, hr, hmax, hn, rfl⟩ := h
  exact ⟨d, hr, hmax, Nat.lt_of_le_of_lt hn hj, rfl⟩

theorem Requires.length_le {e : Expr} (h : Requires k ts e rest) : rest.length ≤ ts.length := by
  obtain ⟨j, -, hj⟩ := h
  exact hj.length_le

/-- A program is read up to the end of the text. -/
theorem Derivation.follow_eq_nil {follow : List Token} :
    (d : Derivation .program) → d.Maximal follow → follow = []
  | .endOfText, h => h
  | .lineEnd rest, h => rest.follow_eq_nil h
  | .statement _ rest, h => rest.follow_eq_nil h.2

theorem Derives.rest_eq_nil {p : Program} (h : Derives k .program ts p rest) : rest = [] := by
  obtain ⟨d, -, hmax, -⟩ := h
  exact List.map_eq_nil_iff.mp (d.follow_eq_nil hmax)

/-- Reading a program to the end is having a derivation of the whole text. -/
theorem derives_program_nil_iff {p : Program} :
    Derives k .program ts p [] ↔ ∃ d : Derivation .program, d.Covers ts ∧ d.nesting ≤ k ∧ d.tree = p := by
  constructor
  · rintro ⟨d, hr, hmax, hn, rfl⟩
    exact ⟨d, ⟨(reads_values.mp hr).symm, hmax.greedy⟩, hn, rfl⟩
  · rintro ⟨d, hcovers, hn, rfl⟩
    refine ⟨d, reads_values.mpr hcovers.yield_eq.symm, ?_, hn, rfl⟩
    exact Derivation.maximal_of_greedy hcovers.greedy rfl

/-- **One derivation.** No text has two. -/
theorem Derivation.Covers.unique {d d' : Derivation .program} (h : d.Covers ts) (h' : d'.Covers ts) :
    d = d' := by
  have hmax : d.Maximal [] := maximal_of_greedy h.greedy rfl
  have hmax' : d'.Maximal [] := maximal_of_greedy h'.greedy rfl
  refine (hmax.unique hmax' ?_).1
  rw [h.yield_eq, h'.yield_eq]

/-! ### Heights -/

/-- A repetition puts nodes on top of the operand in front of it. -/
def Category.Raises : (c : Category) → c.Meaning → Prop
  | terms, f => ∀ e : Expr, e.height ≤ (f e).height
  | factors, f => ∀ e : Expr, e.height ≤ (f e).height
  | arguments, f => ∀ e : Expr, e.height ≤ (f e).height
  | _, _ => True

theorem Derivation.raises {c : Category} (d : Derivation c) : c.Raises d.tree := by
  induction d with
  | noTerm => exact fun e => Nat.le_refl _
  | noFactor => exact fun e => Nat.le_refl _
  | noArgument => exact fun e => Nat.le_refl _
  | andTerm op _ right rest _ ih =>
      intro e
      have hmore : max e.height right.tree.height + 1 ≤ (rest.tree (.binary op e right.tree)).height :=
        ih (.binary op e right.tree)
      show e.height ≤ (rest.tree (.binary op e right.tree)).height
      omega
  | andFactor op _ right rest _ ih =>
      intro e
      have hmore : max e.height right.tree.height + 1 ≤ (rest.tree (.binary op e right.tree)).height :=
        ih (.binary op e right.tree)
      show e.height ≤ (rest.tree (.binary op e right.tree)).height
      omega
  | andArgument argument rest _ ih =>
      intro e
      have hmore : max e.height argument.tree.height + 1 ≤ (rest.tree (.call e argument.tree)).height :=
        ih (.call e argument.tree)
      show e.height ≤ (rest.tree (.call e argument.tree)).height
      omega
  | _ => trivial

theorem Derives.raises {c : Category} {m : c.Meaning} (h : Derives k c ts m rest) : c.Raises m := by
  obtain ⟨d, -, -, -, rfl⟩ := h
  exact d.raises

/-! ### The rules, one category after the other -/

theorem derives_arguments_iff {f : Expr → Expr} :
    Derives k .arguments ts f rest ↔
      (values ts).head? ≠ some .leftParen ∧ f = id ∧ rest = ts ∨
      ∃ span mid argument span' after g, ts = ⟨.leftParen, span⟩ :: mid ∧
        Requires k mid argument (⟨.rightParen, span'⟩ :: after) ∧
        Derives k .arguments after g rest ∧ f = fun callee => g (.call callee argument) := by
  constructor
  · rintro ⟨d, hr, hmax, hn, rfl⟩
    cases d with
    | noArgument =>
        obtain rfl := reads_nil_iff.mp hr
        exact .inl ⟨hmax, rfl, rfl⟩
    | andArgument argument more =>
        simp only [Derivation.yield, List.cons_append, reads_cons_iff, reads_append_iff] at hr
        obtain ⟨span, mid, rfl, _, hm, span', after, rfl, ha⟩ := hr
        simp only [Derivation.nesting] at hn
        refine .inr ⟨span, mid, argument.tree, span', after, more.tree, rfl, ?_, ?_, rfl⟩
        -- What follows the argument is read from the tokens behind it.
        · refine Derivation.requires hm ?_ (by omega)
          simpa [ha.values_eq] using hmax.1
        · exact ⟨more, ha, hmax.2, by omega, rfl⟩
  · rintro (⟨hh, rfl, rfl⟩ | ⟨span, mid, argument, span', after, g, rfl, ha, hg, rfl⟩)
    · exact ⟨.noArgument, reads_nil_iff.mpr rfl, hh, Nat.zero_le _, rfl⟩
    · obtain ⟨d, hr, hmax, hn, rfl⟩ := ha.exists_derivation
      obtain ⟨more, hr', hmax', hn', rfl⟩ := hg
      refine ⟨.andArgument d more, ?_, ⟨?_, hmax'⟩, ?_, rfl⟩
      · simp only [Derivation.yield, List.cons_append, reads_cons_iff, reads_append_iff]
        exact ⟨span, mid, rfl, _, hr, span', after, rfl, hr'⟩
      · simpa [hr'.values_eq] using hmax
      · simp only [Derivation.nesting]
        omega

theorem derives_factor_iff {e : Expr} :
    Derives k .factor ts e rest ↔
      (∃ lexeme span, ts = ⟨.number lexeme, span⟩ :: rest ∧ Parser.literal? lexeme = some e) ∨
      (∃ name span mid f, ts = ⟨.identifier name, span⟩ :: mid ∧
        Derives k .arguments mid f rest ∧ e = f (.var name)) ∨
      ∃ span mid span', ts = ⟨.leftParen, span⟩ :: mid ∧ Requires k mid e (⟨.rightParen, span'⟩ :: rest) := by
  constructor
  · rintro ⟨d, hr, hmax, hn, rfl⟩
    cases d with
    | number lexeme literal h =>
        simp only [Derivation.yield, reads_cons_iff, reads_nil_iff] at hr
        obtain ⟨span, _, rfl, rfl⟩ := hr
        exact .inl ⟨lexeme, span, rfl, h⟩
    | application name arguments =>
        simp only [Derivation.yield, reads_cons_iff] at hr
        obtain ⟨span, mid, rfl, hm⟩ := hr
        exact .inr (.inl ⟨name, span, mid, arguments.tree, rfl, ⟨arguments, hm, hmax, hn, rfl⟩, rfl⟩)
    | group inner =>
        simp only [Derivation.yield, List.cons_append, reads_cons_iff, reads_append_iff,
          reads_nil_iff] at hr
        obtain ⟨span, mid, rfl, _, hm, span', _, rfl, rfl⟩ := hr
        exact .inr (.inr ⟨span, mid, span', rfl, Derivation.requires hm hmax hn⟩)
  · rintro (⟨lexeme, span, rfl, h⟩ | ⟨name, span, mid, f, rfl, hf, rfl⟩ | ⟨span, mid, span', rfl, h⟩)
    · exact ⟨.number lexeme e h, (reads_nil_iff.mpr rfl).cons _ span, trivial, Nat.zero_le _, rfl⟩
    · obtain ⟨d, hr, hmax, hn, rfl⟩ := hf
      exact ⟨.application name d, hr.cons _ span, hmax, hn, rfl⟩
    · obtain ⟨d, hr, hmax, hn, rfl⟩ := h.exists_derivation
      refine ⟨.group d, ?_, hmax, hn, rfl⟩
      simp only [Derivation.yield, List.cons_append, reads_cons_iff, reads_append_iff, reads_nil_iff]
      exact ⟨span, mid, rfl, _, hr, span', rest, rfl, rfl⟩

theorem derives_factors_iff {f : Expr → Expr} :
    Derives k .factors ts f rest ↔
      (∀ op : Operator, op.joinsTerms = false → (values ts).head? ≠ some op.token) ∧ f = id ∧ rest = ts ∨
      ∃ op span mid right after g, ts = ⟨op.token, span⟩ :: mid ∧ op.joinsTerms = false ∧
        Derives k .factor mid right after ∧ Derives k .factors after g rest ∧
        f = fun left => g (.binary op left right) := by
  constructor
  · rintro ⟨d, hr, hmax, hn, rfl⟩
    cases d with
    | noFactor =>
        obtain rfl := reads_nil_iff.mp hr
        exact .inl ⟨hmax, rfl, rfl⟩
    | andFactor op hop right more =>
        simp only [Derivation.yield, List.cons_append, reads_cons_iff, reads_append_iff] at hr
        obtain ⟨span, mid, rfl, after, hm, ha⟩ := hr
        obtain ⟨hn₁, hn₂⟩ := Nat.max_le.mp hn
        refine .inr ⟨op, span, mid, right.tree, after, more.tree, rfl, hop, ?_, ?_, rfl⟩
        · exact ⟨right, hm, ha.values_eq ▸ hmax.1, hn₁, rfl⟩
        · exact ⟨more, ha, hmax.2, hn₂, rfl⟩
  · rintro (⟨hh, rfl, rfl⟩ | ⟨op, span, mid, right, after, g, rfl, hop, hr, hg, rfl⟩)
    · exact ⟨.noFactor, reads_nil_iff.mpr rfl, hh, Nat.zero_le _, rfl⟩
    · obtain ⟨d, hr, hmax, hn, rfl⟩ := hr
      obtain ⟨more, hr', hmax', hn', rfl⟩ := hg
      refine ⟨.andFactor op hop d more, ?_, ⟨hr'.values_eq ▸ hmax, hmax'⟩, Nat.max_le.mpr ⟨hn, hn'⟩, rfl⟩
      simp only [Derivation.yield, List.cons_append, reads_cons_iff, reads_append_iff]
      exact ⟨span, mid, rfl, after, hr, hr'⟩

theorem derives_term_iff {e : Expr} :
    Derives k .term ts e rest ↔
      ∃ first mid f, Derives k .factor ts first mid ∧ Derives k .factors mid f rest ∧ e = f first := by
  constructor
  · rintro ⟨d, hr, hmax, hn, rfl⟩
    cases d with
    | product first more =>
        obtain ⟨mid, hm, ha⟩ := reads_append_iff.mp hr
        obtain ⟨hn₁, hn₂⟩ := Nat.max_le.mp hn
        refine ⟨first.tree, mid, more.tree, ?_, ⟨more, ha, hmax.2, hn₂, rfl⟩, rfl⟩
        exact ⟨first, hm, ha.values_eq ▸ hmax.1, hn₁, rfl⟩
  · rintro ⟨_, mid, _, ⟨first, hr, hmax, hn, rfl⟩, ⟨more, hr', hmax', hn', rfl⟩, rfl⟩
    exact ⟨.product first more, reads_append_iff.mpr ⟨mid, hr, hr'⟩, ⟨hr'.values_eq ▸ hmax, hmax'⟩,
      Nat.max_le.mpr ⟨hn, hn'⟩, rfl⟩

theorem derives_terms_iff {f : Expr → Expr} :
    Derives k .terms ts f rest ↔
      (∀ op : Operator, op.joinsTerms = true → (values ts).head? ≠ some op.token) ∧ f = id ∧ rest = ts ∨
      ∃ op span mid right after g, ts = ⟨op.token, span⟩ :: mid ∧ op.joinsTerms = true ∧
        Derives k .term mid right after ∧ Derives k .terms after g rest ∧
        f = fun left => g (.binary op left right) := by
  constructor
  · rintro ⟨d, hr, hmax, hn, rfl⟩
    cases d with
    | noTerm =>
        obtain rfl := reads_nil_iff.mp hr
        exact .inl ⟨hmax, rfl, rfl⟩
    | andTerm op hop right more =>
        simp only [Derivation.yield, List.cons_append, reads_cons_iff, reads_append_iff] at hr
        obtain ⟨span, mid, rfl, after, hm, ha⟩ := hr
        obtain ⟨hn₁, hn₂⟩ := Nat.max_le.mp hn
        refine .inr ⟨op, span, mid, right.tree, after, more.tree, rfl, hop, ?_, ?_, rfl⟩
        · exact ⟨right, hm, ha.values_eq ▸ hmax.1, hn₁, rfl⟩
        · exact ⟨more, ha, hmax.2, hn₂, rfl⟩
  · rintro (⟨hh, rfl, rfl⟩ | ⟨op, span, mid, right, after, g, rfl, hop, hr, hg, rfl⟩)
    · exact ⟨.noTerm, reads_nil_iff.mpr rfl, hh, Nat.zero_le _, rfl⟩
    · obtain ⟨d, hr, hmax, hn, rfl⟩ := hr
      obtain ⟨more, hr', hmax', hn', rfl⟩ := hg
      refine ⟨.andTerm op hop d more, ?_, ⟨hr'.values_eq ▸ hmax, hmax'⟩, Nat.max_le.mpr ⟨hn, hn'⟩, rfl⟩
      simp only [Derivation.yield, List.cons_append, reads_cons_iff, reads_append_iff]
      exact ⟨span, mid, rfl, after, hr, hr'⟩

theorem derives_expression_iff {e : Expr} :
    Derives k .expression ts e rest ↔
      (∃ name span span' mid value, ts = ⟨.identifier name, span⟩ :: ⟨.binding, span'⟩ :: mid ∧
        Requires k mid value rest ∧ e = .binding name value) ∨
      (∃ parameter span span' mid body, ts = ⟨.identifier parameter, span⟩ :: ⟨.mapsTo, span'⟩ :: mid ∧
        Requires k mid body rest ∧ e = .function parameter body) ∨
      (∃ span mid condition span₁ mid₁ consequence span₂ mid₂ alternative, ts = ⟨.ifWord, span⟩ :: mid ∧
        Requires k mid condition (⟨.thenWord, span₁⟩ :: mid₁) ∧
        Requires k mid₁ consequence (⟨.elseWord, span₂⟩ :: mid₂) ∧
        Requires k mid₂ alternative rest ∧ e = .ifElse condition consequence alternative) ∨
      ¬ OpensBinder (values ts) ∧
        ∃ first mid f, Derives k .term ts first mid ∧ Derives k .terms mid f rest ∧ e = f first := by
  constructor
  · rintro ⟨d, hr, hmax, hn, rfl⟩
    cases d with
    | binding name value =>
        simp only [Derivation.yield, reads_cons_iff] at hr
        obtain ⟨span, _, rfl, span', mid, rfl, hm⟩ := hr
        exact .inl ⟨name, span, span', mid, value.tree, rfl, Derivation.requires hm hmax hn, rfl⟩
    | function parameter body =>
        simp only [Derivation.yield, reads_cons_iff] at hr
        obtain ⟨span, _, rfl, span', mid, rfl, hm⟩ := hr
        exact .inr (.inl ⟨parameter, span, span', mid, body.tree, rfl, Derivation.requires hm hmax hn, rfl⟩)
    | ifElse condition consequence alternative =>
        simp only [Derivation.yield, List.cons_append, List.append_assoc, reads_cons_iff,
          reads_append_iff] at hr
        obtain ⟨span, mid, rfl, _, hc, span₁, mid₁, rfl, _, ht, span₂, mid₂, rfl, he⟩ := hr
        simp only [Derivation.nesting] at hn
        refine .inr (.inr (.inl ⟨span, mid, condition.tree, span₁, mid₁, consequence.tree, span₂, mid₂,
          alternative.tree, rfl, ?_, ?_, ?_, rfl⟩))
        · refine Derivation.requires hc ?_ (by omega)
          simpa [ht.values_eq, he.values_eq] using hmax.1
        · refine Derivation.requires ht ?_ (by omega)
          simpa [he.values_eq] using hmax.2.1
        · exact Derivation.requires he hmax.2.2 (by omega)
    | sum first more =>
        obtain ⟨mid, hm, ha⟩ := reads_append_iff.mp hr
        obtain ⟨hn₁, hn₂⟩ := Nat.max_le.mp hn
        refine .inr (.inr (.inr ⟨?_, first.tree, mid, more.tree, ?_, ⟨more, ha, hmax.2.2, hn₂, rfl⟩, rfl⟩))
        -- The derivation does not start like a binding, and its yield is what the tokens start with.
        · rw [hm.values_eq, ha.values_eq]
          exact hmax.1
        · exact ⟨first, hm, ha.values_eq ▸ hmax.2.1, hn₁, rfl⟩
  · rintro (⟨name, span, span', mid, value, rfl, hv, rfl⟩ | ⟨parameter, span, span', mid, body, rfl, hb, rfl⟩ |
      ⟨span, mid, condition, span₁, mid₁, consequence, span₂, mid₂, alternative, rfl, hc, ht, he, rfl⟩ |
      ⟨hopen, first, mid, f, hfirst, hmore, rfl⟩)
    · obtain ⟨d, hr, hmax, hn, rfl⟩ := hv.exists_derivation
      exact ⟨.binding name d, (hr.cons _ span').cons _ span, hmax, hn, rfl⟩
    · obtain ⟨d, hr, hmax, hn, rfl⟩ := hb.exists_derivation
      exact ⟨.function parameter d, (hr.cons _ span').cons _ span, hmax, hn, rfl⟩
    · obtain ⟨dc, hrc, hmaxc, hnc, rfl⟩ := hc.exists_derivation
      obtain ⟨dt, hrt, hmaxt, hnt, rfl⟩ := ht.exists_derivation
      obtain ⟨de, hre, hmaxe, hne, rfl⟩ := he.exists_derivation
      refine ⟨.ifElse dc dt de, ?_, ⟨?_, ?_, hmaxe⟩, ?_, rfl⟩
      · simp only [Derivation.yield, List.cons_append, List.append_assoc, reads_cons_iff, reads_append_iff]
        exact ⟨span, mid, rfl, _, hrc, span₁, mid₁, rfl, _, hrt, span₂, mid₂, rfl, hre⟩
      · simpa [hrt.values_eq, hre.values_eq] using hmaxc
      · simpa [hre.values_eq] using hmaxt
      · simp only [Derivation.nesting]
        omega
    · obtain ⟨d, hr, hmax, hn, rfl⟩ := hfirst
      obtain ⟨more, hr', hmax', hn', rfl⟩ := hmore
      refine ⟨.sum d more, reads_append_iff.mpr ⟨mid, hr, hr'⟩, ⟨?_, hr'.values_eq ▸ hmax, hmax'⟩,
        Nat.max_le.mpr ⟨hn, hn'⟩, rfl⟩
      rw [← hr'.values_eq, ← hr.values_eq]
      exact hopen

theorem derives_program_iff {p : Program} :
    Derives k .program ts p rest ↔
      ts = [] ∧ p = [] ∧ rest = [] ∨
      (∃ span mid, ts = ⟨.endLine, span⟩ :: mid ∧ Derives k .program mid p rest) ∨
      ∃ e mid q, Derives k .expression ts e mid ∧ Derives k .program mid q rest ∧ p = e :: q := by
  constructor
  · rintro ⟨d, hr, hmax, hn, rfl⟩
    cases d with
    | endOfText =>
        obtain rfl := reads_nil_iff.mp hr
        obtain rfl := List.map_eq_nil_iff.mp hmax
        exact .inl ⟨rfl, rfl, rfl⟩
    | lineEnd more =>
        simp only [Derivation.yield, reads_cons_iff] at hr
        obtain ⟨span, mid, rfl, hm⟩ := hr
        exact .inr (.inl ⟨span, mid, rfl, more, hm, hmax, hn, rfl⟩)
    | statement first more =>
        obtain ⟨mid, hm, ha⟩ := reads_append_iff.mp hr
        obtain ⟨hn₁, hn₂⟩ := Nat.max_le.mp hn
        refine .inr (.inr ⟨first.tree, mid, more.tree, ?_, ⟨more, ha, hmax.2, hn₂, rfl⟩, rfl⟩)
        exact ⟨first, hm, ha.values_eq ▸ hmax.1, hn₁, rfl⟩
  · rintro (⟨rfl, rfl, rfl⟩ | ⟨span, mid, rfl, more, hm, hmax, hn, rfl⟩ |
      ⟨_, mid, _, ⟨first, hr, hmax, hn, rfl⟩, ⟨more, hr', hmax', hn', rfl⟩, rfl⟩)
    · exact ⟨.endOfText, reads_nil_iff.mpr rfl, rfl, Nat.zero_le _, rfl⟩
    · exact ⟨.lineEnd more, hm.cons _ span, hmax, hn, rfl⟩
    · exact ⟨.statement first more, reads_append_iff.mpr ⟨mid, hr, hr'⟩, ⟨hr'.values_eq ▸ hmax, hmax'⟩,
        Nat.max_le.mpr ⟨hn, hn'⟩, rfl⟩

end Mapsto.Grammar
