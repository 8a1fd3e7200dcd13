import Mapsto.Proofs.Parser.Steps
import Mapsto.Proofs.Grammar.Reading

/-!
# `Mapsto.Proofs.Parser.Exact` — the parser accepts the grammar, and nothing else

Each parsing step succeeds exactly where the grammar has a reading (`Mapsto.Proofs.Grammar.Reading`)
whose tree is not too high. The two sides are compared category by category: the equations for the steps
(`Mapsto.Proofs.Parser.Steps`) and the equations for the readings have the same shape, so a step agrees
with its category as soon as the steps below it do. `required` closes the circle by induction on the
number of places that may be open; the loops go by induction on their clocks, which are long enough
because no round gives tokens back.
-/

namespace Mapsto.Parser

open Grammar

/-- A tree with its true height. -/
def measured (e : Expr) : Measured := ⟨e, e.height⟩

/-- A step succeeds exactly where `R` has a reading, unless the tree is too high, and measures the tree. -/
def Parses (s : Setting) (step : Parse Measured) (R : Tokens → Expr → Tokens → Prop) : Prop :=
  ∀ ts m rest, step ts = .ok m rest ↔ ∃ e, R ts e rest ∧ e.height ≤ s.limit ∧ m = measured e

/-- The same of a step that may find an end of line instead, which has to be the first token. -/
structure ParsesItem (s : Setting) (step : Parse Item) (R : Tokens → Expr → Tokens → Prop) : Prop where
  expr_iff : ∀ ts m rest,
    step ts = .ok (.expr m) rest ↔ ∃ e, R ts e rest ∧ e.height ≤ s.limit ∧ m = measured e
  lineEnd_iff : ∀ ts got rest,
    step ts = .ok (.lineEnd got) rest ↔ ∃ span, ts = ⟨.endLine, span⟩ :: rest ∧ got = ⟨.endLine, span⟩

/-! ## Tokens in front -/

theorem head?_values_eq_some_iff {ts : Tokens} {t : Token} :
    (values ts).head? = some t ↔ ∃ span mid, ts = ⟨t, span⟩ :: mid := by
  cases ts with
  | nil => simp
  | cons u us =>
      constructor
      · intro h
        exact ⟨u.span, us, by rw [← Option.some.inj h]⟩
      · rintro ⟨span, mid, h⟩
        cases h
        rfl

theorem sumOperator?_eq_some_iff {t : Token} {op : Operator} :
    sumOperator? t = some op ↔ t = op.token ∧ op.joinsTerms = true := by
  constructor
  · intro h
    cases t <;> cases h <;> exact ⟨rfl, rfl⟩
  · rintro ⟨rfl, h⟩
    cases op <;> first | rfl | cases h

theorem productOperator?_eq_some_iff {t : Token} {op : Operator} :
    productOperator? t = some op ↔ t = op.token ∧ op.joinsTerms = false := by
  constructor
  · intro h
    cases t <;> cases h <;> exact ⟨rfl, rfl⟩
  · rintro ⟨rfl, h⟩
    cases op <;> first | rfl | cases h

theorem startsSum_iff {ts : Tokens} (h : ∀ span mid, ts ≠ ⟨.ifWord, span⟩ :: mid) :
    StartsSum ts ↔ ¬ OpensBinder (values ts) := by
  constructor
  · intro hs ho
    unfold OpensBinder at ho
    split at ho
    · rename_i name tail heq
      obtain ⟨span, mid, rfl⟩ := head?_values_eq_some_iff.mp (congrArg List.head? heq)
      obtain ⟨span', mid', rfl⟩ := head?_values_eq_some_iff.mp (congrArg List.head? (List.cons.inj heq).2)
      exact hs.not_binding name span span' mid' rfl
    · rename_i name tail heq
      obtain ⟨span, mid, rfl⟩ := head?_values_eq_some_iff.mp (congrArg List.head? heq)
      obtain ⟨span', mid', rfl⟩ := head?_values_eq_some_iff.mp (congrArg List.head? (List.cons.inj heq).2)
      exact hs.not_function name span span' mid' rfl
    · exact ho
  · intro ho
    refine ⟨?_, ?_, h⟩
    · rintro name span span' mid rfl
      exact ho trivial
    · rintro name span span' mid rfl
      exact ho trivial

/-! ## Heights -/

theorem height_of_literal? {lexeme : String} {e : Expr} (h : literal? lexeme = some e) : e.height = 1 := by
  unfold literal? at h
  split at h
  · obtain ⟨x, -, rfl⟩ := Option.map_eq_some_iff.mp h
    rfl
  · obtain ⟨n, -, rfl⟩ := Option.map_eq_some_iff.mp h
    rfl

/-! ## The loops -/

variable {s : Setting} {k : Nat} {sub : Parse Measured}

theorem arguments_eq_ok_iff (hsub : Parses s sub (Requires k)) {start clock ts rest : Tokens}
    {callee : Expr}
    {m : Measured} (hclock : ts.length ≤ clock.length) (hcallee : callee.height ≤ s.limit) :
    arguments s sub start clock (measured callee) ts = .ok m rest ↔
      ∃ f, Derives k .arguments ts f rest ∧ (f callee).height ≤ s.limit ∧ m = measured (f callee) := by
  -- The clock bounds the number of arguments. It is as long as the tokens, so it never runs out first.
  induction clock generalizing ts callee with
  | nil =>
      obtain rfl := List.eq_nil_of_length_eq_zero (Nat.le_zero.mp hclock)
      rw [arguments_nil_eq_ok_iff]
      constructor
      · rintro ⟨rfl, rfl⟩
        exact ⟨id, derives_arguments_iff.mpr (.inl ⟨nofun, rfl, rfl⟩), hcallee, rfl⟩
      · rintro ⟨f, hf, -, rfl⟩
        rcases derives_arguments_iff.mp hf with ⟨-, rfl, rfl⟩ | ⟨_, _, _, _, _, _, heq, -⟩
        · exact ⟨rfl, rfl⟩
        · cases heq
  | cons t clock ih =>
      rw [arguments_cons_eq_ok_iff]
      constructor
      · rintro (⟨hno, rfl, rfl⟩ | ⟨span, mid, argument, span', after, rfl, hargument, hle, hmore⟩)
        · refine ⟨id, derives_arguments_iff.mpr (.inl ⟨?_, rfl, rfl⟩), hcallee, rfl⟩
          intro hh
          obtain ⟨span, mid, heq⟩ := head?_values_eq_some_iff.mp hh
          exact hno span mid heq
        · obtain ⟨a, ha, -, rfl⟩ := (hsub mid argument _).mp hargument
          have hlen := ha.length_le
          have hcall : arguments s sub start clock (measured (.call callee a)) after = .ok m rest := hmore
          simp only [List.length_cons] at hclock hlen
          have hheight' : (Expr.call callee a).height ≤ s.limit := hle
          obtain ⟨g, hg, hheight, rfl⟩ := (ih (by omega) hheight').mp hcall
          refine ⟨fun callee => g (.call callee a), ?_, hheight, rfl⟩
          exact derives_arguments_iff.mpr (.inr ⟨span, mid, a, span', after, g, rfl, ha, hg, rfl⟩)
      · rintro ⟨f, hf, hheight, rfl⟩
        rcases derives_arguments_iff.mp hf with
          ⟨hno, rfl, rfl⟩ | ⟨span, mid, a, span', after, g, rfl, ha, hg, rfl⟩
        · refine .inl ⟨?_, rfl, rfl⟩
          rintro span mid rfl
          exact hno rfl
        · have hlen := ha.length_le
          simp only [List.length_cons] at hclock hlen
          -- the whole call is no higher than what the further arguments make of it
          have hcall : (Expr.call callee a).height ≤ s.limit :=
            Nat.le_trans (hg.raises _) hheight
          have ha' : a.height ≤ s.limit := by
            simp only [Expr.height] at hcall
            omega
          refine .inr ⟨span, mid, measured a, span', after, rfl, ?_, hcall, ?_⟩
          · exact (hsub mid _ _).mpr ⟨a, ha, ha', rfl⟩
          · exact (ih (by omega) hcall).mpr ⟨g, hg, hheight, rfl⟩

/-- What the two levels of operators have in common: `R` reads operands and `Rep` reads repetitions of
an operator and an operand. -/
structure IsChain (operator? : Token → Option Operator) (R : Tokens → Expr → Tokens → Prop)
    (Rep : Tokens → (Expr → Expr) → Tokens → Prop) : Prop where
  step_iff : ∀ {ts f rest}, Rep ts f rest ↔
    (∀ u mid, ts = u :: mid → operator? u.value = none) ∧ f = id ∧ rest = ts ∨
    ∃ u op mid right after g, ts = u :: mid ∧ operator? u.value = some op ∧ R mid right after ∧
      Rep after g rest ∧ f = fun left => g (.binary op left right)
  length_le : ∀ {ts e rest}, R ts e rest → rest.length ≤ ts.length
  height_le : ∀ {ts f rest}, Rep ts f rest → ∀ e : Expr, e.height ≤ (f e).height

variable {operator? : Token → Option Operator} {operand : Parse Item} {R : Tokens → Expr → Tokens → Prop}
  {Rep : Tokens → (Expr → Expr) → Tokens → Prop}

theorem chain_eq_ok_iff (hchain : IsChain operator? R Rep) (hoperand : ParsesItem s operand R)
    {start clock ts rest : Tokens} {left : Expr} {m : Measured} (hclock : ts.length ≤ clock.length)
    (hleft : left.height ≤ s.limit) :
    chain s operator? operand start clock (measured left) ts = .ok m rest ↔
      ∃ f, Rep ts f rest ∧ (f left).height ≤ s.limit ∧ m = measured (f left) := by
  induction clock generalizing ts left with
  | nil =>
      obtain rfl := List.eq_nil_of_length_eq_zero (Nat.le_zero.mp hclock)
      rw [chain_nil_eq_ok_iff]
      constructor
      · rintro ⟨rfl, rfl⟩
        exact ⟨id, hchain.step_iff.mpr (.inl ⟨nofun, rfl, rfl⟩), hleft, rfl⟩
      · rintro ⟨f, hf, -, rfl⟩
        rcases hchain.step_iff.mp hf with ⟨-, rfl, rfl⟩ | ⟨_, _, _, _, _, _, heq, -⟩
        · exact ⟨rfl, rfl⟩
        · cases heq
  | cons t clock ih =>
      rw [chain_cons_eq_ok_iff]
      constructor
      · rintro (⟨hno, rfl, rfl⟩ | ⟨u, op, mid, right, after, rfl, hop, hright, hle, hmore⟩)
        · exact ⟨id, hchain.step_iff.mpr (.inl ⟨hno, rfl, rfl⟩), hleft, rfl⟩
        · obtain ⟨r, hr, -, rfl⟩ := (hoperand.expr_iff mid right after).mp hright
          have hlen := hchain.length_le hr
          -- The parser goes on with the operation so far as its left operand.
          have hbinary : chain s operator? operand start clock (measured (.binary op left r)) after =
              .ok m rest := hmore
          simp only [List.length_cons] at hclock
          have hheight' : (Expr.binary op left r).height ≤ s.limit := hle
          obtain ⟨g, hg, hheight, rfl⟩ := (ih (by omega) hheight').mp hbinary
          refine ⟨fun left => g (.binary op left r), ?_, hheight, rfl⟩
          exact hchain.step_iff.mpr (.inr ⟨u, op, mid, r, after, g, rfl, hop, hr, hg, rfl⟩)
      · rintro ⟨f, hf, hheight, rfl⟩
        rcases hchain.step_iff.mp hf with ⟨hno, rfl, rfl⟩ | ⟨u, op, mid, r, after, g, rfl, hop, hr, hg, rfl⟩
        · exact .inl ⟨hno, rfl, rfl⟩
        · have hlen := hchain.length_le hr
          simp only [List.length_cons] at hclock
          -- The check on the way passes, because the whole chain is at least as high.
          have hbinary : (Expr.binary op left r).height ≤ s.limit :=
            Nat.le_trans (hchain.height_le hg _) hheight
          have hr' : r.height ≤ s.limit := by
            simp only [Expr.height] at hbinary
            omega
          refine .inr ⟨u, op, mid, measured r, after, rfl, hop, ?_, hbinary, ?_⟩
          · exact (hoperand.expr_iff mid _ _).mpr ⟨r, hr, hr', rfl⟩
          · exact (ih (by omega) hbinary).mpr ⟨g, hg, hheight, rfl⟩

theorem parsesItem_leftAssociative (hchain : IsChain operator? R Rep) (hoperand : ParsesItem s operand R) :
    ParsesItem s (leftAssociative s operator? operand) fun ts e rest =>
      ∃ first mid f, R ts first mid ∧ Rep mid f rest ∧ e = f first := by
  constructor
  · intro ts m rest
    rw [leftAssociative_eq_ok_iff]
    constructor
    · rintro (⟨_, _, hitem⟩ | ⟨left, mid, tree, hfirst, hmore, hitem⟩)
      · cases hitem
      · cases hitem
        obtain ⟨first, hR, hheight, rfl⟩ := (hoperand.expr_iff ts left mid).mp hfirst
        obtain ⟨f, hf, hheight', rfl⟩ := (chain_eq_ok_iff hchain hoperand (Nat.le_refl _) hheight).mp hmore
        exact ⟨f first, ⟨first, mid, f, hR, hf, rfl⟩, hheight', rfl⟩
    · rintro ⟨_, ⟨first, mid, f, hfirst, hf, rfl⟩, hheight, rfl⟩
      have hheight' : first.height ≤ s.limit := Nat.le_trans (hchain.height_le hf first) hheight
      refine .inr ⟨measured first, mid, _, ?_, ?_, rfl⟩
      · exact (hoperand.expr_iff ts _ mid).mpr ⟨first, hfirst, hheight', rfl⟩
      · exact (chain_eq_ok_iff hchain hoperand (Nat.le_refl _) hheight').mpr ⟨f, hf, hheight, rfl⟩
  · intro ts got rest
    rw [leftAssociative_eq_ok_iff, ← hoperand.lineEnd_iff]
    constructor
    · rintro (⟨got', h, hitem⟩ | ⟨_, _, _, _, _, hitem⟩)
      · cases hitem
        exact h
      · cases hitem
    · exact fun h => .inl ⟨got, h, rfl⟩

/-! ## The categories -/

/-- A repetition of the grammar is a chain, if the parser knows the operators of that level. -/
theorem isChain_of_rule {joins : Bool}
    (hop : ∀ {t op}, operator? t = some op ↔ t = Operator.token op ∧ op.joinsTerms = joins)
    (hrule : ∀ {ts f rest}, Rep ts f rest ↔
      (∀ op : Operator, op.joinsTerms = joins → (values ts).head? ≠ some op.token) ∧ f = id ∧ rest = ts ∨
      ∃ op span mid right after g, ts = ⟨op.token, span⟩ :: mid ∧ op.joinsTerms = joins ∧
        R mid right after ∧ Rep after g rest ∧ f = fun left => g (.binary op left right))
    (hlength : ∀ {ts e rest}, R ts e rest → rest.length ≤ ts.length)
    (hheight : ∀ {ts f rest}, Rep ts f rest → ∀ e : Expr, e.height ≤ (f e).height) :
    IsChain operator? R Rep := by
  refine ⟨?_, hlength, hheight⟩
  intro ts f rest
  rw [hrule]
  constructor
  · rintro (⟨hno, rfl, rfl⟩ | ⟨op, span, mid, right, after, g, rfl, hj, hr, hg, rfl⟩)
    · refine .inl ⟨?_, rfl, rfl⟩
      rintro u mid rfl
      refine Option.eq_none_iff_forall_ne_some.mpr fun op h => ?_
      obtain ⟨ht, hj⟩ := hop.mp h
      exact hno op hj (congrArg some ht)
    · exact .inr ⟨_, op, mid, right, after, g, rfl, hop.mpr ⟨rfl, hj⟩, hr, hg, rfl⟩
  · rintro (⟨hno, rfl, rfl⟩ | ⟨u, op, mid, right, after, g, rfl, ho, hr, hg, rfl⟩)
    · refine .inl ⟨?_, rfl, rfl⟩
      intro op hj hh
      obtain ⟨span, mid, rfl⟩ := head?_values_eq_some_iff.mp hh
      have hnone := hno _ mid rfl
      rw [hop.mpr ⟨rfl, hj⟩] at hnone
      cases hnone
    · obtain ⟨ht, hj⟩ := hop.mp ho
      exact .inr ⟨op, u.span, mid, right, after, g, by rw [← ht], hj, hr, hg, rfl⟩

theorem isChain_factors (k : Nat) : IsChain productOperator? (Derives k .factor) (Derives k .factors) :=
  isChain_of_rule productOperator?_eq_some_iff derives_factors_iff (fun h => h.length_le)
    fun h => h.raises

theorem isChain_terms (k : Nat) : IsChain sumOperator? (Derives k .term) (Derives k .terms) :=
  isChain_of_rule sumOperator?_eq_some_iff derives_terms_iff (fun h => h.length_le)
    fun h => h.raises

theorem parsesItem_factor (hlimit : 1 ≤ s.limit) (hsub : Parses s sub (Requires k)) :
    ParsesItem s (factor s sub) (Derives k .factor) := by
  have hvar : ∀ name, (Expr.var name).height ≤ s.limit := fun _ => hlimit
  constructor
  · intro ts m rest
    rw [factor_eq_ok_iff]
    constructor
    · rintro (⟨lexeme, span, e, rfl, hl, hitem⟩ | ⟨name, span, mid, tree, rfl, htree, hitem⟩ |
        ⟨span, mid, tree, span', rfl, htree, hitem⟩ | ⟨span, rfl, hitem⟩)
      · cases hitem
        refine ⟨e, derives_factor_iff.mpr (.inl ⟨lexeme, span, rfl, hl⟩), ?_, ?_⟩
        · rw [height_of_literal? hl]
          exact hlimit
        · rw [measured, height_of_literal? hl]
      · cases hitem
        obtain ⟨f, hf, hheight, rfl⟩ := (arguments_eq_ok_iff hsub (Nat.le_refl _) (hvar name)).mp htree
        exact ⟨_, derives_factor_iff.mpr (.inr (.inl ⟨name, span, mid, f, rfl, hf, rfl⟩)), hheight, rfl⟩
      · cases hitem
        obtain ⟨e, he, hheight, rfl⟩ := (hsub mid _ _).mp htree
        exact ⟨e, derives_factor_iff.mpr (.inr (.inr ⟨span, mid, span', rfl, he⟩)), hheight, rfl⟩
      · cases hitem
    · rintro ⟨e, he, hheight, rfl⟩
      rcases derives_factor_iff.mp he with ⟨lexeme, span, rfl, hl⟩ | ⟨name, span, mid, f, rfl, hf, rfl⟩ |
        ⟨span, mid, span', rfl, h⟩
      · refine .inl ⟨lexeme, span, e, rfl, hl, ?_⟩
        rw [measured, height_of_literal? hl]
      · refine .inr (.inl ⟨name, span, mid, _, rfl, ?_, rfl⟩)
        exact (arguments_eq_ok_iff hsub (Nat.le_refl _) (hvar name)).mpr ⟨f, hf, hheight, rfl⟩
      · exact .inr (.inr (.inl ⟨span, mid, _, span', rfl, (hsub mid _ _).mpr ⟨e, h, hheight, rfl⟩, rfl⟩))
  · intro ts got rest
    rw [factor_eq_ok_iff]
    constructor
    · rintro (⟨_, _, _, _, _, hitem⟩ | ⟨_, _, _, _, _, _, hitem⟩ | ⟨_, _, _, _, _, _, hitem⟩ |
        ⟨span, rfl, hitem⟩)
      · cases hitem
      · cases hitem
      · cases hitem
      · cases hitem
        exact ⟨span, rfl, rfl⟩
    · rintro ⟨span, rfl, rfl⟩
      exact .inr (.inr (.inr ⟨span, rfl, rfl⟩))

theorem parsesItem_term (hlimit : 1 ≤ s.limit) (hsub : Parses s sub (Requires k)) :
    ParsesItem s (term s sub) (Derives k .term) := by
  have hrule : Derives k .term = fun ts e rest =>
      ∃ first mid f, Derives k .factor ts first mid ∧ Derives k .factors mid f rest ∧ e = f first := by
    funext ts e rest
    exact propext derives_term_iff
  rw [hrule]
  exact parsesItem_leftAssociative (isChain_factors k) (parsesItem_factor hlimit hsub)

/-- A sum is an expression that starts neither a binding nor a function. -/
theorem parsesItem_sum (hlimit : 1 ≤ s.limit) (hsub : Parses s sub (Requires k)) :
    ParsesItem s (sum s sub) fun ts e rest =>
      ∃ first mid f, Derives k .term ts first mid ∧ Derives k .terms mid f rest ∧ e = f first :=
  parsesItem_leftAssociative (isChain_terms k) (parsesItem_term hlimit hsub)

theorem parsesItem_expression (hlimit : 1 ≤ s.limit) (hsub : Parses s sub (Requires k)) :
    ParsesItem s (expression s sub) (Derives k .expression) := by
  have hsum := parsesItem_sum hlimit hsub
  constructor
  · intro ts m rest
    rw [expression_eq_ok_iff]
    constructor
    · rintro (⟨name, span, span', mid, value, rfl, hvalue, hle, hitem⟩ |
        ⟨parameter, span, span', mid, body, rfl, hbody, hle, hitem⟩ |
        ⟨span, mid, c, span₁, mid₁, t, span₂, mid₂, e, rfl, hc, ht, he, hle, hitem⟩ | ⟨hstart, h⟩)
      · cases hitem
        obtain ⟨v, hv, -, rfl⟩ := (hsub _ _ _).mp hvalue
        exact ⟨_, derives_expression_iff.mpr (.inl ⟨name, span, span', mid, v, rfl, hv, rfl⟩), hle, rfl⟩
      · cases hitem
        obtain ⟨b, hb, -, rfl⟩ := (hsub _ _ _).mp hbody
        exact ⟨_, derives_expression_iff.mpr (.inr (.inl ⟨parameter, span, span', mid, b, rfl, hb, rfl⟩)),
          hle, rfl⟩
      · cases hitem
        obtain ⟨c, hRc, -, rfl⟩ := (hsub _ _ _).mp hc
        obtain ⟨t, hRt, -, rfl⟩ := (hsub _ _ _).mp ht
        obtain ⟨e, hRe, -, rfl⟩ := (hsub _ _ _).mp he
        exact ⟨_, derives_expression_iff.mpr (.inr (.inr (.inl
          ⟨span, mid, c, span₁, mid₁, t, span₂, mid₂, e, rfl, hRc, hRt, hRe, rfl⟩))), hle, rfl⟩
      · obtain ⟨e, he, hheight, rfl⟩ := (hsum.expr_iff ts m rest).mp h
        have hopen := (startsSum_iff hstart.not_ifElse).mp hstart
        exact ⟨e, derives_expression_iff.mpr (.inr (.inr (.inr ⟨hopen, he⟩))), hheight, rfl⟩
    · rintro ⟨e, he, hheight, rfl⟩
      rcases derives_expression_iff.mp he with ⟨name, span, span', mid, v, rfl, hv, rfl⟩ |
        ⟨parameter, span, span', mid, b, rfl, hb, rfl⟩ |
        ⟨span, mid, c, span₁, mid₁, t, span₂, mid₂, e, rfl, hRc, hRt, hRe, rfl⟩ | ⟨hopen, hsumOf⟩
      · refine .inl ⟨name, span, span', mid, measured v, rfl, ?_, hheight, rfl⟩
        exact (hsub _ _ _).mpr ⟨v, hv, Nat.le_of_succ_le hheight, rfl⟩
      · refine .inr (.inl ⟨parameter, span, span', mid, measured b, rfl, ?_, hheight, rfl⟩)
        exact (hsub _ _ _).mpr ⟨b, hb, Nat.le_of_succ_le hheight, rfl⟩
      · have hparts : max (max c.height t.height) e.height + 1 ≤ s.limit := hheight
        refine .inr (.inr (.inl ⟨span, mid, measured c, span₁, mid₁, measured t, span₂, mid₂, measured e, rfl,
          ?_, ?_, ?_, hheight, rfl⟩))
        · exact (hsub _ _ _).mpr ⟨c, hRc, by omega, rfl⟩
        · exact (hsub _ _ _).mpr ⟨t, hRt, by omega, rfl⟩
        · exact (hsub _ _ _).mpr ⟨e, hRe, by omega, rfl⟩
      · refine .inr (.inr (.inr ⟨?_, (hsum.expr_iff ts _ rest).mpr ⟨e, hsumOf, hheight, rfl⟩⟩))
        refine (startsSum_iff ?_).mpr hopen
        -- A choice starts with a keyword, which no term does.
        rintro span mid rfl
        obtain ⟨first, _, _, ⟨d, hr, -⟩, -⟩ := hsumOf
        obtain ⟨t, w, hw, hs⟩ := d.exists_head_term
        have hvalues := hr.values_eq
        rw [hw] at hvalues
        exact not_startsFactor_ifWord hs (List.cons.inj hvalues).1.symm
  · intro ts got rest
    rw [expression_eq_ok_iff]
    constructor
    · rintro (⟨_, _, _, _, _, _, _, _, hitem⟩ | ⟨_, _, _, _, _, _, _, _, hitem⟩ |
        ⟨_, _, _, _, _, _, _, _, _, _, _, _, _, _, hitem⟩ | ⟨-, h⟩)
      · cases hitem
      · cases hitem
      · cases hitem
      · exact (hsum.lineEnd_iff ts got rest).mp h
    · intro h
      refine .inr (.inr (.inr ⟨?_, (hsum.lineEnd_iff ts got rest).mpr h⟩))
      -- An end of line is none of the tokens that the other rules start with.
      obtain ⟨span, rfl, rfl⟩ := h
      exact ⟨nofun, nofun, nofun⟩

/-- A required place is parsed as the grammar has it, with as many places inside one another as may be
opened. -/
theorem parses_required (hlimit : 1 ≤ s.limit) (n : Nat) : Parses s (required s n) (Requires n) := by
  induction n with
  | zero =>
      intro ts m rest
      constructor
      · exact fun h => absurd h required_zero_ne_ok
      · rintro ⟨e, he, -⟩
        exact absurd he not_requires_zero
  | succ n ih =>
      intro ts m rest
      rw [required_succ_eq_ok_iff, (parsesItem_expression hlimit ih).expr_iff]
      simp only [requires_succ_iff]

/-! ## Whole texts -/

theorem statements_eq_ok_iff (hlimit : 1 ≤ s.limit) {clock ts rest : Tokens} {p : Program}
    (hclock : ts.length ≤ clock.length) :
    statements s clock ts = .ok p rest ↔
      Derives s.limit .program ts p rest ∧ ∀ e ∈ p, e.height ≤ s.limit := by
  -- At the top level a statement may open `limit` places, which is what `required` starts with.
  have hexpr := parsesItem_expression hlimit (parses_required hlimit s.limit)
  induction clock generalizing ts p with
  | nil =>
      obtain rfl := List.eq_nil_of_length_eq_zero (Nat.le_zero.mp hclock)
      rw [statements_nil_eq_ok_iff]
      constructor
      · rintro ⟨rfl, rfl⟩
        exact ⟨derives_program_iff.mpr (.inl ⟨rfl, rfl, rfl⟩), nofun⟩
      · rintro ⟨hp, -⟩
        rcases derives_program_iff.mp hp with ⟨-, rfl, rfl⟩ | ⟨_, _, heq, -⟩ | ⟨e, mid, q, he, -⟩
        · exact ⟨rfl, rfl⟩
        · cases heq
        · exact absurd he.length_lt (Nat.not_lt_zero _)
  | cons t clock ih =>
      rw [statements_cons_eq_ok_iff]
      constructor
      · rintro (⟨rfl, rfl, rfl⟩ | ⟨got, mid, hitem, -, hmore⟩ | ⟨tree, mid, q, hitem, -, hmore, rfl⟩)
        · exact ⟨derives_program_iff.mpr (.inl ⟨rfl, rfl, rfl⟩), nofun⟩
        · obtain ⟨span, rfl, rfl⟩ := (hexpr.lineEnd_iff _ _ _).mp hitem
          obtain ⟨hp, hheights⟩ := (ih (Nat.le_of_succ_le_succ hclock)).mp hmore
          exact ⟨derives_program_iff.mpr (.inr (.inl ⟨span, mid, rfl, hp⟩)), hheights⟩
        · obtain ⟨e, he, hheight, rfl⟩ := (hexpr.expr_iff _ _ _).mp hitem
          -- A statement takes at least one token, so one round of the clock is enough for it.
          have hlen := he.length_lt
          simp only [List.length_cons] at hclock
          obtain ⟨hq, hheights⟩ := (ih (by omega)).mp hmore
          refine ⟨derives_program_iff.mpr (.inr (.inr ⟨e, mid, q, he, hq, rfl⟩)), ?_⟩
          exact List.forall_mem_cons.mpr ⟨hheight, hheights⟩
      · rintro ⟨hp, hheights⟩
        rcases derives_program_iff.mp hp with h | ⟨span, mid, rfl, hq⟩ | ⟨e, mid, q, he, hq, rfl⟩
        · exact .inl h
        · refine .inr (.inl ⟨_, mid, (hexpr.lineEnd_iff _ _ _).mpr ⟨span, rfl, rfl⟩, nofun, ?_⟩)
          exact (ih (Nat.le_of_succ_le_succ hclock)).mpr ⟨hq, hheights⟩
        · have hlen := he.length_lt
          simp only [List.length_cons] at hclock
          obtain ⟨hheight, hheights'⟩ := List.forall_mem_cons.mp hheights
          refine .inr (.inr ⟨measured e, mid, q, ?_, ?_, ?_, rfl⟩)
          · exact (hexpr.expr_iff _ _ _).mpr ⟨e, he, hheight, rfl⟩
          · rintro rfl
            exact absurd hlen (Nat.not_lt_zero _)
          · exact (ih (by omega)).mpr ⟨hq, hheights'⟩

/-- A text is parsed to a program exactly if the grammar reads it to its end, within the limits. -/
theorem parse_eq_ok_iff_derives {ts : Tokens} {p : Program} :
    Program.parse ts = .ok p ↔
      Derives maxDepth .program ts p [] ∧ ∀ e ∈ p, e.height ≤ maxDepth := by
  have h : ∀ rest, statements ⟨maxDepth, endOf ts⟩ ts ts = .ok p rest ↔
      Derives maxDepth .program ts p rest ∧ ∀ e ∈ p, e.height ≤ maxDepth := by
    intro rest
    exact statements_eq_ok_iff (show 1 ≤ maxDepth by decide) (Nat.le_refl _)
  unfold Program.parse program
  rw [programWithin_eq_ok_iff]
  constructor
  · rintro ⟨rest, hrun⟩
    obtain ⟨hp, hheights⟩ := (h rest).mp hrun
    obtain rfl := hp.rest_eq_nil
    exact ⟨hp, hheights⟩
  · intro hp
    exact ⟨[], (h []).mpr hp⟩

/-- **Exactness.** A parser that has read nothing accepts its tokens, with the program `p`, exactly if
`p` is the list of trees of a derivation of them within the limits; and no list of tokens has two
derivations. -/
theorem program_eq_ok_iff_derivation (ts : Tokens) (p : Program) :
    ((ofTokens ts).program.1 = .ok p ↔
      ∃ d : Derivation .program, d.Covers ts ∧ d.Within 256 ∧ d.tree = p) ∧
    ∀ d d' : Derivation .program, d.Covers ts → d'.Covers ts → d = d' := by
  refine ⟨?_, fun d d' h h' => h.unique h'⟩
  show Program.parse ts = .ok p ↔ _
  rw [parse_eq_ok_iff_derives, derives_program_nil_iff]
  constructor
  · rintro ⟨⟨d, hcovers, hn, rfl⟩, hheights⟩
    exact ⟨d, hcovers, ⟨hheights, hn⟩, rfl⟩
  · rintro ⟨d, hcovers, hwithin, rfl⟩
    exact ⟨⟨d, hcovers, hwithin.nesting_le, rfl⟩, hwithin.height_le⟩

end Mapsto.Parser
