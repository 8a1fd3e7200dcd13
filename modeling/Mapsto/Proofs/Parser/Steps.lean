import Mapsto.Expr.Parser

/-!
# `Mapsto.Proofs.Parser.Steps` — when the steps of the parser succeed

For every step of the parser one equivalence: it succeeds, with this result and this rest, exactly if
its parts do, one after the other. Everything that is said about successful parsing rests on these and
opens no step again.
-/

namespace Mapsto.Parser

variable {s : Setting} {sub : Parse Measured} {ts rest : Tokens}

/-! ## Combining steps -/

theorem bind_apply {α β : Type} (p : Parse α) (f : α → Parse β) (ts : Tokens) :
    (p >>= f) ts =
      match p ts with
      | .ok a rest => f a rest
      | .error e rest => .error e rest := by
  show EStateM.bind p f ts = _
  unfold EStateM.bind
  cases p ts <;> rfl

theorem bind_eq_ok_iff {α β : Type} {p : Parse α} {f : α → Parse β} {b : β} :
    (p >>= f) ts = .ok b rest ↔ ∃ a mid, p ts = .ok a mid ∧ f a mid = .ok b rest := by
  show (EStateM.bind p f) ts = .ok b rest ↔ _
  unfold EStateM.bind
  cases h : p ts with
  | ok a mid =>
      constructor
      · intro hf
        exact ⟨a, mid, rfl, hf⟩
      · rintro ⟨a', mid', heq, hf⟩
        cases heq
        exact hf
  | error e mid =>
      constructor
      · nofun
      · rintro ⟨a', mid', heq, -⟩
        cases heq

theorem pure_eq_ok_iff {α : Type} {a b : α} :
    (pure a : Parse α) ts = .ok b rest ↔ b = a ∧ rest = ts := by
  constructor
  · intro h
    cases h
    exact ⟨rfl, rfl⟩
  · rintro ⟨rfl, rfl⟩
    rfl

theorem get_bind_apply {α : Type} {f : Tokens → Parse α} : ((get : Parse Tokens) >>= f) ts = f ts ts := rfl

theorem set_bind_apply {α : Type} {us : Tokens} {f : PUnit → Parse α} :
    ((set us : Parse PUnit) >>= f) ts = f ⟨⟩ us := rfl

theorem throw_ne_ok {α : Type} {e : ParseError} {a : α} : (throw e : Parse α) ts ≠ .ok a rest := nofun

theorem expect_eq_ok_iff {want : Token} {u : Unit} :
    expect s want ts = .ok u rest ↔ ∃ span, ts = ⟨want, span⟩ :: rest := by
  unfold expect
  rw [get_bind_apply]
  cases ts with
  | nil =>
      constructor
      · nofun
      · rintro ⟨span, h⟩
        cases h
  | cons t mid =>
      by_cases ht : t.value = want
      · simp only [ht, if_true]
        constructor
        · intro h
          cases h
          exact ⟨t.span, by rw [← ht]⟩
        · rintro ⟨span, h⟩
          cases h
          rfl
      · simp only [ht, if_false]
        constructor
        · nofun
        · rintro ⟨span, h⟩
          cases h
          exact absurd rfl ht

theorem checked_eq_ok_iff {start : Tokens} {tree m : Measured} :
    checked s start tree ts = .ok m rest ↔ tree.height ≤ s.limit ∧ m = tree ∧ rest = ts := by
  unfold checked
  by_cases h : s.limit < tree.height
  · rw [if_pos h]
    constructor
    · nofun
    · rintro ⟨hle, -⟩
      exact absurd h (Nat.not_lt.mpr hle)
  · rw [if_neg h, pure_eq_ok_iff]
    exact ⟨fun hm => ⟨Nat.not_lt.mp h, hm⟩, fun hm => hm.2⟩

/-! ## Arguments and factors -/

theorem arguments_nil_eq_ok_iff {start : Tokens} {callee m : Measured} :
    arguments s sub start [] callee ts = .ok m rest ↔ m = callee ∧ rest = ts :=
  pure_eq_ok_iff

theorem arguments_cons_eq_ok_iff {start clock : Tokens} {t : Spanned Token} {callee m : Measured} :
    arguments s sub start (t :: clock) callee ts = .ok m rest ↔
      (∀ span mid, ts ≠ ⟨.leftParen, span⟩ :: mid) ∧ m = callee ∧ rest = ts ∨
      ∃ span mid argument span' after, ts = ⟨.leftParen, span⟩ :: mid ∧
        sub mid = .ok argument (⟨.rightParen, span'⟩ :: after) ∧
        max callee.height argument.height + 1 ≤ s.limit ∧
        arguments s sub start clock
          ⟨.call callee.expr argument.expr, max callee.height argument.height + 1⟩ after = .ok m rest := by
  rw [arguments, get_bind_apply]
  split
  · rename_i span mid
    simp only [set_bind_apply, bind_eq_ok_iff, expect_eq_ok_iff, checked_eq_ok_iff]
    constructor
    · rintro ⟨argument, _, hsub, _, after, ⟨span', rfl⟩, _, _, ⟨hle, rfl, rfl⟩, hmore⟩
      exact .inr ⟨span, mid, argument, span', _, rfl, hsub, hle, hmore⟩
    · rintro (⟨hno, -⟩ | ⟨_, _, argument, span', after, heq, hsub, hle, hmore⟩)
      · exact absurd rfl (hno span mid)
      · cases heq
        exact ⟨argument, _, hsub, ⟨⟩, after, ⟨span', rfl⟩, _, _, ⟨hle, rfl, rfl⟩, hmore⟩
  · rename_i hno
    rw [pure_eq_ok_iff]
    constructor
    · exact fun h => .inl ⟨fun span mid => hno span mid, h⟩
    · rintro (⟨-, h⟩ | ⟨span, mid, _, _, _, heq, -⟩)
      · exact h
      · exact absurd heq (hno span mid)

theorem factor_eq_ok_iff {item : Item} :
    factor s sub ts = .ok item rest ↔
      (∃ lexeme span e, ts = ⟨.number lexeme, span⟩ :: rest ∧ literal? lexeme = some e ∧
        item = .expr ⟨e, 1⟩) ∨
      (∃ name span mid tree, ts = ⟨.identifier name, span⟩ :: mid ∧
        arguments s sub ts mid ⟨.var name, 1⟩ mid = .ok tree rest ∧ item = .expr tree) ∨
      (∃ span mid tree span', ts = ⟨.leftParen, span⟩ :: mid ∧
        sub mid = .ok tree (⟨.rightParen, span'⟩ :: rest) ∧ item = .expr tree) ∨
      ∃ span, ts = ⟨.endLine, span⟩ :: rest ∧ item = .lineEnd ⟨.endLine, span⟩ := by
  constructor
  · intro h
    rw [factor, get_bind_apply] at h
    -- The first token decides; with any other one the step fails.
    rcases ts with _ | ⟨⟨t, span⟩, mid⟩
    · exact absurd h throw_ne_ok
    · cases t with
      | number lexeme =>
          simp only [set_bind_apply] at h
          cases hl : literal? lexeme with
          | some e =>
              simp only [hl, pure_eq_ok_iff] at h
              obtain ⟨rfl, rfl⟩ := h
              exact .inl ⟨lexeme, span, e, rfl, hl, rfl⟩
          | none =>
              simp only [hl] at h
              exact absurd h throw_ne_ok
      | identifier name =>
          simp only [set_bind_apply, bind_eq_ok_iff, pure_eq_ok_iff] at h
          obtain ⟨tree, _, htree, rfl, rfl⟩ := h
          exact .inr (.inl ⟨name, span, mid, tree, rfl, htree, rfl⟩)
      | leftParen =>
          simp only [set_bind_apply, bind_eq_ok_iff, expect_eq_ok_iff, pure_eq_ok_iff] at h
          obtain ⟨tree, _, hsub, _, _, ⟨span', rfl⟩, rfl, rfl⟩ := h
          exact .inr (.inr (.inl ⟨span, mid, tree, span', rfl, hsub, rfl⟩))
      | endLine =>
          simp only [set_bind_apply, pure_eq_ok_iff] at h
          obtain ⟨rfl, rfl⟩ := h
          exact .inr (.inr (.inr ⟨span, rfl, rfl⟩))
      | _ => exact absurd h throw_ne_ok
  · rintro (⟨lexeme, span, e, rfl, hl, rfl⟩ | ⟨name, span, mid, tree, rfl, htree, rfl⟩ |
      ⟨span, mid, tree, span', rfl, hsub, rfl⟩ | ⟨span, rfl, rfl⟩)
    · simp only [factor, get_bind_apply, set_bind_apply, hl, pure_eq_ok_iff, and_self]
    · simp only [factor, get_bind_apply, set_bind_apply, bind_eq_ok_iff, pure_eq_ok_iff]
      exact ⟨tree, rest, htree, rfl, rfl⟩
    · simp only [factor, get_bind_apply, set_bind_apply, bind_eq_ok_iff, expect_eq_ok_iff, pure_eq_ok_iff]
      exact ⟨tree, _, hsub, ⟨⟩, rest, ⟨span', rfl⟩, rfl, rfl⟩
    · simp only [factor, get_bind_apply, set_bind_apply, pure_eq_ok_iff, and_self]

/-! ## Chains of operators -/

variable {operator? : Token → Option Operator} {operand : Parse Item}

theorem chain_nil_eq_ok_iff {start : Tokens} {left m : Measured} :
    chain s operator? operand start [] left ts = .ok m rest ↔ m = left ∧ rest = ts :=
  pure_eq_ok_iff

theorem chain_cons_eq_ok_iff {start clock : Tokens} {t : Spanned Token} {left m : Measured} :
    chain s operator? operand start (t :: clock) left ts = .ok m rest ↔
      (∀ u mid, ts = u :: mid → operator? u.value = none) ∧ m = left ∧ rest = ts ∨
      ∃ u op mid right after, ts = u :: mid ∧ operator? u.value = some op ∧
        operand mid = .ok (.expr right) after ∧ max left.height right.height + 1 ≤ s.limit ∧
        chain s operator? operand start clock
          ⟨.binary op left.expr right.expr, max left.height right.height + 1⟩ after = .ok m rest := by
  rw [chain, get_bind_apply]
  rcases ts with _ | ⟨u, mid⟩
  · simp only [pure_eq_ok_iff]
    constructor
    · exact fun h => .inl ⟨nofun, h⟩
    · rintro (⟨-, h⟩ | ⟨_, _, _, _, _, heq, -⟩)
      · exact h
      · cases heq
  · cases hop : operator? u.value with
    | none =>
        simp only [hop, pure_eq_ok_iff]
        constructor
        · intro h
          refine .inl ⟨?_, h⟩
          rintro u' mid' heq
          cases heq
          exact hop
        · rintro (⟨-, h⟩ | ⟨_, op, _, _, _, heq, hop', -⟩)
          · exact h
          · cases heq
            rw [hop] at hop'
            cases hop'
    | some op =>
        simp only [hop, set_bind_apply, bind_eq_ok_iff]
        constructor
        · rintro ⟨item, after, hitem, h⟩
          cases item with
          -- An end of line is no operand.
          | lineEnd got => exact absurd h throw_ne_ok
          | expr right =>
              simp only [bind_eq_ok_iff, checked_eq_ok_iff] at h
              obtain ⟨_, _, ⟨hle, rfl, rfl⟩, hmore⟩ := h
              exact .inr ⟨u, op, mid, right, _, rfl, hop, hitem, hle, hmore⟩
        · rintro (⟨hno, -⟩ | ⟨_, op', _, right, after, heq, hop', hitem, hle, hmore⟩)
          · rw [hno u mid rfl] at hop
            cases hop
          · cases heq
            rw [hop] at hop'
            cases hop'
            refine ⟨_, after, hitem, ?_⟩
            simp only [bind_eq_ok_iff, checked_eq_ok_iff]
            exact ⟨_, _, ⟨hle, rfl, rfl⟩, hmore⟩

theorem leftAssociative_eq_ok_iff {item : Item} :
    leftAssociative s operator? operand ts = .ok item rest ↔
      (∃ got, operand ts = .ok (.lineEnd got) rest ∧ item = .lineEnd got) ∨
      ∃ left mid tree, operand ts = .ok (.expr left) mid ∧
        chain s operator? operand ts mid left mid = .ok tree rest ∧ item = .expr tree := by
  rw [leftAssociative, get_bind_apply]
  simp only [bind_eq_ok_iff]
  constructor
  · rintro ⟨first, mid, hfirst, h⟩
    cases first with
    | lineEnd got =>
        obtain ⟨rfl, rfl⟩ := pure_eq_ok_iff.mp h
        exact .inl ⟨got, hfirst, rfl⟩
    | expr left =>
        simp only [get_bind_apply, bind_eq_ok_iff, pure_eq_ok_iff] at h
        obtain ⟨tree, _, htree, rfl, rfl⟩ := h
        exact .inr ⟨left, mid, tree, hfirst, htree, rfl⟩
  · rintro (⟨got, hfirst, rfl⟩ | ⟨left, mid, tree, hfirst, htree, rfl⟩)
    · exact ⟨_, rest, hfirst, rfl⟩
    · refine ⟨_, mid, hfirst, ?_⟩
      simp only [get_bind_apply, bind_eq_ok_iff, pure_eq_ok_iff]
      exact ⟨tree, rest, htree, rfl, rfl⟩

/-! ## Expressions and programs -/

/-- The tokens of an expression that is neither a binding nor a function nor a choice. -/
structure StartsSum (ts : Tokens) : Prop where
  not_binding : ∀ name span span' mid, ts ≠ ⟨.identifier name, span⟩ :: ⟨.binding, span'⟩ :: mid
  not_function : ∀ name span span' mid, ts ≠ ⟨.identifier name, span⟩ :: ⟨.mapsTo, span'⟩ :: mid
  not_ifElse : ∀ span mid, ts ≠ ⟨.ifWord, span⟩ :: mid

theorem startsSum_or (ts : Tokens) :
    (∃ name span span' rest, ts = ⟨.identifier name, span⟩ :: ⟨.binding, span'⟩ :: rest) ∨
      (∃ parameter span span' rest, ts = ⟨.identifier parameter, span⟩ :: ⟨.mapsTo, span'⟩ :: rest) ∨
      (∃ span rest, ts = ⟨.ifWord, span⟩ :: rest) ∨ StartsSum ts := by
  by_cases hbinding : ∃ name span span' rest, ts = ⟨.identifier name, span⟩ :: ⟨.binding, span'⟩ :: rest
  · exact .inl hbinding
  by_cases hfunction : ∃ parameter span span' rest,
      ts = ⟨.identifier parameter, span⟩ :: ⟨.mapsTo, span'⟩ :: rest
  · exact .inr (.inl hfunction)
  by_cases hchoice : ∃ span rest, ts = ⟨.ifWord, span⟩ :: rest
  · exact .inr (.inr (.inl hchoice))
  refine .inr (.inr (.inr ⟨?_, ?_, ?_⟩))
  · exact fun name span span' rest heq => hbinding ⟨name, span, span', rest, heq⟩
  · exact fun name span span' rest heq => hfunction ⟨name, span, span', rest, heq⟩
  · exact fun span rest heq => hchoice ⟨span, rest, heq⟩

theorem expression_of_startsSum (h : StartsSum ts) :
    expression s sub ts = sum s sub ts := by
  unfold expression
  rw [get_bind_apply]
  split
  · exact absurd rfl (h.not_binding _ _ _ _)
  · exact absurd rfl (h.not_function _ _ _ _)
  · exact absurd rfl (h.not_ifElse _ _)
  · rfl

theorem expression_eq_ok_iff {item : Item} :
    expression s sub ts = .ok item rest ↔
      (∃ name span span' mid value, ts = ⟨.identifier name, span⟩ :: ⟨.binding, span'⟩ :: mid ∧
        sub mid = .ok value rest ∧ value.height + 1 ≤ s.limit ∧
        item = .expr ⟨.binding name value.expr, value.height + 1⟩) ∨
      (∃ parameter span span' mid body, ts = ⟨.identifier parameter, span⟩ :: ⟨.mapsTo, span'⟩ :: mid ∧
        sub mid = .ok body rest ∧ body.height + 1 ≤ s.limit ∧
        item = .expr ⟨.function parameter body.expr, body.height + 1⟩) ∨
      (∃ span mid condition span₁ mid₁ consequence span₂ mid₂ alternative, ts = ⟨.ifWord, span⟩ :: mid ∧
        sub mid = .ok condition (⟨.thenWord, span₁⟩ :: mid₁) ∧
        sub mid₁ = .ok consequence (⟨.elseWord, span₂⟩ :: mid₂) ∧ sub mid₂ = .ok alternative rest ∧
        max (max condition.height consequence.height) alternative.height + 1 ≤ s.limit ∧
        item = .expr ⟨.ifElse condition.expr consequence.expr alternative.expr,
          max (max condition.height consequence.height) alternative.height + 1⟩) ∨
      StartsSum ts ∧ sum s sub ts = .ok item rest := by
  constructor
  · intro h
    rw [expression, get_bind_apply] at h
    split at h
    · rename_i name span span' mid
      simp only [set_bind_apply, bind_eq_ok_iff, checked_eq_ok_iff, pure_eq_ok_iff] at h
      obtain ⟨value, _, hsub, _, _, ⟨hle, rfl, rfl⟩, rfl, rfl⟩ := h
      exact .inl ⟨name, span, span', mid, value, rfl, hsub, hle, rfl⟩
    · rename_i parameter span span' mid
      simp only [set_bind_apply, bind_eq_ok_iff, checked_eq_ok_iff, pure_eq_ok_iff] at h
      obtain ⟨body, _, hsub, _, _, ⟨hle, rfl, rfl⟩, rfl, rfl⟩ := h
      exact .inr (.inl ⟨parameter, span, span', mid, body, rfl, hsub, hle, rfl⟩)
    · rename_i span mid
      simp only [set_bind_apply, bind_eq_ok_iff, expect_eq_ok_iff, checked_eq_ok_iff, pure_eq_ok_iff] at h
      obtain ⟨c, _, hc, _, mid₁, ⟨span₁, rfl⟩, t, _, ht, _, mid₂, ⟨span₂, rfl⟩, e, _, he, _, _,
        ⟨hle, rfl, rfl⟩, rfl, rfl⟩ := h
      exact .inr (.inr (.inl ⟨span, mid, c, span₁, mid₁, t, span₂, mid₂, e, rfl, hc, ht, he, hle, rfl⟩))
    · rename_i hb hf hi
      exact .inr (.inr (.inr ⟨⟨hb, hf, hi⟩, h⟩))
  · rintro (⟨name, span, span', mid, value, rfl, hsub, hle, rfl⟩ |
      ⟨parameter, span, span', mid, body, rfl, hsub, hle, rfl⟩ |
      ⟨span, mid, c, span₁, mid₁, t, span₂, mid₂, e, rfl, hc, ht, he, hle, rfl⟩ | ⟨hstart, h⟩)
    · simp only [expression, get_bind_apply, set_bind_apply, bind_eq_ok_iff, checked_eq_ok_iff,
        pure_eq_ok_iff]
      exact ⟨value, rest, hsub, _, _, ⟨hle, rfl, rfl⟩, rfl, rfl⟩
    · simp only [expression, get_bind_apply, set_bind_apply, bind_eq_ok_iff, checked_eq_ok_iff,
        pure_eq_ok_iff]
      exact ⟨body, rest, hsub, _, _, ⟨hle, rfl, rfl⟩, rfl, rfl⟩
    · simp only [expression, get_bind_apply, set_bind_apply, bind_eq_ok_iff, expect_eq_ok_iff,
        checked_eq_ok_iff, pure_eq_ok_iff]
      exact ⟨c, _, hc, ⟨⟩, mid₁, ⟨span₁, rfl⟩, t, _, ht, ⟨⟩, mid₂, ⟨span₂, rfl⟩, e, rest, he, _, _,
        ⟨hle, rfl, rfl⟩, rfl, rfl⟩
    · rw [expression, get_bind_apply]
      split
      · exact absurd rfl (hstart.not_binding _ _ _ _)
      · exact absurd rfl (hstart.not_function _ _ _ _)
      · exact absurd rfl (hstart.not_ifElse _ _)
      · exact h

theorem required_zero_ne_ok {m : Measured} : required s 0 ts ≠ .ok m rest := nofun

theorem required_succ_eq_ok_iff {n : Nat} {m : Measured} :
    required s (n + 1) ts = .ok m rest ↔ expression s (required s n) ts = .ok (.expr m) rest := by
  rw [required, bind_eq_ok_iff]
  constructor
  · rintro ⟨item, mid, hitem, h⟩
    cases item with
    | expr tree =>
        obtain ⟨rfl, rfl⟩ := pure_eq_ok_iff.mp h
        exact hitem
    | lineEnd got => exact absurd h throw_ne_ok
  · intro h
    exact ⟨_, rest, h, rfl⟩

theorem statements_nil_eq_ok_iff {p : Program} :
    statements s [] ts = .ok p rest ↔ p = [] ∧ rest = ts :=
  pure_eq_ok_iff

theorem statements_cons_eq_ok_iff {clock : Tokens} {t : Spanned Token} {p : Program} :
    statements s (t :: clock) ts = .ok p rest ↔
      ts = [] ∧ p = [] ∧ rest = [] ∨
      (∃ got mid, expression s (required s s.limit) ts = .ok (.lineEnd got) mid ∧
        ts ≠ [] ∧ statements s clock mid = .ok p rest) ∨
      ∃ tree mid q, expression s (required s s.limit) ts = .ok (.expr tree) mid ∧
        ts ≠ [] ∧ statements s clock mid = .ok q rest ∧ p = tree.expr :: q := by
  rw [statements, get_bind_apply]
  cases ts with
  | nil =>
      show (pure [] : Parse Program) [] = .ok p rest ↔ _
      rw [pure_eq_ok_iff]
      constructor
      · rintro ⟨rfl, rfl⟩
        exact .inl ⟨rfl, rfl, rfl⟩
      · rintro (⟨-, rfl, rfl⟩ | ⟨_, _, _, hne, -⟩ | ⟨_, _, _, _, hne, -⟩)
        · exact ⟨rfl, rfl⟩
        · exact absurd rfl hne
        · exact absurd rfl hne
  | cons u us =>
      simp only [bind_eq_ok_iff]
      constructor
      · rintro ⟨item, mid, hitem, h⟩
        cases item with
        | lineEnd got => exact .inr (.inl ⟨got, mid, hitem, nofun, h⟩)
        | expr tree =>
            simp only [bind_eq_ok_iff, pure_eq_ok_iff] at h
            obtain ⟨q, _, hq, rfl, rfl⟩ := h
            exact .inr (.inr ⟨tree, mid, q, hitem, nofun, hq, rfl⟩)
      · rintro (⟨hnil, -⟩ | ⟨got, mid, hitem, -, h⟩ | ⟨tree, mid, q, hitem, -, hq, rfl⟩)
        · cases hnil
        · exact ⟨_, mid, hitem, h⟩
        · refine ⟨_, mid, hitem, ?_⟩
          simp only [bind_eq_ok_iff, pure_eq_ok_iff]
          exact ⟨q, rest, hq, rfl, rfl⟩

theorem programWithin_eq_ok_iff {limit : Nat} {parser : Parser} {p : Program} :
    (parser.programWithin limit).1 = .ok p ↔
      ∃ rest, statements ⟨limit, parser.atEnd⟩ parser.tokens parser.tokens = .ok p rest := by
  unfold programWithin
  cases h : statements ⟨limit, parser.atEnd⟩ parser.tokens parser.tokens with
  | ok q rest =>
      constructor
      · intro hq
        cases hq
        exact ⟨rest, rfl⟩
      · rintro ⟨_, hq⟩
        cases hq
        rfl
  | error e rest =>
      constructor
      · nofun
      · rintro ⟨_, hq⟩
        cases hq

end Mapsto.Parser
