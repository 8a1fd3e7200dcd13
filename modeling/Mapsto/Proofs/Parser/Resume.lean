import Mapsto.Proofs.Parser.Indexed

/-!
# `Mapsto.Proofs.Parser.Resume` — parsing goes on after a mistake

A parser that found a mistake keeps its index and its two counters, and a further call starts with them.
That call does what a fresh parser does with the tokens that are left (`program_resumes`), for two reasons.
Every call ends with no place open, also one that failed many places deep, and the height that is still
noted is read by no rule before another one has been noted. And the place at the end of the text, which a
fresh parser takes from fewer tokens, is the same for both as long as a token is left; if none is, neither
of them looks at it.

**Progress.** Every expression takes at least one token, and so does an end of line (`ends_expression`).
That is what keeps the loop over the expressions going, and why it takes no more rounds than there are
tokens.
-/

namespace Mapsto.Parser

/-- A run that began at `p` ends, at an index between that of `p` and the end of the tokens, with as many
places open as before, and `Good` holds of what it comes to and of the place where it stops. -/
def Ends {α : Type} (s : Source) (p : Place) (Good : Except ParseError α → Place → Prop)
    (run : Option (Except ParseError α × Place)) : Prop :=
  ∃ result p', run = some (result, p') ∧ p.index ≤ p'.index ∧ p'.index ≤ s.tokens.length ∧
    p'.nesting = p.nesting ∧ Good result p'

namespace Indexed

variable {s : Source}

theorem length_counter (s : Source) (p : Place) :
    (p.counter s.tokens).tokens.length = s.tokens.length - p.index :=
  List.length_drop

theorem limit_checks (s : Source) : ∀ l, s.checks.limit = some l → l = s.limit := by
  rintro _ ⟨⟩
  rfl

/-! ## Expressions take tokens -/

/-- What was found has taken a token. -/
theorem index_lt_of_measures {found : Found} {p p' : Place}
    (h : found.Measures (p.counter s.tokens).tokens.length (p'.counter s.tokens)) :
    p.index < p'.index := by
  have hlength : (p'.counter s.tokens).tokens.length < (p.counter s.tokens).tokens.length := by
    cases found with
    | lineEnd token => exact h
    | tree e =>
        obtain ⟨hheight, hfits⟩ := h
        have hpos := e.height_pos
        omega
  rw [length_counter, length_counter] at hlength
  omega

/-- **Progress.** With fuel for the tokens that are left, an expression ends; and if it is one, or an end of
line, it has taken at least one of them. -/
theorem ends_expression {fuel : Nat} {p : Place} (hp : p.index ≤ s.tokens.length)
    (hfuel : s.tokens.length - p.index ≤ fuel) :
    Ends s p (fun result p' => ∀ found, result = .ok found → p.index < p'.index)
      (expression s (required s fuel) p) := by
  have hlength : (p.counter s.tokens).tokens.length ≤ fuel := by
    rw [length_counter]
    exact hfuel
  have hplaces := Counted.tracks_places (limit_checks s) (d := p.nesting) hlength
    (Nat.le_succ (p.nesting + (p.counter s.tokens).tokens.length))
  have htracks := Counted.tracks_expression (limit_checks s) (Nat.le_add_left _ p.nesting) hplaces
    (c := p.counter s.tokens) rfl (Nat.le_refl _)
  obtain ⟨result, c', hcounted, hnesting, hgood⟩ := htracks.ends
  have hagrees : AgreesFound s (expression s (required s fuel))
      (Counted.expression s.checks (Counted.required s.checks fuel)) p :=
    agrees_expression (fun _ hp => agrees_required fuel hp) hp
  unfold AgreesFound at hagrees
  rw [hcounted] at hagrees
  generalize expression s (required s fuel) p = run at hagrees
  cases hagrees with
  | ok found? found p' hfirst hlast hfound =>
      refine ⟨.ok found?, p', rfl, hfirst, hlast, hnesting, ?_⟩
      intro _ _
      exact index_lt_of_measures (hgood found rfl)
  | error e p' hfirst hlast => exact ⟨.error e, p', rfl, hfirst, hlast, hnesting, nofun⟩

/-! ## Whole calls -/

theorem agrees_statements (rounds : Nat) (clock : Tokens) {p : Place} (hp : p.index ≤ s.tokens.length)
    (hrounds : s.tokens.length - p.index < rounds) (hclock : s.tokens.length - p.index ≤ clock.length) :
    Agrees s p.index Eq (statements s rounds p)
      (Counted.statements s.checks (s.tokens.length + 1) clock (p.counter s.tokens)) := by
  induction rounds generalizing clock p with
  | zero => exact absurd hrounds (Nat.not_lt_zero _)
  | succ rounds ih =>
      rw [statements, Counted.get_bind_apply]
      rcases next_cases s p with ⟨hnone, hnil⟩ | ⟨token, hsome, hlt, hcons⟩
      · have hend : ¬ p.index < s.tokens.length := Nat.not_lt.mpr (List.getElem?_eq_none_iff.mp hnone)
        rw [if_neg hend]
        have hends : Agrees s p.index Eq ((pure [] : Indexed Program) p)
            ((pure [] : Counted Program) (p.counter s.tokens)) := .ok [] [] p (Nat.le_refl _) hp rfl
        cases clock with
        | nil => exact hends
        | cons t clock =>
            rw [Counted.statements, Counted.get_bind_apply]
            simp only [hnil]
            exact hends
      · obtain ⟨t, clock, rfl⟩ := List.exists_cons_of_length_pos (l := clock) (by omega)
        rw [List.length_cons] at hclock
        rw [if_pos hlt, Counted.statements, Counted.get_bind_apply]
        simp only [hcons]
        have hexpression := agrees_expression (fun _ hp => agrees_required (s.tokens.length + 1) hp) hp
        refine hexpression.bind (Nat.le_refl _) ?_
        intro result found p₁ hrun h₁ hlast₁ hfound
        -- The loop gets on, because what was found has taken a token.
        have hfuel : s.tokens.length - p.index ≤ s.tokens.length + 1 := by omega
        have hlt₁ : p.index < p₁.index := by
          obtain ⟨_, _, hrun', -, -, -, hprogress⟩ := ends_expression hp hfuel
          cases hrun.symm.trans hrun'
          exact hprogress result rfl
        have hmore := ih clock hlast₁ (by omega) (by omega)
        cases found with
        | lineEnd got =>
            obtain ⟨rfl, -⟩ := hfound
            exact hmore.mono h₁
        | tree e =>
            obtain rfl : result = some e := hfound
            refine (hmore.mono h₁).bind (Nat.le_refl _) ?_
            rintro program _ p₂ - h₂ hlast₂ rfl
            exact .ok (e :: program) (e :: program) p₂ h₂ hlast₂ rfl

/-- The loop over the expressions stops where no token is left. -/
theorem length_le_of_statements {rounds : Nat} {p p' : Place} {program : Program}
    (h : statements s rounds p = some (.ok program, p')) : s.tokens.length ≤ p'.index := by
  induction rounds generalizing p program with
  | zero => cases h
  | succ rounds ih =>
      rw [statements, Counted.get_bind_apply] at h
      by_cases hlt : p.index < s.tokens.length
      · rw [if_pos hlt] at h
        obtain ⟨found?, p₁, -, hmore⟩ := Counted.exists_of_bind_eq_ok h
        cases found? with
        | none => exact ih hmore
        | some e =>
            obtain ⟨rest, p₂, hrest, hpure⟩ := Counted.exists_of_bind_eq_ok hmore
            cases hpure
            exact ih hrest
      · rw [if_neg hlt] at h
        cases h
        exact Nat.le_of_not_lt hlt

/-- **Calls.** A call where no place is open ends, and what it comes to and leaves is what the plain parser
makes of the tokens behind the index. -/
theorem ends_call {p : Place} (hp : p.index ≤ s.tokens.length) (hnesting : p.nesting = 0) :
    Ends s p (fun result p' =>
        (⟨s.tokens.drop p.index, endOf s.tokens⟩ : Parser).programWithin s.limit =
          (result, ⟨s.tokens.drop p'.index, endOf s.tokens⟩))
      (call s p) := by
  have hlength : (s.tokens.drop p.index).length ≤ s.tokens.length := by
    rw [List.length_drop]
    exact Nat.sub_le _ _
  have hagrees := agrees_statements (s.tokens.length + 1) (s.tokens.drop p.index) hp
    (Nat.lt_succ_of_le (Nat.sub_le _ _)) (Nat.le_of_eq List.length_drop.symm)
  have htracks := Counted.tracks_statements (limit_checks s) (s.tokens.length + 1)
    (s.tokens.drop p.index) (c := p.counter s.tokens) hnesting (Nat.le_succ_of_le hlength) hlength
  replace htracks : Tracks s.checks s.limit s.tokens.length 0 (fun p _ => p) (fun _ _ => True)
      (Counted.statements s.checks (s.tokens.length + 1) (s.tokens.drop p.index) (p.counter s.tokens))
      (Parser.statements ⟨s.limit, endOf s.tokens⟩ (s.tokens.drop p.index) (s.tokens.drop p.index)) :=
    htracks
  unfold call programWithin
  simp only
  generalize statements s (s.tokens.length + 1) p = run at hagrees
  generalize Counted.statements s.checks (s.tokens.length + 1) (s.tokens.drop p.index)
    (p.counter s.tokens) = counted at hagrees htracks
  generalize Parser.statements ⟨s.limit, endOf s.tokens⟩ (s.tokens.drop p.index)
    (s.tokens.drop p.index) = plain at htracks
  cases hagrees with
  | ok program _ p' hfirst hlast hsame =>
      subst hsame
      cases htracks with
      | ok _ _ hclosed => exact ⟨.ok program, p', rfl, hfirst, hlast, hclosed.trans hnesting.symm, rfl⟩
      | beyond _ _ _ _ hfree => cases hfree
  | error e p' hfirst hlast =>
      cases htracks with
      | error _ _ hclosed => exact ⟨.error e, p', rfl, hfirst, hlast, hclosed.trans hnesting.symm, rfl⟩
      | beyond _ _ _ _ hfree => cases hfree
  | unended =>
      obtain ⟨_, _, hended, -⟩ := htracks.ends
      cases hended

end Indexed

/-! ## Going on -/

/-- What is left of the tokens is parsed alike by a parser that is in the middle of them and by one that
never had any others. -/
theorem programWithin_drop (limit : Nat) (tokens : Tokens) (index : Nat) :
    ∃ result rest,
      (⟨tokens.drop index, endOf tokens⟩ : Parser).programWithin limit = (result, ⟨rest, endOf tokens⟩) ∧
      (ofTokens (tokens.drop index)).programWithin limit =
        (result, ⟨rest, endOf (tokens.drop index)⟩) := by
  by_cases hlt : index < tokens.length
  · have hend : endOf (tokens.drop index) = endOf tokens := by
      unfold endOf
      rw [List.getLast?_drop, if_neg (Nat.not_le.mpr hlt)]
    unfold ofTokens programWithin
    rw [hend]
    simp only
    cases statements ⟨limit, endOf tokens⟩ (tokens.drop index) (tokens.drop index) with
    | ok program rest => exact ⟨.ok program, rest, rfl, rfl⟩
    | error e rest => exact ⟨.error e, rest, rfl, rfl⟩
  · rw [List.drop_eq_nil_of_le (Nat.le_of_not_lt hlt)]
    exact ⟨.ok [], [], rfl, rfl⟩

namespace Indexed

variable {s : Source}

/-- A call where no place is open does what it would do if the tokens behind the index were all; and so does
the plain parser. -/
theorem call_resumes {p : Place} (hp : p.index ≤ s.tokens.length) (hnesting : p.nesting = 0) :
    Ends s p
      (fun result p' =>
        (∃ q, call ⟨s.tokens.drop p.index, s.limit⟩ fresh = some (result, q) ∧
          p'.index = p.index + q.index) ∧
        ((⟨s.tokens.drop p.index, endOf s.tokens⟩ : Parser).programWithin s.limit).1 = result ∧
        ((ofTokens (s.tokens.drop p.index)).programWithin s.limit).1 = result)
      (call s p) := by
  obtain ⟨result, p', hcall, hfirst, hlast, hclosed, hplain⟩ := ends_call hp hnesting
  let left : Source := ⟨s.tokens.drop p.index, s.limit⟩
  obtain ⟨result', q, hcall', -, hlast', -, hplain'⟩ :=
    ends_call (s := left) (p := fresh) (Nat.zero_le _) rfl
  obtain ⟨same, rest, hmiddle, hfresh⟩ := programWithin_drop s.limit s.tokens p.index
  obtain ⟨rfl, hrest⟩ := Prod.mk.inj (hplain.symm.trans hmiddle)
  obtain ⟨rfl, hrest'⟩ := Prod.mk.inj (hplain'.symm.trans hfresh)
  have hindex : p'.index = p.index + q.index := by
    -- Both leave the same tokens, and neither has gone beyond the last one.
    have htokens : s.tokens.drop p'.index = left.tokens.drop q.index :=
      (congrArg Parser.tokens hrest).trans (congrArg Parser.tokens hrest').symm
    have hlength := congrArg List.length htokens
    simp only [left, List.length_drop] at hlength hlast'
    omega
  exact ⟨result', p', hcall, hfirst, hlast, hclosed, ⟨q, hcall', hindex⟩, congrArg Prod.fst hplain,
    congrArg Prod.fst hfresh⟩

end Indexed

/-- A parser after so many calls. -/
def afterCalls : (calls : Nat) → Parser → Parser
  | 0, parser => parser
  | calls + 1, parser => (afterCalls calls parser).program.2

/-- After any number of calls, a parser with an index stands where the plain one stands. -/
theorem exists_afterCalls (ts : Tokens) (calls : Nat) :
    ∃ p, Indexed.afterCalls ⟨ts, maxDepth⟩ calls = some p ∧ p.index ≤ ts.length ∧ p.nesting = 0 ∧
      afterCalls calls (ofTokens ts) = ⟨ts.drop p.index, endOf ts⟩ := by
  induction calls with
  | zero => exact ⟨Indexed.fresh, rfl, Nat.zero_le _, rfl, rfl⟩
  | succ calls ih =>
      obtain ⟨p, hafter, hp, hnesting, hplain⟩ := ih
      obtain ⟨result, p', hcall, -, hlast, hclosed, hprogram⟩ :=
        Indexed.ends_call (s := ⟨ts, maxDepth⟩) hp hnesting
      refine ⟨p', ?_, hlast, hclosed.trans hnesting, ?_⟩
      · rw [Indexed.afterCalls, hafter]
        show (Indexed.call ⟨ts, maxDepth⟩ p).bind _ = _
        rw [hcall]
        rfl
      · rw [afterCalls, hplain]
        exact congrArg Prod.snd hprogram

/-- **Parsing goes on after a mistake.** An index, the number of open places and the height noted last are
what a parser keeps between its calls. From anywhere in the tokens an expression ends, and if it is one, or
an end of line, the index has grown. After any number of calls, whatever mistakes they ended with, the index
is not beyond the last token and no place is open. The next call ends too, nowhere beyond the last token,
and it comes to what a fresh parser comes to over the tokens that are left; if that is a program, the index
stands behind the last token. Where the plain parser stands, it says the same.

Since a step that moves the index too far, or finds no token at an index it has kept, would come to nothing,
no call does either of the two. -/
theorem program_resumes (ts : Tokens) :
    (∀ (fuel : Nat) (p : Place), p.index ≤ ts.length → ts.length - p.index ≤ fuel →
      Ends ⟨ts, maxDepth⟩ p (fun result p' => ∀ found, result = .ok found → p.index < p'.index)
        (Indexed.expression ⟨ts, maxDepth⟩ (Indexed.required ⟨ts, maxDepth⟩ fuel) p)) ∧
    ∀ calls, ∃ p, Indexed.afterCalls ⟨ts, maxDepth⟩ calls = some p ∧ p.index ≤ ts.length ∧
      p.nesting = 0 ∧ afterCalls calls (ofTokens ts) = ⟨ts.drop p.index, endOf ts⟩ ∧
      Ends ⟨ts, maxDepth⟩ p
        (fun result p' =>
          (∃ q, Indexed.call ⟨ts.drop p.index, maxDepth⟩ Indexed.fresh = some (result, q) ∧
            p'.index = p.index + q.index) ∧
          (afterCalls calls (ofTokens ts)).program.1 = result ∧
          (ofTokens (ts.drop p.index)).program.1 = result ∧
          ∀ program, result = .ok program → p'.index = ts.length)
        (Indexed.call ⟨ts, maxDepth⟩ p) := by
  refine ⟨fun fuel p hp hfuel => Indexed.ends_expression hp hfuel, ?_⟩
  intro calls
  obtain ⟨p, hafter, hp, hnesting, hplain⟩ := exists_afterCalls ts calls
  refine ⟨p, hafter, hp, hnesting, hplain, ?_⟩
  obtain ⟨result, p', hcall, hfirst, hlast, hclosed, hresumes, hmiddle, hfresh⟩ :=
    Indexed.call_resumes (s := ⟨ts, maxDepth⟩) hp hnesting
  refine ⟨result, p', hcall, hfirst, hlast, hclosed, hresumes, ?_, hfresh, ?_⟩
  · rw [hplain]
    exact hmiddle
  · rintro program rfl
    exact Nat.le_antisymm hlast (Indexed.length_le_of_statements hcall)

/-- The value of a binding is missing. The end of line is read all the same, and the next call begins behind
it. -/
example :
    (afterCalls 1 (ofTokens [⟨.identifier "x", ⟨0, 1⟩⟩, ⟨.binding, ⟨1, 3⟩⟩, ⟨.endLine, ⟨3, 4⟩⟩,
      ⟨.identifier "y", ⟨4, 5⟩⟩])).program.1 = .ok [.var "y"] := by
  rfl

end Mapsto.Parser
