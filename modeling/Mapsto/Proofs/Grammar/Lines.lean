import Mapsto.Proofs.Parser.Exact

/-!
# `Mapsto.Proofs.Grammar.Lines` — derivations of texts that are put one under the other

An end of line stands between statements only: no expression has one inside (`endLine_not_mem_yield`).
So a derivation of a text that is cut at an end of line is a derivation of the upper part with one of
the lower part in the place of its end (`exists_join`), and it is greedy exactly if the two are, since
what is above the cut sees an end of line below it, which is as good as the end of the text. For the
parser that means that a text is accepted if and only if its two parts are (`parse_endLine_eq_ok_iff`).
-/

namespace Mapsto.Grammar

open Mapsto.Parser (Tokens)

namespace Derivation

/-! ## Cutting at an end of line -/

/-- A derivation of a program with another one below it. In the other categories there is no place for
one. -/
def join {c : Category} : Derivation c → Derivation .program → Derivation c
  | endOfText, below => lineEnd below
  | lineEnd rest, below => lineEnd (rest.join below)
  | statement first rest, below => statement first (rest.join below)
  | d, _ => d

theorem yield_join : (d below : Derivation .program) →
    (d.join below).yield = d.yield ++ .endLine :: below.yield
  | endOfText, below => rfl
  | lineEnd rest, below => by
      show Token.endLine :: (rest.join below).yield = _
      rw [yield_join rest below]
      rfl
  | statement first rest, below => by
      show first.yield ++ (rest.join below).yield = first.yield ++ rest.yield ++ _
      rw [yield_join rest below, List.append_assoc]

theorem tree_join : (d below : Derivation .program) → (d.join below).tree = d.tree ++ below.tree
  | endOfText, below => rfl
  | lineEnd rest, below => tree_join rest below
  | statement first rest, below => by
      show first.tree :: (rest.join below).tree = _
      rw [tree_join rest below]
      rfl

theorem nesting_join : (d below : Derivation .program) →
    (d.join below).nesting = max d.nesting below.nesting
  | endOfText, below => by
      show below.nesting = max 0 below.nesting
      rw [Nat.zero_max]
  | lineEnd rest, below => nesting_join rest below
  | statement first rest, below => by
      show max first.nesting (rest.join below).nesting = max (max first.nesting rest.nesting) _
      rw [nesting_join rest below, Nat.max_assoc]

/-- Ends of lines stand between statements only. -/
theorem endLine_not_mem_yield {c : Category} (d : Derivation c) (hc : c ≠ .program) :
    Token.endLine ∉ d.yield := by
  have hop : ∀ op : Operator, Token.endLine ≠ op.token := by
    intro op
    cases op <;> nofun
  induction d with
  | endOfText => exact absurd rfl hc
  | lineEnd rest ih => exact absurd rfl hc
  | statement first rest ih₁ ih₂ => exact absurd rfl hc
  | binding name value ih => simpa [yield] using ih nofun
  | function parameter body ih => simpa [yield] using ih nofun
  | ifElse condition consequence alternative ih₁ ih₂ ih₃ =>
      simpa [yield] using ⟨ih₁ nofun, ih₂ nofun, ih₃ nofun⟩
  | sum first rest ih₁ ih₂ => simpa [yield] using ⟨ih₁ nofun, ih₂ nofun⟩
  | noTerm => nofun
  | andTerm op h right rest ih₁ ih₂ => simpa [yield, hop op] using ⟨ih₁ nofun, ih₂ nofun⟩
  | product first rest ih₁ ih₂ => simpa [yield] using ⟨ih₁ nofun, ih₂ nofun⟩
  | noFactor => nofun
  | andFactor op h right rest ih₁ ih₂ => simpa [yield, hop op] using ⟨ih₁ nofun, ih₂ nofun⟩
  | number lexeme literal h => simp [yield]
  | application name arguments ih => simpa [yield] using ih nofun
  | group inner ih => simpa [yield] using ih nofun
  | noArgument => nofun
  | andArgument argument rest ih₁ ih₂ => simpa [yield] using ⟨ih₁ nofun, ih₂ nofun⟩

/-- **Cutting.** A derivation of a text that is cut at an end of line comes from derivations of the two
parts. -/
theorem exists_join {ws vs : List Token} : (d : Derivation .program) → d.yield = ws ++ .endLine :: vs →
    ∃ above below : Derivation .program, above.yield = ws ∧ below.yield = vs ∧ d = above.join below
  | endOfText, h => by
      have hnil : ws ++ Token.endLine :: vs = [] := h.symm
      exact absurd (List.append_eq_nil_iff.mp hnil).2 nofun
  | lineEnd rest, h => by
      have hyield : Token.endLine :: rest.yield = ws ++ .endLine :: vs := h
      cases ws with
      | nil => exact ⟨endOfText, rest, rfl, (List.cons.inj hyield).2, rfl⟩
      | cons w ws =>
          obtain ⟨rfl, hrest⟩ := List.cons.inj hyield
          obtain ⟨above, below, rfl, rfl, rfl⟩ := exists_join rest hrest
          exact ⟨lineEnd above, below, rfl, rfl, rfl⟩
  | statement first rest, h => by
      have hyield : first.yield ++ rest.yield = ws ++ .endLine :: vs := h
      have hfirst := endLine_not_mem_yield first nofun
      obtain ⟨us, rfl, hrest⟩ | ⟨us, hus, hrest⟩ := List.append_eq_append_iff.mp hyield
      · obtain ⟨above, below, rfl, rfl, rfl⟩ := exists_join rest hrest
        exact ⟨statement first above, below, rfl, rfl, rfl⟩
      · -- The cut would lie inside the first statement, or right at its end.
        cases us with
        | nil =>
            obtain ⟨above, below, habove, rfl, rfl⟩ := exists_join rest (show rest.yield = [] ++ _ from hrest.symm)
            refine ⟨statement first above, below, ?_, rfl, rfl⟩
            show first.yield ++ above.yield = ws
            rw [habove, hus, List.append_nil, List.append_nil]
        | cons u us =>
            obtain ⟨rfl, -⟩ := List.cons.inj hrest
            rw [hus] at hfirst
            exact absurd (List.mem_append_right ws List.mem_cons_self) hfirst

/-! ## Greed at the cut -/

/-- All that greed asks of what comes behind a derivation is whether it starts with `(`. -/
theorem greedy_congr {c : Category} {d : Derivation c} {follow follow' : List Token}
    (h : follow.head? = some .leftParen ↔ follow'.head? = some .leftParen) :
    d.Greedy follow ↔ d.Greedy follow' := by
  have happend : ∀ {us vs : List Token} (ws : List Token),
      (us.head? = some .leftParen ↔ vs.head? = some .leftParen) →
        ((ws ++ us).head? = some .leftParen ↔ (ws ++ vs).head? = some .leftParen) := by
    intro us vs ws huv
    cases ws with
    | nil => exact huv
    | cons w ws => exact Iff.rfl
  induction d generalizing follow follow' with
  | endOfText => exact Iff.rfl
  | lineEnd rest ih => exact ih h
  | statement first rest ih₁ ih₂ => exact and_congr (ih₁ (happend _ h)) (ih₂ h)
  | binding name value ih => exact ih h
  | function parameter body ih => exact ih h
  | ifElse condition consequence alternative ih₁ ih₂ ih₃ =>
      exact and_congr (ih₁ (happend _ h)) (and_congr (ih₂ (happend _ h)) (ih₃ h))
  | sum first rest ih₁ ih₂ => exact and_congr (ih₁ (happend _ h)) (ih₂ h)
  | noTerm => exact Iff.rfl
  | andTerm op hop right rest ih₁ ih₂ => exact and_congr (ih₁ (happend _ h)) (ih₂ h)
  | product first rest ih₁ ih₂ => exact and_congr (ih₁ (happend _ h)) (ih₂ h)
  | noFactor => exact Iff.rfl
  | andFactor op hop right rest ih₁ ih₂ => exact and_congr (ih₁ (happend _ h)) (ih₂ h)
  | number lexeme literal hl => exact Iff.rfl
  | application name arguments ih => exact ih h
  | group inner ih => exact ih (happend [.rightParen] h)
  | noArgument => exact not_congr h
  | andArgument argument rest ih₁ ih₂ =>
      exact and_congr (ih₁ (happend (.rightParen :: rest.yield) h)) (ih₂ h)

theorem greedy_join : (d below : Derivation .program) →
    ((d.join below).Greedy [] ↔ d.Greedy [] ∧ below.Greedy [])
  | endOfText, below => (iff_of_eq (true_and _)).symm
  | lineEnd rest, below => greedy_join rest below
  | statement first rest, below => by
      show first.Greedy ((rest.join below).yield ++ []) ∧ (rest.join below).Greedy [] ↔
        (first.Greedy (rest.yield ++ []) ∧ rest.Greedy []) ∧ below.Greedy []
      -- An end of line is no `(`, and neither is the end of the text.
      have hfollow : ((rest.join below).yield ++ []).head? = some Token.leftParen ↔
          (rest.yield ++ []).head? = some .leftParen := by
        rw [yield_join, List.append_nil, List.append_nil]
        cases rest.yield with
        | nil => exact ⟨nofun, nofun⟩
        | cons t ts => exact Iff.rfl
      rw [greedy_congr hfollow, greedy_join rest below, and_assoc]

end Derivation

/-! ## Reading and parsing -/

/-- **One part, then the other.** The two parts of a text that is cut at an end of line are read
independently. -/
theorem derives_endLine_iff {k : Nat} {ts us : Tokens} {span : Span} {p : Program} :
    Derives k .program (ts ++ ⟨.endLine, span⟩ :: us) p [] ↔
      ∃ above below, Derives k .program ts above [] ∧ Derives k .program us below [] ∧
        p = above ++ below := by
  simp only [derives_program_nil_iff]
  constructor
  · rintro ⟨d, hcovers, hn, rfl⟩
    have hyield : d.yield = values ts ++ .endLine :: values us := by
      rw [hcovers.yield_eq]
      exact values_append ts _
    obtain ⟨above, below, habove, hbelow, rfl⟩ := d.exists_join hyield
    obtain ⟨hgreedy, hgreedy'⟩ := (Derivation.greedy_join above below).mp hcovers.greedy
    -- Places above and below the cut do not lie inside one another.
    rw [Derivation.nesting_join, Nat.max_le] at hn
    refine ⟨above.tree, below.tree, ?_, ?_, above.tree_join below⟩
    · exact ⟨above, ⟨habove, hgreedy⟩, hn.1, rfl⟩
    · exact ⟨below, ⟨hbelow, hgreedy'⟩, hn.2, rfl⟩
  · rintro ⟨_, _, ⟨above, hcovers, hn, rfl⟩, ⟨below, hcovers', hn', rfl⟩, rfl⟩
    refine ⟨above.join below, ⟨?_, ?_⟩, ?_, above.tree_join below⟩
    · rw [Derivation.yield_join, hcovers.yield_eq, hcovers'.yield_eq, List.map_append]
      rfl
    · exact (Derivation.greedy_join above below).mpr ⟨hcovers.greedy, hcovers'.greedy⟩
    · rw [Derivation.nesting_join]
      exact Nat.max_le.mpr ⟨hn, hn'⟩

/-- Only the tokens count for a reading of a whole text, not their places. -/
theorem derives_congr_values {k : Nat} {ts us : Tokens} {p : Program} (h : values ts = values us) :
    Derives k .program ts p [] ↔ Derives k .program us p [] := by
  simp only [derives_program_nil_iff]
  constructor
  · rintro ⟨d, hcovers, hd⟩
    exact ⟨d, ⟨hcovers.yield_eq.trans h, hcovers.greedy⟩, hd⟩
  · rintro ⟨d, hcovers, hd⟩
    exact ⟨d, ⟨hcovers.yield_eq.trans h.symm, hcovers.greedy⟩, hd⟩

end Mapsto.Grammar

namespace Mapsto.Parser

open Grammar

/-- Only the tokens count for whether a text is accepted and for its program. -/
theorem parse_congr_values {ts us : Tokens} {p : Program} (h : values ts = values us) :
    Program.parse ts = .ok p ↔ Program.parse us = .ok p := by
  rw [parse_eq_ok_iff_derives, parse_eq_ok_iff_derives, derives_congr_values h]

/-- **Parts of a text.** A text is accepted exactly if the part above an end of line and the part below
it are; its program is that of the upper part with that of the lower part behind it. -/
theorem parse_endLine_eq_ok_iff {ts us : Tokens} {span : Span} {p : Program} :
    Program.parse (ts ++ ⟨.endLine, span⟩ :: us) = .ok p ↔
      ∃ above below, Program.parse ts = .ok above ∧ Program.parse us = .ok below ∧ p = above ++ below := by
  simp only [parse_eq_ok_iff_derives, derives_endLine_iff]
  constructor
  · rintro ⟨⟨above, below, habove, hbelow, rfl⟩, hheights⟩
    obtain ⟨hheights, hheights'⟩ := List.forall_mem_append.mp hheights
    exact ⟨above, below, ⟨habove, hheights⟩, ⟨hbelow, hheights'⟩, rfl⟩
  · rintro ⟨above, below, ⟨habove, hheights⟩, ⟨hbelow, hheights'⟩, rfl⟩
    exact ⟨⟨above, below, habove, hbelow, rfl⟩, List.forall_mem_append.mpr ⟨hheights, hheights'⟩⟩

end Mapsto.Parser
