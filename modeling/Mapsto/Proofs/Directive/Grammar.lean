import Mathlib.Data.List.DropRight
import Mapsto.Directive
import Mapsto.Proofs.Lexer.Words

/-!
# `Mapsto.Proofs.Directive.Grammar` — which lines are instructions, and what is wrong with the others

An instruction is `!name(raw)rest`. The name goes up to the first parenthesis that opens, so it may have
blanks in it and parentheses that close; what is in parentheses goes up to the first one behind it that
closes, so it may have others in it that open. With that a line can be cut in one way only (`IsCall`). A line
that cannot be cut lacks one of its parts, and the first one that it lacks is what `Directive.parse` complains
about (`Lacks`). Every line is of one of the two kinds (`isCall_or_lacks`).

The argument is what is in parentheses without the blanks at its ends. Since nothing is left to be trimmed
then, an instruction in its own writing is read as itself.
-/

namespace Mapsto

open Text

/-! ## Trimming -/

namespace Text

theorem isPrefix_trimRight (cs : List Char) : trimRight cs <+: cs :=
  List.rdropWhile_prefix isBlank cs

theorem trimRight_trimRight (cs : List Char) : trimRight (trimRight cs) = trimRight cs :=
  List.rdropWhile_idempotent isBlank cs

/-- Nothing is trimmed off a text that was trimmed. -/
theorem trim_trim (cs : List Char) : trim (trim cs) = trim cs := by
  -- What is left at the right end still begins with the first character that is not blank.
  have hfront : (trimRight (cs.dropWhile isBlank)).dropWhile isBlank = trimRight (cs.dropWhile isBlank) := by
    cases hleft : trimRight (cs.dropWhile isBlank) with
    | nil => rfl
    | cons c rest =>
        obtain ⟨blanks, hblanks⟩ := isPrefix_trimRight (cs.dropWhile isBlank)
        have hhead : c ∈ (cs.dropWhile isBlank).head? := by
          rw [← hblanks, hleft]
          rfl
        have hc := Lexer.head?_dropWhile_eq_false isBlank cs c hhead
        exact List.dropWhile_cons_of_neg (Bool.eq_false_iff.mp hc)
  rw [trim, trim, hfront, trimRight_trimRight]

theorem trim_subset (cs : List Char) : trim cs ⊆ cs :=
  List.Subset.trans (isPrefix_trimRight _).subset (List.dropWhile_sublist isBlank).subset

end Text

namespace Directive

/-! ## Lines in parts -/

/-- A line is `!name(raw)rest`, cut at the first parenthesis that opens and at the first one behind it that
closes. -/
structure IsCall (line name raw rest : List Char) : Prop where
  line_eq : line = '!' :: (name ++ '(' :: (raw ++ ')' :: rest))
  name_ne_nil : name ≠ []
  name_open : '(' ∉ name
  raw_close : ')' ∉ raw

/-- The first part that a line lacks: the mark, the parenthesis that opens, the name in front of it, or the
parenthesis that closes. -/
inductive Lacks : List Char → DirectiveError → Prop where
  | bang {line : List Char} (h : line.head? ≠ some '!') : Lacks line .missingBang
  | opening {behind : List Char} (h : '(' ∉ behind) : Lacks ('!' :: behind) .missingOpenParen
  | name (behind : List Char) : Lacks ('!' :: '(' :: behind) .emptyName
  | closing {name behind : List Char} (hne : name ≠ []) (hname : '(' ∉ name) (h : ')' ∉ behind) :
    Lacks ('!' :: (name ++ '(' :: behind)) .missingCloseParen

/-- A line has all of its parts, or there is a first one that it lacks. -/
theorem isCall_or_lacks (line : List Char) :
    (∃ name raw rest, IsCall line name raw rest) ∨ ∃ e, Lacks line e := by
  by_cases hbang : line.head? = some '!'
  · obtain ⟨behind, rfl⟩ := List.head?_eq_some_iff.mp hbang
    by_cases hopen : '(' ∈ behind
    · obtain ⟨name, inside, rfl, hname⟩ := List.eq_append_cons_of_mem hopen
      by_cases hne : name = []
      · subst hne
        exact .inr ⟨_, .name inside⟩
      by_cases hclose : ')' ∈ inside
      · obtain ⟨raw, rest, rfl, hraw⟩ := List.eq_append_cons_of_mem hclose
        exact .inl ⟨name, raw, rest, rfl, hne, hname, hraw⟩
      · exact .inr ⟨_, .closing hne hname hclose⟩
    · exact .inr ⟨_, .opening hopen⟩
  · exact .inr ⟨_, .bang hbang⟩

/-! ## Reading -/

/-- Up to the first occurrence of a character, a list is what stands in front of it. -/
theorem cut_append {c : Char} {front : List Char} (h : c ∉ front) (behind : List Char) :
    (front ++ c :: behind).takeWhile (· != c) = front ∧
      (front ++ c :: behind).dropWhile (· != c) = c :: behind := by
  refine Lexer.takeWhile_append_of_head? ?_ ?_
  · intro x hx
    exact bne_iff_ne.mpr fun heq => h (heq ▸ hx)
  · rintro x ⟨⟩
    exact bne_self_eq_false c

theorem dropWhile_of_not_mem {c : Char} {cs : List Char} (h : c ∉ cs) : cs.dropWhile (· != c) = [] := by
  rw [List.dropWhile_eq_nil_iff]
  intro x hx
  exact bne_iff_ne.mpr fun heq => h (heq ▸ hx)

/-- A line with all of its parts is read. -/
theorem IsCall.parse_eq {line name raw rest : List Char} (h : IsCall line name raw rest) :
    parse line = .ok ⟨String.ofList name, String.ofList (trim raw)⟩ := by
  obtain ⟨rfl, hne, hname, hraw⟩ := h
  obtain ⟨htake, hdrop⟩ := cut_append hname (raw ++ ')' :: rest)
  obtain ⟨htake', hdrop'⟩ := cut_append hraw rest
  simp only [parse, hdrop, htake, if_neg hne, hdrop', htake']

/-- A line without one of its parts is refused, for the first part that it lacks. -/
theorem Lacks.parse_eq {line : List Char} {e : DirectiveError} (h : Lacks line e) :
    parse line = .error e := by
  cases h with
  | bang h =>
      unfold parse
      split
      · exact absurd rfl h
      · rfl
  | opening h => simp only [parse, dropWhile_of_not_mem h]
  | name behind => rfl
  | @closing name behind hne hname h =>
      obtain ⟨htake, hdrop⟩ := cut_append hname behind
      simp only [parse, hdrop, htake, if_neg hne, dropWhile_of_not_mem h]

theorem parse_eq_ok_iff {line : List Char} {d : Directive} :
    parse line = .ok d ↔
      ∃ raw rest, IsCall line d.name.toList raw rest ∧ d.argument = String.ofList (trim raw) := by
  constructor
  · intro h
    obtain ⟨name, raw, rest, hcall⟩ | ⟨e, hlacks⟩ := isCall_or_lacks line
    · rw [hcall.parse_eq] at h
      cases h
      exact ⟨raw, rest, String.toList_ofList.symm ▸ hcall, rfl⟩
    · rw [hlacks.parse_eq] at h
      cases h
  · rintro ⟨raw, rest, hcall, hargument⟩
    rw [hcall.parse_eq, ← hargument, String.ofList_toList]

theorem parse_eq_error_iff {line : List Char} {e : DirectiveError} :
    parse line = .error e ↔ Lacks line e := by
  constructor
  · intro h
    obtain ⟨name, raw, rest, hcall⟩ | ⟨e', hlacks⟩ := isCall_or_lacks line
    · rw [hcall.parse_eq] at h
      cases h
    · rw [hlacks.parse_eq] at h
      cases h
      exact hlacks
  · exact Lacks.parse_eq

/-- An instruction that was read is read as itself in its own writing. -/
theorem parse_text_of_parse {line : List Char} {d : Directive} (h : parse line = .ok d) :
    parse d.text.toList = .ok d := by
  obtain ⟨raw, rest, hcall, hargument⟩ := parse_eq_ok_iff.mp h
  have htext : d.text.toList = '!' :: (d.name.toList ++ '(' :: (trim raw ++ [')'])) := by
    simp [text, hargument]
  have hclose : ')' ∉ trim raw := fun hmem => hcall.raw_close (trim_subset raw hmem)
  refine parse_eq_ok_iff.mpr ⟨trim raw, [], ⟨htext, hcall.name_ne_nil, hcall.name_open, hclose⟩, ?_⟩
  rw [trim_trim, hargument]

/-- **Instructions are read by their grammar.** A line is read as an instruction exactly if it has all of its
parts, and is refused exactly for the first part that it lacks; and what was read is read again from its own
writing. -/
theorem parse_exact (line : List Char) :
    (∀ d, parse line = .ok d ↔
      ∃ raw rest, IsCall line d.name.toList raw rest ∧ d.argument = String.ofList (trim raw)) ∧
    (∀ e, parse line = .error e ↔ Lacks line e) ∧
    ∀ d, parse line = .ok d → parse d.text.toList = .ok d :=
  ⟨fun _ => parse_eq_ok_iff, fun _ => parse_eq_error_iff, fun _ => parse_text_of_parse⟩

/-- A parenthesis that closes belongs to the name, and one that opens to the argument; blanks around the
argument are no part of it, and neither is what follows. -/
example :
    let d : Directive := ⟨"in) clude", "a (b"⟩
    parse "!in) clude(\u2003a (b )) c".toList = .ok d ∧ parse d.text.toList = .ok d := by
  decide +kernel

end Directive

end Mapsto
