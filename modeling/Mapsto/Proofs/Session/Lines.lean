import Mathlib.Data.List.TakeWhile
import Mapsto.Proofs.Lexer.Exact
import Mapsto.Proofs.Session.Join
import Mapsto.Proofs.Text.Lines

/-!
# `Mapsto.Proofs.Session.Lines` — the front end, line by line

A text without instructions passes the front end exactly if each of its lines does on its own, and its
program is made up of theirs, in order (`Program.ofSource_eq_ok_iff_lines`). A line of blanks is an empty
program, if it is one (`Program.eq_nil_of_trim_eq_nil`): of the many characters that count as blank here,
those that the lexer does not skip are mistakes, and the end of the line is left over.
-/

namespace Mapsto

open Text

/-! ## Blanks -/

namespace Text

theorem exists_range_of_inRanges {ranges : List (Nat × Nat)} {n : Nat} (h : inRanges ranges n = true) :
    ∃ range ∈ ranges, range.1 ≤ n ∧ n ≤ range.2 := by
  induction ranges with
  | nil => cases h
  | cons range rest ih =>
      obtain ⟨lo, hi⟩ := range
      rw [inRanges] at h
      by_cases hlo : n < lo
      · rw [if_pos hlo] at h
        cases h
      rw [if_neg hlo, Bool.or_eq_true, decide_eq_true_eq] at h
      rcases h with hhi | hrest
      · exact ⟨(lo, hi), List.mem_cons_self, Nat.le_of_not_lt hlo, hhi⟩
      · obtain ⟨range, hrange, hin⟩ := ih hrest
        exact ⟨range, List.mem_cons_of_mem _ hrange, hin⟩

/-- No blank is a letter. -/
theorem isAlphabetic_of_isBlank {c : Char} (h : isBlank c = true) : isAlphabetic c = false := by
  have hall : ∀ range ∈ blankRanges, ∀ k ∈ List.range (range.2 - range.1 + 1),
      inRanges alphabeticRanges (range.1 + k) = false := by
    decide +kernel
  obtain ⟨range, hrange, hlo, hhi⟩ := exists_range_of_inRanges h
  have hoffset : c.toNat - range.1 ∈ List.range (range.2 - range.1 + 1) := by
    rw [List.mem_range]
    omega
  have hcode := hall range hrange _ hoffset
  rwa [Nat.add_sub_cancel' hlo] at hcode

/-- Nothing is left of a text of blanks, and of no other, when it is trimmed. -/
theorem trim_eq_nil_iff {cs : List Char} : trim cs = [] ↔ ∀ c ∈ cs, isBlank c = true := by
  rw [trim, trimRight, List.reverse_eq_nil_iff, List.dropWhile_eq_nil_iff]
  constructor
  · intro hbehind c hc
    rw [← List.takeWhile_append_dropWhile (p := isBlank) (l := cs), List.mem_append] at hc
    rcases hc with hfront | hrest
    · exact List.mem_takeWhile_imp hfront
    · exact hbehind c (List.mem_reverse.mpr hrest)
  · intro hall c hc
    exact hall c ((List.dropWhile_sublist isBlank).subset (List.mem_reverse.mp hc))

end Text

namespace Lexer

/-- Where only blanks stand, the one token there can be is the end of a line. -/
theorem Stands.eq_endLine {word follow : List Char} {token : Token} (h : Stands word follow (.ok token))
    (hblank : ∀ c ∈ word, isBlank c = true) : token = .endLine := by
  have hdigit : ∀ {digits : List Char}, digits ≠ [] → (∀ x ∈ digits, isDigit x = true) →
      ¬ ∀ x ∈ digits, isBlank x = true := by
    intro digits hne hdigits hblank
    obtain ⟨c, hc⟩ := List.exists_mem_of_ne_nil digits hne
    obtain ⟨range, hrange, hlo, hhi⟩ := exists_range_of_inRanges (hblank c hc)
    obtain ⟨hlo', hhi'⟩ := toNat_le_of_isDigit (hdigits c hc)
    have hapart : ∀ range ∈ blankRanges, range.2 < 0x30 ∨ 0x39 < range.1 := by decide
    have := hapart range hrange
    omega
  cases h with
  | @keyword k _ hk =>
      have hnot : ∀ k ∈ keywords, k.1.toList.all isBlank = false := by decide
      rw [← List.all_eq_true, hnot k hk] at hblank
      cases hblank
  | @identifier c cs _ hc =>
      rw [isAlphabetic_of_isBlank (hblank c List.mem_cons_self)] at hc
      cases hc
  | whole hne hdigits => exact absurd hblank (hdigit hne hdigits)
  | decimal hne hdigits => exact absurd (List.forall_mem_append.mp hblank).1 (hdigit hne hdigits)
  | @symbol c _ _ h =>
      have hnot : ∀ x ∈ symbols, isBlank x.1 = true → x.2 = .endLine := by decide
      exact hnot _ (mem_symbols_of_symbol? h) (hblank c List.mem_cons_self)
  | @operator op _ hop =>
      have hnot : ∀ op ∈ operators, op.1.toList.all isBlank = false := by decide
      rw [← List.all_eq_true, hnot op hop] at hblank
      cases hblank

end Lexer

/-! ## Single lines -/

/-- Lines of which none is an instruction make up a text without instructions. -/
theorem plain_of_areLines {ls : List (List Char)} (hls : AreLines ls)
    (hplain : ∀ line ∈ ls, Directive.isDirective line = false) : Plain (String.ofList ls.flatten) := by
  unfold Plain
  rw [String.toList_ofList, hls.lines_flatten]
  exact hplain

/-- Each line of a text without instructions is one. -/
theorem Plain.of_mem_lines {source : String} (h : Plain source) {line : List Char}
    (hline : line ∈ lines source.toList) : Plain (String.ofList line) := by
  unfold Plain
  rw [String.toList_ofList, (areLines_lines source.toList).lines_eq_singleton line hline]
  exact List.forall_mem_singleton.mpr (h line hline)

/-- Without its end a line that is no instruction is none either. -/
theorem plain_of_newline_not_mem {body : List Char} (hbody : '\n' ∉ body)
    (hplain : Directive.isDirective (body ++ ['\n']) = false) : Plain (String.ofList body) := by
  unfold Plain
  rw [String.toList_ofList]
  rw [Directive.isDirective_append_newline] at hplain
  by_cases hne : body = []
  · subst hne
    exact nofun
  · rw [lines_of_newline_not_mem hne hbody]
    exact List.forall_mem_singleton.mpr hplain

namespace Program

variable {disk disk' : Disk} {origin origin' : String}

theorem ofSource_empty : Program.ofSource disk "" origin = .ok [] := by
  have hlexed : Lexed.ofString "" = ⟨[], []⟩ := by
    rw [Lexed.ofString, Cursor.scan_of_nil rfl]
    rfl
  rw [ofSource_eq_ok_iff disk origin (by decide), hlexed]
  exact ⟨rfl, rfl⟩

/-- Where a text without instructions comes from makes no difference to its program. -/
theorem ofSource_congr {source : String} (h : Plain source) {p : Program} :
    Program.ofSource disk source origin = .ok p ↔ Program.ofSource disk' source origin' = .ok p := by
  rw [ofSource_eq_ok_iff disk origin h, ofSource_eq_ok_iff disk' origin' h]

/-- A line with its end has the program that it has without. -/
theorem ofSource_append_end {body : List Char} (hbody : Plain (String.ofList body)) {p : Program} :
    Program.ofSource disk (String.ofList (body ++ ['\n'])) origin = .ok p ↔
      Program.ofSource disk (String.ofList body) origin = .ok p := by
  have htext : String.ofList (body ++ ['\n']) = String.ofList body ++ "\n" ++ "" := by
    rw [String.ofList_append, String.append_empty]
  have hempty : Plain "" := by decide
  rw [htext, ofSource_append_newline disk origin origin origin hbody hempty]
  constructor
  · rintro ⟨above, below, habove, hbelow, rfl⟩
    rw [ofSource_empty] at hbelow
    cases hbelow
    rw [List.append_nil]
    exact habove
  · intro h
    exact ⟨p, [], h, ofSource_empty, (List.append_nil p).symm⟩

/-- Tokens that are all ends of lines are an empty program. -/
theorem parse_eq_nil_of_endLines {ts : List (Spanned Token)} (hts : ∀ t ∈ ts, t.value = .endLine)
    {p : Program} (h : Program.parse ts = .ok p) : p = [] := by
  induction ts generalizing p with
  | nil =>
      have hempty : Program.parse [] = .ok [] := rfl
      rw [hempty] at h
      exact (Except.ok.inj h).symm
  | cons t ts ih =>
      obtain ⟨ht, hothers⟩ := List.forall_mem_cons.mp hts
      obtain ⟨value, span⟩ := t
      obtain rfl : value = .endLine := ht
      rw [← List.nil_append (_ :: ts), Parser.parse_endLine_eq_ok_iff] at h
      obtain ⟨above, below, habove, hbelow, rfl⟩ := h
      cases habove
      rw [ih hothers hbelow, List.append_nil]

/-- A text of blanks is an empty program, if it is one. -/
theorem eq_nil_of_trim_eq_nil {cs : List Char} (hcs : trim cs = []) {p : Program}
    (h : Program.ofSource disk (String.ofList cs) origin = .ok p) : p = [] := by
  have hblank := trim_eq_nil_iff.mp hcs
  have hplain : Plain (String.ofList cs) := by
    unfold Plain
    rw [String.toList_ofList]
    intro line hline
    have htrim : trim line = [] := by
      rw [trim_eq_nil_iff]
      intro c hc
      have hmem : c ∈ (lines cs).flatten := List.mem_flatten_of_mem hline hc
      rw [lines, flatten_splitAfter] at hmem
      exact hblank c hmem
    rw [Directive.isDirective, htrim]
  obtain ⟨-, hparse⟩ := (ofSource_eq_ok_iff disk origin hplain).mp h
  refine parse_eq_nil_of_endLines ?_ hparse
  intro t ht
  obtain ⟨word, follow, ⟨before, htext, -⟩, hstands⟩ := Lexed.exists_holds_of_mem_tokens ht
  refine hstands.eq_endLine ?_
  intro c hc
  rw [String.toList_ofList] at htext
  refine hblank c ?_
  rw [htext]
  exact List.mem_append_right _ (List.mem_append_left _ hc)

/-- **Lines.** What lines make up passes the front end exactly if each of them does. -/
theorem ofSource_flatten {ls : List (List Char)} (hls : AreLines ls)
    (hplain : ∀ line ∈ ls, Directive.isDirective line = false) {p : Program} :
    Program.ofSource disk (String.ofList ls.flatten) origin = .ok p ↔
      ∃ programs : List Program,
        (ls.map fun line => Program.ofSource disk (String.ofList line) origin) = programs.map .ok ∧
          p = programs.flatten := by
  induction hls generalizing p with
  | nil =>
      have hempty : String.ofList ([] : List (List Char)).flatten = "" := rfl
      rw [hempty, ofSource_empty]
      constructor
      · rintro h
        cases h
        exact ⟨[], rfl, rfl⟩
      · rintro ⟨programs, hprograms, rfl⟩
        rw [List.map_eq_nil_iff.mp hprograms.symm]
        rfl
  | @last line hline hend =>
      rw [List.flatten_singleton]
      constructor
      · intro h
        exact ⟨[p], by rw [List.map_singleton, h, List.map_singleton], List.flatten_singleton.symm⟩
      · rintro ⟨programs, hprograms, rfl⟩
        rw [List.map_singleton] at hprograms
        obtain ⟨q, rfl, hq⟩ := List.map_eq_singleton_iff.mp hprograms.symm
        rw [List.flatten_singleton]
        exact hq.symm
  | @cons line rest hline hrest ih =>
      obtain ⟨body, hbody, rfl⟩ := hline
      obtain ⟨hfirst, hothers⟩ := List.forall_mem_cons.mp hplain
      have hplainBody := plain_of_newline_not_mem hbody hfirst
      have htext : String.ofList ((body ++ ['\n']) :: rest).flatten =
          String.ofList body ++ "\n" ++ String.ofList rest.flatten := by
        rw [List.flatten_cons, String.ofList_append, String.ofList_append]
      rw [htext, ofSource_append_newline disk origin origin origin hplainBody (plain_of_areLines hrest hothers)]
      constructor
      · rintro ⟨above, below, habove, hbelow, rfl⟩
        obtain ⟨programs, hprograms, rfl⟩ := (ih hothers).mp hbelow
        rw [← ofSource_append_end hplainBody] at habove
        exact ⟨above :: programs, by rw [List.map_cons, List.map_cons, hprograms, habove], rfl⟩
      · rintro ⟨programs, hprograms, rfl⟩
        rw [List.map_cons] at hprograms
        obtain ⟨above, others, rfl, habove, hothers'⟩ := List.map_eq_cons_iff.mp hprograms.symm
        refine ⟨above, others.flatten, ?_, (ih hothers).mpr ⟨others, hothers'.symm, rfl⟩, rfl⟩
        rw [← ofSource_append_end hplainBody]
        exact habove.symm

/-- **The front end, line by line.** A text without instructions passes it exactly if each of its lines does,
and its program is made up of theirs. -/
theorem ofSource_eq_ok_iff_lines {source : String} (h : Plain source) {p : Program} :
    Program.ofSource disk source origin = .ok p ↔
      ∃ programs : List Program,
        ((lines source.toList).map fun line => Program.ofSource disk (String.ofList line) origin) =
            programs.map .ok ∧
          p = programs.flatten := by
  have hsource : String.ofList (lines source.toList).flatten = source := by
    rw [lines, flatten_splitAfter, String.ofList_toList]
  rw [← ofSource_flatten (areLines_lines source.toList) h, hsource]

/-- Where the lines of a text without instructions come from makes no difference to their programs. -/
theorem ofSource_lines_congr {source : String} (h : Plain source) {programs : List Program}
    (hprograms : ((lines source.toList).map fun line => Program.ofSource disk (String.ofList line) origin) =
      programs.map .ok) :
    ((lines source.toList).map fun line => Program.ofSource disk' (String.ofList line) origin') =
      programs.map .ok := by
  rw [← hprograms]
  refine List.map_congr_left fun line hline => ?_
  obtain ⟨q, -, hq⟩ : ∃ q ∈ programs, .ok q = Program.ofSource disk (String.ofList line) origin := by
    rw [← List.mem_map, ← hprograms]
    exact List.mem_map_of_mem (f := fun line => Program.ofSource disk (String.ofList line) origin) hline
  rw [← hq]
  exact (ofSource_congr (h.of_mem_lines hline)).mp hq.symm

end Program

end Mapsto
