import Mapsto.Proofs.Directive.Grammar
import Mapsto.Proofs.Expansion.Once
import Mapsto.Proofs.Launch.Piped
import Mapsto.Proofs.Parser.Located
import Mapsto.Proofs.Session.Failures

/-!
# `Mapsto.Proofs.Report.OneLine` — a line for each problem

A report is one line if its message has no end of line in it. Messages are made of fixed wordings, of
numbers, and of what they quote. A mistake in an instruction quotes a part of a line (`quoted?`), and is
found in a line of the text or of a file that was included; so the quotation has no end of line, and the
path in front of it has none if no path has. A mistake of the parser quotes a token, and the token for an
end of line has a name of its own. Mistakes of one character quote that character.

An operator of which only the first character is there is another matter. Its message quotes as many
characters as the operator has, wherever they stand: if the line ends among them, the end of the line is
quoted too, and the report goes on in another line (`CutOff`). Nothing else breaks a report
(`Session.oneLine_messages_iff`).
-/

namespace Mapsto

open Text Lexer

/-! ## Texts of one line -/

/-- A text without an end of line in it. -/
structure OneLine (text : String) : Prop where
  newline_not_mem : '\n' ∉ text.toList

theorem oneLine_iff {text : String} : OneLine text ↔ '\n' ∉ text.toList :=
  ⟨OneLine.newline_not_mem, OneLine.mk⟩

instance (text : String) : Decidable (OneLine text) := decidable_of_iff' _ oneLine_iff

@[simp] theorem oneLine_append (a b : String) : OneLine (a ++ b) ↔ OneLine a ∧ OneLine b := by
  simp [oneLine_iff]

theorem OneLine.of_subset {cs : List Char} {text : String} (hsubset : text.toList ⊆ cs) (hcs : '\n' ∉ cs) :
    OneLine text := ⟨fun hmem => hcs (hsubset hmem)⟩

/-- Numbers are written with digits. -/
@[simp] theorem oneLine_repr (n : Nat) : OneLine (Nat.repr n) := by
  rw [oneLine_iff, Nat.toList_repr]
  intro hmem
  have hdigit : '\n'.isDigit = true := Nat.isDigit_of_mem_toDigits (by decide) (by decide) hmem
  exact absurd hdigit (by decide)

@[simp] theorem Span.oneLine_text (span : Span) : OneLine span.text := by
  have hfixed : OneLine "(at " ∧ OneLine ":" ∧ OneLine ")" := by decide
  simp [Span.text, hfixed]

/-- No path of a file system has an end of line in it. -/
def Disk.PathsOneLine (disk : Disk) : Prop :=
  ∀ path canonical, disk.canonical? path = some canonical → OneLine canonical

/-! ## Mistakes in instructions -/

/-- The part of a line that a mistake quotes. -/
def DirectiveError.quoted? : DirectiveError → Option String
  | unknownName name => some name
  | targetNotFound target => some target
  | targetIsDirectory target => some target
  | targetNotAFile target => some target
  | targetUnreadable target => some target
  | _ => none

/-- A mistake about a part that is missing quotes nothing. -/
theorem Directive.Lacks.quoted?_eq_none {line : List Char} {e : DirectiveError} (h : Lacks line e) :
    e.quoted? = none := by
  cases h <;> rfl

theorem DirectiveError.oneLine_message {e : DirectiveError} (h : ∀ text ∈ e.quoted?, OneLine text) :
    OneLine e.message := by
  cases e with
  | unknownName name | targetNotFound name | targetIsDirectory name | targetNotAFile name
  | targetUnreadable name =>
      have hname : OneLine name := h name rfl
      unfold message
      simp only [oneLine_append, hname]
      decide
  | _ => decide

namespace Expansion

/-- Where no file is found, no other text than the target is quoted. -/
theorem eq_target_of_mem_quoted? {disk : Disk} {origin target : String} {cause : DirectiveError}
    (h : find disk origin target = .error cause) : ∀ text ∈ cause.quoted?, text = target := by
  have hquoted : ∀ text ∈ some target, text = target := fun text htext => (Option.some.inj htext).symm
  unfold find at h
  split at h
  · cases h
    exact nofun
  split at h
  · cases h
    exact hquoted
  split at h <;> cases h
  · exact hquoted
  · exact hquoted

/-- Name and argument of an instruction are parts of its line. -/
theorem subset_of_parse {line : List Char} {name argument : String}
    (h : Directive.parse line = .ok ⟨name, argument⟩) : name.toList ⊆ line ∧ argument.toList ⊆ line := by
  obtain ⟨raw, rest, hcall, hargument⟩ := Directive.parse_eq_ok_iff.mp h
  obtain rfl : argument = String.ofList (trim raw) := hargument
  rw [hcall.line_eq, String.toList_ofList]
  constructor
  · exact fun c hc => List.mem_cons_of_mem _ (List.mem_append_left _ hc)
  · intro c hc
    have hraw : c ∈ raw := trim_subset raw hc
    simp [hraw]

variable {disk : Disk} {visited : List String} {origin : String} {text : List Char}

/-- What is wrong with an instruction is said with words of its line, and the path of a file that it includes
is a canonical one. -/
theorem oneLine_of_request (hdisk : disk.PathsOneLine) (visited : List String) (origin : String)
    (htext : '\n' ∉ trim text) :
    match request disk visited origin text with
    | .bad cause => OneLine cause.message
    | .file path _ => OneLine path
    | _ => True := by
  unfold request
  by_cases hdirective : Directive.isDirective text = true
  · rw [if_pos hdirective]
    rcases hparse : Directive.parse (trim text) with cause | ⟨name, target⟩
    · refine DirectiveError.oneLine_message ?_
      rw [(Directive.parse_eq_error_iff.mp hparse).quoted?_eq_none]
      exact nofun
    obtain ⟨hname, htarget⟩ := subset_of_parse hparse
    have hquoted : ∀ text ∈ some target, OneLine text := by
      rintro _ ⟨⟩
      exact .of_subset htarget htext
    by_cases hinclude : name ≠ "include"
    · simp only [if_pos hinclude]
      refine DirectiveError.oneLine_message ?_
      rintro _ ⟨⟩
      exact .of_subset hname htext
    simp only [if_neg hinclude]
    rcases hfind : find disk origin target with cause | ⟨path, content⟩
    · refine DirectiveError.oneLine_message fun quoted hquoted => ?_
      rw [eq_target_of_mem_quoted? hfind quoted hquoted]
      exact .of_subset htarget htext
    obtain ⟨-, hpath, -⟩ := find_eq_ok_iff.mp hfind
    by_cases hvisited : path ∈ visited
    · simp only [if_pos hvisited]
    simp only [if_neg hvisited]
    cases String.fromUTF8? content with
    | none => exact DirectiveError.oneLine_message hquoted
    | some source => exact hdisk _ _ hpath
  · rw [if_neg hdirective]
    trivial

/-- The end of a line is trimmed off. -/
theorem newline_not_mem_trim_of_isEnded {line : List Char} (h : IsEnded line) : '\n' ∉ trim line := by
  obtain ⟨body, hbody, rfl⟩ := h
  rw [trim_append_blank (by decide)]
  exact fun hmem => hbody (trim_subset body hmem)

theorem newline_not_mem_trim_of_areLines {ls : List (List Char)} (h : AreLines ls) :
    ∀ line ∈ ls, '\n' ∉ trim line := by
  induction h with
  | nil => exact nofun
  | @last line hline hend => exact List.forall_mem_singleton.mpr fun hmem => hend (trim_subset line hmem)
  | cons hline hrest ih => exact List.forall_mem_cons.mpr ⟨newline_not_mem_trim_of_isEnded hline, ih⟩

/-- Whatever is wrong on a walk through lines is said in one line. -/
theorem oneLine_of_mem_met (hdisk : disk.PathsOneLine) (number : Nat) (texts : List (List Char))
    (horigin : OneLine origin) (htexts : ∀ text ∈ texts, '\n' ∉ trim text) :
    ∀ e : ExpansionError, .error e ∈ (walk disk visited origin number texts).met → OneLine e.message := by
  fun_induction walk disk visited origin number texts with
  | case1 =>
      intro e he
      cases he
  | case2 visited origin number text rest h behind ih =>
      intro e he
      obtain he | he := List.mem_cons.mp he
      · cases he
      · exact ih horigin (List.forall_mem_cons.mp htexts).2 e he
  | case3 visited origin number text rest h ih => exact ih horigin (List.forall_mem_cons.mp htexts).2
  | case4 visited origin number text rest cause h behind ih =>
      obtain ⟨htext, hrest⟩ := List.forall_mem_cons.mp htexts
      intro e he
      obtain he | he := List.mem_cons.mp he
      · obtain rfl := Except.error.inj he
        have hcause := oneLine_of_request hdisk visited origin htext
        rw [h] at hcause
        have hcolon : OneLine ":" ∧ OneLine ": " := by decide
        simp [ExpansionError.message, horigin, hcause, hcolon]
      · exact ih horigin hrest e he
  | case5 visited origin number text rest path texts h _ inside _ _ behind ihInside ihBehind =>
      obtain ⟨htext, hrest⟩ := List.forall_mem_cons.mp htexts
      have hpath := oneLine_of_request hdisk visited origin htext
      rw [h] at hpath
      obtain ⟨-, -, rfl⟩ := of_request_eq_file h
      intro e he
      obtain he | he := List.mem_append.mp he
      · refine ihInside hpath ?_ e he
        exact fun line hline => newline_not_mem_trim_of_isEnded (Loop.isEnded_of_mem_fileLines line hline)
      · exact ihBehind horigin hrest e he

end Expansion

/-- What keeps a text from being expanded is said in one line. -/
theorem ExpansionError.oneLine_message {disk : Disk} {source origin : String} {e : ExpansionError}
    (hdisk : disk.PathsOneLine) (horigin : OneLine origin) (h : expand disk source origin = .error e) :
    OneLine e.message := by
  rw [expand_eq_resume] at h
  cases hresume : Expansion.resume (Expansion.walkText disk source origin).met (.ok []) with
  | ok texts =>
      rw [hresume] at h
      cases h
  | error e' =>
      rw [hresume] at h
      cases h
      obtain ⟨kept, behind, hmet⟩ := Expansion.resume_eq_error_iff.mp hresume
      have hmem : .error e ∈ (Expansion.walkText disk source origin).met := by
        rw [hmet]
        exact List.mem_append_right _ List.mem_cons_self
      have hlines := Expansion.newline_not_mem_trim_of_areLines (areLines_lines source.toList)
      exact Expansion.oneLine_of_mem_met hdisk 1 _ horigin hlines e hmem

/-! ## Mistakes of the parser -/

theorem Token.oneLine_describe {token : Token} (h : token ≠ .endLine → OneLine token.lexeme) :
    OneLine token.describe := by
  cases token with
  | identifier name =>
      have hname : OneLine name := h nofun
      simp only [describe, oneLine_append, hname]
      decide
  | number lexeme =>
      have hlexeme : OneLine lexeme := h nofun
      simp only [describe, oneLine_append, hlexeme]
      decide
  | _ => decide

namespace Lexed

variable {s : String}

/-- Every token but an end of line stands in one line. -/
theorem oneLine_lexeme_of_mem_tokens {t : Spanned Token} (h : t ∈ (ofString s).tokens)
    (ht : t.value ≠ .endLine) : OneLine t.value.lexeme := by
  obtain ⟨word, follow, -, hword⟩ := exists_holds_of_mem_tokens h
  rw [oneLine_iff, ← hword.eq_lexeme]
  obtain ⟨-, hvalue⟩ | ⟨hend, -⟩ := hword.newline_cases
  · exact absurd (Except.ok.inj hvalue) ht
  · exact hend

theorem oneLine_describe_of_mem_tokens {t : Spanned Token} (h : t ∈ (ofString s).tokens) :
    OneLine t.value.describe :=
  Token.oneLine_describe (oneLine_lexeme_of_mem_tokens h)

end Lexed

/-- A mistake that is found in the tokens of a text is said in one line. -/
theorem Parser.Blames.oneLine_message {setting : Setting} {s : String} {left : Tokens} {e : ParseError}
    (h : Blames setting (Lexed.ofString s).tokens left e) : OneLine e.message := by
  have hwanted : ∀ what ∈ wanted, OneLine what := by decide
  have hfixed : OneLine "Unexpected token " ∧ OneLine " " ∧ OneLine "Expected " ∧ OneLine ", but got " ∧
      OneLine " instead " ∧ OneLine "Unexpected end of input, expected " ∧
      OneLine "Invalid number literal `" ∧ OneLine "` " ∧ OneLine "Expression is nested more than " ∧
      OneLine " levels deep " := by
    decide
  unfold ParseError.message
  cases h with
  | unexpected h =>
      have htoken := Lexed.oneLine_describe_of_mem_tokens (h.subset List.mem_cons_self)
      simp [hfixed, htoken]
  | expected hwhat h =>
      have htoken := Lexed.oneLine_describe_of_mem_tokens (h.subset List.mem_cons_self)
      simp [hfixed, htoken, hwanted _ hwhat]
  | expectedExpression h =>
      have htoken := Lexed.oneLine_describe_of_mem_tokens (h.subset List.mem_cons_self)
      have hexpected : OneLine "Expected an expression, but got " := by decide
      simp [hfixed, htoken, hexpected]
  | unexpectedEnd hwhat => simp [hfixed, hwanted _ hwhat]
  | @invalidNumber lexeme span left h =>
      have hlexeme : OneLine lexeme := Lexed.oneLine_lexeme_of_mem_tokens (h.subset List.mem_cons_self) nofun
      simp [hfixed, hlexeme]
  | @tooDeep start left h => cases start <;> simp [Parser.tooDeep, hfixed]

/-! ## Mistakes of the lexer -/

namespace Lexer

/-- An operator is begun, and the line ends within as many characters as the operator has. -/
def CutOff (text : List Char) : Prop :=
  ∃ op ∈ operators, text.head? = op.1.toList.head? ∧ '\n' ∈ text.take op.1.toList.length

instance (text : List Char) : Decidable (CutOff text) :=
  inferInstanceAs (Decidable (∃ op ∈ operators, _ ∧ _))

/-- The message about an operator goes on in another line exactly if the operator is cut off. All other
messages about what stands at a place are one line. -/
theorem Stands.oneLine_message_iff {word follow : List Char} {e : LexError}
    (h : Stands word follow (.error e)) : OneLine e.message ↔ ¬ CutOff (word ++ follow) := by
  cases h with
  | @malformed op c follow hop hc h =>
      have hname : ∀ op ∈ operators, OneLine op.1 := by decide
      have hfixed : OneLine "Expected sequence '" ∧ OneLine "' but found '" ∧ OneLine "'" := by decide
      have hsame : ∀ op ∈ operators, ∀ op' ∈ operators, op.1.toList.head? = op'.1.toList.head? →
          op = op' := by
        decide
      have hmessage : OneLine (LexError.malformedOperator op.1
          (String.ofList ((c :: follow).take op.1.toList.length))).message ↔
            '\n' ∉ (c :: follow).take op.1.toList.length := by
        unfold LexError.message
        simp only [oneLine_append, hname op hop, hfixed, true_and, and_true]
        rw [oneLine_iff, String.toList_ofList]
      rw [hmessage, List.singleton_append, not_iff_not]
      constructor
      · exact fun hmem => ⟨op, hop, hc.symm, hmem⟩
      · rintro ⟨op', hop', hhead, hmem⟩
        rwa [hsame op hop op' hop' (hc.trans hhead)]
  | @unexpected c follow h =>
      have hc : c ≠ '\n' := by
        rintro rfl
        exact absurd h.not_symbol nofun
      refine iff_of_true ?_ ?_
      · have hfixed : OneLine "Unexpected character '" ∧ OneLine "' in source" := by decide
        have hchar : OneLine c.toString := by simp [oneLine_iff, Char.toString, Ne.symm hc]
        unfold LexError.message
        simp only [oneLine_append, hfixed, hchar, and_self]
      · rintro ⟨op, hop, hhead, -⟩
        exact h.not_operator (startsOperator_of_head? hop hhead.symm)

end Lexer

/-- No operator that is begun in a text and not finished is cut off by the end of its line. -/
def Uncut (text : String) : Prop :=
  ∀ mistake ∈ (Lexed.ofString text).errors, ¬ CutOff (textFrom text mistake.span.start)

theorem Lexed.oneLine_errorText_iff {s : String} {mistake : Spanned LexError}
    (h : mistake ∈ (ofString s).errors) :
    OneLine mistake.errorText ↔ ¬ CutOff (textFrom s mistake.span.start) := by
  obtain ⟨word, follow, hplace, hword⟩ := exists_holds_of_mem_errors h
  have hblank : OneLine " " := by decide
  rw [hplace.textFrom_start, ← hword.oneLine_message_iff]
  simp [Spanned.errorText, hblank]

/-! ## Reports -/

namespace Report

/-- A line with an end is one line, or more if there is an end of line in front of that. -/
theorem length_lines_append_newline (body : List Char) :
    1 ≤ (lines (body ++ ['\n'])).length ∧ ((lines (body ++ ['\n'])).length = 1 ↔ '\n' ∉ body) := by
  by_cases hmem : '\n' ∈ body
  · obtain ⟨first, rest, rfl, hfirst⟩ := List.eq_append_cons_of_mem hmem
    obtain ⟨line, behind, hlines, -⟩ :=
      Expansion.exists_lines_eq_cons (List.append_ne_nil_of_right_ne_nil rest (List.cons_ne_nil '\n' []))
    rw [List.append_assoc, List.cons_append, lines_append_newline hfirst, hlines]
    simp
  · rw [lines_append_newline hmem]
    simp [lines, splitAfter, hmem]

theorem toList_line (message : String) :
    (line message).toList = (mark ++ " " ++ message).toList ++ ['\n'] := by
  rw [line, String.toList_append]
  rfl

/-- **Lines are counted.** Reports take a line each, or one of them takes more. -/
theorem length_lines_join (messages : List String) :
    let count := (lines (String.join (messages.map line)).toList).length
    messages.length ≤ count ∧ (count = messages.length ↔ ∀ message ∈ messages, OneLine message) := by
  induction messages with
  | nil => simp [lines, splitAfter]
  | cons message rest ih =>
      have hmark : OneLine (mark ++ " ") := by decide
      have hfirst := length_lines_append_newline (mark ++ " " ++ message).toList
      have hmessage : '\n' ∉ (mark ++ " " ++ message).toList ↔ OneLine message := by
        rw [← oneLine_iff]
        simp [hmark]
      have hlines : lines (String.join ((message :: rest).map line)).toList =
          lines (line message).toList ++ lines (String.join (rest.map line)).toList := by
        rw [List.map_cons, String.join_cons, String.toList_append, toList_line, List.append_assoc]
        exact splitAfter_append (· == '\n') (BEq.refl '\n') _ _
      simp only at ih ⊢
      rw [hlines, List.length_append, List.length_cons, List.forall_mem_cons, ← ih.2, ← hmessage, ← hfirst.2,
        toList_line]
      omega

end Report

theorem joined_toUTF8 (texts : List String) : joined (texts.map String.toUTF8) = (String.join texts).toUTF8 := by
  induction texts with
  | nil => rfl
  | cons text rest ih =>
      rw [List.map_cons, joined, ih, String.join_cons]
      exact String.toByteArray_append.symm

/-! ## The front end -/

/-- Of what keeps a text from running, each problem is said in one line, unless an operator is cut off. -/
theorem Program.oneLine_iff_uncut {disk : Disk} {source origin : String} {e : FrontendError}
    (hdisk : disk.PathsOneLine) (horigin : OneLine origin) (h : ofSource disk source origin = .error e) :
    (∀ message ∈ e.messages, OneLine message) ↔
      ∀ text, expand disk source origin = .ok text → Uncut text := by
  simp only [ofSource] at h
  cases hexpand : expand disk source origin with
  | error cause =>
      rw [hexpand] at h
      cases h
      have hmessage := ExpansionError.oneLine_message hdisk horigin hexpand
      refine iff_of_true (List.forall_mem_singleton.mpr hmessage) ?_
      rintro _ ⟨⟩
  | ok text =>
      simp only [Except.ok.injEq, forall_eq']
      simp only [hexpand, Lexed.result] at h
      by_cases herrors : (Lexed.ofString text).errors.isEmpty = true
      · rw [if_pos herrors] at h
        cases hparse : parse (Lexed.ofString text).tokens with
        | ok program =>
            simp only [hparse] at h
            cases h
        | error cause =>
            simp only [hparse] at h
            cases h
            have hmessage := (Parser.blames_of_program (Prod.ext hparse rfl)).oneLine_message
            refine iff_of_true (List.forall_mem_singleton.mpr hmessage) ?_
            unfold Uncut
            rw [List.isEmpty_iff.mp herrors]
            exact fun mistake hmistake => absurd hmistake List.not_mem_nil
      · rw [if_neg herrors] at h
        cases h
        rw [FrontendError.messages, List.forall_mem_map]
        exact forall₂_congr fun mistake hmistake => Lexed.oneLine_errorText_iff hmistake

/-- A text without instructions that has mistakes for the lexer does not run. -/
theorem Program.ofSource_eq_lexical (disk : Disk) {source : String} (origin : String) (h : Plain source)
    {errors : List (Spanned LexError)} (herrors : (Lexed.ofString source).errors = errors)
    (hne : errors ≠ []) : ofSource disk source origin = .error (.lexical errors) := by
  subst herrors
  have hresult : (Lexed.ofString source).result = .error (Lexed.ofString source).errors :=
    if_neg fun hempty => hne (List.isEmpty_iff.mp hempty)
  simp only [ofSource, expand_plain disk origin h, hresult]

namespace Session

/-- **A line for each problem.** Take a text that does not run, with a file system and an origin of which no
path has an end of line in it. Every message is one line, and the reports are as many lines as there are
messages, exactly if no operator that is begun in the expanded text is cut off by the end of its line. They are
never fewer; so where an operator is cut off, they are more. -/
theorem oneLine_messages_iff {σ : Type} [Writable σ] (config : Config) {disk : Disk} {source origin : String}
    (hdisk : disk.PathsOneLine) (horigin : OneLine origin) (session : Session) (sink : σ)
    {e : FrontendError} (h : (session.run config disk sink source origin).1 = .error e) {reports : Sink}
    (hreports : reports.TakesAll) :
    let uncut := ∀ text, expand disk source origin = .ok text → Uncut text
    let printed := String.join (Report.frontend e)
    ((∀ message ∈ e.messages, OneLine message) ↔ uncut) ∧
      Report.writeLines reports (Report.frontend e) = (.ok (), reports.wrote printed.toUTF8) ∧
      ((lines printed.toList).length = e.messages.length ↔ uncut) ∧
      e.messages.length ≤ (lines printed.toList).length := by
  have hmessages := Program.oneLine_iff_uncut hdisk horigin ((run_eq_error_iff config session sink e).mp h)
  obtain ⟨hle, hcount⟩ := Report.length_lines_join e.messages
  refine ⟨hmessages, ?_, hcount.trans hmessages, hle⟩
  rw [Report.writeLines_eq hreports, joined_toUTF8]

/-- Two operators are begun and not finished, but not at the end of a line. -/
theorem oneLine_messages_iff_colon_bar :
    let disk : Disk := ⟨fun _ => none, []⟩
    let e : FrontendError :=
      .lexical [⟨.malformedOperator ":=" ": ", ⟨2, 3⟩⟩, ⟨.malformedOperator "|->" "|- ", ⟨6, 7⟩⟩]
    let printed := String.join (Report.frontend e)
    let uncut := ∀ text, expand disk "x : 1\n|- 2" "-" = .ok text → Uncut text
    disk.PathsOneLine ∧ OneLine "-" ∧ Sink.unlimited.TakesAll ∧
      (initial.run .standard disk Sink.unlimited "x : 1\n|- 2" "-").1 = .error e ∧
      ((∀ message ∈ e.messages, OneLine message) ↔ uncut) ∧
      Report.writeLines Sink.unlimited (Report.frontend e) = (.ok (), Sink.unlimited.wrote printed.toUTF8) ∧
      ((lines printed.toList).length = e.messages.length ↔ uncut) ∧
      e.messages.length ≤ (lines printed.toList).length := by
  intro disk e printed uncut
  have hdisk : disk.PathsOneLine := nofun
  have horigin : OneLine "-" := by decide
  have hsource : Program.ofSource disk "x : 1\n|- 2" "-" = .error e :=
    Program.ofSource_eq_lexical disk "-" (by decide +kernel) (by decide +kernel) (List.cons_ne_nil _ _)
  have hrun := (run_eq_error_iff .standard initial Sink.unlimited e).mpr hsource
  exact ⟨hdisk, horigin, Sink.takesAll_unlimited, hrun,
    oneLine_messages_iff .standard hdisk horigin initial Sink.unlimited hrun Sink.takesAll_unlimited⟩

/-- Behind the colon the line ends, and the message goes on in another line. -/
theorem messages_not_oneLine_of_cutOff :
    let disk : Disk := ⟨fun _ => none, []⟩
    let e : FrontendError := .lexical [⟨.malformedOperator ":=" ":\n", ⟨2, 3⟩⟩]
    disk.PathsOneLine ∧ OneLine "-" ∧
      (initial.run .standard disk Sink.unlimited "x :\n" "-").1 = .error e ∧
      e.messages = ["Expected sequence ':=' but found ':\n' (at 2:3)"] ∧
      ¬ ∀ message ∈ e.messages, OneLine message := by
  intro disk e
  have hsource : Program.ofSource disk "x :\n" "-" = .error e :=
    Program.ofSource_eq_lexical disk "-" (by decide +kernel) (by decide +kernel) (List.cons_ne_nil _ _)
  refine ⟨nofun, by decide, (run_eq_error_iff .standard initial Sink.unlimited e).mpr hsource, ?_, ?_⟩
  · decide +kernel
  · decide +kernel

end Session

end Mapsto
