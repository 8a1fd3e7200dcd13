import Mapsto.Launch
import Mapsto.Proofs.Eval.Additions
import Mapsto.Proofs.Session.Lines
import Mapsto.Proofs.Text.Bytes

/-!
# `Mapsto.Proofs.Launch.Piped` — a text as a file and as an input

A text without instructions can be run as a file, or line by line as the input of an interactive session.
If it runs as a file, it runs as an input too, with the same reports; and the output is that of the file,
cut at the ends of lines, with the value of each line behind what the line prints (`Launch.run_piped`).

The two do the same work in different portions: the file is one program, and runs behind itself in one go;
the input is a program for every line, and each runs on its own. So the proof takes the file apart. Its
program is made up of those of its lines (`Program.ofSource_eq_ok_iff_lines`), its run is made up of
portions (`Eval.portions_eq_statements`), and a line of input does what its portion says
(`Interactive.step_eq`), also one that is blank and is not run at all.
-/

namespace Mapsto

open Effects Text

/-! ## Bytes one behind the other -/

/-- Bytes one behind the other. -/
def joined : List ByteArray → ByteArray
  | [] => .empty
  | bytes :: rest => bytes ++ joined rest

theorem joined_append (first second : List ByteArray) :
    joined (first ++ second) = joined first ++ joined second := by
  induction first with
  | nil => simp [joined]
  | cons bytes first ih => simp [joined, ih, ByteArray.append_assoc]

namespace Report

/-- The bytes of the reports on what went wrong while a program ran. -/
def bytes (ds : List Diagnostic) : ByteArray := joined ((diagnostics ds).map String.toUTF8)

theorem bytes_append (ds es : List Diagnostic) : bytes (ds ++ es) = bytes ds ++ bytes es := by
  simp [bytes, diagnostics, joined_append]

theorem writeLines_eq {sink : Sink} (h : sink.TakesAll) (texts : List String) :
    writeLines sink texts = (.ok (), sink.wrote (joined (texts.map String.toUTF8))) := by
  induction texts generalizing sink with
  | nil => simp [writeLines, joined]
  | cons text rest ih =>
      simp only [writeLines, Sink.writable_write, h.write_eq, ih (h.wrote text.toUTF8), Sink.wrote_wrote,
        List.map_cons, joined]

end Report

namespace Eval

/-- What an interactive session writes for a portion: what is printed, and then the value, unless it is
absent. -/
def Portion.shown (portion : Portion) : ByteArray :=
  portion.printed ++
    if portion.value.isAbsent then .empty else (portion.value.text ++ "\n").toUTF8

/-- What is written in portions is written in all. -/
theorem written_portions (config : Config) (programs : List Program) (env : Environment) :
    let cut := portions config programs env nothing
    cut.2.sink.written = joined (cut.1.1.map Portion.printed) := by
  induction programs generalizing env with
  | nil => rfl
  | cons p rest ih =>
      rw [portions_cons_nothing]
      simp only [followedBy, Sink.wrote, List.map_cons, joined]
      rw [ih]

end Eval

/-! ## A program in a session -/

/-- To a sink that takes everything a source writes what its program writes on its own. -/
theorem Session.run_of_takesAll (config : Config) {disk : Disk} {text origin : String} {p : Program}
    (h : Program.ofSource disk text origin = .ok p) (session : Session) {sink : Sink} (hsink : sink.TakesAll) :
    let alone := Eval.statements config p session.env .absent nothing
    session.run config disk sink text origin =
      (.ok ⟨alone.1.2, alone.2.diagnostics.toList⟩, ⟨alone.1.1⟩, sink.wrote alone.2.sink.written) := by
  intro alone
  rw [run_of_ofSource config h, Program.run_eq_wrote config p session.env hsink]

/-! ## Line by line -/

namespace Interactive

variable (config : Config) {disk : Disk}

/-- Both streams of a session take everything. -/
structure TakesAll (state : Interactive) : Prop where
  output : state.streams.output.TakesAll
  reports : state.streams.reports.TakesAll

/-- A session behind a line that is a program. -/
def behind (state : Interactive) (p : Program) : Interactive :=
  let alone := Eval.statements config p state.session.env .absent nothing
  let portion : Eval.Portion := ⟨alone.1.2, alone.2.sink.written⟩
  ⟨⟨alone.1.1⟩, ⟨state.streams.output.wrote portion.shown,
    state.streams.reports.wrote (Report.bytes alone.2.diagnostics.toList)⟩⟩

variable {config}

theorem TakesAll.behind {state : Interactive} (h : state.TakesAll) (p : Program) :
    (state.behind config p).TakesAll :=
  ⟨h.output.wrote _, h.reports.wrote _⟩

/-- Behind an empty program a session is as before. -/
theorem behind_nil (state : Interactive) : state.behind config [] = state := by
  have halone : Eval.statements config [] state.session.env .absent nothing =
      ((state.session.env, .absent), nothing) := rfl
  have hshown : (⟨.absent, nothing.sink.written⟩ : Eval.Portion).shown = .empty := rfl
  have hreports : Report.bytes nothing.diagnostics.toList = .empty := rfl
  unfold behind
  simp only [halone, hshown, hreports, Sink.wrote_empty]

theorem echo_eq (v : Value) {output : Sink} (h : output.TakesAll) :
    echo v output =
      output.wrote (if v.isAbsent then .empty else (v.text ++ "\n").toUTF8) := by
  unfold echo
  split
  · exact output.wrote_empty.symm
  · rw [h.write_eq]

theorem runLine_eq {state : Interactive} (hstate : state.TakesAll) {line : String} {p : Program}
    (h : Program.ofSource disk line origin = .ok p) :
    state.runLine config disk line = state.behind config p := by
  unfold runLine
  rw [Session.run_of_takesAll config h state.session hstate.output]
  simp only [Report.writeLines_eq hstate.reports, echo_eq _ (hstate.output.wrote _), Sink.wrote_wrote]
  rfl

/-- **Step lemma.** A line that is a program, and does not end the session, does what the program does. -/
theorem step_eq {state : Interactive} (hstate : state.TakesAll) {line : List Char} {p : Program}
    (hstays : trim line ≠ "exit".toList ∧ trim line ≠ "quit".toList)
    (h : Program.ofSource disk (String.ofList line) origin = .ok p) :
    state.step config disk (some (String.ofList line)) = .goOn (state.behind config p) := by
  have htrim : ∀ word : String, String.ofList (trim line) = word → trim line = word.toList := by
    rintro _ rfl
    exact String.toList_ofList.symm
  unfold step
  simp only [String.toList_ofList]
  split
  · rename_i hword
    exact absurd (htrim _ hword) hstays.1
  · rename_i hword
    exact absurd (htrim _ hword) hstays.2
  · -- A line of blanks is not run, and has nothing in it that could be.
    rename_i hword
    rw [Program.eq_nil_of_trim_eq_nil (htrim _ hword) h, behind_nil]
  · rw [runLine_eq hstate h]

/-- **Run lemma.** So do any number of lines, one after the other. -/
theorem run_eq {state : Interactive} (hstate : state.TakesAll) {ls : List (List Char)}
    {programs : List Program}
    (hstays : ∀ line ∈ ls, trim line ≠ "exit".toList ∧ trim line ≠ "quit".toList)
    (h : (ls.map fun line => Program.ofSource disk (String.ofList line) origin) = programs.map .ok) :
    let cut := Eval.portions config programs state.session.env nothing
    run config disk state (ls.map fun line => some (String.ofList line)) =
      (true, ⟨state.streams.output.wrote (joined (cut.1.1.map Eval.Portion.shown)),
        state.streams.reports.wrote (Report.bytes cut.2.diagnostics.toList)⟩) := by
  induction ls generalizing state programs with
  | nil =>
      rw [List.map_nil] at h
      obtain rfl := List.map_eq_nil_iff.mp h.symm
      have hcut : Eval.portions config [] state.session.env nothing = (([], state.session.env), nothing) := rfl
      have hreports : Report.bytes nothing.diagnostics.toList = .empty := rfl
      simp only [hcut, List.map_nil, joined, hreports, Sink.wrote_empty, run]
  | cons line rest ih =>
      rw [List.map_cons] at h
      obtain ⟨p, others, rfl, hline, hrest⟩ := List.map_eq_cons_iff.mp h.symm
      obtain ⟨hstay, hstays⟩ := List.forall_mem_cons.mp hstays
      rw [List.map_cons, run, step_eq hstate hstay hline.symm, Eval.portions_cons_nothing]
      simp only [ih (hstate.behind p) hstays hrest.symm]
      simp only [behind, followedBy, Sink.wrote_wrote, List.map_cons, joined, Array.toList_append,
        Report.bytes_append]

end Interactive

/-! ## A file -/

theorem Batch.readText_of_opened {disk : Disk} {path text : String}
    (h : disk.opened? path = some (.file text.toUTF8)) : readText disk path = .ok text := by
  simp only [readText, h, fromUTF8?_toUTF8]

namespace Launch

/-- What keeps a file from running is that it does not pass the front end. -/
theorem batch_of_error (config : Config) {disk : Disk} {path text : String} {e : FrontendError}
    (hfile : disk.opened? path = some (.file text.toUTF8))
    (h : Program.ofSource disk text path = .error e) : (batch config disk path).1 = false := by
  simp only [batch, Batch.run, Batch.readText_of_opened hfile, Session.run_of_error config h]

/-- A file that is a program writes what the program writes on its own, and all of its reports. -/
theorem batch_of_ofSource (config : Config) {disk : Disk} {path text : String} {p : Program}
    (hfile : disk.opened? path = some (.file text.toUTF8)) (h : Program.ofSource disk text path = .ok p) :
    let alone := Eval.statements config p .empty .absent nothing
    batch config disk path =
      (true, ⟨Sink.unlimited.wrote alone.2.sink.written,
        Sink.unlimited.wrote (Report.bytes alone.2.diagnostics.toList)⟩) := by
  intro alone
  have hrun := Session.run_of_takesAll config h .initial Sink.takesAll_unlimited
  simp only [batch, Batch.run, Batch.readText_of_opened hfile, Streams.unlimited, hrun,
    Report.writeLines_eq Sink.takesAll_unlimited]
  rfl

/-! ## Both -/

theorem run_of_file {disk : Disk} {arguments : List String} {input : List (Option String)} {depth : Nat}
    {path : String} (h : CommandLine.parse arguments = .ok (.run ⟨depth, some path⟩)) :
    run disk arguments input = batch ⟨Builtin.all, depth⟩ disk path := by
  unfold run
  rw [h]
  rfl

theorem run_of_no_file {disk : Disk} {arguments : List String} {input : List (Option String)} {depth : Nat}
    (h : CommandLine.parse arguments = .ok (.run ⟨depth, none⟩)) :
    run disk arguments input = Interactive.run ⟨Builtin.all, depth⟩ disk .initial input := by
  unfold run
  rw [h]
  rfl

/-- **A text as a file and as an input.** Take a text in which no line is an instruction or ends a session,
and the same bound on nested calls for both runs. If it runs as a file, then every line of it is a program,
and the text is the program that they make up. The run of the file can be cut at the ends of lines, and the
output is what the portions print. As an input the text runs to the end too, with the same reports; and
the output is the banner, and then for every line what its portion prints and its value, unless that is
absent. -/
theorem run_piped {disk : Disk} (disk' : Disk) {arguments arguments' : List String}
    {input : List (Option String)} {depth : Nat} {path text : String}
    (hfile : CommandLine.parse arguments = .ok (.run ⟨depth, some path⟩))
    (hinput : CommandLine.parse arguments' = .ok (.run ⟨depth, none⟩))
    (hopened : disk.opened? path = some (.file text.toUTF8)) (hplain : Plain text)
    (hstays : ∀ line ∈ lines text.toList, trim line ≠ "exit".toList ∧ trim line ≠ "quit".toList)
    (hsucceeds : (run disk arguments input).1 = true) :
    let config : Config := ⟨Builtin.all, depth⟩
    let batch := (run disk arguments input).2
    let piped := run disk' arguments' (Interactive.inputLines text.toUTF8)
    ∃ programs : List Program,
      let cut := Eval.portions config programs .empty nothing
      let whole := Eval.statements config programs.flatten .empty .absent nothing
      ((lines text.toList).map fun line => Program.ofSource disk (String.ofList line) path) =
          programs.map .ok ∧
        Program.ofSource disk text path = .ok programs.flatten ∧
        cut.1.2 = whole.1.1 ∧ cut.2 = whole.2 ∧
        batch.output.written = joined (cut.1.1.map Eval.Portion.printed) ∧
        piped.1 = true ∧
        piped.2.reports = batch.reports ∧
        piped.2.output.written =
          Interactive.banner.toUTF8 ++ joined (cut.1.1.map Eval.Portion.shown) := by
  intro config batch piped
  have hrun : run disk arguments input = Launch.batch config disk path := run_of_file hfile
  rw [hrun] at hsucceeds
  cases h : Program.ofSource disk text path with
  | error e =>
      rw [batch_of_error config hopened h] at hsucceeds
      cases hsucceeds
  | ok p =>
      obtain ⟨programs, hprograms, rfl⟩ := (Program.ofSource_eq_ok_iff_lines hplain).mp h
      have hlines : ((lines text.toList).map fun line =>
          Program.ofSource disk' (String.ofList line) Interactive.origin) = programs.map .ok :=
        Program.ofSource_lines_congr hplain hprograms
      have hinitial : Interactive.initial.TakesAll :=
        ⟨Sink.takesAll_unlimited.wrote _, Sink.takesAll_unlimited⟩
      have hlineByLine : Interactive.run config disk' .initial _ = _ :=
        Interactive.run_eq hinitial hstays hlines
      have hpiped : piped = _ := (run_of_no_file hinput).trans
        ((congrArg (Interactive.run config disk' .initial) (Interactive.inputLines_toUTF8 text)).trans hlineByLine)
      have hbatch : batch = _ := congrArg Prod.snd (hrun.trans (batch_of_ofSource config hopened h))
      obtain ⟨henv, heffects⟩ := Eval.portions_eq_statements config programs .empty .absent nothing
      refine ⟨programs, hprograms, rfl, henv, heffects, ?_⟩
      rw [hpiped, hbatch]
      refine ⟨?_, rfl, ?_, ?_⟩
      · rw [← Eval.written_portions, heffects]
        exact ByteArray.empty_append
      · rw [← heffects]
        rfl
      · have hbanner : Interactive.initial.streams.output.written = Interactive.banner.toUTF8 :=
          ByteArray.empty_append
        rw [← hbanner]
        rfl

/-- A binding, a line with nothing on it, a call that prints, and a sum on a line without an end. -/
theorem run_piped_binding_then_use :
    let text := "x := 2\n\nprint(x)\nx + 40"
    let disk : Disk := ⟨some, [("a", .file text.toUTF8)]⟩
    let arguments := ["--max-call-depth", "8", "a"]
    let arguments' := ["--max-call-depth=8"]
    let batch := (run disk arguments []).2
    let piped := run disk arguments' (Interactive.inputLines text.toUTF8)
    CommandLine.parse arguments = .ok (.run ⟨8, some "a"⟩) ∧
      CommandLine.parse arguments' = .ok (.run ⟨8, none⟩) ∧
      disk.opened? "a" = some (.file text.toUTF8) ∧ Plain text ∧
      (∀ line ∈ lines text.toList, trim line ≠ "exit".toList ∧ trim line ≠ "quit".toList) ∧
      (run disk arguments []).1 = true ∧
      ∃ portions : List Eval.Portion, portions.length = 4 ∧
        batch.output.written = joined (portions.map Eval.Portion.printed) ∧
        piped.1 = true ∧ piped.2.reports = batch.reports ∧
        piped.2.output.written = Interactive.banner.toUTF8 ++ joined (portions.map Eval.Portion.shown) := by
  intro text disk arguments arguments' batch piped
  have hfile : CommandLine.parse arguments = .ok (.run ⟨8, some "a"⟩) := rfl
  have hinput : CommandLine.parse arguments' = .ok (.run ⟨8, none⟩) := rfl
  have hopened : disk.opened? "a" = some (.file text.toUTF8) := rfl
  have hplain : Plain text := by decide
  have hstays : ∀ line ∈ lines text.toList, trim line ≠ "exit".toList ∧ trim line ≠ "quit".toList := by decide
  have hlexed : (Lexed.ofString text).errors = [] ∧ (Lexed.ofString text).tokens =
      [⟨.identifier "x", ⟨0, 1⟩⟩, ⟨.binding, ⟨2, 4⟩⟩, ⟨.number "2", ⟨5, 6⟩⟩, ⟨.endLine, ⟨6, 7⟩⟩,
        ⟨.endLine, ⟨7, 8⟩⟩, ⟨.identifier "print", ⟨8, 13⟩⟩, ⟨.leftParen, ⟨13, 14⟩⟩,
        ⟨.identifier "x", ⟨14, 15⟩⟩, ⟨.rightParen, ⟨15, 16⟩⟩, ⟨.endLine, ⟨16, 17⟩⟩,
        ⟨.identifier "x", ⟨17, 18⟩⟩, ⟨.plus, ⟨19, 20⟩⟩, ⟨.number "40", ⟨21, 23⟩⟩] := by
    decide +kernel
  have hprogram : Program.ofSource disk text "a" = .ok [.binding "x" (.integer 2),
      .call (.var "print") (.var "x"), .binary .add (.var "x") (.integer 40)] := by
    rw [Program.ofSource_eq_ok_iff disk "a" hplain, hlexed.2]
    exact ⟨hlexed.1, rfl⟩
  have hsucceeds : (run disk arguments []).1 = true := by
    rw [run_of_file hfile, batch_of_ofSource _ hopened hprogram]
  obtain ⟨programs, hprograms, -, -, -, hbatch, hends, hreports, houtput⟩ :=
    run_piped disk hfile hinput hopened hplain hstays hsucceeds
  have hlength : programs.length = (lines text.toList).length := by
    rw [← List.length_map (f := Except.ok), ← hprograms, List.length_map]
  refine ⟨hfile, hinput, hopened, hplain, hstays, hsucceeds, _, ?_, hbatch, hends, hreports, houtput⟩
  rw [Eval.length_portions, hlength]
  decide

end Launch

end Mapsto
