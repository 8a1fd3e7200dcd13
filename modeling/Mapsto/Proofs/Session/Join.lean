import Mapsto.Proofs.Eval.Lockstep
import Mapsto.Proofs.Expansion.Plain
import Mapsto.Proofs.Grammar.Lines
import Mapsto.Proofs.Lexer.Lines
import Mapsto.Proofs.Session.Sequence

/-!
# `Mapsto.Proofs.Session.Join` — a text in one go, or in two parts

Two texts without instructions can be run one after the other, or put one under the other and run
together, and the session cannot tell (`Session.run_append_newline`). Every stage contributes its part:

* expansion leaves the texts as they are, and the joined text too (`expand_plain`,
  `Plain.append_newline`);
* the joined text has the tokens of both, with an end of line between them
  (`Lexed.ofString_append_newline`);
* it is accepted exactly if both are, with the one program behind the other (`parse_endLine_eq_ok_iff`);
* running a program behind another goes on where the first one ended (`Program.run_append`). A run of
  its own starts with no diagnostics, and that makes no difference to what it does.
-/

namespace Mapsto

open Run

/-! ## Programs one behind the other -/

/-- The second effects are the first ones without the diagnostics `older`, and flushing does not fail. -/
def Effects.Behind (older : List Diagnostic) (s s' : Effects Sink) : Prop :=
  s.sink = s'.sink ∧ s.sink.flushFails = false ∧ s.diagnostics.toList = older ++ s'.diagnostics.toList

/-- Nothing that is written to a sink changes whether flushing fails. -/
theorem Builtin.flushFails_apply (b : Builtin) (arguments : List Value) (sink : Sink) :
    (b.apply arguments sink).2.flushFails = sink.flushFails := by
  by_cases hprint : ∃ v, b = .print ∧ arguments = [v]
  · obtain ⟨v, rfl, rfl⟩ := hprint
    simp only [apply, printLine, Sink.writable_write, Sink.write]
    split <;> rfl
  · rw [apply_of_not_print hprint sink]

theorem Effects.oblivious_behind (older : List Diagnostic) : Oblivious (Effects.Behind older) where
  report d := by
    rintro s s' ⟨hsink, hflush, hdiagnostics⟩
    refine ⟨rfl, hsink, hflush, ?_⟩
    simp only [Eval.report, Array.toList_push, hdiagnostics, List.append_assoc]
  callBuiltin b arguments := by
    rintro s s' ⟨hsink, hflush, hdiagnostics⟩
    have hkeep := b.flushFails_apply arguments s'.sink
    unfold Eval.callBuiltin
    rw [hsink]
    rw [hsink] at hflush
    generalize b.apply arguments s'.sink = applied at hkeep
    obtain ⟨result, sink⟩ := applied
    have hflush' : sink.flushFails = false := hkeep.trans hflush
    cases result with
    | ok v => exact ⟨rfl, rfl, hflush', hdiagnostics⟩
    | error d =>
        refine ⟨rfl, rfl, hflush', ?_⟩
        simp only [Array.toList_push, hdiagnostics, List.append_assoc]

namespace Eval

/-- Where flushing works, nothing comes of it. -/
theorem flush_eq {s : Effects Sink} (h : s.sink.flushFails = false) : flush s = ((), s) := by
  simp only [flush, Sink.writable_flush, Sink.flush]
  rw [if_neg (by rw [h]; nofun)]

variable {σ : Type} [Writable σ]

/-- The value that is given to the statements of a program is the result only if there are none. -/
theorem statements_of_ne_nil (config : Config) {p : Program} (hp : p ≠ []) (env : Environment)
    (v v' : Value) :
    (statements config p env v : Run σ _) = statements config p env v' := by
  cases p with
  | nil => exact absurd rfl hp
  | cons e rest => rfl

end Eval

namespace Program

/-- Where flushing works, a run is what its statements do. -/
theorem run_eq_statements (config : Config) (p : Program) (env : Environment) {sink : Sink}
    (hflush : sink.flushFails = false) :
    let r := Eval.statements config p env .absent ⟨sink, #[]⟩
    p.run config env sink = (⟨r.1.2, r.1.1, r.2.diagnostics.toList⟩, r.2.sink) ∧
      r.2.sink.flushFails = false := by
  intro r
  obtain ⟨-, -, hkeep, -⟩ := (Effects.oblivious_behind []).statements config p env .absent
    ⟨sink, #[]⟩ ⟨sink, #[]⟩ ⟨rfl, hflush, rfl⟩
  refine ⟨?_, hkeep⟩
  show ((⟨r.1.2, r.1.1, (Eval.flush r.2).2.diagnostics.toList⟩ : Evaluation), (Eval.flush r.2).2.sink) = _
  rw [Eval.flush_eq hkeep]

/-- **One program behind another.** The second one starts in the environment, and with the output, that
the first one left; its diagnostics come behind those of the first, and so does its value, unless it is
empty. -/
theorem run_append (config : Config) (p q : Program) (env : Environment) {sink : Sink}
    (hflush : sink.flushFails = false) :
    let first := p.run config env sink
    let second := q.run config first.1.env first.2
    (p ++ q).run config env sink =
      (⟨if q = [] then first.1.value else second.1.value, second.1.env,
        first.1.diagnostics ++ second.1.diagnostics⟩, second.2) := by
  intro first second
  obtain ⟨hrun, -⟩ := run_eq_statements config (p ++ q) env hflush
  obtain ⟨hfirst, hflush'⟩ := run_eq_statements config p env hflush
  rw [Eval.statements_append, bind_apply] at hrun
  generalize Eval.statements config p env .absent ⟨sink, #[]⟩ = r at hrun hfirst hflush'
  obtain ⟨⟨env', v⟩, effects⟩ := r
  have hgoesOn : second = q.run config env' effects.sink := by
    simp only [second, first, hfirst]
  obtain ⟨hsecond, -⟩ := run_eq_statements config q env' hflush'
  -- The second program runs behind diagnostics here, and without any on its own.
  have hbehind := (Effects.oblivious_behind effects.diagnostics.toList).statements config q env' .absent
  obtain ⟨hresult, hsink, -, hdiagnostics⟩ :=
    hbehind effects ⟨effects.sink, #[]⟩ ⟨rfl, hflush', (List.append_nil _).symm⟩
  rw [hrun, hgoesOn, hsecond, show first = _ from hfirst]
  by_cases hq : q = []
  · subst hq
    exact congrArg (fun ds => ((⟨v, env', ds⟩ : Evaluation), effects.sink)) (List.append_nil _).symm
  · rw [Eval.statements_of_ne_nil config hq env' v .absent, if_neg hq, hresult, hsink, hdiagnostics]

end Program

/-! ## Texts one under the other -/

/-- The program of a text without instructions is that of its tokens, if it has no lexical mistakes. -/
theorem Program.ofSource_eq_ok_iff (disk : Disk) {source : String} (origin : String) (h : Plain source)
    {p : Program} :
    Program.ofSource disk source origin = .ok p ↔
      (Lexed.ofString source).errors = [] ∧ Program.parse (Lexed.ofString source).tokens = .ok p := by
  unfold Program.ofSource
  rw [expand_plain disk origin h]
  simp only [Lexed.result]
  by_cases herrors : (Lexed.ofString source).errors = []
  · simp only [herrors, List.isEmpty_nil, if_true, true_and]
    cases Program.parse (Lexed.ofString source).tokens with
    | ok q => simp
    | error e => simp
  · simp [herrors]

/-- **The front end** accepts two texts one under the other exactly if it accepts each of them, wherever
they come from. -/
theorem Program.ofSource_append_newline (disk : Disk) {a b : String} (origin originA originB : String)
    (ha : Plain a) (hb : Plain b) {p : Program} :
    Program.ofSource disk (a ++ "\n" ++ b) origin = .ok p ↔
      ∃ above below, Program.ofSource disk a originA = .ok above ∧
        Program.ofSource disk b originB = .ok below ∧ p = above ++ below := by
  obtain ⟨htokens, errors, houtline, herrors⟩ := Lexed.ofString_append_newline a b
  have hnone : (Lexed.ofString (a ++ "\n" ++ b)).errors = [] ↔
      (Lexed.ofString a).errors = [] ∧ (Lexed.ofString b).errors = [] := by
    have hfirst : errors = [] ↔ (Lexed.ofString a).errors = [] := by
      rw [← List.map_eq_nil_iff, houtline, List.map_eq_nil_iff]
    rw [herrors, List.append_eq_nil_iff, List.map_eq_nil_iff, hfirst]
  have hmoved : ∀ n, Grammar.values ((Lexed.ofString b).tokens.map (Spanned.moved n)) =
      Grammar.values (Lexed.ofString b).tokens := by
    intro n
    unfold Grammar.values
    rw [List.map_map]
    rfl
  simp only [Program.ofSource_eq_ok_iff disk origin (ha.append_newline hb),
    Program.ofSource_eq_ok_iff disk originA ha, Program.ofSource_eq_ok_iff disk originB hb]
  rw [hnone, htokens, Parser.parse_endLine_eq_ok_iff]
  simp only [Parser.parse_congr_values (hmoved _)]
  constructor
  · rintro ⟨⟨hea, heb⟩, above, below, habove, hbelow, rfl⟩
    exact ⟨above, below, ⟨hea, habove⟩, ⟨heb, hbelow⟩, rfl⟩
  · rintro ⟨above, below, ⟨hea, habove⟩, ⟨heb, hbelow⟩, rfl⟩
    exact ⟨⟨hea, heb⟩, above, below, habove, hbelow, rfl⟩

namespace Session

/-- **In one go or in two parts.** Two texts without instructions pass the front end one under the other
exactly if each of them does. Then running them together leaves the same session and the same output as
running them one after the other, and reports the diagnostics of both; the value is that of the second
text, if there is an expression in it, and that of the first otherwise. -/
theorem run_append_newline (config : Config) (disk : Disk) (session : Session) (sink : Sink)
    (a b origin originA originB : String) (ha : Plain a) (hb : Plain b) (hflush : sink.flush = .ok ()) :
    ((∃ p, Program.ofSource disk (a ++ "\n" ++ b) origin = .ok p) ↔
      (∃ p, Program.ofSource disk a originA = .ok p) ∧ ∃ p, Program.ofSource disk b originB = .ok p) ∧
    ∀ above below, Program.ofSource disk a originA = .ok above →
      Program.ofSource disk b originB = .ok below →
      ∃ outcomeA sessionA sinkA outcomeB sessionB sinkB,
        session.run config disk sink a originA = (.ok outcomeA, sessionA, sinkA) ∧
        sessionA.run config disk sinkA b originB = (.ok outcomeB, sessionB, sinkB) ∧
        session.run config disk sink (a ++ "\n" ++ b) origin =
          (.ok ⟨if below = [] then outcomeA.value else outcomeB.value,
              outcomeA.diagnostics ++ outcomeB.diagnostics⟩, sessionB, sinkB) := by
  constructor
  · simp only [Program.ofSource_append_newline disk origin originA originB ha hb]
    constructor
    · rintro ⟨_, above, below, habove, hbelow, -⟩
      exact ⟨⟨above, habove⟩, below, hbelow⟩
    · rintro ⟨⟨above, habove⟩, below, hbelow⟩
      exact ⟨above ++ below, above, below, habove, hbelow, rfl⟩
  · intro above below habove hbelow
    have hjoined : Program.ofSource disk (a ++ "\n" ++ b) origin = .ok (above ++ below) :=
      (Program.ofSource_append_newline disk origin originA originB ha hb).mpr ⟨above, below, habove, hbelow, rfl⟩
    have hworks : sink.flushFails = false := by
      unfold Sink.flush at hflush
      by_cases hfails : sink.flushFails = true
      · rw [if_pos hfails] at hflush
        cases hflush
      · exact Bool.eq_false_iff.mpr hfails
    have happend := Program.run_append config above below session.env hworks
    refine ⟨_, _, _, _, _, _, run_of_ofSource config habove session sink,
      run_of_ofSource config hbelow _ _, ?_⟩
    rw [run_of_ofSource config hjoined, happend]

/-- A binding with a comment behind it, and a use of it on the next line. -/
theorem run_binding_then_use :
    let disk : Disk := ⟨fun _ => none, []⟩
    Plain "x := 2 # two" ∧ Plain "x + 40" ∧ Sink.unlimited.flush = .ok () ∧
      ∃ outcomeA sessionA sinkA outcomeB sessionB sinkB,
        initial.run .standard disk Sink.unlimited "x := 2 # two" "-" = (.ok outcomeA, sessionA, sinkA) ∧
        sessionA.run .standard disk sinkA "x + 40" "-" = (.ok outcomeB, sessionB, sinkB) ∧
        initial.run .standard disk Sink.unlimited ("x := 2 # two" ++ "\n" ++ "x + 40") "-" =
          (.ok ⟨outcomeB.value, outcomeA.diagnostics ++ outcomeB.diagnostics⟩, sessionB, sinkB) := by
  intro disk
  have ha : Plain "x := 2 # two" := by decide
  have hb : Plain "x + 40" := by decide
  have hlexA : (Lexed.ofString "x := 2 # two").errors = [] ∧ (Lexed.ofString "x := 2 # two").tokens =
      [⟨.identifier "x", ⟨0, 1⟩⟩, ⟨.binding, ⟨2, 4⟩⟩, ⟨.number "2", ⟨5, 6⟩⟩] := by decide +kernel
  have hlexB : (Lexed.ofString "x + 40").errors = [] ∧ (Lexed.ofString "x + 40").tokens =
      [⟨.identifier "x", ⟨0, 1⟩⟩, ⟨.plus, ⟨2, 3⟩⟩, ⟨.number "40", ⟨4, 6⟩⟩] := by decide +kernel
  have habove : Program.ofSource disk "x := 2 # two" "-" = .ok [.binding "x" (.integer 2)] := by
    rw [Program.ofSource_eq_ok_iff disk "-" ha, hlexA.2]
    exact ⟨hlexA.1, rfl⟩
  have hbelow : Program.ofSource disk "x + 40" "-" = .ok [.binary .add (.var "x") (.integer 40)] := by
    rw [Program.ofSource_eq_ok_iff disk "-" hb, hlexB.2]
    exact ⟨hlexB.1, rfl⟩
  refine ⟨ha, hb, rfl, ?_⟩
  exact (run_append_newline .standard disk initial .unlimited "x := 2 # two" "x + 40" "-" "-" "-" ha hb rfl).2
    _ _ habove hbelow

end Session

end Mapsto
