import Mapsto.Session

/-!
# `Mapsto.Proofs.Session.Sequence` — sessions of many texts

`Session.runAll` runs any number of texts in one session. A text that does not pass the front end is
skipped (`run_of_error`); one that does is a program that runs in the environment of the session
(`run_of_ofSource`). Some texts and then others are run as the others after the first (`runAll_append`).
-/

namespace Mapsto

/-- A source text, where it was read from, and what was on the disk then. -/
structure Source where
  disk : Disk
  text : String
  origin : String

/-- The program that a source stands for. -/
def Source.program (source : Source) : Except FrontendError Program :=
  Program.ofSource source.disk source.text source.origin

namespace Session

variable {σ : Type} [Writable σ]

/-- Runs sources one after the other: what each comes to, and what is left of session and sink. -/
def runAll (config : Config) :
    List Source → Session → σ → List (Except FrontendError Outcome) × Session × σ
  | [], session, sink => ([], session, sink)
  | source :: rest, session, sink =>
    let (result, session, sink) := session.run config source.disk sink source.text source.origin
    let (results, session, sink) := runAll config rest session sink
    (result :: results, session, sink)

theorem runAll_append (config : Config) (first second : List Source) (session : Session) (sink : σ) :
    session.runAll config (first ++ second) sink =
      let ran := session.runAll config first sink
      let ran' := ran.2.1.runAll config second ran.2.2
      (ran.1 ++ ran'.1, ran'.2) := by
  induction first generalizing session sink with
  | nil => rfl
  | cons source rest ih =>
      simp only [List.cons_append, runAll, ih]

variable (config : Config) {disk : Disk} {text origin : String}

theorem run_of_error {e : FrontendError} (h : Program.ofSource disk text origin = .error e)
    (session : Session) (sink : σ) :
    session.run config disk sink text origin = (.error e, session, sink) := by
  unfold run
  rw [h]

theorem run_of_ofSource {p : Program} (h : Program.ofSource disk text origin = .ok p) (session : Session)
    (sink : σ) :
    session.run config disk sink text origin =
      let ran := p.run config session.env sink
      (.ok ⟨ran.1.value, ran.1.diagnostics⟩, ⟨ran.1.env⟩, ran.2) := by
  unfold run
  rw [h]

end Session

end Mapsto
