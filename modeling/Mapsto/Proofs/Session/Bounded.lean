import Mapsto.Proofs.Eval.Metered
import Mapsto.Proofs.Parser.Exact
import Mapsto.Proofs.Session.Sequence

/-!
# `Mapsto.Proofs.Session.Bounded` — sessions need a bounded amount of everything

A session keeps one evaluator for all of its texts. The bound on what a single program needs depends on
the functions that it finds in the environment, and these come from earlier texts; but every tree was
made by the parser, which makes none that is higher than 256 (`Program.height_le_of_ofSource`). That all
functions in the environment of a session have short bodies, and that the evaluator is idle, is
therefore an invariant of sessions, and `Session.runAll_bounded` says what follows from it for a session
that starts with nothing: 256 places for activations and 256 more for each call that may be open are
enough, for any texts in any number.
-/

namespace Mapsto

variable {σ : Type} [Writable σ]

namespace Metered

/-- Runs a source in a session. -/
def runSource (config : Config) (places : Nat) (session : Session) (source : Source) :
    Metered σ (Except FrontendError Session.Outcome × Session) :=
  match source.program with
  | .error e => pure (.error e, session)
  | .ok program => do
    let evaluation ← eval config places program session.env
    pure (.ok ⟨evaluation.value, evaluation.diagnostics⟩, ⟨evaluation.env⟩)

/-- Runs sources one after the other, with one evaluator. -/
def runAll (config : Config) (places : Nat) :
    List Source → Session → Metered σ (List (Except FrontendError Session.Outcome) × Session)
  | [], session => pure ([], session)
  | source :: rest, session => do
    let (result, session) ← runSource config places session source
    let (results, session) ← runAll config places rest session
    pure (result :: results, session)

end Metered

/-- The trees of a program that passes the front end are not higher than the parser allows. -/
theorem Program.height_le_of_ofSource {disk : Disk} {source origin : String} {p : Program}
    (h : Program.ofSource disk source origin = .ok p) : ∀ e ∈ p, e.height ≤ 256 := by
  unfold Program.ofSource at h
  split at h
  · cases h
  split at h
  · cases h
  split at h
  · cases h
  rename_i hparse
  obtain rfl := Except.ok.inj h
  exact (Parser.parse_eq_ok_iff_derives.mp hparse).2

/-- All functions in the environment of a session, and in the values that it came to, have short bodies. -/
structure Session.Short (session : Session) (results : List (Except FrontendError Outcome)) : Prop where
  env : session.env.Everywhere Value.ShortBody
  value : ∀ outcome, Except.ok outcome ∈ results → outcome.value.Everywhere Value.ShortBody

/-- **Step lemma.** A source leaves the evaluator idle and the functions of the session short. -/
theorem Metered.runSource_eq_run {config : Config} {session : Session} {ev : Evaluator σ}
    (hev : ev.Idle config) (henv : session.env.Everywhere Value.ShortBody) (source : Source) :
    let ran := session.run config source.disk ev.effects.sink source.text source.origin
    ∃ ev', runSource config (placesFor config) session source ev = some ((ran.1, ran.2.1), ev') ∧
      ev'.effects.sink = ran.2.2 ∧ ev'.Idle config ∧ ran.2.1.Short [ran.1] := by
  intro ran
  cases hprogram : source.program with
  | error e =>
      have hran : ran = (.error e, session, ev.effects.sink) := Session.run_of_error config hprogram session _
      rw [hran]
      refine ⟨ev, ?_, rfl, hev, henv, nofun⟩
      unfold runSource
      rw [hprogram]
      rfl
  | ok p =>
      have hheights := Program.height_le_of_ofSource hprogram
      have hran : ran = _ := Session.run_of_ofSource config hprogram session ev.effects.sink
      obtain ⟨ev', heval, hsink, hev'⟩ := eval_eq_run hev hheights henv
      obtain ⟨henv', hvalue⟩ := hereditary_shortBody.run config ev.effects.sink henv hheights
      rw [hran]
      refine ⟨ev', ?_, hsink, hev', henv', ?_⟩
      · unfold runSource
        rw [hprogram]
        exact bind_apply heval _
      · intro outcome houtcome
        obtain rfl := Except.ok.inj (List.mem_singleton.mp houtcome)
        exact hvalue

/-- **Run lemma.** So do any number of sources. -/
theorem Metered.runAll_eq_runAll {config : Config} {session : Session} {ev : Evaluator σ}
    (hev : ev.Idle config) (henv : session.env.Everywhere Value.ShortBody) (sources : List Source) :
    let ran := session.runAll config sources ev.effects.sink
    ∃ ev', runAll config (placesFor config) sources session ev = some ((ran.1, ran.2.1), ev') ∧
      ev'.effects.sink = ran.2.2 ∧ ev'.Idle config ∧ ran.2.1.Short ran.1 := by
  intro ran
  induction sources generalizing session ev with
  | nil => exact ⟨ev, rfl, rfl, hev, henv, nofun⟩
  | cons source rest ih =>
      obtain ⟨ev₁, hrun, hsink, hev₁, hshort₁⟩ := runSource_eq_run hev henv source
      obtain ⟨ev₂, hrun₂, hsink₂, hev₂, hshort₂⟩ := ih hev₁ hshort₁.env
      rw [hsink] at hrun₂ hsink₂ hshort₂
      refine ⟨ev₂, ?_, hsink₂, hev₂, hshort₂.env, ?_⟩
      · rw [runAll, bind_apply hrun]
        exact bind_apply hrun₂ _
      · intro outcome houtcome
        obtain hfirst | hrest := List.mem_cons.mp houtcome
        · exact hshort₁.value outcome (List.mem_singleton.mpr hfirst)
        · exact hshort₂.value outcome hrest

/-- **Bounds.** Take a session that starts with nothing, any bound on nested calls and any texts. An
evaluator with places for `256 * (maxCallDepth + 1)` nested activations runs all texts to the end, with
the outcomes, the session and the output that they have. Not more calls were open at any time than may
be, every activation ended with as many open calls as it began with, and all functions in its value have
bodies of height 255 at most; so have those in the environment and in the outcomes. When it is done, no
call is open and no diagnostic is held back; and since the texts are any, that is so after each of
them. -/
theorem Session.runAll_bounded (config : Config) (sources : List Source) (sink : σ) :
    let ran := Session.initial.runAll config sources sink
    ∃ ev : Evaluator σ,
      Metered.runAll config (256 * (config.maxCallDepth + 1)) sources .initial (.fresh sink) =
          some ((ran.1, ran.2.1), ev) ∧
        ev.effects.sink = ran.2.2 ∧
        ev.peak ≤ config.maxCallDepth ∧
        (∀ a ∈ ev.ended, a.left = a.entered ∧ a.value.Everywhere Value.ShortBody) ∧
        ran.2.1.env.Everywhere Value.ShortBody ∧
        (∀ outcome, .ok outcome ∈ ran.1 → outcome.value.Everywhere Value.ShortBody) ∧
        ev.depth = 0 ∧ ev.effects.diagnostics = #[] := by
  intro ran
  have hfresh : (Evaluator.fresh sink).Idle config :=
    { peak_le := Nat.zero_le _, ended := nofun, depth_eq := rfl, diagnostics_eq := rfl }
  obtain ⟨ev, hrun, hsink, hev, hshort⟩ :=
    Metered.runAll_eq_runAll hfresh Environment.everywhere_empty sources
  exact ⟨ev, hrun, hsink, hev.peak_le, hev.ended, hshort.env, hshort.value, hev.depth_eq,
    hev.diagnostics_eq⟩

end Mapsto
