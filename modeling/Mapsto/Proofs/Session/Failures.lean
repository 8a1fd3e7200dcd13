import Mapsto.Proofs.Expansion.Loop
import Mapsto.Proofs.Session.Bounded

/-!
# `Mapsto.Proofs.Session.Failures` — a text that does not run leaves no trace

Between two texts a session keeps more than its environment: expansion has its list of visited files, and
the evaluator its sink, its counters and the diagnostics that were not handed out. An `Engine` has all of
that in view. A text can fail in three places, and when it does so behind expansion, the list of visited
files is not what it was before.

**Nothing of it shows.** Expansion forgets its list before it looks at a text, so what the front end makes
of a text depends on the text alone (`frontend_eq`), and a text that fails leaves everything but that list
as it was (`run_cases`). Two engines that differ in nothing else go on in the same way, so texts that
fail can be left out of a history (`history_filter`). From a fresh start an engine does what `Session.run`
does (`history_eq_runAll`), and both together are `Session.failures_invisible`.
-/

namespace Mapsto

open Expansion

/-- Whether a source passes the front end. -/
def Source.passes (source : Source) : Bool := source.program.isOk

/-- Everything that is kept from one source to the next. -/
structure Engine (σ : Type) where
  /-- The files that the last expansion visited. -/
  visited : List String
  evaluator : Evaluator σ
  session : Session

/-- What can be seen of a run: what the source came to, and what session and sink were before and after. -/
structure Record (σ : Type) where
  source : Source
  result : Except FrontendError Session.Outcome
  before : Session × σ
  after : Session × σ

variable {σ : Type}

/-- Whether the source ran. -/
def Record.succeeded (record : Record σ) : Bool := record.result.isOk

/-- What a record says is what a session does. -/
def Record.Faithful [Writable σ] (config : Config) (record : Record σ) : Prop :=
  record.before.1.run config record.source.disk record.before.2 record.source.text record.source.origin =
    (record.result, record.after)

namespace Engine

/-- An engine that has done nothing. -/
def fresh (sink : σ) : Engine σ := ⟨[], .fresh sink, .initial⟩

/-- The session and the sink. -/
def visible (engine : Engine σ) : Session × σ := (engine.session, engine.evaluator.effects.sink)

/-- An engine that any source may be run on. -/
structure Ready (config : Config) (engine : Engine σ) : Prop where
  evaluator : engine.evaluator.Idle config
  env : engine.session.env.Everywhere Value.ShortBody

theorem ready_fresh (config : Config) (sink : σ) : (fresh sink).Ready config where
  evaluator := { peak_le := Nat.zero_le _, ended := nofun, depth_eq := rfl, diagnostics_eq := rfl }
  env := Environment.everywhere_empty

/-- Expands a source. What was visited before is forgotten first; what is visited now is kept, whether or
not the source can be expanded. -/
def expandPass (source : Source) : StateT (List String) Option (Except ExpansionError String) := do
  set ([] : List String)
  let spliced ← get
  let home := source.disk.canonical? source.origin
  let start := { Loop.start source.text source.origin with spliced := spliced }
  let status := start.run source.disk home (Loop.roundsFor source.disk source.text)
  set (status.loop.spliced ++ home.toList)
  let texts ← liftM status.result?
  pure (texts.map fun texts => String.ofList texts.flatten)

/-- Reads and parses a text that was expanded. -/
def parseText (text : String) : Except FrontendError Program :=
  match (Lexed.ofString text).result with
  | .error errors => .error (.lexical errors)
  | .ok tokens =>
    match Program.parse tokens with
    | .error e => .error (.parse e)
    | .ok program => .ok program

/-- The program that a source stands for. -/
def frontend (source : Source) : StateT (List String) Option (Except FrontendError Program) := do
  match ← expandPass source with
  | .error e => pure (.error (.expansion e))
  | .ok text => pure (parseText text)

variable [Writable σ]

/-- Runs a source. -/
def run (config : Config) (places : Nat) (source : Source) (engine : Engine σ) :
    Option (Except FrontendError Session.Outcome × Engine σ) := do
  let (program, visited) ← frontend source engine.visited
  match program with
  | .error e => pure (.error e, { engine with visited := visited })
  | .ok program =>
    let (evaluation, evaluator) ← Metered.eval config places program engine.session.env engine.evaluator
    pure (.ok ⟨evaluation.value, evaluation.diagnostics⟩, ⟨visited, evaluator, ⟨evaluation.env⟩⟩)

/-- Runs sources one after the other. -/
def history (config : Config) (places : Nat) : List Source → Engine σ → Option (List (Record σ) × Engine σ)
  | [], engine => some ([], engine)
  | source :: rest, engine => do
    let (result, after) ← engine.run config places source
    let (records, last) ← history config places rest after
    pure (⟨source, result, engine.visible, after.visible⟩ :: records, last)

/-! ## The front end -/

/-- What was visited before makes no difference to expansion, and none to what is visited next. -/
theorem expandPass_eq (source : Source) :
    ∃ left, ∀ visited,
      expandPass source visited = some (expand source.disk source.text source.origin, left) := by
  let home := source.disk.canonical? source.origin
  let status :=
    (Loop.start source.text source.origin).run source.disk home (Loop.roundsFor source.disk source.text)
  have hstart := Loop.run_start source.disk source.text source.origin
  obtain ⟨texts, htexts, hexpand⟩ := Option.map_eq_some_iff.mp hstart
  refine ⟨status.loop.spliced ++ home.toList, ?_⟩
  intro visited
  have hpass : expandPass source visited =
      (status.result?.bind fun texts => some (texts, status.loop.spliced ++ home.toList)).bind fun r =>
        some (r.1.map fun texts => String.ofList texts.flatten, r.2) := rfl
  rw [hpass, show status.result? = some texts from htexts, ← hexpand]
  rfl

theorem program_eq_of_expand (source : Source) :
    source.program =
      match expand source.disk source.text source.origin with
      | .error e => .error (.expansion e)
      | .ok text => parseText text := rfl

/-- **Front end.** What a source comes to, and which files are visited on the way, does not depend on what
was visited before. -/
theorem frontend_eq (source : Source) :
    ∃ left, ∀ visited, frontend source visited = some (source.program, left) := by
  obtain ⟨left, hpass⟩ := expandPass_eq source
  refine ⟨left, ?_⟩
  intro visited
  unfold frontend
  rw [Metered.bind_apply (hpass visited), program_eq_of_expand]
  cases expand source.disk source.text source.origin with
  | error e => rfl
  | ok text => rfl

variable {config : Config} {places : Nat} {source : Source}

/-! ## One run -/

variable (σ) in
/-- An engine runs a source as its evaluator does. -/
theorem run_eq_runSource (config : Config) (places : Nat) (source : Source) :
    ∃ left, ∀ engine : Engine σ,
      engine.run config places source =
        (Metered.runSource config places engine.session source engine.evaluator).map fun r =>
          (r.1.1, ⟨left, r.2, r.1.2⟩) := by
  obtain ⟨left, hfrontend⟩ := frontend_eq source
  refine ⟨left, ?_⟩
  intro engine
  unfold run Metered.runSource
  rw [hfrontend]
  cases source.program with
  | error e => rfl
  | ok p =>
      show (Metered.eval config places p engine.session.env engine.evaluator).bind _ =
        ((Metered.eval config places p engine.session.env engine.evaluator).bind _).map _
      cases Metered.eval config places p engine.session.env engine.evaluator with
      | none => rfl
      | some r => rfl

/-- What was visited before makes no difference to a run. -/
theorem run_of_visited (engine : Engine σ) (visited : List String) :
    run config places source { engine with visited := visited } = engine.run config places source := by
  obtain ⟨left, hrun⟩ := run_eq_runSource σ config places source
  rw [hrun, hrun]

/-- **What a run can do.** Either the source does not pass the front end, and all is as before but for the
files that were visited, or it is a program and has an outcome. -/
theorem run_cases {engine after : Engine σ} {result : Except FrontendError Session.Outcome}
    (h : engine.run config places source = some (result, after)) :
    (∃ e, source.program = .error e ∧ result = .error e ∧
        after = { engine with visited := after.visited }) ∨
      ∃ p outcome, source.program = .ok p ∧ result = .ok outcome := by
  obtain ⟨left, hrun⟩ := run_eq_runSource σ config places source
  rw [hrun] at h
  obtain ⟨⟨⟨result, session⟩, evaluator⟩, hsource, h⟩ := Option.map_eq_some_iff.mp h
  cases h
  unfold Metered.runSource at hsource
  cases hprogram : source.program with
  | error e =>
      rw [hprogram] at hsource
      cases hsource
      exact .inl ⟨e, rfl, rfl, rfl⟩
  | ok p =>
      rw [hprogram] at hsource
      obtain ⟨⟨evaluation, evaluator'⟩, -, houtcome⟩ := Option.bind_eq_some_iff.mp hsource
      cases houtcome
      exact .inr ⟨p, _, rfl, rfl⟩

/-- **Step lemma.** An engine does what a session does. -/
theorem run_eq_run {engine : Engine σ} (hready : engine.Ready config) (source : Source) :
    let ran := engine.session.run config source.disk engine.evaluator.effects.sink source.text source.origin
    ∃ after, engine.run config (Metered.placesFor config) source = some (ran.1, after) ∧
      after.visible = ran.2 ∧ after.Ready config := by
  intro ran
  obtain ⟨left, hrun⟩ := run_eq_runSource σ config (Metered.placesFor config) source
  obtain ⟨evaluator, hsource, hsink, hidle, hshort⟩ :=
    Metered.runSource_eq_run hready.evaluator hready.env source
  refine ⟨⟨left, evaluator, ran.2.1⟩, ?_, ?_, hidle, hshort.env⟩
  · rw [hrun, hsource]
    rfl
  · rw [visible, hsink]

/-! ## Histories -/

/-- The first run of a history, and the history behind it. -/
theorem history_cons_eq_some_iff {rest : List Source} {engine last : Engine σ} {records : List (Record σ)} :
    history config places (source :: rest) engine = some (records, last) ↔
      ∃ result after others, engine.run config places source = some (result, after) ∧
        history config places rest after = some (others, last) ∧
        records = ⟨source, result, engine.visible, after.visible⟩ :: others := by
  rw [history]
  constructor
  · intro h
    obtain ⟨⟨result, after⟩, hrun, h⟩ := Option.bind_eq_some_iff.mp h
    obtain ⟨⟨others, last'⟩, hrest, h⟩ := Option.bind_eq_some_iff.mp h
    cases h
    exact ⟨result, after, others, hrun, hrest, rfl⟩
  · rintro ⟨result, after, others, hrun, hrest, rfl⟩
    refine Option.bind_eq_some_iff.mpr ⟨(result, after), hrun, ?_⟩
    exact Option.bind_eq_some_iff.mpr ⟨(others, last), hrest, rfl⟩

/-- **Failed runs can be left out.** The other runs come to the same, and so does the engine, but for the
files that were visited; and it makes no difference which files were visited before. -/
theorem history_filter {sources : List Source} {engine last : Engine σ} {records : List (Record σ)}
    (h : history config places sources engine = some (records, last)) (visited : List String) :
    ∃ left, history config places (sources.filter Source.passes) { engine with visited := visited } =
      some (records.filter Record.succeeded, { last with visited := left }) := by
  induction sources generalizing engine records visited with
  | nil =>
      cases h
      exact ⟨visited, rfl⟩
  | cons source rest ih =>
      obtain ⟨result, after, others, hrun, hrest, rfl⟩ := history_cons_eq_some_iff.mp h
      obtain ⟨e, hprogram, rfl, hafter⟩ | ⟨p, outcome, hprogram, rfl⟩ := run_cases hrun
      · have hfails : ¬ source.passes = true := by
          rw [Source.passes, hprogram]
          exact Bool.false_ne_true
        rw [List.filter_cons_of_neg hfails, List.filter_cons_of_neg Bool.false_ne_true]
        rw [hafter] at hrest
        exact ih hrest visited
      · have hpasses : source.passes = true := by
          rw [Source.passes, hprogram]
          rfl
        obtain ⟨left, hothers⟩ := ih hrest after.visited
        rw [List.filter_cons_of_pos hpasses, List.filter_cons_of_pos rfl]
        refine ⟨left, history_cons_eq_some_iff.mpr ⟨.ok outcome, after, _, ?_, hothers, rfl⟩⟩
        rw [run_of_visited]
        exact hrun

/-- **Run lemma.** An engine comes to the end of any sources, and does what a session does. -/
theorem history_eq_runAll {engine : Engine σ} (hready : engine.Ready config) (sources : List Source) :
    ∃ records last, history config (Metered.placesFor config) sources engine = some (records, last) ∧
      records.map Record.source = sources ∧ (∀ record ∈ records, record.Faithful config) ∧
      (records.map Record.result, last.visible) =
        engine.session.runAll config sources engine.evaluator.effects.sink := by
  induction sources generalizing engine with
  | nil => exact ⟨[], engine, rfl, rfl, List.forall_mem_nil _, rfl⟩
  | cons source rest ih =>
      obtain ⟨after, hrun, hvisible, hafter⟩ := run_eq_run hready source
      obtain ⟨others, last, hrest, hsources, hfaithful, hall⟩ := ih hafter
      refine ⟨_, last, history_cons_eq_some_iff.mpr ⟨_, after, others, hrun, hrest, rfl⟩, ?_, ?_, ?_⟩
      · rw [List.map_cons, hsources]
      · refine List.forall_mem_cons.mpr ⟨?_, hfaithful⟩
        show engine.session.run config source.disk _ source.text source.origin = (_, after.visible)
        rw [hvisible]
        rfl
      · have hsession : after.session = _ := congrArg Prod.fst hvisible
        have hsink : after.evaluator.effects.sink = _ := congrArg Prod.snd hvisible
        rw [hsession, hsink] at hall
        simp only [List.map_cons, Session.runAll, ← hall]

end Engine

namespace Session

variable [Writable σ] (config : Config)

/-- Which runs fail, and how, is a matter of the front end. -/
theorem run_eq_error_iff {disk : Disk} {text origin : String} (session : Session) (sink : σ)
    (e : FrontendError) :
    (session.run config disk sink text origin).1 = .error e ↔ Program.ofSource disk text origin = .error e := by
  cases h : Program.ofSource disk text origin with
  | error e' => simp [run_of_error config h session sink]
  | ok p => simp [run_of_ofSource config h session sink]

/-- A run that fails wrote nothing and changed nothing. -/
theorem run_of_fst_eq_error {disk : Disk} {text origin : String} {session : Session} {sink : σ}
    {e : FrontendError} (h : (session.run config disk sink text origin).1 = .error e) :
    (session.run config disk sink text origin).2 = (session, sink) := by
  rw [run_of_error config ((run_eq_error_iff config session sink e).mp h)]

/-- **Failed runs are invisible.** Take any sources, in a session that starts with nothing and keeps all
that there is to keep. All of them are run, as `Session.run` runs them. Which of them fail, and how, can
be told from each of them alone; one that fails leaves session and sink as they were. If those that fail
are left out, each of the others comes to the same, with the same output and with the same session and
sink before and behind it, and so does the whole. -/
theorem failures_invisible (sources : List Source) (sink : σ) :
    let history := Engine.history config (Metered.placesFor config)
    ∃ records last last',
      history sources (.fresh sink) = some (records, last) ∧
      history (sources.filter Source.passes) (.fresh sink) = some (records.filter Record.succeeded, last') ∧
      last'.session = last.session ∧ last'.evaluator = last.evaluator ∧
      records.map Record.source = sources ∧
      (records.map Record.result, last.visible) = initial.runAll config sources sink ∧
      ∀ record ∈ records, record.Faithful config ∧
        (∀ e, record.result = .error e ↔ record.source.program = .error e) ∧
        ∀ e, record.result = .error e → record.after = record.before := by
  intro history
  obtain ⟨records, last, hrun, hsources, hfaithful, hall⟩ :=
    Engine.history_eq_runAll (Engine.ready_fresh config sink) sources
  obtain ⟨visited, hfiltered⟩ := Engine.history_filter hrun (Engine.fresh sink).visited
  refine ⟨records, last, _, hrun, hfiltered, rfl, rfl, hsources, hall, ?_⟩
  intro record hrecord
  have hrecorded := hfaithful record hrecord
  have hresult : _ = record.result := congrArg Prod.fst hrecorded
  have hafter : _ = record.after := congrArg Prod.snd hrecorded
  refine ⟨hrecorded, ?_, ?_⟩
  · intro e
    rw [← hresult]
    exact run_eq_error_iff config _ _ e
  · intro e he
    rw [← hresult] at he
    rw [← hafter]
    exact run_of_fst_eq_error config he

end Session

end Mapsto
