import Mapsto.Proofs.Session.Join

/-!
# `Mapsto.Proofs.Eval.Additions` — what a run adds

To a sink that takes everything a program writes the same whatever was written before, and it records the
same diagnostics whatever was recorded before. So a run that starts with some effects is the run that
starts with none, with these effects in front (`Eval.statements_eq_followedBy`).

That allows to take a run apart. `Eval.portions` runs programs one after the other and notes for each what
was written in the meantime and which value it came to. Together they do what the one program does that is
made up of them (`Eval.portions_eq_statements`), and each portion is what its program comes to on its own
(`Eval.portions_cons`).
-/

namespace Mapsto

/-! ## Sinks that take everything -/

namespace Sink

/-- There is room for everything, and flushing works. -/
structure TakesAll (sink : Sink) : Prop where
  capacity_eq : sink.capacity = none
  flushFails_eq : sink.flushFails = false

/-- A sink to which bytes were written. -/
def wrote (sink : Sink) (bytes : ByteArray) : Sink := { sink with written := sink.written ++ bytes }

theorem takesAll_unlimited : unlimited.TakesAll := ⟨rfl, rfl⟩

variable {sink : Sink}

theorem TakesAll.wrote (h : sink.TakesAll) (bytes : ByteArray) : (sink.wrote bytes).TakesAll :=
  ⟨h.capacity_eq, h.flushFails_eq⟩

@[simp] theorem wrote_empty (sink : Sink) : sink.wrote .empty = sink := by
  simp [Sink.wrote]

@[simp] theorem wrote_wrote (sink : Sink) (first second : ByteArray) :
    (sink.wrote first).wrote second = sink.wrote (first ++ second) := by
  simp [Sink.wrote, ByteArray.append_assoc]

theorem TakesAll.write_eq (h : sink.TakesAll) (text : String) :
    sink.write text = (.ok (), sink.wrote text.toUTF8) := by
  simp [write, hasRoom, fitting, h.capacity_eq, Sink.wrote]

/-- It does not matter for the contents of such a sink how it came to be. -/
theorem TakesAll.eq_wrote (h : sink.TakesAll) : unlimited.wrote sink.written = sink := by
  obtain ⟨written, capacity, flushFails⟩ := sink
  obtain ⟨rfl, rfl⟩ := h
  simp [Sink.wrote, unlimited]

end Sink

/-- A built-in writes the same to all sinks that take everything. -/
theorem Builtin.exists_apply_eq (b : Builtin) (arguments : List Value) :
    ∃ result bytes, ∀ sink : Sink, sink.TakesAll → b.apply arguments sink = (result, sink.wrote bytes) := by
  by_cases hprint : ∃ v, b = .print ∧ arguments = [v]
  · obtain ⟨v, rfl, rfl⟩ := hprint
    refine ⟨.ok .absent, (v.text ++ "\n").toUTF8, ?_⟩
    intro sink hsink
    simp only [Builtin.apply, Builtin.printLine, Sink.writable_write, hsink.write_eq]
  · refine ⟨(b.apply arguments Sink.unlimited).1, .empty, ?_⟩
    intro sink hsink
    rw [Sink.wrote_empty, apply_of_not_print hprint sink]

/-! ## Effects one behind the other -/

namespace Effects

/-- Nothing was written and nothing recorded. -/
def nothing : Effects Sink := ⟨.unlimited, #[]⟩

theorem takesAll_nothing : nothing.sink.TakesAll := Sink.takesAll_unlimited

/-- What was written and recorded, and then what was written and recorded behind it. -/
def followedBy (s t : Effects Sink) : Effects Sink := ⟨s.sink.wrote t.sink.written, s.diagnostics ++ t.diagnostics⟩

theorem followedBy_nothing (s : Effects Sink) : s.followedBy nothing = s := by
  simp [followedBy, nothing, Sink.unlimited]

theorem nothing_followedBy {s : Effects Sink} (hs : s.sink.TakesAll) : nothing.followedBy s = s := by
  simp [followedBy, nothing, hs.eq_wrote]

theorem followedBy_assoc (s t u : Effects Sink) : (s.followedBy t).followedBy u = s.followedBy (t.followedBy u) := by
  simp [followedBy, Sink.wrote, ByteArray.append_assoc]

/-- Recording and running built-ins goes on in the same way behind any effects. -/
theorem oblivious_followedBy {s : Effects Sink} (hs : s.sink.TakesAll) :
    Oblivious fun t t' => t.sink.TakesAll ∧ t' = s.followedBy t where
  report d := by
    rintro t _ ⟨ht, rfl⟩
    refine ⟨rfl, ht, ?_⟩
    simp [Eval.report, followedBy]
  callBuiltin b arguments := by
    rintro t _ ⟨ht, rfl⟩
    obtain ⟨result, bytes, happly⟩ := b.exists_apply_eq arguments
    have hbehind := happly (s.followedBy t).sink (hs.wrote t.sink.written)
    unfold Eval.callBuiltin
    rw [happly t.sink ht, hbehind]
    cases result with
    | ok v =>
        refine ⟨rfl, ht.wrote bytes, ?_⟩
        simp [followedBy, Sink.wrote, ByteArray.append_assoc]
    | error d =>
        refine ⟨rfl, ht.wrote bytes, ?_⟩
        simp [followedBy, Sink.wrote, ByteArray.append_assoc]

end Effects

namespace Eval

open Effects

variable (config : Config)

/-- **What a run adds.** Behind any effects a program does what it does behind none. -/
theorem statements_eq_followedBy (p : Program) (env : Environment) (v : Value) {s : Effects Sink}
    (hs : s.sink.TakesAll) :
    let alone := statements config p env v nothing
    statements config p env v s = (alone.1, s.followedBy alone.2) ∧ alone.2.sink.TakesAll := by
  intro alone
  obtain ⟨hresult, htakes, heffects⟩ := (oblivious_followedBy hs).statements config p env v
    nothing s ⟨Sink.takesAll_unlimited, (followedBy_nothing s).symm⟩
  exact ⟨Prod.ext hresult.symm heffects, htakes⟩

/-- Behind any effects an expression does what it does behind none. -/
theorem topLevel_eq_followedBy (e : Expr) (env : Environment) {s : Effects Sink} (hs : s.sink.TakesAll) :
    let alone := topLevel config e env nothing
    topLevel config e env s = (alone.1, s.followedBy alone.2) ∧ alone.2.sink.TakesAll := by
  intro alone
  obtain ⟨hvalue, htakes, heffects⟩ := (oblivious_followedBy hs).topLevel config e env
    nothing s ⟨takesAll_nothing, (followedBy_nothing s).symm⟩
  exact ⟨Prod.ext hvalue.symm heffects, htakes⟩

/-! ## Portions -/

/-- What one of several programs contributes. -/
structure Portion where
  value : Value
  printed : ByteArray

/-- Runs programs one after the other, and notes what each of them contributes. -/
def portions : List Program → Environment → Run Sink (List Portion × Environment)
  | [], env => pure ([], env)
  | p :: rest, env => do
    let before ← get
    let result ← statements config p env .absent
    let after ← get
    let printed := after.sink.written.extract before.sink.written.size after.sink.written.size
    let (others, env) ← portions rest result.1
    pure (⟨result.2, printed⟩ :: others, env)

theorem portions_cons_apply (p : Program) (rest : List Program) (env : Environment) (s : Effects Sink) :
    portions config (p :: rest) env s =
      let first := statements config p env .absent s
      let others := portions config rest first.1.1 first.2
      ((⟨first.1.2, first.2.sink.written.extract s.sink.written.size first.2.sink.written.size⟩ :: others.1.1,
        others.1.2), others.2) := rfl

theorem length_portions (programs : List Program) (env : Environment) (s : Effects Sink) :
    (portions config programs env s).1.1.length = programs.length := by
  induction programs generalizing env s with
  | nil => rfl
  | cons p rest ih => rw [portions_cons_apply, List.length_cons, ih, List.length_cons]

/-- The value that is there before a program makes no difference to what the program does. -/
theorem statements_initial_value (p : Program) (env : Environment) (v v' : Value) (s : Effects Sink) :
    (statements config p env v s).1.1 = (statements config p env v' s).1.1 ∧
      (statements config p env v s).2 = (statements config p env v' s).2 := by
  by_cases hp : p = []
  · subst hp
    exact ⟨rfl, rfl⟩
  · rw [statements_of_ne_nil config hp env v v']
    exact ⟨rfl, rfl⟩

/-- **The same run.** Programs one after the other do what they do put together. -/
theorem portions_eq_statements (programs : List Program) (env : Environment) (v : Value) (s : Effects Sink) :
    let cut := portions config programs env s
    let whole := statements config programs.flatten env v s
    cut.1.2 = whole.1.1 ∧ cut.2 = whole.2 := by
  induction programs generalizing env v s with
  | nil => exact ⟨rfl, rfl⟩
  | cons p rest ih =>
      obtain ⟨henv, heffects⟩ := statements_initial_value config p env .absent v s
      rw [List.flatten_cons, statements_append, portions_cons_apply]
      simp only [henv, heffects]
      exact ih _ _ _

/-- **Step lemma.** What the first program contributes is what it does on its own. -/
theorem portions_cons (p : Program) (rest : List Program) (env : Environment) {s : Effects Sink}
    (hs : s.sink.TakesAll) :
    let first := statements config p env .absent nothing
    let others := portions config rest first.1.1 (s.followedBy first.2)
    portions config (p :: rest) env s =
      ((⟨first.1.2, first.2.sink.written⟩ :: others.1.1, others.1.2), others.2) := by
  intro first others
  obtain ⟨hfirst, -⟩ := statements_eq_followedBy config p env .absent hs
  have hprinted : (s.followedBy first.2).sink.written.extract s.sink.written.size
      (s.followedBy first.2).sink.written.size = first.2.sink.written := by
    simp only [followedBy, Sink.wrote, ByteArray.size_append]
    exact ByteArray.extract_append_eq_right rfl rfl
  rw [portions_cons_apply, hfirst]
  simp only [first, others, ← hprinted]

/-- **Run lemma.** Behind any effects programs contribute what they do behind none. -/
theorem portions_eq_followedBy (programs : List Program) (env : Environment) {s : Effects Sink}
    (hs : s.sink.TakesAll) :
    let alone := portions config programs env nothing
    portions config programs env s = (alone.1, s.followedBy alone.2) ∧ alone.2.sink.TakesAll := by
  induction programs generalizing env s with
  | nil => exact ⟨Prod.ext rfl (followedBy_nothing s).symm, Sink.takesAll_unlimited⟩
  | cons p rest ih =>
      let first := statements config p env .absent nothing
      let others := portions config rest first.1.1 nothing
      have hcons : ∀ t : Effects Sink, t.sink.TakesAll → portions config (p :: rest) env t =
          ((⟨first.1.2, first.2.sink.written⟩ :: others.1.1, others.1.2),
            t.followedBy (first.2.followedBy others.2)) := by
        intro t ht
        have hothers : portions config rest first.1.1 (t.followedBy first.2) = _ :=
          (ih first.1.1 (ht.wrote first.2.sink.written)).1
        rw [portions_cons config p rest env ht, hothers, followedBy_assoc]
      obtain ⟨-, htakes⟩ := statements_eq_followedBy config p env .absent takesAll_nothing
      have hbehind : (first.2.followedBy others.2).sink.TakesAll := htakes.wrote others.2.sink.written
      rw [hcons s hs, hcons nothing takesAll_nothing, nothing_followedBy hbehind]
      exact ⟨rfl, hbehind⟩

/-- **Portions are apart.** The other programs contribute what they do behind nothing. -/
theorem portions_cons_nothing (p : Program) (rest : List Program) (env : Environment) :
    let first := statements config p env .absent nothing
    let others := portions config rest first.1.1 nothing
    portions config (p :: rest) env nothing =
      ((⟨first.1.2, first.2.sink.written⟩ :: others.1.1, others.1.2), first.2.followedBy others.2) := by
  intro first others
  obtain ⟨-, htakes⟩ := statements_eq_followedBy config p env .absent takesAll_nothing
  obtain ⟨hothers, -⟩ := portions_eq_followedBy config rest first.1.1 htakes
  rw [portions_cons config p rest env takesAll_nothing, nothing_followedBy htakes, hothers]

end Eval

/-- To a sink that takes everything a program writes what it writes on its own. -/
theorem Program.run_eq_wrote (config : Config) (p : Program) (env : Environment) {sink : Sink}
    (hsink : sink.TakesAll) :
    let alone := Eval.statements config p env .absent Effects.nothing
    p.run config env sink =
      (⟨alone.1.2, alone.1.1, alone.2.diagnostics.toList⟩, sink.wrote alone.2.sink.written) := by
  intro alone
  have htakes : (⟨sink, #[]⟩ : Effects Sink).sink.TakesAll := hsink
  obtain ⟨hrun, -⟩ := run_eq_statements config p env hsink.flushFails_eq
  obtain ⟨hbehind, -⟩ := Eval.statements_eq_followedBy config p env .absent htakes
  rw [hrun, hbehind]
  simp only [Effects.followedBy, Array.empty_append]
  rfl

end Mapsto
