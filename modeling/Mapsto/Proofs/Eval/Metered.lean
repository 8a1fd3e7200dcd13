import Mapsto.Proofs.Eval.Hereditary

/-!
# `Mapsto.Proofs.Eval.Metered` — evaluation with its counters in view

`Eval.enter n` says how many calls are left and hides how deep evaluation has gone. A `Metered` run
keeps count instead: it has a counter of open calls, which is raised before the body of a function is
evaluated and lowered afterwards, and evaluating an expression is an activation that takes one of a
limited number of places as long as it lasts. With no place left the run ends without a result. On the
side the run notes the highest value of the counter, and for every activation the counter at both of its
ends and the value.

**Both are the same.** `Follows` says that a metered run ends, comes to what the plain run comes to, and
leaves the counter as it was. It holds of every expression for which there are enough places
(`activation_follows`), and how many are enough is a matter of heights: an expression of height `h`
needs `h` of them, and each call that may still be opened as many as the highest body in any function at
hand, which is 255 (`Value.ShortBody`).
-/

namespace Mapsto

/-- An activation that has ended: how many calls were open when it began and when it ended, and its
value. -/
structure Activation where
  entered : Nat
  left : Nat
  value : Value

/-- An evaluator between two steps. -/
structure Evaluator (σ : Type) where
  effects : Effects σ
  /-- How many calls are open. -/
  depth : Nat
  /-- The highest that `depth` has been. -/
  peak : Nat
  /-- The activations that have ended, the last one first. -/
  ended : List Activation

variable {σ : Type}

/-- An evaluator that has done nothing. -/
def Evaluator.fresh (sink : σ) : Evaluator σ := ⟨⟨sink, #[]⟩, 0, 0, []⟩

/-- A step of an evaluator. It has no result if there is no place for an activation. -/
abbrev Metered (σ : Type) := StateT (Evaluator σ) Option

namespace Metered

/-- A step that opens no activation. -/
def lift {α : Type} (m : Run σ α) : Metered σ α := fun ev =>
  some ((m ev.effects).1, { ev with effects := (m ev.effects).2 })

def openCall : Metered σ Unit :=
  modify fun ev => { ev with depth := ev.depth + 1, peak := max ev.peak (ev.depth + 1) }

def closeCall : Metered σ Unit :=
  modify fun ev => { ev with depth := ev.depth - 1 }

/-- How expressions are evaluated. -/
abbrev Evaluate (σ : Type) := Expr → Environment → Metered σ Value

variable [Writable σ]

/-- Calls a value. A function is called if not all calls are open that may be. -/
def apply (config : Config) (evaluate : Evaluate σ) (callee argument : Value) : Metered σ Value :=
  match callee with
  | .closure parameter body env => do
    let ev ← get
    if config.maxCallDepth ≤ ev.depth then lift (Eval.report (.callDepthExceeded config.maxCallDepth))
    else
      openCall
      let result ← evaluate body (env.extend parameter argument)
      closeCall
      pure result
  | .builtin b => lift (Eval.collect b [] argument)
  | .applied b arguments => lift (Eval.collect b arguments argument)
  | other => lift (Eval.report (.notCallable other))

/-- What an activation does with its expression, given how it starts others. -/
def step (config : Config) (evaluate : Evaluate σ) : Evaluate σ
  | .integer n, _ => pure (.integer n)
  | .float x, _ => pure (.float x)
  | .var name, env => lift (Eval.valueOf config env name)
  | .binding name value, env => do
    let _ ← evaluate value env
    if env.contains name then lift (Eval.report (.redeclaration name)) else pure .absent
  | .function parameter body, env => pure (.closure parameter body env)
  | .call callee argument, env => do
    let f ← evaluate callee env
    let a ← evaluate argument env
    apply config evaluate f a
  | .binary op left right, env => do
    let l ← evaluate left env
    let r ← evaluate right env
    lift (Eval.operator config op l r)
  | .ifElse condition consequence alternative, env => do
    let c ← evaluate condition env
    let t ← evaluate consequence env
    let e ← evaluate alternative env
    pure (if c.isTruthy then t else e)

/-- Does what an activation does, and notes it. -/
def noted (x : Metered σ Value) : Metered σ Value := do
  let before ← get
  let v ← x
  modify fun ev => { ev with ended := ⟨before.depth, ev.depth, v⟩ :: ev.ended }
  pure v

/-- Evaluates an expression when there are places for so many activations, one inside the other. -/
def activation (config : Config) : (places : Nat) → Evaluate σ
  | 0, _, _ => fun _ => none
  | places + 1, e, env => noted (step config (activation config places) e env)

/-- Runs one expression of a program. -/
def statement (config : Config) (places : Nat) (env : Environment) : Expr → Metered σ (Environment × Value)
  | .binding name value => do
    let v ← activation config places value env
    if env.contains name then
      let failed ← lift (Eval.report (.redeclaration name))
      pure (env, failed)
    else pure (env.extend name v, .absent)
  | e => do
    let v ← activation config places e env
    pure (env, v)

/-- Runs the expressions of a program. -/
def statements (config : Config) (places : Nat) :
    List Expr → Environment → Value → Metered σ (Environment × Value)
  | [], env, v => pure (env, v)
  | e :: rest, env, _ => do
    let (env, v) ← statement config places env e
    statements config places rest env v

/-- The diagnostics so far, which are then forgotten. -/
def takeDiagnostics : Metered σ (List Diagnostic) := fun ev =>
  some (ev.effects.diagnostics.toList, { ev with effects := { ev.effects with diagnostics := #[] } })

/-- Runs a program in an environment. -/
def eval (config : Config) (places : Nat) (program : Program) (env : Environment) : Metered σ Evaluation := do
  let result ← statements config places program env .absent
  lift Eval.flush
  let diagnostics ← takeDiagnostics
  pure ⟨result.2, result.1, diagnostics⟩

end Metered

/-! ## Short bodies -/

/-- A function has a body of height 255 at most. -/
def Value.ShortBody : Value → Prop
  | .closure _ body _ => body.height ≤ 255
  | _ => True

theorem Expr.height_lt_of_mem_operands {e part : Expr} (h : part ∈ e.operands) :
    part.height < e.height := by
  cases e with
  | binding name value =>
      obtain rfl := List.mem_singleton.mp h
      exact Nat.lt_succ_self _
  | call callee argument =>
      simp only [operands, List.mem_cons, List.not_mem_nil, or_false] at h
      simp only [height]
      obtain rfl | rfl := h <;> omega
  | binary op left right =>
      simp only [operands, List.mem_cons, List.not_mem_nil, or_false] at h
      simp only [height]
      obtain rfl | rfl := h <;> omega
  | ifElse condition consequence alternative =>
      simp only [operands, List.mem_cons, List.not_mem_nil, or_false] at h
      simp only [height]
      obtain rfl | rfl | rfl := h <;> omega
  | _ => cases h

/-- Trees of height 256, as the parser makes them, have short bodies in them only. -/
theorem hereditary_shortBody : Hereditary (fun e => e.height ≤ 256) Value.ShortBody where
  operand he hpart := Nat.le_trans (Nat.le_of_lt (Expr.height_lt_of_mem_operands hpart)) he
  simple {v} hv := by
    cases v with
    | closure parameter body env => cases hv
    | _ => trivial
  closure _ he := Nat.le_of_succ_le_succ he
  body hbody := Nat.le_succ_of_le hbody
  applied _ _ := trivial

/-! ## Metered runs follow plain ones -/

/-- What an evaluator has noted is in order: not more calls were open than may be, every activation left
the counter as it found it, and all functions in its value have short bodies. -/
structure Evaluator.InOrder (config : Config) (ev : Evaluator σ) : Prop where
  peak_le : ev.peak ≤ config.maxCallDepth
  ended : ∀ a ∈ ev.ended, a.left = a.entered ∧ a.value.Everywhere Value.ShortBody

namespace Metered

open Run

/-- Started with `depth` open calls, a metered run ends, does what the plain run does, and leaves
`depth` open calls. -/
def Follows {α : Type} (config : Config) (depth : Nat) (x : Metered σ α) (m : Run σ α) : Prop :=
  ∀ ev : Evaluator σ, ev.depth = depth → ev.InOrder config →
    ∃ ev', x ev = some ((m ev.effects).1, ev') ∧ ev'.effects = (m ev.effects).2 ∧ ev'.depth = depth ∧
      ev'.InOrder config

variable {α β : Type} {config : Config} {depth : Nat}

/-- A run behind one that has ended goes on from there. -/
theorem bind_apply {S : Type} {x : StateT S Option α} {s s' : S} {a : α} (h : x s = some (a, s'))
    (f : α → StateT S Option β) : (x >>= f) s = f a s' := by
  show (x s).bind (fun r => f r.1 r.2) = _
  rw [h]
  rfl

theorem lift_follows (m : Run σ α) : Follows config depth (lift m) m := by
  intro ev hdepth hev
  exact ⟨_, rfl, rfl, hdepth, hev.peak_le, hev.ended⟩

theorem pure_follows (a : α) : Follows config depth (pure a) (pure a : Run σ α) := by
  intro ev hdepth hev
  exact ⟨ev, rfl, rfl, hdepth, hev⟩

/-- One run behind another. What the plain run returns is known to satisfy `Q`. -/
theorem Follows.bind {Q : α → Prop} {x : Metered σ α} {m : Run σ α} {f : α → Metered σ β}
    {g : α → Run σ β}
    (hx : Follows config depth x m) (hm : Returns Q m) (hf : ∀ a, Q a → Follows config depth (f a) (g a)) :
    Follows config depth (x >>= f) (m >>= g) := by
  intro ev hdepth hev
  obtain ⟨ev₁, hrun, heffects, hdepth₁, hev₁⟩ := hx ev hdepth hev
  obtain ⟨ev₂, hrun₂, heffects₂, hdepth₂, hev₂⟩ := hf _ (hm ev.effects) ev₁ hdepth₁ hev₁
  refine ⟨ev₂, ?_, ?_, hdepth₂, hev₂⟩
  · rw [bind_apply hrun, hrun₂, heffects]
    rfl
  · rw [heffects₂, heffects]
    rfl

/-- The values of a run, with everything inside them, have short bodies. -/
abbrev Short : Value → Prop := Value.Everywhere Value.ShortBody

theorem noted_follows {x : Metered σ Value} {m : Run σ Value} (hx : Follows config depth x m)
    (hm : Returns Short m) : Follows config depth (noted x) m := by
  intro ev hdepth hev
  obtain ⟨ev', hrun, heffects, hdepth', hev'⟩ := hx ev hdepth hev
  have hleft : ev'.depth = ev.depth := hdepth'.trans hdepth.symm
  refine ⟨{ ev' with ended := ⟨ev.depth, ev'.depth, (m ev.effects).1⟩ :: ev'.ended }, ?_, heffects, hdepth',
    hev'.peak_le, ?_⟩
  · exact bind_apply hrun fun v ev' => some (v, { ev' with ended := ⟨ev.depth, ev'.depth, v⟩ :: ev'.ended })
  · exact List.forall_mem_cons.mpr ⟨⟨hleft, hm ev.effects⟩, hev'.ended⟩

variable [Writable σ]

/-- How expressions are evaluated when so many calls are open: the others are left. -/
def plainly (config : Config) (depth : Nat) : Eval.Enter σ :=
  Eval.expression config (Eval.enter config (config.maxCallDepth - depth))

theorem plainly_returns_short {e : Expr} {env : Environment} (he : e.height ≤ 256)
    (henv : env.Everywhere Value.ShortBody) : Returns Short (plainly config depth e env : Run σ Value) :=
  hereditary_shortBody.expression config (hereditary_shortBody.enter config _) e env he henv

/-- If another call may be opened, short bodies are evaluated with one more open call as they should
be. -/
def FollowsInCalls (config : Config) (depth : Nat) (evaluate : Evaluate σ) : Prop :=
  depth < config.maxCallDepth → ∀ body env, body.height ≤ 255 → env.Everywhere Value.ShortBody →
    Follows config (depth + 1) (evaluate body env) (plainly config (depth + 1) body env)

theorem apply_follows {evaluate : Evaluate σ} {callee argument : Value} (hcallee : Short callee)
    (hargument : Short argument) (hbody : FollowsInCalls config depth evaluate) :
    Follows config depth (apply config evaluate callee argument)
      (Eval.apply (Eval.enter config (config.maxCallDepth - depth)) callee argument) := by
  cases callee with
  | closure parameter body env =>
      obtain ⟨hshort, henv⟩ := Value.everywhere_iff.mp hcallee
      intro ev hdepth hev
      have happly : apply config evaluate (.closure parameter body env) argument ev =
          (if config.maxCallDepth ≤ ev.depth then
            lift (Eval.report (.callDepthExceeded config.maxCallDepth))
          else do
            openCall
            let result ← evaluate body (env.extend parameter argument)
            closeCall
            pure result) ev := rfl
      rw [happly, hdepth]
      by_cases hlimit : config.maxCallDepth ≤ depth
      · -- No call is left, neither by the counter nor for `enter`.
        rw [if_pos hlimit, Nat.sub_eq_zero_of_le hlimit]
        exact lift_follows _ ev hdepth hev
      · have hleft : config.maxCallDepth - depth = config.maxCallDepth - (depth + 1) + 1 := by omega
        have hlocal : (env.extend parameter argument).Everywhere Value.ShortBody :=
          Environment.everywhere_extend_iff.mpr ⟨hargument, henv⟩
        rw [if_neg hlimit, hleft]
        obtain ⟨ev', hrun, heffects, hdepth', hev'⟩ := hbody (by omega) body _ hshort hlocal
          { ev with depth := ev.depth + 1, peak := max ev.peak (ev.depth + 1) } (by rw [hdepth])
          ⟨Nat.max_le.mpr ⟨hev.peak_le, by omega⟩, hev.ended⟩
        refine ⟨{ ev' with depth := ev'.depth - 1 }, ?_, heffects, ?_, hev'.peak_le, hev'.ended⟩
        · exact bind_apply hrun fun result => closeCall >>= fun _ => pure result
        · show ev'.depth - 1 = depth
          rw [hdepth', Nat.add_sub_cancel]
  | builtin b => exact lift_follows _
  | applied b arguments => exact lift_follows _
  | integer n => exact lift_follows _
  | float x => exact lift_follows _
  | boolean b => exact lift_follows _
  | absent => exact lift_follows _

/-- **Step lemma.** An activation follows if those that it starts do, for its operands and for the
bodies of the functions that it calls. -/
theorem step_follows {evaluate : Evaluate σ} {e : Expr} {env : Environment} (he : e.height ≤ 256)
    (henv : env.Everywhere Value.ShortBody)
    (hoperand : ∀ part ∈ e.operands,
      Follows config depth (evaluate part env) (plainly config depth part env))
    (hbody : FollowsInCalls config depth evaluate) :
    Follows config depth (step config evaluate e env) (plainly config depth e env) := by
  have hshort : ∀ part ∈ e.operands, Returns Short (plainly config depth part env : Run σ Value) := by
    intro part hpart
    exact plainly_returns_short (hereditary_shortBody.operand he hpart) henv
  cases e with
  | integer n => exact pure_follows _
  | float x => exact pure_follows _
  | var name => exact lift_follows _
  | binding name value =>
      have hmem : value ∈ (Expr.binding name value).operands := by simp [Expr.operands]
      refine (hoperand _ hmem).bind (hshort _ hmem) fun v hv => ?_
      split
      · exact lift_follows _
      · exact pure_follows _
  | function parameter body => exact pure_follows _
  | call callee argument =>
      have hmem : callee ∈ (Expr.call callee argument).operands := by simp [Expr.operands]
      have hmem' : argument ∈ (Expr.call callee argument).operands := by simp [Expr.operands]
      refine (hoperand _ hmem).bind (hshort _ hmem) fun f hf => ?_
      refine (hoperand _ hmem').bind (hshort _ hmem') fun a ha => ?_
      exact apply_follows hf ha hbody
  | binary op left right =>
      have hmem : left ∈ (Expr.binary op left right).operands := by simp [Expr.operands]
      have hmem' : right ∈ (Expr.binary op left right).operands := by simp [Expr.operands]
      refine (hoperand _ hmem).bind (hshort _ hmem) fun l hl => ?_
      refine (hoperand _ hmem').bind (hshort _ hmem') fun r hr => ?_
      exact lift_follows _
  | ifElse condition consequence alternative =>
      have hmem : ∀ part ∈ [condition, consequence, alternative],
          part ∈ (Expr.ifElse condition consequence alternative).operands := fun _ hpart => hpart
      have hc := hmem condition (by simp)
      have ht := hmem consequence (by simp)
      have he := hmem alternative (by simp)
      refine (hoperand _ hc).bind (hshort _ hc) fun c _ => ?_
      refine (hoperand _ ht).bind (hshort _ ht) fun t _ => ?_
      refine (hoperand _ he).bind (hshort _ he) fun e _ => ?_
      exact pure_follows _

/-- **Run lemma.** Evaluating an expression of height `h` when `n` calls are left takes `h + 255 * n`
places at most. -/
theorem activation_follows {places : Nat} {e : Expr} {env : Environment} (he : e.height ≤ 256)
    (henv : env.Everywhere Value.ShortBody)
    (hplaces : e.height + 255 * (config.maxCallDepth - depth) ≤ places) :
    Follows config depth (activation config places e env : Metered σ Value) (plainly config depth e env) := by
  induction places generalizing e env depth with
  | zero =>
      have := e.height_pos
      omega
  | succ places ih =>
      have hpos := e.height_pos
      refine noted_follows ?_ ?_
      · refine step_follows he henv ?_ ?_
        · intro part hpart
          have hlt := Expr.height_lt_of_mem_operands hpart
          exact ih (by omega) henv (by omega)
        · -- A body is not higher than 255, and one call fewer is left to it.
          intro hopen body env' hheight henv'
          exact ih (by omega) henv' (by omega)
      · exact plainly_returns_short he henv

/-! ## Programs -/

/-- The places for activations that any program gets by with. -/
def placesFor (config : Config) : Nat := 256 * (config.maxCallDepth + 1)

theorem topLevel_follows {e : Expr} {env : Environment} (he : e.height ≤ 256)
    (henv : env.Everywhere Value.ShortBody) :
    Follows config 0 (activation config (placesFor config) e env : Metered σ Value)
      (Eval.topLevel config e env) := by
  refine activation_follows he henv ?_
  unfold placesFor
  omega

theorem statement_follows {env : Environment} {e : Expr} (he : e.height ≤ 256)
    (henv : env.Everywhere Value.ShortBody) :
    Follows config 0 (statement config (placesFor config) env e : Metered σ _)
      (Eval.statement config env e) := by
  have hshort : ∀ e' : Expr, e'.height ≤ 256 → Returns Short (Eval.topLevel config e' env : Run σ Value) :=
    fun e' he' => hereditary_shortBody.topLevel config e' env he' henv
  cases e with
  | binding name value =>
      have hvalue : value.height ≤ 256 := hereditary_shortBody.operand he (by simp [Expr.operands])
      refine (topLevel_follows hvalue henv).bind (hshort _ hvalue) fun v hv => ?_
      split
      · exact (lift_follows _).bind (hereditary_shortBody.report _) fun _ _ => pure_follows _
      · exact pure_follows _
  | _ => exact (topLevel_follows he henv).bind (hshort _ he) fun _ _ => pure_follows _

theorem statements_follows {program : Program} {env : Environment} {v : Value}
    (hheights : ∀ e ∈ program, e.height ≤ 256) (henv : env.Everywhere Value.ShortBody) :
    Follows config 0 (statements config (placesFor config) program env v : Metered σ _)
      (Eval.statements config program env v) := by
  induction program generalizing env v with
  | nil => exact pure_follows _
  | cons e rest ih =>
      obtain ⟨he, hrest⟩ := List.forall_mem_cons.mp hheights
      refine (statement_follows he henv).bind (hereditary_shortBody.statement config henv he) fun r hr => ?_
      exact ih hrest hr.1

end Metered

/-- An evaluator as it is between two programs: no call is open, no diagnostic is held back, and what it
has noted is in order. -/
structure Evaluator.Idle (config : Config) (ev : Evaluator σ) : Prop extends ev.InOrder config where
  depth_eq : ev.depth = 0
  diagnostics_eq : ev.effects.diagnostics = #[]

/-- **Programs.** An idle evaluator runs any program whose trees are not higher than 256 to its end,
with the same outcome as `Program.run`, and is idle again. -/
theorem Metered.eval_eq_run [Writable σ] {config : Config} {program : Program} {env : Environment} {ev : Evaluator σ}
    (hev : ev.Idle config) (hheights : ∀ e ∈ program, e.height ≤ 256)
    (henv : env.Everywhere Value.ShortBody) :
    let ran := program.run config env ev.effects.sink
    ∃ ev', eval config (placesFor config) program env ev = some (ran.1, ev') ∧
      ev'.effects.sink = ran.2 ∧ ev'.Idle config := by
  intro ran
  obtain ⟨ev₁, hrun, heffects, hdepth, hin⟩ :=
    statements_follows hheights henv ev hev.depth_eq hev.toInOrder
  have hstart : ev.effects = ⟨ev.effects.sink, #[]⟩ := by rw [← hev.diagnostics_eq]
  rw [hstart] at hrun heffects
  refine ⟨{ ev₁ with effects := ⟨(Eval.flush ev₁.effects).2.sink, #[]⟩ }, ?_, ?_, ?_⟩
  · unfold eval
    rw [bind_apply hrun, bind_apply (show lift Eval.flush ev₁ = some ((), _) from rfl),
      bind_apply (show takeDiagnostics _ = some (_, _) from rfl), heffects]
    rfl
  · show (Eval.flush ev₁.effects).2.sink = _
    rw [heffects]
    rfl
  · exact { peak_le := hin.peak_le, ended := hin.ended, depth_eq := hdepth, diagnostics_eq := rfl }

end Mapsto
