import Mapsto.Proofs.Builtin.Failure
import Mapsto.Proofs.Eval.Account
import Mapsto.Proofs.Eval.Additions

/-!
# `Mapsto.Proofs.Eval.Limited` — a sink that gets full

A program that prints goes on when printing fails: the failure is recorded, the value is absent as ever, and
the next print is tried. So whatever output goes to, programs come to the same but for the failures of output
(`Program.runAll_withoutOutput_eq`), and the only difference between a sink that takes everything and one with
room for so many bytes is in the output, which is cut there, and in the failures that are recorded.

The account of a run does not depend on the sink (`Mapsto.Proofs.Eval.Account`). Of its events two kinds can
be noticed from outside, lines that are printed and diagnostics that are recorded; the `Notice`s of an account
list them in order, and they determine what any sink leads to. A sink that takes everything
gets all lines, and all diagnostics are recorded (`Notice.performAll_of_takesAll`). One with room for `limit`
bytes gets the first `limit` of the same bytes, and in place of every line that does not end within them a
failure is recorded (`Notice.performAll_limited`). `Program.runAll_limited` says so of programs one behind
the other.
-/

namespace Mapsto

/-! ## What can be noticed -/

/-- What can be noticed of a run from outside. -/
inductive Notice where
  /-- A line is printed; the end of line comes behind it. -/
  | printed (line : String)
  | recorded (d : Diagnostic)

/-- What can be noticed of an event, if the sink takes everything. -/
def Event.notices : Event → List Notice
  | ran .print [v] => [.printed v.text]
  | ran b arguments =>
    match (b.apply arguments Sink.unlimited).1 with
    | .ok _ => []
    | .error d => [.recorded d]
  | complained c => [.recorded c.diagnostic]

/-- What can be noticed of what an account tells. -/
def Account.notices {α : Type} (account : Account α) : List Notice := account.events.flatMap Event.notices

namespace Notice

/-- The bytes of a line with its end. -/
def lineBytes (line : String) : ByteArray := (line ++ "\n").toUTF8

/-- A line has its end at least. -/
theorem size_lineBytes_pos (line : String) : 0 < (lineBytes line).size := by
  have hsize : (lineBytes line).size = line.toUTF8.size + 1 := by
    simp [lineBytes, String.toUTF8_eq_toByteArray, String.toByteArray_append, ByteArray.size_append]
    rfl
  omega

variable {σ : Type} [Writable σ]

/-- Lets happen what was noticed. -/
def perform : Notice → Effects σ → Effects σ
  | printed line, s =>
    match Writable.write s.sink (line ++ "\n") with
    | (.ok _, sink) => { s with sink := sink }
    | (.error e, sink) => ⟨sink, s.diagnostics.push (.output e)⟩
  | recorded d, s => { s with diagnostics := s.diagnostics.push d }

def performAll (notices : List Notice) (s : Effects σ) : Effects σ :=
  notices.foldl (fun s notice => notice.perform s) s

theorem performAll_append (first second : List Notice) (s : Effects σ) :
    performAll (first ++ second) s = performAll second (performAll first s) :=
  List.foldl_append

theorem performAll_cons (notice : Notice) (rest : List Notice) (s : Effects σ) :
    performAll (notice :: rest) s = performAll rest (notice.perform s) := rfl

/-! ## The two sinks -/

/-- The bytes of all lines that are printed. -/
def printedBytes : List Notice → ByteArray
  | [] => .empty
  | printed line :: rest => lineBytes line ++ printedBytes rest
  | recorded _ :: rest => printedBytes rest

/-- The diagnostics that are recorded when everything can be printed. -/
def diagnostics : List Notice → List Diagnostic
  | [] => []
  | printed _ :: rest => diagnostics rest
  | recorded d :: rest => d :: diagnostics rest

/-- The diagnostics that are recorded on a sink with room for `limit` bytes, when so many bytes were printed
before: a line whose last byte lies beyond the limit gives a failure in its place. -/
def diagnosticsWithin (limit : Nat) : (before : Nat) → List Notice → List Diagnostic
  | _, [] => []
  | before, printed line :: rest =>
    let stop := before + (lineBytes line).size
    if limit < stop then .output .full :: diagnosticsWithin limit stop rest
    else diagnosticsWithin limit stop rest
  | before, recorded d :: rest => d :: diagnosticsWithin limit before rest

end Notice

variable {σ : Type} [Writable σ]

/-- Carrying an event out is letting happen what can be noticed of it, on any sink. -/
theorem Event.perform_eq_performAll (event : Event) (s : Effects σ) :
    event.perform s = Notice.performAll event.notices s := by
  cases event with
  | complained c => rfl
  | ran b arguments =>
      show (Eval.callBuiltin b arguments s).2 = _
      by_cases hprint : ∃ v, b = .print ∧ arguments = [v]
      · obtain ⟨v, rfl, rfl⟩ := hprint
        show _ = Notice.perform (.printed v.text) s
        simp only [Eval.callBuiltin, Builtin.apply, Builtin.printLine, Notice.perform]
        generalize Writable.write s.sink (v.text ++ "\n") = wrote
        obtain ⟨result, sink⟩ := wrote
        cases result <;> rfl
      · have hnotices : (ran b arguments).notices =
            match (b.apply arguments Sink.unlimited).1 with
            | .ok _ => []
            | .error d => [.recorded d] := by
          unfold notices
          split
          · rename_i v heq
            cases heq
            exact absurd ⟨v, rfl, rfl⟩ hprint
          · rename_i heq
            cases heq
            rfl
          · rename_i heq
            cases heq
        unfold Eval.callBuiltin
        rw [Builtin.apply_of_not_print hprint s.sink, hnotices]
        cases (b.apply arguments Sink.unlimited).1 <;> rfl

theorem performAll_eq_performAll_flatMap (events : List Event) (s : Effects σ) :
    performAll events s = Notice.performAll (events.flatMap Event.notices) s := by
  induction events generalizing s with
  | nil => rfl
  | cons event rest ih =>
      rw [List.flatMap_cons, Notice.performAll_append, ← Event.perform_eq_performAll, ← ih]
      rfl

/-! ## A sink with room for so many bytes -/

namespace Sink

/-- A sink with room for `limit` bytes, to which some bytes were written. It has those that fit. -/
def cut (limit : Nat) (bytes : ByteArray) : Sink := ⟨bytes.extract 0 limit, some limit, false⟩

theorem written_cut (limit : Nat) (bytes : ByteArray) :
    (cut limit bytes).written = bytes.extract 0 (min limit bytes.size) := by
  show bytes.extract 0 limit = _
  by_cases hlimit : limit ≤ bytes.size
  · rw [Nat.min_eq_left hlimit]
  · rw [Nat.min_eq_right (Nat.le_of_not_le hlimit), ByteArray.extract_zero_size]
    refine ByteArray.ext ?_
    rw [ByteArray.data_extract, Array.extract_eq_self_iff]
    exact .inr ⟨rfl, Nat.le_of_not_le hlimit⟩

theorem cut_empty (limit : Nat) : cut limit .empty = ⟨.empty, some limit, false⟩ := by
  simp [cut]

/-- A line fits if it ends within the limit; and as much of it as fits is written. -/
theorem write_cut (limit : Nat) (bytes : ByteArray) (line : String) :
    (cut limit bytes).write (line ++ "\n") =
      (if limit < bytes.size + (Notice.lineBytes line).size then .error .full else .ok (),
        cut limit (bytes ++ Notice.lineBytes line)) := by
  have hsize : (bytes.extract 0 limit).size = min limit bytes.size := by
    rw [ByteArray.size_extract, Nat.sub_zero]
  have hpos := Notice.size_lineBytes_pos line
  have hresult : (cut limit bytes).hasRoom (Notice.lineBytes line) =
      decide (bytes.size + (Notice.lineBytes line).size ≤ limit) := by
    simp only [hasRoom, cut, hsize]
    refine decide_eq_decide.mpr ?_
    omega
  have hbytes : bytes.extract 0 limit ++ (cut limit bytes).fitting (Notice.lineBytes line) =
      (bytes ++ Notice.lineBytes line).extract 0 limit := by
    simp only [fitting, cut, hsize]
    rw [ByteArray.extract_append, Nat.zero_sub]
    congr 2
    omega
  have hwrite : (cut limit bytes).write (line ++ "\n") =
      (if (cut limit bytes).hasRoom (Notice.lineBytes line) then .ok () else .error .full,
        ⟨bytes.extract 0 limit ++ (cut limit bytes).fitting (Notice.lineBytes line), some limit, false⟩) := rfl
  rw [hwrite, hresult, hbytes]
  by_cases hstop : limit < bytes.size + (Notice.lineBytes line).size
  · have hfull : ¬ bytes.size + (Notice.lineBytes line).size ≤ limit := Nat.not_le.mpr hstop
    rw [if_pos hstop, decide_eq_false hfull]
    rfl
  · rw [if_neg hstop, decide_eq_true (Nat.le_of_not_lt hstop)]
    rfl

end Sink

namespace Notice

theorem performAll_of_takesAll (notices : List Notice) {s : Effects Sink} (hs : s.sink.TakesAll) :
    (performAll notices s).sink = s.sink.wrote (printedBytes notices) ∧
      (performAll notices s).diagnostics.toList = s.diagnostics.toList ++ diagnostics notices := by
  induction notices generalizing s with
  | nil => exact ⟨s.sink.wrote_empty.symm, (List.append_nil _).symm⟩
  | cons notice rest ih =>
      cases notice with
      | printed line =>
          have hperform : (printed line).perform s = { s with sink := s.sink.wrote (lineBytes line) } := by
            simp only [perform, Sink.writable_write, hs.write_eq]
            rfl
          obtain ⟨hsink, hdiagnostics⟩ := ih (s := { s with sink := s.sink.wrote (lineBytes line) }) (hs.wrote _)
          rw [performAll_cons, hperform, hsink, hdiagnostics, Sink.wrote_wrote]
          exact ⟨rfl, rfl⟩
      | recorded d =>
          obtain ⟨hsink, hdiagnostics⟩ := ih (s := { s with diagnostics := s.diagnostics.push d }) hs
          refine ⟨hsink, hdiagnostics.trans ?_⟩
          rw [Array.toList_push, List.append_assoc]
          rfl

theorem performAll_limited (limit : Nat) (notices : List Notice) (bytes : ByteArray)
    (ds : Array Diagnostic) :
    let s := performAll notices ⟨Sink.cut limit bytes, ds⟩
    s.sink = .cut limit (bytes ++ printedBytes notices) ∧
      s.diagnostics.toList = ds.toList ++ diagnosticsWithin limit bytes.size notices := by
  induction notices generalizing bytes ds with
  | nil =>
    refine ⟨?_, (List.append_nil _).symm⟩
    rw [printedBytes, ByteArray.append_empty]
    rfl
  | cons notice rest ih =>
      cases notice with
      | printed line =>
          have hwrite := Sink.write_cut limit bytes line
          have hsize : (bytes ++ lineBytes line).size = bytes.size + (lineBytes line).size :=
            ByteArray.size_append
          by_cases hstop : limit < bytes.size + (lineBytes line).size
          · rw [if_pos hstop] at hwrite
            have hperform : (printed line).perform ⟨Sink.cut limit bytes, ds⟩ =
                ⟨.cut limit (bytes ++ lineBytes line), ds.push (.output .full)⟩ := by
              simp only [perform, Sink.writable_write, hwrite]
            obtain ⟨hsink, hdiagnostics⟩ := ih (bytes ++ lineBytes line) (ds.push (.output .full))
            simp only [performAll_cons, hperform, hsink, hdiagnostics, printedBytes, diagnosticsWithin, if_pos hstop,
              hsize, ByteArray.append_assoc, Array.toList_push, List.append_assoc, List.singleton_append,
              and_self]
          · rw [if_neg hstop] at hwrite
            have hperform : (printed line).perform ⟨Sink.cut limit bytes, ds⟩ =
                ⟨.cut limit (bytes ++ lineBytes line), ds⟩ := by
              simp only [perform, Sink.writable_write, hwrite]
            obtain ⟨hsink, hdiagnostics⟩ := ih (bytes ++ lineBytes line) ds
            simp only [performAll_cons, hperform, hsink, hdiagnostics, printedBytes, diagnosticsWithin, if_neg hstop,
              hsize, ByteArray.append_assoc, and_self]
      | recorded d =>
          obtain ⟨hsink, hdiagnostics⟩ := ih bytes (ds.push d)
          refine ⟨hsink, hdiagnostics.trans ?_⟩
          rw [Array.toList_push, List.append_assoc]
          rfl

/-! ## Failures of output -/

/-- The diagnostics of programs one behind the other on a sink with room for `limit` bytes, when so many
bytes were printed before. -/
def diagnosticsWithinAll (limit : Nat) : (before : Nat) → List (List Notice) → List (List Diagnostic)
  | _, [] => []
  | before, notices :: rest =>
    diagnosticsWithin limit before notices ::
      diagnosticsWithinAll limit (before + (printedBytes notices).size) rest

theorem printedBytes_append (first second : List Notice) :
    printedBytes (first ++ second) = printedBytes first ++ printedBytes second := by
  induction first with
  | nil => exact ByteArray.empty_append.symm
  | cons notice first ih =>
      cases notice with
      | printed line => rw [List.cons_append, printedBytes, printedBytes, ih, ByteArray.append_assoc]
      | recorded d => exact ih

/-- **Step lemma.** Without the failures of output, what is recorded of a notice does not depend on the sink. -/
theorem filter_perform (notice : Notice) (s : Effects σ) :
    (notice.perform s).diagnostics.toList.filter (!·.isOutput) =
      (s.diagnostics.toList ++ diagnostics [notice]).filter (!·.isOutput) := by
  cases notice with
  | recorded d => exact congrArg (List.filter _) Array.toList_push
  | printed line =>
      rw [diagnostics, diagnostics, List.append_nil]
      simp only [perform]
      generalize Writable.write s.sink (line ++ "\n") = wrote
      obtain ⟨result, sink⟩ := wrote
      cases result with
      | ok _ => rfl
      | error e =>
          rw [Array.toList_push, List.filter_append]
          exact List.append_nil _

/-- **Run lemma.** The same holds of any notices. -/
theorem filter_performAll (notices : List Notice) (s : Effects σ) :
    (performAll notices s).diagnostics.toList.filter (!·.isOutput) =
      (s.diagnostics.toList ++ diagnostics notices).filter (!·.isOutput) := by
  induction notices generalizing s with
  | nil => exact congrArg (List.filter _) (List.append_nil _).symm
  | cons notice rest ih =>
      have hdiagnostics : diagnostics (notice :: rest) = diagnostics [notice] ++ diagnostics rest := by
        cases notice <;> rfl
      rw [performAll_cons, ih, List.filter_append, filter_perform, hdiagnostics, ← List.append_assoc,
        ← List.filter_append]

theorem mem_diagnostics {notices : List Notice} {d : Diagnostic} :
    d ∈ diagnostics notices ↔ recorded d ∈ notices := by
  induction notices with
  | nil => simp [diagnostics]
  | cons notice rest ih => cases notice <;> simp [diagnostics, ih]

end Notice

/-- What a program comes to, without the failures of output. -/
def Evaluation.withoutOutput (r : Evaluation) : Evaluation :=
  { r with diagnostics := r.diagnostics.filter (!·.isOutput) }

theorem Complaint.isOutput_diagnostic (c : Complaint) : c.diagnostic.isOutput = false := by
  cases c <;> rfl

/-- The diagnostics that are recorded whatever the sink is like have nothing to do with it. -/
theorem Event.isOutput_of_mem {event : Event} {d : Diagnostic} (h : .recorded d ∈ event.notices) :
    d.isOutput = false := by
  unfold notices at h
  split at h
  · cases List.mem_singleton.mp h
  · rename_i b arguments hprint
    split at h
    · cases h
    · rename_i failed heq
      cases List.mem_singleton.mp h
      have hfailure := Builtin.failure_of_apply heq
      by_contra houtput
      obtain ⟨rfl, v, rfl⟩ := hfailure.exists_of_isOutput (eq_true_of_ne_false houtput)
      exact hprint v rfl rfl
  · rename_i c
    cases List.mem_singleton.mp h
    exact c.isOutput_diagnostic

namespace Account

theorem isOutput_of_mem_diagnostics {α : Type} {account : Account α} {d : Diagnostic}
    (h : d ∈ Notice.diagnostics account.notices) : d.isOutput = false := by
  obtain ⟨event, -, hevent⟩ := List.mem_flatMap.mp (Notice.mem_diagnostics.mp h)
  exact event.isOutput_of_mem hevent

/-! ## The same run on any sink -/

variable (account : Account (Environment × Value))

/-- On whatever sink, an account comes to its result and to the diagnostics in it, and besides these to failures
of output only. -/
theorem withoutOutput_evaluation (sink : σ) :
    (account.evaluation sink).1.withoutOutput =
      ⟨account.result.2, account.result.1, Notice.diagnostics account.notices⟩ := by
  have hperformed := Notice.filter_performAll account.notices ⟨sink, #[]⟩
  have hown : (Notice.diagnostics account.notices).filter (!·.isOutput) = Notice.diagnostics account.notices := by
    refine List.filter_eq_self.mpr fun d hd => ?_
    rw [account.isOutput_of_mem_diagnostics hd]
    rfl
  rw [List.nil_append, hown] at hperformed
  have hflush : (Eval.flush (Notice.performAll account.notices ⟨sink, #[]⟩)).2.diagnostics.toList.filter
      (!·.isOutput) = Notice.diagnostics account.notices := by
    unfold Eval.flush
    split
    · exact hperformed
    · rw [Array.toList_push, List.filter_append, hperformed]
      exact List.append_nil _
  simp only [evaluation, Evaluation.withoutOutput, performAll_eq_performAll_flatMap]
  rw [← notices, hflush]

/-- **Run lemma.** So do accounts one behind the other. -/
theorem map_withoutOutput_evaluations (accounts : List (Account (Environment × Value))) (sink : σ) :
    (evaluations accounts sink).1.map Evaluation.withoutOutput =
      accounts.map fun account =>
        ⟨account.result.2, account.result.1, Notice.diagnostics account.notices⟩ := by
  induction accounts generalizing sink with
  | nil => rfl
  | cons account rest ih =>
      simp only [evaluations, List.map_cons, withoutOutput_evaluation, ih]

theorem evaluation_of_takesAll {sink : Sink} (hsink : sink.TakesAll) :
    account.evaluation sink =
      (⟨account.result.2, account.result.1, Notice.diagnostics account.notices⟩,
        sink.wrote (Notice.printedBytes account.notices)) := by
  obtain ⟨hwrote, hdiagnostics⟩ := Notice.performAll_of_takesAll account.notices (s := ⟨sink, #[]⟩) hsink
  have hflush : (Notice.performAll account.notices ⟨sink, #[]⟩).sink.flushFails = false := by
    rw [hwrote]
    exact hsink.flushFails_eq
  simp only [evaluation, performAll_eq_performAll_flatMap]
  rw [← notices, Eval.flush_eq hflush, hwrote, hdiagnostics]
  rfl

theorem evaluation_limited (limit : Nat) (bytes : ByteArray) :
    account.evaluation (Sink.cut limit bytes) =
      (⟨account.result.2, account.result.1, Notice.diagnosticsWithin limit bytes.size account.notices⟩,
        .cut limit (bytes ++ Notice.printedBytes account.notices)) := by
  obtain ⟨hcut, hdiagnostics⟩ := Notice.performAll_limited limit account.notices bytes #[]
  have hflush : (Notice.performAll account.notices ⟨Sink.cut limit bytes, #[]⟩).sink.flushFails = false := by
    rw [hcut]
    rfl
  simp only [evaluation, performAll_eq_performAll_flatMap]
  rw [← notices, Eval.flush_eq hflush, hcut, hdiagnostics]
  rfl

/-- **Run lemma.** On a sink that takes everything programs write all their lines. -/
theorem evaluations_of_takesAll (accounts : List (Account (Environment × Value))) {sink : Sink}
    (hsink : sink.TakesAll) :
    evaluations accounts sink =
      (accounts.map fun account =>
        ⟨account.result.2, account.result.1, Notice.diagnostics account.notices⟩,
        sink.wrote (Notice.printedBytes (accounts.flatMap notices))) := by
  induction accounts generalizing sink with
  | nil => exact congrArg (Prod.mk []) sink.wrote_empty.symm
  | cons account rest ih =>
      simp only [evaluations, evaluation_of_takesAll account hsink, ih (hsink.wrote _), List.map_cons,
        List.flatMap_cons, Notice.printedBytes_append, Sink.wrote_wrote]

/-- **Run lemma.** On a sink with room for so many bytes the lines are cut, and that is all. -/
theorem evaluations_limited (accounts : List (Account (Environment × Value))) (limit : Nat)
    (bytes : ByteArray) :
    let limited := evaluations accounts (Sink.cut limit bytes)
    limited.1.map Evaluation.diagnostics =
        Notice.diagnosticsWithinAll limit bytes.size (accounts.map notices) ∧
      limited.2 = .cut limit (bytes ++ Notice.printedBytes (accounts.flatMap notices)) := by
  induction accounts generalizing bytes with
  | nil => exact ⟨rfl, congrArg (Sink.cut limit) ByteArray.append_empty.symm⟩
  | cons account rest ih =>
      obtain ⟨hdiagnostics, hsink⟩ := ih (bytes ++ Notice.printedBytes account.notices)
      simp only [evaluations, evaluation_limited, List.map_cons, hdiagnostics, hsink,
        List.flatMap_cons, Notice.printedBytes_append, Notice.diagnosticsWithinAll, ByteArray.append_assoc,
        ByteArray.size_append, and_self]

end Account

/-- **Any sink.** What programs come to does not depend on what they write to, but for the failures of output. -/
theorem Program.runAll_withoutOutput_eq {τ : Type} [Writable τ] (config : Config) (programs : List Program)
    (env : Environment) (sink : σ) (other : τ) :
    (runAll config programs env sink).1.map Evaluation.withoutOutput =
      (runAll config programs env other).1.map Evaluation.withoutOutput := by
  rw [runAll_eq_evaluations, runAll_eq_evaluations, Account.map_withoutOutput_evaluations,
    Account.map_withoutOutput_evaluations]

/-- **A failing sink changes nothing but the output.** Let programs be run one behind the other, once on a sink
that takes everything and once on one with room for `limit` bytes. The values and the environments are
the same, and so are the diagnostics, but for those of output. Of what would be written the first `limit`
bytes are. There is one failure of output for each line whose last byte lies beyond the limit, and it is
recorded in place of the line. -/
theorem Program.runAll_limited (config : Config) (programs : List Program) (env : Environment)
    (limit : Nat) :
    let full := runAll config programs env Sink.unlimited
    let limited := runAll config programs env (⟨.empty, some limit, false⟩ : Sink)
    let transcripts := (accounts config programs env).map Account.notices
    (limited.1.map Evaluation.value = full.1.map Evaluation.value ∧
      limited.1.map Evaluation.env = full.1.map Evaluation.env ∧
      (limited.1.map fun r => r.diagnostics.filter (!·.isOutput)) =
        full.1.map fun r => r.diagnostics.filter (!·.isOutput)) ∧
    limited.2.written = full.2.written.extract 0 (min limit full.2.written.size) ∧
    (full.2.written = Notice.printedBytes transcripts.flatten ∧
      full.1.map Evaluation.diagnostics = transcripts.map Notice.diagnostics ∧
      ∀ r ∈ full.1, ∀ d ∈ r.diagnostics, d.isOutput = false) ∧
    limited.1.map Evaluation.diagnostics = Notice.diagnosticsWithinAll limit 0 transcripts := by
  intro full limited transcripts
  have hfull : full = _ := (runAll_eq_evaluations config programs env Sink.unlimited).trans
    (Account.evaluations_of_takesAll _ Sink.takesAll_unlimited)
  have hlimited : limited = Account.evaluations (accounts config programs env) (Sink.cut limit .empty) := by
    rw [Sink.cut_empty]
    exact runAll_eq_evaluations config programs env _
  obtain ⟨hdiagnostics, hsink⟩ :=
    Account.evaluations_limited (accounts config programs env) limit .empty
  rw [← hlimited, ByteArray.empty_append] at hsink
  rw [← hlimited] at hdiagnostics
  have hbytes : full.2.written = Notice.printedBytes transcripts.flatten := by
    rw [hfull, ← List.flatMap_def]
    exact ByteArray.empty_append
  have hsame : limited.1.map Evaluation.withoutOutput = full.1.map Evaluation.withoutOutput :=
    runAll_withoutOutput_eq config programs env _ _
  have hpart : ∀ {α : Type} (part : Evaluation → α),
      limited.1.map (part ∘ Evaluation.withoutOutput) = full.1.map (part ∘ Evaluation.withoutOutput) := by
    intro α part
    rw [← List.map_map, ← List.map_map, hsame]
  refine ⟨⟨hpart Evaluation.value, hpart Evaluation.env, hpart Evaluation.diagnostics⟩, ?_, ⟨hbytes, ?_, ?_⟩,
    hdiagnostics⟩
  · rw [hsink, hbytes, List.flatMap_def]
    exact Sink.written_cut limit _
  · rw [hfull, List.map_map, List.map_map]
    rfl
  · rw [hfull]
    intro r hr d hd
    obtain ⟨account, -, rfl⟩ := List.mem_map.mp hr
    exact account.isOutput_of_mem_diagnostics hd

/-- A line of three bytes is all that there is room for. The shorter one behind it is not printed. -/
example : Notice.diagnosticsWithin 3 0 [.printed "12", .printed "3"] = [.output .full] := rfl

end Mapsto
