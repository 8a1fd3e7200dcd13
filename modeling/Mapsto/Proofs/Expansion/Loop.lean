import Mapsto.Proofs.Expansion.DepthFirst

/-!
# `Mapsto.Proofs.Expansion.Loop` — expansion as a loop over one growing list

Here expansion is a loop with an index into one list of lines. Lines in front of the index stay. A round
of the loop looks at the line at the index: a line that is no instruction stays, and the index moves on;
an instruction is taken out, and the lines of the file that it includes are put in its place, where the
next round finds them (`Loop.round`). The files that were put in are noted down.

The list grows while it is gone through, so the index alone does not tell how far the loop has got. Every
round takes a line off those that may still come to stand at the index or behind it: these are the lines
that stand there now, and the lines of all files that were not visited (`Loop.run_eq_expandLines`). So
the loop ends, and what it ends with is the expansion (`Loop.run_start`).
-/

namespace Mapsto.Expansion

open Text

/-- The loop between two rounds. -/
structure Loop where
  /-- All lines, those that stay and those that were not looked at. -/
  lines : List Line
  /-- Where the next line to be looked at stands. -/
  index : Nat
  /-- The files of which the lines were put in, the last one first. -/
  spliced : List String

namespace Loop

/-- What a loop comes to. -/
inductive Status where
  | running (loop : Loop)
  | ended (loop : Loop)
  /-- An instruction could not be carried out. -/
  | failed (e : ExpansionError) (loop : Loop)

/-- Where the loop stands, or stood when it stopped. -/
def Status.loop : Status → Loop
  | running loop => loop
  | ended loop => loop
  | failed _ loop => loop

/-- The texts of the lines that the loop leaves, or the error that it stops with, once it has stopped. -/
def Status.result? : Status → Option (Except ExpansionError (List (List Char)))
  | running _ => none
  | ended loop => some (.ok (loop.lines.map Line.text))
  | failed e _ => some (.error e)

/-- A round of the loop. A file counts as visited if it was put in, or if it is `home`, the file that the
text was read from. -/
def round (disk : Disk) (home : Option String) (loop : Loop) : Status :=
  match loop.lines[loop.index]? with
  | none => .ended loop
  | some line =>
    if Directive.isDirective line.text then
      let others := loop.lines.eraseIdx loop.index
      match splice disk (loop.spliced ++ home.toList) line with
      | .error cause => .failed ⟨line.origin, line.number, cause⟩ { loop with lines := others }
      | .ok none => .running { loop with lines := others }
      | .ok (some (path, included)) =>
        .running { loop with
          lines := others.take loop.index ++ included ++ others.drop loop.index
          spliced := path :: loop.spliced }
    else .running { loop with index := loop.index + 1 }

/-- So many rounds, or fewer if the loop stops before. -/
def run (disk : Disk) (home : Option String) : (rounds : Nat) → Loop → Status
  | 0, loop => .running loop
  | rounds + 1, loop =>
    match loop.round disk home with
    | .running loop => loop.run disk home rounds
    | stopped => stopped

/-- The loop in front of the first line of a text. -/
def start (source origin : String) : Loop := ⟨numbered origin (Text.lines source.toList), 0, []⟩

/-! ## One round -/

/-- The loop where some lines stay and others were not looked at. -/
def between (kept pending : List Line) (spliced : List String) : Loop :=
  ⟨kept ++ pending, kept.length, spliced⟩

variable {disk : Disk} {home : Option String}

/-- Behind the last line the loop ends. -/
theorem round_between_nil (kept : List Line) (spliced : List String) :
    (between kept [] spliced).round disk home = .ended (between kept [] spliced) := by
  have hnone : (between kept [] spliced).lines[(between kept [] spliced).index]? = none := by
    simp [between]
  unfold round
  rw [hnone]

/-- **Step lemma.** A round does what the line asks for that was not looked at. -/
theorem round_between_cons (kept : List Line) (line : Line) (rest : List Line) (spliced : List String) :
    (between kept (line :: rest) spliced).round disk home =
      match request disk (spliced ++ home.toList) line.origin line.text with
      | .keep => .running (between (kept ++ [line]) rest spliced)
      | .nothing => .running (between kept rest spliced)
      | .bad cause => .failed ⟨line.origin, line.number, cause⟩ (between kept rest spliced)
      | .file path texts => .running (between kept (numbered path texts ++ rest) (path :: spliced)) := by
  have hline : (between kept (line :: rest) spliced).lines[(between kept (line :: rest) spliced).index]? =
      some line := by
    simp [between]
  have hothers : (kept ++ line :: rest).eraseIdx kept.length = kept ++ rest := by
    rw [List.eraseIdx_append_of_length_le (Nat.le_refl _), Nat.sub_self, List.eraseIdx_cons_zero]
  unfold round
  rw [hline]
  by_cases hdirective : Directive.isDirective line.text = true
  · simp only [if_pos hdirective, between, hothers]
    rw [splice_of_request disk _ line hdirective]
    cases hrequest : request disk (spliced ++ home.toList) line.origin line.text with
    | keep => exact absurd hdirective (request_eq_keep_iff.mp hrequest)
    | nothing => rfl
    | bad cause => rfl
    | file path texts => simp only [List.take_left, List.drop_left, List.append_assoc]
  · simp only [if_neg hdirective, request_eq_keep_iff.mpr hdirective, between, List.append_assoc,
      List.singleton_append, List.length_append, List.length_singleton]

theorem run_succ_of_running {rounds : Nat} {loop next : Loop} (h : loop.round disk home = .running next) :
    loop.run disk home (rounds + 1) = next.run disk home rounds := by
  rw [run, h]

/-! ## All rounds -/

/-- **The loop ends.** After as many rounds as lines may still come to be looked at, and one more in which
there is none, it has stopped. It leaves the lines that stayed before, and behind them the expansion of
the others. -/
theorem run_eq_expandLines (rounds : Nat) (kept pending : List Line) (spliced : List String)
    (hrounds : pending.length + remaining (spliced ++ home.toList) disk.entries < rounds) :
    ((between kept pending spliced).run disk home rounds).result? =
      some ((expandLines disk (spliced ++ home.toList) pending).map (kept.map Line.text ++ ·)) := by
  induction rounds generalizing kept pending spliced with
  | zero => exact absurd hrounds (Nat.not_lt_zero _)
  | succ rounds ih =>
      cases pending with
      | nil =>
          rw [run, round_between_nil, expandLines]
          simp only [Status.result?, between, List.append_nil, Except.map]
      | cons line rest =>
          rw [List.length_cons] at hrounds
          have hround : (between kept (line :: rest) spliced).round disk home = _ :=
            round_between_cons kept line rest spliced
          rw [expandLines_cons]
          cases hrequest : request disk (spliced ++ home.toList) line.origin line.text with
          | keep =>
              rw [hrequest] at hround
              rw [run_succ_of_running hround, ih _ _ _ (by omega), List.map_append]
              cases expandLines disk (spliced ++ home.toList) rest with
              | error e => rfl
              | ok texts => simp only [Except.map, resume, List.append_assoc, List.map_cons, List.map_nil,
                  List.singleton_append]
          | nothing =>
              rw [hrequest] at hround
              exact (congrArg Status.result? (run_succ_of_running hround)).trans (ih _ _ _ (by omega))
          | bad cause =>
              rw [hrequest] at hround
              rw [run, hround]
              rfl
          | file path texts =>
              rw [hrequest] at hround
              have hle := remaining_of_request hrequest
              have hlength : (numbered path texts ++ rest).length = texts.length + rest.length := by
                rw [List.length_append, numbered, List.length_mapIdx]
              rw [run_succ_of_running hround, ih _ _ _ (by rw [hlength, List.cons_append]; omega),
                List.cons_append, numbered_eq_numberedFrom]

/-- A condition on loops that every round keeps, whatever the line asks for. -/
def Invariant (disk : Disk) (home : Option String) (P : List Line → List Line → List String → Prop) : Prop :=
  ∀ kept line rest spliced, P kept (line :: rest) spliced →
    match request disk (spliced ++ home.toList) line.origin line.text with
    | .keep => P (kept ++ [line]) rest spliced
    | .nothing => P kept rest spliced
    | .bad _ => P kept rest spliced
    | .file path texts => P kept (numbered path texts ++ rest) (path :: spliced)

/-- Two conditions are kept together. -/
theorem Invariant.and {P Q : List Line → List Line → List String → Prop} (hP : Invariant disk home P)
    (hQ : Invariant disk home Q) :
    Invariant disk home fun kept pending spliced => P kept pending spliced ∧ Q kept pending spliced := by
  rintro kept line rest spliced ⟨hp, hq⟩
  have hp' := hP kept line rest spliced hp
  have hq' := hQ kept line rest spliced hq
  cases hrequest : request disk (spliced ++ home.toList) line.origin line.text with
  | keep | nothing | bad cause | file path texts =>
      rw [hrequest] at hp' hq'
      exact ⟨hp', hq'⟩

/-- What every round keeps holds after any number of rounds, and where the loop has ended no line is
left. -/
theorem Invariant.run {P : List Line → List Line → List String → Prop} (hP : Invariant disk home P)
    (rounds : Nat) {kept pending : List Line} {spliced : List String} (h : P kept pending spliced) :
    ∃ kept' pending' spliced',
      ((between kept pending spliced).run disk home rounds).loop = between kept' pending' spliced' ∧
        P kept' pending' spliced' ∧
        ∀ loop, (between kept pending spliced).run disk home rounds = .ended loop → pending' = [] := by
  induction rounds generalizing kept pending spliced with
  | zero => exact ⟨kept, pending, spliced, rfl, h, nofun⟩
  | succ rounds ih =>
      cases pending with
      | nil =>
          refine ⟨kept, [], spliced, ?_, h, fun _ _ => rfl⟩
          rw [Loop.run, round_between_nil]
          rfl
      | cons line rest =>
          have hround : (between kept (line :: rest) spliced).round disk home = _ :=
            round_between_cons kept line rest spliced
          have hstep := hP kept line rest spliced h
          cases hrequest : request disk (spliced ++ home.toList) line.origin line.text with
          | keep | nothing | file path texts =>
              rw [hrequest] at hround hstep
              rw [run_succ_of_running hround]
              exact ih hstep
          | bad cause =>
              -- The instruction is taken out, and the loop stops there.
              rw [hrequest] at hround hstep
              rw [Loop.run, hround]
              exact ⟨kept, rest, spliced, rfl, hstep, nofun⟩

/-! ## Whole texts -/

/-- So many rounds are enough for a text: one for each of its lines, one for each line of the files there
are, and one in which no line is left. -/
def roundsFor (disk : Disk) (source : String) : Nat :=
  (Text.lines source.toList).length + remaining [] disk.entries + 1

/-- **The loop is expansion.** It stops, and comes to what the text is expanded to. -/
theorem run_start (disk : Disk) (source origin : String) :
    let status := (start source origin).run disk (disk.canonical? origin) (roundsFor disk source)
    status.result?.map (Except.map fun texts => String.ofList texts.flatten) =
      some (expand disk source origin) := by
  intro status
  have hle := remaining_le_of_subset (List.nil_subset (disk.canonical? origin).toList) disk.entries
  have hrounds : (numbered origin (Text.lines source.toList)).length +
      remaining ([] ++ (disk.canonical? origin).toList) disk.entries < roundsFor disk source := by
    rw [numbered, List.length_mapIdx, List.nil_append, roundsFor]
    omega
  have hrun : status.result? = _ :=
    run_eq_expandLines _ [] (numbered origin (Text.lines source.toList)) [] hrounds
  rw [hrun]
  simp only [List.map_nil, List.nil_append, expand]
  cases expandLines disk (disk.canonical? origin).toList (numbered origin (Text.lines source.toList)) with
  | ok texts => rfl
  | error e => rfl

end Loop

end Mapsto.Expansion
