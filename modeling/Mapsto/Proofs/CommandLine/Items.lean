import Mathlib.Data.List.Induction
import Mapsto.CommandLine

/-!
# `Mapsto.Proofs.CommandLine.Items` — what a command line says

A command line that asks for a run is a list of items: depth settings, each in one of two spellings, and
files. What it says is read off the items. If every value of a depth setting is a count and one file is named
at most, the last setting and the file count (`settings`); otherwise the first item that is wrong behind the
ones in front of it decides (`FirstMistake`).

`CommandLine.parseFrom` has one or two arguments to take for an item, and takes what follows
`--max-call-depth` as its value whatever it looks like. So it keeps step with the items: where it has taken
those of a sound list, it has their settings, and the next item changes these or ends the run
(`parseFrom_item`). From this follow the run through a list (`parseFrom_written`) and what it comes to
(`parse_spelled`): the spellings make no difference, and neither does the place of the file among settings.
-/

namespace Mapsto.CommandLine

/-! ## Items -/

/-- An argument that names a file: it does not start with a dash, or it is a lone dash. -/
structure FileArgument where
  text : String
  not_option : text.toList.head? ≠ some '-' ∨ text = "-"

/-- A part of a command line. -/
inductive Item where
  | depth (value : String)
  | file (argument : FileArgument)

/-- How a depth setting is written. -/
inductive Spelling where
  /-- The option and then the value, as in `--max-call-depth 8`. -/
  | apart
  /-- Option and value in one, as in `--max-call-depth=8`. -/
  | joined

/-- The arguments that an item is written as. There is one way to name a file. -/
def Item.arguments : Item → Spelling → List String
  | depth value, .apart => [depthOption, value]
  | depth value, .joined => [depthOption ++ "=" ++ value]
  | file argument, _ => [argument.text]

/-- The arguments that items are written as, each in its spelling. -/
def written (spelled : List (Item × Spelling)) : List String :=
  spelled.flatMap fun x => x.1.arguments x.2

/-- The value of a depth setting. -/
def Item.depth? : Item → Option String
  | depth value => some value
  | file _ => none

/-- The name of a file. -/
def Item.file? : Item → Option String
  | depth _ => none
  | file argument => some argument.text

/-- The values of the depth settings among items. -/
def depths (items : List Item) : List String := items.filterMap Item.depth?

/-- The files among items. -/
def files (items : List Item) : List String := items.filterMap Item.file?

/-- The arguments that ask for something else than a run. -/
def flags : List (String × Command) :=
  [("-h", .help), ("--help", .help), ("-V", .version), ("--version", .version)]

/-! ## What items say -/

/-- Nothing is wrong with items. -/
structure Sound (items : List Item) : Prop where
  counts : ∀ value ∈ depths items, (Decimal.readCount value).isSome = true
  oneFile : (files items).length ≤ 1

/-- What sound items ask for: the depth that was set last, and the file. -/
def settings (items : List Item) : Options where
  maxCallDepth := ((depths items).getLast?.bind Decimal.readCount).getD 256
  file := (files items).head?

/-- What is wrong with an item behind others: its value is no count, or a file was named before. -/
def Item.mistake? (before : List Item) : Item → Option OptionsError
  | depth value =>
    if (Decimal.readCount value).isSome then none else some (.invalidValue depthOption value)
  | file argument => if files before = [] then none else some (.extraFile argument.text)

/-- The first item with a mistake has this one. -/
def FirstMistake (items : List Item) (e : OptionsError) : Prop :=
  ∃ before item after, items = before ++ item :: after ∧ Sound before ∧ item.mistake? before = some e

theorem depths_append (items more : List Item) : depths (items ++ more) = depths items ++ depths more :=
  List.filterMap_append

theorem files_append (items more : List Item) : files (items ++ more) = files items ++ files more :=
  List.filterMap_append

@[simp] theorem depths_concat_depth (before : List Item) (value : String) :
    depths (before ++ [.depth value]) = depths before ++ [value] := depths_append before _

@[simp] theorem files_concat_depth (before : List Item) (value : String) :
    files (before ++ [.depth value]) = files before :=
  (files_append before _).trans (List.append_nil _)

@[simp] theorem depths_concat_file (before : List Item) (argument : FileArgument) :
    depths (before ++ [.file argument]) = depths before :=
  (depths_append before _).trans (List.append_nil _)

@[simp] theorem files_concat_file (before : List Item) (argument : FileArgument) :
    files (before ++ [.file argument]) = files before ++ [argument.text] := files_append before _

theorem Item.mistake?_depth_eq_none_iff {before : List Item} {value : String} :
    (Item.depth value).mistake? before = none ↔ (Decimal.readCount value).isSome = true := by
  by_cases h : (Decimal.readCount value).isSome = true <;> simp [Item.mistake?, h]

theorem Item.mistake?_file_eq_none_iff {before : List Item} {argument : FileArgument} :
    (Item.file argument).mistake? before = none ↔ files before = [] := by
  simp [Item.mistake?]

theorem sound_nil : Sound [] := ⟨nofun, Nat.zero_le 1⟩

/-- Sound items stay sound exactly if the item that comes behind them has no mistake there. -/
theorem sound_concat_iff {before : List Item} {item : Item} :
    Sound (before ++ [item]) ↔ Sound before ∧ item.mistake? before = none := by
  cases item with
  | depth value =>
      rw [Item.mistake?_depth_eq_none_iff]
      constructor
      · rintro ⟨hcounts, hfile⟩
        rw [depths_concat_depth, List.forall_mem_append, List.forall_mem_singleton] at hcounts
        rw [files_concat_depth] at hfile
        exact ⟨⟨hcounts.1, hfile⟩, hcounts.2⟩
      · rintro ⟨⟨hcounts, hfile⟩, hvalue⟩
        constructor
        · rw [depths_concat_depth, List.forall_mem_append, List.forall_mem_singleton]
          exact ⟨hcounts, hvalue⟩
        · rw [files_concat_depth]
          exact hfile
  | file argument =>
      rw [Item.mistake?_file_eq_none_iff]
      constructor
      · rintro ⟨hcounts, hfile⟩
        rw [depths_concat_file] at hcounts
        rw [files_concat_file, List.length_append, List.length_singleton] at hfile
        have hnone : files before = [] := List.eq_nil_of_length_eq_zero (by omega)
        exact ⟨⟨hcounts, by omega⟩, hnone⟩
      · rintro ⟨⟨hcounts, -⟩, hnone⟩
        constructor
        · rw [depths_concat_file]
          exact hcounts
        · rw [files_concat_file, hnone]
          exact Nat.le_refl 1

/-- The items in front of others in a sound list are sound. -/
theorem Sound.of_append {items more : List Item} (h : Sound (items ++ more)) : Sound items := by
  obtain ⟨hcounts, hfile⟩ := h
  rw [depths_append, List.forall_mem_append] at hcounts
  rw [files_append, List.length_append] at hfile
  exact ⟨hcounts.1, Nat.le_of_add_right_le hfile⟩

/-- Items are sound, or there is a first one with a mistake. -/
theorem sound_or_firstMistake (items : List Item) : Sound items ∨ ∃ e, FirstMistake items e := by
  induction items using List.reverseRecOn with
  | nil => exact .inl sound_nil
  | append_singleton before item ih =>
      rcases ih with hbefore | ⟨e, first, wrong, after, rfl, hfirst, hwrong⟩
      · cases hitem : item.mistake? before with
        | none => exact .inl (sound_concat_iff.mpr ⟨hbefore, hitem⟩)
        | some e => exact .inr ⟨e, before, item, [], rfl, hbefore, hitem⟩
      · refine .inr ⟨e, first, wrong, after ++ [item], ?_, hfirst, hwrong⟩
        rw [List.append_assoc, List.cons_append]

/-! ## Single arguments -/

/-- The value of a depth setting that is written as one argument. -/
theorem depthValue?_joined (value : String) : depthValue? (depthOption ++ "=" ++ value) = some value := by
  have htext : (depthOption ++ "=" ++ value).toList = (depthOption.toList ++ ['=']) ++ value.toList := by
    rw [String.toList_append, String.toList_append]
    rfl
  unfold depthValue?
  simp only [htext, List.isPrefixOf_iff_prefix.mpr (List.prefix_append _ _), List.drop_left, if_true,
    String.ofList_toList]

/-- A depth setting that is written as one argument is no other option. -/
theorem joined_ne (value : String) :
    ∀ option ∈ depthOption :: flags.map Prod.fst, depthOption ++ "=" ++ value ≠ option := by
  have hnone : ∀ option ∈ depthOption :: flags.map Prod.fst,
      ¬ depthOption.toList ++ ['='] <+: option.toList := by decide
  rintro option hoption rfl
  refine hnone _ hoption ?_
  rw [String.toList_append, String.toList_append]
  exact List.prefix_append _ _

/-- A file is no option, and is not taken for one. -/
theorem FileArgument.ne (argument : FileArgument) :
    (∀ option ∈ depthOption :: flags.map Prod.fst, argument.text ≠ option) ∧
      depthValue? argument.text = none ∧ looksLikeOption argument.text = false := by
  obtain ⟨text, htext | rfl⟩ := argument
  · have hdash : ∀ option ∈ depthOption :: flags.map Prod.fst, option.toList.head? = some '-' := by decide
    refine ⟨?_, if_neg ?_, ?_⟩
    · rintro option hoption rfl
      exact htext (hdash _ hoption)
    · intro hprefix
      obtain ⟨behind, hbehind⟩ := List.isPrefixOf_iff_prefix.mp hprefix
      exact htext (hbehind ▸ rfl)
    · unfold looksLikeOption
      split
      · rename_i h
        exact absurd (congrArg List.head? h) htext
      · rfl
  · exact ⟨by decide, by decide, by decide⟩

/-! ## Taking arguments -/

theorem parseFrom_flag {flag : String × Command} (h : flag ∈ flags) (options : Options)
    (rest : List String) : parseFrom options (flag.1 :: rest) = .ok flag.2 := by
  simp only [flags, List.mem_cons, List.not_mem_nil, or_false] at h
  unfold parseFrom
  rcases h with rfl | rfl | rfl | rfl <;> rfl

/-- Behind the option, anything is taken as its value. -/
theorem parseFrom_depthOption (options : Options) (value : String) (rest : List String) :
    parseFrom options (depthOption :: value :: rest) =
      match readDepth value with
      | .error e => .error e
      | .ok n => parseFrom { options with maxCallDepth := n } rest := by
  conv_lhs => unfold parseFrom
  exact (if_neg (by decide)).trans ((if_neg (by decide)).trans (if_pos rfl))

/-- Any other argument is a depth setting, or wrong, or names a file. -/
theorem parseFrom_of_ne {argument : String}
    (h : ∀ option ∈ depthOption :: flags.map Prod.fst, argument ≠ option) (options : Options)
    (rest : List String) :
    parseFrom options (argument :: rest) =
      match depthValue? argument with
      | some value =>
        match readDepth value with
        | .error e => .error e
        | .ok n => parseFrom { options with maxCallDepth := n } rest
      | none =>
        if looksLikeOption argument then .error (.unknownOption argument)
        else if options.file.isSome then .error (.extraFile argument)
        else parseFrom { options with file := some argument } rest := by
  simp only [flags, List.map_cons, List.map_nil, List.forall_mem_cons] at h
  obtain ⟨hdepth, hh, hhelp, hv, hversion, -⟩ := h
  conv_lhs => unfold parseFrom
  exact (if_neg (not_or.mpr ⟨hh, hhelp⟩)).trans ((if_neg (not_or.mpr ⟨hv, hversion⟩)).trans (if_neg hdepth))

/-- **One item.** The arguments of an item add it to the settings of the items before it, or end the run with
what is wrong with it. -/
theorem parseFrom_item (before : List Item) (item : Item) (spelling : Spelling) (rest : List String) :
    parseFrom (settings before) (item.arguments spelling ++ rest) =
      match item.mistake? before with
      | some e => .error e
      | none => parseFrom (settings (before ++ [item])) rest := by
  cases item with
  | depth value =>
      have hread : parseFrom (settings before) ((Item.depth value).arguments spelling ++ rest) =
          match readDepth value with
          | .error e => .error e
          | .ok n => parseFrom { settings before with maxCallDepth := n } rest := by
        cases spelling with
        | apart => exact parseFrom_depthOption _ value rest
        | joined =>
            refine (parseFrom_of_ne (joined_ne value) _ rest).trans ?_
            rw [depthValue?_joined]
      rw [hread]
      cases hcount : Decimal.readCount value with
      | none =>
          simp only [readDepth, Item.mistake?, hcount]
          rfl
      | some n =>
          have hsettings : settings (before ++ [.depth value]) =
              { settings before with maxCallDepth := n } := by
            simp only [settings, depths_concat_depth, files_concat_depth, List.getLast?_concat,
              Option.bind_some, hcount, Option.getD_some]
          simp only [readDepth, Item.mistake?, hcount, hsettings]
          rfl
  | file argument =>
      obtain ⟨hne, hvalue, hoption⟩ := argument.ne
      refine (parseFrom_of_ne hne _ rest).trans ?_
      rw [hvalue, hoption]
      unfold Item.mistake?
      cases hfiles : files before with
      | nil =>
          have hsettings : settings (before ++ [.file argument]) =
              { settings before with file := some argument.text } := by
            simp only [settings, depths_concat_file, files_concat_file, hfiles, List.nil_append,
              List.head?_cons]
          have hfile : (settings before).file = none := congrArg List.head? hfiles
          rw [hsettings, hfile]
          rfl
      | cons file more =>
          have hfile : (settings before).file = some file := congrArg List.head? hfiles
          rw [hfile]
          rfl

/-- **A run through items.** The arguments of sound items add all of them to the settings. -/
theorem parseFrom_written (before : List Item) (spelled : List (Item × Spelling)) (rest : List String)
    (h : Sound (before ++ spelled.map Prod.fst)) :
    parseFrom (settings before) (written spelled ++ rest) =
      parseFrom (settings (before ++ spelled.map Prod.fst)) rest := by
  induction spelled generalizing before with
  | nil =>
      rw [List.map_nil, List.append_nil]
      rfl
  | cons x spelled ih =>
      obtain ⟨item, spelling⟩ := x
      rw [List.map_cons, List.append_cons] at h ⊢
      obtain ⟨-, hitem⟩ := sound_concat_iff.mp h.of_append
      have hwritten : written ((item, spelling) :: spelled) = item.arguments spelling ++ written spelled :=
        List.flatMap_cons
      rw [hwritten, List.append_assoc, parseFrom_item, hitem]
      exact ih _ h

/-- The arguments behind those of sound items are taken with their settings. -/
theorem parse_of_sound {spelled : List (Item × Spelling)} (h : Sound (spelled.map Prod.fst))
    (rest : List String) :
    parse (written spelled ++ rest) = parseFrom (settings (spelled.map Prod.fst)) rest :=
  parseFrom_written [] spelled rest h

/-- The arguments behind an item with a mistake are not looked at. -/
theorem parse_of_firstMistake {spelled : List (Item × Spelling)} {e : OptionsError}
    (h : FirstMistake (spelled.map Prod.fst) e) (rest : List String) :
    parse (written spelled ++ rest) = .error e := by
  obtain ⟨before, item, after, hsplit, hbefore, hitem⟩ := h
  obtain ⟨front, behind, rfl, rfl, hbehind⟩ := List.map_eq_append_iff.mp hsplit
  obtain ⟨⟨item, spelling⟩, more, rfl, rfl, rfl⟩ := List.map_eq_cons_iff.mp hbehind
  have hwritten : written (front ++ (item, spelling) :: more) =
      written front ++ (item.arguments spelling ++ written more) := by
    rw [written, List.flatMap_append, List.flatMap_cons]
    rfl
  rw [hwritten, List.append_assoc, List.append_assoc, parse_of_sound hbefore, parseFrom_item, hitem]

/-! ## Whole command lines -/

/-- A command line says what its items say. -/
structure Faithful (spelled : List (Item × Spelling)) : Prop where
  /-- Sound items ask for a run with their settings. -/
  run : Sound (spelled.map Prod.fst) →
    parse (written spelled) = .ok (.run (settings (spelled.map Prod.fst)))
  /-- Of other items, the first one with a mistake decides. -/
  mistake : ¬ Sound (spelled.map Prod.fst) →
    ∃ e, FirstMistake (spelled.map Prod.fst) e ∧ parse (written spelled) = .error e
  /-- Help and version are given if the items in front are sound, whatever is behind. If they are not, the
  first one with a mistake decides. -/
  flag : ∀ flag ∈ flags, ∀ rest,
    (parse (written spelled ++ flag.1 :: rest) = .ok flag.2 ↔ Sound (spelled.map Prod.fst)) ∧
      (¬ Sound (spelled.map Prod.fst) → parse (written spelled ++ flag.1 :: rest) = parse (written spelled))
  /-- How the items are spelled makes no difference. -/
  spelling : ∀ spelled', spelled'.map Prod.fst = spelled.map Prod.fst →
    parse (written spelled') = parse (written spelled)
  /-- Nor does it matter where the file of sound items stands among their depth settings. -/
  place : Sound (spelled.map Prod.fst) → ∀ spelled',
    depths (spelled'.map Prod.fst) = depths (spelled.map Prod.fst) →
    files (spelled'.map Prod.fst) = files (spelled.map Prod.fst) →
    parse (written spelled') = parse (written spelled)

theorem parse_written_of_sound {spelled : List (Item × Spelling)} (h : Sound (spelled.map Prod.fst)) :
    parse (written spelled) = .ok (.run (settings (spelled.map Prod.fst))) := by
  have hparse := parse_of_sound h []
  rw [List.append_nil] at hparse
  exact hparse

theorem parse_written_of_firstMistake {spelled : List (Item × Spelling)} {e : OptionsError}
    (h : FirstMistake (spelled.map Prod.fst) e) : parse (written spelled) = .error e := by
  have hparse := parse_of_firstMistake h []
  rw [List.append_nil] at hparse
  exact hparse

/-- **Command lines mean their items.** However its items are spelled, a command line asks for a run with the
depth that is set last and the file, or complains about the first item with a mistake; and help or version
is what it asks for exactly if none of the items in front of the flag has one. -/
theorem parse_spelled (spelled : List (Item × Spelling)) : Faithful spelled := by
  constructor
  case run => exact parse_written_of_sound
  case mistake =>
    intro hno
    obtain ⟨e, he⟩ := (sound_or_firstMistake _).resolve_left hno
    exact ⟨e, he, parse_written_of_firstMistake he⟩
  case flag =>
    intro flag hflag rest
    by_cases hsound : Sound (spelled.map Prod.fst)
    · rw [parse_of_sound hsound, parseFrom_flag hflag]
      exact ⟨iff_of_true rfl hsound, fun hno => absurd hsound hno⟩
    · obtain ⟨e, he⟩ := (sound_or_firstMistake _).resolve_left hsound
      rw [parse_of_firstMistake he, parse_written_of_firstMistake he]
      exact ⟨iff_of_false nofun hsound, fun _ => rfl⟩
  case spelling =>
    intro spelled' hitems
    by_cases hsound : Sound (spelled.map Prod.fst)
    · rw [parse_written_of_sound hsound, parse_written_of_sound (hitems ▸ hsound), hitems]
    · obtain ⟨e, he⟩ := (sound_or_firstMistake _).resolve_left hsound
      rw [parse_written_of_firstMistake he, parse_written_of_firstMistake (hitems ▸ he)]
  case place =>
    intro hsound spelled' hdepths hfiles
    have hsound' : Sound (spelled'.map Prod.fst) :=
      ⟨hdepths ▸ hsound.counts, hfiles ▸ hsound.oneFile⟩
    rw [parse_written_of_sound hsound, parse_written_of_sound hsound', settings, settings, hdepths, hfiles]

/-- A file between two settings, of which the first has a sign and the second counts; and an option that is
taken as a value. -/
example :
    parse ["--max-call-depth", "+8", "-", "--max-call-depth=9"] = .ok (.run ⟨9, some "-"⟩) ∧
      parse ["a", "--max-call-depth", "--help"] = .error (.invalidValue "--max-call-depth" "--help") := by
  decide +kernel

end Mapsto.CommandLine
