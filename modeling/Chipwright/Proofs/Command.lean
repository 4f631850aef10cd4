import Chipwright.Command.Run
import Chipwright.Proofs.Basics

/-!
# What the command does to files

A run writes one file at most, and only at its very end: the text for the chip goes next to the
input once everything else has succeeded. That file is another one than the input, unless the
name of the input has the ending of the output already.

## Main statements

* `spares_of_arguments`: what changes if no output file is named
* `exists_overwritten`: an input that is lost
-/
namespace Chipwright

/-! ### Writing a file -/

namespace FileTree

variable {t t' : FileTree} {p : Path} {key d : List String}

theorem lookup_entries_insert (k key : List String) (bytes : List UInt8) (t : FileTree) :
    (t.insert key bytes).entries.lookup k =
      if k = key then some (.file bytes) else t.entries.lookup k := by
  unfold insert
  induction t.entries with
  | nil => exact lookup_cons_ite k key _ []
  | cons e l ih =>
    obtain ⟨k', entry⟩ := e
    by_cases hk : k' = key
    · rw [List.filter_cons_of_neg (by simpa using hk), ih, lookup_cons_ite, hk]
      split <;> rfl
    · rw [List.filter_cons_of_pos (by simpa using hk), List.cons_append, lookup_cons_ite, ih,
        lookup_cons_ite]
      by_cases h : k = k'
      · simp [h, hk]
      · simp [h]

/-- A written file is the only thing that changes. -/
theorem entry?_insert (h : isLandmark key = false) (k : List String) (bytes : List UInt8) :
    entry? k (t.insert key bytes) = if k = key then some (.file bytes) else t.entry? k := by
  unfold entry?
  rw [lookup_entries_insert]
  by_cases hk : k = key
  · simp [hk, h]
  · simp [hk]

theorem isLandmark_eq_false (h : t.entry? key ≠ some .directory) : isLandmark key = false := by
  by_contra hlandmark
  exact h (if_pos (by simpa using hlandmark))

theorem writeText_eq_ok {text : String} (h : t.writeText p text = .ok t') : ∃ key,
    t.key p = .ok key ∧ t.entry? key ≠ some .directory ∧ ∀ k, t'.entry? k =
      if k = key then some (.file (Text.Utf8.encode text)) else t.entry? k := by
  unfold writeText at h
  split at h
  case h_1 => cases h
  case h_2 key hkey =>
    split at h
    case h_1 => cases h
    case h_2 hentry =>
      cases h
      have hentry : t.entry? key ≠ some .directory := hentry
      exact ⟨key, hkey, hentry, fun k => entry?_insert (isLandmark_eq_false hentry) k _⟩

theorem walk_append_singleton {parts : List String} {part : String}
    (h : t.walk d (parts ++ [part]) = .ok key) :
    ∃ d', t.walk d parts = .ok d' ∧ key = step d' part := by
  induction parts generalizing d with
  | nil =>
    rw [List.nil_append, walk] at h
    split at h
    case h_3 =>
      split at h
      case isTrue => cases h
      case isFalse => exact ⟨d, rfl, (Except.ok.inj h).symm⟩
    all_goals cases h
  | cons first parts ih =>
    rw [List.cons_append, walk] at h
    rw [walk]
    split at h
    case h_3 hentry =>
      split at h
      case isTrue => cases h
      case isFalse hsize =>
        rw [if_neg hsize]
        exact ih h
    all_goals cases h

end FileTree

/-! ### The path next to the input -/

namespace Path

/-- The name at the end of a path is more than an ending. -/
def HasEnding (ending : String) (p : Path) : Prop :=
  ∃ front name, p.parts = front ++ [name ++ ending] ∧ name ≠ ""

theorem stem_append {name : String} (h : name ≠ "") : stem (name ++ ".ic10") = name := by
  have hreverse : (name ++ ".ic10").toList.reverse = "01ci.".toList ++ name.toList.reverse := by
    simp
  unfold stem
  rw [hreverse]
  simp [h]

theorem hasEnding_iff {p : Path} {front : List String} {name : String}
    (hp : p.parts = front ++ [name]) : p.HasEnding ".ic10" ↔ stem name ++ ".ic10" = name := by
  constructor
  · rintro ⟨front', name', hparts, hname'⟩
    obtain rfl := List.singleton_inj.1 (List.append_inj' (hp.symm.trans hparts) rfl).2
    rw [stem_append hname']
  · intro h
    refine ⟨front, stem name, by rw [hp, h], fun hstem => ?_⟩
    rw [hstem] at h
    subst h
    revert hstem
    decide

theorem append_ending_ne (name : String) : name ++ ".ic10" ≠ ".." := by
  intro h
  have hlength := congrArg String.length h
  rw [String.length_append] at hlength
  have : ".ic10".length = 5 := rfl
  have : "..".length = 2 := rfl
  omega

theorem steps_append (root : String) (front : List String) (name : String) :
    (Path.mk root (front ++ [name])).steps = (Path.mk root front).steps ++ [name] := by
  unfold steps
  split <;> rfl

end Path

namespace FileTree

variable {t : FileTree} {p : Path} {key key' d : List String}

theorem step_of_ne {part : String} (h : part ≠ "..") : step d part = d ++ [part] := if_neg h

theorem step_back_ne {part : String} (h : part ≠ "..") : step d ".." ≠ d ++ [part] := by
  rw [step, if_pos rfl]
  split
  case h_1 hlast => simp [List.getLast?_eq_none_iff.1 hlast, h.symm]
  case h_2 => simpa using h.symm
  case h_3 => simp
  case h_4 =>
    intro heq
    have hlength := congrArg List.length heq
    simp only [List.length_dropLast, List.length_append, List.length_singleton] at hlength
    omega

theorem walk_of_key (h : t.key p = .ok key) : t.walk [] p.steps = .ok key := by
  unfold FileTree.key at h
  split at h
  · cases h
  · split at h
    · cases h
    · exact h

theorem key_of_readText {input : List Char} (h : t.readText p = .ok input) :
    ∃ key, t.key p = .ok key := by
  obtain ⟨bytes, hbytes, -⟩ := bind_eq_ok.1 h
  unfold read at hbytes
  split at hbytes
  · cases hbytes
  · exact ⟨_, ‹_›⟩

/-- A path without a name leads to a directory. -/
theorem entry?_of_parts_nil (h : t.key p = .ok key) (hp : p.parts = []) :
    t.entry? key = some .directory := by
  have hwalk := walk_of_key h
  unfold Path.steps at hwalk
  split at hwalk
  · rw [hp] at hwalk
    cases hwalk
    rfl
  · have hroot : t.walk [] ["/"] = .ok ["/"] := rfl
    rw [hp, hroot] at hwalk
    cases hwalk
    rfl

/-- The file next to another one is that one exactly if this has the ending already. -/
theorem key_withEnding (h : t.key p = .ok key) (h' : t.key (p.withEnding ".ic10") = .ok key')
    (hp : p.parts ≠ []) : key' = key ↔ p.HasEnding ".ic10" := by
  obtain ⟨root, parts⟩ := p
  obtain ⟨front, name, rfl⟩ := parts.eq_nil_or_concat'.resolve_left hp
  have hwalk := walk_of_key h
  have hwalk' := walk_of_key h'
  simp only [Path.withEnding, List.getLast?_concat, List.dropLast_concat] at hwalk'
  rw [Path.steps_append] at hwalk hwalk'
  obtain ⟨d, hd, rfl⟩ := walk_append_singleton hwalk
  obtain ⟨d', hd', rfl⟩ := walk_append_singleton hwalk'
  rw [hd] at hd'
  cases hd'
  rw [Path.hasEnding_iff rfl, step_of_ne (Path.append_ending_ne _)]
  by_cases hname : name = ".."
  · subst hname
    have hne := Path.append_ending_ne (Path.stem "..")
    exact iff_of_false (step_back_ne hne).symm hne
  · rw [step_of_ne hname, List.append_cancel_left_eq, List.singleton_inj]

end FileTree

/-! ### Runs of the command -/

namespace Command

open Options (Environment)

variable {env : Environment} {args : List String} {t : FileTree}

/-- The files when the command has ended. A usage error leaves them as they were. -/
def filesAfter (t : FileTree) : Except UsageError Outcome → FileTree
  | .error _ => t
  | .ok o => o.files

def exitAfter : Except UsageError Outcome → ExitCode
  | .error _ => .invalidArguments
  | .ok o => o.exit

/-- No option names an output file. -/
def NamesNoOutput (args : List String) : Prop :=
  ∀ ws value, words args = .ok ws → .setting .output value ∉ ws

theorem output_of_namesNoOutput {i : Invocation} (h : NamesNoOutput args)
    (hi : Request.ofArguments args = .ok (.compile i)) : i.output = none := by
  simp only [Request.ofArguments, bind_eq_ok] at hi
  obtain ⟨ws, hws, hi⟩ := hi
  split at hi
  case h_3 =>
    obtain ⟨i', hi', hi⟩ := bind_eq_ok.1 hi
    cases hi
    simp only [Invocation.ofWords, bind_eq_ok] at hi'
    obtain ⟨maxLines, -, registers, -, hi'⟩ := hi'
    split at hi'
    case h_2 =>
      cases hi'
      rw [lastValue, List.getLast?_eq_none_iff, List.filterMap_eq_nil_iff]
      rintro (f | ⟨s, value⟩ | text) hw
      · rfl
      · refine if_neg fun hs => h ws value hws ?_
        rwa [hs] at hw
      · rfl
    all_goals cases hi'
  all_goals cases hi

theorem Trouble.exit_ne_success (x : Trouble) : x.exit ≠ .success := by
  cases x <;> exact nofun

namespace Invocation

variable {i : Invocation}

/-- An invocation comes to a text for the chip. -/
def Yields (env : Environment) (t : FileTree) (i : Invocation) (c : Compiled) : Prop :=
  ∃ input, t.readText i.inputPath = .ok input ∧
    (Compile.source (i.options (Options.ofEnvironment env).1) i.inputPath.text input).result = .ok c

/-- How an invocation can end. -/
inductive Ends (env : Environment) (t : FileTree) (i : Invocation) : ExitCode → FileTree → Prop
  | kept {exit : ExitCode} (h : exit = .success → i.has .stdout = true ∨ i.has .ast = true) :
    Ends env t i exit t
  | written {c : Compiled} {t' : FileTree} (hstdout : i.has .stdout = false)
      (hast : i.has .ast = false) (hc : i.Yields env t c)
      (h : t.writeText i.outputPath (c.assembly ++ "\n") = .ok t') : Ends env t i .success t'

theorem ends_of_failed (e : Failure) (printed : Printed) :
    i.Ends env t (i.failed e t printed).exit (i.failed e t printed).files :=
  .kept fun h => absurd h (Trouble.exit_ne_success _)

theorem ends_run (env : Environment) (t : FileTree) (i : Invocation) :
    i.Ends env t (i.run env t).exit (i.run env t).files := by
  unfold run
  dsimp only
  split
  case h_1 => exact ends_of_failed _ _
  case h_2 input hinput =>
    split
    case isTrue hast =>
      unfold showTree
      split
      · exact ends_of_failed _ _
      · exact .kept fun _ => .inr hast
    case isFalse hast =>
      unfold compile
      dsimp only
      split
      case h_1 => exact ends_of_failed _ _
      case h_2 c hc =>
        split
        case isTrue hstdout => exact .kept fun _ => .inl hstdout
        case isFalse hstdout =>
          split
          · exact ends_of_failed _ _
          · exact .written (by simpa using hstdout) (by simpa using hast) ⟨input, hinput, hc⟩ ‹_›

/-- What an invocation leaves of the files, if it names no output file. -/
structure Spares (env : Environment) (t : FileTree) (i : Invocation) (exit : ExitCode)
    (t' : FileTree) : Prop where
  /-- Only the default output changes, and only by a run that succeeds. -/
  changed : ∀ key, t'.entry? key ≠ t.entry? key → exit = .success ∧ i.has .stdout = false ∧
    i.has .ast = false ∧ ∃ c, i.Yields env t c ∧
      t.key (i.inputPath.withEnding ".ic10") = .ok key ∧
      t'.entry? key = some (.file (Text.Utf8.encode (c.assembly ++ "\n")))
  /-- A run that succeeds and shows nothing else writes the default output. -/
  written : exit = .success → i.has .stdout = false → i.has .ast = false → ∃ c key,
    i.Yields env t c ∧ t.key (i.inputPath.withEnding ".ic10") = .ok key ∧
      t'.entry? key = some (.file (Text.Utf8.encode (c.assembly ++ "\n"))) ∧
      (t.key i.inputPath = .ok key ↔ i.inputPath.HasEnding ".ic10")
  /-- The input stays as it is, unless its name has the ending of the output. -/
  input : ∀ key, t.key i.inputPath = .ok key → ¬ i.inputPath.HasEnding ".ic10" →
    t'.entry? key = t.entry? key

theorem Ends.spares {exit : ExitCode} {t' : FileTree} (h : i.Ends env t exit t')
    (hnone : i.output = none) : i.Spares env t exit t' := by
  cases h with
  | kept h =>
    refine ⟨fun key hne => absurd rfl hne, fun hexit hstdout hast => ?_, fun _ _ _ => rfl⟩
    simpa [hstdout, hast] using h hexit
  | @written c t' hstdout hast hc hwrite =>
    rw [outputPath, hnone] at hwrite
    obtain ⟨key, hkey, hdirectory, hentry⟩ := FileTree.writeText_eq_ok hwrite
    have hself := hentry key
    rw [if_pos rfl] at hself
    have hsame (k : List String) (hk : t.key i.inputPath = .ok k) :
        key = k ↔ i.inputPath.HasEnding ".ic10" := by
      refine FileTree.key_withEnding hk hkey fun hparts => hdirectory ?_
      refine FileTree.entry?_of_parts_nil hkey ?_
      simp [Path.withEnding, hparts]
    refine ⟨fun k hk => ⟨rfl, hstdout, hast, c, hc, ?_⟩, fun _ _ _ => ?_, fun k hk hending => ?_⟩
    · have heq : k = key := by
        by_contra hne
        exact hk ((hentry k).trans (if_neg hne))
      exact heq ▸ ⟨hkey, hself⟩
    · have ⟨input, hinput, _⟩ := hc
      obtain ⟨k, hk⟩ := FileTree.key_of_readText hinput
      refine ⟨c, key, hc, hkey, hself, ?_⟩
      rw [hk, Except.ok.injEq, eq_comm]
      exact hsame k hk
    · rw [hentry, if_neg fun heq => hending ((hsame k hk).1 heq.symm)]

end Invocation

/-- What the command leaves of the files, if no output file is named. -/
structure Spares (env : Environment) (args : List String) (t : FileTree) (exit : ExitCode)
    (t' : FileTree) : Prop where
  compiled : ∀ i, Request.ofArguments args = .ok (.compile i) → i.Spares env t exit t'
  other : (∀ i, Request.ofArguments args ≠ .ok (.compile i)) → t' = t

/-- If no output file is named, only the file next to the input changes, by a run that succeeds
and prints neither program nor tree. The input is lost exactly if it is that file. This is so
however an invocation was read, and so for every command line. -/
theorem spares_of_arguments (env : Environment) (args : List String) (t : FileTree) :
    (∀ i : Invocation, i.output = none →
      i.Spares env t (i.run env t).exit (i.run env t).files) ∧
    (NamesNoOutput args →
      Spares env args t (exitAfter (run env args t)) (filesAfter t (run env args t))) := by
  refine ⟨fun i hnone => (i.ends_run env t).spares hnone, fun hargs => ?_⟩
  have hother {exit : ExitCode} (h : ∀ i, Request.ofArguments args ≠ .ok (.compile i)) :
      Spares env args t exit t := ⟨fun i hi => absurd hi (h i), fun _ => rfl⟩
  unfold run
  cases hrequest : Request.ofArguments args with
  | error e => exact hother (by simp [hrequest])
  | ok request =>
    cases request with
    | version => exact hother (by simp [hrequest])
    | help => exact hother (by simp [hrequest])
    | compile i =>
      have hnone := output_of_namesNoOutput hargs hrequest
      refine ⟨fun i' hi' => ?_, fun h => absurd hrequest (h i)⟩
      cases hrequest.symm.trans hi'
      change i.Spares env t (exitAfter ((i.check t).bind _)) (filesAfter t ((i.check t).bind _))
      cases i.check t with
      | error e =>
        have hkept : i.Ends env t .invalidArguments t := .kept fun h => by cases h
        exact hkept.spares hnone
      | ok u => exact (i.ends_run env t).spares hnone

/-! ### Two runs -/

def shortProgram (name : String) : FileTree := ⟨[([name], .file (Text.Utf8.encode "yield;"))]⟩

theorem words_of_input {name : String} (h : words [name] = .ok [.positional name]) :
    NamesNoOutput [name] ∧
      Request.ofArguments [name] = .ok (.compile ⟨name, none, [], none, none⟩) := by
  constructor
  · intro ws value hws
    cases h.symm.trans hws
    simp
  · rw [Request.ofArguments, h]
    rfl

theorem spares_of_arguments_lamp : NamesNoOutput ["lamp.ay"] ∧
    exitAfter (run [] ["lamp.ay"] (shortProgram "lamp.ay")) = .success ∧
    FileTree.entry? ["lamp.ay"]
      (filesAfter (shortProgram "lamp.ay") (run [] ["lamp.ay"] (shortProgram "lamp.ay"))) =
        some (.file (Text.Utf8.encode "yield;")) := by
  have hwords : words ["lamp.ay"] = .ok [.positional "lamp.ay"] :=
    toOption_eq_some.1 (by decide +kernel)
  obtain ⟨hnone, hrequest⟩ := words_of_input hwords
  have hkey : (shortProgram "lamp.ay").key (Path.ofText "lamp.ay") = .ok ["lamp.ay"] :=
    toOption_eq_some.1 (by decide +kernel)
  refine ⟨hnone, by decide +kernel, ?_⟩
  have hspares := (spares_of_arguments [] ["lamp.ay"] (shortProgram "lamp.ay")).2 hnone
  refine ((hspares.compiled _ hrequest).input _ hkey fun hending => ?_).trans rfl
  have hparts : (Path.ofText "lamp.ay").parts = [] ++ ["lamp.ay"] := by decide +kernel
  exact absurd ((Path.hasEnding_iff hparts).1 hending) (by decide)

/-- A program with the ending of the output is replaced by what it is compiled to. -/
theorem exists_overwritten : ∃ args t i, NamesNoOutput args ∧
    Request.ofArguments args = .ok (.compile i) ∧
    t.read i.inputPath = .ok (Text.Utf8.encode "yield;") ∧
    (filesAfter t (run [] args t)).read i.inputPath = .ok (Text.Utf8.encode "yield\n") := by
  have hwords : words ["x.ic10"] = .ok [.positional "x.ic10"] :=
    toOption_eq_some.1 (by decide +kernel)
  obtain ⟨hnone, hrequest⟩ := words_of_input hwords
  exact ⟨_, shortProgram "x.ic10", _, hnone, hrequest, toOption_eq_some.1 (by decide +kernel),
    toOption_eq_some.1 (by decide +kernel)⟩

end Command

end Chipwright
