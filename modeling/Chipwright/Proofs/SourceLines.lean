import Mathlib.Data.List.DropRight
import Chipwright.Proofs.Lexing.Positions
import Chipwright.Proofs.Relabeling.Parser
import Chipwright.Proofs.Relabeling.Stages

/-!
# The line that is shown with a fault

A fault is told with its place and with a line of the source. Places count lines by newlines alone.
Tokens that are no program are shown with a line of the listing, in which other characters break
lines too, so that line is another one if there is such a character before it, or in it. All other
faults are shown with the line they are on.

## Main definitions

* `Text.Whole`: a line that no other character breaks
* `Compile.Misread`: a source whose tokens are no program

## Main statements

* `Text.listedLine?_of_whole`: when both ways to count lines agree
* `Program.line_of_build`: every place that is told of a program is one of the source
* `Compile.sourceLine_of_source`: which line is shown
-/
namespace Chipwright

variable {ts : List Token}

namespace Text

/-! ## Lines -/

theorem isSome_line?_iff {n : Nat} {cs : List Char} :
    (line? n cs).isSome = true ↔ n ≤ cs.count '\n' := by
  fun_induction line? n cs with
  | case1 cs => simp
  | case2 n => simp
  | case3 n cs ih => simp [ih]
  | case4 n c cs hc ih => simp [ih, List.count_cons_of_ne hc]

theorem line?_zero_append {first rest : List Char} (hfirst : '\n' ∉ first)
    (hrest : ∀ c ∈ rest.head?, c = '\n') : line? 0 (first ++ rest) = some first := by
  rw [line?]
  congr 1
  induction first with
  | nil =>
    cases rest with
    | nil => rfl
    | cons c rest =>
      obtain rfl := hrest c rfl
      rfl
  | cons c first ih =>
    obtain ⟨hc, hfirst⟩ := not_or.1 (List.mem_cons.not.1 hfirst)
    rw [List.cons_append, List.takeWhile_cons_of_pos (by simpa using Ne.symm hc), ih hfirst]

theorem line?_succ_append {first : List Char} (hfirst : '\n' ∉ first) (n : Nat)
    (rest : List Char) : line? (n + 1) (first ++ '\n' :: rest) = line? n rest := by
  induction first with
  | nil => rfl
  | cons c first ih =>
    obtain ⟨hc, hfirst⟩ := not_or.1 (List.mem_cons.not.1 hfirst)
    rw [List.cons_append, line?, if_neg (Ne.symm hc), ih hfirst]

/-- The first line of a text, and what follows it. -/
theorem exists_first_line (cs : List Char) : ∃ first rest, cs = first ++ rest ∧ '\n' ∉ first ∧
    (rest = [] ∨ ∃ more, rest = '\n' :: more) := by
  induction cs with
  | nil => exact ⟨[], [], rfl, by simp, Or.inl rfl⟩
  | cons c cs ih =>
    by_cases hc : c = '\n'
    · exact ⟨[], c :: cs, rfl, by simp, Or.inr ⟨cs, by rw [hc]⟩⟩
    · obtain ⟨first, rest, rfl, hfirst, hrest⟩ := ih
      exact ⟨c :: first, rest, rfl, by simp [hfirst, Ne.symm hc], hrest⟩

/-- No character breaks the line, but for a carriage return at its end. -/
def Whole (line : List Char) : Prop :=
  ∃ body, (∀ c ∈ body, isLineBreak c = false) ∧ (line = body ∨ line = body ++ ['\r'])

theorem listedLine?_zero_append {body rest : List Char} (hbody : ∀ c ∈ body, isLineBreak c = false)
    (hrest : ∀ c ∈ rest.head?, isLineBreak c = true) (hne : body ++ rest ≠ []) :
    listedLine? 0 (body ++ rest) = some body := by
  have htake : (body ++ rest).takeWhile (!isLineBreak ·) = body := by
    clear hne
    induction body with
    | nil =>
      cases rest with
      | nil => rfl
      | cons c rest => simp [hrest c rfl]
    | cons c body ih =>
      obtain ⟨hc, hbody⟩ := List.forall_mem_cons.1 hbody
      rw [List.cons_append, List.takeWhile_cons_of_pos (by simp [hc]), ih hbody]
  obtain ⟨c, cs, heq⟩ := List.exists_cons_of_ne_nil hne
  rw [heq] at htake ⊢
  rw [listedLine?, htake]

theorem listedLine?_succ_append {body : List Char} (hbody : ∀ c ∈ body, isLineBreak c = false)
    (n : Nat) (rest : List Char) :
    listedLine? (n + 1) (body ++ '\n' :: rest) = listedLine? n rest ∧
      listedLine? (n + 1) (body ++ '\r' :: '\n' :: rest) = listedLine? n rest := by
  induction body with
  | nil =>
    constructor
    · rw [List.nil_append, listedLine?, if_pos (by decide)]
      simp
    · rw [List.nil_append, listedLine?]
  | cons c body ih =>
    obtain ⟨hc, hbody⟩ := List.forall_mem_cons.1 hbody
    have hreturn : c ≠ '\r' := by
      rintro rfl
      exact absurd hc (by decide)
    have hstep : ∀ cs, listedLine? (n + 1) (c :: cs) = listedLine? (n + 1) cs := by
      intro cs
      rw [listedLine?, if_neg (by simp [hc])]
      rintro _ rfl
      exact absurd rfl hreturn
    rw [List.cons_append, List.cons_append, hstep, hstep]
    exact ih hbody

/-- As long as no line is broken, the listing has the same lines. Only an empty line at the very
end is missing there. -/
theorem listedLine?_of_whole {n : Nat} {cs line : List Char}
    (hwhole : ∀ k ≤ n, ∀ line, line? k cs = some line → Whole line)
    (hline : line? n cs = some line) :
    listedLine? n cs = none ∨
      ∃ body, listedLine? n cs = some body ∧ (line = body ∨ line = body ++ ['\r']) := by
  induction n generalizing cs with
  | zero =>
    obtain ⟨first, rest, rfl, hfirst, hrest⟩ := exists_first_line cs
    have hhead : ∀ c ∈ rest.head?, c = '\n' := by
      rcases hrest with rfl | ⟨more, rfl⟩ <;> simp
    have hzero := line?_zero_append hfirst hhead
    obtain rfl : first = line := Option.some.inj (hzero.symm.trans hline)
    obtain ⟨body, hbody, hends⟩ := hwhole 0 (Nat.le_refl 0) first hzero
    have hbreak : ∀ c ∈ rest.head?, isLineBreak c = true := fun c hc => by
      rw [hhead c hc]
      decide
    by_cases hnil : first ++ rest = []
    · left
      rw [hnil]
      rfl
    · right
      refine ⟨body, ?_, hends⟩
      rcases hends with rfl | rfl
      · exact listedLine?_zero_append hbody hbreak hnil
      · rw [List.append_assoc] at hnil ⊢
        exact listedLine?_zero_append hbody (fun c hc => by cases hc; decide) hnil
  | succ n ih =>
    obtain ⟨first, rest, rfl, hfirst, hrest⟩ := exists_first_line cs
    rcases hrest with rfl | ⟨more, rfl⟩
    · have hcount := isSome_line?_iff.1 (Option.isSome_iff_exists.2 ⟨line, hline⟩)
      rw [List.append_nil, List.count_eq_zero.2 hfirst] at hcount
      exact absurd hcount (Nat.not_succ_le_zero n)
    · rw [line?_succ_append hfirst] at hline
      have hzero : line? 0 (first ++ '\n' :: more) = some first :=
        line?_zero_append hfirst (by simp)
      obtain ⟨body, hbody, hends⟩ := hwhole 0 (Nat.zero_le _) first hzero
      have hlisted : listedLine? (n + 1) (first ++ '\n' :: more) = listedLine? n more := by
        rcases hends with rfl | rfl
        · exact (listedLine?_succ_append hbody n more).1
        · rw [List.append_assoc]
          exact (listedLine?_succ_append hbody n more).2
      rw [hlisted]
      refine ih (fun k hk line hline => hwhole (k + 1) (Nat.succ_le_succ hk) line ?_) hline
      rw [line?_succ_append hfirst, hline]

/-- A text without the carriage returns at its end. -/
def withoutReturns (s : String) : String :=
  String.ofList (s.toList.rdropWhile (· = '\r'))

theorem withoutReturns_ofList_rdropWhile (cs : List Char) :
    withoutReturns (String.ofList (cs.rdropWhile (· = '\r'))) =
      String.ofList (cs.rdropWhile (· = '\r')) := by
  rw [withoutReturns, String.toList_ofList, List.rdropWhile_idempotent]

end Text

/-! ## Places -/

/-- Positions on the first `n` lines stay where they are, and all others go elsewhere. -/
def Position.spread (n : Nat) : Position ↪ Position where
  toFun p := if 1 ≤ p.line ∧ p.line ≤ n then p else ⟨p.line + n + 1, p.column⟩
  inj' := by
    rintro ⟨line, column⟩ ⟨line', column'⟩ h
    simp only at h
    split at h <;> split at h <;> simp only [Position.mk.injEq] at h ⊢ <;> omega

theorem Position.spread_eq_self_iff {n : Nat} {p : Position} :
    spread n p = p ↔ 1 ≤ p.line ∧ p.line ≤ n := by
  obtain ⟨line, column⟩ := p
  change (if 1 ≤ line ∧ line ≤ n then (⟨line, column⟩ : Position) else _) = _ ↔ _
  split
  · simpa
  · simp only [Position.mk.injEq]
    omega

theorem Position.line_after_first (cs : List Char) :
    (first.after cs).line = 1 + cs.count '\n' :=
  first.line_after cs

theorem Relabeling.Moves.exists_pos {m : Relabeling} {l l' : Location}
    (h : m.Moves (some l) (some l')) :
    ∃ file pos, l = pos.inFile file ∧ (l' = (m.pos pos).inFile file ∨ pos = .first) := by
  cases h with
  | moved file pos => exact ⟨file, pos, rfl, Or.inl rfl⟩
  | first file => exact ⟨file, .first, rfl, Or.inr rfl⟩

/-- Tokens on the first `n` lines stay where they are. -/
theorem Token.map_move_spread {n : Nat} (hts : ∀ t ∈ ts, 1 ≤ t.pos.line ∧ t.pos.line ≤ n) :
    ts.map (Token.move (Position.spread n)) = ts := by
  refine (List.map_congr_left fun t ht => ?_).trans (List.map_id ts)
  rw [Token.move, Position.spread_eq_self_iff.2 (hts t ht)]
  rfl

/-- Tokens on the first `n` lines that are no program have the fault there. -/
theorem Program.line_of_parse {n : Nat} {limits : Limits} {fault : ParseFault}
    (hts : ∀ t ∈ ts, 1 ≤ t.pos.line ∧ t.pos.line ≤ n) (hparse : parse ts limits = .error fault) :
    ∀ pos ∈ fault.pos, 1 ≤ pos.line ∧ pos.line ≤ n := by
  intro pos hpos
  have hmatches := matches_parse (Position.spread n) ts limits
  rw [Token.map_move_spread hts, hparse] at hmatches
  have hmoved : fault.pos = fault.pos.map (Position.spread n) := congrArg ParseFault.pos hmatches
  rw [Option.mem_def.1 hpos, Option.map_some] at hmoved
  exact Position.spread_eq_self_iff.1 (Option.some.inj hmoved).symm

/-- A program that is read from tokens on the first `n` lines has a fault there, if it has one, and
the fault shows no line yet. -/
theorem Program.line_of_build {n : Nat} {limits : Limits} {p : Program} {file : String}
    {options : Options} {e : Failure} (hn : 1 ≤ n) (hts : ∀ t ∈ ts, 1 ≤ t.pos.line ∧ t.pos.line ≤ n)
    (hparse : parse ts limits = .ok p) (hbuild : p.build file options = .error e) :
    e.sourceLine? = none ∧ ∀ l, e.location? = some l → 1 ≤ l.line ∧ l.line ≤ n := by
  have hrelabel : p.relabel (.moving (Position.spread n)) = p := by
    have hmatches := matches_parse (Position.spread n) ts limits
    rw [Token.map_move_spread hts, hparse] at hmatches
    exact hmatches.symm
  have hretells := p.matches_build (m := .moving (Position.spread n)) file options
  rw [hrelabel, hbuild] at hretells
  refine ⟨hretells.unshown, fun l hl => ?_⟩
  have hplace := hretells.place
  rw [hl] at hplace
  obtain ⟨file, pos, rfl, hpos⟩ := hplace.exists_pos
  have hline : 1 ≤ pos.line ∧ pos.line ≤ n := by
    rcases hpos with hpos | rfl
    · exact Position.spread_eq_self_iff.1 (Position.inFile_injective file hpos.symm)
    · exact ⟨Nat.le_refl 1, hn⟩
  simp only [Position.inFile]
  omega

namespace Compile

variable {options : Options} {file : String} {source : List Char}

/-- The stages at which a compilation can fail. -/
theorem stages_eq_error {e : Failure} (h : (stages options file source).result = .error e) :
    (∃ fault, Lexer.scan source = .error fault ∧ e = fault.failure file source) ∨
      ∃ ts, Lexer.scan source = .ok ts ∧
        ((∃ fault, Program.parse ts.tokens options.limits = .error fault ∧
            e = fault.failure file source ts.finish) ∨
          ∃ p, Program.parse ts.tokens options.limits = .ok p ∧
            p.build file options = .error e) := by
  have hproduct := map_product_stages options file source
  rw [h, TokenList.ofSource] at hproduct
  cases hscan : Lexer.scan source with
  | error fault =>
    rw [hscan] at hproduct
    exact Or.inl ⟨fault, rfl, Except.error.inj hproduct⟩
  | ok ts =>
    rw [hscan] at hproduct
    refine Or.inr ⟨ts, rfl, ?_⟩
    change _ = ts.program file source options.limits >>= _ at hproduct
    rw [TokenList.program] at hproduct
    cases hparse : Program.parse ts.tokens options.limits with
    | error fault =>
      rw [hparse] at hproduct
      exact Or.inl ⟨fault, rfl, Except.error.inj hproduct⟩
    | ok p =>
      rw [hparse] at hproduct
      change _ = p.build file options >>= _ at hproduct
      cases hbuild : p.build file options with
      | error e' =>
        rw [hbuild] at hproduct
        exact Or.inr ⟨p, rfl, hbuild.trans (congrArg _ (Except.error.inj hproduct).symm)⟩
      | ok b =>
        rw [hbuild] at hproduct
        cases hproduct

end Compile

/-! ## Shown lines -/

namespace Diagnostic

theorem location_attachSource (d : Diagnostic) (source : List Char) :
    (d.attachSource source).location = d.location := by
  unfold attachSource
  split <;> rfl

/-- A line that is shown already stays. -/
theorem sourceLine_attachSource {d : Diagnostic} {l : Location} (hl : d.location = some l)
    (source : List Char) :
    (d.attachSource source).sourceLine = d.sourceLine.or (sourceLine? source l.line) := by
  unfold attachSource
  rw [hl]
  cases hline : d.sourceLine with
  | none => rfl
  | some line => exact hline

/-- The source has the line that a place in it is on. -/
theorem exists_sourceLine? {source : List Char} {line : Int} (hfirst : 1 ≤ line)
    (hlast : line ≤ (Position.first.after source).line) :
    ∃ cs, Text.line? (line.toNat - 1) source = some cs ∧
      sourceLine? source line = some (String.ofList (cs.rdropWhile (· = '\r'))) := by
  have hcount : line.toNat - 1 ≤ source.count '\n' := by
    rw [Position.line_after_first] at hlast
    omega
  obtain ⟨cs, hcs⟩ := Option.isSome_iff_exists.1 (Text.isSome_line?_iff.2 hcount)
  refine ⟨cs, hcs, ?_⟩
  rw [sourceLine?, if_pos hfirst, hcs]
  rfl

end Diagnostic

/-- A text that is not read as tokens is told of with the line it has the fault on. -/
theorem Lexer.Error.failure_eq_diagnostic {file : String} {source : List Char} {fault : Error}
    {d : Diagnostic} (h : fault.failure file source = .diagnostic d) :
    d.location = some (fault.pos.inFile file) ∧ (d.sourceLine = none ∨
      d.sourceLine = (Text.line? (fault.pos.line - 1) source).map String.ofList) := by
  unfold failure at h
  split at h
  · cases h
  · cases h
    exact ⟨rfl, Or.inl rfl⟩
  · cases h
    exact ⟨rfl, Or.inr rfl⟩

namespace Compile

variable {options : Options} {file : String} {source : List Char} {d : Diagnostic} {l : Location}

/-- The tokens of the source are no program, and this is not because they are nested too deeply. -/
def Misread (limits : Limits) (source : List Char) : Prop :=
  ∃ ts fault, Lexer.scan source = .ok ts ∧ Program.parse ts.tokens limits = .error fault ∧
    fault.cause ≠ .nestingTooDeep

theorem not_misread_of_parse {limits : Limits} {ts : TokenList} {p : Program}
    (hscan : Lexer.scan source = .ok ts) (hparse : Program.parse ts.tokens limits = .ok p) :
    ¬ Misread limits source := by
  rintro ⟨ts', fault, hscan', hparse', -⟩
  cases hscan.symm.trans hscan'
  cases hparse.symm.trans hparse'

/-- A fault is on a line of the source. The stage that finds it shows that line or leaves that for
later; only tokens that are no program are shown with a line of the listing. -/
theorem sourceLine_of_stages
    (h : (stages options file source).result = .error (.diagnostic d))
    (hl : d.location = some l) :
    (1 ≤ l.line ∧ l.line ≤ (Position.first.after source).line) ∧
      (¬ Misread options.limits source ∧ (d.sourceLine = none ∨
          d.sourceLine = (Text.line? (l.line.toNat - 1) source).map String.ofList) ∨
        Misread options.limits source ∧
          d.sourceLine = (Text.listedLine? (l.line.toNat - 1) source).map String.ofList) := by
  have hfinish : 1 ≤ (Position.first.after source).line := by
    rw [Position.line_after_first]
    exact Nat.le_add_right 1 _
  rcases stages_eq_error h with ⟨fault, hscan, hfault⟩ | ⟨ts, hscan, hlater⟩
  · obtain ⟨hlocation, hline⟩ := Lexer.Error.failure_eq_diagnostic hfault.symm
    obtain rfl := Option.some.inj (hl.symm.trans hlocation)
    obtain ⟨before, ⟨more, rfl⟩, hpos⟩ := Lexer.exists_prefix_of_scanFrom hscan
    refine ⟨?_, Or.inl ⟨?_, hline⟩⟩
    · simp only [Position.inFile, hpos, Position.line_after_first, List.count_append]
      omega
    · rintro ⟨ts, _, hscan', -⟩
      cases hscan.symm.trans hscan'
  · obtain ⟨tiles, htiles, rfl⟩ := Lexer.scan_eq_ok_iff.1 hscan
    have hts : ∀ t ∈ Lexer.tokensFrom .first tiles,
        1 ≤ t.pos.line ∧ t.pos.line ≤ (Position.first.after source).line := by
      intro t ht
      refine ⟨?_, (Lexer.before_finish_of_mem_tokensFrom htiles ht).line_le⟩
      rcases Lexer.eq_or_before_of_mem_tokensFrom ht with heq | hbefore
      · rw [heq]
        exact Nat.le_refl 1
      · exact hbefore.line_le
    rcases hlater with ⟨fault, hparse, hfault⟩ | ⟨p, hparse, hbuild⟩
    · obtain ⟨shown, hfailure, hshown⟩ :=
        fault.failure_eq file source (Position.first.after source)
      rw [hfailure] at hfault
      cases hfault
      cases hl
      have hline : 1 ≤ (fault.pos.getD (Position.first.after source)).line ∧
          (fault.pos.getD (Position.first.after source)).line ≤
            (Position.first.after source).line := by
        cases hpos : fault.pos with
        | none => exact ⟨hfinish, Nat.le_refl _⟩
        | some pos => exact Program.line_of_parse hts hparse pos hpos
      refine ⟨by simp only [Position.inFile]; omega, ?_⟩
      rcases hshown with ⟨hdeep, rfl⟩ | ⟨hcause, rfl⟩
      · refine Or.inl ⟨?_, Or.inl rfl⟩
        rintro ⟨ts', fault', hscan', hparse', hcause⟩
        cases hscan.symm.trans hscan'
        cases hparse.symm.trans hparse'
        exact hcause hdeep
      · exact Or.inr ⟨⟨_, fault, hscan, hparse, hcause⟩, rfl⟩
    · obtain ⟨hnone, hplace⟩ := Program.line_of_build hfinish hts hparse hbuild
      exact ⟨hplace l hl, Or.inl ⟨not_misread_of_parse hscan hparse, Or.inl hnone⟩⟩

/-- A diagnostic comes from one of the stages. -/
theorem exists_of_source
    (h : (Compile.source options file source).result = .error (.diagnostic d)) :
    ∃ d₀, (stages options file source).result = .error (.diagnostic d₀) ∧
      d = d₀.attachSource source := by
  rw [result_source] at h
  cases hstages : (stages options file source).result with
  | ok c =>
    rw [hstages] at h
    change (if _ then _ else _) = _ at h
    split at h <;> cases h
  | error e =>
    rw [hstages] at h
    cases e with
    | diagnostic d₀ =>
      cases h
      exact ⟨d₀, rfl, rfl⟩
    | _ => cases h

/-- The line that is shown with a fault is the line it is on, up to carriage returns at its end, if
the source is not misread. Of a source that is misread, it is the line of the listing with that
number, as far as the listing goes; and the two are the same where no line up to the fault is broken
by other line breaks. -/
theorem sourceLine_of_source
    (h : (Compile.source options file source).result = .error (.diagnostic d))
    (hl : d.location = some l) :
    ∃ line, Diagnostic.sourceLine? source l.line = some line ∧
      (¬ Misread options.limits source → d.sourceLine.map Text.withoutReturns = some line) ∧
      (Misread options.limits source → d.sourceLine =
        ((Text.listedLine? (l.line.toNat - 1) source).map String.ofList).or (some line)) ∧
      ((∀ n < l.line.toNat, ∀ cs, Text.line? n source = some cs → Text.Whole cs) →
        d.sourceLine.map Text.withoutReturns = some line) := by
  obtain ⟨d₀, hstages, rfl⟩ := exists_of_source h
  rw [Diagnostic.location_attachSource] at hl
  obtain ⟨⟨hfirst, hlast⟩, hshown⟩ := sourceLine_of_stages hstages hl
  obtain ⟨cs, hcs, hline⟩ := Diagnostic.exists_sourceLine? hfirst hlast
  refine ⟨_, hline, ?_⟩
  rw [Diagnostic.sourceLine_attachSource hl, hline]
  have hread : d₀.sourceLine = none ∨ d₀.sourceLine = some (String.ofList cs) →
      (d₀.sourceLine.or (some (String.ofList (cs.rdropWhile (· = '\r'))))).map
        Text.withoutReturns = some (String.ofList (cs.rdropWhile (· = '\r'))) := by
    rintro (hnone | hsome)
    · rw [hnone, Option.none_or, Option.map_some, Text.withoutReturns_ofList_rdropWhile]
    · rw [hsome, Option.some_or, Option.map_some, Text.withoutReturns, String.toList_ofList]
  rcases hshown with ⟨hmisread, hline₀⟩ | ⟨hmisread, hline₀⟩
  · rw [hcs, Option.map_some] at hline₀
    exact ⟨fun _ => hread hline₀, fun hm => absurd hm hmisread, fun _ => hread hline₀⟩
  · refine ⟨fun hm => absurd hmisread hm, fun _ => by rw [hline₀], fun hwhole => ?_⟩
    have hlisted :=
      Text.listedLine?_of_whole (fun k hk line hk' => hwhole k (by omega) line hk') hcs
    rcases hlisted with hnone | ⟨body, hsome, hends⟩
    · exact hread (Or.inl (by rw [hline₀, hnone, Option.map_none]))
    · rw [hline₀, hsome, Option.map_some, Option.some_or, Option.map_some, Text.withoutReturns,
        String.toList_ofList]
      rcases hends with rfl | rfl
      · rfl
      · rw [List.rdropWhile_concat_pos _ _ _ (by decide)]

/-- A form feed in a comment, and on the next line a token that starts no statement. -/
def formFeed : List Char := ['/', '/', '\x0c', '\n', ';']

/-- The token on the second line is shown with what follows the form feed. -/
theorem result_formFeed (file : String) :
    (Compile.source {} file formFeed).result = .error (.diagnostic
      ⟨.unexpectedToken ";" (some "statement"), some ⟨file, 2, 1⟩, some ""⟩) := by
  have hscan : Lexer.scan formFeed = .ok ⟨[⟨.symbol .semicolon, ⟨2, 1⟩⟩], ⟨2, 2⟩⟩ := by
    have hcomment : Lexer.Filler ('/' :: '/' :: (['\x0c'] ++ ['\n'])) [';'] :=
      .line (by decide) (by simp) (.space (by decide) .nil)
    have hsemicolon : Lexer.Spells (.symbol .semicolon) [';'] [] := .symbol (by simp)
    exact Lexer.scan_eq_ok_iff.2 ⟨_, Lexer.Tiles.cons (l := ⟨.symbol .semicolon, [';']⟩) hcomment
      (Lexer.starts_of_solid (by decide) (by decide)) hsemicolon (.last .nil), rfl⟩
  have hparse : Program.parse [⟨.symbol .semicolon, ⟨2, 1⟩⟩] =
      .error ⟨.unexpectedToken ";" (some "statement"), some ⟨2, 1⟩⟩ := by
    cbv
  have hlisted : Text.listedLine? 1 formFeed = some [] := by decide
  rw [result_source, result_stages, TokenList.ofSource, hscan]
  change Except.mapError _ (TokenList.program file formFeed _ _ >>= _) >>= _ = _
  rw [TokenList.program, hparse]
  change Except.error (Failure.diagnostic (Diagnostic.attachSource formFeed ⟨_, _,
    (Text.listedLine? 1 formFeed).map String.ofList⟩)) = _
  rw [hlisted]
  rfl

theorem sourceLine_of_source_formFeed : ∃ d l,
    (Compile.source {} "lamp" formFeed).result = .error (.diagnostic d) ∧ d.location = some l ∧
      ∃ line, Diagnostic.sourceLine? formFeed l.line = some line ∧
        (¬ Misread {} formFeed → d.sourceLine.map Text.withoutReturns = some line) ∧
        (Misread {} formFeed → d.sourceLine =
          ((Text.listedLine? (l.line.toNat - 1) formFeed).map String.ofList).or (some line)) ∧
        ((∀ n < l.line.toNat, ∀ cs, Text.line? n formFeed = some cs → Text.Whole cs) →
          d.sourceLine.map Text.withoutReturns = some line) :=
  ⟨_, _, result_formFeed "lamp", rfl, sourceLine_of_source (result_formFeed "lamp") rfl⟩

/-- The line that is shown need not be the line the fault is on. -/
theorem exists_sourceLine_ne : ∃ d l,
    (Compile.source {} "lamp" formFeed).result = .error (.diagnostic d) ∧ d.location = some l ∧
      d.sourceLine.map Text.withoutReturns ≠ Diagnostic.sourceLine? formFeed l.line :=
  ⟨_, _, result_formFeed "lamp", rfl, by decide⟩

end Compile

end Chipwright
