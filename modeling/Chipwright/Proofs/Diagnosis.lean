import Chipwright.Proofs.Lexing.Tiles
import Chipwright.Proofs.LinkSafety
import Chipwright.Proofs.Stages
import Mathlib.Algebra.Group.Int.Defs

/-!
# What a compilation ends with

A text is compiled, or there is a diagnostic, which tells what is wrong with the program. Only one
thing that can be wrong with a text is told in another way: a whole number with more digits than
are read. The same holds of the options: a limit on the lines with more digits than are written
stops what is otherwise compiled.

## Main definitions

* `Told`: a step that does not succeed gives a diagnostic

## Main statements

* `Program.told_resolve`: names are resolved, or there is a diagnostic
* `Compile.source_of_not_overlong`: what a compilation ends with, by the limit on the lines
* `Compile.ends_unless_overlong`: a text is compiled, or there is a diagnostic, unless it has too
  many digits
-/
namespace Chipwright

/-- If there is no result, a diagnostic says why. -/
abbrev Told {α : Type} (x : Except Failure α) : Prop := FailsOnly (∃ d, · = .diagnostic d) x

/-- A program that is too deep is told of like any other at fault. -/
theorem told_atFault {α : Type} {x : Except Failure α}
    (h : FailsOnly (fun e => (∃ d, e = .diagnostic d) ∨ e = .tooDeep) x) :
    Told (x.mapError Failure.atFault) := by
  cases x with
  | ok a => exact .ok a
  | error e =>
    rcases h e rfl with ⟨d, rfl⟩ | rfl
    · exact .error ⟨d, rfl⟩
    · exact .error ⟨_, rfl⟩

theorem Decimal.isWritable_iff {n : Int} (hn : 0 ≤ n) :
    isWritable n = true ↔ n < 10 ^ digitLimit := by
  obtain ⟨k, rfl⟩ := Int.eq_ofNat_of_zero_le hn
  have hcast : (k : Int) < 10 ^ digitLimit ↔ k < 10 ^ digitLimit := by
    exact_mod_cast Iff.rfl
  rw [hcast, isWritable, decide_eq_true_eq]
  exact Nat.length_toDigits_le_iff (by decide) (by decide)

/-- Names are resolved, or there is a diagnostic, if calls that nest too deeply count as a fault of
the program. -/
theorem Program.told_resolve (file : String) (strict : Bool) (limits : Limits) (p : Program) :
    Told ((p.resolve file strict limits).mapError Failure.atFault) := by
  refine told_atFault (((decides_program file strict p).failsOnly.mono fun _ => Or.inl).bind
    fun r _ => ?_)
  have hcheck : FailsOnly (fun e => (∃ d, e = .diagnostic d) ∨ e = .tooDeep)
      (r.callGraph.check file limits.chain) := by
    unfold Resolved.CallGraph.check
    split
    · exact .ok _
    · rename_i fault hfault
      cases fault with
      | cycle functions pos => exact .error (Or.inl ⟨_, rfl⟩)
      | tooDeep => exact .error (Or.inr rfl)
  exact hcheck.bind fun _ _ => .ok _

/-! ### Stages -/

theorem told_generate {file source : String} {strict : Bool} {limits : Limits} {options : Options}
    {p : Program} {r : Resolved.Program} (hresolve : p.resolve source strict limits = .ok r)
    (hcount : 1 ≤ options.registerCount ∧ options.registerCount ≤ Register.generalCount)
    (hlines : 0 ≤ options.maxLines) :
    Told ((r.generate file options).2.mapError Failure.atFault) := by
  refine told_atFault fun e he => ?_
  rcases Resolved.Program.exceeds_of_generate hcount hlines (Program.wellScoped_of_resolve hresolve)
    (Program.acyclic_of_resolve hresolve) he with hlimit | ⟨rfl, -⟩
  · cases e with
    | diagnostic d => exact Or.inl ⟨d, rfl⟩
    | _ => cases hlimit
  · exact Or.inr rfl

namespace Compile

open Lexer (Spells scanFrom)

variable {options : Options} {file : String} {input : List Char}

/-- Tokens are compiled, or there is a diagnostic. -/
theorem told_stages_of_scan {ts : TokenList} (hscan : Lexer.scan input = .ok ts)
    (hcount : 1 ≤ options.registerCount ∧ options.registerCount ≤ Register.generalCount)
    (hlines : 0 ≤ options.maxLines) : Told (stages options file input).result := by
  have htokens : TokenList.ofSource file input = .ok ts := by rw [TokenList.ofSource, hscan]
  have hprogram : Told (ts.program file input options.limits) := by
    unfold TokenList.program
    split
    · exact .ok _
    · rename_i fault _
      obtain ⟨shown, hfailure, -⟩ := fault.failure_eq file input ts.finish
      exact .error ⟨_, hfailure⟩
  rw [result_stages, htokens]
  refine hprogram.bind fun p _ => (p.told_resolve _ _ _).bind fun r hresolve => ?_
  rw [mapError_eq_ok] at hresolve
  refine (told_generate hresolve hcount hlines).bind fun g hgenerate => ?_
  rw [mapError_eq_ok] at hgenerate
  obtain ⟨linked, hlink⟩ := Program.exists_link_of_generate hresolve hgenerate
  rw [hlink]
  exact .ok _

/-- Without too many digits, there is a linked program or a diagnostic. -/
theorem told_stages (h : ∀ n, ¬ Lexer.Overlong n input)
    (hcount : 1 ≤ options.registerCount ∧ options.registerCount ≤ Register.generalCount)
    (hlines : 0 ≤ options.maxLines) : Told (stages options file input).result := by
  cases hscan : Lexer.scan input with
  | ok ts => exact told_stages_of_scan hscan hcount hlines
  | error e =>
    rw [result_stages, TokenList.ofSource, hscan]
    obtain ⟨fault, pos⟩ := e
    cases fault with
    | tooManyDigits n => exact absurd (Lexer.scan_eq_tooManyDigits_iff.1 ⟨pos, hscan⟩) (h n)
    | cause cause => cases cause <;> exact .error ⟨_, rfl⟩

/-- What a compilation ends with if its input has not too many digits: what it compiles to is
passed on only if the limit on the lines can be written. -/
theorem source_of_not_overlong (file : String) (h : ∀ n, ¬ Lexer.Overlong n input)
    (hcount : 1 ≤ options.registerCount ∧ options.registerCount ≤ Register.generalCount)
    (hlines : 0 ≤ options.maxLines) :
    (∃ c, (stages options file input).result = .ok c ∧ (source options file input).result =
      if options.maxLines < 10 ^ Decimal.digitLimit then .ok c else .error .unwritable) ∨
    ∃ d, (source options file input).result = .error (.diagnostic d) := by
  rw [result_source]
  cases hresult : (stages options file input).result with
  | ok c =>
    refine Or.inl ⟨c, rfl, ?_⟩
    simp only [← Decimal.isWritable_iff hlines]
    rfl
  | error e =>
    obtain ⟨d, rfl⟩ := told_stages h hcount hlines e hresult
    exact Or.inr ⟨_, rfl⟩

theorem source_of_overlong {n : Nat} (h : Lexer.Overlong n input) :
    (source options file input).result = .error (.tooManyDigits n) := by
  obtain ⟨pos, hscan⟩ := Lexer.scan_eq_tooManyDigits_iff.2 h
  rw [result_source, result_stages, TokenList.ofSource, hscan]
  rfl

/-- A text is compiled, or there is a diagnostic, unless a whole number with too many digits stops
it. In that case the failure says how many there are. If the limit on the lines is itself too long
to be written, what would be a result is a failure too. -/
theorem ends_unless_overlong
    (hcount : 1 ≤ options.registerCount ∧ options.registerCount ≤ Register.generalCount)
    (hlines : 0 ≤ options.maxLines) (file : String) (input : List Char) :
    ((∀ n, ¬ Lexer.Overlong n input) →
      (options.maxLines < 10 ^ Decimal.digitLimit →
        (∃ c, (source options file input).result = .ok c) ∨
          ∃ d, (source options file input).result = .error (.diagnostic d)) ∧
      (10 ^ Decimal.digitLimit ≤ options.maxLines →
        ((∃ c, (stages options file input).result = .ok c) ∧
          (source options file input).result = .error .unwritable) ∨
        ∃ d, (source options file input).result = .error (.diagnostic d)) ∧
      ∃ shown, text input = .ok shown) ∧
    ∀ n, Lexer.Overlong n input →
      (source options file input).result = .error (.tooManyDigits n) ∧
        text input = .error (.tooManyDigits n) := by
  refine ⟨fun h => ⟨fun hwritable => ?_, fun hlong => ?_, ?_⟩,
    fun n h => ⟨source_of_overlong h, ?_⟩⟩
  · rcases source_of_not_overlong file h hcount hlines with ⟨c, -, hc⟩ | hd
    · exact Or.inl ⟨c, hc.trans (if_pos hwritable)⟩
    · exact Or.inr hd
  · rcases source_of_not_overlong file h hcount hlines with ⟨c, hstages, hc⟩ | hd
    · exact Or.inl ⟨⟨c, hstages⟩, hc.trans (if_neg (Int.not_lt.2 hlong))⟩
    · exact Or.inr hd
  · unfold text
    rcases @source_of_not_overlong {} input unnamed h (by decide) (by decide) with
      ⟨c, -, hc⟩ | ⟨d, hd⟩
    · have hdefault : ({} : Options).maxLines < 10 ^ Decimal.digitLimit :=
        (Decimal.isWritable_iff (by decide)).1 (by decide)
      rw [hc, if_pos hdefault]
      exact ⟨_, rfl⟩
    · rw [hd]
      exact ⟨_, rfl⟩
  · rw [text, source_of_overlong h]

/-- The text `let x = …;` with something in the place of the value. -/
def definition (value : List Char) : List Char :=
  "let".toList ++ ' ' :: ("x".toList ++ ' ' :: ("=".toList ++ ' ' :: (value ++ [';'])))

/-- What stands in front of the value is read, whatever follows. -/
theorem scan_definition (value : List Char) : ∃ done pos,
    Lexer.scan (definition value) = scanFrom done pos ([' '] ++ (value ++ [';'])) := by
  have hread : ∀ {f text : List Char} {kind : TokenKind} (cs : List Char) done pos,
      (∀ cs, Lexer.Filler f cs) → Spells kind text [] → ∃ done' pos',
        scanFrom done pos (f ++ (text ++ ' ' :: cs)) = scanFrom done' pos' (' ' :: cs) := by
    intro f text kind cs done pos hf hspells
    have hapart : Lexer.Apart (' ' :: cs) := by simp [Lexer.Apart, Lexer.isSpace]
    exact ⟨_, _, Lexer.scanFrom_of_spells (l := ⟨kind, text⟩) (hf _)
      (Lexer.starts_of_spells (hspells.apart hapart) hapart) (hspells.apart hapart)⟩
  have hblank : ∀ cs, Lexer.Filler [' '] cs := fun cs => .space rfl .nil
  have hlet : Spells (Lexer.wordKind "let") ['l', 'e', 't'] [] :=
    .word rfl (List.all_eq_true.1 rfl) (by simp)
  have hx : Spells (Lexer.wordKind "x") ['x'] [] := .word rfl (List.all_eq_true.1 rfl) (by simp)
  have hassign : Spells (.symbol .assign) ['='] [] := .symbol (by simp)
  obtain ⟨done₁, pos₁, h₁⟩ := hread ("x".toList ++ ' ' :: ("=".toList ++ ' ' :: (value ++ [';'])))
    [] .first (fun _ => .nil) hlet
  obtain ⟨done₂, pos₂, h₂⟩ := hread ("=".toList ++ ' ' :: (value ++ [';'])) done₁ pos₁ hblank hx
  obtain ⟨done₃, pos₃, h₃⟩ := hread (value ++ [';']) done₂ pos₂ hblank hassign
  exact ⟨done₃, pos₃, h₁.trans (h₂.trans h₃)⟩

theorem isDigit_of_mem_nines {n : Nat} : ∀ d ∈ List.replicate n '9', d.isDigit = true := by
  intro d hd
  rw [List.eq_of_mem_replicate hd]
  rfl

theorem overlong_nines {n : Nat} (hlimit : Decimal.digitLimit < n) :
    Lexer.Overlong n (definition (List.replicate n '9')) := by
  obtain ⟨done, pos, hscan⟩ := scan_definition (List.replicate n '9')
  rw [← Lexer.scan_eq_tooManyDigits_iff, hscan, Lexer.scanFrom_eq_tooManyDigits_iff]
  exact .here (.space rfl .nil) isDigit_of_mem_nines List.length_replicate hlimit
    (by simp [Lexer.isNameChar]) (by simp)

/-- A fraction may have any number of digits. -/
theorem not_overlong_definition {digits : List Char} (hdigits : ∀ d ∈ digits, d.isDigit = true)
    (hne : digits ≠ []) (n : Nat) : ¬ Lexer.Overlong n (definition (digits ++ ['.', '5'])) := by
  obtain ⟨done, pos, hscan⟩ := scan_definition (digits ++ ['.', '5'])
  have hfraction : Spells (.float _) (digits ++ '.' :: (['5'] ++ [])) [';'] :=
    .fraction hne hdigits (by simp) (by simp) .none (by simp [Lexer.isNameChar])
  have hstarts : Lexer.Starts (digits ++ '.' :: (['5'] ++ []) ++ [';']) := by
    obtain ⟨d, digits, rfl⟩ := List.exists_cons_of_ne_nil hne
    exact Lexer.starts_of_isNameChar
      (Lexer.isNameChar_of_isDigit (hdigits d (List.mem_cons_self ..)))
  have hend : Lexer.Tiles ([] ++ ([';'] ++ [])) _ :=
    .cons (l := ⟨.symbol .semicolon, [';']⟩) .nil (Lexer.starts_of_solid rfl (by decide))
      (.symbol (by simp)) (.last .nil)
  have htiles : Lexer.Tiles ([' '] ++ ((digits ++ ['.', '5']) ++ [';'])) _ :=
    .cons (l := ⟨_, _⟩) (.space rfl .nil) hstarts hfraction hend
  rw [← Lexer.scan_eq_tooManyDigits_iff, hscan, Lexer.scanFrom_of_tiles htiles]
  rintro ⟨pos', h⟩
  cases h

/-- With one digit more than are read, a fraction ends in a program or a diagnostic, and a whole
number does not. -/
theorem long_fraction_ends :
    (∃ shown, text (definition (List.replicate 4301 '9' ++ ['.', '5'])) = .ok shown) ∧
      text (definition (List.replicate 4301 '9')) = .error (.tooManyDigits 4301) := by
  have hends := fun input => @ends_unless_overlong {} (by decide) (by decide) unnamed input
  have hne : List.replicate 4301 '9' ≠ [] := List.cons_ne_nil '9' (List.replicate 4300 '9')
  exact ⟨((hends _).1 (not_overlong_definition isDigit_of_mem_nines hne)).2.2,
    ((hends _).2 4301 (overlong_nines (by decide))).2⟩

/-- There are texts for which there is neither a program nor a report. -/
theorem exists_unreported : ∃ input, ∀ shown, text input ≠ .ok shown := by
  refine ⟨definition (List.replicate 4301 '9'), fun shown h => ?_⟩
  rw [text, source_of_overlong (overlong_nines (by decide))] at h
  cases h

end Compile

end Chipwright
