import Chipwright.Proofs.Lexing.Positions
import Chipwright.Proofs.Relabeling.Parser
import Chipwright.Proofs.Relabeling.Stages
import Mathlib.GroupTheory.GroupAction.MultipleTransitivity

/-!
# White space has no part in the program that the chip gets

A source is a sequence of lexemes with white space and comments between them. With any other white
space after each lexeme it is read as the same tokens, which only stand elsewhere. As no stage looks
at positions but to tell them, the compilation takes the same way: the text for the chip is the
same, or the same fault is told of another place.

## Main definitions

* `Lexer.Spelt`: the lexemes that a text is made up of
* `Lexer.spaced`: lexemes with white space after each of them

## Main statements

* `Lexer.tiles_spaced`: spaced lexemes are read one by one
* `Compile.result_spaced`: white space makes no difference
-/
namespace Chipwright

namespace Lexer

/-! ## Spaced lexemes -/

/-- The lexemes that a text is made up of, between white space and comments. -/
def Spelt (cs : List Char) (ls : List Lexeme) : Prop :=
  ∃ tiles, Tiles cs tiles ∧ tiles.map (·.lexeme) = ls

/-- Lexemes with a text before the first one and one after each of them. -/
def spaced (before : List Char) : List (Lexeme × List Char) → List Char
  | [] => before
  | (l, after) :: more => before ++ (l.text ++ spaced after more)

/-- White space, which may be empty. -/
def Blank (w : List Char) : Prop := ∀ c ∈ w, isSpace c = true

/-- The lexemes with what stands before them. -/
def spacedTiles (before : List Char) : List (Lexeme × List Char) → List Tile
  | [] => []
  | (l, after) :: more => ⟨before, l⟩ :: spacedTiles after more

variable {before : List Char} {xs : List (Lexeme × List Char)}

theorem filler_of_blank {w rest : List Char} (h : Blank w) : Filler w rest := by
  induction w with
  | nil => exact .nil
  | cons c w ih =>
    obtain ⟨hc, hw⟩ := List.forall_mem_cons.1 h
    exact .space hc (ih hw)

theorem apart_spaced (hne : before ≠ []) (hbefore : Blank before) : Apart (spaced before xs) := by
  obtain ⟨c, w, rfl⟩ := List.exists_cons_of_ne_nil hne
  intro d hd
  have hhead : (spaced (c :: w) xs).head? = some c := by
    cases xs with
    | nil => rfl
    | cons x xs => rfl
  rw [hhead] at hd
  cases hd
  exact hbefore c (List.mem_cons_self ..)

/-- Spaced lexemes are read one by one, wherever they come from. -/
theorem tiles_spaced (hbefore : Blank before) (hxs : ∀ x ∈ xs, x.2 ≠ [] ∧ Blank x.2)
    (hspells : ∀ x ∈ xs, ∃ rest, Spells x.1.kind x.1.text rest) :
    Tiles (spaced before xs) (spacedTiles before xs) := by
  induction xs generalizing before with
  | nil => exact .last (filler_of_blank hbefore)
  | cons x xs ih =>
    obtain ⟨l, after⟩ := x
    obtain ⟨⟨hne, hafter⟩, hxs⟩ := List.forall_mem_cons.1 hxs
    obtain ⟨⟨rest, hl⟩, hspells⟩ := List.forall_mem_cons.1 hspells
    have hapart : Apart (spaced after xs) := apart_spaced hne hafter
    have hspells' := hl.apart hapart
    exact .cons (filler_of_blank hbefore) (starts_of_spells hspells' hapart) hspells'
      (ih hafter hxs hspells)

theorem lexemes_spacedTiles : (spacedTiles before xs).map (·.lexeme) = xs.map (·.1) := by
  induction xs generalizing before with
  | nil => rfl
  | cons x xs ih => exact congrArg (x.1 :: ·) ih

theorem exists_spells_of_tiles {cs : List Char} {tiles : List Tile} (h : Tiles cs tiles) :
    ∀ l ∈ tiles.map (·.lexeme), ∃ rest, Spells l.kind l.text rest := by
  induction h with
  | last => exact List.forall_mem_nil _
  | cons _ _ hspells _ ih => exact List.forall_mem_cons.2 ⟨⟨_, hspells⟩, ih⟩

/-- One sequence of different positions goes over into another one. -/
theorem exists_embedding_map {ps ps' : List Position} (hlength : ps.length = ps'.length)
    (hps : ps.Nodup) (hps' : ps'.Nodup) : ∃ φ : Position ↪ Position, ps.map φ = ps' := by
  obtain ⟨σ, hσ⟩ := Equiv.Perm.exists_extending_pair ps.get (ps'.get ∘ Fin.cast hlength)
    (List.nodup_iff_injective_get.1 hps)
    ((List.nodup_iff_injective_get.1 hps').comp (Fin.cast_injective hlength))
  refine ⟨σ.toEmbedding, List.ext_getElem (by simpa using hlength) fun i hi _ => ?_⟩
  simpa using hσ ⟨i, by simpa using hi⟩

/-- Tokens of the same kinds, each of them at another place. -/
theorem exists_move_of_kinds {ts ts' : List Token} (hkinds : ts'.map (·.kind) = ts.map (·.kind))
    (hts : (ts.map (·.pos)).Nodup) (hts' : (ts'.map (·.pos)).Nodup) :
    ∃ φ : Position ↪ Position, ts' = ts.map (Token.move φ) := by
  have hlength : (ts.map (·.pos)).length = (ts'.map (·.pos)).length := by
    simpa using (congrArg List.length hkinds).symm
  obtain ⟨φ, hφ⟩ := exists_embedding_map hlength hts hts'
  have hzip : ∀ ts : List Token, ts = List.zipWith Token.mk (ts.map (·.kind)) (ts.map (·.pos)) := by
    intro ts
    simp [List.zipWith_map, List.zipWith_self]
  refine ⟨φ, ?_⟩
  rw [hzip ts', hkinds, ← hφ, List.map_map, List.zipWith_map, List.zipWith_self]
  rfl

end Lexer

/-! ## Compilations -/

theorem Instruction.map_render_of_alike {m : Relabeling} (hm : m.KeepsNames) (comments : Bool)
    {is is' : List Instruction} (h : List.Forall₂ (Alike m) is is') :
    is'.map (·.render comments) = is.map (·.render comments) := by
  induction h with
  | nil => rfl
  | @cons i i' is is' hi _ ih =>
    have hrender : i'.render comments = i.render comments := by
      rw [hi.eq_of_keepsNames hm]
      rfl
    rw [List.map_cons, List.map_cons, ih, hrender]

@[simp] theorem Failure.unplaced_withSource (source : List Char) (e : Failure) :
    (Compile.withSource source e).unplaced = e.unplaced := by
  cases e with
  | diagnostic d =>
    have hcause : (d.attachSource source).cause = d.cause := by
      unfold Diagnostic.attachSource
      split <;> rfl
    simp only [Compile.withSource, unplaced, hcause]
  | _ => rfl

theorem ParseFault.unplaced_failure (file : String) (source : List Char) (finish : Position)
    (f : ParseFault) :
    (f.failure file source finish).unplaced = .diagnostic { cause := f.cause.unplaced } := by
  obtain ⟨shown, hfailure, -⟩ := f.failure_eq file source finish
  rw [hfailure]
  rfl

namespace Compile

variable {options : Options} {file : String}

/-- Where the tokens of a source stand has no part in what it is compiled to. -/
theorem matches_stages_of_move {source source' : List Char} {ts ts' : TokenList}
    {φ : Position ↪ Position} (hscan : Lexer.scan source = .ok ts)
    (hscan' : Lexer.scan source' = .ok ts') (hmove : ts'.tokens = ts.tokens.map (Token.move φ)) :
    Matches (fun e e' => e'.unplaced = e.unplaced) (fun c c' => c'.product = c.product)
      (stages options file source).result (stages options file source').result := by
  refine Matches.of_map (S := fun a b => b = a) ?_
  rw [map_product_stages, map_product_stages, TokenList.ofSource_eq_ok.2 hscan,
    TokenList.ofSource_eq_ok.2 hscan']
  have hparse := Program.matches_parse φ ts.tokens options.limits
  rw [← hmove] at hparse
  have hprogram : Matches (fun e e' => e'.unplaced = e.unplaced)
      (fun p p' => p' = p.relabel (.moving φ)) (ts.program file source options.limits)
      (ts'.program file source' options.limits) := by
    unfold TokenList.program
    cases hx : Program.parse ts.tokens options.limits with
    | ok p =>
      obtain ⟨p', hy, hp⟩ := hparse.exists_ok hx
      rw [hy]
      exact Matches.ok hp
    | error fault =>
      obtain ⟨fault', hy, rfl⟩ := hparse.exists_error hx
      rw [hy]
      refine Matches.error ?_
      rw [ParseFault.unplaced_failure, ParseFault.unplaced_failure]
      rfl
  refine hprogram.bind ?_
  rintro p _ rfl
  have hkeeps := Relabeling.keepsNames_moving φ
  refine ((p.matches_build file options).mono (fun e e' he => he.told hkeeps)
    fun b b' hb => hb).bind fun b b' hb => Matches.ok ?_
  rw [Linked.render, Instruction.map_render_of_alike hkeeps _ hb.instructions, hb.registers,
    Linked.size, ← hb.instructions.length_eq]
  rfl

/-- White space has no part in a compilation. A source that is read as tokens is made up of
lexemes. With any white space after each of them it is read as the same tokens, and it is compiled
to the same, or the same fault is told. -/
theorem result_spaced {source : List Char} {ts : TokenList} (h : Lexer.scan source = .ok ts) :
    (∃ ls, Lexer.Spelt source ls) ∧
      ∀ (before : List Char) (xs : List (Lexer.Lexeme × List Char)), Lexer.Blank before →
        (∀ x ∈ xs, x.2 ≠ [] ∧ Lexer.Blank x.2) → Lexer.Spelt source (xs.map (·.1)) →
          (∃ ts', Lexer.scan (Lexer.spaced before xs) = .ok ts' ∧
            ts'.tokens.map (·.kind) = ts.tokens.map (·.kind)) ∧
          ∀ (options : Options) (file : String),
            Matches (fun e e' => e'.unplaced = e.unplaced) (fun c c' => c'.product = c.product)
              (Compile.source options file source).result
              (Compile.source options file (Lexer.spaced before xs)).result := by
  constructor
  · obtain ⟨tiles, htiles, -⟩ := Lexer.scan_eq_ok_iff.1 h
    exact ⟨_, tiles, htiles, rfl⟩
  · rintro before xs hbefore hxs ⟨tiles, htiles, hlexemes⟩
    obtain rfl := Except.ok.inj (h.symm.trans (Lexer.scan_eq_ok_iff.2 ⟨tiles, htiles, rfl⟩))
    have hspells : ∀ x ∈ xs, ∃ rest, Lexer.Spells x.1.kind x.1.text rest := fun x hx =>
      Lexer.exists_spells_of_tiles htiles x.1 (hlexemes ▸ List.mem_map_of_mem hx)
    have htiles' := Lexer.tiles_spaced hbefore hxs hspells
    have hscan' := Lexer.scan_eq_ok_iff.2 ⟨_, htiles', rfl⟩
    have hkinds : (Lexer.tokensFrom .first (Lexer.spacedTiles before xs)).map (·.kind) =
        (Lexer.tokensFrom .first tiles).map (·.kind) := by
      rw [Lexer.kinds_tokensFrom, Lexer.kinds_tokensFrom, Lexer.lexemes_spacedTiles, hlexemes]
    obtain ⟨φ, hφ⟩ := Lexer.exists_move_of_kinds hkinds
      ((Lexer.pairwise_tokensFrom htiles .first).imp fun hbefore => hbefore.ne)
      ((Lexer.pairwise_tokensFrom htiles' .first).imp fun hbefore => hbefore.ne)
    refine ⟨⟨_, hscan', hkinds⟩, fun options file => ?_⟩
    rw [result_source, result_source]
    refine Matches.bind ((matches_stages_of_move h hscan' hφ).map_error fun e e' he => ?_)
      fun c c' hc => ?_
    · rw [Failure.unplaced_withSource, Failure.unplaced_withSource, he]
    · split
      · exact Matches.ok hc
      · exact Matches.error rfl

/-- A `yield` with a comment before its semicolon is made up of two lexemes. -/
theorem tiles_commentedYield :
    Lexer.Tiles ['y', 'i', 'e', 'l', 'd', '/', '*', '*', '/', ';']
      [⟨[], ⟨.keyword .yield, ['y', 'i', 'e', 'l', 'd']⟩⟩,
        ⟨['/', '*', '*', '/'], ⟨.symbol .semicolon, [';']⟩⟩] := by
  have hword : Lexer.Spells (.keyword .yield) ['y', 'i', 'e', 'l', 'd']
      ['/', '*', '*', '/', ';'] := by
    have hkind : Lexer.wordKind (String.ofList ['y', 'i', 'e', 'l', 'd']) = .keyword .yield := by
      decide
    rw [← hkind]
    exact .word (by decide) (List.all_eq_true.1 (by decide)) (by simp; decide)
  have hcomment : Lexer.Filler ('/' :: '*' :: ([] ++ '*' :: '/' :: [])) [';'] :=
    .block (by simp) .nil
  have hsemicolon : Lexer.Spells (.symbol .semicolon) [';'] [] := .symbol (by simp)
  have hrest := Lexer.Tiles.cons (l := ⟨.symbol .semicolon, [';']⟩) hcomment
    (Lexer.starts_of_solid (by decide) (by decide)) hsemicolon (.last .nil)
  exact Lexer.Tiles.cons (l := ⟨.keyword .yield, ['y', 'i', 'e', 'l', 'd']⟩) .nil
    (Lexer.starts_of_solid (by decide) (by decide)) hword hrest

theorem result_spaced_commentedYield :
    (∃ ts, Lexer.scan ['y', 'i', 'e', 'l', 'd', '/', '*', '*', '/', ';'] = .ok ts) ∧
      ∀ (options : Options) (file : String),
        Matches (fun e e' => e'.unplaced = e.unplaced) (fun c c' => c'.product = c.product)
          (Compile.source options file
            ['y', 'i', 'e', 'l', 'd', '/', '*', '*', '/', ';']).result
          (Compile.source options file
            ['\n', 'y', 'i', 'e', 'l', 'd', '\t', '\r', ';', ' ']).result := by
  have hscan := Lexer.scan_eq_ok_iff.2 ⟨_, tiles_commentedYield, rfl⟩
  refine ⟨⟨_, hscan⟩, ((result_spaced hscan).2 ['\n']
    [(⟨.keyword .yield, ['y', 'i', 'e', 'l', 'd']⟩, ['\t', '\r']),
      (⟨.symbol .semicolon, [';']⟩, [' '])] ?_ ?_ ⟨_, tiles_commentedYield, rfl⟩).2⟩
  · simp [Lexer.Blank, Lexer.isSpace]
  · simp [Lexer.Blank, Lexer.isSpace]

end Compile

end Chipwright
