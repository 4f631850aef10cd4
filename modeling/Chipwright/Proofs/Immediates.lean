import Chipwright.Proofs.Annotation.Pieces
import Chipwright.Proofs.LinkSafety

/-!
# The values in the text of a program

An opcode tells which of the words after it are values, so the values of a program are found in its
text. Each of them is a register or a number. A number is a literal of the source, and it is written
with digits unless it is infinite. Whole numbers are bounded when a source is read, but fractions
are not: one that is too great for a finite number is read as infinite, and so it is written.

## Main definitions

* `Text.values`: the values in the text of a program
* `Lexer.Overflows`: a source has a fraction that is too great

## Main statements

* `Linked.values_render`: the values are the operands in the places for values
* `Compile.values_of_source`: the values that a source is compiled to
-/
namespace Chipwright

/-! ## Places for values -/

/-- What stands in the places for values, of what follows an opcode. -/
def Opcode.valuesOf {α : Type} (o : Opcode) (xs : List α) : List α :=
  ((o.operands.zip xs).filter fun p => p.1 = .value).map Prod.snd

theorem Opcode.valuesOf_map {α β : Type} (o : Opcode) (f : α → β) (xs : List α) :
    o.valuesOf (xs.map f) = (o.valuesOf xs).map f := by
  simp only [valuesOf, List.zip_map_right, List.filter_map, List.map_map]
  rfl

theorem Opcode.ofMnemonic?_mnemonic (o : Opcode) : ofMnemonic? o.mnemonic = some o := by
  cases o <;> decide

namespace Text

/-- The values of a line, by the places that its first word has for them. -/
def lineValues (line : List Char) : List (List Char) :=
  match line.splitOn ' ' with
  | [] => []
  | word :: words => ((Opcode.ofMnemonic? (String.ofList word)).map (·.valuesOf words)).getD []

/-- The values in the text of a program. -/
def values (text : String) : List (List Char) :=
  ((withoutComments text).toList.splitOn '\n').flatMap lineValues

end Text

namespace Instruction

variable {i : Instruction}

/-- The operands in the places for values. -/
def values (i : Instruction) : List Operand := i.opcode.valuesOf i.operands

theorem lineValues_render (h : i.Shows Word.Solid) (hlinked : i.isLinked) :
    Text.lineValues (i.render false).toList = i.values.map fun x => x.text.toList := by
  have hsplit : (i.render false).toList.splitOn ' ' = i.words.map String.toList := by
    rw [render_false, String.toList_intercalate]
    refine List.splitOn_intercalate ' ' (List.forall_mem_map.2 fun t ht hblank => ?_)
      (by simp [words])
    exact (solid_words h hlinked t ht ' ' hblank).1 rfl
  rw [Text.lineValues, hsplit]
  simp only [words, List.map_cons, List.map_map, String.ofList_toList, Opcode.ofMnemonic?_mnemonic,
    Option.map_some, Option.getD_some, Opcode.valuesOf_map]
  rfl

theorem mem_zip_of_mem_values {x : Operand} (hx : x ∈ i.values) :
    (OperandKind.value, x) ∈ i.opcode.operands.zip i.operands := by
  obtain ⟨⟨kind, x⟩, hp, rfl⟩ := List.mem_map.1 hx
  obtain ⟨hp, hkind⟩ := List.mem_filter.1 hp
  obtain rfl : kind = .value := of_decide_eq_true hkind
  exact hp

/-- Values are registers and numbers. -/
theorem value_cases (h : i.WellFormed) (hlinked : i.isLinked) {x : Operand} (hx : x ∈ i.values) :
    (∃ r, x = .register r) ∨ ∃ y, x = .number y := by
  have hp := mem_zip_of_mem_values hx
  have haccepts : OperandKind.value.accepts x = true := h.2 _ hp
  have hnone : x.isSymbolic = false := isLinked_iff.1 hlinked x (List.of_mem_zip hp).2
  cases x with
  | register r => exact Or.inl ⟨r, rfl⟩
  | number y => exact Or.inr ⟨y, rfl⟩
  | parameter f index => cases hnone
  | _ => cases haccepts

end Instruction

/-- The values in the text of a program are the operands in the places for values. -/
theorem Linked.values_render {p : Linked} {comments : Bool}
    (h : ∀ i ∈ p.instructions, i.Shows Word.Solid ∧ i.isLinked) :
    Text.values (p.render comments) =
      p.instructions.flatMap fun i => i.values.map fun x => x.text.toList := by
  rw [Text.values, withoutComments_render h]
  by_cases hempty : p.instructions = []
  · simp only [render, hempty]
    decide
  rw [splitOn_render h hempty, List.flatMap_map]
  exact List.flatMap_congr fun i hi => Instruction.lineValues_render (h i hi).1 (h i hi).2

/-! ## Infinite literals -/

namespace Lexer

variable {source : List Char} {ts : TokenList}

/-- How a fraction is spelt, with the number that it stands for. -/
inductive Fraction : ℚ → List Char → Prop
  | mk {whole digits mark : List Char} {power : Int} : whole ≠ [] →
    (∀ d ∈ whole, d.isDigit = true) → digits ≠ [] → (∀ d ∈ digits, d.isDigit = true) →
    Exponent mark power → Fraction (numeral 10 (whole ++ digits) * 10 ^ (power - digits.length))
      (whole ++ '.' :: (digits ++ mark))

/-- A source has a fraction that is too great, which is read as infinite. -/
def Overflows (source : List Char) : Prop :=
  ∃ tiles, Tiles source tiles ∧ ∃ tile ∈ tiles, tile.lexeme.kind = .float (.infinite false) ∧
    ∃ q, Decimal.overflowBound ≤ q ∧ Fraction q tile.lexeme.text

/-- A fraction is read as a finite number, unless it is too great. -/
theorem float_of_scan (h : scan source = .ok ts) {x : Decimal.Binary64} {pos : Position}
    (hmem : ⟨.float x, pos⟩ ∈ ts.tokens) :
    (∃ m e, x = .finite false m e) ∨ x = .infinite false ∧ Overflows source := by
  obtain ⟨tiles, htiles, tile, htile, hkind, hspelling⟩ := exists_tile_of_scan h hmem
  generalize htext : tile.lexeme.text = text at hspelling
  cases hspelling with
  | fraction hne hwhole hdigits hall hmark hnearest =>
    cases hnearest with
    | finite => exact Or.inl ⟨_, _, rfl⟩
    | infinite hle =>
      refine Or.inr ⟨rfl, tiles, htiles, tile, htile, hkind, _, hle, ?_⟩
      rw [htext]
      exact .mk hne hwhole hdigits hall hmark

theorem overflows_iff (h : scan source = .ok ts) :
    Overflows source ↔ ∃ t ∈ ts.tokens, t.kind = .float (.infinite false) := by
  constructor
  · rintro ⟨tiles, htiles, tile, htile, hkind, -⟩
    obtain rfl := Except.ok.inj (h.symm.trans (scan_eq_ok_iff.2 ⟨tiles, htiles, rfl⟩))
    have hmem : tile.lexeme.kind ∈ (tokensFrom .first tiles).map (·.kind) := by
      rw [kinds_tokensFrom, List.map_map]
      exact List.mem_map.2 ⟨tile, htile, rfl⟩
    obtain ⟨t, ht, heq⟩ := List.mem_map.1 hmem
    exact ⟨t, ht, heq.trans hkind⟩
  · rintro ⟨⟨kind, pos⟩, ht, rfl⟩
    rcases float_of_scan h ht with ⟨m, e, heq⟩ | ⟨-, hover⟩
    · cases heq
    · exact hover

end Lexer

/-- A name is one word. A value is written as a number, or it may be infinite. -/
def Word.Readable (overflows : Prop) : Word → Prop
  | name x => Text.Solid x.toList
  | value x => Text.IsNumeral x.immediate.toList ∨
      (∃ negative, x = .float (.infinite negative)) ∧ overflows

theorem Word.Readable.solid {overflows : Prop} {w : Word} (h : w.Readable overflows) :
    w.Solid := by
  cases w with
  | name x => exact h
  | value x => trivial

/-- The literals of a source are infinite only where a fraction is too great. -/
theorem Lexer.readable_of_scan {source : List Char} {ts used : List Token} {finish : Position}
    (h : scan source = .ok ⟨ts, finish⟩) (hused : used ⊆ ts) {pos : Position} {x : Literal}
    (hx : Grammar.IsLiteral used pos x) : (Word.value x).Readable (Overflows source) := by
  have hfinite (y : Literal) (hne : ∀ z, y ≠ .float z) : Text.IsNumeral y.immediate.toList := by
    refine y.immediate_cases.resolve_right ?_
    rintro (⟨negative, heq⟩ | heq) <;> exact hne _ heq
  have hfloat (negative : Bool) (m : Nat) (e : Int) :
      Text.IsNumeral (Literal.float (.finite negative m e)).immediate.toList := by
    refine (Literal.immediate_cases _).resolve_right ?_
    rintro (⟨negative, heq⟩ | heq) <;> cases heq
  cases hx with
  | float =>
    rcases float_of_scan h (hused (List.mem_singleton_self _)) with ⟨m, e, rfl⟩ | ⟨rfl, hover⟩
    · exact Or.inl (hfloat false m e)
    · exact Or.inr ⟨⟨false, rfl⟩, hover⟩
  | negativeFloat =>
    rcases float_of_scan h (hused (List.mem_cons_of_mem _ (List.mem_singleton_self _))) with
      ⟨m, e, rfl⟩ | ⟨rfl, hover⟩
    · exact Or.inl (hfloat true m e)
    · exact Or.inr ⟨⟨true, rfl⟩, hover⟩
  | _ => exact Or.inl (hfinite _ nofun)

namespace Compile

/-- Where an instruction of a compiled source takes a value, there is a register or a number that is
written with digits, unless a fraction of the source is too great for a finite number. Then it may
be infinite. -/
theorem values_of_source {options : Options} {file : String} {text : List Char} {c : Compiled}
    (h : (source options file text).result = .ok c) :
    ∀ t ∈ Text.values c.assembly, (∃ r : Register, t = r.name.toList) ∨ Text.IsNumeral t ∨
      (t = "inf".toList ∨ t = "-inf".toList) ∧ Lexer.Overflows text := by
  obtain ⟨ts, p, r, g, linked, hscan, hparse, hresolve, hg, hlink, hassembly⟩ := exists_stages h
  have hwords : ∀ w ∈ r.words, w.Readable (Lexer.Overflows text) := by
    refine Program.says_of_resolve ⟨fun t ht x hx _ => Lexer.solid_of_scan hscan t ht x hx, ?_⟩
      (Program.parse_eq_ok_iff.1 hparse).1 hresolve
    exact fun used pos x hused hx => Lexer.readable_of_scan hscan hused hx
  have hshows : ∀ i ∈ linked.instructions,
      i.Shows (Word.Readable (Lexer.Overflows text)) ∧ i.isLinked :=
    Resolved.Program.shows_of_link (fun _ hw => hw.solid)
      (fun n => Or.inl (Text.isNumeral_int n)) hwords hg hlink
  have hformed : ∀ i ∈ linked.instructions, i.WellFormed := by
    obtain ⟨linked', hlink', hformed⟩ := Program.exists_wellFormed_link hresolve hg
    obtain rfl := Except.ok.inj (hlink.symm.trans hlink')
    exact hformed
  have hvalues : Text.values (linked.render options.emitComments) = _ :=
    Linked.values_render fun i hi => ⟨(hshows i hi).1.mono fun _ hw => hw.solid, (hshows i hi).2⟩
  intro t ht
  rw [hassembly, hvalues] at ht
  obtain ⟨i, hi, ht⟩ := List.mem_flatMap.1 ht
  obtain ⟨x, hx, rfl⟩ := List.mem_map.1 ht
  rcases Instruction.value_cases (hformed i hi) (hshows i hi).2 hx with ⟨r, rfl⟩ | ⟨y, rfl⟩
  · exact Or.inl ⟨r, rfl⟩
  · have hy : (Word.value y).Readable (Lexer.Overflows text) :=
      (hshows i hi).1.operands _ (List.of_mem_zip (Instruction.mem_zip_of_mem_values hx)).2
    rcases hy with hy | ⟨⟨negative, rfl⟩, hover⟩
    · exact Or.inr (Or.inl hy)
    · refine Or.inr (Or.inr ⟨?_, hover⟩)
      cases negative with
      | true => exact Or.inr rfl
      | false => exact Or.inl rfl

/-- A program with the greatest finite number. -/
def greatestText : String := "let x = 1.7976931348623157e308; if (x > -2.5) \x7b x = 0x10; \x7d"

/-- The greatest finite number is not too great, so all values are registers and numbers. -/
theorem values_of_greatest : ∃ c,
    (source { emitComments := true } unnamed greatestText.toList).result = .ok c ∧
    (Text.values c.assembly).map String.ofList =
      ["1.7976931348623157e+308", "r0", "-2.5", "r1", "16"] ∧
    ∀ t ∈ Text.values c.assembly, (∃ r : Register, t = r.name.toList) ∨ Text.IsNumeral t := by
  have hsome : ((source { emitComments := true } unnamed greatestText.toList).result.toOption.bind
      fun c => if (Text.values c.assembly).map String.ofList =
        ["1.7976931348623157e+308", "r0", "-2.5", "r1", "16"] then some c else none).isSome := by
    decide +kernel
  have hscan : ((Lexer.scan greatestText.toList).toOption.bind fun ts =>
      if ∀ t ∈ ts.tokens, t.kind ≠ .float (.infinite false) then some ts else none).isSome := by
    decide +kernel
  obtain ⟨c, hc⟩ := Option.isSome_iff_exists.1 hsome
  obtain ⟨c, hresult, hc⟩ := Option.bind_eq_some_iff.1 hc
  obtain ⟨ts, hts⟩ := Option.isSome_iff_exists.1 hscan
  obtain ⟨ts, htokens, hts⟩ := Option.bind_eq_some_iff.1 hts
  rw [toOption_eq_some] at hresult htokens
  split at hc
  case isFalse => cases hc
  case isTrue hvalues =>
    split at hts
    case isFalse => cases hts
    case isTrue hfinite =>
      refine ⟨c, hresult, hvalues, fun t ht => ?_⟩
      refine (values_of_source hresult t ht).imp_right fun h => h.resolve_right fun hinfinite => ?_
      obtain ⟨t, ht, hkind⟩ := (Lexer.overflows_iff htokens).1 hinfinite.2
      exact hfinite t ht hkind

/-- A fraction that is too great is compiled to a value that is neither a register nor a number. -/
theorem exists_infinite_value : ∃ c,
    (source {} unnamed "let x = 1.0e999;".toList).result = .ok c ∧ c.assembly = "move r0 inf" ∧
    ∃ t ∈ Text.values c.assembly, (∀ r : Register, t ≠ r.name.toList) ∧ ¬ Text.IsNumeral t := by
  have hsome : ((source {} unnamed "let x = 1.0e999;".toList).result.toOption.bind fun c =>
      if c.assembly = "move r0 inf" then some c else none).isSome := by
    decide +kernel
  obtain ⟨c, hc⟩ := Option.isSome_iff_exists.1 hsome
  obtain ⟨c, hresult, hc⟩ := Option.bind_eq_some_iff.1 hc
  rw [toOption_eq_some] at hresult
  split at hc
  case isFalse => cases hc
  case isTrue hassembly =>
    refine ⟨c, hresult, hassembly, "inf".toList, ?_, ?_, fun h => ?_⟩
    · rw [hassembly]
      decide +kernel
    · rintro ⟨index⟩
      revert index
      decide
    · exact absurd (h.mem (c := 'i') (by decide)) (by decide)

end Compile

end Chipwright
