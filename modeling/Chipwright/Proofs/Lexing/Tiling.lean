import Chipwright.Proofs.Decimal.Rounding
import Chipwright.Proofs.Lexing.Positions
import Mathlib.Data.List.DropRight
import Mathlib.Data.Nat.Digits.Defs
import Mathlib.Tactic.FinCases

/-!
# The tiling of a text

The rules by which a text is read, as rules over spellings: how each token is spelt, what number a
numeral stands for, what must not follow a lexeme, and where tokens are placed. A text is read as
tokens exactly if it can be cut into fillers and lexemes by these rules.

## Main definitions

* `Position.ofText`: the place after a text, counted by lines and columns
* `Lexer.Spelling`: how a token is spelt
* `Lexer.Maximal`: a lexeme cannot be read on
* `Lexer.Tiling`: fillers and lexemes that make up a text, with the tokens that they are read as

## Main statements

* `Lexer.scan_iff_tiling`: a text is read as the tokens of its tiling
-/
namespace Chipwright

namespace Position

/-- The place after a text: the line is counted by newlines, the column from the last of them. -/
def ofText (before : List Char) : Position where
  line := 1 + before.count '\n'
  column := 1 + (before.rtakeWhile (· ≠ '\n')).length

theorem after_first (before : List Char) : first.after before = ofText before := by
  induction before using List.reverseRecOn with
  | nil => rfl
  | append_singleton before c ih =>
    rw [after_append, ih, after_cons, after_nil, next, ofText, ofText]
    by_cases hc : c = '\n'
    · rw [if_pos hc, List.rtakeWhile_concat_neg _ _ _ (by simp [hc])]
      simp [hc, Nat.add_assoc]
    · rw [if_neg hc, List.rtakeWhile_concat_pos _ _ _ (by simp [hc])]
      simp [hc, Nat.add_assoc]

end Position

namespace Lexer

variable {cs : List Char}

/-- The number that digits stand for in a base. -/
def numeral (base : Nat) (digits : List Char) : Nat :=
  Nat.ofDigits base (digits.map Text.asciiDigit).reverse

theorem numeral_append_singleton (base : Nat) (digits : List Char) (d : Char) :
    numeral base (digits ++ [d]) = base * numeral base digits + Text.asciiDigit d := by
  simp [numeral, Nat.ofDigits_cons, Nat.add_comm]

theorem asciiNumber_eq_numeral (base : Nat) (digits : List Char) :
    Text.asciiNumber base digits = numeral base digits := by
  induction digits using List.reverseRecOn with
  | nil => rfl
  | append_singleton digits d ih =>
    rw [numeral_append_singleton, ← ih, Text.asciiNumber, List.map_append, List.map_singleton,
      Text.ofDigits_append_singleton, Text.asciiNumber]

/-- The sixteen digits stand for their values, in either case. -/
theorem asciiDigit_digitChar : ∀ d < 16,
    Text.asciiDigit (Nat.digitChar d) = d ∧ Text.asciiDigit (Nat.digitChar d).toUpper = d := by
  decide

/-- The digits of a number stand for it, in every base up to sixteen and in either case. -/
theorem numeral_toDigits {base : Nat} (hone : 1 < base) (hbase : base ≤ 16) (n : Nat) :
    numeral base (Nat.toDigits base n) = n ∧
      numeral base ((Nat.toDigits base n).map Char.toUpper) = n := by
  induction n using Nat.strongRecOn with
  | ind n ih =>
    rcases Nat.lt_or_ge n base with hlt | hle
    · rw [Nat.toDigits_of_lt_base hlt]
      simpa [numeral] using asciiDigit_digitChar n (by omega)
    · have hmod := Nat.mod_lt n (Nat.lt_trans Nat.one_pos hone)
      obtain ⟨hdigit, hdigit'⟩ := asciiDigit_digitChar (n % base) (by omega)
      obtain ⟨hrest, hrest'⟩ := ih (n / base) (Nat.div_lt_self (by omega) hone)
      rw [Nat.toDigits_of_base_le hone hle, List.map_append, List.map_singleton,
        numeral_append_singleton, numeral_append_singleton, hdigit, hdigit', hrest, hrest']
      exact ⟨Nat.div_add_mod n base, Nat.div_add_mod n base⟩

/-- How a token is spelt. Whole numbers are written in decimal, or after a mark in another base;
fractions have a point between digits and may have an exponent. -/
inductive Spelling : TokenKind → List Char → Prop
  | keyword (k : Keyword) : Spelling (.keyword k) k.text.toList
  | device (slot : Slot) : Spelling (.device slot) slot.name.toList
  | name {c : Char} {cs : List Char} : isNameStart c = true → (∀ d ∈ cs, isNameChar d = true) →
    (∀ k : Keyword, k.text.toList ≠ c :: cs) → (∀ slot : Slot, slot.name.toList ≠ c :: cs) →
      Spelling (.name (String.ofList (c :: cs))) (c :: cs)
  | marked {mark : Char} {base : Nat} {isDigit : Char → Bool} {digits : List Char} :
    Mark mark base isDigit → digits ≠ [] → (∀ d ∈ digits, isDigit d = true) →
    numeral base digits ≤ 2 ^ 63 → Spelling (.integer (numeral base digits)) ('0' :: mark :: digits)
  | decimal {digits : List Char} : digits ≠ [] → (∀ d ∈ digits, d.isDigit = true) →
    digits.length ≤ Decimal.digitLimit → numeral 10 digits ≤ 2 ^ 63 →
      Spelling (.integer (numeral 10 digits)) digits
  | fraction {whole digits mark : List Char} {power : Int} {x : Decimal.Binary64} : whole ≠ [] →
    (∀ d ∈ whole, d.isDigit = true) → digits ≠ [] → (∀ d ∈ digits, d.isDigit = true) →
    Exponent mark power →
    Decimal.Nearest (numeral 10 (whole ++ digits) * 10 ^ (power - digits.length)) x →
      Spelling (.float x) (whole ++ '.' :: (digits ++ mark))
  | symbol (s : Symbol) : Spelling (.symbol s) s.text.toList

/-- A lexeme cannot be read on: no character of a name follows a word or a number, no digit after a
point follows a whole number in decimal, and no character follows a symbol with which it would be
another symbol, or the start of a comment. -/
def Maximal (kind : TokenKind) (text rest : List Char) : Prop :=
  match kind with
  | .symbol s => (s = .assign ∨ s = .not ∨ s = .lt ∨ s = .gt → Stops (· = '=') rest) ∧
      (s = .slash → Stops (fun c => c = '/' || c = '*') rest)
  | .integer _ => Stops isNameChar rest ∧
      ((∀ d ∈ text, d.isDigit = true) → ∀ more, rest = '.' :: more → Stops Char.isDigit more)
  | _ => Stops isNameChar rest

/-! ### Words -/

theorem wordKind_keyword (k : Keyword) : wordKind k.text = .keyword k := by
  cases k <;> decide

theorem wordKind_device (slot : Slot) : wordKind slot.name = .device slot := by
  cases slot with
  | pin n =>
    revert n
    decide
  | housing => decide

/-- A word that is neither a keyword nor a device is a name. -/
theorem wordKind_name (hk : ∀ k : Keyword, k.text.toList ≠ cs)
    (hslot : ∀ slot : Slot, slot.name.toList ≠ cs) :
    wordKind (String.ofList cs) = .name (String.ofList cs) := by
  have hkeyword : Keyword.ofText? (String.ofList cs) = none := by
    refine List.find?_eq_none.2 fun k _ heq => hk k ?_
    rw [of_decide_eq_true heq, String.toList_ofList]
  have hdevice : Slot.ofName? (String.ofList cs) = none := by
    refine List.find?_eq_none.2 fun slot _ heq => hslot slot ?_
    rw [of_decide_eq_true heq, String.toList_ofList]
  rw [wordKind, hkeyword]
  simp only [hdevice]

theorem spelling_word {c : Char} (hc : isNameStart c = true) (hcs : ∀ d ∈ cs, isNameChar d = true) :
    Spelling (wordKind (String.ofList (c :: cs))) (c :: cs) := by
  by_cases hk : ∃ k : Keyword, k.text.toList = c :: cs
  · obtain ⟨k, hk⟩ := hk
    rw [← hk, String.ofList_toList, wordKind_keyword]
    exact .keyword k
  by_cases hslot : ∃ slot : Slot, slot.name.toList = c :: cs
  · obtain ⟨slot, hslot⟩ := hslot
    rw [← hslot, String.ofList_toList, wordKind_device]
    exact .device slot
  · have hk := not_exists.1 hk
    have hslot := not_exists.1 hslot
    rw [wordKind_name hk hslot]
    exact .name hc hcs hk hslot

/-- Keywords are spelt like names. -/
theorem keyword_chars (k : Keyword) : ∃ c cs, k.text.toList = c :: cs ∧ isNameStart c = true ∧
    ∀ d ∈ cs, isNameChar d = true := by
  cases k <;> exact ⟨_, _, rfl, by decide, List.all_eq_true.1 (by decide)⟩

/-- Devices are spelt like names. -/
theorem device_chars (slot : Slot) : ∃ c cs, slot.name.toList = c :: cs ∧ isNameStart c = true ∧
    ∀ d ∈ cs, isNameChar d = true := by
  cases slot with
  | pin n => fin_cases n <;> exact ⟨_, _, rfl, by decide, List.all_eq_true.1 (by decide)⟩
  | housing => exact ⟨_, _, rfl, by decide, List.all_eq_true.1 (by decide)⟩

theorem maximal_word {word : String} {text rest : List Char} (h : Stops isNameChar rest) :
    Maximal (wordKind word) text rest := by
  unfold wordKind
  split
  · exact h
  · split <;> exact h

/-! ### Lexemes -/

/-- The rules for spellings are those by which lexemes are read. -/
theorem spells_iff {kind : TokenKind} {text rest : List Char} :
    Spells kind text rest ∧ Starts (text ++ rest) ↔
      Spelling kind text ∧ Maximal kind text rest := by
  have hgreatest : greatestMagnitude = 2 ^ 63 := rfl
  constructor
  · rintro ⟨h, hstarts⟩
    cases h with
    | word hc hcs hrest => exact ⟨spelling_word hc hcs, maximal_word hrest⟩
    | @marked mark base isDigit digits _ hmark hne hdigits hle hrest =>
      rw [asciiNumber_eq_numeral, hgreatest] at *
      refine ⟨.marked hmark hne hdigits hle, hrest, fun hall => ?_⟩
      have hm := hall mark (by simp)
      rw [hmark.not_isDigit] at hm
      cases hm
    | decimal hne hdigits hlength hle hrest hpoint =>
      rw [asciiNumber_eq_numeral] at *
      exact ⟨.decimal hne hdigits hlength hle, hrest, fun _ => hpoint⟩
    | @fraction whole digits mark _ power hne hwhole hne' hdigits hmark hrest =>
      refine ⟨.fraction hne hwhole hne' hdigits hmark ?_, hrest⟩
      rw [← asciiNumber_eq_numeral]
      exact Decimal.nearest_ofDecimal _ _
    | @symbol s _ hrest =>
      refine ⟨.symbol s, hrest, ?_⟩
      rintro rfl
      exact (starts_iff_of_spells (.symbol hrest)).1 hstarts rfl
  · rintro ⟨h, hmaximal⟩
    cases h with
    | keyword k =>
      obtain ⟨c, cs, hk, hc, hcs⟩ := keyword_chars k
      rw [hk, ← wordKind_keyword k, ← String.ofList_toList (s := k.text), hk]
      exact ⟨.word hc hcs hmaximal, starts_of_isNameChar (isNameChar_of_isNameStart hc)⟩
    | device slot =>
      obtain ⟨c, cs, hslot, hc, hcs⟩ := device_chars slot
      rw [hslot, ← wordKind_device slot, ← String.ofList_toList (s := slot.name), hslot]
      exact ⟨.word hc hcs hmaximal, starts_of_isNameChar (isNameChar_of_isNameStart hc)⟩
    | name hc hcs hk hslot =>
      rw [← wordKind_name hk hslot]
      exact ⟨.word hc hcs hmaximal, starts_of_isNameChar (isNameChar_of_isNameStart hc)⟩
    | marked hmark hne hdigits hle =>
      rw [← asciiNumber_eq_numeral] at *
      exact ⟨.marked hmark hne hdigits hle hmaximal.1, starts_of_isNameChar (by decide)⟩
    | decimal hne hdigits hlength hle =>
      rw [← asciiNumber_eq_numeral] at *
      have hspells := Spells.decimal hne hdigits hlength hle hmaximal.1 (hmaximal.2 hdigits)
      exact ⟨hspells, (starts_iff_of_spells hspells).2 (by simp)⟩
    | fraction hne hwhole hne' hdigits hmark hnearest =>
      rw [← asciiNumber_eq_numeral] at hnearest
      rw [hnearest.unique (Decimal.nearest_ofDecimal _ _)]
      have hspells := Spells.fraction hne hwhole hne' hdigits hmark hmaximal
      exact ⟨hspells, (starts_iff_of_spells hspells).2 (by simp)⟩
    | symbol s =>
      have hspells := Spells.symbol hmaximal.1
      refine ⟨hspells, (starts_iff_of_spells hspells).2 fun hs => hmaximal.2 (by simpa using hs)⟩

/-! ### Tilings -/

/-- The text that tiles make up. -/
def textOf (tiles : List Tile) : List Char := tiles.flatMap fun t => t.filler ++ t.lexeme.text

/-- Fillers and lexemes that make up a text, with the tokens that they are read as. -/
structure Tiling (source : List Char) (ts : TokenList) (tiles : List Tile) (last : List Char) :
    Prop where
  covers : source = textOf tiles ++ last
  length : ts.tokens.length = tiles.length
  /-- Each lexeme is spelt by the rules and cannot be read on; its token is at its start. -/
  tile : ∀ before t after, tiles = before ++ t :: after →
    Filler t.filler (t.lexeme.text ++ (textOf after ++ last)) ∧
      Spelling t.lexeme.kind t.lexeme.text ∧
      Maximal t.lexeme.kind t.lexeme.text (textOf after ++ last) ∧
      ts.tokens[before.length]? = some ⟨t.lexeme.kind, .ofText (textOf before ++ t.filler)⟩
  trailing : Filler last []
  finish : ts.finish = .ofText source

@[simp] theorem textOf_cons (t : Tile) (tiles : List Tile) :
    textOf (t :: tiles) = t.filler ++ (t.lexeme.text ++ textOf tiles) := by
  simp [textOf]

theorem length_tokensFrom (pos : Position) (tiles : List Tile) :
    (tokensFrom pos tiles).length = tiles.length := by
  induction tiles generalizing pos with
  | nil => rfl
  | cons t tiles ih => simp [tokensFrom, ih]

theorem getElem?_tokensFrom (pos : Position) (before : List Tile) (t : Tile) (after : List Tile) :
    (tokensFrom pos (before ++ t :: after))[before.length]? =
      some ⟨t.lexeme.kind, pos.after (textOf before ++ t.filler)⟩ := by
  induction before generalizing pos with
  | nil => simp [tokensFrom, textOf]
  | cons t' before ih =>
    simp [tokensFrom, ih, Position.after_append]

/-- The tiles of a text, told one by one. -/
theorem tiles_iff {tiles : List Tile} : Tiles cs tiles ↔
    ∃ last, cs = textOf tiles ++ last ∧ Filler last [] ∧ ∀ before t after,
      tiles = before ++ t :: after → Filler t.filler (t.lexeme.text ++ (textOf after ++ last)) ∧
        Spelling t.lexeme.kind t.lexeme.text ∧
        Maximal t.lexeme.kind t.lexeme.text (textOf after ++ last) := by
  constructor
  · intro h
    induction h with
    | @last f hf => exact ⟨f, rfl, hf, by simp⟩
    | @cons f cs l tiles hf hstarts hspells _ ih =>
      obtain ⟨last, rfl, hlast, htiles⟩ := ih
      refine ⟨last, by simp, hlast, fun before t after heq => ?_⟩
      cases before with
      | nil =>
        obtain ⟨rfl, rfl⟩ := List.cons.inj heq
        exact ⟨hf, spells_iff.1 ⟨hspells, hstarts⟩⟩
      | cons t' before =>
        exact htiles before t after (List.cons.inj heq).2
  · rintro ⟨last, rfl, hlast, htiles⟩
    induction tiles with
    | nil => exact .last hlast
    | cons t tiles ih =>
      obtain ⟨hf, hspelling⟩ := htiles [] t tiles rfl
      obtain ⟨hspells, hstarts⟩ := spells_iff.2 hspelling
      have hrest := ih fun before t' after heq => htiles (t :: before) t' after (by rw [heq]; rfl)
      have hcons : Tiles _ (⟨t.filler, t.lexeme⟩ :: tiles) := .cons hf hstarts hspells hrest
      rwa [← List.append_assoc, ← List.append_assoc, List.append_assoc t.filler,
        ← textOf_cons] at hcons

/-- A text is read as tokens exactly if it is tiled by fillers and lexemes, and the tokens are those
of the lexemes, where these start. -/
theorem scan_iff_tiling {source : List Char} {ts : TokenList} :
    scan source = .ok ts ↔ ∃ tiles last, Tiling source ts tiles last := by
  rw [scan_eq_ok_iff]
  constructor
  · rintro ⟨tiles, htiles, rfl⟩
    obtain ⟨last, hsource, hlast, htile⟩ := tiles_iff.1 htiles
    refine ⟨tiles, last, hsource, length_tokensFrom _ _, fun before t after heq => ?_, hlast,
      Position.after_first source⟩
    obtain ⟨hf, hspelling, hmaximal⟩ := htile before t after heq
    refine ⟨hf, hspelling, hmaximal, ?_⟩
    rw [heq, getElem?_tokensFrom, Position.after_first]
  · rintro ⟨tiles, last, h⟩
    refine ⟨tiles, tiles_iff.2 ⟨last, h.covers, h.trailing, fun before t after heq => ?_⟩, ?_⟩
    · obtain ⟨hf, hspelling, hmaximal, -⟩ := h.tile before t after heq
      exact ⟨hf, hspelling, hmaximal⟩
    · obtain ⟨tokens, finish⟩ := ts
      rw [TokenList.mk.injEq]
      refine ⟨List.ext_getElem? fun i => ?_, h.finish.trans (Position.after_first source).symm⟩
      rcases Nat.lt_or_ge i tiles.length with hlt | hge
      · have hsplit : tiles = tiles.take i ++ tiles[i] :: tiles.drop (i + 1) := by simp
        have hi : (tiles.take i).length = i := by simp [Nat.le_of_lt hlt]
        have htoken := (h.tile _ _ _ hsplit).2.2.2
        rw [hi] at htoken
        have hfrom := getElem?_tokensFrom .first (tiles.take i) tiles[i] (tiles.drop (i + 1))
        rw [← hsplit, hi, Position.after_first] at hfrom
        exact htoken.trans hfrom.symm
      · rw [List.getElem?_eq_none (by rw [h.length]; exact hge),
          List.getElem?_eq_none (by rw [length_tokensFrom]; exact hge)]

end Lexer

end Chipwright
