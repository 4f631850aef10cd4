import Chipwright.Compile
import Chipwright.Proofs.Lexing.Tiles

/-!
# Line endings

A text may end its lines with a newline alone or with a carriage return and a newline. For the
tokens of the text this makes no difference, nor for the place of a fault: a carriage return is
white space, it belongs to no lexeme, and the newline after it starts a line at its first column.

## Main definitions

* `Text.withReturns`: the text with a carriage return before every newline
* `Failure.unshown`: a failure without the line of the source that it shows

## Main statements

* `Lexer.skip_withReturns`, `Lexer.lexeme_withReturns`: a step of reading
* `TokenList.ofSource_withReturns`: the tokens of a text, or its fault
-/
namespace Chipwright

namespace Text

/-- The text with a carriage return before every newline. -/
def withReturns (cs : List Char) : List Char :=
  cs.flatMap fun c => if c = '\n' then ['\r', '\n'] else [c]

@[simp] theorem withReturns_nil : withReturns [] = [] := rfl

@[simp] theorem withReturns_newline (cs : List Char) :
    withReturns ('\n' :: cs) = '\r' :: '\n' :: withReturns cs := by
  simp [withReturns]

theorem withReturns_cons {c : Char} (hc : c ≠ '\n') (cs : List Char) :
    withReturns (c :: cs) = c :: withReturns cs := by
  simp [withReturns, hc]

theorem withReturns_append {cs : List Char} (hcs : '\n' ∉ cs) (ds : List Char) :
    withReturns (cs ++ ds) = cs ++ withReturns ds := by
  induction cs with
  | nil => rfl
  | cons c cs ih =>
    obtain ⟨hc, hcs⟩ := not_or.1 (List.mem_cons.not.1 hcs)
    rw [List.cons_append, withReturns_cons (Ne.symm hc), ih hcs, List.cons_append]

/-- A character other than a carriage return that stands in front stood there before. -/
theorem exists_of_withReturns_eq_cons {c : Char} {cs ds : List Char} (hc : c ≠ '\r')
    (h : withReturns cs = c :: ds) : ∃ ds', cs = c :: ds' ∧ ds = withReturns ds' := by
  cases cs with
  | nil => cases h
  | cons d cs =>
    by_cases hd : d = '\n'
    · rw [hd, withReturns_newline] at h
      exact absurd (List.cons.inj h).1.symm hc
    · rw [withReturns_cons hd] at h
      obtain ⟨rfl, rfl⟩ := List.cons.inj h
      exact ⟨cs, rfl, rfl⟩

section Classes

/-! ### Stretches of characters -/

variable {p : Char → Bool} (hreturn : p '\r' = false) (hnewline : p '\n' = false)

include hreturn hnewline

theorem takeWhile_withReturns (cs : List Char) :
    (withReturns cs).takeWhile p = cs.takeWhile p := by
  induction cs with
  | nil => rfl
  | cons c cs ih =>
    by_cases hc : c = '\n'
    · simp [hc, hreturn, hnewline]
    · simp [withReturns_cons hc, List.takeWhile_cons, ih]

theorem dropWhile_withReturns (cs : List Char) :
    (withReturns cs).dropWhile p = withReturns (cs.dropWhile p) := by
  induction cs with
  | nil => rfl
  | cons c cs ih =>
    by_cases hc : c = '\n'
    · simp [hc, hreturn, hnewline]
    · cases hp : p c with
      | true => simp [withReturns_cons hc, hp, ih]
      | false => simp [withReturns_cons hc, hp]

end Classes

end Text

namespace Lexer

open Text (withReturns withReturns_cons withReturns_newline exists_of_withReturns_eq_cons)

/-! ## What is skipped -/

theorem next_return_newline (pos : Position) : (pos.next '\r').next '\n' = pos.next '\n' := rfl

/-- What is skipped ends at the same place. -/
theorem skip_withReturns (gap : Gap) (pos : Position) (cs : List Char) :
    skip gap pos (withReturns cs) = (skip gap pos cs).map (Prod.map id withReturns) := by
  fun_induction skip gap pos cs with
  | case1 start pos | case2 pos | case3 pos => rfl
  | case4 pos cs ih => simpa [withReturns_cons, skip] using ih
  | case5 pos cs ih => simpa [withReturns_cons, skip] using ih
  | case6 pos c cs hline hblock hspace ih =>
    by_cases hc : c = '\n'
    · subst hc
      rw [withReturns_newline, skip_space rfl, skip_space rfl, next_return_newline, ih]
    · rw [withReturns_cons hc, skip_space hspace, ih]
  | case7 pos c cs hline hblock hspace =>
    have hc : c ≠ '\n' := by
      rintro rfl
      exact hspace rfl
    rw [withReturns_cons hc, skip_of_starts]
    · simp [Except.map, withReturns_cons hc]
    · refine ⟨by simpa using hspace, ?_, ?_⟩
      · rintro more heq
        obtain ⟨rfl, hmore⟩ := List.cons.inj heq
        obtain ⟨cs', rfl, -⟩ := exists_of_withReturns_eq_cons (by decide) hmore
        exact hline cs' rfl rfl
      · rintro more heq
        obtain ⟨rfl, hmore⟩ := List.cons.inj heq
        obtain ⟨cs', rfl, -⟩ := exists_of_withReturns_eq_cons (by decide) hmore
        exact hblock cs' rfl rfl
  | case8 pos c cs ih =>
    by_cases hc : c = '\n'
    · subst hc
      simpa [skip, next_return_newline] using ih
    · simpa [withReturns_cons hc, skip, hc] using ih
  | case9 start pos cs ih => simpa [withReturns_cons, skip] using ih
  | case10 start pos c cs hopen ih =>
    by_cases hc : c = '\n'
    · subst hc
      simpa [skip, next_return_newline] using ih
    · rw [withReturns_cons hc, skip, ih]
      rintro more rfl hmore
      obtain ⟨cs', rfl, -⟩ := exists_of_withReturns_eq_cons (by decide) hmore
      exact hopen cs' rfl rfl

/-- What is skipped ends before the same character. -/
theorem skip_withReturns_cons {gap : Gap} {pos pos' : Position} {c : Char} {cs rest : List Char}
    (h : skip gap pos cs = .ok (pos', c :: rest)) :
    skip gap pos (withReturns cs) = .ok (pos', c :: withReturns rest) := by
  obtain ⟨-, -, -, -, hstarts⟩ := skipped_of_skip h
  have hc : c ≠ '\n' := by
    rintro rfl
    exact absurd (hstarts.solid '\n' rfl) (by decide)
  rw [skip_withReturns, h, ← withReturns_cons hc]
  rfl

/-! ## Lexemes -/

theorem newline_notMem_of_isNameChar {cs : List Char} (h : ∀ c ∈ cs, isNameChar c = true) :
    '\n' ∉ cs := by
  intro hmem
  exact absurd (h _ hmem) (by decide)

theorem Exponent.newline_notMem {mark : List Char} {power : Int} (h : Exponent mark power) :
    '\n' ∉ mark := by
  cases h with
  | none => exact List.not_mem_nil
  | @some e sign digits he hsign _ hdigits =>
    have hdigits' : '\n' ∉ digits :=
      newline_notMem_of_isNameChar fun d hd => isNameChar_of_isDigit (hdigits d hd)
    rcases he with rfl | rfl <;> rcases hsign with rfl | rfl | rfl <;> simpa using hdigits'

/-- A lexeme stands on one line. -/
theorem Spells.newline_notMem {kind : TokenKind} {text rest : List Char}
    (h : Spells kind text rest) : '\n' ∉ text := by
  have hdigits {cs : List Char} (h : ∀ c ∈ cs, c.isDigit = true) : '\n' ∉ cs :=
    newline_notMem_of_isNameChar fun c hc => isNameChar_of_isDigit (h c hc)
  cases h with
  | word hc hcs _ =>
    exact newline_notMem_of_isNameChar
      (List.forall_mem_cons.2 ⟨isNameChar_of_isNameStart hc, hcs⟩)
  | marked hmark _ hall =>
    refine newline_notMem_of_isNameChar (List.forall_mem_cons.2 ⟨by decide, ?_⟩)
    exact List.forall_mem_cons.2
      ⟨hmark.isNameChar, fun c hc => hmark.isNameChar_of_isDigit (hall c hc)⟩
  | decimal _ hall => exact hdigits hall
  | fraction _ hwhole _ hfraction hmark =>
    simp [hdigits hwhole, hdigits hfraction, hmark.newline_notMem]
  | @symbol s => cases s <;> decide

theorem endNumber_withReturns (spelling rest : List Char) :
    endNumber spelling (withReturns rest) = endNumber spelling rest := by
  cases rest with
  | nil => rfl
  | cons c rest =>
    by_cases hc : c = '\n'
    · subst hc
      rfl
    · simp [withReturns_cons hc, endNumber]

theorem marked_withReturns {base : Nat} {isDigit : Char → Bool} (hreturn : isDigit '\r' = false)
    (hnewline : isDigit '\n' = false) (mark : Char) (text cs : List Char) :
    marked base isDigit mark text (withReturns cs) = marked base isDigit mark text cs := by
  simp only [marked, Text.takeWhile_withReturns hreturn hnewline,
    Text.dropWhile_withReturns hreturn hnewline, endNumber_withReturns]

theorem exponent_withReturns (spelling cs : List Char) :
    exponent spelling (withReturns cs) = exponent spelling cs := by
  cases cs with
  | nil => rfl
  | cons e cs =>
    by_cases hnewline : e = '\n'
    · subst hnewline
      rfl
    rw [withReturns_cons hnewline]
    by_cases he : e = 'e' ∨ e = 'E'
    · obtain ⟨sign, rest, rfl, hsign⟩ := exists_signAt cs
      have hlines : '\n' ∉ sign := by
        rcases hsign with ⟨rfl, -⟩ | rfl | rfl <;> simp
      have hsign' : SignAt sign (withReturns rest) := by
        refine hsign.imp (fun h => ⟨h.1, fun c hc => ?_⟩) id
        by_contra hne
        have hreturn : c ≠ '\r' := by
          rintro rfl
          simp at hne
        obtain ⟨more, hmore⟩ := List.head?_eq_some_iff.1 hc
        obtain ⟨ds, rfl, -⟩ := exists_of_withReturns_eq_cons hreturn hmore
        exact hne (h.2 c rfl)
      rw [Text.withReturns_append hlines, exponent_cons he hsign', exponent_cons he hsign,
        Text.takeWhile_withReturns rfl rfl]
    · simp only [exponent]
      rw [if_neg (by simpa using he), if_neg (by simpa using he)]

theorem fraction_withReturns (whole cs : List Char) :
    fraction whole (withReturns cs) = fraction whole cs := by
  simp only [fraction, Text.takeWhile_withReturns (p := Char.isDigit) rfl rfl,
    Text.dropWhile_withReturns (p := Char.isDigit) rfl rfl, exponent_withReturns]
  generalize whole ++ '.' :: cs.takeWhile Char.isDigit = spelling
  cases hexponent : exponent spelling (cs.dropWhile Char.isDigit) with
  | error fault => rfl
  | ok r =>
    obtain ⟨mark, power⟩ := r
    obtain ⟨rest, hrest, hmark⟩ := exponent_eq_ok hexponent
    rw [hrest, Text.withReturns_append hmark.newline_notMem]
    simp only [List.drop_left, endNumber_withReturns, bind, Except.bind]

theorem decimal_withReturns (digits rest : List Char) :
    decimal digits (withReturns rest) = decimal digits rest := by
  simp only [decimal, endNumber_withReturns]

theorem unmarked_withReturns (digits rest : List Char) :
    unmarked digits (withReturns rest) = unmarked digits rest := by
  have hplain {rest : List Char} (hpoint : ∀ d cs, rest ≠ '.' :: d :: cs) :
      unmarked digits rest = decimal digits rest := by
    unfold unmarked
    split
    · exact absurd rfl (hpoint _ _)
    · rfl
  by_cases hpoint : ∃ d cs, rest = '.' :: d :: cs
  · obtain ⟨d, cs, rfl⟩ := hpoint
    rw [withReturns_cons (by decide)]
    by_cases hd : d = '\n'
    · subst hd
      exact decimal_withReturns digits ('.' :: '\n' :: cs)
    · rw [withReturns_cons hd]
      simp only [unmarked]
      rw [← withReturns_cons hd, fraction_withReturns, ← withReturns_cons (by decide),
        decimal_withReturns]
  · have hnone : ∀ d cs, rest ≠ '.' :: d :: cs := fun d cs heq => hpoint ⟨d, cs, heq⟩
    rw [hplain hnone, hplain, decimal_withReturns]
    rintro d cs heq
    obtain ⟨cs', rfl, hcs'⟩ := exists_of_withReturns_eq_cons (by decide) heq
    cases cs' with
    | nil => cases hcs'
    | cons e cs' => exact hnone e cs' rfl

theorem number_withReturns (c : Char) (cs : List Char) :
    number c (withReturns cs) = number c cs := by
  have hunmarked : unmarked (c :: (withReturns cs).takeWhile Char.isDigit)
      ((withReturns cs).dropWhile Char.isDigit) =
        unmarked (c :: cs.takeWhile Char.isDigit) (cs.dropWhile Char.isDigit) := by
    rw [Text.takeWhile_withReturns rfl rfl, Text.dropWhile_withReturns rfl rfl,
      unmarked_withReturns]
  have hmark {mark : Char} {ds : List Char} (hmark : mark ≠ '\r')
      (heq : withReturns cs = mark :: ds) (hcs : ∀ ds, cs ≠ mark :: ds) : False := by
    obtain ⟨ds', rfl, -⟩ := exists_of_withReturns_eq_cons hmark heq
    exact hcs ds' rfl
  rw [number.eq_def c cs]
  split
  · exact marked_withReturns rfl rfl _ _ _
  · exact marked_withReturns rfl rfl _ _ _
  · exact marked_withReturns rfl rfl _ _ _
  · exact marked_withReturns rfl rfl _ _ _
  · rename_i hx hX hb hB
    rw [← hunmarked]
    unfold number
    split
    · rename_i heq
      exact (hmark (by decide) heq fun ds => hx ds rfl).elim
    · rename_i heq
      exact (hmark (by decide) heq fun ds => hX ds rfl).elim
    · rename_i heq
      exact (hmark (by decide) heq fun ds => hb ds rfl).elim
    · rename_i heq
      exact (hmark (by decide) heq fun ds => hB ds rfl).elim
    · rfl

theorem symbol?_withReturns (c : Char) (cs : List Char) :
    symbol? c (withReturns cs) = symbol? c cs := by
  -- no character of a symbol starts what follows, if none did before
  have hlone {d : Char} {cs : List Char} (hd : d ≠ '\r') (hcs : ∀ tail, cs = d :: tail → False) :
      ∀ tail, withReturns cs = d :: tail → False := by
    intro tail heq
    obtain ⟨ds, hds, -⟩ := exists_of_withReturns_eq_cons hd heq
    exact hcs ds hds
  fun_cases symbol? c cs
  case case1 | case3 | case5 | case7 | case9 | case11 => rw [withReturns_cons (by decide)]; rfl
  case case2 h => exact symbol?.eq_2 _ (hlone (by decide) h)
  case case4 h => exact symbol?.eq_4 _ (hlone (by decide) h)
  case case6 h => exact symbol?.eq_6 _ (hlone (by decide) h)
  case case8 h => exact symbol?.eq_8 _ (hlone (by decide) h)
  case case10 h => exact symbol?.eq_10 _ (hlone (by decide) h)
  case case12 h => exact symbol?.eq_12 _ (hlone (by decide) h)
  case case24 =>
    unfold symbol?
    split
    case h_24 => rfl
    all_goals contradiction
  all_goals rfl

/-- The same lexeme is read. -/
theorem lexeme_withReturns (c : Char) (cs : List Char) :
    lexeme c (withReturns cs) = lexeme c cs := by
  have hword : word c (withReturns cs) = word c cs := by
    simp only [word, Text.takeWhile_withReturns (p := isNameChar) rfl rfl]
  rw [lexeme, hword, number_withReturns, symbol?_withReturns, lexeme]

/-- What a lexeme leaves of a text. -/
theorem drop_withReturns {c : Char} {cs : List Char} {l : Lexeme} (h : lexeme c cs = .ok l) :
    (withReturns cs).drop (l.text.length - 1) = withReturns (cs.drop (l.text.length - 1)) := by
  obtain ⟨rest, hrest, hspells⟩ := lexeme_eq_ok_iff.1 h
  have hlines := hspells.newline_notMem
  have hc : c ≠ '\n' := by
    obtain ⟨d, text, htext⟩ := hspells.exists_cons
    rintro rfl
    rw [htext] at hrest hlines
    exact hlines (List.mem_cons.2 (Or.inl (List.cons.inj hrest).1))
  have hreturns : c :: withReturns cs = l.text ++ withReturns rest := by
    rw [← withReturns_cons hc, hrest, Text.withReturns_append hlines]
  have hspells' : Spells l.kind l.text (withReturns rest) := by
    have hlexeme := lexeme_withReturns c cs
    rw [h] at hlexeme
    obtain ⟨rest', hrest', hspells'⟩ := lexeme_eq_ok_iff.1 hlexeme
    rwa [List.append_cancel_left (hreturns.symm.trans hrest')]
  rw [hspells'.drop_eq hreturns, hspells.drop_eq hrest]

/-! ## Texts -/

theorem scanFrom_withReturns (done : List Token) (pos : Position) (cs : List Char) :
    scanFrom done pos (withReturns cs) = scanFrom done pos cs := by
  fun_induction scanFrom done pos cs with
  | case1 done pos cs start hskip =>
    rw [scanFrom_eq, skip_withReturns, hskip]
    rfl
  | case2 done pos cs pos' hskip =>
    rw [scanFrom_eq, skip_withReturns, hskip]
    rfl
  | case3 done pos cs pos' c rest hskip fault hfault =>
    rw [scanFrom_eq, skip_withReturns_cons hskip]
    simp only [lexeme_withReturns, hfault]
  | case4 done pos cs pos' c rest hskip l hl ih =>
    rw [scanFrom_eq, skip_withReturns_cons hskip]
    simp only [lexeme_withReturns, hl, drop_withReturns hl, ih]

/-- A text is read as the same tokens, or it has the same fault at the same place. -/
theorem scan_withReturns (cs : List Char) : scan (withReturns cs) = scan cs :=
  scanFrom_withReturns [] .first cs

end Lexer

/-- A failure without the line of the source that it shows. -/
def Failure.unshown : Failure → Failure
  | diagnostic d => .diagnostic { d with sourceLine := none }
  | e => e

/-- Line endings have no part in the tokens of a text: with a carriage return before every newline
it has the same tokens at the same places and ends at the same place, or it fails for the same cause
at the same place. Only the line that a diagnostic shows may be another one. -/
theorem TokenList.ofSource_withReturns (file : String) (source : List Char) :
    (TokenList.ofSource file (Text.withReturns source)).mapError Failure.unshown =
      (TokenList.ofSource file source).mapError Failure.unshown := by
  unfold TokenList.ofSource
  rw [Lexer.scan_withReturns]
  cases Lexer.scan source with
  | ok ts => rfl
  | error e =>
    refine congrArg Except.error ?_
    unfold Lexer.Error.failure
    split <;> rfl

end Chipwright
