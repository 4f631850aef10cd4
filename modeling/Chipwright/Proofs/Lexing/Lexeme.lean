import Chipwright.Proofs.Basics
import Chipwright.Token.Lexer
import Mathlib.Data.List.TakeWhile

/-!
# Lexemes

How each kind of token is spelt, and what must not follow it: a lexeme is as long as it can be.
Nothing has to follow, though. So a lexeme that stands alone, or before white space, is read as
the same.
-/
namespace Chipwright.Lexer

variable {c : Char} {cs digits rest spelling text : List Char} {kind : TokenKind} {l : Lexeme}

/-- The next character is not of a class. -/
def Stops (p : Char → Bool) (rest : List Char) : Prop := ∀ c ∈ rest.head?, p c = false

@[simp] theorem stops_nil {p : Char → Bool} : Stops p [] := by simp [Stops]

@[simp] theorem stops_cons {p : Char → Bool} : Stops p (c :: cs) ↔ p c = false := by
  simp [Stops]

theorem Stops.mono {p q : Char → Bool} (h : Stops p rest) (hpq : ∀ c, q c = true → p c = true) :
    Stops q rest := by
  intro c hc
  have hp := h c hc
  cases hq : q c with
  | false => rfl
  | true => rw [hpq c hq] at hp; exact hp

/-- The longest stretch of characters of a class. -/
theorem takeWhile_append_of_stops {p : Char → Bool} (hcs : ∀ c ∈ cs, p c = true)
    (hrest : Stops p rest) : (cs ++ rest).takeWhile p = cs := by
  rw [List.takeWhile_append_of_pos hcs]
  cases rest with
  | nil => simp
  | cons c rest => simp [stops_cons.1 hrest]

theorem dropWhile_append_of_stops {p : Char → Bool} (hcs : ∀ c ∈ cs, p c = true)
    (hrest : Stops p rest) : (cs ++ rest).dropWhile p = rest := by
  rw [List.dropWhile_append_of_pos hcs]
  cases rest with
  | nil => rfl
  | cons c rest => simp [stops_cons.1 hrest]

theorem stops_dropWhile (p : Char → Bool) (cs : List Char) : Stops p (cs.dropWhile p) := by
  intro c hc
  have h := List.head?_dropWhile_not p cs
  rw [Option.mem_def.1 hc] at h
  simpa using h

theorem forall_mem_takeWhile (p : Char → Bool) (cs : List Char) :
    ∀ c ∈ cs.takeWhile p, p c = true :=
  fun _ hc => List.mem_takeWhile_imp hc

/-- The marks of whole numbers that are not decimal, in either case, with the base and the digits
that follow. -/
inductive Mark : Char → Nat → (Char → Bool) → Prop
  | hexLower : Mark 'x' 16 isHexDigit
  | hexUpper : Mark 'X' 16 isHexDigit
  | binaryLower : Mark 'b' 2 isBinaryDigit
  | binaryUpper : Mark 'B' 2 isBinaryDigit

/-- The exponent after a fraction, if there is one. -/
inductive Exponent : List Char → Int → Prop
  | none : Exponent [] 0
  | some {e : Char} {sign digits : List Char} : e = 'e' ∨ e = 'E' →
    sign = [] ∨ sign = ['+'] ∨ sign = ['-'] → digits ≠ [] → (∀ d ∈ digits, d.isDigit = true) →
      Exponent (e :: (sign ++ digits))
        (if sign = ['-'] then -(Text.asciiNumber 10 digits : Int) else Text.asciiNumber 10 digits)

/-- A token is spelt by a text, and the text may end before `rest`. -/
inductive Spells : TokenKind → (text rest : List Char) → Prop
  | word {c : Char} {cs rest : List Char} : isNameStart c = true →
    (∀ d ∈ cs, isNameChar d = true) → Stops isNameChar rest →
      Spells (wordKind (String.ofList (c :: cs))) (c :: cs) rest
  | marked {mark : Char} {base : Nat} {isDigit : Char → Bool} {digits rest : List Char} :
    Mark mark base isDigit → digits ≠ [] → (∀ d ∈ digits, isDigit d = true) →
    Text.asciiNumber base digits ≤ greatestMagnitude → Stops isNameChar rest →
      Spells (.integer (Text.asciiNumber base digits)) ('0' :: mark :: digits) rest
  | decimal {digits rest : List Char} : digits ≠ [] → (∀ d ∈ digits, d.isDigit = true) →
    digits.length ≤ Decimal.digitLimit → Text.asciiNumber 10 digits ≤ greatestMagnitude →
    Stops isNameChar rest → (∀ more, rest = '.' :: more → Stops Char.isDigit more) →
      Spells (.integer (Text.asciiNumber 10 digits)) digits rest
  | fraction {whole digits mark rest : List Char} {power : Int} : whole ≠ [] →
    (∀ d ∈ whole, d.isDigit = true) → digits ≠ [] → (∀ d ∈ digits, d.isDigit = true) →
    Exponent mark power → Stops isNameChar rest →
      Spells (.float (Decimal.Numeral.value ⟨false, whole, digits, power⟩))
        (whole ++ '.' :: (digits ++ mark)) rest
  | symbol {s : Symbol} {rest : List Char} :
    (s = .assign ∨ s = .not ∨ s = .lt ∨ s = .gt → Stops (· = '=') rest) →
      Spells (.symbol s) s.text.toList rest

theorem Spells.exists_cons (h : Spells kind text rest) : ∃ c cs, text = c :: cs := by
  cases h with
  | word => exact ⟨_, _, rfl⟩
  | marked => exact ⟨_, _, rfl⟩
  | decimal hne => exact List.exists_cons_of_ne_nil hne
  | fraction hne => exact List.exists_cons_of_ne_nil (by simp [hne])
  | @symbol s => cases s <;> exact ⟨_, _, rfl⟩

/-- What a lexeme leaves of a text. -/
theorem Spells.drop_eq (h : Spells kind text rest) (heq : c :: cs = text ++ rest) :
    cs.drop (text.length - 1) = rest := by
  obtain ⟨d, text, rfl⟩ := h.exists_cons
  obtain ⟨-, rfl⟩ := List.cons.inj heq
  simp

/-! ### Standing apart -/

/-- A text that is empty or starts with white space. -/
def Apart (rest : List Char) : Prop := ∀ c ∈ rest.head?, isSpace c = true

theorem Apart.stops (h : Apart rest) {p : Char → Bool} (hp : ∀ c, isSpace c = true → p c = false) :
    Stops p rest :=
  fun c hc => hp c (h c hc)

theorem isSpace_iff : isSpace c = true ↔ c = ' ' ∨ c = '\t' ∨ c = '\n' ∨ c = '\r' := by
  simp [isSpace, or_assoc]

theorem isNameChar_of_isSpace (h : isSpace c = true) : isNameChar c = false := by
  rcases isSpace_iff.1 h with rfl | rfl | rfl | rfl <;> decide

theorem ne_of_isSpace (h : isSpace c = true) : c ≠ '=' ∧ c ≠ '.' ∧ c ≠ '/' ∧ c ≠ '*' := by
  rcases isSpace_iff.1 h with rfl | rfl | rfl | rfl <;> decide

/-- A lexeme may stand apart from what follows. -/
theorem Spells.apart {rest' : List Char} (h : Spells kind text rest) (hapart : Apart rest') :
    Spells kind text rest' := by
  have hname : Stops isNameChar rest' := hapart.stops fun _ => isNameChar_of_isSpace
  cases h with
  | word hc hcs _ => exact .word hc hcs hname
  | marked hmark hne hdigits hle _ => exact .marked hmark hne hdigits hle hname
  | decimal hne hdigits hlength hle _ _ =>
    refine .decimal hne hdigits hlength hle hname fun more hmore => ?_
    subst hmore
    exact absurd rfl (ne_of_isSpace (hapart '.' rfl)).2.1
  | fraction hne hwhole hne' hdigits hmark _ => exact .fraction hne hwhole hne' hdigits hmark hname
  | symbol _ =>
    refine .symbol fun _ => hapart.stops fun c hc => ?_
    simpa using (ne_of_isSpace hc).1

/-! ### Reading -/

theorem endNumber_eq_ok : endNumber spelling rest = .ok () ↔ Stops isNameChar rest := by
  cases rest with
  | nil => simp [endNumber]
  | cons c rest => by_cases h : isNameChar c = true <;> simp [endNumber, h]

theorem integerKind_eq_ok {n : Nat} :
    integerKind spelling n = .ok kind ↔ n ≤ greatestMagnitude ∧ kind = .integer n := by
  unfold integerKind
  split
  · rename_i h
    simp [Nat.not_le.2 h]
  · rename_i h
    simp [Nat.not_lt.1 h, eq_comm]

theorem marked_eq_ok {base : Nat} {isDigit : Char → Bool} {mark : Char} :
    marked base isDigit mark text cs = .ok l ↔ cs.takeWhile isDigit ≠ [] ∧
      Stops isNameChar (cs.dropWhile isDigit) ∧
      Text.asciiNumber base (cs.takeWhile isDigit) ≤ greatestMagnitude ∧
      l = ⟨.integer (Text.asciiNumber base (cs.takeWhile isDigit)),
        text ++ cs.takeWhile isDigit⟩ := by
  unfold marked
  simp only []
  split
  · rename_i hempty
    rw [List.isEmpty_iff] at hempty
    simp only [hempty, ne_eq, not_true_eq_false, false_and, iff_false]
    exact fun h => nomatch h
  · rename_i hne
    rw [List.isEmpty_iff] at hne
    simp only [bind_eq_ok, pure_eq_ok, integerKind_eq_ok]
    constructor
    · rintro ⟨⟨⟩, hrest, kind, ⟨hle, rfl⟩, rfl⟩
      exact ⟨hne, endNumber_eq_ok.1 hrest, hle, rfl⟩
    · rintro ⟨-, hrest, hle, rfl⟩
      exact ⟨(), endNumber_eq_ok.2 hrest, _, ⟨hle, rfl⟩, rfl⟩

theorem decimal_of_stops (h : Stops isNameChar rest) :
    decimal digits rest =
      if Decimal.digitLimit < digits.length then .error (.tooManyDigits digits.length)
      else do
        let kind ← integerKind digits (Text.asciiNumber 10 digits)
        return ⟨kind, digits⟩ := by
  rw [decimal, endNumber_eq_ok.2 h]
  rfl

theorem decimal_eq_ok :
    decimal digits rest = .ok l ↔ Stops isNameChar rest ∧ digits.length ≤ Decimal.digitLimit ∧
      Text.asciiNumber 10 digits ≤ greatestMagnitude ∧
      l = ⟨.integer (Text.asciiNumber 10 digits), digits⟩ := by
  constructor
  · intro h
    have hrest : Stops isNameChar rest := by
      rw [decimal, bind_eq_ok] at h
      obtain ⟨⟨⟩, hend, -⟩ := h
      exact endNumber_eq_ok.1 hend
    rw [decimal_of_stops hrest] at h
    split at h
    · cases h
    · rename_i hlength
      simp only [bind_eq_ok, pure_eq_ok, integerKind_eq_ok] at h
      obtain ⟨kind, ⟨hle, rfl⟩, rfl⟩ := h
      exact ⟨hrest, Nat.not_lt.1 hlength, hle, rfl⟩
  · rintro ⟨hrest, hlength, hle, rfl⟩
    rw [decimal_of_stops hrest, if_neg (Nat.not_lt.2 hlength)]
    simp only [bind_eq_ok, pure_eq_ok, integerKind_eq_ok]
    exact ⟨_, ⟨hle, rfl⟩, rfl⟩

theorem isDigit_ne {d : Char} (h : d.isDigit = true) : d ≠ '+' ∧ d ≠ '-' ∧ d ≠ '.' := by
  refine ⟨?_, ?_, ?_⟩ <;> rintro rfl <;> simp at h

/-- The sign of an exponent, if there is one, and what follows. -/
def SignAt (sign rest : List Char) : Prop :=
  sign = [] ∧ Stops (fun c => c = '+' || c = '-') rest ∨ sign = ['+'] ∨ sign = ['-']

theorem exists_signAt (cs : List Char) : ∃ sign rest, cs = sign ++ rest ∧ SignAt sign rest := by
  cases cs with
  | nil => exact ⟨[], [], rfl, Or.inl ⟨rfl, stops_nil⟩⟩
  | cons c cs =>
    by_cases hplus : c = '+'
    · exact ⟨['+'], cs, by simp [hplus], Or.inr (Or.inl rfl)⟩
    · by_cases hminus : c = '-'
      · exact ⟨['-'], cs, by simp [hminus], Or.inr (Or.inr rfl)⟩
      · exact ⟨[], c :: cs, rfl, Or.inl ⟨rfl, by simp [hplus, hminus]⟩⟩

theorem exponent_cons {e : Char} (he : e = 'e' ∨ e = 'E') {sign : List Char}
    (hsign : SignAt sign rest) :
    exponent spelling (e :: (sign ++ rest)) =
      if (rest.takeWhile Char.isDigit).isEmpty then
        .error (.cause (.malformedExponent (String.ofList (spelling ++ [e]))))
      else .ok (e :: (sign ++ rest.takeWhile Char.isDigit),
        if sign = ['-'] then -(Text.asciiNumber 10 (rest.takeWhile Char.isDigit) : Int)
        else Text.asciiNumber 10 (rest.takeWhile Char.isDigit)) := by
  have he : (e = 'e' || e = 'E') = true := by simpa using he
  rcases hsign with ⟨rfl, hrest⟩ | rfl | rfl
  · cases rest with
    | nil => simp [exponent, he]
    | cons c rest =>
      obtain ⟨hplus, hminus⟩ : c ≠ '+' ∧ c ≠ '-' := by simpa using hrest
      simp only [exponent, he, if_true, List.nil_append]
      split
      · rename_i h
        exact absurd (List.cons.inj h).1 hplus
      · rename_i h
        exact absurd (List.cons.inj h).1 hminus
      · rfl
  · simp [exponent, he]
  · simp [exponent, he]

theorem exponent_eq_ok {mark : List Char} {power : Int}
    (h : exponent spelling cs = .ok (mark, power)) :
    ∃ rest, cs = mark ++ rest ∧ Exponent mark power := by
  cases cs with
  | nil =>
    cases h
    exact ⟨[], rfl, .none⟩
  | cons e cs =>
    by_cases he : e = 'e' ∨ e = 'E'
    · obtain ⟨sign, rest, rfl, hsign⟩ := exists_signAt cs
      rw [exponent_cons he hsign] at h
      split at h
      · cases h
      · rename_i hne
        cases h
        refine ⟨rest.dropWhile Char.isDigit, ?_, .some he ?_ ?_ (forall_mem_takeWhile _ _)⟩
        · simp
        · exact hsign.imp And.left id
        · simpa using hne
    · simp only [exponent] at h
      rw [if_neg (by simpa using he)] at h
      cases h
      exact ⟨_, rfl, .none⟩

theorem isNameChar_of_isNameStart (h : isNameStart c = true) : isNameChar c = true := by
  simp only [isNameStart, isNameChar, Char.isAlphanum, Bool.or_eq_true] at h ⊢
  exact h.imp Or.inl id

theorem isNameChar_of_isDigit (h : c.isDigit = true) : isNameChar c = true := by
  simp [isNameChar, Char.isAlphanum, h]

theorem exponent_append {mark : List Char} {power : Int} (h : Exponent mark power)
    (hrest : Stops isNameChar rest) : exponent spelling (mark ++ rest) = .ok (mark, power) := by
  cases h with
  | none =>
    cases rest with
    | nil => rfl
    | cons c rest =>
      have hc : ¬ (c = 'e' || c = 'E') = true := by
        intro hc
        have : c = 'e' ∨ c = 'E' := by simpa using hc
        rcases this with rfl | rfl <;> simp [isNameChar] at hrest
      simp only [exponent, List.nil_append]
      rw [if_neg hc]
  | @some e sign digits he hsign hne hdigits =>
    have hsignAt : SignAt sign (digits ++ rest) := by
      refine hsign.imp (fun hnil => ⟨hnil, ?_⟩) id
      cases digits with
      | nil => exact absurd rfl hne
      | cons d digits =>
        have hd := isDigit_ne (hdigits d (List.mem_cons_self ..))
        simp [hd.1, hd.2.1]
    have hspan : (digits ++ rest).takeWhile Char.isDigit = digits :=
      takeWhile_append_of_stops hdigits (hrest.mono fun _ => isNameChar_of_isDigit)
    have hempty : ¬ digits.isEmpty = true := by simpa using hne
    rw [List.cons_append, List.append_assoc, exponent_cons he hsignAt, hspan, if_neg hempty]

theorem fraction_eq_ok {whole : List Char} :
    fraction whole cs = .ok l ↔ ∃ mark power, exponent (whole ++ '.' :: cs.takeWhile Char.isDigit)
        (cs.dropWhile Char.isDigit) = .ok (mark, power) ∧
      Stops isNameChar ((cs.dropWhile Char.isDigit).drop mark.length) ∧
      l = ⟨.float (Decimal.Numeral.value ⟨false, whole, cs.takeWhile Char.isDigit, power⟩),
        whole ++ '.' :: (cs.takeWhile Char.isDigit ++ mark)⟩ := by
  unfold fraction
  simp only [bind_eq_ok, pure_eq_ok]
  constructor
  · rintro ⟨⟨mark, power⟩, hmark, ⟨⟩, hrest, rfl⟩
    exact ⟨mark, power, hmark, endNumber_eq_ok.1 hrest, by simp⟩
  · rintro ⟨mark, power, hmark, hrest, rfl⟩
    exact ⟨(mark, power), hmark, (), endNumber_eq_ok.2 hrest, by simp⟩

theorem spells_of_marked {mark shown : Char} {base : Nat} {isDigit : Char → Bool}
    (hmark : Mark mark base isDigit) (h : marked base isDigit shown ['0', mark] cs = .ok l) :
    ∃ rest, '0' :: mark :: cs = l.text ++ rest ∧ Spells l.kind l.text rest := by
  obtain ⟨hne, hrest, hle, rfl⟩ := marked_eq_ok.1 h
  exact ⟨cs.dropWhile isDigit, by simp,
    .marked hmark hne (forall_mem_takeWhile _ _) hle hrest⟩

theorem spells_of_unmarked (hne : digits ≠ []) (hdigits : ∀ d ∈ digits, d.isDigit = true)
    (h : unmarked digits rest = .ok l) :
    ∃ rest', digits ++ rest = l.text ++ rest' ∧ Spells l.kind l.text rest' := by
  have hdecimal : ∀ {rest}, (∀ more, rest = '.' :: more → Stops Char.isDigit more) →
      decimal digits rest = .ok l →
      ∃ rest', digits ++ rest = l.text ++ rest' ∧ Spells l.kind l.text rest' := by
    intro rest hpoint h
    obtain ⟨hrest, hlength, hle, rfl⟩ := decimal_eq_ok.1 h
    exact ⟨rest, rfl, .decimal hne hdigits hlength hle hrest hpoint⟩
  unfold unmarked at h
  split at h
  · rename_i d cs
    split at h
    · rename_i hd
      obtain ⟨mark, power, hmark, hrest, rfl⟩ := fraction_eq_ok.1 h
      obtain ⟨rest', hrest', hexponent⟩ := exponent_eq_ok hmark
      rw [hrest', List.drop_left] at hrest
      refine ⟨rest', ?_, .fraction hne hdigits ?_ (forall_mem_takeWhile _ _) hexponent hrest⟩
      · have hsplit : d :: cs = (d :: cs).takeWhile Char.isDigit ++ (mark ++ rest') := by
          rw [← hrest', List.takeWhile_append_dropWhile]
        simp only [List.append_assoc, List.cons_append]
        rw [← hsplit]
      · simp [hd]
    · rename_i hd
      refine hdecimal (fun more hmore => ?_) h
      cases hmore
      simpa using hd
  · rename_i hpoint
    refine hdecimal (fun more hmore => ?_) h
    cases more with
    | nil => exact stops_nil
    | cons d more => exact absurd hmore (hpoint d more)

theorem spells_of_number (hc : c.isDigit = true) (h : number c cs = .ok l) :
    ∃ rest, c :: cs = l.text ++ rest ∧ Spells l.kind l.text rest := by
  unfold number at h
  split at h
  · exact spells_of_marked .hexLower h
  · exact spells_of_marked .hexUpper h
  · exact spells_of_marked .binaryLower h
  · exact spells_of_marked .binaryUpper h
  · have hdigits : ∀ d ∈ c :: cs.takeWhile Char.isDigit, d.isDigit = true :=
      List.forall_mem_cons.2 ⟨hc, forall_mem_takeWhile _ _⟩
    obtain ⟨rest, hrest, hspells⟩ := spells_of_unmarked (List.cons_ne_nil _ _) hdigits h
    exact ⟨rest, by simpa using hrest, hspells⟩

theorem spells_of_symbol {s : Symbol} (h : symbol? c cs = .ok s) :
    ∃ rest, c :: cs = s.text.toList ++ rest ∧ Spells (.symbol s) s.text.toList rest := by
  have hstops : (∀ tail, cs = '=' :: tail → False) → Stops (· = '=') cs := by
    intro hne c hc
    by_contra heq
    have heq : c = '=' := by simpa using heq
    subst heq
    obtain ⟨tail, htail⟩ := List.head?_eq_some_iff.1 hc
    exact hne tail htail
  unfold symbol? at h
  split at h <;> cases h <;> refine ⟨_, rfl, .symbol fun hs => ?_⟩
  case h_2 hne => exact hstops hne
  case h_4 hne => exact hstops hne
  case h_6 hne => exact hstops hne
  case h_8 hne => exact hstops hne
  all_goals simp at hs

theorem number_eq_unmarked (h : ∀ mark ∈ cs.head?, ∀ base isDigit, ¬ Mark mark base isDigit) :
    number c cs = unmarked (c :: cs.takeWhile Char.isDigit) (cs.dropWhile Char.isDigit) := by
  unfold number
  split
  · exact absurd .hexLower (h 'x' rfl _ _)
  · exact absurd .hexUpper (h 'X' rfl _ _)
  · exact absurd .binaryLower (h 'b' rfl _ _)
  · exact absurd .binaryUpper (h 'B' rfl _ _)
  · rfl

theorem isAlpha_iff : c.isAlpha = true ↔
    ('A' ≤ c ∧ c ≤ 'Z') ∨ 'a' ≤ c ∧ c ≤ 'z' := by
  delta Char.isAlpha Char.isUpper Char.isLower
  simp only [Bool.or_eq_true, decide_eq_true_eq, Bool.and_eq_true, ge_iff_le]
  rfl

theorem isNameChar_of_isHexDigit (h : isHexDigit c = true) : isNameChar c = true := by
  simp only [isHexDigit, Bool.or_eq_true, Bool.and_eq_true, decide_eq_true_eq] at h
  simp only [isNameChar, Char.isAlphanum, isAlpha_iff, Bool.or_eq_true, decide_eq_true_eq]
  rcases h with (h | h) | h
  · exact Or.inl (Or.inr h)
  · have hz : c ≤ 'z' := Char.le_trans h.2 (by decide)
    exact Or.inl (Or.inl (Or.inr ⟨h.1, hz⟩))
  · have hz : c ≤ 'Z' := Char.le_trans h.2 (by decide)
    exact Or.inl (Or.inl (Or.inl ⟨h.1, hz⟩))

namespace Mark

variable {mark : Char} {base : Nat} {isDigit : Char → Bool}

theorem isNameChar (h : Mark mark base isDigit) : Lexer.isNameChar mark = true := by
  cases h <;> decide

theorem not_isDigit (h : Mark mark base isDigit) : mark.isDigit = false := by
  cases h <;> decide

theorem isNameChar_of_isDigit (h : Mark mark base isDigit) {c : Char} (hc : isDigit c = true) :
    Lexer.isNameChar c = true := by
  cases h with
  | hexLower | hexUpper => exact isNameChar_of_isHexDigit hc
  | binaryLower | binaryUpper =>
    have hc : c = '0' ∨ c = '1' := by simpa [isBinaryDigit] using hc
    rcases hc with rfl | rfl <;> decide

end Mark

theorem marked_append {mark shown : Char} {base : Nat} {isDigit : Char → Bool}
    (hmark : Mark mark base isDigit) (hne : digits ≠ []) (hdigits : ∀ d ∈ digits, isDigit d = true)
    (hle : Text.asciiNumber base digits ≤ greatestMagnitude) (hrest : Stops isNameChar rest) :
    marked base isDigit shown ['0', mark] (digits ++ rest) =
      .ok ⟨.integer (Text.asciiNumber base digits), '0' :: mark :: digits⟩ := by
  have hstops : Stops isDigit rest := hrest.mono fun _ => hmark.isNameChar_of_isDigit
  rw [marked_eq_ok, takeWhile_append_of_stops hdigits hstops,
    dropWhile_append_of_stops hdigits hstops]
  exact ⟨hne, hrest, hle, rfl⟩

/-- After digits there is no mark, unless what follows starts with one. -/
theorem not_mark_of_digits (hdigits : ∀ d ∈ digits, d.isDigit = true)
    (hrest : Stops isNameChar rest) :
    ∀ m ∈ (digits ++ rest).head?, ∀ base isDigit, ¬ Mark m base isDigit := by
  intro m hm base isDigit hmark
  cases digits with
  | nil =>
    have hm := hrest m hm
    rw [hmark.isNameChar] at hm
    cases hm
  | cons d digits =>
    obtain rfl := Option.some.inj hm
    have hd := hdigits d (List.mem_cons_self ..)
    rw [hmark.not_isDigit] at hd
    cases hd

theorem lexeme_of_digit (hc : c.isDigit = true) : lexeme c cs = number c cs := by
  have hname : isNameStart c = false := by
    cases hstart : isNameStart c with
    | false => rfl
    | true =>
      simp only [isNameStart, isAlpha_iff, Char.isDigit, Bool.or_eq_true, Bool.and_eq_true,
        decide_eq_true_eq] at hstart hc
      have hle : c.val.toNat ≤ 57 := hc.2
      rcases hstart with (⟨hA, -⟩ | ⟨ha, -⟩) | rfl
      · have : 65 ≤ c.val.toNat := hA
        omega
      · have : 97 ≤ c.val.toNat := ha
        omega
      · exact absurd hle (by decide)
  simp [lexeme, hname, hc]

/-- Digits that neither a name nor a point with a digit follows are read as a whole number. -/
theorem lexeme_of_digits (hdigits : ∀ d ∈ c :: digits, d.isDigit = true)
    (hrest : Stops isNameChar rest)
    (hpoint : ∀ more, rest = '.' :: more → Stops Char.isDigit more) :
    lexeme c (digits ++ rest) = decimal (c :: digits) rest := by
  obtain ⟨hc, hdigits⟩ := List.forall_mem_cons.1 hdigits
  have hstops : Stops Char.isDigit rest := hrest.mono fun _ => isNameChar_of_isDigit
  rw [lexeme_of_digit hc, number_eq_unmarked (not_mark_of_digits hdigits hrest),
    takeWhile_append_of_stops hdigits hstops, dropWhile_append_of_stops hdigits hstops]
  unfold unmarked
  split
  · rename_i d cs
    rw [if_neg (by simpa using hpoint (d :: cs) rfl)]
  · rfl

theorem symbol?_append {s : Symbol}
    (hrest : s = .assign ∨ s = .not ∨ s = .lt ∨ s = .gt → Stops (· = '=') rest) :
    ∃ c text, s.text.toList = c :: text ∧ isNameStart c = false ∧ c.isDigit = false ∧
      symbol? c (text ++ rest) = .ok s := by
  have hne : s = .assign ∨ s = .not ∨ s = .lt ∨ s = .gt → ∀ more, rest = '=' :: more → False := by
    rintro hs more rfl
    simpa using hrest hs
  cases s
  case assign => exact ⟨'=', [], rfl, rfl, rfl, symbol?.eq_2 rest (hne (by simp))⟩
  case not => exact ⟨'!', [], rfl, rfl, rfl, symbol?.eq_4 rest (hne (by simp))⟩
  case lt => exact ⟨'<', [], rfl, rfl, rfl, symbol?.eq_6 rest (hne (by simp))⟩
  case gt => exact ⟨'>', [], rfl, rfl, rfl, symbol?.eq_8 rest (hne (by simp))⟩
  all_goals exact ⟨_, _, rfl, rfl, rfl, rfl⟩

/-- What is spelt is read. -/
theorem lexeme_of_spells (h : Spells kind (c :: text) rest) :
    lexeme c (text ++ rest) = .ok ⟨kind, c :: text⟩ := by
  generalize htext : c :: text = t at h
  cases h with
  | word hc hcs hrest =>
    cases htext
    simp only [lexeme, hc, if_true, word]
    rw [takeWhile_append_of_stops hcs hrest]
  | marked hmark hne hdigits hle hrest =>
    cases htext
    rw [lexeme_of_digit (by decide)]
    cases hmark
    case hexLower => exact marked_append .hexLower hne hdigits hle hrest
    case hexUpper => exact marked_append .hexUpper hne hdigits hle hrest
    case binaryLower => exact marked_append .binaryLower hne hdigits hle hrest
    case binaryUpper => exact marked_append .binaryUpper hne hdigits hle hrest
  | decimal hne hdigits hlength hle hrest hpoint =>
    subst htext
    rw [lexeme_of_digits hdigits hrest hpoint, decimal_eq_ok]
    exact ⟨hrest, hlength, hle, rfl⟩
  | @fraction whole digits mark rest power hne hwhole hne' hdigits hmark hrest =>
    cases whole with
    | nil => exact absurd rfl hne
    | cons d whole =>
      simp only [List.cons_append, List.cons.injEq] at htext
      obtain ⟨rfl, rfl⟩ := htext
      obtain ⟨hc, hwhole⟩ := List.forall_mem_cons.1 hwhole
      have hpoint : Stops isNameChar ('.' :: (digits ++ mark ++ rest)) := by
        rw [stops_cons]
        decide
      have hstops : Stops Char.isDigit ('.' :: (digits ++ mark ++ rest)) :=
        hpoint.mono fun _ => isNameChar_of_isDigit
      have hmarkStops : Stops Char.isDigit (mark ++ rest) := by
        cases hmark with
        | none => exact hrest.mono fun _ => isNameChar_of_isDigit
        | some he => rcases he with rfl | rfl <;> simp
      rw [lexeme_of_digit hc, List.append_assoc, List.cons_append,
        number_eq_unmarked (not_mark_of_digits hwhole hpoint),
        takeWhile_append_of_stops hwhole hstops, dropWhile_append_of_stops hwhole hstops]
      cases digits with
      | nil => exact absurd rfl hne'
      | cons e digits =>
        have he := (List.forall_mem_cons.1 hdigits).1
        simp only [unmarked, List.cons_append, he, if_true]
        rw [← List.cons_append, ← List.cons_append, List.append_assoc, fraction_eq_ok,
          takeWhile_append_of_stops hdigits hmarkStops,
          dropWhile_append_of_stops hdigits hmarkStops]
        refine ⟨mark, power, exponent_append hmark hrest, ?_, rfl⟩
        rwa [List.drop_left]
  | @symbol s rest hrest =>
    obtain ⟨d, ds, hds, hname, hdigit, hsymbol⟩ := symbol?_append hrest
    obtain ⟨rfl, rfl⟩ := List.cons.inj (htext.trans hds)
    simp [lexeme, hname, hdigit, hsymbol, hds]

/-- A lexeme is read exactly if it is spelt so. -/
theorem lexeme_eq_ok_iff : lexeme c cs = .ok l ↔
    ∃ rest, c :: cs = l.text ++ rest ∧ Spells l.kind l.text rest := by
  constructor
  · intro h
    unfold lexeme at h
    split at h
    · rename_i hc
      cases h
      exact ⟨cs.dropWhile isNameChar, by simp [word],
        .word hc (forall_mem_takeWhile _ _) (stops_dropWhile _ _)⟩
    · split at h
      · rename_i hc
        exact spells_of_number hc h
      · split at h
        · rename_i s hs
          cases h
          exact spells_of_symbol hs
        · cases h
  · rintro ⟨rest, heq, hspells⟩
    obtain ⟨kind, text⟩ := l
    obtain ⟨d, text, rfl⟩ := hspells.exists_cons
    obtain ⟨rfl, rfl⟩ := List.cons.inj heq
    exact lexeme_of_spells hspells

/-! ### Too many digits -/

/-- The fault, if there is one, is a fault of the program. -/
abbrev Sound {α : Type} (x : Except Fault α) : Prop := FailsOnly (∃ cause, · = .cause cause) x

theorem Sound.cause {α : Type} (cause : Cause) : Sound (.error (.cause cause) : Except Fault α) :=
  .error ⟨cause, rfl⟩

theorem Sound.ne_tooManyDigits {α : Type} {x : Except Fault α} (h : Sound x) {n : Nat} :
    x ≠ .error (.tooManyDigits n) := by
  intro heq
  obtain ⟨cause, hcause⟩ := h _ heq
  cases hcause

theorem sound_endNumber (spelling rest : List Char) : Sound (endNumber spelling rest) := by
  unfold endNumber
  split
  · exact .ok _
  · split
    · exact .cause _
    · exact .ok _

theorem sound_integerKind (spelling : List Char) (n : Nat) : Sound (integerKind spelling n) := by
  unfold integerKind
  split
  · exact .cause _
  · exact .ok _

theorem sound_marked {base : Nat} {isDigit : Char → Bool} {mark : Char} :
    Sound (marked base isDigit mark text cs) := by
  unfold marked
  simp only []
  split
  · exact (Sound.cause _).bind fun _ _ => (sound_endNumber _ _).bind fun _ _ =>
      (sound_integerKind _ _).bind fun _ _ => .ok _
  · exact (sound_endNumber _ _).bind fun _ _ => (sound_integerKind _ _).bind fun _ _ => .ok _

theorem sound_exponent (spelling rest : List Char) : Sound (exponent spelling rest) := by
  cases rest with
  | nil => exact .ok _
  | cons e rest =>
    by_cases he : e = 'e' ∨ e = 'E'
    · obtain ⟨sign, rest, rfl, hsign⟩ := exists_signAt rest
      rw [exponent_cons he hsign]
      split
      · exact .cause _
      · exact .ok _
    · simp only [exponent]
      rw [if_neg (by simpa using he)]
      exact .ok _

theorem sound_fraction {whole : List Char} : Sound (fraction whole cs) :=
  (sound_exponent _ _).bind fun _ _ => (sound_endNumber _ _).bind fun _ _ => .ok _

theorem decimal_eq_tooManyDigits_iff {n : Nat} :
    decimal digits rest = .error (.tooManyDigits n) ↔
      Stops isNameChar rest ∧ digits.length = n ∧ Decimal.digitLimit < n := by
  by_cases hrest : Stops isNameChar rest
  · simp only [decimal_of_stops hrest, hrest, true_and]
    split
    · rename_i hlimit
      constructor
      · intro h
        cases h
        exact ⟨rfl, hlimit⟩
      · rintro ⟨rfl, -⟩
        rfl
    · rename_i hlimit
      constructor
      · exact fun h =>
          absurd h (Sound.ne_tooManyDigits ((sound_integerKind _ _).bind fun _ _ => .ok _))
      · rintro ⟨rfl, h⟩
        exact absurd h hlimit
  · simp only [hrest, false_and, iff_false]
    intro h
    unfold decimal at h
    cases hend : endNumber digits rest with
    | ok u => exact hrest (endNumber_eq_ok.1 hend)
    | error fault =>
      rw [hend] at h
      cases h
      exact (sound_endNumber _ _).ne_tooManyDigits hend

theorem lexeme_eq_tooManyDigits_iff {n : Nat} :
    lexeme c cs = .error (.tooManyDigits n) ↔ ∃ digits rest, c :: cs = digits ++ rest ∧
      (∀ d ∈ digits, d.isDigit = true) ∧ digits.length = n ∧ Decimal.digitLimit < n ∧
      Stops isNameChar rest ∧ ∀ more, rest = '.' :: more → Stops Char.isDigit more := by
  constructor
  · intro h
    unfold lexeme at h
    split at h
    · cases h
    · split at h
      · rename_i hc
        unfold number at h
        split at h
        · exact absurd h sound_marked.ne_tooManyDigits
        · exact absurd h sound_marked.ne_tooManyDigits
        · exact absurd h sound_marked.ne_tooManyDigits
        · exact absurd h sound_marked.ne_tooManyDigits
        · have hdecimal : ∀ rest, cs.dropWhile Char.isDigit = rest →
              (∀ more, rest = '.' :: more → Stops Char.isDigit more) →
              decimal (c :: cs.takeWhile Char.isDigit) rest = .error (.tooManyDigits n) →
              ∃ digits rest, c :: cs = digits ++ rest ∧ (∀ d ∈ digits, d.isDigit = true) ∧
                digits.length = n ∧ Decimal.digitLimit < n ∧ Stops isNameChar rest ∧
                ∀ more, rest = '.' :: more → Stops Char.isDigit more := by
            rintro rest rfl hpoint h
            obtain ⟨hrest, hlength, hlimit⟩ := decimal_eq_tooManyDigits_iff.1 h
            exact ⟨_, _, by simp, List.forall_mem_cons.2 ⟨hc, forall_mem_takeWhile _ _⟩, hlength,
              hlimit, hrest, hpoint⟩
          unfold unmarked at h
          split at h
          · rename_i d more hrest
            split at h
            · exact absurd h sound_fraction.ne_tooManyDigits
            · rename_i hd
              refine hdecimal _ hrest (fun more hmore => ?_) h
              cases hmore
              simpa using hd
          · rename_i hpoint
            refine hdecimal _ rfl (fun more hmore => ?_) h
            cases more with
            | nil => exact stops_nil
            | cons d more => exact absurd hmore (hpoint d more)
      · split at h <;> cases h
  · rintro ⟨digits, rest, hsplit, hdigits, hlength, hlimit, hrest, hpoint⟩
    cases digits with
    | nil => exact absurd hlimit (by rw [← hlength]; simp)
    | cons d digits =>
      obtain ⟨rfl, rfl⟩ := List.cons.inj hsplit
      exact (lexeme_of_digits hdigits hrest hpoint).trans
        (decimal_eq_tooManyDigits_iff.2 ⟨hrest, hlength, hlimit⟩)

end Chipwright.Lexer
