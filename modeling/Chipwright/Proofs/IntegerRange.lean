import Chipwright.Proofs.Lexing.Leading
import Chipwright.Proofs.Parsing.FirstFault
import Chipwright.Proofs.Parsing.Neighbours
import Chipwright.Proofs.Parsing.Replacement
import Chipwright.Proofs.Parsing.Words

/-!
# The range of whole numbers

The whole numbers of a program are those of 64 bits with a sign. The bound of a number is looked at
twice: a numeral must not be greater than `2 ^ 63`, and if it is as great as that, a sign must stand
before it. That a minus is a sign and not an operator is told by what comes before it. So a numeral
is a literal, or no program, by its value alone: not by its base, its digits, or the place in the
program.

## Main definitions

* `Lexer.WholeNumber`: how whole numbers are spelt in three bases
* `Program.Hole`: a place of a source where a literal may stand
* `Program.Takes`, `Program.Refuses`: what becomes of a source with a text in that place

## Main statements

* `Program.exists_hole`: there is such a place wherever a program has a truth value
* `Program.integer_literals`: the whole numbers of programs
-/
namespace Chipwright

namespace Lexer

variable {m : Nat} {text rest : List Char}

/-- How a whole number is spelt, in decimal, or after a mark in another base. -/
inductive WholeNumber : Nat → List Char → Prop
  | decimal {digits : List Char} : digits ≠ [] → (∀ d ∈ digits, d.isDigit = true) →
    digits.length ≤ Decimal.digitLimit → WholeNumber (numeral 10 digits) digits
  | marked {mark : Char} {base : Nat} {isDigit : Char → Bool} {digits : List Char} :
    Mark mark base isDigit → digits ≠ [] → (∀ d ∈ digits, isDigit d = true) →
      WholeNumber (numeral base digits) ('0' :: mark :: digits)

theorem WholeNumber.exists_cons (h : WholeNumber m text) :
    ∃ c cs, text = c :: cs ∧ c.isDigit = true := by
  cases h with
  | decimal hne hdigits =>
    obtain ⟨d, digits, rfl⟩ := List.exists_cons_of_ne_nil hne
    exact ⟨d, digits, rfl, hdigits d (List.mem_cons_self ..)⟩
  | marked => exact ⟨_, _, rfl, by decide⟩

theorem Stops.no_fraction (h : Stops (· = '.') rest) :
    ∀ more, rest = '.' :: more → Stops Char.isDigit more := by
  rintro more rfl
  simp at h

/-- A number that is not too large is read. -/
theorem WholeNumber.spells (h : WholeNumber m text) (hm : m ≤ 2 ^ 63)
    (hrest : Stops isNameChar rest) (hpoint : Stops (· = '.') rest) :
    Spells (.integer m) text rest := by
  cases h with
  | decimal hne hdigits hlength =>
    rw [← asciiNumber_eq_numeral] at *
    exact .decimal hne hdigits hlength hm hrest hpoint.no_fraction
  | marked hmark hne hdigits =>
    rw [← asciiNumber_eq_numeral] at *
    exact .marked hmark hne hdigits hm hrest

theorem integerKind_of_lt (spelling : List Char) (hm : 2 ^ 63 < m) :
    integerKind spelling m = .error (.cause (.integerTooLarge (String.ofList spelling))) :=
  if_pos hm

theorem marked_of_lt {base : Nat} {isDigit : Char → Bool} {mark shown : Char}
    {digits : List Char} (hmark : Mark mark base isDigit) (hne : digits ≠ [])
    (hdigits : ∀ d ∈ digits, isDigit d = true) (hrest : Stops isNameChar rest)
    (hm : 2 ^ 63 < numeral base digits) :
    marked base isDigit shown ['0', mark] (digits ++ rest) =
      .error (.cause (.integerTooLarge (String.ofList ('0' :: shown :: digits)))) := by
  have hstops : Stops isDigit rest := hrest.mono fun _ => hmark.isNameChar_of_isDigit
  have hempty : digits.isEmpty = false := by simpa using hne
  unfold marked
  simp only [takeWhile_append_of_stops hdigits hstops, dropWhile_append_of_stops hdigits hstops,
    hempty, asciiNumber_eq_numeral, endNumber_eq_ok.2 hrest, integerKind_of_lt _ hm]
  rfl

/-- A number that is too large is told of. -/
theorem WholeNumber.tooLarge {c : Char} {cs : List Char} (h : WholeNumber m (c :: cs))
    (hm : 2 ^ 63 < m) (hrest : Stops isNameChar rest) (hpoint : Stops (· = '.') rest) :
    ∃ spelling, lexeme c (cs ++ rest) = .error (.cause (.integerTooLarge spelling)) := by
  generalize htext : c :: cs = text at h
  cases h with
  | decimal hne hdigits hlength =>
    subst htext
    refine ⟨String.ofList (c :: cs), ?_⟩
    rw [lexeme_of_digits hdigits hrest hpoint.no_fraction, decimal_of_stops hrest,
      if_neg (Nat.not_lt.2 hlength), asciiNumber_eq_numeral, integerKind_of_lt _ hm]
    rfl
  | marked hmark hne hdigits =>
    obtain ⟨rfl, rfl⟩ := List.cons.inj htext
    rw [lexeme_of_digit (by decide)]
    cases hmark
    case hexLower => exact ⟨_, marked_of_lt .hexLower hne hdigits hrest hm⟩
    case hexUpper => exact ⟨_, marked_of_lt .hexUpper hne hdigits hrest hm⟩
    case binaryLower => exact ⟨_, marked_of_lt .binaryLower hne hdigits hrest hm⟩
    case binaryUpper => exact ⟨_, marked_of_lt .binaryUpper hne hdigits hrest hm⟩

theorem scanFrom_tooLarge (done : List Token) (pos : Position) {f : List Char}
    (hf : ∀ rest, Filler f rest) (h : WholeNumber m text) (hm : 2 ^ 63 < m)
    (hrest : Stops isNameChar rest) (hpoint : Stops (· = '.') rest) :
    ∃ spelling, scanFrom done pos (f ++ (text ++ rest)) =
      .error ⟨.cause (.integerTooLarge spelling), pos.after f⟩ := by
  obtain ⟨c, cs, rfl, hc⟩ := h.exists_cons
  obtain ⟨spelling, hlexeme⟩ := h.tooLarge hm hrest hpoint
  refine ⟨spelling, ?_⟩
  rw [List.cons_append, scanFrom_filler_append (hf _)
    (starts_of_isNameChar (isNameChar_of_isDigit hc)), hlexeme]

end Lexer

/-! ## A place for a literal -/

namespace Grammar

variable {ts : List Token}

/-- A truth value in a program is a token of its own. -/
theorem mem_of_has_true {p : Program} {pos : Position} (h : Derives ts p)
    (hx : p.Has (.bool true) pos) : ⟨.keyword .true_, pos⟩ ∈ ts := by
  refine value_of_derives (Q := fun pos x => x = .bool true → ⟨.keyword .true_, pos⟩ ∈ ts) h
    (fun used pos x hused hx heq => ?_) hx rfl
  cases hx with
  | true_ => exact hused (List.mem_singleton_self _)
  | _ => cases heq

/-- The whole numbers of a program are in range if its tokens are. -/
theorem int_range_of_has {p : Program} {pos : Position} {i : Int} (h : Derives ts p)
    (hts : ∀ n pos, ⟨.integer n, pos⟩ ∈ ts → n ≤ 2 ^ 63) (hx : p.Has (.int i) pos) :
    -2 ^ 63 ≤ i ∧ i ≤ 2 ^ 63 - 1 := by
  refine value_of_derives (Q := fun _ x => ∀ i, x = .int i → -2 ^ 63 ≤ i ∧ i ≤ 2 ^ 63 - 1) h
    (fun used pos x hused hx i heq => ?_) hx i rfl
  cases hx with
  | @integer n _ bound =>
    cases heq
    omega
  | @negative n _ pos' =>
    cases heq
    have hn := hts n pos' (hused (by simp))
    omega
  | _ => cases heq

/-- No operand begins after a dot. -/
theorem ne_dot_of_operand {t : Token} {mode : Mode} (h : mode.run? (ts ++ [t]) = some .operand) :
    t.kind ≠ .symbol .dot := by
  intro hdot
  rw [Mode.run?_append, Option.bind_eq_some_iff] at h
  obtain ⟨m, -, hm⟩ := h
  simp [hdot, Mode.next?] at hm

end Grammar

namespace Program

open Lexer Grammar

variable {source : List Char}

/-- A place of a source where a program has the literal `true`. Before it stand lexemes `front` and
a filler `gap`, after it the lexemes `back`. -/
structure Hole (before after : List Char) (p : Program) (front : List Tile) (gap : List Char)
    (back : List Tile) : Prop where
  before_eq : before = textOf front ++ gap
  filler : ∀ rest, Filler gap rest
  /-- A number may stand there. -/
  leads : ∀ c cs, c.isDigit = true ∨ c = '-' → Leads front (gap ++ c :: cs)
  stops : Lexer.Stops isNameChar after
  point : Lexer.Stops (· = '.') after
  tiles : Tiles after back
  parse_eq : parse (tokensFrom .first front ++ ⟨.keyword .true_, .after .first before⟩ ::
    tokensFrom (.after .first (before ++ Keyword.true_.text.toList)) back) = .ok p
  ordered : ((tokensFrom .first front ++ ⟨.keyword .true_, .after .first before⟩ ::
    tokensFrom (.after .first (before ++ Keyword.true_.text.toList)) back).map (·.pos)).Pairwise
      Position.Before
  mode : Mode.run? .apart (tokensFrom .first front) = some .operand

variable {file : String} {before after gap text : List Char} {p : Program} {front back : List Tile}
  {m : Nat}

/-- A number may follow where a word does. -/
theorem follows_number {f : List Char} {c : Char} {cs more : List Char}
    (hf : Filler f (Keyword.true_.text.toList ++ more)) (hc : c.isDigit = true ∨ c = '-') :
    Lexer.Follows (f ++ (Keyword.true_.text.toList ++ more)) (f ++ c :: cs) := by
  cases f with
  | nil =>
    have hne : c ≠ '=' ∧ c ≠ '/' ∧ c ≠ '*' ∧ c ≠ '.' := by
      refine ⟨?_, ?_, ?_, ?_⟩ <;> rintro rfl <;> simp at hc
    refine ⟨fun h => ?_, ?_, ?_, ?_⟩
    · exact absurd (h 't' rfl) (by decide)
    · simp [hne.1]
    · simp [hne.2.1, hne.2.2.1]
    · simp [hne.2.2.2]
  | cons d f => exact ⟨by simp, by simp, by simp, by simpa using hf.ne_point⟩

/-- There is a place for a number wherever a program has a truth value. -/
theorem exists_hole (h : ofSource file (before ++ (Keyword.true_.text.toList ++ after)) = .ok p)
    (htrue : p.Has (.bool true) (.after .first before)) :
    ∃ front gap back, Hole before after p front gap back := by
  obtain ⟨ts, hscan, hparse⟩ := ofSource_eq_ok.1 h
  obtain ⟨tiles, htiles, rfl⟩ := scan_eq_ok_iff.1 hscan
  have hderives := (parse_eq_ok_iff.1 hparse).1
  obtain ⟨front, gap, text, back, rest, rfl, rfl, htext, hfront, hgap, hstarts, hspells, hrest⟩ :=
    exists_leads_of_mem htiles (mem_of_has_true hderives htrue)
  -- the word is the one in the text
  rw [htext] at hstarts
  obtain ⟨hspelling, hstops⟩ := spells_iff.1 ⟨hspells, hstarts⟩
  rw [← htext] at hstarts
  cases hspelling
  obtain rfl := List.append_cancel_left htext
  have hordered := pairwise_tokensFrom htiles .first
  have htokens : tokensFrom .first (front ++ ⟨gap, ⟨.keyword .true_, Keyword.true_.text.toList⟩⟩ ::
      back) = tokensFrom .first front ++ ⟨.keyword .true_, .after .first (textOf front ++ gap)⟩ ::
        tokensFrom (.after .first (textOf front ++ gap ++ Keyword.true_.text.toList)) back := by
    simp [tokensFrom_append, tokensFrom, Position.after_append]
  simp only [htokens] at hparse hderives hordered
  obtain ⟨hmode, hdot⟩ := operand_before_true hderives
  have hlast : ∀ t ∈ front.getLast?, t.lexeme.kind ≠ .symbol .dot := by
    intro t ht
    obtain ⟨first, rfl⟩ := List.getLast?_eq_some_iff.1 ht
    rw [tokensFrom_append] at hmode
    exact ne_dot_of_operand hmode
  have hpoint : Lexer.Stops (· = '.') after := by
    intro c hc
    by_contra heq
    obtain rfl : c = '.' := by simpa using heq
    obtain ⟨more, rfl⟩ := List.head?_eq_some_iff.1 hc
    obtain ⟨t, ht, hkind⟩ := hrest.dot
    obtain ⟨back', rfl⟩ := List.head?_eq_some_iff.1 ht
    exact hdot _ rfl hkind
  exact ⟨front, gap, back, rfl, hgap.exchange (by simp [Keyword.text]) hstarts,
    fun c cs hc => hfront.follow (follows_number hgap hc) hlast, hstops, hpoint, hrest, hparse,
    hordered, hmode⟩

/-! ## Programs with a number in the place -/

/-- With a text in the place of `true`, the source is the program with a literal there. Everything
else is the same and only stands elsewhere. -/
def Takes (file : String) (before text after : List Char) (p : Program) (x : Literal) : Prop :=
  ∃ φ : Position ↪ Position, φ (.after .first before) = .after .first before ∧
    ofSource file (before ++ (text ++ after)) =
      .ok ((p.relabel (.moving φ)).put (.after .first before) x)

/-- The source is no program, and this is told as a fault of its text. -/
def Refuses (file : String) (source : List Char) : Prop :=
  ∃ d, ofSource file source = .error (.diagnostic d) ∧ d.cause.kind = "ParseError"

/-- What is read up to the place. -/
theorem Hole.scan_eq (h : Hole before after p front gap back) {c : Char} {cs : List Char}
    (hc : c.isDigit = true ∨ c = '-') :
    scan (before ++ c :: cs) = scanFrom (tokensFrom .first front).reverse
      (.after .first (textOf front)) (gap ++ c :: cs) := by
  rw [scan, h.before_eq, List.append_assoc, scanFrom_of_leads (h.leads c cs hc), List.append_nil]

/-- A literal in the place of `true`, after which the tokens stand elsewhere. -/
theorem exists_parse_put {ts new us us' : List Token} {q : Position} {x : Literal}
    (h : parse (ts ++ ⟨.keyword .true_, q⟩ :: us) = .ok p) (hnew : IsLiteral new q x)
    (hordered : ((ts ++ ⟨.keyword .true_, q⟩ :: us).map (·.pos)).Nodup)
    (hordered' : ((ts ++ ⟨.keyword .true_, q⟩ :: us').map (·.pos)).Nodup)
    (hkinds : us'.map (·.kind) = us.map (·.kind)) :
    ∃ φ : Position ↪ Position, φ q = q ∧
      parse (ts ++ (new ++ us')) = .ok ((p.relabel (.moving φ)).put q x) := by
  have hkinds : (ts ++ ⟨.keyword .true_, q⟩ :: us').map (·.kind) =
      (ts ++ ⟨.keyword .true_, q⟩ :: us).map (·.kind) := by
    simp [hkinds]
  obtain ⟨φ, hφ⟩ := exists_move_of_kinds hkinds hordered hordered'
  have hq : φ q = q := by
    rw [List.map_append] at hφ
    obtain ⟨-, hφ⟩ := List.append_inj hφ (by simp)
    exact (Token.mk.inj (List.cons.inj hφ).1).2.symm
  have hparse := matches_parse φ (ts ++ ⟨.keyword .true_, q⟩ :: us) {}
  rw [← hφ] at hparse
  obtain ⟨_, hparse, rfl⟩ := hparse.exists_ok h
  have hnotMem : ⟨.keyword .true_, q⟩ ∉ ts ∧ ⟨.keyword .true_, q⟩ ∉ us' := by
    rw [List.map_append, List.map_cons, List.nodup_middle, List.nodup_cons, List.mem_append,
      not_or] at hordered'
    exact ⟨fun hmem => hordered'.1.1 (List.mem_map_of_mem hmem),
      fun hmem => hordered'.1.2 (List.mem_map_of_mem hmem)⟩
  exact ⟨φ, hq, parse_put hparse hnew hnotMem.1 hnotMem.2⟩

theorem pairwise_of_scan {ts : TokenList} (h : scan source = .ok ts) :
    (ts.tokens.map (·.pos)).Pairwise Position.Before := by
  obtain ⟨tiles, htiles, rfl⟩ := scan_eq_ok_iff.1 h
  exact pairwise_tokensFrom htiles .first

theorem head_of_isLiteral {new : List Token} {q : Position} {x : Literal} (h : IsLiteral new q x) :
    ∃ kind more, new = ⟨kind, q⟩ :: more := by
  cases h <;> exact ⟨_, _, rfl⟩

/-- If the tokens of a literal are read in the place, the source is the program with the literal. -/
theorem Hole.takes (h : Hole before after p front gap back) {new : List Token} {x : Literal}
    {pos finish : Position} (hnew : IsLiteral new (.after .first before) x)
    (hscan : scan (before ++ (text ++ after)) =
      .ok ⟨tokensFrom .first front ++ (new ++ tokensFrom pos back), finish⟩) :
    Takes file before text after p x := by
  have hordered' : ((tokensFrom .first front ++ ⟨.keyword .true_, .after .first before⟩ ::
      tokensFrom pos back).map (·.pos)).Nodup := by
    have hordered := pairwise_of_scan hscan
    obtain ⟨kind, more, rfl⟩ := head_of_isLiteral hnew
    refine (hordered.sublist ?_).imp fun hbefore => hbefore.ne
    simp
  have hordered := h.ordered.imp fun hbefore => hbefore.ne
  obtain ⟨φ, hq, hparse⟩ := exists_parse_put h.parse_eq hnew hordered hordered'
    (by rw [kinds_tokensFrom, kinds_tokensFrom])
  exact ⟨φ, hq, ofSource_eq_ok.2 ⟨_, hscan, hparse⟩⟩

theorem refuses_of_scan {spelling : String} {pos : Position}
    (h : scan source = .error ⟨.cause (.integerTooLarge spelling), pos⟩) : Refuses file source := by
  have hfailure : ofSource file source = .error (.diagnostic {
      cause := .integerTooLarge spelling
      location := some (pos.inFile file)
      sourceLine := (Text.line? (pos.line - 1) source).map String.ofList }) := by
    rw [ofSource, TokenList.ofSource, h]
    rfl
  exact ⟨_, hfailure, rfl⟩

theorem refuses_of_parse {ts : TokenList} (hscan : scan source = .ok ts)
    (h : ∀ p, parse ts.tokens ≠ .ok p) : Refuses file source := by
  cases hparse : parse ts.tokens with
  | ok p => exact absurd hparse (h p)
  | error fault =>
    obtain ⟨used, rest, -, htold, -⟩ :=
      ((Reader.promptStatements _).many rfl).fails (parse_eq_error_iff.1 hparse)
    obtain ⟨shown, hfailure, -⟩ := fault.failure_eq file source ts.finish
    have hsource : ofSource file source = .error (fault.failure file source ts.finish) := by
      have hprogram : ts.program file source = .error (fault.failure file source ts.finish) := by
        simp only [TokenList.program, hparse]
      rw [ofSource, TokenList.ofSource_eq_ok.2 hscan]
      exact hprogram
    rw [hfailure] at hsource
    exact ⟨_, hsource, by cases htold <;> rfl⟩

/-- Lexemes in the place. -/
theorem Hole.tiles_of_new (h : Hole before after p front gap back) {new : List Tile} {c : Char}
    (hc : c.isDigit = true ∨ c = '-') (hnew : Leads new after) (cs : List Char)
    (htext : textOf new = gap ++ c :: cs) :
    Tiles (before ++ (c :: cs ++ after)) (front ++ (new ++ back)) := by
  have hfront : Leads front (textOf new ++ after) := by
    rw [htext, List.append_assoc]
    exact h.leads c _ hc
  have htiles := tiles_of_leads (hfront.append hnew) h.tiles
  rwa [textOf_append, htext, ← List.append_assoc (textOf front), ← h.before_eq, List.append_assoc,
    List.append_assoc front] at htiles

theorem leads_number {f : List Char} (hf : ∀ rest, Filler f rest) (hm : WholeNumber m text)
    (hle : m ≤ 2 ^ 63) (hstops : Lexer.Stops isNameChar after)
    (hpoint : Lexer.Stops (· = '.') after) : Leads [⟨f, ⟨.integer m, text⟩⟩] after := by
  refine .cons (hf _) ?_ (hm.spells hle hstops hpoint) .nil
  obtain ⟨c, cs, rfl, hc⟩ := hm.exists_cons
  exact starts_of_isNameChar (isNameChar_of_isDigit hc)

/-- A number that is not too large is read in the place. -/
theorem Hole.scan_number (h : Hole before after p front gap back) (hm : WholeNumber m text)
    (hle : m ≤ 2 ^ 63) : ∃ pos finish, scan (before ++ (text ++ after)) =
      .ok ⟨tokensFrom .first front ++ ([⟨.integer m, .after .first before⟩] ++
        tokensFrom pos back), finish⟩ := by
  have hleads := leads_number h.filler hm hle h.stops h.point
  obtain ⟨c, cs, rfl, hc⟩ := hm.exists_cons
  have htiles := h.tiles_of_new (Or.inl hc) hleads cs (by simp)
  refine ⟨.after .first (before ++ c :: cs), .after .first (before ++ (c :: cs ++ after)),
    scan_eq_ok_iff.2 ⟨_, htiles, ?_⟩⟩
  simp [tokensFrom_append, tokensFrom, h.before_eq, Position.after_append]

/-- So is a minus and such a number. -/
theorem Hole.scan_minus (h : Hole before after p front gap back) (hm : WholeNumber m text)
    (hle : m ≤ 2 ^ 63) : ∃ pos pos' finish, scan (before ++ ('-' :: text ++ after)) =
      .ok ⟨tokensFrom .first front ++ ([⟨.symbol .minus, .after .first before⟩,
        ⟨.integer m, pos'⟩] ++ tokensFrom pos back), finish⟩ := by
  have hleads := leads_number (fun _ => .nil) hm hle h.stops h.point
  have hminus : Leads [⟨gap, ⟨.symbol .minus, ['-']⟩⟩, ⟨[], ⟨.integer m, text⟩⟩] after :=
    .cons (h.filler _) (starts_of_solid (by decide) (by decide)) (.symbol (by simp)) hleads
  have htiles := h.tiles_of_new (Or.inr rfl) hminus text (by simp)
  refine ⟨.after .first (before ++ '-' :: text), .after .first (before ++ ['-']),
    .after .first (before ++ ('-' :: text ++ after)), scan_eq_ok_iff.2 ⟨_, htiles, ?_⟩⟩
  simp [tokensFrom_append, tokensFrom, h.before_eq, Position.after_append]

/-- A number that is too large is told of, in the place or after a minus in the place. -/
theorem Hole.refuses_tooLarge (h : Hole before after p front gap back) (hm : WholeNumber m text)
    (hlt : 2 ^ 63 < m) : Refuses file (before ++ (text ++ after)) ∧
      Refuses file (before ++ ('-' :: text ++ after)) := by
  constructor
  · obtain ⟨spelling, hspelling⟩ := scanFrom_tooLarge (tokensFrom .first front).reverse
      (.after .first (textOf front)) h.filler hm hlt h.stops h.point
    obtain ⟨c, cs, rfl, hc⟩ := hm.exists_cons
    exact refuses_of_scan ((h.scan_eq (Or.inl hc)).trans hspelling)
  · have hminus : ∀ done pos, scanFrom done pos (gap ++ (['-'] ++ (text ++ after))) =
        scanFrom (⟨.symbol .minus, pos.after gap⟩ :: done) ((pos.after gap).after ['-'])
          (text ++ after) := fun done pos =>
      scanFrom_of_spells (l := ⟨.symbol .minus, ['-']⟩) (h.filler _)
        (starts_of_solid (by decide) (by decide)) (.symbol (by simp))
    obtain ⟨spelling, hspelling⟩ := scanFrom_tooLarge _ _ (fun _ => .nil) hm hlt h.stops h.point
    exact refuses_of_scan ((h.scan_eq (Or.inr rfl)).trans ((hminus _ _).trans hspelling))

/-- A number that fits only with a sign is no literal without one. -/
theorem Hole.refuses_unsigned (h : Hole before after p front gap back) (hm : WholeNumber m text)
    (heq : m = 2 ^ 63) : Refuses file (before ++ (text ++ after)) := by
  obtain ⟨pos, finish, hscan⟩ := h.scan_number hm heq.le
  refine refuses_of_parse hscan fun p' hparse => ?_
  have hsigned := signed_before_integer (parse_eq_ok_iff.1 hparse).1 (by rw [heq]; decide)
  rw [h.mode] at hsigned
  cases hsigned

/-- The whole numbers of programs are those of 64 bits with a sign. Every one in a program is in
that range. In every place of a source where a literal may stand, a number is a literal of the
program if it is in the range, however it is spelt, and so it is with a minus before it; otherwise
this is told as a fault of the text. -/
theorem integer_literals :
    (∀ (file : String) (source : List Char) (p : Program) (i : Int) (pos : Position),
      ofSource file source = .ok p → p.Has (.int i) pos → -2 ^ 63 ≤ i ∧ i ≤ 2 ^ 63 - 1) ∧
    ∀ (file : String) (before after : List Char) (p : Program) (m : Nat) (text : List Char),
      ofSource file (before ++ (Keyword.true_.text.toList ++ after)) = .ok p →
      p.Has (.bool true) (.after .first before) → WholeNumber m text →
        (if m ≤ 2 ^ 63 - 1 then Takes file before text after p (.int m)
          else Refuses file (before ++ (text ++ after))) ∧
        if m ≤ 2 ^ 63 then Takes file before ('-' :: text) after p (.int (-m))
          else Refuses file (before ++ ('-' :: text ++ after)) := by
  constructor
  · intro file source p i pos hsource hi
    obtain ⟨ts, hscan, hparse⟩ := ofSource_eq_ok.1 hsource
    refine int_range_of_has (parse_eq_ok_iff.1 hparse).1 (fun n pos hn => ?_) hi
    obtain ⟨text, hspelling⟩ := exists_spelling_of_scan hscan hn
    exact hspelling.integer_le
  · intro file before after p m text hsource htrue hm
    obtain ⟨front, gap, back, h⟩ := exists_hole hsource htrue
    constructor
    · split
      · rename_i hle
        obtain ⟨pos, finish, hscan⟩ := h.scan_number hm (by omega)
        exact h.takes (.integer hle) hscan
      · rename_i hlt
        by_cases heq : m = 2 ^ 63
        · exact h.refuses_unsigned hm heq
        · exact (h.refuses_tooLarge hm (by omega)).1
    · split
      · rename_i hle
        obtain ⟨pos, pos', finish, hscan⟩ := h.scan_minus hm hle
        exact h.takes .negative hscan
      · rename_i hlt
        exact (h.refuses_tooLarge hm (by omega)).2

/-- The least number in a base other than ten: without a sign of its own it is refused, also after
a minus that is an operator. -/
theorem integer_literals_least : ∃ p,
    ofSource "least" "let v = a -true;".toList = .ok p ∧
      Refuses "least" "let v = a -0X8000000000000000;".toList ∧
      Takes "least" "let v = a -".toList "-0X8000000000000000".toList ";".toList p
        (.int (-2 ^ 63)) ∧
      ∀ p' i pos, ofSource "least" "let v = a --0X8000000000000000;".toList = .ok p' →
        p'.Has (.int i) pos → -2 ^ 63 ≤ i ∧ i ≤ 2 ^ 63 - 1 := by
  have hsome : ((ofSource "least" "let v = a -true;".toList).toOption.bind fun p =>
      if p.Has (.bool true) (.after .first "let v = a -".toList) then some p else none).isSome := by
    decide +kernel
  obtain ⟨x, hx⟩ := Option.isSome_iff_exists.1 hsome
  obtain ⟨p, hsource, hx⟩ := Option.bind_eq_some_iff.1 hx
  rw [toOption_eq_some] at hsource
  split at hx
  case isFalse => cases hx
  case isTrue htrue =>
    have hvalue : numeral 16 "8000000000000000".toList = 2 ^ 63 := by decide +kernel
    have hm : WholeNumber (numeral 16 "8000000000000000".toList) "0X8000000000000000".toList :=
      .marked .hexUpper (by decide) (List.all_eq_true.1 (by decide))
    rw [hvalue] at hm
    obtain ⟨hrange, hliteral⟩ := integer_literals
    obtain ⟨hplain, hminus⟩ :=
      hliteral "least" "let v = a -".toList ";".toList p _ _ hsource htrue hm
    rw [if_neg (by decide)] at hplain
    rw [if_pos (by decide)] at hminus
    exact ⟨p, hsource, hplain, hminus, fun p' i pos hsource' hi => hrange _ _ p' i pos hsource' hi⟩

end Program

end Chipwright
