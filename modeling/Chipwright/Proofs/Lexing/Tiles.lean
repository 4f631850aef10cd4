import Chipwright.Proofs.Lexing.Lexeme

/-!
# How lexemes tile a text

Between lexemes stand white space and comments. A text is read as tokens exactly if it can be cut
into lexemes and such fillers; the tokens are what the lexemes spell, each at the position where
its lexeme starts.
-/
namespace Chipwright.Lexer

variable {c : Char} {cs f rest : List Char} {pos : Position} {done : List Token}

/-- White space and comments in front of a text. A comment after `//` goes up to a newline or to
the end, another one up to the first `*/`. -/
inductive Filler : List Char → (rest : List Char) → Prop
  | nil {rest : List Char} : Filler [] rest
  | space {c : Char} {f rest : List Char} : isSpace c = true → Filler f rest → Filler (c :: f) rest
  | line {body f rest : List Char} : '\n' ∉ body → (∀ c ∈ (f ++ rest).head?, c = '\n') →
    Filler f rest → Filler ('/' :: '/' :: (body ++ f)) rest
  | block {body f rest : List Char} : ¬ ['*', '/'] <:+: body → Filler f rest →
    Filler ('/' :: '*' :: (body ++ '*' :: '/' :: f)) rest

/-- Neither white space nor a comment stands in front. -/
structure Starts (cs : List Char) : Prop where
  solid : ∀ c ∈ cs.head?, isSpace c = false
  line : ∀ more, cs ≠ '/' :: '/' :: more
  block : ∀ more, cs ≠ '/' :: '*' :: more

theorem starts_of_solid (hspace : isSpace c = false) (hslash : c ≠ '/') :
    Starts (c :: cs) where
  solid d hd := by
    cases hd
    exact hspace
  line more heq := by
    cases heq
    exact hslash rfl
  block more heq := by
    cases heq
    exact hslash rfl

theorem starts_of_isNameChar (h : isNameChar c = true) : Starts (c :: cs) := by
  refine starts_of_solid ?_ ?_
  · cases hspace : isSpace c with
    | false => rfl
    | true => rw [isNameChar_of_isSpace hspace] at h; cases h
  · rintro rfl
    simp [isNameChar] at h

/-- A lexeme is no part of a comment, unless it is a slash that another slash or a star follows. -/
theorem starts_iff_of_spells {kind : TokenKind} {text : List Char} (h : Spells kind text rest) :
    Starts (text ++ rest) ↔
      (kind = .symbol .slash → Stops (fun c => c = '/' || c = '*') rest) := by
  -- all but one lexeme start with a character that is in no comment mark
  have hplain : Starts (text ++ rest) → kind ≠ .symbol .slash → (Starts (text ++ rest) ↔
      (kind = .symbol .slash → Stops (fun c => c = '/' || c = '*') rest)) :=
    fun hstarts hne => ⟨fun _ heq => absurd heq hne, fun _ => hstarts⟩
  have hword : ∀ {word : String}, wordKind word ≠ .symbol .slash := by
    intro word
    unfold wordKind
    split
    · exact TokenKind.noConfusion
    · split <;> exact TokenKind.noConfusion
  cases h with
  | word hc _ _ => exact hplain (starts_of_isNameChar (isNameChar_of_isNameStart hc)) hword
  | marked => exact hplain (starts_of_isNameChar (by decide)) (by simp)
  | decimal hne hdigits =>
    obtain ⟨d, digits, rfl⟩ := List.exists_cons_of_ne_nil hne
    exact hplain (starts_of_isNameChar
      (isNameChar_of_isDigit (hdigits d (List.mem_cons_self ..)))) (by simp)
  | fraction hne hwhole =>
    obtain ⟨d, whole, rfl⟩ := List.exists_cons_of_ne_nil hne
    exact hplain (starts_of_isNameChar
      (isNameChar_of_isDigit (hwhole d (List.mem_cons_self ..)))) (by simp)
  | @symbol s =>
    cases s
    case slash =>
      constructor
      · rintro ⟨-, hline, hblock⟩ - c hc
        obtain ⟨more, rfl⟩ := List.head?_eq_some_iff.1 hc
        have hslash : c ≠ '/' := by
          rintro rfl
          exact hline more rfl
        have hstar : c ≠ '*' := by
          rintro rfl
          exact hblock more rfl
        simp [hslash, hstar]
      · intro hstops
        have hstops := hstops rfl
        refine ⟨by simp [Symbol.text, isSpace], ?_, ?_⟩
        · rintro more heq
          obtain ⟨-, rfl⟩ := List.cons.inj heq
          simp at hstops
        · rintro more heq
          obtain ⟨-, rfl⟩ := List.cons.inj heq
          simp at hstops
    all_goals exact hplain (starts_of_solid rfl (by decide)) (by simp)

/-- A lexeme that stands apart is no part of a comment. -/
theorem starts_of_spells {kind : TokenKind} {text : List Char} (h : Spells kind text rest)
    (hrest : Apart rest) : Starts (text ++ rest) := by
  refine (starts_iff_of_spells h).2 fun _ => hrest.stops fun c hc => ?_
  simp [(ne_of_isSpace hc).2.2]

attribute [local simp] skip

theorem skip_space (h : isSpace c = true) :
    skip .space pos (c :: cs) = skip .space (pos.next c) cs := by
  have hslash := (ne_of_isSpace h).2.2.1
  simp [h, hslash]

theorem skip_line {body : List Char} (hbody : '\n' ∉ body) (hcs : ∀ c ∈ cs.head?, c = '\n') :
    skip .line pos (body ++ cs) = skip .space (pos.after body) cs := by
  induction body generalizing pos with
  | nil =>
    cases cs with
    | nil => rfl
    | cons c cs =>
      obtain rfl := hcs c rfl
      rw [List.nil_append, skip_space rfl]
      rfl
  | cons c body ih =>
    obtain ⟨hc, hbody⟩ := not_or.1 (List.mem_cons.not.1 hbody)
    simp [Ne.symm hc, ih hbody]

theorem skip_block {start : Position} {body : List Char} (hbody : ¬ ['*', '/'] <:+: body) :
    skip (.block start) pos (body ++ '*' :: '/' :: cs) =
      skip .space (pos.after (body ++ ['*', '/'])) cs := by
  induction body generalizing pos with
  | nil => rfl
  | cons c body ih =>
    have hinner : ¬ ['*', '/'] <:+: body :=
      fun h => hbody (h.trans (List.suffix_cons c body).isInfix)
    have hopen : ∀ more, c = '*' → body ++ '*' :: '/' :: cs = '/' :: more → False := by
      rintro more rfl hmore
      cases body with
      | nil => simp at hmore
      | cons d body =>
        obtain ⟨rfl, -⟩ := List.cons.inj hmore
        exact hbody ⟨[], body, rfl⟩
    rw [List.cons_append, skip, ih hinner]
    · rfl
    · exact hopen

/-- A filler is skipped. -/
theorem skip_filler (h : Filler f rest) (pos : Position) :
    skip .space pos (f ++ rest) = skip .space (pos.after f) rest := by
  induction h generalizing pos with
  | nil => rfl
  | space hc _ ih => rw [List.cons_append, skip_space hc, ih, Position.after_cons]
  | line hbody hend _ ih =>
    simp [skip_line hbody hend, ih, Position.after_append]
  | block hbody _ ih =>
    simp [skip_block hbody, ih, Position.after_append]

theorem skip_of_starts (h : Starts cs) (pos : Position) : skip .space pos cs = .ok (pos, cs) := by
  cases cs with
  | nil => rfl
  | cons c cs =>
    rw [skip, if_neg (by simp [h.solid c rfl])]
    · rintro more rfl rfl
      exact h.line more rfl
    · rintro more rfl rfl
      exact h.block more rfl

/-- What was skipped, by what was being skipped at its start. -/
def Gap.Skipped (rest : List Char) : Gap → List Char → Prop
  | .space, f => Filler f rest
  | .line, f => ∃ body f', f = body ++ f' ∧ '\n' ∉ body ∧ (∀ c ∈ (f' ++ rest).head?, c = '\n') ∧
    Filler f' rest
  | .block _, f => ∃ body f', f = body ++ '*' :: '/' :: f' ∧ ¬ ['*', '/'] <:+: body ∧ Filler f' rest

theorem skipped_of_skip {gap : Gap} {pos' : Position} (h : skip gap pos cs = .ok (pos', rest)) :
    ∃ f, cs = f ++ rest ∧ gap.Skipped rest f ∧ pos' = pos.after f ∧ Starts rest := by
  have hnil : Starts [] := ⟨by simp, by simp, by simp⟩
  fun_induction skip gap pos cs with
  | case1 => cases h
  | case2 =>
    cases h
    exact ⟨[], rfl, .nil, rfl, hnil⟩
  | case3 =>
    cases h
    exact ⟨[], rfl, ⟨[], [], rfl, by simp, by simp, .nil⟩, rfl, hnil⟩
  | case4 pos cs ih =>
    obtain ⟨f, rfl, ⟨body, f', rfl, hbody, hend, hf'⟩, rfl, hstarts⟩ := ih h
    exact ⟨_, rfl, .line hbody hend hf', rfl, hstarts⟩
  | case5 pos cs ih =>
    obtain ⟨f, rfl, ⟨body, f', rfl, hbody, hf'⟩, rfl, hstarts⟩ := ih h
    exact ⟨_, rfl, .block hbody hf', rfl, hstarts⟩
  | case6 pos c cs hline hblock hspace ih =>
    obtain ⟨f, rfl, hf, rfl, hstarts⟩ := ih h
    exact ⟨c :: f, rfl, .space hspace hf, rfl, hstarts⟩
  | case7 pos c cs hline hblock hspace =>
    cases h
    refine ⟨[], rfl, .nil, rfl, ?_, ?_, ?_⟩
    · simpa using hspace
    · rintro more heq
      cases heq
      exact hline more rfl rfl
    · rintro more heq
      cases heq
      exact hblock more rfl rfl
  | case8 pos c cs ih =>
    obtain ⟨f, rfl, hf, rfl, hstarts⟩ := ih h
    refine ⟨c :: f, rfl, ?_, rfl, hstarts⟩
    by_cases hc : c = '\n'
    · subst hc
      exact ⟨[], '\n' :: f, rfl, by simp, by simp, .space rfl hf⟩
    · rw [if_neg hc] at hf
      obtain ⟨body, f', rfl, hbody, hend, hf'⟩ := hf
      exact ⟨c :: body, f', rfl, by simp [hbody, Ne.symm hc], hend, hf'⟩
  | case9 start pos cs ih =>
    obtain ⟨f, rfl, hf, rfl, hstarts⟩ := ih h
    exact ⟨_, rfl, ⟨[], f, rfl, by simp, hf⟩, rfl, hstarts⟩
  | case10 start pos c cs hopen ih =>
    obtain ⟨f, rfl, ⟨body, f', rfl, hbody, hf'⟩, rfl, hstarts⟩ := ih h
    refine ⟨_, rfl, ⟨c :: body, f', rfl, ?_, hf'⟩, rfl, hstarts⟩
    rw [List.infix_cons_iff, not_or]
    refine ⟨?_, hbody⟩
    rintro ⟨more, hmore⟩
    obtain ⟨rfl, rfl⟩ := List.cons.inj hmore
    exact hopen _ rfl rfl

/-- What is skipped is a filler, and no other text could have been skipped before the rest. -/
theorem skip_eq_ok_iff {pos' : Position} :
    skip .space pos cs = .ok (pos', rest) ↔
      ∃ f, cs = f ++ rest ∧ Filler f rest ∧ pos' = pos.after f ∧ Starts rest := by
  refine ⟨skipped_of_skip, ?_⟩
  rintro ⟨f, rfl, hf, rfl, hstarts⟩
  rw [skip_filler hf, skip_of_starts hstarts]

/-! ### Tiles -/

/-- A lexeme and the filler in front of it. -/
structure Tile where
  filler : List Char
  lexeme : Lexeme

/-- Fillers and lexemes that make up a text. -/
inductive Tiles : List Char → List Tile → Prop
  | last {f : List Char} : Filler f [] → Tiles f []
  | cons {f cs : List Char} {l : Lexeme} {tiles : List Tile} : Filler f (l.text ++ cs) →
    Starts (l.text ++ cs) → Spells l.kind l.text cs → Tiles cs tiles →
      Tiles (f ++ (l.text ++ cs)) (⟨f, l⟩ :: tiles)

/-- The tokens that tiles spell. -/
def tokensFrom : Position → List Tile → List Token
  | _, [] => []
  | pos, t :: tiles =>
    ⟨t.lexeme.kind, pos.after t.filler⟩ :: tokensFrom (pos.after (t.filler ++ t.lexeme.text)) tiles

theorem kinds_tokensFrom (pos : Position) (tiles : List Tile) :
    (tokensFrom pos tiles).map (·.kind) = (tiles.map (·.lexeme)).map (·.kind) := by
  induction tiles generalizing pos with
  | nil => rfl
  | cons tile tiles ih => exact congrArg (tile.lexeme.kind :: ·) (ih _)

/-- A text is read by its first lexeme, if there is one. -/
theorem scanFrom_eq (done : List Token) (pos : Position) (cs : List Char) :
    scanFrom done pos cs =
      match skip .space pos cs with
      | .error start => .error ⟨.cause .unterminatedComment, start⟩
      | .ok (pos', []) => .ok ⟨done.reverse, pos'⟩
      | .ok (pos', c :: rest) =>
        match lexeme c rest with
        | .error fault => .error ⟨fault, pos'⟩
        | .ok l => scanFrom (⟨l.kind, pos'⟩ :: done) (pos'.after l.text)
          (rest.drop (l.text.length - 1)) := by
  rw [scanFrom]
  split
  next hskip => rw [hskip]
  next hskip => rw [hskip]
  next hskip => exact hskip ▸ rfl

theorem scanFrom_filler (hf : Filler f []) :
    scanFrom done pos f = .ok ⟨done.reverse, pos.after f⟩ := by
  have hskip := skip_filler hf pos
  rw [List.append_nil] at hskip
  rw [scanFrom_eq, hskip]
  rfl

theorem scanFrom_filler_append (hf : Filler f (c :: cs)) (hcs : Starts (c :: cs)) :
    scanFrom done pos (f ++ c :: cs) =
      match lexeme c cs with
      | .error fault => .error ⟨fault, pos.after f⟩
      | .ok l => scanFrom (⟨l.kind, pos.after f⟩ :: done) ((pos.after f).after l.text)
        (cs.drop (l.text.length - 1)) := by
  rw [scanFrom_eq, skip_filler hf, skip_of_starts hcs]

/-- A lexeme is read and what follows it is left. -/
theorem scanFrom_of_spells {l : Lexeme} (hf : Filler f (l.text ++ cs))
    (hstarts : Starts (l.text ++ cs)) (hspells : Spells l.kind l.text cs) :
    scanFrom done pos (f ++ (l.text ++ cs)) =
      scanFrom (⟨l.kind, pos.after f⟩ :: done) ((pos.after f).after l.text) cs := by
  obtain ⟨kind, text⟩ := l
  obtain ⟨c, text, rfl⟩ := hspells.exists_cons
  have hscan : scanFrom done pos (f ++ c :: (text ++ cs)) = _ := scanFrom_filler_append hf hstarts
  rw [lexeme_of_spells hspells] at hscan
  simpa using hscan

theorem scanFrom_of_tiles {tiles : List Tile} (h : Tiles cs tiles) :
    scanFrom done pos cs = .ok ⟨done.reverse ++ tokensFrom pos tiles, pos.after cs⟩ := by
  induction h generalizing done pos with
  | @last f hf =>
    rw [scanFrom_filler hf]
    simp [tokensFrom]
  | cons hf hstarts hspells _ ih =>
    rw [scanFrom_of_spells hf hstarts hspells, ih]
    simp [tokensFrom, Position.after_append]

/-- What is read is cut into tiles. -/
theorem tiles_of_scanFrom {ts : TokenList} (h : scanFrom done pos cs = .ok ts) :
    ∃ tiles, Tiles cs tiles := by
  fun_induction scanFrom done pos cs with
  | case1 => cases h
  | case2 done pos cs pos' hskip =>
    obtain ⟨f, rfl, hf, -, -⟩ := skip_eq_ok_iff.1 hskip
    exact ⟨[], by simpa using Tiles.last hf⟩
  | case3 => cases h
  | case4 done pos cs pos' c rest hskip l hl ih =>
    obtain ⟨f, rfl, hf, -, hstarts⟩ := skip_eq_ok_iff.1 hskip
    obtain ⟨more, hmore, hspells⟩ := lexeme_eq_ok_iff.1 hl
    obtain ⟨tiles, htiles⟩ := ih h
    rw [hspells.drop_eq hmore] at htiles
    rw [hmore] at hf hstarts ⊢
    exact ⟨⟨f, l⟩ :: tiles, .cons hf hstarts hspells htiles⟩

/-- A text is read as tokens exactly if it is made up of tiles. They are what the lexemes spell,
where these start. -/
theorem scan_eq_ok_iff {ts : TokenList} : scan cs = .ok ts ↔
    ∃ tiles, Tiles cs tiles ∧ ts = ⟨tokensFrom .first tiles, Position.first.after cs⟩ := by
  constructor
  · intro h
    obtain ⟨tiles, htiles⟩ := tiles_of_scanFrom h
    refine ⟨tiles, htiles, ?_⟩
    rw [scan, scanFrom_of_tiles htiles] at h
    simpa using (Except.ok.inj h).symm
  · rintro ⟨tiles, htiles, rfl⟩
    rw [scan, scanFrom_of_tiles htiles]
    rfl

/-! ### Too many digits -/

/-- A whole number of so many decimal digits, more than are read, is the first thing in a text that
is no token. -/
inductive Overlong (n : Nat) : List Char → Prop
  | here {f digits rest : List Char} : Filler f (digits ++ rest) →
    (∀ d ∈ digits, d.isDigit = true) → digits.length = n → Decimal.digitLimit < n →
    Stops isNameChar rest → (∀ more, rest = '.' :: more → Stops Char.isDigit more) →
      Overlong n (f ++ (digits ++ rest))
  | later {f cs : List Char} {l : Lexeme} : Filler f (l.text ++ cs) → Starts (l.text ++ cs) →
    Spells l.kind l.text cs → Overlong n cs → Overlong n (f ++ (l.text ++ cs))

theorem scanFrom_eq_tooManyDigits_iff {n : Nat} :
    (∃ pos', scanFrom done pos cs = .error ⟨.tooManyDigits n, pos'⟩) ↔ Overlong n cs := by
  constructor
  · rintro ⟨pos', h⟩
    fun_induction scanFrom done pos cs with
    | case1 => cases h
    | case2 => cases h
    | case3 done pos cs pos' c rest hskip fault hfault =>
      cases h
      obtain ⟨f, rfl, hf, -, -⟩ := skip_eq_ok_iff.1 hskip
      obtain ⟨digits, rest', hsplit, hdigits, hlength, hlimit, hrest, hpoint⟩ :=
        lexeme_eq_tooManyDigits_iff.1 hfault
      rw [hsplit] at hf ⊢
      exact .here hf hdigits hlength hlimit hrest hpoint
    | case4 done pos cs pos' c rest hskip l hl ih =>
      obtain ⟨f, rfl, hf, -, hstarts⟩ := skip_eq_ok_iff.1 hskip
      obtain ⟨more, hmore, hspells⟩ := lexeme_eq_ok_iff.1 hl
      have hlater := ih h
      rw [hspells.drop_eq hmore] at hlater
      rw [hmore] at hf hstarts ⊢
      exact .later hf hstarts hspells hlater
  · intro h
    induction h generalizing done pos with
    | @here f digits rest hf hdigits hlength hlimit hrest hpoint =>
      cases digits with
      | nil => exact absurd hlimit (by rw [← hlength]; simp)
      | cons c digits =>
        refine ⟨pos.after f, ?_⟩
        have hfault : lexeme c (digits ++ rest) = .error (.tooManyDigits n) :=
          lexeme_eq_tooManyDigits_iff.2
            ⟨c :: digits, rest, rfl, hdigits, hlength, hlimit, hrest, hpoint⟩
        have hscan : scanFrom done pos (f ++ c :: (digits ++ rest)) = _ :=
          scanFrom_filler_append hf (starts_of_isNameChar
            (isNameChar_of_isDigit (hdigits c (List.mem_cons_self ..))))
        rw [hfault] at hscan
        exact hscan
    | later hf hstarts hspells _ ih =>
      rw [scanFrom_of_spells hf hstarts hspells]
      exact ih

/-- A text has too many digits exactly if a whole number with more than are read is the first thing
in it that is no token. -/
theorem scan_eq_tooManyDigits_iff {n : Nat} :
    (∃ pos, scan cs = .error ⟨.tooManyDigits n, pos⟩) ↔ Overlong n cs :=
  scanFrom_eq_tooManyDigits_iff

end Chipwright.Lexer
