import Chipwright.Proofs.Lexing.Tiling

/-!
# Lexemes in front of a text

The lexemes at the start of a text are read before the rest of it is looked at, up to the few
characters that tell where the last of them ends. So the rest may be exchanged: if it does not go on
the lexemes before it, they are read as the same tokens.
-/
namespace Chipwright.Lexer

variable {pos : Position} {kind : TokenKind} {before f text : List Char}

variable {tiles tiles' : List Tile} {cs rest rest' : List Char}

/-- Fillers and lexemes that stand in front of a text. -/
inductive Leads : List Tile → (rest : List Char) → Prop
  | nil {rest : List Char} : Leads [] rest
  | cons {f rest : List Char} {l : Lexeme} {tiles : List Tile} :
    Filler f (l.text ++ (textOf tiles ++ rest)) → Starts (l.text ++ (textOf tiles ++ rest)) →
    Spells l.kind l.text (textOf tiles ++ rest) → Leads tiles rest → Leads (⟨f, l⟩ :: tiles) rest

@[simp] theorem textOf_nil : textOf [] = [] := rfl

@[simp] theorem textOf_append (tiles tiles' : List Tile) :
    textOf (tiles ++ tiles') = textOf tiles ++ textOf tiles' :=
  List.flatMap_append

theorem Leads.append (h : Leads tiles (textOf tiles' ++ rest)) (h' : Leads tiles' rest) :
    Leads (tiles ++ tiles') rest := by
  induction tiles with
  | nil => exact h'
  | cons t tiles ih =>
    cases h with
    | cons hf hstarts hspells htiles =>
      rw [← List.append_assoc (textOf tiles), ← textOf_append] at hf hstarts hspells
      exact .cons hf hstarts hspells (ih htiles)

theorem tiles_of_leads (h : Leads tiles rest) (h' : Tiles rest tiles') :
    Tiles (textOf tiles ++ rest) (tiles ++ tiles') := by
  induction h with
  | nil => exact h'
  | cons hf hstarts hspells _ ih =>
    rw [textOf_cons, List.append_assoc, List.append_assoc]
    exact .cons hf hstarts hspells (ih h')

/-- The lexemes are read, and the text is left. -/
theorem scanFrom_of_leads {done : List Token} (h : Leads tiles rest) :
    scanFrom done pos (textOf tiles ++ rest) =
      scanFrom ((tokensFrom pos tiles).reverse ++ done) (pos.after (textOf tiles)) rest := by
  induction h generalizing done pos with
  | nil => rfl
  | cons hf hstarts hspells _ ih =>
    rw [textOf_cons, List.append_assoc, List.append_assoc,
      scanFrom_of_spells hf hstarts hspells, ih]
    simp [tokensFrom, Position.after_append]

/-- The first lexemes of a text stand in front of what the others make up. -/
theorem Tiles.exists_leads (h : Tiles cs (tiles ++ tiles')) :
    ∃ rest, cs = textOf tiles ++ rest ∧ Leads tiles rest ∧ Tiles rest tiles' := by
  induction tiles generalizing cs with
  | nil => exact ⟨cs, rfl, .nil, h⟩
  | cons t tiles ih =>
    cases h with
    | cons hf hstarts hspells htiles =>
      obtain ⟨rest, rfl, hleads, hrest⟩ := ih htiles
      exact ⟨rest, by simp, .cons hf hstarts hspells hleads, hrest⟩

/-! ## Another text that follows -/

/-- A text that may follow lexemes where another one does. -/
structure Follows (rest rest' : List Char) : Prop where
  name : Stops isNameChar rest → Stops isNameChar rest'
  equals : Stops (· = '=') rest → Stops (· = '=') rest'
  comment : Stops (fun c => c = '/' || c = '*') rest → Stops (fun c => c = '/' || c = '*') rest'
  point : Stops (· = '.') rest'

theorem Stops.follow {p : Char → Bool} (before : List Char)
    (h : Stops p rest → Stops p rest') (hstops : Stops p (before ++ rest)) :
    Stops p (before ++ rest') := by
  cases before with
  | nil => exact h hstops
  | cons c before => simpa using hstops

/-- A lexeme ends where it did. If a number comes before a point, what follows the point may be
a digit now, so this has to be excluded. -/
theorem Maximal.follow (h : Maximal kind text (before ++ rest)) (hrest : Follows rest rest')
    (hpoint : before ≠ ['.']) : Maximal kind text (before ++ rest') := by
  cases kind with
  | symbol s =>
    exact ⟨fun hs => Stops.follow before hrest.equals (h.1 hs),
      fun hs => Stops.follow before hrest.comment (h.2 hs)⟩
  | integer n =>
    refine ⟨Stops.follow before hrest.name h.1, fun hdigits more hmore => ?_⟩
    cases before with
    | nil =>
      obtain rfl : rest' = '.' :: more := hmore
      simpa using hrest.point
    | cons c before =>
      obtain ⟨rfl, rfl⟩ := List.cons.inj hmore
      have hmore := h.2 hdigits _ rfl
      cases before with
      | nil => exact absurd rfl hpoint
      | cons d before => simpa using hmore
  | _ => exact Stops.follow before hrest.name h

/-- A filler ends before a lexeme, whatever the lexeme is. -/
theorem Filler.exchange (h : Filler f rest) (hne : rest ≠ []) (hstarts : Starts rest)
    (rest' : List Char) : Filler f rest' := by
  induction h with
  | nil => exact .nil
  | space hc _ ih => exact .space hc (ih hne hstarts)
  | @line body f rest hbody hend _ ih =>
    refine .line hbody (fun c hc => ?_) (ih hne hstarts)
    cases f with
    | nil =>
      -- a comment up to the lexeme would end with a newline
      obtain ⟨d, more, rfl⟩ := List.exists_cons_of_ne_nil hne
      obtain rfl := hend d rfl
      exact absurd (hstarts.solid _ rfl) (by decide)
    | cons d f => exact hend c hc
  | block hbody _ ih => exact .block hbody (ih hne hstarts)

theorem Leads.eq_nil (h : Leads tiles rest) (htext : textOf tiles = []) : tiles = [] := by
  cases h with
  | nil => rfl
  | cons _ _ hspells _ =>
    simp only [textOf_cons, List.append_eq_nil_iff] at htext
    exact absurd htext.2.1 hspells.text_ne_nil

theorem Filler.head {c : Char} (h : Filler (c :: f) rest) : isSpace c = true ∨ c = '/' := by
  cases h with
  | space hc _ => exact Or.inl hc
  | line => exact Or.inr rfl
  | block => exact Or.inr rfl

theorem Filler.ne_point {c : Char} (h : Filler (c :: f) rest) : c ≠ '.' := by
  rcases h.head with hc | rfl
  · exact (ne_of_isSpace hc).2.1
  · decide

/-- What starts with a point is a dot. -/
theorem kind_of_spells_point (h : Spells kind ('.' :: text) rest) : kind = .symbol .dot := by
  have hread := lexeme_of_spells h
  have hdot : lexeme '.' (text ++ rest) = .ok ⟨.symbol .dot, ['.']⟩ := by
    simp [lexeme, isNameStart, symbol?, Symbol.text]
  rw [hdot] at hread
  exact (Lexeme.mk.inj (Except.ok.inj hread)).1.symm

theorem Tiles.dot (h : Tiles ('.' :: cs) tiles) :
    ∃ t ∈ tiles.head?, t.lexeme.kind = .symbol .dot := by
  generalize htext : '.' :: cs = text at h
  cases h with
  | last hf =>
    subst htext
    exact absurd rfl hf.ne_point
  | @cons f cs l tiles hf _ hspells _ =>
    refine ⟨_, rfl, ?_⟩
    cases f with
    | nil =>
      obtain ⟨kind, text⟩ := l
      obtain ⟨c, text, rfl⟩ := hspells.exists_cons
      obtain ⟨rfl, -⟩ := List.cons.inj htext
      exact kind_of_spells_point hspells
    | cons c f =>
      obtain ⟨rfl, -⟩ := List.cons.inj htext
      exact absurd rfl hf.ne_point

/-- Only a dot is written as a point. -/
theorem Leads.dot (h : Leads tiles rest) (htext : textOf tiles = ['.']) :
    ∃ t ∈ tiles.getLast?, t.lexeme.kind = .symbol .dot := by
  cases h with
  | nil => cases htext
  | @cons f _ l tiles hf hstarts hspells htiles =>
    obtain ⟨c, text, hl⟩ := hspells.exists_cons
    have hf : f = [] := by
      cases f with
      | nil => rfl
      | cons c f =>
        obtain ⟨rfl, -⟩ := List.cons.inj htext
        exact absurd rfl hf.ne_point
    simp only [hf, textOf_cons, hl, List.nil_append, List.cons_append, List.cons.injEq,
      List.append_eq_nil_iff] at htext
    obtain ⟨rfl, rfl, htext⟩ := htext
    obtain rfl := htiles.eq_nil htext
    rw [hl] at hspells
    exact ⟨_, rfl, kind_of_spells_point hspells⟩

/-- Another text may follow, unless a dot comes before it. -/
theorem Leads.follow (h : Leads tiles rest) (hrest : Follows rest rest')
    (hdot : ∀ t ∈ tiles.getLast?, t.lexeme.kind ≠ .symbol .dot) : Leads tiles rest' := by
  induction h with
  | nil => exact .nil
  | @cons f rest l tiles hf hstarts hspells htiles ih =>
    have hdot : ∀ t ∈ tiles.getLast?, t.lexeme.kind ≠ .symbol .dot := by
      intro t ht
      refine hdot t ?_
      rw [List.getLast?_cons, Option.mem_def.1 ht]
      rfl
    have hpoint : textOf tiles ≠ ['.'] := by
      intro htext
      obtain ⟨t, ht, hkind⟩ := htiles.dot htext
      exact hdot t ht hkind
    obtain ⟨hspelling, hmaximal⟩ := spells_iff.1 ⟨hspells, hstarts⟩
    obtain ⟨hspells', hstarts'⟩ := spells_iff.2 ⟨hspelling, hmaximal.follow hrest hpoint⟩
    have hne : l.text ++ (textOf tiles ++ rest) ≠ [] := by simp [hspells.text_ne_nil]
    exact .cons (hf.exchange hne hstarts _) hstarts' hspells' (ih hrest hdot)

/-! ## The lexemes before a token -/

theorem exists_of_mem_tokensFrom {t : Token} (h : t ∈ tokensFrom pos tiles) :
    ∃ before tile after, tiles = before ++ tile :: after ∧
      t = ⟨tile.lexeme.kind, pos.after (textOf before ++ tile.filler)⟩ := by
  induction tiles generalizing pos with
  | nil => cases h
  | cons tile tiles ih =>
    rcases List.mem_cons.1 h with rfl | h
    · exact ⟨[], tile, tiles, rfl, rfl⟩
    · obtain ⟨before, tile', after, rfl, rfl⟩ := ih h
      exact ⟨tile :: before, tile', after, rfl, by simp [Position.after_append]⟩

/-- The tokens of a text are its lexemes, which are spelt by the rules. -/
theorem exists_tile_of_scan {ts : TokenList} {t : Token} (h : scan cs = .ok ts)
    (hmem : t ∈ ts.tokens) : ∃ tiles, Tiles cs tiles ∧ ∃ tile ∈ tiles,
      tile.lexeme.kind = t.kind ∧ Spelling t.kind tile.lexeme.text := by
  obtain ⟨tiles, htiles, rfl⟩ := scan_eq_ok_iff.1 h
  obtain ⟨front, ⟨f, l⟩, back, rfl, rfl⟩ := exists_of_mem_tokensFrom hmem
  refine ⟨_, htiles, ⟨f, l⟩, by simp, rfl, ?_⟩
  obtain ⟨rest, -, -, hrest⟩ := htiles.exists_leads
  cases hrest with
  | cons _ hstarts hspells => exact (spells_iff.1 ⟨hspells, hstarts⟩).1

theorem exists_spelling_of_scan {ts : TokenList} {t : Token} (h : scan cs = .ok ts)
    (hmem : t ∈ ts.tokens) : ∃ text, Spelling t.kind text := by
  obtain ⟨-, -, tile, -, -, hspelling⟩ := exists_tile_of_scan h hmem
  exact ⟨tile.lexeme.text, hspelling⟩

theorem Spelling.integer_le {n : Nat} (h : Spelling (.integer n) text) : n ≤ 2 ^ 63 := by
  cases h with
  | marked _ _ _ hle => exact hle
  | decimal _ _ _ hle => exact hle

/-- Two parts of one text end at the same position only if they are the same. -/
theorem eq_of_after_eq {before' : List Char} (h : before <+: cs) (h' : before' <+: cs)
    (hpos : pos.after before = pos.after before') : before = before' := by
  have hpart : ∀ {xs ys : List Char}, xs <+: ys → pos.after xs = pos.after ys → xs = ys := by
    rintro xs _ ⟨more, rfl⟩ heq
    by_cases hmore : more = []
    · simp [hmore]
    · rw [Position.after_append] at heq
      exact absurd heq (Position.before_after _ hmore).ne
  rcases List.prefix_or_prefix_of_prefix h h' with hle | hle
  · exact hpart hle hpos
  · exact (hpart hle hpos.symm).symm

/-- The lexemes before a token make up what comes before it, up to the filler in front of it. -/
theorem exists_leads_of_mem (h : Tiles (before ++ cs) tiles)
    (hmem : ⟨kind, .after .first before⟩ ∈ tokensFrom .first tiles) :
    ∃ front f text back rest, tiles = front ++ ⟨f, ⟨kind, text⟩⟩ :: back ∧
      before = textOf front ++ f ∧ cs = text ++ rest ∧ Leads front (f ++ cs) ∧ Filler f cs ∧
      Starts cs ∧ Spells kind text rest ∧ Tiles rest back := by
  obtain ⟨front, ⟨f, l⟩, back, rfl, htoken⟩ := exists_of_mem_tokensFrom hmem
  obtain ⟨rfl, hpos⟩ := Token.mk.inj htoken
  obtain ⟨more, hcs, hfront, hmore⟩ := h.exists_leads
  cases hmore with
  | @cons _ rest _ _ hf hstarts hspells hrest =>
    have hbefore : before = textOf front ++ f := by
      refine eq_of_after_eq (List.prefix_append before cs) ⟨l.text ++ rest, ?_⟩ hpos
      rw [hcs, List.append_assoc]
    have hcs : cs = l.text ++ rest := by
      rw [hbefore, List.append_assoc] at hcs
      exact List.append_cancel_left (List.append_cancel_left hcs)
    subst hcs
    exact ⟨front, f, l.text, back, rest, rfl, hbefore, rfl, hfront, hf, hstarts, hspells, hrest⟩

end Chipwright.Lexer
