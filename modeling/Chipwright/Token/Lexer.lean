import Chipwright.Decimal.Numeral
import Chipwright.Diagnostic
import Chipwright.Token

/-!
# From text to tokens

Between tokens stand white space and comments. A token is as long as it can be: a name or
a number ends where no character follows that could belong to a name, and a symbol of two
characters wins over one of one character.
-/
namespace Chipwright.Lexer

/-- Why a text is no sequence of tokens. -/
inductive Fault
  | cause (cause : Cause)
  /-- A whole number is spelt with more decimal digits than are read. -/
  | tooManyDigits (count : Nat)

structure Error where
  fault : Fault
  pos : Position

def isNameStart (c : Char) : Bool := c.isAlpha || c = '_'

def isNameChar (c : Char) : Bool := c.isAlphanum || c = '_'

def isSpace (c : Char) : Bool := c = ' ' || c = '\t' || c = '\n' || c = '\r'

/-- What is being skipped: white space, a comment up to the end of the line, or a comment
that started at the given position and runs up to its closing mark. -/
inductive Gap
  | space
  | line
  | block (start : Position)

/-- Skips to the next character that belongs to a token. Fails with the start of a comment
that is never closed. -/
def skip : Gap → Position → List Char → Except Position (Position × List Char)
  | .block start, _, [] => .error start
  | .space, pos, [] => .ok (pos, [])
  | .line, pos, [] => .ok (pos, [])
  | .space, pos, '/' :: '/' :: cs => skip .line ((pos.next '/').next '/') cs
  | .space, pos, '/' :: '*' :: cs => skip (.block pos) ((pos.next '/').next '*') cs
  | .space, pos, c :: cs => if isSpace c then skip .space (pos.next c) cs else .ok (pos, c :: cs)
  | .line, pos, c :: cs => skip (if c = '\n' then .space else .line) (pos.next c) cs
  | .block _, pos, '*' :: '/' :: cs => skip .space ((pos.next '*').next '/') cs
  | .block start, pos, c :: cs => skip (.block start) (pos.next c) cs

theorem skip_length_le {gap : Gap} {pos pos' : Position} {cs cs' : List Char}
    (h : skip gap pos cs = .ok (pos', cs')) : cs'.length ≤ cs.length := by
  fun_induction skip gap pos cs <;> simp_all <;> omega

/-- A token at the front of a text, with the characters that spell it. -/
structure Lexeme where
  kind : TokenKind
  text : List Char

def wordKind (text : String) : TokenKind :=
  match Keyword.ofText? text with
  | some k => .keyword k
  | none =>
    match Slot.ofName? text with
    | some slot => .device slot
    | none => .name text

def word (c : Char) (cs : List Char) : Lexeme :=
  let text := c :: cs.takeWhile isNameChar
  ⟨wordKind (String.ofList text), text⟩

/-- Literals beyond this magnitude fit no signed word of 64 bits, whatever their sign. -/
def greatestMagnitude : Nat := Nat.pow 2 63

def integerKind (spelling : List Char) (n : Nat) : Except Fault TokenKind :=
  if greatestMagnitude < n then .error (.cause (.integerTooLarge (String.ofList spelling)))
  else .ok (.integer n)

/-- A number ends here: what follows must not belong to a name. -/
def endNumber (spelling : List Char) : List Char → Except Fault Unit
  | [] => .ok ()
  | c :: _ =>
    if isNameChar c then .error (.cause (.trailingName (String.ofList spelling) c)) else .ok ()

/-- A whole number in the given base after its mark. Messages show the mark in lower case. -/
def marked (base : Nat) (isDigit : Char → Bool) (mark : Char) (text cs : List Char) :
    Except Fault Lexeme := do
  let digits := cs.takeWhile isDigit
  if digits.isEmpty then
    throw (.cause (.missingDigits (String.ofList ['0', mark])))
  let spelling := '0' :: mark :: digits
  endNumber spelling (cs.dropWhile isDigit)
  let kind ← integerKind spelling (Text.asciiNumber base digits)
  return ⟨kind, text ++ digits⟩

/-- The exponent that may follow the digits of a fraction: its spelling and its value. -/
def exponent (spelling : List Char) : List Char → Except Fault (List Char × Int)
  | [] => .ok ([], 0)
  | e :: cs =>
    if e = 'e' || e = 'E' then
      let (sign, rest) := match cs with
        | '+' :: rest => (['+'], rest)
        | '-' :: rest => (['-'], rest)
        | rest => ([], rest)
      let digits := rest.takeWhile Char.isDigit
      if digits.isEmpty then
        .error (.cause (.malformedExponent (String.ofList (spelling ++ [e]))))
      else
        let n : Int := Text.asciiNumber 10 digits
        .ok (e :: sign ++ digits, if sign = ['-'] then -n else n)
    else .ok ([], 0)

/-- A number with a point. -/
def fraction (whole cs : List Char) : Except Fault Lexeme := do
  let digits := cs.takeWhile Char.isDigit
  let spelling := whole ++ '.' :: digits
  let rest := cs.dropWhile Char.isDigit
  let (mark, power) ← exponent spelling rest
  endNumber (spelling ++ mark) (rest.drop mark.length)
  return ⟨.float (Decimal.Numeral.value ⟨false, whole, digits, power⟩), spelling ++ mark⟩

/-- A whole number without a mark. -/
def decimal (digits rest : List Char) : Except Fault Lexeme := do
  endNumber digits rest
  if Decimal.digitLimit < digits.length then
    throw (.tooManyDigits digits.length)
  let kind ← integerKind digits (Text.asciiNumber 10 digits)
  return ⟨kind, digits⟩

def isHexDigit (c : Char) : Bool :=
  c.isDigit || ('a' ≤ c && c ≤ 'f') || ('A' ≤ c && c ≤ 'F')

def isBinaryDigit (c : Char) : Bool := c = '0' || c = '1'

/-- A number without a mark. A point belongs to it only if a digit follows. -/
def unmarked (digits : List Char) : List Char → Except Fault Lexeme
  | '.' :: d :: cs =>
    if d.isDigit then fraction digits (d :: cs) else decimal digits ('.' :: d :: cs)
  | rest => decimal digits rest

def number (c : Char) (cs : List Char) : Except Fault Lexeme :=
  match c, cs with
  | '0', 'x' :: ds => marked 16 isHexDigit 'x' ['0', 'x'] ds
  | '0', 'X' :: ds => marked 16 isHexDigit 'x' ['0', 'X'] ds
  | '0', 'b' :: ds => marked 2 isBinaryDigit 'b' ['0', 'b'] ds
  | '0', 'B' :: ds => marked 2 isBinaryDigit 'b' ['0', 'B'] ds
  | _, _ => unmarked (c :: cs.takeWhile Char.isDigit) (cs.dropWhile Char.isDigit)

def symbol? : Char → List Char → Except Cause Symbol
  | '=', '=' :: _ => .ok .eq
  | '=', _ => .ok .assign
  | '!', '=' :: _ => .ok .ne
  | '!', _ => .ok .not
  | '<', '=' :: _ => .ok .le
  | '<', _ => .ok .lt
  | '>', '=' :: _ => .ok .ge
  | '>', _ => .ok .gt
  | '&', '&' :: _ => .ok .and
  | '&', _ => .error .loneAmpersand
  | '|', '|' :: _ => .ok .or
  | '|', _ => .error .loneBar
  | '+', _ => .ok .plus
  | '-', _ => .ok .minus
  | '*', _ => .ok .star
  | '/', _ => .ok .slash
  | '(', _ => .ok .lparen
  | ')', _ => .ok .rparen
  | '{', _ => .ok .lbrace
  | '}', _ => .ok .rbrace
  | ';', _ => .ok .semicolon
  | ',', _ => .ok .comma
  | '.', _ => .ok .dot
  | c, _ => .error (.invalidCharacter c)

/-- The token at the front of the text `c :: cs`. -/
def lexeme (c : Char) (cs : List Char) : Except Fault Lexeme :=
  if isNameStart c then .ok (word c cs)
  else if c.isDigit then number c cs
  else
    match symbol? c cs with
    | .ok s => .ok ⟨.symbol s, s.text.toList⟩
    | .error cause => .error (.cause cause)

/-- Reads tokens from the given position on, with those before in `done`, last first. -/
def scanFrom (done : List Token) (pos : Position) (cs : List Char) : Except Error TokenList :=
  match _h : skip .space pos cs with
  | .error start => .error ⟨.cause .unterminatedComment, start⟩
  | .ok (pos', []) => .ok ⟨done.reverse, pos'⟩
  | .ok (pos', c :: rest) =>
    match lexeme c rest with
    | .error fault => .error ⟨fault, pos'⟩
    | .ok lexeme =>
      scanFrom (⟨lexeme.kind, pos'⟩ :: done) (pos'.after lexeme.text)
        (rest.drop (lexeme.text.length - 1))
termination_by cs.length
decreasing_by
  have := skip_length_le _h
  simp only [List.length_cons, List.length_drop] at *
  omega

/-- The tokens of a text. -/
def scan (source : List Char) : Except Error TokenList := scanFrom [] .first source

end Chipwright.Lexer
