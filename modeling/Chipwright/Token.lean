import Chipwright.Chip.Device
import Chipwright.Literal
import Chipwright.Location
import Chipwright.Text.Quoted

/-!
# Tokens

The words of the language: keywords, device names, names, numbers and symbols, each with
the position where it starts.
-/
namespace Chipwright

open Decimal (Binary64)

inductive Keyword
  | def_
  | as_
  | const
  | let_
  | fn
  | loop
  | if_
  | else_
  | read
  | write
  | into
  | yield
  | true_
  | false_
  deriving DecidableEq

inductive Symbol
  | plus
  | minus
  | star
  | slash
  | eq
  | ne
  | lt
  | gt
  | le
  | ge
  | and
  | or
  | not
  | assign
  | lparen
  | rparen
  | lbrace
  | rbrace
  | semicolon
  | comma
  | dot
  deriving DecidableEq

namespace Keyword

def all : List Keyword :=
  [def_, as_, const, let_, fn, loop, if_, else_, read, write, into, yield, true_, false_]

def text : Keyword → String
  | def_ => "def"
  | as_ => "as"
  | const => "const"
  | let_ => "let"
  | fn => "fn"
  | loop => "loop"
  | if_ => "if"
  | else_ => "else"
  | read => "read"
  | write => "write"
  | into => "into"
  | yield => "yield"
  | true_ => "true"
  | false_ => "false"

def ofText? (text : String) : Option Keyword := all.find? (·.text = text)

end Keyword

namespace Symbol

def text : Symbol → String
  | plus => "+"
  | minus => "-"
  | star => "*"
  | slash => "/"
  | eq => "=="
  | ne => "!="
  | lt => "<"
  | gt => ">"
  | le => "<="
  | ge => ">="
  | and => "&&"
  | or => "||"
  | not => "!"
  | assign => "="
  | lparen => "("
  | rparen => ")"
  | lbrace => "\x7b"
  | rbrace => "\x7d"
  | semicolon => ";"
  | comma => ","
  | dot => "."

/-- The name of a symbol in a token listing. -/
def tag : Symbol → String
  | plus => "PLUS"
  | minus => "MINUS"
  | star => "STAR"
  | slash => "SLASH"
  | eq => "EQ"
  | ne => "NE"
  | lt => "LT"
  | gt => "GT"
  | le => "LE"
  | ge => "GE"
  | and => "AND"
  | or => "OR"
  | not => "NOT"
  | assign => "ASSIGN"
  | lparen => "LPAREN"
  | rparen => "RPAREN"
  | lbrace => "LBRACE"
  | rbrace => "RBRACE"
  | semicolon => "SEMICOLON"
  | comma => "COMMA"
  | dot => "DOT"

end Symbol

inductive TokenKind
  | name (text : String)
  | device (slot : Slot)
  | integer (n : Nat)
  | float (x : Binary64)
  | keyword (k : Keyword)
  | symbol (s : Symbol)
  deriving DecidableEq

/-- A token and the position of its first character. -/
structure Token where
  kind : TokenKind
  pos : Position
  deriving DecidableEq

/-- The tokens of a text and the position where the text ends. -/
structure TokenList where
  tokens : List Token
  finish : Position

namespace TokenKind

/-- A token in a message. Numbers are written by their value. -/
def text : TokenKind → String
  | name text => text
  | device slot => slot.name
  | integer n => toString n
  | float x => Literal.floatText x
  | keyword k => k.text
  | symbol s => s.text

/-- The name of a token's kind in a token listing. -/
def tag : TokenKind → String
  | name _ => "IDENTIFIER"
  | device _ => "DEVICE"
  | integer _ => "INTEGER"
  | float _ => "FLOAT"
  | keyword k => k.text.toUpper
  | symbol s => s.tag

def isNumber : TokenKind → Bool
  | integer _ => true
  | float _ => true
  | _ => false

end TokenKind

namespace Token

/-- What messages call the end of a text. -/
def endText : String := "end of input"

/-- The token at the front of a list, in a message. -/
def textAtFront : List Token → String
  | [] => endText
  | t :: _ => t.kind.text

/-- A line of a token listing. -/
def description (t : Token) : String :=
  let value := if t.kind.isNumber then t.kind.text else Text.quoted t.kind.text
  s!"Token({t.kind.tag}, {value}, {t.pos.line}:{t.pos.column})"

end Token

namespace TokenList

/-- The number of tokens, with the one that marks the end. -/
def size (ts : TokenList) : Nat := ts.tokens.length + 1

def endTag : String := "EOF"

/-- The last line of a token listing. -/
def endDescription (ts : TokenList) : String :=
  s!"Token({endTag}, {ts.finish.line}:{ts.finish.column})"

end TokenList

end Chipwright
