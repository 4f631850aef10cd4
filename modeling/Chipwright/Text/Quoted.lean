import Chipwright.Text.Digit
import Chipwright.Text.Hidden

/-!
# Quoted text

Writes a text between quotes on one line: characters that cannot be seen are
written as escapes.
-/
namespace Chipwright.Text

/-- The written form of one character between the given quotes. -/
def escaped (quote c : Char) : List Char :=
  if c = quote || c = '\\' then ['\\', c]
  else if c = '\n' then ['\\', 'n']
  else if c = '\r' then ['\\', 'r']
  else if c = '\t' then ['\\', 't']
  else if !isHidden c then [c]
  else if c.toNat < 0x100 then '\\' :: 'x' :: padded 16 2 c.toNat
  else if c.toNat < 0x10000 then '\\' :: 'u' :: padded 16 4 c.toNat
  else '\\' :: 'U' :: padded 16 8 c.toNat

/-- Single quotes, unless the text has some and no double quote. -/
def quoteFor (cs : List Char) : Char :=
  if cs.contains '\'' && !cs.contains '"' then '"' else '\''

def quoted (text : String) : String :=
  let cs := text.toList
  let quote := quoteFor cs
  String.ofList (quote :: cs.flatMap (escaped quote) ++ [quote])

end Chipwright.Text
