/-!
# Lines and blanks

Positions count lines by newline characters alone, while a listing of a text may
break it at other characters too. Both ways to find a line by its number are here, and so are the
characters that count as space around a value.
-/
namespace Chipwright.Text

/-- The line with the given number, counted from 0, where only newline characters
separate lines. -/
def line? : Nat → List Char → Option (List Char)
  | 0, cs => some (cs.takeWhile (· != '\n'))
  | _ + 1, [] => none
  | n + 1, c :: cs => if c = '\n' then line? n cs else line? (n + 1) cs

/-- Every character that ends a line in a listing. -/
def isLineBreak (c : Char) : Bool :=
  (0x0a ≤ c.toNat && c.toNat ≤ 0x0d) || (0x1c ≤ c.toNat && c.toNat ≤ 0x1e) ||
    c.toNat = 0x85 || c.toNat = 0x2028 || c.toNat = 0x2029

/-- The line with the given number, counted from 0, in a listing: every line break
counts, a carriage return with its newline counts once, and a break at the very end
opens no further line. -/
def listedLine? : Nat → List Char → Option (List Char)
  | _, [] => none
  | 0, c :: cs => some ((c :: cs).takeWhile (!isLineBreak ·))
  | n + 1, '\r' :: '\n' :: cs => listedLine? n cs
  | n + 1, c :: cs => if isLineBreak c then listedLine? n cs else listedLine? (n + 1) cs

/-- Reads both a carriage return and a carriage return with its newline as a newline. -/
def unifyNewlines : List Char → List Char → List Char
  | acc, [] => acc.reverse
  | acc, '\r' :: '\n' :: cs => unifyNewlines ('\n' :: acc) cs
  | acc, c :: cs => unifyNewlines ((if c = '\r' then '\n' else c) :: acc) cs

/-! ## Blanks -/

/-- The blank characters, as ranges of code points. -/
def blankRanges : List (Nat × Nat) :=
  [(0x09, 0x0d), (0x1c, 0x20), (0x85, 0x85), (0xa0, 0xa0), (0x1680, 0x1680), (0x2000, 0x200a),
    (0x2028, 0x2029), (0x202f, 0x202f), (0x205f, 0x205f), (0x3000, 0x3000)]

def isBlank (c : Char) : Bool :=
  blankRanges.any fun (first, last) => first ≤ c.toNat && c.toNat ≤ last

/-- Blanks that may stand around a numeral: the separator controls do not count. -/
def isNumeralBlank (c : Char) : Bool :=
  isBlank c && !(0x1c ≤ c.toNat && c.toNat ≤ 0x1f)

/-- Cuts off the characters at both ends that satisfy `p`. -/
def trim (p : Char → Bool) (cs : List Char) : List Char :=
  ((cs.dropWhile p).reverse.dropWhile p).reverse

end Chipwright.Text
