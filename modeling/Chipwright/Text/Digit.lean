/-!
# Decimal digits

The decimal digits of every script. Each script has ten in a row, so a table of
their zeros is enough.
-/
namespace Chipwright.Text

/-- The code points of the zeros. -/
def digitZeros : List Nat :=
  [0x30, 0x660, 0x6f0, 0x7c0, 0x966, 0x9e6, 0xa66, 0xae6, 0xb66, 0xbe6, 0xc66, 0xce6, 0xd66,
    0xde6, 0xe50, 0xed0, 0xf20, 0x1040, 0x1090, 0x17e0, 0x1810, 0x1946, 0x19d0, 0x1a80,
    0x1a90, 0x1b50, 0x1bb0, 0x1c40, 0x1c50, 0xa620, 0xa8d0, 0xa900, 0xa9d0, 0xa9f0, 0xaa50,
    0xabf0, 0xff10, 0x104a0, 0x10d30, 0x11066, 0x110f0, 0x11136, 0x111d0, 0x112f0, 0x11450,
    0x114d0, 0x11650, 0x116c0, 0x11730, 0x118e0, 0x11950, 0x11c50, 0x11d50, 0x11da0,
    0x16a60, 0x16ac0, 0x16b50, 0x1d7ce, 0x1d7d8, 0x1d7e2, 0x1d7ec, 0x1d7f6, 0x1e140,
    0x1e2f0, 0x1e950, 0x1fbf0]

/-- The value of a decimal digit of any script. -/
def digitValue? (c : Char) : Option Nat :=
  (digitZeros.find? fun z => z ≤ c.toNat && c.toNat ≤ z + 9).map (c.toNat - ·)

/-- The ASCII digit with the value of a digit. Other characters stay. -/
def toAsciiDigit (c : Char) : Char :=
  match digitValue? c with
  | some d => Char.ofNat ('0'.toNat + d)
  | none => c

/-- The number that a row of digit values denotes. -/
def ofDigits (base : Nat) (digits : List Nat) : Nat :=
  digits.foldl (fun n d => base * n + d) 0

theorem ofDigits_append_singleton (base : Nat) (digits : List Nat) (d : Nat) :
    ofDigits base (digits ++ [d]) = base * ofDigits base digits + d := by
  simp [ofDigits]

/-- The value of an ASCII digit in a base up to sixteen. Other characters give 0. -/
def asciiDigit (c : Char) : Nat :=
  if '0' ≤ c && c ≤ '9' then c.toNat - '0'.toNat
  else if 'a' ≤ c && c ≤ 'f' then c.toNat - 'a'.toNat + 10
  else if 'A' ≤ c && c ≤ 'F' then c.toNat - 'A'.toNat + 10
  else 0

/-- The digits of a number, filled up with zeros on the left. -/
def padded (base width n : Nat) : List Char :=
  let digits := Nat.toDigits base n
  List.replicate (width - digits.length) '0' ++ digits

/-- The number that a row of ASCII digits denotes. -/
def asciiNumber (base : Nat) (cs : List Char) : Nat :=
  ofDigits base (cs.map asciiDigit)

end Chipwright.Text
