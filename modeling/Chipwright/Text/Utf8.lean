/-!
# UTF-8

Decodes a file's bytes. A fault names the first bytes that are no text and why.
-/
namespace Chipwright.Text.Utf8

inductive Reason
  | invalidStart
  | invalidContinuation
  | unexpectedEnd
  deriving DecidableEq

/-- Why bytes are no text: `bytes`, found at index `start`, begin no character. -/
structure Fault where
  start : Nat
  bytes : List UInt8
  reason : Reason

def Reason.message : Reason → String
  | .invalidStart => "invalid start byte"
  | .invalidContinuation => "invalid continuation byte"
  | .unexpectedEnd => "unexpected end of data"

/-- Bytes of the form `10xxxxxx` continue a character. -/
def isContinuation (b : UInt8) : Bool := 0x80 ≤ b && b < 0xc0

/-- The number of bytes of the character that a byte starts. -/
def length? (b : UInt8) : Option Nat :=
  if b < 0x80 then some 1
  else if b < 0xc2 then none
  else if b < 0xe0 then some 2
  else if b < 0xf0 then some 3
  else if b < 0xf5 then some 4
  else none

/-- Whether `b` may follow the start byte `first`. This rules out long spellings of short
characters, surrogates, and code points past the last one. -/
def fitsSecond (first b : UInt8) : Bool :=
  isContinuation b &&
    !(first = 0xe0 && b < 0xa0) && !(first = 0xed && 0xa0 ≤ b) &&
    !(first = 0xf0 && b < 0x90) && !(first = 0xf4 && 0x90 ≤ b)

/-- The longest beginning of the bytes after `first`, at most `n` of them, that continue it. -/
def continuation (first : UInt8) (n : Nat) : List UInt8 → List UInt8
  | [] => []
  | b :: bs =>
    if n = 0 || !fitsSecond first b then [] else b :: (bs.take (n - 1)).takeWhile isContinuation

/-- The code point of a start byte of the given length and its continuation. -/
def codePoint (length : Nat) (first : UInt8) (rest : List UInt8) : Nat :=
  let lead := match length with
    | 1 => first.toNat
    | 2 => first.toNat - 0xc0
    | 3 => first.toNat - 0xe0
    | _ => first.toNat - 0xf0
  rest.foldl (fun n b => 64 * n + (b.toNat - 0x80)) lead

/-- Reads characters from index `start` on, with those before in `done`, last first. -/
def decodeFrom (start : Nat) (done : List Char) : List UInt8 → Except Fault (List Char)
  | [] => .ok done.reverse
  | b :: bs =>
    match length? b with
    | none => .error ⟨start, [b], .invalidStart⟩
    | some length =>
      let rest := continuation b (length - 1) bs
      if rest.length + 1 < length then
        .error ⟨start, b :: rest,
          if rest.length = bs.length then .unexpectedEnd else .invalidContinuation⟩
      else
        decodeFrom (start + length) (Char.ofNat (codePoint length b rest) :: done)
          (bs.drop (length - 1))
termination_by bytes => bytes.length
decreasing_by simp only [List.length_drop, List.length_cons]; omega

def decode (bytes : List UInt8) : Except Fault (List Char) := decodeFrom 0 [] bytes

def encode (text : String) : List UInt8 := text.toUTF8.toList

end Chipwright.Text.Utf8
