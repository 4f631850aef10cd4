/-!
# Control sequences

A control sequence tells a terminal to move its cursor, to change colours and so on. It is
an escape character and `[`, then parameter characters, then intermediate characters, then
one final character. Text that is shown leaves them out.
-/
namespace Chipwright.Text

/-- Digits and the punctuation up to `?`. -/
def isParameter (c : Char) : Bool := 0x30 ≤ c.toNat && c.toNat ≤ 0x3f

/-- The space and the punctuation up to `/`. -/
def isIntermediate (c : Char) : Bool := 0x20 ≤ c.toNat && c.toNat ≤ 0x2f

/-- Letters and the punctuation around them. -/
def isFinal (c : Char) : Bool := 0x40 ≤ c.toNat && c.toNat ≤ 0x7e

/-- What follows a control sequence whose first two characters have been read. A sequence
without its final character is none. -/
def afterSequence? (cs : List Char) : Option (List Char) :=
  match (cs.dropWhile isParameter).dropWhile isIntermediate with
  | [] => none
  | c :: rest => if isFinal c then some rest else none

theorem afterSequence?_length_lt {cs rest : List Char} (h : afterSequence? cs = some rest) :
    rest.length < cs.length := by
  have h₁ := (List.dropWhile_suffix isParameter (l := cs)).length_le
  have h₂ := (List.dropWhile_suffix isIntermediate (l := cs.dropWhile isParameter)).length_le
  unfold afterSequence? at h
  split at h
  · cases h
  · rename_i c tail heq
    split at h
    · cases h
      rw [heq, List.length_cons] at h₂
      omega
    · cases h

/-- A text without its control sequences. Those that only come about by that stay. -/
def plain : List Char → List Char
  | [] => []
  | c :: cs =>
    if c = '\x1b' && cs.head? = some '[' then
      match _h : afterSequence? cs.tail with
      | some rest => plain rest
      | none => c :: plain cs
    else c :: plain cs
termination_by cs => cs.length
decreasing_by
  · have := afterSequence?_length_lt _h
    simp only [List.length_tail, List.length_cons] at *
    omega
  · simp
  · simp

end Chipwright.Text
