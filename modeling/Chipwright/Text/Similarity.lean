/-!
# Similar words

How alike two words are, by the characters that stand in common blocks: the longest
common block, and then the same on what is left of it and what is right of it. The
share of matched characters ranks the words that a misspelt one may stand for.
-/
namespace Chipwright.Text

/-- A stretch of `size` equal characters, from index `left` in the first word and from
index `right` in the second. -/
structure Block where
  left : Nat
  right : Nat
  size : Nat

/-- The length of the longest common beginning whose characters all satisfy `p`. -/
def commonStart (p : Char → Bool) : List Char → List Char → Nat
  | a :: as, b :: bs => if a = b && p b then commonStart p as bs + 1 else 0
  | _, _ => 0

theorem commonStart_le (p : Char → Bool) (as bs : List Char) :
    commonStart p as bs ≤ as.length := by
  induction as generalizing bs with
  | nil => simp [commonStart]
  | cons a as ih =>
    cases bs with
    | nil => simp [commonStart]
    | cons b bs =>
      have := ih bs
      simp only [commonStart, List.length_cons]
      split <;> omega

namespace Block

/-- The better of the block found so far and those that start at index `i` of the first
word, whose rest is `as`, and at index `j` or later of the second. -/
def bestRight (p : Char → Bool) (i : Nat) (as : List Char) : Nat → List Char → Block → Block
  | _, [], best => best
  | j, b :: bs, best =>
    let size := commonStart p as (b :: bs)
    bestRight p i as (j + 1) bs (if best.size < size then ⟨i, j, size⟩ else best)

/-- The better of the block found so far and those that start at index `i` or later of the
first word. Of equal sizes the earliest in the first word wins, then in the second. -/
def bestLeft (p : Char → Bool) (bs : List Char) : Nat → List Char → Block → Block
  | _, [], best => best
  | i, a :: as, best => bestLeft p bs (i + 1) as (bestRight p i (a :: as) 0 bs best)

theorem bestRight_end_le {p : Char → Bool} {i n : Nat} {as : List Char}
    (hi : i + as.length ≤ n) (bs : List Char) (j : Nat) (best : Block)
    (h : best.left + best.size ≤ n) :
    (bestRight p i as j bs best).left + (bestRight p i as j bs best).size ≤ n := by
  induction bs generalizing j best with
  | nil => exact h
  | cons b bs ih =>
    apply ih
    have := commonStart_le p as (b :: bs)
    split
    · show i + commonStart p as (b :: bs) ≤ n
      omega
    · exact h

theorem bestLeft_end_le {p : Char → Bool} {n : Nat} (bs as : List Char) (i : Nat)
    (best : Block) (hi : i + as.length ≤ n) (h : best.left + best.size ≤ n) :
    (bestLeft p bs i as best).left + (bestLeft p bs i as best).size ≤ n := by
  induction as generalizing i best with
  | nil => exact h
  | cons a as ih =>
    apply ih
    · simp only [List.length_cons] at hi
      omega
    · exact bestRight_end_le hi bs 0 best h

/-- Lets a block grow on both sides over equal characters of any kind. -/
def extend (as bs : List Char) (block : Block) : Block :=
  let before := commonStart (fun _ => true) (as.take block.left).reverse
    (bs.take block.right).reverse
  let after := commonStart (fun _ => true) (as.drop (block.left + block.size))
    (bs.drop (block.right + block.size))
  ⟨block.left - before, block.right - before, before + block.size + after⟩

theorem extend_end_le (as bs : List Char) (block : Block)
    (h : block.left + block.size ≤ as.length) :
    (extend as bs block).left + (extend as bs block).size ≤ as.length := by
  have hb := commonStart_le (fun _ => true) (as.take block.left).reverse
    (bs.take block.right).reverse
  have ha := commonStart_le (fun _ => true) (as.drop (block.left + block.size))
    (bs.drop (block.right + block.size))
  simp only [List.length_reverse, List.length_take, List.length_drop] at hb ha
  simp only [extend]
  omega

/-- The longest common block. Only characters that satisfy `p` count for the search; what
is found then grows over its neighbours. -/
def longest (p : Char → Bool) (as bs : List Char) : Block :=
  extend as bs (bestLeft p bs 0 as ⟨0, 0, 0⟩)

theorem longest_end_le (p : Char → Bool) (as bs : List Char) :
    (longest p as bs).left + (longest p as bs).size ≤ as.length :=
  extend_end_le as bs _ (bestLeft_end_le bs as 0 ⟨0, 0, 0⟩ (by simp) (by simp))

end Block

/-- The number of characters in common blocks. -/
def matched (p : Char → Bool) (as bs : List Char) : Nat :=
  let block := Block.longest p as bs
  if _h : block.size = 0 then 0
  else
    matched p (as.take block.left) (bs.take block.right) + block.size +
      matched p (as.drop (block.left + block.size)) (bs.drop (block.right + block.size))
termination_by as.length
decreasing_by
  all_goals
    have := Block.longest_end_le p as bs
    simp only [List.length_take, List.length_drop, block] at *
    omega

/-- The characters of a word that may start a block. In a word of 200 characters or more,
those with more than `length / 100 + 1` places in it are too frequent. -/
def rareChars (word : List Char) : List Char :=
  word.eraseDups.filter fun c => word.length < 200 || word.count c ≤ word.length / 100 + 1

/-- The likeness of two words as a fraction: twice the matched characters over all. -/
structure Likeness where
  part : Nat
  whole : Nat

namespace Likeness

def of (candidate word : List Char) : Likeness :=
  if candidate.length + word.length = 0 then ⟨1, 1⟩
  else
    let rare := rareChars word
    ⟨2 * matched rare.contains candidate word, candidate.length + word.length⟩

/-- Two words are close from three fifths on. -/
def isClose (l : Likeness) : Bool := 3 * l.whole ≤ 5 * l.part

def lt (l m : Likeness) : Bool := l.part * m.whole < m.part * l.whole

end Likeness

/-- Whether a candidate comes before another: the more alike first, and of equally alike
ones the later in the alphabet. -/
def ranksBefore (x y : Likeness × String) : Bool :=
  y.1.lt x.1 || (!x.1.lt y.1 && decide (y.2 ≤ x.2))

/-- The three candidates closest to a word, best first. -/
def closest (word : String) (candidates : List String) : List String :=
  let ranked := candidates.map fun c => (Likeness.of c.toList word.toList, c)
  (((ranked.filter (·.1.isClose)).mergeSort ranksBefore).take 3).map (·.2)

end Chipwright.Text
