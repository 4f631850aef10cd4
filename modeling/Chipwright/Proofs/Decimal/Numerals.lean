import Chipwright.Literal
import Mathlib.Data.List.TakeWhile

/-!
# The texts of numbers

A number is written with digits, a minus before them or not, with a point or not, and with an
exponent or not. Every finite number is written so, whichever of the forms is chosen for it: the
shortest decimal of a number has a digit that is not zero, and where none is found, the number is
written as a whole one.
-/
namespace Chipwright

namespace Text

/-- Digits, and at least one of them. -/
def IsDigits (cs : List Char) : Prop := cs ≠ [] ∧ ∀ c ∈ cs, c.isDigit = true

/-- What may follow the digits of a number: a point with digits. -/
inductive IsFraction : List Char → Prop
  | none : IsFraction []
  | point {digits : List Char} : IsDigits digits → IsFraction ('.' :: digits)

/-- What may follow that: an exponent with its sign. -/
inductive IsExponent : List Char → Prop
  | none : IsExponent []
  | signed {sign : Char} {digits : List Char} : sign = '+' ∨ sign = '-' → IsDigits digits →
    IsExponent ('e' :: sign :: digits)

/-- The text of a number that is not negative. -/
def IsMagnitude (cs : List Char) : Prop :=
  ∃ whole fraction exponent, cs = whole ++ (fraction ++ exponent) ∧
    IsDigits whole ∧ IsFraction fraction ∧ IsExponent exponent

/-- The text of a number. -/
inductive IsNumeral : List Char → Prop
  | positive {cs : List Char} : IsMagnitude cs → IsNumeral cs
  | negative {cs : List Char} : IsMagnitude cs → IsNumeral ('-' :: cs)

theorem IsDigits.isMagnitude {cs : List Char} (h : IsDigits cs) : IsMagnitude cs :=
  ⟨cs, [], [], by simp, h, .none, .none⟩

theorem isDigits_toDigits (n : Nat) : IsDigits (Nat.toDigits 10 n) :=
  ⟨Nat.toDigits_ne_nil, fun _ hc => Nat.isDigit_of_mem_toDigits (by decide) (by decide) hc⟩

theorem isMagnitude_nat (n : Nat) : IsMagnitude (toString n).toList := by
  rw [Nat.toString_eq_ofList_toDigits, String.toList_ofList]
  exact (isDigits_toDigits n).isMagnitude

theorem isNumeral_int : ∀ n : Int, IsNumeral (toString n).toList
  | .ofNat n => .positive (isMagnitude_nat n)
  | .negSucc n => by
    have htext : (toString (Int.negSucc n)).toList = '-' :: (toString (n + 1)).toList := by
      change ("-" ++ toString (n + 1)).toList = _
      simp
    rw [htext]
    exact .negative (isMagnitude_nat (n + 1))

/-- The characters of a number. -/
theorem IsNumeral.mem {cs : List Char} (h : IsNumeral cs) {c : Char} (hc : c ∈ cs) :
    c.isDigit = true ∨ c ∈ ['-', '.', 'e', '+'] := by
  have hmagnitude {cs : List Char} (h : IsMagnitude cs) (hc : c ∈ cs) :
      c.isDigit = true ∨ c ∈ ['-', '.', 'e', '+'] := by
    obtain ⟨whole, fraction, exponent, rfl, hwhole, hfraction, hexponent⟩ := h
    rcases List.mem_append.1 hc with hc | hc
    · exact Or.inl (hwhole.2 c hc)
    rcases List.mem_append.1 hc with hc | hc
    · cases hfraction with
      | none => cases hc
      | point hdigits => exact (List.mem_cons.1 hc).symm.imp (hdigits.2 c) (by simp +contextual)
    · cases hexponent with
      | none => cases hc
      | signed hsign hdigits =>
        rcases List.mem_cons.1 hc with rfl | hc
        · simp
        rcases List.mem_cons.1 hc with rfl | hc
        · rcases hsign with rfl | rfl <;> simp
        · exact Or.inl (hdigits.2 c hc)
  cases h with
  | positive h => exact hmagnitude h hc
  | negative h =>
    rcases List.mem_cons.1 hc with rfl | hc
    · simp
    · exact hmagnitude h hc

end Text

open Text (IsDigits IsMagnitude IsNumeral)

namespace Decimal

variable {digits : List Char} {power : Int}

theorem isDigits_zero : IsDigits ['0'] := ⟨by simp, List.all_eq_true.1 (by decide)⟩

theorem isDigit_zeros {n : Nat} : ∀ c ∈ List.replicate n '0', c.isDigit = true := by
  intro c hc
  rw [List.eq_of_mem_replicate hc]
  rfl

theorem isDigit_significant (x : Scientific) : ∀ c ∈ (significant x).1, c.isDigit = true := by
  intro c hc
  refine (Text.isDigits_toDigits x.digits).2 c ?_
  exact List.mem_reverse.1 ((List.dropWhile_suffix _).subset (List.mem_reverse.1 hc))

/-- Zeros are left out at the end, so a number other than zero has a digit that stays. -/
theorem significant_ne_nil {x : Scientific} (h : x.digits ≠ 0) : (significant x).1 ≠ [] := by
  intro hnil
  have hzero : ∀ c ∈ Nat.toDigits 10 x.digits, c = '0' := by
    intro c hc
    have hall := List.dropWhile_eq_nil_iff.1 (List.reverse_eq_nil_iff.1 hnil)
    simpa using hall c (List.mem_reverse.2 hc)
  have hvalue := Nat.ofDigitChars_ten_toDigits (n := x.digits)
  rw [List.eq_replicate_of_mem hzero, Nat.ofDigitChars_replicate_zero, Nat.mul_zero] at hvalue
  exact h hvalue.symm

theorem isMagnitude_plain (hdigits : ∀ c ∈ digits, c.isDigit = true)
    (h : digits ≠ [] ∨ 0 ≤ power) : IsMagnitude (plain digits power) := by
  unfold plain
  split
  · have hne : digits ≠ [] := h.resolve_right (by omega)
    have hfraction : IsDigits (List.replicate ((-power).toNat - 1) '0' ++ digits) :=
      ⟨by simp [hne], List.forall_mem_append.2 ⟨isDigit_zeros, hdigits⟩⟩
    exact ⟨['0'], _, [], by simp, isDigits_zero, .point hfraction, .none⟩
  · have hwhole : IsDigits (digits.take (power.toNat + 1) ++
        List.replicate (power.toNat + 1 - digits.length) '0') := by
      refine ⟨?_, List.forall_mem_append.2
        ⟨fun c hc => hdigits c (List.mem_of_mem_take hc), isDigit_zeros⟩⟩
      cases digits <;> simp
    have hfraction : IsDigits (if (digits.drop (power.toNat + 1)).isEmpty then ['0']
        else digits.drop (power.toNat + 1)) := by
      split
      · exact isDigits_zero
      · rename_i hempty
        exact ⟨by simpa using hempty, fun c hc => hdigits c (List.mem_of_mem_drop hc)⟩
    exact ⟨_, _, [], by simp, hwhole, .point hfraction, .none⟩

/-- Zero, without significant digits. -/
theorem isMagnitude_zero : IsMagnitude (plain [] 0) :=
  isMagnitude_plain (List.forall_mem_nil _) (Or.inr (Int.le_refl 0))

theorem isMagnitude_withExponent (style : Style) (h : IsDigits digits) (power : Int) :
    IsMagnitude (withExponent style digits power) := by
  obtain ⟨hne, hdigits⟩ := h
  obtain ⟨d, digits, rfl⟩ := List.exists_cons_of_ne_nil hne
  obtain ⟨hd, hdigits⟩ := List.forall_mem_cons.1 hdigits
  have hexponent : IsDigits (Text.padded 10 style.exponentDigits power.natAbs) :=
    ⟨by simp [Text.padded, Nat.toDigits_ne_nil],
      List.forall_mem_append.2 ⟨isDigit_zeros, (Text.isDigits_toDigits _).2⟩⟩
  have hsign : (if power < 0 then '-' else '+') = '+' ∨ (if power < 0 then '-' else '+') = '-' := by
    split <;> simp
  refine ⟨[d], if digits.isEmpty then [] else '.' :: digits, _, by simp [withExponent],
    ⟨by simp, by simpa using hd⟩, ?_, .signed hsign hexponent⟩
  split
  · exact .none
  · rename_i hempty
    exact .point ⟨by simpa using hempty, hdigits⟩

/-- A decimal that is not zero, or that has no power, is written as a number. -/
theorem isMagnitude_write {x : Scientific} (h : x.digits ≠ 0 ∨ x.exponent = 0) :
    IsMagnitude (x.write Literal.style) := by
  have hdigits := isDigit_significant x
  rcases eq_or_ne x.digits 0 with hzero | hne
  · have hwrite : x.write Literal.style = plain [] 0 := by
      have hexponent := h.resolve_left (not_not.2 hzero)
      simp [Scientific.write, significant, hzero, hexponent, Literal.style]
    rw [hwrite]
    exact isMagnitude_zero
  · have hne := significant_ne_nil hne
    unfold Scientific.write
    dsimp only
    split
    · exact isMagnitude_plain hdigits (Or.inl hne)
    · exact isMagnitude_withExponent _ ⟨hne, hdigits⟩ _

/-- The shortest decimal of a number that is not zero is no zero, if it is found. -/
theorem shortest_cases {m : Nat} (hm : m ≠ 0) (e : Int) :
    (Scientific.shortest m e).digits ≠ 0 ∨ (Scientific.shortest m e).exponent = 0 := by
  unfold Scientific.shortest
  dsimp only
  cases hfound : (List.range 17).findSome? _ with
  | none => exact Or.inr rfl
  | some x =>
    refine Or.inl fun hzero => hm ?_
    obtain ⟨n, -, hx⟩ := List.exists_of_findSome?_eq_some hfound
    have hreads : Binary64.ofDecimal false x.digits x.exponent = .finite false m e := by
      simpa [Scientific.readsAs] using List.find?_some hx
    have hdigits : x.digits = 0 := hzero
    rw [hdigits] at hreads
    cases hreads
    rfl

theorem isNumeral_signed (negative : Bool) {cs : List Char} (h : IsMagnitude cs) :
    IsNumeral (signed negative cs).toList := by
  cases negative with
  | true => simpa [signed] using IsNumeral.negative h
  | false => simpa [signed] using IsNumeral.positive h

theorem isNumeral_write (negative : Bool) (m : Nat) (e : Int) :
    IsNumeral ((Binary64.finite negative m e).write Literal.style).toList := by
  refine isNumeral_signed negative ?_
  split
  · exact isMagnitude_zero
  · rename_i hm
    exact isMagnitude_write (shortest_cases hm e)

end Decimal

/-- A literal is written as a number in an instruction, unless it is not finite. -/
theorem Literal.immediate_cases (x : Literal) : IsNumeral x.immediate.toList ∨
    (∃ negative, x = .float (.infinite negative)) ∨ x = .float .nan := by
  cases x with
  | int n => exact Or.inl (Text.isNumeral_int n)
  | bool b =>
    have hnat : (if b then "1" else "0") = toString b.toNat := by cases b <;> rfl
    simp only [immediate, hnat]
    exact Or.inl (.positive (Text.isMagnitude_nat _))
  | float y =>
    cases y with
    | nan => exact Or.inr (Or.inr rfl)
    | infinite negative => exact Or.inr (Or.inl ⟨negative, rfl⟩)
    | finite negative m e =>
      refine Or.inl ?_
      simp only [immediate]
      split
      · split
        · exact Text.isNumeral_int _
        · exact Decimal.isNumeral_write negative m e
      · exact Decimal.isNumeral_write negative m e

end Chipwright
