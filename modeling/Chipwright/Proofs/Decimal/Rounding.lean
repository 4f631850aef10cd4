import Chipwright.Decimal.Numeral
import Mathlib.Algebra.Order.Field.Power
import Mathlib.Algebra.Order.Ring.Abs
import Mathlib.Data.Rat.Cast.Order
import Mathlib.Tactic.FieldSimp
import Mathlib.Tactic.Linarith
import Mathlib.Tactic.NormNum
import Mathlib.Tactic.Positivity
import Mathlib.Tactic.Ring

/-!
# Rounding of decimal fractions

A decimal fraction is read as the nearest number of double precision. Where two are equally near,
the one with the even mantissa is taken; from the middle between the greatest number and the next
power of two on, the result is infinite. This determines the result.
-/
namespace Chipwright.Decimal

variable {den m num : Nat}

/-- A mantissa with a power of two, as a fraction. -/
def scaled (m : Nat) (e : Int) : ℚ := m * 2 ^ e

/-- The format has a mantissa and a power of two. -/
structure Fits (m : Nat) (e : Int) : Prop where
  mantissa : m < 2 ^ 53
  least : -1074 ≤ e
  greatest : e ≤ 971

/-- The form in which a number of the format is given: the mantissa is as great as it can be, and
zero has the power 0. -/
structure Normal (m : Nat) (e : Int) : Prop extends Fits m e where
  normal : 2 ^ 52 ≤ m ∨ m ≠ 0 ∧ e = -1074 ∨ m = 0 ∧ e = 0

/-- The middle between the greatest number of the format and the power of two after it. -/
def overflowBound : ℚ := (2 ^ 54 - 1) * 2 ^ (970 : Int)

/-- The number of the format that is nearest to a fraction, which is not negative. -/
inductive Nearest (q : ℚ) : Binary64 → Prop
  | finite {m : Nat} {e : Int} : Normal m e →
    (∀ m' e', Fits m' e' → |scaled m e - q| ≤ |scaled m' e' - q|) →
    (∀ m' e', Fits m' e' → scaled m' e' ≠ scaled m e →
      |scaled m e - q| = |scaled m' e' - q| → Even m) →
    q < overflowBound → Nearest q (.finite false m e)
  | infinite : overflowBound ≤ q → Nearest q (.infinite false)

/-! ### Powers of two -/

theorem two_zpow_pos (e : Int) : (0 : ℚ) < 2 ^ e := by positivity

theorem two_zpow_le {e e' : Int} (h : e ≤ e') : (2 : ℚ) ^ e ≤ 2 ^ e' :=
  zpow_le_zpow_right₀ (by norm_num) h

theorem two_zpow_succ (e : Int) : (2 : ℚ) ^ (e + 1) = 2 * 2 ^ e := by
  rw [zpow_add_one₀ (by norm_num), mul_comm]

/-- With a smaller power of two, a number has a greater mantissa. -/
theorem scaled_eq {e e' : Int} (h : e ≤ e') : scaled m e' = scaled (m * 2 ^ (e' - e).toNat) e := by
  have hsplit : (2 : ℚ) ^ e' = 2 ^ (e' - e).toNat * 2 ^ e := by
    rw [← zpow_natCast, ← zpow_add₀ (by norm_num)]
    congr 1
    omega
  simp only [scaled, Nat.cast_mul, Nat.cast_pow, Nat.cast_ofNat, hsplit]
  ring

/-- A number that fits is below those with a greater power of two. -/
theorem scaled_lt {e e' : Int} (hm : m < 2 ^ 53) (h : e < e') : scaled m e < 2 ^ 52 * 2 ^ e' := by
  have hm : (m : ℚ) < 2 ^ 53 := by exact_mod_cast hm
  calc scaled m e < 2 ^ 53 * 2 ^ e := mul_lt_mul_of_pos_right hm (two_zpow_pos e)
    _ = 2 ^ 52 * 2 ^ (e + 1) := by rw [two_zpow_succ]; ring
    _ ≤ 2 ^ 52 * 2 ^ e' := by
      have := two_zpow_le (show e + 1 ≤ e' by omega)
      linarith

theorem scaled_lt_scaled {m' : Nat} {e : Int} : scaled m e < scaled m' e ↔ m < m' := by
  rw [scaled, scaled, mul_lt_mul_iff_left₀ (two_zpow_pos e), Nat.cast_lt]

theorem scaled_eq_zero {e : Int} : scaled m e = 0 ↔ m = 0 := by
  simp [scaled, (two_zpow_pos e).ne']

/-! ### Whole numbers -/

/-- A fraction is rounded to a whole number: to a nearest one, and to an even one if it is in the
middle. -/
structure RoundsTo (x : ℚ) (r : Nat) : Prop where
  near : |(r : ℚ) - x| ≤ 1 / 2
  even : |(r : ℚ) - x| = 1 / 2 → Even r

theorem roundsTo_roundDiv (num : Nat) (hden : 0 < den) :
    RoundsTo (num / den) (roundDiv num den) := by
  have hpos : (0 : ℚ) < den := by exact_mod_cast hden
  -- the part that is cut off, against a half
  generalize hs : ((num % den : Nat) : ℚ) / den = s
  have hle : s ≤ 1 / 2 ↔ 2 * (num % den) ≤ den := by
    rw [← hs, div_le_iff₀ hpos, ← Nat.cast_le (α := ℚ), Nat.cast_mul, Nat.cast_ofNat]
    constructor <;> intro h <;> linarith
  have hge : 1 / 2 ≤ s ↔ den ≤ 2 * (num % den) := by
    rw [← hs, le_div_iff₀ hpos, ← Nat.cast_le (α := ℚ), Nat.cast_mul, Nat.cast_ofNat]
    constructor <;> intro h <;> linarith
  have hnonneg : 0 ≤ s := by
    rw [← hs]
    positivity
  have hlt : s < 1 := by
    rw [← hs, div_lt_one hpos]
    exact_mod_cast Nat.mod_lt num hden
  have hx : (num : ℚ) / den = (num / den : Nat) + s := by
    have hdiv : (num : ℚ) = den * (num / den : Nat) + (num % den : Nat) := by
      exact_mod_cast (Nat.div_add_mod num den).symm
    rw [hdiv, add_div, mul_div_cancel_left₀ _ hpos.ne', hs]
  have hhalf : s = 1 / 2 → 2 * (num % den) = den := fun h =>
    Nat.le_antisymm (hle.1 h.le) (hge.1 h.ge)
  rw [hx]
  unfold roundDiv
  simp only [Bool.or_eq_true, Bool.and_eq_true, decide_eq_true_eq]
  split
  · rename_i hdown
    have habs : |((num / den : Nat) : ℚ) - ((num / den : Nat) + s)| = s := by
      rw [sub_add_cancel_left, abs_neg, abs_of_nonneg hnonneg]
    refine ⟨habs.trans_le (hle.2 (by omega)), fun hmiddle => Nat.even_iff.2 ?_⟩
    have := hhalf (habs.symm.trans hmiddle)
    omega
  · rename_i hup
    have habs : |((num / den + 1 : Nat) : ℚ) - ((num / den : Nat) + s)| = 1 - s := by
      rw [Nat.cast_add, Nat.cast_one, add_sub_add_left_eq_sub, abs_of_nonneg (by linarith)]
    have hs' := hge.2 (by omega)
    refine ⟨by linarith, fun hmiddle => Nat.even_iff.2 ?_⟩
    have := hhalf (by linarith)
    omega

namespace RoundsTo

variable {q : ℚ} {e : Int} {r : Nat}

/-- A number of the grid at which the rounding takes place is not nearer. -/
theorem le_of_grid (h : RoundsTo (q / 2 ^ e) r) (k : Nat) :
    |scaled r e - q| ≤ |scaled k e - q| ∧
      (k ≠ r → |scaled r e - q| = |scaled k e - q| → Even r) := by
  have hscale : ∀ n : Nat, |scaled n e - q| = |(n : ℚ) - q / 2 ^ e| * 2 ^ e := by
    intro n
    have hpos := two_zpow_pos e
    rw [← abs_of_pos hpos, ← abs_mul, abs_of_pos hpos, sub_mul, div_mul_cancel₀ _ hpos.ne', scaled]
  by_cases hk : k = r
  · subst hk
    exact ⟨le_rfl, fun hne => absurd rfl hne⟩
  have hapart : (1 : ℚ) ≤ |(k : ℚ) - r| := by
    have hne : (k : Int) - r ≠ 0 := by omega
    exact_mod_cast Int.one_le_abs hne
  have htriangle : |(k : ℚ) - r| ≤ |(k : ℚ) - q / 2 ^ e| + |(r : ℚ) - q / 2 ^ e| := by
    rw [abs_sub_comm (r : ℚ)]
    exact abs_sub_le _ _ _
  have hnear := h.near
  rw [hscale, hscale]
  refine ⟨mul_le_mul_of_nonneg_right (by linarith) (two_zpow_pos e).le, fun _ heq => h.even ?_⟩
  have heq := mul_right_cancel₀ (two_zpow_pos e).ne' heq
  linarith

end RoundsTo

/-! ### Numbers -/

/-- A power of two suits a fraction: the mantissa is as great as it can be. -/
structure Suits (q : ℚ) (e : Int) : Prop where
  least : -1074 ≤ e
  lt : q < 2 ^ 53 * 2 ^ e
  ge : 2 ^ 52 * 2 ^ e ≤ q ∨ e = -1074

namespace Suits

variable {q : ℚ} {e : Int} {r : Nat}

theorem mantissa_le (h : Suits q e) (hr : RoundsTo (q / 2 ^ e) r) : r ≤ 2 ^ 53 := by
  have hx : q / 2 ^ e < 2 ^ 53 := (div_lt_iff₀ (two_zpow_pos e)).2 h.lt
  have hnear := (abs_le.1 hr.near).2
  have : (r : ℚ) < 2 ^ 53 + 1 := by linarith
  have : r < 2 ^ 53 + 1 := by exact_mod_cast this
  omega

theorem le_mantissa (h : Suits q e) (hr : RoundsTo (q / 2 ^ e) r) :
    2 ^ 52 ≤ r ∨ e = -1074 := by
  refine h.ge.imp_left fun hge => ?_
  have hx : 2 ^ 52 ≤ q / 2 ^ e := (le_div_iff₀ (two_zpow_pos e)).2 hge
  have hnear := (abs_le.1 hr.near).1
  have : (2 ^ 52 : ℚ) < r + 1 := by linarith
  have : 2 ^ 52 < r + 1 := by exact_mod_cast this
  omega

/-- No number of the format is nearer than the rounded one. -/
theorem le_of_fits (h : Suits q e) (hr : RoundsTo (q / 2 ^ e) r) {m' : Nat} {e' : Int}
    (hfits : Fits m' e') : |scaled r e - q| ≤ |scaled m' e' - q| ∧
      (scaled m' e' ≠ scaled r e → |scaled r e - q| = |scaled m' e' - q| → Even r) := by
  rcases le_or_gt e e' with hle | hlt
  · rw [scaled_eq hle]
    obtain ⟨hnear, heven⟩ := hr.le_of_grid (m' * 2 ^ (e' - e).toNat)
    exact ⟨hnear, fun hne => heven fun heq => hne (by rw [heq])⟩
  · -- such a number is below the least mantissa of the power that suits
    have hge : 2 ^ 52 * 2 ^ e ≤ q := h.ge.resolve_right (by have := hfits.least; omega)
    have hbelow := scaled_lt hfits.mantissa hlt
    have hgrid := (hr.le_of_grid (2 ^ 52)).1
    have hleast : |scaled (2 ^ 52) e - q| = q - 2 ^ 52 * 2 ^ e := by
      rw [scaled, Nat.cast_pow, Nat.cast_ofNat, abs_of_nonpos (by linarith), neg_sub]
    have hother : |scaled m' e' - q| = q - scaled m' e' := by
      rw [abs_of_nonpos (by linarith), neg_sub]
    have hstrict : |scaled r e - q| < |scaled m' e' - q| := by
      rw [hother]
      linarith
    exact ⟨hstrict.le, fun _ heq => absurd heq hstrict.ne⟩

/-- A fraction whose rounded mantissa is in the format is below the bound. -/
theorem lt_overflowBound (h : Suits q e) (hr : RoundsTo (q / 2 ^ e) r)
    (he : e ≤ 970 ∨ e = 971 ∧ r < 2 ^ 53) : q < overflowBound := by
  unfold overflowBound
  rcases he with he | ⟨rfl, hm⟩
  · have hle := two_zpow_le he
    have hpos := two_zpow_pos 970
    have hlt := h.lt
    generalize (2 : ℚ) ^ (970 : Int) = c at *
    linarith
  · -- the greatest mantissa is odd, so the middle after it is not rounded to it
    have hnear := abs_le.1 hr.near
    have hm : (r : ℚ) ≤ 2 ^ 53 - 1 := by
      have : r + 1 ≤ 2 ^ 53 := hm
      have : (r : ℚ) + 1 ≤ 2 ^ 53 := by exact_mod_cast this
      linarith
    have hx : q / 2 ^ (971 : Int) < 2 ^ 53 - 1 / 2 := by
      by_contra hge
      have hr' : (r : ℚ) = 2 ^ 53 - 1 := by linarith
      have hmiddle : |(r : ℚ) - q / 2 ^ (971 : Int)| = 1 / 2 := by
        rw [abs_of_nonpos (by linarith)]
        linarith
      have heven := hr.even hmiddle
      have hr' : r = 2 ^ 53 - 1 := by
        have : (r : ℚ) = ((2 ^ 53 - 1 : Nat) : ℚ) := by rw [hr']; norm_num
        exact_mod_cast this
      rw [hr'] at heven
      exact absurd heven (by decide)
    rw [div_lt_iff₀ (two_zpow_pos 971)] at hx
    rw [show (2 : ℚ) ^ (971 : Int) = 2 * 2 ^ (970 : Int) from two_zpow_succ 970] at hx
    generalize (2 : ℚ) ^ (970 : Int) = c at hx ⊢
    linarith

theorem overflowBound_le (h : Suits q e) (hr : RoundsTo (q / 2 ^ e) r)
    (he : 971 < e ∨ e = 971 ∧ r = 2 ^ 53) : overflowBound ≤ q := by
  unfold overflowBound
  rcases he with he | ⟨rfl, rfl⟩
  · have hge : 2 ^ 52 * 2 ^ e ≤ q := h.ge.resolve_right (by omega)
    have hle := two_zpow_le (show 971 + 1 ≤ e by omega)
    have hpos := two_zpow_pos 970
    rw [two_zpow_succ, show (2 : ℚ) ^ (971 : Int) = 2 * 2 ^ (970 : Int) from two_zpow_succ 970]
      at hle
    generalize (2 : ℚ) ^ (970 : Int) = c at *
    linarith
  · have hnear := abs_le.1 hr.near
    have hx : 2 ^ 53 - 1 / 2 ≤ q / 2 ^ (971 : Int) := by
      have : ((2 ^ 53 : Nat) : ℚ) = 2 ^ 53 := by norm_num
      linarith
    rw [le_div_iff₀ (two_zpow_pos 971)] at hx
    rw [show (2 : ℚ) ^ (971 : Int) = 2 * 2 ^ (970 : Int) from two_zpow_succ 970] at hx
    generalize (2 : ℚ) ^ (970 : Int) = c at hx ⊢
    linarith

/-- The rounded mantissa, in the form that the format has for it, is the nearest number. -/
theorem nearest_pack (h : Suits q e) (hr : RoundsTo (q / 2 ^ e) r) :
    Nearest q (.pack false r e) := by
  have hle := h.mantissa_le hr
  have hleast := h.least
  -- a form of the rounded number with the same parity
  have hfinite : ∀ {m e'}, scaled m e' = scaled r e → (Even r → Even m) → Normal m e' →
      (e ≤ 970 ∨ e = 971 ∧ r < 2 ^ 53) → Nearest q (.finite false m e') := by
    intro m e' hscaled heven hnormal hbound
    refine .finite hnormal ?_ ?_ (h.lt_overflowBound hr hbound)
    · intro m' e' hfits
      rw [hscaled]
      exact (h.le_of_fits hr hfits).1
    · intro m' e' hfits hne heq
      rw [hscaled] at hne heq
      exact heven ((h.le_of_fits hr hfits).2 hne heq)
  unfold Binary64.pack
  by_cases hcarry : r = Nat.pow 2 53
  · rw [if_pos hcarry]
    change Nearest q (if Nat.pow 2 52 = 0 then _ else if 971 < e + 1 then _ else _)
    rw [if_neg (by decide)]
    split
    · rename_i hbig
      refine .infinite (h.overflowBound_le hr ?_)
      rcases Int.lt_or_eq_of_le (show 971 ≤ e by omega) with hlt | heq
      · exact Or.inl hlt
      · exact Or.inr ⟨heq.symm, hcarry⟩
    · rename_i hfits
      refine hfinite ?_ (fun _ => by decide) ⟨⟨by decide, by omega, by omega⟩, Or.inl le_rfl⟩
        (Or.inl (by omega))
      rw [hcarry, scaled, scaled, two_zpow_succ]
      simp only [Nat.pow_eq, Nat.cast_pow, Nat.cast_ofNat]
      ring
  · rw [if_neg hcarry]
    have hm : r < 2 ^ 53 := by
      exact Nat.lt_of_le_of_ne hle hcarry
    change Nearest q (if r = 0 then _ else if 971 < e then _ else _)
    have hmantissa := h.le_mantissa hr
    split
    · rename_i hzero
      subst hzero
      exact hfinite (by simp [scaled]) id ⟨⟨by norm_num, by norm_num, by norm_num⟩,
        Or.inr (Or.inr ⟨rfl, rfl⟩)⟩ (Or.inl (by omega))
    · rename_i hne
      split
      · rename_i hbig
        exact .infinite (h.overflowBound_le hr (Or.inl hbig))
      · rename_i hfits
        refine hfinite rfl id ⟨⟨hm, hleast, by omega⟩, ?_⟩ (by omega)
        exact hmantissa.imp_right fun he => Or.inl ⟨hne, he⟩

end Suits

/-! ### Fractions -/

theorem scaleDown_eq {base : Nat} (num : Nat) (e : Int) (hbase : 0 < base) (hden : 0 < den) :
    0 < (scaleDown base num den e).2 ∧
      ((scaleDown base num den e).1 : ℚ) / (scaleDown base num den e).2 =
        (num : ℚ) / den / (base : ℚ) ^ e := by
  have hpos : (0 : ℚ) < base := by exact_mod_cast hbase
  unfold scaleDown
  split
  · rename_i he
    refine ⟨Nat.mul_pos hden (Nat.pow_pos hbase), ?_⟩
    have hpower : (base : ℚ) ^ e = (base : ℚ) ^ e.toNat := by
      rw [← zpow_natCast, Int.toNat_of_nonneg he]
    simp only [Nat.pow_eq, Nat.cast_mul, Nat.cast_pow, hpower]
    rw [div_div]
  · rename_i he
    refine ⟨hden, ?_⟩
    have hpower : (base : ℚ) ^ e = ((base : ℚ) ^ (-e).toNat)⁻¹ := by
      rw [← zpow_natCast, Int.toNat_of_nonneg (by omega), zpow_neg, inv_inv]
    simp only [Nat.pow_eq, Nat.cast_mul, Nat.cast_pow, hpower]
    rw [div_inv_eq_mul, mul_div_right_comm]

/-- A fraction is between the powers of two that the sizes of its parts tell. -/
theorem div_bounds (hnum : 0 < num) (hden : 0 < den) :
    (2 : ℚ) ^ ((num.log2 : Int) - den.log2 - 1) < num / den ∧
      (num : ℚ) / den < 2 ^ ((num.log2 : Int) - den.log2 + 1) := by
  have hpos : (0 : ℚ) < den := by exact_mod_cast hden
  have hcast : ∀ n : Nat, ((2 ^ n : Nat) : ℚ) = 2 ^ (n : Int) := by simp
  have hnumLe : (2 : ℚ) ^ (num.log2 : Int) ≤ num := by
    rw [← hcast]
    exact_mod_cast Nat.log2_self_le hnum.ne'
  have hnumLt : (num : ℚ) < 2 ^ ((num.log2 : Int) + 1) := by
    have := hcast (num.log2 + 1)
    push_cast at this
    rw [← this]
    exact_mod_cast Nat.lt_log2_self
  have hdenLe : (2 : ℚ) ^ (den.log2 : Int) ≤ den := by
    rw [← hcast]
    exact_mod_cast Nat.log2_self_le hden.ne'
  have hdenLt : (den : ℚ) < 2 ^ ((den.log2 : Int) + 1) := by
    have := hcast (den.log2 + 1)
    push_cast at this
    rw [← this]
    exact_mod_cast Nat.lt_log2_self
  constructor
  · rw [lt_div_iff₀ hpos]
    calc (2 : ℚ) ^ ((num.log2 : Int) - den.log2 - 1) * den
        < 2 ^ ((num.log2 : Int) - den.log2 - 1) * 2 ^ ((den.log2 : Int) + 1) :=
          mul_lt_mul_of_pos_left hdenLt (two_zpow_pos _)
      _ = 2 ^ (num.log2 : Int) := by
        rw [← zpow_add₀ (by norm_num)]
        congr 1
        omega
      _ ≤ num := hnumLe
  · rw [div_lt_iff₀ hpos]
    calc (num : ℚ) < 2 ^ ((num.log2 : Int) + 1) := hnumLt
      _ = 2 ^ ((num.log2 : Int) - den.log2 + 1) * 2 ^ (den.log2 : Int) := by
        rw [← zpow_add₀ (by norm_num)]
        congr 1
        omega
      _ ≤ 2 ^ ((num.log2 : Int) - den.log2 + 1) * den :=
          mul_le_mul_of_nonneg_left hdenLe (two_zpow_pos _).le

theorem suits_exponentFor (hnum : 0 < num) (hden : 0 < den) :
    Suits (num / den) (Binary64.exponentFor num den) := by
  obtain ⟨hlow, hhigh⟩ := div_bounds hnum hden
  generalize hguess : (num.log2 : Int) - den.log2 - 52 = guess
  obtain ⟨hpos, hscale⟩ := scaleDown_eq num guess (by norm_num : 0 < 2) hden
  have hpos : (0 : ℚ) < (scaleDown 2 num den guess).2 := by exact_mod_cast hpos
  have htest : Nat.pow 2 52 * (scaleDown 2 num den guess).2 ≤ (scaleDown 2 num den guess).1 ↔
      2 ^ 52 * 2 ^ guess ≤ (num : ℚ) / den := by
    rw [Nat.cast_ofNat] at hscale
    rw [← le_div_iff₀ (two_zpow_pos guess), ← hscale, le_div_iff₀ hpos]
    exact_mod_cast Iff.rfl
  -- the power before the least one is enforced
  obtain ⟨e, he, hlt, hge⟩ : ∃ e : Int, Binary64.exponentFor num den = max e (-1074) ∧
      (num : ℚ) / den < 2 ^ 53 * 2 ^ e ∧ 2 ^ 52 * 2 ^ e ≤ (num : ℚ) / den := by
    unfold Binary64.exponentFor
    simp only [hguess]
    by_cases h : 2 ^ 52 * 2 ^ guess ≤ (num : ℚ) / den
    · rw [if_pos (htest.2 h)]
      refine ⟨_, rfl, ?_, h⟩
      convert hhigh using 1
      rw [← zpow_natCast, ← zpow_add₀ (by norm_num)]
      congr 1
      push_cast
      omega
    · rw [if_neg fun htested => h (htest.1 htested)]
      refine ⟨_, rfl, ?_, ?_⟩
      · have hdouble := two_zpow_succ (guess - 1)
        rw [sub_add_cancel] at hdouble
        rw [hdouble] at h
        linarith
      · refine le_of_eq_of_le ?_ hlow.le
        rw [← zpow_natCast, ← zpow_add₀ (by norm_num)]
        congr 1
        push_cast
        omega
  rw [he]
  rcases le_total (-1074) e with hleast | hleast
  · rw [max_eq_left hleast]
    exact ⟨hleast, hlt, Or.inl hge⟩
  · rw [max_eq_right hleast]
    refine ⟨le_rfl, hlt.trans_le ?_, Or.inr rfl⟩
    have := two_zpow_le hleast
    linarith

theorem nearest_ofFraction (hnum : 0 < num) (hden : 0 < den) :
    Nearest (num / den) (.ofFraction false num den) := by
  have hsuits := suits_exponentFor hnum hden
  obtain ⟨hpos, hscale⟩ :=
    scaleDown_eq num (Binary64.exponentFor num den) (by norm_num : 0 < 2) hden
  have hround := roundsTo_roundDiv (scaleDown 2 num den (Binary64.exponentFor num den)).1 hpos
  rw [hscale] at hround
  exact hsuits.nearest_pack (by exact_mod_cast hround)

/-! ### Decimal fractions -/

theorem digitCount_bounds {n : Nat} (hn : 0 < n) :
    (10 : ℚ) ^ ((digitCount n : Int) - 1) ≤ n ∧ (n : ℚ) < 10 ^ (digitCount n : Int) := by
  have hpos : 0 < digitCount n := Nat.length_toDigits_pos
  constructor
  · have hcast : ((digitCount n : Int) - 1) = ((digitCount n - 1 : Nat) : Int) := by omega
    rw [hcast, zpow_natCast]
    rcases Nat.eq_zero_or_pos (digitCount n - 1) with hzero | hmore
    · rw [hzero]
      exact_mod_cast hn
    · have hnot := (Nat.length_toDigits_le_iff (by norm_num : 1 < 10) hmore (n := n)).not.1
        (by unfold digitCount at *; omega)
      exact_mod_cast Nat.not_lt.1 hnot
  · rw [zpow_natCast]
    exact_mod_cast (Nat.length_toDigits_le_iff (by norm_num : 1 < 10) hpos).1 le_rfl

/-- A fraction that is less than half of the least number is rounded to zero. -/
theorem nearest_zero {q : ℚ} (hq : 0 ≤ q) (hlt : q < 10 ^ (-330 : Int)) :
    Nearest q (.zero false) := by
  have hpower : (2 : ℚ) * 10 ^ (-330 : Int) ≤ 2 ^ (-1074 : Int) := by
    have hnat : (2 * 2 ^ 1074 : Nat) ≤ 10 ^ 330 := by decide +kernel
    have hrat : (2 : ℚ) * 2 ^ (1074 : Int) ≤ 10 ^ (330 : Int) := by exact_mod_cast hnat
    rw [zpow_neg, zpow_neg, ← div_eq_mul_inv, div_le_iff₀ (zpow_pos (by norm_num) _),
      inv_mul_eq_div, le_div_iff₀ (two_zpow_pos _)]
    exact hrat
  have hpos := two_zpow_pos (-1074)
  have hsuits : Suits q (-1074) := ⟨le_rfl, by linarith, Or.inr rfl⟩
  have hhalf : q / 2 ^ (-1074 : Int) < 1 / 2 := by
    rw [div_lt_iff₀ hpos]
    linarith
  have habs : |((0 : Nat) : ℚ) - q / 2 ^ (-1074 : Int)| = q / 2 ^ (-1074 : Int) := by
    rw [Nat.cast_zero, zero_sub, abs_neg, abs_of_nonneg (by positivity)]
  have hround : RoundsTo (q / 2 ^ (-1074 : Int)) 0 :=
    ⟨habs.trans_le hhalf.le, fun heq => absurd (habs ▸ heq) hhalf.ne⟩
  exact hsuits.nearest_pack hround

/-- A decimal fraction is read as the nearest number. -/
theorem nearest_ofDecimal (digits : Nat) (exponent : Int) :
    Nearest (digits * 10 ^ exponent) (.ofDecimal false digits exponent) := by
  have hten : ∀ e : Int, (0 : ℚ) < 10 ^ e := fun e => by positivity
  unfold Binary64.ofDecimal
  split
  · rename_i hzero
    subst hzero
    exact nearest_zero (by simp) (by simp)
  rename_i hne
  obtain ⟨hlow, hhigh⟩ := digitCount_bounds (Nat.pos_of_ne_zero hne)
  split
  · rename_i hbig
    refine .infinite ?_
    have hbound : overflowBound ≤ 10 ^ (310 : Int) := by
      have hnat : 2 ^ 54 * 2 ^ 970 ≤ 10 ^ 310 := by decide +kernel
      have hrat : (2 : ℚ) ^ 54 * 2 ^ (970 : Nat) ≤ 10 ^ (310 : Nat) := by exact_mod_cast hnat
      have hpos := two_zpow_pos 970
      unfold overflowBound
      rw [show (2 : ℚ) ^ (970 : Int) = 2 ^ (970 : Nat) from rfl] at hpos ⊢
      rw [show (10 : ℚ) ^ (310 : Int) = 10 ^ (310 : Nat) from rfl]
      generalize (2 : ℚ) ^ (970 : Nat) = c at *
      generalize (10 : ℚ) ^ (310 : Nat) = b at *
      linarith
    calc overflowBound ≤ 10 ^ (310 : Int) := hbound
      _ ≤ 10 ^ ((digitCount digits : Int) - 1 + exponent) :=
        zpow_le_zpow_right₀ (by norm_num) (by omega)
      _ = 10 ^ ((digitCount digits : Int) - 1) * 10 ^ exponent := zpow_add₀ (by norm_num) _ _
      _ ≤ digits * 10 ^ exponent := mul_le_mul_of_nonneg_right hlow (hten _).le
  · split
    · rename_i hsmall
      refine nearest_zero (by positivity) ?_
      calc (digits : ℚ) * 10 ^ exponent < 10 ^ (digitCount digits : Int) * 10 ^ exponent :=
            mul_lt_mul_of_pos_right hhigh (hten _)
        _ = 10 ^ ((digitCount digits : Int) + exponent) := (zpow_add₀ (by norm_num) _ _).symm
        _ ≤ 10 ^ (-330 : Int) := zpow_le_zpow_right₀ (by norm_num) (by omega)
    · obtain ⟨hpos, hscale⟩ :=
        scaleDown_eq digits (-exponent) (by norm_num : 0 < 10) Nat.one_pos
      have hvalue : ((scaleDown 10 digits 1 (-exponent)).1 : ℚ) /
          (scaleDown 10 digits 1 (-exponent)).2 = digits * 10 ^ exponent := by
        rw [hscale, Nat.cast_one, div_one, zpow_neg, div_inv_eq_mul, Nat.cast_ofNat]
      have hnum : 0 < (scaleDown 10 digits 1 (-exponent)).1 := by
        refine Nat.pos_of_ne_zero fun hzero => ?_
        rw [hzero, Nat.cast_zero, zero_div] at hvalue
        have : (0 : ℚ) < digits := by exact_mod_cast Nat.pos_of_ne_zero hne
        exact absurd hvalue (mul_pos this (hten _)).ne
      rw [← hvalue]
      exact nearest_ofFraction hnum hpos

/-! ### Uniqueness -/

namespace Nearest

variable {m m' : Nat} {e e' : Int}

variable {q : ℚ} {x y : Binary64}

/-- Of two normal forms, the one of the smaller number has the smaller power, unless it is zero. -/
theorem exponent_le (h : Normal m e) (h' : Normal m' e') (hm : m ≠ 0)
    (hle : scaled m e ≤ scaled m' e') : e ≤ e' := by
  by_contra hlt
  have hbig : 2 ^ 52 ≤ m := by
    rcases h.normal with hbig | ⟨-, hleast⟩ | ⟨hzero, -⟩
    · exact hbig
    · have := h'.least
      omega
    · exact absurd hzero hm
  have hbig : (2 ^ 52 : ℚ) ≤ m := by exact_mod_cast hbig
  have hbelow := scaled_lt h'.mantissa (Int.not_le.1 hlt)
  have : (2 : ℚ) ^ 52 * 2 ^ e ≤ scaled m e := mul_le_mul_of_nonneg_right hbig (two_zpow_pos e).le
  linarith

/-- A number has one normal form. -/
theorem normal_unique (h : Normal m e) (h' : Normal m' e') (heq : scaled m e = scaled m' e') :
    m = m' ∧ e = e' := by
  have hzero : m = 0 ↔ m' = 0 := by
    rw [← scaled_eq_zero (e := e), ← scaled_eq_zero (e := e'), heq]
  by_cases hm : m = 0
  · have hm' := hzero.1 hm
    have hnormal := h.normal
    have hnormal' := h'.normal
    omega
  · obtain rfl : e = e' := le_antisymm (exponent_le h h' hm heq.le)
      (exponent_le h' h (hm ∘ hzero.2) heq.ge)
    have heq := mul_right_cancel₀ (two_zpow_pos e).ne' heq
    exact ⟨by exact_mod_cast heq, rfl⟩

/-- Between two numbers with even mantissas there is another one. -/
theorem exists_between (h : Normal m e) (h' : Normal m' e') (hlt : scaled m e < scaled m' e')
    (heven : Even m) (heven' : Even m') :
    ∃ k d, Fits k d ∧ scaled m e < scaled k d ∧ scaled k d < scaled m' e' := by
  -- the smaller one has a power that the greater one has too, zero having all
  obtain ⟨d, hfits, hle, heq⟩ : ∃ d, Fits m d ∧ d ≤ e' ∧ scaled m e = scaled m d := by
    by_cases hm : m = 0
    · exact ⟨-1074, ⟨h.mantissa, le_rfl, by norm_num⟩, h'.least, by simp [scaled, hm]⟩
    · exact ⟨e, h.toFits, exponent_le h h' hm hlt.le, rfl⟩
  rw [heq, scaled_eq hle, scaled_lt_scaled] at hlt
  rw [heq, scaled_eq hle]
  obtain ⟨j, hj⟩ := heven
  obtain ⟨j', hj'⟩ := heven'.mul_right (2 ^ (e' - d).toNat)
  have hmantissa := hfits.mantissa
  exact ⟨m + 1, d, ⟨by omega, hfits.least, hfits.greatest⟩, scaled_lt_scaled.2 (by omega),
    scaled_lt_scaled.2 (by omega)⟩

/-- Of two nearest numbers, none is greater. -/
theorem scaled_le (h : Nearest q (.finite false m e)) (h' : Nearest q (.finite false m' e')) :
    scaled m' e' ≤ scaled m e := by
  cases h with
  | finite hnormal hnear heven _ =>
    cases h' with
    | finite hnormal' hnear' heven' _ =>
      by_contra hgt
      have hlt := not_le.1 hgt
      have hsame : |scaled m e - q| = |scaled m' e' - q| :=
        le_antisymm (hnear _ _ hnormal'.toFits) (hnear' _ _ hnormal.toFits)
      obtain ⟨k, d, hfits, hbelow, habove⟩ := exists_between hnormal hnormal' hlt
        (heven _ _ hnormal'.toFits hlt.ne' hsame) (heven' _ _ hnormal.toFits hlt.ne hsame.symm)
      -- the fraction is in the middle, so what is between the two is nearer
      have hmiddle : scaled m e - q = -(scaled m' e' - q) :=
        (abs_eq_abs.1 hsame).resolve_left fun heq => hlt.ne (sub_left_injective heq)
      have hnearer : |scaled k d - q| < |scaled m e - q| := by
        rw [abs_of_neg (show scaled m e - q < 0 by linarith), abs_lt]
        constructor <;> linarith
      exact absurd (hnear k d hfits) (not_le.2 hnearer)

/-- There is one nearest number. -/
theorem unique (hx : Nearest q x) (hy : Nearest q y) : x = y := by
  have hsaved := hx
  have hsaved' := hy
  cases hx with
  | infinite hbound =>
    cases hy with
    | infinite => rfl
    | finite _ _ _ hlt => exact absurd hbound (not_le.2 hlt)
  | finite hnormal _ _ hlt =>
    cases hy with
    | infinite hbound => exact absurd hbound (not_le.2 hlt)
    | finite hnormal' _ _ _ =>
      have heq := le_antisymm (scaled_le hsaved' hsaved) (scaled_le hsaved hsaved')
      obtain ⟨rfl, rfl⟩ := normal_unique hnormal hnormal' heq
      rfl

end Nearest

end Chipwright.Decimal
