import Mathlib.Algebra.Order.Field.Rat
import Mathlib.Algebra.Order.Field.Basic
import Mathlib.Tactic.Ring

/-
  IEEE-754 doubles by their bits: one sign bit, eleven of exponent, fifty-two of fraction.

  SPEC: `value` is what a finite pattern stands for.  Patterns of one sign sort as their values do
  (`units_lt`), so numeric order is the order of the signed magnitude bits (`value_lt_iff`).

  `nearest` is the rounding of an integer to a double, ties to even.
-/

namespace Float64

/-! ## Patterns and their values -/

def exponent (bits : Nat) : Nat := bits / 2 ^ 52 % 2 ^ 11

def fraction (bits : Nat) : Nat := bits % 2 ^ 52

/-- Neither an infinity nor a `NaN`. -/
def Finite (bits : Nat) : Prop := bits < 2 ^ 64 ∧ exponent bits ≠ 2047

instance (bits : Nat) : Decidable (Finite bits) := inferInstanceAs (Decidable (_ ∧ _))

/-- All exponent bits set and some fraction bit. -/
def isNaN (bits : Nat) : Bool := exponent bits = 2047 ∧ fraction bits ≠ 0

/-- The magnitude, in multiples of the smallest subnormal. -/
def units (bits : Nat) : Nat :=
  if exponent bits = 0 then fraction bits
  else (2 ^ 52 + fraction bits) * 2 ^ (exponent bits - 1)

/-- The number a finite pattern stands for. -/
def value (bits : Nat) : ℚ :=
  (if bits < 2 ^ 63 then (units bits : ℚ) else -(units bits : ℚ)) / 2 ^ 1074

/-- The magnitude bits with their sign; both zeros are `0`. -/
def ord (bits : Nat) : Int :=
  if bits < 2 ^ 63 then (bits : Int) else -((bits - 2 ^ 63 : Nat) : Int)

/-! ## Order -/

theorem parts (bits : Nat) (h : bits < 2 ^ 63) :
    bits = exponent bits * 2 ^ 52 + fraction bits ∧ fraction bits < 2 ^ 52 := by
  unfold exponent fraction
  omega

/-- The sign bit is no part of the magnitude. -/
theorem units_abs {bits : Nat} (h : bits < 2 ^ 64) (hneg : ¬ bits < 2 ^ 63) :
    units bits = units (bits - 2 ^ 63) := by
  have he : exponent bits = exponent (bits - 2 ^ 63) := by
    unfold exponent
    omega
  have hf : fraction bits = fraction (bits - 2 ^ 63) := by
    unfold fraction
    omega
  unfold units
  rw [he, hf]

/-- A larger exponent is a larger magnitude: one binade ends where the next begins. -/
theorem units_lt_of_exponent {m n : Nat} (hm : fraction m < 2 ^ 52)
    (h : exponent m < exponent n) : units m < units n := by
  have hn : exponent n ≠ 0 := by omega
  have hlow : 2 ^ 52 * 2 ^ (exponent n - 1) ≤ units n := by
    rw [units, if_neg hn]
    exact Nat.mul_le_mul_right _ (Nat.le_add_right _ _)
  refine Nat.lt_of_lt_of_le ?_ hlow
  unfold units
  split
  next =>
    calc fraction m < 2 ^ 52 := hm
      _ ≤ 2 ^ 52 * 2 ^ (exponent n - 1) := Nat.le_mul_of_pos_right _ (Nat.pow_pos (by decide))
  next hne =>
    have hstep : exponent m - 1 + 1 ≤ exponent n - 1 := by omega
    calc (2 ^ 52 + fraction m) * 2 ^ (exponent m - 1)
        < (2 ^ 52 + 2 ^ 52) * 2 ^ (exponent m - 1) :=
          Nat.mul_lt_mul_of_pos_right (by omega) (Nat.pow_pos (by decide))
      _ = 2 ^ 52 * 2 ^ (exponent m - 1 + 1) := by ring
      _ ≤ 2 ^ 52 * 2 ^ (exponent n - 1) :=
          Nat.mul_le_mul_left _ (Nat.pow_le_pow_right (by decide) hstep)

/-- **Magnitudes sort as their bits do.** -/
theorem units_lt {m n : Nat} (hn : n < 2 ^ 63) (h : m < n) : units m < units n := by
  obtain ⟨hm', hfm⟩ := parts m (by omega)
  obtain ⟨hn', hfn⟩ := parts n hn
  rcases Nat.lt_trichotomy (exponent m) (exponent n) with he | he | he
  · exact units_lt_of_exponent hfm he
  · have hf : fraction m < fraction n := by
      rw [he] at hm'
      omega
    unfold units
    rw [he]
    split
    next => exact hf
    next => exact Nat.mul_lt_mul_of_pos_right (by omega) (Nat.pow_pos (by decide))
  · have hle : (exponent n + 1) * 2 ^ 52 ≤ exponent m * 2 ^ 52 := Nat.mul_le_mul_right _ he
    omega

theorem units_lt_iff {m n : Nat} (hm : m < 2 ^ 63) (hn : n < 2 ^ 63) :
    units m < units n ↔ m < n := by
  constructor
  · intro h
    rcases Nat.lt_trichotomy m n with hlt | heq | hgt
    · exact hlt
    · rw [heq] at h
      exact absurd h (Nat.lt_irrefl _)
    · exact absurd (units_lt hm hgt) (Nat.lt_asymm h)
  · exact units_lt hn

/-- The magnitude of a value, signed, as a whole number of subnormals. -/
theorem value_eq {bits : Nat} (h : bits < 2 ^ 64) : ∃ m : Nat, m < 2 ^ 63 ∧
    ((ord bits = m ∧ value bits = (units m : ℚ) / 2 ^ 1074) ∨
      (ord bits = -(m : Int) ∧ value bits = -(units m : ℚ) / 2 ^ 1074)) := by
  by_cases hpos : bits < 2 ^ 63
  · exact ⟨bits, hpos, Or.inl ⟨if_pos hpos, by rw [value, if_pos hpos]⟩⟩
  · refine ⟨bits - 2 ^ 63, by omega, Or.inr ⟨if_neg hpos, ?_⟩⟩
    rw [value, if_neg hpos, units_abs h hpos]

theorem units_zero : units 0 = 0 := by decide

theorem units_pos {m : Nat} (h : m < 2 ^ 63) : 0 < units m ↔ 0 < m := by
  have hiff := units_lt_iff (show (0 : Nat) < 2 ^ 63 by decide) h
  rwa [units_zero] at hiff

/-- **Numeric order is the order of the signed magnitude bits.** -/
theorem value_lt_iff {b c : Nat} (hb : b < 2 ^ 64) (hc : c < 2 ^ 64) :
    value b < value c ↔ ord b < ord c := by
  have hscale : (0 : ℚ) < 2 ^ 1074 := pow_pos two_pos 1074
  obtain ⟨m, hm, hb⟩ := value_eq hb
  obtain ⟨n, hn, hc⟩ := value_eq hc
  have hmn := units_lt_iff hm hn
  have hnm := units_lt_iff hn hm
  have hm0 := units_pos hm
  have hn0 := units_pos hn
  -- what is compared is a pair of signed magnitudes over one denominator
  have hcast : ∀ x y : Int, ((x : ℚ) / 2 ^ 1074 < (y : ℚ) / 2 ^ 1074 ↔ x < y) := fun x y => by
    rw [div_lt_div_iff_of_pos_right hscale, Int.cast_lt]
  rcases hb with ⟨hb, hvb⟩ | ⟨hb, hvb⟩
  · rcases hc with ⟨hc, hvc⟩ | ⟨hc, hvc⟩
    · rw [hb, hc, hvb, hvc]
      have h := hcast (units m) (units n)
      push_cast at h
      rw [h]
      omega
    · rw [hb, hc, hvb, hvc]
      have h := hcast (units m) (-(units n : Int))
      push_cast at h
      rw [h]
      omega
  · rcases hc with ⟨hc, hvc⟩ | ⟨hc, hvc⟩
    · rw [hb, hc, hvb, hvc]
      have h := hcast (-(units m : Int)) (units n)
      push_cast at h
      rw [h]
      omega
    · rw [hb, hc, hvb, hvc]
      have h := hcast (-(units m : Int)) (-(units n : Int))
      push_cast at h
      rw [h]
      omega

theorem value_eq_iff {b c : Nat} (hb : b < 2 ^ 64) (hc : c < 2 ^ 64) :
    value b = value c ↔ ord b = ord c := by
  have hlt := value_lt_iff hb hc
  have hgt := value_lt_iff hc hb
  rw [eq_iff_le_not_lt, ← not_lt, hlt, hgt]
  omega

/-! ## Whole numbers -/

/-- The double nearest to a natural number, ties to even. -/
def nearestNat (n : Nat) : Nat :=
  if n < 2 ^ 53 then n
  else
    let scale := 2 ^ (Nat.log2 n - 52)
    let q := n / scale
    let r := n % scale
    if 2 * r < scale ∨ (2 * r = scale ∧ q % 2 = 0) then q * scale else (q + 1) * scale

/-- The double nearest to an integer. -/
def nearest (n : Int) : Int := if 0 ≤ n then nearestNat n.natAbs else -nearestNat n.natAbs

/-- Whole numbers below `2 ^ 53` are doubles. -/
theorem nearest_of_lt {n : Int} (h : n.natAbs < 2 ^ 53) : nearest n = n := by
  unfold nearest nearestNat
  rw [if_pos h]
  split
  next => omega
  next => omega

end Float64
