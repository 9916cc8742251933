import Baerly.Snapshot

/-
  Safe integers as doubles: `Number.isSafeInteger`, and the double of a count.

  SPEC: the safe integers are the doubles that read back (`JsNumber.safeNat?_iff`).

  CRUX: a significand is shifted until its first bit is bit 52, and shifted back.
-/

namespace Baerly

/-- The magnitude bits of a safe integer: exponent and fraction of the double. -/
def safeBits (n : Nat) : Nat :=
  if n = 0 then 0 else (n.log2 + 1022) * 2 ^ 52 + n * 2 ^ (52 - n.log2)

theorem lt_of_safe {n : Nat} (h : n ≤ maxSafeInteger) : n < 2 ^ 53 := by
  unfold maxSafeInteger at h
  omega

/-- The significand, shifted so that its first bit is bit 52. -/
theorem significand_range {n : Nat} (hpos : n ≠ 0) (hn : n < 2 ^ 53) :
    n.log2 < 53 ∧ 2 ^ 52 ≤ n * 2 ^ (52 - n.log2) ∧ n * 2 ^ (52 - n.log2) < 2 ^ 53 := by
  have hlog : n.log2 < 53 := (Nat.log2_lt hpos).mpr hn
  refine ⟨hlog, ?_, ?_⟩
  · calc 2 ^ 52 = 2 ^ n.log2 * 2 ^ (52 - n.log2) := by rw [← Nat.pow_add]; congr 1; omega
      _ ≤ n * 2 ^ (52 - n.log2) := Nat.mul_le_mul_right _ (Nat.log2_self_le hpos)
  · calc n * 2 ^ (52 - n.log2)
        < 2 ^ (n.log2 + 1) * 2 ^ (52 - n.log2) :=
          Nat.mul_lt_mul_of_pos_right Nat.lt_log2_self (Nat.two_pow_pos _)
      _ = 2 ^ 53 := by rw [← Nat.pow_add]; congr 1; omega

theorem safeBits_lt {n : Nat} (h : n ≤ maxSafeInteger) : (safeBits n : Int) < infinityBits := by
  unfold safeBits
  split
  next => decide
  next hpos =>
    obtain ⟨hlog, -, hhigh⟩ := significand_range hpos (lt_of_safe h)
    unfold infinityBits
    omega

/-- The double of a safe integer; only those are asked for. -/
def JsNumber.ofNat (n : Nat) : JsNumber where
  ord := (safeBits (min n maxSafeInteger) : Int)
  finite := by
    have hlt := safeBits_lt (Nat.min_le_right n maxSafeInteger)
    unfold infinityBits at *
    omega

/-- The integer of the magnitude bits of a safe integer. -/
def safeValue (bits : Nat) : Nat :=
  if bits = 0 then 0 else (2 ^ 52 + bits % 2 ^ 52) / 2 ^ (1075 - bits / 2 ^ 52)

/-- `Number.isSafeInteger(x) && x >= 0`, with the integer. -/
def JsNumber.safeNat? (x : JsNumber) : Option Nat :=
  let n := safeValue x.ord.toNat
  if x = JsNumber.ofNat n ∧ n ≤ maxSafeInteger then some n else none

theorem safeValue_safeBits {n : Nat} (h : n ≤ maxSafeInteger) : safeValue (safeBits n) = n := by
  by_cases hzero : n = 0
  · rw [hzero]
    rfl
  obtain ⟨hlog, hlow, hhigh⟩ := significand_range hzero (lt_of_safe h)
  have hbits : safeBits n = (n.log2 + 1022) * 2 ^ 52 + n * 2 ^ (52 - n.log2) := if_neg hzero
  have hexponent : safeBits n / 2 ^ 52 = n.log2 + 1023 := by omega
  have hfraction : 2 ^ 52 + safeBits n % 2 ^ 52 = n * 2 ^ (52 - n.log2) := by omega
  have hne : safeBits n ≠ 0 := by omega
  rw [safeValue, if_neg hne, hfraction, hexponent, show 1075 - (n.log2 + 1023) = 52 - n.log2 by omega]
  exact Nat.mul_div_cancel n (Nat.two_pow_pos _)

/-- **The safe integers are the doubles that read back.** -/
theorem JsNumber.safeNat?_iff {x : JsNumber} {n : Nat} :
    x.safeNat? = some n ↔ x = JsNumber.ofNat n ∧ n ≤ maxSafeInteger := by
  unfold JsNumber.safeNat?
  dsimp only
  constructor
  · intro h
    split at h
    next hsafe =>
      cases h
      exact hsafe
    next => cases h
  · rintro ⟨rfl, hn⟩
    have hvalue : safeValue (JsNumber.ofNat n).ord.toNat = n := by
      show safeValue (safeBits (min n maxSafeInteger)) = n
      rw [Nat.min_eq_left hn, safeValue_safeBits hn]
    rw [hvalue, if_pos ⟨rfl, hn⟩]

end Baerly
