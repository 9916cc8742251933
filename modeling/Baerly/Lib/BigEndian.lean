import Baerly.Lib.Width

/-
  Big-endian bytes of a number, and the order they sort in.

  SPEC: numbers that fit compare as their bytes do (`bigEndian_lt`), and flipping every byte turns
  the order of byte strings of one length around (`complement_lt`).
-/

namespace BigEndian

/-- The low `w` bytes of `m`, most significant first. -/
def bigEndian : (w m : Nat) → List (Fin 256)
  | 0, _ => []
  | w + 1, m => Fin.ofNat 256 (m / 256 ^ w) :: bigEndian w m

@[simp] theorem length_bigEndian (w m : Nat) : (bigEndian w m).length = w := by
  induction w with
  | zero => rfl
  | succ w ih => rw [bigEndian, List.length_cons, ih]

/-- The two parts of a number cut at one digit. -/
theorem lt_parts {P a b r s : Nat} (hs : s < P) (h : r + P * a < s + P * b) :
    a < b ∨ (a = b ∧ r < s) := by
  rcases Nat.lt_trichotomy a b with hlt | heq | hgt
  · exact Or.inl hlt
  · subst heq
    exact Or.inr ⟨rfl, by omega⟩
  · have hmul : P * (b + 1) ≤ P * a := Nat.mul_le_mul_left P hgt
    rw [Nat.mul_succ] at hmul
    omega

/-- **Bytes sort as the numbers they hold.** -/
theorem bigEndian_lt {w m n : Nat} (h : m % 256 ^ w < n % 256 ^ w) : bigEndian w m < bigEndian w n := by
  induction w with
  | zero =>
    rw [Nat.pow_zero, Nat.mod_one, Nat.mod_one] at h
    exact absurd h (Nat.lt_irrefl 0)
  | succ w ih =>
    have hpos : 0 < 256 ^ w := Nat.pow_pos (by decide)
    rw [Nat.pow_succ, Nat.mod_mul, Nat.mod_mul] at h
    rw [bigEndian, bigEndian, List.cons_lt_cons_iff]
    rcases lt_parts (Nat.mod_lt n hpos) h with hlt | ⟨heq, hrest⟩
    · exact Or.inl hlt
    · exact Or.inr ⟨Fin.ext heq, ih hrest⟩

/-- Flip every bit of a byte. -/
def flip (b : Fin 256) : Fin 256 := b ^^^ 255

/-- A flipped byte is the complement. -/
theorem flip_val : ∀ b : Fin 256, (flip b).val = 255 - b.val := by decide +kernel

/-- Complements sort the other way round. -/
theorem complement_lt {xs ys : List (Fin 256)} (hlen : xs.length = ys.length) (h : xs < ys) :
    ys.map flip < xs.map flip := by
  induction xs generalizing ys with
  | nil =>
    rw [List.length_nil] at hlen
    rw [List.length_eq_zero_iff.mp hlen.symm] at h
    exact absurd h (lt_irrefl _)
  | cons x xs ih =>
    cases ys with
    | nil => exact absurd h (List.not_lt_nil _)
    | cons y ys =>
      rw [List.length_cons, List.length_cons] at hlen
      rw [List.map_cons, List.map_cons, List.cons_lt_cons_iff]
      rcases List.cons_lt_cons_iff.mp h with hxy | ⟨rfl, hrest⟩
      · left
        have hx := flip_val x
        have hy := flip_val y
        have hylt := y.isLt
        show (flip y).val < (flip x).val
        rw [hx, hy]
        have hxy' : x.val < y.val := hxy
        omega
      · exact Or.inr ⟨rfl, ih (by omega) hrest⟩

end BigEndian
