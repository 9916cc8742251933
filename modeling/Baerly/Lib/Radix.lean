import Mathlib.Data.List.Lex
import Mathlib.Data.Nat.Digits.Defs

/-
  Numbers written to a base, with a fixed number of digits.

  SPEC: the digits of a number that fits, padded with zeros (`padded_eq`), are as many as asked for,
  give the number back (`value_fixed`) and sort as the numbers do (`fixed_lt`).
-/

namespace Radix

variable {b w m n : Nat}

/-- The digits of `n`, most significant first; zero has one digit. -/
def rendered (b n : Nat) : List Nat := if n = 0 then [0] else (Nat.digits b n).reverse

/-- `padStart` with zeros. -/
def padded (w : Nat) (ds : List Nat) : List Nat := List.replicate (w - ds.length) 0 ++ ds

/-- The low `w` digits of `n`. -/
def fixed (b : Nat) : (w n : Nat) → List Nat
  | 0, _ => []
  | w + 1, n => fixed b w (n / b) ++ [n % b]

/-- The number some digits stand for. -/
def value (b : Nat) (ds : List Nat) : Nat := ds.foldl (fun acc d => acc * b + d) 0

@[simp] theorem length_fixed (b w n : Nat) : (fixed b w n).length = w := by
  induction w generalizing n with
  | zero => rfl
  | succ w ih => rw [fixed, List.length_append, ih, List.length_singleton]

/-- Zero is all zeros. -/
theorem fixed_zero (b w : Nat) : fixed b w 0 = List.replicate w 0 := by
  induction w with
  | zero => rfl
  | succ w ih => rw [fixed, Nat.zero_div, Nat.zero_mod, ih, List.replicate_succ']

/-- Digits are below the base. -/
theorem lt_of_mem_fixed (hb : 0 < b) {d : Nat} (h : d ∈ fixed b w n) : d < b := by
  induction w generalizing n with
  | zero => cases h
  | succ w ih =>
    rw [fixed, List.mem_append, List.mem_singleton] at h
    rcases h with h | rfl
    · exact ih h
    · exact Nat.mod_lt n hb

/-- Dividing by the base takes one digit. -/
theorem div_lt_pow (h : n < b ^ (w + 1)) : n / b < b ^ w := by
  refine Nat.div_lt_of_lt_mul ?_
  rwa [Nat.pow_succ, Nat.mul_comm] at h

/-- One digit more, and one place more to pad to. -/
theorem padded_snoc (w : Nat) (ds : List Nat) (d : Nat) :
    padded (w + 1) (ds ++ [d]) = padded w ds ++ [d] := by
  rw [padded, padded, List.length_append, List.length_singleton, Nat.add_sub_add_right,
    List.append_assoc]

/-- **Padded digits are those of the fixed width.** -/
theorem padded_digits (hb : 1 < b) (h : n < b ^ w) :
    padded w (Nat.digits b n).reverse = fixed b w n := by
  induction w generalizing n with
  | zero =>
    rw [Nat.pow_zero, Nat.lt_one_iff] at h
    rw [h, Nat.digits_zero]
    rfl
  | succ w ih =>
    rcases Nat.eq_zero_or_pos n with rfl | hpos
    · rw [Nat.digits_zero, fixed_zero]
      simp [padded]
    · rw [Nat.digits_def' hb hpos, List.reverse_cons, padded_snoc, ih (div_lt_pow h), fixed]

/-- **A number that fits is padded to its fixed form.** -/
theorem padded_eq (hb : 1 < b) (hw : 0 < w) (h : n < b ^ w) :
    padded w (rendered b n) = fixed b w n := by
  rcases Nat.eq_zero_or_pos n with rfl | hpos
  · obtain ⟨w, rfl⟩ := Nat.exists_eq_succ_of_ne_zero (show w ≠ 0 by omega)
    rw [fixed_zero, rendered, if_pos rfl, padded, List.length_singleton, Nat.succ_sub_one,
      List.replicate_succ']
  · rw [rendered, if_neg (by omega), padded_digits hb h]

/-- **The fixed form gives the number back.** -/
theorem value_fixed (h : n < b ^ w) : value b (fixed b w n) = n := by
  induction w generalizing n with
  | zero =>
    rw [Nat.pow_zero, Nat.lt_one_iff] at h
    rw [h]
    rfl
  | succ w ih =>
    have hrest : value b (fixed b w (n / b)) = n / b := ih (div_lt_pow h)
    rw [value] at hrest
    rw [value, fixed, List.foldl_append, hrest, List.foldl_cons, List.foldl_nil,
      Nat.mul_comm, Nat.div_add_mod]

/-- Words of one width sort before what follows them is looked at. -/
theorem append_lt_append {xs ys us vs : List Nat} (hlen : xs.length = ys.length) (h : xs < ys) :
    xs ++ us < ys ++ vs := by
  induction xs generalizing ys with
  | nil =>
    rw [List.length_nil] at hlen
    rw [List.length_eq_zero_iff.mp hlen.symm] at h
    exact absurd h (lt_irrefl _)
  | cons x xs ih =>
    cases ys with
    | nil => exact absurd h (List.not_lt_nil _)
    | cons y ys =>
      rw [List.cons_append, List.cons_append, List.cons_lt_cons_iff]
      rcases List.cons_lt_cons_iff.mp h with hxy | ⟨rfl, hrest⟩
      · exact Or.inl hxy
      · exact Or.inr ⟨rfl, ih (by simpa using hlen) hrest⟩

/-- **Fixed forms sort as the numbers do.** -/
theorem fixed_lt (hn : n < b ^ w) (h : m < n) : fixed b w m < fixed b w n := by
  induction w generalizing m n with
  | zero =>
    rw [Nat.pow_zero, Nat.lt_one_iff] at hn
    omega
  | succ w ih =>
    rw [fixed, fixed]
    rcases Nat.lt_or_ge (m / b) (n / b) with hlt | hge
    · exact append_lt_append (by simp) (ih (div_lt_pow hn) hlt)
    · have heq : m / b = n / b := Nat.le_antisymm (Nat.div_le_div_right h.le) hge
      have hm := Nat.div_add_mod m b
      have hn' := Nat.div_add_mod n b
      have hlow : m % b < n % b := by
        rw [heq] at hm
        omega
      rw [heq]
      exact List.append_left_lt (List.cons_lt_cons_iff.mpr (Or.inl hlow))

end Radix
