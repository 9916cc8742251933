import Mathlib.Order.Basic

/-
  The halving loop over an interval of indices.

  SPEC (`search_spec`): if the test holds exactly up to somewhere, the loop returns where it stops.
  The fuel is the length of the interval: a round shortens it.
-/

namespace Bisect

/-- `while (low < high)`: test the middle, and go on right of it if the test holds, else left. -/
def search (before : Nat → Bool) : (fuel low high : Nat) → Nat
  | 0, low, _ => low
  | fuel + 1, low, high =>
    if low < high then
      let middle := low + (high - low) / 2
      if before middle then search before fuel (middle + 1) high
      else search before fuel low middle
    else low

variable {before : Nat → Bool}

/-- A test that holds of an index holds of every earlier one. -/
def Initial (before : Nat → Bool) : Prop :=
  ∀ j k, j ≤ k → before k = true → before j = true

theorem search_spec (h : Initial before) : ∀ fuel low high, high - low ≤ fuel → low ≤ high →
    (∀ j, j < low → before j = true) → (∀ j, high ≤ j → before j = false) →
    (∀ j, j < search before fuel low high → before j = true) ∧
      ∀ j, search before fuel low high ≤ j → before j = false := by
  intro fuel
  induction fuel with
  | zero =>
    intro low high hfuel hle hlow hhigh
    have heq : low = high := by omega
    exact ⟨hlow, heq ▸ hhigh⟩
  | succ fuel ih =>
    intro low high hfuel hle hlow hhigh
    rw [search]
    split
    next hlt =>
      dsimp only
      split
      next hmid =>
        -- everything up to the middle passes with it
        apply ih _ _ (by omega) (by omega) _ hhigh
        intro j hj
        exact h j _ (show j ≤ low + (high - low) / 2 by omega) hmid
      next hmid =>
        -- nothing from the middle on passes
        apply ih _ _ (by omega) (by omega) hlow
        intro j hj
        rw [← Bool.not_eq_true]
        intro hpass
        exact hmid (h _ j hj hpass)
    next hge =>
      have heq : low = high := by omega
      exact ⟨hlow, heq ▸ hhigh⟩

/-- The search over a list of `n` items. -/
theorem search_length (h : Initial before) {n : Nat} (hout : ∀ j, n ≤ j → before j = false) :
    (∀ j, j < search before n 0 n → before j = true) ∧
      (∀ j, search before n 0 n ≤ j → before j = false) ∧ search before n 0 n ≤ n := by
  obtain ⟨hbelow, habove⟩ := search_spec h n 0 n (by omega) (by omega)
    (fun j hj => absurd hj (Nat.not_lt_zero j)) hout
  refine ⟨hbelow, habove, ?_⟩
  by_contra hgt
  have hpass := hbelow n (by omega)
  rw [hout n (Nat.le_refl n)] at hpass
  cases hpass

end Bisect
