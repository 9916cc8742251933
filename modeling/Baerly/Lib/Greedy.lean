import Mathlib.Data.List.Basic

/-
  Cutting a list into blocks, greedily.

  PROGRAM: a block is the longest beginning of what is left that has at most `rows` items and stays
  within a weight limit; where not even one item does, it is that item alone.

  SPEC: the blocks are the list (`flatten_blocks`), none is empty, and each is within the limits or a
  single item (`mem_blocks`).
-/

namespace Greedy

variable {α : Type} (weight : List α → Nat) (limit : Nat)

/-- How many items the next block takes, of at most `n`. -/
def cut (xs : List α) : (n : Nat) → Nat
  | 0 => 1
  | n + 1 => if weight (xs.take (n + 1)) ≤ limit then n + 1 else cut xs n

variable (rows : Nat)

/-- The blocks of a list; each takes an item off, so the length is fuel enough. -/
def blocksFrom : (fuel : Nat) → List α → List (List α)
  | _, [] => []
  | 0, xs => [xs]
  | fuel + 1, xs =>
    let k := cut weight limit xs (min rows xs.length)
    xs.take k :: blocksFrom fuel (xs.drop k)

/-- The blocks of a list. -/
def blocks (xs : List α) : List (List α) := blocksFrom weight limit rows xs.length xs

/-- A block has at least one item. -/
theorem cut_pos (xs : List α) (n : Nat) : 0 < cut weight limit xs n := by
  induction n with
  | zero => exact Nat.zero_lt_one
  | succ n ih =>
    rw [cut]
    split
    · omega
    · exact ih

/-- And no more than it was given. -/
theorem cut_le (xs : List α) {n : Nat} (hn : 0 < n) : cut weight limit xs n ≤ n := by
  induction n with
  | zero => omega
  | succ n ih =>
    rw [cut]
    split
    · exact Nat.le_refl _
    · cases n with
      | zero => exact Nat.le_refl _
      | succ n => exact Nat.le_succ_of_le (ih (Nat.succ_pos n))

/-- It fits the limit, or is a single item. -/
theorem weight_cut (xs : List α) (n : Nat) :
    weight (xs.take (cut weight limit xs n)) ≤ limit ∨ cut weight limit xs n = 1 := by
  induction n with
  | zero => exact Or.inr rfl
  | succ n ih =>
    rw [cut]
    split
    next h => exact Or.inl h
    next => exact ih

/-- The first block is as long as it may be, and the rest is cut after it. -/
theorem blocksFrom_cons (fuel : Nat) {xs : List α} (hxs : xs ≠ []) :
    blocksFrom weight limit rows (fuel + 1) xs =
      xs.take (cut weight limit xs (min rows xs.length)) ::
        blocksFrom weight limit rows fuel (xs.drop (cut weight limit xs (min rows xs.length))) := by
  obtain ⟨x, xs, rfl⟩ := List.exists_cons_of_ne_nil hxs
  rfl

variable {weight limit rows}

/-- **No item is lost or moved.** -/
theorem flatten_blocksFrom (fuel : Nat) (xs : List α) :
    (blocksFrom weight limit rows fuel xs).flatten = xs := by
  induction fuel generalizing xs with
  | zero =>
    cases xs with
    | nil => rfl
    | cons x xs => simp [blocksFrom]
  | succ fuel ih =>
    cases xs with
    | nil => rfl
    | cons x xs =>
      rw [blocksFrom_cons _ _ _ fuel (List.cons_ne_nil x xs), List.flatten_cons, ih,
        List.take_append_drop]

/-- **The blocks are the list.** -/
theorem flatten_blocks (xs : List α) : (blocks weight limit rows xs).flatten = xs :=
  flatten_blocksFrom xs.length xs

/-- A block: not empty, and within the limits unless it is a single item. -/
def IsBlock (weight : List α → Nat) (limit rows : Nat) (b : List α) : Prop :=
  b ≠ [] ∧ (weight b ≤ limit ∨ b.length = 1) ∧ b.length ≤ rows

/-- **Every block is as it should be.** -/
theorem mem_blocksFrom (hrows : 0 < rows) {fuel : Nat} {xs b : List α} (hfuel : xs.length ≤ fuel)
    (h : b ∈ blocksFrom weight limit rows fuel xs) : IsBlock weight limit rows b := by
  induction fuel generalizing xs with
  | zero =>
    rw [List.length_eq_zero_iff.mp (Nat.le_zero.mp hfuel)] at h
    cases h
  | succ fuel ih =>
    cases xs with
    | nil => cases h
    | cons x xs =>
      rw [blocksFrom_cons _ _ _ fuel (List.cons_ne_nil x xs)] at h
      have hlong : (x :: xs).length = xs.length + 1 := rfl
      have hpos := cut_pos weight limit (x :: xs) (min rows (x :: xs).length)
      have hle := cut_le weight limit (x :: xs) (show 0 < min rows (x :: xs).length by omega)
      rcases List.mem_cons.mp h with rfl | h
      · have hlen : ((x :: xs).take (cut weight limit (x :: xs) (min rows (x :: xs).length))).length =
            cut weight limit (x :: xs) (min rows (x :: xs).length) := by
          rw [List.length_take]
          omega
        refine ⟨List.ne_nil_of_length_pos (by omega), ?_, by omega⟩
        rw [hlen]
        exact weight_cut weight limit _ _
      · refine ih ?_ h
        rw [List.length_drop]
        omega

/-- **Every block is one.** -/
theorem mem_blocks (hrows : 0 < rows) {xs b : List α} (h : b ∈ blocks weight limit rows xs) :
    IsBlock weight limit rows b :=
  mem_blocksFrom hrows (Nat.le_refl _) h

end Greedy
