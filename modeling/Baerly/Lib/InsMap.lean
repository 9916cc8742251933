import Mathlib.Algebra.Ring.Nat
import Mathlib.Data.List.Nodup

/-
  Insertion-ordered maps: what a JavaScript `Map` is.

  A `Map` iterates its entries in the order their keys were FIRST set; setting a present key
  replaces its value in place, deleting drops the entry, and setting it again appends.  `InsMap`
  is that list of entries together with the proof that no key occurs twice, so a duplicate entry
  cannot be built.

  Two maps with the same `get` are the same map up to iteration order (`perm_of_get_eq`), which
  is the notion of equality the folds below are compared with.
-/

/-- A map that remembers the order in which its keys were first set. -/
structure InsMap (κ ν : Type) where
  entries : List (κ × ν)
  nodup : (entries.map Prod.fst).Nodup

namespace InsMap

variable {κ ν : Type} [DecidableEq κ]

/-- `new Map()`. -/
def empty : InsMap κ ν := ⟨[], List.nodup_nil⟩

/-- `map.get(k)`. -/
def get (m : InsMap κ ν) (k : κ) : Option ν :=
  m.entries.lookup k

/-- `map.has(k)`. -/
def has (m : InsMap κ ν) (k : κ) : Bool :=
  (m.get k).isSome

/-- `map.size`. -/
def size (m : InsMap κ ν) : Nat :=
  m.entries.length

/-! ## Updates on the entry list -/

/-- The first pair answers its own key. -/
theorem lookup_cons_self (k : κ) (v : ν) (l : List (κ × ν)) :
    ((k, v) :: l).lookup k = some v := by
  simp

/-- And no other. -/
theorem lookup_cons_ne {k j : κ} (h : j ≠ k) (v : ν) (l : List (κ × ν)) :
    ((k, v) :: l).lookup j = l.lookup j := by
  rw [List.lookup_cons, beq_eq_false_iff_ne.mpr h]

/-- Replace the value of `k` where it stands, or append it. -/
def setEntry (k : κ) (v : ν) : List (κ × ν) → List (κ × ν)
  | [] => [(k, v)]
  | (k', v') :: rest => if k' = k then (k, v) :: rest else (k', v') :: setEntry k v rest

/-- Setting brings in its own key only. -/
theorem mem_keys_setEntry {k j : κ} {v : ν} {l : List (κ × ν)}
    (h : j ∈ (setEntry k v l).map Prod.fst) : j = k ∨ j ∈ l.map Prod.fst := by
  induction l with
  | nil => simpa [setEntry] using h
  | cons e rest ih =>
    obtain ⟨k', v'⟩ := e
    by_cases hk : k' = k
    · simp only [setEntry, if_pos hk, List.map_cons, List.mem_cons] at h ⊢
      rcases h with h | h
      · exact Or.inl h
      · exact Or.inr (Or.inr h)
    · simp only [setEntry, if_neg hk, List.map_cons, List.mem_cons] at h ⊢
      rcases h with h | h
      · exact Or.inr (Or.inl h)
      · rcases ih h with h | h
        · exact Or.inl h
        · exact Or.inr (Or.inr h)

/-- Each key is there once, before and after. -/
theorem nodup_setEntry {k : κ} {v : ν} {l : List (κ × ν)} (h : (l.map Prod.fst).Nodup) :
    ((setEntry k v l).map Prod.fst).Nodup := by
  induction l with
  | nil => simp [setEntry]
  | cons e rest ih =>
    obtain ⟨k', v'⟩ := e
    simp only [List.map_cons, List.nodup_cons] at h
    by_cases hk : k' = k
    · subst hk
      simp only [setEntry, if_pos, List.map_cons, List.nodup_cons]
      exact h
    · simp only [setEntry, if_neg hk, List.map_cons, List.nodup_cons]
      refine ⟨?_, ih h.2⟩
      intro hmem
      rcases mem_keys_setEntry hmem with h' | h'
      · exact hk h'
      · exact h.1 h'

/-- What is set is found, and everything else as before. -/
theorem lookup_setEntry (k j : κ) (v : ν) (l : List (κ × ν)) :
    (setEntry k v l).lookup j = if j = k then some v else l.lookup j := by
  induction l with
  | nil =>
    by_cases hj : j = k
    · rw [setEntry, hj, lookup_cons_self, if_pos rfl]
    · rw [setEntry, lookup_cons_ne hj, if_neg hj]
  | cons e rest ih =>
    obtain ⟨k', v'⟩ := e
    by_cases hk : k' = k
    · rw [setEntry, if_pos hk]
      by_cases hj : j = k
      · rw [hj, lookup_cons_self, if_pos rfl]
      · rw [lookup_cons_ne hj, if_neg hj, lookup_cons_ne (by rw [hk]; exact hj)]
    · rw [setEntry, if_neg hk]
      by_cases hj : j = k'
      · rw [hj, lookup_cons_self, if_neg hk, lookup_cons_self]
      · rw [lookup_cons_ne hj, ih, lookup_cons_ne hj]

/-- `map.set(k, v)`. -/
def set (m : InsMap κ ν) (k : κ) (v : ν) : InsMap κ ν :=
  ⟨setEntry k v m.entries, nodup_setEntry m.nodup⟩

/-- `map.delete(k)`. -/
def erase (m : InsMap κ ν) (k : κ) : InsMap κ ν :=
  ⟨m.entries.filter fun e => e.1 ≠ k, by
    have hsub : (m.entries.filter fun e => e.1 ≠ k).Sublist m.entries := List.filter_sublist
    exact (hsub.map Prod.fst).nodup m.nodup⟩

/-! ## What a lookup sees -/

@[simp] theorem get_empty (k : κ) : (empty : InsMap κ ν).get k = none := rfl

@[simp] theorem get_set (m : InsMap κ ν) (k j : κ) (v : ν) :
    (m.set k v).get j = if j = k then some v else m.get j :=
  lookup_setEntry k j v m.entries

/-- What is erased is gone, and everything else as before. -/
theorem lookup_filter_ne (k j : κ) (l : List (κ × ν)) :
    (l.filter fun e => e.1 ≠ k).lookup j = if j = k then none else l.lookup j := by
  induction l with
  | nil => simp
  | cons e rest ih =>
    obtain ⟨k', v'⟩ := e
    by_cases hk : k' = k
    · rw [List.filter_cons_of_neg (by simpa using hk), ih]
      by_cases hj : j = k
      · rw [if_pos hj, if_pos hj]
      · rw [if_neg hj, if_neg hj, lookup_cons_ne (by rw [hk]; exact hj)]
    · rw [List.filter_cons_of_pos (by simpa using hk)]
      by_cases hj : j = k'
      · rw [hj, lookup_cons_self, if_neg hk, lookup_cons_self]
      · rw [lookup_cons_ne hj, ih, lookup_cons_ne hj]

@[simp] theorem get_erase (m : InsMap κ ν) (k j : κ) :
    (m.erase k).get j = if j = k then none else m.get j :=
  lookup_filter_ne k j m.entries

/-- With distinct keys, a pair that is there is found. -/
theorem lookup_eq_some_of_mem {l : List (κ × ν)} (hl : (l.map Prod.fst).Nodup) {k : κ} {v : ν}
    (h : (k, v) ∈ l) : l.lookup k = some v := by
  induction l with
  | nil => cases h
  | cons e rest ih =>
    obtain ⟨k', v'⟩ := e
    simp only [List.map_cons, List.nodup_cons] at hl
    rcases List.mem_cons.mp h with heq | hrest
    · cases heq
      exact lookup_cons_self k v rest
    · have hne : k ≠ k' := by
        rintro rfl
        exact hl.1 (List.mem_map.mpr ⟨(k, v), hrest, rfl⟩)
      rw [lookup_cons_ne hne]
      exact ih hl.2 hrest

/-- What is found is there. -/
theorem mem_of_lookup_eq_some {l : List (κ × ν)} {k : κ} {v : ν} (h : l.lookup k = some v) :
    (k, v) ∈ l := by
  induction l with
  | nil => cases h
  | cons e rest ih =>
    obtain ⟨k', v'⟩ := e
    by_cases hk : k = k'
    · subst hk
      rw [lookup_cons_self] at h
      cases h
      exact List.mem_cons_self
    · rw [lookup_cons_ne hk] at h
      exact List.mem_cons_of_mem _ (ih h)

/-- The entries are the graph of `get`. -/
theorem mem_entries {m : InsMap κ ν} {k : κ} {v : ν} : (k, v) ∈ m.entries ↔ m.get k = some v :=
  ⟨lookup_eq_some_of_mem m.nodup, mem_of_lookup_eq_some⟩

/-- The map a list of entries builds when they are `set` one after the other. -/
def ofList (l : List (κ × ν)) : InsMap κ ν :=
  l.foldl (fun m e => m.set e.1 e.2) empty

/-- Setting a list of pairs one by one: the pairs come before what was there. -/
theorem get_foldl_set (l : List (κ × ν)) (hl : (l.map Prod.fst).Nodup) (m : InsMap κ ν) (k : κ) :
    (l.foldl (fun m e => m.set e.1 e.2) m).get k = (l.lookup k).or (m.get k) := by
  induction l generalizing m with
  | nil => simp
  | cons e rest ih =>
    obtain ⟨k', v'⟩ := e
    simp only [List.map_cons, List.nodup_cons] at hl
    rw [List.foldl_cons, ih hl.2, get_set]
    by_cases hk : k = k'
    · have hnone : rest.lookup k = none := by
        cases hr : rest.lookup k with
        | none => rfl
        | some v =>
          have hmem : k ∈ rest.map Prod.fst :=
            List.mem_map.mpr ⟨(k, v), mem_of_lookup_eq_some hr, rfl⟩
          exact absurd (hk ▸ hmem) hl.1
      rw [hnone, if_pos hk, hk, lookup_cons_self]
      rfl
    · rw [if_neg hk, lookup_cons_ne hk]

/-- A map made of pairs answers as the pairs do. -/
theorem get_ofList {l : List (κ × ν)} (hl : (l.map Prod.fst).Nodup) (k : κ) :
    (ofList l).get k = l.lookup k := by
  rw [ofList, get_foldl_set l hl]
  cases l.lookup k <;> rfl

/-! ## Sums over the entries -/

/-- A sum over the entries after `map.set(k, v)`: the old value of `k` goes, the new one comes. -/
theorem sum_setEntry (f : κ → ν → Nat) (k : κ) (v : ν) (l : List (κ × ν)) :
    ((setEntry k v l).map fun e => f e.1 e.2).sum + ((l.lookup k).map (f k)).getD 0 =
      (l.map fun e => f e.1 e.2).sum + f k v := by
  induction l with
  | nil => simp [setEntry]
  | cons e rest ih =>
    obtain ⟨k', v'⟩ := e
    by_cases hk : k' = k
    · rw [setEntry, if_pos hk, hk, lookup_cons_self]
      simp only [List.map_cons, List.sum_cons, Option.map_some, Option.getD_some]
      omega
    · rw [setEntry, if_neg hk, lookup_cons_ne (Ne.symm hk)]
      simp only [List.map_cons, List.sum_cons]
      omega

/-- The entries of a map, each weighed by `f`. -/
def total (f : κ → ν → Nat) (m : InsMap κ ν) : Nat :=
  (m.entries.map fun e => f e.1 e.2).sum

omit [DecidableEq κ] in
theorem total_empty (f : κ → ν → Nat) : (empty : InsMap κ ν).total f = 0 := rfl

/-- A sum over the entries grows by what is set, less what it replaces. -/
theorem total_set (f : κ → ν → Nat) (m : InsMap κ ν) (k : κ) (v : ν) :
    (m.set k v).total f + ((m.get k).map (f k)).getD 0 = m.total f + f k v :=
  sum_setEntry f k v m.entries

/-- And shrinks by what is erased. -/
theorem total_erase (f : κ → ν → Nat) (m : InsMap κ ν) (k : κ) :
    (m.erase k).total f + ((m.get k).map (f k)).getD 0 = m.total f := by
  obtain ⟨l, hl⟩ := m
  show ((l.filter fun e => e.1 ≠ k).map fun e => f e.1 e.2).sum +
    ((l.lookup k).map (f k)).getD 0 = (l.map fun e => f e.1 e.2).sum
  induction l with
  | nil => rfl
  | cons e rest ih =>
    obtain ⟨k', v'⟩ := e
    rw [List.map_cons, List.nodup_cons] at hl
    by_cases hk : k' = k
    · -- the key occurs once, so the rest is as it was
      subst hk
      have hrest : (rest.filter fun e => e.1 ≠ k') = rest := by
        rw [List.filter_eq_self]
        intro e he
        rw [decide_eq_true_iff]
        exact fun heq => hl.1 (List.mem_map.mpr ⟨e, he, heq⟩)
      rw [List.filter_cons_of_neg (by simp), hrest, lookup_cons_self]
      simp only [List.map_cons, List.sum_cons, Option.map_some, Option.getD_some]
      omega
    · rw [List.filter_cons_of_pos (by simpa using hk), lookup_cons_ne (Ne.symm hk)]
      simp only [List.map_cons, List.sum_cons]
      have hih := ih hl.2
      omega

omit [DecidableEq κ] in
theorem total_one (m : InsMap κ ν) : m.total (fun _ _ => 1) = m.size := by
  rw [total, List.map_const', List.sum_replicate_nat, Nat.mul_one]
  rfl

omit [DecidableEq κ] in
/-- The sum does not depend on the order. -/
theorem sum_of_perm (f : κ → ν → Nat) {m : InsMap κ ν} {l : List (κ × ν)}
    (h : l.Perm m.entries) : (l.map fun e => f e.1 e.2).sum = m.total f :=
  (h.map _).sum_nat

/-- **Extensionality up to order.**  Maps with the same lookups hold the same entries. -/
theorem perm_of_get_eq {m m' : InsMap κ ν} (h : ∀ k, m.get k = m'.get k) :
    m.entries.Perm m'.entries := by
  have hm : m.entries.Nodup := List.Nodup.of_map _ m.nodup
  have hm' : m'.entries.Nodup := List.Nodup.of_map _ m'.nodup
  refine (List.perm_ext_iff_of_nodup hm hm').mpr ?_
  rintro ⟨k, v⟩
  rw [mem_entries, mem_entries, h k]

end InsMap
