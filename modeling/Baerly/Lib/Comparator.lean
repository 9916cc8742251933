import Mathlib.Data.List.Sort
import Mathlib.Data.List.Nodup

/-
  Comparators and the stable sort they determine.

  SPEC: `Consistent cmp xs` — by the sign of its result, `cmp` is a strict weak order on the
  elements of `xs`.  `StableSorted cmp xs ys` — `ys` lists `xs` in that order, elements that compare
  equal in the order they have in `xs`.

  CRUX: tagged with their positions, elements are never equal, so a list sorted by (comparator,
  position) is determined by its elements (`StableSorted.unique`).
-/

namespace Comparator

variable {α β : Type} {cmp : α → α → Int} {xs ys zs : List α}

/-- `cmp` is a strict weak order on the elements of `xs`. -/
structure Consistent (cmp : α → α → Int) (xs : List α) : Prop where
  gt_iff : ∀ a ∈ xs, ∀ b ∈ xs, 0 < cmp a b ↔ cmp b a < 0
  lt_trans : ∀ a ∈ xs, ∀ b ∈ xs, ∀ c ∈ xs, cmp a b < 0 → cmp b c < 0 → cmp a c < 0
  eq_trans : ∀ a ∈ xs, ∀ b ∈ xs, ∀ c ∈ xs, cmp a b = 0 → cmp b c = 0 → cmp a c = 0

namespace Consistent

/-- Equal is symmetric. -/
theorem eq_symm (h : Consistent cmp xs) {a b : α} (ha : a ∈ xs) (hb : b ∈ xs)
    (heq : cmp a b = 0) : cmp b a = 0 := by
  have hab := h.gt_iff a ha b hb
  have hba := h.gt_iff b hb a ha
  omega

/-- Less than one is less than its equals. -/
theorem lt_of_lt_of_eq (h : Consistent cmp xs) {a b c : α} (ha : a ∈ xs) (hb : b ∈ xs)
    (hc : c ∈ xs) (hlt : cmp a b < 0) (heq : cmp b c = 0) : cmp a c < 0 := by
  by_contra hge
  rcases lt_or_eq_of_le (not_lt.mp hge) with hgt | hzero
  · have hcb := h.lt_trans c hc a ha b hb ((h.gt_iff a ha c hc).mp hgt) hlt
    have := h.gt_iff b hb c hc
    omega
  · have hab := h.eq_trans a ha c hc b hb hzero.symm (h.eq_symm hb hc heq)
    omega

/-- And the equals of one are less than what it is less than. -/
theorem lt_of_eq_of_lt (h : Consistent cmp xs) {a b c : α} (ha : a ∈ xs) (hb : b ∈ xs)
    (hc : c ∈ xs) (heq : cmp a b = 0) (hlt : cmp b c < 0) : cmp a c < 0 := by
  by_contra hge
  rcases lt_or_eq_of_le (not_lt.mp hge) with hgt | hzero
  · have hba := h.lt_trans b hb c hc a ha hlt ((h.gt_iff a ha c hc).mp hgt)
    have := h.gt_iff a ha b hb
    omega
  · have hbc := h.eq_trans b hb a ha c hc (h.eq_symm ha hb heq) hzero.symm
    omega

/-- The other direction. -/
theorem neg (h : Consistent cmp xs) : Consistent (fun a b => -cmp a b) xs where
  gt_iff a ha b hb := by
    have := h.gt_iff b hb a ha
    omega
  lt_trans a ha b hb c hc hab hbc := by
    have hba := (h.gt_iff a ha b hb).mp (by omega)
    have hcb := (h.gt_iff b hb c hc).mp (by omega)
    have hca := h.lt_trans c hc b hb a ha hcb hba
    have := (h.gt_iff a ha c hc).mpr hca
    omega
  eq_trans a ha b hb c hc hab hbc := by
    have := h.eq_trans a ha b hb c hc (by omega) (by omega)
    omega

/-- Comparing by a key. -/
theorem comap {key : β → α} {rows : List β} (h : Consistent cmp (rows.map key)) :
    Consistent (fun a b => cmp (key a) (key b)) rows := by
  have hkey : ∀ a ∈ rows, key a ∈ rows.map key := fun a ha => List.mem_map_of_mem ha
  exact ⟨fun a ha b hb => h.gt_iff _ (hkey a ha) _ (hkey b hb),
    fun a ha b hb c hc => h.lt_trans _ (hkey a ha) _ (hkey b hb) _ (hkey c hc),
    fun a ha b hb c hc => h.eq_trans _ (hkey a ha) _ (hkey b hb) _ (hkey c hc)⟩

/-- A comparator of keys is consistent where it is on the rows. -/
theorem of_comap {key : β → α} {rows : List β}
    (h : Consistent (fun a b => cmp (key a) (key b)) rows) : Consistent cmp (rows.map key) := by
  constructor
  · intro u hu v hv
    obtain ⟨a, ha, rfl⟩ := List.mem_map.mp hu
    obtain ⟨b, hb, rfl⟩ := List.mem_map.mp hv
    exact h.gt_iff a ha b hb
  · intro u hu v hv w hw
    obtain ⟨a, ha, rfl⟩ := List.mem_map.mp hu
    obtain ⟨b, hb, rfl⟩ := List.mem_map.mp hv
    obtain ⟨c, hc, rfl⟩ := List.mem_map.mp hw
    exact h.lt_trans a ha b hb c hc
  · intro u hu v hv w hw
    obtain ⟨a, ha, rfl⟩ := List.mem_map.mp hu
    obtain ⟨b, hb, rfl⟩ := List.mem_map.mp hv
    obtain ⟨c, hc, rfl⟩ := List.mem_map.mp hw
    exact h.eq_trans a ha b hb c hc

/-- Nothing to compare by. -/
theorem zero (xs : List α) : Consistent (fun _ _ => 0) xs :=
  ⟨fun _ _ _ _ => (by omega), fun _ _ _ _ _ _ h => (by omega), fun _ _ _ _ _ _ _ _ => rfl⟩

end Consistent

/-- The second comparator where the first one says equal. -/
def thenBy (first second : α → α → Int) (a b : α) : Int :=
  if first a b ≠ 0 then first a b else second a b

/-- The second comparator decides where the first says equal. -/
theorem thenBy_lt {first second : α → α → Int} {a b : α} : thenBy first second a b < 0 ↔
    first a b < 0 ∨ first a b = 0 ∧ second a b < 0 := by
  unfold thenBy
  split <;> omega

theorem thenBy_gt {first second : α → α → Int} {a b : α} : 0 < thenBy first second a b ↔
    0 < first a b ∨ first a b = 0 ∧ 0 < second a b := by
  unfold thenBy
  split <;> omega

theorem thenBy_eq {first second : α → α → Int} {a b : α} : thenBy first second a b = 0 ↔
    first a b = 0 ∧ second a b = 0 := by
  unfold thenBy
  split <;> omega

/-- **Two keys**: comparing by one and then by the other. -/
theorem Consistent.thenBy {first second : α → α → Int} (h : Consistent first xs)
    (h' : Consistent second xs) : Consistent (thenBy first second) xs where
  gt_iff a ha b hb := by
    rw [thenBy_gt, thenBy_lt, h.gt_iff a ha b hb, h'.gt_iff a ha b hb]
    constructor
    · rintro (hlt | ⟨heq, hlt⟩)
      · exact Or.inl hlt
      · exact Or.inr ⟨h.eq_symm ha hb heq, hlt⟩
    · rintro (hlt | ⟨heq, hlt⟩)
      · exact Or.inl hlt
      · exact Or.inr ⟨h.eq_symm hb ha heq, hlt⟩
  lt_trans a ha b hb c hc := by
    rw [thenBy_lt, thenBy_lt, thenBy_lt]
    rintro (hab | ⟨hab, hab'⟩) (hbc | ⟨hbc, hbc'⟩)
    · exact Or.inl (h.lt_trans a ha b hb c hc hab hbc)
    · exact Or.inl (h.lt_of_lt_of_eq ha hb hc hab hbc)
    · exact Or.inl (h.lt_of_eq_of_lt ha hb hc hab hbc)
    · exact Or.inr ⟨h.eq_trans a ha b hb c hc hab hbc, h'.lt_trans a ha b hb c hc hab' hbc'⟩
  eq_trans a ha b hb c hc := by
    rw [thenBy_eq, thenBy_eq, thenBy_eq]
    rintro ⟨hab, hab'⟩ ⟨hbc, hbc'⟩
    exact ⟨h.eq_trans a ha b hb c hc hab hbc, h'.eq_trans a ha b hb c hc hab' hbc'⟩

/-! ## Stable sorting -/

/-- The order of elements tagged with their positions. -/
def Precedes (cmp : α → α → Int) (p q : α × Nat) : Prop :=
  cmp p.1 q.1 < 0 ∨ cmp p.1 q.1 = 0 ∧ p.2 < q.2

/-- `ys` is the stable rearrangement of `xs`. -/
def StableSorted (cmp : α → α → Int) (xs ys : List α) : Prop :=
  ∃ tagged : List (α × Nat), tagged.Perm xs.zipIdx ∧ tagged.map Prod.fst = ys ∧
    tagged.Pairwise (Precedes cmp)

/-- What was tagged was there. -/
theorem mem_of_tagged {tagged : List (α × Nat)} (h : tagged.Perm xs.zipIdx) {p : α × Nat}
    (hp : p ∈ tagged) : p.1 ∈ xs :=
  List.fst_mem_of_mem_zipIdx (h.mem_iff.mp hp)

/-- Sorting keeps the items. -/
theorem StableSorted.perm (h : StableSorted cmp xs ys) : ys.Perm xs := by
  obtain ⟨tagged, hperm, rfl, _⟩ := h
  have hmap := hperm.map Prod.fst
  rwa [List.zipIdx_map_fst] at hmap

/-- **A stable sort is unique**: it does not depend on how it is computed. -/
theorem StableSorted.unique (h : Consistent cmp xs) (hys : StableSorted cmp xs ys)
    (hzs : StableSorted cmp xs zs) : ys = zs := by
  obtain ⟨t, ht, rfl, hsorted⟩ := hys
  obtain ⟨t', ht', rfl, hsorted'⟩ := hzs
  have heq : t = t' := by
    refine List.Perm.eq_of_pairwise ?_ hsorted hsorted' (ht.trans ht'.symm)
    intro p q hp hq hpq hqp
    have hgt := h.gt_iff p.1 (mem_of_tagged ht hp) q.1 (mem_of_tagged ht' hq)
    rcases hpq with hlt | ⟨heq, hidx⟩
    · rcases hqp with hlt' | ⟨heq', _⟩
      · omega
      · have := h.gt_iff q.1 (mem_of_tagged ht' hq) p.1 (mem_of_tagged ht hp)
        omega
    · rcases hqp with hlt' | ⟨_, hidx'⟩
      · omega
      · omega
  rw [heq]

/-- Nothing stands before a smaller element. -/
theorem StableSorted.pairwise (h : Consistent cmp xs) (hys : StableSorted cmp xs ys) :
    ys.Pairwise fun a b => ¬ cmp b a < 0 := by
  obtain ⟨tagged, hperm, rfl, hsorted⟩ := hys
  rw [List.pairwise_map]
  refine hsorted.imp_of_mem fun {p q} hp hq hpq => ?_
  have hgt := h.gt_iff p.1 (mem_of_tagged hperm hp) q.1 (mem_of_tagged hperm hq)
  rcases hpq with hlt | ⟨heq, _⟩
  · omega
  · omega

/-! ## One stable sort -/

/-- Merge sort of the tagged elements. -/
def stableSort (cmp : α → α → Int) (xs : List α) : List α :=
  ((xs.zipIdx.attach.mergeSort fun p q =>
    decide (cmp p.1.1 q.1.1 < 0 ∨ cmp p.1.1 q.1.1 = 0 ∧ p.1.2 ≤ q.1.2)).map Subtype.val).map Prod.fst

/-- **Sorting with a consistent comparator is stable.** -/
theorem stableSorted_stableSort (h : Consistent cmp xs) :
    StableSorted cmp xs (stableSort cmp xs) := by
  refine ⟨_, ?_, rfl, ?_⟩
  · have hperm := (List.mergeSort_perm xs.zipIdx.attach fun p q =>
      decide (cmp p.1.1 q.1.1 < 0 ∨ cmp p.1.1 q.1.1 = 0 ∧ p.1.2 ≤ q.1.2)).map Subtype.val
    rwa [List.attach_map_subtype_val] at hperm
  · have hmem : ∀ p : { p // p ∈ xs.zipIdx }, p.1.1 ∈ xs :=
      fun p => List.fst_mem_of_mem_zipIdx p.2
    have hpositions : (xs.zipIdx.map Prod.snd).Nodup := by
      rw [List.zipIdx_map_snd]
      exact List.nodup_range'
    have hsorted := @List.pairwise_mergeSort _ (fun p q : { p // p ∈ xs.zipIdx } =>
      decide (cmp p.1.1 q.1.1 < 0 ∨ cmp p.1.1 q.1.1 = 0 ∧ p.1.2 ≤ q.1.2)) ?_ ?_ xs.zipIdx.attach
    · have hnodup : (xs.zipIdx.attach.mergeSort fun p q =>
          decide (cmp p.1.1 q.1.1 < 0 ∨ cmp p.1.1 q.1.1 = 0 ∧ p.1.2 ≤ q.1.2)).Nodup := by
        rw [(List.mergeSort_perm _ _).nodup_iff, List.nodup_attach]
        exact List.Nodup.of_map Prod.snd hpositions
      rw [List.pairwise_map]
      refine (hsorted.and hnodup).imp fun {p q} hpq => ?_
      obtain ⟨hle, hne⟩ := hpq
      rcases of_decide_eq_true hle with hlt | ⟨heq, hidx⟩
      · exact Or.inl hlt
      · refine Or.inr ⟨heq, lt_of_le_of_ne hidx fun hsame => hne ?_⟩
        exact Subtype.ext (List.inj_on_of_nodup_map hpositions p.2 q.2 hsame)
    · intro a b c hab hbc
      simp only [decide_eq_true_eq] at hab hbc ⊢
      rcases hab with hab | ⟨hab, hidx⟩
      · rcases hbc with hbc | ⟨hbc, _⟩
        · exact Or.inl (h.lt_trans _ (hmem a) _ (hmem b) _ (hmem c) hab hbc)
        · exact Or.inl (h.lt_of_lt_of_eq (hmem a) (hmem b) (hmem c) hab hbc)
      · rcases hbc with hbc | ⟨hbc, hidx'⟩
        · exact Or.inl (h.lt_of_eq_of_lt (hmem a) (hmem b) (hmem c) hab hbc)
        · exact Or.inr ⟨h.eq_trans _ (hmem a) _ (hmem b) _ (hmem c) hab hbc, hidx.trans hidx'⟩
    · intro a b
      have hgt := h.gt_iff _ (hmem a) _ (hmem b)
      simp only [Bool.or_eq_true, decide_eq_true_eq]
      have hgt' := h.gt_iff _ (hmem b) _ (hmem a)
      omega

end Comparator
