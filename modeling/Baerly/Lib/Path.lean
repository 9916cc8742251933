import Mathlib.Data.List.Basic

/-
  Paths: words, each closed by a separator none of them holds.

  SPEC: the words of a path can be read back one at a time (`cut_inj`), so one path starts another
  exactly if its words start the other's (`path_isPrefix`), whatever follows, and a path followed by
  a last word is known word by word (`path_inj`).
-/

namespace Path

variable {α : Type} {sep : α}

/-- The words, each with its separator. -/
def path (sep : α) (words : List (List α)) : List α := words.flatMap fun word => word ++ [sep]

@[simp] theorem path_nil : path sep [] = [] := rfl

@[simp] theorem path_cons (word : List α) (words : List (List α)) :
    path sep (word :: words) = word ++ sep :: path sep words := by
  rw [path, List.flatMap_cons, List.append_assoc, List.singleton_append]
  rfl

theorem path_append (words more : List (List α)) :
    path sep (words ++ more) = path sep words ++ path sep more :=
  List.flatMap_append

/-- Separators between the words and one at the end. -/
theorem intercalate_eq_path {words : List (List α)} (h : words ≠ []) :
    List.intercalate [sep] words ++ [sep] = path sep words := by
  induction words with
  | nil => exact absurd rfl h
  | cons word words ih =>
    cases words with
    | nil => simp [List.intercalate]
    | cons next words =>
      rw [List.intercalate_cons_cons, List.append_assoc, List.append_assoc, ih (by simp),
        path_cons word, List.singleton_append]

/-- A word ends at the first separator. -/
theorem cut_inj {s t x y : List α} (hs : sep ∉ s) (ht : sep ∉ t)
    (h : s ++ sep :: x = t ++ sep :: y) : s = t ∧ x = y := by
  induction s generalizing t with
  | nil =>
    cases t with
    | nil => exact ⟨rfl, (List.cons.inj h).2⟩
    | cons v t => exact absurd (List.mem_cons.mpr (Or.inl (List.cons.inj h).1)) ht
  | cons u s ih =>
    cases t with
    | nil => exact absurd (List.mem_cons.mpr (Or.inl (List.cons.inj h).1.symm)) hs
    | cons v t =>
      obtain ⟨rfl, htail⟩ := List.cons.inj h
      obtain ⟨rfl, rfl⟩ := ih (fun hu => hs (List.mem_cons_of_mem u hu))
        (fun hu => ht (List.mem_cons_of_mem u hu)) htail
      exact ⟨rfl, rfl⟩

/-- **One path starts another iff its words start the other's.** -/
theorem path_isPrefix {words more : List (List α)} {rest : List α} (hw : ∀ w ∈ words, sep ∉ w)
    (hm : ∀ w ∈ more, sep ∉ w) (hlen : words.length ≤ more.length) :
    path sep words <+: path sep more ++ rest ↔ words <+: more := by
  induction words generalizing more with
  | nil => simp
  | cons word words ih =>
    cases more with
    | nil => exact absurd hlen (by simp)
    | cons next more =>
      have ih' := @ih more (fun w h => hw w (List.mem_cons_of_mem word h))
        (fun w h => hm w (List.mem_cons_of_mem next h)) (by simpa using hlen)
      rw [path_cons, path_cons, List.append_assoc, List.cons_append, List.cons_prefix_cons, ← ih']
      constructor
      · rintro ⟨tail, htail⟩
        rw [List.append_assoc, List.cons_append] at htail
        obtain ⟨heq, hrest⟩ := cut_inj (hw word List.mem_cons_self) (hm next List.mem_cons_self) htail
        exact ⟨heq, tail, hrest⟩
      · rintro ⟨rfl, tail, htail⟩
        refine ⟨tail, ?_⟩
        rw [← htail, List.append_assoc, List.cons_append]

/-- **The words of a path and what follows its last separator can be read back.** -/
theorem path_inj {words more : List (List α)} {last rest : List α} (hw : ∀ w ∈ words, sep ∉ w)
    (hm : ∀ w ∈ more, sep ∉ w) (hl : sep ∉ last) (hr : sep ∉ rest)
    (h : path sep words ++ last = path sep more ++ rest) : words = more ∧ last = rest := by
  induction words generalizing more with
  | nil =>
    cases more with
    | nil => exact ⟨rfl, h⟩
    | cons next more =>
      rw [path_nil, List.nil_append] at h
      exact absurd (by rw [h]; simp) hl
  | cons word words ih =>
    cases more with
    | nil =>
      rw [path_nil, List.nil_append] at h
      exact absurd (by rw [← h]; simp) hr
    | cons next more =>
      rw [path_cons, path_cons, List.append_assoc, List.append_assoc, List.cons_append,
        List.cons_append] at h
      obtain ⟨rfl, htail⟩ := cut_inj (hw word List.mem_cons_self) (hm next List.mem_cons_self) h
      obtain ⟨rfl, rfl⟩ := ih (fun w h => hw w (List.mem_cons_of_mem word h))
        (fun w h => hm w (List.mem_cons_of_mem _ h)) htail
      exact ⟨rfl, rfl⟩

/-- The first word of what a word starts. -/
theorem takeWhile_cut [DecidableEq α] {s x : List α} (hs : sep ∉ s) :
    (s ++ sep :: x).takeWhile (· ≠ sep) = s := by
  rw [List.takeWhile_append_of_pos]
  · simp
  · intro u hu
    have hne : u ≠ sep := fun heq => hs (heq ▸ hu)
    simpa using hne

end Path
