import Mathlib.Data.List.Flatten
import Mathlib.Data.List.Range

/-
  One order for the operations on an append-only log.

  Some operations append an entry, the others look at a prefix of the log.  When the positions agree
  with real time, the operations have an order that keeps real time and is a run of the log used by
  one client.

  CRUX: the order is read off the log.  For every length, first those that saw the log at that length,
  then the operation that appended its next entry.
-/

namespace Async

variable {O S E : Type}

/-- One client performs the operations, from a state to another. -/
def Runs (step : O → S → S → Prop) : List O → S → S → Prop
  | [], s, s' => s = s'
  | o :: os, s, s'' => ∃ s', step o s s' ∧ Runs step os s' s''

theorem Runs.append {step : O → S → S → Prop} {os os' : List O} {s s' s'' : S}
    (h : Runs step os s s') (h' : Runs step os' s' s'') : Runs step (os ++ os') s s'' := by
  induction os generalizing s with
  | nil =>
    cases h
    exact h'
  | cons o os ih =>
    obtain ⟨r, hstep, hrest⟩ := h
    exact ⟨r, hstep, ih hrest⟩

/-- Operations that change nothing. -/
theorem Runs.stays {step : O → S → S → Prop} {os : List O} {s : S} (h : ∀ o ∈ os, step o s s) :
    Runs step os s s := by
  induction os with
  | nil => rfl
  | cons o os ih =>
    exact ⟨s, h o List.mem_cons_self, ih fun o' ho' => h o' (List.mem_cons_of_mem o ho')⟩

/-- Who appended each entry of a log, and what the others saw. -/
structure Timeline (O E : Type) where
  log : List E
  /-- Who appended the entry at a position. -/
  appender : Nat → O
  readers : List O
  /-- How long the log was for a reader. -/
  seen : O → Nat

namespace Timeline

/-- Those that saw the first `n` entries, and who appended the next. -/
def slot (T : Timeline O E) (n : Nat) : List O :=
  T.readers.filter (fun r => T.seen r = n) ++ if n < T.log.length then [T.appender n] else []

/-- The order of the operations. -/
def order (T : Timeline O E) : List O :=
  (List.range (T.log.length + 1)).flatMap T.slot

/-- The positions agree with `before`, which is real time. -/
structure Agrees (T : Timeline O E) (before : O → O → Prop) : Prop where
  seen_le : ∀ r ∈ T.readers, T.seen r ≤ T.log.length
  nodup : T.readers.Nodup
  once : ∀ i j, i < T.log.length → j < T.log.length → T.appender i = T.appender j → i = j
  apart : ∀ i, i < T.log.length → T.appender i ∉ T.readers
  appends : ∀ i j, i < T.log.length → j < T.log.length → before (T.appender i) (T.appender j) → i < j
  sees : ∀ i r, i < T.log.length → r ∈ T.readers → before (T.appender i) r → i < T.seen r
  misses : ∀ r j, r ∈ T.readers → j < T.log.length → before r (T.appender j) → T.seen r ≤ j
  reads : ∀ r r', r ∈ T.readers → r' ∈ T.readers → before r r' → T.seen r ≤ T.seen r'
  sorted : T.readers.Pairwise fun r r' => ¬ before r' r

variable {T : Timeline O E} {before : O → O → Prop}

theorem mem_slot {n : Nat} {o : O} : o ∈ T.slot n ↔
    (o ∈ T.readers ∧ T.seen o = n) ∨ (n < T.log.length ∧ o = T.appender n) := by
  unfold slot
  rw [List.mem_append, List.mem_filter, decide_eq_true_eq]
  split <;> simp [*]

/-- The order has the readers and the appenders. -/
theorem Agrees.mem_order (h : T.Agrees before) {o : O} : o ∈ T.order ↔
    o ∈ T.readers ∨ ∃ n, n < T.log.length ∧ o = T.appender n := by
  simp only [order, List.mem_flatMap, List.mem_range, mem_slot]
  constructor
  · rintro ⟨n, -, ⟨hr, -⟩ | happ⟩
    · exact Or.inl hr
    · exact Or.inr ⟨n, happ⟩
  · rintro (hr | ⟨n, hn, rfl⟩)
    · exact ⟨T.seen o, Nat.lt_succ_of_le (h.seen_le o hr), Or.inl ⟨hr, rfl⟩⟩
    · exact ⟨n, Nat.lt_succ_of_lt hn, Or.inr ⟨hn, rfl⟩⟩

theorem Agrees.nodup_order (h : T.Agrees before) : T.order.Nodup := by
  unfold order List.Nodup
  rw [List.pairwise_flatMap]
  constructor
  · intro n _
    unfold slot
    rw [List.pairwise_append]
    refine ⟨h.nodup.filter _, by split <;> simp, ?_⟩
    intro r hr o ho heq
    split at ho
    next hn =>
      obtain rfl := List.mem_singleton.mp ho
      exact h.apart n hn (heq ▸ (List.mem_filter.mp hr).1)
    next => cases ho
  · refine List.nodup_range.imp ?_
    rintro n m hne o ho _ ho' rfl
    rcases mem_slot.mp ho with ⟨hr, hseen⟩ | ⟨hn, rfl⟩
    · rcases mem_slot.mp ho' with ⟨-, hseen'⟩ | ⟨hm, rfl⟩
      · exact hne (hseen.symm.trans hseen')
      · exact h.apart m hm hr
    · rcases mem_slot.mp ho' with ⟨hr, -⟩ | ⟨hm, heq⟩
      · exact h.apart n hn hr
      · exact hne (h.once n m hn hm heq)

/-- The order keeps real time. -/
theorem Agrees.respects (h : T.Agrees before) : T.order.Pairwise fun o o' => ¬ before o' o := by
  unfold order
  rw [List.pairwise_flatMap]
  constructor
  · intro n _
    unfold slot
    rw [List.pairwise_append]
    refine ⟨h.sorted.filter _, by split <;> simp only [List.pairwise_singleton, List.Pairwise.nil], ?_⟩
    intro r hr o ho hbefore
    split at ho
    next hn =>
      obtain rfl := List.mem_singleton.mp ho
      obtain ⟨hmem, hseen⟩ := List.mem_filter.mp hr
      have hlt := h.sees n r hn hmem hbefore
      rw [of_decide_eq_true hseen] at hlt
      exact Nat.lt_irrefl n hlt
    next => cases ho
  · refine List.pairwise_lt_range.imp ?_
    intro n m hlt o ho o' ho' hbefore
    rcases mem_slot.mp ho with ⟨hr, hseen⟩ | ⟨hn, rfl⟩
    · rcases mem_slot.mp ho' with ⟨hr', hseen'⟩ | ⟨hm, rfl⟩
      · have := h.reads o' o hr' hr hbefore
        omega
      · have := h.sees m o hm hr hbefore
        omega
    · rcases mem_slot.mp ho' with ⟨hr', hseen'⟩ | ⟨hm, rfl⟩
      · have := h.misses o' n hr' hn hbefore
        omega
      · have := h.appends m n hm hn hbefore
        omega

/-- **The order is a run of the log.** -/
theorem runs {step : O → List E → List E → Prop}
    (hread : ∀ r ∈ T.readers, step r (T.log.take (T.seen r)) (T.log.take (T.seen r)))
    (happend : ∀ n e, T.log[n]? = some e → step (T.appender n) (T.log.take n) (T.log.take n ++ [e])) :
    Runs step T.order [] T.log := by
  -- up to every length, the log so far
  have hupto : ∀ k, k ≤ T.log.length →
      Runs step ((List.range k).flatMap T.slot) [] (T.log.take k) := by
    intro k
    induction k with
    | zero => exact fun _ => rfl
    | succ k ih =>
      intro hk
      have hlt : k < T.log.length := hk
      rw [List.range_succ, List.flatMap_append, List.flatMap_singleton]
      refine (ih (Nat.le_of_lt hlt)).append ?_
      unfold slot
      rw [if_pos hlt]
      refine Runs.append (Runs.stays (s := T.log.take k) ?_) ⟨T.log.take (k + 1), ?_, rfl⟩
      · intro r hr
        obtain ⟨hmem, hseen⟩ := List.mem_filter.mp hr
        have := hread r hmem
        rwa [of_decide_eq_true hseen] at this
      · have hget : T.log[k]? = some T.log[k] := List.getElem?_eq_getElem hlt
        rw [List.take_succ_eq_append_getElem hlt]
        exact happend k _ hget
  unfold order
  rw [List.range_succ, List.flatMap_append, List.flatMap_singleton]
  refine (hupto _ (Nat.le_refl _)).append ?_
  rw [List.take_length]
  unfold slot
  rw [if_neg (Nat.lt_irrefl _), List.append_nil]
  refine Runs.stays fun r hr => ?_
  obtain ⟨hmem, hseen⟩ := List.mem_filter.mp hr
  have := hread r hmem
  rwa [of_decide_eq_true hseen, List.take_length] at this

end Timeline

end Async
