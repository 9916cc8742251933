import Mathlib.Algebra.Order.BigOperators.Group.Finset
import Baerly.Verify.ChunkMint

/-
  The two phases of the planner.

  PROGRAM: `prefetchChunkedFold` walks the entries and accepts endpoints as long as the running
  mutations stay within the budget and keep the owner and the neighbour that were locked first.
  `planChunkedFold` dry-runs the accepted endpoints and keeps the last one the builder stays within
  the budget on.

  SPEC: the accepted endpoints are the first ones (`Walked`), every one of them collapses to the
  mutations the walk had there, and touches only chunks that are prefetched.  So the builder finds
  every chunk it asks for (`prefetch_sufficient`), and the plan is the collapse of a run of first
  entries.

  CRUX: the lock is taken by looking at an endpoint, before the ceilings on the touched chunks have
  accepted it.  The lock of an endpoint that is then refused stays (`prefetch_within_iff`).
-/

namespace Baerly

open Json
open Utf8 (Byte)

/-! ## Collapsing -/

section Collapse

/-- One more entry is one more mutation. -/
theorem collapseMutations_append (m : InsMap JsString ReferenceMutation) (front : List LogEntry)
    (entry : LogEntry) :
    collapseMutations m (front ++ [entry]) = (do
      let m' ← collapseMutations m front
      let mutation ← entryToMutation entry
      .ok (m'.set entry.docId mutation)) := by
  induction front generalizing m with
  | nil =>
    show (do
      let mutation ← entryToMutation entry
      collapseMutations (m.set entry.docId mutation) []) = _
    rfl
  | cons first front ih =>
    rw [List.cons_append, collapseMutations, collapseMutations]
    cases entryToMutation first with
    | error e => rfl
    | ok mutation => exact ih (m.set first.docId mutation)

/-- It is of the document of its entry. -/
theorem entryToMutation_docId {entry : LogEntry} {m : ReferenceMutation}
    (h : entryToMutation entry = .ok m) : m.docId = entry.docId := by
  unfold entryToMutation at h
  obtain ⟨_, _, h⟩ := except_bind_ok h
  split at h
  · cases h
    rfl
  · cases h
  · obtain ⟨_, _, h⟩ := except_bind_ok h
    cases h
    rfl
  · obtain ⟨_, _, h⟩ := except_bind_ok h
    cases h
    rfl

/-- The mutation of an id is the one of the last entry that names it. -/
def LastWrite (entries : List LogEntry) (id : JsString) (m : ReferenceMutation) : Prop :=
  ∃ front entry rest, entries = front ++ entry :: rest ∧ entry.docId = id ∧
    entryToMutation entry = .ok m ∧ ∀ later ∈ rest, later.docId ≠ id

theorem not_lastWrite_nil {id : JsString} {m : ReferenceMutation} : ¬ LastWrite [] id m := by
  rintro ⟨front, entry, rest, h, -⟩
  exact absurd h (by simp)

/-- The last write of a document is the new one, if that is its own. -/
theorem lastWrite_append {front : List LogEntry} {entry : LogEntry} {id : JsString}
    {m : ReferenceMutation} : LastWrite (front ++ [entry]) id m ↔
      if id = entry.docId then entryToMutation entry = .ok m else LastWrite front id m := by
  constructor
  · rintro ⟨a, e, b, heq, hid, hm, hlater⟩
    rcases List.eq_nil_or_concat b with rfl | ⟨b', last, rfl⟩
    · obtain ⟨-, hlast⟩ := List.append_inj' heq rfl
      obtain ⟨rfl, -⟩ := List.cons.inj hlast
      rw [if_pos hid.symm]
      exact hm
    · rw [List.concat_eq_append] at heq hlater
      rw [show a ++ e :: (b' ++ [last]) = (a ++ e :: b') ++ [last] by simp] at heq
      obtain ⟨hfront, hlast⟩ := List.append_inj' heq rfl
      obtain ⟨rfl, -⟩ := List.cons.inj hlast
      have hne : id ≠ entry.docId := fun h => hlater entry (by simp) h.symm
      rw [if_neg hne]
      exact ⟨a, e, b', hfront, hid, hm, fun later h => hlater later (List.mem_append_left _ h)⟩
  · intro h
    split at h
    next hid => exact ⟨front, entry, [], rfl, hid.symm, h, fun later hl => absurd hl List.not_mem_nil⟩
    next hne =>
      obtain ⟨a, e, b, rfl, hid, hm, hlater⟩ := h
      refine ⟨a, e, b ++ [entry], by simp, hid, hm, fun later hl => ?_⟩
      rcases List.mem_append.mp hl with hl | hl
      · exact hlater later hl
      · rw [List.mem_singleton.mp hl]
        exact fun heq => hne heq.symm

/-- **The loop keeps the last write of every id.** -/
theorem collapse_lastWrite {entries : List LogEntry} {ms : InsMap JsString ReferenceMutation}
    (h : collapseMutations InsMap.empty entries = .ok ms) (id : JsString) (m : ReferenceMutation) :
    ms.get id = some m ↔ LastWrite entries id m := by
  induction entries using List.reverseRecOn generalizing ms with
  | nil =>
    cases h
    exact ⟨fun hget => (by cases hget), fun hlast => absurd hlast not_lastWrite_nil⟩
  | append_singleton front entry ih =>
    rw [collapseMutations_append] at h
    obtain ⟨ms', hfront, h⟩ := except_bind_ok h
    obtain ⟨mutation, hmutation, h⟩ := except_bind_ok h
    cases h
    rw [InsMap.get_set, lastWrite_append]
    split
    next => rw [Option.some.injEq, hmutation, Except.ok.injEq]
    next => exact ih hfront

/-- Entries are collapsed one after another. -/
theorem collapse_take_succ {entries : List LogEntry} {n : Nat} {entry : LogEntry}
    (hn : entries[n]? = some entry) :
    collapseMutations InsMap.empty (entries.take (n + 1)) = (do
      let m ← collapseMutations InsMap.empty (entries.take n)
      let mutation ← entryToMutation entry
      .ok (m.set entry.docId mutation)) := by
  rw [List.take_add_one, hn]
  exact collapseMutations_append _ _ _

/-- A stretch that collapses does so from its start. -/
theorem collapse_take_of_le {entries : List LogEntry} {n k : Nat}
    {ms : InsMap JsString ReferenceMutation}
    (h : collapseMutations InsMap.empty (entries.take n) = .ok ms) (hk : k ≤ n) :
    ∃ ms', collapseMutations InsMap.empty (entries.take k) = .ok ms' := by
  induction n generalizing ms with
  | zero =>
    rw [Nat.le_zero.mp hk]
    exact ⟨ms, h⟩
  | succ n ih =>
    rcases Nat.lt_or_eq_of_le hk with hlt | rfl
    · cases hentry : entries[n]? with
      | none =>
        have hlen := List.getElem?_eq_none_iff.mp hentry
        rw [List.take_of_length_le (by omega)] at h
        refine @ih ms ?_ (by omega)
        rw [List.take_of_length_le hlen]
        exact h
      | some entry =>
        rw [collapse_take_succ hentry] at h
        obtain ⟨ms', hms', -⟩ := except_bind_ok h
        exact ih hms' (by omega)
    · exact ⟨ms, h⟩

/-- What the running mutations cost. -/
def mutationCost (N : NumberText) (ds : List SnapshotChunkDescriptor)
    (ms : InsMap JsString ReferenceMutation) : Nat :=
  ((mutationList ms).map fun m => computeMutationContribution N m ds).sum

/-- The running cost is the cost of the mutations so far. -/
theorem mutationCost_set (N : NumberText) (ds : List SnapshotChunkDescriptor)
    (ms : InsMap JsString ReferenceMutation) (id : JsString) (m : ReferenceMutation) :
    mutationCost N ds (ms.set id m) +
        ((ms.get id).map fun m => computeMutationContribution N m ds).getD 0 =
      mutationCost N ds ms + computeMutationContribution N m ds := by
  unfold mutationCost mutationList
  rw [List.map_map, List.map_map]
  exact InsMap.sum_setEntry (fun _ m => computeMutationContribution N m ds) id m ms.entries

end Collapse

/-! ## The walk -/

section Walk

variable {N : NumberText} {ds : List SnapshotChunkDescriptor} {budget : ChunkedFoldBudget}
variable {entries : List LogEntry}

/-- The owner and the neighbour of a map of mutations, if it touches a chunk. -/
def pairOf (ds : List SnapshotChunkDescriptor) (ms : InsMap JsString ReferenceMutation) :
    Option (Nat × Option Nat) :=
  (deriveOwnerAndNeighbor (directIndexes ds ms) ds.length).1.map fun owner =>
    (owner, (deriveOwnerAndNeighbor (directIndexes ds ms) ds.length).2)

/-- There is no owner iff nothing is touched directly. -/
theorem derive_none {direct : Finset Nat} {count : Nat} :
    (deriveOwnerAndNeighbor direct count).1 = none ↔ count = 0 ∨ direct = ∅ := by
  unfold deriveOwnerAndNeighbor
  split
  next hzero => simp [hzero]
  next hpos =>
    have hempty : (direct.sort (· ≤ ·)).head? = none ↔ direct = ∅ := by
      rw [List.head?_eq_none_iff]
      constructor
      · intro h
        rw [← Finset.sort_toFinset direct (· ≤ ·), h]
        rfl
      · rintro rfl
        exact Finset.sort_empty (· ≤ ·)
    split
    next h => simp [hpos, hempty.mp h]
    next leftmost h =>
      have hne : direct ≠ ∅ := fun hnil => by
        rw [hempty.mpr hnil] at h
        cases h
      split
      · simp [hpos, hne]
      · split
        · simp [hpos, hne]
        · simp [hpos, hne]

/-- And then no neighbour. -/
theorem derive_snd {direct : Finset Nat} {count : Nat}
    (h : (deriveOwnerAndNeighbor direct count).1 = none) :
    (deriveOwnerAndNeighbor direct count).2 = none := by
  rcases derive_none.mp h with rfl | rfl
  · rfl
  · unfold deriveOwnerAndNeighbor
    rw [Finset.sort_empty]
    split
    · rfl
    · rfl

/-- Without chunks nothing is. -/
theorem directIndexes_nil (ms : InsMap JsString ReferenceMutation) : directIndexes [] ms = ∅ := by
  unfold directIndexes
  rw [List.toFinset_eq_empty_iff, List.filterMap_eq_nil_iff]
  intro m _
  rfl

/-- No pair is wanted iff nothing is touched. -/
theorem pairOf_none {ms : InsMap JsString ReferenceMutation} :
    pairOf ds ms = none ↔ directIndexes ds ms = ∅ := by
  unfold pairOf
  rw [Option.map_eq_none_iff, derive_none]
  constructor
  · rintro (hnil | hempty)
    · rw [List.length_eq_zero_iff.mp hnil]
      exact directIndexes_nil ms
    · exact hempty
  · exact Or.inr

/-- The first pair is locked. -/
theorem lockPair_none (ms : InsMap JsString ReferenceMutation) :
    lockPair none (deriveOwnerAndNeighbor (directIndexes ds ms) ds.length) =
      some (pairOf ds ms) := rfl

/-- After that every endpoint must want the same. -/
theorem lockPair_some {pair : Nat × Option Nat} {ms : InsMap JsString ReferenceMutation} :
    lockPair (some pair) (deriveOwnerAndNeighbor (directIndexes ds ms) ds.length) =
      if pairOf ds ms = some pair then some (some pair) else none := by
  obtain ⟨owner, neighbor⟩ := pair
  unfold lockPair pairOf
  cases hderive : deriveOwnerAndNeighbor (directIndexes ds ms) ds.length with
  | mk first second =>
    cases first with
    | none => simp
    | some leftmost => simp

/-- The state of the walk once it has accepted the first `n` entries. -/
structure Walked (N : NumberText) (ds : List SnapshotChunkDescriptor) (budget : ChunkedFoldBudget)
    (entries : List LogEntry) (n : Nat) (st : PrefetchState) : Prop where
  length : n ≤ entries.length
  count : n ≤ budget.maxLogEntries
  candidates : st.candidateLogSeqEnds = (entries.take n).map LogEntry.seq
  collapsed : collapseMutations InsMap.empty (entries.take n) = .ok st.runningMutations
  cost : st.runningMutationBytes = mutationCost N ds st.runningMutations
  cheap : ∀ k ms, k ≤ n → collapseMutations InsMap.empty (entries.take k) = .ok ms →
    mutationCost N ds ms ≤ budget.maxMutationBytes
  direct : ∀ k ms, k ≤ n → collapseMutations InsMap.empty (entries.take k) = .ok ms →
    directIndexes ds ms ⊆ st.allDirectIndexes
  pairs : ∀ k ms, k ≤ n → collapseMutations InsMap.empty (entries.take k) = .ok ms →
    directIndexes ds ms ≠ ∅ → st.locked = pairOf ds ms
  locked : ∀ pair, st.locked = some pair → ∃ k ms, k < n ∧
    collapseMutations InsMap.empty (entries.take (k + 1)) = .ok ms ∧ pairOf ds ms = some pair
  touched : st.locked = none → st.allDirectIndexes = ∅
  chunks : st.allDirectIndexes.card ≤ budget.maxTouchedChunks
  bytes : touchedBytes ds (st.allDirectIndexes ∪ st.neighbor.toFinset) ≤ budget.maxTouchedBytes

/-- Nothing is walked at the start. -/
theorem walked_start : Walked N ds budget entries 0 .start where
  length := Nat.zero_le _
  count := Nat.zero_le _
  candidates := rfl
  collapsed := rfl
  cost := rfl
  cheap k ms hk h := by
    rw [Nat.le_zero.mp hk, List.take_zero] at h
    cases h
    exact Nat.zero_le _
  direct k ms hk h := by
    rw [Nat.le_zero.mp hk, List.take_zero] at h
    cases h
    exact Finset.Subset.refl _
  pairs k ms hk h hne := by
    rw [Nat.le_zero.mp hk, List.take_zero] at h
    cases h
    exact absurd rfl hne
  locked pair h := by cases h
  touched _ := rfl
  chunks := Nat.zero_le _
  bytes := Nat.zero_le _

/-- Why the walk stopped after `n` entries with the variables `st`. -/
inductive Stopped (N : NumberText) (ds : List SnapshotChunkDescriptor) (budget : ChunkedFoldBudget)
    (entries : List LogEntry) (n : Nat) (st : PrefetchState) : (end_ : PrefetchState) → Prop
  | ended : entries.length ≤ n → Stopped N ds budget entries n st st
  | full : budget.maxLogEntries < n + 1 → Stopped N ds budget entries n st st
  | costly (ms : InsMap JsString ReferenceMutation) (end_ : PrefetchState) :
    collapseMutations InsMap.empty (entries.take (n + 1)) = .ok ms →
    budget.maxMutationBytes < mutationCost N ds ms →
    end_.candidateLogSeqEnds = st.candidateLogSeqEnds →
    end_.allDirectIndexes = st.allDirectIndexes → end_.locked = st.locked →
    Stopped N ds budget entries n st end_
  | moved (ms : InsMap JsString ReferenceMutation) (end_ : PrefetchState) :
    collapseMutations InsMap.empty (entries.take (n + 1)) = .ok ms →
    st.locked ≠ none → pairOf ds ms ≠ st.locked →
    end_.candidateLogSeqEnds = st.candidateLogSeqEnds →
    end_.allDirectIndexes = st.allDirectIndexes → end_.locked = st.locked →
    Stopped N ds budget entries n st end_
  | ceiling (ms : InsMap JsString ReferenceMutation) (end_ : PrefetchState) :
    n < entries.length → n + 1 ≤ budget.maxLogEntries →
    collapseMutations InsMap.empty (entries.take (n + 1)) = .ok ms →
    mutationCost N ds ms ≤ budget.maxMutationBytes →
    (st.locked = none ∨ pairOf ds ms = st.locked) →
    (budget.maxTouchedChunks < (st.allDirectIndexes ∪ directIndexes ds ms).card ∨
      budget.maxTouchedBytes < touchedBytes ds (st.allDirectIndexes ∪ directIndexes ds ms ∪
        ((pairOf ds ms).bind Prod.snd).toFinset)) →
    end_.candidateLogSeqEnds = st.candidateLogSeqEnds →
    end_.allDirectIndexes = st.allDirectIndexes → end_.locked = pairOf ds ms →
    Stopped N ds budget entries n st end_

/-- A round of the walk, from the running mutations and what they cost. -/
def endpointRound (ds : List SnapshotChunkDescriptor) (budget : ChunkedFoldBudget)
    (st : PrefetchState) (seq : Nat) (ms : InsMap JsString ReferenceMutation) (cost : Int) :
    PrefetchState × Bool :=
  let st := { st with runningMutations := ms, runningMutationBytes := cost }
  if (budget.maxMutationBytes : Int) < cost then (st, false)
  else
    match lockPair st.locked (deriveOwnerAndNeighbor (directIndexes ds ms) ds.length) with
    | none => (st, false)
    | some locked =>
      let st := { st with locked := locked }
      let cumulative := st.allDirectIndexes ∪ directIndexes ds ms
      if budget.maxTouchedChunks < cumulative.card then (st, false)
      else if budget.maxTouchedBytes < touchedBytes ds (cumulative ∪ st.neighbor.toFinset) then
        (st, false)
      else ({ st with candidateLogSeqEnds := st.candidateLogSeqEnds ++ [seq]
                      allDirectIndexes := cumulative }, true)

/-- One round: stop at a budget, or go on with one more endpoint. -/
theorem endpointRound_ok {st : PrefetchState} {seq : Nat} {ms : InsMap JsString ReferenceMutation}
    {cost : Int} :
    (if (budget.maxMutationBytes : Int) < cost then
      .ok ({ st with runningMutations := ms, runningMutationBytes := cost }, false)
    else
      match lockPair st.locked (deriveOwnerAndNeighbor (directIndexes ds ms) ds.length) with
      | none => .ok ({ st with runningMutations := ms, runningMutationBytes := cost }, false)
      | some locked =>
        let st : PrefetchState :=
          { st with runningMutations := ms, runningMutationBytes := cost, locked := locked }
        let cumulative := st.allDirectIndexes ∪ directIndexes ds ms
        if budget.maxTouchedChunks < cumulative.card then .ok (st, false)
        else if budget.maxTouchedBytes < touchedBytes ds (cumulative ∪ st.neighbor.toFinset) then
          .ok (st, false)
        else .ok ({ st with candidateLogSeqEnds := st.candidateLogSeqEnds ++ [seq]
                            allDirectIndexes := cumulative }, true) :
      Except Err (PrefetchState × Bool)) = .ok (endpointRound ds budget st seq ms cost) := by
  unfold endpointRound
  dsimp only
  split
  · rfl
  · split
    · rfl
    · split
      · rfl
      · split
        · rfl
        · rfl

/-- The bytes the walk keeps are what the running mutations cost. -/
theorem prefetchStep_eq {st : PrefetchState} {entry : LogEntry}
    (hcost : st.runningMutationBytes = mutationCost N ds st.runningMutations) :
    prefetchStep N ds budget st entry = (do
      let mutation ← entryToMutation entry
      .ok (endpointRound ds budget st entry.seq (st.runningMutations.set entry.docId mutation)
        (mutationCost N ds (st.runningMutations.set entry.docId mutation)))) := by
  unfold prefetchStep
  cases entryToMutation entry with
  | error e => rfl
  | ok mutation =>
    show _ = Except.ok (endpointRound ds budget st entry.seq
      (st.runningMutations.set entry.docId mutation)
      (mutationCost N ds (st.runningMutations.set entry.docId mutation)))
    rw [← endpointRound_ok]
    have hsum := mutationCost_set N ds st.runningMutations entry.docId mutation
    cases hget : st.runningMutations.get entry.docId with
    | none =>
      rw [hget] at hsum
      have hbytes : (mutationCost N ds (st.runningMutations.set entry.docId mutation) : Int) =
          st.runningMutationBytes - 0 + computeMutationContribution N mutation ds := by
        simp only [Option.map_none, Option.getD_none] at hsum
        omega
      rw [hbytes]
      rfl
    | some m =>
      rw [hget] at hsum
      have hbytes : (mutationCost N ds (st.runningMutations.set entry.docId mutation) : Int) =
          st.runningMutationBytes - computeMutationContribution N m ds +
            computeMutationContribution N mutation ds := by
        simp only [Option.map_some, Option.getD_some] at hsum
        omega
      rw [hbytes]
      rfl

/-- **What one round of the walk does.** -/
theorem prefetchStep_ok {n : Nat} {st st' : PrefetchState} {entry : LogEntry} {go : Bool}
    (hw : Walked N ds budget entries n st) (hentry : entries[n]? = some entry)
    (hcount : n + 1 ≤ budget.maxLogEntries)
    (h : prefetchStep N ds budget st entry = .ok (st', go)) :
    if go then Walked N ds budget entries (n + 1) st' else Stopped N ds budget entries n st st' := by
  have hn : n < entries.length := (List.getElem?_eq_some_iff.mp hentry).1
  rw [prefetchStep_eq hw.cost] at h
  obtain ⟨mutation, hmutation, h⟩ := except_bind_ok h
  have hcollapse : collapseMutations InsMap.empty (entries.take (n + 1)) =
      .ok (st.runningMutations.set entry.docId mutation) := by
    rw [collapse_take_succ hentry, bind_of_ok hw.collapsed, bind_of_ok hmutation]
  revert h hcollapse
  generalize st.runningMutations.set entry.docId mutation = ms
  intro h hcollapse
  replace h := Except.ok.inj h
  unfold endpointRound at h
  dsimp only at h
  split at h
  next hover =>
    cases h
    exact .costly ms _ hcollapse (by omega) rfl rfl rfl
  next hcheap =>
    split at h
    next hlock =>
      cases h
      cases hst : st.locked with
      | none =>
        simp only [hst] at hlock
        rw [lockPair_none] at hlock
        cases hlock
      | some pair =>
        simp only [hst] at hlock
        rw [lockPair_some] at hlock
        refine .moved ms _ hcollapse (by rw [hst]; simp) (fun heq => ?_) rfl rfl hst.symm
        rw [hst] at heq
        rw [if_pos heq] at hlock
        cases hlock
    next locked hlock =>
      -- the lock is the pair of the running mutations, whether it was taken before or is taken now
      have hpair : locked = pairOf ds ms ∧ (st.locked = none ∨ pairOf ds ms = st.locked) := by
        cases hst : st.locked with
        | none =>
          simp only [hst] at hlock
          rw [lockPair_none] at hlock
          exact ⟨(Option.some.inj hlock).symm, Or.inl rfl⟩
        | some pair =>
          simp only [hst] at hlock
          rw [lockPair_some] at hlock
          split at hlock
          next heq =>
            rw [heq]
            exact ⟨(Option.some.inj hlock).symm, Or.inr rfl⟩
          next => cases hlock
      obtain ⟨rfl, hkeep⟩ := hpair
      have hdirect : st.locked = none → st.allDirectIndexes = ∅ := hw.touched
      split at h
      next hchunks =>
        cases h
        exact .ceiling ms _ hn hcount hcollapse (by omega) hkeep (Or.inl hchunks) rfl rfl rfl
      next hchunks =>
        split at h
        next htouched =>
          cases h
          exact .ceiling ms _ hn hcount hcollapse (by omega) hkeep (Or.inr htouched) rfl rfl rfl
        next htouched =>
          cases h
          have hstep : ∀ k ms', k ≤ n + 1 →
              collapseMutations InsMap.empty (entries.take k) = .ok ms' → k ≤ n ∨ ms' = ms := by
            intro k ms' hk hms'
            rcases Nat.lt_or_eq_of_le hk with hlt | rfl
            · exact Or.inl (by omega)
            · rw [hcollapse] at hms'
              exact Or.inr (Except.ok.inj hms').symm
          exact
            { length := hn
              count := hcount
              candidates := by
                show st.candidateLogSeqEnds ++ [entry.seq] = _
                rw [hw.candidates, List.take_add_one, hentry]
                simp
              collapsed := hcollapse
              cost := rfl
              cheap := fun k ms' hk hms' => by
                rcases hstep k ms' hk hms' with hle | rfl
                · exact hw.cheap k ms' hle hms'
                · omega
              direct := fun k ms' hk hms' => by
                show directIndexes ds ms' ⊆ st.allDirectIndexes ∪ directIndexes ds ms
                rcases hstep k ms' hk hms' with hle | rfl
                · exact (hw.direct k ms' hle hms').trans Finset.subset_union_left
                · exact Finset.subset_union_right
              pairs := fun k ms' hk hms' hne => by
                show pairOf ds ms = pairOf ds ms'
                rcases hstep k ms' hk hms' with hle | rfl
                · have hold := hw.pairs k ms' hle hms' hne
                  rcases hkeep with hnone | hsame
                  · have hempty := hw.direct k ms' hle hms'
                    rw [hdirect hnone, Finset.subset_empty] at hempty
                    exact absurd hempty hne
                  · rw [hsame, hold]
                · rfl
              locked := fun pair hpair => ⟨n, ms, Nat.lt_succ_self n, hcollapse, hpair⟩
              touched := fun hnone => by
                show st.allDirectIndexes ∪ directIndexes ds ms = ∅
                have hnone' : pairOf ds ms = none := hnone
                have hempty := pairOf_none.mp hnone'
                have hbefore : st.locked = none := by
                  rcases hkeep with hst | hsame
                  · exact hst
                  · rw [← hsame]
                    exact hnone'
                rw [hdirect hbefore, hempty]
                rfl
              chunks := Nat.not_lt.mp hchunks
              bytes := Nat.not_lt.mp htouched }

/-- **The walk accepts a run of first entries**, and stops for one of the reasons. -/
theorem prefetchWalk_ok {n : Nat} {st st' : PrefetchState} (hw : Walked N ds budget entries n st)
    (h : prefetchWalk N ds budget n st (entries.drop n) = .ok st') :
    ∃ n' last, Walked N ds budget entries n' last ∧ Stopped N ds budget entries n' last st' := by
  induction hrest : entries.drop n generalizing n st with
  | nil =>
    rw [hrest] at h
    cases h
    exact ⟨n, _, hw, .ended (List.drop_eq_nil_iff.mp hrest)⟩
  | cons entry rest ih =>
    rw [hrest, prefetchWalk] at h
    have hentry : entries[n]? = some entry := by
      rw [← List.head?_drop, hrest]
      rfl
    have hdrop : entries.drop (n + 1) = rest := by
      rw [← List.drop_drop, hrest]
      rfl
    split at h
    next hfull =>
      cases h
      exact ⟨n, _, hw, .full hfull⟩
    next hcount =>
      obtain ⟨⟨next, go⟩, hstep, h⟩ := except_bind_ok h
      have hround := prefetchStep_ok hw hentry (Nat.not_lt.mp hcount) hstep
      cases go with
      | true =>
        have hnext : Walked N ds budget entries (n + 1) next := hround
        rw [← hdrop] at h
        exact ih hnext h hdrop
      | false =>
        cases h
        exact ⟨n, _, hw, hround⟩

/-- A round that stops adds no endpoint. -/
theorem Stopped.same {n : Nat} {st st' : PrefetchState} (h : Stopped N ds budget entries n st st') :
    st'.candidateLogSeqEnds = st.candidateLogSeqEnds ∧ st'.allDirectIndexes = st.allDirectIndexes := by
  cases h with
  | ended => exact ⟨rfl, rfl⟩
  | full => exact ⟨rfl, rfl⟩
  | costly _ _ _ _ hcandidates hdirect => exact ⟨hcandidates, hdirect⟩
  | moved _ _ _ _ _ hcandidates hdirect => exact ⟨hcandidates, hdirect⟩
  | ceiling _ _ _ _ _ _ _ _ hcandidates hdirect => exact ⟨hcandidates, hdirect⟩

/-- What the prefetch returns, from the variables the walk ends with. -/
def prefetchOf (ds : List SnapshotChunkDescriptor) (st : PrefetchState) : ChunkedFoldPrefetch where
  candidateLogSeqEnds := st.candidateLogSeqEnds
  directlyTouchedChunkIndexes := st.allDirectIndexes.sort (· ≤ ·)
  chunkIndexes := (st.allDirectIndexes ∪ st.neighbor.toFinset).sort (· ≤ ·)
  touchedBytes := touchedBytes ds (st.allDirectIndexes ∪ st.neighbor.toFinset)
  leftmostDirectOwnerIndex := st.locked.map Prod.fst
  selectedNeighborIndex := st.neighbor

/-- **The prefetch is the walk to its end.** -/
theorem prefetch_walked {p : ChunkedFoldPrefetch}
    (h : prefetchChunkedFold N entries ds budget = .ok p) :
    ∃ n last st, Walked N ds budget entries n last ∧ Stopped N ds budget entries n last st ∧
      p = prefetchOf ds st := by
  unfold prefetchChunkedFold at h
  obtain ⟨st, hst, h⟩ := except_bind_ok h
  cases h
  obtain ⟨n, last, hw, hstop⟩ := prefetchWalk_ok walked_start hst
  exact ⟨n, last, st, hw, hstop, rfl⟩

/-- Accepted entries are prefetched without a failure. -/
theorem prefetch_total (h : ∀ entry ∈ entries, ∃ m, entryToMutation entry = .ok m) :
    ∃ p, prefetchChunkedFold N entries ds budget = .ok p := by
  have hstep : ∀ st entry, entry ∈ entries →
      ∃ next, prefetchStep N ds budget st entry = .ok next := by
    intro st entry hentry
    obtain ⟨m, hm⟩ := h entry hentry
    unfold prefetchStep
    rw [bind_of_ok hm]
    dsimp only
    -- every branch returns
    repeat' split
    all_goals exact ⟨_, rfl⟩
  have hwalk : ∀ (rest : List LogEntry) (index : Nat) (st : PrefetchState),
      (∀ entry ∈ rest, entry ∈ entries) →
      ∃ st', prefetchWalk N ds budget index st rest = .ok st' := by
    intro rest
    induction rest with
    | nil => exact fun index st _ => ⟨st, rfl⟩
    | cons entry rest ih =>
      intro index st hrest
      rw [List.forall_mem_cons] at hrest
      rw [prefetchWalk]
      split
      · exact ⟨st, rfl⟩
      · obtain ⟨⟨next, go⟩, hnext⟩ := hstep st entry hrest.1
        rw [bind_of_ok hnext]
        cases go with
        | true => exact ih (index + 1) next hrest.2
        | false => exact ⟨next, rfl⟩
  obtain ⟨st, hst⟩ := hwalk entries 0 .start fun entry hentry => hentry
  unfold prefetchChunkedFold
  rw [bind_of_ok hst]
  exact ⟨_, rfl⟩

end Walk

/-! ## What the builder loads -/

section Load

variable {N : NumberText}

/-- The groups of the builder are the chunks touched directly. -/
theorem mem_touchedGroups {input : BuildSnapshotChunksInput} {i : Nat} :
    i ∈ touchedGroups input ↔ i ∈ directIndexes input.descriptors input.mutations := by
  rw [touchedGroups, List.mem_eraseDups, directIndexes, List.mem_toFinset]

/-- The input with every chunk loaded. -/
def loadAll (input : BuildSnapshotChunksInput) (all : Key → List Doc) : BuildSnapshotChunksInput :=
  { input with loadedChunks := fun key => some (all key) }

section LoadAll

variable {input : BuildSnapshotChunksInput} {all : Key → List Doc}

theorem loadAll_descriptors : (loadAll input all).descriptors = input.descriptors := rfl

theorem loadAll_lockedDirectOwnerIndex :
    (loadAll input all).lockedDirectOwnerIndex = input.lockedDirectOwnerIndex := rfl

theorem loadAll_selectedNeighborIndex :
    (loadAll input all).selectedNeighborIndex = input.selectedNeighborIndex := rfl

end LoadAll

/-- Every chunk the builder asks for is loaded: those of the touched groups, and the neighbour. -/
def LoadsEnough (input : BuildSnapshotChunksInput) : Prop :=
  ∀ i d, i ∈ touchedGroups input ∨ input.selectedNeighborIndex = some i →
    input.descriptors[i]? = some d → ∃ docs, input.loadedChunks d.key = some docs

/-- Loading everything changes nothing where the chunk was loaded. -/
theorem getLoadedDocs_all {input : BuildSnapshotChunksInput} {all : Key → List Doc}
    (hall : ∀ key docs, input.loadedChunks key = some docs → all key = docs)
    {d : SnapshotChunkDescriptor} (h : ∃ docs, input.loadedChunks d.key = some docs) :
    getLoadedDocs input.loadedChunks d = getLoadedDocs (loadAll input all).loadedChunks d := by
  obtain ⟨docs, hdocs⟩ := h
  have hsame : all d.key = docs := hall d.key docs hdocs
  rw [getLoadedDocs_ok.mpr hdocs, ← hsame]
  rfl

/-- **An input that loads enough is built as if everything were loaded.** -/
theorem evaluate_loadAll {input : BuildSnapshotChunksInput} {all : Key → List Doc}
    (hall : ∀ key docs, input.loadedChunks key = some docs → all key = docs)
    (h : LoadsEnough input) :
    evaluateSnapshotChunks N input = evaluateSnapshotChunks N (loadAll input all) := by
  -- a group that is touched reads its own chunk, which was loaded
  have hgroup : ∀ i ∈ touchedGroups input,
      evaluateGroup N input i = evaluateGroup N (loadAll input all) i := by
    intro i hi
    unfold evaluateGroup
    rw [loadAll_descriptors]
    cases hd : input.descriptors[i]? with
    | none => rfl
    | some d =>
      dsimp only
      rw [getLoadedDocs_all hall (h i d (Or.inl hi) hd)]
      rfl
  have hgroups : ∀ touched : List Nat, (∀ i ∈ touched, i ∈ touchedGroups input) →
      evaluateGroups N input touched = evaluateGroups N (loadAll input all) touched := by
    intro touched
    induction touched with
    | nil => exact fun _ => rfl
    | cons i touched ih =>
      intro htouched
      rw [List.forall_mem_cons] at htouched
      rw [evaluateGroups, evaluateGroups, hgroup i htouched.1, ih htouched.2]
  -- and the merge reads the neighbour's
  have hmerge : ∀ results, evaluateMerge N input (touchedGroups input) results =
      evaluateMerge N (loadAll input all) (touchedGroups input) results := by
    intro results
    unfold evaluateMerge
    rw [loadAll_lockedDirectOwnerIndex, loadAll_selectedNeighborIndex]
    cases input.lockedDirectOwnerIndex with
    | none => rfl
    | some owner =>
      cases hneighbor : input.selectedNeighborIndex with
      | none => rfl
      | some neighbor =>
        dsimp only
        have happly : ∀ items, applyFacingMerge N input owner neighbor (touchedGroups input) items =
            applyFacingMerge N (loadAll input all) owner neighbor (touchedGroups input) items := by
          intro items
          unfold applyFacingMerge
          rw [loadAll_descriptors]
          cases hd : input.descriptors[neighbor]? with
          | none => rfl
          | some d =>
            cases facingSide owner neighbor input.descriptors.length with
            | none => rfl
            | some side =>
              dsimp only
              rw [getLoadedDocs_all hall (h neighbor d (Or.inr hneighbor) hd)]
              rfl
        cases results.lookup owner with
        | none => rfl
        | some r =>
          cases r with
          | unchanged => rfl
          | rewritten items =>
            dsimp only
            rw [happly items]
  unfold evaluateSnapshotChunks
  -- the checks before look at no chunk
  refine bind_congr fun _ => bind_congr fun _ => bind_congr fun _ => bind_congr fun _ => ?_
  by_cases hnil : input.descriptors = []
  · rw [if_pos hnil, if_pos (show (loadAll input all).descriptors = [] from hnil)]
    rfl
  · rw [if_neg hnil, if_neg (show ¬ (loadAll input all).descriptors = [] from hnil)]
    show (evaluateGroups N input (touchedGroups input) >>= _) =
      (evaluateGroups N (loadAll input all) (touchedGroups input) >>= _)
    rw [hgroups _ fun i hi => hi]
    refine bind_congr fun results => ?_
    show (throws (evaluateMerge N input (touchedGroups input) results) >>= _) =
      (throws (evaluateMerge N (loadAll input all) (touchedGroups input) results) >>= _)
    rw [hmerge results]
    rfl

end Load

/-! ## Admission -/

section Admit

variable {N : NumberText} {input : PlanChunkedFoldInput} {p : ChunkedFoldPrefetch}

/-- The endpoint after `k + 1` entries was built. -/
def EndpointBuilt (N : NumberText) (input : PlanChunkedFoldInput) (p : ChunkedFoldPrefetch)
    (k : Nat) : Prop :=
  ∃ ms evaluation, collapseMutations InsMap.empty (input.entries.take (k + 1)) = .ok ms ∧
    evaluateSnapshotChunks N (buildInput input p ms) = .ok evaluation

/-- How many neighbours an evaluation used. -/
def neighborsUsed (used : Option Nat) : Nat := if used = none then 0 else 1

/-- What is admitted is the endpoint after `k + 1` entries. -/
structure Admitted (N : NumberText) (input : PlanChunkedFoldInput) (p : ChunkedFoldPrefetch)
    (k : Nat) (admitted : AdmittedFold) : Prop where
  endpoint : p.candidateLogSeqEnds[k]? = some admitted.logSeqEnd
  collapsed : collapseMutations InsMap.empty (input.entries.take (k + 1)) = .ok admitted.mutations
  evaluated : evaluateSnapshotChunks N (buildInput input p admitted.mutations) =
    .ok admitted.evaluation
  splits : admitted.evaluation.splitIncrements ≤ input.budget.maxSplitIncrements
  neighbors : neighborsUsed admitted.evaluation.usedNeighborChunkIndex ≤
    input.budget.maxNeighborChunks
  built : ∀ j, j ≤ k → EndpointBuilt N input p j

/-- **An admitted fold is that of one of the endpoints.** -/
theorem admitFrom_ok {index : Nat} {last : Option AdmittedFold} {admitted : AdmittedFold}
    (hbuilt : ∀ j, j < index → EndpointBuilt N input p j)
    (hlast : ∀ fold, last = some fold → ∃ k, Admitted N input p k fold)
    (h : admitFrom N input p index last (p.candidateLogSeqEnds.drop index) = .ok (some admitted)) :
    ∃ k, Admitted N input p k admitted := by
  induction hrest : p.candidateLogSeqEnds.drop index generalizing index last with
  | nil =>
    rw [hrest] at h
    exact hlast admitted (Except.ok.inj h)
  | cons seq seqs ih =>
    rw [hrest, admitFrom] at h
    obtain ⟨ms, hms, h⟩ := stop_bind_ok.mp h
    obtain ⟨evaluation, hevaluation, h⟩ := stop_bind_ok.mp h
    have hcollapse := throws_ok.mp hms
    have hseq : p.candidateLogSeqEnds[index]? = some seq := by
      rw [← List.head?_drop, hrest]
      rfl
    have hdrop : p.candidateLogSeqEnds.drop (index + 1) = seqs := by
      rw [← List.drop_drop, hrest]
      rfl
    have hbuilt' : ∀ j, j < index + 1 → EndpointBuilt N input p j := by
      intro j hj
      rcases Nat.lt_or_eq_of_le (Nat.le_of_lt_succ hj) with hlt | rfl
      · exact hbuilt j hlt
      · exact ⟨ms, evaluation, hcollapse, hevaluation⟩
    change (if input.budget.maxSplitIncrements < evaluation.splitIncrements ∨
      input.budget.maxNeighborChunks < neighborsUsed evaluation.usedNeighborChunkIndex then _
      else _) = _ at h
    split at h
    next => exact hlast admitted (Except.ok.inj h)
    next hwithin =>
      rw [not_or, Nat.not_lt, Nat.not_lt] at hwithin
      rw [← hdrop] at h
      refine ih hbuilt' (fun fold hfold => ?_) h hdrop
      cases hfold
      exact ⟨index, hseq, hcollapse, hevaluation, hwithin.1, hwithin.2,
        fun j hj => hbuilt' j (Nat.lt_succ_of_le hj)⟩

/-- **What a plan is**: of no entries at all, or of an admitted endpoint. -/
theorem planChunkedFold_ok {snapshotHash : List Byte → JsString} {plan : ChunkedFoldPlan}
    (hp : prefetchChunkedFold N input.entries input.descriptors input.budget = .ok p)
    (h : planChunkedFold N snapshotHash input = .ok (some plan)) :
    (input.entries = [] ∧ plan = emptyPlan input p) ∨
      ∃ k admitted, Admitted N input p k admitted ∧
        admittedPlan N snapshotHash input p admitted = .ok plan := by
  unfold planChunkedFold at h
  rw [hp] at h
  change (if p.candidateLogSeqEnds = [] then
    (.ok (if input.entries = [] then some (emptyPlan input p) else none) :
      Except Stop (Option ChunkedFoldPlan)) else _) = _ at h
  split at h
  next =>
    split at h
    next hnil => exact Or.inl ⟨hnil, (Option.some.inj (Except.ok.inj h)).symm⟩
    next => cases h
  next =>
    obtain ⟨found, hfound, h⟩ := stop_bind_ok.mp h
    cases found with
    | none => cases h
    | some admitted =>
      obtain ⟨plan', hplan, h⟩ := stop_bind_ok.mp h
      cases h
      obtain ⟨k, hk⟩ := @admitFrom_ok N input p 0 none admitted
        (fun j hj => absurd hj (Nat.not_lt_zero j)) (fun fold hfold => (by cases hfold)) hfound
      exact Or.inr ⟨k, admitted, hk, throws_ok.mp hplan⟩

/-- Its plan has its mutations and its end. -/
theorem admittedPlan_ok {snapshotHash : List Byte → JsString} {admitted : AdmittedFold}
    {plan : ChunkedFoldPlan} (h : admittedPlan N snapshotHash input p admitted = .ok plan) :
    plan.mutations = admitted.mutations ∧ plan.logSeqEnd = admitted.logSeqEnd := by
  unfold admittedPlan at h
  obtain ⟨build, _, h⟩ := except_bind_ok h
  cases h
  exact ⟨rfl, rfl⟩

/-- The chunks the prefetch names are loaded. -/
def PrefetchLoaded (input : PlanChunkedFoldInput) (p : ChunkedFoldPrefetch) : Prop :=
  ∀ i d, i ∈ p.chunkIndexes → input.descriptors[i]? = some d →
    ∃ docs, input.loadedChunks d.key = some docs

/-- An accepted endpoint: its collapse, and the chunks it may ask for. -/
theorem candidate_loads
    (hp : prefetchChunkedFold N input.entries input.descriptors input.budget = .ok p)
    (hload : PrefetchLoaded input p) {k : Nat} (hk : k < p.candidateLogSeqEnds.length) :
    ∃ ms, collapseMutations InsMap.empty (input.entries.take (k + 1)) = .ok ms ∧
      LoadsEnough (buildInput input p ms) := by
  obtain ⟨n, last, st, hw, hstop, rfl⟩ := prefetch_walked hp
  obtain ⟨hcandidates, hdirect⟩ := hstop.same
  have hkn : k < n := by
    have hlen : (prefetchOf input.descriptors st).candidateLogSeqEnds.length ≤ n := by
      show st.candidateLogSeqEnds.length ≤ n
      rw [hcandidates, hw.candidates, List.length_map]
      exact List.length_take_le n input.entries
    omega
  obtain ⟨ms, hms⟩ : ∃ ms, collapseMutations InsMap.empty (input.entries.take (k + 1)) = .ok ms :=
    collapse_take_of_le hw.collapsed (by omega)
  refine ⟨ms, hms, fun i d hi hd => hload i d ?_ hd⟩
  show i ∈ (st.allDirectIndexes ∪ st.neighbor.toFinset).sort (· ≤ ·)
  rw [Finset.mem_sort, Finset.mem_union]
  rcases hi with htouched | hneighbor
  · left
    rw [hdirect]
    exact hw.direct (k + 1) ms (by omega) hms (mem_touchedGroups.mp htouched)
  · right
    rw [Option.mem_toFinset]
    exact hneighbor

/-- **The prefetch is enough for the plan.**  Every endpoint it accepts collapses, asks only for
    chunks that are loaded, and is built as if every chunk were; and the mutations of a plan are the
    last writes of a run of first entries that ends at its `log_seq_end`. -/
theorem prefetch_sufficient (N : NumberText) (snapshotHash : List Byte → JsString)
    (input : PlanChunkedFoldInput)
    (haccept : ∀ entry ∈ input.entries, ∃ m, entryToMutation entry = .ok m) :
    ∃ p, prefetchChunkedFold N input.entries input.descriptors input.budget = .ok p ∧
      (PrefetchLoaded input p →
        (∀ k, k < p.candidateLogSeqEnds.length → ∃ ms,
          collapseMutations InsMap.empty (input.entries.take (k + 1)) = .ok ms ∧
          LoadsEnough (buildInput input p ms) ∧
          ∀ all : Key → List Doc,
            (∀ key docs, input.loadedChunks key = some docs → all key = docs) →
            evaluateSnapshotChunks N (buildInput input p ms) =
              evaluateSnapshotChunks N (loadAll (buildInput input p ms) all)) ∧
        ∀ plan, planChunkedFold N snapshotHash input = .ok (some plan) →
          ∃ n, n ≤ input.entries.length ∧ (n = 0 → input.entries = []) ∧
            (∀ id m, plan.mutations.get id = some m ↔ LastWrite (input.entries.take n) id m) ∧
            ∀ last, (input.entries.take n).getLast? = some last → plan.logSeqEnd = last.seq) := by
  obtain ⟨p, hp⟩ := @prefetch_total N input.descriptors input.budget input.entries haccept
  refine ⟨p, hp, fun hload => ⟨fun k hk => ?_, fun plan hplan => ?_⟩⟩
  · obtain ⟨ms, hms, henough⟩ := candidate_loads hp hload hk
    exact ⟨ms, hms, henough, fun all hall => evaluate_loadAll hall henough⟩
  · rcases planChunkedFold_ok hp hplan with ⟨hnil, rfl⟩ | ⟨k, admitted, hk, hadmitted⟩
    · refine ⟨0, Nat.zero_le _, fun _ => hnil, fun id m => ?_, fun last hlast => ?_⟩
      · rw [List.take_zero]
        exact ⟨fun hget => (by cases hget), fun hwrite => absurd hwrite not_lastWrite_nil⟩
      · rw [List.take_zero] at hlast
        cases hlast
    · obtain ⟨n, last, st, hw, hstop, rfl⟩ := prefetch_walked hp
      obtain ⟨hmutations, hseq⟩ := admittedPlan_ok hadmitted
      have hendpoint := hk.endpoint
      change st.candidateLogSeqEnds[k]? = some admitted.logSeqEnd at hendpoint
      rw [hstop.same.1, hw.candidates, List.getElem?_map, Option.map_eq_some_iff] at hendpoint
      obtain ⟨entry, hentry, hseq'⟩ := hendpoint
      have hkn : k < n := by
        have hlt := (List.getElem?_eq_some_iff.mp hentry).1
        rw [List.length_take] at hlt
        omega
      have hentry' : input.entries[k]? = some entry := by
        rw [← hentry, List.getElem?_take_of_lt hkn]
      refine ⟨k + 1, (List.getElem?_eq_some_iff.mp hentry').1, fun h => (by omega),
        fun id m => ?_, fun final hfinal => ?_⟩
      · rw [hmutations]
        exact collapse_lastWrite hk.collapsed id m
      · rw [List.take_add_one, hentry'] at hfinal
        simp only [Option.toList_some, List.getLast?_append, List.getLast?_singleton,
          Option.some_or, Option.some.injEq] at hfinal
        rw [hseq, ← hseq', hfinal]

/-! ## Two chunks and a delete, to try the planner on -/

/-- A chunk with the one document `x`, of `size` bytes. -/
def bareDescriptor (x : String) (digit : Fin 65536) (size : Nat) : SnapshotChunkDescriptor where
  firstId := js x
  lastId := js x
  key := chunkKey (List.replicate 64 digit)
  byteLength := size
  rowCount := 1

/-- The delete of `x` at `seq`. -/
def deleteEntry (x : String) (seq : Nat) : LogEntry where
  lsn := ⟨0, 0, seq⟩
  commitTs := 0
  op := .D
  collection := js "notes"
  docId := js x
  after := none
  origin := none
  session := 0
  seq := seq

/-- The chunks of `a` and of `c`, and the delete of `a`. -/
def twoChunks (maxTouchedBytes : Nat) : PlanChunkedFoldInput where
  collection := js "notes"
  collectionPrefix := js "p"
  entries := [deleteEntry "a" 7]
  descriptors := [bareDescriptor "a" 97 100, bareDescriptor "c" 98 100]
  loadedChunks key :=
    if key = chunkKey (List.replicate 64 97) then some [bareDoc "a"]
    else if key = chunkKey (List.replicate 64 98) then some [bareDoc "c"] else none
  budget := ⟨10, 100, 4, maxTouchedBytes, 4, 1⟩
  incarnation := zeroIncarnation
  policy := ⟨1000, 100⟩
  baseLogSeq := none

theorem twoChunks_accepts (size : Nat) :
    ∀ entry ∈ (twoChunks size).entries, ∃ m, entryToMutation entry = .ok m := by
  intro entry hentry
  rw [List.mem_singleton.mp hentry]
  exact ⟨.delete (js "a"), rfl⟩

theorem twoChunks_touched (size : Nat) (ms : InsMap JsString ReferenceMutation)
    (h : collapseMutations InsMap.empty ((twoChunks size).entries.take 1) = .ok ms) :
    directIndexes (twoChunks size).descriptors ms = {0} := by
  have hms : collapseMutations InsMap.empty ((twoChunks size).entries.take 1) =
      .ok (InsMap.empty.set (js "a") (.delete (js "a"))) := rfl
  rw [hms, Except.ok.injEq] at h
  rw [← h]
  show directIndexes [bareDescriptor "a" 97 100, bareDescriptor "c" 98 100] _ = _
  decide +kernel

theorem twoChunks_first (size : Nat) :
    (twoChunks size).loadedChunks (chunkKey (List.replicate 64 97)) = some [bareDoc "a"] := by
  unfold twoChunks
  dsimp only
  rw [if_pos rfl]

theorem twoChunks_second (size : Nat) :
    (twoChunks size).loadedChunks (chunkKey (List.replicate 64 98)) = some [bareDoc "c"] := by
  have hne : chunkKey (List.replicate 64 98) ≠ chunkKey (List.replicate 64 97) := by decide +kernel
  unfold twoChunks
  dsimp only
  rw [if_neg hne, if_pos rfl]

/-- Both chunks are loaded, so whatever the prefetch names is. -/
theorem twoChunks_loaded (size : Nat) (p : ChunkedFoldPrefetch) :
    PrefetchLoaded (twoChunks size) p := by
  intro i d _ hd
  rcases List.mem_cons.mp (List.mem_of_getElem? hd) with rfl | hd
  · exact ⟨_, twoChunks_first size⟩
  · rw [List.mem_singleton.mp hd]
    exact ⟨_, twoChunks_second size⟩

/-- Both chunks are within the ceiling: the delete is planned. -/
theorem prefetch_sufficient_delete :
    (∀ entry ∈ (twoChunks 200).entries, ∃ m, entryToMutation entry = .ok m) ∧
      ∃ p, prefetchChunkedFold integerText (twoChunks 200).entries (twoChunks 200).descriptors
          (twoChunks 200).budget = .ok p ∧
        PrefetchLoaded (twoChunks 200) p ∧
        ∀ k, k < p.candidateLogSeqEnds.length → ∃ ms,
          collapseMutations InsMap.empty ((twoChunks 200).entries.take (k + 1)) = .ok ms ∧
          LoadsEnough (buildInput (twoChunks 200) p ms) := by
  refine ⟨twoChunks_accepts 200, ?_⟩
  obtain ⟨p, hp, h⟩ := prefetch_sufficient integerText (fun _ => notesDigest) (twoChunks 200)
    (twoChunks_accepts 200)
  refine ⟨p, hp, twoChunks_loaded 200 p, fun k hk => ?_⟩
  obtain ⟨ms, hms, henough, -⟩ := (h (twoChunks_loaded 200 p)).1 k hk
  exact ⟨ms, hms, henough⟩

/-! ## The budget -/

/-- The pair is the one of an accepted endpoint, or there is none. -/
def PairOfEndpoint (ds : List SnapshotChunkDescriptor) (entries : List LogEntry)
    (p : ChunkedFoldPrefetch) : Prop :=
  (p.leftmostDirectOwnerIndex = none ∧ p.selectedNeighborIndex = none) ∨
    ∃ k ms, k < p.candidateLogSeqEnds.length ∧
      collapseMutations InsMap.empty (entries.take (k + 1)) = .ok ms ∧
      deriveOwnerAndNeighbor (directIndexes ds ms) ds.length =
        (p.leftmostDirectOwnerIndex, p.selectedNeighborIndex)

/-- A prefetch within its fetch budget. -/
structure FetchWithin (ds : List SnapshotChunkDescriptor) (entries : List LogEntry)
    (budget : ChunkedFoldBudget) (p : ChunkedFoldPrefetch) : Prop where
  chunks : p.chunkIndexes.length ≤ budget.maxTouchedChunks + 1
  exact : p.touchedBytes =
    (p.chunkIndexes.map fun i => (ds[i]?.map (·.byteLength)).getD 0).sum
  bytes : p.touchedBytes ≤ budget.maxTouchedBytes
  pair : PairOfEndpoint ds entries p

/-- A plan within its budget. -/
structure PlanWithin (input : PlanChunkedFoldInput) (plan : ChunkedFoldPlan) : Prop where
  entries : ∃ n, n ≤ input.entries.length ∧ n ≤ input.budget.maxLogEntries ∧
    collapseMutations InsMap.empty (input.entries.take n) = .ok plan.mutations
  mutations : plan.mutationBytes ≤ input.budget.maxMutationBytes
  splits : plan.build.splitIncrements ≤ input.budget.maxSplitIncrements
  neighbors : neighborsUsed plan.build.usedNeighborChunkIndex ≤ input.budget.maxNeighborChunks

/-- The first endpoint that touches a chunk, reached within the entry and mutation budgets, is
    within the ceilings on touched chunks. -/
def LockFits (N : NumberText) (ds : List SnapshotChunkDescriptor) (entries : List LogEntry)
    (budget : ChunkedFoldBudget) : Prop :=
  ∀ j ms, j < entries.length → j + 1 ≤ budget.maxLogEntries →
    (∀ i ms', i ≤ j + 1 → collapseMutations InsMap.empty (entries.take i) = .ok ms' →
      mutationCost N ds ms' ≤ budget.maxMutationBytes) →
    (∀ i ms', i ≤ j → collapseMutations InsMap.empty (entries.take i) = .ok ms' →
      directIndexes ds ms' = ∅) →
    collapseMutations InsMap.empty (entries.take (j + 1)) = .ok ms → directIndexes ds ms ≠ ∅ →
    (directIndexes ds ms).card ≤ budget.maxTouchedChunks ∧
      touchedBytes ds (directIndexes ds ms ∪ ((pairOf ds ms).bind Prod.snd).toFinset) ≤
        budget.maxTouchedBytes

/-- More chunks have more bytes. -/
theorem touchedBytes_mono {ds : List SnapshotChunkDescriptor} {s t : Finset Nat} (h : s ⊆ t) :
    touchedBytes ds s ≤ touchedBytes ds t :=
  Finset.sum_le_sum_of_subset h

/-- They are summed in the order of the chunks. -/
theorem touchedBytes_sort (ds : List SnapshotChunkDescriptor) (s : Finset Nat) :
    touchedBytes ds s = ((s.sort (· ≤ ·)).map fun i => (ds[i]?.map (·.byteLength)).getD 0).sum := by
  unfold touchedBytes
  rw [← Finset.sum_map_toList]
  exact ((Finset.sort_perm_toList s (· ≤ ·)).map _).sum_eq.symm

section Fetch

variable {ds : List SnapshotChunkDescriptor} {budget : ChunkedFoldBudget} {entries : List LogEntry}

/-- One chunk is loaded beside those touched directly, at most. -/
theorem prefetchOf_chunks (st : PrefetchState) :
    (prefetchOf ds st).chunkIndexes.length ≤ st.allDirectIndexes.card + 1 := by
  show ((st.allDirectIndexes ∪ st.neighbor.toFinset).sort (· ≤ ·)).length ≤ _
  rw [Finset.length_sort]
  have hneighbor : st.neighbor.toFinset.card ≤ 1 := by
    cases st.neighbor with
    | none => exact Nat.zero_le 1
    | some i => exact Nat.le_refl 1
  have hunion := Finset.card_union_le st.allDirectIndexes st.neighbor.toFinset
  omega

/-- The pair of an accepted lock. -/
theorem Walked.pairOfEndpoint {n : Nat} {last st : PrefetchState}
    (hw : Walked N ds budget entries n last)
    (hcandidates : st.candidateLogSeqEnds = last.candidateLogSeqEnds)
    (hlocked : st.locked = last.locked) : PairOfEndpoint ds entries (prefetchOf ds st) := by
  cases hlast : last.locked with
  | none =>
    left
    rw [hlast] at hlocked
    exact ⟨by show st.locked.map Prod.fst = none; rw [hlocked]; rfl,
      by show st.locked.bind Prod.snd = none; rw [hlocked]; rfl⟩
  | some pair =>
    right
    obtain ⟨k, ms, hk, hms, hpair⟩ := hw.locked pair hlast
    refine ⟨k, ms, ?_, hms, ?_⟩
    · show k < st.candidateLogSeqEnds.length
      rw [hcandidates, hw.candidates, List.length_map, List.length_take]
      have := hw.length
      omega
    · show _ = (st.locked.map Prod.fst, st.locked.bind Prod.snd)
      rw [hlocked, hlast, ← hpair]
      unfold pairOf
      cases hderive : deriveOwnerAndNeighbor (directIndexes ds ms) ds.length with
      | mk owner neighbor =>
        cases owner with
        | none =>
          have hnone := @derive_snd (directIndexes ds ms) ds.length (by rw [hderive])
          rw [hderive] at hnone
          cases hnone
          rfl
        | some owner => rfl

/-- A lock that fits was taken by an accepted endpoint. -/
theorem LockFits.locked (h : LockFits N ds entries budget) {n : Nat} {last st : PrefetchState}
    (hw : Walked N ds budget entries n last) (hstop : Stopped N ds budget entries n last st) :
    st.locked = last.locked := by
  cases hstop with
  | ended => rfl
  | full => rfl
  | costly _ _ _ _ _ _ hlocked => exact hlocked
  | moved _ _ _ _ _ _ _ hlocked => exact hlocked
  | ceiling ms _ hlen hcount hms hcost hkeep hover _ _ hlocked =>
    rw [hlocked]
    rcases hkeep with hnone | hsame
    · rw [hnone, pairOf_none]
      by_contra htouch
      -- the refused endpoint is the first one that touches a chunk
      have hempty := hw.touched hnone
      have hfits := h n ms hlen hcount (fun i ms' hi hms' => ?_) (fun i ms' hi hms' => ?_) hms htouch
      · rw [hempty, Finset.empty_union] at hover
        rcases hover with hchunks | hbytes
        · exact absurd hfits.1 (Nat.not_le.mpr hchunks)
        · exact absurd hfits.2 (Nat.not_le.mpr hbytes)
      · rcases Nat.lt_or_eq_of_le hi with hlt | rfl
        · exact hw.cheap i ms' (by omega) hms'
        · rw [hms, Except.ok.injEq] at hms'
          exact hms' ▸ hcost
      · have hsub := hw.direct i ms' hi hms'
        rw [hempty, Finset.subset_empty] at hsub
        exact hsub
    · exact hsame

/-- A walk that ends before the first touch has no lock. -/
theorem Walked.unlocked {n j : Nat} {last : PrefetchState} (hw : Walked N ds budget entries n last)
    (hn : n ≤ j) (hfree : ∀ i ms, i ≤ j →
      collapseMutations InsMap.empty (entries.take i) = .ok ms → directIndexes ds ms = ∅) :
    last.locked = none := by
  cases hlast : last.locked with
  | none => rfl
  | some pair =>
    obtain ⟨k, ms, hk, hms, hpair⟩ := hw.locked pair hlast
    rw [pairOf_none.mpr (hfree (k + 1) ms (by omega) hms)] at hpair
    cases hpair

/-- **The fetch budget holds exactly when the lock fits.** -/
theorem fetchWithin_iff {p : ChunkedFoldPrefetch}
    (hp : prefetchChunkedFold N entries ds budget = .ok p) :
    FetchWithin ds entries budget p ↔ LockFits N ds entries budget := by
  obtain ⟨n, last, st, hw, hstop, rfl⟩ := prefetch_walked hp
  obtain ⟨hcandidates, hdirect⟩ := hstop.same
  constructor
  · intro hwithin j ms hj hcount hcheap hfree hms htouch
    rcases Nat.lt_or_ge j n with hlt | hge
    · -- the endpoint was accepted
      have hsub := hw.direct (j + 1) ms hlt hms
      -- and every endpoint accepted after a touch wants the locked pair
      have hpair := hw.pairs (j + 1) ms hlt hms htouch
      refine ⟨Nat.le_trans (Finset.card_le_card hsub) hw.chunks,
        Nat.le_trans (touchedBytes_mono ?_) hw.bytes⟩
      rw [PrefetchState.neighbor, hpair]
      exact Finset.union_subset_union_left hsub
    · have hnone := hw.unlocked hge hfree
      have hempty := hw.touched hnone
      cases hstop with
      | ended hlen => omega
      | full hfull => omega
      | costly ms' _ hms' hcost =>
        exact absurd (hcheap (n + 1) ms' (by omega) hms') (Nat.not_le.mpr hcost)
      | moved _ _ _ hlocked => exact absurd hnone hlocked
      | ceiling ms' _ _ _ hms' _ _ hover _ _ hlocked =>
        rcases Nat.lt_or_eq_of_le hge with hlt | rfl
        · -- an endpoint before the first touch is under every ceiling
          have hfree' := hfree (n + 1) ms' hlt hms'
          have hpair := pairOf_none.mpr hfree'
          rw [hempty, hfree', hpair] at hover
          rcases hover with hchunks | hbytes
          · exact absurd hchunks (Nat.not_lt_zero _)
          · exact absurd hbytes (Nat.not_lt_zero _)
        · -- the refused endpoint has left its lock, which no accepted one has
          rw [hms, Except.ok.injEq] at hms'
          subst hms'
          rcases hwithin.pair with ⟨howner, -⟩ | ⟨k, ms', hk, hms', hderive⟩
          · change st.locked.map Prod.fst = none at howner
            rw [hlocked, Option.map_eq_none_iff, pairOf_none] at howner
            exact absurd howner htouch
          · have hkn : k < n := by
              change k < st.candidateLogSeqEnds.length at hk
              rw [hcandidates, hw.candidates, List.length_map, List.length_take] at hk
              omega
            have hfree' := hfree (k + 1) ms' hkn hms'
            have howner := congrArg Prod.fst hderive
            rw [derive_none.mpr (Or.inr hfree')] at howner
            change none = st.locked.map Prod.fst at howner
            rw [hlocked, eq_comm, Option.map_eq_none_iff, pairOf_none] at howner
            exact absurd howner htouch
  · intro hfits
    -- under the condition the refused endpoint leaves no other lock
    have hlocked := hfits.locked hw hstop
    have hneighbor : st.neighbor = last.neighbor := by
      rw [PrefetchState.neighbor, hlocked, PrefetchState.neighbor]
    refine ⟨?_, touchedBytes_sort ds _, ?_, hw.pairOfEndpoint hcandidates hlocked⟩
    · have hcount := @prefetchOf_chunks ds st
      have hchunks := hw.chunks
      rw [hdirect] at hcount
      omega
    · show touchedBytes ds (st.allDirectIndexes ∪ st.neighbor.toFinset) ≤ _
      rw [hdirect, hneighbor]
      exact hw.bytes

end Fetch

/-- **Every plan is within its budget.** -/
theorem planWithin {snapshotHash : List Byte → JsString} {plan : ChunkedFoldPlan}
    (hp : prefetchChunkedFold N input.entries input.descriptors input.budget = .ok p)
    (h : planChunkedFold N snapshotHash input = .ok (some plan)) : PlanWithin input plan := by
  rcases planChunkedFold_ok hp h with ⟨hnil, rfl⟩ | ⟨k, admitted, hk, hadmitted⟩
  · exact ⟨⟨0, Nat.zero_le _, Nat.zero_le _, rfl⟩, Nat.zero_le _, Nat.zero_le _, Nat.zero_le _⟩
  · obtain ⟨n, last, st, hw, hstop, rfl⟩ := prefetch_walked hp
    have hkn : k < n := by
      have hlt := (List.getElem?_eq_some_iff.mp hk.endpoint).1
      change k < st.candidateLogSeqEnds.length at hlt
      rw [hstop.same.1, hw.candidates, List.length_map, List.length_take] at hlt
      omega
    have hlen := hw.length
    have hcount := hw.count
    unfold admittedPlan at hadmitted
    obtain ⟨build, hbuild, hadmitted⟩ := except_bind_ok hadmitted
    unfold SnapshotChunkEvaluation.mint at hbuild
    obtain ⟨⟨chunks, changed⟩, _, hbuild⟩ := except_bind_ok hbuild
    cases hbuild
    cases hadmitted
    exact ⟨⟨k + 1, by omega, by omega, hk.collapsed⟩,
      hw.cheap (k + 1) admitted.mutations hkn hk.collapsed, hk.splits, hk.neighbors⟩

/-- **The planner stays within its budget exactly when the lock fits.** -/
theorem prefetch_within_iff (N : NumberText) (snapshotHash : List Byte → JsString)
    (input : PlanChunkedFoldInput) (p : ChunkedFoldPrefetch)
    (hp : prefetchChunkedFold N input.entries input.descriptors input.budget = .ok p) :
    (FetchWithin input.descriptors input.entries input.budget p ∧
        ∀ plan, planChunkedFold N snapshotHash input = .ok (some plan) → PlanWithin input plan) ↔
      LockFits N input.descriptors input.entries input.budget := by
  rw [← fetchWithin_iff hp]
  exact ⟨And.left, fun hfetch => ⟨hfetch, fun plan hplan => planWithin hp hplan⟩⟩

end Admit

/-- With room for both chunks the lock fits. -/
theorem prefetch_within_iff_delete :
    ∃ p, prefetchChunkedFold integerText (twoChunks 200).entries (twoChunks 200).descriptors
        (twoChunks 200).budget = .ok p ∧
      ((FetchWithin (twoChunks 200).descriptors (twoChunks 200).entries (twoChunks 200).budget p ∧
          ∀ plan, planChunkedFold integerText (fun _ => notesDigest) (twoChunks 200) =
            .ok (some plan) → PlanWithin (twoChunks 200) plan) ↔
        LockFits integerText (twoChunks 200).descriptors (twoChunks 200).entries
          (twoChunks 200).budget) := by
  obtain ⟨p, hp⟩ := @prefetch_total integerText (twoChunks 200).descriptors (twoChunks 200).budget
    (twoChunks 200).entries (twoChunks_accepts 200)
  exact ⟨p, hp, prefetch_within_iff integerText _ (twoChunks 200) p hp⟩

/-- With room for half a chunk the delete is refused, and the neighbour is fetched all the same. -/
theorem refused_lock_fetches : ¬ ∀ (input : PlanChunkedFoldInput) (p : ChunkedFoldPrefetch),
    prefetchChunkedFold integerText input.entries input.descriptors input.budget = .ok p →
      FetchWithin input.descriptors input.entries input.budget p ∧
        ∀ plan, planChunkedFold integerText (fun _ => notesDigest) input = .ok (some plan) →
          PlanWithin input plan := by
  intro h
  obtain ⟨p, hp⟩ := @prefetch_total integerText (twoChunks 50).descriptors (twoChunks 50).budget
    (twoChunks 50).entries (twoChunks_accepts 50)
  have hfits := (fetchWithin_iff hp).mp (h (twoChunks 50) p hp).1
  have hms : collapseMutations InsMap.empty ((twoChunks 50).entries.take 1) =
      .ok (InsMap.empty.set (js "a") (.delete (js "a"))) := rfl
  have htouched := twoChunks_touched 50 _ hms
  have hwithin := hfits 0 _ (by decide) (by decide) (fun i ms' hi hms' => ?_)
    (fun i ms' hi hms' => ?_) hms (by rw [htouched]; decide)
  · have hone : touchedBytes (twoChunks 50).descriptors {0} ≤ 50 := by
      refine Nat.le_trans (touchedBytes_mono ?_) hwithin.2
      rw [htouched]
      exact Finset.subset_union_left
    exact absurd hone (by show ¬ 100 ≤ 50; omega)
  · have hcases : i = 0 ∨ i = 1 := by omega
    rcases hcases with rfl | rfl
    · cases hms'
      exact Nat.zero_le _
    · rw [hms, Except.ok.injEq] at hms'
      rw [← hms']
      show mutationCost integerText [bareDescriptor "a" 97 100, bareDescriptor "c" 98 100] _ ≤ 100
      decide +kernel
  · rw [Nat.le_zero.mp hi] at hms'
    cases hms'
    exact rfl

end Baerly
