import Baerly.Verify.Safety

/-
  What a full scan sees.

  SPEC: the rows of one committed prefix, no shorter than what was committed when the scan started
  and no longer than what was committed when it ended.

  CRUX: it holds of every scan whose log GETs told the truth.  A scan that holds an old manifest
  can be told a lie: an entry that was folded and retired after the manifest was read looks like
  the end of the log (`stale_read`).
-/

namespace Baerly

open Async

variable {codec : Codec} {c : Collection} {σ : State} {w : World} {t : Nat}

theorem Exact.back {why : Purpose} {w' : World} (h : Exact why t w') (hev : Evolves w w') :
    Exact why t w :=
  fun n v k hmem => h n v k (hev.trace.subset hmem)

/-- `res` is what a scan of `state` that started in `start` and ended in `w` may return, given the
    committed sequence `hist`. -/
def SeesPrefix (c : Collection) (hist : List LogEntry) (state : QueryState) (start w : World)
    (res : ReadRows) : Prop :=
  ∃ n, start.tail ≤ n ∧ n ≤ w.tail ∧
    ∃ rows, rows.Perm (matchingRows c hist n state.wire) ∧ res.rows = takeLimit state.limit rows

/-- **A scan sees a committed prefix**, if each of its log GETs returned exactly what is committed
    at its slot. -/
theorem read_sees_committed_prefix (h : Reachable codec c σ) {state : QueryState}
    {start w₁ : World} {res : ReadRows}
    (ht : σ.threads[t]? = some ⟨.read state, start, .done (.ok res) w₁⟩)
    (hexact : Exact .scan t σ.world) : SeesPrefix c σ.world.hist state start w₁ res := by
  obtain ⟨hpost, hrely⟩ := h.done ht
  obtain ⟨n, hlo, hhi, rows, hperm, hrows⟩ := hpost res rfl (hexact.back hrely.evolves)
  refine ⟨n, hlo, hhi, rows, ?_, hrows⟩
  unfold matchingRows at hperm ⊢
  rw [hrely.evolves.committedRows hhi]
  exact hperm

/-! ## Two scans -/

/-- The read is good for `Exact why t`. -/
def Event.exact (why : Purpose) (t : Nat) : Event → Bool
  | .readLog u why' _ v k => u ≠ t ∨ why' ≠ why ∨ v = k
  | _ => true

theorem exact_of_trace {why : Purpose} (h : w.trace.all (Event.exact why t) = true) :
    Exact why t w := by
  intro n v k hmem
  have hev := List.all_eq_true.mp h _ hmem
  simpa [Event.exact] using hev

/-- A finished scan of thread `t`: how it started, what it returned, how it ended. -/
def readOf (t : Nat) (σ : State) : Option (QueryState × World × ReadRows × World) :=
  match σ.threads[t]? with
  | some ⟨.read state, start, .done (.ok res) w₁⟩ => some (state, start, res, w₁)
  | _ => none

theorem readOf_eq {state : QueryState} {start w₁ : World} {res : ReadRows}
    (h : readOf t σ = some (state, start, res, w₁)) :
    σ.threads[t]? = some ⟨.read state, start, .done (.ok res) w₁⟩ := by
  unfold readOf at h
  split at h
  next hth =>
    cases h
    exact hth
  next => cases h

/-- All rows, in any order. -/
def scanAll : QueryState := ⟨none, none, none⟩

/-- A commit, then a scan of it by thread 1. -/
def commitThenScan : List SampleAct :=
  provision ++ acked 0 1 ++ oks 0 1 ++ [.spawn (.read scanAll)] ++ oks 1 3

/-- The scan sees the commit it started after. -/
theorem sees_commitThenScan : ∃ σ state start res w₁, Reachable sampleCodec sampleCollection σ ∧
    readOf 1 σ = some (state, start, res, w₁) ∧ start.tail = 1 ∧
    SeesPrefix sampleCollection σ.world.hist state start w₁ res := by
  have hrun : ((deployed sampleCodec sampleCollection).run State.init commitThenScan).map
      (fun σ => (σ.world.trace.all (Event.exact .scan 1),
        (readOf 1 σ).any fun r => decide (r.2.1.tail = 1))) = some (true, true) := by
    decide +kernel
  obtain ⟨σ, hreach, hfacts⟩ := exists_reachable hrun
  simp only [Prod.mk.injEq, Option.any_eq_true, decide_eq_true_eq] at hfacts
  obtain ⟨hexact, ⟨state, start, res, w₁⟩, hread, htail⟩ := hfacts
  exact ⟨σ, state, start, res, w₁, hreach, hread, htail,
    read_sees_committed_prefix hreach (readOf_eq hread) (exact_of_trace hexact)⟩

/-- The same, but slot 0 is folded and retired between the scan's manifest GET and its first log
    GET. -/
def scanPastRetirement : List SampleAct :=
  provision ++ acked 0 1 ++ oks 0 1 ++ [.spawn (.read scanAll)] ++ oks 1 1 ++ foldFirst 2 2 ++
    retireFirst 3 4 ++ oks 1 1

/-- **A scan that misses an acknowledged commit.**  The empty slot 0 ends it, with no rows, though
    one row was committed before it started. -/
theorem stale_read : ¬ ∀ σ, Reachable sampleCodec sampleCollection σ →
    ∀ t state start res w₁, readOf t σ = some (state, start, res, w₁) →
      SeesPrefix sampleCollection σ.world.hist state start w₁ res := by
  intro hclaim
  have hrun : ((deployed sampleCodec sampleCollection).run State.init scanPastRetirement).map
      (fun σ => (readOf 1 σ).any fun r => decide (r.1.wire.isNone = true ∧ r.1.limit = none ∧
        r.2.1.tail = 1 ∧ r.2.2.1.rows = [] ∧ r.2.2.2.tail = 1 ∧
        (matchingRows sampleCollection σ.world.hist 1 none).length = 1)) = some true := by
    decide +kernel
  obtain ⟨σ, hreach, hfacts⟩ := exists_reachable hrun
  simp only [Option.any_eq_true, decide_eq_true_eq] at hfacts
  obtain ⟨⟨state, start, res, w₁⟩, hread, hwire, hlimit, hstart, hrows, hend, hone⟩ := hfacts
  obtain ⟨n, hlo, hhi, rows, hperm, heq⟩ := hclaim σ hreach 1 state start res w₁ hread
  have hn : n = 1 := by
    have h1 : start.tail = 1 := hstart
    have h2 : w₁.tail = 1 := hend
    omega
  have hwire' : state.wire = none := Option.isNone_iff_eq_none.mp hwire
  have hlimit' : state.limit = none := hlimit
  have hnil : rows = [] := by
    rw [hlimit'] at heq
    exact heq.symm.trans hrows
  subst hn hnil
  rw [hwire'] at hperm
  rw [← hperm.length_eq] at hone
  cases hone

end Baerly
