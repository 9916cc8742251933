import Baerly.Verify.Alone

/-
  What one `compact` folds.

  PROGRAM: `compact` probes the tail, loads the snapshot, applies entries until one would add a row to
  a full map, writes the new snapshot and publishes it.

  SPEC (`compact_folds_maximal`): a run that reports a new snapshot has folded the longest stretch of
  the log that the budget and the row ceiling allow; every other run leaves the manifest as it was, up
  to a `tail_hint` that grew to a tail it observed.

  CRUX: the loop stops at the first entry that does not fit (`foldUpTo_stops`), so what it applied
  cannot be extended.
-/

namespace Baerly

open Async

/-! ## The slots of the log -/

/-- The entries of the slots `[start, stop)`. -/
def slots (w : World) (start stop : Nat) : List LogEntry :=
  (List.range' start (stop - start)).filterMap w.log

theorem slots_of_answers {w : World} {es : List LogEntry} {start : Nat}
    (h : ∀ i e, es[i]? = some e → w.log (start + i) = some e) :
    es = slots w start (start + es.length) := by
  unfold slots
  rw [show start + es.length - start = es.length by omega]
  induction es generalizing start with
  | nil => rfl
  | cons e es ih =>
    have hfirst : w.log start = some e := h 0 e rfl
    rw [List.length_cons, List.range'_succ, List.filterMap_cons, hfirst]
    dsimp only
    rw [← ih fun i x hx => ?_]
    rw [show start + 1 + i = start + (i + 1) by omega]
    exact h (i + 1) x hx

theorem slots_append {w : World} {start mid stop : Nat} (h : start ≤ mid) (h' : mid ≤ stop) :
    slots w start mid ++ slots w mid stop = slots w start stop := by
  have hrange := @List.range'_append_1 start (mid - start) (stop - mid)
  rw [show start + (mid - start) = mid by omega,
    show mid - start + (stop - mid) = stop - start by omega] at hrange
  rw [slots, slots, slots, ← hrange, List.filterMap_append]

theorem length_slots {w : World} {start stop : Nat}
    (h : ∀ n, start ≤ n → n < stop → (w.log n).isSome = true) :
    (slots w start stop).length = stop - start := by
  rw [slots, List.length_filterMap_eq_countP, List.countP_eq_length.mpr, List.length_range']
  intro n hn
  obtain ⟨hlow, hhigh⟩ := List.mem_range'_1.mp hn
  exact h n hlow (by omega)

/-- A log without a gap above `log_seq_start`, under a manifest whose hint is not past its tail. -/
structure DenseLog (w : World) (m : CurrentJson) (tail : Nat) : Prop where
  manifest : w.cur = some m
  occupied : ∀ n, m.logSeqStart ≤ n → n < tail → (w.log n).isSome = true
  free : ∀ n, tail ≤ n → w.log n = none
  start_le : m.logSeqStart ≤ m.tailHint
  hint_le : m.tailHint ≤ tail

/-- A slot above the tail is free, so everything that answered lies below it. -/
theorem DenseLog.answered {w : World} {m : CurrentJson} {tail start : Nat} {es : List LogEntry}
    (h : DenseLog w m tail) (hans : ∀ i e, es[i]? = some e → w.log (start + i) = some e) :
    es = [] ∨ start + es.length ≤ tail := by
  rcases List.eq_nil_or_concat' es with rfl | ⟨init, last, rfl⟩
  · exact Or.inl rfl
  · refine Or.inr ?_
    by_contra hgt
    rw [List.length_append, List.length_singleton] at hgt
    have hlast := hans init.length last List.getElem?_concat_length
    rw [h.free _ (by omega)] at hlast
    cases hlast

/-! ## The loop -/

/-- **Where the loop stops**: it applied everything, or the next entry does not fit. -/
theorem foldUpTo_stops (collection : JsString) (ceiling : Option Nat) (base : Rows) (n : Nat)
    (es : List LogEntry) :
    ∃ j, j ≤ es.length ∧
      foldUpTo collection ceiling base n es =
        (foldLogEntriesOnto collection none base (es.take j), n + j) ∧
      (∀ k e, k < j → es[k]? = some e → addsRowPast collection ceiling
        (foldLogEntriesOnto collection none base (es.take k)) e = false) ∧
      (j = es.length ∨ ∃ e, es[j]? = some e ∧ addsRowPast collection ceiling
        (foldLogEntriesOnto collection none base (es.take j)) e = true) := by
  induction es generalizing base n with
  | nil =>
    exact ⟨0, Nat.le_refl 0, rfl, fun k e hk => absurd hk (Nat.not_lt_zero k), Or.inl rfl⟩
  | cons e es ih =>
    by_cases hstop : addsRowPast collection ceiling base e = true
    · refine ⟨0, Nat.zero_le _, ?_, fun k e' hk => absurd hk (Nat.not_lt_zero k),
        Or.inr ⟨e, rfl, hstop⟩⟩
      rw [foldUpTo, if_pos hstop]
      rfl
    · obtain ⟨j, hj, heq, hfits, hnext⟩ := ih (foldEntry collection none base e) (n + 1)
      refine ⟨j + 1, by simpa using hj, ?_, ?_, ?_⟩
      · rw [foldUpTo, if_neg hstop, heq, List.take_succ_cons]
        show _ = (foldLogEntriesOnto collection none (foldEntry collection none base e)
          (es.take j), _)
        rw [show n + 1 + j = n + (j + 1) by omega]
      · intro k e' hk he'
        cases k with
        | zero =>
          cases he'
          exact Bool.eq_false_of_not_eq_true hstop
        | succ k => exact hfits k e' (by omega) he'
      · rcases hnext with hall | ⟨e', he', hfull⟩
        · exact Or.inl (by rw [hall, List.length_cons])
        · exact Or.inr ⟨e', he', hfull⟩

/-! ## The specification -/

/-- The rows of the snapshot a manifest names. -/
def snapshotRows (codec : Codec) (c : Collection) (w : World) (m : CurrentJson) : Option Rows :=
  match m.snapshot with
  | none => some InsMap.empty
  | some key => (w.snap key).bind fun body =>
    (decodeSnapshot codec key c.collectionName body).toOption

/-- An end a fold may have: not above the observed tail nor the entry budget, and no entry before it
    adds a row to a map that is at the ceiling. -/
def FoldEnd (c : Collection) (opts : CompactOptions) (w : World) (start : Nat) (base : Rows)
    (observed stop : Nat) : Prop :=
  start ≤ stop ∧ stop ≤ observed ∧
    (∀ budget, opts.maxEntriesPerRun = some budget → stop ≤ start + budget) ∧
    ∀ n e, start ≤ n → n < stop → w.log n = some e →
      addsRowPast c.collectionName opts.ceilingEntries
        (foldLogEntriesOnto c.collectionName none base (slots w start n)) e = false

/-- Where the probe of the tail starts. -/
def probeStart (opts : CompactOptions) (m : CurrentJson) : Nat :=
  max (max m.logSeqStart m.tailHint) (opts.knownTail.getD 0)

/-- **The tail the run observes**: as far as the probe gets with its budget; nothing below where it
    starts. -/
def observedTail (opts : CompactOptions) (m : CurrentJson) (tail : Nat) : Nat :=
  match opts.maxTailProbeGets with
  | none => max (probeStart opts m) tail
  | some budget => max (probeStart opts m) (min tail (probeStart opts m + budget))

/-- What a run that reports a new snapshot has done. -/
structure Compacted (codec : Codec) (c : Collection) (opts : CompactOptions) (w w' : World)
    (m : CurrentJson) (tail : Nat) (result : CompactResult) (base : Rows) (foldEnd : Nat)
    (key : Key) (body : SnapshotBody) (next : CurrentJson) : Prop where
  loaded : snapshotRows codec c w m = some base
  published : w'.cur = some next
  snapshot : next.snapshot = some key ∧ w'.snap key = some body
  start : next.logSeqStart = foldEnd ∧ result.logSeqStartAfter = foldEnd
  rows : body.docs = sortedDocs (foldLogEntriesOnto c.collectionName none base
    (slots w m.logSeqStart foldEnd))
  foldable : FoldEnd c opts w m.logSeqStart base (observedTail opts m tail) foldEnd
  maximal : ∀ stop, FoldEnd c opts w m.logSeqStart base (observedTail opts m tail) stop →
    stop ≤ foldEnd
  rowsFit : withinCeiling body.docs.length opts.ceilingEntries = true
  bytesFit : withinCeiling (codec.snapshotBytes body) opts.ceilingBytes = true

/-- The manifest as it was, up to a hint that grew to the observed tail. -/
def HintOnly (opts : CompactOptions) (w' : World) (m : CurrentJson) (tail : Nat) : Prop :=
  w'.cur = some m ∨
    m.tailHint ≤ observedTail opts m tail ∧ observedTail opts m tail ≤ tail ∧
      w'.cur = some { m with tailHint := observedTail opts m tail }

/-- A stretch of the log from which a fold cannot go on: its rows or its bytes are past a ceiling, or
    the next entry adds a row at the row ceiling. -/
def Unfit (codec : Codec) (c : Collection) (opts : CompactOptions) (w : World) (m : CurrentJson)
    (tail : Nat) : Prop :=
  ∃ base k rows, snapshotRows codec c w m = some base ∧ m.logSeqStart + k ≤ tail ∧
    rows = foldLogEntriesOnto c.collectionName none base
      (slots w m.logSeqStart (m.logSeqStart + k)) ∧
    (withinCeiling (codec.snapshotBytes
        ⟨0, m.logSeqStart + k, c.collectionName, sortedDocs rows⟩) opts.ceilingBytes = false ∨
      withinCeiling rows.size opts.ceilingEntries = false ∨
      ∃ e, w.log (m.logSeqStart + k) = some e ∧
        addsRowPast c.collectionName opts.ceilingEntries rows e = true)

/-- What a run owes that did not write: it deferred for a reason. -/
def NotWritten (codec : Codec) (c : Collection) (opts : CompactOptions) (w : World)
    (m : CurrentJson) (tail : Nat) (r : Except Err CompactResult) : Prop :=
  ∀ result, r = .ok result → result.written = false ∧
    (result.skippedReason = some .deferred → Unfit codec c opts w m tail)

/-- What a run owes. -/
def CompactPost (codec : Codec) (c : Collection) (opts : CompactOptions) (w : World)
    (m : CurrentJson) (tail : Nat) (r : Except Err CompactResult) (w' : World) : Prop :=
  (∃ result base foldEnd key body next, r = .ok result ∧ result.written = true ∧
    result.skippedReason = none ∧
    Compacted codec c opts w w' m tail result base foldEnd key body next) ∨
  (NotWritten codec c opts w m tail r ∧ HintOnly opts w' m tail)

/-! ## The stages -/

section Stages

variable {codec : Codec} {c : Collection} {opts : CompactOptions} {w : World} {m : CurrentJson}
variable {tail : Nat}

/-- A run that ends without a publication of its own. -/
theorem CompactPost.unchanged {r : Except Err CompactResult} {w' : World}
    (hr : NotWritten codec c opts w m tail r) (hcur : w'.cur = some m) :
    CompactPost codec c opts w m tail r w' :=
  Or.inr ⟨hr, Or.inl hcur⟩

theorem not_written_error {e : Err} : NotWritten codec c opts w m tail (.error e) :=
  fun result h => (by cases h)

theorem not_written_skipped {result : CompactResult} (hwritten : result.written = false)
    (hreason : result.skippedReason ≠ some .deferred) :
    NotWritten codec c opts w m tail (.ok result) := by
  rintro result' hr
  cases hr
  exact ⟨hwritten, fun h => absurd h hreason⟩

theorem not_written_deferred {result : CompactResult} (hwritten : result.written = false)
    (hunfit : Unfit codec c opts w m tail) : NotWritten codec c opts w m tail (.ok result) := by
  rintro result' hr
  cases hr
  exact ⟨hwritten, fun _ => hunfit⟩

theorem probeStart_ge (opts : CompactOptions) (h : DenseLog w m tail) : m.tailHint ≤ probeStart opts m ∧
    m.logSeqStart ≤ probeStart opts m := by
  have hstart := h.start_le
  unfold probeStart
  omega

theorem observedTail_ge (h : DenseLog w m tail) : m.tailHint ≤ observedTail opts m tail := by
  obtain ⟨hhint, -⟩ := probeStart_ge opts h
  unfold observedTail
  split <;> omega

/-- A free slot that the probe gets to is at the tail, or where the probe starts. -/
theorem DenseLog.first_free {es : List LogEntry} (h : DenseLog w m tail)
    (hans : ∀ i e, es[i]? = some e → w.log (probeStart opts m + i) = some e)
    (hfree : w.log (probeStart opts m + es.length) = none) :
    probeStart opts m + es.length = max (probeStart opts m) tail := by
  obtain ⟨-, hstart⟩ := probeStart_ge opts h
  have hpast : tail ≤ probeStart opts m + es.length := by
    by_contra hlt
    have hsome := h.occupied (probeStart opts m + es.length) (by omega) (by omega)
    rw [hfree] at hsome
    cases hsome
  rcases h.answered hans with rfl | hle
  · rw [List.length_nil] at hpast ⊢
    omega
  · omega

/-- **The probe.** -/
theorem wp_compactProbe_alone (h : DenseLog w m tail) (hcap : opts.maxTailProbeGets ≠ some 0) :
    (still codec c).wp 0 (compactProbe c opts (probeStart opts m))
      (fun r w' => w' = w ∧ ∀ d exact, r = .ok (d, exact) →
        d = observedTail opts m tail ∧ (exact = false → d ≤ tail)) w := by
  have hR := readAlone codec c .fold
  unfold compactProbe
  cases hbudget : opts.maxTailProbeGets with
  | none =>
    have hobserved : observedTail opts m tail = max (probeStart opts m) tail := by
      rw [observedTail, hbudget]
    refine Protocol.wp_seq (wp_probeTailFrom hR trivial) ?_ ?_
    · rintro ⟨found, entries⟩ w₁ ⟨rfl, hres⟩
      obtain ⟨rfl, hans, hfree⟩ := hres found entries rfl
      refine ⟨rfl, fun d b hd => ?_⟩
      cases hd
      exact ⟨(h.first_free hans hfree).trans hobserved.symm, fun hb => (by cases hb)⟩
    · rintro e w₁ ⟨rfl, -⟩
      exact ⟨rfl, fun d b hd => (by cases hd)⟩
  | some cap =>
    have hobserved : observedTail opts m tail =
        max (probeStart opts m) (min tail (probeStart opts m + cap)) := by
      rw [observedTail, hbudget]
    refine Protocol.wp_seq (wp_probeTailChunk hR trivial) ?_ ?_
    · rintro (⟨found, entries⟩ | ⟨bound, entries⟩) w₁ ⟨rfl, hres⟩
      · obtain ⟨rfl, hlen, hans, hfree⟩ := hres _ rfl
        refine ⟨rfl, fun d b hd => ?_⟩
        cases hd
        have hfound := h.first_free hans hfree
        exact ⟨by omega, fun hb => (by cases hb)⟩
      · obtain ⟨rfl, hlen, hans⟩ := hres _ rfl
        refine ⟨rfl, fun d b hd => ?_⟩
        cases hd
        -- the budget is positive, so some slot answered
        have hle : probeStart opts m + cap ≤ tail := by
          rcases h.answered hans with rfl | hle
          · subst hlen
            exact absurd hbudget hcap
          · rwa [hlen] at hle
        exact ⟨by omega, fun _ => hle⟩
    · rintro e w₁ ⟨rfl, -⟩
      exact ⟨rfl, fun d b hd => (by cases hd)⟩

/-- **The base.** -/
theorem wp_loadBase_alone :
    (still codec c).wp 0 (loadBase codec c m)
      (fun r w' => w' = w ∧ ∀ base, r = .ok base → snapshotRows codec c w m = some base) w := by
  unfold loadBase
  cases hsnap : m.snapshot with
  | none =>
    refine ⟨rfl, fun base hbase => ?_⟩
    cases hbase
    rw [snapshotRows, hsnap]
  | some key =>
    refine Protocol.wp_bind (wp_getSnapshot_alone ?_ fun e => ⟨rfl, fun base hb => (by cases hb)⟩)
    dsimp only
    cases hbody : w.snap key with
    | none => exact ⟨rfl, fun base hb => (by cases hb)⟩
    | some body =>
      dsimp only
      cases hdecode : decodeSnapshot codec key c.collectionName body with
      | error e => exact ⟨rfl, fun base hb => (by cases hb)⟩
      | ok rows =>
        refine ⟨rfl, fun base hb => ?_⟩
        cases hb
        rw [snapshotRows, hsnap]
        dsimp only
        rw [hbody, Option.bind_some, hdecode]
        rfl

/-- A publication of the run: it lands, or is rejected. -/
theorem wp_publish_alone {pub : Publisher} {next : CurrentJson} {Q : Except Err Bool → World → Prop}
    (hcur : w.cur = some m)
    (hok : Q (.ok true) (({ w with cur := some next } : World).sent (.casCurrent pub m next) true))
    (hlost : Q (.ok false) (w.sent (.casCurrent pub m next) false))
    (herr : ∀ e, Q (.error e) (w.sent (.casCurrent pub m next) false)) :
    (still codec c).wp 0 (publish pub m next) Q w := by
  apply wp_attempt_write_alone rfl
  · intro w₁ date hw₁
    have happly : applyReq w (.casCurrent pub m next) = some { w with cur := some next } := by
      rw [applyReq, if_pos hcur]
    rw [happly, Option.some.injEq] at hw₁
    subst hw₁
    exact hok
  · intro e
    dsimp only
    split
    · exact hlost
    · exact herr e

theorem length_sortedDocs (rows : Rows) : (sortedDocs rows).length = rows.size :=
  List.length_insertionSort _ _

/-- **Steps 5 to 7**, from what the loop applied. -/
theorem wp_compactPublish_alone {applied : Nat} {base rows : Rows}
    {fetched : List LogEntry} (hcur : w.cur = some m)
    (hload : snapshotRows codec c w m = some base) (happlied : m.logSeqStart + applied ≤ tail)
    (hrows : rows = foldLogEntriesOnto c.collectionName none base
      (slots w m.logSeqStart (m.logSeqStart + applied)))
    (hend : FoldEnd c opts w m.logSeqStart base (observedTail opts m tail)
      (m.logSeqStart + applied))
    (hmax : ∀ stop, FoldEnd c opts w m.logSeqStart base (observedTail opts m tail) stop →
      stop ≤ m.logSeqStart + applied) :
    (still codec c).wp 0
      (compactPublish codec c opts m (observedTail opts m tail) rows applied fetched)
      (CompactPost codec c opts w m tail) w := by
  unfold compactPublish
  dsimp only
  split
  -- over a ceiling: nothing is written
  next hover =>
    rw [Bool.not_eq_true', Bool.and_eq_false_iff] at hover
    refine .unchanged (not_written_deferred rfl ⟨base, applied, rows, hload, happlied, hrows, ?_⟩) hcur
    rcases hover with hbytes | hsize
    · exact Or.inl hbytes
    · exact Or.inr (Or.inl hsize)
  next hfits =>
    rw [Bool.not_eq_true', Bool.not_eq_false, Bool.and_eq_true] at hfits
    apply wp_check_alone _ fun e => .unchanged not_written_error hcur
    intro newKey _
    apply Protocol.wp_bind
    refine wp_write_alone (fun w₁ date hw₁ => ?_) (fun e => ?_) fun _ w₁ e hw₁ => ?_
    rotate_left
    · show CompactPost codec c opts w m tail (.error e) _
      exact .unchanged not_written_error hcur
    · -- the snapshot may be there, but nothing names it
      show CompactPost codec c opts w m tail (.error e) _
      cases hw₁
      exact .unchanged not_written_error hcur
    rw [applyReq, Option.some.injEq] at hw₁
    subst hw₁
    dsimp only
    refine wp_check_alone (fun _ _ => ?_) fun e => .unchanged not_written_error hcur
    apply Protocol.wp_bind
    -- the CAS decides: landed, lost, or failed without effect
    refine wp_publish_alone (show World.cur _ = some m from hcur) ?_ ?_ ?_
    · refine Or.inl ⟨_, base, m.logSeqStart + applied, newKey,
        ⟨0, m.logSeqStart + applied, c.collectionName, sortedDocs rows⟩,
        m.folded codec newKey (m.logSeqStart + applied) (observedTail opts m tail)
          ⟨0, m.logSeqStart + applied, c.collectionName, sortedDocs rows⟩ (InsMap.size rows)
          (fetched.take applied), rfl, rfl, rfl, ?_⟩
      exact
        { loaded := hload
          published := rfl
          snapshot := ⟨rfl, if_pos rfl⟩
          start := ⟨rfl, rfl⟩
          rows := by rw [hrows]
          foldable := hend
          maximal := hmax
          rowsFit := by rw [length_sortedDocs]; exact hfits.2
          bytesFit := hfits.1 }
    · exact CompactPost.unchanged (not_written_skipped rfl nofun) hcur
    · exact fun e => CompactPost.unchanged not_written_error hcur

/-- **Steps 2 to 4.** -/
theorem wp_compactFold_alone (h : DenseLog w m tail) :
    (still codec c).wp 0 (compactFold codec c opts m (observedTail opts m tail))
      (CompactPost codec c opts w m tail) w := by
  have hstart : m.logSeqStart ≤ observedTail opts m tail :=
    Nat.le_trans h.start_le (observedTail_ge h)
  have hcur := h.manifest
  unfold compactFold
  dsimp only
  refine Protocol.wp_seq wp_loadBase_alone ?_ ?_
  · rintro base w₁ ⟨rfl, hbase⟩
    have hload := hbase base rfl
    refine Protocol.wp_seq (wp_walkLogRange (readAlone codec c .fold) trivial) ?_ ?_
    · rintro fetched w₂ ⟨rfl, hres⟩
      obtain ⟨hlen, hans⟩ := hres fetched rfl
      obtain ⟨j, hj, heq, hfits, hnext⟩ :=
        foldUpTo_stops c.collectionName opts.ceilingEntries base 0 fetched
      rw [heq, Nat.zero_add]
      dsimp only
      -- a prefix of what was fetched is a stretch of slots
      have hslots : ∀ k, k ≤ fetched.length →
          fetched.take k = slots w₂ m.logSeqStart (m.logSeqStart + k) := by
        intro k hk
        have hstretch := @slots_of_answers w₂ (fetched.take k) m.logSeqStart fun i e hi => by
          rw [List.getElem?_take] at hi
          split at hi
          · exact hans i e hi
          · cases hi
        rwa [List.length_take, Nat.min_eq_left hk] at hstretch
      have htail : m.logSeqStart + fetched.length ≤ tail := by
        rcases h.answered hans with rfl | hle
        · exact Nat.le_trans h.start_le h.hint_le
        · exact hle
      split
      next hnone =>
        -- the first entry does not fit
        refine .unchanged (not_written_deferred rfl ?_) hcur
        obtain ⟨rfl, hsome⟩ := hnone
        refine ⟨base, 0, base, hload, Nat.le_trans h.start_le h.hint_le, ?_, ?_⟩
        · rw [← hslots 0 (Nat.zero_le _)]
          rfl
        · rcases hnext with hall | ⟨e, he, hfull⟩
          · exact absurd (List.length_eq_zero_iff.mp hall.symm) hsome
          · exact Or.inr (Or.inr ⟨e, hans 0 e he, hfull⟩)
      next =>
        have hfetched : m.logSeqStart + fetched.length ≤ observedTail opts m tail := by
          rw [hlen]
          split
          · omega
          · omega
        have hbudget : ∀ budget, opts.maxEntriesPerRun = some budget → fetched.length ≤ budget := by
          intro budget hb
          rw [hlen, hb]
          dsimp only
          omega
        apply wp_compactPublish_alone hcur hload (by omega)
        · rw [hslots j hj]
        · refine ⟨by omega, by omega, fun budget hb => ?_, fun n e hn hlt he => ?_⟩
          · have := hbudget budget hb
            omega
          · have hget : fetched[n - m.logSeqStart]? = some e := by
              have hk : n - m.logSeqStart < fetched.length := by omega
              have hread := hans _ _ (List.getElem?_eq_getElem hk)
              rw [show m.logSeqStart + (n - m.logSeqStart) = n by omega, he] at hread
              rw [List.getElem?_eq_getElem hk, ← hread]
            have hfit := hfits (n - m.logSeqStart) e (by omega) hget
            rwa [hslots _ (by omega), show m.logSeqStart + (n - m.logSeqStart) = n by omega] at hfit
        · -- a later end would pass the budget, the tail, or the entry that did not fit
          rintro stop ⟨-, hstop, hbudget', hfree⟩
          rcases hnext with hall | ⟨e, he, hfull⟩
          · rw [hall, hlen]
            split
            next budget hb =>
              have := hbudget' budget hb
              omega
            next => omega
          · by_contra hgt
            have hread := hans j e he
            have hfit := hfree (m.logSeqStart + j) e (by omega) (by omega) hread
            rw [← hslots j hj, hfull] at hfit
            cases hfit
    · rintro e w₂ ⟨rfl, -⟩
      exact .unchanged not_written_error hcur
  · rintro e w₁ ⟨rfl, -⟩
    exact .unchanged not_written_error hcur

theorem wp_compact_alone (h : DenseLog w m tail) :
    (still codec c).wp 0 (compact codec c opts) (CompactPost codec c opts w m tail) w := by
  have hcur := h.manifest
  unfold compact
  split
  · exact .unchanged not_written_error hcur
  next hcap =>
    refine Protocol.wp_bind (wp_readCurrentJson_alone ?_
      fun e => CompactPost.unchanged not_written_error hcur)
    rw [hcur]
    dsimp only
    refine Protocol.wp_seq (wp_compactProbe_alone h hcap) ?_ ?_
    · rintro ⟨observed, tailIsExact⟩ w₁ ⟨rfl, hprobe⟩
      obtain ⟨rfl, hlower⟩ := hprobe observed tailIsExact rfl
      dsimp only
      split
      · cases tailIsExact with
        | true => exact .unchanged (not_written_skipped rfl nofun) hcur
        | false =>
          refine wp_check_alone (fun _ _ => ?_) fun e => .unchanged not_written_error hcur
          apply Protocol.wp_bind
          apply wp_publish_alone hcur
          · refine Or.inr ⟨not_written_skipped rfl nofun,
              Or.inr ⟨observedTail_ge h, hlower rfl, ?_⟩⟩
            show some (m.checkpoint (observedTail opts m tail)) = _
            rw [CurrentJson.checkpoint, Nat.max_eq_right (observedTail_ge h)]
          · exact CompactPost.unchanged (not_written_skipped rfl nofun) hcur
          · exact fun e => CompactPost.unchanged not_written_error hcur
      · exact wp_compactFold_alone h
    · rintro e w₁ ⟨rfl, -⟩
      exact .unchanged not_written_error hcur

/-- **A `compact` folds exactly a maximal stretch of the log**, or leaves the manifest alone up to its
    hint. -/
theorem compact_folds_maximal (codec : Codec) (c : Collection) (opts : CompactOptions) (w w' : World)
    (m : CurrentJson) (tail : Nat) (r : Except Err CompactResult) (h : DenseLog w m tail)
    (hrun : Ends (compact codec c opts) w r w') :
    (∀ result, r = .ok result → result.written = true →
      ∃ base foldEnd key body next,
        Compacted codec c opts w w' m tail result base foldEnd key body next) ∧
    ((∀ result, r = .ok result → result.written = false) → HintOnly opts w' m tail) := by
  rcases hrun.of_wp (wp_compact_alone h) with
    ⟨result, base, foldEnd, key, body, next, rfl, hwritten, -, hdone⟩ | ⟨hnot, hhint⟩
  · refine ⟨fun result' hr _ => ?_, fun hall => ?_⟩
    · cases hr
      exact ⟨base, foldEnd, key, body, next, hdone⟩
    · rw [hall result rfl] at hwritten
      cases hwritten
  · refine ⟨fun result hr hwritten => ?_, fun _ => hhint⟩
    rw [(hnot result hr).1] at hwritten
    cases hwritten

end Stages

/-! ## A log of one insert -/

def soloCollection : Collection := ⟨js "app/tickets/current.json"⟩

/-- The hash and the lengths of the one snapshot and the one entry below, as they are stored. -/
def soloCodec : Codec where
  snapshotHash := fun _ => js "cc327400c5b4a5481ab591d36b9299f00a7f8ac3baad5be782f4311f9321bc49"
  snapshotBytes := fun _ => 107
  entryBytes := fun _ => 169

/-- The insert of `{ _id: "x" }`. -/
def soloEntry : LogEntry where
  lsn := ⟨7, 0, 0⟩
  commitTs := 7
  op := .I
  collection := js "tickets"
  docId := js "x"
  after := some (.obj [(js "_id", .str (js "x"))])
  origin := none
  session := 0
  seq := 0

def soloManifest : CurrentJson := zeroManifest (js "0a")

def soloWorld : World :=
  { World.empty with
    cur := some soloManifest
    log := fun n => if n = 0 then some soloEntry else none }

/-- Fold from one entry on, into at most one row of at most 200 bytes. -/
def soloOptions : CompactOptions := ⟨some 1, some 10, none, some 200, some 1, none⟩

/-- Everything succeeds. -/
def soloPicks : List Pick :=
  [.ok, .ok, .ok, .order [0], .ok, .ok, .acked none, .ok, .acked none]

theorem soloWorld_dense : DenseLog soloWorld soloManifest 1 where
  manifest := rfl
  occupied n _ hlt := by
    have hzero : n = 0 := by omega
    rw [hzero]
    rfl
  free n hle := if_neg (by omega)
  start_le := Nat.le_refl 0
  hint_le := Nat.zero_le 1

theorem compact_folds_maximal_solo : DenseLog soloWorld soloManifest 1 ∧
    ∃ result w', Ends (compact soloCodec soloCollection soloOptions) soloWorld (.ok result) w' ∧
      result.written = true ∧ ∃ base foldEnd key body next,
        Compacted soloCodec soloCollection soloOptions soloWorld w' soloManifest 1 result base
          foldEnd key body next := by
  have hrun : (runAlone (compact soloCodec soloCollection soloOptions) soloPicks soloWorld).map
      (fun end_ => end_.1.toOption.map CompactResult.written) = some (some true) := by
    decide +kernel
  obtain ⟨⟨r, w'⟩, hend, hresult⟩ := Option.map_eq_some_iff.mp hrun
  obtain ⟨result, hr, hwritten⟩ := Option.map_eq_some_iff.mp hresult
  cases r with
  | error e => cases hr
  | ok result' =>
    cases hr
    have hends := Ends.of_run hend
    refine ⟨soloWorld_dense, result, w', hends, hwritten, ?_⟩
    exact (compact_folds_maximal _ _ _ _ _ _ _ _ soloWorld_dense hends).1 result rfl hwritten

end Baerly
