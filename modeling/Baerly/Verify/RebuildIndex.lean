import Baerly.RebuildIndex
import Baerly.Verify.CompactFold
import Baerly.Verify.Markers
import Baerly.Verify.SnapshotManifest

/-
  What rebuilding an index leaves behind.

  SPEC (`rebuildIndex_exact`): after a run that completes, the markers under the index's prefix are
  exactly those the live rows project, every other object is as it was, a second run writes nothing,
  and a dry run predicts the counts.

  The run is alone on the bucket (`Baerly.Verify.Alone`), and a create is answered with a write
  conflict only where the object is there (`Truthful`).

  CRUX: the two loops are a set difference.  Before each create the listing is still right about
  the keys to come, because they are distinct (`putMissing_ends`).
-/

namespace Baerly

open Async

/-! ## Truthful runs -/

/-- A conflict is only reported of a request that cannot be applied. -/
def Truthful : Op → Pick → World → Prop
  | .await id, .fail e, w =>
    e.isWriteConflict = true → ∀ m, w.net[id]? = some m → applyReq w m.req = none
  | _, _, _ => True

/-- The outcomes of a program that runs alone on a truthful storage. -/
def TrueEnds {α : Type} : Task α → World → Except Err α → World → Prop
  | .ret a, w, r, w' => r = .ok a ∧ w' = w
  | .throw e, w, r, w' => r = .error e ∧ w' = w
  | .call op k, w, r, w' => ∃ pick x w₁, execAlone op pick w = some (x, w₁) ∧ Truthful op pick w ∧
      TrueEnds (k x) w₁ r w'

section Ends

variable {α β : Type} {w w' : World}

/-- A run that tells the truth is a run. -/
theorem TrueEnds.ends {p : Task α} {r : Except Err α} (h : TrueEnds p w r w') : Ends p w r w' := by
  induction p generalizing w with
  | ret a => exact h
  | throw e => exact h
  | call op k ih =>
    obtain ⟨pick, x, w₁, hexec, _, hrest⟩ := h
    exact ⟨pick, x, w₁, hexec, ih x hrest⟩

/-- A sequence ends where its second part does, or with the first's error. -/
theorem TrueEnds.bind {p : Task α} {f : α → Task β} {r : Except Err β}
    (h : TrueEnds (p.bind f) w r w') :
    (∃ a w₁, TrueEnds p w (.ok a) w₁ ∧ TrueEnds (f a) w₁ r w') ∨
      ∃ e, TrueEnds p w (.error e) w' ∧ r = .error e := by
  induction p generalizing w with
  | ret a => exact Or.inl ⟨a, w, ⟨rfl, rfl⟩, h⟩
  | throw e => exact Or.inr ⟨e, ⟨rfl, h.2⟩, h.1⟩
  | call op k ih =>
    obtain ⟨pick, x, w₁, hexec, htrue, hrest⟩ := h
    rcases ih x hrest with ⟨a, w₂, hp, hf⟩ | ⟨e, hp, he⟩
    · exact Or.inl ⟨a, w₂, ⟨pick, x, w₁, hexec, htrue, hp⟩, hf⟩
    · exact Or.inr ⟨e, ⟨pick, x, w₁, hexec, htrue, hp⟩, he⟩

/-- A program that resolves has resolved its first part. -/
theorem TrueEnds.bind_ok {p : Task α} {f : α → Task β} {b : β}
    (h : TrueEnds (p.bind f) w (.ok b) w') :
    ∃ a w₁, TrueEnds p w (.ok a) w₁ ∧ TrueEnds (f a) w₁ (.ok b) w' := by
  rcases h.bind with h | ⟨e, _, he⟩
  · exact h
  · cases he

/-- An attempt ends with what its program does. -/
theorem TrueEnds.attempt {p : Task α} {r : Except Err (Except Err α)}
    (h : TrueEnds (Prog.attempt p) w r w') : ∃ x, TrueEnds p w x w' ∧ r = .ok x := by
  induction p generalizing w with
  | ret a => exact ⟨.ok a, ⟨rfl, h.2⟩, h.1⟩
  | throw e => exact ⟨.error e, ⟨rfl, h.2⟩, h.1⟩
  | call op k ih =>
    obtain ⟨pick, x, w₁, hexec, htrue, hrest⟩ := h
    obtain ⟨y, hy, hr⟩ := ih x hrest
    exact ⟨y, ⟨pick, x, w₁, hexec, htrue, hy⟩, hr⟩

/-- What was computed without the bucket changes nothing. -/
theorem TrueEnds.ofExcept {x r : Except Err α} (h : TrueEnds (Task.ofExcept x) w r w') :
    r = x ∧ w' = w := by
  cases x with
  | ok a => exact h
  | error e => exact h

/-- A run in which nothing fails is truthful. -/
theorem TrueEnds.of_run {p : Task α} {picks : List Pick} {r : Except Err α}
    (h : runAlone p picks w = some (r, w')) (hpicks : ∀ e, Pick.fail e ∉ picks) :
    TrueEnds p w r w' := by
  induction p generalizing picks w with
  | ret a =>
    cases picks with
    | nil =>
      cases h
      exact ⟨rfl, rfl⟩
    | cons _ _ => cases h
  | throw e =>
    cases picks with
    | nil =>
      cases h
      exact ⟨rfl, rfl⟩
    | cons _ _ => cases h
  | call op k ih =>
    cases picks with
    | nil => cases h
    | cons pick picks =>
      obtain ⟨⟨x, w₁⟩, hexec, hrest⟩ := Option.bind_eq_some_iff.mp h
      refine ⟨pick, x, w₁, hexec, ?_, ih x hrest fun e he => hpicks e (List.mem_cons_of_mem _ he)⟩
      unfold Truthful
      split
      next e => exact absurd List.mem_cons_self (hpicks e)
      next => trivial

/-- Sending changes nothing but the net. -/
theorem applyReq_sent_none {q r : Req} {applied : Bool} :
    applyReq (w.sent r applied) q = none ↔ applyReq w q = none := by
  unfold applyReq
  cases q with
  | putSnapshot key body => exact ⟨fun h => (by cases h), fun h => (by cases h)⟩
  | deleteMarker key => exact ⟨fun h => (by cases h), fun h => (by cases h)⟩
  | deleteLog n => exact ⟨fun h => (by cases h), fun h => (by cases h)⟩
  | deleteSnapshot key => exact ⟨fun h => (by cases h), fun h => (by cases h)⟩
  | createMarker key =>
    change (if w.marker key = true then none else _) = none ↔ _
    split <;> simp_all
  | createCurrent m =>
    change (if w.cur = none then _ else none) = none ↔ _
    split <;> simp_all
  | casCurrent pub expected next =>
    change (if w.cur = some expected then _ else none) = none ↔ _
    split <;> simp_all
  | createLog n e guarded =>
    change (if w.log n = none then _ else none) = none ↔ _
    split <;> simp_all
  | createPending m =>
    change (if w.pending = none then _ else none) = none ↔ _
    split <;> simp_all
  | casPending expected next =>
    change (if w.pending = some expected then _ else none) = none ↔ _
    split <;> simp_all

/-- **A write** is applied and acknowledged, or rejected; a conditional one is not applied then, and
    rejected with a conflict only if it could not be. -/
theorem TrueEnds.write {q : Req} {r : Except Err (Option JsString)}
    (h : TrueEnds (Task.write q) w r w') :
    (∃ w₁ date, applyReq w q = some w₁ ∧ r = .ok date ∧ w' = w₁.sent q true) ∨
      ∃ e, r = .error e ∧ (q.isUnconditional = true ∨
        w' = w.sent q false ∧ (e.isWriteConflict = true → applyReq w q = none)) := by
  obtain ⟨pick, id, w₁, hsend, _, pick', x, w₂, hawait, htrue, hrest⟩ := h
  obtain ⟨rfl, rfl⟩ := hrest.ofExcept
  cases pick with
  | ok =>
    obtain ⟨w₀, happly, heq⟩ := Option.map_eq_some_iff.mp hsend
    cases heq
    have hget : (w₀.sent q true).net[w.net.length]? = some ⟨0, q, true, false, false⟩ := by
      rw [← applyReq_net happly, World.sent, List.getElem?_concat_length]
      rfl
    cases pick' with
    | acked date =>
      simp only [execAlone, hget, Option.any_some, if_true, Option.some.injEq] at hawait
      cases hawait
      exact Or.inl ⟨w₀, date, happly, rfl, rfl⟩
    | fail e =>
      simp only [execAlone, hget, Option.any_some, Msg.mustAck, Bool.true_and] at hawait
      split at hawait
      next => cases hawait
      next hfree =>
        cases hawait
        exact Or.inr ⟨e, rfl, Or.inl (by simpa using hfree)⟩
    | _ => cases hawait
  | fail e₀ =>
    cases hsend
    have hget : (w.sent q false).net[w.net.length]? = some ⟨0, q, false, true, true⟩ := by
      rw [World.sent, List.getElem?_concat_length]
      rfl
    cases pick' with
    | acked date => simp [execAlone, hget] at hawait
    | fail e =>
      simp only [execAlone, hget, Option.any_some, Msg.mustAck, Bool.false_and, Bool.false_eq_true,
        if_false, Option.some.injEq] at hawait
      cases hawait
      refine Or.inr ⟨e, rfl, Or.inr ⟨rfl, fun hconflict => ?_⟩⟩
      exact applyReq_sent_none.mp (htrue hconflict _ hget)
    | _ => cases hawait
  | _ => cases hsend

end Ends

/-! ## The live rows -/

/-- `rows` is the fold of what is stored: the manifest's snapshot and the log up to its first free
    slot. -/
def LiveRows (codec : Codec) (c : Collection) (w : World) (rows : Rows) : Prop :=
  ∃ m base tail, w.cur = some m ∧ snapshotRows codec c w m = some base ∧
    max m.logSeqStart m.tailHint ≤ tail ∧
    (∀ n, m.logSeqStart ≤ n → n < tail → (w.log n).isSome = true) ∧ w.log tail = none ∧
    rows = foldLogEntriesOnto c.collectionName none base (slots w m.logSeqStart tail)

variable {codec : Codec} {c : Collection} {w w' : World}

/-- There is one set of live rows. -/
theorem LiveRows.unique {rows rows' : Rows} (h : LiveRows codec c w rows)
    (h' : LiveRows codec c w rows') : rows = rows' := by
  obtain ⟨m, base, tail, hcur, hbase, htail, hdense, hfree, rfl⟩ := h
  obtain ⟨m', base', tail', hcur', hbase', htail', hdense', hfree', rfl⟩ := h'
  cases hcur.symm.trans hcur'
  cases hbase.symm.trans hbase'
  have heq : tail = tail' := by
    rcases lt_trichotomy tail tail' with hlt | heq | hgt
    · have hsome := hdense' tail (by omega) hlt
      rw [hfree] at hsome
      cases hsome
    · exact heq
    · have hsome := hdense tail' (by omega) hgt
      rw [hfree'] at hsome
      cases hsome
  rw [heq]

/-- What is stored besides the markers is what it was. -/
structure OnlyMarkers (w w' : World) : Prop where
  cur : w'.cur = w.cur
  log : w'.log = w.log
  snap : w'.snap = w.snap
  pending : w'.pending = w.pending

theorem OnlyMarkers.refl (w : World) : OnlyMarkers w w := ⟨rfl, rfl, rfl, rfl⟩

/-- Two steps on markers are one. -/
theorem OnlyMarkers.trans {w₁ : World} (h : OnlyMarkers w w₁) (h' : OnlyMarkers w₁ w') :
    OnlyMarkers w w' :=
  ⟨h'.cur.trans h.cur, h'.log.trans h.log, h'.snap.trans h.snap, h'.pending.trans h.pending⟩

/-- The rows do not depend on markers. -/
theorem LiveRows.of_onlyMarkers {rows : Rows} (h : OnlyMarkers w w')
    (hrows : LiveRows codec c w' rows) : LiveRows codec c w rows := by
  obtain ⟨m, base, tail, hcur, hbase, htail, hdense, hfree, hfold⟩ := hrows
  refine ⟨m, base, tail, ?_, ?_, htail, ?_, ?_, ?_⟩
  · rw [← h.cur, hcur]
  · rw [snapshotRows, h.snap] at hbase
    exact hbase
  · rw [← h.log]
    exact hdense
  · rw [← h.log]
    exact hfree
  · rw [hfold, slots, slots, h.log]

/-- **Folding the live rows.** -/
theorem wp_foldLive_alone {m : CurrentJson} (hcur : w.cur = some m) :
    (still codec c).wp 0 (foldLive codec c m)
      (fun r w' => w' = w ∧ ∀ rows, r = .ok rows → LiveRows codec c w rows) w := by
  refine Protocol.wp_bind (Protocol.wp_mono wp_loadBase_alone ?_)
  rintro (e | base) w₁ ⟨rfl, hbase⟩
  · exact ⟨rfl, fun rows h => (by cases h)⟩
  refine Protocol.wp_bind (Protocol.wp_mono
    (wp_walkLogRange (readAlone codec c .scan) trivial) ?_)
  rintro (e | entries) w₂ ⟨rfl, hwalk⟩
  · exact ⟨rfl, fun rows h => (by cases h)⟩
  refine Protocol.wp_bind (Protocol.wp_mono
    (wp_probeTailFrom (readAlone codec c .scan) trivial) ?_)
  rintro (e | ⟨tail, probed⟩) w₃ ⟨rfl, hprobe⟩
  · exact ⟨rfl, fun rows h => (by cases h)⟩
  obtain ⟨hlen, hanswers⟩ := hwalk entries rfl
  obtain ⟨htail, hprobed, hfree⟩ := hprobe tail probed rfl
  refine ⟨rfl, fun rows h => ?_⟩
  cases h
  -- the walk ends where the probe begins
  have hstart : m.logSeqStart + entries.length = max m.logSeqStart m.tailHint := by omega
  have hall : ∀ i e, (entries ++ probed)[i]? = some e → w₃.log (m.logSeqStart + i) = some e := by
    refine hanswers.append ?_
    rw [hstart]
    exact hprobed
  have hslots := slots_of_answers hall
  rw [List.length_append, ← Nat.add_assoc, hstart, ← htail] at hslots
  refine ⟨m, base, tail, hcur, hbase base rfl, by omega, ?_, hfree, ?_⟩
  · intro n hlow hhigh
    have hget : n - m.logSeqStart < (entries ++ probed).length := by
      rw [List.length_append]
      omega
    have hslot := hall (n - m.logSeqStart) _ (List.getElem?_eq_getElem hget)
    rw [show m.logSeqStart + (n - m.logSeqStart) = n by omega] at hslot
    rw [hslot]
    rfl
  · rw [← hslots, foldLogEntriesOnto_append]

/-! ## The markers the rows project -/

variable {N : NumberText} {d : IndexDefinition}

/-- The row has a marker under the index, and this is its key. -/
def ProjectsRow (N : NumberText) (c : Collection) (d : IndexDefinition) (row : JsString × Doc)
    (key : Key) : Prop :=
  keptByFilter d (some row.2) = .ok true ∧
    ∃ values, projectIndexValues d (some row.2) = .ok (some values) ∧
      key = indexKeyFor N c.collectionPrefix d values row.1

/-- **What the index should hold**: the keys of the live rows. -/
def Projects (N : NumberText) (c : Collection) (d : IndexDefinition) (rows : Rows) (key : Key) :
    Prop :=
  ∃ row ∈ rows.entries, ProjectsRow N c d row key

/-- A key is added. -/
theorem mem_addKey {keys : List Key} {k key : Key} : key ∈ addKey keys k ↔ key ∈ keys ∨ key = k := by
  unfold addKey
  split
  next h =>
    constructor
    · exact Or.inl
    · rintro (hkey | rfl)
      · exact hkey
      · exact h
  next => simp

/-- Once. -/
theorem nodup_addKey {keys : List Key} {k : Key} (h : keys.Nodup) : (addKey keys k).Nodup := by
  unfold addKey
  split
  next => exact h
  next hk => exact h.append (List.nodup_singleton k) (by simpa using hk)

/-- So are all of them. -/
theorem mem_foldl_addKey {keys : List Key} {key : Key} : ∀ {acc : List Key},
    key ∈ keys.foldl addKey acc ↔ key ∈ acc ∨ key ∈ keys := by
  induction keys with
  | nil => intro acc; simp
  | cons k keys ih =>
    intro acc
    rw [List.foldl_cons, ih, mem_addKey, List.mem_cons]
    exact or_assoc

/-- The keys of a listing, collected in a set. -/
theorem mem_collected {keys : List Key} {key : Key} : key ∈ keys.foldl addKey [] ↔ key ∈ keys := by
  rw [mem_foldl_addKey]
  simp

/-- Each once. -/
theorem nodup_foldl_addKey {keys : List Key} : ∀ {acc : List Key}, acc.Nodup →
    (keys.foldl addKey acc).Nodup := by
  induction keys with
  | nil => exact fun h => h
  | cons k keys ih => exact fun h => ih (nodup_addKey h)

/-- The keys of a row are those it projects to. -/
theorem allIndexKeysFor_mem {row : JsString × Doc} {keys : List Key}
    (h : allIndexKeysFor N c.collectionPrefix [d] (some row.2) row.1 = .ok keys) (key : Key) :
    key ∈ keys ↔ ProjectsRow N c d row key := by
  unfold ProjectsRow
  rw [allIndexKeysFor] at h
  cases hkept : keptByFilter d (some row.2) with
  | error e =>
    rw [hkept] at h
    cases h
  | ok kept =>
    rw [hkept] at h
    cases kept with
    | false =>
      cases h
      simp
    | true =>
      cases hproject : projectIndexValues d (some row.2) with
      | error e =>
        simp only [hproject] at h
        cases h
      | ok values =>
        simp only [hproject] at h
        cases values with
        | none =>
          cases h
          simp
        | some values =>
          cases h
          simp

/-- **Step 2** computes the keys of the rows, without repetition. -/
theorem expectedKeys_ok {rows : List (JsString × Doc)} : ∀ {acc keys : List Key},
    expectedKeys N c d rows acc = .ok keys → acc.Nodup →
    keys.Nodup ∧ ∀ key, key ∈ keys ↔ key ∈ acc ∨ ∃ row ∈ rows, ProjectsRow N c d row key := by
  induction rows with
  | nil =>
    intro acc keys h hnodup
    cases h
    exact ⟨hnodup, fun key => by simp⟩
  | cons row rows ih =>
    intro acc keys h hnodup
    rw [expectedKeys] at h
    cases hrow : allIndexKeysFor N c.collectionPrefix [d] (some row.2) row.1 with
    | error e =>
      rw [hrow] at h
      cases h
    | ok ks =>
      rw [hrow] at h
      obtain ⟨hkeys, hmem⟩ := ih h (nodup_foldl_addKey hnodup)
      refine ⟨hkeys, fun key => ?_⟩
      rw [hmem, mem_foldl_addKey, allIndexKeysFor_mem hrow, or_assoc]
      simp

/-! ## The loops -/

/-- The keys of `keys` that are in `set`, and those that are not. -/
def among (set keys : List Key) : List Key := keys.filter fun k => k ∈ set

/-- The keys that are not in the set. -/
def outside (set keys : List Key) : List Key := keys.filter fun k => k ∉ set

/-- Where nothing is missing, or in a dry run, the first loop only counts. -/
theorem putMissing_quiet {actual : List Key} {dryRun : Bool} : ∀ (keys : List Key)
    (result : RebuildIndexResult), (dryRun = true ∨ ∀ k ∈ keys, k ∈ actual) →
    putMissing actual dryRun keys result = .ret ⟨result.added + (outside actual keys).length,
      result.removed, result.kept + (among actual keys).length⟩ := by
  intro keys
  induction keys with
  | nil => intro result _; rfl
  | cons k keys ih =>
    intro result h
    have hrest : dryRun = true ∨ ∀ k ∈ keys, k ∈ actual :=
      h.imp id fun h j hj => h j (List.mem_cons_of_mem _ hj)
    rw [putMissing]
    by_cases hk : k ∈ actual
    · rw [if_pos hk, ih _ hrest]
      simp only [outside, among, List.filter_cons, hk, not_true_eq_false, decide_true, decide_false,
        Bool.false_eq_true, if_true, if_false, List.length_cons]
      congr 2
      omega
    · have hdry : dryRun = true := h.resolve_right fun hall => hk (hall k List.mem_cons_self)
      rw [if_neg hk, if_pos hdry, ih _ hrest]
      simp only [outside, among, List.filter_cons, hk, not_false_eq_true, decide_true, decide_false,
        Bool.false_eq_true, if_true, if_false, List.length_cons]
      congr 2
      omega

/-- A dry run deletes nothing and counts what it would. -/
theorem deleteOrphans_quiet {expected : List Key} {dryRun : Bool} : ∀ (keys : List Key)
    (result : RebuildIndexResult), (dryRun = true ∨ ∀ k ∈ keys, k ∈ expected) →
    deleteOrphans expected dryRun keys result =
      .ret ⟨result.added, result.removed + (outside expected keys).length, result.kept⟩ := by
  intro keys
  induction keys with
  | nil => intro result _; rfl
  | cons k keys ih =>
    intro result h
    have hrest : dryRun = true ∨ ∀ k ∈ keys, k ∈ expected :=
      h.imp id fun h j hj => h j (List.mem_cons_of_mem _ hj)
    rw [deleteOrphans]
    by_cases hk : k ∈ expected
    · rw [if_pos hk, ih _ hrest]
      simp only [outside, List.filter_cons, hk, not_true_eq_false, decide_false,
        Bool.false_eq_true, if_false]
    · have hdry : dryRun = true := h.resolve_right fun hall => hk (hall k List.mem_cons_self)
      rw [if_neg hk, if_pos hdry, ih _ hrest]
      simp only [outside, List.filter_cons, hk, not_false_eq_true, decide_true, if_true,
        List.length_cons]
      congr 2
      omega

theorem outside_cons_of_mem {set keys : List Key} {k : Key} (h : k ∈ set) :
    outside set (k :: keys) = outside set keys := by
  simp [outside, h]

theorem outside_cons_of_not_mem {set keys : List Key} {k : Key} (h : k ∉ set) :
    outside set (k :: keys) = k :: outside set keys := by
  simp [outside, h]

theorem among_cons_of_mem {set keys : List Key} {k : Key} (h : k ∈ set) :
    among set (k :: keys) = k :: among set keys := by
  simp [among, h]

theorem among_cons_of_not_mem {set keys : List Key} {k : Key} (h : k ∉ set) :
    among set (k :: keys) = among set keys := by
  simp [among, h]

/-- What is outside is a key that is not in the set. -/
theorem mem_outside {set keys : List Key} {k : Key} : k ∈ outside set keys ↔ k ∈ keys ∧ k ∉ set := by
  simp [outside]

/-- Nothing is outside a set that has everything. -/
theorem length_outside_eq_zero {set keys : List Key} (h : ∀ k ∈ keys, k ∈ set) :
    (outside set keys).length = 0 := by
  rw [List.length_eq_zero_iff, List.eq_nil_iff_forall_not_mem]
  intro k hk
  rw [mem_outside] at hk
  exact hk.2 (h k hk.1)

/-- **The first loop**: with a listing that is right about its keys, every key has a marker
    afterwards, and the creates are counted. -/
theorem putMissing_ends {actual : List Key} : ∀ (keys : List Key) {w w' : World}
    {result result' : RebuildIndexResult}, keys.Nodup →
    (∀ k ∈ keys, k ∈ actual ↔ w.marker k = true) →
    TrueEnds (putMissing actual false keys result) w (.ok result') w' →
    OnlyMarkers w w' ∧ (∀ k, w'.marker k = true ↔ w.marker k = true ∨ k ∈ keys) ∧
      result' = ⟨result.added + (outside actual keys).length, result.removed,
        result.kept + (among actual keys).length⟩ := by
  intro keys
  -- on the keys that are left: each is there already or is created now
  induction keys with
  | nil =>
    intro w w' result result' _ _ h
    obtain ⟨heq, rfl⟩ := h
    cases heq
    exact ⟨.refl _, fun k => by simp, rfl⟩
  | cons k keys ih =>
    intro w w' result result' hnodup hlisted h
    rw [List.nodup_cons] at hnodup
    rw [List.forall_mem_cons] at hlisted
    rw [putMissing] at h
    by_cases hk : k ∈ actual
    · rw [if_pos hk] at h
      obtain ⟨hframe, hmarker, hcount⟩ := ih hnodup.2 hlisted.2 h
      refine ⟨hframe, fun j => ?_, ?_⟩
      · rw [hmarker, List.mem_cons]
        constructor
        · rintro (hj | hj)
          · exact Or.inl hj
          · exact Or.inr (Or.inr hj)
        · rintro (hj | rfl | hj)
          · exact Or.inl hj
          · exact Or.inl (hlisted.1.mp hk)
          · exact Or.inr hj
      · rw [hcount, outside_cons_of_mem hk, among_cons_of_mem hk, List.length_cons]
        simp only [RebuildIndexResult.mk.injEq, true_and]
        omega
    · -- the key has no marker, so the create cannot be refused
      have hfree : w.marker k = false := by
        rw [← Bool.not_eq_true, ← hlisted.1]
        exact hk
      have happly : applyReq w (.createMarker k) = some (w.setMarker k true) := by
        rw [applyReq, hfree]
        rfl
      rw [if_neg hk, if_neg (by simp)] at h
      obtain ⟨x, w₁, hwrite, hrest⟩ := h.bind_ok
      obtain ⟨y, hwrite, heq⟩ := hwrite.attempt
      cases heq
      rcases hwrite.write with ⟨w₂, date, hw₂, rfl, rfl⟩ | ⟨e, rfl, hfree | ⟨rfl, hconflict⟩⟩
      · cases happly.symm.trans hw₂
        have hlater : ∀ j ∈ keys, j ∈ actual ↔
            ((w.setMarker k true).sent (.createMarker k) true).marker j = true := by
          intro j hj
          have hne : j ≠ k := fun heq => hnodup.1 (heq ▸ hj)
          rw [hlisted.2 j hj]
          show _ ↔ (if j = k then true else w.marker j) = true
          rw [if_neg hne]
        obtain ⟨hframe, hmarker, hcount⟩ := ih hnodup.2 hlater hrest
        have hcreate : OnlyMarkers w ((w.setMarker k true).sent (.createMarker k) true) :=
          ⟨rfl, rfl, rfl, rfl⟩
        refine ⟨hcreate.trans hframe, fun j => ?_, ?_⟩
        · rw [hmarker, List.mem_cons]
          show (if j = k then true else w.marker j) = true ∨ j ∈ keys ↔ _
          by_cases hj : j = k
          · simp [hj]
          · simp [hj]
        · rw [hcount, outside_cons_of_not_mem hk, among_cons_of_not_mem hk, List.length_cons]
          simp only [RebuildIndexResult.mk.injEq, and_true]
          omega
      · cases hfree
      · dsimp only at hrest
        split at hrest
        -- a conflict is only reported where the marker is, and it is not
        next hc =>
          rw [hconflict hc] at happly
          cases happly
        next => cases hrest.1

/-- **The second loop** takes the markers nobody projects, and counts them. -/
theorem deleteOrphans_ends {expected : List Key} : ∀ (keys : List Key) {w w' : World}
    {result result' : RebuildIndexResult},
    TrueEnds (deleteOrphans expected false keys result) w (.ok result') w' →
    OnlyMarkers w w' ∧
      (∀ k, w'.marker k = true ↔ w.marker k = true ∧ ¬ (k ∈ keys ∧ k ∉ expected)) ∧
      result' = ⟨result.added, result.removed + (outside expected keys).length, result.kept⟩ := by
  intro keys
  induction keys with
  | nil =>
    intro w w' result result' h
    obtain ⟨heq, rfl⟩ := h
    cases heq
    exact ⟨.refl _, fun k => by simp, rfl⟩
  | cons k keys ih =>
    intro w w' result result' h
    rw [deleteOrphans] at h
    by_cases hk : k ∈ expected
    · rw [if_pos hk] at h
      obtain ⟨hframe, hmarker, hcount⟩ := ih h
      refine ⟨hframe, fun j => ?_, by rw [hcount, outside_cons_of_mem hk]⟩
      rw [hmarker, List.mem_cons]
      constructor
      · rintro ⟨hj, hkeep⟩
        refine ⟨hj, ?_⟩
        rintro ⟨rfl | hmem, hout⟩
        · exact hout hk
        · exact hkeep ⟨hmem, hout⟩
      · rintro ⟨hj, hkeep⟩
        exact ⟨hj, fun hmem => hkeep ⟨Or.inr hmem.1, hmem.2⟩⟩
    · rw [if_neg hk, if_neg (by simp)] at h
      obtain ⟨x, w₁, hwrite, hrest⟩ := h.bind_ok
      rcases hwrite.write with ⟨w₂, date, hw₂, hx, rfl⟩ | ⟨e, hx, _⟩
      · cases hw₂
        obtain ⟨hframe, hmarker, hcount⟩ := ih hrest
        have hdelete : OnlyMarkers w ((w.setMarker k false).sent (.deleteMarker k) true) :=
          ⟨rfl, rfl, rfl, rfl⟩
        refine ⟨hdelete.trans hframe, fun j => ?_, ?_⟩
        · rw [hmarker, List.mem_cons]
          show (if j = k then false else w.marker j) = true ∧ _ ↔ _
          by_cases hj : j = k
          · simp [hj, hk]
          · simp [hj]
        · rw [hcount, outside_cons_of_not_mem hk, List.length_cons]
          simp only [RebuildIndexResult.mk.injEq, true_and, and_true]
          omega
      · cases hx

/-! ## The run -/

/-- Every projected key lies under the prefix of the index. -/
theorem Projects.under {rows : Rows} {key : Key} (h : Projects N c d rows key) :
    indexKeyPrefix c.collectionPrefix d.name <+: key := by
  obtain ⟨row, _, _, values, _, rfl⟩ := h
  refine ⟨List.intercalate (js "/") (values.map (Property.segment N)) ++
    (js "/" ++ (row.1 ++ js ".json")), ?_⟩
  simp only [indexKeyPrefix, indexKeyFor, List.append_assoc]

/-- The name of an index has no slash. -/
theorem slash_notMem_indexName {name : JsString} (h : indexNameOk name = true) : slash ∉ name := by
  cases name with
  | nil => exact List.not_mem_nil
  | cons u us =>
    simp only [indexNameOk, Bool.and_eq_true, List.all_eq_true] at h
    rw [List.mem_cons]
    rintro (rfl | hmem)
    · exact absurd h.1 (by decide)
    · exact absurd (h.2 slash hmem) (by decide)

/-- No key lies under the prefixes of two indexes. -/
theorem indexKeyPrefix_disjoint {logPrefix key : Key} {name name' : JsString}
    (hname : indexNameOk name = true) (hname' : indexNameOk name' = true) (hne : name' ≠ name)
    (h : indexKeyPrefix logPrefix name <+: key) : ¬ indexKeyPrefix logPrefix name' <+: key := by
  intro h'
  obtain ⟨rest, rfl⟩ := h
  obtain ⟨rest', heq⟩ := h'
  simp only [indexKeyPrefix, js_slash, List.append_assoc, List.append_cancel_left_eq] at heq
  exact hne (Path.cut_inj (slash_notMem_indexName hname') (slash_notMem_indexName hname) heq).1

/-- **The reads**: nothing changes before the loops, which start with the keys of the live rows. -/
theorem rebuildIndex_reads {listing : List Key} {dryRun : Bool}
    {r : Except Err RebuildIndexResult}
    (h : TrueEnds (rebuildIndex N codec c d listing dryRun) w r w') :
    (∃ e, r = .error e ∧ w' = w) ∨
      ∃ rows expected, LiveRows codec c w rows ∧ expected.Nodup ∧
        (∀ k, k ∈ expected ↔ Projects N c d rows k) ∧
        TrueEnds ((putMissing (listing.foldl addKey []) dryRun expected ⟨0, 0, 0⟩).bind
          (deleteOrphans expected dryRun (listing.foldl addKey []))) w r w' := by
  have hread : (still codec c).wp 0 (readCurrentJson c)
      (fun x w₁ => w₁ = w ∧ ∀ found, x = .ok found → w.cur = found) w :=
    wp_readCurrentJson_alone ⟨rfl, fun found heq => Except.ok.inj heq⟩
      fun e => ⟨rfl, fun found heq => (by cases heq)⟩
  rcases h.bind with ⟨found, w₁, hp, hrest⟩ | ⟨e, hp, rfl⟩
  · obtain ⟨rfl, hfound⟩ := hp.ends.of_wp hread
    have hcur := hfound found rfl
    cases found with
    | none => exact Or.inl ⟨_, hrest.1, hrest.2⟩
    | some m =>
      dsimp only at hrest
      split at hrest
      · rcases hrest.bind with ⟨rows, w₂, hfold, hproject⟩ | ⟨e, hfold, rfl⟩
        · obtain ⟨rfl, hlive⟩ := hfold.ends.of_wp (wp_foldLive_alone hcur)
          rcases hproject.bind with ⟨expected, w₃, hkeys, hloops⟩ | ⟨e, hkeys, rfl⟩
          · obtain ⟨hexpected, rfl⟩ := hkeys.ofExcept
            obtain ⟨hnodup, hmem⟩ := expectedKeys_ok hexpected.symm List.nodup_nil
            refine Or.inr ⟨rows, expected, hlive rows rfl, hnodup, fun k => ?_, hloops⟩
            rw [hmem]
            simp [Projects]
          · exact Or.inl ⟨e, rfl, hkeys.ofExcept.2⟩
        · exact Or.inl ⟨e, rfl, (hfold.ends.of_wp (wp_foldLive_alone hcur)).1⟩
      · exact Or.inl ⟨_, hrest.1, hrest.2⟩
  · exact Or.inl ⟨e, rfl, (hp.ends.of_wp hread).1⟩

/-- A listing of the markers under the prefix of the index. -/
def Lists (c : Collection) (d : IndexDefinition) (w : World) (listing : List Key) : Prop :=
  ∀ k, k ∈ listing ↔ indexKeyPrefix c.collectionPrefix d.name <+: k ∧ w.marker k = true

/-- A run that counts only, or finds the markers exact, writes nothing. -/
theorem rebuildIndex_quiet {listing : List Key} {dryRun : Bool}
    {r : Except Err RebuildIndexResult} (h : TrueEnds (rebuildIndex N codec c d listing dryRun) w r w')
    (hquiet : dryRun = true ∨ ∀ rows, LiveRows codec c w rows →
      ∀ k, k ∈ listing ↔ Projects N c d rows k) :
    w' = w ∧ ∀ result, r = .ok result →
      ∃ rows expected, LiveRows codec c w rows ∧ expected.Nodup ∧
        (∀ k, k ∈ expected ↔ Projects N c d rows k) ∧
        result = ⟨(outside (listing.foldl addKey []) expected).length,
          (outside expected (listing.foldl addKey [])).length,
          (among (listing.foldl addKey []) expected).length⟩ := by
  rcases rebuildIndex_reads h with ⟨e, rfl, rfl⟩ | ⟨rows, expected, hlive, hnodup, hmem, hloops⟩
  · exact ⟨rfl, fun result heq => (by cases heq)⟩
  have hput : dryRun = true ∨ ∀ k ∈ expected, k ∈ listing.foldl addKey [] := by
    refine hquiet.imp id fun hexact k hk => ?_
    rw [mem_collected, hexact rows hlive k]
    exact (hmem k).mp hk
  have hdelete : dryRun = true ∨ ∀ k ∈ listing.foldl addKey [], k ∈ expected := by
    refine hquiet.imp id fun hexact k hk => ?_
    rw [mem_collected, hexact rows hlive k] at hk
    exact (hmem k).mpr hk
  rw [putMissing_quiet _ _ hput, Prog.bind, deleteOrphans_quiet _ _ hdelete] at hloops
  obtain ⟨rfl, rfl⟩ := hloops
  refine ⟨rfl, fun result heq => ⟨rows, expected, hlive, hnodup, hmem, ?_⟩⟩
  cases heq
  simp only [Nat.zero_add]

/-- **A run that writes**: what it leaves, and what it counts. -/
theorem rebuildIndex_run {listing : List Key} {result : RebuildIndexResult}
    (hlist : Lists c d w listing)
    (h : TrueEnds (rebuildIndex N codec c d listing false) w (.ok result) w') :
    OnlyMarkers w w' ∧ ∃ rows expected, LiveRows codec c w rows ∧ expected.Nodup ∧
      (∀ k, k ∈ expected ↔ Projects N c d rows k) ∧
      (∀ k, w'.marker k = true ↔
        w.marker k = true ∧ ¬ indexKeyPrefix c.collectionPrefix d.name <+: k ∨ k ∈ expected) ∧
      result = ⟨(outside (listing.foldl addKey []) expected).length,
        (outside expected (listing.foldl addKey [])).length,
        (among (listing.foldl addKey []) expected).length⟩ := by
  rcases rebuildIndex_reads h with ⟨e, heq, _⟩ | ⟨rows, expected, hlive, hnodup, hmem, hloops⟩
  · cases heq
  obtain ⟨counted, w₁, hput, hdelete⟩ := hloops.bind_ok
  have hunder : ∀ k ∈ expected, indexKeyPrefix c.collectionPrefix d.name <+: k :=
    fun k hk => Projects.under ((hmem k).mp hk)
  have hlisted : ∀ k ∈ expected, k ∈ listing.foldl addKey [] ↔ w.marker k = true := by
    intro k hk
    rw [mem_collected, hlist k]
    exact and_iff_right (hunder k hk)
  obtain ⟨hframe, hmarker, rfl⟩ := putMissing_ends expected hnodup hlisted hput
  obtain ⟨hframe', hmarker', rfl⟩ := deleteOrphans_ends _ hdelete
  refine ⟨hframe.trans hframe', rows, expected, hlive, hnodup, hmem, fun k => ?_, by simp⟩
  rw [hmarker', hmarker, mem_collected, hlist k]
  by_cases hexpected : k ∈ expected
  · simp [hexpected]
  · -- a marker that nobody projects stays only where the listing does not look
    simp only [hexpected, or_false, not_false_eq_true, and_true]
    constructor
    · rintro ⟨hk, hout⟩
      exact ⟨hk, fun hpre => hout ⟨hpre, hk⟩⟩
    · rintro ⟨hk, hpre⟩
      exact ⟨hk, fun hboth => hpre hboth.1⟩

/-- **Rebuilding an index.**  After a run that completes, the markers under the prefix of the index
    are the keys the live rows project; the markers of other indexes and everything else are as they
    were; the counts are the numbers of markers created and deleted.  A further run, dry or not,
    writes nothing, whatever fails in it, and counts nothing to do; a dry run in place of the first
    one would have written nothing and returned the same counts. -/
theorem rebuildIndex_exact (N : NumberText) (codec : Codec) (c : Collection) (d : IndexDefinition)
    (w w' : World) (listing : List Key) (result : RebuildIndexResult) (hlist : Lists c d w listing)
    (hrun : TrueEnds (rebuildIndex N codec c d listing false) w (.ok result) w') :
    (∃ rows, LiveRows codec c w rows ∧ ∀ k, indexKeyPrefix c.collectionPrefix d.name <+: k →
      (w'.marker k = true ↔ Projects N c d rows k)) ∧
    (∀ d' : IndexDefinition, indexNameOk d.name = true → indexNameOk d'.name = true →
      d'.name ≠ d.name → ∀ k, indexKeyPrefix c.collectionPrefix d'.name <+: k →
      w'.marker k = w.marker k) ∧
    (∀ k, ¬ indexKeyPrefix c.collectionPrefix d.name <+: k → w'.marker k = w.marker k) ∧
    OnlyMarkers w w' ∧
    (∃ created deleted : List Key, created.Nodup ∧ deleted.Nodup ∧
      (∀ k, k ∈ created ↔ w.marker k = false ∧ w'.marker k = true) ∧
      (∀ k, k ∈ deleted ↔ w.marker k = true ∧ w'.marker k = false) ∧
      result.added = created.length ∧ result.removed = deleted.length) ∧
    (∀ listing' dryRun r w'', Lists c d w' listing' →
      TrueEnds (rebuildIndex N codec c d listing' dryRun) w' r w'' →
      w'' = w' ∧ ∀ again, r = .ok again → again.added = 0 ∧ again.removed = 0) ∧
    ∀ r w₁, TrueEnds (rebuildIndex N codec c d listing true) w r w₁ →
      w₁ = w ∧ ∀ counts, r = .ok counts → counts.added = result.added ∧
        counts.removed = result.removed := by
  obtain ⟨hframe, rows, expected, hlive, hnodup, hmem, hmarker, rfl⟩ := rebuildIndex_run hlist hrun
  have hunder : ∀ k ∈ expected, indexKeyPrefix c.collectionPrefix d.name <+: k :=
    fun k hk => Projects.under ((hmem k).mp hk)
  have hexact : ∀ k, indexKeyPrefix c.collectionPrefix d.name <+: k →
      (w'.marker k = true ↔ Projects N c d rows k) := by
    intro k hpre
    rw [hmarker, ← hmem]
    simp [hpre]
  have helse : ∀ k, ¬ indexKeyPrefix c.collectionPrefix d.name <+: k →
      w'.marker k = w.marker k := by
    intro k hpre
    rw [Bool.eq_iff_iff, hmarker]
    have hout : k ∉ expected := fun hk => hpre (hunder k hk)
    simp [hpre, hout]
  refine ⟨⟨rows, hlive, hexact⟩, ?_, helse, hframe, ?_, ?_, ?_⟩
  · intro d' hname hname' hne k hpre
    exact helse k (indexKeyPrefix_disjoint hname' hname (Ne.symm hne) hpre)
  · refine ⟨outside (listing.foldl addKey []) expected, outside expected (listing.foldl addKey []),
      hnodup.filter _, (nodup_foldl_addKey List.nodup_nil).filter _, fun k => ?_, fun k => ?_, rfl,
      rfl⟩
    · rw [mem_outside, mem_collected, hlist k, hmarker]
      constructor
      · rintro ⟨hk, hout⟩
        refine ⟨?_, Or.inr hk⟩
        rw [← Bool.not_eq_true]
        exact fun hset => hout ⟨hunder k hk, hset⟩
      · rintro ⟨hfree, ⟨hset, _⟩ | hk⟩
        · rw [hfree] at hset
          cases hset
        · refine ⟨hk, fun hboth => ?_⟩
          rw [hfree] at hboth
          cases hboth.2
    · rw [mem_outside, mem_collected, hlist k, ← Bool.not_eq_true (w'.marker k), hmarker]
      constructor
      · rintro ⟨⟨hpre, hset⟩, hout⟩
        refine ⟨hset, ?_⟩
        rintro (hstays | hk)
        · exact hstays.2 hpre
        · exact hout hk
      · rintro ⟨hset, hgone⟩
        rw [not_or] at hgone
        refine ⟨⟨?_, hset⟩, hgone.2⟩
        by_contra hpre
        exact hgone.1 ⟨hset, hpre⟩
  · intro listing' dryRun r w'' hlist' hagain
    -- the listing now is the projection
    have hsame : ∀ rows', LiveRows codec c w' rows' → ∀ k, k ∈ listing' ↔ Projects N c d rows' k := by
      intro rows' hlive' k
      rw [← hlive.unique (hlive'.of_onlyMarkers hframe), hlist' k]
      constructor
      · rintro ⟨hpre, hset⟩
        exact (hexact k hpre).mp hset
      · intro hk
        exact ⟨hk.under, (hexact k hk.under).mpr hk⟩
    obtain ⟨hstill, hcounts⟩ := rebuildIndex_quiet hagain (Or.inr hsame)
    refine ⟨hstill, fun again heq => ?_⟩
    obtain ⟨rows', expected', hlive', _, hmem', rfl⟩ := hcounts again heq
    have hboth : ∀ k, k ∈ listing'.foldl addKey [] ↔ k ∈ expected' := by
      intro k
      rw [mem_collected, hsame rows' hlive' k, hmem']
    exact ⟨length_outside_eq_zero fun k hk => (hboth k).mpr hk,
      length_outside_eq_zero fun k hk => (hboth k).mp hk⟩
  · intro r w₁ hdry
    obtain ⟨hstill, hcounts⟩ := rebuildIndex_quiet hdry (Or.inl rfl)
    refine ⟨hstill, fun counts heq => ?_⟩
    obtain ⟨rows', expected', hlive', hnodup', hmem', rfl⟩ := hcounts counts heq
    -- the same keys in another order, perhaps
    have hperm : expected'.Perm expected := by
      rw [List.perm_ext_iff_of_nodup hnodup' hnodup]
      intro k
      rw [hmem', hmem, hlive.unique hlive']
    have hset : ∀ k, k ∈ expected' ↔ k ∈ expected := fun k => hperm.mem_iff
    constructor
    · exact (hperm.filter _).length_eq
    · show (outside expected' _).length = (outside expected _).length
      unfold outside
      simp only [hset]

/-! ## A collection of one row -/

theorem unfiltered_typed (filter : PredicateWire) (h : none = some filter) :
    ∀ clause ∈ filter.clauses, clause.value.noNull = true := by
  cases h

/-- An index on `_id`. -/
def byId : IndexDefinition where
  name := js "by_id"
  on := .field (js "_id")
  predicate := none
  typed := unfiltered_typed

/-- A file under the prefix that is no marker of a row. -/
def strayKey : Key := js "app/tickets/index/by_id/stray"

/-- The row has no marker, and there is the stray file. -/
def driftedWorld : World := { soloWorld with marker := fun k => k = strayKey }

/-- The bucket of the example lists its one stray marker. -/
theorem driftedWorld_lists : Lists soloCollection byId driftedWorld [strayKey] := by
  intro k
  have hunder : indexKeyPrefix soloCollection.collectionPrefix byId.name <+: strayKey := by decide
  rw [List.mem_singleton]
  constructor
  · rintro rfl
    refine ⟨hunder, ?_⟩
    show decide (strayKey = strayKey) = true
    exact decide_eq_true rfl
  · rintro ⟨_, hset⟩
    exact of_decide_eq_true hset

theorem rebuildIndex_exact_drifted : Lists soloCollection byId driftedWorld [strayKey] ∧
    ∃ w', TrueEnds (rebuildIndex integerText soloCodec soloCollection byId [strayKey] false)
        driftedWorld (.ok ⟨1, 1, 0⟩) w' ∧
      ∃ rows, LiveRows soloCodec soloCollection driftedWorld rows ∧
        ∀ k, indexKeyPrefix soloCollection.collectionPrefix byId.name <+: k →
          (w'.marker k = true ↔ Projects integerText soloCollection byId rows k) := by
  have hrun : (runAlone (rebuildIndex integerText soloCodec soloCollection byId [strayKey] false)
      [.ok, .ok, .ok, .ok, .acked none, .ok, .acked none] driftedWorld).map
      (fun end_ => end_.1.toOption) = some (some ⟨1, 1, 0⟩) := by
    decide +kernel
  obtain ⟨⟨r, w'⟩, hend, hresult⟩ := Option.map_eq_some_iff.mp hrun
  cases r with
  | error e => cases hresult
  | ok result =>
    cases hresult
    have hends := TrueEnds.of_run hend (by simp)
    refine ⟨driftedWorld_lists, w', hends, ?_⟩
    exact (rebuildIndex_exact integerText soloCodec soloCollection byId driftedWorld w' [strayKey]
      ⟨1, 1, 0⟩ driftedWorld_lists hends).1

end Baerly
