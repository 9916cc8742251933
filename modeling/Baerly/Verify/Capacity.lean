import Baerly.Capacity
import Baerly.Verify.CompactFold
import Baerly.Verify.JsonSize
import Baerly.Verify.SnapshotManifest

/-
  What capacity admission promises: an admitted batch can be folded.

  PROGRAM: `capacityRefusal` projects the tail and the planned writes onto the stored figures and
  looks at the peaks; `compact` rebuilds a snapshot from whichever prefix it folds and encodes it.

  SPEC (`admitted_batch_folds`): after an admitted batch with a growth write, every prefix of the tail
  and the batch folds within both ceilings, so no `compact` under them defers.

  CRUX: the projection tracks the fold (`Tracks`): the same row sizes, the same row count, and bytes
  that differ from the encoded ones by a constant, one separator and the digits of `max_seq`
  (`length_encodeSnapshotBody`, `headerBytes_le`).
-/

namespace Baerly

/-! ## The bytes of a snapshot -/

section Bytes

variable {N : NumberText}

/-- The bytes of a body without its rows. -/
def headerBytes (N : NumberText) (s : SnapshotBody) : Nat :=
  (encodeSnapshotBody N { s with docs := [] }).length

/-- Each row takes its own bytes and a separator, the last one none. -/
theorem length_encodeSnapshotBody (s : SnapshotBody) :
    (encodeSnapshotBody N s).length + min s.docs.length 1 =
      headerBytes N s + (s.docs.map fun row => rowBytes N row.1 row.2).sum := by
  have hrows : (s.docs.map fun row => rowBytes N row.1 row.2).sum =
      ((s.docs.map fun row => rowJson row.1 row.2).map (jsonSize N)).sum + s.docs.length := by
    rw [List.map_map]
    induction s.docs with
    | nil => rfl
    | cons row rows ih =>
      simp only [List.map_cons, List.sum_cons, List.length_cons, ih, Function.comp_apply]
      show jsonSize N (rowJson row.1 row.2) + 1 + _ = _
      omega
  show jsonSize N s.toJson + _ = jsonSize N (SnapshotBody.toJson { s with docs := [] }) + _
  rw [hrows]
  simp only [SnapshotBody.toJson, jsonSize_obj, memberSize, jsonSize_arr, List.map_cons, List.map_nil,
    List.sum_cons, List.sum_nil, List.length_map, List.length_cons, List.length_nil]
  omega

theorem textSize_ascii {s : JsString} (h : ∀ u ∈ s, u.val < 0x80) : textSize s = s.length := by
  induction s with
  | nil => rfl
  | cons u us ih =>
    rw [textSize_cons (h u List.mem_cons_self), ih fun x hx => h x (List.mem_cons_of_mem u hx),
      List.length_cons, Nat.add_comm]

/-- A sequence number takes one to sixteen bytes. -/
theorem seqSize (hN : ∀ n, n ≤ maxSafeInteger → N.text (JsNumber.ofNat n) = decimal n) (n : Nat) :
    1 ≤ jsonSize N (.num (JsNumber.ofNat n)) ∧ jsonSize N (.num (JsNumber.ofNat n)) ≤ 16 := by
  have hclamp : JsNumber.ofNat n = JsNumber.ofNat (min n maxSafeInteger) := by
    unfold JsNumber.ofNat
    simp only [Nat.min_assoc, Nat.min_self]
  have hle := Nat.min_le_right n maxSafeInteger
  have hsize : jsonSize N (.num (JsNumber.ofNat n)) = (decimal (min n maxSafeInteger)).length := by
    rw [hclamp]
    show textSize (N.text _) = _
    rw [hN _ hle]
    refine textSize_ascii fun u hu => ?_
    have hdigit := isDigit_of_mem_decimal hu
    unfold isDigit at hdigit
    rw [decide_eq_true_iff] at hdigit
    omega
  rw [hsize]
  constructor
  · obtain ⟨u, us, hdecimal⟩ := decimal_cons (min n maxSafeInteger)
    rw [hdecimal, List.length_cons]
    omega
  · rw [decimal, List.length_map, Nat.length_toDigits_le_iff (by decide) (by decide)]
    unfold maxSafeInteger at *
    omega

/-- Two headers of a collection differ by the digits of `max_seq` at most. -/
theorem headerBytes_le (hN : ∀ n, n ≤ maxSafeInteger → N.text (JsNumber.ofNat n) = decimal n)
    {s s' : SnapshotBody} (hmin : s.minSeq = 0) (hcollection : s.collection = s'.collection) :
    headerBytes N s ≤ headerBytes N s' + 15 := by
  have hzero : jsonSize N (.num (JsNumber.ofNat 0)) = 1 := by
    show textSize (N.text _) = 1
    rw [hN 0 (Nat.zero_le _)]
    rfl
  obtain ⟨-, hmax⟩ := seqSize hN s.maxSeq
  obtain ⟨hmax', -⟩ := seqSize hN s'.maxSeq
  obtain ⟨hmin', -⟩ := seqSize hN s'.minSeq
  show jsonSize N (SnapshotBody.toJson { s with docs := [] }) ≤
    jsonSize N (SnapshotBody.toJson { s' with docs := [] }) + 15
  simp only [SnapshotBody.toJson, jsonSize_obj, memberSize, List.map_cons, List.map_nil,
    List.sum_cons, List.sum_nil, hmin, hzero, hcollection, List.length_cons, List.length_nil]
  omega

end Bytes

/-! ## The fold, write by write -/

/-- What an entry of this collection does to the rows. -/
def rowsAfter (rows : Rows) (op : LogOp) (docId : JsString) (after : Option Doc) : Rows :=
  match op, after with
  | .D, _ => rows.erase docId
  | _, none => rows
  | _, some after => rows.set docId after

theorem foldEntry_eq (collection : JsString) (rows : Rows) (e : LogEntry) :
    foldEntry collection none rows e =
      if e.collection ≠ collection then rows else rowsAfter rows e.op e.docId e.after := by
  unfold foldEntry
  dsimp only [Option.any_none]
  split
  · rfl
  · cases e.op <;> cases e.after <;> rfl

/-- The rows after the planned writes. -/
def foldWrites (rows : Rows) (writes : List PlannedWrite) : Rows :=
  writes.foldl (fun rows write => rowsAfter rows write.op write.docId write.after) rows

/-- The log entry a planned write commits. -/
def Records (collection : JsString) (e : LogEntry) (write : PlannedWrite) : Prop :=
  e.collection = collection ∧ e.op = write.op ∧ e.docId = write.docId ∧ e.after = write.after

theorem fold_records {collection : JsString} {entries : List LogEntry} {writes : List PlannedWrite}
    (h : List.Forall₂ (Records collection) entries writes) (rows : Rows) (k : Nat) :
    foldLogEntriesOnto collection none rows (entries.take k) =
      foldWrites rows (writes.take k) := by
  induction h generalizing rows k with
  | nil => simp [foldLogEntriesOnto, foldWrites]
  | @cons e write entries writes hhead _ ih =>
    cases k with
    | zero => rfl
    | succ k =>
      obtain ⟨hcollection, hop, hid, hafter⟩ := hhead
      rw [List.take_succ_cons, List.take_succ_cons]
      show foldLogEntriesOnto collection none (foldEntry collection none rows e) _ =
        foldWrites (rowsAfter rows write.op write.docId write.after) _
      rw [foldEntry_eq, if_neg (not_not_intro hcollection), hop, hid, hafter]
      exact ih _ k

/-- The promise of the verbs: the `before` of an update is the row's current body. -/
def BeforeCurrent : Rows → List PlannedWrite → Prop
  | _, [] => True
  | rows, write :: writes =>
    (write.op = .U → ∀ before, write.before = some before → rows.get write.docId = some before) ∧
      BeforeCurrent (rowsAfter rows write.op write.docId write.after) writes

theorem get_rowsAfter_ne {rows : Rows} {op : LogOp} {docId id : JsString} {after : Option Doc}
    (h : id ≠ docId) : (rowsAfter rows op docId after).get id = rows.get id := by
  cases op <;> cases after <;> simp [rowsAfter, h]

/-- A batch over distinct rows, each `before` as the read returned it: what `update`, `replace`,
    `insert` and `delete` plan. -/
theorem BeforeCurrent.of_distinct {rows : Rows} {writes : List PlannedWrite}
    (hdistinct : (writes.map PlannedWrite.docId).Nodup)
    (hread : ∀ write ∈ writes, ∀ before, write.before = some before →
      rows.get write.docId = some before) : BeforeCurrent rows writes := by
  induction writes generalizing rows with
  | nil => trivial
  | cons write writes ih =>
    rw [List.map_cons, List.nodup_cons] at hdistinct
    refine ⟨fun _ => hread write List.mem_cons_self, ih hdistinct.2 fun other hother before hb => ?_⟩
    have hne : other.docId ≠ write.docId := by
      intro heq
      rw [← heq] at hdistinct
      exact hdistinct.1 (List.mem_map_of_mem hother)
    rw [get_rowsAfter_ne hne]
    exact hread other (List.mem_cons_of_mem write hother) before hb

/-! ## The projection tracks the fold -/

section Tracking

variable {N : NumberText} {offset : Int} {p : SnapshotProjection} {rows : Rows}

/-- **The invariant of the projection**: it knows the size of every row, their number, and their
    bytes up to the offset it started with; its peaks are not below its figures. -/
structure Tracks (N : NumberText) (offset : Int) (p : SnapshotProjection) (rows : Rows) : Prop where
  sizes : ∀ id, p.sizeOf N id = (rows.get id).map (rowBytes N id)
  rows_eq : p.rows = rows.size
  bytes_eq : p.bytes = offset + rows.total (rowBytes N)
  rows_le : p.rows ≤ p.peakRows
  bytes_le : p.bytes ≤ p.peakBytes

theorem size_set (rows : Rows) (id : JsString) (body : Doc) :
    (rows.set id body).size + (if (rows.get id).isSome then 1 else 0) = rows.size + 1 := by
  have htotal := InsMap.total_set (fun _ _ => 1) rows id body
  rw [InsMap.total_one, InsMap.total_one] at htotal
  cases hget : rows.get id with
  | none => rwa [hget] at htotal
  | some _ => rwa [hget] at htotal

theorem size_erase (rows : Rows) (id : JsString) :
    (rows.erase id).size + (if (rows.get id).isSome then 1 else 0) = rows.size := by
  have htotal := InsMap.total_erase (fun _ _ => 1) rows id
  rw [InsMap.total_one, InsMap.total_one] at htotal
  cases hget : rows.get id with
  | none => rwa [hget] at htotal
  | some _ => rwa [hget] at htotal

theorem Tracks.drop (h : Tracks N offset p rows) (id : JsString) :
    Tracks N offset (p.drop N id) (rows.erase id) := by
  have hsize := size_erase rows id
  have htotal := InsMap.total_erase (rowBytes N) rows id
  have hrows := h.rows_eq
  have hbytes := h.bytes_eq
  have hle := h.rows_le
  have hle' := h.bytes_le
  have hknown := h.sizes id
  refine ⟨fun id' => ?_, ?_, ?_, ?_, ?_⟩
  · by_cases heq : id' = id
    · simp [SnapshotProjection.sizeOf, SnapshotProjection.drop, heq]
    · have hother := h.sizes id'
      unfold SnapshotProjection.sizeOf at hother
      simpa [SnapshotProjection.sizeOf, SnapshotProjection.drop, heq] using hother
  all_goals
    simp only [SnapshotProjection.drop, hknown]
    cases hget : rows.get id with
    | none => simp only [hget, Option.map_none, Option.isSome_none, Option.getD_none,
        Bool.false_eq_true, if_false] at hsize htotal ⊢; omega
    | some body => simp only [hget, Option.map_some, Option.isSome_some, Option.getD_some,
        if_true] at hsize htotal ⊢; omega

theorem Tracks.put (h : Tracks N offset p rows) (id : JsString) (after : Doc) :
    Tracks N offset (p.put N id after) (rows.set id after) := by
  have hsize := size_set rows id after
  have htotal := InsMap.total_set (rowBytes N) rows id after
  have hrows := h.rows_eq
  have hbytes := h.bytes_eq
  have hknown := h.sizes id
  refine ⟨fun id' => ?_, ?_, ?_, ?_, ?_⟩
  · by_cases heq : id' = id
    · simp [SnapshotProjection.sizeOf, SnapshotProjection.put, heq]
    · have hother := h.sizes id'
      unfold SnapshotProjection.sizeOf at hother
      simpa [SnapshotProjection.sizeOf, SnapshotProjection.put, heq] using hother
  all_goals
    simp only [SnapshotProjection.put, hknown]
    cases hget : rows.get id with
    | none => simp only [hget, Option.map_none, Option.isSome_none, Option.isNone_none,
        Option.getD_none, Bool.false_eq_true, if_false, if_true] at hsize htotal ⊢; omega
    | some body => simp only [hget, Option.map_some, Option.isSome_some, Option.isNone_some,
        Option.getD_some, Bool.false_eq_true, if_false, if_true] at hsize htotal ⊢; omega

/-- **One entry.** -/
theorem Tracks.apply (h : Tracks N offset p rows) (op : LogOp) (id : JsString) (after : Option Doc) :
    Tracks N offset (p.apply N op id after) (rowsAfter rows op id after) := by
  cases op with
  | D => exact h.drop id
  | I =>
    cases after with
    | none => exact h
    | some body => exact h.put id body
  | U =>
    cases after with
    | none => exact h
    | some body => exact h.put id body

/-- The peaks only grow. -/
theorem peaks_apply (N : NumberText) (p : SnapshotProjection) (op : LogOp) (id : JsString)
    (after : Option Doc) : p.peakRows ≤ (p.apply N op id after).peakRows ∧
      p.peakBytes ≤ (p.apply N op id after).peakBytes := by
  have hput : ∀ body, p.peakRows ≤ (p.put N id body).peakRows ∧
      p.peakBytes ≤ (p.put N id body).peakBytes :=
    fun body => ⟨Int.le_max_left _ _, Int.le_max_left _ _⟩
  have hsame : p.peakRows ≤ p.peakRows ∧ p.peakBytes ≤ p.peakBytes := ⟨Int.le_refl _, Int.le_refl _⟩
  cases op with
  | D => exact hsame
  | I =>
    cases after with
    | none => exact hsame
    | some body => exact hput body
  | U =>
    cases after with
    | none => exact hsame
    | some body => exact hput body

end Tracking

/-! ## The decision -/

section Decision

variable {N : NumberText} {offset : Int} {collection : JsString} {ceilings : FoldCeilings}
variable {p p' : SnapshotProjection} {rows : Rows}

/-- Rows that the peaks account for. -/
def Seen (N : NumberText) (offset : Int) (p : SnapshotProjection) (rows : Rows) : Prop :=
  (rows.size : Int) ≤ p.peakRows ∧ offset + rows.total (rowBytes N) ≤ p.peakBytes

/-- Rows with room for one more, and the margin. -/
def Below (N : NumberText) (offset : Int) (ceilings : FoldCeilings) (rows : Rows) : Prop :=
  (rows.size : Int) < ceilings.maxFoldRows ∧
    offset + rows.total (rowBytes N) ≤ (ceilings.maxFoldBytes : Int) - capacityBytesMargin

theorem Tracks.seen (h : Tracks N offset p rows) : Seen N offset p rows := by
  have hrows := h.rows_eq
  have hbytes := h.bytes_eq
  have hle := h.rows_le
  have hle' := h.bytes_le
  exact ⟨by omega, by omega⟩

theorem Seen.mono (h : Seen N offset p rows)
    (hpeaks : p.peakRows ≤ p'.peakRows ∧ p.peakBytes ≤ p'.peakBytes) : Seen N offset p' rows :=
  ⟨Int.le_trans h.1 hpeaks.1, Int.le_trans h.2 hpeaks.2⟩

theorem Seen.below (h : Seen N offset p rows) (hfits : overCeiling ceilings p = false) :
    Below N offset ceilings rows := by
  simp only [overCeiling, Bool.or_eq_false_iff, Bool.not_eq_false', decide_eq_true_iff] at hfits
  exact ⟨Int.lt_of_le_of_lt h.1 hfits.1, Int.le_trans h.2 hfits.2⟩

/-- A growth write that passes at later peaks would pass at earlier ones. -/
theorem overCeiling_mono (hpeaks : p.peakRows ≤ p'.peakRows ∧ p.peakBytes ≤ p'.peakBytes)
    (h : overCeiling ceilings p' = false) : overCeiling ceilings p = false := by
  simp only [overCeiling, Bool.or_eq_false_iff, Bool.not_eq_false', decide_eq_true_iff] at h ⊢
  exact ⟨Int.lt_of_le_of_lt hpeaks.1 h.1, Int.le_trans hpeaks.2 h.2⟩

/-- **The tail**: the projection at its end tracks the whole fold, and its peaks account for every
    prefix. -/
theorem projectTail_tracks {tail : List LogEntry} (h : Tracks N offset p rows)
    (hok : projectTail N collection ceilings p tail = .ok p') :
    Tracks N offset p' (foldLogEntriesOnto collection none rows tail) ∧
      (p.peakRows ≤ p'.peakRows ∧ p.peakBytes ≤ p'.peakBytes) ∧
      ∀ k, Seen N offset p' (foldLogEntriesOnto collection none rows (tail.take k)) := by
  induction tail generalizing p rows with
  | nil =>
    cases hok
    refine ⟨h, ⟨Int.le_refl _, Int.le_refl _⟩, fun k => ?_⟩
    rw [List.take_nil]
    exact h.seen
  | cons e tail ih =>
    -- whatever the entry does, the projection follows it
    have hstep : ∀ q, Tracks N offset q (foldEntry collection none rows e) →
        (p.peakRows ≤ q.peakRows ∧ p.peakBytes ≤ q.peakBytes) →
        projectTail N collection ceilings q tail = .ok p' →
        Tracks N offset p' (foldLogEntriesOnto collection none rows (e :: tail)) ∧
          (p.peakRows ≤ p'.peakRows ∧ p.peakBytes ≤ p'.peakBytes) ∧
          ∀ k, Seen N offset p' (foldLogEntriesOnto collection none rows ((e :: tail).take k)) := by
      intro q hq hpeaks hrest
      obtain ⟨hend, hgrow, hseen⟩ := ih hq hrest
      have hpeaks' : p.peakRows ≤ p'.peakRows ∧ p.peakBytes ≤ p'.peakBytes :=
        ⟨Int.le_trans hpeaks.1 hgrow.1, Int.le_trans hpeaks.2 hgrow.2⟩
      refine ⟨hend, hpeaks', fun k => ?_⟩
      cases k with
      | zero => exact h.seen.mono hpeaks'
      | succ k => exact hseen k
    rw [projectTail] at hok
    rw [foldEntry_eq] at hstep
    split at hok
    next hother =>
      rw [if_pos hother] at hstep
      exact hstep p h ⟨Int.le_refl _, Int.le_refl _⟩ hok
    next hmine =>
      rw [if_neg hmine] at hstep
      split at hok
      next => cases hok
      next => exact hstep _ (h.apply _ _ _) (peaks_apply N p _ _ _) hok

/-- An admitted growth write bounds the peaks it was decided at, so all the earlier ones. -/
theorem peaks_of_growth {writes : List PlannedWrite}
    (hnone : projectWrites N collection ceilings p writes = none)
    (hgrowth : ∃ write ∈ writes, isGrowth N write = true) : overCeiling ceilings p = false := by
  induction writes generalizing p with
  | nil =>
    obtain ⟨write, hmem, -⟩ := hgrowth
    cases hmem
  | cons write writes ih =>
    unfold projectWrites at hnone
    dsimp only at hnone
    split at hnone
    next => cases hnone
    next hadmitted =>
      apply overCeiling_mono (peaks_apply N p write.op write.docId write.after)
      by_cases hgrow : isGrowth N write = true
      · rwa [hgrow, Bool.true_and, Bool.not_eq_true] at hadmitted
      · apply ih hnone
        obtain ⟨grown, hmem, hgrown⟩ := hgrowth
        rcases List.mem_cons.mp hmem with rfl | hmem
        · exact absurd hgrown hgrow
        · exact ⟨grown, hmem, hgrown⟩

/-- **A write that is no growth** adds neither rows nor bytes. -/
theorem shrinks {write : PlannedWrite} (hshrink : isGrowth N write = false)
    (hbefore : write.op = .U → ∀ before, write.before = some before →
      rows.get write.docId = some before) :
    (rowsAfter rows write.op write.docId write.after).size ≤ rows.size ∧
      (rowsAfter rows write.op write.docId write.after).total (rowBytes N) ≤
        rows.total (rowBytes N) := by
  obtain ⟨op, docId, after, before⟩ := write
  cases op with
  | I => cases hshrink
  | D =>
    have hsize := size_erase rows docId
    have htotal := InsMap.total_erase (rowBytes N) rows docId
    exact ⟨by rw [← hsize]; exact Nat.le_add_right _ _, by rw [← htotal]; exact Nat.le_add_right _ _⟩
  | U =>
    cases after with
    | none => exact ⟨Nat.le_refl _, Nat.le_refl _⟩
    | some after =>
      cases before with
      | none => cases hshrink
      | some before =>
        have hcurrent : rows.get docId = some before := hbefore rfl before rfl
        have hsmall : ¬ rowBytes N docId before < rowBytes N docId after :=
          of_decide_eq_false hshrink
        have hsize := size_set rows docId after
        have htotal := InsMap.total_set (rowBytes N) rows docId after
        simp only [hcurrent, Option.isSome_some, if_true, Option.map_some,
          Option.getD_some] at hsize htotal
        show (rows.set docId after).size ≤ rows.size ∧
          (rows.set docId after).total (rowBytes N) ≤ rows.total (rowBytes N)
        omega

/-- **The batch**: every state of it stays below the ceilings. -/
theorem projectWrites_below {writes : List PlannedWrite} (h : Tracks N offset p rows)
    (hbefore : BeforeCurrent rows writes)
    (hnone : projectWrites N collection ceilings p writes = none)
    (hstart : (∃ write ∈ writes, isGrowth N write = true) ∨ Below N offset ceilings rows) (k : Nat) :
    Below N offset ceilings (foldWrites rows (writes.take k)) := by
  induction writes generalizing p rows k with
  | nil =>
    rcases hstart with ⟨write, hmem, -⟩ | hbelow
    · cases hmem
    · rw [List.take_nil]
      exact hbelow
  | cons write writes ih =>
    -- where growth is still to come, its peaks account for this state too
    have hhere : Below N offset ceilings rows := by
      rcases hstart with hgrowth | hbelow
      · exact h.seen.below (peaks_of_growth hnone hgrowth)
      · exact hbelow
    cases k with
    | zero => exact hhere
    | succ k =>
      have htracks := h.apply write.op write.docId write.after
      unfold projectWrites at hnone
      dsimp only at hnone
      split at hnone
      next => cases hnone
      next hadmitted =>
        refine ih htracks hbefore.2 hnone (Or.inr ?_) k
        by_cases hgrow : isGrowth N write = true
        · rw [hgrow, Bool.true_and, Bool.not_eq_true] at hadmitted
          exact htracks.seen.below hadmitted
        · obtain ⟨hsize, htotal⟩ := shrinks (Bool.eq_false_of_not_eq_true hgrow) hbefore.1
          obtain ⟨hrows, hbytes⟩ := hhere
          exact ⟨by omega, by omega⟩

end Decision

/-! ## The stored figures -/

/-- The figures of the head are those of the stored snapshot: none was ever folded, or they are the
    row count and the encoded length of the body `base` was loaded from. -/
def StoredFigures (N : NumberText) (collection : JsString) (base : Rows)
    (snapshotRows snapshotBytes : Nat) : Prop :=
  (base = InsMap.empty ∧ snapshotRows = 0 ∧ snapshotBytes = 0) ∨
    ∃ body : SnapshotBody, (body.docs.map Prod.fst).Nodup ∧ body.collection = collection ∧
      base = loadDocs body.docs ∧ snapshotRows = body.docs.length ∧
      snapshotBytes = (encodeSnapshotBody N body).length

section Stored

variable {N : NumberText} {collection : JsString} {base : Rows} {snapshotRows snapshotBytes : Nat}

theorem perm_loadDocs {docs : List (JsString × Doc)} (h : (docs.map Prod.fst).Nodup) :
    docs.Perm (loadDocs docs).entries :=
  InsMap.perm_of_get_eq (m := ⟨docs, h⟩) fun k => (InsMap.get_ofList h k).symm

theorem perm_sortedDocs (rows : Rows) : (sortedDocs rows).Perm rows.entries :=
  List.perm_insertionSort _ _

theorem length_encode_pos (body : SnapshotBody) : (encodeSnapshotBody N body).length ≠ 0 := by
  show jsonSize N body.toJson ≠ 0
  rw [SnapshotBody.toJson, jsonSize_obj]
  omega

/-- **The projection starts out tracking the snapshot**, at an offset that no header is more than
    sixteen bytes above. -/
theorem projectSnapshot_tracks
    (hN : ∀ n, n ≤ maxSafeInteger → N.text (JsNumber.ofNat n) = decimal n)
    (h : StoredFigures N collection base snapshotRows snapshotBytes) :
    ∃ offset : Int,
      Tracks N offset (projectSnapshot N snapshotRows snapshotBytes base collection) base ∧
      ∀ s : SnapshotBody, s.minSeq = 0 → s.collection = collection →
        (headerBytes N s : Int) ≤ offset + 16 := by
  have hsizes : ∀ id, (projectSnapshot N snapshotRows snapshotBytes base collection).sizeOf N id =
      (base.get id).map (rowBytes N id) := fun id => rfl
  rcases h with ⟨rfl, rfl, rfl⟩ | ⟨body, hdistinct, hcollection, rfl, rfl, rfl⟩
  · refine ⟨emptySnapshotBytes N collection,
      ⟨hsizes, rfl, ?_, Int.le_refl _, Int.le_refl _⟩, fun s hmin hs => ?_⟩
    · rw [InsMap.total_empty]
      exact (Int.add_zero _).symm
    · have hheader := @headerBytes_le N hN s ⟨0, 0, collection, []⟩ hmin hs
      have hempty : headerBytes N ⟨0, 0, collection, []⟩ = emptySnapshotBytes N collection := rfl
      omega
  · have hperm := perm_loadDocs hdistinct
    have hencoded := @length_encodeSnapshotBody N body
    rw [InsMap.sum_of_perm (rowBytes N) hperm] at hencoded
    have hstart : (projectSnapshot N body.docs.length (encodeSnapshotBody N body).length
        (loadDocs body.docs) collection).bytes = ((encodeSnapshotBody N body).length : Int) :=
      congrArg Int.ofNat (if_neg (length_encode_pos body))
    refine ⟨(encodeSnapshotBody N body).length - ((loadDocs body.docs).total (rowBytes N) : Int),
      ⟨hsizes, congrArg Int.ofNat hperm.length_eq, ?_, Int.le_refl _, Int.le_refl _⟩,
      fun s hmin hs => ?_⟩
    · rw [hstart]
      omega
    · have hheader := @headerBytes_le N hN s body hmin (hs.trans hcollection.symm)
      omega

/-- What the ceilings say of a prefix: its rows and its encoded body fit. -/
theorem Below.fits {offset : Int} {ceilings : FoldCeilings} {rows : Rows}
    (h : Below N offset ceilings rows)
    (hoffset : ∀ s : SnapshotBody, s.minSeq = 0 → s.collection = collection →
      (headerBytes N s : Int) ≤ offset + 16) (maxSeq : Nat) :
    rows.size < ceilings.maxFoldRows ∧
      (encodeSnapshotBody N ⟨0, maxSeq, collection, sortedDocs rows⟩).length ≤
        ceilings.maxFoldBytes := by
  have hencoded := @length_encodeSnapshotBody N ⟨0, maxSeq, collection, sortedDocs rows⟩
  rw [InsMap.sum_of_perm (rowBytes N) (perm_sortedDocs rows)] at hencoded
  have hheader := hoffset ⟨0, maxSeq, collection, sortedDocs rows⟩ rfl rfl
  obtain ⟨hrows, hbytes⟩ := h
  unfold capacityBytesMargin at hbytes
  exact ⟨by omega, by omega⟩

/-- The projection of a stretch of log. -/
def projectEntries (N : NumberText) (collection : JsString) (p : SnapshotProjection)
    (entries : List LogEntry) : SnapshotProjection :=
  entries.foldl (fun p e => if e.collection ≠ collection then p
    else p.apply N e.op e.docId e.after) p

theorem Tracks.entries {offset : Int} {p : SnapshotProjection} {rows : Rows}
    (h : Tracks N offset p rows) (entries : List LogEntry) :
    Tracks N offset (projectEntries N collection p entries)
      (foldLogEntriesOnto collection none rows entries) := by
  induction entries generalizing p rows with
  | nil => exact h
  | cons e entries ih =>
    apply ih
    rw [foldEntry_eq]
    dsimp only
    by_cases hother : e.collection ≠ collection
    · rw [if_pos hother, if_pos hother]
      exact h
    · rw [if_neg hother, if_neg hother]
      exact h.apply _ _ _

/-- **Every prefix of the tail and an admitted batch stays below the ceilings.** -/
theorem below_of_admitted {offset : Int} {tail committed : List LogEntry}
    {writes : List PlannedWrite} {ceilings : FoldCeilings}
    (htracks : Tracks N offset (projectSnapshot N snapshotRows snapshotBytes base collection) base)
    (hcommitted : List.Forall₂ (Records collection) committed writes)
    (hbefore : BeforeCurrent (foldLogEntriesOnto collection none base tail) writes)
    (hgrowth : ∃ write ∈ writes, isGrowth N write = true)
    (hadmitted : capacityRefusal N collection snapshotRows snapshotBytes base tail writes ceilings =
      none) (k : Nat) :
    Below N offset ceilings
      (foldLogEntriesOnto collection none base ((tail ++ committed).take k)) := by
  have hwrites : writes ≠ [] := by
    rintro rfl
    obtain ⟨write, hmem, -⟩ := hgrowth
    cases hmem
  unfold capacityRefusal at hadmitted
  rw [if_neg hwrites] at hadmitted
  split at hadmitted
  next => cases hadmitted
  next =>
    split at hadmitted
    next => cases hadmitted
    next p htail =>
      obtain ⟨hend, -, hseen⟩ := projectTail_tracks htracks htail
      rw [List.take_append]
      by_cases hk : k ≤ tail.length
      · -- still in the tail: the peaks at its end account for it
        rw [show k - tail.length = 0 by omega, List.take_zero, List.append_nil]
        exact (hseen k).below (peaks_of_growth hadmitted hgrowth)
      · rw [List.take_of_length_le (by omega), foldLogEntriesOnto_append, fold_records hcommitted]
        exact projectWrites_below hend hbefore hadmitted (Or.inl hgrowth) _

end Stored

/-! ## Foldability -/

/-- **An admitted batch can be folded.** -/
theorem admitted_batch_folds (N : NumberText)
    (hN : ∀ n, n ≤ maxSafeInteger → N.text (JsNumber.ofNat n) = decimal n) (codec : Codec)
    (hcodec : ∀ body, codec.snapshotBytes body = (encodeSnapshotBody N body).length)
    (c : Collection) (m : CurrentJson) (base : Rows) (tail committed : List LogEntry)
    (writes : List PlannedWrite) (ceilings : FoldCeilings)
    (hstored : StoredFigures N c.collectionName base m.snapshotRows m.snapshotBytes)
    (hcommitted : List.Forall₂ (Records c.collectionName) committed writes)
    (hbefore : BeforeCurrent (foldLogEntriesOnto c.collectionName none base tail) writes)
    (hgrowth : ∃ write ∈ writes, isGrowth N write = true)
    (hadmitted : capacityRefusal N c.collectionName m.snapshotRows m.snapshotBytes base tail writes
      ceilings = none) :
    (∀ k, (foldLogEntriesOnto c.collectionName none base ((tail ++ committed).take k)).size ≤
        ceilings.maxFoldRows ∧
      (encodeSnapshotBody N ⟨0, m.logSeqStart + k, c.collectionName, sortedDocs
        (foldLogEntriesOnto c.collectionName none base ((tail ++ committed).take k))⟩).length ≤
        ceilings.maxFoldBytes) ∧
    (∀ (w w' : World) (opts : CompactOptions) (r : Except Err CompactResult) (stop j : Nat),
      DenseLog w m stop → snapshotRows codec c w m = some base →
      slots w m.logSeqStart stop = (tail ++ committed).take j →
      opts.ceilingBytes = some ceilings.maxFoldBytes →
      opts.ceilingEntries = some ceilings.maxFoldRows → Ends (compact codec c opts) w r w' →
      ∀ result, r = .ok result → result.skippedReason ≠ some .deferred) ∧
    ∀ entries, (projectEntries N c.collectionName
        (projectSnapshot N m.snapshotRows m.snapshotBytes base c.collectionName) entries).rows =
      (foldLogEntriesOnto c.collectionName none base entries).size := by
  obtain ⟨offset, htracks, hoffset⟩ := projectSnapshot_tracks hN hstored
  -- every stretch of the log stays below the ceilings, not only the whole
  have hbelow := below_of_admitted htracks hcommitted hbefore hgrowth hadmitted
  refine ⟨fun k => ?_, ?_, fun entries => (htracks.entries entries).rows_eq⟩
  · obtain ⟨hrows, hbytes⟩ := (hbelow k).fits hoffset (m.logSeqStart + k)
    exact ⟨Nat.le_of_lt hrows, hbytes⟩
  · rintro w w' opts r stop j hdense hload hslots hbytes hentries hrun result rfl hdeferred
    rcases hrun.of_wp (wp_compact_alone hdense) with
      ⟨result', -, -, -, -, -, hr, -, hreason, -⟩ | ⟨hnot, -⟩
    · cases hr
      rw [hreason] at hdeferred
      cases hdeferred
    · -- a deferral names a prefix that does not fit
      obtain ⟨base', k, rows, hbase, hk, hrows, hunfit⟩ := (hnot result rfl).2 hdeferred
      rw [hload] at hbase
      cases hbase
      have hstretch : slots w m.logSeqStart (m.logSeqStart + k) =
          (tail ++ committed).take (min k j) := by
        rw [← List.take_take, ← hslots, ← slots_append (Nat.le_add_right _ k) hk, List.take_left']
        rw [length_slots fun n hlow hhigh => hdense.occupied n hlow (by omega)]
        omega
      rw [hstretch] at hrows
      obtain ⟨hsize, hlength⟩ := (hbelow (min k j)).fits hoffset (m.logSeqStart + k)
      rw [← hrows] at hsize hlength
      rcases hunfit with hover | hover | ⟨e, -, hover⟩
      · rw [hbytes, hcodec] at hover
        exact of_decide_eq_false hover hlength
      · rw [hentries] at hover
        exact of_decide_eq_false hover (Nat.le_of_lt hsize)
      · rw [hentries, addsRowPast, decide_eq_true_iff] at hover
        obtain ⟨-, -, -, -, hfull⟩ := hover
        exact of_decide_eq_true hfull hsize

theorem integerText_decimal (n : Nat) (h : n ≤ maxSafeInteger) :
    integerText.text (JsNumber.ofNat n) = decimal n := by
  have hsafe : (JsNumber.ofNat n).safeNat? = some n := JsNumber.safeNat?_iff.mpr ⟨rfl, h⟩
  show integerNumberText (JsNumber.ofNat n) = decimal n
  rw [integerNumberText, hsafe]

/-- Ceilings of three rows and 300 bytes. -/
def smallHost : FoldCeilings := ⟨300, 3⟩

/-- An insert of `{ _id: "y" }`. -/
def plannedInsert : PlannedWrite where
  op := .I
  docId := js "y"
  after := some (.obj [(js "_id", .str (js "y"))])
  before := none

def plannedEntry : LogEntry :=
  { soloEntry with
    lsn := ⟨8, 1, 1⟩
    commitTs := 8
    docId := plannedInsert.docId
    after := plannedInsert.after
    session := 1
    seq := 1 }

def measuredCodec : Codec :=
  { soloCodec with snapshotBytes := fun body => (encodeSnapshotBody integerText body).length }

/-- A second insert behind a pending one. -/
theorem admitted_batch_folds_second :
    capacityRefusal integerText soloCollection.collectionName 0 0 InsMap.empty [soloEntry]
      [plannedInsert] smallHost = none ∧
    ∀ k, (foldLogEntriesOnto soloCollection.collectionName none InsMap.empty
        ([soloEntry, plannedEntry].take k)).size ≤ 3 ∧
      (encodeSnapshotBody integerText ⟨0, 0 + k, soloCollection.collectionName, sortedDocs
        (foldLogEntriesOnto soloCollection.collectionName none InsMap.empty
          ([soloEntry, plannedEntry].take k))⟩).length ≤ 300 := by
  have hadmitted : capacityRefusal integerText soloCollection.collectionName 0 0 InsMap.empty
      [soloEntry] [plannedInsert] smallHost = none := by
    decide +kernel
  refine ⟨hadmitted, (admitted_batch_folds integerText integerText_decimal measuredCodec (fun _ => rfl)
    soloCollection soloManifest InsMap.empty [soloEntry] [plannedEntry] [plannedInsert] smallHost
    (Or.inl ⟨rfl, rfl, rfl⟩) (.cons ⟨by decide +kernel, rfl, rfl, rfl⟩ .nil) ?_
    ⟨plannedInsert, List.mem_singleton_self _, rfl⟩ hadmitted).1⟩
  exact BeforeCurrent.of_distinct (List.nodup_singleton _) fun write hmem before hb => by
    cases List.mem_singleton.mp hmem
    cases hb

end Baerly
