import Baerly.Verify.ChunkPlan
import Baerly.Verify.SnapshotView

/-
  The chunked fold refines the reference fold.

  PROGRAM: `planChunkedFold` admits a beginning of the entries, collapses it to one mutation per id and
  builds the chunks.  `foldChunkedSnapshotReference` plays every mutation onto one map and sorts it.

  SPEC (`plan_refines_reference`): the documents of the planned chunks, kept ones and new ones in the
  order of the descriptors, are the rows of the reference; a chunk that no mutation and no merge
  touches keeps its descriptor.

  CRUX: the reference checks every post-image, the builder encodes only the last of each id.  Every
  admitted beginning was built once, and there its last entry was the last of its id
  (`Admitted.isDocument`), so the reference does not refuse what was planned.
-/

namespace Baerly

open Json
open Utf8 (Byte)

/-! ## The checks of the reference -/

theorem assertDocumentItems_ok {place : String} {xs : List Doc}
    (h : ∀ x ∈ xs, ∀ place, assertDocumentValue place x = .ok ()) (index : Nat) :
    assertDocumentItems place index xs = .ok () := by
  induction xs generalizing index with
  | nil => rfl
  | cons x xs ih =>
    rw [List.forall_mem_cons] at h
    rw [assertDocumentItems, bind_of_ok (h.1 _)]
    exact ih h.2 (index + 1)

theorem assertDocumentMembers_ok {place : String} {ms : List (JsString × Doc)}
    (h : ∀ m ∈ ms, ∀ place, assertDocumentValue place m.2 = .ok ()) :
    assertDocumentMembers place ms = .ok () := by
  induction ms with
  | nil => rfl
  | cons m ms ih =>
    rw [List.forall_mem_cons] at h
    rw [assertDocumentMembers, bind_of_ok (h.1 _)]
    exact ih h.2

theorem assertDocumentValue_ok {v : Doc} (h : v.noNull = true) (place : String) :
    assertDocumentValue place v = .ok () := by
  induction v using Json.ind generalizing place with
  | null => cases h
  | bool b => rfl
  | num n => rfl
  | str s => rfl
  | arr xs ih =>
    rw [noNull_arr] at h
    exact assertDocumentItems_ok (fun x hx place => ih x hx (h x hx) place) 0
  | obj ms ih =>
    rw [noNull_obj] at h
    exact assertDocumentMembers_ok fun m hm place => ih m hm (h m hm) place

theorem idOf_of_isDocument {d : Doc} (h : IsDocument d) :
    d.member (js "_id") = some (.str (idOf d)) ∧ assertSnapshotDocId (idOf d) = .ok () := by
  obtain ⟨-, -, id, hmember, hid⟩ := h
  rw [idOf_of_member hmember]
  exact ⟨hmember, hid⟩

/-- The reference accepts every document. -/
theorem assertDocument_ok {d : Doc} (h : IsDocument d) (place : String) :
    assertDocument d (idOf d) place = .ok () := by
  obtain ⟨hmember, hid⟩ := idOf_of_isDocument h
  obtain ⟨⟨ms, rfl⟩, hnull, -⟩ := h
  unfold assertDocument
  dsimp only
  have hlookup : ms.lookup (js "_id") = some (.str (idOf (.obj ms))) := hmember
  rw [bind_of_ok (assertDocumentValue_ok hnull place),
    bind_of_ok (assertCodecDocId_ok.mpr ⟨hlookup, hid⟩)]
  exact check_ok.mpr rfl

/-- The rows of a snapshot, as the reference takes them. -/
def ChunkedSnapshot.rows (base : ChunkedSnapshot) : List (JsString × Doc) :=
  base.docs.map fun d => (idOf d, d)

/-- **The rows loop** makes the map of the documents. -/
theorem referenceRows_ok {docs : List Doc} (hdocs : ∀ d ∈ docs, IsDocument d)
    (hids : (docs.map idOf).Nodup) {documents : Rows}
    (hfresh : ∀ d ∈ docs, documents.get (idOf d) = none) :
    referenceRows documents (docs.map fun d => (idOf d, d)) =
      .ok (docs.foldl (fun documents d => documents.set (idOf d) d) documents) := by
  induction docs generalizing documents with
  | nil => rfl
  | cons d docs ih =>
    rw [List.forall_mem_cons] at hdocs hfresh
    rw [List.map_cons, List.nodup_cons] at hids
    have hid := (idOf_of_isDocument hdocs.1).2
    have hhas : documents.has (idOf d) = false := by
      rw [InsMap.has, hfresh.1]
      rfl
    rw [List.map_cons, referenceRows, bind_of_ok (assertCodecDocId_ok.mpr ⟨rfl, hid⟩),
      bind_of_ok (assertDocument_ok hdocs.1 _), bind_of_ok (check_ok (u := ()).mpr hhas)]
    apply ih hdocs.2 hids.2
    intro e he
    rw [InsMap.get_set, if_neg, hfresh.2 e he]
    exact fun heq => hids.1 (heq ▸ List.mem_map.mpr ⟨e, he, rfl⟩)

/-- A mutation the reference accepts: a valid id, and a document under it. -/
def ReferenceOk (m : ReferenceMutation) : Prop :=
  assertSnapshotDocId m.docId = .ok () ∧ ∀ d, m.after? = some d → IsDocument d ∧ idOf d = m.docId

/-- **The mutations loop** applies them one after the other. -/
theorem referenceMutations_ok {ms : List ReferenceMutation} (h : ∀ m ∈ ms, ReferenceOk m)
    (documents : Rows) :
    referenceMutations documents ms = .ok (ms.foldl applyMutation documents) := by
  induction ms generalizing documents with
  | nil => rfl
  | cons m ms ih =>
    rw [List.forall_mem_cons] at h
    have hafter : assertAfter m = .ok () := by
      unfold assertAfter
      cases hd : m.after? with
      | none => rfl
      | some d =>
        obtain ⟨hdoc, hid⟩ := h.1.2 d hd
        exact hid ▸ assertDocument_ok hdoc _
    rw [referenceMutations, bind_of_ok (assertCodecDocId_ok.mpr ⟨rfl, h.1.1⟩), bind_of_ok hafter]
    exact ih h.2 _

theorem ReferenceOk.namesItself {m : ReferenceMutation} (h : ReferenceOk m) : NamesItself m :=
  fun d hd => (h.2 d hd).2

/-- **What the reference returns**: the sorted documents of the map. -/
theorem reference_eq {docs final : List Doc} {ms : List ReferenceMutation}
    (hdocs : ∀ d ∈ docs, IsDocument d) (hids : (docs.map idOf).Pairwise idLt)
    (hms : ∀ m ∈ ms, ReferenceOk m) (hfinal : (final.map idOf).Pairwise idLt)
    (hmem : ∀ d, d ∈ final ↔ (ms.foldl applyMutation (docMapOf docs)).get (idOf d) = some d) :
    foldChunkedSnapshotReference (docs.map fun d => (idOf d, d)) ms =
      .ok (final.map fun d => (idOf d, d)) := by
  have hnodup : (docs.map idOf).Nodup := hids.imp fun hlt heq => absurd (heq ▸ hlt) (lt_irrefl _)
  have hkeyed : Keyed (ms.foldl applyMutation (docMapOf docs)) :=
    (keyed_docMapOf hids).foldl fun m hm => (hms m hm).namesItself
  unfold foldChunkedSnapshotReference
  rw [bind_of_ok (referenceRows_ok hdocs hnodup fun d _ => InsMap.get_empty _),
    bind_of_ok (referenceMutations_ok hms _), Except.ok.injEq]
  apply @eq_of_increasing _ Prod.fst
  · exact insertionSort_increasing (InsMap.nodup _)
  · rw [List.map_map]
    exact hfinal
  · rintro ⟨k, d⟩
    rw [List.mem_insertionSort, InsMap.mem_entries, List.mem_map]
    constructor
    · intro hget
      have hk := hkeyed k d hget
      exact ⟨d, (hmem d).mpr (hk ▸ hget), Prod.ext hk rfl⟩
    · rintro ⟨e, he, heq⟩
      cases heq
      exact (hmem d).mp he

/-! ## Collapsing -/

/-- A map of documents under a map of mutations. -/
def overlay (mutations : InsMap JsString ReferenceMutation) (documents : Rows) (k : JsString) :
    Option Doc :=
  match mutations.get k with
  | some m => m.after?
  | none => documents.get k

/-- **Playing the mutations of the entries is overlaying their collapse.** -/
theorem get_foldl_collapse {entries : List LogEntry} {ms : List ReferenceMutation}
    (hms : entries.map entryToMutation = ms.map .ok)
    {start collapsed : InsMap JsString ReferenceMutation}
    (hcollapse : collapseMutations start entries = .ok collapsed) {base documents : Rows}
    (hstart : ∀ k, documents.get k = overlay start base k) (k : JsString) :
    (ms.foldl applyMutation documents).get k = overlay collapsed base k := by
  induction entries generalizing ms start documents with
  | nil =>
    cases ms with
    | nil =>
      cases hcollapse
      exact hstart k
    | cons m ms => cases hms
  | cons entry entries ih =>
    cases ms with
    | nil => cases hms
    | cons m ms =>
      rw [List.map_cons, List.map_cons, List.cons.injEq] at hms
      rw [collapseMutations, bind_of_ok hms.1] at hcollapse
      rw [List.foldl_cons]
      apply ih hms.2 hcollapse
      intro j
      rw [get_applyMutation, entryToMutation_docId hms.1, hstart j, overlay, overlay, InsMap.get_set]
      split
      · rfl
      · rfl

theorem entryToMutation_after {entry : LogEntry} {m : ReferenceMutation}
    (h : entryToMutation entry = .ok m) {d : Doc} (hd : m.after? = some d) :
    entry.after = some d ∧ idOf d = m.docId := by
  unfold entryToMutation at h
  obtain ⟨_, _, h⟩ := except_bind_ok h
  split at h
  · cases h
    cases hd
  · cases h
  next after _ hafter =>
    obtain ⟨_, himage, h⟩ := except_bind_ok h
    cases h
    cases hd
    exact ⟨hafter, idOf_of_member (assertPostImage_ok.mp himage).2⟩
  next after _ hafter =>
    obtain ⟨_, himage, h⟩ := except_bind_ok h
    cases h
    cases hd
    exact ⟨hafter, idOf_of_member (assertPostImage_ok.mp himage).2⟩

theorem entryToMutation_id {entry : LogEntry} {m : ReferenceMutation}
    (h : entryToMutation entry = .ok m) : assertSnapshotDocId m.docId = .ok () := by
  rw [entryToMutation_docId h]
  unfold entryToMutation at h
  obtain ⟨_, hid, -⟩ := except_bind_ok h
  unfold assertStoredEntryDocId at hid
  split at hid
  next hok => exact hok
  next => cases hid

/-! ## The plan -/

/-- What a plan is made from: the descriptors of a snapshot, of which some chunks are loaded, and
    post-images with distinct keys. -/
structure PlansOn (base : ChunkedSnapshot) (input : PlanChunkedFoldInput) : Prop where
  descriptors : input.descriptors = base.descriptors
  loaded : ∀ c ∈ base.chunks, ∀ docs, input.loadedChunks c.descriptor.key = some docs →
    docs = c.docs
  wf : ∀ entry ∈ input.entries, ∀ d, entry.after = some d → d.wf = true

section Plan

variable {N : NumberText} {snapshotHash : List Byte → JsString} {base : ChunkedSnapshot}
variable {input : PlanChunkedFoldInput} {p : ChunkedFoldPrefetch} {k : Nat} {admitted : AdmittedFold}

theorem PlansOn.buildsOn (h : PlansOn base input) {n : Nat}
    {ms : InsMap JsString ReferenceMutation}
    (hms : collapseMutations InsMap.empty (input.entries.take n) = .ok ms) :
    BuildsOn base (buildInput input p ms) where
  descriptors := h.descriptors
  loaded := h.loaded
  wf id m d hm hd := by
    obtain ⟨front, entry, rest, heq, -, hentry, -⟩ := (collapse_lastWrite hms id m).mp hm
    have hmem : entry ∈ input.entries.take n := by
      rw [heq]
      simp
    exact h.wf entry (List.mem_of_mem_take hmem) d (entryToMutation_after hentry hd).1

/-- **Every admitted post-image is a document**: its endpoint was built. -/
theorem Admitted.isDocument (h : Admitted N input p k admitted) (hp : PlansOn base input)
    {entry : LogEntry} (hentry : entry ∈ input.entries.take (k + 1)) {m : ReferenceMutation}
    (hm : entryToMutation entry = .ok m) {d : Doc} (hd : m.after? = some d) : IsDocument d := by
  obtain ⟨j, hj, rfl⟩ := List.getElem_of_mem hentry
  rw [List.length_take] at hj
  rw [List.getElem_take] at hm
  obtain ⟨ms, evaluation, hms, hev⟩ := h.built j (by omega)
  obtain ⟨M, hM, hbuilt⟩ := evaluate_documents (hp.buildsOn hms) hev
  have hlast : LastWrite (input.entries.take (j + 1)) m.docId m := by
    refine ⟨input.entries.take j, input.entries[j], [], ?_, (entryToMutation_docId hm).symm, hm,
      fun later hlater => absurd hlater List.not_mem_nil⟩
    exact List.take_succ_eq_append_getElem (by omega)
  have hget : M.map.get m.docId = some m := by
    rw [hM]
    exact (collapse_lastWrite hms m.docId m).mpr hlast
  have heffective : Effective base M d := by
    unfold Effective
    rw [(entryToMutation_after hm hd).2, hget]
    exact hd
  have hmem := mem_finalDocs.mpr heffective
  rw [← hbuilt.documents] at hmem
  obtain ⟨o, ho, hdo⟩ := List.mem_flatMap.mp hmem
  exact ((hbuilt.built o ho).documents.1 d hdo).2

/-- The mutations of the admitted entries. -/
theorem collapse_mutations {entries : List LogEntry}
    {start collapsed : InsMap JsString ReferenceMutation}
    (h : collapseMutations start entries = .ok collapsed) :
    ∃ ms, collect (entries.map entryToMutation) = .ok ms := by
  induction entries generalizing start with
  | nil => exact ⟨[], rfl⟩
  | cons entry entries ih =>
    obtain ⟨m, hm, h⟩ := except_bind_ok h
    obtain ⟨ms, hms⟩ := ih h
    refine ⟨m :: ms, ?_⟩
    rw [List.map_cons, collect, bind_of_ok hm, bind_of_ok hms]

/-! ## Reading the plan -/

/-- The documents of a planned chunk: in its new body, or in the snapshot. -/
def documentsOf (N : NumberText) (base : ChunkedSnapshot) (build : SnapshotChunkBuildResult)
    (d : SnapshotChunkDescriptor) : List Doc :=
  match build.changedChunks.find? fun c => c.descriptor = d with
  | some c => bodyDocs N c.bytes
  | none => base.docsOf d

/-- The documents of the planned chunks, in order. -/
def plannedDocs (N : NumberText) (base : ChunkedSnapshot) (build : SnapshotChunkBuildResult) :
    List Doc :=
  build.chunks.flatMap (documentsOf N base build)

/-- A new chunk is found by its descriptor, and no kept one is. -/
theorem find_minted {collectionPrefix incarnation : JsString} {outputs : List ChunkOutput}
    (h : (outputs.map (mintedDescriptor snapshotHash collectionPrefix incarnation)).Nodup)
    {o : ChunkOutput} (ho : o ∈ outputs) :
    (outputs.filterMap (mintedChunk snapshotHash collectionPrefix incarnation)).find?
        (fun c => c.descriptor = mintedDescriptor snapshotHash collectionPrefix incarnation o) =
      mintedChunk snapshotHash collectionPrefix incarnation o := by
  have hdescriptor : ∀ o c, mintedChunk snapshotHash collectionPrefix incarnation o = some c →
      c.descriptor = mintedDescriptor snapshotHash collectionPrefix incarnation o := by
    intro o c hc
    cases o with
    | kept d => cases hc
    | rewritten item =>
      cases hc
      rfl
  induction outputs with
  | nil => cases ho
  | cons first outputs ih =>
    rw [List.map_cons, List.nodup_cons] at h
    rw [List.filterMap_cons]
    rcases List.mem_cons.mp ho with rfl | hrest
    · cases hc : mintedChunk snapshotHash collectionPrefix incarnation o with
      | some c =>
        dsimp only
        rw [List.find?_cons_of_pos]
        exact decide_eq_true (hdescriptor o c hc)
      | none =>
        -- a new chunk with the descriptor of a kept one would be a second output with it
        dsimp only
        rw [List.find?_eq_none]
        intro c hmem heq
        obtain ⟨o', ho', hc'⟩ := List.mem_filterMap.mp hmem
        apply h.1
        rw [← of_decide_eq_true heq, hdescriptor o' c hc']
        exact List.mem_map.mpr ⟨o', ho', rfl⟩
    · have hne : mintedDescriptor snapshotHash collectionPrefix incarnation first ≠
          mintedDescriptor snapshotHash collectionPrefix incarnation o := by
        intro heq
        apply h.1
        rw [heq]
        exact List.mem_map.mpr ⟨o, hrest, rfl⟩
      cases hc : mintedChunk snapshotHash collectionPrefix incarnation first with
      | none => exact ih h.2 hrest
      | some c =>
        dsimp only
        rw [List.find?_cons_of_neg]
        · exact ih h.2 hrest
        · rw [decide_eq_true_eq, hdescriptor first c hc]
          exact hne

/-- **The planned chunks hold the effective documents**, in canonical form. -/
theorem plannedDocs_eq {build : SnapshotChunkBuildResult} {binput : BuildSnapshotChunksInput}
    {M : MutationMap} {evaluation : SnapshotChunkEvaluation}
    (h : Evaluated N base binput M evaluation)
    (hmint : evaluation.mint snapshotHash binput.collectionPrefix binput.incarnation = .ok build) :
    plannedDocs N base build = (finalDocs base M).map canonicalForm := by
  obtain ⟨hchunks, hchanged, -⟩ := mintOutputs_ok (mint_ok hmint).1
  have hnodup := @Evaluated.descriptors_nodup N base binput M evaluation snapshotHash h
  rw [plannedDocs, hchunks, List.flatMap_map, ← h.documents, List.map_flatMap]
  apply List.flatMap_congr
  intro o ho
  have hbuilt := h.built o ho
  unfold documentsOf
  rw [hchanged, find_minted hnodup ho]
  cases o with
  | kept d =>
    obtain ⟨c, hc, rfl⟩ := List.mem_map.mp (show d ∈ base.chunks.map BaseChunk.descriptor from hbuilt)
    show base.docsOf c.descriptor = (base.docsOf c.descriptor).map canonicalForm
    rw [base.docsOf_descriptor hc, List.map_congr_left fun e he => (c.documents e he).2.1]
    exact (List.map_id' _).symm
  | rewritten item => exact IsItem.bodyDocs hbuilt

/-- The descriptors of an admitted plan that nothing touched. -/
theorem plan_keeps {build : SnapshotChunkBuildResult} {binput : BuildSnapshotChunksInput}
    {M : MutationMap} {evaluation : SnapshotChunkEvaluation}
    (h : Evaluated N base binput M evaluation) (hb : BuildsOn base binput)
    (hmint : evaluation.mint snapshotHash binput.collectionPrefix binput.incarnation = .ok build)
    {i : Nat} {d : SnapshotChunkDescriptor} (hd : binput.descriptors[i]? = some d)
    (htouched : i ∉ touchedGroups binput) (hused : build.usedNeighborChunkIndex ≠ some i) :
    d ∈ build.chunks := by
  obtain ⟨hchunks, -, -⟩ := mintOutputs_ok (mint_ok hmint).1
  rw [hb.descriptors, ChunkedSnapshot.descriptors, List.getElem?_map, Option.map_eq_some_iff] at hd
  obtain ⟨c, hc, rfl⟩ := hd
  rw [(mint_ok hmint).2.2] at hused
  rw [hchunks]
  exact List.mem_map.mpr ⟨.kept c.descriptor, h.kept i c hc htouched hused, rfl⟩

/-- The documents of a plan are the rows of a fold: the ids in order, the bodies equal as values. -/
def SameRows (docs : List Doc) (rows : List (JsString × Doc)) : Prop :=
  List.Forall₂ (fun d row => idOf d = row.1 ∧ jsonValueEqual d row.2 = true) docs rows

theorem sameRows_canonical {docs : List Doc} (h : ∀ d ∈ docs, d.wf = true) :
    SameRows (docs.map canonicalForm) (docs.map fun d => (idOf d, d)) := by
  rw [SameRows, List.forall₂_map_left_iff, List.forall₂_map_right_iff, List.forall₂_same]
  exact fun d hd => ⟨idOf_canonicalForm (h d hd), same_canonicalForm (h d hd)⟩

theorem ChunkedSnapshot.documents (base : ChunkedSnapshot) :
    ∀ d ∈ base.docs, d.wf = true ∧ canonicalForm d = d ∧ IsDocument d := by
  intro d hd
  obtain ⟨c, -, hdc⟩ := List.mem_flatMap.mp hd
  exact c.documents d hdc

theorem plannedDocs_empty (hp : PlansOn base input) :
    plannedDocs N base (emptyPlan input p).build = base.docs.map canonicalForm := by
  have hself : base.docs.map canonicalForm = base.docs := by
    rw [List.map_congr_left fun d hd => (base.documents d hd).2.1]
    exact List.map_id' _
  rw [hself, plannedDocs]
  show input.descriptors.flatMap base.docsOf = _
  rw [hp.descriptors, ChunkedSnapshot.descriptors, List.flatMap_map]
  exact List.flatMap_congr fun c hc => base.docsOf_descriptor hc

/-- The last admitted entry. -/
theorem Admitted.last (h : Admitted N input p k admitted)
    (hpre : prefetchChunkedFold N input.entries input.descriptors input.budget = .ok p) :
    k < input.entries.length ∧
      (input.entries.take (k + 1)).getLast?.map LogEntry.seq = some admitted.logSeqEnd := by
  obtain ⟨n, last, st, hw, hstop, rfl⟩ := prefetch_walked hpre
  have hend : st.candidateLogSeqEnds[k]? = some admitted.logSeqEnd := h.endpoint
  rw [hstop.same.1, hw.candidates, List.getElem?_map, Option.map_eq_some_iff] at hend
  obtain ⟨entry, hentry, hseq⟩ := hend
  obtain ⟨hlt, hget⟩ := List.getElem?_eq_some_iff.mp hentry
  rw [List.length_take] at hlt
  rw [List.getElem_take] at hget
  refine ⟨by omega, ?_⟩
  rw [List.take_succ_eq_append_getElem (by omega), List.getLast?_concat, Option.map_some, hget, hseq]

/-- The reference accepts what was admitted. -/
theorem Admitted.referenceOk (h : Admitted N input p k admitted) (hp : PlansOn base input)
    {ms : List ReferenceMutation}
    (hms : (input.entries.take (k + 1)).map entryToMutation = ms.map .ok) :
    ∀ m ∈ ms, ReferenceOk m := by
  intro m hm
  have hok : .ok m ∈ (input.entries.take (k + 1)).map entryToMutation := by
    rw [hms]
    exact List.mem_map.mpr ⟨m, hm, rfl⟩
  obtain ⟨entry, hentry, hmutation⟩ := List.mem_map.mp hok
  exact ⟨entryToMutation_id hmutation, fun d hd =>
    ⟨h.isDocument hp hentry hmutation hd, (entryToMutation_after hmutation hd).2⟩⟩

/-- A document of the reference map is an effective one. -/
theorem effective_iff_overlay {M : MutationMap} {d : Doc} :
    Effective base M d ↔ overlay M.map (docMapOf base.docs) (idOf d) = some d := by
  unfold Effective overlay
  cases M.map.get (idOf d) with
  | some m => exact Iff.rfl
  | none =>
    rw [get_docMapOf base.docs_increasing]
    exact ⟨fun hd => ⟨hd, rfl⟩, fun hd => hd.1⟩

/-- **The chunked fold refines the reference fold.** -/
theorem plan_refines_reference (N : NumberText) (snapshotHash : List Byte → JsString)
    (base : ChunkedSnapshot) (input : PlanChunkedFoldInput) (plan : ChunkedFoldPlan)
    (hp : PlansOn base input) (h : planChunkedFold N snapshotHash input = .ok (some plan)) :
    ∃ n ms rows, n ≤ input.entries.length ∧
      (input.entries = [] ∨
        (input.entries.take n).getLast?.map LogEntry.seq = some plan.logSeqEnd) ∧
      collect ((input.entries.take n).map entryToMutation) = .ok ms ∧
      foldChunkedSnapshotReference base.rows ms = .ok rows ∧
      SameRows (plannedDocs N base plan.build) rows ∧
      ∀ i d, input.descriptors[i]? = some d → i ∉ plan.touchedChunkIndexes →
        plan.build.usedNeighborChunkIndex ≠ some i → d ∈ plan.build.chunks := by
  have hprefetch : ∃ p, prefetchChunkedFold N input.entries input.descriptors input.budget = .ok p := by
    obtain ⟨p, hpre, -⟩ := stop_bind_ok.mp h
    exact ⟨p, throws_ok.mp hpre⟩
  obtain ⟨p, hpre⟩ := hprefetch
  have hbase : ∀ d ∈ base.docs, IsDocument d := fun d hd => (base.documents d hd).2.2
  -- no entries, or the longest prefix that fits
  rcases planChunkedFold_ok hpre h with ⟨hnil, rfl⟩ | ⟨k, admitted, hadmitted, hplan⟩
  · refine ⟨0, [], base.docs.map fun d => (idOf d, d), Nat.zero_le _, Or.inl hnil, rfl, ?_, ?_, ?_⟩
    · apply reference_eq hbase base.docs_increasing
        (fun m hm => absurd hm List.not_mem_nil) base.docs_increasing
      intro d
      rw [List.foldl_nil, get_docMapOf base.docs_increasing]
      exact ⟨fun hd => ⟨hd, rfl⟩, fun hd => hd.1⟩
    · rw [plannedDocs_empty hp]
      exact sameRows_canonical fun d hd => (base.documents d hd).1
    · intro i d hd _ _
      exact List.mem_of_getElem? hd
  · obtain ⟨ms, hms⟩ := collapse_mutations hadmitted.collapsed
    have hmap := collect_ok_iff.mp hms
    have hb := @PlansOn.buildsOn base input p hp (k + 1) _ hadmitted.collapsed
    obtain ⟨M, hM, hbuilt⟩ := evaluate_documents hb hadmitted.evaluated
    obtain ⟨hlength, hlast⟩ := hadmitted.last hpre
    unfold admittedPlan at hplan
    obtain ⟨build, hmint, hplan⟩ := except_bind_ok hplan
    cases hplan
    have hwf : ∀ d ∈ finalDocs base M, d.wf = true := fun d hd =>
      effective_wf hb hM (mem_finalDocs.mp hd)
    refine ⟨k + 1, ms, (finalDocs base M).map fun d => (idOf d, d), hlength, Or.inr hlast, hms, ?_,
      ?_, ?_⟩
    -- document by document: the overlay of the collapsed mutations is their fold
    · apply reference_eq hbase base.docs_increasing (hadmitted.referenceOk hp hmap)
        (finalDocs_increasing base M)
      intro d
      rw [mem_finalDocs, effective_iff_overlay, hM,
        get_foldl_collapse hmap hadmitted.collapsed (fun _ => rfl)]
      rfl
    · show SameRows (plannedDocs N base build) _
      rw [plannedDocs_eq hbuilt hmint]
      exact sameRows_canonical hwf
    · intro i d hd htouched hused
      apply plan_keeps hbuilt hb hmint hd _ hused
      rw [mem_touchedGroups]
      intro hmem
      exact htouched ((Finset.mem_sort _).mpr hmem)

end Plan

/-- The chunks of `a` and of `c`. -/
def twoBase : ChunkedSnapshot where
  chunks := [bareChunk "a" (chunkKey (List.replicate 64 97)) 100 bareDoc_a,
    bareChunk "c" (chunkKey (List.replicate 64 98)) 100 bareDoc_c]
  ordered := by
    show rangesIncrease [bareDescriptor "a" 97 100, bareDescriptor "c" 98 100] = true
    decide +kernel
  keys := by
    show [chunkKey (List.replicate 64 97), chunkKey (List.replicate 64 98)].Nodup
    decide +kernel

theorem twoChunks_plansOn : PlansOn twoBase (twoChunks 200) where
  descriptors := rfl
  loaded c hc docs hdocs := by
    rcases List.mem_cons.mp hc with rfl | hc
    · exact Option.some.inj (hdocs.symm.trans (twoChunks_first 200))
    · rw [List.mem_singleton.mp hc] at hdocs ⊢
      exact Option.some.inj (hdocs.symm.trans (twoChunks_second 200))
  wf entry hentry d hd := by
    rw [List.mem_singleton.mp hentry] at hd
    cases hd

/-- The delete of `a` leaves the chunk of `c`, as the reference leaves its row. -/
theorem plan_refines_reference_delete : ∃ plan,
    planChunkedFold integerText (fun _ => notesDigest) (twoChunks 200) = .ok (some plan) ∧
      ∃ n ms rows, n ≤ 1 ∧
        collect (((twoChunks 200).entries.take n).map entryToMutation) = .ok ms ∧
        foldChunkedSnapshotReference twoBase.rows ms = .ok rows ∧
        SameRows (plannedDocs integerText twoBase plan.build) rows := by
  have hplans : (planChunkedFold integerText (fun _ => notesDigest)
      (twoChunks 200)).toOption.join.isSome = true := by
    decide +kernel
  obtain ⟨plan, hplan⟩ : ∃ plan, planChunkedFold integerText (fun _ => notesDigest)
      (twoChunks 200) = .ok (some plan) := by
    cases hrun : planChunkedFold integerText (fun _ => notesDigest) (twoChunks 200) with
    | error e =>
      rw [hrun] at hplans
      cases hplans
    | ok plan? =>
      cases plan? with
      | none =>
        rw [hrun] at hplans
        cases hplans
      | some plan => exact ⟨plan, rfl⟩
  obtain ⟨n, ms, rows, hn, -, hms, hrows, hsame, -⟩ :=
    plan_refines_reference integerText _ twoBase (twoChunks 200) plan twoChunks_plansOn hplan
  exact ⟨plan, hplan, n, ms, rows, hn, hms, hrows, hsame⟩

end Baerly
