import Baerly.Verify.ChunkRouting

/-
  The documents of a group.

  SPEC: a mutation map says of every id which document it has, if any (`Effective`): the post-image
  of its mutation, or its document in the snapshot when it has none.  The documents of the slot `i`
  after its mutations are the effective ones whose id lies in the slot (`mem_slotDocs`), sorted.
  So the slots one after the other are all effective documents, sorted (`mem_foldedDocs`,
  `foldedDocs_increasing`), which determines them (`eq_of_increasing`).

  CRUX: a delete that is routed nowhere deletes nothing, because its id lies in no chunk.
-/

namespace Baerly

open Json

/-! ## Sorted by id -/

/-- Lists sorted by id with the same members are one list. -/
theorem eq_of_increasing {α : Type} {f : α → JsString} {xs ys : List α}
    (hxs : (xs.map f).Pairwise idLt) (hys : (ys.map f).Pairwise idLt)
    (hmem : ∀ a, a ∈ xs ↔ a ∈ ys) : xs = ys := by
  have hnodup : ∀ {zs : List α}, (zs.map f).Pairwise idLt → zs.Nodup := fun {zs} h =>
    List.Nodup.of_map f (h.imp fun hlt heq => absurd (heq ▸ hlt) (lt_irrefl _))
  have hperm : xs.Perm ys := (List.perm_ext_iff_of_nodup (hnodup hxs) (hnodup hys)).mpr hmem
  refine List.Perm.eq_of_pairwise (fun a b _ _ hab hba => ?_) (List.pairwise_map.mp hxs)
    (List.pairwise_map.mp hys) hperm
  exact absurd (lt_trans hab hba) (lt_irrefl _)

/-- Sorting by distinct ids puts them in strict order. -/
theorem insertionSort_increasing {α : Type} {f : α → JsString} {xs : List α}
    (hxs : (xs.map f).Nodup) :
    ((xs.insertionSort fun a b => compareDocIds (f a) (f b) ≠ .gt).map f).Pairwise idLt := by
  have htotal : Std.Total fun a b : α => compareDocIds (f a) (f b) ≠ .gt := ⟨fun a b => by
    rw [not_gt_iff, not_gt_iff]
    exact le_total _ _⟩
  have htrans : IsTrans α fun a b => compareDocIds (f a) (f b) ≠ .gt := ⟨fun a b c => by
    rw [not_gt_iff, not_gt_iff, not_gt_iff]
    exact le_trans⟩
  have hperm := List.perm_insertionSort (fun a b => compareDocIds (f a) (f b) ≠ .gt) xs
  have hnodup : ((xs.insertionSort fun a b => compareDocIds (f a) (f b) ≠ .gt).map f).Nodup :=
    (hperm.map f).nodup_iff.mpr hxs
  have hsorted : ((xs.insertionSort fun a b => compareDocIds (f a) (f b) ≠ .gt).map f).Pairwise
      fun a b => idPoints a ≤ idPoints b :=
    List.pairwise_map.mpr ((List.pairwise_insertionSort _ xs).imp not_gt_iff.mp)
  refine List.Pairwise.imp₂ (fun a b hle hne => ?_) hsorted hnodup
  exact lt_of_le_of_ne hle fun heq => hne (idPoints_injective heq)

/-! ## Maps of documents -/

/-- Every document is stored under its own id. -/
def Keyed (m : Rows) : Prop := ∀ k d, m.get k = some d → idOf d = k

/-- A mutation changes its own row only. -/
theorem get_applyMutation (m : Rows) (mutation : ReferenceMutation) (k : JsString) :
    (applyMutation m mutation).get k =
      if k = mutation.docId then mutation.after? else m.get k := by
  unfold applyMutation
  split
  next h => rw [InsMap.get_erase, h]
  next after h => rw [InsMap.get_set, h]

/-- The post-image of a mutation has the id of the mutation. -/
def NamesItself (mutation : ReferenceMutation) : Prop :=
  ∀ d, mutation.after? = some d → idOf d = mutation.docId

/-- Rows stay under their own ids. -/
theorem Keyed.applyMutation {m : Rows} (hm : Keyed m) {mutation : ReferenceMutation}
    (hmutation : NamesItself mutation) : Keyed (applyMutation m mutation) := by
  intro k d hk
  rw [get_applyMutation] at hk
  split at hk
  next heq => rw [hmutation d hk, heq]
  next => exact hm k d hk

/-- Through any list of mutations. -/
theorem Keyed.foldl {ms : List ReferenceMutation} (hms : ∀ m ∈ ms, NamesItself m) {m : Rows}
    (hm : Keyed m) : Keyed (ms.foldl Baerly.applyMutation m) := by
  induction ms generalizing m with
  | nil => exact hm
  | cons mutation ms ih =>
    rw [List.forall_mem_cons] at hms
    exact ih hms.2 (hm.applyMutation hms.1)

/-- Ids no mutation names keep their document. -/
theorem get_foldl_of_not_mem {ms : List ReferenceMutation} {k : JsString}
    (h : ∀ m ∈ ms, m.docId ≠ k) (m : Rows) : (ms.foldl applyMutation m).get k = m.get k := by
  induction ms generalizing m with
  | nil => rfl
  | cons mutation ms ih =>
    rw [List.forall_mem_cons] at h
    rw [List.foldl_cons, ih h.2, get_applyMutation, if_neg (Ne.symm h.1)]

/-- An id one mutation names has its post-image. -/
theorem get_foldl_of_mem {ms : List ReferenceMutation} (hms : (ms.map ReferenceMutation.docId).Nodup)
    {mutation : ReferenceMutation} (h : mutation ∈ ms) (m : Rows) :
    (ms.foldl applyMutation m).get mutation.docId = mutation.after? := by
  induction ms generalizing m with
  | nil => cases h
  | cons first ms ih =>
    rw [List.map_cons, List.nodup_cons] at hms
    rw [List.foldl_cons]
    rcases List.mem_cons.mp h with rfl | h
    · rw [get_foldl_of_not_mem, get_applyMutation, if_pos rfl]
      intro other hother heq
      exact hms.1 (heq ▸ List.mem_map.mpr ⟨other, hother, rfl⟩)
    · exact ih hms.2 h _

/-- The map the documents of a chunk make. -/
def docMapOf (docs : List Doc) : Rows :=
  docs.foldl (fun docMap d => docMap.set (idOf d) d) InsMap.empty

/-- A map of sorted rows finds each row under its id. -/
theorem get_docMapOf {docs : List Doc} (hdocs : (docs.map idOf).Pairwise idLt) {k : JsString}
    {d : Doc} : (docMapOf docs).get k = some d ↔ d ∈ docs ∧ idOf d = k := by
  have hlist : docMapOf docs = InsMap.ofList (docs.map fun d => (idOf d, d)) := by
    rw [docMapOf, InsMap.ofList, List.foldl_map]
  have hkeys : ((docs.map fun d => (idOf d, d)).map Prod.fst).Nodup := by
    rw [List.map_map]
    exact hdocs.imp fun hlt heq => absurd (heq ▸ hlt) (lt_irrefl _)
  rw [hlist, InsMap.get_ofList hkeys]
  constructor
  · intro h
    obtain ⟨e, he, heq⟩ := List.mem_map.mp (InsMap.mem_of_lookup_eq_some h)
    obtain ⟨hid, rfl⟩ := Prod.mk.inj heq
    exact ⟨he, hid⟩
  · rintro ⟨hd, rfl⟩
    exact InsMap.lookup_eq_some_of_mem hkeys (List.mem_map.mpr ⟨d, hd, rfl⟩)

/-- Every row of it is under its own id. -/
theorem keyed_docMapOf {docs : List Doc} (hdocs : (docs.map idOf).Pairwise idLt) :
    Keyed (docMapOf docs) :=
  fun _ _ h => ((get_docMapOf hdocs).mp h).2

/-- The rows of a map come out in the order of their ids. -/
theorem sortedDocuments_increasing {m : Rows} (hm : Keyed m) :
    ((sortedDocuments m).map idOf).Pairwise idLt := by
  refine insertionSort_increasing ?_
  have hids : (m.entries.map Prod.snd).map idOf = m.entries.map Prod.fst := by
    rw [List.map_map]
    exact List.map_congr_left fun e he => hm e.1 e.2 (InsMap.mem_entries.mp he)
  rw [hids]
  exact m.nodup

/-- And all of them do. -/
theorem mem_sortedDocuments {m : Rows} (hm : Keyed m) {d : Doc} :
    d ∈ sortedDocuments m ↔ m.get (idOf d) = some d := by
  rw [sortedDocuments, List.mem_insertionSort, List.mem_map]
  constructor
  · rintro ⟨e, he, rfl⟩
    have hget := InsMap.mem_entries.mp he
    rw [hm e.1 e.2 hget]
    exact hget
  · intro h
    exact ⟨(idOf d, d), InsMap.mem_entries.mpr h, rfl⟩

/-! ## Slots -/

/-- A map of mutations as the planner makes it: filed under their ids. -/
structure MutationMap where
  map : InsMap JsString ReferenceMutation
  filed : ∀ k m, map.get k = some m → m.docId = k
  named : ∀ k m, map.get k = some m → NamesItself m

namespace MutationMap

/-- The list of mutations is the map's. -/
theorem mem_list {M : MutationMap} {m : ReferenceMutation} :
    m ∈ mutationList M.map ↔ M.map.get m.docId = some m := by
  rw [mutationList, List.mem_map]
  constructor
  · rintro ⟨e, he, rfl⟩
    have hget := InsMap.mem_entries.mp he
    rw [M.filed e.1 e.2 hget]
    exact hget
  · intro h
    exact ⟨(m.docId, m), InsMap.mem_entries.mpr h, rfl⟩

/-- It has one for each id. -/
theorem list_nodup (M : MutationMap) :
    ((mutationList M.map).map ReferenceMutation.docId).Nodup := by
  have hids : (mutationList M.map).map ReferenceMutation.docId = M.map.entries.map Prod.fst := by
    rw [mutationList, List.map_map]
    exact List.map_congr_left fun e he => M.filed e.1 e.2 (InsMap.mem_entries.mp he)
  rw [hids]
  exact M.map.nodup

/-- The mutations that are routed to `i`. -/
def group (M : MutationMap) (ds : List SnapshotChunkDescriptor) (i : Nat) : List ReferenceMutation :=
  (mutationList M.map).filter fun m => m.route ds = some i

/-- A group has the mutations that are routed to it. -/
theorem mem_group {M : MutationMap} {ds : List SnapshotChunkDescriptor} {i : Nat}
    {m : ReferenceMutation} : m ∈ M.group ds i ↔ M.map.get m.docId = some m ∧ m.route ds = some i := by
  rw [group, List.mem_filter, mem_list, decide_eq_true_eq]

/-- One mutation for each id. -/
theorem group_nodup (M : MutationMap) (ds : List SnapshotChunkDescriptor) (i : Nat) :
    ((M.group ds i).map ReferenceMutation.docId).Nodup :=
  (List.filter_sublist.map _).nodup M.list_nodup

end MutationMap

/-- All documents of a snapshot. -/
def ChunkedSnapshot.docs (base : ChunkedSnapshot) : List Doc := base.chunks.flatMap BaseChunk.docs

/-- The documents the mutations leave: the post-images, and what no mutation names. -/
def Effective (base : ChunkedSnapshot) (M : MutationMap) (d : Doc) : Prop :=
  match M.map.get (idOf d) with
  | some m => m.after? = some d
  | none => d ∈ base.docs

/-- A chunk and its descriptor stand at the same place. -/
theorem ChunkedSnapshot.descriptor_get {base : ChunkedSnapshot} {i : Nat} {c : BaseChunk}
    (hc : base.chunks[i]? = some c) : base.descriptors[i]? = some c.descriptor := by
  rw [descriptors, List.getElem?_map, hc]
  rfl

/-- A document of a chunk lies in its slot. -/
theorem ChunkedSnapshot.slot_of_mem (base : ChunkedSnapshot) {i : Nat} {c : BaseChunk}
    (hc : base.chunks[i]? = some c) {d : Doc} (hd : d ∈ c.docs) :
    Slot base.descriptors i (idOf d) :=
  slot_of_range base.isOrdered (descriptor_get hc) (c.range hd).1 (c.range hd).2

/-- A document of the snapshot is in the chunk of its slot. -/
theorem ChunkedSnapshot.mem_chunk (base : ChunkedSnapshot) {i : Nat} {c : BaseChunk}
    (hc : base.chunks[i]? = some c) {d : Doc} (hslot : Slot base.descriptors i (idOf d)) :
    d ∈ base.docs ↔ d ∈ c.docs := by
  constructor
  · intro hd
    obtain ⟨e, he, hde⟩ := List.mem_flatMap.mp hd
    obtain ⟨j, hj⟩ := List.getElem?_of_mem he
    have hij : i = j := by
      refine slot_unique base.isOrdered ?_ ?_ hslot (base.slot_of_mem hj hde)
      · exact (List.getElem?_eq_some_iff.mp (descriptor_get hc)).1
      · exact (List.getElem?_eq_some_iff.mp (descriptor_get hj)).1
    rw [← hij, hc, Option.some.injEq] at hj
    exact hj ▸ hde
  · intro hd
    exact List.mem_flatMap.mpr ⟨c, List.mem_of_getElem? hc, hd⟩

/-- The documents of the slot `i` after the mutations routed to it. -/
def slotDocs (base : ChunkedSnapshot) (M : MutationMap) (i : Nat) (c : BaseChunk) : List Doc :=
  updatedDocs c.docs (M.group base.descriptors i)

theorem updatedDocs_eq (docs : List Doc) (ms : List ReferenceMutation) :
    updatedDocs docs ms = sortedDocuments (ms.foldl applyMutation (docMapOf docs)) := rfl

/-- The rows of a group stay under their own ids. -/
theorem keyed_group (M : MutationMap) (ds : List SnapshotChunkDescriptor) (i : Nat) (c : BaseChunk) :
    Keyed ((M.group ds i).foldl applyMutation (docMapOf c.docs)) :=
  (keyed_docMapOf c.increasing).foldl fun m hm => M.named _ m (MutationMap.mem_group.mp hm).1

/-- What a group is rewritten to stands in the order of its ids. -/
theorem slotDocs_increasing (base : ChunkedSnapshot) (M : MutationMap) (i : Nat) (c : BaseChunk) :
    ((slotDocs base M i c).map idOf).Pairwise idLt :=
  sortedDocuments_increasing (keyed_group M base.descriptors i c)

/-- An id no mutation of the group names has the row it had. -/
theorem get_group_of_not_mem {M : MutationMap} {ds : List SnapshotChunkDescriptor} {i : Nat}
    {c : BaseChunk} {id : JsString} (h : ∀ m ∈ M.group ds i, m.docId ≠ id) {d : Doc} :
    ((M.group ds i).foldl applyMutation (docMapOf c.docs)).get id = some d ↔
      d ∈ c.docs ∧ idOf d = id := by
  rw [get_foldl_of_not_mem h, get_docMapOf c.increasing]

/-- Where the mutation of an id is routed, in terms of slots. -/
theorem route_slot {base : ChunkedSnapshot} (hne : base.descriptors ≠ []) (m : ReferenceMutation) :
    (∃ i, m.route base.descriptors = some i ∧ i < base.descriptors.length ∧
        Slot base.descriptors i m.docId) ∨
      (m.after? = none ∧ m.route base.descriptors = none ∧ ∀ d ∈ base.docs, idOf d ≠ m.docId) := by
  unfold ReferenceMutation.route
  cases hafter : m.after? with
  | some after => exact Or.inl (route_put base.isOrdered hne m.docId)
  | none =>
    rcases route_delete base.isOrdered m.docId with ⟨i, d, hroute, hd, hrange⟩ | ⟨hroute, hgap⟩
    · exact Or.inl ⟨i, hroute, (List.getElem?_eq_some_iff.mp hd).1,
        slot_of_range base.isOrdered hd hrange.1 hrange.2⟩
    · refine Or.inr ⟨rfl, hroute, fun d hd heq => ?_⟩
      obtain ⟨c, hc, hdc⟩ := List.mem_flatMap.mp hd
      have hrange := c.range hdc
      rw [heq] at hrange
      exact hgap c.descriptor (List.mem_map.mpr ⟨c, hc, rfl⟩) hrange

/-- **The documents of a slot are the effective ones whose id lies in it.** -/
theorem mem_slotDocs {base : ChunkedSnapshot} {M : MutationMap} {i : Nat} {c : BaseChunk}
    (hc : base.chunks[i]? = some c) {d : Doc} :
    d ∈ slotDocs base M i c ↔ Slot base.descriptors i (idOf d) ∧ Effective base M d := by
  have hi : i < base.descriptors.length :=
    (List.getElem?_eq_some_iff.mp (ChunkedSnapshot.descriptor_get hc)).1
  have hne : base.descriptors ≠ [] := List.ne_nil_of_length_pos (by omega)
  rw [slotDocs, updatedDocs_eq, mem_sortedDocuments (keyed_group M base.descriptors i c)]
  -- a document of the chunk that no mutation of the group names
  have hkept : (∀ m ∈ M.group base.descriptors i, m.docId ≠ idOf d) →
      (((M.group base.descriptors i).foldl applyMutation (docMapOf c.docs)).get (idOf d) = some d ↔
        d ∈ c.docs) := fun h => by
    rw [get_group_of_not_mem h]
    exact ⟨And.left, fun hd => ⟨hd, rfl⟩⟩
  unfold Effective
  cases hget : M.map.get (idOf d) with
  | none =>
    have hfree : ∀ m ∈ M.group base.descriptors i, m.docId ≠ idOf d := by
      intro m hm heq
      have hm' := (MutationMap.mem_group.mp hm).1
      rw [heq, hget] at hm'
      cases hm'
    rw [hkept hfree]
    constructor
    · intro hd
      have hslot := base.slot_of_mem hc hd
      exact ⟨hslot, (base.mem_chunk hc hslot).mpr hd⟩
    · rintro ⟨hslot, hd⟩
      exact (base.mem_chunk hc hslot).mp hd
  | some m =>
    have hid : m.docId = idOf d := M.filed _ m hget
    have hone : ∀ m' ∈ M.group base.descriptors i, m'.docId = idOf d → m' = m := by
      intro m' hm' heq
      have hget' := (MutationMap.mem_group.mp hm').1
      rw [heq, hget, Option.some.injEq] at hget'
      exact hget'.symm
    rcases route_slot hne m with ⟨j, hroute, hj, hslot⟩ | ⟨hafter, hroute, hnone⟩
    · rw [hid] at hslot
      by_cases hij : j = i
      · -- the mutation is in this group
        rw [hij] at hroute hslot
        have hmem : m ∈ M.group base.descriptors i :=
          MutationMap.mem_group.mpr ⟨by rw [hid]; exact hget, hroute⟩
        have hfold := get_foldl_of_mem (M.group_nodup base.descriptors i) hmem (docMapOf c.docs)
        rw [hid] at hfold
        rw [hfold]
        exact ⟨fun h => ⟨hslot, h⟩, And.right⟩
      · -- it is in another one, and so is the id
        have hout : ¬ Slot base.descriptors i (idOf d) := fun h =>
          hij (slot_unique base.isOrdered hj hi hslot h)
        have hfree : ∀ m' ∈ M.group base.descriptors i, m'.docId ≠ idOf d := by
          intro m' hm' heq
          have hroute' := (MutationMap.mem_group.mp hm').2
          rw [hone m' hm' heq, hroute, Option.some.injEq] at hroute'
          exact hij hroute'
        rw [hkept hfree]
        exact ⟨fun hd => absurd (base.slot_of_mem hc hd) hout, fun h => absurd h.1 hout⟩
    · -- a delete in a gap
      have hfree : ∀ m' ∈ M.group base.descriptors i, m'.docId ≠ idOf d := by
        intro m' hm' heq
        have hroute' := (MutationMap.mem_group.mp hm').2
        rw [hone m' hm' heq, hroute] at hroute'
        cases hroute'
      rw [hkept hfree]
      constructor
      · intro hd
        have hmem := (base.mem_chunk hc (base.slot_of_mem hc hd)).mpr hd
        exact absurd hid.symm (hnone d hmem)
      · rintro ⟨-, h⟩
        rw [show m.after? = some d from h] at hafter
        cases hafter

/-- A group without mutations keeps its documents. -/
theorem slotDocs_of_untouched {base : ChunkedSnapshot} {M : MutationMap} {i : Nat} {c : BaseChunk}
    (h : M.group base.descriptors i = []) : slotDocs base M i c = c.docs := by
  refine eq_of_increasing (slotDocs_increasing base M i c) c.increasing fun d => ?_
  have hkeyed := keyed_group M base.descriptors i c
  rw [slotDocs, updatedDocs_eq, mem_sortedDocuments hkeyed, h]
  show (docMapOf c.docs).get (idOf d) = some d ↔ _
  rw [get_docMapOf c.increasing]
  exact ⟨And.left, fun hd => ⟨hd, rfl⟩⟩

/-! ## All slots -/

/-- The documents of all slots, in order. -/
def foldedDocs (base : ChunkedSnapshot) (M : MutationMap) : List Doc :=
  (base.chunks.mapIdx (slotDocs base M)).flatten

/-- **The rows of all groups are the effective ones.** -/
theorem mem_foldedDocs {base : ChunkedSnapshot} (hne : base.descriptors ≠ []) {M : MutationMap}
    {d : Doc} : d ∈ foldedDocs base M ↔ Effective base M d := by
  rw [foldedDocs, List.mem_flatten]
  constructor
  · rintro ⟨docs, hdocs, hd⟩
    obtain ⟨i, hi, rfl⟩ := List.mem_mapIdx.mp hdocs
    exact ((mem_slotDocs (List.getElem?_eq_getElem hi)).mp hd).2
  · intro h
    obtain ⟨i, -, hi, hslot⟩ := route_put base.isOrdered hne (idOf d)
    have hi' : i < base.chunks.length := by simpa [ChunkedSnapshot.descriptors] using hi
    refine ⟨_, List.mem_mapIdx.mpr ⟨i, hi', rfl⟩, ?_⟩
    exact (mem_slotDocs (List.getElem?_eq_getElem hi')).mpr ⟨hslot, h⟩

/-- And they stand in one order, group after group. -/
theorem foldedDocs_increasing (base : ChunkedSnapshot) (M : MutationMap) :
    ((foldedDocs base M).map idOf).Pairwise idLt := by
  rw [List.pairwise_map, foldedDocs, List.pairwise_flatten]
  constructor
  · intro docs hdocs
    obtain ⟨i, hi, rfl⟩ := List.mem_mapIdx.mp hdocs
    exact List.pairwise_map.mp (slotDocs_increasing base M i _)
  · rw [List.pairwise_iff_getElem]
    intro i j hi hj hij x hx y hy
    rw [List.length_mapIdx] at hi hj
    rw [List.getElem_mapIdx] at hx hy
    have hslotx := ((mem_slotDocs (List.getElem?_eq_getElem hi)).mp hx).1
    have hsloty := ((mem_slotDocs (List.getElem?_eq_getElem hj)).mp hy).1
    have hjlen : j < base.descriptors.length := by simpa [ChunkedSnapshot.descriptors] using hj
    exact slot_lt base.isOrdered hij hjlen hslotx hsloty

end Baerly
