import Baerly.Verify.ChunkSplit

/-
  What the builder puts out.

  PROGRAM: `evaluateSnapshotChunks` rewrites the touched groups, may merge the owner's facing output
  with a neighbour, and lists for every descriptor what stands in its place.

  SPEC (`evaluate_documents`): the documents of the outputs, one after the other, are the effective
  documents of the snapshot under the mutations, sorted by id.  Every new chunk is an encoded item
  within the targets, and a descriptor that is neither touched nor consumed is kept.

  CRUX: position by position the outputs hold the documents of the slot.  A merge moves the
  documents of one position to the next one, which leaves the concatenation as it is
  (`flatten_mapIdx_pair`).
-/

namespace Baerly

open Json
open Utf8 (Byte)

/-! ## Positions -/

/-- Two neighbouring positions may share their items in another way. -/
theorem flatten_mapIdx_pair {α β : Type} {xs : List β} {f g : Nat → β → List α} {k : Nat} {a b : β}
    (ha : xs[k]? = some a) (hb : xs[k + 1]? = some b)
    (hpair : f k a ++ f (k + 1) b = g k a ++ g (k + 1) b)
    (helse : ∀ i x, xs[i]? = some x → i ≠ k → i ≠ k + 1 → f i x = g i x) :
    (xs.mapIdx f).flatten = (xs.mapIdx g).flatten := by
  induction xs generalizing f g k with
  | nil => cases ha
  | cons x xs ih =>
    rw [List.mapIdx_cons, List.mapIdx_cons, List.flatten_cons, List.flatten_cons]
    cases k with
    | zero =>
      cases xs with
      | nil => cases hb
      | cons y xs =>
        cases ha
        cases hb
        have hrest : xs.mapIdx (fun i => f (i + 1 + 1)) = xs.mapIdx (fun i => g (i + 1 + 1)) := by
          rw [List.mapIdx_eq_mapIdx_iff]
          intro i hi
          exact helse (i + 1 + 1) _ (List.getElem?_eq_getElem hi) (by omega) (by omega)
        rw [List.mapIdx_cons, List.mapIdx_cons, List.flatten_cons, List.flatten_cons, hrest,
          ← List.append_assoc, ← List.append_assoc]
        exact congrArg (· ++ _) hpair
    | succ k =>
      rw [helse 0 x rfl (by omega) (by omega)]
      refine congrArg (g 0 x ++ ·) (ih ha hb hpair fun i y hy hk hk' => ?_)
      exact helse (i + 1) y hy (by omega) (by omega)

theorem flatMap_flatten_mapIdx {α β γ : Type} (xs : List γ) (f : Nat → γ → List β) (h : β → List α) :
    (xs.mapIdx f).flatten.flatMap h = (xs.mapIdx fun i x => (f i x).flatMap h).flatten := by
  induction xs generalizing f with
  | nil => rfl
  | cons x xs ih =>
    rw [List.mapIdx_cons, List.mapIdx_cons, List.flatten_cons, List.flatten_cons,
      List.flatMap_append, ih]

/-! ## Ingress -/

/-- Mutations are let in iff each is. -/
theorem assertMutations_ok {entries : List (JsString × ReferenceMutation)} :
    assertMutations entries = .ok () ↔ ∀ e ∈ entries, assertIngress e.1 e.2 = .ok () := by
  induction entries with
  | nil => simp [assertMutations]
  | cons e entries ih =>
    rw [List.forall_mem_cons, ← ih, assertMutations, bind_ok_iff]
    constructor
    · rintro ⟨_, hfirst, hrest⟩
      exact ⟨hfirst, hrest⟩
    · rintro ⟨hfirst, hrest⟩
      exact ⟨(), hfirst, hrest⟩

/-- A post-image that is a document under its id. -/
theorem assertPostImage_ok {docId : JsString} {after : Doc} {code : CodecCode} {fail : CodecFail} :
    assertPostImage docId after code fail = .ok () ↔
      (∃ ms, after = .obj ms) ∧ after.member (js "_id") = some (.str docId) := by
  unfold assertPostImage
  split
  next ms =>
    have hmember : (Json.obj ms : Doc).member (js "_id") = ms.lookup (js "_id") := rfl
    rw [hmember]
    split
    next h => simp [h]
    next v h =>
      rw [check_ok, h, Option.some.injEq]
      exact ⟨fun hv => ⟨⟨ms, rfl⟩, hv⟩, And.right⟩
  next hobj =>
    simp only [reduceCtorEq, false_iff, not_and]
    rintro ⟨ms, rfl⟩
    exact absurd rfl (hobj ms)

/-- A mutation is let in if its id is a snapshot's, its own, and the row's. -/
theorem assertIngress_ok {docId : JsString} {m : ReferenceMutation} :
    assertIngress docId m = .ok () ↔ assertSnapshotDocId docId = .ok () ∧ docId = m.docId ∧
      ∀ d, m.after? = some d →
        (∃ ms, d = .obj ms) ∧ d.member (js "_id") = some (.str docId) := by
  unfold assertIngress
  simp only [bind_ok_iff, check_ok]
  constructor
  · rintro ⟨_, hid, _, hfiled, h⟩
    refine ⟨hid, hfiled, fun d hd => ?_⟩
    rw [hd] at h
    exact assertPostImage_ok.mp h
  · rintro ⟨hid, hfiled, h⟩
    refine ⟨(), hid, (), hfiled, ?_⟩
    cases hafter : m.after? with
    | none => rfl
    | some d => exact assertPostImage_ok.mpr (h d hafter)

/-- A row's id is its `_id`. -/
theorem idOf_of_member {d : Doc} {id : JsString} (h : d.member (js "_id") = some (.str id)) :
    idOf d = id := by
  unfold idOf
  rw [h]

/-- A map of mutations that passed the ingress checks. -/
def mutationMapOf {mutations : InsMap JsString ReferenceMutation}
    (h : assertMutations mutations.entries = .ok ()) : MutationMap where
  map := mutations
  filed k m hk := by
    have hingress := assertMutations_ok.mp h (k, m) (InsMap.mem_entries.mpr hk)
    exact (assertIngress_ok.mp hingress).2.1.symm
  named k m hk := by
    have hingress := assertMutations_ok.mp h (k, m) (InsMap.mem_entries.mpr hk)
    obtain ⟨-, hfiled, hnamed⟩ := assertIngress_ok.mp hingress
    intro d hd
    rw [idOf_of_member (hnamed d hd).2]
    exact hfiled

/-! ## Groups -/

/-- The input of the builder belongs to the snapshot: its descriptors, chunks as they were decoded
    where they are loaded, and post-images with distinct keys. -/
structure BuildsOn (base : ChunkedSnapshot) (input : BuildSnapshotChunksInput) : Prop where
  descriptors : input.descriptors = base.descriptors
  loaded : ∀ c ∈ base.chunks, ∀ docs, input.loadedChunks c.descriptor.key = some docs →
    docs = c.docs
  wf : ∀ k m d, input.mutations.get k = some m → m.after? = some d → d.wf = true

section Build

variable {N : NumberText} {base : ChunkedSnapshot} {input : BuildSnapshotChunksInput}
variable {M : MutationMap}

/-- Effective documents have distinct keys. -/
theorem effective_wf (hb : BuildsOn base input) (hM : M.map = input.mutations) {d : Doc}
    (h : Effective base M d) : d.wf = true := by
  unfold Effective at h
  split at h
  next m hm =>
    rw [hM] at hm
    exact hb.wf _ m d hm h
  next =>
    obtain ⟨c, -, hd⟩ := List.mem_flatMap.mp h
    exact (c.documents d hd).1

/-- Documents are there for a chunk iff it was loaded. -/
theorem getLoadedDocs_ok {loadedChunks : Key → Option (List Doc)} {d : SnapshotChunkDescriptor}
    {docs : List Doc} :
    getLoadedDocs loadedChunks d = .ok docs ↔ loadedChunks d.key = some docs := by
  unfold getLoadedDocs
  split
  next h => simp [h]
  next h => simp [h]

theorem throws_ok {α : Type} {x : Except Err α} {a : α} : throws x = .ok a ↔ x = .ok a := by
  cases x with
  | ok b => simp [throws]
  | error e => simp [throws]

/-- A sequence that is not stopped has not been stopped at its first. -/
theorem stop_bind_ok {α β : Type} {x : Except Stop α} {f : α → Except Stop β} {b : β} :
    (x >>= f) = .ok b ↔ ∃ a, x = .ok a ∧ f a = .ok b := by
  cases x with
  | ok a => exact ⟨fun h => ⟨a, rfl, h⟩, fun ⟨a', h, h'⟩ => by cases h; exact h'⟩
  | error e => exact ⟨fun h => (by cases h), fun ⟨a', h, h'⟩ => by cases h⟩

/-- Lists of rows are equal iff they are written alike. -/
theorem areDocListsEqual_iff {left right : List Doc} :
    areDocListsEqual N left right = true ↔ left = right := by
  unfold areDocListsEqual
  rw [decide_eq_true_eq]
  have hinj : Function.Injective (encodeJsonBytes N) := fun v w h => JSON.encode_stringify_injective h
  exact hinj.list_map.eq_iff

/-- What became of the group at `i`. -/
def GroupBuilt (N : NumberText) (input : BuildSnapshotChunksInput) (base : ChunkedSnapshot)
    (M : MutationMap) (i : Nat) (c : BaseChunk) : GroupResult → Prop
  | .unchanged => slotDocs base M i c = c.docs
  | .rewritten items => items.flatMap SplitChunkItem.docs = slotDocs base M i c ∧
      ∀ item ∈ items, IsItem N input.collection input.incarnation input.policy item

/-- **What a group is rewritten to**, from the rows of its chunk and its mutations. -/
theorem evaluateGroup_ok (hb : BuildsOn base input) (hM : M.map = input.mutations) {i : Nat}
    {c : BaseChunk} (hc : base.chunks[i]? = some c) {r : GroupResult}
    (h : evaluateGroup N input i = .ok r) : GroupBuilt N input base M i c r := by
  have hget : input.descriptors[i]? = some c.descriptor := by
    rw [hb.descriptors]
    exact ChunkedSnapshot.descriptor_get hc
  unfold evaluateGroup at h
  rw [hget] at h
  obtain ⟨docs, hdocs, h⟩ := stop_bind_ok.mp h
  have hload := getLoadedDocs_ok.mp (throws_ok.mp hdocs)
  obtain rfl := hb.loaded c (List.mem_of_getElem? hc) docs hload
  have hslot : updatedDocs c.docs ((mutationList input.mutations).filter fun m =>
      m.route input.descriptors = some i) = slotDocs base M i c := by
    rw [slotDocs, MutationMap.group, hM, hb.descriptors]
  dsimp only at h
  rw [hslot] at h
  have hwf : ∀ d ∈ slotDocs base M i c, d.wf = true := fun d hd =>
    effective_wf hb hM ((mem_slotDocs hc).mp hd).2
  split at h
  next heq =>
    cases h
    exact (areDocListsEqual_iff.mp heq).symm
  next =>
    split at h
    next hnil =>
      cases h
      exact ⟨hnil.symm, fun item hitem => absurd hitem List.not_mem_nil⟩
    next =>
      obtain ⟨items, hitems, h⟩ := stop_bind_ok.mp h
      cases h
      exact splitFrom_ok hwf hitems

/-- Every touched group has its result, and no other has one. -/
theorem evaluateGroups_lookup {touched : List Nat} {results : List (Nat × GroupResult)}
    (h : evaluateGroups N input touched = .ok results) (i : Nat) :
    (i ∈ touched → ∃ r, results.lookup i = some r ∧ evaluateGroup N input i = .ok r) ∧
      (i ∉ touched → results.lookup i = none) := by
  induction touched generalizing results with
  | nil =>
    cases h
    exact ⟨fun hi => absurd hi List.not_mem_nil, fun _ => rfl⟩
  | cons j touched ih =>
    obtain ⟨r, hr, h⟩ := stop_bind_ok.mp h
    obtain ⟨results', hresults, h⟩ := stop_bind_ok.mp h
    cases h
    obtain ⟨hin, hout⟩ := ih hresults
    rw [List.lookup_cons]
    by_cases hij : i = j
    · subst hij
      rw [beq_self_eq_true]
      exact ⟨fun _ => ⟨r, rfl, hr⟩, fun hi => absurd List.mem_cons_self hi⟩
    · rw [show (i == j) = false from beq_eq_false_iff_ne.mpr hij]
      refine ⟨fun hi => hin ?_, fun hi => hout fun hmem => hi (List.mem_cons_of_mem j hmem)⟩
      exact (List.mem_cons.mp hi).resolve_left hij

/-- The groups a map of mutations touches, in the order of the map. -/
def touchedGroups (input : BuildSnapshotChunksInput) : List Nat :=
  ((mutationList input.mutations).filterMap fun m => m.route input.descriptors).eraseDups

/-- A group that is not touched has no mutations. -/
theorem group_of_untouched (hb : BuildsOn base input) (hM : M.map = input.mutations) {i : Nat}
    (h : i ∉ touchedGroups input) : M.group base.descriptors i = [] := by
  rw [MutationMap.group, List.filter_eq_nil_iff]
  intro m hm hroute
  rw [decide_eq_true_eq] at hroute
  refine h (List.mem_eraseDups.mpr (List.mem_filterMap.mpr ⟨m, ?_, ?_⟩))
  · rw [← hM]
    exact hm
  · rw [hb.descriptors]
    exact hroute

/-! ## The facing merge -/

/-- A merge of the owner's facing output with its neighbour. -/
structure FacingMerge (N : NumberText) (input : BuildSnapshotChunksInput) (owner neighbor : Nat)
    (items merged : List SplitChunkItem) (nd : SnapshotChunkDescriptor) (docs : List Doc)
    (side : Facing) (facing : SplitChunkItem) : Prop where
  descriptor : input.descriptors[neighbor]? = some nd
  untouched : neighbor ∉ touchedGroups input
  faces : facingSide owner neighbor input.descriptors.length = some side
  output : facingOutput side items = some facing
  loaded : input.loadedChunks nd.key = some docs
  encoded : ∃ bytes, encodeBuilderChunk N (builderChunk input.collection input.incarnation
      (combineDocs side facing.docs docs)) = .ok bytes ∧
    bytes.length ≤ input.policy.targetChunkBytes ∧
    (combineDocs side facing.docs docs).length ≤ input.policy.targetRows ∧
    merged = replaceFacing side items ⟨combineDocs side facing.docs docs, bytes⟩

/-- A merge that is carried out joins the undersized item with the rows of the neighbour it faces.
    -/
theorem applyFacingMerge_ok {owner neighbor : Nat} {items merged : List SplitChunkItem}
    (h : applyFacingMerge N input owner neighbor (touchedGroups input) items = .ok (some merged)) :
    ∃ nd docs side facing, FacingMerge N input owner neighbor items merged nd docs side facing := by
  unfold applyFacingMerge at h
  split at h
  next => cases h
  next hout =>
    rw [not_or] at hout
    split at h
    next nd side hnd hside =>
      split at h
      next => cases h
      next facing hfacing =>
        split at h
        next => cases h
        next =>
          obtain ⟨docs, hdocs, h⟩ := except_bind_ok h
          obtain ⟨bytes, hbytes, h⟩ := except_bind_ok h
          split at h
          next => cases h
          next hfit =>
            rw [not_or, Nat.not_lt, Nat.not_lt] at hfit
            cases h
            exact ⟨nd, docs, side, facing, hnd, hout.2, hside, hfacing,
              getLoadedDocs_ok.mp hdocs, bytes, hbytes, hfit.1, hfit.2, rfl⟩
    next => cases h

/-- **What the merge phase can do**: nothing, or merge the owner with the neighbour. -/
theorem evaluateMerge_ok {results results' : List (Nat × GroupResult)} {used : Option Nat}
    (h : evaluateMerge N input (touchedGroups input) results = .ok (used, results')) :
    (used = none ∧ results' = results) ∨
      ∃ owner neighbor items merged, input.lockedDirectOwnerIndex = some owner ∧
        input.selectedNeighborIndex = some neighbor ∧
        results.lookup owner = some (.rewritten items) ∧
        (∃ nd docs side facing, FacingMerge N input owner neighbor items merged nd docs side facing) ∧
        used = some neighbor ∧ results' = mergeResults results owner merged := by
  unfold evaluateMerge at h
  split at h
  next owner neighbor howner hneighbor =>
    split at h
    next items hitems =>
      obtain ⟨merged?, hmerged, h⟩ := except_bind_ok h
      cases merged? with
      | none =>
        cases h
        exact Or.inl ⟨rfl, rfl⟩
      | some merged =>
        cases h
        exact Or.inr ⟨owner, neighbor, items, merged, howner, hneighbor, hitems,
          applyFacingMerge_ok hmerged, rfl, rfl⟩
    next =>
      cases h
      exact Or.inl ⟨rfl, rfl⟩
  next =>
    cases h
    exact Or.inl ⟨rfl, rfl⟩

/-- It rewrites its owner and leaves the other results. -/
theorem lookup_mergeResults {results : List (Nat × GroupResult)} {owner : Nat}
    {merged : List SplitChunkItem} (i : Nat) :
    (mergeResults results owner merged).lookup i =
      if i = owner then (results.lookup i).map fun _ => .rewritten merged else results.lookup i := by
  induction results with
  | nil => simp [mergeResults]
  | cons r results ih =>
    obtain ⟨j, result⟩ := r
    unfold mergeResults at ih ⊢
    rw [List.map_cons]
    by_cases hj : j = owner
    · simp only [hj, if_true, List.lookup_cons]
      by_cases hi : i = owner
      · simp [hi]
      · rw [show (i == owner) = false from beq_eq_false_iff_ne.mpr hi]
        simpa [hi] using ih
    · simp only [hj, if_false, List.lookup_cons]
      by_cases hi : i = j
      · subst hi
        simp [hj]
      · rw [show (i == j) = false from beq_eq_false_iff_ne.mpr hi]
        exact ih

/-- The merged output holds the neighbour's documents on the facing side. -/
theorem flatMap_replaceFacing {side : Facing} {items : List SplitChunkItem} {facing : SplitChunkItem}
    (h : facingOutput side items = some facing) (docs : List Doc) (bytes : List Byte) :
    (replaceFacing side items ⟨combineDocs side facing.docs docs, bytes⟩).flatMap
        SplitChunkItem.docs =
      combineDocs side (items.flatMap SplitChunkItem.docs) docs := by
  cases side with
  | right =>
    obtain ⟨front, rfl⟩ : ∃ front, items = front ++ [facing] := List.getLast?_eq_some_iff.mp h
    simp [replaceFacing, combineDocs]
  | left =>
    cases items with
    | nil => cases h
    | cons item items =>
      cases h
      simp [replaceFacing, combineDocs]

/-- It puts one item in the place of another. -/
theorem mem_replaceFacing {side : Facing} {items : List SplitChunkItem} {item other : SplitChunkItem}
    (h : other ∈ replaceFacing side items item) : other = item ∨ other ∈ items := by
  cases side with
  | right =>
    rcases List.mem_append.mp h with h | h
    · exact Or.inr (List.mem_of_mem_dropLast h)
    · exact Or.inl (List.mem_singleton.mp h)
  | left =>
    rcases List.mem_cons.mp h with h | h
    · exact Or.inl h
    · exact Or.inr (List.mem_of_mem_tail h)

/-! ## Outputs -/

/-- The documents of the chunk a descriptor of the snapshot names. -/
def ChunkedSnapshot.docsOf (base : ChunkedSnapshot) (d : SnapshotChunkDescriptor) : List Doc :=
  ((base.chunks.find? fun c => c.descriptor.key = d.key).map BaseChunk.docs).getD []

/-- The rows of a chunk are found by its descriptor. -/
theorem ChunkedSnapshot.docsOf_descriptor (base : ChunkedSnapshot) {c : BaseChunk}
    (hc : c ∈ base.chunks) : base.docsOf c.descriptor = c.docs := by
  have hkeys : ∀ {cs : List BaseChunk}, (cs.map fun e => e.descriptor.key).Nodup → c ∈ cs →
      cs.find? (fun e => e.descriptor.key = c.descriptor.key) = some c := by
    intro cs hnodup hmem
    induction cs with
    | nil => cases hmem
    | cons e cs ih =>
      rw [List.map_cons, List.nodup_cons] at hnodup
      rcases List.mem_cons.mp hmem with rfl | hmem
      · simp
      · have hne : ¬ e.descriptor.key = c.descriptor.key := fun heq =>
          hnodup.1 (List.mem_map.mpr ⟨c, hmem, heq.symm⟩)
        rw [List.find?_cons_of_neg (by simpa using hne)]
        exact ih hnodup.2 hmem
  rw [docsOf, hkeys base.keys hc]
  rfl

/-- The documents of an output. -/
def outputDocs (base : ChunkedSnapshot) : ChunkOutput → List Doc
  | .kept d => base.docsOf d
  | .rewritten item => item.docs

/-- An output: a descriptor of the snapshot, or a new item. -/
def OutputBuilt (N : NumberText) (base : ChunkedSnapshot) (input : BuildSnapshotChunksInput) :
    ChunkOutput → Prop
  | .kept d => d ∈ base.descriptors
  | .rewritten item => IsItem N input.collection input.incarnation input.policy item

/-- What stands at position `i` before a merge: the documents of the slot. -/
theorem outputsAt_unmerged (hb : BuildsOn base input) (hM : M.map = input.mutations)
    {results : List (Nat × GroupResult)}
    (h : evaluateGroups N input (touchedGroups input) = .ok results) {used : Option Nat} {i : Nat}
    {c : BaseChunk} (hc : base.chunks[i]? = some c) (hused : used ≠ some i) :
    (outputsAt used results i c.descriptor).flatMap (outputDocs base) = slotDocs base M i c ∧
      ∀ o ∈ outputsAt used results i c.descriptor, OutputBuilt N base input o := by
  have hmem := List.mem_of_getElem? hc
  have hkept : ([ChunkOutput.kept c.descriptor].flatMap (outputDocs base)) = c.docs := by
    simp [outputDocs, base.docsOf_descriptor hmem]
  have hkept' : ∀ o ∈ [ChunkOutput.kept c.descriptor], OutputBuilt N base input o := by
    intro o ho
    rw [List.mem_singleton.mp ho]
    exact List.mem_map.mpr ⟨c, hmem, rfl⟩
  obtain ⟨hin, hout⟩ := evaluateGroups_lookup h i
  unfold outputsAt
  rw [if_neg hused]
  by_cases htouched : i ∈ touchedGroups input
  · obtain ⟨r, hlookup, hgroup⟩ := hin htouched
    have hbuilt := evaluateGroup_ok hb hM hc hgroup
    rw [hlookup]
    cases r with
    | unchanged =>
      refine ⟨?_, hkept'⟩
      rw [hkept]
      exact hbuilt.symm
    | rewritten items =>
      refine ⟨?_, fun o ho => ?_⟩
      · rw [← hbuilt.1]
        simp [List.flatMap_map, outputDocs]
      · obtain ⟨item, hitem, rfl⟩ := List.mem_map.mp ho
        exact hbuilt.2 item hitem
  · rw [hout htouched]
    refine ⟨?_, hkept'⟩
    rw [hkept, slotDocs_of_untouched (group_of_untouched hb hM htouched)]

/-- Only a group that has a chunk is evaluated. -/
theorem evaluateGroup_chunk (hb : BuildsOn base input) {i : Nat} {r : GroupResult}
    (h : evaluateGroup N input i = .ok r) : ∃ c, base.chunks[i]? = some c := by
  unfold evaluateGroup at h
  split at h
  next => cases h
  next d hd =>
    rw [hb.descriptors, ChunkedSnapshot.descriptors, List.getElem?_map, Option.map_eq_some_iff] at hd
    obtain ⟨c, hc, -⟩ := hd
    exact ⟨c, hc⟩

/-- The owner of a merge: its documents and the neighbour's, in new items. -/
theorem outputsAt_owner (hb : BuildsOn base input) (hM : M.map = input.mutations)
    {results : List (Nat × GroupResult)}
    (h : evaluateGroups N input (touchedGroups input) = .ok results) {owner neighbor : Nat}
    {items merged : List SplitChunkItem} (hitems : results.lookup owner = some (.rewritten items))
    {nd : SnapshotChunkDescriptor} {docs : List Doc} {side : Facing} {facing : SplitChunkItem}
    (hmerge : FacingMerge N input owner neighbor items merged nd docs side facing)
    {co cn : BaseChunk} (hco : base.chunks[owner]? = some co) (hcn : base.chunks[neighbor]? = some cn)
    (hne : owner ≠ neighbor) :
    (outputsAt (some neighbor) (mergeResults results owner merged) owner
        co.descriptor).flatMap (outputDocs base) =
        combineDocs side (slotDocs base M owner co) (slotDocs base M neighbor cn) ∧
      ∀ o ∈ outputsAt (some neighbor) (mergeResults results owner merged) owner co.descriptor,
        OutputBuilt N base input o := by
  obtain ⟨bytes, hbytes, hsize, hrows, rfl⟩ := hmerge.encoded
  have htouched : owner ∈ touchedGroups input := by
    by_contra hout
    rw [(evaluateGroups_lookup h owner).2 hout] at hitems
    cases hitems
  obtain ⟨r, hlookup, hgroup⟩ := (evaluateGroups_lookup h owner).1 htouched
  rw [hitems, Option.some.injEq] at hlookup
  subst hlookup
  obtain ⟨hflat, hbuilt⟩ := evaluateGroup_ok hb hM hco hgroup
  have hneighbor : slotDocs base M neighbor cn = docs := by
    rw [slotDocs_of_untouched (group_of_untouched hb hM hmerge.untouched)]
    have hdescriptor := hmerge.descriptor
    rw [hb.descriptors, ChunkedSnapshot.descriptor_get hcn, Option.some.injEq] at hdescriptor
    have hloaded := hmerge.loaded
    rw [← hdescriptor] at hloaded
    exact (hb.loaded cn (List.mem_of_getElem? hcn) docs hloaded).symm
  unfold outputsAt
  rw [if_neg fun heq => hne (Option.some.inj heq).symm, lookup_mergeResults, if_pos rfl, hitems]
  refine ⟨?_, fun o ho => ?_⟩
  · show ((replaceFacing side items ⟨combineDocs side facing.docs docs, bytes⟩).map
      ChunkOutput.rewritten).flatMap (outputDocs base) = _
    rw [List.flatMap_map, hneighbor, ← hflat]
    exact flatMap_replaceFacing hmerge.output docs bytes
  · obtain ⟨item, hitem, rfl⟩ := List.mem_map.mp ho
    rcases mem_replaceFacing hitem with rfl | hitem
    · have hfacing : facing ∈ items := by
        have houtput := hmerge.output
        cases side with
        | right => exact List.mem_of_getLast? houtput
        | left => exact List.mem_of_head? houtput
      have hwf : ∀ d ∈ combineDocs side facing.docs docs, d.wf = true := by
        intro d hd
        have hmem : d ∈ facing.docs ∨ d ∈ docs := by
          cases side with
          | right => exact List.mem_append.mp hd
          | left => exact (List.mem_append.mp hd).symm
        rcases hmem with hd | hd
        · exact ((hbuilt facing hfacing).chunkable.documents d hd).1
        · rw [← hneighbor] at hd
          exact effective_wf hb hM ((mem_slotDocs hcn).mp hd).2
      obtain ⟨⟨hchunk, hnonempty, hmax⟩, hbytes', hlimit⟩ := (encodeBuilderChunk_ok hwf).mp hbytes
      refine ⟨hchunk, hnonempty, hmax, hbytes', ?_, Or.inr ⟨hrows, hsize⟩⟩
      show bytes.length ≤ maxChunkBytes
      rw [hbytes']
      exact hlimit
    · exact hbuilt item hitem

/-! ## The whole evaluation -/

/-- The documents of the snapshot under the mutations, sorted by id. -/
def finalDocs (base : ChunkedSnapshot) (M : MutationMap) : List Doc :=
  if base.descriptors = [] then updatedDocs [] (mutationList M.map) else foldedDocs base M

theorem keyed_mutations (M : MutationMap) :
    Keyed ((mutationList M.map).foldl applyMutation (docMapOf [])) :=
  (keyed_docMapOf List.Pairwise.nil).foldl fun m hm => M.named _ m (MutationMap.mem_list.mp hm)

/-- The rows after the fold are the effective ones. -/
theorem mem_finalDocs {d : Doc} : d ∈ finalDocs base M ↔ Effective base M d := by
  unfold finalDocs
  split
  next hnil =>
    have hnone : d ∉ base.docs := by
      rw [ChunkedSnapshot.descriptors, List.map_eq_nil_iff] at hnil
      rw [ChunkedSnapshot.docs, hnil]
      exact List.not_mem_nil
    rw [updatedDocs_eq, mem_sortedDocuments (keyed_mutations M)]
    unfold Effective
    cases hget : M.map.get (idOf d) with
    | none =>
      have hfree : ∀ m ∈ mutationList M.map, m.docId ≠ idOf d := by
        intro m hm heq
        have hm' := MutationMap.mem_list.mp hm
        rw [heq, hget] at hm'
        cases hm'
      rw [get_foldl_of_not_mem hfree]
      exact ⟨fun h => (by cases h), fun h => absurd h hnone⟩
    | some m =>
      have hid : m.docId = idOf d := M.filed _ m hget
      have hmem : m ∈ mutationList M.map := MutationMap.mem_list.mpr (by rw [hid]; exact hget)
      rw [← hid, get_foldl_of_mem M.list_nodup hmem]
  next hne => exact mem_foldedDocs hne

/-- They stand in the order of their ids. -/
theorem finalDocs_increasing (base : ChunkedSnapshot) (M : MutationMap) :
    ((finalDocs base M).map idOf).Pairwise idLt := by
  unfold finalDocs
  split
  · exact sortedDocuments_increasing (keyed_mutations M)
  · exact foldedDocs_increasing base M

/-- What an evaluation is of a snapshot under mutations. -/
structure Evaluated (N : NumberText) (base : ChunkedSnapshot) (input : BuildSnapshotChunksInput)
    (M : MutationMap) (evaluation : SnapshotChunkEvaluation) : Prop where
  built : ∀ o ∈ evaluation.outputs, OutputBuilt N base input o
  documents : evaluation.outputs.flatMap (outputDocs base) = finalDocs base M
  kept : ∀ i c, base.chunks[i]? = some c → i ∉ touchedGroups input →
    evaluation.usedNeighborChunkIndex ≠ some i → .kept c.descriptor ∈ evaluation.outputs

/-- Walking the descriptors is walking the chunks. -/
theorem mapIdx_descriptors (hb : BuildsOn base input)
    (f : Nat → SnapshotChunkDescriptor → List ChunkOutput) :
    input.descriptors.mapIdx f = base.chunks.mapIdx fun i c => f i c.descriptor := by
  rw [hb.descriptors, ChunkedSnapshot.descriptors, List.mapIdx_eq_zipIdx_map, List.zipIdx_map,
    List.map_map, List.mapIdx_eq_zipIdx_map]
  rfl

/-- A chunk that is neither touched nor merged is kept as it is. -/
theorem outputsAt_kept {results : List (Nat × GroupResult)} {used : Option Nat} {i : Nat}
    (hlookup : results.lookup i = none) (hused : used ≠ some i) (d : SnapshotChunkDescriptor) :
    outputsAt used results i d = [.kept d] := by
  unfold outputsAt
  rw [if_neg hused, hlookup]

/-- The neighbour is the chunk next to its owner, on one side or the other. -/
theorem facingSide_eq {owner neighbor count : Nat} {side : Facing}
    (h : facingSide owner neighbor count = some side) :
    match side with
    | .right => neighbor = owner + 1
    | .left => owner = neighbor + 1 := by
  unfold facingSide at h
  split at h
  next heq =>
    cases h
    exact heq
  next =>
    split at h
    next heq =>
      cases h
      exact heq.1.symm
    next => cases h

/-- The outputs of the touched groups with a merge, or without one. -/
theorem outputs_built (hb : BuildsOn base input) (hM : M.map = input.mutations)
    {results results' : List (Nat × GroupResult)} {used : Option Nat}
    (h : evaluateGroups N input (touchedGroups input) = .ok results)
    (hmerge : evaluateMerge N input (touchedGroups input) results = .ok (used, results')) :
    (base.chunks.mapIdx fun i c =>
        (outputsAt used results' i c.descriptor).flatMap (outputDocs base)).flatten =
        foldedDocs base M ∧
      ∀ i c, base.chunks[i]? = some c → ∀ o ∈ outputsAt used results' i c.descriptor,
        OutputBuilt N base input o := by
  rcases evaluateMerge_ok hmerge with ⟨rfl, rfl⟩ |
    ⟨owner, neighbor, items, merged, -, -, hitems, ⟨nd, docs, side, facing, hfacing⟩, rfl, rfl⟩
  · refine ⟨?_, fun i c hc => (outputsAt_unmerged hb hM h hc (by simp)).2⟩
    rw [foldedDocs]
    refine congrArg List.flatten (List.mapIdx_eq_mapIdx_iff.mpr fun i hi => ?_)
    exact (outputsAt_unmerged hb hM h (List.getElem?_eq_getElem hi) (by simp)).1
  · -- the positions of the owner and of the neighbour are next to each other
    have hside := facingSide_eq hfacing.faces
    have hne : owner ≠ neighbor := by
      rintro rfl
      cases side with
      | right => exact absurd hside (by simp)
      | left => exact absurd hside (by simp)
    have htouched : owner ∈ touchedGroups input := by
      by_contra hout
      rw [(evaluateGroups_lookup h owner).2 hout] at hitems
      cases hitems
    obtain ⟨r, -, hgroup⟩ := (evaluateGroups_lookup h owner).1 htouched
    obtain ⟨co, hco⟩ := evaluateGroup_chunk hb hgroup
    obtain ⟨cn, hcn⟩ : ∃ c, base.chunks[neighbor]? = some c := by
      have hdescriptor := hfacing.descriptor
      rw [hb.descriptors, ChunkedSnapshot.descriptors, List.getElem?_map,
        Option.map_eq_some_iff] at hdescriptor
      obtain ⟨c, hc, -⟩ := hdescriptor
      exact ⟨c, hc⟩
    obtain ⟨hflat, hbuilt⟩ := outputsAt_owner hb hM h hitems hfacing hco hcn hne
    -- the neighbour's rows are in the merged item, so its own place is empty
    have hgone : outputsAt (some neighbor) (mergeResults results owner merged) neighbor
        cn.descriptor = [] := by
      unfold outputsAt
      rw [if_pos rfl]
    have helse : ∀ i c, i ≠ owner → i ≠ neighbor →
        outputsAt (some neighbor) (mergeResults results owner merged) i c =
          outputsAt none results i c := by
      intro i c howner hneighbor
      unfold outputsAt
      rw [if_neg fun heq => hneighbor (Option.some.inj heq).symm, if_neg (by simp),
        lookup_mergeResults, if_neg howner]
    -- all other places are as without a merge
    have hother : ∀ i c, base.chunks[i]? = some c → i ≠ owner → i ≠ neighbor →
        (outputsAt (some neighbor) (mergeResults results owner merged) i
          c.descriptor).flatMap (outputDocs base) = slotDocs base M i c := by
      intro i c hc howner hneighbor
      rw [helse i c.descriptor howner hneighbor]
      exact (outputsAt_unmerged hb hM h hc (by simp)).1
    constructor
    · cases side with
      | right =>
        obtain rfl : neighbor = owner + 1 := hside
        refine flatten_mapIdx_pair hco hcn ?_ fun i c hc hi hi' => hother i c hc hi hi'
        rw [hflat, hgone, List.flatMap_nil, List.append_nil]
        rfl
      | left =>
        obtain rfl : owner = neighbor + 1 := hside
        refine flatten_mapIdx_pair hcn hco ?_ fun i c hc hi hi' => hother i c hc hi' hi
        rw [hflat, hgone, List.flatMap_nil, List.nil_append]
        rfl
    · intro i c hc o ho
      by_cases howner : i = owner
      · subst howner
        rw [hco, Option.some.injEq] at hc
        subst hc
        exact hbuilt o ho
      · by_cases hneighbor : i = neighbor
        · subst hneighbor
          rw [hcn, Option.some.injEq] at hc
          subst hc
          rw [hgone] at ho
          cases ho
        · rw [helse i c.descriptor howner hneighbor] at ho
          exact (outputsAt_unmerged hb hM h hc (by simp)).2 o ho

/-- A merge gives no result to a group that had none. -/
theorem lookup_merged {results results' : List (Nat × GroupResult)} {used : Option Nat}
    (hmerge : evaluateMerge N input (touchedGroups input) results = .ok (used, results')) {i : Nat}
    (h : results.lookup i = none) : results'.lookup i = none := by
  rcases evaluateMerge_ok hmerge with ⟨-, rfl⟩ | ⟨owner, -, -, merged, -, -, -, -, -, rfl⟩
  · exact h
  · rw [lookup_mergeResults, h]
    split <;> rfl

/-- **An evaluation holds the effective documents**, sorted, in chunks that are kept or new. -/
theorem evaluate_documents (hb : BuildsOn base input) {evaluation : SnapshotChunkEvaluation}
    (h : evaluateSnapshotChunks N input = .ok evaluation) :
    ∃ M : MutationMap, M.map = input.mutations ∧ Evaluated N base input M evaluation := by
  unfold evaluateSnapshotChunks at h
  obtain ⟨_, _, h⟩ := stop_bind_ok.mp h
  obtain ⟨_, _, h⟩ := stop_bind_ok.mp h
  obtain ⟨_, _, h⟩ := stop_bind_ok.mp h
  obtain ⟨_, hmutations, h⟩ := stop_bind_ok.mp h
  have hassert := throws_ok.mp hmutations
  refine ⟨mutationMapOf hassert, rfl, ?_⟩
  have hM : (mutationMapOf hassert).map = input.mutations := rfl
  split at h
  -- no chunks yet: everything is made of the mutations
  next hnil =>
    have hbase : base.descriptors = [] := hb.descriptors ▸ hnil
    have hchunks : base.chunks = [] := List.map_eq_nil_iff.mp hbase
    have hfinal : finalDocs base (mutationMapOf hassert) =
        updatedDocs [] (mutationList input.mutations) := by
      rw [finalDocs, if_pos hbase, hM]
    have hkept : ∀ (i : Nat) c, base.chunks[i]? = some c → False := by
      intro i c hc
      rw [hchunks] at hc
      cases hc
    unfold evaluateInitialEmptyChunks at h
    dsimp only at h
    rw [← hfinal] at h
    split at h
    next hempty =>
      cases h
      exact ⟨fun o ho => absurd ho List.not_mem_nil, hempty.symm,
        fun i c hc => (hkept i c hc).elim⟩
    next =>
      obtain ⟨items, hitems, h⟩ := stop_bind_ok.mp h
      cases h
      have hwf : ∀ d ∈ finalDocs base (mutationMapOf hassert), d.wf = true := fun d hd =>
        effective_wf hb hM (mem_finalDocs.mp hd)
      obtain ⟨hflat, hbuilt⟩ := splitFrom_ok hwf hitems
      refine ⟨fun o ho => ?_, ?_, fun i c hc => (hkept i c hc).elim⟩
      · obtain ⟨item, hitem, rfl⟩ := List.mem_map.mp ho
        exact hbuilt item hitem
      · show (items.map ChunkOutput.rewritten).flatMap (outputDocs base) = _
        rw [List.flatMap_map]
        exact hflat
  -- chunk by chunk, with at most one merge
  next hne =>
    obtain ⟨results, hresults, h⟩ := stop_bind_ok.mp h
    obtain ⟨⟨used, results'⟩, hmerge, h⟩ := stop_bind_ok.mp h
    replace hmerge := throws_ok.mp hmerge
    cases h
    have hne' : base.descriptors ≠ [] := hb.descriptors ▸ hne
    obtain ⟨hflat, hbuilt⟩ := outputs_built hb hM hresults hmerge
    refine ⟨fun o ho => ?_, ?_, fun i c hc htouched hused => ?_⟩
    · rw [mapIdx_descriptors hb] at ho
      obtain ⟨os, hos, ho⟩ := List.mem_flatten.mp ho
      obtain ⟨i, hi, rfl⟩ := List.mem_mapIdx.mp hos
      exact hbuilt i _ (List.getElem?_eq_getElem hi) o ho
    · show (input.descriptors.mapIdx (outputsAt used results')).flatten.flatMap (outputDocs base) = _
      rw [mapIdx_descriptors hb, flatMap_flatten_mapIdx, hflat, finalDocs, if_neg hne']
    · show ChunkOutput.kept c.descriptor ∈ (input.descriptors.mapIdx (outputsAt used results')).flatten
      rw [mapIdx_descriptors hb]
      obtain ⟨hi, rfl⟩ := List.getElem?_eq_some_iff.mp hc
      refine List.mem_flatten.mpr ⟨_, List.mem_mapIdx.mpr ⟨i, hi, rfl⟩, ?_⟩
      -- neither touched nor merged into: kept
      have hlookup := lookup_merged hmerge ((evaluateGroups_lookup hresults i).2 htouched)
      rw [outputsAt_kept hlookup hused]
      exact List.mem_singleton.mpr rfl

end Build

end Baerly
