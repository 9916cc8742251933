import Baerly.Verify.ChunkMint
import Baerly.Verify.JsonSize

/-
  When the builder returns.

  PROGRAM: `evaluateSnapshotChunks` encodes every run of every group that changed, and the facing run
  of the owner together with the neighbour before it decides whether to merge them.

  SPEC (`evaluate_total_iff`): on valid input it returns exactly when no stored document that a split
  leaves alone is too big for a chunk of its own, and the facing run and the neighbour do not exceed
  the hard limits of a chunk.

  CRUX: the splitter shrinks a run that is over the hard byte limit.  The merge does not decline one:
  the encoder throws first.
-/

namespace Baerly

open Json
open Utf8 (Byte)

/-! ## Valid input -/

/-- What the builder may count on: a stored snapshot with its chunks loaded, a policy within the hard
    limits, and mutations whose post-images can be stored one by one. -/
structure ValidInput (N : NumberText) (base : ChunkedSnapshot) (input : BuildSnapshotChunksInput) :
    Prop extends BuildsOn base input where
  stored : ∀ c ∈ base.chunks, ∃ incarnation bytes,
    encodeBuilderChunk N (builderChunk input.collection incarnation c.docs) = .ok bytes ∧
      c.descriptor.byteLength = bytes.length ∧ c.descriptor.rowCount = c.docs.length
  allLoaded : ∀ c ∈ base.chunks, input.loadedChunks c.descriptor.key = some c.docs
  segment : assertPathSegment input.collection "collection" = .ok ()
  stem : ¬ (input.collectionPrefix = [] ∨ input.collectionPrefix.getLast? = some slash)
  hex : isIncarnation input.incarnation = true
  ingress : assertMutations input.mutations.entries = .ok ()
  encodable : ∀ k m d, input.mutations.get k = some m → m.after? = some d →
    ∃ bytes, encodeBuilderChunk N (builderChunk input.collection input.incarnation [d]) = .ok bytes
  rows : 0 < input.policy.targetRows ∧ input.policy.targetRows ≤ maxChunkRows

section Total

variable {N : NumberText} {base : ChunkedSnapshot} {input : BuildSnapshotChunksInput}

/-- The mutations of valid input. -/
def ValidInput.mutations (h : ValidInput N base input) : MutationMap := mutationMapOf h.ingress

/-- Effective documents are valid; post-images fit a chunk of their own. -/
theorem ValidInput.effective (h : ValidInput N base input) {d : Doc}
    (hd : Effective base h.mutations d) :
    (d.wf = true ∧ IsDocument d) ∧
      (chunkSize N input.collection input.incarnation [d] ≤ maxChunkBytes ∨ d ∈ base.docs) := by
  have hwf : d.wf = true := effective_wf h.toBuildsOn rfl hd
  unfold Effective at hd
  split at hd
  next m hm =>
    obtain ⟨bytes, hbytes⟩ := h.encodable _ m d hm hd
    obtain ⟨⟨hchunk, -, -⟩, -, hsize⟩ := (encodeBuilderChunk_ok (by simpa using hwf)).mp hbytes
    exact ⟨hchunk.documents d List.mem_cons_self, Or.inl hsize⟩
  next =>
    obtain ⟨c, -, hdc⟩ := List.mem_flatMap.mp hd
    exact ⟨⟨hwf, (c.documents d hdc).2.2⟩, Or.inr hd⟩

/-- The documents of a slot can be cut into chunks. -/
theorem ValidInput.chunkable (h : ValidInput N base input) {i : Nat} {c : BaseChunk}
    (hc : base.chunks[i]? = some c) :
    Chunkable input.collection input.incarnation (slotDocs base h.mutations i c) where
  segment := h.segment
  hex := h.hex
  documents _ hd := (h.effective ((mem_slotDocs hc).mp hd).2).1
  increasing := slotDocs_increasing base h.mutations i c

/-- The runs a slot is split into. -/
def slotRuns (N : NumberText) (input : BuildSnapshotChunksInput) (base : ChunkedSnapshot)
    (M : MutationMap) (i : Nat) (c : BaseChunk) : List (List Doc) :=
  splitDocs N input.collection input.incarnation input.policy (slotDocs base M i c)

/-- A stored document that is left alone in a run has a chunk of its own within the hard limit. -/
def LonersFit (N : NumberText) (input : BuildSnapshotChunksInput) (base : ChunkedSnapshot)
    (M : MutationMap) : Prop :=
  ∀ i c, i ∈ touchedGroups input → base.chunks[i]? = some c → slotDocs base M i c ≠ c.docs →
    ∀ d ∈ c.docs, [d] ∈ slotRuns N input base M i c →
      chunkSize N input.collection input.incarnation [d] ≤ maxChunkBytes

/-- Only a run of one stored document can be over the hard limit. -/
theorem ValidInput.runs_fit (h : ValidInput N base input) {i : Nat} {c : BaseChunk}
    (hc : base.chunks[i]? = some c)
    (hloners : ∀ d ∈ c.docs, [d] ∈ slotRuns N input base h.mutations i c →
      chunkSize N input.collection input.incarnation [d] ≤ maxChunkBytes) :
    ∀ b ∈ slotRuns N input base h.mutations i c,
      chunkSize N input.collection input.incarnation b ≤ maxChunkBytes := by
  intro b hb
  obtain ⟨-, hweight, -⟩ := Greedy.mem_blocks h.rows.1 hb
  rcases hweight with hweight | hone
  · exact Nat.le_trans hweight (Nat.min_le_right _ _)
  · obtain ⟨d, rfl⟩ := List.length_eq_one_iff.mp hone
    have hmem : d ∈ slotDocs base h.mutations i c := by
      have hflat := @Greedy.flatten_blocks Doc (chunkSize N input.collection input.incarnation)
        (min input.policy.targetChunkBytes maxChunkBytes) input.policy.targetRows
        (slotDocs base h.mutations i c)
      rw [← hflat]
      exact List.mem_flatten.mpr ⟨[d], hb, List.mem_cons_self⟩
    obtain ⟨hslot, heffective⟩ := (mem_slotDocs hc).mp hmem
    rcases (h.effective heffective).2 with hfits | hstored
    · exact hfits
    · exact hloners d ((base.mem_chunk hc hslot).mp hstored) hb

/-- What a touched group of valid input becomes. -/
theorem ValidInput.evaluateGroup_eq (h : ValidInput N base input) {i : Nat} {c : BaseChunk}
    (hc : base.chunks[i]? = some c) :
    evaluateGroup N input i =
      if slotDocs base h.mutations i c = c.docs then .ok .unchanged
      else if slotDocs base h.mutations i c = [] then .ok (.rewritten [])
      else splitGroupDocsGreedily N (slotDocs base h.mutations i c) input.collection
        input.incarnation input.policy >>= fun items => .ok (.rewritten items) := by
  have hget : input.descriptors[i]? = some c.descriptor := by
    rw [h.descriptors]
    exact ChunkedSnapshot.descriptor_get hc
  have hslot : updatedDocs c.docs ((mutationList input.mutations).filter fun m =>
      m.route input.descriptors = some i) = slotDocs base h.mutations i c := by
    rw [slotDocs, MutationMap.group, h.descriptors]
    rfl
  have hload : throws (getLoadedDocs input.loadedChunks c.descriptor) = .ok c.docs :=
    throws_ok.mpr (getLoadedDocs_ok.mpr (h.allLoaded c (List.mem_of_getElem? hc)))
  unfold evaluateGroup
  rw [hget]
  dsimp only
  rw [hload]
  show (if areDocListsEqual N c.docs (updatedDocs c.docs _) = true then _ else
    if updatedDocs c.docs _ = [] then _ else _) = _
  rw [hslot]
  by_cases hsame : slotDocs base h.mutations i c = c.docs
  · rw [if_pos hsame, if_pos (areDocListsEqual_iff.mpr hsame.symm)]
  · rw [if_neg hsame, if_neg fun heq => hsame (areDocListsEqual_iff.mp heq).symm]

/-- **When a touched group returns**, and with what. -/
theorem ValidInput.evaluateGroup_iff (h : ValidInput N base input) {i : Nat} {c : BaseChunk}
    (hc : base.chunks[i]? = some c) (r : GroupResult) :
    evaluateGroup N input i = .ok r ↔
      (slotDocs base h.mutations i c = c.docs ∧ r = .unchanged) ∨
        (slotDocs base h.mutations i c ≠ c.docs ∧
          (∀ b ∈ slotRuns N input base h.mutations i c,
            chunkSize N input.collection input.incarnation b ≤ maxChunkBytes) ∧
          r = .rewritten ((slotRuns N input base h.mutations i c).map
            (splitItem N input.collection input.incarnation))) := by
  rw [h.evaluateGroup_eq hc]
  by_cases hsame : slotDocs base h.mutations i c = c.docs
  · rw [if_pos hsame, Except.ok.injEq]
    simp [hsame, eq_comm]
  · rw [if_neg hsame]
    by_cases hnil : slotDocs base h.mutations i c = []
    · have hruns : slotRuns N input base h.mutations i c = [] := by
        rw [slotRuns, hnil]
        rfl
      rw [if_pos hnil, Except.ok.injEq, hruns]
      simp [hsame, eq_comm]
    · rw [if_neg hnil, stop_bind_ok]
      constructor
      · rintro ⟨items, hitems, hr⟩
        cases hr
        have hfits := (splitGroupDocsGreedily_iff h.rows.1 h.rows.2 (h.chunkable hc)).mp ⟨_, hitems⟩
        have hsplit := splitGroupDocsGreedily_of_fits h.rows.1 h.rows.2 (h.chunkable hc) hfits
        rw [hsplit, Except.ok.injEq] at hitems
        refine Or.inr ⟨hsame, hfits, ?_⟩
        rw [← hitems]
        rfl
      · rintro (⟨heq, -⟩ | ⟨-, hfits, rfl⟩)
        · exact absurd heq hsame
        · exact ⟨_, splitGroupDocsGreedily_of_fits h.rows.1 h.rows.2 (h.chunkable hc) hfits, rfl⟩

/-- Every touched group has a chunk. -/
theorem ValidInput.touched_chunk (h : ValidInput N base input) (hne : base.descriptors ≠ []) {i : Nat}
    (hi : i ∈ touchedGroups input) : ∃ c, base.chunks[i]? = some c := by
  obtain ⟨m, -, hroute⟩ := List.mem_filterMap.mp (List.mem_eraseDups.mp hi)
  rw [h.descriptors] at hroute
  have hlt : i < base.descriptors.length := by
    rcases route_slot hne m with ⟨j, hj, hlt, -⟩ | ⟨-, hnone, -⟩
    · rw [hj, Option.some.injEq] at hroute
      exact hroute ▸ hlt
    · rw [hnone] at hroute
      cases hroute
  rw [ChunkedSnapshot.descriptors, List.length_map] at hlt
  exact ⟨base.chunks[i], List.getElem?_eq_getElem hlt⟩

/-- All groups evaluate iff each does. -/
theorem evaluateGroups_iff {touched : List Nat} :
    (∃ results, evaluateGroups N input touched = .ok results) ↔
      ∀ i ∈ touched, ∃ r, evaluateGroup N input i = .ok r := by
  induction touched with
  | nil => exact ⟨fun _ i hi => absurd hi List.not_mem_nil, fun _ => ⟨[], rfl⟩⟩
  | cons j touched ih =>
    rw [List.forall_mem_cons, ← ih]
    constructor
    · rintro ⟨results, h⟩
      obtain ⟨r, hr, h⟩ := stop_bind_ok.mp h
      obtain ⟨results', hresults, -⟩ := stop_bind_ok.mp h
      exact ⟨⟨r, hr⟩, results', hresults⟩
    · rintro ⟨⟨r, hr⟩, results, hresults⟩
      exact ⟨_, stop_bind_ok.mpr ⟨r, hr, stop_bind_ok.mpr ⟨results, hresults, rfl⟩⟩⟩

/-- **When the touched groups return.** -/
theorem ValidInput.groups_iff (h : ValidInput N base input) (hne : base.descriptors ≠ []) :
    (∃ results, evaluateGroups N input (touchedGroups input) = .ok results) ↔
      LonersFit N input base h.mutations := by
  rw [evaluateGroups_iff]
  constructor
  · intro hall i c hi hc hchanged d _ hd
    obtain ⟨r, hr⟩ := hall i hi
    rcases (h.evaluateGroup_iff hc r).mp hr with ⟨hsame, -⟩ | ⟨-, hfits, -⟩
    · exact absurd hsame hchanged
    · exact hfits [d] hd
  · intro hloners i hi
    obtain ⟨c, hc⟩ := h.touched_chunk hne hi
    by_cases hsame : slotDocs base h.mutations i c = c.docs
    · exact ⟨_, (h.evaluateGroup_iff hc _).mpr (Or.inl ⟨hsame, rfl⟩)⟩
    · have hfits := h.runs_fit hc (hloners i c hi hc hsame)
      exact ⟨_, (h.evaluateGroup_iff hc _).mpr (Or.inr ⟨hsame, hfits, rfl⟩)⟩

/-! ## The merge -/

/-- The run on a side. -/
def facingRun : Facing → List (List Doc) → Option (List Doc)
  | .right, runs => runs.getLast?
  | .left, runs => runs.head?

/-- The item that faces a neighbour is made of its run. -/
theorem facingOutput_map (side : Facing) (runs : List (List Doc)) (f : List Doc → SplitChunkItem) :
    facingOutput side (runs.map f) = (facingRun side runs).map f := by
  cases side with
  | right => exact List.getLast?_map
  | left => exact List.head?_map

/-- The facing run of a changed owner, if it is underfull, and its untouched neighbour do not exceed
    the hard limits of a chunk together. -/
def MergeFits (N : NumberText) (input : BuildSnapshotChunksInput) (base : ChunkedSnapshot)
    (M : MutationMap) : Prop :=
  ∀ owner neighbor co cn side facing, input.lockedDirectOwnerIndex = some owner →
    input.selectedNeighborIndex = some neighbor → owner ∈ touchedGroups input →
    neighbor ∉ touchedGroups input → base.chunks[owner]? = some co →
    base.chunks[neighbor]? = some cn → slotDocs base M owner co ≠ co.docs →
    facingSide owner neighbor input.descriptors.length = some side →
    facingRun side (slotRuns N input base M owner co) = some facing →
    isUnderfull (chunkSize N input.collection input.incarnation facing) facing.length
      input.policy = true →
    (combineDocs side facing cn.docs).length ≤ maxChunkRows ∧
      chunkSize N input.collection input.incarnation (combineDocs side facing cn.docs) ≤
        maxChunkBytes

/-- That run is part of the rows. -/
theorem facingRun_sublist {side : Facing} {docs facing : List Doc}
    (h : facingRun side (splitDocs N input.collection input.incarnation input.policy docs) =
      some facing) : facing.Sublist docs := by
  have hmem : facing ∈ splitDocs N input.collection input.incarnation input.policy docs := by
    cases side with
    | right => exact List.mem_of_getLast? h
    | left => exact List.mem_of_head? h
  have hflat := @Greedy.flatten_blocks Doc (chunkSize N input.collection input.incarnation)
    (min input.policy.targetChunkBytes maxChunkBytes) input.policy.targetRows docs
  rw [← hflat]
  exact List.sublist_flatten_of_mem hmem

/-- The facing documents and the neighbour's, in order, can be put into one chunk. -/
theorem ValidInput.chunkable_combined (h : ValidInput N base input) {owner neighbor : Nat}
    {co cn : BaseChunk} (hco : base.chunks[owner]? = some co)
    (hcn : base.chunks[neighbor]? = some cn) {side : Facing} {count : Nat}
    (hside : facingSide owner neighbor count = some side) (hout : neighbor ∉ touchedGroups input)
    {facing : List Doc} (hfacing : facing.Sublist (slotDocs base h.mutations owner co)) :
    Chunkable input.collection input.incarnation (combineDocs side facing cn.docs) := by
  have howner := (h.chunkable hco).sublist hfacing
  have hneighbor := h.chunkable hcn
  have hslot : slotDocs base h.mutations neighbor cn = cn.docs :=
    slotDocs_of_untouched (group_of_untouched h.toBuildsOn rfl hout)
  rw [hslot] at hneighbor
  have hlen : ∀ {i : Nat} {c : BaseChunk}, base.chunks[i]? = some c → i < base.descriptors.length :=
    fun hc => (List.getElem?_eq_some_iff.mp (ChunkedSnapshot.descriptor_get hc)).1
  have hslots : ∀ x ∈ facing, Slot base.descriptors owner (idOf x) := fun x hx =>
    ((mem_slotDocs hco).mp (hfacing.subset hx)).1
  have hslotn : ∀ y ∈ cn.docs, Slot base.descriptors neighbor (idOf y) := fun y hy =>
    ((mem_slotDocs hcn).mp (hslot ▸ hy)).1
  have hfaces := facingSide_eq hside
  cases side with
  | right =>
    have hlt : owner < neighbor := by
      rw [show neighbor = owner + 1 from hfaces]
      omega
    refine ⟨h.segment, h.hex, fun d hd => ?_, ?_⟩
    · rcases List.mem_append.mp hd with hd | hd
      · exact howner.documents d hd
      · exact hneighbor.documents d hd
    · show ((facing ++ cn.docs).map idOf).Pairwise idLt
      rw [List.map_append, List.pairwise_append]
      refine ⟨howner.increasing, hneighbor.increasing, fun a ha b hb => ?_⟩
      obtain ⟨x, hx, rfl⟩ := List.mem_map.mp ha
      obtain ⟨y, hy, rfl⟩ := List.mem_map.mp hb
      exact slot_lt base.isOrdered hlt (hlen hcn) (hslots x hx) (hslotn y hy)
  | left =>
    have hlt : neighbor < owner := by
      rw [show owner = neighbor + 1 from hfaces]
      omega
    refine ⟨h.segment, h.hex, fun d hd => ?_, ?_⟩
    · rcases List.mem_append.mp hd with hd | hd
      · exact hneighbor.documents d hd
      · exact howner.documents d hd
    · show ((cn.docs ++ facing).map idOf).Pairwise idLt
      rw [List.map_append, List.pairwise_append]
      refine ⟨hneighbor.increasing, howner.increasing, fun a ha b hb => ?_⟩
      obtain ⟨x, hx, rfl⟩ := List.mem_map.mp ha
      obtain ⟨y, hy, rfl⟩ := List.mem_map.mp hb
      exact slot_lt base.isOrdered hlt (hlen hco) (hslotn x hx) (hslots y hy)

/-- **When the facing merge of a changed owner returns.** -/
theorem ValidInput.applyFacingMerge_iff (h : ValidInput N base input) {owner neighbor : Nat}
    {co : BaseChunk} (hco : base.chunks[owner]? = some co) :
    (∃ r, applyFacingMerge N input owner neighbor (touchedGroups input)
        ((slotRuns N input base h.mutations owner co).map
          (splitItem N input.collection input.incarnation)) = .ok r) ↔
      ∀ cn side facing, neighbor ∉ touchedGroups input → base.chunks[neighbor]? = some cn →
        facingSide owner neighbor input.descriptors.length = some side →
        facingRun side (slotRuns N input base h.mutations owner co) = some facing →
        isUnderfull (chunkSize N input.collection input.incarnation facing) facing.length
          input.policy = true →
        (combineDocs side facing cn.docs).length ≤ maxChunkRows ∧
          chunkSize N input.collection input.incarnation (combineDocs side facing cn.docs) ≤
            maxChunkBytes := by
  have howner : owner < input.descriptors.length := by
    rw [h.descriptors]
    exact (List.getElem?_eq_some_iff.mp (ChunkedSnapshot.descriptor_get hco)).1
  unfold applyFacingMerge
  -- a touched neighbour is never merged with
  by_cases htouched : neighbor ∈ touchedGroups input
  · rw [if_pos (Or.inr htouched)]
    exact ⟨fun _ cn side facing hout => absurd htouched hout, fun _ => ⟨none, rfl⟩⟩
  · rw [if_neg (by rw [not_or]; exact ⟨Nat.not_le.mpr howner, htouched⟩)]
    cases hcn : base.chunks[neighbor]? with
    | none =>
      have hnone : input.descriptors[neighbor]? = none := by
        rw [h.descriptors, ChunkedSnapshot.descriptors, List.getElem?_map, hcn]
        rfl
      rw [hnone]
      exact ⟨fun _ cn side facing _ hsome => (by cases hsome), fun _ => ⟨none, rfl⟩⟩
    | some cn =>
      have hsome : input.descriptors[neighbor]? = some cn.descriptor := by
        rw [h.descriptors]
        exact ChunkedSnapshot.descriptor_get hcn
      rw [hsome]
      cases hside : facingSide owner neighbor input.descriptors.length with
      | none =>
        exact ⟨fun _ cn side facing _ _ hfaces => (by cases hfaces), fun _ => ⟨none, rfl⟩⟩
      | some side =>
        dsimp only
        rw [facingOutput_map]
        cases hfacing : facingRun side (slotRuns N input base h.mutations owner co) with
        | none =>
          refine ⟨fun _ cn' side' facing _ _ hfaces hrun => ?_, fun _ => ⟨none, rfl⟩⟩
          cases hfaces
          rw [hfacing] at hrun
          cases hrun
        | some facing =>
          rw [Option.map_some]
          dsimp only
          -- only an underfull run asks for its neighbour; then the encoder decides
          by_cases hunder : isUnderfull (chunkSize N input.collection input.incarnation facing)
              facing.length input.policy = true
          · have hchunk := h.chunkable_combined hco hcn hside htouched (facingRun_sublist hfacing)
            have hwf : ∀ d ∈ combineDocs side facing cn.docs, d.wf = true := fun d hd =>
              (hchunk.documents d hd).1
            have hne : combineDocs side facing cn.docs ≠ [] := by
              have hcn' := cn.nonempty
              cases side with
              | right => simp [combineDocs, hcn']
              | left => simp [combineDocs, hcn']
            have hload : getLoadedDocs input.loadedChunks cn.descriptor = .ok cn.docs :=
              getLoadedDocs_ok.mpr (h.allLoaded cn (List.mem_of_getElem? hcn))
            rw [if_neg (by
              rw [Bool.not_eq_true', Bool.not_eq_false]
              exact hunder), bind_of_ok hload]
            constructor
            · rintro ⟨r, hr⟩ cn' side' facing' - hcn' hside' hfacing' -
              obtain ⟨bytes, hbytes, -⟩ := except_bind_ok hr
              cases hcn'
              cases hside'
              rw [hfacing] at hfacing'
              cases hfacing'
              obtain ⟨⟨-, -, hrows⟩, -, hsize⟩ := (encodeBuilderChunk_ok hwf).mp hbytes
              exact ⟨hrows, hsize⟩
            · intro hfits
              obtain ⟨hrows, hsize⟩ := hfits cn side facing htouched rfl rfl hfacing hunder
              have hbytes := (encodeBuilderChunk_ok hwf).mpr ⟨⟨hchunk, hne, hrows⟩, rfl, hsize⟩
              show ∃ r, (encodeBuilderChunk N (builderChunk input.collection input.incarnation
                (combineDocs side facing cn.docs)) >>= _) = .ok r
              rw [bind_of_ok hbytes]
              split
              · exact ⟨none, rfl⟩
              · exact ⟨_, rfl⟩
          · rw [if_pos (by
              rw [Bool.not_eq_true', ← Bool.not_eq_true]
              exact hunder)]
            refine ⟨fun _ cn' side' facing' _ _ hside' hfacing' hunder' => ?_, fun _ => ⟨none, rfl⟩⟩
            cases hside'
            rw [hfacing] at hfacing'
            cases hfacing'
            exact absurd hunder' hunder

/-- **When the merge phase returns.** -/
theorem ValidInput.merge_iff (h : ValidInput N base input) (hne : base.descriptors ≠ [])
    {results : List (Nat × GroupResult)}
    (hresults : evaluateGroups N input (touchedGroups input) = .ok results) :
    (∃ r, evaluateMerge N input (touchedGroups input) results = .ok r) ↔
      MergeFits N input base h.mutations := by
  unfold evaluateMerge MergeFits
  cases howner : input.lockedDirectOwnerIndex with
  | none => exact ⟨fun _ owner neighbor co cn side facing hlocked => (by cases hlocked),
      fun _ => ⟨_, rfl⟩⟩
  | some owner =>
    cases hneighbor : input.selectedNeighborIndex with
    | none => exact ⟨fun _ owner neighbor co cn side facing _ hselected => (by cases hselected),
        fun _ => ⟨_, rfl⟩⟩
    | some neighbor =>
      dsimp only
      obtain ⟨hin, hout⟩ := evaluateGroups_lookup hresults owner
      by_cases htouched : owner ∈ touchedGroups input
      · obtain ⟨r, hlookup, hgroup⟩ := hin htouched
        obtain ⟨co, hco⟩ := h.touched_chunk hne htouched
        rw [hlookup]
        rcases (h.evaluateGroup_iff hco r).mp hgroup with ⟨hsame, rfl⟩ | ⟨hchanged, -, rfl⟩
        · refine ⟨fun _ owner' neighbor' co' cn side facing hlocked _ _ _ hco' _ hchanged => ?_,
            fun _ => ⟨_, rfl⟩⟩
          cases hlocked
          rw [hco, Option.some.injEq] at hco'
          exact absurd (hco' ▸ hsame) hchanged
        · have happly := @ValidInput.applyFacingMerge_iff N base input h owner neighbor co hco
          constructor
          · rintro ⟨merged, hmerged⟩ owner' neighbor' co' cn side facing hlocked hselected _ hout'
              hco' hcn _ hside hfacing hunder
            cases hlocked
            cases hselected
            rw [hco, Option.some.injEq] at hco'
            subst hco'
            obtain ⟨r, hr, -⟩ := except_bind_ok hmerged
            exact happly.mp ⟨r, hr⟩ cn side facing hout' hcn hside hfacing hunder
          · intro hfits
            obtain ⟨r, hr⟩ := happly.mpr fun cn side facing hout' hcn hside hfacing hunder =>
              hfits owner neighbor co cn side facing rfl rfl htouched hout' hco hcn hchanged hside
                hfacing hunder
            show ∃ r, (applyFacingMerge N input owner neighbor (touchedGroups input) _ >>= _) = .ok r
            rw [bind_of_ok hr]
            cases r with
            | none => exact ⟨_, rfl⟩
            | some merged => exact ⟨_, rfl⟩
      · rw [hout htouched]
        refine ⟨fun _ owner' neighbor' co' cn side facing hlocked _ htouched' => ?_,
          fun _ => ⟨_, rfl⟩⟩
        cases hlocked
        exact absurd htouched' htouched

/-! ## The whole evaluation -/

/-- Without a snapshot every document is a post-image, and fits. -/
theorem ValidInput.initial (h : ValidInput N base input) (hnil : base.descriptors = []) :
    ∃ evaluation, evaluateInitialEmptyChunks N input = .ok evaluation := by
  have hfinal : finalDocs base h.mutations = updatedDocs [] (mutationList input.mutations) := by
    rw [finalDocs, if_pos hnil]
    rfl
  have hchunks : base.chunks = [] := List.map_eq_nil_iff.mp hnil
  have hchunk : Chunkable input.collection input.incarnation (finalDocs base h.mutations) :=
    ⟨h.segment, h.hex, fun d hd => (h.effective (mem_finalDocs.mp hd)).1,
      finalDocs_increasing base h.mutations⟩
  unfold evaluateInitialEmptyChunks
  dsimp only
  rw [← hfinal]
  split
  · exact ⟨_, rfl⟩
  · have hfits : ∀ b ∈ splitDocs N input.collection input.incarnation input.policy
        (finalDocs base h.mutations),
        chunkSize N input.collection input.incarnation b ≤ maxChunkBytes := by
      intro b hb
      obtain ⟨-, hweight, -⟩ := Greedy.mem_blocks h.rows.1 hb
      rcases hweight with hweight | hone
      · exact Nat.le_trans hweight (Nat.min_le_right _ _)
      · obtain ⟨d, rfl⟩ := List.length_eq_one_iff.mp hone
        have hflat := @Greedy.flatten_blocks Doc (chunkSize N input.collection input.incarnation)
          (min input.policy.targetChunkBytes maxChunkBytes) input.policy.targetRows
          (finalDocs base h.mutations)
        have hmem : d ∈ finalDocs base h.mutations := by
          rw [← hflat]
          exact List.mem_flatten.mpr ⟨[d], hb, List.mem_cons_self⟩
        rcases (h.effective (mem_finalDocs.mp hmem)).2 with hsize | hstored
        · exact hsize
        · rw [ChunkedSnapshot.docs, hchunks] at hstored
          cases hstored
    have hsplit := splitGroupDocsGreedily_of_fits h.rows.1 h.rows.2 hchunk hfits
    exact ⟨_, stop_bind_ok.mpr ⟨_, hsplit, rfl⟩⟩

/-- **An evaluation returns** iff lone rows fit and so does the merge. -/
theorem ValidInput.returns_iff (h : ValidInput N base input) :
    (∃ evaluation, evaluateSnapshotChunks N input = .ok evaluation) ↔
      (LonersFit N input base h.mutations ∧ MergeFits N input base h.mutations) := by
  have hcollection : input.collection ≠ [] := by
    intro hnil
    have hsegment := h.segment
    rw [hnil] at hsegment
    cases hsegment
  have hevaluate : evaluateSnapshotChunks N input =
      if input.descriptors = [] then evaluateInitialEmptyChunks N input
      else evaluateGroups N input (touchedGroups input) >>= fun results =>
        throws (evaluateMerge N input (touchedGroups input) results) >>= fun merged =>
        .ok { splitIncrements := (results.map fun r => r.2.splitIncrements).sum
              usedNeighborChunkIndex := merged.1
              outputs := (input.descriptors.mapIdx (outputsAt merged.1 merged.2)).flatten } := by
    unfold evaluateSnapshotChunks
    rw [throws_ok.mpr (check_ok (u := ()).mpr hcollection),
      throws_ok.mpr (check_ok (u := ()).mpr h.stem),
      throws_ok.mpr (check_ok (u := ()).mpr h.hex), throws_ok.mpr h.ingress]
    rfl
  rw [hevaluate]
  by_cases hnil : input.descriptors = []
  · have hbase : base.descriptors = [] := h.descriptors ▸ hnil
    have hchunks : base.chunks = [] := List.map_eq_nil_iff.mp hbase
    rw [if_pos hnil]
    refine ⟨fun _ => ⟨fun i c _ hc => ?_, fun owner neighbor co cn side facing _ _ _ _ hco => ?_⟩,
      fun _ => h.initial hbase⟩
    · rw [hchunks] at hc
      cases hc
    · rw [hchunks] at hco
      cases hco
  · have hne : base.descriptors ≠ [] := h.descriptors ▸ hnil
    rw [if_neg hnil, ← h.groups_iff hne]
    constructor
    · rintro ⟨evaluation, hev⟩
      obtain ⟨results, hresults, hev⟩ := stop_bind_ok.mp hev
      obtain ⟨merged, hmerged, -⟩ := stop_bind_ok.mp hev
      exact ⟨⟨results, hresults⟩, (h.merge_iff hne hresults).mp ⟨merged, throws_ok.mp hmerged⟩⟩
    · rintro ⟨⟨results, hresults⟩, hfits⟩
      obtain ⟨merged, hmerged⟩ := (h.merge_iff hne hresults).mpr hfits
      exact ⟨_, stop_bind_ok.mpr ⟨results, hresults,
        stop_bind_ok.mpr ⟨merged, throws_ok.mpr hmerged, rfl⟩⟩⟩

/-- **The builder returns exactly when everything it has to encode fits a chunk.** -/
theorem evaluate_total_iff (N : NumberText) (base : ChunkedSnapshot)
    (input : BuildSnapshotChunksInput) (h : ValidInput N base input) :
    (∃ evaluation, evaluateSnapshotChunks N input = .ok evaluation) ↔
      (LonersFit N input base h.mutations ∧ MergeFits N input base h.mutations) :=
  h.returns_iff

/-- The insert beside a stored pair is a valid input. -/
theorem insertBeside_valid : ValidInput integerText storedPair insertBeside where
  toBuildsOn := insertBeside_buildsOn
  stored c hc := by
    rcases List.mem_cons.mp hc with rfl | hc
    · refine ⟨zeroIncarnation, bareBytes ["a"], ?_⟩
      show encodeBuilderChunk integerText (builderChunk (js "notes") zeroIncarnation [bareDoc "a"]) =
        .ok (bareBytes ["a"]) ∧ 140 = (bareBytes ["a"]).length ∧ 1 = 1
      decide +kernel
    · rw [List.mem_singleton.mp hc]
      refine ⟨zeroIncarnation, bareBytes ["c"], ?_⟩
      show encodeBuilderChunk integerText (builderChunk (js "notes") zeroIncarnation [bareDoc "c"]) =
        .ok (bareBytes ["c"]) ∧ 140 = (bareBytes ["c"]).length ∧ 1 = 1
      decide +kernel
  allLoaded := pairDocs_loaded
  segment := by decide +kernel
  stem := by decide +kernel
  hex := by decide +kernel
  ingress := by decide +kernel
  encodable k m d hk hd := by
    rw [insertBeside_mutation hk] at hd
    cases hd
    refine ⟨bareBytes ["x"], ?_⟩
    show encodeBuilderChunk integerText (builderChunk (js "notes") zeroIncarnation [bareDoc "x"]) = _
    decide +kernel
  rows := by decide

/-- Two stored chunks and one insert. -/
theorem evaluate_total_iff_insert :
    (∃ evaluation, evaluateSnapshotChunks integerText insertBeside = .ok evaluation) ↔
      (LonersFit integerText insertBeside storedPair insertBeside_valid.mutations ∧
        MergeFits integerText insertBeside storedPair insertBeside_valid.mutations) :=
  evaluate_total_iff integerText storedPair insertBeside insertBeside_valid

end Total

/-! ## A neighbour that takes a whole chunk -/

/-- The bytes of a chunk in canonical form. -/
theorem chunkSize_eq {N : NumberText} {collection incarnation : JsString} {docs : List Doc}
    (h : ∀ d ∈ docs, canonicalForm d = d) : chunkSize N collection incarnation docs =
      memberSize N (js "schema_version", schemaVersion) +
      memberSize N (js "collection", .str collection) +
      memberSize N (js "incarnation", .str incarnation) +
      memberSize N (js "first_id", .str (idOf (docs.headD .null))) +
      memberSize N (js "last_id", .str (idOf (docs.getLastD .null))) +
      textSize (JSON.quote (js "docs")) + jsonSize N (.arr docs) + 8 := by
  have hdocs : docs.map canonicalForm = docs := by
    rw [List.map_congr_left h, List.map_id']
  show jsonSize N (.obj _) = _
  rw [jsonSize_obj, storedChunk, hdocs]
  simp only [List.map_cons, List.map_nil, List.sum_cons, List.sum_nil, List.length_cons,
    List.length_nil]
  rw [show memberSize N (js "docs", Json.arr docs) =
    textSize (JSON.quote (js "docs")) + 1 + jsonSize N (.arr docs) from rfl]
  omega


/-- Letters are written as they are. -/
theorem escape_letters (n : Nat) : JSON.escape (List.replicate n 97) = List.replicate n 97 := by
  induction n with
  | zero => rfl
  | succ n ih =>
    cases n with
    | zero => rfl
    | succ n =>
      have hstep : JSON.escape (List.replicate (n + 2) 97) =
          97 :: JSON.escape (List.replicate (n + 1) 97) := rfl
      rw [hstep, ih]
      rfl

/-- One byte each. -/
theorem textSize_letters (n : Nat) : textSize (List.replicate n 97) = n := by
  induction n with
  | zero => rfl
  | succ n ih =>
    rw [List.replicate_succ, textSize_cons (by decide), ih]
    omega

/-- The document `c` with `n` letters. -/
def paddedDoc (n : Nat) : Doc :=
  .obj [(js "_id", .str (js "c")), (js "pad", .str (List.replicate n 97))]

/-- The size of a padded row. -/
theorem jsonSize_paddedDoc (n : Nat) : jsonSize integerText (paddedDoc n) = n + 20 := by
  have hid : memberSize integerText (js "_id", .str (js "c")) = 9 := by decide +kernel
  have hpad : memberSize integerText (js "pad", .str (List.replicate n 97)) = n + 8 := by
    show textSize (JSON.quote (js "pad")) + 1 + textSize (34 :: (JSON.escape _ ++ [34])) = _
    rw [textSize_cons (by decide), textSize_append (by decide), escape_letters, textSize_letters,
      show textSize (JSON.quote (js "pad")) = 5 from by decide +kernel, textSize_nil]
    omega
  rw [paddedDoc, jsonSize_obj]
  simp only [List.map_cons, List.map_nil, List.sum_cons, List.sum_nil, hid, hpad, List.length_cons,
    List.length_nil]
  omega

/-- Which is canonical. -/
theorem canonicalForm_paddedDoc (n : Nat) : canonicalForm (paddedDoc n) = paddedDoc n := by
  have hle : canonicalLe (js "_id") (js "pad") = true := by decide +kernel
  rw [paddedDoc, canonicalForm_obj]
  show Json.obj (List.insertionSort _ [(js "_id", _), (js "pad", _)]) = _
  rw [List.insertionSort_cons, List.insertionSort_cons, List.insertionSort_nil,
    List.orderedInsert_nil, List.orderedInsert_cons, if_pos hle]
  rfl

theorem paddedDoc_isDocument (n : Nat) : IsDocument (paddedDoc n) :=
  ⟨⟨_, rfl⟩, rfl, js "c", rfl, by decide +kernel⟩

/-- The chunk of `a`. -/
def lightChunk : BaseChunk where
  descriptor := ⟨js "a", js "a", chunkKey (List.replicate 64 97), 140, 1⟩
  docs := [bareDoc "a"]
  documents d hd := by
    rw [List.mem_singleton.mp hd]
    exact ⟨by decide +kernel, by decide +kernel, ⟨_, rfl⟩, by decide +kernel, js "a", rfl,
      by decide +kernel⟩
  increasing := List.pairwise_singleton _ _
  nonempty := List.cons_ne_nil _ _
  first := rfl
  last := rfl

/-- A chunk of one document that takes all the bytes a chunk may take. -/
def fullChunk : BaseChunk where
  descriptor := ⟨js "c", js "c", chunkKey (List.replicate 64 98), 1048576, 1⟩
  docs := [paddedDoc 1048427]
  documents d hd := by
    rw [List.mem_singleton.mp hd]
    exact ⟨rfl, canonicalForm_paddedDoc _, paddedDoc_isDocument _⟩
  increasing := List.pairwise_singleton _ _
  nonempty := List.cons_ne_nil _ _
  first := rfl
  last := rfl

/-- A light chunk beside a full one. -/
def lightAndFull : ChunkedSnapshot where
  chunks := [lightChunk, fullChunk]
  ordered := by
    show rangesIncrease [lightChunk.descriptor, fullChunk.descriptor] = true
    decide +kernel
  keys := by
    show [lightChunk.descriptor.key, fullChunk.descriptor.key].Nodup
    decide +kernel

/-- The insert of `b` beside `a`, with the full chunk as the neighbour. -/
def insertBesideFull : BuildSnapshotChunksInput where
  collection := js "notes"
  collectionPrefix := js "app/notes"
  descriptors := lightAndFull.descriptors
  loadedChunks key :=
    if key = lightChunk.descriptor.key then some lightChunk.docs
    else if key = fullChunk.descriptor.key then some fullChunk.docs else none
  mutations := InsMap.empty.set (js "b") (.insert (js "b") (bareDoc "b"))
  incarnation := zeroIncarnation
  policy := ⟨1048576, 4096⟩
  lockedDirectOwnerIndex := some 0
  selectedNeighborIndex := some 1

/-- The size of the two together. -/
theorem chunkSize_besideFull (n : Nat) : chunkSize integerText (js "notes") zeroIncarnation
    [bareDoc "a", bareDoc "b", paddedDoc n] = n + 173 := by
  have h : ∀ d ∈ [bareDoc "a", bareDoc "b", paddedDoc n], canonicalForm d = d := by
    simp only [List.forall_mem_cons, List.not_mem_nil, false_implies, implies_true, and_true]
    exact ⟨by decide +kernel, by decide +kernel, canonicalForm_paddedDoc n⟩
  have hrest : memberSize integerText (js "schema_version", schemaVersion) +
      memberSize integerText (js "collection", .str (js "notes")) +
      memberSize integerText (js "incarnation", .str zeroIncarnation) +
      memberSize integerText (js "first_id", .str (js "a")) +
      memberSize integerText (js "last_id", .str (js "c")) +
      textSize (JSON.quote (js "docs")) + jsonSize integerText (bareDoc "a") +
      jsonSize integerText (bareDoc "b") = 141 := by
    decide +kernel
  rw [chunkSize_eq h, jsonSize_arr]
  simp only [List.map_cons, List.map_nil, List.sum_cons, List.sum_nil, jsonSize_paddedDoc,
    List.length_cons, List.length_nil]
  change _ + memberSize integerText (js "first_id", .str (js "a")) +
    memberSize integerText (js "last_id", .str (js "c")) + _ + _ + _ = _
  omega

/-- The size of the full one alone. -/
theorem chunkSize_padded (n : Nat) :
    chunkSize integerText (js "notes") zeroIncarnation [paddedDoc n] = n + 149 := by
  have h : ∀ d ∈ [paddedDoc n], canonicalForm d = d := fun d hd => by
    rw [List.mem_singleton.mp hd, canonicalForm_paddedDoc]
  rw [chunkSize_eq h, jsonSize_arr]
  simp only [List.map_cons, List.map_nil, List.sum_cons, List.sum_nil, jsonSize_paddedDoc,
    List.length_cons, List.length_nil]
  have hrest : memberSize integerText (js "schema_version", schemaVersion) +
      memberSize integerText (js "collection", .str (js "notes")) +
      memberSize integerText (js "incarnation", .str zeroIncarnation) +
      memberSize integerText (js "first_id", .str (idOf ([paddedDoc n].headD .null))) +
      memberSize integerText (js "last_id", .str (idOf ([paddedDoc n].getLastD .null))) +
      textSize (JSON.quote (js "docs")) = 119 := by
    show memberSize integerText (js "schema_version", schemaVersion) +
      memberSize integerText (js "collection", .str (js "notes")) +
      memberSize integerText (js "incarnation", .str zeroIncarnation) +
      memberSize integerText (js "first_id", .str (js "c")) +
      memberSize integerText (js "last_id", .str (js "c")) +
      textSize (JSON.quote (js "docs")) = 119
    decide +kernel
  omega

/-- Both chunks are loaded. -/
theorem insertBesideFull_loaded {c : BaseChunk} (hc : c ∈ lightAndFull.chunks) :
    insertBesideFull.loadedChunks c.descriptor.key = some c.docs := by
  have hne : fullChunk.descriptor.key ≠ lightChunk.descriptor.key := by decide +kernel
  unfold insertBesideFull
  dsimp only
  rcases List.mem_cons.mp hc with rfl | hc
  · rw [if_pos rfl]
  · rw [List.mem_singleton.mp hc, if_neg hne, if_pos rfl]

/-- The insert beside them is a valid input. -/
theorem insertBesideFull_valid : ValidInput integerText lightAndFull insertBesideFull where
  descriptors := rfl
  loaded c hc docs hdocs := by
    rw [insertBesideFull_loaded hc, Option.some.injEq] at hdocs
    exact hdocs.symm
  wf k m d hk hd := by
    have hentry : (k, m) ∈ [(js "b", ReferenceMutation.insert (js "b") (bareDoc "b"))] :=
      InsMap.mem_entries.mpr hk
    cases List.mem_singleton.mp hentry
    cases hd
    decide
  stored c hc := by
    have hwf : ∀ d ∈ c.docs, d.wf = true := fun d hd => (c.documents d hd).1
    have hsegment : assertPathSegment (js "notes") "collection" = .ok () := by decide +kernel
    have hhex : isIncarnation zeroIncarnation = true := by decide +kernel
    have hchunk : Chunkable (js "notes") zeroIncarnation c.docs :=
      ⟨hsegment, hhex, fun d hd => ⟨hwf d hd, (c.documents d hd).2.2⟩, c.increasing⟩
    have hsize : c.descriptor.byteLength = chunkSize integerText (js "notes") zeroIncarnation c.docs ∧
        c.docs.length = 1 ∧ c.descriptor.rowCount = 1 ∧ c.descriptor.byteLength ≤ maxChunkBytes := by
      rcases List.mem_cons.mp hc with rfl | hc
      · exact ⟨by decide +kernel, rfl, rfl, by decide +kernel⟩
      · rw [List.mem_singleton.mp hc]
        exact ⟨(chunkSize_padded 1048427).symm, rfl, rfl, by decide +kernel⟩
    obtain ⟨hbytes, hrows, hcount, hmax⟩ := hsize
    refine ⟨zeroIncarnation, _, (encodeBuilderChunk_ok hwf).mpr
      ⟨⟨hchunk, c.nonempty, ?_⟩, rfl, hbytes ▸ hmax⟩, hbytes, hcount.trans hrows.symm⟩
    rw [hrows]
    decide
  allLoaded _ hc := insertBesideFull_loaded hc
  segment := by decide +kernel
  stem := by decide +kernel
  hex := by decide +kernel
  ingress := by decide +kernel
  encodable k m d hk hd := by
    have hentry : (k, m) ∈ [(js "b", ReferenceMutation.insert (js "b") (bareDoc "b"))] :=
      InsMap.mem_entries.mpr hk
    cases List.mem_singleton.mp hentry
    cases hd
    refine ⟨chunkBytes integerText (js "notes") zeroIncarnation [bareDoc "b"], ?_⟩
    show encodeBuilderChunk integerText (builderChunk (js "notes") zeroIncarnation [bareDoc "b"]) = _
    decide +kernel
  rows := by decide


/-- It leaves one run that is underfull, so that a merge is tried. -/
theorem insertBesideFull_run :
    slotDocs lightAndFull insertBesideFull_valid.mutations 0 lightChunk =
        [bareDoc "a", bareDoc "b"] ∧
      slotRuns integerText insertBesideFull lightAndFull insertBesideFull_valid.mutations 0
        lightChunk = [[bareDoc "a", bareDoc "b"]] ∧
      touchedGroups insertBesideFull = [0] ∧
      isUnderfull (chunkSize integerText (js "notes") zeroIncarnation [bareDoc "a", bareDoc "b"]) 2
        ⟨1048576, 4096⟩ = true := by
  refine ⟨by decide +kernel, by decide +kernel, by decide +kernel, by decide +kernel⟩

/-- The facing run and the full neighbour exceed a chunk: the encoder throws where the merge should
    be declined. -/
theorem full_neighbor_throws : ¬ ∀ (N : NumberText) (base : ChunkedSnapshot)
    (input : BuildSnapshotChunksInput), ValidInput N base input →
    ∃ evaluation, evaluateSnapshotChunks N input = .ok evaluation := by
  intro h
  obtain ⟨-, hmerge⟩ :=
    insertBesideFull_valid.returns_iff.mp (h integerText _ _ insertBesideFull_valid)
  obtain ⟨hslot, hruns, htouched, hunder⟩ := insertBesideFull_run
  have hchanged : slotDocs lightAndFull insertBesideFull_valid.mutations 0 lightChunk ≠
      lightChunk.docs := by
    rw [hslot]
    decide +kernel
  obtain ⟨-, hsize⟩ := hmerge 0 1 lightChunk fullChunk .right [bareDoc "a", bareDoc "b"] rfl rfl
    (by rw [htouched]; decide) (by rw [htouched]; decide) rfl rfl hchanged rfl
    (by rw [hruns]; rfl) hunder
  change chunkSize integerText (js "notes") zeroIncarnation
    [bareDoc "a", bareDoc "b", paddedDoc 1048427] ≤ maxChunkBytes at hsize
  rw [chunkSize_besideFull] at hsize
  exact absurd hsize (by decide)

end Baerly
