import Baerly.Verify.ChunkBuilder

/-
  The descriptors an evaluation is minted into.

  PROGRAM: `mint` keeps the descriptors of the kept chunks and makes one for every new chunk, under a
  key that holds the digest of its bytes.

  SPEC (`minted_valid_iff`): the descriptors are what the manifest codec asks of a list of chunks:
  in order, exact, with distinct keys, and new chunks within the targets.

  CRUX: the key builder takes any collection prefix; the key grammar takes none with a line
  terminator.  Under such a prefix every new chunk gets a key that no manifest may hold.
-/

namespace Baerly

open Json
open Utf8 (Byte)

/-! ## Bodies -/

/-- The documents in the body of a chunk. -/
def bodyDocs (N : NumberText) (bytes : List Byte) : List Doc :=
  match (decodeJsonBytes N bytes).bind fun v => v.member (js "docs") with
  | some (.arr docs) => docs
  | _ => []

section Bodies

variable {N : NumberText} {collection incarnation : JsString} {policy : SnapshotChunkBoundaryPolicy}

theorem bodyDocs_toJson {c : SnapshotChunk} (h : rearrange objectOf c.toJson = c.toJson) :
    bodyDocs N (encodeJsonBytes N c.toJson) = c.docs := by
  unfold bodyDocs
  rw [show decodeJsonBytes N (encodeJsonBytes N c.toJson) = some c.toJson from
    decodeJsonBytes_encode h]
  rfl

/-- What the codec makes of the documents of an item. -/
theorem IsItem.isChunk {item : SplitChunkItem} (h : IsItem N collection incarnation policy item) :
    IsChunk .invalidConfig (builderChunk collection incarnation item.docs).toJson
      (storedChunk collection incarnation item.docs) :=
  (isChunk_builderChunk fun d hd => (h.chunkable.documents d hd).1).mpr
    ⟨⟨h.chunkable, h.nonempty, h.rows⟩, rfl⟩

theorem IsItem.bodyDocs {item : SplitChunkItem} (h : IsItem N collection incarnation policy item) :
    bodyDocs N item.bytes = item.docs.map canonicalForm := by
  have hwf : ∀ d ∈ item.docs, d.wf = true := fun d hd => (h.chunkable.documents d hd).1
  rw [h.bytes]
  exact bodyDocs_toJson (h.isChunk.built (builderChunk_wf hwf))

theorem decoded_bodyDocs {snapshotHash : List Byte → JsString} {bytes : List Byte} {key : Key}
    {d : SnapshotChunkDescriptor} {c : SnapshotChunk}
    (h : decodeSnapshotChunk N snapshotHash bytes key collection d = .ok c) :
    bodyDocs N bytes = c.docs := by
  have hdecodes := decodeSnapshotChunk_ok.mp h
  obtain ⟨v, hv, hchunk⟩ := hdecodes.parsed
  rw [hdecodes.canonical]
  exact bodyDocs_toJson (hchunk.built (decodeJsonBytes_wf hv))

end Bodies

/-! ## Minting -/

section Mint

variable {snapshotHash : List Byte → JsString} {collectionPrefix incarnation : JsString}

/-- The key of a new chunk. -/
def mintedKey (snapshotHash : List Byte → JsString) (collectionPrefix incarnation : JsString)
    (item : SplitChunkItem) : Key :=
  artifactKeyText .chunk collectionPrefix incarnation (snapshotHash item.bytes)

/-- The descriptor of an output. -/
def mintedDescriptor (snapshotHash : List Byte → JsString) (collectionPrefix incarnation : JsString) :
    ChunkOutput → SnapshotChunkDescriptor
  | .kept d => d
  | .rewritten item =>
    { firstId := idOf (item.docs.headD .null)
      lastId := idOf (item.docs.getLastD .null)
      key := mintedKey snapshotHash collectionPrefix incarnation item
      byteLength := item.bytes.length
      rowCount := item.docs.length }

/-- The new chunk of an output. -/
def mintedChunk (snapshotHash : List Byte → JsString) (collectionPrefix incarnation : JsString) :
    ChunkOutput → Option EncodedChunkOutput
  | .kept _ => none
  | .rewritten item => some
    ⟨mintedDescriptor snapshotHash collectionPrefix incarnation (.rewritten item), item.bytes⟩

theorem artifactKey_text {kind : ArtifactKind} {fail : CodecFail} {digest : JsString} {key : Key}
    (h : artifactKey kind fail collectionPrefix incarnation digest = .ok key) :
    key = artifactKeyText kind collectionPrefix incarnation digest := by
  unfold artifactKey at h
  obtain ⟨_, _, h⟩ := except_bind_ok h
  obtain ⟨_, _, h⟩ := except_bind_ok h
  obtain ⟨_, _, h⟩ := except_bind_ok h
  obtain ⟨_, _, h⟩ := except_bind_ok h
  exact (Except.ok.inj h).symm

/-- **What `mint` makes of the outputs.** -/
theorem mintOutputs_ok {outputs : List ChunkOutput} {chunks : List SnapshotChunkDescriptor}
    {changed : List EncodedChunkOutput}
    (h : mintOutputs snapshotHash collectionPrefix incarnation outputs = .ok (chunks, changed)) :
    chunks = outputs.map (mintedDescriptor snapshotHash collectionPrefix incarnation) ∧
      changed = outputs.filterMap (mintedChunk snapshotHash collectionPrefix incarnation) ∧
      ∀ item, .rewritten item ∈ outputs →
        snapshotChunkKey collectionPrefix incarnation (snapshotHash item.bytes) =
          .ok (mintedKey snapshotHash collectionPrefix incarnation item) := by
  induction outputs generalizing chunks changed with
  | nil =>
    cases h
    exact ⟨rfl, rfl, fun item hitem => absurd hitem List.not_mem_nil⟩
  | cons o outputs ih =>
    cases o with
    | kept d =>
      rw [mintOutputs] at h
      obtain ⟨⟨chunks', changed'⟩, hrest, h⟩ := except_bind_ok h
      cases h
      obtain ⟨hchunks, hchanged, hkeys⟩ := ih hrest
      refine ⟨by rw [hchunks]; rfl, by rw [hchanged]; rfl, fun item hitem => hkeys item ?_⟩
      simpa using hitem
    | rewritten item =>
      rw [mintOutputs] at h
      obtain ⟨output, houtput, h⟩ := except_bind_ok h
      obtain ⟨⟨chunks', changed'⟩, hrest, h⟩ := except_bind_ok h
      cases h
      obtain ⟨hchunks, hchanged, hkeys⟩ := ih hrest
      unfold chunkOutput at houtput
      obtain ⟨key, hkey, houtput⟩ := except_bind_ok houtput
      cases houtput
      have htext : key = mintedKey snapshotHash collectionPrefix incarnation item :=
        artifactKey_text hkey
      subst htext
      refine ⟨by rw [hchunks]; rfl, by rw [hchanged]; rfl, fun item' hitem' => ?_⟩
      rcases List.mem_cons.mp hitem' with heq | hitem'
      · cases heq
        exact hkey
      · exact hkeys item' hitem'

theorem mint_ok {evaluation : SnapshotChunkEvaluation} {build : SnapshotChunkBuildResult}
    (h : evaluation.mint snapshotHash collectionPrefix incarnation = .ok build) :
    mintOutputs snapshotHash collectionPrefix incarnation evaluation.outputs =
        .ok (build.chunks, build.changedChunks) ∧
      build.splitIncrements = evaluation.splitIncrements ∧
      build.usedNeighborChunkIndex = evaluation.usedNeighborChunkIndex := by
  unfold SnapshotChunkEvaluation.mint at h
  obtain ⟨⟨chunks, changed⟩, hmint, h⟩ := except_bind_ok h
  cases h
  exact ⟨hmint, rfl, rfl⟩

end Mint

/-! ## The order of the outputs -/

section Order

variable {N : NumberText} {base : ChunkedSnapshot} {input : BuildSnapshotChunksInput}
variable {M : MutationMap} {evaluation : SnapshotChunkEvaluation}
variable {snapshotHash : List Byte → JsString}

/-- The documents of an output: valid, sorted, and at least one. -/
theorem OutputBuilt.documents {o : ChunkOutput} (h : OutputBuilt N base input o) :
    (∀ d ∈ outputDocs base o, d.wf = true ∧ IsDocument d) ∧
      ((outputDocs base o).map idOf).Pairwise idLt ∧ outputDocs base o ≠ [] := by
  cases o with
  | kept d =>
    obtain ⟨c, hc, rfl⟩ := List.mem_map.mp (show d ∈ base.chunks.map BaseChunk.descriptor from h)
    rw [show outputDocs base (.kept c.descriptor) = c.docs from base.docsOf_descriptor hc]
    exact ⟨fun e he => ⟨(c.documents e he).1, (c.documents e he).2.2⟩, c.increasing, c.nonempty⟩
  | rewritten item =>
    have hitem : IsItem N input.collection input.incarnation input.policy item := h
    exact ⟨hitem.chunkable.documents, hitem.chunkable.increasing, hitem.nonempty⟩

/-- The ids of a descriptor are those of the first and the last document. -/
theorem OutputBuilt.ids {o : ChunkOutput} (h : OutputBuilt N base input o) :
    (mintedDescriptor snapshotHash input.collectionPrefix input.incarnation o).firstId =
        idOf ((outputDocs base o).headD .null) ∧
      (mintedDescriptor snapshotHash input.collectionPrefix input.incarnation o).lastId =
        idOf ((outputDocs base o).getLastD .null) := by
  cases o with
  | kept d =>
    obtain ⟨c, hc, rfl⟩ := List.mem_map.mp (show d ∈ base.chunks.map BaseChunk.descriptor from h)
    rw [show outputDocs base (.kept c.descriptor) = c.docs from base.docsOf_descriptor hc]
    exact ⟨c.first, c.last⟩
  | rewritten item => exact ⟨rfl, rfl⟩

theorem headD_mem {docs : List Doc} (h : docs ≠ []) : docs.headD .null ∈ docs := by
  cases docs with
  | nil => exact absurd rfl h
  | cons d docs => exact List.mem_cons_self

theorem getLastD_mem {docs : List Doc} (h : docs ≠ []) : docs.getLastD .null ∈ docs := by
  rw [List.getLastD_eq_getLast?, List.getLast?_eq_some_getLast h]
  exact List.getLast_mem h

/-- Every document of an output comes before every document of a later one. -/
theorem Evaluated.before (h : Evaluated N base input M evaluation) :
    evaluation.outputs.Pairwise fun a b =>
      ∀ x ∈ outputDocs base a, ∀ y ∈ outputDocs base b, idLt (idOf x) (idOf y) := by
  have hincreasing := finalDocs_increasing base M
  rw [← h.documents, List.pairwise_map, List.pairwise_flatMap] at hincreasing
  exact hincreasing.2

/-- The descriptors lie one after the other. -/
theorem Evaluated.ordered (h : Evaluated N base input M evaluation) :
    Ordered (evaluation.outputs.map
      (mintedDescriptor snapshotHash input.collectionPrefix input.incarnation)) := by
  constructor
  · intro d hd
    obtain ⟨o, ho, rfl⟩ := List.mem_map.mp hd
    obtain ⟨-, hsorted, hne⟩ := (h.built o ho).documents
    rw [(h.built o ho).ids.1, (h.built o ho).ids.2]
    exact pairwise_last hsorted (headD_mem hne)
  · rw [List.pairwise_map]
    refine h.before.imp_of_mem fun ha hb hlt => ?_
    rw [(h.built _ ha).ids.2, (h.built _ hb).ids.1]
    exact hlt _ (getLastD_mem (h.built _ ha).documents.2.2) _
      (headD_mem (h.built _ hb).documents.2.2)

theorem rangesIncrease_of_ordered {ds : List SnapshotChunkDescriptor} (h : Ordered ds) :
    rangesIncrease ds = true := by
  induction ds with
  | nil => rfl
  | cons a ds ih =>
    cases ds with
    | nil => rfl
    | cons b ds =>
      have hrest : Ordered (b :: ds) :=
        ⟨fun d hd => h.1 d (List.mem_cons_of_mem a hd), (List.pairwise_cons.mp h.2).2⟩
      have hab : idLt a.lastId b.firstId := (List.pairwise_cons.mp h.2).1 b List.mem_cons_self
      rw [rangesIncrease, Bool.and_eq_true, Bool.and_eq_true, decide_eq_true_eq, decide_eq_true_eq,
        compareDocIds_lt_iff, compareDocIds_lt_iff]
      exact ⟨⟨lt_of_le_of_lt (h.1 a List.mem_cons_self) hab, hab⟩, ih hrest⟩

/-- No two outputs have one descriptor. -/
theorem Evaluated.descriptors_nodup (h : Evaluated N base input M evaluation) :
    (evaluation.outputs.map
      (mintedDescriptor snapshotHash input.collectionPrefix input.incarnation)).Nodup := by
  obtain ⟨hranges, hpairs⟩ := @Evaluated.ordered N base input M evaluation snapshotHash h
  refine hpairs.imp_of_mem fun ha _ hlt heq => ?_
  rw [← heq] at hlt
  exact absurd hlt (not_lt.mpr (hranges _ ha))

end Order

/-! ## Keys -/

section Keys

variable {collectionPrefix incarnation digest : JsString} {key : Key} {kind : ArtifactKind}

theorem matchArtifactKey_start {found : ParsedArtifactKey}
    (h : matchArtifactKey kind key = some found) :
    found.collectionPrefix = key.take (key.length - (kind.dir.length + 109)) ∧
      found.collectionPrefix.any isLineTerminator = false := by
  unfold matchArtifactKey at h
  dsimp only at h
  split at h
  next hmatch =>
    cases h
    exact ⟨rfl, hmatch.2.1⟩
  next => cases h

/-- No pattern matches a key under a prefix with a line terminator. -/
theorem matchArtifactKey_dirty {fail : CodecFail}
    (h : artifactKey kind fail collectionPrefix incarnation digest = .ok key)
    {found : ParsedArtifactKey} (hfound : matchArtifactKey kind key = some found) :
    collectionPrefix.any isLineTerminator = false := by
  obtain ⟨hstem, hline⟩ := matchArtifactKey_start hfound
  have htext := artifactKey_text h
  unfold artifactKey at h
  obtain ⟨_, _, h⟩ := except_bind_ok h
  obtain ⟨_, hinc, h⟩ := except_bind_ok h
  obtain ⟨_, hdigest, h⟩ := except_bind_ok h
  rw [check_ok] at hinc hdigest
  have hincLen : incarnation.length = 32 := by
    simp only [isIncarnation, decide_eq_true_eq] at hinc
    exact hinc.1
  have hdigestLen : digest.length = 64 := by
    simp only [isSha256, decide_eq_true_eq] at hdigest
    exact hdigest.1
  have hshaLen : (js "/sha256/").length = 8 := by decide
  have hextLen : (js ".json").length = 5 := by decide
  have hcut : key.length - (kind.dir.length + 109) = collectionPrefix.length := by
    rw [htext]
    simp only [artifactKeyText, List.length_append, hincLen, hdigestLen, hshaLen, hextLen]
    omega
  rw [hcut, htext, artifactKeyText, List.take_left] at hstem
  rw [← hstem]
  exact hline

end Keys

/-! ## The list as a manifest holds it -/

/-- The stored chunks of a snapshot: bodies that decode to its documents, under its prefix. -/
structure StoredUnder (N : NumberText) (snapshotHash : List Byte → JsString) (collection : JsString)
    (collectionPrefix : Key) (base : ChunkedSnapshot)
    (body : SnapshotChunkDescriptor → List Byte) : Prop where
  decodes : ∀ c ∈ base.chunks, ∃ chunk, decodeSnapshotChunk N snapshotHash (body c.descriptor)
    c.descriptor.key collection c.descriptor = .ok chunk ∧ chunk.docs = c.docs
  under : Under collectionPrefix base.descriptors

/-- The body of an output. -/
def outputBody (body : SnapshotChunkDescriptor → List Byte) : ChunkOutput → List Byte
  | .kept d => body d
  | .rewritten item => item.bytes

/-- The fields of a manifest besides its chunks. -/
def HeaderValid (code : CodecCode) (m : SnapshotManifest) : Prop :=
  (code = .invalidConfig → assertPathSegment m.collection "collection" = .ok ()) ∧
    m.logSeqStart ≤ maxSafeInteger ∧ isIncarnation m.incarnation = true

/-- A built list is what a manifest may hold. -/
structure ListValid (N : NumberText) (input : BuildSnapshotChunksInput)
    (body : SnapshotChunkDescriptor → List Byte) (build : SnapshotChunkBuildResult) : Prop where
  increasing : rangesIncrease build.chunks = true
  exact : ∀ d ∈ build.chunks, ∃ (bytes : List Byte) (chunk : SnapshotChunk),
    (⟨d, bytes⟩ ∈ build.changedChunks ∨ (d ∈ input.descriptors ∧ bytes = body d)) ∧
      bytes = encodeJsonBytes N chunk.toJson ∧ d = chunk.descriptor d.key bytes
  keys : (build.chunks.map SnapshotChunkDescriptor.key).Nodup
  targets : ∀ o ∈ build.changedChunks, 0 < o.descriptor.rowCount ∧
    (o.descriptor.rowCount = 1 ∨ (o.descriptor.rowCount ≤ input.policy.targetRows ∧
      o.descriptor.byteLength ≤ input.policy.targetChunkBytes))
  accepted : ∀ code, canonicalizeDescriptors code (some input.collectionPrefix) none [] 0
    (build.chunks.map SnapshotChunkDescriptor.toJson) = .ok build.chunks
  manifest : ∀ code m, HeaderValid code m → m.chunks = build.chunks →
    m.chunks.length ≤ maxManifestChunks →
    canonicalizeManifest m.toJson code (some input.collectionPrefix) = .ok m

/-- What the descriptor loop asks of a descriptor, its key being new. -/
structure DescriptorFits (collectionPrefix : Key) (d : SnapshotChunkDescriptor) : Prop where
  firstId : assertSnapshotDocId d.firstId = .ok ()
  lastId : assertSnapshotDocId d.lastId = .ok ()
  ordered : idPoints d.firstId ≤ idPoints d.lastId
  found : ∃ found, IsArtifactKey .chunk d.key found ∧ found.collectionPrefix = collectionPrefix
  byteLength : 0 < d.byteLength ∧ d.byteLength ≤ maxChunkBytes
  rowCount : 0 < d.rowCount ∧ d.rowCount ≤ maxChunkRows

theorem isDescriptors_of_fits {p : Key} {ds : List SnapshotChunkDescriptor}
    (hfits : ∀ d ∈ ds, DescriptorFits p d) {chunkPrefix : Option Key} {seenKeys : List Key}
    (hstem : chunkPrefix = none ∨ chunkPrefix = some p)
    (hkeys : (ds.map SnapshotChunkDescriptor.key).Nodup)
    (hseen : ∀ d ∈ ds, d.key ∉ seenKeys) :
    IsDescriptors (some p) chunkPrefix seenKeys (ds.map SnapshotChunkDescriptor.toJson) ds := by
  induction ds generalizing chunkPrefix seenKeys with
  | nil => exact trivial
  | cons d ds ih =>
    rw [List.forall_mem_cons] at hfits hseen
    rw [List.map_cons, List.nodup_cons] at hkeys
    obtain ⟨hd, hds⟩ := hfits
    refine ⟨p, ?_, ih hds (Or.inr rfl) hkeys.2 fun e he hmem => ?_⟩
    · exact { exact := ⟨_, rfl, rfl, by
                simp only [descriptorFields, List.forall_mem_cons, List.not_mem_nil, false_implies,
                  implies_true, and_true]
                exact ⟨rfl, rfl, rfl, rfl, rfl⟩⟩
              firstId := ⟨rfl, hd.firstId⟩
              lastId := ⟨rfl, hd.lastId⟩
              ordered := not_gt_iff.mpr hd.ordered
              key := rfl
              found := hd.found
              shared := hstem
              expected := Or.inr rfl
              byteLength := ⟨rfl, hd.byteLength⟩
              rowCount := ⟨rfl, hd.rowCount⟩
              fresh := hseen.1 }
    · rcases List.mem_cons.mp hmem with heq | hmem
      · exact hkeys.1 (List.mem_map.mpr ⟨e, he, heq⟩)
      · exact hseen.2 e he hmem

theorem canonicalizeManifest_of_list {code : CodecCode} {m : SnapshotManifest} {p : Key}
    (hheader : HeaderValid code m) (hcount : m.chunks.length ≤ maxManifestChunks)
    (hchunks : IsDescriptors (some p) none [] (m.chunks.map SnapshotChunkDescriptor.toJson) m.chunks)
    (hincreasing : rangesIncrease m.chunks = true) :
    canonicalizeManifest m.toJson code (some p) = .ok m :=
  canonicalizeManifest_ok.mpr
    { exact := ⟨_, rfl, rfl, by
        simp only [manifestFields, List.forall_mem_cons, List.not_mem_nil, false_implies,
          implies_true, and_true]
        exact ⟨rfl, rfl, rfl, rfl, rfl, rfl⟩⟩
      version := rfl
      collection := rfl
      segment := hheader.1
      logSeqStart := ⟨rfl, hheader.2.1⟩
      incarnation := rfl
      hex := hheader.2.2
      collation := rfl
      chunks := ⟨_, rfl, by rw [List.length_map]; exact hcount, hchunks⟩
      increasing := hincreasing }

theorem idOf_valid {d : Doc} (h : IsDocument d) : assertSnapshotDocId (idOf d) = .ok () := by
  obtain ⟨-, -, id, hid, hok⟩ := h
  rw [idOf_of_member hid]
  exact hok

section Valid

variable {N : NumberText} {base : ChunkedSnapshot} {input : BuildSnapshotChunksInput}
variable {M : MutationMap} {evaluation : SnapshotChunkEvaluation}
variable {snapshotHash : List Byte → JsString} {body : SnapshotChunkDescriptor → List Byte}

/-- The body of an output holds its documents. -/
theorem OutputBuilt.bodyDocs
    (hstored : StoredUnder N snapshotHash input.collection input.collectionPrefix base body)
    {o : ChunkOutput} (h : OutputBuilt N base input o) :
    bodyDocs N (outputBody body o) = (outputDocs base o).map canonicalForm := by
  cases o with
  | kept d =>
    obtain ⟨c, hc, rfl⟩ := List.mem_map.mp (show d ∈ base.chunks.map BaseChunk.descriptor from h)
    obtain ⟨chunk, hdecode, hdocs⟩ := hstored.decodes c hc
    rw [show outputDocs base (.kept c.descriptor) = c.docs from base.docsOf_descriptor hc]
    rw [show outputBody body (.kept c.descriptor) = body c.descriptor from rfl,
      decoded_bodyDocs hdecode, hdocs]
    have hid : ∀ d ∈ c.docs, canonicalForm d = id d := fun d hd => (c.documents d hd).2.1
    rw [List.map_congr_left hid, List.map_id]
  | rewritten item => exact IsItem.bodyDocs h

/-- The digest in the key of an output is that of its body. -/
theorem OutputBuilt.digest
    (hstored : StoredUnder N snapshotHash input.collection input.collectionPrefix base body)
    (hclean : input.collectionPrefix.any isLineTerminator = false) {o : ChunkOutput}
    (h : OutputBuilt N base input o)
    (hkey : ∀ item, o = .rewritten item →
      snapshotChunkKey input.collectionPrefix input.incarnation (snapshotHash item.bytes) =
        .ok (mintedKey snapshotHash input.collectionPrefix input.incarnation item)) :
    ∃ found, IsArtifactKey .chunk
        (mintedDescriptor snapshotHash input.collectionPrefix input.incarnation o).key found ∧
      found.collectionPrefix = input.collectionPrefix ∧
      found.digest = snapshotHash (outputBody body o) := by
  cases o with
  | kept d =>
    obtain ⟨c, hc, rfl⟩ := List.mem_map.mp (show d ∈ base.chunks.map BaseChunk.descriptor from h)
    obtain ⟨chunk, hdecode, -⟩ := hstored.decodes c hc
    obtain ⟨found, hfound, hhash, -⟩ := (decodeSnapshotChunk_ok.mp hdecode).hashed
    obtain ⟨found', hmatch, hunder⟩ := hstored.under c.descriptor (List.mem_map.mpr ⟨c, hc, rfl⟩)
    rw [hfound.2.1, Option.some.injEq] at hmatch
    exact ⟨found, hfound, by rw [hmatch]; exact hunder, hhash.symm⟩
  | rewritten item => exact ⟨_, isArtifactKey_text (hkey item rfl) hclean, rfl, rfl⟩

/-- Different outputs have different bodies. -/
theorem Evaluated.bodies_ne (h : Evaluated N base input M evaluation)
    (hstored : StoredUnder N snapshotHash input.collection input.collectionPrefix base body) :
    evaluation.outputs.Pairwise fun a b => outputBody body a ≠ outputBody body b := by
  refine h.before.imp_of_mem fun {a b} ha hb hlt heq => ?_
  have ha' := h.built a ha
  have hb' := h.built b hb
  have hids : (outputDocs base a).map idOf = (outputDocs base b).map idOf := by
    have hdocs := OutputBuilt.bodyDocs hstored ha'
    rw [heq, OutputBuilt.bodyDocs hstored hb'] at hdocs
    rw [← map_idOf_canonicalForm fun d hd => (ha'.documents.1 d hd).1, ← hdocs,
      map_idOf_canonicalForm fun d hd => (hb'.documents.1 d hd).1]
  obtain ⟨x, hx⟩ := List.exists_mem_of_ne_nil _ ha'.documents.2.2
  have hmem : idOf x ∈ (outputDocs base b).map idOf := hids ▸ List.mem_map.mpr ⟨x, hx, rfl⟩
  obtain ⟨y, hy, hxy⟩ := List.mem_map.mp hmem
  have hself := hlt x hx y hy
  rw [hxy] at hself
  exact absurd hself (lt_irrefl _)

/-- What the descriptor of an output says is what its body holds. -/
theorem OutputBuilt.exact
    (hstored : StoredUnder N snapshotHash input.collection input.collectionPrefix base body)
    {o : ChunkOutput} (h : OutputBuilt N base input o) :
    ∃ chunk : SnapshotChunk, outputBody body o = encodeJsonBytes N chunk.toJson ∧
      mintedDescriptor snapshotHash input.collectionPrefix input.incarnation o =
        chunk.descriptor
          (mintedDescriptor snapshotHash input.collectionPrefix input.incarnation o).key
          (outputBody body o) := by
  cases o with
  | kept d =>
    obtain ⟨c, hc, rfl⟩ := List.mem_map.mp (show d ∈ base.chunks.map BaseChunk.descriptor from h)
    obtain ⟨chunk, hdecode, -⟩ := hstored.decodes c hc
    have hdecodes := decodeSnapshotChunk_ok.mp hdecode
    refine ⟨chunk, hdecodes.canonical, ?_⟩
    obtain ⟨hfirst, hlast, hrows⟩ := hdecodes.range
    have hbytes := hdecodes.stored.2
    show c.descriptor = chunk.descriptor c.descriptor.key (body c.descriptor)
    unfold SnapshotChunk.descriptor
    rw [hfirst, hlast, hrows, ← hbytes]
  | rewritten item =>
    have hitem : IsItem N input.collection input.incarnation input.policy item := h
    refine ⟨storedChunk input.collection input.incarnation item.docs, hitem.bytes, ?_⟩
    simp only [mintedDescriptor, SnapshotChunk.descriptor, storedChunk, outputBody, List.length_map]

/-- The descriptor of an output fits a manifest under a prefix without line terminators. -/
theorem OutputBuilt.fits
    (hstored : StoredUnder N snapshotHash input.collection input.collectionPrefix base body)
    (hclean : input.collectionPrefix.any isLineTerminator = false) {o : ChunkOutput}
    (h : OutputBuilt N base input o)
    (hkey : ∀ item, o = .rewritten item →
      snapshotChunkKey input.collectionPrefix input.incarnation (snapshotHash item.bytes) =
        .ok (mintedKey snapshotHash input.collectionPrefix input.incarnation item)) :
    DescriptorFits input.collectionPrefix
      (mintedDescriptor snapshotHash input.collectionPrefix input.incarnation o) := by
  obtain ⟨hdocs, hsorted, hne⟩ := h.documents
  obtain ⟨hfirst, hlast⟩ := @OutputBuilt.ids N base input snapshotHash o h
  obtain ⟨found, hfound, hstem, -⟩ := OutputBuilt.digest hstored hclean h hkey
  have hsizes : (0 < (mintedDescriptor snapshotHash input.collectionPrefix input.incarnation
        o).byteLength ∧ (mintedDescriptor snapshotHash input.collectionPrefix input.incarnation
        o).byteLength ≤ maxChunkBytes) ∧
      (0 < (mintedDescriptor snapshotHash input.collectionPrefix input.incarnation o).rowCount ∧
        (mintedDescriptor snapshotHash input.collectionPrefix input.incarnation o).rowCount ≤
          maxChunkRows) := by
    cases o with
    | kept d =>
      obtain ⟨c, hc, rfl⟩ := List.mem_map.mp (show d ∈ base.chunks.map BaseChunk.descriptor from h)
      obtain ⟨chunk, hdecode, hsame⟩ := hstored.decodes c hc
      have hdecodes := decodeSnapshotChunk_ok.mp hdecode
      obtain ⟨v, -, hchunk⟩ := hdecodes.parsed
      obtain ⟨rows, -, hpos, hmax, -, heq⟩ := hchunk.docs
      have hlength := hdecodes.length
      have hbytes := hdecodes.stored.2
      have hrows := hdecodes.range.2.2
      rw [heq, List.length_map] at hrows
      show (0 < c.descriptor.byteLength ∧ c.descriptor.byteLength ≤ maxChunkBytes) ∧
        (0 < c.descriptor.rowCount ∧ c.descriptor.rowCount ≤ maxChunkRows)
      omega
    | rewritten item =>
      have hitem : IsItem N input.collection input.incarnation input.policy item := h
      have hpos : item.bytes.length ≠ 0 := by
        rw [hitem.bytes]
        exact encodeJsonBytes_length_pos _
      have hrows := List.length_pos_iff.mpr hitem.nonempty
      exact ⟨⟨by show 0 < item.bytes.length; omega, hitem.size⟩, hrows, hitem.rows⟩
  exact { firstId := by rw [hfirst]; exact idOf_valid (hdocs _ (headD_mem hne)).2
          lastId := by rw [hlast]; exact idOf_valid (hdocs _ (getLastD_mem hne)).2
          ordered := by rw [hfirst, hlast]; exact pairwise_last hsorted (headD_mem hne)
          found := ⟨found, hfound, hstem⟩
          byteLength := hsizes.1
          rowCount := hsizes.2 }

/-- **A list minted under a clean prefix is what a manifest may hold.** -/
theorem Evaluated.listValid (h : Evaluated N base input M evaluation)
    (hb : BuildsOn base input)
    (hstored : StoredUnder N snapshotHash input.collection input.collectionPrefix base body)
    {build : SnapshotChunkBuildResult}
    (hmint : evaluation.mint snapshotHash input.collectionPrefix input.incarnation = .ok build)
    (hhash : ∀ a ∈ evaluation.outputs, ∀ b ∈ evaluation.outputs,
      snapshotHash (outputBody body a) = snapshotHash (outputBody body b) →
        outputBody body a = outputBody body b)
    (hclean : evaluation.outputs = [] ∨ input.collectionPrefix.any isLineTerminator = false) :
    ListValid N input body build := by
  obtain ⟨hchunks, hchanged, hkeys⟩ := mintOutputs_ok (mint_ok hmint).1
  have hincreasing : rangesIncrease build.chunks = true := by
    rw [hchunks]
    exact rangesIncrease_of_ordered h.ordered
  have hclean' : ∀ o ∈ evaluation.outputs,
      input.collectionPrefix.any isLineTerminator = false := fun o ho => by
    rcases hclean with hnil | hclean
    · rw [hnil] at ho
      cases ho
    · exact hclean
  have hkeys' : ∀ o ∈ evaluation.outputs, ∀ item, o = .rewritten item →
      snapshotChunkKey input.collectionPrefix input.incarnation (snapshotHash item.bytes) =
        .ok (mintedKey snapshotHash input.collectionPrefix input.incarnation item) :=
    fun o ho item heq => hkeys item (heq ▸ ho)
  -- equal keys have equal digests, so by the hash assumption equal bodies, and no two outputs have
  -- these
  have hnodup : (build.chunks.map SnapshotChunkDescriptor.key).Nodup := by
    rw [hchunks, List.map_map, List.Nodup, List.pairwise_map]
    refine (h.bodies_ne hstored).imp_of_mem fun {a b} ha hb' hne heq => ?_
    obtain ⟨found, hfound, -, hdigest⟩ :=
      OutputBuilt.digest hstored (hclean' a ha) (h.built a ha) (hkeys' a ha)
    obtain ⟨found', hfound', -, hdigest'⟩ :=
      OutputBuilt.digest hstored (hclean' b hb') (h.built b hb') (hkeys' b hb')
    have hsame : found = found' := by
      have hmatch := hfound.2.1
      rw [show (mintedDescriptor snapshotHash input.collectionPrefix input.incarnation a).key =
        (mintedDescriptor snapshotHash input.collectionPrefix input.incarnation b).key from heq,
        hfound'.2.1, Option.some.injEq] at hmatch
      exact hmatch.symm
    exact hne (hhash a ha b hb' (by rw [← hdigest, ← hdigest', hsame]))
  have haccepted : IsDescriptors (some input.collectionPrefix) none []
      (build.chunks.map SnapshotChunkDescriptor.toJson) build.chunks := by
    refine isDescriptors_of_fits (fun d hd => ?_) (Or.inl rfl) hnodup fun d _ => List.not_mem_nil
    rw [hchunks] at hd
    obtain ⟨o, ho, rfl⟩ := List.mem_map.mp hd
    exact OutputBuilt.fits hstored (hclean' o ho) (h.built o ho) (hkeys' o ho)
  refine
    { increasing := hincreasing
      exact := fun d hd => ?_
      keys := hnodup
      targets := fun o ho => ?_
      accepted := fun code => canonicalizeDescriptors_ok.mpr haccepted
      manifest := fun code m hheader hm hcount => ?_ }
  · rw [hchunks] at hd
    obtain ⟨o, ho, rfl⟩ := List.mem_map.mp hd
    -- each descriptor speaks of bytes that were stored before or are uploaded now
    obtain ⟨chunk, hbytes, hdescriptor⟩ :=
      @OutputBuilt.exact N base input snapshotHash body hstored o (h.built o ho)
    refine ⟨outputBody body o, chunk, ?_, hbytes, hdescriptor⟩
    cases o with
    | kept d =>
      right
      exact ⟨by rw [hb.descriptors]; exact h.built _ ho, rfl⟩
    | rewritten item =>
      left
      rw [hchanged]
      exact List.mem_filterMap.mpr ⟨_, ho, rfl⟩
  · rw [hchanged] at ho
    obtain ⟨output, houtput, heq⟩ := List.mem_filterMap.mp ho
    cases output with
    | kept d => cases heq
    | rewritten item =>
      cases heq
      have hitem : IsItem N input.collection input.incarnation input.policy item :=
        h.built _ houtput
      exact ⟨List.length_pos_iff.mpr hitem.nonempty, hitem.targets⟩
  · refine canonicalizeManifest_of_list hheader hcount ?_ ?_
    · rw [hm]
      exact haccepted
    · rw [hm]
      exact hincreasing

/-- Under a prefix with a line terminator there is nothing to begin with. -/
theorem StoredUnder.empty_of_dirty
    (hstored : StoredUnder N snapshotHash input.collection input.collectionPrefix base body)
    (hdirty : input.collectionPrefix.any isLineTerminator ≠ false) : base.chunks = [] := by
  cases hchunks : base.chunks with
  | nil => rfl
  | cons c cs =>
    have hmem : c.descriptor ∈ base.descriptors := by
      rw [ChunkedSnapshot.descriptors, hchunks]
      exact List.mem_cons_self
    obtain ⟨found, hmatch, hunder⟩ := hstored.under c.descriptor hmem
    exact absurd (hunder ▸ (matchArtifactKey_start hmatch).2) hdirty

/-- **The built list is what a manifest may hold**, exactly when the prefix has no line terminator or
    there is nothing to write. -/
theorem minted_valid_iff (N : NumberText) (snapshotHash : List Byte → JsString)
    (base : ChunkedSnapshot) (body : SnapshotChunkDescriptor → List Byte)
    (input : BuildSnapshotChunksInput) (evaluation : SnapshotChunkEvaluation)
    (build : SnapshotChunkBuildResult)
    (hstored : StoredUnder N snapshotHash input.collection input.collectionPrefix base body)
    (hb : BuildsOn base input) (hev : evaluateSnapshotChunks N input = .ok evaluation)
    (hmint : evaluation.mint snapshotHash input.collectionPrefix input.incarnation = .ok build)
    (hhash : ∀ a ∈ evaluation.outputs, ∀ b ∈ evaluation.outputs,
      snapshotHash (outputBody body a) = snapshotHash (outputBody body b) →
        outputBody body a = outputBody body b) :
    ListValid N input body build ↔ (input.collectionPrefix.any isLineTerminator = false ∨
      ∀ m ∈ mutationList input.mutations, m.after? = none) := by
  obtain ⟨M, hM, h⟩ := evaluate_documents hb hev
  obtain ⟨hchunks, -, hkeys⟩ := mintOutputs_ok (mint_ok hmint).1
  constructor
  · intro hvalid
    by_contra hnot
    rw [not_or] at hnot
    obtain ⟨hdirty, hwrite⟩ := hnot
    obtain ⟨m, hwrite⟩ := not_forall.mp hwrite
    obtain ⟨hm, hafter⟩ := Classical.not_imp.mp hwrite
    obtain ⟨d, hd⟩ := Option.ne_none_iff_exists'.mp hafter
    -- the post-image is in some output, which is a new chunk
    rw [← hM] at hm
    have hget := MutationMap.mem_list.mp hm
    have hid : idOf d = m.docId := M.named _ m hget d hd
    have heffective : Effective base M d := by
      unfold Effective
      rw [hid, hget]
      exact hd
    have hmem := mem_finalDocs.mpr heffective
    rw [← h.documents] at hmem
    obtain ⟨o, ho, -⟩ := List.mem_flatMap.mp hmem
    cases o with
    | kept e =>
      have he : e ∈ base.chunks.map BaseChunk.descriptor := h.built _ ho
      rw [hstored.empty_of_dirty hdirty] at he
      cases he
    | rewritten item =>
      -- no pattern matches its key
      have hlist := canonicalizeDescriptors_ok.mp (hvalid.accepted .invalidConfig)
      have hunder := (IsDescriptors.expect_iff.mp hlist).2
      have hmem' : mintedDescriptor snapshotHash input.collectionPrefix input.incarnation
          (.rewritten item) ∈ build.chunks := by
        rw [hchunks]
        exact List.mem_map.mpr ⟨_, ho, rfl⟩
      obtain ⟨found, hmatch, -⟩ := hunder _ hmem'
      exact hdirty (matchArtifactKey_dirty (hkeys item ho) hmatch)
  · intro hcase
    refine h.listValid hb hstored hmint hhash ?_
    by_cases hclean : input.collectionPrefix.any isLineTerminator = false
    · exact Or.inr hclean
    · left
      have hdeletes := hcase.resolve_left hclean
      have hempty := hstored.empty_of_dirty hclean
      have hnone : finalDocs base M = [] := by
        rw [List.eq_nil_iff_forall_not_mem]
        intro d hd
        have heffective := mem_finalDocs.mp hd
        unfold Effective at heffective
        split at heffective
        next m hm =>
          have hmem : m ∈ mutationList M.map := by
            refine MutationMap.mem_list.mpr ?_
            rw [M.filed _ m hm]
            exact hm
          rw [hM] at hmem
          rw [hdeletes m hmem] at heffective
          cases heffective
        next =>
          rw [ChunkedSnapshot.docs, hempty] at heffective
          cases heffective
      rw [← h.documents, List.flatMap_eq_nil_iff] at hnone
      rw [List.eq_nil_iff_forall_not_mem]
      intro o ho
      exact (h.built o ho).documents.2.2 (hnone o ho)

end Valid

/-! ## Two stored chunks and an insert, to try the builder on -/

/-- The document with the id `x` and nothing else. -/
def bareDoc (x : String) : Doc := .obj [(js "_id", .str (js x))]

/-- The chunk of one bare document, under a key and of a size. -/
def bareChunk (x : String) (key : Key) (size : Nat)
    (h : (bareDoc x).wf = true ∧ canonicalForm (bareDoc x) = bareDoc x ∧
      (bareDoc x).noNull = true ∧ assertSnapshotDocId (js x) = .ok ()) : BaseChunk where
  descriptor := ⟨js x, js x, key, size, 1⟩
  docs := [bareDoc x]
  documents d hd := by
    rw [List.mem_singleton.mp hd]
    exact ⟨h.1, h.2.1, ⟨_, rfl⟩, h.2.2.1, js x, rfl, h.2.2.2⟩
  increasing := List.pairwise_singleton _ _
  nonempty := List.cons_ne_nil _ _
  first := rfl
  last := rfl

/-- The document `a` is canonical, and its id is accepted. -/
theorem bareDoc_a : (bareDoc "a").wf = true ∧ canonicalForm (bareDoc "a") = bareDoc "a" ∧
    (bareDoc "a").noNull = true ∧ assertSnapshotDocId (js "a") = .ok () := by decide +kernel

/-- So is `c`. -/
theorem bareDoc_c : (bareDoc "c").wf = true ∧ canonicalForm (bareDoc "c") = bareDoc "c" ∧
    (bareDoc "c").noNull = true ∧ assertSnapshotDocId (js "c") = .ok () := by decide +kernel

/-- The SHA-256 of the chunk of `a`. -/
def firstDigest : JsString := js "23b2e90b81d4366f86f8db7043a38eff224a6b8e6aa2116c46f34c9303069be9"

/-- The SHA-256 of the chunk of `c`. -/
def secondDigest : JsString := js "890785c814d16007672621aa2aae01b4032f0ddb1425bf4afb3da4a510afbc81"

/-- The SHA-256 of the chunk of `c` and `x`. -/
def grownDigest : JsString := js "61a6a0233669112675a0003102a41cbc7a7fffef781c1b26e9d1cad5bf3ea459"

/-- The bytes of a chunk of bare documents. -/
def bareBytes (xs : List String) : List Byte :=
  chunkBytes integerText (js "notes") zeroIncarnation (xs.map bareDoc)

/-- SHA-256 on these chunks. -/
def bareHash (bytes : List Byte) : JsString :=
  if bytes = bareBytes ["a"] then firstDigest
  else if bytes = bareBytes ["c"] then secondDigest
  else grownDigest

/-- The chunks of `a` and of `c`, as they are stored. -/
def storedPair : ChunkedSnapshot where
  chunks := [bareChunk "a" (chunkKey firstDigest) 140 bareDoc_a,
    bareChunk "c" (chunkKey secondDigest) 140 bareDoc_c]
  ordered := by
    show rangesIncrease [⟨js "a", js "a", chunkKey firstDigest, 140, 1⟩,
      ⟨js "c", js "c", chunkKey secondDigest, 140, 1⟩] = true
    decide +kernel
  keys := by
    show [chunkKey firstDigest, chunkKey secondDigest].Nodup
    decide +kernel

/-- Their bodies. -/
def pairBody (d : SnapshotChunkDescriptor) : List Byte :=
  bareBytes [if d.key = chunkKey firstDigest then "a" else "c"]

/-- What both chunks hold. -/
def pairDocs (key : Key) : Option (List Doc) :=
  if key = chunkKey firstDigest then some [bareDoc "a"]
  else if key = chunkKey secondDigest then some [bareDoc "c"]
  else none

theorem pairDocs_loaded : ∀ c ∈ storedPair.chunks, pairDocs c.descriptor.key = some c.docs := by
  intro c hc
  rcases List.mem_cons.mp hc with rfl | hc
  · show pairDocs (chunkKey firstDigest) = some [bareDoc "a"]
    decide +kernel
  · rw [List.mem_singleton.mp hc]
    show pairDocs (chunkKey secondDigest) = some [bareDoc "c"]
    decide +kernel

/-- The insert of `x`, which is routed to the chunk of `c`. -/
def insertBeside : BuildSnapshotChunksInput where
  collection := js "notes"
  collectionPrefix := js "p"
  descriptors := storedPair.descriptors
  loadedChunks := pairDocs
  mutations := InsMap.empty.set (js "x") (.insert (js "x") (bareDoc "x"))
  incarnation := zeroIncarnation
  policy := ⟨160, 100⟩
  lockedDirectOwnerIndex := some 1
  selectedNeighborIndex := some 0

theorem insertBeside_mutation {k : JsString} {m : ReferenceMutation}
    (h : insertBeside.mutations.get k = some m) : m = .insert (js "x") (bareDoc "x") := by
  have hentry : (k, m) ∈ [(js "x", ReferenceMutation.insert (js "x") (bareDoc "x"))] :=
    InsMap.mem_entries.mpr h
  cases List.mem_singleton.mp hentry
  rfl

theorem insertBeside_buildsOn : BuildsOn storedPair insertBeside where
  descriptors := rfl
  loaded c hc docs hdocs := Option.some.inj (hdocs.symm.trans (pairDocs_loaded c hc))
  wf k m d hk hd := by
    rw [insertBeside_mutation hk] at hd
    cases hd
    decide

/-- Each body decodes to the document of its chunk. -/
theorem bareBytes_decodes (x : String) (digest : JsString)
    (h : decodeSnapshotChunk integerText bareHash (bareBytes [x]) (chunkKey digest) (js "notes")
      ⟨js x, js x, chunkKey digest, 140, 1⟩ =
        .ok (storedChunk (js "notes") zeroIncarnation [bareDoc x]))
    (hform : canonicalForm (bareDoc x) = bareDoc x) :
    ∃ chunk, decodeSnapshotChunk integerText bareHash (bareBytes [x]) (chunkKey digest)
      (js "notes") ⟨js x, js x, chunkKey digest, 140, 1⟩ = .ok chunk ∧ chunk.docs = [bareDoc x] := by
  refine ⟨_, h, ?_⟩
  show [canonicalForm (bareDoc x)] = [bareDoc x]
  rw [hform]

theorem storedPair_stored :
    StoredUnder integerText bareHash (js "notes") (js "p") storedPair pairBody where
  decodes c hc := by
    rcases List.mem_cons.mp hc with rfl | hc
    · exact bareBytes_decodes "a" firstDigest (by decide +kernel)
        (by decide +kernel)
    · rw [List.mem_singleton.mp hc]
      exact bareBytes_decodes "c" secondDigest (by decide +kernel) (by decide +kernel)
  under d hd := by
    rcases List.mem_cons.mp hd with rfl | hd
    · exact ⟨⟨js "p", zeroIncarnation, firstDigest⟩, by decide +kernel, rfl⟩
    · rw [List.mem_singleton.mp hd]
      exact ⟨⟨js "p", zeroIncarnation, secondDigest⟩, by decide +kernel, rfl⟩

/-- The insert is evaluated to these two bodies, and minted. -/
def growsSecond (input : BuildSnapshotChunksInput) : Bool :=
  match evaluateSnapshotChunks integerText input with
  | .ok evaluation =>
    decide (evaluation.outputs.map (outputBody pairBody) = [bareBytes ["a"], bareBytes ["c", "x"]]) &&
      (evaluation.mint bareHash input.collectionPrefix input.incarnation).isOk
  | .error _ => false

theorem growsSecond_ok {input : BuildSnapshotChunksInput} (h : growsSecond input = true) :
    ∃ evaluation build, evaluateSnapshotChunks integerText input = .ok evaluation ∧
      evaluation.mint bareHash input.collectionPrefix input.incarnation = .ok build ∧
      evaluation.outputs.map (outputBody pairBody) = [bareBytes ["a"], bareBytes ["c", "x"]] := by
  unfold growsSecond at h
  split at h
  next evaluation hev =>
    rw [Bool.and_eq_true, decide_eq_true_eq] at h
    cases hmint : evaluation.mint bareHash input.collectionPrefix input.incarnation with
    | error e =>
      rw [hmint] at h
      exact absurd h.2 (by simp [Except.isOk, Except.toBool])
    | ok build => exact ⟨evaluation, build, hev, hmint, h.1⟩
  next => cases h

/-- The chunk of `a` is kept and the chunk of `c` grows; the list is valid. -/
theorem minted_valid_iff_notes : ∃ evaluation build,
    evaluateSnapshotChunks integerText insertBeside = .ok evaluation ∧
      evaluation.mint bareHash (js "p") zeroIncarnation = .ok build ∧
      evaluation.outputs.map (outputBody pairBody) = [bareBytes ["a"], bareBytes ["c", "x"]] ∧
      (ListValid integerText insertBeside pairBody build ↔
        ((js "p").any isLineTerminator = false ∨
          ∀ m ∈ mutationList insertBeside.mutations, m.after? = none)) := by
  have hgrows : growsSecond insertBeside = true := by decide +kernel
  obtain ⟨evaluation, build, hev, hmint, hbodies⟩ := growsSecond_ok hgrows
  refine ⟨evaluation, build, hev, hmint, hbodies, ?_⟩
  apply minted_valid_iff integerText bareHash storedPair pairBody insertBeside evaluation build
    storedPair_stored insertBeside_buildsOn hev hmint
  -- the two bodies have different hashes
  have hmem : ∀ o ∈ evaluation.outputs,
      outputBody pairBody o = bareBytes ["a"] ∨ outputBody pairBody o = bareBytes ["c", "x"] := by
    intro o ho
    simpa [hbodies] using List.mem_map_of_mem (f := outputBody pairBody) ho
  have hdistinct : bareHash (bareBytes ["a"]) ≠ bareHash (bareBytes ["c", "x"]) := by decide +kernel
  intro o ho o' ho' hhash
  rcases hmem o ho with hbody | hbody
  · rcases hmem o' ho' with hbody' | hbody'
    · rw [hbody, hbody']
    · rw [hbody, hbody'] at hhash
      exact absurd hhash hdistinct
  · rcases hmem o' ho' with hbody' | hbody'
    · rw [hbody, hbody'] at hhash
      exact absurd hhash.symm hdistinct
    · rw [hbody, hbody']

/-! ## A line separator in the name -/

/-- The insert of `x` into a collection without a snapshot. -/
def oneInsert (collection : JsString) : BuildSnapshotChunksInput where
  collection := collection
  collectionPrefix := js "app/" ++ collection
  descriptors := []
  loadedChunks _ := none
  mutations := InsMap.empty.set (js "x") (.insert (js "x") (bareDoc "x"))
  incarnation := zeroIncarnation
  policy := ⟨1000, 100⟩
  lockedDirectOwnerIndex := none
  selectedNeighborIndex := none

/-- The snapshot of nothing. -/
def noChunks : ChunkedSnapshot := ⟨[], rfl, List.nodup_nil⟩

theorem oneInsert_buildsOn (collection : JsString) : BuildsOn noChunks (oneInsert collection) where
  descriptors := rfl
  loaded c hc := absurd hc List.not_mem_nil
  wf k m d hk hd := by
    have hentry : (k, m) ∈ [(js "x", ReferenceMutation.insert (js "x") (bareDoc "x"))] :=
      InsMap.mem_entries.mpr hk
    cases List.mem_singleton.mp hentry
    cases hd
    decide

theorem noChunks_stored (N : NumberText) (snapshotHash : List Byte → JsString)
    (collection : JsString) (collectionPrefix : Key) :
    StoredUnder N snapshotHash collection collectionPrefix noChunks fun _ => [] where
  decodes _ hc := absurd hc List.not_mem_nil
  under _ hd := absurd hd List.not_mem_nil

/-- The SHA-256 of the chunk of `x` in the collection `a\u2028b`. -/
def separatorDigest : JsString :=
  js "d76eabc723d42b1d8b383cf91452eca63e583bd375db66922a78acbb9bf1540b"

/-- The insert is evaluated to one chunk, and minted with its digest. -/
def insertsOnce (digest : JsString) (input : BuildSnapshotChunksInput) : Bool :=
  match evaluateSnapshotChunks integerText input with
  | .ok evaluation => evaluation.outputs.length = 1 &&
    (evaluation.mint (fun _ => digest) input.collectionPrefix input.incarnation).isOk
  | .error _ => false

theorem insertsOnce_ok {digest : JsString} {input : BuildSnapshotChunksInput}
    (h : insertsOnce digest input = true) :
    ∃ evaluation build, evaluateSnapshotChunks integerText input = .ok evaluation ∧
      evaluation.mint (fun _ => digest) input.collectionPrefix input.incarnation = .ok build ∧
      (∀ a ∈ evaluation.outputs, ∀ b ∈ evaluation.outputs, a = b) ∧ evaluation.outputs ≠ [] := by
  unfold insertsOnce at h
  split at h
  next evaluation hev =>
    rw [Bool.and_eq_true, decide_eq_true_eq] at h
    obtain ⟨o, ho⟩ := List.length_eq_one_iff.mp h.1
    cases hmint : evaluation.mint (fun _ => digest) input.collectionPrefix input.incarnation with
    | error e =>
      rw [hmint] at h
      exact absurd h.2 (by simp [Except.isOk, Except.toBool])
    | ok build =>
      refine ⟨evaluation, build, hev, hmint, fun a ha b hb => ?_, ?_⟩
      · rw [ho] at ha hb
        rw [List.mem_singleton.mp ha, List.mem_singleton.mp hb]
      · rw [ho]
        exact List.cons_ne_nil _ _
  next => cases h

/-- A collection whose name has a line separator: its chunk is built and stored under a key that the
    manifest refuses. -/
theorem separator_refused : ¬ ∀ (snapshotHash : List Byte → JsString) (base : ChunkedSnapshot)
    (body : SnapshotChunkDescriptor → List Byte) (input : BuildSnapshotChunksInput)
    (evaluation : SnapshotChunkEvaluation) (build : SnapshotChunkBuildResult),
    StoredUnder integerText snapshotHash input.collection input.collectionPrefix base body →
    BuildsOn base input → evaluateSnapshotChunks integerText input = .ok evaluation →
    evaluation.mint snapshotHash input.collectionPrefix input.incarnation = .ok build →
    (∀ a ∈ evaluation.outputs, ∀ b ∈ evaluation.outputs,
      snapshotHash (outputBody body a) = snapshotHash (outputBody body b) →
        outputBody body a = outputBody body b) →
    ListValid integerText input body build := by
  intro h
  have honce : insertsOnce separatorDigest (oneInsert [97, 0x2028, 98]) = true := by decide +kernel
  obtain ⟨evaluation, build, hev, hmint, hone, hne⟩ := insertsOnce_ok honce
  have hvalid := h (fun _ => separatorDigest) noChunks (fun _ => []) (oneInsert [97, 0x2028, 98])
    evaluation build (noChunks_stored _ _ _ _) (oneInsert_buildsOn _) hev hmint
    fun a ha b hb _ => by rw [hone a ha b hb]
  obtain ⟨M, -, hbuilt⟩ := evaluate_documents (oneInsert_buildsOn _) hev
  obtain ⟨hchunks, -, hkeys⟩ := mintOutputs_ok (mint_ok hmint).1
  obtain ⟨o, ho⟩ := List.exists_mem_of_ne_nil _ hne
  cases o with
  | kept d => exact absurd (hbuilt.built _ ho) List.not_mem_nil
  | rewritten item =>
    have hlist := canonicalizeDescriptors_ok.mp (hvalid.accepted .invalidConfig)
    obtain ⟨found, hmatch, -⟩ := (IsDescriptors.expect_iff.mp hlist).2 _
      (hchunks ▸ List.mem_map.mpr ⟨_, ho, rfl⟩)
    have hclean := matchArtifactKey_dirty (hkeys item ho) hmatch
    revert hclean
    decide

end Baerly
