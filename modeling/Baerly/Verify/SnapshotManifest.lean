import Baerly.Verify.SnapshotCodec

/-
  The manifest codec, both ways, and what the two codecs promise together.

  SPEC (`snapshotCodec_canonical`): what encodes is decoded, under the key of its hash, to its
  canonical form; bytes that decode are the encoding of what they decode to, once the collection is
  a path segment; canonical values are their own canonical form; and values equal as JSON have one
  encoding.

  CRUX: the descriptor loop carries the keys it has seen and the prefix of the first one.  Which
  values it accepts is a relation on lists (`IsDescriptors`) that equal values cannot tell apart;
  the prefix a decoder expects asks only that the descriptors lie under it
  (`IsDescriptors.expect_iff`).
-/

namespace Baerly

open Json
open Utf8 (Byte)

/-! ## Descriptors -/

/-- The members of a descriptor. -/
def descriptorFields : List JsString :=
  [js "first_id", js "last_id", js "key", js "byte_length", js "row_count"]

/-- A value `canonicalizeDescriptor` accepts, the descriptor it makes of it, and the collection
    prefix of its key. -/
structure IsDescriptor (expectedPrefix chunkPrefix : Option Key) (seenKeys : List Key) (v : Doc)
    (d : SnapshotChunkDescriptor) (p : Key) : Prop where
  exact : HasExactly descriptorFields v
  firstId : v.member (js "first_id") = some (.str d.firstId) ∧ assertSnapshotDocId d.firstId = .ok ()
  lastId : v.member (js "last_id") = some (.str d.lastId) ∧ assertSnapshotDocId d.lastId = .ok ()
  ordered : compareDocIds d.firstId d.lastId ≠ .gt
  key : v.member (js "key") = some (.str d.key)
  found : ∃ found, IsArtifactKey .chunk d.key found ∧ found.collectionPrefix = p
  shared : chunkPrefix = none ∨ chunkPrefix = some p
  expected : expectedPrefix = none ∨ expectedPrefix = some p
  byteLength : v.member (js "byte_length") = some (.num (JsNumber.ofNat d.byteLength)) ∧
    0 < d.byteLength ∧ d.byteLength ≤ maxChunkBytes
  rowCount : v.member (js "row_count") = some (.num (JsNumber.ofNat d.rowCount)) ∧
    0 < d.rowCount ∧ d.rowCount ≤ maxChunkRows
  fresh : d.key ∉ seenKeys

theorem positiveSafeInteger_ok {value : Option Doc} {maximum : Nat} {place : String}
    {code : CodecCode} {n : Nat} (hmax : maximum ≤ maxSafeInteger) :
    positiveSafeInteger value maximum place code = .ok n ↔
      value = some (.num (JsNumber.ofNat n)) ∧ 0 < n ∧ n ≤ maximum := by
  unfold positiveSafeInteger
  simp only [bind_ok_iff, asSafeNat_ok, check_ok, Except.ok.injEq]
  constructor
  · rintro ⟨m, ⟨hvalue, -⟩, _, hrange, rfl⟩
    exact ⟨hvalue, hrange⟩
  · rintro ⟨hvalue, hrange⟩
    exact ⟨n, ⟨hvalue, by omega⟩, (), hrange, rfl⟩

theorem maxChunkBytes_safe : maxChunkBytes ≤ maxSafeInteger := by decide

theorem maxChunkRows_safe : maxChunkRows ≤ maxSafeInteger := by decide

theorem canonicalizeDescriptor_ok {code : CodecCode} {expectedPrefix chunkPrefix : Option Key}
    {seenKeys : List Key} {index : Nat} {v : Doc} {d : SnapshotChunkDescriptor} {p : Key} :
    canonicalizeDescriptor code expectedPrefix chunkPrefix seenKeys index v = .ok (d, p) ↔
      IsDescriptor expectedPrefix chunkPrefix seenKeys v d p := by
  unfold canonicalizeDescriptor
  constructor
  · intro h
    obtain ⟨ms, hfields, h⟩ := except_bind_ok h
    obtain ⟨firstId, hfirst, h⟩ := except_bind_ok h
    obtain ⟨lastId, hlast, h⟩ := except_bind_ok h
    obtain ⟨_, hordered, h⟩ := except_bind_ok h
    obtain ⟨key, hkey, h⟩ := except_bind_ok h
    obtain ⟨found, hfound, h⟩ := except_bind_ok h
    obtain ⟨_, hshared, h⟩ := except_bind_ok h
    obtain ⟨_, hexpected, h⟩ := except_bind_ok h
    obtain ⟨byteLength, hbytes, h⟩ := except_bind_ok h
    obtain ⟨rowCount, hrows, h⟩ := except_bind_ok h
    obtain ⟨_, hfresh, h⟩ := except_bind_ok h
    cases h
    obtain ⟨rfl, hlen, hkeys⟩ := assertExactFields_ok.mp hfields
    rw [assertCodecDocId_ok] at hfirst hlast
    rw [check_ok] at hordered hshared hexpected hfresh
    rw [positiveSafeInteger_ok maxChunkBytes_safe] at hbytes
    rw [positiveSafeInteger_ok maxChunkRows_safe] at hrows
    exact { exact := ⟨ms, rfl, hlen, hkeys⟩, firstId := hfirst, lastId := hlast,
            ordered := hordered, key := asString_ok.mp hkey,
            found := ⟨found, parseArtifactKey_ok.mp hfound, rfl⟩, shared := hshared,
            expected := hexpected, byteLength := hbytes, rowCount := hrows, fresh := hfresh }
  · intro h
    obtain ⟨ms, rfl, hlen, hkeys⟩ := h.exact
    obtain ⟨found, hfound, rfl⟩ := h.found
    refine bind_ok_iff.mpr ⟨ms, assertExactFields_ok.mpr ⟨rfl, hlen, hkeys⟩, ?_⟩
    refine bind_ok_iff.mpr ⟨d.firstId, assertCodecDocId_ok.mpr h.firstId, ?_⟩
    refine bind_ok_iff.mpr ⟨d.lastId, assertCodecDocId_ok.mpr h.lastId, ?_⟩
    refine bind_ok_iff.mpr ⟨(), check_ok.mpr h.ordered, ?_⟩
    refine bind_ok_iff.mpr ⟨d.key, asString_ok.mpr h.key, ?_⟩
    refine bind_ok_iff.mpr ⟨found, parseArtifactKey_ok.mpr hfound, ?_⟩
    refine bind_ok_iff.mpr ⟨(), check_ok.mpr h.shared, ?_⟩
    refine bind_ok_iff.mpr ⟨(), check_ok.mpr h.expected, ?_⟩
    refine bind_ok_iff.mpr
      ⟨d.byteLength, (positiveSafeInteger_ok maxChunkBytes_safe).mpr h.byteLength, ?_⟩
    refine bind_ok_iff.mpr ⟨d.rowCount, (positiveSafeInteger_ok maxChunkRows_safe).mpr h.rowCount, ?_⟩
    exact bind_ok_iff.mpr ⟨(), check_ok.mpr h.fresh, rfl⟩

/-- The descriptors of a list of values: each is accepted after the ones before it. -/
def IsDescriptors (expectedPrefix : Option Key) : (chunkPrefix : Option Key) →
    (seenKeys : List Key) → List Doc → List SnapshotChunkDescriptor → Prop
  | _, _, [], [] => True
  | chunkPrefix, seenKeys, v :: vs, d :: ds =>
    ∃ p, IsDescriptor expectedPrefix chunkPrefix seenKeys v d p ∧
      IsDescriptors expectedPrefix (some p) (d.key :: seenKeys) vs ds
  | _, _, _, _ => False

theorem canonicalizeDescriptors_ok {code : CodecCode} {expectedPrefix : Option Key}
    {vs : List Doc} {ds : List SnapshotChunkDescriptor} {chunkPrefix : Option Key}
    {seenKeys : List Key} {index : Nat} :
    canonicalizeDescriptors code expectedPrefix chunkPrefix seenKeys index vs = .ok ds ↔
      IsDescriptors expectedPrefix chunkPrefix seenKeys vs ds := by
  induction vs generalizing ds chunkPrefix seenKeys index with
  | nil =>
    cases ds with
    | nil => simp [canonicalizeDescriptors, IsDescriptors]
    | cons d ds => simp [canonicalizeDescriptors, IsDescriptors]
  | cons v vs ih =>
    rw [canonicalizeDescriptors, bind_ok_iff]
    constructor
    · rintro ⟨⟨d, p⟩, hd, h⟩
      obtain ⟨ds', hds, h⟩ := except_bind_ok h
      cases h
      exact ⟨p, canonicalizeDescriptor_ok.mp hd, ih.mp hds⟩
    · intro h
      cases ds with
      | nil => exact h.elim
      | cons d ds =>
        obtain ⟨p, hd, hds⟩ := h
        exact ⟨(d, p), canonicalizeDescriptor_ok.mpr hd, bind_ok_iff.mpr ⟨ds, ih.mpr hds, rfl⟩⟩

theorem IsDescriptor.of_same {expectedPrefix chunkPrefix : Option Key} {seenKeys : List Key}
    {v w : Doc} {d : SnapshotChunkDescriptor} {p : Key}
    (h : IsDescriptor expectedPrefix chunkPrefix seenKeys v d p) (hv : v.wf = true)
    (hw : w.wf = true) (hsame : jsonValueEqual v w = true) :
    IsDescriptor expectedPrefix chunkPrefix seenKeys w d p :=
  { h with
    exact := h.exact.of_same hv hw hsame
    firstId := ⟨member_scalar_of_same hv hw hsame rfl h.firstId.1, h.firstId.2⟩
    lastId := ⟨member_scalar_of_same hv hw hsame rfl h.lastId.1, h.lastId.2⟩
    key := member_scalar_of_same hv hw hsame rfl h.key
    byteLength := ⟨member_scalar_of_same hv hw hsame rfl h.byteLength.1, h.byteLength.2⟩
    rowCount := ⟨member_scalar_of_same hv hw hsame rfl h.rowCount.1, h.rowCount.2⟩ }

theorem IsDescriptor.same {expectedPrefix chunkPrefix : Option Key} {seenKeys : List Key}
    {v : Doc} {d : SnapshotChunkDescriptor} {p : Key}
    (h : IsDescriptor expectedPrefix chunkPrefix seenKeys v d p) :
    jsonValueEqual d.toJson v = true := by
  obtain ⟨ms, rfl, hlen, -⟩ := h.exact
  refine same_obj hlen.symm ?_
  simp only [List.forall_mem_cons, List.not_mem_nil, false_implies, implies_true, and_true]
  exact ⟨⟨_, h.firstId.1, same_refl rfl⟩, ⟨_, h.lastId.1, same_refl rfl⟩,
    ⟨_, h.key, same_refl rfl⟩, ⟨_, h.byteLength.1, same_refl rfl⟩,
    ⟨_, h.rowCount.1, same_refl rfl⟩⟩

theorem SnapshotChunkDescriptor.toJson_wf (d : SnapshotChunkDescriptor) : d.toJson.wf = true := by
  rw [SnapshotChunkDescriptor.toJson, wf_obj]
  refine ⟨by show descriptorFields.Nodup; decide, ?_⟩
  simp only [List.forall_mem_cons, List.not_mem_nil, false_implies, implies_true, and_true]
  exact ⟨rfl, rfl, rfl, rfl, rfl⟩

theorem SnapshotChunkDescriptor.built (d : SnapshotChunkDescriptor) :
    rearrange objectOf d.toJson = d.toJson := by
  refine built_named (by show descriptorFields.Nodup; decide) ?_ ?_
  · simp only [List.forall_mem_cons, List.not_mem_nil, false_implies, implies_true, and_true]
    decide
  · simp only [List.forall_mem_cons, List.not_mem_nil, false_implies, implies_true, and_true]
    exact ⟨rfl, rfl, rfl, rfl, rfl⟩

/-- Equal values make the same descriptors. -/
theorem IsDescriptors.of_form {expectedPrefix : Option Key} {vs ws : List Doc}
    {ds : List SnapshotChunkDescriptor} {chunkPrefix : Option Key} {seenKeys : List Key}
    (h : IsDescriptors expectedPrefix chunkPrefix seenKeys vs ds) (hvs : ∀ v ∈ vs, v.wf = true)
    (hws : ∀ w ∈ ws, w.wf = true) (hform : ws.map canonicalForm = vs.map canonicalForm) :
    IsDescriptors expectedPrefix chunkPrefix seenKeys ws ds := by
  induction vs generalizing ws ds chunkPrefix seenKeys with
  | nil =>
    cases ws with
    | nil => exact h
    | cons w ws => cases hform
  | cons v vs ih =>
    cases ws with
    | nil => cases hform
    | cons w ws =>
      cases ds with
      | nil => exact h.elim
      | cons d ds =>
        rw [List.map_cons, List.map_cons, List.cons.injEq] at hform
        rw [List.forall_mem_cons] at hvs hws
        obtain ⟨p, hd, hds⟩ := h
        have hsame : jsonValueEqual v w = true :=
          (same_iff_canonicalForm hvs.1 hws.1).mpr hform.1.symm
        exact ⟨p, hd.of_same hvs.1 hws.1 hsame, ih hds hvs.2 hws.2 hform.2⟩

theorem IsDescriptors.form {expectedPrefix : Option Key} {vs : List Doc}
    {ds : List SnapshotChunkDescriptor} {chunkPrefix : Option Key} {seenKeys : List Key}
    (h : IsDescriptors expectedPrefix chunkPrefix seenKeys vs ds) (hvs : ∀ v ∈ vs, v.wf = true) :
    (ds.map SnapshotChunkDescriptor.toJson).map canonicalForm = vs.map canonicalForm := by
  induction vs generalizing ds chunkPrefix seenKeys with
  | nil =>
    cases ds with
    | nil => rfl
    | cons d ds => exact h.elim
  | cons v vs ih =>
    cases ds with
    | nil => exact h.elim
    | cons d ds =>
      rw [List.forall_mem_cons] at hvs
      obtain ⟨p, hd, hds⟩ := h
      rw [List.map_cons, List.map_cons, List.map_cons, ih hds hvs.2,
        canonicalForm_eq_of_same d.toJson_wf hvs.1 hd.same]

/-- The descriptors lie under the collection prefix `p`. -/
def Under (p : Key) (ds : List SnapshotChunkDescriptor) : Prop :=
  ∀ d ∈ ds, ∃ found, matchArtifactKey .chunk d.key = some found ∧ found.collectionPrefix = p

/-- Expecting a prefix asks for descriptors under it, and nothing else. -/
theorem IsDescriptors.expect_iff {p : Key} {vs : List Doc} {ds : List SnapshotChunkDescriptor}
    {chunkPrefix : Option Key} {seenKeys : List Key} :
    IsDescriptors (some p) chunkPrefix seenKeys vs ds ↔
      IsDescriptors none chunkPrefix seenKeys vs ds ∧ Under p ds := by
  induction vs generalizing ds chunkPrefix seenKeys with
  | nil =>
    cases ds with
    | nil => simp [IsDescriptors, Under]
    | cons d ds => simp [IsDescriptors]
  | cons v vs ih =>
    cases ds with
    | nil => simp [IsDescriptors]
    | cons d ds =>
      constructor
      · rintro ⟨q, hd, hds⟩
        have hq : p = q := by simpa using hd.expected
        obtain ⟨found, hfound, hp⟩ := hd.found
        have hrest := ih.mp hds
        refine ⟨⟨q, { hd with expected := Or.inl rfl }, hrest.1⟩, ?_⟩
        rw [Under, List.forall_mem_cons]
        exact ⟨⟨found, hfound.2.1, by rw [hp, hq]⟩, hrest.2⟩
      · rintro ⟨⟨q, hd, hds⟩, hunder⟩
        rw [Under, List.forall_mem_cons] at hunder
        obtain ⟨⟨found, hmatch, hp⟩, hrest⟩ := hunder
        obtain ⟨found', hfound', hq⟩ := hd.found
        have heq : q = p := by
          rw [hfound'.2.1, Option.some.injEq] at hmatch
          rw [← hq, hmatch, hp]
        exact ⟨q, { hd with expected := Or.inr (by rw [heq]) }, ih.mpr ⟨hds, hrest⟩⟩

/-! ## Manifests -/

/-- The members of a manifest. -/
def manifestFields : List JsString :=
  [js "schema_version", js "collection", js "log_seq_start", js "incarnation", js "collation",
    js "chunks"]

/-- A value `canonicalizeManifest` accepts, and the manifest it makes of it. -/
structure IsManifest (code : CodecCode) (expectedPrefix : Option Key) (v : Doc)
    (m : SnapshotManifest) : Prop where
  exact : HasExactly manifestFields v
  version : v.member (js "schema_version") = some schemaVersion
  collection : v.member (js "collection") = some (.str m.collection)
  segment : code = .invalidConfig → assertPathSegment m.collection "collection" = .ok ()
  logSeqStart : v.member (js "log_seq_start") = some (.num (JsNumber.ofNat m.logSeqStart)) ∧
    m.logSeqStart ≤ maxSafeInteger
  incarnation : v.member (js "incarnation") = some (.str m.incarnation)
  hex : isIncarnation m.incarnation = true
  collation : v.member (js "collation") = some collation
  chunks : ∃ vs, v.member (js "chunks") = some (.arr vs) ∧ vs.length ≤ maxManifestChunks ∧
    IsDescriptors expectedPrefix none [] vs m.chunks
  increasing : rangesIncrease m.chunks = true

theorem canonicalizeManifest_ok {code : CodecCode} {expectedPrefix : Option Key} {v : Doc}
    {m : SnapshotManifest} :
    canonicalizeManifest v code expectedPrefix = .ok m ↔ IsManifest code expectedPrefix v m := by
  unfold canonicalizeManifest
  constructor
  · intro h
    obtain ⟨ms, hfields, h⟩ := except_bind_ok h
    obtain ⟨_, hversion, h⟩ := except_bind_ok h
    obtain ⟨collection, hcollection, h⟩ := except_bind_ok h
    obtain ⟨_, hsegment, h⟩ := except_bind_ok h
    obtain ⟨logSeqStart, hlog, h⟩ := except_bind_ok h
    obtain ⟨incarnation, hincarnation, h⟩ := except_bind_ok h
    obtain ⟨_, hhex, h⟩ := except_bind_ok h
    obtain ⟨_, hcollation, h⟩ := except_bind_ok h
    obtain ⟨vs, hvs, h⟩ := except_bind_ok h
    obtain ⟨_, hcount, h⟩ := except_bind_ok h
    obtain ⟨chunks, hchunks, h⟩ := except_bind_ok h
    obtain ⟨_, hincreasing, h⟩ := except_bind_ok h
    cases h
    obtain ⟨rfl, hlen, hkeys⟩ := assertExactFields_ok.mp hfields
    rw [check_ok] at hversion hhex hcollation hcount hincreasing
    rw [asString_ok] at hcollection hincarnation
    exact { exact := ⟨ms, rfl, hlen, hkeys⟩, version := hversion, collection := hcollection,
            segment := assertCallerCollection_ok.mp hsegment, logSeqStart := asSafeNat_ok.mp hlog,
            incarnation := hincarnation, hex := hhex, collation := hcollation,
            chunks := ⟨vs, asArray_ok.mp hvs, hcount, canonicalizeDescriptors_ok.mp hchunks⟩,
            increasing := hincreasing }
  · intro h
    obtain ⟨ms, rfl, hlen, hkeys⟩ := h.exact
    obtain ⟨vs, hvs, hcount, hchunks⟩ := h.chunks
    refine bind_ok_iff.mpr ⟨ms, assertExactFields_ok.mpr ⟨rfl, hlen, hkeys⟩, ?_⟩
    refine bind_ok_iff.mpr ⟨(), check_ok.mpr h.version, ?_⟩
    refine bind_ok_iff.mpr ⟨m.collection, asString_ok.mpr h.collection, ?_⟩
    refine bind_ok_iff.mpr ⟨(), assertCallerCollection_ok.mpr h.segment, ?_⟩
    refine bind_ok_iff.mpr ⟨m.logSeqStart, asSafeNat_ok.mpr h.logSeqStart, ?_⟩
    refine bind_ok_iff.mpr ⟨m.incarnation, asString_ok.mpr h.incarnation, ?_⟩
    refine bind_ok_iff.mpr ⟨(), check_ok.mpr h.hex, ?_⟩
    refine bind_ok_iff.mpr ⟨(), check_ok.mpr h.collation, ?_⟩
    refine bind_ok_iff.mpr ⟨vs, asArray_ok.mpr hvs, ?_⟩
    refine bind_ok_iff.mpr ⟨(), check_ok.mpr hcount, ?_⟩
    refine bind_ok_iff.mpr ⟨m.chunks, canonicalizeDescriptors_ok.mpr hchunks, ?_⟩
    exact bind_ok_iff.mpr ⟨(), check_ok.mpr h.increasing, rfl⟩

/-- **Equal values make one manifest.** -/
theorem IsManifest.of_same {code : CodecCode} {expectedPrefix : Option Key} {v w : Doc}
    {m : SnapshotManifest} (h : IsManifest code expectedPrefix v m) (hv : v.wf = true)
    (hw : w.wf = true) (hsame : jsonValueEqual v w = true) : IsManifest code expectedPrefix w m := by
  obtain ⟨vs, hvs, hcount, hchunks⟩ := h.chunks
  obtain ⟨ws, hws, hform⟩ := member_arr_of_same hv hw hsame hvs
  have hlen : ws.length = vs.length := by simpa using congrArg List.length hform
  exact { h with
          exact := h.exact.of_same hv hw hsame
          version := member_scalar_of_same hv hw hsame rfl h.version
          collection := member_scalar_of_same hv hw hsame rfl h.collection
          logSeqStart := ⟨member_scalar_of_same hv hw hsame rfl h.logSeqStart.1, h.logSeqStart.2⟩
          incarnation := member_scalar_of_same hv hw hsame rfl h.incarnation
          collation := member_scalar_of_same hv hw hsame rfl h.collation
          chunks := ⟨ws, hws, by omega, hchunks.of_form (member_arr_wf hv hvs)
            (member_arr_wf hw hws) hform⟩ }

theorem descriptors_wf (ds : List SnapshotChunkDescriptor) :
    (Json.arr (ds.map SnapshotChunkDescriptor.toJson)).wf = true := by
  rw [wf_arr, List.forall_mem_map]
  exact fun d _ => d.toJson_wf

theorem SnapshotManifest.toJson_wf (m : SnapshotManifest) : m.toJson.wf = true := by
  rw [SnapshotManifest.toJson, wf_obj]
  refine ⟨by show manifestFields.Nodup; decide, ?_⟩
  simp only [List.forall_mem_cons, List.not_mem_nil, false_implies, implies_true, and_true]
  exact ⟨rfl, rfl, rfl, rfl, rfl, descriptors_wf m.chunks⟩

/-- **A manifest is the value it was made of**, up to the order of members. -/
theorem IsManifest.same {code : CodecCode} {expectedPrefix : Option Key} {v : Doc}
    {m : SnapshotManifest} (h : IsManifest code expectedPrefix v m) (hv : v.wf = true) :
    jsonValueEqual m.toJson v = true := by
  obtain ⟨ms, rfl, hlen, -⟩ := h.exact
  obtain ⟨vs, hvs, -, hchunks⟩ := h.chunks
  have hdescriptors : jsonValueEqual (.arr (m.chunks.map SnapshotChunkDescriptor.toJson)) (.arr vs) =
      true := by
    rw [same_iff_canonicalForm (descriptors_wf m.chunks) (member_wf hv hvs), canonicalForm_arr,
      canonicalForm_arr, hchunks.form (member_arr_wf hv hvs)]
  refine same_obj hlen.symm ?_
  simp only [List.forall_mem_cons, List.not_mem_nil, false_implies, implies_true, and_true]
  exact ⟨⟨_, h.version, same_refl rfl⟩, ⟨_, h.collection, same_refl rfl⟩,
    ⟨_, h.logSeqStart.1, same_refl rfl⟩, ⟨_, h.incarnation, same_refl rfl⟩,
    ⟨_, h.collation, same_refl rfl⟩, ⟨_, hvs, hdescriptors⟩⟩

/-- **Canonicalisation is idempotent.** -/
theorem IsManifest.idem {code : CodecCode} {expectedPrefix : Option Key} {v : Doc}
    {m : SnapshotManifest} (h : IsManifest code expectedPrefix v m) (hv : v.wf = true) :
    IsManifest code expectedPrefix m.toJson m := by
  have hsame : jsonValueEqual v m.toJson = true := by
    rw [same_iff_canonicalForm hv m.toJson_wf,
      (same_iff_canonicalForm m.toJson_wf hv).mp (h.same hv)]
  exact h.of_same hv m.toJson_wf hsame

theorem SnapshotManifest.built (m : SnapshotManifest) : rearrange objectOf m.toJson = m.toJson := by
  have hchunks : rearrange objectOf (.arr (m.chunks.map SnapshotChunkDescriptor.toJson)) =
      .arr (m.chunks.map SnapshotChunkDescriptor.toJson) := by
    rw [rearrange, rearrangeItems_eq, List.map_map]
    congr 1
    exact List.map_congr_left fun d _ => d.built
  refine built_named (by show manifestFields.Nodup; decide) ?_ ?_
  · simp only [List.forall_mem_cons, List.not_mem_nil, false_implies, implies_true, and_true]
    decide
  · simp only [List.forall_mem_cons, List.not_mem_nil, false_implies, implies_true, and_true]
    exact ⟨rfl, rfl, rfl, rfl, rfl, hchunks⟩

/-! ## Manifests, both ways -/

theorem encodeSnapshotManifest_ok {N : NumberText} {v : Doc} {bytes : List Byte} :
    encodeSnapshotManifest N v = .ok bytes ↔
      ∃ m, IsManifest .invalidConfig none v m ∧ bytes = encodeJsonBytes N m.toJson ∧
        bytes.length ≤ maxManifestBytes := by
  unfold encodeSnapshotManifest
  simp only [bind_ok_iff, canonicalizeManifest_ok, check_ok, Except.ok.injEq]
  constructor
  · rintro ⟨m, hm, _, hlen, rfl⟩
    exact ⟨m, hm, rfl, hlen⟩
  · rintro ⟨m, hm, rfl, hlen⟩
    exact ⟨m, hm, (), hlen, rfl⟩

/-- What `decodeSnapshotManifest` has checked when it returns `m`. -/
structure DecodesManifest (N : NumberText) (snapshotHash : List Byte → JsString)
    (bytes : List Byte) (key : Key) (collection : JsString) (logSeqStart : Nat)
    (m : SnapshotManifest) : Prop where
  length : ¬ (bytes.length = 0 ∨ maxManifestBytes < bytes.length)
  parsed : ∃ found v, IsArtifactKey .manifest key found ∧ snapshotHash bytes = found.digest ∧
    m.incarnation = found.incarnation ∧ decodeJsonBytes N bytes = some v ∧
      IsManifest .invalidResponse (some found.collectionPrefix) v m
  canonical : bytes = encodeJsonBytes N m.toJson
  collection : m.collection = collection
  logSeqStart : m.logSeqStart = logSeqStart

theorem decodeSnapshotManifest_ok {N : NumberText} {snapshotHash : List Byte → JsString}
    {bytes : List Byte} {key : Key} {collection : JsString} {logSeqStart : Nat}
    {m : SnapshotManifest} :
    decodeSnapshotManifest N snapshotHash bytes key collection logSeqStart = .ok m ↔
      DecodesManifest N snapshotHash bytes key collection logSeqStart m := by
  unfold decodeSnapshotManifest
  constructor
  · intro h
    obtain ⟨_, hlength, h⟩ := except_bind_ok h
    obtain ⟨found, hfound, h⟩ := except_bind_ok h
    obtain ⟨_, hhash, h⟩ := except_bind_ok h
    split at h
    next => cases h
    next v hv =>
      obtain ⟨m', hmanifest, h⟩ := except_bind_ok h
      obtain ⟨_, hcanonical, h⟩ := except_bind_ok h
      obtain ⟨_, hcollection, h⟩ := except_bind_ok h
      obtain ⟨_, hlog, h⟩ := except_bind_ok h
      obtain ⟨_, hincarnation, h⟩ := except_bind_ok h
      cases h
      rw [check_ok] at hlength hhash hcanonical hcollection hlog hincarnation
      rw [parseArtifactKey_ok] at hfound
      rw [canonicalizeManifest_ok] at hmanifest
      exact ⟨hlength, ⟨found, v, hfound, hhash, hincarnation, hv, hmanifest⟩, hcanonical,
        hcollection, hlog⟩
  · rintro ⟨hlength, ⟨found, v, hfound, hhash, hincarnation, hv, hmanifest⟩, hcanonical,
      hcollection, hlog⟩
    refine bind_ok_iff.mpr ⟨(), check_ok.mpr hlength, ?_⟩
    refine bind_ok_iff.mpr ⟨found, parseArtifactKey_ok.mpr hfound, ?_⟩
    refine bind_ok_iff.mpr ⟨(), check_ok.mpr hhash, ?_⟩
    rw [hv]
    refine bind_ok_iff.mpr ⟨m, canonicalizeManifest_ok.mpr hmanifest, ?_⟩
    refine bind_ok_iff.mpr ⟨(), check_ok.mpr hcanonical, ?_⟩
    refine bind_ok_iff.mpr ⟨(), check_ok.mpr hcollection, ?_⟩
    refine bind_ok_iff.mpr ⟨(), check_ok.mpr hlog, ?_⟩
    exact bind_ok_iff.mpr ⟨(), check_ok.mpr hincarnation, rfl⟩

/-- What is read back is what went in, with the prefix of the key expected. -/
theorem IsManifest.response {v : Doc} {m : SnapshotManifest} {p : Key}
    (h : IsManifest .invalidConfig none v m) (hunder : Under p m.chunks) :
    IsManifest .invalidResponse (some p) v m := by
  obtain ⟨vs, hvs, hcount, hchunks⟩ := h.chunks
  exact { h with
          segment := nofun
          chunks := ⟨vs, hvs, hcount, IsDescriptors.expect_iff.mpr ⟨hchunks, hunder⟩⟩ }

/-- What was read can go in again, if the collection may. -/
theorem IsManifest.config {v : Doc} {m : SnapshotManifest} {p : Key}
    (h : IsManifest .invalidResponse (some p) v m)
    (hsegment : assertPathSegment m.collection "collection" = .ok ()) :
    IsManifest .invalidConfig none v m := by
  obtain ⟨vs, hvs, hcount, hchunks⟩ := h.chunks
  exact { h with
          segment := fun _ => hsegment
          chunks := ⟨vs, hvs, hcount, (IsDescriptors.expect_iff.mp hchunks).1⟩ }

/-- **What encodes decodes to its canonical form.** -/
theorem decode_encodedManifest {N : NumberText} {snapshotHash : List Byte → JsString} {v : Doc}
    {bytes : List Byte} {m : SnapshotManifest} {key collectionPrefix : Key} (hv : v.wf = true)
    (hm : IsManifest .invalidConfig none v m) (hbytes : bytes = encodeJsonBytes N m.toJson)
    (hlen : bytes.length ≤ maxManifestBytes)
    (hkey : snapshotManifestKey collectionPrefix m.incarnation (snapshotHash bytes) = .ok key)
    (hline : collectionPrefix.any isLineTerminator = false)
    (hunder : Under collectionPrefix m.chunks) :
    decodeSnapshotManifest N snapshotHash bytes key m.collection m.logSeqStart = .ok m := by
  have hpos : bytes.length ≠ 0 := by
    rw [hbytes]
    exact encodeJsonBytes_length_pos _
  have hparsed : decodeJsonBytes N bytes = some m.toJson := by
    rw [hbytes]
    exact decodeJsonBytes_encode m.built
  exact decodeSnapshotManifest_ok.mpr
    { length := by omega
      parsed := ⟨_, m.toJson, isArtifactKey_text hkey hline, rfl, rfl, hparsed,
        (hm.idem hv).response hunder⟩
      canonical := hbytes
      collection := rfl
      logSeqStart := rfl }

/-- The encoder refuses a manifest whose collection is no path segment. -/
theorem IsManifest.refused {expectedPrefix : Option Key} {v : Doc} {m : SnapshotManifest} {e : Err}
    (h : IsManifest .invalidResponse expectedPrefix v m)
    (hsegment : assertPathSegment m.collection "collection" = .error e) :
    canonicalizeManifest v .invalidConfig none =
      .error (failManifest .invalidConfig "collection is invalid") := by
  obtain ⟨ms, rfl, hlen, hkeys⟩ := h.exact
  unfold canonicalizeManifest
  refine (bind_of_ok (assertExactFields_ok.mpr ⟨rfl, hlen, hkeys⟩)).trans ?_
  refine (bind_of_ok (a := ()) (check_ok.mpr h.version)).trans ?_
  refine (bind_of_ok (asString_ok.mpr h.collection)).trans ?_
  exact bind_of_error (assertCallerCollection_error hsegment)

/-- **What decodes is the encoding of what it decodes to**, once the collection is a path segment. -/
theorem encode_decodedManifest {N : NumberText} {snapshotHash : List Byte → JsString}
    {bytes : List Byte} {key : Key} {collection : JsString} {logSeqStart : Nat}
    {m : SnapshotManifest}
    (h : decodeSnapshotManifest N snapshotHash bytes key collection logSeqStart = .ok m) :
    encodeSnapshotManifest N m.toJson =
      if assertPathSegment collection "collection" = .ok () then .ok bytes
      else .error (failManifest .invalidConfig "collection is invalid") := by
  obtain ⟨hlength, ⟨found, v, -, -, -, hv, hmanifest⟩, hcanonical, rfl, -⟩ :=
    decodeSnapshotManifest_ok.mp h
  have hidem := hmanifest.idem (decodeJsonBytes_wf hv)
  split
  next hsegment =>
    exact encodeSnapshotManifest_ok.mpr ⟨m, hidem.config hsegment, hcanonical, by omega⟩
  next hsegment =>
    cases hassert : assertPathSegment m.collection "collection" with
    | ok u => exact absurd hassert hsegment
    | error e => exact bind_of_error (hidem.refused hassert)

/-! ## Canonical codecs -/

/-- What an artifact codec owes keys that are hashes of its bytes.  `Stored bytes c` says that
    `bytes` decode to `c` under the key of their hash, `Accepted bytes c` that they decode to `c`
    somewhere. -/
structure CanonicalCodec {C : Type} (toJson : C → Doc) (collection : C → JsString)
    (canonicalize : CodecCode → Doc → Except Err C) (encode : Doc → Except Err (List Byte))
    (fail : CodecFail) (Stored Accepted : List Byte → C → Prop) : Prop where
  /-- What encodes decodes to its canonical form, which is equal to it as JSON. -/
  decoded : ∀ v bytes, v.wf = true → encode v = .ok bytes → ∃ c,
    canonicalize .invalidConfig v = .ok c ∧ jsonValueEqual (toJson c) v = true ∧ Stored bytes c
  /-- What decodes encodes to the same bytes, or is refused for its collection. -/
  encoded : ∀ bytes c, Accepted bytes c → encode (toJson c) =
    if assertPathSegment (collection c) "collection" = .ok () then .ok bytes
    else .error (fail .invalidConfig "collection is invalid")
  /-- Canonical forms are their own. -/
  idempotent : ∀ code v c, v.wf = true → canonicalize code v = .ok c →
    canonicalize code (toJson c) = .ok c
  /-- Values equal as JSON have one encoding. -/
  unique : ∀ v w bytes, v.wf = true → w.wf = true → jsonValueEqual v w = true →
    encode v = .ok bytes → encode w = .ok bytes

/-- The bytes decode to `c` under the key of their hash, with the matching collection and
    descriptor.  The key builder takes a prefix with a line terminator, which the key grammar does
    not; such prefixes are left out. -/
def ChunkStored (N : NumberText) (snapshotHash : List Byte → JsString) (bytes : List Byte)
    (c : SnapshotChunk) : Prop :=
  ∀ p key, p.any isLineTerminator = false →
    snapshotChunkKey p c.incarnation (snapshotHash bytes) = .ok key →
      decodeSnapshotChunk N snapshotHash bytes key c.collection (c.descriptor key bytes) = .ok c

/-- The same for a manifest, whose descriptors lie under the prefix of its key. -/
def ManifestStored (N : NumberText) (snapshotHash : List Byte → JsString) (bytes : List Byte)
    (m : SnapshotManifest) : Prop :=
  ∀ p key, p.any isLineTerminator = false → Under p m.chunks →
    snapshotManifestKey p m.incarnation (snapshotHash bytes) = .ok key →
      decodeSnapshotManifest N snapshotHash bytes key m.collection m.logSeqStart = .ok m

/-- The bytes decode to `c` under some key, collection and descriptor. -/
def ChunkAccepted (N : NumberText) (snapshotHash : List Byte → JsString) (bytes : List Byte)
    (c : SnapshotChunk) : Prop :=
  ∃ key collection d, decodeSnapshotChunk N snapshotHash bytes key collection d = .ok c

/-- The bytes decode to `m` under some key, collection and floor. -/
def ManifestAccepted (N : NumberText) (snapshotHash : List Byte → JsString) (bytes : List Byte)
    (m : SnapshotManifest) : Prop :=
  ∃ key collection logSeqStart,
    decodeSnapshotManifest N snapshotHash bytes key collection logSeqStart = .ok m

theorem chunkCodec (N : NumberText) (snapshotHash : List Byte → JsString) :
    CanonicalCodec SnapshotChunk.toJson SnapshotChunk.collection
      (fun code v => canonicalizeChunk v code) (encodeSnapshotChunk N) failChunk
      (ChunkStored N snapshotHash) (ChunkAccepted N snapshotHash) where
  decoded v bytes hv h := by
    obtain ⟨c, hc, hbytes, hlen⟩ := (encodeSnapshotChunk_ok hv).mp h
    exact ⟨c, (canonicalizeChunk_ok hv).mpr hc, hc.same hv, fun p key hline hkey =>
      decode_encodedChunk hv hc hbytes hlen hkey hline⟩
  encoded bytes c := by
    rintro ⟨key, collection, d, h⟩
    rw [(decodeSnapshotChunk_ok.mp h).collection]
    exact encode_decodedChunk h
  idempotent code v c hv h := by
    have hc := (canonicalizeChunk_ok hv).mp h
    exact (canonicalizeChunk_ok (hc.toJson_wf hv)).mpr (hc.idem hv)
  unique v w bytes hv hw hsame h := by
    obtain ⟨c, hc, hbytes, hlen⟩ := (encodeSnapshotChunk_ok hv).mp h
    exact (encodeSnapshotChunk_ok hw).mpr ⟨c, hc.of_same hv hw hsame, hbytes, hlen⟩

theorem manifestCodec (N : NumberText) (snapshotHash : List Byte → JsString) :
    CanonicalCodec SnapshotManifest.toJson SnapshotManifest.collection
      (fun code v => canonicalizeManifest v code none) (encodeSnapshotManifest N) failManifest
      (ManifestStored N snapshotHash) (ManifestAccepted N snapshotHash) where
  decoded v bytes hv h := by
    obtain ⟨m, hm, hbytes, hlen⟩ := encodeSnapshotManifest_ok.mp h
    exact ⟨m, canonicalizeManifest_ok.mpr hm, hm.same hv, fun p key hline hunder hkey =>
      decode_encodedManifest hv hm hbytes hlen hkey hline hunder⟩
  encoded bytes m := by
    rintro ⟨key, collection, logSeqStart, h⟩
    rw [(decodeSnapshotManifest_ok.mp h).collection]
    exact encode_decodedManifest h
  idempotent code v m hv h :=
    canonicalizeManifest_ok.mpr ((canonicalizeManifest_ok.mp h).idem hv)
  unique v w bytes hv hw hsame h := by
    obtain ⟨m, hm, hbytes, hlen⟩ := encodeSnapshotManifest_ok.mp h
    exact encodeSnapshotManifest_ok.mpr ⟨m, hm.of_same hv hw hsame, hbytes, hlen⟩

/-- Documents equal as JSON have one canonical form, which is its own. -/
theorem canonicalizeDocument_canonical {code : CodecCode} {place : String} {v d : Doc}
    (hv : v.wf = true) (h : canonicalizeDocument code place v = .ok d) (place' : String) :
    canonicalizeDocument code place' d = .ok d ∧
      ∀ w : Doc, w.wf = true → jsonValueEqual v w = true →
        canonicalizeDocument code place' w = .ok d := by
  obtain ⟨hdoc, rfl⟩ := (canonicalizeDocument_ok hv).mp h
  have hform := canonicalForm_idem hv
  constructor
  · rw [canonicalizeDocument_ok (canonicalForm_wf hv)]
    exact ⟨hdoc.of_form hv (canonicalForm_wf hv) hform, hform.symm⟩
  · intro w hw hsame
    have hw' := canonicalForm_eq_of_same hv hw hsame
    rw [canonicalizeDocument_ok hw]
    exact ⟨hdoc.of_form hv hw hw'.symm, hw'⟩

/-- **The snapshot codecs are canonical**, for chunks, for manifests and for the documents in
    them. -/
theorem snapshotCodec_canonical (N : NumberText) (snapshotHash : List Byte → JsString) :
    CanonicalCodec SnapshotChunk.toJson SnapshotChunk.collection
      (fun code v => canonicalizeChunk v code) (encodeSnapshotChunk N) failChunk
      (ChunkStored N snapshotHash) (ChunkAccepted N snapshotHash) ∧
    CanonicalCodec SnapshotManifest.toJson SnapshotManifest.collection
      (fun code v => canonicalizeManifest v code none) (encodeSnapshotManifest N) failManifest
      (ManifestStored N snapshotHash) (ManifestAccepted N snapshotHash) ∧
    ∀ code place (v d : Doc), v.wf = true → canonicalizeDocument code place v = .ok d →
      ∀ place', canonicalizeDocument code place' d = .ok d ∧
        ∀ w : Doc, w.wf = true → jsonValueEqual v w = true →
          canonicalizeDocument code place' w = .ok d :=
  ⟨chunkCodec N snapshotHash, manifestCodec N snapshotHash,
    fun _ _ _ _ hv h => canonicalizeDocument_canonical hv h⟩

/-! ## Two bodies -/

/-- Numbers as the host prints them where they are safe integers, the others by their position in
    the numeric order. -/
def integerNumberText (n : JsNumber) : JsString :=
  match n.safeNat? with
  | some k => decimal k
  | none => (if n.ord < 0 then js "-0." else js "0.") ++ decimal n.ord.natAbs

/-- Reading such a text back. -/
def integerNumberValue (s : JsString) : Option JsNumber :=
  if s.all isDigit then some (JsNumber.ofNat (ofDigits s))
  else if s.head? = some 45 then JsNumber.ofOrd (-(ofDigits (s.drop 3) : Int))
  else JsNumber.ofOrd (ofDigits (s.drop 2) : Int)

theorem integerNumberValue_text (n : JsNumber) :
    integerNumberValue (integerNumberText n) = some n := by
  unfold integerNumberValue integerNumberText
  cases hsafe : n.safeNat? with
  | some k =>
    have hdigits : (decimal k).all isDigit = true := isDigit_decimal k
    simp only [hdigits, if_true, ofDigits_decimal, (JsNumber.safeNat?_iff.mp hsafe).1]
  | none =>
    by_cases hneg : n.ord < 0
    · have hdigits : (js "-0." ++ decimal n.ord.natAbs).all isDigit = false := by
        rw [List.all_append]
        rfl
      have hdrop : (js "-0." ++ decimal n.ord.natAbs).drop 3 = decimal n.ord.natAbs := rfl
      have hhead : (js "-0." ++ decimal n.ord.natAbs).head? = some 45 := rfl
      simp only [hneg, if_true, hdigits, Bool.false_eq_true, if_false, hhead, hdrop,
        ofDigits_decimal]
      rw [show -(n.ord.natAbs : Int) = n.ord by omega, JsNumber.ofOrd_ord]
    · have hdigits : (js "0." ++ decimal n.ord.natAbs).all isDigit = false := by
        rw [List.all_append]
        rfl
      have hdrop : (js "0." ++ decimal n.ord.natAbs).drop 2 = decimal n.ord.natAbs := rfl
      have hhead : ¬ (js "0." ++ decimal n.ord.natAbs).head? = some 45 := by
        show ¬ some (48 : Fin 65536) = some 45
        decide
      simp only [hneg, if_false, hdigits, Bool.false_eq_true, hhead, hdrop, ofDigits_decimal]
      rw [show (n.ord.natAbs : Int) = n.ord by omega, JsNumber.ofOrd_ord]

theorem integerNumberText_units (n : JsNumber) :
    ∀ u ∈ integerNumberText n, isNumberUnit u = true := by
  intro u hu
  have hdecimal : ∀ k, u ∈ decimal k → isNumberUnit u = true := fun k hk => by
    rw [isNumberUnit, isDigit_of_mem_decimal hk]
    rfl
  unfold integerNumberText at hu
  split at hu
  next k _ => exact hdecimal k hu
  next =>
    rcases List.mem_append.mp hu with hu | hu
    · have hsign : ∀ u ∈ js "-0." ++ js "0.", isNumberUnit u = true :=
        List.all_eq_true.mp (by decide)
      split at hu
      next => exact hsign u (List.mem_append_left _ hu)
      next => exact hsign u (List.mem_append_right _ hu)
    · exact hdecimal _ hu

theorem integerNumberText_starts (n : JsNumber) :
    ∃ u us, integerNumberText n = u :: us ∧ (u = 45 ∨ isDigit u = true) := by
  unfold integerNumberText
  split
  next k _ =>
    obtain ⟨u, us, hdec⟩ := decimal_cons k
    have hu : u ∈ decimal k := by
      rw [hdec]
      exact List.mem_cons_self
    exact ⟨u, us, hdec, Or.inr (isDigit_of_mem_decimal hu)⟩
  next =>
    split
    next => exact ⟨45, _, rfl, Or.inl rfl⟩
    next => exact ⟨48, _, rfl, Or.inr rfl⟩

/-- The number texts of the examples. -/
def integerText : NumberText where
  text := integerNumberText
  value := integerNumberValue
  value_text := integerNumberValue_text
  units := integerNumberText_units
  starts := integerNumberText_starts

/-- An incarnation. -/
def zeroIncarnation : JsString := List.replicate 32 48

/-- A chunk value with one document, its members in no particular order. -/
def chunkValue (collection : JsString) (document : Doc) : Doc :=
  .obj [(js "docs", .arr [document]), (js "schema_version", schemaVersion),
    (js "collection", .str collection), (js "incarnation", .str zeroIncarnation),
    (js "first_id", .str (js "x")), (js "last_id", .str (js "x"))]

/-- The text of the chunk `chunkValue collection document` encodes to. -/
def chunkText (collection document : String) : List Byte :=
  Utf8.encode (js ("\x7b\"schema_version\":2,\"collection\":\"" ++ collection ++
    "\",\"incarnation\":\"00000000000000000000000000000000\",\"first_id\":\"x\"," ++
    "\"last_id\":\"x\",\"docs\":[" ++ document ++ "]\x7d"))

/-- The key of a chunk with digest `digest`. -/
def chunkKey (digest : JsString) : Key := artifactKeyText .chunk (js "p") zeroIncarnation digest

/-- `{ "_id": "x", "10": 2, "9": 1 }`. -/
def indexedDocument : Doc :=
  .obj [(js "_id", .str (js "x")), (js "10", .num (JsNumber.ofNat 2)),
    (js "9", .num (JsNumber.ofNat 1))]

/-- The SHA-256 of the bytes that document is stored as. -/
def notesDigest : JsString := js "18f506d65908f90c28164c8e710502409025efc093074e44a5519f6702f4ff9e"

/-- The members are sorted as the engine lists them, and the bytes read back. -/
theorem snapshotCodec_canonical_notes :
    encodeSnapshotChunk integerText (chunkValue (js "notes") indexedDocument) =
        .ok (chunkText "notes" "\x7b\"9\":1,\"10\":2,\"_id\":\"x\"\x7d") ∧
      ∃ c, canonicalizeChunk (chunkValue (js "notes") indexedDocument) .invalidConfig = .ok c ∧
        decodeSnapshotChunk integerText (fun _ => notesDigest)
          (chunkText "notes" "\x7b\"9\":1,\"10\":2,\"_id\":\"x\"\x7d") (chunkKey notesDigest)
          c.collection (c.descriptor (chunkKey notesDigest)
            (chunkText "notes" "\x7b\"9\":1,\"10\":2,\"_id\":\"x\"\x7d")) = .ok c := by
  have hencode : encodeSnapshotChunk integerText (chunkValue (js "notes") indexedDocument) =
      .ok (chunkText "notes" "\x7b\"9\":1,\"10\":2,\"_id\":\"x\"\x7d") := by decide +kernel
  obtain ⟨c, hc, -, hstored⟩ := (snapshotCodec_canonical integerText fun _ => notesDigest).1.decoded
    _ _ (by decide +kernel) hencode
  refine ⟨hencode, c, hc, hstored (js "p") _ (by decide) ?_⟩
  have hchunk : canonicalizeChunk (chunkValue (js "notes") indexedDocument) .invalidConfig =
      .ok ⟨js "notes", zeroIncarnation, js "x", js "x", [canonicalForm indexedDocument]⟩ := by
    decide +kernel
  rw [hchunk] at hc
  cases hc
  decide +kernel

/-- The SHA-256 of the bytes of a chunk of the collection `a/b`. -/
def slashDigest : JsString := js "23b6a7a70ce3ebbd42b1d7c9c7fda3f494f09ef10a07005e271f170fd028e878"

/-- The decoder takes the collection it is told to expect, the encoder asks for a path segment. -/
theorem decoded_not_encoded : ¬ ∀ bytes key collection d c,
    decodeSnapshotChunk integerText (fun _ => slashDigest) bytes key collection d = .ok c →
      encodeSnapshotChunk integerText c.toJson = .ok bytes := by
  intro h
  have hdecode : decodeSnapshotChunk integerText (fun _ => slashDigest)
      (chunkText "a/b" "\x7b\"_id\":\"x\"\x7d") (chunkKey slashDigest) (js "a/b")
      ⟨js "x", js "x", chunkKey slashDigest,
        (chunkText "a/b" "\x7b\"_id\":\"x\"\x7d").length, 1⟩ =
        .ok ⟨js "a/b", zeroIncarnation, js "x", js "x", [.obj [(js "_id", .str (js "x"))]]⟩ := by
    decide +kernel
  have hencode := h _ _ _ _ _ hdecode
  revert hencode
  decide +kernel

end Baerly
