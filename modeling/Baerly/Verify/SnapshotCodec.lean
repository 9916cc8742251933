import Baerly.Verify.Canonical

/-
  The chunk codec, both ways.

  SPEC: a chunk that encodes is decoded, under the key of its hash, to its canonical form
  (`decode_encodedChunk`), and bytes that decode are the encoding of what they decode to
  (`encode_decodedChunk`), once the collection is a path segment: the encoder asks for that, the
  decoder only that it is the expected one.

  CRUX: what the validator accepts does not depend on who asks (`IsChunk`), apart from the
  collection.  A value and its canonical form are equal as JSON (`IsChunk.same`), so the form is
  accepted with itself as its form, and `JSON.parse` rebuilds it from its text because it is
  already in the engine's order (`IsChunk.built`).
-/

namespace Baerly

open Json
open Utf8 (Byte)

/-! ## Checks -/

/-- A sequence of checks succeeds if each does on what the one before gives. -/
theorem bind_ok_iff {α β : Type} {x : Except Err α} {f : α → Except Err β} {b : β} :
    (x >>= f) = .ok b ↔ ∃ a, x = .ok a ∧ f a = .ok b := by
  refine ⟨except_bind_ok, ?_⟩
  rintro ⟨a, rfl, h⟩
  exact h

/-- The rest runs on the result of the first. -/
theorem bind_of_ok {α β : Type} {x : Except Err α} {f : α → Except Err β} {a : α} (h : x = .ok a) :
    (x >>= f) = f a := by
  rw [h]
  rfl

/-- An error ends the sequence. -/
theorem bind_of_error {α β : Type} {x : Except Err α} {f : α → Except Err β} {e : Err}
    (h : x = .error e) : (x >>= f) = .error e := by
  rw [h]
  rfl

/-- A check passes iff what it checks is so. -/
theorem check_ok {ok : Prop} [Decidable ok] {failure : Err} {u : Unit} :
    check ok failure = .ok u ↔ ok := by
  unfold check
  split
  next h => simp [h]
  next h => simp [h]

/-- What is taken for a string is one. -/
theorem asString_ok {value : Option Doc} {failure : Err} {s : JsString} :
    asString value failure = .ok s ↔ value = some (.str s) := by
  unfold asString
  split
  next => simp
  next h =>
    simp only [reduceCtorEq, false_iff]
    exact h s

/-- What is taken for an array is one. -/
theorem asArray_ok {value : Option Doc} {failure : Err} {xs : List Doc} :
    asArray value failure = .ok xs ↔ value = some (.arr xs) := by
  unfold asArray
  split
  next => simp
  next h =>
    simp only [reduceCtorEq, false_iff]
    exact h xs

/-- What is taken for a count is a safe integer that is not negative. -/
theorem asSafeNat_ok {value : Option Doc} {failure : Err} {n : Nat} :
    asSafeNat value failure = .ok n ↔
      value = some (.num (JsNumber.ofNat n)) ∧ n ≤ maxSafeInteger := by
  unfold asSafeNat
  split
  next x =>
    rw [Option.some.injEq, Json.num.injEq, ← JsNumber.safeNat?_iff]
    split
    next m hm => simp [hm]
    next hm => simp [hm]
  next h =>
    simp only [reduceCtorEq, false_iff]
    rintro ⟨rfl, -⟩
    exact h _ rfl

/-- An object has exactly these fields if it has as many as there are, and each of them. -/
theorem assertExactFields_ok {value : Doc} {keys : List JsString} {place : String} {code : CodecCode}
    {fail : CodecFail} {ms : List (JsString × Doc)} :
    assertExactFields value keys place code fail = .ok ms ↔
      value = .obj ms ∧ ms.length = keys.length ∧ ∀ key ∈ keys, (ms.lookup key).isSome = true := by
  unfold assertExactFields
  split
  next ms' =>
    split
    next h =>
      constructor
      · rintro ⟨⟩
        exact ⟨rfl, h⟩
      · rintro ⟨⟨⟩, -⟩
        rfl
    next h =>
      simp only [reduceCtorEq, false_iff]
      rintro ⟨⟨⟩, h'⟩
      exact h h'
  next hobj =>
    simp only [reduceCtorEq, false_iff]
    rintro ⟨rfl, -⟩
    exact hobj ms rfl

/-- An id passes if it is a string that a snapshot may hold. -/
theorem assertCodecDocId_ok {value : Option Doc} {place : String} {code : CodecCode}
    {fail : CodecFail} {id : JsString} :
    assertCodecDocId value place code fail = .ok id ↔
      value = some (.str id) ∧ assertSnapshotDocId id = .ok () := by
  unfold assertCodecDocId
  rw [bind_ok_iff]
  constructor
  · rintro ⟨id', hid, h⟩
    rw [asString_ok] at hid
    split at h
    next hok =>
      cases h
      exact ⟨hid, hok⟩
    next => cases h
  · rintro ⟨hid, hok⟩
    refine ⟨id, asString_ok.mpr hid, ?_⟩
    rw [hok]

theorem assertCallerSegment_ok {value : JsString} {role : String} {fail : CodecFail} :
    assertCallerSegment value role fail = .ok () ↔ assertPathSegment value role = .ok () := by
  unfold assertCallerSegment
  split
  next h => simp [h]
  next h => simp [h]

/-! ## Keys -/

/-- A key `parseArtifactKey` accepts, with its parts. -/
def IsArtifactKey (kind : ArtifactKind) (key : Key) (found : ParsedArtifactKey) : Prop :=
  utf8Length key ≤ maxKeyBytes ∧ matchArtifactKey kind key = some found ∧
    found.collectionPrefix.getLast? ≠ some slash

/-- A key parses iff it is the key of an artifact of its kind. -/
theorem parseArtifactKey_ok {key : Key} {kind : ArtifactKind} {code : CodecCode} {fail : CodecFail}
    {found : ParsedArtifactKey} :
    parseArtifactKey key kind code fail = .ok found ↔ IsArtifactKey kind key found := by
  unfold parseArtifactKey IsArtifactKey
  split
  next hlong =>
    simp only [reduceCtorEq, false_iff]
    omega
  next hlong =>
    split
    next hmatch => simp [hmatch]
    next found' hmatch =>
      rw [hmatch, Option.some.injEq]
      split
      next hlast =>
        simp only [reduceCtorEq, false_iff]
        rintro ⟨-, rfl, h⟩
        exact h hlast
      next hlast =>
        constructor
        · rintro ⟨⟩
          exact ⟨by omega, rfl, hlast⟩
        · rintro ⟨-, rfl, -⟩
          rfl

/-- **The grammar reads back what the key was built from.**  A prefix with a line terminator is
    built into a key that no pattern matches. -/
theorem isArtifactKey_text {kind : ArtifactKind} {fail : CodecFail}
    {collectionPrefix incarnation digest : JsString} {key : Key}
    (h : artifactKey kind fail collectionPrefix incarnation digest = .ok key)
    (hline : collectionPrefix.any isLineTerminator = false) :
    IsArtifactKey kind key ⟨collectionPrefix, incarnation, digest⟩ := by
  unfold artifactKey at h
  obtain ⟨_, hstem, h⟩ := except_bind_ok h
  obtain ⟨_, hinc, h⟩ := except_bind_ok h
  obtain ⟨_, hdigest, h⟩ := except_bind_ok h
  obtain ⟨_, hlimit, h⟩ := except_bind_ok h
  cases h
  rw [check_ok, not_or] at hstem
  rw [check_ok] at hinc hdigest
  have hincLen : incarnation.length = 32 := by
    simp only [isIncarnation, decide_eq_true_eq] at hinc
    exact hinc.1
  have hdigestLen : digest.length = 64 := by
    simp only [isSha256, decide_eq_true_eq] at hdigest
    exact hdigest.1
  have hshaLen : (js "/sha256/").length = 8 := by decide
  have hextLen : (js ".json").length = 5 := by decide
  have hcut : (artifactKeyText kind collectionPrefix incarnation digest).length -
      (kind.dir.length + 109) = collectionPrefix.length := by
    simp only [artifactKeyText, List.length_append, hincLen, hdigestLen, hshaLen, hextLen]
    omega
  have hpos : 0 < collectionPrefix.length := List.length_pos_iff.mpr hstem.1
  refine ⟨?_, ?_, hstem.2⟩
  · unfold assertKeyWithinLimit at hlimit
    split at hlimit
    next => cases hlimit
    next hle => omega
  · -- every `take` and `drop` lands on the boundary of one piece
    have h40 : ∀ rest : JsString, (incarnation ++ (js "/sha256/" ++ rest)).drop 40 = rest := by
      intro rest
      rw [← List.append_assoc]
      exact List.drop_left' (by rw [List.length_append, hincLen, hshaLen])
    unfold matchArtifactKey
    rw [hcut]
    simp only [artifactKeyText, List.take_left, List.drop_left, h40, List.take_left' hincLen,
      List.drop_left' hincLen, List.take_left' hshaLen, List.take_left' hdigestLen,
      List.drop_left' hdigestLen, hpos, hline, hinc, hdigest, and_self, if_true]

/-! ## Documents -/

/-- A document the validator accepts. -/
def IsDocument (row : Doc) : Prop :=
  (∃ ms, row = .obj ms) ∧ row.noNull = true ∧
    ∃ id, row.member (js "_id") = some (.str id) ∧ assertSnapshotDocId id = .ok ()

/-- A row is canonicalised iff it is a document, to its canonical form. -/
theorem canonicalizeDocument_ok {code : CodecCode} {place : String} {row d : Doc}
    (hrow : row.wf = true) :
    canonicalizeDocument code place row = .ok d ↔ IsDocument row ∧ d = canonicalForm row := by
  unfold canonicalizeDocument
  split
  next ms =>
    simp only [bind_ok_iff, canonicalize_ok_iff hrow, assertCodecDocId_ok, Except.ok.injEq]
    constructor
    · rintro ⟨u, ⟨hnull, rfl⟩, id, ⟨hid, hok⟩, rfl⟩
      rw [member_canonicalForm hrow] at hid
      obtain ⟨x, hx, hform⟩ := Option.map_eq_some_iff.mp hid
      rw [eq_of_canonicalForm_scalar (x := .str id) rfl hform] at hx
      exact ⟨⟨⟨ms, rfl⟩, hnull, id, hx, hok⟩, rfl⟩
    · rintro ⟨⟨-, hnull, id, hid, hok⟩, rfl⟩
      refine ⟨_, ⟨hnull, rfl⟩, id, ⟨?_, hok⟩, rfl⟩
      rw [member_canonicalForm hrow, hid]
      rfl
  next hobj =>
    simp only [reduceCtorEq, false_iff]
    rintro ⟨⟨⟨ms, rfl⟩, -⟩, -⟩
    exact hobj ms rfl

/-- So is a list of rows, each for itself. -/
theorem collect_documents {code : CodecCode} {rows docs : List Doc}
    (hrows : ∀ row ∈ rows, row.wf = true) :
    collect (rows.mapIdx fun index document => canonicalizeDocument code s!"docs[{index}]" document) =
        .ok docs ↔
      (∀ row ∈ rows, IsDocument row) ∧ docs = rows.map canonicalForm := by
  rw [collect_ok_iff]
  constructor
  · intro h
    have hlen : rows.length = docs.length := by simpa using congrArg List.length h
    have hget : ∀ i (hi : i < rows.length), IsDocument rows[i] ∧ docs[i] = canonicalForm rows[i] := by
      intro i hi
      have hi' := List.getElem_of_eq h (show i < _ by simpa using hi)
      simp only [List.getElem_mapIdx, List.getElem_map] at hi'
      exact (canonicalizeDocument_ok (hrows _ (List.getElem_mem hi))).mp hi'
    constructor
    · intro row hrow
      obtain ⟨i, hi, rfl⟩ := List.getElem_of_mem hrow
      exact (hget i hi).1
    · refine List.ext_getElem (by simp [hlen]) fun i hi hi' => ?_
      rw [List.getElem_map]
      exact (hget i (by omega)).2
  · rintro ⟨hdocs, rfl⟩
    refine List.ext_getElem (by simp) fun i hi hi' => ?_
    have hmem := List.getElem_mem (show i < rows.length by simpa using hi)
    simp only [List.getElem_mapIdx, List.getElem_map]
    exact (canonicalizeDocument_ok (hrows _ hmem)).mpr ⟨hdocs _ hmem, rfl⟩

/-- Being a document depends on the canonical form alone. -/
theorem IsDocument.of_form {row row' : Doc} (h : IsDocument row) (hrow : row.wf = true)
    (hrow' : row'.wf = true) (hform : canonicalForm row' = canonicalForm row) : IsDocument row' := by
  have hsame : jsonValueEqual row row' = true := (same_iff_canonicalForm hrow hrow').mpr hform.symm
  obtain ⟨⟨ms, rfl⟩, hnull, id, hid, hok⟩ := h
  refine ⟨?_, ?_, id, member_scalar_of_same hrow hrow' hsame rfl hid, hok⟩
  · cases row' with
    | obj ms' => exact ⟨ms', rfl⟩
    | _ => cases hsame
  · rw [← noNull_canonicalForm, hform, noNull_canonicalForm, hnull]

/-! ## Chunks -/

/-- The members of a chunk. -/
def chunkFields : List JsString :=
  [js "schema_version", js "collection", js "incarnation", js "first_id", js "last_id", js "docs"]

/-- A value `canonicalizeChunk` accepts, and the chunk it makes of it. -/
structure IsChunk (code : CodecCode) (v : Doc) (c : SnapshotChunk) : Prop where
  exact : HasExactly chunkFields v
  version : v.member (js "schema_version") = some schemaVersion
  collection : v.member (js "collection") = some (.str c.collection)
  segment : code = .invalidConfig → assertPathSegment c.collection "collection" = .ok ()
  incarnation : v.member (js "incarnation") = some (.str c.incarnation)
  hex : isIncarnation c.incarnation = true
  docs : ∃ rows, v.member (js "docs") = some (.arr rows) ∧ rows.length ≠ 0 ∧
    rows.length ≤ maxChunkRows ∧ (∀ row ∈ rows, IsDocument row) ∧ c.docs = rows.map canonicalForm
  increasing : strictlyIncreasing (c.docs.map idOf) = true
  first : c.firstId = idOf (c.docs.headD .null)
  last : c.lastId = idOf (c.docs.getLastD .null)
  firstId : v.member (js "first_id") = some (.str c.firstId)
  lastId : v.member (js "last_id") = some (.str c.lastId)

theorem member_arr_wf {v : Doc} {key : JsString} {rows : List Doc} (hv : v.wf = true)
    (h : v.member key = some (.arr rows)) : ∀ row ∈ rows, row.wf = true :=
  wf_arr.mp (member_wf hv h)

/-- The name of a collection is checked where a caller brings it, and only there. -/
theorem assertCallerCollection_ok {code : CodecCode} {collection : JsString} {fail : CodecFail}
    {u : Unit} : assertCallerCollection code collection fail = .ok u ↔
      (code = .invalidConfig → assertPathSegment collection "collection" = .ok ()) := by
  unfold assertCallerCollection
  split
  next h =>
    rw [assertCallerSegment_ok]
    simp [h]
  next h => simp [h]

/-- A caller is told that its collection is invalid. -/
theorem assertCallerCollection_error {collection : JsString} {fail : CodecFail} {e : Err}
    (h : assertPathSegment collection "collection" = .error e) :
    assertCallerCollection .invalidConfig collection fail =
      .error (fail .invalidConfig "collection is invalid") := by
  rw [assertCallerCollection, if_pos rfl, assertCallerSegment, h]
  rfl

/-- **A value is canonicalised to a chunk** iff it is one. -/
theorem canonicalizeChunk_ok {code : CodecCode} {v : Doc} {c : SnapshotChunk} (hv : v.wf = true) :
    canonicalizeChunk v code = .ok c ↔ IsChunk code v c := by
  unfold canonicalizeChunk
  constructor
  · intro h
    obtain ⟨ms, hfields, h⟩ := except_bind_ok h
    obtain ⟨_, hversion, h⟩ := except_bind_ok h
    obtain ⟨collection, hcollection, h⟩ := except_bind_ok h
    obtain ⟨_, hsegment, h⟩ := except_bind_ok h
    obtain ⟨incarnation, hincarnation, h⟩ := except_bind_ok h
    obtain ⟨_, hhex, h⟩ := except_bind_ok h
    obtain ⟨rows, hrows, h⟩ := except_bind_ok h
    obtain ⟨_, hcount, h⟩ := except_bind_ok h
    obtain ⟨docs, hdocs, h⟩ := except_bind_ok h
    obtain ⟨_, hincreasing, h⟩ := except_bind_ok h
    obtain ⟨_, hids, h⟩ := except_bind_ok h
    cases h
    obtain ⟨rfl, hlen, hkeys⟩ := assertExactFields_ok.mp hfields
    rw [check_ok] at hversion hhex hcount hincreasing hids
    rw [asString_ok] at hcollection hincarnation
    rw [asArray_ok] at hrows
    rw [not_or, Nat.not_lt] at hcount
    rw [collect_documents (member_arr_wf hv hrows)] at hdocs
    exact { exact := ⟨ms, rfl, hlen, hkeys⟩, version := hversion, collection := hcollection,
            segment := assertCallerCollection_ok.mp hsegment, incarnation := hincarnation, hex := hhex,
            docs := ⟨rows, hrows, hcount.1, hcount.2, hdocs⟩, increasing := hincreasing,
            first := rfl, last := rfl, firstId := hids.1, lastId := hids.2 }
  · intro h
    obtain ⟨ms, rfl, hlen, hkeys⟩ := h.exact
    obtain ⟨rows, hrows, hpos, hmax, hdocs⟩ := h.docs
    have hcount : ¬ (rows.length = 0 ∨ maxChunkRows < rows.length) := by omega
    refine bind_ok_iff.mpr ⟨ms, assertExactFields_ok.mpr ⟨rfl, hlen, hkeys⟩, ?_⟩
    refine bind_ok_iff.mpr ⟨(), check_ok.mpr h.version, ?_⟩
    refine bind_ok_iff.mpr ⟨c.collection, asString_ok.mpr h.collection, ?_⟩
    refine bind_ok_iff.mpr ⟨(), assertCallerCollection_ok.mpr h.segment, ?_⟩
    refine bind_ok_iff.mpr ⟨c.incarnation, asString_ok.mpr h.incarnation, ?_⟩
    refine bind_ok_iff.mpr ⟨(), check_ok.mpr h.hex, ?_⟩
    refine bind_ok_iff.mpr ⟨rows, asArray_ok.mpr hrows, ?_⟩
    refine bind_ok_iff.mpr ⟨(), check_ok.mpr hcount, ?_⟩
    refine bind_ok_iff.mpr ⟨c.docs, (collect_documents (member_arr_wf hv hrows)).mpr hdocs, ?_⟩
    refine bind_ok_iff.mpr ⟨(), check_ok.mpr h.increasing, ?_⟩
    refine bind_ok_iff.mpr ⟨(), check_ok.mpr ⟨?_, ?_⟩, ?_⟩
    · rw [← h.first]
      exact h.firstId
    · rw [← h.last]
      exact h.lastId
    · rw [← h.first, ← h.last]

/-- Lists with the same canonical forms hold the same documents. -/
theorem documents_of_form {rows rows' : List Doc} (hrows : ∀ row ∈ rows, row.wf = true)
    (hrows' : ∀ row ∈ rows', row.wf = true)
    (hform : rows'.map canonicalForm = rows.map canonicalForm)
    (h : ∀ row ∈ rows, IsDocument row) : ∀ row ∈ rows', IsDocument row := by
  intro row' hrow'
  have hmem : canonicalForm row' ∈ rows.map canonicalForm := by
    rw [← hform]
    exact List.mem_map.mpr ⟨row', hrow', rfl⟩
  obtain ⟨row, hrow, heq⟩ := List.mem_map.mp hmem
  exact (h row hrow).of_form (hrows row hrow) (hrows' row' hrow') heq.symm

/-- **Equal values make one chunk.** -/
theorem IsChunk.of_same {code : CodecCode} {v w : Doc} {c : SnapshotChunk} (h : IsChunk code v c)
    (hv : v.wf = true) (hw : w.wf = true) (hsame : jsonValueEqual v w = true) : IsChunk code w c := by
  obtain ⟨rows, hrows, hpos, hmax, hdocs, heq⟩ := h.docs
  obtain ⟨rows', hrows', hform⟩ := member_arr_of_same hv hw hsame hrows
  have hlen : rows'.length = rows.length := by simpa using congrArg List.length hform
  exact { exact := h.exact.of_same hv hw hsame
          version := member_scalar_of_same hv hw hsame rfl h.version
          collection := member_scalar_of_same hv hw hsame rfl h.collection
          segment := h.segment
          incarnation := member_scalar_of_same hv hw hsame rfl h.incarnation
          hex := h.hex
          docs := ⟨rows', hrows', by omega, by omega, documents_of_form (member_arr_wf hv hrows)
            (member_arr_wf hw hrows') hform hdocs, by rw [heq, hform]⟩
          increasing := h.increasing
          first := h.first
          last := h.last
          firstId := member_scalar_of_same hv hw hsame rfl h.firstId
          lastId := member_scalar_of_same hv hw hsame rfl h.lastId }

/-- Every value is equal to itself as JSON. -/
theorem same_refl {v : Doc} (hv : v.wf = true) : jsonValueEqual v v = true :=
  (same_iff_canonicalForm hv hv).mpr rfl

/-- An object that finds all its members in another one with as many. -/
theorem same_obj {ms ms' : List (JsString × Doc)} (hlen : ms.length = ms'.length)
    (h : ∀ m ∈ ms, ∃ y, ms'.lookup m.1 = some y ∧ jsonValueEqual m.2 y = true) :
    jsonValueEqual (.obj ms) (.obj ms') = true := by
  rw [jsonValueEqual, Bool.and_eq_true, decide_eq_true_eq, jsonMembersEqual_iff]
  exact ⟨hlen, h⟩

theorem same_arr_canonicalForm {rows : List Doc} (hrows : ∀ row ∈ rows, row.wf = true) :
    jsonValueEqual (.arr (rows.map canonicalForm)) (.arr rows) = true := by
  have harr : (Json.arr rows).wf = true := wf_arr.mpr hrows
  rw [← canonicalForm_arr]
  exact same_canonicalForm harr

/-- **A chunk is the value it was made of**, up to the order of members. -/
theorem IsChunk.same {code : CodecCode} {v : Doc} {c : SnapshotChunk} (h : IsChunk code v c)
    (hv : v.wf = true) : jsonValueEqual c.toJson v = true := by
  obtain ⟨ms, rfl, hlen, -⟩ := h.exact
  obtain ⟨rows, hrows, -, -, -, heq⟩ := h.docs
  have hdocs : jsonValueEqual (.arr c.docs) (.arr rows) = true := by
    rw [heq]
    exact same_arr_canonicalForm (member_arr_wf hv hrows)
  refine same_obj hlen.symm ?_
  simp only [List.forall_mem_cons, List.not_mem_nil, false_implies, implies_true, and_true]
  exact ⟨⟨_, h.version, same_refl rfl⟩, ⟨_, h.collection, same_refl rfl⟩,
    ⟨_, h.incarnation, same_refl rfl⟩, ⟨_, h.firstId, same_refl rfl⟩,
    ⟨_, h.lastId, same_refl rfl⟩, ⟨_, hrows, hdocs⟩⟩

/-- The rows of a chunk are canonical. -/
theorem IsChunk.docs_canonical {code : CodecCode} {v : Doc} {c : SnapshotChunk}
    (h : IsChunk code v c) (hv : v.wf = true) : ∀ d ∈ c.docs, d.wf = true ∧ canonicalForm d = d := by
  obtain ⟨rows, hrows, -, -, -, heq⟩ := h.docs
  intro d hd
  rw [heq] at hd
  obtain ⟨row, hrow, rfl⟩ := List.mem_map.mp hd
  have hwf := member_arr_wf hv hrows row hrow
  exact ⟨canonicalForm_wf hwf, canonicalForm_idem hwf⟩

/-- A chunk is written as a well-formed value. -/
theorem IsChunk.toJson_wf {code : CodecCode} {v : Doc} {c : SnapshotChunk}
    (h : IsChunk code v c) (hv : v.wf = true) : c.toJson.wf = true := by
  have hdocs : (Json.arr c.docs).wf = true := wf_arr.mpr fun d hd => (h.docs_canonical hv d hd).1
  rw [SnapshotChunk.toJson, wf_obj]
  refine ⟨by show chunkFields.Nodup; decide, ?_⟩
  simp only [List.forall_mem_cons, List.not_mem_nil, false_implies, implies_true, and_true]
  exact ⟨rfl, rfl, rfl, rfl, rfl, hdocs⟩

/-- **Canonicalisation is idempotent.** -/
theorem IsChunk.idem {code : CodecCode} {v : Doc} {c : SnapshotChunk} (h : IsChunk code v c)
    (hv : v.wf = true) : IsChunk code c.toJson c := by
  have hjson := h.toJson_wf hv
  have hsame : jsonValueEqual v c.toJson = true := by
    rw [same_iff_canonicalForm hv hjson, (same_iff_canonicalForm hjson hv).mp (h.same hv)]
  exact h.of_same hv hjson hsame

/-! ## Text -/

/-- **What is in the engine's order comes back from its bytes.** -/
theorem decodeJsonBytes_encode {N : NumberText} {ms : List (JsString × Doc)}
    (hbuilt : rearrange objectOf (.obj ms) = .obj ms) :
    decodeJsonBytes N (encodeJsonBytes N (.obj ms)) = some (.obj ms) := by
  have hhead : (123 : Fin 65536).val < 0x80 := by decide
  have hwf := JSON.wellFormed_stringify (N := N) (.obj ms)
  rw [JSON.stringify] at hwf
  rw [decodeJsonBytes, encodeJsonBytes, JSON.stringify, Utf8.decodeText_encode hhead hwf,
    ← JSON.stringify, JSON.parse, JSON.parseTree_stringify, Option.map_some, hbuilt]

/-- What is built member by member has each key once. -/
theorem objectOf_keys (ms : List (JsString × Doc)) : ((objectOf ms).map Prod.fst).Nodup :=
  ((ownOrder_perm _).map Prod.fst).nodup_iff.mpr (InsMap.ofList ms).nodup

theorem mem_setEntry {e m : JsString × Doc} {ms : List (JsString × Doc)}
    (h : m ∈ InsMap.setEntry e.1 e.2 ms) : m = e ∨ m ∈ ms := by
  induction ms with
  | nil => exact Or.inl (List.mem_singleton.mp h)
  | cons n ms ih =>
    rw [InsMap.setEntry] at h
    split at h
    next =>
      rcases List.mem_cons.mp h with h | h
      · exact Or.inl h
      · exact Or.inr (List.mem_cons_of_mem n h)
    next =>
      rcases List.mem_cons.mp h with h | h
      · exact Or.inr (List.mem_cons.mpr (Or.inl h))
      · exact (ih h).imp id (List.mem_cons_of_mem n)

/-- An object holds only members that were defined. -/
theorem mem_objectOf {m : JsString × Doc} {ms : List (JsString × Doc)} (h : m ∈ objectOf ms) :
    m ∈ ms := by
  have hfold : ∀ (ms : List (JsString × Doc)) (map : InsMap JsString Doc),
      m ∈ (ms.foldl (fun m e => m.set e.1 e.2) map).entries → m ∈ map.entries ∨ m ∈ ms := by
    intro ms
    induction ms with
    | nil => exact fun map hm => Or.inl hm
    | cons e ms ih =>
      intro map hm
      rcases ih (map.set e.1 e.2) hm with hm | hm
      · rcases mem_setEntry hm with rfl | hm
        · exact Or.inr List.mem_cons_self
        · exact Or.inl hm
      · exact Or.inr (List.mem_cons_of_mem e hm)
  have hentry := (ownOrder_perm _).mem_iff.mp h
  exact (hfold ms InsMap.empty hentry).resolve_left List.not_mem_nil

/-- Whatever is parsed has distinct keys. -/
theorem built_wf (v : Doc) : (rearrange objectOf v).wf = true := by
  induction v using Json.ind with
  | null => rfl
  | bool b => rfl
  | num n => rfl
  | str s => rfl
  | arr xs ih =>
    rw [rearrange, rearrangeItems_eq, wf_arr, List.forall_mem_map]
    exact ih
  | obj ms ih =>
    rw [rearrange, rearrangeMembers_eq, wf_obj]
    refine ⟨objectOf_keys _, fun m hm => ?_⟩
    obtain ⟨n, hn, rfl⟩ := List.mem_map.mp (mem_objectOf hm)
    exact ih n hn

/-- Decoded bytes are a well-formed value. -/
theorem decodeJsonBytes_wf {N : NumberText} {bytes : List Byte} {v : Doc}
    (h : decodeJsonBytes N bytes = some v) : v.wf = true := by
  obtain ⟨tree, -, rfl⟩ := Option.map_eq_some_iff.mp h
  exact built_wf tree

/-- An object of the codec: named members, each already built. -/
theorem built_named {ms : List (JsString × Doc)} (hms : (ms.map Prod.fst).Nodup)
    (hnamed : ∀ m ∈ ms, arrayIndex m.1 = none) (hbuilt : ∀ m ∈ ms, rearrange objectOf m.2 = m.2) :
    rearrange objectOf (.obj ms) = .obj ms := by
  have hid : ∀ m ∈ ms, (m.1, rearrange objectOf m.2) = id m := fun m hm =>
    congrArg (Prod.mk m.1) (hbuilt m hm)
  rw [rearrange, rearrangeMembers_eq, mapValues, List.map_congr_left hid, List.map_id,
    objectOf_named hms hnamed]

/-- The members of a chunk stand in the order `JSON.parse` gives them. -/
theorem IsChunk.built {code : CodecCode} {v : Doc} {c : SnapshotChunk} (h : IsChunk code v c)
    (hv : v.wf = true) : rearrange objectOf c.toJson = c.toJson := by
  have hdocs : rearrange objectOf (.arr c.docs) = .arr c.docs := by
    have hid : ∀ d ∈ c.docs, rearrange objectOf d = id d := by
      intro d hd
      obtain ⟨hwf, hform⟩ := h.docs_canonical hv d hd
      have hbuilt := built_canonicalForm d hwf
      rw [hform] at hbuilt
      exact hbuilt
    rw [rearrange, rearrangeItems_eq, List.map_congr_left hid, List.map_id]
  refine built_named (by show chunkFields.Nodup; decide) ?_ ?_
  · simp only [List.forall_mem_cons, List.not_mem_nil, false_implies, implies_true, and_true]
    decide
  · simp only [List.forall_mem_cons, List.not_mem_nil, false_implies, implies_true, and_true]
    exact ⟨rfl, rfl, rfl, rfl, rfl, hdocs⟩

/-! ## Chunks, both ways -/

/-- The descriptor of a chunk stored as `bytes` under `key`. -/
def SnapshotChunk.descriptor (c : SnapshotChunk) (key : Key) (bytes : List Byte) :
    SnapshotChunkDescriptor where
  firstId := c.firstId
  lastId := c.lastId
  key := key
  byteLength := bytes.length
  rowCount := c.docs.length

/-- An object is not written as no bytes. -/
theorem encodeJsonBytes_length_pos {N : NumberText} (ms : List (JsString × Doc)) :
    (encodeJsonBytes N (.obj ms)).length ≠ 0 := by
  have hplain : Utf8.surrogate 123 = false := by decide
  rw [encodeJsonBytes, JSON.stringify, Utf8.encode_cons hplain, List.length_append]
  have hpos : (Utf8.bytes (123 : Fin 65536).val).length ≠ 0 := by decide
  omega

/-- **A value encodes** iff it is a chunk that fits the limit. -/
theorem encodeSnapshotChunk_ok {N : NumberText} {v : Doc} {bytes : List Byte} (hv : v.wf = true) :
    encodeSnapshotChunk N v = .ok bytes ↔
      ∃ c, IsChunk .invalidConfig v c ∧ bytes = encodeJsonBytes N c.toJson ∧
        bytes.length ≤ maxChunkBytes := by
  unfold encodeSnapshotChunk
  simp only [bind_ok_iff, canonicalizeChunk_ok hv, check_ok, Except.ok.injEq]
  constructor
  · rintro ⟨c, hc, _, hlen, rfl⟩
    exact ⟨c, hc, rfl, hlen⟩
  · rintro ⟨c, hc, rfl, hlen⟩
    exact ⟨c, hc, (), hlen, rfl⟩

/-- What `decodeSnapshotChunk` has checked when it returns `c`. -/
structure DecodesChunk (N : NumberText) (snapshotHash : List Byte → JsString) (bytes : List Byte)
    (key : Key) (collection : JsString) (d : SnapshotChunkDescriptor) (c : SnapshotChunk) : Prop where
  length : ¬ (bytes.length = 0 ∨ maxChunkBytes < bytes.length)
  stored : d.key = key ∧ d.byteLength = bytes.length
  hashed : ∃ found, IsArtifactKey .chunk key found ∧ snapshotHash bytes = found.digest ∧
    c.incarnation = found.incarnation
  parsed : ∃ v, decodeJsonBytes N bytes = some v ∧ IsChunk .invalidResponse v c
  canonical : bytes = encodeJsonBytes N c.toJson
  collection : c.collection = collection
  range : c.firstId = d.firstId ∧ c.lastId = d.lastId ∧ c.docs.length = d.rowCount

/-- **Bytes decode** iff they are those of a chunk under its key. -/
theorem decodeSnapshotChunk_ok {N : NumberText} {snapshotHash : List Byte → JsString}
    {bytes : List Byte} {key : Key} {collection : JsString} {d : SnapshotChunkDescriptor}
    {c : SnapshotChunk} :
    decodeSnapshotChunk N snapshotHash bytes key collection d = .ok c ↔
      DecodesChunk N snapshotHash bytes key collection d c := by
  unfold decodeSnapshotChunk
  constructor
  · intro h
    obtain ⟨_, hlength, h⟩ := except_bind_ok h
    obtain ⟨found, hfound, h⟩ := except_bind_ok h
    obtain ⟨_, hstored, h⟩ := except_bind_ok h
    obtain ⟨_, hhash, h⟩ := except_bind_ok h
    split at h
    next => cases h
    next v hv =>
      obtain ⟨c', hchunk, h⟩ := except_bind_ok h
      obtain ⟨_, hcanonical, h⟩ := except_bind_ok h
      obtain ⟨_, hcollection, h⟩ := except_bind_ok h
      obtain ⟨_, hincarnation, h⟩ := except_bind_ok h
      obtain ⟨_, hrange, h⟩ := except_bind_ok h
      cases h
      rw [check_ok] at hlength hstored hhash hcanonical hcollection hincarnation hrange
      rw [parseArtifactKey_ok] at hfound
      rw [canonicalizeChunk_ok (decodeJsonBytes_wf hv)] at hchunk
      exact ⟨hlength, hstored, ⟨found, hfound, hhash, hincarnation⟩, ⟨v, hv, hchunk⟩, hcanonical,
        hcollection, hrange⟩
  · rintro ⟨hlength, hstored, ⟨found, hfound, hhash, hincarnation⟩, ⟨v, hv, hchunk⟩, hcanonical,
      hcollection, hrange⟩
    refine bind_ok_iff.mpr ⟨(), check_ok.mpr hlength, ?_⟩
    refine bind_ok_iff.mpr ⟨found, parseArtifactKey_ok.mpr hfound, ?_⟩
    refine bind_ok_iff.mpr ⟨(), check_ok.mpr hstored, ?_⟩
    refine bind_ok_iff.mpr ⟨(), check_ok.mpr hhash, ?_⟩
    rw [hv]
    refine bind_ok_iff.mpr ⟨c, (canonicalizeChunk_ok (decodeJsonBytes_wf hv)).mpr hchunk, ?_⟩
    refine bind_ok_iff.mpr ⟨(), check_ok.mpr hcanonical, ?_⟩
    refine bind_ok_iff.mpr ⟨(), check_ok.mpr hcollection, ?_⟩
    refine bind_ok_iff.mpr ⟨(), check_ok.mpr hincarnation, ?_⟩
    exact bind_ok_iff.mpr ⟨(), check_ok.mpr hrange, rfl⟩

/-- **What encodes decodes to its canonical form.** -/
theorem decode_encodedChunk {N : NumberText} {snapshotHash : List Byte → JsString} {v : Doc}
    {bytes : List Byte} {c : SnapshotChunk} {key collectionPrefix : Key} (hv : v.wf = true)
    (hc : IsChunk .invalidConfig v c) (hbytes : bytes = encodeJsonBytes N c.toJson)
    (hlen : bytes.length ≤ maxChunkBytes)
    (hkey : snapshotChunkKey collectionPrefix c.incarnation (snapshotHash bytes) = .ok key)
    (hline : collectionPrefix.any isLineTerminator = false) :
    decodeSnapshotChunk N snapshotHash bytes key c.collection (c.descriptor key bytes) = .ok c := by
  have hpos : bytes.length ≠ 0 := by
    rw [hbytes]
    exact encodeJsonBytes_length_pos _
  have hidem := hc.idem hv
  refine decodeSnapshotChunk_ok.mpr
    { length := by omega
      stored := ⟨rfl, rfl⟩
      hashed := ⟨_, isArtifactKey_text hkey hline, rfl, rfl⟩
      parsed := ⟨c.toJson, ?_, { hidem with segment := nofun }⟩
      canonical := hbytes
      collection := rfl
      range := ⟨rfl, rfl, rfl⟩ }
  rw [hbytes]
  exact decodeJsonBytes_encode (hc.built hv)

/-- The encoder refuses a chunk whose collection is no path segment. -/
theorem IsChunk.refused {v : Doc} {c : SnapshotChunk} {e : Err} (h : IsChunk .invalidResponse v c)
    (hsegment : assertPathSegment c.collection "collection" = .error e) :
    canonicalizeChunk v .invalidConfig =
      .error (failChunk .invalidConfig "collection is invalid") := by
  obtain ⟨ms, rfl, hlen, hkeys⟩ := h.exact
  unfold canonicalizeChunk
  refine (bind_of_ok (assertExactFields_ok.mpr ⟨rfl, hlen, hkeys⟩)).trans ?_
  refine (bind_of_ok (a := ()) (check_ok.mpr h.version)).trans ?_
  refine (bind_of_ok (asString_ok.mpr h.collection)).trans ?_
  exact bind_of_error (assertCallerCollection_error hsegment)

/-- **What decodes is the encoding of what it decodes to**, once the collection is a path segment. -/
theorem encode_decodedChunk {N : NumberText} {snapshotHash : List Byte → JsString} {bytes : List Byte}
    {key : Key} {collection : JsString} {d : SnapshotChunkDescriptor} {c : SnapshotChunk}
    (h : decodeSnapshotChunk N snapshotHash bytes key collection d = .ok c) :
    encodeSnapshotChunk N c.toJson =
      if assertPathSegment collection "collection" = .ok () then .ok bytes
      else .error (failChunk .invalidConfig "collection is invalid") := by
  obtain ⟨hlength, -, -, ⟨v, hv, hchunk⟩, hcanonical, rfl, -⟩ := decodeSnapshotChunk_ok.mp h
  have hwf := decodeJsonBytes_wf hv
  split
  next hsegment =>
    have hconfig : IsChunk .invalidConfig c.toJson c :=
      { hchunk.idem hwf with segment := fun _ => hsegment }
    refine (encodeSnapshotChunk_ok (hchunk.toJson_wf hwf)).mpr ⟨c, hconfig, hcanonical, by omega⟩
  next hsegment =>
    cases hassert : assertPathSegment c.collection "collection" with
    | ok u => exact absurd hassert hsegment
    | error e => exact bind_of_error ((hchunk.idem hwf).refused hassert)

end Baerly
