import Baerly.Lib.Greedy
import Baerly.Verify.ChunkGroups

/-
  Encoding and splitting the documents of a group.

  PROGRAM: `encodeBuilderChunk` encodes a run of documents as a chunk.  `splitGroupDocsGreedily`
  cuts the documents of a group into runs by shrinking a candidate until it fits the targets.

  SPEC: what encodes is a run of documents sorted by id, of at most 4096 rows and one mebibyte
  (`encodeBuilderChunk_ok`).  The runs of a split are those of the greedy cut (`splitDocs`), each in
  its encoding; the split throws exactly when one of them is over the hard limit
  (`splitGroupDocsGreedily_iff`), which only a run of one document can be.
-/

namespace Baerly

open Json
open Utf8 (Byte)

/-! ## Encoding -/

section Encode

variable {N : NumberText} {collection incarnation : JsString} {docs : List Doc}

/-- Documents a chunk can be made of: valid ones, sorted by id. -/
structure Chunkable (collection incarnation : JsString) (docs : List Doc) : Prop where
  segment : assertPathSegment collection "collection" = .ok ()
  hex : isIncarnation incarnation = true
  documents : ∀ d ∈ docs, d.wf = true ∧ IsDocument d
  increasing : (docs.map idOf).Pairwise idLt

theorem Chunkable.sublist {docs' : List Doc} (h : Chunkable collection incarnation docs)
    (hsub : docs'.Sublist docs) : Chunkable collection incarnation docs' where
  segment := h.segment
  hex := h.hex
  documents d hd := h.documents d (hsub.subset hd)
  increasing := h.increasing.sublist (hsub.map idOf)

/-- The chunk that is stored for a run of documents. -/
def storedChunk (collection incarnation : JsString) (docs : List Doc) : SnapshotChunk where
  collection := collection
  incarnation := incarnation
  firstId := idOf (docs.headD .null)
  lastId := idOf (docs.getLastD .null)
  docs := docs.map canonicalForm

/-- Its bytes. -/
def chunkBytes (N : NumberText) (collection incarnation : JsString) (docs : List Doc) : List Byte :=
  encodeJsonBytes N (storedChunk collection incarnation docs).toJson

/-- Their number. -/
def chunkSize (N : NumberText) (collection incarnation : JsString) (docs : List Doc) : Nat :=
  (chunkBytes N collection incarnation docs).length

theorem idOf_canonicalForm {d : Doc} (hd : d.wf = true) : idOf (canonicalForm d) = idOf d := by
  unfold idOf
  rw [member_canonicalForm hd]
  cases hmember : d.member (js "_id") with
  | none => rfl
  | some x =>
    cases x with
    | str id => rfl
    | null => rfl
    | bool b => rfl
    | num n => rfl
    | arr xs =>
      rw [Option.map_some, canonicalForm_arr]
    | obj ms =>
      rw [Option.map_some, canonicalForm_obj]

theorem map_idOf_canonicalForm (h : ∀ d ∈ docs, d.wf = true) :
    (docs.map canonicalForm).map idOf = docs.map idOf := by
  rw [List.map_map]
  exact List.map_congr_left fun d hd => idOf_canonicalForm (h d hd)

theorem headD_map_canonicalForm (h : ∀ d ∈ docs, d.wf = true) :
    idOf ((docs.map canonicalForm).headD .null) = idOf (docs.headD .null) := by
  cases docs with
  | nil => rfl
  | cons d docs => exact idOf_canonicalForm (h d List.mem_cons_self)

theorem getLastD_map_canonicalForm (h : ∀ d ∈ docs, d.wf = true) :
    idOf ((docs.map canonicalForm).getLastD .null) = idOf (docs.getLastD .null) := by
  rcases List.eq_nil_or_concat docs with rfl | ⟨front, d, rfl⟩
  · rfl
  · rw [List.concat_eq_append, List.map_append, List.map_singleton]
    simp only [List.getLastD_concat]
    exact idOf_canonicalForm (h d (by simp))

theorem builderChunk_wf (h : ∀ d ∈ docs, d.wf = true) :
    (builderChunk collection incarnation docs).toJson.wf = true := by
  rw [SnapshotChunk.toJson, wf_obj]
  refine ⟨by show chunkFields.Nodup; decide, ?_⟩
  simp only [List.forall_mem_cons, List.not_mem_nil, false_implies, implies_true, and_true]
  exact ⟨rfl, rfl, rfl, rfl, rfl, wf_arr.mpr h⟩

/-- What the codec makes of a run of documents. -/
theorem isChunk_builderChunk (hwf : ∀ d ∈ docs, d.wf = true) {c : SnapshotChunk} :
    IsChunk .invalidConfig (builderChunk collection incarnation docs).toJson c ↔
      (Chunkable collection incarnation docs ∧ docs ≠ [] ∧ docs.length ≤ maxChunkRows) ∧
        c = storedChunk collection incarnation docs := by
  have hmembers : (builderChunk collection incarnation docs).toJson.member (js "collection") =
        some (.str collection) ∧
      (builderChunk collection incarnation docs).toJson.member (js "incarnation") =
        some (.str incarnation) ∧
      (builderChunk collection incarnation docs).toJson.member (js "docs") = some (.arr docs) :=
    ⟨rfl, rfl, rfl⟩
  constructor
  · intro h
    -- the codec reads back the fields the builder wrote
    obtain ⟨rows, hrows, hpos, hmax, hdocs, heq⟩ := h.docs
    rw [hmembers.2.2, Option.some.injEq, Json.arr.injEq] at hrows
    subst hrows
    have hcollection : collection = c.collection := by
      have h' := h.collection
      rw [hmembers.1, Option.some.injEq, Json.str.injEq] at h'
      exact h'
    have hincarnation : incarnation = c.incarnation := by
      have h' := h.incarnation
      rw [hmembers.2.1, Option.some.injEq, Json.str.injEq] at h'
      exact h'
    have hincreasing := strictlyIncreasing_iff.mp h.increasing
    rw [heq, map_idOf_canonicalForm hwf] at hincreasing
    refine ⟨⟨⟨?_, ?_, fun d hd => ⟨hwf d hd, hdocs d hd⟩, hincreasing⟩,
      List.ne_nil_of_length_pos (by omega), hmax⟩, ?_⟩
    · rw [hcollection]
      exact h.segment rfl
    · rw [hincarnation]
      exact h.hex
    · have hfirst := h.first
      have hlast := h.last
      rw [heq] at hfirst hlast
      rw [headD_map_canonicalForm hwf] at hfirst
      rw [getLastD_map_canonicalForm hwf] at hlast
      cases c
      simp only at hcollection hincarnation heq hfirst hlast
      rw [storedChunk, hcollection, hincarnation, heq, hfirst, hlast]
  -- each check of the codec, on what the builder writes
  · rintro ⟨⟨h, hne, hmax⟩, rfl⟩
    have hpos := List.length_pos_iff.mpr hne
    exact { exact := ⟨_, rfl, rfl, by
              simp only [chunkFields, List.forall_mem_cons, List.not_mem_nil, false_implies,
                implies_true, and_true]
              exact ⟨rfl, rfl, rfl, rfl, rfl, rfl⟩⟩
            version := rfl
            collection := rfl
            segment := fun _ => h.segment
            incarnation := rfl
            hex := h.hex
            docs := ⟨docs, rfl, by omega, hmax, fun d hd => (h.documents d hd).2, rfl⟩
            increasing := by
              rw [strictlyIncreasing_iff, storedChunk, map_idOf_canonicalForm hwf]
              exact h.increasing
            first := (headD_map_canonicalForm hwf).symm
            last := (getLastD_map_canonicalForm hwf).symm
            firstId := rfl
            lastId := rfl }

/-- **What the builder can encode.** -/
theorem encodeBuilderChunk_ok (hwf : ∀ d ∈ docs, d.wf = true) {bytes : List Byte} :
    encodeBuilderChunk N (builderChunk collection incarnation docs) = .ok bytes ↔
      (Chunkable collection incarnation docs ∧ docs ≠ [] ∧ docs.length ≤ maxChunkRows) ∧
        bytes = chunkBytes N collection incarnation docs ∧
        chunkSize N collection incarnation docs ≤ maxChunkBytes := by
  have hencode : encodeSnapshotChunk N (builderChunk collection incarnation docs).toJson = .ok bytes ↔
      (Chunkable collection incarnation docs ∧ docs ≠ [] ∧ docs.length ≤ maxChunkRows) ∧
        bytes = chunkBytes N collection incarnation docs ∧
        chunkSize N collection incarnation docs ≤ maxChunkBytes := by
    rw [encodeSnapshotChunk_ok (builderChunk_wf hwf)]
    constructor
    · rintro ⟨c, hc, rfl, hlen⟩
      obtain ⟨hvalid, rfl⟩ := (isChunk_builderChunk hwf).mp hc
      exact ⟨hvalid, rfl, hlen⟩
    · rintro ⟨hvalid, rfl, hlen⟩
      exact ⟨_, (isChunk_builderChunk hwf).mpr ⟨hvalid, rfl⟩, rfl, hlen⟩
  rw [← hencode]
  unfold encodeBuilderChunk
  split
  next h => rw [h]
  next e h =>
    rw [h]
    split
    · simp
    · simp

/-- A run over the hard byte limit is refused, and the refusal is known as such. -/
theorem encodeBuilderChunk_oversize (h : Chunkable collection incarnation docs) (hne : docs ≠ [])
    (hrows : docs.length ≤ maxChunkRows)
    (hsize : maxChunkBytes < chunkSize N collection incarnation docs) :
    ∃ e, encodeBuilderChunk N (builderChunk collection incarnation docs) = .error e ∧
      isChunkOversizeError e = true := by
  have hwf : ∀ d ∈ docs, d.wf = true := fun d hd => (h.documents d hd).1
  have hcanonical : canonicalizeChunk (builderChunk collection incarnation docs).toJson
      .invalidConfig = .ok (storedChunk collection incarnation docs) :=
    (canonicalizeChunk_ok (builderChunk_wf hwf)).mpr
      ((isChunk_builderChunk hwf).mpr ⟨⟨h, hne, hrows⟩, rfl⟩)
  have hencode : encodeSnapshotChunk N (builderChunk collection incarnation docs).toJson =
      .error (failChunk .invalidConfig chunkOversizeMessage) := by
    unfold encodeSnapshotChunk
    rw [bind_of_ok hcanonical]
    refine bind_of_error ?_
    unfold check
    rw [if_neg]
    exact Nat.not_le.mpr hsize
  have hchunk : isChunkOversizeError (failChunk .invalidConfig chunkOversizeMessage) = true := by
    decide +kernel
  refine ⟨failBuilder .invalidResponse (failChunk .invalidConfig chunkOversizeMessage).message, ?_,
    by decide +kernel⟩
  unfold encodeBuilderChunk
  rw [hencode]
  simp only
  rw [if_pos hchunk]

end Encode

/-! ## Splitting -/

section Split

variable {N : NumberText} {collection incarnation : JsString} {policy : SnapshotChunkBoundaryPolicy}

/-- The item of a run of documents. -/
def splitItem (N : NumberText) (collection incarnation : JsString) (docs : List Doc) :
    SplitChunkItem :=
  ⟨docs, chunkBytes N collection incarnation docs⟩

/-- An item of a split: an encoded run, within the targets unless it is a single document. -/
structure IsItem (N : NumberText) (collection incarnation : JsString)
    (policy : SnapshotChunkBoundaryPolicy) (item : SplitChunkItem) : Prop where
  chunkable : Chunkable collection incarnation item.docs
  nonempty : item.docs ≠ []
  rows : item.docs.length ≤ maxChunkRows
  bytes : item.bytes = chunkBytes N collection incarnation item.docs
  size : item.bytes.length ≤ maxChunkBytes
  targets : item.docs.length = 1 ∨
    (item.docs.length ≤ policy.targetRows ∧ item.bytes.length ≤ policy.targetChunkBytes)

/-- What one round of the splitter finds. -/
theorem splitCandidate_ok {rest : List Doc} (hwf : ∀ d ∈ rest, d.wf = true) :
    ∀ {n : Nat} {item : SplitChunkItem}, n ≤ policy.targetRows →
      splitCandidate N collection incarnation policy rest n = .ok (some item) →
      ∃ k, item.docs = rest.take k ∧ IsItem N collection incarnation policy item := by
  intro n
  induction n with
  | zero => intro item _ h; cases h
  | succ n ih =>
    intro item hn h
    have hwf' : ∀ d ∈ rest.take (n + 1), d.wf = true := fun d hd => hwf d (List.mem_of_mem_take hd)
    rw [splitCandidate] at h
    split at h
    next e he =>
      split at h
      · cases h
      · exact ih (by omega) h
    next bytes hbytes =>
      obtain ⟨⟨hchunk, hne, hrows⟩, rfl, hsize⟩ := (encodeBuilderChunk_ok hwf').mp hbytes
      split at h
      next hfits =>
        cases h
        refine ⟨n + 1, rfl, ⟨hchunk, hne, hrows, rfl, hsize, ?_⟩⟩
        have hlen : (rest.take (n + 1)).length ≤ n + 1 := List.length_take_le _ _
        have hpos := List.length_pos_iff.mpr hne
        simp only [Bool.or_eq_true, decide_eq_true_eq] at hfits
        rcases hfits with htarget | hone
        · exact Or.inr ⟨Nat.le_trans hlen hn, htarget⟩
        · left
          show (rest.take (n + 1)).length = 1
          omega
      next => exact ih (by omega) h

/-- **A split that returns** is the documents, cut into encoded items. -/
theorem splitFrom_ok {fuel : Nat} {docs : List Doc} {items : List SplitChunkItem}
    (hwf : ∀ d ∈ docs, d.wf = true)
    (h : splitFrom N collection incarnation policy fuel docs = .ok items) :
    items.flatMap SplitChunkItem.docs = docs ∧
      ∀ item ∈ items, IsItem N collection incarnation policy item := by
  induction fuel generalizing docs items with
  | zero =>
    cases docs with
    | nil =>
      cases h
      exact ⟨rfl, fun item hitem => absurd hitem List.not_mem_nil⟩
    | cons d docs => cases h
  | succ fuel ih =>
    cases docs with
    | nil =>
      cases h
      exact ⟨rfl, fun item hitem => absurd hitem List.not_mem_nil⟩
    | cons d docs =>
      unfold splitFrom at h
      cases hfound : splitCandidate N collection incarnation policy (d :: docs)
          (min policy.targetRows (d :: docs).length) with
      | error e =>
        rw [hfound] at h
        cases h
      | ok found =>
        rw [hfound] at h
        cases found with
        | none => cases h
        | some item =>
          obtain ⟨k, hdocs, hitem⟩ := splitCandidate_ok hwf (Nat.min_le_left _ _) hfound
          cases hrest : splitFrom N collection incarnation policy fuel
              ((d :: docs).drop item.docs.length) with
          | error e =>
            simp only [throws, bind, Except.bind, hrest] at h
            cases h
          | ok rest =>
            simp only [throws, bind, Except.bind, hrest, Except.ok.injEq] at h
            subst h
            have hwf' : ∀ e ∈ (d :: docs).drop item.docs.length, e.wf = true := fun e he =>
              hwf e (List.mem_of_mem_drop he)
            obtain ⟨hflat, hitems⟩ := ih hwf' hrest
            constructor
            · rw [List.flatMap_cons, hflat]
              have htake : item.docs = (d :: docs).take item.docs.length := by
                rw [hdocs, List.length_take, ← List.take_eq_take_min]
              conv_rhs => rw [← List.take_append_drop item.docs.length (d :: docs)]
              rw [← htake]
            · rw [List.forall_mem_cons]
              exact ⟨hitem, hitems⟩

/-- The greedy cut of a group's documents: at most the target rows, and at most the target bytes and
    the hard limit. -/
def splitDocs (N : NumberText) (collection incarnation : JsString)
    (policy : SnapshotChunkBoundaryPolicy) (docs : List Doc) : List (List Doc) :=
  Greedy.blocks (chunkSize N collection incarnation) (min policy.targetChunkBytes maxChunkBytes)
    policy.targetRows docs

/-- The candidate loop finds the cut, or fails on the one document it comes down to. -/
theorem splitCandidate_eq {rest : List Doc} (h : Chunkable collection incarnation rest) :
    ∀ {n : Nat}, 0 < n → n ≤ rest.length → n ≤ maxChunkRows →
      (chunkSize N collection incarnation (rest.take (Greedy.cut
          (chunkSize N collection incarnation) (min policy.targetChunkBytes maxChunkBytes) rest n)) ≤
          maxChunkBytes →
        splitCandidate N collection incarnation policy rest n =
          .ok (some (splitItem N collection incarnation (rest.take (Greedy.cut
            (chunkSize N collection incarnation) (min policy.targetChunkBytes maxChunkBytes)
            rest n))))) ∧
      (maxChunkBytes < chunkSize N collection incarnation (rest.take (Greedy.cut
          (chunkSize N collection incarnation) (min policy.targetChunkBytes maxChunkBytes) rest n)) →
        ∃ e, splitCandidate N collection incarnation policy rest n = .error e) := by
  intro n
  induction n with
  | zero => intro hpos; omega
  | succ n ih =>
    intro _ hlen hrows
    have htake := h.sublist (List.take_sublist (n + 1) rest)
    have hcount : (rest.take (n + 1)).length = n + 1 := by rw [List.length_take]; omega
    have hne : rest.take (n + 1) ≠ [] := List.ne_nil_of_length_pos (by omega)
    have hwf : ∀ d ∈ rest.take (n + 1), d.wf = true := fun d hd => (htake.documents d hd).1
    rw [Greedy.cut, splitCandidate]
    by_cases hmax : chunkSize N collection incarnation (rest.take (n + 1)) ≤ maxChunkBytes
    · -- the candidate can be encoded
      have hencode := (encodeBuilderChunk_ok hwf).mpr ⟨⟨htake, hne, by omega⟩, rfl, hmax⟩
      rw [hencode]
      simp only [Bool.or_eq_true, decide_eq_true_eq]
      by_cases htarget : (chunkBytes N collection incarnation (rest.take (n + 1))).length ≤
          policy.targetChunkBytes
      · have hlimit : chunkSize N collection incarnation (rest.take (n + 1)) ≤
            min policy.targetChunkBytes maxChunkBytes := Nat.le_min.mpr ⟨htarget, hmax⟩
        rw [if_pos hlimit, if_pos (Or.inl htarget)]
        exact ⟨fun _ => rfl, fun hbig => absurd hmax (Nat.not_le.mpr hbig)⟩
      · have hlimit : ¬ chunkSize N collection incarnation (rest.take (n + 1)) ≤
            min policy.targetChunkBytes maxChunkBytes := fun hle =>
          htarget (Nat.le_min.mp hle).1
        rw [if_neg hlimit]
        cases n with
        | zero =>
          rw [if_pos (Or.inr rfl)]
          exact ⟨fun _ => rfl, fun hbig => absurd hmax (Nat.not_le.mpr hbig)⟩
        | succ n =>
          rw [if_neg (by omega)]
          exact ih (Nat.succ_pos n) (by omega) (by omega)
    · -- it cannot, and shrinks unless it is one document
      have hbig := Nat.not_le.mp hmax
      have hlimit : ¬ chunkSize N collection incarnation (rest.take (n + 1)) ≤
          min policy.targetChunkBytes maxChunkBytes := fun hle => hmax (Nat.le_min.mp hle).2
      obtain ⟨e, he, hover⟩ := encodeBuilderChunk_oversize htake hne (by omega) hbig
      rw [if_neg hlimit, he]
      simp only [hover, Bool.not_true, Bool.false_or, decide_eq_true_eq]
      cases n with
      | zero =>
        rw [if_pos rfl]
        exact ⟨fun hle => absurd hle hmax, fun _ => ⟨e, rfl⟩⟩
      | succ n =>
        rw [if_neg (by omega)]
        exact ih (Nat.succ_pos n) (by omega) (by omega)

/-- **When a split returns**: no run of the greedy cut is over the hard limit. -/
theorem splitFrom_iff (hpos : 0 < policy.targetRows) (hmax : policy.targetRows ≤ maxChunkRows) :
    ∀ {fuel : Nat} {docs : List Doc}, docs.length ≤ fuel → Chunkable collection incarnation docs →
      ((∀ b ∈ Greedy.blocksFrom (chunkSize N collection incarnation)
          (min policy.targetChunkBytes maxChunkBytes) policy.targetRows fuel docs,
          chunkSize N collection incarnation b ≤ maxChunkBytes) →
        splitFrom N collection incarnation policy fuel docs =
          .ok ((Greedy.blocksFrom (chunkSize N collection incarnation)
            (min policy.targetChunkBytes maxChunkBytes) policy.targetRows fuel docs).map
              (splitItem N collection incarnation))) ∧
      ((∃ b ∈ Greedy.blocksFrom (chunkSize N collection incarnation)
          (min policy.targetChunkBytes maxChunkBytes) policy.targetRows fuel docs,
          maxChunkBytes < chunkSize N collection incarnation b) →
        ∃ stop, splitFrom N collection incarnation policy fuel docs = .error stop) := by
  intro fuel
  induction fuel with
  | zero =>
    intro docs hfuel _
    rw [List.length_eq_zero_iff.mp (Nat.le_zero.mp hfuel)]
    exact ⟨fun _ => rfl, fun ⟨b, hb, _⟩ => absurd hb List.not_mem_nil⟩
  | succ fuel ih =>
    intro docs hfuel h
    cases docs with
    | nil => exact ⟨fun _ => rfl, fun ⟨b, hb, _⟩ => absurd hb List.not_mem_nil⟩
    | cons d docs =>
      have hlong : (d :: docs).length = docs.length + 1 := rfl
      have hcut := Greedy.cut_pos (chunkSize N collection incarnation)
        (min policy.targetChunkBytes maxChunkBytes) (d :: docs)
        (min policy.targetRows (d :: docs).length)
      have hcut' := Greedy.cut_le (chunkSize N collection incarnation)
        (min policy.targetChunkBytes maxChunkBytes) (d :: docs)
        (show 0 < min policy.targetRows (d :: docs).length by omega)
      -- the first block is the candidate of this round
      obtain ⟨hfits, hfails⟩ := @splitCandidate_eq N collection incarnation policy _ h _
        (show 0 < min policy.targetRows (d :: docs).length by omega) (Nat.min_le_right _ _)
        (by omega)
      rw [Greedy.blocksFrom_cons _ _ _ fuel (List.cons_ne_nil d docs)]
      -- the rest is cut with the fuel that is left: `k` documents are gone
      revert hfits hfails hcut hcut'
      generalize Greedy.cut (chunkSize N collection incarnation)
        (min policy.targetChunkBytes maxChunkBytes) (d :: docs)
        (min policy.targetRows (d :: docs).length) = k
      intro hcut hcut' hfits hfails
      have htaken : ((d :: docs).take k).length = k := by rw [List.length_take]; omega
      have hrest := @ih ((d :: docs).drop k) (by rw [List.length_drop]; omega)
        (h.sublist (List.drop_sublist k (d :: docs)))
      constructor
      · intro hall
        rw [List.forall_mem_cons] at hall
        unfold splitFrom
        rw [hfits hall.1]
        show (do
          let items ← splitFrom N collection incarnation policy fuel
            ((d :: docs).drop ((d :: docs).take k).length)
          Except.ok (splitItem N collection incarnation ((d :: docs).take k) :: items) :
            Except Stop (List SplitChunkItem)) = _
        rw [htaken, hrest.1 hall.2]
        rfl
      · rintro ⟨b, hb, hbig⟩
        unfold splitFrom
        by_cases hfirst : chunkSize N collection incarnation ((d :: docs).take k) ≤ maxChunkBytes
        · have hmem : b ∈ Greedy.blocksFrom (chunkSize N collection incarnation)
              (min policy.targetChunkBytes maxChunkBytes) policy.targetRows fuel
              ((d :: docs).drop k) := by
            rcases List.mem_cons.mp hb with rfl | hb
            · exact absurd hfirst (Nat.not_le.mpr hbig)
            · exact hb
          obtain ⟨stop, hstop⟩ := hrest.2 ⟨b, hmem, hbig⟩
          refine ⟨stop, ?_⟩
          rw [hfits hfirst]
          show (do
            let items ← splitFrom N collection incarnation policy fuel
              ((d :: docs).drop ((d :: docs).take k).length)
            Except.ok (splitItem N collection incarnation ((d :: docs).take k) :: items) :
              Except Stop (List SplitChunkItem)) = _
          rw [htaken, hstop]
          rfl
        · obtain ⟨e, he⟩ := hfails (Nat.not_le.mp hfirst)
          refine ⟨.thrown e, ?_⟩
          rw [he]
          rfl

/-- The splitter does what the greedy cut says. -/
theorem splitGroupDocsGreedily_of_fits (hpos : 0 < policy.targetRows)
    (hmax : policy.targetRows ≤ maxChunkRows) {docs : List Doc}
    (h : Chunkable collection incarnation docs)
    (hfits : ∀ b ∈ splitDocs N collection incarnation policy docs,
      chunkSize N collection incarnation b ≤ maxChunkBytes) :
    splitGroupDocsGreedily N docs collection incarnation policy =
      .ok ((splitDocs N collection incarnation policy docs).map
        (splitItem N collection incarnation)) :=
  (splitFrom_iff hpos hmax (Nat.le_refl _) h).1 hfits

/-- **When the splitter returns**: no run of the greedy cut is over the hard limit. -/
theorem splitGroupDocsGreedily_iff (hpos : 0 < policy.targetRows)
    (hmax : policy.targetRows ≤ maxChunkRows) {docs : List Doc}
    (h : Chunkable collection incarnation docs) :
    (∃ items, splitGroupDocsGreedily N docs collection incarnation policy = .ok items) ↔
      ∀ b ∈ splitDocs N collection incarnation policy docs,
        chunkSize N collection incarnation b ≤ maxChunkBytes := by
  constructor
  · rintro ⟨items, hitems⟩ b hb
    by_contra hbig
    obtain ⟨stop, hstop⟩ := (splitFrom_iff hpos hmax (Nat.le_refl _) h).2
      ⟨b, hb, Nat.not_le.mp hbig⟩
    rw [splitGroupDocsGreedily, hstop] at hitems
    cases hitems
  · intro hfits
    exact ⟨_, splitGroupDocsGreedily_of_fits hpos hmax h hfits⟩

end Split

end Baerly
