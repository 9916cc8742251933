import Baerly.Lib.Path
import Baerly.Verify.IndexWalk
import Mathlib.Data.List.TakeWhile

/-
  Which live rows a walk reaches.

  SPEC: under exact markers, the walk collects the id of a live row iff the index holds values of
  it that the plan selects, segment by segment (`mem_walkIds`): equal segments for the equality
  run, then a segment in the range, or one of a set.

  CRUX: a segment is free of slashes and every unit of it sorts above the slash that closes it.  So
  the words of a key can be read back, keys sort as their words do, and the listing of a range walk
  runs through the value segments in order; its early end loses nothing.
-/

namespace Baerly

open Path

variable {codec : Codec} {N : NumberText} {c : Collection}

/-! ## Keys as paths -/

/-- The segments of some values. -/
def segments (N : NumberText) (values : List Property) : List JsString :=
  values.map (Property.segment N)

/-- The values an equality run was planned for. -/
def IndexWalkPlan.keys (plan : IndexWalkPlan) : List Property := plan.equalityKeys.map .value

@[simp] theorem IndexWalkPlan.keys_length (plan : IndexWalkPlan) :
    plan.keys.length = plan.equalityKeys.length := List.length_map _

/-- The segments of a plan are those of its keys. -/
theorem IndexWalkPlan.segments_keys (plan : IndexWalkPlan) :
    segments N plan.keys = plan.equalityKeys.map (encodeIndexValue N) := by
  rw [segments, IndexWalkPlan.keys, List.map_map]
  rfl


/-- Segments are written value by value. -/
theorem segments_append (front back : List Property) :
    segments N (front ++ back) = segments N front ++ segments N back :=
  List.map_append

theorem slash_notMem_segments {values : List Property} : ∀ w ∈ segments N values, slash ∉ w := by
  intro w hw
  obtain ⟨v, -, rfl⟩ := List.mem_map.mp hw
  exact slash_notMem_segment v

theorem js_slash : js "/" = [slash] := by decide

/-- A key is its index's directory, its segments and its document. -/
theorem indexKeyFor_eq {logPrefix : Key} {d : IndexDefinition} {values : List Property}
    {docId : JsString} (h : values ≠ []) : indexKeyFor N logPrefix d values docId =
      indexKeyPrefix logPrefix d.name ++ (path slash (segments N values) ++ (docId ++ js ".json")) := by
  have hne : segments N values ≠ [] := by simpa [segments] using h
  rw [← intercalate_eq_path hne]
  simp only [indexKeyFor, indexKeyPrefix, js_slash, List.append_assoc, segments]

/-- A walk lists under its index's directory and its segments. -/
theorem eqPrefix_eq (plan : IndexWalkPlan) : eqPrefix N c plan =
    indexKeyPrefix c.collectionPrefix plan.indexName ++ path slash (segments N plan.keys) := by
  rw [IndexWalkPlan.segments_keys]
  unfold eqPrefix
  by_cases hnil : plan.equalityKeys.map (encodeIndexValue N) = []
  · simp only [hnil, if_true, path_nil, List.append_nil, indexKeyPrefix]
  · have hpath := @intercalate_eq_path _ slash _ hnil
    simp only [hnil, if_false, ← hpath, indexKeyPrefix, js_slash, List.append_assoc]

/-- The file name is what follows the last slash. -/
theorem basename_path {words : List JsString} {last : Key} (h : slash ∉ last) :
    basename (path slash words ++ last) = last := by
  rcases List.eq_nil_or_concat words with rfl | ⟨front, word, rfl⟩
  · rw [path_nil, List.nil_append, basename, List.takeWhile_eq_self_iff.mpr]
    · exact List.reverse_reverse last
    · intro u hu
      have hne : u ≠ slash := fun heq => h (heq ▸ List.mem_reverse.mp hu)
      simpa using hne
  · rw [List.concat_eq_append, path_append, path_cons, path_nil, List.append_assoc, List.append_assoc,
      ← List.append_assoc, List.cons_append, List.nil_append]
    exact takeWhile_reverse_append h

/-- A doc id is read back off the end of a key. -/
theorem docIdOf_path {words : List JsString} {docId : JsString} (hne : docId ≠ [])
    (hslash : slash ∉ docId) : docIdOf (path slash words ++ (docId ++ js ".json")) = some docId := by
  have hlast : slash ∉ docId ++ js ".json" := by
    rw [List.mem_append]
    rintro (h | h)
    · exact hslash h
    · exact absurd h (by decide)
  have hsuffix : (js ".json").isSuffixOf (docId ++ js ".json") = true := by
    rw [List.isSuffixOf_iff_suffix]
    exact List.suffix_append docId _
  unfold docIdOf
  simp only [basename_path hlast, hsuffix, if_true, List.length_append, Nat.add_sub_cancel,
    List.take_left, hne, if_false]

/-! ## Projection -/

/-- The document holds something in a field: reading it gives neither `undefined` nor `null`. -/
def Holds (doc : Doc) (field : JsString) (v : Property) : Prop :=
  doc.property field = v ∧ v.isNullish = false

/-- A document holds one value in a field. -/
theorem Holds.unique {doc : Doc} {field : JsString} {v w : Property} (h : Holds doc field v)
    (h' : Holds doc field w) : v = w :=
  h.1.symm.trans h'.1

/-- A projection has what the document holds in each field. -/
theorem projectFields_some {name : JsString} {body : Doc} {fields : List JsString} :
    ∀ {acc values : List Property}, projectFields name body fields acc = .ok (some values) →
      ∃ held, values = acc ++ held ∧
        List.Forall₂ (fun f v => f.contains 46 = false ∧ Holds body f v) fields held := by
  induction fields with
  | nil =>
    intro acc values h
    cases h
    exact ⟨[], (List.append_nil acc).symm, List.Forall₂.nil⟩
  | cons field fields ih =>
    intro acc values h
    unfold projectFields at h
    split at h
    · cases h
    next hdot =>
      split at h
      · cases h
      · cases h
      · cases h
      next hundefined hnull _ =>
        obtain ⟨held, rfl, hheld⟩ := ih h
        refine ⟨body.property field :: held, by simp,
          List.Forall₂.cons ⟨by simpa using hdot, rfl, ?_⟩ hheld⟩
        exact Property.isNullish_eq_false hundefined hnull

/-- A row without a marker lacks a field, and that field is no path. -/
theorem projectFields_none {name : JsString} {body : Doc} {fields : List JsString} :
    ∀ {acc : List Property}, projectFields name body fields acc = .ok none →
      ∃ f ∈ fields, f.contains 46 = false ∧ ∀ v, ¬ Holds body f v := by
  induction fields with
  | nil => exact fun h => absurd h (by simp [projectFields])
  | cons field fields ih =>
    intro acc h
    unfold projectFields at h
    split at h
    · cases h
    next hdot =>
      have hplain : field.contains 46 = false := by simpa using hdot
      split at h
      next hv =>
        refine ⟨field, List.mem_cons_self, hplain, fun v hheld => ?_⟩
        obtain ⟨rfl, hnullish⟩ := hheld
        rw [hv] at hnullish
        cases hnullish
      next hv =>
        refine ⟨field, List.mem_cons_self, hplain, fun v hheld => ?_⟩
        obtain ⟨rfl, hnullish⟩ := hheld
        rw [hv] at hnullish
        cases hnullish
      · cases h
      · obtain ⟨f, hf, hrest⟩ := ih h
        exact ⟨f, List.mem_cons_of_mem field hf, hrest⟩

/-! ## Exact markers -/

/-- The markers of an index are exactly the keys of the live rows. -/
structure MarkersExact (N : NumberText) (S : Standing codec c) (d : IndexDefinition) : Prop where
  indexed : ∀ row ∈ S.rows, ∃ ks,
    allIndexKeysFor N c.collectionPrefix [d] (some row.2) row.1 = .ok ks
  exact : ∀ key, indexKeyPrefix c.collectionPrefix d.name <+: key →
    (key ∈ S.keys ↔ ∃ row ∈ S.rows, ∃ ks,
      allIndexKeysFor N c.collectionPrefix [d] (some row.2) row.1 = .ok ks ∧ key ∈ ks)

/-- The keys of a row under one index without a filter. -/
theorem allIndexKeysFor_single {logPrefix : Key} {d : IndexDefinition} (hd : d.predicate = none)
    (body : Doc) (docId : JsString) : allIndexKeysFor N logPrefix [d] (some body) docId =
      (projectIndexValues d (some body)).map fun values? =>
        (values?.map fun values => indexKeyFor N logPrefix d values docId).toList := by
  have hkept : keptByFilter d (some body) = .ok true := by
    unfold keptByFilter
    rw [hd]
  rw [allIndexKeysFor, hkept]
  cases hproj : projectIndexValues d (some body) with
  | error e => rfl
  | ok values? => cases values? <;> rfl

variable {S : Standing codec c} {d : IndexDefinition}

/-- Every live row projects. -/
theorem MarkersExact.projects (h : MarkersExact N S d) (hd : d.predicate = none) {row : StoredRow}
    (hrow : row ∈ S.rows) : ∃ values?, projectIndexValues d (some row.2) = .ok values? := by
  obtain ⟨ks, hks⟩ := h.indexed row hrow
  rw [allIndexKeysFor_single hd] at hks
  cases hproj : projectIndexValues d (some row.2) with
  | error e =>
    rw [hproj] at hks
    cases hks
  | ok values? => exact ⟨values?, rfl⟩

/-- The index holds these values of the row. -/
def Indexed (S : Standing codec c) (d : IndexDefinition) (row : StoredRow) (values : List Property) :
    Prop :=
  row ∈ S.rows ∧ projectIndexValues d (some row.2) = .ok (some values)

/-- The values of an indexed row are what it holds in the index's fields. -/
theorem Indexed.forall₂ {row : StoredRow} {values : List Property} (h : Indexed S d row values) :
    List.Forall₂ (fun f v => f.contains 46 = false ∧ Holds row.2 f v) d.on.tuple values := by
  obtain ⟨held, rfl, hheld⟩ := projectFields_some h.2
  exact hheld

/-- One for each field. -/
theorem Indexed.length {row : StoredRow} {values : List Property} (h : Indexed S d row values) :
    values.length = d.on.tuple.length :=
  h.forall₂.length_eq.symm

theorem Indexed.ne_nil {row : StoredRow} {values : List Property} (h : Indexed S d row values)
    (htuple : d.on.tuple ≠ []) : values ≠ [] := by
  intro hnil
  have hlen := h.length
  rw [hnil] at hlen
  exact htuple (List.eq_nil_of_length_eq_zero hlen.symm)

/-- A live row that holds a value in every field of an index is in it. -/
theorem MarkersExact.indexed_of_holds (h : MarkersExact N S d) (hd : d.predicate = none)
    {row : StoredRow} (hrow : row ∈ S.rows)
    (hheld : ∀ f ∈ d.on.tuple, f.contains 46 = false → ∃ v, Holds row.2 f v) :
    ∃ values, Indexed S d row values := by
  obtain ⟨values?, hproj⟩ := h.projects hd hrow
  cases values? with
  | some values => exact ⟨values, hrow, hproj⟩
  | none =>
    obtain ⟨f, hf, hplain, hmissing⟩ := projectFields_none hproj
    obtain ⟨v, hv⟩ := hheld f hf hplain
    exact absurd hv (hmissing v)

/-- **The keys under an index**, word by word. -/
theorem MarkersExact.mem_keys (h : MarkersExact N S d) (hd : d.predicate = none)
    (htuple : d.on.tuple ≠ []) {key : Key} (hkey : indexKeyPrefix c.collectionPrefix d.name <+: key) :
    key ∈ S.keys ↔ ∃ row values, Indexed S d row values ∧ key =
      indexKeyPrefix c.collectionPrefix d.name ++
        (path slash (segments N values) ++ (row.1 ++ js ".json")) := by
  rw [h.exact key hkey]
  constructor
  · rintro ⟨row, hrow, ks, hks, hmem⟩
    rw [allIndexKeysFor_single hd] at hks
    cases hproj : projectIndexValues d (some row.2) with
    | error e =>
      rw [hproj] at hks
      cases hks
    | ok values? =>
      rw [hproj] at hks
      cases values? with
      | none =>
        cases hks
        exact absurd hmem List.not_mem_nil
      | some values =>
        cases hks
        have hindexed : Indexed S d row values := ⟨hrow, hproj⟩
        refine ⟨row, values, hindexed, ?_⟩
        rw [← indexKeyFor_eq (hindexed.ne_nil htuple)]
        exact List.mem_singleton.mp hmem
  · rintro ⟨row, values, hindexed, rfl⟩
    refine ⟨row, hindexed.1, [indexKeyFor N c.collectionPrefix d values row.1], ?_, ?_⟩
    · rw [allIndexKeysFor_single hd, hindexed.2]
      rfl
    · rw [indexKeyFor_eq (hindexed.ne_nil htuple)]
      exact List.mem_singleton.mpr rfl

/-! ## Doc ids -/

/-- A stored id is not empty and has no slash. -/
theorem assertStoredDocId_ok {id : JsString} (h : assertStoredDocId id = .ok ()) :
    id ≠ [] ∧ slash ∉ id := by
  unfold assertStoredDocId assertPathSegment at h
  split at h
  · cases h
  next hne =>
    split at h
    · cases h
    next hslash => exact ⟨hne, by simpa using hslash⟩

/-- So it is read back from its key. -/
theorem Indexed.docIdOf {row : StoredRow} {values : List Property} (h : Indexed S d row values)
    (words : List JsString) : docIdOf (path slash words ++ (row.1 ++ js ".json")) = some row.1 := by
  obtain ⟨hne, hslash⟩ := assertStoredDocId_ok (S.ids row h.1)
  exact docIdOf_path hne hslash

/-- The tail of a key behind its first words. -/
theorem drop_path {p : Key} {words more : List JsString} {last : Key} :
    (p ++ (path slash (words ++ more) ++ last)).drop (p ++ path slash words).length =
      path slash more ++ last := by
  rw [path_append, List.append_assoc, ← List.append_assoc, List.drop_left]

/-! ## Listing under a path -/

/-- A listing has the keys under its directory, after its cursor. -/
theorem mem_storageList {keys : List Key} {p : Key} {start : Option Key} {key : Key} :
    key ∈ storageList keys p start ↔
      key ∈ keys ∧ p <+: key ∧ ∀ s, start = some s → Utf8.encode s < Utf8.encode key := by
  rw [storageList, List.mem_insertionSort, List.mem_filter, Bool.and_eq_true,
    List.isPrefixOf_iff_prefix]
  cases start with
  | none => simp
  | some s => simp

/-- They come in the order of their UTF-8 bytes. -/
theorem storageList_sorted (keys : List Key) (p : Key) (start : Option Key) :
    (storageList keys p start).Pairwise fun a b => Utf8.encode a ≤ Utf8.encode b := by
  have htotal : Std.Total fun a b : Key => Utf8.encode a ≤ Utf8.encode b :=
    ⟨fun a b => le_total (Utf8.encode a) (Utf8.encode b)⟩
  have htrans : IsTrans Key fun a b => Utf8.encode a ≤ Utf8.encode b :=
    ⟨fun a b c hab hbc => le_trans hab hbc⟩
  exact List.pairwise_insertionSort _ _

/-- **The keys under some words** are those of the live rows whose values start with them. -/
theorem MarkersExact.mem_under (h : MarkersExact N S d) (hd : d.predicate = none)
    (htuple : d.on.tuple ≠ []) {keys : List Property} (hlen : keys.length ≤ d.on.tuple.length)
    {key : Key} :
    key ∈ S.keys ∧
        indexKeyPrefix c.collectionPrefix d.name ++ path slash (segments N keys) <+: key ↔
      ∃ row front back, Indexed S d row (front ++ back) ∧ segments N front = segments N keys ∧ key =
        indexKeyPrefix c.collectionPrefix d.name ++ (path slash (segments N front ++ segments N back) ++
          (row.1 ++ js ".json")) := by
  constructor
  · rintro ⟨hmem, hkey⟩
    have hindex : indexKeyPrefix c.collectionPrefix d.name <+: key :=
      (List.prefix_append _ _).trans hkey
    obtain ⟨row, values, hindexed, rfl⟩ := (h.mem_keys hd htuple hindex).mp hmem
    rw [List.prefix_append_right_inj, path_isPrefix slash_notMem_segments slash_notMem_segments
      (by simpa [segments, hindexed.length] using hlen)] at hkey
    have hfront : segments N (values.take keys.length) = segments N keys := by
      have htake := List.prefix_iff_eq_take.mp hkey
      rw [htake, segments, segments, segments, List.map_take, List.length_map]
    refine ⟨row, values.take keys.length, values.drop keys.length, ?_, hfront, ?_⟩
    · rw [List.take_append_drop]
      exact hindexed
    · rw [← segments_append, List.take_append_drop]
  · rintro ⟨row, front, back, hindexed, hfront, rfl⟩
    have hindex : indexKeyPrefix c.collectionPrefix d.name <+:
        indexKeyPrefix c.collectionPrefix d.name ++ (path slash (segments N front ++ segments N back) ++
          (row.1 ++ js ".json")) := List.prefix_append _ _
    constructor
    · refine (h.mem_keys hd htuple hindex).mpr ⟨row, front ++ back, hindexed, ?_⟩
      rw [segments_append]
    · rw [List.prefix_append_right_inj, path_append, hfront, List.append_assoc]
      exact List.prefix_append _ _

/-- **What a walk lists**: the rows whose first values have the segments of the query. -/
theorem MarkersExact.mem_walkUnder (h : MarkersExact N S d) (hd : d.predicate = none)
    (htuple : d.on.tuple ≠ []) {keys : List Property} (hlen : keys.length ≤ d.on.tuple.length)
    {id : JsString} :
    id ∈ walkUnder S.keys
        (indexKeyPrefix c.collectionPrefix d.name ++ path slash (segments N keys)) ↔
      ∃ row front back, Indexed S d row (front ++ back) ∧ segments N front = segments N keys ∧
        id = row.1 := by
  rw [walkUnder, List.mem_filterMap]
  constructor
  · rintro ⟨key, hkey, hid⟩
    rw [mem_storageList] at hkey
    obtain ⟨row, front, back, hindexed, hfront, rfl⟩ :=
      (h.mem_under hd htuple hlen).mp ⟨hkey.1, hkey.2.1⟩
    refine ⟨row, front, back, hindexed, hfront, ?_⟩
    rw [← hfront, drop_path, hindexed.docIdOf] at hid
    exact (Option.some.inj hid).symm
  · rintro ⟨row, front, back, hindexed, hfront, rfl⟩
    obtain ⟨hmem, hkey⟩ := (h.mem_under hd htuple hlen).mpr ⟨row, front, back, hindexed, hfront, rfl⟩
    refine ⟨_, mem_storageList.mpr ⟨hmem, hkey, fun s hs => by cases hs⟩, ?_⟩
    rw [← hfront, drop_path, hindexed.docIdOf]

/-! ## Keys in order -/

/-- Segments and slashes are ASCII. -/
theorem plain_of_segmentUnit {u : Fin 65536} (h : isSegmentUnit u = true ∨ u = slash) :
    Utf8.surrogate u = false ∧ u.val < 0x80 := by
  have hrange : 47 ≤ u.val ∧ u.val ≤ 118 := by
    rcases h with h | rfl
    · have := isSegmentUnit_range h
      omega
    · decide
  constructor
  · simp only [Utf8.surrogate, decide_eq_false_iff_not]
    omega
  · omega

/-- A unit of a segment, or a slash, is one byte. -/
theorem encode_plain {u : Fin 65536} (h : isSegmentUnit u = true ∨ u = slash) (s : JsString) :
    Utf8.encode (u :: s) = Fin.ofNat 256 u.val :: Utf8.encode s := by
  obtain ⟨hplain, hascii⟩ := plain_of_segmentUnit h
  rw [Utf8.encode_cons hplain, Utf8.bytes, if_pos hascii]
  rfl

/-- So they sort as their bytes. -/
theorem byte_lt {u v : Fin 65536} (hu : isSegmentUnit u = true ∨ u = slash)
    (hv : isSegmentUnit v = true ∨ v = slash) (h : u < v) :
    Fin.ofNat 256 u.val < Fin.ofNat 256 v.val := by
  have h₁ := (plain_of_segmentUnit hu).2
  have h₂ := (plain_of_segmentUnit hv).2
  have hlt : u.val < v.val := h
  show u.val % 256 < v.val % 256
  omega

/-- Segments closed by a slash sort as the segments do, whatever follows: the slash is below every
    unit of a segment. -/
theorem encode_lt_of_segment_lt {a b : JsString} (ha : ∀ u ∈ a, isSegmentUnit u = true)
    (hb : ∀ u ∈ b, isSegmentUnit u = true) (h : a < b) (x y : JsString) :
    Utf8.encode (a ++ slash :: x) < Utf8.encode (b ++ slash :: y) := by
  induction a generalizing b with
  | nil =>
    cases b with
    | nil => exact absurd h (lt_irrefl _)
    | cons v b =>
      have hv := hb v List.mem_cons_self
      have hlt : slash < v := by
        have hrange := isSegmentUnit_range hv
        show (47 : Nat) < v.val
        omega
      rw [List.nil_append, List.cons_append, encode_plain (Or.inr rfl), encode_plain (Or.inl hv),
        List.cons_lt_cons_iff]
      exact Or.inl (byte_lt (Or.inr rfl) (Or.inl hv) hlt)
  | cons u a ih =>
    cases b with
    | nil => exact absurd h (List.not_lt_nil _)
    | cons v b =>
      have hu := ha u List.mem_cons_self
      have hv := hb v List.mem_cons_self
      rw [List.cons_append, List.cons_append, encode_plain (Or.inl hu), encode_plain (Or.inl hv),
        List.cons_lt_cons_iff]
      rcases List.cons_lt_cons_iff.mp h with hlt | ⟨rfl, hrest⟩
      · exact Or.inl (byte_lt (Or.inl hu) (Or.inl hv) hlt)
      · exact Or.inr ⟨rfl, ih (fun w hw => ha w (List.mem_cons_of_mem u hw))
          (fun w hw => hb w (List.mem_cons_of_mem u hw)) hrest⟩

/-- The bytes of what precedes a segment come first. -/
theorem encode_append_segment (p : Key) {a : JsString} (ha : ∀ u ∈ a, isSegmentUnit u = true)
    (x : JsString) : Utf8.encode (p ++ (a ++ slash :: x)) =
      Utf8.encode p ++ Utf8.encode (a ++ slash :: x) := by
  have hlow : ∀ u : Fin 65536, isSegmentUnit u = true ∨ u = slash → Utf8.low u = false := by
    intro u hu
    have hsmall := (plain_of_segmentUnit hu).2
    simp only [Utf8.low, decide_eq_false_iff_not]
    omega
  cases a with
  | nil => exact Utf8.encode_append (hlow slash (Or.inr rfl))
  | cons u a => exact Utf8.encode_append (hlow u (Or.inl (ha u List.mem_cons_self)))

/-- **Keys sort by the first segment that differs.** -/
theorem key_lt_of_segment_lt (p : Key) {v w : Property}
    (h : v.segment N < w.segment N) (x y : JsString) :
    Utf8.encode (p ++ (v.segment N ++ slash :: x)) <
      Utf8.encode (p ++ (w.segment N ++ slash :: y)) := by
  rw [encode_append_segment p fun u => segment_units, encode_append_segment p fun u => segment_units]
  exact List.append_left_lt
    (encode_lt_of_segment_lt (fun u => segment_units) (fun u => segment_units) h x y)

/-- Within one segment keys sort by what follows it. -/
theorem key_lt_same_segment (p : Key) (v : Property) (x y : JsString) :
    Utf8.encode (p ++ (v.segment N ++ slash :: x)) <
      Utf8.encode (p ++ (v.segment N ++ slash :: y)) ↔ Utf8.encode x < Utf8.encode y := by
  have hsplit : ∀ z, Utf8.encode (p ++ (v.segment N ++ slash :: z)) =
      Utf8.encode p ++ (Utf8.encode (v.segment N) ++
        Fin.ofNat 256 slash.val :: Utf8.encode z) := by
    intro z
    rw [encode_append_segment p fun u => segment_units, Utf8.encode_append (by decide),
      encode_plain (Or.inr rfl)]
  rw [hsplit, hsplit]
  have hmono : ∀ {z t : JsString}, Utf8.encode z < Utf8.encode t →
      Utf8.encode p ++ (Utf8.encode (v.segment N) ++
          Fin.ofNat 256 slash.val :: Utf8.encode z) <
        Utf8.encode p ++ (Utf8.encode (v.segment N) ++
          Fin.ofNat 256 slash.val :: Utf8.encode t) := fun hlt =>
    List.append_left_lt (List.append_left_lt (List.cons_lt_cons_iff.mpr (Or.inr ⟨rfl, hlt⟩)))
  constructor
  · intro h
    rcases lt_trichotomy (Utf8.encode x) (Utf8.encode y) with hlt | heq | hgt
    · exact hlt
    · rw [heq] at h
      exact absurd h (lt_irrefl _)
    · exact absurd (hmono hgt) (not_lt_of_gt h)
  · exact hmono

/-- The converse, up to equality. -/
theorem segment_le_of_key_le (p : Key) {v w : Property} {x y : JsString}
    (h : Utf8.encode (p ++ (v.segment N ++ slash :: x)) ≤
      Utf8.encode (p ++ (w.segment N ++ slash :: y))) :
    v.segment N ≤ w.segment N := by
  by_contra hnot
  exact absurd (key_lt_of_segment_lt p (not_le.mp hnot) y x) (not_lt_of_ge h)

/-- A key comes after a cursor in a bucket iff its bucket comes after, or it comes after in it. -/
theorem cursor_lt_key (p : Key) {v w : Property} {x y : JsString} :
    Utf8.encode (p ++ (v.segment N ++ slash :: x)) <
        Utf8.encode (p ++ (w.segment N ++ slash :: y)) ↔
      v.segment N < w.segment N ∨
        (v.segment N = w.segment N ∧ Utf8.encode x < Utf8.encode y) := by
  rcases lt_trichotomy (v.segment N) (w.segment N) with hlt | heq | hgt
  · simp [hlt, key_lt_of_segment_lt p hlt x y]
  · rw [heq, key_lt_same_segment]
    simp
  · have hkey := key_lt_of_segment_lt p hgt y x
    constructor
    · exact fun h => absurd h (not_lt_of_gt hkey)
    · rintro (h | ⟨h, -⟩)
      · exact absurd h (not_lt_of_gt hgt)
      · exact absurd h.symm (ne_of_lt hgt)

/-! ## The range loop -/

/-- What is past the upper bound stays past it: the early break is sound. -/
theorem pastUpper_mono {r : RangeOpInfo} {a b : JsString} (h : a ≤ b) (ha : pastUpper N r a = true) :
    pastUpper N r b = true := by
  unfold pastUpper at ha ⊢
  cases hhi : r.hi with
  | none =>
    rw [hhi] at ha
    cases ha
  | some hi =>
    rw [hhi] at ha
    simp only [Option.map_some, Option.any_some] at ha ⊢
    by_cases hincl : r.hiInclusive = true
    · rw [if_pos hincl, decide_eq_true_eq] at ha ⊢
      exact lt_of_lt_of_le ha h
    · rw [if_neg hincl, decide_eq_true_eq] at ha ⊢
      exact le_trans ha h

/-- The loop takes this key, of a marker of `v`, and reads `id` off it. -/
def Takes (N : NumberText) (r : RangeOpInfo) (p key : Key) (id : JsString) : Prop :=
  ∃ (v : Property) (more : Key), key = p ++ (v.segment N ++ slash :: more) ∧
    docIdOf (v.segment N ++ slash :: more) = some id ∧
    belowLower N r (v.segment N) = false ∧ pastUpper N r (v.segment N) = false

/-- **The early end of the loop loses nothing**: the listing is in the order of the segments. -/
theorem mem_rangeLoop {r : RangeOpInfo} {p : Key} {id : JsString} {keys : List Key}
    (hsorted : keys.Pairwise fun a b => Utf8.encode a ≤ Utf8.encode b)
    (hform : ∀ key ∈ keys, ∃ (v : Property) (more : Key) (docId : JsString),
      key = p ++ (v.segment N ++ slash :: more) ∧
      docIdOf (v.segment N ++ slash :: more) = some docId) :
    id ∈ rangeLoop N r p keys ↔ ∃ key ∈ keys, Takes N r p key id := by
  induction keys with
  | nil => simp [rangeLoop]
  | cons key keys ih =>
    obtain ⟨hhead, htail⟩ := List.pairwise_cons.mp hsorted
    have ih' := ih htail fun k hk => hform k (List.mem_cons_of_mem key hk)
    obtain ⟨v, more, docId, rfl, hid⟩ := hform _ List.mem_cons_self
    have hseg : (v.segment N ++ slash :: more).takeWhile (· ≠ slash) =
        v.segment N := takeWhile_cut (slash_notMem_segment v)
    have hcut : (v.segment N ++ slash :: more).contains slash = true := by simp
    have hstep : rangeLoop N r p ((p ++ (v.segment N ++ slash :: more)) :: keys) =
        if belowLower N r (v.segment N) then rangeLoop N r p keys
        else if pastUpper N r (v.segment N) then []
        else docId :: rangeLoop N r p keys := by
      simp only [rangeLoop, List.drop_left, hseg, hcut, Bool.not_true, Bool.false_eq_true, if_false,
        hid]
    -- what the loop knows of the head is what any description of it says
    have hown : ∀ {id'}, Takes N r p (p ++ (v.segment N ++ slash :: more)) id' →
        id' = docId ∧ belowLower N r (v.segment N) = false ∧
          pastUpper N r (v.segment N) = false := by
      rintro id' ⟨v', more', heq, hid', hlo, hhi⟩
      obtain ⟨hv, hmore⟩ := cut_inj (slash_notMem_segment v) (slash_notMem_segment v')
        (List.append_cancel_left heq)
      rw [← hv] at hlo hhi
      rw [← hv, ← hmore, hid] at hid'
      exact ⟨(Option.some.inj hid').symm, hlo, hhi⟩
    rw [hstep]
    constructor
    · intro hmem
      split at hmem
      · obtain ⟨k, hk, htakes⟩ := ih'.mp hmem
        exact ⟨k, List.mem_cons_of_mem _ hk, htakes⟩
      next hlo =>
        split at hmem
        · exact absurd hmem List.not_mem_nil
        next hhi =>
          rcases List.mem_cons.mp hmem with rfl | hmem
          · exact ⟨_, List.mem_cons_self, v, more, rfl, hid, by simpa using hlo, by simpa using hhi⟩
          · obtain ⟨k, hk, htakes⟩ := ih'.mp hmem
            exact ⟨k, List.mem_cons_of_mem _ hk, htakes⟩
    · rintro ⟨k, hk, htakes⟩
      rcases List.mem_cons.mp hk with rfl | hk
      · obtain ⟨rfl, hlo, hhi⟩ := hown htakes
        rw [hlo, hhi]
        exact List.mem_cons_self
      · have hrest := ih'.mpr ⟨k, hk, htakes⟩
        split
        · exact hrest
        · split
          next hpast =>
            obtain ⟨v', more', rfl, -, -, hhi⟩ := htakes
            have hle := segment_le_of_key_le p (hhead _ hk)
            rw [pastUpper_mono hle hpast] at hhi
            cases hhi
          next => exact List.mem_cons_of_mem _ hrest

/-! ## What a plan selects -/

/-- A value is in a range as its bytes are.  Behind an exclusive lower bound the cursor stands in the
    bucket of the bound itself, so a marker of that bucket is selected if the rest of its key comes
    after the sentinel. -/
def InRange (N : NumberText) (r : RangeOpInfo) (v : Property) (more : Key) : Prop :=
  (∀ lo, r.lo = some lo → encodeBytes N lo < v.bytes N ∨ (encodeBytes N lo = v.bytes N ∧
    (r.loInclusive = true ∨ Utf8.encode rangeExclusiveLowerSentinel < Utf8.encode more))) ∧
  (∀ hi, r.hi = some hi → v.bytes N < encodeBytes N hi ∨
    (v.bytes N = encodeBytes N hi ∧ r.hiInclusive = true))

/-- The slot behind the equality run selects what follows it. -/
def SelectsSlot (N : NumberText) (plan : IndexWalkPlan) (docId : JsString)
    (back : List Property) : Prop :=
  match plan.rangeOn, plan.inOn with
  | some (_, r), _ => ∃ v rest, back = v :: rest ∧
      InRange N r v (path slash (segments N rest) ++ (docId ++ js ".json"))
  | none, some (_, members) => ∃ v rest, back = v :: rest ∧
      ∃ m ∈ members, v.segment N = encodeIndexValue N m
  | none, none => True

/-- The plan selects the values an index holds of a row. -/
def Selects (N : NumberText) (plan : IndexWalkPlan) (docId : JsString)
    (values : List Property) : Prop :=
  ∃ front back, values = front ++ back ∧ segments N front = segments N plan.keys ∧
    SelectsSlot N plan docId back

/-- What the cursor and the loop test together. -/
theorem inRange_iff {r : RangeOpInfo} {p : Key} {v : Property} {more : Key} :
    InRange N r v more ↔
      (∀ s, rangeStart N r p = some s →
        Utf8.encode s < Utf8.encode (p ++ (v.segment N ++ slash :: more))) ∧
      belowLower N r (v.segment N) = false ∧
      pastUpper N r (v.segment N) = false := by
  have hlower : (∀ lo, r.lo = some lo → encodeBytes N lo < v.bytes N ∨
      (encodeBytes N lo = v.bytes N ∧ (r.loInclusive = true ∨
        Utf8.encode rangeExclusiveLowerSentinel < Utf8.encode more))) ↔
      (∀ s, rangeStart N r p = some s →
        Utf8.encode s < Utf8.encode (p ++ (v.segment N ++ slash :: more))) ∧
      belowLower N r (v.segment N) = false := by
    unfold rangeStart belowLower
    cases hlo : r.lo with
    | none => simp
    | some lo =>
      -- the cursor of an exclusive bound stands at its sentinel
      have hcursor : ∀ s, p ++ encodeIndexValue N lo ++ js "/" ++ rangeExclusiveLowerSentinel = s →
          s = p ++ (encodeIndexValue N lo ++ slash :: rangeExclusiveLowerSentinel) := by
        rintro s rfl
        simp [js_slash]
      simp only [Option.map_some, Option.any_some, Option.some.injEq, decide_eq_false_iff_not,
        forall_eq', not_lt]
      by_cases hincl : r.loInclusive = true
      · simp only [hincl, if_true, true_or, and_true, reduceCtorEq, false_imp_iff, forall_true_iff,
          true_and]
        rw [← Property.bytes_value, ← Property.segment_value, ← Property.segment_lt_iff,
          ← Property.segment_eq_bytes, le_iff_lt_or_eq]
      · simp only [hincl, if_false, false_or, Option.some.injEq, forall_eq', Bool.false_eq_true]
        rw [hcursor _ rfl, ← Property.bytes_value, ← Property.segment_value, cursor_lt_key,
          Property.segment_lt_iff, Property.segment_eq_bytes]
        constructor
        · intro h
          refine ⟨h, ?_⟩
          rcases h with h | ⟨h, -⟩
          · exact le_of_lt (Property.segment_lt_iff.mpr h)
          · exact le_of_eq (Property.segment_eq_bytes.mpr h)
        · exact fun h => h.1
  have hupper : (∀ hi, r.hi = some hi → v.bytes N < encodeBytes N hi ∨
      (v.bytes N = encodeBytes N hi ∧ r.hiInclusive = true)) ↔
      pastUpper N r (v.segment N) = false := by
    unfold pastUpper
    cases hhi : r.hi with
    | none => simp
    | some hi =>
      simp only [Option.map_some, Option.any_some, Option.some.injEq, forall_eq']
      by_cases hincl : r.hiInclusive = true
      · simp only [hincl, if_true, and_true, decide_eq_false_iff_not, not_lt]
        rw [← Property.bytes_value, ← Property.segment_value, ← Property.segment_lt_iff,
          ← Property.segment_eq_bytes, le_iff_lt_or_eq]
      · simp only [hincl, if_false, and_false, or_false, decide_eq_false_iff_not, not_le,
          Bool.false_eq_true]
        rw [← Property.bytes_value, ← Property.segment_value, ← Property.segment_lt_iff]
  rw [InRange, hlower, hupper, and_assoc]

/-- How many fields of the index the plan uses up. -/
def IndexWalkPlan.consumed (plan : IndexWalkPlan) : Nat :=
  plan.equalityKeys.length + (if plan.rangeOn.isSome || plan.inOn.isSome then 1 else 0)

/-- The first segment stands before the rest of the path. -/
theorem path_segments_cons (v : Property) (rest : List Property) (last : Key) :
    path slash (segments N (v :: rest)) ++ last =
      v.segment N ++ slash :: (path slash (segments N rest) ++ last) := by
  simp [segments]

/-- The markers a range walk lists, with the value in the range slot. -/
theorem MarkersExact.mem_rangeKeys (h : MarkersExact N S d) (hd : d.predicate = none)
    {keys : List Property} (hlen : keys.length < d.on.tuple.length) {key : Key} :
    key ∈ S.keys ∧
        indexKeyPrefix c.collectionPrefix d.name ++ path slash (segments N keys) <+: key ↔
      ∃ row front v rest, Indexed S d row (front ++ v :: rest) ∧
        segments N front = segments N keys ∧
        key = indexKeyPrefix c.collectionPrefix d.name ++ path slash (segments N keys) ++
          (v.segment N ++ slash :: (path slash (segments N rest) ++
            (row.1 ++ js ".json"))) := by
  have htuple : d.on.tuple ≠ [] := fun hnil => by simp [hnil] at hlen
  rw [h.mem_under hd htuple (Nat.le_of_lt hlen)]
  constructor
  · rintro ⟨row, front, back, hindexed, hfront, rfl⟩
    cases back with
    | nil =>
      -- the range slot is a field of the index, so it has a value
      have hcount := hindexed.length
      have hsame := congrArg List.length hfront
      simp only [segments, List.length_map, List.append_nil] at hcount hsame
      omega
    | cons v rest =>
      refine ⟨row, front, v, rest, hindexed, hfront, ?_⟩
      rw [path_append, hfront, List.append_assoc, List.append_assoc, path_segments_cons]
  · rintro ⟨row, front, v, rest, hindexed, hfront, rfl⟩
    refine ⟨row, front, v :: rest, hindexed, hfront, ?_⟩
    rw [path_append, hfront, List.append_assoc, List.append_assoc, path_segments_cons]

/-- A document is read back from what stands after the walk's directory. -/
theorem Indexed.docIdOf_cut {row : StoredRow} {values : List Property} (h : Indexed S d row values)
    (v : Property) (rest : List Property) : Baerly.docIdOf (v.segment N ++
      slash :: (path slash (segments N rest) ++ (row.1 ++ js ".json"))) = some row.1 := by
  rw [← path_segments_cons]
  exact h.docIdOf _

/-- **What a range walk lists**: the rows in the range, among those whose first values have the
    segments of the query. -/
theorem MarkersExact.mem_rangeWalk (h : MarkersExact N S d) (hd : d.predicate = none)
    {keys : List Property} (hlen : keys.length < d.on.tuple.length) {r : RangeOpInfo} {id : JsString} :
    id ∈ rangeLoop N r (indexKeyPrefix c.collectionPrefix d.name ++ path slash (segments N keys))
        (storageList S.keys (indexKeyPrefix c.collectionPrefix d.name ++ path slash (segments N keys))
          (rangeStart N r
            (indexKeyPrefix c.collectionPrefix d.name ++ path slash (segments N keys)))) ↔
      ∃ row front v rest, Indexed S d row (front ++ v :: rest) ∧
        segments N front = segments N keys ∧ id = row.1 ∧
        InRange N r v (path slash (segments N rest) ++ (row.1 ++ js ".json")) := by
  rw [mem_rangeLoop (storageList_sorted _ _ _)]
  · constructor
    · rintro ⟨key, hkey, v', more', hform, hid, hlo, hhi⟩
      rw [mem_storageList] at hkey
      obtain ⟨row, front, v, rest, hindexed, hfront, rfl⟩ :=
        (h.mem_rangeKeys hd hlen).mp ⟨hkey.1, hkey.2.1⟩
      obtain ⟨hv, hmore⟩ := cut_inj (slash_notMem_segment v) (slash_notMem_segment v')
        (List.append_cancel_left hform)
      rw [← hv, ← hmore, hindexed.docIdOf_cut] at hid
      rw [← hv] at hlo hhi
      exact ⟨row, front, v, rest, hindexed, hfront, (Option.some.inj hid).symm,
        inRange_iff.mpr ⟨hkey.2.2, hlo, hhi⟩⟩
    · rintro ⟨row, front, v, rest, hindexed, hfront, rfl, hrange⟩
      obtain ⟨hmem, hunder⟩ := (h.mem_rangeKeys hd hlen).mpr
        ⟨row, front, v, rest, hindexed, hfront, rfl⟩
      obtain ⟨hstart, hlo, hhi⟩ := inRange_iff.mp hrange
      exact ⟨_, mem_storageList.mpr ⟨hmem, hunder, hstart⟩, v, _, rfl, hindexed.docIdOf_cut v rest,
        hlo, hhi⟩
  · intro key hkey
    rw [mem_storageList] at hkey
    obtain ⟨row, front, v, rest, hindexed, hfront, rfl⟩ :=
      (h.mem_rangeKeys hd hlen).mp ⟨hkey.1, hkey.2.1⟩
    exact ⟨v, _, row.1, rfl, hindexed.docIdOf_cut v rest⟩

/-- **Which rows a walk reaches.** -/
theorem MarkersExact.mem_walkIds (h : MarkersExact N S d) (hd : d.predicate = none)
    {plan : IndexWalkPlan} (hname : plan.indexName = d.name) (htuple : d.on.tuple ≠ [])
    (hfits : plan.consumed ≤ d.on.tuple.length) {id : JsString} :
    id ∈ walkIds N c S.keys plan ↔
      ∃ row values, Indexed S d row values ∧ row.1 = id ∧ Selects N plan id values := by
  unfold walkIds Selects SelectsSlot
  simp only [List.mem_eraseDups, eqPrefix_eq, hname]
  unfold IndexWalkPlan.consumed at hfits
  rw [← IndexWalkPlan.keys_length] at hfits
  cases hrange : plan.rangeOn with
  | some range =>
    obtain ⟨field, r⟩ := range
    rw [hrange] at hfits
    simp only [Option.isSome_some, Bool.true_or, if_true] at hfits
    rw [h.mem_rangeWalk hd hfits]
    constructor
    · rintro ⟨row, front, v, rest, hindexed, hfront, rfl, hin⟩
      exact ⟨row, front ++ v :: rest, hindexed, rfl, front, v :: rest, rfl, hfront, v, rest, rfl, hin⟩
    · rintro ⟨row, values, hindexed, rfl, front, back, rfl, hfront, v, rest, rfl, hin⟩
      exact ⟨row, front, v, rest, hindexed, hfront, rfl, hin⟩
  | none =>
    cases hset : plan.inOn with
    | some members =>
      obtain ⟨field, values⟩ := members
      rw [hrange, hset] at hfits
      simp only [Option.isSome_none, Option.isSome_some, Bool.or_true, if_true] at hfits
      have hword : ∀ m : Doc, indexKeyPrefix c.collectionPrefix d.name ++
          path slash (segments N plan.keys) ++ encodeIndexValue N m ++ js "/" =
            indexKeyPrefix c.collectionPrefix d.name ++
              path slash (segments N (plan.keys ++ [Property.value m])) := by
        intro m
        rw [segments_append, path_append]
        simp [segments, js_slash]
      have hlen : ∀ m : Doc, (plan.keys ++ [Property.value m]).length ≤ d.on.tuple.length := by
        intro m
        rw [List.length_append]
        exact hfits
      simp only [List.mem_flatMap, hword]
      constructor
      · rintro ⟨m, hm, hid⟩
        obtain ⟨row, front, back, hindexed, hfront, rfl⟩ := (h.mem_walkUnder hd htuple (hlen m)).mp hid
        -- the last of the matched values is the one of the set
        rcases List.eq_nil_or_concat front with rfl | ⟨front, v, rfl⟩
        · exact absurd (congrArg List.length hfront) (by simp [segments])
        · rw [List.concat_eq_append] at hindexed hfront
          rw [segments_append, segments_append] at hfront
          obtain ⟨hfront, hv⟩ := List.append_inj' hfront rfl
          rw [List.append_assoc] at hindexed
          exact ⟨row, _, hindexed, rfl, front, v :: back, rfl, hfront, v, back, rfl, m, hm,
            List.head_eq_of_cons_eq hv⟩
      · rintro ⟨row, vs, hindexed, rfl, front, back, rfl, hfront, v, rest, rfl, m, hm, hv⟩
        refine ⟨m, hm, (h.mem_walkUnder hd htuple (hlen m)).mpr ⟨row, front ++ [v], rest, ?_, ?_, rfl⟩⟩
        · rw [List.append_assoc]
          exact hindexed
        · rw [segments_append, segments_append, hfront]
          simp [segments, hv]
    | none =>
      rw [hrange, hset] at hfits
      rw [h.mem_walkUnder hd htuple (by simpa using hfits)]
      constructor
      · rintro ⟨row, front, back, hindexed, hfront, rfl⟩
        exact ⟨row, front ++ back, hindexed, rfl, front, back, rfl, hfront, trivial⟩
      · rintro ⟨row, values, hindexed, rfl, front, back, rfl, hfront, -⟩
        exact ⟨row, front, back, hindexed, hfront, rfl⟩

end Baerly
