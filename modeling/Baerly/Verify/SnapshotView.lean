import Baerly.SnapshotView
import Baerly.Verify.ChunkMint

/-
  The three ways to read a snapshot agree.

  PROGRAM: `get` bisects the descriptors and then the chunk, `scan` starts at the first chunk that
  ends at or after the lower bound and stops at the upper one, `materialize` reads everything.

  SPEC (`view_agrees`): on a manifest whose chunks are stored, `get` answers what the materialized
  map holds, and `scan` yields the rows of the map that lie in the range, in the order of their ids.

  CRUX: all documents of a snapshot lie in one increasing sequence (`docs_increasing`), so leaving out
  chunks before the range and stopping at its end is filtering.
-/

namespace Baerly

open Json
open Utf8 (Byte)

/-! ## Ranges -/

namespace SnapshotRange

/-- The ids of a range: from the lower bound on, up to the upper one. -/
def Contains (range : SnapshotRange) (id : JsString) : Prop :=
  (∀ gte, range.gte = some gte → idPoints gte ≤ idPoints id) ∧
    ∀ lt, range.lt = some lt → idLt id lt

variable {range : SnapshotRange} {id : JsString}

/-- An id is before the range iff it is below its start. -/
theorem startsAfter_iff :
    range.startsAfter id = true ↔ ∃ gte, range.gte = some gte ∧ idLt id gte := by
  unfold startsAfter
  split
  next gte hgte => simp [hgte, compareDocIds_lt_iff]
  next hgte => simp [hgte]

/-- It is past the range iff it is not below its end. -/
theorem endsAt_iff :
    range.endsAt id = true ↔ ∃ lt, range.lt = some lt ∧ idPoints lt ≤ idPoints id := by
  unfold endsAt
  split
  next lt hlt =>
    rw [decide_eq_true_eq, Ne, compareDocIds_lt_iff]
    simp [hlt, idLt]
  next hlt => simp [hlt]

/-- And in the range otherwise. -/
theorem contains_iff :
    range.Contains id ↔ range.startsAfter id = false ∧ range.endsAt id = false := by
  rw [← Bool.not_eq_true, ← Bool.not_eq_true, startsAfter_iff, endsAt_iff]
  constructor
  · rintro ⟨hlow, hhigh⟩
    constructor
    · rintro ⟨gte, hgte, hlt⟩
      exact absurd (hlow gte hgte) (not_le_of_gt hlt)
    · rintro ⟨lt, hlt, hle⟩
      exact absurd (hhigh lt hlt) (not_lt_of_ge hle)
  · rintro ⟨hlow, hhigh⟩
    constructor
    · intro gte hgte
      exact le_of_not_gt fun hlt => hlow ⟨gte, hgte, hlt⟩
    · intro lt hlt
      exact lt_of_not_ge fun hle => hhigh ⟨lt, hlt, hle⟩

instance (range : SnapshotRange) (id : JsString) : Decidable (range.Contains id) :=
  decidable_of_iff _ contains_iff.symm

/-- Past the end is past the end for every later id. -/
theorem endsAt_of_le {later : JsString} (h : range.endsAt id = true)
    (hle : idPoints id ≤ idPoints later) : range.endsAt later = true := by
  obtain ⟨lt, hlt, hid⟩ := endsAt_iff.mp h
  exact endsAt_iff.mpr ⟨lt, hlt, le_trans hid hle⟩

theorem not_contains_of_endsAt (h : range.endsAt id = true) : ¬ range.Contains id := by
  intro hcontains
  rw [(contains_iff.mp hcontains).2] at h
  cases h

/-- An empty range contains nothing. -/
theorem not_contains_of_isEmpty (h : range.isEmpty = true) : ¬ range.Contains id := by
  unfold isEmpty at h
  split at h
  next gte hgte =>
    intro hcontains
    exact not_contains_of_endsAt (endsAt_of_le h (hcontains.1 gte hgte)) hcontains
  next => cases h

/-- The full range has every id. -/
theorem contains_all (id : JsString) : all.Contains id := by
  constructor
  · intro gte hgte
    cases hgte
  · intro lt hlt
    cases hlt

end SnapshotRange

/-! ## One chunk -/

/-- A document as a row. -/
def rowOf (d : Doc) : SnapshotRow := ⟨idOf d, d⟩

/-- The rows of a range, in the order of the documents. -/
def rowsIn (range : SnapshotRange) (docs : List Doc) : List SnapshotRow :=
  (docs.filter fun d => range.Contains (idOf d)).map rowOf

/-- The rows in a range, chunk by chunk. -/
theorem rowsIn_append (range : SnapshotRange) (docs more : List Doc) :
    rowsIn range (docs ++ more) = rowsIn range docs ++ rowsIn range more := by
  rw [rowsIn, List.filter_append, List.map_append]
  rfl

/-- A chunk outside the range has none. -/
theorem rowsIn_eq_nil {range : SnapshotRange} {docs : List Doc}
    (h : ∀ d ∈ docs, ¬ range.Contains (idOf d)) : rowsIn range docs = [] := by
  rw [rowsIn, List.filter_eq_nil_iff.mpr (by simpa using h), List.map_nil]

/-- **The loop over a chunk filters it.** -/
theorem scanDocs_eq (range : SnapshotRange) {docs : List Doc}
    (h : (docs.map idOf).Pairwise idLt) : scanDocs range docs = rowsIn range docs := by
  induction docs with
  | nil => rfl
  | cons body docs ih =>
    rw [List.map_cons, List.pairwise_cons] at h
    rw [scanDocs, show body :: docs = [body] ++ docs from rfl, rowsIn_append, ← ih h.2]
    by_cases hlow : range.startsAfter (idOf body) = true
    · rw [if_pos hlow, rowsIn_eq_nil, List.nil_append]
      intro d hd hcontains
      rw [List.mem_singleton.mp hd] at hcontains
      rw [(SnapshotRange.contains_iff.mp hcontains).1] at hlow
      cases hlow
    · rw [if_neg hlow]
      by_cases hhigh : range.endsAt (idOf body) = true
      · -- from here on everything is past the end
        rw [if_pos hhigh, ih h.2, ← rowsIn_append, rowsIn_eq_nil]
        intro d hd
        apply SnapshotRange.not_contains_of_endsAt
        rcases List.mem_append.mp hd with hd | hd
        · rw [List.mem_singleton.mp hd]
          exact hhigh
        · exact SnapshotRange.endsAt_of_le hhigh
            (le_of_lt (h.1 (idOf d) (List.mem_map.mpr ⟨d, hd, rfl⟩)))
      · have hcontains : range.Contains (idOf body) :=
          SnapshotRange.contains_iff.mpr ⟨Bool.eq_false_of_not_eq_true hlow,
            Bool.eq_false_of_not_eq_true hhigh⟩
        rw [if_neg hhigh, rowsIn, List.filter_singleton, decide_eq_true hcontains]
        rfl

/-- What the search within a chunk asks of a row. -/
theorem liesBefore_iff {docs : List Doc} {id : JsString} {j : Nat} :
    liesBefore docs id j = true ↔ ∃ d, docs[j]? = some d ∧ idLt (idOf d) id := by
  unfold liesBefore
  split
  next d hd => simp [hd, compareDocIds_lt_iff]
  next hd => simp [hd]

/-- Only equal ids compare equal. -/
theorem compareDocIds_eq_iff {a b : JsString} : compareDocIds a b = .eq ↔ a = b := by
  constructor
  · intro h
    have hlt : ¬ idLt a b := by
      rw [← compareDocIds_lt_iff, h]
      exact fun heq => (by cases heq)
    have hgt : ¬ idLt b a := by
      rw [← compareDocIds_gt_iff, h]
      exact fun heq => (by cases heq)
    exact idPoints_injective (le_antisymm (not_lt.mp hgt) (not_lt.mp hlt))
  · rintro rfl
    cases h : compareDocIds a a with
    | eq => rfl
    | lt => exact absurd (compareDocIds_lt_iff.mp h) (lt_irrefl _)
    | gt => exact absurd (compareDocIds_gt_iff.mp h) (lt_irrefl _)

/-- Sorted rows sort by their place. -/
theorem getElem_lt_of_lt {docs : List Doc} (h : (docs.map idOf).Pairwise idLt) {j k : Nat}
    {a b : Doc} (hjk : j < k) (ha : docs[j]? = some a) (hb : docs[k]? = some b) :
    idLt (idOf a) (idOf b) := by
  obtain ⟨hj, rfl⟩ := List.getElem?_eq_some_iff.mp ha
  obtain ⟨hk, rfl⟩ := List.getElem?_eq_some_iff.mp hb
  exact List.pairwise_iff_getElem.mp (List.pairwise_map.mp h) j k hj hk hjk

/-- **The bisection of a chunk finds the document of an id.** -/
theorem findDocument_iff {docs : List Doc} (h : (docs.map idOf).Pairwise idLt) {id : JsString}
    {d : Doc} : findDocument docs id = some d ↔ d ∈ docs ∧ idOf d = id := by
  have hmono : Bisect.Initial (liesBefore docs id) := by
    intro j k hjk hk
    obtain ⟨b, hb, hlt⟩ := liesBefore_iff.mp hk
    have hj : j < docs.length := by
      have := (List.getElem?_eq_some_iff.mp hb).1
      omega
    have ha : docs[j]? = some docs[j] := List.getElem?_eq_getElem hj
    apply liesBefore_iff.mpr
    rcases Nat.lt_or_eq_of_le hjk with hjk | rfl
    · exact ⟨_, ha, lt_trans (getElem_lt_of_lt h hjk ha hb) hlt⟩
    · exact ⟨b, hb, hlt⟩
  have hout : ∀ j, docs.length ≤ j → liesBefore docs id j = false := by
    intro j hj
    rw [liesBefore, List.getElem?_eq_none hj]
  obtain ⟨hbelow, habove, -⟩ := Bisect.search_length hmono hout
  unfold findDocument
  constructor
  · intro hfound
    split at hfound
    next candidate hcandidate =>
      split at hfound
      next heq =>
        cases hfound
        exact ⟨List.mem_of_getElem? hcandidate, compareDocIds_eq_iff.mp heq⟩
      next => cases hfound
    next => cases hfound
  · rintro ⟨hd, rfl⟩
    obtain ⟨k, hk, rfl⟩ := List.getElem_of_mem hd
    have hget : docs[k]? = some docs[k] := List.getElem?_eq_getElem hk
    -- the search stops at `k`: nothing before passes it, and `k` itself does not pass
    have hstop : Bisect.search (liesBefore docs (idOf docs[k])) docs.length 0 docs.length = k := by
      apply Nat.le_antisymm
      · by_contra hgt
        obtain ⟨a, ha, hlt⟩ := liesBefore_iff.mp (hbelow k (by omega))
        rw [hget, Option.some.injEq] at ha
        rw [← ha] at hlt
        exact lt_irrefl _ hlt
      · by_contra hlt
        have hfalse := habove (Bisect.search (liesBefore docs (idOf docs[k])) docs.length 0
          docs.length) (Nat.le_refl _)
        have hlow : Bisect.search (liesBefore docs (idOf docs[k])) docs.length 0 docs.length < k := by
          omega
        have htrue := liesBefore_iff.mpr ⟨_, List.getElem?_eq_getElem (Nat.lt_trans hlow hk),
          getElem_lt_of_lt h hlow (List.getElem?_eq_getElem (Nat.lt_trans hlow hk)) hget⟩
        rw [hfalse] at htrue
        cases htrue
    rw [hstop, hget]
    dsimp only
    rw [if_pos (compareDocIds_eq_iff.mpr rfl)]

/-! ## The whole snapshot -/

/-- The rows of ordered chunks stand in one order. -/
theorem increasing_flatMap {chunks : List BaseChunk}
    (h : Ordered (chunks.map BaseChunk.descriptor)) :
    ((chunks.flatMap BaseChunk.docs).map idOf).Pairwise idLt := by
  induction chunks with
  | nil => exact List.Pairwise.nil
  | cons c chunks ih =>
    obtain ⟨hrange, hpairs⟩ := h
    rw [List.map_cons, List.forall_mem_cons] at hrange
    rw [List.map_cons, List.pairwise_cons] at hpairs
    rw [List.flatMap_cons, List.map_append, List.pairwise_append]
    refine ⟨c.increasing, ih ⟨hrange.2, hpairs.2⟩, ?_⟩
    intro a ha b hb
    obtain ⟨x, hx, rfl⟩ := List.mem_map.mp ha
    obtain ⟨y, hy, rfl⟩ := List.mem_map.mp hb
    obtain ⟨c', hc', hy⟩ := List.mem_flatMap.mp hy
    have hgap : idLt c.descriptor.lastId c'.descriptor.firstId :=
      hpairs.1 _ (List.mem_map.mpr ⟨c', hc', rfl⟩)
    exact lt_of_le_of_lt (c.range hx).2 (lt_of_lt_of_le hgap (c'.range hy).1)

/-- So do the rows of a snapshot. -/
theorem ChunkedSnapshot.docs_increasing (base : ChunkedSnapshot) :
    (base.docs.map idOf).Pairwise idLt :=
  increasing_flatMap base.isOrdered

section View

variable {N : NumberText} {snapshotHash : List Byte → JsString} {view : SnapshotView}

/-- A view of a snapshot: its chunks load. -/
structure ViewOf (N : NumberText) (snapshotHash : List Byte → JsString) (view : SnapshotView)
    (base : ChunkedSnapshot) : Prop where
  descriptors : view.descriptors = base.descriptors
  loads : ∀ c ∈ base.chunks, view.loadChunk N snapshotHash c.descriptor = .ok c.docs

/-- A manifest names each chunk once. -/
theorem IsDescriptors.keys_nodup {expectedPrefix chunkPrefix : Option Key} {seenKeys : List Key}
    {vs : List Doc} {ds : List SnapshotChunkDescriptor}
    (h : IsDescriptors expectedPrefix chunkPrefix seenKeys vs ds) :
    (ds.map SnapshotChunkDescriptor.key).Nodup ∧ ∀ d ∈ ds, d.key ∉ seenKeys := by
  induction vs generalizing ds chunkPrefix seenKeys with
  | nil =>
    cases ds with
    | nil => exact ⟨List.nodup_nil, fun d hd => absurd hd List.not_mem_nil⟩
    | cons d ds => exact h.elim
  | cons v vs ih =>
    cases ds with
    | nil => exact h.elim
    | cons d ds =>
      obtain ⟨p, hd, hds⟩ := h
      obtain ⟨hnodup, hfresh⟩ := ih hds
      constructor
      · rw [List.map_cons, List.nodup_cons]
        refine ⟨fun hmem => ?_, hnodup⟩
        obtain ⟨d', hd', heq⟩ := List.mem_map.mp hmem
        exact hfresh d' hd' (heq ▸ List.mem_cons_self)
      · intro d' hd'
        rcases List.mem_cons.mp hd' with rfl | hd'
        · exact hd.fresh
        · exact fun hmem => hfresh d' hd' (List.mem_cons_of_mem _ hmem)

/-- What the manifest of a view guarantees. -/
theorem openSnapshotView_ok {input : OpenSnapshotViewInput}
    (h : openSnapshotView N snapshotHash input = .ok view) :
    rangesIncrease view.descriptors = true ∧
      (view.descriptors.map SnapshotChunkDescriptor.key).Nodup := by
  unfold openSnapshotView at h
  split at h
  next => 
    cases h
    exact ⟨rfl, List.nodup_nil⟩
  next key hkey =>
    obtain ⟨stored, -, h⟩ := except_bind_ok h
    cases stored with
    | none => cases h
    | some bytes =>
      obtain ⟨manifest, hmanifest, h⟩ := except_bind_ok h
      cases h
      obtain ⟨found, v, -, -, -, -, hv⟩ := (decodeSnapshotManifest_ok.mp hmanifest).parsed
      obtain ⟨vs, -, -, hds⟩ := hv.chunks
      exact ⟨hv.increasing, hds.keys_nodup.1⟩

/-- A chunk that loads has the rows its descriptor speaks of. -/
theorem loadChunk_ok {descriptor : SnapshotChunkDescriptor} {docs : List Doc}
    (h : view.loadChunk N snapshotHash descriptor = .ok docs) :
    ∃ c : BaseChunk, c.descriptor = descriptor ∧ c.docs = docs := by
  obtain ⟨stored, -, h⟩ := except_bind_ok h
  cases stored with
  | none => cases h
  | some bytes =>
    obtain ⟨chunk, hchunk, h⟩ := except_bind_ok h
    cases h
    exact ⟨BaseChunk.ofDecoded hchunk, rfl, rfl⟩

/-- **A view whose chunks load is a view of a snapshot.** -/
theorem viewOf_open {input : OpenSnapshotViewInput}
    (h : openSnapshotView N snapshotHash input = .ok view)
    (hload : ∀ d ∈ view.descriptors, ∃ docs, view.loadChunk N snapshotHash d = .ok docs) :
    ∃ base, ViewOf N snapshotHash view base := by
  obtain ⟨hincreasing, hkeys⟩ := openSnapshotView_ok h
  have hchunk : ∀ d ∈ view.descriptors, ∃ c : BaseChunk, c.descriptor = d ∧
      view.loadChunk N snapshotHash d = .ok c.docs := by
    intro d hd
    obtain ⟨docs, hdocs⟩ := hload d hd
    obtain ⟨c, hdescriptor, rfl⟩ := loadChunk_ok hdocs
    exact ⟨c, hdescriptor, hdocs⟩
  choose chunkAt hdescriptor hloads using hchunk
  let chunks := view.descriptors.attach.map fun d => chunkAt d.1 d.2
  have hmap : chunks.map BaseChunk.descriptor = view.descriptors := by
    rw [List.map_map]
    exact (List.map_congr_left fun d _ => hdescriptor d.1 d.2).trans
      (List.attach_map_subtype_val view.descriptors)
  refine ⟨⟨chunks, hmap ▸ hincreasing, ?_⟩, hmap.symm, fun c hc => ?_⟩
  · rw [← hmap, List.map_map] at hkeys
    exact hkeys
  · obtain ⟨d, -, rfl⟩ := List.mem_map.mp hc
    show view.loadChunk N snapshotHash (chunkAt d.1 d.2).descriptor = _
    rw [hdescriptor d.1 d.2]
    exact hloads d.1 d.2

/-- **The loop over the chunks filters their documents.** -/
theorem scanChunks_eq (range : SnapshotRange) {chunks : List BaseChunk}
    (h : Ordered (chunks.map BaseChunk.descriptor))
    (hloads : ∀ c ∈ chunks, view.loadChunk N snapshotHash c.descriptor = .ok c.docs) :
    view.scanChunks N snapshotHash range (chunks.map BaseChunk.descriptor) =
      ⟨rowsIn range (chunks.flatMap BaseChunk.docs), none⟩ := by
  induction chunks with
  | nil => rfl
  | cons c chunks ih =>
    rw [List.forall_mem_cons] at hloads
    have hrest : Ordered (chunks.map BaseChunk.descriptor) :=
      ⟨(List.forall_mem_cons.mp h.1).2, (List.pairwise_cons.mp h.2).2⟩
    rw [List.map_cons, SnapshotView.scanChunks]
    by_cases hend : range.endsAt c.descriptor.firstId = true
    · -- every document of this chunk and of the later ones is past the end
      rw [if_pos hend, rowsIn_eq_nil]
      intro d hd
      apply SnapshotRange.not_contains_of_endsAt
      apply SnapshotRange.endsAt_of_le hend
      obtain ⟨c', hc', hdoc⟩ := List.mem_flatMap.mp hd
      rcases List.mem_cons.mp hc' with rfl | hc'
      · exact (c'.range hdoc).1
      · have hgap : idLt c.descriptor.lastId c'.descriptor.firstId :=
          (List.pairwise_cons.mp h.2).1 _ (List.mem_map.mpr ⟨c', hc', rfl⟩)
        exact le_trans c.first_le_last (le_trans (le_of_lt hgap) (c'.range hdoc).1)
    · rw [if_neg hend, hloads.1]
      dsimp only
      rw [ih hrest hloads.2, scanDocs_eq range c.increasing, List.flatMap_cons, rowsIn_append]

variable {base : ChunkedSnapshot}

/-- The chunks a scan starts after end before the range. -/
theorem ViewOf.skipped (h : ViewOf N snapshotHash view base) (range : SnapshotRange) {d : Doc}
    (hd : d ∈ (base.chunks.take (view.scanStart range)).flatMap BaseChunk.docs) :
    ¬ range.Contains (idOf d) := by
  obtain ⟨c, hc, hd⟩ := List.mem_flatMap.mp hd
  obtain ⟨j, hj, rfl⟩ := List.getElem_of_mem hc
  rw [List.length_take] at hj
  rw [List.getElem_take] at hd
  unfold SnapshotView.scanStart at hj
  split at hj
  next gte hgte =>
    rw [h.descriptors] at hj
    have hget : base.descriptors[j]? = some (base.chunks[j]).descriptor :=
      ChunkedSnapshot.descriptor_get (List.getElem?_eq_getElem (by omega))
    have hlt := (firstDescriptorEndingAtOrAfter_spec base.isOrdered gte).1 j _ (by omega) hget
    intro hcontains
    exact absurd (hcontains.1 gte hgte)
      (not_le_of_gt (lt_of_le_of_lt ((base.chunks[j]).range hd).2 hlt))
  next => omega

/-- **A scan with valid bounds** yields the rows of the range. -/
theorem ViewOf.scan_eq (h : ViewOf N snapshotHash view base) {range : SnapshotRange}
    (hgte : assertBound range.gte = .ok ()) (hlt : assertBound range.lt = .ok ()) :
    view.scan N snapshotHash range = ⟨rowsIn range base.docs, none⟩ := by
  unfold SnapshotView.scan
  rw [hgte, hlt]
  dsimp only
  by_cases hempty : range.isEmpty = true
  · rw [if_pos hempty, rowsIn_eq_nil fun d _ => SnapshotRange.not_contains_of_isEmpty hempty]
  · have hsplit : base.docs = (base.chunks.take (view.scanStart range)).flatMap BaseChunk.docs ++
        (base.chunks.drop (view.scanStart range)).flatMap BaseChunk.docs := by
      rw [← List.flatMap_append, List.take_append_drop]
      rfl
    have hordered := base.isOrdered
    rw [if_neg hempty, h.descriptors, ChunkedSnapshot.descriptors, ← List.map_drop, scanChunks_eq range,
      hsplit, rowsIn_append, rowsIn_eq_nil fun d hd => h.skipped range hd, List.nil_append]
    · rw [List.map_drop]
      exact ⟨fun d hd => hordered.1 d (List.mem_of_mem_drop hd),
        hordered.2.sublist (List.drop_sublist _ _)⟩
    · exact fun c hc => h.loads c (List.mem_of_mem_drop hc)

/-- **Materialising gives the rows of all chunks.** -/
theorem ViewOf.materialize_eq (h : ViewOf N snapshotHash view base) :
    view.materialize N snapshotHash = .ok (docMapOf base.docs) := by
  have hall : rowsIn .all base.docs = base.docs.map rowOf := by
    rw [rowsIn, List.filter_eq_self.mpr]
    exact fun d _ => decide_eq_true (SnapshotRange.contains_all _)
  unfold SnapshotView.materialize
  rw [h.scan_eq rfl rfl]
  dsimp only
  rw [hall, List.foldl_map]
  rfl

/-- The chunk that is bisected for the id of a document does not begin after it. -/
theorem ChunkedSnapshot.candidate_of_mem (base : ChunkedSnapshot) {d : Doc} (hd : d ∈ base.docs) :
    ∃ c, base.chunks[firstDescriptorEndingAtOrAfter base.descriptors (idOf d)]? = some c ∧
      idPoints c.descriptor.firstId ≤ idPoints (idOf d) := by
  obtain ⟨c, hc, hdc⟩ := List.mem_flatMap.mp hd
  obtain ⟨j, hj, rfl⟩ := List.getElem_of_mem hc
  have hget : base.descriptors[j]? = some (base.chunks[j]).descriptor :=
    descriptor_get (List.getElem?_eq_getElem hj)
  obtain ⟨hfirst, hlast⟩ := (base.chunks[j]).range hdc
  have hle : firstDescriptorEndingAtOrAfter base.descriptors (idOf d) ≤ j := by
    by_contra hgt
    have hlt := (firstDescriptorEndingAtOrAfter_spec base.isOrdered (idOf d)).1 j _ (by omega) hget
    exact absurd hlast (not_le_of_gt hlt)
  have hk : firstDescriptorEndingAtOrAfter base.descriptors (idOf d) < base.chunks.length := by
    omega
  refine ⟨_, List.getElem?_eq_getElem hk, ?_⟩
  rcases Nat.lt_or_eq_of_le hle with hlt | heq
  · have hgap := base.isOrdered.lt_of_lt hlt (descriptor_get (List.getElem?_eq_getElem hk)) hget
    exact le_trans (BaseChunk.first_le_last _) (le_trans (le_of_lt hgap) hfirst)
  · have hsame : base.chunks[firstDescriptorEndingAtOrAfter base.descriptors (idOf d)] =
        base.chunks[j] := by
      congr 1
    rw [hsame]
    exact hfirst

/-- **A read of one id** answers the document it has. -/
theorem ViewOf.get_eq (h : ViewOf N snapshotHash view base) {id : JsString}
    (hid : assertSnapshotDocId id = .ok ()) :
    view.get N snapshotHash id = .ok ((docMapOf base.docs).get id) := by
  have hmap := fun d => @get_docMapOf base.docs base.docs_increasing id d
  -- no document of the snapshot has an id whose chunk begins after it, or that has no chunk
  have hnone : (∀ c, base.chunks[firstDescriptorEndingAtOrAfter base.descriptors id]? = some c →
      idLt id c.descriptor.firstId) → (docMapOf base.docs).get id = none := by
    intro hafter
    apply Option.eq_none_iff_forall_ne_some.mpr
    intro d hd
    obtain ⟨hmem, rfl⟩ := (hmap d).mp hd
    obtain ⟨c, hc, hle⟩ := base.candidate_of_mem hmem
    exact absurd hle (not_le_of_gt (hafter c hc))
  unfold SnapshotView.get
  rw [bind_of_ok hid, h.descriptors, ChunkedSnapshot.descriptors, List.getElem?_map]
  cases hc : base.chunks[firstDescriptorEndingAtOrAfter (base.chunks.map BaseChunk.descriptor) id]? with
  | none =>
    rw [hnone]
    · rfl
    · intro c hsome
      rw [ChunkedSnapshot.descriptors, hc] at hsome
      cases hsome
  | some c =>
    dsimp only [Option.map_some]
    by_cases hgt : compareDocIds c.descriptor.firstId id = .gt
    · rw [if_pos hgt, hnone]
      intro c' hsome
      rw [ChunkedSnapshot.descriptors, hc, Option.some.injEq] at hsome
      exact hsome ▸ compareDocIds_gt_iff.mp hgt
    · have hle : idPoints c.descriptor.firstId ≤ idPoints id := not_gt_iff.mp hgt
      have hlast : idPoints id ≤ idPoints c.descriptor.lastId :=
        (firstDescriptorEndingAtOrAfter_spec base.isOrdered id).2.1 _ _ (Nat.le_refl _)
          (ChunkedSnapshot.descriptor_get hc)
      have hslot := slot_of_range base.isOrdered (ChunkedSnapshot.descriptor_get hc) hle hlast
      rw [if_neg hgt, bind_of_ok (h.loads c (List.mem_of_getElem? hc)), Except.ok.injEq]
      apply Option.ext
      intro d
      rw [findDocument_iff c.increasing, hmap]
      constructor
      · rintro ⟨hd, rfl⟩
        exact ⟨(base.mem_chunk hc hslot).mpr hd, rfl⟩
      · rintro ⟨hd, rfl⟩
        exact ⟨(base.mem_chunk hc hslot).mp hd, rfl⟩

/-! ## Agreement -/

/-- The rows of a map, as a scan yields them. -/
def mapRows (range : SnapshotRange) (documents : Rows) : List SnapshotRow :=
  (documents.entries.filter fun e => range.Contains e.1).map fun e => ⟨e.1, e.2⟩

/-- What a map of increasing documents holds, in the order they were put in. -/
theorem entries_docMapOf {docs : List Doc} (h : (docs.map idOf).Pairwise idLt) :
    (docMapOf docs).entries = docs.map fun d => (idOf d, d) := by
  have hlist : docMapOf docs = InsMap.ofList (docs.map fun d => (idOf d, d)) := by
    rw [docMapOf, InsMap.ofList, List.foldl_map]
  have hkeys : ((docs.map fun d => (idOf d, d)).map Prod.fst).Nodup := by
    rw [List.map_map]
    exact h.imp fun hlt heq => absurd (heq ▸ hlt) (lt_irrefl _)
  rw [hlist, entries_ofList_eq hkeys]

/-- **`get`, `scan` and `materialize` agree** on a manifest whose chunks are stored. -/
theorem view_agrees (N : NumberText) (snapshotHash : List Byte → JsString)
    (input : OpenSnapshotViewInput) (view : SnapshotView)
    (hopen : openSnapshotView N snapshotHash input = .ok view)
    (hload : ∀ d ∈ view.descriptors, ∃ docs, view.loadChunk N snapshotHash d = .ok docs) :
    ∃ documents, view.materialize N snapshotHash = .ok documents ∧
      (documents.entries.map Prod.fst).Pairwise idLt ∧
      (∀ id, view.get N snapshotHash id =
        (assertSnapshotDocId id >>= fun _ => .ok (documents.get id))) ∧
      ∀ range, view.scan N snapshotHash range =
        match assertBound range.gte, assertBound range.lt with
        | .error e, _ => ⟨[], some e⟩
        | .ok (), .error e => ⟨[], some e⟩
        | .ok (), .ok () => ⟨mapRows range documents, none⟩ := by
  obtain ⟨base, h⟩ := viewOf_open hopen hload
  have hentries := entries_docMapOf base.docs_increasing
  refine ⟨docMapOf base.docs, h.materialize_eq, ?_, fun id => ?_, fun range => ?_⟩
  · rw [hentries, List.map_map]
    exact base.docs_increasing
  · cases hid : assertSnapshotDocId id with
    | error e =>
      unfold SnapshotView.get
      rw [hid]
      rfl
    | ok u => exact h.get_eq hid
  · have hrows : mapRows range (docMapOf base.docs) = rowsIn range base.docs := by
      rw [mapRows, rowsIn, hentries, List.filter_map, List.map_map]
      rfl
    rw [hrows]
    cases hgte : assertBound range.gte with
    | error e =>
      unfold SnapshotView.scan
      rw [hgte]
    | ok u =>
      cases hlt : assertBound range.lt with
      | error e =>
        unfold SnapshotView.scan
        rw [hgte, hlt]
      | ok v => exact h.scan_eq hgte hlt

end View

/-! ## Two stored chunks, to try a view on -/

/-- The manifest that lists them. -/
def pairManifest : SnapshotManifest where
  collection := js "notes"
  logSeqStart := 2
  incarnation := zeroIncarnation
  chunks := storedPair.descriptors

def pairManifestBody : List Byte := encodeJsonBytes integerText pairManifest.toJson

/-- Its SHA-256. -/
def manifestDigest : JsString :=
  js "86f2d8f4ebe829df78ef4482a3c7e0ca48b10a4c666351d23c5629580e7e60a0"

def manifestKey : Key := artifactKeyText .manifest (js "p") zeroIncarnation manifestDigest

/-- SHA-256 on the three bodies. -/
def pairHash (bytes : List Byte) : JsString :=
  if bytes = pairManifestBody then manifestDigest else bareHash bytes

/-- A storage with the three objects. -/
def pairInput : OpenSnapshotViewInput where
  get key := .ok (if key = manifestKey then some pairManifestBody
    else if key = chunkKey firstDigest then some (bareBytes ["a"])
    else if key = chunkKey secondDigest then some (bareBytes ["c"]) else none)
  manifestKey := some manifestKey
  collection := js "notes"
  expectedLogSeqStart := 2

/-- The view of the example opens. -/
theorem pairInput_opens : openSnapshotView integerText pairHash pairInput =
    .ok ⟨pairInput, pairManifest.chunks⟩ := by
  have hdecode : decodeSnapshotManifest integerText pairHash pairManifestBody manifestKey
      (js "notes") 2 = .ok pairManifest := by
    decide +kernel
  have hget : pairInput.get manifestKey = .ok (some pairManifestBody) := by
    show Except.ok (if manifestKey = manifestKey then some pairManifestBody else _) = _
    rw [if_pos rfl]
  show (pairInput.get manifestKey >>= _) = _
  rw [bind_of_ok hget]
  exact bind_of_ok hdecode

/-- Both of its chunks load. -/
theorem pairInput_loads : ∀ d ∈ pairManifest.chunks, ∃ docs,
    (⟨pairInput, pairManifest.chunks⟩ : SnapshotView).loadChunk integerText pairHash d =
      .ok docs := by
  intro d hd
  rcases List.mem_cons.mp hd with rfl | hd
  · exact ⟨[bareDoc "a"], by decide +kernel⟩
  · rw [List.mem_singleton.mp hd]
    exact ⟨[bareDoc "c"], by decide +kernel⟩

/-- From `b` on. -/
def fromB : SnapshotRange := ⟨some (js "b"), none⟩

/-- A scan from `b` on has the rows of the map from `b` on. -/
theorem view_agrees_notes :
    openSnapshotView integerText pairHash pairInput = .ok ⟨pairInput, pairManifest.chunks⟩ ∧
    ∃ documents, (⟨pairInput, pairManifest.chunks⟩ : SnapshotView).materialize integerText
        pairHash = .ok documents ∧
      (⟨pairInput, pairManifest.chunks⟩ : SnapshotView).get integerText pairHash (js "a") =
        .ok (documents.get (js "a")) ∧
      (⟨pairInput, pairManifest.chunks⟩ : SnapshotView).scan integerText pairHash fromB =
        ⟨mapRows fromB documents, none⟩ := by
  refine ⟨pairInput_opens, ?_⟩
  obtain ⟨documents, hdocuments, -, hget, hscan⟩ :=
    view_agrees integerText pairHash pairInput _ pairInput_opens pairInput_loads
  refine ⟨documents, hdocuments, (hget (js "a")).trans ?_, (hscan fromB).trans ?_⟩
  · rw [show assertSnapshotDocId (js "a") = .ok () by decide +kernel]
    rfl
  · rw [show assertBound fromB.gte = .ok () by decide +kernel]
    rfl

end Baerly
