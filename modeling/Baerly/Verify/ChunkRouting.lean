import Baerly.ChunkedFold
import Baerly.Lib.Bisect
import Baerly.Verify.SnapshotManifest

/-
  Where a mutation goes.

  PROGRAM: `routeMutationToDescriptor` bisects the descriptors for the one that holds an id, or
  stands before the gap it lies in.

  SPEC: the chunks of a snapshot cut the ids into slots, one per chunk: from its first id on, up to
  the first id of the next one; the first slot has no lower end.  A write is routed to the slot of
  its id (`route_put`).  A delete is routed there if it lies in the range of the chunk, and else
  deletes nothing (`route_delete`).

  CRUX: slots are disjoint and in order (`slot_lt`), so what stays in its slot stays sorted.
-/

namespace Baerly

open Json

/-! ## The order of ids -/

theorem idLt_trans {a b c : JsString} (hab : idLt a b) (hbc : idLt b c) : idLt a c :=
  lt_trans hab hbc

/-- The check of neighbours puts every pair in order. -/
theorem strictlyIncreasing_iff {ids : List JsString} :
    strictlyIncreasing ids = true ↔ ids.Pairwise idLt := by
  induction ids with
  | nil => simp [strictlyIncreasing]
  | cons a ids ih =>
    cases ids with
    | nil => simp [strictlyIncreasing]
    | cons b ids =>
      rw [strictlyIncreasing, Bool.and_eq_true, decide_eq_true_eq, compareDocIds_lt_iff, ih]
      constructor
      · rintro ⟨hab, hids⟩
        refine List.pairwise_cons.mpr ⟨fun c hc => ?_, hids⟩
        rcases List.mem_cons.mp hc with rfl | hc
        · exact hab
        · exact idLt_trans hab ((List.pairwise_cons.mp hids).1 c hc)
      · intro h
        exact ⟨(List.pairwise_cons.mp h).1 b List.mem_cons_self, (List.pairwise_cons.mp h).2⟩

/-! ## Chunked snapshots -/

/-- A chunk as its decoder leaves it: canonical documents in id order, between the ids of its
    descriptor. -/
structure BaseChunk where
  descriptor : SnapshotChunkDescriptor
  docs : List Doc
  documents : ∀ d ∈ docs, d.wf = true ∧ canonicalForm d = d ∧ IsDocument d
  increasing : (docs.map idOf).Pairwise idLt
  nonempty : docs ≠ []
  first : descriptor.firstId = idOf (docs.headD .null)
  last : descriptor.lastId = idOf (docs.getLastD .null)

/-- Every decoded chunk is one. -/
def BaseChunk.ofDecoded {N : NumberText} {snapshotHash : List Utf8.Byte → JsString}
    {bytes : List Utf8.Byte} {key : Key} {collection : JsString} {d : SnapshotChunkDescriptor}
    {c : SnapshotChunk} (h : decodeSnapshotChunk N snapshotHash bytes key collection d = .ok c) :
    BaseChunk where
  descriptor := d
  docs := c.docs
  documents doc hdoc := by
    obtain ⟨v, hv, hchunk⟩ := (decodeSnapshotChunk_ok.mp h).parsed
    have hwf := decodeJsonBytes_wf hv
    obtain ⟨hdocWf, hform⟩ := hchunk.docs_canonical hwf doc hdoc
    obtain ⟨rows, hrows, -, -, hdocs, heq⟩ := (hchunk.idem hwf).docs
    have hsame : rows = c.docs := by
      have hmember : c.toJson.member (js "docs") = some (.arr c.docs) := rfl
      rw [hmember] at hrows
      exact (Json.arr.inj (Option.some.inj hrows)).symm
    exact ⟨hdocWf, hform, hdocs doc (hsame ▸ hdoc)⟩
  increasing := by
    obtain ⟨v, hv, hchunk⟩ := (decodeSnapshotChunk_ok.mp h).parsed
    exact strictlyIncreasing_iff.mp hchunk.increasing
  nonempty := by
    obtain ⟨v, hv, hchunk⟩ := (decodeSnapshotChunk_ok.mp h).parsed
    obtain ⟨rows, -, hpos, -, -, heq⟩ := hchunk.docs
    rw [heq]
    simpa using hpos
  first := by
    obtain ⟨v, hv, hchunk⟩ := (decodeSnapshotChunk_ok.mp h).parsed
    rw [← (decodeSnapshotChunk_ok.mp h).range.1]
    exact hchunk.first
  last := by
    obtain ⟨v, hv, hchunk⟩ := (decodeSnapshotChunk_ok.mp h).parsed
    rw [← (decodeSnapshotChunk_ok.mp h).range.2.1]
    exact hchunk.last

/-- The first row of a sorted list has the least id. -/
theorem pairwise_head {docs : List Doc} (h : (docs.map idOf).Pairwise idLt) {d : Doc} (hd : d ∈ docs) :
    idPoints (idOf (docs.headD .null)) ≤ idPoints (idOf d) := by
  cases docs with
  | nil => cases hd
  | cons e docs =>
    rw [List.map_cons, List.pairwise_cons] at h
    rcases List.mem_cons.mp hd with rfl | hd
    · exact le_refl _
    · exact le_of_lt (h.1 _ (List.mem_map.mpr ⟨d, hd, rfl⟩))

/-- The last has the greatest. -/
theorem pairwise_last {docs : List Doc} (h : (docs.map idOf).Pairwise idLt) {d : Doc} (hd : d ∈ docs) :
    idPoints (idOf d) ≤ idPoints (idOf (docs.getLastD .null)) := by
  induction docs generalizing d with
  | nil => cases hd
  | cons e docs ih =>
    rw [List.map_cons, List.pairwise_cons] at h
    cases docs with
    | nil =>
      rw [List.mem_singleton.mp hd]
      exact le_refl _
    | cons f docs =>
      rcases List.mem_cons.mp hd with rfl | hd
      · have hf := h.1 (idOf f) List.mem_cons_self
        exact le_trans (le_of_lt hf) (ih h.2 List.mem_cons_self)
      · exact ih h.2 hd

/-- A chunk's rows lie in the range of its descriptor. -/
theorem BaseChunk.range (c : BaseChunk) {d : Doc} (hd : d ∈ c.docs) :
    idPoints c.descriptor.firstId ≤ idPoints (idOf d) ∧
      idPoints (idOf d) ≤ idPoints c.descriptor.lastId := by
  rw [c.first, c.last]
  exact ⟨pairwise_head c.increasing hd, pairwise_last c.increasing hd⟩

theorem BaseChunk.first_le_last (c : BaseChunk) :
    idPoints c.descriptor.firstId ≤ idPoints c.descriptor.lastId := by
  obtain ⟨d, hd⟩ := List.exists_mem_of_ne_nil _ c.nonempty
  exact le_trans (c.range hd).1 (c.range hd).2

/-- Descriptors whose ranges lie one after the other. -/
def Ordered (ds : List SnapshotChunkDescriptor) : Prop :=
  (∀ d ∈ ds, idPoints d.firstId ≤ idPoints d.lastId) ∧ ds.Pairwise fun a b => idLt a.lastId b.firstId

/-- A valid chunked snapshot; one without chunks is the snapshot of nothing. -/
structure ChunkedSnapshot where
  chunks : List BaseChunk
  ordered : rangesIncrease (chunks.map BaseChunk.descriptor) = true
  keys : (chunks.map fun c => c.descriptor.key).Nodup

/-- Its descriptors. -/
def ChunkedSnapshot.descriptors (base : ChunkedSnapshot) : List SnapshotChunkDescriptor :=
  base.chunks.map BaseChunk.descriptor

/-- Descriptors whose ranges increase are ordered. -/
theorem ordered_of_rangesIncrease {ds : List SnapshotChunkDescriptor}
    (hrange : ∀ d ∈ ds, idPoints d.firstId ≤ idPoints d.lastId) (h : rangesIncrease ds = true) :
    Ordered ds := by
  refine ⟨hrange, ?_⟩
  induction ds with
  | nil => exact List.Pairwise.nil
  | cons a ds ih =>
    rw [List.forall_mem_cons] at hrange
    cases ds with
    | nil => simp
    | cons b ds =>
      rw [rangesIncrease, Bool.and_eq_true, Bool.and_eq_true, decide_eq_true_eq, decide_eq_true_eq,
        compareDocIds_lt_iff, compareDocIds_lt_iff] at h
      have hrest := ih hrange.2 h.2
      rw [List.pairwise_cons]
      refine ⟨fun d hd => ?_, hrest⟩
      rcases List.mem_cons.mp hd with rfl | hd
      · exact h.1.2
      · have hb := hrange.2 b List.mem_cons_self
        have hbd : idLt b.lastId d.firstId := (List.pairwise_cons.mp hrest).1 d hd
        exact lt_trans h.1.2 (lt_of_le_of_lt hb hbd)

/-- Those of a snapshot are. -/
theorem ChunkedSnapshot.isOrdered (base : ChunkedSnapshot) : Ordered base.descriptors := by
  refine ordered_of_rangesIncrease ?_ base.ordered
  intro d hd
  obtain ⟨c, -, rfl⟩ := List.mem_map.mp hd
  exact c.first_le_last

/-! ## Bisection -/

/-- The search of the source is the general bisection, for chunks that end before the id. -/
theorem bisectDescriptors_eq (ds : List SnapshotChunkDescriptor) (id : JsString) :
    ∀ fuel low high,
      bisectDescriptors ds id fuel low high = Bisect.search (endsBefore ds id) fuel low high := by
  intro fuel
  induction fuel with
  | zero => exact fun low high => rfl
  | succ fuel ih =>
    intro low high
    rw [bisectDescriptors, Bisect.search]
    simp only [ih]

theorem endsBefore_iff {ds : List SnapshotChunkDescriptor} {id : JsString} {j : Nat} :
    endsBefore ds id j = true ↔ ∃ d, ds[j]? = some d ∧ idLt d.lastId id := by
  unfold endsBefore
  split
  next d hd => simp [hd, compareDocIds_lt_iff]
  next hd => simp [hd]

/-- An earlier chunk ends before a later one starts. -/
theorem Ordered.lt_of_lt {ds : List SnapshotChunkDescriptor} (h : Ordered ds) {i j : Nat}
    {a b : SnapshotChunkDescriptor} (hij : i < j) (ha : ds[i]? = some a) (hb : ds[j]? = some b) :
    idLt a.lastId b.firstId := by
  obtain ⟨hi, rfl⟩ := List.getElem?_eq_some_iff.mp ha
  obtain ⟨hj, rfl⟩ := List.getElem?_eq_some_iff.mp hb
  exact List.pairwise_iff_getElem.mp h.2 i j hi hj hij

theorem Ordered.mem {ds : List SnapshotChunkDescriptor} (h : Ordered ds) {i : Nat}
    {a : SnapshotChunkDescriptor} (ha : ds[i]? = some a) : idPoints a.firstId ≤ idPoints a.lastId :=
  h.1 a (List.mem_of_getElem? ha)

/-- **The search finds the first chunk that ends at or after the id.** -/
theorem firstDescriptorEndingAtOrAfter_spec {ds : List SnapshotChunkDescriptor} (h : Ordered ds)
    (id : JsString) :
    (∀ j d, j < firstDescriptorEndingAtOrAfter ds id → ds[j]? = some d → idLt d.lastId id) ∧
      (∀ j d, firstDescriptorEndingAtOrAfter ds id ≤ j → ds[j]? = some d →
        idPoints id ≤ idPoints d.lastId) ∧
      firstDescriptorEndingAtOrAfter ds id ≤ ds.length := by
  have hmono : Bisect.Initial (endsBefore ds id) := by
    intro j k hjk hk
    rw [endsBefore_iff] at hk ⊢
    obtain ⟨b, hb, hlt⟩ := hk
    have hj : j < ds.length := by
      have := (List.getElem?_eq_some_iff.mp hb).1
      omega
    refine ⟨ds[j], List.getElem?_eq_getElem hj, ?_⟩
    rcases Nat.lt_or_eq_of_le hjk with hlt' | rfl
    · have hab := h.lt_of_lt hlt' (List.getElem?_eq_getElem hj) hb
      exact lt_trans hab (lt_of_le_of_lt (h.mem hb) hlt)
    · rw [List.getElem?_eq_getElem hj, Option.some.injEq] at hb
      rw [hb]
      exact hlt
  have hout : ∀ j, ds.length ≤ j → endsBefore ds id j = false := by
    intro j hj
    rw [endsBefore, List.getElem?_eq_none hj]
  obtain ⟨hbelow, habove, hle⟩ := Bisect.search_length hmono hout
  rw [firstDescriptorEndingAtOrAfter, bisectDescriptors_eq]
  refine ⟨fun j d hj hd => ?_, fun j d hj hd => ?_, hle⟩
  · obtain ⟨e, he, hlt⟩ := endsBefore_iff.mp (hbelow j hj)
    rw [hd, Option.some.injEq] at he
    rw [he]
    exact hlt
  · have hnot := habove j hj
    by_contra hgt
    have htrue := endsBefore_iff.mpr ⟨d, hd, show idLt d.lastId id from lt_of_not_ge hgt⟩
    rw [hnot] at htrue
    cases htrue

/-! ## Slots -/

/-- The ids the chunk at `i` is responsible for. -/
def Slot (ds : List SnapshotChunkDescriptor) (i : Nat) (id : JsString) : Prop :=
  (∀ d, ds[i]? = some d → 0 < i → idPoints d.firstId ≤ idPoints id) ∧
    ∀ d, ds[i + 1]? = some d → idLt id d.firstId

/-- The range of a chunk lies in its slot. -/
theorem slot_of_range {ds : List SnapshotChunkDescriptor} (h : Ordered ds) {i : Nat}
    {d : SnapshotChunkDescriptor} {id : JsString} (hd : ds[i]? = some d)
    (hfirst : idPoints d.firstId ≤ idPoints id) (hlast : idPoints id ≤ idPoints d.lastId) :
    Slot ds i id := by
  refine ⟨fun e he _ => ?_, fun e he => ?_⟩
  · rw [hd, Option.some.injEq] at he
    exact he ▸ hfirst
  · exact lt_of_le_of_lt hlast (h.lt_of_lt (Nat.lt_succ_self i) hd he)

/-- **Slots lie one after the other.** -/
theorem slot_lt {ds : List SnapshotChunkDescriptor} (h : Ordered ds) {i j : Nat} {x y : JsString}
    (hij : i < j) (hj : j < ds.length) (hx : Slot ds i x) (hy : Slot ds j y) : idLt x y := by
  have hnext : i + 1 < ds.length := by omega
  have hxlt := hx.2 ds[i + 1] (List.getElem?_eq_getElem hnext)
  have hyle := hy.1 ds[j] (List.getElem?_eq_getElem hj) (by omega)
  have hfirst : idPoints ds[i + 1].firstId ≤ idPoints ds[j].firstId := by
    rcases Nat.lt_or_eq_of_le (show i + 1 ≤ j by omega) with hlt | heq
    · have hab := h.lt_of_lt hlt (List.getElem?_eq_getElem hnext) (List.getElem?_eq_getElem hj)
      have hle := h.mem (List.getElem?_eq_getElem hnext)
      exact le_of_lt (lt_of_le_of_lt hle hab)
    · subst heq
      exact le_refl _
  exact lt_of_lt_of_le hxlt (le_trans hfirst hyle)

/-- An id has one place: the chunk it falls in, or the gap after one. -/
theorem slot_unique {ds : List SnapshotChunkDescriptor} (h : Ordered ds) {i j : Nat} {x : JsString}
    (hi : i < ds.length) (hj : j < ds.length) (hx : Slot ds i x) (hy : Slot ds j x) : i = j := by
  rcases Nat.lt_trichotomy i j with hlt | heq | hgt
  · exact absurd (slot_lt h hlt hj hx hy) (lt_irrefl _)
  · exact heq
  · exact absurd (slot_lt h hgt hi hy hx) (lt_irrefl _)

/-- `compareDocIds` is not greater exactly up to the id. -/
theorem not_gt_iff {a b : JsString} : compareDocIds a b ≠ .gt ↔ idPoints a ≤ idPoints b := by
  rw [Ne, compareDocIds_gt_iff, idLt, not_lt]

/-- **A write goes to the slot of its id.** -/
theorem route_put {ds : List SnapshotChunkDescriptor} (h : Ordered ds) (hne : ds ≠ [])
    (id : JsString) : ∃ i, routeMutationToDescriptor id false ds = some i ∧ i < ds.length ∧
      Slot ds i id := by
  obtain ⟨hbelow, habove, hle⟩ := firstDescriptorEndingAtOrAfter_spec h id
  have hpos : 0 < ds.length := List.length_pos_iff.mpr hne
  rw [routeMutationToDescriptor, if_neg hne]
  dsimp only
  split
  next d hd =>
    have hlow := (List.getElem?_eq_some_iff.mp hd).1
    split
    next hin =>
      rw [not_gt_iff] at hin
      exact ⟨_, rfl, hlow, slot_of_range h hd hin (habove _ d (Nat.le_refl _) hd)⟩
    next hgap =>
      rw [not_gt_iff, not_le] at hgap
      simp only [Bool.false_eq_true, if_false]
      split
      next hzero =>
        -- before every chunk
        refine ⟨0, rfl, hpos, fun e _ hlt => absurd hlt (Nat.lt_irrefl 0), fun e he => ?_⟩
        rw [hzero] at hd
        have hde := h.lt_of_lt Nat.zero_lt_one hd he
        exact lt_trans hgap (lt_of_le_of_lt (h.mem hd) hde)
      next hzero =>
        -- in the gap before the chunk found, which belongs to its predecessor
        have hprev : firstDescriptorEndingAtOrAfter ds id - 1 < ds.length := by omega
        refine ⟨_, rfl, hprev, fun e he _ => ?_, fun e he => ?_⟩
        · have hlt := hbelow _ e (by omega) he
          exact le_of_lt (lt_of_le_of_lt (h.mem he) hlt)
        · rw [Nat.sub_add_cancel (by omega), hd, Option.some.injEq] at he
          exact he ▸ hgap
  next hnone =>
    -- after every chunk
    rw [List.getElem?_eq_none_iff] at hnone
    simp only [Bool.false_eq_true, if_false]
    refine ⟨_, rfl, by omega, fun e he _ => ?_, fun e he => ?_⟩
    · have hlt := hbelow _ e (by omega) he
      exact le_of_lt (lt_of_le_of_lt (h.mem he) hlt)
    · have hlen := (List.getElem?_eq_some_iff.mp he).1
      omega

/-- **A delete goes to the chunk whose range holds its id, or nowhere.** -/
theorem route_delete {ds : List SnapshotChunkDescriptor} (h : Ordered ds) (id : JsString) :
    (∃ i d, routeMutationToDescriptor id true ds = some i ∧ ds[i]? = some d ∧
        idPoints d.firstId ≤ idPoints id ∧ idPoints id ≤ idPoints d.lastId) ∨
      (routeMutationToDescriptor id true ds = none ∧
        ∀ d ∈ ds, ¬ (idPoints d.firstId ≤ idPoints id ∧ idPoints id ≤ idPoints d.lastId)) := by
  obtain ⟨hbelow, habove, hle⟩ := firstDescriptorEndingAtOrAfter_spec h id
  by_cases hne : ds = []
  · subst hne
    exact Or.inr ⟨rfl, fun d hd => absurd hd List.not_mem_nil⟩
  rw [routeMutationToDescriptor, if_neg hne]
  dsimp only
  split
  next d hd =>
    split
    next hin =>
      rw [not_gt_iff] at hin
      exact Or.inl ⟨_, d, rfl, hd, hin, habove _ d (Nat.le_refl _) hd⟩
    next hgap =>
      rw [not_gt_iff, not_le] at hgap
      simp only [if_true]
      refine Or.inr ⟨trivial, fun e he hrange => ?_⟩
      obtain ⟨j, hj⟩ := List.getElem?_of_mem he
      rcases Nat.lt_trichotomy j (firstDescriptorEndingAtOrAfter ds id) with hlt | heq | hgt
      · exact absurd (hbelow j e hlt hj) (not_lt.mpr hrange.2)
      · rw [heq, hd, Option.some.injEq] at hj
        exact absurd hgap (not_lt.mpr (hj ▸ hrange.1))
      · have hde := h.lt_of_lt hgt hd hj
        have hlt := lt_of_lt_of_le (lt_trans hgap (lt_of_le_of_lt (h.mem hd) hde)) hrange.1
        exact absurd hlt (lt_irrefl _)
  next hnone =>
    rw [List.getElem?_eq_none_iff] at hnone
    simp only [if_true]
    refine Or.inr ⟨trivial, fun e he hrange => ?_⟩
    obtain ⟨j, hj⟩ := List.getElem?_of_mem he
    have hlen := (List.getElem?_eq_some_iff.mp hj).1
    exact absurd (hbelow j e (by omega) hj) (not_lt.mpr hrange.2)

end Baerly
