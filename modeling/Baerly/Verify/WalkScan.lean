import Baerly.Verify.Walks

/-
  When an index walk agrees with the full scan: the three kinds of walk the planner chooses.
-/

namespace Baerly

open Path

variable {E : Engine} {codec : Codec} {N : NumberText} {c : Collection} {S : Standing codec c}
variable {wire : PredicateWire} {indexes : List IndexDefinition} {W : Walk E wire indexes}

/-- The walk reaches a row. -/
def Reaches (N : NumberText) (S : Standing codec c) (W : Walk E wire indexes) (row : StoredRow) :
    Prop :=
  ∃ values, Indexed S W.index row values ∧ Selects N W.plan row.1 values

theorem Walk.agrees_iff (hmarkers : MarkersExact N S W.index) (hd : W.index.predicate = none) :
    ReturnsMatching N S wire W.plan ↔
      (∀ row ∈ S.rows, matchesWire wire row.2 = .ok true → Reaches N S W row) ∧
      (∀ row ∈ S.rows, Reaches N S W row → ∃ b, matchesWire wire row.2 = .ok b) := by
  rw [returnsMatching_iff]
  constructor
  · rintro ⟨hcomplete, hdefined⟩
    refine ⟨fun row hrow hmatch => ?_, fun row hrow hreach => ?_⟩
    · exact (W.reached_iff hmarkers hd hrow).mp (hcomplete row hrow hmatch)
    · exact hdefined row hrow ((W.reached_iff hmarkers hd hrow).mpr hreach)
  · rintro ⟨hcomplete, hdefined⟩
    refine ⟨fun row hrow hmatch => ?_, fun row hrow hid => ?_⟩
    · exact (W.reached_iff hmarkers hd hrow).mpr (hcomplete row hrow hmatch)
    · exact hdefined row hrow ((W.reached_iff hmarkers hd hrow).mp hid)

/-- A row that matches and holds a value in the fields that are left is in the index. -/
theorem Walk.indexed_of_matches (hmarkers : MarkersExact N S W.index)
    (hd : W.index.predicate = none) {row : StoredRow} (hrow : row ∈ S.rows)
    (hmatch : matchesWire wire row.2 = .ok true)
    (hleft : ∀ f ∈ W.index.on.tuple.drop W.plan.consumed, ∃ u, Holds row.2 f u) :
    ∃ values, Indexed S W.index row values := by
  refine hmarkers.indexed_of_holds hd hrow fun f hf hplain => ?_
  rw [← List.take_append_drop W.plan.consumed W.index.on.tuple, List.mem_append] at hf
  rcases hf with hf | hf
  · exact W.matches_holds hmatch hf hplain
  · exact hleft f hf

/-! ## A collection with one row, to try walks on -/

def ticketsAt : Collection := ⟨js "app/tickets/current.json"⟩

def ticketsCodec : Codec := ⟨fun _ => [], fun _ => 0, fun _ => 0⟩

def ticketsHead : CurrentJson := zeroManifest (js "0a")

/-- The insert of the row. -/
def ticketsEntry (row : StoredRow) : LogEntry where
  lsn := ⟨0, 0, 0⟩
  commitTs := 0
  op := .I
  collection := js "tickets"
  docId := row.1
  after := some row.2
  origin := none
  session := 0
  seq := 0

/-- The row is in the first slot of the log. -/
def ticketsAnswer (row : StoredRow) : (op : Op) → Resp op
  | .getCurrent => .ok (some ticketsHead)
  | .getLog _ n => .ok (if n = 0 then some (ticketsEntry row) else none)
  | .getSnapshot _ => .ok none
  | .getPending => .ok none
  | .listSnapshots _ => .ok []
  | .send _ => (0 : Nat)
  | .await _ => .ok none
  | .now => (0 : Nat)
  | .mintGeneration => []
  | .schedule _ => []
  | .aborted => false

/-- The markers of a row under an index. -/
def markersOf (N : NumberText) (c : Collection) (d : IndexDefinition) (row : StoredRow) : List Key :=
  match allIndexKeysFor N c.collectionPrefix [d] (some row.2) row.1 with
  | .ok ks => ks
  | .error _ => []

theorem ticketsHead_read (row : StoredRow) :
    (readCurrentJson ticketsAt).eval (ticketsAnswer row) = .ok (some ticketsHead) := by
  have hok : assertCurrentJson ticketsAt.currentJsonKey ticketsHead.toJson = .ok ticketsHead := by
    rw [assertCurrentJson_toJson_iff]
    exact ⟨Nat.le_refl 0, fun g hg => by cases hg; rfl⟩
  simp [readCurrentJson, Task.getCurrent, Task.ofExcept, Except.bind, ticketsAnswer, hok]

/-- The collection, with the markers of one index. -/
def tickets (N : NumberText) (d : IndexDefinition) (row : StoredRow)
    (hid : assertStoredDocId row.1 = .ok ()) : Standing ticketsCodec ticketsAt where
  answer := ticketsAnswer row
  keys := markersOf N ticketsAt d row
  head := ticketsHead
  scanned := ⟨[row], 1, some ⟨ticketsHead, InsMap.empty, [ticketsEntry row]⟩⟩
  read_head := ticketsHead_read row
  read_rows := by
    show (Async.Prog.bind (readCurrentJson ticketsAt) _).eval _ = _
    rw [Async.Prog.eval_bind, ticketsHead_read]
    rfl
  ids := by
    intro r hr
    rw [List.mem_singleton.mp hr]
    exact hid

theorem tickets_markers {d : IndexDefinition} {row : StoredRow}
    (hid : assertStoredDocId row.1 = .ok ()) {ks : List Key}
    (hks : allIndexKeysFor N ticketsAt.collectionPrefix [d] (some row.2) row.1 = .ok ks) :
    MarkersExact N (tickets N d row hid) d := by
  have hkeys : (tickets N d row hid).keys = ks := by
    show markersOf N ticketsAt d row = ks
    rw [markersOf, hks]
  constructor
  · intro r hr
    rw [List.mem_singleton.mp hr]
    exact ⟨ks, hks⟩
  · intro key _
    rw [hkeys]
    constructor
    · exact fun h => ⟨row, List.mem_singleton.mpr rfl, ks, hks, h⟩
    · rintro ⟨r, hr, ks', hks', hmem⟩
      rw [List.mem_singleton.mp hr, hks] at hks'
      rw [Except.ok.inj hks']
      exact hmem

/-- The walk over the only index there is. -/
theorem walk_of_single {wire : PredicateWire} {d : IndexDefinition} {plan : IndexWalkPlan}
    (h : planQuery testEngine (some wire) [d] = .ok (.indexWalk plan)) :
    ∃ W : Walk testEngine wire [d], W.plan = plan ∧ W.index = d := by
  obtain ⟨W, hplan, hmem⟩ := exists_walk h
  exact ⟨W, hplan, List.mem_singleton.mp hmem⟩

/-- A walk that collects nothing misses a row that matches. -/
theorem not_returnsMatching {d : IndexDefinition} {row : StoredRow} {wire : PredicateWire}
    {plan : IndexWalkPlan} (hid : assertStoredDocId row.1 = .ok ())
    (hmatch : matchesWire wire row.2 = .ok true)
    (hids : walkIds N ticketsAt (markersOf N ticketsAt d row) plan = []) :
    ¬ ReturnsMatching N (tickets N d row hid) wire plan := by
  intro h
  have hmem := ((returnsMatching_iff _ wire plan).mp h).1 row (List.mem_singleton.mpr rfl) hmatch
  rw [show walkIds N ticketsAt (tickets N d row hid).keys plan = [] from hids] at hmem
  exact absurd hmem List.not_mem_nil

/-- An index without a filter. -/
def plainIndex (name : JsString) (on : IndexOn) : IndexDefinition :=
  ⟨name, on, none, fun _ h => by cases h⟩

/-! ## Equality and set walks -/

/-- What was read is written as that very value: for an object, the same members in the same order.
    An inherited `__proto__` is written as the empty object. -/
def Property.SameTree (p : Property) (v : Doc) : Prop := p.encoded = some v

theorem Property.SameTree.sameSegment {p : Property} {v : Doc} (h : p.SameTree v) :
    p.SameSegment v := ⟨v, h, Baerly.SameSegment.refl v⟩

/-- What matches a key and has its segment is that key. -/
theorem sameTree_of_sameSegment {u : Property} {v : Doc} (hsame : u.SameSegment v)
    (hmatch : matchesEq v u = .ok true) : u.SameTree v := by
  obtain ⟨w, hw, hsame⟩ := hsame
  cases w with
  | str s =>
    -- only a string is written as one
    cases u with
    | value x =>
      cases hw
      rw [matchesEq_string hmatch]
      rfl
    | _ => cases hw
  | _ =>
    have hwv : _ = v := hsame
    rw [← hwv]
    exact hw

/-- The set contains what it matches and has a segment of. -/
theorem mem_of_sameSegment {u : Property} {vs : List Doc} (hsame : ∃ v ∈ vs, u.SameSegment v)
    (hmatch : ∃ m ∈ vs, matchesEq m u = .ok true) : ∃ v ∈ vs, u.SameTree v := by
  obtain ⟨v, hv, w, hw, hsame⟩ := hsame
  cases w with
  | str s =>
    cases u with
    | value x =>
      cases hw
      obtain ⟨m, hm, hmatch⟩ := hmatch
      rw [matchesEq_string hmatch] at hm
      exact ⟨.str s, hm, rfl⟩
    | _ => cases hw
  | _ =>
    have hwv : _ = v := hsame
    rw [← hwv] at hv
    exact ⟨_, hv, hw⟩

theorem HoldsKeys.imp {Same Same' : Property → Doc → Prop} (himp : ∀ u v, Same u v → Same' u v)
    {fields : List JsString} {plan : IndexWalkPlan} {doc : Doc} (h : HoldsKeys Same fields plan doc) :
    HoldsKeys Same' fields plan doc := by
  refine ⟨h.1.imp fun f v hheld => ?_, fun f vs hset => ?_⟩
  · obtain ⟨u, hu, hsame⟩ := hheld
    exact ⟨u, hu, himp u v hsame⟩
  · obtain ⟨u, hu, v, hv, hsame⟩ := h.2 f vs hset
    exact ⟨u, hu, v, hv, himp u v hsame⟩

/-- A walk without a range reaches the rows that hold its keys. -/
theorem Walk.reaches_iff_holdsKeys (hmarkers : MarkersExact N S W.index)
    (hd : W.index.predicate = none) (hwhole : W.plan.consumed = W.index.on.tuple.length)
    (hrange : W.plan.rangeOn = none) {row : StoredRow} (hrow : row ∈ S.rows) :
    Reaches N S W row ↔ HoldsKeys Property.SameSegment W.index.on.tuple W.plan row.2 := by
  constructor
  · rintro ⟨values, hindexed, hselects⟩
    exact ((W.selects_iff hindexed).mp hselects).1
  · intro hkeys
    obtain ⟨front, back, hfields, hrun, -, hset⟩ := W.fields
    have hindexed : ∃ values, Indexed S W.index row values := by
      refine hmarkers.indexed_of_holds hd hrow fun f hf _ => ?_
      rw [hfields, List.mem_append] at hf
      rcases hf with hf | hf
      · have hheld := hkeys.1
        rw [hfields, ← hrun.length_eq, List.take_left] at hheld
        obtain ⟨i, hi, rfl⟩ := List.getElem_of_mem hf
        obtain ⟨u, hu, -⟩ := hheld.get hi (hheld.length_eq ▸ hi)
        exact ⟨u, hu⟩
      · -- whatever is left of the fields is the one of the set
        unfold IndexWalkPlan.consumed at hwhole
        rw [hfields, List.length_append, hrun.length_eq, hrange] at hwhole
        cases hin : W.plan.inOn with
        | none =>
          rw [hin] at hwhole
          have hnil : back = [] := List.eq_nil_of_length_eq_zero (by simpa using hwhole)
          rw [hnil] at hf
          exact absurd hf List.not_mem_nil
        | some members =>
          obtain ⟨field, vs⟩ := members
          obtain ⟨⟨rest, rfl⟩, -⟩ := hset field vs hin
          rw [hin] at hwhole
          have hnil : rest = [] := List.eq_nil_of_length_eq_zero (by simpa using hwhole)
          rw [hnil, List.mem_singleton] at hf
          obtain ⟨u, hu, -⟩ := hkeys.2 field vs hin
          rw [hf]
          exact ⟨u, hu⟩
    obtain ⟨values, hindexed⟩ := hindexed
    refine ⟨values, hindexed, (W.selects_iff hindexed).mpr ⟨hkeys, fun f r hr => ?_⟩⟩
    rw [hrange] at hr
    cases hr

/-- Of a matching row, having the segments of the keys is holding the keys. -/
theorem Walk.holdsKeys_of_matches {row : StoredRow} {values : List Property}
    (hindexed : Indexed S W.index row values) (hmatch : matchesWire wire row.2 = .ok true)
    (hkeys : HoldsKeys Property.SameSegment W.index.on.tuple W.plan row.2) :
    HoldsKeys Property.SameTree W.index.on.tuple W.plan row.2 := by
  obtain ⟨front, back, hfields, hrun, -, hset⟩ := W.fields
  obtain ⟨held, rest, -, hheld, hrest⟩ := hindexed.split hfields
  have htake : W.index.on.tuple.take W.plan.equalityKeys.length = front := by
    rw [hfields, ← hrun.length_eq, List.take_left]
  refine ⟨?_, fun f vs hin => ?_⟩
  · have hsegments := hkeys.1
    rw [htake] at hsegments ⊢
    refine List.forall₂_iff_get.mpr ⟨hrun.length_eq, fun i hi hi' => ?_⟩
    obtain ⟨u, hu, hsame⟩ := hsegments.get hi hi'
    have hplain := (hheld.get hi (hheld.length_eq ▸ hi)).1
    have hkey := W.matches_key hmatch (hrun.get hi hi')
    rw [lookupPath_plain hplain, hu.1] at hkey
    exact ⟨u, hu, sameTree_of_sameSegment hsame hkey⟩
  · obtain ⟨⟨more, rfl⟩, hget⟩ := hset f vs hin
    obtain ⟨u, hu, hsame⟩ := hkeys.2 f vs hin
    cases hrest with
    | cons hfirst _ =>
      have hmem := W.matches_set hmatch hget
      rw [lookupPath_plain hfirst.1, hu.1] at hmem
      exact ⟨u, hu, mem_of_sameSegment hsame hmem⟩

/-- **Equality and set walks against the scan.**  A walk that consumes the whole index returns
    exactly the live rows that match iff every one of those holds the very values of the query — for
    an object that is the same tree, with the same members in the same order — and the predicate can
    be evaluated on every live row that has their segments. -/
theorem equalityWalk_agrees_iff (E : Engine) (codec : Codec) (N : NumberText) (c : Collection)
    (S : Standing codec c) (wire : PredicateWire) (indexes : List IndexDefinition)
    (W : Walk E wire indexes) (hmarkers : MarkersExact N S W.index)
    (hunfiltered : W.index.predicate = none)
    (hwhole : W.plan.consumed = W.index.on.tuple.length) (hrange : W.plan.rangeOn = none) :
    ReturnsMatching N S wire W.plan ↔
      (∀ row ∈ S.rows, matchesWire wire row.2 = .ok true →
        HoldsKeys Property.SameTree W.index.on.tuple W.plan row.2) ∧
      (∀ row ∈ S.rows, HoldsKeys Property.SameSegment W.index.on.tuple W.plan row.2 →
        ∃ b, matchesWire wire row.2 = .ok b) := by
  rw [W.agrees_iff hmarkers hunfiltered]
  have hreach : ∀ row ∈ S.rows, (Reaches N S W row ↔
      HoldsKeys Property.SameSegment W.index.on.tuple W.plan row.2) :=
    fun row hrow => W.reaches_iff_holdsKeys hmarkers hunfiltered hwhole hrange hrow
  constructor
  · rintro ⟨hcomplete, hdefined⟩
    refine ⟨fun row hrow hmatch => ?_, fun row hrow hkeys => ?_⟩
    · obtain ⟨values, hindexed, hselects⟩ := hcomplete row hrow hmatch
      exact W.holdsKeys_of_matches hindexed hmatch ((W.selects_iff hindexed).mp hselects).1
    · exact hdefined row hrow ((hreach row hrow).mpr hkeys)
  · rintro ⟨hcomplete, hdefined⟩
    refine ⟨fun row hrow hmatch => ?_, fun row hrow hkeys => ?_⟩
    · exact (hreach row hrow).mpr
        ((hcomplete row hrow hmatch).imp fun u v hsame => hsame.sameSegment)
    · exact hdefined row hrow ((hreach row hrow).mp hkeys)

/-- The index on `priority` of all rows. -/
def byPriority : IndexDefinition := plainIndex (js "by_priority") (.field (js "priority"))

/-- `{ _id: "r1", priority: "p1" }`. -/
def urgentRow : StoredRow :=
  (js "r1", .obj [(js "_id", .str (js "r1")), (js "priority", .str (js "p1"))])

theorem equalityWalk_agrees_urgent : ∃ W : Walk testEngine priorityQuery [byPriority],
    MarkersExact ordinalText (tickets ordinalText byPriority urgentRow rfl) W.index ∧
    W.index.predicate = none ∧ W.plan.consumed = W.index.on.tuple.length ∧
    W.plan.rangeOn = none ∧
    ReturnsMatching ordinalText (tickets ordinalText byPriority urgentRow rfl) priorityQuery
      W.plan := by
  obtain ⟨W, hplan, hindex⟩ := @walk_of_single priorityQuery byPriority
    ⟨js "by_priority", [.str (js "p1")], none, none⟩ rfl
  have hmarkers : MarkersExact ordinalText (tickets ordinalText byPriority urgentRow rfl) W.index := by
    rw [hindex]
    exact tickets_markers rfl rfl
  have hwhole : W.plan.consumed = W.index.on.tuple.length := by rw [hplan, hindex]; rfl
  have hrange : W.plan.rangeOn = none := by rw [hplan]
  refine ⟨W, hmarkers, by rw [hindex]; rfl, hwhole, hrange, ?_⟩
  refine (equalityWalk_agrees_iff _ _ _ _ _ _ _ W hmarkers (by rw [hindex]; rfl) hwhole hrange).mpr
    ⟨fun row hrow _ => ?_, fun row hrow _ => ?_⟩
  · rw [List.mem_singleton.mp hrow, hplan, hindex]
    refine ⟨List.Forall₂.cons ⟨.value (.str (js "p1")), ⟨rfl, rfl⟩, rfl⟩ List.Forall₂.nil, ?_⟩
    intro f vs hset
    cases hset
  · rw [List.mem_singleton.mp hrow]
    exact ⟨true, by decide +kernel⟩

/-- The index on `meta`. -/
def byMeta : IndexDefinition := plainIndex (js "by_meta") (.field (js "meta"))

/-- `{ _id: "r1", meta: { a: "x", b: "y" } }`. -/
def metaRow : StoredRow :=
  (js "r1", .obj [(js "_id", .str (js "r1")),
    (js "meta", .obj [(js "a", .str (js "x")), (js "b", .str (js "y"))])])

/-- `{ meta: { a: "x" } }`, as a query. -/
def metaQuery : PredicateWire :=
  ⟨[⟨.eq, js "meta", .obj [(js "a", .str (js "x"))], by decide⟩]⟩

/-- A nested object in a query matches rows with more members, and the walk does not see them. -/
theorem equalityWalk_misses_open_world :
    ¬ ∀ (E : Engine) (codec : Codec) (N : NumberText) (c : Collection) (S : Standing codec c)
        (wire : PredicateWire) (indexes : List IndexDefinition) (W : Walk E wire indexes),
        (∀ d ∈ indexes, MarkersExact N S d) → validateWire E wire = .ok wire →
        W.index.predicate = none → W.plan.consumed = W.index.on.tuple.length →
        W.plan.rangeOn = none → ReturnsMatching N S wire W.plan := by
  intro h
  obtain ⟨W, hplan, hindex⟩ := @walk_of_single metaQuery byMeta
    ⟨js "by_meta", [.obj [(js "a", .str (js "x"))]], none, none⟩ rfl
  have hbad := h testEngine ticketsCodec ordinalText ticketsAt (tickets ordinalText byMeta metaRow rfl)
    metaQuery [byMeta] W
    (fun d hd => by rw [List.mem_singleton.mp hd]; exact tickets_markers rfl rfl) rfl
    (by rw [hindex]; rfl) (by rw [hplan, hindex]; rfl) (by rw [hplan])
  rw [hplan] at hbad
  exact not_returnsMatching rfl (by decide +kernel) (by decide +kernel) hbad

/-! ## Range walks -/

/-- A string is in the string bounds of a range in UTF-8 byte order; `tie` is what it takes to be
    listed with the bytes of an exclusive lower bound. -/
def StringInRange (r : RangeOpInfo) (s : JsString) (tie : Prop) : Prop :=
  (∀ lo, r.lo = some (.str lo) → Utf8.encode lo < Utf8.encode s ∨
    (Utf8.encode lo = Utf8.encode s ∧ (r.loInclusive = true ∨ tie))) ∧
  (∀ hi, r.hi = some (.str hi) → Utf8.encode s < Utf8.encode hi ∨
    (Utf8.encode s = Utf8.encode hi ∧ r.hiInclusive = true))

theorem encodeBytes_str_lt {a b : JsString} :
    encodeBytes N (.str a) < encodeBytes N (.str b) ↔ Utf8.encode a < Utf8.encode b := by
  simp [encodeBytes]

theorem encodeBytes_str_eq {a b : JsString} :
    encodeBytes N (.str a) = encodeBytes N (.str b) ↔ Utf8.encode a = Utf8.encode b := by
  simp [encodeBytes]

theorem encodeBytes_num_lt {a b : JsNumber} (h : a < b) :
    encodeBytes N (.num a) < encodeBytes N (.num b) := by
  rw [encodeBytes, encodeBytes, List.cons_lt_cons_iff]
  exact Or.inr ⟨rfl, encodeNumberPayload_lt h⟩

theorem compareGT_str {s : JsString} {lo : Doc} {i : Bool}
    (h : compareGT (.value (.str s)) lo i = true) : ∃ l, lo = .str l := by
  cases lo <;> simp [compareGT] at h
  exact ⟨_, rfl⟩

theorem compareLT_str {s : JsString} {hi : Doc} {i : Bool}
    (h : compareLT (.value (.str s)) hi i = true) : ∃ l, hi = .str l := by
  cases hi <;> simp [compareLT] at h
  exact ⟨_, rfl⟩

theorem compareGT_num {n : JsNumber} {lo : Doc} {i : Bool}
    (h : compareGT (.value (.num n)) lo i = true) :
    ∃ l, lo = .num l ∧ (l < n ∨ (l = n ∧ i = true)) := by
  cases lo with
  | num l =>
    refine ⟨l, rfl, ?_⟩
    cases i with
    | true => simpa [compareGT, le_iff_lt_or_eq] using h
    | false => simpa [compareGT] using h
  | _ => simp [compareGT] at h

theorem compareLT_num {n : JsNumber} {hi : Doc} {i : Bool}
    (h : compareLT (.value (.num n)) hi i = true) :
    ∃ l, hi = .num l ∧ (n < l ∨ (n = l ∧ i = true)) := by
  cases hi with
  | num l =>
    refine ⟨l, rfl, ?_⟩
    cases i with
    | true => simpa [compareLT, le_iff_lt_or_eq] using h
    | false => simpa [compareLT] using h
  | _ => simp [compareLT] at h

/-- **A value that satisfies the clauses of a range is in the range of the walk**, if it is a
    number; a string has to be in byte order, too. -/
theorem inRange_of_matches {r : RangeOpInfo} {u : Doc} {more : Key} (hord : u.isOrdered = true)
    (hlo : ∀ lo, r.lo = some lo → compareGT (.value u) lo r.loInclusive = true)
    (hhi : ∀ hi, r.hi = some hi → compareLT (.value u) hi r.hiInclusive = true) :
    InRange N r (.value u) more ↔ ∀ s, u = .str s → StringInRange r s
      (Utf8.encode rangeExclusiveLowerSentinel < Utf8.encode more) := by
  cases u with
  | str s =>
    constructor
    · rintro ⟨hlower, hupper⟩ s' heq
      cases heq
      refine ⟨fun lo hb => ?_, fun hi hb => ?_⟩
      · have := hlower _ hb
        rw [Property.bytes_value, encodeBytes_str_lt, encodeBytes_str_eq] at this
        exact this
      · have := hupper _ hb
        rw [Property.bytes_value, encodeBytes_str_lt, encodeBytes_str_eq] at this
        exact this
    · intro hstring
      obtain ⟨hlower, hupper⟩ := hstring s rfl
      refine ⟨fun lo hb => ?_, fun hi hb => ?_⟩
      · obtain ⟨l, rfl⟩ := compareGT_str (hlo lo hb)
        rw [Property.bytes_value, encodeBytes_str_lt, encodeBytes_str_eq]
        exact hlower l hb
      · obtain ⟨l, rfl⟩ := compareLT_str (hhi hi hb)
        rw [Property.bytes_value, encodeBytes_str_lt, encodeBytes_str_eq]
        exact hupper l hb
  | num n =>
    constructor
    · intro _ s heq
      cases heq
    · intro _
      refine ⟨fun lo hb => ?_, fun hi hb => ?_⟩
      · obtain ⟨l, rfl, hlt | ⟨rfl, hincl⟩⟩ := compareGT_num (hlo lo hb)
        · exact Or.inl (encodeBytes_num_lt hlt)
        · exact Or.inr ⟨rfl, Or.inl hincl⟩
      · obtain ⟨l, rfl, hlt | ⟨rfl, hincl⟩⟩ := compareLT_num (hhi hi hb)
        · exact Or.inl (encodeBytes_num_lt hlt)
        · exact Or.inr ⟨rfl, hincl⟩
  | _ => cases hord

/-- Scalar keys that match are held. -/
theorem Walk.holdsKeys_of_scalar {row : StoredRow} {values : List Property}
    (hindexed : Indexed S W.index row values) (hmatch : matchesWire wire row.2 = .ok true)
    (hkeys : ∀ v ∈ W.plan.equalityKeys, v.isScalar = true)
    (hset : ∀ f vs, W.plan.inOn = some (f, vs) → ∀ v ∈ vs, v.isScalar = true) :
    HoldsKeys Property.SameSegment W.index.on.tuple W.plan row.2 := by
  obtain ⟨front, back, hfields, hrun, -, hslot⟩ := W.fields
  obtain ⟨held, rest, -, hheld, hrest⟩ := hindexed.split hfields
  have htake : W.index.on.tuple.take W.plan.equalityKeys.length = front := by
    rw [hfields, ← hrun.length_eq, List.take_left]
  refine ⟨?_, fun f vs hin => ?_⟩
  · rw [htake]
    refine List.forall₂_iff_get.mpr ⟨hrun.length_eq, fun i hi hi' => ?_⟩
    obtain ⟨hplain, hholds⟩ := hheld.get hi (hheld.length_eq ▸ hi)
    have hkey := W.matches_key hmatch (hrun.get hi hi')
    rw [lookupPath_plain hplain] at hkey
    have hvalue := matchesEq_scalar (hkeys _ (List.get_mem _ _)) hkey
    refine ⟨_, hholds, ?_⟩
    rw [hholds.1] at hvalue
    rw [hvalue]
    exact Property.SameTree.sameSegment rfl
  · obtain ⟨⟨more, rfl⟩, hget⟩ := hslot f vs hin
    cases hrest with
    | @cons _ u _ _ hfirst _ =>
      obtain ⟨m, hm, hmem⟩ := W.matches_set hmatch hget
      rw [lookupPath_plain hfirst.1] at hmem
      have hvalue := matchesEq_scalar (hset f vs hin m hm) hmem
      rw [hfirst.2.1] at hvalue
      refine ⟨u, hfirst.2, m, hm, ?_⟩
      rw [hvalue]
      exact Property.SameTree.sameSegment rfl

/-- Which matching rows a walk with scalar keys reaches: those whose string is in range. -/
theorem Walk.selects_of_matches {row : StoredRow} {values : List Property}
    (hindexed : Indexed S W.index row values) (hmatch : matchesWire wire row.2 = .ok true)
    (hkeys : ∀ v ∈ W.plan.equalityKeys, v.isScalar = true)
    (hset : ∀ f vs, W.plan.inOn = some (f, vs) → ∀ v ∈ vs, v.isScalar = true) :
    Selects N W.plan row.1 values ↔
      ∀ f r s, W.plan.rangeOn = some (f, r) → row.2.member f = some (.str s) →
        StringInRange r s (Utf8.encode rangeExclusiveLowerSentinel <
          Utf8.encode (path slash (segments N (values.drop W.plan.consumed)) ++
            (row.1 ++ js ".json"))) := by
  rw [W.selects_iff hindexed]
  obtain ⟨front, back, hfields, -, hrange, -⟩ := W.fields
  obtain ⟨held, rest, -, -, hrest⟩ := hindexed.split hfields
  have hin : ∀ f r, W.plan.rangeOn = some (f, r) → ∃ u, Holds row.2 f u ∧
      (InRange N r u (path slash (segments N (values.drop W.plan.consumed)) ++
          (row.1 ++ js ".json")) ↔ ∀ s, u = .value (.str s) → StringInRange r s
        (Utf8.encode rangeExclusiveLowerSentinel <
          Utf8.encode (path slash (segments N (values.drop W.plan.consumed)) ++
            (row.1 ++ js ".json")))) := by
    intro f r hr
    obtain ⟨⟨more, rfl⟩, hget⟩ := hrange f r hr
    cases hrest with
    | @cons _ u _ _ hfirst _ =>
      obtain ⟨⟨u', hu', hord⟩, hlo, hhi⟩ := W.matches_range hmatch hget
      rw [lookupPath_plain hfirst.1, hfirst.2.1] at hu' hlo hhi
      subst hu'
      refine ⟨_, hfirst.2, (inRange_of_matches hord hlo hhi).trans ?_⟩
      simp only [Property.value.injEq]
  constructor
  · rintro ⟨-, hslot⟩ f r s hr hs
    obtain ⟨u, hu, hiff⟩ := hin f r hr
    obtain ⟨u', hu', hselected⟩ := hslot f r hr
    rw [← hu.unique hu'] at hselected
    have hus : u = .value (.str s) := hu.1.symm.trans (Json.property_value.mpr hs)
    exact hiff.mp hselected s hus
  · intro hstrings
    refine ⟨W.holdsKeys_of_scalar hindexed hmatch hkeys hset, fun f r hr => ?_⟩
    obtain ⟨u, hu, hiff⟩ := hin f r hr
    refine ⟨u, hu, hiff.mpr fun s hs => hstrings f r s hr (Json.property_value.mp ?_)⟩
    rw [hu.1, hs]

/-- **Range walks against the scan.**  A walk over the whole index with a range in its last field
    and scalar keys before it returns exactly the live rows that match iff every string such a row
    holds in that field is in the bounds in UTF-8 byte order, and the predicate can be evaluated on
    every live row that is.  Numbers need nothing: they sort as their bytes do. -/
theorem rangeWalk_agrees_iff (E : Engine) (codec : Codec) (N : NumberText) (c : Collection)
    (S : Standing codec c) (wire : PredicateWire) (indexes : List IndexDefinition)
    (W : Walk E wire indexes) (field : JsString) (r : RangeOpInfo)
    (hmarkers : MarkersExact N S W.index) (hunfiltered : W.index.predicate = none)
    (hwhole : W.plan.consumed = W.index.on.tuple.length)
    (hrange : W.plan.rangeOn = some (field, r))
    (hscalar : ∀ v ∈ W.plan.equalityKeys, v.isScalar = true) :
    ReturnsMatching N S wire W.plan ↔
      (∀ row ∈ S.rows, matchesWire wire row.2 = .ok true → ∀ s,
        row.2.member field = some (.str s) → StringInRange r s
          (Utf8.encode rangeExclusiveLowerSentinel < Utf8.encode (row.1 ++ js ".json"))) ∧
      (∀ row ∈ S.rows, HoldsKeys Property.SameSegment W.index.on.tuple W.plan row.2 →
        (∃ u, Holds row.2 field u ∧ InRange N r u (row.1 ++ js ".json")) →
        ∃ b, matchesWire wire row.2 = .ok b) := by
  rw [W.agrees_iff hmarkers hunfiltered]
  obtain ⟨front, back, hfields, hrun, hslot, -⟩ := W.fields
  have hnoset : W.plan.inOn = none := by
    unfold Walk.plan Candidate.plan at hrange ⊢
    cases htail : W.best.tail with
    | none => rfl
    | some slot =>
      rw [htail] at hrange
      cases slot with
      | range _ _ => rfl
      | members _ _ => cases hrange
  have hset : ∀ f vs, W.plan.inOn = some (f, vs) → ∀ v ∈ vs, v.isScalar = true := by
    intro f vs hin
    rw [hnoset] at hin
    cases hin
  have hnone : ∀ {row values}, Indexed S W.index row values → values.drop W.plan.consumed = [] := by
    intro row values hindexed
    rw [hwhole, ← hindexed.length, List.drop_length]
  have hleft : ∀ doc : Doc, ∀ f ∈ W.index.on.tuple.drop W.plan.consumed, ∃ u, Holds doc f u := by
    intro doc f hf
    rw [hwhole, List.drop_length] at hf
    exact absurd hf List.not_mem_nil
  -- the fields are the equality run and the range slot
  obtain ⟨⟨rest, rfl⟩, -⟩ := hslot field r hrange
  have hback : rest = [] := by
    unfold IndexWalkPlan.consumed at hwhole
    rw [hfields, List.length_append, hrun.length_eq, hrange] at hwhole
    exact List.eq_nil_of_length_eq_zero (by simpa using hwhole)
  have hreach : ∀ row ∈ S.rows, (Reaches N S W row ↔
      HoldsKeys Property.SameSegment W.index.on.tuple W.plan row.2 ∧
        ∃ u, Holds row.2 field u ∧ InRange N r u (row.1 ++ js ".json")) := by
    intro row hrow
    constructor
    · rintro ⟨values, hindexed, hselects⟩
      obtain ⟨hkeys, hin⟩ := (W.selects_iff hindexed).mp hselects
      have hin := hin field r hrange
      rw [hnone hindexed] at hin
      exact ⟨hkeys, hin⟩
    · rintro ⟨hkeys, u, hu, hin⟩
      have hindexed : ∃ values, Indexed S W.index row values := by
        refine hmarkers.indexed_of_holds hunfiltered hrow fun f hf _ => ?_
        rw [hfields, hback, List.mem_append, List.mem_singleton] at hf
        rcases hf with hf | rfl
        · have hheld := hkeys.1
          rw [hfields, ← hrun.length_eq, List.take_left] at hheld
          obtain ⟨i, hi, rfl⟩ := List.getElem_of_mem hf
          obtain ⟨u, hu, -⟩ := hheld.get hi (hheld.length_eq ▸ hi)
          exact ⟨u, hu⟩
        · exact ⟨u, hu⟩
      obtain ⟨values, hindexed⟩ := hindexed
      refine ⟨values, hindexed, (W.selects_iff hindexed).mpr ⟨hkeys, fun f r' hr => ?_⟩⟩
      rw [hrange] at hr
      cases hr
      rw [hnone hindexed]
      exact ⟨u, hu, hin⟩
  constructor
  · rintro ⟨hcomplete, hdefined⟩
    refine ⟨fun row hrow hmatch s hs => ?_, fun row hrow hkeys hin => ?_⟩
    · obtain ⟨values, hindexed, hselects⟩ := hcomplete row hrow hmatch
      have hstring := (W.selects_of_matches hindexed hmatch hscalar hset).mp hselects field r s
        hrange hs
      rw [hnone hindexed] at hstring
      exact hstring
    · exact hdefined row hrow ((hreach row hrow).mpr ⟨hkeys, hin⟩)
  · rintro ⟨hcomplete, hdefined⟩
    refine ⟨fun row hrow hmatch => ?_, fun row hrow hreached => ?_⟩
    · obtain ⟨values, hindexed⟩ := W.indexed_of_matches hmarkers hunfiltered hrow hmatch (hleft row.2)
      refine ⟨values, hindexed, (W.selects_of_matches hindexed hmatch hscalar hset).mpr ?_⟩
      intro f r' s hr hs
      rw [hrange] at hr
      cases hr
      rw [hnone hindexed]
      exact hcomplete row hrow hmatch s hs
    · obtain ⟨hkeys, hin⟩ := (hreach row hrow).mp hreached
      exact hdefined row hrow hkeys hin

/-- The index on `name`. -/
def byName : IndexDefinition := plainIndex (js "by_name") (.field (js "name"))

/-- `{ name: { $gt: lo } }`. -/
def nameAbove (lo : JsString) : PredicateWire := ⟨[⟨.gt, js "name", .str lo, Json.wf_str lo⟩]⟩

/-- `{ _id: "r1", name }`. -/
def namedRow (name : JsString) : StoredRow :=
  (js "r1", .obj [(js "_id", .str (js "r1")), (js "name", .str name)])

/-- The range of that query. -/
def aboveOnly (lo : JsString) : RangeOpInfo := ⟨some (.str lo), none, false, false⟩

theorem rangeWalk_agrees_b : ∃ W : Walk testEngine (nameAbove (js "a")) [byName],
    MarkersExact ordinalText (tickets ordinalText byName (namedRow (js "b")) rfl) W.index ∧
    W.index.predicate = none ∧ W.plan.consumed = W.index.on.tuple.length ∧
    W.plan.rangeOn = some (js "name", aboveOnly (js "a")) ∧
    (∀ v ∈ W.plan.equalityKeys, v.isScalar = true) ∧
    ReturnsMatching ordinalText (tickets ordinalText byName (namedRow (js "b")) rfl)
      (nameAbove (js "a")) W.plan := by
  obtain ⟨W, hplan, hindex⟩ := @walk_of_single (nameAbove (js "a")) byName
    ⟨js "by_name", [], some (js "name", aboveOnly (js "a")), none⟩ rfl
  have hmarkers : MarkersExact ordinalText (tickets ordinalText byName (namedRow (js "b")) rfl)
      W.index := by
    rw [hindex]
    exact tickets_markers rfl rfl
  have hwhole : W.plan.consumed = W.index.on.tuple.length := by rw [hplan, hindex]; rfl
  have hrange : W.plan.rangeOn = some (js "name", aboveOnly (js "a")) := by rw [hplan]
  have hscalar : ∀ v ∈ W.plan.equalityKeys, v.isScalar = true := by
    rw [hplan]
    exact fun v hv => absurd hv List.not_mem_nil
  refine ⟨W, hmarkers, by rw [hindex]; rfl, hwhole, hrange, hscalar, ?_⟩
  refine (rangeWalk_agrees_iff _ _ _ _ _ _ _ W _ _ hmarkers (by rw [hindex]; rfl) hwhole hrange
    hscalar).mpr ⟨fun row hrow _ s hs => ?_, fun row hrow _ _ => ?_⟩
  · rw [List.mem_singleton.mp hrow] at hs
    obtain rfl : js "b" = s := by simpa using Option.some.inj hs
    refine ⟨fun lo hlo => ?_, fun hi hhi => by cases hhi⟩
    cases hlo
    exact Or.inl (by decide)
  · rw [List.mem_singleton.mp hrow]
    exact ⟨true, by decide +kernel⟩

/-- U+E000 is above the surrogates of U+1F600 and below its bytes: the walk starts behind it. -/
theorem rangeWalk_misses_private_use :
    ¬ ∀ (E : Engine) (codec : Codec) (N : NumberText) (c : Collection) (S : Standing codec c)
        (wire : PredicateWire) (indexes : List IndexDefinition) (W : Walk E wire indexes)
        (field : JsString) (r : RangeOpInfo),
        (∀ d ∈ indexes, MarkersExact N S d) → validateWire E wire = .ok wire →
        W.index.predicate = none → W.plan.consumed = W.index.on.tuple.length →
        W.plan.rangeOn = some (field, r) → (∀ v ∈ W.plan.equalityKeys, v.isScalar = true) →
        (∀ row ∈ S.rows, ∀ s, row.2.member field = some (.str s) → Utf8.wellFormed s = true) →
        ReturnsMatching N S wire W.plan := by
  intro h
  obtain ⟨W, hplan, hindex⟩ := @walk_of_single (nameAbove [0xD83D, 0xDE00]) byName
    ⟨js "by_name", [], some (js "name", aboveOnly [0xD83D, 0xDE00]), none⟩ rfl
  have hbad := h testEngine ticketsCodec ordinalText ticketsAt
    (tickets ordinalText byName (namedRow [0xE000]) rfl) (nameAbove [0xD83D, 0xDE00]) [byName] W
    (js "name") (aboveOnly [0xD83D, 0xDE00])
    (fun d hd => by rw [List.mem_singleton.mp hd]; exact tickets_markers rfl rfl) rfl
    (by rw [hindex]; rfl) (by rw [hplan, hindex]; rfl) (by rw [hplan])
    (by rw [hplan]; exact fun v hv => absurd hv List.not_mem_nil)
    (fun row hrow s hs => by
      rw [List.mem_singleton.mp hrow] at hs
      obtain rfl : [0xE000] = s := by simpa using Option.some.inj hs
      decide)
  rw [hplan] at hbad
  exact not_returnsMatching rfl (by decide +kernel) (by decide +kernel) hbad

/-! ## Partial prefixes -/

/-- A clause about a string, a number or a boolean, or about members of these kinds. -/
def PredicateClause.isScalar (c : PredicateClause) : Bool :=
  if c.op = .in then (inMembers c.value).all Json.isScalar else c.value.isScalar

theorem matchesEq_defined {v : Doc} (hv : v.isScalar = true) (actual : Property) :
    ∃ b, matchesEq v actual = .ok b := by
  cases v with
  | bool b => exact ⟨_, rfl⟩
  | num n => exact ⟨_, rfl⟩
  | str s => exact ⟨_, rfl⟩
  | _ => cases hv

theorem matchesIn_defined {vs : List Doc} (hvs : ∀ v ∈ vs, v.isScalar = true)
    (actual : Property) : ∃ b, matchesIn vs actual = .ok b := by
  induction vs with
  | nil => exact ⟨false, rfl⟩
  | cons v vs ih =>
    obtain ⟨b, hb⟩ := matchesEq_defined (hvs v List.mem_cons_self) actual
    rw [matchesIn, hb]
    cases b with
    | true => exact ⟨true, rfl⟩
    | false => exact ih fun w hw => hvs w (List.mem_cons_of_mem v hw)

/-- Scalar clauses never throw. -/
theorem matchesClauses_defined {clauses : List PredicateClause}
    (h : ∀ c ∈ clauses, c.isScalar = true) (doc : Doc) : ∃ b, matchesClauses clauses doc = .ok b := by
  induction clauses with
  | nil => exact ⟨true, rfl⟩
  | cons c clauses ih =>
    have hc := h c List.mem_cons_self
    have hdefined : ∃ b, matchesClause c (lookupPath doc c.field) = .ok b := by
      unfold PredicateClause.isScalar at hc
      unfold matchesClause
      cases hop : c.op with
      | eq =>
        rw [hop] at hc
        exact matchesEq_defined hc _
      | «in» =>
        rw [hop] at hc
        exact matchesIn_defined (List.all_eq_true.mp hc) _
      | _ => exact ⟨_, rfl⟩
    obtain ⟨b, hb⟩ := hdefined
    rw [matchesClauses, hb]
    cases b with
    | true => exact ih fun d hd => h d (List.mem_cons_of_mem c hd)
    | false => exact ⟨false, rfl⟩

/-- The keys of a walk for scalar clauses are scalars. -/
theorem Walk.scalar_keys (W : Walk E wire indexes)
    (h : ∀ clause ∈ wire.clauses, clause.isScalar = true) :
    (∀ v ∈ W.plan.equalityKeys, v.isScalar = true) ∧
    (∀ f vs, W.plan.inOn = some (f, vs) → ∀ v ∈ vs, v.isScalar = true) := by
  obtain ⟨front, back, -, hrun, -, hset⟩ := W.fields
  constructor
  · intro v hv
    obtain ⟨i, hi, rfl⟩ := List.getElem_of_mem hv
    obtain ⟨c, hc, hop, -, hvalue⟩ := W.fromClauses.equality _ _
      (hrun.get (hrun.length_eq ▸ hi) hi)
    have hscalar := h c hc
    unfold PredicateClause.isScalar at hscalar
    rw [hop, if_neg (by decide), hvalue] at hscalar
    exact hscalar
  · intro f vs hin v hv
    obtain ⟨c, hc, hop, -, hvalue⟩ := W.fromClauses.sets f vs (hset f vs hin).2
    have hscalar := h c hc
    unfold PredicateClause.isScalar at hscalar
    rw [hop, if_pos rfl, hvalue] at hscalar
    exact List.all_eq_true.mp hscalar v hv

/-- No segment comes after the sentinel. -/
theorem sentinel_not_lt (v : Property) (rest : List Property) (last : Key) :
    ¬ Utf8.encode rangeExclusiveLowerSentinel <
      Utf8.encode (path slash (segments N (v :: rest)) ++ last) := by
  rw [path_segments_cons]
  have hhead : ∃ u tail, (isSegmentUnit u = true ∨ u = slash) ∧
      v.segment N ++ slash :: (path slash (segments N rest) ++ last) = u :: tail := by
    cases hseg : v.segment N with
    | nil => exact ⟨slash, _, Or.inr rfl, rfl⟩
    | cons u us =>
      have hu : u ∈ v.segment N := by rw [hseg]; exact List.mem_cons_self
      exact ⟨u, _, Or.inl (segment_units hu), rfl⟩
  obtain ⟨u, tail, hu, heq⟩ := hhead
  have hrange : u.val ≤ 118 := by
    rcases hu with hu | rfl
    · exact (isSegmentUnit_range hu).2
    · decide
  have hsentinel : Utf8.encode rangeExclusiveLowerSentinel = [126] := by decide
  rw [heq, encode_plain hu, hsentinel]
  intro hlt
  have hbyte : (Fin.ofNat 256 u.val).val < 126 := by
    show u.val % 256 < 126
    omega
  rcases List.cons_lt_cons_iff.mp hlt with hlt | ⟨heq, -⟩
  · have : (126 : Fin 256).val < (Fin.ofNat 256 u.val).val := hlt
    have hval : (126 : Fin 256).val = 126 := rfl
    omega
  · rw [← heq] at hbyte
    exact absurd hbyte (by decide)

/-- **Partial-prefix walks against the scan.**  A walk that consumes only the first fields of an
    index, for a query of scalar clauses, returns exactly the live rows that match iff every one of
    those holds a value in each of the fields that are left, and every string it holds in the range
    slot is in the bounds in UTF-8 byte order. -/
theorem partialWalk_agrees_iff (E : Engine) (codec : Codec) (N : NumberText) (c : Collection)
    (S : Standing codec c) (wire : PredicateWire) (indexes : List IndexDefinition)
    (W : Walk E wire indexes) (hmarkers : MarkersExact N S W.index)
    (hunfiltered : W.index.predicate = none)
    (hproper : W.plan.consumed < W.index.on.tuple.length)
    (hscalar : ∀ clause ∈ wire.clauses, clause.isScalar = true) :
    ReturnsMatching N S wire W.plan ↔
      ∀ row ∈ S.rows, matchesWire wire row.2 = .ok true →
        (∀ f ∈ W.index.on.tuple.drop W.plan.consumed, ∃ u, Holds row.2 f u) ∧
        ∀ f r s, W.plan.rangeOn = some (f, r) → row.2.member f = some (.str s) →
          StringInRange r s False := by
  obtain ⟨hkeys, hset⟩ := W.scalar_keys hscalar
  have htie : ∀ {row values}, Indexed S W.index row values →
      ¬ Utf8.encode rangeExclusiveLowerSentinel <
        Utf8.encode (path slash (segments N (values.drop W.plan.consumed)) ++
          (row.1 ++ js ".json")) := by
    intro row values hindexed
    have hlen : (values.drop W.plan.consumed).length ≠ 0 := by
      rw [List.length_drop, hindexed.length]
      omega
    cases hdrop : values.drop W.plan.consumed with
    | nil => exact absurd (by rw [hdrop]; rfl) hlen
    | cons v rest => exact sentinel_not_lt v rest _
  rw [W.agrees_iff hmarkers hunfiltered]
  constructor
  · rintro ⟨hcomplete, -⟩ row hrow hmatch
    obtain ⟨values, hindexed, hselects⟩ := hcomplete row hrow hmatch
    constructor
    · intro f hf
      obtain ⟨i, hi, rfl⟩ := List.getElem_of_mem (List.mem_of_mem_drop hf)
      have hheld := hindexed.forall₂.get hi (hindexed.length ▸ hi)
      exact ⟨_, hheld.2⟩
    · intro f r s hr hs
      have hstring := (W.selects_of_matches hindexed hmatch hkeys hset).mp hselects f r s hr hs
      simpa only [StringInRange, htie hindexed] using hstring
  · intro h
    refine ⟨fun row hrow hmatch => ?_, fun row _ _ => matchesClauses_defined hscalar row.2⟩
    obtain ⟨hleft, hstrings⟩ := h row hrow hmatch
    obtain ⟨values, hindexed⟩ := W.indexed_of_matches hmarkers hunfiltered hrow hmatch hleft
    refine ⟨values, hindexed, (W.selects_of_matches hindexed hmatch hkeys hset).mpr ?_⟩
    intro f r s hr hs
    simpa only [StringInRange, htie hindexed] using hstrings f r s hr hs

/-- The index on `priority` and `name`. -/
def byPriorityAndName : IndexDefinition :=
  plainIndex (js "by_priority_and_name") (.fields [js "priority", js "name"])

/-- `{ _id: "r1", priority: "p1", name: "b" }`. -/
def urgentNamedRow : StoredRow :=
  (js "r1", .obj [(js "_id", .str (js "r1")), (js "priority", .str (js "p1")),
    (js "name", .str (js "b"))])

theorem partialWalk_agrees_named : ∃ W : Walk testEngine priorityQuery [byPriorityAndName],
    MarkersExact ordinalText (tickets ordinalText byPriorityAndName urgentNamedRow rfl) W.index ∧
    W.index.predicate = none ∧ W.plan.consumed < W.index.on.tuple.length ∧
    (∀ clause ∈ priorityQuery.clauses, clause.isScalar = true) ∧
    ReturnsMatching ordinalText (tickets ordinalText byPriorityAndName urgentNamedRow rfl)
      priorityQuery W.plan := by
  obtain ⟨W, hplan, hindex⟩ := @walk_of_single priorityQuery byPriorityAndName
    ⟨js "by_priority_and_name", [.str (js "p1")], none, none⟩ rfl
  have hmarkers : MarkersExact ordinalText
      (tickets ordinalText byPriorityAndName urgentNamedRow rfl) W.index := by
    rw [hindex]
    exact tickets_markers rfl rfl
  have hproper : W.plan.consumed < W.index.on.tuple.length := by rw [hplan, hindex]; decide
  have hscalar : ∀ clause ∈ priorityQuery.clauses, clause.isScalar = true := by
    intro clause hclause
    rw [List.mem_singleton.mp hclause]
    rfl
  refine ⟨W, hmarkers, by rw [hindex]; rfl, hproper, hscalar, ?_⟩
  refine (partialWalk_agrees_iff _ _ _ _ _ _ _ W hmarkers (by rw [hindex]; rfl) hproper
    hscalar).mpr fun row hrow _ => ⟨fun f hf => ?_, fun f r s hr _ => ?_⟩
  · rw [List.mem_singleton.mp hrow]
    rw [hplan, hindex] at hf
    obtain rfl : f = js "name" := List.mem_singleton.mp hf
    exact ⟨.value (.str (js "b")), rfl, rfl⟩
  · rw [hplan] at hr
    cases hr

/-- A row without `name` is not in the index at all, and the walk for its `priority` misses it. -/
theorem partialWalk_misses_absent_field :
    ¬ ∀ (E : Engine) (codec : Codec) (N : NumberText) (c : Collection) (S : Standing codec c)
        (wire : PredicateWire) (indexes : List IndexDefinition) (W : Walk E wire indexes),
        (∀ d ∈ indexes, MarkersExact N S d) → validateWire E wire = .ok wire →
        W.index.predicate = none → W.plan.consumed < W.index.on.tuple.length →
        (∀ clause ∈ wire.clauses, clause.isScalar = true) → ReturnsMatching N S wire W.plan := by
  intro h
  obtain ⟨W, hplan, hindex⟩ := @walk_of_single priorityQuery byPriorityAndName
    ⟨js "by_priority_and_name", [.str (js "p1")], none, none⟩ rfl
  have hbad := h testEngine ticketsCodec ordinalText ticketsAt
    (tickets ordinalText byPriorityAndName urgentRow rfl) priorityQuery [byPriorityAndName] W
    (fun d hd => by rw [List.mem_singleton.mp hd]; exact tickets_markers rfl rfl) rfl
    (by rw [hindex]; rfl) (by rw [hplan, hindex]; decide)
    (fun clause hclause => by rw [List.mem_singleton.mp hclause]; rfl)
  rw [hplan] at hbad
  exact not_returnsMatching rfl (by decide +kernel) (by decide +kernel) hbad

end Baerly
