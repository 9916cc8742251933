import Baerly.Lib.Float64
import Baerly.Verify.SnapshotManifest
import Baerly.Verify.WalkScan

/-
  Index segments as an order-preserving code.

  SPEC (`encodeIndexValue_exact`): a segment determines the number, boolean or well-formed string it
  was made from; segments of numbers sort as the numbers do, by the values their IEEE-754 bits stand
  for; segments of strings sort as the UTF-8 bytes do; and the key of a row can be cut back into its
  segments and its id in one way only, whatever the tuple.

  CRUX: a number is written by its magnitude bits, and those sort as the values they stand for
  (`Float64.value_lt_iff`).  A segment is never empty and holds no slash, so not even the empty
  tuple shares a key with another one.
-/

namespace Baerly

open Path

variable {N : NumberText}

/-! ## Doubles by their bits -/

/-- The place of a finite double is between the infinities. -/
theorem ofBits_finite {bits : Nat} (h : Float64.Finite bits) :
    -infinityBits < Float64.ord bits ∧ Float64.ord bits < infinityBits := by
  obtain ⟨hlt, hexp⟩ := h
  unfold Float64.exponent at hexp
  unfold infinityBits Float64.ord
  split
  next => omega
  next => omega

/-- The number a finite pattern stands for; `-0` and `0` are one number. -/
def JsNumber.ofBits (bits : Nat) (h : Float64.Finite bits) : JsNumber :=
  ⟨Float64.ord bits, ofBits_finite h⟩

/-- `encodeNumberPayload` of any double, by its bits: `NaN` is refused, and `-0` is stored as `0`. -/
def encodeDouble (bits : Nat) : Except Err (List (Fin 256)) :=
  if Float64.isNaN bits then
    .error (.mk .schemaError ("encodeIndexValue: NaN is not indexable (the byte encoding has no " ++
      "order-preserving slot for it)"))
  else
    match BigEndian.bigEndian 8 (if bits = 2 ^ 63 then 0 else bits) with
    | [] => .ok []
    | b :: bs => .ok (if b.val < 0x80 then (b ^^^ 0x80) :: bs else (b :: bs).map BigEndian.flip)

/-- A double is written with its own bits, and minus zero as zero. -/
theorem float64Bits_ofBits {bits : Nat} (h : Float64.Finite bits) :
    float64Bits (.ofBits bits h) = if bits = 2 ^ 63 then 0 else bits := by
  have hlt := h.1
  unfold float64Bits JsNumber.ofBits Float64.ord
  by_cases hpos : bits < 2 ^ 63
  · simp only [hpos, if_true]
    rw [if_pos (by omega), if_neg (by omega)]
    omega
  · simp only [hpos, if_false]
    split
    next hzero =>
      have hbits : bits = 2 ^ 63 := by omega
      rw [if_pos hbits, hbits]
      rfl
    next hneg =>
      rw [if_neg (by omega)]
      omega

/-- The bits of a finite double give the payload of its number. -/
theorem encodeDouble_eq {bits : Nat} (h : Float64.Finite bits) :
    encodeDouble bits = .ok (encodeNumberPayload (.ofBits bits h)) := by
  have hnan : Float64.isNaN bits = false := by
    rw [Float64.isNaN, decide_eq_false_iff_not]
    rintro ⟨hexp, -⟩
    exact h.2 hexp
  rw [encodeDouble, hnan, encodeNumberPayload, float64Bits_ofBits h]
  rfl

/-- **Payloads sort as the numbers.** -/
theorem encodeNumberPayload_lt_iff {a b : JsNumber} :
    encodeNumberPayload a < encodeNumberPayload b ↔ a < b := by
  constructor
  · intro h
    rcases lt_trichotomy a b with hlt | heq | hgt
    · exact hlt
    · rw [heq] at h
      exact absurd h (lt_irrefl _)
    · exact absurd (h.trans (encodeNumberPayload_lt hgt)) (lt_irrefl _)
  · exact encodeNumberPayload_lt

/-- Segments of numbers sort as the values do. -/
theorem segment_num_lt_iff {b c : Nat} (hb : Float64.Finite b) (hc : Float64.Finite c) :
    encodeIndexValue N (.num (.ofBits b hb)) < encodeIndexValue N (.num (.ofBits c hc)) ↔
      Float64.value b < Float64.value c := by
  rw [segment_lt_iff, Float64.value_lt_iff hb.1 hc.1]
  show (0x30 :: _ : List (Fin 256)) < 0x30 :: _ ↔ _
  rw [List.cons_lt_cons_iff]
  constructor
  · rintro (hlt | ⟨-, hlt⟩)
    · exact absurd hlt (lt_irrefl _)
    · exact encodeNumberPayload_lt_iff.mp hlt
  · intro hlt
    exact Or.inr ⟨rfl, encodeNumberPayload_lt_iff.mpr hlt⟩

/-- **Segments of doubles are equal iff their values are.** -/
theorem segment_num_eq_iff {b c : Nat} (hb : Float64.Finite b) (hc : Float64.Finite c) :
    encodeIndexValue N (.num (.ofBits b hb)) = encodeIndexValue N (.num (.ofBits c hc)) ↔
      Float64.value b = Float64.value c := by
  rw [segment_eq_iff, Float64.value_eq_iff hb.1 hc.1]
  constructor
  · intro h
    have hnum : Json.num (JsNumber.ofBits b hb) = Json.num (JsNumber.ofBits c hc) := h
    exact congrArg JsNumber.ord (Json.num.inj hnum)
  · intro h
    have hnum : JsNumber.ofBits b hb = JsNumber.ofBits c hc := JsNumber.ord_injective h
    rw [hnum]
    exact SameSegment.refl _

/-! ## Strings -/

/-- Segments of strings sort as their UTF-8 bytes do, a proper beginning first. -/
theorem segment_str_lt_iff {s t : JsString} :
    encodeIndexValue N (.str s) < encodeIndexValue N (.str t) ↔ Utf8.encode s < Utf8.encode t := by
  rw [segment_lt_iff]
  show (0x40 :: _ : List (Fin 256)) < 0x40 :: _ ↔ _
  rw [List.cons_lt_cons_iff]
  constructor
  · rintro (hlt | ⟨-, hlt⟩)
    · exact absurd hlt (lt_irrefl _)
    · exact hlt
  · intro hlt
    exact Or.inr ⟨rfl, hlt⟩

/-- Finite numbers, booleans and well-formed strings. -/
def Sortable : Doc → Prop
  | .bool _ | .num _ => True
  | .str s => Utf8.wellFormed s = true
  | _ => False

/-- Equal segments of sortable values are of one value. -/
theorem sortable_eq {v w : Doc} (hv : Sortable v) (hw : Sortable w)
    (h : encodeIndexValue N v = encodeIndexValue N w) : v = w := by
  have hsame := segment_eq_iff.mp h
  cases v with
  | str s => cases w with
    | str t => rw [Utf8.encode_injective hv hw hsame]
    | _ => exact hsame
  | _ => exact hsame

/-! ## Keys -/

/-- No segment is empty: it starts with a tag. -/
theorem segment_ne_nil (p : Property) : p.segment N ≠ [] := by
  have hbytes : p.bytes N ≠ [] := by
    unfold Property.bytes
    cases p.encoded with
    | none => exact List.cons_ne_nil _ _
    | some v =>
      obtain ⟨bytes, hhead⟩ := @encodeBytes_head N v
      dsimp only
      rw [hhead]
      exact List.cons_ne_nil _ _
  have hlt : p.segment N ≠ (Base32.encode []).map b32Unit :=
    fun h => hbytes (segment_strictMono.injective h)
  exact hlt

/-- The words of a key: its segments, or one empty word for the empty tuple. -/
def keyWords (N : NumberText) : List Property → List JsString
  | [] => [[]]
  | values => segments N values

/-- The words of a key tell its segments. -/
theorem keyWords_inj {values more : List Property} (h : keyWords N values = keyWords N more) :
    segments N values = segments N more := by
  have hempty : ∀ {v : Property} {vs : List Property}, segments N (v :: vs) ≠ [[]] := by
    intro v vs hnil
    exact segment_ne_nil v (List.cons.inj hnil).1
  cases values with
  | nil =>
    cases more with
    | nil => rfl
    | cons w ws => exact absurd h.symm hempty
  | cons v vs =>
    cases more with
    | nil => exact absurd h hempty
    | cons w ws => exact h

/-- A key is its index, the words, and the document. -/
theorem indexKeyFor_words (p : Key) (d : IndexDefinition) (values : List Property)
    (docId : JsString) :
    indexKeyFor N p d values docId =
      indexKeyPrefix p d.name ++ (path slash (keyWords N values) ++ (docId ++ js ".json")) := by
  cases values with
  | nil =>
    simp only [indexKeyFor, indexKeyPrefix, js_slash, keyWords, List.append_assoc]
    rfl
  | cons v vs => exact indexKeyFor_eq (List.cons_ne_nil v vs)

/-- No word has a slash. -/
theorem slash_notMem_keyWords {values : List Property} : ∀ w ∈ keyWords N values, slash ∉ w := by
  cases values with
  | nil =>
    intro w hw
    rw [List.mem_singleton.mp hw]
    exact List.not_mem_nil
  | cons v vs => exact slash_notMem_segments

/-- **A key is cut back into its segments and its id in one way.** -/
theorem indexKeyFor_inj {p : Key} {d : IndexDefinition} {values more : List Property}
    {docId other : JsString} (hid : slash ∉ docId) (hother : slash ∉ other)
    (h : indexKeyFor N p d values docId = indexKeyFor N p d more other) :
    segments N values = segments N more ∧ docId = other := by
  have hlast : ∀ {id : JsString}, slash ∉ id → slash ∉ id ++ js ".json" := by
    intro id hslash hmem
    rcases List.mem_append.mp hmem with hmem | hmem
    · exact hslash hmem
    · exact absurd hmem (by decide)
  rw [indexKeyFor_words, indexKeyFor_words] at h
  obtain ⟨hwords, hends⟩ := path_inj slash_notMem_keyWords slash_notMem_keyWords (hlast hid)
    (hlast hother) (List.append_cancel_left h)
  exact ⟨keyWords_inj hwords, List.append_cancel_right hends⟩

/-- A sortable value of a document. -/
def Property.Sortable (p : Property) : Prop := ∃ v, p = .value v ∧ Baerly.Sortable v

/-- So are tuples told by their segments. -/
theorem sortable_tuple {values more : List Property} (hv : ∀ v ∈ values, v.Sortable)
    (hm : ∀ v ∈ more, v.Sortable) (h : segments N values = segments N more) : values = more := by
  induction values generalizing more with
  | nil =>
    cases more with
    | nil => rfl
    | cons w ws => cases h
  | cons v vs ih =>
    cases more with
    | nil => cases h
    | cons w ws =>
      obtain ⟨hhead, htail⟩ := List.cons.inj h
      obtain ⟨x, rfl, hx⟩ := hv v List.mem_cons_self
      obtain ⟨y, rfl, hy⟩ := hm w List.mem_cons_self
      rw [sortable_eq hx hy hhead,
        ih (fun z hz => hv z (List.mem_cons_of_mem _ hz))
          (fun z hz => hm z (List.mem_cons_of_mem _ hz)) htail]

/-- **Index value encoding is injective, preserves order, and keeps the components of a key
    apart.** -/
theorem encodeIndexValue_exact (N : NumberText) :
    (∀ v w : Doc, Sortable v → Sortable w → encodeIndexValue N v = encodeIndexValue N w → v = w) ∧
    (∀ (b c : Nat) (hb : Float64.Finite b) (hc : Float64.Finite c),
      encodeDouble b = .ok (encodeNumberPayload (.ofBits b hb)) ∧
      (encodeIndexValue N (.num (.ofBits b hb)) = encodeIndexValue N (.num (.ofBits c hc)) ↔
        Float64.value b = Float64.value c) ∧
      (encodeIndexValue N (.num (.ofBits b hb)) < encodeIndexValue N (.num (.ofBits c hc)) ↔
        Float64.value b < Float64.value c)) ∧
    (∀ s t : JsString, encodeIndexValue N (.str s) < encodeIndexValue N (.str t) ↔
      Utf8.encode s < Utf8.encode t) ∧
    (∀ (p : Key) (d : IndexDefinition) (values more : List Property) (docId other : JsString),
      slash ∉ docId → slash ∉ other →
      indexKeyFor N p d values docId = indexKeyFor N p d more other →
      docId = other ∧ values.map (Property.segment N) = more.map (Property.segment N) ∧
        ((∀ v ∈ values, v.Sortable) → (∀ v ∈ more, v.Sortable) → values = more)) := by
  refine ⟨fun v w hv hw h => sortable_eq hv hw h, ?_, fun s t => segment_str_lt_iff, ?_⟩
  · intro b c hb hc
    exact ⟨encodeDouble_eq hb, segment_num_eq_iff hb hc, segment_num_lt_iff hb hc⟩
  · intro p d values more docId other hid hother h
    obtain ⟨hsegments, hids⟩ := indexKeyFor_inj hid hother h
    exact ⟨hids, hsegments, fun hv hm => sortable_tuple hv hm hsegments⟩

/-- The bits of -2. -/
theorem finite_minusTwo : Float64.Finite 0xC000000000000000 := by decide

/-- The bits of 1. -/
theorem finite_one : Float64.Finite 0x3FF0000000000000 := by decide

/-- `-2` sorts before `1` and `"a"` before `"ab"`, and a composite key is read back. -/
theorem encodeIndexValue_exact_samples :
    (encodeIndexValue integerText (.num (.ofBits _ finite_minusTwo)) <
      encodeIndexValue integerText (.num (.ofBits _ finite_one))) ∧
    (encodeIndexValue integerText (.str (js "a")) < encodeIndexValue integerText (.str (js "ab"))) ∧
    (indexKeyFor integerText (js "c") byPriorityAndName [.value (.str (js "a")), .value (.bool true)]
        (js "x") ≠
      indexKeyFor integerText (js "c") byPriorityAndName [.value (.str (js "a")), .value (.bool false)]
        (js "x")) := by
  obtain ⟨-, hnum, hstr, hkey⟩ := encodeIndexValue_exact integerText
  refine ⟨(hnum _ _ finite_minusTwo finite_one).2.2.mpr ?_, (hstr _ _).mpr (by decide), ?_⟩
  · rw [Float64.value_lt_iff (by decide) (by decide)]
    decide
  · intro h
    have hsort : ∀ b : Bool, ∀ v ∈ [Property.value (.str (js "a")), .value (.bool b)],
        v.Sortable := by
      intro b v hv
      rcases List.mem_cons.mp hv with rfl | hv
      · refine ⟨_, rfl, ?_⟩
        show Utf8.wellFormed _ = true
        decide
      · exact ⟨_, List.mem_singleton.mp hv, trivial⟩
    have heq := (hkey (js "c") byPriorityAndName _ _ (js "x") (js "x") (by decide) (by decide) h).2.2
      (hsort true) (hsort false)
    exact absurd heq (by simp)

end Baerly
