import Baerly.Query.Order

/-
  When the comparator of a query's order is a real order.

  SPEC: `Orders` — the comparator is a strict weak order on the rows, so every engine returns the
  same stable rearrangement, with the smaller of two numbers or strings first.  `FieldOrders` is the
  condition on the values under one field; it is exact for a single sort field, and enough for each
  of several (`order_spec_orders`).

  CRUX: by its sign a field's comparison is a strict weak order iff `<` orders the values it is
  asked about strictly and totally, and no object stands beside two of them: an object compares
  equal to both.  Under a name that objects inherit, such a value is the function of every row that
  lacks the member.
-/

namespace Baerly

open Comparator

variable {converted : Property → Property → Bool}

/-! ## One field -/

/-- `<` is asked about it: a string, a number, a boolean or an inherited function. -/
def Property.Orderable (p : Property) : Prop := p ≠ .undefined ∧ p.isObject = false

/-- **The values under a field can be ordered**: `<` is a strict total order on those it is asked
    about, and an object occurs beside one of them at most. -/
structure FieldOrders (converted : Property → Property → Bool) (values : List Property) : Prop where
  total : ∀ a b, a ∈ values → b ∈ values → a.Orderable → b.Orderable → a ≠ b →
    (scalarLess converted a b = true ↔ scalarLess converted b a = false)
  trans : ∀ a b c, a ∈ values → b ∈ values → c ∈ values → a.Orderable → b.Orderable →
    c.Orderable → scalarLess converted a b = true → scalarLess converted b c = true →
    scalarLess converted a c = true
  objects : ∀ o a b, o ∈ values → a ∈ values → b ∈ values → o.isObject = true → a.Orderable →
    b.Orderable → a = b

theorem compareField_self (dir : Direction) (a : Property) : compareField converted dir a a = 0 :=
  if_pos rfl

theorem compareField_desc (converted : Property → Property → Bool) (av bv : Property) :
    compareField converted .desc av bv = -compareField converted .asc av bv := by
  unfold compareField
  split
  · rfl
  · split
    · rfl
    · split
      · rfl
      · split <;> rfl

/-- A missing value is below every other. -/
theorem compareField_missing {b : Property} (hb : b ≠ .undefined) :
    compareField converted .asc .undefined b = -1 ∧
      compareField converted .asc b .undefined = 1 := by
  constructor
  · rw [compareField, if_neg hb.symm, if_pos rfl, if_neg (by decide)]
  · rw [compareField, if_neg hb, if_neg hb, if_pos rfl, if_neg (by decide)]

/-- The three outcomes of a comparison of present values. -/
theorem compareField_present {a b : Property} (ha : a ≠ .undefined) (hb : b ≠ .undefined) :
    compareField converted .asc a b =
      if a = b ∨ a.isObject = true ∨ b.isObject = true then 0
      else if scalarLess converted a b then -1 else 1 := by
  unfold compareField
  by_cases heq : a = b
  · simp [heq]
  · rw [if_neg heq, if_neg ha, if_neg hb]
    simp only [heq, false_or]
    split
    · rfl
    · simp

/-- Present values compare equal iff they are identical or one is an object. -/
theorem compareField_zero {a b : Property} (ha : a ≠ .undefined) (hb : b ≠ .undefined) :
    compareField converted .asc a b = 0 ↔ a = b ∨ a.isObject = true ∨ b.isObject = true := by
  rw [compareField_present ha hb]
  split
  next h => simp [h]
  next h => split <;> simp [h]

theorem compareField_neg {a b : Property} (ha : a ≠ .undefined) (hb : b ≠ .undefined) :
    compareField converted .asc a b < 0 ↔
      a ≠ b ∧ a.Orderable ∧ b.Orderable ∧ scalarLess converted a b = true := by
  rw [compareField_present ha hb]
  unfold Property.Orderable
  split
  next h => grind
  next h => grind

theorem compareField_pos {a b : Property} (ha : a ≠ .undefined) (hb : b ≠ .undefined) :
    0 < compareField converted .asc a b ↔
      a ≠ b ∧ a.Orderable ∧ b.Orderable ∧ scalarLess converted a b = false := by
  rw [compareField_present ha hb]
  unfold Property.Orderable
  split
  next h => grind
  next h => grind

/-- A strict weak order by one field orders its values. -/
theorem fieldOrders_of_consistent {values : List Property}
    (h : Consistent (compareField converted .asc) values) : FieldOrders converted values := by
  refine ⟨?_, ?_, ?_⟩
  · intro a b ha hb hoa hob hne
    have hgt := h.gt_iff _ hb _ ha
    rw [compareField_pos hob.1 hoa.1, compareField_neg hoa.1 hob.1] at hgt
    constructor
    · intro hlt
      exact (hgt.mpr ⟨hne, hoa, hob, hlt⟩).2.2.2
    · intro hlt
      exact (hgt.mp ⟨Ne.symm hne, hob, hoa, hlt⟩).2.2.2
  · intro a b c ha hb hc hoa hob hoc hab hbc
    by_cases heq : a = b
    · rw [heq]
      exact hbc
    by_cases heq' : b = c
    · rw [← heq']
      exact hab
    have hlt := h.lt_trans _ ha _ hb _ hc
      ((compareField_neg hoa.1 hob.1).mpr ⟨heq, hoa, hob, hab⟩)
      ((compareField_neg hob.1 hoc.1).mpr ⟨heq', hob, hoc, hbc⟩)
    exact ((compareField_neg hoa.1 hoc.1).mp hlt).2.2.2
  · intro o a b ho ha hb hobj hoa hob
    have hopresent : o ≠ .undefined := by
      rintro rfl
      cases hobj
    have heq := h.eq_trans _ ha _ ho _ hb
      ((compareField_zero hoa.1 hopresent).mpr (Or.inr (Or.inr hobj)))
      ((compareField_zero hopresent hob.1).mpr (Or.inr (Or.inl hobj)))
    rcases (compareField_zero hoa.1 hob.1).mp heq with heq | hbad | hbad
    · exact heq
    · rw [hoa.2] at hbad
      cases hbad
    · rw [hob.2] at hbad
      cases hbad

/-- Ordered values are compared alike from both sides, whatever is missing. -/
theorem FieldOrders.gt_iff {values : List Property} (h : FieldOrders converted values)
    {a b : Property} (ha : a ∈ values) (hb : b ∈ values) :
    0 < compareField converted .asc a b ↔ compareField converted .asc b a < 0 := by
  by_cases hma : a = .undefined
  · by_cases hmb : b = .undefined
    · simp [hma, hmb, compareField_self]
    · obtain ⟨hlow, hhigh⟩ := @compareField_missing converted b hmb
      rw [hma, hlow, hhigh]
      omega
  · by_cases hmb : b = .undefined
    · obtain ⟨hlow, hhigh⟩ := @compareField_missing converted a hma
      rw [hmb, hlow, hhigh]
      omega
    · rw [compareField_pos hma hmb, compareField_neg hmb hma]
      constructor
      · rintro ⟨hne, hoa, hob, hlt⟩
        exact ⟨Ne.symm hne, hob, hoa, (h.total b a hb ha hob hoa (Ne.symm hne)).mpr hlt⟩
      · rintro ⟨hne, hob, hoa, hlt⟩
        exact ⟨Ne.symm hne, hoa, hob, (h.total b a hb ha hob hoa hne).mp hlt⟩

theorem FieldOrders.lt_trans {values : List Property} (h : FieldOrders converted values)
    {a b c : Property} (ha : a ∈ values) (hb : b ∈ values) (hc : c ∈ values)
    (hab : compareField converted .asc a b < 0) (hbc : compareField converted .asc b c < 0) :
    compareField converted .asc a c < 0 := by
  by_cases hmb : b = .undefined
  · -- nothing is below a missing value
    rw [hmb] at hab
    by_cases hma : a = .undefined
    · rw [hma, compareField_self] at hab
      omega
    · rw [(compareField_missing hma).2] at hab
      omega
  by_cases hmc : c = .undefined
  · rw [hmc, (compareField_missing hmb).2] at hbc
    omega
  by_cases hma : a = .undefined
  · rw [hma, (compareField_missing hmc).1]
    omega
  obtain ⟨hne, hoa, hob, hlt⟩ := (compareField_neg hma hmb).mp hab
  obtain ⟨-, -, hoc, hlt'⟩ := (compareField_neg hmb hmc).mp hbc
  refine (compareField_neg hma hmc).mpr
    ⟨?_, hoa, hoc, h.trans a b c ha hb hc hoa hob hoc hlt hlt'⟩
  rintro rfl
  rw [(h.total a b ha hb hoa hob hne).mp hlt] at hlt'
  cases hlt'

/-- Two values that are both equal to a third are one value, or it is an object. -/
theorem FieldOrders.eq_trans {values : List Property} (h : FieldOrders converted values)
    {a b c : Property} (ha : a ∈ values) (hb : b ∈ values) (hc : c ∈ values)
    (hab : compareField converted .asc a b = 0) (hbc : compareField converted .asc b c = 0) :
    compareField converted .asc a c = 0 := by
  by_cases hmb : b = .undefined
  · rw [hmb] at hab hbc
    by_cases hma : a = .undefined
    · rw [hma]
      exact hbc
    · rw [(compareField_missing hma).2] at hab
      omega
  by_cases hma : a = .undefined
  · rw [hma, (compareField_missing hmb).1] at hab
    omega
  by_cases hmc : c = .undefined
  · rw [hmc, (compareField_missing hmb).2] at hbc
    omega
  rw [compareField_zero hma hmb] at hab
  rw [compareField_zero hmb hmc] at hbc
  rw [compareField_zero hma hmc]
  by_cases hoa : a.isObject = true
  · exact Or.inr (Or.inl hoa)
  by_cases hoc : c.isObject = true
  · exact Or.inr (Or.inr hoc)
  left
  by_cases hob : b.isObject = true
  · exact h.objects b a c hb ha hc hob ⟨hma, by simpa using hoa⟩ ⟨hmc, by simpa using hoc⟩
  · rcases hab with rfl | hobj | hobj
    · rcases hbc with rfl | hobj | hobj
      · rfl
      · exact absurd hobj hob
      · exact absurd hobj hoc
    · exact absurd hobj hoa
    · exact absurd hobj hob

/-- Values that can be ordered are. -/
theorem consistent_of_fieldOrders {values : List Property} (h : FieldOrders converted values) :
    Consistent (compareField converted .asc) values :=
  ⟨fun _ ha _ hb => h.gt_iff ha hb, fun _ ha _ hb _ hc => h.lt_trans ha hb hc,
    fun _ ha _ hb _ hc => h.eq_trans ha hb hc⟩

/-- **One ascending field** is a strict weak order iff its values can be ordered. -/
theorem consistent_field_iff (values : List Property) :
    Consistent (compareField converted .asc) values ↔ FieldOrders converted values :=
  ⟨fieldOrders_of_consistent, consistent_of_fieldOrders⟩

/-- Values of one kind can be ordered. -/
theorem fieldOrders_of_one_type {values : List Property} {t : JsType}
    (h : ∀ p ∈ values, p = .undefined ∨ ∃ v, p = .value v ∧ typeOf v = t) :
    FieldOrders converted values := by
  have hscalar : ∀ p q, p ∈ values → q ∈ values → p.Orderable → q.Orderable →
      (∃ x y, p = .value (.str x) ∧ q = .value (.str y)) ∨
      (∃ x y, p = .value (.num x) ∧ q = .value (.num y)) ∨
        ∃ x y, p = .value (.bool x) ∧ q = .value (.bool y) := by
    intro p q hp hq hop hoq
    rcases h p hp with heq | ⟨a, rfl, ha⟩
    · exact absurd heq hop.1
    rcases h q hq with heq | ⟨b, rfl, hb⟩
    · exact absurd heq hoq.1
    have htype : typeOf a = typeOf b := ha.trans hb.symm
    have hobject : typeOf a ≠ .object := by simpa [Property.isObject] using hop.2
    clear h ha hb
    cases a <;> cases b <;> simp_all [typeOf]
  -- total, transitive, and no object beside a scalar
  refine ⟨?_, ?_, ?_⟩
  · intro a b ha hb hoa hob hne
    rcases hscalar a b ha hb hoa hob with ⟨x, y, rfl, rfl⟩ | ⟨x, y, rfl, rfl⟩ | ⟨x, y, rfl, rfl⟩
    · have hxy : x ≠ y := fun heq => hne (by rw [heq])
      simp only [scalarLess, decide_eq_true_eq, decide_eq_false_iff_not, not_lt]
      exact ⟨le_of_lt, fun hle => lt_of_le_of_ne hle hxy⟩
    · have hxy : x ≠ y := fun heq => hne (by rw [heq])
      simp only [scalarLess, decide_eq_true_eq, decide_eq_false_iff_not, not_lt]
      exact ⟨le_of_lt, fun hle => lt_of_le_of_ne hle hxy⟩
    · cases x <;> cases y <;> simp_all [scalarLess]
  · intro a b c ha hb hc hoa hob hoc hab hbc
    rcases hscalar a b ha hb hoa hob with ⟨x, y, rfl, rfl⟩ | ⟨x, y, rfl, rfl⟩ | ⟨x, y, rfl, rfl⟩
    · rcases hscalar _ c hb hc hob hoc with ⟨_, z, hy, rfl⟩ | ⟨_, z, hy, rfl⟩ | ⟨_, z, hy, rfl⟩
      · cases hy
        simp only [scalarLess, decide_eq_true_eq] at hab hbc ⊢
        exact lt_trans hab hbc
      · cases hy
      · cases hy
    · rcases hscalar _ c hb hc hob hoc with ⟨_, z, hy, rfl⟩ | ⟨_, z, hy, rfl⟩ | ⟨_, z, hy, rfl⟩
      · cases hy
      · cases hy
        simp only [scalarLess, decide_eq_true_eq] at hab hbc ⊢
        exact lt_trans hab hbc
      · cases hy
    · rcases hscalar _ c hb hc hob hoc with ⟨_, z, hy, rfl⟩ | ⟨_, z, hy, rfl⟩ | ⟨_, z, hy, rfl⟩
      · cases hy
      · cases hy
      · cases hy
        cases y <;> simp_all [scalarLess]
  · intro o a b ho ha _ hobj hoa _
    rcases h o ho with rfl | ⟨x, rfl, hx⟩
    · cases hobj
    rcases h a ha with rfl | ⟨y, rfl, hy⟩
    · exact absurd rfl hoa.1
    have htype := hx.trans hy.symm
    have hnot := hoa.2
    simp only [Property.isObject, decide_eq_true_eq, decide_eq_false_iff_not] at hobj hnot
    exact absurd (htype.symm.trans hobj) hnot

/-! ## All fields -/

/-- The values under a field. -/
def valuesOf (field : JsString) (rows : List StoredRow) : List Property :=
  rows.map fun row => row.2.property field

theorem consistent_direction_iff (dir : Direction) (values : List Property) :
    Consistent (compareField converted dir) values ↔ FieldOrders converted values := by
  cases dir with
  | asc => exact consistent_field_iff values
  | desc =>
    have hneg : compareField converted .desc = fun u v => -compareField converted .asc u v := by
      funext u v
      exact compareField_desc converted u v
    have hneg' : compareField converted .asc = fun u v => -compareField converted .desc u v := by
      funext u v
      rw [compareField_desc, neg_neg]
    rw [← consistent_field_iff]
    constructor
    · intro h
      rw [hneg']
      exact h.neg
    · intro h
      rw [hneg]
      exact h.neg

theorem compareRows_cons (field : JsString) (dir : Direction) (spec : OrderSpec) :
    compareRows converted ((field, dir) :: spec) =
      thenBy (fun a b => compareField converted dir (a.2.property field) (b.2.property field))
        (compareRows converted spec) := by
  funext a b
  rfl

/-- Fields that order their values one by one order the rows. -/
theorem consistent_compareRows {rows : List StoredRow} : ∀ {spec : OrderSpec},
    (∀ key ∈ spec, FieldOrders converted (valuesOf key.1 rows)) →
    Consistent (compareRows converted spec) rows := by
  intro spec
  induction spec with
  | nil => exact fun _ => Consistent.zero rows
  | cons key spec ih =>
    obtain ⟨field, dir⟩ := key
    intro h
    rw [List.forall_mem_cons] at h
    rw [compareRows_cons]
    exact ((consistent_direction_iff dir _).mpr h.1).comap.thenBy (ih h.2)

theorem consistent_single_iff (field : JsString) (dir : Direction) (rows : List StoredRow) :
    Consistent (compareRows converted [(field, dir)]) rows ↔
      FieldOrders converted (valuesOf field rows) := by
  have hsingle : compareRows converted [(field, dir)] =
      fun a b => compareField converted dir (a.2.property field) (b.2.property field) := by
    funext a b
    simp only [compareRows]
    split
    · rfl
    next h => exact (not_not.mp h).symm
  rw [hsingle, ← consistent_direction_iff dir]
  exact ⟨fun h => h.of_comap, fun h => h.comap⟩

/-! ## The result -/

/-- Two numbers or two strings, the first the smaller. -/
def Smaller (u v : Property) : Prop :=
  (∃ a b : JsNumber, u = .value (.num a) ∧ v = .value (.num b) ∧ a < b) ∨
    ∃ a b : JsString, u = .value (.str a) ∧ v = .value (.str b) ∧ a < b

/-- **The order is real**: a strict weak order on the rows, so that the result is their stable
    rearrangement whatever the engine does, the smaller of two first values first. -/
structure Orders (converted : Property → Property → Bool) (rows : List StoredRow) (spec : OrderSpec) :
    Prop where
  consistent : Consistent (compareRows converted spec) rows
  stable : ∀ engine, StableSorted (compareRows converted spec) rows
    (sortByOrderSpec engine converted rows spec)
  perm : ∀ engine, (sortByOrderSpec engine converted rows spec).Perm rows
  same : ∀ engine engine', sortByOrderSpec engine converted rows spec =
    sortByOrderSpec engine' converted rows spec
  first : ∀ engine field rest, spec = (field, .asc) :: rest →
    (sortByOrderSpec engine converted rows spec).Pairwise fun x y =>
      ¬ Smaller (y.2.property field) (x.2.property field)

theorem compareField_smaller {u v : Property} (h : Smaller u v) :
    compareField converted .asc u v < 0 := by
  have hpresent : ∀ v : Doc, (Property.value v) ≠ .undefined := fun v h => by cases h
  rcases h with ⟨a, b, rfl, rfl, hlt⟩ | ⟨a, b, rfl, rfl, hlt⟩
  · refine (compareField_neg (hpresent _) (hpresent _)).mpr
      ⟨fun heq => ?_, ⟨hpresent _, rfl⟩, ⟨hpresent _, rfl⟩, ?_⟩
    · cases heq
      exact lt_irrefl _ hlt
    · simpa [scalarLess] using hlt
  · refine (compareField_neg (hpresent _) (hpresent _)).mpr
      ⟨fun heq => ?_, ⟨hpresent _, rfl⟩, ⟨hpresent _, rfl⟩, ?_⟩
    · cases heq
      exact lt_irrefl _ hlt
    · simpa [scalarLess] using hlt

/-- A strict weak order is all it takes. -/
theorem orders_of_consistent {rows : List StoredRow} {spec : OrderSpec}
    (h : Consistent (compareRows converted spec) rows) : Orders converted rows spec where
  consistent := h
  stable engine := engine.stable _ _ h
  perm engine := (engine.stable _ _ h).perm
  same engine engine' := StableSorted.unique h (engine.stable _ _ h) (engine'.stable _ _ h)
  first engine field rest hspec := by
    refine ((engine.stable _ _ h).pairwise h).imp fun {x y} hle hsmall => hle ?_
    rw [hspec, compareRows_cons, thenBy_lt]
    exact Or.inl (compareField_smaller hsmall)

/-- A row with one member. -/
def rowWith (id : JsString) (field : JsString) (value : Doc) : StoredRow :=
  (id, .obj [(field, value)])

end Baerly
