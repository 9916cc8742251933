import Baerly.Export
import Mathlib.Data.List.Induction

/-
  What a plan says about the rows it was inferred from.

  SPEC (`PlanOf`): the columns are `_id` and then one per observed field, each once; a column holds
  JSON text iff some row has an object or an array in its field, is nullable iff some row lacks its
  field, and has its type from the kinds of values its field takes over all rows.

  CRUX: the first pass is a fold over the members of all rows, so what it knows of a field is a fold
  over the values of that field alone (`get_observeMembers`).
-/

namespace Baerly.Export

/-! ## Observations -/

/-- The values of a field, in the order they are seen. -/
def valuesIn (field : JsString) (members : List (JsString × Doc)) : List Doc :=
  (members.filter fun member => member.1 = field).map Prod.snd

/-- One more member is one more value of its field. -/
theorem valuesIn_snoc (field : JsString) (members : List (JsString × Doc)) (member : JsString × Doc) :
    valuesIn field (members ++ [member]) =
      if member.1 = field then valuesIn field members ++ [member.2] else valuesIn field members := by
  rw [valuesIn, List.filter_append, List.map_append]
  by_cases h : member.1 = field
  · simp [valuesIn, h]
  · simp [valuesIn, h]

/-- The values of a field are those of its members. -/
theorem mem_valuesIn {field : JsString} {members : List (JsString × Doc)} {v : Doc} :
    v ∈ valuesIn field members ↔ (field, v) ∈ members := by
  rw [valuesIn, List.mem_map]
  constructor
  · rintro ⟨⟨key, w⟩, hmem, rfl⟩
    obtain ⟨hmem, hkey⟩ := List.mem_filter.mp hmem
    have hkey' : key = field := of_decide_eq_true hkey
    exact hkey' ▸ hmem
  · intro h
    exact ⟨(field, v), List.mem_filter.mpr ⟨h, decide_eq_true rfl⟩, rfl⟩

/-- What the first pass knows after some members. -/
def observeMembers (members : List (JsString × Doc)) : Observations :=
  members.foldl observeMember ⟨.empty, [], .empty⟩

/-- Members are observed one after another. -/
theorem observeMembers_snoc (members : List (JsString × Doc)) (member : JsString × Doc) :
    observeMembers (members ++ [member]) = observeMember (observeMembers members) member := by
  rw [observeMembers, List.foldl_append]
  rfl

/-- **What the first pass knows of a field is a fold over its values.** -/
theorem get_observeMembers (members : List (JsString × Doc)) (field : JsString) :
    (observeMembers members).obsByField.get field =
      if valuesIn field members = [] then none
      else some ((valuesIn field members).foldl observe {}) := by
  induction members using List.reverseRecOn with
  | nil => rfl
  | append_singleton members member ih =>
    rw [observeMembers_snoc, valuesIn_snoc]
    simp only [observeMember, InsMap.get_set]
    by_cases h : member.1 = field
    · rw [if_pos h.symm, if_pos h, h, if_neg (by simp), List.foldl_append, ih]
      by_cases hnil : valuesIn field members = []
      · rw [if_pos hnil, hnil]
        rfl
      · rw [if_neg hnil]
        rfl
    · rw [if_neg fun heq => h heq.symm, if_neg h, ih]

/-- The rows with a field are counted by its values. -/
theorem count_observeMembers (members : List (JsString × Doc)) (field : JsString) :
    ((observeMembers members).rowsWithField.get field).getD 0 = (valuesIn field members).length := by
  induction members using List.reverseRecOn with
  | nil => rfl
  | append_singleton members member ih =>
    rw [observeMembers_snoc, valuesIn_snoc]
    simp only [observeMember, InsMap.get_set]
    by_cases h : member.1 = field
    · rw [if_pos h.symm, if_pos h, Option.getD_some, h, ih, List.length_append, List.length_singleton]
    · rw [if_neg fun heq => h heq.symm, if_neg h, ih]

/-- The fields are listed once each, in the order of their first value. -/
theorem fields_observeMembers (members : List (JsString × Doc)) :
    (observeMembers members).orderedFields.Nodup ∧
      ∀ field, field ∈ (observeMembers members).orderedFields ↔ valuesIn field members ≠ [] := by
  induction members using List.reverseRecOn with
  | nil => exact ⟨List.nodup_nil, fun field => by simp [observeMembers, valuesIn]⟩
  | append_singleton members member ih =>
    obtain ⟨hnodup, hmem⟩ := ih
    have hget := get_observeMembers members member.1
    rw [observeMembers_snoc]
    simp only [observeMember]
    by_cases hnew : valuesIn member.1 members = []
    · rw [if_pos hnew] at hget
      have hfresh : member.1 ∉ (observeMembers members).orderedFields :=
        fun h => (hmem member.1).mp h hnew
      rw [hget, Option.isNone_none, if_pos rfl]
      refine ⟨List.nodup_append.mpr ⟨hnodup, List.nodup_singleton _, ?_⟩, ?_⟩
      · rintro a ha b hb rfl
        rw [List.mem_singleton.mp hb] at ha
        exact hfresh ha
      · intro field
        rw [List.mem_append, List.mem_singleton, hmem, valuesIn_snoc]
        by_cases h : member.1 = field
        · simp [h]
        · rw [if_neg h]
          constructor
          · rintro (hne | rfl)
            · exact hne
            · exact absurd rfl h
          · exact Or.inl
    · rw [if_neg hnew] at hget
      rw [hget, Option.isNone_some]
      refine ⟨hnodup, fun field => ?_⟩
      simp only [Bool.false_eq_true, if_false]
      rw [hmem, valuesIn_snoc]
      by_cases h : member.1 = field
      · rw [if_pos h]
        constructor
        · intro _
          simp
        · intro _
          exact h ▸ hnew
      · rw [if_neg h]

/-! ## Kinds -/

/-- A string. -/
def isString : Doc → Bool
  | .str _ => true
  | _ => false

/-- A boolean. -/
def isBoolean : Doc → Bool
  | .bool _ => true
  | _ => false

/-- A whole number of 32 bits. -/
def isInteger : Doc → Bool
  | .num n => isInt32 n
  | _ => false

/-- Any other number. -/
def isNonInteger : Doc → Bool
  | .num n => !isInt32 n
  | _ => false

/-- An object or an array. -/
def isNested : Doc → Bool
  | .arr _ | .obj _ => true
  | _ => false

/-- One value more in an observation. -/
theorem observe_eq (obs : ColumnObservation) (v : Doc) : observe obs v =
    { hasString := obs.hasString || isString v
      hasBoolean := obs.hasBoolean || isBoolean v
      hasInteger := obs.hasInteger || isInteger v
      hasNonInteger := obs.hasNonInteger || isNonInteger v
      hasNestedObject := obs.hasNestedObject || isNested v
      hasNull := obs.hasNull } := by
  cases v with
  | num n =>
    cases h : isInt32 n <;>
      simp [observe, isString, isBoolean, isInteger, isNonInteger, isNested, h]
  | _ => simp [observe, isString, isBoolean, isInteger, isNonInteger, isNested]

/-- What an observation of some values says. -/
theorem foldl_observe (vs : List Doc) (obs : ColumnObservation) : vs.foldl observe obs =
    { hasString := obs.hasString || vs.any isString
      hasBoolean := obs.hasBoolean || vs.any isBoolean
      hasInteger := obs.hasInteger || vs.any isInteger
      hasNonInteger := obs.hasNonInteger || vs.any isNonInteger
      hasNestedObject := obs.hasNestedObject || vs.any isNested
      hasNull := obs.hasNull } := by
  induction vs generalizing obs with
  | nil => simp
  | cons v vs ih => simp [ih, observe_eq, Bool.or_assoc]

/-- The observation of the values of a field. -/
def observed (vs : List Doc) : ColumnObservation where
  hasString := vs.any isString
  hasBoolean := vs.any isBoolean
  hasInteger := vs.any isInteger
  hasNonInteger := vs.any isNonInteger
  hasNestedObject := vs.any isNested

/-- What is observed of a column is the union of what is observed of its values. -/
theorem foldl_observe_empty (vs : List Doc) : vs.foldl observe {} = observed vs := by
  rw [foldl_observe]
  simp [observed]

/-! ## Rows -/

variable {rows : ExportRows} {target : SqlTarget} {table : JsString} {plan : ExportPlan}

/-- The value of a field in a row. -/
def ExportRow.get (row : ExportRow) (field : JsString) : Option Doc := row.members.lookup field

/-- The values of a field over all rows. -/
def columnValues (rows : ExportRows) (field : JsString) : List Doc :=
  rows.filterMap fun row => row.2.get field

/-- A row has at most one value in a field. -/
theorem valuesIn_row (row : ExportRow) (field : JsString) :
    valuesIn field row.members = (row.get field).toList := by
  obtain ⟨members, hnodup⟩ := row
  simp only [ExportRow.get]
  induction members with
  | nil => rfl
  | cons member members ih =>
    obtain ⟨key, v⟩ := member
    rw [List.map_cons, List.nodup_cons] at hnodup
    by_cases h : key = field
    · subst h
      have hrest : valuesIn key members = [] := by
        rw [List.eq_nil_iff_forall_not_mem]
        intro w hw
        exact hnodup.1 (List.mem_map.mpr ⟨(key, w), mem_valuesIn.mp hw, rfl⟩)
      simp only [valuesIn] at hrest ⊢
      simp [hrest]
    · have ih' := ih hnodup.2
      have hne : (field == key) = false := beq_eq_false_iff_ne.mpr fun heq => h heq.symm
      rw [List.lookup_cons, hne, ← ih']
      simp [valuesIn, h]

/-- The first pass sees every value of a field once. -/
theorem valuesIn_rows (rows : ExportRows) (field : JsString) :
    valuesIn field (rows.flatMap fun row => row.2.members) = columnValues rows field := by
  induction rows with
  | nil => rfl
  | cons row rows ih =>
    rw [valuesIn, columnValues] at ih
    rw [columnValues, List.flatMap_cons, valuesIn, List.filter_append, List.map_append, ih,
      List.filterMap_cons]
    have hrow := valuesIn_row row.2 field
    rw [valuesIn] at hrow
    rw [hrow]
    cases row.2.get field with
    | none => rfl
    | some v => rfl

/-- The values of a column are those of the rows. -/
theorem mem_columnValues {field : JsString} {v : Doc} :
    v ∈ columnValues rows field ↔ ∃ row ∈ rows, row.2.get field = some v := by
  rw [columnValues, List.mem_filterMap]

/-- A field is missing somewhere iff it has fewer values than there are rows. -/
theorem length_columnValues_lt {field : JsString} :
    (columnValues rows field).length < rows.length ↔ ∃ row ∈ rows, row.2.get field = none := by
  have hle : (columnValues rows field).length ≤ rows.length := List.length_filterMap_le _ _
  have hall : (columnValues rows field).length = rows.length ↔
      ∀ row ∈ rows, (row.2.get field).isSome = true := List.filterMap_length_eq_length
  constructor
  · intro hlt
    by_contra hnone
    have hfull := hall.mpr fun row hrow => by
      cases hget : row.2.get field with
      | none => exact absurd ⟨row, hrow, hget⟩ hnone
      | some v => rfl
    omega
  · rintro ⟨row, hrow, hget⟩
    rcases Nat.lt_or_ge (columnValues rows field).length rows.length with hlt | hge
    · exact hlt
    · have hsome := hall.mp (Nat.le_antisymm hle hge) row hrow
      rw [hget] at hsome
      cases hsome

/-- The value of a field is nested in some row. -/
def Nested (rows : ExportRows) (field : JsString) : Prop :=
  ∃ row ∈ rows, ∃ v, row.2.get field = some v ∧ isNested v = true

/-! ## Columns -/

/-- A column is JSON text iff a nested value was seen. -/
theorem pickSqlType_json (obs : ColumnObservation) (target : SqlTarget) :
    (pickSqlType obs target).2 = obs.hasNestedObject := by
  unfold pickSqlType
  cases obs.hasNestedObject with
  | true => rfl
  | false => simp only [Bool.false_eq_true, if_false, apply_ite Prod.snd, ite_self]

/-- What a column says about its field. -/
structure ColumnOf (rows : ExportRows) (target : SqlTarget) (c : ColumnPlan) : Prop where
  ne_id : c.source ≠ idField
  identifier : quoteIdentifier c.source = .ok c.identifier
  pick : pickSqlType (observed (columnValues rows c.source)) target = (c.sqlType, c.jsonEncoded)
  nullable : c.nullable = true ↔ ∃ row ∈ rows, row.2.get c.source = none

/-- That is, iff some row has one. -/
theorem ColumnOf.jsonEncoded_iff {c : ColumnPlan} (h : ColumnOf rows target c) :
    c.jsonEncoded = true ↔ Nested rows c.source := by
  have hjson := pickSqlType_json (observed (columnValues rows c.source)) target
  rw [h.pick] at hjson
  have hflag : c.jsonEncoded = (columnValues rows c.source).any isNested := hjson
  rw [hflag, List.any_eq_true]
  constructor
  · rintro ⟨v, hv, hnested⟩
    obtain ⟨row, hrow, hget⟩ := mem_columnValues.mp hv
    exact ⟨row, hrow, v, hget, hnested⟩
  · rintro ⟨row, hrow, v, hget, hnested⟩
    exact ⟨v, mem_columnValues.mpr ⟨row, hrow, hget⟩, hnested⟩

/-- What a plan says about the rows. -/
structure PlanOf (rows : ExportRows) (target : SqlTarget) (table : JsString) (plan : ExportPlan)
    (idIdentifier : JsString) (fieldColumns : List ColumnPlan) : Prop where
  target_eq : plan.target = target
  table_eq : plan.table = table
  tableIdentifier : quoteIdentifier table = .ok plan.tableIdentifier
  quoted_id : quoteIdentifier idField = .ok idIdentifier
  columns : plan.columns = idColumn target idIdentifier :: fieldColumns
  nodup : (fieldColumns.map ColumnPlan.source).Nodup
  column : ∀ c ∈ fieldColumns, ColumnOf rows target c
  mem_iff : ∀ field, field ∈ fieldColumns.map ColumnPlan.source ↔
    field ≠ idField ∧ columnValues rows field ≠ []

/-- **A column's plan**, from what was observed of it. -/
theorem columnFor_ok {seen : Observations} {total : Nat} {field : JsString}
    {obs : ColumnObservation} {c : ColumnPlan}
    (h : columnFor seen target total field obs = .ok c) :
    c.source = field ∧ quoteIdentifier field = .ok c.identifier ∧
      pickSqlType obs target = (c.sqlType, c.jsonEncoded) ∧
      c.nullable = (obs.hasNull || decide ((seen.rowsWithField.get field).getD 0 < total)) := by
  unfold columnFor at h
  cases hquote : quoteIdentifier field with
  | error e =>
    rw [hquote] at h
    cases h
  | ok identifier =>
    rw [hquote] at h
    cases h
    exact ⟨rfl, rfl, rfl, rfl⟩

/-- So for every field but `_id`, in their order. -/
theorem columnsFor_ok {seen : Observations} {total : Nat} {fields : List JsString}
    {cs : List ColumnPlan} (hseen : ∀ f ∈ fields, (seen.obsByField.get f).isSome = true)
    (h : columnsFor seen target total fields = .ok cs) :
    cs.map ColumnPlan.source = fields.filter (· ≠ idField) ∧
      ∀ c ∈ cs, ∃ obs, seen.obsByField.get c.source = some obs ∧
        columnFor seen target total c.source obs = .ok c := by
  induction fields generalizing cs with
  | nil =>
    cases h
    exact ⟨rfl, fun c hc => absurd hc List.not_mem_nil⟩
  | cons field fields ih =>
    have hrest : ∀ f ∈ fields, (seen.obsByField.get f).isSome = true :=
      fun f hf => hseen f (List.mem_cons_of_mem field hf)
    rw [columnsFor] at h
    by_cases hid : field = idField
    · rw [if_pos hid] at h
      rw [List.filter_cons_of_neg (by simp [hid])]
      exact ih hrest h
    · rw [if_neg hid] at h
      rw [List.filter_cons_of_pos (by simp [hid])]
      obtain ⟨obs, hobs⟩ := Option.isSome_iff_exists.mp (hseen field List.mem_cons_self)
      simp only [hobs] at h
      cases hcol : columnFor seen target total field obs with
      | error e =>
        rw [hcol] at h
        cases h
      | ok c =>
        cases hcols : columnsFor seen target total fields with
        | error e =>
          rw [hcol, hcols] at h
          cases h
        | ok rest =>
          rw [hcol, hcols] at h
          cases h
          obtain ⟨hsources, hcolumns⟩ := ih hrest hcols
          have hsource := (columnFor_ok hcol).1
          refine ⟨by rw [List.map_cons, hsources, hsource], ?_⟩
          intro d hd
          rcases List.mem_cons.mp hd with rfl | hd
          · rw [hsource]
            exact ⟨obs, hobs, hcol⟩
          · exact hcolumns d hd

/-- **What the planner infers.** -/
theorem inferPlan_planOf (h : inferPlanForCollection rows target table = .ok plan) :
    ∃ idIdentifier fieldColumns, PlanOf rows target table plan idIdentifier fieldColumns := by
  unfold inferPlanForCollection at h
  have hget : ∀ f, (observeRows rows).obsByField.get f =
      if columnValues rows f = [] then none else some (observed (columnValues rows f)) := fun f => by
    have hfold := get_observeMembers (rows.flatMap fun row => row.2.members) f
    rw [valuesIn_rows, foldl_observe_empty] at hfold
    exact hfold
  have hcount : ∀ f, ((observeRows rows).rowsWithField.get f).getD 0 =
      (columnValues rows f).length := fun f => by
    have hlen := count_observeMembers (rows.flatMap fun row => row.2.members) f
    rw [valuesIn_rows] at hlen
    exact hlen
  have hfields := fields_observeMembers (rows.flatMap fun row => row.2.members)
  have hmem : ∀ f, f ∈ (observeRows rows).orderedFields ↔ columnValues rows f ≠ [] := fun f => by
    have hiff := hfields.2 f
    rw [valuesIn_rows] at hiff
    exact hiff
  cases hid : quoteIdentifier idField with
  | error e =>
    rw [hid] at h
    cases h
  | ok idIdentifier =>
    cases hcols : columnsFor (observeRows rows) target rows.length (observeRows rows).orderedFields with
    | error e =>
      simp only [hid, hcols] at h
      cases h
    | ok cs =>
      cases htable : quoteIdentifier table with
      | error e =>
        simp only [hid, hcols, htable] at h
        cases h
      | ok tableIdentifier =>
        simp only [hid, hcols, htable] at h
        cases h
        have hsome : ∀ f ∈ (observeRows rows).orderedFields,
            ((observeRows rows).obsByField.get f).isSome = true := fun f hf => by
          rw [hget, if_neg ((hmem f).mp hf)]
          rfl
        obtain ⟨hsources, hcolumns⟩ := columnsFor_ok hsome hcols
        refine ⟨idIdentifier, cs, rfl, rfl, htable, hid, rfl, ?_, ?_, ?_⟩
        · rw [hsources]
          exact hfields.1.filter _
        · intro c hc
          obtain ⟨obs, hobs, hcol⟩ := hcolumns c hc
          obtain ⟨-, hquote, hpick, hnull⟩ := columnFor_ok hcol
          have hsource : c.source ∈ (observeRows rows).orderedFields.filter (· ≠ idField) := by
            rw [← hsources]
            exact List.mem_map_of_mem hc
          have hne : c.source ≠ idField := of_decide_eq_true (List.mem_filter.mp hsource).2
          have hvalues := (hmem c.source).mp (List.mem_filter.mp hsource).1
          rw [hget, if_neg hvalues] at hobs
          cases hobs
          refine ⟨hne, hquote, hpick, ?_⟩
          rw [hnull, hcount, ← length_columnValues_lt]
          simp [observed]
        · intro field
          rw [hsources, List.mem_filter, hmem, decide_eq_true_eq]
          exact and_comm

/-! ## Rows that are written -/

variable {N : NumberText} {idIdentifier : JsString} {fieldColumns : List ColumnPlan}

/-- The row lacks a field that it inherits under the same name: the row writer reads a function, or
    `Object.prototype` where the column is no JSON text, and the quoter throws. -/
def Throws (rows : ExportRows) (row : JsString × ExportRow) : Prop :=
  ∃ field, field ≠ idField ∧ columnValues rows field ≠ [] ∧ row.2.get field = none ∧
    (field ∈ inheritedMethods ∨ (field = protoName ∧ ¬ Nested rows field))

/-- The export gets as far as this row. -/
def Reached (rows : ExportRows) (row : JsString × ExportRow) : Prop :=
  ∃ front back, rows = front ++ row :: back ∧ (∀ r ∈ front, ¬ Throws rows r) ∧ ¬ Throws rows row

/-- A string between its quotes. -/
def quotedText (s : JsString) : JsString := 39 :: (double 39 s ++ [39])

theorem quoteValue_str (s : JsString) : quoteValue N target (.str s) = .ok (quotedText s) := rfl

/-- A boolean is a bit, but for Postgres. -/
theorem quoteValue_bool (b : Bool) : quoteValue N target (.bool b) =
    .ok (if target = .postgres then (if b then js "true" else js "false")
      else (if b then js "1" else js "0")) := by
  rw [quoteValue]
  split
  next => rfl
  next => rfl

/-- Every value that is not nested is quoted. -/
theorem quoteValue_ok {v : Doc} (h : isNested v = false) : ∃ s, quoteValue N target v = .ok s := by
  cases v with
  | null => exact ⟨_, rfl⟩
  | str s => exact ⟨_, rfl⟩
  | num n => exact ⟨_, rfl⟩
  | bool b => exact ⟨_, quoteValue_bool b⟩
  | arr xs => cases h
  | obj ms => cases h

/-! One lemma per answer of `body[source]`. -/

/-- The `_id` column has the row's key. -/
theorem literalFor_id {c : ColumnPlan} (hc : c.source = idField) (hjson : c.jsonEncoded = false)
    (id : JsString) (body : ExportRow) : literalFor N target id body c = .ok (quotedText id) := by
  simp [literalFor, hc, hjson, quoteValue_str]

/-- A field the row has is quoted, as JSON text where the column is. -/
theorem literalFor_value {c : ColumnPlan} (hc : c.source ≠ idField) (id : JsString)
    {body : ExportRow} {v : Doc} (h : body.get c.source = some v) :
    literalFor N target id body c = if c.jsonEncoded then .ok (quotedText (JSON.stringify N v))
      else quoteValue N target v := by
  have hlookup : body.members.lookup c.source = some v := h
  simp only [literalFor, hc, if_false, readProperty, readMember_own hlookup, quoteValue_str]

/-- `__proto__`, which the row lacks, is read as an empty object. -/
theorem literalFor_proto {c : ColumnPlan} (hc : c.source = protoName) (id : JsString)
    {body : ExportRow} (h : body.get c.source = none) :
    literalFor N target id body c = if c.jsonEncoded then .ok (quotedText (js "\x7b\x7d"))
      else .error nestedObject := by
  have hid : protoName ≠ idField := by decide
  have hlookup : body.members.lookup c.source = none := h
  rw [hc] at hlookup
  simp only [literalFor, hc, hid, if_false, readProperty, readMember_inherited hlookup, inherited,
    if_true, quoteValue_str]

/-- An inherited function cannot be quoted. -/
theorem literalFor_method {c : ColumnPlan} (hc : c.source ∈ inheritedMethods) (id : JsString)
    {body : ExportRow} (h : body.get c.source = none) :
    literalFor N target id body c = .error nestedObject := by
  have hid : c.source ≠ idField := by
    intro heq
    rw [heq] at hc
    exact absurd hc (by decide)
  have hproto : c.source ≠ protoName := by
    intro heq
    rw [heq] at hc
    exact absurd hc (by decide)
  have hlookup : body.members.lookup c.source = none := h
  have hcontains : inheritedMethods.contains c.source = true := List.contains_iff_mem.mpr hc
  simp only [literalFor, hid, if_false, readProperty, readMember_inherited hlookup, inherited, hproto,
    hcontains, if_true]

/-- Any other field the row lacks is `NULL`. -/
theorem literalFor_undefined {c : ColumnPlan} (hc : c.source ≠ idField)
    (hproto : c.source ≠ protoName) (hmethod : c.source ∉ inheritedMethods) (id : JsString)
    {body : ExportRow} (h : body.get c.source = none) :
    literalFor N target id body c = .ok (js "NULL") := by
  have hlookup : body.members.lookup c.source = none := h
  have hcontains : ¬ inheritedMethods.contains c.source = true :=
    fun hmem => hmethod (List.contains_iff_mem.mp hmem)
  simp only [literalFor, hc, if_false, readProperty, readMember_inherited hlookup, inherited, hproto,
    hcontains, Bool.false_eq_true]

/-- A flat column meets no nested value. -/
theorem ColumnOf.flat {c : ColumnPlan} (h : ColumnOf rows target c) (hflat : c.jsonEncoded = false)
    {row : JsString × ExportRow} (hrow : row ∈ rows) {v : Doc} (hget : row.2.get c.source = some v) :
    isNested v = false := by
  cases hnested : isNested v with
  | false => rfl
  | true =>
    have hjson := h.jsonEncoded_iff.mpr ⟨row, hrow, v, hget, hnested⟩
    rw [hflat] at hjson
    cases hjson

/-- When the literal of a column throws. -/
theorem literalFor_error_iff {c : ColumnPlan} (hc : ColumnOf rows target c)
    {row : JsString × ExportRow} (hrow : row ∈ rows) :
    (∃ e, literalFor N target row.1 row.2 c = .error e) ↔ row.2.get c.source = none ∧
      (c.source ∈ inheritedMethods ∨ (c.source = protoName ∧ ¬ Nested rows c.source)) := by
  cases hget : row.2.get c.source with
  | some v =>
    rw [literalFor_value hc.ne_id row.1 hget]
    constructor
    · rintro ⟨e, he⟩
      cases hjson : c.jsonEncoded with
      | true =>
        rw [hjson] at he
        cases he
      | false =>
        obtain ⟨s, hs⟩ := @quoteValue_ok target N v (hc.flat hjson hrow hget)
        rw [hjson, hs] at he
        cases he
    · rintro ⟨hnone, -⟩
      cases hnone
  | none =>
    by_cases hmethod : c.source ∈ inheritedMethods
    · rw [literalFor_method hmethod row.1 hget]
      exact ⟨fun _ => ⟨rfl, Or.inl hmethod⟩, fun _ => ⟨_, rfl⟩⟩
    · by_cases hproto : c.source = protoName
      · rw [literalFor_proto hproto row.1 hget, ← hc.jsonEncoded_iff]
        cases c.jsonEncoded with
        | true =>
          constructor
          · rintro ⟨e, he⟩
            cases he
          · rintro ⟨-, hm | ⟨-, hn⟩⟩
            · exact absurd hm hmethod
            · exact absurd rfl hn
        | false => exact ⟨fun _ => ⟨rfl, Or.inr ⟨hproto, by decide⟩⟩, fun _ => ⟨_, rfl⟩⟩
      · rw [literalFor_undefined hc.ne_id hproto hmethod row.1 hget]
        constructor
        · rintro ⟨e, he⟩
          cases he
        · rintro ⟨-, hm | ⟨hp, -⟩⟩
          · exact absurd hm hmethod
          · exact absurd hp hproto

/-- The values of a row, column by column. -/
theorem rowValues_ok_iff {row : JsString × ExportRow} {columns : List ColumnPlan}
    {values : List JsString} : rowValues N target row columns = .ok values ↔
      List.Forall₂ (fun c v => literalFor N target row.1 row.2 c = .ok v) columns values := by
  induction columns generalizing values with
  | nil =>
    rw [rowValues, List.forall₂_nil_left_iff]
    constructor
    · intro h
      cases h
      rfl
    · rintro rfl
      rfl
  | cons c columns ih =>
    rw [rowValues, List.forall₂_cons_left_iff]
    cases hc : literalFor N target row.1 row.2 c with
    | error e =>
      constructor
      · intro h
        cases h
      · rintro ⟨v, vs, hv, -⟩
        cases hv
    | ok v =>
      cases hrest : rowValues N target row columns with
      | error e =>
        constructor
        · intro h
          cases h
        · rintro ⟨w, ws, -, hws, -⟩
          rw [ih.mpr hws] at hrest
          cases hrest
      | ok vs =>
        constructor
        · intro h
          cases h
          exact ⟨v, vs, rfl, ih.mp hrest, rfl⟩
        · rintro ⟨w, ws, hw, hws, rfl⟩
          cases hw
          rw [ih.mpr hws] at hrest
          cases hrest
          rfl

/-- A row throws iff one of its columns does. -/
theorem rowValues_error_iff {row : JsString × ExportRow} {columns : List ColumnPlan} :
    (∃ e, rowValues N target row columns = .error e) ↔
      ∃ c ∈ columns, ∃ e, literalFor N target row.1 row.2 c = .error e := by
  induction columns with
  | nil =>
    constructor
    · rintro ⟨e, he⟩
      cases he
    · rintro ⟨c, hc, -⟩
      cases hc
  | cons c columns ih =>
    rw [rowValues]
    cases hc : literalFor N target row.1 row.2 c with
    | error e => exact ⟨fun _ => ⟨c, List.mem_cons_self, e, hc⟩, fun _ => ⟨e, rfl⟩⟩
    | ok v =>
      have hskip : (∃ d ∈ c :: columns, ∃ e, literalFor N target row.1 row.2 d = .error e) ↔
          ∃ d ∈ columns, ∃ e, literalFor N target row.1 row.2 d = .error e := by
        constructor
        · rintro ⟨d, hd, e, he⟩
          rcases List.mem_cons.mp hd with rfl | hd
          · rw [hc] at he
            cases he
          · exact ⟨d, hd, e, he⟩
        · rintro ⟨d, hd, he⟩
          exact ⟨d, List.mem_cons_of_mem c hd, he⟩
      rw [hskip, ← ih]
      cases rowValues N target row columns with
      | error e => exact ⟨fun _ => ⟨e, rfl⟩, fun _ => ⟨e, rfl⟩⟩
      | ok vs =>
        constructor
        · rintro ⟨e, he⟩
          cases he
        · rintro ⟨e, he⟩
          cases he

/-- **A row throws exactly if it lacks a field it inherits.** -/
theorem PlanOf.error_iff (h : PlanOf rows target table plan idIdentifier fieldColumns)
    {row : JsString × ExportRow} (hrow : row ∈ rows) :
    (∃ e, rowValues N plan.target row plan.columns = .error e) ↔ Throws rows row := by
  rw [rowValues_error_iff, h.columns, h.target_eq]
  constructor
  · rintro ⟨c, hc, e, he⟩
    rcases List.mem_cons.mp hc with rfl | hc
    · rw [literalFor_id rfl rfl] at he
      cases he
    · have hcolumn := h.column c hc
      obtain ⟨hnone, hkind⟩ := (literalFor_error_iff hcolumn hrow).mp ⟨e, he⟩
      have hfield := (h.mem_iff c.source).mp (List.mem_map_of_mem hc)
      exact ⟨c.source, hfield.1, hfield.2, hnone, hkind⟩
  · rintro ⟨field, hne, hvalues, hnone, hkind⟩
    obtain ⟨c, hc, rfl⟩ := List.mem_map.mp ((h.mem_iff field).mpr ⟨hne, hvalues⟩)
    obtain ⟨e, he⟩ := (literalFor_error_iff (h.column c hc) hrow).mpr ⟨hnone, hkind⟩
    exact ⟨c, List.mem_cons_of_mem _ hc, e, he⟩

/-- **A row is written** iff it lacks no field it inherits. -/
theorem PlanOf.ok_iff (h : PlanOf rows target table plan idIdentifier fieldColumns)
    {row : JsString × ExportRow} (hrow : row ∈ rows) :
    (∃ values, rowValues N plan.target row plan.columns = .ok values) ↔ ¬ Throws rows row := by
  rw [← h.error_iff hrow (N := N)]
  cases rowValues N plan.target row plan.columns with
  | error e => simp
  | ok values => simp

/-- Which rows are written. -/
theorem mem_writtenRows {rs : ExportRows} {row : JsString × ExportRow} {values : List JsString} :
    (row, values) ∈ writtenRows N plan rs ↔ ∃ front back, rs = front ++ row :: back ∧
      (∀ r ∈ front, ∃ vs, rowValues N plan.target r plan.columns = .ok vs) ∧
      rowValues N plan.target row plan.columns = .ok values := by
  induction rs with
  | nil =>
    constructor
    · intro h
      cases h
    · rintro ⟨front, back, h, -⟩
      exact absurd h (by simp)
  | cons r rs ih =>
    rw [writtenRows]
    cases hr : rowValues N plan.target r plan.columns with
    | error e =>
      constructor
      · intro h
        cases h
      · rintro ⟨front, back, hsplit, hfront, hvalues⟩
        cases front with
        | nil =>
          obtain ⟨rfl, -⟩ := List.cons.inj hsplit
          rw [hr] at hvalues
          cases hvalues
        | cons f front =>
          obtain ⟨rfl, -⟩ := List.cons.inj hsplit
          obtain ⟨vs, hvs⟩ := hfront r List.mem_cons_self
          rw [hr] at hvs
          cases hvs
    | ok vs =>
      simp only [List.mem_cons]
      constructor
      · rintro (heq | hmem)
        · obtain ⟨rfl, rfl⟩ := Prod.mk.inj heq
          exact ⟨[], rs, rfl, fun r hr => absurd hr List.not_mem_nil, hr⟩
        · obtain ⟨front, back, rfl, hfront, hvalues⟩ := ih.mp hmem
          refine ⟨r :: front, back, rfl, ?_, hvalues⟩
          intro f hf
          rcases List.mem_cons.mp hf with rfl | hf
          · exact ⟨vs, hr⟩
          · exact hfront f hf
      · rintro ⟨front, back, hsplit, hfront, hvalues⟩
        cases front with
        | nil =>
          obtain ⟨rfl, -⟩ := List.cons.inj hsplit
          rw [hr] at hvalues
          cases hvalues
          exact Or.inl rfl
        | cons f front =>
          obtain ⟨rfl, htail⟩ := List.cons.inj hsplit
          exact Or.inr (ih.mpr ⟨front, back, htail,
            fun g hg => hfront g (List.mem_cons_of_mem r hg), hvalues⟩)

/-- **The rows that are written are those the export reaches.** -/
theorem PlanOf.written_iff (h : PlanOf rows target table plan idIdentifier fieldColumns)
    {row : JsString × ExportRow} {values : List JsString} :
    (row, values) ∈ writtenRows N plan rows ↔
      Reached rows row ∧ rowValues N plan.target row plan.columns = .ok values := by
  rw [mem_writtenRows]
  constructor
  · rintro ⟨front, back, hsplit, hfront, hvalues⟩
    have hrow : row ∈ rows := by
      rw [hsplit]
      simp
    have hmem : ∀ r ∈ front, r ∈ rows := fun r hr => by
      rw [hsplit]
      exact List.mem_append_left _ hr
    exact ⟨⟨front, back, hsplit, fun r hr => (h.ok_iff (hmem r hr)).mp (hfront r hr),
      (h.ok_iff hrow).mp ⟨values, hvalues⟩⟩, hvalues⟩
  · rintro ⟨⟨front, back, hsplit, hfront, -⟩, hvalues⟩
    have hmem : ∀ r ∈ front, r ∈ rows := fun r hr => by
      rw [hsplit]
      exact List.mem_append_left _ hr
    exact ⟨front, back, hsplit, fun r hr => (h.ok_iff (hmem r hr)).mpr (hfront r hr), hvalues⟩

/-- A row the export gets to is one of the rows. -/
theorem Reached.mem {row : JsString × ExportRow} (h : Reached rows row) : row ∈ rows := by
  obtain ⟨front, back, hsplit, -⟩ := h
  rw [hsplit]
  simp

end Baerly.Export
