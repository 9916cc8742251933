import Baerly.Verify.Export

/-
  When an exported script accepts its own rows.

  SPEC (`acceptsOwnRows_iff`): the statement is about the whole script.  It holds iff no two names
  differ by ASCII case only (where the target compares them so) and no row that is written has a
  `null` in a field that every row has and that is nowhere nested.

  CRUX: the planner calls a column nullable iff some row lacks its field; a `null` member is not
  looked at, but the row writer writes `NULL` for it.  Everything else holds of every plan: the
  planner has one column per field, and picks the 32-bit type only if all numbers fit it.
-/

namespace Baerly.Export

variable {N : NumberText} {rows : ExportRows} {target : SqlTarget} {table : JsString}
  {plan : ExportPlan} {idIdentifier : JsString} {fieldColumns : List ColumnPlan}

/-! ## Identifiers -/

/-- Doubling the quotes loses nothing. -/
theorem double_injective (q : Fin 65536) : Function.Injective (double q) := by
  intro s t h
  induction s generalizing t with
  | nil =>
    cases t with
    | nil => rfl
    | cons v t =>
      rw [double, double] at h
      split at h <;> cases h
  | cons u s ih =>
    cases t with
    | nil =>
      rw [double, double] at h
      split at h <;> cases h
    | cons v t =>
      rw [double, double] at h
      by_cases hu : u = q
      · by_cases hv : v = q
        · rw [if_pos hu, if_pos hv] at h
          rw [hu, hv, ih (List.cons.inj (List.cons.inj h).2).2]
        · rw [if_pos hu, if_neg hv] at h
          exact absurd (List.cons.inj h).1.symm hv
      · by_cases hv : v = q
        · rw [if_neg hu, if_pos hv] at h
          exact absurd (List.cons.inj h).1 hu
        · rw [if_neg hu, if_neg hv] at h
          obtain ⟨rfl, htail⟩ := List.cons.inj h
          rw [ih htail]

/-- Folding makes no quote and takes none away. -/
theorem lowerUnit_quote {u : Fin 65536} : lowerUnit u = 34 ↔ u = 34 := by
  unfold lowerUnit
  split
  next h =>
    constructor
    · intro heq
      have hval := congrArg Fin.val heq
      have hsum : (Fin.ofNat 65536 (u.val + 32)).val = u.val + 32 := Nat.mod_eq_of_lt (by omega)
      rw [hsum] at hval
      have h34 : (34 : Fin 65536).val = 34 := rfl
      omega
    · rintro rfl
      exact absurd h (by decide)
  next => exact Iff.rfl

/-- So names can be folded before or after they are quoted. -/
theorem map_double (s : JsString) : (double 34 s).map lowerUnit = double 34 (s.map lowerUnit) := by
  have hquote : lowerUnit 34 = 34 := lowerUnit_quote.mpr rfl
  induction s with
  | nil => rfl
  | cons u s ih =>
    rw [double, List.map_cons, double]
    by_cases hu : u = 34
    · rw [if_pos hu, if_pos (lowerUnit_quote.mpr hu), List.map_cons, List.map_cons, hquote, ih]
    · rw [if_neg hu, if_neg fun h => hu (lowerUnit_quote.mp h), List.map_cons, ih]

/-- The identifier of a name. -/
def identifierOf (name : JsString) : JsString := 34 :: (double 34 name ++ [34])

/-- A name that is quoted is quoted in one way. -/
theorem quoteIdentifier_eq {name identifier : JsString}
    (h : quoteIdentifier name = .ok identifier) : identifier = identifierOf name := by
  unfold quoteIdentifier at h
  split at h
  next => cases h
  next =>
    split at h
    next => cases h
    next =>
      cases h
      rfl

/-- Different names have different identifiers. -/
theorem identifierOf_injective : Function.Injective identifierOf := by
  intro a b h
  exact double_injective 34 (List.append_cancel_right (List.cons.inj h).2)

/-- What the target compares names by. -/
def foldName (target : SqlTarget) (name : JsString) : JsString :=
  if target = .postgres then name else name.map lowerUnit

/-- Folding an identifier folds its name. -/
theorem foldName_identifierOf (target : SqlTarget) (name : JsString) :
    foldName target (identifierOf name) = identifierOf (foldName target name) := by
  unfold foldName
  split
  next => rfl
  next =>
    rw [identifierOf, identifierOf, List.map_cons, List.map_append, map_double]
    rfl

/-- Are two identifiers one to the target?  Exactly for postgres, up to ASCII case for the others. -/
def sameIdentifier (target : SqlTarget) (a b : JsString) : Prop :=
  foldName target a = foldName target b

/-- A database takes two columns for one iff it folds their names to one. -/
theorem sameIdentifier_iff (target : SqlTarget) (a b : JsString) :
    sameIdentifier target (identifierOf a) (identifierOf b) ↔
      foldName target a = foldName target b := by
  rw [sameIdentifier, foldName_identifierOf, foldName_identifierOf, identifierOf_injective.eq_iff]

/-- A plan has one column for each field. -/
theorem PlanOf.sources_nodup (h : PlanOf rows target table plan idIdentifier fieldColumns) :
    (plan.columns.map ColumnPlan.source).Nodup := by
  rw [h.columns, List.map_cons, List.nodup_cons]
  exact ⟨fun hmem => ((h.mem_iff _).mp hmem).1 rfl, h.nodup⟩

/-- It has one for `_id` and for each field with a value in some row. -/
theorem PlanOf.mem_sources (h : PlanOf rows target table plan idIdentifier fieldColumns)
    {name : JsString} : name ∈ plan.columns.map ColumnPlan.source ↔
      name = idField ∨ columnValues rows name ≠ [] := by
  rw [h.columns, List.map_cons, List.mem_cons, h.mem_iff]
  constructor
  · rintro (heq | ⟨-, hvalues⟩)
    · exact Or.inl heq
    · exact Or.inr hvalues
  · rintro (heq | hvalues)
    · exact Or.inl heq
    · by_cases hid : name = idField
      · exact Or.inl hid
      · exact Or.inr ⟨hid, hvalues⟩

/-- Each is named after its field. -/
theorem PlanOf.identifiers (h : PlanOf rows target table plan idIdentifier fieldColumns) :
    ∀ c ∈ plan.columns, c.identifier = identifierOf c.source := by
  rw [h.columns]
  intro c hc
  rcases List.mem_cons.mp hc with rfl | hc
  · exact quoteIdentifier_eq h.quoted_id
  · exact quoteIdentifier_eq (h.column c hc).identifier

/-- Two names of columns that differ by ASCII case only. -/
def CaseTwins (rows : ExportRows) : Prop :=
  ∃ a b, a ≠ b ∧ (a = idField ∨ columnValues rows a ≠ []) ∧ (b = idField ∨ columnValues rows b ≠ []) ∧
    a.map lowerUnit = b.map lowerUnit

/-- **The identifiers are distinct unless two names differ by case only.** -/
theorem PlanOf.distinct_iff (h : PlanOf rows target table plan idIdentifier fieldColumns) :
    (plan.columns.Pairwise fun a b => ¬ sameIdentifier target a.identifier b.identifier) ↔
      target = .postgres ∨ ¬ CaseTwins rows := by
  have hfold : (plan.columns.Pairwise fun a b => ¬ sameIdentifier target a.identifier b.identifier) ↔
      ((plan.columns.map ColumnPlan.source).map (foldName target)).Nodup := by
    rw [List.map_map, List.Nodup, List.pairwise_map]
    refine List.Pairwise.iff_of_mem fun {a b} ha hb => ?_
    rw [h.identifiers a ha, h.identifiers b hb, sameIdentifier_iff]
    rfl
  rw [hfold, List.nodup_map_iff_inj_on h.sources_nodup]
  by_cases hpg : target = .postgres
  · refine ⟨fun _ => Or.inl hpg, fun _ a _ b _ heq => ?_⟩
    simpa [foldName, hpg] using heq
  · have hlower : ∀ name, foldName target name = name.map lowerUnit := fun name => if_neg hpg
    constructor
    · intro hinj
      right
      rintro ⟨a, b, hne, ha, hb, heq⟩
      exact hne (hinj a (h.mem_sources.mpr ha) b (h.mem_sources.mpr hb)
        (by rw [hlower, hlower, heq]))
    · rintro (hpg' | htwins)
      · exact absurd hpg' hpg
      · intro a ha b hb heq
        by_contra hne
        rw [hlower, hlower] at heq
        exact htwins ⟨a, b, hne, h.mem_sources.mp ha, h.mem_sources.mp hb, heq⟩

/-! ## Literals -/

/-- A quoted text is never `NULL`. -/
theorem null_ne_quotedText (s : JsString) : quotedText s ≠ js "NULL" := by
  intro h
  exact absurd (List.cons.inj h).1 (by decide)

/-- Nor is a number. -/
theorem text_ne_null (n : JsNumber) : N.text n ≠ js "NULL" := by
  obtain ⟨u, us, htext, hu⟩ := N.starts n
  rw [htext]
  intro h
  have hN : u = 78 := (List.cons.inj h).1
  rw [hN] at hu
  exact absurd hu (by decide)

/-- Only `null` is quoted to `NULL`. -/
theorem quoteValue_null_iff {v : Doc} {s : JsString} (h : quoteValue N target v = .ok s) :
    s = js "NULL" ↔ v = .null := by
  cases v with
  | null =>
    cases h
    simp
  | str t =>
    cases h
    exact ⟨fun heq => absurd heq (null_ne_quotedText t), fun heq => by cases heq⟩
  | num n =>
    cases h
    exact ⟨fun heq => absurd heq (text_ne_null n), fun heq => by cases heq⟩
  | bool b =>
    rw [quoteValue_bool] at h
    cases h
    constructor
    · intro heq
      cases b <;> cases target <;> exact absurd heq (by decide)
    · intro heq
      cases heq
  | arr xs => cases h
  | obj ms => cases h

/-- A flat column that every row has writes `NULL` exactly for `null`. -/
theorem literalFor_null_iff {c : ColumnPlan} (hc : ColumnOf rows target c)
    (hnullable : c.nullable = false) {row : JsString × ExportRow} (hrow : row ∈ rows)
    {literal : JsString} (h : literalFor N target row.1 row.2 c = .ok literal) :
    literal = js "NULL" ↔ c.jsonEncoded = false ∧ row.2.get c.source = some .null := by
  have hpresent : row.2.get c.source ≠ none := fun hnone => by
    have htrue := hc.nullable.mpr ⟨row, hrow, hnone⟩
    rw [hnullable] at htrue
    cases htrue
  obtain ⟨v, hv⟩ := Option.ne_none_iff_exists'.mp hpresent
  rw [literalFor_value hc.ne_id row.1 hv] at h
  rw [hv]
  cases hjson : c.jsonEncoded with
  | true =>
    rw [hjson, if_pos rfl] at h
    cases h
    exact ⟨fun heq => absurd heq (null_ne_quotedText _), fun heq => absurd heq.1 (by decide)⟩
  | false =>
    rw [hjson, if_neg (by decide)] at h
    rw [quoteValue_null_iff h]
    simp

/-- The 32-bit type is picked only where nothing else was seen. -/
theorem pickSqlType_integer {obs : ColumnObservation} {json : Bool}
    (h : pickSqlType obs target = (.integer, json)) :
    obs.hasNestedObject = false ∧ obs.hasString = false ∧ obs.hasBoolean = false ∧
      obs.hasNonInteger = false := by
  obtain ⟨hasString, hasBoolean, hasInteger, hasNonInteger, hasNestedObject, hasNull⟩ := obs
  cases target <;> cases hasNestedObject <;> cases hasString <;> cases hasBoolean <;>
    cases hasNonInteger <;> cases hasInteger <;> first
      | exact ⟨rfl, rfl, rfl, rfl⟩
      | cases h

/-- **The 32-bit type is picked only for numbers that fit it.** -/
theorem integer_column {c : ColumnPlan} (hc : ColumnOf rows target c) (hint : c.sqlType = .integer) :
    c.jsonEncoded = false ∧ ∀ v ∈ columnValues rows c.source, v = .null ∨ isInteger v = true := by
  have hpick := hc.pick
  rw [hint] at hpick
  obtain ⟨hnested, hstring, hboolean, hnon⟩ := pickSqlType_integer hpick
  have hjson := pickSqlType_json (observed (columnValues rows c.source)) target
  rw [hpick, hnested] at hjson
  refine ⟨hjson, ?_⟩
  intro v hv
  have hfalse : ∀ {p : Doc → Bool}, (columnValues rows c.source).any p = false → p v = false :=
    fun h => by simpa using List.any_eq_false.mp h v hv
  cases v with
  | null => exact Or.inl rfl
  | str s => exact absurd (hfalse hstring) (by simp [isString])
  | bool b => exact absurd (hfalse hboolean) (by simp [isBoolean])
  | num n =>
    have hfits := hfalse hnon
    exact Or.inr (by simpa [isNonInteger, isInteger] using hfits)
  | arr xs => exact absurd (hfalse hnested) (by simp [isNested])
  | obj ms => exact absurd (hfalse hnested) (by simp [isNested])

/-- A number under an `integer` column has 32 bits: the planner looked at every row. -/
theorem integer_literal {c : ColumnPlan} (hc : ColumnOf rows target c) (hint : c.sqlType = .integer)
    {row : JsString × ExportRow} (hrow : row ∈ rows) {literal : JsString}
    (h : literalFor N target row.1 row.2 c = .ok literal) {n : JsNumber} (hn : literal = N.text n) :
    isInt32 n = true := by
  obtain ⟨hjson, hvalues⟩ := integer_column hc hint
  cases hget : row.2.get c.source with
  | none =>
    by_cases hproto : c.source = protoName
    · rw [literalFor_proto hproto row.1 hget, hjson] at h
      cases h
    · by_cases hmethod : c.source ∈ inheritedMethods
      · rw [literalFor_method hmethod row.1 hget] at h
        cases h
      · rw [literalFor_undefined hc.ne_id hproto hmethod row.1 hget] at h
        cases h
        exact absurd hn.symm (text_ne_null n)
  | some v =>
    rw [literalFor_value hc.ne_id row.1 hget, hjson, if_neg (by decide)] at h
    rcases hvalues v (mem_columnValues.mpr ⟨row, hrow, hget⟩) with rfl | hinteger
    · cases h
      exact absurd hn.symm (text_ne_null n)
    · cases v with
      | num m =>
        cases h
        have hmn := congrArg N.value hn
        rw [N.value_text, N.value_text] at hmn
        cases hmn
        exact hinteger
      | _ => cases hinteger

/-! ## The script -/

/-- What it takes for a script to accept its own rows: distinct identifiers in the table it creates,
    and in every `INSERT` one value per column, no `NULL` where the column does not take it, and no
    number too large for a 32-bit column. -/
structure AcceptsOwnRows (N : NumberText) (plan : ExportPlan) (rows : ExportRows) : Prop where
  distinct : ∀ ddl, emitCreateTable plan = .ok ddl →
    plan.columns.Pairwise fun a b => ¬ sameIdentifier plan.target a.identifier b.identifier
  inserts : ∀ row values, (row, values) ∈ writtenRows N plan rows →
    List.Forall₂ (fun c v => (c.nullable = false → v ≠ js "NULL") ∧
      (c.sqlType = .integer → ∀ n, v = N.text n → isInt32 n = true)) plan.columns values

/-- A written row has a `null` in a field that every row has, and that is nowhere nested. -/
def NullInFull (rows : ExportRows) : Prop :=
  ∃ row field, Reached rows row ∧ field ≠ idField ∧ row.2.get field = some .null ∧
    (∀ r ∈ rows, r.2.get field ≠ none) ∧ ¬ Nested rows field

/-- A script is written unless the table has a name that D1 reserves. -/
theorem PlanOf.emits_iff (h : PlanOf rows target table plan idIdentifier fieldColumns) :
    (∃ ddl, emitCreateTable plan = .ok ddl) ↔ ¬ (target = .d1 ∧ reservedTable table = true) := by
  have hne : plan.columns ≠ [] := by
    rw [h.columns]
    exact List.cons_ne_nil _ _
  unfold emitCreateTable
  rw [if_neg hne, h.target_eq, h.table_eq]
  split
  next hreserved => simp [hreserved]
  next hfree => exact ⟨fun _ => hfree, fun _ => ⟨_, rfl⟩⟩

/-- A script that accepts its rows has no `null` under a column that every row fills. -/
theorem PlanOf.not_nullInFull (h : PlanOf rows target table plan idIdentifier fieldColumns)
    (haccepts : AcceptsOwnRows N plan rows) : ¬ NullInFull rows := by
  rintro ⟨row, field, hreached, hne, hnull, hall, hflat⟩
  have hvalues : columnValues rows field ≠ [] :=
    List.ne_nil_of_mem (mem_columnValues.mpr ⟨row, hreached.mem, hnull⟩)
  obtain ⟨c, hc, rfl⟩ := List.mem_map.mp ((h.mem_iff field).mpr ⟨hne, hvalues⟩)
  have hcolumn := h.column c hc
  have hnullable : c.nullable = false := by
    rw [Bool.eq_false_iff]
    intro htrue
    obtain ⟨r, hr, hnone⟩ := hcolumn.nullable.mp htrue
    exact hall r hr hnone
  have hjson : c.jsonEncoded = false := by
    rw [Bool.eq_false_iff]
    exact fun htrue => hflat (hcolumn.jsonEncoded_iff.mp htrue)
  obtain ⟨-, -, -, -, hfree⟩ := id hreached
  obtain ⟨values, hok⟩ := (h.ok_iff (N := N) hreached.mem).mpr hfree
  have hinsert := haccepts.inserts row values (h.written_iff.mpr ⟨hreached, hok⟩)
  rw [h.target_eq, rowValues_ok_iff] at hok
  have hmem : c ∈ plan.columns := by
    rw [h.columns]
    exact List.mem_cons_of_mem _ hc
  obtain ⟨i, hi, hci⟩ := List.getElem_of_mem hmem
  have hlen : i < values.length := hok.length_eq ▸ hi
  have hliteral := hok.get hi hlen
  have hvalue := hinsert.get hi hlen
  simp only [List.get_eq_getElem, hci] at hliteral hvalue
  exact hvalue.1 hnullable ((literalFor_null_iff hcolumn hnullable hreached.mem hliteral).mpr
    ⟨hjson, hnull⟩)

theorem forall₂_of_mem {α β : Type} {r s : α → β → Prop} {as : List α} {bs : List β}
    (h : List.Forall₂ r as bs) (himp : ∀ a ∈ as, ∀ b, r a b → s a b) : List.Forall₂ s as bs := by
  induction h with
  | nil => exact List.Forall₂.nil
  | cons hab _ ih =>
    exact List.Forall₂.cons (himp _ List.mem_cons_self _ hab)
      (ih fun a ha => himp a (List.mem_cons_of_mem _ ha))

/-- **Without such a `null` every row is accepted**, column by column. -/
theorem PlanOf.inserts_ok (h : PlanOf rows target table plan idIdentifier fieldColumns)
    (hnull : ¬ NullInFull rows) {row : JsString × ExportRow} {values : List JsString}
    (hwritten : (row, values) ∈ writtenRows N plan rows) :
    List.Forall₂ (fun c v => (c.nullable = false → v ≠ js "NULL") ∧
      (c.sqlType = .integer → ∀ n, v = N.text n → isInt32 n = true)) plan.columns values := by
  obtain ⟨hreached, hok⟩ := h.written_iff.mp hwritten
  rw [h.target_eq, rowValues_ok_iff, h.columns] at hok
  rw [h.columns]
  obtain ⟨v, vs, hv, hvs, rfl⟩ := List.forall₂_cons_left_iff.mp hok
  refine List.Forall₂.cons ⟨?_, ?_⟩ ?_
  · intro _ heq
    rw [literalFor_id rfl rfl] at hv
    cases hv
    exact null_ne_quotedText _ heq
  · intro hint
    have htext : typeFor target .text .upperText = .integer := hint
    exact absurd htext (by cases target <;> decide)
  · refine forall₂_of_mem hvs fun c hc w hliteral => ⟨fun hnullable heq => ?_, fun hint n hn => ?_⟩
    · have hcolumn := h.column c hc
      obtain ⟨hjson, hget⟩ := (literalFor_null_iff hcolumn hnullable hreached.mem hliteral).mp heq
      refine hnull ⟨row, c.source, hreached, hcolumn.ne_id, hget, ?_, ?_⟩
      · intro r hr hnone
        rw [hcolumn.nullable.mpr ⟨r, hr, hnone⟩] at hnullable
        cases hnullable
      · intro hnested
        rw [hcolumn.jsonEncoded_iff.mpr hnested] at hjson
        cases hjson
    · exact integer_literal (h.column c hc) hint hreached.mem hliteral hn

/-- **When a script accepts its own rows.** -/
theorem acceptsOwnRows_iff (N : NumberText) (rows : ExportRows) (target : SqlTarget)
    (table : JsString) (plan : ExportPlan)
    (h : inferPlanForCollection rows target table = .ok plan) :
    AcceptsOwnRows N plan rows ↔
      (target = .postgres ∨ (target = .d1 ∧ reservedTable table = true) ∨ ¬ CaseTwins rows) ∧
      ¬ NullInFull rows := by
  obtain ⟨idIdentifier, fieldColumns, hplan⟩ := inferPlan_planOf h
  constructor
  · intro haccepts
    refine ⟨?_, hplan.not_nullInFull haccepts⟩
    by_cases hreserved : target = .d1 ∧ reservedTable table = true
    · exact Or.inr (Or.inl hreserved)
    · obtain ⟨ddl, hddl⟩ := hplan.emits_iff.mpr hreserved
      have hdistinct := haccepts.distinct ddl hddl
      rw [hplan.target_eq] at hdistinct
      rcases hplan.distinct_iff.mp hdistinct with hpg | htwins
      · exact Or.inl hpg
      · exact Or.inr (Or.inr htwins)
  · rintro ⟨hnames, hnull⟩
    refine ⟨fun ddl hddl => ?_, fun row values hwritten => hplan.inserts_ok hnull hwritten⟩
    rw [hplan.target_eq, hplan.distinct_iff]
    rcases hnames with hpg | hreserved | htwins
    · exact Or.inl hpg
    · exact absurd hreserved (hplan.emits_iff.mp ⟨ddl, hddl⟩)
    · exact Or.inr htwins

/-- A collection of one row with one member. -/
def oneRow (field : JsString) (v : Doc) : ExportRows :=
  [(js "a", ⟨[(field, v)], List.nodup_singleton field⟩)]

/-- The row of the examples has the one field. -/
theorem oneRow_get (field : JsString) (v : Doc) {row : JsString × ExportRow}
    (hrow : row ∈ oneRow field v) (name : JsString) :
    row.2.get name = if name = field then some v else none := by
  rw [List.mem_singleton.mp hrow, ExportRow.get]
  by_cases h : name = field
  · rw [if_pos h, h]
    exact List.lookup_cons_self
  · rw [if_neg h, List.lookup_cons, beq_eq_false_iff_ne.mpr h]
    rfl

theorem noteFields_nodup : [js "title", js "done"].Nodup := by decide

/-- The rows `{ "title": "it's", "done": true }`, `{ "title": null }` and `{ "done": false }`. -/
def noteRows : ExportRows :=
  [(js "a", ⟨[(js "title", .str (js "it's")), (js "done", .bool true)], noteFields_nodup⟩),
    (js "b", ⟨[(js "title", .null)], List.nodup_singleton _⟩),
    (js "c", ⟨[(js "done", .bool false)], List.nodup_singleton _⟩)]

/-- The values of the notes, field by field. -/
theorem noteRows_get {row : JsString × ExportRow} (hrow : row ∈ noteRows) {name : JsString} {v : Doc}
    (h : row.2.get name = some v) :
    (name = js "title" ∧ (v = .str (js "it's") ∨ v = .null)) ∨
      (name = js "done" ∧ ∃ b, v = .bool b) := by
  obtain ⟨before, after, hmembers, -⟩ := List.lookup_eq_some_iff.mp h
  have hmem : (name, v) ∈ row.2.members := by
    rw [hmembers]
    simp
  simp only [noteRows, List.mem_cons, List.not_mem_nil, or_false] at hrow
  rcases hrow with rfl | rfl | rfl
  · rcases List.mem_cons.mp hmem with heq | hmem
    · cases heq
      exact Or.inl ⟨rfl, Or.inl rfl⟩
    · cases List.mem_singleton.mp hmem
      exact Or.inr ⟨rfl, true, rfl⟩
  · cases List.mem_singleton.mp hmem
    exact Or.inl ⟨rfl, Or.inr rfl⟩
  · cases List.mem_singleton.mp hmem
    exact Or.inr ⟨rfl, false, rfl⟩

/-- Their fields. -/
theorem noteRows_name {name : JsString} (h : columnValues noteRows name ≠ []) :
    name = js "title" ∨ name = js "done" := by
  obtain ⟨v, hv⟩ := List.exists_mem_of_ne_nil _ h
  obtain ⟨row, hrow, hget⟩ := mem_columnValues.mp hv
  rcases noteRows_get hrow hget with ⟨hname, -⟩ | ⟨hname, -⟩
  · exact Or.inl hname
  · exact Or.inr hname

/-- The script of three rows with a missing field and a `null` accepts them. -/
theorem acceptsOwnRows_title : ∃ plan,
    inferPlanForCollection noteRows .sqlite (js "notes") = .ok plan ∧
    AcceptsOwnRows ordinalText plan noteRows := by
  refine ⟨_, rfl, ?_⟩
  refine (acceptsOwnRows_iff ordinalText noteRows .sqlite (js "notes") _ rfl).mpr
    ⟨Or.inr (Or.inr ?_), ?_⟩
  · rintro ⟨a, b, hne, ha, hb, heq⟩
    have hname : ∀ {c}, (c = idField ∨ columnValues noteRows c ≠ []) →
        c = idField ∨ c = js "title" ∨ c = js "done" := fun h => h.imp id noteRows_name
    have hdistinct : ∀ c ∈ [idField, js "title", js "done"], ∀ d ∈ [idField, js "title", js "done"],
        c ≠ d → c.map lowerUnit ≠ d.map lowerUnit := by decide
    exact hdistinct a (by simpa using hname ha) b (by simpa using hname hb) hne heq
  · -- the one `null` is in a field that the last row lacks
    rintro ⟨row, field, hreached, -, hnull, hall, -⟩
    rcases noteRows_get hreached.mem hnull with ⟨rfl, -⟩ | ⟨-, b, h⟩
    · exact hall (js "c", ⟨[(js "done", .bool false)], List.nodup_singleton _⟩)
        (List.mem_cons_of_mem _ (List.mem_cons_of_mem _ List.mem_cons_self)) (by decide)
    · cases h

/-- The script of `[{ "title": null }]` declares `"title"` as `NOT NULL` and writes `NULL` to it. -/
theorem acceptsOwnRows_null : ¬ ∀ (N : NumberText) (rows : ExportRows) (target : SqlTarget)
    (table : JsString) (plan : ExportPlan), inferPlanForCollection rows target table = .ok plan →
    AcceptsOwnRows N plan rows := by
  intro h
  have haccepts := h ordinalText (oneRow (js "title") .null) .postgres (js "notes") _ rfl
  have hinsert := haccepts.inserts (js "a", ⟨[(js "title", .null)], List.nodup_singleton _⟩)
    [js "'a'", js "NULL"] (List.mem_singleton.mpr rfl)
  obtain ⟨-, hrest⟩ := List.forall₂_cons.mp hinsert
  obtain ⟨⟨hnull, -⟩, -⟩ := List.forall₂_cons.mp hrest
  exact hnull rfl rfl

end Baerly.Export
