import Baerly.IndexKeys
import Baerly.Lib.Float64
import Baerly.Lib.InsMap

/-
  The SQL export: `cli/src/export/plan.ts`, `ddl.ts`, `rows.ts` and `sql-escape.ts`.

  PROGRAM: one pass over the rows of a collection observes which kinds of values each field holds;
  from that the plan picks a type and a nullability for every column, `emitCreateTable` declares the
  columns, and a second pass writes one `INSERT` per row.

  A row is a JSON object with the members it owns, each key once.  The row writer reads a column
  with `body[source]`, which also finds what the object inherits (`Baerly.Property`).
-/

namespace Baerly.Export

/-! ## Types -/

/-- `SqlTarget`. -/
inductive SqlTarget where
  | postgres | sqlite | d1
  deriving DecidableEq

/-- `SqlType`; the lower-case ones are of postgres. -/
inductive SqlType where
  | text | boolean | integer | doublePrecision | jsonb
  | upperText | upperInteger | upperReal
  deriving DecidableEq

/-- The SQL type as the DDL has it. -/
def SqlType.name : SqlType → JsString
  | .text => js "text"
  | .boolean => js "boolean"
  | .integer => js "integer"
  | .doublePrecision => js "double precision"
  | .jsonb => js "jsonb"
  | .upperText => js "TEXT"
  | .upperInteger => js "INTEGER"
  | .upperReal => js "REAL"

/-- `ExportRow`: the own members of a body. -/
structure ExportRow where
  members : List (JsString × Doc)
  nodup : (members.map Prod.fst).Nodup

/-- The body as a value. -/
def ExportRow.toDoc (row : ExportRow) : Doc := .obj row.members

/-- `ReadonlyMap<string, ExportRow>`, in insertion order. -/
abbrev ExportRows := List (JsString × ExportRow)

/-- `ColumnPlan`. -/
structure ColumnPlan where
  source : JsString
  identifier : JsString
  sqlType : SqlType
  nullable : Bool
  jsonEncoded : Bool
  deriving DecidableEq

/-- `ExportPlan`. -/
structure ExportPlan where
  target : SqlTarget
  table : JsString
  tableIdentifier : JsString
  columns : List ColumnPlan
  rowCount : Nat

/-! ## Quoting -/

/-- `s.replace(/q/g, "qq")` for a one-unit `q`. -/
def double (q : Fin 65536) : JsString → JsString
  | [] => []
  | u :: us => if u = q then q :: q :: double q us else u :: double q us

/-- `quoteIdentifier`; the targets agree. -/
def quoteIdentifier (name : JsString) : Except Err JsString :=
  if name = [] then .error (.mk .schemaError "quoteIdentifier: empty identifier")
  else if name.contains 0 then
    .error (.mk .schemaError ("quoteIdentifier: NUL byte in identifier " ++ Baerly.quote name))
  else .ok (34 :: (double 34 name ++ [34]))

/-- The last throw of `quoteValue`. -/
def nestedObject : Err :=
  .mk .schemaError ("quoteValue: nested-object reached the quoter without pre-encoding — " ++
    "caller bug")

/-- `quoteValue`; a number here is finite. -/
def quoteValue (N : NumberText) (target : SqlTarget) : Doc → Except Err JsString
  | .null => .ok (js "NULL")
  | .str s => .ok (39 :: (double 39 s ++ [39]))
  | .num n => .ok (N.text n)
  | .bool b =>
    if target = .postgres then .ok (if b then js "true" else js "false")
    else .ok (if b then js "1" else js "0")
  | .arr _ | .obj _ => .error nestedObject

/-! ## The plan -/

/-- `ColumnObservation`. -/
structure ColumnObservation where
  hasString : Bool := false
  hasBoolean : Bool := false
  hasInteger : Bool := false
  hasNonInteger : Bool := false
  hasNestedObject : Bool := false
  hasNull : Bool := false

/-- The number a double stands for. -/
def toRat (n : JsNumber) : ℚ := Float64.value (float64Bits n)

/-- `Number.isInteger(n) && n >= INT32_MIN && n <= INT32_MAX`. -/
def isInt32 (n : JsNumber) : Bool :=
  (toRat n).den = 1 ∧ -2 ^ 31 ≤ (toRat n).num ∧ (toRat n).num ≤ 2 ^ 31 - 1

/-- `observe`: a `null` leaves no trace. -/
def observe (obs : ColumnObservation) : Doc → ColumnObservation
  | .str _ => { obs with hasString := true }
  | .bool _ => { obs with hasBoolean := true }
  | .num n => if isInt32 n then { obs with hasInteger := true } else { obs with hasNonInteger := true }
  | .arr _ | .obj _ => { obs with hasNestedObject := true }
  | .null => obs

/-- A type of one target or of the others, with whether it holds JSON text. -/
def typeFor (target : SqlTarget) (postgres others : SqlType) : SqlType :=
  if target = .postgres then postgres else others

/-- `pickSqlType`. -/
def pickSqlType (obs : ColumnObservation) (target : SqlTarget) : SqlType × Bool :=
  if obs.hasNestedObject then (typeFor target .jsonb .upperText, true)
  else
    let primitiveKinds := (if obs.hasString then 1 else 0) + (if obs.hasBoolean then 1 else 0) +
      (if obs.hasInteger || obs.hasNonInteger then 1 else 0)
    if 1 < primitiveKinds then (typeFor target .text .upperText, false)
    else if obs.hasString then (typeFor target .text .upperText, false)
    else if obs.hasBoolean then (typeFor target .boolean .upperInteger, false)
    else if obs.hasNonInteger then (typeFor target .doublePrecision .upperReal, false)
    else if obs.hasInteger then (typeFor target .integer .upperInteger, false)
    else (typeFor target .text .upperText, false)

/-- What the first pass collects. -/
structure Observations where
  obsByField : InsMap JsString ColumnObservation
  orderedFields : List JsString
  rowsWithField : InsMap JsString Nat

/-- One member of one row in the first pass. -/
def observeMember (seen : Observations) (member : JsString × Doc) : Observations :=
  let (field, value) := member
  let obs := (seen.obsByField.get field).getD {}
  { obsByField := seen.obsByField.set field (observe obs value)
    orderedFields := if (seen.obsByField.get field).isNone then seen.orderedFields ++ [field]
      else seen.orderedFields
    rowsWithField := seen.rowsWithField.set field ((seen.rowsWithField.get field).getD 0 + 1) }

/-- The first pass. -/
def observeRows (rows : ExportRows) : Observations :=
  (rows.flatMap fun row => row.2.members).foldl observeMember ⟨.empty, [], .empty⟩

/-- `_id`. -/
def idField : JsString := js "_id"

/-- The column of a field: the second pass and the pick. -/
def columnFor (seen : Observations) (target : SqlTarget) (totalRows : Nat) (field : JsString)
    (obs : ColumnObservation) : Except Err ColumnPlan := do
  let hasNull := obs.hasNull || decide ((seen.rowsWithField.get field).getD 0 < totalRows)
  let (sqlType, jsonEncoded) := pickSqlType obs target
  let identifier ← quoteIdentifier field
  .ok { source := field, identifier, sqlType, nullable := hasNull, jsonEncoded }

/-- The loop over `orderedFields`. -/
def columnsFor (seen : Observations) (target : SqlTarget) (totalRows : Nat) :
    List JsString → Except Err (List ColumnPlan)
  | [] => .ok []
  | field :: fields =>
    if field = idField then columnsFor seen target totalRows fields
    else
      match seen.obsByField.get field with
      | none => columnsFor seen target totalRows fields
      | some obs => do
        let column ← columnFor seen target totalRows field obs
        let columns ← columnsFor seen target totalRows fields
        .ok (column :: columns)

/-- The column of the map key. -/
def idColumn (target : SqlTarget) (identifier : JsString) : ColumnPlan where
  source := idField
  identifier := identifier
  sqlType := typeFor target .text .upperText
  nullable := false
  jsonEncoded := false

/-- `inferPlanForCollection`. -/
def inferPlanForCollection (rows : ExportRows) (target : SqlTarget) (table : JsString) :
    Except Err ExportPlan := do
  let seen := observeRows rows
  let idIdentifier ← quoteIdentifier idField
  let columns ← columnsFor seen target rows.length seen.orderedFields
  let tableIdentifier ← quoteIdentifier table
  .ok { target, table, tableIdentifier, columns := idColumn target idIdentifier :: columns,
        rowCount := rows.length }

/-! ## The table -/

/-- ASCII lower case. -/
def lowerUnit (u : Fin 65536) : Fin 65536 :=
  if 65 ≤ u.val ∧ u.val ≤ 90 then Fin.ofNat 65536 (u.val + 32) else u

/-- `table.toLowerCase().startsWith("sqlite_")`; no character outside ASCII lower-cases to one of
    these letters alone. -/
def reservedTable (table : JsString) : Bool := (js "sqlite_").isPrefixOf (table.map lowerUnit)

/-- One line of the DDL. -/
def columnLine (column : ColumnPlan) : JsString :=
  js "  " ++ column.identifier ++ js " " ++ column.sqlType.name ++
    (if column.nullable then [] else js " NOT NULL") ++
    (if column.source = idField then js " PRIMARY KEY" else [])

/-- `emitCreateTable`. -/
def emitCreateTable (plan : ExportPlan) : Except Err JsString :=
  if plan.columns = [] then
    .error (.mk .schemaError ("emitCreateTable: collection " ++ Baerly.quote plan.table ++
      " has no observed columns — empty snapshot?"))
  else if plan.target = .d1 ∧ reservedTable plan.table then
    .error (.mk .schemaError ("emitCreateTable: D1 reserves the sqlite_ table-name prefix (got " ++
      Baerly.quote plan.table ++ ")"))
  else .ok (js "CREATE TABLE " ++ plan.tableIdentifier ++ js " (\n" ++
    List.intercalate (js ",\n") (plan.columns.map columnLine) ++ js "\n);\n")

/-! ## The rows -/

/-- `body[source]`. -/
def readProperty (body : ExportRow) (source : JsString) : Property := readMember body.members source

/-- The literal of one column of one row.  `JSON.stringify(Object.prototype)` is `{}`, and of a
    function it is `undefined`, which the quoter refuses. -/
def literalFor (N : NumberText) (target : SqlTarget) (id : JsString) (body : ExportRow)
    (column : ColumnPlan) : Except Err JsString :=
  let raw := if column.source = idField then .value (.str id) else readProperty body column.source
  match raw with
  | .undefined => .ok (js "NULL")
  | .value v =>
    if column.jsonEncoded then quoteValue N target (.str (JSON.stringify N v))
    else quoteValue N target v
  | .objectPrototype =>
    if column.jsonEncoded then quoteValue N target (.str (js "\x7b\x7d")) else .error nestedObject
  | .method _ => .error nestedObject

/-- The loop over the columns of a row. -/
def rowValues (N : NumberText) (target : SqlTarget) (row : JsString × ExportRow) :
    List ColumnPlan → Except Err (List JsString)
  | [] => .ok []
  | column :: columns => do
    let value ← literalFor N target row.1 row.2 column
    let values ← rowValues N target row columns
    .ok (value :: values)

/-- One `INSERT`. -/
def insertStatement (plan : ExportPlan) (values : List JsString) : JsString :=
  js "INSERT INTO " ++ plan.tableIdentifier ++ js " (" ++
    List.intercalate (js ", ") (plan.columns.map ColumnPlan.identifier) ++ js ") VALUES (" ++
    List.intercalate (js ", ") values ++ js ");\n"

/-- The rows that are written, with their values: all up to the first that throws. -/
def writtenRows (N : NumberText) (plan : ExportPlan) :
    ExportRows → List ((JsString × ExportRow) × List JsString)
  | [] => []
  | row :: rows =>
    match rowValues N plan.target row plan.columns with
    | .error _ => []
    | .ok values => (row, values) :: writtenRows N plan rows

/-- `emitInsertStatements`: what it yields. -/
def emitInsertStatements (N : NumberText) (plan : ExportPlan) (rows : ExportRows) :
    List JsString :=
  (writtenRows N plan rows).map fun written => insertStatement plan written.2

end Baerly.Export
