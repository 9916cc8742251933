import Baerly.JsonOrder
import Baerly.Query

/-
  `baerly admin dump`, and how `baerly admin restore` reads its output
  (`cli/src/admin/dump.ts`, `cli/src/admin/restore.ts`).

  PROGRAM: `writeToSink` prints a materialised view, one row a line, rows sorted by id, members
  sorted by key at every depth, with `_id` set to the key the row is stored under.  The restore
  loop splits its input into lines, skips the blank ones, parses each and commits an insert.

  The line splitter is the host's: it breaks at LF, CRLF, a lone CR, and at U+2028 and U+2029,
  which `JSON.stringify` leaves as they are.
-/

namespace Baerly

/-! ## Writing -/

mutual

/-- `canonicalStringify`.  Numbers are finite by type. -/
def canonicalStringify (N : NumberText) : Doc → JsString
  | .null => js "null"
  | .bool true => js "true"
  | .bool false => js "false"
  | .num n => N.text n
  | .str s => JSON.quote s
  | .arr xs => 91 :: (JSON.join (canonicalItems N xs) ++ [93])
  | .obj ms =>
    -- the keys are distinct, so sorting them and looking each one up is sorting the members
    let parts := Json.sortMembers (fun a b => a ≤ b) (canonicalMembers N ms)
    123 :: (JSON.join (parts.map fun p => JSON.quote p.1 ++ 58 :: p.2) ++ [125])

def canonicalItems (N : NumberText) : List Doc → List JsString
  | [] => []
  | x :: xs => canonicalStringify N x :: canonicalItems N xs

/-- The members, each value already printed. -/
def canonicalMembers (N : NumberText) : List (JsString × Doc) → List (JsString × JsString)
  | [] => []
  | (key, x) :: ms => (key, canonicalStringify N x) :: canonicalMembers N ms

end

/-- `{ ...body, _id: id }`; a row is an object. -/
def withId (id : JsString) : Doc → Doc
  | .obj ms => .obj (spreadId ms id)
  | _ => .obj [(js "_id", .str id)]

/-- One line of the dump, with its newline. -/
def dumpLine (N : NumberText) (rows : Rows) (id : JsString) : JsString :=
  match rows.get id with
  | some body => canonicalStringify N (withId id body) ++ [10]
  | none => []

/-- What `writeToSink` writes. -/
def writeToSink (N : NumberText) (rows : Rows) : JsString :=
  ((rows.entries.map Prod.fst).insertionSort fun a b => a ≤ b).flatMap (dumpLine N rows)

/-! ## Reading -/

/-- A character that ends a line by itself. -/
def isLineBreak (u : Fin 65536) : Bool :=
  u = 10 || u = 13 || u.val = 0x2028 || u.val = 0x2029

/-- `for await (const line of rl)`, with the line so far: a last line without a break counts unless
    it is empty. -/
def readLines : (line : JsString) → JsString → List JsString
  | [], [] => []
  | line, [] => [line]
  | line, u :: rest =>
    if u = 13 ∧ rest.head? = some 10 then
      -- the LF that follows ends the line
      readLines line rest
    else if isLineBreak u then line :: readLines [] rest
    else readLines (line ++ [u]) rest

/-- The row of one line. -/
def readRow (N : NumberText) (lineNo : Nat) (line : JsString) : Except Err StoredRow :=
  match JSON.parse N line with
  | none => .error (.other s!"baerly admin restore: line {lineNo} is not valid JSON")
  | some (.obj ms) =>
    match ms.lookup (js "_id") with
    | some (.str id) =>
      if id = [] then
        .error (.other s!"baerly admin restore: line {lineNo} missing non-empty string _id")
      else .ok (id, .obj ms)
    | _ => .error (.other s!"baerly admin restore: line {lineNo} missing non-empty string _id")
  | some _ => .error (.other s!"baerly admin restore: line {lineNo} is not a JSON object")

/-- The reading loop, from line `lineNo` on. -/
def readRows (N : NumberText) : (lineNo : Nat) → List JsString → Except Err (List StoredRow)
  | _, [] => .ok []
  | lineNo, line :: lines =>
    if line = [] then readRows N (lineNo + 1) lines
    else do
      let row ← readRow N lineNo line
      let rows ← readRows N (lineNo + 1) lines
      .ok (row :: rows)

/-- The rows `restore` finds in its input. -/
def restoreRows (N : NumberText) (input : JsString) : Except Err (List StoredRow) :=
  readRows N 1 (readLines [] input)

/-- The `commit` of a restored row. -/
def restoreInput (collection : JsString) (row : StoredRow) : CommitInput where
  op := .I
  collection := collection
  docId := row.1
  body := some row.2
  origin := none
  insertGuard := none

end Baerly
