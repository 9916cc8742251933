import Baerly.DocId
import Baerly.Lib.Float64
import Baerly.Lib.Radix

/-
  The texts of counters and cursors: `protocol/src/types.ts`, `protocol/src/time.ts`, `lsnParts` of
  `protocol/src/log.ts`, `protocol/src/cursor.ts`, the shape checks of `server/src/http/since.ts` and
  the tokens that `mintGeneration` and the writer cut out of a UUID.

  PROGRAM: a counter is written descending, in base 32 and to a fixed width; an lsn is
  `<time>_<session>_<seq>`, a cursor `<generation>.<lsn>` or a bare lsn.  `Since` holds cursors
  decoded; here they are strings.

  Numbers are integers here, rounded to doubles where the source computes with them; `none` stands
  for `NaN`.
-/

namespace Baerly.CursorText

/-! ## Counters -/

/-- The character of a digit below 36. -/
def digitUnit (d : Nat) : Fin 65536 :=
  if d < 10 then Fin.ofNat 65536 (48 + d) else Fin.ofNat 65536 (87 + d)

/-- What a character stands for as a digit, in either case. -/
def digitValue (u : Fin 65536) : Option Nat :=
  if 48 ≤ u.val ∧ u.val ≤ 57 then some (u.val - 48)
  else if 97 ≤ u.val ∧ u.val ≤ 122 then some (u.val - 87)
  else if 65 ≤ u.val ∧ u.val ≤ 90 then some (u.val - 55)
  else none

/-- `num.toString(32)`. -/
def toString32 (num : Int) : JsString :=
  let digits := (Radix.rendered 32 num.natAbs).map digitUnit
  if num < 0 then 45 :: digits else digits

/-- `s.padStart(width, "0")`. -/
def padStart (width : Nat) (s : JsString) : JsString := List.replicate (width - s.length) 48 ++ s

/-- `uint2str`. -/
def uint2str (num : Int) (bits : Nat) : JsString := padStart ((bits + 4) / 5) (toString32 num)

/-- `Math.pow(2, bits) - 1`. -/
def maxValue (bits : Nat) : Int := Float64.nearest (2 ^ bits - 1)

/-- `uint2strDesc`. -/
def uint2strDesc (num : Int) (bits : Nat) : JsString :=
  uint2str (Float64.nearest (maxValue bits - num)) bits

/-- White space and line terminators, which `parseInt` skips. -/
def isWhiteSpace (u : Fin 65536) : Bool :=
  (9 ≤ u.val ∧ u.val ≤ 13) ∨ u.val = 32 ∨ u.val = 0xA0 ∨ u.val = 0xFEFF ∨ u.val = 0x1680 ∨
    (0x2000 ≤ u.val ∧ u.val ≤ 0x200A) ∨ u.val = 0x2028 ∨ u.val = 0x2029 ∨ u.val = 0x202F ∨
    u.val = 0x205F ∨ u.val = 0x3000

/-- The longest run of base-32 digits at the front. -/
def leadingDigits : JsString → List Nat
  | [] => []
  | u :: us =>
    match digitValue u with
    | some d => if d < 32 then d :: leadingDigits us else []
    | none => []

/-- The digits of a number, without its sign. -/
def parseDigits (s : JsString) : Option Nat :=
  match leadingDigits s with
  | [] => none
  | d :: ds => some (Radix.value 32 (d :: ds))

/-- `parseInt(str, 32)`. -/
def parseInt32 (str : JsString) : Option Int :=
  match str.dropWhile isWhiteSpace with
  | [] => none
  | u :: us =>
    if u = 45 then (parseDigits us).map fun n : Nat => -Float64.nearest n
    else if u = 43 then (parseDigits us).map fun n : Nat => Float64.nearest n
    else (parseDigits (u :: us)).map fun n : Nat => Float64.nearest n

/-- `str2uintDesc`. -/
def str2uintDesc (str : JsString) (bits : Nat) : Option Int :=
  (parseInt32 str).map fun num => Float64.nearest (maxValue bits - num)

/-- `COUNT_BIT_WIDTH`. -/
def countBitWidth : Nat := 53

/-- `TIMESTAMP_BIT_WIDTH`. -/
def timestampBitWidth : Nat := 42

/-- `countKey`. -/
def countKey (number : Int) : JsString := uint2strDesc number countBitWidth

/-- `timestamp`; an epoch here is an integer. -/
def timestamp (epoch : Int) : Except Err JsString :=
  if epoch < 0 ∨ 2 ^ timestampBitWidth ≤ epoch then
    .error (.mk .internal (s!"timestamp(): epoch must be a non-negative integer < " ++
      s!"2^{timestampBitWidth} (got {epoch})"))
  else .ok (uint2strDesc epoch timestampBitWidth)

/-! ## Tokens cut out of a UUID -/

/-- `/[0-9a-f]/`. -/
def isLowerHex (u : Fin 65536) : Bool := (48 ≤ u.val ∧ u.val ≤ 57) ∨ (97 ≤ u.val ∧ u.val ≤ 102)

/-- The shape of `crypto.randomUUID()`: hex digits in groups of 8, 4, 4, 4 and 12, with dashes
    between them. -/
def isUuid (uuid : JsString) : Bool :=
  uuid.length = 36 ∧ ∀ x ∈ uuid.zipIdx,
    if x.2 ∈ [8, 13, 18, 23] then x.1 = 45 else isLowerHex x.1 = true

/-- `mintGeneration`, from the UUID it draws. -/
def mintGeneration (uuid : JsString) : JsString := (uuid.filter (· ≠ 45)).take 12

/-- `SESSION_ID_LENGTH`. -/
def sessionIdLength : Nat := 6

/-- The session of a commit, from the UUID it draws. -/
def mintSession (uuid : JsString) : JsString := uuid.take sessionIdLength

/-! ## Lsns -/

/-- The `lsn` of `mintEntry`. -/
def mintLsn (commitNowMs : Int) (session : JsString) (atSeq : Nat) : Except Err JsString := do
  let lsnTimestamp ← timestamp commitNowMs
  .ok (lsnTimestamp ++ 95 :: (session ++ 95 :: countKey atSeq))

/-- `lsnParts`: the session and the seq. -/
def lsnParts (lsn : JsString) : Except Err (JsString × Option Int) :=
  match lsn.splitOn 95 with
  | [_, session, seq] => .ok (session, str2uintDesc seq countBitWidth)
  | _ => .error (.mk .invalidResponse s!"invalid lsn shape: {showKey lsn}")

/-! ## Cursors -/

/-- `formatCursor`. -/
def formatCursor (generation : Option JsString) (lsn : JsString) : JsString :=
  match generation with
  | none => lsn
  | some generation => generation ++ 46 :: lsn

/-- `parseCursor`: the generation and the lsn. -/
def parseCursor (cursor : JsString) : Except Err (JsString × JsString) :=
  match cursor.splitOn 46 with
  | [_] => .ok (noGeneration, cursor)
  | [generation, lsn] => .ok (generation, lsn)
  | _ => .error (.mk .schemaError ("invalid cursor shape: " ++ quote cursor ++
      " (expected \"<generation>.<lsn>\")"))

/-- `/[0-9a-v]/`. -/
def isBase32 (u : Fin 65536) : Bool := (48 ≤ u.val ∧ u.val ≤ 57) ∨ (97 ≤ u.val ∧ u.val ≤ 118)

/-- `SEQ_CHARS`. -/
def seqChars : Nat := (countBitWidth + 4) / 5

/-- `LSN_RE`: two runs of base-32 digits and one of a fixed length, between underscores. -/
def lsnOk (lsn : JsString) : Bool :=
  match lsn.splitOn 95 with
  | [time, session, seq] =>
    time ≠ [] ∧ time.all isBase32 ∧ session ≠ [] ∧ session.all isBase32 ∧
      seq.length = seqChars ∧ seq.all isBase32
  | _ => false

/-- `GENERATION_RE`: a run of hex digits, or the sentinel. -/
def cursorGenerationOk (generation : JsString) : Bool :=
  (generation ≠ [] ∧ generation.all isLowerHex) ∨ generation = noGeneration

/-- `decodeCursor`. -/
def decodeCursor (cursor : JsString) : Except Err (JsString × JsString) := do
  let parts ← parseCursor cursor
  if cursorGenerationOk parts.1 ∧ lsnOk parts.2 then .ok parts
  else .error (.mk .schemaError ("cursor: invalid shape (expected a cursor returned by a prior " ++
    "SinceResponse); got " ++ quote cursor))

/-- `nextCursor`, from the lsns of the events of a poll; a poll without events mints none. -/
def nextCursor (generation : Option JsString) (lsns : List JsString) : Option JsString :=
  lsns.getLast?.map (formatCursor generation)

end Baerly.CursorText
