import Baerly.CursorText
import Baerly.Lib.Utf8

/-
  Storage keys as file names: `dev/src/local-fs-key-codec.ts`, and the checks `#pathFor` of
  `dev/src/local-fs.ts` makes before it encodes a key.

  PROGRAM: a key is cut at its slashes; of each segment the UTF-8 bytes outside a small alphabet are
  escaped, and what is longer than a file name may be is cut into components, all but the last
  marked with `~`.  The decoder collects the bytes of components up to an unmarked one, and takes
  the result only if encoding it again gives the same components.
-/

namespace Baerly.LocalFs

open CursorText

/-- `NAME_MAX_BYTES`. -/
def nameMaxBytes : Nat := 255

/-- `CONTINUATION`: `~`. -/
def continuation : Fin 65536 := 126

/-- `MAX_PART_BYTES`. -/
def maxPartBytes : Nat := nameMaxBytes - 1

/-- `isLiteralByte`: `a-z`, `0-9`, `-`, `_` and `.`. -/
def isLiteralByte (b : Nat) : Bool :=
  (0x61 ≤ b ∧ b ≤ 0x7a) ∨ (0x30 ≤ b ∧ b ≤ 0x39) ∨ b = 0x2d ∨ b = 0x5f ∨ b = 0x2e

/-- `DOT`. -/
def dot : Fin 256 := 0x2e

/-- `escapeByte`. -/
def escapeByte (b : Fin 256) : JsString :=
  37 :: padStart 2 ((Radix.rendered 16 b.val).map digitUnit)

/-- The token of a byte: itself, or `%xx`. -/
def token (b : Fin 256) : JsString :=
  if isLiteralByte b.val then [Fin.ofNat 65536 b.val] else escapeByte b

/-- `tokenize`. -/
def tokenize (segment : JsString) : List JsString := (Utf8.encode segment).map token

/-- The loop of `pack`; no limit is `Number.POSITIVE_INFINITY`. -/
def packFrom (limit : Option Nat) : (parts : List JsString) → (current : JsString) →
    List JsString → List JsString
  | parts, current, [] => parts ++ [current]
  | parts, current, token :: tokens =>
    let full := limit.any fun limit => limit < current.length + token.length
    let parts := if full then parts ++ [current] else parts
    let current := if full then [] else current
    let token := if current = [] ∧ token = [46] then escapeByte dot else token
    packFrom limit parts (current ++ token) tokens

/-- `pack`. -/
def pack (tokens : List JsString) (limit : Option Nat) : List JsString := packFrom limit [] [] tokens

/-- Every part but the last is continued. -/
def markContinued : List JsString → List JsString
  | [] => []
  | [p] => [p]
  | p :: q :: ps => (p ++ [continuation]) :: markContinued (q :: ps)

/-- `encodeSegment`. -/
def encodeSegment (segment : JsString) : List JsString :=
  let tokens := tokenize segment
  let single := pack tokens none
  if (single.headD []).length ≤ nameMaxBytes then single
  else markContinued (pack tokens (some maxPartBytes))

/-- `encodeKey`. -/
def encodeKey (key : Key) : Except Err (List JsString) :=
  if Utf8.wellFormed key then .ok ((key.splitOn slash).flatMap encodeSegment)
  else .error (.mk .invalidConfig ("LocalFsStorage: key is not well-formed UTF-16 (lone " ++
    "surrogate): " ++ quote key))

/-- `Number.parseInt(hex, 16)` of two hex digits. -/
def hexByte (high low : Fin 65536) : Fin 256 :=
  Fin.ofNat 256 (16 * (digitValue high).getD 0 + (digitValue low).getD 0)

/-- `decodeBytes`: the bytes it pushes, `none` for `false`. -/
def decodeBytes : JsString → Option (List (Fin 256))
  | [] => some []
  | c :: rest =>
    if c = 37 then
      match rest with
      | high :: low :: rest =>
        if isLowerHex high && isLowerHex low then (decodeBytes rest).map (hexByte high low :: ·)
        else none
      | _ => none
    else if isLiteralByte c.val then (decodeBytes rest).map (Fin.ofNat 256 c.val :: ·)
    else none

/-- The loop of `decodeComponents`, with the segments so far and the bytes of the one under way. -/
def decodeFrom : (segments : List JsString) → (bytes : List (Fin 256)) → List JsString →
    Option (List JsString)
  | segments, bytes, [] => if bytes ≠ [] ∨ segments = [] then none else some segments
  | segments, bytes, component :: components =>
    let continued := component.getLast? = some continuation
    let body := if continued then component.dropLast else component
    if body = [] then none
    else
      match decodeBytes body with
      | none => none
      | some more =>
        if continued then decodeFrom segments (bytes ++ more) components
        else
          match Utf8.decode (bytes ++ more) with
          | none => none
          | some segment =>
            if segment = js "." ∨ segment = js ".." then none
            else decodeFrom (segments ++ [segment]) [] components

/-- `decodeComponents`. -/
def decodeComponents (components : List JsString) : Option Key :=
  match decodeFrom [] [] components with
  | none => none
  | some segments =>
    let key := List.intercalate [slash] segments
    match encodeKey key with
    | .error _ => none
    | .ok canonical => if canonical = components then some key else none

/-! ## Paths -/

/-- `assertValidStorageKey`. -/
def assertValidStorageKey (key : Key) : Except Err Unit :=
  if key = [] then .error (.mk .invalidConfig "storage key must be a non-empty string")
  else if ∃ segment ∈ key.splitOn slash, segment = js "." ∨ segment = js ".." then
    .error (.mk .invalidConfig ("storage key may not contain a \".\" or \"..\" path segment — " ++
      "RFC 3986 dot-segment removal makes it unaddressable over the S3/R2 HTTP API: " ++ quote key))
  else .ok ()

/-- `#pathFor`, as the components below the root. -/
def pathFor (key : Key) : Except Err (List JsString) := do
  assertValidStorageKey key
  if key.head? = some slash then
    .error (.mk .invalidConfig s!"LocalFsStorage: leading \"/\" in key: {showKey key}")
  else if key.contains 92 then
    .error (.mk .invalidConfig s!"LocalFsStorage: backslash in key: {showKey key}")
  else if ∃ segment ∈ key.splitOn slash, segment = [] ∨ segment = js "." ∨ segment = js ".." then
    .error (.mk .invalidConfig s!"LocalFsStorage: illegal segment in key: {showKey key}")
  else encodeKey key

end Baerly.LocalFs
