import Baerly.SnapshotCodec

/-
  The loops of `server/src/snapshot-doc-id.ts`, offset by offset.

  PROGRAM: `assertSnapshotDocId` walks over the code units of an id and refuses a surrogate that is
  in no pair; `compareDocIds` walks over two ids at once, one code point at a time, and answers at
  the first difference.

  `Baerly.assertSnapshotDocId` and `Baerly.compareDocIds` are the same functions on lists, which the
  codec and the planner are stated with; they agree with the loops here.
-/

namespace Baerly.SnapshotDocId

/-- `s.charCodeAt(offset)`; `none` is `NaN`. -/
def charCodeAt (s : JsString) (offset : Nat) : Option (Fin 65536) := s[offset]?

/-- `s.codePointAt(offset)`; `none` is `undefined`. -/
def codePointAt (s : JsString) (offset : Nat) : Option Nat :=
  match s[offset]?, s[offset + 1]? with
  | some u, some v => if Utf8.high u && Utf8.low v then some (Utf8.pair u v) else some u.val
  | some u, none => some u.val
  | none, _ => none

/-- The message of both throws. -/
def isolatedSurrogate : Err :=
  .mk .invalidConfig "_id may not contain isolated UTF-16 surrogates"

/-- The loop of `assertSnapshotDocId` from an offset on. -/
def assertPaired (id : JsString) (offset : Nat) : Except Err Unit :=
  if h : offset < id.length then
    if Utf8.high id[offset] then
      -- a comparison with `NaN` is false, so the last unit is no low surrogate either
      if (charCodeAt id (offset + 1)).any Utf8.low then assertPaired id (offset + 2)
      else .error isolatedSurrogate
    else if Utf8.low id[offset] then .error isolatedSurrogate
    else assertPaired id (offset + 1)
  else .ok ()
termination_by id.length - offset

/-- `assertSnapshotDocId`. -/
def assertSnapshotDocId (id : JsString) : Except Err Unit := do
  assertPathSegment id "_id"
  assertPaired id 0

/-- By how far a code point moves an offset. -/
def width (point : Nat) : Nat := if 0xffff < point then 2 else 1

/-- The loop of `compareDocIds` from two offsets on, with what follows it. -/
def compareFrom (left right : JsString) (leftOffset rightOffset : Nat) : Int :=
  if h : leftOffset < left.length ∧ rightOffset < right.length then
    -- both offsets are inside, so neither read is `undefined`
    let leftPoint := (codePointAt left leftOffset).getD 0
    let rightPoint := (codePointAt right rightOffset).getD 0
    if leftPoint ≠ rightPoint then
      if leftPoint < rightPoint then -1 else 1
    else compareFrom left right (leftOffset + width leftPoint) (rightOffset + width rightPoint)
  else if leftOffset = left.length ∧ rightOffset = right.length then 0
  else if leftOffset = left.length then -1
  else 1
termination_by left.length - leftOffset
decreasing_by
  unfold width
  split <;> omega

/-- `compareDocIds`. -/
def compareDocIds (left right : JsString) : Int := compareFrom left right 0 0

end Baerly.SnapshotDocId
