import Baerly.Lib.Comparator
import Baerly.Query

/-
  Ordering rows (`sortByOrderSpec` of `server/src/query.ts`).

  PROGRAM: the comparator looks at the sort fields in turn.  A field decides unless the two values
  are identical or one of them is an object (`null` and arrays are); a missing value is below every
  other; anything else goes by `<`, and what is not less is greater.  A field with a name that
  objects inherit is missing in no row: one without the member answers with the function.

  Two things are left open of the language: `<` between values of different types, which converts
  them, and the algorithm behind `toSorted`, of which only the guarantee for consistent comparators
  is known.
-/

namespace Baerly

/-- A direction of an `OrderSpec`. -/
inductive Direction where
  | asc | desc
  deriving DecidableEq, Repr

/-- `Object.entries(spec)`. -/
abbrev OrderSpec := List (JsString × Direction)

/-- `<` between strings, numbers and booleans; `converted` is `<` where the operands are of different
    types or functions. -/
def scalarLess (converted : Property → Property → Bool) : Property → Property → Bool
  | .value (.str a), .value (.str b) => a < b
  | .value (.num a), .value (.num b) => a < b
  | .value (.bool a), .value (.bool b) => !a && b
  | a, b => converted a b

/-- `typeof p === "object"`. -/
def Property.isObject : Property → Bool
  | .value v => typeOf v = .object
  | .objectPrototype => true
  | _ => false

/-- What one sort field says of two values; `0` leaves it to the next field. -/
def compareField (converted : Property → Property → Bool) (dir : Direction) (av bv : Property) : Int :=
  if av = bv then 0
  else if av = .undefined then if dir = .desc then 1 else -1
  else if bv = .undefined then if dir = .desc then -1 else 1
  else if av.isObject ∨ bv.isObject then 0
  else
    let cmp : Int := if scalarLess converted av bv then -1 else 1
    if dir = .desc then -cmp else cmp

/-- The comparator of `sortByOrderSpec`. -/
def compareRows (converted : Property → Property → Bool) :
    OrderSpec → StoredRow → StoredRow → Int
  | [], _, _ => 0
  | (field, dir) :: spec, a, b =>
    let cmp := compareField converted dir (a.2.property field) (b.2.property field)
    if cmp ≠ 0 then cmp else compareRows converted spec a b

/-- `Array.prototype.toSorted`: for a comparator that is a strict weak order on the items, the
    result is their stable rearrangement. -/
structure ToSorted where
  run : (StoredRow → StoredRow → Int) → List StoredRow → List StoredRow
  stable : ∀ cmp rows, Comparator.Consistent cmp rows →
    Comparator.StableSorted cmp rows (run cmp rows)

/-- There is such an engine. -/
instance : Inhabited ToSorted :=
  ⟨⟨Comparator.stableSort, fun _ _ => Comparator.stableSorted_stableSort⟩⟩

/-- `sortByOrderSpec`. -/
def sortByOrderSpec (engine : ToSorted) (converted : Property → Property → Bool)
    (rows : List StoredRow) (spec : OrderSpec) : List StoredRow :=
  engine.run (compareRows converted spec) rows

end Baerly
