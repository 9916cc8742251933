import Mathlib.Order.Defs.LinearOrder
import Mathlib.Order.Lattice
import Baerly.Lib.Width

/-
  JSON values the way the program holds them after `JSON.parse`.

  Strings are JavaScript strings: sequences of 16-bit code units, compared unit by unit
  (`JsString`).  Numbers are finite IEEE-754 doubles (`JsNumber`), written by their position in
  numeric order.  `Json N` leaves the number type open: documents carry doubles, while a control
  record whose counters are exact naturals is parsed over the rationals.

  Objects keep their members in order; two objects with the same members in another order are
  different `Json` trees and equal as JSON values only under a deep comparison.
-/

namespace Baerly

/-! ## Strings and numbers -/

/-- A JavaScript string: its UTF-16 code units.  `<` on lists is the lexicographic order, which
    is what `<` does on JavaScript strings. -/
abbrev JsString := List (Fin 65536)

/-- The `JsString` of a text whose characters are all one code unit. -/
def js (s : String) : JsString :=
  s.toList.map fun c => Fin.ofNat 65536 c.toNat

/-- The bit pattern of `+Infinity`: the finite doubles are the magnitudes below it. -/
def infinityBits : Int := 0x7FF0000000000000

/-- A finite double, by its signed magnitude bits: `ord` is the low 63 bits, negated when the
    sign bit is set.  Numeric order on finite doubles is the order of `ord`, and `-0` and `0`
    are one value, as they are under `===` and `<`. -/
structure JsNumber where
  ord : Int
  finite : -infinityBits < ord ∧ ord < infinityBits

namespace JsNumber

/-- A number is told by its place. -/
theorem ord_injective : Function.Injective JsNumber.ord := by
  rintro ⟨a, ha⟩ ⟨b, hb⟩ h
  cases h
  rfl

instance : DecidableEq JsNumber :=
  fun a b => decidable_of_iff (a.ord = b.ord) ord_injective.eq_iff

instance : LE JsNumber := ⟨fun a b => a.ord ≤ b.ord⟩

instance : LT JsNumber := ⟨fun a b => a.ord < b.ord⟩

instance (a b : JsNumber) : Decidable (a ≤ b) := inferInstanceAs (Decidable (a.ord ≤ b.ord))

instance (a b : JsNumber) : Decidable (a < b) := inferInstanceAs (Decidable (a.ord < b.ord))

instance : LinearOrder JsNumber where
  le_refl a := Int.le_refl a.ord
  le_trans _ _ _ := Int.le_trans
  le_antisymm _ _ h₁ h₂ := ord_injective (Int.le_antisymm h₁ h₂)
  le_total a b := Int.le_total a.ord b.ord
  lt_iff_le_not_ge _ _ := Int.lt_iff_le_and_not_ge
  toDecidableLE := inferInstance

end JsNumber

/-! ## Values -/

/-- A parsed JSON value over numbers `N`. -/
inductive Json (N : Type) where
  | null
  | bool (b : Bool)
  | num (n : N)
  | str (s : JsString)
  | arr (xs : List (Json N))
  | obj (members : List (JsString × Json N))

/-- Induction on a value: the items of an array and the members of an object come first. -/
theorem Json.ind {N : Type} {P : Json N → Prop} (null : P .null) (bool : ∀ b, P (.bool b))
    (num : ∀ n, P (.num n)) (str : ∀ s, P (.str s)) (arr : ∀ xs, (∀ x ∈ xs, P x) → P (.arr xs))
    (obj : ∀ ms, (∀ m ∈ ms, P m.2) → P (.obj ms)) : ∀ v, P v
  | .null => null
  | .bool b => bool b
  | .num n => num n
  | .str s => str s
  | .arr xs => arr xs fun x hx => by
    have hlt := List.sizeOf_lt_of_mem hx
    have harr : sizeOf (Json.arr xs) = 1 + sizeOf xs := Json.arr.sizeOf_spec xs
    exact ind null bool num str arr obj x
  | .obj ms => obj ms fun m hm => by
    have hlt := List.sizeOf_lt_of_mem hm
    have hobj : sizeOf (Json.obj ms) = 1 + sizeOf ms := Json.obj.sizeOf_spec ms
    have hpair : sizeOf m = 1 + sizeOf m.1 + sizeOf m.2 := rfl
    exact ind null bool num str arr obj m.2
termination_by v => sizeOf v

namespace Json

variable {N : Type} [DecidableEq N]

mutual

/-- Equality of trees, decided member by member. -/
def decEq : (a b : Json N) → Decidable (a = b)
  | .null, .null => isTrue rfl
  | .bool a, .bool b => decidable_of_iff (a = b) (by simp)
  | .num a, .num b => decidable_of_iff (a = b) (by simp)
  | .str a, .str b => decidable_of_iff (a = b) (by simp)
  | .arr xs, .arr ys =>
    match decEqList xs ys with
    | isTrue h => isTrue (by rw [h])
    | isFalse h => isFalse (by simpa using h)
  | .obj xs, .obj ys =>
    match decEqMembers xs ys with
    | isTrue h => isTrue (by rw [h])
    | isFalse h => isFalse (by simpa using h)
  | .null, .bool _ => isFalse nofun
  | .null, .num _ => isFalse nofun
  | .null, .str _ => isFalse nofun
  | .null, .arr _ => isFalse nofun
  | .null, .obj _ => isFalse nofun
  | .bool _, .null => isFalse nofun
  | .bool _, .num _ => isFalse nofun
  | .bool _, .str _ => isFalse nofun
  | .bool _, .arr _ => isFalse nofun
  | .bool _, .obj _ => isFalse nofun
  | .num _, .null => isFalse nofun
  | .num _, .bool _ => isFalse nofun
  | .num _, .str _ => isFalse nofun
  | .num _, .arr _ => isFalse nofun
  | .num _, .obj _ => isFalse nofun
  | .str _, .null => isFalse nofun
  | .str _, .bool _ => isFalse nofun
  | .str _, .num _ => isFalse nofun
  | .str _, .arr _ => isFalse nofun
  | .str _, .obj _ => isFalse nofun
  | .arr _, .null => isFalse nofun
  | .arr _, .bool _ => isFalse nofun
  | .arr _, .num _ => isFalse nofun
  | .arr _, .str _ => isFalse nofun
  | .arr _, .obj _ => isFalse nofun
  | .obj _, .null => isFalse nofun
  | .obj _, .bool _ => isFalse nofun
  | .obj _, .num _ => isFalse nofun
  | .obj _, .str _ => isFalse nofun
  | .obj _, .arr _ => isFalse nofun

/-- Lists of values can be compared. -/
def decEqList : (xs ys : List (Json N)) → Decidable (xs = ys)
  | [], [] => isTrue rfl
  | [], _ :: _ => isFalse nofun
  | _ :: _, [] => isFalse nofun
  | x :: xs, y :: ys =>
    match decEq x y, decEqList xs ys with
    | isTrue hx, isTrue hxs => isTrue (by rw [hx, hxs])
    | isFalse hx, _ => isFalse (by simp [hx])
    | _, isFalse hxs => isFalse (by simp [hxs])

/-- So can members. -/
def decEqMembers : (xs ys : List (JsString × Json N)) → Decidable (xs = ys)
  | [], [] => isTrue rfl
  | [], _ :: _ => isFalse nofun
  | _ :: _, [] => isFalse nofun
  | (k, x) :: xs, (l, y) :: ys =>
    if hk : k = l then
      match decEq x y, decEqMembers xs ys with
      | isTrue hx, isTrue hxs => isTrue (by rw [hk, hx, hxs])
      | isFalse hx, _ => isFalse (by simp [hx])
      | _, isFalse hxs => isFalse (by simp [hxs])
    else isFalse (by simp [hk])

end

instance : DecidableEq (Json N) := decEq

/-- `v[name]` for a value that may be an object: the own member, or `none` for `undefined`. -/
def member (name : JsString) : Json N → Option (Json N)
  | .obj ms => ms.lookup name
  | _ => none

/-- `typeof v === "object"` and not `null`: objects and arrays. -/
def isObjectLike : Json N → Bool
  | .obj _ => true
  | .arr _ => true
  | _ => false

end Json

/-- A stored document (`DocumentData`): a JSON value over doubles. -/
abbrev Doc := Json JsNumber

end Baerly
