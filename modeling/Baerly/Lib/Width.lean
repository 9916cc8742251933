import Mathlib.Algebra.Ring.Nat
import Mathlib.Data.List.Lex
import Mathlib.Order.Fin.Basic

/-
  The widths of the alphabets in use: base-32 digits, bytes and UTF-16 code units.

  A numeral of `Fin n` carries a proof that `n` is not zero, and a membership test in a list of
  texts one that equality of texts is lawful.  Both are named here once, for every module.
-/

namespace Width

/-- Digits of a base-32 text can be written as numerals. -/
instance digit : NeZero 32 := ⟨by decide⟩

/-- So can bytes. -/
instance byte : NeZero 256 := ⟨by decide⟩

/-- So can UTF-16 code units. -/
instance unit : NeZero 65536 := ⟨by decide⟩

/-- Texts of code units have a lawful `==`. -/
instance text : LawfulBEq (List (Fin 65536)) := inferInstance

end Width
