import Baerly.Lib.Utf8

/-
  Percent-encoding of bytes.

  PROGRAM: a byte is written as one character of its own where there is one, and as `%XX` where
  there is none.  Which bytes have a character, and which one, is left open (`spell`).

  SPEC: if no two bytes share a character and none is spelled `%`, the text determines the bytes
  (`encode_injective`); and a character that is in no spelling and no escape is not in the text
  (`not_mem_encode`), so it can separate encoded words.
-/

namespace Percent

open Utf8

/-- An upper-case hexadecimal digit. -/
def hexDigit (n : Nat) : Unit16 :=
  if n < 10 then Fin.ofNat 65536 (48 + n) else Fin.ofNat 65536 (55 + n)

/-- `%XX`. -/
def escape (b : Byte) : List Unit16 := [37, hexDigit (b.val / 16), hexDigit (b.val % 16)]

/-- One byte. -/
def token (spell : Byte → Option Unit16) (b : Byte) : List Unit16 :=
  match spell b with
  | some u => [u]
  | none => escape b

/-- The text of the bytes. -/
def encode (spell : Byte → Option Unit16) (bs : List Byte) : List Unit16 := bs.flatMap (token spell)

/-- A spelling that can be read back. -/
structure Readable (spell : Byte → Option Unit16) : Prop where
  inj : ∀ {b c : Byte} {u : Unit16}, spell b = some u → spell c = some u → b = c
  mark : ∀ {b : Byte}, spell b ≠ some 37

theorem hexDigit_inj : ∀ m < 16, ∀ n < 16, hexDigit m = hexDigit n → m = n := by decide

theorem escape_inj {b c : Byte} (h : escape b = escape c) : b = c := by
  simp only [escape, List.cons.injEq, true_and, and_true] at h
  have hhigh := hexDigit_inj _ (by omega) _ (by omega) h.1
  have hlow := hexDigit_inj _ (by omega) _ (by omega) h.2
  apply Fin.ext
  omega

variable {spell : Byte → Option Unit16}

/-- A token is taken off the front of a text in one way only. -/
theorem token_cut (hs : Readable spell) {b c : Byte} {x y : List Unit16}
    (h : token spell b ++ x = token spell c ++ y) : b = c ∧ x = y := by
  unfold token at h
  cases hb : spell b with
  | some u =>
    cases hc : spell c with
    | some v =>
      rw [hb, hc] at h
      obtain ⟨rfl, rfl⟩ := List.cons.inj h
      exact ⟨hs.inj hb hc, rfl⟩
    | none =>
      -- an escape starts with the mark, which spells no byte
      rw [hb, hc] at h
      obtain ⟨rfl, -⟩ := List.cons.inj h
      exact absurd hb hs.mark
  | none =>
    cases hc : spell c with
    | some v =>
      rw [hb, hc] at h
      obtain ⟨rfl, -⟩ := List.cons.inj h
      exact absurd hc hs.mark
    | none =>
      rw [hb, hc] at h
      obtain ⟨hesc, hrest⟩ := List.append_inj h rfl
      exact ⟨escape_inj hesc, hrest⟩

theorem token_ne_nil (b : Byte) : token spell b ≠ [] := by
  unfold token
  split
  · exact List.cons_ne_nil _ _
  · exact List.cons_ne_nil _ _

/-- **The text determines the bytes.** -/
theorem encode_injective (hs : Readable spell) : Function.Injective (encode spell) := by
  intro bs
  induction bs with
  | nil =>
    intro cs h
    cases cs with
    | nil => rfl
    | cons c cs => exact absurd (List.append_eq_nil_iff.mp h.symm).1 (token_ne_nil c)
  | cons b bs ih =>
    intro cs h
    cases cs with
    | nil => exact absurd (List.append_eq_nil_iff.mp h).1 (token_ne_nil b)
    | cons c cs =>
      obtain ⟨rfl, hrest⟩ := token_cut hs h
      rw [ih hrest]

/-- A character that spells no byte and is in no escape separates texts. -/
theorem not_mem_encode {u : Unit16} (hspell : ∀ b, spell b ≠ some u) (hmark : u ≠ 37)
    (hhex : ∀ n < 16, hexDigit n ≠ u) (bs : List Byte) : u ∉ encode spell bs := by
  intro h
  obtain ⟨b, -, hb⟩ := List.mem_flatMap.mp h
  unfold token at hb
  split at hb
  next v hv =>
    rw [List.mem_singleton] at hb
    exact hspell b (hb ▸ hv)
  next =>
    simp only [escape, List.mem_cons, List.not_mem_nil, or_false] at hb
    rcases hb with hb | hb | hb
    · exact hmark hb
    · exact hhex _ (by omega) hb.symm
    · exact hhex _ (by omega) hb.symm

end Percent
