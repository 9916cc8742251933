import Baerly.SnapshotCodec

/-
  How many bytes a JSON text takes.

  SPEC: the bytes of an array are those of its items, a comma between any two, and the brackets
  (`jsonSize_arr`); the bytes of an object those of its members, with a colon each
  (`jsonSize_obj`).

  CRUX: a text in the middle of another one is encoded as it is by itself, because an ASCII unit
  stands on either side, so no surrogate pair spans the seam (`length_encode_append`).
-/

namespace Utf8

/-- An ASCII unit between two texts takes one byte, and the texts take what they take alone. -/
theorem length_encode_append {s t : List Unit16} {u : Unit16} (hu : u.val < 0x80) :
    (encode (s ++ u :: t)).length = (encode s).length + 1 + (encode t).length := by
  have hlow : low u = false := by
    simp only [low, decide_eq_false_iff_not]
    omega
  have hplain : surrogate u = false := by
    simp only [surrogate, decide_eq_false_iff_not]
    omega
  rw [encode_append hlow, encode_cons hplain, List.length_append, List.length_append, bytes,
    if_pos hu]
  simp only [List.length_cons, List.length_nil]
  omega

end Utf8

namespace Baerly

open Json
open JSON (join stringify stringifyItems_eq stringifyMembers_eq memberText)

/-- The bytes of a text. -/
def textSize (s : JsString) : Nat := (Utf8.encode s).length

/-- The bytes of a value as it is stored. -/
def jsonSize (N : NumberText) (v : Doc) : Nat := (encodeJsonBytes N v).length

variable {N : NumberText}

theorem textSize_append {s t : JsString} {u : Fin 65536} (hu : u.val < 0x80) :
    textSize (s ++ u :: t) = textSize s + 1 + textSize t :=
  Utf8.length_encode_append hu

theorem textSize_nil : textSize [] = 0 := rfl

theorem textSize_cons {u : Fin 65536} (hu : u.val < 0x80) (t : JsString) :
    textSize (u :: t) = 1 + textSize t := by
  have h := @textSize_append [] t u hu
  rw [List.nil_append, textSize_nil] at h
  omega

/-- A list of texts with commas between them. -/
theorem textSize_join (parts : List JsString) :
    textSize (join parts) = (parts.map textSize).sum + (parts.length - 1) := by
  induction parts with
  | nil => rfl
  | cons part parts ih =>
    cases parts with
    | nil =>
      show textSize part = textSize part + 0 + 0
      omega
    | cons next parts =>
      rw [show join (part :: next :: parts) = part ++ 44 :: join (next :: parts) from rfl,
        textSize_append (by decide), ih]
      simp only [List.map_cons, List.sum_cons, List.length_cons]
      omega

/-- A list of texts between brackets. -/
theorem textSize_bracketed {l r : Fin 65536} (hl : l.val < 0x80) (hr : r.val < 0x80)
    (parts : List JsString) : textSize (l :: (join parts ++ [r])) =
      (parts.map textSize).sum + (parts.length - 1) + 2 := by
  rw [textSize_cons hl, textSize_append hr, textSize_join, textSize_nil]
  omega

/-- **The bytes of an array.** -/
theorem jsonSize_arr (xs : List Doc) :
    jsonSize N (.arr xs) = (xs.map (jsonSize N)).sum + (xs.length - 1) + 2 := by
  show textSize (stringify N (.arr xs)) = _
  rw [stringify, textSize_bracketed (by decide) (by decide), stringifyItems_eq, List.map_map,
    List.length_map]
  rfl

/-- The bytes of a member. -/
def memberSize (N : NumberText) (m : JsString × Doc) : Nat :=
  textSize (JSON.quote m.1) + 1 + jsonSize N m.2

theorem textSize_memberText (m : JsString × Doc) : textSize (memberText N m) = memberSize N m := by
  rw [memberText, textSize_append (by decide)]
  rfl

/-- **The bytes of an object.** -/
theorem jsonSize_obj (ms : List (JsString × Doc)) :
    jsonSize N (.obj ms) = (ms.map (memberSize N)).sum + (ms.length - 1) + 2 := by
  have hparts : (ms.map (memberText N)).map textSize = ms.map (memberSize N) := by
    rw [List.map_map]
    exact List.map_congr_left fun m _ => textSize_memberText m
  show textSize (stringify N (.obj ms)) = _
  rw [stringify, textSize_bracketed (by decide) (by decide), stringifyMembers_eq, hparts,
    List.length_map]

end Baerly
