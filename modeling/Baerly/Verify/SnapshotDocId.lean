import Baerly.SnapshotDocId
import Baerly.Verify.Canonical

/-
  Document ids are compared as their UTF-8 bytes.

  SPEC (`compareDocIds_utf8`): on the ids `assertSnapshotDocId` accepts, `compareDocIds` is a strict
  total order, and it is the lexicographic order of the UTF-8 encodings.

  CRUX: an offset is always at the start of a code point, so the two loops read the lists of code
  points (`compareFrom_eq`); a code point above U+FFFF is one step there, not two units that would
  sort below U+E000.  UTF-8 was made to sort by code point (`Utf8.encode_lt_iff`).
-/

namespace Baerly.SnapshotDocId

/-! ## The loop over one id -/

/-- A high surrogate needs a low one after it. -/
theorem wellFormed_high {u : Fin 65536} (hu : Utf8.high u = true) (s : JsString) :
    Utf8.wellFormed (u :: s) = (s.head?.any Utf8.low && Utf8.wellFormed s.tail) := by
  have hsurrogate : Utf8.surrogate u = true := by
    simp only [Utf8.high, Utf8.surrogate, decide_eq_true_eq] at hu ⊢
    omega
  cases s with
  | nil => simp [Utf8.wellFormed, hsurrogate]
  | cons v s =>
    rw [Utf8.wellFormed]
    cases hv : Utf8.low v
    · simp [hu, hv, hsurrogate]
    · simp [hu, hv]

/-- Any other unit must not be a low one. -/
theorem wellFormed_plain {u : Fin 65536} (hu : Utf8.high u = false) (s : JsString) :
    Utf8.wellFormed (u :: s) = (!Utf8.low u && Utf8.wellFormed s) := by
  have hsurrogate : Utf8.surrogate u = Utf8.low u := by
    simp only [Utf8.high, Utf8.surrogate, Utf8.low, decide_eq_false_iff_not] at hu ⊢
    rw [decide_eq_decide]
    omega
  cases s with
  | nil => simp [Utf8.wellFormed, hsurrogate]
  | cons v s =>
    rw [Utf8.wellFormed]
    simp [hu, hsurrogate]

/-- The loop accepts what is well formed from the offset on. -/
theorem assertPaired_eq (id : JsString) (offset : Nat) : assertPaired id offset =
    if Utf8.wellFormed (id.drop offset) then .ok () else .error isolatedSurrogate := by
  fun_induction assertPaired id offset with
  | case1 offset h hhigh hlow ih =>
    have hnext : (id.drop (offset + 1)).head?.any Utf8.low = true := by
      rw [List.head?_drop]
      exact hlow
    rw [ih, List.drop_eq_getElem_cons h, wellFormed_high hhigh, hnext, List.tail_drop]
    rfl
  | case2 offset h hhigh hlow =>
    have hnext : (id.drop (offset + 1)).head?.any Utf8.low = false := by
      rw [List.head?_drop]
      exact Bool.eq_false_iff.mpr hlow
    rw [List.drop_eq_getElem_cons h, wellFormed_high hhigh, hnext]
    rfl
  | case3 offset h hhigh hlow =>
    rw [List.drop_eq_getElem_cons h, wellFormed_plain (Bool.eq_false_iff.mpr hhigh), hlow]
    rfl
  | case4 offset h hhigh hlow ih =>
    rw [ih, List.drop_eq_getElem_cons h, wellFormed_plain (Bool.eq_false_iff.mpr hhigh),
      Bool.eq_false_iff.mpr hlow]
    rfl
  | case5 offset h =>
    rw [List.drop_eq_nil_of_le (by omega)]
    rfl

/-- The loop and the check on lists refuse the same ids, with the same message. -/
theorem assertSnapshotDocId_eq (id : JsString) :
    assertSnapshotDocId id = Baerly.assertSnapshotDocId id := by
  unfold assertSnapshotDocId Baerly.assertSnapshotDocId
  rw [assertPaired_eq]
  rfl

/-- An accepted id is well formed. -/
theorem wellFormed_of_accepted {id : JsString} (h : assertSnapshotDocId id = .ok ()) :
    Utf8.wellFormed id = true := by
  unfold assertSnapshotDocId at h
  rw [assertPaired_eq] at h
  cases hpath : assertPathSegment id "_id" with
  | error e =>
    rw [hpath] at h
    cases h
  | ok _ =>
    rw [hpath] at h
    by_contra hwf
    rw [List.drop_zero] at h
    have herror : (if Utf8.wellFormed id = true then .ok () else .error isolatedSurrogate :
        Except Err Unit) = .ok () := h
    rw [if_neg hwf] at herror
    cases herror

/-! ## The loop over two ids -/

/-- The points of a well-formed id are its code points. -/
theorem idPoints_wellFormed {s : JsString} (h : Utf8.wellFormed s = true) :
    idPoints s = Utf8.codePoints s := by
  have hscalar : ∀ {u : Fin 65536}, Utf8.surrogate u = false → Utf8.scalar u = u.val := by
    intro u hu
    rw [Utf8.scalar, if_neg (by simp [hu])]
  fun_induction idPoints s with
  | case1 => rfl
  | case2 u =>
    rw [Utf8.codePoints, hscalar (by simpa [Utf8.wellFormed] using h)]
  | case3 u v us hpair ih =>
    rw [Utf8.wellFormed, if_pos hpair] at h
    rw [Utf8.codePoints, if_pos hpair, ih h]
  | case4 u v us hpair ih =>
    rw [Utf8.wellFormed, if_neg hpair, Bool.and_eq_true] at h
    rw [Utf8.codePoints, if_neg hpair, ih h.2, hscalar (by simpa using h.1)]

/-- Inside a string an offset has a code point, and its width leads to the next one. -/
theorem idPoints_drop {s : JsString} {offset : Nat} (h : offset < s.length) :
    ∃ p, codePointAt s offset = some p ∧ offset + width p ≤ s.length ∧
      idPoints (s.drop offset) = p :: idPoints (s.drop (offset + width p)) := by
  have hdrop := List.drop_eq_getElem_cons h
  have hsmall : width s[offset].val = 1 := by
    have hlt := s[offset].isLt
    rw [width, if_neg (by omega)]
  unfold codePointAt
  rw [List.getElem?_eq_getElem h]
  by_cases hnext : offset + 1 < s.length
  · rw [List.getElem?_eq_getElem hnext, hdrop, List.drop_eq_getElem_cons hnext]
    by_cases hpair : (Utf8.high s[offset] && Utf8.low s[offset + 1]) = true
    · have hwide : width (Utf8.pair s[offset] s[offset + 1]) = 2 := by
        rw [width, if_pos]
        unfold Utf8.pair
        omega
      refine ⟨Utf8.pair s[offset] s[offset + 1], if_pos hpair, by omega, ?_⟩
      rw [idPoints, if_pos hpair, hwide]
    · refine ⟨s[offset].val, if_neg hpair, by omega, ?_⟩
      rw [idPoints, if_neg hpair, hsmall, List.drop_eq_getElem_cons hnext]
  · rw [List.getElem?_eq_none (by omega), hdrop, List.drop_eq_nil_of_le (by omega)]
    refine ⟨s[offset].val, rfl, by omega, ?_⟩
    rw [hsmall, List.drop_eq_nil_of_le (by omega)]
    rfl

/-- What `compareDocIds` returns for an outcome. -/
def answer : Ordering → Int
  | .lt => -1
  | .eq => 0
  | .gt => 1

/-- **The loop compares the code points that are left.** -/
theorem compareFrom_eq {left right : JsString} (lo ro : Nat) (hl : lo ≤ left.length)
    (hr : ro ≤ right.length) : compareFrom left right lo ro =
      answer (comparePoints (idPoints (left.drop lo)) (idPoints (right.drop ro))) := by
  fun_induction compareFrom left right lo ro with
  | case1 lo ro h p q hne hlt =>
    obtain ⟨p', hp, -, hpoints⟩ := idPoints_drop h.1
    obtain ⟨q', hq, -, hqoints⟩ := idPoints_drop h.2
    have hpp : p = p' := by simp [p, hp]
    have hqq : q = q' := by simp [q, hq]
    rw [hpp, hqq] at hne hlt
    rw [hpoints, hqoints, comparePoints, if_neg hne, if_pos hlt]
    rfl
  | case2 lo ro h p q hne hlt =>
    obtain ⟨p', hp, -, hpoints⟩ := idPoints_drop h.1
    obtain ⟨q', hq, -, hqoints⟩ := idPoints_drop h.2
    have hpp : p = p' := by simp [p, hp]
    have hqq : q = q' := by simp [q, hq]
    rw [hpp, hqq] at hne hlt
    rw [hpoints, hqoints, comparePoints, if_neg hne, if_neg hlt]
    rfl
  | case3 lo ro h p q heq ih =>
    obtain ⟨p', hp, hin, hpoints⟩ := idPoints_drop h.1
    obtain ⟨q', hq, hin', hqoints⟩ := idPoints_drop h.2
    have hpp : p = p' := by simp [p, hp]
    have hqq : q = q' := by simp [q, hq]
    rw [hpp, hqq] at heq ih
    rw [hpoints, hqoints, comparePoints, if_pos (not_not.mp heq), hpp, hqq]
    exact ih hin hin'
  | case4 lo ro h hends =>
    rw [hends.1, hends.2, List.drop_length, List.drop_length]
    rfl
  | case5 ro h hends =>
    obtain ⟨q', -, -, hqoints⟩ := @idPoints_drop right ro (by omega)
    rw [List.drop_length, hqoints]
    rfl
  | case6 lo ro h hends hleft =>
    obtain ⟨p', -, -, hpoints⟩ := @idPoints_drop left lo (by omega)
    rw [hpoints, List.drop_eq_nil_of_le (show right.length ≤ ro by omega)]
    rfl

/-- The comparison of the snapshot codec is that of the writer. -/
theorem compareDocIds_eq (left right : JsString) :
    compareDocIds left right = answer (Baerly.compareDocIds left right) := by
  rw [compareDocIds, compareFrom_eq 0 0 (Nat.zero_le _) (Nat.zero_le _), List.drop_zero,
    List.drop_zero]
  rfl

/-! ## The order -/

/-- It is negative in the order of code points. -/
theorem compareDocIds_neg_iff {a b : JsString} :
    compareDocIds a b < 0 ↔ idPoints a < idPoints b := by
  have hlt : Baerly.compareDocIds a b = .lt ↔ idPoints a < idPoints b := compareDocIds_lt_iff
  rw [compareDocIds_eq, ← hlt]
  cases Baerly.compareDocIds a b <;> simp [answer]

/-- And positive in the converse order. -/
theorem compareDocIds_pos_iff {a b : JsString} :
    0 < compareDocIds a b ↔ idPoints b < idPoints a := by
  have hgt : Baerly.compareDocIds a b = .gt ↔ idPoints b < idPoints a := compareDocIds_gt_iff
  rw [compareDocIds_eq, ← hgt]
  cases Baerly.compareDocIds a b <;> simp [answer]

/-- It is zero for equal ids only. -/
theorem compareDocIds_zero_iff {a b : JsString} : compareDocIds a b = 0 ↔ a = b := by
  have hneg := @compareDocIds_neg_iff a b
  have hpos := @compareDocIds_pos_iff a b
  constructor
  · intro h
    rw [h] at hneg hpos
    apply idPoints_injective
    rcases lt_trichotomy (idPoints a) (idPoints b) with hlt | heq | hgt
    · exact absurd (hneg.mpr hlt) (by decide)
    · exact heq
    · exact absurd (hpos.mpr hgt) (by decide)
  · rintro rfl
    have hnot : ¬ compareDocIds a a < 0 := fun h => lt_irrefl _ (hneg.mp h)
    have hnot' : ¬ 0 < compareDocIds a a := fun h => lt_irrefl _ (hpos.mp h)
    omega

/-- For accepted ids the order of code points is that of the UTF-8 bytes. -/
theorem idPoints_lt_iff {a b : JsString} (ha : assertSnapshotDocId a = .ok ())
    (hb : assertSnapshotDocId b = .ok ()) :
    idPoints a < idPoints b ↔ Utf8.encode a < Utf8.encode b := by
  rw [idPoints_wellFormed (wellFormed_of_accepted ha),
    idPoints_wellFormed (wellFormed_of_accepted hb), Utf8.encode_lt_iff]

/-- **On accepted ids `compareDocIds` is a strict total order, the lexicographic order of their
    UTF-8 bytes.** -/
theorem compareDocIds_utf8 {a b c : JsString} (ha : assertSnapshotDocId a = .ok ())
    (hb : assertSnapshotDocId b = .ok ()) (hc : assertSnapshotDocId c = .ok ()) :
    ¬ compareDocIds a a < 0 ∧
    (compareDocIds a b < 0 → compareDocIds b c < 0 → compareDocIds a c < 0) ∧
    (compareDocIds a b < 0 ∨ a = b ∨ compareDocIds b a < 0) ∧
    (compareDocIds a b < 0 ↔ Utf8.encode a < Utf8.encode b) ∧
    (compareDocIds a b = 0 ↔ a = b) ∧
    (0 < compareDocIds a b ↔ Utf8.encode b < Utf8.encode a) := by
  have horder : ∀ {x y : JsString}, assertSnapshotDocId x = .ok () →
      assertSnapshotDocId y = .ok () → (compareDocIds x y < 0 ↔ Utf8.encode x < Utf8.encode y) :=
    fun hx hy => compareDocIds_neg_iff.trans (idPoints_lt_iff hx hy)
  refine ⟨?_, ?_, ?_, horder ha hb, compareDocIds_zero_iff, ?_⟩
  · rw [horder ha ha]
    exact lt_irrefl _
  · rw [horder ha hb, horder hb hc, horder ha hc]
    exact fun hab hbc => hab.trans hbc
  · rw [compareDocIds_neg_iff, compareDocIds_neg_iff]
    rcases lt_trichotomy (idPoints a) (idPoints b) with hlt | heq | hgt
    · exact Or.inl hlt
    · exact Or.inr (Or.inl (idPoints_injective heq))
    · exact Or.inr (Or.inr hgt)
  · exact compareDocIds_pos_iff.trans (idPoints_lt_iff hb ha)

/-- U+FFFD comes before U+10000, although its code unit is the larger one. -/
theorem compareDocIds_utf8_astral : compareDocIds [0xFFFD] [0xD800, 0xDC00] < 0 ∧
    ¬ (([0xFFFD] : JsString) < [0xD800, 0xDC00]) := by
  have hleft : assertSnapshotDocId [0xFFFD] = .ok () := by
    rw [assertSnapshotDocId_eq]
    decide +kernel
  have hright : assertSnapshotDocId [0xD800, 0xDC00] = .ok () := by
    rw [assertSnapshotDocId_eq]
    decide +kernel
  refine ⟨?_, by decide⟩
  rw [(compareDocIds_utf8 hleft hright hleft).2.2.2.1]
  decide

end Baerly.SnapshotDocId
