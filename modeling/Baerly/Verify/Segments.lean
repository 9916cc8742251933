import Baerly.IndexKeys

/-
  What the segment of a value says about the value.

  SPEC: segments sort as the encoded bytes do (`segment_lt_iff`), which is numeric order on numbers
  (`encodeNumberPayload_lt`) and UTF-8 byte order on strings; and two values have one segment iff
  they are the same tree, strings up to their UTF-8 bytes (`segment_eq_iff`).  A segment is a word
  over `0`…`9`, `a`…`v`, all of which sort above the slash that ends it.

  CRUX: a number's payload is its 64 bits with the order of the negative half turned around; sign
  bit and type tag decide before any other bit does.
-/

namespace Baerly

variable {N : NumberText}

/-! ## Numbers -/

/-- The bits of a number that is not negative are its place among the doubles. -/
theorem float64Bits_nonneg {n : JsNumber} (h : 0 ≤ n.ord) :
    float64Bits n = n.ord.toNat ∧ float64Bits n < 2 ^ 63 := by
  have hfin := n.finite.2
  simp only [infinityBits] at hfin
  rw [float64Bits, if_pos h]
  exact ⟨rfl, by omega⟩

/-- Those of a negative number have the sign bit set above its distance from zero. -/
theorem float64Bits_neg {n : JsNumber} (h : n.ord < 0) :
    float64Bits n = 2 ^ 63 + n.ord.natAbs ∧ float64Bits n < 2 ^ 64 := by
  have hfin := n.finite.1
  simp only [infinityBits] at hfin
  rw [float64Bits, if_neg (by omega)]
  exact ⟨rfl, by omega⟩

/-- The first byte of the bits. -/
theorem bits_head (m : Nat) : BigEndian.bigEndian 8 m =
    Fin.ofNat 256 (m / 2 ^ 56) :: BigEndian.bigEndian 7 m := rfl

/-- The first of eight bytes is the quotient by 2^56. -/
theorem head_val {m : Nat} (h : m < 2 ^ 64) : (Fin.ofNat 256 (m / 2 ^ 56)).val = m / 2 ^ 56 :=
  Nat.mod_eq_of_lt (by omega)

theorem setSign_val : ∀ b : Fin 256, b.val < 128 → (b ^^^ 0x80).val = b.val + 128 := by decide +kernel

/-- Of a non-negative number only the sign bit is flipped. -/
theorem payload_nonneg {n : JsNumber} (h : 0 ≤ n.ord) : encodeNumberPayload n =
    (Fin.ofNat 256 (float64Bits n / 2 ^ 56) ^^^ 0x80) :: BigEndian.bigEndian 7 (float64Bits n) ∧
      (Fin.ofNat 256 (float64Bits n / 2 ^ 56)).val < 128 := by
  obtain ⟨-, hlt⟩ := float64Bits_nonneg h
  have hhead : (Fin.ofNat 256 (float64Bits n / 2 ^ 56)).val < 128 := by
    rw [head_val (by omega)]
    omega
  refine ⟨?_, hhead⟩
  simp only [encodeNumberPayload, bits_head]
  rw [if_pos hhead]

/-- Of a negative number all bits are, so that the greater magnitude sorts first. -/
theorem payload_neg {n : JsNumber} (h : n.ord < 0) : encodeNumberPayload n =
    (BigEndian.bigEndian 8 (float64Bits n)).map BigEndian.flip ∧
      128 ≤ (Fin.ofNat 256 (float64Bits n / 2 ^ 56)).val := by
  obtain ⟨hbits, hlt⟩ := float64Bits_neg h
  have hhead : 128 ≤ (Fin.ofNat 256 (float64Bits n / 2 ^ 56)).val := by
    rw [head_val hlt]
    omega
  refine ⟨?_, hhead⟩
  simp only [encodeNumberPayload, bits_head]
  rw [if_neg (by omega)]

/-- Big-endian bytes of one width sort as the numbers do. -/
theorem bigEndian_lt_bits {m n : Nat} (hm : m < 2 ^ 64) (hn : n < 2 ^ 64) (h : m < n) :
    BigEndian.bigEndian 8 m < BigEndian.bigEndian 8 n := by
  refine BigEndian.bigEndian_lt ?_
  rw [Nat.mod_eq_of_lt (by omega), Nat.mod_eq_of_lt (by omega)]
  exact h

/-- **Payloads sort as the numbers do.** -/
theorem encodeNumberPayload_lt {a b : JsNumber} (h : a < b) :
    encodeNumberPayload a < encodeNumberPayload b := by
  have hord : a.ord < b.ord := h
  rcases Int.lt_or_le a.ord 0 with ha | ha
  · obtain ⟨hbits, hlt⟩ := float64Bits_neg ha
    obtain ⟨hpa, hhead⟩ := payload_neg ha
    rcases Int.lt_or_le b.ord 0 with hb | hb
    · -- the larger magnitude is the smaller number
      obtain ⟨hbits', hlt'⟩ := float64Bits_neg hb
      rw [hpa, (payload_neg hb).1]
      refine BigEndian.complement_lt (by simp) (bigEndian_lt_bits hlt' hlt ?_)
      rw [hbits, hbits']
      omega
    · obtain ⟨hpb, hheadb⟩ := payload_nonneg hb
      rw [hpa, hpb, bits_head, List.map_cons, List.cons_lt_cons_iff]
      left
      have hflip := BigEndian.flip_val (Fin.ofNat 256 (float64Bits a / 2 ^ 56))
      have hset := setSign_val _ hheadb
      show (BigEndian.flip _).val < (_ ^^^ _ : Fin 256).val
      omega
  · obtain ⟨hbits, hlt⟩ := float64Bits_nonneg ha
    obtain ⟨hpa, hhead⟩ := payload_nonneg ha
    have hb : 0 ≤ b.ord := by omega
    obtain ⟨hbits', hlt'⟩ := float64Bits_nonneg hb
    obtain ⟨hpb, hheadb⟩ := payload_nonneg hb
    have hall := bigEndian_lt_bits (by omega) (by omega)
      (show float64Bits a < float64Bits b by rw [hbits, hbits']; omega)
    rw [bits_head, bits_head, List.cons_lt_cons_iff] at hall
    rw [hpa, hpb, List.cons_lt_cons_iff]
    rcases hall with hlt | ⟨heq, hrest⟩
    · left
      have h₁ := setSign_val _ hhead
      have h₂ := setSign_val _ hheadb
      have hlt' : (Fin.ofNat 256 (float64Bits a / 2 ^ 56)).val <
          (Fin.ofNat 256 (float64Bits b / 2 ^ 56)).val := hlt
      show (_ ^^^ _ : Fin 256).val < (_ ^^^ _ : Fin 256).val
      omega
    · exact Or.inr ⟨by rw [heq], hrest⟩

/-! ## Values -/

/-- A strictly monotone map of letters is one of words. -/
theorem map_strictMono {α β : Type} [LinearOrder α] [LinearOrder β] {f : α → β} (hf : StrictMono f) :
    StrictMono (List.map f) := by
  intro xs ys h
  induction xs generalizing ys with
  | nil =>
    cases ys with
    | nil => exact absurd h (lt_irrefl _)
    | cons y ys => exact List.nil_lt_cons _ _
  | cons x xs ih =>
    cases ys with
    | nil => exact absurd h (List.not_lt_nil _)
    | cons y ys =>
      rw [List.map_cons, List.map_cons, List.cons_lt_cons_iff]
      rcases List.cons_lt_cons_iff.mp h with hxy | ⟨rfl, hrest⟩
      · exact Or.inl (hf hxy)
      · exact Or.inr ⟨rfl, ih hrest⟩

/-- The base-32 alphabet is in the order of its digits. -/
theorem b32Unit_strictMono : StrictMono b32Unit := by
  have h : ∀ a b : Fin 32, a < b → b32Unit a < b32Unit b := by decide +kernel
  exact h

theorem segment_strictMono : StrictMono fun bytes => (Base32.encode bytes).map b32Unit :=
  (map_strictMono b32Unit_strictMono).comp Base32.encode_strictMono

/-- **Segments sort as the encoded bytes do.** -/
theorem segment_lt_iff {v w : Doc} :
    encodeIndexValue N v < encodeIndexValue N w ↔ encodeBytes N v < encodeBytes N w :=
  segment_strictMono.lt_iff_lt

/-- Segments sort as the bytes they encode. -/
theorem Property.segment_lt_iff {p q : Property} :
    p.segment N < q.segment N ↔ p.bytes N < q.bytes N :=
  segment_strictMono.lt_iff_lt

/-- Equal segments encode the same bytes. -/
theorem Property.segment_eq_bytes {p q : Property} :
    p.segment N = q.segment N ↔ p.bytes N = q.bytes N :=
  segment_strictMono.injective.eq_iff

/-- The same value, as far as its segment tells: strings up to their UTF-8 bytes, everything else
    as the same tree. -/
def SameSegment : Doc → Doc → Prop
  | .str a, .str b => Utf8.encode a = Utf8.encode b
  | v, w => v = w

/-- A value has its own segment. -/
theorem SameSegment.refl (v : Doc) : SameSegment v v := by
  cases v <;> rfl

/-- Different numbers have different payloads, since these sort differently. -/
theorem payload_injective {a b : JsNumber} (h : encodeNumberPayload a = encodeNumberPayload b) :
    a = b := by
  rcases lt_trichotomy a b with hlt | heq | hgt
  · exact absurd h (ne_of_lt (encodeNumberPayload_lt hlt))
  · exact heq
  · exact absurd h.symm (ne_of_lt (encodeNumberPayload_lt hgt))

/-- The tag of a value's type, the first byte. -/
def typeTag : Doc → Fin 256
  | .null => 0x10
  | .bool false => 0x20
  | .bool true => 0x21
  | .num _ => 0x30
  | .str _ => 0x40
  | _ => 0x50

/-- The first byte of an encoding is the tag of its type. -/
theorem encodeBytes_head (v : Doc) : ∃ bytes, encodeBytes N v = typeTag v :: bytes := by
  cases v with
  | bool b => cases b <;> exact ⟨_, rfl⟩
  | _ => exact ⟨_, rfl⟩

/-- So equal encodings are of one type. -/
theorem typeTag_eq {v w : Doc} (h : encodeBytes N v = encodeBytes N w) : typeTag v = typeTag w := by
  obtain ⟨bs, hv⟩ := @encodeBytes_head N v
  obtain ⟨cs, hw⟩ := @encodeBytes_head N w
  rw [hv, hw] at h
  exact (List.cons.inj h).1

/-- **Encodings are equal only for the same value**, for strings up to their UTF-8 bytes. -/
theorem encodeBytes_eq {v w : Doc} (h : encodeBytes N v = encodeBytes N w) : SameSegment v w := by
  have htag := typeTag_eq h
  have hobject : ∀ {v w : Doc}, encodeBytes N v = 0x50 :: Utf8.encode (JSON.stringify N v) →
      encodeBytes N w = 0x50 :: Utf8.encode (JSON.stringify N w) → encodeBytes N v = encodeBytes N w →
      v = w := by
    intro v w hv hw heq
    rw [hv, hw] at heq
    exact JSON.encode_stringify_injective (List.cons.inj heq).2
  cases v with
  | null => cases w with
    | null => rfl
    | bool b => cases b <;> exact absurd htag (by simp [typeTag])
    | _ => exact absurd htag (by simp [typeTag])
  | bool a => cases w with
    | bool b =>
      cases a <;> cases b
      · rfl
      · exact absurd htag (by decide)
      · exact absurd htag (by decide)
      · rfl
    | _ => cases a <;> exact absurd htag (by simp [typeTag])
  | num a => cases w with
    | num b =>
      have hab := payload_injective (List.cons.inj h).2
      rw [hab]
      exact SameSegment.refl _
    | bool b => cases b <;> exact absurd htag (by simp [typeTag])
    | _ => exact absurd htag (by simp [typeTag])
  | str a => cases w with
    | str b => exact (List.cons.inj h).2
    | bool b => cases b <;> exact absurd htag (by simp [typeTag])
    | _ => exact absurd htag (by simp [typeTag])
  | arr xs => cases w with
    | arr ys => exact hobject rfl rfl h
    | obj ms => exact hobject rfl rfl h
    | bool b => cases b <;> exact absurd htag (by simp [typeTag])
    | _ => exact absurd htag (by simp [typeTag])
  | obj ms => cases w with
    | arr ys => exact hobject rfl rfl h
    | obj ns => exact hobject rfl rfl h
    | bool b => cases b <;> exact absurd htag (by simp [typeTag])
    | _ => exact absurd htag (by simp [typeTag])

/-- The converse. -/
theorem SameSegment.encodeBytes_eq {v w : Doc} (h : SameSegment v w) :
    encodeBytes N v = encodeBytes N w := by
  cases v with
  | str a => cases w with
    | str b =>
      have hab : Utf8.encode a = Utf8.encode b := h
      rw [encodeBytes, encodeBytes, hab]
    | _ => cases h
  | _ =>
    have heq : _ = w := h
    rw [heq]

/-- **What two values with one segment have in common.** -/
theorem segment_eq_iff {v w : Doc} :
    encodeIndexValue N v = encodeIndexValue N w ↔ SameSegment v w := by
  constructor
  · intro h
    exact encodeBytes_eq (segment_strictMono.injective h)
  · intro h
    rw [encodeIndexValue, h.encodeBytes_eq, encodeIndexValue]

/-- No JSON value is written as the bare tag, which is all there is of a function. -/
theorem encodeBytes_ne_tag (v : Doc) : encodeBytes N v ≠ [0x50] := by
  have hplain : ∀ {u : Fin 65536} {s : JsString}, Utf8.surrogate u = false → u.val < 0x80 →
      Utf8.encode (u :: s) ≠ [] := by
    intro u s hu hlt
    rw [Utf8.encode_cons hu, Utf8.bytes, if_pos hlt]
    exact List.cons_ne_nil _ _
  intro h
  cases v with
  | bool b => cases b <;> exact absurd h (by simp [encodeBytes])
  | arr xs => exact hplain (by decide) (by decide) (List.cons.inj h).2
  | obj ms => exact hplain (by decide) (by decide) (List.cons.inj h).2
  | _ => exact absurd h (by simp [encodeBytes])

/-- What was read has the segment of a JSON value: it is written for the same one. -/
def Property.SameSegment (p : Property) (v : Doc) : Prop :=
  ∃ u, p.encoded = some u ∧ Baerly.SameSegment u v

/-- **What a property and a value with one segment have in common.** -/
theorem Property.segment_eq_iff {p : Property} {v : Doc} :
    p.segment N = encodeIndexValue N v ↔ p.SameSegment v := by
  have hbytes : p.segment N = encodeIndexValue N v ↔ p.bytes N = encodeBytes N v :=
    segment_strictMono.injective.eq_iff
  rw [hbytes, Property.bytes, Property.SameSegment]
  cases p.encoded with
  | none =>
    refine ⟨fun h => absurd h.symm (encodeBytes_ne_tag v), ?_⟩
    rintro ⟨u, hu, -⟩
    cases hu
  | some u =>
    refine ⟨fun h => ⟨u, rfl, encodeBytes_eq h⟩, ?_⟩
    rintro ⟨w, hw, hsame⟩
    cases hw
    exact hsame.encodeBytes_eq

/-! ## The characters of a segment -/

/-- `0`…`9` and `a`…`v`. -/
def isSegmentUnit (u : Fin 65536) : Bool := (48 ≤ u.val ∧ u.val ≤ 57) ∨ (97 ≤ u.val ∧ u.val ≤ 118)

theorem isSegmentUnit_b32Unit : ∀ d : Fin 32, isSegmentUnit (b32Unit d) = true := by decide +kernel

/-- Segments are written in the base-32 alphabet. -/
theorem segment_units {p : Property} {u : Fin 65536} (h : u ∈ p.segment N) :
    isSegmentUnit u = true := by
  obtain ⟨d, -, rfl⟩ := List.mem_map.mp h
  exact isSegmentUnit_b32Unit d

/-- The alphabet lies between `0` and `v`, so below `~` and above `/`. -/
theorem isSegmentUnit_range {u : Fin 65536} (h : isSegmentUnit u = true) :
    48 ≤ u.val ∧ u.val ≤ 118 := by
  simp only [isSegmentUnit, decide_eq_true_eq] at h
  omega

/-- No segment contains a slash: a key splits into its segments. -/
theorem slash_notMem_segment (p : Property) : slash ∉ p.segment N := by
  intro h
  exact absurd (segment_units h) (by decide)

end Baerly
