import Baerly.Lib.Width

/-
  UTF-16 strings and their UTF-8 bytes.

  PROGRAM: `encode` is a text encoder: a surrogate pair is one code point, and a surrogate that is
  in no pair becomes U+FFFD.  `decode` is a strict decoder: it refuses overlong forms, surrogates
  and what lies beyond U+10FFFF.  `decodeText` refuses nothing: it puts U+FFFD in their place.

  SPEC: a string without lone surrogates comes back (`decode_encode`), so the encoder is injective
  on such strings.  It is not on others.  Bytes sort as the code points do (`encode_lt_iff`).

  CRUX: the bytes of one code point tell where they end, so decoding peels them off one code point
  at a time (`next_bytes`).
-/

namespace Utf8

/-- A UTF-16 code unit. -/
abbrev Unit16 := Fin 65536

abbrev Byte := Fin 256

/-! ## Code points -/

/-- A high surrogate. -/
def high (u : Unit16) : Bool := 0xD800 ≤ u.val ∧ u.val ≤ 0xDBFF

/-- A low surrogate. -/
def low (u : Unit16) : Bool := 0xDC00 ≤ u.val ∧ u.val ≤ 0xDFFF

/-- Either of them. -/
def surrogate (u : Unit16) : Bool := 0xD800 ≤ u.val ∧ u.val ≤ 0xDFFF

/-- A code unit outside a pair. -/
def scalar (u : Unit16) : Nat := if surrogate u then 0xFFFD else u.val

/-- A surrogate pair. -/
def pair (u v : Unit16) : Nat := 0x10000 + (u.val - 0xD800) * 0x400 + (v.val - 0xDC00)

/-- The code points of a string. -/
def codePoints : List Unit16 → List Nat
  | [] => []
  | [u] => [scalar u]
  | u :: v :: us =>
    if high u && low v then pair u v :: codePoints us else scalar u :: codePoints (v :: us)

/-- `isWellFormed()`: every surrogate is in a pair. -/
def wellFormed : List Unit16 → Bool
  | [] => true
  | [u] => !surrogate u
  | u :: v :: us =>
    if high u && low v then wellFormed us else !surrogate u && wellFormed (v :: us)

/-- The code units of a code point. -/
def units (n : Nat) : List Unit16 :=
  if n < 0x10000 then [Fin.ofNat 65536 n]
  else [Fin.ofNat 65536 (0xD800 + (n - 0x10000) / 0x400),
    Fin.ofNat 65536 (0xDC00 + (n - 0x10000) % 0x400)]

/-- A Unicode scalar value. -/
def isScalar (n : Nat) : Prop := n < 0xD800 ∨ (0xDFFF < n ∧ n < 0x110000)

theorem isScalar_scalar (u : Unit16) : isScalar (scalar u) := by
  have hu := u.isLt
  unfold scalar isScalar
  split
  next => omega
  next h =>
    simp only [surrogate, decide_eq_true_eq] at h
    omega

theorem isScalar_pair {u v : Unit16} (h : (high u && low v) = true) : isScalar (pair u v) := by
  simp only [high, low, Bool.and_eq_true, decide_eq_true_eq] at h
  unfold pair isScalar
  omega

theorem isScalar_of_mem {s : List Unit16} {n : Nat} (h : n ∈ codePoints s) : isScalar n := by
  fun_induction codePoints s with
  | case1 => cases h
  | case2 u =>
    have hn : n = scalar u := List.mem_singleton.mp h
    rw [hn]
    exact isScalar_scalar u
  | case3 u v us hpair ih =>
    rcases List.mem_cons.mp h with hn | h
    · rw [hn]
      exact isScalar_pair hpair
    · exact ih h
  | case4 u v us hpair ih =>
    rcases List.mem_cons.mp h with hn | h
    · rw [hn]
      exact isScalar_scalar u
    · exact ih h

theorem units_scalar {u : Unit16} (h : surrogate u = false) : units (scalar u) = [u] := by
  have hu : u.val < 0x10000 := u.isLt
  have hscalar : scalar u = u.val := by simp [scalar, h]
  have hunit : Fin.ofNat 65536 u.val = u := Fin.ext (Nat.mod_eq_of_lt u.isLt)
  rw [hscalar]
  simp only [units, hu, if_true, hunit]

theorem units_pair {u v : Unit16} (h : (high u && low v) = true) : units (pair u v) = [u, v] := by
  simp only [high, low, Bool.and_eq_true, decide_eq_true_eq] at h
  have hbig : ¬ pair u v < 0x10000 := by
    unfold pair
    omega
  have hhigh : Fin.ofNat 65536 (0xD800 + (pair u v - 0x10000) / 0x400) = u := by
    apply Fin.ext
    show (0xD800 + (pair u v - 0x10000) / 0x400) % 65536 = u.val
    unfold pair
    omega
  have hlow : Fin.ofNat 65536 (0xDC00 + (pair u v - 0x10000) % 0x400) = v := by
    apply Fin.ext
    show (0xDC00 + (pair u v - 0x10000) % 0x400) % 65536 = v.val
    unfold pair
    omega
  simp only [units, hbig, if_false, hhigh, hlow]

/-- The code points of a well-formed string determine it. -/
theorem units_codePoints {s : List Unit16} (h : wellFormed s = true) :
    (codePoints s).flatMap units = s := by
  fun_induction codePoints s with
  | case1 => rfl
  | case2 u =>
    rw [List.flatMap_singleton, units_scalar (by simpa [wellFormed] using h)]
  | case3 u v us hpair ih =>
    rw [wellFormed, if_pos hpair] at h
    rw [List.flatMap_cons, units_pair hpair, ih h]
    rfl
  | case4 u v us hpair ih =>
    rw [wellFormed, if_neg hpair, Bool.and_eq_true] at h
    rw [List.flatMap_cons, units_scalar (by simpa using h.1), ih h.2]
    rfl

/-- Strings can be cut before anything but a low surrogate. -/
theorem codePoints_append {s t : List Unit16} {u : Unit16} (hu : low u = false) :
    codePoints (s ++ u :: t) = codePoints s ++ codePoints (u :: t) := by
  fun_induction codePoints s with
  | case1 => rfl
  | case2 v =>
    rw [List.singleton_append, codePoints, if_neg (by simp [hu])]
    rfl
  | case3 v w us hpair ih =>
    rw [List.cons_append, List.cons_append, codePoints, if_pos hpair, ih]
    rfl
  | case4 v w us hpair ih =>
    rw [List.cons_append, List.cons_append, codePoints, if_neg hpair]
    show _ :: codePoints ((w :: us) ++ u :: t) = _
    rw [ih]
    rfl

/-! ## Well-formed strings -/

theorem high_of_pair {u v : Unit16} (h : (high u && low v) = true) : surrogate u = true := by
  simp only [high, low, surrogate, Bool.and_eq_true, decide_eq_true_eq] at h ⊢
  omega

theorem wellFormed_cons {u : Unit16} (hu : surrogate u = false) {s : List Unit16}
    (hs : wellFormed s = true) : wellFormed (u :: s) = true := by
  cases s with
  | nil => simp [wellFormed, hu]
  | cons v s =>
    have hpair : ¬ (high u && low v) = true := fun h => by
      rw [high_of_pair h] at hu
      cases hu
    rw [wellFormed, if_neg hpair, hu, hs]
    rfl

theorem wellFormed_of_plain {s : List Unit16} (h : ∀ u ∈ s, surrogate u = false) :
    wellFormed s = true := by
  induction s with
  | nil => rfl
  | cons u s ih =>
    exact wellFormed_cons (h u List.mem_cons_self) (ih fun v hv => h v (List.mem_cons_of_mem u hv))

/-- Well-formed strings can be put together. -/
theorem wellFormed_append {s t : List Unit16} (hs : wellFormed s = true) (ht : wellFormed t = true) :
    wellFormed (s ++ t) = true := by
  fun_induction wellFormed s with
  | case1 => exact ht
  | case2 u => exact wellFormed_cons (by simpa using hs) ht
  | case3 u v us hpair ih =>
    rw [List.cons_append, List.cons_append, wellFormed, if_pos hpair]
    exact ih hs
  | case4 u v us hpair ih =>
    rw [Bool.and_eq_true] at hs
    exact wellFormed_cons (by simpa using hs.1) (ih hs.2)

theorem wellFormed_plain_cons {u : Unit16} (hu : surrogate u = false) (t : List Unit16) :
    wellFormed (u :: t) = wellFormed t := by
  have hhigh : high u = false := by
    simp only [surrogate, high, decide_eq_false_iff_not] at hu ⊢
    omega
  cases t with
  | nil => simp [wellFormed, hu]
  | cons v t => simp [wellFormed, hu, hhigh]

/-- A string may be cut at a unit that is no surrogate. -/
theorem wellFormed_cut {u : Unit16} (hu : surrogate u = false) (s t : List Unit16) :
    wellFormed (s ++ u :: t) = (wellFormed s && wellFormed t) := by
  have hlow : low u = false := by
    simp only [surrogate, low, decide_eq_false_iff_not] at hu ⊢
    omega
  fun_induction wellFormed s with
  | case1 => rw [List.nil_append, wellFormed_plain_cons hu, Bool.true_and]
  | case2 v =>
    rw [List.singleton_append, wellFormed, if_neg (by simp [hlow]), wellFormed_plain_cons hu]
  | case3 v w us hpair ih => rw [List.cons_append, List.cons_append, wellFormed, if_pos hpair, ih]
  | case4 v w us hpair ih =>
    rw [List.cons_append, List.cons_append, wellFormed, if_neg hpair, ← List.cons_append, ih,
      Bool.and_assoc]

/-! ## Bytes -/

/-- The bytes of a code point. -/
def bytes (n : Nat) : List Byte :=
  if n < 0x80 then [Fin.ofNat 256 n]
  else if n < 0x800 then [Fin.ofNat 256 (0xC0 + n / 64), Fin.ofNat 256 (0x80 + n % 64)]
  else if n < 0x10000 then
    [Fin.ofNat 256 (0xE0 + n / 4096), Fin.ofNat 256 (0x80 + n / 64 % 64),
      Fin.ofNat 256 (0x80 + n % 64)]
  else
    [Fin.ofNat 256 (0xF0 + n / 262144), Fin.ofNat 256 (0x80 + n / 4096 % 64),
      Fin.ofNat 256 (0x80 + n / 64 % 64), Fin.ofNat 256 (0x80 + n % 64)]

/-- `new TextEncoder().encode(s)`. -/
def encode (s : List Unit16) : List Byte := (codePoints s).flatMap bytes

theorem encode_append {s t : List Unit16} {u : Unit16} (hu : low u = false) :
    encode (s ++ u :: t) = encode s ++ encode (u :: t) := by
  rw [encode, codePoints_append hu, List.flatMap_append]
  rfl

/-- A unit that is no surrogate is encoded by itself. -/
theorem encode_cons {u : Unit16} (hu : surrogate u = false) (s : List Unit16) :
    encode (u :: s) = bytes u.val ++ encode s := by
  have hscalar : scalar u = u.val := by rw [scalar, if_neg (by simp [hu])]
  have hhigh : high u = false := by
    simp only [surrogate, high, decide_eq_false_iff_not] at hu ⊢
    omega
  cases s with
  | nil => simp [encode, codePoints, hscalar]
  | cons v s =>
    rw [encode, codePoints, if_neg (by simp [hhigh]), List.flatMap_cons, hscalar]
    rfl

/-! ## Decoding -/

/-- A continuation byte. -/
def isTail (b : Byte) : Bool := 0x80 ≤ b.val ∧ b.val ≤ 0xBF

/-- Take one code point off. -/
def next : List Byte → Option (Nat × List Byte)
  | [] => none
  | a :: rest =>
    if a.val < 0x80 then some (a.val, rest)
    else if 0xC2 ≤ a.val ∧ a.val ≤ 0xDF then
      match rest with
      | b :: rest => if isTail b then some ((a.val - 0xC0) * 64 + (b.val - 0x80), rest) else none
      | [] => none
    else if 0xE0 ≤ a.val ∧ a.val ≤ 0xEF then
      match rest with
      | b :: c :: rest =>
        let n := (a.val - 0xE0) * 4096 + (b.val - 0x80) * 64 + (c.val - 0x80)
        if isTail b ∧ isTail c ∧ 0x800 ≤ n ∧ (n < 0xD800 ∨ 0xDFFF < n) then some (n, rest)
        else none
      | _ => none
    else if 0xF0 ≤ a.val ∧ a.val ≤ 0xF4 then
      match rest with
      | b :: c :: d :: rest =>
        let n := (a.val - 0xF0) * 262144 + (b.val - 0x80) * 4096 + (c.val - 0x80) * 64 +
          (d.val - 0x80)
        if isTail b ∧ isTail c ∧ isTail d ∧ 0x10000 ≤ n ∧ n < 0x110000 then some (n, rest)
        else none
      | _ => none
    else none

/-- The decoding loop; every code point takes at least one byte. -/
def decodeFrom : (fuel : Nat) → List Byte → Option (List Unit16)
  | _, [] => some []
  | 0, _ :: _ => none
  | fuel + 1, bs =>
    match next bs with
    | some (n, rest) => (decodeFrom fuel rest).map (units n ++ ·)
    | none => none

/-- `new TextDecoder("utf-8", { fatal: true, ignoreBOM: true }).decode(bytes)`. -/
def decode (bs : List Byte) : Option (List Unit16) := decodeFrom bs.length bs

theorem ofNat_byte {n : Nat} (h : n < 256) : (Fin.ofNat 256 n).val = n := Nat.mod_eq_of_lt h

/-- **The bytes of a code point tell where they end.** -/
theorem next_bytes {n : Nat} (h : isScalar n) (rest : List Byte) :
    next (bytes n ++ rest) = some (n, rest) := by
  unfold isScalar at h
  have hmod := Nat.mod_lt n (show 64 > 0 by decide)
  by_cases h1 : n < 0x80
  · have ha := ofNat_byte (show n < 256 by omega)
    simp only [bytes, h1, if_true, List.cons_append, List.nil_append, next, ha]
  by_cases h2 : n < 0x800
  · have ha := ofNat_byte (show 0xC0 + n / 64 < 256 by omega)
    have hb := ofNat_byte (show 0x80 + n % 64 < 256 by omega)
    have hlead : ¬ 0xC0 + n / 64 < 0x80 ∧ (0xC2 ≤ 0xC0 + n / 64 ∧ 0xC0 + n / 64 ≤ 0xDF) := by omega
    have htail : 0x80 ≤ 0x80 + n % 64 ∧ 0x80 + n % 64 ≤ 0xBF := by omega
    have hval : (0xC0 + n / 64 - 0xC0) * 64 + (0x80 + n % 64 - 0x80) = n := by omega
    simp only [bytes, h1, h2, if_true, if_false, List.cons_append, List.nil_append, next, isTail,
      ha, hb, hlead, htail, hval, and_self, decide_true]
  by_cases h3 : n < 0x10000
  · have ha := ofNat_byte (show 0xE0 + n / 4096 < 256 by omega)
    have hb := ofNat_byte (show 0x80 + n / 64 % 64 < 256 by omega)
    have hc := ofNat_byte (show 0x80 + n % 64 < 256 by omega)
    have hlead : ¬ 0xE0 + n / 4096 < 0x80 ∧ ¬ (0xC2 ≤ 0xE0 + n / 4096 ∧ 0xE0 + n / 4096 ≤ 0xDF) ∧
        (0xE0 ≤ 0xE0 + n / 4096 ∧ 0xE0 + n / 4096 ≤ 0xEF) := by omega
    have hval : (0xE0 + n / 4096 - 0xE0) * 4096 + (0x80 + n / 64 % 64 - 0x80) * 64 +
        (0x80 + n % 64 - 0x80) = n := by omega
    have hb' : 0x80 ≤ 0x80 + n / 64 % 64 ∧ 0x80 + n / 64 % 64 ≤ 0xBF := by omega
    have hc' : 0x80 ≤ 0x80 + n % 64 ∧ 0x80 + n % 64 ≤ 0xBF := by omega
    have hn : 0x800 ≤ n ∧ (n < 0xD800 ∨ 0xDFFF < n) := by omega
    simp only [bytes, h1, h2, h3, if_true, if_false, List.cons_append, List.nil_append, next, isTail,
      ha, hb, hc, hlead, hval, hb', hc', hn, and_self, decide_true]
  · have ha := ofNat_byte (show 0xF0 + n / 262144 < 256 by omega)
    have hb := ofNat_byte (show 0x80 + n / 4096 % 64 < 256 by omega)
    have hc := ofNat_byte (show 0x80 + n / 64 % 64 < 256 by omega)
    have hd := ofNat_byte (show 0x80 + n % 64 < 256 by omega)
    have hlead : ¬ 0xF0 + n / 262144 < 0x80 ∧
        ¬ (0xC2 ≤ 0xF0 + n / 262144 ∧ 0xF0 + n / 262144 ≤ 0xDF) ∧
        ¬ (0xE0 ≤ 0xF0 + n / 262144 ∧ 0xF0 + n / 262144 ≤ 0xEF) ∧
        (0xF0 ≤ 0xF0 + n / 262144 ∧ 0xF0 + n / 262144 ≤ 0xF4) := by omega
    have hval : (0xF0 + n / 262144 - 0xF0) * 262144 + (0x80 + n / 4096 % 64 - 0x80) * 4096 +
        (0x80 + n / 64 % 64 - 0x80) * 64 + (0x80 + n % 64 - 0x80) = n := by omega
    have hb' : 0x80 ≤ 0x80 + n / 4096 % 64 ∧ 0x80 + n / 4096 % 64 ≤ 0xBF := by omega
    have hc' : 0x80 ≤ 0x80 + n / 64 % 64 ∧ 0x80 + n / 64 % 64 ≤ 0xBF := by omega
    have hd' : 0x80 ≤ 0x80 + n % 64 ∧ 0x80 + n % 64 ≤ 0xBF := by omega
    have hn : 0x10000 ≤ n ∧ n < 0x110000 := by omega
    simp only [bytes, h1, h2, h3, if_true, if_false, List.cons_append, List.nil_append, next, isTail,
      ha, hb, hc, hd, hlead, hval, hb', hc', hd', hn, and_self, decide_true]

theorem bytes_ne_nil (n : Nat) : bytes n ≠ [] := by
  unfold bytes
  split
  · nofun
  · split
    · nofun
    · split <;> nofun

theorem decodeFrom_flatMap {ns : List Nat} (hns : ∀ n ∈ ns, isScalar n) :
    ∀ fuel, (ns.flatMap bytes).length ≤ fuel →
      decodeFrom fuel (ns.flatMap bytes) = some (ns.flatMap units) := by
  induction ns with
  | nil => intro fuel _; cases fuel <;> rfl
  | cons n ns ih =>
    intro fuel hfuel
    rw [List.flatMap_cons, List.length_append] at hfuel
    have hpos : 0 < (bytes n).length := List.length_pos_iff.mpr (bytes_ne_nil n)
    obtain ⟨fuel, rfl⟩ := Nat.exists_eq_succ_of_ne_zero (show fuel ≠ 0 by omega)
    have hnext := next_bytes (hns n List.mem_cons_self) (ns.flatMap bytes)
    have hrest := ih (fun m hm => hns m (List.mem_cons_of_mem n hm)) fuel (by omega)
    rw [List.flatMap_cons, List.flatMap_cons]
    obtain ⟨b, bs, hb⟩ := List.exists_cons_of_ne_nil (bytes_ne_nil n)
    rw [hb, List.cons_append] at hnext ⊢
    simp only [decodeFrom, hnext, hrest, Option.map_some]

/-- **A well-formed string comes back.** -/
theorem decode_encode {s : List Unit16} (h : wellFormed s = true) : decode (encode s) = some s := by
  rw [decode, encode, decodeFrom_flatMap (fun n hn => isScalar_of_mem hn) _ (Nat.le_refl _),
    units_codePoints h]

/-! ## Decoding with replacement -/

/-- May `b` follow the lead byte `a`?  The first continuation byte decides overlong forms,
    surrogates and what lies beyond U+10FFFF. -/
def follows (a b : Byte) : Bool :=
  if a.val = 0xE0 then 0xA0 ≤ b.val ∧ b.val ≤ 0xBF
  else if a.val = 0xED then 0x80 ≤ b.val ∧ b.val ≤ 0x9F
  else if a.val = 0xF0 then 0x90 ≤ b.val ∧ b.val ≤ 0xBF
  else if a.val = 0xF4 then 0x80 ≤ b.val ∧ b.val ≤ 0x8F
  else 0xE1 ≤ a.val ∧ a.val ≤ 0xF3 ∧ 0x80 ≤ b.val ∧ b.val ≤ 0xBF

/-- How many bytes one replacement character stands for: the longest start of a code point. -/
def brokenLength : List Byte → Nat
  | a :: b :: c :: _ =>
    if follows a b then (if 0xF0 ≤ a.val ∧ isTail c then 3 else 2) else 1
  | [a, b] => if follows a b then 2 else 1
  | _ => 1

/-- The replacing loop. -/
def decodeTextFrom : (fuel : Nat) → List Byte → List Unit16
  | 0, _ => []
  | _, [] => []
  | fuel + 1, bs =>
    match next bs with
    | some (n, rest) => units n ++ decodeTextFrom fuel rest
    | none => units 0xFFFD ++ decodeTextFrom fuel (bs.drop (brokenLength bs))

/-- The byte order mark. -/
def byteOrderMark : List Byte := [0xEF, 0xBB, 0xBF]

/-- `new TextDecoder().decode(bytes)`: drops a byte order mark, and puts U+FFFD where the bytes are
    not UTF-8. -/
def decodeText (bs : List Byte) : List Unit16 :=
  let body := if byteOrderMark.isPrefixOf bs then bs.drop 3 else bs
  decodeTextFrom body.length body

theorem decodeTextFrom_flatMap {ns : List Nat} (hns : ∀ n ∈ ns, isScalar n) :
    ∀ fuel, (ns.flatMap bytes).length ≤ fuel →
      decodeTextFrom fuel (ns.flatMap bytes) = ns.flatMap units := by
  induction ns with
  | nil => intro fuel _; cases fuel <;> rfl
  | cons n ns ih =>
    intro fuel hfuel
    rw [List.flatMap_cons, List.length_append] at hfuel
    have hpos : 0 < (bytes n).length := List.length_pos_iff.mpr (bytes_ne_nil n)
    obtain ⟨fuel, rfl⟩ := Nat.exists_eq_succ_of_ne_zero (show fuel ≠ 0 by omega)
    have hnext := next_bytes (hns n List.mem_cons_self) (ns.flatMap bytes)
    have hrest := ih (fun m hm => hns m (List.mem_cons_of_mem n hm)) fuel (by omega)
    rw [List.flatMap_cons, List.flatMap_cons]
    obtain ⟨b, bs, hb⟩ := List.exists_cons_of_ne_nil (bytes_ne_nil n)
    rw [hb, List.cons_append] at hnext ⊢
    simp only [decodeTextFrom, hnext, hrest]

/-- **A well-formed text that starts with an ASCII character comes back.** -/
theorem decodeText_encode {u : Unit16} {s : List Unit16} (hu : u.val < 0x80)
    (h : wellFormed (u :: s) = true) : decodeText (encode (u :: s)) = u :: s := by
  have hplain : surrogate u = false := by
    simp only [surrogate, decide_eq_false_iff_not]
    omega
  have hhead : encode (u :: s) = Fin.ofNat 256 u.val :: encode s := by
    rw [encode_cons hplain, bytes, if_pos hu]
    rfl
  have hmark : byteOrderMark.isPrefixOf (encode (u :: s)) = false := by
    have hne : ¬ (0xEF : Byte) = Fin.ofNat 256 u.val := by
      intro heq
      have hval := congrArg Fin.val heq
      rw [ofNat_byte (show u.val < 256 by omega)] at hval
      have hmod : (0xEF : Byte).val = 0xEF := rfl
      omega
    rw [hhead, byteOrderMark, List.isPrefixOf_cons_cons]
    simp only [beq_eq_false_iff_ne.mpr hne, Bool.false_and]
  rw [decodeText, hmark]
  show decodeTextFrom (encode (u :: s)).length (encode (u :: s)) = u :: s
  rw [encode, decodeTextFrom_flatMap (fun n hn => isScalar_of_mem hn) _ (Nat.le_refl _),
    units_codePoints h]

theorem encode_injective {s t : List Unit16} (hs : wellFormed s = true) (ht : wellFormed t = true)
    (h : encode s = encode t) : s = t := by
  have hdec := decode_encode hs
  rw [h, decode_encode ht] at hdec
  exact (Option.some.inj hdec).symm

/-! ## Order -/

/-- One step of comparing two byte strings. -/
theorem byte_step {m n : Nat} {r s : List Byte} (hn : n < 256) (h : m < n ∨ (m = n ∧ r < s)) :
    Fin.ofNat 256 m :: r < Fin.ofNat 256 n :: s := by
  rw [List.cons_lt_cons_iff]
  rcases h with hlt | ⟨rfl, hlt⟩
  · left
    show (Fin.ofNat 256 m).val < (Fin.ofNat 256 n).val
    rw [ofNat_byte (by omega), ofNat_byte hn]
    exact hlt
  · exact Or.inr ⟨rfl, hlt⟩

/-- The first byte of a code point. -/
def lead (n : Nat) : Nat :=
  if n < 0x80 then n else if n < 0x800 then 0xC0 + n / 64
  else if n < 0x10000 then 0xE0 + n / 4096 else 0xF0 + n / 262144

theorem bytes_lead (n : Nat) : ∃ r, bytes n = Fin.ofNat 256 (lead n) :: r := by
  unfold bytes lead
  split
  next => exact ⟨_, rfl⟩
  next =>
    split
    next => exact ⟨_, rfl⟩
    next =>
      split
      next => exact ⟨_, rfl⟩
      next => exact ⟨_, rfl⟩

theorem bytes_lt_of_lead {m n : Nat} (hn : lead n < 256) (h : lead m < lead n) (r s : List Byte) :
    bytes m ++ r < bytes n ++ s := by
  obtain ⟨tail, hm⟩ := bytes_lead m
  obtain ⟨tail', hn'⟩ := bytes_lead n
  rw [hm, hn', List.cons_append, List.cons_append]
  exact byte_step hn (Or.inl h)

/-- **Code points sort as their bytes do, whatever follows.** -/
theorem bytes_lt {m n : Nat} (hn : isScalar n) (h : m < n) (r s : List Byte) :
    bytes m ++ r < bytes n ++ s := by
  have hmax : n < 0x110000 := by
    unfold isScalar at hn
    omega
  have hlead : lead n < 256 := by
    unfold lead
    split_ifs <;> omega
  -- a shorter form has a smaller first byte, so only forms of one length are compared further
  rcases Nat.lt_or_ge (lead m) (lead n) with hlt | hge
  · exact bytes_lt_of_lead hlead hlt r s
  by_cases h1 : n < 0x80
  · have hm : m < 0x80 := by omega
    simp only [bytes, h1, hm, if_true, List.cons_append]
    exact byte_step (by omega) (Or.inl h)
  have hm1 : ¬ m < 0x80 := by
    unfold lead at hge
    split_ifs at hge <;> omega
  by_cases h2 : n < 0x800
  · have hm2 : m < 0x800 := by omega
    simp only [bytes, h1, h2, hm1, hm2, if_true, if_false, List.cons_append]
    refine byte_step (by omega) ?_
    have hparts : m / 64 < n / 64 ∨ (m / 64 = n / 64 ∧ m % 64 < n % 64) := by omega
    rcases hparts with hd | ⟨hd, hl⟩
    · exact Or.inl (by omega)
    · exact Or.inr ⟨by omega, byte_step (by omega) (Or.inl (by omega))⟩
  have hm2 : ¬ m < 0x800 := by
    unfold lead at hge
    split_ifs at hge <;> omega
  by_cases h3 : n < 0x10000
  · have hm3 : m < 0x10000 := by omega
    simp only [bytes, h1, h2, h3, hm1, hm2, hm3, if_true, if_false, List.cons_append]
    refine byte_step (by omega) ?_
    have hparts : m / 4096 < n / 4096 ∨ (m / 4096 = n / 4096 ∧ (m / 64 % 64 < n / 64 % 64 ∨
        (m / 64 % 64 = n / 64 % 64 ∧ m % 64 < n % 64))) := by omega
    rcases hparts with hd | ⟨hd, hl | ⟨hl, hll⟩⟩
    · exact Or.inl (by omega)
    · exact Or.inr ⟨by omega, byte_step (by omega) (Or.inl (by omega))⟩
    · exact Or.inr ⟨by omega, byte_step (by omega)
        (Or.inr ⟨by omega, byte_step (by omega) (Or.inl (by omega))⟩)⟩
  have hm3 : ¬ m < 0x10000 := by
    unfold lead at hge
    split_ifs at hge <;> omega
  simp only [bytes, h1, h2, h3, hm1, hm2, hm3, if_false, List.cons_append]
  refine byte_step (by omega) ?_
  have hparts : m / 262144 < n / 262144 ∨ (m / 262144 = n / 262144 ∧
      (m / 4096 % 64 < n / 4096 % 64 ∨ (m / 4096 % 64 = n / 4096 % 64 ∧
        (m / 64 % 64 < n / 64 % 64 ∨ (m / 64 % 64 = n / 64 % 64 ∧ m % 64 < n % 64))))) := by omega
  rcases hparts with hd | ⟨hd, hl | ⟨hl, hll | ⟨hll, hlll⟩⟩⟩
  · exact Or.inl (by omega)
  · exact Or.inr ⟨by omega, byte_step (by omega) (Or.inl (by omega))⟩
  · exact Or.inr ⟨by omega, byte_step (by omega)
      (Or.inr ⟨by omega, byte_step (by omega) (Or.inl (by omega))⟩)⟩
  · exact Or.inr ⟨by omega, byte_step (by omega) (Or.inr ⟨by omega, byte_step (by omega)
      (Or.inr ⟨by omega, byte_step (by omega) (Or.inl (by omega))⟩)⟩)⟩

/-- Strings of code points sort as their bytes do. -/
theorem flatMap_bytes_lt {ms ns : List Nat} (hns : ∀ n ∈ ns, isScalar n) (h : ms < ns) :
    ms.flatMap bytes < ns.flatMap bytes := by
  induction ms generalizing ns with
  | nil =>
    cases ns with
    | nil => exact absurd h (lt_irrefl _)
    | cons n ns =>
      obtain ⟨tail, hn⟩ := bytes_lead n
      rw [List.flatMap_nil, List.flatMap_cons, hn, List.cons_append]
      exact List.nil_lt_cons _ _
  | cons m ms ih =>
    cases ns with
    | nil => exact absurd h (List.not_lt_nil _)
    | cons n ns =>
      rw [List.flatMap_cons, List.flatMap_cons]
      rcases List.cons_lt_cons_iff.mp h with hlt | ⟨rfl, hlt⟩
      · exact bytes_lt (hns n List.mem_cons_self) hlt _ _
      · exact List.append_left_lt (ih (fun x hx => hns x (List.mem_cons_of_mem m hx)) hlt)

/-- **The order of UTF-8 bytes is the order of code points.** -/
theorem encode_lt_iff {s t : List Unit16} : encode s < encode t ↔ codePoints s < codePoints t := by
  constructor
  · intro h
    rcases lt_trichotomy (codePoints s) (codePoints t) with hlt | heq | hgt
    · exact hlt
    · rw [encode, encode, heq] at h
      exact absurd h (lt_irrefl _)
    · have hback : encode t < encode s := flatMap_bytes_lt (fun n hn => isScalar_of_mem hn) hgt
      exact absurd (h.trans hback) (lt_irrefl _)
  · exact flatMap_bytes_lt fun n hn => isScalar_of_mem hn

end Utf8
