import Baerly.CursorText

/-
  Counters and cursors as strings.

  SPEC: on every width up to 53 bits a descending counter has its fixed length, is read back, and
  sorts against the order of the numbers (`uint2strDesc_exact`).  A cursor that was minted is
  accepted and says which generation and seq it was minted for (`cursors_accepted`).

  CRUX: `2 ^ bits - 1 - n` is a whole number of at most 53 bits, so no subtraction rounds, and it
  fits the digits the width allows.  The alphabets of the parts leave out the characters that join
  them, so every part is read back whole.
-/

namespace Baerly.CursorText

/-! ## Digits -/

/-- A digit reads back as its value. -/
theorem digitValue_digitUnit : ∀ d < 32, digitValue (digitUnit d) = some d := by decide

theorem isBase32_digitUnit : ∀ d < 32, isBase32 (digitUnit d) = true := by decide

/-- No digit is white space or a sign. -/
theorem digitUnit_plain : ∀ d < 32,
    isWhiteSpace (digitUnit d) = false ∧ digitUnit d ≠ 45 ∧ digitUnit d ≠ 43 := by decide

/-- The alphabet is in the order of the digits. -/
theorem digitUnit_lt : ∀ d < 32, ∀ e < 32, d < e → digitUnit d < digitUnit e := by decide

/-- So texts of digits sort as their digits do. -/
theorem map_digitUnit_lt {xs ys : List Nat} (hx : ∀ d ∈ xs, d < 32) (hy : ∀ d ∈ ys, d < 32)
    (h : xs < ys) : xs.map digitUnit < ys.map digitUnit := by
  induction xs generalizing ys with
  | nil =>
    cases ys with
    | nil => exact absurd h (lt_irrefl _)
    | cons y ys => exact List.nil_lt_cons _ _
  | cons x xs ih =>
    cases ys with
    | nil => exact absurd h (List.not_lt_nil _)
    | cons y ys =>
      rw [List.map_cons, List.map_cons, List.cons_lt_cons_iff]
      rcases List.cons_lt_cons_iff.mp h with hxy | ⟨rfl, hrest⟩
      · exact Or.inl (digitUnit_lt x (hx x List.mem_cons_self) y (hy y List.mem_cons_self) hxy)
      · exact Or.inr ⟨rfl, ih (fun d hd => hx d (List.mem_cons_of_mem x hd))
          (fun d hd => hy d (List.mem_cons_of_mem x hd)) hrest⟩

/-- `parseInt` takes a text of digits to its end. -/
theorem leadingDigits_map {ds : List Nat} (h : ∀ d ∈ ds, d < 32) :
    leadingDigits (ds.map digitUnit) = ds := by
  induction ds with
  | nil => rfl
  | cons d ds ih =>
    have hd := h d List.mem_cons_self
    rw [List.map_cons, leadingDigits, digitValue_digitUnit d hd]
    simp only [hd, if_true, ih fun e he => h e (List.mem_cons_of_mem d he)]

/-- `parseInt` reads a string of digits whole. -/
theorem parseInt32_map {ds : List Nat} (hne : ds ≠ []) (h : ∀ d ∈ ds, d < 32) :
    parseInt32 (ds.map digitUnit) = some (Float64.nearest (Radix.value 32 ds)) := by
  obtain ⟨d, ds, rfl⟩ := List.exists_cons_of_ne_nil hne
  obtain ⟨hspace, hminus, hplus⟩ := digitUnit_plain d (h d List.mem_cons_self)
  have hdigits := leadingDigits_map h
  rw [List.map_cons] at hdigits
  unfold parseInt32
  rw [List.map_cons, List.dropWhile_cons_of_neg (by simp [hspace])]
  simp only [hminus, hplus, if_false, parseDigits, hdigits, Option.map_some]

/-- Padding with the digit zero is padding with zeros. -/
theorem padStart_map (w : Nat) (ds : List Nat) :
    padStart w (ds.map digitUnit) = (Radix.padded w ds).map digitUnit := by
  rw [padStart, Radix.padded, List.map_append, List.map_replicate, List.length_map]
  rfl

/-! ## Counters -/

theorem two_pow_le {bits : Nat} (h : bits ≤ 53) : 2 ^ bits ≤ 2 ^ 53 :=
  Nat.pow_le_pow_right (by decide) h

/-- Whole numbers up to the largest one are exact. -/
theorem nearest_small {bits n : Nat} (hbits : bits ≤ 53) (h : n < 2 ^ bits) :
    Float64.nearest n = n := by
  have hpow := two_pow_le hbits
  exact Float64.nearest_of_lt (by omega)

/-- The greatest value of a width, up to 53 bits exactly. -/
theorem maxValue_eq {bits : Nat} (h : bits ≤ 53) : maxValue bits = ((2 ^ bits - 1 : Nat) : Int) := by
  have hpos : 0 < 2 ^ bits := Nat.pow_pos (by decide)
  have hcast : (2 ^ bits - 1 : Int) = ((2 ^ bits - 1 : Nat) : Int) := by
    rw [Nat.cast_sub hpos]
    push_cast
    rfl
  rw [maxValue, hcast, nearest_small h (by omega)]

/-- The complement is exact as well. -/
theorem nearest_complement {bits n : Nat} (hbits : bits ≤ 53) (h : n < 2 ^ bits) :
    Float64.nearest (maxValue bits - n) = ((2 ^ bits - 1 - n : Nat) : Int) := by
  have hdiff : maxValue bits - n = ((2 ^ bits - 1 - n : Nat) : Int) := by
    rw [maxValue_eq hbits]
    omega
  rw [hdiff, nearest_small hbits (by omega)]

/-- Five bits to a digit. -/
theorem lt_width {bits n : Nat} (h : n < 2 ^ bits) : n < 32 ^ ((bits + 4) / 5) := by
  have hpow : 32 ^ ((bits + 4) / 5) = 2 ^ (5 * ((bits + 4) / 5)) := by
    rw [Nat.pow_mul]
  rw [hpow]
  exact Nat.lt_of_lt_of_le h (Nat.pow_le_pow_right (by decide) (by omega))

/-- **A descending counter is the fixed form of the complement.** -/
theorem uint2strDesc_eq {bits n : Nat} (hpos : 0 < bits) (hbits : bits ≤ 53) (h : n < 2 ^ bits) :
    uint2strDesc n bits =
      (Radix.fixed 32 ((bits + 4) / 5) (2 ^ bits - 1 - n)).map digitUnit := by
  have hfits : 2 ^ bits - 1 - n < 32 ^ ((bits + 4) / 5) := lt_width (by omega)
  have hnonneg : ¬ (((2 ^ bits - 1 - n : Nat) : Int) < 0) := by omega
  rw [uint2strDesc, nearest_complement hbits h, uint2str, toString32]
  simp only [hnonneg, if_false, Int.natAbs_natCast]
  rw [padStart_map, Radix.padded_eq (by decide) (by omega) hfits]

/-- A descending text is as wide as its bits need, in the base-32 alphabet. -/
theorem uint2strDesc_units {bits n : Nat} (hpos : 0 < bits) (hbits : bits ≤ 53) (h : n < 2 ^ bits) :
    uint2strDesc n bits ≠ [] ∧ (uint2strDesc n bits).all isBase32 = true ∧
      (uint2strDesc n bits).length = (bits + 4) / 5 := by
  have hlength : (uint2strDesc n bits).length = (bits + 4) / 5 := by
    rw [uint2strDesc_eq hpos hbits h, List.length_map, Radix.length_fixed]
  refine ⟨?_, ?_, hlength⟩
  · intro hnil
    rw [hnil, List.length_nil] at hlength
    omega
  · rw [uint2strDesc_eq hpos hbits h, List.all_eq_true]
    intro u hu
    obtain ⟨d, hd, rfl⟩ := List.mem_map.mp hu
    exact isBase32_digitUnit d (Radix.lt_of_mem_fixed (by decide) hd)

/-- **It reads back** as the number it was written for. -/
theorem str2uintDesc_uint2strDesc {bits n : Nat} (hpos : 0 < bits) (hbits : bits ≤ 53)
    (h : n < 2 ^ bits) : str2uintDesc (uint2strDesc n bits) bits = some (n : Int) := by
  have hne : Radix.fixed 32 ((bits + 4) / 5) (2 ^ bits - 1 - n) ≠ [] := by
    rw [← List.length_pos_iff, Radix.length_fixed]
    omega
  have hcomplement : 2 ^ bits - 1 - (2 ^ bits - 1 - n) = n := by omega
  rw [str2uintDesc, uint2strDesc_eq hpos hbits h,
    parseInt32_map hne fun d hd => Radix.lt_of_mem_fixed (by decide) hd,
    Radix.value_fixed (lt_width (by omega)), nearest_small hbits (by omega), Option.map_some,
    nearest_complement hbits (by omega), hcomplement]

/-- **It descends**: a greater number has a smaller text. -/
theorem uint2strDesc_lt {bits m n : Nat} (hpos : 0 < bits) (hbits : bits ≤ 53) (h : n < 2 ^ bits)
    (hmn : m < n) : uint2strDesc n bits < uint2strDesc m bits := by
  rw [uint2strDesc_eq hpos hbits h, uint2strDesc_eq hpos hbits (hmn.trans h)]
  exact map_digitUnit_lt (fun d hd => Radix.lt_of_mem_fixed (by decide) hd)
    (fun d hd => Radix.lt_of_mem_fixed (by decide) hd)
    (Radix.fixed_lt (lt_width (by omega)) (by omega))

/-- **A descending counter has its fixed length, is read back, and sorts the other way round.** -/
theorem uint2strDesc_exact {bits n : Nat} (hpos : 1 ≤ bits) (hbits : bits ≤ 53)
    (h : n < 2 ^ bits) : (uint2strDesc n bits).length = (bits + 4) / 5 ∧
      str2uintDesc (uint2strDesc n bits) bits = some (n : Int) ∧
      ∀ m < n, uint2strDesc n bits < uint2strDesc m bits :=
  ⟨(uint2strDesc_units hpos hbits h).2.2, str2uintDesc_uint2strDesc hpos hbits h,
    fun _ hmn => uint2strDesc_lt hpos hbits h hmn⟩

/-- The largest seq. -/
theorem uint2strDesc_exact_maxSafe :
    (uint2strDesc ((2 ^ 53 - 1 : Nat) : Int) 53).length = 11 ∧
      str2uintDesc (uint2strDesc ((2 ^ 53 - 1 : Nat) : Int) 53) 53 = some ((2 ^ 53 - 1 : Nat) : Int) ∧
      uint2strDesc ((2 ^ 53 - 1 : Nat) : Int) 53 < uint2strDesc ((2 ^ 53 - 2 : Nat) : Int) 53 := by
  obtain ⟨hlength, hback, hlt⟩ :=
    @uint2strDesc_exact 53 (2 ^ 53 - 1) (by decide) (by decide) (by decide)
  exact ⟨hlength, hback, hlt (2 ^ 53 - 2) (by decide)⟩

/-! ## Minted tokens -/

/-- Hexadecimal digits are in the base-32 alphabet. -/
theorem isBase32_of_hex {u : Fin 65536} (h : isLowerHex u = true) : isBase32 u = true := by
  simp only [isLowerHex, isBase32, decide_eq_true_eq] at h ⊢
  omega

/-- The characters that join the parts are in none of them. -/
theorem notMem_of_base32 {s : JsString} (h : s.all isBase32 = true) : 95 ∉ s ∧ 46 ∉ s := by
  rw [List.all_eq_true] at h
  exact ⟨fun hmem => absurd (h 95 hmem) (by decide), fun hmem => absurd (h 46 hmem) (by decide)⟩

/-- A UUID is lower-case hexadecimal but for its four dashes. -/
theorem uuid_unit {uuid : JsString} (h : isUuid uuid = true) {i : Nat} (hi : i < uuid.length) :
    (i ∈ [8, 13, 18, 23] → uuid[i] = 45) ∧
      (i ∉ [8, 13, 18, 23] → isLowerHex uuid[i] = true) := by
  have hall := (decide_eq_true_eq.mp h).2 (uuid[i], i) (by
    rw [List.mem_zipIdx_iff_getElem?]
    exact List.getElem?_eq_getElem hi)
  constructor
  · intro hdash
    rwa [if_pos hdash] at hall
  · intro hdash
    rwa [if_neg hdash] at hall

theorem uuid_length {uuid : JsString} (h : isUuid uuid = true) : uuid.length = 36 :=
  (decide_eq_true_eq.mp h).1

/-- A session is six hex digits. -/
theorem mintSession_units {uuid : JsString} (h : isUuid uuid = true) :
    mintSession uuid ≠ [] ∧ (mintSession uuid).all isBase32 = true := by
  have hlength := uuid_length h
  constructor
  · intro hnil
    have hlen := congrArg List.length hnil
    rw [mintSession, List.length_take, hlength] at hlen
    cases hlen
  · rw [List.all_eq_true]
    intro u hu
    obtain ⟨i, hi, rfl⟩ := List.getElem_of_mem hu
    rw [mintSession, List.length_take, hlength] at hi
    have hi' : i < 6 := hi
    have hplace : i ∉ [8, 13, 18, 23] := by
      simp only [List.mem_cons, List.not_mem_nil, or_false]
      omega
    simp only [mintSession, List.getElem_take]
    exact isBase32_of_hex ((uuid_unit h (by omega)).2 hplace)

/-- A generation is a run of hex digits. -/
theorem mintGeneration_units {uuid : JsString} (h : isUuid uuid = true) :
    mintGeneration uuid ≠ [] ∧ (mintGeneration uuid).all isLowerHex = true := by
  have hlength := uuid_length h
  have hhex : ∀ u ∈ uuid, u ≠ 45 → isLowerHex u = true := by
    intro u hu hdash
    obtain ⟨i, hi, rfl⟩ := List.getElem_of_mem hu
    exact (uuid_unit h hi).2 fun hplace => hdash ((uuid_unit h hi).1 hplace)
  constructor
  · -- the first digit stays
    have hfirst := (uuid_unit h (show 0 < uuid.length by omega)).2 (by decide)
    have hkept : uuid[0] ∈ uuid.filter (· ≠ 45) := by
      rw [List.mem_filter]
      refine ⟨List.getElem_mem _, decide_eq_true ?_⟩
      intro hdash
      rw [hdash] at hfirst
      exact absurd hfirst (by decide)
    intro hnil
    rw [mintGeneration, List.take_eq_nil_iff] at hnil
    rcases hnil with hnil | hnil
    · cases hnil
    · rw [hnil] at hkept
      cases hkept
  · rw [List.all_eq_true]
    intro u hu
    have hmem := List.mem_filter.mp (List.mem_of_mem_take hu)
    exact hhex u hmem.1 (of_decide_eq_true hmem.2)

/-! ## Lsns -/

/-- A timestamp is a text of the base-32 alphabet. -/
theorem timestamp_units {epoch : Int} {time : JsString} (h : timestamp epoch = .ok time) :
    time ≠ [] ∧ time.all isBase32 = true := by
  unfold timestamp at h
  split at h
  next => cases h
  next hepoch =>
    cases h
    obtain ⟨n, rfl⟩ := Int.eq_ofNat_of_zero_le (show 0 ≤ epoch by omega)
    have hn : n < 2 ^ 42 := by
      have hlt : ¬ (2 ^ 42 : Int) ≤ n := fun hle => hepoch (Or.inr hle)
      omega
    obtain ⟨hne, hall, -⟩ := @uint2strDesc_units 42 n (by decide) (by decide) hn
    exact ⟨hne, hall⟩

/-- What is known of a minted lsn: its three parts, over the alphabet that leaves out what joins
    them. -/
structure Minted (lsn session : JsString) (seq : Nat) : Prop where
  parts : ∃ time, time ≠ [] ∧ time.all isBase32 = true ∧
    lsn = time ++ 95 :: (session ++ 95 :: countKey seq)
  session : session ≠ [] ∧ session.all isBase32 = true
  seq : seq < 2 ^ 53

/-- **A minted lsn has its three parts**, for every clock that mints one. -/
theorem mintLsn_minted {now : Int} {uuid lsn : JsString} {seq : Nat} (hu : isUuid uuid = true)
    (hseq : seq < 2 ^ 53) (h : mintLsn now (mintSession uuid) seq = .ok lsn) :
    Minted lsn (mintSession uuid) seq := by
  refine ⟨?_, mintSession_units hu, hseq⟩
  unfold mintLsn at h
  cases ht : timestamp now with
  | error e =>
    rw [ht] at h
    cases h
  | ok time =>
    rw [ht] at h
    obtain ⟨hne, hall⟩ := timestamp_units ht
    cases h
    exact ⟨time, hne, hall, rfl⟩

variable {lsn session : JsString} {seq : Nat}

/-- The counter part has its fixed width. -/
theorem Minted.countKey_units (h : Minted lsn session seq) :
    (countKey seq).all isBase32 = true ∧ (countKey seq).length = seqChars :=
  (@uint2strDesc_units 53 seq (by decide) (by decide) h.seq).2

/-- Splitting at `_` gives the three parts back: none contains one. -/
theorem Minted.splitOn (h : Minted lsn session seq) : ∃ time, time ≠ [] ∧
    time.all isBase32 = true ∧ lsn.splitOn 95 = [time, session, countKey seq] := by
  obtain ⟨time, hne, hall, rfl⟩ := h.parts
  refine ⟨time, hne, hall, ?_⟩
  rw [List.splitOn_append_cons_self_of_not_mem (notMem_of_base32 hall).1,
    List.splitOn_append_cons_self_of_not_mem (notMem_of_base32 h.session.2).1,
    List.splitOn_eq_singleton (notMem_of_base32 h.countKey_units.1).1]

/-- Nor does an lsn contain the dot that joins it to a generation. -/
theorem Minted.dot_notMem (h : Minted lsn session seq) : 46 ∉ lsn := by
  obtain ⟨time, -, hall, rfl⟩ := h.parts
  have htime := (notMem_of_base32 hall).2
  have hsession := (notMem_of_base32 h.session.2).2
  have hcount := (notMem_of_base32 h.countKey_units.1).2
  simp only [List.mem_append, List.mem_cons, not_or]
  exact ⟨htime, by decide, hsession, by decide, hcount⟩

/-- A minted lsn passes the check of a cursor. -/
theorem Minted.lsnOk (h : Minted lsn session seq) : lsnOk lsn = true := by
  obtain ⟨time, hne, hall, hsplit⟩ := h.splitOn
  unfold CursorText.lsnOk
  rw [hsplit]
  exact decide_eq_true ⟨hne, hall, h.session.1, h.session.2, h.countKey_units.2, h.countKey_units.1⟩

/-- Its session and its slot are read back. -/
theorem Minted.lsnParts (h : Minted lsn session seq) :
    lsnParts lsn = .ok (session, some (seq : Int)) := by
  obtain ⟨time, -, -, hsplit⟩ := h.splitOn
  unfold CursorText.lsnParts
  rw [hsplit]
  have hback : str2uintDesc (countKey seq) countBitWidth = some (seq : Int) :=
    str2uintDesc_uint2strDesc (by decide) (by decide) h.seq
  simp only [hback]

/-! ## Cursors -/

/-- A minted lsn is a cursor by itself. -/
theorem Minted.decodeCursor_bare (h : Minted lsn session seq) :
    decodeCursor lsn = .ok (noGeneration, lsn) := by
  have hparse : parseCursor lsn = .ok (noGeneration, lsn) := by
    unfold parseCursor
    rw [List.splitOn_eq_singleton h.dot_notMem]
  have hgeneration : cursorGenerationOk noGeneration = true := by decide
  unfold decodeCursor
  rw [hparse]
  show (if cursorGenerationOk noGeneration = true ∧ CursorText.lsnOk lsn = true then _ else _) = _
  rw [if_pos ⟨hgeneration, h.lsnOk⟩]

/-- **A formatted cursor decodes** to the generation and the lsn it was made of. -/
theorem Minted.decodeCursor_format (h : Minted lsn session seq) {generation : JsString}
    (hne : generation ≠ []) (hhex : generation.all isLowerHex = true) :
    decodeCursor (formatCursor (some generation) lsn) = .ok (generation, lsn) := by
  have hdot : 46 ∉ generation := by
    rw [List.all_eq_true] at hhex
    exact fun hmem => absurd (hhex 46 hmem) (by decide)
  have hparse : parseCursor (generation ++ 46 :: lsn) = .ok (generation, lsn) := by
    unfold parseCursor
    rw [List.splitOn_append_cons_self_of_not_mem hdot, List.splitOn_eq_singleton h.dot_notMem]
  have hgeneration : cursorGenerationOk generation = true :=
    decide_eq_true (Or.inl ⟨hne, hhex⟩)
  unfold decodeCursor formatCursor
  simp only [hparse]
  show (if cursorGenerationOk generation = true ∧ CursorText.lsnOk lsn = true then _ else _) = _
  rw [if_pos ⟨hgeneration, h.lsnOk⟩]

/-- Different lsns have different cursors. -/
theorem formatCursor_injective (generation : Option JsString) :
    Function.Injective (formatCursor generation) := by
  intro a b h
  cases generation with
  | none => exact h
  | some g => exact (List.cons.inj (List.append_cancel_left h)).2

/-- **Cursors minted are cursors accepted**: whatever the generation, the session, the instant and
    the seq, an lsn and the cursor made from it decode to what they were minted from, and other seqs
    have other cursors. -/
theorem cursors_accepted {generation : Option JsString} {uuid uuid' lsn lsn' : JsString}
    {now now' : Int} {seq seq' : Nat} (before : List JsString)
    (hg : ∀ g, generation = some g → ∃ u, isUuid u = true ∧ g = mintGeneration u)
    (hu : isUuid uuid = true) (hu' : isUuid uuid' = true)
    (hseq : seq ≤ 2 ^ 53 - 1) (hseq' : seq' ≤ 2 ^ 53 - 1)
    (h : mintLsn now (mintSession uuid) seq = .ok lsn)
    (h' : mintLsn now' (mintSession uuid') seq' = .ok lsn') :
    lsnParts lsn = .ok (mintSession uuid, some (seq : Int)) ∧
    decodeCursor lsn = .ok (noGeneration, lsn) ∧
    (∃ cursor, nextCursor generation (before ++ [lsn]) = some cursor ∧
      decodeCursor cursor = .ok (generation.getD noGeneration, lsn)) ∧
    (seq ≠ seq' → lsn ≠ lsn' ∧
      nextCursor generation (before ++ [lsn]) ≠ nextCursor generation (before ++ [lsn'])) := by
  have hm := mintLsn_minted hu (by omega) h
  have hm' := mintLsn_minted hu' (by omega) h'
  have hnext : ∀ l : JsString, nextCursor generation (before ++ [l]) =
      some (formatCursor generation l) := fun l => by
    rw [nextCursor, List.getLast?_concat, Option.map_some]
  refine ⟨hm.lsnParts, hm.decodeCursor_bare, ⟨_, hnext lsn, ?_⟩, ?_⟩
  · cases generation with
    | none => exact hm.decodeCursor_bare
    | some g =>
      obtain ⟨u, hu, rfl⟩ := hg g rfl
      obtain ⟨hne, hhex⟩ := mintGeneration_units hu
      exact hm.decodeCursor_format hne hhex
  · intro hne
    have hlsn : lsn ≠ lsn' := by
      rintro rfl
      have hparts := hm.lsnParts.symm.trans hm'.lsnParts
      have hseqs := (Prod.mk.inj (Except.ok.inj hparts)).2
      exact hne (Int.ofNat.inj (Option.some.inj hseqs))
    refine ⟨hlsn, ?_⟩
    rw [hnext, hnext]
    intro heq
    exact hlsn (formatCursor_injective generation (Option.some.inj heq))

/-- A session for the examples. -/
def sampleUuid : JsString := js "1b4e28ba-2fa1-4d2a-883f-0016d3cca427"

/-- The last seq there is, under the generation of one UUID and a session of the same one. -/
theorem cursors_accepted_maxSafe : ∃ lsn cursor,
    mintLsn 1700000000000 (mintSession sampleUuid) (2 ^ 53 - 1) = .ok lsn ∧
    nextCursor (some (mintGeneration sampleUuid)) [lsn] = some cursor ∧
    decodeCursor cursor = .ok (js "1b4e28ba2fa1", lsn) ∧
    lsnParts lsn = .ok (js "1b4e28", some ((2 ^ 53 - 1 : Nat) : Int)) := by
  have huuid : isUuid sampleUuid = true := by decide +kernel
  obtain ⟨lsn, h⟩ : ∃ lsn, mintLsn 1700000000000 (mintSession sampleUuid) (2 ^ 53 - 1) = .ok lsn :=
    ⟨_, rfl⟩
  obtain ⟨hparts, -, ⟨cursor, hcursor, hdecode⟩, -⟩ := cursors_accepted []
    (fun g hg => ⟨sampleUuid, huuid, (Option.some.inj hg).symm⟩) huuid huuid (by decide) (by decide)
    h h
  exact ⟨lsn, cursor, h, hcursor, hdecode, hparts⟩

end Baerly.CursorText
