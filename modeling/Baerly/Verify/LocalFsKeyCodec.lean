import Baerly.LocalFsKeyCodec

/-
  The key codec of the local file system is a bijection onto its image.

  SPEC (`keyCodec_exact`): a good key comes back from its components; the decoder accepts exactly the
  component lists of good keys; and components are short, lower-case names that start with no dot,
  so that even under case folding two keys have two paths.

  CRUX: a component is a chunk of bytes written token by token (`written`), so cutting a long
  segment is cutting its bytes (`packFrom_some`), and each component decodes to its chunk
  (`decodeBytes_written`), the escaped first dot included.  The second half rests on the decoder
  encoding its answer again: what it accepts is the encoding of a key, and the loop shows that the
  key is a good one.
-/

namespace Baerly.LocalFs

open CursorText

/-! ## Tokens -/

/-- An escape is the percent sign and two hexadecimal digits. -/
theorem escapeByte_eq (b : Fin 256) :
    escapeByte b = [37, digitUnit (b.val / 16), digitUnit (b.val % 16)] := by
  have hlt : b.val < 16 ^ 2 := b.isLt
  have hfixed : Radix.fixed 16 2 b.val = [b.val / 16, b.val % 16] := by
    have hsmall : b.val / 16 < 16 := by omega
    simp only [Radix.fixed, List.nil_append, List.singleton_append, Nat.mod_eq_of_lt hsmall]
  have hpad : ∀ ds : List Nat, padStart 2 (ds.map digitUnit) = (Radix.padded 2 ds).map digitUnit := by
    intro ds
    rw [padStart, Radix.padded, List.map_append, List.map_replicate, List.length_map]
    rfl
  rw [escapeByte, hpad, Radix.padded_eq (by decide) (by decide) hlt, hfixed]
  rfl

/-- The alphabet of component names. -/
def isNameUnit (u : Fin 65536) : Bool := isLiteralByte u.val ∨ u = 37 ∨ u = continuation

/-- What a token is made of; `~` is in none. -/
def isTokenUnit (u : Fin 65536) : Bool := isLiteralByte u.val ∨ u = 37

/-- Hexadecimal digits stand for themselves. -/
theorem digitUnit_literal : ∀ d < 16, isTokenUnit (digitUnit d) = true ∧ digitUnit d ≠ 46 ∧
    isLowerHex (digitUnit d) = true ∧ digitValue (digitUnit d) = some d := by decide

/-- Escapes use the characters of tokens. -/
theorem isTokenUnit_escape {b : Fin 256} {u : Fin 65536} (h : u ∈ escapeByte b) :
    isTokenUnit u = true := by
  rw [escapeByte_eq] at h
  simp only [List.mem_cons, List.not_mem_nil, or_false] at h
  rcases h with rfl | rfl | rfl
  · decide
  · exact (digitUnit_literal _ (by omega)).1
  · exact (digitUnit_literal _ (by omega)).1

/-- A byte that stands for itself is ASCII and no percent sign. -/
theorem literal_small : ∀ {n : Nat}, isLiteralByte n = true → n < 128 ∧ n ≠ 37 := by
  intro n h
  simp only [isLiteralByte, decide_eq_true_eq] at h
  omega

theorem unit_val (b : Fin 256) : (Fin.ofNat 65536 b.val).val = b.val :=
  Nat.mod_eq_of_lt (by omega)

/-- So every token is made of them. -/
theorem isTokenUnit_token {b : Fin 256} {u : Fin 65536} (h : u ∈ token b) : isTokenUnit u = true := by
  unfold token at h
  split at h
  next hlit =>
    rw [List.mem_singleton.mp h, isTokenUnit, unit_val, hlit]
    rfl
  next => exact isTokenUnit_escape h

theorem length_escapeByte (b : Fin 256) : (escapeByte b).length = 3 := by
  rw [escapeByte_eq]
  rfl

/-- A token is one character or three. -/
theorem length_token (b : Fin 256) : 1 ≤ (token b).length ∧ (token b).length ≤ 3 := by
  unfold token
  split
  next => exact ⟨Nat.le_refl 1, by simp⟩
  next =>
    rw [length_escapeByte]
    decide

/-- The first token of a component: no dot. -/
def firstToken (b : Fin 256) : JsString := if b = dot then escapeByte dot else token b

/-- At the start of a component too, where a dot is escaped. -/
theorem length_firstToken (b : Fin 256) :
    1 ≤ (firstToken b).length ∧ (firstToken b).length ≤ 3 := by
  unfold firstToken
  split
  next =>
    rw [length_escapeByte]
    decide
  next => exact length_token b

/-- There too it is made of the characters of tokens. -/
theorem isTokenUnit_firstToken {b : Fin 256} {u : Fin 65536} (h : u ∈ firstToken b) :
    isTokenUnit u = true := by
  unfold firstToken at h
  split at h
  next => exact isTokenUnit_escape h
  next => exact isTokenUnit_token h

/-- Only the dot is written as a dot. -/
theorem token_eq_dot {b : Fin 256} : token b = [46] ↔ b = dot := by
  constructor
  · intro h
    unfold token at h
    split at h
    next =>
      have hval := congrArg Fin.val (List.cons.inj h).1
      rw [unit_val] at hval
      exact Fin.ext hval
    next =>
      have hlength := length_escapeByte b
      rw [h] at hlength
      cases hlength
  · rintro rfl
    decide

/-- And not at the start. -/
theorem head_firstToken (b : Fin 256) : (firstToken b).head? ≠ some 46 := by
  unfold firstToken
  split
  next => decide
  next hdot =>
    unfold token
    split
    next =>
      intro h
      have hval := congrArg Fin.val (Option.some.inj h)
      rw [unit_val] at hval
      exact hdot (Fin.ext hval)
    next =>
      rw [escapeByte_eq, List.head?_cons]
      decide

/-! ## Decoding tokens -/

/-- A literal character decodes to its byte. -/
theorem decodeBytes_literal {c : Fin 65536} (hne : c ≠ 37) (hlit : isLiteralByte c.val = true)
    (rest : JsString) :
    decodeBytes (c :: rest) = (decodeBytes rest).map (Fin.ofNat 256 c.val :: ·) := by
  rw [decodeBytes.eq_def]
  simp only [hne, if_false, hlit, if_true]

/-- Two digits give their byte back. -/
theorem hexByte_digits (b : Fin 256) :
    hexByte (digitUnit (b.val / 16)) (digitUnit (b.val % 16)) = b := by
  have hhigh := (digitUnit_literal (b.val / 16) (by omega)).2.2.2
  have hlow := (digitUnit_literal (b.val % 16) (by omega)).2.2.2
  have hsum : 16 * (b.val / 16) + b.val % 16 = b.val := by omega
  apply Fin.ext
  rw [hexByte, hhigh, hlow]
  show (16 * (b.val / 16) + b.val % 16) % 256 = b.val
  omega

/-- So an escape decodes to its byte. -/
theorem decodeBytes_escape (b : Fin 256) (rest : JsString) :
    decodeBytes (escapeByte b ++ rest) = (decodeBytes rest).map (b :: ·) := by
  have hhigh := (digitUnit_literal (b.val / 16) (by omega)).2.2.1
  have hlow := (digitUnit_literal (b.val % 16) (by omega)).2.2.1
  rw [escapeByte_eq]
  show decodeBytes (37 :: digitUnit (b.val / 16) :: digitUnit (b.val % 16) :: rest) = _
  rw [decodeBytes]
  simp only [if_true, hhigh, hlow, Bool.and_self, hexByte_digits]

/-- **A token decodes to its byte**, before any rest. -/
theorem decodeBytes_token (b : Fin 256) (rest : JsString) :
    decodeBytes (token b ++ rest) = (decodeBytes rest).map (b :: ·) := by
  unfold token
  split
  next hlit =>
    have hne : Fin.ofNat 65536 b.val ≠ 37 := by
      intro heq
      have hval := congrArg Fin.val heq
      rw [unit_val] at hval
      exact (literal_small hlit).2 hval
    have hbyte : Fin.ofNat 256 b.val = b := Fin.ext (Nat.mod_eq_of_lt b.isLt)
    show decodeBytes (Fin.ofNat 65536 b.val :: rest) = _
    rw [decodeBytes_literal hne (by rw [unit_val, hlit]), unit_val, hbyte]
  next => exact decodeBytes_escape b rest

/-- At the start too. -/
theorem decodeBytes_firstToken (b : Fin 256) (rest : JsString) :
    decodeBytes (firstToken b ++ rest) = (decodeBytes rest).map (b :: ·) := by
  unfold firstToken
  split
  next hdot =>
    rw [decodeBytes_escape, hdot]
  next => exact decodeBytes_token b rest

/-! ## Components -/

/-- A chunk of bytes as a component, without its mark. -/
def written : List (Fin 256) → JsString
  | [] => []
  | b :: bs => firstToken b ++ bs.flatMap token

theorem written_eq_nil {bs : List (Fin 256)} : written bs = [] ↔ bs = [] := by
  cases bs with
  | nil => simp [written]
  | cons b bs =>
    have hpos := (length_firstToken b).1
    constructor
    · intro h
      have hlength := congrArg List.length h
      rw [written, List.length_append, List.length_nil] at hlength
      omega
    · intro h
      cases h

/-- One more byte is one more token. -/
theorem written_snoc {bs : List (Fin 256)} (h : bs ≠ []) (b : Fin 256) :
    written (bs ++ [b]) = written bs ++ token b := by
  obtain ⟨c, bs, rfl⟩ := List.exists_cons_of_ne_nil h
  rw [List.cons_append, written, written, List.flatMap_append, List.flatMap_singleton,
    List.append_assoc]

/-- A component is made of the characters of tokens. -/
theorem isTokenUnit_written {bs : List (Fin 256)} {u : Fin 65536} (h : u ∈ written bs) :
    isTokenUnit u = true := by
  cases bs with
  | nil => cases h
  | cons b bs =>
    rw [written, List.mem_append] at h
    rcases h with h | h
    · exact isTokenUnit_firstToken h
    · obtain ⟨c, -, hc⟩ := List.mem_flatMap.mp h
      exact isTokenUnit_token hc

/-- And does not start with a dot. -/
theorem head_written (bs : List (Fin 256)) : (written bs).head? ≠ some 46 := by
  cases bs with
  | nil => simp [written]
  | cons b bs =>
    have hhead := head_firstToken b
    have hpos := (length_firstToken b).1
    obtain ⟨u, us, hu⟩ := List.exists_cons_of_ne_nil
      (show firstToken b ≠ [] by
        intro hnil
        rw [hnil] at hpos
        cases hpos)
    rw [hu] at hhead
    rw [written, hu, List.cons_append]
    exact hhead

/-- Tokens decode to their bytes. -/
theorem decodeBytes_flatMap (bs : List (Fin 256)) : decodeBytes (bs.flatMap token) = some bs := by
  induction bs with
  | nil => rfl
  | cons b bs ih => rw [List.flatMap_cons, decodeBytes_token, ih, Option.map_some]

/-- **A component decodes to its bytes.** -/
theorem decodeBytes_written (bs : List (Fin 256)) : decodeBytes (written bs) = some bs := by
  cases bs with
  | nil => rfl
  | cons b bs => rw [written, decodeBytes_firstToken, decodeBytes_flatMap, Option.map_some]

/-! ## Packing -/

/-- One token more on a component under way. -/
theorem written_step (cur : List (Fin 256)) (b : Fin 256) :
    written cur ++ (if written cur = [] ∧ token b = [46] then escapeByte dot else token b) =
      written (cur ++ [b]) := by
  rcases List.eq_nil_or_concat cur with rfl | ⟨front, last, rfl⟩
  · show [] ++ _ = firstToken b ++ []
    rw [List.nil_append, List.append_nil, firstToken]
    by_cases hdot : b = dot
    · rw [if_pos hdot, if_pos ⟨rfl, token_eq_dot.mpr hdot⟩]
    · rw [if_neg hdot, if_neg fun h => hdot (token_eq_dot.mp h.2)]
  · have hne : front.concat last ≠ [] := by simp
    rw [if_neg fun h => hne (written_eq_nil.mp h.1), written_snoc hne]

/-- Without a limit everything goes into one component. -/
theorem packFrom_none (parts : List JsString) (cur bs : List (Fin 256)) :
    packFrom none parts (written cur) (bs.map token) = parts ++ [written (cur ++ bs)] := by
  induction bs generalizing cur with
  | nil => simp [packFrom]
  | cons b bs ih =>
    rw [List.map_cons, packFrom]
    simp only [Option.any_none, Bool.false_eq_true, if_false]
    rw [written_step, ih, List.append_assoc, List.singleton_append]

/-- A chunk that fits. -/
def Fits (limit : Nat) (chunk : List (Fin 256)) : Prop :=
  chunk ≠ [] ∧ (written chunk).length ≤ limit

/-- One byte fits where three characters do. -/
theorem fits_single {limit : Nat} (h : 3 ≤ limit) (b : Fin 256) : Fits limit [b] := by
  have hlength := (length_firstToken b).2
  refine ⟨List.cons_ne_nil b [], ?_⟩
  rw [written, List.flatMap_nil, List.append_nil]
  omega

/-- **Packing cuts the bytes into chunks that fit.** -/
theorem packFrom_some {limit : Nat} (hlimit : 3 ≤ limit) (chunks : List (List (Fin 256)))
    (cur bs : List (Fin 256)) (hchunks : ∀ c ∈ chunks, Fits limit c)
    (hcur : (written cur).length ≤ limit) (hne : cur ≠ [] ∨ bs ≠ []) :
    ∃ out, packFrom (some limit) (chunks.map written) (written cur) (bs.map token) =
        out.map written ∧ out.flatten = chunks.flatten ++ (cur ++ bs) ∧ out ≠ [] ∧
      ∀ c ∈ out, Fits limit c := by
  -- on the bytes that are left: `cur` is the component being filled
  induction bs generalizing chunks cur with
  | nil =>
    have hcur' : cur ≠ [] := hne.resolve_right fun h => h rfl
    refine ⟨chunks ++ [cur], ?_, by simp, by simp, ?_⟩
    · rw [List.map_nil, packFrom, List.map_append]
      rfl
    · intro c hc
      rcases List.mem_append.mp hc with hc | hc
      · exact hchunks c hc
      · rw [List.mem_singleton.mp hc]
        exact ⟨hcur', hcur⟩
  | cons b bs ih =>
    rw [List.map_cons, packFrom]
    simp only [Option.any_some]
    by_cases hfull : limit < (written cur).length + (token b).length
    · -- a full component is never empty, for a token alone fits
      have hcur' : cur ≠ [] := by
        rintro rfl
        have hshort := (length_token b).2
        rw [written, List.length_nil] at hfull
        omega
      have hpushed : ∀ c ∈ chunks ++ [cur], Fits limit c := by
        intro c hc
        rcases List.mem_append.mp hc with hc | hc
        · exact hchunks c hc
        · rw [List.mem_singleton.mp hc]
          exact ⟨hcur', hcur⟩
      have hstart := written_step [] b
      rw [show written [] = [] from rfl, List.nil_append, List.nil_append] at hstart
      obtain ⟨out, hout, hflat, hnonempty, hfits⟩ := ih (chunks ++ [cur]) [b] hpushed
        (fits_single hlimit b).2 (Or.inl (List.cons_ne_nil b []))
      refine ⟨out, ?_, ?_, hnonempty, hfits⟩
      · simp only [hfull, decide_true, if_true, List.nil_append, true_and] at hstart ⊢
        rw [hstart, ← hout, List.map_append]
        rfl
      · rw [hflat, List.flatten_append, List.append_assoc]
        simp
    -- otherwise the token goes to the component
    · have hstep := written_step cur b
      have hgrown : (written (cur ++ [b])).length ≤ limit := by
        rcases List.eq_nil_or_concat cur with rfl | ⟨front, last, rfl⟩
        · exact (fits_single hlimit b).2
        · rw [written_snoc (by simp), List.length_append]
          omega
      obtain ⟨out, hout, hflat, hnonempty, hfits⟩ := ih chunks (cur ++ [b]) hchunks hgrown
        (Or.inl (by simp))
      refine ⟨out, ?_, ?_, hnonempty, hfits⟩
      · simp only [hfull, decide_false, Bool.false_eq_true, if_false]
        rw [hstep, hout]
      · rw [hflat, List.append_assoc cur, List.singleton_append]

/-- **What a segment is encoded to**: chunks of its bytes, all but the last marked. -/
theorem encodeSegment_chunks {segment : JsString} (h : Utf8.encode segment ≠ []) :
    ∃ chunks, encodeSegment segment = markContinued (chunks.map written) ∧ chunks ≠ [] ∧
      chunks.flatten = Utf8.encode segment ∧ (∀ c ∈ chunks, Fits nameMaxBytes c) ∧
      (2 ≤ chunks.length → ∀ c ∈ chunks, Fits maxPartBytes c) := by
  have hsingle : pack (tokenize segment) none = [written (Utf8.encode segment)] :=
    packFrom_none [] [] (Utf8.encode segment)
  unfold encodeSegment
  simp only [hsingle, List.headD_cons]
  split
  next hshort =>
    refine ⟨[Utf8.encode segment], rfl, List.cons_ne_nil _ _, by simp, ?_, ?_⟩
    · intro c hc
      rw [List.mem_singleton.mp hc]
      exact ⟨h, hshort⟩
    · intro hmany
      exact absurd hmany (by simp)
  next =>
    obtain ⟨out, hout, hflat, hnonempty, hfits⟩ := packFrom_some
      (show 3 ≤ maxPartBytes by decide) [] [] (Utf8.encode segment)
      (fun c hc => absurd hc List.not_mem_nil) (by decide) (Or.inr h)
    have hpack : pack (tokenize segment) (some maxPartBytes) = out.map written := hout
    refine ⟨out, by rw [hpack], hnonempty, hflat, ?_, fun _ => hfits⟩
    intro c hc
    obtain ⟨hne, hlength⟩ := hfits c hc
    exact ⟨hne, hlength.trans (by decide)⟩

theorem encode_ne_nil {s : JsString} (h : s ≠ []) : Utf8.encode s ≠ [] := by
  fun_induction Utf8.codePoints s with
  | case1 => exact absurd rfl h
  | case2 u => simp [Utf8.encode, Utf8.codePoints, Utf8.bytes_ne_nil]
  | case3 u v us hpair ih => simp [Utf8.encode, Utf8.codePoints, hpair, Utf8.bytes_ne_nil]
  | case4 u v us hpair ih => simp [Utf8.encode, Utf8.codePoints, hpair, Utf8.bytes_ne_nil]

/-! ## Decoding components -/

/-- The mark is on no component that does not carry it. -/
theorem getLast_written (bs : List (Fin 256)) : (written bs).getLast? ≠ some continuation := by
  intro h
  have htoken := isTokenUnit_written (List.mem_of_getLast? h)
  exact absurd htoken (by decide)

/-- A component with the continuation mark hands its bytes on. -/
theorem decodeFrom_marked (segments : List JsString) (bytes : List (Fin 256))
    {chunk : List (Fin 256)} (hne : chunk ≠ []) (rest : List JsString) :
    decodeFrom segments bytes ((written chunk ++ [continuation]) :: rest) =
      decodeFrom segments (bytes ++ chunk) rest := by
  have hbody : written chunk ≠ [] := fun h => hne (written_eq_nil.mp h)
  rw [decodeFrom]
  simp only [List.getLast?_concat, if_true, List.dropLast_concat, hbody, if_false,
    decodeBytes_written]

/-- One without it ends its segment. -/
theorem decodeFrom_last (segments : List JsString) (bytes : List (Fin 256))
    {chunk : List (Fin 256)} (hne : chunk ≠ []) {segment : JsString}
    (hdecode : Utf8.decode (bytes ++ chunk) = some segment) (rest : List JsString) :
    decodeFrom segments bytes (written chunk :: rest) =
      if segment = js "." ∨ segment = js ".." then none
      else decodeFrom (segments ++ [segment]) [] rest := by
  have hbody : written chunk ≠ [] := fun h => hne (written_eq_nil.mp h)
  rw [decodeFrom]
  simp only [getLast_written, if_false, hbody, decodeBytes_written, hdecode]

/-- The chunks of one segment, in one go. -/
theorem decodeFrom_chunks (segments : List JsString) (bytes : List (Fin 256))
    {chunks : List (List (Fin 256))} (hne : chunks ≠ []) (hall : ∀ c ∈ chunks, c ≠ [])
    {segment : JsString} (hdecode : Utf8.decode (bytes ++ chunks.flatten) = some segment)
    (rest : List JsString) :
    decodeFrom segments bytes (markContinued (chunks.map written) ++ rest) =
      if segment = js "." ∨ segment = js ".." then none
      else decodeFrom (segments ++ [segment]) [] rest := by
  induction chunks generalizing bytes with
  | nil => exact absurd rfl hne
  | cons chunk chunks ih =>
    have hchunk := hall chunk List.mem_cons_self
    cases chunks with
    | nil =>
      rw [List.flatten_cons, List.flatten_nil, List.append_nil] at hdecode
      exact decodeFrom_last segments bytes hchunk hdecode rest
    | cons next chunks =>
      rw [List.flatten_cons, ← List.append_assoc] at hdecode
      rw [List.map_cons, List.map_cons, markContinued, List.cons_append,
        decodeFrom_marked segments bytes hchunk, ← List.map_cons]
      exact ih (bytes ++ chunk) (List.cons_ne_nil _ _)
        (fun c hc => hall c (List.mem_cons_of_mem chunk hc)) hdecode

/-- **The components of a segment decode to it.** -/
theorem decodeFrom_segment (segments : List JsString) {segment : JsString} (hne : segment ≠ [])
    (hwf : Utf8.wellFormed segment = true) (rest : List JsString) :
    decodeFrom segments [] (encodeSegment segment ++ rest) =
      if segment = js "." ∨ segment = js ".." then none
      else decodeFrom (segments ++ [segment]) [] rest := by
  obtain ⟨chunks, hencode, hchunks, hflat, hfits, -⟩ := encodeSegment_chunks (encode_ne_nil hne)
  rw [hencode]
  apply decodeFrom_chunks segments [] hchunks (fun c hc => (hfits c hc).1)
  rw [List.nil_append, hflat, Utf8.decode_encode hwf]

/-- A segment the checks let through. -/
def GoodSegment (segment : JsString) : Prop :=
  segment ≠ [] ∧ segment ≠ js "." ∧ segment ≠ js ".."

/-- Whole segments are decoded one after the other, whatever comes behind them. -/
theorem decodeFrom_flatMap_append {segments : List JsString} (done : List JsString)
    (hgood : ∀ s ∈ segments, GoodSegment s) (hwf : ∀ s ∈ segments, Utf8.wellFormed s = true)
    (rest : List JsString) :
    decodeFrom done [] (segments.flatMap encodeSegment ++ rest) =
      decodeFrom (done ++ segments) [] rest := by
  induction segments generalizing done with
  | nil => rw [List.flatMap_nil, List.nil_append, List.append_nil]
  | cons segment segments ih =>
    obtain ⟨hnil, hdot, hdots⟩ := hgood segment List.mem_cons_self
    rw [List.flatMap_cons, List.append_assoc,
      decodeFrom_segment done hnil (hwf segment List.mem_cons_self),
      if_neg (not_or.mpr ⟨hdot, hdots⟩), ih (done ++ [segment])
        (fun s hs => hgood s (List.mem_cons_of_mem segment hs))
        (fun s hs => hwf s (List.mem_cons_of_mem segment hs)), List.append_assoc,
      List.singleton_append]

/-- **The components of good segments decode to them.** -/
theorem decodeFrom_flatMap {segments : List JsString} (done : List JsString)
    (hgood : ∀ s ∈ segments, GoodSegment s) (hwf : ∀ s ∈ segments, Utf8.wellFormed s = true)
    (hne : done ++ segments ≠ []) :
    decodeFrom done [] (segments.flatMap encodeSegment) = some (done ++ segments) := by
  have hdecode := decodeFrom_flatMap_append done hgood hwf []
  rw [List.append_nil] at hdecode
  rw [hdecode, decodeFrom]
  simp [hne]

/-- What was decoded so far stays. -/
theorem decodeFrom_extends {components done out : List JsString} {bytes : List (Fin 256)}
    (h : decodeFrom done bytes components = some out) : done <+: out := by
  induction components generalizing done bytes with
  | nil =>
    rw [decodeFrom] at h
    split at h
    next => cases h
    next => cases h; exact List.prefix_refl _
  | cons component components ih =>
    rw [decodeFrom] at h
    by_cases hmark : component.getLast? = some continuation
    · simp only [hmark, if_true] at h
      split at h
      next => cases h
      next =>
        split at h
        next => cases h
        next => exact ih h
    · simp only [hmark, if_false] at h
      split at h
      next => cases h
      next =>
        split at h
        next => cases h
        next =>
          split at h
          next => cases h
          next =>
            split at h
            next => cases h
            next => exact (List.prefix_append _ _).trans (ih h)

/-- What the loop accepts has no empty component, and no dot segment in it. -/
theorem no_empty_of_decodeFrom {components : List JsString} {done : List JsString}
    {bytes : List (Fin 256)} {out : List JsString} (h : decodeFrom done bytes components = some out) :
    [] ∉ components := by
  induction components generalizing done bytes with
  | nil => exact List.not_mem_nil
  | cons component components ih =>
    rw [decodeFrom] at h
    rw [List.mem_cons, not_or]
    constructor
    · rintro rfl
      simp at h
    · by_cases hmark : component.getLast? = some continuation
      · simp only [hmark, if_true] at h
        split at h
        next => cases h
        next =>
          split at h
          next => cases h
          next => exact ih h
      · simp only [hmark, if_false] at h
        split at h
        next => cases h
        next =>
          split at h
          next => cases h
          next =>
            split at h
            next => cases h
            next =>
              split at h
              next => cases h
              next => exact ih h

/-- The converse: what decodes was made of good segments. -/
theorem good_of_decodeFrom {segments : List JsString} {done out : List JsString}
    (hwf : ∀ s ∈ segments, Utf8.wellFormed s = true) (hne : ∀ s ∈ segments, s ≠ [])
    (h : decodeFrom done [] (segments.flatMap encodeSegment) = some out) :
    ∀ s ∈ segments, GoodSegment s := by
  induction segments generalizing done with
  | nil =>
    intro s hs
    cases hs
  | cons segment segments ih =>
    have hnil := hne segment List.mem_cons_self
    rw [List.flatMap_cons, decodeFrom_segment done hnil (hwf segment List.mem_cons_self)] at h
    split at h
    next => cases h
    next hdots =>
      intro s hs
      rcases List.mem_cons.mp hs with rfl | hs
      · exact ⟨hnil, not_or.mp hdots⟩
      · exact ih (fun s hs => hwf s (List.mem_cons_of_mem segment hs))
          (fun s hs => hne s (List.mem_cons_of_mem segment hs)) h s hs

/-! ## Keys -/

/-- A key the codec is for: well formed, with no empty, `.` or `..` segment. -/
def GoodKey (key : Key) : Prop :=
  Utf8.wellFormed key = true ∧ ∀ s ∈ key.splitOn slash, GoodSegment s

/-- A path is well formed only if its segments are. -/
theorem wellFormed_intercalate {segments : List JsString}
    (h : Utf8.wellFormed (List.intercalate [slash] segments) = true) :
    ∀ s ∈ segments, Utf8.wellFormed s = true := by
  induction segments with
  | nil =>
    intro s hs
    cases hs
  | cons segment segments ih =>
    cases segments with
    | nil =>
      intro s hs
      rw [List.mem_singleton.mp hs]
      simpa using h
    | cons next segments =>
      rw [List.intercalate_cons_cons, List.append_assoc, List.singleton_append,
        Utf8.wellFormed_cut (by decide), Bool.and_eq_true] at h
      intro s hs
      rcases List.mem_cons.mp hs with rfl | hs
      · exact h.1
      · exact ih h.2 s hs

/-- And the segments of a well-formed key are. -/
theorem wellFormed_segments {key : Key} (h : Utf8.wellFormed key = true) :
    ∀ s ∈ key.splitOn slash, Utf8.wellFormed s = true := by
  apply wellFormed_intercalate
  rw [List.intercalate_splitOn]
  exact h

/-- A key that encodes is well formed, and each segment is encoded for itself. -/
theorem encodeKey_ok {key : Key} {components : List JsString} (h : encodeKey key = .ok components) :
    Utf8.wellFormed key = true ∧ components = (key.splitOn slash).flatMap encodeSegment := by
  unfold encodeKey at h
  split at h
  next hwf =>
    cases h
    exact ⟨hwf, rfl⟩
  next => cases h

/-- Components decode to a key if they are what the key encodes to. -/
theorem decodeComponents_eq_some {components : List JsString} {key : Key} :
    decodeComponents components = some key ↔ ∃ segments, decodeFrom [] [] components = some segments ∧
      List.intercalate [slash] segments = key ∧ encodeKey key = .ok components := by
  unfold decodeComponents
  constructor
  · intro h
    split at h
    next => cases h
    next segments hsegments =>
      simp only at h
      split at h
      next => cases h
      next canonical hcanonical =>
        split at h
        next heq =>
          cases h
          exact ⟨segments, hsegments, rfl, heq ▸ hcanonical⟩
        next => cases h
  · rintro ⟨segments, hsegments, rfl, hencode⟩
    simp only [hsegments, hencode, if_true]

/-- A good key comes back. -/
theorem decodeComponents_encodeKey {key : Key} (h : GoodKey key) :
    ∃ components, encodeKey key = .ok components ∧ decodeComponents components = some key := by
  have hencode : encodeKey key = .ok ((key.splitOn slash).flatMap encodeSegment) := if_pos h.1
  refine ⟨_, hencode, decodeComponents_eq_some.mpr ⟨key.splitOn slash, ?_,
    List.intercalate_splitOn slash, hencode⟩⟩
  rw [decodeFrom_flatMap [] h.2 (wellFormed_segments h.1)]
  · rfl
  · rw [List.nil_append]
    exact List.splitOn_ne_nil slash key

/-- **The decoder accepts exactly what good keys are encoded to.** -/
theorem decodeComponents_iff {components : List JsString} {key : Key} :
    decodeComponents components = some key ↔ GoodKey key ∧ encodeKey key = .ok components := by
  constructor
  · intro h
    obtain ⟨segments, hsegments, hjoin, hencode⟩ := decodeComponents_eq_some.mp h
    obtain ⟨hwf, rfl⟩ := encodeKey_ok hencode
    refine ⟨⟨hwf, ?_⟩, hencode⟩
    apply good_of_decodeFrom (wellFormed_segments hwf) ?_ hsegments
    -- an empty segment would be an empty component, which the loop refuses
    rintro s hs rfl
    apply no_empty_of_decodeFrom hsegments
    exact List.mem_flatMap.mpr ⟨[], hs, by decide⟩
  · rintro ⟨hgood, hencode⟩
    obtain ⟨components', hencode', hdecode⟩ := decodeComponents_encodeKey hgood
    rw [hencode] at hencode'
    cases hencode'
    exact hdecode

/-! ## Names -/

/-- What a file name has to be. -/
structure GoodName (component : JsString) : Prop where
  nonempty : component ≠ []
  short : (Utf8.encode component).length ≤ nameMaxBytes
  alphabet : ∀ u ∈ component, isNameUnit u = true
  noDot : component.head? ≠ some 46

/-- The characters of tokens may stand in a file name. -/
theorem isNameUnit_of_token {u : Fin 65536} (h : isTokenUnit u = true) : isNameUnit u = true := by
  simp only [isTokenUnit, isNameUnit, decide_eq_true_eq] at h ⊢
  rcases h with h | h
  · exact Or.inl h
  · exact Or.inr (Or.inl h)

/-- A name is ASCII: one byte a character. -/
theorem length_encode_name {s : JsString} (h : ∀ u ∈ s, isNameUnit u = true) :
    (Utf8.encode s).length = s.length := by
  induction s with
  | nil => rfl
  | cons u s ih =>
    have hu := h u List.mem_cons_self
    have hsmall : u.val < 0x80 := by
      simp only [isNameUnit, decide_eq_true_eq] at hu
      rcases hu with hu | rfl | rfl
      · exact (literal_small hu).1
      · decide
      · decide
    have hplain : Utf8.surrogate u = false := by
      simp only [Utf8.surrogate, decide_eq_false_iff_not]
      omega
    rw [Utf8.encode_cons hplain, List.length_append,
      ih fun v hv => h v (List.mem_cons_of_mem u hv), Utf8.bytes, if_pos hsmall,
      List.length_singleton, List.length_cons, Nat.add_comm]

/-- A component that fits is a good file name. -/
theorem goodName_written {chunk : List (Fin 256)} (h : Fits nameMaxBytes chunk) :
    GoodName (written chunk) := by
  have halphabet : ∀ u ∈ written chunk, isNameUnit u = true :=
    fun u hu => isNameUnit_of_token (isTokenUnit_written hu)
  refine ⟨fun hnil => h.1 (written_eq_nil.mp hnil), ?_, halphabet, head_written chunk⟩
  rw [length_encode_name halphabet]
  exact h.2

/-- So is one with the continuation mark, which was left room for. -/
theorem goodName_marked {chunk : List (Fin 256)} (h : Fits maxPartBytes chunk) :
    GoodName (written chunk ++ [continuation]) := by
  have hne : written chunk ≠ [] := fun hnil => h.1 (written_eq_nil.mp hnil)
  have halphabet : ∀ u ∈ written chunk ++ [continuation], isNameUnit u = true := by
    intro u hu
    rcases List.mem_append.mp hu with hu | hu
    · exact isNameUnit_of_token (isTokenUnit_written hu)
    · rw [List.mem_singleton.mp hu]
      decide
  refine ⟨by simp, ?_, halphabet, ?_⟩
  · rw [length_encode_name halphabet, List.length_append, List.length_singleton]
    have hmax : maxPartBytes + 1 = nameMaxBytes := rfl
    have hlength := h.2
    omega
  · rw [List.head?_append_of_ne_nil _ hne]
    exact head_written chunk

/-- So are all components of a segment. -/
theorem goodName_markContinued {chunks : List (List (Fin 256))}
    (hall : ∀ c ∈ chunks, Fits nameMaxBytes c)
    (hmany : 2 ≤ chunks.length → ∀ c ∈ chunks, Fits maxPartBytes c) :
    ∀ component ∈ markContinued (chunks.map written), GoodName component := by
  induction chunks with
  | nil =>
    intro component hc
    cases hc
  | cons chunk chunks ih =>
    cases chunks with
    | nil =>
      intro component hc
      rw [List.mem_singleton.mp hc]
      exact goodName_written (hall chunk List.mem_cons_self)
    | cons next chunks =>
      have hparts := hmany (by simp)
      intro component hc
      rw [List.map_cons, List.map_cons, markContinued, List.mem_cons] at hc
      rcases hc with rfl | hc
      · exact goodName_marked (hparts chunk List.mem_cons_self)
      · exact ih (fun c hc => hall c (List.mem_cons_of_mem chunk hc))
          (fun _ c hc => hparts c (List.mem_cons_of_mem chunk hc)) component hc

/-- **And of a key.** -/
theorem goodName_encodeKey {key : Key} (h : GoodKey key) {components : List JsString}
    (hencode : encodeKey key = .ok components) : ∀ c ∈ components, GoodName c := by
  obtain ⟨-, rfl⟩ := encodeKey_ok hencode
  intro c hc
  obtain ⟨segment, hsegment, hc⟩ := List.mem_flatMap.mp hc
  obtain ⟨chunks, hchunks, -, -, hfits, hmany⟩ :=
    encodeSegment_chunks (encode_ne_nil (h.2 segment hsegment).1)
  rw [hchunks] at hc
  exact goodName_markContinued hfits hmany c hc

/-- ASCII case folding of one unit. -/
def foldUnit (u : Fin 65536) : Fin 65536 :=
  if 65 ≤ u.val ∧ u.val ≤ 90 then Fin.ofNat 65536 (u.val + 32) else u

/-- Folding leaves a name as it is: it has no capital letter. -/
theorem fold_name {component : JsString} (h : GoodName component) :
    component.map foldUnit = component := by
  have hfixed : ∀ u ∈ component, foldUnit u = u := by
    intro u hu
    have hname := h.alphabet u hu
    have hsmall : ¬ (65 ≤ u.val ∧ u.val ≤ 90) := by
      simp only [isNameUnit, isLiteralByte, decide_eq_true_eq] at hname
      rcases hname with hname | rfl | rfl
      · omega
      · decide
      · decide
    rw [foldUnit, if_neg hsmall]
  exact (List.map_congr_left hfixed).trans (List.map_id component)

/-- A file system that folds case takes no two of them for one: they have no capitals. -/
theorem fold_names {components : List JsString} (h : ∀ c ∈ components, GoodName c) :
    components.map (List.map foldUnit) = components :=
  (List.map_congr_left fun c hc => fold_name (h c hc)).trans (List.map_id components)

/-- **The key codec is a bijection onto its image**, and its names survive case folding. -/
theorem keyCodec_exact :
    (∀ key, GoodKey key → ∃ components, encodeKey key = .ok components ∧
      decodeComponents components = some key ∧ ∀ c ∈ components, GoodName c) ∧
    (∀ components key, decodeComponents components = some key ↔
      GoodKey key ∧ encodeKey key = .ok components) ∧
    (∀ key key' components components', GoodKey key → GoodKey key' →
      encodeKey key = .ok components → encodeKey key' = .ok components' →
      components.map (List.map foldUnit) = components'.map (List.map foldUnit) → key = key') := by
  refine ⟨?_, fun components key => decodeComponents_iff, ?_⟩
  · intro key hgood
    obtain ⟨components, hencode, hdecode⟩ := decodeComponents_encodeKey hgood
    exact ⟨components, hencode, hdecode, goodName_encodeKey hgood hencode⟩
  · intro key key' components components' hgood hgood' hencode hencode' hfold
    rw [fold_names (goodName_encodeKey hgood hencode),
      fold_names (goodName_encodeKey hgood' hencode')] at hfold
    subst hfold
    have hdecode := decodeComponents_iff.mpr ⟨hgood, hencode⟩
    have hdecode' := decodeComponents_iff.mpr ⟨hgood', hencode'⟩
    rw [hdecode] at hdecode'
    exact Option.some.inj hdecode'

/-- A capital letter and a leading dot are escaped, and come back. -/
theorem keyCodec_exact_escapes :
    encodeKey (js "Ab/.x") = .ok [js "%41b", js "%2ex"] ∧
      decodeComponents [js "%41b", js "%2ex"] = some (js "Ab/.x") ∧
      decodeComponents [js "%41b", js ".x"] = none := by
  have hgood : GoodKey (js "Ab/.x") := by
    unfold GoodKey GoodSegment
    decide +kernel
  have hencode : encodeKey (js "Ab/.x") = .ok [js "%41b", js "%2ex"] := by decide +kernel
  have hback := (keyCodec_exact.2.1 [js "%41b", js "%2ex"] (js "Ab/.x")).mpr ⟨hgood, hencode⟩
  exact ⟨hencode, hback, by decide +kernel⟩

/-- What `#pathFor` lets through is a good key. -/
theorem goodKey_of_pathFor {key : Key} {components : List JsString}
    (h : pathFor key = .ok components) : GoodKey key ∧ encodeKey key = .ok components := by
  unfold pathFor at h
  cases hvalid : assertValidStorageKey key with
  | error e =>
    rw [hvalid] at h
    cases h
  | ok _ =>
    rw [hvalid] at h
    change (if key.head? = some slash then _ else _) = _ at h
    split at h
    next => cases h
    next =>
      split at h
      next => cases h
      next =>
        split at h
        next => cases h
        next hsegments =>
          refine ⟨⟨(encodeKey_ok h).1, ?_⟩, h⟩
          intro s hs
          refine ⟨fun heq => hsegments ⟨s, hs, Or.inl heq⟩,
            fun heq => hsegments ⟨s, hs, Or.inr (Or.inl heq)⟩,
            fun heq => hsegments ⟨s, hs, Or.inr (Or.inr heq)⟩⟩

/-- A key has at least one component. -/
theorem pathFor_ne_nil {key : Key} {path : List JsString} (h : pathFor key = .ok path) :
    path ≠ [] := by
  rintro rfl
  have hdecode := decodeComponents_iff.mpr (goodKey_of_pathFor h)
  cases hdecode

/-- Joined segments start with the joined segments in front, and a slash. -/
theorem intercalate_append_prefix {front back : List JsString} (hfront : front ≠ [])
    (hback : back ≠ []) :
    List.intercalate [slash] front ++ [slash] <+: List.intercalate [slash] (front ++ back) := by
  induction front with
  | nil => exact absurd rfl hfront
  | cons segment front ih =>
    cases front with
    | nil =>
      rw [List.intercalate_singleton, List.singleton_append, List.intercalate_cons_of_ne_nil hback]
      exact List.prefix_append _ _
    | cons next front =>
      have hrest := ih (List.cons_ne_nil next front)
      rw [List.cons_append] at hrest
      rw [List.cons_append, List.cons_append, List.intercalate_cons_cons,
        List.intercalate_cons_cons, List.append_assoc _ _ [slash]]
      exact (List.prefix_append_right_inj _).mpr hrest

/-- **The file of a key lies below the path of another only if the key does.** -/
theorem below_of_path_start {key key' : Key} {path path' : List JsString}
    (h : pathFor key = .ok path) (h' : pathFor key' = .ok path') (hbelow : path <+: path')
    (hne : path ≠ path') : key ++ [slash] <+: key' := by
  obtain ⟨⟨hwf, hgood⟩, hencode⟩ := goodKey_of_pathFor h
  obtain ⟨hgood', hencode'⟩ := goodKey_of_pathFor h'
  obtain ⟨rest, rfl⟩ := hbelow
  obtain ⟨segments, hdecode, rfl, -⟩ :=
    decodeComponents_eq_some.mp (decodeComponents_iff.mpr ⟨hgood', hencode'⟩)
  obtain ⟨-, hpath⟩ := encodeKey_ok hencode
  rw [hpath, decodeFrom_flatMap_append [] hgood (wellFormed_segments hwf), List.nil_append] at hdecode
  obtain ⟨more, rfl⟩ := decodeFrom_extends hdecode
  have hmore : more ≠ [] := by
    rintro rfl
    -- then both keys are the same, and so are their paths
    rw [List.append_nil, List.intercalate_splitOn] at h'
    rw [h] at h'
    exact hne (Except.ok.inj h')
  have hprefix := intercalate_append_prefix (List.splitOn_ne_nil slash key) hmore
  rwa [List.intercalate_splitOn] at hprefix

end Baerly.LocalFs
