import Baerly.Lib.Utf8
import Baerly.Snapshot

/-
  JSON as text: `JSON.stringify` and `JSON.parse` on UTF-16 strings.

  PROGRAM: `stringify` prints a value without spaces, members in the order the object holds them,
  escaping what `JSON.stringify` escapes: quote, backslash, the control characters, and every
  surrogate that is in no pair.  `parseTree` is a recursive-descent parser of the JSON grammar that
  keeps the members of an object as they stand in the text; `parse` then builds the objects, where
  a repeated key keeps its place and takes the last value, and the keys that are array indices come
  first.

  SPEC: the parser takes exactly the printed text off its input (`parseValue_stringify`), so text
  determines the tree (`stringify_injective`).

  How a number is printed, and which number a token names, is left open up to what the language
  promises: a printed number reads back as itself, and it is made of the characters of a number.
-/

namespace Baerly

/-- A character of a JSON number: a digit, a sign, a point or an exponent mark. -/
def isNumberUnit (u : Fin 65536) : Bool :=
  isDigit u || u = 43 || u = 45 || u = 46 || u = 69 || u = 101

/-- The host's conversion between finite doubles and text. -/
structure NumberText where
  /-- `String(n)`. -/
  text : JsNumber → JsString
  /-- The value of a JSON number token; `none` when it is none, or has no finite value. -/
  value : JsString → Option JsNumber
  value_text : ∀ n, value (text n) = some n
  units : ∀ n, ∀ u ∈ text n, isNumberUnit u = true
  starts : ∀ n, ∃ u us, text n = u :: us ∧ (u = 45 ∨ isDigit u = true)

namespace JSON

/-! ## Printing -/

/-- A lower-case hexadecimal digit. -/
def hexDigit (n : Nat) : Fin 65536 :=
  if n < 10 then Fin.ofNat 65536 (48 + n) else Fin.ofNat 65536 (87 + n)

/-- `\uXXXX`. -/
def unicodeEscape (u : Fin 65536) : JsString :=
  [92, 117, hexDigit (u.val / 4096), hexDigit (u.val / 256 % 16), hexDigit (u.val / 16 % 16),
    hexDigit (u.val % 16)]

/-- One code unit outside a surrogate pair, inside a string literal. -/
def escapeUnit (u : Fin 65536) : JsString :=
  if u = 8 then [92, 98]
  else if u = 9 then [92, 116]
  else if u = 10 then [92, 110]
  else if u = 12 then [92, 102]
  else if u = 13 then [92, 114]
  else if u = 34 then [92, 34]
  else if u = 92 then [92, 92]
  else if u.val < 0x20 || Utf8.surrogate u then unicodeEscape u
  else [u]

/-- The body of a string literal. -/
def escape : JsString → JsString
  | [] => []
  | [u] => escapeUnit u
  | u :: v :: us =>
    if Utf8.high u && Utf8.low v then u :: v :: escape us else escapeUnit u ++ escape (v :: us)

/-- `JSON.stringify(s)`. -/
def quote (s : JsString) : JsString := 34 :: (escape s ++ [34])

/-- `parts.join(",")`. -/
def join : List JsString → JsString
  | [] => []
  | [part] => part
  | part :: parts => part ++ 44 :: join parts

mutual

/-- `JSON.stringify(v)`. -/
def stringify (N : NumberText) : Doc → JsString
  | .null => js "null"
  | .bool true => js "true"
  | .bool false => js "false"
  | .num n => N.text n
  | .str s => quote s
  | .arr xs => 91 :: (join (stringifyItems N xs) ++ [93])
  | .obj ms => 123 :: (join (stringifyMembers N ms) ++ [125])

/-- The texts of the items. -/
def stringifyItems (N : NumberText) : List Doc → List JsString
  | [] => []
  | x :: xs => stringify N x :: stringifyItems N xs

/-- The texts of the members, each after its key. -/
def stringifyMembers (N : NumberText) : List (JsString × Doc) → List JsString
  | [] => []
  | (key, x) :: ms => (quote key ++ 58 :: stringify N x) :: stringifyMembers N ms

end

/-! ## Parsing -/

/-- The value of a hexadecimal digit. -/
def hexValue (u : Fin 65536) : Option Nat :=
  if 48 ≤ u.val ∧ u.val ≤ 57 then some (u.val - 48)
  else if 97 ≤ u.val ∧ u.val ≤ 102 then some (u.val - 87)
  else if 65 ≤ u.val ∧ u.val ≤ 70 then some (u.val - 55)
  else none

/-- The unit of four hexadecimal digits. -/
def hexUnit (a b c d : Fin 65536) : Option (Fin 65536) := do
  let a ← hexValue a
  let b ← hexValue b
  let c ← hexValue c
  let d ← hexValue d
  some (Fin.ofNat 65536 (a * 4096 + b * 256 + c * 16 + d))

/-- The unit a one-letter escape stands for. -/
def shortEscape (u : Fin 65536) : Option (Fin 65536) :=
  if u = 34 then some 34
  else if u = 92 then some 92
  else if u = 47 then some 47
  else if u = 98 then some 8
  else if u = 102 then some 12
  else if u = 110 then some 10
  else if u = 114 then some 13
  else if u = 116 then some 9
  else none

/-- A string literal after its opening quote: its units and what follows. -/
def parseString : JsString → Option (JsString × JsString)
  | [] => none
  | u :: rest =>
    if u = 34 then some ([], rest)
    else if u = 92 then
      match rest with
      | [] => none
      | e :: rest =>
        if e = 117 then
          match rest with
          | a :: b :: c :: d :: rest => do
            let v ← hexUnit a b c d
            let (us, rest) ← parseString rest
            some (v :: us, rest)
          | _ => none
        else do
          let v ← shortEscape e
          let (us, rest) ← parseString rest
          some (v :: us, rest)
    else if u.val < 0x20 then none
    else do
      let (us, rest) ← parseString rest
      some (u :: us, rest)

/-- Whitespace between tokens. -/
def isSpace (u : Fin 65536) : Bool := u = 9 || u = 10 || u = 13 || u = 32

/-- What is left after white space. -/
def skipSpace : JsString → JsString
  | [] => []
  | u :: rest => if isSpace u then skipSpace rest else u :: rest

/-- The rest of a keyword. -/
def expect (word : JsString) (s : JsString) : Option JsString :=
  if word.isPrefixOf s then some (s.drop word.length) else none

mutual

/-- A value and what follows it.  Every nested call consumes a character, so the length of the
    text is fuel enough. -/
def parseValue (N : NumberText) : (fuel : Nat) → JsString → Option (Doc × JsString)
  | 0, _ => none
  | fuel + 1, s =>
    match skipSpace s with
    | [] => none
    | u :: rest =>
      if u = 34 then (parseString rest).map fun r => (.str r.1, r.2)
      else if u = 91 then
        match skipSpace rest with
        | [] => none
        | v :: rest =>
          if v = 93 then some (.arr [], rest)
          else (parseItems N fuel (v :: rest)).map fun r => (.arr r.1, r.2)
      else if u = 123 then
        match skipSpace rest with
        | [] => none
        | v :: rest =>
          if v = 125 then some (.obj [], rest)
          else (parseMembers N fuel (v :: rest)).map fun r => (.obj r.1, r.2)
      else if u = 110 then (expect (js "ull") rest).map fun r => (.null, r)
      else if u = 116 then (expect (js "rue") rest).map fun r => (.bool true, r)
      else if u = 102 then (expect (js "alse") rest).map fun r => (.bool false, r)
      else if u = 45 || isDigit u then
        (N.value ((u :: rest).takeWhile isNumberUnit)).map fun n =>
          (.num n, (u :: rest).dropWhile isNumberUnit)
      else none

/-- The items of an array up to its closing bracket. -/
def parseItems (N : NumberText) : (fuel : Nat) → JsString → Option (List Doc × JsString)
  | 0, _ => none
  | fuel + 1, s =>
    match parseValue N fuel s with
    | none => none
    | some (x, rest) =>
      match skipSpace rest with
      | [] => none
      | u :: rest =>
        if u = 44 then (parseItems N fuel rest).map fun r => (x :: r.1, r.2)
        else if u = 93 then some ([x], rest)
        else none

/-- The members of an object up to its closing brace. -/
def parseMembers (N : NumberText) : (fuel : Nat) → JsString →
    Option (List (JsString × Doc) × JsString)
  | 0, _ => none
  | fuel + 1, s =>
    match parseMember N fuel s with
    | none => none
    | some (m, rest) =>
      match skipSpace rest with
      | [] => none
      | u :: rest =>
        if u = 44 then (parseMembers N fuel rest).map fun r => (m :: r.1, r.2)
        else if u = 125 then some ([m], rest)
        else none

/-- One `"key": value`. -/
def parseMember (N : NumberText) : (fuel : Nat) → JsString →
    Option ((JsString × Doc) × JsString)
  | 0, _ => none
  | fuel + 1, s =>
    match skipSpace s with
    | [] => none
    | u :: rest =>
      if u = 34 then
        match parseString rest with
        | none => none
        | some (key, rest) =>
          match skipSpace rest with
          | [] => none
          | v :: rest =>
            if v = 58 then (parseValue N fuel rest).map fun r => ((key, r.1), r.2) else none
      else none

end

/-- The tree of a text, members as they stand in it. -/
def parseTree (N : NumberText) (s : JsString) : Option Doc :=
  match parseValue N s.length s with
  | some (v, rest) => if skipSpace rest = [] then some v else none
  | none => none

/-! ## Strings read back -/

theorem hexValue_hexDigit : ∀ n, n < 16 → hexValue (hexDigit n) = some n := by decide

/-- Four hexadecimal digits give their code unit back. -/
theorem hexUnit_hexDigits (u : Fin 65536) :
    hexUnit (hexDigit (u.val / 4096)) (hexDigit (u.val / 256 % 16)) (hexDigit (u.val / 16 % 16))
      (hexDigit (u.val % 16)) = some u := by
  have hu := u.isLt
  have ha := hexValue_hexDigit (u.val / 4096) (by omega)
  have hb := hexValue_hexDigit (u.val / 256 % 16) (by omega)
  have hc := hexValue_hexDigit (u.val / 16 % 16) (by omega)
  have hd := hexValue_hexDigit (u.val % 16) (by omega)
  have hsum : u.val / 4096 * 4096 + u.val / 256 % 16 * 256 + u.val / 16 % 16 * 16 + u.val % 16 =
      u.val := by omega
  have hval : Fin.ofNat 65536 u.val = u := Fin.ext (Nat.mod_eq_of_lt hu)
  simp only [hexUnit, ha, hb, hc, hd, Option.bind_eq_bind, Option.bind_some, hsum, hval]

/-- What a string literal that starts with `u` contributes. -/
def consUnit (u : Fin 65536) (r : JsString × JsString) : JsString × JsString := (u :: r.1, r.2)

/-- A plain unit stands for itself. -/
theorem parseString_plain {u : Fin 65536} (hquote : u ≠ 34) (hslash : u ≠ 92) (hlow : 0x20 ≤ u.val)
    (t : JsString) : parseString (u :: t) = (parseString t).map (consUnit u) := by
  have hge : ¬ u.val < 0x20 := by omega
  rw [parseString.eq_def]
  simp only [hquote, hslash, hge, if_false]
  cases parseString t <;> rfl

/-- A short escape stands for its control character. -/
theorem parseString_short {e v : Fin 65536} (hu : e ≠ 117) (hv : shortEscape e = some v)
    (t : JsString) : parseString (92 :: e :: t) = (parseString t).map (consUnit v) := by
  rw [parseString.eq_def]
  have h : ¬ (92 : Fin 65536) = 34 := by decide
  simp only [h, hu, hv, if_false, if_true]
  cases parseString t <;> rfl

/-- A `\u` escape stands for its unit. -/
theorem parseString_unicode (u : Fin 65536) (t : JsString) :
    parseString (unicodeEscape u ++ t) = (parseString t).map (consUnit u) := by
  have h : ¬ (92 : Fin 65536) = 34 := by decide
  rw [unicodeEscape, List.cons_append, List.cons_append, List.cons_append, List.cons_append,
    List.cons_append, List.cons_append, List.nil_append, parseString.eq_def]
  simp only [h, if_false, if_true, hexUnit_hexDigits]
  cases parseString t <;> rfl

/-- **Each unit is read back from the way it is written.** -/
theorem parseString_escapeUnit (u : Fin 65536) (t : JsString) :
    parseString (escapeUnit u ++ t) = (parseString t).map (consUnit u) := by
  unfold escapeUnit
  by_cases h8 : u = 8
  · subst h8; exact parseString_short (by decide) rfl t
  by_cases h9 : u = 9
  · subst h9; exact parseString_short (by decide) rfl t
  by_cases h10 : u = 10
  · subst h10; exact parseString_short (by decide) rfl t
  by_cases h12 : u = 12
  · subst h12; exact parseString_short (by decide) rfl t
  by_cases h13 : u = 13
  · subst h13; exact parseString_short (by decide) rfl t
  by_cases h34 : u = 34
  · subst h34; exact parseString_short (by decide) rfl t
  by_cases h92 : u = 92
  · subst h92; exact parseString_short (by decide) rfl t
  simp only [h8, h9, h10, h12, h13, h34, h92, if_false]
  split
  next => exact parseString_unicode u t
  next hplain =>
    simp only [Bool.or_eq_true, decide_eq_true_eq, not_or] at hplain
    exact parseString_plain h34 h92 (by omega) t

/-- Surrogates are plain to the reader. -/
theorem surrogate_plain {u : Fin 65536} (h : 0xD800 ≤ u.val) : u ≠ 34 ∧ u ≠ 92 ∧ 0x20 ≤ u.val := by
  refine ⟨?_, ?_, by omega⟩
  · rintro rfl
    exact absurd h (by decide)
  · rintro rfl
    exact absurd h (by decide)

/-- **A string literal reads back as its string**, whatever follows. -/
theorem parseString_escape (s rest : JsString) :
    parseString (escape s ++ 34 :: rest) = some (s, rest) := by
  fun_induction escape s with
  | case1 =>
    rw [List.nil_append, parseString.eq_def]
    rfl
  | case2 u =>
    rw [parseString_escapeUnit, parseString.eq_def]
    rfl
  | case3 u v us hpair ih =>
    simp only [Utf8.high, Utf8.low, Bool.and_eq_true, decide_eq_true_eq] at hpair
    obtain ⟨hu1, hu2, hu3⟩ := surrogate_plain hpair.1.1
    obtain ⟨hv1, hv2, hv3⟩ := surrogate_plain (u := v) (by omega)
    rw [List.cons_append, List.cons_append, parseString_plain hu1 hu2 hu3,
      parseString_plain hv1 hv2 hv3, ih]
    rfl
  | case4 u v us hpair ih =>
    rw [List.append_assoc, parseString_escapeUnit, ih]
    rfl

/-! ## Values read back -/

/-- What may follow a number: nothing that could belong to it. -/
def EndsNumber (rest : JsString) : Prop := ∀ u us, rest = u :: us → isNumberUnit u = false

/-- A number ends where a unit follows that none contains. -/
theorem EndsNumber.cons {u : Fin 65536} (h : isNumberUnit u = false) (us : JsString) :
    EndsNumber (u :: us) := by
  intro v vs hv
  cases hv
  exact h

/-- Nothing is skipped before anything else than white space. -/
theorem skipSpace_cons {u : Fin 65536} (h : isSpace u = false) (rest : JsString) :
    skipSpace (u :: rest) = u :: rest := by
  rw [skipSpace, if_neg (by simp [h])]

/-- A word that is expected is taken off. -/
theorem expect_append (word rest : JsString) : expect word (word ++ rest) = some rest := by
  have hpre : word.isPrefixOf (word ++ rest) = true :=
    List.isPrefixOf_iff_prefix.mpr (List.prefix_append word rest)
  rw [expect, if_pos hpre, List.drop_left]

/-- A number's text is taken up to its end. -/
theorem takeWhile_number {t rest : JsString} (ht : ∀ u ∈ t, isNumberUnit u = true)
    (hrest : EndsNumber rest) : (t ++ rest).takeWhile isNumberUnit = t ∧
      (t ++ rest).dropWhile isNumberUnit = rest := by
  rw [List.takeWhile_append_of_pos ht, List.dropWhile_append_of_pos ht]
  cases rest with
  | nil => simp
  | cons u us =>
    have hu := hrest u us rfl
    simp [hu]

/-- A printed number starts like none of the other values. -/
theorem number_head {u : Fin 65536} (h : u = 45 ∨ isDigit u = true) :
    u ≠ 34 ∧ u ≠ 91 ∧ u ≠ 123 ∧ u ≠ 110 ∧ u ≠ 116 ∧ u ≠ 102 ∧ u ≠ 93 ∧ u ≠ 125 ∧
      isSpace u = false ∧ (u = 45 || isDigit u) = true := by
  have hval : u.val = 45 ∨ (48 ≤ u.val ∧ u.val ≤ 57) := by
    rcases h with rfl | h
    · exact Or.inl rfl
    · simp only [isDigit, decide_eq_true_eq] at h
      exact Or.inr h
  have hne : ∀ k : Fin 65536, (k.val = 34 ∨ 57 < k.val ∨ k.val < 45) → u ≠ k := by
    rintro k hk rfl
    omega
  refine ⟨hne 34 (by decide), hne 91 (by decide), hne 123 (by decide), hne 110 (by decide),
    hne 116 (by decide), hne 102 (by decide), hne 93 (by decide), hne 125 (by decide), ?_, ?_⟩
  · have h9 := hne 9 (by decide)
    have h10 := hne 10 (by decide)
    have h13 := hne 13 (by decide)
    have h32 := hne 32 (by decide)
    simp [isSpace, h9, h10, h13, h32]
  · rcases h with rfl | h
    · rfl
    · simp [h]

variable {N : NumberText}

/-- A printed value starts with a character that is no space and closes nothing. -/
theorem stringify_head (v : Doc) : ∃ u us, stringify N v = u :: us ∧ isSpace u = false ∧
    u ≠ 93 ∧ u ≠ 125 := by
  cases v with
  | null => exact ⟨110, _, rfl, rfl, by decide, by decide⟩
  | bool b => cases b with
    | true => exact ⟨116, _, rfl, rfl, by decide, by decide⟩
    | false => exact ⟨102, _, rfl, rfl, by decide, by decide⟩
  | num n =>
    obtain ⟨u, us, htext, hu⟩ := N.starts n
    obtain ⟨-, -, -, -, -, -, h93, h125, hspace, -⟩ := number_head hu
    exact ⟨u, us, by rw [stringify, htext], hspace, h93, h125⟩
  | str s => exact ⟨34, _, rfl, rfl, by decide, by decide⟩
  | arr xs => exact ⟨91, _, rfl, rfl, by decide, by decide⟩
  | obj ms => exact ⟨123, _, rfl, rfl, by decide, by decide⟩

/-- Parts are joined by commas. -/
theorem join_cons_cons (a b : JsString) (parts : List JsString) :
    join (a :: b :: parts) = a ++ 44 :: join (b :: parts) := rfl

/-- A joined text starts as its first part does. -/
theorem join_head {a : JsString} {u : Fin 65536} {us : JsString} (h : a = u :: us)
    (parts : List JsString) : ∃ ws, join (a :: parts) = u :: ws := by
  cases parts with
  | nil => exact ⟨us, h⟩
  | cons b parts =>
    rw [join_cons_cons, h]
    exact ⟨_, rfl⟩

/-- **A number is read back**, before anything that ends it. -/
theorem parseValue_number {n : JsNumber} {fuel : Nat} {rest : JsString} (hrest : EndsNumber rest) :
    parseValue N (fuel + 1) (N.text n ++ rest) = some (.num n, rest) := by
  obtain ⟨u, us, htext, hu⟩ := N.starts n
  obtain ⟨h34, h91, h123, h110, h116, h102, -, -, hspace, hnum⟩ := number_head hu
  obtain ⟨htake, hdrop⟩ := takeWhile_number (N.units n) hrest
  rw [htext, List.cons_append] at htake hdrop ⊢
  rw [parseValue, skipSpace_cons hspace]
  simp only [h34, h91, h123, h110, h116, h102, hnum, if_false, if_true, htake, hdrop]
  rw [← htext, N.value_text]
  rfl

/-- An array with an item in it. -/
theorem parseValue_arr {fuel : Nat} {u : Fin 65536} {us rest : JsString} {xs : List Doc}
    (hspace : isSpace u = false) (hclose : u ≠ 93)
    (h : parseItems N fuel (u :: us) = some (xs, rest)) :
    parseValue N (fuel + 1) (91 :: u :: us) = some (.arr xs, rest) := by
  have h91 : skipSpace (91 :: u :: us) = 91 :: u :: us := skipSpace_cons rfl _
  rw [parseValue, h91]
  simp only [show ¬ (91 : Fin 65536) = 34 by decide, if_false, if_true, skipSpace_cons hspace, hclose,
    h, Option.map_some]

/-- An object with a member in it. -/
theorem parseValue_obj {fuel : Nat} {us rest : JsString} {ms : List (JsString × Doc)}
    (h : parseMembers N fuel (34 :: us) = some (ms, rest)) :
    parseValue N (fuel + 1) (123 :: 34 :: us) = some (.obj ms, rest) := by
  have h123 : skipSpace (123 :: 34 :: us) = 123 :: 34 :: us := skipSpace_cons rfl _
  have h34 : skipSpace (34 :: us) = 34 :: us := skipSpace_cons rfl _
  rw [parseValue, h123]
  simp only [show ¬ (123 : Fin 65536) = 34 by decide, show ¬ (123 : Fin 65536) = 91 by decide,
    show ¬ (34 : Fin 65536) = 125 by decide, if_false, if_true, h34, h, Option.map_some]

/-- A member is read back once its value is. -/
theorem parseMember_quote {fuel : Nat} {key us rest : JsString} {v : Doc}
    (h : parseValue N fuel us = some (v, rest)) :
    parseMember N (fuel + 1) (quote key ++ 58 :: us) = some ((key, v), rest) := by
  have h58 : skipSpace (58 :: us) = 58 :: us := skipSpace_cons rfl _
  rw [quote, List.cons_append, List.append_assoc, List.singleton_append, parseMember,
    skipSpace_cons rfl]
  simp only [if_true, parseString_escape, h58, h, Option.map_some]

/-- A comma ends a number. -/
theorem endsNumber_comma (us : JsString) : EndsNumber (44 :: us) := EndsNumber.cons rfl us

mutual

/-- **The parser takes a printed value off its input.** -/
theorem parseValue_stringify : ∀ (v : Doc) (fuel : Nat) (rest : JsString),
    (stringify N v).length ≤ fuel → EndsNumber rest →
      parseValue N fuel (stringify N v ++ rest) = some (v, rest)
  | v, 0, rest, hfuel, _ => by
    obtain ⟨u, us, htext, -⟩ := @stringify_head N v
    rw [htext] at hfuel
    exact absurd hfuel (by simp)
  | .null, fuel + 1, rest, _, _ => by
    show (expect (js "ull") (js "ull" ++ rest)).map _ = _
    rw [expect_append]
    rfl
  | .bool true, fuel + 1, rest, _, _ => by
    show (expect (js "rue") (js "rue" ++ rest)).map _ = _
    rw [expect_append]
    rfl
  | .bool false, fuel + 1, rest, _, _ => by
    show (expect (js "alse") (js "alse" ++ rest)).map _ = _
    rw [expect_append]
    rfl
  | .num n, fuel + 1, rest, _, hrest => parseValue_number hrest
  | .str s, fuel + 1, rest, _, _ => by
    rw [stringify, quote, List.cons_append, List.append_assoc, List.singleton_append, parseValue,
      skipSpace_cons rfl]
    simp only [if_true, parseString_escape, Option.map_some]
  | .arr [], fuel + 1, rest, _, _ => rfl
  | .arr (x :: xs), fuel + 1, rest, hfuel, _ => by
    rw [stringify, List.length_cons, List.length_append, List.length_singleton] at hfuel
    have hitems := parseItems_stringify x xs fuel rest (by omega)
    obtain ⟨u, us, htext, hspace, h93, -⟩ := @stringify_head N x
    obtain ⟨ws, hws⟩ := join_head htext (stringifyItems N xs)
    rw [stringify, List.cons_append, List.append_assoc, List.singleton_append]
    rw [stringifyItems, hws, List.cons_append] at hitems ⊢
    exact parseValue_arr hspace h93 hitems
  | .obj [], fuel + 1, rest, _, _ => rfl
  | .obj ((key, x) :: ms), fuel + 1, rest, hfuel, _ => by
    rw [stringify, List.length_cons, List.length_append, List.length_singleton] at hfuel
    have hmembers := parseMembers_stringify key x ms fuel rest (by omega)
    obtain ⟨ws, hws⟩ := join_head (a := quote key ++ 58 :: stringify N x) rfl (stringifyMembers N ms)
    rw [stringify, List.cons_append, List.append_assoc, List.singleton_append]
    rw [stringifyMembers, hws, List.cons_append] at hmembers ⊢
    exact parseValue_obj hmembers
termination_by _ fuel => fuel

/-- The items of an array, up to the closing bracket. -/
theorem parseItems_stringify : ∀ (x : Doc) (xs : List Doc) (fuel : Nat) (rest : JsString),
    (join (stringifyItems N (x :: xs))).length + 1 ≤ fuel →
      parseItems N fuel (join (stringifyItems N (x :: xs)) ++ 93 :: rest) = some (x :: xs, rest)
  | x, xs, 0, rest, hfuel => absurd hfuel (by omega)
  | x, [], fuel + 1, rest, hfuel => by
    have hlen : (stringify N x).length + 1 ≤ fuel + 1 := hfuel
    have hx := parseValue_stringify x fuel (93 :: rest) (by omega) (EndsNumber.cons rfl rest)
    show parseItems N (fuel + 1) (stringify N x ++ 93 :: rest) = _
    rw [parseItems, hx]
    rfl
  | x, y :: ys, fuel + 1, rest, hfuel => by
    rw [stringifyItems, stringifyItems, join_cons_cons, ← stringifyItems, List.length_append,
      List.length_cons] at hfuel
    have hx := parseValue_stringify x fuel
      (44 :: (join (stringifyItems N (y :: ys)) ++ 93 :: rest)) (by omega) (endsNumber_comma _)
    have hxs := parseItems_stringify y ys fuel rest (by omega)
    rw [stringifyItems, stringifyItems, join_cons_cons, ← stringifyItems, List.append_assoc,
      List.cons_append, parseItems, hx]
    have h44 : skipSpace (44 :: (join (stringifyItems N (y :: ys)) ++ 93 :: rest)) =
        44 :: (join (stringifyItems N (y :: ys)) ++ 93 :: rest) := skipSpace_cons rfl _
    simp only [h44, if_true, hxs, Option.map_some]
termination_by _ _ fuel => fuel

/-- The members of an object, up to the closing brace. -/
theorem parseMembers_stringify : ∀ (key : JsString) (x : Doc) (ms : List (JsString × Doc))
    (fuel : Nat) (rest : JsString),
    (join (stringifyMembers N ((key, x) :: ms))).length + 1 ≤ fuel →
      parseMembers N fuel (join (stringifyMembers N ((key, x) :: ms)) ++ 125 :: rest) =
        some ((key, x) :: ms, rest)
  | key, x, ms, 0, rest, hfuel => absurd hfuel (by omega)
  | key, x, [], fuel + 1, rest, hfuel => by
    have hlen : (quote key ++ 58 :: stringify N x).length + 1 ≤ fuel + 1 := hfuel
    rw [List.length_append, List.length_cons] at hlen
    obtain ⟨fuel, rfl⟩ := Nat.exists_eq_succ_of_ne_zero (show fuel ≠ 0 by omega)
    have hx := parseValue_stringify x fuel (125 :: rest) (by omega) (EndsNumber.cons rfl rest)
    show parseMembers N (fuel + 1 + 1) ((quote key ++ 58 :: stringify N x) ++ 125 :: rest) = _
    rw [List.append_assoc, List.cons_append, parseMembers, parseMember_quote hx]
    rfl
  | key, x, (key', y) :: ms, fuel + 1, rest, hfuel => by
    rw [stringifyMembers, stringifyMembers, join_cons_cons, ← stringifyMembers, List.length_append,
      List.length_cons, List.length_append, List.length_cons] at hfuel
    obtain ⟨fuel, rfl⟩ := Nat.exists_eq_succ_of_ne_zero (show fuel ≠ 0 by omega)
    have hx := parseValue_stringify x fuel
      (44 :: (join (stringifyMembers N ((key', y) :: ms)) ++ 125 :: rest)) (by omega)
      (endsNumber_comma _)
    have hms := parseMembers_stringify key' y ms (fuel + 1) rest (by omega)
    have h44 : skipSpace (44 :: (join (stringifyMembers N ((key', y) :: ms)) ++ 125 :: rest)) =
        44 :: (join (stringifyMembers N ((key', y) :: ms)) ++ 125 :: rest) := skipSpace_cons rfl _
    rw [stringifyMembers, stringifyMembers, join_cons_cons, ← stringifyMembers, List.append_assoc,
      List.append_assoc, List.cons_append, List.cons_append, parseMembers, parseMember_quote hx]
    simp only [h44, if_true, hms, Option.map_some]
termination_by _ _ _ fuel => fuel

end

/-- Items are written one by one. -/
theorem stringifyItems_eq (xs : List Doc) :
    stringifyItems N xs = xs.map (stringify N) := by
  induction xs with
  | nil => rfl
  | cons x xs ih => rw [stringifyItems, ih, List.map_cons]

/-- One member, printed. -/
def memberText (N : NumberText) (m : JsString × Doc) : JsString :=
  quote m.1 ++ 58 :: stringify N m.2

/-- So are members. -/
theorem stringifyMembers_eq (ms : List (JsString × Doc)) :
    stringifyMembers N ms = ms.map (memberText N) := by
  induction ms with
  | nil => rfl
  | cons m ms ih => rw [stringifyMembers, ih, List.map_cons, memberText]

/-- **Printing loses nothing.** -/
theorem parseTree_stringify (v : Doc) : parseTree N (stringify N v) = some v := by
  have h := parseValue_stringify (N := N) v (stringify N v).length [] (Nat.le_refl _)
    (fun u us hu => by cases hu)
  rw [List.append_nil] at h
  rw [parseTree, h]
  rfl

/-- **The text tells the value.** -/
theorem stringify_injective : Function.Injective (stringify N) := by
  intro v w h
  have hv := parseTree_stringify (N := N) v
  rw [h, parseTree_stringify] at hv
  exact (Option.some.inj hv).symm

/-! ## The characters of a text -/

theorem hexDigit_range : ∀ n, n < 16 → 0x20 ≤ (hexDigit n).val ∧ (hexDigit n).val < 0x80 := by decide

/-- A `\u` escape is printable ASCII. -/
theorem unicodeEscape_units {u w : Fin 65536} (h : w ∈ unicodeEscape u) :
    0x20 ≤ w.val ∧ w.val < 0x80 := by
  have hu := u.isLt
  simp only [unicodeEscape, List.mem_cons, List.not_mem_nil, or_false] at h
  rcases h with rfl | rfl | rfl | rfl | rfl | rfl
  · decide
  · decide
  · exact hexDigit_range _ (by omega)
  · exact hexDigit_range _ (by omega)
  · exact hexDigit_range _ (by omega)
  · exact hexDigit_range _ (by omega)

/-- A unit is written in printable ASCII, or as itself. -/
theorem escapeUnit_units {u w : Fin 65536} (h : w ∈ escapeUnit u) :
    0x20 ≤ w.val ∧ (w.val < 0x80 ∨ w = u) := by
  have hshort : ∀ e : Fin 65536, 0x20 ≤ e.val ∧ e.val < 0x80 → w ∈ [92, e] →
      0x20 ≤ w.val ∧ (w.val < 0x80 ∨ w = u) := by
    intro e he hw
    rcases List.mem_cons.mp hw with rfl | hw
    · exact ⟨by decide, Or.inl (by decide)⟩
    · rw [List.mem_singleton.mp hw]
      exact ⟨he.1, Or.inl he.2⟩
  unfold escapeUnit at h
  split at h
  next => exact hshort 98 (by decide) h
  next =>
  split at h
  next => exact hshort 116 (by decide) h
  next =>
  split at h
  next => exact hshort 110 (by decide) h
  next =>
  split at h
  next => exact hshort 102 (by decide) h
  next =>
  split at h
  next => exact hshort 114 (by decide) h
  next =>
  split at h
  next => exact hshort 34 (by decide) h
  next =>
  split at h
  next => exact hshort 92 (by decide) h
  next =>
  split at h
  next =>
    obtain ⟨hge, hlt⟩ := unicodeEscape_units h
    exact ⟨hge, Or.inl hlt⟩
  next hplain =>
    simp only [Bool.or_eq_true, decide_eq_true_eq, not_or] at hplain
    rw [List.mem_singleton.mp h]
    exact ⟨by omega, Or.inr rfl⟩

/-- A literal holds no control character, and beyond ASCII only what its string holds. -/
theorem escape_units {s : JsString} {w : Fin 65536} (h : w ∈ escape s) :
    0x20 ≤ w.val ∧ (w.val < 0x80 ∨ w ∈ s) := by
  fun_induction escape s with
  | case1 => cases h
  | case2 u =>
    obtain ⟨hge, hw⟩ := escapeUnit_units h
    exact ⟨hge, hw.imp_right fun hw => by rw [hw]; exact List.mem_singleton_self u⟩
  | case3 u v us hpair ih =>
    simp only [Utf8.high, Utf8.low, Bool.and_eq_true, decide_eq_true_eq] at hpair
    rcases List.mem_cons.mp h with rfl | h
    · exact ⟨by omega, Or.inr List.mem_cons_self⟩
    · rcases List.mem_cons.mp h with rfl | h
      · exact ⟨by omega, Or.inr (List.mem_cons_of_mem u List.mem_cons_self)⟩
      · obtain ⟨hge, hw⟩ := ih h
        exact ⟨hge, hw.imp_right fun hw => List.mem_cons_of_mem u (List.mem_cons_of_mem v hw)⟩
  | case4 u v us hpair ih =>
    rcases List.mem_append.mp h with h | h
    · obtain ⟨hge, hw⟩ := escapeUnit_units h
      exact ⟨hge, hw.imp_right fun hw => by rw [hw]; exact List.mem_cons_self⟩
    · obtain ⟨hge, hw⟩ := ih h
      exact ⟨hge, hw.imp_right fun hw => List.mem_cons_of_mem u hw⟩

end JSON

/-! ## The characters of a value -/

namespace Json

mutual

/-- Every code unit of every string and key satisfies `q`. -/
def allUnits (q : Fin 65536 → Bool) : Doc → Bool
  | .str s => s.all q
  | .arr xs => allUnitsItems q xs
  | .obj ms => allUnitsMembers q ms
  | _ => true

/-- The items have only units that pass. -/
def allUnitsItems (q : Fin 65536 → Bool) : List Doc → Bool
  | [] => true
  | x :: xs => allUnits q x && allUnitsItems q xs

/-- So have the members, keys and values. -/
def allUnitsMembers (q : Fin 65536 → Bool) : List (JsString × Doc) → Bool
  | [] => true
  | (key, x) :: ms => key.all q && allUnits q x && allUnitsMembers q ms

end

/-- Units of an array are those of its items. -/
theorem allUnits_arr {q : Fin 65536 → Bool} {xs : List Doc} :
    (Json.arr xs).allUnits q = true ↔ ∀ x ∈ xs, x.allUnits q = true := by
  rw [allUnits]
  induction xs with
  | nil => simp [allUnitsItems]
  | cons x xs ih => rw [allUnitsItems, Bool.and_eq_true, ih, List.forall_mem_cons]

/-- Units of an object are those of its keys and values. -/
theorem allUnits_obj {q : Fin 65536 → Bool} {ms : List (JsString × Doc)} :
    (Json.obj ms).allUnits q = true ↔ ∀ m ∈ ms, m.1.all q = true ∧ m.2.allUnits q = true := by
  rw [allUnits]
  induction ms with
  | nil => simp [allUnitsMembers]
  | cons m ms ih =>
    rw [allUnitsMembers, Bool.and_eq_true, Bool.and_eq_true, ih, List.forall_mem_cons]

end Json

namespace JSON

variable {N : NumberText}

/-- A character of a printed text: no control character, and beyond ASCII one of the value's. -/
def TextUnit (q : Fin 65536 → Bool) (w : Fin 65536) : Prop :=
  0x20 ≤ w.val ∧ (w.val < 0x80 ∨ q w = true)

/-- A quoted string brings in nothing but ASCII. -/
theorem quote_units {q : Fin 65536 → Bool} {s : JsString} (hs : s.all q = true) {w : Fin 65536}
    (h : w ∈ quote s) : TextUnit q w := by
  rw [quote, List.mem_cons, List.mem_append, List.mem_singleton] at h
  rcases h with rfl | h | rfl
  · exact ⟨by decide, Or.inl (by decide)⟩
  · obtain ⟨hge, hw⟩ := escape_units h
    exact ⟨hge, hw.imp_right fun hw => List.all_eq_true.mp hs w hw⟩
  · exact ⟨by decide, Or.inl (by decide)⟩

/-- Joining brings in nothing but commas. -/
theorem join_units {P : Fin 65536 → Prop} (hcomma : P 44) {parts : List JsString}
    (h : ∀ part ∈ parts, ∀ w ∈ part, P w) : ∀ w ∈ join parts, P w := by
  fun_induction join parts with
  | case1 => intro w hw; cases hw
  | case2 part => exact h part (List.mem_singleton_self part)
  | case3 part parts _ ih =>
    intro w hw
    rw [List.mem_append, List.mem_cons] at hw
    rcases hw with hw | rfl | hw
    · exact h part List.mem_cons_self w hw
    · exact hcomma
    · exact ih (fun p hp => h p (List.mem_cons_of_mem part hp)) w hw

/-- What stands between an opening and a closing bracket. -/
theorem bracket_units {P : Fin 65536 → Prop} {a b : Fin 65536} {s : JsString} (ha : P a) (hb : P b)
    (hs : ∀ w ∈ s, P w) : ∀ w ∈ a :: (s ++ [b]), P w := by
  intro w hw
  rw [List.mem_cons, List.mem_append, List.mem_singleton] at hw
  rcases hw with rfl | hw | rfl
  · exact ha
  · exact hs w hw
  · exact hb

theorem textUnit_ascii {q : Fin 65536 → Bool} {w : Fin 65536} (h : 0x20 ≤ w.val ∧ w.val < 0x80) :
    TextUnit q w :=
  ⟨h.1, Or.inl h.2⟩

theorem isNumberUnit_ascii {w : Fin 65536} (h : isNumberUnit w = true) :
    0x20 ≤ w.val ∧ w.val < 0x80 := by
  simp only [isNumberUnit, isDigit, Bool.or_eq_true, decide_eq_true_eq] at h
  rcases h with ((((h | rfl) | rfl) | rfl) | rfl) | rfl
  · omega
  all_goals decide

/-- **The characters of a printed value.** -/
theorem stringify_units {q : Fin 65536 → Bool} (v : Doc) (hv : v.allUnits q = true) :
    ∀ w ∈ stringify N v, TextUnit q w := by
  have hword : ∀ word : JsString, word.all (fun w => 0x20 ≤ w.val && w.val < 0x80) = true →
      ∀ w ∈ word, TextUnit q w := by
    intro word hall w hw
    have := List.all_eq_true.mp hall w hw
    exact textUnit_ascii (by simpa using this)
  induction v using Json.ind with
  | null => exact hword (js "null") (by decide)
  | bool b =>
    cases b with
    | true => exact hword (js "true") (by decide)
    | false => exact hword (js "false") (by decide)
  | num n => exact fun w hw => textUnit_ascii (isNumberUnit_ascii (N.units n w hw))
  | str s => exact fun w hw => quote_units hv hw
  | arr xs ih =>
    rw [Json.allUnits_arr] at hv
    rw [stringify, stringifyItems_eq]
    refine bracket_units (textUnit_ascii (by decide)) (textUnit_ascii (by decide))
      (join_units (textUnit_ascii (by decide)) fun part hpart => ?_)
    obtain ⟨x, hx, rfl⟩ := List.mem_map.mp hpart
    exact ih x hx (hv x hx)
  | obj ms ih =>
    rw [Json.allUnits_obj] at hv
    rw [stringify, stringifyMembers_eq]
    refine bracket_units (textUnit_ascii (by decide)) (textUnit_ascii (by decide))
      (join_units (textUnit_ascii (by decide)) fun part hpart => ?_)
    obtain ⟨m, hm, rfl⟩ := List.mem_map.mp hpart
    intro w hw
    rw [memberText, List.mem_append, List.mem_cons] at hw
    rcases hw with hw | rfl | hw
    · exact quote_units (hv m hm).1 hw
    · exact textUnit_ascii (by decide)
    · exact ih m hm (hv m hm).2 w hw

end JSON

/-! ## Texts are well-formed

A surrogate without a partner is escaped, so the UTF-8 bytes of a text determine the text. -/

namespace JSON

variable {N : NumberText}

theorem plain_of_ascii {w : Fin 65536} (h : w.val < 0x80) : Utf8.surrogate w = false := by
  simp only [Utf8.surrogate, decide_eq_false_iff_not]
  omega

/-- ASCII is well formed. -/
theorem wellFormed_ascii {s : JsString} (h : ∀ w ∈ s, w.val < 0x80) : Utf8.wellFormed s = true :=
  Utf8.wellFormed_of_plain fun w hw => plain_of_ascii (h w hw)

/-- What a unit is written as is well formed: a lone surrogate is escaped. -/
theorem wellFormed_escapeUnit (u : Fin 65536) : Utf8.wellFormed (escapeUnit u) = true := by
  by_cases hu : Utf8.surrogate u = true
  · have hescape : escapeUnit u = unicodeEscape u := by
      simp only [Utf8.surrogate, decide_eq_true_eq] at hu
      have hne : ∀ k : Fin 65536, k.val < 0xD800 → u ≠ k := by
        rintro k hk rfl
        omega
      unfold escapeUnit
      rw [if_neg (hne 8 (by decide)), if_neg (hne 9 (by decide)), if_neg (hne 10 (by decide)),
        if_neg (hne 12 (by decide)), if_neg (hne 13 (by decide)), if_neg (hne 34 (by decide)),
        if_neg (hne 92 (by decide)), if_pos]
      simp [Utf8.surrogate, hu]
    rw [hescape]
    exact wellFormed_ascii fun w hw => (unicodeEscape_units hw).2
  · refine Utf8.wellFormed_of_plain fun w hw => ?_
    rcases (escapeUnit_units hw).2 with hlt | rfl
    · exact plain_of_ascii hlt
    · simpa using hu

/-- So is a whole string. -/
theorem wellFormed_escape (s : JsString) : Utf8.wellFormed (escape s) = true := by
  fun_induction escape s with
  | case1 => rfl
  | case2 u => exact wellFormed_escapeUnit u
  | case3 u v us hpair ih =>
    rw [Utf8.wellFormed, if_pos hpair]
    exact ih
  | case4 u v us hpair ih => exact Utf8.wellFormed_append (wellFormed_escapeUnit u) ih

/-- And what stands between brackets. -/
theorem wellFormed_bracket {a b : Fin 65536} {s : JsString} (ha : a.val < 0x80) (hb : b.val < 0x80)
    (hs : Utf8.wellFormed s = true) : Utf8.wellFormed (a :: (s ++ [b])) = true := by
  refine Utf8.wellFormed_cons (plain_of_ascii ha) (Utf8.wellFormed_append hs ?_)
  exact Utf8.wellFormed_cons (plain_of_ascii hb) rfl

/-- And what is joined by commas. -/
theorem wellFormed_join {parts : List JsString} (h : ∀ part ∈ parts, Utf8.wellFormed part = true) :
    Utf8.wellFormed (join parts) = true := by
  fun_induction join parts with
  | case1 => rfl
  | case2 part => exact h part (List.mem_singleton_self part)
  | case3 part parts _ ih =>
    refine Utf8.wellFormed_append (h part List.mem_cons_self) ?_
    exact Utf8.wellFormed_cons rfl (ih fun p hp => h p (List.mem_cons_of_mem part hp))

/-- **A printed value is a well-formed string.** -/
theorem wellFormed_stringify (v : Doc) : Utf8.wellFormed (stringify N v) = true := by
  have hquote : ∀ s, Utf8.wellFormed (quote s) = true := fun s =>
    wellFormed_bracket (by decide) (by decide) (wellFormed_escape s)
  induction v using Json.ind with
  | null => exact (by decide : Utf8.wellFormed (js "null") = true)
  | bool b =>
    cases b with
    | true => exact (by decide : Utf8.wellFormed (js "true") = true)
    | false => exact (by decide : Utf8.wellFormed (js "false") = true)
  | num n => exact wellFormed_ascii fun w hw => (isNumberUnit_ascii (N.units n w hw)).2
  | str s => exact hquote s
  | arr xs ih =>
    rw [stringify, stringifyItems_eq]
    refine wellFormed_bracket (by decide) (by decide) (wellFormed_join fun part hpart => ?_)
    obtain ⟨x, hx, rfl⟩ := List.mem_map.mp hpart
    exact ih x hx
  | obj ms ih =>
    rw [stringify, stringifyMembers_eq]
    refine wellFormed_bracket (by decide) (by decide) (wellFormed_join fun part hpart => ?_)
    obtain ⟨m, hm, rfl⟩ := List.mem_map.mp hpart
    exact Utf8.wellFormed_append (hquote m.1) (Utf8.wellFormed_cons rfl (ih m hm))

/-- **The bytes of a printed value determine it.** -/
theorem encode_stringify_injective {v w : Doc}
    (h : Utf8.encode (stringify N v) = Utf8.encode (stringify N w)) : v = w :=
  stringify_injective (Utf8.encode_injective (wellFormed_stringify v) (wellFormed_stringify w) h)

end JSON

/-! ## An instance -/

/-- The double at a position of the numeric order. -/
def JsNumber.ofOrd (i : Int) : Option JsNumber :=
  if h : -infinityBits < i ∧ i < infinityBits then some ⟨i, h⟩ else none

/-- A number is found at its place. -/
theorem JsNumber.ofOrd_ord (n : JsNumber) : JsNumber.ofOrd n.ord = some n := by
  rw [JsNumber.ofOrd, dif_pos n.finite]

theorem decimal_cons (n : Nat) : ∃ u us, decimal n = u :: us := by
  cases h : decimal n with
  | nil =>
    rw [decimal, List.map_eq_nil_iff] at h
    exact absurd h Nat.toDigits_ne_nil
  | cons u us => exact ⟨u, us, rfl⟩

/-- Decimals are written in digits. -/
theorem isDigit_of_mem_decimal {n : Nat} {u : Fin 65536} (h : u ∈ decimal n) : isDigit u = true :=
  List.all_eq_true.mp (isDigit_decimal n) u h

/-- Print a number by its position in the numeric order.  It agrees with the host on `0`, the only
    number that is printed in a test here. -/
def ordinalText : NumberText where
  text n := (if n.ord < 0 then [45] else []) ++ decimal n.ord.natAbs
  value s :=
    if s.head? = some 45 then JsNumber.ofOrd (-(ofDigits (s.drop 1) : Int))
    else JsNumber.ofOrd (ofDigits s : Int)
  value_text n := by
    by_cases hneg : n.ord < 0
    · have hhead : ([45] ++ decimal n.ord.natAbs).head? = some 45 := rfl
      rw [if_pos hneg, if_pos hhead]
      show JsNumber.ofOrd (-(ofDigits (decimal n.ord.natAbs) : Int)) = some n
      rw [ofDigits_decimal, show -(n.ord.natAbs : Int) = n.ord by omega, JsNumber.ofOrd_ord]
    · have hhead : ¬ (decimal n.ord.natAbs).head? = some 45 := by
        intro hh
        have hmem : (45 : Fin 65536) ∈ decimal n.ord.natAbs := List.mem_of_mem_head? hh
        exact absurd (isDigit_of_mem_decimal hmem) (by decide)
      rw [if_neg hneg, List.nil_append, if_neg hhead, ofDigits_decimal,
        show (n.ord.natAbs : Int) = n.ord by omega, JsNumber.ofOrd_ord]
  units n u hu := by
    rcases List.mem_append.mp hu with hu | hu
    · split at hu
      next => rw [List.mem_singleton.mp hu]; rfl
      next => cases hu
    · rw [isNumberUnit, isDigit_of_mem_decimal hu]
      rfl
  starts n := by
    obtain ⟨u, us, hdec⟩ := decimal_cons n.ord.natAbs
    have hu : isDigit u = true := by
      refine @isDigit_of_mem_decimal n.ord.natAbs u ?_
      rw [hdec]
      exact List.mem_cons_self
    by_cases hneg : n.ord < 0
    · exact ⟨45, _, by rw [if_pos hneg]; rfl, Or.inl rfl⟩
    · exact ⟨u, us, by rw [if_neg hneg, hdec]; rfl, Or.inr hu⟩

end Baerly
