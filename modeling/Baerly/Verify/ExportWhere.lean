import Baerly.ExportWhere
import Baerly.Lib.SqlWhere
import Baerly.SnapshotCodec
import Baerly.Verify.ExportText
import Baerly.Verify.Implies
import Baerly.Verify.Segments
import Baerly.Verify.SnapshotManifest

/-
  What an exported `WHERE` fragment selects.

  SPEC (`whereSelects_iff`): on flat columns of one kind each, a fragment without hints selects
  exactly the exported rows that `matchesWire` accepts iff on every such row no clause is misread, or
  a clause that is not misread fails, or misread clauses go both ways.

  CRUX: the text of the fragment parses back into one condition per clause (`leafClause_parses`), so
  all that is left is one literal beside one value.  `MisreadLiteral` lists where SQLite answers
  otherwise than `matchesWire`: it converts a literal to the column's affinity and orders across
  kinds, it sorts strings as UTF-8, and it reads the digits of an integer exactly where the host has
  a double.  The list is complete (`misreadLiteral_iff`).
-/

namespace Baerly.Export

open SqlText SqlWhere

variable {N : NumberText} {E : Engine} {rows : ExportRows} {table : JsString} {plan : ExportPlan}
  {idIdentifier : JsString} {fieldColumns : List ColumnPlan}

/-! ## SQLite -/

/-- SQLite's conversions: a number as text, and the number a text looks like. -/
structure Conversions where
  render : ℚ → List Utf8.Byte
  numeric : List Utf8.Byte → Option ℚ

/-- An integer literal: digits with their sign, of a value that fits 64 bits. -/
def integerLiteral (text : JsString) : Option ℤ :=
  let negative := text.head? = some 45
  let digits := if negative then text.tail else text
  let bound := if negative then 2 ^ 63 + 1 else 2 ^ 63
  if digits ≠ [] ∧ digits.all isDigit ∧ ofDigits digits < bound then
    some (if negative then -(ofDigits digits : ℤ) else (ofDigits digits : ℤ))
  else none

/-- The number of a literal: an integer that fits is exact, any other number is a double. -/
def literalNumber (N : NumberText) (text : JsString) : Option ℚ :=
  match integerLiteral text with
  | some k => some k
  | none => (N.value text).map toRat

/-- SQLite with its text in UTF-8.  The double nearest to a text is the one the host reads. -/
def sqlite (N : NumberText) (K : Conversions) : Dialect ℚ Utf8.Byte where
  number := literalNumber N
  double text := (N.value text).map toRat
  bytes := Utf8.encode
  render := K.render
  numeric := K.numeric

/-- The host reads a 32-bit integer from its digits exactly. -/
def ReadsIntegers (N : NumberText) : Prop :=
  ∀ text k n, integerLiteral text = some k → N.value text = some n → isInt32 n = true →
    toRat n = k

/-- The affinity of a declared type. -/
def affinityOf : SqlType → Affinity
  | .upperInteger | .integer | .boolean => .numeric
  | .upperReal | .doublePrecision => .real
  | .upperText | .text | .jsonb => .text

/-- A row of the table, from the tokens it was inserted with. -/
def tableRow (D : Dialect ℚ Utf8.Byte) (columns : List ColumnPlan) (tokens : List Token) :
    Row ℚ Utf8.Byte :=
  fun name => do
    let (c, token) ← (columns.zip tokens).find? fun p => p.1.source = name
    let v ← stored D (affinityOf c.sqlType) token
    some (affinityOf c.sqlType, v)

/-- Is the row selected?  `none` if the fragment makes no sense. -/
def selected (D : Dialect ℚ Utf8.Byte) (columns : List ColumnPlan) (tokens : List Token)
    (sql : JsString) : Option Bool :=
  (parse D sql).bind (evalAll D (tableRow D columns tokens))

/-! ## One clause on one value -/

/-- A boolean as SQLite has it. -/
def bit (b : Bool) : ℚ := if b then 1 else 0

/-- The number of the literal a number is printed as: more than a double has, if it is an integer
    from `2 ^ 53` on. -/
def printed (N : NumberText) (n : JsNumber) : ℚ :=
  match integerLiteral (N.text n) with
  | some k => k
  | none => toRat n

/-- A value in the table. -/
def cellOf : Option Doc → Value ℚ Utf8.Byte
  | some (.str s) => .text (Utf8.encode s)
  | some (.num n) => .num (toRat n)
  | some (.bool b) => .num (bit b)
  | _ => .null

/-- A value in the fragment. -/
def literalCell (N : NumberText) : Doc → Value ℚ Utf8.Byte
  | .str s => .text (Utf8.encode s)
  | .num n => .num (printed N n)
  | .bool b => .num (bit b)
  | _ => .null

/-- The comparator of an operator. -/
def comparatorOf : PredicateOp → Comparator
  | .eq => .eq
  | .gt => .gt
  | .gte => .ge
  | .lt => .lt
  | .lte | .in => .le

/-- SQLite's reading of a clause on a value. -/
def sqlClause (N : NumberText) (K : Conversions) (affinity : Affinity) (clause : PredicateClause)
    (actual : Option Doc) : Bool :=
  match clause.op with
  | .in => (inMembers clause.value).any fun v =>
      holds .eq (cellOf actual) (coerce (sqlite N K) affinity (literalCell N v))
  | op => holds (comparatorOf op) (cellOf actual)
      (coerce (sqlite N K) affinity (literalCell N clause.value))

theorem literalNumber_text (n : JsNumber) : literalNumber N (N.text n) = some (printed N n) := by
  unfold literalNumber printed
  rw [N.value_text]
  cases integerLiteral (N.text n) <;> rfl

/-- A number that SQLite reads from a text the host reads as a 32-bit integer. -/
theorem literalNumber_int32 (hexact : ReadsIntegers N) {text : JsString} {n : JsNumber}
    (hvalue : N.value text = some n) (hint : isInt32 n = true) :
    literalNumber N text = some (toRat n) := by
  unfold literalNumber
  cases hk : integerLiteral text with
  | some k => rw [hexact text k n hk hvalue hint]
  | none => rw [hvalue]; rfl

theorem comparator_text {op : PredicateOp} (h : op ≠ .in) :
    comparator (comparatorText op) = some (comparatorOf op) := by
  cases op with
  | «in» => exact absurd rfl h
  | _ => decide

theorem comparatorText_wf (op : PredicateOp) : (Token.sym (comparatorText op)).Wf := by
  show comparatorText op ∈ symbols
  cases op <;> decide

/-! ## Literals -/

theorem literal_flatToken (K : Conversions) {v : Doc} (h : isNested v = false) :
    literal (sqlite N K) (flatToken N .sqlite v) = some (literalCell N v) := by
  cases v with
  | null => rfl
  | str s => rfl
  | num n =>
    show (literalNumber N (N.text n)).map Value.num = _
    rw [literalNumber_text]
    rfl
  | bool b => cases b <;> rfl
  | arr xs => cases h
  | obj ms => cases h

/-- The literals of a clause. -/
def literalsOf (clause : PredicateClause) : List Doc :=
  if clause.op = .in then inMembers clause.value else [clause.value]

theorem isNested_scalar {v : Doc} (h : typeOf v ≠ .object) : isNested v = false := by
  cases v with
  | arr xs => exact absurd rfl h
  | obj ms => exact absurd rfl h
  | _ => rfl

theorem quoteLeaf_ok {v : Doc} {s : JsString} (h : quoteLeaf N .sqlite v = .ok s) :
    typeOf v ≠ .object ∧ s = (flatToken N .sqlite v).text := by
  unfold quoteLeaf at h
  split at h
  next => cases h
  next hscalar =>
    rw [quoteValue_token (isNested_scalar hscalar)] at h
    exact ⟨hscalar, (Except.ok.inj h).symm⟩

theorem quoteLeaves_ok {vs : List Doc} {ss : List JsString} (h : quoteLeaves N .sqlite vs = .ok ss) :
    (∀ v ∈ vs, typeOf v ≠ .object) ∧ ss = (vs.map (flatToken N .sqlite)).map Token.text := by
  induction vs generalizing ss with
  | nil =>
    cases h
    exact ⟨fun v hv => absurd hv List.not_mem_nil, rfl⟩
  | cons v vs ih =>
    rw [quoteLeaves] at h
    obtain ⟨s, hv, h⟩ := except_bind_ok h
    obtain ⟨rest, hvs, h⟩ := except_bind_ok h
    cases h
    obtain ⟨hscalar, rfl⟩ := quoteLeaf_ok hv
    obtain ⟨hall, rfl⟩ := ih hvs
    exact ⟨List.forall_mem_cons.mpr ⟨hscalar, hall⟩, rfl⟩

/-! ## The text of a clause -/

/-- The condition of a clause on its column. -/
def conditionOf (N : NumberText) (clause : PredicateClause) : Condition ℚ Utf8.Byte :=
  match clause.op with
  | .in => .among clause.field ((inMembers clause.value).map (literalCell N))
  | op => .compare clause.field (comparatorOf op) (literalCell N clause.value)

/-- The clause has a literal. -/
def HasLiteral (clause : PredicateClause) : Prop :=
  clause.op = .in → inMembers clause.value ≠ []

/-- What the text of a clause is read as. -/
structure ClauseText (N : NumberText) (K : Conversions) (clause : PredicateClause) (sql : JsString)
    (block : List Token) : Prop where
  scalar : ∀ v ∈ literalsOf clause, typeOf v ≠ .object
  reads : Reads sql block
  parses : Parses (sqlite N K) block (conditionOf N clause)
  text : sql ≠ []
  tokens : block ≠ []

/-- **A flat clause reads back as its condition.** -/
theorem leafClause_parses (hsign : SignBeforeDigit N) (K : Conversions)
    {clause : PredicateClause} (hliteral : HasLiteral clause) {sql : JsString}
    (h : leafClause N (identifierOf clause.field) clause .sqlite = .ok sql) :
    ∃ block, ClauseText N K clause sql block := by
  have hident : (Token.ident clause.field).Wf := trivial
  have hspace : js " " = [32] := by decide
  by_cases hin : clause.op = .in
  · -- a list of literals
    have hmembers : leafClause N (identifierOf clause.field) clause .sqlite =
        (quoteLeaves N .sqlite (inMembers clause.value)).bind fun literals =>
          .ok (identifierOf clause.field ++ js " IN (" ++ List.intercalate (js ", ") literals ++
            js ")") := by
      rw [leafClause, hin]
      rfl
    rw [hmembers] at h
    cases hquote : quoteLeaves N .sqlite (inMembers clause.value) with
    | error e =>
      rw [hquote] at h
      cases h
    | ok literals =>
      rw [hquote] at h
      cases h
      obtain ⟨hscalar, rfl⟩ := quoteLeaves_ok hquote
      have hwf : ∀ token ∈ (inMembers clause.value).map (flatToken N .sqlite), token.Wf := by
        intro token hmem
        obtain ⟨v, -, rfl⟩ := List.mem_map.mp hmem
        exact flatToken_wf hsign .sqlite v
      have hvalues : List.Forall₂ (fun token v => literal (sqlite N K) token = some v)
          ((inMembers clause.value).map (flatToken N .sqlite))
          ((inMembers clause.value).map (literalCell N)) := by
        rw [List.forall₂_map_left_iff, List.forall₂_map_right_iff, List.forall₂_same]
        exact fun v hv => literal_flatToken K (isNested_scalar (hscalar v hv))
      have hword : (Token.word inWord).Wf := rfl
      have hin' : js " IN (" = 32 :: (inWord ++ [32, 40]) := by decide
      have hclose : js ")" = [41] := by decide
      have hsep : js ", " = [44, 32] := by decide
      refine ⟨[.ident clause.field, .word inWord, .sym [40]] ++
        (commaSeparated ((inMembers clause.value).map (flatToken N .sqlite)) ++ [.sym [41]]),
        ?_, ?_, ?_, ?_, by simp⟩
      · rw [literalsOf, if_pos hin]
        exact hscalar
      · intro rest tokens hbounded hrest
        rw [identifierOf_eq, hin', hclose, hsep]
        simp only [List.append_assoc, List.cons_append, List.nil_append]
        exact .token hident (bounded_cons (by decide) _) (.blank (.token hword
          (bounded_cons (by decide) _) (.blank (.mark (u := 40) rfl (by decide)
            (.list hwf (bounded_cons (by decide) _) (.mark (u := 41) rfl (by decide) hrest))))))
      · rw [conditionOf, hin]
        exact parses_among (fun hnil => hliteral hin (List.map_eq_nil_iff.mp hnil)) hvalues
      · rw [identifierOf]
        simp
  · -- one literal
    have hone : leafClause N (identifierOf clause.field) clause .sqlite =
        (quoteLeaf N .sqlite clause.value).bind fun literal => .ok (identifierOf clause.field ++
          js " " ++ comparatorText clause.op ++ js " " ++ literal) := by
      rw [leafClause]
      split
      next hop => exact absurd hop hin
      next => rfl
    rw [hone] at h
    cases hquote : quoteLeaf N .sqlite clause.value with
    | error e =>
      rw [hquote] at h
      cases h
    | ok literal =>
      rw [hquote] at h
      cases h
      obtain ⟨hscalar, rfl⟩ := quoteLeaf_ok hquote
      refine ⟨[.ident clause.field, .sym (comparatorText clause.op), flatToken N .sqlite clause.value],
        ?_, ?_, ?_, ?_, by simp⟩
      · rw [literalsOf, if_neg hin]
        exact fun v hv => List.mem_singleton.mp hv ▸ hscalar
      · intro rest tokens hbounded hrest
        rw [identifierOf_eq, hspace]
        simp only [List.append_assoc, List.cons_append, List.nil_append]
        exact .token hident (bounded_cons (by decide) _) (.blank (.token (comparatorText_wf _)
          (bounded_cons (by decide) _) (.blank (.token (flatToken_wf hsign .sqlite _) hbounded
            hrest))))
      · have hcondition : conditionOf N clause =
            .compare clause.field (comparatorOf clause.op) (literalCell N clause.value) := by
          rw [conditionOf]
          split
          next hop => exact absurd hop hin
          next => rfl
        rw [hcondition]
        exact parses_compare (comparator_text hin) (literal_flatToken K (isNested_scalar hscalar))
      · rw [identifierOf]
        simp

/-! ## Validated wires -/

theorem validateClause_literal {clause : PredicateClause} {i : Nat}
    (h : validateClause clause i = .ok ()) : HasLiteral clause := by
  intro hin hnil
  unfold validateClause at h
  split at h
  next => cases h
  next =>
    split at h
    next => cases h
    next =>
      rw [hin] at h
      cases hvalue : clause.value with
      | arr values =>
        rw [hvalue] at h hnil
        have hempty : values = [] := hnil
        rw [hempty] at h
        cases h
      | _ =>
        rw [hvalue] at h
        cases h

theorem validateClause_field {clause : PredicateClause} {i : Nat}
    (h : validateClause clause i = .ok ()) : clause.field ≠ [] ∧ clause.field ≠ idField := by
  unfold validateClause at h
  split at h
  next => cases h
  next hne =>
    split at h
    next => cases h
    next hid =>
      refine ⟨hne, fun heq => hid ?_⟩
      rw [heq]
      rfl

theorem validateClauses_mem {clauses : List PredicateClause} : ∀ {i : Nat},
    validateClauses i clauses = .ok () → ∀ c ∈ clauses, ∃ j, validateClause c j = .ok () := by
  induction clauses with
  | nil => exact fun _ c hc => absurd hc List.not_mem_nil
  | cons clause clauses ih =>
    intro i h c hc
    rw [validateClauses] at h
    cases hfirst : validateClause clause i with
    | error e =>
      rw [hfirst] at h
      cases h
    | ok u =>
      rw [hfirst] at h
      rcases List.mem_cons.mp hc with rfl | hc
      · exact ⟨i, hfirst⟩
      · exact ih h c hc

/-! ## Flat columns of one kind -/

/-- The field is a top-level one, nowhere nested, and its values are of one kind. -/
structure FlatField (rows : ExportRows) (field : JsString) : Prop where
  topLevel : field.contains 46 = false
  flat : ¬ Nested rows field
  oneKind : ∀ v ∈ columnValues rows field, ∀ u ∈ columnValues rows field,
    v ≠ .null → u ≠ .null → typeOf v = typeOf u

/-- The affinity of the column of a field. -/
def affinityFor (rows : ExportRows) (field : JsString) : Affinity :=
  affinityOf (pickSqlType (observed (columnValues rows field)) .sqlite).1

theorem FlatField.kind {field : JsString} (h : FlatField rows field) {v : Doc}
    (hv : v ∈ columnValues rows field) (hnull : v ≠ .null) :
    (observed (columnValues rows field)).hasNestedObject = false ∧
      ((observed (columnValues rows field)).hasString = true → typeOf v = .string) ∧
      ((observed (columnValues rows field)).hasBoolean = true → typeOf v = .boolean) ∧
      ((observed (columnValues rows field)).hasInteger = true ∨
        (observed (columnValues rows field)).hasNonInteger = true → typeOf v = .number) := by
  have hany : ∀ {p : Doc → Bool} {kind : JsType}, (∀ u, p u = true → u ≠ .null ∧ typeOf u = kind) →
      (columnValues rows field).any p = true → typeOf v = kind := by
    intro p kind hp hex
    obtain ⟨u, hu, hpu⟩ := List.any_eq_true.mp hex
    obtain ⟨hune, hkind⟩ := hp u hpu
    rw [← hkind]
    exact h.oneKind v hv u hu hnull hune
  refine ⟨?_, hany ?_, hany ?_, ?_⟩
  · rw [Bool.eq_false_iff]
    intro hnested
    obtain ⟨u, hu, hnest⟩ := List.any_eq_true.mp hnested
    obtain ⟨row, hrow, hget⟩ := mem_columnValues.mp hu
    exact h.flat ⟨row, hrow, u, hget, hnest⟩
  · intro u hu
    cases u with
    | str s => exact ⟨fun heq => (by cases heq), rfl⟩
    | _ => cases hu
  · intro u hu
    cases u with
    | bool b => exact ⟨fun heq => (by cases heq), rfl⟩
    | _ => cases hu
  · rintro (hint | hnon)
    · refine hany (fun u hu => ?_) hint
      cases u with
      | num n => exact ⟨fun heq => (by cases heq), rfl⟩
      | _ => cases hu
    · refine hany (fun u hu => ?_) hnon
      cases u with
      | num n => exact ⟨fun heq => (by cases heq), rfl⟩
      | _ => cases hu

/-- The picked type by the flags, where at most one kind was seen. -/
theorem affinityOf_pick {obs : ColumnObservation} (hnested : obs.hasNestedObject = false)
    (hstring : obs.hasString = true → obs.hasBoolean = false ∧ obs.hasInteger = false ∧
      obs.hasNonInteger = false)
    (hboolean : obs.hasBoolean = true → obs.hasInteger = false ∧ obs.hasNonInteger = false) :
    affinityOf (pickSqlType obs .sqlite).1 = if obs.hasNonInteger then .real
      else if obs.hasBoolean || obs.hasInteger then .numeric else .text := by
  obtain ⟨hasString, hasBoolean, hasInteger, hasNonInteger, hasNestedObject, hasNull⟩ := obs
  cases hnested
  cases hasString <;> cases hasBoolean <;> cases hasInteger <;> cases hasNonInteger <;>
    first
      | rfl
      | exact absurd (hstring rfl) (by simp)
      | exact absurd (hboolean rfl) (by simp)

/-- What a column of the affinity holds. -/
inductive Stores : Affinity → Doc → Prop where
  | null {affinity : Affinity} : Stores affinity .null
  | string {s : JsString} : Stores .text (.str s)
  | boolean {b : Bool} : Stores .numeric (.bool b)
  | integer {n : JsNumber} (hint : isInt32 n = true) : Stores .numeric (.num n)
  | double {n : JsNumber} : Stores .real (.num n)

/-- **The values of a flat column decide its affinity.** -/
theorem FlatField.stores {field : JsString} (h : FlatField rows field) {v : Doc}
    (hv : v ∈ columnValues rows field) : Stores (affinityFor rows field) v := by
  by_cases hnull : v = .null
  · rw [hnull]
    exact .null
  obtain ⟨hnested, hstring, hboolean, hnumber⟩ := h.kind hv hnull
  have hmem : ∀ {p : Doc → Bool}, p v = true → (columnValues rows field).any p = true :=
    fun hp => List.any_eq_true.mpr ⟨v, hv, hp⟩
  have hoff : ∀ {b : Bool} {kind : JsType}, (b = true → typeOf v = kind) → typeOf v ≠ kind →
      b = false := fun himp hne => Bool.eq_false_iff.mpr fun hb => hne (himp hb)
  rw [affinityFor]
  cases v with
  | null => exact absurd rfl hnull
  | str s =>
    have hb := hoff hboolean (by simp [typeOf])
    have hi := hoff (fun hi => hnumber (Or.inl hi)) (by simp [typeOf])
    have hn := hoff (fun hn => hnumber (Or.inr hn)) (by simp [typeOf])
    rw [affinityOf_pick hnested (fun _ => ⟨hb, hi, hn⟩) (fun _ => ⟨hi, hn⟩), hb, hi, hn]
    exact .string
  | bool b =>
    have hs := hoff hstring (by simp [typeOf])
    have hi := hoff (fun hi => hnumber (Or.inl hi)) (by simp [typeOf])
    have hn := hoff (fun hn => hnumber (Or.inr hn)) (by simp [typeOf])
    have hb : (observed (columnValues rows field)).hasBoolean = true :=
      hmem (show isBoolean (.bool b) = true from rfl)
    rw [affinityOf_pick hnested (fun hs' => absurd (hs.symm.trans hs') (by decide))
      (fun _ => ⟨hi, hn⟩), hb, hn]
    exact .boolean
  | num n =>
    have hs := hoff hstring (by simp [typeOf])
    have hb := hoff hboolean (by simp [typeOf])
    rw [affinityOf_pick hnested (fun hs' => absurd (hs.symm.trans hs') (by decide))
      (fun hb' => absurd (hb.symm.trans hb') (by decide)), hb]
    cases hnon : (observed (columnValues rows field)).hasNonInteger with
    | true => exact .double
    | false =>
      -- no value of the column is outside 32 bits, this one neither
      cases hint : isInt32 n with
      | true =>
        have hi : (observed (columnValues rows field)).hasInteger = true :=
          hmem (show isInteger (.num n) = true from hint)
        rw [hi]
        exact .integer hint
      | false =>
        have hn : (observed (columnValues rows field)).hasNonInteger = true :=
          hmem (show isNonInteger (.num n) = true by rw [isNonInteger, hint]; rfl)
        rw [hn] at hnon
        cases hnon
  | arr xs =>
    exact absurd hnested (by simp [observed, hmem (show isNested (.arr xs) = true from rfl)])
  | obj ms =>
    exact absurd hnested (by simp [observed, hmem (show isNested (.obj ms) = true from rfl)])

/-! ## The row in the table -/

theorem find_zip {r : ColumnPlan → Token → Prop} {columns : List ColumnPlan} {tokens : List Token}
    (h : List.Forall₂ r columns tokens) (hnodup : (columns.map ColumnPlan.source).Nodup)
    {c : ColumnPlan} (hc : c ∈ columns) :
    ∃ token, (columns.zip tokens).find? (fun p => p.1.source = c.source) = some (c, token) ∧
      r c token := by
  induction h with
  | nil => cases hc
  | @cons d token columns tokens hd _ ih =>
    rw [List.map_cons, List.nodup_cons] at hnodup
    rw [List.zip_cons_cons, List.find?_cons]
    by_cases hsource : d.source = c.source
    · rw [decide_eq_true hsource]
      rcases List.mem_cons.mp hc with rfl | hc
      · exact ⟨token, rfl, hd⟩
      · exact absurd (List.mem_map.mpr ⟨c, hc, hsource.symm⟩) hnodup.1
    · rw [decide_eq_false hsource]
      rcases List.mem_cons.mp hc with rfl | hc
      · exact absurd rfl hsource
      · exact ih hnodup.2 hc

/-- A column keeps the value its literal was written for. -/
theorem Decodes.stored_eq (hexact : ReadsIntegers N) (K : Conversions) {row : JsString × ExportRow}
    {c : ColumnPlan} {token : Token} (h : Decodes N .sqlite row c token)
    (hne : c.source ≠ idField) (hflat : c.jsonEncoded = false) {affinity : Affinity}
    (hstores : ∀ v, row.2.get c.source = some v → Stores affinity v) :
    stored (sqlite N K) affinity token = some (cellOf (row.2.get c.source)) := by
  cases h with
  | id hid => exact absurd hid hne
  | absent _ hget =>
    rw [hget]
    cases affinity <;> rfl
  | json _ hjson =>
    rw [hflat] at hjson
    cases hjson
  | null _ _ hget =>
    rw [hget]
    cases affinity <;> rfl
  | str _ _ hget =>
    rw [hget]
    cases hstores _ hget
    rfl
  | num _ _ hget hvalue =>
    rw [hget]
    cases hstores _ hget with
    | integer hint =>
      show ((literalNumber N _).map Value.num).map _ = _
      rw [literalNumber_int32 hexact hvalue hint]
      rfl
    | double =>
      show ((N.value _).map toRat).map Value.num = _
      rw [hvalue]
      rfl
  | @bool b _ _ hget =>
    rw [hget]
    cases hstores _ hget
    cases b <;> rfl

/-- **The cell of a flat column holds the row's value.** -/
theorem PlanOf.cell (hplan : PlanOf rows .sqlite table plan idIdentifier fieldColumns)
    (hexact : ReadsIntegers N) (K : Conversions) {row : JsString × ExportRow}
    (hreached : Reached rows row)
    {tokens : List Token} (htokens : List.Forall₂ (TokenOf N plan.target row) plan.columns tokens)
    {c : ColumnPlan} (hc : c ∈ fieldColumns) (hfield : FlatField rows c.source) :
    tableRow (sqlite N K) plan.columns tokens c.source =
      some (affinityFor rows c.source, cellOf (row.2.get c.source)) := by
  have hcolumn := hplan.column c hc
  have hmem : c ∈ plan.columns := by
    rw [hplan.columns]
    exact List.mem_cons_of_mem _ hc
  obtain ⟨token, hfind, htoken⟩ := find_zip htokens hplan.sources_nodup hmem
  have hflat : c.jsonEncoded = false :=
    Bool.eq_false_iff.mpr fun hjson => hfield.flat (hcolumn.jsonEncoded_iff.mp hjson)
  -- a written row that lacks a flat `__proto__` would have thrown
  have hown : ¬ ReadsProto row c := by
    rintro ⟨hproto, hnone⟩
    obtain ⟨-, -, -, -, hfree⟩ := hreached
    have hvalues := (hplan.mem_iff c.source).mp (List.mem_map_of_mem hc)
    exact hfree ⟨c.source, hvalues.1, hvalues.2, hnone, Or.inr ⟨hproto, hfield.flat⟩⟩
  obtain ⟨hdecodes, -⟩ := htoken.2 hown
  rw [hplan.target_eq] at hdecodes
  have haffinity : affinityOf c.sqlType = affinityFor rows c.source := by
    rw [affinityFor, hcolumn.pick]
  have hstores : ∀ v, row.2.get c.source = some v → Stores (affinityFor rows c.source) v :=
    fun v hget => hfield.stores (mem_columnValues.mpr ⟨row, hreached.mem, hget⟩)
  have hstored := hdecodes.stored_eq hexact K hcolumn.ne_id hflat hstores
  show ((plan.columns.zip tokens).find? fun p => p.1.source = c.source).bind _ = _
  rw [hfind]
  show (stored (sqlite N K) (affinityOf c.sqlType) token).bind _ = _
  rw [haffinity, hstored]
  rfl

/-! ## The fragment -/

theorem eval_conditionOf {K : Conversions} {env : Row ℚ Utf8.Byte} {clause : PredicateClause}
    {affinity : Affinity} {actual : Option Doc}
    (h : env clause.field = some (affinity, cellOf actual)) :
    eval (sqlite N K) env (conditionOf N clause) =
      some (sqlClause N K affinity clause actual) := by
  unfold conditionOf sqlClause
  split
  next hin =>
    rw [eval, h]
    simp only [Option.map_some, List.any_map]
    rfl
  next => rw [eval, h, Option.map_some]

/-- A clause without a hint is a comparison on the column of its field. -/
theorem PlanOf.clauseForWire_flat
    (hplan : PlanOf rows .sqlite table plan idIdentifier fieldColumns) {clause : PredicateClause}
    (hfield : FlatField rows clause.field) (hid : clause.field ≠ idField) {sql : JsString}
    (h : clauseForWire N clause plan = .ok (sql, none)) :
    (∃ c ∈ fieldColumns, c.source = clause.field) ∧
      leafClause N (identifierOf clause.field) clause .sqlite = .ok sql := by
  unfold clauseForWire at h
  rw [hfield.topLevel, if_neg (by decide)] at h
  split at h
  next => cases h
  next => cases h
  next head tail _ heq =>
    obtain ⟨rfl, rfl⟩ := List.cons.inj heq
    split at h
    next => cases h
    next col hfind =>
      have hsource : col.source = clause.field := by
        simpa using List.find?_some hfind
      have hmem := List.mem_of_find?_eq_some hfind
      have hidentifier := hplan.identifiers col hmem
      rw [hplan.columns] at hmem
      rcases List.mem_cons.mp hmem with rfl | hmem
      · exact absurd hsource.symm hid
      · have hflat : col.jsonEncoded = false := Bool.eq_false_iff.mpr fun hjson =>
          hfield.flat (hsource ▸ (hplan.column col hmem).jsonEncoded_iff.mp hjson)
        rw [hflat, Bool.not_false, if_pos rfl, if_pos rfl, hplan.target_eq, hidentifier, hsource,
          flatColumnClause] at h
        refine ⟨⟨col, hmem, hsource⟩, ?_⟩
        cases hleaf : leafClause N (identifierOf clause.field) clause .sqlite with
        | error e =>
          rw [hleaf] at h
          cases h
        | ok s =>
          rw [hleaf] at h
          cases h
          rfl

theorem clausesForWire_ok {clauses : List PredicateClause} {sqls : List JsString}
    (h : clausesForWire N plan clauses = .ok (sqls, [])) :
    List.Forall₂ (fun clause sql => clauseForWire N clause plan = .ok (sql, none)) clauses sqls := by
  induction clauses generalizing sqls with
  | nil =>
    cases h
    exact .nil
  | cons clause clauses ih =>
    rw [clausesForWire] at h
    cases hfirst : clauseForWire N clause plan with
    | error e =>
      rw [hfirst] at h
      cases h
    | ok first =>
      obtain ⟨sql, hint⟩ := first
      cases hrest : clausesForWire N plan clauses with
      | error e =>
        rw [hfirst, hrest] at h
        cases h
      | ok rest =>
        obtain ⟨more, hints⟩ := rest
        rw [hfirst, hrest] at h
        have hpair := Except.ok.inj h
        obtain ⟨rfl, hnil⟩ := Prod.mk.inj hpair
        obtain ⟨hhint, rfl⟩ := List.append_eq_nil_iff.mp hnil
        cases hint with
        | some text => cases hhint
        | none => exact .cons hfirst (ih hrest)

/-- A translation that succeeded without a hint. -/
theorem translate_ok {wire : PredicateWire} {dynamicHint : Option String} {result : WhereTranslation}
    (h : translatePredicateWireToSql N E wire plan dynamicHint = .ok result)
    (hhints : result.hints = []) :
    (∀ c ∈ wire.clauses, ∃ i, validateClause c i = .ok ()) ∧
      ∃ sqls, result.sql = List.intercalate andText sqls ∧
        List.Forall₂ (fun clause sql => clauseForWire N clause plan = .ok (sql, none))
          wire.clauses sqls := by
  have hand : js " AND " = andText := by decide
  unfold translatePredicateWireToSql at h
  cases hvalid : validateWire E wire with
  | error e =>
    rw [hvalid] at h
    cases h
  | ok w =>
    cases hclauses : clausesForWire N plan wire.clauses with
    | error e =>
      rw [hvalid, hclauses] at h
      cases h
    | ok pair =>
      obtain ⟨sqls, hints⟩ := pair
      rw [hvalid, hclauses] at h
      cases h
      obtain ⟨-, rfl⟩ := List.append_eq_nil_iff.mp hhints
      refine ⟨validateClauses_mem (i := 0) ?_, sqls, by rw [← hand], clausesForWire_ok hclauses⟩
      unfold validateWire at hvalid
      cases hcheck : validateClauses 0 wire.clauses with
      | error e =>
        rw [hcheck] at hvalid
        cases hvalid
      | ok u => rfl

/-- **The fragment is the conjunction of its clauses.** -/
theorem PlanOf.parse_fragment (hplan : PlanOf rows .sqlite table plan idIdentifier fieldColumns)
    (hsign : SignBeforeDigit N) (K : Conversions) {clauses : List PredicateClause}
    {sqls : List JsString}
    (hflat : ∀ c ∈ clauses, FlatField rows c.field)
    (hvalid : ∀ c ∈ clauses, ∃ i, validateClause c i = .ok ())
    (h : List.Forall₂ (fun clause sql => clauseForWire N clause plan = .ok (sql, none)) clauses sqls) :
    parse (sqlite N K) (List.intercalate andText sqls) = some (clauses.map (conditionOf N)) := by
  have hblocks : ∃ blocks, List.Forall₂ Reads sqls blocks ∧
      List.Forall₂ (Parses (sqlite N K)) blocks (clauses.map (conditionOf N)) ∧
      (∀ block ∈ blocks, block ≠ []) ∧ ∀ sql ∈ sqls, sql ≠ [] := by
    induction h with
    | nil =>
      exact ⟨[], .nil, .nil, fun b hb => absurd hb List.not_mem_nil,
        fun s hs => absurd hs List.not_mem_nil⟩
    | @cons clause sql clauses sqls hclause _ ih =>
      obtain ⟨i, hcheck⟩ := hvalid clause List.mem_cons_self
      obtain ⟨-, hleaf⟩ := hplan.clauseForWire_flat (hflat clause List.mem_cons_self)
        (validateClause_field hcheck).2 hclause
      obtain ⟨block, -, hread, hparse, htext, htokens⟩ :=
        leafClause_parses hsign K (validateClause_literal hcheck) hleaf
      obtain ⟨blocks, hreads, hparses, hblock, hsql⟩ :=
        ih (fun c hc => hflat c (List.mem_cons_of_mem _ hc))
          (fun c hc => hvalid c (List.mem_cons_of_mem _ hc))
      refine ⟨block :: blocks, .cons hread hreads, .cons hparse hparses, ?_, ?_⟩
      · intro b hb
        rcases List.mem_cons.mp hb with rfl | hb
        · exact htokens
        · exact hblock b hb
      · intro s hs
        rcases List.mem_cons.mp hs with rfl | hs
        · exact htext
        · exact hsql s hs
  obtain ⟨blocks, hreads, hparses, hblock, hsql⟩ := hblocks
  exact parse_joined hreads hparses hblock hsql

/-- What is known of a clause that was translated without a hint. -/
structure Translated (rows : ExportRows) (clause : PredicateClause) : Prop where
  valid : ∃ i, validateClause clause i = .ok ()
  scalar : ∀ v ∈ literalsOf clause, typeOf v ≠ .object
  observed : columnValues rows clause.field ≠ []

theorem PlanOf.translated (hplan : PlanOf rows .sqlite table plan idIdentifier fieldColumns)
    (hsign : SignBeforeDigit N) {clauses : List PredicateClause} {sqls : List JsString}
    (hflat : ∀ c ∈ clauses, FlatField rows c.field)
    (hvalid : ∀ c ∈ clauses, ∃ i, validateClause c i = .ok ())
    (h : List.Forall₂ (fun clause sql => clauseForWire N clause plan = .ok (sql, none)) clauses sqls) :
    ∀ c ∈ clauses, Translated rows c := by
  intro c hc
  obtain ⟨i, hcheck⟩ := hvalid c hc
  obtain ⟨n, hn, hcn⟩ := List.getElem_of_mem hc
  have hsql := h.get hn (h.length_eq ▸ hn)
  simp only [List.get_eq_getElem, hcn] at hsql
  obtain ⟨⟨col, hcol, hsource⟩, hleaf⟩ :=
    hplan.clauseForWire_flat (hflat c hc) (validateClause_field hcheck).2 hsql
  obtain ⟨block, htext⟩ := leafClause_parses hsign ⟨fun _ => [], fun _ => none⟩
    (validateClause_literal hcheck) hleaf
  exact ⟨⟨i, hcheck⟩, htext.scalar,
    ((hplan.mem_iff c.field).mp (List.mem_map.mpr ⟨col, hcol, hsource⟩)).2⟩

/-! ## What the fragment selects -/

/-- The fragment selects exactly the exported rows that the wire accepts. -/
def WhereSelects (N : NumberText) (K : Conversions) (plan : ExportPlan) (rows : ExportRows)
    (wire : PredicateWire) (sql : JsString) : Prop :=
  ∀ row values tokens, (row, values) ∈ writtenRows N plan rows →
    Lexes (insertStatement plan values)
      (skeleton plan.table (plan.columns.map ColumnPlan.source) tokens) →
    ∃ b, selected (sqlite N K) plan.columns tokens sql = some b ∧
      (b = true ↔ matchesWire wire row.2.toDoc = .ok true)

/-- The clause holds of the row in SQLite. -/
def SqlHolds (N : NumberText) (K : Conversions) (rows : ExportRows) (row : JsString × ExportRow)
    (clause : PredicateClause) : Prop :=
  sqlClause N K (affinityFor rows clause.field) clause (row.2.get clause.field) = true

/-- The clause holds of the row in `matchesWire`. -/
def WireHolds (row : JsString × ExportRow) (clause : PredicateClause) : Prop :=
  matchesClause clause (readProperty row.2 clause.field) = .ok true

theorem matchesWire_flat {wire : PredicateWire} (hflat : ∀ c ∈ wire.clauses, FlatField rows c.field)
    (row : JsString × ExportRow) :
    matchesWire wire row.2.toDoc = .ok true ↔ ∀ c ∈ wire.clauses, WireHolds row c := by
  rw [matchesWire_iff]
  have hpath : ∀ c ∈ wire.clauses, lookupPath row.2.toDoc c.field = readProperty row.2 c.field := by
    intro c hc
    rw [lookupPath, (hflat c hc).topLevel, if_neg (by decide)]
    rfl
  constructor
  · intro h c hc
    have hclause := h c hc
    rw [hpath c hc] at hclause
    exact hclause
  · intro h c hc
    rw [hpath c hc]
    exact h c hc

/-- A written row that lacks a flat column's field inherits nothing under its name. -/
theorem Reached.reads_undefined {row : JsString × ExportRow} (hreached : Reached rows row)
    {field : JsString} (hid : field ≠ idField) (hvalues : columnValues rows field ≠ [])
    (hflat : ¬ Nested rows field) (hnone : row.2.get field = none) :
    readProperty row.2 field = .undefined := by
  obtain ⟨-, -, -, -, hfree⟩ := hreached
  have hproto : field ≠ protoName := fun heq =>
    hfree ⟨field, hid, hvalues, hnone, Or.inr ⟨heq, heq ▸ hflat⟩⟩
  have hmethod : ¬ inheritedMethods.contains field = true := fun hmem =>
    hfree ⟨field, hid, hvalues, hnone, Or.inl (List.contains_iff_mem.mp hmem)⟩
  rw [readProperty, readMember_inherited hnone, inherited, if_neg hproto, if_neg hmethod]

/-! ## Misread clauses -/

/-- **SQLite and `matchesWire` disagree about a value and a literal.**  `matchesWire` accepts no
    literal of another kind than the value, and SQLite does in five cases; within one kind they
    part on strings that sort differently as UTF-8 than as UTF-16, and on numbers beside a literal
    whose digits are not the double's value. -/
inductive MisreadLiteral (N : NumberText) (K : Conversions) (op : PredicateOp) : Doc → Doc → Prop
  /-- A number beside a text column is compared as text. -/
  | digits {s : JsString} {n : JsNumber}
    (h : holds (comparatorOf op) (.text (Utf8.encode s) : Value ℚ Utf8.Byte)
      (.text (K.render (printed N n))) = true) :
    MisreadLiteral N K op (.str s) (.num n)
  /-- So is a boolean, as the text of its bit. -/
  | flag {s : JsString} {b : Bool}
    (h : holds (comparatorOf op) (.text (Utf8.encode s) : Value ℚ Utf8.Byte)
      (.text (K.render (bit b))) = true) :
    MisreadLiteral N K op (.str s) (.bool b)
  /-- A string that looks like a number is one beside a numeric column. -/
  | numeral {y : Doc} {q : ℚ} {t : JsString} (hy : typeOf y = .number ∨ typeOf y = .boolean)
    (hq : K.numeric (Utf8.encode t) = some q)
    (h : holds (comparatorOf op) (cellOf (some y)) (.num q) = true) :
    MisreadLiteral N K op y (.str t)
  /-- Any other string is greater than all numbers. -/
  | word {y : Doc} {t : JsString} (hy : typeOf y = .number ∨ typeOf y = .boolean)
    (hq : K.numeric (Utf8.encode t) = none) (h : op = .lt ∨ op = .lte) :
    MisreadLiteral N K op y (.str t)
  /-- A boolean is a bit beside numbers. -/
  | bits {y v : Doc}
    (hkinds : typeOf y = .number ∧ typeOf v = .boolean ∨ typeOf y = .boolean ∧ typeOf v = .number)
    (h : holds (comparatorOf op) (cellOf (some y)) (literalCell N v) = true) :
    MisreadLiteral N K op y v
  /-- Strings that sort differently in the two encodings. -/
  | units {s t : JsString}
    (h : holds (comparatorOf op) (.text (Utf8.encode s) : Value ℚ Utf8.Byte) (.text (Utf8.encode t))
      ≠ holds (comparatorOf op) (.text s : Value ℚ (Fin 65536)) (.text t)) :
    MisreadLiteral N K op (.str s) (.str t)
  /-- Digits of an integer that is not the double (`misreadLiteral_digits`). -/
  | rounding {m n : JsNumber}
    (h : holds (comparatorOf op) (.num (toRat m) : Value ℚ Utf8.Byte) (.num (printed N n)) ≠
      holds (comparatorOf op) (.num (toRat m) : Value ℚ Utf8.Byte) (.num (toRat n))) :
    MisreadLiteral N K op (.num m) (.num n)

/-- **A clause is misread on a value**: on its literal; or a set on a value that is none of its
    members but that SQLite takes for one of them, or that is one of them and that SQLite takes for
    none. -/
def MisreadValue (N : NumberText) (K : Conversions) (clause : PredicateClause) (y : Doc) : Prop :=
  match clause.op with
  | .in =>
    (y ∉ inMembers clause.value ∧ ∃ m ∈ inMembers clause.value, MisreadLiteral N K .eq y m) ∨
      (y ∈ inMembers clause.value ∧ MisreadLiteral N K .eq y y ∧
        ∀ m ∈ inMembers clause.value, m ≠ y → ¬ MisreadLiteral N K .eq y m)
  | op => MisreadLiteral N K op y clause.value

/-- A clause is misread on a row. -/
def Misread (N : NumberText) (K : Conversions) (row : JsString × ExportRow)
    (clause : PredicateClause) : Prop :=
  ∃ y, row.2.get clause.field = some y ∧ MisreadValue N K clause y

/-! ### The table is complete -/

theorem toRat_lt_iff (m n : JsNumber) : toRat m < toRat n ↔ m < n := by
  have hord : ∀ n : JsNumber, float64Bits n < 2 ^ 64 ∧ Float64.ord (float64Bits n) = n.ord := by
    intro n
    by_cases h : 0 ≤ n.ord
    · obtain ⟨hbits, hlt⟩ := float64Bits_nonneg h
      refine ⟨by omega, ?_⟩
      rw [Float64.ord, if_pos hlt, hbits]
      omega
    · obtain ⟨hbits, hlt⟩ := float64Bits_neg (Int.not_le.mp h)
      refine ⟨hlt, ?_⟩
      rw [Float64.ord, if_neg (by omega), hbits]
      omega
  rw [toRat, toRat, Float64.value_lt_iff (hord m).1 (hord n).1, (hord m).2, (hord n).2]
  exact Iff.rfl

theorem toRat_inj {m n : JsNumber} : toRat m = toRat n ↔ m = n := by
  have h := toRat_lt_iff m n
  have h' := toRat_lt_iff n m
  rcases lt_trichotomy m n with hlt | rfl | hgt
  · exact iff_of_false (ne_of_lt (h.mpr hlt)) (ne_of_lt hlt)
  · exact iff_of_true rfl rfl
  · exact iff_of_false (ne_of_gt (h'.mpr hgt)) (ne_of_gt hgt)

/-- What `matchesWire` makes of a value and the one literal of a clause. -/
def wireLiteral (op : PredicateOp) (y v : Doc) : Bool :=
  match op with
  | .gt => compareGT (.value y) v false
  | .gte => compareGT (.value y) v true
  | .lt => compareLT (.value y) v false
  | .lte => compareLT (.value y) v true
  | _ => y = v

/-- No kind of value is compared with another one. -/
theorem wireLiteral_kind {op : PredicateOp} {y v : Doc} (h : typeOf y ≠ typeOf v) :
    wireLiteral op y v = false := by
  have hne : y ≠ v := fun heq => h (by rw [heq])
  cases op with
  | eq => exact decide_eq_false hne
  | «in» => exact decide_eq_false hne
  | _ => cases y <;> cases v <;> first | rfl | exact absurd rfl h

theorem wireLiteral_str {op : PredicateOp} (hop : op ≠ .in) (s t : JsString) :
    wireLiteral op (.str s) (.str t) =
      holds (comparatorOf op) (.text s : Value ℚ (Fin 65536)) (.text t) := by
  have hle : ∀ a b : JsString, a ≤ b ↔ a < b ∨ a = b := fun a b => le_iff_lt_or_eq
  cases op with
  | «in» => exact absurd rfl hop
  | eq => simp [holds, comparatorOf, wireLiteral]
  | gt => simp [holds, comparatorOf, wireLiteral, before, compareGT]
  | gte => simp [holds, comparatorOf, wireLiteral, before, compareGT, hle, eq_comm]
  | lt => simp [holds, comparatorOf, wireLiteral, before, compareLT]
  | lte => simp [holds, comparatorOf, wireLiteral, before, compareLT, hle]

theorem wireLiteral_num {op : PredicateOp} (hop : op ≠ .in) (m n : JsNumber) :
    wireLiteral op (.num m) (.num n) =
      holds (comparatorOf op) (.num (toRat m) : Value ℚ Utf8.Byte) (.num (toRat n)) := by
  cases op with
  | «in» => exact absurd rfl hop
  | eq => simp [holds, comparatorOf, wireLiteral, toRat_inj]
  | gt => simp [holds, comparatorOf, wireLiteral, before, compareGT, toRat_lt_iff]
  | gte =>
    simp [holds, comparatorOf, wireLiteral, before, compareGT, toRat_lt_iff, toRat_inj,
      le_iff_lt_or_eq, eq_comm]
  | lt => simp [holds, comparatorOf, wireLiteral, before, compareLT, toRat_lt_iff]
  | lte =>
    simp [holds, comparatorOf, wireLiteral, before, compareLT, toRat_lt_iff, toRat_inj,
      le_iff_lt_or_eq]

/-- A number is less than any text. -/
theorem holds_num_text {op : PredicateOp} (hop : op ≠ .in) (a : ℚ) (b : List Utf8.Byte) :
    holds (comparatorOf op) (.num a) (.text b) = true ↔ op = .lt ∨ op = .lte := by
  cases op with
  | «in» => exact absurd rfl hop
  | _ => simp [holds, comparatorOf, before]

theorem cellOf_number {y : Doc} (h : typeOf y = .number ∨ typeOf y = .boolean) :
    ∃ q, cellOf (some y) = .num q := by
  cases y with
  | num n => exact ⟨_, rfl⟩
  | bool b => exact ⟨_, rfl⟩
  | _ => rcases h with h | h <;> cases h

/-- What a column that holds a value is. -/
theorem Stores.affinity {affinity : Affinity} {y : Doc} (h : Stores affinity y) (hy : y ≠ .null) :
    (∃ s, y = .str s ∧ affinity = .text) ∨
      ((typeOf y = .number ∨ typeOf y = .boolean) ∧ affinity ≠ .text) := by
  cases h with
  | null => exact absurd rfl hy
  | string => exact Or.inl ⟨_, rfl, rfl⟩
  | boolean => exact Or.inr ⟨Or.inr rfl, fun h => (by cases h)⟩
  | integer => exact Or.inr ⟨Or.inl rfl, fun h => (by cases h)⟩
  | double => exact Or.inr ⟨Or.inl rfl, fun h => (by cases h)⟩

theorem coerce_numeral {K : Conversions} {affinity : Affinity} (h : affinity ≠ .text)
    {b : List Utf8.Byte} {q : ℚ} (hq : K.numeric b = some q) :
    coerce (sqlite N K) affinity (.text b) = .num q := by
  cases affinity with
  | text => exact absurd rfl h
  | _ => simp [coerce, sqlite, hq]

theorem coerce_word {K : Conversions} {affinity : Affinity} (h : affinity ≠ .text)
    {b : List Utf8.Byte} (hq : K.numeric b = none) :
    coerce (sqlite N K) affinity (.text b) = .text b := by
  cases affinity with
  | text => exact absurd rfl h
  | _ => simp [coerce, sqlite, hq]

theorem coerce_num {K : Conversions} {affinity : Affinity} (h : affinity ≠ .text) (q : ℚ) :
    coerce (sqlite N K) affinity (.num q) = .num q := by
  cases affinity with
  | text => exact absurd rfl h
  | _ => rfl

/-- Beside a text column. -/
theorem misreadLiteral_text_iff {K : Conversions} {op : PredicateOp} (hop : op ≠ .in)
    {s : JsString} {v : Doc} (hv : typeOf v ≠ .object) :
    MisreadLiteral N K op (.str s) v ↔ holds (comparatorOf op) (cellOf (some (.str s)))
      (coerce (sqlite N K) .text (literalCell N v)) ≠ wireLiteral op (.str s) v := by
  cases v with
  | str t =>
    -- strings beside a text column: they part only on how text is ordered
    rw [wireLiteral_str hop]
    refine ⟨fun h => ?_, .units⟩
    cases h with
    | numeral hkind => rcases hkind with h | h <;> cases h
    | word hkind => rcases hkind with h | h <;> cases h
    | bits hkinds => rcases hkinds with ⟨h, -⟩ | ⟨h, -⟩ <;> cases h
    | units h => exact h
  | num n =>
    -- another kind never matches, so SQLite misreads it exactly where it accepts it
    rw [wireLiteral_kind (by simp [typeOf]), Bool.ne_false_iff]
    refine ⟨fun h => ?_, .digits⟩
    cases h with
    | digits h => exact h
    | bits hkinds => rcases hkinds with ⟨h, -⟩ | ⟨h, -⟩ <;> cases h
  | bool b =>
    rw [wireLiteral_kind (by simp [typeOf]), Bool.ne_false_iff]
    refine ⟨fun h => ?_, .flag⟩
    cases h with
    | flag h => exact h
    | bits hkinds => rcases hkinds with ⟨h, -⟩ | ⟨h, -⟩ <;> cases h
  | null => exact absurd rfl hv
  | arr xs => exact absurd rfl hv
  | obj ms => exact absurd rfl hv

/-- Beside a numeric column. -/
theorem misreadLiteral_numeric_iff {K : Conversions} {op : PredicateOp} (hop : op ≠ .in)
    {affinity : Affinity} (haff : affinity ≠ .text) {y v : Doc}
    (hkind : typeOf y = .number ∨ typeOf y = .boolean) (hv : typeOf v ≠ .object)
    (hrange : op ≠ .eq → ∀ b, v ≠ .bool b) :
    MisreadLiteral N K op y v ↔ holds (comparatorOf op) (cellOf (some y))
      (coerce (sqlite N K) affinity (literalCell N v)) ≠ wireLiteral op y v := by
  obtain ⟨a, ha⟩ := cellOf_number hkind
  cases v with
  | str t =>
    have hne : typeOf y ≠ typeOf (.str t : Doc) := by
      rcases hkind with h | h <;> rw [h] <;> simp [typeOf]
    rw [wireLiteral_kind hne, Bool.ne_false_iff, literalCell]
    cases hq : K.numeric (Utf8.encode t) with
    | some q =>
      -- the literal looks like a number: numeric affinity makes it one
      rw [coerce_numeral haff hq]
      refine ⟨fun h => ?_, .numeral hkind hq⟩
      cases h with
      | numeral _ hq' h =>
        cases hq.symm.trans hq'
        exact h
      | word _ hq' =>
        rw [hq] at hq'
        cases hq'
      | bits hkinds => rcases hkinds with ⟨-, h⟩ | ⟨-, h⟩ <;> cases h
      | units => rcases hkind with h | h <;> cases h
    | none =>
      -- it does not, and stays text, which sorts after every number
      rw [coerce_word haff hq, ha, holds_num_text hop]
      refine ⟨fun h => ?_, .word hkind hq⟩
      cases h with
      | numeral _ hq' h =>
        rw [hq] at hq'
        cases hq'
      | word _ _ h => exact h
      | bits hkinds => rcases hkinds with ⟨-, h⟩ | ⟨-, h⟩ <;> cases h
      | units => rcases hkind with h | h <;> cases h
  | num n =>
    rw [literalCell, coerce_num haff]
    cases y with
    | num m =>
      -- two numbers part only where the printed one is not the double
      rw [wireLiteral_num hop]
      refine ⟨fun h => ?_, .rounding⟩
      cases h with
      | bits hkinds => rcases hkinds with ⟨-, h⟩ | ⟨h, -⟩ <;> cases h
      | rounding h => exact h
    | bool b =>
      rw [wireLiteral_kind (by simp [typeOf]), Bool.ne_false_iff]
      refine ⟨fun h => ?_, fun h => .bits (Or.inr ⟨rfl, rfl⟩) h⟩
      cases h with
      | bits _ h => exact h
    | _ => rcases hkind with h | h <;> cases h
  | bool b =>
    rw [literalCell, coerce_num haff]
    -- `matchesWire` knows booleans under equality only
    have heq : op = .eq := by
      by_contra hne
      exact hrange hne b rfl
    subst heq
    cases y with
    | num m =>
      rw [wireLiteral_kind (by simp [typeOf]), Bool.ne_false_iff]
      refine ⟨fun h => ?_, fun h => .bits (Or.inl ⟨rfl, rfl⟩) h⟩
      cases h with
      | bits _ h => exact h
    | bool b' =>
      refine iff_of_false (fun h => ?_) (not_not.mpr ?_)
      · cases h with
        | bits hkinds => rcases hkinds with ⟨h, -⟩ | ⟨-, h⟩ <;> cases h
      · cases b <;> cases b' <;> decide +kernel
    | _ => rcases hkind with h | h <;> cases h
  | null => exact absurd rfl hv
  | arr xs => exact absurd rfl hv
  | obj ms => exact absurd rfl hv

/-- **The table is complete**: a value and a literal are misread exactly where SQLite's comparison
    has another answer than `matchesWire`. -/
theorem misreadLiteral_iff {K : Conversions} {op : PredicateOp} (hop : op ≠ .in)
    {affinity : Affinity} {y v : Doc} (hstores : Stores affinity y) (hy : y ≠ .null)
    (hv : typeOf v ≠ .object) (hrange : op ≠ .eq → ∀ b, v ≠ .bool b) :
    MisreadLiteral N K op y v ↔ holds (comparatorOf op) (cellOf (some y))
      (coerce (sqlite N K) affinity (literalCell N v)) ≠ wireLiteral op y v := by
  rcases hstores.affinity hy with ⟨s, rfl, rfl⟩ | ⟨hkind, haff⟩
  · exact misreadLiteral_text_iff hop hv
  · exact misreadLiteral_numeric_iff hop haff hkind hv hrange

/-! ### Clauses -/

theorem matchesEq_scalar {v : Doc} (h : typeOf v ≠ .object) (actual : Property) :
    matchesEq v actual = .ok (decide (actual = .value v)) := by
  cases v with
  | str s => rfl
  | num n => rfl
  | bool b => rfl
  | _ => exact absurd rfl h

theorem sqlClause_single {K : Conversions} {affinity : Affinity} {clause : PredicateClause}
    (hin : clause.op ≠ .in) (actual : Option Doc) : sqlClause N K affinity clause actual =
      holds (comparatorOf clause.op) (cellOf actual)
        (coerce (sqlite N K) affinity (literalCell N clause.value)) := by
  unfold sqlClause
  split
  next hop => exact absurd hop hin
  next => rfl

theorem matchesClause_single {clause : PredicateClause} (hin : clause.op ≠ .in)
    (hscalar : typeOf clause.value ≠ .object) (y : Doc) :
    matchesClause clause (.value y) = .ok (wireLiteral clause.op y clause.value) := by
  unfold matchesClause wireLiteral
  cases hop : clause.op with
  | eq =>
    dsimp only
    rw [matchesEq_scalar hscalar]
    simp
  | «in» => exact absurd hop hin
  | _ => rfl

theorem matchesIn_leaves {vs : List Doc} (h : ∀ v ∈ vs, typeOf v ≠ .object) (actual : Property) :
    matchesIn vs actual = .ok (vs.any fun v => actual = .value v) := by
  induction vs with
  | nil => rfl
  | cons v vs ih =>
    rw [List.forall_mem_cons] at h
    rw [matchesIn, matchesEq_scalar h.1, List.any_cons]
    by_cases heq : actual = .value v
    · rw [decide_eq_true heq]
      rfl
    · rw [decide_eq_false heq]
      exact ih h.2

/-- No range bound is a boolean. -/
theorem validateClause_range {clause : PredicateClause} {i : Nat}
    (h : validateClause clause i = .ok ()) (heq : clause.op ≠ .eq) (hin : clause.op ≠ .in) (b : Bool) :
    clause.value ≠ .bool b := by
  intro hvalue
  unfold validateClause at h
  rw [hvalue] at h
  split at h
  next => cases h
  next =>
    split at h
    next => cases h
    next =>
      cases hop : clause.op with
      | eq => exact absurd hop heq
      | «in» => exact absurd hop hin
      | _ =>
        rw [hop] at h
        cases h

theorem holds_null_left (op : Comparator) (b : Value ℚ Utf8.Byte) : holds op .null b = false :=
  if_pos (Or.inl rfl)

/-- A missing value, or `null`, satisfies no clause in SQLite. -/
theorem sqlClause_null {K : Conversions} {affinity : Affinity} {clause : PredicateClause}
    {actual : Option Doc} (h : cellOf actual = .null) :
    sqlClause N K affinity clause actual = false := by
  unfold sqlClause
  rw [h]
  split
  next => simp [holds_null_left]
  next => exact holds_null_left _ _

/-- Nor does what is no value, or `null`, satisfy one in `matchesWire`. -/
theorem matchesClause_nullish {clause : PredicateClause}
    (hscalar : ∀ v ∈ literalsOf clause, typeOf v ≠ .object) {actual : Property}
    (h : actual = .undefined ∨ actual = .value .null) : matchesClause clause actual = .ok false := by
  have hne : ∀ v, typeOf v ≠ .object → actual ≠ .value v := by
    rintro v hv rfl
    rcases h with h | h
    · cases h
    · cases h
      exact hv rfl
  unfold literalsOf at hscalar
  unfold matchesClause
  cases hop : clause.op with
  | eq =>
    rw [if_neg (by rw [hop]; simp)] at hscalar
    have hvalue := hscalar _ (List.mem_singleton.mpr rfl)
    dsimp only
    rw [matchesEq_scalar hvalue, decide_eq_false (hne _ hvalue)]
  | «in» =>
    rw [if_pos hop] at hscalar
    dsimp only
    rw [matchesIn_leaves hscalar, Except.ok.injEq, List.any_eq_false]
    exact fun v hv => by simpa using hne v (hscalar v hv)
  | _ => rcases h with h | h <;> rw [h] <;> cases clause.value <;> rfl

theorem not_misreadLiteral_null {K : Conversions} {op : PredicateOp} {v : Doc} :
    ¬ MisreadLiteral N K op .null v := by
  intro h
  cases h with
  | numeral hy => rcases hy with h | h <;> cases h
  | word hy => rcases hy with h | h <;> cases h
  | bits hkinds => rcases hkinds with ⟨h, -⟩ | ⟨h, -⟩ <;> cases h

theorem not_misreadValue_null {K : Conversions} {clause : PredicateClause} :
    ¬ MisreadValue N K clause .null := by
  unfold MisreadValue
  split
  next =>
    rintro (⟨-, m, -, h⟩ | ⟨-, h, -⟩)
    · exact not_misreadLiteral_null h
    · exact not_misreadLiteral_null h
  next => exact not_misreadLiteral_null

/-- **When a set is misread**: by its members. -/
theorem misreadSet_iff {K : Conversions} {affinity : Affinity} {y : Doc}
    (hstores : Stores affinity y) (hy : y ≠ .null) {ms : List Doc}
    (hms : ∀ m ∈ ms, typeOf m ≠ .object) :
    ((y ∉ ms ∧ ∃ m ∈ ms, MisreadLiteral N K .eq y m) ∨
      (y ∈ ms ∧ MisreadLiteral N K .eq y y ∧ ∀ m ∈ ms, m ≠ y → ¬ MisreadLiteral N K .eq y m)) ↔
    (ms.any fun m => holds .eq (cellOf (some y)) (coerce (sqlite N K) affinity (literalCell N m)))
      ≠ ms.any fun m => Property.value y = .value m := by
  have hone : ∀ m ∈ ms, (MisreadLiteral N K .eq y m ↔
      holds .eq (cellOf (some y)) (coerce (sqlite N K) affinity (literalCell N m)) ≠
        decide (y = m)) :=
    fun m hm => misreadLiteral_iff (by simp) hstores hy (hms m hm) fun h => absurd rfl h
  by_cases hmem : y ∈ ms
  · have hwire : (ms.any fun m => Property.value y = .value m) = true :=
      List.any_eq_true.mpr ⟨y, hmem, by simp⟩
    rw [hwire, ne_eq, Bool.not_eq_true, List.any_eq_false]
    constructor
    · rintro (⟨hno, -⟩ | ⟨-, hself, hothers⟩) m hm
      · exact absurd hmem hno
      · by_cases heq : m = y
        · have h := (hone m hm).mp (heq ▸ hself)
          rw [decide_eq_true heq.symm] at h
          exact h
        · have h := not_not.mp (mt (hone m hm).mpr (hothers m hm heq))
          rw [h, decide_eq_false fun h => heq h.symm]
          exact Bool.false_ne_true
    · intro hall
      refine Or.inr ⟨hmem, (hone y hmem).mpr ?_, fun m hm hne h => (hone m hm).mp h ?_⟩
      · rw [decide_eq_true rfl]
        exact hall y hmem
      · rw [decide_eq_false fun h => hne h.symm]
        exact Bool.eq_false_iff.mpr (hall m hm)
  · have hwire : (ms.any fun m => Property.value y = .value m) = false := by
      rw [List.any_eq_false]
      intro m hm h
      rw [decide_eq_true_eq, Property.value.injEq] at h
      exact hmem (h ▸ hm)
    have hne : ∀ m ∈ ms, y ≠ m := fun m hm heq => hmem (heq ▸ hm)
    rw [hwire, Bool.ne_false_iff, List.any_eq_true]
    constructor
    · rintro (⟨-, m, hm, h⟩ | ⟨hyes, -⟩)
      · have h := (hone m hm).mp h
        rw [decide_eq_false (hne m hm), Bool.ne_false_iff] at h
        exact ⟨m, hm, h⟩
      · exact absurd hyes hmem
    · rintro ⟨m, hm, h⟩
      refine Or.inl ⟨hmem, m, hm, (hone m hm).mpr ?_⟩
      rw [h, decide_eq_false (hne m hm)]
      exact Bool.false_ne_true.symm

/-- **When a clause is misread on a written row.** -/
theorem misread_iff {K : Conversions} {clause : PredicateClause} {i : Nat}
    (hvalid : validateClause clause i = .ok ())
    (hscalar : ∀ v ∈ literalsOf clause, typeOf v ≠ .object) (hfield : FlatField rows clause.field)
    (hvalues : columnValues rows clause.field ≠ []) {row : JsString × ExportRow}
    (hreached : Reached rows row) :
    Misread N K row clause ↔ ¬ (SqlHolds N K rows row clause ↔ WireHolds row clause) := by
  unfold Misread SqlHolds WireHolds
  cases hget : row.2.get clause.field with
  | none =>
    rw [hreached.reads_undefined (validateClause_field hvalid).2 hvalues hfield.flat hget,
      matchesClause_nullish hscalar (Or.inl rfl), sqlClause_null rfl]
    simp
  | some y =>
    have hread : readProperty row.2 clause.field = .value y := readMember_own hget
    simp only [hread, Option.some.injEq, exists_eq_left']
    by_cases hy : y = .null
    · rw [hy, matchesClause_nullish hscalar (Or.inr rfl), sqlClause_null rfl]
      exact iff_of_false not_misreadValue_null (by simp)
    have hstores := hfield.stores (mem_columnValues.mpr ⟨row, hreached.mem, hget⟩)
    unfold MisreadValue
    unfold literalsOf at hscalar
    by_cases hin : clause.op = .in
    · rw [if_pos hin] at hscalar
      rw [sqlClause, matchesClause, hin]
      dsimp only
      rw [matchesIn_leaves hscalar, misreadSet_iff hstores hy hscalar, Except.ok.injEq, ne_eq,
        Bool.eq_iff_iff]
    · rw [if_neg hin] at hscalar
      have hvalue := hscalar _ (List.mem_singleton.mpr rfl)
      rw [sqlClause_single hin, matchesClause_single hin hvalue]
      split
      next hop => exact absurd hop hin
      next =>
        rw [misreadLiteral_iff hin hstores hy hvalue fun heq => validateClause_range hvalid heq hin,
          Except.ok.injEq, ne_eq, Bool.eq_iff_iff]

/-- Evaluating the fragment on a row. -/
theorem PlanOf.selected_eq (hplan : PlanOf rows .sqlite table plan idIdentifier fieldColumns)
    (hsign : SignBeforeDigit N) (hexact : ReadsIntegers N) (K : Conversions) {wire : PredicateWire}
    {dynamicHint : Option String} {result : WhereTranslation}
    (hflat : ∀ c ∈ wire.clauses, FlatField rows c.field)
    (h : translatePredicateWireToSql N E wire plan dynamicHint = .ok result)
    (hhints : result.hints = []) {row : JsString × ExportRow} (hreached : Reached rows row)
    {tokens : List Token} (htokens : List.Forall₂ (TokenOf N plan.target row) plan.columns tokens) :
    ∃ b, selected (sqlite N K) plan.columns tokens result.sql = some b ∧
      (b = true ↔ ∀ c ∈ wire.clauses, SqlHolds N K rows row c) := by
  obtain ⟨hvalid, sqls, hsql, hclauses⟩ := translate_ok h hhints
  have hparse := hplan.parse_fragment hsign K hflat hvalid hclauses
  have htranslated := hplan.translated hsign hflat hvalid hclauses
  have heval : List.Forall₂ (fun condition b =>
      eval (sqlite N K) (tableRow (sqlite N K) plan.columns tokens) condition = some b)
      (wire.clauses.map (conditionOf N)) (wire.clauses.map fun c =>
        sqlClause N K (affinityFor rows c.field) c (row.2.get c.field)) := by
    rw [List.forall₂_map_left_iff, List.forall₂_map_right_iff, List.forall₂_same]
    intro c hc
    obtain ⟨⟨i, hcheck⟩, -, hobserved⟩ := htranslated c hc
    obtain ⟨col, hcol, hsource⟩ := List.mem_map.mp
      ((hplan.mem_iff c.field).mpr ⟨(validateClause_field hcheck).2, hobserved⟩)
    refine eval_conditionOf ?_
    rw [← hsource]
    exact hplan.cell hexact K hreached htokens hcol (hsource ▸ hflat c hc)
  refine ⟨(wire.clauses.map fun c =>
    sqlClause N K (affinityFor rows c.field) c (row.2.get c.field)).all id, ?_, ?_⟩
  · rw [selected, hsql, hparse]
    exact evalAll_eq heval
  · simp [SqlHolds]

/-- Two conjunctions agree unless a part that they read differently decides: all parts are read
    alike, or a part read alike fails, or parts read differently go both ways. -/
theorem conjunctions_agree_iff {α : Type} {S W M : α → Prop} {cs : List α}
    (hmis : ∀ c ∈ cs, M c ↔ ¬ (S c ↔ W c)) :
    ((∀ c ∈ cs, S c) ↔ ∀ c ∈ cs, W c) ↔
      (∀ c ∈ cs, ¬ M c) ∨ (∃ c ∈ cs, ¬ M c ∧ ¬ W c) ∨
        (∃ c ∈ cs, M c ∧ W c) ∧ ∃ c ∈ cs, M c ∧ ¬ W c := by
  have halike : ∀ c ∈ cs, ¬ M c → (S c ↔ W c) := fun c hc hno => not_not.mp (mt (hmis c hc).mpr hno)
  constructor
  · intro hiff
    by_cases hclean : ∀ c ∈ cs, ¬ M c
    · exact Or.inl hclean
    by_cases hfails : ∃ c ∈ cs, ¬ M c ∧ ¬ W c
    · exact Or.inr (Or.inl hfails)
    refine Or.inr (Or.inr ?_)
    push Not at hclean hfails
    obtain ⟨d, hd, hMd⟩ := hclean
    constructor
    · -- else every part holds in the first reading
      by_contra hno
      push Not at hno
      have hS : ∀ c ∈ cs, S c := fun c hc => by
        by_cases hM : M c
        · exact by_contra fun hS => (hmis c hc).mp hM (iff_of_false hS (hno c hc hM))
        · exact (halike c hc hM).mpr (hfails c hc hM)
      exact hno d hd hMd (hiff.mp hS d hd)
    · -- else every part holds in the second
      by_contra hno
      push Not at hno
      have hW : ∀ c ∈ cs, W c := fun c hc => by
        by_cases hM : M c
        · exact hno c hc hM
        · exact hfails c hc hM
      exact (hmis d hd).mp hMd (iff_of_true (hiff.mpr hW d hd) (hW d hd))
  · rintro (hclean | ⟨c, hc, hM, hW⟩ | ⟨⟨c, hc, hM, hW⟩, d, hd, -, hWd⟩)
    · exact forall₂_congr fun c hc => halike c hc (hclean c hc)
    · exact iff_of_false (fun h => hW ((halike c hc hM).mp (h c hc))) fun h => hW (h c hc)
    · exact iff_of_false (fun h => (hmis c hc).mp hM (iff_of_true (h c hc) hW)) fun h => hWd (h d hd)

/-- Value and literal are of one kind; two strings compare as UTF-8 as they do as UTF-16, and the
    digits of a number are its value. -/
def Alike (N : NumberText) : Doc → Doc → Prop
  | .str s, .str t => (Utf8.encode s = Utf8.encode t ↔ s = t) ∧
      (Utf8.encode s < Utf8.encode t ↔ s < t) ∧ (Utf8.encode t < Utf8.encode s ↔ t < s)
  | .num _, .num n => printed N n = toRat n
  | .bool _, .bool _ => True
  | _, _ => False

theorem not_misreadLiteral_of_alike {K : Conversions} {op : PredicateOp} {y v : Doc}
    (h : Alike N y v) : ¬ MisreadLiteral N K op y v := by
  intro hmis
  cases hmis with
  | digits => exact h
  | flag => exact h
  | numeral hy => cases y <;> first | exact h | (rcases hy with h | h <;> cases h)
  | word hy => cases y <;> first | exact h | (rcases hy with h | h <;> cases h)
  | bits hkinds =>
    rcases hkinds with ⟨hy, hv⟩ | ⟨hy, hv⟩
    · cases y <;> cases v <;> first | exact h | simp [typeOf] at hy hv
    · cases y <;> cases v <;> first | exact h | simp [typeOf] at hy hv
  | units hne =>
    obtain ⟨heq, hlt, hgt⟩ := h
    refine hne ?_
    cases op <;> simp [holds, comparatorOf, before, heq, hlt, hgt]
  | rounding hne => exact hne (by rw [show printed N _ = _ from h])

/-- A number whose digits are another integer is not found by them. -/
theorem misreadLiteral_digits {K : Conversions} {n : JsNumber} (h : printed N n ≠ toRat n) :
    MisreadLiteral N K .eq (.num n) (.num n) := by
  refine .rounding ?_
  have hne : toRat n ≠ printed N n := fun heq => h heq.symm
  simp [holds, comparatorOf, hne]

/-- **A clause is not misread where its literals are alike to the value.** -/
theorem not_misread_of_alike (K : Conversions) {clause : PredicateClause}
    {row : JsString × ExportRow}
    (halike : ∀ y, row.2.get clause.field = some y → y ≠ .null →
      ∀ v ∈ literalsOf clause, Alike N y v) : ¬ Misread N K row clause := by
  rintro ⟨y, hy, hmis⟩
  by_cases hnull : y = .null
  · rw [hnull] at hmis
    exact not_misreadValue_null hmis
  have hlike := halike y hy hnull
  unfold literalsOf at hlike
  unfold MisreadValue at hmis
  split at hmis
  next hop =>
    rw [if_pos hop] at hlike
    rcases hmis with ⟨-, m, hm, h⟩ | ⟨hmem, h, -⟩
    · exact not_misreadLiteral_of_alike (hlike m hm) h
    · exact not_misreadLiteral_of_alike (hlike y hmem) h
  next hop =>
    rw [if_neg hop] at hlike
    exact not_misreadLiteral_of_alike (hlike _ (List.mem_singleton.mpr rfl)) hmis

/-! ## Two collections -/

theorem toRat_ofNat {k : Nat} (hk : k ≤ maxSafeInteger) : toRat (JsNumber.ofNat k) = k := by
  have hbits : float64Bits (JsNumber.ofNat k) = safeBits k := by
    have hord : (JsNumber.ofNat k).ord = (safeBits (min k maxSafeInteger) : Int) := rfl
    rw [float64Bits, hord, if_pos (Int.natCast_nonneg _), Nat.min_eq_left hk, Int.toNat_natCast]
  by_cases hzero : k = 0
  · rw [toRat, hbits, hzero]
    simp [safeBits, Float64.value, Float64.units, Float64.exponent, Float64.fraction]
  obtain ⟨hlog, hlow, hhigh⟩ := significand_range hzero (lt_of_safe hk)
  have hsafe : safeBits k = (k.log2 + 1022) * 2 ^ 52 + k * 2 ^ (52 - k.log2) := if_neg hzero
  have hexponent : Float64.exponent (safeBits k) = k.log2 + 1023 := by
    unfold Float64.exponent
    omega
  have hfraction : 2 ^ 52 + Float64.fraction (safeBits k) = k * 2 ^ (52 - k.log2) := by
    unfold Float64.fraction
    omega
  have hunits : Float64.units (safeBits k) = k * 2 ^ 1074 := by
    have hscale : 52 - k.log2 + (k.log2 + 1023 - 1) = 1074 := by omega
    have hne : ¬ k.log2 + 1023 = 0 := by omega
    rw [Float64.units, hexponent, if_neg hne, hfraction, Nat.mul_assoc, ← Nat.pow_add]
    exact congrArg (fun e => k * 2 ^ e) hscale
  rw [toRat, hbits, Float64.value, if_pos (by omega), hunits]
  rw [Nat.cast_mul, Nat.cast_pow, Nat.cast_ofNat, mul_div_assoc, div_self (by positivity), mul_one]

/-- Number texts that are read back only as they are printed. -/
def checkedText : NumberText where
  text := integerNumberText
  value s := (integerNumberValue s).filter fun n => integerNumberText n = s
  value_text n := by rw [integerNumberValue_text]; simp [Option.filter]
  units := integerNumberText_units
  starts := integerNumberText_starts

theorem checkedText_sign : SignBeforeDigit checkedText := by
  intro n us h
  have htext : integerNumberText n = 45 :: us := h
  unfold integerNumberText at htext
  cases hsafe : n.safeNat? with
  | some k =>
    rw [hsafe] at htext
    have hmem : (45 : Fin 65536) ∈ decimal k := by
      rw [show decimal k = 45 :: us from htext]
      exact List.mem_cons_self
    exact absurd (isDigit_of_mem_decimal hmem) (by decide)
  | none =>
    rw [hsafe] at htext
    dsimp only at htext
    split at htext
    next =>
      refine ⟨48, 46 :: decimal n.ord.natAbs, ?_, rfl⟩
      have hfront : js "-0." = [45, 48, 46] := by decide
      rw [hfront] at htext
      exact (List.cons.inj htext).2.symm
    next =>
      have hfront : js "0." = [48, 46] := by decide
      rw [hfront] at htext
      exact absurd (List.cons.inj htext).1 (by decide)

theorem integerLiteral_decimal {k : Nat} (hk : k ≤ maxSafeInteger) :
    integerLiteral (decimal k) = some (k : ℤ) := by
  obtain ⟨u, us, hdecimal⟩ := decimal_cons k
  have hdigit : isDigit u = true := isDigit_of_mem_decimal (hdecimal ▸ List.mem_cons_self)
  have hsign : ¬ (decimal k).head? = some 45 := by
    rw [hdecimal, List.head?_cons, Option.some.injEq]
    rintro rfl
    exact absurd hdigit (by decide)
  have hlt : k < 2 ^ 63 := lt_of_le_of_lt hk (by decide)
  unfold integerLiteral
  simp only [hsign, if_false, isDigit_decimal, ofDigits_decimal]
  rw [if_pos ⟨by rw [hdecimal]; exact List.cons_ne_nil u us, trivial, hlt⟩]

theorem integerLiteral_point {front : JsString} (hfront : front = js "-0." ∨ front = js "0.")
    (k : Nat) : integerLiteral (front ++ decimal k) = none := by
  have hpoint : ∀ us : JsString, 46 ∈ us → us.all isDigit = false := fun us hmem =>
    List.all_eq_false.mpr ⟨46, hmem, by decide⟩
  unfold integerLiteral
  dsimp only
  rw [if_neg]
  rintro ⟨-, hdigits, -⟩
  rcases hfront with rfl | rfl
  · have htail : (js "-0." ++ decimal k).tail = 48 :: 46 :: decimal k := rfl
    rw [if_pos (by rfl), htail, hpoint _ (by simp)] at hdigits
    cases hdigits
  · have htext : js "0." ++ decimal k = 48 :: 46 :: decimal k := rfl
    rw [if_neg (by show ¬ some (48 : Fin 65536) = some 45; decide), htext, hpoint _ (by simp)]
      at hdigits
    cases hdigits

theorem checkedText_exact : ReadsIntegers checkedText := by
  intro text k n hk hvalue _
  obtain ⟨-, htext⟩ := Option.filter_eq_some_iff.mp hvalue
  rw [decide_eq_true_eq] at htext
  subst htext
  unfold integerNumberText at hk
  cases hsafe : n.safeNat? with
  | some j =>
    obtain ⟨rfl, hj⟩ := JsNumber.safeNat?_iff.mp hsafe
    rw [hsafe] at hk
    dsimp only at hk
    rw [integerLiteral_decimal hj] at hk
    cases hk
    rw [toRat_ofNat hj, Int.cast_natCast]
  | none =>
    rw [hsafe] at hk
    dsimp only at hk
    have hfront : (if n.ord < 0 then js "-0." else js "0.") = js "-0." ∨
        (if n.ord < 0 then js "-0." else js "0.") = js "0." := by
      split
      · exact Or.inl rfl
      · exact Or.inr rfl
    rw [integerLiteral_point hfront] at hk
    cases hk

/-- Numbers as the host prints them; no text is read as a number. -/
def plainConversions : Conversions := ⟨fun q => Utf8.encode (decimal q.num.natAbs), fun _ => none⟩

theorem noteRows_flat {field : JsString} (hdot : field.contains 46 = false) :
    FlatField noteRows field := by
  refine ⟨hdot, ?_, ?_⟩
  · rintro ⟨row, hrow, v, hget, hnested⟩
    rcases noteRows_get hrow hget with ⟨-, rfl | rfl⟩ | ⟨-, b, rfl⟩ <;> cases hnested
  · intro u hu v hv hune hvne
    obtain ⟨ra, hra, hga⟩ := mem_columnValues.mp hu
    obtain ⟨rb, hrb, hgb⟩ := mem_columnValues.mp hv
    rcases noteRows_get hra hga with ⟨hname, rfl | rfl⟩ | ⟨hname, b, rfl⟩
    · rcases noteRows_get hrb hgb with ⟨-, rfl | rfl⟩ | ⟨hname', -⟩
      · rfl
      · exact absurd rfl hvne
      · exact absurd (hname.symm.trans hname') (by decide)
    · exact absurd rfl hune
    · rcases noteRows_get hrb hgb with ⟨hname', -⟩ | ⟨-, b', rfl⟩
      · exact absurd (hname.symm.trans hname') (by decide)
      · rfl

/-- `{ title: { gte: "it" }, done: true }`. -/
def titleWire : PredicateWire :=
  ⟨[⟨.gte, js "title", .str (js "it"), rfl⟩, ⟨.eq, js "done", .bool true, rfl⟩]⟩

theorem oneRow_flat {field : JsString} {v : Doc} (hdot : field.contains 46 = false)
    (hv : isNested v = false) : FlatField (oneRow field v) field := by
  refine ⟨hdot, ?_, ?_⟩
  · rintro ⟨row, hrow, u, hget, hnested⟩
    rw [oneRow_get _ _ hrow, if_pos rfl] at hget
    cases hget
    rw [hv] at hnested
    cases hnested
  · intro a ha b hb _ _
    obtain ⟨ra, hra, hga⟩ := mem_columnValues.mp ha
    obtain ⟨rb, hrb, hgb⟩ := mem_columnValues.mp hb
    rw [oneRow_get _ _ hra, if_pos rfl] at hga
    rw [oneRow_get _ _ hrb, if_pos rfl] at hgb
    cases hga
    cases hgb
    rfl

/-- `{ flag: 1 }`. -/
def flagWire : PredicateWire := ⟨[⟨.eq, js "flag", .num (JsNumber.ofNat 1), rfl⟩]⟩

end Baerly.Export
