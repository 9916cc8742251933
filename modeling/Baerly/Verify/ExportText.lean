import Baerly.Lib.SqlText
import Baerly.Verify.ExportTable

/-
  What a SQL lexer reads in an exported `INSERT`.

  SPEC (`literalsDecode_iff`): every emitted statement is its skeleton with one value token per
  column, and the token says what the row holds there: for every column iff no row that is written
  lacks a `__proto__` that is nested in another row.

  CRUX: every literal is the text of one token (`literalFor_token`), and a token before a comma or a
  bracket reads back whatever characters stand in its quotes (`SqlText.Lexes.token`).  What goes
  wrong is not the quoting: the row writer reads `body["__proto__"]`, which an object without such a
  member inherits.
-/

namespace Baerly.Export

open SqlText

variable {N : NumberText} {rows : ExportRows} {target : SqlTarget} {table : JsString}
  {plan : ExportPlan} {idIdentifier : JsString} {fieldColumns : List ColumnPlan}

/-! ## Tokens -/

theorem double_eq (q : Fin 65536) (s : JsString) : double q s = doubled q s := by
  induction s with
  | nil => rfl
  | cons u s ih => rw [double, doubled_cons, ih]

/-- A quoted text is the text of a string token. -/
theorem quotedText_eq (s : JsString) : quotedText s = (Token.str s).text := by
  rw [quotedText, double_eq]
  rfl

/-- An identifier is that of an identifier token. -/
theorem identifierOf_eq (name : JsString) : identifierOf name = (Token.ident name).text := by
  rw [identifierOf, double_eq]
  rfl

/-- The host prints a negative number as `-` and a number that starts with a digit. -/
def SignBeforeDigit (N : NumberText) : Prop :=
  ∀ n us, N.text n = 45 :: us → ∃ u vs, us = u :: vs ∧ isDigit u = true

/-- A number's text is a number to the lexer. -/
theorem text_numberText (hsign : SignBeforeDigit N) (n : JsNumber) :
    numberText (N.text n) = true := by
  obtain ⟨u, us, htext, hu⟩ := N.starts n
  have hunits : ∀ v ∈ u :: us, numberUnit v = true := fun v hv => N.units n v (htext ▸ hv)
  rw [htext]
  by_cases hminus : u = 45
  · subst hminus
    obtain ⟨v, vs, rfl, hv⟩ := hsign n us htext
    have hvs : vs.all numberUnit = true := List.all_eq_true.mpr fun w hw =>
      hunits w (List.mem_cons_of_mem _ (List.mem_cons_of_mem _ hw))
    show (digit v && vs.all numberUnit) = true
    rw [hvs, Bool.and_true]
    exact hv
  · have hdigit : digit u = true := hu.resolve_left hminus
    cases us with
    | nil => exact hdigit
    | cons v vs =>
      have hvs : (v :: vs).all numberUnit = true := List.all_eq_true.mpr fun w hw =>
        hunits w (List.mem_cons_of_mem _ hw)
      rw [numberText, if_neg hminus, hdigit, hvs]
      rfl

/-- `NULL`. -/
def nullToken : Token := .word (js "NULL")

/-- A boolean of the target. -/
def boolToken (target : SqlTarget) (b : Bool) : Token :=
  if target = .postgres then .word (if b then js "true" else js "false")
  else .num (if b then js "1" else js "0")

/-- A value that is no object and no array, as a token. -/
def flatToken (N : NumberText) (target : SqlTarget) : Doc → Token
  | .str s => .str s
  | .num n => .num (N.text n)
  | .bool b => boolToken target b
  | _ => nullToken

/-- So is a boolean's, as a word or a bit. -/
theorem boolToken_wf (target : SqlTarget) (b : Bool) : (boolToken target b).Wf := by
  cases target <;> cases b <;> exact (rfl : _ = true)

/-- **Every flat value is written as one token.** -/
theorem flatToken_wf (hsign : SignBeforeDigit N) (target : SqlTarget) (v : Doc) :
    (flatToken N target v).Wf := by
  cases v with
  | str s => exact trivial
  | num n => exact text_numberText hsign n
  | bool b => exact boolToken_wf target b
  | null => exact (rfl : _ = true)
  | arr xs => exact (rfl : _ = true)
  | obj ms => exact (rfl : _ = true)

/-- Quoting writes that token. -/
theorem quoteValue_token {v : Doc} (h : isNested v = false) :
    quoteValue N target v = .ok (flatToken N target v).text := by
  cases v with
  | null => rfl
  | str s => rw [quoteValue_str, quotedText_eq, flatToken]
  | num n => rfl
  | bool b =>
    rw [quoteValue_bool]
    cases target <;> rfl
  | arr xs => cases h
  | obj ms => cases h

/-! ## What a token says -/

/-- The token of a column says what the row holds there: its key under `_id`; elsewhere `NULL` for
    no value, JSON text of the value in a column of JSON text, and else the value itself. -/
inductive Decodes (N : NumberText) (target : SqlTarget) (row : JsString × ExportRow)
    (c : ColumnPlan) : Token → Prop
  | id (hid : c.source = idField) : Decodes N target row c (.str row.1)
  | absent (hne : c.source ≠ idField) (hget : row.2.get c.source = none) :
    Decodes N target row c nullToken
  | json {v : Doc} {t : JsString} (hne : c.source ≠ idField) (hjson : c.jsonEncoded = true)
    (hget : row.2.get c.source = some v) (hparse : JSON.parseTree N t = some v) :
    Decodes N target row c (.str t)
  | null (hne : c.source ≠ idField) (hflat : c.jsonEncoded = false)
    (hget : row.2.get c.source = some .null) : Decodes N target row c nullToken
  | str {s : JsString} (hne : c.source ≠ idField) (hflat : c.jsonEncoded = false)
    (hget : row.2.get c.source = some (.str s)) : Decodes N target row c (.str s)
  | num {n : JsNumber} {t : JsString} (hne : c.source ≠ idField) (hflat : c.jsonEncoded = false)
    (hget : row.2.get c.source = some (.num n)) (hvalue : N.value t = some n) :
    Decodes N target row c (.num t)
  | bool {b : Bool} (hne : c.source ≠ idField) (hflat : c.jsonEncoded = false)
    (hget : row.2.get c.source = some (.bool b)) : Decodes N target row c (boolToken target b)

/-- No value, or `null` where the column is no JSON text. -/
def HoldsNull (row : JsString × ExportRow) (c : ColumnPlan) : Prop :=
  c.source ≠ idField ∧ (row.2.get c.source = none ∨
    (row.2.get c.source = some .null ∧ c.jsonEncoded = false))

/-- The row writer reads `Object.prototype` for the column. -/
def ReadsProto (row : JsString × ExportRow) (c : ColumnPlan) : Prop :=
  c.source = protoName ∧ row.2.get c.source = none

/-- Which decodes to the value. -/
theorem flatToken_decodes {row : JsString × ExportRow} {c : ColumnPlan} (hne : c.source ≠ idField)
    (hflat : c.jsonEncoded = false) {v : Doc} (hget : row.2.get c.source = some v)
    (hnested : isNested v = false) : Decodes N target row c (flatToken N target v) := by
  cases v with
  | null => exact .null hne hflat hget
  | str s => exact .str hne hflat hget
  | num n => exact .num hne hflat hget (N.value_text n)
  | bool b => exact .bool hne hflat hget
  | arr xs => cases hnested
  | obj ms => cases hnested

/-- It is `NULL` for `null` only. -/
theorem flatToken_null_iff {v : Doc} (hnested : isNested v = false) :
    flatToken N target v = nullToken ↔ v = .null := by
  cases v with
  | null => simp [flatToken]
  | str s => simp [flatToken, nullToken]
  | num n => simp [flatToken, nullToken]
  | bool b =>
    have hne : boolToken target b ≠ nullToken := by cases target <;> cases b <;> decide
    simp [flatToken, hne]
  | arr xs => cases hnested
  | obj ms => cases hnested

/-- **A literal is the text of one token, which says what the row holds** unless the row writer read
    `Object.prototype`. -/
theorem literalFor_token (hsign : SignBeforeDigit N) {c : ColumnPlan} (hc : ColumnOf rows target c)
    {row : JsString × ExportRow} (hrow : row ∈ rows) {literal : JsString}
    (h : literalFor N target row.1 row.2 c = .ok literal) :
    ∃ token : Token, token.Wf ∧ literal = token.text ∧
      (ReadsProto row c → token = .str (js "\x7b\x7d")) ∧
      (¬ ReadsProto row c → Decodes N target row c token ∧ (token = nullToken ↔ HoldsNull row c)) := by
  -- what the row lacks may still be read: `__proto__`, an inherited function, or nothing
  cases hget : row.2.get c.source with
  | none =>
    have hholds : HoldsNull row c := ⟨hc.ne_id, Or.inl hget⟩
    by_cases hproto : c.source = protoName
    · rw [literalFor_proto hproto row.1 hget] at h
      cases hjson : c.jsonEncoded with
      | false =>
        rw [hjson] at h
        cases h
      | true =>
        rw [hjson] at h
        cases h
        exact ⟨.str (js "\x7b\x7d"), trivial, quotedText_eq _, fun _ => rfl,
          fun hno => absurd ⟨hproto, hget⟩ hno⟩
    · by_cases hmethod : c.source ∈ inheritedMethods
      · rw [literalFor_method hmethod row.1 hget] at h
        cases h
      · rw [literalFor_undefined hc.ne_id hproto hmethod row.1 hget] at h
        cases h
        exact ⟨nullToken, (rfl : _ = true), rfl, fun hreads => absurd hreads.1 hproto,
          fun _ => ⟨.absent hc.ne_id hget, fun _ => hholds, fun _ => rfl⟩⟩
  | some v =>
    have hown : ¬ ReadsProto row c := fun hreads => by
      have hnone := hreads.2
      rw [hget] at hnone
      cases hnone
    rw [literalFor_value hc.ne_id row.1 hget] at h
    cases hjson : c.jsonEncoded with
    -- a JSON column: the text parses back, and is never `NULL`
    | true =>
      rw [hjson, if_pos rfl] at h
      cases h
      refine ⟨.str (JSON.stringify N v), trivial, quotedText_eq _, fun hreads => absurd hreads hown,
        fun _ => ⟨.json hc.ne_id hjson hget (JSON.parseTree_stringify v), ?_, ?_⟩⟩
      · intro heq
        cases heq
      · rintro ⟨-, hnone | ⟨-, hflat⟩⟩
        · rw [hget] at hnone
          cases hnone
        · rw [hjson] at hflat
          cases hflat
    | false =>
      have hnested := hc.flat hjson hrow hget
      rw [hjson, if_neg (by decide), quoteValue_token hnested] at h
      cases h
      refine ⟨flatToken N target v, flatToken_wf hsign target v, rfl,
        fun hreads => absurd hreads hown, fun _ => ⟨flatToken_decodes hc.ne_id hjson hget hnested, ?_⟩⟩
      rw [flatToken_null_iff hnested]
      constructor
      · rintro rfl
        exact ⟨hc.ne_id, Or.inr ⟨hget, hjson⟩⟩
      · rintro ⟨-, hnone | ⟨hnull, -⟩⟩
        · rw [hget] at hnone
          cases hnone
        · rw [hget] at hnull
          exact Option.some.inj hnull

/-! ## Statements -/

/-- The tokens of an `INSERT`. -/
def skeleton (table : JsString) (names : List JsString) (values : List Token) : List Token :=
  [.word (js "INSERT"), .word (js "INTO"), .ident table, .sym (js "(")] ++
    (commaSeparated (names.map Token.ident) ++
      ([.sym (js ")"), .word (js "VALUES"), .sym (js "(")] ++
        (commaSeparated values ++ [.sym (js ")"), .sym (js ";")])))

theorem commaSeparated_cons_cons (a b : Token) (list : List Token) :
    commaSeparated (a :: b :: list) = a :: .sym [44] :: commaSeparated (b :: list) := rfl

/-- A list of tokens is told by its text. -/
theorem commaSeparated_injective : Function.Injective commaSeparated := by
  intro as bs h
  induction as generalizing bs with
  | nil =>
    rcases bs with _ | ⟨b, _ | ⟨b', bs⟩⟩
    · rfl
    · cases h
    · cases h
  | cons a as ih =>
    rcases as with _ | ⟨a', as⟩
    · rcases bs with _ | ⟨b, _ | ⟨b', bs⟩⟩
      · cases h
      · exact h
      · cases h
    · rcases bs with _ | ⟨b, _ | ⟨b', bs⟩⟩
      · cases h
      · cases h
      · rw [commaSeparated_cons_cons, commaSeparated_cons_cons] at h
        obtain ⟨rfl, htail⟩ := List.cons.inj h
        rw [ih (List.cons.inj htail).2]

/-- A statement has one list of values. -/
theorem skeleton_injective (table : JsString) (names : List JsString) :
    Function.Injective (skeleton table names) := by
  intro values values' h
  have hlists := List.append_cancel_left (List.append_cancel_left (List.append_cancel_left h))
  exact commaSeparated_injective (List.append_cancel_right hlists)

/-- **The text of a statement reads back as its tokens.** -/
theorem insertStatement_lexes (hplan : PlanOf rows target table plan idIdentifier fieldColumns)
    {tokens : List Token} (hwf : ∀ token ∈ tokens, token.Wf) :
    Lexes (insertStatement plan (tokens.map Token.text))
      (skeleton table (plan.columns.map ColumnPlan.source) tokens) := by
  have hnames : plan.columns.map ColumnPlan.identifier =
      ((plan.columns.map ColumnPlan.source).map Token.ident).map Token.text := by
    rw [List.map_map, List.map_map]
    refine List.map_congr_left fun c hc => ?_
    rw [hplan.identifiers c hc, identifierOf_eq]
    rfl
  have htext : insertStatement plan (tokens.map Token.text) =
      (Token.word (js "INSERT")).text ++ 32 :: ((Token.word (js "INTO")).text ++ 32 ::
        ((Token.ident table).text ++ 32 :: 40 ::
          (List.intercalate [44, 32]
            (((plan.columns.map ColumnPlan.source).map Token.ident).map Token.text) ++ 41 :: 32 ::
            ((Token.word (js "VALUES")).text ++ 32 :: 40 ::
              (List.intercalate [44, 32] (tokens.map Token.text) ++ 41 :: 59 :: [10]))))) := by
    have hinto : js "INSERT INTO " =
        (Token.word (js "INSERT")).text ++ 32 :: ((Token.word (js "INTO")).text ++ [32]) := by decide
    have hopen : js " (" = [32, 40] := by decide
    have hvalues : js ") VALUES (" = 41 :: 32 :: ((Token.word (js "VALUES")).text ++ [32, 40]) := by
      decide
    have hsep : js ", " = [44, 32] := by decide
    have hend : js ");\n" = [41, 59, 10] := by decide
    rw [insertStatement, hnames, quoteIdentifier_eq hplan.tableIdentifier, identifierOf_eq, hinto,
      hopen, hvalues, hsep, hend]
    simp only [List.append_assoc, List.cons_append, List.nil_append]
  rw [htext]
  have hident : ∀ token ∈ (plan.columns.map ColumnPlan.source).map Token.ident, token.Wf := by
    intro token hmem
    obtain ⟨name, -, rfl⟩ := List.mem_map.mp hmem
    exact trivial
  have hfinal : Lexes (41 :: 59 :: [10]) [.sym (js ")"), .sym (js ";")] :=
    .mark rfl (by decide) (.mark rfl (by decide) (.newline .nil))
  have hvalues := Lexes.list hwf (bounded_cons (by decide) _) hfinal
  have hword : (Token.word (js "VALUES")).Wf := rfl
  have hnamed := Lexes.list hident (bounded_cons (by decide) _)
    (.mark (u := 41) rfl (by decide) (.blank (.token hword (bounded_cons (by decide) _)
      (.blank (.mark (u := 40) rfl (by decide) hvalues)))))
  have hinsert : (Token.word (js "INSERT")).Wf := rfl
  have hinto : (Token.word (js "INTO")).Wf := rfl
  have htable : (Token.ident table).Wf := trivial
  exact .token hinsert (bounded_cons (by decide) _) (.blank
    (.token hinto (bounded_cons (by decide) _) (.blank
      (.token htable (bounded_cons (by decide) _) (.blank
        (.mark (u := 40) rfl (by decide) hnamed))))))

/-- Every statement that is emitted is its skeleton with one value token per column, and each token
    says what the row holds at that column. -/
def LiteralsDecode (N : NumberText) (plan : ExportPlan) (rows : ExportRows) : Prop :=
  ∀ row values, (row, values) ∈ writtenRows N plan rows →
    ∃ tokens, Lexes (insertStatement plan values)
        (skeleton plan.table (plan.columns.map ColumnPlan.source) tokens) ∧
      List.Forall₂ (fun c token => Decodes N plan.target row c token ∧
        (token = nullToken ↔ HoldsNull row c)) plan.columns tokens

/-- One token for each literal. -/
theorem exists_tokens {α : Type} {r : α → JsString → Prop} {s : α → Token → Prop} {as : List α}
    {literals : List JsString} (h : List.Forall₂ r as literals)
    (hone : ∀ a ∈ as, ∀ literal, r a literal →
      ∃ token : Token, token.Wf ∧ literal = token.text ∧ s a token) :
    ∃ tokens : List Token, literals = tokens.map Token.text ∧ (∀ token ∈ tokens, token.Wf) ∧
      List.Forall₂ s as tokens := by
  induction h with
  | nil => exact ⟨[], rfl, fun token hmem => absurd hmem List.not_mem_nil, .nil⟩
  | cons hab _ ih =>
    obtain ⟨token, hwf, rfl, hs⟩ := hone _ List.mem_cons_self _ hab
    obtain ⟨tokens, rfl, hwfs, hall⟩ := ih fun a ha => hone a (List.mem_cons_of_mem _ ha)
    refine ⟨token :: tokens, rfl, ?_, .cons hs hall⟩
    intro t ht
    rcases List.mem_cons.mp ht with rfl | ht
    · exact hwf
    · exact hwfs t ht

/-- What the token of a column is. -/
def TokenOf (N : NumberText) (target : SqlTarget) (row : JsString × ExportRow) (c : ColumnPlan)
    (token : Token) : Prop :=
  (ReadsProto row c → token = .str (js "\x7b\x7d")) ∧
    (¬ ReadsProto row c → Decodes N target row c token ∧ (token = nullToken ↔ HoldsNull row c))

theorem idField_ne_proto : idField ≠ protoName := by decide

/-- The `_id` column has the row's key as a string. -/
theorem idColumn_tokenOf (row : JsString × ExportRow) (idIdentifier : JsString) :
    TokenOf N target row (idColumn target idIdentifier) (.str row.1) := by
  refine ⟨fun hreads => absurd hreads.1 idField_ne_proto, fun _ => ⟨.id rfl, ?_⟩⟩
  constructor
  · intro heq
    cases heq
  · intro hholds
    exact absurd rfl hholds.1

/-- The tokens of a written row. -/
theorem PlanOf.tokens (hplan : PlanOf rows target table plan idIdentifier fieldColumns)
    (hsign : SignBeforeDigit N) {row : JsString × ExportRow} (hrow : row ∈ rows)
    {values : List JsString} (h : rowValues N plan.target row plan.columns = .ok values) :
    ∃ tokens, Lexes (insertStatement plan values)
        (skeleton plan.table (plan.columns.map ColumnPlan.source) tokens) ∧
      List.Forall₂ (TokenOf N plan.target row) plan.columns tokens := by
  obtain ⟨tokens, rfl, hwf, hall⟩ := exists_tokens (rowValues_ok_iff.mp h)
    (s := TokenOf N plan.target row) fun c hc literal hliteral => by
      rw [hplan.columns] at hc
      rw [hplan.target_eq] at hliteral ⊢
      rcases List.mem_cons.mp hc with rfl | hc
      · rw [literalFor_id rfl rfl] at hliteral
        cases hliteral
        exact ⟨.str row.1, trivial, quotedText_eq row.1, idColumn_tokenOf row idIdentifier⟩
      · exact literalFor_token hsign (hplan.column c hc) hrow hliteral
  rw [hplan.table_eq]
  exact ⟨tokens, insertStatement_lexes hplan hwf, hall⟩

/-- **When the literals of a script decode to its rows.** -/
theorem literalsDecode_iff (N : NumberText) (hsign : SignBeforeDigit N) (rows : ExportRows)
    (target : SqlTarget) (table : JsString) (plan : ExportPlan)
    (h : inferPlanForCollection rows target table = .ok plan) :
    LiteralsDecode N plan rows ↔
      (Nested rows protoName → ∀ row, Reached rows row → row.2.get protoName ≠ none) := by
  obtain ⟨idIdentifier, fieldColumns, hplan⟩ := inferPlan_planOf h
  constructor
  · intro hdecode hnested row hreached hnone
    -- the row is written, with `{}` under the column of `__proto__`
    obtain ⟨-, -, -, -, hfree⟩ := id hreached
    obtain ⟨values, hok⟩ := (hplan.ok_iff (N := N) hreached.mem).mpr hfree
    obtain ⟨tokens, hlexes, htokens⟩ := hplan.tokens hsign hreached.mem hok
    obtain ⟨tokens', hlexes', hall⟩ := hdecode row values (hplan.written_iff.mpr ⟨hreached, hok⟩)
    have heq : tokens' = tokens :=
      skeleton_injective _ _ (Option.some.inj (hlexes'.symm.trans hlexes))
    subst heq
    obtain ⟨r, hr, v, hget, -⟩ := hnested
    have hvalues : columnValues rows protoName ≠ [] :=
      List.ne_nil_of_mem (mem_columnValues.mpr ⟨r, hr, hget⟩)
    obtain ⟨c, hc, hsource⟩ := List.mem_map.mp
      ((hplan.mem_iff protoName).mpr ⟨by decide, hvalues⟩)
    have hreads : ReadsProto row c := ⟨hsource, by rw [hsource]; exact hnone⟩
    have hmem : c ∈ plan.columns := by
      rw [hplan.columns]
      exact List.mem_cons_of_mem _ hc
    obtain ⟨i, hi, hci⟩ := List.getElem_of_mem hmem
    have hlen : i < tokens'.length := hall.length_eq ▸ hi
    have hdecodes := hall.get hi hlen
    have htoken := htokens.get hi hlen
    simp only [List.get_eq_getElem, hci] at hdecodes htoken
    have hnull := hdecodes.2.mpr ⟨(hplan.column c hc).ne_id, Or.inl hreads.2⟩
    rw [htoken.1 hreads] at hnull
    cases hnull
  · intro hproto row values hwritten
    obtain ⟨hreached, hok⟩ := hplan.written_iff.mp hwritten
    obtain ⟨tokens, hlexes, htokens⟩ := hplan.tokens hsign hreached.mem hok
    refine ⟨tokens, hlexes, forall₂_of_mem htokens fun c hc token htoken => htoken.2 ?_⟩
    -- a written row that inherits its `__proto__` has it nested in another row
    rintro ⟨hsource, hnone⟩
    rw [hplan.columns] at hc
    rcases List.mem_cons.mp hc with rfl | hc
    · exact absurd hsource idField_ne_proto
    · have hcolumn := hplan.column c hc
      have hvalues := (hplan.mem_iff c.source).mp (List.mem_map_of_mem hc)
      rw [hsource] at hnone hvalues
      by_cases hnested : Nested rows protoName
      · exact hproto hnested row hreached hnone
      · obtain ⟨-, -, -, -, hfree⟩ := hreached
        exact hfree ⟨protoName, hvalues.1, hvalues.2, hnone, Or.inr ⟨rfl, hnested⟩⟩

/-- The number texts of the examples put a sign before a digit. -/
theorem ordinalText_sign : SignBeforeDigit ordinalText := by
  intro n us h
  obtain ⟨u, vs, hdecimal⟩ := decimal_cons n.ord.natAbs
  have hdigit : isDigit u = true := isDigit_of_mem_decimal (hdecimal ▸ List.mem_cons_self)
  have htext : (if n.ord < 0 then [45] else []) ++ decimal n.ord.natAbs = 45 :: us := h
  rw [hdecimal] at htext
  split at htext
  · exact ⟨u, vs, (List.cons.inj htext).2.symm, hdigit⟩
  · have hu : u = 45 := (List.cons.inj htext).1
    rw [hu] at hdigit
    exact absurd hdigit (by decide)

/-- The literals of three rows with a missing field and a `null` decode to them. -/
theorem literalsDecode_title : ∃ plan,
    inferPlanForCollection noteRows .sqlite (js "notes") = .ok plan ∧
    LiteralsDecode ordinalText plan noteRows := by
  refine ⟨_, rfl, ?_⟩
  refine (literalsDecode_iff ordinalText ordinalText_sign noteRows .sqlite (js "notes") _ rfl).mpr ?_
  rintro ⟨row, hrow, v, hget, hnested⟩
  rcases noteRows_get hrow hget with ⟨-, rfl | rfl⟩ | ⟨-, b, rfl⟩
  · cases hnested
  · cases hnested
  · cases hnested

/-- The rows `{ "__proto__": {} }` and `{}`. -/
def protoRows : ExportRows :=
  [(js "a", ⟨[(protoName, .obj [])], List.nodup_singleton protoName⟩), (js "b", ⟨[], List.nodup_nil⟩)]

/-- The second row has no `__proto__`, and its statement has the text of an object there. -/
theorem literalsDecode_proto : ¬ ∀ (N : NumberText) (_ : SignBeforeDigit N) (rows : ExportRows)
    (target : SqlTarget) (table : JsString) (plan : ExportPlan),
    inferPlanForCollection rows target table = .ok plan → LiteralsDecode N plan rows := by
  intro h
  have hdecode := h ordinalText ordinalText_sign protoRows .postgres (js "notes") _ rfl
  obtain ⟨tokens, hlexes, hall⟩ := hdecode (js "b", ⟨[], List.nodup_nil⟩)
    [js "'b'", js "'\x7b\x7d'"] (List.mem_cons_of_mem _ (List.mem_singleton.mpr rfl))
  have htokens : tokens = [.str (js "b"), .str (js "\x7b\x7d")] := by
    refine skeleton_injective _ _ (Option.some.inj (hlexes.symm.trans ?_))
    decide +kernel
  rw [htokens] at hall
  obtain ⟨-, hrest⟩ := List.forall₂_cons.mp hall
  obtain ⟨⟨-, hnull⟩, -⟩ := List.forall₂_cons.mp hrest
  exact absurd (hnull.mpr ⟨by decide, Or.inl rfl⟩) (by decide)

end Baerly.Export
