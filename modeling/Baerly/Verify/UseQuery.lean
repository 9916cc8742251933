import Baerly.Lib.Path
import Baerly.UseQuery

/-
  When the cache key of `useQuery` is sound.

  SPEC (`signature_sound_iff`): two chains with one signature send one request iff, where the
  recorder cannot tell them apart, their arguments come to the same: the id of `get`, and for a query
  the clauses, the order and the limit as far as the terminal sends them.

  CRUX: the signature determines the recorded names and nothing else (`signature_eq_iff`), and the
  request determines the arguments (`listParams_inj`, `getRequest_eq_iff`), since the separators of a
  URL are in no encoded text and text determines a JSON value.
-/

namespace Baerly.UseQuery

/-! ## The signature -/

/-- A quoted string tells which string it is. -/
theorem quote_injective (N : NumberText) : Function.Injective JSON.quote := by
  intro s t h
  have hdoc : JSON.stringify N (.str s) = JSON.stringify N (.str t) := h
  exact Json.str.inj (JSON.stringify_injective hdoc)

/-- For strings the stable printer prints what `JSON.stringify` does. -/
theorem stableItems_strings (N : NumberText) (names : List JsString) :
    stableItems N (names.map Json.str) = JSON.stringifyItems N (names.map Json.str) := by
  induction names with
  | nil => rfl
  | cons name names ih =>
    show JSON.quote name :: stableItems N (names.map Json.str) = _
    rw [ih]
    rfl

/-- On a list of strings `stableKey` is `JSON.stringify`. -/
theorem chainShape_eq (N : NumberText) (c : Chain) :
    chainShape N c = JSON.stringify N (.arr ((recorded c).map Json.str)) := by
  rw [chainShape, stableKey, JSON.stringify, stableItems_strings]

/-- **The signature is the recorded names**, next to the deps and the live flag. -/
theorem signature_eq_iff (N : NumberText) (deps : List (Option Doc)) (live : Bool) (c d : Chain) :
    signature N deps live c = signature N deps live d ↔ recorded c = recorded d := by
  constructor
  · intro h
    have hjoin := List.append_cancel_right (List.cons.inj h).2
    have hshape : stableKey N (.str (chainShape N c)) = stableKey N (.str (chainShape N d)) :=
      List.append_cancel_right hjoin
    have htext := quote_injective N hshape
    rw [chainShape_eq, chainShape_eq] at htext
    have hitems := Json.arr.inj (JSON.stringify_injective htext)
    exact List.map_injective_iff.mpr (fun a b hab => Json.str.inj hab) hitems
  · intro h
    rw [signature, signature, chainShape_eq, chainShape_eq, h]

/-! ## What the arguments of a query come to -/

/-- The clauses of the `where` calls, in order, or the error of the first that throws. -/
def clausesOf : List Modifier → Except Err (List PredicateClause)
  | [] => .ok []
  | .predicate arg :: ms => do
    let incoming ← normalizePredicateArg arg
    let rest ← clausesOf ms
    .ok (incoming ++ rest)
  | .order _ :: ms => clausesOf ms
  | .limit _ :: ms => clausesOf ms

/-- The argument of the last `order` call. -/
def lastOrder : List Modifier → Option (List (JsString × Doc))
  | [] => none
  | .order spec :: ms => (lastOrder ms).or (some spec)
  | .predicate _ :: ms => lastOrder ms
  | .limit _ :: ms => lastOrder ms

/-- The argument of the last `limit` call. -/
def lastLimit : List Modifier → Option Amount
  | [] => none
  | .limit n :: ms => (lastLimit ms).or (some n)
  | .predicate _ :: ms => lastLimit ms
  | .order _ :: ms => lastLimit ms

/-- The modifiers leave the clauses one after the other, and the last order and limit. -/
theorem applyAll_eq (state : QueryState) (ms : List Modifier) :
    state.applyAll ms = (clausesOf ms).map fun clauses =>
      ⟨state.wire ++ clauses, (lastOrder ms).or state.order, (lastLimit ms).or state.limit⟩ := by
  induction ms generalizing state with
  | nil => simp [QueryState.applyAll, clausesOf, lastOrder, lastLimit, Except.map]
  | cons m ms ih =>
    cases m with
    | predicate arg =>
      have hmerge : ∀ incoming, (if state.wire = [] then incoming else state.wire ++ incoming) =
          state.wire ++ incoming := by
        intro incoming
        split
        next hnil => rw [hnil, List.nil_append]
        next => rfl
      rw [QueryState.applyAll, QueryState.apply, clausesOf, lastOrder, lastLimit]
      cases normalizePredicateArg arg with
      | error e => rfl
      | ok incoming =>
        show QueryState.applyAll { state with wire := _ } ms = _
        rw [ih, hmerge]
        cases clausesOf ms with
        | error e => rfl
        | ok rest =>
          show Except.ok (QueryState.mk (state.wire ++ incoming ++ rest) _ _) = _
          rw [List.append_assoc]
          rfl
    | order spec =>
      rw [clausesOf, lastOrder, lastLimit, Option.or_assoc]
      exact ih _
    | limit n =>
      rw [clausesOf, lastOrder, lastLimit, Option.or_assoc]
      exact ih _

/-! ## JSON texts -/

/-- Operators differ in their names. -/
theorem name_injective : ∀ a b : PredicateOp, js a.name = js b.name → a = b := by
  intro a b
  cases a <;> cases b <;> decide

/-- Clauses differ in their JSON. -/
theorem clauseJson_injective : Function.Injective clauseJson := by
  rintro ⟨op, field, value, wf⟩ ⟨op', field', value', wf'⟩ h
  simp only [clauseJson, Json.obj.injEq, List.cons.injEq, Prod.mk.injEq, Json.str.injEq, true_and,
    and_true] at h
  obtain ⟨hop, rfl, rfl⟩ := h
  obtain rfl := name_injective op op' hop
  rfl

variable {N : NumberText}

/-- **The `where` parameter tells the clauses.** -/
theorem wireText_injective : Function.Injective (wireText N) := by
  intro w w' h
  have hobj := Json.obj.inj (JSON.stringify_injective h)
  simp only [List.cons.injEq, Prod.mk.injEq, Json.arr.injEq, true_and, and_true] at hobj
  exact List.map_injective_iff.mpr clauseJson_injective hobj

/-- A number's text is no text with a character numbers do not use. -/
theorem text_ne {n : JsNumber} {s : JsString} {u : Fin 65536} (hu : u ∈ s)
    (hno : isNumberUnit u = false) : N.text n ≠ s := by
  intro h
  rw [← h] at hu
  rw [N.units n u hu] at hno
  cases hno

/-- The reader of `String(n)`. -/
def amountOf (N : NumberText) (s : JsString) : Option Amount :=
  if s = js "NaN" then some .nan
  else if s = js "Infinity" then some (.infinity false)
  else if s = js "-Infinity" then some (.infinity true)
  else (N.value s).map .finite

/-- `NaN` and the infinities have a letter that is in no number. -/
theorem amountOf_text (a : Amount) : amountOf N (a.text N) = some a := by
  cases a with
  | finite n =>
    have hnan : N.text n ≠ js "NaN" := text_ne (u := 78) (by decide) (by decide)
    have hpos : N.text n ≠ js "Infinity" := text_ne (u := 73) (by decide) (by decide)
    have hneg : N.text n ≠ js "-Infinity" := text_ne (u := 73) (by decide) (by decide)
    rw [Amount.text, amountOf, if_neg hnan, if_neg hpos, if_neg hneg, N.value_text]
    rfl
  | nan => exact if_pos rfl
  | infinity negative =>
    have hpos : js "Infinity" ≠ js "NaN" := by decide
    have hneg : js "-Infinity" ≠ js "NaN" ∧ js "-Infinity" ≠ js "Infinity" := by decide
    cases negative with
    | false => rw [Amount.text, amountOf, if_neg hpos, if_pos rfl]
    | true => rw [Amount.text, amountOf, if_neg hneg.1, if_neg hneg.2, if_pos rfl]

/-- Amounts differ in their texts. -/
theorem amountText_injective : Function.Injective (Amount.text N) := by
  intro a b h
  have hread := amountOf_text (N := N) a
  rw [h, amountOf_text] at hread
  exact (Option.some.inj hread).symm

/-! ## Encoded texts -/

/-- What stands for itself in a path component is never the percent sign. -/
theorem spellComponent_some {b : Fin 256} {u : Fin 65536} (h : spellComponent b = some u) :
    u.val = b.val ∧ b.val ≠ 37 := by
  unfold spellComponent at h
  split at h
  next hkept =>
    obtain rfl := Option.some.inj h
    refine ⟨Nat.mod_eq_of_lt (by omega), ?_⟩
    intro hval
    rw [hval] at hkept
    exact absurd hkept (by decide)
  next => cases h

/-- What stands for itself in a form is never one of its separators; a blank is a plus. -/
theorem spellForm_some {b : Fin 256} {u : Fin 65536} (h : spellForm b = some u) :
    (b.val = 32 ∧ u = 43) ∨
      (u.val = b.val ∧ b.val ≠ 32 ∧ b.val ≠ 37 ∧ b.val ≠ 38 ∧ b.val ≠ 43 ∧ b.val ≠ 61) := by
  unfold spellForm at h
  split at h
  next hspace => exact Or.inl ⟨hspace, (Option.some.inj h).symm⟩
  next hspace =>
    split at h
    next hkept =>
      obtain rfl := Option.some.inj h
      have hno : ∀ n ∈ [37, 38, 43, 61],
          ¬ (isAlphanumeric n = true ∨ n ∈ [0x2a, 0x2d, 0x2e, 0x5f]) := by
        decide
      have hne : ∀ n ∈ [37, 38, 43, 61], b.val ≠ n := fun n hn hval => hno n hn (hval ▸ hkept)
      refine Or.inr ⟨Nat.mod_eq_of_lt (by omega), hspace, hne 37 ?_, hne 38 ?_, hne 43 ?_, hne 61 ?_⟩
      all_goals decide
    next => cases h

/-- So the spelling of components can be read back. -/
theorem readable_component : Percent.Readable spellComponent where
  inj := by
    intro b c u hb hc
    exact Fin.ext ((spellComponent_some hb).1.symm.trans (spellComponent_some hc).1)
  mark := by
    intro b hb
    obtain ⟨hval, hne⟩ := spellComponent_some hb
    exact hne hval.symm

/-- And that of forms. -/
theorem readable_form : Percent.Readable spellForm where
  inj := by
    intro b c u hb hc
    apply Fin.ext
    rcases spellForm_some hb with ⟨hb, rfl⟩ | hb
    · rcases spellForm_some hc with hc | hc
      · omega
      · have hplus : (43 : Fin 65536).val = 43 := rfl
        omega
    · rcases spellForm_some hc with ⟨hc, rfl⟩ | hc
      · have hplus : (43 : Fin 65536).val = 43 := rfl
        omega
      · omega
  mark := by
    intro b hb
    have hmark : (37 : Fin 65536).val = 37 := rfl
    rcases spellForm_some hb with ⟨-, h⟩ | h
    · exact absurd h (by decide)
    · omega

/-- Neither `&` nor `=` is in a form text. -/
theorem separator_not_mem {u : Fin 65536} (h : u = 38 ∨ u = 61) (s : JsString) : u ∉ formText s := by
  apply Percent.not_mem_encode
  · intro b hb
    rcases h with rfl | rfl
    · rcases spellForm_some hb with ⟨-, h⟩ | h
      · exact absurd h (by decide)
      · exact h.2.2.2.1 h.1.symm
    · rcases spellForm_some hb with ⟨-, h⟩ | h
      · exact absurd h (by decide)
      · exact h.2.2.2.2.2 h.1.symm
  · rcases h with rfl | rfl <;> decide
  · rcases h with rfl | rfl <;> decide

/-- Form texts of well-formed strings differ where the strings do. -/
theorem formText_inj {s t : JsString} (hs : Utf8.wellFormed s = true) (ht : Utf8.wellFormed t = true)
    (h : formText s = formText t) : s = t :=
  Utf8.encode_injective hs ht (Percent.encode_injective readable_form h)

/-- A parameter as it stands in a query string. -/
def paramText (p : JsString × JsString) : JsString := formText p.1 ++ 61 :: formText p.2

/-- No parameter contains an ampersand. -/
theorem paramText_ampersand (p : JsString × JsString) : (38 : Fin 65536) ∉ paramText p := by
  intro h
  rcases List.mem_append.mp h with h | h
  · exact separator_not_mem (Or.inl rfl) p.1 h
  · rcases List.mem_cons.mp h with h | h
    · exact absurd h (by decide)
    · exact separator_not_mem (Or.inl rfl) p.2 h

/-- A parameter in a query string is its two texts. -/
theorem paramText_inj {p q : JsString × JsString} (h : paramText p = paramText q) :
    formText p.1 = formText q.1 ∧ formText p.2 = formText q.2 :=
  Path.cut_inj (separator_not_mem (Or.inr rfl) p.1) (separator_not_mem (Or.inr rfl) q.1) h

/-- No search text is no parameters. -/
theorem searchText_eq_nil {params : List (JsString × JsString)} (h : searchText params = []) :
    params = [] := by
  cases params with
  | nil => rfl
  | cons p ps =>
    cases ps with
    | nil => simp [searchText, List.intercalate] at h
    | cons q qs => simp [searchText, List.intercalate_cons_cons] at h

/-- A query string is its parameters. -/
theorem searchText_inj {ps qs : List (JsString × JsString)} (h : searchText ps = searchText qs) :
    ps.map paramText = qs.map paramText := by
  by_cases hps : ps = []
  · subst hps
    rw [searchText_eq_nil h.symm]
  · have hqs : qs ≠ [] := by
      rintro rfl
      exact hps (searchText_eq_nil h)
    have hpath : ∀ {l : List (JsString × JsString)}, l ≠ [] →
        searchText l ++ [38] = Path.path 38 (l.map paramText) := fun hl =>
      Path.intercalate_eq_path (by simpa using hl)
    have hfree : ∀ l : List (JsString × JsString), ∀ w ∈ l.map paramText, (38 : Fin 65536) ∉ w := by
      intro l w hw
      obtain ⟨p, -, rfl⟩ := List.mem_map.mp hw
      exact paramText_ampersand p
    have heq : Path.path 38 (ps.map paramText) ++ [] = Path.path 38 (qs.map paramText) ++ [] := by
      rw [← hpath hps, ← hpath hqs, h]
    exact (Path.path_inj (hfree ps) (hfree qs) List.not_mem_nil List.not_mem_nil heq).1

/-! ## The parameters of a request -/

/-- A parameter whose texts have no unpaired surrogate. -/
def Plain (p : JsString × JsString) : Prop :=
  Utf8.wellFormed p.1 = true ∧ Utf8.wellFormed p.2 = true

/-- **A search text tells its parameters**, names and values. -/
theorem params_inj {ps qs : List (JsString × JsString)} (hps : ∀ p ∈ ps, Plain p)
    (hqs : ∀ q ∈ qs, Plain q) (h : ps.map paramText = qs.map paramText) : ps = qs := by
  induction ps generalizing qs with
  | nil =>
    rw [List.map_nil] at h
    exact (List.map_eq_nil_iff.mp h.symm).symm
  | cons p ps ih =>
    cases qs with
    | nil => cases h
    | cons q qs =>
      obtain ⟨hhead, htail⟩ := List.cons.inj h
      obtain ⟨hkey, hvalue⟩ := paramText_inj hhead
      have hp := hps p List.mem_cons_self
      have hq := hqs q List.mem_cons_self
      rw [Prod.ext (formText_inj hp.1 hq.1 hkey) (formText_inj hp.2 hq.2 hvalue),
        ih (fun p h => hps p (List.mem_cons_of_mem _ h)) (fun q h => hqs q (List.mem_cons_of_mem _ h))
          htail]

/-- Entries of one key, followed by entries of other keys. -/
theorem append_key_inj {k : JsString} {a a' b b' : List (JsString × JsString)}
    (ha : ∀ p ∈ a, p.1 = k) (ha' : ∀ p ∈ a', p.1 = k) (hb : ∀ p ∈ b, p.1 ≠ k)
    (hb' : ∀ p ∈ b', p.1 ≠ k) (h : a ++ b = a' ++ b') : a = a' ∧ b = b' := by
  have hfilter : ∀ {x y : List (JsString × JsString)}, (∀ p ∈ x, p.1 = k) → (∀ p ∈ y, p.1 ≠ k) →
      (x ++ y).filter (fun p => decide (p.1 = k)) = x := by
    intro x y hx hy
    rw [List.filter_append, List.filter_eq_self.mpr (by simpa using hx),
      List.filter_eq_nil_iff.mpr (by simpa using hy), List.append_nil]
  have hfront : a = a' := by rw [← hfilter ha hb, h, hfilter ha' hb']
  subst hfront
  exact ⟨rfl, List.append_cancel_left h⟩

variable {st st' : QueryState}

theorem wellFormed_keys : Utf8.wellFormed (js "where") = true ∧ Utf8.wellFormed (js "order") = true ∧
    Utf8.wellFormed (js "limit") = true := by decide

/-- The `where` parameter is the text of the clauses. -/
theorem mem_whereParams {p : JsString × JsString} (h : p ∈ whereParams N st) :
    p = (js "where", wireText N st.wire) ∧ Plain p := by
  unfold whereParams at h
  split at h
  next => cases h
  next =>
    obtain rfl := List.mem_singleton.mp h
    exact ⟨rfl, wellFormed_keys.1, JSON.wellFormed_stringify _⟩

/-- An `order` parameter is plain. -/
theorem mem_orderParams {p : JsString × JsString} (h : p ∈ orderParams N st) :
    p.1 = js "order" ∧ Plain p := by
  unfold orderParams at h
  split at h
  next =>
    obtain rfl := List.mem_singleton.mp h
    exact ⟨rfl, wellFormed_keys.2.1, JSON.wellFormed_stringify _⟩
  next => cases h

/-- The text of an amount is plain. -/
theorem wellFormed_amount (n : Amount) : Utf8.wellFormed (n.text N) = true := by
  cases n with
  | finite n => exact JSON.wellFormed_stringify (.num n)
  | nan => exact (by decide : Utf8.wellFormed (js "NaN") = true)
  | infinity negative =>
    cases negative with
    | false => exact (by decide : Utf8.wellFormed (js "Infinity") = true)
    | true => exact (by decide : Utf8.wellFormed (js "-Infinity") = true)

/-- So is a `limit` parameter. -/
theorem mem_limitParams {p : JsString × JsString} (h : p ∈ limitParams N st) :
    p.1 = js "limit" ∧ Plain p := by
  unfold limitParams at h
  split at h
  next n _ =>
    obtain rfl := List.mem_singleton.mp h
    exact ⟨rfl, wellFormed_keys.2.2, wellFormed_amount n⟩
  next => cases h

/-- One `where` parameter for one list of clauses. -/
theorem whereParams_eq_iff : whereParams N st = whereParams N st' ↔ st.wire = st'.wire := by
  constructor
  · intro h
    unfold whereParams at h
    split at h
    next hnil =>
      split at h
      next hnil' => rw [hnil, hnil']
      next => cases h
    next =>
      split at h
      next => cases h
      next =>
        simp only [List.cons.injEq, Prod.mk.injEq, true_and, and_true] at h
        exact wireText_injective h
  · intro h
    rw [whereParams, whereParams, h]

/-- The order that is sent: an empty specification is not. -/
def nonempty (order : Option (List (JsString × Doc))) : Option (List (JsString × Doc)) :=
  order.filter fun spec => !spec.isEmpty

/-- There is an `order` parameter exactly for an order that is not empty. -/
theorem orderParams_eq (st : QueryState) : orderParams N st =
    ((nonempty st.order).map fun spec => (js "order", JSON.stringify N (.obj spec))).toList := by
  unfold orderParams
  split
  next m ms h =>
    rw [h]
    rfl
  next h =>
    cases hord : st.order with
    | none => rfl
    | some spec =>
      cases spec with
      | nil => rfl
      | cons m ms => exact absurd hord (h m ms)

/-- One for one such order. -/
theorem orderParams_eq_iff :
    orderParams N st = orderParams N st' ↔ nonempty st.order = nonempty st'.order := by
  have hinj : Function.Injective fun spec : List (JsString × Doc) =>
      (js "order", JSON.stringify N (.obj spec)) := by
    intro spec spec' h
    exact Json.obj.inj (JSON.stringify_injective (Prod.mk.inj h).2)
  rw [orderParams_eq, orderParams_eq]
  constructor
  · intro h
    have hhead := congrArg List.head? h
    rw [Option.head?_toList, Option.head?_toList] at hhead
    exact Option.map_injective hinj hhead
  · intro h
    rw [h]

/-- One `limit` parameter for one limit. -/
theorem limitParams_eq_iff : limitParams N st = limitParams N st' ↔ st.limit = st'.limit := by
  unfold limitParams
  cases st.limit with
  | none =>
    cases st'.limit with
    | none => exact iff_of_true rfl rfl
    | some m => exact iff_of_false (by simp) (by simp)
  | some n =>
    cases st'.limit with
    | none => exact iff_of_false (by simp) (by simp)
    | some m =>
      constructor
      · intro h
        simp only [List.cons.injEq, Prod.mk.injEq, true_and, and_true] at h
        rw [amountText_injective h]
      · intro h
        rw [Option.some.inj h]

/-- The limit a terminal sends is plain. -/
theorem mem_listLimit {t : Terminal} {p : JsString × JsString} (h : p ∈ listLimit N st t) :
    p.1 = js "limit" ∧ Plain p := by
  cases t with
  | first =>
    obtain rfl := List.mem_singleton.mp h
    exact ⟨rfl, wellFormed_keys.2.2, rfl⟩
  | all => exact mem_limitParams h
  | count => exact mem_limitParams h

/-- `first` sends its own limit, every other terminal the one of the query. -/
theorem listLimit_eq_iff (t : Terminal) :
    listLimit N st t = listLimit N st' t ↔ (t ≠ .first → st.limit = st'.limit) := by
  cases t with
  | first => exact iff_of_true rfl fun h => absurd rfl h
  | all => exact limitParams_eq_iff.trans ⟨fun h _ => h, fun h => h (by decide)⟩
  | count => exact limitParams_eq_iff.trans ⟨fun h _ => h, fun h => h (by decide)⟩

/-- All parameters of a list are plain. -/
theorem plain_listParams {t : Terminal} {p : JsString × JsString} (h : p ∈ listParams N st t) :
    Plain p := by
  rcases List.mem_append.mp h with h | h
  · rcases List.mem_append.mp h with h | h
    · exact (mem_whereParams h).2
    · exact (mem_orderParams h).2
  · exact (mem_listLimit h).2

/-- The three keys are three. -/
theorem keys_ne : js "order" ≠ js "where" ∧ js "limit" ≠ js "where" ∧ js "limit" ≠ js "order" := by
  decide

/-- **The query string of a list is its clauses, its order and, unless `first` replaces it, its
    limit.** -/
theorem listSearch_eq_iff (t : Terminal) :
    searchText (listParams N st t) = searchText (listParams N st' t) ↔
      st.wire = st'.wire ∧ nonempty st.order = nonempty st'.order ∧
        (t ≠ .first → st.limit = st'.limit) := by
  constructor
  · intro h
    have hparams := params_inj (fun p => plain_listParams) (fun p => plain_listParams)
      (searchText_inj h)
    rw [listParams, listParams, List.append_assoc, List.append_assoc] at hparams
    have hwhere : ∀ {s : QueryState}, ∀ p ∈ whereParams N s, p.1 = js "where" := by
      intro s p hp
      rw [(mem_whereParams hp).1]
    have hrest : ∀ {s : QueryState}, ∀ p ∈ orderParams N s ++ listLimit N s t, p.1 ≠ js "where" := by
      intro s p hp
      rcases List.mem_append.mp hp with hp | hp
      · rw [(mem_orderParams hp).1]
        exact keys_ne.1
      · rw [(mem_listLimit hp).1]
        exact keys_ne.2.1
    have hlimit : ∀ {s : QueryState}, ∀ p ∈ listLimit N s t, p.1 ≠ js "order" := by
      intro s p hp
      rw [(mem_listLimit hp).1]
      exact keys_ne.2.2
    obtain ⟨hw, hparams⟩ := append_key_inj hwhere hwhere hrest hrest hparams
    obtain ⟨ho, hl⟩ := append_key_inj (fun p hp => (mem_orderParams hp).1)
      (fun p hp => (mem_orderParams hp).1) hlimit hlimit hparams
    exact ⟨whereParams_eq_iff.mp hw, orderParams_eq_iff.mp ho, (listLimit_eq_iff t).mp hl⟩
  · rintro ⟨hwire, horder, hlimit⟩
    rw [listParams, listParams, whereParams_eq_iff.mpr hwire, orderParams_eq_iff.mpr horder,
      (listLimit_eq_iff t).mpr hlimit]

/-- The request of a count is its collection and its clauses. -/
theorem countRequest_eq_iff (collection : JsString) :
    countRequest N collection st = countRequest N collection st' ↔ st.wire = st'.wire := by
  constructor
  · intro h
    have hwords := searchText_inj (congrArg Request.query h)
    have hparams := params_inj (fun p hp => (mem_whereParams hp).2)
      (fun p hp => (mem_whereParams hp).2) (List.cons.inj hwords).2
    exact whereParams_eq_iff.mp hparams
  · intro h
    rw [countRequest, countRequest, whereParams_eq_iff.mpr h]

/-! ## The path of a row -/

/-- The segment an id ends a path with: the URL parser reads `.` as the empty segment. -/
def rowId (id : JsString) : JsString := if id = js "." then [] else id

/-- The last segment of a path: two dots leave an empty segment behind. -/
theorem parsePath_single (done : List JsString) (seg : JsString) :
    parsePath done [seg] = if seg = js ".." then done.dropLast ++ [[]] else done ++ [rowId seg] := by
  rw [parsePath, rowId]
  split
  next => rfl
  next =>
    split
    next => rfl
    next => rfl

/-- An id never becomes two dots. -/
theorem rowId_eq_dots {seg : JsString} (h : rowId seg = js "..") : seg = js ".." := by
  unfold rowId at h
  split at h
  next => cases h
  next => exact h

/-- The last segment of a path can be read back, up to `.`. -/
theorem parsePath_single_inj {done : List JsString} (hdone : done ≠ []) {seg seg' : JsString} :
    parsePath done [seg] = parsePath done [seg'] ↔ rowId seg = rowId seg' := by
  have hlen : ∀ x, done.dropLast ++ [[]] ≠ done ++ [x] := by
    intro x h
    have hpos := List.length_pos_iff.mpr hdone
    have hlen := congrArg List.length h
    rw [List.length_append, List.length_append, List.length_dropLast, List.length_singleton,
      List.length_singleton] at hlen
    omega
  rw [parsePath_single, parsePath_single]
  split
  next hdots =>
    split
    next hdots' => exact iff_of_true rfl (by rw [hdots, hdots'])
    next hdots' =>
      refine iff_of_false (hlen _) ?_
      intro h
      rw [hdots] at h
      exact hdots' (rowId_eq_dots h.symm)
  next hdots =>
    split
    next hdots' =>
      refine iff_of_false (fun h => hlen _ h.symm) ?_
      intro h
      rw [hdots'] at h
      exact hdots (rowId_eq_dots h)
    next =>
      constructor
      · intro h
        exact List.singleton_injective (List.append_cancel_left h)
      · intro h
        rw [h]

/-- What precedes the id in the path of a row. -/
def rowPath (name : JsString) : List JsString :=
  if name = js ".." then [js "v1"] else if name = js "." then [js "v1", js "c"]
  else [js "v1", js "c", name]

/-- There is always a path before the id. -/
theorem rowPath_ne_nil (name : JsString) : rowPath name ≠ [] := by
  unfold rowPath
  split
  · exact List.cons_ne_nil _ _
  · split
    · exact List.cons_ne_nil _ _
    · exact List.cons_ne_nil _ _

/-- A segment before the last: two dots take one back, one dot is dropped. -/
theorem parsePath_cons_cons (done : List JsString) (seg next : JsString) (segs : List JsString) :
    parsePath done (seg :: next :: segs) =
      if seg = js ".." then parsePath done.dropLast (next :: segs)
      else if seg = js "." then parsePath done (next :: segs)
      else parsePath (done ++ [seg]) (next :: segs) := by
  rw [parsePath]

/-- The path of a row, up to its id. -/
theorem parsePath_row (name id : JsString) :
    parsePath [] [js "v1", js "c", name, id] = parsePath (rowPath name) [id] := by
  have hv1 : js "v1" ≠ js ".." ∧ js "v1" ≠ js "." := by decide
  have hc : js "c" ≠ js ".." ∧ js "c" ≠ js "." := by decide
  rw [parsePath_cons_cons, if_neg hv1.1, if_neg hv1.2, parsePath_cons_cons, if_neg hc.1, if_neg hc.2,
    parsePath_cons_cons, rowPath]
  split
  next => rfl
  next =>
    split
    next => rfl
    next => rfl

/-- The text of `encodeURIComponent`. -/
def componentText (s : JsString) : JsString := Percent.encode spellComponent (Utf8.encode s)

/-- Component texts of well-formed strings differ where the strings do. -/
theorem componentText_inj {s t : JsString} (hs : Utf8.wellFormed s = true)
    (ht : Utf8.wellFormed t = true) (h : componentText s = componentText t) : s = t :=
  Utf8.encode_injective hs ht (Percent.encode_injective readable_component h)

/-- Escaping keeps the two ids that end a path alike. -/
theorem rowId_componentText {id : JsString} (h : Utf8.wellFormed id = true) :
    rowId (componentText id) = componentText (rowId id) := by
  have hdot : componentText (js ".") = js "." := by decide
  unfold rowId
  by_cases hid : id = js "."
  · rw [if_pos hid, hid, hdot, if_pos rfl]
    rfl
  · rw [if_neg hid, if_neg]
    intro htext
    exact hid (componentText_inj h (by decide) (htext.trans hdot.symm))

theorem wellFormed_rowId {id : JsString} : Utf8.wellFormed (rowId id) = Utf8.wellFormed id := by
  unfold rowId
  split
  next h =>
    rw [h]
    decide
  next => rfl

/-- **The request of a `get`**, where both names can be written in a URL. -/
theorem getRequest_eq (collection id : JsString) : getRequest collection id =
    if Utf8.wellFormed collection = true ∧ Utf8.wellFormed id = true then
      .ok ⟨parsePath (rowPath (componentText collection)) [componentText id], []⟩
    else .error .uriMalformed := by
  unfold getRequest encodeURIComponent
  by_cases hname : Utf8.wellFormed collection = true
  · by_cases hid : Utf8.wellFormed id = true
    · rw [if_pos hname, if_pos hid, if_pos ⟨hname, hid⟩, ← parsePath_row]
      rfl
    · rw [if_pos hname, if_neg hid, if_neg (fun h => hid h.2)]
      rfl
  · have hno : ¬(Utf8.wellFormed collection = true ∧ Utf8.wellFormed id = true) := fun h => hname h.1
    rw [if_neg hname, if_neg hno]
    rfl

/-- **The request of a row is its id**, unless the path cannot be written at all. -/
theorem getRequest_eq_iff (collection id id' : JsString) :
    getRequest collection id = getRequest collection id' ↔
      (Utf8.wellFormed collection = true →
        (Utf8.wellFormed id = true ∨ Utf8.wellFormed id' = true) → rowId id = rowId id') := by
  rw [getRequest_eq, getRequest_eq]
  by_cases hname : Utf8.wellFormed collection = true
  · by_cases hid : Utf8.wellFormed id = true
    · by_cases hid' : Utf8.wellFormed id' = true
      · rw [if_pos ⟨hname, hid⟩, if_pos ⟨hname, hid'⟩, Except.ok.injEq, Request.mk.injEq,
          parsePath_single_inj (rowPath_ne_nil _), rowId_componentText hid, rowId_componentText hid']
        constructor
        · rintro ⟨h, -⟩ - -
          exact componentText_inj (wellFormed_rowId.trans hid) (wellFormed_rowId.trans hid') h
        · intro h
          rw [h hname (Or.inl hid)]
          exact ⟨rfl, rfl⟩
      · rw [if_pos ⟨hname, hid⟩, if_neg (fun h => hid' h.2)]
        refine iff_of_false (by simp) ?_
        intro h
        rw [← wellFormed_rowId, ← h hname (Or.inl hid), wellFormed_rowId] at hid'
        exact hid' hid
    · by_cases hid' : Utf8.wellFormed id' = true
      · rw [if_neg (fun h => hid h.2), if_pos ⟨hname, hid'⟩]
        refine iff_of_false (by simp) ?_
        intro h
        rw [← wellFormed_rowId, h hname (Or.inr hid'), wellFormed_rowId] at hid
        exact hid hid'
      · rw [if_neg (fun h => hid h.2), if_neg (fun h => hid' h.2)]
        refine iff_of_true rfl ?_
        rintro - (h | h)
        · exact absurd h hid
        · exact absurd h hid'
  · rw [if_neg (fun h => hname h.1), if_neg (fun h => hname h.1)]
    exact iff_of_true rfl fun h => absurd h hname

/-! ## The condition -/

/-- The arguments of two queries over `collection` that end in `t` come to the same: the `where` calls
    throw one error or give one list of clauses, and what else `t` sends is the same.  A list over a
    collection whose name cannot be written sends nothing. -/
def SameQuery (collection : JsString) (t : Terminal) (ms ms' : List Modifier) : Prop :=
  match clausesOf ms, clausesOf ms' with
  | .error e, .error e' => e = e'
  | .ok clauses, .ok clauses' =>
    (t = .count ∨ Utf8.wellFormed collection = true) →
      clauses = clauses' ∧
        (t ≠ .count → nonempty (lastOrder ms) = nonempty (lastOrder ms')) ∧
        (t = .all → lastLimit ms = lastLimit ms')
  | _, _ => False

/-- The arguments of two chains come to the same. -/
def SameArguments (c d : Chain) : Prop :=
  match c.call, d.call with
  | .get id, .get id' =>
    Utf8.wellFormed c.collection = true →
      (Utf8.wellFormed id = true ∨ Utf8.wellFormed id' = true) → rowId id = rowId id'
  | .query ms t, .query ms' _ => SameQuery c.collection t ms ms'
  | _, _ => True

/-- **Two lists send one request** iff their clauses, orders and limits are the same. -/
theorem listRequest_eq_iff (collection : JsString) (t : Terminal) :
    listRequest N collection st t = listRequest N collection st' t ↔
      (Utf8.wellFormed collection = true →
        st.wire = st'.wire ∧ nonempty st.order = nonempty st'.order ∧
          (t ≠ .first → st.limit = st'.limit)) := by
  unfold listRequest encodeURIComponent
  by_cases hname : Utf8.wellFormed collection = true
  · rw [if_pos hname]
    show Except.ok _ = Except.ok _ ↔ _
    rw [Except.ok.injEq, Request.mk.injEq, listSearch_eq_iff]
    exact ⟨fun h _ => h.2, fun h => ⟨rfl, h hname⟩⟩
  · rw [if_neg hname]
    exact iff_of_true rfl fun h => absurd h hname

section Queries

variable {collection : JsString} {ms ms' : List Modifier} {clauses clauses' : List PredicateClause}

/-- A chain's state is its clauses with its last order and its last limit. -/
theorem applyAll_empty (ms : List Modifier) :
    emptyState.applyAll ms = (clausesOf ms).map fun clauses =>
      ⟨clauses, lastOrder ms, lastLimit ms⟩ := by
  rw [applyAll_eq]
  simp only [emptyState, List.nil_append, Option.or_none]

/-- A `where` call that throws is thrown before anything is sent. -/
theorem request_throws {e : Err} (t : Terminal) (h : clausesOf ms = .error e) :
    request N ⟨collection, .query ms t⟩ = .error (.thrown e) := by
  simp only [request, applyAll_empty, h, Except.map]

/-- A `count` sends the clauses and the limit. -/
theorem request_count (h : clausesOf ms = .ok clauses) :
    request N ⟨collection, .query ms .count⟩ =
      .ok (countRequest N collection ⟨clauses, lastOrder ms, lastLimit ms⟩) := by
  simp only [request, applyAll_empty, h, Except.map]

/-- Every other terminal sends a list. -/
theorem request_list {t : Terminal} (ht : t ≠ .count) (h : clausesOf ms = .ok clauses) :
    request N ⟨collection, .query ms t⟩ =
      listRequest N collection ⟨clauses, lastOrder ms, lastLimit ms⟩ t := by
  cases t with
  | first => simp only [request, applyAll_empty, h, Except.map]
  | all => simp only [request, applyAll_empty, h, Except.map]
  | count => exact absurd rfl ht

/-- With clauses that are accepted nothing is thrown. -/
theorem request_ok (t : Terminal) (h : clausesOf ms = .ok clauses) (e : Err) :
    request N ⟨collection, .query ms t⟩ ≠ .error (.thrown e) := by
  by_cases ht : t = .count
  · rw [ht, request_count h]
    simp
  · rw [request_list ht h, listRequest, encodeURIComponent]
    split
    · exact fun h => (by cases h)
    · exact fun h => (by cases h)

/-- Queries whose `where` calls all return. -/
theorem request_clauses_iff (t : Terminal) (h : clausesOf ms = .ok clauses)
    (h' : clausesOf ms' = .ok clauses') :
    request N ⟨collection, .query ms t⟩ = request N ⟨collection, .query ms' t⟩ ↔
      ((t = .count ∨ Utf8.wellFormed collection = true) →
        clauses = clauses' ∧
          (t ≠ .count → nonempty (lastOrder ms) = nonempty (lastOrder ms')) ∧
          (t = .all → lastLimit ms = lastLimit ms')) := by
  by_cases ht : t = .count
  · subst ht
    rw [request_count h, request_count h', Except.ok.injEq, countRequest_eq_iff]
    constructor
    · intro heq _
      exact ⟨heq, fun hne => absurd rfl hne, fun hall => (by cases hall)⟩
    · intro hsame
      exact (hsame (Or.inl rfl)).1
  · have hlimit : t ≠ .first ↔ t = .all := by
      cases t with
      | first => decide
      | all => decide
      | count => exact absurd rfl ht
    rw [request_list ht h, request_list ht h', listRequest_eq_iff, hlimit]
    constructor
    · rintro hsame (hcount | hname)
      · exact absurd hcount ht
      · exact ⟨(hsame hname).1, fun _ => (hsame hname).2.1, (hsame hname).2.2⟩
    · intro hsame hname
      obtain ⟨hclauses, horder, hlast⟩ := hsame (Or.inr hname)
      exact ⟨hclauses, horder ht, hlast⟩

/-- **Two queries with one terminal send one request iff their arguments come to the same.** -/
theorem request_query_iff (t : Terminal) :
    request N ⟨collection, .query ms t⟩ = request N ⟨collection, .query ms' t⟩ ↔
      SameQuery collection t ms ms' := by
  unfold SameQuery
  cases h : clausesOf ms with
  | error e =>
    rw [request_throws t h]
    cases h' : clausesOf ms' with
    | error e' =>
      rw [request_throws t h', Except.error.injEq, CallError.thrown.injEq]
    | ok clauses' => exact iff_of_false (fun heq => request_ok t h' e heq.symm) id
  | ok clauses =>
    cases h' : clausesOf ms' with
    | error e' =>
      rw [request_throws t h']
      exact iff_of_false (request_ok t h e') id
    | ok clauses' => exact request_clauses_iff t h h'

end Queries

/-! ## The claim of the cache -/

/-- Terminals differ in their names. -/
theorem terminalName_injective : ∀ t u : Terminal, t.name = u.name → t = u := by
  intro t u
  cases t <;> cases u <;> decide

/-- None is called `get`. -/
theorem terminalName_ne_get (t : Terminal) : t.name ≠ js "get" := by
  cases t <;> decide

/-- Where the recorder cannot tell two chains apart, they read one collection, and they are two `get`s
    or two queries with one terminal. -/
theorem recorded_cases {c d : Chain} (h : recorded c = recorded d) :
    (∃ name id id', c = ⟨name, .get id⟩ ∧ d = ⟨name, .get id'⟩) ∨
      ∃ name ms ms' t, c = ⟨name, .query ms t⟩ ∧ d = ⟨name, .query ms' t⟩ := by
  obtain ⟨name, call⟩ := c
  obtain ⟨name', call'⟩ := d
  obtain ⟨hname, hcalls⟩ := List.cons.inj h
  obtain rfl : name = name' := List.append_cancel_left hname
  have hget : ∀ ms t, (Call.query ms t).names ≠ [js "get"] := by
    intro ms t hnames
    have hlast := congrArg List.getLast? hnames
    rw [Call.names, List.getLast?_concat, List.getLast?_singleton] at hlast
    exact terminalName_ne_get t (Option.some.inj hlast)
  cases call with
  | get id =>
    cases call' with
    | get id' => exact Or.inl ⟨name, id, id', rfl, rfl⟩
    | query ms' t' => exact absurd hcalls.symm (hget ms' t')
  | query ms t =>
    cases call' with
    | get id' => exact absurd hcalls (hget ms t)
    | query ms' t' =>
      have hlast := congrArg List.getLast? hcalls
      simp only [Call.names, List.getLast?_concat, Option.some.injEq] at hlast
      obtain rfl := terminalName_injective t t' hlast
      exact Or.inr ⟨name, ms, ms', t, rfl, rfl⟩

/-- **The cache key is sound exactly where the arguments are no more than the recorder sees**: two
    chains under one signature send one request iff, when they record the same names, their arguments
    come to the same. -/
theorem signature_sound_iff (N : NumberText) (deps : List (Option Doc)) (live : Bool) (c d : Chain) :
    (signature N deps live c = signature N deps live d → request N c = request N d) ↔
      (recorded c = recorded d → SameArguments c d) := by
  rw [signature_eq_iff]
  apply forall_congr'
  intro h
  obtain ⟨name, id, id', rfl, rfl⟩ | ⟨name, ms, ms', t, rfl, rfl⟩ := recorded_cases h
  · exact getRequest_eq_iff name id id'
  · exact request_query_iff t

/-- `collection("notes").get(id)`. -/
def noteChain (id : String) : Chain := ⟨js "notes", .get (js id)⟩

/-- Two components that read two notes, with no deps: one key, two requests. -/
theorem signature_unsound : ¬ ∀ (N : NumberText) (deps : List (Option Doc)) (live : Bool) (c d : Chain),
    signature N deps live c = signature N deps live d → request N c = request N d := by
  intro h
  have hreq := h ordinalText [] true (noteChain "a") (noteChain "b") rfl
  have hget := (getRequest_eq_iff (js "notes") (js "a") (js "b")).mp hreq (by decide)
    (Or.inl (by decide))
  exact absurd hget (by decide)

end Baerly.UseQuery
