import Baerly.Query.Matches
import Baerly.SafeInteger
import Mathlib.Data.List.Perm.Subperm

/-
  Structural equality of predicate values (`protocol/src/query/_internals.ts`), and what it says
  about matching.

  PROGRAM: `deepEqualDocumentValue` compares two values by their `Object.keys`, so an array and an
  object with the same indices are equal, and a `null` against another object throws.  A key of the
  left value is looked up with `key in b` and `b[key]`, which also find what `b` inherits and the
  length of an array: `{ __proto__: {} }` equals every object with one key.

  SPEC: equal values match the same documents (`deepEqual_matches`), if the left one has no such key.
  Matching is open-world and equality is not, so this is no congruence of equality; it holds because
  both walk the same own entries.

  CRUX: both functions are folds over `ownEntries`.  One walks the keys of the left value only; that
  the right one has no further key is a matter of counting.
-/

namespace Baerly

namespace Json

variable {N : Type}

mutual

/-- No `null` inside. -/
def noNull : Json N → Bool
  | .null => false
  | .arr xs => noNullList xs
  | .obj ms => noNullMembers ms
  | _ => true

/-- No item has a `null` inside. -/
def noNullList : List (Json N) → Bool
  | [] => true
  | x :: xs => noNull x && noNullList xs

/-- No member has. -/
def noNullMembers : List (JsString × Json N) → Bool
  | [] => true
  | (_, x) :: ms => noNull x && noNullMembers ms

end

mutual

/-- No key inside is `__proto__` or `length`, which an object or an array without them answers too. -/
def plainKeys : Json N → Bool
  | .arr xs => plainKeysList xs
  | .obj ms => plainKeysMembers ms
  | _ => true

/-- The items have plain keys. -/
def plainKeysList : List (Json N) → Bool
  | [] => true
  | x :: xs => plainKeys x && plainKeysList xs

/-- The members have plain keys, inside and out. -/
def plainKeysMembers : List (JsString × Json N) → Bool
  | [] => true
  | (key, x) :: ms => decide (key ≠ protoName ∧ key ≠ js "length") && plainKeys x &&
      plainKeysMembers ms

end

end Json

/-! ## The comparison -/

/-- `b[key]`, of an object or an array.  The prototype of an array is an array without items, which
    is as empty as the one of an object. -/
def readEntry : Doc → JsString → Property
  | .obj ms, key => readMember ms key
  | .arr xs, key =>
    match (Json.arr xs).ownEntries.lookup key with
    | some v => .value v
    | none => if key = js "length" then .value (.num (JsNumber.ofNat xs.length)) else inherited key
  | _, _ => .undefined

/-- `deepEqualDocumentValue(a, prototype)`: a prototype has no keys of its own to walk. -/
def deepEqualPrototype : Doc → Except Err Bool
  | .null => .error typeError
  | .arr xs => .ok xs.isEmpty
  | .obj ms => .ok ms.isEmpty
  | _ => .ok false

mutual

/-- `deepEqualDocumentValue`. -/
def deepEqualDocumentValue : Doc → Doc → Except Err Bool
  | .null, .null => .ok true
  | .null, .arr _ => .error typeError
  | .null, .obj _ => .error typeError
  | .null, _ => .ok false
  | .bool a, b => .ok (b = .bool a)
  | .num a, b => .ok (b = .num a)
  | .str a, b => .ok (b = .str a)
  | .arr _, .null => .error typeError
  | .arr xs, .arr ys =>
    if xs.length ≠ ys.length then .ok false else deepEqualItems xs 0 (.arr ys)
  | .arr xs, .obj bs =>
    if xs.length ≠ bs.length then .ok false else deepEqualItems xs 0 (.obj bs)
  | .arr _, _ => .ok false
  | .obj _, .null => .error typeError
  | .obj ms, .arr ys =>
    if ms.length ≠ ys.length then .ok false else deepEqualMembers ms (.arr ys)
  | .obj ms, .obj bs =>
    if ms.length ≠ bs.length then .ok false else deepEqualMembers ms (.obj bs)
  | .obj _, _ => .ok false

/-- The loop over the keys of the left value.  A function is no `DocumentValue`: it equals none. -/
def deepEqualMembers : List (JsString × Doc) → Doc → Except Err Bool
  | [], _ => .ok true
  | (key, a) :: ms, b =>
    match readEntry b key with
    | .value y =>
      match deepEqualDocumentValue a y with
      | .ok true => deepEqualMembers ms b
      | r => r
    | .objectPrototype =>
      match deepEqualPrototype a with
      | .ok true => deepEqualMembers ms b
      | r => r
    | _ => .ok false

/-- The loop over the indices of an array; no index is a name an object inherits. -/
def deepEqualItems : List Doc → Nat → Doc → Except Err Bool
  | [], _, _ => .ok true
  | a :: xs, i, b =>
    match readEntry b (js (toString i)) with
    | .value y =>
      match deepEqualDocumentValue a y with
      | .ok true => deepEqualItems xs (i + 1) b
      | r => r
    | .objectPrototype =>
      match deepEqualPrototype a with
      | .ok true => deepEqualItems xs (i + 1) b
      | r => r
    | _ => .ok false

end

/-! ## Own entries

An array is walked by its indices, which are keys like any others: from here on there is one kind
of composite value. -/

/-- The entries of an array from index `i` on. -/
def itemsFrom (i : Nat) : List Doc → List (JsString × Doc)
  | [] => []
  | x :: xs => (js (toString i), x) :: itemsFrom (i + 1) xs

/-- The entries of an array are its items under their indices. -/
theorem itemsFrom_eq (xs : List Doc) (i : Nat) :
    itemsFrom i xs = (xs.zipIdx i).map fun p => (js (toString p.2), p.1) := by
  induction xs generalizing i with
  | nil => rfl
  | cons x xs ih => rw [itemsFrom, ih, List.zipIdx_cons, List.map_cons]

theorem ownEntries_arr (xs : List Doc) : (Json.arr xs).ownEntries = itemsFrom 0 xs :=
  (itemsFrom_eq xs 0).symm

@[simp] theorem itemsFrom_length (xs : List Doc) (i : Nat) :
    (itemsFrom i xs).length = xs.length := by
  induction xs generalizing i with
  | nil => rfl
  | cons x xs ih => rw [itemsFrom, List.length_cons, ih, List.length_cons]

/-- Matching an array walks its entries. -/
theorem matchesItems_eq (xs : List Doc) (i : Nat) (actual : Property) :
    matchesItems xs i actual = matchesMembers (itemsFrom i xs) actual := by
  induction xs generalizing i with
  | nil => rfl
  | cons x xs ih =>
    rw [matchesItems, itemsFrom, matchesMembers, ih]

/-- So does comparing one. -/
theorem deepEqualItems_eq (xs : List Doc) (i : Nat) (b : Doc) :
    deepEqualItems xs i b = deepEqualMembers (itemsFrom i xs) b := by
  induction xs generalizing i with
  | nil => rfl
  | cons x xs ih =>
    rw [deepEqualItems, itemsFrom, deepEqualMembers, ih]

/-- An index is written in decimal. -/
theorem js_toString (n : Nat) : js (toString n) = decimal n := by
  have h : (toString n).toList = Nat.toDigits 10 n := Nat.toList_repr
  rw [js, h, decimal]

/-- The indices of an array are distinct keys. -/
theorem index_injective {i j : Nat} (h : js (toString i) = js (toString j)) : i = j := by
  rw [js_toString, js_toString] at h
  rw [← ofDigits_decimal i, h, ofDigits_decimal]

/-- An entry of an array is one of its items. -/
theorem mem_itemsFrom {xs : List Doc} {i : Nat} {p : JsString × Doc} (h : p ∈ itemsFrom i xs) :
    p.2 ∈ xs ∧ ∃ j, i ≤ j ∧ p.1 = js (toString j) := by
  induction xs generalizing i with
  | nil => cases h
  | cons x xs ih =>
    rcases List.mem_cons.mp h with rfl | h
    · exact ⟨List.mem_cons_self, i, Nat.le_refl i, rfl⟩
    · obtain ⟨hmem, j, hj, hkey⟩ := ih h
      exact ⟨List.mem_cons_of_mem x hmem, j, by omega, hkey⟩

/-- Its indices are distinct. -/
theorem nodup_itemsFrom (xs : List Doc) (i : Nat) : ((itemsFrom i xs).map Prod.fst).Nodup := by
  induction xs generalizing i with
  | nil => exact List.nodup_nil
  | cons x xs ih =>
    rw [itemsFrom, List.map_cons, List.nodup_cons]
    refine ⟨?_, ih (i + 1)⟩
    intro hmem
    obtain ⟨p, hp, hkey⟩ := List.mem_map.mp hmem
    obtain ⟨_, j, hj, hkey'⟩ := mem_itemsFrom hp
    have heq : j = i := index_injective (hkey'.symm.trans hkey)
    omega

/-- The items of a well-formed array are well formed. -/
theorem wfList_mem {xs : List Doc} (h : Json.wfList xs = true) {x : Doc} (hx : x ∈ xs) :
    x.wf = true := by
  induction xs with
  | nil => cases hx
  | cons y ys ih =>
    simp only [Json.wfList, Bool.and_eq_true] at h
    rcases List.mem_cons.mp hx with rfl | hx
    · exact h.1
    · exact ih h.2 hx

/-- So are the members of a well-formed object. -/
theorem wfMembers_mem {ms : List (JsString × Doc)} (h : Json.wfMembers ms = true)
    {p : JsString × Doc} (hp : p ∈ ms) : p.2.wf = true := by
  induction ms with
  | nil => cases hp
  | cons q ms ih =>
    simp only [Json.wfMembers, Bool.and_eq_true] at h
    rcases List.mem_cons.mp hp with rfl | hp
    · exact h.1
    · exact ih h.2 hp

/-- Own entries have distinct keys. -/
theorem ownEntries_nodup {a : Doc} (h : a.wf = true) : (a.ownEntries.map Prod.fst).Nodup := by
  cases a with
  | arr xs =>
    rw [ownEntries_arr]
    exact nodup_itemsFrom xs 0
  | obj ms =>
    simp only [Json.wf, Bool.and_eq_true, decide_eq_true_eq] at h
    exact h.1
  | _ => exact List.nodup_nil

/-- So are the entries of either. -/
theorem ownEntries_wf {a : Doc} (h : a.wf = true) {p : JsString × Doc} (hp : p ∈ a.ownEntries) :
    p.2.wf = true := by
  cases a with
  | arr xs =>
    rw [ownEntries_arr] at hp
    exact wfList_mem h (mem_itemsFrom hp).1
  | obj ms =>
    simp only [Json.wf, Bool.and_eq_true, decide_eq_true_eq] at h
    exact wfMembers_mem h.2 hp
  | _ => cases hp

/-- An entry is smaller than the value: recursion over entries ends. -/
theorem ownEntries_sizeOf {a : Doc} {p : JsString × Doc} (hp : p ∈ a.ownEntries) :
    sizeOf p.2 < sizeOf a := by
  cases a with
  | arr xs =>
    rw [ownEntries_arr] at hp
    have hlt := List.sizeOf_lt_of_mem (mem_itemsFrom hp).1
    have harr : sizeOf (Json.arr xs) = 1 + sizeOf xs := Json.arr.sizeOf_spec xs
    omega
  | obj ms =>
    have hmem : p ∈ ms := hp
    have hlt := List.sizeOf_lt_of_mem hmem
    have hobj : sizeOf (Json.obj ms) = 1 + sizeOf ms := Json.obj.sizeOf_spec ms
    have hpair : sizeOf p = 1 + sizeOf p.1 + sizeOf p.2 := rfl
    omega
  | _ => cases hp

/-! ## Matching composite values -/

/-- **An object operand matches open-world**: its own members, whatever else is there. -/
theorem matchesMembers_iff (ms : List (JsString × Doc)) (actual : Property) :
    matchesMembers ms actual = .ok true ↔
      ∀ p ∈ ms, matchesEq p.2 (actual.read p.1) = .ok true := by
  induction ms with
  | nil => simp [matchesMembers]
  | cons q ms ih =>
    rw [matchesMembers]
    split
    next h => simp [h, ih]
    next r hne =>
      constructor
      · intro h
        exact absurd h hne
      · intro h
        exact absurd (h q List.mem_cons_self) hne

/-- A composite value is matched by the loop over its entries. -/
theorem matchesEq_body {a : Doc} (ha : a.isObjectLike = true) (actual : Property) :
    matchesEq a actual =
      if actual.isPlainObject then matchesMembers a.ownEntries actual else .ok false := by
  cases a with
  | arr xs => rw [ownEntries_arr, matchesEq, matchesItems_eq]
  | obj ms =>
    rw [matchesEq]
    rfl
  | _ => cases ha

/-- A composite value matches a plain object that matches each of its entries. -/
theorem matchesEq_composite {a : Doc} (ha : a.isObjectLike = true) (actual : Property) :
    matchesEq a actual = .ok true ↔ actual.isPlainObject = true ∧
      ∀ p ∈ a.ownEntries, matchesEq p.2 (actual.read p.1) = .ok true := by
  rw [matchesEq_body ha]
  cases hplain : actual.isPlainObject with
  | true => rw [if_pos rfl, matchesMembers_iff, and_iff_right rfl]
  | false =>
    rw [if_neg (by exact Bool.false_ne_true)]
    exact ⟨fun h => (by cases h), fun h => (by cases h.1)⟩

/-! ## Equality of composite values -/

/-- A key that no object answers by itself is an own key. -/
theorem readEntry_plain {b : Doc} {key : JsString} (hproto : key ≠ protoName)
    (hlength : key ≠ js "length") : readEntry b key ≠ .objectPrototype ∧
      ∀ y, readEntry b key = .value y → b.ownEntries.lookup key = some y := by
  have hinherited : inherited key ≠ .objectPrototype := by
    unfold inherited
    rw [if_neg hproto]
    split <;> exact fun h => by cases h
  cases b with
  | obj ms =>
    refine ⟨fun h => ?_, fun y hy => readMember_value.mp hy⟩
    cases hlook : ms.lookup key with
    | some v =>
      rw [readEntry, readMember_own hlook] at h
      cases h
    | none =>
      rw [readEntry, readMember_inherited hlook] at h
      exact hinherited h
  | arr xs =>
    rw [readEntry]
    cases hlook : (Json.arr xs).ownEntries.lookup key with
    | some v => exact ⟨fun h => (by cases h), fun y hy => (by cases hy; rfl)⟩
    | none =>
      dsimp only
      rw [if_neg hlength]
      exact ⟨hinherited, fun y hy => absurd hy (inherited_ne_value key y)⟩
  | _ => exact ⟨fun h => (by cases h), fun y hy => (by cases hy)⟩

/-- Under plain keys an entry found equal is an own entry of the other side. -/
theorem deepEqualMembers_ok {ms : List (JsString × Doc)} {b : Doc}
    (hplain : ∀ p ∈ ms, p.1 ≠ protoName ∧ p.1 ≠ js "length")
    (h : deepEqualMembers ms b = .ok true) : ∀ p ∈ ms, ∃ y, b.ownEntries.lookup p.1 = some y ∧
      deepEqualDocumentValue p.2 y = .ok true := by
  induction ms with
  | nil => exact fun p hp => absurd hp List.not_mem_nil
  | cons q ms ih =>
    obtain ⟨hproto, hlength⟩ := hplain q List.mem_cons_self
    obtain ⟨hne, hown⟩ := readEntry_plain (b := b) hproto hlength
    rw [deepEqualMembers] at h
    split at h
    next y hy =>
      split at h
      next heq =>
        intro p hp
        rcases List.mem_cons.mp hp with rfl | hp
        · exact ⟨y, hown y hy, heq⟩
        · exact ih (fun p hp => hplain p (List.mem_cons_of_mem q hp)) h p hp
      next r hne => exact absurd h hne
    next hproto => exact absurd hproto hne
    next => cases h

theorem plainKeysList_mem {xs : List Doc} (h : Json.plainKeysList xs = true) {x : Doc}
    (hx : x ∈ xs) : x.plainKeys = true := by
  induction xs with
  | nil => cases hx
  | cons y ys ih =>
    simp only [Json.plainKeysList, Bool.and_eq_true] at h
    rcases List.mem_cons.mp hx with rfl | hx
    · exact h.1
    · exact ih h.2 hx

theorem plainKeysMembers_mem {ms : List (JsString × Doc)} (h : Json.plainKeysMembers ms = true)
    {p : JsString × Doc} (hp : p ∈ ms) :
    (p.1 ≠ protoName ∧ p.1 ≠ js "length") ∧ p.2.plainKeys = true := by
  induction ms with
  | nil => cases hp
  | cons q ms ih =>
    simp only [Json.plainKeysMembers, Bool.and_eq_true, decide_eq_true_eq] at h
    rcases List.mem_cons.mp hp with rfl | hp
    · exact h.1
    · exact ih h.2 hp

/-- The indices of an array are plain keys. -/
theorem index_plain (i : Nat) : js (toString i) ≠ protoName ∧ js (toString i) ≠ js "length" := by
  have hdigit : ∀ u ∈ js (toString i), isDigit u = true := by
    rw [js_toString]
    exact List.all_eq_true.mp (isDigit_decimal i)
  constructor <;> intro heq <;> rw [heq] at hdigit
  · exact absurd (hdigit 95 (by decide)) (by decide)
  · exact absurd (hdigit 108 (by decide)) (by decide)

/-- The entries of a value with plain keys have them. -/
theorem ownEntries_plainKeys {a : Doc} (h : a.plainKeys = true) {p : JsString × Doc}
    (hp : p ∈ a.ownEntries) : (p.1 ≠ protoName ∧ p.1 ≠ js "length") ∧ p.2.plainKeys = true := by
  cases a with
  | arr xs =>
    rw [ownEntries_arr] at hp
    obtain ⟨hmem, j, -, hkey⟩ := mem_itemsFrom hp
    exact ⟨hkey ▸ index_plain j, plainKeysList_mem h hmem⟩
  | obj ms => exact plainKeysMembers_mem h hp
  | _ => cases hp

/-- The comparison of two composite values counts their keys and walks those of the left one. -/
theorem deepEqual_body {a b : Doc} (ha : a.isObjectLike = true)
    (h : deepEqualDocumentValue a b = .ok true) : b.isObjectLike = true ∧
      a.ownEntries.length = b.ownEntries.length ∧ deepEqualMembers a.ownEntries b = .ok true := by
  have hloop : ∀ {n m : Nat} {r : Except Err Bool},
      (if n ≠ m then .ok false else r) = .ok true → n = m ∧ r = .ok true := by
    intro n m r hr
    by_cases hnm : n = m
    · exact ⟨hnm, by simpa [hnm] using hr⟩
    · simp [hnm] at hr
  cases a with
  | arr xs =>
    cases b with
    | arr ys =>
      rw [deepEqualDocumentValue] at h
      obtain ⟨hlen, hall⟩ := hloop h
      rw [deepEqualItems_eq] at hall
      exact ⟨rfl, by simpa [ownEntries_arr] using hlen, by rw [ownEntries_arr]; exact hall⟩
    | obj bs =>
      rw [deepEqualDocumentValue] at h
      obtain ⟨hlen, hall⟩ := hloop h
      rw [deepEqualItems_eq] at hall
      refine ⟨rfl, ?_, by rw [ownEntries_arr]; exact hall⟩
      rw [ownEntries_arr, itemsFrom_length]
      exact hlen
    | _ => simp [deepEqualDocumentValue] at h
  | obj ms =>
    cases b with
    | arr ys =>
      rw [deepEqualDocumentValue] at h
      obtain ⟨hlen, hall⟩ := hloop h
      refine ⟨rfl, ?_, hall⟩
      rw [ownEntries_arr, itemsFrom_length]
      exact hlen
    | obj bs =>
      rw [deepEqualDocumentValue] at h
      obtain ⟨hlen, hall⟩ := hloop h
      exact ⟨rfl, hlen, hall⟩
    | _ => simp [deepEqualDocumentValue] at h
  | _ => cases ha

/-- Equal composite values have as many entries, and the entries of one are in the other. -/
theorem deepEqual_composite {a b : Doc} (ha : a.isObjectLike = true) (hplain : a.plainKeys = true)
    (h : deepEqualDocumentValue a b = .ok true) : b.isObjectLike = true ∧
      a.ownEntries.length = b.ownEntries.length ∧
      ∀ p ∈ a.ownEntries, ∃ y, b.ownEntries.lookup p.1 = some y ∧
        deepEqualDocumentValue p.2 y = .ok true := by
  obtain ⟨hb, hlen, hall⟩ := deepEqual_body ha h
  exact ⟨hb, hlen, deepEqualMembers_ok (fun p hp => (ownEntries_plainKeys hplain hp).1) hall⟩

/-- What is found is there. -/
theorem mem_of_lookup {bs : List (JsString × Doc)} {key : JsString} {y : Doc}
    (h : bs.lookup key = some y) : (key, y) ∈ bs := by
  obtain ⟨l₁, l₂, rfl, _⟩ := List.lookup_eq_some_iff.mp h
  simp

/-- With distinct keys, what is there is found. -/
theorem lookup_of_mem {bs : List (JsString × Doc)} (hbs : (bs.map Prod.fst).Nodup)
    {q : JsString × Doc} (hq : q ∈ bs) : bs.lookup q.1 = some q.2 := by
  obtain ⟨l₁, l₂, rfl⟩ := List.append_of_mem hq
  refine List.lookup_eq_some_iff.mpr ⟨l₁, l₂, rfl, fun p hp => ?_⟩
  rw [List.map_append, List.map_cons, List.nodup_append] at hbs
  have hne := hbs.2.2 p.1 (List.mem_map.mpr ⟨p, hp, rfl⟩) q.1 List.mem_cons_self
  simpa using fun heq : q.1 = p.1 => hne heq.symm

/-- Counting: distinct keys that all occur in a list no longer than theirs are all its keys. -/
theorem keys_complete {ms bs : List (JsString × Doc)} (hms : (ms.map Prod.fst).Nodup)
    (hlen : ms.length = bs.length) (hsub : ∀ p ∈ ms, ∃ y, bs.lookup p.1 = some y) :
    ∀ q ∈ bs, ∃ x, (q.1, x) ∈ ms := by
  have hsubset : ms.map Prod.fst ⊆ bs.map Prod.fst := by
    intro key hkey
    obtain ⟨p, hp, rfl⟩ := List.mem_map.mp hkey
    obtain ⟨y, hy⟩ := hsub p hp
    exact List.mem_map.mpr ⟨(p.1, y), mem_of_lookup hy, rfl⟩
  have hperm : (ms.map Prod.fst).Perm (bs.map Prod.fst) :=
    (hms.subperm hsubset).perm_of_length_le (by simp [hlen])
  intro q hq
  have hkey : q.1 ∈ ms.map Prod.fst := hperm.mem_iff.mpr (List.mem_map.mpr ⟨q, hq, rfl⟩)
  obtain ⟨p, hp, hpq⟩ := List.mem_map.mp hkey
  exact ⟨p.2, by rw [← hpq]; exact hp⟩

/-- Only itself is deep-equal to a scalar or to `null`. -/
theorem deepEqual_scalar {a b : Doc} (ha : a.isObjectLike = false)
    (h : deepEqualDocumentValue a b = .ok true) : b = a := by
  cases a with
  | bool x => simpa [deepEqualDocumentValue] using h
  | num x => simpa [deepEqualDocumentValue] using h
  | str x => simpa [deepEqualDocumentValue] using h
  | null => cases b <;> simp [deepEqualDocumentValue] at h ⊢
  | arr xs => cases ha
  | obj ms => cases ha

/-- Only itself is deep-equal to a value that is no object. -/
theorem deepEqual_scalar_right {a b : Doc} (hb : b.isObjectLike = false)
    (h : deepEqualDocumentValue a b = .ok true) : a = b := by
  by_cases hobj : a.isObjectLike = true
  · rw [(deepEqual_body hobj h).1] at hb
    cases hb
  · exact (deepEqual_scalar (by simpa using hobj) h).symm

/-- **Equal values match the same documents**, if no key of the left one is found by inheritance. -/
theorem deepEqual_matches {a b : Doc} (ha : a.wf = true) (hb : b.wf = true)
    (hplain : a.plainKeys = true) (h : deepEqualDocumentValue a b = .ok true) (actual : Property) :
    matchesEq a actual = .ok true ↔ matchesEq b actual = .ok true := by
  by_cases hobj : a.isObjectLike = true
  · obtain ⟨hbobj, hlen, hentries⟩ := deepEqual_composite hobj hplain h
    rw [matchesEq_composite hobj, matchesEq_composite hbobj]
    have hpair : ∀ p ∈ a.ownEntries, ∀ y, b.ownEntries.lookup p.1 = some y → ∀ v,
        matchesEq p.2 v = .ok true ↔ matchesEq y v = .ok true := by
      intro p hp y hy v
      obtain ⟨y', hy', heq⟩ := hentries p hp
      rw [hy] at hy'
      cases hy'
      have hsize := ownEntries_sizeOf hp
      have hmem := mem_of_lookup hy
      exact deepEqual_matches (ownEntries_wf ha hp) (ownEntries_wf hb hmem)
        (ownEntries_plainKeys hplain hp).2 heq v
    refine and_congr_right fun _ => ⟨fun hall q hq => ?_, fun hall p hp => ?_⟩
    · obtain ⟨x, hx⟩ := keys_complete (ownEntries_nodup ha) hlen
        (fun p hp => (hentries p hp).imp fun _ hy => hy.1) q hq
      have hlook : b.ownEntries.lookup q.1 = some q.2 :=
        lookup_of_mem (ownEntries_nodup hb) hq
      exact (hpair (q.1, x) hx q.2 hlook _).mp (hall (q.1, x) hx)
    · obtain ⟨y, hy, _⟩ := hentries p hp
      exact (hpair p hp y hy _).mpr (hall (p.1, y) (mem_of_lookup hy))
  · rw [deepEqual_scalar (by simpa using hobj) h]
termination_by sizeOf a

/-! ## Values without `null` -/

theorem noNullList_mem {xs : List Doc} (h : Json.noNullList xs = true) {x : Doc} (hx : x ∈ xs) :
    x.noNull = true := by
  induction xs with
  | nil => cases hx
  | cons y ys ih =>
    simp only [Json.noNullList, Bool.and_eq_true] at h
    rcases List.mem_cons.mp hx with rfl | hx
    · exact h.1
    · exact ih h.2 hx

theorem noNullMembers_mem {ms : List (JsString × Doc)} (h : Json.noNullMembers ms = true)
    {p : JsString × Doc} (hp : p ∈ ms) : p.2.noNull = true := by
  induction ms with
  | nil => cases hp
  | cons q ms ih =>
    simp only [Json.noNullMembers, Bool.and_eq_true] at h
    rcases List.mem_cons.mp hp with rfl | hp
    · exact h.1
    · exact ih h.2 hp

/-- The entries of a value without `null` have none. -/
theorem ownEntries_noNull {a : Doc} (h : a.noNull = true) {p : JsString × Doc}
    (hp : p ∈ a.ownEntries) : p.2.noNull = true := by
  cases a with
  | arr xs =>
    rw [ownEntries_arr] at hp
    exact noNullList_mem h (mem_itemsFrom hp).1
  | obj ms => exact noNullMembers_mem h hp
  | _ => cases hp

/-- A walk over entries evaluates where each of them does. -/
theorem matchesMembers_total {ms : List (JsString × Doc)} {actual : Property}
    (h : ∀ p ∈ ms, ∀ v, ∃ b, matchesEq p.2 v = .ok b) :
    ∃ b, matchesMembers ms actual = .ok b := by
  induction ms with
  | nil => exact ⟨true, by rw [matchesMembers]⟩
  | cons q ms ih =>
    obtain ⟨b, hb⟩ := h q List.mem_cons_self (actual.read q.1)
    rw [matchesMembers, hb]
    cases b with
    | true => exact ih fun p hp => h p (List.mem_cons_of_mem q hp)
    | false => exact ⟨false, rfl⟩

/-- **A value without `null` can always be matched.** -/
theorem matchesEq_total {a : Doc} (h : a.noNull = true) (actual : Property) :
    ∃ b, matchesEq a actual = .ok b := by
  have hentries : ∀ p ∈ a.ownEntries, ∀ v, ∃ b, matchesEq p.2 v = .ok b := by
    intro p hp v
    have hsize := ownEntries_sizeOf hp
    exact matchesEq_total (ownEntries_noNull h hp) v
  have hcomposite : a.isObjectLike = true → ∃ b, matchesEq a actual = .ok b := by
    intro hobj
    rw [matchesEq_body hobj]
    split
    · exact matchesMembers_total hentries
    · exact ⟨false, rfl⟩
  cases a with
  | null => cases h
  | bool x => exact ⟨_, by rw [matchesEq]⟩
  | num x => exact ⟨_, by rw [matchesEq]⟩
  | str x => exact ⟨_, by rw [matchesEq]⟩
  | arr xs => exact hcomposite rfl
  | obj ms => exact hcomposite rfl
termination_by sizeOf a

/-- A set without `null` matches what one of its members matches. -/
theorem matchesIn_of_mem {ms : List Doc} (hms : ∀ m ∈ ms, m.noNull = true) {m : Doc} (hm : m ∈ ms)
    {actual : Property} (h : matchesEq m actual = .ok true) : matchesIn ms actual = .ok true := by
  induction ms with
  | nil => cases hm
  | cons x ms ih =>
    obtain ⟨b, hb⟩ := matchesEq_total (hms x List.mem_cons_self) actual
    rw [matchesIn, hb]
    cases b with
    | true => rfl
    | false =>
      rcases List.mem_cons.mp hm with rfl | hm
      · rw [hb] at h
        cases h
      · exact ih (fun y hy => hms y (List.mem_cons_of_mem x hy)) hm

/-- What a set matches, one of its members matches. -/
theorem matchesIn_ok {ms : List Doc} {actual : Property} (h : matchesIn ms actual = .ok true) :
    ∃ m ∈ ms, matchesEq m actual = .ok true := by
  induction ms with
  | nil => cases h
  | cons x ms ih =>
    rw [matchesIn] at h
    split at h
    next =>
      obtain ⟨m, hm, hmatch⟩ := ih h
      exact ⟨m, List.mem_cons_of_mem x hm, hmatch⟩
    next => exact ⟨x, List.mem_cons_self, h⟩

end Baerly
