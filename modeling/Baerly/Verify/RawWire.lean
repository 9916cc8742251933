import Baerly.Query.RawWire
import Baerly.Verify.Normalize
import Baerly.Verify.Satisfiable

/-
  When a wire that a client sends is safe to evaluate.

  PROGRAM: the validator looks for `null` one level deep.  Two places walk operands to the bottom
  and ask a `null` for its keys: the comparison of two operands of one field, in the satisfiability
  check, and matching.

  SPEC: `OwnOnly` — nothing but a `BaerlyError` is thrown.  A wire is safe exactly when, once its
  clauses have passed their own checks, neither walk comes to a `null` (`safe_iff`): the check never
  compares a `null` with an object (`CheckMeetsNull`), and no document satisfies the clauses before
  some operand together with that operand up to its first `null` (`MatchMeetsNull`).

  CRUX: `untilNull` cuts an operand off at its first `null`.  The cut-off operand has no `null`, and
  the walk of the whole one throws exactly where the cut-off one matches (`matchesEq_untilNull`).
-/

namespace Baerly

variable {E : Engine}

/-! ## Errors of the library's own -/

/-- Fails, if at all, with a `BaerlyError`. -/
def OwnOnly {α : Type} (r : Except Err α) : Prop :=
  ∀ e, r = .error e → e.code?.isSome = true

theorem ownOnly_ok {α : Type} (a : α) : OwnOnly (.ok a : Except Err α) :=
  fun _ h => (by cases h)

theorem ownOnly_mk {α : Type} (code : Code) (message : String) :
    OwnOnly (.error (.mk code message) : Except Err α) :=
  fun _ h => (by cases h; rfl)

theorem not_ownOnly_typeError {α : Type} : ¬ OwnOnly (.error typeError : Except Err α) := by
  intro h
  have hcode := h typeError rfl
  cases hcode

/-- A sequence fails with own errors only iff each part does that is reached. -/
theorem ownOnly_bind_iff {α β : Type} {x : Except Err α} {f : α → Except Err β} :
    OwnOnly (x >>= f) ↔ OwnOnly x ∧ ∀ a, x = .ok a → OwnOnly (f a) := by
  cases x with
  | ok a =>
    exact ⟨fun h => ⟨ownOnly_ok a, fun b hb => (by cases hb; exact h)⟩, fun h => h.2 a rfl⟩
  | error e =>
    exact ⟨fun h => ⟨fun e' he => h e' (by cases he; rfl), fun a ha => (by cases ha)⟩,
      fun h e' he => h.1 e' (by cases he; rfl)⟩

/-- The rule of sequence. -/
theorem OwnOnly.bind {α β : Type} {x : Except Err α} {f : α → Except Err β} (hx : OwnOnly x)
    (hf : ∀ a, x = .ok a → OwnOnly (f a)) : OwnOnly (x >>= f) :=
  ownOnly_bind_iff.mpr ⟨hx, hf⟩

/-- The rule of a branch. -/
theorem OwnOnly.ite {α : Type} {p : Prop} [Decidable p] {x y : Except Err α} (hx : OwnOnly x)
    (hy : OwnOnly y) : OwnOnly (if p then x else y) := by
  split
  · exact hx
  · exact hy

/-! ## Comparing two operands -/

/-- An operand compared with what was read of the other one. -/
def deepEqualProperty (a : Doc) : Property → Except Err Bool
  | .value b => deepEqualDocumentValue a b
  | .objectPrototype => deepEqualPrototype a
  | _ => .ok false

/-- The walk over entries stops at the first that is not equal. -/
theorem deepEqualMembers_cons (key : JsString) (a : Doc) (ms : List (JsString × Doc)) (b : Doc) :
    deepEqualMembers ((key, a) :: ms) b = (deepEqualProperty a (readEntry b key) >>= fun found =>
      if found then deepEqualMembers ms b else .ok false) := by
  rw [deepEqualMembers]
  cases readEntry b key with
  | value y =>
    have hvalue : deepEqualProperty a (.value y) = deepEqualDocumentValue a y := rfl
    rw [hvalue]
    dsimp only
    cases deepEqualDocumentValue a y with
    | error e => rfl
    | ok found => cases found <;> rfl
  | objectPrototype =>
    have hprototype : deepEqualProperty a .objectPrototype = deepEqualPrototype a := rfl
    rw [hprototype]
    dsimp only
    cases deepEqualPrototype a with
    | error e => rfl
    | ok found => cases found <;> rfl
  | _ => rfl

/-- **The comparison comes to a `null`** that is an object on the other side, all entries walked
    before being equal. -/
inductive MeetsNull : Doc → Property → Prop where
  | left {b : Doc} (hb : b.isObjectLike = true) : MeetsNull .null (.value b)
  | inherited : MeetsNull .null .objectPrototype
  | right {a : Doc} (ha : a.isObjectLike = true) : MeetsNull a (.value .null)
  | entry {a b x : Doc} {key : JsString} {before after : List (JsString × Doc)}
      (ha : a.isObjectLike = true) (hb : b.isObjectLike = true)
      (hcount : a.ownEntries.length = b.ownEntries.length)
      (hentries : a.ownEntries = before ++ (key, x) :: after)
      (hbefore : deepEqualMembers before b = .ok true)
      (h : MeetsNull x (readEntry b key)) : MeetsNull a (.value b)

/-- The loop throws where an entry does and those before are equal. -/
theorem deepEqualMembers_error {es : List (JsString × Doc)} {b : Doc} {e : Err} :
    deepEqualMembers es b = .error e ↔ ∃ before key x after, es = before ++ (key, x) :: after ∧
      deepEqualMembers before b = .ok true ∧
      deepEqualProperty x (readEntry b key) = .error e := by
  induction es with
  | nil =>
    rw [deepEqualMembers]
    refine ⟨fun h => (by cases h), ?_⟩
    rintro ⟨before, key, x, after, hes, -⟩
    cases before <;> cases hes
  | cons q es ih =>
    obtain ⟨key, x⟩ := q
    rw [deepEqualMembers_cons]
    constructor
    · intro h
      cases hfirst : deepEqualProperty x (readEntry b key) with
      | error e' =>
        rw [hfirst] at h
        cases h
        exact ⟨[], key, x, es, rfl, by rw [deepEqualMembers], hfirst⟩
      | ok found =>
        rw [hfirst] at h
        cases found with
        | false => cases h
        | true =>
          obtain ⟨before, key', x', after, rfl, hbefore, hx'⟩ := ih.mp h
          refine ⟨(key, x) :: before, key', x', after, rfl, ?_, hx'⟩
          rw [deepEqualMembers_cons, hfirst]
          exact hbefore
    · rintro ⟨before, key', x', after, hes, hbefore, hx'⟩
      cases before with
      | nil =>
        cases hes
        rw [hx']
        rfl
      | cons p before =>
        cases hes
        rw [deepEqualMembers_cons] at hbefore
        obtain ⟨found, hfirst, hbefore⟩ := except_bind_ok hbefore
        cases found with
        | false => cases hbefore
        | true =>
          rw [hfirst]
          exact ih.mpr ⟨before, key', x', after, rfl, hbefore, hx'⟩

/-- Two composite values are compared by the loop, if they have as many entries. -/
theorem deepEqual_objects {a b : Doc} (ha : a.isObjectLike = true) (hb : b.isObjectLike = true) :
    deepEqualDocumentValue a b = if a.ownEntries.length = b.ownEntries.length
      then deepEqualMembers a.ownEntries b else .ok false := by
  cases a with
  | arr xs =>
    cases b with
    | arr ys =>
      rw [deepEqualDocumentValue, deepEqualItems_eq, ownEntries_arr, ownEntries_arr, itemsFrom_length,
        itemsFrom_length, ite_not]
    | obj bs =>
      rw [deepEqualDocumentValue, deepEqualItems_eq, ownEntries_arr, itemsFrom_length, ite_not]
      rfl
    | _ => cases hb
  | obj ms =>
    cases b with
    | arr ys =>
      rw [deepEqualDocumentValue, ownEntries_arr, itemsFrom_length, ite_not]
      rfl
    | obj bs =>
      rw [deepEqualDocumentValue, ite_not]
      rfl
    | _ => cases hb
  | _ => cases ha

/-- `Object.prototype` can be compared with anything but `null`. -/
theorem deepEqualPrototype_error {a : Doc} {e : Err} :
    deepEqualPrototype a = .error e ↔ e = typeError ∧ a = .null := by
  cases a with
  | null => simp [deepEqualPrototype, eq_comm]
  | _ => simp [deepEqualPrototype]

/-- **Where the comparison comes to a `null` it throws.** -/
theorem MeetsNull.throws {a : Doc} {p : Property} (h : MeetsNull a p) :
    deepEqualProperty a p = .error typeError := by
  induction h with
  | @left b hb =>
    cases b with
    | arr xs => simp [deepEqualProperty, deepEqualDocumentValue]
    | obj ms => simp [deepEqualProperty, deepEqualDocumentValue]
    | _ => cases hb
  | inherited => rfl
  | @right a ha =>
    cases a with
    | arr xs => simp [deepEqualProperty, deepEqualDocumentValue]
    | obj ms => simp [deepEqualProperty, deepEqualDocumentValue]
    | _ => cases ha
  | entry ha hb hcount hentries hbefore _ ih =>
    show deepEqualDocumentValue _ _ = _
    rw [deepEqual_objects ha hb, if_pos hcount]
    exact deepEqualMembers_error.mpr ⟨_, _, _, _, hentries, hbefore, ih⟩

/-- **A comparison fails exactly where it comes to a `null`.** -/
theorem deepEqual_error {a : Doc} {p : Property} {e : Err} (h : deepEqualProperty a p = .error e) :
    MeetsNull a p := by
  cases p with
  | undefined => cases h
  | method name => cases h
  | objectPrototype =>
    obtain ⟨-, rfl⟩ := deepEqualPrototype_error.mp h
    exact .inherited
  | value b =>
    replace h : deepEqualDocumentValue a b = .error e := h
    by_cases ha : a.isObjectLike = true
    · by_cases hb : b.isObjectLike = true
      · rw [deepEqual_objects ha hb] at h
        split at h
        next hcount =>
          obtain ⟨before, key, x, after, hentries, hbefore, hx⟩ := deepEqualMembers_error.mp h
          have hsize : sizeOf x < sizeOf a :=
            ownEntries_sizeOf (p := (key, x)) (by rw [hentries]; simp)
          exact .entry ha hb hcount hentries hbefore (deepEqual_error hx)
        next => cases h
      · cases b with
        | null => exact .right ha
        | arr ys => exact absurd rfl hb
        | obj bs => exact absurd rfl hb
        | _ => cases a <;> simp [deepEqualDocumentValue] at h
    · cases a with
      | null =>
        cases b with
        | arr ys => exact .left rfl
        | obj bs => exact .left rfl
        | _ => simp [deepEqualDocumentValue] at h
      | arr xs => exact absurd rfl ha
      | obj ms => exact absurd rfl ha
      | _ => simp [deepEqualDocumentValue] at h
termination_by sizeOf a

/-- And nowhere else. -/
theorem ownOnly_deepEqual_iff {a b : Doc} :
    OwnOnly (deepEqualDocumentValue a b) ↔ ¬ MeetsNull a (.value b) := by
  constructor
  · intro h hnull
    have hthrows : deepEqualDocumentValue a b = .error typeError := hnull.throws
    rw [hthrows] at h
    exact not_ownOnly_typeError h
  · intro h e he
    exact absurd (deepEqual_error (p := .value b) he) h

/-- What is read of a value without `null` has none. -/
theorem readEntry_noNull {b : Doc} (hb : b.noNull = true) {key : JsString} {y : Doc}
    (h : readEntry b key = .value y) : y.noNull = true := by
  cases b with
  | obj ms => exact noNullMembers_mem hb (mem_of_lookup (readMember_value.mp h))
  | arr xs =>
    rw [readEntry] at h
    split at h
    next v hv =>
      cases h
      exact ownEntries_noNull hb (mem_of_lookup hv)
    next =>
      split at h
      · cases h
        rfl
      · exact absurd h (inherited_ne_value key y)
  | _ => cases h

/-- If the left operand has no `null`, the right one has it. -/
theorem MeetsNull.noNull_left {a : Doc} {p : Property} (h : MeetsNull a p) (ha : a.noNull = true) :
    ∃ b, p = .value b ∧ b.noNull = false := by
  induction h with
  | left => cases ha
  | inherited => cases ha
  | right => exact ⟨.null, rfl, rfl⟩
  | @entry a b x key before after _ _ _ hentries _ _ ih =>
    have hx : x.noNull = true := ownEntries_noNull (p := (key, x)) ha (by rw [hentries]; simp)
    obtain ⟨y, hy, hnull⟩ := ih hx
    refine ⟨b, rfl, Bool.eq_false_iff.mpr fun hb => ?_⟩
    rw [readEntry_noNull hb hy] at hnull
    cases hnull

/-- Values without `null` can always be compared. -/
theorem not_meetsNull_of_noNull {a b : Doc} (ha : a.noNull = true) (hb : b.noNull = true) :
    ¬ MeetsNull a (.value b) := by
  intro h
  obtain ⟨b', hb', hnull⟩ := h.noNull_left ha
  cases hb'
  rw [hb] at hnull
  cases hnull

/-! ## The satisfiability check -/

/-- The search of a set for `value` comes to a `null`: all members before are different. -/
def SearchMeetsNull (value : Doc) : List Doc → Prop
  | [] => False
  | m :: ms => MeetsNull value (.value m) ∨
      deepEqualDocumentValue value m = .ok false ∧ SearchMeetsNull value ms

/-- Searching one set after the other, as long as they have the value, comes to a `null`. -/
def SearchesMeetNull (value : Doc) : List (List Doc) → Prop
  | [] => False
  | set :: sets => SearchMeetsNull value set ∨ HasEqual value set ∧ SearchesMeetNull value sets

/-- Comparing further `eq` values with the first one comes to a `null`. -/
def EqsMeetNull (first : Doc) : List Doc → Prop
  | [] => False
  | v :: vs => MeetsNull first (.value v) ∨
      deepEqualDocumentValue first v = .ok true ∧ EqsMeetNull first vs

/-- Looking for the common members of the sets comes to a `null`. -/
def SetsMeetNull : List (List Doc) → Prop
  | [] => False
  | first :: sets => ∃ a ∈ first, SearchesMeetNull a sets

/-- **The check of a field comes to a `null`**, everything it looks at before having passed. -/
def GroupMeetsNull (E : Engine) (field : JsString) (g : FieldGroup) : Prop :=
  match g.eqs with
  | [] => assertInterval E field g = .ok () ∧ SetsMeetNull g.ins
  | eq :: rest => EqsMeetNull eq rest ∨
      ((∀ v ∈ rest, deepEqualDocumentValue eq v = .ok true) ∧
        assertInterval E field g = .ok () ∧ assertEqAboveLo E field eq g.lo = .ok () ∧
        assertEqBelowHi E field eq g.hi = .ok ()) ∧
      (SearchesMeetNull eq g.ins ∨ (∀ set ∈ g.ins, HasEqual eq set) ∧ SetsMeetNull g.ins)

/-- The same of the groups in their order. -/
def GroupsMeetNull (E : Engine) : List (JsString × FieldGroup) → Prop
  | [] => False
  | (field, g) :: groups => GroupMeetsNull E field g ∨
      assertGroup E field g = .ok () ∧ GroupsMeetNull E groups

/-- **The satisfiability check comes to a `null`.** -/
def CheckMeetsNull (E : Engine) (w : PredicateWire) : Prop :=
  ∃ groups, groupClauses E InsMap.empty w.clauses = .ok groups ∧ GroupsMeetNull E groups.entries

/-- The same of a search in a set. -/
theorem ownOnly_someEqual_iff {value : Doc} {set : List Doc} :
    OwnOnly (someEqual value set) ↔ ¬ SearchMeetsNull value set := by
  induction set with
  | nil => exact ⟨fun _ h => h, fun _ => ownOnly_ok _⟩
  | cons m set ih =>
    rw [someEqual_cons, ownOnly_bind_iff, ownOnly_deepEqual_iff, SearchMeetsNull, not_or]
    refine and_congr_right fun _ => ⟨fun h hnull => ?_, fun h found hfound => ?_⟩
    · exact ih.mp (h false hnull.1) hnull.2
    · cases found with
      | true => exact ownOnly_ok _
      | false => exact ih.mpr fun hnull => h ⟨hfound, hnull⟩

/-- A search that comes to no `null` has a result. -/
theorem someEqual_total {value : Doc} {set : List Doc} (h : ¬ SearchMeetsNull value set) :
    ∃ found, someEqual value set = .ok found := by
  induction set with
  | nil => exact ⟨false, rfl⟩
  | cons m set ih =>
    rw [SearchMeetsNull, not_or] at h
    rw [someEqual_cons]
    cases hm : deepEqualDocumentValue value m with
    | error e => exact absurd (deepEqual_error (p := .value m) hm) h.1
    | ok found =>
      cases found with
      | true => exact ⟨true, rfl⟩
      | false => exact ih fun hnull => h.2 ⟨hm, hnull⟩

/-- Of the equalities of a field. -/
theorem ownOnly_assertEqsAgree_iff {field : JsString} {first : Doc} {values : List Doc} :
    OwnOnly (assertEqsAgree E field first values) ↔ ¬ EqsMeetNull first values := by
  induction values with
  | nil => exact ⟨fun _ h => h, fun _ => ownOnly_ok _⟩
  | cons v values ih =>
    rw [assertEqsAgree, ownOnly_bind_iff, ownOnly_deepEqual_iff, EqsMeetNull, not_or]
    refine and_congr_right fun _ => ⟨fun h hnull => ?_, fun h found hfound => ?_⟩
    · exact ih.mp (h true hnull.1) hnull.2
    · cases found with
      | true => exact ih.mpr fun hnull => h ⟨hfound, hnull⟩
      | false => exact ownOnly_mk _ _

/-- Of an equality and the sets of its field. -/
theorem ownOnly_assertEqInSets_iff {field : JsString} {eq : Doc} {sets : List (List Doc)} :
    OwnOnly (assertEqInSets E field eq sets) ↔ ¬ SearchesMeetNull eq sets := by
  induction sets with
  | nil => exact ⟨fun _ h => h, fun _ => ownOnly_ok _⟩
  | cons set sets ih =>
    rw [assertEqInSets, ownOnly_bind_iff, ownOnly_someEqual_iff, SearchesMeetNull, not_or]
    refine and_congr_right fun _ => ⟨fun h hnull => ?_, fun h found hfound => ?_⟩
    · exact ih.mp (h true (someEqual_true.mpr hnull.1)) hnull.2
    · cases found with
      | true => exact ih.mpr fun hnull => h ⟨someEqual_true.mp hfound, hnull⟩
      | false => exact ownOnly_mk _ _

/-- Of one intersection. -/
theorem ownOnly_keepCommon_iff {set acc : List Doc} :
    OwnOnly (keepCommon set acc) ↔ ∀ a ∈ acc, ¬ SearchMeetsNull a set := by
  induction acc with
  | nil => exact ⟨fun _ a ha => absurd ha List.not_mem_nil, fun _ => ownOnly_ok _⟩
  | cons a acc ih =>
    rw [keepCommon, ownOnly_bind_iff, ownOnly_someEqual_iff, List.forall_mem_cons]
    refine and_congr_right fun hown => ?_
    rw [← ih]
    constructor
    · intro h
      obtain ⟨found, hfound⟩ := someEqual_total hown
      exact (ownOnly_bind_iff.mp (h found hfound)).1
    · intro h found _
      exact h.bind fun _ _ => ownOnly_ok _

/-- A filter that comes to no `null` has a result. -/
theorem keepCommon_total {set acc : List Doc} (h : ∀ a ∈ acc, ¬ SearchMeetsNull a set) :
    ∃ acc', keepCommon set acc = .ok acc' := by
  refine keepCommon_decided fun a ha => ?_
  obtain ⟨found, hfound⟩ := someEqual_total (h a ha)
  cases found with
  | true => exact .inr (someEqual_true.mp hfound)
  | false => exact .inl (someEqual_false.mp hfound)

/-- Of all intersections: what is left of the first set only shrinks. -/
theorem ownOnly_intersectInSets_iff {sets : List (List Doc)} : ∀ {acc : List Doc},
    OwnOnly (intersectInSets acc sets) ↔ ∀ a ∈ acc, ¬ SearchesMeetNull a sets := by
  induction sets with
  | nil => exact fun {acc} => ⟨fun _ _ _ h => h, fun _ => ownOnly_ok _⟩
  | cons set sets ih =>
    intro acc
    rw [intersectInSets, ownOnly_bind_iff, ownOnly_keepCommon_iff]
    constructor
    · rintro ⟨hkeep, hrest⟩ a ha hnull
      rw [SearchesMeetNull] at hnull
      rcases hnull with hnull | ⟨heq, hnull⟩
      · exact hkeep a ha hnull
      · obtain ⟨acc', hacc⟩ := keepCommon_total hkeep
        exact ih.mp (hrest acc' hacc) a (((keepCommon_ok hacc).2 a).mpr ⟨ha, heq⟩) hnull
    · intro h
      refine ⟨fun a ha hnull => h a ha (.inl hnull), fun acc' hacc => ih.mpr fun a ha hnull => ?_⟩
      obtain ⟨ha, heq⟩ := ((keepCommon_ok hacc).2 a).mp ha
      exact h a ha (.inr ⟨heq, hnull⟩)

/-- Of the sets of a field. -/
theorem ownOnly_assertSetsMeet_iff {field : JsString} {sets : List (List Doc)} :
    OwnOnly (assertSetsMeet field sets) ↔ ¬ SetsMeetNull sets := by
  rcases sets with _ | ⟨first, _ | ⟨second, rest⟩⟩
  · exact ⟨fun _ h => h, fun _ => ownOnly_ok _⟩
  · refine ⟨?_, fun _ => ownOnly_ok _⟩
    rintro - ⟨a, -, h⟩
    exact h
  · rw [assertSetsMeet, ownOnly_bind_iff, ownOnly_intersectInSets_iff]
    constructor
    · rintro ⟨h, -⟩ ⟨a, ha, hnull⟩
      exact h a ha hnull
    · exact fun h => ⟨fun a ha hnull => h ⟨a, ha, hnull⟩,
        fun isect _ => (ownOnly_mk _ _).ite (ownOnly_ok _)⟩

/-- Bounds are scalars, so no check of bounds throws. -/
theorem assertInterval_ownOnly {field : JsString} {g : FieldGroup} :
    OwnOnly (assertInterval E field g) := by
  unfold assertInterval
  split
  · exact (OwnOnly.ite (ownOnly_mk _ _) (ownOnly_ok _)).ite (ownOnly_ok _)
  · exact ownOnly_ok _

theorem assertEqAboveLo_ownOnly {field : JsString} {eq : Doc} {lo : Option Bound} :
    OwnOnly (assertEqAboveLo E field eq lo) := by
  cases lo with
  | none => exact ownOnly_ok _
  | some b => exact (ownOnly_mk _ _).ite ((ownOnly_mk _ _).ite (ownOnly_ok _))

theorem assertEqBelowHi_ownOnly {field : JsString} {eq : Doc} {hi : Option Bound} :
    OwnOnly (assertEqBelowHi E field eq hi) := by
  cases hi with
  | none => exact ownOnly_ok _
  | some b => exact (ownOnly_mk _ _).ite ((ownOnly_mk _ _).ite (ownOnly_ok _))

/-- The errors of two checks made one after the other. -/
theorem ownOnly_then_iff {x y : Except Err Unit} :
    OwnOnly (x >>= fun _ => y) ↔ OwnOnly x ∧ (x = .ok () → OwnOnly y) := by
  rw [ownOnly_bind_iff]
  exact and_congr_right fun _ => ⟨fun h hok => h () hok, fun h _ hok => h hok⟩

/-- **The check of a field** throws no foreign error iff it comes to no `null`. -/
theorem ownOnly_assertGroup_iff {field : JsString} {g : FieldGroup} :
    OwnOnly (assertGroup E field g) ↔ ¬ GroupMeetsNull E field g := by
  unfold assertGroup GroupMeetsNull
  cases heqs : g.eqs with
  | nil =>
    dsimp only
    rw [ownOnly_then_iff, and_iff_right assertInterval_ownOnly, ownOnly_assertSetsMeet_iff, not_and]
  | cons eq rest =>
    dsimp only
    rw [ownOnly_then_iff, ownOnly_then_iff, and_iff_right assertInterval_ownOnly, ownOnly_then_iff,
      and_iff_right assertEqAboveLo_ownOnly, ownOnly_then_iff, and_iff_right assertEqBelowHi_ownOnly,
      ownOnly_then_iff, ownOnly_assertEqsAgree_iff, assertEqsAgree_iff, ownOnly_assertEqInSets_iff,
      assertEqInSets_iff, ownOnly_assertSetsMeet_iff]
    tauto

/-- **The check of all groups** throws iff it comes to a `null` in one, all before having passed. -/
theorem ownOnly_assertGroups_iff {groups : List (JsString × FieldGroup)} :
    OwnOnly (assertGroups E groups) ↔ ¬ GroupsMeetNull E groups := by
  induction groups with
  | nil => exact ⟨fun _ h => h, fun _ => ownOnly_ok _⟩
  | cons p groups ih =>
    obtain ⟨field, g⟩ := p
    rw [assertGroups, ownOnly_then_iff, ownOnly_assertGroup_iff, ih, GroupsMeetNull, not_or, not_and]

theorem tightenLower_ownOnly {g : FieldGroup} {field : JsString} {v : Doc} {i : Bool} :
    OwnOnly (tightenLower E g field v i) := by
  unfold tightenLower
  split
  · exact ownOnly_ok _
  · exact (ownOnly_mk _ _).ite ((ownOnly_ok _).ite (ownOnly_ok _))

theorem tightenUpper_ownOnly {g : FieldGroup} {field : JsString} {v : Doc} {i : Bool} :
    OwnOnly (tightenUpper E g field v i) := by
  unfold tightenUpper
  split
  · exact ownOnly_ok _
  · exact (ownOnly_mk _ _).ite ((ownOnly_ok _).ite (ownOnly_ok _))

/-- Grouping throws nothing either. -/
theorem applyClause_ownOnly {g : FieldGroup} {c : PredicateClause} : OwnOnly (applyClause E g c) := by
  unfold applyClause
  cases c.op with
  | eq => exact ownOnly_ok _
  | «in» => exact ownOnly_ok _
  | gt => exact tightenLower_ownOnly
  | gte => exact tightenLower_ownOnly
  | lt => exact tightenUpper_ownOnly
  | lte => exact tightenUpper_ownOnly

/-- For no list of clauses. -/
theorem groupClauses_ownOnly {cs : List PredicateClause} : ∀ {groups : InsMap JsString FieldGroup},
    OwnOnly (groupClauses E groups cs) := by
  induction cs with
  | nil => exact ownOnly_ok _
  | cons c cs ih =>
    intro groups
    rw [groupClauses]
    cases hg : applyClause E ((groups.get c.field).getD .empty) c with
    | ok g => exact ih
    | error e => exact fun e' h => applyClause_ownOnly e' (by rw [hg]; cases h; rfl)

/-- **The satisfiability check** throws no foreign error iff it comes to no `null`. -/
theorem ownOnly_assertWireSatisfiable_iff {w : PredicateWire} :
    OwnOnly (assertWireSatisfiable E w) ↔ ¬ CheckMeetsNull E w := by
  rw [assertWireSatisfiable, ownOnly_bind_iff, and_iff_right groupClauses_ownOnly]
  simp only [ownOnly_assertGroups_iff, CheckMeetsNull, not_exists, not_and]

/-! ### Operands without `null` -/

/-- A search among values without `null` comes to none. -/
theorem not_searchMeetsNull {value : Doc} (hv : value.noNull = true) {set : List Doc}
    (hset : ∀ m ∈ set, m.noNull = true) : ¬ SearchMeetsNull value set := by
  induction set with
  | nil => exact fun h => h
  | cons m set ih =>
    rw [List.forall_mem_cons] at hset
    rintro (h | ⟨-, h⟩)
    · exact not_meetsNull_of_noNull hv hset.1 h
    · exact ih hset.2 h

/-- Nor does a search in several sets. -/
theorem not_searchesMeetNull {value : Doc} (hv : value.noNull = true) {sets : List (List Doc)}
    (hsets : ∀ set ∈ sets, ∀ m ∈ set, m.noNull = true) : ¬ SearchesMeetNull value sets := by
  induction sets with
  | nil => exact fun h => h
  | cons set sets ih =>
    rw [List.forall_mem_cons] at hsets
    rintro (h | ⟨-, h⟩)
    · exact not_searchMeetsNull hv hsets.1 h
    · exact ih hsets.2 h

/-- Nor do equalities. -/
theorem not_eqsMeetNull {first : Doc} (hf : first.noNull = true) {values : List Doc}
    (hvs : ∀ v ∈ values, v.noNull = true) : ¬ EqsMeetNull first values := by
  induction values with
  | nil => exact fun h => h
  | cons v values ih =>
    rw [List.forall_mem_cons] at hvs
    rintro (h | ⟨-, h⟩)
    · exact not_meetsNull_of_noNull hf hvs.1 h
    · exact ih hvs.2 h

/-- Nor do sets. -/
theorem not_setsMeetNull {sets : List (List Doc)}
    (hsets : ∀ set ∈ sets, ∀ m ∈ set, m.noNull = true) : ¬ SetsMeetNull sets := by
  cases sets with
  | nil => exact fun h => h
  | cons first sets =>
    rw [List.forall_mem_cons] at hsets
    rintro ⟨a, ha, h⟩
    exact not_searchesMeetNull (hsets.1 a ha) hsets.2 h

/-- The operands of a group have no `null` inside. -/
structure NullFree (g : FieldGroup) : Prop where
  eqs : ∀ v ∈ g.eqs, v.noNull = true
  ins : ∀ set ∈ g.ins, ∀ m ∈ set, m.noNull = true

/-- **A group without `null` is safe.** -/
theorem NullFree.not_groupMeetsNull {field : JsString} {g : FieldGroup} (hg : NullFree g) :
    ¬ GroupMeetsNull E field g := by
  unfold GroupMeetsNull
  cases heqs : g.eqs with
  | nil => exact fun h => not_setsMeetNull hg.ins h.2
  | cons eq rest =>
    have hall := hg.eqs
    rw [heqs, List.forall_mem_cons] at hall
    rintro (h | ⟨-, h | ⟨-, h⟩⟩)
    · exact not_eqsMeetNull hall.1 hall.2 h
    · exact not_searchesMeetNull hall.1 hg.ins h
    · exact not_setsMeetNull hg.ins h

/-- So are all groups. -/
theorem not_groupsMeetNull {groups : List (JsString × FieldGroup)}
    (h : ∀ p ∈ groups, NullFree p.2) : ¬ GroupsMeetNull E groups := by
  induction groups with
  | nil => exact fun h => h
  | cons p groups ih =>
    rw [List.forall_mem_cons] at h
    rintro (hnull | ⟨-, hnull⟩)
    · exact h.1.not_groupMeetsNull hnull
    · exact ih h.2 hnull

/-- The members of a set without `null` have none. -/
theorem inMembers_noNull {v : Doc} (h : v.noNull = true) : ∀ m ∈ inMembers v, m.noNull = true := by
  cases v with
  | arr xs => exact fun m hm => noNullList_mem h hm
  | _ => exact fun m hm => absurd hm List.not_mem_nil

/-- The check of a wire without `null` in its operands comes to none. -/
theorem not_checkMeetsNull {w : PredicateWire} (hok : ∀ c ∈ w.clauses, c.Ordered)
    (hnull : ∀ c ∈ w.clauses, c.value.noNull = true) : ¬ CheckMeetsNull E w := by
  rintro ⟨groups, hgroups, h⟩
  refine not_groupsMeetNull (fun p hp => ?_) h
  have hgroup := (groupClauses_ok hok groupsOk_nil hgroups p.1).1
  rw [InsMap.mem_entries.mp hp, Option.getD_some, List.nil_append] at hgroup
  have hvalue : ∀ c ∈ clausesOf p.1 w.clauses, c.value.noNull = true :=
    fun c hc => hnull c (mem_clausesOf.mp hc).1
  constructor
  · intro v hv
    rw [hgroup.eqs] at hv
    obtain ⟨c, hc, rfl⟩ := List.mem_map.mp hv
    exact hvalue c (List.mem_filter.mp hc).1
  · intro set hset
    rw [hgroup.ins] at hset
    obtain ⟨c, hc, rfl⟩ := List.mem_map.mp hset
    exact inMembers_noNull (hvalue c (List.mem_filter.mp hc).1)

/-! ## Matching -/

/-- An object or array without `null` in its entries has none. -/
theorem noNull_of_ownEntries {v : Doc} (hobj : v.isObjectLike = true)
    (h : ∀ p ∈ v.ownEntries, p.2.noNull = true) : v.noNull = true := by
  cases v with
  | arr xs =>
    rw [ownEntries_arr] at h
    have hitems : ∀ (xs : List Doc) (i : Nat), (∀ p ∈ itemsFrom i xs, p.2.noNull = true) →
        Json.noNullList xs = true := by
      intro xs
      induction xs with
      | nil => exact fun _ _ => rfl
      | cons x xs ih =>
        intro i h
        rw [itemsFrom, List.forall_mem_cons] at h
        rw [Json.noNullList, h.1, ih (i + 1) h.2]
        rfl
    exact hitems xs 0 h
  | obj ms =>
    have hmembers : ∀ ms : List (JsString × Doc), (∀ p ∈ ms, p.2.noNull = true) →
        Json.noNullMembers ms = true := by
      intro ms
      induction ms with
      | nil => exact fun _ => rfl
      | cons m ms ih =>
        intro h
        rw [List.forall_mem_cons] at h
        rw [Json.noNullMembers, h.1, ih h.2]
        rfl
    exact hmembers ms h
  | _ => cases hobj

mutual

/-- An operand up to its first `null`, which an object stands for. -/
def untilNull : Doc → Doc
  | .null => .obj []
  | .arr xs => .arr (untilNullItems xs)
  | .obj ms => .obj (untilNullMembers ms)
  | v => v

/-- The items up to the first `null` inside them. -/
def untilNullItems : List Doc → List Doc
  | [] => []
  | x :: xs => if x.noNull then x :: untilNullItems xs else [untilNull x]

/-- The members up to the first `null` inside them. -/
def untilNullMembers : List (JsString × Doc) → List (JsString × Doc)
  | [] => []
  | (key, x) :: ms => if x.noNull then (key, x) :: untilNullMembers ms else [(key, untilNull x)]

end

/-- Cutting a list at its `null` cuts its entries there. -/
theorem itemsFrom_untilNull (xs : List Doc) : ∀ i,
    itemsFrom i (untilNullItems xs) = untilNullMembers (itemsFrom i xs) := by
  induction xs with
  | nil => exact fun i => by rw [untilNullItems, itemsFrom, untilNullMembers]
  | cons x xs ih =>
    intro i
    rw [untilNullItems, itemsFrom, untilNullMembers]
    split
    · rw [itemsFrom, ih]
    · rw [itemsFrom, itemsFrom]

/-- So it is with an object or array. -/
theorem ownEntries_untilNull {v : Doc} (h : v.isObjectLike = true) :
    (untilNull v).isObjectLike = true ∧
      (untilNull v).ownEntries = untilNullMembers v.ownEntries := by
  cases v with
  | arr xs =>
    rw [untilNull, ownEntries_arr, ownEntries_arr, itemsFrom_untilNull]
    exact ⟨rfl, rfl⟩
  | obj ms =>
    rw [untilNull]
    exact ⟨rfl, rfl⟩
  | _ => cases h

/-- The walk over entries of which one has a `null` throws where the walk up to it succeeds. -/
theorem matchesMembers_untilNull {es : List (JsString × Doc)} {actual : Property}
    (hnull : ∃ p ∈ es, p.2.noNull = false)
    (heval : ∀ p ∈ es, p.2.noNull = false → matchesEq p.2 (actual.read p.1) =
      if matchesEq (untilNull p.2) (actual.read p.1) = .ok true then .error typeError
      else .ok false) :
    matchesMembers es actual = if matchesMembers (untilNullMembers es) actual = .ok true
      then .error typeError else .ok false := by
  induction es with
  | nil =>
    obtain ⟨p, hp, -⟩ := hnull
    cases hp
  | cons q es ih =>
    obtain ⟨key, x⟩ := q
    rw [List.forall_mem_cons] at heval
    rw [matchesMembers, untilNullMembers]
    by_cases hx : x.noNull = true
    · rw [if_pos hx, matchesMembers]
      obtain ⟨b, hb⟩ := matchesEq_total hx (actual.read key)
      rw [hb]
      cases b with
      | true =>
        refine ih ?_ heval.2
        obtain ⟨p, hp, hpnull⟩ := hnull
        rcases List.mem_cons.mp hp with rfl | hp
        · rw [hx] at hpnull
          cases hpnull
        · exact ⟨p, hp, hpnull⟩
      | false => simp
    · rw [if_neg hx, matchesMembers, matchesMembers, heval.1 (Bool.eq_false_iff.mpr hx)]
      by_cases hreach : matchesEq (untilNull x) (actual.read key) = .ok true
      · simp [hreach]
      · rw [if_neg hreach]
        dsimp only
        rw [if_neg]
        intro h
        split at h
        next heq => exact hreach heq
        next r hne => exact hreach h

/-- **Where an operand with a `null` throws**: where its part up to the `null` matches. -/
theorem matchesEq_untilNull {v : Doc} (hnull : v.noNull = false) (actual : Property) :
    matchesEq v actual = if matchesEq (untilNull v) actual = .ok true then .error typeError
      else .ok false := by
  by_cases hobj : v.isObjectLike = true
  · obtain ⟨hcut, hentries⟩ := ownEntries_untilNull hobj
    rw [matchesEq_body hobj, matchesEq_body hcut, hentries]
    split
    · refine matchesMembers_untilNull ?_ fun p hp hpnull => ?_
      · by_contra hnone
        refine Bool.eq_false_iff.mp hnull (noNull_of_ownEntries hobj fun p hp => ?_)
        exact Bool.not_eq_false _ ▸ fun hp' => hnone ⟨p, hp, hp'⟩
      · have hsize := ownEntries_sizeOf hp
        exact matchesEq_untilNull hpnull (actual.read p.1)
    · simp
  · cases v with
    | null =>
      rw [untilNull, matchesEq, matchesEq]
      split <;> simp [matchesMembers]
    | arr xs => exact absurd rfl hobj
    | obj ms => exact absurd rfl hobj
    | _ => cases hnull
termination_by sizeOf v

/-- Without a `null` nothing is cut off. -/
theorem untilNull_of_noNull {v : Doc} (h : v.noNull = true) : untilNull v = v := by
  have hitems : ∀ xs : List Doc, Json.noNullList xs = true → untilNullItems xs = xs := by
    intro xs
    induction xs with
    | nil => exact fun _ => by rw [untilNullItems]
    | cons x xs ih =>
      intro hxs
      rw [Json.noNullList, Bool.and_eq_true] at hxs
      rw [untilNullItems, if_pos hxs.1, ih hxs.2]
  have hmembers : ∀ ms : List (JsString × Doc), Json.noNullMembers ms = true →
      untilNullMembers ms = ms := by
    intro ms
    induction ms with
    | nil => exact fun _ => by rw [untilNullMembers]
    | cons m ms ih =>
      intro hms
      rw [Json.noNullMembers, Bool.and_eq_true] at hms
      rw [untilNullMembers, if_pos hms.1, ih hms.2]
  cases v with
  | arr xs => rw [untilNull, hitems xs h]
  | obj ms => rw [untilNull, hmembers ms h]
  | null => cases h
  | _ => simp [untilNull]

/-- The part up to the first `null` has none. -/
theorem untilNull_noNull (v : Doc) : (untilNull v).noNull = true := by
  by_cases hobj : v.isObjectLike = true
  · obtain ⟨hcut, hentries⟩ := ownEntries_untilNull hobj
    have hmembers : ∀ es : List (JsString × Doc), (∀ p ∈ es, (untilNull p.2).noNull = true) →
        ∀ p ∈ untilNullMembers es, p.2.noNull = true := by
      intro es
      induction es with
      | nil => exact fun _ p hp => by rw [untilNullMembers] at hp; cases hp
      | cons q es ih =>
        intro h p hp
        rw [List.forall_mem_cons] at h
        rw [untilNullMembers] at hp
        split at hp
        next hq =>
          rcases List.mem_cons.mp hp with rfl | hp
          · exact hq
          · exact ih h.2 p hp
        next =>
          rw [List.mem_singleton] at hp
          rw [hp]
          exact h.1
    refine noNull_of_ownEntries hcut ?_
    rw [hentries]
    refine hmembers v.ownEntries fun p hp => ?_
    have hsize := ownEntries_sizeOf hp
    exact untilNull_noNull p.2
  · cases v with
    | arr xs => exact absurd rfl hobj
    | obj ms => exact absurd rfl hobj
    | _ => rfl
termination_by sizeOf v

/-- **Matching an operand comes to a `null`**: it has one, and its part up to there matches. -/
def OperandMeetsNull (v : Doc) (actual : Property) : Prop :=
  v.noNull = false ∧ matchesEq (untilNull v) actual = .ok true

/-- The same of a set, whose members before do not match. -/
def MembersMeetNull : List Doc → Property → Prop
  | [], _ => False
  | m :: ms, actual => OperandMeetsNull m actual ∨
      matchesEq (untilNull m) actual = .ok false ∧ MembersMeetNull ms actual

/-- The same of a clause. -/
def ClauseMeetsNull (c : PredicateClause) (actual : Property) : Prop :=
  match c.op with
  | .eq => OperandMeetsNull c.value actual
  | .in => MembersMeetNull (inMembers c.value) actual
  | _ => False

/-- **Matching a document comes to a `null`**: the document satisfies the clauses before. -/
def MatchMeetsNull : List PredicateClause → Doc → Prop
  | [], _ => False
  | c :: cs, doc => ClauseMeetsNull c (lookupPath doc c.field) ∨
      matchesClause c (lookupPath doc c.field) = .ok true ∧ MatchMeetsNull cs doc

/-- **An equality evaluates** iff it comes to no `null`. -/
theorem matchesEq_ok_iff {v : Doc} {actual : Property} :
    (∃ b, matchesEq v actual = .ok b) ↔ ¬ OperandMeetsNull v actual := by
  cases hnull : v.noNull with
  | true => exact iff_of_true (matchesEq_total hnull actual) fun h => by simp [h.1] at hnull
  | false =>
    rw [OperandMeetsNull, matchesEq_untilNull hnull, and_iff_right hnull]
    by_cases hreach : matchesEq (untilNull v) actual = .ok true
    · simp [hreach]
    · rw [if_neg hreach]
      exact iff_of_true ⟨false, rfl⟩ hreach

/-- An operand fails to match where its part up to the first `null` does. -/
theorem matchesEq_false_iff {v : Doc} {actual : Property} :
    matchesEq v actual = .ok false ↔ matchesEq (untilNull v) actual = .ok false := by
  cases hnull : v.noNull with
  | true => rw [untilNull_of_noNull hnull]
  | false =>
    obtain ⟨b, hb⟩ := matchesEq_total (untilNull_noNull v) actual
    rw [matchesEq_untilNull hnull, hb]
    cases b <;> simp

/-- So does a set. -/
theorem matchesIn_ok_iff {ms : List Doc} {actual : Property} :
    (∃ b, matchesIn ms actual = .ok b) ↔ ¬ MembersMeetNull ms actual := by
  induction ms with
  | nil => exact ⟨fun _ h => h, fun _ => ⟨false, rfl⟩⟩
  | cons m ms ih =>
    rw [matchesIn, MembersMeetNull, not_or, ← matchesEq_ok_iff, ← matchesEq_false_iff]
    cases hm : matchesEq m actual with
    | error e => simp
    | ok b =>
      cases b with
      | true => simp
      | false => simpa using ih

/-- **When a clause gives a boolean.** -/
theorem matchesClause_ok_iff {c : PredicateClause} {actual : Property} :
    (∃ b, matchesClause c actual = .ok b) ↔ ¬ ClauseMeetsNull c actual := by
  unfold matchesClause ClauseMeetsNull
  cases c.op with
  | eq => exact matchesEq_ok_iff
  | «in» => exact matchesIn_ok_iff
  | _ => exact iff_of_true ⟨_, rfl⟩ fun h => h

/-- **When a wire gives a boolean on a document.** -/
theorem matchesClauses_ok_iff {cs : List PredicateClause} {doc : Doc} :
    (∃ b, matchesClauses cs doc = .ok b) ↔ ¬ MatchMeetsNull cs doc := by
  induction cs with
  | nil => exact ⟨fun _ h => h, fun _ => ⟨true, rfl⟩⟩
  | cons c cs ih =>
    rw [matchesClauses, MatchMeetsNull, not_or, ← matchesClause_ok_iff]
    cases hc : matchesClause c (lookupPath doc c.field) with
    | error e => simp
    | ok b =>
      cases b with
      | true => simpa using ih
      | false => simp

/-- Matching operands without `null` comes to none. -/
theorem not_matchMeetsNull {cs : List PredicateClause} (hnull : ∀ c ∈ cs, c.value.noNull = true)
    (doc : Doc) : ¬ MatchMeetsNull cs doc := by
  have hoperand : ∀ {m : Doc} {actual : Property}, m.noNull = true →
      ¬ OperandMeetsNull m actual := fun hm h => by simp [hm, OperandMeetsNull] at h
  have hmembers : ∀ {ms : List Doc} {actual : Property}, (∀ m ∈ ms, m.noNull = true) →
      ¬ MembersMeetNull ms actual := by
    intro ms actual hms
    induction ms with
    | nil => exact fun h => h
    | cons m ms ih =>
      rw [List.forall_mem_cons] at hms
      rintro (h | ⟨-, h⟩)
      · exact hoperand hms.1 h
      · exact ih hms.2 h
  induction cs with
  | nil => exact fun h => h
  | cons c cs ih =>
    rw [List.forall_mem_cons] at hnull
    rintro (h | ⟨-, h⟩)
    · unfold ClauseMeetsNull at h
      split at h
      next => exact hoperand hnull.1 h
      next => exact hmembers (inMembers_noNull hnull.1) h
      next => exact h
    · exact ih hnull.2 h

/-! ## The clause checks -/

/-- The check of set members refuses with the library's error. -/
theorem validateMembers_ownOnly {field : JsString} {index : Nat} {values : List Doc} :
    ∀ {i : Nat}, OwnOnly (validateMembers field index i values) := by
  induction values with
  | nil => exact ownOnly_ok _
  | cons v values ih =>
    intro i
    rw [validateMembers]
    refine OwnOnly.bind ?_ fun _ _ => ih
    cases v with
    | null => exact ownOnly_mk _ _
    | arr xs => exact ownOnly_mk _ _
    | _ => exact ownOnly_ok _

/-- So does the check of a clause. -/
theorem validateClause_ownOnly {c : PredicateClause} {i : Nat} : OwnOnly (validateClause c i) := by
  obtain ⟨op, field, value, hwf⟩ := c
  unfold validateClause
  refine (ownOnly_mk _ _).ite ((ownOnly_mk _ _).ite ?_)
  cases op <;> cases value <;>
    first
    | exact ownOnly_mk _ _
    | exact ownOnly_ok _
    | exact (ownOnly_mk _ _).ite validateMembers_ownOnly

namespace Raw

/-- An accepted clause has passed its checks. -/
theorem validateClause_ok {clause : Doc} {hwf : clause.wf = true} {i : Nat} {c : PredicateClause}
    (h : validateClause E clause hwf i = .ok c) : Baerly.validateClause c i = .ok () := by
  unfold validateClause at h
  split at h
  next => cases h
  next =>
    split at h
    next => cases h
    next op _ =>
      split at h
      next field _ =>
        split at h
        next value hvalue =>
          split at h
          next hcheck =>
            cases h
            exact hcheck
          next => cases h
        next => cases h
      next => cases h

theorem validateClause_ownOnly {clause : Doc} {hwf : clause.wf = true} {i : Nat} :
    OwnOnly (validateClause E clause hwf i) := by
  unfold validateClause
  refine (ownOnly_mk _ _).ite ?_
  split
  next => exact ownOnly_mk _ _
  next op _ =>
    split
    next field _ =>
      split
      next value hvalue =>
        split
        next => exact ownOnly_ok _
        next e hcheck =>
          intro e' h
          cases h
          exact Baerly.validateClause_ownOnly _ hcheck
      next =>
        unfold rejectUndefined undefinedValue
        intro e h
        cases h
        split
        · rfl
        · split
          · rfl
          · cases op <;> rfl
    next => exact ownOnly_mk _ _

/-- Each clause of a validated list has passed its own check. -/
theorem validateClauses_ok {clauses : List Doc} : ∀ {i : Nat} {hwf : Json.wfList clauses = true}
    {cs : List PredicateClause}, validateClauses E i clauses hwf = .ok cs →
    ∀ c ∈ cs, ∃ j, Baerly.validateClause c j = .ok () := by
  induction clauses with
  | nil =>
    intro i hwf cs h c hc
    cases h
    cases hc
  | cons clause clauses ih =>
    intro i hwf cs h c hc
    rw [validateClauses] at h
    obtain ⟨first, hfirst, h⟩ := except_bind_ok h
    obtain ⟨rest, hrest, h⟩ := except_bind_ok h
    cases h
    rcases List.mem_cons.mp hc with rfl | hc
    · exact ⟨i, validateClause_ok hfirst⟩
    · exact ih hrest c hc

theorem validateClauses_ownOnly {clauses : List Doc} : ∀ {i : Nat}
    {hwf : Json.wfList clauses = true}, OwnOnly (validateClauses E i clauses hwf) := by
  induction clauses with
  | nil => exact ownOnly_ok _
  | cons clause clauses ih =>
    intro i hwf
    rw [validateClauses]
    exact validateClause_ownOnly.bind fun _ _ => ih.bind fun _ _ => ownOnly_ok _

/-- The clauses of a wire, if each passes its own checks. -/
def ClausesPass (E : Engine) (wire : Doc) (cs : List PredicateClause) : Prop :=
  ∃ clauses, wire.member (js "clauses") = some (.arr clauses) ∧
    ∃ hwf : Json.wfList clauses = true, validateClauses E 0 clauses hwf = .ok cs

/-- A wire whose clauses do not all pass is refused with an error of the library's own. -/
theorem validateWire_refused {wire : Doc} {hwf : wire.wf = true}
    (h : ¬ ∃ cs, ClausesPass E wire cs) :
    OwnOnly (validateWire E wire hwf) ∧ ∀ w, validateWire E wire hwf ≠ .ok w := by
  unfold validateWire
  split
  next clauses hclauses =>
    cases hcs : validateClauses E 0 clauses (items_wf hwf hclauses) with
    | ok cs => exact absurd ⟨cs, clauses, hclauses, _, hcs⟩ h
    | error e =>
      have hown : OwnOnly (validateClauses E 0 clauses (items_wf hwf hclauses)) :=
        validateClauses_ownOnly
      exact ⟨fun e' he => hown e' (by rw [hcs]; cases he; rfl), fun w hw => (by cases hw)⟩
  next => exact ⟨ownOnly_mk _ _, fun w hw => (by cases hw)⟩

/-- What is left to check of a wire whose clauses pass. -/
theorem validateWire_passed {wire : Doc} {hwf : wire.wf = true} {cs : List PredicateClause}
    (h : ClausesPass E wire cs) :
    validateWire E wire hwf = (assertWireSatisfiable E ⟨cs⟩ >>= fun _ => .ok ⟨cs⟩) := by
  obtain ⟨clauses, hclauses, hitems, hcs⟩ := h
  unfold validateWire
  split
  next clauses' hclauses' =>
    cases hclauses.symm.trans hclauses'
    rw [hcs]
    rfl
  next hne => exact absurd hclauses (hne clauses)

/-- Then its bounds are ordered values. -/
theorem ClausesPass.ordered {wire : Doc} {cs : List PredicateClause}
    (h : ClausesPass E wire cs) : ∀ c ∈ cs, c.Ordered := by
  obtain ⟨clauses, -, hitems, hcs⟩ := h
  intro c hc
  obtain ⟨j, hcheck⟩ := validateClauses_ok hcs c hc
  exact (Baerly.validateClause_ok hcheck).ordered

/-- What it means for a wire to be safe: nothing but the library's errors, and an accepted
    wire gives a boolean on every document. -/
def Safe (E : Engine) (wire : Doc) (hwf : wire.wf = true) : Prop :=
  OwnOnly (validateWire E wire hwf) ∧ ∀ w, validateWire E wire hwf = .ok w →
    OwnOnly (assertWireSatisfiable E w) ∧ ∀ doc, doc.wf = true → ∃ b, matchesWire w doc = .ok b

/-- **A wire is safe** iff neither the check nor the matching of its clauses comes to a `null`. -/
theorem safe_iff {wire : Doc} {hwf : wire.wf = true} :
    Safe E wire hwf ↔ ∀ cs, ClausesPass E wire cs →
      ¬ CheckMeetsNull E ⟨cs⟩ ∧ (assertWireSatisfiable E ⟨cs⟩ = .ok () →
        ∀ doc, doc.wf = true → ¬ MatchMeetsNull cs doc) := by
  by_cases hpass : ∃ cs, ClausesPass E wire cs
  · obtain ⟨cs, hcs⟩ := hpass
    have honly : ∀ cs', ClausesPass E wire cs' → cs' = cs := by
      rintro cs' ⟨clauses', h', hitems', hcs'⟩
      obtain ⟨clauses, h, hitems, hcs⟩ := hcs
      cases h.symm.trans h'
      rw [hcs] at hcs'
      cases hcs'
      rfl
    rw [Safe, validateWire_passed hcs, ownOnly_bind_iff]
    constructor
    · rintro ⟨⟨hcheck, -⟩, haccepted⟩ cs' hcs'
      rw [honly cs' hcs']
      refine ⟨ownOnly_assertWireSatisfiable_iff.mp hcheck, fun hsat doc hdoc => ?_⟩
      rw [hsat] at haccepted
      exact matchesClauses_ok_iff.mp ((haccepted ⟨cs⟩ rfl).2 doc hdoc)
    · intro h
      obtain ⟨hcheck, hmatch⟩ := h cs hcs
      have hown := ownOnly_assertWireSatisfiable_iff.mpr hcheck
      refine ⟨⟨hown, fun _ _ => ownOnly_ok _⟩, fun w hw => ?_⟩
      obtain ⟨_, hsat, hw⟩ := except_bind_ok hw
      cases hw
      exact ⟨hown, fun doc hdoc => matchesClauses_ok_iff.mpr (hmatch hsat doc hdoc)⟩
  · obtain ⟨hown, hrefused⟩ := validateWire_refused hpass
    exact iff_of_true ⟨hown, fun w hw => absurd hw (hrefused w)⟩
      fun cs hcs => absurd ⟨cs, hcs⟩ hpass

/-- Operands without `null` are safe. -/
theorem safe_of_noNull {wire : Doc} {hwf : wire.wf = true}
    (h : ∀ cs, ClausesPass E wire cs → ∀ c ∈ cs, c.value.noNull = true) :
    Safe E wire hwf :=
  safe_iff.mpr fun cs hcs => ⟨not_checkMeetsNull hcs.ordered (h cs hcs),
    fun _ doc _ => not_matchMeetsNull (h cs hcs) doc⟩

end Raw

/-! ## Reaching a `null` -/

mutual

/-- A document's value that matches all of an operand, with an object where the operand has a
    `null`. -/
def filled : Doc → Doc
  | .null => .obj []
  | .arr xs => .obj (filledItems 0 xs)
  | .obj ms => .obj (filledMembers ms)
  | v => v

/-- The items, each filled. -/
def filledItems (i : Nat) : List Doc → List (JsString × Doc)
  | [] => []
  | x :: xs => (js (toString i), filled x) :: filledItems (i + 1) xs

/-- The members, each filled. -/
def filledMembers : List (JsString × Doc) → List (JsString × Doc)
  | [] => []
  | (key, v) :: ms => (key, filled v) :: filledMembers ms

end

/-- Items are filled one by one. -/
theorem filledItems_eq (xs : List Doc) : ∀ i,
    filledItems i xs = (itemsFrom i xs).map fun p => (p.1, filled p.2) := by
  induction xs with
  | nil => exact fun i => by rw [filledItems, itemsFrom, List.map_nil]
  | cons x xs ih => exact fun i => by rw [filledItems, ih, itemsFrom, List.map_cons]

/-- So are members. -/
theorem filledMembers_eq (ms : List (JsString × Doc)) :
    filledMembers ms = ms.map fun p => (p.1, filled p.2) := by
  induction ms with
  | nil => rw [filledMembers, List.map_nil]
  | cons m ms ih => rw [filledMembers, ih, List.map_cons]

/-- The entries of a composite value, filled. -/
theorem filled_composite {v : Doc} (h : v.isObjectLike = true) :
    filled v = .obj (v.ownEntries.map fun p => (p.1, filled p.2)) := by
  cases v with
  | arr xs => rw [filled, filledItems_eq, ownEntries_arr]
  | obj ms => rw [filled, filledMembers_eq]; rfl
  | _ => cases h

/-- Filling keeps the keys. -/
theorem map_fst_filled (es : List (JsString × Doc)) :
    (es.map fun p => (p.1, filled p.2)).map Prod.fst = es.map Prod.fst := by
  rw [List.map_map]
  rfl

theorem filled_wf {v : Doc} (h : v.wf = true) : (filled v).wf = true := by
  by_cases hobj : v.isObjectLike = true
  · rw [filled_composite hobj, Json.wf, Bool.and_eq_true, decide_eq_true_eq, map_fst_filled]
    refine ⟨ownEntries_nodup h, wfMembers_of_forall fun m hm => ?_⟩
    obtain ⟨p, hp, rfl⟩ := List.mem_map.mp hm
    have hsize := ownEntries_sizeOf hp
    exact filled_wf (ownEntries_wf h hp)
  · cases v with
    | arr xs => exact absurd rfl hobj
    | obj ms => exact absurd rfl hobj
    | null => rfl
    | _ => simpa only [filled] using h
termination_by sizeOf v

/-- A member before the `null` is one of the value's, itself cut. -/
theorem mem_untilNullMembers {es : List (JsString × Doc)} {q : JsString × Doc}
    (h : q ∈ untilNullMembers es) : ∃ p ∈ es, q = (p.1, untilNull p.2) := by
  induction es with
  | nil =>
    rw [untilNullMembers] at h
    cases h
  | cons p es ih =>
    rw [untilNullMembers] at h
    split at h
    next hp =>
      rcases List.mem_cons.mp h with rfl | h
      · exact ⟨p, List.mem_cons_self, by rw [untilNull_of_noNull hp]⟩
      · obtain ⟨p', hp', hq⟩ := ih h
        exact ⟨p', List.mem_cons_of_mem p hp', hq⟩
    next =>
      rw [List.mem_singleton] at h
      exact ⟨p, List.mem_cons_self, h⟩

/-- **The `null` of an operand is reached** on the operand's own filled shape. -/
theorem matchesEq_filled {v : Doc} (hwf : v.wf = true) :
    matchesEq (untilNull v) (.value (filled v)) = .ok true := by
  by_cases hobj : v.isObjectLike = true
  · obtain ⟨hcut, hentries⟩ := ownEntries_untilNull hobj
    have hnodup : ((v.ownEntries.map fun p => (p.1, filled p.2)).map Prod.fst).Nodup := by
      rw [map_fst_filled]
      exact ownEntries_nodup hwf
    rw [matchesEq_composite hcut, filled_composite hobj, hentries]
    refine ⟨rfl, fun q hq => ?_⟩
    obtain ⟨p, hp, rfl⟩ := mem_untilNullMembers hq
    have hsize := ownEntries_sizeOf hp
    have hlook := lookup_of_mem hnodup (List.mem_map.mpr ⟨p, hp, rfl⟩)
    rw [Property.read_obj, readMember_own hlook]
    exact matchesEq_filled (ownEntries_wf hwf hp)
  · cases v with
    | arr xs => exact absurd rfl hobj
    | obj ms => exact absurd rfl hobj
    | _ => simp [filled, untilNull, matchesEq, matchesMembers]
termination_by sizeOf v

/-- A document with `v` at a path and nothing else. -/
def docAt : List JsString → Doc → Doc
  | [], v => v
  | seg :: segs, v => .obj [(seg, docAt segs v)]

/-- A document built for a path holds its value there. -/
theorem lookupSegments_docAt (path : List JsString) (v : Doc) :
    lookupSegments path (.value (docAt path v)) = .value v := by
  induction path with
  | nil => rfl
  | cons seg path ih =>
    have hlook : [(seg, docAt path v)].lookup seg = some (docAt path v) := by
      rw [List.lookup_cons, beq_self_eq_true]
    rw [docAt, lookupSegments, if_pos (Property.isPlainObject_obj _), Property.read_obj,
      readMember_own hlook]
    exact ih

theorem docAt_wf (path : List JsString) {v : Doc} (h : v.wf = true) : (docAt path v).wf = true := by
  induction path with
  | nil => exact h
  | cons seg path ih => simp [docAt, Json.wf, Json.wfMembers, ih]

namespace Raw

/-- A clause as it is sent. -/
def clauseOf (op : PredicateOp) (field : JsString) (value : Doc) : Doc :=
  .obj [(js "op", .str (js op.name)), (js "field", .str field), (js "value", value)]

/-- A wire of one clause as it is sent. -/
def wireOf (op : PredicateOp) (field : JsString) (value : Doc) : Doc :=
  .obj [(js "clauses", .arr [clauseOf op field value])]

/-- A clause as JSON is well formed if its value is. -/
theorem clauseOf_wf (op : PredicateOp) (field : JsString) {value : Doc} (h : value.wf = true) :
    (clauseOf op field value).wf = true := by
  simp only [clauseOf, Json.wf, Json.wfMembers, h, Bool.and_true, List.map_cons, List.map_nil]
  decide

/-- So is a wire of one clause. -/
theorem wireOf_wf (op : PredicateOp) (field : JsString) {value : Doc} (h : value.wf = true) :
    (wireOf op field value).wf = true := by
  simp only [wireOf, Json.wf, Json.wfMembers, Json.wfList, clauseOf_wf op field h, Bool.and_true,
    List.map_cons, List.map_nil]
  decide

/-- Every operator is read from its name. -/
theorem opOf_name (op : PredicateOp) : opOf (some (.str (js op.name))) = some op := by
  cases op <;> decide

/-- A clause sent as JSON is read as the clause it is. -/
theorem validateClause_clauseOf (op : PredicateOp) (field : JsString) {value : Doc}
    (h : value.wf = true) (hwf : (clauseOf op field value).wf = true) (i : Nat)
    (hok : Baerly.validateClause ⟨op, field, value, h⟩ i = .ok ()) :
    validateClause E (clauseOf op field value) hwf i = .ok ⟨op, field, value, h⟩ := by
  have hop : (clauseOf op field value).member (js "op") = some (.str (js op.name)) := rfl
  have hfield : (clauseOf op field value).member (js "field") = some (.str field) := rfl
  have hvalue : (clauseOf op field value).member (js "value") = some value := rfl
  unfold validateClause
  rw [if_neg (by simp [clauseOf, Json.isObjectLike]), hop, opOf_name, hfield]
  dsimp only
  split
  next u hu =>
    cases hvalue.symm.trans hu
    rw [hok]
  next hu => cases hvalue.symm.trans hu

/-- A list of one clause passes if the clause does. -/
theorem validateClauses_single {clause : Doc} {c : PredicateClause} {i : Nat}
    {hwf : Json.wfList [clause] = true}
    (h : validateClause E clause (wfList_head hwf) i = .ok c) :
    validateClauses E i [clause] hwf = .ok [c] := by
  rw [validateClauses, h]
  rfl

/-- Its clause has passed its check either way. -/
theorem clausesPass_wireOf (op : PredicateOp) (field : JsString) {value : Doc}
    (h : value.wf = true) (hok : Baerly.validateClause ⟨op, field, value, h⟩ 0 = .ok ()) :
    ClausesPass E (wireOf op field value) [⟨op, field, value, h⟩] := by
  have hclauses : (wireOf op field value).member (js "clauses") =
      some (.arr [clauseOf op field value]) := rfl
  exact ⟨_, hclauses, items_wf (wireOf_wf op field h) hclauses,
    validateClauses_single (validateClause_clauseOf op field h _ 0 hok)⟩

/-- An accepted clause that comes to a `null` on some value makes its wire unsafe. -/
theorem unsafe_of_meetsNull (op : PredicateOp) (field : JsString) {value u : Doc}
    (h : value.wf = true) (hu : u.wf = true)
    (hok : Baerly.validateClause ⟨op, field, value, h⟩ 0 = .ok ())
    (hsat : assertWireSatisfiable E ⟨[⟨op, field, value, h⟩]⟩ = .ok ())
    (hnull : ClauseMeetsNull ⟨op, field, value, h⟩ (.value u)) :
    ¬ Safe E (wireOf op field value) (wireOf_wf op field h) := by
  rw [safe_iff]
  intro hsafe
  refine (hsafe _ (clausesPass_wireOf op field h hok)).2 hsat (docAt (splitDots field) u)
    (docAt_wf _ hu) (.inl ?_)
  rw [lookupPath_eq, lookupSegments_docAt]
  exact hnull

/-- **When a wire that a client sends is safe.**  It is exactly when, its clauses having passed
    their checks, the satisfiability check comes to no `null` and, if it accepts the wire, no
    document brings matching to one.  Operands without `null` are safe; an object with a `null`
    inside, sent as the value of an `eq` clause or as the one member of an `in` clause, is
    accepted and is not. -/
theorem raw_wire_safe (E : Engine) :
    (∀ (wire : Doc) (hwf : wire.wf = true), Safe E wire hwf ↔ ∀ cs, ClausesPass E wire cs →
      ¬ CheckMeetsNull E ⟨cs⟩ ∧ (assertWireSatisfiable E ⟨cs⟩ = .ok () →
        ∀ doc, doc.wf = true → ¬ MatchMeetsNull cs doc)) ∧
    (∀ (wire : Doc) (hwf : wire.wf = true), (∀ cs, ClausesPass E wire cs →
      ∀ c ∈ cs, c.value.noNull = true) → Safe E wire hwf) ∧
    ∀ (field : JsString) (ms : List (JsString × Doc)) (hwf : (Json.obj ms).wf = true),
      field ≠ [] → isIdField field = false → (Json.obj ms).noNull = false →
      ¬ Safe E (wireOf .eq field (.obj ms)) (wireOf_wf .eq field hwf) ∧
      ∃ hset : (Json.arr [Json.obj ms]).wf = true,
        ¬ Safe E (wireOf .in field (.arr [.obj ms])) (wireOf_wf .in field hset) := by
  refine ⟨fun wire hwf => safe_iff, fun wire hwf => safe_of_noNull, ?_⟩
  intro field ms hwf hfield hid hnull
  have hreach : OperandMeetsNull (.obj ms) (.value (filled (.obj ms))) :=
    ⟨hnull, matchesEq_filled hwf⟩
  have hset : (Json.arr [Json.obj ms]).wf = true := by
    rw [Json.wf, Json.wfList, hwf]
    rfl
  refine ⟨unsafe_of_meetsNull .eq field hwf (filled_wf hwf) ?_ rfl hreach, hset,
    unsafe_of_meetsNull .in field hset (filled_wf hwf) ?_ rfl (.inl hreach)⟩
  · simp only [Baerly.validateClause, if_neg hfield, hid, Bool.false_eq_true, if_false]
    rfl
  · simp only [Baerly.validateClause, if_neg hfield, hid, Bool.false_eq_true, if_false]
    rfl

/-- A boolean operand is safe; an object with a `null` is not. -/
theorem raw_wire_safe_flag :
    Safe ⟨fun _ => "", fun _ _ => .ok false⟩ (wireOf .eq (js "x") (.bool true)) rfl ∧
    ¬ Safe ⟨fun _ => "", fun _ _ => .ok false⟩
      (wireOf .eq (js "x") (.obj [(js "a", .null)])) rfl := by
  refine ⟨(raw_wire_safe _).2.1 _ _ fun cs hcs => ?_, ?_⟩
  · obtain ⟨clauses, hclauses, hitems, hcs⟩ := hcs
    cases hclauses
    cases hcs
    intro c hc
    rw [List.mem_singleton.mp hc]
    rfl
  · exact ((raw_wire_safe _).2.2 (js "x") [(js "a", .null)] rfl (by decide) rfl rfl).1

/-- `{ clauses: [{ op: "eq", field: "x", value: { a: null } }] }` is accepted and throws on
    `{ x: { a: {} } }`; with a second clause `x = { a: {} }` the validator throws. -/
theorem nested_null_throws :
    (∃ w, validateWire ⟨fun _ => "", fun _ _ => .ok false⟩
        (wireOf .eq (js "x") (.obj [(js "a", .null)])) rfl = .ok w ∧
      matchesWire w (.obj [(js "x", .obj [(js "a", .obj [])])]) = .error typeError) ∧
    validateWire ⟨fun _ => "", fun _ _ => .ok false⟩
      (.obj [(js "clauses", .arr [clauseOf .eq (js "x") (.obj [(js "a", .null)]),
        clauseOf .eq (js "x") (.obj [(js "a", .obj [])])])]) rfl = .error typeError :=
  ⟨⟨_, rfl, rfl⟩, rfl⟩

end Raw

end Baerly
