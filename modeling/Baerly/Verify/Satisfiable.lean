import Baerly.Query.Normalize
import Baerly.Verify.Predicate

/-
  When a rejected wire matches nothing.

  SPEC: a wire that some document satisfies passes the check exactly when its operands agree
  (`WireAgrees`): the `eq` values of a field equal the first one, which is in every `in` set, and
  the `in` sets have a member in common.  The bounds are never the reason (`group_checks_iff`).

  CRUX: a document that meets every bound of a field meets the tightest one, so no bound is
  rejected (`groupClauses_met`); what is left of the check compares operands with
  `deepEqualDocumentValue`, which is closed-world where matching is not.
-/

namespace Baerly

variable {E : Engine}

/-! ## Searching a set -/

/-- The search of `set` finds a member equal to `value` before a comparison throws. -/
def HasEqual (value : Doc) (set : List Doc) : Prop :=
  ∃ before m after, set = before ++ m :: after ∧
    (∀ x ∈ before, deepEqualDocumentValue value x = .ok false) ∧
    deepEqualDocumentValue value m = .ok true

/-- The search finds none, and no comparison throws. -/
def HasNone (value : Doc) (set : List Doc) : Prop :=
  ∀ x ∈ set, deepEqualDocumentValue value x = .ok false

/-- A search stops at the first member that is equal. -/
theorem someEqual_cons (value m : Doc) (ms : List Doc) : someEqual value (m :: ms) =
    (deepEqualDocumentValue value m >>= fun found =>
      if found then .ok true else someEqual value ms) := by
  rw [someEqual]

/-- It succeeds iff there is an equal member before it throws. -/
theorem someEqual_true {value : Doc} {set : List Doc} :
    someEqual value set = .ok true ↔ HasEqual value set := by
  induction set with
  | nil =>
    constructor
    · intro h
      cases h
    · rintro ⟨before, m, after, h, _⟩
      cases before <;> cases h
  | cons x set ih =>
    rw [someEqual_cons]
    constructor
    · intro h
      obtain ⟨found, hx, h⟩ := except_bind_ok h
      cases found with
      | true => exact ⟨[], x, set, rfl, fun y hy => absurd hy List.not_mem_nil, hx⟩
      | false =>
        obtain ⟨before, m, after, rfl, hbefore, hm⟩ := ih.mp h
        refine ⟨x :: before, m, after, rfl, fun y hy => ?_, hm⟩
        rcases List.mem_cons.mp hy with rfl | hy
        · exact hx
        · exact hbefore y hy
    · rintro ⟨before, m, after, heq, hbefore, hm⟩
      cases before with
      | nil =>
        cases heq
        rw [hm]
        rfl
      | cons y before =>
        cases heq
        rw [hbefore _ List.mem_cons_self]
        exact ih.mpr ⟨before, m, after, rfl,
          fun z hz => hbefore z (List.mem_cons_of_mem _ hz), hm⟩

/-- It fails iff all members are different. -/
theorem someEqual_false {value : Doc} {set : List Doc} :
    someEqual value set = .ok false ↔ HasNone value set := by
  induction set with
  | nil => exact ⟨fun _ x hx => absurd hx List.not_mem_nil, fun _ => rfl⟩
  | cons x set ih =>
    rw [someEqual_cons]
    constructor
    · intro h
      obtain ⟨found, hx, h⟩ := except_bind_ok h
      cases found with
      | true => cases h
      | false =>
        intro y hy
        rcases List.mem_cons.mp hy with rfl | hy
        · exact hx
        · exact ih.mp h y hy
    · intro h
      rw [h x List.mem_cons_self]
      exact ih.mpr fun y hy => h y (List.mem_cons_of_mem _ hy)

/-! ## The sets of a field -/

/-- Searching the sets for `value` one after the other, until one lacks it, throws nowhere. -/
def Searchable (value : Doc) : List (List Doc) → Prop
  | [] => True
  | set :: sets => HasNone value set ∨ HasEqual value set ∧ Searchable value sets

/-- It does not do both. -/
theorem not_hasNone {value : Doc} {set : List Doc} (h : HasEqual value set) :
    ¬ HasNone value set := by
  intro hnone
  have htrue := someEqual_true.mpr h
  rw [someEqual_false.mpr hnone] at htrue
  cases htrue

/-- What is left of the members of `acc` by one set. -/
theorem keepCommon_ok {set : List Doc} : ∀ {acc acc' : List Doc}, keepCommon set acc = .ok acc' →
    (∀ a ∈ acc, HasNone a set ∨ HasEqual a set) ∧ ∀ a, a ∈ acc' ↔ a ∈ acc ∧ HasEqual a set := by
  intro acc
  induction acc with
  | nil =>
    intro acc' h
    cases h
    exact ⟨fun a ha => absurd ha List.not_mem_nil, fun a => by simp⟩
  | cons x acc ih =>
    intro acc' h
    rw [keepCommon] at h
    obtain ⟨found, hx, h⟩ := except_bind_ok h
    obtain ⟨rest, hrest, h⟩ := except_bind_ok h
    obtain ⟨hdecided, hmem⟩ := ih hrest
    cases found with
    | true =>
      cases h
      have hx' := someEqual_true.mp hx
      refine ⟨?_, fun a => ?_⟩
      · rw [List.forall_mem_cons]
        exact ⟨Or.inr hx', hdecided⟩
      · rw [if_pos rfl, List.mem_cons, List.mem_cons, hmem]
        constructor
        · rintro (rfl | ⟨ha, heq⟩)
          · exact ⟨Or.inl rfl, hx'⟩
          · exact ⟨Or.inr ha, heq⟩
        · rintro ⟨rfl | ha, heq⟩
          · exact Or.inl rfl
          · exact Or.inr ⟨ha, heq⟩
    | false =>
      cases h
      have hx' := someEqual_false.mp hx
      refine ⟨?_, fun a => ?_⟩
      · rw [List.forall_mem_cons]
        exact ⟨Or.inl hx', hdecided⟩
      · rw [if_neg (by simp), List.mem_cons, hmem]
        constructor
        · rintro ⟨ha, heq⟩
          exact ⟨Or.inr ha, heq⟩
        · rintro ⟨rfl | ha, heq⟩
          · exact absurd hx' (not_hasNone heq)
          · exact ⟨ha, heq⟩

/-- An intersection goes through where each of its searches does. -/
theorem keepCommon_decided {set : List Doc} : ∀ {acc : List Doc},
    (∀ a ∈ acc, HasNone a set ∨ HasEqual a set) → ∃ acc', keepCommon set acc = .ok acc' := by
  intro acc
  induction acc with
  | nil => exact fun _ => ⟨[], rfl⟩
  | cons x acc ih =>
    intro h
    rw [List.forall_mem_cons] at h
    obtain ⟨rest, hrest⟩ := ih h.2
    rw [keepCommon, hrest]
    rcases h.1 with hx | hx
    · rw [someEqual_false.mpr hx]
      exact ⟨_, rfl⟩
    · rw [someEqual_true.mpr hx]
      exact ⟨_, rfl⟩

/-- **The intersection** is computed and not empty iff the searches throw nowhere and some member
    of the first set is in all the others. -/
theorem intersectInSets_iff : ∀ (sets : List (List Doc)) (acc : List Doc),
    (∃ isect, intersectInSets acc sets = .ok isect ∧ isect ≠ []) ↔
      (∀ a ∈ acc, Searchable a sets) ∧ ∃ a ∈ acc, ∀ set ∈ sets, HasEqual a set := by
  intro sets
  induction sets with
  | nil =>
    intro acc
    constructor
    · rintro ⟨isect, h, hne⟩
      cases h
      obtain ⟨a, ha⟩ := List.exists_mem_of_ne_nil acc hne
      exact ⟨fun _ _ => trivial, a, ha, fun set hset => absurd hset List.not_mem_nil⟩
    · rintro ⟨_, a, ha, _⟩
      exact ⟨acc, rfl, List.ne_nil_of_mem ha⟩
  | cons set sets ih =>
    intro acc
    constructor
    · rintro ⟨isect, h, hne⟩
      rw [intersectInSets] at h
      obtain ⟨acc', hacc, h⟩ := except_bind_ok h
      obtain ⟨hdecided, hmem⟩ := keepCommon_ok hacc
      obtain ⟨hsearch, a, ha, hall⟩ := (ih acc').mp ⟨isect, h, hne⟩
      refine ⟨fun b hb => ?_, a, ((hmem a).mp ha).1, ?_⟩
      · rcases hdecided b hb with hnone | heq
        · exact Or.inl hnone
        · exact Or.inr ⟨heq, hsearch b ((hmem b).mpr ⟨hb, heq⟩)⟩
      · rw [List.forall_mem_cons]
        exact ⟨((hmem a).mp ha).2, hall⟩
    · rintro ⟨hsearch, a, ha, hall⟩
      rw [List.forall_mem_cons] at hall
      obtain ⟨acc', hacc⟩ := keepCommon_decided fun b hb => (hsearch b hb).imp id And.left
      have hmem := (keepCommon_ok hacc).2
      have hrest : ∀ b ∈ acc', Searchable b sets := by
        intro b hb
        obtain ⟨hb, heq⟩ := (hmem b).mp hb
        rcases hsearch b hb with hnone | ⟨_, hrest⟩
        · exact absurd hnone (not_hasNone heq)
        · exact hrest
      obtain ⟨isect, h, hne⟩ := (ih acc').mpr ⟨hrest, a, (hmem a).mpr ⟨ha, hall.1⟩, hall.2⟩
      refine ⟨isect, ?_, hne⟩
      rw [intersectInSets, hacc]
      exact h

/-! ## The operands of a field -/

/-- The `eq` values of some clauses. -/
def eqValues (cs : List PredicateClause) : List Doc := (cs.filter (·.op = .eq)).map (·.value)

/-- The `in` sets of some clauses. -/
def inSets (cs : List PredicateClause) : List (List Doc) :=
  (cs.filter (·.op = .in)).map fun c => inMembers c.value

/-- The operands of one field agree. -/
structure OperandsAgree (eqs : List Doc) (sets : List (List Doc)) : Prop where
  eqs : ∀ eq rest, eqs = eq :: rest →
    (∀ v ∈ rest, deepEqualDocumentValue eq v = .ok true) ∧ ∀ set ∈ sets, HasEqual eq set
  sets : ∀ first second rest, sets = first :: second :: rest →
    (∀ a ∈ first, Searchable a (second :: rest)) ∧
      ∃ a ∈ first, ∀ set ∈ second :: rest, HasEqual a set

/-- **The operands of a wire agree**, field by field. -/
def WireAgrees (w : PredicateWire) : Prop :=
  ∀ field, OperandsAgree (eqValues (clausesOf field w.clauses)) (inSets (clausesOf field w.clauses))

theorem operandsAgree_nil : OperandsAgree [] [] :=
  ⟨fun _ _ h => (by cases h), fun _ _ _ h => (by cases h)⟩

/-- The check of equalities passes iff each is equal to the first. -/
theorem assertEqsAgree_iff {field : JsString} {first : Doc} {values : List Doc} :
    assertEqsAgree E field first values = .ok () ↔
      ∀ v ∈ values, deepEqualDocumentValue first v = .ok true := by
  refine ⟨assertEqsAgree_ok, ?_⟩
  induction values with
  | nil => exact fun _ => rfl
  | cons v values ih =>
    intro h
    rw [List.forall_mem_cons] at h
    rw [assertEqsAgree, h.1]
    exact ih h.2

/-- The check of sets passes iff the equality has an equal member in each. -/
theorem assertEqInSets_iff {field : JsString} {eq : Doc} {sets : List (List Doc)} :
    assertEqInSets E field eq sets = .ok () ↔ ∀ set ∈ sets, HasEqual eq set := by
  induction sets with
  | nil => exact ⟨fun _ set hset => absurd hset List.not_mem_nil, fun _ => rfl⟩
  | cons set sets ih =>
    rw [assertEqInSets, List.forall_mem_cons, ← ih, ← someEqual_true]
    constructor
    · intro h
      obtain ⟨found, hfound, h⟩ := except_bind_ok h
      cases found with
      | true => exact ⟨hfound, h⟩
      | false => cases h
    · rintro ⟨hfound, h⟩
      rw [hfound]
      exact h

/-- **Several sets meet** iff a member of the first has an equal in every other, and no search
    throws. -/
theorem assertSetsMeet_iff {field : JsString} {sets : List (List Doc)} :
    assertSetsMeet field sets = .ok () ↔
      ∀ first second rest, sets = first :: second :: rest →
        (∀ a ∈ first, Searchable a (second :: rest)) ∧
          ∃ a ∈ first, ∀ set ∈ second :: rest, HasEqual a set := by
  rcases sets with _ | ⟨first, _ | ⟨second, rest⟩⟩
  · exact ⟨fun _ _ _ _ h => (by cases h), fun _ => rfl⟩
  · exact ⟨fun _ _ _ _ h => (by cases h), fun _ => rfl⟩
  · have hmeet : assertSetsMeet field (first :: second :: rest) = .ok () ↔
        ∃ isect, intersectInSets first (second :: rest) = .ok isect ∧ isect ≠ [] := by
      rw [assertSetsMeet]
      constructor
      · intro h
        obtain ⟨isect, hisect, h⟩ := except_bind_ok h
        refine ⟨isect, hisect, ?_⟩
        rintro rfl
        cases h
      · rintro ⟨isect, hisect, hne⟩
        rw [hisect]
        cases isect with
        | nil => exact absurd rfl hne
        | cons a isect => rfl
    rw [hmeet, intersectInSets_iff]
    constructor
    · intro h f s r heq
      cases heq
      exact h
    · exact fun h => h first second rest rfl

/-! ## Bounds that are met -/

/-- The document's value meets both bounds of the group. -/
structure Met (actual : Property) (g : FieldGroup) : Prop where
  lo : ∀ b, g.lo = some b → b.Below actual
  hi : ∀ b, g.hi = some b → b.Above actual

/-- What is above a bound is a value of the bound's type. -/
theorem Bound.Below.value {b : Bound} {actual : Property} (h : b.Below actual) :
    ∃ v, actual = .value v ∧ sameComparableType v b.value = true := by
  obtain ⟨u, i⟩ := b
  cases actual with
  | value v =>
    refine ⟨v, rfl, ?_⟩
    cases u <;> cases v <;> simp [Bound.Below, compareGT] at h <;> rfl
  | _ => cases u <;> simp [Bound.Below, compareGT] at h

/-- What meets an upper bound is a value of its type. -/
theorem Bound.Above.value {b : Bound} {actual : Property} (h : b.Above actual) :
    ∃ v, actual = .value v ∧ sameComparableType v b.value = true := by
  obtain ⟨u, i⟩ := b
  cases actual with
  | value v =>
    refine ⟨v, rfl, ?_⟩
    cases u <;> cases v <;> simp [Bound.Above, compareLT] at h <;> rfl
  | _ => cases u <;> simp [Bound.Above, compareLT] at h

/-- A document that meets all bounds meets the tightened one. -/
theorem tightenLower_met {g : FieldGroup} {field : JsString} {b : Bound} {actual : Property}
    (hg : Met actual g) (hb : b.Below actual) :
    ∃ g', tightenLower E g field b.value b.inclusive = .ok g' ∧ Met actual g' := by
  unfold tightenLower
  cases hlo : g.lo with
  | none => exact ⟨_, rfl, ⟨fun b' h => by cases h; exact hb, hg.hi⟩⟩
  | some lo =>
    obtain ⟨v, rfl, hlov⟩ := (hg.lo lo hlo).value
    obtain ⟨_, heq, hbv⟩ := hb.value
    cases heq
    have hsame := sameComparableType_trans (sameComparableType_symm hlov) hbv
    simp only [hsame, Bool.not_true, Bool.false_eq_true, if_false]
    split
    next => exact ⟨_, rfl, ⟨fun b' h => by cases h; exact hb, hg.hi⟩⟩
    next => exact ⟨g, rfl, hg⟩

/-- From above as well. -/
theorem tightenUpper_met {g : FieldGroup} {field : JsString} {b : Bound} {actual : Property}
    (hg : Met actual g) (hb : b.Above actual) :
    ∃ g', tightenUpper E g field b.value b.inclusive = .ok g' ∧ Met actual g' := by
  unfold tightenUpper
  cases hhi : g.hi with
  | none => exact ⟨_, rfl, ⟨hg.lo, fun b' h => by cases h; exact hb⟩⟩
  | some hi =>
    obtain ⟨v, rfl, hhiv⟩ := (hg.hi hi hhi).value
    obtain ⟨_, heq, hbv⟩ := hb.value
    cases heq
    have hsame := sameComparableType_trans (sameComparableType_symm hhiv) hbv
    simp only [hsame, Bool.not_true, Bool.false_eq_true, if_false]
    split
    next => exact ⟨_, rfl, ⟨hg.lo, fun b' h => by cases h; exact hb⟩⟩
    next => exact ⟨g, rfl, hg⟩

/-- A clause the document satisfies is never the reason to reject a group. -/
theorem applyClause_met {g : FieldGroup} {c : PredicateClause} {actual : Property}
    (hg : Met actual g) (hc : matchesClause c actual = .ok true) :
    ∃ g', applyClause E g c = .ok g' ∧ Met actual g' := by
  obtain ⟨op, field, value, hwf⟩ := c
  cases op with
  | eq => exact ⟨_, rfl, ⟨hg.lo, hg.hi⟩⟩
  | «in» => exact ⟨_, rfl, ⟨hg.lo, hg.hi⟩⟩
  | gt => exact tightenLower_met (b := ⟨value, false⟩) hg (Except.ok.inj hc)
  | gte => exact tightenLower_met (b := ⟨value, true⟩) hg (Except.ok.inj hc)
  | lt => exact tightenUpper_met (b := ⟨value, false⟩) hg (Except.ok.inj hc)
  | lte => exact tightenUpper_met (b := ⟨value, true⟩) hg (Except.ok.inj hc)

/-- Every group is met by the document. -/
def GroupsMet (doc : Doc) (groups : InsMap JsString FieldGroup) : Prop :=
  ∀ field, Met (lookupPath doc field) ((groups.get field).getD .empty)

/-- **A document that satisfies the clauses meets the groups.** -/
theorem groupClauses_met {doc : Doc} {cs : List PredicateClause}
    (hcs : ∀ c ∈ cs, matchesClause c (lookupPath doc c.field) = .ok true) :
    ∀ {groups : InsMap JsString FieldGroup}, GroupsMet doc groups →
      ∃ groups', groupClauses E groups cs = .ok groups' ∧ GroupsMet doc groups' := by
  induction cs with
  | nil => exact fun hmet => ⟨_, rfl, hmet⟩
  | cons c cs ih =>
    intro groups hmet
    rw [List.forall_mem_cons] at hcs
    obtain ⟨g, hg, hgmet⟩ := applyClause_met (E := E) (hmet c.field) hcs.1
    rw [groupClauses, hg]
    refine ih hcs.2 fun field => ?_
    rw [InsMap.get_set]
    by_cases hfield : field = c.field
    · subst hfield
      rw [if_pos rfl]
      exact hgmet
    · rw [if_neg hfield]
      exact hmet field

/-! ## The checks of a group that is met -/

/-- Only the bound itself is both above and below it. -/
theorem inclusive_of_both {u : Doc} {i j : Bool} {actual : Property}
    (hgt : compareGT actual u i = true) (hlt : compareLT actual u j = true) :
    i = true ∧ j = true := by
  cases u <;> rcases actual with _ | (_ | _ | x | x | _ | _) | _ | _ <;>
    simp only [compareGT, compareLT, Bool.false_eq_true] at hgt hlt
  all_goals
    cases i <;> cases j <;> 
      simp only [if_true, if_false, decide_eq_true_eq, Bool.false_eq_true] at hgt hlt
  all_goals first
    | exact ⟨rfl, rfl⟩
    | exact absurd hgt (not_lt_of_gt hlt)
    | exact absurd hgt (not_lt_of_ge hlt)
    | exact absurd hlt (not_lt_of_ge hgt)

/-- A value above `lo` and below `hi` keeps the interval from being empty. -/
theorem assertInterval_met {field : JsString} {g : FieldGroup} {actual : Property}
    (hg : Met actual g) : assertInterval E field g = .ok () := by
  unfold assertInterval
  cases hlo : g.lo with
  | none => rfl
  | some lo =>
    cases hhi : g.hi with
    | none => rfl
    | some hi =>
      have hbelow := hg.lo lo hlo
      have habove := hg.hi hi hhi
      dsimp only
      split
      next hsame =>
        rw [if_neg]
        intro hempty
        have hpast : ∀ i, compareScalar hi.value lo.value = .lt ∨
            (compareScalar hi.value lo.value = .eq ∧ (i = true ∨ lo.inclusive = false)) →
            i = true ∧ hi.inclusive = true := fun i h =>
          inclusive_of_both (lower_imp (sameComparableType_symm hsame) h hbelow) habove
        rw [compareScalar_swap lo.value hi.value] at hpast
        rcases hempty with hgt | ⟨heq, hexcl⟩
        · rw [hgt] at hpast
          cases (hpast false (Or.inl rfl)).1
        · rw [heq] at hpast
          rcases hexcl with hl | hh
          · cases (hpast false (Or.inr ⟨rfl, Or.inr (by simpa using hl)⟩)).1
          · have hincl := (hpast true (Or.inr ⟨rfl, Or.inl rfl⟩)).2
            rw [hincl] at hh
            cases hh
      next => rfl

/-- What an ordered value equals is that value. -/
theorem eq_of_matchesEq {eq v : Doc} (hv : v.isOrdered = true)
    (h : matchesEq eq (.value v) = .ok true) : eq = v := by
  cases v <;> simp only [Json.isOrdered, sameComparableType, Bool.false_eq_true] at hv <;>
    cases eq <;> simp [matchesEq, Property.isPlainObject] at h <;> rw [h]

/-- Values that are compared are ordered. -/
theorem isOrdered_left {u v : Doc} (h : sameComparableType u v = true) : u.isOrdered = true :=
  sameComparableType_trans h (sameComparableType_symm h)

/-- A document cannot match an equality below the bound it meets. -/
theorem assertEqAboveLo_met {field : JsString} {eq : Doc} {actual : Property} {lo : Option Bound}
    (hlo : ∀ b, lo = some b → b.Below actual) (heq : matchesEq eq actual = .ok true) :
    assertEqAboveLo E field eq lo = .ok () := by
  cases lo with
  | none => rfl
  | some b =>
    have hbelow := hlo b rfl
    obtain ⟨v, rfl, hsame⟩ := hbelow.value
    obtain rfl := eq_of_matchesEq (isOrdered_left hsame) heq
    simp only [assertEqAboveLo, hsame, Bool.not_true, Bool.false_eq_true, if_false]
    rw [if_neg]
    intro hc
    have himp : ∀ i, compareScalar eq b.value = .lt ∨
        (compareScalar eq b.value = .eq ∧ (i = true ∨ b.inclusive = false)) → i = true := by
      intro i h
      have hself : compareLT (.value eq) eq true = true := by
        rcases sameComparableType_cases hsame with ⟨a, _, rfl, _⟩ | ⟨a, _, rfl, _⟩
        · simp [compareLT]
        · simp [compareLT]
      exact (inclusive_of_both (lower_imp hsame h hbelow) hself).1
    rcases hc with hlt | ⟨heq, hexcl⟩
    · cases himp false (Or.inl hlt)
    · cases himp false (Or.inr ⟨heq, Or.inr (by simpa using hexcl)⟩)

/-- Nor one above. -/
theorem assertEqBelowHi_met {field : JsString} {eq : Doc} {actual : Property} {hi : Option Bound}
    (hhi : ∀ b, hi = some b → b.Above actual) (heq : matchesEq eq actual = .ok true) :
    assertEqBelowHi E field eq hi = .ok () := by
  cases hi with
  | none => rfl
  | some b =>
    have habove := hhi b rfl
    obtain ⟨v, rfl, hsame⟩ := habove.value
    obtain rfl := eq_of_matchesEq (isOrdered_left hsame) heq
    simp only [assertEqBelowHi, hsame, Bool.not_true, Bool.false_eq_true, if_false]
    rw [if_neg]
    intro hc
    have himp : ∀ i, compareScalar eq b.value = .gt ∨
        (compareScalar eq b.value = .eq ∧ (i = true ∨ b.inclusive = false)) → i = true := by
      intro i h
      have hself : compareGT (.value eq) eq true = true := by
        rcases sameComparableType_cases hsame with ⟨a, _, rfl, _⟩ | ⟨a, _, rfl, _⟩
        · simp [compareGT]
        · simp [compareGT]
      exact (inclusive_of_both hself (upper_imp hsame h habove)).2
    rcases hc with hgt | ⟨heq, hexcl⟩
    · cases himp false (Or.inl hgt)
    · cases himp false (Or.inr ⟨heq, Or.inr (by simpa using hexcl)⟩)

/-- **The checks of a group whose bounds are met** come down to its operands. -/
theorem assertGroup_met {field : JsString} {g : FieldGroup} {actual : Property}
    (hg : Met actual g) (heqs : ∀ v ∈ g.eqs, matchesEq v actual = .ok true) :
    assertGroup E field g = .ok () ↔ OperandsAgree g.eqs g.ins := by
  unfold assertGroup
  cases hge : g.eqs with
  | nil =>
    dsimp only
    rw [assertInterval_met hg]
    show assertSetsMeet field g.ins = .ok () ↔ _
    rw [assertSetsMeet_iff]
    exact ⟨fun h => ⟨fun _ _ hnil => (by cases hnil), h⟩, fun h => h.sets⟩
  | cons eq rest =>
    have heq := heqs eq (by rw [hge]; exact List.mem_cons_self)
    dsimp only
    rw [assertInterval_met hg, assertEqAboveLo_met hg.lo heq, assertEqBelowHi_met hg.hi heq]
    constructor
    · intro h
      obtain ⟨_, hagree, h⟩ := except_bind_ok h
      obtain ⟨_, hin, hsets⟩ := @except_bind_ok _ _ (assertEqInSets E field eq g.ins)
        (fun _ => assertSetsMeet field g.ins) () h
      refine ⟨fun e r her => ?_, assertSetsMeet_iff.mp hsets⟩
      cases her
      exact ⟨assertEqsAgree_iff.mp hagree, assertEqInSets_iff.mp hin⟩
    · intro h
      obtain ⟨hagree, hin⟩ := h.eqs eq rest rfl
      rw [assertEqsAgree_iff.mpr hagree]
      show (assertEqInSets E field eq g.ins >>= fun _ => assertSetsMeet field g.ins) = .ok ()
      rw [assertEqInSets_iff.mpr hin]
      exact assertSetsMeet_iff.mpr h.sets

/-! ## The wire -/

/-- The check passes iff it does for each group. -/
theorem assertGroups_iff {groups : List (JsString × FieldGroup)} :
    assertGroups E groups = .ok () ↔ ∀ p ∈ groups, assertGroup E p.1 p.2 = .ok () := by
  refine ⟨assertGroups_ok, ?_⟩
  induction groups with
  | nil => exact fun _ => rfl
  | cons q groups ih =>
    intro h
    rw [List.forall_mem_cons] at h
    rw [assertGroups, h.1]
    exact ih h.2

/-- A range clause that some value meets has an ordered bound. -/
theorem ordered_of_match {c : PredicateClause} {actual : Property}
    (h : matchesClause c actual = .ok true) : c.Ordered := by
  rintro (hop | hop)
  · obtain ⟨v, _, hsame⟩ := ((matchesClause_lower hop actual).mp h).value
    exact isOrdered_left (sameComparableType_symm hsame)
  · obtain ⟨v, _, hsame⟩ := ((matchesClause_upper hop actual).mp h).value
    exact isOrdered_left (sameComparableType_symm hsame)

/-- **A wire that some document satisfies** passes the check exactly when its operands agree. -/
theorem assertWireSatisfiable_iff {w : PredicateWire} {doc : Doc}
    (hm : matchesWire w doc = .ok true) : assertWireSatisfiable E w = .ok () ↔ WireAgrees w := by
  rw [matchesWire_iff] at hm
  have hempty : GroupsMet doc InsMap.empty := fun field =>
    ⟨fun _ h => (by cases h), fun _ h => (by cases h)⟩
  obtain ⟨groups, hgroups, hmet⟩ := groupClauses_met (E := E) hm hempty
  have hok : GroupsOk w.clauses groups := by
    have h := groupClauses_ok (fun c hc => ordered_of_match (hm c hc)) groupsOk_nil hgroups
    rwa [List.nil_append] at h
  have hcheck : assertWireSatisfiable E w = assertGroups E groups.entries := by
    unfold assertWireSatisfiable
    rw [hgroups]
    rfl
  have hfield : ∀ field g, groups.get field = some g →
      (assertGroup E field g = .ok () ↔ OperandsAgree (eqValues (clausesOf field w.clauses))
        (inSets (clausesOf field w.clauses))) := by
    intro field g hg
    have hgroup := (hok field).1
    have hgmet := hmet field
    rw [hg] at hgroup hgmet
    have heqs : g.eqs = eqValues (clausesOf field w.clauses) := hgroup.eqs
    have hins : g.ins = inSets (clausesOf field w.clauses) := hgroup.ins
    rw [← heqs, ← hins]
    refine assertGroup_met hgmet fun v hv => ?_
    rw [heqs] at hv
    obtain ⟨c, hc, rfl⟩ := List.mem_map.mp hv
    obtain ⟨hc, hop⟩ := List.mem_filter.mp hc
    obtain ⟨hmem, rfl⟩ := mem_clausesOf.mp hc
    have hmatch := hm c hmem
    unfold matchesClause at hmatch
    rwa [of_decide_eq_true hop] at hmatch
  rw [hcheck, assertGroups_iff]
  constructor
  · intro h field
    cases hg : groups.get field with
    | none =>
      rw [(hok field).2 hg]
      exact operandsAgree_nil
    | some g => exact (hfield field g hg).mp (h (field, g) (InsMap.mem_entries.mpr hg))
  · intro h p hp
    exact (hfield p.1 p.2 (InsMap.mem_entries.mp hp)).mpr (h p.1)

/-- Both wires, one after the other. -/
def matchesBoth (a b : PredicateWire) (doc : Doc) : Except Err Bool := do
  if ← matchesWire a doc then matchesWire b doc else .ok false

/-- Clauses put together match where both wires do. -/
theorem matchesWire_append (a b : PredicateWire) (doc : Doc) :
    matchesWire ⟨a.clauses ++ b.clauses⟩ doc = matchesBoth a b doc := by
  obtain ⟨cs⟩ := a
  unfold matchesBoth matchesWire
  induction cs with
  | nil => rfl
  | cons c cs ih =>
    dsimp only at ih ⊢
    rw [List.cons_append, matchesClauses, matchesClauses, ih]
    rcases matchesClause c (lookupPath doc c.field) with e | (_ | _)
    · rfl
    · rfl
    · rfl

/-- Matching both is matching each. -/
theorem matchesBoth_iff {a b : PredicateWire} {doc : Doc} :
    matchesBoth a b doc = .ok true ↔ matchesWire a doc = .ok true ∧ matchesWire b doc = .ok true := by
  unfold matchesBoth
  rcases matchesWire a doc with e | (_ | _)
  · exact ⟨fun h => (by cases h), fun h => (by cases h.1)⟩
  · exact ⟨fun h => (by cases h), fun h => (by cases h.1)⟩
  · exact ⟨fun h => ⟨rfl, h⟩, fun h => h.2⟩

/-- A check of `w` that rejects only what nothing satisfies. -/
theorem sound_check_iff {w : PredicateWire} :
    (∀ e, assertWireSatisfiable E w = .error e → ∀ doc, matchesWire w doc ≠ .ok true) ↔
      ∀ doc, matchesWire w doc = .ok true → WireAgrees w := by
  constructor
  · intro h doc hm
    rw [← assertWireSatisfiable_iff (E := E) hm]
    cases hcheck : assertWireSatisfiable E w with
    | ok u => rfl
    | error e => exact absurd hm (h e hcheck doc)
  · intro h e hcheck doc hm
    rw [(assertWireSatisfiable_iff (E := E) hm).mpr (h doc hm)] at hcheck
    cases hcheck

/-- A merge is rejected iff its clauses are not satisfiable. -/
theorem mergePredicateWires_error {a b : PredicateWire} {e : Err} :
    mergePredicateWires E a b = .error e ↔
      assertWireSatisfiable E ⟨a.clauses ++ b.clauses⟩ = .error e := by
  unfold mergePredicateWires
  cases assertWireSatisfiable E ⟨a.clauses ++ b.clauses⟩ with
  | ok u => exact ⟨fun h => (by cases h), fun h => (by cases h)⟩
  | error e' => exact ⟨fun h => (by cases h; rfl), fun h => (by cases h; rfl)⟩

/-- An accepted merge is the clauses of both. -/
theorem mergePredicateWires_ok {a b m : PredicateWire} (h : mergePredicateWires E a b = .ok m) :
    m = ⟨a.clauses ++ b.clauses⟩ := by
  obtain ⟨_, _, h⟩ := except_bind_ok h
  cases h
  rfl

/-- **When a rejected wire matches nothing.**  The check of a wire whose clauses are well formed
    rejects only what no document satisfies exactly when, if some document satisfies it, its
    operands agree; the same for the merge of two validated wires; and an accepted merge is the
    conjunction. -/
theorem rejected_matches_nothing_iff (E : Engine) :
    (∀ w : PredicateWire, validateClauses 0 w.clauses = .ok () →
      ((∀ e, assertWireSatisfiable E w = .error e → ∀ doc, matchesWire w doc ≠ .ok true) ↔
        ∀ doc, matchesWire w doc = .ok true → WireAgrees w)) ∧
    ∀ a b : PredicateWire, validateWire E a = .ok a → validateWire E b = .ok b →
      ((∀ e, mergePredicateWires E a b = .error e →
          ∀ doc, ¬ (matchesWire a doc = .ok true ∧ matchesWire b doc = .ok true)) ↔
        ∀ doc, matchesWire a doc = .ok true → matchesWire b doc = .ok true →
          WireAgrees ⟨a.clauses ++ b.clauses⟩) ∧
      ∀ m, mergePredicateWires E a b = .ok m → ∀ doc, matchesWire m doc = matchesBoth a b doc := by
  refine ⟨fun w _ => sound_check_iff, fun a b _ _ => ⟨?_, ?_⟩⟩
  · have h := @sound_check_iff E ⟨a.clauses ++ b.clauses⟩
    simp only [matchesWire_append, ← mergePredicateWires_error, Ne, matchesBoth_iff, and_imp] at h ⊢
    exact h
  · intro m hm doc
    rw [mergePredicateWires_ok hm]
    exact matchesWire_append a b doc

/-- The rows whose `x` is an object with the member `key: value`. -/
def withMember (key value : JsString) : PredicateWire :=
  ⟨[⟨.in, js "x", .arr [.obj [(key, .str value)]], by simp [Json.wf, Json.wfList, Json.wfMembers]⟩]⟩

/-- Two wires with one object operand merge. -/
theorem rejected_matches_nothing_iff_same :
    (validateWire ⟨fun _ => "", fun _ _ => .ok false⟩ (withMember (js "a") (js "1")) =
      .ok (withMember (js "a") (js "1"))) ∧
    ∀ doc, matchesWire ⟨(withMember (js "a") (js "1")).clauses ++
        (withMember (js "a") (js "1")).clauses⟩ doc =
      matchesBoth (withMember (js "a") (js "1")) (withMember (js "a") (js "1")) doc :=
  ⟨rfl, ((rejected_matches_nothing_iff ⟨fun _ => "", fun _ _ => .ok false⟩).2
    (withMember (js "a") (js "1")) (withMember (js "a") (js "1")) rfl rfl).2 _ rfl⟩

/-- The sets have no equal member, but a row can have both members. -/
theorem merge_rejects_satisfiable :
    ¬ ∀ (E : Engine) (a b : PredicateWire), validateWire E a = .ok a → validateWire E b = .ok b →
      ∀ e, mergePredicateWires E a b = .error e →
        ∀ doc, ¬ (matchesWire a doc = .ok true ∧ matchesWire b doc = .ok true) := by
  intro h
  have hbad := h ⟨fun _ => "", fun _ _ => .ok false⟩ (withMember (js "a") (js "1"))
    (withMember (js "b") (js "2")) rfl rfl _ rfl
    (.obj [(js "x", .obj [(js "a", .str (js "1")), (js "b", .str (js "2"))])])
  exact hbad (by decide)

end Baerly
