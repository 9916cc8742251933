import Baerly.Query.Validate

/-
  What a validated wire is known to look like.

  SPEC: `GroupOk` — the group of a field keeps, on each side, a bound that implies every bound of the
  field, and all bounds of a side have one type.  `EqOk` — the equalities of a field agree and meet
  the bounds and the sets beside them.

  CRUX: a bound is only ever used through "everything above it is above that one" (`lower_imp`), so
  the tightening loops need no order on documents.
-/

namespace Baerly

variable {E : Engine}

/-- A sequence of checks that succeeds has succeeded at its first. -/
theorem except_bind_ok {α β : Type} {x : Except Err α} {f : α → Except Err β} {b : β}
    (h : (x >>= f) = .ok b) : ∃ a, x = .ok a ∧ f a = .ok b := by
  cases x with
  | error e => cases h
  | ok a => exact ⟨a, rfl, h⟩

/-! ## Bounds -/

/-- A string or a number. -/
def Json.isOrdered (v : Doc) : Bool := sameComparableType v v

/-- Values of one comparable type are two numbers or two strings. -/
theorem sameComparableType_cases {u v : Doc} (h : sameComparableType u v = true) :
    (∃ a b, u = .num a ∧ v = .num b) ∨ ∃ a b, u = .str a ∧ v = .str b := by
  cases u <;> cases v <;> simp only [sameComparableType, Bool.false_eq_true] at h
  case num.num a b => exact Or.inl ⟨a, b, rfl, rfl⟩
  case str.str a b => exact Or.inr ⟨a, b, rfl, rfl⟩

/-- Being of one comparable type is symmetric. -/
theorem sameComparableType_symm {u v : Doc} (h : sameComparableType u v = true) :
    sameComparableType v u = true := by
  rcases sameComparableType_cases h with ⟨a, b, rfl, rfl⟩ | ⟨a, b, rfl, rfl⟩
  · rfl
  · rfl

/-- And transitive. -/
theorem sameComparableType_trans {u v x : Doc} (h : sameComparableType u v = true)
    (h' : sameComparableType v x = true) : sameComparableType u x = true := by
  rcases sameComparableType_cases h with ⟨a, b, rfl, rfl⟩ | ⟨a, b, rfl, rfl⟩
  · rcases sameComparableType_cases h' with ⟨_, d, hd, rfl⟩ | ⟨_, d, hd, rfl⟩
    · rfl
    · cases hd
  · rcases sameComparableType_cases h' with ⟨_, d, hd, rfl⟩ | ⟨_, d, hd, rfl⟩
    · cases hd
    · rfl

section Order

variable {α : Type} [LinearOrder α] {a b x : α} {i j : Bool}

section Comparison

variable [Decidable (a < b)] [Decidable (b < a)]

/-- A three-way comparison says less where `<` does. -/
theorem ordering_lt : (if a < b then Ordering.lt else if b < a then .gt else .eq) = .lt ↔
    a < b := by
  split
  · simp_all
  · split <;> simp_all

theorem ordering_gt : (if a < b then Ordering.lt else if b < a then .gt else .eq) = .gt ↔
    b < a := by
  split
  next h => simp [le_of_lt h]
  next => split <;> simp_all

theorem ordering_eq : (if a < b then Ordering.lt else if b < a then .gt else .eq) = .eq ↔
    a = b := by
  split
  next h => simp [ne_of_lt h]
  next h =>
    split
    next h' => simp [ne_of_gt h']
    next h' => simpa using le_antisymm (not_lt.mp h') (not_lt.mp h)

end Comparison

/-- A bound that is tighter from below implies the looser one. -/
theorem above_of_order (h : a < b ∨ (a = b ∧ (i = true ∨ j = false)))
    (ha : if j then ¬ x < b else b < x) : if i then ¬ x < a else a < x := by
  grind

/-- The same from above. -/
theorem below_of_order (h : b < a ∨ (a = b ∧ (i = true ∨ j = false)))
    (ha : if j then ¬ b < x else x < b) : if i then ¬ a < x else x < a := by
  grind

/-- The test of an evaluator's comparison, as a proposition. -/
theorem test_iff {p q : Prop} [Decidable p] [Decidable q] :
    (if j then decide p else decide q) = true ↔ if j then p else q := by
  cases j <;> simp

end Order

/-- Whatever is above `v` is above `u`. -/
theorem lower_imp {u v : Doc} {i j : Bool} (hsame : sameComparableType u v = true)
    (h : compareScalar u v = .lt ∨ (compareScalar u v = .eq ∧ (i = true ∨ j = false)))
    {actual : Property} (ha : compareGT actual v j = true) : compareGT actual u i = true := by
  rcases sameComparableType_cases hsame with ⟨a, b, rfl, rfl⟩ | ⟨a, b, rfl, rfl⟩
  · rcases actual with _ | (_ | _ | x | _ | _ | _) | _ | _ <;>
      simp only [compareGT, Bool.false_eq_true] at ha
    rw [compareScalar, ordering_lt, ordering_eq] at h
    simp only [compareGT, ← not_lt] at ha ⊢
    exact test_iff.mpr (above_of_order h (test_iff.mp ha))
  · rcases actual with _ | (_ | _ | _ | x | _ | _) | _ | _ <;>
      simp only [compareGT, Bool.false_eq_true] at ha
    rw [compareScalar, ordering_lt, ordering_eq] at h
    simp only [compareGT, ← not_lt] at ha ⊢
    exact test_iff.mpr (above_of_order h (test_iff.mp ha))

/-- Whatever is below `v` is below `u`. -/
theorem upper_imp {u v : Doc} {i j : Bool} (hsame : sameComparableType u v = true)
    (h : compareScalar u v = .gt ∨ (compareScalar u v = .eq ∧ (i = true ∨ j = false)))
    {actual : Property} (ha : compareLT actual v j = true) : compareLT actual u i = true := by
  rcases sameComparableType_cases hsame with ⟨a, b, rfl, rfl⟩ | ⟨a, b, rfl, rfl⟩
  · rcases actual with _ | (_ | _ | x | _ | _ | _) | _ | _ <;>
      simp only [compareLT, Bool.false_eq_true] at ha
    rw [compareScalar, ordering_gt, ordering_eq] at h
    simp only [compareLT, ← not_lt] at ha ⊢
    exact test_iff.mpr (below_of_order h (test_iff.mp ha))
  · rcases actual with _ | (_ | _ | _ | x | _ | _) | _ | _ <;>
      simp only [compareLT, Bool.false_eq_true] at ha
    rw [compareScalar, ordering_gt, ordering_eq] at h
    simp only [compareLT, ← not_lt] at ha ⊢
    exact test_iff.mpr (below_of_order h (test_iff.mp ha))

/-- Comparing the other way round. -/
theorem compareScalar_swap (u v : Doc) : compareScalar v u = (compareScalar u v).swap := by
  cases u <;> cases v <;> simp only [compareScalar, Ordering.swap]
  case num.num a b =>
    rcases lt_trichotomy a b with h | h | h
    · simp [h, not_lt_of_gt h]
    · simp [h]
    · simp [h, not_lt_of_gt h]
  case str.str a b =>
    rcases lt_trichotomy a b with h | h | h
    · simp [h, not_lt_of_gt h]
    · simp [h]
    · simp [h, not_lt_of_gt h]

/-! ## Clauses as bounds -/

/-- The operators that bound from below. -/
def PredicateOp.isLower : PredicateOp → Bool
  | .gt => true
  | .gte => true
  | _ => false

/-- Those that bound from above. -/
def PredicateOp.isUpper : PredicateOp → Bool
  | .lt => true
  | .lte => true
  | _ => false

/-- The bound of a range clause. -/
def PredicateClause.bound (c : PredicateClause) : Bound :=
  ⟨c.value, c.op = .gte ∨ c.op = .lte⟩

/-- The document's value is above the bound. -/
def Bound.Below (b : Bound) (actual : Property) : Prop :=
  compareGT actual b.value b.inclusive = true

/-- The document's value is below the bound. -/
def Bound.Above (b : Bound) (actual : Property) : Prop :=
  compareLT actual b.value b.inclusive = true

/-- A lower clause matches what is not below its bound. -/
theorem matchesClause_lower {c : PredicateClause} (h : c.op.isLower = true)
    (actual : Property) : matchesClause c actual = .ok true ↔ c.bound.Below actual := by
  obtain ⟨op, field, value, hwf⟩ := c
  cases op <;> simp_all [PredicateOp.isLower, matchesClause, PredicateClause.bound, Bound.Below]

/-- An upper clause matches what is not above its bound. -/
theorem matchesClause_upper {c : PredicateClause} (h : c.op.isUpper = true)
    (actual : Property) : matchesClause c actual = .ok true ↔ c.bound.Above actual := by
  obtain ⟨op, field, value, hwf⟩ := c
  cases op <;> simp_all [PredicateOp.isUpper, matchesClause, PredicateClause.bound, Bound.Above]

/-! ## What a group knows -/

/-- One side of a group: `b` implies every bound of the side, and they are of one type. -/
structure SideOk (isSide : PredicateOp → Bool) (Meets : Bound → Property → Prop)
    (cs : List PredicateClause) (side : Option Bound) : Prop where
  absent : side = none → ∀ c ∈ cs, isSide c.op = false
  present : ∀ b, side = some b → ∀ c ∈ cs, isSide c.op = true →
    sameComparableType b.value c.value = true ∧
      ∀ actual, Meets b actual → Meets c.bound actual

/-- **What a group knows** of the clauses it was built from. -/
structure GroupOk (cs : List PredicateClause) (g : FieldGroup) : Prop where
  eqs : g.eqs = (cs.filter (·.op = .eq)).map (·.value)
  ins : g.ins = (cs.filter (·.op = .in)).map fun c => inMembers c.value
  lo : SideOk PredicateOp.isLower Bound.Below cs g.lo
  hi : SideOk PredicateOp.isUpper Bound.Above cs g.hi

section Side

variable {isSide : PredicateOp → Bool} {Meets : Bound → Property → Prop}
variable {cs : List PredicateClause} {side : Option Bound} {c : PredicateClause}

/-- A side without clauses has no bound. -/
theorem SideOk.nil : SideOk isSide Meets [] none :=
  ⟨fun _ _ hc => absurd hc List.not_mem_nil, fun _ hb => by cases hb⟩

/-- A clause of another kind leaves a side. -/
theorem SideOk.skip (h : SideOk isSide Meets cs side) (hc : isSide c.op = false) :
    SideOk isSide Meets (cs ++ [c]) side := by
  refine ⟨fun hn d hd => ?_, fun b hb d hd hop => ?_⟩
  · rcases List.mem_append.mp hd with hd | hd
    · exact h.absent hn d hd
    · rw [List.mem_singleton.mp hd]
      exact hc
  · rcases List.mem_append.mp hd with hd | hd
    · exact h.present b hb d hd hop
    · rw [List.mem_singleton.mp hd, hc] at hop
      cases hop

/-- The first bound of a side. -/
theorem SideOk.first (h : SideOk isSide Meets cs none) (hord : c.value.isOrdered = true) :
    SideOk isSide Meets (cs ++ [c]) (some c.bound) := by
  refine ⟨fun hn => (by cases hn), fun b hb d hd hop => ?_⟩
  cases hb
  rcases List.mem_append.mp hd with hd | hd
  · rw [h.absent rfl d hd] at hop
    cases hop
  · rw [List.mem_singleton.mp hd]
    exact ⟨hord, fun _ hm => hm⟩

/-- A further bound that is tighter. -/
theorem SideOk.tighten {b : Bound} (h : SideOk isSide Meets cs (some b))
    (hsame : sameComparableType b.value c.value = true)
    (himp : ∀ actual, Meets c.bound actual → Meets b actual) :
    SideOk isSide Meets (cs ++ [c]) (some c.bound) := by
  refine ⟨fun hn => (by cases hn), fun b' hb' d hd hop => ?_⟩
  cases hb'
  rcases List.mem_append.mp hd with hd | hd
  · obtain ⟨hty, hmeets⟩ := h.present b rfl d hd hop
    exact ⟨sameComparableType_trans (sameComparableType_symm hsame) hty,
      fun actual hm => hmeets actual (himp actual hm)⟩
  · rw [List.mem_singleton.mp hd]
    exact ⟨sameComparableType_trans (sameComparableType_symm hsame) hsame, fun _ hm => hm⟩

/-- A further bound that is implied. -/
theorem SideOk.keep {b : Bound} (h : SideOk isSide Meets cs (some b))
    (hsame : sameComparableType b.value c.value = true)
    (himp : ∀ actual, Meets b actual → Meets c.bound actual) :
    SideOk isSide Meets (cs ++ [c]) (some b) := by
  refine ⟨fun hn => (by cases hn), fun b' hb' d hd hop => ?_⟩
  cases hb'
  rcases List.mem_append.mp hd with hd | hd
  · exact h.present b rfl d hd hop
  · rw [List.mem_singleton.mp hd]
    exact ⟨hsame, himp⟩

end Side

/-- Tightening from below keeps a bound that implies all of its side. -/
theorem tightenLower_ok {g g' : FieldGroup} {field : JsString} {cs : List PredicateClause}
    {c : PredicateClause} (hside : SideOk PredicateOp.isLower Bound.Below cs g.lo)
    (hord : c.value.isOrdered = true)
    (h : tightenLower E g field c.value c.bound.inclusive = .ok g') :
    (∃ lo, g' = { g with lo := lo } ∧
      SideOk PredicateOp.isLower Bound.Below (cs ++ [c]) lo) := by
  unfold tightenLower at h
  cases hlo : g.lo with
  | none =>
    rw [hlo] at h hside
    cases h
    exact ⟨_, rfl, hside.first hord⟩
  | some b =>
    rw [hlo] at h hside
    simp only at h
    split at h
    next => cases h
    next hsame =>
      have hsame' : sameComparableType b.value c.value = true := by simpa using hsame
      split at h
      next hc =>
        cases h
        refine ⟨_, rfl, hside.tighten hsame' fun actual hm => lower_imp hsame' ?_ hm⟩
        rcases hc with hlt | ⟨heq, hexcl, _⟩
        · exact Or.inl hlt
        · exact Or.inr ⟨heq, Or.inr hexcl⟩
      next hc =>
        cases h
        refine ⟨_, by rw [← hlo], hside.keep hsame' fun actual hm => ?_⟩
        refine lower_imp (sameComparableType_symm hsame') ?_ hm
        rw [compareScalar_swap b.value]
        cases hcmp : compareScalar b.value c.value with
        | lt => exact absurd (Or.inl hcmp) hc
        | gt => exact Or.inl rfl
        | eq =>
          refine Or.inr ⟨rfl, ?_⟩
          cases hi : c.bound.inclusive with
          | true => exact Or.inl rfl
          | false =>
            right
            cases hb : b.inclusive with
            | true => exact absurd (Or.inr ⟨hcmp, hi, hb⟩) hc
            | false => rfl

/-- So does tightening from above. -/
theorem tightenUpper_ok {g g' : FieldGroup} {field : JsString} {cs : List PredicateClause}
    {c : PredicateClause} (hside : SideOk PredicateOp.isUpper Bound.Above cs g.hi)
    (hord : c.value.isOrdered = true)
    (h : tightenUpper E g field c.value c.bound.inclusive = .ok g') :
    (∃ hi, g' = { g with hi := hi } ∧
      SideOk PredicateOp.isUpper Bound.Above (cs ++ [c]) hi) := by
  unfold tightenUpper at h
  cases hhi : g.hi with
  | none =>
    rw [hhi] at h hside
    cases h
    exact ⟨_, rfl, hside.first hord⟩
  | some b =>
    rw [hhi] at h hside
    simp only at h
    split at h
    next => cases h
    next hsame =>
      have hsame' : sameComparableType b.value c.value = true := by simpa using hsame
      split at h
      next hc =>
        cases h
        refine ⟨_, rfl, hside.tighten hsame' fun actual hm => upper_imp hsame' ?_ hm⟩
        rcases hc with hgt | ⟨heq, hexcl, _⟩
        · exact Or.inl hgt
        · exact Or.inr ⟨heq, Or.inr hexcl⟩
      next hc =>
        cases h
        refine ⟨_, by rw [← hhi], hside.keep hsame' fun actual hm => ?_⟩
        refine upper_imp (sameComparableType_symm hsame') ?_ hm
        rw [compareScalar_swap b.value]
        cases hcmp : compareScalar b.value c.value with
        | gt => exact absurd (Or.inl hcmp) hc
        | lt => exact Or.inl rfl
        | eq =>
          refine Or.inr ⟨rfl, ?_⟩
          cases hi : c.bound.inclusive with
          | true => exact Or.inl rfl
          | false =>
            right
            cases hb : b.inclusive with
            | true => exact absurd (Or.inr ⟨hcmp, hi, hb⟩) hc
            | false => rfl

/-- The bounds of a clause are strings or numbers. -/
def PredicateClause.Ordered (c : PredicateClause) : Prop :=
  c.op.isLower = true ∨ c.op.isUpper = true → c.value.isOrdered = true

/-- Each clause of a field goes into the group it is summed up by. -/
theorem applyClause_ok {g g' : FieldGroup} {cs : List PredicateClause} {c : PredicateClause}
    (hg : GroupOk cs g) (hord : c.Ordered) (h : applyClause E g c = .ok g') :
    GroupOk (cs ++ [c]) g' := by
  obtain ⟨op, field, value, hwf⟩ := c
  cases op with
  | eq =>
    cases h
    exact ⟨by simp [hg.eqs], by simp [hg.ins], hg.lo.skip rfl, hg.hi.skip rfl⟩
  | «in» =>
    cases h
    exact ⟨by simp [hg.eqs], by simp [hg.ins], hg.lo.skip rfl, hg.hi.skip rfl⟩
  | gt =>
    obtain ⟨lo, rfl, hlo⟩ :=
      tightenLower_ok (c := ⟨.gt, field, value, hwf⟩) hg.lo (hord (Or.inl rfl)) h
    exact ⟨by simp [hg.eqs], by simp [hg.ins], hlo, hg.hi.skip rfl⟩
  | gte =>
    obtain ⟨lo, rfl, hlo⟩ :=
      tightenLower_ok (c := ⟨.gte, field, value, hwf⟩) hg.lo (hord (Or.inl rfl)) h
    exact ⟨by simp [hg.eqs], by simp [hg.ins], hlo, hg.hi.skip rfl⟩
  | lt =>
    obtain ⟨hi, rfl, hhi⟩ :=
      tightenUpper_ok (c := ⟨.lt, field, value, hwf⟩) hg.hi (hord (Or.inr rfl)) h
    exact ⟨by simp [hg.eqs], by simp [hg.ins], hg.lo.skip rfl, hhi⟩
  | lte =>
    obtain ⟨hi, rfl, hhi⟩ :=
      tightenUpper_ok (c := ⟨.lte, field, value, hwf⟩) hg.hi (hord (Or.inr rfl)) h
    exact ⟨by simp [hg.eqs], by simp [hg.ins], hg.lo.skip rfl, hhi⟩

/-- The clauses of one field. -/
def clausesOf (field : JsString) (cs : List PredicateClause) : List PredicateClause :=
  cs.filter (·.field = field)

/-- The clauses of a field are those that name it. -/
theorem mem_clausesOf {field : JsString} {cs : List PredicateClause} {c : PredicateClause} :
    c ∈ clausesOf field cs ↔ c ∈ cs ∧ c.field = field := by
  simp [clausesOf]

/-- Every field's group knows the field's clauses. -/
def GroupsOk (done : List PredicateClause) (groups : InsMap JsString FieldGroup) : Prop :=
  ∀ field, GroupOk (clausesOf field done) ((groups.get field).getD .empty) ∧
    (groups.get field = none → clausesOf field done = [])

theorem groupsOk_nil : GroupsOk [] InsMap.empty :=
  fun _ => ⟨⟨rfl, rfl, .nil, .nil⟩, fun _ => rfl⟩

/-- **The groups sum up their clauses**, by induction on the clauses that are left. -/
theorem groupClauses_ok {cs : List PredicateClause} (hord : ∀ c ∈ cs, c.Ordered) :
    ∀ {done : List PredicateClause} {groups groups' : InsMap JsString FieldGroup},
      GroupsOk done groups → groupClauses E groups cs = .ok groups' →
        GroupsOk (done ++ cs) groups' := by
  induction cs with
  | nil =>
    intro done groups groups' hinv h
    cases h
    rw [List.append_nil]
    exact hinv
  | cons c cs ih =>
    intro done groups groups' hinv h
    rw [groupClauses] at h
    split at h
    next group hgroup =>
      rw [← List.singleton_append, ← List.append_assoc]
      refine ih (fun d hd => hord d (List.mem_cons_of_mem c hd)) ?_ h
      intro field
      by_cases hfield : field = c.field
      · subst hfield
        have happ : clausesOf c.field (done ++ [c]) = clausesOf c.field done ++ [c] := by
          simp [clausesOf]
        rw [happ, InsMap.get_set, if_pos rfl]
        refine ⟨applyClause_ok (hinv c.field).1 (hord c List.mem_cons_self) hgroup, ?_⟩
        intro hnone
        cases hnone
      · have hne : ¬ c.field = field := fun e => hfield e.symm
        have hskip : clausesOf field (done ++ [c]) = clausesOf field done := by
          simp [clausesOf, hne]
        rw [hskip, InsMap.get_set, if_neg hfield]
        exact hinv field
    next => cases h

/-- All groups pass if the check does. -/
theorem assertGroups_ok {groups : List (JsString × FieldGroup)}
    (h : assertGroups E groups = .ok ()) : ∀ p ∈ groups, assertGroup E p.1 p.2 = .ok () := by
  induction groups with
  | nil => exact fun p hp => absurd hp List.not_mem_nil
  | cons q groups ih =>
    rw [assertGroups] at h
    obtain ⟨u, hu, hrest⟩ := except_bind_ok h
    intro p hp
    rcases List.mem_cons.mp hp with rfl | hp
    · exact hu
    · exact ih hrest p hp

/-- **A satisfiable wire, field by field.** -/
theorem assertWireSatisfiable_ok {wire : PredicateWire}
    (hord : ∀ c ∈ wire.clauses, c.Ordered) (h : assertWireSatisfiable E wire = .ok ())
    {c : PredicateClause} (hc : c ∈ wire.clauses) :
    ∃ g, GroupOk (clausesOf c.field wire.clauses) g ∧ assertGroup E c.field g = .ok () := by
  obtain ⟨groups, hgroups, hall⟩ := except_bind_ok h
  have hok := groupClauses_ok hord groupsOk_nil hgroups c.field
  rw [List.nil_append] at hok
  cases hget : groups.get c.field with
  | none =>
    have hmem : c ∈ clausesOf c.field wire.clauses := mem_clausesOf.mpr ⟨hc, rfl⟩
    rw [hok.2 hget] at hmem
    exact absurd hmem List.not_mem_nil
  | some g =>
    rw [hget] at hok
    exact ⟨g, hok.1, assertGroups_ok hall (c.field, g) (InsMap.mem_entries.mpr hget)⟩

/-! ## What the checks of a group leave -/

/-- Then the equalities of a field are equal to the first. -/
theorem assertEqsAgree_ok {field : JsString} {first : Doc} {values : List Doc}
    (h : assertEqsAgree E field first values = .ok ()) :
    ∀ v ∈ values, deepEqualDocumentValue first v = .ok true := by
  induction values with
  | nil => exact fun v hv => absurd hv List.not_mem_nil
  | cons v values ih =>
    rw [assertEqsAgree] at h
    obtain ⟨b, hb, hrest⟩ := except_bind_ok h
    cases b with
    | true =>
      intro w hw
      rcases List.mem_cons.mp hw with rfl | hw
      · exact hb
      · exact ih hrest w hw
    | false => cases hrest

/-- A search that succeeds found an equal member. -/
theorem someEqual_ok {value : Doc} {ms : List Doc} (h : someEqual value ms = .ok true) :
    ∃ m ∈ ms, deepEqualDocumentValue value m = .ok true := by
  induction ms with
  | nil => cases h
  | cons m ms ih =>
    rw [someEqual] at h
    obtain ⟨b, hb, hrest⟩ := except_bind_ok h
    cases b with
    | true => exact ⟨m, List.mem_cons_self, hb⟩
    | false =>
      obtain ⟨m', hm', heq⟩ := ih hrest
      exact ⟨m', List.mem_cons_of_mem m hm', heq⟩

/-- Then the equality of a field has an equal member in each of its sets. -/
theorem assertEqInSets_ok {field : JsString} {eq : Doc} {sets : List (List Doc)}
    (h : assertEqInSets E field eq sets = .ok ()) :
    ∀ set ∈ sets, ∃ m ∈ set, deepEqualDocumentValue eq m = .ok true := by
  induction sets with
  | nil => exact fun v hv => absurd hv List.not_mem_nil
  | cons set sets ih =>
    rw [assertEqInSets] at h
    obtain ⟨b, hb, hrest⟩ := except_bind_ok h
    cases b with
    | true =>
      intro s hs
      rcases List.mem_cons.mp hs with rfl | hs
      · exact someEqual_ok hb
      · exact ih hrest s hs
    | false => cases hrest

/-- An ordered value is above a bound it does not compare below. -/
theorem compareGT_self {u v : Doc} {j : Bool} (hsame : sameComparableType u v = true)
    (h : ¬ (compareScalar u v = .lt ∨ (compareScalar u v = .eq ∧ j = false))) :
    compareGT (.value u) v j = true := by
  have hself : compareGT (.value u) u true = true := by
    rcases sameComparableType_cases hsame with ⟨a, b, rfl, rfl⟩ | ⟨a, b, rfl, rfl⟩
    · simp [compareGT]
    · simp [compareGT]
  refine lower_imp (sameComparableType_symm hsame) ?_ hself
  rw [compareScalar_swap u v]
  cases hc : compareScalar u v with
  | lt => exact absurd (Or.inl hc) h
  | gt => exact Or.inl rfl
  | eq =>
    refine Or.inr ⟨rfl, Or.inl ?_⟩
    cases j with
    | true => rfl
    | false => exact absurd (Or.inr ⟨hc, rfl⟩) h

/-- What does not compare greater than a bound meets it. -/
theorem compareLT_self {u v : Doc} {j : Bool} (hsame : sameComparableType u v = true)
    (h : ¬ (compareScalar u v = .gt ∨ (compareScalar u v = .eq ∧ j = false))) :
    compareLT (.value u) v j = true := by
  have hself : compareLT (.value u) u true = true := by
    rcases sameComparableType_cases hsame with ⟨a, b, rfl, rfl⟩ | ⟨a, b, rfl, rfl⟩
    · simp [compareLT]
    · simp [compareLT]
  refine upper_imp (sameComparableType_symm hsame) ?_ hself
  rw [compareScalar_swap u v]
  cases hc : compareScalar u v with
  | gt => exact absurd (Or.inl hc) h
  | lt => exact Or.inl rfl
  | eq =>
    refine Or.inr ⟨rfl, Or.inl ?_⟩
    cases j with
    | true => rfl
    | false => exact absurd (Or.inr ⟨hc, rfl⟩) h

/-- The equality of a field meets its lower bound. -/
theorem assertEqAboveLo_ok {field : JsString} {eq : Doc} {b : Bound}
    (h : assertEqAboveLo E field eq (some b) = .ok ()) :
    sameComparableType eq b.value = true ∧ b.Below (.value eq) := by
  unfold assertEqAboveLo at h
  simp only at h
  split at h
  next => cases h
  next hsame =>
    have hsame' : sameComparableType eq b.value = true := by simpa using hsame
    split at h
    next => cases h
    next hc => exact ⟨hsame', compareGT_self hsame' (by simpa using hc)⟩

/-- And its upper one. -/
theorem assertEqBelowHi_ok {field : JsString} {eq : Doc} {b : Bound}
    (h : assertEqBelowHi E field eq (some b) = .ok ()) :
    sameComparableType eq b.value = true ∧ b.Above (.value eq) := by
  unfold assertEqBelowHi at h
  simp only at h
  split at h
  next => cases h
  next hsame =>
    have hsame' : sameComparableType eq b.value = true := by simpa using hsame
    split at h
    next => cases h
    next hc => exact ⟨hsame', compareLT_self hsame' (by simpa using hc)⟩

/-- **What the checks leave of a group with an equality.** -/
structure EqOk (eq : Doc) (rest : List Doc) (g : FieldGroup) : Prop where
  agree : ∀ v ∈ rest, deepEqualDocumentValue eq v = .ok true
  above : ∀ b, g.lo = some b → sameComparableType eq b.value = true ∧ b.Below (.value eq)
  below : ∀ b, g.hi = some b → sameComparableType eq b.value = true ∧ b.Above (.value eq)
  sets : ∀ set ∈ g.ins, ∃ m ∈ set, deepEqualDocumentValue eq m = .ok true

/-- **A group with an equality** that passes: everything else in it follows from the equality. -/
theorem assertGroup_eq {field : JsString} {g : FieldGroup} {eq : Doc} {rest : List Doc}
    (h : assertGroup E field g = .ok ()) (heqs : g.eqs = eq :: rest) : EqOk eq rest g := by
  unfold assertGroup at h
  rw [heqs] at h
  obtain ⟨_, hagree, h⟩ := except_bind_ok h
  obtain ⟨_, _, h⟩ := except_bind_ok h
  obtain ⟨_, habove, h⟩ := except_bind_ok h
  obtain ⟨_, hbelow, h⟩ := except_bind_ok h
  obtain ⟨_, hsets, _⟩ := except_bind_ok h
  refine ⟨assertEqsAgree_ok hagree, ?_, ?_, assertEqInSets_ok hsets⟩
  · intro b hb
    rw [hb] at habove
    exact assertEqAboveLo_ok habove
  · intro b hb
    rw [hb] at hbelow
    exact assertEqBelowHi_ok hbelow

/-! ## Validated wires -/

/-- What the clause checks leave. -/
structure ClauseOk (c : PredicateClause) : Prop where
  ordered : c.Ordered
  set : c.op = .in → ∃ values, c.value = .arr values

/-- A validated clause has an operand its operator can use. -/
theorem validateClause_ok {c : PredicateClause} {i : Nat} (h : validateClause c i = .ok ()) :
    ClauseOk c := by
  obtain ⟨op, field, value, hwf⟩ := c
  unfold validateClause at h
  split at h
  next => cases h
  next =>
    split at h
    next => cases h
    next =>
      cases op <;> cases value <;>
        first
        | (simp [validateScalar, validateRangeBound] at h; done)
        | exact ⟨fun hr => by simp_all [PredicateOp.isLower, PredicateOp.isUpper, Json.isOrdered,
            sameComparableType], fun hop => by simp_all⟩

/-- So has each clause of a list. -/
theorem validateClauses_ok {cs : List PredicateClause} {i : Nat}
    (h : validateClauses i cs = .ok ()) : ∀ c ∈ cs, ClauseOk c := by
  induction cs generalizing i with
  | nil => exact fun c hc => absurd hc List.not_mem_nil
  | cons d cs ih =>
    rw [validateClauses] at h
    obtain ⟨_, hd, hrest⟩ := except_bind_ok h
    intro c hc
    rcases List.mem_cons.mp hc with rfl | hc
    · exact validateClause_ok hd
    · exact ih hrest c hc

/-- A validated wire comes back unchanged, its clauses checked and its groups satisfiable. -/
theorem validateWire_ok {wire wire' : PredicateWire} (h : validateWire E wire = .ok wire') :
    (∀ c ∈ wire.clauses, ClauseOk c) ∧ assertWireSatisfiable E wire = .ok () ∧ wire' = wire := by
  obtain ⟨_, hclauses, h⟩ := except_bind_ok h
  obtain ⟨_, hsat, h⟩ := except_bind_ok h
  cases h
  exact ⟨validateClauses_ok hclauses, hsat, rfl⟩

end Baerly
