import Baerly.Query.Planner
import Baerly.Verify.Predicate

/-
  The implication checker is sound, and what the planner makes of it.

  SPEC: `predicateImplies_sound` — a document that satisfies the query satisfies the filter, for the
  shapes the checker treats soundly (`ClearFor`).  `planner_filtered_walk` — an index with a filter is
  walked when the filter is implied, or when no candidate is better than a filter that is not.

  Three shapes are left out because the checker gets them wrong: a filter that puts an `in` and a
  range on one field (it stops at the `in`), a query set that mixes types against a range filter (its
  least member is taken by the host language's conversions), and object values with a member named
  `__proto__` or `length`, which `b[key]` finds in objects and arrays that have no such member.
-/

namespace Baerly

variable {E : Engine}

/-- The host language's `<` on ordered values of one type is the comparison. -/
theorem jsLess_eq {u v : Doc} (h : sameComparableType u v = true) :
    jsLess E u v = .ok (decide (compareScalar u v = .lt)) := by
  rcases sameComparableType_cases h with ⟨a, b, rfl, rfl⟩ | ⟨a, b, rfl, rfl⟩
  · simp only [jsLess, compareScalar]
    by_cases hlt : a < b
    · simp [hlt]
    · by_cases hgt : b < a
      · simp [hlt, hgt]
      · simp [hlt, hgt]
  · simp only [jsLess, compareScalar]
    by_cases hlt : a < b
    · simp [hlt]
    · by_cases hgt : b < a
      · simp [hlt, hgt]
      · simp [hlt, hgt]

/-! ## What a decoded group knows -/

/-- One side of a bundle: its bound is one of the clauses', and the tightest of them if they are of
    one type. -/
structure SideFrom (isSide : PredicateOp → Bool) (Meets : Bound → Property → Prop)
    (cs : List PredicateClause) (side : Option Bound) : Prop where
  absent : side = none → ∀ c ∈ cs, isSide c.op = false
  source : ∀ b, side = some b → ∃ c ∈ cs, isSide c.op = true ∧ c.bound = b
  tight : ∀ b, side = some b →
    (∀ c ∈ cs, ∀ d ∈ cs, isSide c.op = true → isSide d.op = true →
      sameComparableType c.value d.value = true) →
    ∀ c ∈ cs, isSide c.op = true → ∀ actual, Meets b actual → Meets c.bound actual

section SideFrom

variable {isSide : PredicateOp → Bool} {Meets : Bound → Property → Prop}
variable {cs : List PredicateClause} {side : Option Bound} {c : PredicateClause}

/-- A side without clauses has no bound. -/
theorem SideFrom.nil : SideFrom isSide Meets [] none :=
  ⟨fun _ _ hc => absurd hc List.not_mem_nil, fun _ hb => (by cases hb), fun _ hb => (by cases hb)⟩

/-- A clause of another side leaves it as it was. -/
theorem SideFrom.skip (h : SideFrom isSide Meets cs side) (hc : isSide c.op = false) :
    SideFrom isSide Meets (cs ++ [c]) side := by
  refine ⟨fun hn d hd => ?_, fun b hb => ?_, fun b hb hty d hd hop => ?_⟩
  · rcases List.mem_append.mp hd with hd | hd
    · exact h.absent hn d hd
    · rw [List.mem_singleton.mp hd]
      exact hc
  · obtain ⟨d, hd, hop, hbd⟩ := h.source b hb
    exact ⟨d, List.mem_append_left _ hd, hop, hbd⟩
  · rcases List.mem_append.mp hd with hd | hd
    · refine h.tight b hb (fun x hx y hy => ?_) d hd hop
      exact hty x (List.mem_append_left _ hx) y (List.mem_append_left _ hy)
    · rw [List.mem_singleton.mp hd, hc] at hop
      cases hop

/-- Adding a clause of this side: the new bound is the clause's or the old one, and with one type it
    implies both. -/
theorem SideFrom.step {b' : Bound} (h : SideFrom isSide Meets cs side) (hc : isSide c.op = true)
    (hfrom : b' = c.bound ∨ side = some b')
    (htight : ∀ b, side = some b → sameComparableType b.value c.value = true →
      ∀ actual, Meets b' actual → Meets b actual ∧ Meets c.bound actual) :
    SideFrom isSide Meets (cs ++ [c]) (some b') := by
  have hlast : c ∈ cs ++ [c] := List.mem_append_right _ (List.mem_singleton.mpr rfl)
  refine ⟨fun hn => (by cases hn), fun b hb => ?_, fun b hb hty d hd hop => ?_⟩
  · cases hb
    rcases hfrom with rfl | hside
    · exact ⟨c, hlast, hc, rfl⟩
    · obtain ⟨d, hd, hop, hbd⟩ := h.source b' hside
      exact ⟨d, List.mem_append_left _ hd, hop, hbd⟩
  · cases hb
    intro actual hm
    cases hs : side with
    | none =>
      rcases hfrom with rfl | hside
      · rcases List.mem_append.mp hd with hd | hd
        · rw [h.absent hs d hd] at hop
          cases hop
        · rw [List.mem_singleton.mp hd]
          exact hm
      · rw [hs] at hside
        cases hside
    | some b =>
      obtain ⟨e, he, hope, hbe⟩ := h.source b hs
      have hsame : sameComparableType b.value c.value = true := by
        rw [← hbe]
        exact hty e (List.mem_append_left _ he) c hlast hope hc
      obtain ⟨hold, hnew⟩ := htight b hs hsame actual hm
      rcases List.mem_append.mp hd with hd | hd
      · refine h.tight b hs (fun x hx y hy => ?_) d hd hop actual hold
        exact hty x (List.mem_append_left _ hx) y (List.mem_append_left _ hy)
      · rw [List.mem_singleton.mp hd]
        exact hnew

end SideFrom

/-- The tighter of two lower bounds is one of them. -/
theorem tightestLo_from {side : Option Bound} {next b' : Bound}
    (h : tightestLo E side next = .ok b') : b' = next ∨ side = some b' := by
  cases side with
  | none => cases h; exact Or.inl rfl
  | some b =>
    simp only [tightestLo] at h
    split at h
    · cases h; exact Or.inr rfl
    · obtain ⟨x, _, h⟩ := except_bind_ok h
      cases x with
      | true => cases h; exact Or.inl rfl
      | false =>
        obtain ⟨y, _, h⟩ := except_bind_ok h
        cases y with
        | true => cases h; exact Or.inr rfl
        | false =>
          simp only [Bool.false_eq_true, if_false] at h
          split at h
          · cases h; exact Or.inl rfl
          · cases h; exact Or.inr rfl

/-- So is the tighter of two upper ones. -/
theorem tightestHi_from {side : Option Bound} {next b' : Bound}
    (h : tightestHi E side next = .ok b') : b' = next ∨ side = some b' := by
  cases side with
  | none => cases h; exact Or.inl rfl
  | some b =>
    simp only [tightestHi] at h
    split at h
    · cases h; exact Or.inr rfl
    · obtain ⟨x, _, h⟩ := except_bind_ok h
      cases x with
      | true => cases h; exact Or.inl rfl
      | false =>
        obtain ⟨y, _, h⟩ := except_bind_ok h
        cases y with
        | true => cases h; exact Or.inr rfl
        | false =>
          simp only [Bool.false_eq_true, if_false] at h
          split at h
          · cases h; exact Or.inl rfl
          · cases h; exact Or.inr rfl

/-- Values that are compared are of one type. -/
theorem typeOf_same {u v : Doc} (h : sameComparableType u v = true) : typeOf u = typeOf v := by
  rcases sameComparableType_cases h with ⟨a, b, rfl, rfl⟩ | ⟨a, b, rfl, rfl⟩
  · rfl
  · rfl

/-- On bounds of one type the tightest lower bound implies both. -/
theorem tightestLo_tight {b next b' : Bound} (hsame : sameComparableType b.value next.value = true)
    (h : tightestLo E (some b) next = .ok b') {actual : Property} (hm : b'.Below actual) :
    b.Below actual ∧ next.Below actual := by
  have hswap := compareScalar_swap b.value next.value
  simp only [tightestLo] at h
  rw [if_neg (by simp [typeOf_same hsame]), jsLess_eq hsame,
    jsLess_eq (sameComparableType_symm hsame), hswap] at h
  cases hc : compareScalar b.value next.value with
  | lt =>
    rw [hc] at h
    cases h
    exact ⟨lower_imp hsame (Or.inl hc) hm, hm⟩
  | gt =>
    rw [hc] at h hswap
    cases h
    exact ⟨hm, lower_imp (sameComparableType_symm hsame) (Or.inl hswap) hm⟩
  | eq =>
    rw [hc] at h hswap
    change (if !next.inclusive && b.inclusive then Except.ok next else Except.ok b) = _ at h
    split at h
    next hincl =>
      cases h
      simp only [Bool.and_eq_true, Bool.not_eq_true'] at hincl
      exact ⟨lower_imp hsame (Or.inr ⟨hc, Or.inr hincl.1⟩) hm, hm⟩
    next hincl =>
      cases h
      refine ⟨hm, lower_imp (sameComparableType_symm hsame) (Or.inr ⟨hswap, ?_⟩) hm⟩
      cases hn : next.inclusive with
      | true => exact Or.inl rfl
      | false =>
        rw [hn] at hincl
        exact Or.inr (by simpa using hincl)

/-- On bounds of one type the tightest upper bound implies both. -/
theorem tightestHi_tight {b next b' : Bound} (hsame : sameComparableType b.value next.value = true)
    (h : tightestHi E (some b) next = .ok b') {actual : Property} (hm : b'.Above actual) :
    b.Above actual ∧ next.Above actual := by
  have hswap := compareScalar_swap b.value next.value
  simp only [tightestHi] at h
  rw [if_neg (by simp [typeOf_same hsame]), jsLess_eq hsame,
    jsLess_eq (sameComparableType_symm hsame), hswap] at h
  cases hc : compareScalar b.value next.value with
  | gt =>
    rw [hc] at h
    cases h
    exact ⟨upper_imp hsame (Or.inl hc) hm, hm⟩
  | lt =>
    rw [hc] at h hswap
    cases h
    exact ⟨hm, upper_imp (sameComparableType_symm hsame) (Or.inl hswap) hm⟩
  | eq =>
    rw [hc] at h hswap
    change (if !next.inclusive && b.inclusive then Except.ok next else Except.ok b) = _ at h
    split at h
    next hincl =>
      cases h
      simp only [Bool.and_eq_true, Bool.not_eq_true'] at hincl
      exact ⟨upper_imp hsame (Or.inr ⟨hc, Or.inr hincl.1⟩) hm, hm⟩
    next hincl =>
      cases h
      refine ⟨hm, upper_imp (sameComparableType_symm hsame) (Or.inr ⟨hswap, ?_⟩) hm⟩
      cases hn : next.inclusive with
      | true => exact Or.inl rfl
      | false =>
        rw [hn] at hincl
        exact Or.inr (by simpa using hincl)

/-- **What a bundle knows** of the clauses it was decoded from. -/
structure BundleOk (cs : List PredicateClause) (b : OperatorBundle) : Prop where
  noEq : b.eq = none → ∀ c ∈ cs, c.op ≠ .eq
  eq : ∀ v, b.eq = some v → ∃ c ∈ cs, c.op = .eq ∧ c.value = v
  noSet : b.set = none → ∀ c ∈ cs, c.op ≠ .in
  set : ∀ vs, b.set = some vs → (∃ c ∈ cs, c.op = .in) ∧
    ∀ c ∈ cs, c.op = .in → c.value = .arr vs
  lo : SideFrom PredicateOp.isLower Bound.Below cs b.lo
  hi : SideFrom PredicateOp.isUpper Bound.Above cs b.hi

/-- No clause is summed up as nothing. -/
theorem BundleOk.nil : BundleOk [] ⟨none, none, none, none⟩ where
  noEq := fun _ c hc => absurd hc List.not_mem_nil
  eq := fun v hv => (by cases hv)
  noSet := fun _ c hc => absurd hc List.not_mem_nil
  set := fun v hv => (by cases hv)
  lo := .nil
  hi := .nil

section Step

variable {cs : List PredicateClause} {b : OperatorBundle} {c : PredicateClause}

theorem forall_mem_snoc {P : PredicateClause → Prop} :
    (∀ d ∈ cs ++ [c], P d) ↔ (∀ d ∈ cs, P d) ∧ P c := by
  constructor
  · intro h
    exact ⟨fun d hd => h d (List.mem_append_left _ hd),
      h c (List.mem_append_right _ (List.mem_singleton.mpr rfl))⟩
  · rintro ⟨hall, hc⟩ d hd
    rcases List.mem_append.mp hd with hd | hd
    · exact hall d hd
    · rw [List.mem_singleton.mp hd]
      exact hc

/-- An equality goes into the bundle. -/
theorem BundleOk.snocEq (h : BundleOk cs b) (hop : c.op = .eq) :
    BundleOk (cs ++ [c]) { b with eq := some c.value } where
  noEq := fun hn => (by cases hn)
  eq := by
    intro v hv
    cases hv
    exact ⟨c, List.mem_append_right _ (List.mem_singleton.mpr rfl), hop, rfl⟩
  noSet := fun hn => forall_mem_snoc.mpr ⟨h.noSet hn, by rw [hop]; decide⟩
  set := by
    intro vs hvs
    obtain ⟨⟨d, hd, hdop⟩, hall⟩ := h.set vs hvs
    refine ⟨⟨d, List.mem_append_left _ hd, hdop⟩, forall_mem_snoc.mpr ⟨hall, fun hin => ?_⟩⟩
    rw [hop] at hin
    cases hin
  lo := h.lo.skip (by rw [hop]; rfl)
  hi := h.hi.skip (by rw [hop]; rfl)

/-- So does the one set there may be. -/
theorem BundleOk.snocSet (h : BundleOk cs b) (hop : c.op = .in) {vs : List Doc}
    (hnone : b.set = none) (hvalue : c.value = .arr vs) :
    BundleOk (cs ++ [c]) { b with set := some vs } where
  noEq := fun hn => forall_mem_snoc.mpr ⟨h.noEq hn, by rw [hop]; decide⟩
  eq := by
    intro v hv
    obtain ⟨d, hd, hdop, hdv⟩ := h.eq v hv
    exact ⟨d, List.mem_append_left _ hd, hdop, hdv⟩
  noSet := fun hn => (by cases hn)
  set := by
    intro vs' hvs'
    cases hvs'
    refine ⟨⟨c, List.mem_append_right _ (List.mem_singleton.mpr rfl), hop⟩,
      forall_mem_snoc.mpr ⟨fun d hd hin => absurd hin (h.noSet hnone d hd), fun _ => hvalue⟩⟩
  lo := h.lo.skip (by rw [hop]; rfl)
  hi := h.hi.skip (by rw [hop]; rfl)

/-- A range clause changes the two sides only. -/
theorem BundleOk.snocRange (h : BundleOk cs b) (hne : c.op ≠ .eq) (hni : c.op ≠ .in)
    {lo hi : Option Bound} (hlo : SideFrom PredicateOp.isLower Bound.Below (cs ++ [c]) lo)
    (hhi : SideFrom PredicateOp.isUpper Bound.Above (cs ++ [c]) hi) :
    BundleOk (cs ++ [c]) { b with lo := lo, hi := hi } where
  noEq := fun hn => forall_mem_snoc.mpr ⟨h.noEq hn, hne⟩
  eq := by
    intro v hv
    obtain ⟨d, hd, hdop, hdv⟩ := h.eq v hv
    exact ⟨d, List.mem_append_left _ hd, hdop, hdv⟩
  noSet := fun hn => forall_mem_snoc.mpr ⟨h.noSet hn, hni⟩
  set := by
    intro vs hvs
    obtain ⟨⟨d, hd, hdop⟩, hall⟩ := h.set vs hvs
    exact ⟨⟨d, List.mem_append_left _ hd, hdop⟩,
      forall_mem_snoc.mpr ⟨hall, fun hin => absurd hin hni⟩⟩
  lo := hlo
  hi := hhi

/-- A lower bound goes to its side. -/
theorem SideFrom.lower {lo : Bound} (h : BundleOk cs b) (hop : c.op.isLower = true)
    (hlo : tightestLo E b.lo c.bound = .ok lo) :
    SideFrom PredicateOp.isLower Bound.Below (cs ++ [c]) (some lo) := by
  refine h.lo.step hop (tightestLo_from hlo) fun x hx hsame actual hm => ?_
  rw [hx] at hlo
  exact tightestLo_tight hsame hlo hm

/-- And an upper one to its own. -/
theorem SideFrom.upper {hi : Bound} (h : BundleOk cs b) (hop : c.op.isUpper = true)
    (hhi : tightestHi E b.hi c.bound = .ok hi) :
    SideFrom PredicateOp.isUpper Bound.Above (cs ++ [c]) (some hi) := by
  refine h.hi.step hop (tightestHi_from hhi) fun x hx hsame actual hm => ?_
  rw [hx] at hhi
  exact tightestHi_tight hsame hhi hm

end Step

/-- **A bundle sums up its clauses**, by induction on those that are left. -/
theorem decodeClauses_ok {cs : List PredicateClause} : ∀ {done : List PredicateClause}
    {b b' : OperatorBundle}, BundleOk done b → decodeClauses E b cs = .ok (some b') →
      BundleOk (done ++ cs) b' := by
  induction cs with
  | nil =>
    intro done b b' hb h
    cases h
    rw [List.append_nil]
    exact hb
  | cons c cs ih =>
    intro done b b' hb h
    rw [← List.singleton_append, ← List.append_assoc]
    obtain ⟨op, field, value, hwf⟩ := c
    cases op with
    | eq => exact ih (hb.snocEq rfl) h
    | «in» =>
      simp only [decodeClauses] at h
      split at h
      next values hnone => exact ih (hb.snocSet rfl hnone rfl) h
      next => cases h
    | gt =>
      obtain ⟨lo, hlo, h⟩ := except_bind_ok h
      exact ih (hb.snocRange (by rintro ⟨⟩) (by rintro ⟨⟩)
        (.lower (c := ⟨.gt, field, value, hwf⟩) hb rfl hlo) (hb.hi.skip rfl)) h
    | gte =>
      obtain ⟨lo, hlo, h⟩ := except_bind_ok h
      exact ih (hb.snocRange (by rintro ⟨⟩) (by rintro ⟨⟩)
        (.lower (c := ⟨.gte, field, value, hwf⟩) hb rfl hlo) (hb.hi.skip rfl)) h
    | lt =>
      obtain ⟨hi, hhi, h⟩ := except_bind_ok h
      exact ih (hb.snocRange (by rintro ⟨⟩) (by rintro ⟨⟩) (hb.lo.skip rfl)
        (.upper (c := ⟨.lt, field, value, hwf⟩) hb rfl hhi)) h
    | lte =>
      obtain ⟨hi, hhi, h⟩ := except_bind_ok h
      exact ih (hb.snocRange (by rintro ⟨⟩) (by rintro ⟨⟩) (hb.lo.skip rfl)
        (.upper (c := ⟨.lte, field, value, hwf⟩) hb rfl hhi)) h

/-- So it does for the clauses of a field. -/
theorem decodeGroup_ok {cs : List PredicateClause} {b : OperatorBundle}
    (h : decodeGroup E cs = .ok (some b)) : BundleOk cs b :=
  decodeClauses_ok .nil h

/-! ## Bounds a query implies -/

theorem sameComparableType_of_typeOf {u v : Doc} (hu : u.isOrdered = true)
    (h : typeOf u = typeOf v) : sameComparableType u v = true := by
  rcases sameComparableType_cases hu with ⟨a, _, rfl, _⟩ | ⟨a, _, rfl, _⟩
  · cases v <;> first | rfl | cases h
  · cases v <;> first | rfl | cases h

/-- A lower bound that implies another one does. -/
theorem lowerBoundImplies_sound {lo x : Bound} (hord : lo.value.isOrdered = true)
    (h : lowerBoundImplies E lo (some x) = .ok true) :
    sameComparableType lo.value x.value = true ∧
      ∀ actual, x.Below actual → lo.Below actual := by
  simp only [lowerBoundImplies] at h
  split at h
  next => cases h
  next htype =>
    have hsame := sameComparableType_of_typeOf hord (not_not.mp htype)
    have hswap := compareScalar_swap lo.value x.value
    rw [jsLess_eq hsame, jsLess_eq (sameComparableType_symm hsame), hswap] at h
    refine ⟨hsame, fun actual hm => lower_imp hsame ?_ hm⟩
    cases hc : compareScalar lo.value x.value with
    | lt => exact Or.inl rfl
    | gt => rw [hc] at h; cases h
    | eq =>
      rw [hc] at h
      refine Or.inr ⟨rfl, ?_⟩
      cases hi : lo.inclusive with
      | true => exact Or.inl rfl
      | false =>
        rw [hi] at h
        exact Or.inr (by simpa [bind, Except.bind] using h)

/-- A tighter upper bound implies a looser one. -/
theorem upperBoundImplies_sound {hi x : Bound} (hord : hi.value.isOrdered = true)
    (h : upperBoundImplies E hi (some x) = .ok true) :
    sameComparableType hi.value x.value = true ∧
      ∀ actual, x.Above actual → hi.Above actual := by
  simp only [upperBoundImplies] at h
  split at h
  next => cases h
  next htype =>
    have hsame := sameComparableType_of_typeOf hord (not_not.mp htype)
    have hswap := compareScalar_swap hi.value x.value
    rw [jsLess_eq hsame, jsLess_eq (sameComparableType_symm hsame), hswap] at h
    refine ⟨hsame, fun actual hm => upper_imp hsame ?_ hm⟩
    cases hc : compareScalar hi.value x.value with
    | gt => exact Or.inl rfl
    | lt => rw [hc] at h; cases h
    | eq =>
      rw [hc] at h
      refine Or.inr ⟨rfl, ?_⟩
      cases hi' : hi.inclusive with
      | true => exact Or.inl rfl
      | false =>
        rw [hi'] at h
        exact Or.inr (by simpa [bind, Except.bind] using h)

/-- An ordered value is matched by itself alone. -/
theorem matchesEq_ordered {v : Doc} (hv : v.isOrdered = true) {actual : Property}
    (h : matchesEq v actual = .ok true) : actual = .value v := by
  rcases sameComparableType_cases hv with ⟨a, _, rfl, _⟩ | ⟨a, _, rfl, _⟩
  · simpa [matchesEq] using h
  · simpa [matchesEq] using h

/-- `u` and `v` are ordered values of one type, and `v` is not below `u`. -/
def AtMost (u v : Doc) : Prop :=
  sameComparableType u v = true ∧ compareScalar u v ≠ .gt

/-- An ordered value is at most itself. -/
theorem AtMost.refl {u : Doc} (h : u.isOrdered = true) : AtMost u u := by
  refine ⟨h, ?_⟩
  rcases sameComparableType_cases h with ⟨a, _, rfl, _⟩ | ⟨a, _, rfl, _⟩
  · simp [compareScalar]
  · simp [compareScalar]

/-- The order is transitive. -/
theorem AtMost.trans {u v x : Doc} (h : AtMost u v) (h' : AtMost v x) : AtMost u x := by
  obtain ⟨hs, hc⟩ := h
  obtain ⟨hs', hc'⟩ := h'
  refine ⟨sameComparableType_trans hs hs', ?_⟩
  rcases sameComparableType_cases hs with ⟨a, b, rfl, rfl⟩ | ⟨a, b, rfl, rfl⟩
  · rcases sameComparableType_cases hs' with ⟨_, d, hd, rfl⟩ | ⟨_, d, hd, rfl⟩
    · cases hd
      rw [compareScalar, Ne, ordering_gt, not_lt] at hc hc' ⊢
      exact le_trans hc hc'
    · cases hd
  · rcases sameComparableType_cases hs' with ⟨_, d, hd, rfl⟩ | ⟨_, d, hd, rfl⟩
    · cases hd
    · cases hd
      rw [compareScalar, Ne, ordering_gt, not_lt] at hc hc' ⊢
      exact le_trans hc hc'

/-- What is at least a value meets it from below. -/
theorem AtMost.below {u v : Doc} (h : AtMost u v) : compareGT (.value v) u true = true := by
  refine compareGT_self (sameComparableType_symm h.1) ?_
  rw [compareScalar_swap u v]
  rintro (hlt | ⟨_, hfalse⟩)
  · exact h.2 (by simpa [Ordering.swap_eq_iff_eq_swap] using hlt)
  · cases hfalse

/-- And what is at most one, from above. -/
theorem AtMost.above {u v : Doc} (h : AtMost u v) : compareLT (.value u) v true = true := by
  refine compareLT_self h.1 ?_
  rintro (hgt | ⟨_, hfalse⟩)
  · exact h.2 hgt
  · cases hfalse

/-- A comparison that is not `<` leaves `≥`. -/
theorem AtMost.of_not_lt {u v : Doc} (hsame : sameComparableType u v = true)
    (h : compareScalar v u ≠ .lt) : AtMost u v := by
  refine ⟨hsame, fun hgt => h ?_⟩
  rw [compareScalar_swap u v, hgt]
  rfl

/-- The least member of a set of one ordered type is at most every member. -/
theorem leastOf_ok {values : List Doc} : ∀ {acc least : Doc}, acc.isOrdered = true →
    (∀ v ∈ values, sameComparableType acc v = true) → leastOf E acc values = .ok least →
      ∀ v ∈ acc :: values, AtMost least v := by
  induction values with
  | nil =>
    intro acc least hacc _ h v hv
    cases h
    rw [List.mem_singleton.mp hv]
    exact .refl hacc
  | cons x values ih =>
    intro acc least hacc htype h
    have hx : sameComparableType acc x = true := htype x List.mem_cons_self
    have hx' := sameComparableType_symm hx
    rw [leastOf, jsLess_eq hx'] at h
    by_cases hc : compareScalar x acc = .lt
    · rw [hc] at h
      have hall := ih (sameComparableType_trans hx' hx)
        (fun v hv => sameComparableType_trans hx' (htype v (List.mem_cons_of_mem x hv))) h
      intro v hv
      rcases List.mem_cons.mp hv with rfl | hv
      · exact (hall x List.mem_cons_self).trans ⟨hx', by rw [hc]; decide⟩
      · exact hall v hv
    · have hdec : decide (compareScalar x acc = .lt) = false := by simpa using hc
      rw [hdec] at h
      have hall := ih hacc (fun v hv => htype v (List.mem_cons_of_mem x hv)) h
      have hacc' := hall acc List.mem_cons_self
      intro v hv
      rcases List.mem_cons.mp hv with rfl | hv
      · exact hacc'
      · rcases List.mem_cons.mp hv with rfl | hv
        · exact hacc'.trans (.of_not_lt hx hc)
        · exact hall v (List.mem_cons_of_mem acc hv)

/-- The greatest member of a set of one ordered type is at least every member. -/
theorem greatestOf_ok {values : List Doc} : ∀ {acc greatest : Doc}, acc.isOrdered = true →
    (∀ v ∈ values, sameComparableType acc v = true) → greatestOf E acc values = .ok greatest →
      ∀ v ∈ acc :: values, AtMost v greatest := by
  induction values with
  | nil =>
    intro acc greatest hacc _ h v hv
    cases h
    rw [List.mem_singleton.mp hv]
    exact .refl hacc
  | cons x values ih =>
    intro acc greatest hacc htype h
    have hx : sameComparableType acc x = true := htype x List.mem_cons_self
    have hx' := sameComparableType_symm hx
    rw [greatestOf, jsLess_eq hx] at h
    by_cases hc : compareScalar acc x = .lt
    · rw [hc] at h
      have hall := ih (sameComparableType_trans hx' hx)
        (fun v hv => sameComparableType_trans hx' (htype v (List.mem_cons_of_mem x hv))) h
      intro v hv
      rcases List.mem_cons.mp hv with rfl | hv
      · exact AtMost.trans ⟨hx, by rw [hc]; decide⟩ (hall x List.mem_cons_self)
      · exact hall v hv
    · have hdec : decide (compareScalar acc x = .lt) = false := by simpa using hc
      rw [hdec] at h
      have hall := ih hacc (fun v hv => htype v (List.mem_cons_of_mem x hv)) h
      have hacc' := hall acc List.mem_cons_self
      intro v hv
      rcases List.mem_cons.mp hv with rfl | hv
      · exact hacc'
      · rcases List.mem_cons.mp hv with rfl | hv
        · exact (AtMost.of_not_lt hx' hc).trans hacc'
        · exact hall v (List.mem_cons_of_mem acc hv)

/-- The least member is a member. -/
theorem leastOf_mem {values : List Doc} : ∀ {acc least : Doc}, leastOf E acc values = .ok least →
    least ∈ acc :: values := by
  induction values with
  | nil => intro acc least h; cases h; exact List.mem_cons_self
  | cons x values ih =>
    intro acc least h
    rw [leastOf] at h
    obtain ⟨b, _, h⟩ := except_bind_ok h
    cases b with
    | true => exact List.mem_cons_of_mem acc (ih h)
    | false =>
      rcases List.mem_cons.mp (ih h) with rfl | hmem
      · exact List.mem_cons_self
      · exact List.mem_cons_of_mem acc (List.mem_cons_of_mem x hmem)

/-- So is the greatest. -/
theorem greatestOf_mem {values : List Doc} : ∀ {acc greatest : Doc},
    greatestOf E acc values = .ok greatest → greatest ∈ acc :: values := by
  induction values with
  | nil => intro acc greatest h; cases h; exact List.mem_cons_self
  | cons x values ih =>
    intro acc greatest h
    rw [greatestOf] at h
    obtain ⟨b, _, h⟩ := except_bind_ok h
    cases b with
    | true => exact List.mem_cons_of_mem acc (ih h)
    | false =>
      rcases List.mem_cons.mp (ih h) with rfl | hmem
      · exact List.mem_cons_self
      · exact List.mem_cons_of_mem acc (List.mem_cons_of_mem x hmem)

/-! ## The bounds of a query hold of its documents -/

/-- The members of a set are all of one type. -/
def OneType (set : List Doc) : Prop :=
  ∀ u ∈ set, ∀ v ∈ set, typeOf u = typeOf v

section Query

variable {cs : List PredicateClause} {q : OperatorBundle} {actual : Property}

/-- A set that matches a document's value holds it, if its members are ordered. -/
theorem matchesIn_ordered {values : List Doc} (hord : ∀ v ∈ values, v.isOrdered = true)
    (h : matchesIn values actual = .ok true) : ∃ v ∈ values, actual = .value v := by
  obtain ⟨v, hv, hmatch⟩ := matchesIn_ok h
  exact ⟨v, hv, matchesEq_ordered (hord v hv) hmatch⟩

/-- What matches the clauses matches the set of their bundle. -/
theorem BundleOk.matchesSet (hq : BundleOk cs q)
    (hm : ∀ c ∈ cs, matchesClause c actual = .ok true) {values : List Doc}
    (hset : q.set = some values) : matchesIn values actual = .ok true := by
  obtain ⟨⟨c, hc, hop⟩, hall⟩ := hq.set values hset
  have hmatch := hm c hc
  rw [matchesClause, hop, hall c hc hop] at hmatch
  exact hmatch

/-- And its equality. -/
theorem BundleOk.matchesEq (hq : BundleOk cs q)
    (hm : ∀ c ∈ cs, matchesClause c actual = .ok true) {v : Doc}
    (heq : q.eq = some v) : Baerly.matchesEq v actual = .ok true := by
  obtain ⟨c, hc, hop, hv⟩ := hq.eq v heq
  have hmatch := hm c hc
  rw [matchesClause, hop, hv] at hmatch
  exact hmatch

/-- Members of one type are comparable with a member that is ordered. -/
theorem OneType.comparable {values : List Doc} (h : OneType values) {u : Doc} (hu : u ∈ values)
    (hord : u.isOrdered = true) : ∀ v ∈ values, sameComparableType u v = true :=
  fun v hv => sameComparableType_of_typeOf hord (h u hu v hv)

/-- **The lower bound a query implies holds of its documents**, if it has an ordered value. -/
theorem loFromQuery_below (hq : BundleOk cs q)
    (htype : q.eq = none → ∀ values, q.set = some values → OneType values)
    (hm : ∀ c ∈ cs, matchesClause c actual = .ok true) {x : Bound}
    (h : loFromQuery E q = .ok (some x)) (hord : x.value.isOrdered = true) : x.Below actual := by
  have hown : q.lo = some x → x.Below actual := by
    intro hlo
    obtain ⟨c, hc, hop, hb⟩ := hq.lo.source x hlo
    rw [← hb]
    exact (matchesClause_lower hop actual).mp (hm c hc)
  unfold loFromQuery at h
  split at h
  next v heq =>
    cases h
    rw [matchesEq_ordered hord (hq.matchesEq hm heq)]
    exact (AtMost.refl hord).below
  next v values heq hset =>
    obtain ⟨least, hleast, h⟩ := except_bind_ok h
    cases h
    have hmem : least ∈ v :: values := by
      rcases List.mem_cons.mp (leastOf_mem hleast) with rfl | hmem
      · exact List.mem_cons_self
      · exact hmem
    have hcomp := (htype heq _ hset).comparable hmem hord
    have hcomp' : ∀ u ∈ v :: values, sameComparableType v u = true := fun u hu =>
      sameComparableType_trans (sameComparableType_symm (hcomp v List.mem_cons_self)) (hcomp u hu)
    obtain ⟨u, hu, rfl⟩ := matchesIn_ordered
      (fun u hu => sameComparableType_trans (sameComparableType_symm (hcomp u hu)) (hcomp u hu))
      (hq.matchesSet hm hset)
    exact (leastOf_ok (hcomp' v List.mem_cons_self) hcomp' hleast u
      (List.mem_cons_of_mem v hu)).below
  next => exact hown (Except.ok.inj h)

/-- **The upper bound a query implies holds of its documents**, if it has an ordered value. -/
theorem hiFromQuery_above (hq : BundleOk cs q)
    (htype : q.eq = none → ∀ values, q.set = some values → OneType values)
    (hm : ∀ c ∈ cs, matchesClause c actual = .ok true) {x : Bound}
    (h : hiFromQuery E q = .ok (some x)) (hord : x.value.isOrdered = true) : x.Above actual := by
  have hown : q.hi = some x → x.Above actual := by
    intro hhi
    obtain ⟨c, hc, hop, hb⟩ := hq.hi.source x hhi
    rw [← hb]
    exact (matchesClause_upper hop actual).mp (hm c hc)
  unfold hiFromQuery at h
  split at h
  next v heq =>
    cases h
    rw [matchesEq_ordered hord (hq.matchesEq hm heq)]
    exact (AtMost.refl hord).above
  next v values heq hset =>
    obtain ⟨greatest, hgreatest, h⟩ := except_bind_ok h
    cases h
    have hmem : greatest ∈ v :: values := by
      rcases List.mem_cons.mp (greatestOf_mem hgreatest) with rfl | hmem
      · exact List.mem_cons_self
      · exact hmem
    have hcomp := (htype heq _ hset).comparable hmem hord
    have hcomp' : ∀ u ∈ v :: values, sameComparableType v u = true := fun u hu =>
      sameComparableType_trans (sameComparableType_symm (hcomp v List.mem_cons_self)) (hcomp u hu)
    obtain ⟨u, hu, rfl⟩ := matchesIn_ordered
      (fun u hu => sameComparableType_trans (sameComparableType_symm (hcomp u hu)) (hcomp u hu))
      (hq.matchesSet hm hset)
    exact (greatestOf_ok (hcomp' v List.mem_cons_self) hcomp' hgreatest u
      (List.mem_cons_of_mem v hu)).above
  next => exact hown (Except.ok.inj h)

end Query

/-! ## One field -/

/-- A set contains what a member of it is equal to. -/
theorem setContains_ok {v : Doc} {set : List Doc} (h : setContains v set = .ok true) :
    ∃ m ∈ set, deepEqualDocumentValue m v = .ok true := by
  induction set with
  | nil => cases h
  | cons m set ih =>
    rw [setContains] at h
    obtain ⟨b, hb, hrest⟩ := except_bind_ok h
    cases b with
    | true => exact ⟨m, List.mem_cons_self, hb⟩
    | false =>
      obtain ⟨m', hm', heq⟩ := ih hrest
      exact ⟨m', List.mem_cons_of_mem m hm', heq⟩

/-- It covers a set if it contains its members. -/
theorem setCovers_ok {set values : List Doc} (h : setCovers set values = .ok true) :
    ∀ v ∈ values, setContains v set = .ok true := by
  induction values with
  | nil => exact fun v hv => absurd hv List.not_mem_nil
  | cons w values ih =>
    rw [setCovers] at h
    obtain ⟨b, hb, hrest⟩ := except_bind_ok h
    cases b with
    | true =>
      intro v hv
      rcases List.mem_cons.mp hv with rfl | hv
      · exact hb
      · exact ih hrest v hv
    | false => cases hrest

/-- What a validated filter gives of its clauses on one field. -/
structure FilterOk (cs : List PredicateClause) (g : FieldGroup) : Prop where
  clauses : ∀ c ∈ cs, ClauseOk c
  group : GroupOk cs g
  eqOk : ∀ eq rest, g.eqs = eq :: rest → EqOk eq rest g

section Field

variable {cs : List PredicateClause} {g : FieldGroup} {actual : Property}

theorem ClauseOk.members_wf {c : PredicateClause} {values : List Doc} (h : c.value = .arr values) :
    ∀ v ∈ values, v.wf = true := by
  have hwf := c.wf
  rw [h] at hwf
  exact fun v hv => wfList_mem hwf hv

theorem PredicateClause.members_noNull {c : PredicateClause} (hn : c.value.noNull = true)
    {values : List Doc} (h : c.value = .arr values) : ∀ v ∈ values, v.noNull = true := by
  rw [h] at hn
  exact fun v hv => noNullList_mem hn hv

/-- A set matches what a value equal to one of its members matches. -/
theorem PredicateClause.matchesSet {c : PredicateClause} (hn : c.value.noNull = true)
    (hplain : c.value.plainKeys = true) {values : List Doc} (hvalue : c.value = .arr values)
    {m v : Doc} (hm : m ∈ values) (hv : v.wf = true) (heq : deepEqualDocumentValue m v = .ok true)
    (hmatch : matchesEq v actual = .ok true) : matchesIn values actual = .ok true := by
  have hmplain : m.plainKeys = true := by
    rw [hvalue] at hplain
    exact plainKeysList_mem hplain hm
  exact matchesIn_of_mem (c.members_noNull hn hvalue) hm
    ((deepEqual_matches (ClauseOk.members_wf hvalue m hm) hv hmplain heq actual).mpr hmatch)

/-- The equalities of a field are well formed. -/
theorem FilterOk.eq_wf (hf : FilterOk cs g) {v : Doc} (hv : v ∈ g.eqs) : v.wf = true := by
  rw [hf.group.eqs] at hv
  obtain ⟨c, _, rfl⟩ := List.mem_map.mp hv
  exact c.wf

/-- They match alike, if no key of the first is found by inheritance. -/
theorem FilterOk.eqs_agree (hf : FilterOk cs g) {eq : Doc} {rest : List Doc}
    (heqs : g.eqs = eq :: rest) (hplain : eq.plainKeys = true) {v : Doc} (hv : v ∈ g.eqs)
    (actual : Property) : matchesEq eq actual = .ok true ↔ matchesEq v actual = .ok true := by
  have heqwf : eq.wf = true := hf.eq_wf (by rw [heqs]; exact List.mem_cons_self)
  have hv' := hv
  rw [heqs] at hv'
  rcases List.mem_cons.mp hv' with rfl | hrest
  · exact Iff.rfl
  · exact deepEqual_matches heqwf (hf.eq_wf hv) hplain ((hf.eqOk eq rest heqs).agree v hrest) actual

/-- Beside a bound all equalities of a field are one ordered value. -/
theorem FilterOk.ordered_first (hf : FilterOk cs g) {eq : Doc} {rest : List Doc}
    (heqs : g.eqs = eq :: rest) (hord : eq.isOrdered = true) {v w : Doc} (hv : v ∈ g.eqs)
    (hequal : deepEqualDocumentValue w v = .ok true) (hmatch : matchesEq w actual = .ok true) :
    matchesEq eq actual = .ok true := by
  have hscalar : eq.isObjectLike = false := by
    rcases sameComparableType_cases hord with ⟨a, _, rfl, _⟩ | ⟨a, _, rfl, _⟩
    · rfl
    · rfl
  have hveq : v = eq := by
    rw [heqs] at hv
    rcases List.mem_cons.mp hv with heq | hrest
    · exact heq
    · exact deepEqual_scalar hscalar ((hf.eqOk eq rest heqs).agree _ hrest)
  rw [hveq] at hequal
  rw [deepEqual_scalar_right hscalar hequal] at hmatch
  exact hmatch

/-- **A filter with an equality is that equality**: a document that matches an equal value satisfies
    the other clauses on the field.  The bounds need no more, since they leave no object; the
    equalities and the sets need that no key is found by inheritance. -/
theorem FilterOk.of_eq (hf : FilterOk cs g) {c₀ : PredicateClause} (hc₀ : c₀ ∈ cs)
    (hop₀ : c₀.op = .eq) {w : Doc} (hw : w.wf = true)
    (hequal : deepEqualDocumentValue w c₀.value = .ok true)
    (hmatch : matchesEq w actual = .ok true) :
    ∀ c ∈ cs, (c.op = .in → c.value.noNull = true) →
      (c.op = .eq ∨ c.op = .in →
        w.plainKeys = true ∧ ∀ d ∈ cs, d.op = .eq → d.value.plainKeys = true) →
      matchesClause c actual = .ok true := by
  have hmem₀ : c₀.value ∈ g.eqs := by
    rw [hf.group.eqs]
    exact List.mem_map.mpr ⟨c₀, List.mem_filter.mpr ⟨hc₀, by simpa using hop₀⟩, rfl⟩
  obtain ⟨eq, rest, heqs⟩ := List.exists_cons_of_ne_nil (List.ne_nil_of_mem hmem₀)
  have hok := hf.eqOk eq rest heqs
  have heqmem : eq ∈ g.eqs := by rw [heqs]; exact List.mem_cons_self
  -- the first equality matches, whichever of them was known to
  have hfirst : eq.plainKeys = true → w.plainKeys = true → matchesEq eq actual = .ok true :=
    fun hplain hwplain => (hf.eqs_agree heqs hplain hmem₀ actual).mpr
      ((deepEqual_matches hw c₀.wf hwplain hequal actual).mp hmatch)
  have hordered : eq.isOrdered = true → matchesEq eq actual = .ok true :=
    fun hord => hf.ordered_first heqs hord hmem₀ hequal hmatch
  intro c hc hnull hplain
  by_cases hlower : c.op.isLower = true
  · refine (matchesClause_lower hlower actual).mpr ?_
    cases hlo : g.lo with
    | none =>
      rw [hf.group.lo.absent hlo c hc] at hlower
      cases hlower
    | some b =>
      obtain ⟨hsame, hbelow⟩ := hok.above b hlo
      have hord : eq.isOrdered = true :=
        sameComparableType_trans hsame (sameComparableType_symm hsame)
      rw [matchesEq_ordered hord (hordered hord)]
      exact (hf.group.lo.present b hlo c hc hlower).2 _ hbelow
  by_cases hupper : c.op.isUpper = true
  · refine (matchesClause_upper hupper actual).mpr ?_
    cases hhi : g.hi with
    | none =>
      rw [hf.group.hi.absent hhi c hc] at hupper
      cases hupper
    | some b =>
      obtain ⟨hsame, habove⟩ := hok.below b hhi
      have hord : eq.isOrdered = true :=
        sameComparableType_trans hsame (sameComparableType_symm hsame)
      rw [matchesEq_ordered hord (hordered hord)]
      exact (hf.group.hi.present b hhi c hc hupper).2 _ habove
  have hplainEq : c.op = .eq ∨ c.op = .in → w.plainKeys = true ∧ eq.plainKeys = true := by
    intro hop
    obtain ⟨hwplain, hall⟩ := hplain hop
    rw [hf.group.eqs] at heqmem
    obtain ⟨d, hd, rfl⟩ := List.mem_map.mp heqmem
    obtain ⟨hd, hdop⟩ := List.mem_filter.mp hd
    exact ⟨hwplain, hall d hd (by simpa using hdop)⟩
  obtain ⟨op, field, value, hvalue⟩ := c
  cases op with
  | eq =>
    obtain ⟨hwplain, heqplain⟩ := hplainEq (Or.inl rfl)
    refine (hf.eqs_agree heqs heqplain (v := value) ?_ actual).mp (hfirst heqplain hwplain)
    rw [hf.group.eqs]
    exact List.mem_map.mpr ⟨_, List.mem_filter.mpr ⟨hc, by simp⟩, rfl⟩
  | «in» =>
    obtain ⟨hwplain, heqplain⟩ := hplainEq (Or.inr rfl)
    obtain ⟨values, hset⟩ := (hf.clauses _ hc).set rfl
    have hins : values ∈ g.ins := by
      rw [hf.group.ins]
      exact List.mem_map.mpr ⟨_, List.mem_filter.mpr ⟨hc, by simp⟩, by
        change inMembers value = values
        rw [show value = .arr values from hset]
        rfl⟩
    obtain ⟨m, hm, heq⟩ := hok.sets values hins
    have hmm := (deepEqual_matches (hf.eq_wf heqmem) (ClauseOk.members_wf hset m hm) heqplain heq
      actual).mp
      (hfirst heqplain hwplain)
    change matchesIn (inMembers value) actual = .ok true
    rw [show value = .arr values from hset]
    exact matchesIn_of_mem (PredicateClause.members_noNull (hnull rfl) hset) hm hmm
  | gt => exact absurd rfl hlower
  | gte => exact absurd rfl hlower
  | lt => exact absurd rfl hupper
  | lte => exact absurd rfl hupper

variable {ds : List PredicateClause} {f q : OperatorBundle}

/-- A clause that is no equality and no set is a bound. -/
theorem PredicateOp.bound_of_ne {op : PredicateOp} (hne : op ≠ .eq) (hni : op ≠ .in) :
    op.isLower = true ∨ op.isUpper = true := by
  cases op with
  | eq => exact absurd rfl hne
  | «in» => exact absurd rfl hni
  | gt => exact Or.inl rfl
  | gte => exact Or.inl rfl
  | lt => exact Or.inr rfl
  | lte => exact Or.inr rfl

/-- The bounds on one side of a validated filter are of one type. -/
theorem SideOk.oneType {isSide : PredicateOp → Bool} {Meets : Bound → Property → Prop}
    {side : Option Bound} (h : SideOk isSide Meets cs side) :
    ∀ c ∈ cs, ∀ d ∈ cs, isSide c.op = true → isSide d.op = true →
      sameComparableType c.value d.value = true := by
  intro c hc d hd hcop hdop
  cases side with
  | none =>
    rw [h.absent rfl c hc] at hcop
    cases hcop
  | some b =>
    exact sameComparableType_trans (sameComparableType_symm (h.present b rfl c hc hcop).1)
      (h.present b rfl d hd hdop).1

/-- A filter that is a set: the query's value, or each of its values, is a member. -/
theorem bundleImplies_set (hfb : BundleOk cs f) (hqb : BundleOk ds q)
    (hnone : f.eq = none) {set : List Doc} (hset : f.set = some set)
    (h : bundleImplies E f q = .ok true)
    (hm : ∀ c ∈ ds, matchesClause c actual = .ok true) :
    ∀ c ∈ cs, c.op = .in → c.value.noNull = true → c.value.plainKeys = true →
      matchesClause c actual = .ok true := by
  have hcovered : ∃ v, v.wf = true ∧ matchesEq v actual = .ok true ∧
      setContains v set = .ok true := by
    unfold bundleImplies at h
    rw [hnone, hset] at h
    simp only at h
    split at h
    next v heq =>
      obtain ⟨c, _, _, rfl⟩ := hqb.eq v heq
      exact ⟨c.value, c.wf, hqb.matchesEq hm heq, h⟩
    next values _ hvalues =>
      obtain ⟨v, hv, hmatch⟩ := matchesIn_ok (hqb.matchesSet hm hvalues)
      obtain ⟨⟨c, hc, hop⟩, hall⟩ := hqb.set values hvalues
      exact ⟨v, ClauseOk.members_wf (hall c hc hop) v hv, hmatch, setCovers_ok h v hv⟩
    next => cases h
  obtain ⟨v, hwf, hmatch, hcontains⟩ := hcovered
  obtain ⟨m, hmem, heq⟩ := setContains_ok hcontains
  intro c hc hop hn hplain
  have hvalue := (hfb.set set hset).2 c hc hop
  rw [matchesClause, hop, hvalue]
  exact c.matchesSet hn hplain hvalue hmem hwf heq hmatch

/-- What the range branch has checked. -/
theorem bundleImplies_bounds (hnone : f.eq = none) (hset : f.set = none)
    (h : bundleImplies E f q = .ok true) :
    (∀ lo, f.lo = some lo → ∃ x, loFromQuery E q = .ok x ∧ lowerBoundImplies E lo x = .ok true) ∧
    (∀ hi, f.hi = some hi → ∃ x, hiFromQuery E q = .ok x ∧ upperBoundImplies E hi x = .ok true) := by
  have hpassed : ∀ {loOk : Bool} {r : Except Err Bool},
      (if !loOk then .ok false else r) = .ok true → loOk = true ∧ r = .ok true := by
    intro loOk r h
    cases loOk with
    | false => cases h
    | true => exact ⟨rfl, h⟩
  unfold bundleImplies at h
  rw [hnone, hset] at h
  simp only at h
  cases hlo : f.lo with
  | none =>
    rw [hlo] at h
    obtain ⟨-, hrest⟩ := @hpassed true _ h
    refine ⟨fun lo hl => (by cases hl), fun hi hhi => ?_⟩
    rw [hhi] at hrest
    exact except_bind_ok hrest
  | some lo =>
    rw [hlo] at h
    obtain ⟨loQ, hloQ, h⟩ := except_bind_ok h
    obtain ⟨loOk, hloOk, h⟩ := except_bind_ok h
    obtain ⟨rfl, hrest⟩ := hpassed h
    refine ⟨fun lo' hl => ?_, fun hi hhi => ?_⟩
    · cases hl
      exact ⟨loQ, hloQ, hloOk⟩
    · rw [hhi] at hrest
      exact except_bind_ok hrest

/-- A filter that is a range: each side follows from the query's bound on it. -/
theorem bundleImplies_range (hf : FilterOk cs g) (hfb : BundleOk cs f) (hqb : BundleOk ds q)
    (hnone : f.eq = none) (hset : f.set = none)
    (htype : q.eq = none → ∀ values, q.set = some values → OneType values)
    (h : bundleImplies E f q = .ok true)
    (hm : ∀ c ∈ ds, matchesClause c actual = .ok true) :
    ∀ c ∈ cs, matchesClause c actual = .ok true := by
  obtain ⟨hlower, hupper⟩ := bundleImplies_bounds hnone hset h
  have hord : ∀ {c : PredicateClause}, c ∈ cs → c.op.isLower = true ∨ c.op.isUpper = true →
      c.value.isOrdered = true := fun hc hop => (hf.clauses _ hc).ordered hop
  intro c hc
  rcases PredicateOp.bound_of_ne (hfb.noEq hnone c hc) (hfb.noSet hset c hc) with hop | hop
  · refine (matchesClause_lower hop actual).mpr ?_
    cases hlo : f.lo with
    | none =>
      rw [hfb.lo.absent hlo c hc] at hop
      cases hop
    | some lo =>
      obtain ⟨loQ, hloQ, himp⟩ := hlower lo hlo
      obtain ⟨d, hd, hdop, hdb⟩ := hfb.lo.source lo hlo
      have hloord : lo.value.isOrdered = true := by
        rw [← hdb]
        exact hord hd (Or.inl hdop)
      refine hfb.lo.tight lo hlo hf.group.lo.oneType c hc hop actual ?_
      cases loQ with
      | none => cases himp
      | some x =>
        obtain ⟨hsame, hx⟩ := lowerBoundImplies_sound hloord himp
        refine hx actual (loFromQuery_below hqb htype hm hloQ ?_)
        exact sameComparableType_trans (sameComparableType_symm hsame) hsame
  · refine (matchesClause_upper hop actual).mpr ?_
    cases hhi : f.hi with
    | none =>
      rw [hfb.hi.absent hhi c hc] at hop
      cases hop
    | some hi =>
      obtain ⟨hiQ, hhiQ, himp⟩ := hupper hi hhi
      obtain ⟨d, hd, hdop, hdb⟩ := hfb.hi.source hi hhi
      have hhiord : hi.value.isOrdered = true := by
        rw [← hdb]
        exact hord hd (Or.inr hdop)
      refine hfb.hi.tight hi hhi hf.group.hi.oneType c hc hop actual ?_
      cases hiQ with
      | none => cases himp
      | some x =>
        obtain ⟨hsame, hx⟩ := upperBoundImplies_sound hhiord himp
        refine hx actual (hiFromQuery_above hqb htype hm hhiQ ?_)
        exact sameComparableType_trans (sameComparableType_symm hsame) hsame

/-- The equalities and sets of two groups name no member that `b[key]` finds by inheritance. -/
def PlainKeys (cs ds : List PredicateClause) : Prop :=
  ∀ d ∈ cs ++ ds, d.op = .eq ∨ d.op = .in → d.value.plainKeys = true

/-- What the two groups of a field must look like: a set of the filter stands alone or beside an
    equality, a range of the filter meets no query set that mixes types, and no member of a compared
    value is named `__proto__` or `length`. -/
structure ClearField (cs ds : List PredicateClause) : Prop where
  plain : PlainKeys cs ds
  setAlone : (∃ c ∈ cs, c.op = .in) → (∃ c ∈ cs, c.op = .eq) ∨ ∀ c ∈ cs, c.op = .in
  oneType : (∃ c ∈ cs, c.op.isLower = true ∨ c.op.isUpper = true) →
    ∀ d ∈ ds, d.op = .in → OneType (inMembers d.value)

/-- A clause of the filter that the checker does not look at, or looks at by the language's
    conversions: a bound beside a set (`continue` after the `in` branch), a bound met by a query set
    that mixes types (`reduce` with `<`), a set with a `null` inside, whose evaluation throws, and an
    equality or a set compared with `key in b`, where a value has a member that every `b` answers. -/
def Overlooked (cs ds : List PredicateClause) (c : PredicateClause) : Prop :=
  (c.op = .in ∧ c.value.noNull = false) ∨
  ((c.op = .eq ∨ c.op = .in) ∧ ¬ PlainKeys cs ds) ∨
  ((c.op.isLower = true ∨ c.op.isUpper = true) ∧ (∀ d ∈ cs, d.op ≠ .eq) ∧
    ((∃ d ∈ cs, d.op = .in) ∨
      ((∀ d ∈ ds, d.op ≠ .eq) ∧ ∃ d ∈ ds, d.op = .in ∧ ¬ OneType (inMembers d.value))))

/-- A set that is looked at has no `null` inside. -/
theorem noNull_of_not_overlooked {c : PredicateClause} (hc : ¬ Overlooked cs ds c)
    (hop : c.op = .in) : c.value.noNull = true := by
  by_contra hn
  exact hc (Or.inl ⟨hop, by simpa using hn⟩)

/-- And operands that are compared have plain keys. -/
theorem plainKeys_of_not_overlooked {c : PredicateClause} (hc : ¬ Overlooked cs ds c)
    (hop : c.op = .eq ∨ c.op = .in) : PlainKeys cs ds := by
  by_contra hplain
  exact hc (Or.inr (Or.inl ⟨hop, hplain⟩))

/-- **One field.**  A document that satisfies the query's clauses satisfies every clause of the
    filter that is not overlooked. -/
theorem bundleImplies_sound (hf : FilterOk cs g) (hfb : BundleOk cs f) (hqb : BundleOk ds q)
    (h : bundleImplies E f q = .ok true)
    (hm : ∀ c ∈ ds, matchesClause c actual = .ok true) {c : PredicateClause} (hc : c ∈ cs)
    (hlooked : ¬ Overlooked cs ds c) : matchesClause c actual = .ok true := by
  have hnull := noNull_of_not_overlooked hlooked
  cases hfeq : f.eq with
  | some v =>
    obtain ⟨c₀, hc₀, hop, rfl⟩ := hfb.eq v hfeq
    unfold bundleImplies at h
    rw [hfeq] at h
    simp only at h
    cases hqeq : q.eq with
    | none =>
      rw [hqeq] at h
      cases h
    | some w =>
      rw [hqeq] at h
      obtain ⟨d, hd, hdop, rfl⟩ := hqb.eq w hqeq
      refine hf.of_eq hc₀ hop d.wf h (hqb.matchesEq hm hqeq) c hc hnull fun hop => ?_
      have hplain := plainKeys_of_not_overlooked hlooked hop
      exact ⟨hplain d (List.mem_append_right cs hd) (Or.inl hdop),
        fun e he heop => hplain e (List.mem_append_left ds he) (Or.inl heop)⟩
  | none =>
    have hnoeq := hfb.noEq hfeq
    cases hfset : f.set with
    | some set =>
      by_cases hop : c.op = .in
      · exact bundleImplies_set hfb hqb hfeq hfset h hm c hc hop (hnull hop)
          (plainKeys_of_not_overlooked hlooked (Or.inr hop) c (List.mem_append_left ds hc)
            (Or.inr hop))
      · -- a bound beside the set
        have hbound := PredicateOp.bound_of_ne (hnoeq c hc) hop
        exact absurd (Or.inr (Or.inr ⟨hbound, hnoeq, Or.inl (hfb.set set hfset).1⟩)) hlooked
    | none =>
      refine bundleImplies_range hf hfb hqb hfeq hfset (fun hqeq values hvalues => ?_) h hm c hc
      obtain ⟨⟨d, hd, hop⟩, hall⟩ := hqb.set values hvalues
      by_contra hmixed
      have hbound := PredicateOp.bound_of_ne (hnoeq c hc) (hfb.noSet hfset c hc)
      refine hlooked (Or.inr (Or.inr ⟨hbound, hnoeq, Or.inr ⟨hqb.noEq hqeq, d, hd, hop, ?_⟩⟩))
      rw [hall d hd hop]
      exact hmixed

/-- Where the two groups of a field are clear, nothing is overlooked. -/
theorem ClearField.not_overlooked (h : ClearField cs ds) {c : PredicateClause} (hc : c ∈ cs)
    (hn : c.value.noNull = true) : ¬ Overlooked cs ds c := by
  rintro (⟨-, hnull⟩ | ⟨-, hplain⟩ | ⟨hbound, hnoeq, ⟨d, hd, hop⟩ | ⟨-, d, hd, hop, hmixed⟩⟩)
  · rw [hn] at hnull
    cases hnull
  · exact hplain h.plain
  · rcases h.setAlone ⟨d, hd, hop⟩ with ⟨e, he, heq⟩ | hall
    · exact hnoeq e he heq
    · rw [hall c hc] at hbound
      rcases hbound with hb | hb
      · cases hb
      · cases hb
  · exact hmixed (h.oneType ⟨c, hc, hbound⟩ d hd hop)

end Field

/-! ## Whole predicates -/

/-- The clauses of a field are collected in their order. -/
theorem groupByField_get {cs : List PredicateClause} (field : JsString) :
    ∀ groups : InsMap JsString (List PredicateClause),
      ((groupByField groups cs).get field).getD [] =
        (groups.get field).getD [] ++ clausesOf field cs := by
  induction cs with
  | nil => exact fun groups => (List.append_nil _).symm
  | cons c cs ih =>
    intro groups
    rw [groupByField, ih, InsMap.get_set]
    by_cases hfield : field = c.field
    · rw [if_pos hfield, hfield]
      simp [clausesOf]
    · have hne : ¬ c.field = field := fun e => hfield e.symm
      rw [if_neg hfield]
      simp [clausesOf, hne]

/-- The groups of a wire are its clauses, field by field. -/
theorem groupByField_of_get {cs ds : List PredicateClause} {field : JsString}
    (h : (groupByField InsMap.empty cs).get field = some ds) : ds = clausesOf field cs := by
  have hget := @groupByField_get cs field InsMap.empty
  rw [h] at hget
  exact hget

/-- Every clause is in the group of its field. -/
theorem groupByField_mem {cs : List PredicateClause} {c : PredicateClause} (hc : c ∈ cs) :
    (c.field, clausesOf c.field cs) ∈ (groupByField InsMap.empty cs).entries := by
  rw [InsMap.mem_entries]
  cases hget : (groupByField InsMap.empty cs).get c.field with
  | some ds => rw [groupByField_of_get hget]
  | none =>
    have hnil := @groupByField_get cs c.field InsMap.empty
    rw [hget] at hnil
    have hmem : c ∈ clausesOf c.field cs := mem_clausesOf.mpr ⟨hc, rfl⟩
    rw [← show [] = clausesOf c.field cs from hnil] at hmem
    exact absurd hmem List.not_mem_nil

/-- The filter is implied field by field. -/
theorem groupsImply_ok {queryGroups : InsMap JsString (List PredicateClause)}
    {groups : List (JsString × List PredicateClause)}
    (h : groupsImply E queryGroups groups = .ok true) :
    ∀ p ∈ groups, fieldImplies E p.2 (queryGroups.get p.1) = .ok true := by
  induction groups with
  | nil => exact fun p hp => absurd hp List.not_mem_nil
  | cons q groups ih =>
    rw [groupsImply] at h
    obtain ⟨b, hb, hrest⟩ := except_bind_ok h
    cases b with
    | true =>
      intro p hp
      rcases List.mem_cons.mp hp with rfl | hp
      · exact hb
      · exact ih hrest p hp
    | false => cases hrest

/-- A field that is implied was decoded on both sides. -/
theorem fieldImplies_ok {cs : List PredicateClause} {ds? : Option (List PredicateClause)}
    (h : fieldImplies E cs ds? = .ok true) :
    ∃ ds f q, ds? = some ds ∧ BundleOk cs f ∧ BundleOk ds q ∧ bundleImplies E f q = .ok true := by
  unfold fieldImplies at h
  obtain ⟨f?, hf, h⟩ := except_bind_ok h
  cases f? with
  | none => cases h
  | some f =>
    cases ds? with
    | none => cases h
    | some ds =>
      obtain ⟨q?, hq, h⟩ := except_bind_ok h
      cases q? with
      | none => cases h
      | some q => exact ⟨ds, f, q, rfl, decodeGroup_ok hf, decodeGroup_ok hq, h⟩

/-- The shapes the checker treats soundly, on every field. -/
def ClearFor (filter query : PredicateWire) : Prop :=
  ∀ field, ClearField (clausesOf field filter.clauses) (clausesOf field query.clauses)

/-- **Implication is sound for the clauses that are looked at.** -/
theorem predicateImplies_clause {filter query : PredicateWire}
    (hvalid : validateWire E filter = .ok filter)
    (h : predicateImplies E filter query = .ok true) {doc : Doc}
    (hm : matchesWire query doc = .ok true) {c : PredicateClause} (hc : c ∈ filter.clauses)
    (hlooked : ¬ Overlooked (clausesOf c.field filter.clauses) (clausesOf c.field query.clauses) c) :
    matchesClause c (lookupPath doc c.field) = .ok true := by
  obtain ⟨hclauses, hsat, -⟩ := validateWire_ok hvalid
  rw [matchesWire_iff] at hm
  obtain ⟨g, hgroup, hassert⟩ :=
    assertWireSatisfiable_ok (fun d hd => (hclauses d hd).ordered) hsat hc
  obtain ⟨ds, f, q, hds, hfb, hqb, himp⟩ :=
    fieldImplies_ok (groupsImply_ok h _ (groupByField_mem hc))
  have hds' := groupByField_of_get hds
  subst hds'
  have hfilter : FilterOk (clausesOf c.field filter.clauses) g :=
    ⟨fun d hd => hclauses d (mem_clausesOf.mp hd).1, hgroup,
      fun eq rest heqs => assertGroup_eq hassert heqs⟩
  refine bundleImplies_sound hfilter hfb hqb himp ?_ (mem_clausesOf.mpr ⟨hc, rfl⟩) hlooked
  intro d hd
  obtain ⟨hd, hfield⟩ := mem_clausesOf.mp hd
  rw [← show d.field = c.field from hfield]
  exact hm d hd

/-- A document that satisfies the query satisfies the filter, in the shapes that are clear. -/
theorem predicateImplies_sound {filter query : PredicateWire}
    (hvalid : validateWire E filter = .ok filter)
    (htyped : ∀ c ∈ filter.clauses, c.value.noNull = true) (hclear : ClearFor filter query)
    (h : predicateImplies E filter query = .ok true) {doc : Doc}
    (hm : matchesWire query doc = .ok true) : matchesWire filter doc = .ok true := by
  rw [matchesWire_iff]
  intro c hc
  have hlooked := (hclear c.field).not_overlooked (mem_clausesOf.mpr ⟨hc, rfl⟩) (htyped c hc)
  exact predicateImplies_clause hvalid h hm hc hlooked

/-- An engine for tests: no number is printed and nothing is converted in them. -/
def testEngine : Engine := ⟨fun _ => "", fun _ _ => .ok false⟩

/-- The rows whose size is `a` or `c`, and from `b` on: the rows of size `c`. -/
def sizeFilter : PredicateWire :=
  ⟨[⟨.in, js "size", .arr [.str (js "a"), .str (js "c")], rfl⟩,
    ⟨.gte, js "size", .str (js "b"), rfl⟩]⟩

/-- `{ size: "a" }`, as a query. -/
def sizeQuery : PredicateWire :=
  ⟨[⟨.eq, js "size", .str (js "a"), rfl⟩]⟩

/-- `{ x: { z: "1" } }`, as a filter. -/
def ownMember : PredicateWire :=
  ⟨[⟨.eq, js "x", .obj [(js "z", .str (js "1"))], by decide⟩]⟩

/-- `{ x: { __proto__: {} } }`, as a query. -/
def inheritedMember : PredicateWire :=
  ⟨[⟨.eq, js "x", .obj [(protoName, .obj [])], by decide⟩]⟩

-- both have one key, and the filter's value answers `__proto__` with an object that has no keys
example : predicateImplies testEngine ownMember inheritedMember = .ok true ∧
    matchesWire inheritedMember (.obj [(js "x", .obj [])]) = .ok true ∧
    matchesWire ownMember (.obj [(js "x", .obj [])]) = .ok false := by decide

/-! ## The planner's choice -/

/-- A candidate that goes first is ranked no worse. -/
theorem precedes_rank {a b : Nat × Candidate} (h : precedes a b = true) : a.1 ≤ b.1 := by
  unfold precedes at h
  split at h
  next => exact le_of_lt (by simpa using h)
  next hne => exact le_of_eq (not_not.mp hne)

/-- Of two candidates one goes first. -/
theorem precedes_total {a b : Nat × Candidate} (h : ¬ precedes a b = true) : b.1 ≤ a.1 := by
  unfold precedes at h
  split at h
  next => exact not_lt.mp (by simpa using h)
  next hne => exact le_of_eq (not_not.mp hne).symm

/-- The head of the sort has the least rank. -/
theorem head_sort {ranked : List (Nat × Candidate)} : ∀ {best : Nat × Candidate}
    {rest : List (Nat × Candidate)},
    (ranked.insertionSort fun a b => precedes a b) = best :: rest →
      best ∈ ranked ∧ ∀ x ∈ ranked, best.1 ≤ x.1 := by
  induction ranked with
  | nil => intro best rest h; cases h
  | cons a ranked ih =>
    intro best rest h
    rw [List.insertionSort_cons] at h
    cases hsort : (ranked.insertionSort fun a b => precedes a b) with
    | nil =>
      have hnil : ranked = [] := by
        have hperm := List.perm_insertionSort (fun a b => precedes a b = true) ranked
        rw [hsort] at hperm
        exact hperm.symm.eq_nil
      rw [hsort] at h
      cases h
      subst hnil
      exact ⟨List.mem_cons_self, fun x hx => le_of_eq (by rw [List.mem_singleton.mp hx])⟩
    | cons b tail =>
      rw [hsort, List.orderedInsert_cons] at h
      obtain ⟨hmem, hleast⟩ := ih hsort
      split at h
      next hab =>
        cases h
        refine ⟨List.mem_cons_self, fun x hx => ?_⟩
        rcases List.mem_cons.mp hx with rfl | hx
        · exact le_refl _
        · exact le_trans (precedes_rank hab) (hleast x hx)
      next hab =>
        cases h
        refine ⟨List.mem_cons_of_mem a hmem, fun x hx => ?_⟩
        rcases List.mem_cons.mp hx with rfl | hx
        · exact precedes_total hab
        · exact hleast x hx

/-- Every candidate is ranked. -/
theorem rankAll_ok {wire : PredicateWire} {cs : List Candidate} :
    ∀ {ranked : List (Nat × Candidate)}, rankAll E wire cs = .ok ranked →
      (∀ p ∈ ranked, p.2 ∈ cs ∧ rank E wire p.2 = .ok p.1) ∧
        ∀ c ∈ cs, ∃ r, (r, c) ∈ ranked ∧ rank E wire c = .ok r := by
  induction cs with
  | nil =>
    intro ranked h
    cases h
    exact ⟨fun p hp => absurd hp List.not_mem_nil, fun c hc => absurd hc List.not_mem_nil⟩
  | cons c cs ih =>
    intro ranked h
    rw [rankAll] at h
    obtain ⟨r, hr, h⟩ := except_bind_ok h
    obtain ⟨rest, hrest, h⟩ := except_bind_ok h
    cases h
    obtain ⟨hfrom, hall⟩ := ih hrest
    constructor
    · intro p hp
      rcases List.mem_cons.mp hp with rfl | hp
      · exact ⟨List.mem_cons_self, hr⟩
      · exact ⟨List.mem_cons_of_mem c (hfrom p hp).1, (hfrom p hp).2⟩
    · intro d hd
      rcases List.mem_cons.mp hd with rfl | hd
      · exact ⟨r, List.mem_cons_self, hr⟩
      · obtain ⟨r', hmem, hr'⟩ := hall d hd
        exact ⟨r', List.mem_cons_of_mem _ hmem, hr'⟩

/-- A candidate whose filter the query is not known to imply. -/
def Candidate.Unimplied (E : Engine) (wire : PredicateWire) (c : Candidate) : Prop :=
  ∃ filter, c.definition.predicate = some filter ∧ predicateImplies E filter wire ≠ .ok true

/-- The last rank is that of filters that are not implied. -/
theorem rank_two {wire : PredicateWire} {c : Candidate} {r : Nat} (h : rank E wire c = .ok r)
    (hr : 2 ≤ r) : c.Unimplied E wire := by
  unfold rank at h
  split at h
  next =>
    cases h
    omega
  next filter hfilter =>
    obtain ⟨b, hb, h⟩ := except_bind_ok h
    cases b with
    | true =>
      cases h
      omega
    | false => exact ⟨filter, hfilter, by rw [hb]; rintro ⟨⟩⟩

/-- A filtered index that ranks better is implied. -/
theorem rank_filtered {wire : PredicateWire} {c : Candidate} {r : Nat} {filter : PredicateWire}
    (hfilter : c.definition.predicate = some filter) (h : rank E wire c = .ok r) :
    predicateImplies E filter wire = .ok true ∨ r = 2 := by
  unfold rank at h
  rw [hfilter] at h
  obtain ⟨b, hb, h⟩ := except_bind_ok h
  cases b with
  | true => exact Or.inl hb
  | false => exact Or.inr (Except.ok.inj h).symm

/-- The best candidate's filter is implied, or every candidate has one that is not. -/
theorem sortCandidates_best {wire : PredicateWire} {cs rest : List Candidate} {best : Candidate}
    (h : sortCandidates E wire cs = .ok (best :: rest)) :
    best ∈ cs ∧ ∀ filter, best.definition.predicate = some filter →
      predicateImplies E filter wire = .ok true ∨ ∀ c ∈ cs, c.Unimplied E wire := by
  unfold sortCandidates at h
  split at h
  next => cases h
  next c =>
    cases h
    refine ⟨List.mem_cons_self, fun filter hfilter => ?_⟩
    by_cases himp : predicateImplies E filter wire = .ok true
    · exact Or.inl himp
    · refine Or.inr fun d hd => ?_
      rw [List.mem_singleton.mp hd]
      exact ⟨filter, hfilter, himp⟩
  next =>
    obtain ⟨ranked, hranked, h⟩ := except_bind_ok h
    have h := Except.ok.inj h
    cases hsort : (ranked.insertionSort fun a b => precedes a b) with
    | nil =>
      rw [hsort] at h
      cases h
    | cons top tail =>
      rw [hsort] at h
      cases h
      obtain ⟨hmem, hleast⟩ := head_sort hsort
      obtain ⟨hfrom, hall⟩ := rankAll_ok hranked
      refine ⟨(hfrom top hmem).1, fun filter hfilter => ?_⟩
      rcases rank_filtered hfilter (hfrom top hmem).2 with himp | htwo
      · exact Or.inl himp
      · refine Or.inr fun c hc => ?_
        obtain ⟨r, hr, hrank⟩ := hall c hc
        exact rank_two hrank (htwo ▸ hleast (r, c) hr)

/-- Candidates are over the indexes there are. -/
theorem candidatesFrom_mem {p : Partition} {indexes : List IndexDefinition} :
    ∀ {i : Nat} {c : Candidate}, c ∈ candidatesFrom p i indexes → c.definition ∈ indexes := by
  induction indexes with
  | nil => exact fun hc => absurd hc List.not_mem_nil
  | cons d indexes ih =>
    intro i c hc
    unfold candidatesFrom at hc
    generalize consumeFields p d.on.tuple [] = consumed at hc
    obtain ⟨keys, tail⟩ := consumed
    simp only at hc
    by_cases hlen : keys.length + (if tail.isSome then 1 else 0) = 0
    · rw [if_pos hlen] at hc
      exact List.mem_cons_of_mem d (ih hc)
    · rw [if_neg hlen] at hc
      rcases List.mem_cons.mp hc with rfl | hc
      · exact List.mem_cons_self
      · exact List.mem_cons_of_mem d (ih hc)

/-- The walk is the plan of the best. -/
theorem planBest_walk {best : Candidate} {plan : IndexWalkPlan}
    (h : planBest best = .indexWalk plan) : plan = best.plan := by
  unfold planBest at h
  split at h
  · split at h
    · cases h
    · exact (QueryPlan.indexWalk.inj h).symm
  · exact (QueryPlan.indexWalk.inj h).symm

/-- A walk is the plan of the best of the candidates. -/
theorem planQuery_walk {wire : PredicateWire} {indexes : List IndexDefinition}
    {plan : IndexWalkPlan} (h : planQuery E (some wire) indexes = .ok (.indexWalk plan)) :
    ∃ p best rest, partitionClauses E .empty wire.clauses = .ok p ∧
      sortCandidates E wire (candidatesFrom p 0 indexes) = .ok (best :: rest) ∧
      plan = best.plan := by
  unfold planQuery at h
  simp only at h
  split at h
  · cases h
  split at h
  · cases h
  obtain ⟨p, hp, h⟩ := except_bind_ok h
  unfold planPartition at h
  split at h
  · cases h
  obtain ⟨sorted, hsorted, h⟩ := except_bind_ok h
  cases sorted with
  | nil => cases h
  | cons best rest =>
    exact ⟨p, best, rest, hp, hsorted, planBest_walk (Except.ok.inj h)⟩

/-- The filter of a valid index is a valid wire. -/
theorem validateIndexDefinition_filter {d : IndexDefinition}
    (h : validateIndexDefinition E d = .ok ()) {filter : PredicateWire}
    (hfilter : d.predicate = some filter) : validateWire E filter = .ok filter := by
  unfold validateIndexDefinition at h
  obtain ⟨_, _, h⟩ := except_bind_ok h
  split at h
  · cases h
  split at h
  · cases h
  · cases h
  rw [hfilter] at h
  simp only at h
  split at h
  next w hw =>
    rw [hw, (validateWire_ok hw).2.2]
  next => cases h

/-- `{ priority: "p1" }`, as a query. -/
def priorityQuery : PredicateWire :=
  ⟨[⟨.eq, js "priority", .str (js "p1"), rfl⟩]⟩

/-- The index on `priority` of the open rows. -/
def openByPriority : IndexDefinition where
  name := js "open_by_priority"
  on := .field (js "priority")
  predicate := some ⟨[⟨.eq, js "status", .str (js "open"), rfl⟩]⟩
  typed := by
    intro filter hfilter clause hclause
    cases hfilter
    rw [List.mem_singleton.mp hclause]
    rfl

/-- The index on `priority` of the rows of that priority. -/
def urgentByPriority : IndexDefinition where
  name := js "urgent_by_priority"
  on := .field (js "priority")
  predicate := some priorityQuery
  typed := by
    intro filter hfilter clause hclause
    cases hfilter
    rw [List.mem_singleton.mp hclause]
    rfl

end Baerly
