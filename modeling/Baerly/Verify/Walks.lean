import Baerly.Verify.Markers

/-
  Walks the planner chooses, against the full scan.

  SPEC: what a plan consumes comes from the clauses of the query (`PartitionFrom`), so a row that
  matches holds a value for every consumed field.  The walk then agrees with the scan exactly if
  each such row is reached:

    equality and `in`    its values are the SAME TREES as the consumed ones, while the evaluator
                         matches an object member by member, in any order and leaving members over
    range                its string is in the range in UTF-8 byte order, while the evaluator
                         compares code units
    partial prefix       it holds a value in the fields that are left, too
-/

namespace Baerly

open Path

variable {E : Engine}

/-! ## Where a partition comes from -/

/-- The bounds of a range are those of clauses, with the clause's inclusivity. -/
structure RangeFrom (cs : List PredicateClause) (field : JsString) (r : RangeOpInfo) : Prop where
  lower : ∀ lo, r.lo = some lo → ∃ c ∈ cs, c.field = field ∧ c.value = lo ∧
    c.op = if r.loInclusive then .gte else .gt
  upper : ∀ hi, r.hi = some hi → ∃ c ∈ cs, c.field = field ∧ c.value = hi ∧
    c.op = if r.hiInclusive then .lte else .lt

/-- An empty range comes from no clause. -/
theorem RangeFrom.nil {cs : List PredicateClause} {field : JsString} :
    RangeFrom cs field ⟨none, none, false, false⟩ where
  lower := fun lo h => by cases h
  upper := fun hi h => by cases h

/-- What is `===` is equal. -/
theorem eq_of_strictEqual {v w : Doc} (h : strictEqual v w = true) : v = w := by
  cases v with
  | arr xs => cases h
  | obj ms => cases h
  | _ => exact of_decide_eq_true h

/-- A tightened range comes from one more clause. -/
theorem tightenRange_from {cs : List PredicateClause} {c : PredicateClause} (hc : c ∈ cs)
    {acc acc' : RangeOpInfo} (h : RangeFrom cs c.field acc)
    (hacc : tightenRange E acc c.value c.op = .ok acc') : RangeFrom cs c.field acc' := by
  unfold tightenRange at hacc
  -- a bound is replaced with the clause's own inclusivity; a strict clause on the same value only
  -- makes the bound exclusive
  split at hacc
  next hop =>
    obtain ⟨b, -, hacc⟩ := except_bind_ok hacc
    cases b with
    | true =>
      cases hacc
      exact ⟨fun lo hlo => ⟨c, hc, rfl, Option.some.inj hlo, hop⟩, h.upper⟩
    | false =>
      cases hacc
      exact h
  next hop =>
    obtain ⟨b, -, hacc⟩ := except_bind_ok hacc
    cases b with
    | true =>
      cases hacc
      exact ⟨fun lo hlo => ⟨c, hc, rfl, Option.some.inj hlo, hop⟩, h.upper⟩
    | false =>
      by_cases hsame : (acc.lo.any fun lo => strictEqual c.value lo) = true
      · simp only [hsame, if_true, Bool.false_eq_true, if_false] at hacc
        cases hacc
        refine ⟨fun lo hlo => ⟨c, hc, rfl, ?_, hop⟩, h.upper⟩
        rw [show acc.lo = some lo from hlo] at hsame
        exact eq_of_strictEqual hsame
      · simp only [hsame, if_false, Bool.false_eq_true] at hacc
        cases hacc
        exact h
  next hop =>
    obtain ⟨b, -, hacc⟩ := except_bind_ok hacc
    cases b with
    | true =>
      cases hacc
      exact ⟨h.lower, fun hi hhi => ⟨c, hc, rfl, Option.some.inj hhi, hop⟩⟩
    | false =>
      cases hacc
      exact h
  next hop =>
    obtain ⟨b, -, hacc⟩ := except_bind_ok hacc
    cases b with
    | true =>
      cases hacc
      exact ⟨h.lower, fun hi hhi => ⟨c, hc, rfl, Option.some.inj hhi, hop⟩⟩
    | false =>
      by_cases hsame : (acc.hi.any fun hi => strictEqual c.value hi) = true
      · simp only [hsame, if_true, Bool.false_eq_true, if_false] at hacc
        cases hacc
        refine ⟨h.lower, fun hi hhi => ⟨c, hc, rfl, ?_, hop⟩⟩
        rw [show acc.hi = some hi from hhi] at hsame
        exact eq_of_strictEqual hsame
      · simp only [hsame, if_false, Bool.false_eq_true] at hacc
        cases hacc
        exact h
  · cases hacc
    exact h

/-- Everything in a partition comes from a clause. -/
structure PartitionFrom (cs : List PredicateClause) (p : Partition) : Prop where
  equality : ∀ f v, p.equality.get f = some v → ∃ c ∈ cs, c.op = .eq ∧ c.field = f ∧ c.value = v
  ranges : ∀ f r, p.rangeOps.get f = some r → RangeFrom cs f r
  ranged : ∀ f r, p.rangeOps.get f = some r → ∃ c ∈ cs, c.field = f ∧ c.op ≠ .eq ∧ c.op ≠ .in
  sets : ∀ f vs, p.inOps.get f = some vs → ∃ c ∈ cs, c.op = .in ∧ c.field = f ∧ c.value = .arr vs

/-- An empty partition comes from no clause. -/
theorem PartitionFrom.empty {cs : List PredicateClause} : PartitionFrom cs .empty where
  equality := fun f v h => by cases h
  ranges := fun f r h => by cases h
  ranged := fun f r h => by cases h
  sets := fun f vs h => by cases h

variable {cs : List PredicateClause} {p p' : Partition} {c : PredicateClause}

/-- What is left after an erasure was there. -/
theorem get_of_erase {ν : Type} {m : InsMap JsString ν} {k j : JsString} {v : ν}
    (h : (m.erase k).get j = some v) : m.get j = some v := by
  rw [InsMap.get_erase] at h
  split at h
  · cases h
  · exact h

/-- Giving up a field takes from the partition only. -/
theorem PartitionFrom.giveUp (h : PartitionFrom cs p) (field : JsString) :
    PartitionFrom cs (p.giveUp field) where
  equality := fun f v hv => h.equality f v (get_of_erase hv)
  ranges := fun f r hr => h.ranges f r (get_of_erase hr)
  ranged := fun f r hr => h.ranged f r (get_of_erase hr)
  sets := fun f vs hvs => h.sets f vs (get_of_erase hvs)

/-- One clause keeps it so. -/
theorem partitionClause_from (h : PartitionFrom cs p) (hc : c ∈ cs)
    (hp : partitionClause E p c = .ok p') : PartitionFrom cs p' := by
  unfold partitionClause at hp
  dsimp only at hp
  -- a field the planner has given up stays so
  by_cases hskip : p.unroutable.contains c.field = true
  · rw [if_pos hskip] at hp
    cases hp
    exact h
  rw [if_neg hskip] at hp
  split at hp
  -- an equality; a second one on the field gives it up
  next hop =>
    split at hp
    · cases hp
      exact h.giveUp c.field
    · cases hp
      refine ⟨fun f v hv => ?_, h.ranges, h.ranged, h.sets⟩
      rw [InsMap.get_set] at hv
      split at hv
      next heq => exact ⟨c, hc, hop, heq.symm, Option.some.inj hv⟩
      next => exact h.equality f v hv
  -- a set
  next hop =>
    split at hp
    · cases hp
      exact h.giveUp c.field
    · split at hp
      next values hvalues =>
        cases hp
        refine ⟨h.equality, h.ranges, h.ranged, fun f vs hvs => ?_⟩
        rw [InsMap.get_set] at hvs
        split at hvs
        next heq => exact ⟨c, hc, hop, heq.symm, by rw [← Option.some.inj hvs]; exact hvalues⟩
        next => exact h.sets f vs hvs
      next =>
        cases hp
        exact ⟨h.equality, h.ranges, h.ranged, h.sets⟩
  -- a bound, which tightens the range there is
  next hne hni =>
    split at hp
    · cases hp
      exact h.giveUp c.field
    · obtain ⟨acc, hacc, hp⟩ := except_bind_ok hp
      cases hp
      have hfrom : RangeFrom cs c.field ((p.rangeOps.get c.field).getD ⟨none, none, false, false⟩) := by
        cases hget : p.rangeOps.get c.field with
        | none => exact RangeFrom.nil
        | some r => exact h.ranges c.field r hget
      refine ⟨h.equality, fun f r hr => ?_, fun f r hr => ?_, h.sets⟩
      · rw [InsMap.get_set] at hr
        split at hr
        next heq =>
          rw [heq, ← Option.some.inj hr]
          exact tightenRange_from hc hfrom hacc
        next => exact h.ranges f r hr
      · rw [InsMap.get_set] at hr
        split at hr
        next heq => exact ⟨c, hc, heq.symm, hne, hni⟩
        next => exact h.ranged f r hr

/-- **What the planner knows of a field it has from the clauses.** -/
theorem partitionClauses_from {ds : List PredicateClause} : ∀ {p p' : Partition},
    PartitionFrom cs p → (∀ c ∈ ds, c ∈ cs) → partitionClauses E p ds = .ok p' →
      PartitionFrom cs p' := by
  induction ds with
  | nil =>
    intro p p' h _ hp
    cases hp
    exact h
  | cons d ds ih =>
    intro p p' h hds hp
    obtain ⟨q, hq, hp⟩ := except_bind_ok hp
    exact ih (partitionClause_from h (hds d List.mem_cons_self) hq)
      (fun c hc => hds c (List.mem_cons_of_mem d hc)) hp

/-! ## What a candidate consumes -/

/-- The slot that extends the equality run is the next field, with the partition's entry for it. -/
def SlotFrom (p : Partition) (back : List JsString) : Option TailSlot → Prop
  | none => True
  | some (.range f r) => back.head? = some f ∧ p.rangeOps.get f = some r
  | some (.members f vs) => back.head? = some f ∧ p.inOps.get f = some vs

/-- An equality run over the first fields, and the slot behind it. -/
def Consumes (p : Partition) (fields : List JsString) (keys : List Doc) (tail : Option TailSlot) :
    Prop :=
  ∃ front back, fields = front ++ back ∧
    List.Forall₂ (fun f v => p.equality.get f = some v) front keys ∧ SlotFrom p back tail

/-- The keys consumed are a run of the index's fields from the left, with a tail slot after it. -/
theorem consumeFields_spec {fields : List JsString} : ∀ {acc keys : List Doc}
    {tail : Option TailSlot}, consumeFields p fields acc = (keys, tail) →
      ∃ run, keys = acc ++ run ∧ Consumes p fields run tail := by
  induction fields with
  | nil =>
    intro acc keys tail h
    cases h
    exact ⟨[], (List.append_nil acc).symm, [], [], rfl, List.Forall₂.nil, trivial⟩
  | cons field fields ih =>
    intro acc keys tail h
    unfold consumeFields at h
    split at h
    next v hv =>
      obtain ⟨run, rfl, front, back, rfl, hrun, hslot⟩ := ih h
      exact ⟨v :: run, by simp, field :: front, back, rfl, List.Forall₂.cons hv hrun, hslot⟩
    next =>
      split at h
      next info hinfo =>
        cases h
        exact ⟨[], (List.append_nil acc).symm, [], field :: fields, rfl, List.Forall₂.nil, rfl, hinfo⟩
      next values _ hvalues =>
        cases h
        exact ⟨[], (List.append_nil acc).symm, [], field :: fields, rfl, List.Forall₂.nil, rfl,
          hvalues⟩
      next =>
        cases h
        exact ⟨[], (List.append_nil acc).symm, [], field :: fields, rfl, List.Forall₂.nil, trivial⟩

/-- So it is for every candidate, which consumes at least one field. -/
theorem candidatesFrom_spec {indexes : List IndexDefinition} : ∀ {i : Nat} {b : Candidate},
    b ∈ candidatesFrom p i indexes →
      Consumes p b.definition.on.tuple b.equalityKeys b.tail ∧
      b.prefixLen = b.equalityKeys.length + (if b.tail.isSome then 1 else 0) ∧ b.prefixLen ≠ 0 := by
  induction indexes with
  | nil => exact fun hb => absurd hb List.not_mem_nil
  | cons d indexes ih =>
    intro i b hb
    unfold candidatesFrom at hb
    cases hconsumed : consumeFields p d.on.tuple [] with
    | mk keys tail =>
      rw [hconsumed] at hb
      simp only at hb
      by_cases hlen : keys.length + (if tail.isSome then 1 else 0) = 0
      · rw [if_pos hlen] at hb
        exact ih hb
      · rw [if_neg hlen] at hb
        rcases List.mem_cons.mp hb with rfl | hb
        · obtain ⟨run, rfl, hrun⟩ := consumeFields_spec hconsumed
          exact ⟨hrun, rfl, hlen⟩
        · exact ih hb

/-- A walk the planner chose for a query: the candidate it is over, and where that comes from. -/
structure Walk (E : Engine) (wire : PredicateWire) (indexes : List IndexDefinition) where
  partition : Partition
  best : Candidate
  partitioned : partitionClauses E .empty wire.clauses = .ok partition
  listed : best ∈ candidatesFrom partition 0 indexes
  planned : planQuery E (some wire) indexes = .ok (.indexWalk best.plan)

/-- Every walk the planner returns is one. -/
theorem exists_walk {wire : PredicateWire} {indexes : List IndexDefinition} {plan : IndexWalkPlan}
    (h : planQuery E (some wire) indexes = .ok (.indexWalk plan)) :
    ∃ W : Walk E wire indexes, W.best.plan = plan ∧ W.best.definition ∈ indexes := by
  obtain ⟨p, best, rest, hp, hsorted, rfl⟩ := planQuery_walk h
  obtain ⟨hbest, -⟩ := sortCandidates_best hsorted
  exact ⟨⟨p, best, hp, hbest, h⟩, rfl, candidatesFrom_mem hbest⟩

namespace Walk

variable {wire : PredicateWire} {indexes : List IndexDefinition} (W : Walk E wire indexes)

/-- The index walked. -/
abbrev index : IndexDefinition := W.best.definition

/-- The plan that is run. -/
abbrev plan : IndexWalkPlan := W.best.plan

/-- The partition of a walk comes from the clauses of its query. -/
theorem fromClauses : PartitionFrom wire.clauses W.partition :=
  partitionClauses_from PartitionFrom.empty (fun _ h => h) W.partitioned

/-- The walk consumes its index from the left. -/
theorem consumes : Consumes W.partition W.index.on.tuple W.plan.equalityKeys W.best.tail :=
  (candidatesFrom_spec W.listed).1

/-- As many fields as its candidate was ranked by. -/
theorem consumed_eq : W.plan.consumed = W.best.prefixLen := by
  rw [(candidatesFrom_spec W.listed).2.1]
  unfold IndexWalkPlan.consumed plan Candidate.plan
  cases W.best.tail with
  | none => rfl
  | some slot => cases slot <;> rfl

/-- No more than the index has. -/
theorem fits : W.plan.consumed ≤ W.index.on.tuple.length := by
  rw [W.consumed_eq, (candidatesFrom_spec W.listed).2.1]
  obtain ⟨front, back, hfields, hrun, hslot⟩ := W.consumes
  have hlen := hrun.length_eq
  rw [hfields, List.length_append]
  have hback : (if W.best.tail.isSome then 1 else 0) ≤ back.length := by
    cases htail : W.best.tail with
    | none => simp
    | some slot =>
      rw [htail] at hslot
      have hne : back ≠ [] := by
        rintro rfl
        cases slot <;> cases hslot.1
      rw [Option.isSome_some, if_pos rfl]
      exact List.length_pos_iff.mpr hne
  have hkeys : W.plan.equalityKeys = W.best.equalityKeys := rfl
  rw [hkeys] at hlen
  omega

/-- And the index has one. -/
theorem tuple_ne_nil : W.index.on.tuple ≠ [] := by
  intro hnil
  have hfits := W.fits
  have hpos := (candidatesFrom_spec W.listed).2.2
  rw [W.consumed_eq, hnil] at hfits
  exact hpos (Nat.le_zero.mp hfits)

end Walk

/-! ## What a matching row holds -/

/-- No operand matches what is missing or `null`. -/
theorem matchesEq_present {v : Doc} {actual : Property} (h : matchesEq v actual = .ok true) :
    actual.isNullish = false := by
  refine Property.isNullish_eq_false ?_ ?_
  · rintro rfl
    cases v <;> simp [matchesEq, Property.isPlainObject] at h
  · rintro rfl
    cases v <;> simp [matchesEq, Property.isPlainObject] at h

/-- A set matches through one of its members. -/
theorem matchesIn_mem {values : List Doc} {actual : Property}
    (h : matchesIn values actual = .ok true) : ∃ m ∈ values, matchesEq m actual = .ok true := by
  induction values with
  | nil => cases h
  | cons m values ih =>
    rw [matchesIn] at h
    split at h
    · obtain ⟨m', hm', hmatch⟩ := ih h
      exact ⟨m', List.mem_cons_of_mem m hm', hmatch⟩
    · exact ⟨m, List.mem_cons_self, h⟩

/-- A string, a number or a boolean. -/
def Json.isScalar : Doc → Bool
  | .bool _ | .num _ | .str _ => true
  | _ => false

/-- A scalar matches itself only. -/
theorem matchesEq_scalar {v : Doc} (hv : v.isScalar = true) {actual : Property}
    (h : matchesEq v actual = .ok true) : actual = .value v := by
  cases v with
  | bool b => simpa [matchesEq] using h
  | num n => simpa [matchesEq] using h
  | str s => simpa [matchesEq] using h
  | _ => cases hv

/-- Only that string matches a string. -/
theorem matchesEq_string {v : Doc} {s : JsString} (h : matchesEq v (.value (.str s)) = .ok true) :
    v = .str s := by
  cases v <;> simp [matchesEq, Property.isPlainObject] at h
  rw [h]

/-- A lower bound is met by values of its own type only. -/
theorem compareGT_ordered {actual : Property} {bound : Doc} {i : Bool}
    (h : compareGT actual bound i = true) :
    ∃ u, actual = .value u ∧ sameComparableType bound u = true := by
  unfold compareGT at h
  split at h
  · exact ⟨_, rfl, rfl⟩
  · exact ⟨_, rfl, rfl⟩
  · cases h

/-- So is an upper one. -/
theorem compareLT_ordered {actual : Property} {bound : Doc} {i : Bool}
    (h : compareLT actual bound i = true) :
    ∃ u, actual = .value u ∧ sameComparableType bound u = true := by
  unfold compareLT at h
  split at h
  · exact ⟨_, rfl, rfl⟩
  · exact ⟨_, rfl, rfl⟩
  · cases h

/-- A range clause is satisfied by a string or a number only. -/
theorem matchesClause_range {c : PredicateClause} (hne : c.op ≠ .eq) (hni : c.op ≠ .in)
    {actual : Property} (h : matchesClause c actual = .ok true) :
    ∃ u, actual = .value u ∧ u.isOrdered = true := by
  have hordered : ∀ {u : Doc}, sameComparableType c.value u = true → u.isOrdered = true := by
    intro u hsame
    exact sameComparableType_trans (sameComparableType_symm hsame) hsame
  unfold matchesClause at h
  split at h
  · exact absurd ‹_› hne
  · exact absurd ‹_› hni
  · obtain ⟨u, rfl, hsame⟩ := compareGT_ordered (Except.ok.inj h)
    exact ⟨u, rfl, hordered hsame⟩
  · obtain ⟨u, rfl, hsame⟩ := compareGT_ordered (Except.ok.inj h)
    exact ⟨u, rfl, hordered hsame⟩
  · obtain ⟨u, rfl, hsame⟩ := compareLT_ordered (Except.ok.inj h)
    exact ⟨u, rfl, hordered hsame⟩
  · obtain ⟨u, rfl, hsame⟩ := compareLT_ordered (Except.ok.inj h)
    exact ⟨u, rfl, hordered hsame⟩

section Matching

variable {wire : PredicateWire} {indexes : List IndexDefinition} {W : Walk E wire indexes}
variable {doc : Doc}

/-- What a matching document has in a field of the equality run. -/
theorem Walk.matches_key (hmatch : matchesWire wire doc = .ok true) {f : JsString} {v : Doc}
    (h : W.partition.equality.get f = some v) : matchesEq v (lookupPath doc f) = .ok true := by
  obtain ⟨c, hc, hop, rfl, rfl⟩ := W.fromClauses.equality f v h
  have hclause := (matchesWire_iff wire doc).mp hmatch c hc
  rw [matchesClause, hop] at hclause
  exact hclause

/-- A row that matches is matched by a member of the set the planner took for a field. -/
theorem Walk.matches_set (hmatch : matchesWire wire doc = .ok true) {f : JsString} {vs : List Doc}
    (h : W.partition.inOps.get f = some vs) :
    ∃ m ∈ vs, matchesEq m (lookupPath doc f) = .ok true := by
  obtain ⟨c, hc, hop, rfl, hvalue⟩ := W.fromClauses.sets f vs h
  have hclause := (matchesWire_iff wire doc).mp hmatch c hc
  rw [matchesClause, hop, hvalue] at hclause
  exact matchesIn_mem hclause

/-- And it is in the range. -/
theorem Walk.matches_range (hmatch : matchesWire wire doc = .ok true) {f : JsString}
    {r : RangeOpInfo} (h : W.partition.rangeOps.get f = some r) :
    (∃ u, lookupPath doc f = .value u ∧ u.isOrdered = true) ∧
    (∀ lo, r.lo = some lo → compareGT (lookupPath doc f) lo r.loInclusive = true) ∧
    (∀ hi, r.hi = some hi → compareLT (lookupPath doc f) hi r.hiInclusive = true) := by
  have hall := (matchesWire_iff wire doc).mp hmatch
  refine ⟨?_, fun lo hlo => ?_, fun hi hhi => ?_⟩
  · obtain ⟨c, hc, rfl, hne, hni⟩ := W.fromClauses.ranged f r h
    exact matchesClause_range hne hni (hall c hc)
  · obtain ⟨c, hc, rfl, rfl, hop⟩ := (W.fromClauses.ranges f r h).lower lo hlo
    have hclause := hall c hc
    cases hincl : r.loInclusive with
    | true =>
      rw [matchesClause, hop, hincl] at hclause
      exact Except.ok.inj hclause
    | false =>
      rw [matchesClause, hop, hincl] at hclause
      exact Except.ok.inj hclause
  · obtain ⟨c, hc, rfl, rfl, hop⟩ := (W.fromClauses.ranges f r h).upper hi hhi
    have hclause := hall c hc
    cases hincl : r.hiInclusive with
    | true =>
      rw [matchesClause, hop, hincl] at hclause
      exact Except.ok.inj hclause
    | false =>
      rw [matchesClause, hop, hincl] at hclause
      exact Except.ok.inj hclause

/-- A field without a dot is read directly. -/
theorem lookupPath_plain {f : JsString} (h : f.contains 46 = false) :
    lookupPath doc f = doc.property f := by
  unfold lookupPath
  rw [h]
  rfl

/-- A matching document holds a value in every consumed field. -/
theorem Walk.matches_holds (hmatch : matchesWire wire doc = .ok true) {f : JsString}
    (hf : f ∈ W.index.on.tuple.take W.plan.consumed) (hplain : f.contains 46 = false) :
    ∃ u, Holds doc f u := by
  have hpath := @lookupPath_plain doc f hplain
  have hkey : ∀ {v : Doc}, W.partition.equality.get f = some v → ∃ u, Holds doc f u := by
    intro v hv
    exact ⟨_, hpath.symm, matchesEq_present (W.matches_key hmatch hv)⟩
  obtain ⟨front, back, hfields, hrun, hslot⟩ := W.consumes
  have hlen : front.length = W.plan.equalityKeys.length := hrun.length_eq
  have hconsumed : W.plan.consumed = front.length + (if W.best.tail.isSome then 1 else 0) := by
    rw [W.consumed_eq, (candidatesFrom_spec W.listed).2.1, hlen]
    rfl
  rw [hfields, hconsumed, List.take_length_add_append, List.mem_append] at hf
  rcases hf with hf | hf
  · obtain ⟨i, hi, rfl⟩ := List.getElem_of_mem hf
    exact hkey (hrun.get hi (hlen ▸ hi))
  · cases htail : W.best.tail with
    | none =>
      rw [htail] at hf
      exact absurd hf (by simp)
    | some slot =>
      rw [htail] at hf hslot
      cases slot with
      | range field r =>
        obtain ⟨hhead, hget⟩ := hslot
        obtain ⟨rest, rfl⟩ := List.head?_eq_some_iff.mp hhead
        have heq : f = field := by simpa using hf
        subst heq
        obtain ⟨⟨u, hu, hord⟩, -⟩ := W.matches_range hmatch hget
        refine ⟨.value u, hpath ▸ hu, Property.isNullish_eq_false (fun h => by cases h) ?_⟩
        rintro ⟨⟩
        cases hord
      | members field vs =>
        obtain ⟨hhead, hget⟩ := hslot
        obtain ⟨rest, rfl⟩ := List.head?_eq_some_iff.mp hhead
        have heq : f = field := by simpa using hf
        subst heq
        obtain ⟨m, -, hm⟩ := W.matches_set hmatch hget
        exact ⟨_, hpath.symm, matchesEq_present hm⟩

end Matching

/-! ## Reached rows -/

section Reached

variable {codec : Codec} {N : NumberText} {c : Collection} {S : Standing codec c}
variable {wire : PredicateWire} {indexes : List IndexDefinition} {W : Walk E wire indexes}

/-- A live row is known by its id. -/
theorem Standing.row_unique (S : Standing codec c) {row row' : StoredRow} (h : row ∈ S.rows)
    (h' : row' ∈ S.rows) (hid : row.1 = row'.1) : row = row' := by
  obtain ⟨base, entries, tail, probed, -, -, -, hrows⟩ := S.reads
  rw [hrows] at h h'
  obtain ⟨k, doc⟩ := row
  obtain ⟨k', doc'⟩ := row'
  obtain rfl : k = k' := hid
  rw [InsMap.mem_entries] at h h'
  rw [h] at h'
  rw [Option.some.inj h']

/-- **A walk reaches a row** iff the segments of its key are selected. -/
theorem Walk.reached_iff (hmarkers : MarkersExact N S W.index) (hd : W.index.predicate = none)
    {row : StoredRow} (hrow : row ∈ S.rows) : row.1 ∈ walkIds N c S.keys W.plan ↔
      ∃ values, Indexed S W.index row values ∧ Selects N W.plan row.1 values := by
  rw [hmarkers.mem_walkIds hd rfl W.tuple_ne_nil W.fits]
  constructor
  · rintro ⟨row', values, hindexed, hid, hselects⟩
    obtain rfl := S.row_unique hindexed.1 hrow hid
    exact ⟨values, hindexed, hselects⟩
  · rintro ⟨values, hindexed, hselects⟩
    exact ⟨row, values, hindexed, rfl, hselects⟩

/-- Equal segments were written for the same values. -/
theorem segments_eq_iff {vs : List Property} {plan : IndexWalkPlan} :
    segments N vs = segments N plan.keys ↔
      List.Forall₂ Property.SameSegment vs plan.equalityKeys := by
  rw [IndexWalkPlan.segments_keys, segments, ← List.forall₂_eq_eq_eq, List.forall₂_map_left_iff,
    List.forall₂_map_right_iff]
  simp only [Property.segment_eq_iff]

/-- The values of a row, field by field. -/
theorem Indexed.split {d : IndexDefinition} {row : StoredRow} {values : List Property}
    (h : Indexed S d row values) {front back : List JsString} (hfields : d.on.tuple = front ++ back) :
    ∃ held rest, values = held ++ rest ∧
      List.Forall₂ (fun f v => f.contains 46 = false ∧ Holds row.2 f v) front held ∧
      List.Forall₂ (fun f v => f.contains 46 = false ∧ Holds row.2 f v) back rest := by
  have hall := h.forall₂
  rw [hfields] at hall
  have hfront := List.forall₂_take front.length hall
  have hback := List.forall₂_drop front.length hall
  rw [List.take_left] at hfront
  rw [List.drop_left] at hback
  exact ⟨_, _, (List.take_append_drop front.length values).symm, hfront, hback⟩

/-- The document holds the keys of a plan in its fields, up to `Same`, and a member of its set. -/
def HoldsKeys (Same : Property → Doc → Prop) (fields : List JsString) (plan : IndexWalkPlan)
    (doc : Doc) :
    Prop :=
  List.Forall₂ (fun f v => ∃ u, Holds doc f u ∧ Same u v) (fields.take plan.equalityKeys.length)
    plan.equalityKeys ∧
  ∀ f vs, plan.inOn = some (f, vs) → ∃ u, Holds doc f u ∧ ∃ v ∈ vs, Same u v

/-- Through the values a row holds. -/
theorem forall₂_held {doc : Doc} {Same : Property → Doc → Prop} {fields : List JsString}
    {held : List Property}
    (h : List.Forall₂ (fun f v => f.contains 46 = false ∧ Holds doc f v) fields held)
    {keys : List Doc} : List.Forall₂ Same held keys ↔
      List.Forall₂ (fun f v => ∃ u, Holds doc f u ∧ Same u v) fields keys := by
  induction h generalizing keys with
  | nil => simp
  | @cons f u fields held hfu _ ih =>
    cases keys with
    | nil => simp
    | cons v keys =>
      rw [List.forall₂_cons, List.forall₂_cons, ih]
      constructor
      · rintro ⟨hsame, hrest⟩
        exact ⟨⟨u, hfu.2, hsame⟩, hrest⟩
      · rintro ⟨⟨u', hu', hsame⟩, hrest⟩
        rw [hfu.2.unique hu']
        exact ⟨hsame, hrest⟩

/-- A key is selected by its equality run and by its slot. -/
theorem selects_append {plan : IndexWalkPlan} {docId : JsString} {held rest : List Property}
    (hlen : held.length = plan.equalityKeys.length) : Selects N plan docId (held ++ rest) ↔
      List.Forall₂ Property.SameSegment held plan.equalityKeys ∧ SelectsSlot N plan docId rest := by
  rw [← @segments_eq_iff N]
  constructor
  · rintro ⟨front, back, heq, hkeys, hslot⟩
    have hfront : held.length = front.length := by
      have := congrArg List.length hkeys
      simp only [segments, List.length_map, IndexWalkPlan.keys_length] at this
      omega
    obtain ⟨rfl, rfl⟩ := List.append_inj heq hfront
    exact ⟨hkeys, hslot⟩
  · rintro ⟨hkeys, hslot⟩
    exact ⟨held, rest, rfl, hkeys, hslot⟩

/-- **The fields of a walk**: the equality run, and what is left with the slot in front. -/
theorem Walk.fields (W : Walk E wire indexes) : ∃ front back, W.index.on.tuple = front ++ back ∧
    List.Forall₂ (fun f v => W.partition.equality.get f = some v) front W.plan.equalityKeys ∧
    (∀ f r, W.plan.rangeOn = some (f, r) →
      (∃ rest, back = f :: rest) ∧ W.partition.rangeOps.get f = some r) ∧
    (∀ f vs, W.plan.inOn = some (f, vs) →
      (∃ rest, back = f :: rest) ∧ W.partition.inOps.get f = some vs) := by
  obtain ⟨front, back, hfields, hrun, hslot⟩ := W.consumes
  refine ⟨front, back, hfields, hrun, fun f r hrange => ?_, fun f vs hset => ?_⟩
  · unfold Walk.plan Candidate.plan at hrange
    cases htail : W.best.tail with
    | none =>
      rw [htail] at hrange
      cases hrange
    | some slot =>
      rw [htail] at hrange hslot
      cases slot with
      | members field values => cases hrange
      | range field info =>
        cases hrange
        obtain ⟨rest, rfl⟩ := List.head?_eq_some_iff.mp hslot.1
        exact ⟨⟨rest, rfl⟩, hslot.2⟩
  · unfold Walk.plan Candidate.plan at hset
    cases htail : W.best.tail with
    | none =>
      rw [htail] at hset
      cases hset
    | some slot =>
      rw [htail] at hset hslot
      cases slot with
      | range field info => cases hset
      | members field values =>
        cases hset
        obtain ⟨rest, rfl⟩ := List.head?_eq_some_iff.mp hslot.1
        exact ⟨⟨rest, rfl⟩, hslot.2⟩

/-- What the slot of a walk selects, in the fields of the row. -/
theorem Walk.selectsSlot_iff {doc : Doc} {docId : JsString} {back : List JsString}
    {rest : List Property}
    (hrest : List.Forall₂ (fun f v => f.contains 46 = false ∧ Holds doc f v) back rest)
    (hrange : ∀ f r, W.plan.rangeOn = some (f, r) → ∃ more, back = f :: more)
    (hset : ∀ f vs, W.plan.inOn = some (f, vs) → ∃ more, back = f :: more) :
    SelectsSlot N W.plan docId rest ↔
      (∀ f r, W.plan.rangeOn = some (f, r) → ∃ u, Holds doc f u ∧
        InRange N r u (path slash (segments N rest.tail) ++ (docId ++ js ".json"))) ∧
      (∀ f vs, W.plan.inOn = some (f, vs) → ∃ u, Holds doc f u ∧ ∃ v ∈ vs, u.SameSegment v) := by
  -- a plan has one slot after its equality keys
  have hexcl : W.plan.rangeOn = none ∨ W.plan.inOn = none := by
    unfold Walk.plan Candidate.plan
    cases W.best.tail with
    | none => exact Or.inl rfl
    | some slot => cases slot <;> simp
  unfold SelectsSlot
  cases hr : W.plan.rangeOn with
  | some range =>
    obtain ⟨f, r⟩ := range
    obtain ⟨more, rfl⟩ := hrange f r hr
    cases hrest with
    | @cons _ u _ rest hu _ =>
      have hnone : W.plan.inOn = none := by simpa [hr] using hexcl
      simp only [hnone, Option.some.injEq, Prod.mk.injEq, List.tail_cons, reduceCtorEq,
        false_imp_iff, forall_true_iff, and_true]
      constructor
      · rintro ⟨v, rest', heq, hin⟩ f' r' ⟨rfl, rfl⟩
        cases heq
        exact ⟨u, hu.2, hin⟩
      · intro h
        obtain ⟨u', hu', hin⟩ := h f r ⟨rfl, rfl⟩
        rw [← hu.2.unique hu'] at hin
        exact ⟨u, rest, rfl, hin⟩
  | none =>
    cases hs : W.plan.inOn with
    | none => simp
    | some members =>
      obtain ⟨f, vs⟩ := members
      obtain ⟨more, rfl⟩ := hset f vs hs
      cases hrest with
      | @cons _ u _ rest hu _ =>
        simp only [Option.some.injEq, Prod.mk.injEq, reduceCtorEq, false_imp_iff, forall_true_iff,
          true_and, Property.segment_eq_iff]
        constructor
        · rintro ⟨v, rest', heq, hin⟩ f' vs' ⟨rfl, rfl⟩
          cases heq
          exact ⟨u, hu.2, hin⟩
        · intro h
          obtain ⟨u', hu', hin⟩ := h f vs ⟨rfl, rfl⟩
          rw [← hu.2.unique hu'] at hin
          exact ⟨u, rest, rfl, hin⟩

/-- **Which indexed rows a walk selects**, in the fields of the row. -/
theorem Walk.selects_iff {row : StoredRow} {values : List Property} (h : Indexed S W.index row values) :
    Selects N W.plan row.1 values ↔
      HoldsKeys Property.SameSegment W.index.on.tuple W.plan row.2 ∧
      ∀ f r, W.plan.rangeOn = some (f, r) → ∃ u, Holds row.2 f u ∧
        InRange N r u (path slash (segments N (values.drop W.plan.consumed)) ++
          (row.1 ++ js ".json")) := by
  obtain ⟨front, back, hfields, hrun, hrange, hset⟩ := W.fields
  obtain ⟨held, rest, rfl, hheld, hrest⟩ := h.split hfields
  have hlen : held.length = W.plan.equalityKeys.length := by
    rw [← hheld.length_eq, hrun.length_eq]
  have htake : W.index.on.tuple.take W.plan.equalityKeys.length = front := by
    rw [hfields, ← hrun.length_eq, List.take_left]
  rw [selects_append hlen, W.selectsSlot_iff hrest (fun f r hf => (hrange f r hf).1)
    (fun f vs hf => (hset f vs hf).1), forall₂_held hheld, HoldsKeys, htake]
  -- behind a range slot one more field is used up
  have hdrop : ∀ f r, W.plan.rangeOn = some (f, r) →
      (held ++ rest).drop W.plan.consumed = rest.tail := by
    intro f r hr
    have hconsumed : W.plan.consumed = held.length + 1 := by
      unfold IndexWalkPlan.consumed
      rw [hr, hlen]
      rfl
    rw [hconsumed, List.drop_length_add_append, List.drop_one]
  constructor
  · rintro ⟨hkeys, hslot, hmem⟩
    refine ⟨⟨hkeys, hmem⟩, fun f r hr => ?_⟩
    rw [hdrop f r hr]
    exact hslot f r hr
  · rintro ⟨⟨hkeys, hmem⟩, hslot⟩
    refine ⟨hkeys, fun f r hr => ?_, hmem⟩
    have := hslot f r hr
    rw [hdrop f r hr] at this
    exact this

end Reached

end Baerly
