import Baerly.Query.Normalize
import Baerly.Verify.Merge
import Baerly.Verify.Predicate

/-
  When flattening a predicate object keeps its meaning.

  SPEC: `matchesEq` of the object is the structural reading.  The flat wire means the same for every
  document exactly when no key inside contains a dot and no nested object is empty
  (`normalizeObject_meaning_iff`).

  CRUX: a predicate satisfies itself, read structurally.  `prune` drops the members that flattening
  loses; the flat clauses do not see the difference (`ownAt_prune`), the structural reading
  does, so one of the two documents tells the readings apart.
-/

namespace Baerly

/-! ## Paths -/

theorem splitDots_ne_nil (field : JsString) : splitDots field ≠ [] := by
  cases field with
  | nil => simp [splitDots]
  | cons u us =>
    rw [splitDots]
    split
    · simp
    · cases splitDots us with
      | nil => simp
      | cons seg segs => simp

/-- No segment contains a dot. -/
theorem splitDots_dotless (field : JsString) : ∀ seg ∈ splitDots field, 46 ∉ seg := by
  induction field with
  | nil => simp [splitDots]
  | cons u us ih =>
    rw [splitDots]
    split
    · intro seg hseg
      rcases List.mem_cons.mp hseg with rfl | hseg
      · exact List.not_mem_nil
      · exact ih seg hseg
    next hu =>
      cases hsplit : splitDots us with
      | nil => exact absurd hsplit (splitDots_ne_nil us)
      | cons seg segs =>
        rw [hsplit, List.forall_mem_cons] at ih
        dsimp only
        rw [List.forall_mem_cons]
        refine ⟨?_, ih.2⟩
        rw [List.mem_cons, not_or]
        exact ⟨fun h => hu h.symm, ih.1⟩

/-- A segment without a dot is split off. -/
theorem splitDots_dotless_append {seg : JsString} (h : 46 ∉ seg) (rest : JsString) :
    splitDots (seg ++ 46 :: rest) = seg :: splitDots rest := by
  induction seg with
  | nil => rw [List.nil_append, splitDots, if_pos rfl]
  | cons u us ih =>
    rw [List.mem_cons, not_or] at h
    rw [List.cons_append, splitDots, if_neg (fun hu => h.1 hu.symm), ih h.2]

/-- A name without a dot is one segment. -/
theorem splitDots_single {seg : JsString} (h : 46 ∉ seg) : splitDots seg = [seg] := by
  induction seg with
  | nil => rfl
  | cons u us ih =>
    rw [List.mem_cons, not_or] at h
    rw [splitDots, if_neg (fun hu => h.1 hu.symm), ih h.2]

/-- **Joining and splitting**: a path without dots comes back. -/
theorem splitDots_joinDots {path : List JsString} (hne : path ≠ [])
    (h : ∀ seg ∈ path, 46 ∉ seg) : splitDots (joinDots path) = path := by
  induction path with
  | nil => exact absurd rfl hne
  | cons seg segs ih =>
    rw [List.forall_mem_cons] at h
    cases segs with
    | nil => exact splitDots_single h.1
    | cons seg' segs =>
      rw [joinDots, splitDots_dotless_append h.1, ih (by simp) h.2]
      simp

/-- Both ways of `lookupPath` walk the segments. -/
theorem lookupPath_eq (doc : Doc) (field : JsString) :
    lookupPath doc field = lookupSegments (splitDots field) (.value doc) := by
  unfold lookupPath
  split
  next => rfl
  next h =>
    have hdot : 46 ∉ field := by simpa using h
    rw [splitDots_single hdot]
    cases doc <;> rfl

/-- Reading a longer path goes on from where the shorter one got. -/
theorem lookupSegments_append (path : List JsString) (key : JsString) (cursor : Property) :
    lookupSegments (path ++ [key]) cursor = lookupSegments [key] (lookupSegments path cursor) := by
  induction path generalizing cursor with
  | nil => rfl
  | cons seg path ih =>
    cases hplain : cursor.isPlainObject with
    | true =>
      have hstep : ∀ segs,
          lookupSegments (seg :: segs) cursor = lookupSegments segs (cursor.read seg) :=
        fun segs => if_pos hplain
      rw [List.cons_append, hstep, hstep]
      exact ih _
    | false =>
      rw [List.cons_append, lookupSegments_plain hplain, lookupSegments_plain hplain]
      rfl

/-! ## Clauses -/

/-- **The clauses of an object are those of its members.** -/
theorem normalizeObject_ok {base : List JsString} : ∀ {ms : List (JsString × Doc)}
    {cs : List PredicateClause}, normalizeObject ms base = .ok cs →
    (∀ m ∈ ms, ∃ inner, normalizeValue (base ++ [m.1]) m.2 = .ok inner ∧ ∀ c ∈ inner, c ∈ cs) ∧
    ∀ c ∈ cs, ∃ m ∈ ms, ∃ inner, normalizeValue (base ++ [m.1]) m.2 = .ok inner ∧ c ∈ inner := by
  intro ms
  induction ms with
  | nil =>
    intro cs h
    rw [normalizeObject] at h
    cases h
    exact ⟨fun m hm => absurd hm List.not_mem_nil, fun c hc => absurd hc List.not_mem_nil⟩
  | cons m ms ih =>
    obtain ⟨key, value⟩ := m
    intro cs h
    rw [normalizeObject] at h
    obtain ⟨_, _, h⟩ := except_bind_ok h
    obtain ⟨inner, hinner, h⟩ := except_bind_ok h
    obtain ⟨rest, hrest, h⟩ := except_bind_ok h
    cases h
    obtain ⟨hsub, hfrom⟩ := ih hrest
    constructor
    · rw [List.forall_mem_cons]
      refine ⟨⟨inner, hinner, fun c hc => List.mem_append_left _ hc⟩, fun m hm => ?_⟩
      obtain ⟨inner', hinner', hin⟩ := hsub m hm
      exact ⟨inner', hinner', fun c hc => List.mem_append_right _ (hin c hc)⟩
    · intro c hc
      rcases List.mem_append.mp hc with hc | hc
      · exact ⟨(key, value), List.mem_cons_self, inner, hinner, hc⟩
      · obtain ⟨m, hm, hrest⟩ := hfrom c hc
        exact ⟨m, List.mem_cons_of_mem _ hm, hrest⟩

/-- No member of an accepted object has a name that reaches a prototype. -/
theorem normalizeObject_key {base : List JsString} : ∀ {ms : List (JsString × Doc)}
    {cs : List PredicateClause}, normalizeObject ms base = .ok cs → ∀ m ∈ ms, m.1 ≠ protoName := by
  intro ms
  induction ms with
  | nil => exact fun _ m hm => absurd hm List.not_mem_nil
  | cons m ms ih =>
    obtain ⟨key, value⟩ := m
    intro cs h
    rw [normalizeObject] at h
    obtain ⟨_, hkey, h⟩ := except_bind_ok h
    obtain ⟨_, -, h⟩ := except_bind_ok h
    obtain ⟨rest, hrest, -⟩ := except_bind_ok h
    rw [List.forall_mem_cons]
    refine ⟨fun hproto => ?_, ih hrest⟩
    have hname : key = protoName := hproto
    rw [hname] at hkey
    unfold checkPredicateKey at hkey
    rw [if_neg (by decide), if_pos (by decide)] at hkey
    cases hkey

/-- A string, a number or a boolean. -/
def Json.isLeaf : Doc → Bool
  | .str _ => true
  | .num _ => true
  | .bool _ => true
  | _ => false

/-- A leaf is no `null`. -/
theorem Json.isLeaf_ne_null {s : Doc} (h : s.isLeaf = true) : s ≠ .null := by
  rintro rfl
  cases h

/-- A leaf matches itself only. -/
theorem matchesEq_leaf {s : Doc} (h : s.isLeaf = true) (actual : Property) :
    matchesEq s actual = .ok true ↔ actual = .value s := by
  cases s with
  | str s => simp [matchesEq]
  | num n => simp [matchesEq]
  | bool b => simp [matchesEq]
  | _ => cases h

/-- An object matches member by member. -/
theorem matchesEq_obj (ms : List (JsString × Doc)) (actual : Property) :
    matchesEq (.obj ms) actual = .ok true ↔ actual.isPlainObject = true ∧
      ∀ m ∈ ms, matchesEq m.2 (actual.read m.1) = .ok true :=
  @matchesEq_composite (.obj ms) rfl actual

/-- Every clause of a flat wire is the equality of a scalar. -/
theorem normalizeValue_clause (v : Doc) : ∀ path cs, normalizeValue path v = .ok cs →
    ∀ c ∈ cs, c.op = .eq ∧ c.value.isLeaf = true := by
  induction v using Json.ind with
  | null =>
    intro path cs h
    rw [normalizeValue] at h
    cases h
  | arr xs ih =>
    intro path cs h
    rw [normalizeValue] at h
    cases h
  | obj ms ih =>
    intro path cs h c hc
    rw [normalizeValue] at h
    obtain ⟨m, hm, inner, hinner, hcin⟩ := (normalizeObject_ok h).2 c hc
    exact ih m hm _ inner hinner c hcin
  | _ =>
    intro path cs h c hc
    rw [normalizeValue] at h
    cases h
    rw [List.mem_singleton.mp hc]
    exact ⟨rfl, rfl⟩

/-- A flat clause asks for its scalar at its path. -/
theorem flat_clause {c : PredicateClause} (h : c.op = .eq ∧ c.value.isLeaf = true) (doc : Doc) :
    matchesClause c (lookupPath doc c.field) = .ok true ↔
      ownAt (splitDots c.field) (some doc) = some c.value := by
  unfold matchesClause
  rw [h.1]
  dsimp only
  rw [matchesEq_leaf h.2, lookupPath_eq, lookupSegments_value (Json.isLeaf_ne_null h.2)]

/-! ## What flattening keeps -/

/-- A member that flattening keeps: its name has no dot, and it is not the empty object. -/
def flatMember (key : JsString) : Doc → Bool
  | .obj [] => false
  | _ => !key.contains 46

/-- Nothing matches what is neither a value nor an object. -/
theorem matchesEq_missing {p : Property} (hplain : p.isPlainObject = false)
    (hvalue : ∀ u, p ≠ .value u) (v : Doc) : matchesEq v p ≠ .ok true := by
  cases v <;> simp [matchesEq, hplain, hvalue]

/-- **The clauses of a value mean the value**, where every member inside is kept. -/
theorem normalizeValue_iff (v : Doc) : ∀ path cs, normalizeValue path v = .ok cs →
    (v.isLeaf = true → path ≠ []) → (∀ seg ∈ path, 46 ∉ seg) → v ≠ .obj [] →
    everyMember flatMember v = true → ∀ doc,
    ((∀ c ∈ cs, matchesClause c (lookupPath doc c.field) = .ok true) ↔
      matchesEq v (lookupSegments path (.value doc)) = .ok true) := by
  induction v using Json.ind with
  | null =>
    intro path cs h
    rw [normalizeValue] at h
    cases h
  | arr xs ih =>
    intro path cs h
    rw [normalizeValue] at h
    cases h
  | obj ms ih =>
    intro path cs h _ hpath hempty hclean doc
    rw [normalizeValue] at h
    rw [everyMember, everyMembers_iff] at hclean
    obtain ⟨hsub, hfrom⟩ := normalizeObject_ok h
    have hmember : ∀ m ∈ ms, ∀ inner, normalizeValue (path ++ [m.1]) m.2 = .ok inner →
        ((∀ c ∈ inner, matchesClause c (lookupPath doc c.field) = .ok true) ↔
          matchesEq m.2 (lookupSegments [m.1] (lookupSegments path (.value doc))) = .ok true) := by
      intro m hm inner hinner
      obtain ⟨hflat, hrest⟩ := hclean m hm
      have hm2 : m.2 ≠ .obj [] := by
        intro heq
        rw [heq] at hflat
        cases hflat
      have hdot : 46 ∉ m.1 := by
        intro hdot
        cases hv : m.2 with
        | obj us =>
          cases us with
          | nil => exact hm2 hv
          | cons u us => simp [hv, flatMember, hdot] at hflat
        | _ => simp [hv, flatMember, hdot] at hflat
      rw [← lookupSegments_append]
      refine ih m hm _ inner hinner (fun _ => by simp) ?_ hm2 hrest doc
      intro seg hseg
      rcases List.mem_append.mp hseg with hseg | hseg
      · exact hpath seg hseg
      · rw [List.mem_singleton.mp hseg]
        exact hdot
    have hall : (∀ c ∈ cs, matchesClause c (lookupPath doc c.field) = .ok true) ↔
        ∀ m ∈ ms, matchesEq m.2 (lookupSegments [m.1] (lookupSegments path (.value doc))) =
          .ok true := by
      constructor
      · intro hcs m hm
        obtain ⟨inner, hinner, hin⟩ := hsub m hm
        exact (hmember m hm inner hinner).mp fun c hc => hcs c (hin c hc)
      · intro hms c hc
        obtain ⟨m, hm, inner, hinner, hcin⟩ := hfrom c hc
        exact (hmember m hm inner hinner).mpr (hms m hm) c hcin
    rw [hall, matchesEq_obj]
    constructor
    · intro hms
      -- some member is asked for, so there is an object
      obtain ⟨m, hm⟩ := List.exists_mem_of_ne_nil ms fun heq => hempty (by rw [heq])
      have hsome := hms m hm
      cases hplain : (lookupSegments path (.value doc)).isPlainObject with
      | true =>
        refine ⟨rfl, fun m hm => ?_⟩
        have hm' := hms m hm
        rwa [lookupSegments, if_pos hplain, lookupSegments] at hm'
      | false =>
        rw [lookupSegments_plain hplain] at hsome
        exact absurd hsome (matchesEq_missing rfl (fun u h => by cases h) _)
    · rintro ⟨hplain, hms⟩ m hm
      rw [lookupSegments, if_pos hplain, lookupSegments]
      exact hms m hm
  | _ =>
    intro path cs h hne hpath _ _ doc
    rw [normalizeValue] at h
    cases h
    simp only [List.mem_singleton, forall_eq, matchesClause]
    rw [lookupPath_eq, splitDots_joinDots (hne rfl) hpath]

/-! ## What flattening loses -/

mutual

/-- Without the members that flattening loses. -/
def prune : Doc → Doc
  | .obj ms => .obj (pruneMembers ms)
  | v => v

/-- The members that are flat, each pruned. -/
def pruneMembers : List (JsString × Doc) → List (JsString × Doc)
  | [] => []
  | (key, value) :: ms =>
    if flatMember key value then (key, prune value) :: pruneMembers ms else pruneMembers ms

end

/-- Pruning brings in no key. -/
theorem mem_pruneMembers_key {key : JsString} {ms : List (JsString × Doc)}
    (h : key ∈ (pruneMembers ms).map Prod.fst) : key ∈ ms.map Prod.fst := by
  induction ms with
  | nil => exact h
  | cons m ms ih =>
    obtain ⟨k, v⟩ := m
    rw [pruneMembers] at h
    split at h
    · rcases List.mem_cons.mp h with rfl | h
      · exact List.mem_cons_self
      · exact List.mem_cons_of_mem _ (ih h)
    · exact List.mem_cons_of_mem _ (ih h)

/-- A pruned object answers a flat key as before. -/
theorem lookup_pruneMembers {key : JsString} {ms : List (JsString × Doc)}
    (hnodup : (ms.map Prod.fst).Nodup) : (pruneMembers ms).lookup key =
      (ms.lookup key).bind fun v => if flatMember key v then some (prune v) else none := by
  induction ms with
  | nil => rfl
  | cons m ms ih =>
    obtain ⟨k, v⟩ := m
    rw [List.map_cons, List.nodup_cons] at hnodup
    rw [pruneMembers, List.lookup_cons]
    by_cases hk : key = k
    · subst hk
      rw [beq_self_eq_true]
      dsimp only [Option.bind_some]
      split
      next => rw [List.lookup_cons, beq_self_eq_true]
      next =>
        rw [List.lookup_eq_none_iff]
        intro p hp
        have hne : key ≠ p.1 := fun heq =>
          hnodup.1 (mem_pruneMembers_key (List.mem_map.mpr ⟨p, hp, heq.symm⟩))
        simpa using hne
    · rw [beq_eq_false_iff_ne.mpr hk]
      dsimp only
      rw [← ih hnodup.2]
      split
      next => rw [List.lookup_cons, beq_eq_false_iff_ne.mpr hk]
      next => rfl

/-- Members that are well formed, each for itself. -/
theorem wfMembers_of_forall {ms : List (JsString × Doc)} (h : ∀ m ∈ ms, m.2.wf = true) :
    Json.wfMembers ms = true := by
  induction ms with
  | nil => rfl
  | cons m ms ih =>
    rw [List.forall_mem_cons] at h
    rw [Json.wfMembers, h.1, ih h.2]
    rfl

/-- A pruned member is a member, pruned. -/
theorem mem_pruneMembers {m : JsString × Doc} {ms : List (JsString × Doc)}
    (h : m ∈ pruneMembers ms) : ∃ v, (m.1, v) ∈ ms ∧ m.2 = prune v := by
  induction ms with
  | nil => cases h
  | cons q ms ih =>
    obtain ⟨k, v⟩ := q
    rw [pruneMembers] at h
    have hrest : m ∈ pruneMembers ms → ∃ u, (m.1, u) ∈ (k, v) :: ms ∧ m.2 = prune u := by
      intro h
      obtain ⟨u, hu, heq⟩ := ih h
      exact ⟨u, List.mem_cons_of_mem _ hu, heq⟩
    split at h
    · rcases List.mem_cons.mp h with rfl | h
      · exact ⟨v, List.mem_cons_self, rfl⟩
      · exact hrest h
    · exact hrest h

/-- Keys stay distinct. -/
theorem nodup_pruneMembers {ms : List (JsString × Doc)} (h : (ms.map Prod.fst).Nodup) :
    ((pruneMembers ms).map Prod.fst).Nodup := by
  induction ms with
  | nil => exact h
  | cons m ms ih =>
    obtain ⟨k, v⟩ := m
    rw [List.map_cons, List.nodup_cons] at h
    rw [pruneMembers]
    split
    · rw [List.map_cons, List.nodup_cons]
      exact ⟨fun hmem => h.1 (mem_pruneMembers_key hmem), ih h.2⟩
    · exact ih h.2

/-- Pruning keeps a value well formed. -/
theorem wf_prune (v : Doc) : v.wf = true → (prune v).wf = true := by
  induction v using Json.ind with
  | obj ms ih =>
    intro hwf
    rw [prune, Json.wf, Bool.and_eq_true, decide_eq_true_eq]
    refine ⟨nodup_pruneMembers (keys_nodup hwf), wfMembers_of_forall fun m hm => ?_⟩
    obtain ⟨u, hu, heq⟩ := mem_pruneMembers hm
    rw [heq]
    exact ih (m.1, u) hu (wf_member hwf hu)
  | _ =>
    intro hwf
    simpa only [prune] using hwf

/-- A scalar at a path of dot-free names is neither lost nor brought in. -/
theorem ownAt_prune {s : Doc} (hs : s.isLeaf = true) : ∀ (path : List JsString),
    (∀ seg ∈ path, 46 ∉ seg) → ∀ v : Doc, v.wf = true →
    (ownAt path (some (prune v)) = some s ↔ ownAt path (some v) = some s) := by
  intro path
  induction path with
  | nil =>
    intro _ v _
    cases v with
    | obj ms =>
      simp only [ownAt, prune, Option.some.injEq]
      constructor
      · rintro rfl
        cases hs
      · rintro rfl
        cases hs
    | _ => simp only [prune]
  | cons key path ih =>
    intro hpath v hwf
    rw [List.forall_mem_cons] at hpath
    cases v with
    | obj ms =>
      rw [prune, ownAt, ownAt, lookup_pruneMembers (keys_nodup hwf)]
      cases hlook : ms.lookup key with
      | none => rfl
      | some u =>
        have hu : u.wf = true := wf_member hwf (mem_of_lookup hlook)
        rw [Option.bind_some]
        split
        next => exact ih hpath.2 u hu
        next hflat =>
          -- the name has no dot, so the member is the empty object
          have hempty : u = .obj [] := by
            have hcontains : key.contains 46 = false := by simpa using hpath.1
            cases u with
            | obj us =>
              cases us with
              | nil => rfl
              | cons w us => exact absurd (by simp only [flatMember, hcontains, Bool.not_false]) hflat
            | _ => exact absurd (by simp only [flatMember, hcontains, Bool.not_false]) hflat
          rw [hempty, ownAt_none]
          cases path with
          | nil =>
            simp only [ownAt, Option.some.injEq]
            constructor
            · intro h
              cases h
            · rintro rfl
              cases hs
          | cons key' path =>
            rw [ownAt, List.lookup_nil, ownAt_none]
    | _ => simp only [prune]

/-- Read structurally, an accepted predicate accepts itself, and itself pruned only if nothing is
    lost. -/
theorem matchesEq_prune (v : Doc) : ∀ path cs, normalizeValue path v = .ok cs → v.wf = true →
    matchesEq v (.value v) = .ok true ∧
      (matchesEq v (.value (prune v)) = .ok true → everyMember flatMember v = true) := by
  induction v using Json.ind with
  | null =>
    intro path cs h
    rw [normalizeValue] at h
    cases h
  | arr xs ih =>
    intro path cs h
    rw [normalizeValue] at h
    cases h
  | obj ms ih =>
    intro path cs h hwf
    rw [normalizeValue] at h
    obtain ⟨hsub, -⟩ := normalizeObject_ok h
    have hnodup := keys_nodup hwf
    rw [matchesEq_obj, matchesEq_obj, everyMember, everyMembers_iff]
    refine ⟨⟨rfl, fun m hm => ?_⟩, ?_⟩
    · obtain ⟨inner, hinner, -⟩ := hsub m hm
      rw [Property.read_obj, readMember_own (lookup_of_mem hnodup hm)]
      exact (ih m hm _ inner hinner (wf_member hwf hm)).1
    · rintro ⟨-, hms⟩ m hm
      obtain ⟨inner, hinner, -⟩ := hsub m hm
      have hm' := hms m hm
      have hlook := @lookup_pruneMembers m.1 ms hnodup
      rw [lookup_of_mem hnodup hm, Option.bind_some] at hlook
      rw [prune, Property.read_obj] at hm'
      by_cases hflat : flatMember m.1 m.2 = true
      · rw [if_pos hflat] at hlook
        rw [readMember_own hlook] at hm'
        exact ⟨hflat, (ih m hm _ inner hinner (wf_member hwf hm)).2 hm'⟩
      · -- the pruned object answers such a name with a function at most
        rw [if_neg hflat] at hlook
        rw [readMember_inherited hlook] at hm'
        have hplain : (inherited m.1).isPlainObject = false := by
          unfold inherited
          rw [if_neg (normalizeObject_key h m hm)]
          split <;> rfl
        exact absurd hm' (matchesEq_missing hplain (inherited_ne_value m.1) _)
  | _ => exact fun _ _ _ _ => ⟨by simp [matchesEq], fun _ => rfl⟩

/-! ## The two readings -/

/-- **When flattening keeps the meaning** of an accepted predicate object: exactly when no key
    inside contains a dot and no nested object is empty. -/
theorem normalizeObject_meaning_iff (obj : List (JsString × Doc))
    (hwf : (Json.obj obj).wf = true) (clauses : List PredicateClause)
    (h : normalizeObject obj [] = .ok clauses) :
    (∀ members : List (JsString × Doc), (Json.obj members).wf = true →
      (matchesWire ⟨clauses⟩ (.obj members) = .ok true ↔
        matchesEq (.obj obj) (.value (.obj members)) = .ok true)) ↔
      everyMembers flatMember obj = true := by
  have hvalue : normalizeValue [] (.obj obj) = .ok clauses := by
    rw [normalizeValue]
    exact h
  simp only [matchesWire_iff]
  constructor
  · intro hsame
    obtain ⟨hself, hpruned⟩ := matchesEq_prune (.obj obj) [] clauses hvalue hwf
    have hwf' := wf_prune _ hwf
    rw [prune] at hwf' hpruned
    apply hpruned
    rw [← hsame _ hwf']
    -- the clauses hold of the predicate itself, and do not see what is pruned
    have hflat := (hsame obj hwf).mpr hself
    intro c hc
    have hclause := normalizeValue_clause _ _ _ hvalue c hc
    have hc' := hflat c hc
    rw [flat_clause hclause] at hc' ⊢
    have hprune := ownAt_prune hclause.2 _ (splitDots_dotless c.field) (.obj obj) hwf
    rw [prune] at hprune
    exact hprune.mpr hc'
  · intro hclean members _
    by_cases hempty : obj = []
    · subst hempty
      rw [normalizeObject] at h
      cases h
      refine ⟨fun _ => ?_, fun _ c hc => absurd hc List.not_mem_nil⟩
      rw [matchesEq, if_pos (Property.isPlainObject_obj members), matchesMembers]
    · exact normalizeValue_iff (.obj obj) [] clauses hvalue (fun hs => (by cases hs))
        (fun seg hseg => absurd hseg List.not_mem_nil) (fun heq => hempty (Json.obj.inj heq))
        hclean (.obj members)

theorem normalizeObject_meaning_iff_nested :
    (normalizeObject [(js "a", .obj [(js "b", .bool true)])] [] =
      .ok [⟨.eq, js "a.b", .bool true, rfl⟩]) ∧
    ∀ members : List (JsString × Doc), (Json.obj members).wf = true →
      (matchesWire ⟨[⟨.eq, js "a.b", .bool true, rfl⟩]⟩ (.obj members) = .ok true ↔
        matchesEq (.obj [(js "a", .obj [(js "b", .bool true)])]) (.value (.obj members)) =
          .ok true) :=
  ⟨rfl, (normalizeObject_meaning_iff _ rfl _ rfl).mpr rfl⟩

/-- `{ "a.b": true }` accepts `{ a: { b: true } }` once it is flat, and no longer itself. -/
theorem normalizeObject_joins_dotted_key :
    (normalizeObject [(js "a.b", .bool true)] [] = .ok [⟨.eq, js "a.b", .bool true, rfl⟩]) ∧
    matchesWire ⟨[⟨.eq, js "a.b", .bool true, rfl⟩]⟩ (.obj [(js "a", .obj [(js "b", .bool true)])]) =
      .ok true ∧
    matchesEq (.obj [(js "a.b", .bool true)]) (.value (.obj [(js "a", .obj [(js "b", .bool true)])])) =
      .ok false ∧
    (normalizeObject [(js "a", .obj [])] [] = .ok []) ∧
    matchesWire ⟨[]⟩ (.obj []) = .ok true ∧
    matchesEq (.obj [(js "a", .obj [])]) (.value (.obj [])) = .ok false := by
  exact ⟨rfl, by decide, by decide, rfl, rfl, by decide⟩

end Baerly
