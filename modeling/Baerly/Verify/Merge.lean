import Baerly.Merge
import Baerly.Query.DeepEqual

/-
  Merging against the reference recursion of JSON Merge Patch.

  SPEC: `merge` is `mergePatch` exactly when every patch object that is taken verbatim, because it
  meets a target that is no object, holds no `null` member and no forbidden key (`merge_eq_iff`).
  Without `null`s there, a second merge of the same patch changes nothing (`merge_merge`) and no
  `null` is brought in; without forbidden keys there, no forbidden key is.

  CRUX: both loops only touch the member they name, so each is known by its lookups
  (`lookup_mergeMembers`, `lookup_mergePatchMembers`), and a loop whose every step is the identity
  changes nothing (`mergeMembers_fixed`).
-/

namespace Baerly

variable {N : Type}

/-! ## Single steps -/

/-- Only an object has members to merge into. -/
theorem plainMembers_eq_some {target : Option (Json N)} {ms : List (JsString × Json N)} :
    plainMembers target = some ms ↔ target = some (.obj ms) := by
  rcases target with _ | (_ | _ | _ | _ | _ | ts) <;> simp [plainMembers]

/-- Only a `null` patch merges to `undefined`. -/
theorem merge_isSome {patch : Json N} (h : patch ≠ .null) (target : Option (Json N)) :
    ∃ v, merge target patch = some v := by
  cases patch with
  | null => exact absurd rfl h
  | obj ms =>
    rw [merge]
    cases plainMembers target with
    | none => exact ⟨_, rfl⟩
    | some ts => exact ⟨_, rfl⟩
  | _ => simp [merge]

@[simp] theorem merge_null (target : Option (Json N)) : merge target .null = none := by
  rw [merge]

/-- A patch that meets nothing is taken as it is. -/
theorem merge_none {patch : Json N} (h : patch ≠ .null) : merge none patch = some patch := by
  cases patch with
  | null => exact absurd rfl h
  | obj ms => rw [merge]; rfl
  | _ => simp [merge]

/-- What one key of a patch does to the result so far. -/
def mergeMember (target : List (JsString × Json N)) (key : JsString) (value : Json N)
    (combined : List (JsString × Json N)) : List (JsString × Json N) :=
  if isForbiddenKey key then combined
  else
    match merge (target.lookup key) value with
    | some merged => InsMap.setEntry key merged combined
    | none => combined.filter fun m => m.1 ≠ key

/-- A patch is merged member by member. -/
theorem mergeMembers_cons (target combined patch : List (JsString × Json N)) (key : JsString)
    (value : Json N) : mergeMembers target combined ((key, value) :: patch) =
      mergeMembers target (mergeMember target key value combined) patch := by
  unfold mergeMember
  by_cases hkey : isForbiddenKey key = true
  · rw [if_pos hkey]
    cases value <;> simp only [mergeMembers, if_pos hkey]
  · rw [if_neg hkey]
    by_cases hnull : value = .null
    · subst hnull
      simp only [mergeMembers, if_neg hkey, merge_null]
    · obtain ⟨merged, hm⟩ := merge_isSome hnull (target.lookup key)
      cases value with
      | null => exact absurd rfl hnull
      | _ => simp only [mergeMembers, if_neg hkey, hm, assign]

/-- What one key of a patch does under the reference. -/
def patchMember (key : JsString) (value : Json N) (target : List (JsString × Json N)) :
    List (JsString × Json N) :=
  if isForbiddenKey key then target
  else
    match value with
    | .null => target.filter fun m => m.1 ≠ key
    | value => InsMap.setEntry key (mergePatch (target.lookup key) value) target

/-- So it is in the reference. -/
theorem mergePatchMembers_cons (target patch : List (JsString × Json N)) (key : JsString)
    (value : Json N) : mergePatchMembers target ((key, value) :: patch) =
      mergePatchMembers (patchMember key value target) patch := by
  unfold patchMember
  by_cases hkey : isForbiddenKey key = true
  · rw [if_pos hkey]
    cases value <;> simp only [mergePatchMembers, if_pos hkey]
  · rw [if_neg hkey]
    cases value <;> simp only [mergePatchMembers, if_neg hkey]

/-! ## Lookups -/

/-- What is set is found, and everything else as before. -/
theorem lookup_setMember (k j : JsString) (v : Json N) (l : List (JsString × Json N)) :
    (InsMap.setEntry k v l).lookup j = if j = k then some v else l.lookup j := by
  have hbeq : (List.instBEq : BEq JsString) = instBEqOfDecidableEq := lawful_beq_subsingleton _ _
  rw [hbeq]
  exact InsMap.lookup_setEntry k j v l

/-- What is dropped is gone, and everything else as before. -/
theorem lookup_dropMember (k j : JsString) (l : List (JsString × Json N)) :
    (l.filter fun m => m.1 ≠ k).lookup j = if j = k then none else l.lookup j := by
  have hbeq : (List.instBEq : BEq JsString) = instBEqOfDecidableEq := lawful_beq_subsingleton _ _
  rw [hbeq]
  exact InsMap.lookup_filter_ne k j l

/-- A member of the patch changes its own key only. -/
theorem lookup_mergeMember_ne {target combined : List (JsString × Json N)} {key k : JsString}
    (h : k ≠ key) (value : Json N) :
    (mergeMember target key value combined).lookup k = combined.lookup k := by
  unfold mergeMember
  by_cases hkey : isForbiddenKey key = true
  · rw [if_pos hkey]
  · rw [if_neg hkey]
    cases merge (target.lookup key) value with
    | none =>
      dsimp only
      rw [lookup_dropMember, if_neg h]
    | some merged =>
      dsimp only
      rw [lookup_setMember, if_neg h]

/-- There it leaves the merge of the two values. -/
theorem lookup_mergeMember_self {target combined : List (JsString × Json N)} {key : JsString}
    (h : isForbiddenKey key = false) (value : Json N) :
    (mergeMember target key value combined).lookup key = merge (target.lookup key) value := by
  unfold mergeMember
  rw [if_neg (by simp [h])]
  cases merge (target.lookup key) value with
  | none =>
    dsimp only
    rw [lookup_dropMember, if_pos rfl]
  | some merged =>
    dsimp only
    rw [lookup_setMember, if_pos rfl]

/-- A key the patch does not name, or may not, keeps its value. -/
theorem lookup_mergeMembers_of_not_mem {target : List (JsString × Json N)} {k : JsString} :
    ∀ (patch combined : List (JsString × Json N)),
      (k ∉ patch.map Prod.fst ∨ isForbiddenKey k = true) →
      (mergeMembers target combined patch).lookup k = combined.lookup k := by
  intro patch
  induction patch with
  | nil => intro combined _; rw [mergeMembers]
  | cons m patch ih =>
    obtain ⟨key, value⟩ := m
    intro combined h
    rw [mergeMembers_cons, ih]
    · by_cases hk : k = key
      · subst hk
        rcases h with h | h
        · simp at h
        · rw [mergeMember, if_pos h]
      · exact lookup_mergeMember_ne hk value
    · exact h.imp (fun h hmem => h (List.mem_cons_of_mem _ hmem)) id

/-- **The loop of `merge`, by its lookups.** -/
theorem lookup_mergeMembers {target : List (JsString × Json N)} {key : JsString} {value : Json N} :
    ∀ (patch combined : List (JsString × Json N)), (patch.map Prod.fst).Nodup →
      (key, value) ∈ patch → isForbiddenKey key = false →
      (mergeMembers target combined patch).lookup key = merge (target.lookup key) value := by
  intro patch
  induction patch with
  | nil => intro combined _ hmem; cases hmem
  | cons m patch ih =>
    obtain ⟨key', value'⟩ := m
    intro combined hnodup hmem hkey
    rw [List.map_cons, List.nodup_cons] at hnodup
    rw [mergeMembers_cons]
    rcases List.mem_cons.mp hmem with heq | hmem
    · cases heq
      rw [lookup_mergeMembers_of_not_mem patch _ (Or.inl hnodup.1), lookup_mergeMember_self hkey]
    · exact ih _ hnodup.2 hmem hkey

/-- In the reference, too, a member changes its own key only. -/
theorem lookup_patchMember_ne {target : List (JsString × Json N)} {key k : JsString} (h : k ≠ key)
    (value : Json N) : (patchMember key value target).lookup k = target.lookup k := by
  unfold patchMember
  by_cases hkey : isForbiddenKey key = true
  · rw [if_pos hkey]
  · rw [if_neg hkey]
    cases value <;> dsimp only <;>
      first
      | rw [lookup_dropMember, if_neg h]
      | rw [lookup_setMember, if_neg h]

/-- And a key the patch does not name keeps its value. -/
theorem lookup_mergePatchMembers_of_not_mem {k : JsString} :
    ∀ (patch target : List (JsString × Json N)),
      (k ∉ patch.map Prod.fst ∨ isForbiddenKey k = true) →
      (mergePatchMembers target patch).lookup k = target.lookup k := by
  intro patch
  induction patch with
  | nil => intro target _; rw [mergePatchMembers]
  | cons m patch ih =>
    obtain ⟨key, value⟩ := m
    intro target h
    rw [mergePatchMembers_cons, ih]
    · by_cases hk : k = key
      · subst hk
        rcases h with h | h
        · simp at h
        · unfold patchMember
          rw [if_pos h]
      · exact lookup_patchMember_ne hk value
    · exact h.imp (fun h hmem => h (List.mem_cons_of_mem _ hmem)) id

/-- **The loop of the reference, by its lookups.** -/
theorem lookup_mergePatchMembers {key : JsString} {value : Json N} :
    ∀ (patch target : List (JsString × Json N)), (patch.map Prod.fst).Nodup →
      (key, value) ∈ patch → isForbiddenKey key = false →
      (value = .null → (mergePatchMembers target patch).lookup key = none) ∧
      (value ≠ .null → (mergePatchMembers target patch).lookup key =
        some (mergePatch (target.lookup key) value)) := by
  intro patch
  induction patch with
  | nil => intro target _ hmem; cases hmem
  | cons m patch ih =>
    obtain ⟨key', value'⟩ := m
    intro target hnodup hmem hkey
    rw [List.map_cons, List.nodup_cons] at hnodup
    rw [mergePatchMembers_cons]
    rcases List.mem_cons.mp hmem with heq | hmem
    · cases heq
      rw [lookup_mergePatchMembers_of_not_mem patch _ (Or.inl hnodup.1)]
      unfold patchMember
      rw [if_neg (by simp [hkey])]
      constructor
      · rintro rfl
        dsimp only
        rw [lookup_dropMember, if_pos rfl]
      · intro hnull
        cases value with
        | null => exact absurd rfl hnull
        | _ =>
          dsimp only
          rw [lookup_setMember, if_pos rfl]
    · have hne : key ≠ key' := fun heq =>
        hnodup.1 (heq ▸ List.mem_map.mpr ⟨(key, value), hmem, rfl⟩)
      have hrest := ih (patchMember key' value' target) hnodup.2 hmem hkey
      rwa [lookup_patchMember_ne hne] at hrest

/-! ## What is taken verbatim -/

mutual

/-- Every member of every object inside is `ok`; arrays are opaque. -/
def everyMember (ok : JsString → Json N → Bool) : Json N → Bool
  | .obj ms => everyMembers ok ms
  | _ => true

/-- Every member passes, inside and out. -/
def everyMembers (ok : JsString → Json N → Bool) : List (JsString × Json N) → Bool
  | [] => true
  | (key, value) :: ms => ok key value && everyMember ok value && everyMembers ok ms

end

mutual

/-- Every patch object that meets a target that is no object has only `ok` members. -/
def verbatimOk (ok : JsString → Json N → Bool) (target : Option (Json N)) : Json N → Bool
  | .obj patch =>
    match plainMembers target with
    | some members => verbatimMembersOk ok members patch
    | none => everyMembers ok patch
  | _ => true

/-- What a patch takes verbatim passes, member by member. -/
def verbatimMembersOk (ok : JsString → Json N → Bool) (target : List (JsString × Json N)) :
    List (JsString × Json N) → Bool
  | [] => true
  | (key, value) :: patch =>
    (isForbiddenKey key || verbatimOk ok (target.lookup key) value) &&
      verbatimMembersOk ok target patch

end

/-- A member that is not `null`. -/
def notNull (_ : JsString) : Json N → Bool
  | .null => false
  | _ => true

/-- A member whose name is allowed. -/
def allowedKey (key : JsString) (_ : Json N) : Bool := !isForbiddenKey key

/-- Both. -/
def cleanMember (key : JsString) (value : Json N) : Bool := notNull key value && allowedKey key value

/-- Not `null`, whatever the key. -/
theorem notNull_iff {key : JsString} {v : Json N} : notNull key v = true ↔ v ≠ .null := by
  cases v <;> simp [notNull]

/-- A list of members passes iff each does. -/
theorem everyMembers_iff {ok : JsString → Json N → Bool} {ms : List (JsString × Json N)} :
    everyMembers ok ms = true ↔
      ∀ m ∈ ms, ok m.1 m.2 = true ∧ everyMember ok m.2 = true := by
  induction ms with
  | nil => simp [everyMembers]
  | cons m ms ih =>
    obtain ⟨key, value⟩ := m
    rw [everyMembers, Bool.and_eq_true, Bool.and_eq_true, ih, List.forall_mem_cons]

/-- Of a patch only the members that are merged count. -/
theorem verbatimMembersOk_iff {ok : JsString → Json N → Bool}
    {target ms : List (JsString × Json N)} : verbatimMembersOk ok target ms = true ↔
      ∀ m ∈ ms, isForbiddenKey m.1 = false → verbatimOk ok (target.lookup m.1) m.2 = true := by
  induction ms with
  | nil => simp [verbatimMembersOk]
  | cons m ms ih =>
    obtain ⟨key, value⟩ := m
    rw [verbatimMembersOk, Bool.and_eq_true, ih, List.forall_mem_cons, Bool.or_eq_true]
    refine and_congr_left fun _ => ?_
    cases isForbiddenKey key <;> simp

/-- Nothing is there to be merged into: all of the patch is taken verbatim. -/
theorem verbatimOk_none (ok : JsString → Json N → Bool) (patch : Json N) :
    verbatimOk ok none patch = everyMember ok patch := by
  cases patch <;> simp [verbatimOk, everyMember, plainMembers]

/-! ## Against the reference -/

/-- A new key goes to the end. -/
theorem setEntry_fresh {key : JsString} {value : Json N} :
    ∀ l : List (JsString × Json N), key ∉ l.map Prod.fst →
      InsMap.setEntry key value l = l ++ [(key, value)] := by
  intro l
  induction l with
  | nil => intro _; rfl
  | cons m l ih =>
    obtain ⟨k, v⟩ := m
    intro h
    rw [List.map_cons, List.mem_cons, not_or] at h
    rw [InsMap.setEntry, if_neg (Ne.symm h.1), ih h.2]
    rfl

/-- Clean members that are new are appended one after the other. -/
theorem mergePatchMembers_append : ∀ (ms acc : List (JsString × Json N)),
    ((acc ++ ms).map Prod.fst).Nodup →
    (∀ m ∈ ms, cleanMember m.1 m.2 = true ∧ mergePatch none m.2 = m.2) →
    mergePatchMembers acc ms = acc ++ ms := by
  intro ms
  induction ms with
  | nil => intro acc _ _; rw [mergePatchMembers, List.append_nil]
  | cons m ms ih =>
    obtain ⟨key, value⟩ := m
    intro acc hnodup hclean
    rw [List.forall_mem_cons] at hclean
    obtain ⟨⟨hok, hsame⟩, hrest⟩ := hclean
    have hfresh : key ∉ acc.map Prod.fst := by
      rw [List.map_append, List.nodup_append] at hnodup
      intro hmem
      exact hnodup.2.2 key hmem key List.mem_cons_self rfl
    have hlookup : acc.lookup key = none := by
      rw [List.lookup_eq_none_iff]
      intro p hp
      have hne : key ≠ p.1 := fun heq => hfresh (List.mem_map.mpr ⟨p, hp, heq.symm⟩)
      simpa using hne
    simp only [cleanMember, allowedKey, Bool.and_eq_true, notNull_iff, Bool.not_eq_true'] at hok
    have hstep : patchMember key value acc = acc ++ [(key, value)] := by
      unfold patchMember
      rw [if_neg (by simp [hok.2])]
      cases value with
      | null => exact absurd rfl hok.1
      | _ =>
        dsimp only at hsame ⊢
        rw [hlookup, hsame, setEntry_fresh acc hfresh]
    have hcons : acc ++ (key, value) :: ms = acc ++ [(key, value)] ++ ms := by simp
    rw [hcons] at hnodup ⊢
    rw [mergePatchMembers_cons, hstep]
    exact ih _ hnodup hrest

/-- The two loops agree where every value does. -/
theorem mergeMembers_eq : ∀ (ms target combined : List (JsString × Json N)),
    (ms.map Prod.fst).Nodup →
    (∀ m ∈ ms, combined.lookup m.1 = target.lookup m.1) →
    (∀ m ∈ ms, isForbiddenKey m.1 = false → m.2 ≠ .null →
      merge (target.lookup m.1) m.2 = some (mergePatch (target.lookup m.1) m.2)) →
    mergeMembers target combined ms = mergePatchMembers combined ms := by
  intro ms
  induction ms with
  | nil => intro target combined _ _ _; rw [mergeMembers, mergePatchMembers]
  | cons m ms ih =>
    obtain ⟨key, value⟩ := m
    intro target combined hnodup hsame hvalues
    rw [List.map_cons, List.nodup_cons] at hnodup
    rw [List.forall_mem_cons] at hsame hvalues
    have hstep : mergeMember target key value combined = patchMember key value combined := by
      unfold mergeMember patchMember
      by_cases hkey : isForbiddenKey key = true
      · rw [if_pos hkey, if_pos hkey]
      · rw [if_neg hkey, if_neg hkey]
        by_cases hnull : value = .null
        · subst hnull
          rw [merge_null]
        · have hv := hvalues.1 (by simpa using hkey) hnull
          dsimp only at hv
          rw [hv, ← hsame.1]
          cases value with
          | null => exact absurd rfl hnull
          | _ => rfl
    rw [mergeMembers_cons, mergePatchMembers_cons, hstep]
    refine ih target _ hnodup.2 (fun m hm => ?_) hvalues.2
    have hne : m.1 ≠ key := fun heq => hnodup.1 (heq ▸ List.mem_map.mpr ⟨m, hm, rfl⟩)
    rw [lookup_patchMember_ne hne]
    exact hsame.2 m hm

/-- Keys of a well-formed object are distinct. -/
theorem keys_nodup {ms : List (JsString × Json N)} (h : Json.wf (.obj ms) = true) :
    (ms.map Prod.fst).Nodup := by
  simp only [Json.wf, Bool.and_eq_true, decide_eq_true_eq] at h
  exact h.1

/-- Its members are well formed. -/
theorem wf_member {ms : List (JsString × Doc)} (h : Json.wf (.obj ms) = true)
    {m : JsString × Doc} (hm : m ∈ ms) : m.2.wf = true := by
  simp only [Json.wf, Bool.and_eq_true, decide_eq_true_eq] at h
  exact wfMembers_mem h.2 hm

/-- **`merge` is JSON Merge Patch** exactly where nothing but clean members is taken verbatim. -/
theorem merge_eq_iff (patch : Doc) : patch.wf = true → patch ≠ .null → ∀ target,
    merge target patch = some (mergePatch target patch) ↔
      verbatimOk cleanMember target patch = true := by
  -- on the patch: the target decides whether its members are merged or taken verbatim
  induction patch using Json.ind with
  | obj ms ih =>
    intro hwf _ target
    have hnodup := keys_nodup hwf
    cases hplain : plainMembers target with
    | none =>
      rw [merge, mergePatch, verbatimOk]
      simp only [hplain, Option.getD_none, Option.some.injEq, Json.obj.injEq]
      rw [everyMembers_iff]
      constructor
      · intro heq m hm
        have hlook : (mergePatchMembers [] ms).lookup m.1 = some m.2 := by
          rw [← heq]
          exact lookup_of_mem hnodup hm
        -- the reference drops a forbidden key, so none can be there
        have hallowed : isForbiddenKey m.1 = false := by
          by_contra hne
          rw [lookup_mergePatchMembers_of_not_mem ms [] (Or.inr (by simpa using hne))] at hlook
          cases hlook
        obtain ⟨hgone, hset⟩ := lookup_mergePatchMembers ms [] hnodup hm hallowed
        -- nor a `null`, which it takes as a removal
        have hnull : m.2 ≠ .null := by
          intro hnull
          rw [hgone hnull] at hlook
          cases hlook
        have hsame : mergePatch none m.2 = m.2 := by
          rw [hset hnull] at hlook
          exact Option.some.inj hlook
        refine ⟨?_, ?_⟩
        · simp only [cleanMember, allowedKey, hallowed, notNull_iff.mpr hnull, Bool.not_false,
            Bool.and_self]
        · rw [← verbatimOk_none, ← ih m hm (wf_member hwf hm) hnull none, merge_none hnull, hsame]
      · intro hclean
        symm
        refine mergePatchMembers_append ms [] hnodup fun m hm => ⟨(hclean m hm).1, ?_⟩
        have hnull : m.2 ≠ .null := by
          have hok := (hclean m hm).1
          simp only [cleanMember, Bool.and_eq_true, notNull_iff] at hok
          exact hok.1
        have hv := (ih m hm (wf_member hwf hm) hnull none).mpr (by
          rw [verbatimOk_none]
          exact (hclean m hm).2)
        rw [merge_none hnull] at hv
        exact (Option.some.inj hv).symm
    | some ts =>
      -- an object meets an object: member by member on both sides
      rw [merge, mergePatch, verbatimOk]
      simp only [hplain, Option.getD_some, Option.some.injEq, Json.obj.injEq]
      rw [verbatimMembersOk_iff]
      constructor
      · intro heq m hm hallowed
        by_cases hnull : m.2 = .null
        · rw [hnull, verbatimOk]
          intro ms h
          cases h
        · rw [← ih m hm (wf_member hwf hm) hnull, ← lookup_mergeMembers ms ts hnodup hm hallowed, heq]
          exact (lookup_mergePatchMembers ms ts hnodup hm hallowed).2 hnull
      · intro hok
        refine mergeMembers_eq ms ts ts hnodup (fun _ _ => rfl) fun m hm hallowed hnull => ?_
        exact (ih m hm (wf_member hwf hm) hnull _).mpr (hok m hm hallowed)
  | null => exact fun _ h => absurd rfl h
  | _ => simp [merge, mergePatch, verbatimOk]

/-! ## Merging twice -/

/-- Setting what is there changes nothing. -/
theorem setEntry_self {key : JsString} {value : Json N} :
    ∀ l : List (JsString × Json N), l.lookup key = some value →
      InsMap.setEntry key value l = l := by
  intro l
  induction l with
  | nil => intro h; cases h
  | cons m l ih =>
    obtain ⟨k, v⟩ := m
    intro h
    rw [List.lookup_cons] at h
    rw [InsMap.setEntry]
    by_cases hk : k = key
    · rw [if_pos hk]
      subst hk
      rw [beq_self_eq_true] at h
      cases h
      rfl
    · rw [beq_eq_false_iff_ne.mpr (Ne.symm hk)] at h
      rw [if_neg hk, ih h]

/-- Nor does dropping what is not. -/
theorem filter_absent {key : JsString} (l : List (JsString × Json N)) (h : l.lookup key = none) :
    l.filter (fun m => m.1 ≠ key) = l := by
  rw [List.filter_eq_self]
  intro m hm
  rw [List.lookup_eq_none_iff] at h
  simpa using fun heq : m.1 = key => by simpa [heq] using h m hm

/-- A loop none of whose steps changes anything. -/
theorem mergeMembers_fixed {result : List (JsString × Json N)} :
    ∀ ms : List (JsString × Json N),
      (∀ m ∈ ms, isForbiddenKey m.1 = false →
        merge (result.lookup m.1) m.2 = result.lookup m.1) →
      mergeMembers result result ms = result := by
  intro ms
  induction ms with
  | nil => intro _; rw [mergeMembers]
  | cons m ms ih =>
    obtain ⟨key, value⟩ := m
    intro h
    rw [List.forall_mem_cons] at h
    have hstep : mergeMember result key value result = result := by
      unfold mergeMember
      by_cases hkey : isForbiddenKey key = true
      · rw [if_pos hkey]
      · have hv := h.1 (by simpa using hkey)
        dsimp only at hv
        rw [if_neg hkey]
        cases hm : merge (result.lookup key) value with
        | none => exact filter_absent result (by rw [← hv, hm])
        | some merged => exact setEntry_self result (by rw [← hv, hm])
    rw [mergeMembers_cons, hstep]
    exact ih h.2

/-- **A second merge of the same patch changes nothing**, where no `null` is taken verbatim. -/
theorem merge_merge (patch : Doc) : patch.wf = true → ∀ target,
    verbatimOk notNull target patch = true → merge (merge target patch) patch = merge target patch := by
  induction patch using Json.ind with
  | obj ms ih =>
    intro hwf target hok
    have hnodup := keys_nodup hwf
    rw [verbatimOk] at hok
    cases hplain : plainMembers target with
    | none =>
      rw [hplain] at hok
      dsimp only at hok
      rw [everyMembers_iff] at hok
      have hfirst : merge target (.obj ms) = some (.obj ms) := by
        rw [merge, hplain]
      rw [hfirst, merge]
      simp only [plainMembers, Option.some.injEq, Json.obj.injEq]
      refine mergeMembers_fixed ms fun m hm _ => ?_
      have hnull := notNull_iff.mp (hok m hm).1
      have htwice := ih m hm (wf_member hwf hm) none (by
        rw [verbatimOk_none]
        exact (hok m hm).2)
      rw [merge_none hnull] at htwice
      rw [lookup_of_mem hnodup hm, htwice]
    | some ts =>
      rw [hplain] at hok
      dsimp only at hok
      rw [verbatimMembersOk_iff] at hok
      have hfirst : merge target (.obj ms) = some (.obj (mergeMembers ts ts ms)) := by
        rw [merge, hplain]
      rw [hfirst, merge]
      simp only [plainMembers, Option.some.injEq, Json.obj.injEq]
      refine mergeMembers_fixed ms fun m hm hallowed => ?_
      rw [lookup_mergeMembers ms ts hnodup hm hallowed]
      exact ih m hm (wf_member hwf hm) _ (hok m hm hallowed)
  | _ => simp [merge]

/-! ## What a patch brings in -/

/-- Where the patch names `key`, the result holds the merged member; elsewhere the target's. -/
theorem lookup_patched {ts ms : List (JsString × Doc)} (hnodup : (ms.map Prod.fst).Nodup)
    (key : JsString) :
    (mergeMembers ts ts ms).lookup key = ts.lookup key ∨
      isForbiddenKey key = false ∧ ∃ v, (key, v) ∈ ms ∧
        (mergeMembers ts ts ms).lookup key = merge (ts.lookup key) v := by
  by_cases hkey : isForbiddenKey key = true
  · exact Or.inl (lookup_mergeMembers_of_not_mem ms ts (Or.inr hkey))
  · by_cases hmem : key ∈ ms.map Prod.fst
    · obtain ⟨m, hm, rfl⟩ := List.mem_map.mp hmem
      have hallowed : isForbiddenKey m.1 = false := by simpa using hkey
      exact Or.inr ⟨hallowed, m.2, hm, lookup_mergeMembers ms ts hnodup hm hallowed⟩
    · exact Or.inl (lookup_mergeMembers_of_not_mem ms ts (Or.inl hmem))

section BringsIn

variable {ok : JsString → Doc → Bool} {Sought : List JsString → Doc → Prop}

/-- **What a patch brings in.**  Where the part taken verbatim holds nothing of what is `Sought`,
    whatever of it is in the result was in the target. -/
theorem sought_merge (hroot : ∀ v, Sought [] v → v = .null)
    (hmerged : ∀ key path v, isForbiddenKey key = false → Sought (key :: path) v → Sought path v)
    (hverbatim : ∀ key path u v, ok key u = true → Sought (key :: path) v →
      Sought path v ∧ (u = .null → path ≠ []))
    (patch : Doc) : patch.wf = true → ∀ target, verbatimOk ok target patch = true →
      ∀ path v, Sought path v → ownAt path (merge target patch) = some v →
        ownAt path target = some v := by
  -- a patch that is no object has nothing below its root
  have hleaf : ∀ (p : Doc), plainMembers (some p) = none → p ≠ .null → ∀ path v, Sought path v →
      ownAt path (some p) ≠ some v := by
    intro p hp hnull path v hs hlook
    cases path with
    | nil =>
      cases hlook
      exact hnull (hroot _ hs)
    | cons key path =>
      cases p with
      | obj ms => cases hp
      | _ => cases hlook
  induction patch using Json.ind with
  | obj ms ih =>
    intro hwf target hok path v hs hlook
    have hnodup := keys_nodup hwf
    rw [merge] at hlook
    rw [verbatimOk] at hok
    cases hplain : plainMembers target with
    | none =>
      rw [hplain] at hlook hok
      dsimp only at hlook hok
      cases path with
      | nil =>
        cases hlook
        cases hroot _ hs
      | cons key path =>
        rw [ownAt] at hlook
        cases hmem : ms.lookup key with
        | none =>
          rw [hmem, ownAt_none] at hlook
          cases hlook
        | some u =>
          -- the member is taken as it is, so it brings in what merging it into nothing does
          have hm := mem_of_lookup hmem
          obtain ⟨hkey, hrest⟩ := everyMembers_iff.mp hok _ hm
          obtain ⟨hs', hpath⟩ := hverbatim key path u v hkey hs
          rw [hmem] at hlook
          by_cases hnull : u = .null
          · subst hnull
            cases path with
            | nil => exact absurd rfl (hpath rfl)
            | cons key' path => cases hlook
          · have hnone := ih _ hm (wf_member hwf hm) none (by
              rw [verbatimOk_none]
              exact hrest) path v hs'
            rw [merge_none hnull, ownAt_none] at hnone
            cases hnone hlook
    | some ts =>
      rw [hplain] at hlook hok
      dsimp only at hlook hok
      rw [plainMembers_eq_some.mp hplain]
      cases path with
      | nil =>
        cases hlook
        cases hroot _ hs
      | cons key path =>
        rw [ownAt] at hlook ⊢
        rcases @lookup_patched ts ms hnodup key with hkept | ⟨hallowed, u, hm, hmerge⟩
        · rw [← hkept]
          exact hlook
        · rw [hmerge] at hlook
          have hu := verbatimMembersOk_iff.mp hok _ hm hallowed
          exact ih _ hm (wf_member hwf hm) _ hu path v (hmerged key path v hallowed hs) hlook
  | null =>
    intro _ target _ path v _ hlook
    rw [merge_null, ownAt_none] at hlook
    cases hlook
  | _ =>
    intro _ target _ path v hs hlook
    simp only [merge] at hlook
    exact absurd hlook (hleaf _ (by rfl) (by intro h; cases h) path v hs)

end BringsIn

/-- No `null` member is brought in where none is taken verbatim. -/
theorem null_of_merge {patch : Doc} (hwf : patch.wf = true) {target : Option Doc}
    (hok : verbatimOk notNull target patch = true) {path : List JsString}
    (h : ownAt path (merge target patch) = some .null) :
    ownAt path target = some .null := by
  refine @sought_merge notNull (fun _ v => v = .null) (fun _ h => h) (fun _ _ _ _ h => h) ?_
    patch hwf target hok path .null rfl h
  intro key path u v hu hv
  exact ⟨hv, fun hnull => absurd hnull (notNull_iff.mp hu)⟩

/-- No member under a forbidden key is brought in where none is taken verbatim. -/
theorem forbidden_of_merge {patch : Doc} (hwf : patch.wf = true) {target : Option Doc}
    (hok : verbatimOk allowedKey target patch = true) {path : List JsString}
    (hpath : ∃ key ∈ path, isForbiddenKey key = true) {v : Doc}
    (h : ownAt path (merge target patch) = some v) :
    ownAt path target = some v := by
  have hdrop : ∀ key (path : List JsString), isForbiddenKey key = false →
      (∃ k ∈ key :: path, isForbiddenKey k = true) → ∃ k ∈ path, isForbiddenKey k = true := by
    rintro key path hkey ⟨k, hk, hbad⟩
    rcases List.mem_cons.mp hk with rfl | hk
    · rw [hkey] at hbad
      cases hbad
    · exact ⟨k, hk, hbad⟩
  refine @sought_merge allowedKey (fun path _ => ∃ key ∈ path, isForbiddenKey key = true) ?_
    (fun key path _ => hdrop key path) ?_ patch hwf target hok path v hpath h
  · rintro v ⟨key, hkey, _⟩
    cases hkey
  · intro key path u v hu hs
    have hrest := hdrop key path (by simpa [allowedKey] using hu) hs
    refine ⟨hrest, fun _ hnil => ?_⟩
    rw [hnil] at hrest
    obtain ⟨k, hk, _⟩ := hrest
    cases hk

/-! ## Both conditions at once -/

/-- Clean is both: no `null` and no forbidden key. -/
theorem everyMember_clean (v : Json N) : everyMember cleanMember v = true ↔
    everyMember notNull v = true ∧ everyMember allowedKey v = true := by
  induction v using Json.ind with
  | obj ms ih =>
    simp only [everyMember, everyMembers_iff, ← forall_and]
    refine forall_congr' fun m => forall_congr' fun hm => ?_
    rw [ih m hm, cleanMember, Bool.and_eq_true]
    exact and_and_and_comm
  | _ => simp [everyMember]

/-- So is a clean verbatim part. -/
theorem verbatimOk_clean (patch : Json N) : ∀ target, verbatimOk cleanMember target patch = true ↔
    verbatimOk notNull target patch = true ∧ verbatimOk allowedKey target patch = true := by
  induction patch using Json.ind with
  | obj ms ih =>
    intro target
    cases hplain : plainMembers target with
    | none =>
      have hall := everyMember_clean (.obj ms)
      simpa only [verbatimOk, hplain, everyMember] using hall
    | some ts =>
      simp only [verbatimOk, hplain, verbatimMembersOk_iff, ← forall_and]
      refine forall_congr' fun m => forall_congr' fun hm => forall_congr' fun _ => ?_
      exact ih m hm _
  | _ => simp [verbatimOk]

/-! ## The law -/

/-- **`merge` is JSON Merge Patch, but for what it takes verbatim.**  A `null` patch gives
    `undefined`.  Where no forbidden key is taken verbatim, the result is the reference's exactly
    when no `null` is; then a second merge of the patch changes nothing and no `null` is brought
    in; and no forbidden key is brought in unless it is taken verbatim. -/
theorem merge_is_merge_patch (target : Option Doc) (patch : Doc) (hwf : patch.wf = true) :
    merge target .null = none ∧
    (patch ≠ .null → verbatimOk allowedKey target patch = true →
      (merge target patch = some (mergePatch target patch) ↔
        verbatimOk notNull target patch = true)) ∧
    (verbatimOk notNull target patch = true →
      merge (merge target patch) patch = merge target patch ∧
      ∀ path, ownAt path (merge target patch) = some .null →
        ownAt path target = some .null) ∧
    (verbatimOk allowedKey target patch = true →
      ∀ path, (∃ key ∈ path, isForbiddenKey key = true) →
      ∀ v, ownAt path (merge target patch) = some v →
        ownAt path target = some v) := by
  refine ⟨merge_null target, ?_, ?_, ?_⟩
  · intro hnull hallowed
    rw [merge_eq_iff patch hwf hnull, verbatimOk_clean]
    exact and_iff_left hallowed
  · intro hok
    exact ⟨merge_merge patch hwf target hok, fun path h => null_of_merge hwf hok h⟩
  · intro hok path hpath v h
    exact forbidden_of_merge hwf hok hpath h

/-- The patch of `{a: {b: null}}` against a document with an object under `a`. -/
theorem merge_is_merge_patch_at_object :
    (Json.wf (.obj [(js "a", .obj [(js "b", .null)])] : Doc) = true) ∧
    merge (some (.obj [(js "a", .obj [(js "b", .bool true)])]))
        (.obj [(js "a", .obj [(js "b", .null)])] : Doc) =
      some (mergePatch (some (.obj [(js "a", .obj [(js "b", .bool true)])]))
        (.obj [(js "a", .obj [(js "b", .null)])])) := by
  refine ⟨by decide +kernel, ?_⟩
  exact ((merge_is_merge_patch _ _ (by decide +kernel)).2.1 (by simp) (by decide +kernel)).mpr
    (by decide +kernel)

/-- The same patch against the empty document: the object under `a` is taken verbatim, `null` and
    all, where the reference drops the `null`; merging once more does drop it. -/
theorem merge_keeps_verbatim_null :
    (merge (some (.obj [])) (.obj [(js "a", .obj [(js "b", .null)])] : Doc) ≠
      some (mergePatch (some (.obj [])) (.obj [(js "a", .obj [(js "b", .null)])]))) ∧
    ownAt [js "a", js "b"]
        (merge (some (.obj [])) (.obj [(js "a", .obj [(js "b", .null)])] : Doc)) = some .null ∧
    (merge (merge (some (.obj [])) (.obj [(js "a", .obj [(js "b", .null)])] : Doc))
        (.obj [(js "a", .obj [(js "b", .null)])]) ≠
      merge (some (.obj [])) (.obj [(js "a", .obj [(js "b", .null)])])) := by
  have honce : merge (some (.obj [])) (.obj [(js "a", .obj [(js "b", .null)])] : Doc) =
      some (.obj [(js "a", .obj [(js "b", .null)])]) := by decide +kernel
  have htwice : merge (some (.obj [(js "a", .obj [(js "b", .null)])]))
      (.obj [(js "a", .obj [(js "b", .null)])] : Doc) = some (.obj [(js "a", .obj [])]) := by
    decide +kernel
  rw [honce, htwice]
  refine ⟨?_, rfl, by simp⟩
  have href : mergePatch (some (.obj [])) (.obj [(js "a", .obj [(js "b", .null)])] : Doc) =
      .obj [(js "a", .obj [])] := by decide +kernel
  rw [href]
  simp

end Baerly
