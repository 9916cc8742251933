import Baerly.SnapshotCodec
import Baerly.Verify.Dump
import Baerly.Verify.Predicate

/-
  The canonical form of a document.

  SPEC (`canonicalize_ok_iff`): `canonicalizeDocumentValue` accepts exactly the values without
  `null`, and returns them with the members of every object in canonical order (`canonicalForm`).
  That form depends on the value as JSON only (`canonicalForm_eq_of_same`), is its own canonical
  form, and is what `JSON.parse` builds from its text (`built_canonicalForm`).

  CRUX: an object lists its array-index keys first, in numeric order, and the canonical order sorts
  the same way (`ownOrder_sorted`).  With any other order the engine would rearrange what the
  encoder had sorted.

  Ids are compared by code point, which is a linear order on all strings (`compareDocIds_lt_iff`).
-/

namespace Baerly

open Json

/-! ## Ids in order -/

/-- **The code points of an id determine it**, lone surrogates included. -/
theorem units_idPoints (id : JsString) : (idPoints id).flatMap Utf8.units = id := by
  have hunit : ∀ u : Fin 65536, Utf8.units u.val = [u] := fun u => by
    have hu : u.val < 0x10000 := u.isLt
    have hval : Fin.ofNat 65536 u.val = u := Fin.ext (Nat.mod_eq_of_lt u.isLt)
    simp only [Utf8.units, hu, if_true, hval]
  fun_induction idPoints id with
  | case1 => rfl
  | case2 u => rw [List.flatMap_singleton, hunit u]
  | case3 u v us hpair ih =>
    rw [List.flatMap_cons, Utf8.units_pair hpair, ih]
    rfl
  | case4 u v us hpair ih =>
    rw [List.flatMap_cons, hunit u, ih]
    rfl

/-- Different ids have different code points. -/
theorem idPoints_injective : Function.Injective idPoints := by
  intro a b h
  rw [← units_idPoints a, ← units_idPoints b, h]

/-- The loop over code points is the lexicographic order. -/
theorem comparePoints_iff (as bs : List Nat) :
    (comparePoints as bs = .lt ↔ as < bs) ∧ (comparePoints as bs = .gt ↔ bs < as) := by
  induction as generalizing bs with
  | nil =>
    cases bs with
    | nil => simp [comparePoints]
    | cons b bs => simp [comparePoints]
  | cons a as ih =>
    cases bs with
    | nil => simp [comparePoints]
    | cons b bs =>
      rw [comparePoints, List.cons_lt_cons_iff, List.cons_lt_cons_iff]
      rcases Nat.lt_trichotomy a b with h | h | h
      · have hne : a ≠ b := by omega
        have hge : ¬ b < a := by omega
        simp [h, hne, hge, hne.symm]
      · subst h
        simp [ih bs]
      · have hne : a ≠ b := by omega
        have hge : ¬ a < b := by omega
        simp [h, hne, hge, hne.symm]

/-- The order of ids. -/
def idLt (a b : JsString) : Prop := idPoints a < idPoints b

/-- `compareDocIds` says less exactly in the order of ids. -/
theorem compareDocIds_lt_iff {a b : JsString} : compareDocIds a b = .lt ↔ idLt a b :=
  (comparePoints_iff _ _).1

/-- And greater in the converse order. -/
theorem compareDocIds_gt_iff {a b : JsString} : compareDocIds a b = .gt ↔ idLt b a :=
  (comparePoints_iff _ _).2

/-! ## The canonical order of keys -/

/-- A key that is an array index is the decimal of that index. -/
theorem arrayIndex_eq {key : JsString} {i : Nat} (h : arrayIndex key = some i) : key = decimal i := by
  unfold arrayIndex at h
  split at h
  next hkey =>
    cases h
    exact hkey.1
  next => cases h

/-- The order of canonical keys is a total order. -/
theorem canonicalOrder : KeyOrder fun a b => canonicalLe a b = true where
  total a b := by
    unfold canonicalLe
    cases arrayIndex a <;> cases arrayIndex b <;> simp [le_total]
  trans a b c := by
    unfold canonicalLe
    cases arrayIndex a <;> cases arrayIndex b <;> cases arrayIndex c <;> simp
    · exact le_trans
    · exact Nat.le_trans
  antisymm a b := by
    unfold canonicalLe
    cases ha : arrayIndex a <;> cases hb : arrayIndex b <;> simp
    · exact le_antisymm
    · intro hle hge
      rw [arrayIndex_eq ha, arrayIndex_eq hb, Nat.le_antisymm hle hge]

/-! ## Objects that stay as they are -/

/-- A key that is not there yet goes to the end. -/
theorem setEntry_new {α : Type} {key : JsString} {x : α} {ms : List (JsString × α)}
    (h : key ∉ ms.map Prod.fst) : InsMap.setEntry key x ms = ms ++ [(key, x)] := by
  induction ms with
  | nil => rfl
  | cons m ms ih =>
    rw [List.map_cons, List.mem_cons, not_or] at h
    rw [InsMap.setEntry, if_neg (Ne.symm h.1), ih h.2, List.cons_append]

/-- Defining distinct properties one after the other lists them in that order. -/
theorem entries_ofList_eq {α : Type} {ms : List (JsString × α)} (hms : (ms.map Prod.fst).Nodup) :
    (InsMap.ofList ms).entries = ms := by
  have hfold : ∀ (ms : List (JsString × α)) (m : InsMap JsString α),
      ((m.entries ++ ms).map Prod.fst).Nodup →
        (ms.foldl (fun m e => m.set e.1 e.2) m).entries = m.entries ++ ms := by
    intro ms
    induction ms with
    | nil => simp
    | cons e ms ih =>
      intro m hnodup
      have hnew : e.1 ∉ m.entries.map Prod.fst := by
        rw [List.map_append, List.map_cons, List.nodup_append] at hnodup
        intro hmem
        exact hnodup.2.2 e.1 hmem e.1 List.mem_cons_self rfl
      have hset : (m.set e.1 e.2).entries = m.entries ++ [e] := setEntry_new hnew
      rw [List.foldl_cons, ih (m.set e.1 e.2), hset, List.append_assoc]
      · rfl
      · rw [hset, List.append_assoc]
        exact hnodup
  exact hfold ms InsMap.empty hms

/-- A canonical list has its array-index keys first. -/
theorem filters_sorted {α : Type} {ms : List (JsString × α)}
    (h : ms.Pairwise fun a b => canonicalLe a.1 b.1 = true) :
    (ms.filter fun m => (arrayIndex m.1).isSome) ++ (ms.filter fun m => !(arrayIndex m.1).isSome) =
      ms := by
  induction ms with
  | nil => rfl
  | cons m ms ih =>
    rw [List.pairwise_cons] at h
    cases hm : arrayIndex m.1 with
    | some i =>
      rw [List.filter_cons_of_pos (by simp [hm]), List.filter_cons_of_neg (by simp [hm]),
        List.cons_append, ih h.2]
    | none =>
      -- no array index follows a key that is none
      have hnone : ∀ n ∈ m :: ms, arrayIndex n.1 = none := by
        intro n hn
        rcases List.mem_cons.mp hn with rfl | hn
        · exact hm
        · have hle := h.1 n hn
          cases hn' : arrayIndex n.1 with
          | none => rfl
          | some j => simp [canonicalLe, hm, hn'] at hle
      have hempty : ((m :: ms).filter fun m => (arrayIndex m.1).isSome) = [] := by
        rw [List.filter_eq_nil_iff]
        intro n hn
        simp [hnone n hn]
      have hall : ((m :: ms).filter fun m => !(arrayIndex m.1).isSome) = m :: ms := by
        rw [List.filter_eq_self]
        intro n hn
        simp [hnone n hn]
      rw [hempty, hall, List.nil_append]

/-- **The engine's order of keys leaves a canonical list alone.** -/
theorem ownOrder_sorted {α : Type} {ms : List (JsString × α)}
    (h : ms.Pairwise fun a b => canonicalLe a.1 b.1 = true) : ownOrder ms = ms := by
  have hindex : ((ms.filter fun m => (arrayIndex m.1).isSome).insertionSort
      fun a b => (arrayIndex a.1).getD 0 ≤ (arrayIndex b.1).getD 0) =
        ms.filter fun m => (arrayIndex m.1).isSome := by
    refine List.Pairwise.insertionSort_eq (List.pairwise_filter.mpr (h.imp ?_))
    intro a b hab ha hb
    obtain ⟨i, hi⟩ := Option.isSome_iff_exists.mp ha
    obtain ⟨j, hj⟩ := Option.isSome_iff_exists.mp hb
    simp only [canonicalLe, hi, hj, decide_eq_true_eq] at hab
    simpa [hi, hj] using hab
  rw [ownOrder, hindex, filters_sorted h]

/-- Members in canonical order with distinct keys are an object as they stand. -/
theorem objectOf_sorted {ms : List (JsString × Doc)} (hms : (ms.map Prod.fst).Nodup)
    (h : ms.Pairwise fun a b => canonicalLe a.1 b.1 = true) : objectOf ms = ms := by
  rw [objectOf, entries_ofList_eq hms, ownOrder_sorted h]

/-- An object without array-index keys lists them as they were defined. -/
theorem objectOf_named {ms : List (JsString × Doc)} (hms : (ms.map Prod.fst).Nodup)
    (h : ∀ m ∈ ms, arrayIndex m.1 = none) : objectOf ms = ms := by
  have hempty : (ms.filter fun m => (arrayIndex m.1).isSome) = [] := by
    rw [List.filter_eq_nil_iff]
    intro m hm
    simp [h m hm]
  have hall : (ms.filter fun m => !(arrayIndex m.1).isSome) = ms := by
    rw [List.filter_eq_self]
    intro m hm
    simp [h m hm]
  rw [objectOf, entries_ofList_eq hms, ownOrder, hempty, hall]
  rfl

/-! ## The canonical form -/

/-- Every object with its members in canonical order. -/
def canonicalForm (v : Doc) : Doc := rearrange (sortMembers fun a b => canonicalLe a b) v

/-- The canonical form goes into arrays. -/
theorem canonicalForm_arr (xs : List Doc) :
    canonicalForm (.arr xs) = .arr (xs.map canonicalForm) := by
  rw [canonicalForm, rearrange, rearrangeItems_eq]
  rfl

/-- And into objects, whose members it sorts. -/
theorem canonicalForm_obj (ms : List (JsString × Doc)) : canonicalForm (.obj ms) =
    .obj (sortMembers (fun a b => canonicalLe a b) (mapValues canonicalForm ms)) := by
  rw [canonicalForm, rearrange, rearrangeMembers_eq]
  rfl

theorem canonicalForm_wf {v : Doc} (hv : v.wf = true) : (canonicalForm v).wf = true :=
  rearrange_wf sortMembers_keeping v hv

/-- **Canonicalisation is idempotent.** -/
theorem canonicalForm_idem {v : Doc} (hv : v.wf = true) :
    canonicalForm (canonicalForm v) = canonicalForm v :=
  rearrange_rearrange (sortMembers_forgets canonicalOrder) sortMembers_keeping v hv

/-- **Values equal as JSON have one canonical form.** -/
theorem canonicalForm_eq_of_same {v w : Doc} (hv : v.wf = true) (hw : w.wf = true)
    (h : jsonValueEqual v w = true) : canonicalForm v = canonicalForm w := by
  have hforget : ∀ x : Doc, x.wf = true → canonicalForm (sortKeys x) = canonicalForm x := fun x hx =>
    rearrange_rearrange (sortMembers_forgets canonicalOrder) sortMembers_keeping x hx
  rw [← hforget v hv, ← hforget w hw, (jsonValueEqual_iff v w hv hw).mp h]

/-- **What `JSON.parse` builds from a canonical tree is that tree.** -/
theorem built_canonicalForm (v : Doc) (hv : v.wf = true) :
    rearrange objectOf (canonicalForm v) = canonicalForm v := by
  induction v using Json.ind with
  | null => rfl
  | bool b => rfl
  | num n => rfl
  | str s => rfl
  | arr xs ih =>
    rw [wf_arr] at hv
    rw [canonicalForm_arr, rearrange, rearrangeItems_eq, List.map_map]
    congr 1
    exact List.map_congr_left fun x hx => ih x hx (hv x hx)
  | obj ms ih =>
    have hobj := wf_obj.mp hv
    have hnodup : ((mapValues canonicalForm ms).map Prod.fst).Nodup := by
      rw [keys_mapValues]
      exact hobj.1
    have hperm : (sortMembers (fun a b => canonicalLe a b) (mapValues canonicalForm ms)).Perm
      (mapValues canonicalForm ms) := sortMembers_keeps _
    have hsame : mapValues (rearrange objectOf)
        (sortMembers (fun a b => canonicalLe a b) (mapValues canonicalForm ms)) =
          sortMembers (fun a b => canonicalLe a b) (mapValues canonicalForm ms) := by
      have hid : ∀ m ∈ sortMembers (fun a b => canonicalLe a b) (mapValues canonicalForm ms),
          (m.1, rearrange objectOf m.2) = id m := by
        intro m hm
        obtain ⟨n, hn, rfl⟩ := List.mem_map.mp (hperm.mem_iff.mp hm)
        exact congrArg (Prod.mk n.1) (ih n hn (hobj.2 n hn))
      rw [mapValues, List.map_congr_left hid, List.map_id]
    rw [canonicalForm_obj, rearrange, rearrangeMembers_eq, hsame,
      objectOf_sorted ((hperm.map Prod.fst).nodup_iff.mpr hnodup) (sortMembers_sorted canonicalOrder _)]

/-! ## What the validator accepts -/

/-- A collection of results is one if they all are. -/
theorem collect_ok_iff {α : Type} {results : List (Except Err α)} {xs : List α} :
    collect results = .ok xs ↔ results = xs.map .ok := by
  constructor
  · intro h
    induction results generalizing xs with
    | nil =>
      cases h
      rfl
    | cons result results ih =>
      rw [collect] at h
      obtain ⟨y, hy, h⟩ := except_bind_ok h
      obtain ⟨ys, hys, h⟩ := except_bind_ok h
      cases h
      rw [hy, ih hys, List.map_cons]
  · rintro rfl
    induction xs with
    | nil => rfl
    | cons x xs ih =>
      rw [List.map_cons, collect, ih]
      rfl

/-- Every item at its place in an array. -/
theorem canonicalizeItems_eq (code : CodecCode) (place : String) (index : Nat) (xs : List Doc) :
    canonicalizeItems code place index xs = xs.mapIdx fun i x =>
      canonicalizeDocumentValue code s!"{place}[{index + i}]" x := by
  induction xs generalizing index with
  | nil => rfl
  | cons x xs ih =>
    have hshift : ∀ i, index + 1 + i = index + (i + 1) := fun i => by omega
    rw [canonicalizeItems, ih, List.mapIdx_cons]
    simp only [hshift, Nat.add_zero]

theorem canonicalizeMembers_eq (code : CodecCode) (place : String) (ms : List (JsString × Doc)) :
    canonicalizeMembers code place ms = ms.map fun m =>
      (m.1, canonicalizeDocumentValue code (place ++ "." ++ showKey m.1) m.2) := by
  induction ms with
  | nil => rfl
  | cons m ms ih => rw [canonicalizeMembers, ih, List.map_cons]

/-- An array has no `null` inside iff none of its items has. -/
theorem noNull_arr {xs : List Doc} : (Json.arr xs).noNull = true ↔ ∀ x ∈ xs, x.noNull = true := by
  rw [noNull]
  induction xs with
  | nil => simp [noNullList]
  | cons x xs ih => rw [noNullList, Bool.and_eq_true, ih, List.forall_mem_cons]

/-- The same of an object and its members. -/
theorem noNull_obj {ms : List (JsString × Doc)} :
    (Json.obj ms).noNull = true ↔ ∀ m ∈ ms, m.2.noNull = true := by
  rw [noNull]
  induction ms with
  | nil => simp [noNullMembers]
  | cons m ms ih => rw [noNullMembers, Bool.and_eq_true, ih, List.forall_mem_cons]

/-- A value without `null` canonicalises to its canonical form. -/
theorem canonicalize_of_noNull (code : CodecCode) (v : Doc) (hv : v.wf = true)
    (hnull : v.noNull = true) (place : String) :
    canonicalizeDocumentValue code place v = .ok (canonicalForm v) := by
  induction v using Json.ind generalizing place with
  | null => cases hnull
  | bool b => rfl
  | num n => rfl
  | str s => rfl
  | arr xs ih =>
    rw [wf_arr] at hv
    rw [noNull_arr] at hnull
    have hitems : collect (canonicalizeItems code place 0 xs) = .ok (xs.map canonicalForm) := by
      rw [collect_ok_iff, canonicalizeItems_eq, List.map_map]
      refine List.ext_getElem (by simp) fun i hi hi' => ?_
      have hmem := List.getElem_mem (List.length_mapIdx ▸ hi)
      simpa using ih _ hmem (hv _ hmem) (hnull _ hmem) _
    rw [canonicalizeDocumentValue, hitems, canonicalForm_arr]
    rfl
  | obj ms ih =>
    have hobj := wf_obj.mp hv
    rw [noNull_obj] at hnull
    have hmembers : canonicalizeMembers code place ms =
        (mapValues canonicalForm ms).map fun m => (m.1, .ok m.2) := by
      rw [canonicalizeMembers_eq, mapValues, List.map_map]
      exact List.map_congr_left fun m hm =>
        congrArg (Prod.mk m.1) (ih m hm (hobj.2 m hm) (hnull m hm) _)
    have hnodup : ((mapValues canonicalForm ms).map Prod.fst).Nodup := by
      rw [keys_mapValues]
      exact hobj.1
    have hperm : (sortMembers (fun a b => canonicalLe a b) (mapValues canonicalForm ms)).Perm
      (mapValues canonicalForm ms) := sortMembers_keeps _
    have hcollect : collect ((sortMembers (fun a b => canonicalLe a b)
        (canonicalizeMembers code place ms)).map fun m => m.2.map (Prod.mk m.1)) =
          .ok (sortMembers (fun a b => canonicalLe a b) (mapValues canonicalForm ms)) := by
      rw [collect_ok_iff, hmembers, ← sortMembers_map, List.map_map]
      rfl
    rw [canonicalizeDocumentValue, hcollect, canonicalForm_obj]
    show Except.ok (Json.obj (objectOf _)) = _
    rw [objectOf_sorted ((hperm.map Prod.fst).nodup_iff.mpr hnodup)
      (sortMembers_sorted canonicalOrder _)]

/-- And only such a value canonicalises. -/
theorem noNull_of_canonicalize (code : CodecCode) (v : Doc) {place : String} {u : Doc}
    (h : canonicalizeDocumentValue code place v = .ok u) : v.noNull = true := by
  induction v using Json.ind generalizing place u with
  | null => cases h
  | bool b => rfl
  | num n => rfl
  | str s => rfl
  | arr xs ih =>
    rw [canonicalizeDocumentValue] at h
    obtain ⟨items, hitems, -⟩ := except_bind_ok h
    rw [collect_ok_iff, canonicalizeItems_eq] at hitems
    rw [noNull_arr]
    intro x hx
    obtain ⟨i, hi, rfl⟩ := List.getElem_of_mem hx
    have hlen := congrArg List.length hitems
    simp only [List.length_mapIdx, List.length_map] at hlen
    have hget := List.getElem_of_eq hitems (by simpa using hi)
    simp only [List.getElem_mapIdx, List.getElem_map] at hget
    exact ih _ hx hget
  | obj ms ih =>
    rw [canonicalizeDocumentValue] at h
    obtain ⟨output, houtput, -⟩ := except_bind_ok h
    rw [collect_ok_iff] at houtput
    rw [noNull_obj]
    intro m hm
    have hmem : (m.1, canonicalizeDocumentValue code (place ++ "." ++ showKey m.1) m.2) ∈
        sortMembers (fun a b => canonicalLe a b) (canonicalizeMembers code place ms) := by
      refine (sortMembers_keeps _).mem_iff.mpr ?_
      rw [canonicalizeMembers_eq]
      exact List.mem_map.mpr ⟨m, hm, rfl⟩
    have hok := List.mem_map_of_mem (f := fun m => Except.map (Prod.mk m.1) m.2) hmem
    rw [houtput] at hok
    obtain ⟨p, -, hp⟩ := List.mem_map.mp hok
    cases hvalue : canonicalizeDocumentValue code (place ++ "." ++ showKey m.1) m.2 with
    | error e =>
      rw [hvalue] at hp
      cases hp
    | ok x => exact ih m hm hvalue

/-- **The validator accepts the values without `null`, and returns their canonical form.** -/
theorem canonicalize_ok_iff {code : CodecCode} {v u : Doc} (hv : v.wf = true) {place : String} :
    canonicalizeDocumentValue code place v = .ok u ↔ v.noNull = true ∧ u = canonicalForm v := by
  constructor
  · intro h
    have hnull := noNull_of_canonicalize code v h
    rw [canonicalize_of_noNull code v hv hnull] at h
    exact ⟨hnull, (Except.ok.inj h).symm⟩
  · rintro ⟨hnull, rfl⟩
    exact canonicalize_of_noNull code v hv hnull place

/-- Sorting members brings in no `null` and takes none away. -/
theorem noNull_canonicalForm (v : Doc) : (canonicalForm v).noNull = v.noNull := by
  rw [Bool.eq_iff_iff]
  induction v using Json.ind with
  | null => rfl
  | bool b => rfl
  | num n => rfl
  | str s => rfl
  | arr xs ih =>
    rw [canonicalForm_arr, noNull_arr, noNull_arr, List.forall_mem_map]
    exact forall₂_congr ih
  | obj ms ih =>
    rw [canonicalForm_obj, noNull_obj, noNull_obj]
    constructor
    · intro h m hm
      have hmem : (m.1, canonicalForm m.2) ∈ mapValues canonicalForm ms :=
        List.mem_map.mpr ⟨m, hm, rfl⟩
      exact (ih m hm).mp (h _ ((sortMembers_keeps _).mem_iff.mpr hmem))
    · intro h m hm
      obtain ⟨n, hn, rfl⟩ := List.mem_map.mp ((sortMembers_keeps _).mem_iff.mp hm)
      exact (ih n hn).mpr (h n hn)

/-! ## Equal as JSON -/

/-- **The canonical form decides equality as JSON.** -/
theorem same_iff_canonicalForm {v w : Doc} (hv : v.wf = true) (hw : w.wf = true) :
    jsonValueEqual v w = true ↔ canonicalForm v = canonicalForm w := by
  refine ⟨canonicalForm_eq_of_same hv hw, fun h => ?_⟩
  have hforget : ∀ x : Doc, x.wf = true → sortKeys (canonicalForm x) = sortKeys x := fun x hx =>
    rearrange_rearrange (sortMembers_forgets unitOrder) sortMembers_keeping x hx
  rw [jsonValueEqual_iff v w hv hw, ← hforget v hv, ← hforget w hw, h]

/-- The canonical form is equal to the value as JSON. -/
theorem same_canonicalForm {v : Doc} (hv : v.wf = true) : jsonValueEqual (canonicalForm v) v = true :=
  (same_iff_canonicalForm (canonicalForm_wf hv) hv).mpr (canonicalForm_idem hv)

theorem member_wf {v x : Doc} {key : JsString} (hv : v.wf = true) (h : v.member key = some x) :
    x.wf = true := by
  cases v with
  | obj ms => exact (wf_obj.mp hv).2 (key, x) (mem_of_lookup h)
  | _ => cases h

/-- A member of the canonical form is the canonical form of the member. -/
theorem member_canonicalForm {v : Doc} (hv : v.wf = true) (key : JsString) :
    (canonicalForm v).member key = (v.member key).map canonicalForm := by
  cases v with
  | obj ms =>
    obtain ⟨ms', hform, -, hlookup⟩ := @rearrange_obj (sortMembers fun a b => canonicalLe a b)
      sortMembers_keeping ms (wf_obj.mp hv).1
    rw [canonicalForm, hform]
    exact hlookup key
  | _ => rfl

/-- An object with exactly the members `keys`: what `assertExactFields` lets through. -/
def HasExactly (keys : List JsString) (v : Doc) : Prop :=
  ∃ ms, v = .obj ms ∧ ms.length = keys.length ∧ ∀ key ∈ keys, (ms.lookup key).isSome = true

/-- Values equal as JSON have the same keys. -/
theorem HasExactly.of_same {keys : List JsString} {v w : Doc} (h : HasExactly keys v)
    (hv : v.wf = true) (hw : w.wf = true) (hsame : jsonValueEqual v w = true) : HasExactly keys w := by
  obtain ⟨ms, rfl, hlen, hkeys⟩ := h
  have hform := canonicalForm_eq_of_same hv hw hsame
  cases w with
  | obj ms' =>
    simp only [jsonValueEqual, Bool.and_eq_true, decide_eq_true_eq] at hsame
    refine ⟨ms', rfl, by rw [← hsame.1, hlen], fun key hkey => ?_⟩
    have hmember := member_canonicalForm hv key
    rw [hform, member_canonicalForm hw key] at hmember
    have hsome := congrArg Option.isSome hmember
    rw [Option.isSome_map, Option.isSome_map] at hsome
    exact hsome.trans (hkeys key hkey)
  | _ => cases hsame

/-- A scalar is its own canonical form, and nobody else's. -/
theorem eq_of_canonicalForm_scalar {x y : Doc} (hx : x.isObjectLike = false)
    (h : canonicalForm y = canonicalForm x) : y = x := by
  cases x with
  | arr xs => cases hx
  | obj ms => cases hx
  | _ => cases y <;> cases h; rfl

/-- A scalar member of an object is one of every equal object. -/
theorem member_scalar_of_same {v w x : Doc} {key : JsString} (hv : v.wf = true) (hw : w.wf = true)
    (hsame : jsonValueEqual v w = true) (hx : x.isObjectLike = false)
    (h : v.member key = some x) : w.member key = some x := by
  have hmember := member_canonicalForm hv key
  rw [canonicalForm_eq_of_same hv hw hsame, member_canonicalForm hw key, h] at hmember
  obtain ⟨y, hy, hform⟩ := Option.map_eq_some_iff.mp hmember
  rw [hy, eq_of_canonicalForm_scalar hx hform]

/-- An array member is matched by one with equal items. -/
theorem member_arr_of_same {v w : Doc} {key : JsString} {xs : List Doc} (hv : v.wf = true)
    (hw : w.wf = true) (hsame : jsonValueEqual v w = true) (h : v.member key = some (.arr xs)) :
    ∃ ys, w.member key = some (.arr ys) ∧ ys.map canonicalForm = xs.map canonicalForm := by
  have hmember := member_canonicalForm hv key
  rw [canonicalForm_eq_of_same hv hw hsame, member_canonicalForm hw key, h] at hmember
  obtain ⟨y, hy, hform⟩ := Option.map_eq_some_iff.mp hmember
  rw [canonicalForm_arr] at hform
  cases y with
  | arr ys =>
    rw [canonicalForm_arr, Json.arr.injEq] at hform
    exact ⟨ys, hy, hform⟩
  | _ => cases hform

end Baerly
