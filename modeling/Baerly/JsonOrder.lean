import Baerly.DocId
import Baerly.JsonText
import Baerly.Query.DeepEqual

/-
  JSON values up to the order of their members.

  PROGRAM: `JSON.parse` builds objects: a repeated key keeps its place and takes the last value,
  and an object lists its array-index keys first, in numeric order.  Canonical encoders sort the
  members of every object.  Each of these is `rearrange f`: one function `f` on member lists,
  applied to every object of a value from the inside out.

  SPEC: sorting forgets exactly the order (`jsonValueEqual_iff`): two values with distinct keys are
  equal as JSON iff they are the same tree once sorted.

  CRUX: two lists of members with distinct keys that hold the same members are one list once sorted
  (`sortMembers_perm`), so whatever an earlier rearrangement did to the order is undone
  (`rearrange_rearrange`).
-/

namespace Baerly

namespace Json

variable {N : Type}

/-! ## Rearranging members -/

mutual

/-- Apply `f` to the members of every object, inner objects first. -/
def rearrange (f : List (JsString × Json N) → List (JsString × Json N)) : Json N → Json N
  | .arr xs => .arr (rearrangeItems f xs)
  | .obj ms => .obj (f (rearrangeMembers f ms))
  | v => v

/-- The items of an array, each rearranged. -/
def rearrangeItems (f : List (JsString × Json N) → List (JsString × Json N)) :
    List (Json N) → List (Json N)
  | [] => []
  | x :: xs => rearrange f x :: rearrangeItems f xs

/-- The members of an object, each rearranged. -/
def rearrangeMembers (f : List (JsString × Json N) → List (JsString × Json N)) :
    List (JsString × Json N) → List (JsString × Json N)
  | [] => []
  | (key, x) :: ms => (key, rearrange f x) :: rearrangeMembers f ms

end

/-- Map the values of a list of members. -/
def mapValues (g : Json N → Json N) (ms : List (JsString × Json N)) : List (JsString × Json N) :=
  ms.map fun m => (m.1, g m.2)

/-- Changing values keeps keys. -/
@[simp] theorem keys_mapValues (g : Json N → Json N) (ms : List (JsString × Json N)) :
    (mapValues g ms).map Prod.fst = ms.map Prod.fst := by
  rw [mapValues, List.map_map]
  rfl

section Rearrange

variable {f g : List (JsString × Json N) → List (JsString × Json N)}

/-- Items are rearranged one by one. -/
theorem rearrangeItems_eq (xs : List (Json N)) : rearrangeItems f xs = xs.map (rearrange f) := by
  induction xs with
  | nil => rfl
  | cons x xs ih => rw [rearrangeItems, ih, List.map_cons]

/-- So are members. -/
theorem rearrangeMembers_eq (ms : List (JsString × Json N)) :
    rearrangeMembers f ms = mapValues (rearrange f) ms := by
  induction ms with
  | nil => rfl
  | cons m ms ih => rw [rearrangeMembers, ih, mapValues, mapValues, List.map_cons]

/-- An array is well formed iff its items are. -/
theorem wf_arr {xs : List (Json N)} : (Json.arr xs).wf = true ↔ ∀ x ∈ xs, x.wf = true := by
  rw [wf]
  induction xs with
  | nil => simp [wfList]
  | cons x xs ih => simp [wfList, ih]

/-- An object is well formed iff its members are, under distinct keys. -/
theorem wf_obj {ms : List (JsString × Json N)} : (Json.obj ms).wf = true ↔
    (ms.map Prod.fst).Nodup ∧ ∀ m ∈ ms, m.2.wf = true := by
  have hmembers : wfMembers ms = true ↔ ∀ m ∈ ms, m.2.wf = true := by
    induction ms with
    | nil => simp [wfMembers]
    | cons m ms ih => rw [wfMembers, Bool.and_eq_true, ih, List.forall_mem_cons]
  rw [wf, Bool.and_eq_true, decide_eq_true_eq, hmembers]

/-- A rearrangement keeps the members of an object with distinct keys. -/
def Keeps (f : List (JsString × Json N) → List (JsString × Json N)) : Prop :=
  ∀ ms, (ms.map Prod.fst).Nodup → (f ms).Perm ms

/-- Rearranging keeps a value well formed. -/
theorem rearrange_wf (hf : Keeps f) (v : Json N) (hv : v.wf = true) : (rearrange f v).wf = true := by
  induction v using ind with
  | null => rfl
  | bool b => rfl
  | num n => rfl
  | str s => rfl
  | arr xs ih =>
    rw [wf_arr] at hv
    rw [rearrange, rearrangeItems_eq, wf_arr]
    intro y hy
    obtain ⟨x, hx, rfl⟩ := List.mem_map.mp hy
    exact ih x hx (hv x hx)
  | obj ms ih =>
    rw [wf_obj] at hv
    have hnodup : ((mapValues (rearrange f) ms).map Prod.fst).Nodup := by
      rw [keys_mapValues]
      exact hv.1
    have hperm := hf _ hnodup
    rw [rearrange, rearrangeMembers_eq, wf_obj]
    refine ⟨(hperm.map Prod.fst).nodup_iff.mpr hnodup, fun m hm => ?_⟩
    obtain ⟨n, hn, rfl⟩ := List.mem_map.mp (hperm.mem_iff.mp hm)
    exact ih n hn (hv.2 n hn)

/-- A rearrangement that only looks at which members there are. -/
def Forgets (f : List (JsString × Json N) → List (JsString × Json N)) : Prop :=
  ∀ ms ms', (ms.map Prod.fst).Nodup → ms.Perm ms' → f ms = f ms'

/-- **A rearrangement that forgets the order undoes an earlier one.** -/
theorem rearrange_rearrange (hf : Forgets f) (hg : Keeps g) (v : Json N) (hv : v.wf = true) :
    rearrange f (rearrange g v) = rearrange f v := by
  induction v using ind with
  | null => rfl
  | bool b => rfl
  | num n => rfl
  | str s => rfl
  | arr xs ih =>
    rw [wf_arr] at hv
    simp only [rearrange, rearrangeItems_eq, List.map_map]
    congr 1
    exact List.map_congr_left fun x hx => ih x hx (hv x hx)
  | obj ms ih =>
    rw [wf_obj] at hv
    have hnodup : ((mapValues (rearrange g) ms).map Prod.fst).Nodup := by
      rw [keys_mapValues]
      exact hv.1
    have hinner : mapValues (rearrange f) (mapValues (rearrange g) ms) =
        mapValues (rearrange f) ms := by
      rw [mapValues, mapValues, mapValues, List.map_map]
      exact List.map_congr_left fun m hm => congrArg (Prod.mk m.1) (ih m hm (hv.2 m hm))
    have hperm := (hg _ hnodup).map fun m => (m.1, rearrange f m.2)
    have hkeys : ((mapValues (rearrange f) (g (mapValues (rearrange g) ms))).map Prod.fst).Nodup := by
      rw [keys_mapValues]
      exact ((hg _ hnodup).map Prod.fst).nodup_iff.mpr hnodup
    simp only [rearrange, rearrangeMembers_eq]
    congr 1
    rw [← hinner]
    exact hf _ _ hkeys hperm

end Rearrange

/-! ## Sorting -/

/-- What a comparison of keys has to be. -/
structure KeyOrder (le : JsString → JsString → Prop) : Prop where
  total : ∀ a b, le a b ∨ le b a
  trans : ∀ a b c, le a b → le b c → le a c
  antisymm : ∀ a b, le a b → le b a → a = b

section Sorting

variable {le : JsString → JsString → Prop} [DecidableRel le]

/-- The members sorted by key. -/
def sortMembers (le : JsString → JsString → Prop) [DecidableRel le] {α : Type}
    (ms : List (JsString × α)) : List (JsString × α) :=
  ms.insertionSort fun a b => le a.1 b.1

/-- Sorting keeps the members. -/
theorem sortMembers_keeps {α : Type} (ms : List (JsString × α)) : (sortMembers le ms).Perm ms :=
  List.perm_insertionSort _ ms

/-- It puts them in order. -/
theorem sortMembers_sorted (hle : KeyOrder le) {α : Type} (ms : List (JsString × α)) :
    (sortMembers le ms).Pairwise fun a b => le a.1 b.1 := by
  have htotal : Std.Total fun a b : JsString × α => le a.1 b.1 := ⟨fun a b => hle.total a.1 b.1⟩
  have htrans : IsTrans (JsString × α) fun a b => le a.1 b.1 :=
    ⟨fun a b c => hle.trans a.1 b.1 c.1⟩
  exact List.pairwise_insertionSort _ ms

/-- With distinct keys a key has one member. -/
theorem eq_of_key_eq {α : Type} {ms : List (JsString × α)} (hms : (ms.map Prod.fst).Nodup)
    {a b : JsString × α} (ha : a ∈ ms) (hb : b ∈ ms) (h : a.1 = b.1) : a = b :=
  List.inj_on_of_nodup_map hms ha hb h

/-- **Lists with the same members are one list once sorted.** -/
theorem sortMembers_perm (hle : KeyOrder le) {α : Type} {ms ms' : List (JsString × α)}
    (hms : (ms.map Prod.fst).Nodup) (h : ms.Perm ms') : sortMembers le ms = sortMembers le ms' := by
  have hperm : (sortMembers le ms).Perm (sortMembers le ms') :=
    (sortMembers_keeps ms).trans (h.trans (sortMembers_keeps ms').symm)
  refine List.Perm.eq_of_pairwise (fun a b ha hb hab hba => ?_) (sortMembers_sorted hle ms)
    (sortMembers_sorted hle ms') hperm
  have ha' : a ∈ ms := (sortMembers_keeps ms).mem_iff.mp ha
  have hb' : b ∈ ms := h.mem_iff.mpr ((sortMembers_keeps ms').mem_iff.mp hb)
  exact eq_of_key_eq hms ha' hb' (hle.antisymm a.1 b.1 hab hba)

/-- Sorting looks at the keys only. -/
theorem sortMembers_map {α β : Type} (g : α → β) (ms : List (JsString × α)) :
    (sortMembers le ms).map (fun m => (m.1, g m.2)) =
      sortMembers le (ms.map fun m => (m.1, g m.2)) :=
  List.map_insertionSort _ _ _ _ fun _ _ _ _ => Iff.rfl

/-- **Sorting forgets the order there was.** -/
theorem sortMembers_forgets (hle : KeyOrder le) : Forgets (N := N) (sortMembers le) :=
  fun _ _ hms h => sortMembers_perm hle hms h

theorem sortMembers_keeping : Keeps (N := N) (sortMembers le) :=
  fun ms _ => sortMembers_keeps ms

end Sorting

/-- The code-unit order of JavaScript strings: what `toSorted()` sorts by. -/
theorem unitOrder : KeyOrder fun a b : JsString => a ≤ b where
  total := le_total
  trans _ _ _ := le_trans
  antisymm _ _ := le_antisymm

/-- Every object with its members in code-unit order. -/
def sortKeys (v : Json N) : Json N := rearrange (sortMembers fun a b => a ≤ b) v

/-! ## Objects -/

/-- The index an array-index key stands for. -/
def arrayIndex (key : JsString) : Option Nat :=
  if key = decimal (ofDigits key) ∧ ofDigits key < 0xFFFFFFFF then some (ofDigits key) else none

/-- The order in which an object lists its keys: array indices first. -/
def ownOrder {α : Type} (ms : List (JsString × α)) : List (JsString × α) :=
  (ms.filter fun m => (arrayIndex m.1).isSome).insertionSort
      (fun a b => (arrayIndex a.1).getD 0 ≤ (arrayIndex b.1).getD 0) ++
    ms.filter fun m => !(arrayIndex m.1).isSome

/-- The members of an object after its properties were defined one after the other. -/
def objectOf (ms : List (JsString × Json N)) : List (JsString × Json N) :=
  ownOrder (InsMap.ofList ms).entries

/-- The order of own keys is an order of all of them. -/
theorem ownOrder_perm {α : Type} (ms : List (JsString × α)) : (ownOrder ms).Perm ms := by
  refine ((List.perm_insertionSort _ _).append_right _).trans ?_
  exact List.filter_append_perm _ ms

/-- With distinct keys a map made of pairs has just these. -/
theorem entries_ofList {α : Type} {ms : List (JsString × α)} (hms : (ms.map Prod.fst).Nodup) :
    (InsMap.ofList ms).entries.Perm ms := by
  have hentries := List.Nodup.of_map _ (InsMap.ofList ms).nodup
  refine (List.perm_ext_iff_of_nodup hentries (List.Nodup.of_map _ hms)).mpr ?_
  rintro ⟨key, x⟩
  rw [InsMap.mem_entries, InsMap.get_ofList hms]
  exact ⟨InsMap.mem_of_lookup_eq_some, InsMap.lookup_eq_some_of_mem hms⟩

/-- Building an object member by member loses none. -/
theorem objectOf_keeps : Keeps (N := N) objectOf :=
  fun _ hms => (ownOrder_perm _).trans (entries_ofList hms)

end Json

/-- `JSON.parse(s)`. -/
def JSON.parse (N : NumberText) (s : JsString) : Option Doc :=
  (JSON.parseTree N s).map (Json.rearrange Json.objectOf)

/-! ## Equality of JSON values -/

namespace Json

/-- Members are found equal under the other side's keys. -/
theorem jsonMembersEqual_iff {xs right : List (JsString × Doc)} :
    jsonMembersEqual xs right = true ↔
      ∀ m ∈ xs, ∃ y, right.lookup m.1 = some y ∧ jsonValueEqual m.2 y = true := by
  induction xs with
  | nil => simp [jsonMembersEqual]
  | cons m xs ih =>
    rw [jsonMembersEqual, List.forall_mem_cons]
    cases hlook : right.lookup m.1 with
    | none => simp
    | some y => simp [ih]

/-- Arrays are equal item by item. -/
theorem jsonItemsEqual_iff {xs : List Doc}
    (ih : ∀ x ∈ xs, ∀ y, x.wf = true → y.wf = true →
      (jsonValueEqual x y = true ↔ sortKeys x = sortKeys y)) :
    ∀ {ys : List Doc}, (∀ x ∈ xs, x.wf = true) → (∀ y ∈ ys, y.wf = true) →
      (jsonItemsEqual xs ys = true ↔ xs.map sortKeys = ys.map sortKeys) := by
  induction xs with
  | nil =>
    intro ys _ _
    cases ys <;> simp [jsonItemsEqual]
  | cons x xs ihs =>
    intro ys hxs hys
    cases ys with
    | nil => simp [jsonItemsEqual]
    | cons y ys =>
      rw [List.forall_mem_cons] at hxs hys
      have hhead := ih x List.mem_cons_self y hxs.1 hys.1
      have htail := ihs (fun z hz => ih z (List.mem_cons_of_mem x hz)) hxs.2 hys.2
      rw [jsonItemsEqual, Bool.and_eq_true, hhead, htail, List.map_cons, List.map_cons,
        List.cons.injEq]

/-- The members of two objects, compared through what sorting leaves of them. -/
theorem sortedMembers_eq_iff {xs ys : List (JsString × Doc)} (hxs : (xs.map Prod.fst).Nodup)
    (hys : (ys.map Prod.fst).Nodup) :
    sortMembers (· ≤ ·) (mapValues sortKeys xs) = sortMembers (· ≤ ·) (mapValues sortKeys ys) ↔
      xs.length = ys.length ∧ ∀ m ∈ xs, ∃ y, ys.lookup m.1 = some y ∧ sortKeys m.2 = sortKeys y := by
  have hxs' : ((mapValues sortKeys xs).map Prod.fst).Nodup := by
    rw [keys_mapValues]
    exact hxs
  constructor
  · intro h
    have hperm : (mapValues sortKeys xs).Perm (mapValues sortKeys ys) := by
      have hsorted : (sortMembers (fun a b : JsString => a ≤ b) (mapValues sortKeys xs)).Perm
          (mapValues sortKeys xs) := sortMembers_keeps _
      refine hsorted.symm.trans ?_
      rw [h]
      exact sortMembers_keeps _
    refine ⟨by simpa [mapValues] using hperm.length_eq, fun m hm => ?_⟩
    have hmem : (m.1, sortKeys m.2) ∈ mapValues sortKeys ys :=
      hperm.mem_iff.mp (List.mem_map.mpr ⟨m, hm, rfl⟩)
    obtain ⟨n, hn, heq⟩ := List.mem_map.mp hmem
    obtain ⟨hkey, hvalue⟩ := Prod.mk.inj heq
    refine ⟨n.2, ?_, hvalue.symm⟩
    rw [← hkey]
    exact lookup_of_mem hys hn
  · rintro ⟨hlen, hall⟩
    have hsub : mapValues sortKeys xs ⊆ mapValues sortKeys ys := by
      intro p hp
      obtain ⟨m, hm, rfl⟩ := List.mem_map.mp hp
      obtain ⟨y, hy, heq⟩ := hall m hm
      rw [heq]
      exact List.mem_map.mpr ⟨(m.1, y), mem_of_lookup hy, rfl⟩
    have hperm : (mapValues sortKeys xs).Perm (mapValues sortKeys ys) :=
      ((List.Nodup.of_map _ hxs').subperm hsub).perm_of_length_le (by simp [mapValues, hlen])
    exact sortMembers_perm unitOrder hxs' hperm

/-- **Equal as JSON is equal once sorted.** -/
theorem jsonValueEqual_iff (v : Doc) : ∀ w : Doc, v.wf = true → w.wf = true →
    (jsonValueEqual v w = true ↔ sortKeys v = sortKeys w) := by
  induction v using ind with
  | null => intro w _ _; cases w <;> simp [jsonValueEqual, sortKeys, rearrange]
  | bool b => intro w _ _; cases w <;> simp [jsonValueEqual, sortKeys, rearrange]
  | num n => intro w _ _; cases w <;> simp [jsonValueEqual, sortKeys, rearrange]
  | str s => intro w _ _; cases w <;> simp [jsonValueEqual, sortKeys, rearrange]
  | arr xs ih =>
    intro w hv hw
    cases w with
    | arr ys =>
      rw [wf_arr] at hv hw
      have hitems := jsonItemsEqual_iff ih hv hw
      rw [jsonValueEqual, hitems]
      simp only [sortKeys, rearrange, rearrangeItems_eq, Json.arr.injEq]
      rfl
    | _ => simp [jsonValueEqual, sortKeys, rearrange]
  | obj xs ih =>
    intro w hv hw
    cases w with
    | obj ys =>
      rw [wf_obj] at hv hw
      have hmembers : jsonMembersEqual xs ys = true ↔
          ∀ m ∈ xs, ∃ y, ys.lookup m.1 = some y ∧ sortKeys m.2 = sortKeys y := by
        rw [jsonMembersEqual_iff]
        refine forall₂_congr fun m hm => exists_congr fun y => and_congr_right fun hy => ?_
        exact ih m hm y (hv.2 m hm) (hw.2 (m.1, y) (mem_of_lookup hy))
      rw [jsonValueEqual, Bool.and_eq_true, decide_eq_true_eq, hmembers,
        ← sortedMembers_eq_iff hv.1 hw.1]
      simp only [sortKeys, rearrange, rearrangeMembers_eq, Json.obj.injEq]
      rfl
    | _ => simp [jsonValueEqual, sortKeys, rearrange]

/-- What `JSON.parse` builds from a tree is that tree, up to the order of members. -/
theorem sortKeys_build (v : Doc) (hv : v.wf = true) :
    sortKeys (rearrange objectOf v) = sortKeys v :=
  rearrange_rearrange (sortMembers_forgets unitOrder) objectOf_keeps v hv

/-- Sorting keys twice is sorting them once. -/
theorem sortKeys_sortKeys (v : Doc) (hv : v.wf = true) : sortKeys (sortKeys v) = sortKeys v :=
  rearrange_rearrange (sortMembers_forgets unitOrder) sortMembers_keeping v hv

/-- It keeps a value well formed. -/
theorem sortKeys_wf (v : Doc) (hv : v.wf = true) : (sortKeys v).wf = true :=
  rearrange_wf sortMembers_keeping v hv

end Json

end Baerly
