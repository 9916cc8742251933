import Baerly.Dump

/-
  A dump read back.

  SPEC (`dump_restore`): the rows `restore` reads from a dump are the rows of the view, one per id,
  each with `_id` set to its key; dumping what they restore to gives the same text; and two views
  have one dump iff they hold the same rows, `_id` apart.  The first two need that no string of the
  view contains U+2028 or U+2029, where the reader's line splitter breaks a line.

  CRUX: a canonical line is the JSON text of the sorted row (`canonicalStringify_eq`), in which every
  control character is escaped (`stringify_units`), so the lines of a dump are found again
  (`readLines_dump`), and each one determines its row up to the order of members.
-/

namespace Baerly

open Json

variable {N : NumberText}

/-! ## The text of a line -/

/-- Items are printed one by one. -/
theorem canonicalItems_eq (xs : List Doc) :
    canonicalItems N xs = xs.map (canonicalStringify N) := by
  induction xs with
  | nil => rfl
  | cons x xs ih => rw [canonicalItems, ih, List.map_cons]

/-- So are members. -/
theorem canonicalMembers_eq (ms : List (JsString × Doc)) :
    canonicalMembers N ms = ms.map fun m => (m.1, canonicalStringify N m.2) := by
  induction ms with
  | nil => rfl
  | cons m ms ih => rw [canonicalMembers, ih, List.map_cons]

/-- **A canonical text is the JSON text of the sorted value.** -/
theorem canonicalStringify_eq (v : Doc) : canonicalStringify N v = JSON.stringify N (sortKeys v) := by
  induction v using Json.ind with
  | null => rfl
  | bool b => cases b <;> rfl
  | num n => rfl
  | str s => rfl
  | arr xs ih =>
    simp only [canonicalStringify, sortKeys, rearrange, JSON.stringify, rearrangeItems_eq,
      JSON.stringifyItems_eq, canonicalItems_eq, List.map_map]
    congr 3
    exact List.map_congr_left ih
  | obj ms ih =>
    have hmembers : ms.map (fun m => (m.1, canonicalStringify N m.2)) =
        (mapValues sortKeys ms).map fun m => (m.1, JSON.stringify N m.2) := by
      rw [mapValues, List.map_map]
      exact List.map_congr_left fun m hm => congrArg (Prod.mk m.1) (ih m hm)
    simp only [canonicalStringify, sortKeys, rearrange, JSON.stringify, rearrangeMembers_eq,
      JSON.stringifyMembers_eq, canonicalMembers_eq]
    rw [hmembers, ← sortMembers_map, List.map_map]
    rfl

/-- Reading a canonical text back. -/
theorem parse_canonicalStringify (v : Doc) :
    JSON.parse N (canonicalStringify N v) = some (rearrange objectOf (sortKeys v)) := by
  rw [canonicalStringify_eq, JSON.parse, JSON.parseTree_stringify]
  rfl

/-! ## Members -/

/-- With distinct keys the order does not matter to a lookup. -/
theorem lookup_perm {xs ys : List (JsString × Doc)} (h : xs.Perm ys)
    (hys : (ys.map Prod.fst).Nodup) (key : JsString) : xs.lookup key = ys.lookup key := by
  have hxs : (xs.map Prod.fst).Nodup := (h.map Prod.fst).nodup_iff.mpr hys
  refine Option.ext fun x => ?_
  constructor
  · exact fun hx => lookup_of_mem hys (h.mem_iff.mp (mem_of_lookup hx))
  · exact fun hx => lookup_of_mem hxs (h.mem_iff.mpr (mem_of_lookup hx))

/-- A changed value is found changed. -/
theorem lookup_mapValues (g : Doc → Doc) (ms : List (JsString × Doc)) (key : JsString) :
    (mapValues g ms).lookup key = (ms.lookup key).map g := by
  induction ms with
  | nil => rfl
  | cons m ms ih =>
    rw [mapValues, List.map_cons, ← mapValues, List.lookup_cons, List.lookup_cons]
    cases key == m.1 with
    | true => rfl
    | false => exact ih

/-- The members of a rearranged object are the rearranged members. -/
theorem rearrange_obj {f : List (JsString × Doc) → List (JsString × Doc)} (hf : Keeps f)
    {ms : List (JsString × Doc)} (hms : (ms.map Prod.fst).Nodup) : ∃ ms',
      rearrange f (.obj ms) = .obj ms' ∧ (ms'.map Prod.fst).Nodup ∧
        ∀ key, ms'.lookup key = (ms.lookup key).map (rearrange f) := by
  have hnodup : ((mapValues (rearrange f) ms).map Prod.fst).Nodup := by
    rw [keys_mapValues]
    exact hms
  refine ⟨f (mapValues (rearrange f) ms), by rw [rearrange, rearrangeMembers_eq], ?_, fun key => ?_⟩
  · exact ((hf _ hnodup).map Prod.fst).nodup_iff.mpr hnodup
  · rw [lookup_perm (hf _ hnodup) hnodup, lookup_mapValues]

/-- A sorted object answers every key with its sorted value. -/
theorem sortKeys_obj {ms : List (JsString × Doc)} (hms : (ms.map Prod.fst).Nodup) : ∃ ms',
    sortKeys (.obj ms) = .obj ms' ∧ (ms'.map Prod.fst).Nodup ∧
      ∀ key, ms'.lookup key = (ms.lookup key).map sortKeys :=
  rearrange_obj sortMembers_keeping hms

/-- Keys stay distinct when `_id` is set. -/
theorem spreadId_keys {ms : List (JsString × Doc)} (hms : (ms.map Prod.fst).Nodup) (id : JsString) :
    ((spreadId ms id).map Prod.fst).Nodup := by
  unfold spreadId
  split
  next =>
    rw [List.map_map]
    have hkeys : ms.map (Prod.fst ∘ fun m => if m.1 = js "_id" then (m.1, .str id) else m) =
        ms.map Prod.fst := by
      refine List.map_congr_left fun m _ => ?_
      by_cases hm : m.1 = js "_id"
      · simp only [Function.comp_apply, hm, if_true]
      · simp only [Function.comp_apply, hm, if_false]
    rw [hkeys]
    exact hms
  next hnone =>
    rw [List.map_append, List.nodup_append]
    refine ⟨hms, List.nodup_singleton _, fun key hkey key' hkey' heq => hnone ?_⟩
    obtain ⟨m, hm, rfl⟩ := List.mem_map.mp hkey
    rw [List.map_singleton, List.mem_singleton] at hkey'
    exact List.any_eq_true.mpr ⟨m, hm, by simpa using heq.trans hkey'⟩

/-- Then `_id` is the key of the row, and everything else as it was. -/
theorem lookup_setId (id key : JsString) (ms : List (JsString × Doc)) :
    (ms.map fun m => if m.1 = js "_id" then (m.1, Json.str id) else m).lookup key =
      if key = js "_id" then (ms.lookup key).map fun _ => .str id else ms.lookup key := by
  induction ms with
  | nil => simp
  | cons m ms ih =>
    rw [List.map_cons, List.lookup_cons]
    by_cases hm : m.1 = js "_id"
    · rw [if_pos hm, List.lookup_cons]
      by_cases hkey : key = m.1
      · simp [hkey, hm]
      · rw [beq_eq_false_iff_ne.mpr hkey, ih]
    · rw [if_neg hm, List.lookup_cons]
      by_cases hkey : key = m.1
      · simp [hkey, hm]
      · rw [beq_eq_false_iff_ne.mpr hkey, ih]

/-- Setting `_id` sets `_id`, and nothing else. -/
theorem lookup_spreadId (ms : List (JsString × Doc)) (id key : JsString) :
    (spreadId ms id).lookup key = if key = js "_id" then some (.str id) else ms.lookup key := by
  unfold spreadId
  split
  next hany =>
    rw [lookup_setId]
    by_cases hkey : key = js "_id"
    · rw [if_pos hkey, if_pos hkey]
      obtain ⟨m, hm, hid⟩ := List.any_eq_true.mp hany
      have hsome : (ms.lookup key).isSome = true := by
        rw [List.lookup_isSome_iff]
        exact ⟨m, hm, by simpa [hkey] using (of_decide_eq_true hid).symm⟩
      obtain ⟨x, hx⟩ := Option.isSome_iff_exists.mp hsome
      rw [hx]
      rfl
    · rw [if_neg hkey, if_neg hkey]
  next hnone =>
    have habsent : ∀ m ∈ ms, m.1 ≠ js "_id" := by
      intro m hm heq
      exact hnone (List.any_eq_true.mpr ⟨m, hm, by simpa using heq⟩)
    rw [List.lookup_append, List.lookup_cons, List.lookup_nil]
    by_cases hkey : key = js "_id"
    · have hlook : ms.lookup key = none := by
        rw [List.lookup_eq_none_iff]
        intro m hm
        simpa [hkey] using (habsent m hm).symm
      rw [hlook, if_pos hkey, beq_iff_eq.mpr hkey]
      rfl
    · rw [if_neg hkey, beq_eq_false_iff_ne.mpr hkey, Option.or_none]

/-! ## Views -/

/-- A materialised view: rows are objects with distinct keys, stored under non-empty ids. -/
structure View where
  rows : Rows
  isObject : ∀ id row, rows.get id = some row → ∃ ms, row = .obj ms
  wf : ∀ id row, rows.get id = some row → row.wf = true
  idNonEmpty : ∀ id row, rows.get id = some row → id ≠ []

/-- No string or key of the view, and no id, contains U+2028 or U+2029. -/
def View.NoSeparators (view : View) : Prop :=
  ∀ id row, view.rows.get id = some row →
    (withId id row).allUnits (fun u => u.val ≠ 0x2028 && u.val ≠ 0x2029) = true

/-- The rows in the order they are dumped. -/
def View.sorted (view : View) : List (JsString × Doc) :=
  sortMembers (fun a b => a ≤ b) view.rows.entries

/-- The sorted rows are all rows. -/
theorem View.mem_sorted {view : View} {row : StoredRow} :
    row ∈ view.sorted ↔ view.rows.get row.1 = some row.2 :=
  (sortMembers_keeps view.rows.entries).mem_iff.trans InsMap.mem_entries

/-- Each once. -/
theorem View.sorted_nodup (view : View) : (view.sorted.map Prod.fst).Nodup :=
  ((sortMembers_keeps view.rows.entries).map Prod.fst).nodup_iff.mpr view.rows.nodup

theorem withId_wf {id : JsString} {row : Doc} (hobj : ∃ ms, row = .obj ms) (hwf : row.wf = true) :
    (withId id row).wf = true := by
  obtain ⟨ms, rfl⟩ := hobj
  rw [wf_obj] at hwf
  rw [withId, wf_obj]
  refine ⟨spreadId_keys hwf.1 id, fun m hm => ?_⟩
  have hlook := lookup_of_mem (spreadId_keys hwf.1 id) hm
  rw [lookup_spreadId] at hlook
  split at hlook
  next => rw [← Option.some.inj hlook]; rfl
  next => exact hwf.2 _ (mem_of_lookup hlook)

theorem View.withId_wf (view : View) {row : StoredRow} (h : row ∈ view.sorted) :
    (withId row.1 row.2).wf = true :=
  Baerly.withId_wf (view.isObject row.1 row.2 (View.mem_sorted.mp h))
    (view.wf row.1 row.2 (View.mem_sorted.mp h))

/-- The dump, line by line. -/
theorem writeToSink_eq (view : View) : writeToSink N view.rows =
    view.sorted.flatMap fun row => canonicalStringify N (withId row.1 row.2) ++ [10] := by
  have hids : (view.rows.entries.map Prod.fst).insertionSort (fun a b => a ≤ b) =
      view.sorted.map Prod.fst :=
    (List.map_insertionSort _ _ Prod.fst _ fun _ _ _ _ => Iff.rfl).symm
  rw [writeToSink, hids, List.flatMap_map]
  refine List.flatMap_congr fun row hrow => ?_
  rw [dumpLine, View.mem_sorted.mp hrow]

/-! ## Lines -/

/-- A line without a break in it, up to its newline. -/
theorem readLines_append {line : JsString} (hline : ∀ u ∈ line, isLineBreak u = false)
    (acc rest : JsString) :
    readLines acc (line ++ 10 :: rest) = (acc ++ line) :: readLines [] rest := by
  induction line generalizing acc with
  | nil =>
    rw [List.nil_append, List.append_nil]
    cases acc <;> rfl
  | cons u line ih =>
    have hu := hline u List.mem_cons_self
    have hcr : ¬ (u = 13 ∧ (line ++ 10 :: rest).head? = some 10) := by
      rintro ⟨rfl, -⟩
      cases hu
    have hstep : readLines acc (u :: (line ++ 10 :: rest)) =
        readLines (acc ++ [u]) (line ++ 10 :: rest) := by
      cases acc with
      | nil => rw [readLines, if_neg hcr, if_neg (by simp [hu])]
      | cons a acc => rw [readLines, if_neg hcr, if_neg (by simp [hu])]
    rw [List.cons_append, hstep, ih (fun w hw => hline w (List.mem_cons_of_mem u hw)),
      List.append_assoc, List.singleton_append]

/-- **Lines without breaks are found again.** -/
theorem readLines_dump {lines : List JsString}
    (h : ∀ line ∈ lines, ∀ u ∈ line, isLineBreak u = false) :
    readLines [] (lines.flatMap fun line => line ++ [10]) = lines := by
  induction lines with
  | nil => rfl
  | cons line lines ih =>
    rw [List.flatMap_cons, List.append_assoc, List.singleton_append,
      readLines_append (h line List.mem_cons_self), List.nil_append,
      ih fun l hl => h l (List.mem_cons_of_mem line hl)]

theorem allUnits_sortKeys {q : Fin 65536 → Bool} (v : Doc) (h : v.allUnits q = true) :
    (sortKeys v).allUnits q = true := by
  induction v using Json.ind with
  | null => rfl
  | bool b => rfl
  | num n => rfl
  | str s => exact h
  | arr xs ih =>
    rw [allUnits_arr] at h
    rw [sortKeys, rearrange, rearrangeItems_eq, allUnits_arr]
    intro y hy
    obtain ⟨x, hx, rfl⟩ := List.mem_map.mp hy
    exact ih x hx (h x hx)
  | obj ms ih =>
    rw [allUnits_obj] at h
    rw [sortKeys, rearrange, rearrangeMembers_eq, allUnits_obj]
    intro n hn
    obtain ⟨m, hm, rfl⟩ := List.mem_map.mp ((sortMembers_keeps _).mem_iff.mp hn)
    exact ⟨(h m hm).1, ih m hm (h m hm).2⟩

/-- A line has no unit the row does not have, but for ASCII. -/
theorem line_units {q : Fin 65536 → Bool} {v : Doc} (h : v.allUnits q = true) {w : Fin 65536}
    (hw : w ∈ canonicalStringify N v) : JSON.TextUnit q w := by
  rw [canonicalStringify_eq] at hw
  exact JSON.stringify_units (sortKeys v) (allUnits_sortKeys v h) w hw

/-- The lines of a dump without separators in it have no break. -/
theorem line_noBreak {v : Doc}
    (h : v.allUnits (fun u => u.val ≠ 0x2028 && u.val ≠ 0x2029) = true) {w : Fin 65536}
    (hw : w ∈ canonicalStringify N v) : isLineBreak w = false := by
  obtain ⟨hge, hunit⟩ := line_units h hw
  have hsep : w.val ≠ 0x2028 ∧ w.val ≠ 0x2029 := by
    rcases hunit with hlt | hq
    · exact ⟨by omega, by omega⟩
    · simpa using hq
  have h10 : w ≠ 10 := by
    rintro rfl
    exact absurd hge (by decide)
  have h13 : w ≠ 13 := by
    rintro rfl
    exact absurd hge (by decide)
  simp [isLineBreak, h10, h13, hsep]

/-- Every value passes where everything does. -/
theorem allUnits_true (v : Doc) : v.allUnits (fun _ => true) = true := by
  induction v using Json.ind with
  | null => rfl
  | bool b => rfl
  | num n => rfl
  | str s => simp [allUnits]
  | arr xs ih => rw [allUnits_arr]; exact ih
  | obj ms ih => rw [allUnits_obj]; exact fun m hm => ⟨by simp, ih m hm⟩

/-- No line of any dump contains a newline. -/
theorem line_noNewline {v : Doc} : 10 ∉ canonicalStringify N v := by
  intro hw
  exact absurd (line_units (allUnits_true v) hw).1 (by decide)

/-! ## Rows read back -/

/-- A row the way it comes back: its members sorted, then listed as an object lists them. -/
def readBack (row : StoredRow) : StoredRow :=
  (row.1, rearrange objectOf (sortKeys (withId row.1 row.2)))

/-- A dumped row is an object that names its own key. -/
theorem View.withId_obj (view : View) {row : StoredRow} (h : row ∈ view.sorted) :
    ∃ ms, withId row.1 row.2 = .obj ms ∧ (ms.map Prod.fst).Nodup ∧
      ms.lookup (js "_id") = some (.str row.1) := by
  obtain ⟨ms, hms⟩ := view.isObject row.1 row.2 (View.mem_sorted.mp h)
  have hwf := view.wf row.1 row.2 (View.mem_sorted.mp h)
  rw [hms, wf_obj] at hwf
  refine ⟨spreadId ms row.1, by rw [hms, withId], spreadId_keys hwf.1 row.1, ?_⟩
  rw [lookup_spreadId, if_pos rfl]

/-- The row that comes back is an object that names its id. -/
theorem View.readBack_obj (view : View) {row : StoredRow} (h : row ∈ view.sorted) :
    ∃ ms, (readBack row).2 = .obj ms ∧ ms.lookup (js "_id") = some (.str row.1) := by
  obtain ⟨ms₁, h₁, hnodup₁, hid₁⟩ := view.withId_obj h
  obtain ⟨ms₂, h₂, hnodup₂, hlook₂⟩ := sortKeys_obj hnodup₁
  obtain ⟨ms₃, h₃, -, hlook₃⟩ := rearrange_obj objectOf_keeps hnodup₂
  refine ⟨ms₃, ?_, ?_⟩
  · rw [readBack, h₁, h₂, h₃]
  · rw [hlook₃, hlook₂, hid₁]
    rfl

/-- **One line gives back one row.** -/
theorem readRow_line (view : View) {row : StoredRow} (h : row ∈ view.sorted) (lineNo : Nat) :
    readRow N lineNo (canonicalStringify N (withId row.1 row.2)) = .ok (readBack row) := by
  obtain ⟨ms, hobj, hid⟩ := view.readBack_obj h
  have hne := view.idNonEmpty row.1 row.2 (View.mem_sorted.mp h)
  have hparse : JSON.parse N (canonicalStringify N (withId row.1 row.2)) = some (.obj ms) := by
    rw [parse_canonicalStringify, ← hobj]
    rfl
  rw [readRow, hparse]
  simp only [hid, hne, if_false]
  rw [← hobj]
  rfl

/-- No row is an empty line. -/
theorem canonicalStringify_ne_nil (v : Doc) : canonicalStringify N v ≠ [] := by
  obtain ⟨u, us, htext, -⟩ := @JSON.stringify_head N (sortKeys v)
  rw [canonicalStringify_eq, htext]
  nofun

/-- **The lines are read back** if each is. -/
theorem readRows_lines {rows : List StoredRow}
    (h : ∀ row ∈ rows, ∀ n,
      readRow N n (canonicalStringify N (withId row.1 row.2)) = .ok (readBack row)) :
    ∀ lineNo, readRows N lineNo (rows.map fun row => canonicalStringify N (withId row.1 row.2)) =
      .ok (rows.map readBack) := by
  induction rows with
  | nil => exact fun _ => rfl
  | cons row rows ih =>
    intro lineNo
    rw [List.map_cons, readRows, if_neg (canonicalStringify_ne_nil _), h row List.mem_cons_self,
      ih fun r hr => h r (List.mem_cons_of_mem row hr)]
    rfl

/-- The rows `restore` finds in a dump. -/
theorem restoreRows_dump (view : View) (hsep : view.NoSeparators) :
    restoreRows N (writeToSink N view.rows) = .ok (view.sorted.map readBack) := by
  have hlines : writeToSink N view.rows = (view.sorted.map fun row =>
      canonicalStringify N (withId row.1 row.2)).flatMap fun line => line ++ [10] := by
    rw [writeToSink_eq, List.flatMap_map]
  rw [restoreRows, hlines, readLines_dump, readRows_lines fun row hrow => readRow_line view hrow]
  intro line hline u hu
  obtain ⟨row, hrow, rfl⟩ := List.mem_map.mp hline
  exact line_noBreak (hsep row.1 row.2 (View.mem_sorted.mp hrow)) hu

/-! ## What a dump determines -/

/-- What a dump shows of a row: its members with `_id` set, in order. -/
def shown (row : StoredRow) : StoredRow := (row.1, sortKeys (withId row.1 row.2))

/-- What is shown of a row names its key. -/
theorem View.shown_id (view : View) {row : StoredRow} (h : row ∈ view.sorted) :
    (shown row).2.member (js "_id") = some (.str row.1) := by
  obtain ⟨ms, hms, hnodup, hid⟩ := view.withId_obj h
  obtain ⟨ms', hms', -, hlook⟩ := sortKeys_obj hnodup
  rw [shown, hms, hms', member, hlook, hid]
  rfl

/-- Two texts that agree up to their first newline agree there. -/
theorem cut_newline {x y r s : JsString} (hx : (10 : Fin 65536) ∉ x) (hy : (10 : Fin 65536) ∉ y)
    (h : x ++ 10 :: r = y ++ 10 :: s) : x = y ∧ r = s := by
  induction x generalizing y with
  | nil =>
    cases y with
    | nil => exact ⟨rfl, (List.cons.inj h).2⟩
    | cons v y => exact absurd ((List.cons.inj h).1 ▸ List.mem_cons_self) hy
  | cons u x ih =>
    cases y with
    | nil => exact absurd ((List.cons.inj h).1 ▸ List.mem_cons_self) hx
    | cons v y =>
      rw [List.mem_cons, not_or] at hx hy
      obtain ⟨rfl, hrest⟩ := List.cons.inj h
      obtain ⟨rfl, hr⟩ := ih hx.2 hy.2 hrest
      exact ⟨rfl, hr⟩

/-- A text tells its lines. -/
theorem lines_injective {xs ys : List JsString} (hxs : ∀ x ∈ xs, (10 : Fin 65536) ∉ x)
    (hys : ∀ y ∈ ys, (10 : Fin 65536) ∉ y)
    (h : (xs.flatMap fun x => x ++ [10]) = ys.flatMap fun y => y ++ [10]) : xs = ys := by
  induction xs generalizing ys with
  | nil =>
    cases ys with
    | nil => rfl
    | cons y ys => simp at h
  | cons x xs ih =>
    cases ys with
    | nil => simp at h
    | cons y ys =>
      rw [List.flatMap_cons, List.flatMap_cons, List.append_assoc, List.append_assoc,
        List.singleton_append, List.singleton_append] at h
      obtain ⟨rfl, hrest⟩ := cut_newline (hxs x List.mem_cons_self) (hys y List.mem_cons_self) h
      rw [ih (fun z hz => hxs z (List.mem_cons_of_mem x hz))
        (fun z hz => hys z (List.mem_cons_of_mem x hz)) hrest]

/-- Rows that show the same are stored under the same ids. -/
theorem shown_injective {view view' : View} {xs ys : List StoredRow} (hxs : ∀ x ∈ xs, x ∈ view.sorted)
    (hys : ∀ y ∈ ys, y ∈ view'.sorted)
    (h : xs.map (fun x => (shown x).2) = ys.map fun y => (shown y).2) :
    xs.map shown = ys.map shown := by
  induction xs generalizing ys with
  | nil =>
    cases ys with
    | nil => rfl
    | cons y ys => simp at h
  | cons x xs ih =>
    cases ys with
    | nil => simp at h
    | cons y ys =>
      rw [List.map_cons, List.map_cons, List.cons.injEq] at h
      have hx := view.shown_id (hxs x List.mem_cons_self)
      rw [h.1, view'.shown_id (hys y List.mem_cons_self)] at hx
      have hid : x.1 = y.1 := by
        simpa using hx.symm
      rw [List.map_cons, List.map_cons, ih (fun z hz => hxs z (List.mem_cons_of_mem x hz))
        (fun z hz => hys z (List.mem_cons_of_mem y hz)) h.2]
      congr 1
      exact Prod.ext hid h.1

/-- **Two views dump alike** iff the same rows are shown. -/
theorem dump_eq_iff_shown (view view' : View) :
    writeToSink N view.rows = writeToSink N view'.rows ↔
      view.sorted.map shown = view'.sorted.map shown := by
  have hline : ∀ row : StoredRow, canonicalStringify N (withId row.1 row.2) =
      JSON.stringify N (shown row).2 := fun row => canonicalStringify_eq _
  have hdump : ∀ v : View, writeToSink N v.rows =
      (v.sorted.map fun row => JSON.stringify N (shown row).2).flatMap fun line => line ++ [10] := by
    intro v
    rw [writeToSink_eq, List.flatMap_map]
    simp only [hline]
  constructor
  · intro h
    rw [hdump, hdump] at h
    have hno : ∀ v : View, ∀ line ∈ v.sorted.map fun row => JSON.stringify N (shown row).2,
        (10 : Fin 65536) ∉ line := by
      intro v line hl
      obtain ⟨row, -, rfl⟩ := List.mem_map.mp hl
      rw [← hline]
      exact line_noNewline
    have hlines := lines_injective (hno view) (hno view') h
    have htrees := List.map_injective_iff.mpr (JSON.stringify_injective (N := N))
    refine shown_injective (fun x hx => hx) (fun y hy => hy) (htrees ?_)
    rw [List.map_map, List.map_map]
    exact hlines
  · intro h
    have hsplit : ∀ v : View, (v.sorted.map fun row => JSON.stringify N (shown row).2) =
        (v.sorted.map shown).map fun row => JSON.stringify N row.2 := by
      intro v
      rw [List.map_map]
      rfl
    rw [hdump, hdump, hsplit, hsplit, h]

/-- Equal as JSON, where both are present or both are absent. -/
def SameRow : Option Doc → Option Doc → Prop
  | none, none => True
  | some a, some b => jsonValueEqual a b = true
  | _, _ => False

/-- Rows are equal as JSON iff they are with sorted keys. -/
theorem sameRow_iff {a b : Option Doc} (ha : ∀ x, a = some x → x.wf = true)
    (hb : ∀ x, b = some x → x.wf = true) : SameRow a b ↔ a.map sortKeys = b.map sortKeys := by
  cases a with
  | none => cases b <;> simp [SameRow]
  | some x =>
    cases b with
    | none => simp [SameRow]
    | some y =>
      rw [SameRow, jsonValueEqual_iff x y (ha x rfl) (hb y rfl), Option.map_some, Option.map_some,
        Option.some.injEq]

/-- Rows are shown under their keys. -/
theorem View.keys_shown (view : View) :
    (view.sorted.map shown).map Prod.fst = view.sorted.map Prod.fst := by
  rw [List.map_map]
  rfl

/-- Each under its own. -/
theorem View.lookup_shown (view : View) (id : JsString) :
    (view.sorted.map shown).lookup id = (view.rows.get id).map fun row => sortKeys (withId id row) := by
  have hnodup : ((view.sorted.map shown).map Prod.fst).Nodup := by
    rw [view.keys_shown]
    exact view.sorted_nodup
  refine Option.ext fun x => ?_
  rw [Option.map_eq_some_iff]
  constructor
  · intro hx
    obtain ⟨row, hrow, heq⟩ := List.mem_map.mp (mem_of_lookup hx)
    obtain ⟨rfl, rfl⟩ := Prod.mk.inj heq
    exact ⟨row.2, View.mem_sorted.mp hrow, rfl⟩
  · rintro ⟨row, hrow, rfl⟩
    have hmem : (id, row) ∈ view.sorted := View.mem_sorted.mpr hrow
    exact lookup_of_mem hnodup (List.mem_map.mpr ⟨(id, row), hmem, rfl⟩)

/-- Views that show the same rows show them in the same order. -/
theorem shown_eq_iff (view view' : View) : view.sorted.map shown = view'.sorted.map shown ↔
    ∀ id, (view.rows.get id).map (fun row => sortKeys (withId id row)) =
      (view'.rows.get id).map fun row => sortKeys (withId id row) := by
  have hnodup : ∀ v : View, ((v.sorted.map shown).map Prod.fst).Nodup := by
    intro v
    rw [v.keys_shown]
    exact v.sorted_nodup
  have hsorted : ∀ v : View, (v.sorted.map shown).Pairwise fun a b => a.1 ≤ b.1 := by
    intro v
    rw [List.pairwise_map]
    exact sortMembers_sorted unitOrder v.rows.entries
  constructor
  · intro h id
    rw [← View.lookup_shown, ← View.lookup_shown, h]
  · intro h
    have hperm : (view.sorted.map shown).Perm (view'.sorted.map shown) := by
      refine (List.perm_ext_iff_of_nodup (List.Nodup.of_map _ (hnodup view))
        (List.Nodup.of_map _ (hnodup view'))).mpr fun row => ?_
      have hlook : (view.sorted.map shown).lookup row.1 = (view'.sorted.map shown).lookup row.1 := by
        rw [View.lookup_shown, View.lookup_shown, h]
      constructor
      · intro hrow
        exact mem_of_lookup (hlook ▸ lookup_of_mem (hnodup view) hrow)
      · intro hrow
        exact mem_of_lookup (hlook ▸ lookup_of_mem (hnodup view') hrow)
    refine List.Perm.eq_of_pairwise (fun a b ha hb hab hba => ?_) (hsorted view) (hsorted view') hperm
    exact eq_of_key_eq (hnodup view') (hperm.mem_iff.mp ha) hb (le_antisymm hab hba)

/-- **One dump, one view**: `_id` apart, which the dump overwrites. -/
theorem dump_eq_iff (view view' : View) : writeToSink N view.rows = writeToSink N view'.rows ↔
    ∀ id, SameRow ((view.rows.get id).map (withId id)) ((view'.rows.get id).map (withId id)) := by
  have hwf : ∀ (v : View) (id : JsString) (x : Doc), (v.rows.get id).map (withId id) = some x →
      x.wf = true := by
    intro v id x hx
    obtain ⟨row, hrow, rfl⟩ := Option.map_eq_some_iff.mp hx
    exact Baerly.withId_wf (v.isObject id row hrow) (v.wf id row hrow)
  rw [dump_eq_iff_shown, shown_eq_iff]
  refine forall_congr' fun id => ?_
  rw [sameRow_iff (hwf view id) (hwf view' id), Option.map_map, Option.map_map]
  rfl

/-! ## Restoring -/

/-- The entries a fresh log holds after the rows were committed one by one. -/
def Restores (collection : JsString) : List StoredRow → List LogEntry → Prop :=
  List.Forall₂ fun row e => ∃ session ms seq, e = mintEntry session ms (restoreInput collection row) seq

/-- A fold of inserts sets the rows one after another. -/
theorem fold_restores {collection : JsString} {rows : List StoredRow} {es : List LogEntry}
    (h : Restores collection rows es) (m : Rows) : foldLogEntriesOnto collection none m es =
      rows.foldl (fun m row => m.set row.1 row.2) m := by
  induction h generalizing m with
  | nil => rfl
  | cons he _ ih =>
    obtain ⟨session, ms, seq, rfl⟩ := he
    rw [List.foldl_cons, ← ih]
    show foldLogEntriesOnto collection none (foldEntry collection none m _) _ = _
    congr 1
    simp [foldEntry, mintEntry, restoreInput]

/-- With distinct keys each row is found. -/
theorem get_ofList_iff {rows : List StoredRow} (hrows : (rows.map Prod.fst).Nodup) {id : JsString}
    {row : Doc} : (InsMap.ofList rows : Rows).get id = some row ↔ (id, row) ∈ rows := by
  rw [InsMap.get_ofList hrows]
  exact ⟨InsMap.mem_of_lookup_eq_some, InsMap.lookup_eq_some_of_mem hrows⟩

/-- A row that names its id is not changed by setting it. -/
theorem spreadId_of_lookup {ms : List (JsString × Doc)} (hms : (ms.map Prod.fst).Nodup)
    {id : JsString} (hid : ms.lookup (js "_id") = some (.str id)) : spreadId ms id = ms := by
  have hmem := mem_of_lookup hid
  unfold spreadId
  rw [if_pos (List.any_eq_true.mpr ⟨_, hmem, by simp⟩)]
  refine (List.map_congr_left fun m hm => ?_).trans (List.map_id ms)
  by_cases hkey : m.1 = js "_id"
  · rw [if_pos hkey, eq_of_key_eq hms hm hmem hkey]
    rfl
  · rw [if_neg hkey]
    rfl

/-- Rows are read back under their keys. -/
theorem View.keys_readBack (view : View) :
    (view.sorted.map readBack).map Prod.fst = view.sorted.map Prod.fst := by
  rw [List.map_map]
  rfl

/-- A row that is read back is well formed. -/
theorem View.readBack_wf (view : View) {row : StoredRow} (h : row ∈ view.sorted) :
    (readBack row).2.wf = true :=
  rearrange_wf objectOf_keeps _ (sortKeys_wf _ (view.withId_wf h))

/-- The collection a dump is restored to. -/
def View.restored (view : View) : View where
  rows := InsMap.ofList (view.sorted.map readBack)
  isObject id row h := by
    have hnodup := view.sorted_nodup
    rw [← view.keys_readBack] at hnodup
    obtain ⟨r, hr, heq⟩ := List.mem_map.mp ((get_ofList_iff hnodup).mp h)
    obtain ⟨ms, hms, -⟩ := view.readBack_obj hr
    rw [heq] at hms
    exact ⟨ms, hms⟩
  wf id row h := by
    have hnodup := view.sorted_nodup
    rw [← view.keys_readBack] at hnodup
    obtain ⟨r, hr, heq⟩ := List.mem_map.mp ((get_ofList_iff hnodup).mp h)
    have hwf := view.readBack_wf hr
    rw [heq] at hwf
    exact hwf
  idNonEmpty id row h := by
    have hnodup := view.sorted_nodup
    rw [← view.keys_readBack] at hnodup
    obtain ⟨r, hr, heq⟩ := List.mem_map.mp ((get_ofList_iff hnodup).mp h)
    have hid : r.1 = id := congrArg Prod.fst heq
    rw [← hid]
    exact view.idNonEmpty r.1 r.2 (View.mem_sorted.mp hr)

/-- The restored view has the rows read back. -/
theorem View.restored_get (view : View) {id : JsString} {row : Doc} :
    view.restored.rows.get id = some row ↔
      ∃ stored, view.rows.get id = some stored ∧ row = (readBack (id, stored)).2 := by
  have hnodup := view.sorted_nodup
  rw [← view.keys_readBack] at hnodup
  rw [View.restored, get_ofList_iff hnodup, List.mem_map]
  constructor
  · rintro ⟨r, hr, heq⟩
    have hid : r.1 = id := congrArg Prod.fst heq
    subst hid
    exact ⟨r.2, View.mem_sorted.mp hr, (congrArg Prod.snd heq).symm⟩
  · rintro ⟨stored, hstored, rfl⟩
    exact ⟨(id, stored), View.mem_sorted.mpr hstored, rfl⟩

/-- A row that is read back names its own key. -/
theorem View.withId_readBack (view : View) {row : StoredRow} (h : row ∈ view.sorted) :
    withId row.1 (readBack row).2 = (readBack row).2 := by
  obtain ⟨ms, hms, hid⟩ := view.readBack_obj h
  have hwf := view.readBack_wf h
  rw [hms, wf_obj] at hwf
  rw [hms, withId, spreadId_of_lookup hwf.1 hid]

/-- **Restored rows show what the stored rows showed.** -/
theorem View.readBack_same (view : View) {row : StoredRow} (h : row ∈ view.sorted) :
    jsonValueEqual (readBack row).2 (withId row.1 row.2) = true := by
  have hwf := view.withId_wf h
  rw [jsonValueEqual_iff _ _ (view.readBack_wf h) hwf, readBack,
    sortKeys_build _ (sortKeys_wf _ hwf), sortKeys_sortKeys _ hwf]

/-- **A restored view dumps to the same bytes.** -/
theorem dump_restored (view : View) :
    writeToSink N view.restored.rows = writeToSink N view.rows := by
  rw [dump_eq_iff]
  intro id
  cases hget : view.rows.get id with
  | none =>
    have hnone : view.restored.rows.get id = none := by
      rw [Option.eq_none_iff_forall_ne_some]
      intro row hrow
      obtain ⟨stored, hstored, -⟩ := view.restored_get.mp hrow
      rw [hget] at hstored
      cases hstored
    rw [hnone]
    trivial
  | some stored =>
    have hmem : (id, stored) ∈ view.sorted := View.mem_sorted.mpr hget
    rw [view.restored_get.mpr ⟨stored, hget, rfl⟩]
    show jsonValueEqual (withId id (readBack (id, stored)).2) (withId id stored) = true
    rw [view.withId_readBack hmem]
    exact view.readBack_same hmem

/-- A restored row passes the writer's own checks. -/
theorem precheck_restoreInput {collection : JsString} {row : StoredRow} {ms : List (JsString × Doc)}
    (hrow : row.2 = .obj ms) (hid : ms.lookup (js "_id") = some (.str row.1)) {cfg : WriterConfig}
    (hdoc : assertDocId cfg.normalizeNfc row.1 = .ok ()) :
    (restoreInput collection row).precheck cfg = .ok () := by
  have hpost : assertPostImageIdentity row.1 (some row.2) = .ok () := by
    rw [hrow]
    simp only [assertPostImageIdentity, hid, if_true]
  have hop : ¬ (restoreInput collection row).op = .D := by
    show ¬ LogOp.I = LogOp.D
    decide
  rw [CommitInput.precheck, if_neg hop]
  show (assertDocId cfg.normalizeNfc row.1).bind (fun _ =>
    (assertPostImageIdentity row.1 (some row.2)).bind fun _ => .ok ()) = .ok ()
  rw [hdoc, hpost]
  rfl

/-- **Dump and restore.**  A dump without line separators in it reads back as its rows, one per id,
    `_id` set to the key; committed to a fresh log they dump to the same text.  And any two views
    dump to the same text iff they hold the same rows once `_id` is set. -/
theorem dump_restore (N : NumberText) (collection : JsString) (view : View) :
    (view.NoSeparators → ∃ rows, restoreRows N (writeToSink N view.rows) = .ok rows ∧
      (rows.map Prod.fst).Nodup ∧
      (∀ id, SameRow (rows.lookup id) ((view.rows.get id).map (withId id))) ∧
      (∀ row ∈ rows, ∀ cfg : WriterConfig, assertDocId cfg.normalizeNfc row.1 = .ok () →
        (restoreInput collection row).precheck cfg = .ok ()) ∧
      ∀ es, Restores collection rows es →
        writeToSink N (foldLogEntriesOnto collection none InsMap.empty es) =
          writeToSink N view.rows) ∧
    ∀ other : View, writeToSink N view.rows = writeToSink N other.rows ↔
      ∀ id, SameRow ((view.rows.get id).map (withId id)) ((other.rows.get id).map (withId id)) := by
  refine ⟨fun hsep => ?_, dump_eq_iff view⟩
  have hnodup := view.sorted_nodup
  rw [← view.keys_readBack] at hnodup
  refine ⟨view.sorted.map readBack, restoreRows_dump view hsep, hnodup, fun id => ?_, ?_, ?_⟩
  · cases hget : view.rows.get id with
    | none =>
      have hnone : (view.sorted.map readBack).lookup id = none := by
        rw [Option.eq_none_iff_forall_ne_some]
        intro row hrow
        obtain ⟨r, hr, heq⟩ := List.mem_map.mp (mem_of_lookup hrow)
        have hid : r.1 = id := congrArg Prod.fst heq
        rw [← hid, View.mem_sorted.mp hr] at hget
        cases hget
      rw [hnone]
      trivial
    | some stored =>
      have hmem : (id, stored) ∈ view.sorted := View.mem_sorted.mpr hget
      have hlook : (view.sorted.map readBack).lookup id = some (readBack (id, stored)).2 :=
        lookup_of_mem hnodup (List.mem_map.mpr ⟨(id, stored), hmem, rfl⟩)
      rw [hlook]
      exact view.readBack_same hmem
  · intro row hrow cfg hdoc
    obtain ⟨r, hr, rfl⟩ := List.mem_map.mp hrow
    obtain ⟨ms, hms, hid⟩ := view.readBack_obj hr
    exact precheck_restoreInput hms hid hdoc
  · intro es hes
    rw [fold_restores hes]
    exact dump_restored view

/-- A view of one row. -/
def oneRow (id : JsString) (ms : List (JsString × Doc)) (hid : id ≠ [])
    (hms : (Json.obj ms : Doc).wf = true) : View where
  rows := ⟨[(id, .obj ms)], by simp⟩
  isObject _ row h := by
    have hmem := InsMap.mem_entries.mpr h
    rw [List.mem_singleton] at hmem
    exact ⟨ms, congrArg Prod.snd hmem⟩
  wf _ row h := by
    have hmem := InsMap.mem_entries.mpr h
    rw [List.mem_singleton] at hmem
    rw [show row = .obj ms from congrArg Prod.snd hmem]
    exact hms
  idNonEmpty _ row h := by
    have hmem := InsMap.mem_entries.mpr h
    rw [List.mem_singleton] at hmem
    obtain ⟨rfl, -⟩ := Prod.mk.inj hmem
    exact hid

/-- `{ "n": 0, "10": "é\n" }` under `r1`, without an `_id` of its own. -/
def plainView : View :=
  oneRow (js "r1") [(js "10", .str [233, 10]), (js "n", .num ⟨0, by decide⟩)] (by decide) (by decide)

/-- The hypothesis is met, and the dump is the line one expects. -/
theorem dump_restore_plainView : plainView.NoSeparators ∧
    writeToSink ordinalText plainView.rows =
      js "\x7b\"10\":\"" ++ 233 :: js "\\n\",\"_id\":\"r1\",\"n\":0\x7d\n" ∧
    ∃ rows, restoreRows ordinalText (writeToSink ordinalText plainView.rows) = .ok rows ∧
      (rows.map Prod.fst).Nodup ∧
      ∀ id, SameRow (rows.lookup id) ((plainView.rows.get id).map (withId id)) := by
  have hsep : plainView.NoSeparators := by
    intro id row h
    have hmem := InsMap.mem_entries.mpr h
    rw [show plainView.rows.entries = [(js "r1", .obj [(js "10", .str [233, 10]),
      (js "n", .num ⟨0, by decide⟩)])] from rfl, List.mem_singleton] at hmem
    obtain ⟨rfl, rfl⟩ := Prod.mk.inj hmem
    decide +kernel
  refine ⟨hsep, by decide +kernel, ?_⟩
  obtain ⟨rows, hrows, hnodup, hsame, -⟩ := (dump_restore ordinalText (js "notes") plainView).1 hsep
  exact ⟨rows, hrows, hnodup, hsame⟩

/-- A row whose string contains U+2028. -/
def separatorView : View :=
  oneRow (js "r1") [(js "s", .str [0x2028])] (by decide) (by decide)

/-- A row that stores an `_id` other than its key. -/
def staleIdView : View :=
  oneRow (js "r1") [(js "_id", .str (js "r0"))] (by decide) (by decide)

/-- The same row with its own `_id`. -/
def ownIdView : View :=
  oneRow (js "r1") [(js "_id", .str (js "r1"))] (by decide) (by decide)

/-- A stored `_id` is not seen in the dump, and a dump with U+2028 in it does not read back. -/
theorem dump_not_injective : (writeToSink ordinalText staleIdView.rows =
      writeToSink ordinalText ownIdView.rows ∧
    ¬ SameRow (staleIdView.rows.get (js "r1")) (ownIdView.rows.get (js "r1"))) ∧
    restoreRows ordinalText (writeToSink ordinalText separatorView.rows) =
      .error (.other "baerly admin restore: line 1 is not valid JSON") := by
  refine ⟨⟨by decide +kernel, ?_⟩, by decide +kernel⟩
  show ¬ (jsonValueEqual (.obj [(js "_id", .str (js "r0"))]) (.obj [(js "_id", .str (js "r1"))]) = true)
  decide +kernel

end Baerly
