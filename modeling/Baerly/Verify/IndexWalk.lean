import Baerly.IndexWalk
import Baerly.Verify.Implies
import Baerly.Verify.Segments

/-
  What an index walk returns, against the full scan.
-/

namespace Baerly

open Async

variable {codec : Codec} {N : NumberText} {c : Collection}

/-! ## A collection at rest -/

/-- A collection nobody writes to while it is read: how it answers, the keys of its bucket, its
    manifest and the rows a full scan returns, each stored under an id the write path accepts. -/
structure Standing (codec : Codec) (c : Collection) where
  answer : (op : Op) → Resp op
  keys : List Key
  head : CurrentJson
  scanned : ReadRows
  read_head : (readCurrentJson c).eval answer = .ok (some head)
  read_rows : (runReadRows codec c .scan ⟨none, none, none⟩).eval answer = .ok scanned
  ids : ∀ row ∈ scanned.rows, assertStoredDocId row.1 = .ok ()

/-- The live rows. -/
def Standing.rows (S : Standing codec c) : List StoredRow := S.scanned.rows

/-- What the reads of the collection resolve with. -/
theorem Standing.reads (S : Standing codec c) : ∃ base entries tail probed,
    (loadBase codec c S.head).eval S.answer = .ok base ∧
    (walkLogRange c .scan S.head.logSeqStart S.head.tailHint).eval S.answer = .ok entries ∧
    (probeTailFrom c .scan (max S.head.logSeqStart S.head.tailHint)).eval S.answer =
      .ok (tail, probed) ∧
    S.rows = (foldLogEntriesOnto c.collectionName none
      (foldLogEntriesOnto c.collectionName none base entries) probed).entries := by
  have h : (Prog.bind (readCurrentJson c) _).eval S.answer = .ok S.scanned := S.read_rows
  rw [Prog.eval_bind, S.read_head] at h
  have h : (Prog.bind (loadBase codec c S.head) _).eval S.answer = .ok S.scanned := h
  rw [Prog.eval_bind] at h
  obtain ⟨base, hbase, h⟩ := except_bind_ok h
  have h : (Prog.bind (walkLogRange c .scan S.head.logSeqStart S.head.tailHint) _).eval S.answer =
    .ok S.scanned := h
  rw [Prog.eval_bind] at h
  obtain ⟨entries, hentries, h⟩ := except_bind_ok h
  have h : (Prog.bind (probeTailFrom c .scan (max S.head.logSeqStart S.head.tailHint)) _).eval
    S.answer = .ok S.scanned := h
  rw [Prog.eval_bind] at h
  obtain ⟨⟨tail, probed⟩, hprobe, h⟩ := except_bind_ok h
  have hscanned := Except.ok.inj h
  refine ⟨base, entries, tail, probed, hbase, hentries, hprobe, ?_⟩
  rw [Standing.rows, ← hscanned]
  rfl

/-! ## The scoped fold -/

/-- One entry, folded for some ids only. -/
theorem get_foldEntry_scoped (collection : JsString) (ids : List JsString) (map : Rows)
    (entry : LogEntry) (k : JsString) :
    (foldEntry collection (some ids) map entry).get k =
      if k ∈ ids then (entryEffect collection k entry).getD (map.get k) else map.get k := by
  by_cases hid : entry.docId ∈ ids
  · -- the filter lets the entry pass, and the entry touches its own row only
    have hpass : foldEntry collection (some ids) map entry = foldEntry collection none map entry := by
      simp [foldEntry, hid]
    rw [hpass, get_foldEntry]
    by_cases hk : k ∈ ids
    · rw [if_pos hk]
    · have hne : entry.docId ≠ k := fun heq => hk (heq ▸ hid)
      rw [if_neg hk, entryEffect, if_pos (Or.inr hne)]
      rfl
  · have hskip : foldEntry collection (some ids) map entry = map := by
      simp [foldEntry, hid]
    rw [hskip]
    by_cases hk : k ∈ ids
    · have hne : entry.docId ≠ k := fun heq => hid (heq ▸ hk)
      rw [if_pos hk, entryEffect, if_pos (Or.inr hne)]
      rfl
    · rw [if_neg hk]

/-- The rows of some ids only. -/
def Scoped (ids : List JsString) (part whole : Rows) : Prop :=
  ∀ k, part.get k = if k ∈ ids then whole.get k else none

/-- **Folding a part is the part of the fold.** -/
theorem Scoped.fold {collection : JsString} {ids : List JsString} (entries : List LogEntry) :
    ∀ {part whole : Rows}, Scoped ids part whole →
      Scoped ids (foldLogEntriesOnto collection (some ids) part entries)
        (foldLogEntriesOnto collection none whole entries) := by
  induction entries with
  | nil => exact id
  | cons entry entries ih =>
    intro part whole h
    refine ih fun k => ?_
    rw [get_foldEntry_scoped, get_foldEntry, h k]
    by_cases hk : k ∈ ids
    · simp [hk]
    · simp [hk]

theorem Scoped.fold₂ {ids : List JsString} {part whole : Rows} (h : Scoped ids part whole)
    (collection : JsString) (entries probed : List LogEntry) :
    Scoped ids
      (foldLogEntriesOnto collection (some ids)
        (foldLogEntriesOnto collection (some ids) part entries) probed)
      (foldLogEntriesOnto collection none (foldLogEntriesOnto collection none whole entries)
        probed) :=
  (h.fold entries).fold probed

theorem get_seedRow (base docs : Rows) (id k : JsString) :
    (seedRow base docs id).get k = if k = id then (base.get k).or (docs.get k) else docs.get k := by
  unfold seedRow
  by_cases hk : k = id
  · subst hk
    cases base.get k <;> simp
  · cases base.get id <;> simp [hk]

theorem get_seedRows (base : Rows) (ids : List JsString) (k : JsString) : ∀ docs : Rows,
    (ids.foldl (seedRow base) docs).get k =
      if k ∈ ids then (base.get k).or (docs.get k) else docs.get k := by
  induction ids with
  | nil => exact fun docs => rfl
  | cons id ids ih =>
    intro docs
    rw [List.foldl_cons, ih, get_seedRow]
    by_cases hk : k = id
    · subst hk
      cases base.get k <;> simp
    · simp [hk]

theorem scoped_seedRows (base : Rows) (ids : List JsString) :
    Scoped ids (seedRows base ids) base := by
  intro k
  rw [seedRows, get_seedRows]
  simp

/-! ## The rows a predicate keeps -/

theorem filterRows_of_ok {wire : PredicateWire} {rows : List StoredRow}
    (h : ∀ row ∈ rows, ∃ b, matchesWire wire row.2 = .ok b) :
    ∃ kept, filterRows wire rows = .ok kept ∧ kept.Sublist rows ∧
      ∀ row, row ∈ kept ↔ row ∈ rows ∧ matchesWire wire row.2 = .ok true := by
  induction rows with
  | nil => exact ⟨[], rfl, List.Sublist.refl _, by simp⟩
  | cons row rows ih =>
    obtain ⟨rest, hrest, hsub, hmem⟩ := ih fun r hr => h r (List.mem_cons_of_mem row hr)
    obtain ⟨keep, hkeep⟩ := h row List.mem_cons_self
    refine ⟨if keep then row :: rest else rest, ?_, ?_, ?_⟩
    · rw [filterRows, hkeep, hrest]
      rfl
    · cases keep with
      | true => exact hsub.cons_cons row
      | false => exact hsub.cons row
    · intro r
      cases keep with
      | true =>
        rw [if_pos rfl, List.mem_cons, List.mem_cons, hmem]
        constructor
        · rintro (rfl | hr)
          · exact ⟨Or.inl rfl, hkeep⟩
          · exact ⟨Or.inr hr.1, hr.2⟩
        · rintro ⟨rfl | hr, hr'⟩
          · exact Or.inl rfl
          · exact Or.inr ⟨hr, hr'⟩
      | false =>
        rw [if_neg (by decide), List.mem_cons, hmem]
        constructor
        · exact fun hr => ⟨Or.inr hr.1, hr.2⟩
        · rintro ⟨rfl | hr, hr'⟩
          · rw [hkeep] at hr'
            exact absurd hr' (by decide)
          · exact ⟨hr, hr'⟩

theorem ok_of_filterRows {wire : PredicateWire} {rows : List StoredRow} :
    ∀ {kept : List StoredRow}, filterRows wire rows = .ok kept →
      ∀ row ∈ rows, ∃ b, matchesWire wire row.2 = .ok b := by
  induction rows with
  | nil => exact fun _ row hrow => absurd hrow List.not_mem_nil
  | cons row rows ih =>
    intro kept h r hr
    obtain ⟨keep, hkeep, h⟩ := except_bind_ok h
    obtain ⟨rest, hrest, h⟩ := except_bind_ok h
    rcases List.mem_cons.mp hr with rfl | hr
    · exact ⟨keep, hkeep⟩
    · exact ih hrest r hr

/-! ## Walk against scan -/

/-- The walk returns exactly the live rows that match. -/
def ReturnsMatching (N : NumberText) (S : Standing codec c) (wire : PredicateWire)
    (plan : IndexWalkPlan) : Prop :=
  ∃ read, (runIndexWalkPlan codec N c S.keys S.head (some wire) plan).eval S.answer = .ok read ∧
    (read.rows.map Prod.fst).Nodup ∧
    ∀ row, row ∈ read.rows ↔ row ∈ S.rows ∧ matchesWire wire row.2 = .ok true

/-- What the walk evaluates to: the predicate on the live rows whose id it collected. -/
theorem walk_eval (S : Standing codec c) (wire : PredicateWire) (plan : IndexWalkPlan) :
    ∃ docs : Rows, (∀ row, row ∈ docs.entries ↔ row ∈ S.rows ∧ row.1 ∈ walkIds N c S.keys plan) ∧
      ∃ (tail : Nat) (folded : Option FoldedState),
        (runIndexWalkPlan codec N c S.keys S.head (some wire) plan).eval S.answer =
          (filterRows wire docs.entries).bind fun rows => .ok ⟨rows, tail, folded⟩ := by
  obtain ⟨base, entries, tail, probed, hbase, hentries, hprobe, hrows⟩ := S.reads
  unfold runIndexWalkPlan
  generalize walkIds N c S.keys plan = ids
  by_cases hids : ids = []
  · refine ⟨InsMap.empty, ?_, tail, none, ?_⟩
    · intro row
      rw [hids]
      simp [InsMap.empty]
    · show (Prog.bind (probeTailFrom c .scan _) _).eval S.answer = _
      rw [Prog.eval_bind, hprobe]
      show (if ids = [] then _ else _ : Task ReadRows).eval S.answer = _
      rw [if_pos hids]
      rfl
  · have hscope := (scoped_seedRows base ids).fold₂ c.collectionName entries probed
    refine ⟨foldLogEntriesOnto c.collectionName (some ids) (foldLogEntriesOnto c.collectionName
      (some ids) (seedRows base ids) entries) probed, ?_, tail,
      some ⟨S.head, base, entries ++ probed⟩, ?_⟩
    · rintro ⟨k, doc⟩
      rw [InsMap.mem_entries, hscope k, hrows, InsMap.mem_entries]
      by_cases hk : k ∈ ids
      · simp [hk]
      · simp [hk]
    · show (Prog.bind (probeTailFrom c .scan _) _).eval S.answer = _
      rw [Prog.eval_bind, hprobe]
      show (if ids = [] then _ else _ : Task ReadRows).eval S.answer = _
      rw [if_neg hids]
      show (Prog.bind (loadBase codec c S.head) _).eval S.answer = _
      rw [Prog.eval_bind, hbase]
      show (Prog.bind (walkLogRange c .scan _ _) _).eval S.answer = _
      rw [Prog.eval_bind, hentries]
      show (Prog.bind (Task.ofExcept (filterRows wire _)) _).eval S.answer = _
      rw [Prog.eval_bind]
      generalize filterRows wire _ = kept
      cases kept <;> rfl

/-- **When the walk agrees with the scan**: it collects the id of every live row that matches, and
    the predicate can be evaluated on every live row whose id it collects. -/
theorem returnsMatching_iff (S : Standing codec c) (wire : PredicateWire) (plan : IndexWalkPlan) :
    ReturnsMatching N S wire plan ↔
      (∀ row ∈ S.rows, matchesWire wire row.2 = .ok true → row.1 ∈ walkIds N c S.keys plan) ∧
      (∀ row ∈ S.rows, row.1 ∈ walkIds N c S.keys plan → ∃ b, matchesWire wire row.2 = .ok b) := by
  obtain ⟨docs, hdocs, tail, folded, heval⟩ := walk_eval (N := N) S wire plan
  rw [ReturnsMatching, heval]
  constructor
  · rintro ⟨read, hread, -, hmem⟩
    obtain ⟨kept, hkept, hread⟩ := except_bind_ok hread
    have hall := ok_of_filterRows hkept
    obtain ⟨kept', hkept', -, hmem'⟩ := filterRows_of_ok hall
    have hrows : read.rows = kept' := by
      rw [hkept] at hkept'
      rw [← Except.ok.inj hread, Except.ok.inj hkept']
    refine ⟨fun row hrow hmatch => ?_, fun row hrow hid => hall row ((hdocs row).mpr ⟨hrow, hid⟩)⟩
    have hin : row ∈ read.rows := (hmem row).mpr ⟨hrow, hmatch⟩
    rw [hrows] at hin
    exact ((hdocs row).mp ((hmem' row).mp hin).1).2
  · rintro ⟨hcomplete, hdefined⟩
    obtain ⟨kept, hkept, hsub, hmem⟩ := filterRows_of_ok fun row hrow =>
      hdefined row ((hdocs row).mp hrow).1 ((hdocs row).mp hrow).2
    refine ⟨⟨kept, tail, folded⟩, by rw [hkept]; rfl, (hsub.map Prod.fst).nodup docs.nodup, ?_⟩
    intro row
    show row ∈ kept ↔ _
    rw [hmem, hdocs]
    constructor
    · rintro ⟨⟨hrow, -⟩, hmatch⟩
      exact ⟨hrow, hmatch⟩
    · rintro ⟨hrow, hmatch⟩
      exact ⟨⟨hrow, hcomplete row hrow hmatch⟩, hmatch⟩

end Baerly
