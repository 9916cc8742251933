import Baerly.Errors
import Baerly.Lib.InsMap

/-
  Log entries and the fold (`protocol/src/log.ts`, `server/src/log-walk.ts`).

  PROGRAM: `foldLogEntriesOnto` applies a run of entries onto a doc-id-keyed map, and the
  compactor's own loop (`foldUpTo`) does the same but stops before the first entry that would
  add a row past its ceiling.

  SPEC: the fold of a history is determined by its lookups, not by the order in which a map
  happens to hold its rows: `foldLogEntriesOnto_congr`.  The compactor's loop is the fold of the
  prefix it applied (`foldUpTo_eq`).

  The optional envelope members no reader of this code consults (`before`, `key_old`) are left
  out: the writer never emits them.  The session is the random token of one commit call, here
  its number.
-/

namespace Baerly

/-! ## Entries -/

/-- `op`: insert, update, delete. -/
inductive LogOp where
  | I | U | D
  deriving DecidableEq, Repr

/-- The `lsn` cursor `<base32-time>_<session>_<seq>`, in its three parts. -/
structure Lsn where
  time : Nat
  session : Nat
  seq : Nat
  deriving DecidableEq, Repr

/-- `LogEntry`. -/
structure LogEntry where
  lsn : Lsn
  commitTs : Nat
  op : LogOp
  collection : JsString
  docId : JsString
  after : Option Doc
  origin : Option JsString
  session : Nat
  seq : Nat
  deriving DecidableEq

/-- `Map<doc_id, row>`. -/
abbrev Rows := InsMap JsString Doc

/-! ## The fold -/

/-- One iteration of `foldLogEntriesOnto`; `none` is an absent `docIdFilter`. -/
def foldEntry (collection : JsString) (docIdFilter : Option (List JsString)) (map : Rows)
    (entry : LogEntry) : Rows :=
  if entry.collection ≠ collection then map
  else if docIdFilter.any fun ids => !ids.contains entry.docId then map
  else
    match entry.op with
    | .I | .U =>
      match entry.after with
      | none => map
      | some doc => map.set entry.docId doc
    | .D => map.erase entry.docId

/-- `foldLogEntriesOnto(map, entries, {collection, docIdFilter})`. -/
def foldLogEntriesOnto (collection : JsString) (docIdFilter : Option (List JsString)) (map : Rows)
    (entries : List LogEntry) : Rows :=
  entries.foldl (foldEntry collection docIdFilter) map

/-- The effect of one entry on one lookup: `none` leaves the row alone. -/
def entryEffect (collection : JsString) (k : JsString) (entry : LogEntry) :
    Option (Option Doc) :=
  if entry.collection ≠ collection ∨ entry.docId ≠ k then none
  else
    match entry.op with
    | .D => some none
    | _ =>
      match entry.after with
      | none => none
      | some doc => some (some doc)

/-- **What one fold step does to a lookup.** -/
theorem get_foldEntry (collection : JsString) (map : Rows) (entry : LogEntry) (k : JsString) :
    (foldEntry collection none map entry).get k =
      (entryEffect collection k entry).getD (map.get k) := by
  obtain ⟨lsn, ts, op, coll, id, after, origin, session, seq⟩ := entry
  by_cases hc : coll ≠ collection
  · simp [foldEntry, entryEffect, hc]
  · by_cases hk : id = k
    · subst hk
      cases op <;> cases after <;> simp [foldEntry, entryEffect, hc]
    · have hk' : ¬ k = id := fun h => hk h.symm
      cases op <;> cases after <;> simp [foldEntry, entryEffect, hc, hk, hk']

/-- The fold only depends on what the map answers, not on the order of its rows. -/
theorem foldLogEntriesOnto_congr {collection : JsString} {m m' : Rows} (es : List LogEntry)
    (h : ∀ k, m.get k = m'.get k) (k : JsString) :
    (foldLogEntriesOnto collection none m es).get k =
      (foldLogEntriesOnto collection none m' es).get k := by
  induction es generalizing m m' with
  | nil => exact h k
  | cons e es ih =>
    refine ih ?_
    intro j
    rw [get_foldEntry, get_foldEntry, h j]

theorem foldLogEntriesOnto_append (collection : JsString) (f : Option (List JsString)) (m : Rows)
    (xs ys : List LogEntry) :
    foldLogEntriesOnto collection f m (xs ++ ys) =
      foldLogEntriesOnto collection f (foldLogEntriesOnto collection f m xs) ys :=
  List.foldl_append

/-! ## The compactor's loop -/

/-- The row-ceiling test of `compact`: this entry would add a row to a full snapshot. -/
def addsRowPast (collection : JsString) (ceiling : Option Nat) (base : Rows) (e : LogEntry) :
    Bool :=
  e.collection = collection ∧ e.op ≠ .D ∧ e.after.isSome ∧ !base.has e.docId ∧
    ceiling.any fun c => ¬ base.size < c

/-- Step 4 of `compact`: apply entries until one would add a row past the ceiling, counting the
    applied ones. -/
def foldUpTo (collection : JsString) (ceiling : Option Nat) :
    Rows → Nat → List LogEntry → Rows × Nat
  | base, applied, [] => (base, applied)
  | base, applied, e :: es =>
    if addsRowPast collection ceiling base e then (base, applied)
    else foldUpTo collection ceiling (foldEntry collection none base e) (applied + 1) es

/-- The loop is the fold of the prefix it counted. -/
theorem foldUpTo_eq (collection : JsString) (ceiling : Option Nat) (base : Rows) (n : Nat)
    (es : List LogEntry) :
    ∃ j, j ≤ es.length ∧ foldUpTo collection ceiling base n es =
      (foldLogEntriesOnto collection none base (es.take j), n + j) := by
  induction es generalizing base n with
  | nil => exact ⟨0, Nat.le_refl 0, rfl⟩
  | cons e es ih =>
    by_cases hstop : addsRowPast collection ceiling base e = true
    · refine ⟨0, Nat.zero_le _, ?_⟩
      rw [foldUpTo, if_pos hstop]
      rfl
    · obtain ⟨j, hj, heq⟩ := ih (foldEntry collection none base e) (n + 1)
      refine ⟨j + 1, by simpa using hj, ?_⟩
      rw [foldUpTo, if_neg hstop, heq, List.take_succ_cons]
      show _ = (foldLogEntriesOnto collection none (foldEntry collection none base e) (es.take j), _)
      rw [show n + 1 + j = n + (j + 1) by omega]

end Baerly
