import Baerly.Verify.Writer

/-
  A scan returns the rows of one committed prefix, and an insert newly inserts only an absent row.

  Both rest on one fact about `runReadRows`: what it folds is the committed prefix below the tail
  it found, provided no log object it read was a phantom.  That the tail it found is not a false
  one takes more, that the empty slot was empty because nothing was committed there.
-/

namespace Baerly

open Async

variable {codec : Codec} {c : Collection} {t : Nat} {w w' : World}

/-! ## Predicates over rows -/

theorem satisfies_of_matches {wire : PredicateWire} {doc : Doc} {b : Bool}
    (h : matchesWire wire doc = .ok b) : satisfies (some wire) doc = b := by
  unfold satisfies
  dsimp only
  rw [h]

theorem filterRows_eq {wire : PredicateWire} : ∀ (rows kept : List StoredRow),
    filterRows wire rows = .ok kept → kept = rows.filter fun row => satisfies (some wire) row.2 := by
  intro rows
  induction rows with
  | nil => intro kept h; cases h; rfl
  | cons row rows ih =>
    intro kept h
    unfold filterRows at h
    cases hmatch : matchesWire wire row.2 with
    | error e => rw [hmatch] at h; cases h
    | ok keep =>
      rw [hmatch] at h
      cases hrest : filterRows wire rows with
      | error e => rw [hrest] at h; cases h
      | ok rest =>
        rw [hrest] at h
        have hsat := satisfies_of_matches hmatch
        have hkept : (if keep = true then row :: rest else rest) = kept := by
          cases h
          rfl
        rw [← hkept, List.filter_cons, hsat, ih rest hrest]

/-- Every row is stored under its own `_id`. -/
def SelfNamed (rows : Rows) : Prop :=
  ∀ id doc, rows.get id = some doc → doc.member (js "_id") = some (.str id)

/-- The primary-key fast path finds what the scan would. -/
theorem fastPath_perm {wire : PredicateWire} {id : JsString} {docs : Rows}
    (hsingle : singleIdFromPredicate (some wire) = some id) (hnamed : SelfNamed docs) :
    (((docs.get id).map fun doc => (id, doc)).toList).Perm
      (docs.entries.filter fun row => satisfies (some wire) row.2) := by
  have hnodup : docs.entries.Nodup := List.Nodup.of_map _ docs.nodup
  have hone : (((docs.get id).map fun doc => (id, doc)).toList).Nodup := by
    cases docs.get id <;> simp
  refine (List.perm_ext_iff_of_nodup hone (hnodup.filter _)).mpr ?_
  rintro ⟨k, doc⟩
  rw [List.mem_filter, InsMap.mem_entries]
  have hsat := satisfies_of_matches (matchesWire_of_singleId hsingle doc)
  constructor
  · intro hmem
    simp only [Option.mem_toList, Option.map_eq_some_iff, Prod.mk.injEq] at hmem
    obtain ⟨doc', hget, rfl, rfl⟩ := hmem
    refine ⟨hget, ?_⟩
    rw [hsat]
    exact decide_eq_true (hnamed id doc' hget)
  · rintro ⟨hget, hkeep⟩
    rw [hsat] at hkeep
    have hid := of_decide_eq_true hkeep
    have hk := hnamed k doc hget
    rw [hid] at hk
    have heq : id = k := by
      simpa using hk
    subst heq
    simp [hget]

/-- **The predicate step**: the rows kept are those that satisfy the predicate. -/
theorem applyPredicate_perm {wire : Option PredicateWire} {docs : Rows} {kept : List StoredRow}
    (hnamed : SelfNamed docs) (h : applyPredicate wire docs = .ok kept) :
    kept.Perm (docs.entries.filter fun row => satisfies wire row.2) := by
  unfold applyPredicate at h
  split at h
  next id hsingle =>
    cases h
    cases wire with
    | none => cases hsingle
    | some p => exact fastPath_perm hsingle hnamed
  next =>
    cases wire with
    | none =>
      cases h
      simp [satisfies]
    | some p =>
      rw [filterRows_eq _ _ h]

/-- Ordering and cutting. -/
theorem applyOrderLimit_eq (state : QueryState) (rows : List StoredRow) :
    ∃ sorted : List StoredRow, sorted.Perm rows ∧
      applyOrderLimit state rows = takeLimit state.limit sorted := by
  cases horder : state.order with
  | none =>
    refine ⟨rows, .refl _, ?_⟩
    cases hlimit : state.limit <;> simp only [applyOrderLimit, takeLimit, horder, hlimit]
  | some order =>
    refine ⟨order.sort rows, order.perm rows, ?_⟩
    cases hlimit : state.limit <;> simp only [applyOrderLimit, takeLimit, horder, hlimit]

/-! ## Committed rows name themselves -/

theorem Inv.entryOk (h : Inv codec c w) {n : Nat} {e : LogEntry} (hn : w.hist[n]? = some e) :
    EntryOk n e := by
  obtain ⟨m, hm, guarded, hreq, _, _⟩ := h.committed n e hn
  have hok := (h.msgs m hm).req
  rw [hreq] at hok
  exact CreateOk.entry hok

/-- Folding entries whose post-images name their documents keeps rows self-named. -/
theorem SelfNamed.fold {collection : JsString} : ∀ (es : List LogEntry) (rows : Rows),
    SelfNamed rows → (∀ e ∈ es, ∃ n, EntryOk n e) →
      SelfNamed (foldLogEntriesOnto collection none rows es) := by
  intro es
  induction es with
  | nil => intro rows h _; exact h
  | cons e es ih =>
    intro rows h hes
    refine ih _ ?_ fun x hx => hes x (by simp [hx])
    obtain ⟨n, hok⟩ := hes e (by simp)
    intro id doc hget
    rw [get_foldEntry] at hget
    unfold entryEffect at hget
    split at hget
    · exact h id doc hget
    next hsame =>
      have hid : e.docId = id := by
        by_contra hne
        exact hsame (Or.inr hne)
      split at hget
      · cases hget
      next hop =>
        obtain ⟨img, himg, hmem⟩ := hok.image hop
        rw [himg] at hget
        cases hget
        rw [← hid]
        exact hmem

theorem Inv.selfNamed (h : Inv codec c w) (n : Nat) : SelfNamed (committedRows c w.hist n) := by
  refine SelfNamed.fold (w.hist.take n) InsMap.empty (fun id doc hget => ?_) fun e he => ?_
  · rw [InsMap.get_empty] at hget
    cases hget
  · obtain ⟨i, hi⟩ := List.getElem?_of_mem (List.mem_of_mem_take he)
    exact ⟨i, h.entryOk hi⟩

/-! ## The read -/

/-- No log object thread `t` read for this purpose was a phantom. -/
def NoPhantom (why : Purpose) (t : Nat) (w : World) : Prop :=
  ∀ n e k, Event.readLog t why n (some e) k ∈ w.trace → k = some e

theorem Exact.noPhantom {why : Purpose} (h : Exact why t w) : NoPhantom why t w :=
  fun n e k hmem => (h n (some e) k hmem).symm

theorem Honest.noPhantom {why : Purpose} (h : Honest t w) (hwhy : why.ofInsert = true) :
    NoPhantom why t w :=
  fun n e k hmem => h why n e k hmem hwhy

/-- Slots read without phantoms are the committed slice. -/
theorem answers_noPhantom {why : Purpose} {since n : Nat} {es : List LogEntry}
    (h : Answers (ReadFact t why since) w n es) (hno : NoPhantom why t w) :
    ∀ i e, es[i]? = some e → w.hist[n + i]? = some e := by
  intro i e hi
  obtain ⟨k, hmem, hk, _, _⟩ := (h i e hi).event
  exact hk e (hno _ e k hmem)

/-- What a read knows: it folded the committed prefix below `res.tail`. -/
structure ReadOk (c : Collection) (t : Nat) (why : Purpose) (since : Nat) (state : QueryState)
    (res : ReadRows) (w : World) : Prop where
  le_tail : res.tail ≤ w.tail
  fresh : Exact why t w → since ≤ res.tail
  rows : NoPhantom why t w → ∃ (docs : Rows) (kept : List StoredRow),
    (∀ id, docs.get id = (committedRows c w.hist res.tail).get id) ∧
    applyPredicate state.wire docs = .ok kept ∧ res.rows = applyOrderLimit state kept

theorem applyOrderLimit_nil (state : QueryState) : applyOrderLimit state [] = [] := by
  obtain ⟨sorted, hperm, heq⟩ := applyOrderLimit_eq state []
  rw [heq, hperm.eq_nil]
  unfold takeLimit
  split <;> simp

/-- An unprovisioned collection has no rows. -/
theorem readOk_unborn {why : Purpose} {since : Nat} {state : QueryState} (hsince : since = 0) :
    ReadOk c t why since state ⟨[], 0, none⟩ w where
  le_tail := Nat.zero_le _
  fresh := fun _ => Nat.le_of_eq hsince
  rows := by
    intro _
    refine ⟨InsMap.empty, [], fun id => rfl, ?_, (applyOrderLimit_nil state).symm⟩
    unfold applyPredicate
    split
    · rfl
    · split <;> rfl

/-- **Rule for `runReadRows`.** -/
theorem wp_runReadRows {why : Purpose} {state : QueryState} :
    (protocol codec c).wp t (runReadRows codec c why state) (fun r w' => Calm t w w' ∧
      ∀ res, r = .ok res → ReadOk c t why w.tail state res w') w := by
  refine Protocol.wp_seq wp_readCurrentJson ?_ fun e w₁ h => ⟨h.1, nofun⟩
  rintro (_ | head) w₁ ⟨hcalm₁, hread⟩
  · refine ⟨hcalm₁, fun res hres => ?_⟩
    cases hres
    obtain ⟨tail, _, hle, _, _, hzero⟩ := (hread none rfl).reads
    have htail := hzero rfl
    exact readOk_unborn (by omega)
  · have hm := (hread _ rfl).found head rfl
    have hstart : head.logSeqStart ≤ head.tailHint := hm.wf.start_le
    have htail₁ := hcalm₁.evolves.tail
    have hR := readRule codec c t why w.tail
    refine Protocol.wp_seq (wp_loadBase hm) ?_
      fun e w₂ h => ⟨hcalm₁.trans h.1.toCalm, nofun⟩
    rintro base w₂ ⟨hq₂, hbase⟩
    have htail₂ := hq₂.evolves.tail
    refine Protocol.wp_seq (wp_walkLogRange hR (by omega)) ?_
      fun e w₃ h => ⟨hcalm₁.trans (hq₂.trans h.1).toCalm, nofun⟩
    rintro entries w₃ ⟨hq₃, hwalk⟩
    obtain ⟨hlen, hans⟩ := hwalk entries rfl
    have htail₃ := hq₃.evolves.tail
    refine Protocol.wp_seq (wp_probeTailFrom hR (by omega)) ?_
      fun e w₄ h => ⟨hcalm₁.trans ((hq₂.trans hq₃).trans h.1).toCalm, nofun⟩
    rintro ⟨tail, probed⟩ w₄ ⟨hq₄, hprobe⟩
    obtain ⟨htail, hansP, hempty⟩ := hprobe tail probed rfl
    have hcalm := hcalm₁.trans ((hq₂.trans hq₃).trans hq₄).toCalm
    refine wp_check (fun kept hkept => ⟨hcalm, fun res hres => ?_⟩) fun e _ => ⟨hcalm, nofun⟩
    cases hres
    have hev : Evolves w₂ w₄ := (hq₃.trans hq₄).evolves
    have hle₂ : head.logSeqStart ≤ w₂.tail := by
      have := hm.hint_le
      omega
    have hmax : max head.logSeqStart head.tailHint = head.logSeqStart + entries.length := by omega
    -- the walk and the probe together answer the slots from the snapshot up to the tail
    have hall : Answers (ReadFact t why w.tail) w₄ head.logSeqStart (entries ++ probed) := by
      refine (hans.keep hR hq₄).append ?_
      rw [← hmax]
      exact hansP
    have hlenAll : head.logSeqStart + (entries ++ probed).length = tail := by
      rw [List.length_append]
      omega
    refine ⟨?_, ?_, ?_⟩
    · have hbound := answers_le_tail hall (Nat.le_trans hle₂ hev.tail)
      show tail ≤ w₄.tail
      omega
    · intro hexact
      obtain ⟨k, hmem, _, hsince, _⟩ := hempty.event
      exact hsince (hexact tail none k hmem).symm
    · intro hno
      refine ⟨_, kept, ?_, hkept, rfl⟩
      intro id
      have hbase₄ : ∀ id, base.get id = (committedRows c w₄.hist head.logSeqStart).get id := by
        intro id
        rw [hev.committedRows hle₂]
        exact hbase base rfl id
      have hfold := fold_slice (c := c) (entries ++ probed).length (Nat.le_refl _) hbase₄
        (answers_noPhantom hall hno) id
      rw [List.take_length, hlenAll, foldLogEntriesOnto_append] at hfold
      exact hfold

/-- What a scan owes. -/
theorem ReadOk.post {start : World} {state : QueryState} {res : ReadRows} (hinv : Inv codec c w)
    (h : ReadOk c t .scan start.tail state res w) : ReadPost c t state start (.ok res) w := by
  intro res' hres hexact
  cases hres
  obtain ⟨docs, kept, hget, hkept, hrows⟩ := h.rows hexact.noPhantom
  obtain ⟨sorted, hsorted, heq⟩ := applyOrderLimit_eq state kept
  refine ⟨res.tail, h.fresh hexact, h.le_tail, sorted, ?_, hrows.trans heq⟩
  have hnamed : SelfNamed docs := by
    intro id doc hd
    rw [hget id] at hd
    exact hinv.selfNamed res.tail id doc hd
  refine (hsorted.trans (applyPredicate_perm hnamed hkept)).trans ?_
  exact (InsMap.perm_of_get_eq hget).filter _

/-! ## Insert -/

/-- The check found no row: the guard is good. -/
theorem guardOk_insert {id : JsString} {since : Nat} {existing : ReadRows} (body : Doc)
    (minted : Bool) (h : ReadOk c t .check since ⟨some (idWire id), none, some 1⟩ existing w)
    (hnone : existing.rows.head? = none) :
    GuardOk c t (insertInput c id body existing.tail minted) w := by
  intro g hg
  cases hg
  refine ⟨h.le_tail, rfl, rfl, fun hon => ?_⟩
  obtain ⟨docs, kept, hget, hkept, hrows⟩ := h.rows (hon.noPhantom rfl)
  have hsingle : singleIdFromPredicate (some (idWire id)) = some id := by
    unfold idWire singleIdFromPredicate
    simp
  have hnil : kept = [] := by
    rw [hrows] at hnone
    cases kept with
    | nil => rfl
    | cons row rows =>
      have hsome : (applyOrderLimit ⟨some (idWire id), none, some 1⟩ (row :: rows)).head? =
          some row := rfl
      rw [hsome] at hnone
      cases hnone
  unfold applyPredicate at hkept
  rw [hsingle, hnil] at hkept
  dsimp only at hkept
  show (committedRows c w.hist existing.tail).get id = none
  rw [← hget id]
  cases hd : docs.get id with
  | none => rfl
  | some doc =>
    rw [hd] at hkept
    cases hkept

/-- **Rule for `runInsert`.** -/
theorem wp_runInsert {ctx : InsertContext} {members : List (JsString × Doc)} {uuidv7 : JsString}
    {mintedId : Option JsString} (hdead : AllDead t w) :
    (protocol codec c).wp t (runInsertOutcome codec c t ctx members uuidv7 mintedId)
      (InsertPost c t) w := by
  have hstop : ∀ w', Calm t w w' → ∀ e : Err, InsertPost c t (.error e) w' :=
    fun w' hcalm e _ _ => hdead.calm hcalm
  unfold runInsertOutcome
  refine wp_check (fun _ _ => ?_) fun e _ => hstop w (.refl t w) e
  dsimp only
  split
  · exact hstop w (.refl t w) _
  · split
    · exact hstop w (.refl t w) _
    · refine Protocol.wp_seq wp_runReadRows ?_ fun e w₁ h => hstop w₁ h.1 e
      rintro existing w₁ ⟨hcalm, hread⟩
      have hread' := hread existing rfl
      split
      · split
        · exact hdead.calm hcalm
        · exact hstop w₁ hcalm _
      next hnone =>
        split
        · exact hstop w₁ hcalm _
        · have hguard := guardOk_insert (.obj (spreadId members (resolveId members uuidv7)))
            mintedId.isSome hread' hnone
          refine Protocol.wp_seq (wp_commit hguard (hdead.calm hcalm)) ?_ fun e w₂ h => h.2.1
          rintro s w₂ ⟨hev, hpost, hfresh⟩
          refine ⟨hpost, fun hnew => ?_⟩
          obtain ⟨hid, hop, hcreate⟩ := hfresh s rfl hnew
          refine ⟨hid, hop, hcreate.le_tail, fun hon => ?_⟩
          have habs := (hcreate.insert rfl).2.2 hon
          rw [hid] at habs
          exact habs

end Baerly
