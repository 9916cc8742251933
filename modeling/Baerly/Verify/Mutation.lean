import Baerly.Mutation
import Baerly.Verify.Safety
import Baerly.Verify.SnapshotManifest

/-
  Rows and their identity, through every verb.

  SPEC (`pointLookup_exact`): whatever inserts, updates, replaces and deletes have been called, and
  however they interleave, every row is stored under its own `_id`, and looking a row up by its key
  finds what filtering all rows finds.

  The verbs add nothing to what the system can do: their reads are reads and their commits are
  commits (`PublicState.next_pool`).  So every public state is a state of the deployed system, where
  the writer lets no post-image through that does not name its key.
-/

namespace Baerly

open Async

variable {codec : Codec} {c : Collection}

/-! ## Public states are states of the system -/

/-- The pool did nothing, or one thing. -/
def PoolStep (codec : Codec) (c : Collection) (σ σ' : State) : Prop :=
  σ' = σ ∨ ∃ act, (deployed codec c).next σ act = some σ'

section Simulation

variable {σ σ' : PublicState} {j : Nat} {o : Ongoing}

/-- The commits of a verb are calls of the deployed system. -/
theorem commitNext_pool {count : Nat} {inputs : List CommitInput}
    (h : σ.commitNext codec c j o count inputs = some σ') : PoolStep codec c σ.pool σ'.pool := by
  cases inputs with
  | nil =>
    cases h
    exact Or.inl rfl
  | cons input rest =>
    obtain ⟨pool, hspawn, heq⟩ := Option.map_eq_some_iff.mp h
    cases heq
    exact Or.inr ⟨_, hspawn⟩

/-- So is what follows its read. -/
theorem planned_pool {r : Except Err ReadRows} (h : σ.planned codec c j o r = some σ') :
    PoolStep codec c σ.pool σ'.pool := by
  unfold PublicState.planned at h
  split at h
  · cases h
    exact Or.inl rfl
  · exact commitNext_pool h

/-- So is its start. -/
theorem start_pool {ctx : MutationContext} {verb : Mutation}
    (h : σ.start codec c ctx verb = some σ') : PoolStep codec c σ.pool σ'.pool := by
  unfold PublicState.start at h
  split at h
  · cases h
    exact Or.inl rfl
  · split at h
    · obtain ⟨pool, hspawn, heq⟩ := Option.map_eq_some_iff.mp h
      cases heq
      exact Or.inr ⟨_, hspawn⟩
    · cases h
      exact Or.inl rfl

/-- And every step of it. -/
theorem resume_pool (h : σ.resume codec c j o = some σ') : PoolStep codec c σ.pool σ'.pool := by
  unfold PublicState.resume at h
  split at h
  · split at h
    · exact planned_pool h
    · cases h
  · split at h
    · exact commitNext_pool h
    · cases h
      exact Or.inl rfl
    · cases h
  · cases h

/-- **One public step** is at most one step of the system. -/
theorem PublicState.next_pool {a : PublicAct (Act (deployed codec c))}
    (h : σ.next codec c a = some σ') : PoolStep codec c σ.pool σ'.pool := by
  cases a with
  | system act =>
    simp only [PublicState.next] at h
    split at h
    · cases h
    · obtain ⟨pool, hnext, heq⟩ := Option.map_eq_some_iff.mp h
      cases heq
      exact Or.inr ⟨act, hnext⟩
  | start ctx verb => exact start_pool h
  | walked j r =>
    simp only [PublicState.next] at h
    split at h
    · exact planned_pool h
    · cases h
  | resume j =>
    obtain ⟨o, _, hresume⟩ := Option.bind_eq_some_iff.mp h
    exact resume_pool hresume

/-- A step of the system leads to a reachable state. -/
theorem Reachable.step {ρ ρ' : State} (h : Reachable codec c ρ) (hstep : PoolStep codec c ρ ρ') :
    Reachable codec c ρ' := by
  rcases hstep with rfl | ⟨act, hnext⟩
  · exact h
  · have hrun : (deployed codec c).run ρ [act] = some ρ' := by
      show ((deployed codec c).next ρ act).bind (fun σ => some σ) = some ρ'
      rw [hnext]
      rfl
    exact h.trans hrun

/-- **A run of public verbs is a run of the system** underneath. -/
theorem PublicState.run_pool {acts : List (PublicAct (Act (deployed codec c)))} :
    ∀ {σ σ' : PublicState}, Reachable codec c σ.pool → σ.run codec c acts = some σ' →
      Reachable codec c σ'.pool := by
  induction acts with
  | nil =>
    intro σ σ' hreach h
    cases h
    exact hreach
  | cons a acts ih =>
    intro σ σ' hreach h
    obtain ⟨ρ, hnext, hrest⟩ := Option.bind_eq_some_iff.mp h
    exact ih (hreach.step (PublicState.next_pool hnext)) hrest

/-- **Every public state is a state of the system.** -/
theorem PublicReachable.pool (h : PublicReachable codec c σ) : Reachable codec c σ.pool := by
  obtain ⟨acts, hrun⟩ := h
  exact PublicState.run_pool ⟨[], rfl⟩ hrun

end Simulation

/-! ## The lookup and the scan -/

/-- Filtering keeps the rows that satisfy the predicate. -/
theorem filterRows_satisfies {wire : PredicateWire} : ∀ {rows : List StoredRow},
    (∀ row ∈ rows, ∃ b, matchesWire wire row.2 = .ok b) →
      filterRows wire rows = .ok (rows.filter fun row => satisfies (some wire) row.2) := by
  intro rows
  induction rows with
  | nil => exact fun _ => rfl
  | cons row rows ih =>
    intro h
    rw [List.forall_mem_cons] at h
    obtain ⟨b, hb⟩ := h.1
    have hsat := satisfies_of_matches hb
    rw [filterRows, hb, ih h.2, List.filter_cons, hsat]
    rfl

/-- The rows a lookup by key finds are those a scan finds. -/
def LookupExact (docs : Rows) : Prop :=
  ∀ wire id, singleIdFromPredicate (some wire) = some id →
    applyPredicate (some wire) docs = filterRows wire docs.entries

/-- Where rows are under their own ids a lookup finds what a scan does. -/
theorem SelfNamed.lookupExact {docs : Rows} (h : SelfNamed docs) : LookupExact docs := by
  intro wire id hsingle
  have hok : ∀ row ∈ docs.entries, ∃ b, matchesWire wire row.2 = .ok b :=
    fun row _ => ⟨_, matchesWire_of_singleId hsingle row.2⟩
  have hperm := fastPath_perm hsingle h
  rw [filterRows_satisfies hok]
  unfold applyPredicate
  rw [hsingle]
  dsimp only
  -- at most one row: a permutation of it is itself
  cases hget : docs.get id with
  | none =>
    rw [hget] at hperm
    rw [hperm.symm.eq_nil]
    rfl
  | some doc =>
    rw [hget] at hperm
    rw [List.perm_singleton.mp hperm.symm]
    rfl

/-! ## What is stored -/

/-- Every row of what a manifest materialises names itself. -/
theorem Inv.materialised_named {w : World} (h : Inv codec c w) {m : CurrentJson} {base : Rows}
    {es : List LogEntry} (hm : w.cur = some m) (hbase : w.base codec c m = some base)
    (hes : IsLiveLog w m.logSeqStart es) :
    SelfNamed (foldLogEntriesOnto c.collectionName none base es) := by
  obtain ⟨base', hbase', hrows⟩ := h.base hm
  cases hbase.symm.trans hbase'
  refine SelfNamed.fold es base (fun id doc hget => ?_) fun e he => ?_
  · rw [hrows id] at hget
    exact h.selfNamed m.logSeqStart id doc hget
  · obtain ⟨i, hi⟩ := List.getElem?_of_mem he
    exact ⟨_, h.stored _ e (hes.occupied i e hi)⟩

/-! ## What is read -/

/-- What a read returns, in terms of what it folded: the folded rows name themselves, and the
    predicate was applied to them. -/
def ReadNamed (c : Collection) (state : QueryState) (res : ReadRows) : Prop :=
  (res.folded = none → res.rows = []) ∧
    ∀ f, res.folded = some f →
      SelfNamed (foldLogEntriesOnto c.collectionName none f.base f.tail) ∧
      ∃ kept, applyPredicate state.wire (foldLogEntriesOnto c.collectionName none f.base f.tail) =
        .ok kept ∧ res.rows = applyOrderLimit state kept

/-- Slots that were read hold entries that name themselves. -/
theorem Answers.entryOk {t since n : Nat} {why : Purpose} {w : World} {es : List LogEntry}
    (h : Answers (ReadFact t why since) w n es) : ∀ e ∈ es, ∃ k, EntryOk k e := by
  intro e he
  obtain ⟨i, hi⟩ := List.getElem?_of_mem he
  exact ⟨n + i, ((h i e hi).occupied e rfl).2⟩

/-- **A read folds rows that name themselves**, phantoms included. -/
theorem wp_runReadRows_named {t : Nat} {why : Purpose} {state : QueryState} {w : World}
    (hinv : Inv codec c w) :
    (protocol codec c).wp t (runReadRows codec c why state)
      (fun r _ => ∀ res, r = .ok res → ReadNamed c state res) w := by
  refine Protocol.wp_seq (Protocol.wp_inv wp_readCurrentJson hinv) ?_ fun e w₁ _ => nofun
  rintro (_ | head) w₁ ⟨⟨_, hread⟩, hinv₁⟩
  · intro res hres
    cases hres
    exact ⟨fun _ => rfl, fun f hf => (by cases hf)⟩
  · have hm := (hread _ rfl).found head rfl
    have hstart : head.logSeqStart ≤ head.tailHint := hm.wf.start_le
    have hR := readRule codec c t why 0
    refine Protocol.wp_seq (Protocol.wp_inv (wp_loadBase hm) hinv₁) ?_ fun e w₂ _ => nofun
    rintro base w₂ ⟨⟨hq₂, hbase⟩, hinv₂⟩
    refine Protocol.wp_seq (wp_walkLogRange hR (Nat.zero_le _)) ?_ fun e w₃ _ => nofun
    rintro entries w₃ ⟨hq₃, hwalk⟩
    refine Protocol.wp_seq (wp_probeTailFrom hR (Nat.zero_le _)) ?_ fun e w₄ _ => nofun
    rintro ⟨tail, probed⟩ w₄ ⟨hq₄, hprobe⟩
    obtain ⟨_, hentries⟩ := hwalk entries rfl
    obtain ⟨_, hprobed, _⟩ := hprobe tail probed rfl
    refine wp_check (fun kept hkept res hres => ?_) fun e _ => nofun
    cases hres
    refine ⟨nofun, fun f hf => ?_⟩
    cases hf
    rw [← foldLogEntriesOnto_append] at hkept
    refine ⟨SelfNamed.fold _ base (fun id doc hget => ?_) fun e he => ?_, kept, hkept, rfl⟩
    · rw [hbase base rfl id] at hget
      exact hinv₂.selfNamed head.logSeqStart id doc hget
    · rcases List.mem_append.mp he with he | he
      · exact hentries.entryOk e he
      · exact hprobed.entryOk e he

/-- What is asked of a finished read, and of nothing else. -/
def namedPost (c : Collection) : (call : Call) → Except Err (Res call) → Prop
  | .read state, r => ∀ res, r = .ok res → ReadNamed c state res
  | _, _ => True

/-- The agreement of the threads, with that as the only postcondition. -/
def namedProtocol (codec : Codec) (c : Collection) : Protocol (deployed codec c) :=
  { protocol codec c with post := fun _ call _ r _ => namedPost c call r }

/-- The weakest precondition does not depend on what calls owe. -/
theorem namedProtocol_wp {α : Type} {t : Nat} {p : Task α} {Q : Except Err α → World → Prop}
    {w : World} (h : (protocol codec c).wp t p Q w) : (namedProtocol codec c).wp t p Q w := by
  induction p generalizing w with
  | ret a => exact h
  | throw e => exact h
  | call op k ih =>
    intro w' hrel hinv pick r w'' hexec
    obtain ⟨hok, hrest⟩ := h w' hrel hinv pick r w'' hexec
    exact ⟨⟨hok.inv, hok.others⟩, ih r hrest⟩

/-- Every call keeps rows under their own ids. -/
theorem namedProtocol_bodiesOk (codec : Codec) (c : Collection) :
    (namedProtocol codec c).BodiesOk := by
  intro t call w hinv hfresh haccepts
  have hbody := bodiesOk codec c t call w hinv hfresh haccepts
  refine namedProtocol_wp ?_
  cases call with
  | read state => exact wp_runReadRows_named hinv
  | _ => exact Protocol.wp_mono hbody fun _ _ _ => trivial

/-- So every scan that is done has read such rows. -/
theorem Reachable.readNamed {ρ : State} (h : Reachable codec c ρ) {t : Nat} {state : QueryState}
    {start w₁ : World} {res : ReadRows}
    (ht : ρ.threads[t]? = some ⟨.read state, start, .done (.ok res) w₁⟩) : ReadNamed c state res := by
  obtain ⟨acts, hrun⟩ := h
  have hinit : (namedProtocol codec c).PoolOk State.init :=
    Protocol.poolOk_init (inv_empty codec c) fresh_empty
  have hok := (Protocol.sound (namedProtocol_bodiesOk codec c) hinit hrun).thread t _ ht
  exact hok.1 res rfl

/-! ## The result -/

/-- **The primary-key fast path is exact.**  In every public state, what is stored materialises to
    rows that are stored under their own `_id`, on which the lookup and the scan agree; and every
    read that has ended, whatever went on around it, folded such rows and returned, for a predicate
    on `_id`, what the scan of them gives. -/
theorem pointLookup_exact (codec : Codec) (c : Collection) (σ : PublicState)
    (h : PublicReachable codec c σ) :
    (∀ m, σ.pool.world.cur = some m → ∃ base es, σ.pool.world.base codec c m = some base ∧
      IsLiveLog σ.pool.world m.logSeqStart es ∧
      SelfNamed (foldLogEntriesOnto c.collectionName none base es) ∧
      LookupExact (foldLogEntriesOnto c.collectionName none base es)) ∧
    ∀ (t : Nat) (state : QueryState) (start : World) (res : ReadRows) (w₁ : World),
      σ.pool.threads[t]? = some ⟨.read state, start, .done (.ok res) w₁⟩ →
      (res.folded = none → res.rows = []) ∧
      ∀ f, res.folded = some f →
        SelfNamed (foldLogEntriesOnto c.collectionName none f.base f.tail) ∧
        ∀ wire id, state.wire = some wire → singleIdFromPredicate (some wire) = some id →
          ∃ kept, filterRows wire
              (foldLogEntriesOnto c.collectionName none f.base f.tail).entries = .ok kept ∧
            res.rows = applyOrderLimit state kept := by
  have hreach := h.pool
  have hinv := hreach.inv
  constructor
  · intro m hm
    have hok := hinv.manifest m hm
    have hfloor : σ.pool.world.floor ≤ m.logSeqStart := by
      have hle := σ.pool.world.floor_le_start
      unfold World.start at hle
      rw [hm] at hle
      exact hle
    have hle : m.logSeqStart ≤ σ.pool.world.tail := Nat.le_trans hok.wf.start_le hok.hint_le
    obtain ⟨base, hbase, _⟩ := hinv.base hm
    have hlive := hinv.isLiveLog hfloor hle
    have hnamed := hinv.materialised_named hm hbase hlive
    exact ⟨base, _, hbase, hlive, hnamed, hnamed.lookupExact⟩
  · intro t state start res w₁ ht
    obtain ⟨hnone, hsome⟩ := hreach.readNamed ht
    refine ⟨hnone, fun f hf => ?_⟩
    obtain ⟨hnamed, kept, hkept, hrows⟩ := hsome f hf
    refine ⟨hnamed, fun wire id hwire hsingle => ⟨kept, ?_, hrows⟩⟩
    rw [hwire, hnamed.lookupExact wire id hsingle] at hkept
    exact hkept

/-! ## An insert, an update, a lookup -/

/-- The steps of the example. -/
abbrev PublicSampleAct := PublicAct SampleAct

/-- A context whose checks refuse nothing. -/
def sampleInsertContext : InsertContext := ⟨sampleConfig, fun _ => none, fun _ _ _ => none⟩

/-- The same for the other verbs. -/
def sampleMutationContext : MutationContext where
  engine := ⟨fun _ => "", fun _ _ => .ok false⟩
  numberText := integerText
  indexes := []
  writer := sampleConfig
  validate := fun _ => none
  ceilings := ⟨1000, 10⟩

/-- Steps of the system. -/
def systemActs (acts : List SampleAct) : List PublicSampleAct := acts.map .system

/-- Thread 0 inserts `{ _id: "x" }` into a fresh bucket. -/
def insertRow : List PublicSampleAct :=
  systemActs ([.spawn (.insert sampleInsertContext [(js "_id", .str (js "x"))] (js "u") none)] ++
    oks 0 2 ++ [.step 0 (Pick.nonce (js "0a"))] ++ acked 0 0 ++ oks 0 1 ++
    [.step 0 (Pick.clock 7)] ++ acked 0 1 ++ oks 0 1)

/-- The patch `{ n: true }` on all rows: thread 1 reads, thread 2 commits. -/
def patchAll : List PublicSampleAct :=
  [.start sampleMutationContext (.update ⟨none, none, none⟩ (.obj [(js "n", .bool true)]))] ++
    systemActs (oks 1 3) ++ [.resume 0] ++
    systemActs (oks 2 3 ++ [.step 2 (Pick.clock 9)] ++ acked 2 2 ++ oks 2 1) ++ [.resume 0]

/-- Thread 3 looks the row up. -/
def lookupRow : List PublicSampleAct :=
  systemActs ([.spawn (.read ⟨some (idWire (js "x")), none, none⟩)] ++ oks 3 4)

theorem pointLookup_exact_insertUpdate : ∃ σ, PublicReachable sampleCodec sampleCollection σ ∧
    σ.pool.world.hist.length = 2 ∧
    ∃ m base es, σ.pool.world.cur = some m ∧
      σ.pool.world.base sampleCodec sampleCollection m = some base ∧
      IsLiveLog σ.pool.world m.logSeqStart es ∧
      SelfNamed (foldLogEntriesOnto sampleCollection.collectionName none base es) ∧
      LookupExact (foldLogEntriesOnto sampleCollection.collectionName none base es) := by
  have hrun : (PublicState.init.run sampleCodec sampleCollection
      (insertRow ++ patchAll ++ lookupRow)).map
      (fun σ => (σ.pool.world.hist.length, σ.pool.world.cur.isSome)) = some (2, true) := by
    decide +kernel
  obtain ⟨σ, hend, hfacts⟩ := Option.map_eq_some_iff.mp hrun
  simp only [Prod.mk.injEq] at hfacts
  obtain ⟨m, hm⟩ := Option.isSome_iff_exists.mp hfacts.2
  have hreach : PublicReachable sampleCodec sampleCollection σ := ⟨_, hend⟩
  obtain ⟨base, es, hbase, hlive, hnamed, hexact⟩ :=
    (pointLookup_exact sampleCodec sampleCollection σ hreach).1 m hm
  exact ⟨σ, hreach, hfacts.1, m, base, es, hm, hbase, hlive, hnamed, hexact⟩

end Baerly
