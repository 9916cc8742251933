import Baerly.Verify.Gc
import Baerly.Verify.Query
import Baerly.Verify.Since

/-
  Every reachable state of the deployed system is good.

  The rules of the calls are put together (`bodiesOk`) and carried over all runs by the soundness
  of the protocol.  The results about the store follow from the invariant: what the manifest
  materialises is the fold of everything ever committed, the log has no hole above the certified
  floor, and no snapshot a manifest names or will name is ever deleted.
-/

namespace Baerly

open Async

variable {codec : Codec} {c : Collection} {σ σ' : State}

/-! ## All calls keep the protocol -/

theorem not_sent_empty {r : Req} : ¬ World.empty.Sent r := by
  rintro ⟨m, hm, _⟩
  exact List.not_mem_nil hm

theorem inv_empty (codec : Codec) (c : Collection) : Inv codec c World.empty where
  manifest := by
    intro m hm
    cases hm
  unborn := fun _ => rfl
  dense := fun _ _ => rfl
  stored := by
    intro n e he
    cases he
  committed := by
    intro n e he
    cases he
  msgs := fun m hm => absurd hm List.not_mem_nil
  serial := by
    intro i j m m' _ hm
    cases hm
  snaps := by
    intro key body hs
    cases hs
  content := fun key body body' hs => absurd hs not_sent_empty
  kept := fun key body ha => absurd ha.sent not_sent_empty
  ledger := by
    intro p hp
    cases hp

theorem fresh_empty (t : Nat) : Fresh t World.empty :=
  ⟨fun _ hm => absurd hm List.not_mem_nil, rfl⟩

/-- **Every call keeps the protocol**, from any good world. -/
theorem bodiesOk (codec : Codec) (c : Collection) : (protocol codec c).BodiesOk := by
  intro t call w hinv hfresh haccepts
  have hdead : AllDead t w := hfresh.allDead
  cases call with
  | commit cfg input =>
    have hguard : GuardOk c t input w := by
      intro g hg
      have hnone : input.insertGuard.isNone = true := haccepts
      rw [hg] at hnone
      cases hnone
    exact Protocol.wp_mono (wp_commit hguard hdead) fun r w' h => h.2.1
  | insert ctx members uuidv7 mintedId => exact wp_runInsert hdead
  | read state =>
    refine Protocol.wp_mono (Protocol.wp_inv wp_runReadRows hinv) ?_
    rintro r w' ⟨⟨_, hread⟩, hinv'⟩ res rfl
    exact (hread res rfl).post hinv' res rfl
  | subscribe timeoutMs ticks calls cursor =>
    refine Protocol.wp_mono (wp_subscribe calls cursor w) ?_
    rintro r w' ⟨_, hfeed⟩ rs hrs
    obtain ⟨reads, hreads, hok⟩ := hfeed rs hrs
    have hnil : w.manifestReads t = [] := by
      unfold World.manifestReads
      rw [hfresh.events]
      rfl
    rw [hnil, List.nil_append] at hreads
    rw [hreads]
    exact hok
  | create initial =>
    exact Protocol.wp_mono (wp_createCurrentJson haccepts) fun _ _ _ => trivial
  | compact opts =>
    have hknown : opts.knownTail.getD 0 ≤ w.tail := of_decide_eq_true haccepts
    exact Protocol.wp_mono (wp_compact hknown) fun _ _ _ => trivial
  | refresh nextSeq stamp =>
    have hseq : nextSeq ≤ w.tail := of_decide_eq_true haccepts
    exact Protocol.wp_mono (wp_refreshTailHint hseq) fun _ _ _ => trivial
  | retire opts => exact Protocol.wp_mono wp_retireLogRange fun _ _ _ => trivial
  | claim owner => exact Protocol.wp_mono wp_claimWriter fun _ _ _ => trivial
  | gc opts => exact Protocol.wp_mono wp_runGc fun _ _ _ => trivial

/-- **Every reachable state is good.** -/
theorem Reachable.poolOk (h : Reachable codec c σ) : (protocol codec c).PoolOk σ := by
  obtain ⟨acts, hrun⟩ := h
  exact Protocol.sound (bodiesOk codec c)
    (Protocol.poolOk_init (inv_empty codec c) fresh_empty) hrun

theorem Reachable.inv (h : Reachable codec c σ) : Inv codec c σ.world := h.poolOk.inv

theorem Reachable.trans (h : Reachable codec c σ) {acts : List (Act (deployed codec c))}
    (hrun : (deployed codec c).run σ acts = some σ') : Reachable codec c σ' := by
  obtain ⟨acts₀, hrun₀⟩ := h
  exact ⟨acts₀ ++ acts, (Machine.run_append _).mpr ⟨σ, hrun₀, hrun⟩⟩

/-- What happens after a reachable state only ever grows the world. -/
theorem Reachable.evolves (h : Reachable codec c σ) {acts : List (Act (deployed codec c))}
    (hrun : (deployed codec c).run σ acts = some σ') : Evolves σ.world σ'.world :=
  (Protocol.run_rely (bodiesOk codec c) h.poolOk hrun (Nat.le_refl _)).evolves

/-- What a finished thread owes, and what it has seen since. -/
theorem Reachable.done (h : Reachable codec c σ) {t : Nat} {call : Call} {start w₁ : World}
    {r : Except Err (Res call)} (ht : σ.threads[t]? = some ⟨call, start, .done r w₁⟩) :
    post codec c t call start r w₁ ∧ Rely t w₁ σ.world :=
  h.poolOk.thread t _ ht

/-- Read a fact off a run that can be replayed. -/
theorem exists_reachable {α : Type} {acts : List (Act (deployed codec c))} {f : State → α} {a : α}
    (h : ((deployed codec c).run State.init acts).map f = some a) :
    ∃ σ, Reachable codec c σ ∧ f σ = a := by
  obtain ⟨σ, hrun, hf⟩ := Option.map_eq_some_iff.mp h
  exact ⟨σ, ⟨acts, hrun⟩, hf⟩

/-! ## A small run

One collection, a first commit that provisions it, a fold of that entry, and its retirement.  The
hash is some 64-digit string, which is all a run with one snapshot per key can tell of it. -/

def sampleCollection : Collection := ⟨js "app/tickets/current.json"⟩

def sampleCodec : Codec where
  snapshotHash := fun _ => List.replicate 64 48
  snapshotBytes := fun body => body.docs.length
  entryBytes := fun _ => 1

def sampleConfig : WriterConfig where
  indexed := false
  allIndexKeysFor := fun _ _ => .ok []
  verifyLogIntegrityOnCommit := false
  normalizeNfc := id

/-- `{ _id: id }`. -/
def sampleDoc (id : String) : Doc := .obj [(js "_id", .str (js id))]

/-- An unguarded insert of `{ _id: id }`. -/
def sampleInput (id : String) : CommitInput where
  op := .I
  collection := sampleCollection.collectionName
  docId := js id
  body := some (sampleDoc id)
  origin := none
  insertGuard := none

abbrev SampleAct := Act (deployed sampleCodec sampleCollection)

/-- Thread `t` makes `n` requests that succeed. -/
def oks (t n : Nat) : List SampleAct :=
  List.replicate n (.step t Pick.ok)

/-- Thread `t` writes: it sends message `i`, which is delivered and acknowledged at once. -/
def acked (t i : Nat) : List SampleAct :=
  [.step t Pick.ok, .env i, .step t (Pick.acked none)]

/-- Thread 0 commits `{ _id: "x" }` on a fresh bucket, up to the point where it has found slot 0
    empty; message 0 is the manifest. -/
def provision : List SampleAct :=
  [.spawn (.commit sampleConfig (sampleInput "x")), .step 0 Pick.ok,
    .step 0 (Pick.nonce (js "0a"))] ++ acked 0 0 ++ oks 0 1 ++ [.step 0 (Pick.clock 7)]

/-- Thread `t` folds slot 0, with messages `i` and `i + 1`. -/
def foldFirst (t i : Nat) : List SampleAct :=
  [.spawn (.compact ⟨some 1, none, none, none, none, none⟩)] ++ oks t 3 ++
    [.step t (Pick.order [0])] ++ oks t 1 ++ acked t i ++ acked t (i + 1)

/-- Thread `t` retires slot 0, with messages `i` and `i + 1`. -/
def retireFirst (t i : Nat) : List SampleAct :=
  [.spawn (.retire ⟨some 0, none⟩)] ++ oks t 2 ++ acked t i ++
    [.step t Pick.ok, .env (i + 1), .step t (Pick.order [0]), .step t (Pick.acked none)]

/-- A commit, its fold, its retirement. -/
def commitFoldRetire : List SampleAct :=
  provision ++ acked 0 1 ++ oks 0 1 ++ foldFirst 1 2 ++ retireFirst 2 4

/-! ## Committed state -/

/-- The rows of the snapshot a manifest names, as the store has it. -/
def World.base (codec : Codec) (c : Collection) (w : World) (m : CurrentJson) : Option Rows :=
  match m.snapshot with
  | none => some InsMap.empty
  | some key => (w.snap key).bind fun body =>
    (decodeSnapshot codec key c.collectionName body).toOption

/-- The entries from `start` up to the first empty slot. -/
structure IsLiveLog (w : World) (start : Nat) (es : List LogEntry) : Prop where
  occupied : ∀ i e, es[i]? = some e → w.log (start + i) = some e
  stop : w.log (start + es.length) = none

theorem IsLiveLog.unique {w : World} {start : Nat} {xs ys : List LogEntry}
    (hx : IsLiveLog w start xs) (hy : IsLiveLog w start ys) : xs = ys := by
  -- neither can go on past the other's end
  have hlen : ∀ {as bs : List LogEntry}, IsLiveLog w start as → IsLiveLog w start bs →
      ¬ as.length < bs.length := by
    intro as bs ha hb hlt
    have hsome := hb.occupied as.length _ (List.getElem?_eq_getElem hlt)
    rw [ha.stop] at hsome
    cases hsome
  have heq : xs.length = ys.length := by
    have h1 := hlen hx hy
    have h2 := hlen hy hx
    omega
  refine List.ext_getElem heq fun i hi hi' => ?_
  have h1 := hx.occupied i _ (List.getElem?_eq_getElem hi)
  have h2 := hy.occupied i _ (List.getElem?_eq_getElem hi')
  rw [h1] at h2
  exact Option.some.inj h2

/-- The live log is the committed sequence from the fold on. -/
theorem Inv.isLiveLog {w : World} (h : Inv codec c w) {start : Nat} (hfloor : w.floor ≤ start)
    (hle : start ≤ w.tail) : IsLiveLog w start (w.hist.drop start) where
  occupied := by
    intro i e hi
    rw [h.dense (start + i) (by omega)]
    rwa [List.getElem?_drop] at hi
  stop := by
    have htail : start + (w.hist.drop start).length = w.tail := by
      rw [List.length_drop]
      unfold World.tail at hle ⊢
      omega
    rw [htail, h.dense w.tail (by omega)]
    exact List.getElem?_eq_none (Nat.le_refl _)

/-- The snapshot the manifest names is there, and it is the fold of the committed prefix. -/
theorem Inv.base {w : World} (h : Inv codec c w) {m : CurrentJson} (hm : w.cur = some m) :
    ∃ base, w.base codec c m = some base ∧
      ∀ id, base.get id = (committedRows c w.hist m.logSeqStart).get id := by
  have hok := h.manifest m hm
  unfold World.base
  cases hsnap : m.snapshot with
  | none =>
    refine ⟨InsMap.empty, rfl, fun id => ?_⟩
    rw [hok.unfolded hsnap]
    rfl
  | some key =>
    obtain ⟨body, hs, happ⟩ := hok.folded key hsnap
    have hstart : w.start = m.logSeqStart := by
      unfold World.start
      rw [hm]
    -- a snapshot that was swept covers less than is folded now
    have hstored : w.snap key = some body := by
      rcases h.kept key body happ with hkept | ⟨n, hparse, hlt⟩
      · exact hkept
      · rw [hs.parse] at hparse
        cases hparse
        omega
    refine ⟨loadDocs body.docs, ?_, hs.rows⟩
    show (w.snap key).bind _ = _
    rw [hstored]
    show (decodeSnapshot codec key c.collectionName body).toOption = _
    rw [hs.load]
    rfl

/-- What the manifest of a good world materialises. -/
theorem Inv.materialised {w : World} (h : Inv codec c w) {m : CurrentJson} (hm : w.cur = some m) :
    ∃ base es, w.base codec c m = some base ∧ IsLiveLog w m.logSeqStart es ∧
      (∀ es', IsLiveLog w m.logSeqStart es' → es' = es) ∧
      ∀ id, (foldLogEntriesOnto c.collectionName none base es).get id =
        (foldLogEntriesOnto c.collectionName none InsMap.empty w.hist).get id := by
  have hok := h.manifest m hm
  have hfloor : w.floor ≤ m.logSeqStart := by
    have hle := w.floor_le_start
    unfold World.start at hle
    rw [hm] at hle
    exact hle
  have hle : m.logSeqStart ≤ w.tail := Nat.le_trans hok.wf.start_le hok.hint_le
  obtain ⟨base, hbase, hrows⟩ := h.base hm
  have hlive := h.isLiveLog hfloor hle
  refine ⟨base, w.hist.drop m.logSeqStart, hbase, hlive, fun es' h' => h'.unique hlive, ?_⟩
  intro id
  have hfold := fold_slice (c := c) (w.hist.drop m.logSeqStart).length (Nat.le_refl _) hrows
    (fun i e hi => by rwa [List.getElem?_drop] at hi) id
  have hend : m.logSeqStart + (w.hist.drop m.logSeqStart).length = w.hist.length := by
    rw [List.length_drop]
    unfold World.tail at hle
    omega
  rw [List.take_length, hend] at hfold
  rw [hfold]
  unfold committedRows
  rw [List.take_length]

/-- **Committed state.**  In every reachable state the manifest materialises, and what it
    materialises is the fold of every entry ever committed. -/
theorem materialised_eq_committed (h : Reachable codec c σ) {m : CurrentJson}
    (hm : σ.world.cur = some m) :
    ∃ base es, σ.world.base codec c m = some base ∧ IsLiveLog σ.world m.logSeqStart es ∧
      (∀ es', IsLiveLog σ.world m.logSeqStart es' → es' = es) ∧
      ∀ id, (foldLogEntriesOnto c.collectionName none base es).get id =
        (foldLogEntriesOnto c.collectionName none InsMap.empty σ.world.hist).get id :=
  h.inv.materialised hm

/-- After a commit, its fold and its retirement, the log is empty and the snapshot has the row. -/
theorem materialised_commitFoldRetire : ∃ σ, Reachable sampleCodec sampleCollection σ ∧
    σ.world.hist.length = 1 ∧ σ.world.log 0 = none ∧
    ∃ m base es, σ.world.cur = some m ∧ m.logSeqStart = 1 ∧
      σ.world.base sampleCodec sampleCollection m = some base ∧ IsLiveLog σ.world 1 es ∧
      ∀ id, (foldLogEntriesOnto sampleCollection.collectionName none base es).get id =
        (foldLogEntriesOnto sampleCollection.collectionName none InsMap.empty
          σ.world.hist).get id := by
  have hrun : ((deployed sampleCodec sampleCollection).run State.init commitFoldRetire).map
      (fun σ => (σ.world.hist.length, σ.world.log 0, σ.world.cur.map (·.logSeqStart))) =
        some (1, none, some 1) := by
    decide +kernel
  obtain ⟨σ, hreach, hfacts⟩ := exists_reachable hrun
  simp only [Prod.mk.injEq] at hfacts
  obtain ⟨hlen, hlog, hstart⟩ := hfacts
  obtain ⟨m, hm, hone⟩ := Option.map_eq_some_iff.mp hstart
  obtain ⟨base, es, hbase, hlive, _, hrows⟩ := materialised_eq_committed hreach hm
  rw [hone] at hlive
  exact ⟨σ, hreach, hlen, hlog, m, base, es, hm, hone, hbase, hlive, hrows⟩

/-! ## The dense log -/

/-- **No holes.**  There is a tail such that from the certified floor up to it every slot holds
    the entry of that number, from it on nothing is there, the bounds of the manifest are in
    order, and every DELETE of a log object in flight names a slot below the durable floor. -/
theorem log_dense_above_floor (h : Reachable codec c σ) : ∃ tail,
    (∀ n, σ.world.floor ≤ n → n < tail → ∃ e, σ.world.log n = some e ∧ e.seq = n) ∧
    (∀ n, tail ≤ n → σ.world.log n = none) ∧
    (∀ m, σ.world.cur = some m → logDeleteFloorOf m ≤ m.logSeqStart ∧
      m.logSeqStart ≤ m.tailHint ∧ m.tailHint ≤ tail) ∧
    ∀ msg ∈ σ.world.net, ∀ n, msg.req = .deleteLog n →
      ∃ m, σ.world.cur = some m ∧ n < logDeleteFloorOf m := by
  have hinv := h.inv
  refine ⟨σ.world.tail, ?_, fun n hn => hinv.above_tail hn, ?_, ?_⟩
  · intro n hfloor hlt
    have hget : σ.world.hist[n]? = some σ.world.hist[n] := List.getElem?_eq_getElem hlt
    have hlog := (hinv.dense n hfloor).trans hget
    exact ⟨_, hlog, (hinv.stored n _ hlog).seq⟩
  · intro m hm
    have hok := hinv.manifest m hm
    exact ⟨hok.floor_le, hok.wf.start_le, hok.hint_le⟩
  · intro msg hmsg n hreq
    have hok := (hinv.msgs msg hmsg).req
    rw [hreq] at hok
    have hlt : n < σ.world.floor := hok
    unfold World.floor at hlt
    cases hm : σ.world.cur with
    | none =>
      rw [hm] at hlt
      exact absurd hlt (Nat.not_lt_zero n)
    | some m =>
      rw [hm] at hlt
      refine ⟨m, rfl, Nat.lt_of_lt_of_le hlt ?_⟩
      unfold certifiedDeleteFloor
      exact Nat.min_le_left _ _

/-- The bounds after a commit, its fold and its retirement. -/
theorem log_dense_commitFoldRetire : ∃ σ, Reachable sampleCodec sampleCollection σ ∧
    σ.world.floor = 1 ∧ (∃ msg ∈ σ.world.net, msg.req = .deleteLog 0) ∧
    ∃ tail, ∀ n, tail ≤ n → σ.world.log n = none := by
  have hrun : ((deployed sampleCodec sampleCollection).run State.init commitFoldRetire).map
      (fun σ => (σ.world.floor, σ.world.net.any fun msg => msg.req = .deleteLog 0)) =
        some (1, true) := by
    decide +kernel
  obtain ⟨σ, hreach, hfacts⟩ := exists_reachable hrun
  simp only [Prod.mk.injEq, List.any_eq_true, decide_eq_true_eq] at hfacts
  obtain ⟨tail, _, habove, _, _⟩ := log_dense_above_floor hreach
  exact ⟨σ, hreach, hfacts.1, hfacts.2, tail, habove⟩

/-! ## Snapshots in use -/

/-- **GC never takes a snapshot in use.**  Once a DELETE of a snapshot has been sent, no manifest
    names it, then or at any later time. -/
theorem gc_never_deletes_needed_snapshot (h : Reachable codec c σ) {msg : Msg}
    (hmsg : msg ∈ σ.world.net) {key : Key} (hreq : msg.req = .deleteSnapshot key)
    {acts : List (Act (deployed codec c))} (hrun : (deployed codec c).run σ acts = some σ')
    {m : CurrentJson} (hm : σ'.world.cur = some m) : m.snapshot ≠ some key := by
  intro hnamed
  have hgone : Outlived c σ.world key := by
    have hok := (h.inv.msgs msg hmsg).req
    rw [hreq] at hok
    exact hok
  obtain ⟨n, hparse, hlt⟩ := (h.evolves hrun).outlived hgone
  -- a manifest that names the key covers exactly what the key says
  obtain ⟨body, hs, _⟩ := ((h.trans hrun).inv.manifest m hm).folded key hnamed
  rw [hs.parse] at hparse
  cases hparse
  unfold World.start at hlt
  rw [hm] at hlt
  exact absurd hlt (Nat.lt_irrefl _)

/-- The snapshot of the first fold. -/
def firstSnapshot : Key :=
  snapshotKeyText sampleCollection.collectionPrefix 0 1 (List.replicate 64 48)

/-- Two commits, each folded, then a pass without grace that sends the DELETE of the first
    snapshot. -/
def collectFirst : List SampleAct :=
  provision ++ acked 0 1 ++ oks 0 1 ++ foldFirst 1 2 ++
    ([.spawn (.commit sampleConfig (sampleInput "y"))] ++ oks 2 2 ++ [.step 2 (Pick.clock 8)] ++
      acked 2 4 ++ oks 2 1) ++
    ([.spawn (.compact ⟨some 1, none, none, none, none, none⟩)] ++ oks 3 4 ++
      [.step 3 (Pick.order [0])] ++ oks 3 1 ++ acked 3 5 ++ acked 3 6) ++
    ([.spawn (.gc ⟨some 0, none, none⟩)] ++ oks 4 2 ++ acked 4 7 ++
      [.step 4 (Pick.keys [firstSnapshot]), .step 4 (Pick.clock 9), .step 4 (Pick.clock 9)] ++
      oks 4 2)

/-- The first snapshot is being deleted, and the manifest has moved on. -/
theorem gc_collectFirst : ∃ σ m, Reachable sampleCodec sampleCollection σ ∧
    (∃ msg ∈ σ.world.net, msg.req = .deleteSnapshot firstSnapshot) ∧ σ.world.cur = some m ∧
    m.snapshot ≠ some firstSnapshot := by
  have hrun : ((deployed sampleCodec sampleCollection).run State.init collectFirst).map
      (fun σ => (σ.world.cur.isSome,
        σ.world.net.any fun msg => msg.req = .deleteSnapshot firstSnapshot)) =
        some (true, true) := by
    decide +kernel
  obtain ⟨σ, hreach, hfacts⟩ := exists_reachable hrun
  simp only [Prod.mk.injEq, List.any_eq_true, decide_eq_true_eq] at hfacts
  obtain ⟨hsome, msg, hmsg, hreq⟩ := hfacts
  obtain ⟨m, hm⟩ := Option.isSome_iff_exists.mp hsome
  have hnow : (deployed sampleCodec sampleCollection).run σ [] = some σ := rfl
  exact ⟨σ, m, hreach, ⟨msg, hmsg, hreq⟩, hm,
    gc_never_deletes_needed_snapshot hreach hmsg hreq hnow hm⟩

end Baerly
