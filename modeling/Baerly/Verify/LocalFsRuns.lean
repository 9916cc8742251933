import Mathlib.Data.Fintype.EquivFin
import Mathlib.Data.Finset.Basic
import Mathlib.Order.WellFounded
import Baerly.Verify.LocalFs

/-
  Runs of `LocalFsStorage`: its calls are served one at a time for each file, all of them come to an
  end, and together they are the calls of one atomic bucket.

  CRUX: a call that is under way can always be run to its end, so what is known of finished calls
  tells what an unfinished one has done so far.
-/

namespace Baerly.LocalFs

open Async

variable {cfg : FsConfig} {accepts : FsCall → Disk → Bool} {files₀ : Files}

/-! ## The adapter uses the mutex as it should -/

section Modest

variable {α β : Type} {dirs : List Path}

/-- A file system call that makes no directory but these. -/
def Makes (dirs : List Path) (op : LockOp ⊕ FsOp) : Prop := ∃ o, op = .inr o ∧ o.makes ⊆ dirs

/-- The program makes file system calls only, and no directory but these. -/
abbrev Modest (dirs : List Path) (p : Io α) : Prop := p.Asks (Makes dirs) fun _ => True

theorem modest_ask (op : FsOp) (h : op.makes ⊆ dirs) : Modest dirs (Io.ask op) :=
  ⟨⟨op, rfl, h⟩, fun _ => trivial⟩

theorem modest_bind {p : Io α} {f : α → Io β} (h : Modest dirs p) (hf : ∀ a, Modest dirs (f a)) :
    Modest dirs (p.bind f) := Prog.Asks.bind h fun a _ => hf a

theorem modest_attempt {p : Io α} (h : Modest dirs p) : Modest dirs p.attempt :=
  Prog.Asks.mono h.attempt fun _ _ => trivial

theorem modest_ofExcept (r : Except Err α) : Modest dirs (Io.ofExcept r) := by
  cases r with
  | ok a => trivial
  | error e => trivial

/-- The path of a key. -/
theorem asks_pathFor (key : Key) :
    (Io.ofExcept (pathFor key)).Asks (Makes dirs) fun path => pathFor key = .ok path := by
  cases pathFor key with
  | ok path => rfl
  | error e => trivial

theorem modest_throwIfAborted (signal : Bool) : Modest dirs (Io.throwIfAborted signal) := by
  unfold Io.throwIfAborted
  split
  next =>
    refine modest_bind (modest_ask _ (List.nil_subset _)) fun aborted => ?_
    split <;> trivial
  next => trivial

theorem modest_writeFile (path : Path) (body : Bytes) : Modest dirs (Io.writeFile path body) := by
  refine modest_bind (modest_ask _ (List.nil_subset _)) fun r => ?_
  cases r with
  | error e => trivial
  | ok _ => exact modest_ask (.fillFile path body) (List.nil_subset _)

theorem modest_canonicalRoot (inst : Instance) : Modest dirs (canonicalRoot inst) := by
  refine modest_bind (modest_ask _ (List.nil_subset _)) fun r => ?_
  cases r with
  | ok root => trivial
  | error e =>
    show Modest dirs (if e.code = .enoent then _ else _)
    split <;> trivial

theorem modest_lockKey (cfg : FsConfig) (inst : Instance) (path : Path) :
    Modest dirs (lockKey cfg inst path) :=
  modest_bind (modest_canonicalRoot inst) fun _ => trivial

theorem modest_readExisting (path : Path) : Modest dirs (readExisting path) := by
  refine modest_bind (modest_ask _ (List.nil_subset _)) fun r => ?_
  cases r with
  | ok body => trivial
  | error e =>
    show Modest dirs (if e.code = .enoent then _ else _)
    split <;> trivial

theorem modest_readFormatMarker (cfg : FsConfig) (inst : Instance) :
    Modest dirs (readFormatMarker cfg inst) := by
  refine modest_bind (modest_attempt (modest_readExisting _)) fun r => ?_
  cases r with
  | error e => trivial
  | ok found =>
    cases found with
    | none => trivial
    | some body =>
      dsimp only
      cases encodingOf cfg body with
      | none => trivial
      | some encoding =>
        dsimp only
        split
        next => trivial
        next => trivial

theorem modest_linkMarker (tmp : Path) : Modest dirs (linkMarker tmp) := by
  refine modest_bind (modest_writeFile _ _) fun r => ?_
  cases r with
  | error e => trivial
  | ok _ => exact modest_ask (.link tmp [formatMarker]) (List.nil_subset _)

theorem modest_acceptMarker (cfg : FsConfig) (inst : Instance) (e : Errno) :
    Modest dirs (acceptMarker cfg inst e) := by
  unfold acceptMarker
  split
  next =>
    refine modest_bind (modest_readFormatMarker cfg inst) fun current => ?_
    split <;> trivial
  next => trivial

theorem modest_stampFormatMarker (cfg : FsConfig) (inst : Instance) :
    Modest dirs (stampFormatMarker cfg inst) := by
  refine modest_bind (modest_ask _ (List.nil_subset _)) fun nonce => ?_
  refine modest_bind (modest_attempt (modest_bind (modest_linkMarker _) fun r => ?_)) fun outcome =>
    modest_bind (modest_ask _ (List.nil_subset _)) fun _ => modest_ofExcept outcome
  cases r with
  | ok _ => trivial
  | error e => exact modest_acceptMarker cfg inst e

theorem modest_adoptOrRefuse (cfg : FsConfig) (inst : Instance) :
    Modest dirs (adoptOrRefuse cfg inst) := by
  refine modest_bind (modest_ask _ (List.nil_subset _)) fun r => ?_
  cases r with
  | error e => trivial
  | ok legacy =>
    cases legacy with
    | none => trivial
    | some legacy =>
      show Modest dirs (if legacy = [] then _ else _)
      split
      next => exact modest_stampFormatMarker cfg inst
      next =>
        refine modest_bind (modest_readFormatMarker cfg inst) fun marked => ?_
        split
        next => exact modest_stampFormatMarker cfg inst
        next => trivial

theorem modest_ensureFormat (cfg : FsConfig) (inst : Instance) (create : Bool)
    (hroot : create = true → [] ∈ dirs) : Modest dirs (ensureFormat cfg inst create) := by
  unfold ensureFormat
  split
  next => trivial
  next =>
    refine modest_bind (modest_canonicalRoot inst) fun _ => ?_
    refine modest_bind (modest_readFormatMarker cfg inst) fun marked => ?_
    split
    next => trivial
    next =>
      split
      next hcreate =>
        have hmakes : (FsOp.mkdir []).makes ⊆ dirs :=
          List.cons_subset.mpr ⟨hroot hcreate, List.nil_subset _⟩
        refine modest_bind (modest_ask _ hmakes) fun r => ?_
        cases r with
        | error e => trivial
        | ok _ => exact modest_adoptOrRefuse cfg inst
      next => exact modest_adoptOrRefuse cfg inst

theorem modest_publishVia (path : Path) (body : Bytes) {publish : Path → Io (Except Errno Unit)}
    (h : ∀ tmp, Modest dirs (publish tmp)) : Modest dirs (publishVia path body publish) := by
  refine modest_bind (modest_ask _ (List.nil_subset _)) fun nonce =>
    modest_bind (modest_writeFile _ _) fun r => ?_
  refine modest_bind ?_ fun outcome => modest_bind (modest_ask _ (List.nil_subset _)) fun _ => trivial
  cases r with
  | error e => trivial
  | ok _ => exact h _

theorem modest_putOver (cfg : FsConfig) (key : Key) (path : Path) (bytes : Bytes) :
    Modest dirs (putOver cfg key path bytes) := by
  refine modest_bind (modest_publishVia path bytes fun tmp =>
    modest_ask (.rename tmp path) (List.nil_subset _)) fun r => ?_
  cases r with
  | ok _ => trivial
  | error e => trivial

theorem modest_putSerialized (cfg : FsConfig) (key : Key) (path : Path) (bytes : Bytes)
    (opts : PutOptions) : Modest dirs (putSerialized cfg key path bytes opts) := by
  refine modest_bind (modest_throwIfAborted _) fun _ => ?_
  split
  next =>
    refine modest_bind (modest_publishVia path bytes fun tmp =>
      modest_ask (.link tmp path) (List.nil_subset _)) fun r => ?_
    cases r with
    | ok _ => trivial
    | error e =>
      show Modest dirs (if e.code = .eexist then _ else _)
      split <;> trivial
  next =>
    cases opts.ifMatch with
    | none => exact modest_putOver cfg key path bytes
    | some ifMatch =>
      refine modest_bind (modest_bind (modest_readExisting path) fun existing => ?_) fun _ =>
        modest_putOver cfg key path bytes
      cases existing with
      | none => trivial
      | some body =>
        show Modest dirs (if cfg.etagOf body ≠ ifMatch then _ else _)
        split <;> trivial

theorem modest_removeSerialized (key : Key) (path : Path) (signal : Bool) :
    Modest dirs (removeSerialized key path signal) := by
  refine modest_bind (modest_throwIfAborted _) fun _ =>
    modest_bind (modest_ask (.rm path) (List.nil_subset _)) fun r => ?_
  cases r with
  | ok _ => trivial
  | error e =>
    show Modest dirs (if e.code = .enoent then _ else _)
    split <;> trivial

/-- A request that makes no directory but these. -/
def Within (dirs : List Path) (op : LockOp ⊕ FsOp) : Prop := ∀ o, op = .inr o → o.makes ⊆ dirs

theorem Makes.within {op : LockOp ⊕ FsOp} (h : Makes dirs op) : Within dirs op := by
  obtain ⟨o, rfl, ho⟩ := h
  rintro o' heq
  cases heq
  exact ho

theorem Makes.isPlain {op : LockOp ⊕ FsOp} (h : Makes dirs op) : IsPlain op :=
  h.imp fun _ ho => ho.1

/-- The program uses the mutex through `withKeyLock`, and makes no directory but these. -/
structure Disciplined (dirs : List Path) (p : Io α) : Prop where
  obeys : Obeys .free p
  asks : p.Asks (Within dirs) fun _ => True

theorem Modest.disciplined {p : Io α} (h : Modest dirs p) : Disciplined dirs p where
  obeys := Plain.obeys (h.weaken fun _ ho => ho.isPlain)
  asks := h.weaken fun _ ho => ho.within

/-- File system calls before a section. -/
theorem Disciplined.after {Q : α → Prop} {p : Io α} {f : α → Io β} (hp : p.Asks (Makes dirs) Q)
    (hf : ∀ a, Q a → Disciplined dirs (f a)) : Disciplined dirs (p.bind f) where
  obeys := Plain.obeys_bind (hp.weaken fun _ ho => ho.isPlain) fun a ha => (hf a ha).obeys
  asks := (hp.weaken fun _ ho => ho.within).bind fun a ha => (hf a ha).asks

/-- The section itself. -/
theorem disciplined_withKeyLock (lockKey : JsString) {p : Io α} (h : Modest dirs p) :
    Disciplined dirs (withKeyLock lockKey p) where
  obeys := obeys_withKeyLock lockKey (h.weaken fun _ ho => ho.isPlain)
  asks := by
    refine ⟨fun o ho => (by cases ho), fun ticket => ⟨fun o ho => (by cases ho), fun _ => ?_⟩⟩
    refine ((h.weaken fun _ ho => ho.within).attempt).bind fun outcome _ => ?_
    refine ⟨fun o ho => (by cases ho), fun _ => ?_⟩
    cases outcome with
    | ok a => trivial
    | error e => trivial

end Modest

/-- The directories a call may make: those its file lies in. -/
def FsCall.makes : FsCall → List Path
  | .put _ key _ _ =>
    match pathFor key with
    | .ok path => path.dropLast.inits
    | .error _ => []
  | _ => []

theorem makes_put {key : Key} {path : Path} (h : pathFor key = .ok path) (inst : Instance)
    (bytes : Bytes) (opts : PutOptions) :
    FsCall.makes (.put inst key bytes opts) = path.dropLast.inits := by
  rw [FsCall.makes, h]

/-- **Every call** goes through `withKeyLock`, if it uses the mutex at all, and makes the
    directories of its own file only. -/
theorem disciplined_body (cfg : FsConfig) (call : FsCall) :
    Disciplined call.makes (body cfg call) := by
  have hnever : false = true → ([] : Path) ∈ call.makes := fun h => by cases h
  cases call with
  | get inst key opts =>
    apply Modest.disciplined
    refine modest_bind (modest_throwIfAborted _) fun _ => modest_bind (modest_ofExcept _) fun path =>
      modest_bind (modest_ensureFormat cfg inst false hnever) fun _ =>
        modest_bind (modest_ask (.readFile path) (List.nil_subset _)) fun r => ?_
    cases r with
    | ok body =>
      show Modest _ (if opts.ifNoneMatch = some (cfg.etagOf body) then _ else _)
      split <;> trivial
    | error e =>
      show Modest _ (if e.code = .enoent then _ else _)
      split <;> trivial
  | put inst key bytes opts =>
    refine Disciplined.after (modest_throwIfAborted _) fun _ _ => ?_
    refine Disciplined.after (asks_pathFor key) fun path hpath => ?_
    rw [makes_put hpath]
    have hroot : ([] : Path) ∈ path.dropLast.inits := (List.mem_inits _ _).mpr List.nil_prefix
    refine Disciplined.after (modest_ensureFormat cfg inst true fun _ => hroot) fun _ _ => ?_
    refine Disciplined.after (modest_ask (.mkdir path.dropLast) (List.Subset.refl _)) fun r _ => ?_
    cases r with
    | error e => exact ⟨trivial, trivial⟩
    | ok _ =>
      refine Disciplined.after (modest_lockKey cfg inst path) fun lockKey _ => ?_
      exact disciplined_withKeyLock lockKey (modest_putSerialized cfg key path bytes opts)
  | delete inst key signal =>
    refine Disciplined.after (modest_throwIfAborted _) fun _ _ => ?_
    refine Disciplined.after (modest_ofExcept _) fun path _ => ?_
    refine Disciplined.after (modest_ensureFormat cfg inst false hnever) fun _ _ => ?_
    refine Disciplined.after (modest_lockKey cfg inst path) fun lockKey _ => ?_
    exact disciplined_withKeyLock lockKey (modest_removeSerialized key path signal)

theorem usesLocks_adapter : UsesLocks (adapter cfg accepts) Disk.locks where
  lock := by
    intro t op pick w r w' h
    obtain ⟨l, hl, rfl⟩ := exec_lock h
    exact hl
  plain := by
    intro t op pick w r w' h
    obtain ⟨⟨r', w₁⟩, hfs, heq⟩ := Option.map_eq_some_iff.mp h
    cases heq
    exact (fsExec_framed hfs).locks
  env := fun {e} => e.elim
  body := fun _ call => (disciplined_body cfg call).obeys

/-- There is always another name. -/
theorem exists_nonce (l : List JsString) : ∃ s, s ∉ l := by
  obtain ⟨s, hs⟩ := Infinite.exists_notMem_finset l.toFinset
  exact ⟨s, fun h => hs (List.mem_toFinset.mpr h)⟩

/-- Every file system call can be answered. -/
theorem fsExec_answers (cfg : FsConfig) (t : Nat) (op : FsOp) (w : Disk) :
    ∃ pick a, fsExec cfg t op pick w = some a := by
  cases op with
  | aborted => exact ⟨.flag false, _, rfl⟩
  | realpath => exact ⟨.ok, _, rfl⟩
  | mkdir dir => exact ⟨.fail noSuchFile, _, rfl⟩
  | readFile path =>
    refine ⟨.ok, ?_⟩
    simp only [fsExec]
    split <;> exact ⟨_, rfl⟩
  | openFile path =>
    refine ⟨.ok, ?_⟩
    simp only [fsExec]
    split <;> exact ⟨_, rfl⟩
  | fillFile path body => exact ⟨.ok, _, rfl⟩
  | link existing path =>
    refine ⟨.ok, ?_⟩
    simp only [fsExec]
    split
    next => exact ⟨_, rfl⟩
    next =>
      split
      next => exact ⟨_, rfl⟩
      next => split <;> exact ⟨_, rfl⟩
  | rename old path =>
    refine ⟨.ok, ?_⟩
    simp only [fsExec]
    split
    next => exact ⟨_, rfl⟩
    next => split <;> exact ⟨_, rfl⟩
  | rm path =>
    refine ⟨.ok, ?_⟩
    simp only [fsExec]
    split <;> exact ⟨_, rfl⟩
  | findLegacyPaths => exact ⟨.legacy none, _, rfl⟩
  | nonce =>
    obtain ⟨s, hs⟩ := exists_nonce (w.nonces.map Prod.fst)
    exact ⟨.text s, _, if_neg hs⟩

theorem answering_adapter : Answering (adapter cfg accepts) Disk.locks where
  plain := by
    intro t op w
    obtain ⟨pick, a, h⟩ := fsExec_answers cfg t op w
    exact ⟨pick, _, _, congrArg (Option.map _) h⟩
  lock := by
    intro t op w r l h
    exact ⟨.ok, _, _, congrArg (Option.map _) h⟩

/-- The state of the mutex after a run. -/
theorem queued_run {files : Files} {dirs : List Path} {as : List (Act (adapter cfg accepts))}
    {σ : Pool Disk (LockOp ⊕ FsOp) (LockedResp FsResp) Err FsCall FsRes}
    (hr : (adapter cfg accepts).run ⟨Disk.opened files dirs, []⟩ as = some σ) :
    Queued Disk.locks σ := by
  have hinit : Queued Disk.locks
      (⟨Disk.opened files dirs, []⟩ : Pool _ _ (LockedResp FsResp) Err FsCall FsRes) :=
    queued_init rfl
  exact hinit.run usesLocks_adapter hr

/-! ## One at a time -/

/-- The calls of the directory. -/
abbrev FsPool := Pool Disk (LockOp ⊕ FsOp) (LockedResp FsResp) Err FsCall FsRes

/-! ### A directory with one key

Two processes' worth of calls on `current.json`, whose file is `1`, through a link to the root. -/

/-- Etags are the bodies themselves. -/
def plainConfig : FsConfig where
  etagOf := fun body => body.map fun b => Fin.ofNat 65536 b.val
  fold := id
  decodeText := fun _ => []
  numbers := ordinalText
  realRoot := js "/data"

/-- The directory before the calls. -/
def oneKey : Files := InsMap.empty.set [js "current.json"] [1]

/-- Write `b` through the link, under the condition. -/
def writeOne (ifMatch : Option Etag) (b : Fin 256) : FsCall :=
  .put ⟨js "/link", true⟩ (js "current.json") [b] ⟨ifMatch, false, false⟩

/-- An action of these runs. -/
abbrev FsAct := Act (adapter plainConfig (rooted plainConfig))

/-- The write of call `t`, from the temporary name to the release. -/
def writes (t : Nat) : List FsAct :=
  .step t (.text [Fin.ofNat 65536 (48 + t)]) :: List.replicate 5 (.step t .ok)

/-- Two calls replace the version `1`; the second has to wait, and then finds another version. -/
def race : List FsAct :=
  [.spawn (writeOne (some [1]) 2), .spawn (writeOne (some [1]) 3)] ++
    List.replicate 3 (.step 0 .ok) ++ List.replicate 3 (.step 1 .ok) ++
    List.replicate 2 (.step 0 .ok) ++ writes 0 ++ List.replicate 3 (.step 1 .ok)

/-- The race is a run. -/
theorem exists_race : ∃ σ : FsPool,
    (adapter plainConfig (rooted plainConfig)).run ⟨Disk.opened oneKey [[]], []⟩ race = some σ :=
  Option.isSome_iff_exists.mp (by decide +kernel)

/-- So is its first half. -/
theorem exists_race_half : ∃ σ : FsPool,
    (adapter plainConfig (rooted plainConfig)).run ⟨Disk.opened oneKey [[]], []⟩ (race.take 8) =
      some σ := by
  obtain ⟨σ, hσ⟩ := exists_race
  rw [← List.take_append_drop 8 race, Machine.run_append] at hσ
  obtain ⟨half, hhalf, -⟩ := hσ
  exact ⟨half, hhalf⟩

/-- One call replaces `1` by `2`, one writes `1` again, and one replaces it by `3`. -/
def restore : List FsAct :=
  .spawn (writeOne (some [1]) 2) :: List.replicate 5 (.step 0 .ok) ++ writes 0 ++
    .spawn (writeOne none 1) :: List.replicate 4 (.step 1 .ok) ++ writes 1 ++
    .spawn (writeOne (some [1]) 3) :: List.replicate 5 (.step 2 .ok) ++ writes 2

/-- Call `t` is this one and resolved. -/
def resolved (σ : FsPool) (t : Nat) (call : FsCall) : Bool :=
  match σ.threads[t]? with
  | some ⟨c, _, .done r _⟩ => decide (c = call) && r.isOk
  | _ => false

theorem exists_resolved {σ : FsPool} {t : Nat} {call : FsCall} (h : resolved σ t call = true) :
    ∃ w₀ a w, σ.threads[t]? = some ⟨call, w₀, .done (.ok a) w⟩ := by
  unfold resolved at h
  split at h
  next c w₀ r w hth =>
    simp only [Bool.and_eq_true, decide_eq_true_eq] at h
    obtain ⟨rfl, hok⟩ := h
    cases r with
    | ok a => exact ⟨w₀, a, w, hth⟩
    | error e => cases hok
  next => cases h

/-- **The mutations of a file are serialised.**  At most one ticket of a lock key has its turn, the
    tickets of a key have their turns in the order they were taken, the map has an entry for exactly
    the keys somebody holds or waits for, and whoever does is a call that is not done. -/
theorem localFs_serialises {files : Files} {dirs : List Path} {as : List (Act (adapter cfg accepts))}
    {σ : FsPool} (hr : (adapter cfg accepts).run ⟨Disk.opened files dirs, []⟩ as = some σ) :
    (∀ i j a b, σ.world.locks.Holds i a → σ.world.locks.Holds j b → a.lockKey = b.lockKey →
      i = j) ∧
    (∀ i j a b, i < j → σ.world.locks.tickets[i]? = some a → σ.world.locks.Holds j b →
      a.lockKey = b.lockKey → a.resolved = true) ∧
    (∀ key, σ.world.locks.live.has key = true ↔ ∃ (i : Nat) (k : Ticket),
      σ.world.locks.tickets[i]? = some k ∧ k.lockKey = key ∧ k.resolved = false) ∧
    (∀ (i : Nat) (k : Ticket), σ.world.locks.tickets[i]? = some k → k.resolved = false →
      ∃ call w₀ op rest, σ.threads[k.owner]? = some ⟨call, w₀, .waiting op rest⟩) := by
  have hq := queued_run hr
  refine ⟨?_, ?_, ?_, fun i k hk hopen => hq.unfinished hk hopen⟩
  · exact fun i j a b ha hb hkey => hq.ok.exclusive ha hb hkey
  · exact fun i j a b hij ha hb hkey => hq.ok.resolved_before hij ha hb.ticket hkey hb.entered
  · intro key
    constructor
    · intro hhas
      obtain ⟨lock, hlock⟩ := Option.isSome_iff_exists.mp hhas
      obtain ⟨o, -, he⟩ := hq.ok.entry key lock hlock
      have hpos := he.pos
      rw [he.waiters] at hpos
      by_contra hnone
      have hzero : σ.world.locks.waiting key = 0 := Locks.waiting_eq_zero.mpr fun i k hk hkey => by
        cases hres : k.resolved with
        | true => rfl
        | false => exact absurd ⟨i, k, hk, hkey, hres⟩ hnone
      omega
    · rintro ⟨i, k, hk, rfl, hopen⟩
      rw [InsMap.has, hq.ok.named i k hk hopen]
      rfl

/-- In the race the lock key of the one file is served in turn. -/
theorem localFs_serialises_race : ∃ σ : FsPool,
    (adapter plainConfig (rooted plainConfig)).run ⟨Disk.opened oneKey [[]], []⟩ race = some σ ∧
      ∀ i j a b, σ.world.locks.Holds i a → σ.world.locks.Holds j b → a.lockKey = b.lockKey →
        i = j := by
  obtain ⟨σ, hσ⟩ := exists_race
  exact ⟨σ, hσ, (localFs_serialises hσ).1⟩

/-- When nobody is left, nothing is left of the mutex either. -/
theorem keyLockCount_finished {σ : FsPool} (hq : Queued Disk.locks σ) (hfin : σ.Finished) :
    σ.world.locks.keyLockCount = 0 := by
  rw [Locks.keyLockCount, InsMap.size, List.length_eq_zero_iff]
  by_contra hne
  obtain ⟨⟨key, lock⟩, hmem⟩ := List.exists_mem_of_ne_nil _ hne
  obtain ⟨o, -, he⟩ := hq.ok.entry key lock (InsMap.mem_entries.mp hmem)
  obtain ⟨i, k, -, hk, hkey, -⟩ := he.tail
  have hzero : σ.world.locks.waiting key = 0 := by
    refine Locks.waiting_eq_zero.mpr fun i k hk _ => ?_
    cases hres : k.resolved with
    | true => rfl
    | false =>
      obtain ⟨call, w₀, op, rest, hth⟩ := hq.unfinished hk hres
      obtain ⟨r, w, hstatus⟩ := hfin _ _ hth
      cases hstatus
  have hpos := he.pos
  rw [he.waiters, hzero] at hpos
  exact absurd hpos (Nat.lt_irrefl 0)

/-- Some schedule of the calls there are finishes all of them. -/
theorem runs_to_end {σ : FsPool} (hq : Queued Disk.locks σ) :
    ∃ steps : List (Nat × FsPick), ∃ σ' : FsPool,
      (adapter cfg accepts).run σ (steps.map fun s => .step s.1 s.2) = some σ' ∧ σ'.Finished := by
  obtain ⟨steps, σ', hrun, hfin, -⟩ := (adapter cfg accepts).completes
    (fun σ t pick σ' hσ hn => Queued.next usesLocks_adapter hσ hn)
    (fun σ hσ hnot => hσ.live answering_adapter hnot) σ hq
  exact ⟨steps, σ', hrun, hfin⟩

/-- **Every call comes to an end.**  In every state of every run some unfinished call can go on, no
    schedule of the calls there are goes on for ever, and some schedule finishes all of them, after
    which the mutex keeps no entry. -/
theorem localFs_completes {files : Files} {dirs : List Path} {as : List (Act (adapter cfg accepts))}
    {σ : FsPool} (hr : (adapter cfg accepts).run ⟨Disk.opened files dirs, []⟩ as = some σ) :
    (¬ σ.Finished → ∃ t pick σ', (adapter cfg accepts).next σ (.step t pick) = some σ') ∧
    (¬ ∃ f : Nat → FsPool, f 0 = σ ∧ ∀ n, ∃ t pick,
      (adapter cfg accepts).next (f n) (.step t pick) = some (f (n + 1))) ∧
    ∃ steps : List (Nat × FsPick), ∃ σ' : FsPool,
      (adapter cfg accepts).run σ (steps.map fun s => .step s.1 s.2) = some σ' ∧
        σ'.Finished ∧ σ'.world.locks.keyLockCount = 0 := by
  have hq := queued_run hr
  refine ⟨hq.live answering_adapter, ?_, ?_⟩
  · rintro ⟨f, -, hf⟩
    have hnone := wellFounded_iff_isEmpty_descending_chain.mp
      (adapter cfg accepts).steps_wellFounded
    exact hnone.false ⟨f, hf⟩
  · obtain ⟨steps, σ', hrun, hfin⟩ := runs_to_end hq
    exact ⟨steps, σ', hrun, hfin, keyLockCount_finished (hq.run usesLocks_adapter hrun) hfin⟩

/-- Half-way through the race both calls can still be finished. -/
theorem localFs_completes_race : ∃ σ : FsPool,
    (adapter plainConfig (rooted plainConfig)).run ⟨Disk.opened oneKey [[]], []⟩
      (race.take 8) = some σ ∧
    ∃ steps : List (Nat × FsPick), ∃ σ' : FsPool,
      (adapter plainConfig (rooted plainConfig)).run σ (steps.map fun s => .step s.1 s.2) =
        some σ' ∧ σ'.Finished ∧ σ'.world.locks.keyLockCount = 0 := by
  obtain ⟨σ, hσ⟩ := exists_race_half
  exact ⟨σ, hσ, (localFs_completes hσ).2.2⟩

/-! ## One atomic bucket -/

section Trace

variable {σ σ' : FsPool}

/-- The trace only grows. -/
theorem next_trace {a : Act (adapter cfg accepts)} (hn : (adapter cfg accepts).next σ a = some σ') :
    σ.world.trace <+: σ'.world.trace := by
  cases a with
  | spawn call =>
    simp only [Machine.next] at hn
    split at hn
    next => cases hn; exact List.prefix_refl _
    next => cases hn
  | env e => exact e.elim
  | step t pick =>
    obtain ⟨call, w₀, op, k, r, -, hex, -⟩ := Machine.next_step hn
    cases op with
    | inl op =>
      obtain ⟨l, -, hw⟩ := exec_lock hex
      rw [hw]
      exact ⟨_, rfl⟩
    | inr op =>
      obtain ⟨a, -, heq⟩ := Option.map_eq_some_iff.mp hex
      have hw : σ.world.record a.2 t = σ'.world := congrArg Prod.snd heq
      rw [← hw]
      exact ⟨_, rfl⟩

theorem run_trace {as : List (Act (adapter cfg accepts))}
    (hr : (adapter cfg accepts).run σ as = some σ') : σ.world.trace <+: σ'.world.trace := by
  induction as generalizing σ with
  | nil => cases hr; exact List.prefix_refl _
  | cons a as ih =>
    simp only [Machine.run, Option.bind_eq_some_iff] at hr
    obtain ⟨ρ, hn, hr⟩ := hr
    exact (next_trace hn).trans (ih hr)

/-- Every call started in a world the pool went through. -/
def Started (σ : FsPool) : Prop :=
  ∀ (t : Nat) th, σ.threads[t]? = some th → th.start.trace <+: σ.world.trace

theorem next_started {a : Act (adapter cfg accepts)} (h : Started σ)
    (hn : (adapter cfg accepts).next σ a = some σ') : Started σ' := by
  have htrace := next_trace hn
  cases a with
  | spawn call =>
    simp only [Machine.next] at hn
    split at hn
    next =>
      cases hn
      intro t th hth
      rw [List.getElem?_append] at hth
      split at hth
      next => exact h t th hth
      next =>
        obtain rfl := List.mem_singleton.mp (List.mem_of_getElem? hth)
        exact List.prefix_refl _
    next => cases hn
  | env e => exact e.elim
  | step t pick =>
    obtain ⟨call, w₀, op, k, r, hth, -, hthreads⟩ := Machine.next_step hn
    intro u th hu
    rw [hthreads] at hu
    by_cases htu : t = u
    · subst htu
      rw [List.getElem?_set_self (List.getElem?_eq_some_iff.mp hth).1] at hu
      cases hu
      exact (h t _ hth).trans htrace
    · rw [List.getElem?_set_ne htu] at hu
      exact (h u th hu).trans htrace

theorem run_started {as : List (Act (adapter cfg accepts))} (h : Started σ)
    (hr : (adapter cfg accepts).run σ as = some σ') : Started σ' := by
  induction as generalizing σ with
  | nil => cases hr; exact h
  | cons a as ih =>
    simp only [Machine.run, Option.bind_eq_some_iff] at hr
    obtain ⟨ρ, hn, hr⟩ := hr
    exact ih (next_started h hn) hr

/-- Steps never change whose call a thread is, nor where it started. -/
theorem steps_thread {steps : List (Nat × FsPick)} {t : Nat} {call : FsCall} {w₀ : Disk}
    {status : Status Disk (LockOp ⊕ FsOp) (LockedResp FsResp) Err (FsRes call)}
    (hr : (adapter cfg accepts).run σ (steps.map fun s => .step s.1 s.2) = some σ')
    (hth : σ.threads[t]? = some ⟨call, w₀, status⟩) :
    ∃ status', σ'.threads[t]? = some ⟨call, w₀, status'⟩ := by
  induction steps generalizing σ status with
  | nil => cases hr; exact ⟨status, hth⟩
  | cons step steps ih =>
    simp only [List.map_cons, Machine.run, Option.bind_eq_some_iff] at hr
    obtain ⟨ρ, hn, hr⟩ := hr
    obtain ⟨call', w₁, op, k, r, hu, -, hthreads⟩ := Machine.next_step hn
    by_cases htu : step.1 = t
    · subst htu
      rw [hth] at hu
      cases hu
      have hρ : ρ.threads[step.1]? = some ⟨call, w₀, settle ρ.world (k r)⟩ := by
        rw [hthreads, List.getElem?_set_self (List.getElem?_eq_some_iff.mp hth).1]
      exact ih hr hρ
    · have hρ : ρ.threads[t]? = some ⟨call, w₀, status⟩ := by
        rw [hthreads, List.getElem?_set_ne htu]
        exact hth
      exact ih hr hρ

end Trace

/-- The call changed no key so far, or it took effect with some outcome. -/
def Underway (cfg : FsConfig) (t : Nat) (call : FsCall) (ms : List Moment) : Prop :=
  Quiet t ms ∨ ∃ r, TookEffect cfg t call r ms

theorem Quiet.left {t : Nat} {ms ms' : List Moment} (h : Quiet t (ms ++ ms')) : Quiet t ms :=
  fun m hm => h m (List.mem_append_left _ hm)

/-- What is known in the end tells what was done so far. -/
theorem Explained.left {dirs : List Path} {t : Nat} {call : FsCall} {r : Except Err (FsRes call)}
    {ms ms' : List Moment} (h : Explained cfg dirs t call r (ms ++ ms')) : Underway cfg t call ms := by
  rcases h with ⟨before, m, after, hsplit, hm, hperform, hbefore, hafter⟩ | ⟨hq, -⟩
  · rcases List.append_eq_append_iff.mp hsplit with ⟨as, rfl, has⟩ | ⟨cs, hms, hcs⟩
    · -- the effect came later
      exact Or.inl hbefore.left
    · cases cs with
      | nil =>
        rw [List.append_nil] at hms
        subst hms
        exact Or.inl hbefore
      | cons c cs =>
        rw [List.cons_append] at hcs
        obtain ⟨rfl, rfl⟩ := List.cons.inj hcs
        exact Or.inr ⟨r, before, m, cs, hms, hm, hperform, hbefore, hafter.left⟩
  · exact Or.inl hq.left

/-- Each call of the pool is one atomic step of the bucket, taken while the call was running, and
    nothing else changes a key. -/
structure Linearized (cfg : FsConfig) (files₀ : Files) (σ : FsPool) : Prop where
  history : Unbroken files₀ σ.world.trace σ.world.files
  spawned : ∀ m ∈ σ.world.trace, m.thread < σ.threads.length
  /-- A finished call: its moment lies between its start and its end. -/
  done : ∀ (t : Nat) call w₀ r w, σ.threads[t]? = some ⟨call, w₀, .done r w⟩ →
    (∀ m ∈ w₀.trace, m.thread ≠ t) ∧
      (∃ ms, w.trace = w₀.trace ++ ms ∧ Explained cfg σ.world.dirs t call r ms) ∧
      ∃ rest, σ.world.trace = w.trace ++ rest ∧ ∀ m ∈ rest, m.thread ≠ t
  underway : ∀ (t : Nat) call w₀ op k, σ.threads[t]? = some ⟨call, w₀, .waiting op k⟩ →
    (∀ m ∈ w₀.trace, m.thread ≠ t) ∧
      ∃ ms, σ.world.trace = w₀.trace ++ ms ∧ Underway cfg t call ms

theorem linearized {files : Files} {dirs : List Path}
    {as : List (Act (adapter cfg (rooted cfg)))} {σ : FsPool}
    (hr : (adapter cfg (rooted cfg)).run ⟨Disk.opened files dirs, []⟩ as = some σ) :
    Linearized cfg files σ := by
  have hinit : (protocol cfg (rooted cfg) files).PoolOk ⟨Disk.opened files dirs, []⟩ :=
    Protocol.poolOk_init ⟨Locks.ok_empty, List.nodup_nil, rfl⟩ fun t =>
      ⟨fun m hm => (by cases hm), fun s hs => (by cases hs), fun i k hk => (by cases hk)⟩
  have hpool := Protocol.sound bodiesOk hinit hr
  have hdone : ∀ {σ : FsPool}, (protocol cfg (rooted cfg) files).PoolOk σ → ∀ (t : Nat) call w₀ r w,
      σ.threads[t]? = some ⟨call, w₀, .done r w⟩ → (∀ m ∈ w₀.trace, m.thread ≠ t) ∧
      (∃ ms, w.trace = w₀.trace ++ ms ∧ Explained cfg σ.world.dirs t call r ms) ∧
      ∃ rest, σ.world.trace = w.trace ++ rest ∧ ∀ m ∈ rest, m.thread ≠ t := by
    intro σ hσ t call w₀ r w hth
    obtain ⟨⟨hbefore, ms, hms, hexplained⟩, hrely⟩ := hσ.thread t _ hth
    exact ⟨hbefore, ⟨ms, hms, hexplained.mono hrely.follows.trace.dirs⟩, hrely.others⟩
  refine ⟨hpool.inv.history, ?_, hdone hpool, ?_⟩
  · intro m hm
    by_contra hge
    exact (hpool.fresh m.thread (Nat.le_of_not_lt hge)).trace m hm rfl
  · -- run everybody to the end, and cut what is known then
    intro t call w₀ op k hth
    obtain ⟨steps, σ', hrun, hfin⟩ := runs_to_end (queued_run hr)
    obtain ⟨status, hth'⟩ := steps_thread hrun hth
    obtain ⟨r, w, hstatus⟩ := hfin t _ hth'
    have hstatus : status = .done r w := hstatus
    rw [hstatus] at hth'
    obtain ⟨hbefore, ⟨ms', hms', hexplained⟩, rest, hrest, hothers⟩ :=
      hdone (Protocol.sound bodiesOk hpool hrun) t call w₀ r w hth'
    have hstarted : Started (⟨Disk.opened files dirs, []⟩ : FsPool) := fun t th h => by cases h
    obtain ⟨ms, hms⟩ := run_started hstarted hr t _ hth
    obtain ⟨more, hmore⟩ := run_trace hrun
    have hwhole : ms ++ more = ms' ++ rest := by
      rw [hrest, hms', ← hms, List.append_assoc, List.append_assoc] at hmore
      exact List.append_cancel_left hmore
    have hexplained : Explained cfg σ'.world.dirs t call r (ms ++ more) := by
      rw [hwhole]
      exact hexplained.append (quiet_of_others hothers)
    exact ⟨hbefore, ms, hms.symm, hexplained.left⟩

/-! ### Keys below keys -/

/-- Some call of the pool is a `put` of the key. -/
def Puts (σ : FsPool) (key : Key) : Prop :=
  ∃ (t : Nat) (inst : Instance) (bytes : Bytes) (opts : PutOptions) (w₀ : Disk),
    ∃ status, σ.threads[t]? = some ⟨.put inst key bytes opts, w₀, status⟩

/-- No key that is put lies below another, and none names a directory that was there before. -/
structure Apart (dirs : List Path) (σ : FsPool) : Prop where
  keys : ∀ key key', Puts σ key → Puts σ key' → ¬ key ++ [slash] <+: key'
  start : ∀ key path, Puts σ key → pathFor key = .ok path → path ∉ dirs

/-- Every directory was there before, or a call of the pool made it for its file. -/
structure Accounted (dirs : List Path) (σ : FsPool) : Prop where
  known : ∀ d ∈ σ.world.dirs, d ∈ dirs ∨
    ∃ t : Nat, ∃ th, σ.threads[t]? = some th ∧ d ∈ th.call.makes
  asks : ∀ (t : Nat) th, σ.threads[t]? = some th → th.Asks fun call => Within call.makes

theorem Accounted.next {dirs : List Path} {σ σ' : FsPool} {a : Act (adapter cfg accepts)}
    (h : Accounted dirs σ) (hn : (adapter cfg accepts).next σ a = some σ') : Accounted dirs σ' := by
  -- the calls of the pool are still in it
  have hknown : ∀ d, (d ∈ dirs ∨ ∃ t : Nat, ∃ th, σ.threads[t]? = some th ∧ d ∈ th.call.makes) →
      d ∈ dirs ∨ ∃ t : Nat, ∃ th, σ'.threads[t]? = some th ∧ d ∈ th.call.makes := by
    rintro d (hd | ⟨t, ⟨call, w₀, status⟩, hth, hd⟩)
    · exact Or.inl hd
    · obtain ⟨status', hth'⟩ := Machine.next_thread hn hth
      exact Or.inr ⟨t, _, hth', hd⟩
  refine ⟨fun d hd => ?_, Machine.next_asks h.asks hn fun call _ => (disciplined_body cfg call).asks⟩
  cases a with
  | spawn call =>
    simp only [Machine.next] at hn
    split at hn
    next => cases hn; exact hknown d (h.known d hd)
    next => cases hn
  | env e => exact e.elim
  | step t pick =>
    obtain ⟨call, w₀, op, k, r, hth, hex, hthreads⟩ := Machine.next_step hn
    cases op with
    | inl op =>
      obtain ⟨l, -, hw⟩ := exec_lock hex
      rw [hw] at hd
      exact hknown d (h.known d hd)
    | inr op =>
      obtain ⟨⟨r', w'⟩, hfs, heq⟩ := Option.map_eq_some_iff.mp hex
      have hw : σ.world.record w' t = σ'.world := congrArg Prod.snd heq
      rw [← hw] at hd
      rcases List.mem_append.mp ((fsExec_framed hfs).made hd) with hd | hd
      · exact hknown d (h.known d hd)
      · exact hknown d (Or.inr ⟨t, _, hth, (h.asks t _ hth _ k rfl).1 op rfl hd⟩)

theorem Accounted.run {dirs : List Path} {as : List (Act (adapter cfg accepts))} {σ σ' : FsPool}
    (h : Accounted dirs σ) (hr : (adapter cfg accepts).run σ as = some σ') : Accounted dirs σ' := by
  induction as generalizing σ with
  | nil => cases hr; exact h
  | cons a as ih =>
    simp only [Machine.run, Option.bind_eq_some_iff] at hr
    obtain ⟨ρ, hn, hr⟩ := hr
    exact ih (h.next hn) hr

/-- Nothing obstructs a create where the keys are apart. -/
theorem Accounted.free {dirs : List Path} {σ : FsPool} (h : Accounted dirs σ) (hapart : Apart dirs σ)
    {t : Nat} {th : Thread Disk (LockOp ⊕ FsOp) (LockedResp FsResp) Err FsCall FsRes}
    (hth : σ.threads[t]? = some th) : ¬ Obstructed σ.world.dirs th.call := by
  rcases th with ⟨call, w₀, status⟩
  intro hobstructed
  cases call with
  | get inst key opts => exact hobstructed
  | delete inst key signal => exact hobstructed
  | put inst key bytes opts =>
    obtain ⟨-, path, hdir, hkey⟩ := hobstructed
    have hputs : Puts σ key := ⟨t, inst, bytes, opts, w₀, status, hth⟩
    rcases h.known path hdir with hstart | ⟨u, ⟨call', w₁, status'⟩, hu, hmakes⟩
    · exact hapart.start key path hputs hkey hstart
    · cases call' with
      | get inst' key' opts' => cases hmakes
      | delete inst' key' signal => cases hmakes
      | put inst' key' bytes' opts' =>
        -- its file lies below the path, so its key lies below the key
        cases hkey' : pathFor key' with
        | error e =>
          change path ∈ FsCall.makes _ at hmakes
          rw [FsCall.makes, hkey'] at hmakes
          cases hmakes
        | ok path' =>
          change path ∈ FsCall.makes _ at hmakes
          rw [makes_put hkey', List.mem_inits] at hmakes
          have hne : path ≠ path' := by
            rintro rfl
            have hlength := hmakes.length_le
            rw [List.length_dropLast] at hlength
            have hnil : path = [] := List.length_eq_zero_iff.mp (by omega)
            exact pathFor_ne_nil hkey hnil
          exact hapart.keys key key' hputs ⟨u, inst', bytes', opts', w₁, status', hu⟩
            (below_of_path_start hkey hkey' (hmakes.trans (List.dropLast_prefix path')) hne)

/-- **`LocalFsStorage` is linearizable**, for any calls of any instances over one directory in any
    interleaving, with any file system errors.  Only a create whose path is a directory can be
    refused without effect as if its key existed, and where no key that is put lies below another
    there is none. -/
theorem localFs_linearizable {files : Files} {dirs : List Path}
    {as : List (Act (adapter cfg (rooted cfg)))} {σ : FsPool}
    (hr : (adapter cfg (rooted cfg)).run ⟨Disk.opened files dirs, []⟩ as = some σ) :
    Linearized cfg files σ ∧ (Apart dirs σ → ∀ (t : Nat) th, σ.threads[t]? = some th →
      ¬ Obstructed σ.world.dirs th.call) := by
  have hinit : Accounted dirs (⟨Disk.opened files dirs, []⟩ : FsPool) :=
    ⟨fun d hd => Or.inl hd, fun t th hth => by cases hth⟩
  exact ⟨linearized hr, fun hapart t th hth => (hinit.run hr).free hapart hth⟩

/-- The race has an atomic explanation. -/
theorem localFs_linearizable_race : ∃ σ : FsPool,
    (adapter plainConfig (rooted plainConfig)).run ⟨Disk.opened oneKey [[]], []⟩ race = some σ ∧
      Linearized plainConfig oneKey σ := by
  obtain ⟨σ, hσ⟩ := exists_race
  exact ⟨σ, hσ, (localFs_linearizable hσ).1⟩

/-- Call `t` was told of a conflict. -/
def conflicted (σ : FsPool) (t : Nat) : Bool :=
  match σ.threads[t]? with
  | some ⟨_, _, .done (.error e) _⟩ => e.isWriteConflict
  | _ => false

/-- One call writes `a/b`, then another creates `a`, whose path is a directory by then. -/
def nested : List FsAct :=
  .spawn (.put ⟨js "/link", true⟩ (js "a/b") [1] ⟨none, false, false⟩) ::
    List.replicate 4 (.step 0 .ok) ++ writes 0 ++
    .spawn (.put ⟨js "/link", true⟩ (js "a") [2] ⟨none, true, false⟩) ::
    List.replicate 4 (.step 1 .ok) ++ writes 1

-- the create is refused as a conflict, and there is no value under its key
example : (((adapter plainConfig (rooted plainConfig)).run
    ⟨Disk.opened InsMap.empty [[]], []⟩ nested).any fun σ =>
      conflicted σ 1 && (storeOf σ.world.files (js "a")).isNone) = true := by decide +kernel

/-! ## One winner -/

/-- **What changes a key** is the moment at which some call of the pool takes effect. -/
theorem Linearized.moment {σ : FsPool} (h : Linearized cfg files₀ σ) {m : Moment}
    (hm : m ∈ σ.world.trace) : storeOf m.after = storeOf m.before ∨
      ∃ th r, σ.threads[m.thread]? = some th ∧
        perform cfg th.call (storeOf m.before) = (r, storeOf m.after) := by
  have hlt := h.spawned m hm
  have hth : σ.threads[m.thread]? = some σ.threads[m.thread] := List.getElem?_eq_getElem hlt
  rcases hs : σ.threads[m.thread] with ⟨call, w₀, status⟩
  rw [hs] at hth
  -- among the call's own moments since its start
  have hamong : ∀ {r ms}, m ∈ ms → TookEffect cfg m.thread call r ms →
      storeOf m.after = storeOf m.before ∨ ∃ th r, σ.threads[m.thread]? = some th ∧
        perform cfg th.call (storeOf m.before) = (r, storeOf m.after) := by
    rintro r ms hmem ⟨before, m', after, rfl, -, hperform, hbefore, hafter⟩
    rcases List.mem_append.mp hmem with hmem | hmem
    · exact Or.inl (hbefore m hmem rfl)
    · rcases List.mem_cons.mp hmem with rfl | hmem
      · exact Or.inr ⟨_, r, hth, hperform⟩
      · exact Or.inl (hafter m hmem rfl)
  cases status with
  | done r w =>
    obtain ⟨hbefore, ⟨ms, hms, hexplained⟩, rest, hrest, hothers⟩ := h.done _ _ _ _ _ hth
    rw [hrest, hms, List.append_assoc, List.mem_append] at hm
    rcases hm with hm | hm
    · exact absurd rfl (hbefore m hm)
    · rcases List.mem_append.mp hm with hm | hm
      · rcases hexplained with heff | ⟨hq, -⟩
        · exact hamong hm heff
        · exact Or.inl (hq m hm rfl)
      · exact absurd rfl (hothers m hm)
  | waiting op k =>
    obtain ⟨hbefore, ms, hms, hunder⟩ := h.underway _ _ _ _ _ hth
    rw [hms, List.mem_append] at hm
    rcases hm with hm | hm
    · exact absurd rfl (hbefore m hm)
    · rcases hunder with hq | ⟨r, heff⟩
      · exact Or.inl (hq m hm rfl)
      · exact hamong hm heff

/-- A `put` that resolved has its moment in the trace. -/
theorem Linearized.effect {σ : FsPool} (h : Linearized cfg files₀ σ) {t : Nat} {call : FsCall}
    {w₀ w : Disk} {a : FsRes call} (hth : σ.threads[t]? = some ⟨call, w₀, .done (.ok a) w⟩) :
    ∃ before m after, σ.world.trace = before ++ m :: after ∧ m.thread = t ∧
      perform cfg call (storeOf m.before) = (.ok a, storeOf m.after) := by
  obtain ⟨-, ⟨ms, hms, hexplained⟩, rest, hrest, -⟩ := h.done _ _ _ _ _ hth
  rcases hexplained with ⟨before, m, after, rfl, hm, hperform, -, -⟩ | ⟨-, e, he, -⟩
  · refine ⟨w₀.trace ++ before, m, after ++ rest, ?_, hm, hperform⟩
    rw [hrest, hms]
    simp
  · cases he

/-- What a predicate of the directory turns true between two moments of an unbroken trace, some
    moment between them turns true. -/
theorem Unbroken.turns {p : Files → Prop} {ms : List Moment} {files files' : Files}
    (h : Unbroken files ms files') (hfalse : ¬ p files) (htrue : p files') :
    ∃ m ∈ ms, ¬ p m.before ∧ p m.after := by
  induction ms generalizing files with
  | nil =>
    obtain rfl : files = files' := h
    exact absurd htrue hfalse
  | cons m ms ih =>
    obtain ⟨rfl, hrest⟩ := h
    by_cases hp : p m.after
    · exact ⟨m, List.mem_cons_self, hfalse, hp⟩
    · obtain ⟨m', hm', hturn⟩ := ih hrest hp
      exact ⟨m', List.mem_cons_of_mem m hm', hturn⟩

/-- An unbroken trace is unbroken in the middle. -/
theorem Unbroken.middle {before ms after : List Moment} {m m' : Moment} {files files' : Files}
    (h : Unbroken files (before ++ m :: (ms ++ m' :: after)) files') :
    Unbroken m.after ms m'.before := by
  induction before generalizing files with
  | cons b before ih => exact ih h.2
  | nil =>
    have hrest := h.2
    clear h
    generalize m.after = start at hrest
    induction ms generalizing start with
    | nil => exact hrest.1.symm
    | cons c ms ih => exact ⟨hrest.1, ih _ hrest.2⟩

/-- A successful `ifMatch` found the version it names, and left its own body. -/
theorem perform_ifMatch {inst : Instance} {key : Key} {bytes : Bytes} {opts : PutOptions}
    {s s' : Key → Option Bytes} {tag etag : Etag} (hopts : opts.ifNoneMatch = false)
    (hmatch : opts.ifMatch = some tag)
    (h : perform cfg (.put inst key bytes opts) s = (.ok etag, s')) :
    (s key).map cfg.etagOf = some tag ∧ s' key = some bytes := by
  simp only [perform, hopts, hmatch, Bool.false_eq_true, if_false] at h
  cases hs : s key with
  | none =>
    rw [hs] at h
    cases h
  | some current =>
    simp only [hs] at h
    split at h
    next => cases h
    next htag =>
      cases h
      exact ⟨congrArg some (Decidable.not_not.mp htag), Function.update_self _ _ _⟩

/-- A `put` leaves the bucket alone or stores its body. -/
theorem perform_put {inst : Instance} {key : Key} {bytes : Bytes} {opts : PutOptions}
    {s s' : Key → Option Bytes} {r : Except Err Etag}
    (h : perform cfg (.put inst key bytes opts) s = (r, s')) :
    s' = s ∨ s' = Function.update s key (some bytes) := by
  simp only [perform] at h
  split at h
  next =>
    split at h
    next => cases h; exact Or.inl rfl
    next => cases h; exact Or.inr rfl
  next =>
    split at h
    next => cases h; exact Or.inr rfl
    next => cases h; exact Or.inl rfl
    next =>
      split at h
      next => cases h; exact Or.inl rfl
      next => cases h; exact Or.inr rfl

/-- Only a `put` of a version makes a key hold it. -/
theorem perform_makes {call : FsCall} {s s' : Key → Option Bytes} {r : Except Err (FsRes call)}
    {key : Key} {tag : Etag} (h : perform cfg call s = (r, s'))
    (hbefore : (s key).map cfg.etagOf ≠ some tag) (hafter : (s' key).map cfg.etagOf = some tag) :
    ∃ inst bytes opts, call = .put inst key bytes opts ∧ cfg.etagOf bytes = tag := by
  have hstill : s' key ≠ s key := by
    intro he
    rw [he] at hafter
    exact hbefore hafter
  cases call with
  | get inst key' opts =>
    simp only [perform] at h
    split at h
    next => cases h; exact absurd rfl hstill
    next =>
      split at h
      next => cases h; exact absurd rfl hstill
      next => cases h; exact absurd rfl hstill
  | delete inst key' signal =>
    cases h
    by_cases hk : key = key'
    · subst hk
      rw [Function.update_self] at hafter
      cases hafter
    · exact absurd (Function.update_of_ne hk _ _) hstill
  | put inst key' bytes opts =>
    rcases perform_put h with rfl | rfl
    · exact absurd rfl hstill
    · by_cases hk : key = key'
      · subst hk
        rw [Function.update_self] at hafter
        exact ⟨inst, bytes, opts, rfl, Option.some.inj hafter⟩
      · exact absurd (Function.update_of_ne hk _ _) hstill

/-- The winner that came first lost its version to the one that came second, so somebody restored
    the version both replaced. -/
theorem Linearized.restored {σ : FsPool} (h : Linearized cfg files₀ σ) {key : Key} {tag : Etag}
    {before ms after : List Moment} {m m' : Moment}
    (htrace : σ.world.trace = before ++ m :: (ms ++ m' :: after))
    (hlost : (storeOf m.after key).map cfg.etagOf ≠ some tag)
    (hfound : (storeOf m'.before key).map cfg.etagOf = some tag) :
    ∃ v : Nat, ∃ inst bytes opts w₀ status,
      σ.threads[v]? = some ⟨.put inst key bytes opts, w₀, status⟩ ∧ cfg.etagOf bytes = tag := by
  have hhistory := h.history
  rw [htrace] at hhistory
  obtain ⟨c, hc, hfalse, htrue⟩ := hhistory.middle.turns
    (p := fun files => (storeOf files key).map cfg.etagOf = some tag) hlost hfound
  have hmem : c ∈ σ.world.trace := by
    rw [htrace]
    simp [hc]
  rcases h.moment hmem with hsame | ⟨⟨call, w₀, status⟩, r, hth, hperform⟩
  · rw [hsame] at htrue
    exact absurd htrue hfalse
  · obtain ⟨inst, bytes, opts, rfl, htag⟩ := perform_makes hperform hfalse htrue
    exact ⟨c.thread, inst, bytes, opts, w₀, status, hth, htag⟩

end Baerly.LocalFs
