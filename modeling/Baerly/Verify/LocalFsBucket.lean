import Mathlib.Data.List.Infix
import Mathlib.Logic.Function.Basic
import Baerly.LocalFs
import Baerly.Verify.KeyLock
import Baerly.Verify.LocalFsKeyCodec

/-
  The bucket a directory stands for, and what the requests of `LocalFsStorage` do to it.

  SPEC: `perform` is each call as one atomic step on a map from keys to bodies, and `Explained` says
  of the moments of a call that one of them is that step and no other changes a key.  A call that
  did not take effect has changed nothing, and reports a conflict only if it is `Obstructed`: a
  create of a key at whose path there is a directory.

  CRUX: temporary files and the format marker have names no key has, and distinct keys have
  distinct paths, so a file system call changes at most the key whose file it names.
-/

namespace Baerly.LocalFs

open Async

/-! ## The bucket -/

/-- What the directory holds under each key. -/
def storeOf (files : Files) (key : Key) : Option Bytes :=
  match pathFor key with
  | .ok path => files.get path
  | .error _ => none

/-- Each call as one atomic step. -/
def perform (cfg : FsConfig) : (call : FsCall) → (Key → Option Bytes) →
    Except Err (FsRes call) × (Key → Option Bytes)
  | .get _ key opts, s =>
    match s key with
    | none => (.ok none, s)
    | some body =>
      if opts.ifNoneMatch = some (cfg.etagOf body) then (.ok none, s)
      else (.ok (some (body, cfg.etagOf body)), s)
  | .put _ key body opts, s =>
    let written := (.ok (cfg.etagOf body), Function.update s key (some body))
    if opts.ifNoneMatch then
      if (s key).isSome then
        (.error (preconditionFailed key "ifNoneMatch=\"*\" but key exists"), s)
      else written
    else
      match opts.ifMatch, s key with
      | none, _ => written
      | some ifMatch, none =>
        (.error (preconditionFailed key s!"ifMatch={showKey ifMatch} but key does not exist"), s)
      | some ifMatch, some current =>
        if cfg.etagOf current ≠ ifMatch then
          (.error (preconditionFailed key
            s!"ifMatch={showKey ifMatch} but current ETag is {showKey (cfg.etagOf current)}"), s)
        else written
  | .delete _ key _, s => (.ok (), Function.update s key none)

/-! ## Names no key has -/

/-- The path of some key. -/
def IsKeyPath (path : Path) : Prop := ∃ key, pathFor key = .ok path

/-- No component of a key's path is hidden. -/
theorem IsKeyPath.head_ne {path : Path} (h : IsKeyPath path) {c : JsString} (hc : c ∈ path) :
    c.head? ≠ some 46 := by
  obtain ⟨key, hkey⟩ := h
  obtain ⟨hgood, hencode⟩ := goodKey_of_pathFor hkey
  exact (goodName_encodeKey hgood hencode c hc).noDot

/-- Distinct keys have distinct paths. -/
theorem pathFor_injective {key key' : Key} {path : Path} (h : pathFor key = .ok path)
    (h' : pathFor key' = .ok path) : key = key' := by
  have hd := decodeComponents_iff.mpr (goodKey_of_pathFor h)
  have hd' := decodeComponents_iff.mpr (goodKey_of_pathFor h')
  rw [hd] at hd'
  exact Option.some.inj hd'

/-- A key without a path is refused, not in conflict. -/
theorem pathFor_rejects {key : Key} {e : Err} (h : pathFor key = .error e) :
    e.isWriteConflict = false := by
  unfold pathFor at h
  cases hvalid : assertValidStorageKey key with
  | error e' =>
    rw [hvalid] at h
    cases h
    unfold assertValidStorageKey at hvalid
    split at hvalid
    next => cases hvalid; rfl
    next =>
      split at hvalid
      next => cases hvalid; rfl
      next => cases hvalid
  | ok _ =>
    rw [hvalid] at h
    change (if key.head? = some slash then _ else _) = _ at h
    split at h
    next => cases h; rfl
    next =>
      split at h
      next => cases h; rfl
      next =>
        split at h
        next => cases h; rfl
        next =>
          unfold encodeKey at h
          split at h
          next => cases h
          next => cases h; rfl

/-- A staging file with this random part. -/
def IsTemp (path : Path) (nonce : JsString) : Prop := ∃ dir, path = dir ++ [tempStem ++ nonce]

/-- The path of a temporary file is one. -/
theorem isTemp_tempPathFor (path : Path) (nonce : JsString) :
    IsTemp (tempPathFor path nonce) nonce := ⟨path.dropLast, rfl⟩

/-- A temporary path tells its nonce. -/
theorem IsTemp.nonce_eq {path : Path} {s s' : JsString} (h : IsTemp path s) (h' : IsTemp path s') :
    s = s' := by
  obtain ⟨dir, rfl⟩ := h
  obtain ⟨dir', h'⟩ := h'
  have hlast := congrArg List.getLast? h'
  rw [List.getLast?_concat, List.getLast?_concat, Option.some.injEq] at hlast
  exact List.append_cancel_left hlast

/-- No key has a temporary path. -/
theorem IsTemp.not_key {path : Path} {s : JsString} (h : IsTemp path s) : ¬ IsKeyPath path := by
  obtain ⟨dir, rfl⟩ := h
  intro hk
  refine hk.head_ne (c := tempStem ++ s) (by simp) ?_
  rw [List.head?_append_of_ne_nil _ (by decide)]
  rfl

/-- Nor the path of the format marker. -/
theorem marker_not_key : ¬ IsKeyPath [formatMarker] :=
  fun hk => hk.head_ne (List.mem_singleton.mpr rfl) rfl

/-- A temporary file is not the marker. -/
theorem IsTemp.ne_marker {path : Path} {s : JsString} (h : IsTemp path s) :
    path ≠ [formatMarker] := by
  obtain ⟨dir, rfl⟩ := h
  intro he
  have hlast := congrArg List.getLast? he
  rw [List.getLast?_concat] at hlast
  have hunit := congrArg (fun name : JsString => name[8]?) (Option.some.inj hlast)
  have hlen : 8 < tempStem.length := by decide
  simp only [List.getElem?_append_left hlen] at hunit
  exact absurd hunit (by decide)

/-! ## What is stored under the keys -/

/-- The bucket a directory stands for depends on the files under key paths only. -/
theorem storeOf_eq {files files' : Files}
    (h : ∀ path, IsKeyPath path → files'.get path = files.get path) :
    storeOf files' = storeOf files := by
  funext key
  unfold storeOf
  cases hp : pathFor key with
  | error e => rfl
  | ok path => exact h path ⟨key, hp⟩

/-- A key is found at its path. -/
theorem storeOf_key {key : Key} {path : Path} (h : pathFor key = .ok path) (files : Files) :
    storeOf files key = files.get path := by
  rw [storeOf, h]

/-- One file changed, and it is the file of a key. -/
theorem storeOf_update {key : Key} {path : Path} (h : pathFor key = .ok path)
    {files files' : Files} {v : Option Bytes} (hv : files'.get path = v)
    (hne : ∀ p, IsKeyPath p → p ≠ path → files'.get p = files.get p) :
    storeOf files' = Function.update (storeOf files) key v := by
  funext key'
  by_cases hk : key' = key
  · subst hk
    rw [Function.update_self, storeOf_key h, hv]
  · rw [Function.update_of_ne hk]
    unfold storeOf
    cases hp : pathFor key' with
    | error e => rfl
    | ok path' =>
      refine hne path' ⟨key', hp⟩ ?_
      rintro rfl
      exact hk (pathFor_injective hp h)

/-! ## Moments -/

/-- The moments of call `t` leave every key alone. -/
def Quiet (t : Nat) (ms : List Moment) : Prop :=
  ∀ m ∈ ms, m.thread = t → storeOf m.after = storeOf m.before

/-- What others do is no effect of this thread. -/
theorem quiet_of_others {t : Nat} {ms : List Moment} (h : ∀ m ∈ ms, m.thread ≠ t) : Quiet t ms :=
  fun m hm e => absurd e (h m hm)

/-- Two quiet stretches are one. -/
theorem Quiet.append {t : Nat} {ms ms' : List Moment} (h : Quiet t ms) (h' : Quiet t ms') :
    Quiet t (ms ++ ms') := by
  intro m hm
  rcases List.mem_append.mp hm with hm | hm
  · exact h m hm
  · exact h' m hm

/-- The call took effect at one of its moments, with this outcome, and its other moments left
    every key alone. -/
def TookEffect (cfg : FsConfig) (t : Nat) (call : FsCall) (r : Except Err (FsRes call))
    (ms : List Moment) : Prop :=
  ∃ before m after, ms = before ++ m :: after ∧ m.thread = t ∧
    perform cfg call (storeOf m.before) = (r, storeOf m.after) ∧ Quiet t before ∧ Quiet t after

/-- A call that took effect has done so, whatever is quiet after it. -/
theorem TookEffect.append {cfg : FsConfig} {t : Nat} {call : FsCall} {r : Except Err (FsRes call)}
    {ms ms' : List Moment} (h : TookEffect cfg t call r ms) (h' : Quiet t ms') :
    TookEffect cfg t call r (ms ++ ms') := by
  obtain ⟨before, m, after, rfl, hm, hperform, hbefore, hafter⟩ := h
  exact ⟨before, m, after ++ ms', by simp, hm, hperform, hbefore, hafter.append h'⟩

/-- A create of a key whose path is one of these directories. -/
def Obstructed (dirs : List Path) : FsCall → Prop
  | .put _ key _ opts => opts.ifNoneMatch = true ∧ ∃ path ∈ dirs, pathFor key = .ok path
  | _ => False

/-- More directories obstruct more. -/
theorem Obstructed.mono {dirs dirs' : List Path} {call : FsCall} (h : Obstructed dirs call)
    (hdirs : dirs ⊆ dirs') : Obstructed dirs' call := by
  cases call with
  | put inst key body opts =>
    obtain ⟨hopts, path, hpath, hkey⟩ := h
    exact ⟨hopts, path, hdirs hpath, hkey⟩
  | get inst key opts => exact h.elim
  | delete inst key signal => exact h.elim

/-- The call took effect, or it rejected and left every key alone; with a conflict, only where one of
    these directories obstructs it. -/
def Explained (cfg : FsConfig) (dirs : List Path) (t : Nat) (call : FsCall)
    (r : Except Err (FsRes call)) (ms : List Moment) : Prop :=
  TookEffect cfg t call r ms ∨
    (Quiet t ms ∧ ∃ e, r = .error e ∧ (e.isWriteConflict = true → Obstructed dirs call))

/-- So an outcome stays explained when directories are added. -/
theorem Explained.mono {cfg : FsConfig} {dirs dirs' : List Path} {t : Nat} {call : FsCall}
    {r : Except Err (FsRes call)} {ms : List Moment} (h : Explained cfg dirs t call r ms)
    (hdirs : dirs ⊆ dirs') : Explained cfg dirs' t call r ms := by
  rcases h with heff | ⟨hq, e, hr, hconflict⟩
  · exact Or.inl heff
  · exact Or.inr ⟨hq, e, hr, fun he => (hconflict he).mono hdirs⟩

/-- And when nothing more happens. -/
theorem Explained.append {cfg : FsConfig} {dirs : List Path} {t : Nat} {call : FsCall}
    {r : Except Err (FsRes call)} {ms ms' : List Moment} (h : Explained cfg dirs t call r ms)
    (h' : Quiet t ms') : Explained cfg dirs t call r (ms ++ ms') := by
  rcases h with h | ⟨hq, e, hr, hc⟩
  · exact Or.inl (h.append h')
  · exact Or.inr ⟨hq.append h', e, hr, hc⟩

/-- Every moment starts with the directory the one before it left. -/
def Unbroken : Files → List Moment → Files → Prop
  | files, [], files' => files = files'
  | files, m :: ms, files' => m.before = files ∧ Unbroken m.after ms files'

/-- A history goes on from the state it has reached. -/
theorem Unbroken.snoc {files files' : Files} {ms : List Moment} {m : Moment}
    (h : Unbroken files ms files') (hm : m.before = files') : Unbroken files (ms ++ [m]) m.after := by
  induction ms generalizing files with
  | nil =>
    obtain rfl : files = files' := h
    exact ⟨hm, rfl⟩
  | cons m' ms ih => exact ⟨h.1, ih h.2⟩

/-! ## What a request can change -/

/-- The files a request may change. -/
def FsOp.touches : FsOp → List Path
  | .openFile path => [path]
  | .fillFile path _ => [path]
  | .link _ path => [path]
  | .rename old path => [old, path]
  | .rm path => [path]
  | _ => []

/-- The directories a request may make. -/
def FsOp.makes : FsOp → List Path
  | .mkdir dir => dir.inits
  | _ => []

/-- What a file system call of call `t` leaves alone, and which directories it makes. -/
structure Framed (t : Nat) (op : FsOp) (w w' : Disk) : Prop where
  files : ∀ path, path ∉ op.touches → w'.files.get path = w.files.get path
  locks : w'.locks = w.locks
  trace : w'.trace = w.trace
  kept : w.dirs ⊆ w'.dirs
  made : w'.dirs ⊆ w.dirs ++ op.makes
  nonces : w'.nonces = w.nonces ∨
    ∃ s, s ∉ w.nonces.map Prod.fst ∧ w'.nonces = w.nonces ++ [(s, t)]

/-- Doing nothing touches nothing. -/
theorem framed_refl (t : Nat) (op : FsOp) (w : Disk) : Framed t op w w :=
  ⟨fun _ _ => rfl, rfl, rfl, fun _ => id, List.subset_append_left _ _, Or.inl rfl⟩

/-- A request that only changes files it touches. -/
theorem framed_files {t : Nat} {op : FsOp} {w : Disk} {files : Files}
    (h : ∀ path, path ∉ op.touches → files.get path = w.files.get path) :
    Framed t op w { w with files := files } :=
  ⟨h, rfl, rfl, fun _ => id, List.subset_append_left _ _, Or.inl rfl⟩

/-- A request that only makes directories. -/
theorem framed_makeDirs {t : Nat} {op : FsOp} (w : Disk) {dir : Path}
    (h : dir.inits ⊆ op.makes) : Framed t op w (w.makeDirs dir) :=
  ⟨fun _ _ => rfl, rfl, rfl, List.subset_append_left _ _,
    List.append_subset.mpr
      ⟨List.subset_append_left _ _, List.Subset.trans h (List.subset_append_right _ _)⟩,
    Or.inl rfl⟩

/-- Half of a path lies on the way to its end. -/
theorem inits_take_subset (dir : Path) (depth : Nat) : (dir.take depth).inits ⊆ dir.inits := by
  intro d hd
  rw [List.mem_inits] at hd ⊢
  exact hd.trans (List.take_prefix depth dir)

/-- Writing a file touches its path. -/
theorem framed_set {t : Nat} {op : FsOp} (w : Disk) {path : Path} (body : Bytes)
    (h : path ∈ op.touches) : Framed t op w { w with files := w.files.set path body } := by
  apply framed_files
  intro p hp
  rw [InsMap.get_set, if_neg]
  rintro rfl
  exact hp h

/-- So does removing one. -/
theorem framed_erase {t : Nat} {op : FsOp} (w : Disk) {path : Path} (h : path ∈ op.touches) :
    Framed t op w { w with files := w.files.erase path } := by
  apply framed_files
  intro p hp
  rw [InsMap.get_erase, if_neg]
  rintro rfl
  exact hp h

/-- **Each request touches the paths it names, and no other.** -/
theorem fsExec_framed {cfg : FsConfig} {t : Nat} {op : FsOp} {pick : FsPick} {w w' : Disk}
    {r : FsResp op} (h : fsExec cfg t op pick w = some (r, w')) : Framed t op w w' := by
  cases op with
  | aborted => cases pick <;> cases h; exact framed_refl t _ w
  | realpath =>
    cases pick <;> simp only [fsExec, reduceCtorEq] at h
    case ok => cases h; exact framed_refl t _ w
    case fail e =>
      split at h
      next => cases h
      next => cases h; exact framed_refl t _ w
  | mkdir dir =>
    cases pick <;> simp only [fsExec, reduceCtorEq] at h
    case ok =>
      split at h
      next => cases h; exact framed_refl t _ w
      next =>
        split at h
        next => cases h; exact framed_refl t _ w
        next => cases h; exact framed_makeDirs w (List.Subset.refl _)
    case fail e => cases h; exact framed_refl t _ w
    case upTo e depth =>
      split at h
      next => cases h
      next => cases h; exact framed_makeDirs w (inits_take_subset dir depth)
  | readFile path =>
    cases pick <;> simp only [fsExec, reduceCtorEq] at h
    case ok =>
      split at h
      next => cases h; exact framed_refl t _ w
      next => cases h; exact framed_refl t _ w
    case fail e =>
      split at h
      next => cases h
      next => cases h; exact framed_refl t _ w
  | openFile path =>
    cases pick <;> simp only [fsExec, reduceCtorEq] at h
    case ok =>
      split at h
      next => cases h; exact framed_set w _ List.mem_cons_self
      next => cases h; exact framed_refl t _ w
    case fail e =>
      split at h
      next => cases h
      next => cases h; exact framed_refl t _ w
  -- a torn write leaves part of the body, under the path all the same
  | fillFile path body =>
    cases pick <;> simp only [fsExec, reduceCtorEq] at h
    case ok => cases h; exact framed_set w _ List.mem_cons_self
    case fail e =>
      split at h
      next => cases h
      next => cases h; exact framed_refl t _ w
    case half e torn =>
      split at h
      next => cases h
      next => cases h; exact framed_set w _ List.mem_cons_self
  | link existing path =>
    cases pick <;> simp only [fsExec, reduceCtorEq] at h
    case ok =>
      split at h
      next => cases h; exact framed_refl t _ w
      next =>
        split at h
        next => cases h; exact framed_refl t _ w
        next =>
          split at h
          next => cases h; exact framed_set w _ List.mem_cons_self
          next => cases h; exact framed_refl t _ w
    case fail e =>
      split at h
      next => cases h
      next => cases h; exact framed_refl t _ w
  | rename old path =>
    cases pick <;> simp only [fsExec, reduceCtorEq] at h
    case ok =>
      split at h
      next => cases h; exact framed_refl t _ w
      next =>
        split at h
        next =>
          cases h
          -- the one request that touches two paths
          apply framed_files
          intro p hp
          have hne : p ≠ path ∧ p ≠ old := by
            constructor
            · rintro rfl
              exact hp (List.mem_cons_of_mem _ List.mem_cons_self)
            · rintro rfl
              exact hp List.mem_cons_self
          rw [InsMap.get_set, if_neg hne.1, InsMap.get_erase, if_neg hne.2]
        next => cases h; exact framed_refl t _ w
    case fail e => cases h; exact framed_refl t _ w
  | rm path =>
    cases pick <;> simp only [fsExec, reduceCtorEq] at h
    case ok =>
      split at h
      next => cases h; exact framed_erase w List.mem_cons_self
      next => cases h; exact framed_refl t _ w
    case fail e =>
      split at h
      next => cases h
      next => cases h; exact framed_refl t _ w
  | findLegacyPaths =>
    cases pick <;> simp only [fsExec, reduceCtorEq] at h
    case fail e => cases h; exact framed_refl t _ w
    case legacy paths => cases h; exact framed_refl t _ w
  -- nothing but the nonce is new
  | nonce =>
    cases pick <;> simp only [fsExec, reduceCtorEq] at h
    case text s =>
      split at h
      next => cases h
      next hs =>
        cases h
        exact ⟨fun _ _ => rfl, rfl, rfl, fun _ => id, List.subset_append_left _ _,
          Or.inr ⟨_, hs, rfl⟩⟩

end Baerly.LocalFs
