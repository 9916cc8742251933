import Baerly.Verify.LocalFsBucket

/-
  The directory is a bucket: `LocalFsStorage` is linearizable.

  SPEC: in every run each call takes effect at one of its own requests, with the outcome `perform`
  gives there, and its other requests change no key.  A call that rejects with anything but a
  failed precondition has changed no key at all, and neither has a create that is refused because
  its path is a directory.

  CRUX: between the comparison of `ifMatch` and the `rename` the file does not change, because
  whoever changes the file of a key holds the lock of its path (`held`), and the lock is exclusive.
-/

namespace Baerly.LocalFs

open Async

variable {cfg : FsConfig} {accepts : FsCall → Disk → Bool} {files₀ : Files}

/-! ## What the calls agree on -/

/-- Call `t` is in the section of a key's path. -/
def InSection (cfg : FsConfig) (t : Nat) (path : Path) (w : Disk) : Prop :=
  ∃ i k, w.locks.Holds i k ∧ k.owner = t ∧ k.lockKey = cfg.fold (pathText cfg.realRoot path)

/-- The trace grew, no moment of call `t` changed a key, and the directories are still there. -/
structure Extends (t : Nat) (w w' : Disk) : Prop where
  moments : ∃ ms, w'.trace = w.trace ++ ms ∧ Quiet t ms
  dirs : w.dirs ⊆ w'.dirs

/-- Two extensions are one. -/
theorem Extends.trans {t : Nat} {w w' w'' : Disk} (h : Extends t w w') (h' : Extends t w' w'') :
    Extends t w w'' := by
  obtain ⟨⟨ms, hms, hq⟩, hdirs⟩ := h
  obtain ⟨⟨ms', hms', hq'⟩, hdirs'⟩ := h'
  exact ⟨⟨ms ++ ms', by rw [hms', hms, List.append_assoc], hq.append hq'⟩,
    List.Subset.trans hdirs hdirs'⟩

/-- A moment of call `t` that changes no key. -/
theorem extends_moment {t : Nat} {w w' : Disk} (h : storeOf w'.files = storeOf w.files)
    (hdirs : w.dirs ⊆ w'.dirs) : Extends t w (w.record w' t) := by
  refine ⟨⟨[⟨t, w.files, w'.files⟩], rfl, ?_⟩, hdirs⟩
  intro m hm _
  obtain rfl := List.mem_singleton.mp hm
  exact h

/-- What call `t` sees of the others, or of its own requests that change no key. -/
structure Follows (cfg : FsConfig) (t : Nat) (w w' : Disk) : Prop where
  trace : Extends t w w'
  nonces : ∀ s, (s, t) ∈ w.nonces → (s, t) ∈ w'.nonces
  tickets : ∀ (i : Nat) (k : Ticket), k.owner = t →
    (w'.locks.tickets[i]? = some k ↔ w.locks.tickets[i]? = some k)
  resolved : ∀ p, w.locks.isResolved p = true → w'.locks.isResolved p = true
  /-- The file of a key whose section it is in stays as it is. -/
  held : ∀ path, IsKeyPath path → InSection cfg t path w → w'.files.get path = w.files.get path

/-- What call `t` sees of the others. -/
structure Rely (cfg : FsConfig) (t : Nat) (w w' : Disk) : Prop where
  follows : Follows cfg t w w'
  others : ∃ ms, w'.trace = w.trace ++ ms ∧ ∀ m ∈ ms, m.thread ≠ t
  unnamed : ∀ s, (s, t) ∈ w'.nonces → (s, t) ∈ w.nonces
  temps : ∀ s path, (s, t) ∈ w.nonces → IsTemp path s → w'.files.get path = w.files.get path

variable {t : Nat} {w w' w'' : Disk}

/-- A turn that is held stays held. -/
theorem holds_follows (h : Follows cfg t w w') {i : Nat} {k : Ticket} (hk : w.locks.Holds i k)
    (hown : k.owner = t) : w'.locks.Holds i k :=
  ⟨(h.tickets i k hown).mpr hk.ticket, hk.unresolved, h.resolved _ hk.entered⟩

/-- So a section is not left by itself. -/
theorem InSection.follows {path : Path} (hs : InSection cfg t path w) (h : Follows cfg t w w') :
    InSection cfg t path w' := by
  obtain ⟨i, k, hk, hown, hkey⟩ := hs
  exact ⟨i, k, holds_follows h hk hown, hown, hkey⟩

theorem follows_refl (cfg : FsConfig) (t : Nat) (w : Disk) : Follows cfg t w w :=
  ⟨⟨⟨[], by simp, fun m hm => by cases hm⟩, List.Subset.refl _⟩, fun _ => id,
    fun _ _ _ => Iff.rfl, fun _ => id, fun _ _ _ => rfl⟩

/-- The root stays. -/
theorem Follows.made (h : Follows cfg t w w') (hmade : w.made = true) : w'.made = true :=
  decide_eq_true (h.trace.dirs (of_decide_eq_true hmade))

/-- Steps add up. -/
theorem Follows.trans (h : Follows cfg t w w') (h' : Follows cfg t w' w'') :
    Follows cfg t w w'' where
  trace := h.trace.trans h'.trace
  nonces := fun s hs => h'.nonces s (h.nonces s hs)
  tickets := fun i k hown => (h'.tickets i k hown).trans (h.tickets i k hown)
  resolved := fun p hp => h'.resolved p (h.resolved p hp)
  held := fun path hkey hs =>
    (h'.held path hkey (hs.follows h)).trans (h.held path hkey hs)

theorem rely_refl (cfg : FsConfig) (t : Nat) (w : Disk) : Rely cfg t w w :=
  ⟨follows_refl cfg t w, ⟨[], by simp, fun m hm => by cases hm⟩, fun _ => id, fun _ _ _ _ => rfl⟩

/-- So do the steps of others. -/
theorem Rely.trans (h : Rely cfg t w w') (h' : Rely cfg t w' w'') : Rely cfg t w w'' where
  follows := h.follows.trans h'.follows
  others := by
    obtain ⟨ms, hms, hq⟩ := h.others
    obtain ⟨ms', hms', hq'⟩ := h'.others
    refine ⟨ms ++ ms', by rw [hms', hms, List.append_assoc], ?_⟩
    intro m hm
    rcases List.mem_append.mp hm with hm | hm
    · exact hq m hm
    · exact hq' m hm
  unnamed := fun s hs => h.unnamed s (h'.unnamed s hs)
  temps := fun s path hs hp =>
    (h'.temps s path (h.follows.nonces s hs) hp).trans (h.temps s path hs hp)

/-- The invariant of the directory. -/
structure DiskOk (files₀ : Files) (w : Disk) : Prop where
  locks : w.locks.Ok
  named : (w.nonces.map Prod.fst).Nodup
  history : Unbroken files₀ w.trace w.files

/-- Nothing was done on behalf of the id. -/
structure Unused (t : Nat) (w : Disk) : Prop where
  trace : ∀ m ∈ w.trace, m.thread ≠ t
  nonces : ∀ s, (s, t) ∉ w.nonces
  tickets : ∀ (i : Nat) (k : Ticket), w.locks.tickets[i]? = some k → k.owner ≠ t

/-- No nonce of a thread is used by others. -/
theorem Unused.rely (h : Unused t w) (hr : Rely cfg t w w') : Unused t w' where
  trace := by
    obtain ⟨ms, hms, hq⟩ := hr.others
    rw [hms]
    intro m hm
    rcases List.mem_append.mp hm with hm | hm
    · exact h.trace m hm
    · exact hq m hm
  nonces := fun s hs => h.nonces s (hr.unnamed s hs)
  tickets := fun i k hk hown => h.tickets i k ((hr.follows.tickets i k hown).mp hk) hown

/-- What a finished call owes. -/
def Owes (cfg : FsConfig) (t : Nat) (call : FsCall) (w : Disk) (r : Except Err (FsRes call))
    (w' : Disk) : Prop :=
  (∀ m ∈ w.trace, m.thread ≠ t) ∧
    ∃ ms, w'.trace = w.trace ++ ms ∧ Explained cfg w'.dirs t call r ms

/-- **The protocol of the directory.** -/
def protocol (cfg : FsConfig) (accepts : FsCall → Disk → Bool) (files₀ : Files) :
    Protocol (adapter cfg accepts) where
  inv := DiskOk files₀
  rely := Rely cfg
  fresh := Unused
  post := Owes cfg
  rely_refl := rely_refl cfg
  rely_trans := Rely.trans
  fresh_rely := Unused.rely
  env_ok := fun {e} => e.elim

/-! ## One request -/

/-- Call `t` may change this file. -/
def MayTouch (cfg : FsConfig) (t : Nat) (w : Disk) (path : Path) : Prop :=
  (∃ s, (s, t) ∈ w.nonces ∧ IsTemp path s) ∨ path = [formatMarker] ∨
    (IsKeyPath path ∧ InSection cfg t path w)

/-- What a thread may touch it may touch later. -/
theorem MayTouch.follows {path : Path} (h : MayTouch cfg t w path) (hf : Follows cfg t w w') :
    MayTouch cfg t w' path := by
  rcases h with ⟨s, hs, hp⟩ | hp | ⟨hkey, hs⟩
  · exact Or.inl ⟨s, hf.nonces s hs, hp⟩
  · exact Or.inr (Or.inl hp)
  · exact Or.inr (Or.inr ⟨hkey, hs.follows hf⟩)

/-- Two names of temporary files with one random part were given to one call. -/
theorem nonce_owner {l : List (JsString × Nat)} (h : (l.map Prod.fst).Nodup) {s : JsString}
    {a b : Nat} (ha : (s, a) ∈ l) (hb : (s, b) ∈ l) : a = b := by
  have := InsMap.lookup_eq_some_of_mem h ha
  rw [InsMap.lookup_eq_some_of_mem h hb] at this
  exact (Option.some.inj this).symm

/-- What another call relies on. -/
theorem rely_of_framed {op : FsOp} (hinv : DiskOk files₀ w) (hf : Framed t op w w')
    (htouch : ∀ path ∈ op.touches, MayTouch cfg t w path) {u : Nat} (hu : u ≠ t) :
    Rely cfg u w (w.record w' t) where
  follows := by
    refine ⟨⟨⟨[⟨t, w.files, w'.files⟩], rfl, ?_⟩, hf.kept⟩, ?_, ?_, ?_, ?_⟩
    · exact quiet_of_others fun m hm => by rw [List.mem_singleton.mp hm]; exact Ne.symm hu
    · intro s hs
      rcases hf.nonces with hn | ⟨s', -, hn⟩
      · show (s, u) ∈ w'.nonces
        rw [hn]
        exact hs
      · show (s, u) ∈ w'.nonces
        rw [hn]
        exact List.mem_append_left _ hs
    · intro i k _
      show w'.locks.tickets[i]? = some k ↔ _
      rw [hf.locks]
    · intro p hp
      show w'.locks.isResolved p = true
      rw [hf.locks]
      exact hp
    · -- the lock is exclusive, so `t` does not touch a file `u` holds
      intro path hkey ⟨i, k, hk, hown, hkk⟩
      apply hf.files
      intro hmem
      rcases htouch path hmem with ⟨s, -, hp⟩ | rfl | ⟨-, j, k', hk', hown', hkk'⟩
      · exact hp.not_key hkey
      · exact marker_not_key hkey
      · have hij := hinv.locks.exclusive hk hk' (hkk.trans hkk'.symm)
        subst hij
        obtain rfl : k = k' := by
          have := hk.ticket
          rw [hk'.ticket] at this
          exact (Option.some.inj this).symm
        exact hu (hown.symm.trans hown')
  others := ⟨[⟨t, w.files, w'.files⟩], rfl,
    fun m hm => by rw [List.mem_singleton.mp hm]; exact Ne.symm hu⟩
  unnamed := by
    intro s hs
    have hs : (s, u) ∈ w'.nonces := hs
    rcases hf.nonces with hn | ⟨s', -, hn⟩
    · rw [hn] at hs
      exact hs
    · rw [hn] at hs
      rcases List.mem_append.mp hs with hs | hs
      · exact hs
      · exact absurd (Prod.mk.inj (List.mem_singleton.mp hs)).2 hu
  temps := by
    intro s path hs hp
    apply hf.files
    intro hmem
    rcases htouch path hmem with ⟨s', hs', hp'⟩ | rfl | ⟨hkey, -⟩
    -- a temporary path names its nonce, and the nonce its owner
    · obtain rfl := hp.nonce_eq hp'
      exact hu (nonce_owner hinv.named hs hs')
    · exact hp.ne_marker rfl
    · exact hp.not_key hkey

/-- A file system call is good for the others. -/
theorem stepOk_of_framed {op : FsOp} (hinv : DiskOk files₀ w) (hf : Framed t op w w')
    (htouch : ∀ path ∈ op.touches, MayTouch cfg t w path) :
    (protocol cfg accepts files₀).StepOk t w (w.record w' t) where
  inv := by
    refine ⟨?_, ?_, hinv.history.snoc rfl⟩
    · show w'.locks.Ok
      rw [hf.locks]
      exact hinv.locks
    · show (w'.nonces.map Prod.fst).Nodup
      rcases hf.nonces with hn | ⟨s, hs, hn⟩
      · rw [hn]
        exact hinv.named
      · rw [hn, List.map_append, List.nodup_append]
        refine ⟨hinv.named, List.nodup_singleton s, ?_⟩
        intro a ha b hb hab
        obtain rfl := List.mem_singleton.mp hb
        exact hs (hab ▸ ha)
  others := fun u hu => rely_of_framed hinv hf htouch hu

/-- **Rule for a file system call.** -/
theorem wp_fs {α : Type} {op : FsOp} {k : FsResp op → Io α} {Q : Except Err α → Disk → Prop}
    (htouch : ∀ path ∈ op.touches, MayTouch cfg t w path)
    (hk : ∀ w₁, Rely cfg t w w₁ → DiskOk files₀ w₁ → ∀ pick r w₂,
      fsExec cfg t op pick w₁ = some (r, w₂) →
      (protocol cfg accepts files₀).wp t (k r) Q (w₁.record w₂ t)) :
    (protocol cfg accepts files₀).wp t (.call (.inr op) k) Q w := by
  intro w₁ hrel hinv pick r w₂ hex
  obtain ⟨⟨r', w₃⟩, hfs, heq⟩ := Option.map_eq_some_iff.mp hex
  cases heq
  exact ⟨stepOk_of_framed hinv (fsExec_framed hfs)
    fun path hp => (htouch path hp).follows hrel.follows, hk w₁ hrel hinv pick r' w₃ hfs⟩

/-- A call's own request that touches no key changes none. -/
theorem quiet_of_framed {op : FsOp} (hf : Framed t op w w')
    (htouch : ∀ path ∈ op.touches, ¬ IsKeyPath path) :
    Extends t w (w.record w' t) :=
  extends_moment
    (storeOf_eq fun path hkey => hf.files path fun hmem => htouch path hmem hkey) hf.kept

/-- A step that touches no key only records itself. -/
theorem follows_of_framed {op : FsOp} (hf : Framed t op w w')
    (htouch : ∀ path ∈ op.touches, ¬ IsKeyPath path) : Follows cfg t w (w.record w' t) where
  trace := quiet_of_framed hf htouch
  nonces := by
    intro s hs
    show (s, t) ∈ w'.nonces
    rcases hf.nonces with hn | ⟨s', -, hn⟩
    · rw [hn]
      exact hs
    · rw [hn]
      exact List.mem_append_left _ hs
  tickets := by
    intro i k _
    show w'.locks.tickets[i]? = some k ↔ _
    rw [hf.locks]
  resolved := by
    intro p hp
    show w'.locks.isResolved p = true
    rw [hf.locks]
    exact hp
  held := fun path hkey _ => hf.files path fun hmem => htouch path hmem hkey

/-! ## The mutex -/

/-- A request of the mutex. -/
theorem extends_lock (t : Nat) (w : Disk) (l : Locks) :
    Extends t w (w.record { w with locks := l } t) := by
  apply extends_moment
  · rfl
  · exact List.Subset.refl _

/-- A request of the mutex changes the mutex. -/
theorem stepOk_lock {l : Locks} (hinv : DiskOk files₀ w) (hl : l.Ok)
    (hg : Locks.Grows t w.locks l) :
    (protocol cfg accepts files₀).StepOk t w (w.record { w with locks := l } t) where
  inv := ⟨hl, hinv.named, hinv.history.snoc rfl⟩
  others := by
    intro u hu
    have hothers : ∀ m ∈ [(⟨t, w.files, w.files⟩ : Moment)], m.thread ≠ u :=
      fun m hm => by rw [List.mem_singleton.mp hm]; exact Ne.symm hu
    refine ⟨⟨⟨⟨_, rfl, quiet_of_others hothers⟩, List.Subset.refl _⟩, fun _ => id, ?_,
      hg.resolved, ?_⟩, ⟨_, rfl, hothers⟩, fun _ => id, fun _ _ _ _ => rfl⟩
    · intro i k hown
      exact hg.others i k (by rw [hown]; exact hu)
    · exact fun _ _ _ => rfl

/-- It is answered by the mutex and recorded. -/
theorem exec_lock {op : LockOp} {pick : FsPick} {r : op.Resp}
    (h : (adapter cfg accepts).exec t (.inl op) pick w = some (r, w')) :
    ∃ l, w.locks.exec t op = some (r, l) ∧ w' = w.record { w with locks := l } t := by
  obtain ⟨⟨r', l⟩, hlock, heq⟩ := Option.map_eq_some_iff.mp h
  cases heq
  exact ⟨l, hlock, rfl⟩

/-- **Rule for a section.**  It runs while its ticket holds, and what it establishes has to survive
    the release. -/
theorem wp_withKeyLock {α : Type} {lockKey : JsString} {fn : Io α}
    {R Q : Except Err α → Disk → Prop}
    (hfn : ∀ w₁ own k, Extends t w w₁ → w₁.locks.Holds own k → k.owner = t →
      k.lockKey = lockKey →
      (protocol cfg accepts files₀).wp t fn (fun r w₂ => R r w₂ ∧ w₂.locks.Holds own k) w₁)
    (hQ : ∀ r w₂ w₃, R r w₂ → Extends t w₂ w₃ → Q r w₃) :
    (protocol cfg accepts files₀).wp t (withKeyLock lockKey fn) Q w := by
  intro w₁ hrel₁ hinv₁ pick₁ ticket w₂ hex₁
  obtain ⟨l₂, hlock₁, rfl⟩ := exec_lock hex₁
  have htaken := hinv₁.locks.taken t lockKey
  simp only [Locks.exec, Option.some.injEq] at hlock₁
  rw [hlock₁] at htaken
  refine ⟨stepOk_lock hinv₁ (hinv₁.locks.take htaken) htaken.grows, ?_⟩
  have hmine : l₂.tickets[ticket.2.2]? = some ⟨t, lockKey, ticket.1, ticket.2.1, false⟩ := by
    rw [htaken.tickets, htaken.own]
    simp
  -- the predecessor is resolved: its turn has come
  intro w₃ hrel₃ hinv₃ pick₃ _ w₄ hex₃
  obtain ⟨l₄, hlock₃, rfl⟩ := exec_lock hex₃
  simp only [Locks.exec] at hlock₃
  split at hlock₃
  next hres =>
    cases hlock₃
    have hstill : w₃.locks.tickets[ticket.2.2]? =
        some ⟨t, lockKey, ticket.1, ticket.2.1, false⟩ :=
      (hrel₃.follows.tickets _ _ rfl).mpr hmine
    refine ⟨stepOk_lock hinv₃ hinv₃.locks (Locks.grows_refl t _), ?_⟩
    have hextends : Extends t w (w₃.record { w₃ with locks := w₃.locks } t) :=
      (((Extends.trans hrel₁.follows.trace (extends_lock t w₁ l₂)).trans hrel₃.follows.trace).trans
        (extends_lock t w₃ w₃.locks))
    refine Protocol.wp_attempt_bind (hfn _ ticket.2.2 _ hextends ⟨hstill, rfl, hres⟩ rfl rfl) ?_
    -- and with the outcome of the section it releases
    rintro outcome w₅ ⟨hR, hholds⟩ w₆ hrel₆ hinv₆ pick₆ _ w₇ hex₆
    obtain ⟨l₇, hlock₆, rfl⟩ := exec_lock hex₆
    have hholds₆ := holds_follows hrel₆.follows hholds rfl
    have hreleased := hinv₆.locks.released hholds₆.ticket rfl
    simp only [Locks.exec, Option.some.injEq, Prod.mk.injEq, true_and] at hlock₆
    rw [hlock₆] at hreleased
    refine ⟨stepOk_lock hinv₆ (hinv₆.locks.release hholds₆ hreleased)
      (hreleased.grows hholds₆.ticket), ?_⟩
    have hafter : Extends t w₅ (w₆.record { w₆ with locks := l₇ } t) :=
      Extends.trans hrel₆.follows.trace (extends_lock t w₆ l₇)
    cases outcome with
    | ok a => exact hQ _ _ _ hR hafter
    | error e => exact hQ _ _ _ hR hafter
  next => cases hlock₃

/-! ## Programs that change no key -/

/-- What is known of an outcome: the value it resolves with, or that it is no failed precondition. -/
def Outcome {α : Type} (Q : α → Disk → Prop) (w : Disk) : Except Err α → Prop
  | .ok a => Q a w
  | .error e => e.isWriteConflict = false

/-- The program changes no key, rejects with no failed precondition, and resolves with `Q`. -/
def Calm (cfg : FsConfig) (accepts : FsCall → Disk → Bool) (files₀ : Files) (t : Nat) {α : Type}
    (p : Io α) (Q : α → Disk → Prop) (w : Disk) : Prop :=
  (protocol cfg accepts files₀).wp t p (fun r w' => Follows cfg t w w' ∧ Outcome Q w' r) w

section Calm

variable {α β : Type} {p : Io α} {f : α → Io β} {Q R : α → Disk → Prop} {S : β → Disk → Prop}

theorem calm_ret {a : α} (h : Q a w) : Calm cfg accepts files₀ t (.ret a) Q w :=
  ⟨follows_refl cfg t w, h⟩

theorem calm_throw {e : Err} (h : e.isWriteConflict = false) :
    Calm cfg accepts files₀ t (.throw e) Q w :=
  ⟨follows_refl cfg t w, h⟩

/-- **The rule of sequence**: what comes first changes no key. -/
theorem Calm.bind (h : Calm cfg accepts files₀ t p Q w)
    (hf : ∀ a w', Follows cfg t w w' → Q a w' → Calm cfg accepts files₀ t (f a) S w') :
    Calm cfg accepts files₀ t (p.bind f) S w := by
  refine Protocol.wp_bind (Protocol.wp_mono h ?_)
  rintro (e | a) w' ⟨hw, hout⟩
  · exact ⟨hw, hout⟩
  · refine Protocol.wp_mono (hf a w' hw hout) ?_
    rintro r w'' ⟨hw', hout'⟩
    exact ⟨hw.trans hw', hout'⟩

/-- A captured outcome. -/
theorem Calm.attempt (h : Calm cfg accepts files₀ t p Q w) :
    Calm cfg accepts files₀ t p.attempt (fun r w' => Outcome Q w' r) w := by
  refine Protocol.wp_attempt (Protocol.wp_mono h ?_)
  rintro r w' ⟨hw, hout⟩
  exact ⟨hw, hout⟩

/-- A file system call that touches no file but a temporary one of its own or the marker. -/
theorem calm_ask {op : FsOp} {Q : FsResp op → Disk → Prop}
    (htouch : ∀ path ∈ op.touches,
      (∃ s, (s, t) ∈ w.nonces ∧ IsTemp path s) ∨ path = [formatMarker])
    (hQ : ∀ w₁ pick r w₂, Follows cfg t w w₁ → fsExec cfg t op pick w₁ = some (r, w₂) →
      Q r (w₁.record w₂ t)) :
    Calm cfg accepts files₀ t (Io.ask op) Q w := by
  apply wp_fs
  · intro path hp
    rcases htouch path hp with h | h
    · exact Or.inl h
    · exact Or.inr (Or.inl h)
  · intro w₁ hrel _ pick r w₂ hex
    refine ⟨hrel.follows.trans (follows_of_framed (fsExec_framed hex) ?_),
      hQ w₁ pick r w₂ hrel.follows hex⟩
    intro path hp
    rcases htouch path hp with ⟨s, -, hs⟩ | rfl
    · exact hs.not_key
    · exact marker_not_key

/-- A file system call that touches no file. -/
theorem calm_look {op : FsOp} (htouch : op.touches = []) :
    Calm cfg accepts files₀ t (Io.ask op) (fun _ _ => True) w := by
  apply calm_ask
  · intro path hp
    rw [htouch] at hp
    cases hp
  · exact fun _ _ _ _ _ _ => trivial

end Calm

/-- An aborted call ends before it has done anything. -/
theorem calm_throwIfAborted (signal : Bool) :
    Calm cfg accepts files₀ t (Io.throwIfAborted signal) (fun _ _ => True) w := by
  unfold Io.throwIfAborted
  split
  next =>
    refine (calm_look rfl).bind fun aborted w' _ _ => ?_
    split
    next => exact calm_throw rfl
    next => exact calm_ret trivial
  next => exact calm_ret trivial

/-- Where the root exists, or was spelled canonically, its canonical spelling is found. -/
theorem calm_canonicalRoot (inst : Instance) :
    Calm cfg accepts files₀ t (canonicalRoot inst)
      (fun root _ => (w.made = true ∨ inst.root = cfg.realRoot) → root = cfg.realRoot) w := by
  have hask : Calm cfg accepts files₀ t (Io.ask .realpath) (fun r _ =>
      (∀ root, r = .ok root → root = cfg.realRoot) ∧
        ∀ e : Errno, r = .error e → e.code = .enoent → w.made = false) w := by
    refine calm_ask (fun path hp => by cases hp) ?_
    intro w₁ pick r w₂ hf hex
    cases pick <;> simp only [fsExec, reduceCtorEq] at hex
    case ok =>
      split at hex
      next =>
        cases hex
        exact ⟨fun root h => (by cases h; rfl), fun e h => (by cases h)⟩
      next hmade =>
        cases hex
        refine ⟨fun root h => (by cases h), fun e _ _ => ?_⟩
        cases hm : w.made with
        | false => rfl
        | true => exact absurd (hf.made hm) hmade
    case fail e =>
      split at hex
      next => cases hex
      next hcode =>
        cases hex
        refine ⟨fun root h => (by cases h), fun e' h hc => ?_⟩
        cases h
        exact absurd hc hcode
  refine hask.bind fun r w' _ hr => ?_
  cases r with
  | ok root => exact calm_ret fun _ => hr.1 root rfl
  | error e =>
    show Calm cfg accepts files₀ t (if e.code = .enoent then _ else _) _ w'
    split
    next hcode =>
      refine calm_ret fun hroot => ?_
      rcases hroot with hmade | hspelled
      · rw [hr.2 e rfl hcode] at hmade
        cases hmade
      · exact hspelled
    next => exact calm_throw rfl

/-- The lock key of a path is the folded path under the real root, once there is one. -/
theorem calm_lockKey (inst : Instance) (path : Path) :
    Calm cfg accepts files₀ t (lockKey cfg inst path) (fun key _ =>
      (w.made = true ∨ inst.root = cfg.realRoot) →
        key = cfg.fold (pathText cfg.realRoot path)) w := by
  refine (calm_canonicalRoot inst).bind fun root w' _ hroot => calm_ret fun h => ?_
  rw [hroot h]

/-- Looking at a file changes none. -/
theorem calm_readExisting (path : Path) :
    Calm cfg accepts files₀ t (readExisting path) (fun _ _ => True) w := by
  refine (calm_look rfl).bind fun r w' _ _ => ?_
  cases r with
  | ok body => exact calm_ret trivial
  | error e =>
    show Calm cfg accepts files₀ t (if e.code = .enoent then _ else _) _ w'
    split
    next => exact calm_ret trivial
    next => exact calm_throw rfl

/-- Nor does reading the marker. -/
theorem calm_readFormatMarker (inst : Instance) :
    Calm cfg accepts files₀ t (readFormatMarker cfg inst) (fun _ _ => True) w := by
  refine (calm_readExisting [formatMarker]).attempt.bind fun r w' _ _ => ?_
  cases r with
  | error e => exact calm_throw rfl
  | ok found =>
    cases found with
    | none => exact calm_ret trivial
    | some body =>
      dsimp only
      cases encodingOf cfg body with
      | none => exact calm_throw rfl
      | some encoding =>
        dsimp only
        split
        next => exact calm_throw rfl
        next => exact calm_ret trivial

/-- A temporary name is the call's own. -/
theorem calm_nonce :
    Calm cfg accepts files₀ t (Io.ask .nonce) (fun s w' => (s, t) ∈ w'.nonces) w := by
  refine calm_ask (fun path hp => by cases hp) ?_
  intro w₁ pick r w₂ _ hex
  cases pick <;> simp only [fsExec, reduceCtorEq] at hex
  case text s =>
    split at hex
    next => cases hex
    next =>
      cases hex
      exact List.mem_append_right _ (List.mem_singleton.mpr rfl)

/-- That there is no file is never an `EEXIST`. -/
theorem noFile_ne_eexist (w : Disk) (path : Path) : (w.noFile path).code ≠ .eexist := by
  unfold Disk.noFile
  split
  next => decide
  next =>
    split
    next => decide
    next => decide

/-- Writing a temporary file of one's own: the file is there, or some error other than
    `EEXIST`. -/
theorem calm_writeFile {path : Path} {nonce : JsString} (hpath : IsTemp path nonce)
    (hown : (nonce, t) ∈ w.nonces) (body : Bytes) :
    Calm cfg accepts files₀ t (Io.writeFile path body) (fun r w' =>
      (r = .ok () ∧ w'.files.get path = some body) ∨
        ∃ e : Errno, r = .error e ∧ e.code ≠ .eexist) w := by
  -- opened with `wx`, but the name carries a nonce of the call's own
  have hopen : Calm cfg accepts files₀ t (Io.ask (.openFile path)) (fun r _ =>
      ∀ e : Errno, r = .error e → e.code ≠ .eexist) w := by
    refine calm_ask (fun p hp => ?_) ?_
    · rw [List.mem_singleton.mp hp]
      exact Or.inl ⟨nonce, hown, hpath⟩
    · intro w₁ pick r w₂ _ hex
      cases pick <;> simp only [fsExec, reduceCtorEq] at hex
      case ok =>
        split at hex
        next => cases hex; exact fun e h => by cases h
        next =>
          cases hex
          exact fun e h => by cases h; exact noFile_ne_eexist w₁ path
      case fail e =>
        split at hex
        next => cases hex
        next hcode =>
          cases hex
          exact fun e' h => by cases h; exact hcode
  refine hopen.bind fun r w' hf hr => ?_
  cases r with
  | error e => exact calm_ret (Or.inr ⟨e, rfl, hr e rfl⟩)
  | ok _ =>
    show Calm cfg accepts files₀ t (Io.ask (.fillFile path body)) _ w'
    refine calm_ask (fun p hp => ?_) ?_
    · rw [List.mem_singleton.mp hp]
      exact Or.inl ⟨nonce, hf.nonces nonce hown, hpath⟩
    · intro w₁ pick r w₂ _ hex
      cases pick <;> simp only [fsExec, reduceCtorEq] at hex
      case ok =>
        cases hex
        refine Or.inl ⟨rfl, ?_⟩
        show (w₁.files.set path body).get path = some body
        rw [InsMap.get_set, if_pos rfl]
      case fail e =>
        split at hex
        next => cases hex
        next hcode =>
          cases hex
          exact Or.inr ⟨e, rfl, hcode⟩
      -- a torn write: the file is there with some bytes, and the call fails
      case half e torn =>
        split at hex
        next => cases hex
        next hcode =>
          cases hex
          exact Or.inr ⟨e, rfl, hcode⟩

/-- Whatever is left of a temporary file of one's own is removed. -/
theorem calm_rm {path : Path} {nonce : JsString} (hpath : IsTemp path nonce)
    (hown : (nonce, t) ∈ w.nonces) :
    Calm cfg accepts files₀ t (Io.ask (.rm path)) (fun _ _ => True) w := by
  refine calm_ask (fun p hp => ?_) fun _ _ _ _ _ _ => trivial
  rw [List.mem_singleton.mp hp]
  exact Or.inl ⟨nonce, hown, hpath⟩

/-- Linking the marker writes no key. -/
theorem calm_linkMarker {tmp : Path} {nonce : JsString} (htmp : IsTemp tmp nonce)
    (hown : (nonce, t) ∈ w.nonces) :
    Calm cfg accepts files₀ t (linkMarker tmp) (fun _ _ => True) w := by
  refine (calm_writeFile htmp hown markerBody).bind fun r w' _ _ => ?_
  cases r with
  | error e => exact calm_ret trivial
  | ok _ =>
    show Calm cfg accepts files₀ t (Io.ask (.link tmp [formatMarker])) _ w'
    refine calm_ask (fun p hp => ?_) fun _ _ _ _ _ _ => trivial
    exact Or.inr (List.mem_singleton.mp hp)

/-- Nor does finding it there. -/
theorem calm_acceptMarker (inst : Instance) (e : Errno) :
    Calm cfg accepts files₀ t (acceptMarker cfg inst e) (fun _ _ => True) w := by
  unfold acceptMarker
  split
  next =>
    refine (calm_readFormatMarker inst).bind fun current w' _ _ => ?_
    split
    next => exact calm_ret trivial
    next => exact calm_throw rfl
  next => exact calm_throw rfl

/-- What was computed without the disk changes nothing. -/
theorem calm_ofExcept {α : Type} {Q : α → Disk → Prop} {r : Except Err α} (h : Outcome Q w r) :
    Calm cfg accepts files₀ t (Io.ofExcept r) Q w := by
  cases r with
  | ok a => exact calm_ret h
  | error e => exact calm_throw h

/-- Stamping a directory writes no key. -/
theorem calm_stampFormatMarker (inst : Instance) :
    Calm cfg accepts files₀ t (stampFormatMarker cfg inst) (fun _ _ => True) w := by
  refine calm_nonce.bind fun nonce w₁ _ hown => ?_
  have htemp := isTemp_tempPathFor [formatMarker] nonce
  refine (Calm.bind (S := fun _ _ => True) (calm_linkMarker htemp hown) ?_).attempt.bind
    fun outcome w₂ hf hout => ?_
  · intro r w₂ _ _
    cases r with
    | ok _ => exact calm_ret trivial
    | error e => exact calm_acceptMarker inst e
  · refine (calm_rm htemp (hf.nonces nonce hown)).bind fun _ w₃ _ _ => calm_ofExcept ?_
    cases outcome with
    | ok a => trivial
    | error e => exact hout

/-- Nor does adopting one. -/
theorem calm_adoptOrRefuse (inst : Instance) :
    Calm cfg accepts files₀ t (adoptOrRefuse cfg inst) (fun _ _ => True) w := by
  refine (calm_look rfl).bind fun r w₁ _ _ => ?_
  cases r with
  | error e => exact calm_throw rfl
  | ok legacy =>
    cases legacy with
    | none => exact calm_ret trivial
    | some legacy =>
      show Calm cfg accepts files₀ t (if legacy = [] then _ else _) _ w₁
      split
      next => exact calm_stampFormatMarker inst
      next =>
        refine (calm_readFormatMarker inst).bind fun marked w₂ _ _ => ?_
        split
        next => exact calm_stampFormatMarker inst
        next => exact calm_throw rfl

/-- A `mkdir` that resolved made the root. -/
theorem calm_mkdir (dir : Path) :
    Calm cfg accepts files₀ t (Io.ask (.mkdir dir)) (fun r w' => r = .ok () → w'.made = true) w := by
  refine calm_ask (fun path hp => by cases hp) ?_
  intro w₁ pick r w₂ _ hex
  cases pick <;> simp only [fsExec, reduceCtorEq] at hex
  case ok =>
    split at hex
    next => cases hex; exact fun h => by cases h
    next =>
      split at hex
      next => cases hex; exact fun h => by cases h
      next =>
        cases hex
        intro _
        have hroot : [] ∈ w₁.dirs ++ dir.inits :=
          List.mem_append_right _ ((List.mem_inits _ _).mpr List.nil_prefix)
        exact decide_eq_true hroot
  case fail e => cases hex; exact fun h => by cases h
  case upTo e depth =>
    split at hex
    next => cases hex
    next => cases hex; exact fun h => by cases h

/-- **Making sure of the format changes no key.** -/
theorem calm_ensureFormat (inst : Instance) (create : Bool) :
    Calm cfg accepts files₀ t (ensureFormat cfg inst create) (fun _ _ => True) w := by
  unfold ensureFormat
  split
  next => exact calm_ret trivial
  next =>
    refine (calm_canonicalRoot inst).bind fun _ w₁ _ _ => ?_
    refine (calm_readFormatMarker inst).bind fun marked w₂ _ _ => ?_
    split
    next => exact calm_ret trivial
    next =>
      split
      next =>
        refine (calm_mkdir []).bind fun r w₃ _ _ => ?_
        cases r with
        | error e => exact calm_throw rfl
        | ok _ => exact calm_adoptOrRefuse inst
      next => exact calm_adoptOrRefuse inst

/-! ## Taking effect -/

variable {call : FsCall} {w₀ : Disk}

/-- The call took effect since `w₀`. -/
def Effect (cfg : FsConfig) (t : Nat) (call : FsCall) (w₀ : Disk) (r : Except Err (FsRes call))
    (w : Disk) : Prop :=
  ∃ ms, w.trace = w₀.trace ++ ms ∧ TookEffect cfg t call r ms

/-- The call has changed no key since `w₀`, and has this error to report. -/
def Refused (t : Nat) (call : FsCall) (w₀ : Disk) (e : Err) (w : Disk) : Prop :=
  Extends t w₀ w ∧ (e.isWriteConflict = true → Obstructed w.dirs call)

/-- What is known of a call's moments since `w₀`. -/
def Told (cfg : FsConfig) (t : Nat) (call : FsCall) (w₀ : Disk) (r : Except Err (FsRes call))
    (w : Disk) : Prop :=
  ∃ ms, w.trace = w₀.trace ++ ms ∧ Explained cfg w.dirs t call r ms

/-- An effect has been made, whatever follows. -/
theorem Effect.extends {r : Except Err (FsRes call)} (h : Effect cfg t call w₀ r w)
    (he : Extends t w w') : Effect cfg t call w₀ r w' := by
  obtain ⟨ms, hms, heff⟩ := h
  obtain ⟨ms', hms', hq⟩ := he.moments
  exact ⟨ms ++ ms', by rw [hms', hms, List.append_assoc], heff.append hq⟩

/-- And is told. -/
theorem Effect.told {r : Except Err (FsRes call)} (h : Effect cfg t call w₀ r w) :
    Told cfg t call w₀ r w := by
  obtain ⟨ms, hms, heff⟩ := h
  exact ⟨ms, hms, Or.inl heff⟩

/-- So is a refusal. -/
theorem Refused.told {e : Err} (h : Refused t call w₀ e w) : Told cfg t call w₀ (.error e) w := by
  obtain ⟨⟨⟨ms, hms, hq⟩, -⟩, hc⟩ := h
  exact ⟨ms, hms, Or.inr ⟨hq, e, rfl, hc⟩⟩

/-- An error other than a failed precondition needs no directory to excuse it. -/
theorem refused_of_error {e : Err} (h : Extends t w₀ w) (he : e.isWriteConflict = false) :
    Refused t call w₀ e w :=
  ⟨h, fun hc => by rw [he] at hc; cases hc⟩

/-- Any other rejection tells of no effect. -/
theorem told_of_rejected {e : Err} (h : Extends t w₀ w) (he : e.isWriteConflict = false) :
    Told cfg t call w₀ (.error e) w :=
  (refused_of_error h he).told

/-- What is told stays so. -/
theorem Told.extends {r : Except Err (FsRes call)} (h : Told cfg t call w₀ r w)
    (he : Extends t w w') : Told cfg t call w₀ r w' := by
  obtain ⟨ms, hms, hexplained⟩ := h
  obtain ⟨ms', hms', hq⟩ := he.moments
  exact ⟨ms ++ ms', by rw [hms', hms, List.append_assoc],
    (hexplained.append hq).mono he.dirs⟩

/-- **A moment at which the call takes effect.** -/
theorem effect_of_moment {r : Except Err (FsRes call)} (h : Extends t w₀ w)
    (hp : perform cfg call (storeOf w.files) = (r, storeOf w'.files)) :
    Effect cfg t call w₀ r (w.record w' t) := by
  obtain ⟨ms, hms, hq⟩ := h.moments
  refine ⟨ms ++ [⟨t, w.files, w'.files⟩], ?_, ms, ⟨t, w.files, w'.files⟩, [], rfl, rfl, hp, hq, ?_⟩
  · show w.trace ++ _ = _
    rw [hms, List.append_assoc]
  · exact fun m hm => by cases hm

/-- A request that does not touch the locks keeps a ticket's turn. -/
theorem holds_record {op : FsOp} {i : Nat} {k : Ticket} (hf : Framed t op w w')
    (h : w.locks.Holds i k) : (w.record w' t).locks.Holds i k := by
  show w'.locks.Holds i k
  rw [hf.locks]
  exact h

/-! ### Reading a file -/

/-- What reading a file tells. -/
theorem readFile_cases {path : Path} {pick : FsPick} {r : Except Errno Bytes}
    (h : fsExec cfg t (.readFile path) pick w = some (r, w')) :
    w' = w ∧ ((∃ body, r = .ok body ∧ w.files.get path = some body) ∨
      (∃ e : Errno, r = .error e ∧ e.code = .enoent ∧ w.files.get path = none) ∨
      ∃ e : Errno, r = .error e ∧ e.code ≠ .enoent) := by
  cases pick <;> simp only [fsExec, reduceCtorEq] at h
  case ok =>
    split at h
    next body hbody => cases h; exact ⟨rfl, Or.inl ⟨body, rfl, hbody⟩⟩
    next hnone =>
      cases h
      by_cases hcode : (w.noFile path).code = .enoent
      · exact ⟨rfl, Or.inr (Or.inl ⟨_, rfl, hcode, hnone⟩)⟩
      · exact ⟨rfl, Or.inr (Or.inr ⟨_, rfl, hcode⟩)⟩
  case fail e =>
    split at h
    next => cases h
    next hcode => cases h; exact ⟨rfl, Or.inr (Or.inr ⟨e, rfl, hcode⟩)⟩

/-- A calm start of a call. -/
theorem wp_calm_bind {α β : Type} {p : Io α} {f : α → Io β} {Q : α → Disk → Prop}
    {R : Except Err β → Disk → Prop} (h : Calm cfg accepts files₀ t p Q w)
    (hf : ∀ a w', Follows cfg t w w' → Q a w' → (protocol cfg accepts files₀).wp t (f a) R w')
    (he : ∀ e w', Follows cfg t w w' → e.isWriteConflict = false → R (.error e) w') :
    (protocol cfg accepts files₀).wp t (p.bind f) R w := by
  refine Protocol.wp_seq h ?_ ?_
  · exact fun a w' hw => hf a w' hw.1 hw.2
  · exact fun e w' hw => he e w' hw.1 hw.2

/-- The path of a key, or a refusal. -/
theorem calm_pathFor (key : Key) : Calm cfg accepts files₀ t (Io.ofExcept (pathFor key))
    (fun path _ => pathFor key = .ok path) w := by
  apply calm_ofExcept
  cases hpath : pathFor key with
  | ok path => rfl
  | error e => exact pathFor_rejects hpath

/-- A calm start that never rejects. -/
theorem wp_calm_noThrow {α β : Type} {p : Io α} {f : α → Io β} {Q : α → Disk → Prop}
    {R : Except Err β → Disk → Prop} (h : Calm cfg accepts files₀ t p Q w) (hp : p.NoThrow)
    (hf : ∀ a w', Follows cfg t w w' → Q a w' → (protocol cfg accepts files₀).wp t (f a) R w') :
    (protocol cfg accepts files₀).wp t (p.bind f) R w := by
  refine Protocol.wp_seq (Protocol.wp_noThrow h hp) ?_ ?_
  · exact fun a w' hw => hf a w' hw.1.1 hw.1.2
  · rintro e w' ⟨-, a, ha⟩
    cases ha

theorem noThrow_writeFile (path : Path) (body : Bytes) : (Io.writeFile path body).NoThrow := by
  intro opened
  cases opened with
  | error e => trivial
  | ok _ => exact fun _ => trivial

/-- **`get` takes effect when it reads the file.** -/
theorem wp_get {inst : Instance} {key : Key} {opts : GetOptions} :
    (protocol cfg accepts files₀).wp t (get cfg inst key opts)
      (Told cfg t (.get inst key opts) w₀) w₀ := by
  have hrejected : ∀ {e : Err} {w : Disk}, Follows cfg t w₀ w → e.isWriteConflict = false →
      Told cfg t (.get inst key opts) w₀ (.error e) w := fun hf he => told_of_rejected hf.trace he
  refine wp_calm_bind (calm_throwIfAborted _) (fun _ w₁ hf₁ _ => ?_) fun e w hf he => hrejected hf he
  refine wp_calm_bind (calm_pathFor key) (fun path w₂ hf₂ hpath => ?_)
    fun e w hf he => hrejected (hf₁.trans hf) he
  refine wp_calm_bind (calm_ensureFormat inst false) (fun _ w₃ hf₃ _ => ?_)
    fun e w hf he => hrejected ((hf₁.trans hf₂).trans hf) he
  refine wp_fs (fun p hp => by cases hp) fun w₄ hrel _ pick r w₅ hex => ?_
  have hext := (((hf₁.trans hf₂).trans hf₃).trans hrel.follows).trace
  obtain ⟨rfl, ⟨body, rfl, hbody⟩ | ⟨e, rfl, hcode, hnone⟩ | ⟨e, rfl, hcode⟩⟩ := readFile_cases hex
  · show Protocol.wp _ t (if opts.ifNoneMatch = some (cfg.etagOf body) then _ else _) _ _
    have hstore : storeOf w₅.files key = some body := (storeOf_key hpath _).trans hbody
    split
    next htag =>
      refine (effect_of_moment hext ?_).told
      simp only [perform, hstore, if_pos htag]
    next htag =>
      refine (effect_of_moment hext ?_).told
      simp only [perform, hstore, if_neg htag]
  · show Protocol.wp _ t (if e.code = .enoent then _ else _) _ _
    rw [if_pos hcode]
    refine (effect_of_moment hext ?_).told
    have hstore : storeOf w₅.files key = none := (storeOf_key hpath _).trans hnone
    simp only [perform, hstore]
  · show Protocol.wp _ t (if e.code = .enoent then _ else _) _ _
    rw [if_neg hcode]
    exact told_of_rejected (Extends.trans hext
      (quiet_of_framed (fsExec_framed hex) fun p hp => by cases hp)) rfl

/-! ### Publishing a file -/

/-- **Rule for the write of a temporary file and its publication.**  What the publication
    establishes has to survive the clean-up. -/
theorem wp_publishVia {path : Path} {body : Bytes} {publish : Path → Io (Except Errno Unit)}
    {R : Except Errno Unit → Disk → Prop}
    (hpublish : ∀ nonce w₁, Follows cfg t w w₁ → (nonce, t) ∈ w₁.nonces →
      w₁.files.get (tempPathFor path nonce) = some body →
      (protocol cfg accepts files₀).wp t (publish (tempPathFor path nonce)) (fun r w₂ =>
        ∃ v, r = .ok v ∧ R v w₂ ∧ (nonce, t) ∈ w₂.nonces) w₁)
    (hfail : ∀ (e : Errno) w₁, Follows cfg t w w₁ → e.code ≠ .eexist → R (.error e) w₁)
    (hR : ∀ v w₂ w₃, R v w₂ → Follows cfg t w₂ w₃ → R v w₃) :
    (protocol cfg accepts files₀).wp t (publishVia path body publish) (fun r w' =>
      ∃ v, r = .ok v ∧ R v w') w := by
  refine wp_calm_noThrow calm_nonce (fun _ => trivial) fun nonce w₁ hf₁ hown => ?_
  have htemp := isTemp_tempPathFor path nonce
  -- the clean-up, whatever was done before it
  have hclean : ∀ v w₃, R v w₃ → (nonce, t) ∈ w₃.nonces →
      (protocol cfg accepts files₀).wp t ((Io.ask (.rm (tempPathFor path nonce))).bind fun _ =>
        .ret v) (fun r w' => ∃ v, r = .ok v ∧ R v w') w₃ := by
    intro v w₃ hv hown₃
    refine wp_calm_noThrow (calm_rm htemp hown₃) (fun _ => trivial) fun _ w₄ hf₄ _ => ?_
    exact ⟨v, rfl, hR v w₃ w₄ hv hf₄⟩
  refine wp_calm_noThrow (calm_writeFile htemp hown body) (noThrow_writeFile _ _)
    fun r w₂ hf₂ hr => ?_
  rcases hr with ⟨rfl, hfile⟩ | ⟨e, rfl, hcode⟩
  · refine Protocol.wp_seq
      (hpublish nonce w₂ (hf₁.trans hf₂) (hf₂.nonces nonce hown) hfile) ?_ ?_
    · rintro v w₃ ⟨v', hv, hR', hown₃⟩
      cases hv
      exact hclean v w₃ hR' hown₃
    · rintro e w₃ ⟨v', hv, -⟩
      cases hv
  · exact hclean (.error e) w₂ (hfail e w₂ (hf₁.trans hf₂) hcode) (hf₂.nonces nonce hown)

/-! ### The sections -/

variable {own : Nat} {k : Ticket}

/-- The moment of a `link` onto the file of a key: it is created, or something is there already, the
    file or a directory, or an error changed nothing. -/
theorem link_cases {existing path : Path} {pick : FsPick} {r : Except Errno Unit} {body : Bytes}
    (hfile : w.files.get existing = some body)
    (h : fsExec cfg t (.link existing path) pick w = some (r, w')) :
    (r = .ok () ∧ w.files.get path = none ∧ w'.files.get path = some body) ∨
      (∃ e : Errno, r = .error e ∧ e.code = .eexist ∧
        ((w.files.get path).isSome = true ∨ path ∈ w.dirs) ∧ w' = w) ∨
      ∃ e : Errno, r = .error e ∧ e.code ≠ .eexist ∧ w' = w := by
  cases pick <;> simp only [fsExec, reduceCtorEq] at h
  case ok =>
    rw [hfile] at h
    simp only at h
    split at h
    next htaken =>
      cases h
      refine Or.inr (Or.inl ⟨_, rfl, rfl, ?_, rfl⟩)
      exact (Bool.or_eq_true_iff.mp htaken).imp_right of_decide_eq_true
    next hfree =>
      split at h
      next =>
        cases h
        have hhas : w.files.has path = false := by
          rw [Bool.or_eq_true_iff, not_or, Bool.not_eq_true] at hfree
          exact hfree.1
        refine Or.inl ⟨rfl, by simpa [InsMap.has] using hhas, ?_⟩
        show (w.files.set path body).get path = some body
        rw [InsMap.get_set, if_pos rfl]
      next => cases h; exact Or.inr (Or.inr ⟨_, rfl, noFile_ne_eexist w path, rfl⟩)
  case fail e =>
    split at h
    next => cases h
    next hcode => cases h; exact Or.inr (Or.inr ⟨e, rfl, hcode, rfl⟩)

/-- The moment of a `rename` onto the file of a key. -/
theorem rename_cases {old path : Path} {pick : FsPick} {r : Except Errno Unit} {body : Bytes}
    (hfile : w.files.get old = some body)
    (h : fsExec cfg t (.rename old path) pick w = some (r, w')) :
    (r = .ok () ∧ w'.files.get path = some body) ∨ (∃ e : Errno, r = .error e ∧ w' = w) := by
  cases pick <;> simp only [fsExec, reduceCtorEq] at h
  case ok =>
    rw [hfile] at h
    simp only at h
    split at h
    next =>
      cases h
      refine Or.inl ⟨rfl, ?_⟩
      show ((w.files.erase old).set path body).get path = some body
      rw [InsMap.get_set, if_pos rfl]
    next => cases h; exact Or.inr ⟨_, rfl, rfl⟩
  case fail e => cases h; exact Or.inr ⟨e, rfl, rfl⟩

/-- The moment of an `rm` of the file of a key. -/
theorem rm_cases {path : Path} {pick : FsPick} {r : Except Errno Unit}
    (h : fsExec cfg t (.rm path) pick w = some (r, w')) :
    (r = .ok () ∧ w'.files.get path = none) ∨
      (∃ e : Errno, r = .error e ∧ e.code = .enoent ∧ w.files.get path = none ∧ w' = w) ∨
      ∃ e : Errno, r = .error e ∧ e.code ≠ .enoent ∧ w' = w := by
  cases pick <;> simp only [fsExec, reduceCtorEq] at h
  case ok =>
    split at h
    next =>
      cases h
      refine Or.inl ⟨rfl, ?_⟩
      show (w.files.erase path).get path = none
      rw [InsMap.get_erase, if_pos rfl]
    next hhas =>
      cases h
      have hnone : w.files.get path = none := by simpa [InsMap.has] using hhas
      by_cases hcode : (w.noFile path).code = .enoent
      · exact Or.inr (Or.inl ⟨_, rfl, hcode, hnone, rfl⟩)
      · exact Or.inr (Or.inr ⟨_, rfl, hcode, rfl⟩)
  case fail e =>
    split at h
    next => cases h
    next hcode => cases h; exact Or.inr (Or.inr ⟨e, rfl, hcode, rfl⟩)

/-- The ticket of the section call `t` is in. -/
structure Inside (cfg : FsConfig) (t : Nat) (own : Nat) (k : Ticket) (path : Path) (w : Disk) :
    Prop where
  holds : w.locks.Holds own k
  owner : k.owner = t
  lockKey : k.lockKey = cfg.fold (pathText cfg.realRoot path)

/-- Inside the protected part the section is held. -/
theorem Inside.inSection {path : Path} (h : Inside cfg t own k path w) : InSection cfg t path w :=
  ⟨own, k, h.holds, h.owner, h.lockKey⟩

/-- And stays held. -/
theorem Inside.follows {path : Path} (h : Inside cfg t own k path w) (hf : Follows cfg t w w') :
    Inside cfg t own k path w' :=
  ⟨holds_follows hf h.holds h.owner, h.owner, h.lockKey⟩

/-- A nonce stays its thread's. -/
theorem nonce_record {op : FsOp} {nonce : JsString} (hf : Framed t op w w')
    (h : (nonce, t) ∈ w.nonces) : (nonce, t) ∈ (w.record w' t).nonces := by
  show (nonce, t) ∈ w'.nonces
  rcases hf.nonces with hn | ⟨s, -, hn⟩
  · rw [hn]
    exact h
  · rw [hn]
    exact List.mem_append_left _ h

/-- A step of one's own stays inside. -/
theorem Inside.record {path : Path} {op : FsOp} (h : Inside cfg t own k path w)
    (hf : Framed t op w w') : Inside cfg t own k path (w.record w' t) :=
  ⟨holds_record hf h.holds, h.owner, h.lockKey⟩

variable {inst : Instance} {key : Key} {path : Path} {bytes : Bytes} {opts : PutOptions}

/-- What is known of a `rename` that publishes a body. -/
def Renamed (cfg : FsConfig) (t : Nat) (inst : Instance) (key : Key) (bytes : Bytes)
    (opts : PutOptions) (w₀ : Disk) (v : Except Errno Unit) (w : Disk) : Prop :=
  (v = .ok () ∧ Effect cfg t (.put inst key bytes opts) w₀ (.ok (cfg.etagOf bytes)) w) ∨
    ∃ e, v = .error e ∧ Extends t w₀ w

/-- A rename has been made, whatever follows. -/
theorem Renamed.extends {v : Except Errno Unit} (h : Renamed cfg t inst key bytes opts w₀ v w)
    (he : Extends t w w') : Renamed cfg t inst key bytes opts w₀ v w' := by
  rcases h with ⟨rfl, heff⟩ | ⟨e, rfl, hext⟩
  · exact Or.inl ⟨rfl, heff.extends he⟩
  · exact Or.inr ⟨e, rfl, hext.trans he⟩

/-- A request that left the directory as it was. -/
theorem extends_record (t : Nat) (w : Disk) : Extends t w (w.record w t) :=
  extends_moment rfl (List.Subset.refl _)

/-- **An unconditional publication** takes effect at the `rename`, if the comparison that went
    before is still good for the file as it stands. -/
theorem wp_putOver (hkey : pathFor key = .ok path) (hin : Inside cfg t own k path w)
    (hext : Extends t w₀ w)
    (hperform : ∀ files : Files, files.get path = w.files.get path →
      perform cfg (.put inst key bytes opts) (storeOf files) =
        (.ok (cfg.etagOf bytes), Function.update (storeOf files) key (some bytes))) :
    (protocol cfg accepts files₀).wp t (putOver cfg key path bytes) (fun r w' =>
      Told cfg t (.put inst key bytes opts) w₀ r w' ∧ Inside cfg t own k path w') w := by
  have hpath : IsKeyPath path := ⟨key, hkey⟩
  -- only the `rename` touches the file; until then the lock keeps it as it was
  have hpublished : (protocol cfg accepts files₀).wp t
      (publishVia path bytes fun tmp => Io.ask (.rename tmp path)) (fun r w' =>
        ∃ v, r = .ok v ∧ Renamed cfg t inst key bytes opts w₀ v w' ∧
          Inside cfg t own k path w') w := by
    refine wp_publishVia ?_ ?_ ?_
    · intro nonce w₁ hf₁ hown hfile
      have htemp := isTemp_tempPathFor path nonce
      have hin₁ := hin.follows hf₁
      refine wp_fs ?_ fun w₂ hrel _ pick r w₃ hex => ?_
      · intro p hp
        rcases List.mem_cons.mp hp with rfl | hp
        · exact Or.inl ⟨nonce, hown, htemp⟩
        · rw [List.mem_singleton.mp hp]
          exact Or.inr (Or.inr ⟨hpath, hin₁.inSection⟩)
      · have hframed := fsExec_framed hex
        have hin₂ := hin₁.follows hrel.follows
        have hext₂ := (hext.trans hf₁.trace).trans hrel.follows.trace
        have hfile₂ := (hrel.temps nonce _ hown htemp).trans hfile
        refine ⟨r, rfl, ⟨?_, hin₂.record hframed⟩,
          nonce_record hframed (hrel.follows.nonces nonce hown)⟩
        rcases rename_cases hfile₂ hex with ⟨rfl, hdone⟩ | ⟨e, rfl, rfl⟩
        · -- the file still is what was compared
          have hsame : w₂.files.get path = w.files.get path :=
            (hrel.follows.held path hpath hin₁.inSection).trans
              (hf₁.held path hpath hin.inSection)
          refine Or.inl ⟨rfl, effect_of_moment hext₂ ?_⟩
          rw [hperform _ hsame, storeOf_update hkey hdone]
          intro p hp hne
          refine hframed.files p fun hmem => ?_
          rcases List.mem_cons.mp hmem with rfl | hmem
          · exact htemp.not_key hp
          · exact hne (List.mem_singleton.mp hmem)
        · exact Or.inr ⟨e, rfl, hext₂.trans (extends_record t w₃)⟩
    -- the temporary name could not be written
    · intro e w₁ hf₁ _
      exact ⟨Or.inr ⟨e, rfl, hext.trans hf₁.trace⟩, hin.follows hf₁⟩
    · rintro v w₂ w₃ ⟨hv, hin₂⟩ hf
      exact ⟨hv.extends hf.trace, hin₂.follows hf⟩
  refine Protocol.wp_seq hpublished ?_ ?_
  · rintro v w' ⟨v', hv, hout, hin'⟩
    cases hv
    rcases hout with ⟨rfl, heff⟩ | ⟨e, rfl, he⟩
    · exact ⟨heff.told, hin'⟩
    · exact ⟨told_of_rejected he rfl, hin'⟩
  · rintro e w' ⟨v, hv, -⟩
    cases hv

/-- What is known of a `link` that creates a file. -/
def Linked (cfg : FsConfig) (t : Nat) (inst : Instance) (key : Key) (bytes : Bytes)
    (opts : PutOptions) (w₀ : Disk) (v : Except Errno Unit) (w : Disk) : Prop :=
  (v = .ok () ∧ Effect cfg t (.put inst key bytes opts) w₀ (.ok (cfg.etagOf bytes)) w) ∨
    (∃ e : Errno, v = .error e ∧ e.code = .eexist ∧ Told cfg t (.put inst key bytes opts) w₀
      (.error (preconditionFailed key "ifNoneMatch=\"*\" but key exists")) w) ∨
    ∃ e : Errno, v = .error e ∧ e.code ≠ .eexist ∧ Extends t w₀ w

/-- So has a link. -/
theorem Linked.extends {v : Except Errno Unit} (h : Linked cfg t inst key bytes opts w₀ v w)
    (he : Extends t w w') : Linked cfg t inst key bytes opts w₀ v w' := by
  rcases h with ⟨rfl, heff⟩ | ⟨e, rfl, hcode, heff⟩ | ⟨e, rfl, hcode, hext⟩
  · exact Or.inl ⟨rfl, heff.extends he⟩
  · exact Or.inr (Or.inl ⟨e, rfl, hcode, heff.extends he⟩)
  · exact Or.inr (Or.inr ⟨e, rfl, hcode, hext.trans he⟩)

/-- **An exclusive create** takes effect at the `link`, whether the key is free or taken; it is
    refused without effect where the path is a directory. -/
theorem wp_putIfAbsent (hkey : pathFor key = .ok path) (hin : Inside cfg t own k path w)
    (hext : Extends t w₀ w) (hopts : opts.ifNoneMatch = true) :
    (protocol cfg accepts files₀).wp t (putIfAbsent cfg key path bytes) (fun r w' =>
      Told cfg t (.put inst key bytes opts) w₀ r w' ∧ Inside cfg t own k path w') w := by
  have hpath : IsKeyPath path := ⟨key, hkey⟩
  -- publishing is one `link` of a temporary file that is this call's own
  have hpublished : (protocol cfg accepts files₀).wp t
      (publishVia path bytes fun tmp => Io.ask (.link tmp path)) (fun r w' =>
        ∃ v, r = .ok v ∧ Linked cfg t inst key bytes opts w₀ v w' ∧
          Inside cfg t own k path w') w := by
    refine wp_publishVia ?_ ?_ ?_
    · intro nonce w₁ hf₁ hown hfile
      have htemp := isTemp_tempPathFor path nonce
      have hin₁ := hin.follows hf₁
      refine wp_fs ?_ fun w₂ hrel _ pick r w₃ hex => ?_
      · intro p hp
        rw [List.mem_singleton.mp hp]
        exact Or.inr (Or.inr ⟨hpath, hin₁.inSection⟩)
      · have hframed := fsExec_framed hex
        have hin₂ := hin₁.follows hrel.follows
        have hext₂ := (hext.trans hf₁.trace).trans hrel.follows.trace
        have hfile₂ := (hrel.temps nonce _ hown htemp).trans hfile
        refine ⟨r, rfl, ⟨?_, hin₂.record hframed⟩,
          nonce_record hframed (hrel.follows.nonces nonce hown)⟩
        -- the `link` is the moment: it makes the key, or finds it there
        rcases link_cases hfile₂ hex with ⟨rfl, hfree, hdone⟩ | ⟨e, rfl, hcode, htaken, rfl⟩ |
          ⟨e, rfl, hcode, rfl⟩
        · refine Or.inl ⟨rfl, effect_of_moment hext₂ ?_⟩
          have hnone : (storeOf w₂.files key).isSome = false := by
            rw [storeOf_key hkey, hfree]
            rfl
          have hstore : storeOf w₃.files = Function.update (storeOf w₂.files) key (some bytes) :=
            storeOf_update hkey hdone fun p _ hne =>
              hframed.files p fun hmem => hne (List.mem_singleton.mp hmem)
          rw [hstore]
          simp only [perform, hopts, hnone, if_true, Bool.false_eq_true, if_false]
        · refine Or.inr (Or.inl ⟨e, rfl, hcode, ?_⟩)
          rcases htaken with hfile | hdir
          · refine (effect_of_moment hext₂ ?_).told
            have hsome : (storeOf w₃.files key).isSome = true := by
              rw [storeOf_key hkey]
              exact hfile
            simp only [perform, hopts, hsome, if_true]
          · -- no value under the key, but a directory in its place
            have hafter := hext₂.trans (extends_record t w₃)
            exact Refused.told ⟨hafter, fun _ => ⟨hopts, path, hdir, hkey⟩⟩
        · exact Or.inr (Or.inr ⟨e, rfl, hcode, hext₂.trans (extends_record t w₃)⟩)
    · intro e w₁ hf₁ hcode
      exact ⟨Or.inr (Or.inr ⟨e, rfl, hcode, hext.trans hf₁.trace⟩), hin.follows hf₁⟩
    · rintro v w₂ w₃ ⟨hv, hin₂⟩ hf
      exact ⟨hv.extends hf.trace, hin₂.follows hf⟩
  -- what is left is what the call makes of the answer: EEXIST is a conflict
  refine Protocol.wp_seq hpublished ?_ ?_
  · rintro v w' ⟨v', hv, hout, hin'⟩
    cases hv
    rcases hout with ⟨rfl, heff⟩ | ⟨e, rfl, hcode, heff⟩ | ⟨e, rfl, hcode, he⟩
    · exact ⟨heff.told, hin'⟩
    · show Protocol.wp _ t (if e.code = .eexist then _ else _) _ w'
      rw [if_pos hcode]
      exact ⟨heff, hin'⟩
    · show Protocol.wp _ t (if e.code = .eexist then _ else _) _ w'
      rw [if_neg hcode]
      exact ⟨told_of_rejected he rfl, hin'⟩
  · rintro e w' ⟨v, hv, -⟩
    cases hv

/-- **The comparison of `ifMatch`**: it fails at the moment of the read, or the file it read is the
    one the caller named. -/
theorem wp_checkIfMatch (inst : Instance) (bytes : Bytes) (hkey : pathFor key = .ok path)
    (hin : Inside cfg t own k path w)
    (hext : Extends t w₀ w) {ifMatch : Etag} (hmatch : opts.ifMatch = some ifMatch)
    (hnone : opts.ifNoneMatch = false) :
    (protocol cfg accepts files₀).wp t (checkIfMatch cfg key path ifMatch) (fun r w' =>
      Inside cfg t own k path w' ∧
        ((r = .ok () ∧ Extends t w₀ w' ∧
            ∃ current, w'.files.get path = some current ∧ cfg.etagOf current = ifMatch) ∨
          ∃ e, r = .error e ∧ Told cfg t (.put inst key bytes opts) w₀ (.error e) w')) w := by
  refine wp_fs (fun p hp => by cases hp) fun w₁ hrel _ pick r w₂ hex => ?_
  have hin₁ := (hin.follows hrel.follows).record (fsExec_framed hex)
  have hext₁ := hext.trans hrel.follows.trace
  obtain ⟨rfl, ⟨current, rfl, hbody⟩ | ⟨e, rfl, hcode, hgone⟩ | ⟨e, rfl, hcode⟩⟩ :=
    readFile_cases hex
  · show Protocol.wp _ t (if cfg.etagOf current ≠ ifMatch then _ else _) _ _
    split
    next hne =>
      refine ⟨hin₁, Or.inr ⟨_, rfl, (effect_of_moment hext₁ ?_).told⟩⟩
      have hstore : storeOf w₂.files key = some current := (storeOf_key hkey _).trans hbody
      simp only [perform, hnone, hmatch, hstore, Bool.false_eq_true, if_false, if_pos hne]
    next heq =>
      exact ⟨hin₁, Or.inl ⟨rfl, hext₁.trans (extends_record t w₂), current, hbody,
        Decidable.not_not.mp heq⟩⟩
  · show Protocol.wp _ t (Prog.bind (if e.code = .enoent then _ else _) _) _ _
    rw [if_pos hcode]
    refine ⟨hin₁, Or.inr ⟨_, rfl, (effect_of_moment hext₁ ?_).told⟩⟩
    have hstore : storeOf w₂.files key = none := (storeOf_key hkey _).trans hgone
    simp only [perform, hnone, hmatch, hstore, Bool.false_eq_true, if_false]
  · show Protocol.wp _ t (Prog.bind (if e.code = .enoent then _ else _) _) _ _
    rw [if_neg hcode]
    exact ⟨hin₁, Or.inr ⟨_, rfl, told_of_rejected (hext₁.trans (extends_record t w₂)) rfl⟩⟩

/-- The section of a `put`. -/
theorem wp_putSerialized (hkey : pathFor key = .ok path) (hin : Inside cfg t own k path w)
    (hext : Extends t w₀ w) :
    (protocol cfg accepts files₀).wp t (putSerialized cfg key path bytes opts) (fun r w' =>
      Told cfg t (.put inst key bytes opts) w₀ r w' ∧ Inside cfg t own k path w') w := by
  refine wp_calm_bind (calm_throwIfAborted _) (fun _ w₁ hf₁ _ => ?_) fun e w' hf he =>
    ⟨told_of_rejected (hext.trans hf.trace) he, hin.follows hf⟩
  have hin₁ := hin.follows hf₁
  have hext₁ := hext.trans hf₁.trace
  split
  next hopts => exact wp_putIfAbsent hkey hin₁ hext₁ hopts
  next hopts =>
    have hnone : opts.ifNoneMatch = false := Bool.eq_false_iff.mpr hopts
    cases hmatch : opts.ifMatch with
    | none =>
      refine wp_putOver hkey hin₁ hext₁ fun files _ => ?_
      simp only [perform, hnone, hmatch, Bool.false_eq_true, if_false]
    | some ifMatch =>
      have hcheck : (protocol cfg accepts files₀).wp t (checkIfMatch cfg key path ifMatch) _ w₁ :=
        wp_checkIfMatch inst bytes hkey hin₁ hext₁ hmatch hnone
      refine Protocol.wp_seq hcheck ?_ ?_
      · rintro _ w₂ ⟨hin₂, hout⟩
        rcases hout with ⟨-, hext₂, current, hcurrent, htag⟩ | ⟨e, hr, -⟩
        · refine wp_putOver hkey hin₂ hext₂ fun files hfiles => ?_
          have hstore : storeOf files key = some current := by
            rw [storeOf_key hkey, hfiles, hcurrent]
          simp only [perform, hnone, hmatch, hstore, htag, Bool.false_eq_true, if_false, ne_eq,
            not_true_eq_false]
        · cases hr
      · rintro e w₂ ⟨hin₂, hout⟩
        rcases hout with ⟨hr, -⟩ | ⟨e', hr, htold⟩
        · cases hr
        · cases hr
          exact ⟨htold, hin₂⟩

/-- **`put` takes effect in its section.** -/
theorem wp_put : (protocol cfg accepts files₀).wp t (put cfg inst key bytes opts)
    (Told cfg t (.put inst key bytes opts) w₀) w₀ := by
  have hrejected : ∀ {e : Err} {w : Disk}, Follows cfg t w₀ w → e.isWriteConflict = false →
      Told cfg t (.put inst key bytes opts) w₀ (.error e) w :=
    fun hf he => told_of_rejected hf.trace he
  refine wp_calm_bind (calm_throwIfAborted _) (fun _ w₁ hf₁ _ => ?_) fun e w hf he => hrejected hf he
  refine wp_calm_bind (calm_pathFor key) (fun path w₂ hf₂ hpath => ?_)
    fun e w hf he => hrejected (hf₁.trans hf) he
  have hf₂ := hf₁.trans hf₂
  refine wp_calm_bind (calm_ensureFormat inst true) (fun _ w₃ hf₃ _ => ?_)
    fun e w hf he => hrejected (hf₂.trans hf) he
  have hf₃ := hf₂.trans hf₃
  refine wp_calm_bind (calm_mkdir _) (fun r w₄ hf₄ hmade => ?_)
    fun e w hf he => hrejected (hf₃.trans hf) he
  have hf₄ := hf₃.trans hf₄
  cases r with
  | error e => exact hrejected hf₄ rfl
  | ok _ =>
    -- the root exists, so the lock is the one of the real path
    refine wp_calm_bind (calm_lockKey inst path) (fun lockKey w₅ hf₅ hlock => ?_)
      fun e w hf he => hrejected (hf₄.trans hf) he
    have hf₅ := hf₄.trans hf₅
    refine wp_withKeyLock (R := Told cfg t (.put inst key bytes opts) w₀) ?_ ?_
    · intro w₆ own k hext hholds hown hk
      have hin : Inside cfg t own k path w₆ :=
        ⟨hholds, hown, hk.trans (hlock (Or.inl (hmade rfl)))⟩
      exact Protocol.wp_mono (wp_putSerialized hpath hin (hf₅.trace.trans hext))
        fun r w h => ⟨h.1, h.2.holds⟩
    · exact fun r w₆ w₇ htold hext => htold.extends hext

/-- **`delete` takes effect in its section.** -/
theorem wp_delete {signal : Bool} (hroot : w₀.made = true ∨ inst.root = cfg.realRoot) :
    (protocol cfg accepts files₀).wp t (delete cfg inst key signal)
      (Told cfg t (.delete inst key signal) w₀) w₀ := by
  have hrejected : ∀ {e : Err} {w : Disk}, Follows cfg t w₀ w → e.isWriteConflict = false →
      Told cfg t (.delete inst key signal) w₀ (.error e) w :=
    fun hf he => told_of_rejected hf.trace he
  refine wp_calm_bind (calm_throwIfAborted _) (fun _ w₁ hf₁ _ => ?_) fun e w hf he => hrejected hf he
  refine wp_calm_bind (calm_pathFor key) (fun path w₂ hf₂ hpath => ?_)
    fun e w hf he => hrejected (hf₁.trans hf) he
  have hf₂ := hf₁.trans hf₂
  refine wp_calm_bind (calm_ensureFormat inst false) (fun _ w₃ hf₃ _ => ?_)
    fun e w hf he => hrejected (hf₂.trans hf) he
  have hf₃ := hf₂.trans hf₃
  refine wp_calm_bind (calm_lockKey inst path) (fun lockKey w₄ hf₄ hlock => ?_)
    fun e w hf he => hrejected (hf₃.trans hf) he
  have hf₄ := hf₃.trans hf₄
  have hlock := hlock (hroot.imp_left hf₃.made)
  -- from here on inside the section of the key
  have hkeypath : IsKeyPath path := ⟨key, hpath⟩
  refine wp_withKeyLock (R := Told cfg t (.delete inst key signal) w₀) ?_ ?_
  · intro w₅ own k hext hholds hown hk
    have hin : Inside cfg t own k path w₅ := ⟨hholds, hown, hk.trans hlock⟩
    have hext := hf₄.trace.trans hext
    refine wp_calm_bind (calm_throwIfAborted _) (fun _ w₆ hf₆ _ => ?_) fun e w' hf he =>
      ⟨told_of_rejected (hext.trans hf.trace) he, (hin.follows hf).holds⟩
    have hin₆ := hin.follows hf₆
    refine wp_fs ?_ fun w₇ hrel _ pick r w₈ hex => ?_
    · intro p hp
      rw [List.mem_singleton.mp hp]
      exact Or.inr (Or.inr ⟨hkeypath, hin₆.inSection⟩)
    · have hframed := fsExec_framed hex
      have hin₈ := (hin₆.follows hrel.follows).record hframed
      have hext₇ := (hext.trans hf₆.trace).trans hrel.follows.trace
      -- removed, not there, or the file system refused
      rcases rm_cases hex with ⟨rfl, hdone⟩ | ⟨e, rfl, hcode, hgone, rfl⟩ | ⟨e, rfl, hcode, rfl⟩
      · refine ⟨(effect_of_moment hext₇ ?_).told, hin₈.holds⟩
        have hstore : storeOf w₈.files = Function.update (storeOf w₇.files) key none :=
          storeOf_update hpath hdone fun p _ hne =>
            hframed.files p fun hmem => hne (List.mem_singleton.mp hmem)
        rw [hstore]
        rfl
      · show Protocol.wp _ t (if e.code = .enoent then _ else _) _ _
        rw [if_pos hcode]
        refine ⟨(effect_of_moment hext₇ ?_).told, hin₈.holds⟩
        have hstore : storeOf w₈.files key = none := (storeOf_key hpath _).trans hgone
        show (Except.ok (), Function.update (storeOf w₈.files) key none) = _
        rw [← hstore, Function.update_eq_self]
      · show Protocol.wp _ t (if e.code = .enoent then _ else _) _ _
        rw [if_neg hcode]
        exact ⟨told_of_rejected (hext₇.trans (extends_record t w₈)) rfl, hin₈.holds⟩
  · exact fun r w₅ w₆ htold hext => htold.extends hext

/-! ## Runs -/

/-- Every call meets what it owes. -/
theorem bodiesOk : (protocol cfg (rooted cfg) files₀).BodiesOk := by
  intro t call w _ hfresh haccepts
  have hbody : (protocol cfg (rooted cfg) files₀).wp t (body cfg call) (Told cfg t call w) w := by
    cases call with
    | get inst key opts => exact wp_get
    | put inst key bytes opts => exact wp_put
    | delete inst key signal =>
      apply wp_delete
      have hroot : (w.made || decide (inst.root = cfg.realRoot)) = true := haccepts
      simpa using hroot
  exact Protocol.wp_mono hbody fun r w' htold => ⟨hfresh.trace, htold⟩

end Baerly.LocalFs
