import Baerly.Verify.Gc

/-
  The garbage collector's ledger under concurrent passes.

  SPEC (`ledger_loses_nothing`): any number of `runGc` passes run at once, everybody else changes
  the manifest, the log and the snapshots between any two of their steps, and messages are
  delivered late or twice.  Every ledger that is published has unique keys and at most the cap's
  number of rows, and one publication takes a row away only if the pass that sent it had the
  snapshot deleted or had read a manifest that names it.

  CRUX: a pass merges into the version it read, and the store compares that version.  So whatever
  a pass resolved while the ledger moved on is applied to the rows that are there NOW, and what is
  needed of it is monotone: a delete that was applied, a manifest that was read.
-/

namespace Baerly

open Async

/-! ## The merge -/

section Merge

variable {latest : GcPending} {pass : GcPass}

/-- What is appended is new and was not resolved by the pass. -/
theorem appendNew_fresh {swept present : List Key} {cs : List GcCandidate} :
    ((appendNew swept present cs).map (·.key)).Nodup ∧
      ∀ x ∈ appendNew swept present cs, x.key ∉ swept ∧ x.key ∉ present := by
  induction cs generalizing present with
  | nil => exact ⟨List.nodup_nil, fun x hx => absurd hx List.not_mem_nil⟩
  | cons c cs ih =>
    unfold appendNew
    split
    next hnew =>
      obtain ⟨hnodup, hfresh⟩ := @ih (c.key :: present)
      simp only [Bool.not_eq_true', List.contains_eq_mem, decide_eq_false_iff_not] at hnew
      constructor
      · rw [List.map_cons, List.nodup_cons]
        refine ⟨fun hmem => ?_, hnodup⟩
        obtain ⟨x, hx, hkey⟩ := List.mem_map.mp hmem
        exact (hfresh x hx).2 (hkey ▸ List.mem_cons_self)
      · intro x hx
        rcases List.mem_cons.mp hx with rfl | hx
        · exact hnew
        · exact ⟨(hfresh x hx).1, fun hp => (hfresh x hx).2 (List.mem_cons_of_mem _ hp)⟩
    next => exact ih

/-- Every mark that was not resolved ends up among the keys. -/
theorem appendNew_covers {swept present : List Key} {cs : List GcCandidate} {x : GcCandidate}
    (hx : x ∈ cs) (hswept : x.key ∉ swept) :
    x.key ∈ present ∨ x.key ∈ (appendNew swept present cs).map (·.key) := by
  induction cs generalizing present with
  | nil => cases hx
  | cons c cs ih =>
    unfold appendNew
    split
    next =>
      rcases List.mem_cons.mp hx with rfl | hx
      · exact Or.inr List.mem_cons_self
      · rcases @ih (c.key :: present) hx with hp | hin
        · rcases List.mem_cons.mp hp with heq | hp
          · exact Or.inr (by rw [heq]; exact List.mem_cons_self)
          · exact Or.inl hp
        · exact Or.inr (List.mem_cons_of_mem _ hin)
    next hnot =>
      rcases List.mem_cons.mp hx with rfl | hx
      · by_contra hne
        rw [not_or] at hne
        exact hnot ⟨by simpa using hswept, by simpa using hne.1⟩
      · exact ih hx

/-- **A key the pass resolved is not in the merged ledger**, whatever was there. -/
theorem merge_resolved {x : GcCandidate} (hx : x ∈ (mergeGcPending latest pass).candidates) :
    x.key ∉ pass.sweptKeys := by
  rcases List.mem_append.mp (List.mem_of_mem_take hx) with hold | hnew
  · simpa using (List.mem_filter.mp hold).2
  · exact (appendNew_fresh.2 x hnew).1

/-- A merge keeps one candidate for each key. -/
theorem merge_nodup (h : (latest.candidates.map (·.key)).Nodup) :
    ((mergeGcPending latest pass).candidates.map (·.key)).Nodup := by
  have hall : ((latest.candidates.filter fun c => !pass.sweptKeys.contains c.key) ++
      appendNew pass.sweptKeys
        ((latest.candidates.filter fun c => !pass.sweptKeys.contains c.key).map (·.key))
        pass.newCandidates).map (·.key) |>.Nodup := by
    rw [List.map_append, List.nodup_append]
    refine ⟨(List.filter_sublist.map _).nodup h, appendNew_fresh.1, ?_⟩
    intro k hk k' hk' heq
    obtain ⟨x, hx, rfl⟩ := List.mem_map.mp hk'
    exact (appendNew_fresh.2 x hx).2 (heq ▸ hk)
  exact ((List.take_sublist _ _).map _).nodup hall

/-- And no more than a ledger may have. -/
theorem merge_length : (mergeGcPending latest pass).candidates.length ≤ pass.maxCandidates :=
  List.length_take_le _ _

/-- **A row the pass did not resolve stays**: the cap cuts marks, never rows. -/
theorem merge_keeps (hlen : latest.candidates.length ≤ pass.maxCandidates) {x : GcCandidate}
    (hx : x ∈ latest.candidates) (hkey : x.key ∉ pass.sweptKeys) :
    x ∈ (mergeGcPending latest pass).candidates := by
  have hsurvives : x ∈ latest.candidates.filter fun c => !pass.sweptKeys.contains c.key :=
    List.mem_filter.mpr ⟨hx, by simpa using hkey⟩
  have hshort : (latest.candidates.filter fun c => !pass.sweptKeys.contains c.key).length ≤
      pass.maxCandidates := Nat.le_trans (List.length_filter_le _ _) hlen
  unfold mergeGcPending
  simp only
  rw [List.take_append, List.take_of_length_le hshort]
  exact List.mem_append_left _ hsurvives

/-- **A mark is lost only to the cap**: it is resolved, or in the ledger, or the ledger is full. -/
theorem merge_marks {x : GcCandidate} (hx : x ∈ pass.newCandidates)
    (hkey : x.key ∉ pass.sweptKeys) :
    x.key ∈ (mergeGcPending latest pass).candidates.map (·.key) ∨
      (mergeGcPending latest pass).candidates.length = pass.maxCandidates := by
  unfold mergeGcPending
  simp only
  generalize hs : latest.candidates.filter (fun c => !pass.sweptKeys.contains c.key) = surviving
  have hcover : x.key ∈ (surviving ++ appendNew pass.sweptKeys (surviving.map (·.key))
      pass.newCandidates).map (·.key) := by
    rw [List.map_append, List.mem_append]
    exact appendNew_covers hx hkey
  generalize surviving ++ appendNew pass.sweptKeys (surviving.map (·.key)) pass.newCandidates =
    rows at hcover
  rcases Nat.lt_or_ge pass.maxCandidates rows.length with hlt | hge
  · exact Or.inr (by rw [List.length_take]; omega)
  · exact Or.inl (by rw [List.take_of_length_le hge]; exact hcover)

end Merge

/-- `last_swept_at`, with "never" below every time. -/
def SweptBefore : Option Nat → Option Nat → Prop
  | none, _ => True
  | some a, some b => a ≤ b
  | some _, none => False

theorem SweptBefore.refl (a : Option Nat) : SweptBefore a a := by
  cases a with
  | none => trivial
  | some a => exact Nat.le_refl a

/-- Sweeps go forward. -/
theorem SweptBefore.trans {a b d : Option Nat} (h : SweptBefore a b) (h' : SweptBefore b d) :
    SweptBefore a d := by
  cases a with
  | none => trivial
  | some a =>
    cases b with
    | none => exact absurd h id
    | some b =>
      cases d with
      | none => exact absurd h' id
      | some d => exact Nat.le_trans h h'

/-- The later of two sweeps is not before either. -/
theorem sweptBefore_laterOf (a b : Option Nat) : SweptBefore b (laterOf a b) := by
  cases b with
  | none => trivial
  | some b =>
    cases a with
    | none => exact Nat.le_refl b
    | some a => exact Nat.le_max_right a b

/-! ## Passes among other activity -/

/-- What happens beside the passes: a message arrives, or somebody else publishes, commits, folds
    or retires. -/
inductive GcEnv where
  | deliver (i : Nat)
  | others (cur : Option CurrentJson) (log : Nat → Option LogEntry)
      (snap : Key → Option SnapshotBody) (marker : Key → Bool)

/-- Others may do anything to their objects, within one incarnation of the collection. -/
def gcEnv (generation : Option JsString) : GcEnv → World → Option World
  | .deliver i, w => Baerly.deliver i w
  | .others cur log snap marker, w =>
    if cur.all fun m => m.generation = generation then
      some { w with cur := cur, log := log, snap := snap, marker := marker }
    else none

/-- Any number of passes over one collection. -/
def gcSystem (c : Collection) (generation : Option JsString) :
    Machine World Op Resp Err RunGcOptions fun _ => RunGcResult where
  Pick := Pick
  exec := exec
  Env := GcEnv
  env := gcEnv generation
  body := fun _ opts => runGc c opts
  accepts := fun _ _ => true

/-- A row the way a pass of this incarnation marks it. -/
structure GcCandidate.Marked (c : Collection) (generation : Option JsString) (x : GcCandidate) :
    Prop where
  reason : x.reason = .orphanSnapshot
  canonical : parseMaxSeqFromCanonicalSnapshotKey x.key c.collectionPrefix ≠ none
  generation : x.generation = generation

/-- A ledger that passes of this incarnation may have written. -/
structure GcPending.Kept (c : Collection) (generation : Option JsString) (p : GcPending) : Prop where
  unique : (p.candidates.map (·.key)).Nodup
  bounded : p.candidates.length ≤ gcMaxPendingCandidates
  rows : ∀ x ∈ p.candidates, x.Marked c generation

/-- **Thread `t` resolved `key`**: the store applied its delete, or it read a manifest that names
    the snapshot. -/
def Resolved (w : World) (t : Nat) (key : Key) : Prop :=
  (∃ msg ∈ w.net, msg.owner = t ∧ msg.req = .deleteSnapshot key ∧ msg.applied = true) ∨
  ∃ m tail, Event.readCurrent t (some m) tail ∈ w.trace ∧ m.snapshot = some key

/-- What a pass of thread `t` may merge. -/
structure GcPass.Sound (c : Collection) (generation : Option JsString) (w : World) (t : Nat)
    (pass : GcPass) : Prop where
  cap : pass.maxCandidates = gcMaxPendingCandidates
  marks : ∀ x ∈ pass.newCandidates, x.Marked c generation
  resolved : ∀ key ∈ pass.sweptKeys, Resolved w t key

/-- What a pass may send. -/
def GcReq (c : Collection) (generation : Option JsString) (w : World) (t : Nat) : Req → Prop
  | .createPending p => p = ⟨[], none⟩
  | .casPending old new => ∃ pass, new = mergeGcPending old pass ∧ pass.Sound c generation w t
  | .deleteSnapshot _ => True
  | _ => False

/-- The invariant. -/
structure LedgerInv (c : Collection) (generation : Option JsString) (w : World) : Prop where
  manifest : ∀ m, w.cur = some m → m.generation = generation
  ledger : ∀ p, w.pending = some p → p.Kept c generation
  msgs : ∀ msg ∈ w.net, GcReq c generation w msg.owner msg.req

/-- What only grows: messages gather outcomes, reads stay read. -/
structure Later (w w' : World) : Prop where
  net : ∀ (i : Nat) (m : Msg), w.net[i]? = some m → ∃ m' : Msg, w'.net[i]? = some m' ∧ m.Evolves m'
  trace : ∀ ev ∈ w.trace, ev ∈ w'.trace

theorem Later.refl (w : World) : Later w w :=
  ⟨fun _ m hm => ⟨m, hm, .refl m⟩, fun _ hev => hev⟩

/-- Time goes forward. -/
theorem Later.trans {w w' w'' : World} (h : Later w w') (h' : Later w' w'') : Later w w'' := by
  refine ⟨fun i m hm => ?_, fun ev hev => h'.trace ev (h.trace ev hev)⟩
  obtain ⟨m', hm', he⟩ := h.net i m hm
  obtain ⟨m'', hm'', he'⟩ := h'.net i m' hm'
  exact ⟨m'', hm'', he.trans he'⟩

/-- A candidate that was resolved stays so. -/
theorem Resolved.later {w w' : World} {t : Nat} {key : Key} (h : Resolved w t key)
    (hl : Later w w') : Resolved w' t key := by
  rcases h with ⟨msg, hmem, hown, hreq, happ⟩ | ⟨m, tail, hev, hsnap⟩
  · obtain ⟨i, hi⟩ := List.mem_iff_getElem?.mp hmem
    obtain ⟨msg', hmsg', he⟩ := hl.net i msg hi
    exact Or.inl ⟨msg', List.mem_of_getElem? hmsg', he.owner.trans hown, he.req.trans hreq,
      he.applied happ⟩
  · exact Or.inr ⟨m, tail, hl.trace _ hev, hsnap⟩

/-- What a pass found stays true. -/
theorem GcPass.Sound.later {c : Collection} {g : Option JsString} {w w' : World} {t : Nat}
    {pass : GcPass} (h : pass.Sound c g w t) (hl : Later w w') : pass.Sound c g w' t :=
  ⟨h.cap, h.marks, fun key hkey => (h.resolved key hkey).later hl⟩

/-- So a request it may make stays allowed. -/
theorem GcReq.later {c : Collection} {g : Option JsString} {w w' : World} {t : Nat} {r : Req}
    (h : GcReq c g w t r) (hl : Later w w') : GcReq c g w' t r := by
  cases r with
  | casPending old new =>
    obtain ⟨pass, hnew, hpass⟩ := h
    exact ⟨pass, hnew, hpass.later hl⟩
  | _ => exact h

/-- The merge of a sound pass keeps a ledger in order. -/
theorem GcPending.Kept.merge {c : Collection} {g : Option JsString} {w : World} {t : Nat}
    {p : GcPending} {pass : GcPass} (h : p.Kept c g) (hpass : pass.Sound c g w t) :
    (mergeGcPending p pass).Kept c g where
  unique := merge_nodup h.unique
  bounded := hpass.cap ▸ merge_length
  rows := by
    intro x hx
    rcases mem_mergeGcPending hx with hold | hnew
    · exact h.rows x hold
    · exact hpass.marks x hnew

/-! ## What one step may do -/

section Steps

variable {c : Collection} {g : Option JsString} {w w' : World} {t : Nat}

/-- Recording what was read is a later state. -/
theorem Later.record (w : World) (ev : Event) : Later w (w.record ev) :=
  ⟨fun _ m hm => ⟨m, hm, .refl m⟩, fun _ hev => List.mem_append_left _ hev⟩

/-- So is sending. -/
theorem Later.sendMsg (w : World) (t : Nat) (r : Req) : Later w (w.sendMsg t r) :=
  ⟨(Evolves.sendMsg w t r).net, fun _ hev => hev⟩

/-- So is telling a message more of its fate. -/
theorem Later.setMsg {i : Nat} {m m' : Msg} (hi : w.net[i]? = some m) (he : m.Evolves m') :
    Later w (w.setMsg i m') :=
  ⟨(Evolves.setMsg hi he).net, fun _ hev => hev⟩

/-- Recording keeps the ledger's invariant. -/
theorem LedgerInv.record (h : LedgerInv c g w) (ev : Event) : LedgerInv c g (w.record ev) :=
  ⟨h.manifest, h.ledger, fun msg hmsg => (h.msgs msg hmsg).later (.record w ev)⟩

/-- So does sending what a pass may send. -/
theorem LedgerInv.sendMsg (h : LedgerInv c g w) {r : Req} (hr : GcReq c g w t r) :
    LedgerInv c g (w.sendMsg t r) := by
  refine ⟨h.manifest, h.ledger, fun msg hmsg => ?_⟩
  rcases mem_sendMsg hmsg with hold | rfl
  · exact (h.msgs msg hold).later (.sendMsg w t r)
  · exact hr.later (.sendMsg w t r)

/-- So does a message that evolves. -/
theorem LedgerInv.setMsg (h : LedgerInv c g w) {i : Nat} {m m' : Msg} (hi : w.net[i]? = some m)
    (he : m.Evolves m') : LedgerInv c g (w.setMsg i m') := by
  refine ⟨h.manifest, h.ledger, fun msg hmsg => ?_⟩
  rcases List.mem_or_eq_of_mem_set hmsg with hold | rfl
  · exact (h.msgs msg hold).later (.setMsg hi he)
  · rw [he.owner, he.req]
    exact (h.msgs m (List.mem_of_getElem? hi)).later (.setMsg hi he)

/-- **What one publication may do to the ledger.** -/
structure LedgerStep (w w' : World) : Prop where
  /-- The first ledger is empty. -/
  created : w.pending = none → w'.pending = none ∨ w'.pending = some ⟨[], none⟩
  /-- A ledger is only ever replaced by the merge of a pass into it. -/
  merged : ∀ p, w.pending = some p → ∃ p', w'.pending = some p' ∧
    (p' = p ∨ ∃ t pass, p' = mergeGcPending p pass ∧ ∀ key ∈ pass.sweptKeys, Resolved w t key)
  /-- A row is taken away only by a pass that resolved it. -/
  kept : ∀ p p', w.pending = some p → w'.pending = some p' →
    ∀ x ∈ p.candidates, x ∉ p'.candidates → ∃ t, Resolved w t x.key
  /-- `last_swept_at` never goes back. -/
  swept : ∀ p p', w.pending = some p → w'.pending = some p' →
    SweptBefore p.lastSweptAt p'.lastSweptAt

/-- A ledger that is not written has lost nothing. -/
theorem LedgerStep.same (h : w'.pending = w.pending) : LedgerStep w w' where
  created := fun hn => Or.inl (h.trans hn)
  merged := fun p hp => ⟨p, h.trans hp, Or.inl rfl⟩
  kept := by
    intro p p' hp hp' x hx hnot
    rw [h, hp] at hp'
    cases hp'
    exact absurd hx hnot
  swept := by
    intro p p' hp hp'
    rw [h, hp] at hp'
    cases hp'
    exact .refl _

/-- The delivery of a message a pass sent. -/
theorem LedgerInv.applyReq (h : LedgerInv c g w) {msg : Msg} (hmsg : msg ∈ w.net) {w₁ : World}
    (ha : Baerly.applyReq w msg.req = some w₁) :
    LedgerStep w w₁ ∧ w₁.cur = w.cur ∧ ∀ p, w₁.pending = some p → p.Kept c g := by
  have hreq := h.msgs msg hmsg
  cases hr : msg.req with
  | createPending p =>
    rw [hr] at hreq ha
    simp only [Baerly.applyReq] at ha
    split at ha
    next hnone =>
      cases ha
      -- where no ledger was, nothing can be lost
      have hp : p = ⟨[], none⟩ := hreq
      subst hp
      refine ⟨⟨fun _ => Or.inr rfl, fun q hq => ?_, fun q q' hq => ?_, fun q q' hq => ?_⟩, rfl, ?_⟩
      · rw [hnone] at hq
        cases hq
      · rw [hnone] at hq
        cases hq
      · rw [hnone] at hq
        cases hq
      · intro q hq
        cases hq
        exact ⟨List.nodup_nil, Nat.zero_le _, fun x hx => absurd hx List.not_mem_nil⟩
    next => cases ha
  | casPending old new =>
    rw [hr] at hreq ha
    simp only [Baerly.applyReq] at ha
    split at ha
    next hold =>
      cases ha
      -- the CAS merges into the ledger that is there, not into the one the pass began with
      obtain ⟨pass, rfl, hpass⟩ := hreq
      have hkept := h.ledger old hold
      refine ⟨⟨fun hn => ?_, fun q hq => ?_, fun q q' hq hq' x hx hnot => ?_,
        fun q q' hq hq' => ?_⟩, rfl, ?_⟩
      · rw [hold] at hn
        cases hn
      · rw [hold] at hq
        cases hq
        exact ⟨_, rfl, Or.inr ⟨msg.owner, pass, rfl, hpass.resolved⟩⟩
      · rw [hold] at hq
        cases hq
        cases hq'
        -- what is gone was swept, and only what was resolved is swept
        by_contra hlost
        have hfree : x.key ∉ pass.sweptKeys := fun hin =>
          hlost ⟨msg.owner, hpass.resolved x.key hin⟩
        exact hnot (merge_keeps (hpass.cap ▸ hkept.bounded) hx hfree)
      · rw [hold] at hq
        cases hq
        cases hq'
        exact sweptBefore_laterOf _ _
      · intro q hq
        cases hq
        exact hkept.merge hpass
    next => cases ha
  | deleteSnapshot key =>
    rw [hr] at ha
    cases ha
    exact ⟨.same rfl, rfl, h.ledger⟩
  | _ =>
    rw [hr] at hreq
    exact absurd hreq id

/-- **A delivery keeps the invariant**, and a write of the ledger loses nothing. -/
theorem LedgerInv.deliver (h : LedgerInv c g w) {i : Nat} (hd : Baerly.deliver i w = some w') :
    LedgerInv c g w' ∧ Later w w' ∧ LedgerStep w w' := by
  obtain ⟨m, hm, hvoid, ⟨w₁, ha, rfl⟩ | ⟨_, rfl⟩⟩ := deliver_cases hd
  · obtain ⟨hstep, hcur, hkept⟩ := h.applyReq (List.mem_of_getElem? hm) ha
    obtain ⟨hnet, htrace⟩ := applyReq_frame ha
    have he : m.Evolves { m with applied := true } :=
      ⟨rfl, rfl, fun _ => rfl, id, fun hv => by rw [hvoid] at hv; cases hv⟩
    have hl : Later w w₁ :=
      ⟨fun j n hn => ⟨n, by rw [hnet]; exact hn, .refl n⟩, fun ev hev => by rw [htrace]; exact hev⟩
    have hinv : LedgerInv c g w₁ := by
      refine ⟨fun x hx => h.manifest x (hcur ▸ hx), hkept, fun msg hmsg => ?_⟩
      exact (h.msgs msg (hnet ▸ hmsg)).later hl
    have hm₁ : w₁.net[i]? = some m := by
      rw [hnet]
      exact hm
    exact ⟨hinv.setMsg hm₁ he, hl.trans (.setMsg hm₁ he),
      ⟨hstep.created, hstep.merged, hstep.kept, hstep.swept⟩⟩
  · have he : m.Evolves { m with refused := true } :=
      ⟨rfl, rfl, id, fun _ => rfl, fun hv => ⟨hv, rfl⟩⟩
    exact ⟨h.setMsg hm he, .setMsg hm he, .same rfl⟩

/-- So does everything else the environment does. -/
theorem LedgerInv.env (h : LedgerInv c g w) {e : GcEnv} (he : gcEnv g e w = some w') :
    LedgerInv c g w' ∧ Later w w' ∧ LedgerStep w w' := by
  cases e with
  | deliver i => exact h.deliver he
  | others cur log snap marker =>
    simp only [gcEnv] at he
    split at he
    next hgen =>
      cases he
      have hl : Later w { w with cur := cur, log := log, snap := snap, marker := marker } :=
        ⟨fun _ m hm => ⟨m, hm, .refl m⟩, fun _ hev => hev⟩
      refine ⟨⟨fun m hm => ?_, h.ledger, fun msg hmsg => (h.msgs msg hmsg).later hl⟩, hl, .same rfl⟩
      have hm : cur = some m := hm
      rw [hm] at hgen
      simpa using hgen
    next => cases he

end Steps

/-! ## The passes keep the invariant -/

/-- What the passes agree on. -/
def gcProtocol (c : Collection) (g : Option JsString) : Protocol (gcSystem c g) where
  inv := LedgerInv c g
  rely := fun _ => Later
  fresh := fun _ _ => True
  post := fun _ _ _ _ _ => True
  rely_refl := fun _ => Later.refl
  rely_trans := Later.trans
  fresh_rely := fun _ _ => trivial
  env_ok := fun hinv he => ⟨(hinv.env he).1, fun _ => (hinv.env he).2.1⟩

section Rules

variable {c : Collection} {g : Option JsString} {w : World} {t : Nat}

/-- A request that leaves the world alone. -/
theorem gc_silent {op : Op} {α : Type} {k : Resp op → Task α} {Q : Except Err α → World → Prop}
    (hsame : ∀ {pick r w₁ w₂}, exec t op pick w₁ = some (r, w₂) → w₂ = w₁)
    (hk : ∀ pick r w₁, Later w w₁ → LedgerInv c g w₁ → exec t op pick w₁ = some (r, w₁) →
      (gcProtocol c g).wp t (k r) Q w₁) :
    (gcProtocol c g).wp t (.call op k) Q w := by
  intro w₁ hrel hinv pick r w₂ hex
  obtain rfl := hsame hex
  exact ⟨⟨hinv, fun _ _ => .refl _⟩, hk pick r _ hrel hinv hex⟩

/-- A check ends a pass or hands its value on. -/
theorem gc_check {α β : Type} {x : Except Err α} {f : α → Task β}
    {Q : Except Err β → World → Prop}
    (hok : ∀ a, x = .ok a → (gcProtocol c g).wp t (f a) Q w)
    (herr : ∀ e, x = .error e → Q (.error e) w) :
    (gcProtocol c g).wp t ((Task.ofExcept x).bind f) Q w := by
  cases x with
  | ok a => exact hok a rfl
  | error e => exact herr e rfl

/-- The manifest a thread read is of this incarnation, and the read is on record. -/
def ManifestSeen (g : Option JsString) (t : Nat) (w : World) (m : CurrentJson) : Prop :=
  m.generation = g ∧ ∃ tail, Event.readCurrent t (some m) tail ∈ w.trace

/-- A manifest that is read was seen. -/
theorem gc_getCurrent :
    (gcProtocol c g).wp t Task.getCurrent (fun r w' => Later w w' ∧ ∀ m, r = .ok (some m) →
      ManifestSeen g t w' m) w := by
  intro w₁ hrel hinv pick r w₂ hex
  rcases exec_getCurrent hex with ⟨rfl, rfl⟩ | ⟨e, rfl, rfl⟩
  · refine ⟨⟨hinv.record _, fun _ _ => .record w₁ _⟩, hrel.trans (.record w₁ _), fun m hm => ?_⟩
    have hcur : w₁.cur = some m := Except.ok.inj hm
    refine ⟨hinv.manifest m hcur, w₁.tail, ?_⟩
    rw [hcur]
    exact List.mem_append_right _ (List.mem_singleton.mpr rfl)
  · exact ⟨⟨hinv, fun _ _ => .refl _⟩, hrel, fun m hm => (by cases hm)⟩

/-- Through the guard as well. -/
theorem gc_readCurrentJson :
    (gcProtocol c g).wp t (readCurrentJson c) (fun r w' => Later w w' ∧ ∀ m, r = .ok (some m) →
      ManifestSeen g t w' m) w := by
  refine Protocol.wp_seq gc_getCurrent ?_ fun e w₁ h => ⟨h.1, fun m hm => (by cases hm)⟩
  rintro (_ | body) w₁ ⟨hl, hseen⟩
  · exact ⟨hl, fun m hm => (by cases hm)⟩
  · refine gc_check (fun json hjson => ⟨hl, fun m hm => ?_⟩) fun e _ => ⟨hl, fun m hm => (by cases hm)⟩
    cases hm
    obtain rfl := assertCurrentJson_toJson_self hjson
    exact hseen _ rfl

/-- A ledger that is read is one of this generation. -/
theorem gc_getPending :
    (gcProtocol c g).wp t Task.getPending (fun r w' => Later w w' ∧
      ∀ p, r = .ok (some p) → p.Kept c g) w := by
  refine gc_silent (fun hex => (exec_getPending hex).1) fun pick r w₁ hl hinv hex => ?_
  rcases (exec_getPending hex).2 with rfl | ⟨e, rfl⟩
  · refine ⟨hl, fun p hp => ?_⟩
    exact hinv.ledger p (Except.ok.inj hp)
  · exact ⟨hl, fun p hp => (by cases hp)⟩

/-- Through the guard as well. -/
theorem gc_readGcPending :
    (gcProtocol c g).wp t (readGcPending c) (fun r w' => Later w w' ∧
      ∀ p, r = .ok (some p) → p.Kept c g) w := by
  refine Protocol.wp_seq gc_getPending ?_ fun e w₁ h => ⟨h.1, fun p hp => (by cases hp)⟩
  rintro (_ | p) w₁ ⟨hl, hp⟩
  · exact ⟨hl, fun p h => (by cases h)⟩
  · refine gc_check (fun _ _ => ⟨hl, fun p' h => ?_⟩) fun e _ => ⟨hl, fun p' h => (by cases h)⟩
    cases h
    exact hp p rfl

theorem gc_now : (gcProtocol c g).wp t Task.now (fun _ w' => Later w w') w :=
  gc_silent exec_now fun _ _ _ hl _ _ => hl

theorem gc_listSnapshots {maxKeys : Nat} :
    (gcProtocol c g).wp t (Task.listSnapshots maxKeys) (fun _ w' => Later w w') w := by
  refine gc_silent exec_listSnapshots fun pick r w₁ hl _ _ => ?_
  cases r with
  | ok keys => exact hl
  | error e => exact hl

/-- Message `id` is thread `t`'s request `r`. -/
def SentAt (w : World) (t id : Nat) (r : Req) : Prop :=
  ∃ m : Msg, w.net[id]? = some m ∧ m.owner = t ∧ m.req = r

/-- A message that was sent stays sent. -/
theorem SentAt.later {w w' : World} {id : Nat} {r : Req} (h : SentAt w t id r) (hl : Later w w') :
    SentAt w' t id r := by
  obtain ⟨m, hm, hown, hreq⟩ := h
  obtain ⟨m', hm', he⟩ := hl.net id m hm
  exact ⟨m', hm', he.owner.trans hown, he.req.trans hreq⟩

/-- The store applied message `id`. -/
def AppliedAt (w : World) (id : Nat) : Prop :=
  ∃ m : Msg, w.net[id]? = some m ∧ m.applied = true

/-- And one that was applied stays applied. -/
theorem AppliedAt.later {w w' : World} {id : Nat} (h : AppliedAt w id) (hl : Later w w') :
    AppliedAt w' id := by
  obtain ⟨m, hm, happ⟩ := h
  obtain ⟨m', hm', he⟩ := hl.net id m hm
  exact ⟨m', hm', he.applied happ⟩

/-- Sending one request. -/
theorem gc_send {r : Req} {α : Type} {k : Resp (.send r) → Task α} {Q : Except Err α → World → Prop}
    (hr : GcReq c g w t r)
    (hk : ∀ id w₁, Later w w₁ → SentAt w₁ t id r → (gcProtocol c g).wp t (k id) Q w₁) :
    (gcProtocol c g).wp t (.call (.send r) k) Q w := by
  intro w₁ hrel hinv pick id w₂ hex
  obtain ⟨_, rfl, rfl⟩ := exec_send hex
  refine ⟨⟨hinv.sendMsg (hr.later hrel), fun _ _ => .sendMsg w₁ t r⟩, ?_⟩
  refine hk _ _ (hrel.trans (.sendMsg w₁ t r)) ⟨⟨t, r, false, false, false⟩, ?_, rfl, rfl⟩
  exact List.getElem?_concat_length

/-- Awaiting an outcome: an acknowledgement is a landing. -/
theorem gc_outcome (id : Nat) :
    (gcProtocol c g).wp t (Task.outcome id) (fun o w' => Later w w' ∧
      ∀ date, o = .ok date → AppliedAt w' id) w := by
  intro w₁ hrel hinv pick o w₂ hex
  obtain ⟨m, hm, _, hcase⟩ := exec_await hex
  rcases hcase with ⟨rfl, happ, date, rfl⟩ | ⟨rfl, _, msg, rfl⟩ | ⟨e, rfl, _, _, _, rfl⟩ |
    ⟨rfl, e, rfl, _, _⟩
  · exact ⟨⟨hinv, fun _ _ => .refl _⟩, hrel, fun _ _ => ⟨m, hm, happ⟩⟩
  · exact ⟨⟨hinv, fun _ _ => .refl _⟩, hrel, fun _ hd => (by cases hd)⟩
  · have he : m.Evolves { m with void := true } := .voided m
    exact ⟨⟨hinv.setMsg hm he, fun _ _ => .setMsg hm he⟩, hrel.trans (.setMsg hm he),
      fun _ hd => (by cases hd)⟩
  · exact ⟨⟨hinv, fun _ _ => .refl _⟩, hrel, fun _ hd => (by cases hd)⟩

/-- A write that is allowed may be made. -/
theorem gc_write {r : Req} (hr : GcReq c g w t r) :
    (gcProtocol c g).wp t (Task.write r) (fun _ w' => Later w w') w := by
  refine gc_send hr fun id w₁ hl _ => ?_
  exact Protocol.wp_mono (gc_outcome id) fun o w₂ h => hl.trans h.1

theorem gc_writePending {r : Req} (hr : GcReq c g w t r) :
    (gcProtocol c g).wp t (writePending c r) (fun _ w' => Later w w') w := by
  refine Protocol.wp_tryCatch (Protocol.wp_mono (gc_write hr) ?_)
  rintro (e | date) w₁ hl
  · exact hl
  · exact hl

/-- All requests of a batch leave, each under an id of its own. -/
theorem gc_sendAll : ∀ (rs : List Req) (w : World), (∀ r ∈ rs, GcReq c g w t r) →
    (gcProtocol c g).wp t (Task.sendAll rs) (fun o w' => Later w w' ∧
      ∀ ids, o = .ok ids → ∀ r ∈ rs, ∃ id ∈ ids, SentAt w' t id r) w := by
  intro rs
  induction rs with
  | nil =>
    intro w _
    exact ⟨.refl w, fun _ _ r hr => absurd hr List.not_mem_nil⟩
  | cons r rs ih =>
    intro w hr
    refine gc_send (hr r List.mem_cons_self) fun id w₁ hl₁ hsent => ?_
    have hrest := ih w₁ fun r' hr' => (hr r' (List.mem_cons_of_mem r hr')).later hl₁
    refine Protocol.wp_seq hrest ?_ fun e w₂ h => ⟨hl₁.trans h.1, fun _ ho => (by cases ho)⟩
    rintro ids w₂ ⟨hl₂, hids⟩
    refine ⟨hl₁.trans hl₂, fun ids' ho r' hr' => ?_⟩
    cases ho
    rcases List.mem_cons.mp hr' with rfl | hr'
    · exact ⟨id, List.mem_cons_self, hsent.later hl₂⟩
    · obtain ⟨id', hid', hs⟩ := hids ids rfl r' hr'
      exact ⟨id', List.mem_cons_of_mem id hid', hs⟩

/-- **A batch of deletes**: when it resolves, every one of them was applied. -/
theorem gc_writeAll {rs : List Req} (hr : ∀ r ∈ rs, GcReq c g w t r) :
    (gcProtocol c g).wp t (Task.writeAll (fun p => p.bind fun _ => .ret ()) rs)
      (fun o w' => Later w w' ∧ (o = .ok () →
        ∀ r ∈ rs, ∃ msg ∈ w'.net, msg.owner = t ∧ msg.req = r ∧ msg.applied = true)) w := by
  refine Protocol.wp_seq (gc_sendAll rs w hr) ?_ fun e w₁ h => ⟨h.1, fun ho => (by cases ho)⟩
  rintro ids w₁ ⟨hl₁, hids⟩
  have hone : ∀ id w, True → (gcProtocol c g).wp t
      ((Task.outcome id).bind fun _ => .ret ()) (fun o w' => Later w w' ∧
        ∀ u : Unit, o = .ok u → AppliedAt w' id) w := by
    intro id w _
    refine Protocol.wp_seq (gc_outcome id) ?_ fun e w₂ h => ⟨h.1, fun u ho => (by cases ho)⟩
    rintro date w₂ ⟨hl, happ⟩
    exact ⟨hl, fun _ _ => happ date rfl⟩
  refine Protocol.wp_seq (Q := fun o w' => Later w₁ w' ∧ ∀ ps, o = .ok ps →
    ∀ id ∈ ids, AppliedAt w' id) ?_ ?_ ?_
  · -- the outcomes are awaited in any order, each of them once
    refine gc_silent (fun hex => (exec_schedule hex).1) fun pick order w₂ hl₂ _ hex => ?_
    have hperm := (exec_schedule hex).2
    have hgather := Protocol.wp_gather (F := fun id (_ : Unit) w => AppliedAt w id) Later.refl
      Later.trans (C := fun _ => True) (fun _ _ => trivial) (fun h hl => h.later hl)
      (order.filterMap fun i => ids[i]?) (w := w₂) trivial (f := fun id =>
        (Task.outcome id).bind fun _ => (.ret () : Task Unit)) (P := gcProtocol c g) (t := t)
      fun id _ => hone id
    refine Protocol.wp_mono hgather ?_
    rintro o w₃ ⟨hl₃, hps⟩
    refine ⟨hl₂.trans hl₃, fun ps ho id hid => ?_⟩
    obtain ⟨hkeys, hall⟩ := hps ps ho
    have hkept := hperm.filterMap fun i => ids[i]?
    rw [filterMap_range_getElem?] at hkept
    have hmem : id ∈ ps.map Prod.fst := by
      rw [hkeys]
      exact hkept.mem_iff.mpr hid
    obtain ⟨p, hp, rfl⟩ := List.mem_map.mp hmem
    exact hall p hp
  · rintro ps w₂ ⟨hl₂, happ⟩
    refine ⟨hl₁.trans hl₂, fun _ r hr => ?_⟩
    obtain ⟨id, hid, hsent⟩ := hids ids rfl r hr
    obtain ⟨m, hm, hown, hreq⟩ := hsent.later hl₂
    obtain ⟨m', hm', happ'⟩ := happ ps rfl id hid
    rw [hm] at hm'
    cases hm'
    exact ⟨m, List.mem_of_getElem? hm, hown, hreq, happ'⟩
  · rintro e w₂ ⟨hl₂, _⟩
    exact ⟨hl₁.trans hl₂, fun ho => (by cases ho)⟩

/-- The bounded retry: each round merges into the version it read. -/
theorem gc_casUpdateGcPending {pass : GcPass} :
    ∀ (attempts : Nat) (lastConflict : Err) (w : World), pass.Sound c g w t →
      (gcProtocol c g).wp t (casUpdateGcPending c (fun latest => mergeGcPending latest pass)
        attempts lastConflict) (fun _ w' => Later w w') w := by
  intro attempts
  induction attempts with
  | zero => intro _ w _; exact Later.refl w
  | succ attempts ih =>
    intro lastConflict w hpass
    refine Protocol.wp_seq gc_readGcPending ?_ fun e w₁ h => h.1
    rintro (_ | existing) w₁ ⟨hl₁, _⟩
    · exact hl₁
    · refine gc_check (fun _ _ => ?_) fun e _ => hl₁
      have hreq : GcReq c g w₁ t (.casPending existing (mergeGcPending existing pass)) :=
        ⟨pass, rfl, hpass.later hl₁⟩
      refine Protocol.wp_attempt_bind (gc_writePending hreq) ?_
      rintro (e | date) w₂ hl₂
      · dsimp only
        split
        · exact Protocol.wp_mono (ih e w₂ (hpass.later (hl₁.trans hl₂)))
            fun r w₃ hl₃ => (hl₁.trans hl₂).trans hl₃
        · exact hl₁.trans hl₂
      · exact hl₁.trans hl₂

/-- A new ledger is one of this generation too. -/
theorem gc_readOrCreatePending :
    (gcProtocol c g).wp t (readOrCreatePending c) (fun r w' => Later w w' ∧
      ∀ p, r = .ok p → p.Kept c g) w := by
  have hempty : (⟨[], none⟩ : GcPending).Kept c g :=
    ⟨List.nodup_nil, Nat.zero_le _, fun x hx => absurd hx List.not_mem_nil⟩
  refine Protocol.wp_seq gc_readGcPending ?_ fun e w₁ h => ⟨h.1, fun p hp => (by cases hp)⟩
  rintro (_ | p) w₁ ⟨hl₁, hp⟩
  · have hreq : GcReq c g w₁ t (.createPending ⟨[], none⟩) := rfl
    refine Protocol.wp_attempt_bind (gc_writePending hreq) ?_
    rintro (e | date) w₂ hl₂
    · dsimp only
      split
      · refine Protocol.wp_seq gc_readGcPending ?_ fun e' w₃ h =>
          ⟨(hl₁.trans hl₂).trans h.1, fun p hp => (by cases hp)⟩
        rintro (_ | p) w₃ ⟨hl₃, hp₃⟩
        · exact ⟨(hl₁.trans hl₂).trans hl₃, fun p hp => (by cases hp)⟩
        · refine ⟨(hl₁.trans hl₂).trans hl₃, fun p' hp' => ?_⟩
          cases hp'
          exact hp₃ p rfl
      · exact ⟨hl₁.trans hl₂, fun p hp => (by cases hp)⟩
    · refine ⟨hl₁.trans hl₂, fun p hp => ?_⟩
      cases hp
      exact hempty
  · refine ⟨hl₁, fun p' hp' => ?_⟩
    cases hp'
    exact hp p rfl

/-- Candidates are marked with the generation that was read. -/
theorem gc_markOrphans {current : CurrentJson} {grace : Nat} {known : List Key}
    (hgen : current.generation = g) :
    ∀ (keys : List Key) (w : World), (gcProtocol c g).wp t (markOrphans c current grace known keys)
      (fun r w' => Later w w' ∧ ∀ marks, r = .ok marks → ∀ x ∈ marks, x.Marked c g) w := by
  intro keys
  induction keys with
  | nil =>
    intro w
    refine ⟨.refl w, fun marks h => ?_⟩
    cases h
    exact fun x hx => absurd hx List.not_mem_nil
  | cons key keys ih =>
    intro w
    unfold markOrphans
    split
    next => exact ih w
    next hskip =>
      refine Protocol.wp_seq gc_now ?_ fun e w₁ hl => ⟨hl, fun marks h => (by cases h)⟩
      intro ms w₁ hl₁
      refine Protocol.wp_seq (ih w₁) ?_ fun e w₂ h =>
        ⟨hl₁.trans h.1, fun marks hm => (by cases hm)⟩
      rintro rest w₂ ⟨hl₂, hrest⟩
      refine ⟨hl₁.trans hl₂, fun marks h => ?_⟩
      cases h
      intro x hx
      rcases List.mem_cons.mp hx with rfl | hx
      · rw [not_or, not_or] at hskip
        exact ⟨rfl, hskip.2.1, hgen⟩
      · exact hrest rest rfl x hx

/-- A row of this incarnation is dropped only because the fresh manifest names it. -/
theorem GcCandidate.Marked.judge {fence : CurrentJson} {fresh : Option CurrentJson}
    {x : GcCandidate} (hx : x.Marked c g) (hfence : fence.generation = g)
    (h : Baerly.judge c fence fresh x ≠ .kept) :
    ∃ m, fresh = some m ∧ m.snapshot = some x.key := by
  unfold Baerly.judge at h
  rw [hx.reason, hx.generation, hfence] at h
  simp only [reduceCtorEq, false_and, if_false, true_and, hx.canonical, ne_eq,
    not_true_eq_false] at h
  split at h
  next hlive =>
    cases fresh with
    | none => cases hlive
    | some m => exact ⟨m, rfl, hlive.symm⟩
  next => exact absurd rfl h

/-- Sweeping one deletes its snapshot. -/
theorem sweepRequest_marked {x : GcCandidate} (hx : x.Marked c g) :
    sweepRequest c x = .deleteSnapshot x.key := by
  unfold sweepRequest
  rw [hx.reason]

/-- A pass records what it found and resolved. -/
theorem gc_recordPass {pass : GcPass} {remaining : Nat} (hpass : pass.Sound c g w t) :
    (gcProtocol c g).wp t (recordPass c pass remaining) (fun _ w' => Later w w') w := by
  refine Protocol.wp_attempt_bind (gc_casUpdateGcPending _ _ w hpass) ?_
  rintro (e | updated) w₁ hl
  · dsimp only
    split
    · exact hl
    · exact hl
  · exact hl

/-- **The sweep**: whatever is reported as resolved was deleted or is named by the fresh
    manifest. -/
theorem gc_sweepPass {opts : RunGcOptions} {current : CurrentJson} {fresh : Option CurrentJson}
    {nowMs : Nat} {pending newCandidates : List GcCandidate} (hcurrent : current.generation = g)
    (hfresh : ∀ m, fresh = some m → ManifestSeen g t w m)
    (hpending : ∀ x ∈ pending, x.Marked c g) (hnew : ∀ x ∈ newCandidates, x.Marked c g) :
    (gcProtocol c g).wp t (sweepPass c opts current fresh nowMs pending newCandidates)
      (fun _ _ => True) w := by
  have hcands : ∀ x ∈ pending ++ newCandidates, x.Marked c g := by
    intro x hx
    rcases List.mem_append.mp hx with h | h
    · exact hpending x h
    · exact hnew x h
  have hfence : (fresh.getD current).generation = g := by
    cases fresh with
    | none => exact hcurrent
    | some m => exact (hfresh m rfl).1
  -- a candidate is dropped only in favour of what the fresh manifest names
  have hlive : ∀ arm, arm ≠ SweepArm.kept → ∀ key ∈ ((pending ++ newCandidates).filter fun x =>
      Baerly.judge c (fresh.getD current) fresh x = arm).map (·.key), Resolved w t key := by
    intro arm harm key hkey
    obtain ⟨x, hx, rfl⟩ := List.mem_map.mp hkey
    obtain ⟨hmem, hjudge⟩ := List.mem_filter.mp hx
    have hne : Baerly.judge c (fresh.getD current) fresh x ≠ .kept := by
      rw [decide_eq_true_iff.mp hjudge]
      exact harm
    obtain ⟨m, hm, hsnap⟩ := (hcands x hmem).judge hfence hne
    obtain ⟨tail, hev⟩ := (hfresh m hm).2
    exact Or.inr ⟨m, tail, hev, hsnap⟩
  unfold sweepPass
  dsimp only
  refine Protocol.wp_seq (gc_writeAll ?_) ?_ fun _ _ _ => trivial
  · intro r hr
    obtain ⟨x, hx, rfl⟩ := List.mem_map.mp hr
    rw [sweepRequest_marked (hcands x (mem_splitDue _ _ hx).1)]
    trivial
  · rintro _ w₁ ⟨hl₁, hdeleted⟩
    refine Protocol.wp_seq (Q := fun _ w' => Later w₁ w') ?_ ?_ fun _ _ _ => trivial
    · split
      · exact Later.refl w₁
      · exact Protocol.wp_seq gc_now (fun a w₂ hl => hl) fun e w₂ hl => hl
    · intro sweptAt w₂ hl₂
      refine Protocol.wp_seq (gc_recordPass ⟨rfl, hnew, fun key hkey => ?_⟩)
        (fun _ _ _ => trivial) fun _ _ _ => trivial
      -- what was swept was deleted; what was dropped is live
      rcases List.mem_append.mp hkey with hswept | hdropped
      · obtain ⟨x, hx, rfl⟩ := List.mem_map.mp hswept
        obtain ⟨msg, hmsg, hown, hreq, happ⟩ :=
          hdeleted rfl _ (List.mem_map.mpr ⟨x, hx, rfl⟩)
        rw [sweepRequest_marked (hcands x (mem_splitDue _ _ hx).1)] at hreq
        exact Resolved.later (Or.inl ⟨msg, hmsg, hown, hreq, happ⟩) hl₂
      · refine Resolved.later ?_ (hl₁.trans hl₂)
        rcases List.mem_append.mp hdropped with h | h
        · rcases List.mem_append.mp h with h | h
          · exact hlive .staleGeneration (by decide) key h
          · exact hlive .rescued (by decide) key h
        · exact hlive .evicted (by decide) key h

/-- **A whole run makes no other requests.** -/
theorem gc_runGc (opts : RunGcOptions) :
    (gcProtocol c g).wp t (runGc c opts) (fun _ _ => True) w := by
  refine Protocol.wp_seq gc_readCurrentJson ?_ fun _ _ _ => trivial
  rintro (_ | current) w₁ ⟨_, hcurrent⟩
  · trivial
  · have hgen := (hcurrent current rfl).1
    refine Protocol.wp_seq gc_readOrCreatePending ?_ fun _ _ _ => trivial
    rintro pending w₂ ⟨_, hpending⟩
    refine Protocol.wp_seq gc_listSnapshots ?_ fun _ _ _ => trivial
    intro keys w₃ _
    refine Protocol.wp_seq (gc_markOrphans hgen keys w₃) ?_ fun _ _ _ => trivial
    rintro newCandidates w₄ ⟨_, hnew⟩
    refine Protocol.wp_seq gc_now ?_ fun _ _ _ => trivial
    intro nowMs w₅ _
    refine Protocol.wp_seq (Q := fun r w' => ∀ v, r = .ok v → ∀ m, v = some m →
      ManifestSeen g t w' m) ?_ ?_ fun _ _ _ => trivial
    · split
      · refine Protocol.wp_mono gc_readCurrentJson fun r w₆ h v hv m hm => ?_
        exact h.2 m (by rw [hv, hm])
      · intro v hv m hm
        cases hv
        cases hm
    · intro fresh w₆ hfresh
      exact gc_sweepPass hgen (hfresh fresh rfl) (hpending pending rfl).rows
        (hnew newCandidates rfl)

/-- So the programs of all calls keep to the protocol. -/
theorem gc_bodiesOk : (gcProtocol c g).BodiesOk :=
  fun _ opts _ _ _ _ => gc_runGc opts

end Rules

/-! ## Runs -/

section Runs

variable {c : Collection} {g : Option JsString}
variable {σ σ' : Pool World Op Resp Err RunGcOptions fun _ => RunGcResult}

/-- No request changes the ledger by itself. -/
theorem exec_pending {t : Nat} {op : Op} {pick : Pick} {r : Resp op} {w w' : World}
    (h : exec t op pick w = some (r, w')) : w'.pending = w.pending := by
  cases op with
  | getCurrent =>
    rcases exec_getCurrent h with ⟨_, rfl⟩ | ⟨_, _, rfl⟩
    · rfl
    · rfl
  | getLog why n =>
    rcases exec_getLog h with ⟨_, rfl⟩ | ⟨_, _, rfl⟩
    · rfl
    · rfl
  | getSnapshot key => rw [(exec_getSnapshot h).1]
  | getPending => rw [(exec_getPending h).1]
  | listSnapshots maxKeys => rw [exec_listSnapshots h]
  | send req => rw [(exec_send h).2.2]
  | await id =>
    obtain ⟨m, _, _, ⟨rfl, _⟩ | ⟨rfl, _⟩ | ⟨e, _, _, _, _, rfl⟩ | ⟨rfl, _⟩⟩ := exec_await h
    · rfl
    · rfl
    · rfl
    · rfl
  | now => rw [exec_now h]
  | mintGeneration => rw [(exec_mintGeneration h).1]
  | schedule n => rw [(exec_schedule h).1]
  | aborted => rw [exec_aborted h]

/-- One action of the passes, of the store or of the others. -/
theorem ledger_next (h : (gcProtocol c g).PoolOk σ) {a : Act (gcSystem c g)}
    (hn : (gcSystem c g).next σ a = some σ') : LedgerStep σ.world σ'.world := by
  cases a with
  | spawn opts =>
    simp only [Machine.next] at hn
    split at hn
    · cases hn
      exact .same rfl
    · cases hn
  | step t pick =>
    simp only [Machine.next] at hn
    split at hn
    next opts w₀ op k hth =>
      split at hn
      next r w' hex =>
        cases hn
        exact .same (exec_pending hex)
      next => cases hn
    next => cases hn
  | env e =>
    simp only [Machine.next, Option.map_eq_some_iff] at hn
    obtain ⟨w', he, rfl⟩ := hn
    exact (LedgerInv.env h.inv he).2.2

/-- What a whole run may do to the ledger. -/
theorem ledger_run {acts : List (Act (gcSystem c g))} :
    ∀ {σ}, (gcProtocol c g).PoolOk σ → (gcSystem c g).run σ acts = some σ' →
      ∀ p, σ.world.pending = some p → ∃ p', σ'.world.pending = some p' ∧
        SweptBefore p.lastSweptAt p'.lastSweptAt ∧
        ∀ x ∈ p.candidates, x ∉ p'.candidates → ∃ t, Resolved σ'.world t x.key := by
  induction acts with
  | nil =>
    intro σ _ hr p hp
    cases hr
    exact ⟨p, hp, .refl _, fun x hx hnot => absurd hx hnot⟩
  | cons a acts ih =>
    intro σ hσ hr p hp
    simp only [Machine.run, Option.bind_eq_some_iff] at hr
    obtain ⟨ρ, hn, hr⟩ := hr
    have hstep := ledger_next hσ hn
    have hρ := Protocol.next_ok gc_bodiesOk hσ hn
    obtain ⟨q, hq, -⟩ := hstep.merged p hp
    obtain ⟨p', hp', hswept, hlost⟩ := ih hρ hr q hq
    refine ⟨p', hp', (hstep.swept p q hp hq).trans hswept, fun x hx hnot => ?_⟩
    by_cases hxq : x ∈ q.candidates
    · exact hlost x hxq hnot
    · -- the row went in this very step; the reason is as good later
      obtain ⟨t, ht⟩ := hstep.kept p q hp hq x hx hxq
      have hlater : Later σ.world σ'.world :=
        (Protocol.next_rely hσ hn (Nat.le_refl _)).trans
          (Protocol.run_rely gc_bodiesOk hρ hr (Nat.le_refl _))
      exact ⟨t, ht.later hlater⟩

/-- **The ledger loses nothing.**  Any number of passes, in any order, among any activity of
    others and any delivery of what was sent. -/
theorem ledger_loses_nothing (c : Collection) (g : Option JsString) {w₀ : World}
    (hnet : w₀.net = []) (hcur : ∀ m, w₀.cur = some m → m.generation = g)
    (hpending : ∀ p, w₀.pending = some p → p.Kept c g) {acts : List (Act (gcSystem c g))}
    (hrun : (gcSystem c g).run ⟨w₀, []⟩ acts = some σ) :
    (∀ p, σ.world.pending = some p →
      (p.candidates.map (·.key)).Nodup ∧ p.candidates.length ≤ gcMaxPendingCandidates) ∧
    (∀ a σ', (gcSystem c g).next σ a = some σ' → LedgerStep σ.world σ'.world) ∧
    (∀ acts' σ', (gcSystem c g).run σ acts' = some σ' → ∀ p, σ.world.pending = some p →
      ∃ p', σ'.world.pending = some p' ∧ SweptBefore p.lastSweptAt p'.lastSweptAt ∧
        ∀ x ∈ p.candidates, x ∉ p'.candidates → ∃ t, Resolved σ'.world t x.key) ∧
    ∀ latest pass, (∀ x ∈ (mergeGcPending latest pass).candidates, x.key ∉ pass.sweptKeys) ∧
      ∀ x ∈ pass.newCandidates, x.key ∉ pass.sweptKeys →
        x.key ∈ (mergeGcPending latest pass).candidates.map (·.key) ∨
          (mergeGcPending latest pass).candidates.length = pass.maxCandidates := by
  have hinit : (gcProtocol c g).PoolOk ⟨w₀, []⟩ := by
    refine Protocol.poolOk_init ⟨hcur, hpending, fun msg hmsg => ?_⟩ fun _ => trivial
    rw [hnet] at hmsg
    exact absurd hmsg List.not_mem_nil
  have hσ := Protocol.sound gc_bodiesOk hinit hrun
  refine ⟨fun p hp => ?_, fun a σ' hn => ledger_next hσ hn,
    fun acts' σ' hr p hp => ledger_run hσ hr p hp,
    fun latest pass => ⟨fun x hx => merge_resolved hx, fun x hx hkey => merge_marks hx hkey⟩⟩
  have hkept := LedgerInv.ledger hσ.inv p hp
  exact ⟨hkept.unique, hkept.bounded⟩

end Runs

/-- A collection folded up to slot 3, its manifest naming no snapshot. -/
def foldedWorld : World :=
  { World.empty with cur := some { zeroManifest (js "0a") with tailHint := 3, logSeqStart := 3 } }

/-- A snapshot of slot 0 that no manifest names. -/
def orphanKey : Key :=
  snapshotKeyText (js "app/tickets") 0 1 (List.replicate 64 48)

/-- The steps of the example. -/
abbrev GcAct := Act (gcSystem ⟨js "app/tickets/current.json"⟩ (some (js "0a")))

/-- The first pass marks the orphan. -/
def markOrphan : List GcAct :=
  [.spawn ⟨some 10, none, none⟩, .step 0 Pick.ok, .step 0 Pick.ok, .step 0 Pick.ok,
    .env (.deliver 0), .step 0 (.acked none), .step 0 (.keys [orphanKey]), .step 0 (.clock 5),
    .step 0 (.clock 6), .step 0 (.order []), .step 0 Pick.ok, .step 0 Pick.ok, .env (.deliver 1)]

/-- The second pass finds it due, deletes it and takes the row out. -/
def sweepOrphan : List GcAct :=
  [.spawn ⟨some 10, none, none⟩, .step 1 Pick.ok, .step 1 Pick.ok, .step 1 (.keys [orphanKey]),
    .step 1 (.clock 20), .step 1 Pick.ok, .step 1 Pick.ok, .step 1 (.order [0]),
    .env (.deliver 2), .step 1 (.acked none), .step 1 (.clock 21), .step 1 Pick.ok,
    .step 1 Pick.ok, .env (.deliver 3)]

theorem ledger_markThenSweep : ∃ σ σ',
    (gcSystem ⟨js "app/tickets/current.json"⟩ (some (js "0a"))).run ⟨foldedWorld, []⟩ markOrphan =
      some σ ∧
    (gcSystem ⟨js "app/tickets/current.json"⟩ (some (js "0a"))).run σ sweepOrphan = some σ' ∧
    σ.world.pending = some ⟨[⟨orphanKey, 15, .orphanSnapshot, some (js "0a")⟩], none⟩ ∧
    σ'.world.pending = some ⟨[], some 21⟩ ∧ ∃ t, Resolved σ'.world t orphanKey := by
  have hrun : (((gcSystem ⟨js "app/tickets/current.json"⟩ (some (js "0a"))).run
      ⟨foldedWorld, []⟩ markOrphan).bind fun σ =>
        ((gcSystem ⟨js "app/tickets/current.json"⟩ (some (js "0a"))).run σ sweepOrphan).map
          fun σ' => (σ.world.pending, σ'.world.pending)) =
        some (some ⟨[⟨orphanKey, 15, .orphanSnapshot, some (js "0a")⟩], none⟩,
          some ⟨[], some 21⟩) := by
    decide +kernel
  obtain ⟨σ, h₁, hrest⟩ := Option.bind_eq_some_iff.mp hrun
  obtain ⟨σ', h₂, hfacts⟩ := Option.map_eq_some_iff.mp hrest
  simp only [Prod.mk.injEq] at hfacts
  obtain ⟨hp, hp'⟩ := hfacts
  have hcur : ∀ m, foldedWorld.cur = some m → m.generation = some (js "0a") := by
    intro m hm
    cases hm
    rfl
  obtain ⟨_, _, hlost, _⟩ := ledger_loses_nothing _ _ rfl hcur (fun p hp => (by cases hp)) h₁
  obtain ⟨p', hp'', _, hrow⟩ := hlost sweepOrphan σ' h₂ _ hp
  rw [hp'] at hp''
  cases hp''
  exact ⟨σ, σ', h₁, h₂, hp, hp', hrow ⟨orphanKey, 15, .orphanSnapshot, some (js "0a")⟩
    (List.mem_singleton.mpr rfl) List.not_mem_nil⟩

end Baerly
