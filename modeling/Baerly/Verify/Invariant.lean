import Baerly.System

/-
  The invariant of the bucket, and how a world may evolve.

  `hist` is the committed sequence.  Three bounds cut it: below `floor` objects may be gone, and
  an object found there may be a phantom; from `floor` on, the log IS the history; at `start` the
  snapshot takes over.  What makes the protocol work is that every message in flight stays
  harmless for as long as it can be delivered, so `ReqOk` — what is known of a request from the
  moment it is sent — is stable under `Evolves`, which only ever grows things.
-/

namespace Baerly

open Async

section Invariant

variable (codec : Codec) (c : Collection)

/-! ## Committed state -/

/-- The rows of the committed prefix `[0, n)`. -/
def committedRows (hist : List LogEntry) (n : Nat) : Rows :=
  foldLogEntriesOnto c.collectionName none InsMap.empty (hist.take n)

/-- An entry names its own slot, and its post-image names its own document. -/
structure EntryOk (n : Nat) (e : LogEntry) : Prop where
  seq : e.seq = n
  lsn : e.lsn.seq = n
  image : e.op ≠ .D → ∃ doc, e.after = some doc ∧ doc.member (js "_id") = some (.str e.docId)

/-- `body` under `key` is the snapshot of the committed prefix `[0, start)`, and loads. -/
structure SnapOk (hist : List LogEntry) (start : Nat) (key : Key) (body : SnapshotBody) : Prop where
  parse : parseMaxSeqFromCanonicalSnapshotKey key c.collectionPrefix = some start
  load : decodeSnapshot codec key c.collectionName body = .ok (loadDocs body.docs)
  start_le : start ≤ hist.length
  rows : ∀ id, (loadDocs body.docs).get id = (committedRows c hist start).get id

/-- Some thread sent `r`. -/
def World.Sent (w : World) (r : Req) : Prop :=
  ∃ m ∈ w.net, m.req = r

/-- Some delivery of `r` took effect. -/
def World.Applied (w : World) (r : Req) : Prop :=
  ∃ m ∈ w.net, m.req = r ∧ m.applied = true

/-- What is known of a manifest from the moment it is read. -/
structure ManifestOk (w : World) (m : CurrentJson) : Prop where
  wf : m.WellFormed
  floor_le : logDeleteFloorOf m ≤ m.logSeqStart
  hint_le : m.tailHint ≤ w.tail
  start_le : m.logSeqStart ≤ w.start
  delete_le : certifiedDeleteFloor m ≤ w.floor
  generation : ∃ m', w.cur = some m' ∧ m'.generation = m.generation
  unfolded : m.snapshot = none → m.logSeqStart = 0
  folded : ∀ key, m.snapshot = some key → ∃ body,
    SnapOk codec c w.hist m.logSeqStart key body ∧ w.Applied (.putSnapshot key body)

/-! ## Messages -/

/-- The ledger holds no rows of the legacy log collector. -/
def GcPending.NoLegacy (p : GcPending) : Prop :=
  ∀ x ∈ p.candidates, x.reason = .orphanSnapshot

/-- Reads an insert decides on: its own check, its window, its occupant readback. -/
def Purpose.ofInsert : Purpose → Bool
  | .check => true
  | .guard => true
  | .occupant guarded => guarded
  | _ => false

/-- No log object thread `t` decided an insert on was a phantom: each was the entry committed at
    its slot. -/
def Honest (t : Nat) (w : World) : Prop :=
  ∀ why n e k, Event.readLog t why n (some e) k ∈ w.trace → why.ofInsert = true → k = some e

/-- No occupant readback of thread `t` returned a phantom: each was the entry committed at its
    slot. -/
def Genuine (t : Nat) (w : World) : Prop :=
  ∀ guarded n e k, Event.readLog t (.occupant guarded) n (some e) k ∈ w.trace → k = some e

/-- A create of the log. -/
def Req.isCreateLog : Req → Bool
  | .createLog _ _ _ => true
  | _ => false

/-- A create that is not part of the committed sequence and never will be: it was definitively
    rejected, or its slot was committed to another entry. -/
def Dead (w : World) (m : Msg) : Prop :=
  (m.void = true ∧ m.applied = false) ∨
    ∃ n e guarded x, m.req = .createLog n e guarded ∧ w.hist[n]? = some x ∧ x ≠ e

/-- A thread only sends a create when all its earlier ones are dead. -/
def Serial (w : World) : Prop :=
  ∀ (i j : Nat) (m m' : Msg), i < j → w.net[i]? = some m → w.net[j]? = some m' →
    m'.owner = m.owner → m.req.isCreateLog = true → m'.req.isCreateLog = true →
    Genuine m.owner w → Dead w m

/-- A snapshot under `key` covers less than is folded already: no manifest will name it again. -/
def Outlived (w : World) (key : Key) : Prop :=
  ∃ n, parseMaxSeqFromCanonicalSnapshotKey key c.collectionPrefix = some n ∧ n < w.start

/-- A conditional publication that is harmless whenever it is delivered. -/
structure CasOk (w : World) (pub : Publisher) (before after : CurrentJson) : Prop where
  transition : Transition pub before after
  wf : before.WellFormed
  hint_le : after.tailHint ≤ w.tail
  fold : pub = .fold → before.logSeqStart < w.start ∨ ∃ key body, after.snapshot = some key ∧
    SnapOk codec c w.hist after.logSeqStart key body ∧ w.Applied (.putSnapshot key body)

/-- A create that is harmless whenever it is delivered.  A guarded one was decided on the whole
    prefix below its slot. -/
structure CreateOk (w : World) (t : Nat) (n : Nat) (e : LogEntry) (guarded : Bool) : Prop where
  entry : EntryOk n e
  session : e.session = t
  le_tail : n ≤ w.tail
  manifest : w.cur ≠ none
  insert : guarded = true → e.op = .I ∧ e.collection = c.collectionName ∧
    (Honest t w → (committedRows c w.hist n).get e.docId = none)

/-- What is known of a request of thread `t` from the moment it is sent. -/
def ReqOk (w : World) (t : Nat) : Req → Prop
  | .createCurrent m => m.WellFormed ∧ m.isZeroState = true
  | .casCurrent pub before after => CasOk codec c w pub before after
  | .createLog n e guarded => CreateOk c w t n e guarded
  | .createPending p => p.NoLegacy
  | .casPending _ p => p.NoLegacy
  | .deleteLog n => n < w.floor
  | .deleteSnapshot key => Outlived c w key
  | .putSnapshot _ _ => True
  | .createMarker _ => True
  | .deleteMarker _ => True

/-- What is known once a delivery took effect.  A create took its slot as the committed entry, or
    filled a retired one. -/
def LandedOk (w : World) : Req → Prop
  | .createCurrent m => ∃ m', w.cur = some m' ∧ m'.generation = m.generation
  | .casCurrent _ _ after => certifiedDeleteFloor after ≤ w.floor
  | .createLog n e _ => n < w.tail ∧ (w.hist[n]? = some e ∨ n < w.floor)
  | _ => True

/-- What is known once a delivery was refused. -/
def RefusedOk (w : World) : Req → Prop
  | .createLog n _ _ => n < w.tail
  | _ => True

/-- The invariant of one message. -/
structure MsgOk (w : World) (m : Msg) : Prop where
  req : ReqOk codec c w m.owner m.req
  landed : m.applied = true → LandedOk w m.req
  refused : m.refused = true → RefusedOk w m.req

/-! ## The world -/

/-- **The invariant.** -/
structure Inv (w : World) : Prop where
  manifest : ∀ m, w.cur = some m → ManifestOk codec c w m
  unborn : w.cur = none → w.hist = []
  /-- From the certified floor on, the log is the committed sequence and nothing else. -/
  dense : ∀ n, w.floor ≤ n → w.log n = w.hist[n]?
  stored : ∀ n e, w.log n = some e → EntryOk n e
  committed : ∀ n e, w.hist[n]? = some e → ∃ m ∈ w.net, ∃ guarded,
    m.req = .createLog n e guarded ∧ m.applied = true ∧ m.owner = e.session
  msgs : ∀ m ∈ w.net, MsgOk codec c w m
  serial : Serial w
  snaps : ∀ key body, w.snap key = some body → w.Sent (.putSnapshot key body)
  content : ∀ key body body', w.Sent (.putSnapshot key body) →
    w.Sent (.putSnapshot key body') → body = body'
  kept : ∀ key body, w.Applied (.putSnapshot key body) →
    w.snap key = some body ∨ Outlived c w key
  ledger : ∀ p, w.pending = some p → p.NoLegacy

end Invariant

/-! ## Evolution -/

/-- A message only gathers outcomes; a voided one that never landed never will. -/
structure Msg.Evolves (m m' : Msg) : Prop where
  owner : m'.owner = m.owner
  req : m'.req = m.req
  applied : m.applied = true → m'.applied = true
  refused : m.refused = true → m'.refused = true
  void : m.void = true → m'.void = true ∧ m'.applied = m.applied

/-- **How a world may evolve.** -/
structure Evolves (w w' : World) : Prop where
  hist : w.hist <+: w'.hist
  trace : w.trace <+: w'.trace
  start : w.start ≤ w'.start
  floor : w.floor ≤ w'.floor
  manifest : ∀ m, w.cur = some m → ∃ m', w'.cur = some m' ∧ m'.generation = m.generation
  net : ∀ (i : Nat) (m : Msg), w.net[i]? = some m → ∃ m' : Msg, w'.net[i]? = some m' ∧ m.Evolves m'

theorem Msg.Evolves.refl (m : Msg) : m.Evolves m :=
  ⟨rfl, rfl, id, id, fun h => ⟨h, rfl⟩⟩

/-- A message's fate only becomes more certain. -/
theorem Msg.Evolves.trans {m m' m'' : Msg} (h : m.Evolves m') (h' : m'.Evolves m'') :
    m.Evolves m'' where
  owner := h'.owner.trans h.owner
  req := h'.req.trans h.req
  applied := fun ha => h'.applied (h.applied ha)
  refused := fun hr => h'.refused (h.refused hr)
  void := by
    intro hv
    obtain ⟨hv', ha'⟩ := h.void hv
    obtain ⟨hv'', ha''⟩ := h'.void hv'
    exact ⟨hv'', ha''.trans ha'⟩

theorem Evolves.refl (w : World) : Evolves w w where
  hist := List.prefix_refl _
  trace := List.prefix_refl _
  start := Nat.le_refl _
  floor := Nat.le_refl _
  manifest := fun m h => ⟨m, h, rfl⟩
  net := fun _ m h => ⟨m, h, .refl m⟩

/-- Steps add up. -/
theorem Evolves.trans {w w' w'' : World} (h : Evolves w w') (h' : Evolves w' w'') :
    Evolves w w'' where
  hist := h.hist.trans h'.hist
  trace := h.trace.trans h'.trace
  start := Nat.le_trans h.start h'.start
  floor := Nat.le_trans h.floor h'.floor
  manifest := by
    intro m hm
    obtain ⟨m', hm', hg⟩ := h.manifest m hm
    obtain ⟨m'', hm'', hg'⟩ := h'.manifest m' hm'
    exact ⟨m'', hm'', hg'.trans hg⟩
  net := by
    intro i m hm
    obtain ⟨m', hm', he⟩ := h.net i m hm
    obtain ⟨m'', hm'', he'⟩ := h'.net i m' hm'
    exact ⟨m'', hm'', he.trans he'⟩

section Stable

variable {codec : Codec} {c : Collection} {w w' : World}

/-- The tail does not go back. -/
theorem Evolves.tail (h : Evolves w w') : w.tail ≤ w'.tail := h.hist.length_le

/-- What is committed stays in its slot. -/
theorem Evolves.hist_get (h : Evolves w w') {n : Nat} {e : LogEntry}
    (hn : w.hist[n]? = some e) : w'.hist[n]? = some e := by
  obtain ⟨rest, hrest⟩ := h.hist
  have hlt : n < w.hist.length := (List.getElem?_eq_some_iff.mp hn).1
  rw [← hrest, List.getElem?_append_left hlt]
  exact hn

/-- The committed prefix below the tail never changes. -/
theorem Evolves.take (h : Evolves w w') {n : Nat} (hn : n ≤ w.tail) :
    w'.hist.take n = w.hist.take n := by
  obtain ⟨rest, hrest⟩ := h.hist
  rw [← hrest]
  exact List.take_append_of_le_length hn

/-- So the rows of a committed stretch stay. -/
theorem Evolves.committedRows (h : Evolves w w') {n : Nat} (hn : n ≤ w.tail) :
    committedRows c w'.hist n = committedRows c w.hist n := by
  unfold Baerly.committedRows
  rw [h.take hn]

/-- A collection stays provisioned. -/
theorem Evolves.born (h : Evolves w w') (hb : w.cur ≠ none) : w'.cur ≠ none := by
  cases hc : w.cur with
  | none => exact absurd hc hb
  | some m =>
    obtain ⟨m', hm', _⟩ := h.manifest m hc
    rw [hm']
    exact Option.some_ne_none m'

/-- No message is forgotten. -/
theorem Evolves.mem_net (h : Evolves w w') {m : Msg} (hm : m ∈ w.net) :
    ∃ m' ∈ w'.net, m.Evolves m' := by
  obtain ⟨i, hi⟩ := List.getElem?_of_mem hm
  obtain ⟨m', hm', he⟩ := h.net i m hi
  exact ⟨m', List.mem_of_getElem? hm', he⟩

/-- What was sent was sent. -/
theorem Evolves.sent (h : Evolves w w') {r : Req} (hr : w.Sent r) : w'.Sent r := by
  obtain ⟨m, hm, hreq⟩ := hr
  obtain ⟨m', hm', he⟩ := h.mem_net hm
  exact ⟨m', hm', he.req.trans hreq⟩

/-- What was applied was applied. -/
theorem Evolves.applied (h : Evolves w w') {r : Req} (hr : w.Applied r) : w'.Applied r := by
  obtain ⟨m, hm, hreq, happ⟩ := hr
  obtain ⟨m', hm', he⟩ := h.mem_net hm
  exact ⟨m', hm', he.req.trans hreq, he.applied happ⟩

/-- And what was applied was sent. -/
theorem World.Applied.sent {r : Req} (h : w.Applied r) : w.Sent r := by
  obtain ⟨m, hm, hreq, _⟩ := h
  exact ⟨m, hm, hreq⟩

/-- A thread with honest reads had honest reads before. -/
theorem Evolves.honest (h : Evolves w w') {t : Nat} (ht : Honest t w') : Honest t w :=
  fun why n e k hmem => ht why n e k (h.trace.subset hmem)

/-- One whose readbacks are genuine had genuine ones. -/
theorem Evolves.genuine (h : Evolves w w') {t : Nat} (ht : Genuine t w') : Genuine t w :=
  fun guarded n e k hmem => ht guarded n e k (h.trace.subset hmem)

/-- Dead creates stay dead. -/
theorem Evolves.dead (h : Evolves w w') {m m' : Msg} (he : m.Evolves m') (hd : Dead w m) :
    Dead w' m' := by
  rcases hd with ⟨hv, ha⟩ | ⟨n, e, guarded, x, hreq, hx, hne⟩
  · obtain ⟨hv', ha'⟩ := he.void hv
    exact Or.inl ⟨hv', ha'.trans ha⟩
  · exact Or.inr ⟨n, e, guarded, x, he.req.trans hreq, h.hist_get hx, hne⟩

/-- A message of the later world was there before, if no message was sent. -/
theorem Evolves.net_back (h : Evolves w w') {i : Nat} (hi : i < w.net.length) {m' : Msg}
    (hm' : w'.net[i]? = some m') : ∃ m, w.net[i]? = some m ∧ m.Evolves m' := by
  have hm : w.net[i]? = some w.net[i] := List.getElem?_eq_getElem hi
  obtain ⟨m'', hm'', he⟩ := h.net i _ hm
  rw [hm'] at hm''
  cases hm''
  exact ⟨_, hm, he⟩

/-- Creates in turn stay so. -/
theorem Evolves.serial (h : Evolves w w') (hlen : w'.net.length = w.net.length)
    (hs : Serial w) : Serial w' := by
  intro i j m m' hij hm hm' hown hc hc' hgen
  have hj : j < w'.net.length := (List.getElem?_eq_some_iff.mp hm').1
  obtain ⟨n, hn, he⟩ := h.net_back (by omega) hm
  obtain ⟨n', hn', he'⟩ := h.net_back (by omega) hm'
  have hown' : n'.owner = n.owner := by
    rw [← he'.owner, ← he.owner]
    exact hown
  rw [he.owner] at hgen
  rw [he.req] at hc
  rw [he'.req] at hc'
  exact h.dead he (hs i j n n' hij hn hn' hown' hc hc' (h.genuine hgen))

/-- A snapshot the floor has passed stays behind it. -/
theorem Evolves.outlived (h : Evolves w w') {key : Key} (ho : Outlived c w key) :
    Outlived c w' key := by
  obtain ⟨n, hp, hlt⟩ := ho
  exact ⟨n, hp, Nat.lt_of_lt_of_le hlt h.start⟩

/-- A snapshot stays the fold it was. -/
theorem Evolves.snapOk (h : Evolves w w') {start : Nat} {key : Key} {body : SnapshotBody}
    (hs : SnapOk codec c w.hist start key body) : SnapOk codec c w'.hist start key body where
  parse := hs.parse
  load := hs.load
  start_le := Nat.le_trans hs.start_le h.tail
  rows := by
    intro id
    rw [h.committedRows hs.start_le]
    exact hs.rows id

/-- What is known of a manifest stays known. -/
theorem Evolves.manifestOk (h : Evolves w w') {m : CurrentJson} (hm : ManifestOk codec c w m) :
    ManifestOk codec c w' m where
  wf := hm.wf
  floor_le := hm.floor_le
  hint_le := Nat.le_trans hm.hint_le h.tail
  start_le := Nat.le_trans hm.start_le h.start
  delete_le := Nat.le_trans hm.delete_le h.floor
  generation := by
    obtain ⟨m₁, hm₁, hg⟩ := hm.generation
    obtain ⟨m₂, hm₂, hg'⟩ := h.manifest m₁ hm₁
    exact ⟨m₂, hm₂, hg'.trans hg⟩
  unfolded := hm.unfolded
  folded := by
    intro key hkey
    obtain ⟨body, hs, ha⟩ := hm.folded key hkey
    exact ⟨body, h.snapOk hs, h.applied ha⟩

/-- A CAS that may be sent stays one. -/
theorem Evolves.casOk (h : Evolves w w') {pub : Publisher} {before after : CurrentJson}
    (hc : CasOk codec c w pub before after) : CasOk codec c w' pub before after where
  transition := hc.transition
  wf := hc.wf
  hint_le := Nat.le_trans hc.hint_le h.tail
  fold := by
    intro hpub
    rcases hc.fold hpub with hold | ⟨key, body, hkey, hs, ha⟩
    · exact Or.inl (Nat.lt_of_lt_of_le hold h.start)
    · exact Or.inr ⟨key, body, hkey, h.snapOk hs, h.applied ha⟩

/-- So does a create. -/
theorem Evolves.createOk (h : Evolves w w') {t n : Nat} {e : LogEntry} {guarded : Bool}
    (hc : CreateOk c w t n e guarded) : CreateOk c w' t n e guarded where
  entry := hc.entry
  session := hc.session
  le_tail := Nat.le_trans hc.le_tail h.tail
  manifest := h.born hc.manifest
  insert := by
    intro hg
    obtain ⟨hop, hcoll, habs⟩ := hc.insert hg
    refine ⟨hop, hcoll, fun hhon => ?_⟩
    rw [h.committedRows hc.le_tail]
    exact habs (h.honest hhon)

/-- **What is known of a request stays known**, so a message may be delivered late. -/
theorem Evolves.reqOk (h : Evolves w w') {t : Nat} {r : Req} (hr : ReqOk codec c w t r) :
    ReqOk codec c w' t r := by
  cases r with
  | createCurrent m => exact hr
  | casCurrent pub before after => exact h.casOk hr
  | createLog n e guarded => exact h.createOk hr
  | putSnapshot key body => trivial
  | createPending p => exact hr
  | casPending before p => exact hr
  | createMarker key => trivial
  | deleteMarker key => trivial
  | deleteLog n => exact Nat.lt_of_lt_of_le hr h.floor
  | deleteSnapshot key => exact h.outlived hr

/-- What landed stays accounted for. -/
theorem Evolves.landedOk (h : Evolves w w') {r : Req} (hr : LandedOk w r) : LandedOk w' r := by
  cases r with
  | createCurrent m =>
    obtain ⟨m₁, hm₁, hg⟩ := hr
    obtain ⟨m₂, hm₂, hg'⟩ := h.manifest m₁ hm₁
    exact ⟨m₂, hm₂, hg'.trans hg⟩
  | casCurrent pub before after => exact Nat.le_trans hr h.floor
  | createLog n e guarded =>
    refine ⟨Nat.lt_of_lt_of_le hr.1 h.tail, ?_⟩
    rcases hr.2 with hh | hf
    · exact Or.inl (h.hist_get hh)
    · exact Or.inr (Nat.lt_of_lt_of_le hf h.floor)
  | _ => trivial

/-- So does what was refused. -/
theorem Evolves.refusedOk (h : Evolves w w') {r : Req} (hr : RefusedOk w r) : RefusedOk w' r := by
  cases r with
  | createLog n e guarded => exact Nat.lt_of_lt_of_le hr h.tail
  | _ => trivial

/-- **So does every message**, case by case. -/
theorem Evolves.msgOk (h : Evolves w w') {m : Msg} (hm : MsgOk codec c w m) :
    MsgOk codec c w' m :=
  ⟨h.reqOk hm.req, fun ha => h.landedOk (hm.landed ha), fun hr => h.refusedOk (hm.refused hr)⟩

end Stable

end Baerly
