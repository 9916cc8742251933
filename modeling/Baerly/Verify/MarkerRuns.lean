import Baerly.Verify.MarkerOrder

/-
  No live row is without its markers.

  SPEC: in a run in which two commits on one document never overlap, every marker of every live row
  is in the store, whatever crashes and whatever fails, with two exceptions.  A DELETE of a stale
  marker that failed may take effect much later, when the value it belongs to is back (`lateDelete`).
  And a commit whose create filled a retired slot is not in the committed sequence: if it cannot
  re-read the manifest it cleans up all the same (`skippedCheck`).  So the DELETEs are prompt, and
  that read is answered.

  CRUX: a marker may be missed by the row that is live now, or by an entry that may still land.
  Neither is hurt by a DELETE of the latest commit on the document: that commit is committed, so an
  earlier one that is still to land lost its slot, and a later one does not exist.
-/

namespace Baerly

open Async

/-! ## Runs without overlap -/

/-- The document a call commits to. -/
def Call.docId : Call → Option JsString
  | .commit _ input => some input.docId
  | .insert _ members uuidv7 _ => some (resolveId members uuidv7)
  | _ => none

/-- The calls of a pool, in the order they were made. -/
def callsOf (σ : State) : List Call :=
  σ.threads.map (·.call)

/-- No call after call `t` commits to the document of call `t`. -/
def latest (calls : List Call) (t : Nat) : Bool :=
  (calls.drop (t + 1)).all fun call =>
    call.docId = none ∨ call.docId ≠ (calls[t]?).bind Call.docId

/-- A DELETE of an index marker. -/
def Req.isDeleteMarker : Req → Bool
  | .deleteMarker _ => true
  | _ => false

def Pick.fails : Pick → Bool
  | .fail _ => true
  | _ => false

/-- Thread `t` is about to read the manifest. -/
def readsManifest (σ : State) (t : Nat) : Bool :=
  match σ.threads[t]? with
  | some ⟨_, _, .waiting .getCurrent _⟩ => true
  | _ => false

section Runs

variable {codec : Codec} {c : Collection}

/-- Commits on one document do not overlap: once a later one has started, an earlier one makes no
    step any more. -/
def apart (σ : State) : Act (deployed codec c) → Bool
  | .step t _ => latest (callsOf σ) t
  | _ => true

/-- A DELETE of a marker takes effect before a later commit on its document starts, or never. -/
def prompt (σ : State) : Act (deployed codec c) → Bool
  | .env (i : Nat) => (σ.world.net[i]?).all fun m =>
      !m.req.isDeleteMarker || latest (callsOf σ) m.owner
  | _ => true

/-- A manifest read of a commit that filled a retired slot is answered. -/
def answered (σ : State) : Act (deployed codec c) → Bool
  | .step t pick => !(Pick.fails pick && readsManifest σ t && refilled t σ.world)
  | _ => true

/-- All three. -/
def orderly (σ : State) (a : Act (deployed codec c)) : Bool :=
  apart σ a && prompt σ a && answered σ a

end Runs

/-- What the store holds for a document: the row of the fold of the live log onto the snapshot. -/
def LiveRow (codec : Codec) (c : Collection) (w : World) (id : JsString) (doc : Doc) : Prop :=
  ∃ m base es, w.cur = some m ∧ w.base codec c m = some base ∧ IsLiveLog w m.logSeqStart es ∧
    (foldLogEntriesOnto c.collectionName none base es).get id = some doc

/-- **No live row is without its markers.** -/
def MarkersCover (codec : Codec) (N : NumberText) (c : Collection) (indexes : List IndexDefinition)
    (w : World) : Prop :=
  ∀ id doc, LiveRow codec c w id doc → ∃ keys,
    allIndexKeysFor N c.collectionPrefix indexes (some doc) id = .ok keys ∧
      ∀ key ∈ keys, w.marker key = true

/-! ## Who sends what -/

theorem latest_iff {calls : List Call} {t : Nat} : latest calls t = true ↔
    ∀ (u : Nat) (call call' : Call) (id : JsString), t < u → calls[t]? = some call →
      calls[u]? = some call' → call.docId = some id → call'.docId ≠ some id := by
  unfold latest
  rw [List.all_eq_true]
  constructor
  · intro h u call call' id htu ht hu hid hid'
    have hmem : call' ∈ calls.drop (t + 1) := by
      refine List.mem_of_getElem? (i := u - (t + 1)) ?_
      rw [List.getElem?_drop, show t + 1 + (u - (t + 1)) = u by omega]
      exact hu
    have hno := h call' hmem
    rw [ht] at hno
    simp [hid, hid'] at hno
  · intro h call' hmem
    obtain ⟨k, hk⟩ := List.getElem?_of_mem hmem
    rw [List.getElem?_drop] at hk
    rw [decide_eq_true_eq]
    cases hid' : call'.docId with
    | none => exact Or.inl rfl
    | some id =>
      refine Or.inr fun heq => ?_
      obtain ⟨call, ht, hid⟩ := Option.bind_eq_some_iff.mp heq.symm
      exact h _ call call' id (by omega) ht hk hid hid'

/-- A call stays the latest only as long as no other is made. -/
theorem latest_of_append {calls : List Call} {call : Call} {t : Nat}
    (h : latest (calls ++ [call]) t = true) : latest calls t = true := by
  rw [latest_iff] at h ⊢
  intro u call₁ call₂ id htu ht hu
  refine h u call₁ call₂ id htu ?_ ?_
  · rw [List.getElem?_append_left (List.getElem?_eq_some_iff.mp ht).1]
    exact ht
  · rw [List.getElem?_append_left (List.getElem?_eq_some_iff.mp hu).1]
    exact hu

/-- The commits of one call are about one document, and leave one row. -/
theorem Call.Commits.docId_eq {c : Collection} {call : Call} {cfg : WriterConfig}
    {input : CommitInput} (h : call.Commits c cfg input) : call.docId = some input.docId := by
  cases h with
  | commit => rfl
  | insert => rfl

theorem Call.Commits.unique {c : Collection} {call : Call} {cfg cfg' : WriterConfig}
    {input input' : CommitInput} (h : call.Commits c cfg input) (h' : call.Commits c cfg' input') :
    input.op = input'.op ∧ input.docId = input'.docId ∧ input.body = input'.body := by
  cases h with
  | commit =>
    cases h'
    exact ⟨rfl, rfl, rfl⟩
  | insert =>
    cases h'
    exact ⟨rfl, rfl, rfl⟩

/-- A document id that passed the checks is one path segment. -/
theorem precheck_docId {cfg : WriterConfig} {input : CommitInput} (h : input.precheck cfg = .ok ()) :
    input.docId ≠ [] ∧ slash ∉ input.docId := by
  have hstored : assertStoredDocId input.docId = .ok () := by
    unfold CommitInput.precheck at h
    by_cases hop : input.op = .D
    · rw [if_pos hop] at h
      obtain ⟨u, hid, -⟩ := except_bind_ok h
      exact hid
    · rw [if_neg hop] at h
      obtain ⟨u, hid, -⟩ := except_bind_ok h
      obtain ⟨v, hid, -⟩ := except_bind_ok hid
      exact hid
  exact assertStoredDocId_ok hstored

/-- What a call may ask for: entries of its commits, and markers of its document. -/
def Sends (c : Collection) (call : Call) : Op → Prop
  | .send (.createLog n e _) => ∃ cfg input session ms, call.Commits c cfg input ∧
      input.precheck cfg = .ok () ∧ e = mintEntry session ms input n
  | .send (.createMarker key) => ∃ id, call.docId = some id ∧ docIdOf key = some id
  | .send (.deleteMarker key) => ∃ id, call.docId = some id ∧ docIdOf key = some id
  | _ => True

theorem admits_sends (c : Collection) (call : Call) : Admits (Sends c call) where
  routine := by
    intro op h
    cases op with
    | send r =>
      cases r with
      | createLog n e guarded => exact h.elim
      | createMarker key => exact h.elim
      | deleteMarker key => exact h.elim
      | _ => trivial
    | _ => trivial
  create := fun _ _ => trivial
  replace := fun _ _ _ _ _ => trivial

/-- **A call asks for nothing else.** -/
theorem sends_body {codec : Codec} {N : NumberText} {c : Collection} {indexes : List IndexDefinition}
    {t : Nat} {call : Call} (hdecl : call.Declares N c indexes) :
    (body codec c t call).Asks (Sends c call) (fun _ => True) := by
  refine asks_body (admits_sends c call) codec c ?_
  intro cfg input hcommits hpre
  obtain ⟨hne, hslash⟩ := precheck_docId hpre
  have hdoc : ∀ body keys, cfg.allIndexKeysFor body input.docId = .ok keys → ∀ key ∈ keys,
      ∃ id, call.docId = some id ∧ docIdOf key = some id := by
    intro body keys hkeys key hkey
    rw [(hdecl cfg input hcommits).keys] at hkeys
    exact ⟨_, hcommits.docId_eq, docIdOf_mem_allIndexKeysFor hne hslash hkeys key hkey⟩
  refine ⟨hdoc, ?_, ?_⟩
  · exact fun ms seq guarded => ⟨cfg, input, t, ms, hcommits, hpre, rfl⟩
  · intro key hstale
    obtain ⟨body, keys, hkeys, hkey⟩ := hstale.ofDoc
    exact hdoc body keys hkeys key hkey

/-! ## The invariant -/

section Kept

variable (codec : Codec) (N : NumberText) (c : Collection) (indexes : List IndexDefinition)

/-- Every marker of the row the entry leaves is there. -/
def Marks (e : LogEntry) (w : World) : Prop :=
  ∀ keys, entryKeys N c indexes e = .ok keys → ∀ key ∈ keys, w.marker key = true

/-- Nothing is committed for the document after slot `n`. -/
def LastFor (w : World) (n : Nat) (id : JsString) : Prop :=
  ∀ (k : Nat) (x : LogEntry), n < k → w.hist[k]? = some x → x.docId ≠ id

/-- **The invariant**, over the calls that were made. -/
structure Kept (calls : List Call) (w : World) : Prop where
  declared : ∀ call ∈ calls, call.Declares N c indexes
  sent : ∀ m ∈ w.net, ∃ call, calls[m.owner]? = some call ∧ Sends c call (.send m.req)
  /-- An earlier commit on the document has no slot above an entry of a later one. -/
  senior : ∀ (n : Nat) (e : LogEntry), w.hist[n]? = some e → ∀ m ∈ w.net, ∀ k x guarded,
    m.req = .createLog k x guarded → x.docId = e.docId → m.owner < e.session → k ≤ n
  /-- The latest commit on a document finds its markers where it put them. -/
  put : ∀ m ∈ w.net, ∀ key, m.req = .createMarker key → m.applied = true ∨ m.refused = true →
    latest calls m.owner = true →
    (∀ m' ∈ w.net, m'.owner = m.owner → m'.req ≠ .deleteMarker key) → w.marker key = true
  pending : ∀ m ∈ w.net, ∀ n e guarded, m.req = .createLog n e guarded → w.tail ≤ n →
    Marks N c indexes e w
  rows : ∀ (n : Nat) (e : LogEntry), w.hist[n]? = some e → LastFor w n e.docId → Marks N c indexes e w

end Kept

section Steps

variable {codec : Codec} {N : NumberText} {c : Collection} {indexes : List IndexDefinition}
variable {calls : List Call} {w w' : World} {t : Nat}

/-- What the sender of a create tells of the entry. -/
theorem Kept.create (h : Kept N c indexes calls w) {m : Msg} (hm : m ∈ w.net) {n : Nat}
    {e : LogEntry} {guarded : Bool} (hreq : m.req = .createLog n e guarded) :
    ∃ call cfg input, calls[m.owner]? = some call ∧ call.docId = some e.docId ∧
      call.Commits c cfg input ∧ Declared N c indexes cfg input ∧ e.docId ≠ [] ∧ slash ∉ e.docId ∧
      ∃ session ms, e = mintEntry session ms input n := by
  obtain ⟨call, hcall, hsends⟩ := h.sent m hm
  rw [hreq] at hsends
  obtain ⟨cfg, input, session, ms, hcommits, hpre, rfl⟩ := hsends
  obtain ⟨hne, hslash⟩ := precheck_docId hpre
  exact ⟨call, cfg, input, hcall, hcommits.docId_eq, hcommits,
    h.declared call (List.mem_of_getElem? hcall) cfg input hcommits, hne, hslash, session, ms, rfl⟩

/-- The markers of an entry end in its document. -/
theorem Kept.docIdOf_key (h : Kept N c indexes calls w) {m : Msg} (hm : m ∈ w.net) {n : Nat}
    {e : LogEntry} {guarded : Bool} (hreq : m.req = .createLog n e guarded) {keys : List Key}
    (hkeys : entryKeys N c indexes e = .ok keys) {key : Key} (hkey : key ∈ keys) :
    docIdOf key = some e.docId := by
  obtain ⟨-, -, -, -, -, -, -, hne, hslash, -⟩ := h.create hm hreq
  unfold entryKeys at hkeys
  split at hkeys
  · cases hkeys
    exact absurd hkey List.not_mem_nil
  · exact docIdOf_mem_allIndexKeysFor hne hslash hkeys key hkey

/-- Two creates of one thread leave the same row. -/
theorem Kept.same_row (h : Kept N c indexes calls w) {m m' : Msg} (hm : m ∈ w.net) (hm' : m' ∈ w.net)
    (hown : m'.owner = m.owner) {n n' : Nat} {e e' : LogEntry} {guarded guarded' : Bool}
    (hreq : m.req = .createLog n e guarded) (hreq' : m'.req = .createLog n' e' guarded') :
    entryKeys N c indexes e' = entryKeys N c indexes e := by
  obtain ⟨call, cfg, input, hcall, -, hcommits, -, -, -, session, ms, rfl⟩ := h.create hm hreq
  obtain ⟨call', cfg', input', hcall', -, hcommits', -, -, -, session', ms', rfl⟩ :=
    h.create hm' hreq'
  rw [hown, hcall] at hcall'
  cases hcall'
  obtain ⟨hop, hid, hbody⟩ := hcommits'.unique hcommits
  unfold entryKeys mintEntry
  dsimp only
  rw [hop, hid, hbody]

/-- A later commit on the document does not exist, where a thread is the latest. -/
theorem le_of_latest (hlatest : latest calls t = true) {u : Nat} {call call' : Call} {id : JsString}
    (ht : calls[t]? = some call) (hu : calls[u]? = some call') (hid : call.docId = some id)
    (hid' : call'.docId = some id) : u ≤ t := by
  by_contra hgt
  exact latest_iff.mp hlatest u call call' id (by omega) ht hu hid hid'

/-- **A DELETE of the latest commit is harmless to an entry that projects to the marker**: the entry
    is of an earlier commit, and has no slot above the one of the latest. -/
theorem Kept.outranked (h : Kept N c indexes calls w) (hinv : Inv codec c w)
    (hseq : Sequenced N c indexes w) {d : Msg} (hd : d ∈ w.net) {key : Key}
    (hdreq : d.req = .deleteMarker key) (hlatest : latest calls d.owner = true) {m : Msg}
    (hm : m ∈ w.net) {n : Nat} {e : LogEntry} {guarded : Bool} (hreq : m.req = .createLog n e guarded)
    {keys : List Key} (hkeys : entryKeys N c indexes e = .ok keys) (hkey : key ∈ keys) :
    ∃ (k : Nat) (x : LogEntry), w.hist[k]? = some x ∧ x.docId = e.docId ∧ x.session = d.owner ∧
      m.owner < d.owner ∧ n ≤ k := by
  obtain ⟨k, x, hx, hsession, hno⟩ := hseq.dropped d hd key hdreq
  obtain ⟨mx, hmx, gx, hxreq, -, hxown⟩ := hinv.committed k x hx
  rw [hsession] at hxown
  -- the DELETE, the entry of its commit and the entry at hand are about one document
  obtain ⟨dcall, hdcall, id, hdid, hdkey⟩ : ∃ call, calls[d.owner]? = some call ∧
      ∃ id, call.docId = some id ∧ docIdOf key = some id := by
    obtain ⟨call, hcall, hsends⟩ := h.sent d hd
    rw [hdreq] at hsends
    exact ⟨call, hcall, hsends⟩
  obtain ⟨xcall, -, -, hxcall, hxid, -⟩ := h.create hmx hxreq
  obtain ⟨mcall, -, -, hmcall, hmid, -⟩ := h.create hm hreq
  rw [hxown, hdcall] at hxcall
  cases hxcall
  have hsame : e.docId = id := by
    have hekey := h.docIdOf_key hm hreq hkeys hkey
    rw [hdkey] at hekey
    exact (Option.some.inj hekey).symm
  have hxsame : x.docId = e.docId := by
    rw [hdid] at hxid
    rw [hsame]
    exact (Option.some.inj hxid).symm
  have hle : m.owner ≤ d.owner :=
    le_of_latest hlatest hdcall hmcall hdid (by rw [hmid, hsame])
  have hne : m.owner ≠ d.owner := by
    intro heq
    have hrow := h.same_row hmx hm (heq.trans hxown.symm) hxreq hreq
    rw [hkeys] at hrow
    exact hno keys hrow.symm hkey
  have hlt : m.owner < d.owner := by omega
  exact ⟨k, x, hx, hxsame, hsession, hlt,
    h.senior k x hx m hm n e guarded hreq hxsame.symm (hsession ▸ hlt)⟩

/-! ### One action at a time -/

/-- Another call is made. -/
theorem Kept.spawn (h : Kept N c indexes calls w) {call : Call} (hdecl : call.Declares N c indexes) :
    Kept N c indexes (calls ++ [call]) w where
  declared := by
    intro call' hcall'
    rcases List.mem_append.mp hcall' with hold | hnew
    · exact h.declared call' hold
    · rw [List.mem_singleton.mp hnew]
      exact hdecl
  sent := by
    intro m hm
    obtain ⟨call', hcall', hsends⟩ := h.sent m hm
    refine ⟨call', ?_, hsends⟩
    rw [List.getElem?_append_left (List.getElem?_eq_some_iff.mp hcall').1]
    exact hcall'
  senior := h.senior
  put := fun m hm key hreq hdone hlatest => h.put m hm key hreq hdone (latest_of_append hlatest)
  pending := h.pending
  rows := h.rows

/-- A request that sends nothing. -/
theorem Kept.quiet (h : Kept N c indexes calls w) (hev : Evolves w w') (hhist : w'.hist = w.hist)
    (hmarker : w'.marker = w.marker) (hsame : SameMsgs w w') : Kept N c indexes calls w' := by
  have hmarks : ∀ {e}, Marks N c indexes e w → Marks N c indexes e w' := by
    intro e hmarks keys hkeys key hkey
    rw [hmarker]
    exact hmarks keys hkeys key hkey
  refine ⟨h.declared, ?_, ?_, ?_, ?_, ?_⟩
  · intro m' hm'
    obtain ⟨m, hm, hown, hreq, -, -⟩ := hsame.back m' hm'
    rw [hown, hreq]
    exact h.sent m hm
  · intro n e hn m' hm' k x guarded hreq' hid hlt
    rw [hhist] at hn
    obtain ⟨m, hm, hown, hreq, -, -⟩ := hsame.back m' hm'
    exact h.senior n e hn m hm k x guarded (hreq.symm.trans hreq') hid (hown ▸ hlt)
  · intro m' hm' key hreq' hdone hlatest hno
    obtain ⟨m, hm, hown, hreq, happ, href⟩ := hsame.back m' hm'
    rw [hmarker]
    refine h.put m hm key (hreq.symm.trans hreq') ?_ (hown ▸ hlatest) ?_
    · rw [← happ, ← href]
      exact hdone
    · intro d hd hdown
      obtain ⟨d', hd', hde⟩ := hev.mem_net hd
      rw [← hde.req]
      exact hno d' hd' (hde.owner.trans (hdown.trans hown.symm))
  · intro m' hm' n e guarded hreq' htail
    obtain ⟨m, hm, -, hreq, -, -⟩ := hsame.back m' hm'
    refine hmarks (h.pending m hm n e guarded (hreq.symm.trans hreq') ?_)
    unfold World.tail at htail ⊢
    rw [← hhist]
    exact htail
  · intro n e hn hlast
    rw [hhist] at hn
    refine hmarks (h.rows n e hn fun k x hk hx => hlast k x hk ?_)
    rw [hhist]
    exact hx

/-- **A request is sent**, by the latest commit on its document. -/
theorem Kept.sendMsg (h : Kept N c indexes calls w) (hinv : Inv codec c w) {r : Req}
    (hseq : Sequenced N c indexes (w.sendMsg t r)) {call : Call} (hcall : calls[t]? = some call)
    (hsends : Sends c call (.send r)) (hlatest : latest calls t = true) :
    Kept N c indexes calls (w.sendMsg t r) := by
  refine ⟨h.declared, ?_, ?_, ?_, ?_, h.rows⟩
  · intro m hm
    rcases mem_sendMsg hm with hold | rfl
    · exact h.sent m hold
    · exact ⟨call, hcall, hsends⟩
  -- a commit that is waiting is later than what is committed
  · intro n e hn m hm k x guarded hreq hid hlt
    rcases mem_sendMsg hm with hold | rfl
    · exact h.senior n e hn m hold k x guarded hreq hid hlt
    · -- no commit on the document is later than this one
      have hreq' : r = .createLog k x guarded := hreq
      rw [hreq'] at hsends
      obtain ⟨cfg, input, session, ms, hcommits, -, rfl⟩ := hsends
      obtain ⟨me, hme, ge, hereq, -, heown⟩ := hinv.committed n e hn
      obtain ⟨ecall, -, -, hecall, heid, -⟩ := h.create hme hereq
      rw [heown] at hecall
      have hle := le_of_latest hlatest hcall hecall hcommits.docId_eq
        (heid.trans (congrArg some hid.symm))
      have hlt' : t < e.session := hlt
      omega
  · intro m hm key hreq hdone hlatest' hno
    rcases mem_sendMsg hm with hold | rfl
    · exact h.put m hold key hreq hdone hlatest' fun d hd => hno d (List.mem_append_left _ hd)
    · rcases hdone with hdone | hdone
      · cases hdone
      · cases hdone
  -- a commit in flight has its markers
  · intro m hm n e guarded hreq htail
    rcases mem_sendMsg hm with hold | rfl
    · exact h.pending m hold n e guarded hreq htail
    · -- every marker of the entry was answered, and the thread has deleted none
      intro keys hkeys key hkey
      obtain ⟨keys', hkeys', hall⟩ := hseq.covered _ hm n e guarded hreq
      rw [hkeys] at hkeys'
      cases hkeys'
      obtain ⟨p, hp, hpown, hpreq, hdone⟩ := hall key hkey
      have hreq' : r = .createLog n e guarded := hreq
      rcases mem_sendMsg hp with hold | rfl
      · have hpown' : p.owner = t := hpown
        refine h.put p hold key hpreq hdone (by rw [hpown']; exact hlatest) ?_
        intro d hd hdown hdreq
        obtain ⟨j, hj⟩ := List.getElem?_of_mem hd
        have hjlt := (List.getElem?_eq_some_iff.mp hj).1
        have hj' : (w.sendMsg t r).net[j]? = some d := by
          simp only [World.sendMsg, List.getElem?_append_left hjlt]
          exact hj
        have hlt := hseq.last _ j _ d (net_sendMsg_self w t r) hj' (hdown.trans hpown')
          (by show r.isCreateLog = true; rw [hreq']; rfl) key hdreq
        omega
      · have hpreq' : r = .createMarker key := hpreq
        rw [hreq'] at hpreq'
        cases hpreq'

/-- A delivery takes a marker away only as a DELETE of it. -/
theorem applyReq_marker {w₁ : World} {r : Req} (h : applyReq w r = some w₁) {key : Key}
    (hgone : w₁.marker key = false) : w.marker key = false ∨ r = .deleteMarker key := by
  cases r <;> simp only [applyReq] at h
  case deleteMarker k =>
    cases h
    simp only [World.setMarker] at hgone
    split at hgone
    next heq => exact Or.inr (by rw [heq])
    next => exact Or.inl hgone
  case createMarker k =>
    split at h
    · cases h
    · cases h
      simp only [World.setMarker] at hgone
      split at hgone
      · cases hgone
      · exact Or.inl hgone
  case putSnapshot | deleteLog | deleteSnapshot => cases h; exact Or.inl hgone
  all_goals
    split at h
    · cases h; exact Or.inl hgone
    · cases h

/-- After a delivery of its PUT a marker is there. -/
theorem marker_of_delivered {i : Nat} (hd : deliver i w = some w') {m : Msg}
    (hi : w.net[i]? = some m) {key : Key} (hreq : m.req = .createMarker key) :
    w'.marker key = true := by
  obtain ⟨m', hi', -, ⟨w₁, ha, rfl⟩ | ⟨ha, rfl⟩⟩ := deliver_cases hd
  · rw [hi] at hi'
    cases hi'
    rw [hreq] at ha
    simp only [applyReq] at ha
    split at ha
    · cases ha
    · cases ha
      simp only [World.setMsg, World.setMarker, if_true]
  · rw [hi] at hi'
    cases hi'
    rw [hreq] at ha
    simp only [applyReq] at ha
    split at ha
    next hthere => exact hthere
    next => cases ha

/-- Where a message of the later world comes from. -/
theorem deliver_back {i : Nat} (hd : deliver i w = some w') {m' : Msg} (hm' : m' ∈ w'.net) :
    ∃ m ∈ w.net, m'.owner = m.owner ∧ m'.req = m.req ∧
      (m'.applied = m.applied ∧ m'.refused = m.refused ∨ w.net[i]? = some m) := by
  obtain ⟨m, hi, -, ⟨w₁, ha, rfl⟩ | ⟨-, rfl⟩⟩ := deliver_cases hd
  · have hmem : m' ∈ w.net.set i { m with applied := true } := by
      rw [← (applyReq_frame ha).1]
      exact hm'
    rcases List.mem_or_eq_of_mem_set hmem with hold | rfl
    · exact ⟨m', hold, rfl, rfl, Or.inl ⟨rfl, rfl⟩⟩
    · exact ⟨m, List.mem_of_getElem? hi, rfl, rfl, Or.inr hi⟩
  · rcases List.mem_or_eq_of_mem_set hm' with hold | rfl
    · exact ⟨m', hold, rfl, rfl, Or.inl ⟨rfl, rfl⟩⟩
    · exact ⟨m, List.mem_of_getElem? hi, rfl, rfl, Or.inr hi⟩

/-- What one delivery can do to the markers and to the committed sequence. -/
theorem deliver_effect {i : Nat} (hd : deliver i w = some w') {m : Msg} (hi : w.net[i]? = some m) :
    (∀ key, w'.marker key = false → w.marker key = false ∨ m.req = .deleteMarker key) ∧
      (w'.hist = w.hist ∨
        ∃ e guarded, m.req = .createLog w.tail e guarded ∧ w'.hist = w.hist ++ [e]) := by
  obtain ⟨m', hi', -, ⟨w₁, ha, rfl⟩ | ⟨-, rfl⟩⟩ := deliver_cases hd
  · rw [hi] at hi'
    cases hi'
    refine ⟨fun key hgone => applyReq_marker ha hgone, ?_⟩
    rcases applyReq_hist ha with hsame | ⟨e, guarded, hreq, -, hhist⟩
    · exact Or.inl hsame
    · exact Or.inr ⟨e, guarded, hreq, hhist⟩
  · exact ⟨fun key hgone => Or.inl hgone, Or.inl rfl⟩

/-- **A delivery**; a DELETE of a marker is one of the latest commit on its document. -/
theorem Kept.deliver (h : Kept N c indexes calls w) (hinv : Inv codec c w)
    (hseq : Sequenced N c indexes w) (hev : Evolves w w') {i : Nat} (hd : deliver i w = some w')
    {m₀ : Msg} (hi : w.net[i]? = some m₀)
    (hprompt : ∀ key, m₀.req = .deleteMarker key → latest calls m₀.owner = true) :
    Kept N c indexes calls w' := by
  have hm₀ := List.mem_of_getElem? hi
  obtain ⟨hmarker, hhist⟩ := deliver_effect hd hi
  -- an entry keeps its markers, unless it is outranked by the commit whose DELETE this is
  have hmarks : ∀ {m : Msg} {n : Nat} {e : LogEntry} {guarded : Bool}, m ∈ w.net →
      m.req = .createLog n e guarded → Marks N c indexes e w →
      (∀ (k : Nat) (x : LogEntry), w.hist[k]? = some x → x.docId = e.docId →
        x.session = m₀.owner → m.owner < m₀.owner → n ≤ k → False) → Marks N c indexes e w' := by
    intro m n e guarded hm hreq hmarked hrank keys hkeys key hkey
    by_contra hgone
    rcases hmarker key (by simpa using hgone) with hold | hdelete
    · rw [hmarked keys hkeys key hkey] at hold
      cases hold
    · obtain ⟨k, x, hx, hid, hs, hlt, hle⟩ :=
        h.outranked hinv hseq hm₀ hdelete (hprompt key hdelete) hm hreq hkeys hkey
      exact hrank k x hx hid hs hlt hle
  have htail : w.tail ≤ w'.tail := hev.tail
  refine ⟨h.declared, ?_, ?_, ?_, ?_, ?_⟩
  · intro m' hm'
    obtain ⟨m, hm, hown, hreq, -⟩ := deliver_back hd hm'
    rw [hown, hreq]
    exact h.sent m hm
  · intro n e hn m' hm' k x guarded hreq' hid hlt
    obtain ⟨m, hm, hown, hreq, -⟩ := deliver_back hd hm'
    have hmreq := hreq.symm.trans hreq'
    by_cases hold : w.hist[n]? = some e
    · exact h.senior n e hold m hm k x guarded hmreq hid (hown ▸ hlt)
    · -- the entry just landed at the tail, and nobody was sent above the tail
      have hn' : w.tail ≤ n := by
        rcases Nat.lt_or_ge n w.tail with hlt' | hge
        · have hget : w.hist[n]? = some w.hist[n] := List.getElem?_eq_getElem hlt'
          have hkept := hev.hist_get hget
          rw [hn] at hkept
          exact absurd (hget.trans hkept.symm) hold
        · exact hge
      have hcreate := (hinv.msgs m hm).req
      rw [hmreq] at hcreate
      exact Nat.le_trans hcreate.le_tail hn'
  · intro m' hm' key hreq' hdone hlatest hno
    obtain ⟨m, hm, hown, hreq, hsame⟩ := deliver_back hd hm'
    have hmreq := hreq.symm.trans hreq'
    rcases hsame with ⟨happ, href⟩ | hself
    · have hold : w.marker key = true := by
        refine h.put m hm key hmreq (by rw [← happ, ← href]; exact hdone) (hown ▸ hlatest) ?_
        intro d hd' hdown
        obtain ⟨d', hd'', hde⟩ := hev.mem_net hd'
        rw [← hde.req]
        exact hno d' hd'' (hde.owner.trans (hdown.trans hown.symm))
      by_contra hgone
      rcases hmarker key (by simpa using hgone) with hgone' | hdelete
      · rw [hold] at hgone'
        cases hgone'
      · -- both threads are the latest on the document of the key: they are one
        obtain ⟨call, hcall, hsends⟩ := h.sent m hm
        obtain ⟨call₀, hcall₀, hsends₀⟩ := h.sent m₀ hm₀
        rw [hmreq] at hsends
        rw [hdelete] at hsends₀
        obtain ⟨id, hid, hkey⟩ := hsends
        obtain ⟨id₀, hid₀, hkey₀⟩ := hsends₀
        rw [hkey] at hkey₀
        cases hkey₀
        have hle := le_of_latest (hown ▸ hlatest) hcall hcall₀ hid hid₀
        have hge := le_of_latest (hprompt key hdelete) hcall₀ hcall hid₀ hid
        obtain ⟨d', hd', hde⟩ := hev.mem_net hm₀
        exact hno d' hd' (hde.owner.trans (by omega)) (hde.req.trans hdelete)
    · exact marker_of_delivered hd hself hmreq
  · intro m' hm' n e guarded hreq' htail'
    obtain ⟨m, hm, -, hreq, -⟩ := deliver_back hd hm'
    have hmreq := hreq.symm.trans hreq'
    refine hmarks hm hmreq (h.pending m hm n e guarded hmreq (by omega)) ?_
    intro k x hx _ _ _ hle
    have hlt : k < w.tail := (List.getElem?_eq_some_iff.mp hx).1
    omega
  · intro n e hn hlast
    by_cases hold : w.hist[n]? = some e
    · obtain ⟨m, hm, guarded, hreq, -, hown⟩ := hinv.committed n e hold
      have hlast' : LastFor w n e.docId := fun k x hk hx => hlast k x hk (hev.hist_get hx)
      refine hmarks hm hreq (h.rows n e hold hlast') ?_
      intro k x hx hid hs hlt hle
      rcases Nat.lt_or_ge n k with hnk | hnk
      · exact hlast' k x hnk hx hid
      · -- the entry outranks itself
        have heq : k = n := by omega
        rw [heq, hold] at hx
        cases hx
        omega
    · -- the entry that just landed
      rcases hhist with hsame | ⟨x, guarded, hreq, hhist⟩
      · rw [hsame] at hn
        exact absurd hn hold
      · have hlen : n = w.tail := by
          have hlt : n < w'.hist.length := (List.getElem?_eq_some_iff.mp hn).1
          rw [hhist, List.length_append, List.length_singleton] at hlt
          rcases Nat.lt_or_ge n w.hist.length with hlt' | hge
          · rw [hhist, List.getElem?_append_left hlt'] at hn
            exact absurd hn hold
          · unfold World.tail
            omega
        have hx : x = e := by
          rw [hhist, hlen] at hn
          simpa [World.tail] using hn
        subst hx
        refine hmarks hm₀ hreq (h.pending m₀ hm₀ _ x guarded hreq (Nat.le_refl _)) ?_
        intro k y _ _ _ hlt _
        omega

end Steps

/-! ## Whole runs -/

section Runs

variable {codec : Codec} {N : NumberText} {c : Collection} {indexes : List IndexDefinition}
variable {σ σ' : State}

/-- What every state of an orderly run is. -/
structure RunOk (codec : Codec) (N : NumberText) (c : Collection) (indexes : List IndexDefinition)
    (σ : State) : Prop where
  pool : (protocol codec c).PoolOk σ
  order : (orderProtocol codec N c indexes).PoolOk σ
  asks : ∀ (t : Nat) (th : Thread World Op Resp Err Call Res), σ.threads[t]? = some th →
    th.Asks (Sends c)
  kept : Kept N c indexes (callsOf σ) σ.world

theorem runOk_init : RunOk codec N c indexes State.init where
  pool := Protocol.poolOk_init (inv_empty codec c) fresh_empty
  order := Protocol.poolOk_init inOrder_empty fresh_empty
  asks := by
    intro t th hth
    cases hth
  kept := by
    refine ⟨?_, ?_, ?_, ?_, ?_, ?_⟩
    · exact fun call hcall => absurd hcall List.not_mem_nil
    · exact fun m hm => absurd hm List.not_mem_nil
    · exact fun n e _ m hm => absurd hm List.not_mem_nil
    · exact fun m hm => absurd hm List.not_mem_nil
    · exact fun m hm => absurd hm List.not_mem_nil
    · intro n e hn
      cases hn

/-- An action of an orderly run is one of the confined system. -/
theorem RunOk.allows (h : RunOk codec N c indexes σ) {a : Act (deployed codec c)}
    (hdecl : ∀ call, a = .spawn call → call.Declares N c indexes) (hfit : orderly σ a = true)
    (hn : (deployed codec c).next σ a = some σ') : (ordering codec N c indexes).Allows σ σ' a := by
  cases a with
  | spawn call => exact hdecl call rfl
  | env i =>
    simp only [Machine.next, Option.map_eq_some_iff] at hn
    obtain ⟨w', henv, rfl⟩ := hn
    exact (protocol codec c).env_ok h.pool.inv henv
  | step t pick =>
    intro call w₀ op k hth
    obtain ⟨call', w₀', op', k', r, hth', hex, -⟩ := Machine.next_step hn
    rw [hth] at hth'
    cases hth'
    refine ⟨(h.pool.thread t _ hth σ.world (Rely.refl _ _) h.pool.inv pick r _ hex).1, ?_⟩
    rintro rfl ⟨e, rfl⟩
    simp only [orderly, Bool.and_eq_true, answered, Bool.not_eq_true'] at hfit
    have hreads : readsManifest σ t = true := by
      unfold readsManifest
      rw [hth]
    simpa [Pick.fails, hreads] using hfit.2

/-- A thread goes on with the call it was made for. -/
theorem callsOf_set {t : Nat} {th th' : Thread World Op Resp Err Call Res}
    (hth : σ.threads[t]? = some th) (hset : σ'.threads = σ.threads.set t th')
    (hcall : th'.call = th.call) : callsOf σ' = callsOf σ := by
  obtain ⟨hlt, hget⟩ := List.getElem?_eq_some_iff.mp hth
  have hlt' : t < (callsOf σ).length := by
    rw [callsOf, List.length_map]
    exact hlt
  have hself : th.call = (callsOf σ)[t] := by
    simp only [callsOf, List.getElem_map, hget]
  unfold callsOf at hself ⊢
  rw [hset, List.map_set, hcall, hself]
  exact List.set_getElem_self _

/-- **One action of an orderly run.** -/
theorem RunOk.next (h : RunOk codec N c indexes σ) {a : Act (deployed codec c)}
    (hdecl : ∀ call, a = .spawn call → call.Declares N c indexes) (hfit : orderly σ a = true)
    (hn : (deployed codec c).next σ a = some σ') : RunOk codec N c indexes σ' := by
  have hpool := Protocol.next_ok (bodiesOk codec c) h.pool hn
  have horder := Protocol.next_ok order_bodiesOk h.order
    (Machine.next_confine hn (h.allows hdecl hfit hn))
  refine ⟨hpool, horder,
    Machine.next_asks h.asks hn fun call hcall => sends_body (hdecl call hcall), ?_⟩
  cases a with
  | spawn call =>
    simp only [Machine.next] at hn
    split at hn
    · cases hn
      show Kept N c indexes ((σ.threads ++ [_]).map Thread.call) σ.world
      rw [List.map_append]
      exact h.kept.spawn (hdecl call rfl)
    · cases hn
  | env i =>
    simp only [Machine.next, Option.map_eq_some_iff] at hn
    obtain ⟨w', hd, rfl⟩ := hn
    have hd' : deliver i σ.world = some w' := hd
    obtain ⟨m, hi, -⟩ := deliver_cases hd'
    refine h.kept.deliver h.pool.inv h.order.inv.2 (deliver_inv h.pool.inv hd').2 hd' hi ?_
    intro key hreq
    simp only [orderly, prompt, Bool.and_eq_true] at hfit
    have hall := hfit.1.2
    rw [hi] at hall
    simpa [hreq, Req.isDeleteMarker] using hall
  | step t pick =>
    obtain ⟨call, w₀, op, k, r, hth, hex, hthreads⟩ := Machine.next_step hn
    have hcalls : callsOf σ' = callsOf σ := callsOf_set hth hthreads rfl
    rw [hcalls]
    have hlatest : latest (callsOf σ) t = true := by
      simp only [orderly, apart, Bool.and_eq_true] at hfit
      exact hfit.1.1
    have hok := (h.pool.thread t _ hth σ.world (Rely.refl _ _) h.pool.inv pick r _ hex).1
    have hex' : exec t op pick σ.world = some (r, σ'.world) := hex
    obtain ⟨-, hhist, hmarker, ⟨q, rfl, hw⟩ | hsame⟩ := exec_frame hex'
    · have hsends : Sends c call (.send q) := (h.asks t _ hth (.send q) k rfl).1
      have hcall : (callsOf σ)[t]? = some call := by
        unfold callsOf
        rw [List.getElem?_map, hth]
        rfl
      have hseq := horder.inv.2
      rw [hw] at hseq ⊢
      exact h.kept.sendMsg h.pool.inv hseq hcall hsends hlatest
    · exact h.kept.quiet (hok.others (t + 1) (Nat.succ_ne_self t)).evolves hhist hmarker hsame

end Runs

/-! ## Live rows -/

section Covers

variable {codec : Codec} {N : NumberText} {c : Collection} {indexes : List IndexDefinition}
variable {calls : List Call} {w : World} {σ : State}

/-- Everything that is committed is committed to the collection. -/
theorem Kept.collection (h : Kept N c indexes calls w) (hinv : Inv codec c w) {n : Nat} {e : LogEntry}
    (hn : w.hist[n]? = some e) : e.collection = c.collectionName := by
  obtain ⟨m, hm, guarded, hreq, -, -⟩ := hinv.committed n e hn
  obtain ⟨_, _, input, _, _, _, hdecl, _, _, session, ms, rfl⟩ := h.create hm hreq
  exact hdecl.collection

/-- A row of a committed prefix was left by the last entry for its document. -/
theorem Kept.lastEntry (h : Kept N c indexes calls w) (hinv : Inv codec c w) {id : JsString}
    {doc : Doc} : ∀ n, n ≤ w.tail → (committedRows c w.hist n).get id = some doc →
      ∃ (k : Nat) (e : LogEntry), w.hist[k]? = some e ∧ e.docId = id ∧ e.op ≠ .D ∧ e.after = some doc ∧
        ∀ (j : Nat) (x : LogEntry), k < j → j < n → w.hist[j]? = some x → x.docId ≠ id := by
  intro n
  induction n with
  | zero => intro _ hget; cases hget
  | succ n ih =>
    intro hle hget
    have hlt : n < w.hist.length := hle
    have hn : w.hist[n]? = some w.hist[n] := List.getElem?_eq_getElem hlt
    have hcoll := h.collection hinv hn
    rw [committedRows_succ hn, get_foldEntry] at hget
    unfold entryEffect at hget
    by_cases hid : w.hist[n].docId = id
    · -- the entry at `n` is for the document: it left the row
      rw [if_neg (by simp [hcoll, hid])] at hget
      have hup : ∀ (j : Nat) (x : LogEntry), n < j → j < n + 1 → w.hist[j]? = some x →
          x.docId ≠ id := by
        intro j x hlo hhi
        omega
      split at hget
      next => cases hget
      next hop =>
        obtain ⟨image, himage, -⟩ := (hinv.entryOk hn).image hop
        rw [himage] at hget
        cases hget
        exact ⟨n, _, hn, hid, hop, himage, hup⟩
    · rw [if_pos (Or.inr hid)] at hget
      obtain ⟨k, e, hk, hek, hop, hafter, hlast⟩ := ih (by omega) hget
      refine ⟨k, e, hk, hek, hop, hafter, ?_⟩
      intro j x hlo hhi hx
      by_cases hj : j = n
      · subst hj
        rw [hn] at hx
        cases hx
        exact hid
      · exact hlast j x hlo (by omega) hx

/-- What the invariant is for. -/
theorem RunOk.covers (h : RunOk codec N c indexes σ) : MarkersCover codec N c indexes σ.world := by
  have hinv := h.pool.inv
  rintro id doc ⟨m, base, es, hm, hbase, hlive, hget⟩
  obtain ⟨base', es', hbase', -, hunique, hrows⟩ := Inv.materialised hinv hm
  rw [hbase] at hbase'
  cases hbase'
  cases hunique es hlive
  rw [hrows id] at hget
  have hcommitted : (committedRows c σ.world.hist σ.world.tail).get id = some doc := by
    unfold committedRows World.tail
    rw [List.take_length]
    exact hget
  obtain ⟨n, e, hn, rfl, hop, hafter, hlast⟩ := h.kept.lastEntry hinv _ (Nat.le_refl _) hcommitted
  have hlast' : LastFor σ.world n e.docId := by
    intro k x hk hx
    exact hlast k x hk (List.getElem?_eq_some_iff.mp hx).1 hx
  have hmarks := h.kept.rows n e hn hlast'
  obtain ⟨msg, hmsg, guarded, hreq, -, -⟩ := hinv.committed n e hn
  obtain ⟨keys, hkeys, -⟩ := h.order.inv.2.covered msg hmsg n e guarded hreq
  have hrow : entryKeys N c indexes e =
      allIndexKeysFor N c.collectionPrefix indexes (some doc) e.docId := by
    unfold entryKeys
    rw [if_neg hop, hafter]
  exact ⟨keys, hrow.symm.trans hkeys, hmarks keys hkeys⟩

/-- **No live row is without its markers**, after any run of commits with these indexes, reads,
    feeds and maintenance in which commits on one document do not overlap, whatever crashes, fails,
    is delivered late or is delivered twice: provided a DELETE of a stale marker takes effect before
    a later commit on the document starts or never, and a commit whose create filled a retired slot
    has its manifest read answered.  Neither can be left out: `lateDelete_uncovers` is a run with a
    late DELETE, `skippedCheck_uncovers` one with an unanswered read, and both lose a marker. -/
theorem markers_cover_live_rows {acts : List (Act (deployed codec c))}
    (hrun : (deployed codec c).run State.init acts = some σ)
    (hdecl : ∀ call, Act.spawn call ∈ acts → call.Declares N c indexes)
    (horderly : (deployed codec c).along orderly State.init acts = true) :
    MarkersCover codec N c indexes σ.world := by
  have hstep : ∀ σ a σ', RunOk codec N c indexes σ → a ∈ acts → orderly σ a = true →
      (deployed codec c).next σ a = some σ' → RunOk codec N c indexes σ' := by
    intro σ a σ' hok hmem hfit hn
    refine hok.next ?_ hfit hn
    rintro call rfl
    exact hdecl call hmem
  exact (Machine.along_invariant hstep runOk_init horderly hrun).covers

end Covers

/-! ### Runs

A collection of tickets with one index, on their status. -/

section Samples

theorem byStatus_typed (filter : PredicateWire) (h : none = some filter) :
    ∀ clause ∈ filter.clauses, clause.value.noNull = true := by
  cases h

def byStatus : IndexDefinition where
  name := js "by_status"
  on := .field (js "status")
  predicate := none
  typed := byStatus_typed

def indexedConfig : WriterConfig where
  indexed := true
  allIndexKeysFor := allIndexKeysFor ordinalText sampleCollection.collectionPrefix [byStatus]
  verifyLogIntegrityOnCommit := false
  normalizeNfc := id

/-- `{ _id: "x", status }`. -/
def ticket (status : String) : Doc :=
  .obj [(js "_id", .str (js "x")), (js "status", .str (js status))]

def ticketInput (op : LogOp) (status : String) : CommitInput where
  op := op
  collection := sampleCollection.collectionName
  docId := js "x"
  body := some (ticket status)
  origin := none
  insertGuard := none

/-- The marker of the ticket with this status. -/
def statusMarker (status : String) : Key :=
  indexKeyFor ordinalText sampleCollection.collectionPrefix byStatus [.value (.str (js status))]
    (js "x")

/-- Thread `t` has its one marker write delivered and acknowledged. -/
def marked (t i : Nat) : List SampleAct :=
  [.step t Pick.ok, .env i, .step t (Pick.order [0]), .step t (Pick.acked none)]

/-- Thread 0 inserts the ticket as open: messages 0 to 2 are the manifest, the marker, the entry. -/
def insertOpen : List SampleAct :=
  [.spawn (.commit indexedConfig (ticketInput .I "open")), .step 0 Pick.ok,
    .step 0 (Pick.nonce (js "0a"))] ++ acked 0 0 ++ oks 0 1 ++ [.step 0 (Pick.clock 7)] ++
    marked 0 1 ++ acked 0 2 ++ oks 0 1 ++ [.step 0 (Pick.order [])]

/-- Thread 1 closes it, up to its cleanup. -/
def close : List SampleAct :=
  [.spawn (.commit indexedConfig (ticketInput .U "closed"))] ++ oks 1 3 ++ [.step 1 (Pick.clock 8)] ++
    marked 1 3 ++ acked 1 4 ++ oks 1 2

def timeout : Err := .mk .networkError "timeout"

/-- The DELETE of the old marker is sent, and fails.  Thread 2 opens the ticket again: the old marker
    is still there.  Then the DELETE takes effect. -/
def lateDelete : List SampleAct :=
  insertOpen ++ close ++ (oks 1 1 ++ [.step 1 (Pick.order [0]), .step 1 (Pick.fail timeout)]) ++
    ([.spawn (.commit indexedConfig (ticketInput .U "open"))] ++ oks 2 5 ++
      [.step 2 (Pick.clock 9), .step 2 Pick.ok] ++ [.env (show Nat from 6)] ++
      [.step 2 (Pick.order [0]), .step 2 (Pick.conflict "exists")] ++ acked 2 7 ++ oks 2 2 ++
      marked 2 8) ++
    [.env (show Nat from 5)]

/-- The ticket and another document are committed.  Thread 2, which closes the ticket, reads the
    manifest; then both slots are folded and the second one is retired.  Thread 2 finds it empty and
    fills it, cannot re-read the manifest, and cleans up. -/
def skippedCheck : List SampleAct :=
  insertOpen ++
    ([.spawn (.commit indexedConfig (sampleInput "y"))] ++ oks 1 3 ++
      [.step 1 (Pick.clock 8), .step 1 (Pick.order [])] ++ acked 1 3 ++ oks 1 1 ++
      [.step 1 (Pick.order [])]) ++
    ([.spawn (.commit indexedConfig (ticketInput .U "closed"))] ++ oks 2 1) ++
    ([.spawn (.compact ⟨some 1, none, none, none, none, none⟩)] ++ oks 3 4 ++
      [.step 3 (Pick.order [0, 1])] ++ oks 3 2 ++ acked 3 4 ++ acked 3 5) ++
    ([.spawn (.retire ⟨some 0, none⟩)] ++ oks 4 2 ++ acked 4 6 ++ oks 4 2) ++
    [.env (show Nat from 8)] ++ oks 2 2 ++ [.step 2 (Pick.clock 9)] ++ marked 2 9 ++ acked 2 10 ++
    [.step 2 (Pick.fail timeout)] ++ oks 2 1 ++ marked 2 11

/-- The calls a run makes. -/
def madeCalls (acts : List SampleAct) : List Call :=
  acts.filterMap fun
    | .spawn call => some call
    | _ => none

theorem mem_madeCalls {acts : List SampleAct} {call : Call} (h : Act.spawn call ∈ acts) :
    call ∈ madeCalls acts :=
  List.mem_filterMap.mpr ⟨_, h, rfl⟩

theorem declares_indexed {input : CommitInput}
    (h : input.collection = sampleCollection.collectionName) :
    (Call.commit indexedConfig input).Declares ordinalText sampleCollection [byStatus] := by
  intro cfg input' hcommits
  cases hcommits
  exact ⟨fun _ _ => rfl, rfl, h⟩

/-- A ticket that is open in the committed sequence, and has no marker for it. -/
theorem not_cover {acts : List SampleAct}
    (h : ((deployed sampleCodec sampleCollection).run State.init acts).map (fun σ =>
      (σ.world.cur.isSome, (foldLogEntriesOnto sampleCollection.collectionName none InsMap.empty
        σ.world.hist).get (js "x"), σ.world.marker (statusMarker "open"))) =
      some (true, some (ticket "open"), false)) :
    ∃ σ, (deployed sampleCodec sampleCollection).run State.init acts = some σ ∧
      ¬ MarkersCover sampleCodec ordinalText sampleCollection [byStatus] σ.world := by
  obtain ⟨σ, hrun, hfacts⟩ := Option.map_eq_some_iff.mp h
  simp only [Prod.mk.injEq] at hfacts
  obtain ⟨hcur, hrow, hgone⟩ := hfacts
  refine ⟨σ, hrun, fun hcover => ?_⟩
  have hreach : Reachable sampleCodec sampleCollection σ := ⟨acts, hrun⟩
  obtain ⟨m, hm⟩ := Option.isSome_iff_exists.mp hcur
  obtain ⟨base, es, hbase, hlive, -, hrows⟩ := hreach.inv.materialised hm
  obtain ⟨keys, hkeys, hall⟩ := hcover (js "x") (ticket "open")
    ⟨m, base, es, hm, hbase, hlive, (hrows _).trans hrow⟩
  have hone : allIndexKeysFor ordinalText sampleCollection.collectionPrefix [byStatus]
      (some (ticket "open")) (js "x") = .ok [statusMarker "open"] := rfl
  rw [hone] at hkeys
  cases hkeys
  rw [hall _ List.mem_cons_self] at hgone
  cases hgone

/-- The ticket is closed and its old marker is gone; the live row has its marker. -/
theorem markers_cover_closed : ∃ σ, (deployed sampleCodec sampleCollection).run State.init
      (insertOpen ++ close ++ marked 1 5) = some σ ∧ σ.world.marker (statusMarker "open") = false ∧
    MarkersCover sampleCodec ordinalText sampleCollection [byStatus] σ.world := by
  have hrun : ((deployed sampleCodec sampleCollection).run State.init
      (insertOpen ++ close ++ marked 1 5)).map (fun σ => σ.world.marker (statusMarker "open")) =
        some false := by
    decide +kernel
  obtain ⟨σ, hrun, hgone⟩ := Option.map_eq_some_iff.mp hrun
  refine ⟨σ, hrun, hgone, markers_cover_live_rows hrun ?_ (by decide +kernel)⟩
  intro call hcall
  have hmade : madeCalls (insertOpen ++ close ++ marked 1 5) =
      [.commit indexedConfig (ticketInput .I "open"),
        .commit indexedConfig (ticketInput .U "closed")] := rfl
  have hmem := mem_madeCalls hcall
  rw [hmade] at hmem
  rcases List.mem_cons.mp hmem with rfl | hmem
  · exact declares_indexed rfl
  · rw [List.mem_singleton.mp hmem]
    exact declares_indexed rfl

/-- **A DELETE that comes late takes the marker of a live row.** -/
theorem lateDelete_uncovers : (deployed sampleCodec sampleCollection).along apart State.init
      lateDelete = true ∧
    (deployed sampleCodec sampleCollection).along answered State.init lateDelete = true ∧
    ∃ σ, (deployed sampleCodec sampleCollection).run State.init lateDelete = some σ ∧
      ¬ MarkersCover sampleCodec ordinalText sampleCollection [byStatus] σ.world :=
  ⟨by decide +kernel, by decide +kernel, not_cover (by decide +kernel)⟩

/-- **So does a commit whose floor check is skipped.** -/
theorem skippedCheck_uncovers : (deployed sampleCodec sampleCollection).along apart State.init
      skippedCheck = true ∧
    (deployed sampleCodec sampleCollection).along prompt State.init skippedCheck = true ∧
    ∃ σ, (deployed sampleCodec sampleCollection).run State.init skippedCheck = some σ ∧
      ¬ MarkersCover sampleCodec ordinalText sampleCollection [byStatus] σ.world :=
  ⟨by decide +kernel, by decide +kernel, not_cover (by decide +kernel)⟩

end Samples

end Baerly
