import Baerly.Verify.Markers
import Baerly.Verify.Requests
import Baerly.Verify.Commits
import Baerly.Verify.Predicate

/-
  The order in which a commit writes: its markers, then its entry, then its stale markers' DELETEs.

  SPEC: when the create of an entry leaves, every marker of the entry has been answered; when the
  DELETE of a marker leaves, an entry of the same commit that does not project to that marker is in
  the committed sequence, and no create of the commit follows.

  CRUX: everything a commit learns on its way is about messages of its own and about the committed
  sequence, and both only grow.  So nothing is assumed of the other threads but the protocol, which
  enters as a confinement: the steps taken are the steps the protocol allows.  A commit that filled
  a retired slot must see its floor check fail, so a confined run re-reads the manifest there.
-/

namespace Baerly

open Async Path

/-! ## Declared indexes -/

section Declared

variable (N : NumberText) (c : Collection) (indexes : List IndexDefinition)

/-- The writer is constructed with these indexes, and commits to the collection. -/
structure Declared (cfg : WriterConfig) (input : CommitInput) : Prop where
  keys : ∀ body docId,
    cfg.allIndexKeysFor body docId = allIndexKeysFor N c.collectionPrefix indexes body docId
  indexed : cfg.indexed = decide (indexes ≠ [])
  collection : input.collection = c.collectionName

/-- Every commit of the call declares these indexes. -/
def Call.Declares (call : Call) : Prop :=
  ∀ cfg input, call.Commits c cfg input → Declared N c indexes cfg input

/-- The markers of the row an entry leaves. -/
def entryKeys (e : LogEntry) : Except Err (List Key) :=
  if e.op = .D then .ok [] else allIndexKeysFor N c.collectionPrefix indexes e.after e.docId

end Declared

/-! ## Keys name their document -/

section Keys

variable {N : NumberText} {logPrefix : Key} {docId : JsString}

theorem docIdOf_indexKeyFor {d : IndexDefinition} {values : List Property} (hne : docId ≠ [])
    (hslash : slash ∉ docId) : docIdOf (indexKeyFor N logPrefix d values docId) = some docId := by
  -- whatever stands before the last slash, the doc id is behind it
  have hpath : ∀ front : Key, front ++ js "/" ++ docId ++ js ".json" =
      path slash [front] ++ (docId ++ js ".json") := by
    intro front
    simp only [path_cons, path_nil, js_slash, List.append_assoc,
      List.cons_append, List.nil_append]
  unfold indexKeyFor
  rw [hpath]
  exact docIdOf_path hne hslash

/-- **Markers are scoped by document**: the key of a marker ends in the id it was made for. -/
theorem docIdOf_mem_allIndexKeysFor {body : Option Doc} (hne : docId ≠ []) (hslash : slash ∉ docId) :
    ∀ {indexes : List IndexDefinition} {keys : List Key},
      allIndexKeysFor N logPrefix indexes body docId = .ok keys →
        ∀ key ∈ keys, docIdOf key = some docId := by
  intro indexes
  induction indexes with
  | nil =>
    intro keys hkeys key hkey
    cases hkeys
    exact absurd hkey List.not_mem_nil
  | cons d defs ih =>
    intro keys hkeys key hkey
    unfold allIndexKeysFor at hkeys
    obtain ⟨kept, -, hkeys⟩ := except_bind_ok hkeys
    cases kept with
    | false => exact ih hkeys key hkey
    | true =>
      obtain ⟨projected, -, hkeys⟩ := except_bind_ok hkeys
      cases projected with
      | none => exact ih hkeys key hkey
      | some values =>
        obtain ⟨rest, hrest, hkeys⟩ := except_bind_ok hkeys
        cases hkeys
        rcases List.mem_cons.mp hkey with rfl | hkey
        · exact docIdOf_indexKeyFor hne hslash
        · exact ih hrest key hkey

end Keys

/-! ## The order of a thread's messages -/

theorem net_sendMsg_self (w : World) (t : Nat) (r : Req) :
    (w.sendMsg t r).net[w.net.length]? = some ⟨t, r, false, false, false⟩ := by
  simp only [World.sendMsg, List.getElem?_append_right (Nat.le_refl _), Nat.sub_self,
    List.getElem?_cons_zero]

/-- Thread `t` had an answer for its marker of this key: the marker was put, or it was there. -/
def Settled (t : Nat) (key : Key) (w : World) : Prop :=
  ∃ m ∈ w.net, m.owner = t ∧ m.req = .createMarker key ∧ (m.applied = true ∨ m.refused = true)

theorem Settled.evolves {t : Nat} {key : Key} {w w' : World} (h : Settled t key w)
    (he : Evolves w w') : Settled t key w' := by
  obtain ⟨m, hm, hown, hreq, hdone⟩ := h
  obtain ⟨m', hm', hme⟩ := he.mem_net hm
  exact ⟨m', hm', hme.owner.trans hown, hme.req.trans hreq, hdone.imp hme.applied hme.refused⟩

section Sequenced

variable (N : NumberText) (c : Collection) (indexes : List IndexDefinition)

/-- Every marker of the entry was answered before. -/
def Covered (t : Nat) (e : LogEntry) (w : World) : Prop :=
  ∃ keys, entryKeys N c indexes e = .ok keys ∧ ∀ key ∈ keys, Settled t key w

/-- A marker that a commit of thread `t` may delete: the commit is in the committed sequence, and
    the row it left has no such marker. -/
def Dropped (t : Nat) (key : Key) (w : World) : Prop :=
  ∃ (n : Nat) (e : LogEntry), w.hist[n]? = some e ∧ e.session = t ∧
    ∀ keys, entryKeys N c indexes e = .ok keys → key ∉ keys

/-- **Markers, then the entry, then the stale markers.** -/
structure Sequenced (w : World) : Prop where
  covered : ∀ m ∈ w.net, ∀ n e guarded, m.req = .createLog n e guarded →
    Covered N c indexes m.owner e w
  dropped : ∀ m ∈ w.net, ∀ key, m.req = .deleteMarker key → Dropped N c indexes m.owner key w
  /-- A commit that started to clean up creates nothing more. -/
  last : ∀ (i j : Nat) (m m' : Msg), w.net[i]? = some m → w.net[j]? = some m' →
    m'.owner = m.owner → m.req.isCreateLog = true → ∀ key, m'.req = .deleteMarker key → i < j
  landed : ∀ n e, w.log n = some e → ∃ m ∈ w.net, ∃ guarded, m.req = .createLog n e guarded ∧
    m.applied = true

end Sequenced

section Stable

variable {N : NumberText} {c : Collection} {indexes : List IndexDefinition} {w w' : World} {t : Nat}

theorem Covered.evolves {e : LogEntry} (h : Covered N c indexes t e w) (he : Evolves w w') :
    Covered N c indexes t e w' := by
  obtain ⟨keys, hkeys, hall⟩ := h
  exact ⟨keys, hkeys, fun key hkey => (hall key hkey).evolves he⟩

theorem Dropped.evolves {key : Key} (h : Dropped N c indexes t key w) (he : Evolves w w') :
    Dropped N c indexes t key w' := by
  obtain ⟨n, e, hn, hs, hno⟩ := h
  exact ⟨n, e, he.hist_get hn, hs, hno⟩

/-- Nothing was sent: the messages are the old ones. -/
theorem Sequenced.evolves (h : Sequenced N c indexes w) (he : Evolves w w')
    (hlen : w'.net.length = w.net.length)
    (hlanded : ∀ n e, w'.log n = some e → ∃ m ∈ w'.net, ∃ guarded,
      m.req = .createLog n e guarded ∧ m.applied = true) : Sequenced N c indexes w' := by
  have hold : ∀ (i : Nat) (m' : Msg), w'.net[i]? = some m' →
      ∃ m : Msg, w.net[i]? = some m ∧ m.Evolves m' := by
    intro i m' hm'
    have hlt := (List.getElem?_eq_some_iff.mp hm').1
    exact he.net_back (by omega) hm'
  refine ⟨?_, ?_, ?_, hlanded⟩
  · intro m' hm' n e guarded hreq
    obtain ⟨i, hi⟩ := List.getElem?_of_mem hm'
    obtain ⟨m, hm, hme⟩ := hold i m' hi
    rw [hme.owner]
    exact (h.covered m (List.mem_of_getElem? hm) n e guarded (hme.req.symm.trans hreq)).evolves he
  · intro m' hm' key hreq
    obtain ⟨i, hi⟩ := List.getElem?_of_mem hm'
    obtain ⟨m, hm, hme⟩ := hold i m' hi
    rw [hme.owner]
    exact (h.dropped m (List.mem_of_getElem? hm) key (hme.req.symm.trans hreq)).evolves he
  · intro i j m₁' m₂' h₁' h₂' hown hcreate key hreq
    obtain ⟨m₁, h₁, he₁⟩ := hold i m₁' h₁'
    obtain ⟨m₂, h₂, he₂⟩ := hold j m₂' h₂'
    refine h.last i j m₁ m₂ h₁ h₂ ?_ ?_ key (he₂.req.symm.trans hreq)
    · rw [← he₁.owner, ← he₂.owner]
      exact hown
    · rw [← he₁.req]
      exact hcreate

/-- What a message must be known to be when it leaves. -/
def MaySend (N : NumberText) (c : Collection) (indexes : List IndexDefinition) (t : Nat) (w : World) :
    Req → Prop
  | .createLog _ e _ => Covered N c indexes t e w ∧ ∀ m ∈ w.net, m.owner = t →
      ∀ key, m.req ≠ .deleteMarker key
  | .deleteMarker key => Dropped N c indexes t key w
  | _ => True

theorem Sequenced.sendMsg (h : Sequenced N c indexes w) {r : Req} (hr : MaySend N c indexes t w r) :
    Sequenced N c indexes (w.sendMsg t r) := by
  have he := Evolves.sendMsg w t r
  refine ⟨?_, ?_, ?_, ?_⟩
  · intro m hm n e guarded hreq
    rcases mem_sendMsg hm with hold | rfl
    · exact (h.covered m hold n e guarded hreq).evolves he
    · have hreq' : r = .createLog n e guarded := hreq
      rw [hreq'] at hr
      exact hr.1.evolves he
  · intro m hm key hreq
    rcases mem_sendMsg hm with hold | rfl
    · exact (h.dropped m hold key hreq).evolves he
    · have hreq' : r = .deleteMarker key := hreq
      rw [hreq'] at hr
      exact Dropped.evolves hr he
  · intro i j m m' hi hj hown hcreate key hreq
    rcases net_sendMsg hi with hold | ⟨rfl, rfl⟩
    · have hlt := (List.getElem?_eq_some_iff.mp hold).1
      rcases net_sendMsg hj with hold' | ⟨rfl, -⟩
      · exact h.last i j m m' hold hold' hown hcreate key hreq
      · exact hlt
    · -- a create leaves: the thread has sent no DELETE yet
      rcases net_sendMsg hj with hold' | ⟨rfl, rfl⟩
      · have hcreate' : r.isCreateLog = true := hcreate
        cases r with
        | createLog n e guarded => exact absurd hreq (hr.2 m' (List.mem_of_getElem? hold') hown key)
        | _ => cases hcreate'
      · have hcreate' : r.isCreateLog = true := hcreate
        have hreq' : r = .deleteMarker key := hreq
        rw [hreq'] at hcreate'
        cases hcreate'
  · intro n e he'
    obtain ⟨m, hm, guarded, hreq, happ⟩ := h.landed n e he'
    exact ⟨m, List.mem_append_left _ hm, guarded, hreq, happ⟩

end Stable

/-! ## What a request leaves alone -/

/-- The messages are the old ones, with the outcomes they had. -/
structure SameMsgs (w w' : World) : Prop where
  length : w'.net.length = w.net.length
  back : ∀ m' ∈ w'.net, ∃ m ∈ w.net, m'.owner = m.owner ∧ m'.req = m.req ∧
    m'.applied = m.applied ∧ m'.refused = m.refused

theorem SameMsgs.of_net {w w' : World} (h : w'.net = w.net) : SameMsgs w w' := by
  refine ⟨by rw [h], fun m' hm' => ?_⟩
  rw [h] at hm'
  exact ⟨m', hm', rfl, rfl, rfl, rfl⟩

theorem SameMsgs.voided {w : World} {i : Nat} {m : Msg} (hi : w.net[i]? = some m) :
    SameMsgs w (w.setMsg i { m with void := true }) := by
  refine ⟨List.length_set, fun m' hm' => ?_⟩
  rcases List.mem_or_eq_of_mem_set hm' with hold | rfl
  · exact ⟨m', hold, rfl, rfl, rfl, rfl⟩
  · exact ⟨m, List.mem_of_getElem? hi, rfl, rfl, rfl, rfl⟩

/-- A request changes no object; it is sent, or the messages stay as they are. -/
theorem exec_frame {t : Nat} {op : Op} {pick : Pick} {r : Resp op} {w w' : World}
    (h : exec t op pick w = some (r, w')) :
    w'.log = w.log ∧ w'.hist = w.hist ∧ w'.marker = w.marker ∧
      ((∃ q, op = .send q ∧ w' = w.sendMsg t q) ∨ SameMsgs w w') := by
  cases op with
  | getCurrent =>
    rcases exec_getCurrent h with ⟨-, rfl⟩ | ⟨e, -, rfl⟩
    · exact ⟨rfl, rfl, rfl, Or.inr (.of_net rfl)⟩
    · exact ⟨rfl, rfl, rfl, Or.inr (.of_net rfl)⟩
  | getLog why n =>
    rcases exec_getLog h with ⟨-, rfl⟩ | ⟨e, -, rfl⟩
    · exact ⟨rfl, rfl, rfl, Or.inr (.of_net rfl)⟩
    · exact ⟨rfl, rfl, rfl, Or.inr (.of_net rfl)⟩
  | getSnapshot key =>
    obtain ⟨rfl, -⟩ := exec_getSnapshot h
    exact ⟨rfl, rfl, rfl, Or.inr (.of_net rfl)⟩
  | getPending =>
    obtain ⟨rfl, -⟩ := exec_getPending h
    exact ⟨rfl, rfl, rfl, Or.inr (.of_net rfl)⟩
  | listSnapshots maxKeys =>
    obtain rfl := exec_listSnapshots h
    exact ⟨rfl, rfl, rfl, Or.inr (.of_net rfl)⟩
  | send q =>
    obtain ⟨-, -, rfl⟩ := exec_send h
    exact ⟨rfl, rfl, rfl, Or.inl ⟨q, rfl, rfl⟩⟩
  | await id =>
    obtain ⟨m, hm, -, ⟨rfl, -⟩ | ⟨rfl, -⟩ | ⟨e, -, -, -, -, rfl⟩ | ⟨rfl, -⟩⟩ := exec_await h
    · exact ⟨rfl, rfl, rfl, Or.inr (.of_net rfl)⟩
    · exact ⟨rfl, rfl, rfl, Or.inr (.of_net rfl)⟩
    · exact ⟨rfl, rfl, rfl, Or.inr (.voided hm)⟩
    · exact ⟨rfl, rfl, rfl, Or.inr (.of_net rfl)⟩
  | now =>
    obtain rfl := exec_now h
    exact ⟨rfl, rfl, rfl, Or.inr (.of_net rfl)⟩
  | mintGeneration =>
    obtain ⟨rfl, -⟩ := exec_mintGeneration h
    exact ⟨rfl, rfl, rfl, Or.inr (.of_net rfl)⟩
  | schedule n =>
    obtain ⟨rfl, -⟩ := exec_schedule h
    exact ⟨rfl, rfl, rfl, Or.inr (.of_net rfl)⟩
  | aborted =>
    obtain rfl := exec_aborted h
    exact ⟨rfl, rfl, rfl, Or.inr (.of_net rfl)⟩

/-- A delivery that leaves a log object there put it there, or found it. -/
theorem applyReq_log {w w₁ : World} {r : Req} (h : applyReq w r = some w₁) {n : Nat} {e : LogEntry}
    (he : w₁.log n = some e) : w.log n = some e ∨ ∃ guarded, r = .createLog n e guarded := by
  cases r <;> simp only [applyReq] at h
  case createLog k x guarded =>
    split at h
    · cases h
      simp only [World.landLog, World.setLog] at he
      split at he
      next heq =>
        subst heq
        cases he
        exact Or.inr ⟨guarded, rfl⟩
      next => exact Or.inl he
    · cases h
  case deleteLog k =>
    cases h
    simp only [World.setLog] at he
    split at he
    · cases he
    · exact Or.inl he
  case putSnapshot | deleteMarker | deleteSnapshot => cases h; exact Or.inl he
  case createMarker =>
    split at h
    · cases h
    · cases h; exact Or.inl he
  all_goals
    split at h
    · cases h; exact Or.inl he
    · cases h

theorem length_deliver {i : Nat} {w w' : World} (hd : deliver i w = some w') :
    w'.net.length = w.net.length := by
  obtain ⟨m, -, -, ⟨w₁, ha, rfl⟩ | ⟨-, rfl⟩⟩ := deliver_cases hd
  · show (w₁.net.set i _).length = _
    rw [List.length_set, (applyReq_frame ha).1]
  · exact List.length_set

/-- **Deliveries keep the order**: the messages are the old ones, and a log object that appears is
    the one of the message that was delivered. -/
theorem Sequenced.deliver {N : NumberText} {c : Collection} {indexes : List IndexDefinition}
    {w w' : World} {i : Nat} (h : Sequenced N c indexes w) (he : Evolves w w')
    (hd : deliver i w = some w') : Sequenced N c indexes w' := by
  refine h.evolves he (length_deliver hd) ?_
  intro n e hn
  have hkept : w.log n = some e → ∃ m ∈ w'.net, ∃ guarded,
      m.req = .createLog n e guarded ∧ m.applied = true := by
    intro hold
    obtain ⟨m, hm, guarded, hreq, happ⟩ := h.landed n e hold
    obtain ⟨m', hm', hme⟩ := he.mem_net hm
    exact ⟨m', hm', guarded, hme.req.trans hreq, hme.applied happ⟩
  obtain ⟨m, hi, -, ⟨w₁, ha, rfl⟩ | ⟨-, rfl⟩⟩ := deliver_cases hd
  · rcases applyReq_log ha hn with hold | ⟨guarded, hreq⟩
    · exact hkept hold
    · have hi₁ : i < w₁.net.length := by
        rw [(applyReq_frame ha).1]
        exact (List.getElem?_eq_some_iff.mp hi).1
      exact ⟨{ m with applied := true }, List.mem_of_getElem? (List.getElem?_set_self hi₁), guarded,
        hreq, rfl⟩
  · exact hkept hn

/-! ## The confined system -/

/-- The entry is not the committed one of its slot. -/
def Req.misses (hist : List LogEntry) : Req → Bool
  | .createLog n e _ => decide (hist[n]? ≠ some e)
  | _ => false

/-- Some create of the thread landed and is not in the committed sequence: it filled a retired
    slot. -/
def refilled (t : Nat) (w : World) : Bool :=
  w.net.any fun m => decide (m.owner = t) && m.applied && m.req.misses w.hist

theorem refilled_eq_false {t : Nat} {w : World} (h : refilled t w = false) {m : Msg} (hm : m ∈ w.net)
    (hown : m.owner = t) (happ : m.applied = true) {n : Nat} {e : LogEntry} {guarded : Bool}
    (hreq : m.req = .createLog n e guarded) : w.hist[n]? = some e := by
  have hno := List.any_eq_false.mp h m hm
  simpa [hown, happ, hreq, Req.misses] using hno

section Confined

variable (codec : Codec) (N : NumberText) (c : Collection) (indexes : List IndexDefinition)

/-- The indexes are declared, every step is one of the protocol, and a commit that filled a retired
    slot does not have its manifest read fail. -/
def ordering : Confinement (deployed codec c) where
  call := Call.Declares N c indexes
  exec := fun t op pick w w' => (protocol codec c).StepOk t w w' ∧
    (op = .getCurrent → (∃ e, pick = Pick.fail e) → refilled t w = false)
  env := fun _ w w' => Inv codec c w' ∧ ∀ t, Rely t w w'

/-- The invariant of the bucket, and the order of every thread's messages. -/
def InOrder (w : World) : Prop :=
  Inv codec c w ∧ Sequenced N c indexes w

theorem inOrder_env {e : Nat} {w w' : World} (h : InOrder codec N c indexes w)
    (hd : ((deployed codec c).confine (ordering codec N c indexes)).env e w = some w') :
    InOrder codec N c indexes w' ∧ ∀ t, Rely t w w' := by
  obtain ⟨hd, hinv, hrely⟩ := Machine.confine_env.mp hd
  exact ⟨⟨hinv, h.2.deliver (hrely 0).evolves hd⟩, hrely⟩

/-- **The protocol of the order.** -/
noncomputable def orderProtocol :
    Protocol ((deployed codec c).confine (ordering codec N c indexes)) where
  inv := InOrder codec N c indexes
  rely := Rely
  fresh := Fresh
  post := fun _ _ _ _ _ => True
  rely_refl := Rely.refl
  rely_trans := Rely.trans
  fresh_rely := Fresh.rely
  env_ok := fun h hd => inOrder_env codec N c indexes h hd

end Confined

/-! ## Rules -/

/-- Thread `t` sent no DELETE of a marker in between. -/
structure Steady (t : Nat) (w w' : World) : Prop where
  evolves : Evolves w w'
  drops : ∀ (i : Nat) (m : Msg), w.net.length ≤ i → w'.net[i]? = some m → m.owner = t →
    ∀ key, m.req ≠ .deleteMarker key

theorem Steady.trans {t : Nat} {w w' w'' : World} (h : Steady t w w') (h' : Steady t w' w'') :
    Steady t w w'' := by
  refine ⟨h.evolves.trans h'.evolves, ?_⟩
  intro i m hlen hi hown key
  rcases Nat.lt_or_ge i w'.net.length with hl | hl
  · obtain ⟨m', hm', he⟩ := h'.evolves.net_back hl hi
    rw [he.req]
    exact h.drops i m' hlen hm' (he.owner.symm.trans hown) key
  · exact h'.drops i m hl hi hown key

theorem Steady.refl (t : Nat) (w : World) : Steady t w w := by
  refine ⟨.refl w, ?_⟩
  intro i m hlen hi
  have hlt := (List.getElem?_eq_some_iff.mp hi).1
  omega

theorem Rely.steady {t : Nat} {w w' : World} (h : Rely t w w') : Steady t w w' := by
  refine ⟨h.evolves, ?_⟩
  intro i m hlen hi hown
  have hlt := h.owned i m hi hown
  omega

/-- Thread `t` has sent no DELETE of a marker. -/
def Undropped (t : Nat) (w : World) : Prop :=
  ∀ m ∈ w.net, m.owner = t → ∀ key, m.req ≠ .deleteMarker key

theorem Undropped.steady {t : Nat} {w w' : World} (h : Undropped t w) (hs : Steady t w w') :
    Undropped t w' := by
  intro m hm hown key
  obtain ⟨i, hi⟩ := List.getElem?_of_mem hm
  rcases Nat.lt_or_ge i w.net.length with hl | hl
  · obtain ⟨m', hm', he⟩ := hs.evolves.net_back hl hi
    rw [he.req]
    exact h m' (List.mem_of_getElem? hm') (he.owner.symm.trans hown) key
  · exact hs.drops i m hl hi hown key

/-- A request that is not one of the two the order is about. -/
def Op.Free : Op → Prop
  | .send (.createLog _ _ _) => False
  | .send (.deleteMarker _) => False
  | _ => True

theorem admits_free : Admits Op.Free where
  routine := by
    intro op h
    cases op with
    | send r =>
      cases r with
      | createLog n e guarded => exact h
      | deleteMarker key => exact h
      | _ => trivial
    | _ => trivial
  create := fun _ _ => trivial
  replace := fun _ _ _ _ _ => trivial

section Rules

variable {codec : Codec} {N : NumberText} {c : Collection} {indexes : List IndexDefinition}
variable {t : Nat} {w w' : World} {α : Type}

theorem maySend_of_free {r : Req} (h : (Op.send r).Free) : MaySend N c indexes t w r := by
  cases r with
  | createLog n e guarded => exact h.elim
  | deleteMarker key => exact h.elim
  | _ => trivial

/-- **One request in order.** -/
theorem ordered_step {op : Op} {pick : Pick} {r : Resp op} (h : InOrder codec N c indexes w)
    (hex : ((deployed codec c).confine (ordering codec N c indexes)).exec t op pick w = some (r, w'))
    (hsend : ∀ q, op = .send q → MaySend N c indexes t w q) :
    (orderProtocol codec N c indexes).StepOk t w w' ∧ Evolves w w' ∧
      exec t op pick w = some (r, w') := by
  obtain ⟨hex, hok, -⟩ := Machine.confine_exec.mp hex
  have hrely := hok.others (t + 1) (Nat.succ_ne_self t)
  refine ⟨⟨⟨hok.inv, ?_⟩, hok.others⟩, hrely.evolves, hex⟩
  obtain ⟨hlog, -, -, ⟨q, hq, rfl⟩ | hsame⟩ := exec_frame hex
  · exact h.2.sendMsg (hsend q hq)
  · refine h.2.evolves hrely.evolves hsame.length ?_
    intro n e hn
    rw [hlog] at hn
    obtain ⟨m, hm, guarded, hreq, happ⟩ := h.2.landed n e hn
    obtain ⟨m', hm', he⟩ := hrely.evolves.mem_net hm
    exact ⟨m', hm', guarded, he.req.trans hreq, he.applied happ⟩

/-- A request that sends no DELETE of a marker. -/
theorem steady_step {op : Op} {pick : Pick} {r : Resp op} (hex : exec t op pick w = some (r, w'))
    (he : Evolves w w') (hop : ∀ key, op ≠ .send (.deleteMarker key)) : Steady t w w' := by
  refine ⟨he, ?_⟩
  intro i m hlen hi hown key hreq
  obtain ⟨-, -, -, ⟨q, hq, rfl⟩ | hsame⟩ := exec_frame hex
  · rcases net_sendMsg hi with hold | ⟨-, rfl⟩
    · have hlt := (List.getElem?_eq_some_iff.mp hold).1
      omega
    · exact hop key (hq.trans (congrArg Op.send hreq))
  · have hlt := (List.getElem?_eq_some_iff.mp hi).1
    have hlength := hsame.length
    omega

/-- **Programs the order is not about.** -/
theorem wp_free {Q : α → Prop} {p : Task α} (hp : p.Asks Op.Free Q) (w : World) :
    (orderProtocol codec N c indexes).wp t p (fun r w' => Steady t w w' ∧ ∀ a, r = .ok a → Q a) w := by
  induction p generalizing w with
  | ret a =>
    refine ⟨.refl t w, fun b hb => ?_⟩
    cases hb
    exact hp
  | throw e => exact ⟨.refl t w, fun b hb => by cases hb⟩
  | call op k ih =>
    intro w₁ hrely hinv pick r w₂ hex
    obtain ⟨hok, he, hex⟩ := ordered_step hinv hex fun q hq => maySend_of_free (hq ▸ hp.1)
    have hstep : Steady t w₁ w₂ := by
      refine steady_step hex he ?_
      rintro key rfl
      exact hp.1
    refine ⟨hok, Protocol.wp_mono (ih r (hp.2 r) w₂) ?_⟩
    rintro r' w₃ ⟨hs, hQ⟩
    exact ⟨(hrely.steady.trans hstep).trans hs, hQ⟩

/-- **Programs whose DELETEs are in order already.** -/
theorem wp_drops {G : Op → Prop} {Q : α → Prop} {p : Task α} (hp : p.Asks G Q)
    (hG : ∀ op, G op → op.Free ∨ ∃ key, op = .send (.deleteMarker key) ∧ Dropped N c indexes t key w) :
    (orderProtocol codec N c indexes).wp t p (fun _ _ => True) w := by
  induction p generalizing w with
  | ret a => trivial
  | throw e => trivial
  | call op k ih =>
    intro w₁ hrely hinv pick r w₂ hex
    obtain ⟨hok, he, hex⟩ := ordered_step hinv hex (by
      rintro q rfl
      rcases hG _ hp.1 with hfree | ⟨key, hq, hdrop⟩
      · exact maySend_of_free hfree
      · cases hq
        exact hdrop.evolves hrely.evolves)
    refine ⟨hok, ih r (hp.2 r) fun op hop => ?_⟩
    refine (hG op hop).imp_right ?_
    rintro ⟨key, hq, hdrop⟩
    exact ⟨key, hq, hdrop.evolves (hrely.evolves.trans he)⟩

end Rules

/-! ## The commit, in order -/

section Commit

variable {codec : Codec} {N : NumberText} {c : Collection} {indexes : List IndexDefinition}
variable {t : Nat} {w : World}

/-- Reads tell the order nothing. -/
theorem orderReads (why : Purpose) : ReadRule (orderProtocol codec N c indexes) t why (Steady t)
    (fun _ => True) (fun _ _ _ => True) where
  refl := Steady.refl t
  trans := Steady.trans
  keepC := fun _ _ => trivial
  keepF := fun _ _ => trivial
  get := fun n w _ => Protocol.wp_mono (wp_free (asks_getLog admits_free why n) w) fun _ _ h =>
    ⟨h.1, fun _ _ => trivial⟩
  schedule := by
    intro n w _ w₁ hrely hinv pick r w₂ hex
    obtain ⟨hok, he, hex⟩ := ordered_step hinv hex fun q hq => by cases hq
    refine ⟨hok, hrely.steady.trans (steady_step hex he fun key h => by cases h), ?_⟩
    intro is his
    cases his
    exact (exec_schedule hex).2

/-- The messages of the markers that were sent. -/
theorem wp_sendMarkers : ∀ (keys : List Key) (w : World),
    (orderProtocol codec N c indexes).wp t (Task.sendAll (keys.map Req.createMarker)) (fun r w' =>
      Steady t w w' ∧ ∀ ids, r = .ok ids → ∀ key ∈ keys, ∃ id ∈ ids, ∃ m : Msg,
        w'.net[id]? = some m ∧ m.owner = t ∧ m.req = .createMarker key) w := by
  intro keys
  induction keys with
  | nil => exact fun w => ⟨.refl t w, fun _ _ key hkey => absurd hkey List.not_mem_nil⟩
  | cons key keys ih =>
    intro w w₁ hrely hinv pick id w₂ hex
    obtain ⟨hok, he, hex⟩ := ordered_step hinv hex (by rintro q hq; cases hq; trivial)
    obtain ⟨-, rfl, rfl⟩ := exec_send hex
    have hstep := hrely.steady.trans (steady_step hex he (by intro k hk; cases hk))
    refine ⟨hok, Protocol.wp_seq (ih _) ?_ ?_⟩
    · rintro ids w₃ ⟨hs, hids⟩
      refine ⟨hstep.trans hs, ?_⟩
      intro ids' heq k hk
      cases heq
      rcases List.mem_cons.mp hk with rfl | hk
      · -- the message just sent
        obtain ⟨m, hm, hme⟩ := hs.evolves.net _ _ (net_sendMsg_self w₁ t (.createMarker k))
        exact ⟨_, List.mem_cons_self, m, hm, hme.owner, hme.req⟩
      · obtain ⟨id, hid, m, hm⟩ := hids ids rfl k hk
        exact ⟨id, List.mem_cons_of_mem _ hid, m, hm⟩
    · rintro e w₃ ⟨hs, -⟩
      exact ⟨hstep.trans hs, fun ids heq => by cases heq⟩

/-- A marker whose PUT is taken for done was put, or was there. -/
theorem wp_settleMarker (id : Nat) (w : World) :
    (orderProtocol codec N c indexes).wp t (settleMarker (Task.outcome id)) (fun r w' =>
      Steady t w w' ∧ ∀ u, r = .ok u → ∃ m : Msg, w'.net[id]? = some m ∧
        (m.applied = true ∨ m.refused = true)) w := by
  intro w₁ hrely hinv pick r w₂ hex
  obtain ⟨hok, he, hex⟩ := ordered_step hinv hex fun q hq => by cases hq
  have hstep := hrely.steady.trans (steady_step hex he fun key h => by cases h)
  refine ⟨hok, ?_⟩
  obtain ⟨m, hm, -, ⟨rfl, happ, date, rfl⟩ | ⟨rfl, href, msg, rfl⟩ | ⟨e, rfl, hwc, -, -, -⟩ |
    ⟨-, e, rfl, hwc, -⟩⟩ := exec_await hex
  · exact ⟨hstep, fun _ _ => ⟨m, hm, Or.inl happ⟩⟩
  · exact ⟨hstep, fun _ _ => ⟨m, hm, Or.inr href⟩⟩
  · show (orderProtocol codec N c indexes).wp t (if e.isWriteConflict = true then _ else _) _ w₂
    rw [hwc]
    exact ⟨hstep, fun u hu => by cases hu⟩
  · show (orderProtocol codec N c indexes).wp t (if e.isWriteConflict = true then _ else _) _ w₂
    rw [hwc]
    exact ⟨hstep, fun u hu => by cases hu⟩

/-- **All markers of a batch are answered** when the batch is done. -/
theorem wp_writeMarkers (keys : List Key) (w : World) :
    (orderProtocol codec N c indexes).wp t (Task.writeAll settleMarker (keys.map Req.createMarker))
      (fun r w' => Steady t w w' ∧ ∀ u, r = .ok u → ∀ key ∈ keys, Settled t key w') w := by
  refine Protocol.wp_seq (wp_sendMarkers keys w) ?_ ?_
  · rintro ids w₁ ⟨hs₁, hsent⟩
    have hreads : ReadRule (orderProtocol codec N c indexes) t .scan (Steady t) (fun _ => True)
        (fun _ _ _ => True) := orderReads .scan
    have hall := wp_all hreads
      (G := fun id _ w => ∃ m : Msg, w.net[id]? = some m ∧ (m.applied = true ∨ m.refused = true))
      (fun h hs => by
        obtain ⟨m, hm, hdone⟩ := h
        obtain ⟨m', hm', he⟩ := hs.evolves.net _ m hm
        exact ⟨m', hm', hdone.imp he.applied he.refused⟩)
      ids (w := w₁) trivial fun id w _ => wp_settleMarker id w
    refine Protocol.wp_seq hall ?_ ?_
    · rintro ps w₂ ⟨hs₂, hps⟩
      refine ⟨hs₁.trans hs₂, ?_⟩
      intro u _ key hkey
      obtain ⟨hperm, hdone⟩ := hps ps rfl
      obtain ⟨id, hid, m, hm, hown, hreq⟩ := hsent ids rfl key hkey
      obtain ⟨p, hp, rfl⟩ := List.mem_map.mp (hperm.mem_iff.mpr hid)
      obtain ⟨m', hm', hd⟩ := hdone p hp
      obtain ⟨m'', hm'', he⟩ := hs₂.evolves.net _ m hm
      rw [hm'] at hm''
      cases hm''
      exact ⟨m', List.mem_of_getElem? hm', he.owner.trans hown, he.req.trans hreq, hd⟩
    · rintro e w₂ ⟨hs₂, -⟩
      exact ⟨hs₁.trans hs₂, fun u hu => by cases hu⟩
  · rintro e w₁ ⟨hs₁, -⟩
    exact ⟨hs₁, fun u hu => by cases hu⟩


/-- The markers of any entry of this commit. -/
theorem entryKeys_mintEntry {cfg : WriterConfig} {input : CommitInput}
    (hcfg : Declared N c indexes cfg input) (session ms seq : Nat) :
    entryKeys N c indexes (mintEntry session ms input seq) =
      if input.op = .D then .ok [] else cfg.allIndexKeysFor input.body input.docId := by
  rw [hcfg.keys]
  unfold entryKeys mintEntry
  dsimp only
  split
  · rfl
  · rfl

/-- **Step 4**: the markers of the new value are there, or the commit has thrown. -/
theorem order_putMarkers {cfg : WriterConfig} {input : CommitInput}
    (hcfg : Declared N c indexes cfg input) (w : World) :
    (orderProtocol codec N c indexes).wp t (putMarkers cfg input) (fun r w' => Steady t w w' ∧
      ∀ n, r = .ok n → ∀ session ms seq,
        Covered N c indexes t (mintEntry session ms input seq) w') w := by
  unfold putMarkers
  split
  next hnone =>
    refine ⟨.refl t w, fun _ _ session ms seq => ⟨[], ?_, fun key hkey => absurd hkey List.not_mem_nil⟩⟩
    rw [entryKeys_mintEntry hcfg]
    rcases hnone with hplain | hdelete
    · split
      · rfl
      · have hnil : indexes = [] := by
          by_contra hne
          rw [hcfg.indexed, decide_eq_true hne] at hplain
          cases hplain
        rw [hcfg.keys, hnil]
        rfl
    · rw [if_pos hdelete]
  next hsome =>
    refine Protocol.wp_seq (wp_free (asks_ofExcept fun _ h => h) w) ?_ ?_
    swap
    · rintro e w₁ ⟨hs, -⟩
      exact ⟨hs, fun n hn => by cases hn⟩
    rintro keys w₁ ⟨hs₁, hkeys⟩
    have hcover : ∀ w', (∀ key ∈ keys, Settled t key w') → ∀ session ms seq,
        Covered N c indexes t (mintEntry session ms input seq) w' := by
      intro w' hall session ms seq
      refine ⟨keys, ?_, hall⟩
      rw [entryKeys_mintEntry hcfg, if_neg fun h => hsome (Or.inr h)]
      exact hkeys keys rfl
    dsimp only
    split
    · refine Protocol.wp_seq (wp_writeMarkers keys w₁) ?_ ?_
      · rintro u w₂ ⟨hs₂, hsettled⟩
        exact ⟨hs₁.trans hs₂, fun _ _ => hcover w₂ (hsettled u rfl)⟩
      · rintro e w₂ ⟨hs₂, -⟩
        exact ⟨hs₁.trans hs₂, fun n hn => by cases hn⟩
    next tooLong hfind =>
      -- the key that stopped the loop is refused
      have hlong : maxKeyBytes < utf8Length tooLong := by
        have hno := List.find?_some hfind
        simp only [Bool.not_eq_true', decide_eq_false_iff_not] at hno
        exact Nat.lt_of_not_le hno
      refine Protocol.wp_seq (wp_sendMarkers _ w₁) ?_ ?_
      · rintro ids w₂ ⟨hs₂, -⟩
        unfold assertKeyWithinLimit
        rw [if_pos hlong]
        exact ⟨hs₁.trans hs₂, fun n hn => by cases hn⟩
      · rintro e w₂ ⟨hs₂, -⟩
        exact ⟨hs₁.trans hs₂, fun n hn => by cases hn⟩

/-- Thread `t` landed the entry: the create of it took effect. -/
def Landed (t : Nat) (e : LogEntry) (w : World) : Prop :=
  ∃ m ∈ w.net, m.owner = t ∧ m.applied = true ∧ ∃ guarded, m.req = .createLog e.seq e guarded

theorem Landed.evolves {e : LogEntry} {w' : World} (h : Landed t e w) (he : Evolves w w') :
    Landed t e w' := by
  obtain ⟨m, hm, hown, happ, guarded, hreq⟩ := h
  obtain ⟨m', hm', hme⟩ := he.mem_net hm
  exact ⟨m', hm', hme.owner.trans hown, hme.applied happ, guarded, hme.req.trans hreq⟩

/-- What is known of the outcome of the create loop. -/
def CreateFact (t : Nat) (ms : Nat) (input : CommitInput) (r : Except Err CreateOutcome) (w : World) :
    Prop :=
  ∀ e, r = .ok (.committed e) → (∃ seq, e = mintEntry t ms input seq) ∧ Landed t e w

theorem createFact_error {ms : Nat} {input : CommitInput} {e : Err} :
    CreateFact t ms input (.error e) w :=
  fun _ h => by cases h

/-- The create of an entry, when every marker of it has been answered. -/
theorem order_writeCreate {e : LogEntry} {guarded : Bool} (hnodrop : Undropped t w)
    (hcover : Covered N c indexes t e w) :
    (orderProtocol codec N c indexes).wp t (Task.write (.createLog e.seq e guarded)) (fun r w' =>
      Steady t w w' ∧ ∀ date, r = .ok date → Landed t e w') w := by
  intro w₁ hrely hinv pick id w₂ hex
  obtain ⟨hok, he, hex⟩ := ordered_step hinv hex (by
    intro q hq
    cases hq
    exact ⟨hcover.evolves hrely.evolves, hnodrop.steady hrely.steady⟩)
  have hs₂ := hrely.steady.trans (steady_step hex he (by intro key hk; cases hk))
  obtain ⟨-, rfl, rfl⟩ := exec_send hex
  refine ⟨hok, ?_⟩
  intro w₃ hrely₃ hinv₃ pick₃ o w₄ hex₃
  obtain ⟨hok₃, he₃, hex₃⟩ := ordered_step hinv₃ hex₃ (by intro q hq; cases hq)
  have hs₄ := (hs₂.trans hrely₃.steady).trans (steady_step hex₃ he₃ (by intro key hk; cases hk))
  obtain ⟨m₃, hm₃, hme⟩ := hrely₃.evolves.net _ _ (net_sendMsg_self w₁ t _)
  refine ⟨hok₃, ?_⟩
  obtain ⟨m, hm, hown,
    ⟨rfl, happ, date, rfl⟩ | ⟨rfl, -, msg, rfl⟩ | ⟨err, rfl, -⟩ | ⟨-, err, rfl, -⟩⟩ :=
    exec_await hex₃
  · refine ⟨hs₄, fun _ _ => ?_⟩
    rw [hm₃] at hm
    cases hm
    exact ⟨m₃, List.mem_of_getElem? hm₃, hown, happ, guarded, hme.req⟩
  · exact ⟨hs₄, fun date hd => by cases hd⟩
  · exact ⟨hs₄, fun date hd => by cases hd⟩
  · exact ⟨hs₄, fun date hd => by cases hd⟩

/-- The object a commit adopts as its own was landed by it. -/
theorem order_readLogOccupant {guarded : Bool} {seq : Nat} (w : World) :
    (orderProtocol codec N c indexes).wp t (readLogOccupant c guarded seq) (fun r w' =>
      Steady t w w' ∧ ∀ e, r = .ok e → e.session = t → e.seq = seq → Landed t e w') w := by
  refine Protocol.wp_seq (Q := fun r w' => Steady t w w' ∧
    ∀ e, r = .ok (some e) → e.session = t → e.seq = seq → Landed t e w') ?_ ?_ ?_
  · intro w₁ hrely hinv pick r w₂ hex
    obtain ⟨hok, he, hex⟩ := ordered_step hinv hex (by intro q hq; cases hq)
    have hs := hrely.steady.trans (steady_step hex he (by intro key hk; cases hk))
    refine ⟨hok, ?_⟩
    rcases exec_getLog hex with ⟨rfl, rfl⟩ | ⟨err, rfl, rfl⟩
    · refine ⟨hs, ?_⟩
      intro e he' hsession hseq
      have hlog : w₁.log seq = some e := Except.ok.inj he'
      obtain ⟨m, hm, g, hreq, happ⟩ := hinv.2.landed seq e hlog
      have hcreate := (hinv.1.msgs m hm).req
      rw [hreq] at hcreate
      refine ⟨m, hm, ?_, happ, g, by rw [hseq]; exact hreq⟩
      exact (show e.session = m.owner from hcreate.session).symm.trans hsession
    · exact ⟨hs, fun e he' => by cases he'⟩
  · rintro (_ | existing) w₁ ⟨hs, hfact⟩
    · exact ⟨hs, fun e he => by cases he⟩
    · refine ⟨hs, fun e he => ?_⟩
      cases he
      exact hfact existing rfl
  · rintro e w₁ ⟨hs, -⟩
    exact ⟨hs, fun e' he => by cases he⟩

/-- One create. -/
theorem order_createStep {ms : Nat} {input : CommitInput} {seq : Nat}
    {lost : LogEntry → Task CreateOutcome} (hnodrop : Undropped t w)
    (hcover : ∀ seq, Covered N c indexes t (mintEntry t ms input seq) w)
    (hlost : ∀ occupant w', Steady t w w' → (orderProtocol codec N c indexes).wp t (lost occupant)
      (fun r w'' => Steady t w' w'' ∧ CreateFact t ms input r w'') w') :
    (orderProtocol codec N c indexes).wp t (createStep c t ms input seq lost) (fun r w' =>
      Steady t w w' ∧ CreateFact t ms input r w') w := by
  refine Protocol.wp_seq (wp_free asks_check w) ?_ ?_
  swap
  · rintro e w₁ ⟨hs, -⟩
    exact ⟨hs, createFact_error⟩
  rintro u w₁ ⟨hs₁, -⟩
  have hwrite : (orderProtocol codec N c indexes).wp t (Task.write (.createLog seq
      (mintEntry t ms input seq) input.insertGuard.isSome)) (fun r w' => Steady t w₁ w' ∧
        ∀ date, r = .ok date → Landed t (mintEntry t ms input seq) w') w₁ :=
    order_writeCreate (hnodrop.steady hs₁) ((hcover seq).evolves hs₁.evolves)
  refine Protocol.wp_attempt_bind hwrite ?_
  rintro (failure | date) w₂ ⟨hs₂, hlanded⟩
  · have hs := hs₁.trans hs₂
    show (orderProtocol codec N c indexes).wp t (if _ then _ else _) _ w₂
    split
    · exact ⟨hs, createFact_error⟩
    · refine Protocol.wp_attempt_bind (order_readLogOccupant w₂) ?_
      rintro (failure' | occupant) w₃ ⟨hs₃, hown⟩
      · exact ⟨hs.trans hs₃, createFact_error⟩
      · show (orderProtocol codec N c indexes).wp t (if _ then _ else _) _ w₃
        split
        next hadopt =>
          simp only [tryAdoptOwnSessionLogEntry, decide_eq_true_eq] at hadopt
          obtain ⟨hsession, hseq, hself⟩ := hadopt
          refine ⟨hs.trans hs₃, ?_⟩
          intro e he
          cases he
          exact ⟨⟨seq, hself⟩, hown occupant rfl hsession hseq⟩
        next =>
          refine Protocol.wp_mono (hlost occupant w₃ (hs.trans hs₃)) ?_
          rintro r w₄ ⟨hs₄, hfact⟩
          exact ⟨(hs.trans hs₃).trans hs₄, hfact⟩
  · refine ⟨hs₁.trans hs₂, ?_⟩
    intro e he
    cases he
    exact ⟨⟨seq, rfl⟩, hlanded date rfl⟩

/-- **Step 5**: an entry the loop resolves with was landed by this commit. -/
theorem order_createLoop {ms : Nat} {input : CommitInput} :
    ∀ (probes : Nat) (window : List LogEntry) (seq : Nat) (w : World), Undropped t w →
      (∀ seq, Covered N c indexes t (mintEntry t ms input seq) w) →
      (orderProtocol codec N c indexes).wp t (createLoop c t ms input probes window seq)
        (fun r w' => Steady t w w' ∧ CreateFact t ms input r w') w := by
  intro probes
  induction probes with
  | zero =>
    intro window seq w hnodrop hcover
    refine order_createStep hnodrop hcover ?_
    intro occupant w' hs
    exact ⟨.refl t w', createFact_error⟩
  | succ probes ih =>
    intro window seq w hnodrop hcover
    refine order_createStep hnodrop hcover ?_
    intro occupant w' hs
    refine Protocol.wp_seq (wp_free (asks_nextSlot admits_free c input window seq occupant) w') ?_ ?_
    · rintro (replayed | ⟨next, window'⟩) w₁ ⟨hs₁, -⟩
      · exact ⟨hs₁, fun e he => by cases he⟩
      · have hs' := hs.trans hs₁
        refine Protocol.wp_mono (ih window' next w₁ (hnodrop.steady hs')
          fun seq => (hcover seq).evolves hs'.evolves) ?_
        rintro r w₂ ⟨hs₂, hfact⟩
        exact ⟨hs₁.trans hs₂, hfact⟩
    · rintro e w₁ ⟨hs₁, -⟩
      exact ⟨hs₁, createFact_error⟩

/-- What a landed entry is: the committed one of its slot, or one below the certified floor. -/
theorem Landed.place {e : LogEntry} (h : Landed t e w) (hinv : Inv codec c w) :
    e.seq < w.tail ∧ (w.hist[e.seq]? = some e ∨ e.seq < w.floor) := by
  obtain ⟨m, hm, -, happ, guarded, hreq⟩ := h
  have hlanded := (hinv.msgs m hm).landed happ
  rw [hreq] at hlanded
  exact hlanded

theorem exec_getCurrent_error {pick : Pick} {w' : World} {e : Err}
    (h : exec t .getCurrent pick w = some (.error e, w')) : ∃ e', pick = .fail e' := by
  cases pick <;> simp only [exec, Option.some.injEq, Prod.mk.injEq, reduceCtorEq, false_and] at h
  case fail e' => exact ⟨e', rfl⟩

/-- **The floor check decides.**  A landed entry at or above the floor that was read is committed;
    where nothing could be read it is committed too, because a create that filled a retired slot has
    its read answered. -/
theorem order_readFloor {e : LogEntry} (hland : Landed t e w) :
    (orderProtocol codec N c indexes).wp t (readCurrentJson c) (fun r w' => Steady t w w' ∧
      (∀ v, r = .ok v → ∃ json, v = some json ∧
        (certifiedDeleteFloor json ≤ e.seq → w'.hist[e.seq]? = some e)) ∧
      ∀ err, r = .error err → w'.hist[e.seq]? = some e) w := by
  intro w₁ hrely hinv pick r w₂ hex
  obtain ⟨hok, he, hex'⟩ := ordered_step hinv hex (by intro q hq; cases hq)
  obtain ⟨-, -, hread⟩ := Machine.confine_exec.mp hex
  have hs := hrely.steady.trans (steady_step hex' he (by intro key hk; cases hk))
  have hland₁ := hland.evolves hrely.evolves
  refine ⟨hok, ?_⟩
  rcases exec_getCurrent hex' with ⟨rfl, rfl⟩ | ⟨err, rfl, rfl⟩
  · cases hcur : w₁.cur with
    | none =>
      -- a bucket without a manifest has nothing committed
      have hlt := (hland₁.place hinv.1).1
      unfold World.tail at hlt
      rw [hinv.1.unborn hcur] at hlt
      exact absurd hlt (Nat.not_lt_zero _)
    | some json =>
      rw [hcur] at hs
      have hwf := (hinv.1.manifest json hcur).wf
      have hparse : assertCurrentJson c.currentJsonKey json.toJson = .ok json :=
        (assertCurrentJson_toJson_iff _ _).mpr hwf
      show (orderProtocol codec N c indexes).wp t ((Task.ofExcept
        (assertCurrentJson c.currentJsonKey json.toJson)).bind fun v => .ret (some v)) _ _
      rw [hparse]
      refine ⟨hs, ?_, fun err herr => by cases herr⟩
      intro v hv
      cases hv
      refine ⟨json, rfl, fun hle => ?_⟩
      have hfloor : w₁.floor = certifiedDeleteFloor json := by
        unfold World.floor
        rw [hcur]
      rcases (hland₁.place hinv.1).2 with hcommitted | hbelow
      · exact hcommitted
      · omega
  · obtain ⟨e', hfail⟩ := exec_getCurrent_error hex'
    have hno := hread rfl ⟨e', hfail⟩
    obtain ⟨m, hm, hown, happ, guarded, hreq⟩ := hland₁
    have hcommitted := refilled_eq_false hno hm hown happ hreq
    exact ⟨hs, fun v hv => (by cases hv), fun _ _ => hcommitted⟩

/-- **Step 5a**: a commit that goes on is in the committed sequence. -/
theorem order_assertCommitAboveDeleteFloor {e : LogEntry} {docId : JsString}
    (hland : Landed t e w) :
    (orderProtocol codec N c indexes).wp t (assertCommitAboveDeleteFloor c e.seq docId) (fun r w' =>
      ∀ b, r = .ok b → w'.hist[e.seq]? = some e) w := by
  refine Protocol.wp_attempt_bind (order_readFloor hland) ?_
  rintro r w₁ ⟨-, hok, herr⟩
  cases r with
  | error err =>
    have hcommitted := herr err rfl
    cases err with
    | abort => exact fun b hb => by cases hb
    | _ => exact fun _ _ => hcommitted
  | ok v =>
    obtain ⟨json, rfl, hcommitted⟩ := hok v rfl
    show (orderProtocol codec N c indexes).wp t (if _ then _ else _) _ w₁
    split
    next hle =>
      refine fun _ _ => hcommitted ?_
      rcases hle with hzero | hle
      · omega
      · exact hle
    next =>
      have hdelete : (Task.write (.deleteLog e.seq)).attempt.Asks Op.Free (fun _ => True) :=
        (asks_write (r := .deleteLog _) admits_free.routine trivial).attempt.mono fun _ _ => trivial
      refine Protocol.wp_seq (wp_free hdelete w₁) ?_ ?_
      · exact fun _ _ _ b hb => by cases hb
      · exact fun _ _ _ b hb => by cases hb

/-- A stale key is none of the markers of the row the commit left. -/
theorem StaleKey.dropped_of_committed {cfg : WriterConfig} {input : CommitInput} {key : Key}
    {ms seq : Nat} (h : StaleKey cfg input key) (hcfg : Declared N c indexes cfg input)
    (hcommitted : w.hist[seq]? = some (mintEntry t ms input seq)) :
    Dropped N c indexes t key w := by
  refine ⟨seq, _, hcommitted, rfl, ?_⟩
  intro keys hkeys
  rw [entryKeys_mintEntry hcfg] at hkeys
  cases hop : input.op with
  | I => exact absurd hop h.notInsert
  | U =>
    obtain ⟨newKeys, hnew, hno⟩ := h.dropped hop
    rw [hop, if_neg (by decide), hnew] at hkeys
    cases hkeys
    exact hno
  | D =>
    rw [hop, if_pos rfl] at hkeys
    cases hkeys
    exact List.not_mem_nil

/-- **A commit writes in order.** -/
theorem order_commit {cfg : WriterConfig} {input : CommitInput}
    (hcfg : Declared N c indexes cfg input) (hnodrop : Undropped t w) :
    (orderProtocol codec N c indexes).wp t (commit cfg c t input) (fun _ _ => True) w := by
  refine Protocol.wp_seq (wp_free asks_check w) ?_ fun _ _ _ => trivial
  rintro u w₁ ⟨hs₁, -⟩
  refine Protocol.wp_seq (wp_free (asks_readOrProvision admits_free c) w₁) ?_ fun _ _ _ => trivial
  rintro current w₂ ⟨hs₂, -⟩
  refine Protocol.wp_seq (wp_free (asks_walkLog admits_free cfg c current) w₂) ?_ fun _ _ _ => trivial
  rintro _ w₃ ⟨hs₃, -⟩
  refine Protocol.wp_seq (wp_free (asks_findSlot admits_free c input current) w₃) ?_
    fun _ _ _ => trivial
  rintro (replayed | ⟨seq, window⟩) w₄ ⟨hs₄, -⟩
  · trivial
  have hnow : Task.now.Asks Op.Free (fun _ => True) := ⟨trivial, fun _ => trivial⟩
  refine Protocol.wp_seq (wp_free hnow w₄) ?_ fun _ _ _ => trivial
  rintro ms w₅ ⟨hs₅, -⟩
  refine Protocol.wp_seq (order_putMarkers hcfg w₅) ?_ fun _ _ _ => trivial
  rintro markers w₆ ⟨hs₆, hcover⟩
  have hs := ((((hs₁.trans hs₂).trans hs₃).trans hs₄).trans hs₅).trans hs₆
  refine Protocol.wp_seq (order_createLoop _ window seq w₆ (hnodrop.steady hs)
    fun n => hcover markers rfl t ms n) ?_ fun _ _ _ => trivial
  rintro (entry | entry) w₇ ⟨-, hfact⟩
  swap
  · trivial
  obtain ⟨⟨n, rfl⟩, hland⟩ := hfact entry rfl
  refine Protocol.wp_seq (order_assertCommitAboveDeleteFloor hland) ?_ fun _ _ _ => trivial
  intro checked w₈ hcommitted
  have hn : w₈.hist[n]? = some (mintEntry t ms input n) := hcommitted checked rfl
  have hclean : (cleanupStaleIndexKeysBestEffort cfg input n).Asks (fun op => op.Free ∨
      ∃ key, op = .send (.deleteMarker key) ∧ Dropped N c indexes t key w₈) (fun _ => True) := by
    refine asks_cleanup ⟨?_, ?_, ?_⟩ n ?_
    · exact fun op hop => Or.inl (admits_free.routine op hop)
    · exact fun _ _ => Or.inl trivial
    · exact fun _ _ _ _ _ => Or.inl trivial
    · exact fun key hkey => Or.inr ⟨key, rfl, hkey.dropped_of_committed hcfg hn⟩
  exact Protocol.wp_seq (wp_drops hclean fun _ h => h) (fun _ _ _ => trivial) fun _ _ _ => trivial

theorem order_runInsertOutcome {ctx : InsertContext} {members : List (JsString × Doc)}
    {uuidv7 : JsString} {mintedId : Option JsString}
    (hdecl : (Call.insert ctx members uuidv7 mintedId).Declares N c indexes)
    (hnodrop : Undropped t w) :
    (orderProtocol codec N c indexes).wp t
      (runInsertOutcome codec c t ctx members uuidv7 mintedId) (fun _ _ => True) w := by
  refine Protocol.wp_seq (wp_free asks_check w) ?_ fun _ _ _ => trivial
  rintro u w₁ ⟨hs₁, -⟩
  split
  · trivial
  · dsimp only
    split
    · trivial
    · refine Protocol.wp_seq (wp_free (asks_runReadRows admits_free codec c .check _) w₁) ?_
        fun _ _ _ => trivial
      rintro existing w₂ ⟨hs₂, -⟩
      cases existing.rows.head? with
      | some live =>
        show (orderProtocol codec N c indexes).wp t (if _ then _ else _) _ w₂
        split
        · trivial
        · trivial
      | none =>
        dsimp only
        split
        · trivial
        · exact Protocol.wp_seq (order_commit (hdecl _ _ .insert) (hnodrop.steady (hs₁.trans hs₂)))
            (fun _ _ _ => trivial) fun _ _ _ => trivial

/-- **Every call of the confined system writes in order.** -/
theorem order_bodiesOk : (orderProtocol codec N c indexes).BodiesOk := by
  intro t call w _ hfresh haccepts
  have hdecl : call.Declares N c indexes := (Machine.confine_accepts.mp haccepts).2
  have hnodrop : Undropped t w := fun m hm hown => absurd hown (hfresh.msgs m hm)
  show (orderProtocol codec N c indexes).wp t (body codec c t call) (fun _ _ => True) w
  -- a call that makes no commit asks for nothing the order is about
  have hother : (∀ cfg input, ¬ call.Commits c cfg input) →
      (orderProtocol codec N c indexes).wp t (body codec c t call) (fun _ _ => True) w := by
    intro hno
    have hasks : (body codec c t call).Asks Op.Free (fun _ => True) :=
      asks_body admits_free codec c fun cfg input hcommit => absurd hcommit (hno cfg input)
    exact Protocol.wp_mono (wp_free hasks w) fun _ _ _ => trivial
  cases call with
  | commit cfg input => exact order_commit (hdecl cfg input .commit) hnodrop
  | insert ctx members uuidv7 mintedId => exact order_runInsertOutcome hdecl hnodrop
  | _ => exact hother fun cfg input h => by cases h

theorem inOrder_empty : InOrder codec N c indexes World.empty := by
  refine ⟨inv_empty codec c, ?_, ?_, ?_, ?_⟩
  · exact fun m hm => absurd hm List.not_mem_nil
  · exact fun m hm => absurd hm List.not_mem_nil
  · intro i j m m' hi
    cases hi
  · intro n e hn
    cases hn

end Commit

end Baerly
