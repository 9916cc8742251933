import Baerly.Verify.Requests
import Baerly.Verify.Safety

/-
  The manifest over any run of any calls.

  SPEC: what `current.json` goes through.  From a bucket whose manifest, if it has one, passes the
  single-state guard, whatever is called with whatever arguments: the object changes only when
  the store applies a PUT of it, and then as `Transition` says.

  CRUX: nothing is needed of the log, of the snapshots or of the callers.  Every manifest a program
  sends is built from a version it read and GUARDED, so the claim is about the program text alone:
  `Asks PublishOk`, by the rules of `Requests`, no world in sight.  The store compares the version
  a PUT replaces, so what was true of the pair when it was sent is true when it lands.
-/

namespace Baerly

open Async

/-! ## What may be sent -/

/-- A manifest write that is admissible whenever it lands. -/
def Req.PublishOk : Req → Prop
  | .createCurrent m => m.WellFormed
  | .casCurrent pub before after => Transition pub before after ∧ before.WellFormed
  | _ => True

/-- A request that sends no manifest write but an admissible one. -/
def Op.PublishOk : Op → Prop
  | .send r => r.PublishOk
  | _ => True

/-- The program publishes only admissible manifests; `Q` is what is known of its value. -/
abbrev Publishes {α : Type} (Q : α → Prop) (p : Task α) : Prop :=
  p.Asks Op.PublishOk Q

/-- The program publishes only admissible manifests. -/
abbrev PublishesOk {α : Type} (p : Task α) : Prop :=
  Publishes (fun _ => True) p

/-- Whatever writes no manifest is admissible. -/
theorem publishOk_of_spares (op : Op) (h : op.SparesManifest) : op.PublishOk := by
  cases op with
  | send r => cases r <;> trivial
  | _ => trivial

theorem admits_publishOk : Admits Op.PublishOk where
  routine := fun op h => publishOk_of_spares op h.spares
  create := fun _ h => h
  replace := fun _ _ _ htr hwf => ⟨htr, hwf⟩

/-- **Every call publishes only admissible manifests**, whatever it is called with and whatever
    it is answered. -/
theorem publishes_body (codec : Codec) (c : Collection) (t : Nat) (call : Call) :
    PublishesOk (body codec c t call) :=
  asks_body admits_publishOk codec c fun _ _ _ _ =>
    ⟨fun _ _ _ _ _ => trivial, fun _ _ _ => trivial, fun _ _ => trivial⟩

/-! ## What the manifest goes through -/

/-- The manifest, and every manifest on its way, is admissible. -/
structure Published (w : World) : Prop where
  manifest : ∀ m, w.cur = some m → m.WellFormed
  msgs : ∀ msg ∈ w.net, msg.req.PublishOk

/-- `m` passes the single-state guard when it is read back. -/
def CurrentJson.ReadsBack (c : Collection) (m : CurrentJson) : Prop :=
  assertCurrentJson c.currentJsonKey m.toJson = .ok m

/-- What a write that was applied did to the manifest. -/
inductive Publication (c : Collection) : Req → Option CurrentJson → Option CurrentJson → Prop where
  | create {m : CurrentJson} (readsBack : m.ReadsBack c) :
      Publication c (.createCurrent m) none (some m)
  | replace {pub : Publisher} {before after : CurrentJson}
      (transition : Transition pub before after) (readsBack : after.ReadsBack c) :
      Publication c (.casCurrent pub before after) (some before) (some after)
  | elsewhere {r : Req} {cur : Option CurrentJson} (hr : r.isManifestWrite = false) :
      Publication c r cur cur

/-- How one version may follow another, however many publications lie between them. -/
structure CurrentJson.Grows (m m' : CurrentJson) : Prop where
  generation : m'.generation = m.generation
  start : m.logSeqStart ≤ m'.logSeqStart
  hint : m.tailHint ≤ m'.tailHint
  floor : logDeleteFloorOf m ≤ logDeleteFloorOf m'

theorem CurrentJson.Grows.refl (m : CurrentJson) : m.Grows m :=
  ⟨rfl, Nat.le_refl _, Nat.le_refl _, Nat.le_refl _⟩

theorem CurrentJson.Grows.trans {m m' m'' : CurrentJson} (h : m.Grows m') (h' : m'.Grows m'') :
    m.Grows m'' :=
  ⟨h'.generation.trans h.generation, Nat.le_trans h.start h'.start,
    Nat.le_trans h.hint h'.hint, Nat.le_trans h.floor h'.floor⟩

theorem Transition.grows {pub : Publisher} {before after : CurrentJson}
    (h : Transition pub before after) : before.Grows after :=
  ⟨h.generation_eq, h.start_mono, h.hint_mono, h.floor_mono⟩

/-- An existing manifest is only ever replaced by one that grew from it. -/
theorem Publication.grows {c : Collection} {r : Req} {cur cur' : Option CurrentJson}
    (h : Publication c r cur cur') {m : CurrentJson} (hm : cur = some m) :
    ∃ m', cur' = some m' ∧ m.Grows m' := by
  cases h with
  | create _ => cases hm
  | replace htr _ =>
    cases hm
    exact ⟨_, rfl, htr.grows⟩
  | elsewhere _ => exact ⟨m, hm, .refl m⟩

section Runs

variable {codec : Codec} {c : Collection} {accepts : Call → World → Bool}
variable {w w' w₁ : World} {t : Nat}

/-- **A landed PUT** did to the manifest what it was sent for. -/
theorem Published.publication (h : Published w) {msg : Msg} (hmsg : msg ∈ w.net)
    (ha : applyReq w msg.req = some w₁) : Publication c msg.req w.cur w₁.cur := by
  have hok := h.msgs msg hmsg
  cases hr : msg.req with
  | createCurrent m =>
    rw [hr] at ha hok
    simp only [applyReq] at ha
    split at ha
    next hnone =>
      cases ha
      rw [hnone]
      exact .create ((assertCurrentJson_toJson_iff _ m).mpr hok)
    next => cases ha
  | casCurrent pub before after =>
    rw [hr] at ha hok
    simp only [applyReq] at ha
    split at ha
    next hcur =>
      cases ha
      rw [hcur]
      have hwf := hok.1.wellFormed hok.2
      exact .replace hok.1 ((assertCurrentJson_toJson_iff _ after).mpr hwf)
    next => cases ha
  | _ =>
    have hother : msg.req.isManifestWrite = false := by rw [hr]; rfl
    rw [applyReq_cur hother ha, ← hr]
    exact .elsewhere hother

/-- No request changes the manifest by itself, and a message is there because it was sent. -/
theorem exec_manifest {op : Op} {pick : Pick} {r : Resp op}
    (h : exec t op pick w = some (r, w')) : w'.cur = w.cur ∧
      ∀ msg ∈ w'.net, (∃ old ∈ w.net, msg.req = old.req) ∨ op = .send msg.req := by
  have hsame : ∀ msg ∈ w.net, (∃ old ∈ w.net, msg.req = old.req) ∨ op = .send msg.req :=
    fun msg hmsg => Or.inl ⟨msg, hmsg, rfl⟩
  cases op with
  | getCurrent =>
    rcases exec_getCurrent h with ⟨_, rfl⟩ | ⟨_, _, rfl⟩
    · exact ⟨rfl, hsame⟩
    · exact ⟨rfl, hsame⟩
  | getLog why n =>
    rcases exec_getLog h with ⟨_, rfl⟩ | ⟨_, _, rfl⟩
    · exact ⟨rfl, hsame⟩
    · exact ⟨rfl, hsame⟩
  | getSnapshot key =>
    obtain ⟨rfl, _⟩ := exec_getSnapshot h
    exact ⟨rfl, hsame⟩
  | getPending =>
    obtain ⟨rfl, _⟩ := exec_getPending h
    exact ⟨rfl, hsame⟩
  | listSnapshots maxKeys =>
    obtain rfl := exec_listSnapshots h
    exact ⟨rfl, hsame⟩
  | send req =>
    -- the one request that adds a message
    obtain ⟨_, _, rfl⟩ := exec_send h
    refine ⟨rfl, fun msg hmsg => ?_⟩
    rcases List.mem_append.mp hmsg with hold | hnew
    · exact hsame msg hold
    · rw [List.mem_singleton.mp hnew]
      exact Or.inr rfl
  | await id =>
    obtain ⟨m, hm, _, hcase⟩ := exec_await h
    -- an answer may mark its message as answered, and no more
    rcases hcase with ⟨rfl, _⟩ | ⟨rfl, _⟩ | ⟨e, _, _, _, _, rfl⟩ | ⟨rfl, _⟩
    · exact ⟨rfl, hsame⟩
    · exact ⟨rfl, hsame⟩
    · refine ⟨rfl, fun msg hmsg => ?_⟩
      rcases List.mem_or_eq_of_mem_set hmsg with hold | rfl
      · exact hsame msg hold
      · exact Or.inl ⟨m, List.mem_of_getElem? hm, rfl⟩
    · exact ⟨rfl, hsame⟩
  | now =>
    obtain rfl := exec_now h
    exact ⟨rfl, hsame⟩
  | mintGeneration =>
    obtain ⟨rfl, _⟩ := exec_mintGeneration h
    exact ⟨rfl, hsame⟩
  | schedule n =>
    obtain ⟨rfl, _⟩ := exec_schedule h
    exact ⟨rfl, hsame⟩
  | aborted =>
    obtain rfl := exec_aborted h
    exact ⟨rfl, hsame⟩

theorem Published.exec (h : Published w) {op : Op} (hop : op.PublishOk) {pick : Pick}
    {r : Resp op} (hex : Baerly.exec t op pick w = some (r, w')) : Published w' := by
  obtain ⟨hcur, hnet⟩ := exec_manifest hex
  refine ⟨fun m hm => h.manifest m (hcur ▸ hm), fun msg hmsg => ?_⟩
  rcases hnet msg hmsg with ⟨old, hold, hreq⟩ | hsend
  · rw [hreq]
    exact h.msgs old hold
  · rw [hsend] at hop
    exact hop

/-- A version that was applied is admissible. -/
theorem Publication.wellFormed {r : Req} {cur cur' : Option CurrentJson}
    (h : Publication c r cur cur') (hcur : ∀ m, cur = some m → m.WellFormed) :
    ∀ m, cur' = some m → m.WellFormed := by
  intro m hm
  cases h with
  | create hback =>
    cases hm
    exact (assertCurrentJson_toJson_iff _ m).mp hback
  | replace _ hback =>
    cases hm
    exact (assertCurrentJson_toJson_iff _ m).mp hback
  | elsewhere _ => exact hcur m hm

theorem Published.deliver (c : Collection) (h : Published w) {i : Nat}
    (hd : Baerly.deliver i w = some w') :
    Published w' := by
  have hset : ∀ (v : World) (m m' : Msg), v.net = w.net → w.net[i]? = some m → m'.req = m.req →
      ∀ msg ∈ (v.setMsg i m').net, msg.req.PublishOk := by
    intro v m m' hv hm hreq msg hmsg
    rcases List.mem_or_eq_of_mem_set hmsg with hold | rfl
    · exact h.msgs msg (hv ▸ hold)
    · rw [hreq]
      exact h.msgs m (List.mem_of_getElem? hm)
  obtain ⟨m, hm, _, ⟨w₁, ha, rfl⟩ | ⟨_, rfl⟩⟩ := deliver_cases hd
  · have hpub : Publication c m.req w.cur w₁.cur := h.publication (List.mem_of_getElem? hm) ha
    exact ⟨hpub.wellFormed h.manifest, hset w₁ m _ (applyReq_frame ha).1 hm rfl⟩
  · exact ⟨h.manifest, hset w m _ rfl hm rfl⟩

/-- **What one action may do to the manifest.** -/
structure ManifestStep (w w' : World) (a : Act (system codec c accepts)) : Prop where
  /-- No step of a publisher changes it: not a guard that throws, not an outcome that is an
      error. -/
  program : (∀ i : Nat, a ≠ .env i) → w'.cur = w.cur
  /-- A write the store refuses leaves it. -/
  refused : ∀ (i : Nat) (msg : Msg), a = .env i → w.net[i]? = some msg →
    applyReq w msg.req = none → w'.cur = w.cur
  /-- A write the store applies does what it may. -/
  applied : ∀ (i : Nat) (msg : Msg) (w₁ : World), a = .env i → w.net[i]? = some msg →
    applyReq w msg.req = some w₁ → Publication c msg.req w.cur w'.cur

variable {σ σ' : State}

theorem Published.step (h : Published σ.world) {a : Act (system codec c accepts)}
    (hn : (system codec c accepts).next σ a = some σ') : ManifestStep σ.world σ'.world a := by
  cases a with
  | spawn call =>
    simp only [Machine.next] at hn
    split at hn
    · cases hn
      exact ⟨fun _ => rfl, fun _ _ hi => (by cases hi), fun _ _ _ hi => (by cases hi)⟩
    · cases hn
  | step t pick =>
    simp only [Machine.next] at hn
    split at hn
    next call w₀ op k hth =>
      split at hn
      next r w' hex =>
        cases hn
        have hcur : w'.cur = σ.world.cur := (exec_manifest hex).1
        exact ⟨fun _ => hcur, fun _ _ hi => (by cases hi), fun _ _ _ hi => (by cases hi)⟩
      next => cases hn
    next => cases hn
  | env i =>
    simp only [Machine.next, Option.map_eq_some_iff] at hn
    obtain ⟨w', hd, rfl⟩ := hn
    obtain ⟨m, hm, _, hcase⟩ := deliver_cases hd
    refine ⟨fun hne => absurd rfl (hne i), ?_, ?_⟩
    · intro j msg hj hmsg hnone
      cases hj
      rw [hm] at hmsg
      cases hmsg
      rcases hcase with ⟨w₁, ha, _⟩ | ⟨_, rfl⟩
      · rw [ha] at hnone
        cases hnone
      · rfl
    · intro j msg w₁ hj hmsg ha
      cases hj
      rw [hm] at hmsg
      cases hmsg
      rcases hcase with ⟨w₂, ha', rfl⟩ | ⟨hnone, _⟩
      · show Publication c m.req σ.world.cur w₂.cur
        exact h.publication (List.mem_of_getElem? hm) ha'
      · rw [ha] at hnone
        cases hnone

theorem Published.env {e : Nat} (h : Published w)
    (hd : (system codec c accepts).env e w = some w') : Published w' :=
  h.deliver c hd

/-- **Whatever is called, every manifest that is on its way is admissible.** -/
theorem published_run (h : Published w) {acts : List (Act (system codec c accepts))}
    (hrun : (system codec c accepts).run ⟨w, []⟩ acts = some σ) : Published σ.world :=
  Protocol.invariant_of_asks Published.env (fun hw hop hex => hw.exec hop hex)
    (publishes_body codec c) h hrun

/-- One action lets an existing manifest grow. -/
theorem Published.grows (h : Published σ.world) {a : Act (system codec c accepts)}
    (hn : (system codec c accepts).next σ a = some σ') {m : CurrentJson}
    (hm : σ.world.cur = some m) : ∃ m', σ'.world.cur = some m' ∧ m.Grows m' := by
  have hstep := h.step hn
  cases a with
  | spawn call => exact ⟨m, (hstep.program nofun).trans hm, .refl m⟩
  | step t pick => exact ⟨m, (hstep.program nofun).trans hm, .refl m⟩
  | env i =>
    simp only [Machine.next, Option.map_eq_some_iff] at hn
    obtain ⟨w', hd, rfl⟩ := hn
    obtain ⟨msg, hmsg, _, ⟨w₁, ha, _⟩ | ⟨hnone, _⟩⟩ := deliver_cases hd
    · exact (hstep.applied i msg w₁ rfl hmsg ha).grows hm
    · exact ⟨m, (hstep.refused i msg rfl hmsg hnone).trans hm, .refl m⟩

/-- **The manifest only moves forward.**  From a bucket without messages in flight, whose manifest
    passes the guard if there is one, through any run of any calls: the manifest passes the guard,
    every action does to it what `ManifestStep` says, and any later version grew from it. -/
theorem manifest_monotone {w₀ : World} (hnet : w₀.net = [])
    (hcur : ∀ m, w₀.cur = some m → m.ReadsBack c) {acts : List (Act (system codec c accepts))}
    (hrun : (system codec c accepts).run ⟨w₀, []⟩ acts = some σ) :
    (∀ m, σ.world.cur = some m → m.ReadsBack c) ∧
    (∀ a σ', (system codec c accepts).next σ a = some σ' →
      ManifestStep σ.world σ'.world a) ∧
    ∀ acts' σ', (system codec c accepts).run σ acts' = some σ' → ∀ m, σ.world.cur = some m →
      ∃ m', σ'.world.cur = some m' ∧ m.Grows m' := by
  have hinit : Published w₀ := by
    refine ⟨fun m hm => (assertCurrentJson_toJson_iff _ m).mp (hcur m hm), fun msg hmsg => ?_⟩
    rw [hnet] at hmsg
    exact absurd hmsg List.not_mem_nil
  refine ⟨?_, fun a σ' hn => (published_run hinit hrun).step hn, ?_⟩
  · intro m hm
    exact (assertCurrentJson_toJson_iff _ m).mpr ((published_run hinit hrun).manifest m hm)
  · intro acts'
    -- the invariant holds at every point of the run, because it holds after every longer run
    induction acts' generalizing acts σ with
    | nil =>
      intro σ' hr m hm
      cases hr
      exact ⟨m, hm, .refl m⟩
    | cons a acts' ih =>
      intro σ' hr m hm
      simp only [Machine.run, Option.bind_eq_some_iff] at hr
      obtain ⟨ρ, hn, hr⟩ := hr
      obtain ⟨m₁, hm₁, hgrow₁⟩ := (published_run hinit hrun).grows hn hm
      have hrun' : (system codec c accepts).run ⟨w₀, []⟩ (acts ++ [a]) = some ρ :=
        (Machine.run_append _).mpr ⟨σ, hrun, by simp [Machine.run, hn]⟩
      obtain ⟨m₂, hm₂, hgrow₂⟩ := ih hrun' σ' hr m₁ hm₁
      exact ⟨m₂, hm₂, hgrow₁.trans hgrow₂⟩

end Runs

/-- A manifest in use: slots below 1 are gone, slots below 3 are folded. -/
def heldManifest : CurrentJson :=
  { zeroManifest (js "0a") with
    snapshot := some firstSnapshot, tailHint := 5, logSeqStart := 3, logDeleteFloor := some 1 }

/-- A retirement and a fence claim both read that manifest and both send their version. -/
def retireAndClaim : List SampleAct :=
  [.spawn (.retire ⟨some 0, none⟩)] ++ oks 0 2 ++ [.spawn (.claim (js "w"))] ++ oks 1 1 ++
    oks 0 1 ++ oks 1 1

/-- The retirement lands first: its version is the next one, and the claim changes nothing. -/
theorem manifest_retireAndClaim : ∃ σ σ' m', σ.world.cur = some heldManifest ∧
    σ'.world.cur = some m' ∧ logDeleteFloorOf m' = 3 ∧ m'.writerFence = heldManifest.writerFence ∧
    (deployed sampleCodec sampleCollection).run σ [.env (0 : Nat), .env (1 : Nat)] = some σ' ∧
    heldManifest.Grows m' := by
  have hrun : (((deployed sampleCodec sampleCollection).run
      ⟨{ World.empty with cur := some heldManifest }, []⟩ retireAndClaim).bind fun σ =>
        ((deployed sampleCodec sampleCollection).run σ [.env (0 : Nat), .env (1 : Nat)]).map
          fun σ' => (σ.world.cur, σ'.world.cur.map fun m => (logDeleteFloorOf m, m.writerFence))) =
        some (some heldManifest, some (3, heldManifest.writerFence)) := by
    decide +kernel
  obtain ⟨σ, h₁, hrest⟩ := Option.bind_eq_some_iff.mp hrun
  obtain ⟨σ', h₂, hfacts⟩ := Option.map_eq_some_iff.mp hrest
  simp only [Prod.mk.injEq, Option.map_eq_some_iff] at hfacts
  obtain ⟨hcur, m', hm', hfloor, hfence⟩ := hfacts
  have hback : ∀ m, some heldManifest = some m → m.ReadsBack sampleCollection := by
    intro m hm
    cases hm
    exact (assertCurrentJson_toJson_iff _ _).mpr ⟨by decide, by
      intro g hg
      cases hg
      decide⟩
  obtain ⟨_, _, hgrows⟩ := manifest_monotone rfl hback h₁
  obtain ⟨m₂, hm₂, hgrow⟩ := hgrows _ σ' h₂ heldManifest hcur
  rw [hm'] at hm₂
  cases hm₂
  exact ⟨σ, σ', m', hcur, hm', hfloor, hfence, h₂, hgrow⟩

end Baerly
