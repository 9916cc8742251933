import Baerly.Verify.Invariant

/-
  The store's own step keeps the invariant: delivering any message in flight, at any time, any
  number of times.

  CRUX: a create finds its slot empty only at the tail, where it commits, or below the certified
  floor, where the object it makes is a phantom; a conditional publication finds its version only
  while nothing outran it.
-/

namespace Baerly

open Async

/-! ## Frame -/

/-- A delivery touches neither the messages nor the record of reads. -/
theorem applyReq_frame {w w₁ : World} {r : Req} (h : applyReq w r = some w₁) :
    w₁.net = w.net ∧ w₁.trace = w.trace := by
  cases r <;> simp only [applyReq] at h
  case putSnapshot | deleteMarker | deleteLog | deleteSnapshot => cases h; exact ⟨rfl, rfl⟩
  case createMarker =>
    split at h
    · cases h
    · cases h; exact ⟨rfl, rfl⟩
  all_goals
    split at h
    · cases h; exact ⟨rfl, rfl⟩
    · cases h

/-- What one step of the store tells everybody: messages and reads are untouched. -/
theorem Evolves.of_bucket {w w₁ : World} (hnet : w₁.net = w.net) (htrace : w₁.trace = w.trace)
    (hhist : w.hist <+: w₁.hist) (hstart : w.start ≤ w₁.start) (hfloor : w.floor ≤ w₁.floor)
    (hman : ∀ m, w.cur = some m → ∃ m', w₁.cur = some m' ∧ m'.generation = m.generation) :
    Evolves w w₁ where
  hist := hhist
  trace := htrace ▸ List.prefix_refl _
  start := hstart
  floor := hfloor
  manifest := hman
  net := fun _ m hi => ⟨m, hnet ▸ hi, .refl m⟩

theorem Evolves.of_cur {w w₁ : World} (hnet : w₁.net = w.net) (htrace : w₁.trace = w.trace)
    (hhist : w.hist <+: w₁.hist) (hcur : w₁.cur = w.cur) : Evolves w w₁ := by
  refine .of_bucket hnet htrace hhist ?_ ?_ ?_
  · simp only [World.start, hcur, Nat.le_refl]
  · simp only [World.floor, hcur, Nat.le_refl]
  · intro m hm
    exact ⟨m, hcur.trans hm, rfl⟩

theorem Evolves.setMsg {w : World} {i : Nat} {m m' : Msg} (hi : w.net[i]? = some m)
    (he : m.Evolves m') : Evolves w (w.setMsg i m') where
  hist := List.prefix_refl _
  trace := List.prefix_refl _
  start := Nat.le_refl _
  floor := Nat.le_refl _
  manifest := fun m h => ⟨m, h, rfl⟩
  net := by
    intro j n hj
    show ∃ n', (w.net.set i m')[j]? = some n' ∧ n.Evolves n'
    by_cases hij : i = j
    · subst hij
      rw [hi] at hj
      cases hj
      have hlt : i < w.net.length := (List.getElem?_eq_some_iff.mp hi).1
      exact ⟨m', List.getElem?_set_self hlt, he⟩
    · exact ⟨n, by rw [List.getElem?_set_ne hij]; exact hj, .refl n⟩

section Apply

variable {codec : Codec} {c : Collection} {w w₁ : World}

theorem World.floor_le_start (w : World) : w.floor ≤ w.start := by
  unfold World.floor World.start
  cases hc : w.cur with
  | none => exact Nat.le_refl 0
  | some m => exact certifiedDeleteFloor_le m

theorem Inv.start_le_hint (h : Inv codec c w) : w.start ≤ w.hint := by
  unfold World.start World.hint
  cases hc : w.cur with
  | none => exact Nat.le_refl 0
  | some m => exact (h.manifest m hc).wf.start_le

theorem Inv.hint_le_tail (h : Inv codec c w) : w.hint ≤ w.tail := by
  unfold World.hint
  cases hc : w.cur with
  | none => exact Nat.zero_le _
  | some m => exact (h.manifest m hc).hint_le

/-- Nothing is stored at or above the tail. -/
theorem Inv.above_tail (h : Inv codec c w) {n : Nat} (hn : w.tail ≤ n) : w.log n = none := by
  have h1 := w.floor_le_start
  have h2 := h.start_le_hint
  have h3 := h.hint_le_tail
  rw [h.dense n (by omega)]
  exact List.getElem?_eq_none hn

theorem Inv.lt_tail (h : Inv codec c w) {n : Nat} {e : LogEntry} (he : w.log n = some e) :
    n < w.tail := by
  rcases Nat.lt_or_ge n w.tail with hl | hl
  · exact hl
  · rw [h.above_tail hl] at he; cases he

/-- **Where a create can land**: at the tail, or in a retired slot. -/
theorem Inv.empty_slot (h : Inv codec c w) {n : Nat} (hn : n ≤ w.tail) (he : w.log n = none) :
    n = w.tail ∨ n < w.floor := by
  rcases Nat.lt_or_ge n w.floor with hf | hf
  · exact Or.inr hf
  · rcases Nat.lt_or_ge n w.tail with hl | hl
    · have hd := h.dense n hf
      rw [he, List.getElem?_eq_getElem hl] at hd
      cases hd
    · exact Or.inl (by omega)

theorem certifiedDeleteFloor_mono {pub : Publisher} {before after : CurrentJson}
    (h : Transition pub before after) :
    certifiedDeleteFloor before ≤ certifiedDeleteFloor after := by
  have h1 := h.floor_mono
  have h2 := h.start_mono
  unfold certifiedDeleteFloor
  omega

/-- Every delivery moves the world forward. -/
theorem applyReq_evolves (h : Inv codec c w) {m : Msg} (hm : m ∈ w.net)
    (ha : applyReq w m.req = some w₁) : Evolves w w₁ := by
  obtain ⟨hnet, htrace⟩ := applyReq_frame ha
  have hok := (h.msgs m hm).req
  cases hr : m.req <;> rw [hr] at ha hok <;> simp only [applyReq] at ha
  case createCurrent m₀ =>
    split at ha
    next hcur =>
      cases ha
      refine .of_bucket rfl rfl (List.prefix_refl _) ?_ ?_ ?_
      · simp only [World.start, hcur, Nat.zero_le]
      · simp only [World.floor, hcur, Nat.zero_le]
      · intro m' hm'
        rw [hcur] at hm'
        cases hm'
    next => cases ha
  -- the only way start and floor move
  case casCurrent pub before after =>
    split at ha
    next hcur =>
      cases ha
      refine .of_bucket rfl rfl (List.prefix_refl _) ?_ ?_ ?_
      · simp only [World.start, hcur]
        exact hok.transition.start_mono
      · simp only [World.floor, hcur]
        exact certifiedDeleteFloor_mono hok.transition
      · intro m' hm'
        rw [hcur] at hm'
        cases hm'
        exact ⟨after, rfl, hok.transition.generation_eq⟩
    next => cases ha
  -- a create may extend the committed sequence
  case createLog n e guarded =>
    split at ha
    next =>
      cases ha
      refine .of_cur rfl rfl ?_ rfl
      show w.hist <+: if n = w.hist.length then w.hist ++ [e] else w.hist
      split
      · exact List.prefix_append _ _
      · exact List.prefix_refl _
    next => cases ha
  case createPending | casPending =>
    split at ha
    next => cases ha; exact .of_cur rfl rfl (List.prefix_refl _) rfl
    next => cases ha
  case createMarker =>
    split at ha
    next => cases ha
    next => cases ha; exact .of_cur rfl rfl (List.prefix_refl _) rfl
  all_goals
    cases ha
    exact .of_cur rfl rfl (List.prefix_refl _) rfl

/-- What the delivered request achieved. -/
theorem applyReq_landed (h : Inv codec c w) {m : Msg} (hm : m ∈ w.net)
    (ha : applyReq w m.req = some w₁) : LandedOk w₁ m.req := by
  have hok := (h.msgs m hm).req
  cases hr : m.req <;> rw [hr] at ha hok <;> simp only [applyReq] at ha
  case createCurrent m₀ =>
    split at ha
    · cases ha; exact ⟨m₀, rfl, rfl⟩
    · cases ha
  case casCurrent pub before after =>
    split at ha
    · cases ha; exact Nat.le_refl _
    · cases ha
  case createLog n e guarded =>
    split at ha
    next hempty =>
      cases ha
      have hle : n ≤ w.tail := hok.le_tail
      show n < (w.landLog n e).hist.length ∧ ((w.landLog n e).hist[n]? = some e ∨ n < w.floor)
      unfold World.landLog
      dsimp only
      rcases h.empty_slot hok.le_tail hempty with heq | hlt
      · have heq' : n = w.hist.length := heq
        rw [if_pos heq', heq']
        exact ⟨by simp, Or.inl (by simp)⟩
      · have h1 := w.floor_le_start
        have h2 := h.start_le_hint
        have h3 := h.hint_le_tail
        have hne : n ≠ w.hist.length := by
          show n ≠ w.tail
          omega
        rw [if_neg hne]
        exact ⟨by show n < w.tail; omega, Or.inr hlt⟩
    next => cases ha
  all_goals trivial

/-- The manifest after a delivery. -/
theorem applyReq_manifest (h : Inv codec c w) {m : Msg} (hm : m ∈ w.net)
    (ha : applyReq w m.req = some w₁) {m' : CurrentJson} (hc : w₁.cur = some m') :
    ManifestOk codec c w₁ m' := by
  have hev := applyReq_evolves h hm ha
  have hok := (h.msgs m hm).req
  have hkeep : w₁.cur = w.cur → ManifestOk codec c w₁ m' := fun heq =>
    hev.manifestOk (h.manifest m' (heq ▸ hc))
  cases hr : m.req <;> rw [hr] at ha hok <;> simp only [applyReq] at ha
  case createCurrent m₀ =>
    split at ha
    next =>
      cases ha
      have heq : m₀ = m' := Option.some.inj hc
      subst heq
      obtain ⟨hwf, hzero⟩ := hok
      simp only [CurrentJson.isZeroState, decide_eq_true_eq] at hzero
      obtain ⟨hsnap, hhint, hstart, hdel⟩ := hzero
      refine ⟨hwf, by omega, by omega, Nat.le_refl _, Nat.le_refl _, ⟨m₀, rfl, rfl⟩,
        fun _ => hstart, ?_⟩
      intro key hkey
      rw [hsnap] at hkey
      cases hkey
    next => cases ha
  case casCurrent pub before after =>
    split at ha
    next hcur =>
      cases ha
      have heq : after = m' := Option.some.inj hc
      subst heq
      have hb := h.manifest before hcur
      have htr := hok.transition
      -- what the version names as its snapshot, by who published it
      have hsnap : (after.snapshot = none → after.logSeqStart = 0) ∧
          ∀ key, after.snapshot = some key → ∃ body,
            SnapOk codec c w.hist after.logSeqStart key body ∧
              w.Applied (.putSnapshot key body) := by
        by_cases hpub : pub = .fold
        · rcases hok.fold hpub with hold | ⟨key, body, hkey, hs, happ⟩
          · simp only [World.start, hcur] at hold
            omega
          · rw [hkey]
            refine ⟨fun hn => absurd hn (Option.some_ne_none key), ?_⟩
            intro key' hkey'
            cases hkey'
            exact ⟨body, hs, happ⟩
        · have hsame : after.snapshot = before.snapshot ∧
              after.logSeqStart = before.logSeqStart := by
            have howns := htr.owns
            rw [howns]
            cases pub with
            | fold => exact absurd rfl hpub
            | checkpoint | refresh | retire | claim => exact ⟨rfl, rfl⟩
          rw [hsame.1, hsame.2]
          exact ⟨hb.unfolded, hb.folded⟩
      exact ⟨htr.wellFormed hok.wf, htr.floor_le, hok.hint_le, Nat.le_refl _, Nat.le_refl _,
        ⟨after, rfl, rfl⟩, hsnap.1, hsnap.2⟩
    next => cases ha
  case createLog n e guarded =>
    split at ha
    · cases ha; exact hkeep rfl
    · cases ha
  case createPending | casPending =>
    split at ha
    · cases ha; exact hkeep rfl
    · cases ha
  case createMarker =>
    split at ha
    · cases ha
    · cases ha; exact hkeep rfl
  all_goals
    cases ha
    exact hkeep rfl

/-- The log after a delivery: still the committed sequence from the floor on. -/
theorem applyReq_dense (h : Inv codec c w) {m : Msg} (hm : m ∈ w.net)
    (ha : applyReq w m.req = some w₁) {n : Nat} (hn : w₁.floor ≤ n) :
    w₁.log n = w₁.hist[n]? := by
  have hev := applyReq_evolves h hm ha
  have hold := h.dense n (Nat.le_trans hev.floor hn)
  have hok := (h.msgs m hm).req
  cases hr : m.req <;> rw [hr] at ha hok <;> simp only [applyReq] at ha
  case createLog k e guarded =>
    split at ha
    next hempty =>
      cases ha
      show (if n = k then some e else w.log n) =
        (if k = w.hist.length then w.hist ++ [e] else w.hist)[n]?
      have hn' : w.floor ≤ n := hn
      -- an empty slot is the tail, or a retired one, below the floor
      rcases h.empty_slot hok.le_tail hempty with heq | hlt
      · have heq' : k = w.hist.length := heq
        rw [if_pos heq']
        by_cases hnk : n = k
        · rw [if_pos hnk, hnk, heq']
          simp
        · rw [if_neg hnk, hold]
          rcases Nat.lt_or_ge n w.hist.length with hl | hl
          · rw [List.getElem?_append_left hl]
          · rw [List.getElem?_eq_none hl, List.getElem?_eq_none (by simp; omega)]
      · have h1 := w.floor_le_start
        have h2 := h.start_le_hint
        have h3 := h.hint_le_tail
        have hne : k ≠ w.hist.length := by
          show k ≠ w.tail
          omega
        rw [if_neg hne, if_neg (by omega)]
        exact hold
    next => cases ha
  -- deletes stay below the floor
  case deleteLog k =>
    cases ha
    show (if n = k then none else w.log n) = w.hist[n]?
    have hk : k < w.floor := hok
    have hn' : w.floor ≤ n := hn
    rw [if_neg (by omega)]
    exact hold
  case createCurrent | casCurrent | createPending | casPending =>
    split at ha
    · cases ha; exact hold
    · cases ha
  case createMarker =>
    split at ha
    · cases ha
    · cases ha; exact hold
  all_goals
    cases ha
    exact hold

/-- A delivery leaves the committed sequence, or commits the entry of the message. -/
theorem applyReq_hist (ha : applyReq w r = some w₁) :
    w₁.hist = w.hist ∨ ∃ e guarded, r = .createLog w.hist.length e guarded ∧
      w.log w.hist.length = none ∧ w₁.hist = w.hist ++ [e] := by
  cases r <;> simp only [applyReq] at ha
  case createLog n e guarded =>
    split at ha
    next hempty =>
      cases ha
      by_cases hn : n = w.hist.length
      · subst hn
        exact Or.inr ⟨e, guarded, rfl, hempty, if_pos rfl⟩
      · exact Or.inl (if_neg hn)
    next => cases ha
  case createMarker =>
    split at ha
    · cases ha
    · cases ha; exact Or.inl rfl
  case createCurrent | casCurrent | createPending | casPending =>
    split at ha
    · cases ha; exact Or.inl rfl
    · cases ha
  all_goals
    cases ha
    exact Or.inl rfl

/-- Every stored object names its slot. -/
theorem applyReq_stored (h : Inv codec c w) {m : Msg} (hm : m ∈ w.net)
    (ha : applyReq w m.req = some w₁) {n : Nat} {e : LogEntry} (he : w₁.log n = some e) :
    EntryOk n e := by
  have hok := (h.msgs m hm).req
  cases hr : m.req <;> rw [hr] at ha hok <;> simp only [applyReq] at ha
  case createLog k e' guarded =>
    split at ha
    next =>
      cases ha
      have he' : (if n = k then some e' else w.log n) = some e := he
      by_cases hnk : n = k
      · rw [if_pos hnk] at he'
        cases he'
        exact hnk ▸ hok.entry
      · rw [if_neg hnk] at he'
        exact h.stored n e he'
    next => cases ha
  case deleteLog k =>
    cases ha
    have he' : (if n = k then none else w.log n) = some e := he
    by_cases hnk : n = k
    · rw [if_pos hnk] at he'; cases he'
    · rw [if_neg hnk] at he'
      exact h.stored n e he'
  case createCurrent | casCurrent | createPending | casPending =>
    split at ha
    · cases ha; exact h.stored n e he
    · cases ha
  case createMarker =>
    split at ha
    · cases ha
    · cases ha; exact h.stored n e he
  all_goals
    cases ha
    exact h.stored n e he

/-- What a delivery does to one snapshot file. -/
theorem applyReq_snap (ha : applyReq w r = some w₁) (key : Key) :
    w₁.snap key = w.snap key ∨ (∃ body, r = .putSnapshot key body ∧ w₁.snap key = some body) ∨
      (r = .deleteSnapshot key ∧ w₁.snap key = none) := by
  cases r <;> simp only [applyReq] at ha
  case putSnapshot k body =>
    cases ha
    by_cases hk : key = k
    · subst hk
      exact Or.inr (Or.inl ⟨body, rfl, if_pos rfl⟩)
    · exact Or.inl (if_neg hk)
  case deleteSnapshot k =>
    cases ha
    by_cases hk : key = k
    · subst hk
      exact Or.inr (Or.inr ⟨rfl, if_pos rfl⟩)
    · exact Or.inl (if_neg hk)
  case createMarker =>
    split at ha
    · cases ha
    · cases ha; exact Or.inl rfl
  case deleteMarker | deleteLog => cases ha; exact Or.inl rfl
  all_goals
    split at ha
    · cases ha; exact Or.inl rfl
    · cases ha

theorem applyReq_ledger (h : Inv codec c w) {m : Msg} (hm : m ∈ w.net)
    (ha : applyReq w m.req = some w₁) {p : GcPending} (hp : w₁.pending = some p) :
    p.NoLegacy := by
  have hok := (h.msgs m hm).req
  cases hr : m.req <;> rw [hr] at ha hok <;> simp only [applyReq] at ha
  case createPending p₀ =>
    split at ha
    · cases ha; cases hp; exact hok
    · cases ha
  case casPending before p₀ =>
    split at ha
    · cases ha; cases hp; exact hok
    · cases ha
  case createCurrent | casCurrent | createLog =>
    split at ha
    · cases ha; exact h.ledger p hp
    · cases ha
  case createMarker =>
    split at ha
    · cases ha
    · cases ha; exact h.ledger p hp
  all_goals
    cases ha
    exact h.ledger p hp

end Apply

/-! ## The whole step -/

section Deliver

variable {codec : Codec} {c : Collection} {w w' : World}

/-- What `deliver` does. -/
theorem deliver_cases {i : Nat} (h : deliver i w = some w') :
    ∃ m, w.net[i]? = some m ∧ m.void = false ∧
      ((∃ w₁, applyReq w m.req = some w₁ ∧ w' = w₁.setMsg i { m with applied := true }) ∨
        (applyReq w m.req = none ∧ w' = w.setMsg i { m with refused := true })) := by
  unfold deliver at h
  split at h
  next m hm =>
    split at h
    next => cases h
    next hv =>
      refine ⟨m, hm, by simpa using hv, ?_⟩
      split at h
      next w₁ ha => exact Or.inl ⟨w₁, ha, (Option.some.inj h).symm⟩
      next ha => exact Or.inr ⟨ha, (Option.some.inj h).symm⟩
  next => cases h

/-- A refused create found its slot taken. -/
theorem refusedOk_of_none (h : Inv codec c w) {r : Req} (ha : applyReq w r = none) :
    RefusedOk w r := by
  cases r <;> simp only [applyReq] at ha
  case createLog n e guarded =>
    split at ha
    · cases ha
    next hslot =>
      cases hl : w.log n with
      | none => exact absurd hl hslot
      | some e' => exact h.lt_tail hl
  all_goals trivial

theorem sent_setMsg {i : Nat} {m m' : Msg} (hi : w.net[i]? = some m) (hreq : m'.req = m.req)
    {r : Req} (hs : (w.setMsg i m').Sent r) : w.Sent r := by
  obtain ⟨n, hn, hr⟩ := hs
  rcases List.mem_or_eq_of_mem_set hn with hmem | heq
  · exact ⟨n, hmem, hr⟩
  · exact ⟨m, List.mem_of_getElem? hi, by rw [← hr, heq, hreq]⟩

/-- Recording an outcome that is not a landing keeps the invariant. -/
theorem Inv.setMsg (h : Inv codec c w) {i : Nat} {m m' : Msg} (hi : w.net[i]? = some m)
    (he : m.Evolves m') (happ : m'.applied = m.applied)
    (href : m'.refused = true → m.refused = true ∨ RefusedOk w m.req) :
    Inv codec c (w.setMsg i m') := by
  have hev := Evolves.setMsg hi he
  have happlied : ∀ r, (w.setMsg i m').Applied r → w.Applied r := by
    rintro r ⟨n, hn, hr, ha⟩
    rcases List.mem_or_eq_of_mem_set hn with hmem | heq
    · exact ⟨n, hmem, hr, ha⟩
    · refine ⟨m, List.mem_of_getElem? hi, ?_, ?_⟩
      · rw [← hr, heq, he.req]
      · rw [← happ, ← heq, ha]
  have hlen : (w.setMsg i m').net.length = w.net.length := List.length_set
  refine ⟨fun m hm => hev.manifestOk (h.manifest m hm), h.unborn, h.dense, h.stored, ?_, ?_,
    hev.serial hlen h.serial, fun key body hs => hev.sent (h.snaps key body hs), ?_, ?_, h.ledger⟩
  · intro n e hn
    obtain ⟨a, ha, guarded, hreq, happ', hown⟩ := h.committed n e hn
    obtain ⟨a', ha', hae⟩ := hev.mem_net ha
    exact ⟨a', ha', guarded, hae.req.trans hreq, hae.applied happ', hae.owner.trans hown⟩
  · intro n hn
    rcases List.mem_or_eq_of_mem_set hn with hmem | heq
    · exact hev.msgOk (h.msgs n hmem)
    · have hm := h.msgs m (List.mem_of_getElem? hi)
      subst heq
      refine ⟨?_, ?_, ?_⟩
      · rw [he.owner, he.req]; exact hev.reqOk hm.req
      · intro ha
        rw [he.req]
        exact hev.landedOk (hm.landed (happ ▸ ha))
      · intro hr
        rw [he.req]
        rcases href hr with hold | hnew
        · exact hev.refusedOk (hm.refused hold)
        · exact hev.refusedOk hnew
  · intro key body body' hs hs'
    exact h.content key body body' (sent_setMsg hi he.req hs) (sent_setMsg hi he.req hs')
  · intro key body ha
    exact h.kept key body (happlied _ ha)

/-- **The store's step keeps the invariant and moves the world forward.** -/
theorem deliver_inv (h : Inv codec c w) {i : Nat} (hd : deliver i w = some w') :
    Inv codec c w' ∧ Evolves w w' := by
  obtain ⟨m, hi, hvoid, ⟨w₁, ha, rfl⟩ | ⟨ha, rfl⟩⟩ := deliver_cases hd
  · have hm := List.mem_of_getElem? hi
    have hev₁ := applyReq_evolves h hm ha
    obtain ⟨hnet, htrace⟩ := applyReq_frame ha
    have hi₁ : w₁.net[i]? = some m := hnet ▸ hi
    have hset : m.Evolves { m with applied := true } :=
      ⟨rfl, rfl, fun _ => rfl, id, fun hv => by rw [hvoid] at hv; cases hv⟩
    have hev := hev₁.trans (Evolves.setMsg hi₁ hset)
    have hback : ∀ n ∈ (w₁.setMsg i { m with applied := true }).net,
        n ∈ w.net ∨ n = { m with applied := true } := by
      intro n hn
      have hn' : n ∈ w₁.net.set i { m with applied := true } := hn
      rw [hnet] at hn'
      exact List.mem_or_eq_of_mem_set hn'
    have hmem : { m with applied := true } ∈ (w₁.setMsg i { m with applied := true }).net := by
      have hlt : i < w₁.net.length := (List.getElem?_eq_some_iff.mp hi₁).1
      exact List.mem_of_getElem? (List.getElem?_set_self hlt)
    have hsent : ∀ r, (w₁.setMsg i { m with applied := true }).Sent r → w.Sent r := by
      rintro r ⟨n, hn, hr⟩
      rcases hback n hn with hold | rfl
      · exact ⟨n, hold, hr⟩
      · exact ⟨m, hm, hr⟩
    have hlen : (w₁.setMsg i { m with applied := true }).net.length = w.net.length := by
      show (w₁.net.set i _).length = _
      rw [List.length_set, hnet]
    refine ⟨⟨?_, ?_, fun n hn => applyReq_dense h hm ha hn,
      fun n e he => applyReq_stored h hm ha he, ?_, ?_, hev.serial hlen h.serial, ?_, ?_, ?_,
      fun p hp => applyReq_ledger h hm ha hp⟩, hev⟩
    · intro m' hc
      exact (Evolves.setMsg hi₁ hset).manifestOk (applyReq_manifest h hm ha hc)
    · intro hc
      rcases applyReq_hist ha with hsame | ⟨e, guarded, hreq, _, _⟩
      · cases hcur : w.cur with
        | none => exact hsame.trans (h.unborn hcur)
        | some m' =>
          obtain ⟨m'', hm'', _⟩ := hev.manifest m' hcur
          rw [hm''] at hc
          cases hc
      · -- a create is only sent once there is a manifest
        have hok := (h.msgs m hm).req
        rw [hreq] at hok
        exact absurd hc (hev.born hok.manifest)
    · intro n e hn
      have hold : w.hist[n]? = some e → ∃ a ∈ (w₁.setMsg i { m with applied := true }).net,
          ∃ guarded, a.req = .createLog n e guarded ∧ a.applied = true ∧ a.owner = e.session := by
        intro hn₀
        obtain ⟨a, hamem, guarded, hreq, happ, hown⟩ := h.committed n e hn₀
        obtain ⟨a', ha', hae⟩ := hev.mem_net hamem
        exact ⟨a', ha', guarded, hae.req.trans hreq, hae.applied happ, hae.owner.trans hown⟩
      have hn₁ : w₁.hist[n]? = some e := hn
      rcases applyReq_hist ha with hsame | ⟨e', guarded, hreq, _, hhist⟩
      · exact hold (hsame ▸ hn₁)
      · rw [hhist, List.getElem?_append] at hn₁
        split at hn₁
        · exact hold hn₁
        next hge =>
          -- the entry this delivery committed
          have hidx : n = w.hist.length := by
            rcases Nat.lt_or_ge (n - w.hist.length) 1 with hl | hl
            · omega
            · rw [List.getElem?_eq_none (by simpa using hl)] at hn₁; cases hn₁
          subst hidx
          simp only [Nat.sub_self, List.getElem?_cons_zero, Option.some.injEq] at hn₁
          subst hn₁
          have hok := (h.msgs m hm).req
          rw [hreq] at hok
          exact ⟨_, hmem, guarded, hreq, rfl, hok.session.symm⟩
    · intro n hn
      rcases hback n hn with hold | rfl
      · exact hev.msgOk (h.msgs n hold)
      · have hok := hev.msgOk (h.msgs m hm)
        have hland : LandedOk w₁ m.req := applyReq_landed h hm ha
        exact ⟨hok.req, fun _ => (Evolves.setMsg hi₁ hset).landedOk hland, hok.refused⟩
    · intro key body hs
      rcases applyReq_snap ha key with hsame | ⟨body', hreq, hnew⟩ | ⟨_, hnew⟩
      · exact hev.sent (h.snaps key body (hsame ▸ hs))
      · have heq : body' = body := Option.some.inj (hnew.symm.trans hs)
        exact hev.sent ⟨m, hm, heq ▸ hreq⟩
      · exact absurd (hnew.symm.trans hs) (fun hn => by cases hn)
    · intro key body body' hs hs'
      exact h.content key body body' (hsent _ hs) (hsent _ hs')
    · intro key body happ
      have hstill : w.snap key = some body ∨ Outlived c w key →
          w₁.snap key = some body ∨ Outlived c w₁ key := by
        rintro (hs | hout)
        · rcases applyReq_snap ha key with hsame | ⟨body', hreq, hnew⟩ | ⟨hreq, _⟩
          · exact Or.inl (hsame.trans hs)
          · -- another PUT of the same key has the same content
            have heq := h.content key body body' (h.snaps key body hs) ⟨m, hm, hreq⟩
            exact Or.inl (heq ▸ hnew)
          · have hok := (h.msgs m hm).req
            rw [hreq] at hok
            exact Or.inr (hev₁.outlived hok)
        · exact Or.inr (hev₁.outlived hout)
      obtain ⟨n, hn, hr, hna⟩ := happ
      rcases hback n hn with hold | rfl
      · exact hstill (h.kept key body ⟨n, hold, hr, hna⟩)
      · have hreq : m.req = .putSnapshot key body := hr
        rw [hreq] at ha
        cases ha
        exact Or.inl (if_pos rfl)
  · have hm := List.mem_of_getElem? hi
    have he : m.Evolves { m with refused := true } :=
      ⟨rfl, rfl, id, fun _ => rfl, fun hv => ⟨hv, rfl⟩⟩
    exact ⟨h.setMsg hi he rfl fun _ => Or.inr (refusedOk_of_none h ha), Evolves.setMsg hi he⟩

end Deliver

end Baerly
