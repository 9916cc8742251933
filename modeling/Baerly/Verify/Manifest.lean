import Baerly.Verify.Rules

/-
  The publishers of the manifest keep the protocol: `readCurrentJson`, `createCurrentJson`,
  `casUpdateCurrentJson` with its two callers, and `claimWriter`.

  What a publisher has to show is `CasOk` of the version it replaces and the version it writes;
  the rest is the same for all of them.
-/

namespace Baerly

open Async

variable {codec : Codec} {c : Collection} {t : Nat} {w : World}

/-! ## Reading -/

/-- **Rule for `readCurrentJson`**: what the invariant says of a manifest makes the single-state
    guard pass. -/
theorem wp_readCurrentJson :
    (protocol codec c).wp t (readCurrentJson c) (fun r w' => Calm t w w' ∧
      ∀ v, r = .ok v → ManifestRead codec c t w v w') w := by
  refine Protocol.wp_seq wp_getCurrent ?_ ?_
  · rintro (_ | m) w₁ ⟨hcalm, hread⟩
    · exact ⟨hcalm, fun v hv => by cases hv; exact hread none rfl⟩
    · have hm := (hread (some m) rfl).found m rfl
      have hguard := (assertCurrentJson_toJson_iff c.currentJsonKey m).mpr hm.wf
      refine wp_check ?_ ?_
      · intro json hjson
        rw [hguard] at hjson
        cases hjson
        exact ⟨hcalm, fun v hv => by cases hv; exact hread (some m) rfl⟩
      · intro e he
        rw [hguard] at he
        cases he
  · rintro e w₁ ⟨hcalm, _⟩
    exact ⟨hcalm, fun v hv => by cases hv⟩

/-! ## Writing -/

theorem wp_writeCurrent {r : Req} (hr : ReqOk codec c w t r) (hnc : r.isCreateLog = false) :
    (protocol codec c).wp t (writeCurrent c r) (fun o w' => Quiet t w w' ∧
      ∀ date, o = .ok date → w'.Applied r ∧ LandedOk w' r) w := by
  refine Protocol.wp_tryCatch (Protocol.wp_mono (wp_write hr hnc) ?_)
  rintro (e | date) w₁ ⟨hq, hout⟩
  · exact ⟨hq, fun d hd => by cases hd⟩
  · exact ⟨hq, fun d hd => by cases hd; exact hout.acked date rfl⟩

/-- A zero-state manifest that landed is a manifest of this world. -/
theorem ManifestOk.zero {m : CurrentJson} (hwf : m.WellFormed) (hz : m.isZeroState = true)
    (hland : LandedOk w (.createCurrent m)) : ManifestOk codec c w m := by
  simp only [CurrentJson.isZeroState, decide_eq_true_eq] at hz
  obtain ⟨hsnap, hhint, hstart, hdel⟩ := hz
  have hcert : certifiedDeleteFloor m = 0 := by
    unfold certifiedDeleteFloor
    omega
  refine ⟨hwf, by omega, by omega, by omega, by omega, hland, fun _ => hstart, ?_⟩
  intro key hkey
  rw [hsnap] at hkey
  cases hkey

/-- **Rule for `createCurrentJson`**, on a zero-state manifest. -/
theorem wp_createCurrentJson {initial : CurrentJson} (hz : initial.isZeroState = true) :
    (protocol codec c).wp t (createCurrentJson c initial) (fun r w' => Quiet t w w' ∧
      ∀ m, r = .ok m → ManifestOk codec c w' m) w := by
  refine wp_check ?_ ?_
  · intro m hguard
    have hself := assertCurrentJson_toJson_self hguard
    subst hself
    have hwf := (assertCurrentJson_toJson_iff _ _).mp hguard
    have hok : ReqOk codec c w t (.createCurrent m) := ⟨hwf, hz⟩
    refine Protocol.wp_seq (wp_writeCurrent hok rfl) ?_ ?_
    · rintro date w₁ ⟨hq, hland⟩
      refine ⟨hq, fun m' hm' => ?_⟩
      cases hm'
      exact .zero hwf hz (hland date rfl).2
    · rintro e w₁ ⟨hq, _⟩
      exact ⟨hq, fun m hm => by cases hm⟩
  · intro e _
    exact ⟨.refl t w, fun m hm => by cases hm⟩

/-- **Rule for `casUpdateCurrentJson`**: the mutator owes `CasOk`. -/
theorem wp_casUpdateCurrentJson {α : Type} {pub : Publisher}
    {mutator : CurrentJson → Except Err (CurrentJson × α)}
    (hmut : ∀ w' existing next a, Evolves w w' → ManifestOk codec c w' existing →
      mutator existing = .ok (next, a) →
      assertCurrentJsonTransition c.currentJsonKey existing next = .ok () →
      CasOk codec c w' pub existing next) :
    (protocol codec c).wp t (casUpdateCurrentJson c pub mutator) (fun r w' => Calm t w w' ∧
      ∀ next a, r = .ok (next, a) → (∃ existing, mutator existing = .ok (next, a)) ∧
        certifiedDeleteFloor next ≤ w'.floor ∧ logDeleteFloorOf next ≤ next.logSeqStart) w := by
  refine Protocol.wp_seq wp_readCurrentJson ?_ ?_
  · rintro (_ | existing) w₁ ⟨hcalm, hread⟩
    · exact ⟨hcalm, fun next a h => by cases h⟩
    · have hm := (hread _ rfl).found existing rfl
      -- the three refusals before anything is sent
      refine wp_check (fun p hp => ?_) fun e _ => ⟨hcalm, fun next a h => by cases h⟩
      obtain ⟨next, a⟩ := p
      refine wp_check (fun _ _ => ?_) fun e _ => ⟨hcalm, fun next a h => by cases h⟩
      refine wp_check (fun _ htr => ?_) fun e _ => ⟨hcalm, fun next a h => by cases h⟩
      have hcas := hmut w₁ existing next a hcalm.evolves hm hp htr
      have hok : ReqOk codec c w₁ t (.casCurrent pub existing next) := hcas
      refine Protocol.wp_seq (wp_writeCurrent hok rfl) ?_ ?_
      · rintro date w₂ ⟨hq, hland⟩
        refine ⟨hcalm.trans hq.toCalm, fun next' a' h => ?_⟩
        cases h
        exact ⟨⟨existing, hp⟩, (hland date rfl).2, hcas.transition.floor_le⟩
      · rintro e w₂ ⟨hq, _⟩
        exact ⟨hcalm.trans hq.toCalm, fun next a h => by cases h⟩
  · rintro e w₁ ⟨hcalm, _⟩
    exact ⟨hcalm, fun next a h => by cases h⟩

/-- A publication that leaves the snapshot and its floor alone only owes its bounds. -/
theorem CasOk.of_bounds {pub : Publisher} {before after : CurrentJson} {key : Key}
    (hm : ManifestOk codec c w before)
    (htr : assertCurrentJsonTransition key before after = .ok ())
    (howns : after = pub.overlay before after) (hpub : pub ≠ .fold)
    (hmono : before.tailHint ≤ after.tailHint) (hstart : after.logSeqStart ≤ after.tailHint)
    (hhint : after.tailHint ≤ w.tail) : CasOk codec c w pub before after :=
  ⟨.of_assert htr howns hmono hstart, hm.wf, hhint, fun h => absurd h hpub⟩

/-! ## The publishers -/

/-- **Rule for the `tail_hint` refresh**, handed an observed tail. -/
theorem wp_refreshTailHint {nextSeq : Nat} {stamp : Bool} (hseq : nextSeq ≤ w.tail) :
    (protocol codec c).wp t (refreshTailHint c nextSeq stamp) (fun _ w' => Calm t w w') w := by
  have hcas : (protocol codec c).wp t (casUpdateCurrentJson c .refresh (stampTailHint nextSeq stamp))
      (fun _ w' => Calm t w w') w := by
    refine Protocol.wp_mono (wp_casUpdateCurrentJson ?_) fun _ _ h => h.1
    intro w' existing next a hev hm hmut htr
    simp only [stampTailHint, Except.ok.injEq, Prod.mk.injEq] at hmut
    obtain ⟨rfl, _⟩ := hmut
    have h1 := hm.hint_le
    have h2 := hm.wf.start_le
    have h3 := hev.tail
    refine .of_bounds hm htr rfl (by decide) ?_ ?_ ?_
    · show existing.tailHint ≤ max existing.tailHint nextSeq
      omega
    · show existing.logSeqStart ≤ max existing.tailHint nextSeq
      omega
    · show max existing.tailHint nextSeq ≤ w'.tail
      omega
  refine Protocol.wp_tryCatch (Protocol.wp_bind (Protocol.wp_mono hcas ?_))
  rintro (e | a) w₁ hcalm
  · exact hcalm
  · exact hcalm

/-- What the mutator of retirement authorizes. -/
theorem authorizeRetirement_ok {opts : RetireOptions} {existing next : CurrentJson}
    {range : RetirableRange} (h : authorizeRetirement c opts existing = .ok (next, range)) :
    next = { existing with logDeleteFloor := some range.stop } ∧
      range.stop ≤ existing.logSeqStart := by
  unfold authorizeRetirement at h
  dsimp only at h
  split at h
  · cases h
  · cases h
    exact ⟨rfl, (computeRetirableRange_bounds existing opts).2.2⟩

/-- **Rule for `retireLogRange`**: every DELETE it sends is below a floor that is durable. -/
theorem wp_retireLogRange {opts : RetireOptions} :
    (protocol codec c).wp t (retireLogRange c opts) (fun _ w' => Calm t w w') w := by
  refine Protocol.wp_seq wp_readCurrentJson ?_ fun e w₁ h => h.1
  rintro (_ | read) w₁ ⟨hcalm, _⟩
  · exact hcalm
  · dsimp only
    split
    · exact hcalm
    · refine Protocol.wp_seq (wp_casUpdateCurrentJson ?_) ?_ fun e w₂ h => hcalm.trans h.1
      · intro w' existing next range hev hm hmut htr
        obtain ⟨rfl, hstop⟩ := authorizeRetirement_ok hmut
        exact .of_bounds hm htr rfl (by decide) (Nat.le_refl _) hm.wf.start_le hm.hint_le
      · rintro ⟨json, range⟩ w₂ ⟨hcalm₂, hpub⟩
        obtain ⟨⟨existing, hmut⟩, hfloor, hle⟩ := hpub json range rfl
        obtain ⟨hjson, hstop⟩ := authorizeRetirement_ok hmut
        have hdel : logDeleteFloorOf json = range.stop := by rw [hjson]; rfl
        have hcert := certifiedDeleteFloor_of_le hle
        dsimp only
        rw [if_neg (fun h => h hdel)]
        refine Protocol.wp_seq (wp_writeAll ?_ ?_) ?_ ?_
        · intro id w₃
          refine Protocol.wp_seq (wp_await id) ?_ fun e w₄ hq => hq
          exact fun a w₄ hq => hq
        · intro r hr
          obtain ⟨n, hn, rfl⟩ := List.mem_map.mp hr
          have hrange := List.mem_range'_1.mp hn
          refine ⟨?_, rfl⟩
          show n < w₂.floor
          omega
        · intro a w₃ hq
          exact (hcalm.trans hcalm₂).trans hq.toCalm
        · intro e w₃ hq
          exact (hcalm.trans hcalm₂).trans hq.toCalm

/-- **Rule for `claimWriter`**: both writes only touch the fence. -/
theorem wp_claimWriter {owner : JsString} :
    (protocol codec c).wp t (claimWriter c owner) (fun _ w' => Calm t w w') w := by
  refine Protocol.wp_seq wp_readCurrentJson ?_ fun e w₁ h => h.1
  rintro (_ | existing) w₁ ⟨hcalm, hread⟩
  · exact hcalm
  · have hm := (hread _ rfl).found existing rfl
    refine wp_check (fun _ htr => ?_) fun e _ => hcalm
    have hcas : CasOk codec c w₁ .claim existing (existing.provisionalClaim owner) :=
      .of_bounds hm htr rfl (by decide) (Nat.le_refl _) hm.wf.start_le hm.hint_le
    have hok : ReqOk codec c w₁ t (.casCurrent .claim existing _) := hcas
    refine Protocol.wp_seq (wp_writeCurrent hok rfl) ?_ fun e w₂ h => hcalm.trans h.1.toCalm
    rintro (_ | date) w₂ ⟨hq, _⟩
    · exact hcalm.trans hq.toCalm
    · refine wp_check (fun _ htr₂ => ?_) fun e _ => hcalm.trans hq.toCalm
      have hwf := hcas.transition.wellFormed hm.wf
      have hcas₂ : CasOk codec c w₂ .claim (existing.provisionalClaim owner)
          ((existing.provisionalClaim owner).stampedClaim date) :=
        ⟨.of_assert htr₂ rfl (Nat.le_refl _) hwf.start_le, hwf,
          (hq.evolves.casOk hcas).hint_le, nofun⟩
      have hok₂ : ReqOk codec c w₂ t (.casCurrent .claim _ _) := hcas₂
      refine Protocol.wp_seq (wp_writeCurrent hok₂ rfl) ?_ ?_
      · rintro d w₃ ⟨hq₃, _⟩
        exact (hcalm.trans hq.toCalm).trans hq₃.toCalm
      · rintro e w₃ ⟨hq₃, _⟩
        exact (hcalm.trans hq.toCalm).trans hq₃.toCalm

end Baerly
