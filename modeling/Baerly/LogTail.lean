import Baerly.Storage

/-
  Reading the log: `server/src/log-tail.ts` and `server/src/log-walk.ts`.

  PROGRAM: a strict walk of a range (`walkLogRange`: a missing slot is an error), the linear
  forward probe (`probeTailChunk`, `probeTailFrom`: the first missing slot ends the log), and the
  writer's galloping search (`findLogTail`).

  SPEC: each rule below says what the program learned, slot by slot, in terms of ONE fact `F n v`
  per GET: "the read of slot `n` answered `v`".  What such a fact means — that `v` is what was
  committed there, say — is the business of the protocol that instantiates it, and the same rules
  serve every protocol.
-/

namespace Baerly

open Async

/-- `LOG_FORWARD_PROBE_CAP`. -/
def logForwardProbeCap : Nat := 100000

/-- `MAX_PARALLEL_LOG_READS`. -/
def maxParallelLogReads : Nat := 16

/-- `` `${logPrefix}/log/${seq}.json` ``, for messages. -/
def showLogKey (c : Collection) (seq : Nat) : String :=
  s!"{showKey c.collectionPrefix}/log/{seq}.json"

/-! ## Programs -/

/-- `TailProbeChunk`. -/
inductive TailProbeChunk where
  /-- Slot `tail` was empty, the entries before it were read. -/
  | exact (tail : Nat) (entries : List LogEntry)
  /-- The budget ran out with every slot occupied. -/
  | atLeast (lowerBound : Nat) (entries : List LogEntry)

/-- The loop of `probeTailChunk`, with `cap` iterations left and the entries so far. -/
def probeLoop (why : Purpose) : (cap : Nat) → (seq : Nat) → List LogEntry → Task TailProbeChunk
  | 0, seq, acc => .ret (.atLeast seq acc)
  | cap + 1, seq, acc => do
    match ← Task.getLog why seq with
    | none => .ret (.exact seq acc)
    | some entry => probeLoop why cap (seq + 1) (acc ++ [entry])

/-- `probeTailChunk`. -/
def probeTailChunk (why : Purpose) (hint : Nat) (cap : Nat) : Task TailProbeChunk :=
  probeLoop why cap hint []

/-- `probeTailFrom`: exhausting the cap throws, it never truncates. -/
def probeTailFrom (c : Collection) (why : Purpose) (hint : Nat) :
    Task (Nat × List LogEntry) := do
  match ← probeTailChunk why hint logForwardProbeCap with
  | .exact tail entries => .ret (tail, entries)
  | .atLeast _ _ => .throw (.mk .internal
      (s!"probeTailFrom: forward probe exceeded {logForwardProbeCap} from hint {hint} on " ++
        showKey c.collectionPrefix))

/-- `exists` of `findLogTail`. -/
def slotExists (seq : Nat) : Task Bool := do
  let got ← Task.getLog .tailFind seq
  .ret got.isSome

/-- The binary search of `findLogTail` between an occupied `lo` and an empty `hi`. -/
def bisect : (fuel : Nat) → (lo hi : Nat) → Task Nat
  | 0, _, hi => .ret hi
  | fuel + 1, lo, hi =>
    if hi - lo ≤ 1 then .ret hi
    else do
      let mid := lo + (hi - lo) / 2
      if ← slotExists mid then bisect fuel mid hi else bisect fuel lo mid

/-- The gallop of `findLogTail`: `lo` is occupied, `hi = lo + step` is next.  The step doubles,
    so the cap is hit within `fuel` rounds. -/
def gallop (c : Collection) (hint : Nat) : (fuel : Nat) → (lo step : Nat) → Task Nat
  | 0, _, _ => .throw (.mk .internal
      (s!"findLogTail: galloping probe exceeded {logForwardProbeCap} from hint {hint} on " ++
        showKey c.collectionPrefix))
  | fuel + 1, lo, step => do
    if ← slotExists (lo + step) then
      if logForwardProbeCap < step * 2 then
        .throw (.mk .internal
          (s!"findLogTail: galloping probe exceeded {logForwardProbeCap} from hint {hint} on " ++
            showKey c.collectionPrefix))
      else gallop c hint fuel (lo + step) (step * 2)
    else bisect step lo (lo + step)

/-- `findLogTail`. -/
def findLogTail (c : Collection) (hint : Nat) : Task Nat := do
  if ← slotExists hint then gallop c hint logForwardProbeCap hint 1 else .ret hint

/-- `readLogEntryWithBytes`, the entry part. -/
def readLogEntry (c : Collection) (why : Purpose) (seq : Nat) : Task LogEntry := do
  match ← Task.getLog why seq with
  | some entry => .ret entry
  | none => .throw (.mk .internal
      s!"log-walk: missing log entry at {showLogKey c seq}; protocol invariant violation")

/-- One chunk of the walk: up to `MAX_PARALLEL_LOG_READS` concurrent reads, put back in seq
    order. -/
def walkChunk (c : Collection) (why : Purpose) (seqs : List Nat) : Task (List LogEntry) := do
  let results ← Task.all (readLogEntry c why) seqs
  .ret (seqs.filterMap fun n => results.lookup n)

/-- The chunk loop of `walkLogRangeWithBytes`. -/
def walkLoop (c : Collection) (why : Purpose) : (fuel : Nat) → (seq stop : Nat) →
    Task (List LogEntry)
  | 0, _, _ => .ret []
  | fuel + 1, seq, stop =>
    if stop ≤ seq then .ret []
    else do
      let chunkEnd := min (seq + maxParallelLogReads) stop
      let chunk ← walkChunk c why (List.range' seq (chunkEnd - seq))
      let rest ← walkLoop c why fuel chunkEnd stop
      .ret (chunk ++ rest)

/-- `walkLogRange`: the entries of `[fromSeq, toSeqExclusive)` in seq order. -/
def walkLogRange (c : Collection) (why : Purpose) (fromSeq toSeqExclusive : Nat) :
    Task (List LogEntry) :=
  walkLoop c why (toSeqExclusive - fromSeq) fromSeq toSeqExclusive

/-! ## What the programs learn

`S` is what the caller's world may do while it reads, `C` what every single read needs to start,
and `F n v` the fact one read of slot `n` establishes when it answers `v`. -/

section Rules

variable {Call : Type} {Res : Call → Type} {M : Machine World Op Resp Err Call Res}

/-- The single-read rules a protocol must provide for the composite ones. -/
structure ReadRule (P : Protocol M) (t : Nat) (why : Purpose) (S : World → World → Prop)
    (C : World → Prop) (F : Nat → Option LogEntry → World → Prop) : Prop where
  refl : ∀ w, S w w
  trans : ∀ {a b c}, S a b → S b c → S a c
  keepC : ∀ {a b}, C a → S a b → C b
  keepF : ∀ {n v a b}, F n v a → S a b → F n v b
  get : ∀ n w, C w → P.wp t (Task.getLog why n)
    (fun r w' => S w w' ∧ ∀ v, r = .ok v → F n v w') w
  schedule : ∀ n w, C w → P.wp t (Prog.ask (.schedule n))
    (fun r w' => S w w' ∧ ∀ is : List Nat, r = .ok is → is.Perm (List.range n)) w

variable {P : Protocol M} {t : Nat} {why : Purpose} {S : World → World → Prop}
variable {C : World → Prop} {F : Nat → Option LogEntry → World → Prop} {w : World}

/-- Every entry of `es` is the answer of the read of its slot, counting from `from`. -/
def Answers (F : Nat → Option LogEntry → World → Prop) (w : World) (fromSeq : Nat)
    (es : List LogEntry) : Prop :=
  ∀ i e, es[i]? = some e → F (fromSeq + i) (some e) w

theorem Answers.nil {n : Nat} : Answers F w n [] := by
  intro i e h
  simp at h

theorem Answers.keep (R : ReadRule P t why S C F) {w' : World} {n : Nat} {es : List LogEntry}
    (h : Answers F w n es) (hS : S w w') : Answers F w' n es :=
  fun i e hi => R.keepF (h i e hi) hS

theorem Answers.append {n : Nat} {xs ys : List LogEntry} (hx : Answers F w n xs)
    (hy : Answers F w (n + xs.length) ys) : Answers F w n (xs ++ ys) := by
  intro i e hi
  rw [List.getElem?_append] at hi
  split at hi
  · exact hx i e hi
  next hge =>
    have hfact := hy (i - xs.length) e hi
    rwa [show n + xs.length + (i - xs.length) = n + i by omega] at hfact

theorem Answers.singleton {n : Nat} {e : LogEntry} (h : F n (some e) w) :
    Answers F w n [e] := by
  intro i x hi
  cases i with
  | zero => cases hi; exact h
  | succ i => simp at hi

/-- What a probe that started at `hint` knows when it returns. -/
def ProbeResult (F : Nat → Option LogEntry → World → Prop) (w : World) (hint cap : Nat) :
    TailProbeChunk → Prop
  | .exact tail entries =>
    tail = hint + entries.length ∧ entries.length ≤ cap ∧ Answers F w hint entries ∧ F tail none w
  | .atLeast bound entries =>
    bound = hint + cap ∧ entries.length = cap ∧ Answers F w hint entries

/-- The loop keeps: the entries so far answer the slots from `hint` up to `seq`. -/
theorem wp_probeLoop (R : ReadRule P t why S C F) (hint : Nat) :
    ∀ (cap : Nat) (acc : List LogEntry) (w : World), C w → Answers F w hint acc →
      P.wp t (probeLoop why cap (hint + acc.length) acc) (fun r w' => S w w' ∧
        ∀ ch, r = .ok ch → ProbeResult F w' hint (acc.length + cap) ch) w := by
  intro cap
  induction cap with
  | zero =>
    intro acc w hC hacc
    refine ⟨R.refl w, ?_⟩
    rintro ch h
    cases h
    exact ⟨by omega, by omega, hacc⟩
  | succ cap ih =>
    intro acc w hC hacc
    refine Protocol.wp_bind (Protocol.wp_mono (R.get _ w hC) ?_)
    rintro (e | v) w₁ ⟨hS₁, hF₁⟩
    · exact ⟨hS₁, fun ch h => by cases h⟩
    · have hacc₁ := hacc.keep R hS₁
      cases v with
      | none => exact ⟨hS₁, fun ch h => by cases h; exact ⟨rfl, by omega, hacc₁, hF₁ none rfl⟩⟩
      | some entry =>
        have hnext : Answers F w₁ hint (acc ++ [entry]) :=
          hacc₁.append (.singleton (hF₁ (some entry) rfl))
        have hrec := ih (acc ++ [entry]) w₁ (R.keepC hC hS₁) hnext
        rw [List.length_append, List.length_singleton, ← Nat.add_assoc] at hrec
        refine Protocol.wp_mono hrec ?_
        rintro r w₂ ⟨hS₂, hres⟩
        refine ⟨R.trans hS₁ hS₂, fun ch h => ?_⟩
        rw [show acc.length + (cap + 1) = acc.length + 1 + cap by omega]
        exact hres ch h

theorem wp_probeTailChunk (R : ReadRule P t why S C F) {hint cap : Nat} (hC : C w) :
    P.wp t (probeTailChunk why hint cap) (fun r w' => S w w' ∧
      ∀ ch, r = .ok ch → ProbeResult F w' hint cap ch) w := by
  have h := wp_probeLoop R hint cap [] w hC Answers.nil
  rw [List.length_nil, Nat.zero_add] at h
  exact h

/-- **Rule for `probeTailFrom`.** -/
theorem wp_probeTailFrom (R : ReadRule P t why S C F) {c : Collection} {hint : Nat} (hC : C w) :
    P.wp t (probeTailFrom c why hint) (fun r w' => S w w' ∧ ∀ tail entries,
      r = .ok (tail, entries) →
        tail = hint + entries.length ∧ Answers F w' hint entries ∧ F tail none w') w := by
  refine Protocol.wp_bind (Protocol.wp_mono (wp_probeTailChunk R hC) ?_)
  rintro (e | ch) w₁ ⟨hS₁, hres⟩
  · exact ⟨hS₁, fun tail entries h => by cases h⟩
  · cases ch with
    | exact tail entries =>
      refine ⟨hS₁, fun tail' entries' h => ?_⟩
      cases h
      obtain ⟨htail, -, hans, hfree⟩ := hres _ rfl
      exact ⟨htail, hans, hfree⟩
    | atLeast bound entries => exact ⟨hS₁, fun tail entries h => by cases h⟩

theorem wp_slotExists (R : ReadRule P t .tailFind S C F) {n : Nat} (hC : C w) :
    P.wp t (slotExists n) (fun r w' => S w w' ∧ ∀ b, r = .ok b →
      ∃ v, F n v w' ∧ v.isSome = b) w := by
  refine Protocol.wp_bind (Protocol.wp_mono (R.get n w hC) ?_)
  rintro (e | v) w₁ ⟨hS₁, hF₁⟩
  · exact ⟨hS₁, fun b h => by cases h⟩
  · refine ⟨hS₁, fun b h => ?_⟩
    cases h
    exact ⟨v, hF₁ v rfl, rfl⟩

/-- What `findLogTail` knows of its result: the slot was seen empty, and it is the hint or the
    slot right above one that was seen occupied. -/
def FoundTail (F : Nat → Option LogEntry → World → Prop) (w : World) (hint r : Nat) : Prop :=
  F r none w ∧ (r = hint ∨ ∃ lo e, hint ≤ lo ∧ F lo (some e) w ∧ r = lo + 1)

theorem FoundTail.le {r hint : Nat} (h : FoundTail F w hint r) : hint ≤ r := by
  rcases h.2 with h | ⟨lo, e, hle, _, rfl⟩
  · omega
  · omega

/-- The bisection keeps: `lo` was seen occupied, `hi` was seen empty. -/
theorem wp_bisect (R : ReadRule P t .tailFind S C F) (hint : Nat) :
    ∀ (fuel lo hi : Nat) (w : World), C w → hi - lo ≤ fuel → lo < hi → hint ≤ lo →
      (∃ e, F lo (some e) w) → F hi none w →
      P.wp t (bisect fuel lo hi) (fun r w' => S w w' ∧ ∀ x, r = .ok x →
        FoundTail F w' hint x) w := by
  intro fuel
  induction fuel with
  | zero => intro lo hi w _ hfuel hlt; omega
  | succ fuel ih =>
    intro lo hi w hC hfuel hlt hle hlo hhi
    by_cases hdone : hi - lo ≤ 1
    · rw [bisect, if_pos hdone]
      refine ⟨R.refl w, fun x hx => ?_⟩
      cases hx
      obtain ⟨e, he⟩ := hlo
      exact ⟨hhi, Or.inr ⟨lo, e, hle, he, by omega⟩⟩
    · rw [bisect, if_neg hdone]
      refine Protocol.wp_bind (Protocol.wp_mono (wp_slotExists R hC) ?_)
      rintro (e | b) w₁ ⟨hS₁, hb⟩
      · exact ⟨hS₁, fun x hx => by cases hx⟩
      · obtain ⟨v, hv, hvb⟩ := hb b rfl
        have hC₁ := R.keepC hC hS₁
        cases b with
        | true =>
          obtain ⟨e, rfl⟩ := Option.isSome_iff_exists.mp hvb
          refine Protocol.wp_mono (ih (lo + (hi - lo) / 2) hi w₁ hC₁ (by omega) (by omega)
            (by omega) ⟨e, hv⟩ (R.keepF hhi hS₁)) ?_
          rintro r w₂ ⟨hS₂, hr⟩
          exact ⟨R.trans hS₁ hS₂, hr⟩
        | false =>
          obtain ⟨e, he⟩ := hlo
          have hnone : v = none := by simpa using hvb
          subst hnone
          refine Protocol.wp_mono (ih lo (lo + (hi - lo) / 2) w₁ hC₁ (by omega) (by omega)
            hle ⟨e, R.keepF he hS₁⟩ hv) ?_
          rintro r w₂ ⟨hS₂, hr⟩
          exact ⟨R.trans hS₁ hS₂, hr⟩

/-- The gallop keeps: `lo` was seen occupied. -/
theorem wp_gallop (R : ReadRule P t .tailFind S C F) {c : Collection} (hint : Nat) :
    ∀ (fuel lo step : Nat) (w : World), C w → 0 < step → hint ≤ lo →
      (∃ e, F lo (some e) w) →
      P.wp t (gallop c hint fuel lo step) (fun r w' => S w w' ∧ ∀ x, r = .ok x →
        FoundTail F w' hint x) w := by
  intro fuel
  induction fuel with
  | zero => intro lo step w _ _ _ _; exact ⟨R.refl w, fun x hx => by cases hx⟩
  | succ fuel ih =>
    intro lo step w hC hstep hle hlo
    refine Protocol.wp_bind (Protocol.wp_mono (wp_slotExists R hC) ?_)
    rintro (e | b) w₁ ⟨hS₁, hb⟩
    · exact ⟨hS₁, fun x hx => by cases hx⟩
    · obtain ⟨v, hv, hvb⟩ := hb b rfl
      have hC₁ := R.keepC hC hS₁
      cases b with
      | true =>
        obtain ⟨e, rfl⟩ := Option.isSome_iff_exists.mp hvb
        simp only [if_true]
        split
        · exact ⟨hS₁, fun x hx => by cases hx⟩
        · refine Protocol.wp_mono (ih (lo + step) (step * 2) w₁ hC₁ (by omega) (by omega)
            ⟨e, hv⟩) ?_
          rintro r w₂ ⟨hS₂, hr⟩
          exact ⟨R.trans hS₁ hS₂, hr⟩
      | false =>
        have hnone : v = none := by simpa using hvb
        subst hnone
        obtain ⟨e, he⟩ := hlo
        simp only [Bool.false_eq_true, if_false]
        refine Protocol.wp_mono (wp_bisect R hint step lo (lo + step) w₁ hC₁ (by omega)
          (by omega) hle ⟨e, R.keepF he hS₁⟩ hv) ?_
        rintro r w₂ ⟨hS₂, hr⟩
        exact ⟨R.trans hS₁ hS₂, hr⟩

/-- **Rule for `findLogTail`.** -/
theorem wp_findLogTail (R : ReadRule P t .tailFind S C F) {c : Collection} {hint : Nat}
    (hC : C w) :
    P.wp t (findLogTail c hint) (fun r w' => S w w' ∧ ∀ x, r = .ok x →
      FoundTail F w' hint x) w := by
  refine Protocol.wp_bind (Protocol.wp_mono (wp_slotExists R hC) ?_)
  rintro (e | b) w₁ ⟨hS₁, hb⟩
  · exact ⟨hS₁, fun x hx => by cases hx⟩
  · obtain ⟨v, hv, hvb⟩ := hb b rfl
    cases b with
    | true =>
      obtain ⟨e, rfl⟩ := Option.isSome_iff_exists.mp hvb
      refine Protocol.wp_mono (wp_gallop R hint _ hint 1 w₁ (R.keepC hC hS₁)
        (by omega) (Nat.le_refl _) ⟨e, hv⟩) ?_
      rintro r w₂ ⟨hS₂, hr⟩
      exact ⟨R.trans hS₁ hS₂, hr⟩
    | false =>
      have hnone : v = none := by simpa using hvb
      subst hnone
      refine ⟨hS₁, fun x hx => ?_⟩
      cases hx
      exact ⟨hv, Or.inl rfl⟩

theorem filterMap_range_getElem? {α : Type} (xs : List α) :
    (List.range xs.length).filterMap (fun i => xs[i]?) = xs := by
  induction xs with
  | nil => rfl
  | cons x xs ih =>
    rw [List.length_cons, List.range_succ_eq_map, List.filterMap_cons, List.filterMap_map]
    exact congrArg (x :: ·) ih

/-- Rule for `Promise.all` over reads: a program that establishes a fact per element. -/
theorem wp_all (R : ReadRule P t why S C F) {β : Type} {f : Nat → Task β}
    {G : Nat → β → World → Prop} (keepG : ∀ {x y a b}, G x y a → S a b → G x y b)
    (xs : List Nat) (hC : C w)
    (hf : ∀ x, ∀ w, C w → P.wp t (f x) (fun r w' => S w w' ∧ ∀ b, r = .ok b → G x b w') w) :
    P.wp t (Task.all f xs) (fun r w' => S w w' ∧ ∀ ps, r = .ok ps →
      (ps.map Prod.fst).Perm xs ∧ ∀ p ∈ ps, G p.1 p.2 w') w := by
  have hsched := R.schedule xs.length w hC
  refine Protocol.wp_bind (f := fun order => Prog.gather f (order.filterMap fun i => xs[i]?))
    (Protocol.wp_mono hsched ?_)
  rintro (e | order) w₁ ⟨hS₁, hperm⟩
  · exact ⟨hS₁, fun ps h => by cases h⟩
  · refine Protocol.wp_mono (Protocol.wp_gather (F := G) R.refl R.trans R.keepC keepG _
      (R.keepC hC hS₁) (fun x _ => hf x)) ?_
    rintro r w₂ ⟨hS₂, hr⟩
    refine ⟨R.trans hS₁ hS₂, fun ps hps => ?_⟩
    obtain ⟨hkeys, hall⟩ := hr ps hps
    refine ⟨?_, hall⟩
    rw [hkeys]
    have hkept := (hperm order rfl).filterMap fun i => xs[i]?
    rwa [filterMap_range_getElem?] at hkept

theorem wp_readLogEntry (R : ReadRule P t why S C F) {c : Collection} {n : Nat} (hC : C w) :
    P.wp t (readLogEntry c why n) (fun r w' => S w w' ∧ ∀ e, r = .ok e → F n (some e) w') w := by
  refine Protocol.wp_bind (Protocol.wp_mono (R.get n w hC) ?_)
  rintro (e | v) w₁ ⟨hS₁, hF₁⟩
  · exact ⟨hS₁, fun x hx => by cases hx⟩
  · cases v with
    | none => exact ⟨hS₁, fun x hx => by cases hx⟩
    | some e =>
      refine ⟨hS₁, fun x hx => ?_⟩
      cases hx
      exact hF₁ _ rfl

theorem lookup_isSome_of_mem {β : Type} {n : Nat} {ps : List (Nat × β)}
    (h : n ∈ ps.map Prod.fst) : ∃ b, ps.lookup n = some b := by
  induction ps with
  | nil => cases h
  | cons p ps ih =>
    obtain ⟨k, b⟩ := p
    by_cases hk : n = k
    · exact ⟨b, hk ▸ InsMap.lookup_cons_self k b ps⟩
    · rw [InsMap.lookup_cons_ne hk]
      refine ih ?_
      rcases List.mem_cons.mp h with h | h
      · exact absurd h hk
      · exact h

/-- Picking answers for a run of consecutive slots keeps their positions. -/
theorem filterMap_range'_getElem? {β : Type} {f : Nat → Option β} (len : Nat) :
    ∀ a, (∀ n ∈ List.range' a len, ∃ b, f n = some b) →
      ((List.range' a len).filterMap f).length = len ∧
      ∀ i b, ((List.range' a len).filterMap f)[i]? = some b → f (a + i) = some b := by
  induction len with
  | zero => intro a _; simp
  | succ len ih =>
    intro a h
    obtain ⟨b₀, hb₀⟩ := h a (by simp)
    obtain ⟨hlen, hget⟩ := ih (a + 1) fun n hn => h n (by
      rw [List.mem_range'_1] at hn ⊢
      omega)
    rw [List.range'_succ, List.filterMap_cons, hb₀]
    refine ⟨by simp [hlen], ?_⟩
    intro i b hi
    cases i with
    | zero => cases hi; exact hb₀
    | succ i =>
      have := hget i b hi
      rwa [show a + 1 + i = a + (i + 1) by omega] at this

theorem wp_walkChunk (R : ReadRule P t why S C F) {c : Collection} {seq len : Nat} (hC : C w) :
    P.wp t (walkChunk c why (List.range' seq len)) (fun r w' => S w w' ∧ ∀ es, r = .ok es →
      es.length = len ∧ Answers F w' seq es) w := by
  refine Protocol.wp_bind (Protocol.wp_mono (wp_all R (G := fun n e w => F n (some e) w) R.keepF
    (List.range' seq len) hC fun x w hw => wp_readLogEntry R hw) ?_)
  rintro (e | ps) w₁ ⟨hS₁, hps⟩
  · exact ⟨hS₁, fun x hx => by cases hx⟩
  · refine ⟨hS₁, fun es hes => ?_⟩
    cases hes
    obtain ⟨hperm, hall⟩ := hps ps rfl
    -- every slot of the chunk has its answer, so nothing is dropped when they are put in order
    obtain ⟨hlen, hget⟩ := filterMap_range'_getElem? len seq fun n hn =>
      lookup_isSome_of_mem (hperm.mem_iff.mpr hn)
    refine ⟨hlen, fun i e hi => ?_⟩
    exact hall _ (InsMap.mem_of_lookup_eq_some (hget i e hi))

/-- The chunk loop keeps its place: the result answers the slots from `seq` on. -/
theorem wp_walkLoop (R : ReadRule P t why S C F) {c : Collection} (stop : Nat) :
    ∀ (fuel seq : Nat) (w : World), C w → stop - seq ≤ fuel →
      P.wp t (walkLoop c why fuel seq stop) (fun r w' => S w w' ∧ ∀ es, r = .ok es →
        es.length = stop - seq ∧ Answers F w' seq es) w := by
  intro fuel
  induction fuel with
  | zero =>
    intro seq w hC hfuel
    refine ⟨R.refl w, fun es hes => ?_⟩
    cases hes
    exact ⟨by simp; omega, .nil⟩
  | succ fuel ih =>
    intro seq w hC hfuel
    by_cases hstop : stop ≤ seq
    · rw [walkLoop, if_pos hstop]
      refine ⟨R.refl w, fun es hes => ?_⟩
      cases hes
      exact ⟨by simp; omega, .nil⟩
    · rw [walkLoop, if_neg hstop]
      have hpar : 0 < maxParallelLogReads := by decide
      refine Protocol.wp_bind (Protocol.wp_mono (wp_walkChunk R hC) ?_)
      rintro (e | chunk) w₁ ⟨hS₁, hchunk⟩
      · exact ⟨hS₁, fun x hx => by cases hx⟩
      · obtain ⟨hlen, hans⟩ := hchunk chunk rfl
        refine Protocol.wp_bind (Protocol.wp_mono
          (ih (min (seq + maxParallelLogReads) stop) w₁ (R.keepC hC hS₁) (by omega)) ?_)
        rintro (e | rest) w₂ ⟨hS₂, hrest⟩
        · exact ⟨R.trans hS₁ hS₂, fun x hx => by cases hx⟩
        · obtain ⟨hlen₂, hans₂⟩ := hrest rest rfl
          refine ⟨R.trans hS₁ hS₂, fun es hes => ?_⟩
          cases hes
          refine ⟨by rw [List.length_append]; omega, (hans.keep R hS₂).append ?_⟩
          rwa [hlen, show seq + (min (seq + maxParallelLogReads) stop - seq) =
            min (seq + maxParallelLogReads) stop by omega]

/-- **Rule for `walkLogRange`.** -/
theorem wp_walkLogRange (R : ReadRule P t why S C F) {c : Collection} {fromSeq stop : Nat}
    (hC : C w) :
    P.wp t (walkLogRange c why fromSeq stop) (fun r w' => S w w' ∧ ∀ es, r = .ok es →
      es.length = stop - fromSeq ∧ Answers F w' fromSeq es) w :=
  wp_walkLoop R stop (stop - fromSeq) fromSeq w hC (Nat.le_refl _)

end Rules

end Baerly
