import Baerly.LogTail

/-
  The writer's tail and the readers' tail.

  PROGRAM: `findLogTail` gallops from the hint and bisects; `probeTailFrom` reads slot after slot.
  Both give up at `LOG_FORWARD_PROBE_CAP`, the gallop by its STEP and the walk by its COUNT.

  SPEC (`tails_agree_iff`): on a log that is occupied exactly up to `tail`, the two agree when the
  gap from the hint is below `100000` or at least `131072`, and only then.

  SPEC (`tails_exact`): below the readers' cap both are exact; and on a log that grows at its tail
  while it is probed, the answer lies between the tail at the start and the tail at the end.

  CRUX: after `k` doublings the gallop has seen slot `hint + 2^k - 1` occupied, so the step passes
  the cap only once slot `hint + 131071` is.  The walk stops at slot `hint + 99999`.
-/

namespace Baerly

open Async

/-- Nobody writes while the log is probed, and reads succeed: every read of slot `n` answers what
    stands there. -/
structure StillLog (log : Nat → Option LogEntry) (answer : (op : Op) → Resp op) : Prop where
  reads : ∀ why n, answer (.getLog why n) = .ok (log n)

/-- The log is occupied from the hint up to `tail`, and nowhere above. -/
structure DenseFrom (log : Nat → Option LogEntry) (hint tail : Nat) : Prop where
  le : hint ≤ tail
  occupied : ∀ n, hint ≤ n → ((log n).isSome ↔ n < tail)

section Probes

variable {log : Nat → Option LogEntry} {answer : (op : Op) → Resp op} {hint tail : Nat}

theorem eval_getLog (hq : StillLog log answer) (why : Purpose) (n : Nat) :
    (Task.getLog why n).eval answer = .ok (log n) := by
  show (Task.ofExcept (answer (.getLog why n))).eval answer = .ok (log n)
  rw [hq.reads why n]
  rfl

theorem eval_slotExists (hq : StillLog log answer) (hd : DenseFrom log hint tail) {n : Nat}
    (hn : hint ≤ n) : (slotExists n).eval answer = .ok (decide (n < tail)) := by
  have hocc : (log n).isSome = decide (n < tail) := by
    rw [Bool.eq_iff_iff, hd.occupied n hn, decide_eq_true_iff]
  show ((Task.getLog .tailFind n).bind fun got => .ret got.isSome).eval answer = _
  rw [Prog.eval_bind, eval_getLog hq]
  show Except.ok (log n).isSome = _
  rw [hocc]

/-! ## The gallop -/

/-- The bisection finds the tail: `lo` stays below it, `hi` at or above it. -/
theorem eval_bisect (hq : StillLog log answer) (hd : DenseFrom log hint tail) :
    ∀ fuel lo hi, hi - lo ≤ fuel → hint ≤ lo → lo < tail → tail ≤ hi →
      (bisect fuel lo hi).eval answer = .ok tail := by
  intro fuel
  induction fuel with
  | zero => intro lo hi hfuel _ hlo hhi; omega
  | succ fuel ih =>
    intro lo hi hfuel hle hlo hhi
    by_cases hdone : hi - lo ≤ 1
    · rw [bisect, if_pos hdone, Prog.eval_ret, show hi = tail by omega]
    · rw [bisect, if_neg hdone]
      show (Prog.bind (slotExists (lo + (hi - lo) / 2)) _).eval answer = _
      rw [Prog.eval_bind, eval_slotExists hq hd (by omega)]
      by_cases hmid : lo + (hi - lo) / 2 < tail
      · rw [decide_eq_true hmid]
        exact ih _ hi (by omega) (by omega) hmid hhi
      · rw [decide_eq_false hmid]
        exact ih lo _ (by omega) hle hlo (by omega)

/-- A rejection of the runaway guard. -/
def CapError {α : Type} (r : Except Err α) : Prop :=
  ∃ message, r = .error (.mk .internal message)

/-- One round of the gallop. -/
theorem eval_gallop_succ (hq : StillLog log answer) (hd : DenseFrom log hint tail) (c : Collection)
    (fuel lo step : Nat) (hle : hint ≤ lo) :
    (lo + step < tail → logForwardProbeCap < step * 2 →
      CapError ((gallop c hint (fuel + 1) lo step).eval answer)) ∧
    (lo + step < tail → step * 2 ≤ logForwardProbeCap →
      (gallop c hint (fuel + 1) lo step).eval answer =
        (gallop c hint fuel (lo + step) (step * 2)).eval answer) ∧
    (tail ≤ lo + step → lo < tail → (gallop c hint (fuel + 1) lo step).eval answer = .ok tail) := by
  have hround : (gallop c hint (fuel + 1) lo step).eval answer =
      (if decide (lo + step < tail) then
        if logForwardProbeCap < step * 2 then
          .throw (.mk .internal (s!"findLogTail: galloping probe exceeded {logForwardProbeCap} " ++
            s!"from hint {hint} on " ++ showKey c.collectionPrefix))
        else gallop c hint fuel (lo + step) (step * 2)
      else bisect step lo (lo + step) : Task Nat).eval answer := by
    show (Prog.bind (slotExists (lo + step)) _).eval answer = _
    rw [Prog.eval_bind, eval_slotExists hq hd (by omega)]
    rfl
  rw [hround]
  refine ⟨fun hlt hcap => ?_, fun hlt hcap => ?_, fun hge hlo => ?_⟩
  · rw [if_pos (decide_eq_true hlt), if_pos hcap]
    exact ⟨_, rfl⟩
  · rw [if_pos (decide_eq_true hlt), if_neg (by omega)]
  · rw [if_neg (by simpa using hge)]
    exact eval_bisect hq hd step lo _ (by omega) hle hlo hge

/-- The gallop from its `k`-th doubling: it finds a tail below `hint + 131072`, and gives up
    beyond. -/
theorem eval_gallop (hq : StillLog log answer) (hd : DenseFrom log hint tail) (c : Collection) :
    ∀ j k fuel lo, j + k = 16 → j < fuel → lo + 1 = hint + 2 ^ k → lo < tail →
      (tail < hint + 131072 → (gallop c hint fuel lo (2 ^ k)).eval answer = .ok tail) ∧
      (hint + 131072 ≤ tail → CapError ((gallop c hint fuel lo (2 ^ k)).eval answer)) := by
  intro j
  induction j with
  | zero =>
    intro k fuel lo hk hfuel hlo hlt
    obtain rfl : k = 16 := by omega
    obtain ⟨fuel, rfl⟩ := Nat.exists_eq_succ_of_ne_zero (by omega : fuel ≠ 0)
    obtain ⟨hcap, -, hfound⟩ := eval_gallop_succ hq hd c fuel lo (2 ^ 16) (by omega)
    exact ⟨fun htail => hfound (by omega) hlt, fun htail => hcap (by omega) (by decide)⟩
  | succ j ih =>
    intro k fuel lo hk hfuel hlo hlt
    obtain ⟨fuel, rfl⟩ := Nat.exists_eq_succ_of_ne_zero (by omega : fuel ≠ 0)
    have hpos : 0 < 2 ^ k := Nat.two_pow_pos k
    have hpow : 2 ^ (k + 1) = 2 ^ k * 2 := Nat.pow_succ 2 k
    have hbound : 2 ^ (k + 1) ≤ 2 ^ 16 := Nat.pow_le_pow_right (by decide) (by omega)
    have hsmall : 2 ^ k * 2 ≤ logForwardProbeCap := by
      show 2 ^ k * 2 ≤ 100000
      omega
    obtain ⟨-, hnext, hfound⟩ := eval_gallop_succ hq hd c fuel lo (2 ^ k) (by omega)
    by_cases hocc : lo + 2 ^ k < tail
    · rw [hnext hocc hsmall, ← hpow]
      exact ih (k + 1) fuel (lo + 2 ^ k) (by omega) (by omega) (by omega) hocc
    · refine ⟨fun _ => hfound (by omega) hlt, fun htail => ?_⟩
      omega

/-- **The writer's reach**: a tail less than `131072` past the hint. -/
theorem eval_findLogTail (hq : StillLog log answer) (hd : DenseFrom log hint tail) (c : Collection) :
    (tail < hint + 131072 → (findLogTail c hint).eval answer = .ok tail) ∧
    (hint + 131072 ≤ tail → CapError ((findLogTail c hint).eval answer)) := by
  have hstart : (findLogTail c hint).eval answer =
      (if decide (hint < tail) then gallop c hint logForwardProbeCap hint 1
        else .ret hint : Task Nat).eval answer := by
    show (Prog.bind (slotExists hint) _).eval answer = _
    rw [Prog.eval_bind, eval_slotExists hq hd (Nat.le_refl hint)]
    rfl
  have hle := hd.le
  rw [hstart]
  by_cases hlt : hint < tail
  · rw [if_pos (decide_eq_true hlt)]
    exact eval_gallop hq hd c 16 0 logForwardProbeCap hint rfl (by decide) rfl hlt
  · rw [if_neg (by simpa using hlt), Prog.eval_ret]
    exact ⟨fun _ => by rw [show hint = tail by omega], fun htail => by omega⟩

/-! ## The walk -/

/-- A round of the loop, once the slot has answered. -/
def probeRound (why : Purpose) (cap seq : Nat) (acc : List LogEntry) :
    Option LogEntry → Task TailProbeChunk
  | none => .ret (.exact seq acc)
  | some entry => probeLoop why cap (seq + 1) (acc ++ [entry])

/-- The loop from slot `seq` with `cap` reads left. -/
theorem eval_probeLoop (hq : StillLog log answer) (hd : DenseFrom log hint tail) (why : Purpose) :
    ∀ cap seq acc, hint ≤ seq → seq ≤ tail →
      (tail < seq + cap → ∃ entries, (probeLoop why cap seq acc).eval answer =
        .ok (.exact tail entries)) ∧
      (seq + cap ≤ tail → ∃ entries, (probeLoop why cap seq acc).eval answer =
        .ok (.atLeast (seq + cap) entries)) := by
  intro cap
  induction cap with
  | zero =>
    intro seq acc hle htail
    exact ⟨fun h => by omega, fun _ => ⟨acc, rfl⟩⟩
  | succ cap ih =>
    intro seq acc hle htail
    have hround : (probeLoop why (cap + 1) seq acc).eval answer =
        (probeRound why cap seq acc (log seq)).eval answer := by
      show (Prog.bind (Task.getLog why seq) _).eval answer = _
      rw [Prog.eval_bind, eval_getLog hq]
      rfl
    rw [hround]
    cases hslot : log seq with
    | none =>
      have hempty : ¬ seq < tail := by
        rw [← hd.occupied seq hle, hslot]
        simp
      exact ⟨fun _ => ⟨acc, by rw [show tail = seq by omega]; rfl⟩, fun h => by omega⟩
    | some entry =>
      have hocc : seq < tail := by
        rw [← hd.occupied seq hle, hslot]
        rfl
      obtain ⟨hexact, hbound⟩ := ih (seq + 1) (acc ++ [entry]) (by omega) (by omega)
      refine ⟨fun h => hexact (by omega), fun h => ?_⟩
      obtain ⟨entries, heval⟩ := hbound (by omega)
      exact ⟨entries, by rw [show seq + (cap + 1) = seq + 1 + cap by omega]; exact heval⟩

/-- **The readers' reach**: a tail less than `100000` past the hint. -/
theorem eval_probeTailFrom (hq : StillLog log answer) (hd : DenseFrom log hint tail) (c : Collection)
    (why : Purpose) :
    (tail < hint + logForwardProbeCap →
      ∃ entries, (probeTailFrom c why hint).eval answer = .ok (tail, entries)) ∧
    (hint + logForwardProbeCap ≤ tail → CapError ((probeTailFrom c why hint).eval answer)) := by
  obtain ⟨hexact, hbound⟩ :=
    eval_probeLoop hq hd why logForwardProbeCap hint [] (Nat.le_refl hint) hd.le
  constructor
  · intro h
    obtain ⟨entries, heval⟩ := hexact h
    refine ⟨entries, ?_⟩
    show (Prog.bind (probeTailChunk why hint logForwardProbeCap) _).eval answer = _
    rw [Prog.eval_bind, probeTailChunk, heval]
    rfl
  · intro h
    obtain ⟨entries, heval⟩ := hbound h
    show CapError ((Prog.bind (probeTailChunk why hint logForwardProbeCap) _).eval answer)
    rw [Prog.eval_bind, probeTailChunk, heval]
    exact ⟨_, rfl⟩

/-! ## Agreement -/

/-- The two find the same tail, or both give up. -/
def TailsAgree (answer : (op : Op) → Resp op) (c : Collection) (why : Purpose) (hint : Nat) : Prop :=
  (∃ tail entries, (findLogTail c hint).eval answer = .ok tail ∧
    (probeTailFrom c why hint).eval answer = .ok (tail, entries)) ∨
  (CapError ((findLogTail c hint).eval answer) ∧
    CapError ((probeTailFrom c why hint).eval answer))

theorem CapError.ne_ok {α : Type} {r : Except Err α} (h : CapError r) (a : α) : r ≠ .ok a := by
  obtain ⟨message, rfl⟩ := h
  rintro ⟨⟩

end Probes

/-- **Writer and readers agree on the tail** iff the gap is within both caps or beyond both. -/
theorem tails_agree_iff (log : Nat → Option LogEntry) (answer : (op : Op) → Resp op)
    (hint tail : Nat) (c : Collection) (why : Purpose) (hq : StillLog log answer)
    (hd : DenseFrom log hint tail) :
    TailsAgree answer c why hint ↔ tail - hint < 100000 ∨ 131072 ≤ tail - hint := by
  obtain ⟨hfound, hgave⟩ := eval_findLogTail hq hd c
  obtain ⟨hread, hlost⟩ := eval_probeTailFrom hq hd c why
  rw [show logForwardProbeCap = 100000 from rfl] at hread hlost
  have hle := hd.le
  constructor
  · intro hagree
    by_contra hgap
    -- between the caps the gallop answers and the walk gives up
    have hwriter := hfound (by omega)
    have hreader := hlost (by omega)
    rcases hagree with ⟨tail', entries, -, hok⟩ | ⟨hcap, -⟩
    · exact hreader.ne_ok _ hok
    · exact hcap.ne_ok _ hwriter
  · rintro (hnear | hfar)
    · obtain ⟨entries, hok⟩ := hread (by omega)
      exact Or.inl ⟨tail, entries, hfound (by omega), hok⟩
    · exact Or.inr ⟨hgave (by omega), hlost (by omega)⟩

/-- A bucket that holds a log and nothing else, and is only read. -/
def logAnswers (log : Nat → Option LogEntry) : (op : Op) → Resp op
  | .getCurrent => .ok none
  | .getLog _ n => .ok (log n)
  | .getSnapshot _ => .ok none
  | .getPending => .ok none
  | .listSnapshots _ => .ok []
  | .send _ => 0
  | .await _ => .ok none
  | .now => 0
  | .mintGeneration => []
  | .schedule n => List.range n
  | .aborted => false

/-- A log of `tail` deletes. -/
def deletesUpTo (tail n : Nat) : Option LogEntry :=
  if n < tail then some ⟨⟨0, 0, n⟩, 0, .D, js "c", js "x", none, none, 0, n⟩ else none

theorem deletesUpTo_dense {hint tail : Nat} (h : hint ≤ tail) :
    DenseFrom (deletesUpTo tail) hint tail := by
  refine ⟨h, fun n _ => ?_⟩
  unfold deletesUpTo
  by_cases hn : n < tail
  · simp [hn]
  · simp [hn]

theorem tails_agree_iff_three :
    TailsAgree (logAnswers (deletesUpTo 3)) ⟨js "a/current.json"⟩ .scan 1 ↔
      3 - 1 < 100000 ∨ 131072 ≤ 3 - 1 :=
  tails_agree_iff (deletesUpTo 3) _ 1 3 _ _ ⟨fun _ _ => rfl⟩ (deletesUpTo_dense (by decide))

/-- With `100000` entries above the hint the writer finds the tail and no reader does. -/
theorem tails_disagree_at_cap :
    ∃ (log : Nat → Option LogEntry) (answer : (op : Op) → Resp op) (hint tail : Nat)
      (c : Collection), StillLog log answer ∧ DenseFrom log hint tail ∧
      (findLogTail c hint).eval answer = .ok tail ∧
      (∃ message, (probeTailFrom c .scan hint).eval answer = .error (.mk .internal message)) ∧
      ¬ TailsAgree answer c .scan hint := by
  have hq : StillLog (deletesUpTo 100000) (logAnswers (deletesUpTo 100000)) := ⟨fun _ _ => rfl⟩
  have hd : DenseFrom (deletesUpTo 100000) 0 100000 := deletesUpTo_dense (by decide)
  have hwriter := (eval_findLogTail hq hd ⟨js "a/current.json"⟩).1 (by decide)
  have hreader := (eval_probeTailFrom hq hd ⟨js "a/current.json"⟩ .scan).2 (by decide)
  refine ⟨_, _, 0, 100000, _, hq, hd, hwriter, hreader, ?_⟩
  rintro (⟨tail, entries, -, hok⟩ | ⟨hcap, -⟩)
  · exact hreader.ne_ok _ hok
  · exact hcap.ne_ok _ hwriter

/-! ## A log that grows while it is probed -/

/-- At moment `t` the log is occupied from `floor` up to `tail t` and nowhere above; slots are only
    ever added at the tail. -/
structure GrowingLog (log : Nat → Nat → Option LogEntry) (answer : Nat → (op : Op) → Resp op)
    (floor : Nat) (tail : Nat → Nat) : Prop where
  reads : ∀ t why n, answer t (.getLog why n) = .ok (log t n)
  occupied : ∀ t n, floor ≤ n → ((log t n).isSome ↔ n < tail t)
  grows : ∀ t, tail t ≤ tail (t + 1)

section Growing

variable {log : Nat → Nat → Option LogEntry} {answer : Nat → (op : Op) → Resp op}
variable {floor hint : Nat} {tail : Nat → Nat}

theorem GrowingLog.le (hg : GrowingLog log answer floor tail) {t t' : Nat} (h : t ≤ t') :
    tail t ≤ tail t' := by
  induction t' with
  | zero => rw [show t = 0 by omega]
  | succ n ih =>
    have hstep := hg.grows n
    by_cases hlast : t = n + 1
    · rw [hlast]
    · have hle := ih (by omega)
      omega

theorem evalFrom_getLog (hg : GrowingLog log answer floor tail) (t : Nat) (why : Purpose) (n : Nat) :
    (Task.getLog why n).evalFrom answer t = (.ok (log t n), t + 1) := by
  show (Task.ofExcept (answer t (.getLog why n))).evalFrom answer (t + 1) = _
  rw [hg.reads t why n]
  rfl

theorem evalFrom_slotExists (hg : GrowingLog log answer floor tail) (t : Nat) {n : Nat}
    (hn : floor ≤ n) : (slotExists n).evalFrom answer t = (.ok (decide (n < tail t)), t + 1) := by
  have hocc : (log t n).isSome = decide (n < tail t) := by
    rw [Bool.eq_iff_iff, hg.occupied t n hn, decide_eq_true_iff]
  show ((Task.getLog .tailFind n).bind fun got => .ret got.isSome).evalFrom answer t = _
  rw [Prog.evalFrom_bind (evalFrom_getLog hg t .tailFind n), hocc]
  rfl

/-- The position a probe that began at moment `0` returns: the tail at some moment of the run. -/
def Between (tail : Nat → Nat) (r : Nat) (t : Nat) : Prop :=
  tail 0 ≤ r ∧ r ≤ tail t

/-- The bisection keeps: `lo` is occupied, and `hi` was seen empty. -/
theorem evalFrom_bisect (hg : GrowingLog log answer floor tail) :
    ∀ fuel lo hi t, hi - lo ≤ fuel → floor ≤ lo → lo < hi → lo < tail t → tail 0 ≤ hi →
      ∃ r t', (bisect fuel lo hi).evalFrom answer t = (.ok r, t') ∧ Between tail r t' := by
  intro fuel
  induction fuel with
  | zero => intro lo hi t hfuel _ hlt; omega
  | succ fuel ih =>
    intro lo hi t hfuel hfloor hlt hlo hhi
    by_cases hdone : hi - lo ≤ 1
    · rw [bisect, if_pos hdone]
      exact ⟨hi, t, rfl, hhi, by omega⟩
    · rw [bisect, if_neg hdone]
      have hread := evalFrom_slotExists hg t (show floor ≤ lo + (hi - lo) / 2 by omega)
      have hnext := hg.grows t
      have hstart := hg.le (Nat.zero_le t)
      show ∃ r t', (Prog.bind (slotExists (lo + (hi - lo) / 2)) _).evalFrom answer t = _ ∧ _
      rw [Prog.evalFrom_bind hread]
      by_cases hmid : lo + (hi - lo) / 2 < tail t
      · rw [decide_eq_true hmid]
        exact ih _ hi (t + 1) (by omega) (by omega) (by omega) (by omega) hhi
      · rw [decide_eq_false hmid]
        exact ih lo _ (t + 1) (by omega) hfloor (by omega) (by omega) (by omega)

/-- The gallop: `lo` is occupied, and `step - 1` slots lie between the hint and it.  It returns a
    position in between, or gives up; it does not give up while the tail stays below the cap. -/
theorem evalFrom_gallop (hg : GrowingLog log answer floor tail) (c : Collection)
    (hfloor : floor ≤ hint) :
    ∀ fuel lo step t, 0 < step → lo + 1 = hint + step → lo < tail t →
      ∃ res t', (gallop c hint fuel lo step).evalFrom answer t = (res, t') ∧
        (∀ r, res = .ok r → Between tail r t') ∧
        ((∀ s, tail s < hint + logForwardProbeCap) → step ≤ logForwardProbeCap →
          logForwardProbeCap < step + fuel → ∃ r, res = .ok r) := by
  intro fuel
  induction fuel with
  | zero =>
    intro lo step t hstep hlo hocc
    refine ⟨_, t, rfl, fun r hr => (by cases hr), fun _ hle hlt => ?_⟩
    omega
  | succ fuel ih =>
    intro lo step t hstep hlo hocc
    have hread := evalFrom_slotExists hg t (show floor ≤ lo + step by omega)
    have hnext := hg.grows t
    have hstart := hg.le (Nat.zero_le t)
    show ∃ res t', (Prog.bind (slotExists (lo + step)) _).evalFrom answer t = _ ∧ _
    rw [Prog.evalFrom_bind hread]
    by_cases hhi : lo + step < tail t
    · rw [decide_eq_true hhi]
      simp only [if_true]
      by_cases hcap : logForwardProbeCap < step * 2
      · rw [if_pos hcap]
        refine ⟨_, t + 1, rfl, fun r hr => (by cases hr), fun hbelow _ _ => ?_⟩
        have hb := hbelow t
        omega
      · rw [if_neg hcap]
        obtain ⟨res, t', hrun, hbetween, hreturns⟩ :=
          ih (lo + step) (step * 2) (t + 1) (by omega) (by omega) (by omega)
        refine ⟨res, t', hrun, hbetween, fun hbelow hle hlt => ?_⟩
        exact hreturns hbelow (by omega) (by omega)
    · rw [decide_eq_false hhi]
      simp only [Bool.false_eq_true, if_false]
      obtain ⟨r, t', hrun, hbetween⟩ := evalFrom_bisect hg step lo (lo + step) (t + 1) (by omega)
        (by omega) (by omega) (by omega) (by omega)
      refine ⟨.ok r, t', hrun, fun r' hr => ?_, fun _ _ _ => ⟨r, rfl⟩⟩
      cases hr
      exact hbetween

/-- **The writer's search on a growing log.** -/
theorem evalFrom_findLogTail (hg : GrowingLog log answer floor tail) (c : Collection)
    (hfloor : floor ≤ hint) (hhint : hint ≤ tail 0) :
    ∃ res t', (findLogTail c hint).evalFrom answer 0 = (res, t') ∧
      (∀ r, res = .ok r → Between tail r t') ∧
      ((∀ s, tail s < hint + logForwardProbeCap) → ∃ r, res = .ok r) := by
  have hread := evalFrom_slotExists hg 0 hfloor
  have hnext := hg.grows 0
  show ∃ res t', (Prog.bind (slotExists hint) _).evalFrom answer 0 = _ ∧ _
  rw [Prog.evalFrom_bind hread]
  by_cases hocc : hint < tail 0
  · rw [decide_eq_true hocc]
    obtain ⟨res, t', hrun, hbetween, hreturns⟩ := evalFrom_gallop hg c hfloor logForwardProbeCap
      hint 1 (0 + 1) (by decide) rfl (by omega)
    exact ⟨res, t', hrun, hbetween, fun hbelow => hreturns hbelow (by decide) (by omega)⟩
  · rw [decide_eq_false hocc]
    refine ⟨.ok hint, 0 + 1, rfl, fun r hr => ?_, fun _ => ⟨hint, rfl⟩⟩
    cases hr
    exact ⟨by omega, by omega⟩

/-- The walk keeps: the slots up to `seq` are occupied. -/
theorem evalFrom_probeLoop (hg : GrowingLog log answer floor tail) (why : Purpose) :
    ∀ cap seq acc t, floor ≤ seq → seq ≤ tail t →
      (∃ r entries t', (probeLoop why cap seq acc).evalFrom answer t =
        (.ok (.exact r entries), t') ∧ Between tail r t') ∨
      (∃ entries t', (probeLoop why cap seq acc).evalFrom answer t =
        (.ok (.atLeast (seq + cap) entries), t') ∧ seq + cap ≤ tail t') := by
  intro cap
  induction cap with
  | zero =>
    intro seq acc t _ htail
    exact Or.inr ⟨acc, t, rfl, htail⟩
  | succ cap ih =>
    intro seq acc t hfloor htail
    have hnext := hg.grows t
    have hstart := hg.le (Nat.zero_le t)
    have hround : (probeLoop why (cap + 1) seq acc).evalFrom answer t =
        (probeRound why cap seq acc (log t seq)).evalFrom answer (t + 1) := by
      show (Prog.bind (Task.getLog why seq) _).evalFrom answer t = _
      exact (Prog.evalFrom_bind (evalFrom_getLog hg t why seq) _).trans rfl
    rw [hround]
    cases hslot : log t seq with
    | none =>
      have hempty : ¬ seq < tail t := by
        rw [← hg.occupied t seq hfloor, hslot]
        simp
      exact Or.inl ⟨seq, acc, t + 1, rfl, by omega, by omega⟩
    | some entry =>
      have hocc : seq < tail t := by
        rw [← hg.occupied t seq hfloor, hslot]
        rfl
      have hrest := ih (seq + 1) (acc ++ [entry]) (t + 1) (by omega) (by omega)
      rwa [show seq + 1 + cap = seq + (cap + 1) by omega] at hrest

/-- **The readers' walk on a growing log.** -/
theorem evalFrom_probeTailFrom (hg : GrowingLog log answer floor tail) (c : Collection)
    (why : Purpose) (hfloor : floor ≤ hint) (hhint : hint ≤ tail 0) :
    ∃ res t', (probeTailFrom c why hint).evalFrom answer 0 = (res, t') ∧
      (∀ r entries, res = .ok (r, entries) → Between tail r t') ∧
      ((∀ s, tail s < hint + logForwardProbeCap) → ∃ r entries, res = .ok (r, entries)) := by
  show ∃ res t', (Prog.bind (probeTailChunk why hint logForwardProbeCap) _).evalFrom answer 0 = _ ∧ _
  rcases evalFrom_probeLoop hg why logForwardProbeCap hint [] 0 hfloor hhint with
    ⟨r, entries, t', hrun, hbetween⟩ | ⟨entries, t', hrun, hfar⟩
  · rw [probeTailChunk, Prog.evalFrom_bind hrun]
    refine ⟨_, t', rfl, fun r' entries' hr => ?_, fun _ => ⟨r, entries, rfl⟩⟩
    cases hr
    exact hbetween
  · rw [probeTailChunk, Prog.evalFrom_bind hrun]
    refine ⟨_, t', rfl, fun r' entries' hr => (by cases hr), fun hbelow => ?_⟩
    have hb := hbelow t'
    omega

end Growing

/-- **Tail finding is exact** below the cap, which counts the read that misses.  On a log that grows
    at its tail, what is returned was the tail at some moment of the run. -/
theorem tails_exact (c : Collection) (why : Purpose) (floor hint : Nat) (hfloor : floor ≤ hint) :
    (∀ (log : Nat → Option LogEntry) (answer : (op : Op) → Resp op) (tail : Nat),
      StillLog log answer → DenseFrom log floor tail → hint ≤ tail →
      tail - hint < logForwardProbeCap →
      (findLogTail c hint).eval answer = .ok tail ∧
        ∃ entries, (probeTailFrom c why hint).eval answer = .ok (tail, entries)) ∧
    (∀ (log : Nat → Nat → Option LogEntry) (answer : Nat → (op : Op) → Resp op) (tail : Nat → Nat),
      GrowingLog log answer floor tail → hint ≤ tail 0 →
      (∃ res t, (findLogTail c hint).evalFrom answer 0 = (res, t) ∧
        (∀ r, res = .ok r → tail 0 ≤ r ∧ r ≤ tail t) ∧
        ((∀ s, tail s - hint < logForwardProbeCap) → ∃ r, res = .ok r)) ∧
      (∃ res t, (probeTailFrom c why hint).evalFrom answer 0 = (res, t) ∧
        (∀ r entries, res = .ok (r, entries) → tail 0 ≤ r ∧ r ≤ tail t) ∧
        ((∀ s, tail s - hint < logForwardProbeCap) → ∃ r entries, res = .ok (r, entries)))) := by
  have hcap : logForwardProbeCap = 100000 := rfl
  constructor
  · intro log answer tail hq hd hle hgap
    have hd' : DenseFrom log hint tail := ⟨hle, fun n hn => hd.occupied n (by omega)⟩
    exact ⟨(eval_findLogTail hq hd' c).1 (by omega), (eval_probeTailFrom hq hd' c why).1 (by omega)⟩
  · intro log answer tail hg hle
    obtain ⟨res, t, hrun, hbetween, hreturns⟩ := evalFrom_findLogTail hg c hfloor hle
    obtain ⟨res', t', hrun', hbetween', hreturns'⟩ := evalFrom_probeTailFrom hg c why hfloor hle
    exact ⟨⟨res, t, hrun, hbetween, fun h => hreturns fun s => by have := h s; omega⟩,
      ⟨res', t', hrun', hbetween', fun h => hreturns' fun s => by have := h s; omega⟩⟩

/-- A log of three deletes probed from its second slot, and one that grows by one at each read. -/
theorem tails_exact_three :
    (findLogTail ⟨js "a/current.json"⟩ 1).eval (logAnswers (deletesUpTo 3)) = .ok 3 ∧
    ∃ res t, (findLogTail ⟨js "a/current.json"⟩ 1).evalFrom
        (fun t => logAnswers (deletesUpTo (3 + t))) 0 = (res, t) ∧
      ∀ r, res = .ok r → 3 ≤ r ∧ r ≤ 3 + t := by
  have hexact := tails_exact ⟨js "a/current.json"⟩ .scan 0 1 (by decide)
  refine ⟨(hexact.1 (deletesUpTo 3) _ 3 ⟨fun _ _ => rfl⟩ (deletesUpTo_dense (by decide)) (by decide)
    (by decide)).1, ?_⟩
  obtain ⟨⟨res, t, hrun, hbetween, -⟩, -⟩ := hexact.2 (fun t => deletesUpTo (3 + t))
    (fun t => logAnswers (deletesUpTo (3 + t))) (fun t => 3 + t)
    ⟨fun _ _ _ => rfl, fun t => (deletesUpTo_dense (Nat.zero_le (3 + t))).occupied,
      fun t => by omega⟩ (by decide)
  exact ⟨res, t, hrun, hbetween⟩

/-- At a gap of exactly the cap the walk gives up: the read that would miss is one too many. -/
theorem tail_lost_at_cap :
    ¬ ∀ (c : Collection) (why : Purpose) (log : Nat → Option LogEntry)
        (answer : (op : Op) → Resp op) (hint tail : Nat), StillLog log answer →
        DenseFrom log hint tail → tail - hint ≤ logForwardProbeCap →
        ∃ entries, (probeTailFrom c why hint).eval answer = .ok (tail, entries) := by
  intro h
  have hq : StillLog (deletesUpTo 100000) (logAnswers (deletesUpTo 100000)) := ⟨fun _ _ => rfl⟩
  have hd : DenseFrom (deletesUpTo 100000) 0 100000 := deletesUpTo_dense (by decide)
  obtain ⟨entries, hok⟩ := h ⟨js "a/current.json"⟩ .scan _ _ 0 100000 hq hd (by decide)
  exact ((eval_probeTailFrom hq hd ⟨js "a/current.json"⟩ .scan).2 (by decide)).ne_ok _ hok

end Baerly
