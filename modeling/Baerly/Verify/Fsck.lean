import Baerly.Fsck
import Baerly.Gc
import Baerly.JsonText
import Baerly.Query
import Baerly.Verify.CompactFold
import Baerly.Verify.Tail

/-
  What a clean `fsck` is worth to a reader.

  SPEC (`fsck_sound_iff`): a run without findings means that a full scan folds every slot from
  `log_seq_start` to the highest one present, and a reported slot is not there.  The second half
  holds of every store.  The first holds iff no slot a reader needs is present under a
  non-canonical name only (`log/007.json` for slot 7), unless another slot is missing anyway.

  CRUX: both sides see the same canonical objects, but `fsck` takes a slot for present if ANY listed
  name converts to its number, and a reader fetches the one canonical key.
-/

namespace Baerly.Fsck

open Async

/-! ## Numbers -/

/-- Integers up to 2^53 are doubles. -/
theorem roundNat_exact {n : Nat} (h : n ≤ 2 ^ 53) : roundNat n = n := by
  rcases Nat.lt_or_eq_of_le h with hlt | rfl
  · exact if_pos hlt
  · decide

/-- Rounding does not fall below a power of two. -/
theorem le_roundNat {n : Nat} (h : 2 ^ 53 ≤ n) : 2 ^ 53 ≤ roundNat n := by
  have hlog : 53 ≤ n.log2 := (Nat.le_log2 (by omega)).mpr h
  have hself : 2 ^ n.log2 ≤ n := Nat.log2_self_le (by omega)
  have hsplit : 2 ^ n.log2 = 2 ^ 52 * 2 ^ (n.log2 - 52) := by
    rw [← Nat.pow_add, show 52 + (n.log2 - 52) = n.log2 by omega]
  have hpow : 2 ^ 53 ≤ 2 ^ n.log2 := Nat.pow_le_pow_right (by decide) hlog
  have hunit : 0 < 2 ^ (n.log2 - 52) := Nat.pow_pos (by decide)
  have hquot : 2 ^ 52 ≤ n / 2 ^ (n.log2 - 52) := by
    rw [Nat.le_div_iff_mul_le hunit, ← hsplit]
    exact hself
  have hlow : 2 ^ 53 ≤ n / 2 ^ (n.log2 - 52) * 2 ^ (n.log2 - 52) :=
    calc 2 ^ 53 ≤ 2 ^ 52 * 2 ^ (n.log2 - 52) := hsplit ▸ hpow
      _ ≤ n / 2 ^ (n.log2 - 52) * 2 ^ (n.log2 - 52) := Nat.mul_le_mul_right _ hquot
  unfold roundNat
  rw [if_neg (by omega)]
  dsimp only
  split
  · exact hlow
  · rw [Nat.add_mul]
    omega

/-! ## Names -/

variable {c : Collection} {listing : List Key}

/-- So digits are parsed exactly up to there. -/
theorem ofDigits_exact {digits : JsString} (h : ofDigits digits ≤ maxSafeInteger) :
    parseInt digits = some (ofDigits digits) := by
  have hmax : maxSafeInteger = 2 ^ 53 - 1 := rfl
  have hround : roundNat (ofDigits digits) = ofDigits digits := roundNat_exact (by omega)
  have hrange : 2 ^ 53 < infinite := by decide
  unfold parseInt
  rw [hround]
  exact if_pos (by omega)

/-- A canonical key stands for its slot. -/
theorem seqOfKey_canonical {key : Key} {n : Nat}
    (h : parseSeqFromCanonicalLogKey key c.collectionPrefix = some n) :
    seqOfKey c key = some n ∧ n ≤ maxSafeInteger := by
  unfold parseSeqFromCanonicalLogKey at h
  dsimp only at h
  split at h
  next => cases h
  next =>
    split at h
    next hname =>
      split at h
      next hseq =>
        cases h
        refine ⟨?_, hseq.1⟩
        unfold seqOfKey
        dsimp only
        rw [logPrefix, if_pos hname]
        exact ofDigits_exact hseq.1
      next => cases h
    next => cases h

/-- The digits of a name are its slot. -/
theorem takeWhile_decimal (n : Nat) : (decimal n ++ js ".json").takeWhile isDigit = decimal n := by
  rw [List.takeWhile_append_of_pos (List.all_eq_true.mp (isDigit_decimal n))]
  have hdot : (js ".json").takeWhile isDigit = [] := by decide
  rw [hdot, List.append_nil]

/-- The key of a slot stands for it. -/
theorem seqOfKey_logObjectKey {n : Nat} (h : n ≤ maxSafeInteger) :
    seqOfKey c (logObjectKey c.collectionPrefix n) = some n := by
  have htail : (logObjectKey c.collectionPrefix n).drop (logPrefix c).length =
      decimal n ++ js ".json" := by
    rw [logObjectKey, List.append_assoc (c.collectionPrefix ++ js "/log/")]
    exact List.drop_left
  obtain ⟨u, us, hcons⟩ := decimal_cons n
  unfold seqOfKey
  dsimp only
  rw [htail, takeWhile_decimal, List.drop_left, if_pos ⟨by rw [hcons]; exact List.cons_ne_nil _ _, rfl⟩,
    ofDigits_exact (by rw [ofDigits_decimal]; exact h), ofDigits_decimal]

/-- The maximum is above all it was taken of. -/
theorem le_foldl_raise (seqs : List Nat) (m : Int) :
    m ≤ seqs.foldl raise m ∧ ∀ s ∈ seqs, (s : Int) ≤ seqs.foldl raise m := by
  induction seqs generalizing m with
  | nil => exact ⟨Int.le_refl m, fun s hs => absurd hs List.not_mem_nil⟩
  | cons seq seqs ih =>
    obtain ⟨hm, hall⟩ := ih (raise m seq)
    have hstep : m ≤ raise m seq ∧ (seq : Int) ≤ raise m seq := by
      unfold raise
      split <;> omega
    rw [List.foldl_cons]
    refine ⟨Int.le_trans hstep.1 hm, fun s hs => ?_⟩
    rcases List.mem_cons.mp hs with rfl | hs
    · exact Int.le_trans hstep.2 hm
    · exact hall s hs

/-- The walk goes past every exact number that is named. -/
theorem lt_logToExcl {m : CurrentJson} {s : Nat} (hs : s ∈ presentSeqs c listing)
    (hsafe : s ≤ maxSafeInteger) : s < logToExcl c m listing := by
  have hle := (le_foldl_raise (presentSeqs c listing) (m.logSeqStart - 1)).2 s hs
  have hmax : maxSafeInteger = 2 ^ 53 - 1 := rfl
  have hbound : s < roundNat (maxSeq c m.logSeqStart listing + 1).toNat := by
    have hge : s + 1 ≤ (maxSeq c m.logSeqStart listing + 1).toNat := by
      have : (s : Int) ≤ maxSeq c m.logSeqStart listing := hle
      omega
    rcases Nat.le_total (maxSeq c m.logSeqStart listing + 1).toNat (2 ^ 53) with hsmall | hlarge
    · rw [roundNat_exact hsmall]
      omega
    · have := le_roundNat hlarge
      omega
  exact Nat.lt_of_lt_of_le hbound (Nat.le_max_right _ _)

/-! ## A store that stands still -/

/-- Reads succeed and answer what is stored; concurrent ones run in any order. -/
structure StillStore (w : World) (answer : (op : Op) → Resp op) : Prop where
  current : answer .getCurrent = .ok w.cur
  log : StillLog w.log answer
  snapshot : ∀ key, answer (.getSnapshot key) = .ok (w.snap key)
  schedule : ∀ n, (answer (.schedule n)).Perm (List.range n)

/-- The log objects at canonical keys are the slots of the world.  What other keys are listed is
    open. -/
def Lists (c : Collection) (w : World) (listing : List Key) : Prop :=
  ∀ n, (w.log n).isSome = true ↔
    ∃ key ∈ listing, parseSeqFromCanonicalLogKey key c.collectionPrefix = some n

variable {codec : Codec} {w : World} {answer : (op : Op) → Resp op} {m : CurrentJson} {base : Rows}

/-- A slot that is taken is listed. -/
theorem Lists.present (h : Lists c w listing) {n : Nat} (hn : (w.log n).isSome = true) :
    n ∈ presentSeqs c listing ∧ n ≤ maxSafeInteger := by
  obtain ⟨key, hkey, hparse⟩ := (h n).mp hn
  obtain ⟨hseq, hsafe⟩ := seqOfKey_canonical hparse
  exact ⟨List.mem_filterMap.mpr ⟨key, hkey, hseq⟩, hsafe⟩

/-- On a bucket at rest the manifest is read. -/
theorem eval_readCurrentJson (hs : StillStore w answer) (hcur : w.cur = some m)
    (hwf : m.WellFormed) : (readCurrentJson c).eval answer = .ok (some m) := by
  show ((Task.ofExcept (answer .getCurrent)).bind _).eval answer = _
  rw [hs.current, hcur]
  show ((Task.ofExcept (assertCurrentJson c.currentJsonKey m.toJson)).bind _).eval answer = _
  rw [(assertCurrentJson_toJson_iff c.currentJsonKey m).mpr hwf]
  rfl

/-- The snapshot of the manifest loads. -/
theorem snapshot_loads {key : Key} (hsnap : snapshotRows codec c w m = some base)
    (hkey : m.snapshot = some key) : ∃ body, w.snap key = some body ∧
      decodeSnapshot codec key c.collectionName body = .ok base := by
  rw [snapshotRows, hkey] at hsnap
  obtain ⟨body, hbody, hdecode⟩ := Option.bind_eq_some_iff.mp hsnap
  refine ⟨body, hbody, ?_⟩
  cases h : decodeSnapshot codec key c.collectionName body with
  | error e =>
    rw [h] at hdecode
    cases hdecode
  | ok rows =>
    rw [h] at hdecode
    cases hdecode
    rfl

/-- So is the snapshot. -/
theorem eval_loadBase (hs : StillStore w answer) (hsnap : snapshotRows codec c w m = some base) :
    (loadBase codec c m).eval answer = .ok base := by
  unfold loadBase
  cases hkey : m.snapshot with
  | none =>
    rw [snapshotRows, hkey] at hsnap
    cases hsnap
    rfl
  | some key =>
    obtain ⟨body, hbody, hdecode⟩ := snapshot_loads hsnap hkey
    show ((Task.ofExcept (answer (.getSnapshot key))).bind _).eval answer = _
    rw [hs.snapshot, hbody]
    show (Task.ofExcept (decodeSnapshot codec key c.collectionName body)).eval answer = _
    rw [hdecode]
    rfl

/-- Whose check finds nothing. -/
theorem eval_checkSnapshot (hs : StillStore w answer)
    (hsnap : snapshotRows codec c w m = some base) :
    (checkSnapshot codec c m).eval answer = .ok [] := by
  unfold checkSnapshot
  cases hkey : m.snapshot with
  | none => rfl
  | some key =>
    obtain ⟨body, hbody, hdecode⟩ := snapshot_loads hsnap hkey
    show (Prog.tryCatch (((Task.ofExcept (answer (.getSnapshot key))).bind _).bind _) _).eval answer = _
    rw [hs.snapshot, hbody]
    show (Prog.tryCatch ((Task.ofExcept (decodeSnapshot codec key c.collectionName body)).bind _)
      _).eval answer = _
    rw [hdecode]
    rfl

/-- What `fsck` reports where the snapshot loads: `none` if it never ends. -/
def logReport (c : Collection) (m : CurrentJson) (listing : List Key) : Option Report :=
  (walked m.logSeqStart (logToExcl c m listing)).map fun seqs =>
    { findings := (seqs.filter fun s => !(presentSeqs c listing).contains s).map (missing c)
      logFrom := m.logSeqStart
      logToExcl := logToExcl c m listing
      logEntriesPresent := (seqs.filter fun s => (presentSeqs c listing).contains s).length }

/-- **What is left of a run is the report on the log.** -/
theorem eval_fsck (hs : StillStore w answer) (hcur : w.cur = some m) (hwf : m.WellFormed)
    (hsnap : snapshotRows codec c w m = some base) :
    (fsck codec c listing).eval answer = .ok (logReport c m listing) := by
  show ((readCurrentJson c).bind _).eval answer = _
  rw [Prog.eval_bind, eval_readCurrentJson hs hcur hwf]
  show ((checkSnapshot codec c m).bind _).eval answer = _
  rw [Prog.eval_bind, eval_checkSnapshot hs hsnap]
  rfl

/-- The slots that are walked are those between the ends. -/
theorem mem_walked {logFrom stop s : Nat} {seqs : List Nat} (h : walked logFrom stop = some seqs) :
    s ∈ seqs ↔ logFrom ≤ s ∧ s < stop := by
  unfold walked at h
  split at h
  next =>
    cases h
    rw [List.mem_range'_1]
    omega
  next => cases h

/-- The findings are the numbers that no name stands for. -/
theorem mem_findings {report : Report} (h : logReport c m listing = some report) {f : Finding} :
    f ∈ report.findings ↔ ∃ s, m.logSeqStart ≤ s ∧ s < logToExcl c m listing ∧
      s ∉ presentSeqs c listing ∧ f = missing c s := by
  obtain ⟨seqs, hseqs, rfl⟩ := Option.map_eq_some_iff.mp h
  simp only [List.mem_map, List.mem_filter, mem_walked hseqs, Bool.not_eq_true',
    List.contains_eq_mem, decide_eq_false_iff_not]
  constructor
  · rintro ⟨s, ⟨⟨hlow, hhigh⟩, habsent⟩, rfl⟩
    exact ⟨s, hlow, hhigh, habsent, rfl⟩
  · rintro ⟨s, hlow, hhigh, habsent, rfl⟩
    exact ⟨s, ⟨⟨hlow, hhigh⟩, habsent⟩, rfl⟩

/-- A walk that ends sees exact numbers only. -/
theorem walked_safe {report : Report} (h : logReport c m listing = some report) {s : Nat}
    (hlow : m.logSeqStart ≤ s) (hhigh : s < logToExcl c m listing) : s ≤ maxSafeInteger := by
  obtain ⟨seqs, hseqs, -⟩ := Option.map_eq_some_iff.mp h
  have hmax : maxSafeInteger = 2 ^ 53 - 1 := rfl
  unfold walked at hseqs
  split at hseqs
  next hends => omega
  next => cases hseqs

/-! ## The full scan -/

/-- Each element with what its program answers. -/
theorem eval_gather {α β : Type} {f : α → Task β} {xs : List α}
    (h : ∀ x ∈ xs, ∃ b, (f x).eval answer = .ok b) :
    ∃ results, (Prog.gather f xs).eval answer = .ok results ∧ results.map Prod.fst = xs ∧
      ∀ x b, (x, b) ∈ results → (f x).eval answer = .ok b := by
  induction xs with
  | nil => exact ⟨[], rfl, rfl, fun x b hmem => absurd hmem List.not_mem_nil⟩
  | cons x xs ih =>
    obtain ⟨b, hb⟩ := h x List.mem_cons_self
    obtain ⟨results, hresults, hfst, hall⟩ := ih fun y hy => h y (List.mem_cons_of_mem x hy)
    refine ⟨(x, b) :: results, ?_, by rw [List.map_cons, hfst], fun y d hmem => ?_⟩
    · rw [Prog.gather, Prog.eval_bind, hb]
      show ((Prog.gather f xs).bind fun rest => .ret ((x, b) :: rest)).eval answer = _
      rw [Prog.eval_bind, hresults]
      rfl
    · rcases List.mem_cons.mp hmem with heq | hmem
      · cases heq
        exact hb
      · exact hall y d hmem

/-- A key that is there has its value. -/
theorem exists_lookup {β : Type} {results : List (Nat × β)} {n : Nat}
    (h : n ∈ results.map Prod.fst) : ∃ b, results.lookup n = some b ∧ (n, b) ∈ results := by
  induction results with
  | nil => cases h
  | cons p results ih =>
    obtain ⟨k, b⟩ := p
    rw [List.lookup_cons]
    by_cases hk : n = k
    · subst hk
      exact ⟨b, by rw [beq_self_eq_true], List.mem_cons_self⟩
    · obtain ⟨d, hd, hmem⟩ := ih ((List.mem_cons.mp h).resolve_left hk)
      exact ⟨d, by rw [beq_eq_false_iff_ne.mpr hk]; exact hd, List.mem_cons_of_mem _ hmem⟩

/-- An entry that is there is read. -/
theorem eval_readLogEntry (hs : StillStore w answer) (why : Purpose) {n : Nat} {e : LogEntry}
    (h : w.log n = some e) : (readLogEntry c why n).eval answer = .ok e := by
  show ((Task.getLog why n).bind _).eval answer = _
  rw [Prog.eval_bind, eval_getLog hs.log, h]
  rfl

/-- A concurrent read of occupied slots puts them in order, whatever order they came in. -/
theorem eval_walkChunk (hs : StillStore w answer) (why : Purpose) {seqs : List Nat}
    (h : ∀ n ∈ seqs, (w.log n).isSome = true) :
    (walkChunk c why seqs).eval answer = .ok (seqs.filterMap w.log) := by
  let order := (answer (.schedule seqs.length)).filterMap fun i => seqs[i]?
  have horder : ∀ n, n ∈ order ↔ n ∈ seqs := by
    intro n
    rw [List.mem_filterMap]
    constructor
    · rintro ⟨i, -, hi⟩
      exact List.mem_of_getElem? hi
    · intro hn
      obtain ⟨i, hi⟩ := List.mem_iff_getElem?.mp hn
      have hlt : i < seqs.length := (List.getElem?_eq_some_iff.mp hi).1
      exact ⟨i, (hs.schedule _).mem_iff.mpr (List.mem_range.mpr hlt), hi⟩
  have hread : ∀ n ∈ seqs, ∃ e, w.log n = some e ∧ (readLogEntry c why n).eval answer = .ok e := by
    intro n hn
    obtain ⟨e, he⟩ := Option.isSome_iff_exists.mp (h n hn)
    exact ⟨e, he, eval_readLogEntry hs why he⟩
  obtain ⟨results, hresults, hfst, hall⟩ := @eval_gather answer _ _ (readLogEntry c why) order
    fun n hn => (hread n ((horder n).mp hn)).imp fun e he => he.2
  show ((Prog.gather (readLogEntry c why) order).bind fun results =>
    .ret (seqs.filterMap fun n => results.lookup n)).eval answer = _
  rw [Prog.eval_bind, hresults]
  show Except.ok (seqs.filterMap fun n => results.lookup n) = _
  congr 1
  refine List.filterMap_congr fun n hn => ?_
  have hkey : n ∈ results.map Prod.fst := hfst ▸ (horder n).mpr hn
  obtain ⟨e, hlookup, hmem⟩ := exists_lookup hkey
  obtain ⟨e', hlog, hread'⟩ := hread n hn
  have heq := (hall n e hmem).symm.trans hread'
  rw [hlookup, hlog, Except.ok.inj heq]

/-- A dense stretch is walked to its end. -/
theorem eval_walkLoop (hs : StillStore w answer) (why : Purpose) {stop : Nat} :
    ∀ fuel seq, stop - seq ≤ fuel → (∀ n, seq ≤ n → n < stop → (w.log n).isSome = true) →
      (walkLoop c why fuel seq stop).eval answer = .ok (slots w seq stop) := by
  intro fuel
  induction fuel with
  | zero =>
    intro seq hfuel _
    rw [slots, show stop - seq = 0 by omega]
    rfl
  | succ fuel ih =>
    intro seq hfuel hdense
    rw [walkLoop]
    by_cases hdone : stop ≤ seq
    · rw [if_pos hdone, slots, show stop - seq = 0 by omega]
      rfl
    · rw [if_neg hdone]
      have hpos : 0 < maxParallelLogReads := by decide
      have hchunk := @eval_walkChunk c w answer hs why
        (List.range' seq (min (seq + maxParallelLogReads) stop - seq)) fun n hn => by
          obtain ⟨hlow, hhigh⟩ := List.mem_range'_1.mp hn
          exact hdense n hlow (by omega)
      have hrest := ih (min (seq + maxParallelLogReads) stop) (by omega)
        fun n hlow hhigh => hdense n (by omega) hhigh
      show ((walkChunk c why (List.range' seq _)).bind _).eval answer = _
      rw [Prog.eval_bind, hchunk]
      show ((walkLoop c why fuel (min (seq + maxParallelLogReads) stop) stop).bind _).eval answer = _
      rw [Prog.eval_bind, hrest]
      exact congrArg Except.ok (slots_append (w := w) (by omega) (by omega))

/-- And read whole. -/
theorem eval_walkLogRange (hs : StillStore w answer) (why : Purpose) {start stop : Nat}
    (hdense : ∀ n, start ≤ n → n < stop → (w.log n).isSome = true) :
    (walkLogRange c why start stop).eval answer = .ok (slots w start stop) :=
  eval_walkLoop hs why (stop - start) start (Nat.le_refl _) hdense

/-- The probe reads up to the first free slot, if that is within its budget. -/
theorem eval_probeEntries (hs : StillStore w answer) (why : Purpose) {tail : Nat}
    (hfree : w.log tail = none) :
    ∀ cap seq acc, seq ≤ tail → tail < seq + cap →
      (∀ n, seq ≤ n → n < tail → (w.log n).isSome = true) →
      (probeLoop why cap seq acc).eval answer = .ok (.exact tail (acc ++ slots w seq tail)) := by
  intro cap
  induction cap with
  | zero => intro seq acc hle hlt; omega
  | succ cap ih =>
    intro seq acc hle hlt hdense
    show ((Task.getLog why seq).bind _).eval answer = _
    rw [Prog.eval_bind, eval_getLog hs.log]
    rcases Nat.lt_or_eq_of_le hle with hbefore | rfl
    · obtain ⟨e, he⟩ := Option.isSome_iff_exists.mp (hdense seq (Nat.le_refl seq) hbefore)
      rw [he]
      show (probeLoop why cap (seq + 1) (acc ++ [e])).eval answer = _
      rw [ih (seq + 1) (acc ++ [e]) hbefore (by omega) fun n hn => hdense n (by omega)]
      have hfirst : slots w seq tail = e :: slots w (seq + 1) tail := by
        rw [slots, show tail - seq = (tail - (seq + 1)) + 1 by omega, List.range'_succ,
          List.filterMap_cons_some he]
        rfl
      rw [hfirst, List.append_assoc, List.singleton_append]
    · rw [hfree]
      have hnone : slots w seq seq = [] := by
        rw [slots, Nat.sub_self]
        rfl
      rw [hnone, List.append_nil]
      rfl

/-- **The probe finds the tail** of a dense log within its reach. -/
theorem eval_probeTail (hs : StillStore w answer) (why : Purpose) {hint tail : Nat}
    (hle : hint ≤ tail) (hcap : tail < hint + logForwardProbeCap) (hfree : w.log tail = none)
    (hdense : ∀ n, hint ≤ n → n < tail → (w.log n).isSome = true) :
    (probeTailFrom c why hint).eval answer = .ok (tail, slots w hint tail) := by
  show ((probeLoop why logForwardProbeCap hint []).bind _).eval answer = _
  rw [Prog.eval_bind, eval_probeEntries hs why hfree logForwardProbeCap hint [] hle hcap hdense]
  rfl

/-- The log is whole up to its highest slot: readers fold `[log_seq_start, tail)`. -/
structure Whole (w : World) (m : CurrentJson) (tail : Nat) : Prop where
  hint_le : m.tailHint ≤ tail
  present : ∀ n, m.logSeqStart ≤ n → n < tail → (w.log n).isSome = true
  free : ∀ n, tail ≤ n → w.log n = none

/-- The fold of the log onto the snapshot. -/
def foldedRows (c : Collection) (w : World) (m : CurrentJson) (base : Rows) (tail : Nat) : Rows :=
  foldLogEntriesOnto c.collectionName none base (slots w m.logSeqStart tail)

/-- **A full scan of a whole log folds every slot of it.** -/
theorem eval_runReadRows (hs : StillStore w answer) (hcur : w.cur = some m) (hwf : m.WellFormed)
    (hsnap : snapshotRows codec c w m = some base) {tail : Nat} (hwhole : Whole w m tail)
    (hcap : tail < m.tailHint + logForwardProbeCap) (why : Purpose) (state : QueryState)
    {rows : List StoredRow}
    (hrows : applyPredicate state.wire (foldedRows c w m base tail) = .ok rows) :
    (runReadRows codec c why state).eval answer =
      .ok ⟨applyOrderLimit state rows, tail, some ⟨m, base, slots w m.logSeqStart tail⟩⟩ := by
  have hmax : max m.logSeqStart m.tailHint = m.tailHint := Nat.max_eq_right hwf.start_le
  have happend := slots_append (w := w) hwf.start_le hwhole.hint_le
  show ((readCurrentJson c).bind _).eval answer = _
  rw [Prog.eval_bind, eval_readCurrentJson hs hcur hwf]
  show ((loadBase codec c m).bind _).eval answer = _
  rw [Prog.eval_bind, eval_loadBase hs hsnap]
  show ((walkLogRange c why m.logSeqStart m.tailHint).bind _).eval answer = _
  rw [Prog.eval_bind, eval_walkLogRange hs why fun n hlow hhigh =>
    hwhole.present n hlow (Nat.lt_of_lt_of_le hhigh hwhole.hint_le)]
  show ((probeTailFrom c why (max m.logSeqStart m.tailHint)).bind _).eval answer = _
  rw [hmax, Prog.eval_bind, eval_probeTail hs why hwhole.hint_le hcap
    (hwhole.free tail (Nat.le_refl tail)) fun n hlow =>
      hwhole.present n (Nat.le_trans hwf.start_le hlow)]
  have hfold : foldLogEntriesOnto c.collectionName none
      (foldLogEntriesOnto c.collectionName none base (slots w m.logSeqStart m.tailHint))
      (slots w m.tailHint tail) = foldedRows c w m base tail := by
    rw [foldedRows, ← happend]
    exact (List.foldl_append).symm
  show ((Task.ofExcept (applyPredicate state.wire (foldLogEntriesOnto c.collectionName none
    (foldLogEntriesOnto c.collectionName none base (slots w m.logSeqStart m.tailHint))
    (slots w m.tailHint tail)))).bind _).eval answer = _
  rw [hfold, hrows, ← happend]
  rfl

/-! ## Soundness -/

/-- A run without findings means that every full scan folds the whole log, and a reported slot has
    no object. -/
structure FsckSound (codec : Codec) (c : Collection) (w : World) (answer : (op : Op) → Resp op)
    (m : CurrentJson) (base : Rows) (listing : List Key) : Prop where
  clean : ∀ report, (fsck codec c listing).eval answer = .ok (some report) → report.findings = [] →
    ∃ tail, Whole w m tail ∧ ∀ (why : Purpose) (state : QueryState) (rows : List StoredRow),
      applyPredicate state.wire (foldedRows c w m base tail) = .ok rows →
      (runReadRows codec c why state).eval answer =
        .ok ⟨applyOrderLimit state rows, tail, some ⟨m, base, slots w m.logSeqStart tail⟩⟩
  reported : ∀ report, (fsck codec c listing).eval answer = .ok (some report) →
    ∀ f ∈ report.findings, f.check = .log →
      ∃ s, f = missing c s ∧ logObjectKey c.collectionPrefix s ∉ listing

/-- A slot that a full scan needs: below the hint, or below a slot that is there. -/
def Needed (w : World) (m : CurrentJson) (n : Nat) : Prop :=
  m.logSeqStart ≤ n ∧ (n < m.tailHint ∨ ∃ k, n ≤ k ∧ (w.log k).isSome = true)

/-- The slot has no object, but a name that converts to its number is listed. -/
def Misspelled (c : Collection) (w : World) (listing : List Key) (n : Nat) : Prop :=
  w.log n = none ∧ n ∈ presentSeqs c listing

/-- Every number the walk has to look at is named, and the walk ends. -/
def AllNamed (c : Collection) (m : CurrentJson) (listing : List Key) : Prop :=
  (m.logSeqStart < logToExcl c m listing → logToExcl c m listing ≤ 2 ^ 53) ∧
    ∀ s, m.logSeqStart ≤ s → s < logToExcl c m listing → s ∈ presentSeqs c listing

/-- A walk fits its slots unless these are past 2^53. -/
theorem walked_isSome {logFrom stop : Nat} :
    (walked logFrom stop).isSome = true ↔ (logFrom < stop → stop ≤ 2 ^ 53) := by
  unfold walked
  split
  next h => exact ⟨fun _ hlt => h.resolve_left (by omega), fun _ => rfl⟩
  next h =>
    constructor
    · intro hsome
      cases hsome
    · intro himp
      exact absurd (or_iff_not_imp_left.mpr fun hlt => himp (by omega)) h

/-- When `fsck` ends without a finding. -/
theorem clean_iff : (∃ report, logReport c m listing = some report ∧ report.findings = []) ↔
    AllNamed c m listing := by
  constructor
  · rintro ⟨report, hreport, hclean⟩
    obtain ⟨seqs, hseqs, -⟩ := Option.map_eq_some_iff.mp hreport
    refine ⟨walked_isSome.mp (by rw [hseqs]; rfl), fun s hlow hhigh => ?_⟩
    by_contra habsent
    have hfound := (mem_findings hreport).mpr ⟨s, hlow, hhigh, habsent, rfl⟩
    rw [hclean] at hfound
    cases hfound
  · rintro ⟨hends, hnamed⟩
    obtain ⟨seqs, hseqs⟩ := Option.isSome_iff_exists.mp (walked_isSome.mpr hends)
    have hreport : ∃ report, logReport c m listing = some report :=
      ⟨_, Option.map_eq_some_iff.mpr ⟨seqs, hseqs, rfl⟩⟩
    obtain ⟨report, hreport⟩ := hreport
    refine ⟨report, hreport, List.eq_nil_iff_forall_not_mem.mpr fun f hf => ?_⟩
    obtain ⟨s, hlow, hhigh, habsent, -⟩ := (mem_findings hreport).mp hf
    exact habsent (hnamed s hlow hhigh)

/-- A bounded log without a missing slot that is needed is whole. -/
theorem exists_whole (hcap : ∀ n, (w.log n).isSome = true → n + 1 < m.tailHint + logForwardProbeCap)
    (hneeded : ∀ n, Needed w m n → (w.log n).isSome = true) :
    ∃ tail, Whole w m tail ∧ tail < m.tailHint + logForwardProbeCap := by
  have hpos : 0 < logForwardProbeCap := by decide
  have hex : ∃ t, m.tailHint ≤ t ∧ ∀ n, t ≤ n → w.log n = none := by
    refine ⟨m.tailHint + logForwardProbeCap, by omega, fun n hn => ?_⟩
    rw [← Option.not_isSome_iff_eq_none]
    intro hsome
    have := hcap n hsome
    omega
  -- the least such tail is the hint, or follows an occupied slot
  classical
  have hspec := Nat.find_spec hex
  have hlast : Nat.find hex = m.tailHint ∨
      ∃ k, Nat.find hex = k + 1 ∧ (w.log k).isSome = true := by
    rcases Nat.eq_or_lt_of_le hspec.1 with heq | hlt
    · exact Or.inl heq.symm
    · right
      obtain ⟨k, hk⟩ : ∃ k, Nat.find hex = k + 1 := ⟨Nat.find hex - 1, by omega⟩
      refine ⟨k, hk, ?_⟩
      by_contra hnone
      refine Nat.find_min hex (show k < Nat.find hex by omega) ⟨by omega, fun n hn => ?_⟩
      rcases Nat.eq_or_lt_of_le hn with rfl | hgt
      · exact Option.not_isSome_iff_eq_none.mp hnone
      · exact hspec.2 n (by omega)
  refine ⟨Nat.find hex, ⟨hspec.1, fun n hlow hhigh => hneeded n ⟨hlow, ?_⟩, hspec.2⟩, ?_⟩
  · rcases hlast with heq | ⟨k, heq, hk⟩
    · exact Or.inl (by omega)
    · exact Or.inr ⟨k, by omega, hk⟩
  · rcases hlast with heq | ⟨k, heq, hk⟩
    · omega
    · have := hcap k hk
      omega

/-- **When a clean `fsck` means a readable log.** -/
theorem fsck_sound_iff (codec : Codec) (c : Collection) (w : World) (answer : (op : Op) → Resp op)
    (m : CurrentJson) (base : Rows) (listing : List Key) (hs : StillStore w answer)
    (hcur : w.cur = some m) (hwf : m.WellFormed) (hsnap : snapshotRows codec c w m = some base)
    (hlists : Lists c w listing)
    (hcap : ∀ n, (w.log n).isSome = true → n + 1 < m.tailHint + logForwardProbeCap) :
    FsckSound codec c w answer m base listing ↔
      (∀ n, Needed w m n → ¬ Misspelled c w listing n) ∨ ¬ AllNamed c m listing := by
  have hfsck := @eval_fsck c listing codec w answer m base hs hcur hwf hsnap
  constructor
  · intro hsound
    by_contra hbad
    obtain ⟨hspelled, hnamed⟩ := not_or.mp hbad
    obtain ⟨report, hreport, hclean⟩ := clean_iff.mpr (not_not.mp hnamed)
    obtain ⟨tail, hwhole, -⟩ := hsound.clean report (by rw [hfsck, hreport]) hclean
    refine hspelled fun n hneeded hmis => ?_
    -- the slot lies below the tail, so a scan would have to find it
    have hbelow : n < tail := by
      rcases hneeded.2 with hhint | ⟨k, hle, hk⟩
      · exact Nat.lt_of_lt_of_le hhint hwhole.hint_le
      · by_contra hge
        rw [hwhole.free k (by omega)] at hk
        cases hk
    have hsome := hwhole.present n hneeded.1 hbelow
    rw [hmis.1] at hsome
    cases hsome
  · intro hcond
    refine ⟨fun report hrun hclean => ?_, fun report hrun f hf _ => ?_⟩
    · rw [hfsck] at hrun
      have hreport := Except.ok.inj hrun
      have hnamed : AllNamed c m listing := clean_iff.mp ⟨report, hreport, hclean⟩
      have hspelled := hcond.resolve_right (not_not.mpr hnamed)
      have hneeded : ∀ n, Needed w m n → (w.log n).isSome = true := by
        intro n hn
        by_contra hnone
        refine hspelled n hn ⟨Option.not_isSome_iff_eq_none.mp hnone, hnamed.2 n hn.1 ?_⟩
        rcases hn.2 with hhint | ⟨k, hle, hk⟩
        · exact Nat.lt_of_lt_of_le hhint (Nat.le_max_left _ _)
        · obtain ⟨hpresent, hsafe⟩ := hlists.present hk
          exact Nat.lt_of_le_of_lt hle (lt_logToExcl hpresent hsafe)
      obtain ⟨tail, hwhole, hbudget⟩ := exists_whole hcap hneeded
      exact ⟨tail, hwhole, fun why state rows hrows =>
        eval_runReadRows hs hcur hwf hsnap hwhole hbudget why state hrows⟩
    · rw [hfsck] at hrun
      have hreport := Except.ok.inj hrun
      obtain ⟨s, hlow, hhigh, habsent, rfl⟩ := (mem_findings hreport).mp hf
      refine ⟨s, rfl, fun hlisted => habsent ?_⟩
      exact List.mem_filterMap.mpr ⟨_, hlisted, seqOfKey_logObjectKey (walked_safe hreport hlow hhigh)⟩

/-- A bucket that is only read. -/
def storeAnswers (w : World) : (op : Op) → Resp op
  | .getCurrent => .ok w.cur
  | .getLog _ n => .ok (w.log n)
  | .getSnapshot key => .ok (w.snap key)
  | .getPending => .ok w.pending
  | .listSnapshots _ => .ok []
  | .send _ => 0
  | .await _ => .ok none
  | .now => 0
  | .mintGeneration => []
  | .schedule n => List.range n
  | .aborted => false

/-- A bucket answers alike while nothing changes. -/
theorem storeAnswers_still (w : World) : StillStore w (storeAnswers w) :=
  ⟨rfl, ⟨fun _ _ => rfl⟩, fun _ => rfl, fun _ => List.Perm.refl _⟩

/-- A manifest without a snapshot that claims `hint` entries. -/
def hintedManifest (hint : Nat) : CurrentJson := { soloManifest with tailHint := hint }

/-- A bucket with the one entry of slot `0` under that manifest. -/
def hintedWorld (hint : Nat) : World := { soloWorld with cur := some (hintedManifest hint) }

/-- The manifest of the example is well formed. -/
theorem hintedManifest_wf (hint : Nat) : (hintedManifest hint).WellFormed := by
  refine ⟨Nat.zero_le hint, fun g hg => ?_⟩
  cases hg
  decide

/-- Slot `0` under its key, and a name with leading zeros. -/
def zeroNames (name : String) : List Key :=
  [logObjectKey soloCollection.collectionPrefix 0, logPrefix soloCollection ++ js name]

/-- Its listing has names that no slot is written under. -/
theorem hintedWorld_lists (hint : Nat) {name : String} (h : parseSeqFromCanonicalLogKey
    (logPrefix soloCollection ++ js name) soloCollection.collectionPrefix = none) :
    Lists soloCollection (hintedWorld hint) (zeroNames name) := by
  have hzero : parseSeqFromCanonicalLogKey (logObjectKey soloCollection.collectionPrefix 0)
      soloCollection.collectionPrefix = some 0 := by decide
  intro n
  simp only [zeroNames, List.mem_cons, List.not_mem_nil, or_false, exists_eq_or_imp,
    exists_eq_left, hzero, h, reduceCtorEq]
  show (if n = 0 then some soloEntry else none).isSome = true ↔ _
  by_cases hn : n = 0
  · simp [hn]
  · simp [hn, Ne.symm hn]

/-- Its tail is within reach of its hint. -/
theorem hintedWorld_cap (hint n : Nat) (h : ((hintedWorld hint).log n).isSome = true) :
    n + 1 < (hintedManifest hint).tailHint + logForwardProbeCap := by
  have hcap : logForwardProbeCap = 100000 := rfl
  have hlog : (if n = 0 then some soloEntry else none).isSome = true := h
  by_cases hn : n = 0
  · omega
  · rw [if_neg hn] at hlog
    cases hlog

/-- A name beside the log does no harm: `log/` holds slot `0` and `00.json`. -/
theorem fsck_sound_spare : FsckSound soloCodec soloCollection (hintedWorld 1)
    (storeAnswers (hintedWorld 1)) (hintedManifest 1) InsMap.empty (zeroNames "00.json") := by
  refine (fsck_sound_iff soloCodec soloCollection (hintedWorld 1) _ (hintedManifest 1) InsMap.empty
    (zeroNames "00.json") (storeAnswers_still _) rfl (hintedManifest_wf 1) rfl
    (hintedWorld_lists 1 (by decide)) (hintedWorld_cap 1)).mpr (Or.inl ?_)
  rintro n - ⟨hnone, hnamed⟩
  have hzero : presentSeqs soloCollection (zeroNames "00.json") = [0, 0] := by decide
  rw [hzero] at hnamed
  have hn : n = 0 := by simpa using hnamed
  rw [hn] at hnone
  cases hnone

/-- The manifest claims two entries, and `log/` holds slot `0` and `01.json`: `fsck` finds nothing,
    and no reader gets past slot `1`. -/
theorem fsck_sound_misspelled : ¬ ∀ (codec : Codec) (c : Collection) (w : World)
    (answer : (op : Op) → Resp op) (m : CurrentJson) (base : Rows) (listing : List Key),
    StillStore w answer → w.cur = some m → m.WellFormed → snapshotRows codec c w m = some base →
    Lists c w listing →
    (∀ n, (w.log n).isSome = true → n + 1 < m.tailHint + logForwardProbeCap) →
    FsckSound codec c w answer m base listing := by
  intro h
  have hsound := h soloCodec soloCollection (hintedWorld 2) (storeAnswers (hintedWorld 2))
    (hintedManifest 2) InsMap.empty (zeroNames "01.json") (storeAnswers_still _) rfl
    (hintedManifest_wf 2) rfl (hintedWorld_lists 2 (by decide)) (hintedWorld_cap 2)
  have hrun : (fsck soloCodec soloCollection (zeroNames "01.json")).eval
      (storeAnswers (hintedWorld 2)) = .ok (some ⟨[], 0, 2, 2⟩) := by
    have heval := @eval_fsck soloCollection (zeroNames "01.json") soloCodec (hintedWorld 2) _
      (hintedManifest 2) InsMap.empty (storeAnswers_still _) rfl (hintedManifest_wf 2) rfl
    rw [heval]
    rfl
  obtain ⟨tail, hwhole, -⟩ := hsound.clean _ hrun rfl
  have hhint := hwhole.hint_le
  have hslot := hwhole.present 1 (Nat.zero_le 1) (Nat.lt_of_lt_of_le (by decide) hhint)
  cases hslot

end Baerly.Fsck
