import Baerly.Verify.Commits
import Baerly.Verify.Reads

/-
  What a subscription delivers.

  SPEC: committed entries, in order, none twice.  Nothing is missing between two of them but slots
  that had been retired by the time they were fetched; and nothing below them but what was folded
  before the subscription had delivered anything, when every poll starts at the `log_seq_start` it
  happens to read.

  CRUX: the cursor.  A poll that delivers moves it to its last event, a poll that does not keeps
  it, so the polls of a subscription, whatever calls they belong to, form one run (`PollRun`) in
  which every poll starts right behind what was delivered before.
-/

namespace Baerly

open Async

variable {codec : Codec} {c : Collection} {σ : State} {w : World} {t : Nat}

/-! ## What was delivered -/

/-- Thread `t` fetched slot `n` for its feed when the entry committed there was already retired. -/
def FoundRetired (t : Nat) (w : World) (n : Nat) : Prop :=
  n < w.floor ∧ ∃ e, Event.readLog t .feed n none (some e) ∈ w.trace

/-- The entry of slot `n` is among `es`, or it was found retired. -/
def Accounted (t : Nat) (w : World) (es : List LogEntry) (n : Nat) : Prop :=
  (∃ e ∈ es, e.seq = n) ∨ FoundRetired t w n

/-- `es` are committed entries from `lo` on, in order, with only retired ones missing. -/
structure FeedRun (t : Nat) (w : World) (lo : Nat) (es : List LogEntry) : Prop where
  committed : ∀ e ∈ es, w.hist[e.seq]? = some e
  sorted : es.Pairwise fun a b => a.seq < b.seq
  from_le : ∀ e ∈ es, lo ≤ e.seq
  gaps : ∀ b ∈ es, ∀ n, lo ≤ n → n < b.seq → Accounted t w es n

theorem FeedRun.nil {lo : Nat} : FeedRun t w lo [] where
  committed := fun _ h => absurd h List.not_mem_nil
  sorted := .nil
  from_le := fun _ h => absurd h List.not_mem_nil
  gaps := fun _ h => absurd h List.not_mem_nil

theorem Accounted.mono {es es' : List LogEntry} {n : Nat} (h : Accounted t w es n)
    (hsub : ∀ e ∈ es, e ∈ es') : Accounted t w es' n := by
  rcases h with ⟨e, he, hn⟩ | hret
  · exact Or.inl ⟨e, hsub e he, hn⟩
  · exact Or.inr hret

/-- The last entry of a run is its highest. -/
theorem FeedRun.le_last {lo : Nat} {es : List LogEntry} {e : LogEntry} (h : FeedRun t w lo es)
    (hlast : es.getLast? = some e) : e ∈ es ∧ ∀ x ∈ es, x.seq ≤ e.seq := by
  obtain ⟨init, rfl⟩ := List.getLast?_eq_some_iff.mp hlast
  refine ⟨by simp, fun x hx => ?_⟩
  have hsorted := (List.pairwise_append.mp h.sorted).2.2
  rcases List.mem_append.mp hx with hx | hx
  · exact Nat.le_of_lt (hsorted x hx e (by simp))
  · rw [List.mem_singleton.mp hx]

/-- A run that starts right behind another one continues it. -/
theorem FeedRun.append {lo : Nat} {xs ys : List LogEntry} {e : LogEntry} (hx : FeedRun t w lo xs)
    (hlast : xs.getLast? = some e) (hy : FeedRun t w (e.seq + 1) ys) :
    FeedRun t w lo (xs ++ ys) := by
  obtain ⟨hmem, hle⟩ := hx.le_last hlast
  have hlo := hx.from_le e hmem
  have hleft : ∀ x ∈ xs, x ∈ xs ++ ys := fun x hx => List.mem_append_left _ hx
  have hright : ∀ y ∈ ys, y ∈ xs ++ ys := fun y hy => List.mem_append_right _ hy
  refine ⟨?_, ?_, ?_, ?_⟩
  · intro x hxs
    rcases List.mem_append.mp hxs with h | h
    · exact hx.committed x h
    · exact hy.committed x h
  · refine List.pairwise_append.mpr ⟨hx.sorted, hy.sorted, fun x hxs y hys => ?_⟩
    have h1 := hle x hxs
    have h2 := hy.from_le y hys
    omega
  · intro x hxs
    rcases List.mem_append.mp hxs with h | h
    · exact hx.from_le x h
    · have h2 := hy.from_le x h
      omega
  · intro b hb n hn hlt
    rcases List.mem_append.mp hb with h | h
    · exact (hx.gaps b h n hn hlt).mono hleft
    · rcases Nat.lt_trichotomy n e.seq with hl | heq | hg
      · exact (hx.gaps e hmem n hn hl).mono hleft
      · exact Or.inl ⟨e, hleft e hmem, heq.symm⟩
      · exact (hy.gaps b h n (by omega) hlt).mono hright

/-! ## One poll -/

/-- Where a poll from this cursor starts. -/
def startsAt (cursor : Cursor) (m : CurrentJson) : Nat :=
  match cursor with
  | none => m.logSeqStart
  | some (_, lsn) => lsn.seq + 1

theorem feedStart_ok {m : CurrentJson} {cursor : Cursor} {lo : Nat}
    (h : feedStart m cursor = .ok lo) : lo = startsAt cursor m := by
  cases cursor with
  | none =>
    cases h
    rfl
  | some pair =>
    obtain ⟨g, lsn⟩ := pair
    simp only [feedStart] at h
    split at h
    · cases h
    · split at h
      · cases h
      · cases h
        rfl

/-- A fetched slot below the tail the poll found gave the committed entry, or was retired. -/
theorem fetched {tail n : Nat} {v : Option LogEntry} (h : ReadFact t .feed tail n v w)
    (hlt : n < tail) (hno : NoPhantom .feed t w) :
    (∃ e, v = some e ∧ w.hist[n]? = some e ∧ e.seq = n) ∨ (v = none ∧ FoundRetired t w n) := by
  obtain ⟨k, hmem, hk, hsince, hv⟩ := h.event
  cases v with
  | some e => exact Or.inl ⟨e, rfl, hk e (hno n e k hmem), (h.occupied e rfl).2.seq⟩
  | none =>
    refine Or.inr ⟨rfl, ?_⟩
    cases k with
    | none => exact absurd (hsince rfl) (by omega)
    | some e =>
      refine ⟨?_, e, hmem⟩
      rcases hv with hv | hv
      · cases hv
      · exact hv

/-- The probes of the feed only took a slot for the end of the log when nothing was committed
    there. -/
def TrueTail (t : Nat) (w : World) : Prop :=
  ∀ n k, Event.readLog t .feedTail n none k ∈ w.trace → k = none

/-- **What one poll delivers**: a run from where it starts, which accounts for every slot of the
    poll's window. -/
theorem PollOk.covers {cursor : Cursor} {p : Polled} {read : Nat}
    (h : PollOk codec c t w cursor p read) (hno : NoPhantom .feed t w) {m : CurrentJson}
    (hm : p.head = some m) :
    FeedRun t w (startsAt cursor m) p.events ∧ ∃ stop,
      (∀ n, startsAt cursor m ≤ n → n < stop → Accounted t w p.events n) ∧
      (TrueTail t w → read ≤ stop ∨ stop = startsAt cursor m + defaultMaxEvents) := by
  unfold PollOk at h
  rw [hm] at h
  obtain ⟨_, _, start, tail, hstart, htail, answers, hans, hevents⟩ := h
  have heq := feedStart_ok hstart
  subst heq
  generalize hstop : min tail (startsAt cursor m + defaultMaxEvents) = stop at hans hevents
  -- each slot of the poll was read, and is committed or was found retired
  have hslot : ∀ n, startsAt cursor m ≤ n → n < stop →
      (∃ e, answers n = some e ∧ w.hist[n]? = some e ∧ e.seq = n) ∨
        (answers n = none ∧ FoundRetired t w n) :=
    fun n hlo hhi => fetched (hans n hlo hhi) (by omega) hno
  have hmem : ∀ e ∈ p.events, startsAt cursor m ≤ e.seq ∧ e.seq < stop ∧
      w.hist[e.seq]? = some e := by
    intro e he
    rw [hevents, List.mem_filterMap] at he
    obtain ⟨n, hn, han⟩ := he
    rw [List.mem_range'_1] at hn
    rcases hslot n hn.1 (by omega) with ⟨e', he', hhist, hseq⟩ | ⟨hnone, _⟩
    · rw [han] at he'
      cases he'
      rw [hseq]
      exact ⟨hn.1, by omega, hhist⟩
    · rw [han] at hnone
      cases hnone
  have hacc : ∀ n, startsAt cursor m ≤ n → n < stop → Accounted t w p.events n := by
    intro n hlo hhi
    rcases hslot n hlo hhi with ⟨e, he, _, hseq⟩ | ⟨_, hret⟩
    · refine Or.inl ⟨e, ?_, hseq⟩
      rw [hevents, List.mem_filterMap]
      exact ⟨n, List.mem_range'_1.mpr ⟨hlo, by omega⟩, he⟩
    · exact Or.inr hret
  refine ⟨⟨fun e he => (hmem e he).2.2, ?_, fun e he => (hmem e he).1, ?_⟩, stop, hacc, ?_⟩
  -- the slots were read in order, so the events stand in order
  · rw [hevents, List.pairwise_filterMap]
    refine List.pairwise_iff_getElem.mpr ?_
    intro i j hi hj hij a ha b hb
    rw [List.length_range'] at hi hj
    rw [List.getElem_range'] at ha hb
    rcases hslot (startsAt cursor m + 1 * i) (by omega) (by omega) with
      ⟨e, he, _, hseq⟩ | ⟨hnone, _⟩
    · rcases hslot (startsAt cursor m + 1 * j) (by omega) (by omega) with
        ⟨e', he', _, hseq'⟩ | ⟨hnone, _⟩
      · rw [ha] at he
        rw [hb] at he'
        cases he
        cases he'
        omega
      · rw [hb] at hnone
        cases hnone
    · rw [ha] at hnone
      cases hnone
  · intro b hb n hlo hlt
    have hbound := (hmem b hb).2.1
    exact hacc n hlo (by omega)
  · intro htrue
    -- a true tail is not below what was committed at the start
    obtain ⟨k, hread, _, hsince, _⟩ := htail.event
    have hle := hsince (htrue tail k hread)
    omega

/-! ## All polls of a subscription -/

/-- Polls in a row, each from the cursor the one before left, with the manifest reads they
    made. -/
def PollRun (codec : Codec) (c : Collection) (t : Nat) (w : World) :
    Cursor → List Polled → List (Option CurrentJson × Nat) → Prop
  | _, [], reads => reads = []
  | cursor, p :: ps, reads => ∃ read rest, reads = (p.head, read) :: rest ∧
    PollOk codec c t w cursor p read ∧ PollRun codec c t w (nextCursor cursor p) ps rest

theorem PollRun.append {ys : List (Option CurrentJson × Nat)} {qs : List Polled} :
    ∀ (ps : List Polled) (cursor : Cursor) (xs : List (Option CurrentJson × Nat)),
      PollRun codec c t w cursor ps xs →
      PollRun codec c t w (ps.foldl nextCursor cursor) qs ys →
      PollRun codec c t w cursor (ps ++ qs) (xs ++ ys) := by
  intro ps
  induction ps with
  | nil =>
    intro cursor xs hx hy
    rw [show xs = [] from hx]
    exact hy
  | cons p ps ih =>
    intro cursor xs hx hy
    obtain ⟨read, rest, rfl, hp, hrest⟩ := hx
    exact ⟨read, rest ++ ys, rfl, hp, ih _ _ hrest hy⟩

/-- A run, seen from one of its polls. -/
theorem PollRun.split {p : Polled} {qs : List Polled} : ∀ (ps : List Polled) (cursor : Cursor)
    (reads : List (Option CurrentJson × Nat)),
      PollRun codec c t w cursor (ps ++ p :: qs) reads → ∃ read before,
        reads[ps.length]? = some (p.head, read) ∧
        PollOk codec c t w (ps.foldl nextCursor cursor) p read ∧
        PollRun codec c t w cursor ps before := by
  intro ps
  induction ps with
  | nil =>
    rintro cursor reads ⟨read, rest, rfl, hp, _⟩
    exact ⟨read, [], rfl, hp, rfl⟩
  | cons q ps ih =>
    rintro cursor reads ⟨read, rest, rfl, hq, hrest⟩
    obtain ⟨read', before, hread, hp, hbefore⟩ := ih _ _ hrest
    exact ⟨read', _, hread, hp, read, before, rfl, hq, hbefore⟩

theorem PollRun.at {ps : List Polled} {cursor : Cursor} {reads : List (Option CurrentJson × Nat)}
    {j : Nat} {p : Polled} (h : PollRun codec c t w cursor ps reads) (hj : ps[j]? = some p) :
    ∃ read before, reads[j]? = some (p.head, read) ∧
      PollOk codec c t w ((ps.take j).foldl nextCursor cursor) p read ∧
      PollRun codec c t w cursor (ps.take j) before := by
  obtain ⟨hlt, hget⟩ := List.getElem?_eq_some_iff.mp hj
  have hsplit : ps = ps.take j ++ p :: ps.drop (j + 1) := by
    rw [← hget, List.getElem_cons_drop, List.take_append_drop]
  rw [hsplit] at h
  have hlen : (ps.take j).length = j := by
    rw [List.length_take]
    omega
  have hat := h.split _ _ _
  rwa [hlen] at hat

theorem nextCursor_of_nil {cursor : Cursor} {p : Polled} (h : p.events = []) :
    nextCursor cursor p = cursor := by
  unfold nextCursor
  rw [h]
  rfl

/-- Polls from one cursor of which only the last may deliver. -/
theorem pollRun_of_polls {cursor : Cursor} {p : Polled} : ∀ (ps : List Polled)
    (own : List (Option CurrentJson × Nat)), (∀ q ∈ ps, q.events = []) →
      PollsOk codec c t w cursor (ps ++ [p]) own →
      PollRun codec c t w cursor (ps ++ [p]) own ∧
        (ps ++ [p]).foldl nextCursor cursor = nextCursor cursor p ∧
        (ps ++ [p]).flatMap (·.events) = p.events := by
  intro ps
  induction ps with
  | nil =>
    intro own _ h
    cases h with
    | @cons _ read _ _ hp hnil =>
      cases hnil
      refine ⟨⟨read.2, [], ?_, hp.2, rfl⟩, rfl, by simp⟩
      rw [hp.1]
  | cons q ps ih =>
    intro own hempty h
    cases h with
    | @cons _ read _ reads hq hrest =>
      have hq₀ := hempty q (by simp)
      obtain ⟨hrun, hcur, hev⟩ := ih _ (fun x hx => hempty x (by simp [hx])) hrest
      refine ⟨⟨read.2, reads, ?_, hq.2, ?_⟩, ?_, ?_⟩
      · rw [hq.1]
      · rw [nextCursor_of_nil hq₀]
        exact hrun
      · rw [List.cons_append, List.foldl_cons, nextCursor_of_nil hq₀]
        exact hcur
      · rw [List.cons_append, List.flatMap_cons, hq₀]
        exact hev

/-- One long poll is a stretch of the run. -/
theorem pollRun_of_longPoll {cursor : Cursor} {res : SinceResponse}
    {own : List (Option CurrentJson × Nat)} (hpolls : PollsOk codec c t w cursor res.polls own)
    (hres : Resolves cursor res) :
    PollRun codec c t w cursor res.polls own ∧ res.polls.foldl nextCursor cursor = res.next ∧
      res.polls.flatMap (·.events) = res.events := by
  rcases hres with ⟨hevents, hnext, hempty⟩ | ⟨ps, p, heq, hempty, hevents, _, hnext⟩
  · rcases List.eq_nil_or_concat res.polls with hnil | ⟨ps, p, heq⟩
    · rw [hnil] at hpolls ⊢
      cases hpolls
      exact ⟨rfl, hnext.symm, hevents.symm⟩
    · rw [List.concat_eq_append] at heq
      rw [heq] at hpolls hempty ⊢
      have hp := hempty p (by simp)
      obtain ⟨hrun, hcur, hev⟩ := pollRun_of_polls ps own (fun q hq => hempty q (by simp [hq])) hpolls
      exact ⟨hrun, by rw [hcur, nextCursor_of_nil hp, hnext], by rw [hev, hp, hevents]⟩
  · rw [heq] at hpolls ⊢
    obtain ⟨hrun, hcur, hev⟩ := pollRun_of_polls ps own hempty hpolls
    exact ⟨hrun, hcur.trans hnext.symm, hev.trans hevents⟩

/-- **A subscription is one run of polls**, whatever calls they belong to. -/
theorem pollRun_of_feed : ∀ (rs : List SinceResponse) (cursor : Cursor)
    (reads : List (Option CurrentJson × Nat)), FeedOk codec c t w cursor rs reads →
      PollRun codec c t w cursor (rs.flatMap (·.polls)) reads ∧
        (rs.flatMap (·.polls)).flatMap (·.events) = rs.flatMap (·.events) := by
  intro rs
  induction rs with
  | nil => intro cursor reads h; exact ⟨h, rfl⟩
  | cons res rest ih =>
    intro cursor reads h
    obtain ⟨own, others, rfl, hpolls, hres, hrest⟩ := h
    obtain ⟨hrun, hcur, hev⟩ := pollRun_of_longPoll hpolls hres
    obtain ⟨hrun', hev'⟩ := ih _ _ hrest
    rw [← hcur] at hrun'
    refine ⟨hrun.append _ _ _ hrun', ?_⟩
    rw [List.flatMap_cons, List.flatMap_append, List.flatMap_cons, hev, hev']

/-! ## No repeats, no gaps but retired ones -/

/-- Where a subscription's deliveries start: behind its cursor; without one, at the
    `log_seq_start` read by the first poll that delivered, or by the last poll when none did. -/
def feedOrigin (cursor : Cursor) (ps : List Polled) : Nat :=
  match cursor with
  | some (_, lsn) => lsn.seq + 1
  | none =>
    (((ps.find? fun p => p.events ≠ []).or ps.getLast?).bind (·.head)).elim 0 (·.logSeqStart)

/-- A poll that delivered read a manifest. -/
theorem PollOk.head_of_events {cursor : Cursor} {p : Polled} {read : Nat}
    (h : PollOk codec c t w cursor p read) (hsome : p.events ≠ []) : ∃ m, p.head = some m := by
  unfold PollOk at h
  cases hhead : p.head with
  | none =>
    rw [hhead] at h
    exact absurd h.1 hsome
  | some m => exact ⟨m, rfl⟩

/-- A poll that delivered moves the cursor to its last event. -/
theorem nextCursor_of_last {cursor : Cursor} {p : Polled} {e : LogEntry}
    (h : p.events.getLast? = some e) :
    nextCursor cursor p = some (p.generation.getD noGeneration, e.lsn) := by
  unfold nextCursor
  rw [h]

theorem flatMap_events_of_find? : ∀ ps : List Polled,
    ps.find? (fun p => p.events ≠ []) = none → ps.flatMap (·.events) = [] := by
  intro ps
  induction ps with
  | nil => intro _; rfl
  | cons p ps ih =>
    intro h
    rw [List.find?_eq_none] at h
    have hp : p.events = [] := by simpa using h p (by simp)
    rw [List.flatMap_cons, hp, List.nil_append]
    refine ih (List.find?_eq_none.mpr fun x hx => h x (by simp [hx]))

/-- A poll without events does not change where the deliveries start. -/
theorem FeedRun.of_empty {cursor : Cursor} {p : Polled} {ps : List Polled} (hp : p.events = [])
    (h : FeedRun t w (feedOrigin cursor ps) (ps.flatMap (·.events))) :
    FeedRun t w (feedOrigin cursor (p :: ps)) ((p :: ps).flatMap (·.events)) := by
  rw [List.flatMap_cons, hp, List.nil_append]
  cases cursor with
  | some pair => exact h
  | none =>
    cases hfind : ps.find? fun p => p.events ≠ [] with
    | none =>
      rw [flatMap_events_of_find? ps hfind]
      exact .nil
    | some q =>
      have heq : feedOrigin none (p :: ps) = feedOrigin none ps := by
        simp only [feedOrigin, List.find?_cons, hp, ne_eq, not_true_eq_false, decide_false, hfind,
          Option.some_or]
      rw [heq]
      exact h

/-- **The deliveries of a run of polls**, by induction on the polls: each delivery starts right
    behind the one before. -/
theorem PollRun.feedRun (hinv : Inv codec c w) (hno : NoPhantom .feed t w) :
    ∀ (ps : List Polled) (cursor : Cursor) (reads : List (Option CurrentJson × Nat)),
      PollRun codec c t w cursor ps reads →
        FeedRun t w (feedOrigin cursor ps) (ps.flatMap (·.events)) := by
  intro ps
  induction ps with
  | nil => intro cursor reads _; exact .nil
  | cons p ps ih =>
    rintro cursor reads ⟨read, rest, rfl, hp, hrest⟩
    have hih := ih _ _ hrest
    by_cases hsome : p.events = []
    · rw [nextCursor_of_nil hsome] at hih
      exact .of_empty hsome hih
    · obtain ⟨m, hm⟩ := hp.head_of_events hsome
      obtain ⟨hrun, _⟩ := hp.covers hno hm
      obtain ⟨e, he⟩ : ∃ e, p.events.getLast? = some e :=
        ⟨_, List.getLast?_eq_some_getLast hsome⟩
      have hseq : e.lsn.seq = e.seq :=
        (hinv.entryOk (hrun.committed e (hrun.le_last he).1)).lsn
      have horigin : feedOrigin cursor (p :: ps) = startsAt cursor m := by
        cases cursor with
        | some pair => rfl
        | none =>
          simp only [feedOrigin, startsAt, List.find?_cons, ne_eq, hsome, not_false_eq_true,
            decide_true, Option.some_or, Option.bind_some, hm, Option.elim_some]
      rw [nextCursor_of_last he] at hih
      have hih' : FeedRun t w (e.seq + 1) (ps.flatMap (·.events)) := by
        rw [← hseq]
        exact hih
      rw [horigin, List.flatMap_cons]
      exact hrun.append he hih'

/-- What a finished subscription did, as one run of polls. -/
theorem Reachable.pollRun (h : Reachable codec c σ) {timeoutMs ticks calls : Nat}
    {cursor : Cursor} {start w₁ : World} {rs : List SinceResponse}
    (ht : σ.threads[t]? = some ⟨.subscribe timeoutMs ticks calls cursor, start,
      .done (.ok rs) w₁⟩) :
    PollRun codec c t σ.world cursor (rs.flatMap (·.polls)) (σ.world.manifestReads t) ∧
      (rs.flatMap (·.polls)).flatMap (·.events) = rs.flatMap (·.events) := by
  obtain ⟨hpost, hrely⟩ := h.done ht
  have hfeed := FeedOk.keep hrely.evolves rs _ _ (hpost rs rfl)
  rw [← hrely.quiet.reads] at hfeed
  exact pollRun_of_feed rs _ _ hfeed

/-- **The feed has no repeats, and no gaps but retired entries.**  Each poll delivers a run from
    where it starts, and so does the whole subscription, provided no fetch returned a phantom. -/
theorem feed_in_order (h : Reachable codec c σ) {timeoutMs ticks calls : Nat} {cursor : Cursor}
    {start w₁ : World} {rs : List SinceResponse}
    (ht : σ.threads[t]? = some ⟨.subscribe timeoutMs ticks calls cursor, start,
      .done (.ok rs) w₁⟩) (hno : NoPhantom .feed t σ.world) :
    (∀ (j : Nat) p m, (rs.flatMap (·.polls))[j]? = some p → p.head = some m →
      FeedRun t σ.world
        (startsAt (((rs.flatMap (·.polls)).take j).foldl nextCursor cursor) m) p.events) ∧
    FeedRun t σ.world (feedOrigin cursor (rs.flatMap (·.polls))) (rs.flatMap (·.events)) := by
  obtain ⟨hrun, hevents⟩ := h.pollRun ht
  refine ⟨?_, ?_⟩
  · intro j p m hj hm
    obtain ⟨read, before, _, hp, _⟩ := hrun.at hj
    exact (hp.covers hno hm).1
  · rw [← hevents]
    exact hrun.feedRun h.inv hno _ _ _

/-! ## Runs of the feed -/

/-- The read is good for `NoPhantom .feed t` and `TrueTail t`. -/
def Event.goodFeed (t : Nat) : Event → Bool
  | .readLog u .feed _ (some e) k => u ≠ t ∨ k = some e
  | .readLog u .feedTail _ none k => u ≠ t ∨ k = none
  | _ => true

theorem noPhantom_of_trace (h : w.trace.all (Event.goodFeed t) = true) :
    NoPhantom .feed t w := by
  intro n e k hmem
  have hev := List.all_eq_true.mp h _ hmem
  simpa [Event.goodFeed] using hev

theorem trueTail_of_trace (h : w.trace.all (Event.goodFeed t) = true) : TrueTail t w := by
  intro n k hmem
  have hev := List.all_eq_true.mp h _ hmem
  simpa [Event.goodFeed] using hev

/-- A finished subscription of thread `t` from the empty cursor. -/
def feedOf (t : Nat) (σ : State) : Option (List SinceResponse) :=
  match σ.threads[t]? with
  | some ⟨.subscribe _ _ _ none, _, .done (.ok rs) _⟩ => some rs
  | _ => none

theorem feedOf_eq {rs : List SinceResponse} (h : feedOf t σ = some rs) :
    ∃ timeoutMs ticks calls start w₁, σ.threads[t]? =
      some ⟨.subscribe timeoutMs ticks calls none, start, .done (.ok rs) w₁⟩ := by
  unfold feedOf at h
  split at h
  next hth =>
    cases h
    exact ⟨_, _, _, _, _, hth⟩
  next => cases h

/-- Thread `t` commits `{ _id: id }` on a provisioned bucket whose log it probes with `n` GETs;
    message `i` is its create. -/
def commits (t i n : Nat) (id : String) : List SampleAct :=
  [.spawn (.commit sampleConfig (sampleInput id))] ++ oks t (n + 1) ++ [.step t (Pick.clock 7)] ++
    acked t i ++ oks t 1

/-- Thread `t` folds slot 0 only, with two entries in the log. -/
def foldOne (t i : Nat) : List SampleAct :=
  [.spawn (.compact ⟨some 1, some 1, none, none, none, none⟩)] ++ oks t 4 ++
    [.step t (Pick.order [0])] ++ oks t 1 ++ acked t i ++ acked t (i + 1)

/-- Two commits, then one long poll of thread 3 that delivers both. -/
def pollTwo : List SampleAct :=
  createManifest ++ commits 1 1 1 "x" ++ commits 2 2 2 "y" ++
    [.spawn (.subscribe 0 0 1 none)] ++ oks 3 6

/-- Both entries are delivered, in order. -/
theorem feed_pollTwo : ∃ σ rs, Reachable sampleCodec sampleCollection σ ∧ feedOf 3 σ = some rs ∧
    (rs.flatMap (·.events)).map (·.seq) = [0, 1] ∧
    FeedRun 3 σ.world (feedOrigin none (rs.flatMap (·.polls))) (rs.flatMap (·.events)) := by
  have hrun : ((deployed sampleCodec sampleCollection).run State.init pollTwo).map
      (fun σ => (σ.world.trace.all (Event.goodFeed 3),
        (feedOf 3 σ).any fun rs => decide ((rs.flatMap (·.events)).map (·.seq) = [0, 1]))) =
        some (true, true) := by
    decide +kernel
  obtain ⟨σ, hreach, hfacts⟩ := exists_reachable hrun
  simp only [Prod.mk.injEq, Option.any_eq_true, decide_eq_true_eq] at hfacts
  obtain ⟨hgood, rs, hrs, hseqs⟩ := hfacts
  obtain ⟨_, _, _, _, _, hth⟩ := feedOf_eq hrs
  exact ⟨σ, rs, hreach, hrs, hseqs, (feed_in_order hreach hth (noPhantom_of_trace hgood)).2⟩

/-- Slot 0 is folded and retired after thread 3 has found the tail and before it fetches. -/
def pollPastRetirement : List SampleAct :=
  createManifest ++ commits 1 1 1 "x" ++ commits 2 2 2 "y" ++
    [.spawn (.subscribe 0 0 1 none)] ++ oks 3 4 ++ foldOne 4 3 ++ retireFirst 5 5 ++ oks 3 2

/-- **A poll with a gap.**  It starts at slot 0, finds it retired, and delivers slot 1 alone. -/
theorem feed_with_gap : ¬ ∀ σ, Reachable sampleCodec sampleCollection σ →
    ∀ t rs, feedOf t σ = some rs → ∀ p m, (rs.flatMap (·.polls)).head? = some p →
      p.head = some m →
        p.events.map (·.seq) = List.range' m.logSeqStart p.events.length := by
  intro hclaim
  have hrun : ((deployed sampleCodec sampleCollection).run State.init pollPastRetirement).map
      (fun σ => (feedOf 3 σ).any fun rs => (rs.flatMap (·.polls)).head?.any fun p =>
        p.head.any fun m => decide (p.events.map (·.seq) ≠
          List.range' m.logSeqStart p.events.length)) = some true := by
    decide +kernel
  obtain ⟨σ, hreach, hfacts⟩ := exists_reachable hrun
  simp only [Option.any_eq_true, decide_eq_true_eq] at hfacts
  obtain ⟨rs, hrs, p, hp, m, hm, hne⟩ := hfacts
  exact hne (hclaim σ hreach 3 rs hrs p m hp hm)

/-! ## Starting from nothing -/

theorem PollRun.take (k : Nat) : ∀ (ps : List Polled) (cursor : Cursor)
    (reads : List (Option CurrentJson × Nat)), PollRun codec c t w cursor ps reads →
      ∃ before, PollRun codec c t w cursor (ps.take k) before := by
  induction k with
  | zero => intro ps cursor reads _; exact ⟨[], rfl⟩
  | succ k ih =>
    intro ps cursor reads h
    cases ps with
    | nil => exact ⟨[], rfl⟩
    | cons p ps =>
      obtain ⟨read, rest, rfl, hp, hrest⟩ := h
      obtain ⟨before, hbefore⟩ := ih ps _ _ hrest
      exact ⟨_, read, before, rfl, hp, hbefore⟩

/-- The cursor after some polls: where it was, or at their last delivery. -/
theorem foldl_nextCursor : ∀ (ps : List Polled) (cursor : Cursor),
    (ps.flatMap (·.events) = [] ∧ ps.foldl nextCursor cursor = cursor) ∨
      ∃ e g, (ps.flatMap (·.events)).getLast? = some e ∧
        ps.foldl nextCursor cursor = some (g, e.lsn) := by
  intro ps
  induction ps with
  | nil => intro cursor; exact Or.inl ⟨rfl, rfl⟩
  | cons p ps ih =>
    intro cursor
    rw [List.flatMap_cons, List.foldl_cons]
    by_cases hsome : p.events = []
    · rw [hsome, nextCursor_of_nil hsome, List.nil_append]
      exact ih cursor
    · have hlast := List.getLast?_eq_some_getLast hsome
      rw [nextCursor_of_last hlast]
      rcases ih (some (p.generation.getD noGeneration, (p.events.getLast hsome).lsn)) with
        ⟨hnil, hcur⟩ | ⟨e, g, he, hcur⟩
      · refine Or.inr ⟨_, _, ?_, hcur⟩
        rw [hnil, List.append_nil, hlast]
      · refine Or.inr ⟨e, g, ?_, hcur⟩
        rw [List.getLast?_append, he, Option.some_or]

/-- Once something was delivered, where the deliveries start is settled. -/
theorem feedOrigin_append {ps qs : List Polled} (h : ps.flatMap (·.events) ≠ []) :
    feedOrigin none (ps ++ qs) = feedOrigin none ps := by
  cases hfind : ps.find? fun p => p.events ≠ [] with
  | none => exact absurd (flatMap_events_of_find? ps hfind) h
  | some q => simp only [feedOrigin, List.find?_append, hfind, Option.some_or]

/-- Before anything was delivered, it is what the last poll read. -/
theorem feedOrigin_of_empty {ps : List Polled} {p : Polled} {m : CurrentJson}
    (h : ps.flatMap (·.events) = []) (hp : p.events = []) (hm : p.head = some m) :
    feedOrigin none (ps ++ [p]) = m.logSeqStart := by
  have hfind : (ps ++ [p]).find? (fun p => p.events ≠ []) = none := by
    rw [List.find?_eq_none]
    intro q hq
    rcases List.mem_append.mp hq with hq | hq
    · have hq' := (List.flatMap_eq_nil_iff.mp h) q hq
      simp [hq']
    · rw [List.mem_singleton.mp hq]
      simp [hp]
  have hlast : (ps ++ [p]).getLast? = some p := by simp
  simp only [feedOrigin, hfind, Option.none_or, hlast, Option.bind_some, hm, Option.elim_some]

/-- A whole poll's worth of slots right below `n`'s reach was found retired. -/
def BeyondWindow (t : Nat) (w : World) (n : Nat) : Prop :=
  ∃ lo, lo + defaultMaxEvents ≤ n ∧
    ∀ k, lo ≤ k → k < lo + defaultMaxEvents → FoundRetired t w k

/-- **An empty poll** has nothing to deliver: what was committed when it read the manifest was
    delivered before, or is below where the deliveries start, or was found retired. -/
theorem empty_poll {ps : List Polled} {p : Polled} {before : List (Option CurrentJson × Nat)}
    {read : Nat} (hinv : Inv codec c w) (hno : NoPhantom .feed t w) (htrue : TrueTail t w)
    (hbefore : PollRun codec c t w none ps before)
    (hp : PollOk codec c t w (ps.foldl nextCursor none) p read) (hempty : p.events = []) {n : Nat}
    (hn : n < read) :
    n < feedOrigin none (ps ++ [p]) ∨ Accounted t w (ps.flatMap (·.events)) n ∨
      BeyondWindow t w n := by
  cases hhead : p.head with
  | none =>
    unfold PollOk at hp
    rw [hhead] at hp
    have hzero := hp.2
    omega
  | some m =>
    obtain ⟨_, stop, hacc, hstop⟩ := hp.covers hno hhead
    -- the slots of this poll's window were all found retired
    have hretired : ∀ k, startsAt (ps.foldl nextCursor none) m ≤ k → k < stop →
        FoundRetired t w k := by
      intro k hlo hhi
      rcases hacc k hlo hhi with ⟨e, he, _⟩ | hret
      · rw [hempty] at he
        cases he
      · exact hret
    have habove : startsAt (ps.foldl nextCursor none) m ≤ n →
        Accounted t w (ps.flatMap (·.events)) n ∨ BeyondWindow t w n := by
      intro hlo
      rcases Nat.lt_or_ge n stop with hl | hge
      · exact Or.inl (Or.inr (hretired n hlo hl))
      · rcases hstop htrue with hread | hfull
        · omega
        · exact Or.inr ⟨_, by omega, fun k hk hk' => hretired k hk (by omega)⟩
    rcases foldl_nextCursor ps none with ⟨hnil, hcur⟩ | ⟨e, g, he, hcur⟩
    · rw [feedOrigin_of_empty hnil hempty hhead]
      rcases Nat.lt_or_ge n m.logSeqStart with hl | hge
      · exact Or.inl hl
      · refine Or.inr (habove ?_)
        rw [hcur]
        exact hge
    · have hne : ps.flatMap (·.events) ≠ [] := by
        intro hnil
        rw [hnil] at he
        cases he
      have hrun := hbefore.feedRun hinv hno _ _ _
      obtain ⟨hmem, _⟩ := hrun.le_last he
      have hseq : e.lsn.seq = e.seq := (hinv.entryOk (hrun.committed e hmem)).lsn
      rw [feedOrigin_append hne]
      rcases Nat.lt_or_ge n (feedOrigin none ps) with hl | hge
      · exact Or.inl hl
      · right
        rcases Nat.lt_trichotomy n e.seq with hl | heq | hg
        · exact Or.inl (hrun.gaps e hmem n hge hl)
        · exact Or.inl (Or.inl ⟨e, hmem, heq.symm⟩)
        · refine habove ?_
          rw [hcur]
          show e.lsn.seq + 1 ≤ n
          omega

/-- **What a subscription from nothing can miss.**  Whenever a poll delivers an entry, everything
    below it was delivered too, or lies below where the deliveries started, or was found retired;
    and so it is, whenever a poll delivers nothing, with everything committed at its own manifest
    read. -/
theorem subscription_accounts (h : Reachable codec c σ) {timeoutMs ticks calls : Nat}
    {start w₁ : World} {rs : List SinceResponse}
    (ht : σ.threads[t]? = some ⟨.subscribe timeoutMs ticks calls none, start,
      .done (.ok rs) w₁⟩) (hno : NoPhantom .feed t σ.world) (htrue : TrueTail t σ.world) :
    ∀ (j : Nat) p, (rs.flatMap (·.polls))[j]? = some p →
      (∀ b ∈ p.events, ∀ n, n < b.seq →
        n < feedOrigin none ((rs.flatMap (·.polls)).take (j + 1)) ∨
        Accounted t σ.world (((rs.flatMap (·.polls)).take (j + 1)).flatMap (·.events)) n) ∧
      (p.events = [] → ∃ tail, (σ.world.manifestReads t)[j]? = some (p.head, tail) ∧
        ∀ n, n < tail →
          n < feedOrigin none ((rs.flatMap (·.polls)).take (j + 1)) ∨
          Accounted t σ.world (((rs.flatMap (·.polls)).take j).flatMap (·.events)) n ∨
          BeyondWindow t σ.world n) := by
  obtain ⟨hrun, _⟩ := h.pollRun ht
  intro j p hj
  obtain ⟨read, before, hread, hp, hbefore⟩ := hrun.at hj
  have hsucc : (rs.flatMap (·.polls)).take (j + 1) = (rs.flatMap (·.polls)).take j ++ [p] := by
    rw [List.take_add_one, hj]
    rfl
  refine ⟨?_, ?_⟩
  · intro b hb n hn
    obtain ⟨before', hbefore'⟩ := hrun.take (j + 1) _ _ _
    have hfeed := hbefore'.feedRun h.inv hno _ _ _
    have hmem : b ∈ ((rs.flatMap (·.polls)).take (j + 1)).flatMap (·.events) := by
      rw [hsucc]
      exact List.mem_flatMap.mpr ⟨p, by simp, hb⟩
    rcases Nat.lt_or_ge n (feedOrigin none ((rs.flatMap (·.polls)).take (j + 1))) with hl | hge
    · exact Or.inl hl
    · exact Or.inr (hfeed.gaps b hmem n hge hn)
  · intro hempty
    refine ⟨read, hread, fun n hn => ?_⟩
    rw [hsucc]
    exact empty_poll h.inv hno htrue hbefore hp hempty hn

/-- A first long poll that finds nothing, two commits, and a second one that delivers both. -/
def pollTwice : List SampleAct :=
  createManifest ++ [.spawn (.subscribe 0 0 2 none)] ++ oks 1 2 ++ [.step 1 (Pick.clock 7)] ++
    commits 2 1 1 "x" ++ commits 3 2 2 "y" ++ oks 1 6

/-- The second poll delivers everything committed since the first. -/
theorem subscription_pollTwice : ∃ σ rs, Reachable sampleCodec sampleCollection σ ∧
    feedOf 1 σ = some rs ∧ (rs.flatMap (·.polls)).length = 2 ∧
    (rs.flatMap (·.events)).map (·.seq) = [0, 1] ∧
    ∀ (j : Nat) p, (rs.flatMap (·.polls))[j]? = some p → ∀ b ∈ p.events, ∀ n, n < b.seq →
      n < feedOrigin none ((rs.flatMap (·.polls)).take (j + 1)) ∨
      Accounted 1 σ.world (((rs.flatMap (·.polls)).take (j + 1)).flatMap (·.events)) n := by
  have hrun : ((deployed sampleCodec sampleCollection).run State.init pollTwice).map
      (fun σ => (σ.world.trace.all (Event.goodFeed 1),
        (feedOf 1 σ).any fun rs => decide ((rs.flatMap (·.polls)).length = 2 ∧
          (rs.flatMap (·.events)).map (·.seq) = [0, 1]))) = some (true, true) := by
    decide +kernel
  obtain ⟨σ, hreach, hfacts⟩ := exists_reachable hrun
  simp only [Prod.mk.injEq, Option.any_eq_true, decide_eq_true_eq] at hfacts
  obtain ⟨hgood, rs, hrs, hlen, hseqs⟩ := hfacts
  obtain ⟨_, _, _, _, _, hth⟩ := feedOf_eq hrs
  exact ⟨σ, rs, hreach, hrs, hlen, hseqs, fun j p hj =>
    (subscription_accounts hreach hth (noPhantom_of_trace hgood) (trueTail_of_trace hgood)
      j p hj).1⟩

/-- The same, but the first of the two entries is folded before the second poll. -/
def pollPastFold : List SampleAct :=
  createManifest ++ [.spawn (.subscribe 0 0 2 none)] ++ oks 1 2 ++ [.step 1 (Pick.clock 7)] ++
    commits 2 1 1 "x" ++ commits 3 2 2 "y" ++ foldOne 4 3 ++ oks 1 3

/-- **A subscription that misses an entry.**  Entry 0 is committed after the first poll's manifest
    read; the second poll starts at the new `log_seq_start` and delivers entry 1 without it. -/
theorem subscription_with_loss : ¬ ∀ σ, Reachable sampleCodec sampleCollection σ →
    ∀ t rs first, feedOf t σ = some rs → (σ.world.manifestReads t).head? = some first →
      ∀ b ∈ rs.flatMap (·.events), ∀ n, first.2 ≤ n → n < b.seq →
        ∃ e ∈ rs.flatMap (·.events), e.seq = n := by
  intro hclaim
  have hrun : ((deployed sampleCodec sampleCollection).run State.init pollPastFold).map
      (fun σ => ((feedOf 1 σ).any (fun rs => decide ((rs.flatMap (·.events)).map (·.seq) = [1])),
        (σ.world.manifestReads 1).head?.any fun first => decide (first.2 = 0))) =
        some (true, true) := by
    decide +kernel
  obtain ⟨σ, hreach, hfacts⟩ := exists_reachable hrun
  simp only [Prod.mk.injEq, Option.any_eq_true, decide_eq_true_eq] at hfacts
  obtain ⟨⟨rs, hrs, hseqs⟩, first, hfirst, hzero⟩ := hfacts
  have hseq : ∀ e ∈ rs.flatMap (·.events), e.seq = 1 := by
    intro e he
    have hmem : e.seq ∈ (rs.flatMap (·.events)).map (·.seq) := List.mem_map.mpr ⟨e, he, rfl⟩
    rw [hseqs] at hmem
    exact List.mem_singleton.mp hmem
  obtain ⟨b, hb, hb1⟩ := List.mem_map.mp (show (1 : Nat) ∈ (rs.flatMap (·.events)).map (·.seq) by
    rw [hseqs]
    exact List.mem_singleton.mpr rfl)
  obtain ⟨e, he, h0⟩ := hclaim σ hreach 1 rs first hrs hfirst b hb 0 (by omega) (by omega)
  have h1 := hseq e he
  omega

end Baerly
