import Baerly.Verify.TablePolls

/-
  The pool keeps its books, whatever happens in which order.

  SPEC (`pool_keeps_books`): in every state of a pool, a table has a poll record iff an attachment
  names it, with that many references and one loop; a signature has a cache entry iff it has a
  subscriber; a read that settles changes a snapshot only if it is the last one dispatched for the
  entry; and a table whose poll failed for good has all its signatures on an error.

  CRUX: the four parts of the invariant (`Sound`) hardly meet.  The books are about polls and
  counts only (`Baerly.Verify.TablePolls`).  Parking is about cache entries under given terminal
  errors (`Parked`); everything but a permanent failure makes those errors fewer.
-/

namespace Baerly

namespace PoolState

variable {D F N : Type}

/-! ## Reads -/

/-- Of the reads dispatched for signature `s` since the entry was made, `i` is the last. -/
structure Latest (fetches : List (Fetch F)) (entry : CacheEntry D) (s : JsString) (i : Nat) :
    Prop where
  dispatched : ∃ f, fetches[i]? = some f ∧ f.signature = s
  since : entry.born ≤ i
  last : ∀ j f, i < j → fetches[j]? = some f → f.signature ≠ s

/-- The read in flight for an entry is the last one dispatched for it. -/
structure Reads (cache : InsMap JsString (CacheEntry D)) (fetches : List (Fetch F)) : Prop where
  born : ∀ s e, cache.get s = some e → e.born ≤ fetches.length
  latest : ∀ s e i, cache.get s = some e → e.inFlight = some i → Latest fetches e s i

/-- The entry shows an error and waits for nothing. -/
def Parks (e : CacheEntry D) : Prop := e.snapshot.status = .error ∧ e.inFlight = none

/-- Entries whose chain reads a table in terminal error are parked. -/
def Parked (σ : PoolState D F N) : Prop :=
  ∀ s e t, σ.cache.get s = some e → t ∈ e.chainTables → (σ.terminalErrorOf t).isSome = true →
    Parks e

/-- Only snapshots and reads changed. -/
structure OnlyReads (σ σ' : PoolState D F N) : Prop where
  tablePolls : σ'.tablePolls = σ.tablePolls
  polls : σ'.polls = σ.polls
  subscribers : σ'.subscribersBySignature = σ.subscribersBySignature
  attachments : σ'.attachments = σ.attachments
  domain : ∀ s, (σ'.cache.get s).isSome = (σ.cache.get s).isSome

theorem OnlyReads.refl (σ : PoolState D F N) : OnlyReads σ σ :=
  ⟨rfl, rfl, rfl, rfl, fun _ => rfl⟩

/-- Two such steps are one. -/
theorem OnlyReads.trans {σ σ' σ'' : PoolState D F N} (h : OnlyReads σ σ')
    (h' : OnlyReads σ' σ'') : OnlyReads σ σ'' where
  tablePolls := h'.tablePolls.trans h.tablePolls
  polls := h'.polls.trans h.polls
  subscribers := h'.subscribers.trans h.subscribers
  attachments := h'.attachments.trans h.attachments
  domain := fun s => (h'.domain s).trans (h.domain s)

/-- The errors of tables stay. -/
theorem OnlyReads.terminalErrorOf {σ σ' : PoolState D F N} (h : OnlyReads σ σ') (t : JsString) :
    σ'.terminalErrorOf t = σ.terminalErrorOf t := by
  unfold PoolState.terminalErrorOf
  rw [h.tablePolls, h.polls]

section Reads

variable {σ : PoolState D F N} {s : JsString} {entry e : CacheEntry D}

/-- The same signatures in the same places. -/
def SameSignatures (fetches fetches' : List (Fetch F)) : Prop :=
  fetches'.map Fetch.signature = fetches.map Fetch.signature

/-- A change of a read that leaves its signature. -/
theorem SameSignatures.modify {fetches : List (Fetch F)} {i : Nat} {g : Fetch F → Fetch F}
    (hg : ∀ f, (g f).signature = f.signature) : SameSignatures fetches (fetches.modify i g) := by
  refine List.ext_getElem? fun j => ?_
  rw [List.getElem?_map, List.getElem?_map, List.getElem?_modify, Option.map_eq_map, Option.map_map]
  refine Option.map_congr fun f _ => ?_
  rw [Function.comp_apply]
  split
  · exact hg f
  · rfl

/-- Each read has the signature it had. -/
theorem SameSignatures.signature {fetches fetches' : List (Fetch F)}
    (h : SameSignatures fetches fetches') (i : Nat) :
    (fetches'[i]?).map Fetch.signature = (fetches[i]?).map Fetch.signature := by
  rw [← List.getElem?_map, ← List.getElem?_map, h]

/-- Which read is the last depends on the signatures only. -/
theorem Latest.congr {fetches fetches' : List (Fetch F)} {i : Nat}
    (hs : SameSignatures fetches fetches') (h : Latest fetches entry s i) :
    Latest fetches' entry s i where
  dispatched := by
    obtain ⟨f, hf, hsig⟩ := h.dispatched
    have hmap := hs.signature i
    rw [hf, Option.map_some] at hmap
    obtain ⟨f', hf', heq⟩ := Option.map_eq_some_iff.mp hmap
    exact ⟨f', hf', heq.trans hsig⟩
  since := h.since
  last := by
    intro j f' hij hf'
    have hmap := hs.signature j
    rw [hf', Option.map_some] at hmap
    obtain ⟨f, hf, heq⟩ := Option.map_eq_some_iff.mp hmap.symm
    rw [← heq]
    exact h.last j f hij hf

/-- So does the whole account of reads. -/
theorem Reads.congr {cache : InsMap JsString (CacheEntry D)} {fetches fetches' : List (Fetch F)}
    (hs : SameSignatures fetches fetches') (h : Reads cache fetches) : Reads cache fetches' where
  born := by
    intro s e he
    have hlen : fetches'.length = fetches.length := by
      rw [← List.length_map Fetch.signature, hs, List.length_map]
    rw [hlen]
    exact h.born s e he
  latest := fun s e i he hi => (h.latest s e i he hi).congr hs

/-- An entry changes: it is the last read's, or nobody's. -/
theorem Reads.put {cache : InsMap JsString (CacheEntry D)} {fetches : List (Fetch F)}
    (h : Reads cache fetches) (hborn : e.born ≤ fetches.length)
    (hlatest : ∀ i, e.inFlight = some i → Latest fetches e s i) : Reads (cache.set s e) fetches where
  born := by
    intro u e' he'
    rw [InsMap.get_set] at he'
    split at he'
    · cases he'
      exact hborn
    · exact h.born u e' he'
  latest := by
    intro u e' i he' hi
    rw [InsMap.get_set] at he'
    split at he'
    next hu =>
      cases he'
      rw [hu]
      exact hlatest i hi
    · exact h.latest u e' i he' hi

/-- A read of signature `s` is dispatched, and becomes the read in flight. -/
theorem Reads.dispatch {cache : InsMap JsString (CacheEntry D)} {fetches : List (Fetch F)}
    {f : Fetch F} (h : Reads cache fetches) (hf : f.signature = s) (hborn : e.born ≤ fetches.length)
    (hin : e.inFlight = some fetches.length) : Reads (cache.set s e) (fetches ++ [f]) where
  born := by
    intro u e' he'
    rw [InsMap.get_set] at he'
    rw [List.length_append]
    split at he'
    · cases he'
      omega
    · have hle := h.born u e' he'
      omega
  latest := by
    intro u e' i he' hi
    rw [InsMap.get_set] at he'
    split at he'
    next hu =>
      cases he'
      cases hin.symm.trans hi
      refine ⟨⟨f, List.getElem?_concat_length, hf.trans hu.symm⟩, hborn, fun j g hj hg => ?_⟩
      rw [List.getElem?_eq_none (by simp; omega)] at hg
      cases hg
    next hu =>
      have hold := h.latest u e' i he' hi
      obtain ⟨g, hg, hsig⟩ := hold.dispatched
      have hlt := (List.getElem?_eq_some_iff.mp hg).1
      refine ⟨⟨g, ?_, hsig⟩, hold.since, fun j g' hj hg' => ?_⟩
      · rw [List.getElem?_append_left hlt]
        exact hg
      · rcases Nat.lt_or_ge j fetches.length with hjlt | hjge
        · rw [List.getElem?_append_left hjlt] at hg'
          exact hold.last j g' hj hg'
        · -- the new read is for another signature
          rw [List.getElem?_append_right hjge] at hg'
          have heq : g' = f := by simpa using List.mem_of_getElem? hg'
          rw [heq, hf]
          exact Ne.symm hu

/-- Aborting a read leaves its signature. -/
theorem abortFetch_sameSignatures (i : Option Nat) :
    SameSignatures σ.fetches (σ.abortFetch i).fetches := by
  cases i with
  | none => rfl
  | some i => exact .modify fun _ => rfl

/-- It touches reads only. -/
theorem abortFetch_onlyReads (i : Option Nat) : OnlyReads σ (σ.abortFetch i) := by
  cases i with
  | none => exact .refl σ
  | some i => exact ⟨rfl, rfl, rfl, rfl, fun _ => rfl⟩

/-- And no entry of the cache. -/
theorem abortFetch_cache (i : Option Nat) : (σ.abortFetch i).cache = σ.cache := by
  cases i with
  | none => rfl
  | some i => rfl

/-- Replacing an entry leaves the attachments and the polls. -/
theorem putEntry_onlyReads (he : σ.cache.get s = some e) : OnlyReads σ (σ.putEntry s entry) := by
  refine ⟨rfl, rfl, rfl, rfl, fun u => ?_⟩
  show ((σ.cache.set s entry).get u).isSome = _
  rw [InsMap.get_set]
  split
  next hu =>
    rw [hu, he]
    rfl
  · rfl

end Reads

/-! ## Snapshots -/

section Snapshots

variable {σ σ' : PoolState D F N} {s : JsString}

/-- Parked, but for the snapshot of one signature. -/
def ParkedBut (σ : PoolState D F N) (s : JsString) : Prop :=
  ∀ u e t, σ.cache.get u = some e → t ∈ e.chainTables → (σ.terminalErrorOf t).isSome = true →
    (u ≠ s → Parks e) ∧ e.inFlight = none

theorem Parked.but (h : σ.Parked) (s : JsString) : σ.ParkedBut s :=
  fun u e t he ht hterm => ⟨fun _ => h u e t he ht hterm, (h u e t he ht hterm).2⟩

/-- Terminal errors that are gone park nobody. -/
theorem Parked.onlyPolls (h : σ.Parked) (honly : OnlyPolls σ σ') : σ'.Parked := by
  intro u e t he ht hterm
  rw [honly.cache] at he
  obtain ⟨err, herr⟩ := Option.isSome_iff_exists.mp hterm
  refine h u e t he ht ?_
  rw [honly.terminal t err herr]
  rfl

/-- Polls do not unpark anything. -/
theorem ParkedBut.onlyPolls (h : σ.ParkedBut s) (honly : OnlyPolls σ σ') : σ'.ParkedBut s := by
  intro u e t he ht hterm
  rw [honly.cache] at he
  obtain ⟨err, herr⟩ := Option.isSome_iff_exists.mp hterm
  refine h u e t he ht ?_
  rw [honly.terminal t err herr]
  rfl

/-- One entry changed, in a pool with the same polls. -/
theorem parked_put {entry : CacheEntry D} (h : σ.ParkedBut s)
    (hcache : ∀ u, σ'.cache.get u = if u = s then some entry else σ.cache.get u)
    (hterm : ∀ t, σ'.terminalErrorOf t = σ.terminalErrorOf t)
    (hentry : ∀ t ∈ entry.chainTables, (σ.terminalErrorOf t).isSome = true → Parks entry) :
    σ'.Parked := by
  intro u e t he ht htable
  rw [hterm] at htable
  rw [hcache] at he
  split at he
  · cases he
    exact hentry t ht htable
  next hu => exact (h u e t he ht htable).1 hu

/-- **Dispatching a read**: the snapshot fits the terminal errors afterwards, whatever it was. -/
theorem dispatchFetch_reads (fetcher : F) (hreads : Reads σ.cache σ.fetches)
    (hpark : σ.ParkedBut s) :
    OnlyReads σ (σ.dispatchFetch s fetcher) ∧
      Reads (σ.dispatchFetch s fetcher).cache (σ.dispatchFetch s fetcher).fetches ∧
      (σ.dispatchFetch s fetcher).Parked := by
  unfold dispatchFetch
  -- an entry that is gone is not dispatched
  cases hentry : σ.cache.get s with
  | none =>
    refine ⟨.refl σ, hreads, fun u e t he ht hterm => ?_⟩
    refine (hpark u e t he ht hterm).1 ?_
    rintro rfl
    rw [hentry] at he
    cases he
  | some entry =>
    dsimp only
    -- under a table that failed for good the entry shows the error instead
    cases herr : σ.terminalErrorFor entry with
    | some err =>
      dsimp only
      split
      · refine ⟨putEntry_onlyReads hentry, hreads.put (hreads.born s entry hentry) ?_, ?_⟩
        · intro i hi
          have hold := hreads.latest s entry i hentry hi
          exact ⟨hold.dispatched, hold.since, hold.last⟩
        · refine parked_put hpark (fun u => InsMap.get_set _ _ _ _) (fun _ => rfl) ?_
          exact fun t ht hterm => ⟨rfl, (hpark s entry t hentry ht hterm).2⟩
      next hsame =>
        refine ⟨.refl σ, hreads, fun u e t he ht hterm => ?_⟩
        by_cases hu : u = s
        · subst hu
          cases hentry.symm.trans he
          rw [not_or, not_not] at hsame
          exact ⟨hsame.1, (hpark u entry t he ht hterm).2⟩
        · exact (hpark u e t he ht hterm).1 hu
    | none =>
      dsimp only
      -- the read before is aborted, so the new one is the last
      have habort : OnlyReads σ (σ.abortFetch entry.inFlight) := abortFetch_onlyReads _
      have hreads' : Reads σ.cache (σ.abortFetch entry.inFlight).fetches :=
        hreads.congr (abortFetch_sameSignatures entry.inFlight)
      have hcache : (σ.abortFetch entry.inFlight).cache = σ.cache := abortFetch_cache _
      have hnone : ∀ t ∈ entry.chainTables, σ.terminalErrorOf t = none :=
        List.findSome?_eq_none_iff.mp herr
      have hstored : (σ.abortFetch entry.inFlight).cache.get s = some entry := by
        rw [hcache, hentry]
      have hput : OnlyReads (σ.abortFetch entry.inFlight) ((σ.abortFetch entry.inFlight).putEntry s
          (entry.refreshing (σ.abortFetch entry.inFlight).fetches.length)) :=
        putEntry_onlyReads hstored
      refine ⟨habort.trans ⟨rfl, rfl, rfl, rfl, hput.domain⟩, ?_, ?_⟩
      · show Reads ((σ.abortFetch entry.inFlight).cache.set s _)
          ((σ.abortFetch entry.inFlight).fetches ++ [_])
        rw [hcache]
        exact hreads'.dispatch rfl (hreads'.born s entry hentry) rfl
      · have hget : ∀ u, ((σ.abortFetch entry.inFlight).cache.set s
            (entry.refreshing (σ.abortFetch entry.inFlight).fetches.length)).get u =
              if u = s then some (entry.refreshing (σ.abortFetch entry.inFlight).fetches.length)
              else σ.cache.get u := by
          intro u
          rw [InsMap.get_set, hcache]
        refine parked_put hpark hget (fun t => habort.terminalErrorOf t) ?_
        intro t ht hterm
        rw [hnone t ht] at hterm
        cases hterm

end Snapshots

/-! ## The invariant -/

/-- How many attachments name the table. -/
def named (attachments : List (Attachment N)) (t : JsString) : Nat :=
  attachments.countP fun a => t ∈ a.tables

/-- The `notify` of the attachments of a signature. -/
def notifiesOf (attachments : List (Attachment N)) (s : JsString) : List N :=
  (attachments.filter fun a => a.signature = s).map Attachment.notify

/-- Subscribers are the attachments, and signatures with a subscriber are cached. -/
structure Members (σ : PoolState D F N) : Prop where
  tables : ∀ a ∈ σ.attachments, a.tables.Nodup
  distinct : (σ.attachments.map Attachment.notify).Nodup
  subscribers : ∀ s, (σ.subscribersBySignature.get s).getD [] = notifiesOf σ.attachments s
  nonempty : ∀ s, σ.subscribersBySignature.get s ≠ some []
  cached : ∀ s, (σ.cache.get s).isSome = (σ.subscribersBySignature.get s).isSome

/-- **The invariant.** -/
structure Sound (σ : PoolState D F N) : Prop where
  books : σ.BooksAt (named σ.attachments)
  members : σ.Members
  reads : Reads σ.cache σ.fetches
  parked : σ.Parked

section Invariant

variable {σ σ' : PoolState D F N}

/-- Who is subscribed does not depend on reads. -/
theorem Members.onlyReads (h : σ.Members) (honly : OnlyReads σ σ') : σ'.Members where
  tables := by
    rw [honly.attachments]
    exact h.tables
  distinct := by
    rw [honly.attachments]
    exact h.distinct
  subscribers := by
    rw [honly.attachments, honly.subscribers]
    exact h.subscribers
  nonempty := by
    rw [honly.subscribers]
    exact h.nonempty
  cached := by
    intro s
    rw [honly.domain, honly.subscribers]
    exact h.cached s

/-- Nor on polls. -/
theorem Members.onlyPolls (h : σ.Members) (honly : OnlyPolls σ σ') : σ'.Members where
  tables := by
    rw [honly.attachments]
    exact h.tables
  distinct := by
    rw [honly.attachments]
    exact h.distinct
  subscribers := by
    rw [honly.attachments, honly.subscribers]
    exact h.subscribers
  nonempty := by
    rw [honly.subscribers]
    exact h.nonempty
  cached := by
    rw [honly.cache, honly.subscribers]
    exact h.cached

/-- **A step on reads keeps the books** if the account of reads is kept. -/
theorem Sound.onlyReads (h : σ.Sound) (honly : OnlyReads σ σ') (hreads : Reads σ'.cache σ'.fetches)
    (hparked : σ'.Parked) : σ'.Sound where
  books := by
    unfold BooksAt
    rw [honly.tablePolls, honly.polls, honly.attachments]
    exact h.books
  members := h.members.onlyReads honly
  reads := hreads
  parked := hparked

/-- **A step on polls keeps them** if the account of polls is. -/
theorem Sound.onlyPolls (h : σ.Sound) (honly : OnlyPolls σ σ')
    (hbooks : σ'.BooksAt (named σ.attachments)) : σ'.Sound where
  books := by
    rw [honly.attachments]
    exact hbooks
  members := h.members.onlyPolls honly
  reads := by
    rw [honly.cache, honly.fetches]
    exact h.reads
  parked := h.parked.onlyPolls honly

/-- Dispatching a read keeps the books. -/
theorem Sound.dispatchFetch (h : σ.Sound) (s : JsString) (fetcher : F) :
    (σ.dispatchFetch s fetcher).Sound := by
  obtain ⟨honly, hreads, hparked⟩ := dispatchFetch_reads fetcher h.reads (h.parked.but s)
  exact h.onlyReads honly hreads hparked

/-- Invalidating one signature does. -/
theorem Sound.invalidateOne {acc : PoolState D F N × List JsString} (h : acc.1.Sound)
    (table : JsString) (skip : Option JsString) (signature : JsString) :
    (PoolState.invalidateOne table skip acc signature).1.Sound := by
  unfold PoolState.invalidateOne
  split
  · split
    · exact h
    · split
      · exact h
      · exact h.dispatchFetch _ _
  · exact h

/-- Invalidating a table does, one signature after another. -/
theorem Sound.invalidateForTable (h : σ.Sound) (table : JsString) (skip : Option JsString)
    (dispatched : List JsString) : (σ.invalidateForTable table skip dispatched).1.Sound := by
  unfold PoolState.invalidateForTable
  generalize σ.cache.entries.map Prod.fst = signatures
  have hacc : (σ, dispatched).1.Sound := h
  revert hacc
  generalize (σ, dispatched) = acc
  induction signatures generalizing acc with
  | nil => exact fun hacc => hacc
  | cons signature signatures ih => exact fun hacc => ih _ (hacc.invalidateOne table skip signature)

/-- A change of a poll that is none of the books'. -/
structure Unbooked (f : TablePoll → TablePoll) : Prop where
  table : ∀ p, (f p).table = p.table
  refcount : ∀ p, (f p).refcount = p.refcount
  aborted : ∀ p, (f p).aborted = p.aborted

/-- A change of a poll that the books do not look at. -/
theorem Books.update {tablePolls : InsMap JsString Nat} {polls : List TablePoll}
    {count : JsString → Nat} {f : TablePoll → TablePoll} (h : Books tablePolls polls count)
    (hf : Unbooked f) (i : Nat) : Books tablePolls (polls.modify i f) count where
  record := by
    intro t j ht
    obtain ⟨p, hp, htable, hlive, hcount⟩ := h.record t j ht
    rw [List.getElem?_modify, hp]
    by_cases hij : i = j
    · rw [← hf.table] at htable
      rw [← hf.aborted] at hlive
      rw [← hf.refcount] at hcount
      exact ⟨f p, by simp [hij], htable, hlive, hcount⟩
    · exact ⟨p, by simp [hij], htable, hlive, hcount⟩
  absent := h.absent
  current := by
    intro j q hq hlive
    rw [List.getElem?_modify] at hq
    obtain ⟨p, hp, rfl⟩ := Option.map_eq_some_iff.mp hq
    split at hlive
    next hij =>
      rw [if_pos hij, hf.table]
      rw [hf.aborted] at hlive
      exact h.current j p hp hlive
    next hij =>
      rw [if_neg hij]
      exact h.current j p hp hlive

/-- … nor of the entries'. -/
def Unnoticed (f : TablePoll → TablePoll) : Prop :=
  ∀ p, (f p).table = p.table ∧ (f p).refcount = p.refcount ∧ (f p).aborted = p.aborted ∧
    (f p).terminalError = p.terminalError

/-- Such a change keeps everything. -/
theorem Sound.updatePoll {f : TablePoll → TablePoll} (h : σ.Sound) (i : Nat) (hf : Unnoticed f) :
    (σ.updatePoll i f).Sound := by
  have hbooked : Unbooked f := ⟨fun p => (hf p).1, fun p => (hf p).2.1, fun p => (hf p).2.2.1⟩
  exact h.onlyPolls (.update fun p => (hf p).2.2.2) (h.books.update hbooked i)

end Invariant

/-! ## Completions -/

section Completions

variable {σ σ' : PoolState D F N} {table : JsString}

/-- A cached signature has a subscriber. -/
theorem Members.subscribed (h : σ.Members) {s : JsString} {e : CacheEntry D}
    (he : σ.cache.get s = some e) : σ.subscribed s = true := by
  have hcached := h.cached s
  rw [he] at hcached
  obtain ⟨subs, hsubs⟩ := Option.isSome_iff_exists.mp hcached.symm
  unfold PoolState.subscribed
  rw [hsubs]
  refine decide_eq_true fun hlen => h.nonempty s ?_
  rw [Option.getD_some, List.length_eq_zero_iff] at hlen
  rw [hsubs, hlen]

/-- In the loop of `failForTable`: the signatures to come may still have to be parked. -/
structure Failing (σ : PoolState D F N) (table : JsString) (todo : List JsString) : Prop where
  books : σ.BooksAt (named σ.attachments)
  members : σ.Members
  reads : Reads σ.cache σ.fetches
  park : ∀ u e t, σ.cache.get u = some e → t ∈ e.chainTables →
    (σ.terminalErrorOf t).isSome = true → Parks e ∨ (u ∈ todo ∧ table ∈ e.chainTables)

/-- Failing one signature is one less to fail. -/
theorem Failing.failOne {s : JsString} {todo : List JsString} (h : σ.Failing table (s :: todo))
    (error : Err) : (PoolState.failOne table error σ s).Failing table todo := by
  unfold PoolState.failOne
  cases hentry : σ.cache.get s with
  | none =>
    refine ⟨h.books, h.members, h.reads, fun u e t he ht hterm => ?_⟩
    rcases h.park u e t he ht hterm with hparks | ⟨hmem, htable⟩
    · exact Or.inl hparks
    · rcases List.mem_cons.mp hmem with rfl | hmem
      · rw [hentry] at he
        cases he
      · exact Or.inr ⟨hmem, htable⟩
  | some entry =>
    dsimp only
    split
    next hskip =>
      refine ⟨h.books, h.members, h.reads, fun u e t he ht hterm => ?_⟩
      rcases h.park u e t he ht hterm with hparks | ⟨hmem, htable⟩
      · exact Or.inl hparks
      · rcases List.mem_cons.mp hmem with rfl | hmem
        · -- a cached signature that reads the table is not skipped
          cases hentry.symm.trans he
          rcases hskip with hnot | hunsub
          · exact absurd htable hnot
          · rw [h.members.subscribed hentry] at hunsub
            cases hunsub
        · exact Or.inr ⟨hmem, htable⟩
    next =>
      -- the entry parks with the error; nothing but what it reads changed
      have hcache : (σ.abortFetch entry.inFlight).cache = σ.cache := abortFetch_cache _
      have habort : OnlyReads σ (σ.abortFetch entry.inFlight) := abortFetch_onlyReads _
      have hstored : (σ.abortFetch entry.inFlight).cache.get s = some entry := by
        rw [hcache, hentry]
      have honly : OnlyReads σ ((σ.abortFetch entry.inFlight).putEntry s (entry.failed error)) :=
        habort.trans (putEntry_onlyReads hstored)
      refine ⟨?_, h.members.onlyReads honly, ?_, fun u e t he ht hterm => ?_⟩
      · unfold BooksAt
        rw [honly.tablePolls, honly.polls, honly.attachments]
        exact h.books
      · have hreads := h.reads.congr (abortFetch_sameSignatures entry.inFlight)
        show Reads ((σ.abortFetch entry.inFlight).cache.set s _) _
        rw [hcache]
        exact hreads.put (hreads.born s entry hentry) fun i hi => (by cases hi)
      · rw [honly.terminalErrorOf] at hterm
        change ((σ.abortFetch entry.inFlight).cache.set s _).get u = some e at he
        rw [InsMap.get_set, hcache] at he
        split at he
        · cases he
          exact Or.inl ⟨rfl, rfl⟩
        next hu =>
          rcases h.park u e t he ht hterm with hparks | ⟨hmem, htable⟩
          · exact Or.inl hparks
          · rcases List.mem_cons.mp hmem with heq | hmem
            · exact absurd heq hu
            · exact Or.inr ⟨hmem, htable⟩

/-- **After all of them the books are in order again.** -/
theorem Failing.foldl : ∀ {todo : List JsString} {σ : PoolState D F N} (error : Err),
    σ.Failing table todo → (todo.foldl (PoolState.failOne table error) σ).Sound := by
  intro todo
  induction todo with
  | nil =>
    intro σ error h
    refine ⟨h.books, h.members, h.reads, fun u e t he ht hterm => ?_⟩
    rcases h.park u e t he ht hterm with hparks | ⟨hmem, _⟩
    · exact hparks
    · exact absurd hmem List.not_mem_nil
  | cons s todo ih => exact fun error h => ih error (h.failOne error)

/-- **A poll fails for good.** -/
theorem Sound.fail {i : Nat} {poll : TablePoll} (h : σ.Sound) (hpoll : σ.polls[i]? = some poll)
    (error : Err) :
    ((σ.updatePoll i fun p =>
      { p with terminalError := some error, phase := .returned }).failForTable
        poll.table error).Sound := by
  have hbooked : Unbooked fun p : TablePoll =>
      { p with terminalError := some error, phase := .returned } :=
    ⟨fun _ => rfl, fun _ => rfl, fun _ => rfl⟩
  have hmembers : (σ.updatePoll i fun p =>
      { p with terminalError := some error, phase := .returned }).Members :=
    ⟨h.members.tables, h.members.distinct, h.members.subscribers, h.members.nonempty,
      h.members.cached⟩
  refine Failing.foldl error ⟨h.books.update hbooked i, hmembers, h.reads, ?_⟩
  intro u e t he ht hterm
  obtain ⟨err, herr⟩ := Option.isSome_iff_exists.mp hterm
  obtain ⟨j, hj, hbind⟩ := Option.bind_eq_some_iff.mp herr
  by_cases hij : j = i
  · -- the error is the new one: its table is the poll's
    subst hij
    obtain ⟨p, hp, htable, _⟩ := h.books.record t j hj
    cases hpoll.symm.trans hp
    rw [htable]
    refine Or.inr ⟨?_, ht⟩
    exact List.mem_map.mpr ⟨(u, e), InsMap.mem_entries.mpr he, rfl⟩
  · refine Or.inl (h.parked u e t he ht ?_)
    rw [updatePoll_ne hij] at hbind
    have hold : σ.terminalErrorOf t = some err := Option.bind_eq_some_iff.mpr ⟨j, hj, hbind⟩
    rw [hold]
    rfl

/-- An answered poll keeps the books. -/
theorem Sound.pollResponse {i events : Nat} {nextCursor : JsString} (h : σ.Sound)
    (hstep : σ.pollResponse i events nextCursor = some σ') : σ'.Sound := by
  unfold PoolState.pollResponse at hstep
  split at hstep
  · cases hstep
  next poll hpoll =>
    split at hstep
    next requestCursor =>
      split at hstep
      · cases hstep
        refine h.updatePoll i ?_
        exact fun _ => ⟨rfl, rfl, rfl, rfl⟩
      · cases hstep
        have hcursor : (σ.updatePoll i fun p => { p with cursor := nextCursor }).Sound := by
          refine h.updatePoll i ?_
          exact fun _ => ⟨rfl, rfl, rfl, rfl⟩
        have hread : (if 0 < events then ((σ.updatePoll i fun p =>
            { p with cursor := nextCursor }).invalidateForTable poll.table none []).1
            else σ.updatePoll i fun p => { p with cursor := nextCursor }).Sound := by
          split
          · exact hcursor.invalidateForTable _ _ _
          · exact hcursor
        refine Sound.updatePoll ?_ i fun _ => ⟨rfl, rfl, rfl, rfl⟩
        split
        · refine hread.updatePoll i ?_
          exact fun _ => ⟨rfl, rfl, rfl, rfl⟩
        · exact hread
    · cases hstep

/-- So does one that failed, with a terminal error or one to be retried. -/
theorem Sound.pollError {i : Nat} {raw : Raised} (h : σ.Sound)
    (hstep : σ.pollError i raw = some σ') : σ'.Sound := by
  unfold PoolState.pollError at hstep
  split at hstep
  · cases hstep
  next poll hpoll =>
    split at hstep
    · split at hstep
      · cases hstep
        refine h.updatePoll i ?_
        exact fun _ => ⟨rfl, rfl, rfl, rfl⟩
      · split at hstep
        · cases hstep
          refine Sound.updatePoll (Sound.invalidateForTable ?_ _ _ _) i ?_
          rotate_left
          · exact fun _ => ⟨rfl, rfl, rfl, rfl⟩
          refine h.updatePoll i ?_
          exact fun _ => ⟨rfl, rfl, rfl, rfl⟩
        · split at hstep
          · cases hstep
            exact h.fail hpoll _
          · cases hstep
            refine h.updatePoll i ?_
            exact fun _ => ⟨rfl, rfl, rfl, rfl⟩
    · cases hstep

/-- So does the end of a pause. -/
theorem Sound.retryElapsed {i : Nat} (h : σ.Sound) (hstep : σ.retryElapsed i = some σ') :
    σ'.Sound := by
  unfold PoolState.retryElapsed at hstep
  split at hstep
  · cases hstep
  · split at hstep
    · cases hstep
      refine h.updatePoll i ?_
      exact fun _ => ⟨rfl, rfl, rfl, rfl⟩
    · cases hstep

/-- A read that is in flight for an entry settles. -/
theorem Sound.settle {fetches : List (Fetch F)} {s : JsString} {i : Nat} {live e : CacheEntry D}
    (h : σ.Sound) (hsame : SameSignatures σ.fetches fetches) (hlive : σ.cache.get s = some live)
    (hin : live.inFlight = some i) (hborn : e.born = live.born) (hnone : e.inFlight = none)
    (htables : e.chainTables = live.chainTables) :
    (PoolState.putEntry { σ with fetches := fetches } s e).Sound := by
  have honly : OnlyReads σ { σ with fetches := fetches } := ⟨rfl, rfl, rfl, rfl, fun _ => rfl⟩
  have hreads : Reads σ.cache fetches := h.reads.congr hsame
  refine h.onlyReads (honly.trans (putEntry_onlyReads hlive)) ?_ ?_
  · refine hreads.put ?_ fun i hi => ?_
    · rw [hborn]
      exact hreads.born s live hlive
    · rw [hnone] at hi
      cases hi
  · refine parked_put (h.parked.but s) (fun u => InsMap.get_set _ _ _ _) (fun _ => rfl) ?_
    -- a parked entry waits for nothing
    intro t ht hterm
    rw [htables] at ht
    have hparks := (h.parked s live t hlive ht hterm).2
    rw [hin] at hparks
    cases hparks

/-- So does a read that settled, in time or late. -/
theorem Sound.fetchSettled {i : Nat} {r : Except Raised (Option D)} (h : σ.Sound)
    (hstep : σ.fetchSettled i r = some σ') : σ'.Sound := by
  unfold PoolState.fetchSettled at hstep
  split at hstep
  · cases hstep
  next fetch hfetch =>
    have hsame : SameSignatures σ.fetches
        (σ.fetches.modify i fun f => { f with completed := true }) := .modify fun _ => rfl
    have hmarked : ({ σ with
        fetches := σ.fetches.modify i fun f => { f with completed := true } } :
          PoolState D F N).Sound :=
      h.onlyReads ⟨rfl, rfl, rfl, rfl, fun _ => rfl⟩ (h.reads.congr hsame) h.parked
    split at hstep
    · cases hstep
    · dsimp only at hstep
      split at hstep
      · cases hstep
        exact hmarked
      · cases hlive : σ.cache.get fetch.signature with
        | none =>
          rw [hlive] at hstep
          cases hstep
          exact hmarked
        | some live =>
          rw [hlive] at hstep
          dsimp only at hstep
          split at hstep
          · cases hstep
            exact hmarked
          next hin =>
            rw [not_not] at hin
            cases r with
            | ok data =>
              cases hstep
              exact h.settle hsame hlive hin rfl rfl rfl
            | error raw =>
              cases hstep
              exact h.settle hsame hlive hin rfl rfl rfl

end Completions

/-! ## Calls -/

section Calls

variable {σ σ' : PoolState D F N}

/-- Reviving a table keeps them. -/
theorem Sound.reviveOne {acc : PoolState D F N × List JsString} (h : acc.1.Sound)
    (table : JsString) : (PoolState.reviveOne acc table).1.Sound := by
  obtain ⟨honly, hbooks⟩ := restartTerminalPoll_books (t := table) h.books
  exact h.onlyPolls honly hbooks

/-- So does a refetch. -/
theorem Sound.refetch (h : σ.Sound) (signature : JsString) : (σ.refetch signature).Sound := by
  unfold PoolState.refetch
  split
  next entry fetcher _ _ =>
    have hrevive : ∀ (tables : List JsString) (acc : PoolState D F N × List JsString),
        acc.1.Sound → (tables.foldl PoolState.reviveOne acc).1.Sound := by
      intro tables
      induction tables with
      | nil => exact fun acc hacc => hacc
      | cons table tables ih => exact fun acc hacc => ih _ (hacc.reviveOne table)
    have hsiblings : ∀ (tables : List JsString) (acc : PoolState D F N × List JsString),
        acc.1.Sound → (tables.foldl (fun acc table =>
          acc.1.invalidateForTable table (some signature) acc.2) acc).1.Sound := by
      intro tables
      induction tables with
      | nil => exact fun acc hacc => hacc
      | cons table tables ih => exact fun acc hacc => ih _ (hacc.invalidateForTable _ _ _)
    have hrevived : (entry.chainTables.foldl PoolState.reviveOne (σ, [])).1.Sound :=
      hrevive entry.chainTables (σ, []) h
    exact hsiblings _ _ (hrevived.dispatchFetch signature fetcher)
  · exact h

end Calls

/-! ## Attaching and detaching -/

section Attachments

/-- Attachments are notified in the order they came. -/
theorem notifiesOf_append (xs ys : List (Attachment N)) (s : JsString) :
    notifiesOf (xs ++ ys) s = notifiesOf xs s ++ notifiesOf ys s := by
  simp [notifiesOf]

/-- Nobody else is. -/
theorem mem_notifiesOf {attachments : List (Attachment N)} {s : JsString} {n : N}
    (h : n ∈ notifiesOf attachments s) : ∃ a ∈ attachments, a.notify = n := by
  obtain ⟨a, ha, hn⟩ := List.mem_map.mp h
  exact ⟨a, List.mem_of_mem_filter ha, hn⟩

/-- The count of a table adds up over attachments. -/
theorem named_append (xs ys : List (Attachment N)) (t : JsString) :
    named (xs ++ ys) t = named xs t + named ys t :=
  List.countP_append

/-- A table is named once by an attachment that names it. -/
theorem named_singleton {a : Attachment N} (hnodup : a.tables.Nodup) (t : JsString) :
    named [a] t = a.tables.count t := by
  unfold named
  rw [List.countP_singleton]
  by_cases ht : t ∈ a.tables
  · rw [List.count_eq_one_of_mem hnodup ht, if_pos (decide_eq_true ht)]
  · rw [List.count_eq_zero_of_not_mem ht, if_neg (by simpa using ht)]

/-- The attachments without the `i`-th. -/
theorem eraseIdx_split {attachments : List (Attachment N)} {i : Nat} {a : Attachment N}
    (h : attachments[i]? = some a) : ∃ before after, attachments = before ++ a :: after ∧
      attachments.eraseIdx i = before ++ after := by
  obtain ⟨hlt, rfl⟩ := List.getElem?_eq_some_iff.mp h
  refine ⟨attachments.take i, attachments.drop (i + 1), ?_, List.eraseIdx_eq_take_drop_succ ..⟩
  rw [← List.drop_eq_getElem_cons hlt, List.take_append_drop]

/-- The other signatures keep theirs. -/
theorem notifiesOf_other {before after : List (Attachment N)} {a : Attachment N} {s : JsString}
    (hs : s ≠ a.signature) : notifiesOf (before ++ a :: after) s = notifiesOf (before ++ after) s := by
  have hsplit : before ++ a :: after = before ++ ([a] ++ after) := rfl
  have hnone : notifiesOf [a] s = [] := by simp [notifiesOf, Ne.symm hs]
  rw [hsplit, notifiesOf_append, notifiesOf_append, notifiesOf_append, hnone, List.nil_append]

/-- Fewer entries, the same reads. -/
theorem Reads.erase {cache : InsMap JsString (CacheEntry D)} {fetches : List (Fetch F)}
    (h : Reads cache fetches) (s : JsString) : Reads (cache.erase s) fetches := by
  have hget : ∀ u e, (cache.erase s).get u = some e → cache.get u = some e := by
    intro u e he
    rw [InsMap.get_erase] at he
    split at he
    · cases he
    · exact he
  exact ⟨fun u e he => h.born u e (hget u e he), fun u e i he => h.latest u e i (hget u e he)⟩

variable [DecidableEq N] {σ σ' : PoolState D F N}

/-- A new attachment is one more member of its signature. -/
theorem Members.enter {s : JsString} {tables chainTables : List JsString} {fetcher : F} {notify : N}
    (h : σ.Members) (hnodup : tables.Nodup) (hfresh : ∀ a ∈ σ.attachments, a.notify ≠ notify) :
    (σ.enter s tables chainTables fetcher notify).Members := by
  have hnew : notify ∉ (σ.subscribersBySignature.get s).getD [] := by
    rw [h.subscribers s]
    intro hmem
    obtain ⟨a, ha, heq⟩ := mem_notifiesOf hmem
    exact hfresh a ha heq
  have hsubs : ∀ u, (σ.enter s tables chainTables fetcher notify).subscribersBySignature.get u =
      if u = s then some ((σ.subscribersBySignature.get s).getD [] ++ [notify])
      else σ.subscribersBySignature.get u := by
    intro u
    show (σ.subscribersBySignature.set s _).get u = _
    rw [InsMap.get_set, if_neg hnew]
  refine ⟨?_, ?_, fun u => ?_, fun u => ?_, fun u => ?_⟩
  · intro a ha
    rcases List.mem_append.mp ha with ha | ha
    · exact h.tables a ha
    · rw [List.mem_singleton.mp ha]
      exact hnodup
  · show ((σ.attachments ++ [_]).map Attachment.notify).Nodup
    rw [List.map_append, List.nodup_append]
    refine ⟨h.distinct, List.nodup_singleton _, fun n hn m hm => ?_⟩
    obtain ⟨a, ha, rfl⟩ := List.mem_map.mp hn
    rw [List.map_singleton, List.mem_singleton] at hm
    rw [hm]
    exact hfresh a ha
  · show _ = notifiesOf (σ.attachments ++ [_]) u
    rw [hsubs, notifiesOf_append, ← h.subscribers u]
    by_cases hu : u = s
    · rw [if_pos hu, hu]
      simp [notifiesOf]
    · rw [if_neg hu]
      simp [notifiesOf, Ne.symm hu]
  · rw [hsubs]
    split
    · simp
    · exact h.nonempty u
  · rw [hsubs]
    show ((if σ.cache.has s then σ.cache else σ.cache.set s _).get u).isSome = _
    by_cases hu : u = s
    · rw [if_pos hu, hu]
      split
      next hhas => exact hhas
      next =>
        rw [InsMap.get_set, if_pos rfl]
        rfl
    · rw [if_neg hu, ← h.cached u]
      split
      · rfl
      · rw [InsMap.get_set, if_neg hu]

/-- **Attaching.** -/
theorem Sound.attach {s : JsString} {tables chainTables : List JsString} {fetcher : F} {notify : N}
    (h : σ.Sound) (hnodup : tables.Nodup) (hfresh : ∀ a ∈ σ.attachments, a.notify ≠ notify) :
    (σ.attach s tables chainTables fetcher notify).Sound := by
  have hmembers : (σ.enter s tables chainTables fetcher notify).Members :=
    h.members.enter hnodup hfresh
  have hentered : (σ.enter s tables chainTables fetcher notify).BooksAt (named σ.attachments) :=
    h.books
  obtain ⟨honly, hbooks⟩ := foldl_incrementTablePoll tables hentered
  have hcount : (tables.foldl incrementTablePoll
      (σ.enter s tables chainTables fetcher notify)).BooksAt
        (named (σ.attachments ++ [⟨s, tables, notify⟩])) := by
    refine hbooks.congr fun t => ?_
    rw [named_append, named_singleton hnodup]
  unfold PoolState.attach
  dsimp only
  cases hhas : σ.cache.has s with
  | true =>
    have hcache : (σ.enter s tables chainTables fetcher notify).cache = σ.cache := if_pos hhas
    have hparked : (σ.enter s tables chainTables fetcher notify).Parked := by
      intro u e t he ht hterm
      rw [hcache] at he
      exact h.parked u e t he ht hterm
    refine ⟨?_, hmembers.onlyPolls honly, ?_, hparked.onlyPolls honly⟩
    · show (tables.foldl incrementTablePoll _).BooksAt
        (named (tables.foldl incrementTablePoll _).attachments)
      rw [honly.attachments]
      exact hcount
    · show Reads (tables.foldl incrementTablePoll _).cache
        (tables.foldl incrementTablePoll _).fetches
      rw [honly.cache, honly.fetches, hcache]
      exact h.reads
  | false =>
    have hcache : (σ.enter s tables chainTables fetcher notify).cache =
        σ.cache.set s ⟨loadingSnapshot, false, chainTables, none, σ.fetches.length⟩ :=
      if_neg (by rw [hhas]; simp)
    have hpark : (σ.enter s tables chainTables fetcher notify).ParkedBut s := by
      intro u e t he ht hterm
      rw [hcache, InsMap.get_set] at he
      split at he
      next hu =>
        cases he
        exact ⟨fun hne => absurd hu hne, rfl⟩
      · exact ((h.parked.but s) u e t he ht hterm)
    have hreads : Reads (σ.enter s tables chainTables fetcher notify).cache
        (σ.enter s tables chainTables fetcher notify).fetches := by
      rw [hcache]
      exact h.reads.put (Nat.le_refl _) fun i hi => (by cases hi)
    have hreads' : Reads (tables.foldl incrementTablePoll
        (σ.enter s tables chainTables fetcher notify)).cache (tables.foldl incrementTablePoll
          (σ.enter s tables chainTables fetcher notify)).fetches := by
      rw [honly.cache, honly.fetches]
      exact hreads
    obtain ⟨hreadsOnly, hdone, hparked⟩ :=
      dispatchFetch_reads fetcher hreads' (hpark.onlyPolls honly)
    refine ⟨?_, (hmembers.onlyPolls honly).onlyReads hreadsOnly, hdone, hparked⟩
    show (PoolState.dispatchFetch _ s fetcher).BooksAt
      (named (PoolState.dispatchFetch _ s fetcher).attachments)
    unfold BooksAt
    rw [hreadsOnly.attachments, hreadsOnly.tablePolls, hreadsOnly.polls, honly.attachments]
    exact hcount

/-- The subscribers that are left when one goes. -/
theorem notifiesOf_without {before after : List (Attachment N)} {a : Attachment N}
    (hdistinct : ((before ++ a :: after).map Attachment.notify).Nodup) (s : JsString) :
    (notifiesOf (before ++ a :: after) s).filter (· ≠ a.notify) =
      notifiesOf (before ++ after) s := by
  have hother : ∀ xs : List (Attachment N), (∀ b ∈ xs, b.notify ≠ a.notify) →
      (notifiesOf xs s).filter (· ≠ a.notify) = notifiesOf xs s := by
    intro xs hxs
    refine List.filter_eq_self.mpr fun n hn => ?_
    obtain ⟨b, hb, rfl⟩ := mem_notifiesOf hn
    simpa using hxs b hb
  rw [List.map_append, List.map_cons, List.nodup_append] at hdistinct
  obtain ⟨_, hcons, hdisjoint⟩ := hdistinct
  rw [List.nodup_cons] at hcons
  have hbefore := hother before fun b hb =>
    hdisjoint b.notify (List.mem_map_of_mem hb) a.notify List.mem_cons_self
  have hafter := hother after fun b hb heq => hcons.1 (heq ▸ List.mem_map_of_mem hb)
  have hself : (notifiesOf [a] s).filter (· ≠ a.notify) = [] := by
    rw [List.filter_eq_nil_iff]
    intro n hn
    obtain ⟨b, hb, rfl⟩ := mem_notifiesOf hn
    rw [List.mem_singleton.mp hb]
    simp
  have hsplit : before ++ a :: after = before ++ ([a] ++ after) := rfl
  rw [hsplit, notifiesOf_append, notifiesOf_append, notifiesOf_append, List.filter_append,
    List.filter_append, hbefore, hafter, hself, List.nil_append]

/-- Sound, with the references of an attachment that is no longer there. -/
structure Detached (σ : PoolState D F N) (count : JsString → Nat) : Prop where
  books : σ.BooksAt count
  members : σ.Members
  reads : Reads σ.cache σ.fetches
  parked : σ.Parked

/-- **Dropping a subscriber**, of whom the attachments do not know any more. -/
theorem Sound.dropSubscriber {before after : List (Attachment N)} {a : Attachment N} (h : σ.Sound)
    (hatts : σ.attachments = before ++ a :: after) :
    (PoolState.dropSubscriber { σ with attachments := before ++ after } a.signature
        a.notify).Detached (named σ.attachments) ∧
      (PoolState.dropSubscriber { σ with attachments := before ++ after } a.signature
        a.notify).attachments = before ++ after := by
  have hsub : (before ++ after).Sublist (before ++ a :: after) :=
    (List.sublist_cons_self a after).append_left before
  have htables : ∀ b ∈ before ++ after, b.tables.Nodup :=
    fun b hb => h.members.tables b (hatts ▸ hsub.subset hb)
  have hall : ((before ++ a :: after).map Attachment.notify).Nodup := hatts ▸ h.members.distinct
  have hdistinct : ((before ++ after).map Attachment.notify).Nodup :=
    (hsub.map Attachment.notify).nodup hall
  have hold : ∀ u, (σ.subscribersBySignature.get u).getD [] = notifiesOf (before ++ a :: after) u :=
    fun u => hatts ▸ h.members.subscribers u
  have hother : ∀ u, u ≠ a.signature →
      (σ.subscribersBySignature.get u).getD [] = notifiesOf (before ++ after) u :=
    fun u hu => (hold u).trans (notifiesOf_other hu)
  unfold PoolState.dropSubscriber
  dsimp only
  cases hsubs : σ.subscribersBySignature.get a.signature with
  | none =>
    -- the attachment itself is a subscriber
    have hmem : a.notify ∈ notifiesOf (before ++ a :: after) a.signature := by
      refine List.mem_map_of_mem (List.mem_filter.mpr ⟨by simp, by simp⟩)
    rw [← hold, hsubs] at hmem
    exact absurd hmem List.not_mem_nil
  | some subs =>
    have hleft : subs.filter (· ≠ a.notify) = notifiesOf (before ++ after) a.signature := by
      have hsubs' := hold a.signature
      rw [hsubs, Option.getD_some] at hsubs'
      rw [hsubs', notifiesOf_without hall]
    dsimp only
    split
    next hnone =>
      generalize (σ.cache.get a.signature).bind CacheEntry.inFlight = inFlight
      have habort : OnlyReads { σ with attachments := before ++ after }
          (PoolState.abortFetch { σ with attachments := before ++ after } inFlight) :=
        abortFetch_onlyReads inFlight
      have hcache : (PoolState.abortFetch { σ with attachments := before ++ after } inFlight).cache =
          σ.cache := abortFetch_cache inFlight
      have hreads : Reads σ.cache
          (PoolState.abortFetch { σ with attachments := before ++ after } inFlight).fetches :=
        h.reads.congr (abortFetch_sameSignatures inFlight)
      have hlast : notifiesOf (before ++ after) a.signature = [] := hleft ▸ hnone
      refine ⟨⟨?_, ⟨?_, ?_, fun u => ?_, fun u => ?_, fun u => ?_⟩, ?_, ?_⟩, habort.attachments⟩
      · show Books _ _ _
        rw [habort.tablePolls, habort.polls]
        exact h.books
      · show ∀ b ∈ (PoolState.abortFetch _ _).attachments, _
        rw [habort.attachments]
        exact htables
      · show ((PoolState.abortFetch _ _).attachments.map _).Nodup
        rw [habort.attachments]
        exact hdistinct
      · show (((PoolState.abortFetch _ _).subscribersBySignature.erase a.signature).get u).getD [] =
          notifiesOf (PoolState.abortFetch _ _).attachments u
        rw [habort.attachments, habort.subscribers, InsMap.get_erase]
        split
        next hu =>
          rw [hu]
          exact hlast.symm
        next hu => exact hother u hu
      · show ((PoolState.abortFetch _ _).subscribersBySignature.erase a.signature).get u ≠ _
        rw [habort.subscribers, InsMap.get_erase]
        split
        · exact fun heq => (by cases heq)
        · exact h.members.nonempty u
      · show (((PoolState.abortFetch _ _).cache.erase a.signature).get u).isSome =
          (((PoolState.abortFetch _ _).subscribersBySignature.erase a.signature).get u).isSome
        rw [habort.subscribers, hcache, InsMap.get_erase, InsMap.get_erase]
        split
        · rfl
        · exact h.members.cached u
      · show Reads ((PoolState.abortFetch _ _).cache.erase a.signature) _
        rw [hcache]
        exact hreads.erase a.signature
      · intro u e t he ht hterm
        change ((PoolState.abortFetch _ _).cache.erase a.signature).get u = some e at he
        rw [hcache, InsMap.get_erase] at he
        split at he
        · cases he
        · refine h.parked u e t he ht ?_
          have hsame := habort.terminalErrorOf t
          exact (congrArg Option.isSome hsame).symm.trans hterm
    next hsome =>
      have hget : ∀ u, (σ.subscribersBySignature.set a.signature
          (subs.filter (· ≠ a.notify))).get u = if u = a.signature then
            some (subs.filter (· ≠ a.notify)) else σ.subscribersBySignature.get u :=
        fun u => InsMap.get_set _ _ _ _
      refine ⟨⟨h.books, ⟨htables, hdistinct, fun u => ?_, fun u => ?_, fun u => ?_⟩, h.reads,
        h.parked⟩, rfl⟩
      · show ((σ.subscribersBySignature.set a.signature _).get u).getD [] = _
        rw [hget]
        split
        next hu =>
          rw [hu]
          exact hleft
        next hu => exact hother u hu
      · show (σ.subscribersBySignature.set a.signature _).get u ≠ _
        rw [hget]
        split
        · exact fun heq => hsome (Option.some.inj heq)
        · exact h.members.nonempty u
      · show _ = ((σ.subscribersBySignature.set a.signature _).get u).isSome
        rw [hget]
        split
        next hu =>
          rw [hu]
          exact (h.members.cached a.signature).trans (by rw [hsubs]; rfl)
        · exact h.members.cached u

/-- **Detaching.** -/
theorem Sound.unsubscribe {i : Nat} (h : σ.Sound) (hstep : σ.unsubscribe i = some σ') :
    σ'.Sound := by
  unfold PoolState.unsubscribe at hstep
  split at hstep
  · cases hstep
  next a ha =>
    obtain ⟨before, after, hatts, herase⟩ := eraseIdx_split ha
    rw [herase] at hstep
    cases hstep
    obtain ⟨hdetached, hleft⟩ := h.dropSubscriber hatts
    have hnodup : a.tables.Nodup := h.members.tables a (List.mem_of_getElem? ha)
    have hnamed : ∀ t, named σ.attachments t = named (before ++ after) t + a.tables.count t := by
      intro t
      have hsplit : before ++ a :: after = before ++ ([a] ++ after) := rfl
      rw [hatts, hsplit, named_append, named_append, named_append, named_singleton hnodup]
      omega
    have hle : ∀ t, a.tables.count t ≤ named σ.attachments t := by
      intro t
      rw [hnamed]
      omega
    obtain ⟨honly, hbooks⟩ := foldl_stopTablePoll a.tables hdetached.books hle
    refine ⟨?_, hdetached.members.onlyPolls honly, ?_, hdetached.parked.onlyPolls honly⟩
    · rw [honly.attachments, hleft]
      refine hbooks.congr fun t => ?_
      rw [hnamed]
      omega
    · rw [honly.cache, honly.fetches]
      exact hdetached.reads

end Attachments

/-! ## Runs -/

section Runs

variable {σ σ' : PoolState D F N}

/-- An empty pool has its books in order. -/
theorem sound_init : (init : PoolState D F N).Sound where
  books := ⟨fun t i h => (by cases h), fun _ _ => rfl, fun i p h => (by cases h)⟩
  members := ⟨fun a ha => absurd ha List.not_mem_nil, List.nodup_nil, fun _ => rfl,
    fun s h => (by cases h), fun _ => rfl⟩
  reads := ⟨fun s e h => (by cases h), fun s e i h => (by cases h)⟩
  parked := fun s e t h => (by cases h)

/-- What a settled read does to the snapshots: nothing, or it is the last of the entry it changes. -/
theorem Sound.settled {i : Nat} {r : Except Raised (Option D)} (h : σ.Sound)
    (hstep : σ.fetchSettled i r = some σ') (s : JsString) :
    (σ'.cache.get s).map CacheEntry.snapshot = (σ.cache.get s).map CacheEntry.snapshot ∨
      ∃ e, σ.cache.get s = some e ∧ Latest σ.fetches e s i := by
  unfold PoolState.fetchSettled at hstep
  split at hstep
  · cases hstep
  next fetch hfetch =>
    split at hstep
    · cases hstep
    · dsimp only at hstep
      split at hstep
      · cases hstep
        exact Or.inl rfl
      · cases hlive : σ.cache.get fetch.signature with
        | none =>
          rw [hlive] at hstep
          cases hstep
          exact Or.inl rfl
        | some live =>
          rw [hlive] at hstep
          dsimp only at hstep
          split at hstep
          · cases hstep
            exact Or.inl rfl
          next hin =>
            rw [not_not] at hin
            by_cases hs : s = fetch.signature
            · subst hs
              exact Or.inr ⟨live, hlive, h.reads.latest _ live i hlive hin⟩
            · have hother : ∀ e : CacheEntry D,
                  ((σ.cache.set fetch.signature e).get s) = σ.cache.get s := by
                intro e
                rw [InsMap.get_set, if_neg hs]
              cases r with
              | ok data =>
                cases hstep
                exact Or.inl (congrArg (Option.map CacheEntry.snapshot) (hother _))
              | error raw =>
                cases hstep
                exact Or.inl (congrArg (Option.map CacheEntry.snapshot) (hother _))

variable [DecidableEq N]

/-- **One turn keeps the invariant.** -/
theorem Sound.next {act : PoolAct D F N} (h : σ.Sound) (hstep : σ.next act = some σ') : σ'.Sound := by
  cases act with
  | attach signature tables chainTables fetcher notify =>
    simp only [PoolState.next] at hstep
    split at hstep
    next hcaller =>
      cases hstep
      exact h.attach hcaller.1 hcaller.2
    · cases hstep
  | unsubscribe i => exact h.unsubscribe hstep
  | refetch signature =>
    cases hstep
    exact h.refetch signature
  | pollResponse i events nextCursor => exact h.pollResponse hstep
  | pollError i raw => exact h.pollError hstep
  | retryElapsed i => exact h.retryElapsed hstep
  | fetchSettled i r => exact h.fetchSettled hstep

/-- **So they are after every run**, by induction on its steps. -/
theorem Sound.run {acts : List (PoolAct D F N)} : ∀ {σ σ' : PoolState D F N}, σ.Sound →
    σ.run acts = some σ' → σ'.Sound := by
  induction acts with
  | nil =>
    intro σ σ' h hrun
    cases hrun
    exact h
  | cons act acts ih =>
    intro σ σ' h hrun
    obtain ⟨ρ, hnext, hrest⟩ := Option.bind_eq_some_iff.mp hrun
    exact ih (h.next hnext) hrest

/-- And in every reachable state. -/
theorem Reachable.sound (h : σ.Reachable) : σ.Sound := by
  obtain ⟨acts, hrun⟩ := h
  exact sound_init.run hrun

/-- **The pool keeps its books.**  In every state that attaching, detaching, refetching, polling and
    reading can lead to:
    a table has a record iff an attachment names it, with as many references as there are such
    attachments, and of the loops polling for it at most one is not aborted;
    a signature has an entry iff it has a subscriber;
    a read that settles changes a snapshot only if it is the last one dispatched for that signature
    since the entry was made;
    and where the record of a table holds a terminal error, the entries that read it show an
    error. -/
theorem pool_keeps_books (σ : PoolState D F N) (h : σ.Reachable) :
    (∀ t, (σ.tablePolls.has t = true ↔ ∃ a ∈ σ.attachments, t ∈ a.tables) ∧
      (∀ i, σ.tablePolls.get t = some i → ∃ p, σ.polls[i]? = some p ∧ p.table = t ∧
        p.refcount = (σ.attachments.filter fun a => t ∈ a.tables).length) ∧
      ∀ (i j : Nat) (p q : TablePoll), σ.polls[i]? = some p → σ.polls[j]? = some q →
        p.table = t → q.table = t → p.phase ≠ .returned → q.phase ≠ .returned →
        p.aborted = false → q.aborted = false → i = j) ∧
    (∀ s, σ.cache.has s = true ↔ ∃ a ∈ σ.attachments, a.signature = s) ∧
    (∀ s, σ.cache.has s = true ↔ (σ.subscribersBySignature.get s).getD [] ≠ []) ∧
    (∀ i r σ', σ.next (.fetchSettled i r) = some σ' → ∀ s : JsString,
      (σ'.cache.get s).map CacheEntry.snapshot ≠ (σ.cache.get s).map CacheEntry.snapshot →
        ∃ e, σ.cache.get s = some e ∧ Latest σ.fetches e s i) ∧
    ∀ (t : JsString) (i : Nat) (p : TablePoll) (s : JsString) (e : CacheEntry D),
      σ.tablePolls.get t = some i → σ.polls[i]? = some p → p.terminalError ≠ none →
      σ.cache.get s = some e → t ∈ e.chainTables → e.snapshot.status = .error := by
  have hsound := h.sound
  have hcached : ∀ s, σ.cache.has s = true ↔
      (σ.subscribersBySignature.get s).getD [] ≠ [] := by
    intro s
    unfold InsMap.has
    rw [hsound.members.cached s]
    cases hsubs : σ.subscribersBySignature.get s with
    | none => simp
    | some subs =>
      have hne : subs ≠ [] := fun heq => hsound.members.nonempty s (hsubs.trans (by rw [heq]))
      simpa using hne
  refine ⟨fun t => ⟨?_, fun i hi => ?_, ?_⟩, fun s => ?_, hcached, ?_, ?_⟩
  · have hpos : 0 < named σ.attachments t ↔ ∃ a ∈ σ.attachments, t ∈ a.tables := by
      unfold named
      rw [List.countP_pos_iff]
      simp
    rw [← hpos]
    unfold InsMap.has
    cases hget : σ.tablePolls.get t with
    | none =>
      have hzero := hsound.books.absent t hget
      simp [hzero]
    | some i =>
      obtain ⟨p, _, _, _, _, hlive⟩ := hsound.books.record t i hget
      simp [hlive]
  · obtain ⟨p, hp, htable, _, hcount, _⟩ := hsound.books.record t i hi
    refine ⟨p, hp, htable, ?_⟩
    rw [hcount, named, List.countP_eq_length_filter]
  · intro i j p q hp hq htp htq _ _ hlp hlq
    have hi := hsound.books.current i p hp hlp
    have hj := hsound.books.current j q hq hlq
    rw [htp] at hi
    rw [htq, hi] at hj
    exact Option.some.inj hj
  · rw [hcached, hsound.members.subscribers, Ne, ← List.isEmpty_iff, Bool.not_eq_true]
    simp [notifiesOf]
  · intro i r σ' hstep s hchanged
    exact (hsound.settled hstep s).resolve_left hchanged
  · intro t i p s e hi hp hterm he ht
    refine (hsound.parked s e t he ht ?_).1
    show ((σ.tablePolls.get t).bind fun i => (σ.polls[i]?).bind TablePoll.terminalError).isSome = true
    rw [hi, Option.bind_some, hp, Option.bind_some]
    exact Option.isSome_iff_ne_none.mpr hterm

/-! ### A poll that fails for good -/

/-- One component reads one table; its read succeeds, then the poll is refused. -/
def refusedPoll : List (PoolAct Nat Unit Nat) :=
  [.attach (js "s") [js "notes"] [js "notes"] () 0, .fetchSettled 0 (.ok (some 7)),
    .pollError 0 (.error (.mk .unauthorized "no identity"))]

/-- A table whose poll was refused: the entry has data and shows the error. -/
theorem pool_keeps_books_refused : ∃ σ : PoolState Nat Unit Nat, σ.Reachable ∧
    (σ.cache.get (js "s")).map (fun e => e.snapshot.data) = some (some 7) ∧
    σ.tablePolls.has (js "notes") = true ∧ (∃ a ∈ σ.attachments, js "notes" ∈ a.tables) ∧
    ∃ e, σ.cache.get (js "s") = some e ∧ e.snapshot.status = .error := by
  have hrun : ((init : PoolState Nat Unit Nat).run refusedPoll).map (fun σ =>
      ((σ.cache.get (js "s")).map fun e => (e.snapshot.data, e.chainTables),
        σ.tablePolls.get (js "notes"), (σ.polls[0]?).map TablePoll.terminalError)) =
      some (some (some 7, [js "notes"]), some 0, some (some (.mk .unauthorized "no identity"))) := by
    decide +kernel
  obtain ⟨σ, hend, hfacts⟩ := Option.map_eq_some_iff.mp hrun
  simp only [Prod.mk.injEq] at hfacts
  obtain ⟨hentry, hrecord, hterm⟩ := hfacts
  obtain ⟨e, he, heq⟩ := Option.map_eq_some_iff.mp hentry
  simp only [Prod.mk.injEq] at heq
  obtain ⟨p, hp, hperr⟩ := Option.map_eq_some_iff.mp hterm
  have hreach : σ.Reachable := ⟨refusedPoll, hend⟩
  obtain ⟨hbooks, _, _, _, hparked⟩ := pool_keeps_books σ hreach
  have hhas : σ.tablePolls.has (js "notes") = true := by
    unfold InsMap.has
    rw [hrecord]
    rfl
  refine ⟨σ, hreach, ?_, hhas, (hbooks (js "notes")).1.mp hhas, e, he, ?_⟩
  · rw [he, Option.map_some, heq.1]
  · refine hparked (js "notes") 0 p (js "s") e hrecord hp ?_ he ?_
    · rw [hperr]
      simp
    · rw [heq.2]
      exact List.mem_singleton_self _

end Runs

end PoolState

end Baerly
