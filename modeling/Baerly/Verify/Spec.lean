import Baerly.Verify.Delivery

/-
  What the threads agree on: the invariant, what each tolerates from the others, and what every
  kind of call owes when it finishes.

  A read of a log slot is only as good as the slot: above the certified floor it tells what is
  committed there, below it tells nothing.  `ReadFact` is that knowledge, with the record of the
  read itself, so that a property can be stated for the runs whose reads were good.
-/

namespace Baerly

open Async

/-! ## Interference -/

/-- What thread `t` tolerates from everybody else. -/
structure Rely (t : Nat) (w w' : World) : Prop where
  evolves : Evolves w w'
  /-- Nobody else sends in its name … -/
  owned : ∀ (i : Nat) (m : Msg), w'.net[i]? = some m → m.owner = t → i < w.net.length
  /-- … or reads in its name. -/
  events : w'.eventsOf t = w.eventsOf t

/-- An id nobody has used. -/
structure Fresh (t : Nat) (w : World) : Prop where
  msgs : ∀ m ∈ w.net, m.owner ≠ t
  events : w.eventsOf t = []

/-- The manifest reads of a thread in order, each with the committed tail at that moment. -/
def World.manifestReads (t : Nat) (w : World) : List (Option CurrentJson × Nat) :=
  (w.eventsOf t).filterMap fun
    | .readCurrent _ found tail => some (found, tail)
    | .readLog _ _ _ _ _ => none

/-- Thread `t` sent no create in between. -/
structure Calm (t : Nat) (w w' : World) : Prop where
  evolves : Evolves w w'
  creates : ∀ (i : Nat) (m : Msg), w.net.length ≤ i → w'.net[i]? = some m → m.owner = t →
    m.req.isCreateLog = false

/-- … and did not read the manifest either. -/
structure Quiet (t : Nat) (w w' : World) : Prop extends Calm t w w' where
  reads : w'.manifestReads t = w.manifestReads t

/-! ## Knowledge -/

/-- Thread `t` read slot `n` and got `v`, at a moment when the tail was at least `since`. -/
structure ReadFact (t : Nat) (why : Purpose) (since n : Nat) (v : Option LogEntry) (w : World) :
    Prop where
  event : ∃ k, Event.readLog t why n v k ∈ w.trace ∧
    -- `k` is what was committed there
    (∀ e, k = some e → w.hist[n]? = some e) ∧ (k = none → since ≤ n) ∧
    -- above the floor the answer is the truth
    (v = k ∨ n < w.floor)
  occupied : ∀ e, v = some e → n < w.tail ∧ EntryOk n e

/-- Every create of thread `t` is dead. -/
def AllDead (t : Nat) (w : World) : Prop :=
  ∀ m ∈ w.net, m.owner = t → m.req.isCreateLog = true → Dead w m

/-- Every read of thread `t` for this purpose returned exactly what is committed at its slot. -/
def Exact (why : Purpose) (t : Nat) (w : World) : Prop :=
  ∀ n v k, Event.readLog t why n v k ∈ w.trace → v = k

/-! ## What a call owes -/

/-- The rejections that leave the fate of a commit open. -/
def Err.fateOpen : Err → Bool
  | .baerly .ambiguousCommit _ _ _ => true
  | .abort => true
  | _ => false

/-- What a commit owes.  A fresh one whose floor check ran has its entry in the committed
    sequence; one that replayed, or that rejects with a definite error, has none. -/
def CommitPost (t : Nat) (r : Except Err CommitSuccess) (w : World) : Prop :=
  match r with
  | .ok s =>
    if s.replayed then Genuine t w → AllDead t w
    else s.floorChecked = true → w.hist[s.entry.seq]? = some s.entry ∧ s.entry.session = t ∧
      ∃ json tail, Event.readCurrent t (some json) tail ∈ w.trace ∧
        certifiedDeleteFloor json ≤ s.entry.seq
  | .error e => e.fateOpen = false → Genuine t w → AllDead t w

section Owes

variable (codec : Codec) (c : Collection)

/-- What a newly inserted row owes: the row was absent right below its slot. -/
def NewlyInserted (t : Nat) (id : JsString) (s : CommitSuccess) (w : World) : Prop :=
  s.replayed = false → s.entry.docId = id ∧ s.entry.op = .I ∧ s.entry.seq ≤ w.tail ∧
    (Honest t w → (committedRows c w.hist s.entry.seq).get id = none)

/-- What an insert owes. -/
def InsertPost (t : Nat) (r : Except Err (JsString × Option CommitSuccess)) (w : World) : Prop :=
  match r with
  | .ok (_, none) => AllDead t w
  | .ok (id, some s) => CommitPost t (.ok s) w ∧ NewlyInserted c t id s w
  | .error e => CommitPost t (.error e) w

/-- The document satisfies the predicate. -/
def satisfies (wire : Option PredicateWire) (doc : Doc) : Bool :=
  match wire with
  | none => true
  | some p =>
    match matchesWire p doc with
    | .ok b => b
    | .error _ => false

/-- The rows of the committed prefix `[0, n)` that satisfy the predicate. -/
def matchingRows (hist : List LogEntry) (n : Nat) (wire : Option PredicateWire) :
    List StoredRow :=
  (committedRows c hist n).entries.filter fun row => satisfies wire row.2

/-- `rows.slice(0, limit)`, or all of them. -/
def takeLimit (limit : Option Nat) (rows : List StoredRow) : List StoredRow :=
  match limit with
  | some n => rows.take n
  | none => rows

/-- What a scan owes when its log reads were exact: the rows of one committed prefix, no shorter
    than what was committed when it started. -/
def ReadPost (t : Nat) (state : QueryState) (start : World) (r : Except Err ReadRows)
    (w : World) : Prop :=
  ∀ res, r = .ok res → Exact .scan t w → ∃ n, start.tail ≤ n ∧ n ≤ w.tail ∧
    ∃ rows, rows.Perm (matchingRows c w.hist n state.wire) ∧
      res.rows = takeLimit state.limit rows

/-- What one poll from `cursor` did, given the tail at its manifest read. -/
def PollOk (t : Nat) (w : World) (cursor : Cursor) (p : Polled) (tailAtRead : Nat) : Prop :=
  match p.head with
  | none => p.events = [] ∧ tailAtRead = 0
  | some m => ManifestOk codec c w m ∧ p.generation = m.generation ∧
    ∃ start tail, feedStart m cursor = .ok start ∧
      ReadFact t .feedTail tailAtRead tail none w ∧
      ∃ answers : Nat → Option LogEntry,
        (∀ n, start ≤ n → n < min tail (start + defaultMaxEvents) →
          ReadFact t .feed tail n (answers n) w) ∧
        p.events = (List.range' start
          (min tail (start + defaultMaxEvents) - start)).filterMap answers

/-- How a long poll resolves from its polls: with the events of the last one, or with none. -/
def Resolves (cursor : Cursor) (res : SinceResponse) : Prop :=
  (res.events = [] ∧ res.next = cursor ∧ ∀ p ∈ res.polls, p.events = []) ∨
    ∃ ps p, res.polls = ps ++ [p] ∧ (∀ q ∈ ps, q.events = []) ∧ p.events = res.events ∧
      p.events ≠ [] ∧ res.next = nextCursor cursor p

/-- A run of long polls and the manifest reads they made. -/
def FeedOk (t : Nat) (w : World) : Cursor → List SinceResponse →
    List (Option CurrentJson × Nat) → Prop
  | _, [], reads => reads = []
  | cursor, res :: rest, reads => ∃ own others, reads = own ++ others ∧
    List.Forall₂ (fun p read => p.head = read.1 ∧ PollOk codec c t w cursor p read.2)
      res.polls own ∧
    Resolves cursor res ∧ FeedOk t w res.next rest others

/-- What a subscription owes. -/
def FeedPost (t : Nat) (cursor : Cursor) (r : Except Err (List SinceResponse)) (w : World) :
    Prop :=
  ∀ rs, r = .ok rs → FeedOk codec c t w cursor rs (w.manifestReads t)

/-- **What every call owes.** -/
def post (t : Nat) : (call : Call) → World → Except Err (Res call) → World → Prop
  | .commit _ _, _, r, w => CommitPost t r w
  | .insert _ _ _ _, _, r, w => InsertPost c t r w
  | .read state, start, r, w => ReadPost c t state start r w
  | .subscribe _ _ _ cursor, _, r, w => FeedPost codec c t cursor r w
  | _, _, _, _ => True

end Owes

/-! ## The protocol -/

theorem Rely.refl (t : Nat) (w : World) : Rely t w w :=
  ⟨.refl w, fun _ _ hi _ => (List.getElem?_eq_some_iff.mp hi).1, rfl⟩

theorem Rely.trans {t : Nat} {w w' w'' : World} (h : Rely t w w') (h' : Rely t w' w'') :
    Rely t w w'' where
  evolves := h.evolves.trans h'.evolves
  owned := by
    intro i m hi hown
    have hlt := h'.owned i m hi hown
    obtain ⟨m', hm', he⟩ := h'.evolves.net_back hlt hi
    exact h.owned i m' hm' (he.owner.symm.trans hown)
  events := h'.events.trans h.events

theorem Fresh.rely {t : Nat} {w w' : World} (h : Fresh t w) (hr : Rely t w w') : Fresh t w' where
  msgs := by
    intro m hm hown
    obtain ⟨i, hi⟩ := List.getElem?_of_mem hm
    obtain ⟨m', hm', he⟩ := hr.evolves.net_back (hr.owned i m hi hown) hi
    exact h.msgs m' (List.mem_of_getElem? hm') (he.owner.symm.trans hown)
  events := hr.events.trans h.events

theorem deliver_rely {codec : Codec} {c : Collection} {w w' : World} (h : Inv codec c w) {i : Nat}
    (hd : deliver i w = some w') (t : Nat) : Rely t w w' := by
  refine ⟨(deliver_inv h hd).2, ?_, ?_⟩
  · intro j m hj _
    have hlen : w'.net.length = w.net.length := by
      obtain ⟨m, _, _, ⟨w₁, ha, rfl⟩ | ⟨_, rfl⟩⟩ := deliver_cases hd
      · show (w₁.net.set i _).length = _
        rw [List.length_set, (applyReq_frame ha).1]
      · exact List.length_set
    have hj' := (List.getElem?_eq_some_iff.mp hj).1
    omega
  · have htrace : w'.trace = w.trace := by
      obtain ⟨m, _, _, ⟨w₁, ha, rfl⟩ | ⟨_, rfl⟩⟩ := deliver_cases hd
      · exact (applyReq_frame ha).2
      · rfl
    unfold World.eventsOf
    rw [htrace]

/-- **The protocol of the deployed system.** -/
def protocol (codec : Codec) (c : Collection) : Protocol (deployed codec c) where
  inv := Inv codec c
  rely := Rely
  fresh := Fresh
  post := post codec c
  rely_refl := Rely.refl
  rely_trans := Rely.trans
  fresh_rely := Fresh.rely
  env_ok := fun h hd => ⟨(deliver_inv h hd).1, deliver_rely h hd⟩

theorem Calm.refl (t : Nat) (w : World) : Calm t w w := by
  refine ⟨.refl w, ?_⟩
  intro i m hlen hi _
  have hlt := (List.getElem?_eq_some_iff.mp hi).1
  omega

theorem Calm.trans {t : Nat} {w w' w'' : World} (h : Calm t w w') (h' : Calm t w' w'') :
    Calm t w w'' := by
  refine ⟨h.evolves.trans h'.evolves, ?_⟩
  intro i m hlen hi hown
  rcases Nat.lt_or_ge i w'.net.length with hl | hl
  · obtain ⟨m', hm', he⟩ := h'.evolves.net_back hl hi
    have hno := h.creates i m' hlen hm' (he.owner.symm.trans hown)
    rwa [← he.req] at hno
  · exact h'.creates i m hl hi hown

theorem Quiet.refl (t : Nat) (w : World) : Quiet t w w :=
  ⟨.refl t w, rfl⟩

theorem Quiet.trans {t : Nat} {w w' w'' : World} (h : Quiet t w w') (h' : Quiet t w' w'') :
    Quiet t w w'' :=
  ⟨h.toCalm.trans h'.toCalm, h'.reads.trans h.reads⟩

theorem Rely.quiet {t : Nat} {w w' : World} (h : Rely t w w') : Quiet t w w' where
  evolves := h.evolves
  creates := by
    intro i m hlen hi hown
    have hlt := h.owned i m hi hown
    omega
  reads := by
    unfold World.manifestReads
    rw [h.events]

/-- Dead creates stay dead as long as no new one is sent. -/
theorem AllDead.calm {t : Nat} {w w' : World} (h : AllDead t w) (hc : Calm t w w') :
    AllDead t w' := by
  intro m hm hown hcr
  obtain ⟨i, hi⟩ := List.getElem?_of_mem hm
  rcases Nat.lt_or_ge i w.net.length with hl | hl
  · obtain ⟨m', hm', he⟩ := hc.evolves.net_back hl hi
    rw [he.req] at hcr
    exact hc.evolves.dead he
      (h m' (List.mem_of_getElem? hm') (he.owner.symm.trans hown) hcr)
  · rw [hc.creates i m hl hi hown] at hcr
    cases hcr

theorem Fresh.allDead {t : Nat} {w : World} (h : Fresh t w) : AllDead t w :=
  fun m hm hown => absurd hown (h.msgs m hm)

theorem ReadFact.keep {t : Nat} {why : Purpose} {since n : Nat} {v : Option LogEntry}
    {w w' : World} (h : ReadFact t why since n v w) (he : Evolves w w') :
    ReadFact t why since n v w' where
  event := by
    obtain ⟨k, hmem, hk, hsince, hv⟩ := h.event
    refine ⟨k, he.trace.subset hmem, fun e hke => he.hist_get (hk e hke), hsince, ?_⟩
    rcases hv with hv | hv
    · exact Or.inl hv
    · exact Or.inr (Nat.lt_of_lt_of_le hv he.floor)
  occupied := by
    intro e hev
    obtain ⟨hlt, hok⟩ := h.occupied e hev
    exact ⟨Nat.lt_of_lt_of_le hlt he.tail, hok⟩

/-- A read object above the floor is the committed one. -/
theorem ReadFact.committed {t : Nat} {why : Purpose} {since n : Nat} {e : LogEntry}
    {w : World} (h : ReadFact t why since n (some e) w) :
    w.hist[n]? = some e ∨ n < w.floor := by
  obtain ⟨k, _, hk, _, hv⟩ := h.event
  rcases hv with hv | hv
  · exact Or.inl (hk e hv.symm)
  · exact Or.inr hv

end Baerly
