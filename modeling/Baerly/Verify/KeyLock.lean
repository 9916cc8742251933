import Baerly.KeyLock
import Baerly.Lib.Interleave

/-
  The keyed mutex serialises: `dev/src/key-lock.ts` over every run.

  SPEC: of the calls that hold or wait for one key, at most one is in its section, sections are
  entered in the order tickets were taken, an entry of the map stands exactly for the keys
  somebody holds or waits for, and nobody waits for ever.

  CRUX: the tickets of one key are resolved from the oldest on.  A ticket's predecessor is the
  ticket of its key taken just before it, or nothing if all earlier ones were resolved, which is
  what an evicted entry says.
-/

namespace Baerly

open Async

/-! ## The queue of a key -/

namespace Locks

/-- How many tickets of the key are not resolved. -/
def waiting (l : Locks) (lockKey : JsString) : Nat :=
  l.tickets.countP fun k => k.lockKey = lockKey && !k.resolved

/-- Ticket `j` stands behind the ticket of its key taken just before it. -/
def Behind (tickets : List Ticket) (j : Nat) (k : Ticket) : Option Nat → Prop
  | none => ∀ i a, i < j → tickets[i]? = some a → a.lockKey = k.lockKey → a.resolved = true
  | some q => q < j ∧ (∃ a, tickets[q]? = some a ∧ a.lockKey = k.lockKey) ∧
      ∀ i a, q < i → i < j → tickets[i]? = some a → a.lockKey ≠ k.lockKey

/-- What a live entry says. -/
structure Entry (l : Locks) (lockKey : JsString) (o : KeyLock) : Prop where
  waiters : o.waiters = l.waiting lockKey
  pos : 0 < o.waiters
  tail : ∃ i k, o.tail = some i ∧ l.tickets[i]? = some k ∧ k.lockKey = lockKey ∧
    ∀ j a, i < j → l.tickets[j]? = some a → a.lockKey ≠ lockKey

/-- **The invariant of the module's state.** -/
structure Ok (l : Locks) : Prop where
  entry : ∀ lockKey lock, l.live.get lockKey = some lock →
    ∃ o, l.objects[lock]? = some o ∧ l.Entry lockKey o
  evicted : ∀ lockKey, l.live.get lockKey = none → l.waiting lockKey = 0
  named : ∀ (i : Nat) (k : Ticket), l.tickets[i]? = some k → k.resolved = false →
    l.live.get k.lockKey = some k.lock
  order : ∀ (i j : Nat) (a b : Ticket), i < j → l.tickets[i]? = some a →
    l.tickets[j]? = some b → a.lockKey = b.lockKey → b.resolved = true → a.resolved = true
  behind : ∀ (j : Nat) (k : Ticket), l.tickets[j]? = some k →
    Behind l.tickets j k k.predecessor

/-- Without tickets there is nothing to keep. -/
theorem ok_empty : empty.Ok where
  entry := fun lockKey lock h => by cases h
  evicted := fun lockKey _ => rfl
  named := fun i k h => by cases h
  order := fun i j a b _ h => by cases h
  behind := fun j k h => by cases h

variable {l : Locks}

/-- Nobody waits for a key iff all its tickets are resolved. -/
theorem waiting_eq_zero {lockKey : JsString} : l.waiting lockKey = 0 ↔
    ∀ (i : Nat) (k : Ticket), l.tickets[i]? = some k → k.lockKey = lockKey →
      k.resolved = true := by
  rw [waiting, List.countP_eq_zero]
  constructor
  · intro h i k hk hkey
    simpa [hkey] using h k (List.mem_of_getElem? hk)
  · intro h k hk
    obtain ⟨i, hi⟩ := List.getElem?_of_mem hk
    simpa using h i k hi

/-- Two keys never share a lock object: its tail is a ticket of one key. -/
theorem Ok.lock_injective (h : l.Ok) {a b : JsString} {lock : Nat} (ha : l.live.get a = some lock)
    (hb : l.live.get b = some lock) : a = b := by
  obtain ⟨o, ho, hea⟩ := h.entry a lock ha
  obtain ⟨o', ho', heb⟩ := h.entry b lock hb
  obtain rfl : o = o' := by simpa [ho] using ho'
  obtain ⟨i, k, hti, hk, hka, -⟩ := hea.tail
  obtain ⟨j, k', htj, hk', hkb, -⟩ := heb.tail
  obtain rfl : i = j := by simpa [hti] using htj
  obtain rfl : k = k' := by simpa [hk] using hk'
  exact hka.symm.trans hkb

/-- Once the predecessor is resolved, so is every earlier ticket of the key. -/
theorem Ok.resolved_before (h : l.Ok) {i j : Nat} {a k : Ticket} (hij : i < j)
    (ha : l.tickets[i]? = some a) (hk : l.tickets[j]? = some k) (hkey : a.lockKey = k.lockKey)
    (hpred : l.isResolved k.predecessor = true) : a.resolved = true := by
  have hbehind := h.behind j k hk
  cases hp : k.predecessor with
  | none =>
    rw [hp] at hbehind
    exact hbehind i a hij ha hkey
  | some q =>
    rw [hp] at hbehind hpred
    obtain ⟨-, ⟨b, hb, hbkey⟩, hgap⟩ := hbehind
    have hbres : b.resolved = true := by simpa [isResolved, hb] using hpred
    rcases Nat.lt_trichotomy i q with hlt | heq | hgt
    · exact h.order i q a b hlt ha hb (hkey.trans hbkey.symm) hbres
    · subst heq
      obtain rfl : a = b := by simpa [ha] using hb
      exact hbres
    · exact absurd hkey (hgap i a hgt hij ha)

/-- A ticket whose turn it is. -/
structure Holds (l : Locks) (i : Nat) (k : Ticket) : Prop where
  ticket : l.tickets[i]? = some k
  unresolved : k.resolved = false
  entered : l.isResolved k.predecessor = true

/-- **Mutual exclusion.** -/
theorem Ok.exclusive (h : l.Ok) {i j : Nat} {a b : Ticket} (ha : l.Holds i a) (hb : l.Holds j b)
    (hkey : a.lockKey = b.lockKey) : i = j := by
  rcases Nat.lt_trichotomy i j with hlt | heq | hgt
  · have := h.resolved_before hlt ha.ticket hb.ticket hkey hb.entered
    simp [ha.unresolved] at this
  · exact heq
  · have := h.resolved_before hgt hb.ticket ha.ticket hkey.symm ha.entered
    simp [hb.unresolved] at this

/-- **Somebody's turn.**  If a ticket of the key is unresolved, the oldest such ticket holds. -/
theorem Ok.exists_holds (h : l.Ok) {i : Nat} {k : Ticket} (hk : l.tickets[i]? = some k)
    (hopen : k.resolved = false) : ∃ j b, l.Holds j b ∧ b.lockKey = k.lockKey := by
  induction i using Nat.strongRecOn generalizing k with
  | ind i ih =>
    by_cases hpred : l.isResolved k.predecessor = true
    · exact ⟨i, k, ⟨hk, hopen, hpred⟩, rfl⟩
    · -- the predecessor is an earlier unresolved ticket of the key
      have hbehind := h.behind i k hk
      cases hp : k.predecessor with
      | none => rw [hp] at hpred; exact absurd rfl hpred
      | some q =>
        rw [hp] at hbehind hpred
        obtain ⟨hlt, ⟨a, ha, hakey⟩, -⟩ := hbehind
        have hares : a.resolved = false := by simpa [isResolved, ha] using hpred
        obtain ⟨j, b, hb, hbkey⟩ := ih q hlt ha hares
        exact ⟨j, b, hb, hbkey.trans hakey⟩

/-! ### Taking a ticket -/

/-- What taking a ticket does, for a state with the invariant. -/
structure Taken (t : Nat) (lockKey : JsString) (l : Locks) (a : Nat × Option Nat × Nat)
    (l' : Locks) : Prop where
  own : a.2.2 = l.tickets.length
  tickets : l'.tickets = l.tickets ++ [⟨t, lockKey, a.1, a.2.1, false⟩]
  live : l'.live.get lockKey = some a.1
  /-- The lock object of an entry that stands is used again. -/
  reused : ∀ lock, l.live.get lockKey = some lock → lock = a.1
  live_ne : ∀ key, key ≠ lockKey → l'.live.get key = l.live.get key
  object : l'.objects[a.1]? = some ⟨some l.tickets.length, l.waiting lockKey + 1⟩
  object_ne : ∀ key lock, key ≠ lockKey → l.live.get key = some lock →
    l'.objects[lock]? = l.objects[lock]?
  behind : ∀ k : Ticket, k.lockKey = lockKey → Behind l.tickets l.tickets.length k a.2.1

/-- **Taking a ticket keeps the queue**, at its end. -/
theorem Ok.taken (h : l.Ok) (t : Nat) (lockKey : JsString) :
    Taken t lockKey l (l.takeTicket t lockKey).1 (l.takeTicket t lockKey).2 := by
  simp only [takeTicket, acquireLock]
  cases hlive : l.live.get lockKey with
  | none =>
    -- a new lock object: nobody holds or waits for the key
    have hnew : (l.objects ++ [(⟨none, 0⟩ : KeyLock)])[l.objects.length]? = some ⟨none, 0⟩ := by
      rw [List.getElem?_append_right (Nat.le_refl _), Nat.sub_self, List.getElem?_cons_zero]
    have hzero := h.evicted lockKey hlive
    refine ⟨rfl, by simp, by simp, fun lock h => (by cases hlive.symm.trans h), ?_, ?_, ?_, ?_⟩
    · intro key hne
      simp [hne]
    · show (List.modify _ _ _)[_]? = _
      rw [List.getElem?_modify_eq, hnew, hzero]
      rfl
    · intro key lock hne hkey
      obtain ⟨o, ho, -⟩ := h.entry key lock hkey
      have hlt := (List.getElem?_eq_some_iff.mp ho).1
      show (List.modify _ l.objects.length _)[lock]? = _
      rw [List.getElem?_modify_ne _ _ (Nat.ne_of_gt hlt), List.getElem?_append_left hlt]
    · intro k hk
      show Behind _ _ _ (Option.bind _ _)
      rw [hnew]
      intro i a _ ha hak
      exact waiting_eq_zero.mp hzero i a ha (hak.trans hk)
  | some lock =>
    obtain ⟨o, ho, he⟩ := h.entry lockKey lock hlive
    refine ⟨rfl, by simp [ho], hlive, fun lock' h => ?_, fun key hne => rfl, ?_, ?_, ?_⟩
    · rw [hlive] at h
      exact (Option.some.inj h).symm
    · show (List.modify _ _ _)[_]? = _
      rw [List.getElem?_modify_eq, ho, ← he.waiters]
      rfl
    · intro key lock' hne hkey
      have hlocks : lock ≠ lock' := by
        rintro rfl
        exact hne (h.lock_injective hkey hlive)
      show (List.modify _ _ _)[lock']? = _
      rw [List.getElem?_modify_ne _ _ hlocks]
    · intro k hk
      obtain ⟨i, b, hti, hb, hbkey, hlast⟩ := he.tail
      show Behind _ _ _ (Option.bind _ _)
      rw [ho, Option.bind_some, hti]
      refine ⟨(List.getElem?_eq_some_iff.mp hb).1, ⟨b, hb, hbkey.trans hk.symm⟩, ?_⟩
      intro j a hij _ ha hak
      exact hlast j a hij ha (hak.trans hk)

/-- A ticket after one more was appended. -/
theorem getElem?_snoc {tickets : List Ticket} {k a : Ticket} {i : Nat}
    (h : (tickets ++ [k])[i]? = some a) :
    tickets[i]? = some a ∨ (i = tickets.length ∧ a = k) := by
  rcases Nat.lt_or_ge i tickets.length with hlt | hge
  · rw [List.getElem?_append_left hlt] at h
    exact Or.inl h
  · rw [List.getElem?_append_right hge] at h
    have hi : i - tickets.length = 0 := by
      have := (List.getElem?_eq_some_iff.mp h).1
      simp only [List.length_singleton] at this
      omega
    rw [hi, List.getElem?_cons_zero] at h
    cases h
    exact Or.inr ⟨by omega, rfl⟩

/-- The tickets before stay where they were. -/
theorem getElem?_snoc_of {tickets : List Ticket} {a : Ticket} {i : Nat} (k : Ticket)
    (h : tickets[i]? = some a) : (tickets ++ [k])[i]? = some a := by
  rw [List.getElem?_append_left (List.getElem?_eq_some_iff.mp h).1]
  exact h

/-- A ticket taken later does not change what stands before one. -/
theorem Behind.snoc {tickets : List Ticket} {j : Nat} {k new : Ticket} {p : Option Nat}
    (h : Behind tickets j k p) (hj : j ≤ tickets.length) : Behind (tickets ++ [new]) j k p := by
  cases p with
  | none =>
    intro i a hij ha
    refine h i a hij ?_
    rcases getElem?_snoc ha with ha | ⟨rfl, -⟩
    · exact ha
    · omega
  | some q =>
    obtain ⟨hlt, ⟨a, ha, hak⟩, hgap⟩ := h
    refine ⟨hlt, ⟨a, getElem?_snoc_of new ha, hak⟩, ?_⟩
    intro i b hqi hij hb
    rcases getElem?_snoc hb with hb | ⟨rfl, -⟩
    · exact hgap i b hqi hij hb
    · omega

/-- One more waits for its key. -/
theorem Taken.waiting {t : Nat} {lockKey : JsString} {a : Nat × Option Nat × Nat} {l' : Locks}
    (h : Taken t lockKey l a l') (key : JsString) :
    l'.waiting key = l.waiting key + if lockKey = key then 1 else 0 := by
  simp only [Locks.waiting, h.tickets, List.countP_append]
  congr 1
  by_cases hkey : lockKey = key <;> simp [hkey]

/-- **Taking a ticket keeps the invariant.** -/
theorem Ok.take (h : l.Ok) {t : Nat} {lockKey : JsString} {a : Nat × Option Nat × Nat}
    {l' : Locks} (ht : Taken t lockKey l a l') : l'.Ok where
  entry := by
    intro key lock hkey
    by_cases hk : key = lockKey
    · subst hk
      obtain rfl : a.1 = lock := by simpa [ht.live] using hkey
      -- the new ticket is the last one of its key
      refine ⟨_, ht.object, by simp [ht.waiting], Nat.succ_pos _, ?_⟩
      refine ⟨l.tickets.length, ⟨t, key, a.1, a.2.1, false⟩, rfl, ?_, rfl, ?_⟩
      · rw [ht.tickets]
        simp
      · intro j b hlt hb
        rw [ht.tickets] at hb
        have := (List.getElem?_eq_some_iff.mp hb).1
        simp only [List.length_append, List.length_singleton] at this
        omega
    · rw [ht.live_ne key hk] at hkey
      obtain ⟨o, ho, he⟩ := h.entry key lock hkey
      refine ⟨o, (ht.object_ne key lock hk hkey).trans ho, ?_, he.pos, ?_⟩
      · rw [ht.waiting, if_neg (Ne.symm hk)]
        exact he.waiters
      · obtain ⟨i, b, hti, hb, hbk, hlast⟩ := he.tail
        refine ⟨i, b, hti, by rw [ht.tickets]; exact getElem?_snoc_of _ hb, hbk, ?_⟩
        intro j c hij hc
        rw [ht.tickets] at hc
        rcases getElem?_snoc hc with hc | ⟨-, rfl⟩
        · exact hlast j c hij hc
        · exact Ne.symm hk
  evicted := by
    intro key hkey
    have hne : key ≠ lockKey := by
      rintro rfl
      rw [ht.live] at hkey
      cases hkey
    rw [ht.waiting, if_neg (Ne.symm hne)]
    exact h.evicted key ((ht.live_ne key hne).symm.trans hkey)
  named := by
    intro i k hk hopen
    rw [ht.tickets] at hk
    rcases getElem?_snoc hk with hk | ⟨-, rfl⟩
    · have hold := h.named i k hk hopen
      by_cases hkey : k.lockKey = lockKey
      · -- the key had an entry, so the same lock object serves the new ticket
        rw [hkey] at hold ⊢
        rw [ht.reused k.lock hold]
        exact ht.live
      · rw [ht.live_ne _ hkey]
        exact hold
    · exact ht.live
  order := by
    intro i j b c hij hb hc hkey hres
    rw [ht.tickets] at hb hc
    rcases getElem?_snoc hc with hc | ⟨rfl, rfl⟩
    · rcases getElem?_snoc hb with hb | ⟨rfl, -⟩
      · exact h.order i j b c hij hb hc hkey hres
      · have := (List.getElem?_eq_some_iff.mp hc).1
        omega
    -- a ticket that was just taken is not resolved
    · cases hres
  behind := by
    intro j k hk
    rw [ht.tickets] at hk ⊢
    rcases getElem?_snoc hk with hk | ⟨rfl, rfl⟩
    · exact (h.behind j k hk).snoc (Nat.le_of_lt (List.getElem?_eq_some_iff.mp hk).1)
    · exact (ht.behind _ rfl).snoc (Nat.le_refl _)

/-! ### Releasing it -/

/-- One item less is counted where one stops to be. -/
theorem countP_modify {α : Type} {p : α → Bool} {f : α → α} {i : Nat} {a : α} {xs : List α}
    (ha : xs[i]? = some a) (hp : p a = true) (hf : p (f a) = false) :
    xs.countP p = (xs.modify i f).countP p + 1 := by
  induction xs generalizing i with
  | nil => cases ha
  | cons x xs ih =>
    cases i with
    | zero =>
      obtain rfl : x = a := by simpa using ha
      rw [List.modify_zero_cons, List.countP_cons_of_pos hp, List.countP_cons_of_neg (by simp [hf])]
    | succ i =>
      have hrest := ih (by simpa using ha)
      rw [List.modify_succ_cons, List.countP_cons, List.countP_cons, hrest]
      omega

/-- And as many where it does not matter. -/
theorem countP_modify_of_eq {α : Type} {p : α → Bool} {f : α → α} {i : Nat} {a : α} {xs : List α}
    (ha : xs[i]? = some a) (hp : p (f a) = p a) : (xs.modify i f).countP p = xs.countP p := by
  induction xs generalizing i with
  | nil => cases ha
  | cons x xs ih =>
    cases i with
    | zero =>
      obtain rfl : x = a := by simpa using ha
      rw [List.modify_zero_cons, List.countP_cons, List.countP_cons, hp]
    | succ i =>
      rw [List.modify_succ_cons, List.countP_cons, List.countP_cons, ih (by simpa using ha)]

/-- A ticket that is resolved is. -/
theorem resolve_self {own : Nat} {k : Ticket} {tickets : List Ticket} (h : tickets[own]? = some k) :
    (resolve own tickets)[own]? = some { k with resolved := true } := by
  rw [resolve, List.getElem?_modify_eq, h]
  rfl

/-- And no other. -/
theorem resolve_ne {own i : Nat} (tickets : List Ticket) (h : own ≠ i) :
    (resolve own tickets)[i]? = tickets[i]? :=
  List.getElem?_modify_ne _ _ h

/-- A ticket keeps everything but its resolution, which is never undone. -/
theorem of_resolve {own i : Nat} {b : Ticket} {tickets : List Ticket}
    (h : (resolve own tickets)[i]? = some b) :
    ∃ a, tickets[i]? = some a ∧ b = { a with resolved := b.resolved } ∧
      (a.resolved = true → b.resolved = true) ∧ (own ≠ i → b = a) ∧
      (own = i → b.resolved = true) := by
  by_cases hi : own = i
  · subst hi
    rw [resolve, List.getElem?_modify_eq] at h
    obtain ⟨a, ha, rfl⟩ := Option.map_eq_some_iff.mp h
    exact ⟨a, ha, rfl, fun _ => rfl, fun hne => absurd rfl hne, fun _ => rfl⟩
  · rw [resolve_ne tickets hi] at h
    exact ⟨b, h, rfl, id, fun _ => rfl, fun e => absurd e hi⟩

/-- Tickets stay, and stay resolved. -/
theorem exists_resolve (own : Nat) {i : Nat} {a : Ticket} {tickets : List Ticket}
    (h : tickets[i]? = some a) : ∃ b, (resolve own tickets)[i]? = some b ∧
      b.lockKey = a.lockKey ∧ (a.resolved = true → b.resolved = true) := by
  by_cases hi : own = i
  · subst hi
    exact ⟨_, resolve_self h, rfl, fun _ => rfl⟩
  · exact ⟨a, (resolve_ne tickets hi).trans h, rfl, id⟩

/-- What releasing ticket `own` does, for a call whose turn it is. -/
structure Released (own : Nat) (k : Ticket) (l l' : Locks) : Prop where
  tickets : l'.tickets = resolve own l.tickets
  live_ne : ∀ key, key ≠ k.lockKey → l'.live.get key = l.live.get key
  object_ne : ∀ key lock, key ≠ k.lockKey → l.live.get key = some lock →
    l'.objects[lock]? = l.objects[lock]?
  live : l'.live.get k.lockKey = if l'.waiting k.lockKey = 0 then none else some k.lock
  object : ∃ o, l.objects[k.lock]? = some o ∧
    l'.objects[k.lock]? = some { o with waiters := o.waiters - 1 }

/-- One less waits for the key. -/
theorem waiting_resolve {own : Nat} {k : Ticket} (live : InsMap JsString Nat)
    (objects : List KeyLock) (hk : l.tickets[own]? = some k) (hopen : k.resolved = false)
    (key : JsString) : l.waiting key =
      (⟨live, objects, resolve own l.tickets⟩ : Locks).waiting key +
        if k.lockKey = key then 1 else 0 := by
  unfold waiting
  by_cases hkey : k.lockKey = key
  · rw [if_pos hkey]
    exact countP_modify hk (by simp [hkey, hopen]) (by simp)
  · rw [if_neg hkey, Nat.add_zero]
    refine (countP_modify_of_eq hk ?_).symm
    simp [hkey]

/-- **Releasing keeps the queue**: the next in line enters. -/
theorem Ok.released (h : l.Ok) {own : Nat} {k : Ticket} (hk : l.tickets[own]? = some k)
    (hopen : k.resolved = false) : Released own k l (l.release k.lockKey k.lock own) := by
  have hlive := h.named own k hk hopen
  obtain ⟨o, ho, he⟩ := h.entry k.lockKey k.lock hlive
  have hobj : (l.objects.modify k.lock fun o => { o with waiters := o.waiters - 1 })[k.lock]? =
      some { o with waiters := o.waiters - 1 } := by
    rw [List.getElem?_modify_eq, ho]
    rfl
  have hne : ∀ key lock, key ≠ k.lockKey → l.live.get key = some lock →
      (l.objects.modify k.lock fun o => { o with waiters := o.waiters - 1 })[lock]? =
        l.objects[lock]? := by
    intro key lock hkey hget
    refine List.getElem?_modify_ne _ _ ?_
    rintro rfl
    exact hkey (h.lock_injective hget hlive)
  -- the count the object carries after the decrement is the count of unresolved tickets
  have hcount : ∀ live objects, o.waiters - 1 =
      (⟨live, objects, resolve own l.tickets⟩ : Locks).waiting k.lockKey := by
    intro live objects
    have hwait := waiting_resolve live objects hk hopen k.lockKey
    rw [if_pos rfl, ← he.waiters] at hwait
    omega
  simp only [release, hobj, Option.any_some, decide_eq_true_eq, hlive, and_true]
  split
  next hdrained =>
    refine ⟨rfl, fun key hkey => by simp [hkey], hne, ?_, o, ho, hobj⟩
    rw [if_pos ((hcount _ _).symm.trans hdrained)]
    simp
  next hmore =>
    refine ⟨rfl, fun key _ => rfl, hne, ?_, o, ho, hobj⟩
    rw [if_neg (fun hz => hmore ((hcount _ _).trans hz))]
    exact hlive

/-- One less waits for its key. -/
theorem Released.waiting {own : Nat} {k : Ticket} {l' : Locks} (hr : Released own k l l')
    (hk : l.Holds own k) (key : JsString) :
    l.waiting key = l'.waiting key + if k.lockKey = key then 1 else 0 := by
  have h := waiting_resolve l'.live l'.objects hk.ticket hk.unresolved key
  rwa [← hr.tickets] at h

/-- A ticket that was the last of its key stays the last. -/
theorem Released.keys_ne {own i : Nat} {k : Ticket} {l' : Locks} {key : JsString}
    (hr : Released own k l l')
    (h : ∀ (j : Nat) (a : Ticket), i < j → l.tickets[j]? = some a → a.lockKey ≠ key) :
    ∀ (j : Nat) (a : Ticket), i < j → l'.tickets[j]? = some a → a.lockKey ≠ key := by
  intro j a hij ha
  rw [hr.tickets] at ha
  obtain ⟨a', ha', haa, -⟩ := of_resolve ha
  rw [haa]
  exact h j a' hij ha'

/-- **Releasing keeps the invariant.** -/
theorem Ok.release (h : l.Ok) {own : Nat} {k : Ticket} {l' : Locks} (hk : l.Holds own k)
    (hr : Released own k l l') : l'.Ok where
  entry := by
    intro key lock hkey
    by_cases hk' : key = k.lockKey
    · subst hk'
      have hlive := hr.live
      rw [hkey] at hlive
      split at hlive
      next => cases hlive
      next hwait =>
        cases hlive
        -- somebody still waits: the object stays, with one waiter less
        obtain ⟨o, ho, ho'⟩ := hr.object
        obtain ⟨o₁, ho₁, he⟩ := h.entry _ _ (h.named own k hk.ticket hk.unresolved)
        obtain rfl : o = o₁ := by simpa [ho] using ho₁
        have hcount := hr.waiting hk k.lockKey
        rw [if_pos rfl, ← he.waiters] at hcount
        have hrest : o.waiters - 1 = l'.waiting k.lockKey := by omega
        have hpos : 0 < o.waiters - 1 := by omega
        refine ⟨_, ho', hrest, hpos, ?_⟩
        obtain ⟨i, b, hti, hb, hbkey, hlast⟩ := he.tail
        obtain ⟨c, hc, hckey, -⟩ := exists_resolve own hb
        exact ⟨i, c, hti, by rw [hr.tickets]; exact hc, hckey.trans hbkey,
          hr.keys_ne fun j a hij ha => hlast j a hij ha⟩
    -- the entry of another key has its object and its last ticket as before
    · rw [hr.live_ne key hk'] at hkey
      obtain ⟨o, ho, he⟩ := h.entry key lock hkey
      have hcount := hr.waiting hk key
      rw [if_neg (Ne.symm hk'), ← he.waiters] at hcount
      refine ⟨o, (hr.object_ne key lock hk' hkey).trans ho, hcount, he.pos, ?_⟩
      obtain ⟨i, b, hti, hb, hbkey, hlast⟩ := he.tail
      obtain ⟨c, hc, hckey, -⟩ := exists_resolve own hb
      exact ⟨i, c, hti, by rw [hr.tickets]; exact hc, hckey.trans hbkey,
        hr.keys_ne fun j a hij ha => hlast j a hij ha⟩
  evicted := by
    intro key hkey
    by_cases hk' : key = k.lockKey
    · subst hk'
      have hlive := hr.live
      rw [hkey] at hlive
      split at hlive
      next hwait => exact hwait
      next => cases hlive
    · rw [hr.live_ne key hk'] at hkey
      have hcount := hr.waiting hk key
      rw [if_neg (Ne.symm hk'), h.evicted key hkey] at hcount
      omega
  named := by
    intro i b hb hopen
    rw [hr.tickets] at hb
    obtain ⟨a, ha, hba, -, hne, hself⟩ := of_resolve hb
    have hi : own ≠ i := by
      intro e
      rw [hself e] at hopen
      cases hopen
    obtain rfl := hne hi
    have hold := h.named i b ha hopen
    by_cases hkey : b.lockKey = k.lockKey
    · -- another ticket of the key is unresolved, so the entry stays
      have hlock : b.lock = k.lock := by
        have := h.named own k hk.ticket hk.unresolved
        rw [hkey, this] at hold
        exact (Option.some.inj hold).symm
      have hwait : l'.waiting k.lockKey ≠ 0 := by
        intro hz
        have hb' : l'.tickets[i]? = some b := by rw [hr.tickets, hb]
        have := waiting_eq_zero.mp hz i b hb' hkey
        rw [hopen] at this
        cases this
      rw [hkey, hlock, hr.live, if_neg hwait]
    · rw [hr.live_ne _ hkey]
      exact hold
  order := by
    intro i j a b hij ha hb hkey hres
    rw [hr.tickets] at ha hb
    obtain ⟨a', ha', haa, hmono, hane, -⟩ := of_resolve ha
    obtain ⟨b', hb', hbb, -, hbne, -⟩ := of_resolve hb
    have hkey' : a'.lockKey = b'.lockKey := by
      rw [haa, hbb] at hkey
      exact hkey
    apply hmono
    by_cases hj : own = j
    · subst hj
      -- the ticket that is released had its turn, so all before it were done
      obtain rfl : b' = k := by simpa [hb'] using hk.ticket
      exact h.resolved_before hij ha' hb' hkey' hk.entered
    · obtain rfl := hbne hj
      exact h.order i j a' b hij ha' hb' hkey' hres
  behind := by
    intro j b hb
    rw [hr.tickets] at hb ⊢
    obtain ⟨b', hb', hbb, -⟩ := of_resolve hb
    have hold := h.behind j b' hb'
    have hkey : b.lockKey = b'.lockKey := by rw [hbb]
    have hpred : b.predecessor = b'.predecessor := by rw [hbb]
    rw [hpred]
    cases hp : b'.predecessor with
    | none =>
      rw [hp] at hold
      intro i a hij ha hak
      obtain ⟨a', ha', haa, hmono, -⟩ := of_resolve ha
      have hak' : a.lockKey = a'.lockKey := by rw [haa]
      exact hmono (hold i a' hij ha' (by rw [← hak', hak, hkey]))
    | some q =>
      rw [hp] at hold
      obtain ⟨hlt, ⟨a, ha, hak⟩, hgap⟩ := hold
      obtain ⟨c, hc, hck, -⟩ := exists_resolve own ha
      refine ⟨hlt, ⟨c, hc, by rw [hck, hak, hkey]⟩, ?_⟩
      intro i d hqi hij hd
      obtain ⟨d', hd', hdd, -⟩ := of_resolve hd
      have hdk : d.lockKey = d'.lockKey := by rw [hdd]
      rw [hdk, hkey]
      exact hgap i d' hqi hij hd'

/-! ### What the others see -/

/-- A request of call `t`, seen by the others: their tickets stand, and no promise is taken
    back. -/
structure Grows (t : Nat) (l l' : Locks) : Prop where
  others : ∀ (i : Nat) (k : Ticket), k.owner ≠ t → (l'.tickets[i]? = some k ↔ l.tickets[i]? = some k)
  resolved : ∀ p, l.isResolved p = true → l'.isResolved p = true

theorem grows_refl (t : Nat) (l : Locks) : Grows t l l := ⟨fun _ _ _ => Iff.rfl, fun _ => id⟩

/-- Taking a ticket leaves those of others. -/
theorem Taken.grows {t : Nat} {lockKey : JsString} {a : Nat × Option Nat × Nat} {l' : Locks}
    (h : Taken t lockKey l a l') : Grows t l l' where
  others := by
    intro i k hne
    rw [h.tickets]
    constructor
    · intro hk
      rcases getElem?_snoc hk with hk | ⟨-, rfl⟩
      · exact hk
      · exact absurd rfl hne
    · exact getElem?_snoc_of _
  resolved := by
    intro p hp
    cases p with
    | none => rfl
    | some i =>
      simp only [isResolved, Option.any_eq_true] at hp ⊢
      obtain ⟨k, hk, hres⟩ := hp
      rw [h.tickets]
      exact ⟨k, getElem?_snoc_of _ hk, hres⟩

/-- So does releasing one. -/
theorem Released.grows {own : Nat} {k : Ticket} {l' : Locks} (h : Released own k l l')
    (hk : l.tickets[own]? = some k) : Grows k.owner l l' where
  others := by
    intro i a hne
    rw [h.tickets]
    by_cases hi : own = i
    · subst hi
      rw [resolve_self hk, hk]
      constructor
      · intro e
        cases e
        exact absurd rfl hne
      · intro e
        cases e
        exact absurd rfl hne
    · rw [resolve_ne _ hi]
  resolved := by
    intro p hp
    cases p with
    | none => rfl
    | some i =>
      simp only [isResolved, Option.any_eq_true] at hp ⊢
      obtain ⟨a, ha, hres⟩ := hp
      obtain ⟨b, hb, -, hmono⟩ := exists_resolve own ha
      rw [h.tickets]
      exact ⟨b, hb, hmono hres⟩

/-- Whose turn it was stays on turn while others act. -/
theorem Holds.grows {t i : Nat} {k : Ticket} {l' : Locks} (h : l.Holds i k) (hg : Grows t l l')
    (hne : k.owner ≠ t) : l'.Holds i k :=
  ⟨(hg.others i k hne).mpr h.ticket, h.unresolved, hg.resolved _ h.entered⟩

end Locks

/-! ## Programs that use the mutex

Whatever its section does, a program goes through the phases of `withKeyLock` in order. -/

/-- Where a call stands with the mutex. -/
inductive LockPhase where
  | free
  | queued (lockKey : JsString) (lock : Nat) (predecessor : Option Nat) (own : Nat)
  | held (lockKey : JsString) (lock own : Nat)

section Phases

variable {Op : Type} {Resp : Op → Type} {ε α β : Type}

/-- The rest of the program, in a phase, goes on as `withKeyLock` does. -/
def Obeys : LockPhase → Prog (LockOp ⊕ Op) (LockedResp Resp) ε α → Prop
  | .free, .ret _ => True
  | .free, .throw _ => True
  | .free, .call (.inl (.ticket lockKey)) k =>
    ∀ r : Nat × Option Nat × Nat, Obeys (.queued lockKey r.1 r.2.1 r.2.2) (k r)
  | .queued lockKey lock p own, .call (.inl (.await p')) k =>
    p' = p ∧ Obeys (.held lockKey lock own) (k ())
  | .held lockKey lock own, .call (.inl (.release lockKey' lock' own')) k =>
    (lockKey' = lockKey ∧ lock' = lock ∧ own' = own) ∧ Obeys .free (k ())
  | .free, .call (.inr _) k => ∀ r, Obeys .free (k r)
  | .held lockKey lock own, .call (.inr _) k => ∀ r, Obeys (.held lockKey lock own) (k r)
  | _, _ => False

/-- A request that is none of the mutex. -/
def IsPlain (op : LockOp ⊕ Op) : Prop := ∃ o, op = .inr o

/-- The program makes no request of the mutex. -/
abbrev Plain (p : Prog (LockOp ⊕ Op) (LockedResp Resp) ε α) : Prop := p.Asks IsPlain fun _ => True

variable {p : Prog (LockOp ⊕ Op) (LockedResp Resp) ε α}
  {f : α → Prog (LockOp ⊕ Op) (LockedResp Resp) ε β}

/-- Requests of no lock may stand before anything. -/
theorem Plain.obeys_bind {Q : α → Prop} (hp : p.Asks IsPlain Q)
    (hf : ∀ a, Q a → Obeys .free (f a)) : Obeys .free (p.bind f) := by
  induction p with
  | ret a => exact hf a hp
  | throw e => trivial
  | call op k ih =>
    obtain ⟨⟨o, rfl⟩, hk⟩ := hp
    exact fun r => ih r (hk r)

/-- Also within a section, if they throw nothing. -/
theorem Plain.obeys_held (hp : Plain p) (hnt : p.NoThrow) {lockKey : JsString} {lock own : Nat}
    (hf : ∀ a, Obeys (.held lockKey lock own) (f a)) :
    Obeys (.held lockKey lock own) (p.bind f) := by
  induction p with
  | ret a => exact hf a
  | throw e => exact absurd hnt id
  | call op k ih =>
    obtain ⟨⟨o, rfl⟩, hk⟩ := hp
    exact fun r => ih r (hk r) (hnt r)

/-- They are obedient by themselves. -/
theorem Plain.obeys (hp : Plain p) : Obeys .free p := by
  induction p with
  | ret a => trivial
  | throw e => trivial
  | call op k ih =>
    obtain ⟨⟨o, rfl⟩, hk⟩ := hp
    exact fun r => ih r (hk r)

/-- **`withKeyLock` goes through its phases**, whether its section resolves or rejects. -/
theorem obeys_withKeyLock (lockKey : JsString) (hp : Plain p) :
    Obeys .free (withKeyLock lockKey p) := by
  intro ticket
  refine ⟨rfl, ?_⟩
  refine Plain.obeys_held (Prog.Asks.mono hp.attempt fun _ _ => trivial) (.attempt p) ?_
  intro outcome
  refine ⟨⟨rfl, rfl, rfl⟩, ?_⟩
  cases outcome with
  | ok a => trivial
  | error e => trivial

end Phases

/-- What the state of the mutex says of call `t` in a phase: which of its tickets is unresolved. -/
def Locks.Stands (l : Locks) (t : Nat) : LockPhase → Prop
  | .free => ∀ (i : Nat) (k : Ticket), l.tickets[i]? = some k → k.owner = t → k.resolved = true
  | .queued lockKey lock p own => l.tickets[own]? = some ⟨t, lockKey, lock, p, false⟩ ∧
      ∀ (i : Nat) (k : Ticket), i ≠ own → l.tickets[i]? = some k → k.owner = t → k.resolved = true
  | .held lockKey lock own => (∃ p, l.Holds own ⟨t, lockKey, lock, p, false⟩) ∧
      ∀ (i : Nat) (k : Ticket), i ≠ own → l.tickets[i]? = some k → k.owner = t → k.resolved = true

/-- Where a thread stands does not depend on others. -/
theorem Locks.Stands.grows {l l' : Locks} {t u : Nat} {phase : LockPhase} (h : l.Stands u phase)
    (hg : Locks.Grows t l l') (hne : u ≠ t) : l'.Stands u phase := by
  have hback : ∀ (i : Nat) (k : Ticket), l'.tickets[i]? = some k → k.owner = u →
      l.tickets[i]? = some k := by
    intro i k hk hown
    exact (hg.others i k (by rw [hown]; exact hne)).mp hk
  cases phase with
  | free => exact fun i k hk hown => h i k (hback i k hk hown) hown
  | queued lockKey lock p own =>
    refine ⟨(hg.others own _ hne).mpr h.1, ?_⟩
    exact fun i k hi hk hown => h.2 i k hi (hback i k hk hown) hown
  | held lockKey lock own =>
    obtain ⟨⟨p, hp⟩, hrest⟩ := h
    exact ⟨⟨p, hp.grows hg hne⟩, fun i k hi hk hown => hrest i k hi (hback i k hk hown) hown⟩

/-! ## Machines whose programs use the mutex -/

section UsesLocks

variable {W Op : Type} {Resp : Op → Type} {ε Call : Type} {Res : Call → Type}

/-- The machine runs the mutex on the part `locks` of its world, and its programs use it through
    `withKeyLock` only. -/
structure UsesLocks (M : Machine W (LockOp ⊕ Op) (LockedResp Resp) ε Call Res) (locks : W → Locks) :
    Prop where
  lock : ∀ {t op pick w r w'}, M.exec t (.inl op) pick w = some (r, w') →
    (locks w).exec t op = some (r, locks w')
  plain : ∀ {t op pick w r w'}, M.exec t (.inr op) pick w = some (r, w') → locks w' = locks w
  env : ∀ {e w w'}, M.env e w = some w' → locks w' = locks w
  body : ∀ t call, Obeys .free (M.body t call)

variable {M : Machine W (LockOp ⊕ Op) (LockedResp Resp) ε Call Res} {locks : W → Locks}

/-- **The invariant of a pool.** -/
structure Queued (locks : W → Locks) (σ : Pool W (LockOp ⊕ Op) (LockedResp Resp) ε Call Res) :
    Prop where
  ok : (locks σ.world).Ok
  owned : ∀ (i : Nat) (k : Ticket), (locks σ.world).tickets[i]? = some k →
    k.owner < σ.threads.length
  thread : ∀ (t : Nat) (th : Thread W (LockOp ⊕ Op) (LockedResp Resp) ε Call Res),
    σ.threads[t]? = some th → ∃ phase, Obeys phase th.rest ∧ (locks σ.world).Stands t phase

/-- At the start nobody waits. -/
theorem queued_init {w : W} (h : locks w = Locks.empty) :
    Queued locks (⟨w, []⟩ : Pool W (LockOp ⊕ Op) (LockedResp Resp) ε Call Res) where
  ok := by rw [h]; exact Locks.ok_empty
  owned := by rw [h]; exact fun i k hk => by cases hk
  thread := fun t th ht => by cases ht

/-- What a request of the mutex by call `t` does, in the phase `t` is in. -/
theorem Obeys.step_lock {l l' : Locks} (hok : l.Ok) {t : Nat} {phase : LockPhase} {α : Type}
    {op : LockOp} {k : op.Resp → Prog (LockOp ⊕ Op) (LockedResp Resp) ε α} {r : op.Resp}
    (hobeys : Obeys phase (Prog.call (.inl op) k)) (hst : l.Stands t phase)
    (hex : l.exec t op = some (r, l')) :
    l'.Ok ∧ Locks.Grows t l l' ∧ (∃ phase', Obeys phase' (k r) ∧ l'.Stands t phase') ∧
      ∀ (i : Nat) (b : Ticket), l'.tickets[i]? = some b → b.owner = t ∨
        l.tickets[i]? = some b := by
  cases op with
  | ticket lockKey =>
    cases phase with
    | queued => exact absurd hobeys id
    | held => exact absurd hobeys id
    | free =>
      have htaken := hok.taken t lockKey
      simp only [Locks.exec, Option.some.injEq] at hex
      rw [hex] at htaken
      refine ⟨hok.take htaken, htaken.grows, ⟨_, hobeys r, ?_⟩, ?_⟩
      · refine ⟨?_, ?_⟩
        · rw [htaken.tickets, htaken.own]
          simp
        · intro i b hi hb hown
          rw [htaken.tickets] at hb
          rcases Locks.getElem?_snoc hb with hb | ⟨rfl, -⟩
          · exact hst i b hb hown
          · exact absurd htaken.own.symm hi
      · intro i b hb
        rw [htaken.tickets] at hb
        rcases Locks.getElem?_snoc hb with hb | ⟨-, rfl⟩
        · exact Or.inr hb
        · exact Or.inl rfl
  | await promise =>
    cases phase with
    | free => exact absurd hobeys id
    | held => exact absurd hobeys id
    | queued lockKey lock p own =>
      obtain ⟨rfl, hk⟩ := hobeys
      -- the promise of the predecessor is resolved, so it is this ticket's turn
      simp only [Locks.exec] at hex
      split at hex
      next hres =>
        cases hex
        refine ⟨hok, Locks.grows_refl t _, ⟨_, hk, ⟨promise, hst.1, rfl, hres⟩, hst.2⟩, ?_⟩
        exact fun i b hb => Or.inr hb
      next => cases hex
  | release lockKey lock own =>
    cases phase with
    | free => exact absurd hobeys id
    | queued => exact absurd hobeys id
    | held lockKey' lock' own' =>
      obtain ⟨⟨rfl, rfl, rfl⟩, hk⟩ := hobeys
      obtain ⟨⟨p, hholds⟩, hrest⟩ := hst
      -- only who has the turn releases
      have hrel := hok.released hholds.ticket rfl
      simp only [Locks.exec, Option.some.injEq, Prod.mk.injEq] at hex
      rw [hex.2] at hrel
      refine ⟨hok.release hholds hrel, hrel.grows hholds.ticket, ⟨.free, hk, ?_⟩, ?_⟩
      · intro i b hb hown
        rw [hrel.tickets] at hb
        obtain ⟨a, ha, -, -, hne, hself⟩ := Locks.of_resolve hb
        by_cases hi : own = i
        · exact hself hi
        · obtain rfl := hne hi
          exact hrest i b (Ne.symm hi) ha hown
      · intro i b hb
        rw [hrel.tickets] at hb
        obtain ⟨a, ha, hba, -, hne, -⟩ := Locks.of_resolve hb
        by_cases hi : own = i
        · subst hi
          obtain rfl : a = ⟨t, lockKey, lock, p, false⟩ := by
            have := hholds.ticket
            rw [ha] at this
            exact Option.some.inj this
          exact Or.inl (by rw [hba])
        · obtain rfl := hne hi
          exact Or.inr ha

/-- **One action keeps the invariant.** -/
theorem Queued.next (hM : UsesLocks M locks)
    {σ σ' : Pool W (LockOp ⊕ Op) (LockedResp Resp) ε Call Res} {a : Act M}
    (h : Queued locks σ) (hn : M.next σ a = some σ') : Queued locks σ' := by
  cases a with
  | spawn call =>
    simp only [Machine.next] at hn
    split at hn
    next =>
      cases hn
      refine ⟨h.ok, ?_, ?_⟩
      · intro i k hk
        have := h.owned i k hk
        simp only [List.length_append, List.length_singleton]
        omega
      · intro t th hth
        rw [List.getElem?_append] at hth
        split at hth
        next => exact h.thread t th hth
        next hge =>
          -- the new call has no ticket yet
          obtain rfl := List.mem_singleton.mp (List.mem_of_getElem? hth)
          refine ⟨.free, by rw [Thread.rest_settle]; exact hM.body _ call, ?_⟩
          intro i k hk hown
          have := h.owned i k hk
          omega
    next => cases hn
  | env e =>
    simp only [Machine.next, Option.map_eq_some_iff] at hn
    obtain ⟨w', henv, rfl⟩ := hn
    have hlocks : locks w' = locks σ.world := hM.env henv
    exact ⟨by rw [hlocks]; exact h.ok, by rw [hlocks]; exact h.owned,
      by rw [hlocks]; exact h.thread⟩
  | step t pick =>
    obtain ⟨call, w₀, op, k, r, hth, hex, hthreads⟩ := Machine.next_step hn
    obtain ⟨phase, hobeys, hst⟩ := h.thread t _ hth
    have hlt := (List.getElem?_eq_some_iff.mp hth).1
    -- a request of `t` leaves the mutex good, the others' phases alone, and `t` in a phase
    have hstep : (locks σ'.world).Ok ∧ Locks.Grows t (locks σ.world) (locks σ'.world) ∧
        (∃ phase', Obeys phase' (k r) ∧ (locks σ'.world).Stands t phase') ∧
        ∀ (i : Nat) (b : Ticket), (locks σ'.world).tickets[i]? = some b → b.owner = t ∨
          (locks σ.world).tickets[i]? = some b := by
      cases op with
      | inl op => exact hobeys.step_lock h.ok hst (hM.lock hex)
      | inr op =>
        rw [hM.plain hex]
        refine ⟨h.ok, Locks.grows_refl t _, ⟨phase, ?_, hst⟩, fun i b hb => Or.inr hb⟩
        cases phase with
        | free => exact hobeys r
        | queued => exact absurd hobeys id
        | held => exact hobeys r
    obtain ⟨hok, hgrows, ⟨phase', hobeys', hst'⟩, htickets⟩ := hstep
    refine ⟨hok, ?_, ?_⟩
    · intro i b hb
      rw [hthreads, List.length_set]
      rcases htickets i b hb with rfl | hb
      · exact hlt
      · exact h.owned i b hb
    · intro u th hu
      rw [hthreads] at hu
      by_cases htu : t = u
      · subst htu
        rw [List.getElem?_set_self hlt] at hu
        cases hu
        exact ⟨phase', by rw [Thread.rest_settle]; exact hobeys', hst'⟩
      · rw [List.getElem?_set_ne htu] at hu
        obtain ⟨phase₁, hk₁, hst₁⟩ := h.thread u th hu
        exact ⟨phase₁, hk₁, hst₁.grows hgrows (Ne.symm htu)⟩

/-- **Every run keeps it.** -/
theorem Queued.run (hM : UsesLocks M locks)
    {σ σ' : Pool W (LockOp ⊕ Op) (LockedResp Resp) ε Call Res} {as : List (Act M)}
    (h : Queued locks σ) (hr : M.run σ as = some σ') : Queued locks σ' := by
  induction as generalizing σ with
  | nil => cases hr; exact h
  | cons a as ih =>
    simp only [Machine.run, Option.bind_eq_some_iff] at hr
    obtain ⟨ρ, hn, hr⟩ := hr
    exact ih (h.next hM hn) hr

/-! ### Nobody waits for ever -/

/-- A ticket that is not resolved belongs to a call that is not done. -/
theorem Queued.unfinished {σ : Pool W (LockOp ⊕ Op) (LockedResp Resp) ε Call Res}
    (h : Queued locks σ) {i : Nat} {k : Ticket} (hk : (locks σ.world).tickets[i]? = some k)
    (hopen : k.resolved = false) : ∃ call w₀ op rest,
      σ.threads[k.owner]? = some ⟨call, w₀, .waiting op rest⟩ := by
  have hlt := h.owned i k hk
  have hth : σ.threads[k.owner]? = some σ.threads[k.owner] := List.getElem?_eq_getElem hlt
  obtain ⟨phase, hobeys, hst⟩ := h.thread _ _ hth
  rcases hs : σ.threads[k.owner] with ⟨call, w₀, status⟩
  rw [hs] at hth hobeys
  cases status with
  | waiting op rest => exact ⟨call, w₀, op, rest, hth⟩
  | done r w =>
    -- a finished call is in the free phase, and all its tickets are resolved
    have hfree : phase = .free := by
      cases phase with
      | free => rfl
      | queued => cases r <;> exact absurd hobeys id
      | held => cases r <;> exact absurd hobeys id
    subst hfree
    have := hst i k hk rfl
    rw [hopen] at this
    cases this

/-- Every request that is none of the mutex can be answered, and of the mutex those that the
    mutex answers. -/
structure Answering (M : Machine W (LockOp ⊕ Op) (LockedResp Resp) ε Call Res)
    (locks : W → Locks) : Prop where
  plain : ∀ t op w, ∃ pick r w', M.exec t (.inr op) pick w = some (r, w')
  lock : ∀ {t op w r l'}, (locks w).exec t op = some (r, l') →
    ∃ pick r w', M.exec t (.inl op) pick w = some (r, w')

/-- The owner of a ticket whose turn it is can step. -/
theorem Queued.holder_steps (hA : Answering M locks)
    {σ : Pool W (LockOp ⊕ Op) (LockedResp Resp) ε Call Res} (h : Queued locks σ) {i : Nat}
    {k : Ticket} (hk : (locks σ.world).Holds i k) :
    ∃ pick σ', M.next σ (.step k.owner pick) = some σ' := by
  obtain ⟨call, w₀, op, rest, hth⟩ := h.unfinished hk.ticket hk.unresolved
  obtain ⟨phase, hobeys, hst⟩ := h.thread _ _ hth
  cases op with
  | inr op =>
    obtain ⟨pick, r, w', hex⟩ := hA.plain k.owner op σ.world
    obtain ⟨σ', hn⟩ := Machine.exists_next_step hth hex
    exact ⟨pick, σ', hn⟩
  | inl op =>
    -- a promise it awaits is the one of its only unresolved ticket, whose turn it is
    have hex : ∃ a, (locks σ.world).exec k.owner op = some a := by
      cases op with
      | ticket lockKey => exact ⟨_, rfl⟩
      | release lockKey lock own => exact ⟨_, rfl⟩
      | await promise =>
        cases phase with
        | free => exact absurd hobeys id
        | held => exact absurd hobeys id
        | queued lockKey lock p own =>
          obtain ⟨rfl, -⟩ := hobeys
          have hi : i = own := by
            by_contra hne
            have := hst.2 i k hne hk.ticket rfl
            rw [hk.unresolved] at this
            cases this
          subst hi
          have hpred : k.predecessor = promise := by
            have := hk.ticket
            rw [hst.1] at this
            exact congrArg Ticket.predecessor (Option.some.inj this).symm
          exact ⟨_, if_pos (hpred ▸ hk.entered)⟩
    obtain ⟨⟨r, l'⟩, hex⟩ := hex
    obtain ⟨pick, r, w', hex⟩ := hA.lock hex
    obtain ⟨σ', hn⟩ := Machine.exists_next_step hth hex
    exact ⟨pick, σ', hn⟩

/-- **Deadlock freedom.**  As long as a call is not done, somebody can step. -/
theorem Queued.live (hA : Answering M locks)
    {σ : Pool W (LockOp ⊕ Op) (LockedResp Resp) ε Call Res} (h : Queued locks σ)
    (hfin : ¬ σ.Finished) : ∃ t pick σ', M.next σ (.step t pick) = some σ' := by
  simp only [Pool.Finished, not_forall] at hfin
  obtain ⟨t, ⟨call, w₀, status⟩, hth, hnot⟩ := hfin
  cases status with
  | done r w => exact absurd ⟨r, w, rfl⟩ hnot
  | waiting op rest =>
    obtain ⟨phase, hobeys, hst⟩ := h.thread t _ hth
    cases op with
    | inr op =>
      obtain ⟨pick, r, w', hex⟩ := hA.plain t op σ.world
      obtain ⟨σ', hn⟩ := Machine.exists_next_step hth hex
      exact ⟨t, pick, σ', hn⟩
    | inl op =>
      cases op with
      | ticket lockKey =>
        have hans : (locks σ.world).exec t (.ticket lockKey) = some _ := rfl
        obtain ⟨pick, r, w', hex⟩ := hA.lock hans
        obtain ⟨σ', hn⟩ := Machine.exists_next_step hth hex
        exact ⟨t, pick, σ', hn⟩
      | release lockKey lock own =>
        have hans : (locks σ.world).exec t (.release lockKey lock own) = some _ := rfl
        obtain ⟨pick, r, w', hex⟩ := hA.lock hans
        obtain ⟨σ', hn⟩ := Machine.exists_next_step hth hex
        exact ⟨t, pick, σ', hn⟩
      | await promise =>
        -- the oldest unresolved ticket of the key it waits for
        cases phase with
        | free => exact absurd hobeys id
        | held => exact absurd hobeys id
        | queued lockKey lock p own =>
          obtain ⟨j, b, hb, -⟩ := h.ok.exists_holds hst.1 rfl
          obtain ⟨pick, σ', hn⟩ := h.holder_steps hA hb
          exact ⟨b.owner, pick, σ', hn⟩

end UsesLocks

end Baerly
