import Baerly.SubscriptionPool
import Mathlib.Data.List.Count
import Mathlib.Logic.Function.Basic

/-
  The poll records of the subscription pool, counted.

  `Books` says of the records what a count of references for every table should find: a record for
  the tables with a reference, unaborted, and no unaborted poll besides.  Taking and giving back the
  tables of an attachment are folds that move the count.
-/

namespace Baerly

namespace PoolState

variable {D F N : Type}

/-! ## The books -/

/-- The records of the tables, against the number of references each should have. -/
structure Books (tablePolls : InsMap JsString Nat) (polls : List TablePoll)
    (count : JsString → Nat) : Prop where
  record : ∀ t i, tablePolls.get t = some i → ∃ p, polls[i]? = some p ∧ p.table = t ∧
    p.aborted = false ∧ p.refcount = count t ∧ 0 < count t
  absent : ∀ t, tablePolls.get t = none → count t = 0
  current : ∀ i p, polls[i]? = some p → p.aborted = false → tablePolls.get p.table = some i

section Books

variable {tablePolls : InsMap JsString Nat} {polls polls' : List TablePoll}
variable {count : JsString → Nat} {t : JsString} {i : Nat} {q : TablePoll}

/-- The books depend on the counts only. -/
theorem Books.congr {count' : JsString → Nat} (h : Books tablePolls polls count)
    (heq : ∀ t, count' t = count t) : Books tablePolls polls count' := by
  have hfun : count' = count := funext heq
  rw [hfun]
  exact h

/-- The index of a record belongs to one table. -/
theorem Books.index_ne (h : Books tablePolls polls count) {u : JsString} {j : Nat}
    (ht : tablePolls.get t = some i) (hu : tablePolls.get u = some j) (hne : u ≠ t) : j ≠ i := by
  rintro rfl
  obtain ⟨p, hp, htable, _⟩ := h.record t j ht
  obtain ⟨p', hp', htable', _⟩ := h.record u j hu
  cases hp.symm.trans hp'
  exact hne (htable'.symm.trans htable)

/-- A record gets another number of references. -/
theorem Books.change (h : Books tablePolls polls count) (ht : tablePolls.get t = some i)
    (hrest : ∀ j, j ≠ i → polls'[j]? = polls[j]?) (hq : polls'[i]? = some q) (htable : q.table = t)
    (hlive : q.aborted = false) (hpos : 0 < q.refcount) :
    Books tablePolls polls' (Function.update count t q.refcount) where
  record := by
    intro u j hu
    by_cases hut : u = t
    · subst hut
      cases ht.symm.trans hu
      exact ⟨q, hq, htable, hlive, by simp, by simpa using hpos⟩
    · obtain ⟨p, hp, hrec⟩ := h.record u j hu
      refine ⟨p, ?_, ?_⟩
      · rw [hrest j (h.index_ne ht hu hut)]
        exact hp
      · rw [Function.update_of_ne hut]
        exact hrec
  absent := by
    intro u hu
    have hut : u ≠ t := by
      rintro rfl
      rw [ht] at hu
      cases hu
    rw [Function.update_of_ne hut]
    exact h.absent u hu
  current := by
    intro j p hp hp'
    by_cases hj : j = i
    · subst hj
      cases hq.symm.trans hp
      rw [htable]
      exact ht
    · rw [hrest j hj] at hp
      exact h.current j p hp hp'

/-- A record is dropped, and its controller aborted. -/
theorem Books.drop (h : Books tablePolls polls count) (ht : tablePolls.get t = some i)
    (hrest : ∀ j, j ≠ i → polls'[j]? = polls[j]?) (hq : polls'[i]? = some q)
    (hdead : q.aborted = true) :
    Books (tablePolls.erase t) polls' (Function.update count t 0) where
  record := by
    intro u j hu
    rw [InsMap.get_erase] at hu
    split at hu
    · cases hu
    next hut =>
      obtain ⟨p, hp, hrec⟩ := h.record u j hu
      refine ⟨p, ?_, ?_⟩
      · rw [hrest j (h.index_ne ht hu hut)]
        exact hp
      · rw [Function.update_of_ne hut]
        exact hrec
  absent := by
    intro u hu
    rw [InsMap.get_erase] at hu
    by_cases hut : u = t
    · rw [hut, Function.update_self]
    · rw [if_neg hut] at hu
      rw [Function.update_of_ne hut]
      exact h.absent u hu
  current := by
    intro j p hp hp'
    have hj : j ≠ i := by
      rintro rfl
      cases hq.symm.trans hp
      rw [hdead] at hp'
      cases hp'
    rw [hrest j hj] at hp
    have hcur := h.current j p hp hp'
    rw [InsMap.get_erase, if_neg, hcur]
    intro heq
    rw [heq, ht] at hcur
    exact hj (Option.some.inj hcur).symm

/-- A record is made. -/
theorem Books.start (h : Books tablePolls polls count) (ht : tablePolls.get t = none)
    (htable : q.table = t) (hlive : q.aborted = false) (hpos : 0 < q.refcount) :
    Books (tablePolls.set t polls.length) (polls ++ [q])
      (Function.update count t q.refcount) where
  record := by
    intro u j hu
    rw [InsMap.get_set] at hu
    by_cases hut : u = t
    · subst hut
      rw [if_pos rfl] at hu
      cases hu
      exact ⟨q, List.getElem?_concat_length, htable, hlive, by simp, by simpa using hpos⟩
    · rw [if_neg hut] at hu
      obtain ⟨p, hp, hrec⟩ := h.record u j hu
      refine ⟨p, ?_, ?_⟩
      · rw [List.getElem?_append_left (List.getElem?_eq_some_iff.mp hp).1]
        exact hp
      · rw [Function.update_of_ne hut]
        exact hrec
  absent := by
    intro u hu
    rw [InsMap.get_set] at hu
    split at hu
    · cases hu
    next hut =>
      rw [Function.update_of_ne hut]
      exact h.absent u hu
  current := by
    intro j p hp hp'
    rw [InsMap.get_set]
    rcases Nat.lt_or_ge j polls.length with hlt | hge
    · rw [List.getElem?_append_left hlt] at hp
      have hcur := h.current j p hp hp'
      rw [if_neg, hcur]
      intro heq
      rw [heq, ht] at hcur
      cases hcur
    · rw [List.getElem?_append_right hge] at hp
      have hzero : j - polls.length = 0 := by
        by_contra hne
        rw [List.getElem?_eq_none (by simp; omega)] at hp
        cases hp
      rw [hzero] at hp
      cases hp
      rw [if_pos htable]
      congr 1
      omega

end Books

/-! ## Taking and giving references -/

/-- Only polls changed, and no poll failed for good. -/
structure OnlyPolls (σ σ' : PoolState D F N) : Prop where
  cache : σ'.cache = σ.cache
  subscribers : σ'.subscribersBySignature = σ.subscribersBySignature
  fetches : σ'.fetches = σ.fetches
  attachments : σ'.attachments = σ.attachments
  terminal : ∀ t e, σ'.terminalErrorOf t = some e → σ.terminalErrorOf t = some e

theorem OnlyPolls.refl (σ : PoolState D F N) : OnlyPolls σ σ :=
  ⟨rfl, rfl, rfl, rfl, fun _ _ h => h⟩

/-- Two steps on polls are one. -/
theorem OnlyPolls.trans {σ σ' σ'' : PoolState D F N} (h : OnlyPolls σ σ')
    (h' : OnlyPolls σ' σ'') : OnlyPolls σ σ'' where
  cache := h'.cache.trans h.cache
  subscribers := h'.subscribers.trans h.subscribers
  fetches := h'.fetches.trans h.fetches
  attachments := h'.attachments.trans h.attachments
  terminal := fun t e he => h.terminal t e (h'.terminal t e he)

section Polls

variable {σ : PoolState D F N} {count : JsString → Nat} {t : JsString} {i n : Nat}
variable {f : TablePoll → TablePoll} {p : TablePoll}

/-- The poll that is changed is changed. -/
theorem updatePoll_self (hp : σ.polls[i]? = some p) :
    (σ.updatePoll i f).polls[i]? = some (f p) := by
  simp [updatePoll, hp]

/-- And no other. -/
theorem updatePoll_ne {j : Nat} (hne : j ≠ i) :
    (σ.updatePoll i f).polls[j]? = σ.polls[j]? := by
  simp [updatePoll, Ne.symm hne]

/-- A change of a poll that leaves its terminal error. -/
theorem OnlyPolls.update (hf : ∀ p, (f p).terminalError = p.terminalError) :
    OnlyPolls σ (σ.updatePoll i f) where
  cache := rfl
  subscribers := rfl
  fetches := rfl
  attachments := rfl
  terminal := by
    intro t e he
    rw [← he]
    unfold terminalErrorOf
    refine Option.bind_congr fun j _ => ?_
    by_cases hj : j = i
    · subst hj
      cases hp : σ.polls[j]? with
      | none => simp [updatePoll, hp]
      | some p =>
        rw [updatePoll_self hp]
        exact (hf p).symm
    · rw [updatePoll_ne hj]

/-- Dropping a poll leaves the rest. -/
theorem OnlyPolls.drop : OnlyPolls σ (σ.dropPoll t i) := by
  have hupdate : OnlyPolls σ (σ.updatePoll i fun p => { p with aborted := true }) :=
    .update fun _ => rfl
  refine hupdate.trans ⟨rfl, rfl, rfl, rfl, fun u e he => ?_⟩
  unfold terminalErrorOf at he ⊢
  change ((σ.tablePolls.erase t).get u).bind _ = some e at he
  rw [InsMap.get_erase] at he
  split at he
  · cases he
  · exact he

/-- So does starting one. -/
theorem OnlyPolls.start : OnlyPolls σ (σ.startTablePoll t n) := by
  unfold startTablePoll
  split
  · exact .refl σ
  next hhas =>
    refine ⟨rfl, rfl, rfl, rfl, fun u e he => ?_⟩
    unfold terminalErrorOf at he ⊢
    change ((σ.tablePolls.set t σ.polls.length).get u).bind _ = some e at he
    rw [InsMap.get_set] at he
    split at he
    · -- the new record has no error
      rw [Option.bind_some, List.getElem?_concat_length] at he
      cases he
    · obtain ⟨j, hj, hbind⟩ := Option.bind_eq_some_iff.mp he
      obtain ⟨q, hq, hterm⟩ := Option.bind_eq_some_iff.mp hbind
      rw [hj, Option.bind_some]
      rcases Nat.lt_or_ge j σ.polls.length with hlt | hge
      · rw [List.getElem?_append_left hlt] at hq
        rw [hq]
        exact hterm
      · rw [List.getElem?_append_right hge] at hq
        have heq : q = ⟨t, n, false, [], none, 0, false, .polling []⟩ := by
          simpa using List.mem_of_getElem? hq
        rw [heq] at hterm
        cases hterm

/-- The books of a state. -/
abbrev BooksAt (σ : PoolState D F N) (count : JsString → Nat) : Prop :=
  Books σ.tablePolls σ.polls count

/-- **A reference is taken.** -/
theorem incrementTablePoll_books (h : σ.BooksAt count) :
    OnlyPolls σ (σ.incrementTablePoll t) ∧
      (σ.incrementTablePoll t).BooksAt (Function.update count t (count t + 1)) := by
  unfold incrementTablePoll
  cases ht : σ.tablePolls.get t with
  | none =>
    refine ⟨.start, ?_⟩
    have hfree : σ.tablePolls.has t = false := by
      unfold InsMap.has
      rw [ht]
      rfl
    dsimp only
    unfold startTablePoll
    rw [hfree, if_neg (by simp), h.absent t ht]
    exact h.start ht rfl rfl (Nat.le_refl 1)
  | some i =>
    refine ⟨.update fun _ => rfl, ?_⟩
    obtain ⟨p, hp, htable, hlive, hcount, hpos⟩ := h.record t i ht
    have hself : (σ.updatePoll i fun p => { p with refcount := p.refcount + 1 }).polls[i]? =
        some { p with refcount := p.refcount + 1 } := updatePoll_self hp
    have hchange := h.change ht (fun j hj => updatePoll_ne hj) hself htable hlive
      (Nat.succ_pos p.refcount)
    rw [← hcount]
    exact hchange

/-- **A reference is given back.** -/
theorem stopTablePoll_books (h : σ.BooksAt count) (hpos : 0 < count t) :
    OnlyPolls σ (σ.stopTablePoll t) ∧
      (σ.stopTablePoll t).BooksAt (Function.update count t (count t - 1)) := by
  unfold stopTablePoll
  cases ht : σ.tablePolls.get t with
  | none =>
    have hzero := h.absent t ht
    omega
  | some i =>
    obtain ⟨p, hp, htable, hlive, hcount, _⟩ := h.record t i ht
    dsimp only
    have hself : (σ.updatePoll i fun p => { p with refcount := p.refcount - 1 }).polls[i]? =
        some { p with refcount := p.refcount - 1 } := updatePoll_self hp
    have hupdate : OnlyPolls σ (σ.updatePoll i fun p => { p with refcount := p.refcount - 1 }) :=
      .update fun _ => rfl
    rw [hself, Option.any_some]
    split
    next hlast =>
      have hzero : count t - 1 = 0 := by
        rw [← hcount]
        exact of_decide_eq_true hlast
      rw [hzero]
      refine ⟨hupdate.trans .drop, ?_⟩
      refine h.drop ht (fun j hj => ?_) (updatePoll_self hself) rfl
      exact (updatePoll_ne hj).trans (updatePoll_ne hj)
    next hmore =>
      refine ⟨hupdate, ?_⟩
      have hleft : 0 < p.refcount - 1 := by
        rw [decide_eq_true_eq] at hmore
        exact Nat.pos_of_ne_zero hmore
      have hchange := h.change ht (fun j hj => updatePoll_ne hj) hself htable hlive hleft
      rw [← hcount]
      exact hchange

/-- **A poll that failed for good starts over**, with the references it had. -/
theorem restartTerminalPoll_books (h : σ.BooksAt count) :
    OnlyPolls σ (σ.restartTerminalPoll t).1 ∧ (σ.restartTerminalPoll t).1.BooksAt count := by
  unfold restartTerminalPoll
  cases ht : σ.tablePolls.get t with
  | none => exact ⟨.refl σ, h⟩
  | some i =>
    obtain ⟨p, hp, htable, hlive, hcount, hpos⟩ := h.record t i ht
    dsimp only
    rw [hp]
    dsimp only
    split
    · exact ⟨.refl σ, h⟩
    · refine ⟨OnlyPolls.drop.trans .start, ?_⟩
      have hdrop : (σ.dropPoll t i).BooksAt (Function.update count t 0) :=
        h.drop ht (fun j hj => updatePoll_ne hj) (updatePoll_self hp) rfl
      have hgone : (σ.dropPoll t i).tablePolls.get t = none := by
        show (σ.tablePolls.erase t).get t = none
        rw [InsMap.get_erase, if_pos rfl]
      have hfree : (σ.dropPoll t i).tablePolls.has t = false := by
        unfold InsMap.has
        rw [hgone]
        rfl
      unfold startTablePoll
      rw [hfree, if_neg (by simp)]
      have hstart := hdrop.start hgone rfl rfl (hcount ▸ hpos)
        (q := ⟨t, p.refcount, false, [], none, 0, false, .polling []⟩)
      refine hstart.congr fun u => ?_
      rw [Function.update_idem]
      by_cases hu : u = t
      · rw [hu, Function.update_self, hcount]
      · rw [Function.update_of_ne hu]

/-- The tables of an attachment are counted. -/
theorem foldl_incrementTablePoll : ∀ (tables : List JsString) {σ : PoolState D F N}
    {count : JsString → Nat}, σ.BooksAt count →
    OnlyPolls σ (tables.foldl incrementTablePoll σ) ∧
      (tables.foldl incrementTablePoll σ).BooksAt fun t => count t + tables.count t := by
  intro tables
  induction tables with
  | nil => exact fun h => ⟨.refl _, h⟩
  | cons table tables ih =>
    intro σ count h
    obtain ⟨honly, hbooks⟩ := incrementTablePoll_books (t := table) h
    obtain ⟨honly', hbooks'⟩ := ih hbooks
    refine ⟨honly.trans honly', hbooks'.congr fun u => ?_⟩
    by_cases hu : u = table
    · rw [hu, Function.update_self, List.count_cons_self]
      omega
    · rw [Function.update_of_ne hu, List.count_cons_of_ne (Ne.symm hu)]

/-- They are given back when it ends. -/
theorem foldl_stopTablePoll : ∀ (tables : List JsString) {σ : PoolState D F N}
    {count : JsString → Nat}, σ.BooksAt count → (∀ t, tables.count t ≤ count t) →
    OnlyPolls σ (tables.foldl stopTablePoll σ) ∧
      (tables.foldl stopTablePoll σ).BooksAt fun t => count t - tables.count t := by
  intro tables
  induction tables with
  | nil => exact fun h _ => ⟨.refl _, h⟩
  | cons table tables ih =>
    intro σ count h hle
    have hself : tables.count table + 1 ≤ count table := by
      have hle' := hle table
      rw [List.count_cons_self] at hle'
      exact hle'
    obtain ⟨honly, hbooks⟩ := stopTablePoll_books (t := table) h (by omega)
    have hrest : ∀ u, tables.count u ≤ Function.update count table (count table - 1) u := by
      intro u
      by_cases hu : u = table
      · rw [hu, Function.update_self]
        omega
      · have hle' := hle u
        rw [List.count_cons_of_ne (Ne.symm hu)] at hle'
        rw [Function.update_of_ne hu]
        exact hle'
    obtain ⟨honly', hbooks'⟩ := ih hbooks hrest
    refine ⟨honly.trans honly', hbooks'.congr fun u => ?_⟩
    by_cases hu : u = table
    · rw [hu, Function.update_self, List.count_cons_self]
      omega
    · rw [Function.update_of_ne hu, List.count_cons_of_ne (Ne.symm hu)]

end Polls

end PoolState

end Baerly
