import Mathlib.Data.List.Forall2
import Baerly.Lib.Interleave

/-
  Forward simulation between two machines that run the same programs.

  PROGRAM: two worlds under one set of requests and calls, the lower one closer to the wire.  Their
  machines differ in `exec` and `env` only.

  SPEC: every run of the lower machine is a run of the upper one: the same calls at the same requests,
  with the same outcomes, over related worlds, at the end (`run`) and throughout (`run_throughout`).

  CRUX: a request is matched by the same request, a step of the lower world by at most one step of the
  upper.  `ok` is what has to be assumed of the lower worlds.  Assuming it of the LAST world of a run is
  enough, as it is never regained (`exec_back`, `env_back`).
-/

namespace Async

section Simulation

variable {W₁ W₂ Op : Type} {Resp : Op → Type} {ε Call : Type} {Res : Call → Type}

/-- Two machines whose steps match along a relation of their worlds. -/
structure Simulation (M₁ : Machine W₁ Op Resp ε Call Res) (M₂ : Machine W₂ Op Resp ε Call Res) where
  rel : W₁ → W₂ → Prop
  ok : W₁ → Prop
  body : ∀ t c, M₁.body t c = M₂.body t c
  accepts : ∀ {c w₁ w₂}, rel w₁ w₂ → M₁.accepts c w₁ = true → M₂.accepts c w₂ = true
  exec_back : ∀ {t op pick w r w'}, M₁.exec t op pick w = some (r, w') → ok w' → ok w
  env_back : ∀ {e w w'}, M₁.env e w = some w' → ok w' → ok w
  exec : ∀ {t op pick w₁ w₂ r w₁'}, rel w₁ w₂ → M₁.exec t op pick w₁ = some (r, w₁') → ok w₁' →
    ∃ pick₂ w₂', M₂.exec t op pick₂ w₂ = some (r, w₂') ∧ rel w₁' w₂'
  env : ∀ {e w₁ w₂ w₁'}, rel w₁ w₂ → M₁.env e w₁ = some w₁' → ok w₁' →
    rel w₁' w₂ ∨ ∃ e₂ w₂', M₂.env e₂ w₂ = some w₂' ∧ rel w₁' w₂'

/-! ## Pools that look alike -/

/-- The same request, or the same outcome. -/
inductive Status.Alike (R : W₁ → W₂ → Prop) {α : Type} :
    Status W₁ Op Resp ε α → Status W₂ Op Resp ε α → Prop where
  | waiting (op : Op) (k : Resp op → Prog Op Resp ε α) : Alike R (.waiting op k) (.waiting op k)
  | done (r : Except ε α) {w₁ : W₁} {w₂ : W₂} (world : R w₁ w₂) : Alike R (.done r w₁) (.done r w₂)

/-- The same call, as far advanced. -/
inductive Thread.Alike (R : W₁ → W₂ → Prop) :
    Thread W₁ Op Resp ε Call Res → Thread W₂ Op Resp ε Call Res → Prop where
  | mk (c : Call) {w₁ : W₁} {w₂ : W₂} {s₁ : Status W₁ Op Resp ε (Res c)}
      {s₂ : Status W₂ Op Resp ε (Res c)} (start : R w₁ w₂) (status : s₁.Alike R s₂) :
      Alike R ⟨c, w₁, s₁⟩ ⟨c, w₂, s₂⟩

/-- Related worlds with the same threads. -/
structure Pool.Alike (R : W₁ → W₂ → Prop) (σ₁ : Pool W₁ Op Resp ε Call Res)
    (σ₂ : Pool W₂ Op Resp ε Call Res) : Prop where
  world : R σ₁.world σ₂.world
  threads : List.Forall₂ (Thread.Alike R) σ₁.threads σ₂.threads

variable {R : W₁ → W₂ → Prop} {w₁ : W₁} {w₂ : W₂}

/-- Related worlds settle one program alike. -/
theorem Status.alike_settle {α : Type} (hw : R w₁ w₂) (p : Prog Op Resp ε α) :
    (settle w₁ p).Alike R (settle w₂ p) := by
  cases p with
  | ret a => exact .done _ hw
  | throw e => exact .done _ hw
  | call op k => exact .waiting op k

/-- What stands in the second list where `a` stands in the first. -/
theorem exists_related {α β : Type} {R : α → β → Prop} {as : List α} {bs : List β}
    (h : List.Forall₂ R as bs) {i : Nat} {a : α} (ha : as[i]? = some a) :
    ∃ b, bs[i]? = some b ∧ R a b := by
  induction h generalizing i with
  | nil => cases ha
  | cons hhead _ ih =>
    cases i with
    | zero =>
      cases ha
      exact ⟨_, rfl, hhead⟩
    | succ i => exact ih ha

/-- Setting one place on both sides. -/
theorem related_set {α β : Type} {R : α → β → Prop} {as : List α} {bs : List β}
    (h : List.Forall₂ R as bs) {a : α} {b : β} (hab : R a b) (i : Nat) :
    List.Forall₂ R (as.set i a) (bs.set i b) := by
  induction h generalizing i with
  | nil => exact .nil
  | cons hhead htail ih =>
    cases i with
    | zero => exact .cons hab htail
    | succ i => exact .cons hhead (ih i)

/-- Setting a place on the left to what is related to the right. -/
theorem related_set_left {α β : Type} {R : α → β → Prop} {as : List α} {bs : List β}
    (h : List.Forall₂ R as bs) {i : Nat} {a : α} {b : β} (hb : bs[i]? = some b) (hab : R a b) :
    List.Forall₂ R (as.set i a) bs := by
  obtain ⟨hlt, rfl⟩ := List.getElem?_eq_some_iff.mp hb
  have hset := related_set h hab i
  rwa [List.set_getElem_self hlt] at hset

/-- And on the right. -/
theorem related_set_right {α β : Type} {R : α → β → Prop} {as : List α} {bs : List β}
    (h : List.Forall₂ R as bs) {i : Nat} {a : α} {b : β} (ha : as[i]? = some a) (hab : R a b) :
    List.Forall₂ R as (bs.set i b) := by
  obtain ⟨hlt, rfl⟩ := List.getElem?_eq_some_iff.mp ha
  have hset := related_set h hab i
  rwa [List.set_getElem_self hlt] at hset

/-! ## Steps and runs -/

variable {M₁ : Machine W₁ Op Resp ε Call Res} {M₂ : Machine W₂ Op Resp ε Call Res}
variable {σ₁ σ₁' : Pool W₁ Op Resp ε Call Res} {σ₂ : Pool W₂ Op Resp ε Call Res}

/-- A state is good if the one after it is. -/
theorem Simulation.next_back (S : Simulation M₁ M₂) {a : Act M₁} (hn : M₁.next σ₁ a = some σ₁')
    (hok : S.ok σ₁'.world) : S.ok σ₁.world := by
  cases a with
  | spawn c =>
    simp only [Machine.next] at hn
    split at hn
    next =>
      cases hn
      exact hok
    next => cases hn
  | step t pick =>
    obtain ⟨_, _, _, _, _, _, hex, _⟩ := Machine.next_step hn
    exact S.exec_back hex hok
  | env e =>
    simp only [Machine.next, Option.map_eq_some_iff] at hn
    obtain ⟨w', he, rfl⟩ := hn
    exact S.env_back he hok

/-- So is every state before. -/
theorem Simulation.run_back (S : Simulation M₁ M₂) {acts : List (Act M₁)} :
    ∀ {σ₁ σ₁' : Pool W₁ Op Resp ε Call Res}, M₁.run σ₁ acts = some σ₁' → S.ok σ₁'.world →
      S.ok σ₁.world := by
  induction acts with
  | nil =>
    intro σ₁ σ₁' hr hok
    cases hr
    exact hok
  | cons a acts ih =>
    intro σ₁ σ₁' hr hok
    simp only [Machine.run, Option.bind_eq_some_iff] at hr
    obtain ⟨ρ, hn, hr⟩ := hr
    exact S.next_back hn (ih hr hok)

/-- One step of the lower machine is at most one of the upper. -/
theorem Simulation.next (S : Simulation M₁ M₂) {a : Act M₁} (hn : M₁.next σ₁ a = some σ₁')
    (hok : S.ok σ₁'.world) (halike : σ₁.Alike S.rel σ₂) :
    ∃ acts σ₂', M₂.run σ₂ acts = some σ₂' ∧ σ₁'.Alike S.rel σ₂' := by
  cases a with
  | spawn c =>
    simp only [Machine.next] at hn
    split at hn
    next haccepts =>
      cases hn
      have hlen : σ₁.threads.length = σ₂.threads.length := halike.threads.length_eq
      refine ⟨[.spawn c], ⟨σ₂.world, σ₂.threads ++ [⟨c, σ₂.world, settle σ₂.world
        (M₂.body σ₂.threads.length c)⟩]⟩, ?_, halike.world, List.rel_append halike.threads ?_⟩
      · simp only [Machine.run, Machine.next, S.accepts halike.world haccepts, if_true,
          Option.bind_some]
      · rw [hlen, S.body]
        exact .cons (.mk c halike.world (Status.alike_settle halike.world _)) .nil
    next => cases hn
  | step t pick =>
    obtain ⟨c, w₀, op, k, r, hth, hex, hthreads⟩ := Machine.next_step hn
    obtain ⟨th₂, hth₂, hsame⟩ := exists_related halike.threads hth
    cases hsame with
    | @mk _ _ start₂ _ _ hstart hstatus =>
      cases hstatus
      obtain ⟨pick₂, w₂', hex₂, hrel⟩ := S.exec halike.world hex hok
      refine ⟨[.step t pick₂], ⟨w₂', σ₂.threads.set t ⟨c, start₂, settle w₂' (k r)⟩⟩, ?_, hrel, ?_⟩
      · simp only [Machine.run, Machine.next, hth₂, hex₂, Option.bind_some]
      · rw [hthreads]
        exact related_set halike.threads (.mk c hstart (Status.alike_settle hrel (k r))) t
  | env e =>
    simp only [Machine.next, Option.map_eq_some_iff] at hn
    obtain ⟨w₁', he, rfl⟩ := hn
    rcases S.env halike.world he hok with hrel | ⟨e₂, w₂', he₂, hrel⟩
    · exact ⟨[], σ₂, rfl, hrel, halike.threads⟩
    · refine ⟨[.env e₂], { σ₂ with world := w₂' }, ?_, hrel, halike.threads⟩
      simp only [Machine.run, Machine.next, he₂, Option.map_some, Option.bind_some]

/-- **Every run of the lower machine is a run of the upper one**, and the two look alike throughout:
    wherever the lower run is cut, the upper one can be cut. -/
theorem Simulation.run_throughout (S : Simulation M₁ M₂) {acts : List (Act M₁)} :
    ∀ {σ₁ σ₁' : Pool W₁ Op Resp ε Call Res} {σ₂ : Pool W₂ Op Resp ε Call Res},
      M₁.run σ₁ acts = some σ₁' → S.ok σ₁'.world → σ₁.Alike S.rel σ₂ →
      ∃ acts₂, (∃ σ₂', M₂.run σ₂ acts₂ = some σ₂' ∧ σ₁'.Alike S.rel σ₂') ∧
        ∀ as bs, acts = as ++ bs → ∃ as₂ bs₂ ρ₁ ρ₂, acts₂ = as₂ ++ bs₂ ∧ M₁.run σ₁ as = some ρ₁ ∧
          M₂.run σ₂ as₂ = some ρ₂ ∧ ρ₁.Alike S.rel ρ₂ := by
  induction acts with
  | nil =>
    intro σ₁ σ₁' σ₂ hr _ halike
    cases hr
    refine ⟨[], ⟨σ₂, rfl, halike⟩, fun as bs hcut => ?_⟩
    obtain ⟨rfl, -⟩ := List.append_eq_nil_iff.mp hcut.symm
    exact ⟨[], [], σ₁, σ₂, rfl, rfl, rfl, halike⟩
  | cons a acts ih =>
    intro σ₁ σ₁' σ₂ hr hok halike
    simp only [Machine.run, Option.bind_eq_some_iff] at hr
    obtain ⟨ρ, hn, hr⟩ := hr
    obtain ⟨block, ρ', hblock, halike'⟩ := S.next hn (S.run_back hr hok) halike
    obtain ⟨rest, ⟨σ₂', hrest, hend⟩, hcuts⟩ := ih hr hok halike'
    refine ⟨block ++ rest, ⟨σ₂', (Machine.run_append M₂).mpr ⟨ρ', hblock, hrest⟩, hend⟩,
      fun as bs hcut => ?_⟩
    cases as with
    | nil => exact ⟨[], block ++ rest, σ₁, σ₂, rfl, rfl, rfl, halike⟩
    | cons a' as =>
      obtain ⟨rfl, htail⟩ := List.cons.inj hcut
      obtain ⟨as₂, bs₂, ρ₁, ρ₂, rfl, hrun₁, hrun₂, hcurrent⟩ := hcuts as bs htail
      refine ⟨block ++ as₂, bs₂, ρ₁, ρ₂, (List.append_assoc _ _ _).symm, ?_,
        (Machine.run_append M₂).mpr ⟨ρ', hblock, hrun₂⟩, hcurrent⟩
      simp only [Machine.run, hn, Option.bind_some, hrun₁]

/-- **Every run below has a run above**, by induction on its steps. -/
theorem Simulation.run (S : Simulation M₁ M₂) {acts : List (Act M₁)}
    {σ₁ σ₁' : Pool W₁ Op Resp ε Call Res} {σ₂ : Pool W₂ Op Resp ε Call Res}
    (hr : M₁.run σ₁ acts = some σ₁') (hok : S.ok σ₁'.world) (halike : σ₁.Alike S.rel σ₂) :
    ∃ acts₂ σ₂', M₂.run σ₂ acts₂ = some σ₂' ∧ σ₁'.Alike S.rel σ₂' := by
  obtain ⟨acts₂, hend, -⟩ := S.run_throughout hr hok halike
  exact ⟨acts₂, hend⟩

end Simulation

end Async
