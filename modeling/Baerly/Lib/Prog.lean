/-
  Asynchronous programs as trees of requests.

  An `async` function of the kind verified here does two things: it computes, and it awaits one
  request after another.  Everything it can observe of the outside world comes back as the
  RESPONSE to a request.  So the function is the tree of its requests:

    ret a        the promise resolves with `a`
    throw e      the promise rejects with `e`
    call op k    the function awaits the request `op` and goes on with `k` on its response

  The tree fixes nothing about what happens BETWEEN two awaits — that is the scheduler's
  business (`Baerly.Lib.Interleave`).  `Prog` is a monad with exceptions, so the programs read
  as the `async`/`try`/`catch` text they come from.
-/

namespace Async

/-- A program over requests `op : Op` answered in `Resp op`, rejecting with `ε` or resolving
    with `α`. -/
inductive Prog (Op : Type) (Resp : Op → Type) (ε α : Type) : Type where
  | ret (a : α)
  | throw (e : ε)
  | call (op : Op) (k : Resp op → Prog Op Resp ε α)

namespace Prog

variable {Op : Type} {Resp : Op → Type} {ε α β : Type}

/-- Sequencing: `await` the first program, then go on with its value; a rejection passes
    through. -/
def bind : Prog Op Resp ε α → (α → Prog Op Resp ε β) → Prog Op Resp ε β
  | .ret a, f => f a
  | .throw e, _ => .throw e
  | .call op k, f => .call op fun r => (k r).bind f

/-- `try … catch`: hand a rejection to the handler, wherever in the tree it happens. -/
def tryCatch : Prog Op Resp ε α → (ε → Prog Op Resp ε α) → Prog Op Resp ε α
  | .ret a, _ => .ret a
  | .throw e, h => h e
  | .call op k, h => .call op fun r => (k r).tryCatch h

/-- Await one request. -/
def ask (op : Op) : Prog Op Resp ε (Resp op) :=
  .call op .ret

instance : Monad (Prog Op Resp ε) where
  pure := .ret
  bind := bind

instance : MonadExceptOf ε (Prog Op Resp ε) where
  throw := .throw
  tryCatch := tryCatch

/-- `Promise.allSettled`-style capture: the outcome of a program as a value. -/
def attempt (p : Prog Op Resp ε α) : Prog Op Resp ε (Except ε α) :=
  (p.bind fun a => .ret (.ok a)).tryCatch fun e => .ret (.error e)

/-- Run `f` on every element of `xs`, one after the other, pairing each element with its
    value.  With `xs` in an order the scheduler chose this is `Promise.all (xs.map f)`. -/
def gather (f : α → Prog Op Resp ε β) : List α → Prog Op Resp ε (List (α × β))
  | [] => .ret []
  | x :: xs => (f x).bind fun b => (gather f xs).bind fun rest => .ret ((x, b) :: rest)

/-- The program never rejects, whatever it is answered. -/
def NoThrow : Prog Op Resp ε α → Prop
  | .ret _ => True
  | .throw _ => False
  | .call _ k => ∀ r, (k r).NoThrow

/-- A sequence of programs that throw nothing throws nothing. -/
theorem NoThrow.bind {p : Prog Op Resp ε α} {f : α → Prog Op Resp ε β} (hp : p.NoThrow)
    (hf : ∀ a, (f a).NoThrow) : (p.bind f).NoThrow := by
  induction p with
  | ret a => exact hf a
  | throw e => exact absurd hp id
  | call op k ih => exact fun r => ih r (hp r)

/-- A captured program never rejects. -/
theorem NoThrow.attempt (p : Prog Op Resp ε α) : p.attempt.NoThrow := by
  unfold Prog.attempt
  induction p with
  | ret a => trivial
  | throw e => trivial
  | call op k ih => exact fun r => ih r

/-- Nor does a list of them. -/
theorem NoThrow.gather {f : α → Prog Op Resp ε β} (hf : ∀ a, (f a).NoThrow) :
    ∀ xs : List α, (Prog.gather f xs).NoThrow := by
  intro xs
  induction xs with
  | nil => trivial
  | cons x xs ih => exact (hf x).bind fun _ => ih.bind fun _ => trivial

/-! ## What a program can ask for

`p.Asks G Q`: whatever it is answered, every request of `p` meets `G`, and `p` resolves only with
values that meet `Q`.  Nothing is said of the world, so the rules have no interference in them. -/

/-- Every request of the program meets `G`, and every value it resolves with meets `Q`. -/
def Asks (G : Op → Prop) (Q : α → Prop) : Prog Op Resp ε α → Prop
  | .ret a => Q a
  | .throw _ => True
  | .call op k => G op ∧ ∀ r, (k r).Asks G Q

section Asks

variable {G : Op → Prop} {Q Q' : α → Prop} {R : β → Prop}

/-- A weaker postcondition holds as well. -/
theorem Asks.mono {p : Prog Op Resp ε α} (h : p.Asks G Q) (hQ : ∀ a, Q a → Q' a) :
    p.Asks G Q' := by
  induction p with
  | ret a => exact hQ a h
  | throw e => trivial
  | call op k ih => exact ⟨h.1, fun r => ih r (h.2 r)⟩

/-- So does a wider class of requests. -/
theorem Asks.weaken {G' : Op → Prop} {p : Prog Op Resp ε α} (h : p.Asks G Q)
    (hG : ∀ op, G op → G' op) : p.Asks G' Q := by
  induction p with
  | ret a => exact h
  | throw e => trivial
  | call op k ih => exact ⟨hG op h.1, fun r => ih r (h.2 r)⟩

/-- The rule of sequence. -/
theorem Asks.bind {p : Prog Op Resp ε α} {f : α → Prog Op Resp ε β} (h : p.Asks G Q)
    (hf : ∀ a, Q a → (f a).Asks G R) : (p.bind f).Asks G R := by
  induction p with
  | ret a => exact hf a h
  | throw e => trivial
  | call op k ih => exact ⟨h.1, fun r => ih r (h.2 r)⟩

/-- The rule of the handler, which is held to the same. -/
theorem Asks.tryCatch {p : Prog Op Resp ε α} {h : ε → Prog Op Resp ε α} (hp : p.Asks G Q)
    (hh : ∀ e, (h e).Asks G Q) : (p.tryCatch h).Asks G Q := by
  induction p with
  | ret a => exact hp
  | throw e => exact hh e
  | call op k ih => exact ⟨hp.1, fun r => ih r (hp.2 r)⟩

/-- What is known of the value of a captured program, if it resolved. -/
theorem Asks.attempt {p : Prog Op Resp ε α} (h : p.Asks G Q) :
    p.attempt.Asks G (fun r => ∀ a, r = .ok a → Q a) := by
  refine Asks.tryCatch (h.bind fun a ha => ?_) fun e => ?_
  · intro b hb
    cases hb
    exact ha
  · intro b hb
    cases hb

/-- The rule of a list of programs. -/
theorem Asks.gather {f : α → Prog Op Resp ε β} (hf : ∀ a, (f a).Asks G R) (xs : List α) :
    (Prog.gather f xs).Asks G (fun _ => True) := by
  induction xs with
  | nil => trivial
  | cons x xs ih => exact (hf x).bind fun _ _ => ih.bind fun _ _ => trivial

end Asks

/-! ## A world that stands still -/

/-- The outcome of a program when the same request is always answered the same way. -/
def eval (answer : (op : Op) → Resp op) : Prog Op Resp ε α → Except ε α
  | .ret a => .ok a
  | .throw e => .error e
  | .call op k => (k (answer op)).eval answer

section Eval

variable {answer : (op : Op) → Resp op}

@[simp] theorem eval_ret (a : α) : (ret a : Prog Op Resp ε α).eval answer = .ok a := rfl

@[simp] theorem eval_throw (e : ε) : (throw e : Prog Op Resp ε α).eval answer = .error e := rfl

@[simp] theorem eval_call (op : Op) (k : Resp op → Prog Op Resp ε α) :
    (call op k).eval answer = (k (answer op)).eval answer := rfl

/-- Evaluation goes through a sequence. -/
@[simp] theorem eval_bind (p : Prog Op Resp ε α) (f : α → Prog Op Resp ε β) :
    (p.bind f).eval answer = (p.eval answer).bind fun a => (f a).eval answer := by
  induction p with
  | ret a => rfl
  | throw e => rfl
  | call op k ih => exact ih (answer op)

end Eval

/-! ## A world that moves on -/

/-- The outcome of a program whose `t`-th request is answered at moment `t`, and the moment it is
    done.  The requests of others fall between two moments. -/
def evalFrom (answer : Nat → (op : Op) → Resp op) : Nat → Prog Op Resp ε α → Except ε α × Nat
  | t, .ret a => (.ok a, t)
  | t, .throw e => (.error e, t)
  | t, .call op k => (k (answer t op)).evalFrom answer (t + 1)

/-- It goes on from the time the first part ended. -/
theorem evalFrom_bind {answer : Nat → (op : Op) → Resp op} {p : Prog Op Resp ε α} {t t' : Nat}
    {a : α} (h : p.evalFrom answer t = (.ok a, t')) (f : α → Prog Op Resp ε β) :
    (p.bind f).evalFrom answer t = (f a).evalFrom answer t' := by
  induction p generalizing t with
  | ret b =>
    cases h
    rfl
  | throw e => cases h
  | call op k ih => exact ih (answer t op) h

@[simp] theorem bind_eq (p : Prog Op Resp ε α) (f : α → Prog Op Resp ε β) :
    (p >>= f) = p.bind f := rfl

@[simp] theorem pure_eq (a : α) : (pure a : Prog Op Resp ε α) = .ret a := rfl

@[simp] theorem throw_eq (e : ε) : (MonadExcept.throw e : Prog Op Resp ε α) = .throw e := rfl

@[simp] theorem tryCatch_eq (p : Prog Op Resp ε α) (h : ε → Prog Op Resp ε α) :
    MonadExcept.tryCatch p h = p.tryCatch h := rfl

end Prog

end Async
