import Mathlib

/-! # Programs over shared state

    A program is a tree of operations: it performs one, goes on with its
    result, and in the end returns a value, panics, or hangs.  Nothing is said
    here about what the operations are; a client fixes a type `Op` of
    operations, a result type for each, and what each does to a state.

    The rules below are the ones a development needs: what running a sequence
    does (`run_bind`, `run_defer`), what follows from the operations a program
    may perform (`Uses`), and that related states stay related when every
    operation keeps them so (`run_related`). -/

namespace GoProgram

/-- How a call can fail to return. -/
inductive Abort where
  | panic
  | hang
deriving DecidableEq, Repr

/-- A program with operations `Op`, the result of `o` being a `Res o`. -/
inductive Prog (Op : Type) (Res : Op → Type) (α : Type) : Type where
  | ret (a : α)
  | op (o : Op) (next : Res o → Prog Op Res α)
  | stop (why : Abort)

namespace Prog

variable {Op : Type} {Res : Op → Type} {α β : Type}

/-- Go on with the value a program returns. -/
def bind : Prog Op Res α → (α → Prog Op Res β) → Prog Op Res β
  | .ret a, f => f a
  | .op o next, f => .op o fun r => (next r).bind f
  | .stop why, _ => .stop why

instance instMonad : Monad (Prog Op Res) where
  pure := .ret
  bind := bind

/-- `defer`: `cleanup` runs when the body returns and when it panics. -/
def defer : Prog Op Res α → Prog Op Res Unit → Prog Op Res α
  | .ret a, cleanup => cleanup.bind fun _ => .ret a
  | .op o next, cleanup => .op o fun r => (next r).defer cleanup
  | .stop .panic, cleanup => cleanup.bind fun _ => .stop .panic
  | .stop .hang, _ => .stop .hang

@[simp] theorem pure_eq (a : α) : (pure a : Prog Op Res α) = .ret a := rfl

@[simp] theorem ret_bind (a : α) (f : α → Prog Op Res β) : (Prog.ret a >>= f) = f a := rfl

@[simp] theorem op_bind (o : Op) (next : Res o → Prog Op Res α) (f : α → Prog Op Res β) :
    (Prog.op o next >>= f) = .op o fun r => next r >>= f := rfl

@[simp] theorem stop_bind (why : Abort) (f : α → Prog Op Res β) :
    (Prog.stop why >>= f) = .stop why := rfl

@[simp] theorem ite_bind (p : Prop) [Decidable p] (a b : Prog Op Res α) (f : α → Prog Op Res β) :
    ((if p then a else b) >>= f) = if p then a >>= f else b >>= f := by
  split <;> rfl

theorem bind_bind {γ : Type} (p : Prog Op Res α) (f : α → Prog Op Res β) (g : β → Prog Op Res γ) :
    (p >>= f) >>= g = p >>= fun a => f a >>= g := by
  induction p with
  | ret a => rfl
  | op o next ih => exact congrArg (Prog.op o) (funext fun r => ih r)
  | stop why => rfl

@[simp] theorem ret_defer (a : α) (cleanup : Prog Op Res Unit) :
    (Prog.ret a).defer cleanup = cleanup >>= fun _ => .ret a := rfl

@[simp] theorem op_defer (o : Op) (next : Res o → Prog Op Res α) (cleanup : Prog Op Res Unit) :
    (Prog.op o next).defer cleanup = .op o fun r => (next r).defer cleanup := rfl

@[simp] theorem panic_defer (cleanup : Prog Op Res Unit) :
    (Prog.stop .panic : Prog Op Res α).defer cleanup = cleanup >>= fun _ => .stop .panic := rfl

@[simp] theorem ite_defer (p : Prop) [Decidable p] (a b : Prog Op Res α)
    (cleanup : Prog Op Res Unit) :
    (if p then a else b).defer cleanup = if p then a.defer cleanup else b.defer cleanup := by
  split <;> rfl

/-! ## Running -/

section Run

variable {S : Type} (step : (o : Op) → S → Res o × S)

/-- A run from a state: the value or the failure, and the state reached. -/
def run : Prog Op Res α → S → Except Abort α × S
  | .ret a, s => (.ok a, s)
  | .op o next, s => (next (step o s).1).run (step o s).2
  | .stop why, s => (.error why, s)

@[simp] theorem run_ret (a : α) (s : S) : (ret a : Prog Op Res α).run step s = (.ok a, s) := rfl

@[simp] theorem run_op (o : Op) (next : Res o → Prog Op Res α) (s : S) :
    (op o next).run step s = (next (step o s).1).run step (step o s).2 := rfl

@[simp] theorem run_stop (why : Abort) (s : S) :
    (stop why : Prog Op Res α).run step s = (.error why, s) := rfl

/-- A sequence runs its first part, then the second with what it returned. -/
theorem run_bind (p : Prog Op Res α) (f : α → Prog Op Res β) (s : S) :
    (p >>= f).run step s =
      match p.run step s with
      | (.ok a, s') => (f a).run step s'
      | (.error why, s') => (.error why, s') := by
  induction p generalizing s with
  | ret a => rfl
  | op o next ih => exact ih (step o s).1 (step o s).2
  | stop why => rfl

/-- A deferred call runs after the body has returned or panicked. -/
theorem run_defer (p : Prog Op Res α) (cleanup : Prog Op Res Unit) (s : S) :
    (p.defer cleanup).run step s =
      match p.run step s with
      | (.ok a, s') => (cleanup >>= fun _ => .ret a).run step s'
      | (.error .panic, s') => (cleanup >>= fun _ => .stop .panic).run step s'
      | (.error .hang, s') => (.error .hang, s') := by
  induction p generalizing s with
  | ret a => rfl
  | op o next ih => exact ih (step o s).1 (step o s).2
  | stop why => cases why <;> rfl

/-- The operations of a run and their results, in order. -/
def trace : Prog Op Res α → S → List (Sigma Res)
  | .ret _, _ => []
  | .op o next, s => ⟨o, (step o s).1⟩ :: (next (step o s).1).trace (step o s).2
  | .stop _, _ => []

end Run

/-! ## The operations a program may perform -/

/-- Every operation the program can come to perform is allowed. -/
def Uses (P : Op → Prop) : Prog Op Res α → Prop
  | .ret _ => True
  | .op o next => P o ∧ ∀ r, (next r).Uses P
  | .stop _ => True

/-- When every operation is allowed, so is every program. -/
theorem uses_of_forall {P : Op → Prop} (h : ∀ o, P o) (p : Prog Op Res α) : p.Uses P := by
  induction p with
  | ret a => trivial
  | op o next ih => exact ⟨h o, ih⟩
  | stop why => trivial

theorem Uses.bind {P : Op → Prop} {p : Prog Op Res α} {f : α → Prog Op Res β} (hp : p.Uses P)
    (hf : ∀ a, (f a).Uses P) : (p >>= f).Uses P := by
  induction p with
  | ret a => exact hf a
  | op o next ih => exact ⟨hp.1, fun r => ih r (hp.2 r)⟩
  | stop why => trivial

/-- **The frame rule**: a reflexive and transitive relation that every allowed
    operation respects holds between the ends of a run. -/
theorem Uses.run {S : Type} {step : (o : Op) → S → Res o × S} {P : Op → Prop} {R : S → S → Prop}
    (hrefl : ∀ s, R s s) (htrans : ∀ s t u, R s t → R t u → R s u)
    (hstep : ∀ o s, P o → R s (step o s).2) {p : Prog Op Res α} (hp : p.Uses P) (s : S) :
    R s (p.run step s).2 := by
  induction p generalizing s with
  | ret a => exact hrefl s
  | op o next ih => exact htrans _ _ _ (hstep o s hp.1) (ih _ (hp.2 _) _)
  | stop why => exact hrefl s

/-- **The two-run rule**: if every allowed operation gives equal results in
    related states and leaves them related, so does the whole program. -/
theorem Uses.run_related {S T : Type} {step : (o : Op) → S → Res o × S}
    {step' : (o : Op) → T → Res o × T} {P : Op → Prop} {R : S → T → Prop}
    (hstep : ∀ o s t, P o → R s t → (step o s).1 = (step' o t).1 ∧ R (step o s).2 (step' o t).2)
    {p : Prog Op Res α} (hp : p.Uses P) {s : S} {t : T} (h : R s t) :
    (p.run step s).1 = (p.run step' t).1 ∧ R (p.run step s).2 (p.run step' t).2 := by
  induction p generalizing s t with
  | ret a => exact ⟨rfl, h⟩
  | op o next ih =>
    obtain ⟨hres, hrel⟩ := hstep o s t hp.1 h
    have := ih (step o s).1 (hp.2 _) hrel
    rw [run_op, run_op, ← hres]
    exact this
  | stop why => exact ⟨rfl, h⟩

end Prog

end GoProgram
