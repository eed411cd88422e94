import TinyRedis.ProgramProofs

/-! # Programs that keep a protocol

    A protocol is an automaton over operations: it says in which of its states
    an operation may be performed, which state follows, and what the performer
    may rely on about the result.  `Follows D E q p` says that `p`, started in
    protocol state `q`, performs only operations the protocol allows, and that
    every way it can end satisfies `E`.  It is computed from the program alone,
    like a weakest precondition, so it holds of every run at once.

    What makes it useful is `Follows.run`: if the protocol states describe the
    real states, by an invariant that every allowed operation keeps, then a run
    from a state so described ends in one so described, with `E`. -/

namespace GoProgram

/-- An automaton over operations, with what may be relied on of their results. -/
structure Protocol (Op : Type) (Res : Op → Type) (State : Type) where
  next : State → Op → Option State
  rely : State → (o : Op) → Res o → Prop

namespace Prog

variable {Op : Type} {Res : Op → Type} {State α β : Type}

/-- `p` keeps to the protocol from `q` on, and ends as `E` says. -/
def Follows (D : Protocol Op Res State) (E : State → Except Abort α → Prop) :
    State → Prog Op Res α → Prop
  | q, .ret a => E q (.ok a)
  | q, .op o next => ∃ q', D.next q o = some q' ∧ ∀ r, D.rely q o r → Follows D E q' (next r)
  | q, .stop why => E q (.error why)

variable {D : Protocol Op Res State} {E E' : State → Except Abort α → Prop} {q : State}

@[simp] theorem follows_ret (a : α) :
    Follows D E q (.ret a : Prog Op Res α) ↔ E q (.ok a) := Iff.rfl

@[simp] theorem follows_op (o : Op) (next : Res o → Prog Op Res α) :
    Follows D E q (.op o next) ↔
      ∃ q', D.next q o = some q' ∧ ∀ r, D.rely q o r → Follows D E q' (next r) := Iff.rfl

@[simp] theorem follows_stop (why : Abort) :
    Follows D E q (.stop why : Prog Op Res α) ↔ E q (.error why) := Iff.rfl

@[simp] theorem follows_ite (p : Prop) [Decidable p] (a b : Prog Op Res α) :
    Follows D E q (if p then a else b) ↔ (p → Follows D E q a) ∧ (¬ p → Follows D E q b) := by
  by_cases hp : p
  · simp [hp]
  · simp [hp]

/-- A weaker ending. -/
theorem Follows.mono {p : Prog Op Res α} (h : Follows D E q p) (hE : ∀ q e, E q e → E' q e) :
    Follows D E' q p := by
  induction p generalizing q with
  | ret a => exact hE _ _ h
  | op o next ih =>
    obtain ⟨q', hq, hnext⟩ := h
    exact ⟨q', hq, fun r hr => ih r (hnext r hr)⟩
  | stop why => exact hE _ _ h

/-- How the first part of a sequence has to end for the whole to end in `E`. -/
def Then (D : Protocol Op Res State) (E : State → Except Abort β → Prop) (f : α → Prog Op Res β)
    (q : State) : Except Abort α → Prop
  | .ok a => Follows D E q (f a)
  | .error why => E q (.error why)

@[simp] theorem then_ok {E : State → Except Abort β → Prop} (f : α → Prog Op Res β) (a : α) :
    Then D E f q (.ok a) ↔ Follows D E q (f a) := Iff.rfl

@[simp] theorem then_error {E : State → Except Abort β → Prop} (f : α → Prog Op Res β)
    (why : Abort) : Then D E f q (.error why) ↔ E q (.error why) := Iff.rfl

/-- **Sequences.** -/
@[simp] theorem follows_bind {E : State → Except Abort β → Prop} (p : Prog Op Res α)
    (f : α → Prog Op Res β) :
    Follows D E q (p >>= f) ↔ Follows D (Then D E f) q p := by
  induction p generalizing q with
  | ret a => exact Iff.rfl
  | op o next ih =>
    constructor
    · rintro ⟨q', hq, hnext⟩
      exact ⟨q', hq, fun r hr => (ih r).mp (hnext r hr)⟩
    · rintro ⟨q', hq, hnext⟩
      exact ⟨q', hq, fun r hr => (ih r).mpr (hnext r hr)⟩
  | stop why => exact Iff.rfl

/-- How a body has to end for it and the deferred `cleanup` to end in `E`. -/
def Deferred (D : Protocol Op Res State) (E : State → Except Abort α → Prop)
    (cleanup : Prog Op Res Unit) (q : State) : Except Abort α → Prop
  | .ok a => Follows D (Then D E fun _ => .ret a) q cleanup
  | .error .panic => Follows D (Then D E fun _ => .stop .panic) q cleanup
  | .error .hang => E q (.error .hang)

@[simp] theorem deferred_ok (cleanup : Prog Op Res Unit) (a : α) :
    Deferred D E cleanup q (.ok a) ↔ Follows D (Then D E fun _ => .ret a) q cleanup := Iff.rfl

@[simp] theorem deferred_panic (cleanup : Prog Op Res Unit) :
    Deferred D E cleanup q (.error .panic) ↔
      Follows D (Then D E fun _ => .stop .panic) q cleanup := Iff.rfl

@[simp] theorem deferred_hang (cleanup : Prog Op Res Unit) :
    Deferred D E cleanup q (.error .hang) ↔ E q (.error .hang) := Iff.rfl

/-- **Deferred calls.** -/
@[simp] theorem follows_defer (p : Prog Op Res α) (cleanup : Prog Op Res Unit) :
    Follows D E q (p.defer cleanup) ↔ Follows D (Deferred D E cleanup) q p := by
  induction p generalizing q with
  | ret a => exact follows_bind cleanup _
  | op o next ih =>
    constructor
    · rintro ⟨q', hq, hnext⟩
      exact ⟨q', hq, fun r hr => (ih r).mp (hnext r hr)⟩
    · rintro ⟨q', hq, hnext⟩
      exact ⟨q', hq, fun r hr => (ih r).mpr (hnext r hr)⟩
  | stop why =>
    cases why with
    | panic => exact follows_bind cleanup _
    | hang => exact Iff.rfl

/-- A contract, as a protocol without states: an operation is allowed when `G`
    holds of it, and `R` may be relied on of its result. -/
noncomputable def contract (G : Op → Prop) (R : (o : Op) → Res o → Prop) :
    Protocol Op Res Unit where
  next _ o := open Classical in if G o then some () else none
  rely _ := R

@[simp] theorem contract_next {G : Op → Prop} {R : (o : Op) → Res o → Prop} {u v : Unit} {o : Op} :
    (contract G R).next u o = some v ↔ G o := by
  simp [contract]

@[simp] theorem contract_rely {G : Op → Prop} {R : (o : Op) → Res o → Prop} {u : Unit} {o : Op}
    {r : Res o} : (contract G R).rely u o r ↔ R o r := Iff.rfl

/-- One operation under a contract. -/
@[simp high] theorem follows_contract_op {G : Op → Prop} {R : (o : Op) → Res o → Prop}
    {E : Unit → Except Abort α → Prop} {u : Unit} (o : Op) (next : Res o → Prog Op Res α) :
    Follows (contract G R) E u (.op o next) ↔
      G o ∧ ∀ r, R o r → Follows (contract G R) E () (next r) := by
  constructor
  · rintro ⟨v, hv, hnext⟩
    exact ⟨contract_next.mp hv, hnext⟩
  · rintro ⟨ho, hnext⟩
    exact ⟨(), contract_next.mpr ho, hnext⟩

/-- **Soundness.** If every operation the protocol allows keeps the invariant,
    and gives results that may be relied on, a run that starts in a described
    state ends in one, and the ending is as promised. -/
theorem Follows.run {S : Type} {step : (o : Op) → S → Res o × S} {I : State → S → Prop}
    (hstep : ∀ q o q' s, I q s → D.next q o = some q' →
      D.rely q o (step o s).1 ∧ I q' (step o s).2) {p : Prog Op Res α} (h : Follows D E q p) {s : S}
    (hI : I q s) :
    ∃ q', I q' (p.run step s).2 ∧ E q' (p.run step s).1 := by
  induction p generalizing q s with
  | ret a => exact ⟨q, hI, h⟩
  | op o next ih =>
    obtain ⟨q', hq, hnext⟩ := h
    obtain ⟨hrely, hI'⟩ := hstep q o q' s hI hq
    exact ih _ (hnext _ hrely) hI'
  | stop why => exact ⟨q, hI, h⟩

/-- **Soundness for traces.** If every operation the protocol allows, with any
    result, keeps an invariant of the operations so far, then so does a run. -/
theorem Follows.trace {S : Type} {step : (o : Op) → S → Res o × S}
    {J : State → List (Sigma Res) → Prop} (hrely : ∀ q o r, D.rely q o r)
    (hstep : ∀ q o q' r log, J q log → D.next q o = some q' → J q' (log ++ [⟨o, r⟩]))
    {p : Prog Op Res α} (h : Follows D E q p) {log : List (Sigma Res)} (hJ : J q log) (s : S) :
    ∃ q', J q' (log ++ p.trace step s) ∧ E q' (p.run step s).1 := by
  induction p generalizing q s log with
  | ret a => exact ⟨q, by simpa [Prog.trace] using hJ, h⟩
  | op o next ih =>
    obtain ⟨q', hq, hnext⟩ := h
    have hJ' := hstep q o q' (step o s).1 log hJ hq
    have hrest := ih (step o s).1 (hnext _ (hrely q o _)) hJ' (step o s).2
    simpa [Prog.trace] using hrest
  | stop why => exact ⟨q, by simpa [Prog.trace] using hJ, h⟩

/-- A machine as a protocol: every operation is allowed, and does what it does. -/
@[simps] def machine {S : Type} (step : (o : Op) → S → Res o × S) : Protocol Op Res S where
  next s o := some (step o s).2
  rely s o r := r = (step o s).1

/-- What holds at the end of a run can be computed along the program. -/
theorem follows_machine {S : Type} {step : (o : Op) → S → Res o × S} {E : S → Except Abort α → Prop}
    {s : S} (p : Prog Op Res α) :
    Follows (machine step) E s p ↔ E (p.run step s).2 (p.run step s).1 := by
  induction p generalizing s with
  | ret a => exact Iff.rfl
  | op o next ih =>
    rw [run_op, ← ih]
    simp
  | stop why => exact Iff.rfl

end Prog

end GoProgram
