import TinyRedis.ProgramProofs

/-! # Two runs side by side

    Two programs are run by two machines, on states that a relation `R` holds
    between.  They are related by `Q` if they end in the same way with values that
    `Q` relates, and leave states that `R` still relates.  The rules follow the
    shape of the programs.

    The operations of the two runs need not return the same, nor be the same: what
    is asked of their results is chosen where they are used (`related_op`). -/

namespace GoProgram

namespace Prog

variable {Op : Type} {Res : Op → Type} {S T α α' β β' : Type}

/-- Both have ended in the same way, with related values. -/
def SameEnd (Q : α → α' → Prop) : Except Abort α → Except Abort α' → Prop
  | .ok a, .ok b => Q a b
  | .error why, .error why' => why = why'
  | _, _ => False

theorem sameEnd_eq {e e' : Except Abort α} (h : SameEnd Eq e e') : e = e' := by
  cases e with
  | ok a =>
    cases e' with
    | ok b => exact congrArg Except.ok h
    | error why => exact absurd h id
  | error why =>
    cases e' with
    | ok b => exact absurd h id
    | error why' => exact congrArg Except.error h

variable (step : (o : Op) → S → Res o × S) (step' : (o : Op) → T → Res o × T) (R : S → T → Prop)

/-- From related states the two programs end with related values and states. -/
def Related (Q : α → α' → Prop) (p : Prog Op Res α) (q : Prog Op Res α') : Prop :=
  ∀ s t, R s t → SameEnd Q (p.run step s).1 (q.run step' t).1 ∧ R (p.run step s).2 (q.run step' t).2

variable {step step' R} {Q : α → α' → Prop}

theorem related_ret {a : α} {b : α'} (h : Q a b) :
    Related step step' R Q (.ret a : Prog Op Res α) (.ret b) :=
  fun _ _ hR => ⟨h, hR⟩

theorem related_stop (why : Abort) :
    Related step step' R Q (.stop why : Prog Op Res α) (.stop why) :=
  fun _ _ hR => ⟨rfl, hR⟩

/-- One operation in each run. -/
theorem related_op {o o' : Op} {next : Res o → Prog Op Res α} {next' : Res o' → Prog Op Res α'}
    (K : Res o → Res o' → Prop)
    (hstep : ∀ s t, R s t → K (step o s).1 (step' o' t).1 ∧ R (step o s).2 (step' o' t).2)
    (hnext : ∀ r r', K r r' → Related step step' R Q (next r) (next' r')) :
    Related step step' R Q (.op o next) (.op o' next') := by
  intro s t hR
  obtain ⟨hK, hR⟩ := hstep s t hR
  rw [run_op, run_op]
  exact hnext _ _ hK _ _ hR

/-- One part after another. -/
theorem Related.bind {p : Prog Op Res β} {p' : Prog Op Res β'} {f : β → Prog Op Res α}
    {f' : β' → Prog Op Res α'} {K : β → β' → Prop} (h : Related step step' R K p p')
    (hf : ∀ b b', K b b' → Related step step' R Q (f b) (f' b')) :
    Related step step' R Q (p >>= f) (p' >>= f') := by
  intro s t hR
  obtain ⟨hend, hR⟩ := h s t hR
  rw [run_bind, run_bind]
  rcases hp : p.run step s with ⟨e, s₁⟩
  rcases hp' : p'.run step' t with ⟨e', t₁⟩
  rw [hp, hp'] at hend hR
  cases e with
  | ok b =>
    cases e' with
    | ok b' => exact hf b b' hend s₁ t₁ hR
    | error why => exact absurd hend id
  | error why =>
    cases e' with
    | ok b' => exact absurd hend id
    | error why' => exact ⟨hend, hR⟩

/-- Bodies with deferred calls. -/
theorem Related.defer {p : Prog Op Res α} {p' : Prog Op Res α'}
    {cleanup cleanup' : Prog Op Res Unit} (h : Related step step' R Q p p')
    (hcleanup : Related step step' R Eq cleanup cleanup') :
    Related step step' R Q (p.defer cleanup) (p'.defer cleanup') := by
  intro s t hR
  obtain ⟨hend, hR⟩ := h s t hR
  rw [run_defer, run_defer]
  rcases hp : p.run step s with ⟨e, s₁⟩
  rcases hp' : p'.run step' t with ⟨e', t₁⟩
  rw [hp, hp'] at hend hR
  cases e with
  | ok a =>
    cases e' with
    | ok a' =>
      have hQ : Q a a' := hend
      exact hcleanup.bind (fun _ _ _ => related_ret hQ) s₁ t₁ hR
    | error why => exact absurd hend id
  | error why =>
    cases e' with
    | ok a' => exact absurd hend id
    | error why' =>
      obtain rfl : why = why' := hend
      cases why with
      | panic => exact hcleanup.bind (fun _ _ _ => related_stop .panic) s₁ t₁ hR
      | hang => exact ⟨rfl, hR⟩

/-- One program, whose operations do the same in both runs. -/
theorem related_of_uses {P : Op → Prop} {p : Prog Op Res α}
    (hstep : ∀ o s t, P o → R s t → (step o s).1 = (step' o t).1 ∧ R (step o s).2 (step' o t).2)
    (hp : p.Uses P) : Related step step' R Eq p p := by
  intro s t hR
  obtain ⟨hend, hR⟩ := hp.run_related hstep hR
  refine ⟨?_, hR⟩
  rw [hend]
  cases (p.run step' t).1 <;> rfl

end Prog

end GoProgram
