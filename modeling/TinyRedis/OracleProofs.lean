import TinyRedis.ProgramProofs

/-! # Programs that take choices from outside

    Some operations leave their result open: a random number, the order of an
    iteration.  Here an operation is given a choice `a : A` and may use it.  A run
    under an oracle `ω : Nat → A` gives the choices out in order, by a counter that
    is part of the state; `CanRun` instead says that some choices lead to a result,
    one operation at a time.

    The two agree (`CanRun.exists_oracle`): choices made one by one, while
    something else is going on, are those of one oracle given in advance. -/

namespace GoProgram

namespace Prog

variable {Op : Type} {Res : Op → Type} {S A α : Type}

/-- The choices that operations take, and the counter of those taken. -/
structure Choosing (step : A → (o : Op) → S → Res o × S) (draws : Op → Bool) (pos : S → Nat) :
    Prop where
  count : ∀ a o s, pos (step a o s).2 = if draws o then pos s + 1 else pos s
  ignores : ∀ a b o s, draws o = false → step a o s = step b o s

/-- An operation under an oracle. -/
def oracleStep (step : A → (o : Op) → S → Res o × S) (pos : S → Nat) (ω : Nat → A) (o : Op)
    (s : S) : Res o × S := step (ω (pos s)) o s

variable (step : A → (o : Op) → S → Res o × S)

/-- Some choices bring the program to this end. -/
inductive CanRun : Prog Op Res α → S → Except Abort α → S → Prop where
  | ret (a : α) (s : S) : CanRun (.ret a) s (.ok a) s
  | stop (why : Abort) (s : S) : CanRun (.stop why) s (.error why) s
  | op {o : Op} {next : Res o → Prog Op Res α} {s s' : S} {e : Except Abort α} (a : A)
      (h : CanRun (next (step a o s).1) (step a o s).2 e s') : CanRun (.op o next) s e s'

variable {step}

variable {draws : Op → Bool} {pos : S → Nat}

/-- The counter never goes back. -/
theorem Choosing.le (hc : Choosing step draws pos) (a : A) (o : Op) (s : S) :
    pos s ≤ pos (step a o s).2 := by
  rw [hc.count]
  split
  · exact Nat.le_succ _
  · exact le_rfl

theorem Choosing.run_le (hc : Choosing step draws pos) (ω : Nat → A) (p : Prog Op Res α) (s : S) :
    pos s ≤ pos (p.run (oracleStep step pos ω) s).2 :=
  Uses.run (R := fun s t => pos s ≤ pos t) (fun _ => le_rfl) (fun _ _ _ => le_trans)
    (fun o s _ => hc.le (ω (pos s)) o s) (uses_of_forall (fun _ => trivial) p) s

/-- A run depends only on the choices it takes. -/
theorem Choosing.run_congr (hc : Choosing step draws pos) {ω ω' : Nat → A} {p : Prog Op Res α}
    {s : S} (h : ∀ n, pos s ≤ n → n < pos (p.run (oracleStep step pos ω) s).2 → ω n = ω' n) :
    p.run (oracleStep step pos ω) s = p.run (oracleStep step pos ω') s := by
  induction p generalizing s with
  | ret a => rfl
  | stop why => rfl
  | op o next ih =>
    have hstep : oracleStep step pos ω o s = oracleStep step pos ω' o s := by
      cases hd : draws o with
      | false => exact hc.ignores _ _ o s hd
      | true =>
        have hlt : pos s < pos (oracleStep step pos ω o s).2 := by
          rw [oracleStep, hc.count, if_pos hd]
          exact Nat.lt_succ_self _
        have heq : ω (pos s) = ω' (pos s) :=
          h (pos s) le_rfl (lt_of_lt_of_le hlt (hc.run_le ω _ _))
        rw [oracleStep, oracleStep, heq]
    rw [run_op, run_op, ← hstep]
    refine ih _ fun n hn hlt => h n (le_trans (hc.le _ o s) hn) hlt

/-- **Choices made one by one are those of an oracle**, which below the counter
    is any oracle that was given. -/
theorem CanRun.exists_oracle (hc : Choosing step draws pos) {p : Prog Op Res α} {s s' : S}
    {e : Except Abort α} (h : CanRun step p s e s') (ω₀ : Nat → A) :
    ∃ ω, (∀ n < pos s, ω n = ω₀ n) ∧ p.run (oracleStep step pos ω) s = (e, s') := by
  induction h generalizing ω₀ with
  | ret a s => exact ⟨ω₀, fun _ _ => rfl, rfl⟩
  | stop why s => exact ⟨ω₀, fun _ _ => rfl, rfl⟩
  | @op o next s s' e a h ih =>
    -- the choice of this operation is put in place before the rest are found
    obtain ⟨ω, hbelow, hrun⟩ := ih (Function.update ω₀ (pos s) a)
    have hstep : oracleStep step pos ω o s = step a o s := by
      cases hd : draws o with
      | false => exact hc.ignores _ _ o s hd
      | true =>
        have hlt : pos s < pos (step a o s).2 := by
          rw [hc.count, if_pos hd]
          exact Nat.lt_succ_self _
        rw [oracleStep, hbelow _ hlt, Function.update_self]
    refine ⟨ω, fun n hn => ?_, ?_⟩
    · rw [hbelow n (lt_of_lt_of_le hn (hc.le a o s)), Function.update_of_ne (Nat.ne_of_lt hn)]
    · rw [run_op, hstep]
      exact hrun

end Prog

end GoProgram
