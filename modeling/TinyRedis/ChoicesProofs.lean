import TinyRedis.OracleProofs
import TinyRedis.DeadlineProofs

/-! # The choices of a run

    A run takes from outside the clock, and the choices that Go leaves open: the
    order of a map iteration, random numbers, skip-list levels.  An environment
    fixes all choices in advance.  A statement about what some other machine does
    is easier to make one command at a time, with the choices of each as they come;
    `CanServe.exists_choices` then gives the environment for the whole run. -/

namespace TinyDb

open GoString GoFloat GoProgram GoProgram.Prog TinyResp TinyZSet

variable {F : Type} {host : Host} {env : Env} {w : World F}

/-! ## Choices -/

/-- What one operation can ask for. -/
structure Choice where
  order : List Bytes → List Bytes
  order_perm : ∀ l, (order l).Perm l
  intn : Nat → Nat
  intn_lt : ∀ n, 0 < n → intn n < n
  level : Nat
  level_range : 1 ≤ level ∧ level ≤ maxLevel

/-- The choices of an environment. -/
def Env.choice (env : Env) (t : Nat) : Choice where
  order := env.order t
  order_perm := env.order_perm t
  intn := env.intn t
  intn_lt := env.intn_lt t
  level := env.level t
  level_range := env.level_range t

/-- The same clock, with other choices. -/
def Env.withChoices (env : Env) (ω : Nat → Choice) : Env where
  clock := env.clock
  order t := (ω t).order
  order_perm t := (ω t).order_perm
  intn t := (ω t).intn
  intn_lt t := (ω t).intn_lt
  level t := (ω t).level
  level_range t := (ω t).level_range

@[simp] theorem Env.withChoices_choice (env : Env) : env.withChoices env.choice = env := rfl

/-- One operation with a choice. -/
def Op.stepWith {c : Caps} (env : Env) (a : Choice) (o : Op F c) (w : World F) : o.Res × World F :=
  o.step (env.withChoices fun _ => a) w

theorem oracleStep_eq {c : Caps} (env : Env) (ω : Nat → Choice) :
    oracleStep (Op.stepWith env) World.draws ω =
      (Op.step (env.withChoices ω) : (o : Op F c) → World F → o.Res × World F) := by
  funext o w
  cases o <;> rfl

/-- The operations take choices as `World.draws` counts them. -/
theorem op_choosing {c : Caps} (env : Env) :
    Choosing (Op.stepWith env : Choice → (o : Op F c) → World F → o.Res × World F) Op.draws
      World.draws where
  count _ _ _ := rfl
  ignores a b o w h := by
    cases o with
    | keys => cases h
    | order => cases h
    | intn => cases h
    | level => cases h
    | _ => rfl

/-! ## One command -/

section Commands

variable [UnicodeTables] [FloatText F]

/-- What `ExecCommand` runs. -/
def commandProg (host : Host) (cmd : Command) : (c : Caps) × Cmd F c Reply :=
  if cmd = [] then ⟨reads, .ret none⟩
  else
    match (lookupCmd host (toLower (cmdName cmd)) : Option (Executor F)) with
    | none => ⟨reads, .ret (errReply "error: unsupported command")⟩
    | some command => ⟨command.caps, command.body cmd⟩

/-- The program of a command: an immediate reply, or a registered executor. -/
theorem commandProg_cases (host : Host) (cmd : Command) :
    (∃ reply, (commandProg host cmd : (c : Caps) × Cmd F c Reply) = ⟨reads, .ret reply⟩ ∧
        ∀ env (w : World F), execCommand host env cmd w = (.ok reply, w)) ∨
      ∃ name command, (name, command) ∈ (cmdTable host : List (String × Executor F)) ∧
        toLower (cmdName cmd) = ascii name ∧
        commandProg host cmd = ⟨command.caps, command.body cmd⟩ ∧
        ∀ env w, execCommand host env cmd w = (command.body cmd).run (Op.step env) w := by
  unfold execCommand commandProg
  by_cases hne : cmd = []
  · exact .inl ⟨none, by rw [if_pos hne], fun env w => by rw [if_pos hne]⟩
  · simp only [if_neg hne]
    cases hlook : (lookupCmd host (toLower (cmdName cmd)) : Option (Executor F)) with
    | none => exact .inl ⟨_, rfl, fun _ _ => rfl⟩
    | some command =>
      obtain ⟨name, hmem, hname⟩ := lookupCmd_mem hlook
      exact .inr ⟨name, command, hmem, hname.symm, rfl, fun _ _ => rfl⟩

theorem execCommand_eq_run (host : Host) (env : Env) (cmd : Command) (w : World F) :
    execCommand host env cmd w = (commandProg host cmd).2.run (Op.step env) w := by
  rcases commandProg_cases (F := F) host cmd with ⟨reply, hprog, hexec⟩ |
    ⟨-, command, -, -, hprog, hexec⟩
  · rw [hprog, hexec]
    rfl
  · rw [hprog, hexec]

theorem execCommand_draws (host : Host) (env : Env) (cmd : Command) (w : World F) :
    w.draws ≤ (execCommand host env cmd w).2.draws := by
  have h := (op_choosing env).run_le env.choice (commandProg host cmd).2 w
  rwa [oracleStep_eq, Env.withChoices_choice, ← execCommand_eq_run] at h

/-- A command depends only on the choices it takes. -/
theorem execCommand_choices {cmd : Command} {ω ω' : Nat → Choice}
    (h : ∀ n, w.draws ≤ n →
      n < (execCommand host (env.withChoices ω) cmd w).2.draws → ω n = ω' n) :
    execCommand host (env.withChoices ω) cmd w = execCommand host (env.withChoices ω') cmd w := by
  simp only [execCommand_eq_run, ← oracleStep_eq] at h ⊢
  exact (op_choosing env).run_congr h

/-- Some choices make the command end so. -/
def CanExec (host : Host) (env : Env) (cmd : Command) (w : World F) (e : Except Abort Reply)
    (w' : World F) : Prop :=
  ∃ ω, execCommand host (env.withChoices ω) cmd w = (e, w')

/-- What an executor can do, the command can. -/
theorem canExec_of_canRun {cmd : Command} {w w' : World F} {e : Except Abort Reply}
    {command : Executor F} (hne : cmd ≠ [])
    (hlook : lookupCmd host (toLower (cmdName cmd)) = some command)
    (h : CanRun (Op.stepWith env) (command.body cmd) w e w') : CanExec host env cmd w e w' := by
  have hprog : commandProg host cmd = ⟨command.caps, command.body cmd⟩ := by
    rw [commandProg, if_neg hne, hlook]
  obtain ⟨ω, -, hrun⟩ := h.exists_oracle (op_choosing env) env.choice
  rw [oracleStep_eq] at hrun
  refine ⟨ω, ?_⟩
  rw [execCommand_eq_run, hprog]
  exact hrun

/-! ## Many commands -/

/-- The replies of a run of events, and the world after it. -/
def serve (host : Host) (env : Env) : List Event → World F → List (Except Abort Reply) × World F
  | [], w => ([], w)
  | .command cmd :: events, w =>
    let r := execCommand host env cmd w
    let rest := serve host env events r.2
    (r.1 :: rest.1, rest.2)
  | .cleanup :: events, w => serve host env events (Event.apply host env w .cleanup)

theorem serve_world (host : Host) (env : Env) (events : List Event) (w : World F) :
    (serve host env events w).2 = runEvents host env events w := by
  induction events generalizing w with
  | nil => rfl
  | cons event events ih =>
    cases event with
    | command cmd => exact ih _
    | cleanup => exact ih _

/-- A run depends only on the choices that are still to be taken. -/
theorem serve_choices {ω ω' : Nat → Choice} (events : List Event) {w : World F}
    (h : ∀ n, w.draws ≤ n → ω n = ω' n) :
    serve host (env.withChoices ω) events w = serve host (env.withChoices ω') events w := by
  induction events generalizing w with
  | nil => rfl
  | cons event events ih =>
    cases event with
    | command cmd =>
      have hexec : execCommand host (env.withChoices ω) cmd w =
          execCommand host (env.withChoices ω') cmd w :=
        execCommand_choices fun n hn _ => h n hn
      have hrest := ih (w := (execCommand host (env.withChoices ω) cmd w).2) fun n hn =>
        h n (le_trans (execCommand_draws host _ cmd w) hn)
      simp only [serve]
      rw [hrest, hexec]
    | cleanup => exact ih h

/-- Some choices, made command by command, make a run of events end so. -/
inductive CanServe (host : Host) (env : Env) :
    List Event → World F → List (Except Abort Reply) → World F → Prop where
  | nil (w : World F) : CanServe host env [] w [] w
  | command {cmd : Command} {events : List Event} {w w' w'' : World F} {e : Except Abort Reply}
      {replies : List (Except Abort Reply)} (h : CanExec host env cmd w e w')
      (hrest : CanServe host env events w' replies w'') :
      CanServe host env (.command cmd :: events) w (e :: replies) w''
  | cleanup {events : List Event} {w w' : World F} {replies : List (Except Abort Reply)}
      (hrest : CanServe host env events (Event.apply host env w .cleanup) replies w') :
      CanServe host env (.cleanup :: events) w replies w'

/-- **Choices made command by command** are those of one environment. -/
theorem CanServe.exists_choices {events : List Event} {w w' : World F}
    {replies : List (Except Abort Reply)} (h : CanServe host env events w replies w') :
    ∃ ω, serve host (env.withChoices ω) events w = (replies, w') := by
  induction h with
  | nil w => exact ⟨env.choice, rfl⟩
  | @command cmd events w w' w'' e replies h _ ih =>
    obtain ⟨ω₁, hexec⟩ := h
    obtain ⟨ω₂, hserve⟩ := ih
    -- the first command takes its choices below `w'.draws`, the others above
    let ω : Nat → Choice := fun n => if n < w'.draws then ω₁ n else ω₂ n
    have hfirst : execCommand host (env.withChoices ω) cmd w = (e, w') := by
      rw [← hexec]
      refine (execCommand_choices fun n _ hn => ?_).symm
      rw [hexec] at hn
      exact (if_pos hn).symm
    have hrest : serve host (env.withChoices ω) events w' = (replies, w'') := by
      rw [← hserve]
      exact serve_choices events fun n hn => if_neg (Nat.not_lt.mpr hn)
    refine ⟨ω, ?_⟩
    simp only [serve]
    rw [hfirst, hrest]
  | cleanup _ ih => exact ih

end Commands

end TinyDb
