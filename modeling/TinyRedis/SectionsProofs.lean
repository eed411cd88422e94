import TinyRedis.ProgramProofs

/-! # Interleaving programs by critical sections

    Several clients run over one state.  A client's turn is one section of its
    program: a single operation, or everything from taking locks to giving them
    back.  What a client does between two turns of its own is up to the others,
    so an interleaving is a list that says whose turn it is.

    Nothing is said here about what the operations are; a client of this file
    says which of them take locks and which give them back. -/

namespace GoProgram

/-- What an operation does to the locks. -/
inductive LockUse where
  | take
  | giveBack
  | none
deriving DecidableEq, Repr

namespace Prog

variable {Op : Type} {Res : Op → Type} {S α β : Type}

/-- One turn, `held` saying whether it is inside a section: what is left of the
    program, and the state. -/
def turn (step : (o : Op) → S → Res o × S) (use : Op → LockUse) (held : Bool) :
    Prog Op Res α → S → Prog Op Res α × S
  | .ret a, s => (.ret a, s)
  | .stop why, s => (.stop why, s)
  | .op o next, s =>
    match use o with
    | .take => turn step use true (next (step o s).1) (step o s).2
    | .giveBack => (next (step o s).1, (step o s).2)
    | .none =>
      if held then turn step use true (next (step o s).1) (step o s).2
      else (next (step o s).1, (step o s).2)

section Turn

variable {step : (o : Op) → S → Res o × S} {use : Op → LockUse} {held : Bool} {o : Op}
  {next : Res o → Prog Op Res α} {s : S}

@[simp] theorem turn_ret (a : α) :
    turn step use held (.ret a : Prog Op Res α) s = (.ret a, s) := rfl

@[simp] theorem turn_stop (why : Abort) :
    turn step use held (.stop why : Prog Op Res α) s = (.stop why, s) := rfl

theorem turn_take (h : use o = .take) :
    turn step use held (.op o next) s =
      turn step use true (next (step o s).1) (step o s).2 := by
  rw [turn, h]

theorem turn_giveBack (h : use o = .giveBack) :
    turn step use held (.op o next) s = (next (step o s).1, (step o s).2) := by
  rw [turn, h]

theorem turn_inside (h : use o = .none) :
    turn step use true (.op o next) s =
      turn step use true (next (step o s).1) (step o s).2 := by
  rw [turn, h]
  rfl

theorem turn_outside (h : use o = .none) :
    turn step use false (.op o next) s = (next (step o s).1, (step o s).2) := by
  rw [turn, h]
  rfl

/-- A body that leaves the locks alone, and the deferred call that gives them
    back, are one section. -/
theorem turn_defer {u : Op} (hu : use u = .giveBack) {p : Prog Op Res α}
    (hp : p.Uses fun o => use o = .none) (s : S) :
    turn step use true (p.defer (.op u fun _ => .ret ())) s =
      match p.run step s with
      | (.ok a, s') => (.ret a, (step u s').2)
      | (.error .panic, s') => (.stop .panic, (step u s').2)
      | (.error .hang, s') => (.stop .hang, s') := by
  induction p generalizing s with
  | ret a => exact turn_giveBack hu
  | op o next ih =>
    rw [op_defer, turn_inside hp.1]
    exact ih _ (hp.2 _) _
  | stop why =>
    cases why with
    | panic => exact turn_giveBack hu
    | hang => rfl

/-- A turn is the first part of a run. -/
theorem run_turn (p : Prog Op Res α) (held : Bool) (s : S) :
    (turn step use held p s).1.run step (turn step use held p s).2 = p.run step s := by
  induction p generalizing held s with
  | ret a => rfl
  | op o next ih =>
    cases huse : use o with
    | take =>
      rw [turn_take huse]
      exact ih _ _ _
    | giveBack =>
      rw [turn_giveBack huse]
      rfl
    | none =>
      cases held with
      | true =>
        rw [turn_inside huse]
        exact ih _ _ _
      | false =>
        rw [turn_outside huse]
        rfl
  | stop why => rfl

/-- Every operation that the turn performs is allowed. -/
def TurnUses (P : Op → Prop) (step : (o : Op) → S → Res o × S) (use : Op → LockUse) (held : Bool) :
    Prog Op Res α → S → Prop
  | .ret _, _ => True
  | .stop _, _ => True
  | .op o next, s => P o ∧
    match use o with
    | .take => TurnUses P step use true (next (step o s).1) (step o s).2
    | .giveBack => True
    | .none =>
      if held then TurnUses P step use true (next (step o s).1) (step o s).2 else True

/-- **The invariant rule of a turn**: what every allowed operation keeps, a turn
    of allowed operations keeps. -/
theorem TurnUses.turn {P : Op → Prop} {I : S → Prop} (hstep : ∀ o s, P o → I s → I (step o s).2)
    {p : Prog Op Res α} {held : Bool} {s : S} (hp : p.TurnUses P step use held s) (hs : I s) :
    I (p.turn step use held s).2 := by
  induction p generalizing held s with
  | ret a => exact hs
  | op o next ih =>
    obtain ⟨ho, hnext⟩ := hp
    have hs' : I (step o s).2 := hstep o s ho hs
    cases huse : use o with
    | take =>
      rw [huse] at hnext
      rw [turn_take huse]
      exact ih _ hnext hs'
    | giveBack =>
      rw [turn_giveBack huse]
      exact hs'
    | none =>
      rw [huse] at hnext
      cases held with
      | true =>
        rw [turn_inside huse]
        exact ih _ hnext hs'
      | false =>
        rw [turn_outside huse]
        exact hs'
  | stop why => exact hs

/-- Inside a section, and on every path out of it the program gives the locks
    back and returns, or it stops. -/
def Inside (use : Op → LockUse) : Prog Op Res α → Prop
  | .ret _ => False
  | .op o next => (use o = .none ∧ ∀ r, (next r).Inside use) ∨
      (use o = .giveBack ∧ ∀ r, ∃ a, next r = .ret a)
  | .stop _ => True

theorem Inside.bind {p : Prog Op Res β} {f : β → Prog Op Res α} (hp : p.Uses fun o => use o = .none)
    (hf : ∀ b, (f b).Inside use) : (p >>= f).Inside use := by
  induction p with
  | ret b => exact hf b
  | op o next ih => exact Or.inl ⟨hp.1, fun r => ih r (hp.2 r)⟩
  | stop why => trivial

/-- The rest of a section is one turn, whatever comes after it. -/
theorem Inside.turn {p : Prog Op Res α} (hp : p.Inside use) {a : α} {s s' : S}
    (hrun : p.run step s = (.ok a, s')) (k : α → Prog Op Res β) :
    (p >>= k).turn step use true s = (k a, s') := by
  induction p generalizing s with
  | ret b => exact absurd hp id
  | op o next ih =>
    rcases hp with ⟨huse, hnext⟩ | ⟨huse, hret⟩
    · rw [op_bind, turn_inside huse]
      exact ih _ (hnext _) hrun
    · obtain ⟨b, hb⟩ := hret (step o s).1
      rw [run_op, hb] at hrun
      obtain ⟨rfl, rfl⟩ : b = a ∧ (step o s).2 = s' := by simpa using hrun
      rw [op_bind, turn_giveBack huse, hb]
      rfl
  | stop why => cases hrun

end Turn

/-- So many turns. -/
def turns (step : (o : Op) → S → Res o × S) (use : Op → LockUse) :
    Nat → Prog Op Res α × S → Prog Op Res α × S
  | 0, x => x
  | n + 1, x => turns step use n (turn step use false x.1 x.2)

/-- A program that has returned has nothing more to do. -/
theorem turns_ret {step : (o : Op) → S → Res o × S} {use : Op → LockUse} (n : Nat) (a : α) (s : S) :
    turns step use n ((.ret a : Prog Op Res α), s) = (.ret a, s) := by
  induction n with
  | zero => rfl
  | succ n ih => exact ih

/-- **Simulation**: what every turn keeps, as the other side takes a step, is kept
    by so many turns. -/
theorem turns_simulate {A : Type} {f : A → A} {step : (o : Op) → S → Res o × S} {use : Op → LockUse}
    {R : A → Prog Op Res α → S → Prop}
    (h : ∀ a p s, R a p s → R (f a) (turn step use false p s).1 (turn step use false p s).2)
    (n : Nat) {a : A} {x : Prog Op Res α × S} (hx : R a x.1 x.2) :
    R (f^[n] a) (turns step use n x).1 (turns step use n x).2 := by
  induction n generalizing a x with
  | zero => exact hx
  | succ n ih => exact ih (h _ _ _ hx)

/-- The turns that bring a program to its return are a run of it. -/
theorem run_of_turns {step : (o : Op) → S → Res o × S} {use : Op → LockUse} {n : Nat}
    {x : Prog Op Res α × S} {a : α} {s : S} (h : turns step use n x = (.ret a, s)) :
    x.1.run step x.2 = (.ok a, s) := by
  induction n generalizing x with
  | zero =>
    obtain rfl : x = (.ret a, s) := h
    rfl
  | succ n ih => rw [← ih h, run_turn]

end Prog

/-! ## Two clients -/

section Interleave

variable {Op Op' : Type} {Res : Op → Type} {Res' : Op' → Type} {S α β : Type}

/-- Two programs and the state they share. -/
structure Clients (Op Op' : Type) (Res : Op → Type) (Res' : Op' → Type) (S α β : Type) where
  first : Prog Op Res α
  second : Prog Op' Res' β
  state : S

/-- What the clients do in one interleaving; `true` is a turn of the first. -/
def interleave (step : (o : Op) → S → Res o × S) (use : Op → LockUse)
    (step' : (o : Op') → S → Res' o × S) (use' : Op' → LockUse) :
    List Bool → Clients Op Op' Res Res' S α β → Clients Op Op' Res Res' S α β
  | [], x => x
  | true :: order, x =>
    let r := x.first.turn step use false x.state
    interleave step use step' use' order ⟨r.1, x.second, r.2⟩
  | false :: order, x =>
    let r := x.second.turn step' use' false x.state
    interleave step use step' use' order ⟨x.first, r.1, r.2⟩

variable {step : (o : Op) → S → Res o × S} {use : Op → LockUse}
  {step' : (o : Op') → S → Res' o × S} {use' : Op' → LockUse}

theorem interleave_append (order order' : List Bool) (x : Clients Op Op' Res Res' S α β) :
    interleave step use step' use' (order ++ order') x =
      interleave step use step' use' order' (interleave step use step' use' order x) := by
  induction order generalizing x with
  | nil => rfl
  | cons who order ih => cases who <;> exact ih _

/-- While only the second client has turns. -/
theorem interleave_second (n : Nat) (x : Clients Op Op' Res Res' S α β) :
    interleave step use step' use' (List.replicate n false) x =
      let r := Prog.turns step' use' n (x.second, x.state)
      ⟨x.first, r.1, r.2⟩ := by
  induction n generalizing x with
  | zero => rfl
  | succ n ih => exact ih _

/-- Once the first client has returned, only the turns of the second count. -/
theorem interleave_returned (order : List Bool) (a : α) (q : Prog Op' Res' β) (s : S) :
    interleave step use step' use' order ⟨.ret a, q, s⟩ =
      let r := Prog.turns step' use' (order.count false) (q, s)
      ⟨.ret a, r.1, r.2⟩ := by
  induction order generalizing q s with
  | nil => rfl
  | cons who order ih =>
    cases who with
    | true =>
      rw [List.count_cons_of_ne (by decide)]
      exact ih q s
    | false =>
      rw [List.count_cons_self]
      exact ih _ _

end Interleave

/-! ## Machines that agree for some time -/

section Agree

variable {Op Op' : Type} {Res : Op → Type} {Res' : Op' → Type} {S α β : Type} {age : S → Nat}
  {first last : Nat} {step step' : (o : Op) → S → Res o × S} {s t u : S} {P Q Q' : Prop}

/-- The state gets no younger from `s` to `t`, and `P` holds if all of the way lies
    between two ages. -/
def During (age : S → Nat) (first last : Nat) (s t : S) (P : Prop) : Prop :=
  age s ≤ age t ∧ (first ≤ age s → age t ≤ last → P)

theorem During.refl (h : P) : During age first last s s P := ⟨le_rfl, fun _ _ => h⟩

theorem During.trans (h : During age first last s t P) (h' : During age first last t u Q')
    (hQ : P → Q' → Q) : During age first last s u Q :=
  ⟨h.1.trans h'.1, fun hfirst hlast =>
    hQ (h.2 hfirst (h'.1.trans hlast)) (h'.2 (hfirst.trans h.1) hlast)⟩

/-- Every step makes the state older, and between the two ages the machines take
    the same steps. -/
structure AgreeBetween (age : S → Nat) (first last : Nat) (step step' : (o : Op) → S → Res o × S) :
    Prop where
  older : ∀ o s, age s < age (step o s).2
  same : ∀ o s, first ≤ age s → age s < last → step' o s = step o s

namespace AgreeBetween

theorem step_during (h : AgreeBetween age first last step step') (o : Op) (s : S) :
    During age first last s (step o s).2 (step' o s = step o s) :=
  ⟨(h.older o s).le, fun hfirst hlast => h.same o s hfirst ((h.older o s).trans_le hlast)⟩

theorem run_during (h : AgreeBetween age first last step step') (p : Prog Op Res α) (s : S) :
    During age first last s (p.run step s).2 (p.run step' s = p.run step s) := by
  induction p generalizing s with
  | ret a => exact .refl rfl
  | stop why => exact .refl rfl
  | op o next ih =>
    refine (h.step_during o s).trans (ih (step o s).1 (step o s).2) fun hs hnext => ?_
    rw [Prog.run_op, hs, hnext, Prog.run_op]

theorem turn_during (h : AgreeBetween age first last step step') (use : Op → LockUse) (held : Bool)
    (p : Prog Op Res α) (s : S) :
    During age first last s (p.turn step use held s).2
      (p.turn step' use held s = p.turn step use held s) := by
  induction p generalizing held s with
  | ret a => exact .refl rfl
  | stop why => exact .refl rfl
  | op o next ih =>
    have hstep := h.step_during o s
    have hinside := hstep.trans (ih (step o s).1 true (step o s).2)
      (Q := (next (step' o s).1).turn step' use true (step' o s).2 = _)
      fun hs hnext => by rw [hs, hnext]
    have houtside := hstep.trans (Q := (next (step' o s).1, (step' o s).2) = _)
      (.refl trivial) fun hs _ => congrArg (fun r => (next r.1, r.2)) hs
    cases hu : use o with
    | take => rwa [Prog.turn_take hu, Prog.turn_take hu]
    | giveBack => rwa [Prog.turn_giveBack hu, Prog.turn_giveBack hu]
    | none =>
      cases held with
      | true => rwa [Prog.turn_inside hu, Prog.turn_inside hu]
      | false => rwa [Prog.turn_outside hu, Prog.turn_outside hu]

/-- Two clients of machines that agree while they run. -/
theorem interleave_during {step₂ step₂' : (o : Op') → S → Res' o × S}
    (h : AgreeBetween age first last step step') (h₂ : AgreeBetween age first last step₂ step₂')
    (use : Op → LockUse) (use' : Op' → LockUse) (order : List Bool)
    (x : Clients Op Op' Res Res' S α β) :
    During age first last x.state (interleave step use step₂ use' order x).state
      (interleave step' use step₂' use' order x = interleave step use step₂ use' order x) := by
  induction order generalizing x with
  | nil => exact .refl rfl
  | cons who order ih =>
    cases who with
    | true =>
      let r := x.first.turn step use false x.state
      refine (h.turn_during use false x.first x.state).trans (ih ⟨r.1, x.second, r.2⟩)
        fun hturn hrest => ?_
      rw [interleave, hturn, hrest, interleave]
    | false =>
      let r := x.second.turn step₂ use' false x.state
      refine (h₂.turn_during use' false x.second x.state).trans (ih ⟨x.first, r.1, r.2⟩)
        fun hturn hrest => ?_
      rw [interleave, hturn, hrest, interleave]

end AgreeBetween

end Agree

/-! ## A cell read in one turn and written in a later one -/

/-- A client that works on one cell: some turns, one in which it reads the cell,
    some turns with what it has read, and one in which it writes the cell. -/
structure LateWrite (C V : Type) where
  before : Nat
  between : Nat
  read : C → V
  write : V → C → C

namespace LateWrite

variable {C V : Type} (l : LateWrite C V)

/-- The turns the client has had, what it has read, and the cell. -/
structure State (C V : Type) where
  turns : Nat
  got : Option V
  cell : C

/-- One turn of the client. -/
def step (x : State C V) : State C V :=
  if x.turns = l.before then ⟨x.turns + 1, some (l.read x.cell), x.cell⟩
  else if x.turns = l.before + l.between + 1 then
    ⟨x.turns + 1, x.got, x.got.elim x.cell fun v => l.write v x.cell⟩
  else ⟨x.turns + 1, x.got, x.cell⟩

/-- Another client changes the cell. -/
def State.change (f : C → C) (x : State C V) : State C V := { x with cell := f x.cell }

variable {l}

theorem step_read {n : Nat} (h : n = l.before) (got : Option V) (c : C) :
    l.step ⟨n, got, c⟩ = ⟨n + 1, some (l.read c), c⟩ := if_pos h

theorem step_write {n : Nat} (h : n = l.before + l.between + 1) (v : V) (c : C) :
    l.step ⟨n, some v, c⟩ = ⟨n + 1, some v, l.write v c⟩ := by
  have hread : n ≠ l.before := by omega
  exact (if_neg hread).trans (if_pos h)

theorem step_quiet {n : Nat} (hread : n ≠ l.before) (hwrite : n ≠ l.before + l.between + 1)
    (got : Option V) (c : C) : l.step ⟨n, got, c⟩ = ⟨n + 1, got, c⟩ :=
  (if_neg hread).trans (if_neg hwrite)

/-- Turns among which there is neither the read nor the write. -/
theorem steps_quiet (n m : Nat) (got : Option V) (c : C) (h : n + m ≤ l.before ∨
    (l.before < n ∧ n + m ≤ l.before + l.between + 1) ∨ l.before + l.between + 1 < n) :
    l.step^[m] ⟨n, got, c⟩ = ⟨n + m, got, c⟩ := by
  induction m generalizing n with
  | zero => rfl
  | succ m ih =>
    have hread : n ≠ l.before := by omega
    have hwrite : n ≠ l.before + l.between + 1 := by omega
    rw [Function.iterate_succ_apply, step_quiet hread hwrite, ih (n + 1) (by omega), Nat.add_assoc,
      Nat.add_comm 1]

/-- The turns of a client that has read the cell, up to its write and after. -/
theorem steps_write {n m : Nat} (hn : l.before < n) (hn' : n ≤ l.before + l.between + 1)
    (hm : l.before + l.between + 2 ≤ n + m) (v : V) (c : C) :
    l.step^[m] ⟨n, some v, c⟩ = ⟨n + m, some v, l.write v c⟩ := by
  obtain ⟨i, j, rfl, hi⟩ : ∃ i j, m = j + 1 + i ∧ n + i = l.before + l.between + 1 :=
    ⟨l.before + l.between + 1 - n, n + m - (l.before + l.between + 2), by omega, by omega⟩
  rw [Function.iterate_add_apply, steps_quiet n i _ _ (by omega), Function.iterate_add_apply,
    Function.iterate_one, step_write hi,
    steps_quiet (n + i + 1) j _ _ (by omega)]
  congr 1
  omega

/-- The turns of a client that has still to read the cell. -/
theorem steps_read {n m : Nat} (hn : n ≤ l.before) (hm : l.before + l.between + 2 ≤ n + m) (c : C) :
    l.step^[m] ⟨n, none, c⟩ = ⟨n + m, some (l.read c), l.write (l.read c) c⟩ := by
  obtain ⟨i, j, rfl, hi⟩ : ∃ i j, m = j + 1 + i ∧ n + i = l.before :=
    ⟨l.before - n, n + m - (l.before + 1), by omega, by omega⟩
  rw [Function.iterate_add_apply, steps_quiet n i _ _ (by omega), Function.iterate_add_apply,
    Function.iterate_one, step_read hi]
  refine (steps_write (by omega) (by omega) (by omega) _ _).trans ?_
  congr 1
  omega

/-- The client between its read and its write. -/
theorem steps_got {n : Nat} (hn : l.before < n) (hn' : n ≤ l.before + l.between + 1) (c : C) :
    l.step^[n] ⟨0, none, c⟩ = ⟨n, some (l.read c), c⟩ := by
  obtain ⟨i, rfl⟩ : ∃ i, n = i + 1 + l.before := ⟨n - (l.before + 1), by omega⟩
  rw [Function.iterate_add_apply l.step (i + 1), steps_quiet 0 l.before _ _ (by omega),
    Function.iterate_add_apply l.step i, Function.iterate_one, step_read (Nat.zero_add _),
    steps_quiet (0 + l.before + 1) i _ _ (by omega)]
  congr 1
  omega

section Change

variable (f : C → C) (c : C) {n m : Nat}

/-- The other client's change before the read: as if it had been made first. -/
theorem change_before (hm : l.before + l.between + 2 ≤ n + m) (hn : n ≤ l.before) :
    l.step^[m] ((l.step^[n] ⟨0, none, c⟩).change f) =
      ⟨n + m, some (l.read (f c)), l.write (l.read (f c)) (f c)⟩ := by
  rw [steps_quiet 0 n _ _ (by omega), Nat.zero_add]
  exact steps_read hn hm (f c)

/-- Between the read and the write: what the client writes knows nothing of it. -/
theorem change_between (hm : l.before + l.between + 2 ≤ n + m) (hn : l.before < n)
    (hn' : n ≤ l.before + l.between + 1) :
    l.step^[m] ((l.step^[n] ⟨0, none, c⟩).change f) =
      ⟨n + m, some (l.read c), l.write (l.read c) (f c)⟩ := by
  rw [steps_got hn hn']
  exact steps_write hn hn' hm _ _

/-- After the write: as if it had been made last. -/
theorem change_after (hn : l.before + l.between + 1 < n) :
    l.step^[m] ((l.step^[n] ⟨0, none, c⟩).change f) =
      ⟨n + m, some (l.read c), f (l.write (l.read c) c)⟩ := by
  rw [steps_read (n := 0) (Nat.zero_le _) (by omega), Nat.zero_add]
  exact steps_quiet n m _ _ (by omega)

end Change

end LateWrite

end GoProgram
