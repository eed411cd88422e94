import TinyRedis.CommandTableProofs

/-! # What one command does

    A command that runs on its own is known by what it returns and the store it
    leaves.  Taking and giving back the key locks shows in neither, so the body
    of a section counts by itself, one tick later; an expired key is gone before
    the command looks at it. -/

namespace TinyDb

open GoString GoFloat GoProgram GoProgram.Prog TinyResp

variable {F : Type} {c : Caps} {α β : Type} {env : Env} {w : World F}

/-- What a program returns, and the store it leaves. -/
def outcome (env : Env) (p : Cmd F c α) (w : World F) : Except Abort α × Store F :=
  ((p.run (Op.step env) w).1, (p.run (Op.step env) w).2.store)

/-! ## Step by step -/

@[simp] theorem outcome_ret (a : α) : outcome env (.ret a : Cmd F c α) w = (.ok a, w.store) := rfl

@[simp] theorem outcome_stop (why : Abort) :
    outcome env (.stop why : Cmd F c α) w = (.error why, w.store) := rfl

@[simp] theorem outcome_op (o : Op F c) (next : o.Res → Cmd F c α) :
    outcome env (.op o next) w = outcome env (next (o.step env w).1) (o.step env w).2 := rfl

/-- A program behind `m.db.Get(key)`. -/
theorem outcome_get (kind : Kind) (key : Bytes) (h : kind ≠ .zset)
    (f : Found (kind.Obj F) → Cmd F c β) : outcome env (get kind key h >>= f) w =
      outcome env (f (w.store.get kind key)) ⟨w.store, w.tick + 1, w.draws⟩ := rfl

/-- A program behind `m.db.Set(key, obj)`. -/
theorem outcome_set (kind : Kind) (key : Bytes) (obj : kind.Obj F) (hw : c.write = true)
    (h : kind ≠ .zset) (f : Unit → Cmd F c β) : outcome env (set kind key obj hw h >>= f) w =
      outcome env (f ()) ⟨w.store.set key ⟨kind, obj⟩, w.tick + 1, w.draws⟩ := rfl

/-- A program behind a method call that changes the collection at `key`. -/
theorem outcome_update (kind : Kind) (key : Bytes) (obj : kind.Obj F) (hw : c.write = true)
    (h : kind ≠ .zset) (f : Unit → Cmd F c β) : outcome env (update kind key obj hw h >>= f) w =
      outcome env (f ()) ⟨w.store.update key ⟨kind, obj⟩, w.tick + 1, w.draws⟩ := rfl

/-- A program behind `m.SetTTL(key, deadline)`. -/
theorem outcome_setTTL (key : Bytes) (deadline : Int) (hw : c.write = true) (ht : c.timed = true)
    (f : Int → Cmd F c β) : outcome env (setTTL key deadline hw ht >>= f) w =
      outcome env (f (w.store.setTTL key deadline).1)
        ⟨(w.store.setTTL key deadline).2, w.tick + 1, w.draws⟩ := rfl

/-- A program behind `m.ttl.ExpireAt(key)`. -/
theorem outcome_expireAt (key : Bytes) (f : Option Int → Cmd F c β) :
    outcome env (expireAt key >>= f) w =
      outcome env (f (w.store.ttl.lookup key)) ⟨w.store, w.tick + 1, w.draws⟩ := rfl

/-- A program behind `time.Now().Unix()`. -/
theorem outcome_timeNow (h : c.timed = true) (f : Int → Cmd F c β) :
    outcome env (timeNow h >>= f) w =
      outcome env (f (env.clock w.tick)) ⟨w.store, w.tick + 1, w.draws⟩ := rfl

/-- A program behind one that returns. -/
theorem outcome_bind {p : Cmd F c α} {a : α} {w' : World F}
    (h : p.run (Op.step env) w = (.ok a, w')) (f : α → Cmd F c β) :
    outcome env (p >>= f) w = outcome env (f a) w' := by
  rw [outcome, run_bind, h]
  rfl

/-- A section under write locks. -/
theorem outcome_withLocks (keys : List Bytes) (body : Cmd F c α) :
    outcome env (withLocks keys body) w = outcome env body ⟨w.store, w.tick + 1, w.draws⟩ := by
  simp only [outcome, withLocks, run_op, Op.step_lock, run_defer]
  rcases body.run (Op.step env) ⟨w.store, w.tick + 1, w.draws⟩ with ⟨(_ | _) | a, w'⟩ <;> rfl

/-- A section under read locks. -/
theorem outcome_withRLocks (keys : List Bytes) (body : Cmd F c α) :
    outcome env (withRLocks keys body) w = outcome env body ⟨w.store, w.tick + 1, w.draws⟩ := by
  simp only [outcome, withRLocks, run_op, Op.step_rLock, run_defer]
  rcases body.run (Op.step env) ⟨w.store, w.tick + 1, w.draws⟩ with ⟨(_ | _) | a, w'⟩ <;> rfl

/-- A program that begins with `CheckTTL`. -/
theorem run_checkTTL_bind (key : Bytes) (f : Bool → Cmd F c α) :
    (checkTTL key >>= f).run (Op.step env) w =
      (f (w.store.checkTTL key (env.clock w.tick)).1).run (Op.step env)
        ⟨(w.store.checkTTL key (env.clock w.tick)).2, w.tick + 1, w.draws⟩ := rfl

/-! ## Expiry -/

namespace Store

variable {s : Store F} {key k : Bytes} {now : Int}

/-- The store that `CheckTTL` leaves. -/
def checked (s : Store F) (key : Bytes) (now : Int) : Store F := (s.checkTTL key now).2

theorem checkTTL_of_due (h : s.Due key now) :
    s.checkTTL key now = (false, ((s.removeTTL key).delete key).2) :=
  ((s.checkTTL_cases key now).resolve_right fun hlive => hlive.1 h).2

theorem checkTTL_of_not_due (h : ¬ s.Due key now) : s.checkTTL key now = (true, s) :=
  ((s.checkTTL_cases key now).resolve_left fun hdue => h hdue.1).2

theorem checked_of_not_due (h : ¬ s.Due key now) : s.checked key now = s := by
  rw [checked, checkTTL_of_not_due h]

/-- A key that is due is gone. -/
theorem checked_of_due (h : s.Due key now) :
    (s.checked key now).db.lookup key = none ∧ (s.checked key now).ttl.lookup key = none := by
  rw [checked, checkTTL_of_due h]
  simp

/-- The other keys stay. -/
theorem checked_ne (s : Store F) (now : Int) (h : k ≠ key) :
    (s.checked key now).db.lookup k = s.db.lookup k ∧
      (s.checked key now).ttl.lookup k = s.ttl.lookup k := by
  rcases s.checkTTL_cases key now with ⟨-, heq⟩ | ⟨-, heq⟩
  · rw [checked, heq]
    simp [h]
  · rw [checked, heq]
    exact ⟨rfl, rfl⟩

theorem live_eq_some {v : Value F} {d : Option Int} : s.live now key = some (v, d) ↔
    ¬ s.Due key now ∧ s.db.lookup key = some v ∧ s.ttl.lookup key = d := by
  by_cases h : s.Due key now
  · rw [live_of_due h]
    simp [h]
  · rw [live_of_not_due h]
    simp [h]

theorem live_eq_none : s.live now key = none ↔ s.Due key now ∨ s.db.lookup key = none := by
  by_cases h : s.Due key now
  · rw [live_of_due h]
    simp [h]
  · rw [live_of_not_due h]
    simp [h]

/-- What is live is what the check leaves. -/
theorem checked_lookup (s : Store F) (key : Bytes) (now : Int) :
    (s.checked key now).db.lookup key = (s.live now key).map Prod.fst := by
  by_cases h : s.Due key now
  · rw [(checked_of_due h).1, live_of_due h]
    rfl
  · rw [checked_of_not_due h, live_of_not_due h, Option.map_map]
    exact Option.map_id'.symm

end Store

/-- A command that checks a key that is due. -/
theorem outcome_checkTTL_of_due {key : Bytes} (hdue : w.store.Due key (env.clock w.tick))
    (f : Bool → Cmd F c α) : outcome env (checkTTL key >>= f) w = outcome env (f false)
      ⟨w.store.checked key (env.clock w.tick), w.tick + 1, w.draws⟩ := by
  rw [outcome, run_checkTTL_bind, Store.checked, Store.checkTTL_of_due hdue]
  rfl

/-- A command that checks any other key. -/
theorem outcome_checkTTL {key : Bytes} (hdue : ¬ w.store.Due key (env.clock w.tick))
    (f : Bool → Cmd F c α) : outcome env (checkTTL key >>= f) w =
      outcome env (f true) ⟨w.store, w.tick + 1, w.draws⟩ := by
  rw [outcome, run_checkTTL_bind, Store.checkTTL_of_not_due hdue]
  rfl

/-- A command that checks its key and goes on in any case. -/
theorem outcome_checkTTL_ignored (key : Bytes) (p : Cmd F c α) :
    outcome env (checkTTL key >>= fun _ => p) w =
      outcome env p ⟨w.store.checked key (env.clock w.tick), w.tick + 1, w.draws⟩ := rfl

/-! ## The writing frame -/

/-- The collection that was found, or a new one. -/
def Found.orNew {α : Type} : Found α → α → α
  | .found obj, _ => obj
  | _, new => new

section GetOrCreate

variable {kind : Kind} {key : Bytes} {new : kind.Obj F} {hw : c.write = true} {h : kind ≠ .zset}

/-- The collection of a key that is not there is a new one, which is stored. -/
theorem outcome_getOrCreate_absent (hget : w.store.get kind key = .absent)
    (f : Found (kind.Obj F) → Cmd F c β) : outcome env (getOrCreate kind key new hw h >>= f) w =
      outcome env (f (.found new)) ⟨w.store.set key ⟨kind, new⟩, w.tick + 2, w.draws⟩ := by
  rw [getOrCreate, bind_bind, outcome_get, hget]
  rfl

/-- The collection of a key that is there. -/
theorem outcome_getOrCreate {obj : kind.Obj F} (hget : w.store.get kind key = .found obj)
    (f : Found (kind.Obj F) → Cmd F c β) : outcome env (getOrCreate kind key new hw h >>= f) w =
      outcome env (f (.found obj)) ⟨w.store, w.tick + 1, w.draws⟩ := by
  rw [getOrCreate, bind_bind, outcome_get, hget]
  rfl

/-- The frame of the commands that create a collection: the body gets the
    collection of the key, in a store that has it. -/
theorem outcome_creating {P : Except Abort β × Store F → Prop} {f : Found (kind.Obj F) → Cmd F c β}
    {obj : kind.Obj F}
    (htype : (w.store.checked key (env.clock w.tick)).get kind key ≠ .wrongType)
    (hobj : ((w.store.checked key (env.clock w.tick)).get kind key).orNew new = obj)
    (hbody : ∀ w' : World F, w'.store.db.lookup key = some ⟨kind, obj⟩ →
      w'.store.ttl = (w.store.checked key (env.clock w.tick)).ttl →
      P (outcome env (f (.found obj)) w')) :
    P (outcome env (checkTTL key >>= fun _ => withLock key
      (getOrCreate kind key new hw h >>= f)) w) := by
  rw [outcome_checkTTL_ignored, withLock, outcome_withLocks]
  generalize w.store.checked key (env.clock w.tick) = s at htype hobj hbody ⊢
  subst hobj
  cases hget : s.get kind key with
  | wrongType => exact absurd hget htype
  | absent =>
    rw [hget] at hbody
    rw [outcome_getOrCreate_absent (w := ⟨s, w.tick + 2, w.draws⟩) hget]
    exact hbody _ (by simp [Found.orNew]) rfl
  | found obj =>
    rw [hget] at hbody
    rw [outcome_getOrCreate (w := ⟨s, w.tick + 2, w.draws⟩) hget]
    exact hbody _ (Store.get_eq_found.mp hget) rfl

end GetOrCreate

/-! ## The reading frame -/

section Reading

variable {kind : Kind} {key : Bytes} {missing : Reply}
  {body : kind.Obj F → Cmd F reads Reply}

/-- A reading command on a key that has expired. -/
theorem outcome_reading_due (hdue : w.store.Due key (env.clock w.tick)) :
    outcome env (reading kind key missing body) w =
      (.ok missing, w.store.checked key (env.clock w.tick)) :=
  outcome_checkTTL_of_due hdue _

/-- A reading command on any other key. -/
theorem outcome_reading (hdue : ¬ w.store.Due key (env.clock w.tick)) :
    outcome env (reading kind key missing body) w =
      outcome env (lookingUp kind key missing body) ⟨w.store, w.tick + 1, w.draws⟩ :=
  outcome_checkTTL hdue _

/-- The part under the read lock, by what is at the key. -/
theorem outcome_lookingUp (w : World F) : outcome env (lookingUp kind key missing body) w =
      match w.store.get kind key with
      | .absent => (.ok missing, w.store)
      | .wrongType => (.ok wrongTypeReply, w.store)
      | .found obj => outcome env (body obj) ⟨w.store, w.tick + 2, w.draws⟩ := by
  have hstep : (Op.get kind key fun _ => rfl : Op F reads).step env ⟨w.store, w.tick + 1, w.draws⟩ =
      (w.store.get kind key, ⟨w.store, w.tick + 2, w.draws⟩) := rfl
  rw [lookingUp, withRLock, outcome_withRLocks, op_bind, outcome_op, hstep]
  cases w.store.get kind key <;> rfl

/-- A reading command on a key that is there. -/
theorem outcome_reading_found {obj : kind.Obj F} (hdue : ¬ w.store.Due key (env.clock w.tick))
    (hget : w.store.get kind key = .found obj) :
    outcome env (reading kind key missing body) w =
      outcome env (body obj) ⟨w.store, w.tick + 3, w.draws⟩ := by
  rw [outcome_reading hdue, outcome_lookingUp, hget]

/-- A reading command on a key that is not there, or has just expired. -/
theorem outcome_reading_missing (hlive : w.store.live (env.clock w.tick) key = none) :
    outcome env (reading kind key missing body) w =
      (.ok missing, w.store.checked key (env.clock w.tick)) := by
  by_cases hdue : w.store.Due key (env.clock w.tick)
  · exact outcome_reading_due hdue
  · rw [Store.live_of_not_due hdue, Option.map_eq_none_iff] at hlive
    rw [outcome_reading hdue, Store.checked_of_not_due hdue, outcome_lookingUp,
      Store.get_eq_absent.mpr hlive]

end Reading

/-! ## Registered commands -/

section Exec

variable [UnicodeTables] [FloatText F] {host : Host} {name : String} {e : Executor F}
  {cmd : Command}

/-- `ExecCommand` of a command whose executor is known. -/
theorem exec_eq_outcome (h : (name, e) ∈ cmdTable host) (hne : cmd ≠ [])
    (hname : toLower (cmdName cmd) = ascii name) :
    ((execCommand host env cmd w).1, (execCommand host env cmd w).2.store) =
      outcome env (e.body cmd) w := by
  rw [execCommand_of_mem h hne hname]
  rfl

/-- What it replies. -/
theorem exec_reply (h : (name, e) ∈ cmdTable host) (hne : cmd ≠ [])
    (hname : toLower (cmdName cmd) = ascii name) :
    (execCommand host env cmd w).1 = (outcome env (e.body cmd) w).1 := by
  rw [execCommand_of_mem h hne hname]
  rfl

/-- The store that it leaves. -/
theorem exec_store (h : (name, e) ∈ cmdTable host) (hne : cmd ≠ [])
    (hname : toLower (cmdName cmd) = ascii name) :
    (execCommand host env cmd w).2.store = (outcome env (e.body cmd) w).2 :=
  congrArg Prod.snd (exec_eq_outcome h hne hname)

theorem exec_of_outcome (h : (name, e) ∈ cmdTable host) (hne : cmd ≠ [])
    (hname : toLower (cmdName cmd) = ascii name) {x : Except Abort Reply × Store F}
    (hx : outcome env (e.body cmd) w = x) :
    (execCommand host env cmd w).1 = x.1 ∧ (execCommand host env cmd w).2.store = x.2 := by
  rw [← hx, ← exec_eq_outcome h hne hname]
  exact ⟨rfl, rfl⟩

theorem execCommand_tick (host : Host) (env : Env) (cmd : Command) (w : World F) :
    w.tick ≤ (execCommand host env cmd w).2.tick := by
  unfold execCommand
  split
  · exact le_refl _
  · split
    · exact le_refl _
    · exact run_tick env _ w

/-- The state after a sequence of commands. -/
def execAll (host : Host) (env : Env) (cmds : List Command) (w : World F) : World F :=
  cmds.foldl (fun w cmd => (execCommand host env cmd w).2) w

theorem execAll_tick (host : Host) (env : Env) (cmds : List Command) (w : World F) :
    w.tick ≤ (execAll host env cmds w).tick := by
  induction cmds generalizing w with
  | nil => exact le_rfl
  | cons cmd rest ih => exact (execCommand_tick host env cmd w).trans (ih _)

/-- What holds of every step of a sequence, each in the state it comes in, holds of
    the first one and of every step of the rest. -/
theorem forall_steps_cons (P : Command → World F → Prop) (host : Host) (env : Env) (cmd : Command)
    (cmds : List Command) (w : World F) :
    (∀ before cmd' after, cmd :: cmds = before ++ cmd' :: after →
        P cmd' (execAll host env before w)) ↔
      P cmd w ∧ ∀ before cmd' after, cmds = before ++ cmd' :: after →
        P cmd' (execAll host env before (execCommand host env cmd w).2) := by
  constructor
  · intro h
    refine ⟨h [] cmd cmds rfl, fun before cmd' after heq => ?_⟩
    exact h (cmd :: before) cmd' after (by rw [heq]; rfl)
  · rintro ⟨hcmd, hrest⟩ before cmd' after heq
    cases before with
    | nil =>
      obtain ⟨rfl, -⟩ := List.cons.inj heq
      exact hcmd
    | cons first before =>
      obtain ⟨rfl, htail⟩ := List.cons.inj heq
      exact hrest before cmd' after htail

end Exec

end TinyDb
