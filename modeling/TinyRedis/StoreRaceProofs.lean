import TinyRedis.MultiGetProofs
import TinyRedis.SetStoresProofs

/-! # SADD while a store command runs

    SUNIONSTORE, SINTERSTORE and SDIFFSTORE read their sources in one section and
    write the destination in a later one.  When the destination is among the
    sources, a SADD of it can fall in between: it is acknowledged, and the result
    that is written over it knows nothing of it.

    To the destination a store command is a late write: a number of turns in
    which it does nothing to it, the read, more such turns, and the write.  The
    programs are followed turn by turn and shown to be one; what the interleaving
    makes of the destination is then a fact about late writes. -/

namespace TinyDb

open GoString GoFloat GoProgram GoProgram.Prog TinyResp

variable {F : Type}

/-! ## Stores with the same content -/

namespace Store

variable {s t : Store F} {k des : Bytes} {n now : Int} {checks : List (Bytes × Int)} {v : Value F}

theorem Same.get (h : s.Same t) (kind : Kind) (k : Bytes) : s.get kind k = t.get kind k := by
  rw [Store.get, Store.get, (h k).1]

theorem Same.due_iff (h : s.Same t) : s.Due k n ↔ t.Due k n := by rw [Due, Due, (h k).2]

theorem Same.trans {u : Store F} (h : s.Same t) (h' : t.Same u) : s.Same u :=
  fun k => ⟨(h k).1.trans (h' k).1, (h k).2.trans (h' k).2⟩

theorem Same.set (h : s.Same t) (key : Bytes) (v : Value F) : (s.set key v).Same (t.set key v) :=
  fun k => ⟨by rw [set_db, set_db, (h k).1], (h k).2⟩

theorem Same.checkTTL (h : s.Same t) (key : Bytes) (n : Int) :
    (s.checkTTL key n).1 = (t.checkTTL key n).1 ∧
      (s.checkTTL key n).2.Same (t.checkTTL key n).2 := by
  have hdue : s.Due key n ↔ t.Due key n := h.due_iff
  refine ⟨by simp [hdue], fun k => ?_⟩
  rw [checkTTL_db, checkTTL_db, checkTTL_ttl, checkTTL_ttl, (h k).1, (h k).2]
  simp [hdue]

/-- A check and a write to a key that is not due can change places. -/
theorem check_set (hdue : s.Due k n ↔ s.Due k now) (hdes : ¬ s.Due des n) :
    ((s.set des v).checkTTL k n).1 = (s.checkTTL k now).1 ∧
      ((s.set des v).checkTTL k n).2.Same ((s.checkTTL k now).2.set des v) := by
  have hset : (s.set des v).Due k n ↔ s.Due k now := hdue
  refine ⟨by simp [hset], fun k' => ⟨?_, ?_⟩⟩
  · rw [checkTTL_db, set_db, set_db, checkTTL_db]
    by_cases hk : k' = des
    · subst hk
      rw [if_pos rfl, if_pos rfl, if_neg]
      rintro ⟨rfl, h⟩
      exact hdes h
    · simp only [hk, if_false, hset]
  · rw [checkTTL_ttl, set_ttl, set_ttl, checkTTL_ttl]
    simp only [hset]

theorem due_checkAll : (s.checkAll checks).Due k n ↔ s.Due k n ∧ ¬ s.Popped checks k := by
  rcases s.checkAll_lookup checks k with ⟨hpop, -, httl⟩ | ⟨hpop, -, httl⟩
  · rw [Due, httl]
    simp [hpop]
  · rw [Due, httl]
    exact (and_iff_left hpop).symm

theorem checkAll_append (s : Store F) (checks checks' : List (Bytes × Int)) :
    s.checkAll (checks ++ checks') = (s.checkAll checks).checkAll checks' := by
  induction checks generalizing s with
  | nil => rfl
  | cons check rest ih => exact ih _

theorem kept_append (s : Store F) (checks checks' : List (Bytes × Int)) :
    s.kept (checks ++ checks') = s.kept checks ++ (s.checkAll checks).kept checks' := by
  induction checks generalizing s with
  | nil => rfl
  | cons check rest ih =>
    obtain ⟨key, n⟩ := check
    rw [List.cons_append, kept, kept, checkAll, ih]
    split <;> rfl

/-- A key of another type is all `getSets` needs to give up. -/
theorem setsAt_eq_none {keys : List Bytes} (h : ∃ k ∈ keys, s.get .set k = .wrongType) :
    s.setsAt keys = none := by
  induction keys with
  | nil => simp at h
  | cons key rest ih =>
    rw [setsAt]
    cases hget : s.get .set key with
    | wrongType => rfl
    | absent => exact ih (by simpa [hget] using h)
    | found set =>
      have hrest : ∃ k ∈ rest, s.get .set k = .wrongType := by simpa [hget] using h
      rw [ih hrest]
      rfl

end Store

/-! ## The read phase -/

/-- The operations of a read phase. -/
def Op.Peeks {c : Caps} : Op F c → Prop
  | .get _ _ _ => True
  | .rLock _ => True
  | .rUnLock _ => True
  | _ => False

theorem Op.Peeks.step {c : Caps} {o : Op F c} (h : o.Peeks) (env : Env) {w v : World F}
    (hsame : w.store.Same v.store) :
    (o.step env w).1 = (o.step env v).1 ∧ (o.step env w).2.store = w.store := by
  cases o with
  | get kind key hk => exact ⟨hsame.get kind key, rfl⟩
  | rLock keys => exact ⟨rfl, rfl⟩
  | rUnLock keys => exact ⟨rfl, rfl⟩
  | _ => exact absurd h id

namespace SetOp

variable {keys : List Bytes}

theorem compute_peeks (op : SetOp) (keys : List Bytes) :
    (op.compute keys : Cmd F _ _).Uses Op.Peeks :=
  op.compute_uses (fun _ _ _ => trivial) (fun _ => trivial) (fun _ => trivial) keys

/-- What is read depends on the content of the store only, and leaves it. -/
theorem run_compute_same (op : SetOp) (env : Env) (keys : List Bytes) {w v : World F}
    (h : w.store.Same v.store) :
    ((op.compute keys).run (Op.step env) w).1 = ((op.compute keys).run (Op.step env) v).1 ∧
      ((op.compute keys).run (Op.step env) w).2.store = w.store := by
  refine ⟨(Uses.run_related (R := fun w w' => w.store.Same w'.store) ?_
    (op.compute_peeks keys) h).1, ?_⟩
  · intro o w w' ho h
    have hw := ho.step env h
    have hw' := ho.step env (w := w') (v := w') fun _ => ⟨rfl, rfl⟩
    exact ⟨hw.1, by rw [hw.2, hw'.2]; exact h⟩
  · refine (Uses.run (R := fun w w' => w'.store = w.store) (fun _ => rfl) ?_ ?_
      (op.compute_peeks keys) w)
    · intro w w' w'' h h'
      exact h'.trans h
    · intro o w ho
      exact (ho.step env (v := w) fun _ => ⟨rfl, rfl⟩).2

/-- The read phase is one section. -/
theorem compute_inside (op : SetOp) (hne : keys ≠ []) :
    ∃ body : Cmd F writes (Except Reply RedisSet),
      op.compute keys = .op (.rLock keys) (fun _ => body) ∧ body.Inside Op.lockUse := by
  have hget : ∀ kind k (hk : kind = .zset → writes.sorted = true),
      (Op.get kind k hk : Op F writes).lockUse = .none := fun _ _ _ => rfl
  cases op with
  | union =>
    refine ⟨_, rfl, Inside.bind (getSets_uses hget keys) fun sets => Or.inr ⟨rfl, fun _ => ?_⟩⟩
    rcases sets with _ | _ | _ <;> exact ⟨_, rfl⟩
  | inter =>
    refine ⟨_, rfl, Inside.bind (getSets_uses hget keys) fun sets => ?_⟩
    cases sets with
    | none => exact Or.inr ⟨rfl, fun _ => ⟨_, rfl⟩⟩
    | some sets =>
      exact Inside.bind (intersectAll_uses sets) fun _ => Or.inr ⟨rfl, fun _ => ⟨_, rfl⟩⟩
  | diff =>
    obtain ⟨key, rest, rfl⟩ := List.exists_cons_of_ne_nil hne
    refine ⟨_, rfl, Or.inl ⟨rfl, fun r => ?_⟩⟩
    cases r with
    | absent => exact Or.inr ⟨rfl, fun _ => ⟨_, rfl⟩⟩
    | wrongType => exact Or.inr ⟨rfl, fun _ => ⟨_, rfl⟩⟩
    | found prim =>
      refine Inside.bind (p := getSets rest) (getSets_uses hget rest) fun sets =>
        Or.inr ⟨rfl, fun _ => ?_⟩
      cases sets <;> exact ⟨_, rfl⟩

/-- Nothing will be stored. -/
def Fails (out : Except Reply RedisSet) : Prop := ∀ res, out = .ok res → res.len = 0

/-- A source of another type: an error, or for SDIFFSTORE with an absent first key
    an empty result. -/
theorem run_compute_wrongType (op : SetOp) (env : Env) (w : World F)
    (h : ∃ k ∈ keys, w.store.get .set k = .wrongType) :
    ∃ out, ((op.compute keys).run (Op.step env) w).1 = .ok out ∧ Fails out := by
  have hnone := Store.setsAt_eq_none h
  cases op with
  | union =>
    obtain ⟨t, hget⟩ := run_getSets (c := writes) env keys ⟨w.store, w.tick + 1, w.draws⟩
    refine ⟨.error wrongTypeReply, ?_, fun _ h => by cases h⟩
    simp only [compute, unionOf, rLockMulti, rUnLockMulti, op_bind, ret_bind, run_op,
      Op.step_rLock, run_bind, hget, hnone]
    rfl
  | inter =>
    obtain ⟨t, hrun⟩ := run_interOf env keys w
    refine ⟨.error wrongTypeReply, ?_, fun _ h => by cases h⟩
    rw [compute, hrun, hnone]
  | diff =>
    obtain ⟨key, rest, rfl⟩ : ∃ key rest, keys = key :: rest := by
      obtain ⟨k, hk, -⟩ := h
      exact List.exists_cons_of_ne_nil (List.ne_nil_of_mem hk)
    simp only [compute, diffOf, rLockMulti, rUnLockMulti, get, op_bind, ret_bind, run_op,
      Op.step_rLock, Op.step_get]
    cases hget : w.store.get .set key with
    | absent => exact ⟨_, rfl, fun res h => by cases h; rfl⟩
    | wrongType => exact ⟨_, rfl, fun _ h => by cases h⟩
    | found prim =>
      have hrest : ∃ k ∈ rest, w.store.get .set k = .wrongType := by simpa [hget] using h
      obtain ⟨t, hrun⟩ := run_getSets (c := writes) env rest ⟨w.store, w.tick + 1 + 1, w.draws⟩
      simp only [run_bind, hrun, Store.setsAt_eq_none hrest]
      exact ⟨_, rfl, fun _ h => by cases h⟩

/-- The read phase returns when one of the keys holds a set, and what it gives is
    stored unless a key holds another type. -/
theorem run_compute_found (op : SetOp) (env : Env) (w : World F)
    (h : ∃ k ∈ keys, ∃ set, w.store.get .set k = .found set) :
    ∃ out, ((op.compute keys).run (Op.step env) w).1 = .ok out ∧
      ((∃ k ∈ keys, w.store.get .set k = .wrongType) ∧ Fails out ∨
        (¬ ∃ k ∈ keys, w.store.get .set k = .wrongType) ∧
          ∃ res, out = .ok res ∧ res.Sized ∧ ∀ x, res.has x = true ↔
            op.Result (fun k set => w.store.get .set k = .found set) x keys) := by
  by_cases hwrong : ∃ k ∈ keys, w.store.get .set k = .wrongType
  · obtain ⟨out, hout, hfails⟩ := op.run_compute_wrongType env w hwrong
    exact ⟨out, hout, Or.inl ⟨hwrong, hfails⟩⟩
  · have hne : keys ≠ [] := by
      obtain ⟨k, hk, -⟩ := h
      exact List.ne_nil_of_mem hk
    obtain ⟨out, t, hout, ⟨-, res, rfl, hsized, hhas⟩ | ⟨-, hnone, -⟩⟩ :=
      op.run_compute env w hne (fun k hk hget => hwrong ⟨k, hk, hget⟩) fun _ => h
    · exact ⟨.ok res, by rw [hout], Or.inr ⟨hwrong, res, rfl, hsized, hhas⟩⟩
    · exact absurd h hnone

end SetOp

/-! ## The turns of a store command -/

/-- The checks of these keys, all at one clock reading. -/
def checksAt (now : Int) (args : List (Option Bytes)) : List (Bytes × Int) :=
  args.map fun arg => (str arg, now)

namespace SetOp

/-- The number of turns between the read and the write: the second check of the
    destination, and for SUNIONSTORE the lock it gives back at once and the look at
    the destination outside of it. -/
def between : SetOp → Nat
  | union => 3
  | inter => 1
  | diff => 1

/-- A store command that has its result. -/
def afterRead (op : SetOp) (des : Bytes) : Except Reply RedisSet → Cmd F writes Reply
  | .error reply => return reply
  | .ok res => do
    let _ ← checkTTL des
    op.store des res

/-- A store command that has found `keys` alive and has still to check `rest`. -/
def checkFrom (op : SetOp) (des : Bytes) (keys : List Bytes) (rest : List (Option Bytes)) :
    Cmd F writes Reply := do
  let more ← liveKeys rest
  if keys ++ more = [] then
    return intReply 0
  op.afterRead des (← op.compute (keys ++ more))

/-- A store command that has checked its destination. -/
def lookFrom (op : SetOp) (des : Bytes) (args : List (Option Bytes)) : Cmd F writes Reply := do
  if !(← holdsSet des) then
    return wrongTypeReply
  op.checkFrom des [] args

/-- The write of a result that has a member, and the reply. -/
def put (des : Bytes) (res : RedisSet) : Cmd F writes Reply := do
  if res.len ≠ 0 then
    set .set des res
  return intReply res.len

/-- The write phase, so many turns into it. -/
def storeFrom (op : SetOp) (des : Bytes) (res : RedisSet) : Nat → Cmd F writes Reply
  | 0 => op.store des res
  | 1 => storeSet des res
  | _ => put des res

theorem storing_eq (op : SetOp) (name des : Option Bytes) (args : List (Option Bytes)) :
    (storing (name :: des :: args) op.compute op.store : Cmd F writes Reply) =
      .op (.checkTTL (str des)) fun _ => op.lookFrom (str des) args := by
  simp only [storing, strAt, List.getElem?_cons_succ, List.getElem?_cons_zero, ret_bind, checkTTL,
    op_bind, List.drop_succ_cons, List.drop_zero]
  rfl

/-- Where a store command is after so many turns, what it has read, which keys it
    has checked, and what is left of it. -/
inductive Position (op : SetOp) (s : Store F) (now : Int) (name des : Option Bytes)
    (args : List (Option Bytes)) :
    Nat → Option (Except Reply RedisSet) → List (Bytes × Int) → Cmd F writes Reply → Prop
  | start : Position op s now name des args 0 none []
      (storing (name :: des :: args) op.compute op.store)
  | look : Position op s now name des args 1 none [] (op.lookFrom (str des) args)
  | sources (done rest : List (Option Bytes)) (h : args = done ++ rest) :
      Position op s now name des args (done.length + 2) none (checksAt now done)
        (op.checkFrom (str des) (s.kept (checksAt now done)) rest)
  | failed (n : Nat) (reply : Reply) (h : args.length + 3 ≤ n) :
      Position op s now name des args n (some (.error reply)) (checksAt now args) (.ret reply)
  | recheck (res : RedisSet) : Position op s now name des args (args.length + 3) (some (.ok res))
      (checksAt now args) (op.afterRead (str des) (.ok res))
  | write (m : Nat) (hm : m < op.between) (res : RedisSet) :
      Position op s now name des args (args.length + 4 + m) (some (.ok res)) (checksAt now args)
        (op.storeFrom (str des) res m)
  | done (n : Nat) (res : RedisSet) (h : args.length + 4 + op.between ≤ n) :
      Position op s now name des args n (some (.ok res)) (checksAt now args)
        (.ret (intReply res.len))

/-- What is read when the destination holds `set`. -/
def readWith (op : SetOp) (env : Env) (s : Store F) (now : Int) (des : Bytes)
    (args : List (Option Bytes)) (set : RedisSet) : Except Reply RedisSet :=
  match ((op.compute (s.kept (checksAt now args))).run (Op.step env)
    ⟨(s.checkAll (checksAt now args)).set des ⟨.set, set⟩, 0, 0⟩).1 with
  | .ok out => out
  | .error _ => .error none

/-- What the write phase makes of the destination: an empty result is not
    written. -/
def writeOver : Except Reply RedisSet → RedisSet → RedisSet
  | .error _, set => set
  | .ok res, set => if res.len ≠ 0 then res else set

/-- A store command, as far as its destination is concerned. -/
def late (op : SetOp) (env : Env) (s : Store F) (now : Int) (des : Bytes)
    (args : List (Option Bytes)) : LateWrite RedisSet (Except Reply RedisSet) where
  before := args.length + 2
  between := op.between
  read := op.readWith env s now des args
  write := writeOver

/-- The program and the store of a store command that runs as a late write: the
    store is the one it started on, without the due keys it has checked, and with
    the cell at the destination. -/
def At (op : SetOp) (s : Store F) (now : Int) (name des : Option Bytes) (args : List (Option Bytes))
    (x : LateWrite.State RedisSet (Except Reply RedisSet)) (p : Cmd F writes Reply) (w : World F) :
    Prop :=
  ∃ checks, w.store.Same ((s.checkAll checks).set (str des) ⟨.set, x.cell⟩) ∧
    op.Position s now name des args x.turns x.got checks p

section Turns

variable {op : SetOp} {env : Env} {s : Store F} {now : Int} {name des : Option Bytes}
  {args : List (Option Bytes)} {checks : List (Bytes × Int)} {set : RedisSet} {w : World F}

/-- The destination is not due while the command runs. -/
theorem not_due_des (hsteady : s.Steady env now (str des :: args.map str))
    (hdes : ¬ s.Due (str des) now)
    (h : w.store.Same ((s.checkAll checks).set (str des) ⟨.set, set⟩)) (t : Nat) :
    ¬ w.store.Due (str des) (env.clock t) := by
  intro hdue
  have hchecked : (s.checkAll checks).Due (str des) (env.clock t) := h.due_iff.mp hdue
  exact hdes ((hsteady _ List.mem_cons_self t).mp (Store.due_checkAll.mp hchecked).1)

theorem get_des (h : w.store.Same ((s.checkAll checks).set (str des) ⟨.set, set⟩)) :
    w.store.get .set (str des) = .found set := by
  refine (h.get .set (str des)).trans (Store.get_eq_found.mpr ?_)
  simp

/-- The first turn: the check of the destination. -/
theorem turn_start (hdue : ¬ w.store.Due (str des) (env.clock w.tick)) :
    (storing (name :: des :: args) op.compute op.store).turn (Op.step env) Op.lockUse false w =
      (op.lookFrom (str des) args, ⟨w.store, w.tick + 1, w.draws⟩) := by
  rw [storing_eq, turn_outside rfl, Op.step_checkTTL, Store.checkTTL_of_not_due hdue]

/-- The second: the look at it. -/
theorem turn_lookFrom (hget : w.store.get .set (str des) = .found set) :
    (op.lookFrom (str des) args).turn (Op.step env) Op.lockUse false w =
      (op.checkFrom (str des) [] args, ⟨w.store, w.tick + 1, w.draws⟩) := by
  simp only [lookFrom, holdsSet, get, op_bind, ret_bind]
  rw [turn_outside rfl, Op.step_get, hget]
  rfl

/-- One of the next: the check of a source. -/
theorem turn_checkFrom (keys : List Bytes) (k : Option Bytes) (rest : List (Option Bytes)) :
    (op.checkFrom (str des) keys (k :: rest)).turn (Op.step env) Op.lockUse false w =
      (op.checkFrom (str des) (keys ++ if (w.store.checkTTL (str k) (env.clock w.tick)).1 then
          [str k] else []) rest,
        ⟨(w.store.checkTTL (str k) (env.clock w.tick)).2, w.tick + 1, w.draws⟩) := by
  simp only [checkFrom, liveKeys, checkTTL, op_bind, ret_bind, bind_bind, pure_eq]
  rw [turn_outside rfl, Op.step_checkTTL]
  cases (w.store.checkTTL (str k) (env.clock w.tick)).1 with
  | true => simp
  | false => simp

/-- The read is one turn. -/
theorem turn_read {keys : List Bytes} (hne : keys ≠ []) {out : Except Reply RedisSet} {w' : World F}
    (hrun : (op.compute keys).run (Op.step env) w = (.ok out, w')) :
    (op.checkFrom (str des) keys []).turn (Op.step env) Op.lockUse false w =
      (op.afterRead (str des) out, w') := by
  obtain ⟨body, hbody, hin⟩ := op.compute_inside (F := F) hne
  have hprog : op.checkFrom (F := F) (str des) keys [] =
      op.compute keys >>= op.afterRead (str des) := by
    simp only [checkFrom, liveKeys, ret_bind, pure_eq, List.append_nil]
    rw [if_neg hne]
  rw [hbody, run_op] at hrun
  rw [hprog, hbody, op_bind, turn_take rfl]
  exact hin.turn hrun _

/-- The second check of the destination. -/
theorem turn_recheck (hdue : ¬ w.store.Due (str des) (env.clock w.tick)) (res : RedisSet) :
    (op.afterRead (str des) (.ok res)).turn (Op.step env) Op.lockUse false w =
      (op.store (str des) res, ⟨w.store, w.tick + 1, w.draws⟩) := by
  simp only [afterRead, checkTTL, op_bind, ret_bind]
  rw [turn_outside rfl, Op.step_checkTTL, Store.checkTTL_of_not_due hdue]

theorem storeSet_uses (des : Bytes) (res : RedisSet) :
    (storeSet des res : Cmd F writes Reply).Uses fun o => o.lockUse = .none := by
  have hholds : (holdsSet des : Cmd F writes Bool).Uses fun o => o.lockUse = .none :=
    ⟨rfl, fun r => by cases r <;> trivial⟩
  refine hholds.bind fun ok => ?_
  cases ok with
  | false => trivial
  | true =>
    by_cases hlen : res.len ≠ 0
    · rw [if_pos hlen]
      exact ⟨rfl, fun _ => trivial⟩
    · rw [if_neg hlen]
      trivial

/-- The turns of the write phase before the last one leave the store alone. -/
theorem turn_storeFrom (op : SetOp) (env : Env) {m : Nat} (hm : m + 1 < op.between)
    (hget : w.store.get .set (str des) = .found set) (res : RedisSet) : ∃ t,
    (op.storeFrom (str des) res m).turn (Op.step env) Op.lockUse false w =
      (op.storeFrom (str des) res (m + 1), ⟨w.store, t, w.draws⟩) := by
  cases op with
  | inter => exact absurd hm (by simp [between])
  | diff => exact absurd hm (by simp [between])
  | union =>
    rcases m with _ | _ | m
    · exact ⟨w.tick + 1 + 1, rfl⟩
    · refine ⟨w.tick + 1, ?_⟩
      simp only [storeFrom, storeSet, holdsSet, get, op_bind, ret_bind]
      rw [turn_outside rfl, Op.step_get, hget]
      rfl
    · exact absurd hm (by simp [between])

/-- The last one writes the result, if it has a member. -/
theorem turn_storeFrom_last (op : SetOp) (env : Env) {m : Nat} (hm : m + 1 = op.between)
    (hget : w.store.get .set (str des) = .found set) (res : RedisSet) : ∃ t,
    (op.storeFrom (str des) res m).turn (Op.step env) Op.lockUse false w =
      (.ret (intReply res.len),
        ⟨if res.len ≠ 0 then w.store.set (str des) ⟨.set, res⟩ else w.store, t, w.draws⟩) := by
  have hlocked : ∃ t, (withLock (str des) (storeSet (str des) res)).turn (Op.step env) Op.lockUse
      false w = (.ret (intReply res.len),
        ⟨if res.len ≠ 0 then w.store.set (str des) ⟨.set, res⟩ else w.store, t, w.draws⟩) := by
    obtain ⟨t, hrun⟩ := run_storeSet env (str des) res ⟨w.store, w.tick + 1, w.draws⟩
      (by rw [hget]; exact fun h => by cases h)
    rw [withLock, withLocks, turn_take rfl, Op.step_lock, turn_defer rfl (storeSet_uses _ _), hrun]
    exact ⟨_, rfl⟩
  cases op with
  | inter =>
    obtain rfl : m = 0 := by simpa [between] using hm
    exact hlocked
  | diff =>
    obtain rfl : m = 0 := by simpa [between] using hm
    exact hlocked
  | union =>
    obtain rfl : m = 2 := by simpa [between] using hm
    by_cases hlen : res.len ≠ 0
    · refine ⟨w.tick + 1, ?_⟩
      show (put (str des) res).turn _ _ _ _ = _
      rw [put, if_pos hlen, if_pos hlen]
      rfl
    · refine ⟨w.tick, ?_⟩
      show (put (str des) res).turn _ _ _ _ = _
      rw [put, if_neg hlen, if_neg hlen]
      rfl

end Turns

/-! ## A store command is a late write -/

section Simulation

variable {op : SetOp} {env : Env} {s : Store F} {now : Int} {name des : Option Bytes}
  {args : List (Option Bytes)}

theorem des_mem_kept (hdes : ¬ s.Due (str des) now) (hmem : str des ∈ args.map str) :
    str des ∈ s.kept (checksAt now args) := by
  obtain ⟨arg, harg, hstr⟩ := List.mem_map.mp hmem
  have hcheck : (str des, now) ∈ checksAt now args := List.mem_map.mpr ⟨arg, harg, by rw [hstr]⟩
  refine (Store.popped_or_mem_kept hcheck).resolve_left ?_
  rintro ⟨n, hn, hdue⟩
  obtain ⟨_, -, heq⟩ := List.mem_map.mp hn
  obtain rfl : now = n := (Prod.mk.inj heq).2
  exact hdes hdue

/-- What the read phase gives, in every store with the same content. -/
theorem run_compute_readWith (op : SetOp) (env : Env) (hdes : ¬ s.Due (str des) now)
    (hmem : str des ∈ args.map str) {set : RedisSet} {w : World F}
    (h : w.store.Same ((s.checkAll (checksAt now args)).set (str des) ⟨.set, set⟩)) : ∃ w',
    (op.compute (s.kept (checksAt now args))).run (Op.step env) w =
        (.ok (op.readWith env s now (str des) args set), w') ∧ w'.store = w.store := by
  obtain ⟨hout, hstore⟩ := op.run_compute_same env (s.kept (checksAt now args)) (w := w)
    (v := ⟨(s.checkAll (checksAt now args)).set (str des) ⟨.set, set⟩, 0, 0⟩) h
  obtain ⟨out, hok, -⟩ := op.run_compute_found env w
    ⟨str des, des_mem_kept hdes hmem, set, get_des h⟩
  refine ⟨_, Prod.ext ?_ rfl, hstore⟩
  rw [readWith, ← hout, hok]

/-- **Simulation**: every turn of a store command is a step of the late write. -/
theorem At.turn (hsteady : s.Steady env now (str des :: args.map str))
    (hdes : ¬ s.Due (str des) now) (hmem : str des ∈ args.map str)
    (x : LateWrite.State RedisSet (Except Reply RedisSet)) (p : Cmd F writes Reply) (w : World F)
    (h : op.At s now name des args x p w) :
    op.At s now name des args ((op.late env s now (str des) args).step x)
      (p.turn (Op.step env) Op.lockUse false w).1 (p.turn (Op.step env) Op.lockUse false w).2 := by
  obtain ⟨n, got, set⟩ := x
  obtain ⟨checks, hsame, hpos⟩ := h
  dsimp only at hsame hpos
  have hdue := not_due_des hsteady hdes hsame w.tick
  have hget := get_des hsame
  cases hpos with
  | start =>
    rw [turn_start hdue, LateWrite.step_quiet (by simp [late]) (by simp [late])]
    exact ⟨[], hsame, .look⟩
  | look =>
    rw [turn_lookFrom hget, LateWrite.step_quiet (by simp [late]) (by simp [late])]
    exact ⟨[], hsame, .sources [] args rfl⟩
  | sources done rest hargs =>
    cases rest with
    | cons k rest =>
      have hk : str k ∈ str des :: args.map str := by simp [hargs]
      have hlen : done.length < args.length := by simp [hargs]
      -- the check is that of the store without the keys checked before
      have hsteady' : (s.checkAll (checksAt now done)).Due (str k) (env.clock w.tick) ↔
          (s.checkAll (checksAt now done)).Due (str k) now := by
        rw [Store.due_checkAll, Store.due_checkAll, hsteady _ hk]
      have hdes' : ¬ (s.checkAll (checksAt now done)).Due (str des) (env.clock w.tick) :=
        fun h => hdes ((hsteady _ List.mem_cons_self _).mp (Store.due_checkAll.mp h).1)
      obtain ⟨hfst, hsnd⟩ := hsame.checkTTL (str k) (env.clock w.tick)
      obtain ⟨hfst', hsnd'⟩ :=
        Store.check_set (v := ⟨.set, set⟩) hsteady' hdes'
      have hchecks : checksAt now (done ++ [k]) = checksAt now done ++ [(str k, now)] := by
        simp [checksAt]
      rw [turn_checkFrom, LateWrite.step_quiet (by simp [late]; omega) (by simp [late]; omega),
        hfst.trans hfst']
      refine ⟨checksAt now (done ++ [k]), ?_, ?_⟩
      · rw [hchecks, Store.checkAll_append]
        exact hsnd.trans hsnd'
      · have hpos : op.Position s now name des args _ none _ _ :=
          .sources (done ++ [k]) rest (by simp [hargs])
        rw [List.length_append, hchecks, Store.kept_append] at hpos
        rw [hchecks]
        exact hpos
    | nil =>
      obtain rfl : args = done := by simpa using hargs
      obtain ⟨w', hrun, hstore⟩ := run_compute_readWith op env hdes hmem hsame
      rw [turn_read (List.ne_nil_of_mem (des_mem_kept hdes hmem)) hrun,
        LateWrite.step_read (l := op.late env s now (str des) args) (n := args.length + 2) rfl]
      refine ⟨checksAt now args, by rw [hstore]; exact hsame, ?_⟩
      show Position _ _ _ _ _ _ _ (some (op.readWith env s now (str des) args set)) _ _
      cases op.readWith env s now (str des) args set with
      | error reply => exact .failed _ reply (Nat.le_refl _)
      | ok res => exact .recheck res
  | failed _ reply hn =>
    by_cases hlast : n = args.length + 2 + op.between + 1
    · rw [LateWrite.step_write (l := op.late env s now (str des) args) hlast]
      exact ⟨_, hsame, .failed _ reply (by dsimp only; omega)⟩
    · rw [LateWrite.step_quiet (by simp [late]; omega) (by simpa [late] using hlast)]
      exact ⟨_, hsame, .failed _ reply (by dsimp only; omega)⟩
  | recheck res =>
    rw [turn_recheck hdue, LateWrite.step_quiet (by simp [late])
      (by cases op <;> simp [late, between])]
    exact ⟨_, hsame, .write 0 (by cases op <;> simp [between]) res⟩
  | write m hm res =>
    by_cases hlast : m + 1 = op.between
    · obtain ⟨t, hturn⟩ := turn_storeFrom_last op env hlast hget res
      rw [hturn, LateWrite.step_write (l := op.late env s now (str des) args)
        (by simp [late]; omega)]
      refine ⟨_, ?_, .done _ res (by dsimp only; omega)⟩
      show Store.Same (if _ then _ else _) (Store.set _ _ ⟨.set, if _ then _ else _⟩)
      by_cases hlen : res.len ≠ 0
      · rw [if_pos hlen, if_pos hlen]
        refine (hsame.set (str des) ⟨.set, res⟩).trans fun k => ⟨?_, rfl⟩
        by_cases hk : k = str des
        · simp [hk]
        · simp [hk]
      · rw [if_neg hlen, if_neg hlen]
        exact hsame
    · obtain ⟨t, hturn⟩ := turn_storeFrom op env (m := m) (by omega) hget res
      rw [hturn, LateWrite.step_quiet (by simp [late]; omega) (by simp [late]; omega)]
      exact ⟨_, hsame, .write (m + 1) (by omega) res⟩
  | done _ res hn =>
    rw [LateWrite.step_quiet (by simp [late]; omega) (by simp [late]; omega)]
    exact ⟨_, hsame, .done _ res (by dsimp only; omega)⟩

end Simulation

end SetOp

/-! ## SADD -/

/-- SADD between the check of its key and its section. -/
def addLocked (key : Bytes) (members : List (Option Bytes)) : Cmd F writes Reply :=
  withLock key do
    match ← getOrCreate .set key newSet with
    | .found set =>
      let r := memberLoop RedisSet.add set members
      update .set key r.1
      return intReply r.2
    | _ => return wrongTypeReply

theorem sAddSet_eq [UnicodeTables] {name des x : Option Bytes}
    (hname : toLower (str name) = ascii "sadd") :
    (sAddSet [name, des, x] : Cmd F writes Reply) =
      .op (.checkTTL (str des)) fun _ => addLocked (str des) [x] := by
  rw [sAddSet, named_cons hname]
  rfl

section Add

variable {env : Env} {key : Bytes} {set : RedisSet} {w : World F}

/-- The check of a key that is not due. -/
theorem turn_sAddSet [UnicodeTables] {name des x : Option Bytes}
    (hname : toLower (str name) = ascii "sadd")
    (hdue : ¬ w.store.Due (str des) (env.clock w.tick)) :
    (sAddSet [name, des, x]).turn (Op.step env) Op.lockUse false w =
      (addLocked (str des) [x], ⟨w.store, w.tick + 1, w.draws⟩) := by
  rw [sAddSet_eq hname, turn_outside rfl, Op.step_checkTTL, Store.checkTTL_of_not_due hdue]

/-- The section, which adds one member to the set. -/
theorem turn_addLocked (env : Env) (x : Option Bytes) (hget : w.store.get .set key = .found set) :
    ∃ t, (addLocked key [x]).turn (Op.step env) Op.lockUse false w =
      (.ret (intReply (set.add (str x)).2),
        ⟨w.store.set key ⟨.set, (set.add (str x)).1⟩, t, w.draws⟩) := by
  have hupdate : w.store.update key ⟨.set, (set.add (str x)).1⟩ =
      w.store.set key ⟨.set, (set.add (str x)).1⟩ := by
    rw [Store.update, if_pos]
    rw [Store.get_eq_found.mp hget]
    rfl
  refine ⟨w.tick + 1 + 1 + 1 + 1, ?_⟩
  simp only [addLocked, withLock, withLocks, getOrCreate, get, update, op_bind, ret_bind, op_defer]
  rw [turn_take rfl, turn_inside rfl, Op.step_lock, Op.step_get, hget]
  simp only [pure_eq, ret_bind, op_defer, memberLoop, Int.add_zero]
  rw [turn_inside rfl, Op.step_update, hupdate]
  rfl

end Add

/-! ## Together -/

namespace SetOp

variable {op : SetOp} {env : Env} {s : Store F} {now : Int} {name des : Option Bytes}
  {args : List (Option Bytes)} {x : LateWrite.State RedisSet (Except Reply RedisSet)}
  {p : Cmd F writes Reply} {w w' : World F}

/-- What a store command replies for what it has read. -/
def replyOf : Except Reply RedisSet → Reply
  | .error reply => reply
  | .ok res => intReply res.len

theorem At.start {set : RedisSet} (h : w.store.get .set (str des) = .found set) :
    op.At w.store now name des args ⟨0, none, set⟩
      (storing (name :: des :: args) op.compute op.store) w := by
  refine ⟨[], fun k => ⟨?_, rfl⟩, .start⟩
  rw [Store.checkAll, Store.set_db]
  by_cases hk : k = str des
  · rw [if_pos hk, hk, Store.get_eq_found.mp h]
  · rw [if_neg hk]

theorem At.of_store_eq (h : op.At s now name des args x p w) (hw : w'.store = w.store) :
    op.At s now name des args x p w' := by
  obtain ⟨checks, hsame, hpos⟩ := h
  exact ⟨checks, by rw [hw]; exact hsame, hpos⟩

theorem At.get (h : op.At s now name des args x p w) :
    w.store.get .set (str des) = .found x.cell := by
  obtain ⟨checks, hsame, -⟩ := h
  exact get_des hsame

theorem At.not_due (h : op.At s now name des args x p w)
    (hsteady : s.Steady env now (str des :: args.map str)) (hdes : ¬ s.Due (str des) now)
    (t : Nat) :
    ¬ w.store.Due (str des) (env.clock t) := by
  obtain ⟨checks, hsame, -⟩ := h
  exact not_due_des hsteady hdes hsame t

theorem At.liveSet (h : op.At s now name des args x p w) (hdes : ¬ s.Due (str des) now) :
    w.store.LiveSet now (str des) x.cell := by
  refine Store.liveSet_iff.mpr ⟨?_, h.get⟩
  obtain ⟨checks, hsame, -⟩ := h
  intro hdue
  have hchecked : (s.checkAll checks).Due (str des) now := hsame.due_iff.mp hdue
  exact hdes (Store.due_checkAll.mp hchecked).1

/-- Another client has changed the destination. -/
theorem At.change (h : op.At s now name des args x p w) {f : RedisSet → RedisSet}
    (hw : w'.store = w.store.set (str des) ⟨.set, f x.cell⟩) :
    op.At s now name des args (x.change f) p w' := by
  obtain ⟨checks, hsame, hpos⟩ := h
  refine ⟨checks, ?_, hpos⟩
  rw [hw]
  refine (hsame.set (str des) ⟨.set, f x.cell⟩).trans fun k => ⟨?_, rfl⟩
  by_cases hk : k = str des
  · simp [hk, LateWrite.State.change]
  · simp [hk]

/-- A store command that has had its turns has returned. -/
theorem At.finished (h : op.At s now name des args x p w)
    (hn : args.length + op.between + 4 ≤ x.turns) {out : Except Reply RedisSet}
    (hgot : x.got = some out) : p = .ret (replyOf out) := by
  obtain ⟨n, got, set⟩ := x
  obtain ⟨checks, -, hpos⟩ := h
  dsimp only at hn hgot hpos
  subst hgot
  cases hpos with
  | failed _ reply _ => rfl
  | recheck res => omega
  | write m hm res => omega
  | done _ res _ => rfl

end SetOp

/-- How many turns the store command has had when SADD's section comes: SADD has
    a turn for the check of its key before. -/
def turnsBeforeAdd (order : List Bool) : Nat :=
  let i := (order.takeWhile fun who => !who).length
  i + ((order.drop (i + 1)).takeWhile fun who => !who).length

/-- An order in which SADD comes to its end, up to its section. -/
theorem order_split_two {order : List Bool} (h : 2 ≤ order.count true) : ∃ i j rest,
    order = List.replicate i false ++ true :: (List.replicate j false ++ true :: rest) ∧
      turnsBeforeAdd order = i + j ∧ order.count false = i + j + rest.count false := by
  obtain ⟨rest, hsplit, hcount⟩ := order_split
    (List.count_pos_iff.mp (by omega : 0 < order.count true))
  have hdrop : order.drop ((order.takeWhile fun who => !who).length + 1) = rest := by
    conv_lhs => rw [hsplit]
    simp [List.drop_append]
  have hturns : turnsBeforeAdd order = (order.takeWhile fun who => !who).length +
      (rest.takeWhile fun who => !who).length := by
    rw [turnsBeforeAdd, hdrop]
  have hrest : true ∈ rest := by
    rw [hsplit, List.count_append, List.count_cons_self, List.count_replicate] at h
    exact List.count_pos_iff.mp (by simpa using h)
  obtain ⟨rest', hsplit', hcount'⟩ := order_split hrest
  exact ⟨_, _, rest', hsplit.trans (by rw [← hsplit']), hturns, by omega⟩

section Race

variable [UnicodeTables]

/-- **The interleaving is that of a late write and a change of its cell.** -/
theorem race (op : SetOp) (env : Env) (name name' des member : Option Bytes)
    {args : List (Option Bytes)} {w : World F} {now : Int} {set : RedisSet}
    (hname : toLower (str name) = ascii "sadd") (hmem : str des ∈ args.map str)
    (hsteady : w.store.Steady env now (str des :: args.map str))
    (hdes : ¬ w.store.Due (str des) now) (hget : w.store.get .set (str des) = .found set)
    {order : List Bool} (hadds : 2 ≤ order.count true) :
    let y := Race.run env order
      ⟨sAddSet [name, des, member], storing (name' :: des :: args) op.compute op.store, w⟩
    let l := op.late env w.store now (str des) args
    let x := l.step^[turnsBeforeAdd order] ⟨0, none, set⟩
    y.first = .ret (intReply (x.cell.add (str member)).2) ∧
      op.At w.store now name' des args
        (l.step^[order.count false - turnsBeforeAdd order]
          (x.change fun set => (set.add (str member)).1)) y.second y.state := by
  intro y l x
  obtain ⟨i, j, rest, horder, hturns, hcount⟩ := order_split_two hadds
  have hsim : ∀ x p w', op.At w.store now name' des args x p w' →
      op.At w.store now name' des args (l.step x) (p.turn (Op.step env) Op.lockUse false w').1
        (p.turn (Op.step env) Op.lockUse false w').2 := SetOp.At.turn hsteady hdes hmem
  -- up to the check of SADD
  have hstart := turns_simulate hsim i
    (x := (storing (name' :: des :: args) op.compute op.store, w)) (SetOp.At.start hget)
  generalize hx₁ : l.step^[i] ⟨0, none, set⟩ = x₁ at hstart
  generalize hp₁ : turns (Op.step env) Op.lockUse i
    (storing (name' :: des :: args) op.compute op.store, w) = p₁ at hstart
  have hcheck := turn_sAddSet (x := member) hname (hstart.not_due hsteady hdes p₁.2.tick)
  -- from there to its section
  have hmiddle := turns_simulate hsim j (x := (p₁.1, ⟨p₁.2.store, p₁.2.tick + 1, p₁.2.draws⟩))
    (hstart.of_store_eq rfl)
  generalize hp₂ : turns (Op.step env) Op.lockUse j
    (p₁.1, (⟨p₁.2.store, p₁.2.tick + 1, p₁.2.draws⟩ : World F)) = p₂ at hmiddle
  have hx : l.step^[j] x₁ = x := by
    rw [← hx₁, ← Function.iterate_add_apply, Nat.add_comm j, ← hturns]
  rw [hx] at hmiddle
  obtain ⟨t, hadd⟩ := turn_addLocked env member hmiddle.get
  -- and after it
  have hlast := turns_simulate hsim (rest.count false)
    (x := (p₂.1, ⟨_, t, p₂.2.draws⟩)) (hmiddle.change
      (f := fun set => (set.add (str member)).1) rfl)
  have hy : y = Race.run env rest
      ⟨.ret (intReply (x.cell.add (str member)).2), p₂.1,
        ⟨p₂.2.store.set (str des) ⟨.set, (x.cell.add (str member)).1⟩, t, p₂.2.draws⟩⟩ := by
    show interleave _ _ _ _ order _ = _
    rw [horder, interleave_append, interleave_second]
    dsimp only
    rw [hp₁]
    show interleave _ _ _ _ (List.replicate j false ++ true :: rest) _ = _
    dsimp only
    rw [hcheck, interleave_append, interleave_second]
    dsimp only
    rw [hp₂]
    show interleave _ _ _ _ rest _ = _
    dsimp only
    rw [hadd]
  have hrest : order.count false - turnsBeforeAdd order = rest.count false := by omega
  rw [hy, Race.run, interleave_returned, hrest]
  exact ⟨rfl, hlast⟩

end Race

/-! ## The two serial orders -/

section Serial

variable [UnicodeTables] {op : SetOp} {env : Env} {s : Store F} {now : Int}
  {name name' des : Option Bytes} {args : List (Option Bytes)} {w : World F} {set : RedisSet}

/-- SADD on its own. -/
theorem run_sAddSet (member : Option Bytes) (hname : toLower (str name) = ascii "sadd")
    (hdue : ¬ w.store.Due (str des) (env.clock w.tick))
    (hget : w.store.get .set (str des) = .found set) : ∃ w',
    (sAddSet [name, des, member]).run (Op.step env) w =
      (.ok (intReply (set.add (str member)).2), w') ∧
      w'.store = w.store.set (str des) ⟨.set, (set.add (str member)).1⟩ := by
  obtain ⟨t, hadd⟩ := turn_addLocked (w := ⟨w.store, w.tick + 1, w.draws⟩) env member hget
  have hturns : turns (Op.step env) Op.lockUse 2 (sAddSet [name, des, member], w) =
      (.ret (intReply (set.add (str member)).2),
        ⟨w.store.set (str des) ⟨.set, (set.add (str member)).1⟩, t, w.draws⟩) := by
    rw [turns, turn_sAddSet hname hdue, turns, hadd]
    rfl
  exact ⟨_, run_of_turns hturns, rfl⟩

omit [UnicodeTables] in
/-- A store command on its own. -/
theorem run_stored (hsteady : s.Steady env now (str des :: args.map str))
    (hdes : ¬ s.Due (str des) now) (hmem : str des ∈ args.map str)
    (h : op.At s now name des args ⟨0, none, set⟩
      (storing (name :: des :: args) op.compute op.store) w) :
    let out := op.readWith env s now (str des) args set
    ∃ w' n, (storing (name :: des :: args) op.compute op.store).run (Op.step env) w =
        (.ok (SetOp.replyOf out), w') ∧
      op.At s now name des args ⟨n, some out, SetOp.writeOver out set⟩ (.ret (SetOp.replyOf out))
        w' := by
  intro out
  have hturns := turns_simulate (SetOp.At.turn hsteady hdes hmem) (args.length + op.between + 4)
    (x := (storing (name :: des :: args) op.compute op.store, w)) h
  rw [LateWrite.steps_read (Nat.zero_le _) (by simp only [SetOp.late]; omega)] at hturns
  have hret := hturns.finished (by simp only; omega) rfl
  rw [hret] at hturns
  exact ⟨_, _, run_of_turns (Prod.ext hret rfl), hturns⟩

end Serial

/-! ## When the interleaving is a serial order -/

/-- The members of the set at a live key. -/
def Store.Member (s : Store F) (now : Int) (k x : Bytes) : Prop :=
  ∃ set, s.LiveSet now k set ∧ set.has x = true

theorem Store.LiveSet.unique {s : Store F} {now : Int} {k : Bytes} {a b : RedisSet}
    (ha : s.LiveSet now k a) (hb : s.LiveSet now k b) : a = b :=
  Found.found.inj ((Store.liveSet_iff.mp ha).2.symm.trans (Store.liveSet_iff.mp hb).2)

theorem Store.LiveSet.member_iff {s : Store F} {now : Int} {k x : Bytes} {set : RedisSet}
    (h : s.LiveSet now k set) : s.Member now k x ↔ set.has x = true := by
  refine ⟨?_, fun hx => ⟨set, h, hx⟩⟩
  rintro ⟨set', h', hx⟩
  rwa [h.unique h']

/-- Two clients have ended with these replies, and the members of `des` are those
    in `s`. -/
structure EndsAs (y : Race F writes writes)
    (now : Int) (des : Bytes) (add store : Except Abort Reply) (s : Store F) : Prop where
  add : ∃ r, add = .ok r ∧ y.first = .ret r
  store : ∃ r, store = .ok r ∧ y.second = .ret r
  members : ∀ x, y.state.store.Member now des x ↔ s.Member now des x

theorem endsAs_iff {y : Race F writes writes}
    {now : Int} {des : Bytes} {r r' a b : Reply} {s : Store F} {set set' : RedisSet}
    (hfirst : y.first = .ret r) (hsecond : y.second = .ret r')
    (hy : y.state.store.LiveSet now des set) (hs : s.LiveSet now des set') :
    EndsAs y now des (.ok a) (.ok b) s ↔ r = a ∧ r' = b ∧ ∀ x, set.has x = set'.has x := by
  have hmembers : (∀ x, y.state.store.Member now des x ↔ s.Member now des x) ↔
      ∀ x, set.has x = set'.has x :=
    forall_congr' fun x => by rw [hy.member_iff, hs.member_iff, ← Bool.eq_iff_iff]
  constructor
  · rintro ⟨⟨_, hr, hy₁⟩, ⟨_, hr', hy₂⟩, hm⟩
    cases hr
    cases hr'
    rw [hfirst] at hy₁
    rw [hsecond] at hy₂
    exact ⟨Prog.ret.inj hy₁, Prog.ret.inj hy₂, hmembers.mp hm⟩
  · rintro ⟨rfl, rfl, hm⟩
    exact ⟨⟨_, rfl, hfirst⟩, ⟨_, rfl, hsecond⟩, hmembers.mpr hm⟩

theorem intReply_one_ne : intReply 1 ≠ intReply 0 := fun h =>
  absurd (RedisData.intData.inj (Option.some.inj h)) (by decide)

section Lost

variable {set : RedisSet} {x : Bytes} {out out' : Except Reply RedisSet} {W : Prop}
  {R R' : Bytes → Prop}

/-- What a read phase gives: nothing to store, if `W`; else a set with the members
    `R`. -/
def Reads (W : Prop) (R : Bytes → Prop) (out : Except Reply RedisSet) : Prop :=
  W ∧ SetOp.Fails out ∨
    ¬ W ∧ ∃ res, out = .ok res ∧ res.Sized ∧ ∀ x, res.has x = true ↔ R x

theorem SetOp.Fails.writeOver (h : SetOp.Fails out) (set : RedisSet) :
    SetOp.writeOver out set = set := by
  cases out with
  | error reply => rfl
  | ok res => exact if_neg (not_not.mpr (h res rfl))

/-- Sets with the same members have the same size. -/
theorem RedisSet.Sized.len_eq {a b : RedisSet} (ha : a.Sized) (hb : b.Sized)
    (h : ∀ x, a.has x = b.has x) : a.len = b.len := by
  have hperm : a.table.keys.Perm b.table.keys :=
    (List.perm_ext_iff_of_nodup a.table.keys_nodup b.table.keys_nodup).mpr fun x => by
      rw [← RedisSet.has_iff, ← RedisSet.has_iff, h]
  rw [RedisSet.len, RedisSet.len, ha, hb, hperm.length_eq]

theorem RedisSet.Sized.len_singleton {a : RedisSet} (ha : a.Sized)
    (h : ∀ y, a.has y = true ↔ y = x) : a.len = 1 := by
  have hperm : a.table.keys.Perm [x] :=
    (List.perm_ext_iff_of_nodup a.table.keys_nodup (List.nodup_singleton x)).mpr fun y => by
      rw [← RedisSet.has_iff, h, List.mem_singleton]
  rw [RedisSet.len, ha, hperm.length_eq]
  rfl

theorem RedisSet.Sized.exists_has {a : RedisSet} (ha : a.Sized) (h : a.len ≠ 0) :
    ∃ y, a.has y = true := by
  by_contra hno
  push Not at hno
  exact h (ha.len_eq_zero.mpr fun y => Bool.eq_false_iff.mpr (hno y))

/-- SADD between the read and the write: the outcome is that of SADD first, or
    that of SADD last, exactly when nothing is written, or the result is the same
    with the new member. -/
theorem between_serial_iff (hout : Reads W R out) (hout' : Reads W R' out')
    (hother : ∀ y, y ≠ x → (R' y ↔ R y)) (hhas : set.has x = true → ∀ y, R' y ↔ R y) :
    (SetOp.replyOf out = SetOp.replyOf out' ∧ ∀ y, (SetOp.writeOver out (set.add x).1).has y =
          (SetOp.writeOver out' (set.add x).1).has y) ∨
        (intReply (set.add x).2 = intReply ((SetOp.writeOver out set).add x).2 ∧
          ∀ y, (SetOp.writeOver out (set.add x).1).has y =
            ((SetOp.writeOver out set).add x).1.has y) ↔
      W ∨ (∀ y, ¬ R y) ∨ ∀ y, R' y ↔ R y := by
  rcases hout with ⟨hW, hfails⟩ | ⟨hW, res, rfl, hsized, hres⟩
  · rw [hfails.writeOver, hfails.writeOver]
    exact iff_of_true (Or.inr ⟨rfl, fun _ => rfl⟩) (Or.inl hW)
  obtain ⟨-, res', rfl, hsized', hres'⟩ := hout'.resolve_left fun h => hW h.1
  by_cases hlen : res.len = 0
  · -- the result is empty, and not written
    have hfails : SetOp.Fails (.ok res) := fun _ h => by cases h; exact hlen
    have hnone : ∀ y, ¬ R y := fun y hy => by
      have hnot := hsized.len_eq_zero.mp hlen y
      rw [(hres y).mpr hy] at hnot
      cases hnot
    rw [hfails.writeOver, hfails.writeOver]
    exact iff_of_true (Or.inr ⟨rfl, fun _ => rfl⟩) (Or.inr (Or.inl hnone))
  obtain ⟨z, hz⟩ := hsized.exists_has hlen
  have hwrite : ∀ c, SetOp.writeOver (.ok res) c = res := fun c => if_pos hlen
  have hRHS : (W ∨ (∀ y, ¬ R y) ∨ ∀ y, R' y ↔ R y) ↔ ∀ y, R' y ↔ R y := by
    rw [or_iff_right hW, or_iff_right fun h => h z ((hres z).mp hz)]
  rw [hwrite, hwrite, hRHS]
  constructor
  · rintro (⟨hreply, hmembers⟩ | ⟨hadd, hmembers⟩)
    · by_cases hlen' : res'.len = 0
      · -- only the new member can have left the result, which then was all of it
        have honly : ∀ y, res.has y = true ↔ y = x := by
          have hempty : ∀ y, ¬ R' y := fun y hy => by
            have hnot := hsized'.len_eq_zero.mp hlen' y
            rw [(hres' y).mpr hy] at hnot
            cases hnot
          have hx : ∀ y, res.has y = true → y = x := fun y hy => by
            by_contra hne
            exact hempty y ((hother y hne).mpr ((hres y).mp hy))
          exact fun y => ⟨hx y, fun h => h ▸ hx z hz ▸ hz⟩
        rw [SetOp.replyOf, SetOp.replyOf, hlen', hsized.len_singleton honly] at hreply
        exact absurd hreply intReply_one_ne
      · have hwrite' : SetOp.writeOver (.ok res') (set.add x).1 = res' := if_pos hlen'
        rw [hwrite'] at hmembers
        intro y
        rw [← hres, ← hres', hmembers]
    · have hxres : res.has x = true := by
        rw [hmembers, RedisSet.has_add]
        simp
      have hxset : set.has x = true := by
        by_contra hno
        have hold : (res.add x).2 = 0 := by simp [RedisSet.add, hxres]
        have hnew : (set.add x).2 = 1 := by simp [RedisSet.add, hno]
        rw [hold, hnew] at hadd
        exact intReply_one_ne hadd
      exact hhas hxset
  · intro hsame
    have hmembers : ∀ y, res.has y = res'.has y := fun y => by
      rw [Bool.eq_iff_iff, hres, hres', hsame]
    have hlens := hsized.len_eq hsized' hmembers
    have hwrite' : SetOp.writeOver (.ok res') (set.add x).1 = res' := if_pos (hlens ▸ hlen)
    rw [hwrite', SetOp.replyOf, SetOp.replyOf, hlens]
    exact Or.inl ⟨rfl, hmembers⟩

end Lost

section Bridge

variable {s : Store F} {now : Int} {des : Option Bytes} {args : List (Option Bytes)}
  {set : RedisSet}

theorem popped_checksAt {k : Bytes} (hk : k ∈ args.map str) :
    s.Popped (checksAt now args) k ↔ s.Due k now := by
  constructor
  · rintro ⟨n, hn, hdue⟩
    obtain ⟨_, -, heq⟩ := List.mem_map.mp hn
    rwa [(Prod.mk.inj heq).2]
  · intro hdue
    obtain ⟨arg, harg, rfl⟩ := List.mem_map.mp hk
    exact ⟨now, List.mem_map.mpr ⟨arg, harg, rfl⟩, hdue⟩

theorem mem_of_mem_kept {k : Bytes} (hk : k ∈ s.kept (checksAt now args)) : k ∈ args.map str := by
  obtain ⟨before, n, after, heq, -⟩ := Store.mem_kept.mp hk
  have hmem : (k, n) ∈ checksAt now args := by simp [heq]
  obtain ⟨arg, harg, heq⟩ := List.mem_map.mp hmem
  exact List.mem_map.mpr ⟨arg, harg, (Prod.mk.inj heq).1⟩

/-- What the read phase finds at its keys, with `set` at the destination. -/
theorem lookup_read (hdes : ¬ s.Due (str des) now) {k : Bytes} (hk : k ∈ args.map str) :
    ((s.checkAll (checksAt now args)).set (str des) ⟨.set, set⟩).db.lookup k =
      if s.Due k now then none else (s.set (str des) ⟨.set, set⟩).db.lookup k := by
  rw [Store.set_db, Store.set_db]
  by_cases hkd : k = str des
  · rw [if_pos hkd, if_pos hkd, hkd, if_neg hdes]
  · rw [if_neg hkd, if_neg hkd]
    rcases s.checkAll_lookup (checksAt now args) k with ⟨h, hdb, -⟩ | ⟨h, hdb, -⟩
    · rw [hdb, if_pos ((popped_checksAt hk).mp h)]
    · rw [hdb, if_neg (mt (popped_checksAt hk).mpr h)]

theorem found_read_iff (hdes : ¬ s.Due (str des) now) {k : Bytes} (hk : k ∈ args.map str)
    (found : RedisSet) :
    ((s.checkAll (checksAt now args)).set (str des) ⟨.set, set⟩).get .set k = .found found ↔
      (s.set (str des) ⟨.set, set⟩).LiveSet now k found := by
  have hdue : (s.set (str des) ⟨.set, set⟩).Due k now ↔ s.Due k now := Iff.rfl
  rw [Store.liveSet_iff, Store.get_eq_found, Store.get_eq_found, lookup_read hdes hk, hdue]
  by_cases h : s.Due k now
  · simp [h]
  · rw [if_neg h, and_iff_right h]

theorem wrongType_read_iff (hdes : ¬ s.Due (str des) now) {old : RedisSet}
    (hget : s.get .set (str des) = .found old) :
    (∃ k ∈ s.kept (checksAt now args),
        ((s.checkAll (checksAt now args)).set (str des) ⟨.set, set⟩).get .set k = .wrongType) ↔
      ∃ k ∈ args.map str, ¬ s.Due k now ∧ s.get .set k = .wrongType := by
  have hat : ∀ k ∈ args.map str,
      (((s.checkAll (checksAt now args)).set (str des) ⟨.set, set⟩).get .set k = .wrongType ↔
        ¬ s.Due k now ∧ s.get .set k = .wrongType) := by
    intro k hk
    by_cases hkd : k = str des
    · subst hkd
      rw [Store.get_eq_wrongType, lookup_read hdes hk, if_neg hdes, hget]
      simp
    · rw [Store.get_eq_wrongType, Store.get_eq_wrongType, lookup_read hdes hk, Store.set_db,
        if_neg hkd]
      by_cases h : s.Due k now
      · simp [h]
      · simp [h]
  constructor
  · rintro ⟨k, hk, hwrong⟩
    exact ⟨k, mem_of_mem_kept hk, (hat k (mem_of_mem_kept hk)).mp hwrong⟩
  · rintro ⟨k, hk, hdue, hwrong⟩
    refine ⟨k, ?_, (hat k hk).mpr ⟨hdue, hwrong⟩⟩
    obtain ⟨arg, harg, rfl⟩ := List.mem_map.mp hk
    have hcheck : (str arg, now) ∈ checksAt now args := List.mem_map.mpr ⟨arg, harg, rfl⟩
    exact (Store.popped_or_mem_kept hcheck).resolve_left (mt (popped_checksAt hk).mp hdue)

/-- The read phase, with `set` at the destination. -/
theorem readWith_reads (op : SetOp) (env : Env) (hdes : ¬ s.Due (str des) now)
    (hmem : str des ∈ args.map str) {old : RedisSet} (hget : s.get .set (str des) = .found old)
    (set : RedisSet) :
    Reads (∃ k ∈ args.map str, ¬ s.Due k now ∧ s.get .set k = .wrongType)
      (fun x => op.Result ((s.set (str des) ⟨.set, set⟩).LiveSet now) x
        (s.kept (checksAt now args)))
      (op.readWith env s now (str des) args set) := by
  let w : World F := ⟨(s.checkAll (checksAt now args)).set (str des) ⟨.set, set⟩, 0, 0⟩
  have hsame : w.store.Same ((s.checkAll (checksAt now args)).set (str des) ⟨.set, set⟩) :=
    fun _ => ⟨rfl, rfl⟩
  obtain ⟨out, hout, hends⟩ := op.run_compute_found env w
    ⟨str des, SetOp.des_mem_kept hdes hmem, set, SetOp.get_des hsame⟩
  have hread : op.readWith env s now (str des) args set = out := by
    rw [SetOp.readWith, hout]
  rw [hread, Reads, ← wrongType_read_iff hdes hget]
  refine hends.imp_right fun ⟨hwrong, res, heq, hsized, hhas⟩ => ⟨hwrong, res, heq, hsized, ?_⟩
  intro x
  refine (hhas x).trans (SetOp.result_congr (fun k hk found => ?_) op x)
  exact found_read_iff hdes (mem_of_mem_kept hk) found

end Bridge

/-- The result in a string depends on which keys hold a set, and whether it is in
    each. -/
theorem SetOp.result_congr_at {At At' : Bytes → RedisSet → Prop} {keys : List Bytes} {x : Bytes}
    (h : ∀ k ∈ keys, ∀ a, At k a → ∃ b, At' k b ∧ a.has x = b.has x)
    (h' : ∀ k ∈ keys, ∀ b, At' k b → ∃ a, At k a ∧ b.has x = a.has x) (op : SetOp) :
    op.Result At x keys ↔ op.Result At' x keys := by
  have hhas : ∀ k ∈ keys, (∃ a, At k a ∧ a.has x = true) ↔ ∃ b, At' k b ∧ b.has x = true := by
    intro k hk
    constructor
    · rintro ⟨a, ha, hx⟩
      obtain ⟨b, hb, heq⟩ := h k hk a ha
      exact ⟨b, hb, heq ▸ hx⟩
    · rintro ⟨b, hb, hx⟩
      obtain ⟨a, ha, heq⟩ := h' k hk b hb
      exact ⟨a, ha, heq ▸ hx⟩
  cases op with
  | union => exact exists_congr fun k => and_congr_right fun hk => hhas k hk
  | inter =>
    refine forall₂_congr fun k hk => ⟨fun hall b hb => ?_, fun hall a ha => ?_⟩
    · obtain ⟨a, ha, heq⟩ := h' k hk b hb
      exact heq ▸ hall a ha
    · obtain ⟨b, hb, heq⟩ := h k hk a ha
      exact heq ▸ hall b hb
  | diff =>
    cases keys with
    | nil => exact Iff.rfl
    | cons first rest =>
      obtain ⟨hfirst, hrest⟩ := List.forall_mem_cons.mp hhas
      exact and_congr hfirst (forall₂_congr fun k hk => not_congr (hrest k hk))

/-- The sets at the live keys once `set` has been written to one of them. -/
theorem Store.liveSet_set {s : Store F} {now : Int} {des k : Bytes} {set found : RedisSet}
    (hdes : ¬ s.Due des now) : (s.set des ⟨.set, set⟩).LiveSet now k found ↔
      if k = des then found = set else s.LiveSet now k found := by
  have hdue : (s.set des ⟨.set, set⟩).Due k now ↔ s.Due k now := Iff.rfl
  rw [liveSet_iff, get_eq_found, hdue, set_db]
  by_cases hk : k = des
  · rw [if_pos hk, if_pos hk, hk, and_iff_right hdes]
    simp [eq_comm]
  · rw [if_neg hk, if_neg hk, liveSet_iff, get_eq_found]

section Main

variable [UnicodeTables] [FloatText F]

/-- Both replies and the members of `des` are those of SADD first and the store
    command second, or the other way round. -/
def Serial (host : Host) (env : Env) (now : Int) (des : Bytes) (add store : Command) (w : World F)
    (y : Race F writes writes) : Prop :=
  (let a := execCommand host env add w
    let b := execCommand host env store a.2
    EndsAs y now des a.1 b.1 b.2.store) ∨
  (let b := execCommand host env store w
    let a := execCommand host env add b.2
    EndsAs y now des a.1 b.1 a.2.store)

/-- The tick by which the interleaving and both serial runs have ended. -/
def raceEnd (host : Host) (env : Env) (add store : Command) (w : World F)
    (y : Race F writes writes) : Nat :=
  max y.state.tick (max (execCommand host env store (execCommand host env add w).2).2.tick
    (execCommand host env add (execCommand host env store w).2).2.tick)

/-- The serial runs see the clock at their own ticks only. -/
theorem serial_during {host : Host} {env : Env} (now : Int) {add store : Command} {w : World F}
    {y : Race F writes writes} {des : Bytes}
    {last : Nat} (hadd : (execCommand host env store (execCommand host env add w).2).2.tick ≤ last)
    (hstore : (execCommand host env add (execCommand host env store w).2).2.tick ≤ last) :
    Serial host (env.during w.tick last now) now des add store w y ↔
      Serial host env now des add store w y := by
  have htick := fun cmd (w : World F) => execCommand_tick host env cmd w
  rw [Serial, Serial]
  dsimp only
  rw [execCommand_during host env add now le_rfl ((htick store _).trans hadd),
    execCommand_during host env store now (htick add w) hadd,
    execCommand_during host env store now le_rfl ((htick add _).trans hstore),
    execCommand_during host env add now (htick store w) hstore]

/-- The section of SADD comes after the read of a store command with `n` sources
    and before its write. -/
def SetOp.FallsBetween (op : SetOp) (n : Nat) (order : List Bool) : Prop :=
  n + 3 ≤ turnsBeforeAdd order ∧ turnsBeforeAdd order ≤ n + 3 + op.between

/-- Both clients have returned, with what SADD replies, what the store command has
    read, and the set at the destination. -/
structure Ended (y : Race F writes writes)
    (now : Int) (des : Bytes) (added : Int) (out : Except Reply RedisSet) (set : RedisSet) :
    Prop where
  add : y.first = .ret (intReply added)
  store : y.second = .ret (SetOp.replyOf out)
  holds : y.state.store.LiveSet now des set

section Outcomes

variable (op : SetOp) (host : Host) (env : Env) {name name' des : Option Bytes}
  (member : Option Bytes) {args : List (Option Bytes)} {w : World F} {now : Int} {set : RedisSet}
  (hname : toLower (str name) = ascii "sadd") (hname' : toLower (str name') = ascii op.stored)
  (hmem : str des ∈ args.map str) (hsteady : w.store.Steady env now (str des :: args.map str))
  (hset : w.store.LiveSet now (str des) set)

include hname hname' hmem hsteady hset

omit [FloatText F] in
/-- How the interleaving ends, by where the section of SADD falls. -/
theorem race_ends {order : List Bool} (hadds : 2 ≤ order.count true)
    (hstores : args.length + op.between + 4 ≤ order.count false) :
    let y := Race.run env order
      ⟨sAddSet [name, des, member], op.executor (name' :: des :: args), w⟩
    let read := op.readWith env w.store now (str des) args
    let added := (set.add (str member)).1
    (turnsBeforeAdd order ≤ args.length + 2 → Ended y now (str des) (set.add (str member)).2
        (read added) (SetOp.writeOver (read added) added)) ∧
      (op.FallsBetween args.length order → Ended y now (str des) (set.add (str member)).2
        (read set) (SetOp.writeOver (read set) added)) ∧
      (args.length + 3 + op.between < turnsBeforeAdd order →
        Ended y now (str des) ((SetOp.writeOver (read set) set).add (str member)).2
          (read set) ((SetOp.writeOver (read set) set).add (str member)).1) := by
  intro y read added
  obtain ⟨hdes, hget⟩ := Store.liveSet_iff.mp hset
  have hne : args ≠ [] := fun h => by simp [h] at hmem
  obtain ⟨hfirst, hat⟩ := race op env name name' des member hname hmem hsteady hdes hget hadds
  rw [← op.executor_eq (F := F) hname' hne] at hfirst hat
  obtain ⟨i, j, rest, -, hbefore, hcount⟩ := order_split_two hadds
  have hm : args.length + 2 + op.between + 2 ≤
      turnsBeforeAdd order + (order.count false - turnsBeforeAdd order) := by omega
  have hturns : args.length + op.between + 4 ≤
      turnsBeforeAdd order + (order.count false - turnsBeforeAdd order) := by omega
  let l := op.late env w.store now (str des) args
  refine ⟨fun h => ?_, fun h => ?_, fun h => ?_⟩
  · have hquiet : l.step^[turnsBeforeAdd order] ⟨0, none, set⟩ = ⟨0 + _, none, set⟩ :=
      LateWrite.steps_quiet 0 _ none set (Or.inl (by rw [Nat.zero_add]; exact h))
    rw [hquiet] at hfirst
    rw [LateWrite.change_before _ _ hm h] at hat
    exact ⟨hfirst, hat.finished hturns rfl, hat.liveSet hdes⟩
  · have hlast : turnsBeforeAdd order ≤ l.before + l.between + 1 := by
      have := h.2
      simp only [l, SetOp.late]
      omega
    rw [LateWrite.steps_got (l := l) h.1 hlast] at hfirst
    rw [LateWrite.change_between (l := l) _ _ hm h.1 hlast] at hat
    exact ⟨hfirst, hat.finished hturns rfl, hat.liveSet hdes⟩
  · have hlast : l.before + l.between + 1 < turnsBeforeAdd order := by
      simp only [l, SetOp.late]
      omega
    rw [LateWrite.steps_read (l := l) (n := 0) (Nat.zero_le _) (by omega)] at hfirst
    rw [LateWrite.change_after (l := l) _ _ hlast] at hat
    exact ⟨hfirst, hat.finished hturns rfl, hat.liveSet hdes⟩

/-- The outcomes of the two serial orders. -/
theorem serial_iff {y : Race F writes writes}
    {added : Int} {out : Except Reply RedisSet} {cell : RedisSet}
    (hy : Ended y now (str des) added out cell) :
    let read := op.readWith env w.store now (str des) args
    let first := (set.add (str member)).1
    let last := SetOp.writeOver (read set) set
    Serial host env now (str des) [name, des, member] (name' :: des :: args) w y ↔
      (intReply added = intReply (set.add (str member)).2 ∧
        SetOp.replyOf out = SetOp.replyOf (read first) ∧
        ∀ x, cell.has x = (SetOp.writeOver (read first) first).has x) ∨
      (intReply added = intReply (last.add (str member)).2 ∧
        SetOp.replyOf out = SetOp.replyOf (read set) ∧
        ∀ x, cell.has x = (last.add (str member)).1.has x) := by
  intro read first last
  obtain ⟨hdes, hget⟩ := Store.liveSet_iff.mp hset
  have hne : args ≠ [] := fun h => by simp [h] at hmem
  have hexec : ∀ w' : World F, execCommand host env (name' :: des :: args) w' =
      (storing (name' :: des :: args) op.compute op.store).run (Op.step env) w' :=
    fun w' => exec_stored op host env w' hname' hne
  have hexec' : ∀ w' : World F, execCommand host env [name, des, member] w' =
      (sAddSet [name, des, member]).run (Op.step env) w' := fun w' =>
    execCommand_of_mem (e := ⟨writes, sAddSet⟩) (by simp [cmdTable]) (List.cons_ne_nil _ _) hname
      env w'
  have hstart : op.At w.store now name' des args ⟨0, none, set⟩
      (storing (name' :: des :: args) op.compute op.store) w := SetOp.At.start hget
  -- SADD first
  obtain ⟨w₁, hadd₁, hw₁⟩ := run_sAddSet member hname (hstart.not_due hsteady hdes w.tick) hget
  have hstart₁ : op.At w.store now name' des args ⟨0, none, first⟩
      (storing (name' :: des :: args) op.compute op.store) w₁ :=
    hstart.change (f := fun set => (set.add (str member)).1) hw₁
  obtain ⟨w₂, n₂, hstore₂, hat₂⟩ := run_stored hsteady hdes hmem hstart₁
  -- the store command first
  obtain ⟨w₃, n₃, hstore₃, hat₃⟩ := run_stored hsteady hdes hmem hstart
  obtain ⟨w₄, hadd₄, hw₄⟩ := run_sAddSet member hname (hat₃.not_due hsteady hdes w₃.tick) hat₃.get
  have hat₄ := hat₃.change (f := fun set => (set.add (str member)).1) hw₄
  rw [Serial]
  dsimp only
  rw [hexec', hadd₁, hexec, hstore₂, hexec, hstore₃, hexec', hadd₄]
  exact or_congr (endsAs_iff hy.add hy.store hy.holds (hat₂.liveSet hdes))
    (endsAs_iff hy.add hy.store hy.holds (hat₄.liveSet hdes))

end Outcomes

/-- **When SADD and a store command are serial.** In every order of turns in which
    both come to their end, the outcome is that of one after the other exactly
    when the section of SADD does not fall between the read and the write, or a
    live source holds another type, or the result has no member, or it is the same
    with the new member in the destination. -/
theorem sadd_serial_iff (op : SetOp) (host : Host) (env : Env)
    (name name' des member : Option Bytes) (args : List (Option Bytes)) (w : World F) (now : Int)
    (set : RedisSet) (hname : toLower (str name) = ascii "sadd")
    (hname' : toLower (str name') = ascii op.stored) (hmem : str des ∈ args.map str)
    (hset : w.store.LiveSet now (str des) set) (order : List Bool) (hadds : 2 ≤ order.count true)
    (hstores : args.length + op.between + 4 ≤ order.count false) :
    let y := Race.run env order
      ⟨sAddSet [name, des, member], op.executor (name' :: des :: args), w⟩
    let keys := w.store.kept (checksAt now args)
    let added := w.store.set (str des) ⟨.set, (set.add (str member)).1⟩
    w.store.SteadyBetween env w.tick
        (raceEnd host env [name, des, member] (name' :: des :: args) w y) now
        (str des :: args.map str) →
      (Serial host env now (str des) [name, des, member] (name' :: des :: args) w y ↔
        ¬ op.FallsBetween args.length order ∨
        (∃ k ∈ args.map str, ¬ w.store.Due k now ∧ w.store.get .set k = .wrongType) ∨
        (∀ x, ¬ op.Result (w.store.LiveSet now) x keys) ∨
        ∀ x, op.Result (added.LiveSet now) x keys ↔ op.Result (w.store.LiveSet now) x keys) := by
  intro y keys added hsteady
  -- all runs are those under a clock that no deadline ever passes on
  let last := raceEnd host env [name, des, member] (name' :: des :: args) w y
  let env' := env.during w.tick last now
  have hsteady : w.store.Steady env' now (str des :: args.map str) := hsteady.steady
  have hagree := agree_during (F := F) (c := writes) env w.tick last now
  have hy : Race.run env' order _ = y := (hagree.interleave_during hagree Op.lockUse
    Op.lockUse order
    ⟨sAddSet [name, des, member], op.executor (name' :: des :: args), w⟩).2 le_rfl (le_max_left ..)
  rw [← serial_during now ((le_max_left ..).trans (le_max_right ..))
    ((le_max_right ..).trans (le_max_right y.state.tick _))]
  obtain ⟨hdes, hget⟩ := Store.liveSet_iff.mp hset
  obtain ⟨hbefore, hbetween, hafter⟩ :=
    hy ▸ race_ends op env' member hname hname' hmem hsteady hset hadds hstores
  by_cases hfalls : op.FallsBetween args.length order
  · have hR : ∀ x, op.Result ((w.store.set (str des) ⟨.set, set⟩).LiveSet now) x keys ↔
        op.Result (w.store.LiveSet now) x keys := by
      refine fun x => SetOp.result_congr (fun k _ found => ?_) op x
      rw [Store.liveSet_set hdes]
      by_cases hk : k = str des
      · rw [if_pos hk, hk]
        exact ⟨fun h => h ▸ hset, fun h => h.unique hset⟩
      · rw [if_neg hk]
    -- only the new member can make a difference
    have hadd : ∀ x, x ≠ str member → (set.add (str member)).1.has x = set.has x := by
      intro x hx
      simp [hx]
    have hother : ∀ x, x ≠ str member → (op.Result (added.LiveSet now) x keys ↔
        op.Result ((w.store.set (str des) ⟨.set, set⟩).LiveSet now) x keys) := by
      intro x hx
      simp only [added]
      refine SetOp.result_congr_at (fun k _ a ha => ?_) (fun k _ b hb => ?_) op
      · simp only [Store.liveSet_set hdes] at ha ⊢
        by_cases hk : k = str des
        · simp only [hk, if_true] at ha ⊢
          exact ⟨set, rfl, ha ▸ hadd x hx⟩
        · simp only [hk, if_false] at ha ⊢
          exact ⟨a, ha, rfl⟩
      · simp only [Store.liveSet_set hdes] at hb ⊢
        by_cases hk : k = str des
        · simp only [hk, if_true] at hb ⊢
          exact ⟨_, rfl, hb ▸ (hadd x hx).symm⟩
        · simp only [hk, if_false] at hb ⊢
          exact ⟨b, hb, rfl⟩
    have hhas : set.has (str member) = true → ∀ x, (op.Result (added.LiveSet now) x keys ↔
        op.Result ((w.store.set (str des) ⟨.set, set⟩).LiveSet now) x keys) := by
      intro hin x
      have hadd : (set.add (str member)).1 = set := by simp [RedisSet.add, hin]
      simp only [added, hadd]
    have hends := serial_iff op host env' member hname hname' hmem hsteady hset (hbetween hfalls)
    have hiff := between_serial_iff (readWith_reads op env' hdes hmem hget set)
      (readWith_reads op env' hdes hmem hget (set.add (str member)).1) hother hhas
    rw [or_iff_right (not_not.mpr hfalls)]
    refine (hends.trans (or_congr (and_iff_right rfl)
      (and_congr_right fun _ => and_iff_right rfl))).trans (hiff.trans ?_)
    exact or_congr_right (or_congr (forall_congr' fun x => not_congr (hR x))
      (forall_congr' fun x => iff_congr Iff.rfl (hR x)))
  · refine iff_of_true ?_ (Or.inl hfalls)
    by_cases hle : turnsBeforeAdd order ≤ args.length + 2
    · exact (serial_iff op host env' member hname hname' hmem hsteady hset (hbefore hle)).mpr
        (Or.inl ⟨rfl, rfl, fun _ => rfl⟩)
    · have hlt : args.length + 3 + op.between < turnsBeforeAdd order := by
        by_contra hno
        exact hfalls ⟨by omega, by omega⟩
      exact (serial_iff op host env' member hname hname' hmem hsteady hset (hafter hlt)).mpr
        (Or.inr ⟨rfl, rfl, fun _ => rfl⟩)

end Main

/-- SADD d x while SUNIONSTORE d d s runs, between its look at the destination and
    its read. -/
theorem sadd_before_sunionstore_read :
    letI := asciiTables
    let w := stateAfter (words ["SADD", "d", "y"])
    let order := [false, false, true, true] ++ List.replicate 7 false
    Serial quietHost stillEnv 0 (ascii "d") (words ["SADD", "d", "x"])
      (words ["SUNIONSTORE", "d", "d", "s"]) w
      (Race.run stillEnv order
        ⟨sAddSet (words ["SADD", "d", "x"]),
          SetOp.union.executor (words ["SUNIONSTORE", "d", "d", "s"]), w⟩) := by
  intro w order
  have hdue : ∀ k n, ¬ w.store.Due k n := by
    rintro k n ⟨d, hd, -⟩
    cases hd
  have hset : w.store.LiveSet 0 (ascii "d") (newSet.add (ascii "y")).1 := ⟨none, rfl⟩
  exact (@sadd_serial_iff IntScore asciiTables _ .union quietHost stillEnv (some (ascii "SADD"))
    (some (ascii "SUNIONSTORE")) (some (ascii "d")) (some (ascii "x"))
    (words ["d", "s"]) w 0 _ (by decide) (by decide) (by decide) hset order (by decide)
    (by decide) fun k _ t _ _ => iff_of_false (hdue _ _) (hdue _ _)).mpr
    (Or.inl fun h => absurd h.1 (by decide))

/-- SADD d x between the read and the write of SUNIONSTORE d d s: it is
    acknowledged, and x is not a member of d in the end, as it is in both serial
    orders. -/
theorem sunionstore_loses_sadd :
    letI := asciiTables
    let add := words ["SADD", "d", "x"]
    let store := words ["SUNIONSTORE", "d", "d", "s"]
    let w := stateAfter (words ["SADD", "d", "y"])
    let order := List.replicate 5 false ++ [true, true] ++ List.replicate 4 false
    let y := Race.run stillEnv order
      ⟨sAddSet add, SetOp.union.executor store, w⟩
    y.first = .ret (intReply 1) ∧ y.second = .ret (intReply 1) ∧
      ¬ y.state.store.Member 0 (ascii "d") (ascii "x") ∧
      ¬ Serial quietHost stillEnv 0 (ascii "d") add store w y := by
  intro add store w order y
  have hdue : ∀ k n, ¬ w.store.Due k n := by
    rintro k n ⟨d, hd, -⟩
    cases hd
  have hset : w.store.LiveSet 0 (ascii "d") (newSet.add (ascii "y")).1 := ⟨none, rfl⟩
  have hsteady : w.store.Steady stillEnv 0 [ascii "d", ascii "d", ascii "s"] :=
    fun k _ t => iff_of_false (hdue _ _) (hdue _ _)
  have hends : Ended y 0 (ascii "d") 1 (.ok (newSet.add (ascii "y")).1)
    (newSet.add (ascii "y")).1 :=
    (@race_ends IntScore asciiTables .union stillEnv (some (ascii "SADD"))
      (some (ascii "SUNIONSTORE")) (some (ascii "d")) (some (ascii "x"))
      (words ["d", "s"]) w 0 _ (by decide) (by decide) (by decide) hsteady hset
      order (by decide) (by decide)).2.1 ⟨by decide, by decide⟩
  have hlost : ¬ y.state.store.Member 0 (ascii "d") (ascii "x") := by
    rw [hends.holds.member_iff]
    decide
  refine ⟨hends.add, hends.store, hlost, fun hserial => ?_⟩
  have hiff := @serial_iff IntScore asciiTables _ .union quietHost stillEnv (some (ascii "SADD"))
    (some (ascii "SUNIONSTORE")) (some (ascii "d")) (some (ascii "x"))
    (words ["d", "s"]) w 0 _ (by decide) (by decide) (by decide) hsteady hset
    y _ _ _ hends
  rcases hiff.mp hserial with ⟨-, -, h⟩ | ⟨-, -, h⟩
  · exact absurd (h (ascii "x")) (by decide)
  · exact absurd (h (ascii "x")) (by decide)

end TinyDb
