import TinyRedis.KeyLocksProofs
import TinyRedis.ExpiryProofs

/-! # Key locks are given back

    When a command ends, by a reply or by a panic, what it has done to the key
    locks should balance: every position it acquired has been released, once.
    For all executors but one this is part of their discipline.  SINTERSTORE
    releases its read locks by hand, after it has indexed the list of sets: if
    none of its source keys holds a value the list is empty, the index panics,
    and the read locks stay held. -/

namespace TinyDb

open GoString GoFloat GoProgram GoProgram.Prog TinyResp LockOrder

variable {F : Type} {cmd : Command} {env : Env} {w : World F}

/-! ## The balance of a command -/

section Balance

variable (sum64 : Bytes → UInt64) (n : Nat)

/-- What a run does to the key locks. -/
def lockTrace {c : Caps} (log : List (Sigma (Op.Res (F := F) (c := c)))) :
    List (LockOrder.Event Mode (Fin n)) :=
  log.flatMap fun x => x.1.lockEvents sum64 n x.2

/-- **A run under the discipline** ends with the locks of its last phase. -/
theorem follows_settle {c : Caps} {p : Cmd F c Reply} {E : Phase → Except Abort Reply → Prop}
    (h : Follows discipline E .start p) (env : Env) (w : World F) :
    ∃ q, settle 0 (lockTrace sum64 n (p.trace (Op.step env) w)) = some (heldBy sum64 n q.lock) ∧
      E q (p.run (Op.step env) w).1 := by
  have hstep : ∀ (q : Phase) (o : Op F c) q' (r : o.Res) log,
      settle 0 (lockTrace sum64 n log) = some (heldBy sum64 n q.lock) →
      discipline.next q o = some q' →
      settle 0 (lockTrace sum64 n (log ++ [⟨o, r⟩])) = some (heldBy sum64 n q'.lock) := by
    intro q o q' r log hlog hq
    have hevents : lockTrace sum64 n (log ++ [⟨o, r⟩]) =
        lockTrace sum64 n log ++ o.lockEvents sum64 n r := by simp [lockTrace]
    rw [hevents, settle_append, hlog]
    exact (Phase.next_locks sum64 n hq r).2
  have hstart : settle 0 (lockTrace (F := F) (c := c) sum64 n []) =
      some (heldBy sum64 n Phase.start.lock) := rfl
  exact h.trace (J := fun q log => settle 0 (lockTrace sum64 n log) = some (heldBy sum64 n q.lock))
    (fun _ _ _ => trivial) hstep hstart w

variable [UnicodeTables] [FloatText F]

/-- What `ExecCommand` does to the key locks. -/
def execLockEvents (host : Host) (env : Env) (cmd : Command) (w : World F) :
    List (LockOrder.Event Mode (Fin n)) :=
  if cmd = [] then []
  else
    match (lookupCmd host (toLower (cmdName cmd)) : Option (Executor F)) with
    | none => []
    | some command => lockTrace sum64 n ((command.body cmd).trace (Op.step env) w)

end Balance

/-- Every lock that was acquired has been released, exactly once. -/
def GivenBack {n : Nat} (events : List (LockOrder.Event Mode (Fin n))) : Prop :=
  settle 0 events = some 0

/-! ## SINTERSTORE -/

section Sinterstore

variable [UnicodeTables]

/-- The command is a SINTERSTORE whose destination holds no value of another
    type, at least one of whose sources is not dropped as expired, and none of
    whose sources holds a value by the time the sets are read. -/
def FindsNoSet (env : Env) (cmd : Command) (w : World F) : Prop :=
  toLower (cmdName cmd) = ascii "sinterstore" ∧ ∃ name des sources, cmd = name :: des :: sources ∧
    let first := (str des, env.clock w.tick)
    let checks := checksFrom env (w.tick + 2) sources
    (w.store.Due first.1 first.2 ∨
        ∀ v, w.store.db.lookup (str des) = some v → v.kind = .set) ∧
      (∃ before key now after, checks = before ++ (key, now) :: after ∧
        (¬ w.store.Due key now ∨ w.store.Popped (first :: before) key)) ∧
      ∀ key ∈ sources, w.store.db.lookup (str key) = none ∨
        w.store.Popped (first :: checks) (str key)

/-- How SINTERSTORE ends: a reply comes with nothing locked, a panic with some
    keys read-locked. -/
def EndsLocked (q : Phase) : Except Abort Reply → Prop
  | .ok _ => q.lock = none
  | .error .panic => ∃ keys, keys ≠ [] ∧ q.lock = some (.read, keys)
  | .error .hang => True

theorem sInterStoreSet_endsLocked
    (hname : toLower (cmdName cmd) = ascii "sinterstore") (hlen : ¬ cmd.length < 3) :
    Follows discipline EndsLocked .start (sInterStoreSet cmd : Cmd F _ _) := by
  have hne : cmd ≠ [] := by
    rintro rfl
    simp at hlen
  rw [sInterStoreSet, named_eq hne hname, if_neg hlen]
  refine storing_follows (fun _ => rfl) (fun h => by omega)
    (fun keys hkeys => interOf_follows ⟨keys, hkeys, rfl⟩) fun desKey res => ?_
  simp [storeSet, holdsSet, EndsLocked]

omit [UnicodeTables] in
/-- Storing the result does not panic. -/
theorem storeSet_ne_panic (env : Env) (desKey : Bytes) (res : RedisSet) (w : World F) :
    ((withLock desKey (storeSet desKey res)).run (Op.step env) w).1 ≠ .error .panic := by
  simp only [withLock, withLocks, storeSet, holdsSet, get, op_bind, op_defer, run_op]
  dsimp only [Op.step_lock, Op.step_get]
  cases w.store.get .set desKey with
  | wrongType => simp
  | absent => by_cases hlen : res.len ≠ 0 <;> simp [hlen]
  | found set => by_cases hlen : res.len ≠ 0 <;> simp [hlen]

/-- The condition, in terms of the store after the first check. -/
theorem findsNoSet_iff {name des : Option Bytes} {sources : List (Option Bytes)}
    (hname : toLower (cmdName (name :: des :: sources)) = ascii "sinterstore") :
    FindsNoSet env (name :: des :: sources) w ↔
      let s := (w.store.checkTTL (str des) (env.clock w.tick)).2
      let checks := checksFrom env (w.tick + 2) sources
      s.get .set (str des) ≠ .wrongType ∧ s.kept checks ≠ [] ∧
        (s.checkAll checks).setsAt (s.kept checks) = some [] := by
  dsimp only
  have hdes : (w.store.checkTTL (str des) (env.clock w.tick)).2.get .set (str des) ≠ .wrongType ↔
      (w.store.Due (str des) (env.clock w.tick) ∨
        ∀ v, w.store.db.lookup (str des) = some v → v.kind = .set) := by
    rw [ne_eq, Store.get_eq_wrongType]
    by_cases hdue : w.store.Due (str des) (env.clock w.tick) <;> simp [hdue]
  have hkey : ∀ k checks, (w.store.checkTTL (str des) (env.clock w.tick)).2.Popped checks k ∨
      (w.store.checkTTL (str des) (env.clock w.tick)).2.db.lookup k = none ↔
        w.store.db.lookup k = none ∨
          w.store.Popped ((str des, env.clock w.tick) :: checks) k := by
    intro k checks
    rw [Store.popped_checkTTL, Store.checkTTL_db, Store.popped_cons]
    by_cases hfirst : k = str des ∧ w.store.Due (str des) (env.clock w.tick)
    · simp [hfirst]
    · simp only [hfirst, false_or, not_false_eq_true, and_true, if_false]
      exact or_comm
  rw [hdes, Store.kept_ne_nil_after, Store.setsAt_kept_eq_nil]
  constructor
  · rintro ⟨-, name', des', sources', heq, hdes, hkept, hsets⟩
    obtain ⟨rfl, rfl, rfl⟩ : name = name' ∧ des = des' ∧ sources = sources' := by simpa using heq
    refine ⟨hdes, hkept, fun k now hmem => ?_⟩
    obtain ⟨key, hsource, rfl⟩ := exists_mem_checksFrom.mp ⟨now, hmem⟩
    exact (hkey _ _).mpr (hsets key hsource)
  · rintro ⟨hdes, hkept, hsets⟩
    refine ⟨hname, name, des, sources, rfl, hdes, hkept, fun key hsource => ?_⟩
    obtain ⟨now, hmem⟩ := exists_mem_checksFrom.mpr ⟨key, hsource, rfl⟩
    exact (hkey _ _).mp (hsets (str key) now hmem)

/-- SINTERSTORE panics when it finds no set, and only then. -/
theorem sInterStoreSet_panics_iff
    (hname : toLower (cmdName cmd) = ascii "sinterstore") (hlen : ¬ cmd.length < 3) (env : Env)
    (w : World F) : ((sInterStoreSet cmd).run (Op.step env) w).1 = .error .panic ↔
      FindsNoSet env cmd w := by
  obtain ⟨name, des, sources, rfl⟩ : ∃ name des sources, cmd = name :: des :: sources := by
    rcases cmd with _ | ⟨name, _ | ⟨des, sources⟩⟩
    · simp at hlen
    · simp at hlen
    · exact ⟨name, des, sources, rfl⟩
  rw [findsNoSet_iff hname, sInterStoreSet, named_eq (by simp) hname, if_neg hlen, run_storing]
  dsimp only
  generalize checksFrom env (w.tick + 2) sources = checks
  generalize (w.store.checkTTL (str des) (env.clock w.tick)).2 = s
  cases hget : s.get .set (str des) with
  | wrongType => simp
  | _ =>
    by_cases hkept : s.kept checks = []
    · simp [hkept]
    · obtain ⟨t, hinter⟩ := run_interOf env (s.kept checks)
        ⟨s.checkAll checks, w.tick + 2 + sources.length, w.draws⟩
      rw [if_neg hkept, hinter]
      cases hsets : (s.checkAll checks).setsAt (s.kept checks) with
      | none => simp
      | some sets =>
        dsimp only
        cases hshort : sets[shortestLoop sets 0 0 (2 ^ 63 - 1)]? with
        | none => simp [hkept, shortest_eq_none.mp hshort]
        | some primSet =>
          have hne : sets ≠ [] := fun h => by
            rw [shortest_eq_none.mpr h] at hshort
            cases hshort
          have hstore := storeSet_ne_panic (F := F) env (str des)
            (primSet.intersect (sets.eraseIdx (shortestLoop sets 0 0 (2 ^ 63 - 1))))
          simp only [hstore, Option.some.injEq, hne, and_false]

end Sinterstore

/-! ## Every command -/

section Commands

variable [UnicodeTables] [FloatText F]

theorem lookupCmd_sinterstore (host : Host) :
    (lookupCmd host (ascii "sinterstore") : Option (Executor F)) = some ⟨_, sInterStoreSet⟩ :=
  lookupCmd_of_mem (by simp [cmdTable])

omit [FloatText F] in
theorem FindsNoSet.length (h : FindsNoSet env cmd w) :
    ¬ cmd.length < 3 := by
  obtain ⟨-, name, des, sources, rfl, -, ⟨before, key, now, after, hchecks, -⟩, -⟩ := h
  cases sources with
  | nil => simp [checksFrom] at hchecks
  | cons source rest => simp

omit [UnicodeTables] [FloatText F] in
/-- Keys that are locked hold some lock, if there are any. -/
theorem heldBy_eq_zero {sum64 : Bytes → UInt64} {n : Nat} {mode : Mode} {keys : List Bytes}
    (hne : keys ≠ []) : heldBy sum64 n (some (mode, keys)) = 0 ↔ n = 0 := by
  constructor
  · intro h
    by_contra hn
    refine sortedLockPoses_ne_nil sum64 n (Nat.pos_of_ne_zero hn) hne ?_
    simpa [heldBy, locked] using h
  · rintro rfl
    refine Multiset.eq_zero_of_forall_notMem fun p _ => ?_
    exact p.2.elim0

omit [FloatText F] in
/-- SINTERSTORE gives its locks back unless it finds no set. -/
theorem sInterStoreSet_givenBack_iff {sum64 : Bytes → UInt64} {n : Nat}
    (hname : toLower (cmdName cmd) = ascii "sinterstore")
    (hlen : ¬ cmd.length < 3)
    (hends : ((sInterStoreSet cmd).run (Op.step env) w).1 ≠ .error .hang) :
    GivenBack (lockTrace sum64 n ((sInterStoreSet cmd).trace (Op.step env) w)) ↔
      n = 0 ∨ ¬ FindsNoSet env cmd w := by
  rw [← sInterStoreSet_panics_iff hname hlen, GivenBack]
  obtain ⟨q, hset, hend⟩ := follows_settle sum64 n (sInterStoreSet_endsLocked hname hlen) env w
  rw [hset, Option.some.injEq]
  rcases hres : ((sInterStoreSet cmd).run (Op.step env) w).1 with (_ | _) | reply
  · rw [hres] at hend
    obtain ⟨keys, hne, hlock⟩ := hend
    simp [hlock, heldBy_eq_zero hne]
  · exact absurd hres hends
  · rw [hres] at hend
    have hlock : q.lock = none := hend
    simp [hlock, heldBy]

/-- Every other command ends with nothing locked. -/
theorem KeepsAs.unlocked {entry : String × Executor F} (h : KeepsAs entry) {cmd : Command}
    (hne : cmd ≠ []) (hname : ascii entry.1 = toLower (cmdName cmd))
    (hinter : ¬ (toLower (cmdName cmd) = ascii "sinterstore" ∧ ¬ cmd.length < 3)) :
    Follows discipline (fun q e => e ≠ .error .hang → q.lock = none) .start (entry.2.body cmd) := by
  obtain ⟨name, e⟩ := entry
  rcases h with h | ⟨-, rfl⟩ | ⟨rfl, rfl⟩
  · exact (h cmd).mono fun q e he hends => (he.2 hends).1
  · exact (zAddZset_follows cmd).mono fun q e he => he.2
  · -- a SINTERSTORE with too few arguments replies at once
    have hlen : cmd.length < 3 := by
      by_contra hlen
      exact hinter ⟨hname.symm, hlen⟩
    have hbody : (sInterStoreSet cmd : Cmd F _ _) =
        .ret (errReply "wrong number of arguments for 'sinterstore' command") := by
      rw [sInterStoreSet, named_eq hne hname.symm, if_pos hlen]
      rfl
    simp [hbody]

/-- **Locks are given back**, whatever the command and the store and however it
    ends, except by a SINTERSTORE that finds no set. -/
theorem locks_given_back_iff (sum64 : Bytes → UInt64) (n : Nat) (host : Host) (env : Env)
    (cmd : Command) (w : World F) (hends : (execCommand host env cmd w).1 ≠ .error .hang) :
    GivenBack (execLockEvents sum64 n host env cmd w) ↔ n = 0 ∨ ¬ FindsNoSet env cmd w := by
  by_cases hinter : toLower (cmdName cmd) = ascii "sinterstore" ∧ ¬ cmd.length < 3
  · obtain ⟨hname, hlen⟩ := hinter
    have hne : cmd ≠ [] := by
      rintro rfl
      simp at hlen
    simp only [execCommand, execLockEvents, if_neg hne, hname, lookupCmd_sinterstore] at hends ⊢
    exact sInterStoreSet_givenBack_iff hname hlen hends
  · have hfinds : ¬ FindsNoSet env cmd w := fun h => hinter ⟨h.1, h.length⟩
    simp only [hfinds, not_false_eq_true, or_true, iff_true]
    by_cases hne : cmd = []
    · simp [execLockEvents, hne, GivenBack, settle]
    · cases hcmd : (lookupCmd host (toLower (cmdName cmd)) : Option (Executor F)) with
      | none => simp [execLockEvents, hne, hcmd, GivenBack, settle]
      | some command =>
        simp only [execCommand, execLockEvents, if_neg hne, hcmd] at hends ⊢
        obtain ⟨name, hmem, hname⟩ := lookupCmd_mem hcmd
        have hkeeps := (cmdTable_keeps host _ hmem).unlocked hne hname hinter
        obtain ⟨q, hset, hlock⟩ := follows_settle sum64 n hkeeps env w
        rw [GivenBack, hset, hlock hends]
        rfl

end Commands

/-- LPUSH on an empty store. -/
theorem locks_given_back_lpush :
    letI := asciiTables
    GivenBack (execLockEvents (fun _ => 0) 4 quietHost stillEnv
      (words ["lpush", "k", "v"]) (emptyWorld : World IntScore)) :=
  (@locks_given_back_iff IntScore asciiTables _ (fun _ => 0) 4 quietHost stillEnv
    (words ["lpush", "k", "v"]) emptyWorld
    (fun h => by cases h)).mpr (Or.inr fun h => absurd h.1 (by decide))

/-- SINTERSTORE of a key that is absent panics with its read lock held. -/
theorem sinterstore_keeps_read_lock :
    letI := asciiTables
    let cmd := words ["sinterstore", "d", "s"]
    let w : World IntScore := emptyWorld
    let events := execLockEvents (fun _ => 0) 1 quietHost stillEnv cmd w
    (execStill cmd w).1 = .error .panic ∧ events = [.acquire .read 0] ∧
      ¬ GivenBack events := by
  intro cmd w events
  have hevents : events = [.acquire .read 0] := by
    change (sortedLockPoses (fun _ => 0) 1 [ascii "s"]).map
      (LockOrder.Event.acquire Mode.read) ++ [] = _
    rw [sortedLockPoses_singleton]
    rfl
  refine ⟨rfl, hevents, ?_⟩
  rw [hevents]
  simp [GivenBack, settle]

end TinyDb
