import TinyRedis.KeyLocksProofs

/-! # No deadlock among the key locks

    A server with any number of clients, each running one command after another.
    What an operation returns depends on all the others, so here it may return
    anything.  When an operation takes or gives back key locks, the client does
    so lock by lock, and waits in line for the ones it cannot have yet. -/

namespace TinyDb

open GoString GoFloat GoProgram GoProgram.Prog TinyResp LockOrder

variable {ι F : Type} {n : Nat}

/-! ## The server -/

/-- What a client is doing: waiting for the next command, running one, or
    nothing any more, after a panic or in a loop that never ends. -/
inductive Session (F : Type) where
  | idle
  | running {c : Caps} (p : Cmd F c Reply)
  | gone

/-- The clients, with the state of the `n` key locks. -/
structure Server (ι F : Type) (n : Nat) where
  session : ι → Session F
  locks : System ι Mode (Fin n)

/-- No client has sent anything yet. -/
def newServer : Server ι F n := ⟨fun _ => .idle, ⟨fun _ => ⟨0, [], false⟩, fun _ => []⟩⟩

/-- Whom a read-write lock prefers. -/
inductive Preference where
  | readers
  | writers

/-- When a client is granted the lock it waits for.  A writer needs it free; a
    reader needs it free of writers and, if writers are preferred, no writer
    ahead in the queue. -/
def MayLock (pref : Preference) (s : System ι Mode (Fin n)) (i : ι) : Mode → Fin n → Prop
  | .write, p => ∀ j mode, (mode, p) ∉ (s.client j).held
  | .read, p => (∀ j, (.write, p) ∉ (s.client j).held) ∧
      (pref = .writers → ∀ l₁ l₂, s.queue p = l₁ ++ i :: l₂ →
        ∀ j ∈ l₁, ∀ rest, (s.client j).todo ≠ .acquire .write p :: rest)

section Steps

variable [DecidableEq ι] [UnicodeTables] [FloatText F]

/-- A client does something else. -/
def Server.setSession (s : Server ι F n) (i : ι) (session : Session F) : Server ι F n :=
  { s with session := Function.update s.session i session }

/-- What can happen on the server. -/
inductive Server.Step (host : Host) (sum64 : Bytes → UInt64) (pref : Preference) :
    Server ι F n → Server ι F n → Prop where
  /-- A client sends a command. -/
  | start (s : Server ι F n) (i : ι) (cmd : Command) (e : Executor F)
      (hidle : s.session i = .idle) (he : lookupCmd host (toLower (cmdName cmd)) = some e) :
      Step host sum64 pref s (s.setSession i (.running (e.body cmd)))
  /-- An operation returns `r`; its work on the key locks comes next. -/
  | perform (s : Server ι F n) (i : ι) {c : Caps} (o : Op F c) (next : o.Res → Cmd F c Reply)
      (r : o.Res) (hrun : s.session i = .running (.op o next))
      (hdone : (s.locks.client i).todo = []) :
      Step host sum64 pref s ⟨(s.setSession i (.running (next r))).session,
        s.locks.setClient i ⟨(s.locks.client i).held, o.lockEvents sum64 n r, false⟩⟩
  /-- A command replies. -/
  | reply (s : Server ι F n) (i : ι) {c : Caps} (a : Reply)
      (hrun : s.session i = .running (.ret a : Cmd F c Reply))
      (hdone : (s.locks.client i).todo = []) :
      Step host sum64 pref s (s.setSession i .idle)
  /-- A command panics or never ends; what it has locked stays locked. -/
  | stop (s : Server ι F n) (i : ι) {c : Caps} (why : Abort)
      (hrun : s.session i = .running (.stop why : Cmd F c Reply)) :
      Step host sum64 pref s (s.setSession i .gone)
  /-- Without any locks, `RLock` and `UnLock` panic. -/
  | crash (s : Server ι F n) (i : ι) (hn : n = 0) : Step host sum64 pref s (s.setSession i .gone)
  /-- A client has its turn at a lock. -/
  | turn (s : Server ι F n) (t : System ι Mode (Fin n)) (h : Turn (MayLock pref) s.locks t) :
      Step host sum64 pref s { s with locks := t }

/-! ## The invariant -/

/-- What a client will hold when its batch is done is what its command has
    locked. -/
def Session.Fits (sum64 : Bytes → UInt64) (k : Client Mode (Fin n)) : Session F → Prop
  | .idle => settle k.held k.todo = some 0
  | .running p => ∃ q, Follows discipline Tidy q p ∧
      settle k.held k.todo = some (heldBy sum64 n q.lock)
  | .gone => True

variable {host : Host} {sum64 : Bytes → UInt64} {pref : Preference} {s t : Server ι F n}

omit [UnicodeTables] [FloatText F] in
/-- A turn at a lock changes nothing about that. -/
theorem Session.Fits.turn {session : Session F} {i : ι} {locks locks' : System ι Mode (Fin n)}
    (h : session.Fits sum64 (locks.client i)) (hturn : Turn (MayLock pref) locks locks') :
    session.Fits sum64 (locks'.client i) := by
  cases session with
  | idle => exact hturn.settle_eq i h
  | running p =>
    obtain ⟨q, hp, hheld⟩ := h
    exact ⟨q, hp, hturn.settle_eq i hheld⟩
  | gone => trivial

omit [UnicodeTables] [FloatText F] in
/-- A change of one client's session, which fits the locks it holds. -/
theorem fits_setSession (h : ∀ i, (s.session i).Fits sum64 (s.locks.client i)) {i : ι}
    {session : Session F} (hi : session.Fits sum64 (s.locks.client i)) (j : ι) :
    ((s.setSession i session).session j).Fits sum64 (s.locks.client j) := by
  by_cases hj : j = i
  · subst hj
    simpa [Server.setSession] using hi
  · simpa [Server.setSession, hj] using h j

/-- **One step** of the server keeps every client in order, and is a step of
    ordered locking, if it changes the locks at all. -/
theorem Server.Step.fits (hstep : Server.Step host sum64 pref s t)
    (h : ∀ i, (s.session i).Fits sum64 (s.locks.client i)) :
    (∀ i, (t.session i).Fits sum64 (t.locks.client i)) ∧
      (t.locks = s.locks ∨ LockOrder.Step (MayLock pref) s.locks t.locks) := by
  cases hstep with
  | start i cmd e hidle he =>
    obtain ⟨name, hmem, -⟩ := lookupCmd_mem he
    have hi := h i
    rw [hidle] at hi
    exact ⟨fits_setSession h ⟨.start, (cmdTable_keeps host _ hmem).tidy cmd, hi⟩, Or.inl rfl⟩
  | perform i o next r hrun hdone =>
    have hi := h i
    rw [hrun] at hi
    obtain ⟨q, ⟨q', hq, hnext⟩, hheld⟩ := hi
    rw [hdone] at hheld
    obtain hheld : (s.locks.client i).held = heldBy sum64 n q.lock := Option.some.inj hheld
    obtain ⟨hasc, hset⟩ := Phase.next_locks sum64 n hq r
    rw [← hheld] at hasc hset
    refine ⟨fun j => ?_, Or.inr (.issue _ i _ hdone hasc)⟩
    by_cases hj : j = i
    · subst hj
      simpa [Server.setSession] using ⟨q', hnext r trivial, hset⟩
    · simpa [Server.setSession, hj] using h j
  | reply i a hrun hdone =>
    have hi := h i
    rw [hrun] at hi
    obtain ⟨q, hend, hheld⟩ := hi
    rw [hend.2 a rfl] at hheld
    exact ⟨fits_setSession h hheld, Or.inl rfl⟩
  | stop i why hrun => exact ⟨fits_setSession h trivial, Or.inl rfl⟩
  | crash i hn => exact ⟨fits_setSession h trivial, Or.inl rfl⟩
  | turn t hturn => exact ⟨fun i => (h i).turn hturn, Or.inr (.turn hturn)⟩

/-- **Every run** of the server is a run of ordered locking. -/
theorem Server.run_locks (hrun : Relation.ReflTransGen (Server.Step host sum64 pref) newServer s) :
    (∀ i, (s.session i).Fits sum64 (s.locks.client i)) ∧
      Relation.ReflTransGen (LockOrder.Step (MayLock pref)) (newServer : Server ι F n).locks
        s.locks := by
  induction hrun with
  | refl => exact ⟨fun i => rfl, .refl⟩
  | tail _ hstep ih =>
    obtain ⟨hfits, hlocks⟩ := hstep.fits ih.1
    refine ⟨hfits, ?_⟩
    rcases hlocks with heq | hlocks
    · rw [heq]
      exact ih.2
    · exact ih.2.tail hlocks

/-- **Key locking is free of deadlock**: on a server with any number of clients
    and of locks, whatever the hash function and whomever the locks prefer, no
    reachable state has clients that wait for each other. -/
theorem key_locking_deadlock_free (host : Host) (sum64 : Bytes → UInt64) (pref : Preference)
    (s : Server ι F n) (hrun : Relation.ReflTransGen (Server.Step host sum64 pref) newServer s) :
    ¬ ∃ C, Deadlocked s.locks C := by
  rintro ⟨C, hC⟩
  have hidle : (newServer : Server ι F n).locks.Idle := ⟨fun _ => rfl, fun _ => rfl⟩
  exact (Inv.of_reachable hidle (Server.run_locks hrun).2).no_deadlock C hC

end Steps

/-- Two locks: the second is that of `b`, the first that of every other key. -/
def twoLocks : Bytes → UInt64 := fun key => if key = ascii "b" then 1 else 0

theorem twoLocks_positions {keys : List Bytes}
    (h : (keys.filterMap (getKeyPos twoLocks 2)).toFinset = Finset.univ) :
    sortedLockPoses twoLocks 2 keys = [0, 1] := by
  rw [sortedLockPoses, h]
  exact Fin.sort_univ 2

/-- `MSET a 1 b 2` and `MSET b 3 c 4`, whose keys share both locks: the first command
    holds the lock of `a` and waits for that of `b`, and the second, which names `b`
    first, waits for the lock of `c`, which is that of `a`. -/
theorem key_locking_deadlock_free_msets :
    letI := asciiTables
    ∃ s : Server (Fin 2) IntScore 2,
      Relation.ReflTransGen (Server.Step quietHost twoLocks .writers) newServer s ∧
      (s.locks.client 0).held = {(.write, 0)} ∧ WaitsAt s.locks 0 1 ∧ WaitsAt s.locks 1 0 ∧
      ¬ ∃ C, Deadlocked s.locks C := by
  have hfirst : sortedLockPoses twoLocks 2 [ascii "a", ascii "b"] = [0, 1] :=
    twoLocks_positions (by decide)
  have hsecond : sortedLockPoses twoLocks 2 [ascii "b", ascii "c"] = [0, 1] :=
    twoLocks_positions (by decide)
  have hrun := Relation.ReflTransGen.single (@Server.Step.start (Fin 2) IntScore 2 _ asciiTables _
    quietHost twoLocks .writers newServer 0 (words ["MSET", "a", "1", "b", "2"])
      ⟨_, @mSetString _ asciiTables⟩ rfl rfl)
  replace hrun := hrun.tail (@Server.Step.perform _ _ _ _ asciiTables _ _ _ _ _ 0 _
    (.lock [ascii "a", ascii "b"]) _ () rfl rfl)
  dsimp only [Op.lockEvents] at hrun
  rw [hfirst] at hrun
  -- the first command queues for its first lock, is granted it and queues for the second
  replace hrun := hrun.tail (@Server.Step.turn _ _ _ _ asciiTables _ _ _ _ _ _
    (.request _ 0 .write 0 _ rfl rfl))
  replace hrun := hrun.tail (@Server.Step.turn _ _ _ _ asciiTables _ _ _ _ _ _
    (.grant _ 0 .write 0 _ rfl rfl (by
      intro j mode
      match j with
      | 0 => exact Multiset.notMem_zero _
      | 1 => exact Multiset.notMem_zero _)))
  replace hrun := hrun.tail (@Server.Step.turn _ _ _ _ asciiTables _ _ _ _ _ _
    (.request _ 0 .write 1 _ rfl rfl))
  -- the second queues for its first lock
  replace hrun := hrun.tail (@Server.Step.start _ _ _ _ asciiTables _ _ _ _ _ 1
    (words ["MSET", "b", "3", "c", "4"])
    ⟨_, @mSetString _ asciiTables⟩ rfl rfl)
  replace hrun := hrun.tail (@Server.Step.perform _ _ _ _ asciiTables _ _ _ _ _ 1 _
    (.lock [ascii "b", ascii "c"]) _ () rfl rfl)
  dsimp only [Op.lockEvents] at hrun
  rw [hsecond] at hrun
  replace hrun := hrun.tail (@Server.Step.turn _ _ _ _ asciiTables _ _ _ _ _ _
    (.request _ 1 .write 0 _ rfl rfl))
  exact ⟨_, hrun, rfl, ⟨rfl, _, _, rfl⟩, ⟨rfl, _, _, rfl⟩,
    @key_locking_deadlock_free _ _ _ _ asciiTables _ _ _ _ _ hrun⟩

end TinyDb
